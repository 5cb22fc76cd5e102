import MevShare.BundleJson
import MevShare.Lib.JsonText
/-!
# Bundles as text

`json.Marshal` and `json.Unmarshal` on a bundle, down to the bytes. Each bundle
inside another one adds three levels to the text, an object, the array of its body
and an element, so text and bundle are read back together (`unmarshal_marshal`) up
to the depth that the parser accepts.
-/
open Lib

namespace MevShare

/-- `encoding/json` on bundles. -/
structure Json where
  marshal : SendMevBundleArgs → Bytes
  unmarshal : Bytes → Except Err SendMevBundleArgs

def bundleJson : Json where
  marshal b := marshalText (encodeBundle b)
  unmarshal data :=
    match (unmarshalText data).bind unmarshalBundle with
    | some b => .ok b
    | none => .error (.decode "json")

/-- As many levels as the text of a bundle can have. -/
def maxBundleLevels : Nat := 3333

theorem writable_omitEmpty {n : Nat} {empty : Bool} {j : JsonValue} (h : Writable n j) :
    ∀ j' ∈ omitEmpty empty j, Writable n j' := by
  intro j' hj
  obtain ⟨-, heq⟩ := Option.ite_none_left_eq_some.1 hj
  cases heq
  exact h

theorem writable_some {n : Nat} {j : JsonValue} (h : Writable n j) : ∀ j' ∈ some j, Writable n j' := by
  rintro _ ⟨⟩
  exact h

theorem writable_map {α : Type} {n : Nat} {enc : α → JsonValue} {x : Option α} (h : ∀ y ∈ x, Writable n (enc y)) :
    ∀ j ∈ x.map enc, Writable n j := by
  intro j hj
  obtain ⟨y, hy, rfl⟩ := Option.map_eq_some_iff.1 hj
  exact h y hy

theorem writable_inclusion (n : Nat) (i : MevBundleInclusion) : Writable (n + 1) (encodeObject inclusionFields i) :=
  writable_object (List.forall_mem_cons.2 ⟨writable_some (.str _), List.forall_mem_singleton.2 (writable_some (.str _))⟩)

theorem writable_validity (n : Nat) (v : MevBundleValidity) : Writable (n + 3) (encodeObject validityFields v) := by
  refine writable_object (List.forall_mem_cons.2 ⟨writable_omitEmpty (writable_array fun c _ => writable_object ?_),
    List.forall_mem_singleton.2 (writable_omitEmpty (writable_array fun c _ => writable_object ?_))⟩)
  · exact List.forall_mem_cons.2 ⟨writable_some (.int _), List.forall_mem_singleton.2 (writable_some (.int _))⟩
  · exact List.forall_mem_cons.2 ⟨writable_some (.str _), List.forall_mem_singleton.2 (writable_some (.int _))⟩

theorem writable_hints (n : Nat) (hints : HintIntent) : Writable (n + 1) (HintIntent.marshalJSON hints) := by
  unfold HintIntent.marshalJSON
  split
  · exact .null
  · exact writable_array fun s _ => .str s

theorem writable_privacy (n : Nat) (p : MevBundlePrivacy) : Writable (n + 2) (encodeObject privacyFields p) := by
  refine writable_object fun f hf => ?_
  simp only [privacyFields, List.mem_cons, List.not_mem_nil, or_false] at hf
  rcases hf with rfl | rfl | rfl
  · exact writable_omitEmpty (writable_hints n p.hints)
  · exact writable_omitEmpty (writable_array fun s _ => .str s)
  · exact writable_map fun z _ => .int z

theorem writable_metadata (n : Nat) (m : MevBundleMetadata) : Writable (n + 2) (encodeObject metadataFields m) := by
  refine writable_object fun f hf => ?_
  simp only [metadataFields, List.mem_cons, List.not_mem_nil, or_false] at hf
  rcases hf with rfl | rfl | rfl | rfl | rfl | rfl | rfl | rfl | rfl
  · exact writable_some (.str _)
  · exact writable_omitEmpty (writable_array fun h _ => .str _)
  · exact writable_some (.str _)
  · exact writable_omitEmpty (.str _)
  · exact writable_omitEmpty (.str _)
  · exact writable_some (.str _)
  · exact writable_some (.bool _)
  · exact writable_omitEmpty (.int _)
  · exact writable_some (.bool _)

theorem writable_body {n : Nat} {el : MevBundleBody} (h : ∀ c, el.bundle = some c → Writable n (encodeBundle c)) :
    Writable (n + 1) (encodeBody el) := by
  rw [encodeBody_eq fun _ _ => none]
  refine writable_object fun f hf => ?_
  simp only [bodyFields, List.mem_cons, List.not_mem_nil, or_false] at hf
  rcases hf with rfl | rfl | rfl | rfl | rfl
  · exact writable_map fun h _ => .str _
  · exact writable_map fun t _ => .str _
  · dsimp only
    rw [encodeInner_eq]
    exact writable_map h
  · exact writable_omitEmpty (.bool _)
  · exact writable_omitEmpty (.str _)

/-- Each level of bundles is three levels of text, and the last one may have a level more. -/
theorem writable_bundle {n : Nat} {b : SendMevBundleArgs} (h : Within n b) : Writable (3 * n + 1) (encodeBundle b) := by
  induction h with
  | @node n b _ ih =>
    rw [encodeBundle_eq fun _ _ => none]
    refine @writable_object _ (3 * n + 3) _ _ fun f hf => ?_
    simp only [bundleFields, List.mem_cons, List.not_mem_nil, or_false] at hf
    rcases hf with rfl | rfl | rfl | rfl | rfl | rfl | rfl
    · exact writable_some (.str _)
    · exact writable_omitEmpty (.str _)
    · exact writable_some (writable_inclusion _ _)
    · refine writable_some ?_
      rw [encodeBodies_eq]
      exact writable_array fun el hel => writable_body (ih el hel)
    · exact writable_some (writable_validity _ _)
    · exact writable_map fun p _ => writable_privacy _ p
    · exact writable_map fun m _ => writable_metadata _ m

theorem Within.mono {n m : Nat} {b : SendMevBundleArgs} (h : Within n b) (hle : n ≤ m) : Within m b := by
  induction h generalizing m with
  | node _ ih =>
    obtain ⟨m, rfl⟩ := Nat.exists_eq_succ_of_ne_zero (Nat.ne_zero_of_lt hle)
    exact .node fun el hel c hc => ih el hel c hc (Nat.le_of_succ_le_succ hle)

/-- A bundle is read back from its text, as long as bundles are not nested too deeply. -/
theorem unmarshal_marshal {b : SendMevBundleArgs} (hlevels : Within maxBundleLevels b) (hb : Everywhere Encodable b) :
    bundleJson.unmarshal (bundleJson.marshal b) = .ok b := by
  have htext : unmarshalText (marshalText (encodeBundle b)) = some (encodeBundle b) :=
    unmarshalText_marshalText (writable_bundle hlevels)
  have hread : unmarshalBundle (encodeBundle b) = some b :=
    restores_bundle (hlevels.mono (by decide)) hb _ (.refl _)
  simp only [bundleJson, htext, Option.bind_some, hread]

/-- A bundle without refunds and without other bundles in it is within what JSON can say. -/
theorem flat_readable {b : SendMevBundleArgs} (hvalidity : b.validity = ⟨[], []⟩) (hprivacy : ∀ p ∈ b.privacy, p.Encodable)
    (hflat : ∀ el ∈ b.body, el.bundle = none) : Readable 1 b := by
  refine ⟨.node fun el hel c hc => ?_, everywhere_of_flat ⟨hvalidity ▸ ⟨nofun, nofun⟩, hprivacy⟩ hflat⟩
  rw [hflat el hel] at hc
  cases hc

end MevShare
