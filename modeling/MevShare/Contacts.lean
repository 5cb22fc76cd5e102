import MevShare.BuilderConsent
/-!
# Which builders are contacted

`SentInternal` and `SentExternal` say in terms of a bundle and the configuration
to whom the two loops of `SendBundle` send (`mem_contacts_spawned`).

A bundle that can be replaced goes to builders that know replacements, to internal
and external ones. A signer with the restricted address is treated the same way by
the loop over the internal builders; the loop over the external ones does not look
at the signer (`contacts_replacement_iff`).
-/
open Lib

namespace MevShare

variable {D : Deps}

/-! ## Selected builders -/

/-- The bundle names the external builder, after the merge of the lists of the tree and in upper or lower case. -/
def Names (D : Deps) (b : BuildersBackend) (bundle : SendMevBundleArgs) (x : JSONRPCBuilderBackend) : Prop :=
  ∃ t ∈ privacyBuilders (mergedPrivacy D bundle), D.toLower t ≠ "default" ∧ D.toLower t ≠ "flashbots" ∧
    b.externalBuilders (D.toLower t) = some x

/-- The bundle can be replaced, and the builder does not know replacements. -/
def Unreplaceable (bundle : SendMevBundleArgs) (x : JSONRPCBuilderBackend) : Prop :=
  bundle.replacementUUID ≠ "" ∧ x.api ≠ .mevShareBeta1Replacement

/-- The builder waits for the second block, and this is the first one. -/
def Delayed (bundle : SendMevBundleArgs) (targetBlock : UInt64) (x : JSONRPCBuilderBackend) : Prop :=
  x.delay = true ∧ bundle.inclusion.blockNumber = targetBlock

/-- The signer has the restricted address, in upper or lower case. -/
def Restricted (D : Deps) (b : BuildersBackend) (bundle : SendMevBundleArgs) : Prop :=
  ∃ m, bundle.metadata = some m ∧ D.toLower (D.addressString m.signer) = D.toLower b.restrictedAddress

/-- The loop over the internal builders sends to this one. -/
def SentInternal (D : Deps) (b : BuildersBackend) (bundle : SendMevBundleArgs) (targetBlock : UInt64)
    (x : JSONRPCBuilderBackend) : Prop :=
  x ∈ b.internalBuilders ∧ ¬Unreplaceable bundle x ∧
    ¬(Restricted D b bundle ∧ x.api ≠ .mevShareBeta1Replacement) ∧ ¬Delayed bundle targetBlock x

/-- The loop over the names sends to this one. -/
def SentExternal (D : Deps) (b : BuildersBackend) (bundle : SendMevBundleArgs) (targetBlock : UInt64)
    (x : JSONRPCBuilderBackend) : Prop :=
  Names D b bundle x ∧ ¬Unreplaceable bundle x ∧ ¬Delayed bundle targetBlock x

/-- The goroutines that a call of `SendBundle` starts; a call that panics has started none. -/
def BuildersBackend.spawned (D : Deps) (b : BuildersBackend) (bundle : SendMevBundleArgs) (targetBlock : UInt64)
    (shouldCancel : Bool) : List Spawn :=
  match b.sendBundle D bundle targetBlock shouldCancel with
  | .ok d => d.internal ++ d.external
  | .error _ => []

section Prepared
variable {b : BuildersBackend} {bundle : SendMevBundleArgs} {targetBlock : UInt64} {shouldCancel : Bool} {p : Prepared}

theorem mem_spawned {s : Spawn} :
    s ∈ b.spawned D bundle targetBlock shouldCancel ↔
      ∃ p, prepare D bundle targetBlock shouldCancel = .ok p ∧
        (s ∈ internalSpawns D b p ∨ s ∈ externalSpawns D b p p.builders []) := by
  unfold BuildersBackend.spawned BuildersBackend.sendBundle
  cases hp : prepare D bundle targetBlock shouldCancel with
  | error e => simp [bind, Except.bind]
  | ok p => simp [bind, Except.bind, pure, Except.pure]

theorem mem_internalSpawns_iff (h : prepare D bundle targetBlock shouldCancel = .ok p) {s : Spawn} :
    s ∈ internalSpawns D b p ↔
      ∃ x ∈ b.internalBuilders, ¬Unreplaceable bundle x ∧
        ¬(Restricted D b bundle ∧ x.api ≠ .mevShareBeta1Replacement) ∧
        (Delayed bundle targetBlock x ∧ ⟨x, none, true⟩ = s ∨
          ¬Delayed bundle targetBlock x ∧ ⟨x, some p.iArgs, true⟩ = s) := by
  obtain ⟨m, hm, hsigner, -, hfirst, hrepl, -⟩ := prepare_fields h
  have hrestricted : Restricted D b bundle ↔
      D.toLower (D.addressString p.signingAddress) = D.toLower b.restrictedAddress := by
    simp [Restricted, hm, hsigner]
  rw [internalSpawns, List.mem_filterMap]
  refine exists_congr fun x => and_congr_right fun _ => ?_
  rw [hrestricted]
  simp only [Unreplaceable, Delayed, hfirst, hrepl, Bool.and_eq_true, decide_eq_true_eq]
  split_ifs <;> simp_all

theorem mem_externalSpawns_names (h : prepare D bundle targetBlock shouldCancel = .ok p) {s : Spawn} :
    s ∈ externalSpawns D b p p.builders [] ↔
      ∃ x, Names D b bundle x ∧ ¬Unreplaceable bundle x ∧
        (Delayed bundle targetBlock x ∧ ⟨x, none, false⟩ = s ∨
          ¬Delayed bundle targetBlock x ∧ ⟨x, some p.args, true⟩ = s) := by
  obtain ⟨m, -, -, hbuilders, hfirst, hrepl, -⟩ := prepare_fields h
  rw [mem_externalSpawns, hbuilders]
  have hspawn (t : String) : externalSpawn b p t = some s ↔
      ∃ x, (t ≠ "default" ∧ t ≠ "flashbots" ∧ b.externalBuilders t = some x) ∧ ¬Unreplaceable bundle x ∧
        (Delayed bundle targetBlock x ∧ ⟨x, none, false⟩ = s ∨
          ¬Delayed bundle targetBlock x ∧ ⟨x, some p.args, true⟩ = s) := by
    unfold externalSpawn
    cases b.externalBuilders t with
    | none => simp
    | some x =>
      simp only [Unreplaceable, Delayed, hfirst, hrepl, Bool.and_eq_true, Bool.or_eq_true, decide_eq_true_eq,
        Option.some.injEq]
      split_ifs with ht
      · rcases ht with rfl | rfl <;> simp
      all_goals simp_all
  simp only [hspawn, Names, List.not_mem_nil, not_false_eq_true, true_and]
  constructor
  · rintro ⟨t, ht, x, hx, hsel⟩
    exact ⟨x, ⟨t, ht, hx⟩, hsel⟩
  · rintro ⟨x, ⟨t, ht, hx⟩, hsel⟩
    exact ⟨t, ht, x, hx, hsel⟩

/-- Who is contacted with what: the internal builders with the signer, the external ones without. -/
theorem mem_contacts_spawned {x : JSONRPCBuilderBackend} {args : SendMevBundleArgs} :
    (x, args) ∈ contacts (b.spawned D bundle targetBlock shouldCancel) ↔
      ∃ p, prepare D bundle targetBlock shouldCancel = .ok p ∧
        (SentInternal D b bundle targetBlock x ∧ args = p.iArgs ∨
          SentExternal D b bundle targetBlock x ∧ args = p.args) := by
  simp only [mem_contacts, mem_spawned]
  constructor
  · rintro ⟨s, ⟨p, hp, hs | hs⟩, rfl, hc⟩
    · obtain ⟨x, hx, hrepl, hres, ⟨-, rfl⟩ | ⟨hdelay, rfl⟩⟩ := (mem_internalSpawns_iff hp).1 hs
      · cases hc
      · cases hc
        exact ⟨p, hp, .inl ⟨⟨hx, hrepl, hres, hdelay⟩, rfl⟩⟩
    · obtain ⟨x, hx, hrepl, ⟨-, rfl⟩ | ⟨hdelay, rfl⟩⟩ := (mem_externalSpawns_names hp).1 hs
      · cases hc
      · cases hc
        exact ⟨p, hp, .inr ⟨⟨hx, hrepl, hdelay⟩, rfl⟩⟩
  · rintro ⟨p, hp, ⟨⟨hx, hrepl, hres, hdelay⟩, rfl⟩ | ⟨⟨hx, hrepl, hdelay⟩, rfl⟩⟩
    · exact ⟨_, ⟨p, hp, .inl ((mem_internalSpawns_iff hp).2 ⟨x, hx, hrepl, hres, .inr ⟨hdelay, rfl⟩⟩)⟩, rfl, rfl⟩
    · exact ⟨_, ⟨p, hp, .inr ((mem_externalSpawns_names hp).2 ⟨x, hx, hrepl, .inr ⟨hdelay, rfl⟩⟩)⟩, rfl, rfl⟩

end Prepared

/-! ## Replaceable bundles and restricted signers -/

/-- Every builder that a call of `SendBundle` contacts knows replacements. -/
def OnlyReplacement (D : Deps) (b : BuildersBackend) (bundle : SendMevBundleArgs) (targetBlock : UInt64)
    (shouldCancel : Bool) : Prop :=
  ∀ x args, (x, args) ∈ contacts (b.spawned D bundle targetBlock shouldCancel) → x.api = .mevShareBeta1Replacement

/-- A bundle that can be replaced or whose signer is restricted goes to builders
that know replacements only, unless it cannot be replaced, the signer is
restricted and it names an external builder that does not know them. -/
theorem contacts_replacement_iff (D : Deps) (b : BuildersBackend) (bundle : SendMevBundleArgs) (targetBlock : UInt64)
    (shouldCancel : Bool) :
    (bundle.replacementUUID ≠ "" ∨ Restricted D b bundle → OnlyReplacement D b bundle targetBlock shouldCancel) ↔
      ¬(bundle.replacementUUID = "" ∧ Restricted D b bundle ∧
        ∃ x, Names D b bundle x ∧ ¬Delayed bundle targetBlock x ∧ x.api ≠ .mevShareBeta1Replacement) := by
  constructor
  · rintro h ⟨huuid, hres, x, hx, hdelay, hapi⟩
    obtain ⟨m, hm, -⟩ := id hres
    -- the metadata is there, so the call does not panic
    obtain ⟨p, hp⟩ := prepare_of_metadata (D := D) hm targetBlock shouldCancel
    have hsent : SentExternal D b bundle targetBlock x := ⟨hx, fun hrepl => hrepl.1 huuid, hdelay⟩
    exact hapi (h (.inr hres) x p.args (mem_contacts_spawned.2 ⟨p, hp, .inr ⟨hsent, rfl⟩⟩))
  · intro h hwhen x args hx
    by_contra hapi
    obtain ⟨p, hp, ⟨⟨-, hrepl, hres, -⟩, -⟩ | ⟨⟨hname, hrepl, hdelay⟩, -⟩⟩ := mem_contacts_spawned.1 hx
    · rcases hwhen with huuid | hsigner
      · exact hrepl ⟨huuid, hapi⟩
      · exact hres ⟨hsigner, hapi⟩
    · rcases hwhen with huuid | hsigner
      · exact hrepl ⟨huuid, hapi⟩
      · exact h ⟨by_contra fun huuid => hrepl ⟨huuid, hapi⟩, hsigner, x, hname, hdelay, hapi⟩

/-- A signer, and outside code that prints it with the mixed case of its checksum. -/
def restrictedSigner : Address := 0xabababababababababababababababababababab#160

def restrictedDeps : Deps :=
  { sampleDeps with
    addressString := fun a =>
      if a = restrictedSigner then "0xABaBaBaBABabABabAbAbABAbABabababaBaBABaB" else sampleDeps.addressString a }

/-- An external builder that does not know replacements, and the signer's address as the restricted one. -/
def restrictedConfig : BuildersConfig :=
  ⟨[⟨"alpha", "http://alpha", "v0.1", false, false, false⟩], "0xabababababababababababababababababababab"⟩

def restrictedBundle : SendMevBundleArgs :=
  ⟨"v0.1", "", ⟨2, 4⟩, [⟨none, some sampleTx, none, false, ""⟩], ⟨[], []⟩, some ⟨hintHash, ["alpha"], none⟩,
    some { MevBundleMetadata.empty with signer := restrictedSigner }⟩

/-- The external loop does not look at the signer: the builder is sent the bundle. -/
theorem restricted_signer_sent :
    ∃ b, loadBuilderConfig restrictedDeps restrictedConfig = .ok b ∧ Restricted restrictedDeps b restrictedBundle ∧
      (contacts (b.spawned restrictedDeps restrictedBundle 3 false)).map (fun c => c.1.api) = [.mevShareBeta1] ∧
      ¬OnlyReplacement restrictedDeps b restrictedBundle 3 false := by
  refine ⟨_, rfl, ⟨_, rfl, by decide +kernel⟩, by decide, fun h => ?_⟩
  have hapi := h ⟨"alpha", "http://alpha", .mevShareBeta1, false⟩ _ (List.mem_singleton.2 rfl)
  cases hapi

end MevShare
