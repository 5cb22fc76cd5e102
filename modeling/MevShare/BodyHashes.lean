import MevShare.Validation
import Mathlib.Data.List.Forall2
/-!
# The body hashes of an accepted bundle

The code that runs after validation reads `BodyHashes[i]` as the hash of
`Body[i]`. The loop of `validateBundleInner` appends one hash for each element
that carries something (`body_spec`), whatever else the element carries, and
leaves every other field alone: `cleanBody` was meant to drop them and does
not. So the body is aligned with its hashes exactly if every submitted element
carried exactly one of the three fields (`aligned_iff_single`).
-/
open Lib

namespace MevShare

/-- The element carries exactly one of a hash, a transaction and a bundle. -/
def MevBundleBody.Single (el : MevBundleBody) : Prop :=
  el.hash.isSome.toNat + el.tx.isSome.toNat + el.bundle.isSome.toNat = 1

instance (el : MevBundleBody) : Decidable el.Single := inferInstanceAs (Decidable (_ = _))

def AllSingle (b : SendMevBundleArgs) : Prop := ∀ el ∈ b.body, el.Single

instance (b : SendMevBundleArgs) : Decidable (AllSingle b) := inferInstanceAs (Decidable (∀ el ∈ b.body, el.Single))

/-- The hash of an element: the given hash, the hash of the decoded
transaction, or the bundle hash of the nested bundle. -/
def elementHash (D : Deps) (el : MevBundleBody) : Option Hash :=
  match el.hash, el.tx, el.bundle with
  | some h, _, _ => some h
  | none, some t, _ => (D.unmarshalBinary t).toOption.map (·.hash)
  | none, none, some c => c.metadata.map (·.bundleHash)
  | none, none, none => none

/-- Every element carries exactly one field, and the metadata has one hash for
each element, the element's own. -/
structure Aligned (D : Deps) (b : SendMevBundleArgs) : Prop where
  single : AllSingle b
  hashes : ∃ m, b.metadata = some m ∧ m.bodyHashes.length = b.body.length ∧
    ∀ i : Nat, m.bodyHashes[i]? = (b.body[i]?).bind (elementHash D)

/-- What validation leaves of an element. -/
inductive Kept (D : Deps) (currentBlock : UInt64) (level : Nat) : MevBundleBody → MevBundleBody → Prop
  | hash {h tx bundle canRevert revertMode} :
      Kept D currentBlock level ⟨some h, tx, bundle, canRevert, revertMode⟩ ⟨some h, tx, bundle, canRevert, revertMode⟩
  | tx {t d bundle canRevert revertMode canRevert' revertMode'} : D.unmarshalBinary t = .ok d →
      Kept D currentBlock level ⟨none, some t, bundle, canRevert, revertMode⟩
        ⟨none, some t, bundle, canRevert', revertMode'⟩
  | bundle {c r canRevert revertMode} : validateBundleInner D currentBlock (level + 1) c = .ok r →
      Kept D currentBlock level ⟨none, none, some c, canRevert, revertMode⟩
        ⟨none, none, some r.bundle, canRevert, revertMode⟩
  | empty {canRevert revertMode} :
      Kept D currentBlock level ⟨none, none, none, canRevert, revertMode⟩ ⟨none, none, none, canRevert, revertMode⟩

variable {D : Deps} {currentBlock : UInt64} {level : Nat}

/-! ## One level -/

theorem bundleHash_of_ok {b : SendMevBundleArgs} {r : Validated}
    (h : validateBundleInner D currentBlock level b = .ok r) : r.bundle.metadata.map (·.bundleHash) = some r.hash := by
  obtain ⟨_, st, -, -, -, -, hf⟩ := validated_inv h
  obtain ⟨-, -, p, -, rfl⟩ := finishBundle_ok hf
  rfl

/-- A turn appends one element, made from the one it looked at, and its hash if it has one. -/
theorem turn_kept {size i : Nat} {el : MevBundleBody} {st st' : BodyState}
    (h : Turn D currentBlock level size i st el st') :
    ∃ el', Kept D currentBlock level el el' ∧ st'.body = st.body ++ [el'] ∧
      st'.bodyHashes = st.bodyHashes ++ (elementHash D el').toList := by
  cases h with
  | hash _ _ _ => exact ⟨_, .hash, rfl, rfl⟩
  | tx hd _ => exact ⟨_, .tx hd, rfl, by simp [elementHash, hd, Except.toOption]⟩
  | bundle _ hr _ => exact ⟨_, .bundle hr, rfl, by simp [elementHash, bundleHash_of_ok hr]⟩
  | empty => exact ⟨_, .empty, rfl, by simp [elementHash]⟩

theorem body_spec {size : Nat} {els : List MevBundleBody} {st st' : BodyState} (hbody : st.body = [])
    (hhashes : st.bodyHashes = []) (h : validateBody D currentBlock level size 0 els st = .ok st') :
    List.Forall₂ (Kept D currentBlock level) els st'.body ∧
      st'.bodyHashes = st'.body.filterMap (elementHash D) := by
  refine validateBody_ok (P := fun done st => List.Forall₂ (Kept D currentBlock level) done st.body ∧
    st.bodyHashes = st.body.filterMap (elementHash D)) ?_ (by simp [hbody, hhashes]) h
  rintro done el st st' - ⟨hkept, hhashes⟩ hturn
  obtain ⟨el', hk, hbody', hhashes'⟩ := turn_kept hturn
  rw [hbody', hhashes', hhashes, List.filterMap_append]
  refine ⟨List.rel_append hkept (.cons hk .nil), ?_⟩
  cases hel' : elementHash D el' with
  | none => simp [hel']
  | some g => simp [hel']

/-- The body an accepted bundle ends with, and its hashes: one for each element that has one. -/
theorem validated_body {b : SendMevBundleArgs} {r : Validated}
    (h : validateBundleInner D currentBlock level b = .ok r) :
    List.Forall₂ (Kept D currentBlock level) b.body r.bundle.body ∧
      ∃ m, r.bundle.metadata = some m ∧ m.bodyHashes = r.bundle.body.filterMap (elementHash D) := by
  obtain ⟨_, st, -, -, -, hst, hf⟩ := validated_inv h
  obtain ⟨hkept, hhashes⟩ := body_spec rfl rfl hst
  obtain ⟨-, -, p, -, rfl⟩ := finishBundle_ok hf
  exact ⟨hkept, _, rfl, hhashes⟩

/-! ## The tree -/

theorem Kept.single_iff {el el' : MevBundleBody} (h : Kept D currentBlock level el el') : el'.Single ↔ el.Single := by
  cases h <;> simp [MevBundleBody.Single]

/-- A kept element that carries exactly one field has a hash. -/
theorem Kept.hash_some {el el' : MevBundleBody} (h : Kept D currentBlock level el el') (hs : el'.Single) :
    ∃ g, elementHash D el' = some g := by
  cases h with
  | @hash g => exact ⟨g, rfl⟩
  | @tx t d _ _ _ _ _ hd => exact ⟨d.hash, by simp [elementHash, hd, Except.toOption]⟩
  | @bundle c r _ _ hr => exact ⟨r.hash, by simp [elementHash, bundleHash_of_ok hr]⟩
  | empty => simp [MevBundleBody.Single] at hs

theorem allSingle_kept {l l' : List MevBundleBody} (h : List.Forall₂ (Kept D currentBlock level) l l') :
    (∀ el ∈ l', el.Single) ↔ ∀ el ∈ l, el.Single := by
  induction h with
  | nil => simp
  | cons hk _ ih => simp only [List.forall_mem_cons, hk.single_iff, ih]

theorem exists_of_mem_right {α β : Type} {R : α → β → Prop} {l : List α} {l' : List β} {y : β}
    (h : List.Forall₂ R l l') (hy : y ∈ l') : ∃ x ∈ l, R x y := by
  induction h with
  | nil => cases hy
  | @cons x _ l _ hxy _ ih =>
    rcases List.mem_cons.1 hy with rfl | hy
    · exact ⟨x, by simp, hxy⟩
    · obtain ⟨x, hx, hxy⟩ := ih hy
      exact ⟨x, by simp [hx], hxy⟩

/-- Every submitted element is kept in some form. -/
theorem kept_of_mem {b : SendMevBundleArgs} {r : Validated} {el : MevBundleBody}
    (h : validateBundleInner D currentBlock level b = .ok r) (hel : el ∈ b.body) :
    ∃ el' ∈ r.bundle.body, Kept D currentBlock level el el' :=
  exists_of_mem_right (validated_body h).1.flip hel

/-- Every element of an accepted bundle was submitted in some form. -/
theorem submitted_of_mem {b : SendMevBundleArgs} {r : Validated} {el' : MevBundleBody}
    (h : validateBundleInner D currentBlock level b = .ok r) (hel' : el' ∈ r.bundle.body) :
    ∃ el ∈ b.body, Kept D currentBlock level el el' :=
  exists_of_mem_right (validated_body h).1 hel'

/-- A filter that drops nothing keeps the positions. -/
theorem filterMap_aligned {α β : Type} (f : α → Option β) (l : List α) (h : ∀ x ∈ l, ∃ y, f x = some y) :
    (l.filterMap f).length = l.length ∧ ∀ i : Nat, (l.filterMap f)[i]? = (l[i]?).bind f := by
  induction l with
  | nil => simp
  | cons x l ih =>
    obtain ⟨y, hy⟩ := h x (by simp)
    obtain ⟨hlen, hget⟩ := ih fun z hz => h z (by simp [hz])
    rw [List.filterMap_cons, hy]
    refine ⟨by simp [hlen], fun i => ?_⟩
    cases i with
    | zero => simp [hy]
    | succ i => simpa using hget i

theorem aligned_of_single {b : SendMevBundleArgs} {r : Validated}
    (h : validateBundleInner D currentBlock level b = .ok r) (hs : AllSingle b) : Aligned D r.bundle := by
  obtain ⟨hk, m, hm, hh⟩ := validated_body h
  have hs' : AllSingle r.bundle := (allSingle_kept hk).2 hs
  have hsome : ∀ el' ∈ r.bundle.body, ∃ g, elementHash D el' = some g := by
    intro el' hel'
    obtain ⟨el, -, hkept⟩ := submitted_of_mem h hel'
    exact hkept.hash_some (hs' el' hel')
  obtain ⟨hlen, hget⟩ := filterMap_aligned (elementHash D) r.bundle.body hsome
  exact ⟨hs', m, hm, by rw [hh, hlen], fun i => by rw [hh, hget]⟩

/-- The bundles that two elements hold are alike, if those a kept bundle is made from are. -/
theorem nested_allSingle_iff {l l' : List MevBundleBody} (hk : List.Forall₂ (Kept D currentBlock level) l l')
    (ih : ∀ el ∈ l, ∀ c, el.bundle = some c → ∀ {level : Nat} {r : Validated},
      validateBundleInner D currentBlock level c = .ok r → (Everywhere AllSingle r.bundle ↔ Everywhere AllSingle c)) :
    (∀ el ∈ l', ∀ c, el.bundle = some c → Everywhere AllSingle c) ↔
      ∀ el ∈ l, ∀ c, el.bundle = some c → Everywhere AllSingle c := by
  induction hk with
  | nil => simp
  | @cons el el' l l' hel _ ihl =>
    simp only [List.forall_mem_cons]
    refine and_congr ?_ (ihl fun e he => ih e (by simp [he]))
    cases hel with
    | hash => rfl
    | tx => rfl
    | @bundle c rc _ _ hc => simpa using ih _ List.mem_cons_self c rfl hc
    | empty => rfl

/-- Validation neither adds nor removes a field of an element, at any depth. -/
theorem everywhere_allSingle_iff (b : SendMevBundleArgs) :
    ∀ {level : Nat} {r : Validated}, validateBundleInner D currentBlock level b = .ok r →
      (Everywhere AllSingle r.bundle ↔ Everywhere AllSingle b) := by
  induction b using SendMevBundleArgs.tree_induction with
  | h b ih =>
    intro level r h
    obtain ⟨hk, -⟩ := validated_body h
    rw [everywhere_iff, everywhere_iff, AllSingle, AllSingle, allSingle_kept hk, nested_allSingle_iff hk ih]

namespace MevBundleBody.Single
variable {el : MevBundleBody}

theorem of_hash {g : Hash} (h : el.Single) (hg : el.hash = some g) : el.tx = none ∧ el.bundle = none := by
  simp only [MevBundleBody.Single, hg, Option.isSome_some, Bool.toNat_true, Nat.add_assoc, Nat.add_eq_left,
    Nat.add_eq_zero_iff, Bool.toNat_eq_zero, Option.isSome_eq_false_iff, Option.isNone_iff_eq_none] at h
  exact h

theorem of_tx {tx : Bytes} (h : el.Single) (htx : el.tx = some tx) : el.hash = none ∧ el.bundle = none := by
  simp only [MevBundleBody.Single, htx, Option.isSome_some, Bool.toNat_true, Nat.add_right_comm _ 1, Nat.add_eq_right,
    Nat.add_eq_zero_iff, Bool.toNat_eq_zero, Option.isSome_eq_false_iff, Option.isNone_iff_eq_none] at h
  exact h

theorem of_bundle {c : SendMevBundleArgs} (h : el.Single) (hc : el.bundle = some c) :
    el.hash = none ∧ el.tx = none := by
  simp only [MevBundleBody.Single, hc, Option.isSome_some, Bool.toNat_true, Nat.add_eq_right, Nat.add_eq_zero_iff,
    Bool.toNat_eq_zero, Option.isSome_eq_false_iff, Option.isNone_iff_eq_none] at h
  exact h

end MevBundleBody.Single

/-- What every call leaves of a bundle with `R` holds everywhere in the tree: if
the elements carry one field each, every nested bundle was validated by a call. -/
theorem everywhere_of_single {R Q : SendMevBundleArgs → Prop} (hR : ∀ b, R b → AllSingle b)
    (hQ : ∀ {level : Nat} {b : SendMevBundleArgs} {r : Validated}, validateBundleInner D currentBlock level b = .ok r →
      R b → Q r.bundle) (b : SendMevBundleArgs) :
    ∀ {level : Nat} {r : Validated}, validateBundleInner D currentBlock level b = .ok r →
      Everywhere R b → Everywhere Q r.bundle := by
  induction b using SendMevBundleArgs.tree_induction with
  | h b ih =>
    intro level r h hb
    obtain ⟨hb, hnested⟩ := everywhere_iff.1 hb
    refine .node (hQ h hb) fun el' hel' c' hc' => ?_
    obtain ⟨el, hel, hkept⟩ := submitted_of_mem h hel'
    obtain ⟨hhash, htx⟩ := (hkept.single_iff.2 (hR b hb el hel)).of_bundle hc'
    cases hkept with
    | hash => cases hhash
    | tx => cases htx
    | @bundle c rc _ _ hrc =>
      cases hc'
      exact ih _ hel c rfl hrc (hnested _ hel c rfl)
    | empty => cases hc'

/-- The bundle an accepted submission turns into has, at every level, one field
in each element and the element's hash at its position in `BodyHashes`, if and
only if every element of the submission, at every level, carries exactly one of
a hash, a transaction and a bundle. -/
theorem aligned_iff_single {b : SendMevBundleArgs} {r : Validated} (h : validateBundle D currentBlock b = .ok r) :
    Everywhere (Aligned D) r.bundle ↔ Everywhere AllSingle b := by
  constructor
  · intro ha
    rw [← everywhere_allSingle_iff b h]
    exact ha.mono fun _ hc => hc.single
  · exact everywhere_of_single (fun _ hs => hs) aligned_of_single b h

/-- A bundle with one transaction element. -/
def oneTx (el : MevBundleBody) : SendMevBundleArgs :=
  ⟨"v0.1", "", ⟨2, 2⟩, [el], ⟨[], []⟩, none, none⟩

/-- A transaction, and a bundle of one transaction that is paid a refund. -/
def refundedPair : SendMevBundleArgs :=
  ⟨"v0.1", "", ⟨2, 3⟩, [⟨none, none, some (oneTx ⟨none, some sampleTx, none, false, ""⟩), false, ""⟩,
    ⟨none, some sampleTx, none, false, ""⟩], ⟨[⟨0, 90⟩], []⟩, some ⟨hintLogs, [], some 80⟩, none⟩

theorem refundedPair_single : Everywhere AllSingle refundedPair := by
  refine .node (by decide) fun el hel c hc => ?_
  rcases List.mem_pair.1 hel with rfl | rfl
  · cases hc
    exact everywhere_of_flat (by decide) (by decide)
  · cases hc

theorem aligned_iff_single_refundedPair :
    ∃ r, validateBundle sampleDeps 1 refundedPair = .ok r ∧ Everywhere (Aligned sampleDeps) r.bundle :=
  ⟨_, rfl, (@aligned_iff_single sampleDeps 1 _ _ rfl).2 refundedPair_single⟩

/-- An element with a transaction and a bundle passes, and keeps both. -/
theorem both_fields_kept :
    ∃ b r, validateBundle sampleDeps 1 b = .ok r ∧ ¬Everywhere (Aligned sampleDeps) r.bundle := by
  refine ⟨oneTx ⟨none, some sampleTx, some (oneTx ⟨none, some sampleTx, none, false, ""⟩), false, ""⟩, _, rfl, ?_⟩
  rintro ⟨⟨hs, -⟩, -⟩
  exact absurd (hs _ (List.mem_singleton.2 rfl)) (by decide)

end MevShare
