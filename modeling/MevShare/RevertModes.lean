import MevShare.Limits
/-!
# Revert modes

Whether a transaction may revert is said twice, by `canRevert` and by
`revertMode`. Validation makes the two agree, and before a simulation the modes
are rewritten to the flag alone, because the simulator does not know them
(`backend.go`). Both walk the tree on their own. `Alike` compares two trees
position by position, and the theorem says when both do what they should: always,
but for an element with a hash, which validation keeps as it was submitted.
-/
open Lib

namespace MevShare

/-! ## `replaceRevertModeForSimulation` -/

mutual
/-- The bundle as it is sent to the simulator; the replacement id is dropped. -/
def replaceRevertModeForSimulation : SendMevBundleArgs → SendMevBundleArgs
  | ⟨version, _, inclusion, body, validity, privacy, metadata⟩ =>
    ⟨version, "", inclusion, replaceRevertModes body, validity, privacy, metadata⟩

/-- The loop over the body: a new element for each one, with its transaction and
its bundle, but without its hash and its mode. -/
def replaceRevertModes : List MevBundleBody → List MevBundleBody
  | [] => []
  | ⟨_, tx, bundle, canRevert, revertMode⟩ :: rest =>
    ⟨none, tx, match bundle with
      | some inner => some (replaceRevertModeForSimulation inner)
      | none => none,
      if tx.isSome then if revertMode = "drop" then true else canRevert else false, ""⟩ :: replaceRevertModes rest
end

theorem replaceRevertModes_cons (hash : Option Hash) (tx : Option Bytes) (bundle : Option SendMevBundleArgs) (canRevert : Bool)
    (revertMode : String) (rest : List MevBundleBody) :
    replaceRevertModes (⟨hash, tx, bundle, canRevert, revertMode⟩ :: rest) =
      ⟨none, tx, bundle.map replaceRevertModeForSimulation,
        if tx.isSome then if revertMode = "drop" then true else canRevert else false, ""⟩ :: replaceRevertModes rest := by
  cases bundle <;> rfl

/-! ## Two trees side by side -/

/-- Two bundles of the same shape: `P` relates the bundles at each place of the
two trees and `Q` the body elements. -/
inductive Alike (P : SendMevBundleArgs → SendMevBundleArgs → Prop) (Q : MevBundleBody → MevBundleBody → Prop) :
    SendMevBundleArgs → SendMevBundleArgs → Prop
  | node {b b'} : P b b' → b.body.length = b'.body.length →
      (∀ (i : Nat) el el', b.body[i]? = some el → b'.body[i]? = some el' →
        Q el el' ∧ el.bundle.isSome = el'.bundle.isSome) →
      (∀ (i : Nat) el el' c c', b.body[i]? = some el → b'.body[i]? = some el' → el.bundle = some c → el'.bundle = some c' →
        Alike P Q c c') →
      Alike P Q b b'

section Alike
variable {P : SendMevBundleArgs → SendMevBundleArgs → Prop} {Q : MevBundleBody → MevBundleBody → Prop}

/-- Two bundles are alike if they are related, and so are their elements with the bundles these hold. -/
theorem Alike.of_elements {b b' : SendMevBundleArgs} (hp : P b b')
    (hbody : List.Forall₂ (fun el el' => Q el el' ∧ Option.Rel (Alike P Q) el.bundle el'.bundle) b.body b'.body) :
    Alike P Q b b' := by
  have hat : ∀ (i : Nat) el el', b.body[i]? = some el → b'.body[i]? = some el' →
      Q el el' ∧ Option.Rel (Alike P Q) el.bundle el'.bundle := by
    intro i el el' hel hel'
    obtain ⟨hi, rfl⟩ := List.getElem?_eq_some_iff.1 hel
    obtain ⟨hi', rfl⟩ := List.getElem?_eq_some_iff.1 hel'
    exact hbody.get hi hi'
  refine .node hp hbody.length_eq (fun i el el' hel hel' => ?_) fun i el el' c c' hel hel' hc hc' => ?_
  · obtain ⟨hq, hrel⟩ := hat i el el' hel hel'
    refine ⟨hq, ?_⟩
    cases hb : el.bundle <;> cases hb' : el'.bundle <;> rw [hb, hb'] at hrel <;> first | rfl | cases hrel
  · obtain ⟨-, hrel⟩ := hat i el el' hel hel'
    rw [hc, hc'] at hrel
    cases hrel with
    | some h => exact h

/-- What `Q` says about the right element holds throughout the right tree. -/
theorem Alike.right {R : MevBundleBody → Prop} (hQ : ∀ el el', Q el el' → R el') {b b' : SendMevBundleArgs}
    (h : Alike P Q b b') : Everywhere (fun c => ∀ el ∈ c.body, R el) b' := by
  induction h with
  | @node b b' _ hlen hel _ ih =>
    have hleft : ∀ el' ∈ b'.body, ∃ (i : Nat) (el : MevBundleBody), b.body[i]? = some el ∧ b'.body[i]? = some el' := by
      intro el' hel'
      obtain ⟨i, hi⟩ := List.mem_iff_getElem?.1 hel'
      have hlt : i < b.body.length := hlen ▸ (List.getElem?_eq_some_iff.1 hi).1
      exact ⟨i, _, List.getElem?_eq_getElem hlt, hi⟩
    refine .node (fun el' hel' => ?_) fun el' hel' c' hc' => ?_
    · obtain ⟨i, el, hi, hi'⟩ := hleft el' hel'
      exact hQ el el' (hel i el el' hi hi').1
    · obtain ⟨i, el, hi, hi'⟩ := hleft el' hel'
      obtain ⟨c, hc⟩ : ∃ c, el.bundle = some c := by
        rw [← Option.isSome_iff_exists, (hel i el el' hi hi').2, hc', Option.isSome_some]
      exact ih i el el' c c' hi hi' hc hc'

end Alike

/-! ## What the two walks should do -/

/-- The mode that was asked for. -/
def MevBundleBody.submittedMode (el : MevBundleBody) : String :=
  if el.revertMode ≠ "" then el.revertMode else if el.canRevert then revertModeAllow else revertModeFail

/-- The mode is one of the three, and the flag agrees with it. -/
def MevBundleBody.Normal (el : MevBundleBody) : Prop :=
  (el.revertMode = revertModeAllow ∨ el.revertMode = revertModeDrop ∨ el.revertMode = revertModeFail) ∧
    (el.canRevert = true ↔ el.revertMode = revertModeAllow)

/-- All transactions of a bundle and of the bundles in it. -/
def NormalTxs (b : SendMevBundleArgs) : Prop := ∀ el ∈ b.body, el.tx.isSome → el.Normal

/-- A submitted element and what validation leaves of it. -/
def Settled (el el' : MevBundleBody) : Prop :=
  el'.tx = el.tx ∧ (el'.tx.isSome → el'.revertMode = el.submittedMode ∧ el'.Normal)

/-- An element and what the simulator is given for it. -/
def Simulated (el el' : MevBundleBody) : Prop :=
  el'.tx = el.tx ∧ (el'.tx.isSome → (el'.canRevert = true ↔ el.revertMode = revertModeAllow ∨ el.revertMode = revertModeDrop))

def SameSettings (b b' : SendMevBundleArgs) : Prop :=
  b'.inclusion = b.inclusion ∧ b'.validity = b.validity ∧ b'.privacy = b.privacy ∧ b'.metadata = b.metadata

/-- Every element has a transaction or a bundle, and not both; it may have a hash too. -/
def TxXorBundle (b : SendMevBundleArgs) : Prop := ∀ el ∈ b.body, el.tx.isSome ≠ el.bundle.isSome

instance (b : SendMevBundleArgs) : Decidable (TxXorBundle b) :=
  inferInstanceAs (Decidable (∀ el ∈ b.body, el.tx.isSome ≠ el.bundle.isSome))

variable {D : Deps} {currentBlock : UInt64} {level : Nat}

theorem MevBundleBody.Normal.submittedMode_eq {el : MevBundleBody} (h : el.Normal) : el.submittedMode = el.revertMode := by
  have hne : el.revertMode ≠ "" := by
    rcases h.1 with hm | hm | hm <;> rw [hm] <;> decide
  exact if_pos hne

/-- Normalising one transaction. -/
theorem applyRevertMode_settled {tx : Option Bytes} {bundle : Option SendMevBundleArgs} {canRevert : Bool}
    {revertMode : String} (h : validateRevertMode revertMode = true) :
    Settled ⟨none, tx, bundle, canRevert, revertMode⟩
      ⟨none, tx, bundle, (applyRevertMode canRevert revertMode).1, (applyRevertMode canRevert revertMode).2⟩ := by
  have hmode : revertMode = "" ∨ revertMode = revertModeFail ∨ revertMode = revertModeDrop ∨ revertMode = revertModeAllow := by
    by_contra hne
    simp_all [validateRevertMode]
  refine ⟨rfl, fun _ => ?_⟩
  rcases hmode with rfl | rfl | rfl | rfl <;> cases canRevert <;>
    simp [applyRevertMode, MevBundleBody.submittedMode, MevBundleBody.Normal, revertModeAllow, revertModeDrop, revertModeFail]

/-! ## Validation -/

/-- A tree that is normal already is its own normal form. -/
theorem alike_self (b : SendMevBundleArgs) (h : Everywhere NormalTxs b) : Alike (fun _ _ => True) Settled b b := by
  induction b using SendMevBundleArgs.tree_induction with
  | h b ih =>
    obtain ⟨hnormal, hbelow⟩ := everywhere_iff.1 h
    refine .of_elements trivial (List.forall₂_same.2 fun el hel => ⟨⟨rfl, fun htx => ?_⟩, ?_⟩)
    · have hn := hnormal el hel htx
      exact ⟨hn.submittedMode_eq.symm, hn⟩
    · cases hc : el.bundle with
      | none => exact .none
      | some c => exact .some (ih el hel c hc (hbelow el hel c hc))

/-- The transactions of an element, and of the bundle it holds, are normal already. -/
def MevBundleBody.NormalAlready (el : MevBundleBody) : Prop :=
  (el.tx.isSome → el.Normal) ∧ ∀ c, el.bundle = some c → Everywhere NormalTxs c

theorem no_hash_of_matched {b : SendMevBundleArgs} {r : Validated} (h : validateBundleInner D currentBlock level b = .ok r)
    (hu : r.unmatched = false) : ∀ el ∈ b.body, el.hash = none := by
  intro el hel
  obtain ⟨el', hel', hkept⟩ := kept_of_mem h hel
  have hnone := validated_no_hash h hu hel'
  cases hkept <;> simp_all

/-- Validation settles every transaction, if those it does not look at need no settling. -/
theorem validated_settled (b : SendMevBundleArgs) : ∀ {level : Nat} {r : Validated},
    validateBundleInner D currentBlock level b = .ok r → Everywhere TxXorBundle b →
      (∀ el ∈ b.body, el.hash.isSome → el.NormalAlready) → Alike (fun _ _ => True) Settled b r.bundle := by
  induction b using SendMevBundleArgs.tree_induction with
  | h b ih =>
    intro level r h hone hhash
    obtain ⟨hone, hbelow⟩ := everywhere_iff.1 hone
    obtain ⟨_, st, -, -, -, hst, hf⟩ := validated_inv h
    obtain ⟨-, -, p, -, rfl⟩ := finishBundle_ok hf
    refine .of_elements trivial (validateBody_ok (P := fun done st => List.Forall₂ (fun el el' =>
      Settled el el' ∧ Option.Rel (Alike (fun _ _ => True) Settled) el.bundle el'.bundle) done st.body) ?_ .nil hst)
    intro done el st st' hel hdone hturn
    have helb : el ∈ b.body := hel
    cases hturn with
    | @hash g tx bundle canRevert revertMode _ _ _ =>
      obtain ⟨hnormal, hbundle⟩ := hhash _ helb rfl
      refine List.rel_append hdone (.cons ⟨⟨rfl, fun htx => ?_⟩, ?_⟩ .nil)
      · exact ⟨(hnormal htx).submittedMode_eq.symm, hnormal htx⟩
      · cases bundle with
        | none => exact .none
        | some c => exact .some (alike_self c (hbundle c rfl))
    | @tx t bundle canRevert revertMode d _ hmode =>
      refine List.rel_append hdone (.cons ⟨applyRevertMode_settled hmode, ?_⟩ .nil)
      -- an element with a transaction holds no bundle
      cases bundle with
      | none => exact .none
      | some c => exact absurd rfl (hone _ helb)
    | @bundle inner canRevert revertMode inc rc _ hrc hu =>
      refine List.rel_append hdone (.cons ⟨⟨rfl, fun htx => by cases htx⟩, .some ?_⟩ .nil)
      refine ih _ helb inner rfl hrc (hbelow _ helb inner rfl) fun el hel hsome => ?_
      rw [no_hash_of_matched hrc hu el hel] at hsome
      cases hsome
    | empty => exact List.rel_append hdone (.cons ⟨⟨rfl, fun htx => by cases htx⟩, .none⟩ .nil)

/-! ## The simulator's bundle -/

/-- The loop over the body, if the bundles in it are done. -/
theorem replaceRevertModes_alike {l : List MevBundleBody} (hnormal : ∀ el ∈ l, el.tx.isSome → el.Normal)
    (ih : ∀ el ∈ l, ∀ c, el.bundle = some c → Alike SameSettings Simulated c (replaceRevertModeForSimulation c)) :
    List.Forall₂ (fun el el' => Simulated el el' ∧ Option.Rel (Alike SameSettings Simulated) el.bundle el'.bundle) l
      (replaceRevertModes l) := by
  induction l with
  | nil => exact .nil
  | cons el rest ihl =>
    rw [List.forall_mem_cons] at hnormal ih
    have hrest := ihl hnormal.2 ih.2
    obtain ⟨hash, tx, bundle, canRevert, revertMode⟩ := el
    rw [replaceRevertModes_cons]
    refine .cons ⟨⟨rfl, fun htx => ?_⟩, ?_⟩ hrest
    · obtain ⟨-, hflag⟩ := hnormal.1 htx
      simp only [htx, ↓reduceIte]
      by_cases hdrop : revertMode = "drop"
      · rw [if_pos hdrop]
        exact iff_of_true rfl (.inr hdrop)
      · rw [if_neg hdrop, hflag]
        exact (or_iff_left hdrop).symm
    · cases bundle with
      | none => exact .none
      | some c => exact .some (ih.1 c rfl)

theorem replace_alike (b : SendMevBundleArgs) (h : Everywhere NormalTxs b) :
    Alike SameSettings Simulated b (replaceRevertModeForSimulation b) := by
  induction b using SendMevBundleArgs.tree_induction with
  | h b ih =>
    obtain ⟨hnormal, hbelow⟩ := everywhere_iff.1 h
    obtain ⟨version, uuid, inclusion, body, validity, privacy, metadata⟩ := b
    refine .of_elements ⟨rfl, rfl, rfl, rfl⟩ (replaceRevertModes_alike hnormal ?_)
    intro el hel c hc
    exact ih el hel c hc (hbelow el hel c hc)

/-- For an accepted bundle with a transaction or a bundle in each element: every
transaction ends with the mode that was asked for and a flag that agrees, and
the simulator gets the same tree with flags that let the transactions revert
that may revert or be dropped, if and only if the transactions of an element
with a hash were normal when they were submitted. -/
theorem revert_modes_iff {b : SendMevBundleArgs} {r : Validated} (h : validateBundle D currentBlock b = .ok r)
    (hone : Everywhere TxXorBundle b) :
    (Alike (fun _ _ => True) Settled b r.bundle ∧
        Alike SameSettings Simulated r.bundle (replaceRevertModeForSimulation r.bundle)) ↔
      ∀ el ∈ b.body, el.hash.isSome → el.NormalAlready := by
  have hnormal : Alike (fun _ _ => True) Settled b r.bundle → Everywhere NormalTxs r.bundle :=
    Alike.right fun el el' hsettled htx => (hsettled.2 htx).2
  constructor
  · rintro ⟨hsettled, -⟩ el hel hsome
    obtain ⟨el', hel', hkept⟩ := kept_of_mem h hel
    obtain ⟨htxs, hbelow⟩ := everywhere_iff.1 (hnormal hsettled)
    cases hkept with
    | hash => exact ⟨htxs _ hel', hbelow _ hel'⟩
    | tx _ => cases hsome
    | bundle _ => cases hsome
    | empty => cases hsome
  · intro hhash
    have hsettled := validated_settled b h hone hhash
    exact ⟨hsettled, replace_alike r.bundle (hnormal hsettled)⟩

/-- A bundle with a transaction to drop, and a transaction that may revert. -/
def droppedPair : SendMevBundleArgs :=
  ⟨"v0.1", "", ⟨2, 3⟩, [⟨none, none, some (oneTx ⟨none, some sampleTx, none, false, "drop"⟩), false, ""⟩,
    ⟨none, some sampleTx, none, true, ""⟩], ⟨[], []⟩, none, none⟩

theorem revert_modes_droppedPair :
    ∃ r, validateBundle sampleDeps 1 droppedPair = .ok r ∧ Alike (fun _ _ => True) Settled droppedPair r.bundle ∧
      Alike SameSettings Simulated r.bundle (replaceRevertModeForSimulation r.bundle) := by
  have hone : Everywhere TxXorBundle droppedPair := by
    refine .node (by decide) fun el hel c hc => ?_
    rcases List.mem_pair.1 hel with rfl | rfl
    · cases hc
      exact everywhere_of_flat (by decide) (by decide)
    · cases hc
  refine ⟨_, rfl, (@revert_modes_iff sampleDeps 1 droppedPair _ rfl hone).2 fun el hel hsome => ?_⟩
  rcases List.mem_pair.1 hel with rfl | rfl <;> cases hsome

/-- A hash with a transaction in the same element. -/
def hashWithTx : SendMevBundleArgs :=
  ⟨"v0.1", "", ⟨2, 3⟩, [⟨some sampleMatchingHash, some sampleTx, none, true, ""⟩, ⟨none, some sampleTx, none, true, ""⟩],
    ⟨[], []⟩, none, none⟩

/-- The transaction beside the hash ends without a mode. -/
theorem revert_modes_hashWithTx :
    Everywhere TxXorBundle hashWithTx ∧ ∃ r, validateBundle sampleDeps 1 hashWithTx = .ok r ∧
      r.bundle.body.map (·.revertMode) = ["", "allow"] ∧ ¬Alike (fun _ _ => True) Settled hashWithTx r.bundle := by
  refine ⟨.node (by decide) fun el hel c hc => ?_, _, rfl, rfl, fun halike => ?_⟩
  · rcases List.mem_pair.1 hel with rfl | rfl <;> cases hc
  · cases halike with
    | node _ _ hat _ =>
      obtain ⟨⟨-, hsettled⟩, -⟩ := hat 0 _ _ rfl rfl
      exact absurd (hsettled rfl).1 (by decide)

end MevShare
