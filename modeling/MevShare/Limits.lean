import MevShare.BodyHashes
import Mathlib.Algebra.BigOperators.Group.List.Basic
import Mathlib.Data.List.Nodup
/-!
# The form of an accepted bundle

The code that runs after validation relies on the form of a bundle without
looking at it again: where a hash may stand, how deep and how large the tree is,
and what the refunds add up to. `accepted_wellFormed` collects what validation
leaves of it. Some of it is decided at each level on its own (`Constraints`),
and some through what the call for a nested bundle returns: its transaction
count, and whether it is unmatched.
-/
open Lib

namespace MevShare

mutual
/-- The number of transactions and hashes in the whole tree. -/
def SendMevBundleArgs.references : SendMevBundleArgs → Nat
  | ⟨_, _, _, body, _, _, _⟩ => bodyReferences body

def bodyReferences : List MevBundleBody → Nat
  | [] => 0
  | el :: rest => elementReferences el + bodyReferences rest

def elementReferences : MevBundleBody → Nat
  | ⟨hash, tx, some inner, _, _⟩ => hash.isSome.toNat + tx.isSome.toNat + inner.references
  | ⟨hash, tx, none, _, _⟩ => hash.isSome.toNat + tx.isSome.toNat
end

theorem references_eq (b : SendMevBundleArgs) : b.references = bodyReferences b.body := by
  cases b
  rfl

theorem elementReferences_eq (el : MevBundleBody) :
    elementReferences el = el.hash.isSome.toNat + el.tx.isSome.toNat + (match el.bundle with
      | some inner => inner.references
      | none => 0) := by
  obtain ⟨hash, tx, bundle, _, _⟩ := el
  cases bundle with
  | none => rfl
  | some inner => rfl

theorem bodyReferences_append (l l' : List MevBundleBody) :
    bodyReferences (l ++ l') = bodyReferences l + bodyReferences l' := by
  induction l with
  | nil => simp [bodyReferences]
  | cons el l ih => rw [List.cons_append, bodyReferences, bodyReferences, ih, Nat.add_assoc]

/-- What holds at every level of the privacy and of the refunds. -/
structure Constraints (b : SendMevBundleArgs) : Prop where
  indices : (b.validity.refund.map (·.bodyIdx)).Nodup
  inBody : ∀ c ∈ b.validity.refund, 0 ≤ c.bodyIdx ∧ c.bodyIdx < b.body.length
  percents : ∀ c ∈ b.validity.refund, 0 ≤ c.percent ∧ c.percent ≤ 100
  total : (b.validity.refund.map (·.percent)).sum ≤ 100
  configPercents : ∀ c ∈ b.validity.refundConfig, 0 ≤ c.percent ∧ c.percent ≤ 100
  configTotal : (b.validity.refundConfig.map (·.percent)).sum ≤ 100
  wantRefund : ∀ p ∈ b.privacy, ∀ w ∈ p.wantRefund, 0 ≤ w ∧ w ≤ 100
  hints : ∀ p ∈ b.privacy, p.hints ≠ hintNone → p.hints.hasHint hintHash = true

structure WellFormed (b : SendMevBundleArgs) : Prop where
  hash : ∀ i el, b.body[i]? = some el → el.hash.isSome →
    i = 0 ∧ b.body.length ≠ 1 ∧ b.validity.refund = [] ∧ ∀ p ∈ b.privacy, p.hints = hintNone
  nested : ∀ el ∈ b.body, ∀ c, el.bundle = some c → ∀ el' ∈ c.body, el'.hash = none ∧ el'.bundle = none
  size : b.references ≤ maxBodySize
  constraints : Everywhere Constraints b

variable {D : Deps} {currentBlock : UInt64} {level : Nat}

/-! ## What each check establishes -/

theorem totalRefundConfigPercent_ok {cs : List RefundConfig} {total : Int}
    (h : totalRefundConfigPercent cs = .ok total) :
    (∀ c ∈ cs, 0 ≤ c.percent ∧ c.percent ≤ 100) ∧ total = (cs.map (·.percent)).sum := by
  refine foldlM_ok (P := fun done total =>
    (∀ c ∈ done, 0 ≤ c.percent ∧ c.percent ≤ 100) ∧ total = (done.map (·.percent)).sum) ?_ ⟨by simp, rfl⟩ h
  rintro done x acc acc' ⟨hdone, rfl⟩ hx
  simp only [bind_ok, rejectIf_ok, exists_const, pure_ok, not_or, Int.not_lt, gt_iff_lt] at hx
  obtain ⟨hpercent, rfl⟩ := hx
  refine ⟨fun c hc => ?_, by simp⟩
  rcases List.mem_append.1 hc with hc | hc
  · exact hdone c hc
  · rw [List.mem_singleton.1 hc]
    exact hpercent

theorem totalRefundPercent_ok {size : Nat} {cs : List RefundConstraint} {acc : List Int × Int}
    (h : totalRefundPercent size cs = .ok acc) :
    (cs.map (·.bodyIdx)).Nodup ∧
      (∀ c ∈ cs, (0 ≤ c.bodyIdx ∧ c.bodyIdx < (size : Int)) ∧ 0 ≤ c.percent ∧ c.percent ≤ 100) ∧
      acc.2 = (cs.map (·.percent)).sum := by
  -- the indices used so far are the first component of the accumulator
  suffices hloop : acc.1 = cs.map (·.bodyIdx) ∧ acc.1.Nodup ∧
      (∀ c ∈ cs, (0 ≤ c.bodyIdx ∧ c.bodyIdx < (size : Int)) ∧ 0 ≤ c.percent ∧ c.percent ≤ 100) ∧
      acc.2 = (cs.map (·.percent)).sum by
    obtain ⟨hused, hnodup, hall⟩ := hloop
    exact ⟨hused ▸ hnodup, hall⟩
  refine foldlM_ok (P := fun (done : List RefundConstraint) (acc : List Int × Int) => acc.1 = done.map (·.bodyIdx) ∧
    acc.1.Nodup ∧ (∀ c ∈ done, (0 ≤ c.bodyIdx ∧ c.bodyIdx < (size : Int)) ∧ 0 ≤ c.percent ∧ c.percent ≤ 100) ∧
    acc.2 = (done.map (·.percent)).sum) ?_ (by simp) h
  rintro done x ⟨used, total⟩ acc' ⟨hused, hnodup, hdone, htotal⟩ hx
  simp only at hused hnodup htotal
  simp only [bind_ok, rejectIf_ok, exists_const, pure_ok, not_or, Int.not_lt, ge_iff_le, Int.not_le, gt_iff_lt,
    List.contains_eq_mem, decide_eq_true_eq] at hx
  obtain ⟨⟨hlt, hnonneg⟩, hnew, hpercent, rfl⟩ := hx
  refine ⟨by simp [hused], List.nodup_append.2 ⟨hnodup, List.nodup_singleton _, ?_⟩, fun c hc => ?_, by simp [htotal]⟩
  · rintro i hi j hj rfl
    exact hnew (List.mem_singleton.1 hj ▸ hi)
  · rcases List.mem_append.1 hc with hc | hc
    · exact hdone c hc
    · rw [List.mem_singleton.1 hc]
      exact ⟨⟨hnonneg, hlt⟩, hpercent⟩

theorem validateValidity_ok {unmatched : Bool} {size : Nat} {v : MevBundleValidity}
    (h : validateValidity unmatched size v = .ok ()) :
    (unmatched = true → v.refund = []) ∧ (v.refund.map (·.bodyIdx)).Nodup ∧
      (∀ c ∈ v.refund, (0 ≤ c.bodyIdx ∧ c.bodyIdx < (size : Int)) ∧ 0 ≤ c.percent ∧ c.percent ≤ 100) ∧
      (v.refund.map (·.percent)).sum ≤ 100 ∧ (∀ c ∈ v.refundConfig, 0 ≤ c.percent ∧ c.percent ≤ 100) ∧
      (v.refundConfig.map (·.percent)).sum ≤ 100 := by
  simp only [validateValidity, bind_ok, rejectIf_ok, exists_const, not_and, gt_iff_lt, Nat.not_lt, Int.not_lt, Nat.le_zero,
    List.length_eq_zero_iff] at h
  obtain ⟨hempty, total, hconfig, htotal, acc, hrefund, hsum⟩ := h
  obtain ⟨hpercents, rfl⟩ := totalRefundConfigPercent_ok hconfig
  obtain ⟨hnodup, hall, heq⟩ := totalRefundPercent_ok hrefund
  exact ⟨hempty, hnodup, hall, heq ▸ hsum, hpercents, htotal⟩

theorem validatePrivacy_ok {unmatched : Bool} {privacy privacy' : Option MevBundlePrivacy}
    (h : validatePrivacy D unmatched privacy = .ok privacy') :
    ∀ p ∈ privacy', (unmatched = true → p.hints = hintNone) ∧ (∀ w ∈ p.wantRefund, 0 ≤ w ∧ w ≤ 100) ∧
      (p.hints ≠ hintNone → p.hints.hasHint hintHash = true) := by
  cases privacy with
  | none =>
    simp only [validatePrivacy, pure_ok] at h
    simp [← h]
  | some p =>
    simp only [validatePrivacy, bind_ok, rejectIf_ok, exists_const, pure_ok, not_and, not_not, not_exists, not_or,
      Int.not_lt, gt_iff_lt] at h
    obtain ⟨hnone, hrefund, rfl⟩ := h
    rintro _ ⟨⟩
    refine ⟨fun hu => ?_, hrefund, fun hhints => ?_⟩
    · simp [hnone hu]
    · by_cases hp : p.hints = hintNone
      · simp [hp] at hhints
      · simp only [hp, ne_eq, not_false_eq_true, if_true, hasHint_setHint]
        simp [HintIntent.hasHint, hintHash]

/-! ## The loop over the body -/

/-- The bundle was made from one in the body by the call for the next level, and holds no hash. -/
def Nested (D : Deps) (currentBlock : UInt64) (level : Nat) (els : List MevBundleBody) (c' : SendMevBundleArgs) : Prop :=
  ∃ el ∈ els, ∃ c r, el.bundle = some c ∧ validateBundleInner D currentBlock (level + 1) c = .ok r ∧
    r.unmatched = false ∧ r.bundle = c'

/-- The elements that the loop leaves: a hash only in front, and a bundle that stands alone is a validated one. -/
structure Formed (D : Deps) (currentBlock : UInt64) (level size : Nat) (els body : List MevBundleBody)
    (unmatched : Bool) : Prop where
  hash : ∀ i el, body[i]? = some el → el.hash.isSome → i = 0 ∧ size ≠ 1 ∧ unmatched = true
  nested : ∀ el ∈ body, ∀ c, el.hash = none → el.tx = none → el.bundle = some c → Nested D currentBlock level els c

theorem Formed.snoc {size : Nat} {els body : List MevBundleBody} {unmatched unmatched' : Bool} {x : MevBundleBody}
    (h : Formed D currentBlock level size els body unmatched) (hmono : unmatched = true → unmatched' = true)
    (hhash : x.hash.isSome → body.length = 0 ∧ size ≠ 1 ∧ unmatched' = true)
    (hnested : ∀ c, x.hash = none → x.tx = none → x.bundle = some c → Nested D currentBlock level els c) :
    Formed D currentBlock level size els (body ++ [x]) unmatched' := by
  refine ⟨fun i el hi hel => ?_, fun el hel => ?_⟩
  · rcases lt_trichotomy i body.length with hlt | rfl | hgt
    · rw [List.getElem?_append_left hlt] at hi
      obtain ⟨hzero, hsize, hu⟩ := h.hash i el hi hel
      exact ⟨hzero, hsize, hmono hu⟩
    · rw [List.getElem?_concat_length] at hi
      cases hi
      exact hhash hel
    · rw [List.getElem?_eq_none (by simpa using Nat.succ_le_of_lt hgt)] at hi
      cases hi
  · rcases List.mem_append.1 hel with hel | hel
    · exact h.nested el hel
    · rw [List.mem_singleton.1 hel]
      exact hnested

theorem formed_body {size : Nat} {els : List MevBundleBody} {st st' : BodyState}
    (hst : st.body = []) (h : validateBody D currentBlock level size 0 els st = .ok st') :
    st'.body.length = els.length ∧ Formed D currentBlock level size els st'.body st'.unmatched := by
  refine validateBody_ok (P := fun done st => st.body.length = done.length ∧
    Formed D currentBlock level size els st.body st.unmatched) ?_ (by simp [hst]; exact ⟨by simp, by simp⟩) h
  rintro done el st st' hel ⟨hlen, hform⟩ hturn
  cases hturn with
  | hash hu hi hs => exact ⟨by simp [hlen], hform.snoc (fun _ => rfl) (fun _ => ⟨hlen.trans hi, hs, rfl⟩) (by simp)⟩
  | tx _ _ => exact ⟨by simp [hlen], hform.snoc id (by simp) (by simp)⟩
  | @bundle inner _ _ _ r _ hr hu =>
    refine ⟨by simp [hlen], hform.snoc id (by simp) ?_⟩
    rintro c - - ⟨⟩
    exact ⟨_, hel, inner, r, rfl, hr, hu, rfl⟩
  | empty => exact ⟨by simp [hlen], hform.snoc id (by simp) (by simp)⟩

/-! ## One level -/

section Level
variable {b : SendMevBundleArgs} {r : Validated}

theorem validated_formed (h : validateBundleInner D currentBlock level b = .ok r) :
    Formed D currentBlock level r.bundle.body.length b.body r.bundle.body r.unmatched := by
  obtain ⟨_, st, -, -, -, hst, hf⟩ := validated_inv h
  obtain ⟨hlen, hform⟩ := formed_body rfl hst
  obtain ⟨-, -, p, -, rfl⟩ := finishBundle_ok hf
  rw [← show (cleanBody b).body.length = b.body.length from rfl, ← hlen] at hform
  exact hform

theorem validated_constraints (h : validateBundleInner D currentBlock level b = .ok r) : Constraints r.bundle := by
  obtain ⟨_, st, -, -, -, -, hf⟩ := validated_inv h
  obtain ⟨-, hv, p, hp, rfl⟩ := finishBundle_ok hf
  obtain ⟨-, hnodup, hall, hsum, hconfig, hconfigSum⟩ := validateValidity_ok hv
  have hprivacy := validatePrivacy_ok hp
  exact {
    indices := hnodup
    inBody := fun c hc => (hall c hc).1
    percents := fun c hc => (hall c hc).2
    total := hsum
    configPercents := hconfig
    configTotal := hconfigSum
    wantRefund := fun p hp => (hprivacy p hp).2.1
    hints := fun p hp => (hprivacy p hp).2.2 }

/-- An unmatched bundle asks for no refund and no hints. -/
theorem unmatched_bare (h : validateBundleInner D currentBlock level b = .ok r) (hu : r.unmatched = true) :
    r.bundle.validity.refund = [] ∧ ∀ p ∈ r.bundle.privacy, p.hints = hintNone := by
  obtain ⟨_, st, -, -, -, -, hf⟩ := validated_inv h
  obtain ⟨-, hv, p, hp, rfl⟩ := finishBundle_ok hf
  exact ⟨(validateValidity_ok hv).1 hu, fun p hmem => (validatePrivacy_ok hp p hmem).1 hu⟩

end Level

/-- If the elements carry one field each, the count that a call returns is that of the tree. -/
theorem txs_eq_references (b : SendMevBundleArgs) :
    ∀ {level : Nat} {r : Validated}, validateBundleInner D currentBlock level b = .ok r →
      Everywhere AllSingle b → r.txs = r.bundle.references := by
  induction b using SendMevBundleArgs.tree_induction with
  | h b ih =>
    intro level r h hs
    obtain ⟨hs, hnested⟩ := everywhere_iff.1 hs
    obtain ⟨_, st, -, -, -, hst, hf⟩ := validated_inv h
    obtain ⟨-, -, p, -, rfl⟩ := finishBundle_ok hf
    rw [references_eq]
    -- each turn adds to the counter what it appends to the body
    refine validateBody_ok (P := fun _ st => st.txs = bodyReferences st.body) ?_ rfl hst
    rintro done el st st' hel htxs hturn
    have hsingle : el.Single := hs el hel
    cases hturn with
    | hash =>
      obtain ⟨rfl, rfl⟩ := hsingle.of_hash rfl
      simp [bodyReferences_append, bodyReferences, elementReferences_eq, htxs]
    | tx =>
      obtain ⟨-, rfl⟩ := hsingle.of_tx rfl
      simp [bodyReferences_append, bodyReferences, elementReferences_eq, htxs]
    | @bundle inner _ _ _ rc _ hr hu =>
      have hcount := ih _ hel inner rfl hr (hnested _ hel inner rfl)
      simp [bodyReferences_append, bodyReferences, elementReferences_eq, htxs, hcount]
    | empty => simp [bodyReferences_append, bodyReferences, elementReferences_eq, htxs]

theorem validated_no_hash {b : SendMevBundleArgs} {r : Validated} {el : MevBundleBody}
    (h : validateBundleInner D currentBlock level b = .ok r) (hu : r.unmatched = false) (hel : el ∈ r.bundle.body) :
    el.hash = none := by
  by_contra hsome
  obtain ⟨i, hi⟩ := List.mem_iff_getElem?.1 hel
  have hunmatched := ((validated_formed h).hash i el hi (Option.isSome_iff_ne_none.2 hsome)).2.2
  rw [hu] at hunmatched
  cases hunmatched

theorem validated_no_bundle {b : SendMevBundleArgs} {r : Validated} {el : MevBundleBody}
    (h : validateBundleInner D currentBlock maxNestingLevel b = .ok r) (hel : el ∈ r.bundle.body)
    (hhash : el.hash = none) (htx : el.tx = none) : el.bundle = none := by
  cases hc : el.bundle with
  | none => rfl
  | some c =>
    obtain ⟨-, -, c₀, rc, -, hrc, -⟩ := (validated_formed h).nested el hel c hhash htx hc
    -- the call for it would be one level deeper than any call that succeeds
    obtain ⟨_, _, hlevel, -⟩ := validated_inv hrc
    exact absurd hlevel (by decide)

/-! ## The tree -/

/-- With one field in each element, a nested bundle holds transactions only. -/
theorem nested_bare {b : SendMevBundleArgs} {r : Validated} (h : validateBundle D currentBlock b = .ok r)
    (hs : Everywhere AllSingle b) :
    ∀ el ∈ r.bundle.body, ∀ c, el.bundle = some c → ∀ el' ∈ c.body, el'.hash = none ∧ el'.bundle = none := by
  intro el hel c hc el' hel'
  obtain ⟨hs, hnested⟩ := everywhere_iff.1 ((everywhere_allSingle_iff b h).2 hs)
  obtain ⟨hhash, htx⟩ := (hs el hel).of_bundle hc
  obtain ⟨-, -, c₀, rc, -, hrc, hu, rfl⟩ := (validated_formed h).nested el hel c hhash htx hc
  have hno := validated_no_hash hrc hu hel'
  refine ⟨hno, ?_⟩
  cases hc' : el'.bundle with
  | none => rfl
  | some c' =>
    obtain ⟨hsc, -⟩ := everywhere_iff.1 (hnested el hel _ hc)
    rw [← hc']
    exact validated_no_bundle hrc hel' hno ((hsc el' hel').of_bundle hc').2

/-- A bundle with one field in each element, at every level, that validation
accepts has the form that the rest of the node relies on. -/
theorem accepted_wellFormed {b : SendMevBundleArgs} {r : Validated} (h : validateBundle D currentBlock b = .ok r)
    (hs : Everywhere AllSingle b) : WellFormed r.bundle := by
  refine ⟨fun i el hi hel => ?_, nested_bare h hs, ?_,
    everywhere_of_single (fun _ hs => hs) (fun h _ => validated_constraints h) b h hs⟩
  · obtain ⟨hzero, hsize, hu⟩ := (validated_formed h).hash i el hi hel
    exact ⟨hzero, hsize, unmatched_bare h hu⟩
  · obtain ⟨_, st, -, -, -, -, hf⟩ := validated_inv h
    obtain ⟨hsize, -, p, -, rfl⟩ := finishBundle_ok hf
    rw [← txs_eq_references b h hs]
    exact hsize

theorem accepted_wellFormed_refundedPair :
    ∃ r, validateBundle pairDeps 1 refundedPair = .ok r ∧ WellFormed r.bundle :=
  ⟨_, rfl, @accepted_wellFormed pairDeps 1 _ _ rfl refundedPair_single⟩

end MevShare
