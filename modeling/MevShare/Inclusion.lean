import MevShare.Limits
/-!
# The blocks of an accepted bundle

The loop over the body narrows the inclusion of a bundle in place, one nested
bundle after the other, after the checks on it have run and before the nested
bundle is validated. `Bounds` is what the checks establish, and both what a
narrowing keeps of it and what it asks of the nested bundle.
-/
open Lib

namespace MevShare

namespace MevBundleInclusion

def Contains (i : MevBundleInclusion) (n : UInt64) : Prop := i.blockNumber ≤ n ∧ n ≤ i.maxBlock

/-- Without a last block the first one is the only one. -/
def declared (i : MevBundleInclusion) : MevBundleInclusion :=
  if i.maxBlock = 0 then { i with maxBlock := i.blockNumber } else i

end MevBundleInclusion

/-- Not empty, not too long, not over yet and not too far ahead of the current block. -/
structure Bounds (currentBlock : UInt64) (i : MevBundleInclusion) : Prop where
  nonempty : i.blockNumber ≤ i.maxBlock
  range : i.maxBlock.toNat - i.blockNumber.toNat ≤ maxBlockRange.toNat
  fresh : currentBlock < i.maxBlock
  near : i.blockNumber.toNat ≤ currentBlock.toNat + maxBlockOffset.toNat

/-- The first bundle is nested in the second one, at any depth. -/
inductive Inside (c : SendMevBundleArgs) : SendMevBundleArgs → Prop
  | child {b el} : el ∈ b.body → el.bundle = some c → Inside c b
  | deeper {b el d} : el ∈ b.body → el.bundle = some d → Inside c d → Inside c b

variable {D : Deps} {currentBlock : UInt64} {level : Nat}

/-! ## The checks and the narrowing -/

theorem validateInclusion_nonempty {i i' : MevBundleInclusion} (h : validateInclusion i currentBlock = .ok i') :
    i' = i.declared ∧ i'.blockNumber ≤ i'.maxBlock := by
  simp only [validateInclusion, bind_ok, rejectIf_ok, exists_const, pure_ok] at h
  obtain ⟨hnonempty, -, -, -, rfl⟩ := h
  exact ⟨rfl, UInt64.not_lt.1 hnonempty⟩

theorem validateInclusion_ok {i i' : MevBundleInclusion} (h : validateInclusion i currentBlock = .ok i')
    (hc : currentBlock.toNat + maxBlockOffset.toNat < 2 ^ 64) : i' = i.declared ∧ Bounds currentBlock i' := by
  obtain ⟨hdeclared, hle⟩ := validateInclusion_nonempty h
  simp only [validateInclusion, bind_ok, rejectIf_ok, exists_const, pure_ok] at h
  obtain ⟨-, hrange, hfresh, hnear, rfl⟩ := h
  refine ⟨hdeclared, hle, ?_, UInt64.not_le.1 hfresh, ?_⟩
  · rw [← UInt64.toNat_sub_of_le _ _ hle]
    exact UInt64.le_iff_toNat_le.1 (UInt64.not_lt.1 hrange)
  · have hsum : (currentBlock + maxBlockOffset).toNat = currentBlock.toNat + maxBlockOffset.toNat := by
      rw [UInt64.toNat_add, Nat.mod_eq_of_lt hc]
    rw [← hsum]
    exact UInt64.le_iff_toNat_le.1 (UInt64.not_lt.1 hnear)

/-- The intervals overlap, and each end of the merged one is the inner one of the two. -/
theorem mergeInclusionIntervals_ok {t i m : MevBundleInclusion} (h : mergeInclusionIntervals t i = .ok m) :
    i.blockNumber ≤ t.maxBlock ∧ t.blockNumber ≤ i.maxBlock ∧
      (m.blockNumber = t.blockNumber ∧ i.blockNumber ≤ t.blockNumber ∨
        m.blockNumber = i.blockNumber ∧ t.blockNumber ≤ i.blockNumber) ∧
      (m.maxBlock = t.maxBlock ∧ t.maxBlock ≤ i.maxBlock ∨ m.maxBlock = i.maxBlock ∧ i.maxBlock ≤ t.maxBlock) := by
  simp only [mergeInclusionIntervals, bind_ok, rejectIf_ok, exists_const, pure_ok, not_or, UInt64.not_lt] at h
  obtain ⟨⟨hleft, hright⟩, rfl⟩ := h
  refine ⟨hleft, hright, ?_, ?_⟩
  · dsimp only
    split
    · rename_i hlt
      exact .inr ⟨rfl, UInt64.le_of_lt hlt⟩
    · rename_i hle
      exact .inl ⟨rfl, UInt64.not_lt.1 hle⟩
  · dsimp only
    split
    · rename_i hlt
      exact .inr ⟨rfl, UInt64.le_of_lt hlt⟩
    · rename_i hle
      exact .inl ⟨rfl, UInt64.not_lt.1 hle⟩

theorem contains_merge {t i m : MevBundleInclusion} (h : mergeInclusionIntervals t i = .ok m) (n : UInt64) :
    m.Contains n ↔ t.Contains n ∧ i.Contains n := by
  obtain ⟨-, -, hblock, hmax⟩ := mergeInclusionIntervals_ok h
  have hfirst : m.blockNumber ≤ n ↔ t.blockNumber ≤ n ∧ i.blockNumber ≤ n := by
    rcases hblock with ⟨hm, hle⟩ | ⟨hm, hle⟩
    · rw [hm]
      exact ⟨fun hn => ⟨hn, UInt64.le_trans hle hn⟩, And.left⟩
    · rw [hm]
      exact ⟨fun hn => ⟨UInt64.le_trans hle hn, hn⟩, And.right⟩
  have hlast : n ≤ m.maxBlock ↔ n ≤ t.maxBlock ∧ n ≤ i.maxBlock := by
    rcases hmax with ⟨hm, hle⟩ | ⟨hm, hle⟩
    · rw [hm]
      exact ⟨fun hn => ⟨hn, UInt64.le_trans hn hle⟩, And.left⟩
    · rw [hm]
      exact ⟨fun hn => ⟨UInt64.le_trans hn hle, hn⟩, And.right⟩
  simp only [MevBundleInclusion.Contains, hfirst, hlast]
  exact and_and_and_comm

theorem Bounds.merge {t i m : MevBundleInclusion} (h : mergeInclusionIntervals t i = .ok m)
    (ht : Bounds currentBlock t) (hi : Bounds currentBlock i) : Bounds currentBlock m := by
  obtain ⟨hleft, hright, hblock, hmax⟩ := mergeInclusionIntervals_ok h
  have hrange := ht.range
  have hrange' := hi.range
  refine ⟨?_, ?_, ?_, ?_⟩
  · rcases hblock with ⟨hm, -⟩ | ⟨hm, -⟩ <;> rcases hmax with ⟨hm', -⟩ | ⟨hm', -⟩ <;> rw [hm, hm']
    exacts [ht.nonempty, hright, hleft, hi.nonempty]
  · rcases hblock with ⟨hm, hle⟩ | ⟨hm, hle⟩ <;> rcases hmax with ⟨hm', hle'⟩ | ⟨hm', hle'⟩ <;> rw [hm, hm'] <;>
      rw [UInt64.le_iff_toNat_le] at hle hle' <;> omega
  · rcases hmax with ⟨hm', -⟩ | ⟨hm', -⟩ <;> rw [hm']
    exacts [ht.fresh, hi.fresh]
  · rcases hblock with ⟨hm, -⟩ | ⟨hm, -⟩ <;> rw [hm]
    exacts [ht.near, hi.near]

/-! ## Any element -/

/-- Either there is no last block, or it is not before the first one. -/
def MevBundleInclusion.Ordered (i : MevBundleInclusion) : Prop := i.maxBlock ≠ 0 → i.blockNumber ≤ i.maxBlock

theorem MevBundleInclusion.Ordered.merge {t i m : MevBundleInclusion} (h : mergeInclusionIntervals t i = .ok m)
    (ht : t.Ordered) (hi : i.Ordered) : m.Ordered := by
  obtain ⟨hleft, hright, hblock, hmax⟩ := mergeInclusionIntervals_ok h
  intro hne
  rcases hmax with ⟨hm', -⟩ | ⟨hm', -⟩
  · rw [hm'] at hne ⊢
    rcases hblock with ⟨hm, -⟩ | ⟨hm, -⟩
    · exact hm ▸ ht hne
    · exact hm ▸ hleft
  · rw [hm'] at hne ⊢
    rcases hblock with ⟨hm, -⟩ | ⟨hm, -⟩
    · exact hm ▸ hright
    · exact hm ▸ hi hne

/-- Whatever the elements carry, the interval that is left is in order. -/
theorem validated_ordered {b : SendMevBundleArgs} {r : Validated} (h : validateBundleInner D currentBlock level b = .ok r) :
    r.bundle.inclusion.Ordered := by
  obtain ⟨inclusion, st, -, hinclusion, -, hst, hf⟩ := validated_inv h
  obtain ⟨-, -, p, -, rfl⟩ := finishBundle_ok hf
  refine validateBody_ok (P := fun _ st => st.inclusion.Ordered) ?_ (fun _ => (validateInclusion_nonempty hinclusion).2) hst
  rintro done el st st' hel hst hturn
  cases hturn with
  | hash => exact hst
  | tx => exact hst
  | @bundle inner _ _ _ rc hmerge hr _ =>
    obtain ⟨_, _, -, hinner, -⟩ := validated_inv hr
    obtain ⟨rfl, hnonempty⟩ := validateInclusion_nonempty hinner
    refine hst.merge hmerge fun hne => ?_
    rwa [MevBundleInclusion.declared, if_neg hne] at hnonempty
  | empty => exact hst

/-! ## One level -/

/-- The bundles that the elements of a body hold have `P`. -/
def Children (P : SendMevBundleArgs → Prop) (els : List MevBundleBody) : Prop :=
  ∀ el ∈ els, ∀ d, el.bundle = some d → P d

theorem children_snoc {P : SendMevBundleArgs → Prop} {els : List MevBundleBody} {el : MevBundleBody} :
    Children P (els ++ [el]) ↔ Children P els ∧ ∀ d, el.bundle = some d → P d := by
  simp only [Children, List.mem_append, List.mem_singleton, or_imp, forall_and, forall_eq]

/-- The loop narrows the interval it starts with by those of the nested bundles, one after the other. -/
theorem validated_inclusion {b : SendMevBundleArgs} {r : Validated}
    (h : validateBundleInner D currentBlock level b = .ok r) (hs : AllSingle b)
    (hmax : Children (fun d => d.inclusion.maxBlock ≠ 0) b.body)
    (hc : currentBlock.toNat + maxBlockOffset.toNat < 2 ^ 64) :
    (∀ n, r.bundle.inclusion.Contains n ↔
      b.inclusion.declared.Contains n ∧ Children (fun d => d.inclusion.Contains n) b.body) ∧
      Bounds currentBlock r.bundle.inclusion ∧ Children (fun d => Bounds currentBlock d.inclusion) b.body := by
  obtain ⟨inclusion, st, -, hinclusion, -, hst, hf⟩ := validated_inv h
  obtain ⟨-, -, p, -, rfl⟩ := finishBundle_ok hf
  obtain ⟨rfl, hbounds⟩ := validateInclusion_ok hinclusion hc
  refine validateBody_ok (P := fun done st =>
    (∀ n, st.inclusion.Contains n ↔ b.inclusion.declared.Contains n ∧ Children (fun d => d.inclusion.Contains n) done) ∧
      Bounds currentBlock st.inclusion ∧ Children (fun d => Bounds currentBlock d.inclusion) done)
    ?_ ⟨by simp [Children], hbounds, by simp [Children]⟩ hst
  rintro done el st st' hel ⟨hcontains, hst, hchildren⟩ hturn
  have hsingle : el.Single := hs el hel
  simp only [children_snoc]
  cases hturn with
  | hash =>
    obtain ⟨-, rfl⟩ := hsingle.of_hash rfl
    simpa using ⟨hcontains, hst, hchildren⟩
  | tx =>
    obtain ⟨-, rfl⟩ := hsingle.of_tx rfl
    simpa using ⟨hcontains, hst, hchildren⟩
  | @bundle inner _ _ _ rc hmerge hr hu =>
    -- the nested bundle passed the same checks, and gave its last block
    obtain ⟨_, _, -, hinner, -⟩ := validated_inv hr
    obtain ⟨rfl, hinner⟩ := validateInclusion_ok hinner hc
    rw [MevBundleInclusion.declared, if_neg (hmax _ hel inner rfl)] at hinner
    refine ⟨fun n => ?_, hst.merge hmerge hinner, hchildren, by simpa using hinner⟩
    rw [contains_merge hmerge, hcontains, and_assoc]
    simp
  | empty => simpa using ⟨hcontains, hst, hchildren⟩

/-! ## The tree -/

/-- With one field in each element, every bundle in the body went through a call for the next level. -/
theorem nested_validated {b : SendMevBundleArgs} {r : Validated} (h : validateBundleInner D currentBlock level b = .ok r)
    (hs : AllSingle b) : Children (fun d => ∃ rd, validateBundleInner D currentBlock (level + 1) d = .ok rd) b.body := by
  intro el hel d hd
  obtain ⟨hhash, htx⟩ := (hs el hel).of_bundle hd
  obtain ⟨el', -, hkept⟩ := kept_of_mem h hel
  cases hkept with
  | hash => cases hhash
  | tx => cases htx
  | @bundle _ rd _ _ hrd =>
    cases hd
    exact ⟨rd, hrd⟩
  | empty => cases hd

/-- No bundle is nested in a nested one: its call would be one for a level too deep. -/
theorem Inside.child_of_accepted {b d : SendMevBundleArgs} {r : Validated} (hd : Inside d b)
    (h : validateBundle D currentBlock b = .ok r) (hs : Everywhere AllSingle b) : ∃ el ∈ b.body, el.bundle = some d := by
  obtain ⟨hs, hnested⟩ := everywhere_iff.1 hs
  cases hd with
  | child hel hd => exact ⟨_, hel, hd⟩
  | @deeper _ el d' hel hd' hinside =>
    obtain ⟨rd', hrd'⟩ := nested_validated h hs el hel d' hd'
    obtain ⟨hs', -⟩ := everywhere_iff.1 (hnested el hel d' hd')
    obtain ⟨el', hel', c, hc⟩ : ∃ el' ∈ d'.body, ∃ c, el'.bundle = some c := by
      cases hinside with
      | child hel' hc => exact ⟨_, hel', _, hc⟩
      | deeper hel' hc _ => exact ⟨_, hel', _, hc⟩
    obtain ⟨rc, hrc⟩ := nested_validated hrd' hs' el' hel' c hc
    obtain ⟨_, _, hlevel, -⟩ := validated_inv hrc
    exact absurd hlevel (by decide)

theorem everywhere_children {P : SendMevBundleArgs → Prop} {b : SendMevBundleArgs} (hs : Everywhere AllSingle b)
    (hP : ∀ d, Inside d b → P d) : Everywhere (fun b => AllSingle b ∧ Children P b.body) b := by
  induction hs with
  | node hs _ ih =>
    refine .node ⟨hs, fun el hel d hd => hP d (.child hel hd)⟩ fun el hel c hc => ?_
    exact ih el hel c hc fun d hd => hP d (.deeper hel hc hd)

/-- The blocks that an accepted bundle is left with are those in the interval it
declares and in the intervals of all bundles nested in it; and its interval,
like those of the nested bundles before and after, has the bounds that are
checked. -/
theorem inclusion_intersection {b : SendMevBundleArgs} {r : Validated} (h : validateBundle D currentBlock b = .ok r)
    (hs : Everywhere AllSingle b) (hmax : ∀ d, Inside d b → d.inclusion.maxBlock ≠ 0)
    (hc : currentBlock.toNat + maxBlockOffset.toNat < 2 ^ 64) :
    (∀ n, r.bundle.inclusion.Contains n ↔
      b.inclusion.declared.Contains n ∧ ∀ d, Inside d b → d.inclusion.Contains n) ∧
      (∀ d, Inside d b → Bounds currentBlock d.inclusion) ∧
      Everywhere (fun d => Bounds currentBlock d.inclusion) r.bundle := by
  have hs₀ : AllSingle b := (everywhere_iff.1 hs).1
  have hmax₀ : Children (fun d => d.inclusion.maxBlock ≠ 0) b.body := fun el hel d hd => hmax d (.child hel hd)
  -- there is one level of nesting, so what holds of the children holds of all that is inside
  have hinside {P : SendMevBundleArgs → Prop} : Children P b.body ↔ ∀ d, Inside d b → P d := by
    constructor
    · intro hP d hd
      obtain ⟨el, hel, hd⟩ := hd.child_of_accepted h hs
      exact hP el hel d hd
    · intro hP el hel d hd
      exact hP d (.child hel hd)
  obtain ⟨hcontains, -, hchildren⟩ := validated_inclusion h hs₀ hmax₀ hc
  refine ⟨fun n => by rw [hcontains, hinside], hinside.1 hchildren, ?_⟩
  refine everywhere_of_single (fun _ hb => hb.1) (fun hr hb => ?_) b h (everywhere_children hs hmax)
  exact (validated_inclusion hr hb.1 hb.2 hc).2.1

theorem inside_refundedPair {d : SendMevBundleArgs} (h : Inside d refundedPair) :
    d = oneTx ⟨none, some sampleTx, none, false, ""⟩ := by
  cases h with
  | child hel hd =>
    rcases List.mem_pair.1 hel with rfl | rfl
    · cases hd
      rfl
    · cases hd
  | deeper hel hd hinside =>
    rcases List.mem_pair.1 hel with rfl | rfl
    · cases hd
      cases hinside with
      | child hel hd =>
        cases List.mem_singleton.1 hel
        cases hd
      | deeper hel hd _ =>
        cases List.mem_singleton.1 hel
        cases hd
    · cases hd

/-- The pair declares the blocks 2 and 3 and its nested bundle only block 2, which is what is left. -/
theorem inclusion_intersection_refundedPair :
    ∃ r, validateBundle pairDeps 1 refundedPair = .ok r ∧ r.bundle.inclusion = ⟨2, 2⟩ ∧
      (∀ n, r.bundle.inclusion.Contains n ↔ refundedPair.inclusion.declared.Contains n ∧
        ∀ d, Inside d refundedPair → d.inclusion.Contains n) ∧
      (∀ d, Inside d refundedPair → Bounds 1 d.inclusion) ∧
      Everywhere (fun d => Bounds 1 d.inclusion) r.bundle := by
  refine ⟨_, rfl, rfl, @inclusion_intersection pairDeps 1 _ _ rfl refundedPair_single ?_ (by decide)⟩
  rintro d hd
  rw [inside_refundedPair hd]
  decide

end MevShare
