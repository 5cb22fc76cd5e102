import MevShare.Inclusion
import MevShare.Visited
/-!
# Bundles without a last block

A bundle without a last block is for its first block only, and `validateBundleInner`
writes that default into the bundle it is called with. The caller merges the
interval of a nested bundle before that call, so it still sees a last block of
zero. `Filled b b'` says that `b'` is `b` with the default written out in some of
its bundles. The two spellings part where the loop comes to merge the interval of
such a nested bundle (`Reached`); without that the outcome is the same, and with it
the two agree at most on an error (`filled_outcome_iff`).

Both halves follow the two validations side by side. Where the merges give the
same, so do the loops (`loop_alike`). And as soon as they differ, the bodies differ
or one interval ends in zero and the other does not (`Apart`), to the end.
-/
open Lib

namespace MevShare

mutual
/-- The second bundle is the first one, with the default last block written out in some bundles of the tree. -/
inductive Filled : SendMevBundleArgs → SendMevBundleArgs → Prop
  | mk {version uuid inclusion inclusion' body body' validity privacy metadata} :
      inclusion' = inclusion ∨ inclusion' = inclusion.declared → FilledBody body body' →
      Filled ⟨version, uuid, inclusion, body, validity, privacy, metadata⟩
        ⟨version, uuid, inclusion', body', validity, privacy, metadata⟩

inductive FilledBody : List MevBundleBody → List MevBundleBody → Prop
  | nil : FilledBody [] []
  | cons {hash tx bundle bundle' canRevert revertMode rest rest'} : FilledBundle bundle bundle' → FilledBody rest rest' →
      FilledBody (⟨hash, tx, bundle, canRevert, revertMode⟩ :: rest) (⟨hash, tx, bundle', canRevert, revertMode⟩ :: rest')

inductive FilledBundle : Option SendMevBundleArgs → Option SendMevBundleArgs → Prop
  | none : FilledBundle none none
  | some {c c'} : Filled c c' → FilledBundle (some c) (some c')
end

/-! ## Where the two spellings part -/

/-- The checks on the interval of a bundle pass. -/
def MevBundleInclusion.Passes (currentBlock : UInt64) (i : MevBundleInclusion) : Prop :=
  i.blockNumber ≤ i.maxBlock ∧ i.maxBlock - i.blockNumber ≤ maxBlockRange ∧ currentBlock < i.maxBlock ∧
    i.blockNumber ≤ currentBlock + maxBlockOffset

/-- The loop over the body comes to the element at index `i`, with what it has
computed so far: the checks in front of the loop pass, and so do the elements in
front of this one. -/
structure Comes (D : Deps) (currentBlock : UInt64) (level : Nat) (b : SendMevBundleArgs) (i : Nat) (st : BodyState) :
    Prop where
  depth : level ≤ maxNestingLevel
  version : b.version = "beta-1" ∨ b.version = "v0.1"
  inclusion : b.inclusion.declared.Passes currentBlock
  before : validateBody D currentBlock level b.body.length 0 (b.body.take i)
    ⟨b.inclusion.declared, b.privacy, [], [], 0, false⟩ = .ok st

/-- Validating the first of two bundles, the loop comes to a nested bundle whose
last block is written out in the second one, and its block is in the interval as
it has been narrowed so far. A bundle beside a hash or a transaction is not
looked at. -/
inductive Reached (D : Deps) (currentBlock : UInt64) : Nat → SendMevBundleArgs → SendMevBundleArgs → Prop
  | merge {level b b' i st c c' canRevert canRevert' revertMode revertMode'} : Comes D currentBlock level b i st →
      b.body[i]? = some ⟨none, none, some c, canRevert, revertMode⟩ →
      b'.body[i]? = some ⟨none, none, some c', canRevert', revertMode'⟩ →
      c'.inclusion ≠ c.inclusion → st.inclusion.Contains c.inclusion.blockNumber → Reached D currentBlock level b b'
  | inside {level b b' i st c c' canRevert canRevert' revertMode revertMode' inclusion} :
      Comes D currentBlock level b i st →
      b.body[i]? = some ⟨none, none, some c, canRevert, revertMode⟩ →
      b'.body[i]? = some ⟨none, none, some c', canRevert', revertMode'⟩ →
      mergeInclusionIntervals st.inclusion c.inclusion = .ok inclusion → Reached D currentBlock (level + 1) c c' →
      Reached D currentBlock level b b'

/-- What `ValidateBundle` returns and leaves of the bundle, without the bundles
that it does not look at. -/
def outcome (D : Deps) (currentBlock : UInt64) (b : SendMevBundleArgs) : Except Err Validated :=
  (validateBundle D currentBlock b).map Validated.visited

/-- The states of two validations that cannot end alike. -/
def Apart (st st' : BodyState) : Prop :=
  st.body ≠ st'.body ∨
    st.inclusion.maxBlock = 0 ∧ st'.inclusion.blockNumber ≠ 0 ∧ st'.inclusion.maxBlock ≠ 0

variable {D : Deps} {currentBlock : UInt64} {level : Nat}

/-! ## One bundle -/

theorem validateInclusion_declared (i : MevBundleInclusion) :
    validateInclusion i.declared currentBlock = validateInclusion i currentBlock := by
  by_cases hmax : i.maxBlock = 0
  · by_cases hblock : i.blockNumber = 0
    · simp [MevBundleInclusion.declared, validateInclusion, hmax, hblock]
    · simp [MevBundleInclusion.declared, validateInclusion, hmax, hblock]
  · simp [MevBundleInclusion.declared, hmax]

/-- Where the default makes a difference, the last block is omitted and the first one is not. -/
theorem omitted_of_ne {i : MevBundleInclusion} (hne : i.declared ≠ i) :
    i.maxBlock = 0 ∧ i.blockNumber ≠ 0 ∧ i.declared = ⟨i.blockNumber, i.blockNumber⟩ := by
  have hzero : i.maxBlock = 0 := by
    by_contra hmax
    exact hne (by simp [MevBundleInclusion.declared, hmax])
  refine ⟨hzero, fun hblock => ?_, by simp [MevBundleInclusion.declared, hzero]⟩
  obtain ⟨block, last⟩ := i
  dsimp only at hzero hblock
  subst hzero hblock
  exact hne rfl

theorem Filled.inclusion {b b' : SendMevBundleArgs} (h : Filled b b') :
    b'.inclusion = b.inclusion ∨ b'.inclusion = b.inclusion.declared := by
  cases h with
  | mk hinclusion _ => exact hinclusion

theorem Filled.validateInclusion_eq {b b' : SendMevBundleArgs} (h : Filled b b') (currentBlock : UInt64) :
    validateInclusion b'.inclusion currentBlock = validateInclusion b.inclusion currentBlock := by
  rcases h.inclusion with heq | heq
  · rw [heq]
  · rw [heq, validateInclusion_declared]

theorem FilledBody.length {l l' : List MevBundleBody} (h : FilledBody l l') : l'.length = l.length := by
  induction l generalizing l' with
  | nil =>
    cases h
    rfl
  | cons el l ih =>
    cases h with
    | cons _ hrest => rw [List.length_cons, List.length_cons, ih hrest]

/-! ## The bundles that are looked at -/

/-- No bundle stands beside a hash or a transaction. -/
def Plain (b : SendMevBundleArgs) : Prop := ∀ el ∈ b.body, ∀ c, el.bundle = some c → el.hash = none ∧ el.tx = none

theorem visited_plain (b : SendMevBundleArgs) : Everywhere Plain b.visited := by
  induction b using SendMevBundleArgs.tree_induction with
  | h b ih =>
    refine .node (fun el hel c hc => ?_) fun el hel c hc => ?_
    · rw [visited_body, visitedBody_eq] at hel
      obtain ⟨x, -, rfl⟩ := List.mem_map.1 hel
      obtain ⟨hhash, htx, -⟩ := visitedElement_some hc
      exact visitedElement_alone hhash htx
    · rw [visited_body, visitedBody_eq] at hel
      obtain ⟨x, hx, rfl⟩ := List.mem_map.1 hel
      obtain ⟨-, -, d, hd, rfl⟩ := visitedElement_some hc
      exact ih x hx d hd

theorem filledElement_visited {hash : Option Hash} {tx : Option Bytes} {bundle bundle' : Option SendMevBundleArgs}
    {canRevert : Bool} {revertMode : String} {rest rest' : List MevBundleBody} (h : FilledBundle bundle bundle')
    (ih : ∀ c c', bundle = some c → Filled c c' → Filled c.visited c'.visited) (hrest : FilledBody rest rest') :
    FilledBody (visitedElement ⟨hash, tx, bundle, canRevert, revertMode⟩ :: rest)
      (visitedElement ⟨hash, tx, bundle', canRevert, revertMode⟩ :: rest') := by
  cases hash with
  | some g => exact .cons .none hrest
  | none =>
    cases tx with
    | some t => exact .cons .none hrest
    | none =>
      cases h with
      | none => exact .cons .none hrest
      | some hc => exact .cons (.some (ih _ _ rfl hc)) hrest

theorem Filled.visited (b : SendMevBundleArgs) : ∀ {b' : SendMevBundleArgs}, Filled b b' → Filled b.visited b'.visited := by
  induction b using SendMevBundleArgs.tree_induction with
  | h b ih =>
    intro b' h
    cases h with
    | @mk version uuid inclusion inclusion' body body' validity privacy metadata hinclusion hbody =>
      refine .mk hinclusion ?_
      induction body generalizing body' with
      | nil =>
        cases hbody
        exact .nil
      | cons el body ihl =>
        cases hbody with
        | cons hbundle hrest =>
          exact filledElement_visited hbundle (fun c c' hc hfilled => ih _ List.mem_cons_self c hc hfilled)
            (ihl hrest fun x hx => ih x (List.mem_cons_of_mem _ hx))

theorem Comes.of_visited {b : SendMevBundleArgs} {i : Nat} {st : BodyState} (h : Comes D currentBlock level b.visited i st) :
    ∃ st₀, Comes D currentBlock level b i st₀ ∧ st = st₀.visited := by
  obtain ⟨version, uuid, inclusion, body, validity, privacy, metadata⟩ := b
  have hbefore : validateBody D currentBlock level (visitedBody body).length 0 ((visitedBody body).take i)
      (BodyState.visited ⟨inclusion.declared, privacy, [], [], 0, false⟩) = .ok st := h.before
  rw [visitedBody_eq, List.length_map, ← List.map_take, ← visitedBody_eq,
    validateBody_visited _ fun _ _ c _ => validate_visited c] at hbefore
  obtain ⟨st₀, hst₀, rfl⟩ := map_ok.1 hbefore
  exact ⟨st₀, ⟨h.depth, h.version, h.inclusion, hst₀⟩, rfl⟩

theorem visited_getElem? {b : SendMevBundleArgs} {i : Nat} {c : SendMevBundleArgs} {canRevert : Bool} {revertMode : String}
    (h : b.visited.body[i]? = some ⟨none, none, some c, canRevert, revertMode⟩) :
    ∃ d, b.body[i]? = some ⟨none, none, some d, canRevert, revertMode⟩ ∧ c = d.visited := by
  rw [visited_body, visitedBody_eq, List.getElem?_map, Option.map_eq_some_iff] at h
  obtain ⟨⟨hash, tx, bundle, _, _⟩, hel, heq⟩ := h
  obtain ⟨hhash, htx, d, hd, rfl⟩ := visitedElement_some (congrArg MevBundleBody.bundle heq)
  dsimp only at hhash htx hd
  subst hhash htx hd
  cases heq
  exact ⟨d, hel, rfl⟩

/-- What is reached in the bundles that are looked at is reached. -/
theorem Reached.of_visited {x y : SendMevBundleArgs} (h : Reached D currentBlock level x y) :
    ∀ {b b' : SendMevBundleArgs}, x = b.visited → y = b'.visited → Reached D currentBlock level b b' := by
  induction h with
  | merge hcomes hel hel' hne hcontains =>
    rintro b b' rfl rfl
    obtain ⟨st₀, hcomes₀, rfl⟩ := hcomes.of_visited
    obtain ⟨d, hd, rfl⟩ := visited_getElem? hel
    obtain ⟨d', hd', rfl⟩ := visited_getElem? hel'
    rw [visited_inclusion, visited_inclusion] at hne
    rw [visited_inclusion] at hcontains
    exact .merge hcomes₀ hd hd' hne hcontains
  | inside hcomes hel hel' hmerge _ ih =>
    rintro b b' rfl rfl
    obtain ⟨st₀, hcomes₀, rfl⟩ := hcomes.of_visited
    obtain ⟨d, hd, rfl⟩ := visited_getElem? hel
    obtain ⟨d', hd', rfl⟩ := visited_getElem? hel'
    rw [visited_inclusion] at hmerge
    exact .inside hcomes₀ hd hd' hmerge (ih rfl rfl)

/-- Where something is reached, the bundles differ in what is looked at. -/
theorem Reached.visited_ne {b b' : SendMevBundleArgs} (h : Reached D currentBlock level b b') :
    b'.visited.body ≠ b.visited.body := by
  -- the two nested bundles at one index
  have hnested {b b' c c' : SendMevBundleArgs} {i : Nat} {canRevert canRevert' : Bool} {revertMode revertMode' : String}
      (hel : b.body[i]? = some ⟨none, none, some c, canRevert, revertMode⟩)
      (hel' : b'.body[i]? = some ⟨none, none, some c', canRevert', revertMode'⟩)
      (heq : b'.visited.body = b.visited.body) : c'.visited = c.visited := by
    have hget := congrArg (·[i]?) heq
    simp only [visited_body, visitedBody_eq, List.getElem?_map, hel, hel', Option.map_some, visitedElement,
      Option.some.injEq, MevBundleBody.mk.injEq] at hget
    exact hget.2.2.1
  induction h with
  | merge _ hel hel' hne _ =>
    intro heq
    have hsame := congrArg SendMevBundleArgs.inclusion (hnested hel hel' heq)
    rw [visited_inclusion, visited_inclusion] at hsame
    exact hne hsame
  | inside _ hel hel' _ _ ih =>
    intro heq
    exact ih (congrArg SendMevBundleArgs.body (hnested hel hel' heq))

/-! ## Two validations that stay together -/

theorem validateInclusion_iff {i i' : MevBundleInclusion} :
    validateInclusion i currentBlock = .ok i' ↔ i.declared.Passes currentBlock ∧ i' = i.declared := by
  simp only [validateInclusion, bind_ok, rejectIf_ok, exists_const, pure_ok, MevBundleInclusion.Passes,
    UInt64.not_lt, UInt64.not_le, ge_iff_le, gt_iff_lt]
  constructor
  · rintro ⟨hnonempty, hrange, hfresh, hnear, rfl⟩
    exact ⟨⟨hnonempty, hrange, hfresh, hnear⟩, rfl⟩
  · rintro ⟨⟨hnonempty, hrange, hfresh, hnear⟩, rfl⟩
    exact ⟨hnonempty, hrange, hfresh, hnear, rfl⟩

/-- Outside the interval, the merge fails with either spelling. -/
theorem merge_outside {t i : MevBundleInclusion} (hne : i.declared ≠ i) (h : ¬t.Contains i.blockNumber) :
    mergeInclusionIntervals t i.declared = mergeInclusionIntervals t i := by
  obtain ⟨hzero, -, hdeclared⟩ := omitted_of_ne hne
  have hfails (m : MevBundleInclusion) (hblock : m.blockNumber = i.blockNumber) (hmax : m.maxBlock ≤ i.blockNumber) :
      mergeInclusionIntervals t m = .error .invalidInclusion := by
    refine bind_error.2 (.inl (rejectIf_error.2 ⟨?_, rfl⟩))
    rw [MevBundleInclusion.Contains, not_and_or, UInt64.not_le, UInt64.not_le] at h
    rcases h with hlt | hlt
    · exact .inr (UInt64.lt_of_le_of_lt hmax hlt)
    · exact .inl (hblock ▸ hlt)
  rw [hdeclared, hfails i rfl (by simp [hzero]), hfails ⟨i.blockNumber, i.blockNumber⟩ rfl (UInt64.le_refl _)]

/-- The nested bundles at one position of the two bodies are merged and validated alike. -/
def AlikeAt (D : Deps) (currentBlock : UInt64) (level : Nat) (st : BodyState) (c c' : SendMevBundleArgs) : Prop :=
  mergeInclusionIntervals st.inclusion c'.inclusion = mergeInclusionIntervals st.inclusion c.inclusion ∧
    ∀ inclusion, mergeInclusionIntervals st.inclusion c.inclusion = .ok inclusion →
      validateBundleInner D currentBlock (level + 1) c' = validateBundleInner D currentBlock (level + 1) c

theorem FilledBody.nested {els els' : List MevBundleBody} (h : FilledBody els els') {k : Nat} {c c' : SendMevBundleArgs}
    {canRevert canRevert' : Bool} {revertMode revertMode' : String}
    (hel : els[k]? = some ⟨none, none, some c, canRevert, revertMode⟩)
    (hel' : els'[k]? = some ⟨none, none, some c', canRevert', revertMode'⟩) : Filled c c' := by
  induction els generalizing els' k with
  | nil => simp at hel
  | cons el els ih =>
    cases h with
    | cons hbundle hrest =>
      cases k with
      | zero =>
        cases hel
        cases hel'
        cases hbundle with
        | some hc => exact hc
      | succ k => exact ih hrest hel hel'

theorem Filled.privacy {b b' : SendMevBundleArgs} (h : Filled b b') : b'.privacy = b.privacy := by
  cases h
  rfl

/-- The loops over two bodies give the same, if they do for each nested bundle that the first one comes to. -/
theorem loop_alike {size : Nat} {els els' : List MevBundleBody} (hfilled : FilledBody els els')
    (hplain : ∀ el ∈ els, ∀ c, el.bundle = some c → el.hash = none ∧ el.tx = none) :
    ∀ {i : Nat} {st : BodyState},
      (∀ k st₁ c c' canRevert revertMode canRevert' revertMode',
        validateBody D currentBlock level size i (els.take k) st = .ok st₁ →
        els[k]? = some ⟨none, none, some c, canRevert, revertMode⟩ →
        els'[k]? = some ⟨none, none, some c', canRevert', revertMode'⟩ → AlikeAt D currentBlock level st₁ c c') →
      validateBody D currentBlock level size i els' st = validateBody D currentBlock level size i els st := by
  induction els generalizing els' with
  | nil =>
    intro i st _
    cases hfilled
    rfl
  | cons el els ih =>
    intro i st halike
    cases hfilled with
    | @cons hash tx bundle bundle' canRevert revertMode _ rest' hbundle hrest =>
      have helement : validateElement D currentBlock level size i ⟨hash, tx, bundle', canRevert, revertMode⟩ st =
          validateElement D currentBlock level size i ⟨hash, tx, bundle, canRevert, revertMode⟩ st := by
        cases hbundle with
        | none => rfl
        | @some c c' hc =>
          -- it stands alone, so the loop looks at it
          obtain ⟨hhash, htx⟩ := hplain _ List.mem_cons_self c rfl
          dsimp only at hhash htx
          subst hhash htx
          obtain ⟨hmerge, hvalidate⟩ := halike 0 st c c' _ _ _ _ rfl rfl rfl
          simp only [validateElement, hmerge, hc.privacy]
          exact bind_congr_ok fun inclusion hok => by rw [hvalidate inclusion hok]
      rw [validateBody, validateBody, helement]
      refine bind_congr_ok fun st₁ hst₁ => ih hrest (fun x hx => hplain x (List.mem_cons_of_mem _ hx)) ?_
      intro k st₂ c c' cr rm cr' rm' hbefore hel hel'
      refine halike (k + 1) st₂ c c' cr rm cr' rm' ?_ hel hel'
      rw [List.take_succ_cons, validateBody, hst₁]
      exact hbefore

theorem alike_of_not_reached (b : SendMevBundleArgs) : ∀ {level : Nat} {b' : SendMevBundleArgs}, Filled b b' →
    Everywhere Plain b → ¬Reached D currentBlock level b b' →
      validateBundleInner D currentBlock level b' = validateBundleInner D currentBlock level b := by
  induction b using SendMevBundleArgs.tree_induction with
  | h b ih =>
    intro level b' hfilled hplain hnot
    obtain ⟨hplain, hinner⟩ := everywhere_iff.1 hplain
    have hinclusion := hfilled.validateInclusion_eq currentBlock
    cases hfilled with
    | @mk version uuid inclusion inclusion' body body' validity privacy metadata _ hbody =>
      dsimp only at hinclusion
      simp only [validateBundleInner, hinclusion, hbody.length]
      refine bind_congr_ok fun _ hlevel => bind_congr_ok fun _ hversion => bind_congr_ok fun i hi =>
        bind_congr_ok fun _ _ => ?_
      obtain ⟨hpasses, rfl⟩ := validateInclusion_iff.1 hi
      rw [rejectIf_ok, not_and_or, not_not, not_not] at hversion
      rw [loop_alike hbody hplain]
      intro k st c c' _ _ _ _ hbefore hel hel'
      have hcomes : Comes D currentBlock level ⟨version, uuid, inclusion, body, validity, privacy, metadata⟩ k st :=
        ⟨Nat.not_lt.1 (rejectIf_ok.1 hlevel), hversion, hpasses, hbefore⟩
      have hc : Filled c c' := hbody.nested hel hel'
      by_cases hsame : c'.inclusion = c.inclusion
      · refine ⟨by rw [hsame], fun m hm => ?_⟩
        exact ih _ (List.mem_of_getElem? hel) c rfl hc (hinner _ (List.mem_of_getElem? hel) c rfl)
          fun hreached => hnot (.inside hcomes hel hel' hm hreached)
      · have hdeclared := hc.inclusion.resolve_left hsame
        have houtside : ¬st.inclusion.Contains c.inclusion.blockNumber :=
          fun hcontains => hnot (.merge hcomes hel hel' hsame hcontains)
        have hmerge := merge_outside (hdeclared ▸ hsame) houtside
        rw [← hdeclared] at hmerge
        refine ⟨hmerge, fun m hm => absurd ?_ houtside⟩
        obtain ⟨hleft, hright, -⟩ := mergeInclusionIntervals_ok (hmerge.trans hm)
        rw [hdeclared, (omitted_of_ne (hdeclared ▸ hsame)).2.2] at hleft hright
        exact ⟨hright, hleft⟩

/-! ## Two validations that part -/

section Turns
variable {size i : Nat} {el el' : MevBundleBody} {st st' s s' : BodyState}

theorem ne_zero_of_le {x y : UInt64} (hle : x ≤ y) (hx : x ≠ 0) : y ≠ 0 := by
  rintro rfl
  exact hx (UInt64.le_zero_iff.1 hle)

theorem turn_max_zero (h : Turn D currentBlock level size i st el s) (hzero : st.inclusion.maxBlock = 0) :
    s.inclusion.maxBlock = 0 := by
  cases h with
  | hash | tx | empty => exact hzero
  | bundle hmerge =>
    obtain ⟨-, -, -, ⟨hm, -⟩ | ⟨hm, hle⟩⟩ := mergeInclusionIntervals_ok hmerge
    · exact hm.trans hzero
    · rw [hzero, ← hm] at hle
      exact UInt64.le_zero_iff.1 hle

theorem turn_max_pos (h : Turn D currentBlock level size i st el s)
    (hpos : st.inclusion.blockNumber ≠ 0 ∧ st.inclusion.maxBlock ≠ 0) :
    s.inclusion.blockNumber ≠ 0 ∧ s.inclusion.maxBlock ≠ 0 := by
  cases h with
  | hash | tx | empty => exact hpos
  | bundle hmerge =>
    obtain ⟨-, hright, hblock, hmax⟩ := mergeInclusionIntervals_ok hmerge
    constructor
    · rcases hblock with ⟨hm, -⟩ | ⟨hm, hle⟩
      · exact hm ▸ hpos.1
      · exact hm ▸ ne_zero_of_le hle hpos.1
    · rcases hmax with ⟨hm, -⟩ | ⟨hm, -⟩
      · exact hm ▸ hpos.2
      · exact hm ▸ ne_zero_of_le hright hpos.1

theorem Apart.turn (h : Apart st st') (hs : Turn D currentBlock level size i st el s)
    (hs' : Turn D currentBlock level size i st' el' s') : Apart s s' := by
  rcases h with hbody | ⟨hzero, hpos⟩
  · left
    obtain ⟨x, -, hx, -⟩ := turn_kept hs
    obtain ⟨x', -, hx', -⟩ := turn_kept hs'
    rw [hx, hx']
    exact fun heq => hbody (List.append_inj' heq rfl).1
  · exact .inr ⟨turn_max_zero hs hzero, turn_max_pos hs' hpos⟩

/-- The merge with a last block of zero, and the merge with the default in its place. -/
theorem merge_apart {t i m m' : MevBundleInclusion} (hne : i.declared ≠ i)
    (hm : mergeInclusionIntervals t i = .ok m) (hm' : mergeInclusionIntervals t i.declared = .ok m') :
    m.maxBlock = 0 ∧ m'.blockNumber ≠ 0 ∧ m'.maxBlock ≠ 0 := by
  obtain ⟨hzero, hblock, hdeclared⟩ := omitted_of_ne hne
  rw [hdeclared] at hm'
  refine ⟨?_, ?_, ?_⟩
  · obtain ⟨-, -, -, ⟨hlast, hle⟩ | ⟨hlast, -⟩⟩ := mergeInclusionIntervals_ok hm
    · rw [hzero] at hle
      exact hlast.trans (UInt64.le_zero_iff.1 hle)
    · exact hlast.trans hzero
  · obtain ⟨-, -, ⟨hfirst, hle⟩ | ⟨hfirst, -⟩, -⟩ := mergeInclusionIntervals_ok hm'
    · exact hfirst ▸ ne_zero_of_le hle hblock
    · exact hfirst ▸ hblock
  · obtain ⟨hleft, -, -, ⟨hlast, -⟩ | ⟨hlast, -⟩⟩ := mergeInclusionIntervals_ok hm'
    · exact hlast ▸ ne_zero_of_le hleft hblock
    · exact hlast ▸ hblock

/-- Two validations that both succeed leave different bundles. -/
def LeavesOther (D : Deps) (currentBlock : UInt64) (c : SendMevBundleArgs) : Prop :=
  ∀ {level : Nat} {c' : SendMevBundleArgs} {r r' : Validated}, Filled c c' → c'.body ≠ c.body →
    validateBundleInner D currentBlock level c = .ok r → validateBundleInner D currentBlock level c' = .ok r' →
    r.bundle ≠ r'.bundle

/-- The first element in which the two bundles differ. -/
theorem turn_apart {hash : Option Hash} {tx : Option Bytes} {bundle bundle' : Option SendMevBundleArgs}
    {canRevert : Bool} {revertMode : String} (hfilled : FilledBundle bundle bundle') (hne : bundle' ≠ bundle)
    (ih : ∀ c, bundle = some c → LeavesOther D currentBlock c)
    (hs : Turn D currentBlock level size i st ⟨hash, tx, bundle, canRevert, revertMode⟩ s)
    (hs' : Turn D currentBlock level size i st ⟨hash, tx, bundle', canRevert, revertMode⟩ s') : Apart s s' := by
  have hsnoc {x x' : MevBundleBody} (hx : x.bundle ≠ x'.bundle) : st.body ++ [x] ≠ st.body ++ [x'] := by
    intro heq
    exact hx (congrArg MevBundleBody.bundle (List.singleton_inj.1 (List.append_cancel_left heq)))
  cases hs with
  | hash _ _ _ =>
    cases hs' with
    | hash _ _ _ => exact .inl (hsnoc hne.symm)
  | tx _ _ =>
    cases hs' with
    | tx _ _ => exact .inl (hsnoc hne.symm)
  | @bundle c _ _ _ r hmerge hr _ =>
    cases hs' with
    | @bundle c' _ _ _ r' hmerge' hr' _ =>
      cases hfilled with
      | some hc =>
        by_cases hinclusion : c'.inclusion = c.inclusion
        · have hbody : c'.body ≠ c.body := by
            intro hbody
            cases hc with
            | mk _ _ =>
              dsimp only at hinclusion hbody
              rw [hinclusion, hbody] at hne
              exact hne rfl
          exact .inl (hsnoc fun heq => ih c rfl hc hbody hr hr' (Option.some.inj heq))
        · have hdeclared := hc.inclusion.resolve_left hinclusion
          rw [hdeclared] at hinclusion hmerge'
          exact .inr (merge_apart hinclusion hmerge hmerge')
    | empty => cases hfilled
  | empty =>
    cases hs' with
    | bundle => cases hfilled
    | empty => exact absurd rfl hne

end Turns

/-- The loops over the two bodies: alike until the bodies differ, and apart from there on. -/
theorem bodies_apart {size : Nat} {els els' : List MevBundleBody} (hfilled : FilledBody els els')
    (ih : ∀ el ∈ els, ∀ c, el.bundle = some c → LeavesOther D currentBlock c) :
    ∀ {i : Nat} {st st' s s' : BodyState}, validateBody D currentBlock level size i els st = .ok s →
      validateBody D currentBlock level size i els' st' = .ok s' →
      (st = st' ∧ els' ≠ els) ∨ Apart st st' → Apart s s' := by
  induction els generalizing els' with
  | nil =>
    intro i st st' s s' h h' hst
    cases hfilled
    simp only [validateBody, pure_ok] at h h'
    subst h h'
    exact hst.resolve_left fun hne => hne.2 rfl
  | cons el els ihl =>
    intro i st st' s s' h h' hst
    cases hfilled with
    | @cons hash tx bundle bundle' canRevert revertMode _ rest' hbundle hrest =>
      simp only [validateBody, bind_ok] at h h'
      obtain ⟨st₁, h1, h⟩ := h
      obtain ⟨st₁', h1', h'⟩ := h'
      refine ihl hrest (fun x hx => ih x (List.mem_cons_of_mem _ hx)) h h' ?_
      rcases hst with ⟨rfl, hne⟩ | hapart
      · by_cases heq : bundle' = bundle
        · subst heq
          cases h1.symm.trans h1'
          exact .inl ⟨rfl, fun hrest => hne (by rw [hrest])⟩
        · exact .inr (turn_apart hbundle heq (ih _ List.mem_cons_self) (turn_of_element h1) (turn_of_element h1'))
      · exact .inr (hapart.turn (turn_of_element h1) (turn_of_element h1'))

theorem leavesOther (b : SendMevBundleArgs) : LeavesOther D currentBlock b := by
  induction b using SendMevBundleArgs.tree_induction with
  | h b ih =>
    intro level b' r r' hfilled hbody h h' heq
    obtain ⟨inclusion, st, -, hinclusion, -, hst, hf⟩ := validated_inv h
    obtain ⟨inclusion', st', -, hinclusion', -, hst', hf'⟩ := validated_inv h'
    rw [hfilled.validateInclusion_eq, hinclusion] at hinclusion'
    cases hinclusion'
    obtain ⟨-, -, p, -, rfl⟩ := finishBundle_ok hf
    obtain ⟨-, -, p', -, rfl⟩ := finishBundle_ok hf'
    have hapart : Apart st st' := by
      cases hfilled with
      | mk _ hels =>
        dsimp only at hst hst'
        rw [hels.length] at hst'
        exact bodies_apart hels ih hst hst' (.inl ⟨rfl, hbody⟩)
    simp only [SendMevBundleArgs.mk.injEq] at heq
    obtain ⟨-, -, hinc, hbodies, -⟩ := heq
    rcases hapart with hne | ⟨hzero, -, hpos⟩
    · exact hne hbodies
    · exact hpos (hinc ▸ hzero)

/-- Writing out the default changes nothing as long as the loop comes to no nested
bundle where it is written out. Where it does come to one, the two spellings have
another outcome, unless they are rejected with the same error. -/
theorem filled_outcome_iff {b b' : SendMevBundleArgs} (h : Filled b b') (D : Deps) (currentBlock : UInt64) :
    outcome D currentBlock b' = outcome D currentBlock b ↔
      ¬Reached D currentBlock 0 b b' ∨
        ∃ e, validateBundle D currentBlock b = .error e ∧ validateBundle D currentBlock b' = .error e := by
  constructor
  · intro heq
    by_cases hreached : Reached D currentBlock 0 b b'
    · right
      simp only [outcome] at heq
      cases hr : validateBundle D currentBlock b with
      | error e =>
        rw [hr] at heq
        exact ⟨e, rfl, map_error.1 heq⟩
      | ok r =>
        rw [hr] at heq
        obtain ⟨r', hr', hsame⟩ := map_ok.1 heq
        have hv : validateBundleInner D currentBlock 0 b.visited = .ok r.visited := by
          rw [validate_visited, show validateBundleInner D currentBlock 0 b = .ok r from hr]
          rfl
        have hv' : validateBundleInner D currentBlock 0 b'.visited = .ok r'.visited := by
          rw [validate_visited, show validateBundleInner D currentBlock 0 b' = .ok r' from hr']
          rfl
        exact absurd (congrArg Validated.bundle hsame).symm
          (leavesOther b.visited h.visited hreached.visited_ne hv hv')
    · exact .inl hreached
  · rintro (hnot | ⟨e, he, he'⟩)
    · simp only [outcome, validateBundle, ← validate_visited]
      exact alike_of_not_reached b.visited h.visited (visited_plain b) fun hreached => hnot (hreached.of_visited rfl rfl)
    · rw [outcome, outcome, he, he']

/-- A bundle of one transaction in front of another transaction, each bundle with a given last block. -/
def nestedPair (last nestedLast : UInt64) : SendMevBundleArgs :=
  ⟨"v0.1", "", ⟨2, last⟩,
    [⟨none, none, some ⟨"v0.1", "", ⟨2, nestedLast⟩, [⟨none, some sampleTx, none, false, ""⟩], ⟨[], []⟩, none, none⟩,
        false, ""⟩,
      ⟨none, some sampleTx, none, false, ""⟩], ⟨[], []⟩, none, none⟩

theorem filled_outcome_iff_top :
    ∃ r, validateBundle pairDeps 1 (nestedPair 0 2) = .ok r ∧ outcome pairDeps 1 (nestedPair 2 2) = .ok r.visited := by
  have h : Filled (nestedPair 0 2) (nestedPair 2 2) :=
    .mk (.inr rfl) (.cons (.some (.mk (.inl rfl) (.cons .none .nil))) (.cons .none .nil))
  have hnot : ¬Reached pairDeps 1 0 (nestedPair 0 2) (nestedPair 2 2) := fun hreached => hreached.visited_ne rfl
  exact ⟨_, rfl, ((filled_outcome_iff h pairDeps 1).2 (.inl hnot)).trans rfl⟩

/-- The same interval in its two spellings: with the last block the bundle is accepted, without it is rejected. -/
theorem nested_omitted_rejected :
    Filled (nestedPair 3 0) (nestedPair 3 2) ∧
      (∃ r, validateBundle pairDeps 1 (nestedPair 3 2) = .ok r) ∧
      validateBundle pairDeps 1 (nestedPair 3 0) = .error .invalidInclusion := by
  exact ⟨.mk (.inl rfl) (.cons (.some (.mk (.inr rfl) (.cons .none .nil))) (.cons .none .nil)), ⟨_, rfl⟩, rfl⟩

end MevShare
