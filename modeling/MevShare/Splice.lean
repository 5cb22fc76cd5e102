import MevShare.Handed
/-!
# The limits of a spliced bundle

Validation counts the hash of an unmatched bundle as one transaction, and the
bundle that is found for it later takes its place one level down. That bundle
passed the same checks for itself. `spliced_within_limits_iff` says when the two
together are within the limits: the stored bundle has to be flat, and small
enough beside the rest of the submission.
-/
open Lib

namespace MevShare

/-- No bundle is nested deeper than `n` levels below this one. -/
def WithinDepth : Nat → SendMevBundleArgs → Prop
  | 0, b => ∀ el ∈ b.body, el.bundle = none
  | n + 1, b => ∀ el ∈ b.body, ∀ c, el.bundle = some c → WithinDepth n c

def NoHash (b : SendMevBundleArgs) : Prop := ∀ el ∈ b.body, el.hash = none

/-- The limits that validation sets to a bundle, and nothing left to match. -/
structure WithinLimits (b : SendMevBundleArgs) : Prop where
  depth : WithinDepth maxNestingLevel b
  size : b.references ≤ maxBodySize
  matched : Everywhere NoHash b

/-- The transactions of a body beside what its first element is to be replaced by. -/
def besideFirst : List MevBundleBody → Nat
  | [] => 0
  | el :: rest => el.tx.isSome.toNat + bodyReferences rest

/-- Nothing but transactions in the bundles of the elements after the first. -/
def BareTail (b : SendMevBundleArgs) : Prop :=
  ∀ el ∈ b.body.tail, ∀ c, el.bundle = some c → ∀ el' ∈ c.body, el'.hash = none ∧ el'.bundle = none

variable {D : Deps} {r : SendRequest} {v : Validated} {bundle stored : SendMevBundleArgs}

/-- A bundle that holds neither a hash nor a bundle is within any depth and has nothing to match. -/
theorem everywhere_noHash_of_bare {c : SendMevBundleArgs} (h : ∀ el ∈ c.body, el.hash = none ∧ el.bundle = none) :
    Everywhere NoHash c :=
  everywhere_of_flat (fun el hel => (h el hel).1) fun el hel => (h el hel).2

/-- Validation looks into the bundles of a submission with one field in each
element: there the condition on the tail holds by itself. -/
theorem bareTail_of_single (hv : received D r = .ok v) (hs : Everywhere AllSingle r.bundle) : BareTail v.bundle := by
  obtain ⟨currentBlock, hvalid⟩ := received_ok hv
  exact fun el hel => nested_bare hvalid hs el (List.mem_of_mem_tail hel)

/-- Only the first element of an accepted submission can carry a hash. -/
theorem tail_no_hash (hv : received D r = .ok v) {first el : MevBundleBody} {rest : List MevBundleBody}
    (hbody : v.bundle.body = first :: rest) (hel : el ∈ rest) : el.hash = none := by
  obtain ⟨currentBlock, hvalid⟩ := received_ok hv
  obtain ⟨i, hi⟩ := List.mem_iff_getElem?.1 hel
  by_contra hsome
  have hzero := ((validated_formed hvalid).hash (i + 1) el (by rw [hbody]; exact hi)
    (Option.isSome_iff_ne_none.2 hsome)).1
  cases hzero

/-- A stored bundle that can be matched carries no hash itself. -/
theorem stored_no_hash (h : OnceHanded D stored) (hhint : stored.hasHintHash = true) : NoHash stored := by
  obtain ⟨r, c, hc, htop⟩ := h
  obtain ⟨currentBlock, v, hvalid, hu, hbody, -⟩ := handed_hinted hc ((hasHintHash_eq htop.privacy).symm.trans hhint)
  intro el hel
  have hfields : (el.hash, el.tx) ∈ c.body.map fun el => (el.hash, el.tx) := by
    rw [← htop.body]
    exact List.mem_map_of_mem hel
  obtain ⟨el', hel', heq⟩ := List.mem_map.1 hfields
  rw [← (Prod.mk.inj heq).1]
  exact validated_no_hash hvalid hu (hbody ▸ hel')

/-- What is scheduled for an unmatched bundle is within the limits if and only if
the stored bundle holds no nested bundle, no bundle of another element of the
submission holds a hash or a further bundle, and the transactions of the stored
bundle and those beside the hash together are not too many. -/
theorem spliced_within_limits_iff (hv : received D r = .ok v) (hu : v.unmatched = true)
    (hfetched : r.fetched = .ok stored) (hstored : OnceHanded D stored) (hbundle : Handed D r bundle) :
    WithinLimits bundle ↔ (∀ el ∈ stored.body, el.bundle = none) ∧ BareTail v.bundle ∧
      stored.references + besideFirst v.bundle.body ≤ maxBodySize := by
  obtain ⟨v₁, hv₁, hhanding⟩ := handing hbundle
  obtain rfl : v = v₁ := by simpa using hv.symm.trans hv₁
  cases hhanding with
  | whole hno => rw [hu] at hno; cases hno
  | @spliced h tx old canRevert revertMode rest stored₁ m _ hhead hfetched₁ hhint hm _ hbody _ _ =>
    obtain rfl : stored = stored₁ := by simpa using hfetched.symm.trans hfetched₁
    have hsize : bundle.references = stored.references + besideFirst v.bundle.body := by
      rw [references_eq bundle, hbody, hhead, bodyReferences, elementReferences_eq, besideFirst]
      simp only [Option.isSome_none, Bool.toNat_false, Nat.zero_add]
      omega
    have hrest : ∀ el ∈ rest, el ∈ bundle.body := fun el hel => by simp [hbody, hel]
    have htail : v.bundle.body.tail = rest := by rw [hhead]; rfl
    constructor
    · intro hl
      refine ⟨hl.depth ⟨none, tx, some stored, canRevert, revertMode⟩ (by simp [hbody]) stored rfl,
        fun el hel c hc el' hel' => ?_, hsize ▸ hl.size⟩
      rw [htail] at hel
      have hnone := (everywhere_iff.1 ((everywhere_iff.1 hl.matched).2 el (hrest el hel) c hc)).1
      exact ⟨hnone el' hel', hl.depth el (hrest el hel) c hc el' hel'⟩
    · rintro ⟨hflat, hbare, hcount⟩
      have hstoredBare : ∀ el ∈ stored.body, el.hash = none ∧ el.bundle = none :=
        fun el hel => ⟨stored_no_hash hstored hhint el hel, hflat el hel⟩
      -- every bundle in the body, the stored one and those of the other elements, holds transactions only
      have hchildren : ∀ el ∈ bundle.body, ∀ c, el.bundle = some c →
          ∀ el' ∈ c.body, el'.hash = none ∧ el'.bundle = none := by
        intro el hel c hc
        rcases List.mem_cons.1 (hbody ▸ hel) with rfl | hel
        · cases hc
          exact hstoredBare
        · exact hbare el (by rwa [htail]) c hc
      refine ⟨fun el hel c hc el' hel' => (hchildren el hel c hc el' hel').2, hsize ▸ hcount,
        .node (fun el hel => ?_) fun el hel c hc => everywhere_noHash_of_bare (hchildren el hel c hc)⟩
      rcases List.mem_cons.1 (hbody ▸ hel) with rfl | hel
      · rfl
      · exact tail_no_hash hv hhead hel

theorem spliced_within_limits_iff_tx :
    ∃ r v stored bundle, received pairDeps r = .ok v ∧ v.unmatched = true ∧ r.fetched = .ok stored ∧
      (∃ r', Handed pairDeps r' stored) ∧ Handed pairDeps r bundle ∧ WithinLimits bundle := by
  obtain ⟨bundle, hbundle⟩ : ∃ bundle, Handed pairDeps (backrunOf (storedBy flatRequest)) bundle :=
    ⟨_, _, _, emptyApi, _, rfl, rfl, rfl⟩
  refine ⟨_, _, _, bundle, rfl, rfl, rfl, ⟨_, flatRequest_handed⟩, hbundle, ?_⟩
  refine (spliced_within_limits_iff rfl rfl rfl flatRequest_handed.once hbundle).2 ⟨?_, ?_, by decide⟩
  · intro el hel
    cases List.mem_singleton.1 hel
    rfl
  · intro el hel c hc
    cases List.mem_singleton.1 hel
    cases hc

/-- The match puts a stored bundle with a nested one a level further down. -/
theorem spliced_too_deep :
    ∃ r v stored bundle, received pairDeps r = .ok v ∧ v.unmatched = true ∧ r.fetched = .ok stored ∧
      (∃ r', Handed pairDeps r' stored) ∧ Handed pairDeps r bundle ∧ ¬WithinLimits bundle := by
  refine ⟨backrunOf (storedBy nestedRequest), _, _, _, rfl, rfl, rfl,
    ⟨_, nestedRequest_handed⟩, ⟨_, _, emptyApi, _, rfl, rfl, rfl⟩, ?_⟩
  intro hl
  have hflat := hl.depth _ List.mem_cons_self _ rfl _ List.mem_cons_self
  cases hflat

end MevShare
