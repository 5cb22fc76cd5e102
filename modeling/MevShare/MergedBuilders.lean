import MevShare.Builders
import MevShare.Lib.Common
/-!
# The common builders of a tree

`Intersect` keeps the names of its second list that the first one has too, up to
case (`intersect_eq`). The walk of `MergePrivacyBuilders` over a bundle is a fold
of it over the lists of the bundles in the order they are visited
(`mergePrivacyBuildersInner_eq`); what that leaves, and that a second walk
changes nothing, are facts about such folds.
-/
open Lib

namespace MevShare

variable {D : Deps}

/-- The list has the name `x`, which is in lower case, up to the case of its entries. -/
def Occurs (D : Deps) (x : String) (l : List String) : Prop := ∃ v ∈ l, D.toLower v = x

/-! ## `Intersect` -/

theorem intersect_eq (a b : List String) : intersect D a b = common D.toLower a b := by
  unfold intersect
  split
  · rename_i h
    simp only [List.length_eq_zero_iff] at h
    rcases h with rfl | rfl <;> simp [common]
  · rfl

/-- The result is what the comment of `Intersect` says, without duplicates, if
and only if no name of the first list is in the second one twice. -/
theorem intersect_exact_iff (D : Deps) (a b : List String) :
    ((∀ x, x ∈ intersect D a b ↔ (∃ v ∈ a, D.toLower v = x) ∧ ∃ w ∈ b, D.toLower w = x) ∧ (intersect D a b).Nodup) ↔
      ∀ v ∈ a, b.countP (fun w => D.toLower w = D.toLower v) ≤ 1 := by
  rw [intersect_eq]
  -- the names are the right ones in any case
  refine Iff.trans (and_iff_right ?_) nodup_common_iff
  intro x
  exact mem_common

/-- A name that the second list has in two spellings is returned twice. -/
theorem intersect_two_spellings :
    intersect sampleDeps ["a"] ["a", "A"] = ["a", "a"] ∧ ¬ (intersect sampleDeps ["a"] ["a", "A"]).Nodup := by
  decide

/-! ## The walk over a tree -/

mutual
/-- The builders of the bundle and of the bundles nested in it, in the order of the walk. -/
def builderLists : SendMevBundleArgs → List (List String)
  | ⟨_, _, _, body, _, privacy, _⟩ => privacyBuilders privacy :: nestedBuilderLists body

def nestedBuilderLists : List MevBundleBody → List (List String)
  | [] => []
  | ⟨_, _, bundle, _, _⟩ :: rest => (match bundle with
      | some inner => builderLists inner
      | none => []) ++ nestedBuilderLists rest
end

theorem builderLists_eq (b : SendMevBundleArgs) :
    builderLists b = privacyBuilders b.privacy :: nestedBuilderLists b.body := by
  obtain ⟨version, uuid, inclusion, body, validity, privacy, metadata⟩ := b
  rfl

theorem mem_nestedBuilderLists {l : List String} {body : List MevBundleBody} :
    l ∈ nestedBuilderLists body ↔ ∃ el ∈ body, ∃ c, el.bundle = some c ∧ l ∈ builderLists c := by
  induction body with
  | nil => simp [nestedBuilderLists]
  | cons el rest ih =>
    obtain ⟨hash, tx, bundle, canRevert, revertMode⟩ := el
    cases bundle <;> simp [nestedBuilderLists, ih]

/-- The lists are those of the bundles at every level. -/
theorem forall_builderLists {P : List String → Prop} (b : SendMevBundleArgs) :
    (∀ l ∈ builderLists b, P l) ↔ Everywhere (fun c => P (privacyBuilders c.privacy)) b := by
  induction b using SendMevBundleArgs.tree_induction with
  | h b ih =>
    rw [everywhere_iff, builderLists_eq, List.forall_mem_cons]
    refine and_congr_right fun _ => ?_
    constructor
    · intro h el hel c hc
      exact (ih el hel c hc).1 fun l hl => h l (mem_nestedBuilderLists.2 ⟨el, hel, c, hc, hl⟩)
    · intro h l hl
      obtain ⟨el, hel, c, hc, hl⟩ := mem_nestedBuilderLists.1 hl
      exact (ih el hel c hc).2 (h el hel c hc) l hl

/-- A missing inner record counts as an empty list. -/
theorem mergeBuilders_eq (topLevel inner : Option MevBundlePrivacy) :
    mergeBuilders D topLevel inner =
      topLevel.map fun p => { p with builders := common D.toLower p.builders (privacyBuilders inner) } := by
  cases topLevel with
  | none => rfl
  | some p =>
    cases inner with
    | none => rfl
    | some i => rw [Option.map_some, ← intersect_eq]; rfl

/-- The loop over the body. -/
theorem mergePrivacyBuildersBody_eq {body : List MevBundleBody}
    (ih : ∀ el ∈ body, ∀ c, el.bundle = some c → ∀ topLevel, mergePrivacyBuildersInner D c topLevel =
      topLevel.map fun p => { p with builders := (builderLists c).foldl (common D.toLower) p.builders })
    (topLevel : Option MevBundlePrivacy) :
    mergePrivacyBuildersBody D body topLevel =
      topLevel.map fun p => { p with builders := (nestedBuilderLists body).foldl (common D.toLower) p.builders } := by
  induction body generalizing topLevel with
  | nil => cases topLevel <;> rfl
  | cons el rest ihl =>
    have hrest := ihl fun e he => ih e (List.mem_cons_of_mem _ he)
    have hel := ih el List.mem_cons_self
    obtain ⟨hash, tx, bundle, canRevert, revertMode⟩ := el
    cases bundle with
    | none => exact hrest topLevel
    | some c =>
      simp only [mergePrivacyBuildersBody, nestedBuilderLists, List.foldl_append]
      rw [hel c rfl, hrest, Option.map_map]
      rfl

/-- The walk over the tree only writes builders, and those are a fold over the lists it visits. -/
theorem mergePrivacyBuildersInner_eq (b : SendMevBundleArgs) : ∀ topLevel : Option MevBundlePrivacy,
    mergePrivacyBuildersInner D b topLevel =
      topLevel.map fun p => { p with builders := (builderLists b).foldl (common D.toLower) p.builders } := by
  induction b using SendMevBundleArgs.tree_induction with
  | h b ih =>
    intro topLevel
    obtain ⟨version, uuid, inclusion, body, validity, privacy, metadata⟩ := b
    simp only [mergePrivacyBuildersInner, builderLists, List.foldl_cons]
    rw [mergeBuilders_eq, mergePrivacyBuildersBody_eq ih, Option.map_map]
    rfl

theorem merge_terms (b : SendMevBundleArgs) : (mergePrivacyBuilders D b).privacy.map (·.terms) = b.privacy.map (·.terms) := by
  rw [mergePrivacyBuilders, mergePrivacyBuildersInner_eq, Option.map_map]
  rfl

theorem mergedPrivacy_terms (b : SendMevBundleArgs) : (mergedPrivacy D b).map (·.terms) = b.privacy.map (·.terms) := by
  unfold mergedPrivacy
  split
  · rename_i hp
    rw [hp]
  · exact merge_terms b

theorem mergePrivacyBuilders_some {b : SendMevBundleArgs} {p : MevBundlePrivacy} (hp : b.privacy = some p) :
    mergePrivacyBuilders D b =
      { b with privacy := some { p with builders := (builderLists b).foldl (common D.toLower) p.builders } } := by
  rw [mergePrivacyBuilders, hp, mergePrivacyBuildersInner_eq, Option.map_some]

theorem mem_mergedBuilders (hlow : ∀ s, D.toLower (D.toLower s) = D.toLower s) {b : SendMevBundleArgs}
    {p : MevBundlePrivacy} (hp : b.privacy = some p) {x : String} :
    x ∈ (builderLists b).foldl (common D.toLower) p.builders ↔
      Everywhere (fun c => Occurs D x (privacyBuilders c.privacy)) b := by
  rw [← forall_builderLists, builderLists_eq, mem_foldl_common hlow, hp]
  exact and_iff_right_of_imp fun h => h _ List.mem_cons_self

/-- `MergePrivacyBuilders` leaves the names that all bundles of the tree list,
in lower case, touches nothing else, and has nothing left to do when it is
applied to its own result. -/
theorem merge_exact_idempotent (D : Deps) (hlow : ∀ s, D.toLower (D.toLower s) = D.toLower s) (b : SendMevBundleArgs)
    (p : MevBundlePrivacy) (hp : b.privacy = some p) :
    (∃ builders, mergePrivacyBuilders D b = { b with privacy := some { p with builders := builders } } ∧
        ∀ x, x ∈ builders ↔ Everywhere (fun c => Occurs D x (privacyBuilders c.privacy)) b) ∧
      mergePrivacyBuilders D (mergePrivacyBuilders D b) = mergePrivacyBuilders D b := by
  constructor
  · exact ⟨_, mergePrivacyBuilders_some hp, fun x => mem_mergedBuilders hlow hp⟩
  · rw [mergePrivacyBuilders_some hp, mergePrivacyBuilders_some rfl]
    simp only [builderLists_eq, privacyBuilders, hp]
    rw [foldl_common_idem hlow rfl]

/-- Two bundles that agree on two builders, in another order and another case. -/
def twoLists : SendMevBundleArgs :=
  ⟨"v0.1", "", ⟨2, 4⟩,
    [⟨none, none, some ⟨"v0.1", "", ⟨2, 4⟩, [⟨none, some sampleTx, none, false, ""⟩], ⟨[], []⟩,
        some ⟨hintHash, ["Alpha", "beta"], none⟩, none⟩, false, ""⟩],
    ⟨[], []⟩, some ⟨hintHash, ["BETA", "gamma", "alpha"], none⟩, none⟩

theorem merge_two_lists :
    (mergePrivacyBuilders sampleDeps twoLists).privacy = some ⟨hintHash, ["alpha", "beta"], none⟩ ∧
      mergePrivacyBuilders sampleDeps (mergePrivacyBuilders sampleDeps twoLists) = mergePrivacyBuilders sampleDeps twoLists :=
  ⟨by decide, (merge_exact_idempotent sampleDeps sampleDeps_toLower_idem twoLists _ rfl).2⟩

end MevShare
