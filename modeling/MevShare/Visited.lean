import MevShare.Validation
/-!
# What validation looks at

An element with a hash or a transaction may carry a bundle beside it, and
`validateBundleInner` never looks at that one: it is not checked, and it is in the
result as it was in the request. `visited` drops such bundles, and validating what
is left is the same as validating the whole and dropping them afterwards
(`validate_visited`).
-/
open Lib

namespace MevShare

mutual
/-- The bundle without the bundles that validation does not look at. -/
def SendMevBundleArgs.visited : SendMevBundleArgs → SendMevBundleArgs
  | ⟨version, replacementUUID, inclusion, body, validity, privacy, metadata⟩ =>
    ⟨version, replacementUUID, inclusion, visitedBody body, validity, privacy, metadata⟩

def visitedBody : List MevBundleBody → List MevBundleBody
  | [] => []
  | el :: rest => visitedElement el :: visitedBody rest

def visitedElement : MevBundleBody → MevBundleBody
  | ⟨some h, tx, _, canRevert, revertMode⟩ => ⟨some h, tx, none, canRevert, revertMode⟩
  | ⟨none, some tx, _, canRevert, revertMode⟩ => ⟨none, some tx, none, canRevert, revertMode⟩
  | ⟨none, none, some inner, canRevert, revertMode⟩ => ⟨none, none, some inner.visited, canRevert, revertMode⟩
  | ⟨none, none, none, canRevert, revertMode⟩ => ⟨none, none, none, canRevert, revertMode⟩
end

def BodyState.visited (st : BodyState) : BodyState := { st with body := visitedBody st.body }

def Validated.visited (r : Validated) : Validated := { r with bundle := r.bundle.visited }

theorem visited_body (b : SendMevBundleArgs) : b.visited.body = visitedBody b.body := by
  cases b
  rfl

theorem visited_inclusion (b : SendMevBundleArgs) : b.visited.inclusion = b.inclusion := by
  cases b
  rfl

theorem visited_privacy (b : SendMevBundleArgs) : b.visited.privacy = b.privacy := by
  cases b
  rfl

theorem visitedBody_eq (els : List MevBundleBody) : visitedBody els = els.map visitedElement := by
  induction els with
  | nil => rfl
  | cons el els ih => rw [visitedBody, ih, List.map_cons]

/-- A bundle that is looked at has no hash and no transaction beside it. -/
theorem visitedElement_some {el : MevBundleBody} {inner : SendMevBundleArgs}
    (h : (visitedElement el).bundle = some inner) :
    el.hash = none ∧ el.tx = none ∧ ∃ c, el.bundle = some c ∧ inner = c.visited := by
  obtain ⟨hash, tx, bundle, _, _⟩ := el
  cases hash with
  | some g => cases h
  | none =>
    cases tx with
    | some t => cases h
    | none =>
      cases bundle with
      | some c =>
        cases h
        exact ⟨rfl, rfl, c, rfl, rfl⟩
      | none => cases h

theorem visitedElement_alone {el : MevBundleBody} (hhash : el.hash = none) (htx : el.tx = none) :
    (visitedElement el).hash = none ∧ (visitedElement el).tx = none := by
  obtain ⟨hash, tx, bundle, _, _⟩ := el
  dsimp only at hhash htx
  subst hhash htx
  cases bundle with
  | some c => exact ⟨rfl, rfl⟩
  | none => exact ⟨rfl, rfl⟩

/-! ## Validation and `visited` -/

variable {D : Deps} {currentBlock : UInt64} {level : Nat}

theorem visited_snoc (st : BodyState) (el : MevBundleBody) :
    visitedBody (st.body ++ [el]) = st.visited.body ++ [visitedElement el] := by
  rw [visitedBody_eq, List.map_append, List.map_singleton, ← visitedBody_eq]
  rfl

theorem validateElement_visited {size i : Nat} (el : MevBundleBody) (st : BodyState)
    (ih : ∀ c, el.bundle = some c → ∀ level, validateBundleInner D currentBlock level c.visited =
      (validateBundleInner D currentBlock level c).map Validated.visited) :
    validateElement D currentBlock level size i (visitedElement el) st.visited =
      (validateElement D currentBlock level size i el st).map BodyState.visited := by
  obtain ⟨hash, tx, bundle, canRevert, revertMode⟩ := el
  cases hash with
  | some g =>
    simp only [visitedElement, validateElement, map_bind_except]
    refine bind_congr fun _ => bind_congr fun _ => congrArg Except.ok ?_
    simp only [BodyState.visited, visited_snoc, visitedElement]
  | none =>
    cases tx with
    | some t =>
      simp only [visitedElement, validateElement, map_bind_except]
      refine bind_congr fun d => bind_congr fun _ => congrArg Except.ok ?_
      simp only [BodyState.visited, visited_snoc, visitedElement]
    | none =>
      cases bundle with
      | some inner =>
        simp only [visitedElement, validateElement, map_bind_except, visited_inclusion, visited_privacy, ih inner rfl,
          bind_map_except]
        refine bind_congr fun _ => bind_congr fun r => bind_congr fun _ => congrArg Except.ok ?_
        simp only [BodyState.visited, visited_snoc, visitedElement, Validated.visited]
      | none =>
        refine congrArg Except.ok ?_
        simp only [BodyState.visited, visited_snoc, visitedElement]

theorem validateBody_visited {size : Nat} (els : List MevBundleBody)
    (ih : ∀ el ∈ els, ∀ c, el.bundle = some c → ∀ level, validateBundleInner D currentBlock level c.visited =
      (validateBundleInner D currentBlock level c).map Validated.visited) (i : Nat) (st : BodyState) :
    validateBody D currentBlock level size i (visitedBody els) st.visited =
      (validateBody D currentBlock level size i els st).map BodyState.visited := by
  induction els generalizing i st with
  | nil => rfl
  | cons el els ihl =>
    rw [visitedBody, validateBody, validateBody, validateElement_visited el st (ih el List.mem_cons_self),
      bind_map_except, map_bind_except]
    exact bind_congr fun st₁ => ihl (fun x hx => ih x (List.mem_cons_of_mem _ hx)) (i + 1) st₁

theorem finishBundle_visited (version uuid : String) (validity : MevBundleValidity) (st : BodyState) :
    finishBundle D version uuid validity st.visited =
      (finishBundle D version uuid validity st).map Validated.visited := by
  have hlength : st.visited.body.length = st.body.length := by
    rw [BodyState.visited, visitedBody_eq, List.length_map]
  simp only [finishBundle, map_bind_except, hlength]
  exact bind_congr fun _ => bind_congr fun _ => bind_congr fun _ => rfl

/-- Validation commutes with dropping the bundles it does not look at. -/
theorem validate_visited (b : SendMevBundleArgs) : ∀ level, validateBundleInner D currentBlock level b.visited =
    (validateBundleInner D currentBlock level b).map Validated.visited := by
  induction b using SendMevBundleArgs.tree_induction with
  | h b ih =>
    intro level
    obtain ⟨version, uuid, inclusion, body, validity, privacy, metadata⟩ := b
    have hlength : (visitedBody body).length = body.length := by rw [visitedBody_eq, List.length_map]
    simp only [SendMevBundleArgs.visited, validateBundleInner, map_bind_except, hlength]
    refine bind_congr fun _ => bind_congr fun _ => bind_congr fun inclusion => bind_congr fun _ => ?_
    rw [show (⟨inclusion, privacy, [], [], 0, false⟩ : BodyState) =
      BodyState.visited ⟨inclusion, privacy, [], [], 0, false⟩ from rfl, validateBody_visited body ih, bind_map_except]
    exact bind_congr fun st => finishBundle_visited version uuid validity st

end MevShare
