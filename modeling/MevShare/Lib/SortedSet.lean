import Mathlib.Tactic.Common
import Mathlib.Data.List.Basic
/-!
# Redis sorted sets

A sorted set is the list of its entries, a score and a member each. `zadd` gives
a member its score, whether it is there already or not; `popMin` takes the entry
with the lowest score and, among those, the smallest member.
-/

namespace Lib

variable {α : Type}

/-! ## The first entry -/

section Order
variable [LT α] [DecidableLT α] [DecidableEq α]

def sortsBefore (x y : Nat × α) : Bool := x.1 < y.1 || (x.1 = y.1 && x.2 < y.2)

def minEntry : List (Nat × α) → Option (Nat × α)
  | [] => none
  | x :: z =>
    match minEntry z with
    | none => some x
    | some y => if sortsBefore y x then some y else some x

/-- `ZPOPMIN`: the first entry and the set without it. -/
def popMin (z : List (Nat × α)) : Option ((Nat × α) × List (Nat × α)) :=
  (minEntry z).map fun x => (x, z.erase x)

omit [DecidableEq α] in
theorem minEntry_mem {z : List (Nat × α)} {x : Nat × α} (h : minEntry z = some x) : x ∈ z := by
  induction z generalizing x with
  | nil => cases h
  | cons y z ih =>
    simp only [minEntry] at h
    split at h
    · cases h
      exact List.mem_cons_self
    · rename_i w hw
      split at h
      · cases h
        exact List.mem_cons_of_mem _ (ih hw)
      · cases h
        exact List.mem_cons_self

omit [DecidableEq α] in
theorem minEntry_eq_none {z : List (Nat × α)} : minEntry z = none ↔ z = [] := by
  cases z with
  | nil => simp [minEntry]
  | cons x z =>
    simp only [minEntry, reduceCtorEq, iff_false]
    split
    · simp
    · split <;> simp

theorem popMin_eq_none {z : List (Nat × α)} : popMin z = none ↔ z = [] := by
  rw [popMin, Option.map_eq_none_iff, minEntry_eq_none]

theorem popMin_perm {z z' : List (Nat × α)} {x : Nat × α} (h : popMin z = some (x, z')) : z.Perm (x :: z') := by
  obtain ⟨y, hy, heq⟩ := Option.map_eq_some_iff.1 h
  cases heq
  exact List.perm_cons_erase (minEntry_mem hy)

omit [DecidableEq α] in
theorem not_sortsBefore_trans [LE α] [Std.IsLinearOrder α] [Std.LawfulOrderLT α] {x y w : Nat × α}
    (hwy : sortsBefore w y = false) (hyx : sortsBefore y x = false) : sortsBefore w x = false := by
  simp only [sortsBefore, Bool.or_eq_false_iff, Bool.and_eq_false_iff, decide_eq_false_iff_not, Std.not_lt] at hwy hyx ⊢
  obtain ⟨hle, hmem⟩ := hwy
  obtain ⟨hle', hmem'⟩ := hyx
  refine ⟨Nat.le_trans hle' hle, ?_⟩
  rcases hmem with hne | hmem
  · exact .inl (by omega)
  · rcases hmem' with hne | hmem'
    · exact .inl (by omega)
    · exact .inr (Std.le_trans hmem' hmem)

omit [DecidableEq α] in
theorem sortsBefore_asymm [LE α] [Std.IsLinearOrder α] [Std.LawfulOrderLT α] {x y : Nat × α}
    (h : sortsBefore x y = true) : sortsBefore y x = false := by
  simp only [sortsBefore, Bool.or_eq_true, Bool.and_eq_true, decide_eq_true_eq] at h
  simp only [sortsBefore, Bool.or_eq_false_iff, Bool.and_eq_false_iff, decide_eq_false_iff_not]
  rcases h with hlt | ⟨heq, hlt⟩
  · exact ⟨by omega, .inl (by omega)⟩
  · exact ⟨by omega, .inr (Std.not_lt.2 (Std.le_of_lt hlt))⟩

omit [DecidableEq α] in
/-- Nothing sorts before the first entry. -/
theorem minEntry_first [LE α] [Std.IsLinearOrder α] [Std.LawfulOrderLT α] {z : List (Nat × α)} {x : Nat × α}
    (h : minEntry z = some x) : ∀ w ∈ z, sortsBefore w x = false := by
  have hrefl : ∀ y : Nat × α, sortsBefore y y = false := by
    intro y
    cases hy : sortsBefore y y with
    | false => rfl
    | true => exact hy ▸ sortsBefore_asymm hy
  induction z generalizing x with
  | nil => cases h
  | cons y z ih =>
    simp only [minEntry] at h
    split at h
    · rename_i hnone
      cases h
      rw [minEntry_eq_none.1 hnone]
      simpa using hrefl y
    · rename_i v hv
      split at h
      · rename_i hbefore
        cases h
        exact List.forall_mem_cons.2 ⟨sortsBefore_asymm hbefore, ih hv⟩
      · rename_i hbefore
        cases h
        refine List.forall_mem_cons.2 ⟨hrefl y, fun w hw => not_sortsBefore_trans (ih hv w hw) ?_⟩
        exact Bool.eq_false_iff.2 hbefore

end Order

/-! ## Adding and counting -/

def zadd [DecidableEq α] (z : List (Nat × α)) (score : Nat) (member : α) : List (Nat × α) :=
  z.filter (fun e => e.2 ≠ member) ++ [(score, member)]

/-- `ZCOUNT -inf max`. -/
def zcountUpTo (z : List (Nat × α)) (max : Nat) : Nat := z.countP fun e => e.1 ≤ max

/-- `ZCOUNT min +inf`. -/
def zcountFrom (z : List (Nat × α)) (min : Nat) : Nat := z.countP fun e => min ≤ e.1

/-- An insertion adds at most its own entry to a count. -/
theorem countP_zadd_le [DecidableEq α] (p : Nat × α → Bool) (z : List (Nat × α)) (score : Nat) (member : α) :
    (zadd z score member).countP p ≤ z.countP p + if p (score, member) then 1 else 0 := by
  rw [zadd, List.countP_append, List.countP_singleton]
  exact Nat.add_le_add_right (List.Sublist.countP_le List.filter_sublist) _

end Lib
