import Mathlib.Data.List.Basic
import Mathlib.Tactic.Common
/-!
# What lists have in common, up to a normal form

Two entries count as equal if `f` gives the same normal form for both. `common`
keeps of its second list what the first one has too, in normal form, as a set
built from the one list and a filter of the other do it. Taken over many lists
one after the other it leaves what is in all of them, in the order of the last
one, and doing it again changes nothing.
-/

namespace Lib

section Common
variable {α : Type} [DecidableEq α] (f : α → α)

/-- The list has an entry with the normal form `x`. -/
def HasForm (x : α) (l : List α) : Prop := ∃ v ∈ l, f v = x

def common (a b : List α) : List α := (b.map f).filter fun v => (a.map f).contains v

variable {f}

theorem mem_common {a b : List α} {x : α} : x ∈ common f a b ↔ HasForm f x a ∧ HasForm f x b := by
  rw [common, List.mem_filter, List.mem_map, List.contains_iff_mem, List.mem_map]
  exact and_comm

/-- Only what the first list has of the entries of the second one matters. -/
theorem common_congr {a a' b : List α} (h : ∀ x, HasForm f x b → (HasForm f x a ↔ HasForm f x a')) :
    common f a b = common f a' b := by
  refine List.filter_congr fun x hx => ?_
  rw [Bool.eq_iff_iff]
  simpa [HasForm] using h x (by simpa [HasForm] using hx)

theorem count_common (a b : List α) (x : α) :
    (common f a b).count x = if (a.map f).contains x then b.countP (fun w => f w = x) else 0 := by
  unfold common
  split
  · rename_i hx
    rw [List.count_filter hx, List.count, List.countP_map]
    refine List.countP_congr fun w _ => ?_
    simp
  · rename_i hx
    rw [List.count_eq_zero]
    intro hmem
    exact hx (List.mem_filter.1 hmem).2

/-- There are no duplicates if and only if no entry of the first list is in the second one twice. -/
theorem nodup_common_iff {a b : List α} : (common f a b).Nodup ↔ ∀ v ∈ a, b.countP (fun w => f w = f v) ≤ 1 := by
  rw [List.nodup_iff_count]
  constructor
  · intro h v hv
    have hcount := h (f v)
    rwa [count_common, if_pos (by simpa using ⟨v, hv, rfl⟩)] at hcount
  · intro h x
    rw [count_common]
    split
    · rename_i hx
      obtain ⟨v, hv, rfl⟩ : ∃ v ∈ a, f v = x := by simpa using hx
      exact h v hv
    · exact Nat.zero_le 1

/-! ## Many lists -/

section Fold
variable (hf : ∀ x, f (f x) = f x)

include hf

theorem hasForm_common {a b : List α} {x : α} : HasForm f x (common f a b) ↔ HasForm f x a ∧ HasForm f x b := by
  rw [← mem_common]
  constructor
  · rintro ⟨v, hv, rfl⟩
    obtain ⟨-, w, -, rfl⟩ := mem_common.1 hv
    rwa [hf]
  · intro hx
    obtain ⟨-, w, -, rfl⟩ := mem_common.1 hx
    exact ⟨_, hx, hf w⟩

theorem hasForm_foldl_common {a : List α} {ls : List (List α)} {x : α} :
    HasForm f x (ls.foldl (common f) a) ↔ HasForm f x a ∧ ∀ l ∈ ls, HasForm f x l := by
  induction ls generalizing a with
  | nil => simp
  | cons l ls ih => rw [List.foldl_cons, ih, hasForm_common hf, List.forall_mem_cons, and_assoc]

/-- What is left after all the lists is in each of them, and in normal form. -/
theorem mem_foldl_common {a l : List α} {ls : List (List α)} {x : α} :
    x ∈ (l :: ls).foldl (common f) a ↔ HasForm f x a ∧ ∀ m ∈ l :: ls, HasForm f x m := by
  -- the last list decides in which form the entries are left
  rcases List.eq_nil_or_concat (l :: ls) with hnil | ⟨front, last, heq⟩
  · cases hnil
  · rw [heq, List.concat_eq_append, List.foldl_append, List.foldl_cons, List.foldl_nil, mem_common,
      hasForm_foldl_common hf, and_assoc]
    simp [or_imp, forall_and]

/-- With the result in place of the first list the fold gives the result again, in the same order. -/
theorem foldl_common_idem {a r : List α} {ls : List (List α)} (hr : (a :: ls).foldl (common f) a = r) :
    (r :: ls).foldl (common f) r = r := by
  have hmem : ∀ x, HasForm f x r ↔ HasForm f x a ∧ ∀ l ∈ ls, HasForm f x l := by
    intro x
    rw [← hr, hasForm_foldl_common hf, List.forall_mem_cons, ← and_assoc, and_self_iff]
  rcases List.eq_nil_or_concat ls with rfl | ⟨front, last, rfl⟩
  · have hself : r.map f = r := by
      rw [← hr]
      simp [common, List.filter_map, Function.comp_def, hf]
    simp [common, List.filter_eq_self.2, hself]
  · -- both folds end with the last list, and of its entries both keep those that are in all the others
    rw [List.concat_eq_append, ← List.cons_append, List.foldl_append, List.foldl_cons, List.foldl_nil] at hr ⊢
    nth_rewrite 3 [← hr]
    refine common_congr fun x hx => ?_
    rw [hasForm_foldl_common hf, hasForm_foldl_common hf, List.forall_mem_cons, List.forall_mem_cons, hmem]
    simp only [List.concat_eq_append, List.mem_append, List.mem_singleton, or_imp, forall_and, forall_eq, hx]
    tauto

end Fold

end Common

end Lib
