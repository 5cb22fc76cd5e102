import Mathlib.Algebra.BigOperators.Group.List.Basic
import Mathlib.Algebra.Order.BigOperators.Group.Multiset
import Mathlib.Data.Multiset.Bind
/-!
# Sums over a list that changes at one place

A system whose parts are a list, each contributing to a total, changes its total
by what one part contributes. `exists_rest` splits the total at that part, and
`exists_others` the parts themselves.
-/

namespace Lib

section Sums
variable {α M : Type} [AddCommMonoid M]

/-- The total without the part at `i`; it stays the same when that part changes. -/
theorem exists_rest (f : α → M) {l : List α} {i : Nat} {x : α} (hx : l[i]? = some x) :
    ∃ rest, (l.map f).sum = f x + rest ∧ ∀ y, ((l.set i y).map f).sum = f y + rest := by
  induction l generalizing i with
  | nil => simp at hx
  | cons a l ih =>
    cases i with
    | zero =>
      cases hx
      exact ⟨(l.map f).sum, by simp, by simp⟩
    | succ i =>
      obtain ⟨rest, hl, hset⟩ := ih (i := i) (by simpa using hx)
      refine ⟨f a + rest, ?_, fun y => ?_⟩
      · rw [List.map_cons, List.sum_cons, hl, add_left_comm]
      · rw [List.set_cons_succ, List.map_cons, List.sum_cons, hset, add_left_comm]

theorem sum_filter_add_sum_filter_not (f : α → M) (p : α → Bool) (l : List α) :
    ((l.filter p).map f).sum + ((l.filter fun x => !p x).map f).sum = (l.map f).sum := by
  induction l with
  | nil => simp
  | cons a l ih =>
    cases hp : p a with
    | true => simp [hp, ← ih, add_assoc]
    | false => simp [hp, ← ih, add_left_comm]

end Sums

/-- The other parts; they stay the same when the part at `i` changes. -/
theorem exists_others {α : Type} {l : List α} {i : Nat} {x : α} (hx : l[i]? = some x) :
    ∃ others, l.Perm (x :: others) ∧ ∀ y, (l.set i y).Perm (y :: others) := by
  obtain ⟨hi, rfl⟩ := List.getElem?_eq_some_iff.1 hx
  exact ⟨l.eraseIdx i, (List.getElem_cons_eraseIdx_perm hi).symm, fun y => List.set_perm_cons_eraseIdx hi y⟩

theorem mem_sum_map {α β : Type} {f : α → Multiset β} {l : List α} {b : β} :
    b ∈ (l.map f).sum ↔ ∃ a ∈ l, b ∈ f a := by
  induction l with
  | nil => simp
  | cons a l ih => simp [ih]

/-- Where every part contributes at most one `k`, their number is that of the parts that do. -/
theorem count_map_sum {γ : Type} [DecidableEq γ] {f : α → Multiset β} {g : β → γ} {k : γ} {p : α → Bool}
    (h : ∀ x, ((f x).map g).count k = if p x then 1 else 0) (l : List α) :
    ((l.map f).sum.map g).count k = l.countP p := by
  induction l with
  | nil => simp
  | cons x xs ih =>
    rw [List.map_cons, List.sum_cons, Multiset.map_add, Multiset.count_add, h, ih, List.countP_cons, add_comm]

/-- The same for a property that at most one element of a part has. -/
theorem countP_sum {α β : Type} {f : α → Multiset β} {q : β → Prop} [DecidablePred q] {p : α → Bool}
    (h : ∀ x, (f x).countP q = if p x then 1 else 0) (l : List α) : (l.map f).sum.countP q = l.countP p := by
  induction l with
  | nil => simp
  | cons x xs ih => rw [List.map_cons, List.sum_cons, Multiset.countP_add, h, ih, List.countP_cons, add_comm]

theorem countP_le_count_bind {α β : Type} [DecidableEq β] {f : α → Multiset β} {b : β} {p : α → Bool}
    (h : ∀ x, p x = true → b ∈ f x) (l : List α) : l.countP p ≤ ((l : Multiset α).bind f).count b := by
  induction l with
  | nil => exact Nat.zero_le _
  | cons x xs ih =>
    rw [← Multiset.cons_coe, Multiset.cons_bind, Multiset.count_add, List.countP_cons]
    split
    · rename_i hx
      have hpos := Multiset.count_pos.2 (h x hx)
      omega
    · omega

theorem coe_snoc {α : Type} (l : List α) (a : α) : ((l ++ [a] : List α) : Multiset α) = {a} + l := by
  rw [← Multiset.coe_add, Multiset.coe_singleton, add_comm]

/-! ## Contributions looked up by key -/

section Keys
variable {κ β : Type} [DecidableEq κ] {keys : Multiset κ} {k : κ}

theorem bind_update_of_notMem (h : k ∉ keys) (f : κ → Multiset β) (x : Multiset β) :
    keys.bind (Function.update f k x) = keys.bind f := by
  refine Multiset.bind_congr fun a ha => ?_
  rw [Function.update_of_ne (ne_of_mem_of_not_mem ha h)]

/-- What is added to the contribution of a key that occurs once is added to the total. -/
theorem bind_update_add (h : keys.count k = 1) (f : κ → Multiset β) (x : Multiset β) :
    keys.bind (Function.update f k (f k + x)) = x + keys.bind f := by
  have hk : k ∈ keys := Multiset.count_pos.1 (by omega)
  obtain ⟨others, rfl⟩ := Multiset.exists_cons_of_mem hk
  have hothers : k ∉ others := by
    rw [Multiset.count_cons_self] at h
    exact Multiset.count_eq_zero.1 (by omega)
  rw [Multiset.cons_bind, Multiset.cons_bind, bind_update_of_notMem hothers, Function.update_self, add_comm (f k),
    add_assoc]

end Keys

end Lib
