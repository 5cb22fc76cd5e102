import MevShare.Lib.Tally
/-!
# Read-write locks

What the parties to a read-write lock hold of it, as a list. Readers share the
lock and a writer excludes everybody else (`Shared`); that is kept when a party
takes the lock as it may, and when it lets go.
-/

namespace Lib

variable {α : Type}

inductive Hold where
  | nothing | reading | writing
deriving DecidableEq, Repr

def Hold.compatible (x y : Hold) : Prop := x = .nothing ∨ y = .nothing ∨ (x = .reading ∧ y = .reading)

theorem Hold.compatible_symm {x y : Hold} (h : x.compatible y) : y.compatible x := by
  rcases h with h | h | ⟨hx, hy⟩
  · exact .inr (.inl h)
  · exact .inl h
  · exact .inr (.inr ⟨hy, hx⟩)

/-- Every two parties hold what may be held at the same time. -/
def Shared (holds : α → Hold) (l : List α) : Prop := l.Pairwise fun x y => (holds x).compatible (holds y)

variable {holds : α → Hold} {l : List α} {i : Nat} {x y : α}

/-- `RLock` waits for the writer. -/
def readable (holds : α → Hold) (l : List α) : Bool := l.all fun x => holds x ≠ .writing

/-- `Lock` waits for everybody. -/
def writable (holds : α → Hold) (l : List α) : Bool := l.all fun x => holds x = .nothing

theorem shared_cons_of_perm {others : List α} (h : Shared holds l) (hperm : l.Perm (x :: others)) :
    Shared holds (x :: others) :=
  (hperm.pairwise_iff fun h => Hold.compatible_symm h).1 h

/-- One party changes what it holds. -/
theorem Shared.set (h : Shared holds l) (hx : l[i]? = some x) (hy : ∀ z ∈ l, (holds y).compatible (holds z)) :
    Shared holds (l.set i y) := by
  obtain ⟨others, hperm, hset⟩ := exists_others hx
  have hcons := shared_cons_of_perm h hperm
  refine ((hset y).symm.pairwise_iff fun h => Hold.compatible_symm h).1 (List.pairwise_cons.2 ⟨fun z hz => ?_, ?_⟩)
  · exact hy z (hperm.mem_iff.2 (List.mem_cons_of_mem _ hz))
  · exact (List.pairwise_cons.1 hcons).2

theorem Shared.release (h : Shared holds l) (hx : l[i]? = some x) (hy : holds y = .nothing) : Shared holds (l.set i y) :=
  h.set hx fun _ _ => .inl hy

theorem Shared.rlock (h : Shared holds l) (hx : l[i]? = some x) (hfree : readable holds l = true)
    (hy : holds y = .reading) : Shared holds (l.set i y) := by
  refine h.set hx fun z hz => ?_
  have hz : holds z ≠ .writing := by simpa using List.all_eq_true.1 hfree z hz
  cases hhold : holds z with
  | nothing => exact .inr (.inl rfl)
  | reading => exact .inr (.inr ⟨hy, rfl⟩)
  | writing => exact absurd hhold hz

theorem Shared.lock (h : Shared holds l) (hx : l[i]? = some x) (hfree : writable holds l = true) :
    Shared holds (l.set i y) :=
  h.set hx fun z hz => .inr (.inl (by simpa using List.all_eq_true.1 hfree z hz))

/-- A writer that goes on holding the lock. -/
theorem Shared.keep (h : Shared holds l) (hx : l[i]? = some x) (hsame : holds y = holds x) : Shared holds (l.set i y) := by
  obtain ⟨others, hperm, hset⟩ := exists_others hx
  have hcons := shared_cons_of_perm h hperm
  refine ((hset y).symm.pairwise_iff fun h => Hold.compatible_symm h).1 (List.pairwise_cons.2 ?_)
  exact ⟨fun z hz => hsame ▸ (List.pairwise_cons.1 hcons).1 z hz, (List.pairwise_cons.1 hcons).2⟩

/-- A new party that holds nothing yet. -/
theorem Shared.join (h : Shared holds l) (hx : holds x = .nothing) : Shared holds (l ++ [x]) := by
  refine List.pairwise_append.2 ⟨h, List.pairwise_singleton _ _, fun z _ y hy => ?_⟩
  rw [List.mem_singleton.1 hy]
  exact .inr (.inl hx)

/-- While a party writes, the others hold nothing. -/
theorem Shared.writer (h : Shared holds l) (hx : l[i]? = some x) (hw : holds x = .writing) {z : α} (hz : z ∈ l.set i y) :
    z = y ∨ holds z = .nothing := by
  obtain ⟨others, hperm, hset⟩ := exists_others hx
  rcases List.mem_cons.1 ((hset y).mem_iff.1 hz) with rfl | hz
  · exact .inl rfl
  · rcases (List.pairwise_cons.1 (shared_cons_of_perm h hperm)).1 z hz with hn | hn | ⟨hr, -⟩
    · exact absurd hn (by rw [hw]; decide)
    · exact .inr hn
    · exact absurd hr (by rw [hw]; decide)

/-- No two parties write. -/
theorem Shared.one_writer (h : Shared holds l) {j : Nat} (hx : l[i]? = some x) (hy : l[j]? = some y)
    (hxw : holds x = .writing) (hyw : holds y = .writing) : i = j := by
  have hno : ∀ {a b : α}, (holds a).compatible (holds b) → holds a = .writing → holds b = .writing → False := by
    intro a b hab ha hb
    rw [ha, hb] at hab
    rcases hab with h | h | ⟨h, -⟩ <;> cases h
  obtain ⟨hi, rfl⟩ := List.getElem?_eq_some_iff.1 hx
  obtain ⟨hj, rfl⟩ := List.getElem?_eq_some_iff.1 hy
  rcases lt_trichotomy i j with hlt | heq | hlt
  · exact (hno (List.pairwise_iff_getElem.1 h i j hi hj hlt) hxw hyw).elim
  · exact heq
  · exact (hno (List.pairwise_iff_getElem.1 h j i hj hi hlt) hyw hxw).elim

end Lib
