import Mathlib.Tactic.Common
/-!
# Chains of checks

Code that returns at the first failed check is a chain of binds in `Except`.
`bind_ok` takes such a chain apart from the outside, and `rejectIf_ok` turns a
passed check into the fact it established, so no proof has to split the
branches of the code again; `bind_error` and `rejectIf_error` do the same for a
chain that fails. `foldlM_ok` is the invariant rule for a loop whose
turns are such chains.
-/

namespace Lib

variable {ε α β : Type}

/-- Return `e` if `c` holds, go on otherwise. -/
def rejectIf (c : Prop) [Decidable c] (e : ε) : Except ε Unit := if c then .error e else .ok ()

theorem bind_ok {x : Except ε α} {f : α → Except ε β} {r : β} :
    (x >>= f) = .ok r ↔ ∃ a, x = .ok a ∧ f a = .ok r := by
  cases x with
  | error e => simp [bind, Except.bind]
  | ok a => simp [bind, Except.bind]

theorem rejectIf_ok {c : Prop} [Decidable c] {e : ε} {u : Unit} : rejectIf c e = .ok u ↔ ¬c := by
  unfold rejectIf
  split
  · simpa
  · simpa

theorem bind_error {x : Except ε α} {f : α → Except ε β} {e : ε} :
    (x >>= f) = .error e ↔ x = .error e ∨ ∃ a, x = .ok a ∧ f a = .error e := by
  cases x with
  | error e => simp [bind, Except.bind]
  | ok a => simp [bind, Except.bind]

theorem rejectIf_error {c : Prop} [Decidable c] {e e' : ε} : rejectIf c e = .error e' ↔ c ∧ e = e' := by
  by_cases hc : c
  · simp [rejectIf, hc]
  · simp [rejectIf, hc]

theorem pure_ok {a r : α} : (pure a : Except ε α) = .ok r ↔ a = r := by
  simp [pure, Except.pure]

theorem throw_eq_error {e : ε} : (throw e : Except ε α) = .error e := rfl

theorem map_ok {p : α → β} {x : Except ε α} {r : β} : x.map p = .ok r ↔ ∃ a, x = .ok a ∧ p a = r := by
  cases x with
  | error e => simp [Except.map]
  | ok a => simp [Except.map]

theorem map_error {p : α → β} {x : Except ε α} {e : ε} : x.map p = .error e ↔ x = .error e := by
  cases x with
  | error e => simp [Except.map]
  | ok a => simp [Except.map]

theorem bind_congr_ok {x : Except ε α} {f g : α → Except ε β} (h : ∀ a, x = .ok a → f a = g a) : x >>= f = x >>= g := by
  cases x with
  | error e => rfl
  | ok a => exact h a rfl

/-! What is read off the result of a chain moves into the chain, and out of what it starts with. -/

theorem map_bind_except {γ : Type} (p : β → γ) (x : Except ε α) (f : α → Except ε β) :
    (x >>= f).map p = x >>= fun a => (f a).map p := by
  cases x with
  | error e => rfl
  | ok a => rfl

theorem bind_map_except {γ : Type} (q : α → β) (x : Except ε α) (f : β → Except ε γ) :
    x.map q >>= f = x >>= fun a => f (q a) := by
  cases x with
  | error e => rfl
  | ok a => rfl

/-- `P` relates the elements that a loop has passed to what it has computed from them. -/
theorem foldlM_ok {f : β → α → Except ε β} {P : List α → β → Prop}
    (hturn : ∀ done x acc acc', P done acc → f acc x = .ok acc' → P (done ++ [x]) acc') {xs : List α}
    {acc acc' : β} (h0 : P [] acc) (h : xs.foldlM f acc = .ok acc') : P xs acc' := by
  suffices hfrom : ∀ done, P done acc → P (done ++ xs) acc' from hfrom [] h0
  clear h0
  induction xs generalizing acc with
  | nil =>
    intro done hdone
    rw [List.foldlM_nil, pure_ok] at h
    simpa [← h] using hdone
  | cons x xs ih =>
    intro done hdone
    rw [List.foldlM_cons, bind_ok] at h
    obtain ⟨acc₁, h1, h2⟩ := h
    simpa using ih h2 (done ++ [x]) (hturn done x acc acc₁ hdone h1)

end Lib
