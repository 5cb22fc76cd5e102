import Mathlib.Data.List.Perm.Basic
import Mathlib.Tactic.Common
import MevShare.Lib.Runs
/-!
# Wait groups

A function starts goroutines one after the other, with an `Add(1)` for each, and
then waits for as many calls of `Done`. The goroutines return in any order, also
while the function still starts others, and `ρ` is what the calls they make
return. `done` says which goroutines call `Done` before they return.

`WaitGroup.balanced_iff`: the wait is over when all goroutines have returned exactly if
each of them calls `Done`.
-/

namespace Lib

variable {γ ρ : Type}

structure WaitGroup (γ : Type) where
  left : List γ
  running : List γ
  added : Nat
  done : Nat

def WaitGroup.begin (gs : List γ) : WaitGroup γ := ⟨gs, [], 0, 0⟩

inductive WaitAction (ρ : Type) where
  | start
  | finish (i : Nat) (result : ρ)

def waitStep (done : γ → Bool) (s : WaitGroup γ) : WaitAction ρ → Option (WaitGroup γ)
  | .start =>
    match s.left with
    | [] => none
    | g :: rest => some { s with left := rest, running := s.running ++ [g], added := s.added + 1 }
  | .finish i _ => do
    let g ← s.running[i]?
    return { s with running := s.running.eraseIdx i, done := s.done + (done g).toNat }

/-- All goroutines were started and have returned. -/
def WaitGroup.Over (s : WaitGroup γ) : Prop := s.left = [] ∧ s.running = []

/-- In every run the wait is over when all goroutines have returned. -/
def WaitGroup.Balanced (ρ : Type) (done : γ → Bool) (gs : List γ) : Prop :=
  ∀ (tr : List (WaitGroup γ × WaitAction ρ)) (s : WaitGroup γ), Run (waitStep done) (WaitGroup.begin gs) tr s → s.Over →
    s.done = s.added

variable {done : γ → Bool} {gs : List γ}

theorem countP_eraseIdx (done : γ → Bool) {l : List γ} {i : Nat} {g : γ} (h : l[i]? = some g) :
    (l.eraseIdx i).countP done + (done g).toNat = l.countP done := by
  obtain ⟨hi, rfl⟩ := List.getElem?_eq_some_iff.1 h
  rw [← (List.getElem_cons_eraseIdx_perm hi).countP_eq done, List.countP_cons]
  cases done l[i] <;> rfl

/-- Every `Add(1)` stands for a goroutine, and every `Done` for one that calls it. -/
theorem wait_run {tr : List (WaitGroup γ × WaitAction ρ)} {s : WaitGroup γ} (h : Run (waitStep done) (WaitGroup.begin gs) tr s) :
    s.added + s.left.length = gs.length ∧ s.done + s.running.countP done + s.left.countP done = gs.countP done := by
  refine @Run.inv _ _ _ _ (fun _ _ => True)
    (fun s : WaitGroup γ => s.added + s.left.length = gs.length ∧
      s.done + s.running.countP done + s.left.countP done = gs.countP done) ?_ ?_ _ _ h fun _ _ => trivial
  · simp [WaitGroup.begin]
  · rintro s a s' ⟨hadded, hdone⟩ - hstep
    cases a with
    | start =>
      simp only [waitStep] at hstep
      split at hstep
      · cases hstep
      · rename_i g rest hleft
        cases hstep
        rw [hleft] at hadded hdone
        simp only [List.length_cons, List.countP_cons] at hadded hdone
        simp only [List.countP_append, List.countP_singleton]
        omega
    | finish i result =>
      simp only [waitStep, Option.bind_eq_bind, Option.bind_eq_some_iff, Option.pure_def, Option.some.injEq] at hstep
      obtain ⟨g, hg, rfl⟩ := hstep
      have hrest := countP_eraseIdx done hg
      exact ⟨hadded, by dsimp only; omega⟩

/-- The goroutines can always be run to their ends. -/
theorem WaitGroup.exists_over [Nonempty ρ] (s : WaitGroup γ) :
    ∃ (tr : List (WaitGroup γ × WaitAction ρ)) (s' : WaitGroup γ), Run (waitStep done) s tr s' ∧ s'.Over := by
  induction hn : 2 * s.left.length + s.running.length using Nat.strongRecOn generalizing s with
  | ind n ih =>
    obtain ⟨left, running, added, finished⟩ := s
    cases left with
    | cons g rest =>
      obtain ⟨tr, s', hrun, hover⟩ := ih (2 * rest.length + (running ++ [g]).length) (by simp at hn ⊢; omega)
        ⟨rest, running ++ [g], added + 1, finished⟩ rfl
      exact ⟨_, s', hrun.cons (a := .start) rfl, hover⟩
    | nil =>
      cases running with
      | nil => exact ⟨[], _, .nil, rfl, rfl⟩
      | cons g running =>
        obtain ⟨result⟩ := ‹Nonempty ρ›
        obtain ⟨tr, s', hrun, hover⟩ := ih running.length (by simp at hn; omega)
          ⟨[], running, added, finished + (done g).toNat⟩ (by simp)
        exact ⟨_, s', hrun.cons (a := .finish 0 result) rfl, hover⟩

theorem WaitGroup.balanced_iff [Nonempty ρ] : WaitGroup.Balanced ρ done gs ↔ ∀ g ∈ gs, done g = true := by
  have hend {tr : List (WaitGroup γ × WaitAction ρ)} {s : WaitGroup γ} (hrun : Run (waitStep done) (WaitGroup.begin gs) tr s)
      (hover : s.Over) : s.added = gs.length ∧ s.done = gs.countP done := by
    obtain ⟨hadded, hdone⟩ := wait_run hrun
    rw [hover.1, hover.2] at hdone
    rw [hover.1] at hadded
    exact ⟨hadded, hdone⟩
  constructor
  · intro h
    obtain ⟨tr, s, hrun, hover⟩ : ∃ (tr : List (WaitGroup γ × WaitAction ρ)) (s : WaitGroup γ),
        Run (waitStep done) (WaitGroup.begin gs) tr s ∧ s.Over := exists_over _
    obtain ⟨hadded, hdone⟩ := hend hrun hover
    rw [← List.countP_eq_length, ← hdone, h tr s hrun hover, hadded]
  · intro h tr s hrun hover
    obtain ⟨hadded, hdone⟩ := hend hrun hover
    rw [hadded, hdone, List.countP_eq_length.2 h]

end Lib
