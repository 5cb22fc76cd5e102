import Mathlib.Tactic.Common
/-!
# Runs of a step function

A system is a function `step : σ → α → Option σ`: the action `α` says who
moves next and what the environment answers, and `none` means that the action
is not enabled. A `Run` is any sequence of enabled actions, so a theorem about
every `Run` holds for every interleaving and every environment.

`Run.inv` is the invariant rule. Its `ok` restricts the runs: an assumption on
the environment (no failures, say) is a condition on the steps of the run.
-/

namespace Lib

variable {σ α : Type}

/-- Runs from `init`: the steps taken, each with the state it was taken in,
and the state after them. -/
inductive Run (step : σ → α → Option σ) (init : σ) : List (σ × α) → σ → Prop
  | nil : Run step init [] init
  | snoc {tr s a s'} : Run step init tr s → step s a = some s' → Run step init (tr ++ [(s, a)]) s'

variable {step : σ → α → Option σ} {init : σ}

/-- A property kept by every step that satisfies `ok` holds after every run
whose steps all do. -/
theorem Run.inv {ok : σ → α → Prop} (I : σ → Prop) (h0 : I init)
    (hs : ∀ s a s', I s → ok s a → step s a = some s' → I s')
    {tr s} (h : Run step init tr s) (hok : ∀ p ∈ tr, ok p.1 p.2) : I s := by
  induction h with
  | nil => exact h0
  | @snoc tr s a s' _ hstep ih =>
    have hlast : ok s a := hok (s, a) (by simp)
    exact hs s a s' (ih fun p hp => hok p (by simp [hp])) hlast hstep

theorem snoc_eq_append_cons {β : Type} {l before after : List β} {x y : β} (h : l ++ [x] = before ++ y :: after) :
    (l = before ∧ x = y ∧ after = []) ∨ ∃ after', after = after' ++ [x] ∧ l = before ++ y :: after' := by
  rcases List.eq_nil_or_concat after with rfl | ⟨after', z, rfl⟩
  · obtain ⟨hl, hx⟩ := List.append_inj' h rfl
    exact .inl ⟨hl, List.singleton_inj.1 hx, rfl⟩
  · rw [List.concat_eq_append, ← List.cons_append, ← List.append_assoc] at h
    obtain ⟨hl, hx⟩ := List.append_inj' h rfl
    exact .inr ⟨after', by rw [List.concat_eq_append, List.singleton_inj.1 hx], hl⟩

/-- Every step of a run was taken in a state that the run before it reached. -/
theorem Run.fired {tr s} (h : Run step init tr s) :
    ∀ pre s₁ a post, tr = pre ++ (s₁, a) :: post → Run step init pre s₁ ∧ ∃ s₂, step s₁ a = some s₂ := by
  induction h with
  | nil => intro pre s₁ a post he; simp at he
  | @snoc tr s b s' hr hstep ih =>
    intro pre s₁ a post he
    rcases snoc_eq_append_cons he with ⟨rfl, hlast, -⟩ | ⟨post', -, he'⟩
    · cases hlast
      exact ⟨hr, s', hstep⟩
    · exact ih pre s₁ a post' he'

/-- What a step establishes and the steps after it keep holds from then on. -/
theorem Run.after {ok : σ → α → Prop} (I : σ → Prop) {s₁ : σ} {a : α} (hset : ∀ s', step s₁ a = some s' → I s')
    (hkeep : ∀ s a s', I s → ok s a → step s a = some s' → I s') {pre mid : List (σ × α)} {s : σ}
    (h : Run step init (pre ++ (s₁, a) :: mid) s) (hok : ∀ p ∈ mid, ok p.1 p.2) : I s := by
  generalize htr : pre ++ (s₁, a) :: mid = tr at h
  induction h generalizing mid with
  | nil => simp at htr
  | @snoc tr s b s' _ hstep ih =>
    rcases snoc_eq_append_cons htr.symm with ⟨-, hlast, -⟩ | ⟨mid', rfl, htr'⟩
    · cases hlast
      exact hset s' hstep
    · have hb : ok s b := hok (s, b) (by simp)
      exact hkeep s b s' (ih (fun p hp => hok p (by simp [hp])) htr'.symm) hb hstep

/-- Where every step uses up some of a potential, and only a `late` one may give up to `k` of it
back, the potential bounds the length of a run. -/
theorem Run.budget (ok : σ → α → Prop) (I : σ → Prop) (potential : σ → Nat) (late : σ → α → Bool) (k : Nat) (h0 : I init)
    (hs : ∀ s a s', I s → ok s a → step s a = some s' →
      I s' ∧ potential s' + 1 ≤ potential s + if late s a then k else 0)
    {tr s} (h : Run step init tr s) (hok : ∀ p ∈ tr, ok p.1 p.2) :
    I s ∧ tr.length + potential s ≤ potential init + k * tr.countP fun p => late p.1 p.2 := by
  induction h with
  | nil => exact ⟨h0, by simp⟩
  | @snoc tr s a s' _ hstep ih =>
    obtain ⟨hI, hle⟩ := ih fun p hp => hok p (by simp [hp])
    obtain ⟨hI', hlast⟩ := hs s a s' hI (hok (s, a) (by simp)) hstep
    refine ⟨hI', ?_⟩
    rw [List.length_append, List.length_singleton, List.countP_append, List.countP_singleton, Nat.mul_add]
    split at hlast <;> simp_all <;> omega

theorem Run.cons {s a s' tr t} (h : step s a = some s') (hr : Run step s' tr t) :
    Run step s ((s, a) :: tr) t := by
  induction hr with
  | nil => exact .snoc .nil h
  | snoc _ hstep ih => exact .snoc ih hstep

/-- Where every step of a system is, seen through `f`, a step of another one or
none at all, its runs are runs of the other one. -/
theorem Run.simulated {τ β : Type} {step' : τ → β → Option τ} {ok : σ → α → Prop} {ok' : τ → β → Prop} (f : σ → τ)
    (hs : ∀ s a s', ok s a → step s a = some s' → f s' = f s ∨ ∃ b, ok' (f s) b ∧ step' (f s) b = some (f s'))
    {tr s} (h : Run step init tr s) (hok : ∀ p ∈ tr, ok p.1 p.2) :
    ∃ tr', Run step' (f init) tr' (f s) ∧ ∀ p ∈ tr', ok' p.1 p.2 := by
  induction h with
  | nil => exact ⟨[], .nil, by simp⟩
  | @snoc tr s a s' _ hstep ih =>
    obtain ⟨tr', hrun, htr'⟩ := ih fun p hp => hok p (by simp [hp])
    rcases hs s a s' (hok (s, a) (by simp)) hstep with heq | ⟨b, hb, hstep'⟩
    · exact ⟨tr', heq ▸ hrun, htr'⟩
    · refine ⟨tr' ++ [(f s, b)], .snoc hrun hstep', fun p hp => ?_⟩
      rcases List.mem_append.1 hp with hp | hp
      · exact htr' p hp
      · rw [List.mem_singleton.1 hp]
        exact hb

/-- The actions can be taken one after the other from the first state to the
last, and `ok` holds of each. -/
def Follows (step : σ → α → Option σ) (ok : σ → α → Prop) : σ → List α → σ → Prop
  | s, [], t => s = t
  | s, a :: as, t => ok s a ∧ ∃ s', step s a = some s' ∧ Follows step ok s' as t

theorem Follows.run {ok : σ → α → Prop} {s t : σ} {as : List α} (h : Follows step ok s as t) :
    ∃ tr, Run step s tr t ∧ ∀ p ∈ tr, ok p.1 p.2 := by
  induction as generalizing s with
  | nil =>
    cases h
    exact ⟨[], .nil, by simp⟩
  | cons a as ih =>
    obtain ⟨hok, s', hstep, hrest⟩ := h
    obtain ⟨tr, hrun, htr⟩ := ih hrest
    exact ⟨(s, a) :: tr, hrun.cons hstep, List.forall_mem_cons.2 ⟨hok, htr⟩⟩

/-- Actions that are enabled one after the other are those of a run. -/
theorem run_of_foldlM {s t : σ} {as : List α} (h : as.foldlM step s = some t) :
    ∃ tr, Run step s tr t ∧ tr.map Prod.snd = as := by
  induction as generalizing s with
  | nil =>
    cases h
    exact ⟨[], .nil, rfl⟩
  | cons a as ih =>
    obtain ⟨s', hstep, hrest⟩ := Option.bind_eq_some_iff.1 h
    obtain ⟨tr, hrun, htr⟩ := ih hrest
    exact ⟨(s, a) :: tr, hrun.cons hstep, by rw [List.map_cons, htr]⟩

/-- The same with a condition that is evaluated before every step. -/
theorem run_of_checked {ok : σ → α → Prop} [∀ s a, Decidable (ok s a)] {s t : σ} {as : List α}
    (h : as.foldlM (fun s a => if ok s a then step s a else none) s = some t) :
    ∃ tr, Run step s tr t ∧ ∀ p ∈ tr, ok p.1 p.2 := by
  induction as generalizing s with
  | nil =>
    cases h
    exact ⟨[], .nil, by simp⟩
  | cons a as ih =>
    obtain ⟨s', hstep, hrest⟩ := Option.bind_eq_some_iff.1 h
    obtain ⟨hok, hstep⟩ := Option.ite_none_right_eq_some.1 hstep
    obtain ⟨tr, hrun, htr⟩ := ih hrest
    exact ⟨(s, a) :: tr, hrun.cons hstep, List.forall_mem_cons.2 ⟨hok, htr⟩⟩

end Lib
