import MevShare.Worker
/-!
# The result of `SimulationWorker.Process`

`err` is the named result of `Process`, and the goroutine that calls `SimulatedBundle`
assigns to the same variable. A `return` statement first assigns to it, then the
deferred function runs, and then the caller reads it; the goroutine can assign at
any point. `Returning` is the state of that sequence, and `returnStep` lets either
side move.

`SimulatedBundle` returns `nil`, so an error that `Process` returns after it has
started the goroutine can be lost (`process_returns_iff`).
-/
open Lib

namespace MevShare

/-- Where `Process` is in its return sequence. -/
inductive ReturnPc where
  /-- at the assignment to the named result -/
  | assign
  /-- at the deferred call that records the duration -/
  | metrics
  /-- at the point where the caller reads the result -/
  | read
  | returned (err : Option ProcessErr)
deriving DecidableEq, Repr

structure Returning where
  pc : ReturnPc
  err : Option ProcessErr
  /-- a goroutine was started and has not assigned yet -/
  background : Bool
deriving DecidableEq, Repr

inductive ReturnAction where
  | worker | background
deriving DecidableEq, Repr

/-- `SimulatedBundle` logs the errors of its parts and returns `nil`. -/
def simulatedBundleErr : Option ProcessErr := none

/-- The simulation did not fail, so `err` is `nil` when `Process` comes to its `return`. -/
def Returning.begin (p : Processed) : Returning := ⟨.assign, none, p.handed.isSome⟩

/-- `err` is the operand of the `return` statement. -/
def returnStep (err : Option ProcessErr) (s : Returning) : ReturnAction → Option Returning
  | .worker =>
    match s.pc with
    | .assign => some { s with err, pc := .metrics }
    | .metrics => some { s with pc := .read }
    | .read => some { s with pc := .returned s.err }
    | .returned _ => none
  | .background => if s.background then some { s with err := simulatedBundleErr, background := false } else none

/-- However the goroutine moves, `Process` is not held up in the three steps of
its return sequence, and after them it has returned `err`. -/
def Returns (p : Processed) (err : Option ProcessErr) : Prop :=
  ∀ (tr : List (Returning × ReturnAction)) (s : Returning), Run (returnStep p.err) (.begin p) tr s →
    if tr.countP (fun a => a.2 = .worker) < 3 then (returnStep p.err s .worker).isSome
    else s.pc = .returned err

/-- The goroutine is started and `Process` then returns an error: a failed
replaceable bundle with blocks left, or a failure that cannot be recovered. -/
def Overwrites (bundle : SendMevBundleArgs) (result : SimMevBundleResponse) : Prop :=
  result.success = false ∧
    (bundle.replacementUUID ≠ "" ∧ hasNextBlock bundle result = true ∨
      bundle.replacementUUID = "" ∧ isErrorRecoverable result.error = false)

/-! ## Runs of the return sequence -/

/-- The steps that are left of the return sequence. -/
def ReturnPc.left : ReturnPc → Nat
  | .assign => 3
  | .metrics => 2
  | .read => 1
  | .returned _ => 0

section Runs
variable {p : Processed} {tr : List (Returning × ReturnAction)} {s : Returning}

theorem worker_steps (h : Run (returnStep p.err) (.begin p) tr s) :
    tr.countP (fun a => a.2 = .worker) + s.pc.left = 3 := by
  induction h with
  | nil => rfl
  | @snoc tr s a s' _ hstep ih =>
    rw [List.countP_append, List.countP_singleton]
    cases a with
    | worker =>
      obtain ⟨pc, err, background⟩ := s
      cases pc <;> cases hstep <;> simp [ReturnPc.left] at ih ⊢ <;> omega
    | background =>
      simp only [returnStep, Option.ite_none_right_eq_some, Option.some.injEq] at hstep
      obtain ⟨-, rfl⟩ := hstep
      simpa using ih

/-- Without an error to lose or a goroutine to lose it, the named result keeps the operand of the `return`. -/
theorem err_kept (hp : p.handed = none ∨ p.err = none) (h : Run (returnStep p.err) (.begin p) tr s) :
    (s.pc ≠ .assign → s.err = p.err) ∧ ∀ e, s.pc = .returned e → e = p.err := by
  suffices hinv : (s.background = true → p.err = none) ∧ (s.pc ≠ .assign → s.err = p.err) ∧
      ∀ e, s.pc = .returned e → e = p.err from hinv.2
  refine @Run.inv _ _ _ _ (fun _ _ => True) (fun s : Returning => (s.background = true → p.err = none) ∧
    (s.pc ≠ .assign → s.err = p.err) ∧ ∀ e, s.pc = .returned e → e = p.err) ?_ ?_ _ _ h fun _ _ => trivial
  · refine ⟨fun hb => ?_, fun hne => absurd rfl hne, nofun⟩
    rcases hp with hp | hp
    · simp [Returning.begin, hp] at hb
    · exact hp
  · rintro ⟨pc, err, background⟩ a s' ⟨hb, herr, hret⟩ - hstep
    cases a with
    | worker =>
      cases pc with
      | assign =>
        cases hstep
        exact ⟨hb, fun _ => rfl, nofun⟩
      | metrics =>
        cases hstep
        exact ⟨hb, fun _ => herr nofun, nofun⟩
      | read =>
        cases hstep
        refine ⟨hb, fun _ => herr nofun, ?_⟩
        rintro e ⟨⟩
        exact herr nofun
      | returned e => cases hstep
    | background =>
      simp only [returnStep, Option.ite_none_right_eq_some, Option.some.injEq] at hstep
      obtain ⟨hstarted, rfl⟩ := hstep
      exact ⟨nofun, fun _ => (hb hstarted).symm, hret⟩

end Runs

/-- `Process` returns what its path prescribes unless it has started the goroutine and then returns an error. -/
theorem returns_iff (p : Processed) : Returns p p.err ↔ p.handed = none ∨ p.err = none := by
  constructor
  · intro h
    by_contra hp
    obtain ⟨hhanded, herr⟩ := not_or.1 hp
    have hstarted : p.handed.isSome = true := Option.isSome_iff_ne_none.2 hhanded
    -- the goroutine assigns between the assignment of the `return` and the read
    have hlast := h [(.begin p, .worker), (⟨.metrics, p.err, true⟩, .background), (⟨.metrics, none, false⟩, .worker),
      (⟨.read, none, false⟩, .worker)] ⟨.returned none, none, false⟩
      (.snoc (.snoc (.snoc (.snoc .nil (by simp [returnStep, Returning.begin, hstarted])) rfl) rfl) rfl)
    exact herr (ReturnPc.returned.inj hlast).symm
  · intro hp tr s hrun
    have hsteps := worker_steps hrun
    obtain ⟨pc, err, background⟩ := s
    split
    · cases pc with
      | assign | metrics | read => rfl
      | returned e => simp only [ReturnPc.left] at hsteps; omega
    · cases pc with
      | assign | metrics | read => simp only [ReturnPc.left] at hsteps; omega
      | returned e => rw [(err_kept hp hrun).2 e rfl]

/-! ## The paths of `Process` -/

/-- The paths that start the goroutine and return an error. -/
theorem process_overwrites_iff {D : Deps} {data : Except Err SendMevBundleArgs} {targetBlock : UInt64}
    {cancelled : Except Err Bool} {simulated : Except Err SimMevBundleResponse} {rnonce : Except Err UInt64}
    {p : Processed} (h : process D data targetBlock cancelled simulated rnonce = .ok p) :
    (p.handed = none ∨ p.err = none) ↔
      ¬∃ bundle result, data = .ok bundle ∧ simulated = .ok result ∧
        PassesChecks bundle targetBlock cancelled result ∧ Overwrites bundle result := by
  cases process_path h with
  | stops hstops =>
    refine ⟨fun _ => ?_, fun _ => .inl rfl⟩
    rintro ⟨bundle, result, hdata, hresult, hchecks, -⟩
    exact hstops bundle result hdata hresult hchecks
  | @cancels bundle result _ hdata hresult hchecks huuid hfailed =>
    simp [hdata, hresult, hchecks, Overwrites, huuid, hfailed]
  | @nextBlock bundle result hdata hresult hchecks huuid hfailed hrecoverable =>
    simp [hdata, hresult, Overwrites, huuid, hrecoverable]
  | @hands bundle result _ hdata hresult hchecks hkind =>
    rcases hkind with huuid | hsuccess
    · simp [hdata, hresult, hchecks, Overwrites, huuid]
    · simp [hdata, hresult, Overwrites, hsuccess]

/-- `Process` returns the error that its path prescribes, wherever the goroutine
assigns to the named result, if and only if the path does not start the
goroutine and then return an error. -/
theorem process_returns_iff {D : Deps} {data : Except Err SendMevBundleArgs} {targetBlock : UInt64}
    {cancelled : Except Err Bool} {simulated : Except Err SimMevBundleResponse} {rnonce : Except Err UInt64}
    {p : Processed} (h : process D data targetBlock cancelled simulated rnonce = .ok p) :
    Returns p p.err ↔
      ¬∃ bundle result, data = .ok bundle ∧ simulated = .ok result ∧
        PassesChecks bundle targetBlock cancelled result ∧ Overwrites bundle result := by
  rw [returns_iff, process_overwrites_iff h]

def queuedBundle : SendMevBundleArgs :=
  ⟨"v0.1", "", ⟨2, 4⟩, [⟨none, some sampleTx, none, false, ""⟩], ⟨[], []⟩, none, some .empty⟩

/-- A simulation for block 2 that ends with this error, or succeeds without one. -/
def simFor (error : String) : SimMevBundleResponse := ⟨error = "", error, 1, 0, 0, 0, 0, [], "", []⟩

theorem process_returns_iff_success :
    ∃ p, process sampleDeps (.ok queuedBundle) 2 (.ok false) (.ok (simFor "")) (.ok 0) = .ok p ∧ Returns p none := by
  refine ⟨_, rfl, (@process_returns_iff sampleDeps (.ok queuedBundle) 2 (.ok false) (.ok (simFor "")) (.ok 0) _ rfl).2 ?_⟩
  rintro ⟨_, _, -, ⟨⟩, -, hfailed, -⟩
  cases hfailed

/-- A bundle that can never be included is reported as one that was processed. -/
theorem unrecoverable_lost :
    ∃ p, process sampleDeps (.ok queuedBundle) 2 (.ok false) (.ok (simFor "nonce too low")) (.ok 0) = .ok p ∧
      p.err = some .unrecoverable ∧
      ∃ tr s, Run (returnStep p.err) (.begin p) tr s ∧ s.pc = .returned none :=
  ⟨_, rfl, by decide, _, _, .snoc (a := .worker) (.snoc (a := .worker) (.snoc (a := .background)
    (.snoc (a := .worker) .nil rfl) rfl) rfl) rfl, rfl⟩

end MevShare
