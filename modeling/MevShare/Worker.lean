import Mathlib.Data.List.Infix
import MevShare.Lib.Runs
import MevShare.SimResult
/-!
# `mevshare/sim_queue.go`

`SimulationWorker.Process`: what one invocation returns to the queue, and the
call of `SimulatedBundle` it leaves running in the background. What the calls to
Redis and to the simulation node return is an input.

A `Node` is the background calls of all the invocations so far together with
what they act on, and `nodeStep` lets any of them move, or a new invocation
come, in any order.
-/
open Lib

namespace MevShare

/-- The errors of an invocation as the queue tells them apart. -/
inductive ProcessErr where
  | unrecoverable | workerError | lagging | scheduleNextBlock
  | other (e : Err)
deriving DecidableEq, Repr

structure Processed where
  err : Option ProcessErr
  handed : Option SimTask

def isErrorRecoverable (message : String) : Bool := !decide ("nonce too low".toList <:+: message.toList)

/-- A failed look-up counts as not cancelled, and without metadata there is none. -/
def isBundleCancelled (bundle : SendMevBundleArgs) (lookup : Except Err Bool) : Bool :=
  match bundle.metadata, lookup with
  | some _, .ok cancelled => cancelled
  | _, _ => false

/-- A bundle is old if its replacement nonce was incremented since; if the nonce cannot be read it is not. -/
def isOldBundle (bundle : SendMevBundleArgs) (metadata : MevBundleMetadata) (rnonce : Except Err UInt64) : Bool :=
  match rnonce with
  | .ok rnonce => bundle.replacementUUID ≠ "" && rnonce > metadata.replacementNonce
  | .error _ => false

/-- State block `n` means that block `n + 1` was tried; some block of the range is left after it. -/
def hasNextBlock (bundle : SendMevBundleArgs) (result : SimMevBundleResponse) : Bool :=
  bundle.inclusion.maxBlock ≠ 0 && result.stateBlock ≠ 0 && bundle.inclusion.maxBlock > result.stateBlock + 1

/-- The log line of a simulation reads the metadata, so without it the worker panics there. -/
def process (D : Deps) (data : Except Err SendMevBundleArgs) (targetBlock : UInt64) (cancelled : Except Err Bool)
    (simulated : Except Err SimMevBundleResponse) (rnonce : Except Err UInt64) : Except Err Processed :=
  match data with
  | .error e => return ⟨some (.other e), none⟩
  | .ok bundle =>
    if isBundleCancelled bundle cancelled then return ⟨some .unrecoverable, none⟩
    else
      match simulated with
      | .error _ => return ⟨some .workerError, none⟩
      | .ok result =>
        match bundle.metadata with
        | none => throw .panic
        | some metadata =>
          if result.stateBlock < targetBlock - 1 then return ⟨some .lagging, none⟩
          else
            let isOld := isOldBundle bundle metadata rnonce
            let shouldCancel := bundle.replacementUUID ≠ "" && !result.success
            if shouldCancel then
              return ⟨if hasNextBlock bundle result then some .scheduleNextBlock else none,
                some (simulatedBundle D bundle result shouldCancel isOld)⟩
            else if !result.success && isErrorRecoverable result.error && hasNextBlock bundle result then
              return ⟨some .scheduleNextBlock, none⟩
            else
              return ⟨if !result.success && !isErrorRecoverable result.error then some .unrecoverable else none,
                some (simulatedBundle D bundle result false isOld)⟩

/-- `Process` gets past its checks: the bundle was not cancelled and the simulation does not lag behind. -/
def PassesChecks (bundle : SendMevBundleArgs) (targetBlock : UInt64) (cancelled : Except Err Bool)
    (result : SimMevBundleResponse) : Prop :=
  isBundleCancelled bundle cancelled = false ∧ ¬result.stateBlock < targetBlock - 1

section Paths
variable {D : Deps} {data : Except Err SendMevBundleArgs} {targetBlock : UInt64} {cancelled : Except Err Bool}
  {simulated : Except Err SimMevBundleResponse} {rnonce : Except Err UInt64} {p : Processed}

/-- The paths through `Process`: it stops at a check, it cancels, it schedules the next block, or it hands the result on. -/
inductive ProcessPath (D : Deps) (data : Except Err SendMevBundleArgs) (targetBlock : UInt64)
    (cancelled : Except Err Bool) (simulated : Except Err SimMevBundleResponse) : Processed → Prop
  | stops {err} : (∀ bundle result, data = .ok bundle → simulated = .ok result →
      ¬PassesChecks bundle targetBlock cancelled result) → ProcessPath D data targetBlock cancelled simulated ⟨err, none⟩
  | cancels {bundle result isOld} : data = .ok bundle → simulated = .ok result →
      PassesChecks bundle targetBlock cancelled result → bundle.replacementUUID ≠ "" → result.success = false →
      ProcessPath D data targetBlock cancelled simulated
        ⟨if hasNextBlock bundle result then some .scheduleNextBlock else none,
          some (simulatedBundle D bundle result true isOld)⟩
  | nextBlock {bundle result} : data = .ok bundle → simulated = .ok result →
      PassesChecks bundle targetBlock cancelled result → bundle.replacementUUID = "" → result.success = false →
      isErrorRecoverable result.error = true →
      ProcessPath D data targetBlock cancelled simulated ⟨some .scheduleNextBlock, none⟩
  | hands {bundle result isOld} : data = .ok bundle → simulated = .ok result →
      PassesChecks bundle targetBlock cancelled result → bundle.replacementUUID = "" ∨ result.success = true →
      ProcessPath D data targetBlock cancelled simulated
        ⟨if !result.success && !isErrorRecoverable result.error then some .unrecoverable else none,
          some (simulatedBundle D bundle result false isOld)⟩

theorem process_path (h : process D data targetBlock cancelled simulated rnonce = .ok p) :
    ProcessPath D data targetBlock cancelled simulated p := by
  unfold process at h
  cases data with
  | error e =>
    cases h
    exact .stops nofun
  | ok bundle =>
    dsimp only at h
    split at h
    · rename_i hcancelled
      cases h
      refine .stops ?_
      rintro _ result ⟨⟩ - hchecks
      rw [hchecks.1] at hcancelled
      cases hcancelled
    · rename_i hcancelled
      cases simulated with
      | error e =>
        cases h
        exact .stops nofun
      | ok result =>
        cases hm : bundle.metadata with
        | none => simp [hm, throw_eq_error] at h
        | some metadata =>
          simp only [hm] at h
          split at h
          · rename_i hlagging
            cases h
            refine .stops ?_
            rintro _ _ ⟨⟩ ⟨⟩ hchecks
            exact hchecks.2 hlagging
          · rename_i hlagging
            have hchecks : PassesChecks bundle targetBlock cancelled result := ⟨by simpa using hcancelled, hlagging⟩
            split at h
            · rename_i hcancel
              cases h
              simp only [Bool.and_eq_true, decide_eq_true_eq, Bool.not_eq_true'] at hcancel
              rw [show (decide (bundle.replacementUUID ≠ "") && !result.success) = true by simp [hcancel]]
              exact .cancels rfl rfl hchecks hcancel.1 hcancel.2
            · rename_i hcancel
              have hkind : bundle.replacementUUID = "" ∨ result.success = true := by
                by_contra hkind
                simp only [not_or, Bool.not_eq_true] at hkind
                exact hcancel (by simp [hkind])
              split at h
              · rename_i hnext
                cases h
                simp only [Bool.and_eq_true, Bool.not_eq_true'] at hnext
                have huuid := hkind.resolve_right (by simp [hnext.1.1])
                exact .nextBlock rfl rfl hchecks huuid hnext.1.1 hnext.1.2
              · cases h
                exact .hands rfl rfl hchecks hkind

end Paths

/-- A call of `SimulatedBundle` gets the bundle that was decoded, and a result that is not lagging. -/
theorem process_handed {D : Deps} {bundle : SendMevBundleArgs} {targetBlock : UInt64} {cancelled : Except Err Bool}
    {simulated : Except Err SimMevBundleResponse} {rnonce : Except Err UInt64} {p : Processed} {t : SimTask}
    (h : process D (.ok bundle) targetBlock cancelled simulated rnonce = .ok p) (ht : p.handed = some t) :
    t.bundle = bundle ∧ t.store = .stats ∧ simulated = .ok t.sim ∧ ¬t.sim.stateBlock < targetBlock - 1 := by
  cases process_path h with
  | stops | nextBlock => cases ht
  | cancels hdata hresult hchecks | hands hdata hresult hchecks =>
    cases hdata
    cases ht
    exact ⟨rfl, rfl, hresult, hchecks.2⟩

/-! ## The background calls together -/

structure Node where
  out : Outside
  /-- the calls of `SimulatedBundle`, in the order in which they were started -/
  tasks : List SimTask
  /-- the results of the calls of `InsertBundleForStats` so far, in order -/
  committed : List SimMevBundleResponse

inductive NodeAction where
  | process (bundle : SendMevBundleArgs) (targetBlock : UInt64) (cancelled : Except Err Bool)
    (simulated : Except Err SimMevBundleResponse) (rnonce : Except Err UInt64)
  | task (i : Nat) (action : TaskAction)

/-- The results that this step of the call records. -/
def commitsOf (t : SimTask) : TaskAction → List SimMevBundleResponse
  | .store _ => if t.store = .stats then [t.sim] else []
  | .send => []

def nodeStep (s : SimulationResultBackend) (n : Node) : NodeAction → Option Node
  | .process bundle targetBlock cancelled simulated rnonce =>
    match process s.deps (.ok bundle) targetBlock cancelled simulated rnonce with
    | .ok p => some { n with tasks := n.tasks ++ p.handed.toList }
    | .error _ => none
  | .task i action => do
    let t ← n.tasks[i]?
    let (t', out) ← taskStep s (t, n.out) action
    return { out, tasks := n.tasks.set i t', committed := n.committed ++ commitsOf t action }

end MevShare
