import MevShare.Builders
import MevShare.Database
/-!
# `mevshare/sim_result_backend.go`

A call of `SimulatedBundle` runs two goroutines over one bundle: one writes to
the store and publishes the hint, the other sends the bundle to the builders. A
call in progress is a `SimTask`. Its steps are the calls the goroutines make,
`storeStep` for the first and `sendStep` for the second, and they can come in
any order.
-/
open Lib

namespace MevShare

/-- What a `SimulationResultBackend` is made of. -/
structure SimulationResultBackend where
  deps : Deps
  builders : BuildersBackend
  shareGasUsed : Bool
  shareMevGasPrice : Bool

/-- How the calls of one step to the outside turn out: the clock, the database
and Redis, and the block number of the Ethereum node. -/
structure Env where
  now : UInt64
  faults : Faults
  notifyFails : Bool
  blockNumber : Option UInt64
  insertFails : Bool
deriving DecidableEq, Repr

/-- No call fails. -/
def Env.Ok (env : Env) : Prop :=
  env.faults = .none ∧ env.notifyFails = false ∧ env.blockNumber.isSome ∧ env.insertFails = false

/-- What the calls leave outside the node: the database, the hints published
with `NotifyHint`, and what was sent to the builders. -/
structure Outside where
  db : Database
  published : List Hint
  dispatched : List Dispatch

def izZeroPriorityFeeTX (D : Deps) (bundle : SendMevBundleArgs) : Bool :=
  match bundle.body with
  | [⟨_, some tx, none, _, _⟩] =>
    match D.unmarshalBinary tx with
    | .ok tx => tx.gasTipCap = 0
    | .error _ => false
  | _ => false

namespace SimulationResultBackend
variable (s : SimulationResultBackend)

def extractHints (bundle : SendMevBundleArgs) (sim : SimMevBundleResponse) : Except Err Hint :=
  MevShare.extractHints s.deps bundle sim s.shareGasUsed s.shareMevGasPrice

/-- The error is only logged, so what counts is how far the call gets. -/
def processHints (env : Env) (bundle : SendMevBundleArgs) (sim : SimMevBundleResponse) (out : Outside) : Outside :=
  if !bundle.hasHintHash then out
  else
    match s.extractHints bundle sim with
    | .error _ => out
    | .ok hint =>
      if env.notifyFails then out
      else
        let out := { out with published := out.published ++ [hint] }
        match env.blockNumber with
        | none => out
        | some block =>
          match insertHistoricalHint env.insertFails out.db block hint with
          | .error _ => out
          | .ok db => { out with db }

/-- The hints that `ProcessHints` publishes if no call fails: one or none. -/
def hintsOf (bundle : SendMevBundleArgs) (sim : SimMevBundleResponse) : List Hint :=
  if bundle.hasHintHash then (s.extractHints bundle sim).toOption.toList else []

end SimulationResultBackend

/-- The next call of the goroutine that writes to the store. -/
inductive StorePc where
  | stats | hints | builder | done
deriving DecidableEq, Repr

/-- A call of `SimulatedBundle`. `bundle` is what both goroutines point to, and
`sending` says that `SendBundle` is still to prepare its arguments. -/
structure SimTask where
  bundle : SendMevBundleArgs
  sim : SimMevBundleResponse
  shouldCancel : Bool
  store : StorePc
  sending : Bool

/-- Bundles that were replaced are not sent, and single transactions without a
priority fee only to cancel them. -/
def sendsToBuilders (D : Deps) (bundle : SendMevBundleArgs) (sim : SimMevBundleResponse)
    (shouldCancel isOldBundle : Bool) : Bool :=
  !isOldBundle && ((sim.success && !izZeroPriorityFeeTX D bundle) || shouldCancel)

def simulatedBundle (D : Deps) (bundle : SendMevBundleArgs) (sim : SimMevBundleResponse)
    (shouldCancel isOldBundle : Bool) : SimTask where
  bundle
  sim
  shouldCancel
  store := .stats
  sending := sendsToBuilders D bundle sim shouldCancel isOldBundle

def SimTask.Finished (t : SimTask) : Prop := t.store = .done ∧ t.sending = false

/-- The call after `InsertBundleForStats`. -/
def afterStats (sim : SimMevBundleResponse) (known : Bool) : StorePc :=
  if sim.success then if known then .builder else .hints else .done

/-- One call of the goroutine that writes to the store. All errors are logged and passed over. -/
def storeStep (s : SimulationResultBackend) (env : Env) (t : SimTask) (out : Outside) : Option (SimTask × Outside) :=
  match t.store with
  | .stats =>
    let r := insertBundleForStats env.faults env.now out.db t.bundle t.sim
    some ({ t with store := afterStats t.sim r.known }, { out with db := r.db })
  | .hints => some ({ t with store := .builder }, s.processHints env t.bundle t.sim out)
  | .builder =>
    match insertBundleForBuilder env.insertFails out.db t.bundle t.sim (t.sim.stateBlock + 1) with
    | .ok db => some ({ t with store := .done }, { out with db })
    | .error _ => some ({ t with store := .done }, out)
  | .done => none

/-- `SendBundle` changes the bundle that the other goroutine works on. There is no step from a panic. -/
def sendStep (s : SimulationResultBackend) (t : SimTask) (out : Outside) : Option (SimTask × Outside) :=
  if t.sending then
    match s.builders.sendBundle s.deps t.bundle (t.sim.stateBlock + 1) t.shouldCancel with
    | .ok d => some ({ t with bundle := d.shared, sending := false }, { out with dispatched := out.dispatched ++ [d] })
    | .error _ => none
  else none

/-- Whose turn it is. -/
inductive TaskAction where
  | store (env : Env)
  | send
deriving DecidableEq, Repr

def taskStep (s : SimulationResultBackend) (c : SimTask × Outside) : TaskAction → Option (SimTask × Outside)
  | .store env => storeStep s env c.1 c.2
  | .send => sendStep s c.1 c.2

/-! ## What a step of the store goroutine does -/

theorem processHints_ok (s : SimulationResultBackend) {env : Env} (henv : env.Ok) (bundle : SendMevBundleArgs)
    (sim : SimMevBundleResponse) (out : Outside) :
    (s.processHints env bundle sim out).published = out.published ++ s.hintsOf bundle sim ∧
      (s.processHints env bundle sim out).db.sbundle = out.db.sbundle ∧
      (s.processHints env bundle sim out).db.sbundleBuilder = out.db.sbundleBuilder := by
  obtain ⟨-, hn, hb, hi⟩ := henv
  obtain ⟨block, hb⟩ := Option.isSome_iff_exists.1 hb
  unfold SimulationResultBackend.processHints SimulationResultBackend.hintsOf
  cases bundle.hasHintHash with
  | false => simp
  | true =>
    cases s.extractHints bundle sim with
    | error e => simp [Except.toOption]
    | ok hint => simp [hn, hb, hi, insertHistoricalHint, Except.toOption, pure, Except.pure]

/-- The effect of a step that meets no fault, call by call. -/
inductive StoreEffect (s : SimulationResultBackend) (h : Hash) (t : SimTask) (out : Outside) :
    SimTask → Outside → Prop
  | stats {out'} : t.store = .stats → (∃ r, out'.db.bundle h = some r ∧ r.body = t.bundle) →
      out'.published = out.published →
      StoreEffect s h t out { t with store := afterStats t.sim (out.db.bundle h).isSome } out'
  | hints {out'} : t.store = .hints → out'.published = out.published ++ s.hintsOf t.bundle t.sim →
      out'.db.bundle h = out.db.bundle h → StoreEffect s h t out { t with store := .builder } out'
  | builder {out'} : t.store = .builder → out'.published = out.published →
      out'.db.bundle h = out.db.bundle h → (∃ r, out'.db.builder h = some r ∧ r.body = t.bundle) →
      StoreEffect s h t out { t with store := .done } out'

theorem storeStep_effect {s : SimulationResultBackend} {env : Env} {t t' : SimTask} {out out' : Outside}
    {m : MevBundleMetadata} (h : storeStep s env t out = some (t', out')) (henv : env.Ok)
    (hm : t.bundle.metadata = some m) (hb : m.bodyHashes ≠ []) : StoreEffect s m.bundleHash t out t' out' := by
  have ⟨hf, _, _, hi⟩ := henv
  cases hpc : t.store with
  | stats =>
    simp only [storeStep, hpc, Option.some.injEq, Prod.mk.injEq] at h
    obtain ⟨rfl, rfl⟩ := h
    obtain ⟨hknown, hrow, -⟩ := @insertBundleForStats_none env.now out.db _ t.sim m hm hb
    rw [hf, hknown]
    exact .stats hpc hrow rfl
  | hints =>
    simp only [storeStep, hpc, Option.some.injEq, Prod.mk.injEq] at h
    obtain ⟨rfl, rfl⟩ := h
    obtain ⟨hp, hs, -⟩ := processHints_ok s henv t.bundle t.sim out
    exact .hints hpc hp (by rw [Database.bundle, hs, Database.bundle])
  | builder =>
    obtain ⟨db', hok, hs, hrow⟩ :=
      @insertBundleForBuilder_ok out.db t.bundle t.sim (t.sim.stateBlock + 1) m hm
    simp only [storeStep, hpc, hi, hok, Option.some.injEq, Prod.mk.injEq] at h
    obtain ⟨rfl, rfl⟩ := h
    exact .builder hpc rfl (by simp only [Database.bundle, hs]) hrow
  | done => simp [storeStep, hpc] at h

end MevShare
