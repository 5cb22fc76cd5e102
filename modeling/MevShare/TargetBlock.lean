import MevShare.BundleText
import MevShare.Handed
import MevShare.Inclusion
import MevShare.Queue.Targets
/-!
# The block a bundle is sent for

Three block numbers meet when a bundle goes to the builders: the queue processes
it for the block after its own current one, the worker turns down a simulation
on a state older than that, and the builders are told the block after the state
that was simulated on. The queue keeps the first within the bundle's interval,
so the last is not before the interval. Nothing keeps it from being after: a
simulation node that is ahead of the queue is believed.
-/
open Lib

namespace MevShare

/-- The call of `Push` that `ScheduleBundleSimulation` makes. -/
def scheduleBundleSimulation (json : Json) (bundle : SendMevBundleArgs) (highPriority : Bool) (timestamp : Int64) :
    Queue.PushCall :=
  ⟨json.marshal bundle, highPriority, bundle.inclusion.blockNumber, bundle.inclusion.maxBlock, timestamp⟩

/-- The call schedules a bundle of `SendBundle`, and reading its encoding back keeps its interval. -/
def Schedules (D : Deps) (json : Json) (c : Queue.PushCall) : Prop :=
  ∃ r bundle highPriority timestamp, r.Answered D ∧ Handed D r bundle ∧
    (∀ decoded, json.unmarshal (json.marshal bundle) = .ok decoded → decoded.inclusion = bundle.inclusion) ∧
    c = scheduleBundleSimulation json bundle highPriority timestamp

/-- The bundle, target block and cancel flag with which a call of `SimulatedBundle` is to call
`BuildersBackend.SendBundle`. -/
def SimTask.send (t : SimTask) : Option (SendMevBundleArgs × UInt64 × Bool) :=
  if t.sending then some (t.bundle, t.sim.stateBlock + 1, t.shouldCancel) else none

theorem sendStep_eq (s : SimulationResultBackend) (t : SimTask) (out : Outside) :
    sendStep s t out = t.send.bind fun args =>
      match s.builders.sendBundle s.deps args.1 args.2.1 args.2.2 with
      | .ok d =>
        some ({ t with bundle := d.shared, sending := false }, { out with dispatched := out.dispatched ++ [d] })
      | .error _ => none := by
  unfold sendStep SimTask.send
  split
  · rfl
  · rfl

variable {D : Deps} {r : SendRequest} {bundle : SendMevBundleArgs} {json : Json}

theorem handed_ordered (h : Handed D r bundle) (hanswer : r.Answered D) : bundle.inclusion.Ordered := by
  obtain ⟨v, hv, hhanding⟩ := handing h
  obtain ⟨currentBlock, hvalid⟩ := received_ok hv
  cases hhanding with
  | whole _ _ hinclusion => exact hinclusion ▸ validated_ordered hvalid
  | @spliced _ _ _ _ _ _ stored _ _ hhead hfetched hhint _ hmerge _ _ _ =>
    obtain ⟨_, ⟨r', c, hc, htop⟩, -⟩ := hanswer.stored hv hhead hfetched
    obtain ⟨_, v', hvalid', -, -, hinclusion, -⟩ := handed_hinted hc ((hasHintHash_eq htop.privacy).symm.trans hhint)
    have hordered : stored.inclusion.Ordered := by
      rw [htop.inclusion, hinclusion]
      exact validated_ordered hvalid'
    exact (validated_ordered hvalid).merge hmerge hordered

/-! ## The target -/

theorem MevBundleInclusion.contains_next_iff {i : MevBundleInclusion} {target state : UInt64}
    (hlow : i.blockNumber ≤ target) (hsmall : i.maxBlock.toNat ≤ 2 ^ 53) (hlagging : ¬state < target - 1) :
    i.Contains (state + 1) ↔ state < i.maxBlock ∨ (state + 1 = 0 ∧ i.blockNumber = 0) := by
  have hstate := state.toNat_lt
  have htarget := target.toNat_lt
  simp only [MevBundleInclusion.Contains, UInt64.le_iff_toNat_le, UInt64.lt_iff_toNat_lt, ← UInt64.toNat_inj,
    UInt64.toNat_add, UInt64.toNat_sub, UInt64.toNat_one, UInt64.toNat_zero] at *
  omega

/-- What the queue gives to the worker was scheduled with the interval that the worker reads, and its target is
not before the interval. -/
theorem invoked_target {cfg : Queue.RedisQueueConfig} {block : UInt64} {nWorkers : Nat}
    {tr : List (Queue.State × Queue.Action)} {s : Queue.State} (hrun : Run (Queue.step cfg) (.start block nWorkers) tr s)
    (hpushes : ∀ p ∈ s.pushes, Schedules D json p.call) {a : Queue.PackArgs} {currentBlock : UInt64}
    {info : Queue.QueueItemInfo} (hinvoked : .invoked a currentBlock info ∈ s.events)
    (hdecoded : json.unmarshal a.data = .ok bundle) (hsmall : bundle.inclusion.maxBlock.toNat ≤ 2 ^ 53) :
    bundle.inclusion.blockNumber ≤ info.targetBlock := by
  obtain ⟨htarget, c, hc, hkey, hrange⟩ := Queue.invoked_pushed hrun hinvoked
  obtain ⟨q, hq, hpc, rfl⟩ := Queue.mem_accepted.1 hc
  obtain ⟨r, sent, highPriority, timestamp, hanswer, hhanded, hjson, hcall⟩ := hpushes q hq
  have hdata : a.data = json.marshal sent := by
    rw [← show q.call.data = a.data from congrArg Queue.Key.data hkey, hcall]
    rfl
  have hinclusion : bundle.inclusion = sent.inclusion := hjson bundle (hdata ▸ hdecoded)
  have hmin : q.call.minTargetBlock = bundle.inclusion.blockNumber := by rw [hcall, hinclusion]; rfl
  have hmax : q.call.maxTargetBlock = bundle.inclusion.maxBlock := by rw [hcall, hinclusion]; rfl
  have hordered : bundle.inclusion.Ordered := hinclusion ▸ handed_ordered hhanded hanswer
  -- the call passed the first check of `Push`, so its last block is not 0 and the interval is in order
  have hexact : q.call.Exact := by
    refine ⟨?_, hmax ▸ hsmall⟩
    rw [hmin, hmax]
    exact hordered (hmax ▸ Queue.accepted_fresh hrun q hq hpc)
  rw [← hmin, htarget]
  exact (hrange hexact).1

/-- The target that the builders are told for a bundle from the queue is within
the bundle's interval if and only if the simulation was on a state before the
last block of the interval (or on the last state there is, whose number wraps
around to the target 0, for a bundle that starts at block 0). Scores are
floats, so the blocks are those that a float can hold. -/
theorem sent_in_inclusion_iff {cfg : Queue.RedisQueueConfig} {block : UInt64} {nWorkers : Nat}
    {tr : List (Queue.State × Queue.Action)} {s : Queue.State} (hrun : Run (Queue.step cfg) (.start block nWorkers) tr s)
    (hpushes : ∀ p ∈ s.pushes, Schedules D json p.call) {a : Queue.PackArgs} {currentBlock : UInt64}
    {info : Queue.QueueItemInfo} (hinvoked : .invoked a currentBlock info ∈ s.events) {cancelled : Except Err Bool}
    {result : SimMevBundleResponse} {rnonce : Except Err UInt64} {p : Processed} {t : SimTask} {target : UInt64}
    (hprocess : process D (json.unmarshal a.data) info.targetBlock cancelled (.ok result) rnonce = .ok p)
    (ht : p.handed = some t) (hsend : t.send = some (bundle, target, false))
    (hsmall : bundle.inclusion.maxBlock.toNat ≤ 2 ^ 53) :
    bundle.inclusion.Contains target ↔
      result.stateBlock < bundle.inclusion.maxBlock ∨ (result.stateBlock + 1 = 0 ∧ bundle.inclusion.blockNumber = 0) := by
  cases hdecoded : json.unmarshal a.data with
  | error e =>
    rw [hdecoded] at hprocess
    cases hprocess
    cases ht
  | ok decoded =>
    rw [hdecoded] at hprocess
    obtain ⟨rfl, -, hresult, hlagging⟩ := process_handed hprocess ht
    cases hresult
    obtain ⟨-, hargs⟩ := Option.ite_none_right_eq_some.1 hsend
    simp only [Option.some.injEq, Prod.mk.injEq] at hargs
    obtain ⟨rfl, rfl, -⟩ := hargs
    exact MevBundleInclusion.contains_next_iff (invoked_target hrun hpushes hinvoked hdecoded hsmall) hsmall hlagging

/-- A call with this text for block 2. -/
def callForTwo (data : Bytes) : Queue.PushCall := ⟨data, false, 2, 2, 0⟩

/-- The queue at block 1 once the call has returned. -/
def pushedForTwo (data : Bytes) (redis : List (Nat × Bytes)) (worker : Queue.WorkerPc) (events : List Queue.Event) :
    Queue.State :=
  ⟨1, redis, [⟨callForTwo data, .returned none⟩], [], [worker], events, []⟩

/-- Whatever its text, the call is processed for block 2. -/
theorem callForTwo_invoked (data : Bytes) : ∃ tr s a info, Run (Queue.step Queue.smallConfig) (.start 1 1) tr s ∧
    s.pushes = [⟨callForTwo data, .returned none⟩] ∧ .invoked a 1 info ∈ s.events ∧ a.data = data ∧
    info.targetBlock = 2 := by
  let args : Queue.PackArgs := ⟨data, 2, 2, false, 0, 0⟩
  have hpush : List.foldlM (Queue.step Queue.smallConfig) (.start 1 1) (Queue.pushed (callForTwo data)) =
      some (pushedForTwo data [Queue.packData args] .idle []) := rfl
  -- the bytes are not known, so the member is unpacked by the round trip and not by evaluation
  have hpop : Queue.step Queue.smallConfig (pushedForTwo data [Queue.packData args] .idle []) (Queue.worked none) =
      some (pushedForTwo data [] (.popped args) []) := by
    have hmin : popMin [Queue.packData args] = some (Queue.packData args, []) := by simp [popMin, minEntry]
    have hscore : Queue.uint64OfScore Queue.smallConfig.outOfRange (Queue.packData args).1 = 2 :=
      @Queue.uint64OfScore_score 2 _ (by decide)
    simp [Queue.step, Queue.worked, Queue.workerTurn, pushedForTwo, hmin, Queue.unpackData_packData, hscore, args]
  have hdispatch : Queue.step Queue.smallConfig (pushedForTwo data [] (.popped args) []) (Queue.worked none) =
      some (pushedForTwo data [] (.processing args) [.invoked args 1 ⟨0, 2⟩]) := rfl
  obtain ⟨tr, hrun, -⟩ := run_of_foldlM hpush
  exact ⟨_, _, args, ⟨0, 2⟩, (hrun.snoc hpop).snoc hdispatch, rfl, List.mem_singleton.2 rfl, rfl, rfl⟩

theorem storedBy_readable : Readable 1 (storedBy flatRequest) := by
  have hprivacy : (storedBy flatRequest).privacy = some ⟨hintHash, [], none⟩ := rfl
  refine flat_readable rfl ?_ (by decide)
  rw [hprivacy]
  rintro p ⟨⟩
  exact ⟨rfl, nofun⟩

theorem storedBy_read :
    bundleJson.unmarshal (bundleJson.marshal (storedBy flatRequest)) = .ok (storedBy flatRequest) :=
  unmarshal_marshal (storedBy_readable.1.mono (by decide)) storedBy_readable.2

theorem storedBy_scheduled : callForTwo (bundleJson.marshal (storedBy flatRequest)) =
    scheduleBundleSimulation bundleJson (storedBy flatRequest) false 0 := by
  have hinclusion : (storedBy flatRequest).inclusion = ⟨2, 2⟩ := rfl
  rw [scheduleBundleSimulation, hinclusion, callForTwo]

theorem storedBy_schedules : Schedules pairDeps bundleJson (callForTwo (bundleJson.marshal (storedBy flatRequest))) := by
  refine ⟨flatRequest, storedBy flatRequest, false, 0, ?_, flatRequest_handed, fun decoded hdecoded => ?_,
    storedBy_scheduled⟩
  · intro el g stored _ _ hfetched
    cases hfetched
  · rw [Except.ok.inj (storedBy_read.symm.trans hdecoded)]

/-- The sample bundle is pushed at block 1 and processed for block 2. -/
theorem storedBy_invoked : ∃ tr s a info, Run (Queue.step Queue.smallConfig) (.start 1 1) tr s ∧
    (∀ p ∈ s.pushes, Schedules pairDeps bundleJson p.call) ∧ .invoked a 1 info ∈ s.events ∧ info.targetBlock = 2 ∧
    bundleJson.unmarshal a.data = .ok (storedBy flatRequest) := by
  obtain ⟨tr, s, a, info, hrun, hpushes, hinvoked, hdata, htarget⟩ :=
    callForTwo_invoked (bundleJson.marshal (storedBy flatRequest))
  refine ⟨tr, s, a, info, hrun, ?_, hinvoked, htarget, hdata ▸ storedBy_read⟩
  rw [hpushes]
  exact List.forall_mem_singleton.2 storedBy_schedules

theorem sent_in_inclusion_iff_flat :
    ∃ tr s a info p t bundle, Run (Queue.step Queue.smallConfig) (.start 1 1) tr s ∧
      .invoked a 1 info ∈ s.events ∧
      process pairDeps (bundleJson.unmarshal a.data) info.targetBlock (.ok false) (.ok fineSim) (.ok 0) = .ok p ∧
      p.handed = some t ∧ t.send = some (bundle, 2, false) ∧ bundle.inclusion.Contains 2 := by
  obtain ⟨tr, s, a, info, hrun, hscheduled, hinvoked, htarget, hread⟩ := storedBy_invoked
  have hprocess : process pairDeps (bundleJson.unmarshal a.data) info.targetBlock (.ok false) (.ok fineSim) (.ok 0) =
      .ok ⟨none, some (simulatedBundle pairDeps (storedBy flatRequest) fineSim false false)⟩ := by
    rw [htarget, hread]
    rfl
  exact ⟨tr, s, a, info, _, _, storedBy flatRequest, hrun, hinvoked, hprocess, rfl, rfl,
    (sent_in_inclusion_iff hrun hscheduled hinvoked hprocess rfl rfl (by decide)).2 (.inl (by decide))⟩

/-- The same bundle, simulated on a node that has block 2 already. -/
theorem sent_after_inclusion :
    ∃ tr s a info p t bundle, Run (Queue.step Queue.smallConfig) (.start 1 1) tr s ∧
      (∀ p ∈ s.pushes, Schedules pairDeps bundleJson p.call) ∧ .invoked a 1 info ∈ s.events ∧
      process pairDeps (bundleJson.unmarshal a.data) info.targetBlock (.ok false)
        (.ok { fineSim with stateBlock := 2 }) (.ok 0) = .ok p ∧
      p.handed = some t ∧ t.send = some (bundle, 3, false) ∧ bundle.inclusion = ⟨2, 2⟩ ∧
      ¬bundle.inclusion.Contains 3 := by
  obtain ⟨tr, s, a, info, hrun, hscheduled, hinvoked, htarget, hread⟩ := storedBy_invoked
  have hprocess : process pairDeps (bundleJson.unmarshal a.data) info.targetBlock (.ok false)
      (.ok { fineSim with stateBlock := 2 }) (.ok 0) =
      .ok ⟨none, some (simulatedBundle pairDeps (storedBy flatRequest) { fineSim with stateBlock := 2 } false false)⟩ := by
    rw [htarget, hread]
    rfl
  have hafter : ¬(storedBy flatRequest).inclusion.Contains 3 := by
    rintro ⟨-, hmax⟩
    exact absurd hmax (by decide)
  exact ⟨tr, s, a, info, _, _, storedBy flatRequest, hrun, hscheduled, hinvoked, hprocess, rfl, rfl, rfl, hafter⟩

end MevShare
