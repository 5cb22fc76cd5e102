import MevShare.Queue.Conservation
/-!
# Expired items leave the queue

Once the current block has passed the blocks of every item that is in the sorted
set or with a worker, the workers are done with all of them after a bounded number
of turns. An item that is popped is stale; one that was still being processed may
go back to the queue once more. Only a requeue that is refused takes a worker back
to where it was, so what is bounded is the number of turns for a given number of
refusals.

The weight of an item is the number of turns it can still take.
-/
open Lib

namespace MevShare.Queue

/-- The block has passed both ends of the item's interval. -/
def Expired (block : UInt64) (a : PackArgs) : Prop := a.minTargetBlock ≤ block ∧ a.maxTargetBlock ≤ block

instance (block : UInt64) (a : PackArgs) : Decidable (Expired block a) := inferInstanceAs (Decidable (_ ∧ _))

structure AllExpired (cfg : RedisQueueConfig) (block : UInt64) (s : State) : Prop where
  current : s.currentBlock = block
  queued : ∀ e ∈ s.redis, ∀ a, unpackData cfg.outOfRange e.1 e.2 = some a → Expired block a
  held : ∀ pc ∈ s.workers, ∀ a, pc.item = some a → Expired block a

def PushStage.weight : PushStage → Nat
  | .begin => 7
  | .count _ => 6
  | .countLater _ _ => 5
  | .check _ _ => 4
  | .add => 3

def WorkerPc.weight : WorkerPc → Nat
  | .idle => 0
  | .popped _ => 1
  | .processing _ => 8
  | .requeue _ stage => stage.weight

def State.weight (s : State) : Nat := 2 * s.redis.length + (s.workers.map WorkerPc.weight).sum

def PushStep.isFull : PushStep → Bool
  | .full => true
  | _ => false

/-- The worker's Redis command fails or its requeue finds the queue full. -/
def disturbed (cfg : RedisQueueConfig) (s : State) (env : WorkerEnv) : WorkerPc → Bool
  | .idle => env.fails
  | .requeue args stage =>
    (env.fails && stage.usesRedis) || (pushToQueue cfg s.currentBlock s.redis args stage).isFull
  | _ => false

def disturbedAction (cfg : RedisQueueConfig) (s : State) : Action → Bool
  | .worker w env => s.workers[w]?.any (disturbed cfg s env)
  | _ => false

def Event.isInvoked : Event → Bool
  | .invoked _ _ _ => true
  | .returned _ _ => false

variable {cfg : RedisQueueConfig} {block : UInt64} {s s' : State} {a : PackArgs}

/-! ## A turn of a worker -/

theorem Expired.bump {incrIteration incrBlock : Bool} (h : Expired block a)
    (hnext : incrBlock = true → a.minTargetBlock < a.maxTargetBlock) :
    Expired block (a.bump incrIteration incrBlock) := by
  obtain ⟨hmin, hmax⟩ := h
  refine ⟨?_, hmax⟩
  cases incrBlock with
  | false => exact hmin
  | true =>
    have hlt := hnext rfl
    simp only [PackArgs.bump, if_true]
    grind

theorem Expired.stored (h : Expired block a) (hsmall : block.toNat ≤ 2 ^ 53) :
    uint64OfScore cfg.outOfRange (score a.minTargetBlock) = a.minTargetBlock := by
  refine uint64OfScore_score cfg.outOfRange (le_trans ?_ hsmall)
  exact UInt64.le_iff_toNat_le.1 h.1

/-- An expired item is stale when it is popped. -/
theorem dispatch_expired (h : Expired s.currentBlock a) (hsmall : s.currentBlock.toNat ≤ 2 ^ 53) :
    dispatch cfg s a = (.idle, s.finish a (.stale (s.currentBlock + 1))) := by
  obtain ⟨hmin, hmax⟩ := h
  have hnext : s.currentBlock < s.currentBlock + 1 := by
    rw [UInt64.lt_iff_toNat_lt, UInt64.toNat_add]
    simp
    omega
  have hafter : ∀ x, x ≤ s.currentBlock → s.currentBlock + 1 > x := fun x hx => UInt64.lt_of_le_of_lt hx hnext
  unfold dispatch
  dsimp only
  rw [if_neg (UInt64.not_lt.2 (UInt64.le_of_lt (hafter _ hmin))), if_pos (hafter _ hmin), if_pos (hafter _ hmax)]

/-- After `process` an item is finished, or goes back once more. -/
theorem finishProcess_cases (cfg : RedisQueueConfig) (s : State) (a : PackArgs) (r : ProcessResult) :
    (∃ outcome, finishProcess cfg s a r = (.idle, s.finish a outcome)) ∨
      ∃ incrIteration incrBlock, (incrBlock = true → a.minTargetBlock < a.maxTargetBlock) ∧
        finishProcess cfg s a r = (.requeue (a.bump incrIteration incrBlock) .begin, s) := by
  have hretry : ∀ incrIteration incrBlock, (∃ outcome, retry cfg s a incrIteration incrBlock r = (.idle, s.finish a outcome)) ∨
      ∃ incrIteration' incrBlock', (incrBlock' = true → a.minTargetBlock < a.maxTargetBlock) ∧
        retry cfg s a incrIteration incrBlock r = (.requeue (a.bump incrIteration' incrBlock') .begin, s) := by
    intro incrIteration incrBlock
    rcases retry_cases cfg s a incrIteration incrBlock r with ⟨-, hnext, heq⟩ | ⟨-, heq⟩ | ⟨-, -, heq⟩
    · exact .inr ⟨_, _, hnext, heq⟩
    · exact .inl ⟨_, heq⟩
    · exact .inl ⟨_, heq⟩
  unfold finishProcess
  cases verdict r with
  | retry | nextBlock | lagging | success => exact hretry _ _
  | unrecoverable | unknown => exact .inl ⟨_, rfl⟩

/-- What a turn does to a queue of expired items. -/
structure Drains (cfg : RedisQueueConfig) (block : UInt64) (s : State) (env : WorkerEnv) (pc pc' : WorkerPc) (s' : State) :
    Prop where
  current : s'.currentBlock = s.currentBlock
  queued : ∀ e ∈ s'.redis, ∀ a, unpackData cfg.outOfRange e.1 e.2 = some a → Expired block a
  held : ∀ a, pc'.item = some a → Expired block a
  invoked : s'.events.countP Event.isInvoked = s.events.countP Event.isInvoked
  weight : 2 * s'.redis.length + pc'.weight + 1 ≤
    2 * s.redis.length + pc.weight + if disturbed cfg s env pc then 5 else 0

variable {env : WorkerEnv} {pc pc' : WorkerPc}

theorem idle_drains (hs : AllExpired cfg block s) (h : workerTurn cfg s env .idle = some (pc', s')) :
    Drains cfg block s env .idle pc' s' := by
  unfold workerTurn at h
  dsimp only at h
  split at h
  · rename_i hfails
    cases h
    exact ⟨rfl, hs.queued, by simp [WorkerPc.item], rfl, by simp [disturbed, hfails]⟩
  · split at h
    · cases h
    · rename_i score member redis hpop
      have hperm := popMin_perm hpop
      have hrest : ∀ e ∈ redis, ∀ a, unpackData cfg.outOfRange e.1 e.2 = some a → Expired block a :=
        fun e he => hs.queued e (hperm.mem_iff.2 (List.mem_cons_of_mem _ he))
      have hlength : s.redis.length = redis.length + 1 := hperm.length_eq
      split at h
      · cases h
        exact ⟨rfl, hrest, by simp [WorkerPc.item], rfl, by simp only [WorkerPc.weight, hlength]; omega⟩
      · rename_i a ha
        cases h
        refine ⟨rfl, hrest, fun a' ha' => ?_, rfl, by simp only [WorkerPc.weight, hlength]; omega⟩
        cases ha'
        exact hs.queued (score, member) (hperm.mem_iff.2 List.mem_cons_self) a ha

/-- A turn that leaves the sorted set alone. -/
theorem Drains.quiet (hs : AllExpired cfg block s) (hcurrent : s'.currentBlock = s.currentBlock) (hredis : s'.redis = s.redis)
    (hinvoked : s'.events.countP Event.isInvoked = s.events.countP Event.isInvoked)
    (hheld : ∀ a, pc'.item = some a → Expired block a)
    (hweight : pc'.weight + 1 ≤ pc.weight + if disturbed cfg s env pc then 5 else 0) :
    Drains cfg block s env pc pc' s' :=
  ⟨hcurrent, hredis ▸ hs.queued, hheld, hinvoked, by rw [hredis]; omega⟩

theorem refused_drains {stage : PushStage} (hs : AllExpired cfg block s) (ha : Expired block a)
    (hdisturbed : disturbed cfg s env (.requeue a stage) = true) (h : refused s a env.giveUp = (pc', s')) :
    Drains cfg block s env (.requeue a stage) pc' s' := by
  unfold refused at h
  split at h
  · cases h
    exact .quiet hs rfl rfl rfl (by simp [WorkerPc.item]) (by simp [hdisturbed, WorkerPc.weight])
  · cases h
    refine .quiet hs rfl rfl rfl (fun a' ha' => ?_) ?_
    · cases ha'
      exact ha
    · rw [hdisturbed]
      cases stage <;> simp [WorkerPc.weight, PushStage.weight]

theorem goOn_weight {redis : List (Nat × Bytes)} {stage stage' : PushStage}
    (h : pushToQueue cfg block redis a stage = .goOn stage') : stage'.weight + 1 = stage.weight := by
  cases stage with
  | begin | count | countLater =>
    cases h
    rfl
  | check processable unprocessable =>
    have hadd : stage' = .add := by
      simp only [pushToQueue] at h
      split_ifs at h <;> cases h <;> rfl
    rw [hadd]
    rfl
  | add => cases h

theorem requeue_drains {stage : PushStage} (hs : AllExpired cfg block s) (hsmall : block.toNat ≤ 2 ^ 53)
    (ha : Expired block a) (h : workerTurn cfg s env (.requeue a stage) = some (pc', s')) :
    Drains cfg block s env (.requeue a stage) pc' s' := by
  unfold workerTurn at h
  dsimp only at h
  split at h
  · rename_i hfails
    exact refused_drains hs ha (by simp only [disturbed, hfails, Bool.true_or]) (Option.some.inj h)
  · cases hpush : pushToQueue cfg s.currentBlock s.redis a stage with
    | goOn stage' =>
      rw [hpush] at h
      cases h
      have hweight := goOn_weight hpush
      refine .quiet hs rfl rfl rfl (fun a' ha' => ?_) (by simp only [WorkerPc.weight]; omega)
      cases ha'
      exact ha
    | full =>
      rw [hpush] at h
      exact refused_drains hs ha (by simp [disturbed, hpush, PushStep.isFull]) (Option.some.inj h)
    | added redis =>
      rw [hpush] at h
      cases h
      obtain ⟨rfl, rfl⟩ := pushToQueue_added hpush
      refine ⟨rfl, fun e he a' ha' => ?_, by simp [WorkerPc.item], rfl, ?_⟩
      · rcases List.mem_append.1 he with he | he
        · exact hs.queued e (List.mem_of_mem_filter he) a' ha'
        · -- the item itself comes back from Redis as it was
          rw [List.mem_singleton.1 he, unpackData_packData, packData, ha.stored hsmall] at ha'
          cases ha'
          exact ha
      · have hle : (s.redis.filter fun e => e.2 ≠ (packData a).2).length ≤ s.redis.length := List.length_filter_le _ _
        simp only [zadd, WorkerPc.weight, PushStage.weight, List.length_append, List.length_singleton]
        omega

theorem workerTurn_drains (hs : AllExpired cfg block s) (hsmall : block.toNat ≤ 2 ^ 53)
    (hpc : ∀ a, pc.item = some a → Expired block a) (h : workerTurn cfg s env pc = some (pc', s')) :
    Drains cfg block s env pc pc' s' := by
  cases pc with
  | idle => exact idle_drains hs h
  | popped a =>
    have ha : Expired s.currentBlock a := hs.current ▸ hpc a rfl
    simp only [workerTurn, dispatch_expired ha (hs.current ▸ hsmall)] at h
    cases h
    exact .quiet hs rfl rfl rfl (by simp [WorkerPc.item]) (by simp [WorkerPc.weight])
  | processing a =>
    have hlog : (s.log (.returned a env.result)).events.countP Event.isInvoked = s.events.countP Event.isInvoked := by
      simp [State.log, Event.isInvoked]
    rcases finishProcess_cases cfg (s.log (.returned a env.result)) a env.result with
      ⟨outcome, heq⟩ | ⟨incrIteration, incrBlock, hnext, heq⟩
    · simp only [workerTurn, heq] at h
      cases h
      exact .quiet hs rfl rfl hlog (by simp [WorkerPc.item]) (by simp only [WorkerPc.weight]; omega)
    · simp only [workerTurn, heq] at h
      cases h
      refine .quiet hs rfl rfl hlog (fun a' ha' => ?_) (by simp [WorkerPc.weight, PushStage.weight])
      cases ha'
      exact (hpc a rfl).bump hnext
  | requeue a stage => exact requeue_drains hs hsmall (hpc a rfl) h

/-! ## A run of the workers -/

theorem sum_weight_set {l : List WorkerPc} {i : Nat} (hi : l[i]? = some pc) (pc' : WorkerPc) :
    ((l.set i pc').map WorkerPc.weight).sum + pc.weight = (l.map WorkerPc.weight).sum + pc'.weight := by
  obtain ⟨others, hperm, hset⟩ := exists_others hi
  rw [((hset pc').map WorkerPc.weight).sum_eq, (hperm.map WorkerPc.weight).sum_eq]
  simp only [List.map_cons, List.sum_cons]
  omega

theorem worker_step_drains {w : Nat} (hs : AllExpired cfg block s) (hsmall : block.toNat ≤ 2 ^ 53)
    (h : step cfg s (.worker w env) = some s') :
    AllExpired cfg block s' ∧ s'.workers.length = s.workers.length ∧
      s'.events.countP Event.isInvoked = s.events.countP Event.isInvoked ∧
      s'.weight + 1 ≤ s.weight + if disturbedAction cfg s (.worker w env) then 5 else 0 := by
  obtain ⟨pc, pc', next, hpc, hturn, rfl⟩ := worker_step h
  have hdrains := workerTurn_drains hs hsmall (hs.held pc (List.mem_of_getElem? hpc)) hturn
  refine ⟨⟨hdrains.current.trans hs.current, hdrains.queued, fun x hx a ha => ?_⟩, by simp, hdrains.invoked, ?_⟩
  · rcases List.mem_or_eq_of_mem_set hx with hx | rfl
    · exact hs.held x hx a ha
    · exact hdrains.held a ha
  · have hset := sum_weight_set hpc pc'
    have hweight := hdrains.weight
    simp only [State.weight, disturbedAction, hpc, Option.any_some]
    omega

theorem WorkerPc.weight_le (pc : WorkerPc) : pc.weight ≤ 8 := by
  cases pc with
  | idle | popped | processing => simp [WorkerPc.weight]
  | requeue a stage => cases stage <;> simp [WorkerPc.weight, PushStage.weight]

theorem sum_weight_le (l : List WorkerPc) : (l.map WorkerPc.weight).sum ≤ 8 * l.length := by
  induction l with
  | nil => simp
  | cons pc l ih =>
    have hpc := pc.weight_le
    simp only [List.map_cons, List.sum_cons, List.length_cons]
    omega

/-- A worker can only be held up by an empty queue. -/
theorem idle_of_stuck (hstuck : workerTurn cfg s env pc = none) (hfails : env.fails = false) :
    pc = .idle ∧ s.redis = [] := by
  cases pc with
  | idle =>
    simp only [workerTurn, hfails, Bool.false_eq_true, if_false] at hstuck
    split at hstuck
    · rename_i hpop
      exact ⟨rfl, popMin_eq_none.1 hpop⟩
    · split at hstuck <;> cases hstuck
  | popped a => cases hstuck
  | processing a => cases hstuck
  | requeue a stage =>
    simp only [workerTurn, hfails, Bool.false_and, Bool.false_eq_true, if_false] at hstuck
    split at hstuck <;> cases hstuck

/-- Where no worker can go on, the queue is empty and nobody holds an item. -/
theorem empty_of_stuck (hsome : s.workers ≠ [])
    (hstuck : ∀ w env, env.fails = false → step cfg s (.worker w env) = none) :
    s.redis = [] ∧ ∀ pc ∈ s.workers, pc = .idle := by
  have hturn : ∀ pc ∈ s.workers, pc = .idle ∧ s.redis = [] := by
    intro pc hpc
    obtain ⟨w, hw⟩ := List.getElem?_of_mem hpc
    have hnone := hstuck w ⟨none, false, false⟩ rfl
    cases hworker : workerTurn cfg s ⟨none, false, false⟩ pc with
    | none => exact idle_of_stuck hworker rfl
    | some next => simp [step, hw, hworker] at hnone
  obtain ⟨pc, rest, hcons⟩ := List.exists_cons_of_ne_nil hsome
  exact ⟨(hturn pc (by simp [hcons])).2, fun pc hpc => (hturn pc hpc).1⟩

/-- Workers that are left alone with expired items invoke `process` no more, run
out of turns, and have then emptied the queue. Each turn whose Redis command fails,
or whose requeue is refused, adds five to the bound. -/
theorem expired_items_drain {tr : List (State × Action)} (hs : AllExpired cfg s.currentBlock s)
    (hsmall : s.currentBlock.toNat ≤ 2 ^ 53) (hsome : s.workers ≠ []) (hrun : Run (step cfg) s tr s')
    (hworkers : ∀ p ∈ tr, ∃ w env, p.2 = .worker w env) :
    tr.length ≤ 2 * s.redis.length + 8 * s.workers.length + 5 * tr.countP (fun p => disturbedAction cfg p.1 p.2) ∧
      s'.events.countP Event.isInvoked = s.events.countP Event.isInvoked ∧
      ((∀ w env, env.fails = false → step cfg s' (.worker w env) = none) →
        s'.redis = [] ∧ ∀ pc ∈ s'.workers, pc = .idle) := by
  have hinv := Run.budget (fun _ a => ∃ w env, a = .worker w env)
    (fun u => AllExpired cfg s.currentBlock u ∧ u.workers.length = s.workers.length ∧
      u.events.countP Event.isInvoked = s.events.countP Event.isInvoked) State.weight (disturbedAction cfg) 5
    ⟨hs, rfl, rfl⟩ ?_ hrun hworkers
  · obtain ⟨⟨-, hlength, hinvoked⟩, hbudget⟩ := hinv
    refine ⟨?_, hinvoked, empty_of_stuck (by simpa [← List.length_pos_iff, hlength] using hsome)⟩
    have hsum := sum_weight_le s.workers
    simp only [State.weight] at hbudget
    omega
  · rintro u _ u' ⟨hexpired, hlength, hinvoked⟩ ⟨w, env, rfl⟩ hstep
    obtain ⟨hexpired', hlength', hinvoked', hweight⟩ := worker_step_drains hexpired hsmall hstep
    exact ⟨⟨hexpired', hlength'.trans hlength, hinvoked'.trans hinvoked⟩, hweight⟩

/-- At block 10 one item is queued and another, which goes on until block 5, is still being processed. -/
def pastBlockFive : State :=
  ⟨10, [packData ⟨[1], 3, 5, false, 0, 0⟩], [], [], [.processing ⟨[7], 4, 5, false, 0, 0⟩], [], []⟩

theorem pastBlockFive_expired : AllExpired smallConfig 10 pastBlockFive where
  current := rfl
  queued e he a ha := by
    cases List.mem_singleton.1 he
    rw [unpackData_packData] at ha
    cases ha
    decide
  held pc hpc a ha := by
    cases List.mem_singleton.1 hpc
    cases ha
    decide

/-- The ten turns of the bound: the item that is processed goes back to the queue, and then both are stale. -/
theorem expired_items_drain_two :
    ∃ s', (List.replicate 10 (worked (some [.workerError]))).foldlM (step smallConfig) pastBlockFive = some s' ∧
      s'.redis = [] ∧ ∀ pc ∈ s'.workers, pc = .idle := by
  have hsteps : ∃ s', (List.replicate 10 (worked (some [.workerError]))).foldlM (step smallConfig) pastBlockFive = some s' ∧
      s'.redis = [] ∧ s'.workers = [.idle] := ⟨_, rfl, rfl, rfl⟩
  obtain ⟨s', hsteps, hredis, hidle⟩ := hsteps
  obtain ⟨tr, hrun, hactions⟩ := run_of_foldlM hsteps
  refine ⟨s', hsteps, (expired_items_drain pastBlockFive_expired (by decide) (by decide) hrun ?_).2.2 ?_⟩
  · intro p hp
    have hmem : p.2 ∈ tr.map Prod.snd := List.mem_map_of_mem hp
    rw [hactions] at hmem
    exact ⟨0, _, List.eq_of_mem_replicate hmem⟩
  · rintro w env hfails
    rcases w with - | w
    · simp [step, hidle, workerTurn, hfails, hredis, popMin_eq_none.2]
    · simp [step, hidle]

end MevShare.Queue
