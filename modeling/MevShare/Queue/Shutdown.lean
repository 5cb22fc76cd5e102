import MevShare.Queue.Requeue
/-!
# Shutting down the process loop

`StartProcessLoop` runs one goroutine for each worker until its context is
cancelled. From then on a Redis command of a worker returns an error without
being executed, and the backoff of a requeue ends with the first refusal. So a
worker that still has to put an item back drops it: the context that stops the
loop is also the one of the requeue.

Redis itself does not fail here. The calls of `Push` have contexts of their own.
-/
open Lib

namespace MevShare.Queue

/-! ## The loop -/

/-- `stopped` are the workers whose goroutine has returned. -/
structure Loop where
  queue : State
  cancelled : Bool
  stopped : List Nat

def Loop.start (currentBlock : UInt64) (workers : Nat) : Loop := ⟨State.start currentBlock workers, false, []⟩

inductive LoopAction where
  | queue (a : Action)
  | cancel
  | stop (w : Nat)

/-- What the context makes of a turn of a worker. -/
def underContext (cancelled : Bool) : Action → Action
  | .worker w env => .worker w { env with fails := cancelled, giveUp := env.giveUp || cancelled }
  | a => a

/-- The worker whose turn it is, if it is one's. -/
def Action.worker? : Action → Option Nat
  | .worker w _ => some w
  | _ => none

/-- A worker between two items returns when it finds the context cancelled. -/
def loopStep (cfg : RedisQueueConfig) (l : Loop) : LoopAction → Option Loop
  | .queue a =>
    if ∃ w ∈ a.worker?, w ∈ l.stopped then none
    else (step cfg l.queue (underContext l.cancelled a)).map fun queue => { l with queue }
  | .cancel => some { l with cancelled := true }
  | .stop w =>
    if l.cancelled = true ∧ l.queue.workers[w]? = some .idle then some { l with stopped := w :: l.stopped } else none

/-- The wait group is done. -/
def Loop.Done (l : Loop) : Prop := ∀ w < l.queue.workers.length, w ∈ l.stopped

variable {cfg : RedisQueueConfig} {l l' : Loop}

/-! ## Workers that have returned -/

def Loop.Stopped (l : Loop) : Prop := ∀ w ∈ l.stopped, l.queue.workers[w]? = some .idle

theorem underContext_worker {cancelled : Bool} {a : Action} {w : Nat} {env : WorkerEnv}
    (h : underContext cancelled a = .worker w env) : a.worker? = some w := by
  cases a with
  | worker w' env' =>
    cases h
    rfl
  | _ => cases h

theorem stopped_step {a : LoopAction} (hl : l.Stopped) (h : loopStep cfg l a = some l') : l'.Stopped := by
  cases a with
  | queue a =>
    simp only [loopStep] at h
    split at h
    · cases h
    · rename_i hrunning
      obtain ⟨queue, hstep, rfl⟩ := Option.map_eq_some_iff.1 h
      intro w hw
      rcases step_workers hstep with heq | ⟨v, env, pc, haction, heq⟩
      · rw [heq]
        exact hl w hw
      · have hne : v ≠ w := fun hvw => hrunning ⟨w, hvw ▸ underContext_worker haction, hw⟩
        rw [heq, List.getElem?_set_ne hne]
        exact hl w hw
  | cancel =>
    cases h
    exact hl
  | stop w =>
    simp only [loopStep] at h
    split at h
    · rename_i hidle
      cases h
      intro v hv
      rcases List.mem_cons.1 hv with rfl | hv
      · exact hidle.2
      · exact hl v hv
    · cases h

theorem Loop.Done.idle (hdone : l.Done) (hstopped : l.Stopped) : ∀ pc ∈ l.queue.workers, pc = .idle := by
  intro pc hpc
  obtain ⟨w, hw, heq⟩ := List.getElem_of_mem hpc
  have hidle := hstopped w (hdone w hw)
  rw [List.getElem?_eq_getElem hw, heq] at hidle
  exact Option.some.inj hidle

/-! ## Items at shutdown -/

/-- No worker has to put an item back once the context is cancelled: none gets to
a Redis command of a requeue. Nor does one give up because the queue is full. -/
def Intact (cfg : RedisQueueConfig) (l : Loop) : LoopAction → Prop
  | .queue (.worker w env) => ∀ args stage, l.queue.workers[w]? = some (.requeue args stage) →
      (l.cancelled = true → stage.usesRedis = false) ∧
        (env.giveUp = true ∨ l.cancelled = true →
          pushToQueue cfg l.queue.currentBlock l.queue.redis args stage ≠ .full)
  | _ => True

theorem Intact.retained {a : Action} (h : Intact cfg l (.queue a)) :
    Retained cfg l.queue (underContext l.cancelled a) := by
  cases a with
  | worker w env =>
    intro args stage hpc hgive
    obtain ⟨hredis, hfull⟩ := h args stage hpc
    constructor
    · cases hc : l.cancelled with
      | false => rfl
      | true => exact hredis hc
    · exact hfull (by simpa using hgive)
  | _ => trivial

/-- The queue of a loop takes the turns of a queue. -/
theorem loop_queue_run {block : UInt64} {nWorkers : Nat} {tr : List (Loop × LoopAction)}
    (hrun : Run (loopStep cfg) (Loop.start block nWorkers) tr l) (hok : ∀ p ∈ tr, Intact cfg p.1 p.2) :
    ∃ tr', Run (step cfg) (State.start block nWorkers) tr' l.queue ∧ ∀ p ∈ tr', Retained cfg p.1 p.2 := by
  refine Run.simulated Loop.queue (fun l a l' hintact hstep => ?_) hrun hok
  cases a with
  | queue a =>
    simp only [loopStep] at hstep
    split at hstep
    · cases hstep
    · obtain ⟨queue, hturn, rfl⟩ := Option.map_eq_some_iff.1 hstep
      exact .inr ⟨_, hintact.retained, hturn⟩
  | cancel =>
    cases hstep
    exact .inl rfl
  | stop w =>
    simp only [loopStep] at hstep
    split at hstep
    · cases hstep
      exact .inl rfl
    · cases hstep

/-- If no worker has to put an item back after the cancellation, then once the
wait group is done every accepted item is in the sorted set or was finished for a
reason of its own. -/
theorem shutdown_keeps_items {block : UInt64} {nWorkers : Nat} {tr : List (Loop × LoopAction)}
    (hrun : Run (loopStep cfg) (Loop.start block nWorkers) tr l) (hok : ∀ p ∈ tr, Intact cfg p.1 p.2)
    (hdone : l.Done) :
    ∀ p ∈ l.queue.pushes, p.pc = .returned none →
      (∃ e ∈ l.queue.redis, (unpackData cfg.outOfRange e.1 e.2).map PackArgs.key = some p.call.key) ∨
        ∃ f ∈ l.queue.finished, f.args.key = p.call.key ∧ Explained cfg l.queue.events f := by
  obtain ⟨tr', hqueue, hretained⟩ := loop_queue_run hrun hok
  obtain ⟨hcovered, hexplained⟩ := retained_run hqueue hretained
  have hstopped : l.Stopped :=
    Run.inv Loop.Stopped (by simp [Loop.Stopped, Loop.start]) (fun _ _ _ hl _ hstep => stopped_step hl hstep) hrun hok
  intro p hp hpc
  obtain ⟨a, ha, hkey⟩ := hcovered p.call (mem_accepted.2 ⟨p, hp, hpc, rfl⟩)
  simp only [Board.items, State.board, Multiset.map_add, Multiset.mem_add, Multiset.mem_map, mem_sum_map,
    Multiset.mem_coe, List.mem_map] at ha
  rcases ha with (⟨x, ⟨e, he, hx⟩, rfl⟩ | ⟨x, ⟨pc, hworker, hx⟩, rfl⟩) | ⟨f, hf, rfl⟩
  · refine .inl ⟨e, he, ?_⟩
    unfold entryTokens at hx
    split at hx
    · cases hx
    · rename_i a hunpack
      rw [Multiset.mem_singleton.1 hx] at hkey
      rw [hunpack, Option.map_some, hkey]
  · -- the workers have returned, and hold nothing
    rw [hdone.idle hstopped pc hworker] at hx
    cases hx
  · exact .inr ⟨f, hf, hkey, hexplained f hf⟩

/-- The context is cancelled while `process` runs on one of two items: it returns
nil for the item's last block, and the other item stays in the sorted set. -/
theorem shutdown_keeps_items_left :
    ∃ tr l, Run (loopStep smallConfig) (Loop.start 0 1) tr l ∧ (∀ p ∈ tr, Intact smallConfig p.1 p.2) ∧ l.Done ∧
      l.queue.pushes.map Push.pc = [.returned none, .returned none] ∧ l.queue.redis.length = 1 ∧
      l.queue.finished.length = 1 ∧
      ∀ p ∈ l.queue.pushes, (∃ e ∈ l.queue.redis, (unpackData 0 e.1 e.2).map PackArgs.key = some p.call.key) ∨
        ∃ f ∈ l.queue.finished, f.args.key = p.call.key ∧ Explained smallConfig l.queue.events f := by
  have hfollows : ∃ l, Follows (loopStep smallConfig) (Intact smallConfig) (Loop.start 0 1)
      ((pushedPair ++ [worked none, worked none]).map .queue ++ [.cancel, .queue (worked none), .stop 0]) l ∧
      l.stopped = [0] ∧ l.queue.workers = [.idle] ∧
      l.queue.pushes.map Push.pc = [.returned none, .returned none] ∧ l.queue.redis.length = 1 ∧
      l.queue.finished.length = 1 :=
    ⟨_, ⟨trivial, _, rfl, trivial, _, rfl, trivial, _, rfl, trivial, _, rfl, trivial, _, rfl, trivial, _, rfl,
      trivial, _, rfl, trivial, _, rfl, trivial, _, rfl, trivial, _, rfl, trivial, _, rfl, trivial, _, rfl,
      trivial, _, rfl, trivial, _, rfl, (fun _ _ h => nomatch h), _, rfl, (fun _ _ h => nomatch h), _, rfl,
      trivial, _, rfl, (fun _ _ h => nomatch h), _, rfl, trivial, _, rfl, rfl⟩, rfl, rfl, rfl, rfl, rfl⟩
  obtain ⟨l, hfollows, hstopped, hworkers, hpushes, hredis, hfinished⟩ := hfollows
  obtain ⟨tr, hrun, hok⟩ := hfollows.run
  have hdone : l.Done := by simp [Loop.Done, hstopped, hworkers]
  refine ⟨tr, l, hrun, hok, hdone, hpushes, hredis, hfinished, fun p hp => ?_⟩
  have hpc : p.pc ∈ l.queue.pushes.map Push.pc := List.mem_map_of_mem hp
  rw [hpushes, List.mem_pair, or_self] at hpc
  exact shutdown_keeps_items hrun hok hdone p hp hpc

/-- A call of `process` whose context is cancelled returns a worker error. -/
def Interrupted (l : Loop) : LoopAction → Prop
  | .queue (.worker w env) => l.cancelled = true → ∀ args, l.queue.workers[w]? = some (.processing args) →
      ∃ e ∈ env.result, .workerError ∈ e
  | _ => True

/-- The context is cancelled while `process` runs: the item is to be retried, the
first Redis command of the requeue fails, and the item is gone. -/
theorem shutdown_drops_item :
    ∃ tr l, Run (loopStep smallConfig) (Loop.start 0 1) tr l ∧ (∀ p ∈ tr, Interrupted p.1 p.2) ∧ l.Done ∧
      l.queue.pushes = [⟨untilBlockOne 1, .returned none⟩] ∧ l.queue.redis = [] ∧
      l.queue.finished = [⟨⟨[7], 1, 1, false, 0, 1⟩, .lost⟩] := by
  have hfollows : ∃ l, Follows (loopStep smallConfig) Interrupted (Loop.start 0 1)
      ((pushed (untilBlockOne 1) ++ [worked none, worked none]).map .queue ++
        .cancel :: List.replicate 3 (.queue (worked (some [.workerError]))) ++ [.stop 0]) l ∧ l.stopped = [0] ∧
      l.queue.workers = [.idle] ∧ l.queue.pushes = [⟨untilBlockOne 1, .returned none⟩] ∧ l.queue.redis = [] ∧
      l.queue.finished = [⟨⟨[7], 1, 1, false, 0, 1⟩, .lost⟩] :=
    ⟨_, ⟨trivial, _, rfl, trivial, _, rfl, trivial, _, rfl, trivial, _, rfl, trivial, _, rfl, trivial, _, rfl,
      trivial, _, rfl, (fun h => nomatch h), _, rfl, (fun h => nomatch h), _, rfl, trivial, _, rfl,
      (fun _ _ _ => ⟨_, rfl, by simp⟩), _, rfl, (fun _ _ h => nomatch h), _, rfl, (fun _ _ h => nomatch h), _, rfl,
      trivial, _, rfl, rfl⟩, rfl, rfl, rfl, rfl, rfl⟩
  obtain ⟨l, hfollows, hstopped, hworkers, hpushes, hredis, hfinished⟩ := hfollows
  obtain ⟨tr, hrun, hok⟩ := hfollows.run
  exact ⟨tr, l, hrun, hok, by simp [Loop.Done, hstopped, hworkers], hpushes, hredis, hfinished⟩

end MevShare.Queue
