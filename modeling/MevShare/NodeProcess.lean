import MevShare.HintOnce
import MevShare.Queue.Concluded
import MevShare.Queue.Shutdown
/-!
# `cmd/node/main.go`

The node as one process: the workers of the queue, the calls of `SimulatedBundle`
that their invocations of `Process` leave running, the goroutine that updates the
block, and `main`, which waits for the first and the last through one wait group
and then for the calls through another. They take turns in any order.

The hand-over of a result and the return of `Process` are one turn. The calls of
`Push` and `UpdateBlock` are actions of the queue.
-/
open Lib

namespace MevShare

/-! ## The process -/

/-- A call of `SimulatedBundle` and the item it was started for. `returned` says that `Done` was called. -/
structure BackgroundCall where
  item : Queue.PackArgs
  task : SimTask
  returned : Bool

/-- What `main` does next: serve until the signal, wait for the queue, wait for the background calls. -/
inductive MainPc where
  | serving | waitQueue | waitBackground | exited
deriving DecidableEq, Repr

/-- A call of `SendBundle`. -/
structure SentBundle where
  key : Queue.Key
  /-- the block that the item was processed for -/
  block : UInt64
  /-- the block that `SendBundle` was called with: the one after the state of the simulation -/
  targetBlock : UInt64
deriving DecidableEq, Repr

def SentBundle.processedFor (x : SentBundle) : Queue.Key × UInt64 := (x.key, x.block)

structure NodeProcess where
  loop : Queue.Loop
  /-- the goroutine that updates the block has not returned -/
  updating : Bool
  calls : List BackgroundCall
  out : Outside
  sent : List SentBundle
  queueWg : Nat
  backgroundWg : Nat
  main : MainPc

/-- `StartProcessLoop` adds one to the wait group for each worker, and `Start` one more. -/
def NodeProcess.start (currentBlock : UInt64) (workers : Nat) (out : Outside) : NodeProcess :=
  ⟨.start currentBlock workers, true, [], out, [], workers + 1, 0, .serving⟩

/-- What an invocation of `Process` gets from Redis and the simulation node, and
whether the background call assigns to its result before it is read. -/
structure Answers where
  cancelled : Except Err Bool
  simulated : Except Err SimMevBundleResponse
  rnonce : Except Err UInt64
  overwritten : Bool

/-- The errors of `Process` as `processNextItem` looks at them. -/
def ProcessErr.sentinels : ProcessErr → List Queue.Sentinel
  | .unrecoverable => [.unrecoverable]
  | .workerError => [.workerError]
  | .lagging => [.lagging]
  | .scheduleNextBlock => [.scheduleNextBlock]
  | .other _ => []

def Answers.result (answers : Answers) (p : Processed) : Queue.ProcessResult :=
  if answers.overwritten && p.handed.isSome then none else p.err.map ProcessErr.sentinels

inductive ProcessAction where
  | queue (a : Queue.Action)
  | processed (w : Nat) (answers : Answers)
  | call (i : Nat) (action : TaskAction)
  | callReturns (i : Nat)
  | signal
  | workerReturns (w : Nat)
  | updaterReturns
  | main

/-- The item on which the worker runs `Process`. -/
def NodeProcess.processing (n : NodeProcess) (w : Nat) : Option Queue.PackArgs :=
  match n.loop.queue.workers[w]? with
  | some (.processing args) => some args
  | _ => none

instance (t : SimTask) : Decidable t.Finished := inferInstanceAs (Decidable (_ ∧ _))

section Step
variable (s : SimulationResultBackend) (cfg : Queue.RedisQueueConfig) (unmarshal : Bytes → Except Err SendMevBundleArgs)

def processStep (n : NodeProcess) : ProcessAction → Option NodeProcess
  | .queue a =>
    -- a worker in `Process` goes on with `processed`
    if (a.worker?.bind n.processing).isSome then none
    else (Queue.loopStep cfg n.loop (.queue a)).map fun loop => { n with loop }
  | .processed w answers => do
    let args ← n.processing w
    let p ← (process s.deps (unmarshal args.data) args.minTargetBlock answers.cancelled answers.simulated
      answers.rnonce).toOption
    let loop ← Queue.loopStep cfg n.loop (.queue (.worker w ⟨answers.result p, false, false⟩))
    return { n with
      loop
      calls := n.calls ++ p.handed.toList.map fun task => ⟨args, task, false⟩
      backgroundWg := n.backgroundWg + p.handed.toList.length }
  | .call i action => do
    let c ← n.calls[i]?
    let (task, out) ← taskStep s (c.task, n.out) action
    return { n with
      calls := n.calls.set i { c with task }
      out
      sent := n.sent ++ if action = .send then [⟨c.item.key, c.item.minTargetBlock, c.task.sim.stateBlock + 1⟩] else [] }
  | .callReturns i => do
    let c ← n.calls[i]?
    if c.task.Finished ∧ c.returned = false then
      some { n with calls := n.calls.set i { c with returned := true }, backgroundWg := n.backgroundWg - 1 }
    else none
  | .signal => (Queue.loopStep cfg n.loop .cancel).map fun loop => { n with loop }
  | .workerReturns w =>
    if w ∈ n.loop.stopped then none
    else (Queue.loopStep cfg n.loop (.stop w)).map fun loop => { n with loop, queueWg := n.queueWg - 1 }
  | .updaterReturns =>
    if n.updating ∧ n.loop.cancelled then some { n with updating := false, queueWg := n.queueWg - 1 } else none
  | .main =>
    match n.main with
    | .serving => if n.loop.cancelled then some { n with main := .waitQueue } else none
    | .waitQueue => if n.queueWg = 0 then some { n with main := .waitBackground } else none
    | .waitBackground => if n.backgroundWg = 0 then some { n with main := .exited } else none
    | .exited => none

end Step

variable {s : SimulationResultBackend} {cfg : Queue.RedisQueueConfig}
  {unmarshal : Bytes → Except Err SendMevBundleArgs} {n n' : NodeProcess}

/-! ## What a turn does -/

/-- The waits of `main`. -/
inductive MainMove (n : NodeProcess) : MainPc → Prop
  | stopServing : MainMove n .waitQueue
  | queueDone : n.queueWg = 0 → MainMove n .waitBackground
  | backgroundDone : n.main = .waitBackground → n.backgroundWg = 0 → MainMove n .exited

/-- The turns of the process, one case for each kind of goroutine. -/
inductive ProcessEffect (s : SimulationResultBackend) (cfg : Queue.RedisQueueConfig)
    (unmarshal : Bytes → Except Err SendMevBundleArgs) (n : NodeProcess) : NodeProcess → Prop
  | queue {a queue} : Queue.loopStep cfg n.loop (.queue a) = some { n.loop with queue } →
      Queue.step cfg n.loop.queue (Queue.underContext n.loop.cancelled a) = some queue →
      ProcessEffect s cfg unmarshal n { n with loop := { n.loop with queue } }
  | processed {w queue args p} {answers : Answers} : n.loop.queue.workers[w]? = some (.processing args) →
      process s.deps (unmarshal args.data) args.minTargetBlock answers.cancelled answers.simulated answers.rnonce = .ok p →
      Queue.loopStep cfg n.loop (.queue (.worker w ⟨answers.result p, false, false⟩)) = some { n.loop with queue } →
      Queue.step cfg n.loop.queue (Queue.underContext n.loop.cancelled (.worker w ⟨answers.result p, false, false⟩)) =
        some queue →
      ProcessEffect s cfg unmarshal n { n with
        loop := { n.loop with queue }
        calls := n.calls ++ p.handed.toList.map fun task => ⟨args, task, false⟩
        backgroundWg := n.backgroundWg + p.handed.toList.length }
  | call {i c task out action} : n.calls[i]? = some c → taskStep s (c.task, n.out) action = some (task, out) →
      ProcessEffect s cfg unmarshal n { n with
        calls := n.calls.set i { c with task }
        out
        sent := n.sent ++ if action = .send then [⟨c.item.key, c.item.minTargetBlock, c.task.sim.stateBlock + 1⟩] else [] }
  | callReturns {i c} : n.calls[i]? = some c → c.task.Finished → c.returned = false →
      ProcessEffect s cfg unmarshal n { n with
        calls := n.calls.set i { c with returned := true }, backgroundWg := n.backgroundWg - 1 }
  | signal : ProcessEffect s cfg unmarshal n { n with loop := { n.loop with cancelled := true } }
  | workerReturns {w} : w ∉ n.loop.stopped → n.loop.queue.workers[w]? = some .idle →
      ProcessEffect s cfg unmarshal n { n with
        loop := { n.loop with stopped := w :: n.loop.stopped }, queueWg := n.queueWg - 1 }
  | updaterReturns : n.updating = true →
      ProcessEffect s cfg unmarshal n { n with updating := false, queueWg := n.queueWg - 1 }
  | main {pc} : MainMove n pc → ProcessEffect s cfg unmarshal n { n with main := pc }

theorem queue_of_loopStep {l l' : Queue.Loop} {a : Queue.Action} (h : Queue.loopStep cfg l (.queue a) = some l') :
    ∃ queue, Queue.step cfg l.queue (Queue.underContext l.cancelled a) = some queue ∧ l' = { l with queue } := by
  simp only [Queue.loopStep] at h
  split at h
  · cases h
  · obtain ⟨queue, hstep, rfl⟩ := Option.map_eq_some_iff.1 h
    exact ⟨queue, hstep, rfl⟩

theorem NodeProcess.processing_eq {w : Nat} {args : Queue.PackArgs} (h : n.processing w = some args) :
    n.loop.queue.workers[w]? = some (.processing args) := by
  unfold NodeProcess.processing at h
  split at h
  · rename_i heq
    rw [heq, Option.some.inj h]
  · cases h

theorem processStep_effect {a : ProcessAction} (h : processStep s cfg unmarshal n a = some n') :
    ProcessEffect s cfg unmarshal n n' := by
  cases a with
  | queue a =>
    simp only [processStep] at h
    split at h
    · cases h
    · obtain ⟨loop, hloop, rfl⟩ := Option.map_eq_some_iff.1 h
      obtain ⟨queue, hstep, rfl⟩ := queue_of_loopStep hloop
      exact .queue hloop hstep
  | processed w answers =>
    simp only [processStep, Option.bind_eq_bind, Option.bind_eq_some_iff, Option.pure_def, Option.some.injEq] at h
    obtain ⟨args, hpc, p, hp, loop, hloop, rfl⟩ := h
    obtain ⟨queue, hstep, rfl⟩ := queue_of_loopStep hloop
    cases hr : process s.deps (unmarshal args.data) args.minTargetBlock answers.cancelled answers.simulated
        answers.rnonce with
    | error e => simp [hr, Except.toOption] at hp
    | ok q =>
      obtain rfl : q = p := by simpa [hr, Except.toOption] using hp
      exact .processed (NodeProcess.processing_eq hpc) hr hloop hstep
  | call i action =>
    simp only [processStep, Option.bind_eq_bind, Option.bind_eq_some_iff, Option.pure_def, Option.some.injEq] at h
    obtain ⟨c, hc, ⟨task, out⟩, htask, rfl⟩ := h
    exact .call hc htask
  | callReturns i =>
    simp only [processStep, Option.bind_eq_bind, Option.bind_eq_some_iff] at h
    obtain ⟨c, hc, h⟩ := h
    obtain ⟨⟨hfinished, hrunning⟩, heq⟩ := Option.ite_none_right_eq_some.1 h
    cases heq
    exact .callReturns hc hfinished hrunning
  | signal =>
    cases h
    exact .signal
  | workerReturns w =>
    simp only [processStep] at h
    split at h
    · cases h
    · rename_i hrunning
      obtain ⟨loop, hloop, rfl⟩ := Option.map_eq_some_iff.1 h
      obtain ⟨hidle, heq⟩ := Option.ite_none_right_eq_some.1 hloop
      cases heq
      exact .workerReturns hrunning hidle.2
  | updaterReturns =>
    obtain ⟨⟨hupdating, -⟩, heq⟩ := Option.ite_none_right_eq_some.1 h
    cases heq
    exact .updaterReturns hupdating
  | main =>
    simp only [processStep] at h
    split at h
    · obtain ⟨-, heq⟩ := Option.ite_none_right_eq_some.1 h
      cases heq
      exact .main .stopServing
    · obtain ⟨hzero, heq⟩ := Option.ite_none_right_eq_some.1 h
      cases heq
      exact .main (.queueDone hzero)
    · rename_i hmain
      obtain ⟨hzero, heq⟩ := Option.ite_none_right_eq_some.1 h
      cases heq
      exact .main (.backgroundDone hmain hzero)
    · cases h

/-! ## Shutdown -/

theorem taskStep_of_finished {t : SimTask} (h : t.Finished) (out : Outside) (a : TaskAction) :
    taskStep s (t, out) a = none := by
  cases a with
  | store env => simp [taskStep, storeStep, h.1]
  | send => simp [taskStep, sendStep, h.2]

theorem length_workers_step {q q' : Queue.State} {a : Queue.Action} (h : Queue.step cfg q a = some q') :
    q'.workers.length = q.workers.length := by
  rcases Queue.step_workers h with heq | ⟨w, env, pc, -, heq⟩ <;> simp [heq]

/-- The counters stand for the goroutines that have not returned. -/
structure NodeProcess.Counted (nWorkers : Nat) (n : NodeProcess) : Prop where
  workers : n.loop.queue.workers.length = nWorkers
  stopped : n.loop.Stopped
  nodup : n.loop.stopped.Nodup
  queueWg : n.queueWg + n.loop.stopped.length = nWorkers + n.updating.toNat
  backgroundWg : n.backgroundWg = n.calls.countP (!·.returned)
  returned : ∀ c ∈ n.calls, c.returned = true → c.task.Finished

theorem length_le_of_nodup {ws : List Nat} {k : Nat} (hnodup : ws.Nodup) (hws : ∀ w ∈ ws, w < k) : ws.length ≤ k := by
  have hsub : ws ⊆ List.range k := fun w hw => List.mem_range.2 (hws w hw)
  simpa using (List.subperm_of_subset hnodup hsub).length_le

section Counted
variable {nWorkers : Nat}

theorem NodeProcess.Counted.lt (hn : n.Counted nWorkers) : ∀ w ∈ n.loop.stopped, w < nWorkers := by
  intro w hw
  rw [← hn.workers]
  exact (List.getElem?_eq_some_iff.1 (hn.stopped w hw)).1

/-- As long as a worker has not returned, there is one more of them than have. -/
theorem NodeProcess.Counted.length_lt {w : Nat} (hn : n.Counted nWorkers) (hw : w < nWorkers)
    (hrunning : w ∉ n.loop.stopped) : n.loop.stopped.length < nWorkers := by
  refine length_le_of_nodup (List.nodup_cons.2 ⟨hrunning, hn.nodup⟩) fun v hv => ?_
  rcases List.mem_cons.1 hv with rfl | hv
  · exact hw
  · exact hn.lt v hv

/-- When the first counter is zero, the workers and the updating goroutine have returned. -/
theorem NodeProcess.Counted.done (hn : n.Counted nWorkers) (hzero : n.queueWg = 0) :
    n.updating = false ∧ n.loop.Done := by
  have hcount := hn.queueWg
  have hle := length_le_of_nodup hn.nodup hn.lt
  refine ⟨?_, fun w hw => ?_⟩
  · cases hu : n.updating with
    | false => rfl
    | true =>
      rw [hu, Bool.toNat_true] at hcount
      omega
  · by_contra hrunning
    have hlt := hn.length_lt (hn.workers ▸ hw) hrunning
    omega

theorem NodeProcess.Counted.step (hn : n.Counted nWorkers) (h : ProcessEffect s cfg unmarshal n n') :
    n'.Counted nWorkers := by
  cases h with
  | queue hloop hstep =>
    exact ⟨(length_workers_step hstep).trans hn.workers, Queue.stopped_step hn.stopped hloop, hn.nodup, hn.queueWg,
      hn.backgroundWg, hn.returned⟩
  | @processed w queue args p answers _ _ hloop hstep =>
    refine ⟨(length_workers_step hstep).trans hn.workers, Queue.stopped_step hn.stopped hloop, hn.nodup, hn.queueWg,
      ?_, fun c hc hret => ?_⟩
    · simp only [List.countP_append, ← hn.backgroundWg]
      cases p.handed <;> simp
    · rcases List.mem_append.1 hc with hc | hc
      · exact hn.returned c hc hret
      · obtain ⟨task, -, rfl⟩ := List.mem_map.1 hc
        cases hret
  | @call i c task out action hc htask =>
    -- a call that has returned has no step left
    have hrunning : c.returned = false := by
      by_contra hret
      have hfinished := hn.returned c (List.mem_of_getElem? hc) (by simpa using hret)
      rw [taskStep_of_finished hfinished] at htask
      cases htask
    refine ⟨hn.workers, hn.stopped, hn.nodup, hn.queueWg, ?_, fun d hd hret => ?_⟩
    · obtain ⟨others, hperm, hset⟩ := exists_others hc
      simp only [hn.backgroundWg, hperm.countP_eq, (hset _).countP_eq, List.countP_cons]
    · rcases List.mem_or_eq_of_mem_set hd with hd | rfl
      · exact hn.returned d hd hret
      · exact absurd hret (by simp [hrunning])
  | callReturns hc hfinished hrunning =>
    refine ⟨hn.workers, hn.stopped, hn.nodup, hn.queueWg, ?_, fun d hd hret => ?_⟩
    · obtain ⟨others, hperm, hset⟩ := exists_others hc
      simp [hn.backgroundWg, hperm.countP_eq, (hset _).countP_eq, hrunning]
    · rcases List.mem_or_eq_of_mem_set hd with hd | rfl
      · exact hn.returned d hd hret
      · exact hfinished
  | signal => exact ⟨hn.workers, hn.stopped, hn.nodup, hn.queueWg, hn.backgroundWg, hn.returned⟩
  | workerReturns hrunning hidle =>
    have hlt := hn.length_lt (hn.workers ▸ (List.getElem?_eq_some_iff.1 hidle).1) hrunning
    have hcount := hn.queueWg
    refine ⟨hn.workers, ?_, List.nodup_cons.2 ⟨hrunning, hn.nodup⟩, ?_, hn.backgroundWg, hn.returned⟩
    · intro v hv
      rcases List.mem_cons.1 hv with rfl | hv
      · exact hidle
      · exact hn.stopped v hv
    · simp only [List.length_cons]
      omega
  | updaterReturns hupdating =>
    have hle := length_le_of_nodup hn.nodup hn.lt
    have hcount := hn.queueWg
    rw [hupdating, Bool.toNat_true] at hcount
    refine ⟨hn.workers, hn.stopped, hn.nodup, ?_, hn.backgroundWg, hn.returned⟩
    simp only [Bool.toNat_false]
    omega
  | main => exact ⟨hn.workers, hn.stopped, hn.nodup, hn.queueWg, hn.backgroundWg, hn.returned⟩

end Counted

/-- What `main` has waited for. -/
structure NodeProcess.Waited (n : NodeProcess) : Prop where
  queue : n.main = .waitBackground ∨ n.main = .exited → n.updating = false ∧ n.loop.Done
  background : n.main = .exited → ∀ c ∈ n.calls, c.task.Finished

/-- Once the workers have returned, none is in `Process`. -/
theorem not_processing_of_done {w : Nat} {args : Queue.PackArgs} (hstopped : n.loop.Stopped) (hdone : n.loop.Done) :
    n.loop.queue.workers[w]? ≠ some (.processing args) := by
  intro hpc
  have hidle := hstopped w (hdone w (List.getElem?_eq_some_iff.1 hpc).1)
  rw [hidle] at hpc
  cases hpc

theorem NodeProcess.Waited.step {nWorkers : Nat} (hcounted : n.Counted nWorkers) (hn : n.Waited)
    (h : ProcessEffect s cfg unmarshal n n') : n'.Waited := by
  cases h with
  | queue _ hstep =>
    refine ⟨fun hm => ⟨(hn.queue hm).1, fun w hw => ?_⟩, hn.background⟩
    exact (hn.queue hm).2 w (length_workers_step hstep ▸ hw)
  | processed hpc _ _ _ =>
    have hnot : ¬n.loop.Done := fun hdone => not_processing_of_done hcounted.stopped hdone hpc
    exact ⟨fun hm => absurd (hn.queue hm).2 hnot, fun hm => absurd (hn.queue (.inr hm)).2 hnot⟩
  | call hc htask =>
    refine ⟨hn.queue, fun hm => ?_⟩
    rw [taskStep_of_finished (hn.background hm _ (List.mem_of_getElem? hc))] at htask
    cases htask
  | callReturns hc hfinished _ =>
    refine ⟨hn.queue, fun hm d hd => ?_⟩
    rcases List.mem_or_eq_of_mem_set hd with hd | rfl
    · exact hn.background hm d hd
    · exact hfinished
  | signal => exact ⟨hn.queue, hn.background⟩
  | workerReturns =>
    exact ⟨fun hm => ⟨(hn.queue hm).1, fun w hw => List.mem_cons_of_mem _ ((hn.queue hm).2 w hw)⟩, hn.background⟩
  | updaterReturns => exact ⟨fun hm => ⟨rfl, (hn.queue hm).2⟩, hn.background⟩
  | main hmove =>
    cases hmove with
    | stopServing => exact ⟨by simp, by simp⟩
    | queueDone hzero => exact ⟨fun _ => hcounted.done hzero, by simp⟩
    | backgroundDone hmain hzero =>
      refine ⟨fun _ => hn.queue (.inl hmain), fun _ c hc => hcounted.returned c hc ?_⟩
      have hnone := List.countP_eq_zero.1 (hcounted.backgroundWg ▸ hzero) c hc
      simpa using hnone

/-- When `main` returns, the workers and the updating goroutine have returned and
every result that was handed over is dealt with. From the end of the first wait
on no worker is in `Process`, so nothing is added to the wait group of the second
one. -/
theorem main_waits_for_calls {block : UInt64} {nWorkers : Nat} {out : Outside} {tr : List (NodeProcess × ProcessAction)}
    (hrun : Run (processStep s cfg unmarshal) (.start block nWorkers out) tr n) :
    (n.main = .waitBackground ∨ n.main = .exited → n.updating = false ∧ n.loop.Done ∧ ∀ w, n.processing w = none) ∧
      (n.main = .exited → ∀ c ∈ n.calls, c.task.Finished) := by
  have hinv : n.Counted nWorkers ∧ n.Waited := by
    refine @Run.inv _ _ _ _ (fun _ _ => True) (fun n : NodeProcess => n.Counted nWorkers ∧ n.Waited) ?_ ?_ _ _ hrun
      fun _ _ => trivial
    · refine ⟨⟨?_, ?_, ?_, ?_, rfl, ?_⟩, ⟨?_, ?_⟩⟩ <;>
        simp [NodeProcess.start, Queue.Loop.start, Queue.State.start, Queue.Loop.Stopped]
    · intro n a n' hn _ hstep
      exact ⟨hn.1.step (processStep_effect hstep), hn.2.step hn.1 (processStep_effect hstep)⟩
  obtain ⟨hcounted, hwaited⟩ := hinv
  refine ⟨fun hm => ?_, hwaited.background⟩
  obtain ⟨hupdating, hdone⟩ := hwaited.queue hm
  refine ⟨hupdating, hdone, fun w => Option.eq_none_iff_forall_ne_some.2 fun args hargs => ?_⟩
  exact not_processing_of_done hcounted.stopped hdone (NodeProcess.processing_eq hargs)

/-! ## One call for each block -/

/-- The item and the block that it was processed for. -/
def BackgroundCall.processedFor (c : BackgroundCall) : Queue.Key × UInt64 := (c.item.key, c.item.minTargetBlock)

/-- The call of `SendBundle` that is still to come. -/
def BackgroundCall.toSend (c : BackgroundCall) : Multiset (Queue.Key × UInt64) :=
  if c.task.sending then {c.processedFor} else 0

/-- When `Process` hands over a result, it does not ask for the same block again, also if its own result is lost. -/
theorem handed_concludes {data : Except Err SendMevBundleArgs} {targetBlock : UInt64} {answers : Answers} {p : Processed}
    {t : SimTask}
    (h : process s.deps data targetBlock answers.cancelled answers.simulated answers.rnonce = .ok p)
    (ht : p.handed = some t) : Queue.Concludes (answers.result p) := by
  unfold Answers.result
  split
  · exact ⟨by simp [Queue.verdict], by simp [Queue.verdict]⟩
  · cases process_path h with
    | stops | nextBlock => cases ht
    | cancels | hands =>
      dsimp only
      split <;> decide

theorem finishProcess_events (q : Queue.State) (a : Queue.PackArgs) (r : Queue.ProcessResult) :
    (Queue.finishProcess cfg (q.log (.returned a r)) a r).2.events = q.events ++ [.returned a r] := by
  have hretry (incrIteration incrBlock : Bool) :
      (Queue.retry cfg (q.log (.returned a r)) a incrIteration incrBlock r).2.events = q.events ++ [.returned a r] := by
    rcases Queue.retry_cases cfg (q.log (.returned a r)) a incrIteration incrBlock r with
      ⟨-, -, heq⟩ | ⟨-, heq⟩ | ⟨-, -, heq⟩ <;> rw [heq] <;> rfl
  unfold Queue.finishProcess
  cases Queue.verdict r with
  | retry | nextBlock | lagging | success => exact hretry ..
  | unrecoverable | unknown => rfl

/-- The calls are for blocks that were concluded, and each sends once. -/
structure NodeProcess.Targeted (n : NodeProcess) : Prop where
  sound : Queue.Sound n.loop.queue
  handed : (n.calls.map BackgroundCall.processedFor).Sublist (Queue.conclusions n.loop.queue.events)
  sent : (n.sent.map SentBundle.processedFor : Multiset (Queue.Key × UInt64)) + (n.calls.map BackgroundCall.toSend).sum ≤
    (n.calls.map BackgroundCall.processedFor : List (Queue.Key × UInt64))

theorem taskStep_sending {t t' : SimTask} {out out' : Outside} {a : TaskAction}
    (h : taskStep s (t, out) a = some (t', out')) :
    (a = .send ∧ t.sending = true ∧ t'.sending = false) ∨ (a ≠ .send ∧ t'.sending = t.sending) := by
  cases a with
  | store env =>
    refine .inr ⟨by simp, ?_⟩
    simp only [taskStep, storeStep] at h
    repeat' split at h
    all_goals cases h <;> rfl
  | send =>
    simp only [taskStep, sendStep] at h
    split at h
    · rename_i hsending
      split at h
      · cases h
        exact .inl ⟨rfl, hsending, rfl⟩
      · cases h
    · cases h

/-- What a call may still send is for the block that its item was processed for. -/
theorem toSend_le (c : BackgroundCall) : c.toSend ≤ {c.processedFor} := by
  unfold BackgroundCall.toSend
  split
  · exact le_refl _
  · exact Multiset.zero_le _

theorem NodeProcess.Targeted.step (hn : n.Targeted) (h : ProcessEffect s cfg unmarshal n n') : n'.Targeted := by
  cases h with
  | queue _ hstep =>
    exact ⟨Queue.sound_step hn.sound hstep, hn.handed.trans (Queue.conclusions_step hn.sound hstep), hn.sent⟩
  | @processed w queue args p answers hpc hp _ hstep =>
    have hevents : queue.events = n.loop.queue.events ++ [.returned args (answers.result p)] := by
      simp only [Queue.underContext, Queue.step, hpc, Option.bind_eq_bind, Option.bind_some, Queue.workerTurn,
        Option.pure_def, Option.some.injEq] at hstep
      rw [← hstep]
      exact finishProcess_events ..
    refine ⟨Queue.sound_step hn.sound hstep, ?_, ?_⟩
    · cases ht : p.handed with
      | none => simpa using hn.handed.trans (Queue.conclusions_step hn.sound hstep)
      | some t =>
        -- the conclusion that the return adds is the block of the new call
        rw [hevents, Queue.conclusions_append, List.map_append]
        refine hn.handed.append ?_
        simp [Queue.Event.concluded?, handed_concludes hp ht, BackgroundCall.processedFor]
    · cases ht : p.handed with
      | none => simpa using hn.sent
      | some t =>
        simp only [Option.toList_some, List.map_cons, List.map_nil, List.map_append, List.sum_append, List.sum_cons,
          List.sum_nil, add_zero, ← Multiset.coe_add, ← add_assoc]
        exact add_le_add hn.sent (toSend_le _)
  | @call i c task out action hc htask =>
    have htargets : (n.calls.set i { c with task }).map BackgroundCall.processedFor =
        n.calls.map BackgroundCall.processedFor := map_set_same _ hc rfl
    obtain ⟨rest, hsum, hset⟩ := exists_rest BackgroundCall.toSend hc
    have hsent := hn.sent
    rw [hsum] at hsent
    refine ⟨hn.sound, htargets ▸ hn.handed, ?_⟩
    rw [htargets, hset]
    rcases taskStep_sending htask with ⟨rfl, hbefore, hafter⟩ | ⟨hne, hsame⟩
    · -- the block moves from what is to be sent to what was sent
      have hto : c.toSend = {(c.item.key, c.item.minTargetBlock)} := by
        simp [BackgroundCall.toSend, hbefore, BackgroundCall.processedFor]
      have hto' : BackgroundCall.toSend { c with task } = 0 := by simp [BackgroundCall.toSend, hafter]
      rw [hto] at hsent
      rw [hto', zero_add, if_pos rfl, List.map_append, List.map_singleton, coe_snoc, add_assoc, add_left_comm]
      exact hsent
    · have hto : BackgroundCall.toSend { c with task } = c.toSend := by
        simp only [BackgroundCall.toSend, BackgroundCall.processedFor, hsame]
      rw [hto, if_neg hne, List.append_nil]
      exact hsent
  | @callReturns i c hc _ _ =>
    have htargets : (n.calls.set i { c with returned := true }).map BackgroundCall.processedFor =
        n.calls.map BackgroundCall.processedFor := map_set_same _ hc rfl
    have hto : (n.calls.set i { c with returned := true }).map BackgroundCall.toSend =
        n.calls.map BackgroundCall.toSend := map_set_same _ hc rfl
    exact ⟨hn.sound, by rw [htargets]; exact hn.handed, by rw [htargets, hto]; exact hn.sent⟩
  | signal | workerReturns | updaterReturns | main => exact ⟨hn.sound, hn.handed, hn.sent⟩

/-- An invocation of `Process` whose simulation on this state is successful. -/
def simulatedOn (stateBlock : UInt64) : ProcessAction :=
  .processed 0 ⟨.ok false, .ok { quietSim [0] with stateBlock }, .ok 0, false⟩

/-- The background call with this number, up to its return. -/
def backgroundSteps (i calls : Nat) : List ProcessAction :=
  .call i .send :: List.replicate calls (.call i (.store fineEnv)) ++ [.callReturns i]

/-- An item is processed for the blocks 2 and 3, and the node shuts down. -/
def twoBlocksRun : List ProcessAction :=
  (Queue.pushed ⟨[7], false, 2, 3, 0⟩).map .queue ++
    (List.replicate 2 (.queue (Queue.worked none)) ++ simulatedOn 1 :: backgroundSteps 0 3) ++
    (List.replicate 5 (.queue (Queue.worked none)) ++ [.queue (.update 2), .queue (.updateStep 0), .queue (.updateStep 0)]) ++
    (List.replicate 2 (.queue (Queue.worked none)) ++ [.signal, .main, simulatedOn 2, .workerReturns 0, .updaterReturns, .main]) ++
    backgroundSteps 1 2 ++ [.main]

theorem exists_twoBlocksRun :
    ∃ tr n, Run (processStep bareBackend Queue.smallConfig fun _ => .ok replaceableTx) (.start 1 1 nothing) tr n ∧
      n.main = .exited ∧ n.calls.length = 2 ∧ n.sent.map (fun x => (x.block, x.targetBlock)) = [(2, 2), (3, 3)] ∧
      n.loop.queue.pushes = [⟨⟨[7], false, 2, 3, 0⟩, .returned none⟩] := by
  have hexec : (List.foldlM (processStep bareBackend Queue.smallConfig fun _ => .ok replaceableTx) (.start 1 1 nothing)
        twoBlocksRun).map
          (fun n => (n.main, n.calls.length, n.sent.map fun x => (x.block, x.targetBlock), n.loop.queue.pushes)) =
      some (.exited, 2, [(2, 2), (3, 3)], [⟨⟨[7], false, 2, 3, 0⟩, .returned none⟩]) := by
    decide +kernel
  obtain ⟨n, hn, hend⟩ := Option.map_eq_some_iff.1 hexec
  obtain ⟨tr, hrun, -⟩ := run_of_foldlM hn
  simp only [Prod.mk.injEq] at hend
  exact ⟨tr, n, hrun, hend⟩

theorem main_waits_for_calls_two_blocks :
    ∃ tr n, Run (processStep bareBackend Queue.smallConfig fun _ => .ok replaceableTx) (.start 1 1 nothing) tr n ∧
      n.main = .exited ∧ n.calls.length = 2 ∧ ∀ c ∈ n.calls, c.task.Finished := by
  obtain ⟨tr, n, hrun, hmain, hcalls, -⟩ := exists_twoBlocksRun
  exact ⟨tr, n, hrun, hmain, hcalls, (main_waits_for_calls hrun).2 hmain⟩

end MevShare
