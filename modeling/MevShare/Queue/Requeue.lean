import MevShare.Queue.Admission
import MevShare.Queue.Conservation
/-!
# Requeues and the limits of the queue

A requeue passes the same check as a new item, after the pop has given up the
item's place. If the queue has filled up in between, the requeue is refused, and
once the backoff has run out the item is dropped. As long as the queue has room for
what the workers hold (`Roomy`), no requeue is refused, and an accepted item stays
somewhere until it is finished for a reason of its own (`requeue_keeps_items`).
-/
open Lib

namespace MevShare.Queue

variable {cfg : RedisQueueConfig} {lossless inTime : Prop} {b b' : Board}

/-! ## Items that stay -/

/-- Every accepted item is on the board or finished; items that are the same to
Redis stand for each other. -/
def Board.Covered (b : Board) : Prop := ∀ c ∈ b.accepted, ∃ a ∈ b.items, a.key = c.key

theorem covered_move (h : Move cfg lossless inTime b b') (hb : b.Covered) : b'.Covered := by
  rcases h.items with ⟨hacc, hitems⟩ | ⟨a, a', merged, rest, hlater, hkeys, hitems, hitems', hacc⟩ |
    ⟨c, a, merged, rest, hfits, hkeys, hitems, hitems', hacc⟩
  · intro c hc
    rw [hitems]
    exact hb c (hacc ▸ hc)
  · intro c hc
    obtain ⟨x, hx, hkey⟩ := hb c (hacc ▸ hc)
    simp only [hitems, hitems', Multiset.mem_add, Multiset.mem_singleton] at hx ⊢
    -- an item that was absorbed has left its key to the one that absorbed it
    rcases hx with rfl | hx | hx
    · exact ⟨a', .inl rfl, hlater.key.trans hkey⟩
    · exact ⟨a', .inl rfl, by rw [hlater.key, ← hkeys x hx, hkey]⟩
    · exact ⟨x, .inr hx, hkey⟩
  · intro c' hc'
    simp only [hacc, Multiset.mem_add, Multiset.mem_singleton] at hc'
    simp only [hitems', Multiset.mem_add, Multiset.mem_singleton]
    rcases hc' with rfl | hc'
    · exact ⟨_, .inl rfl, hfits.key⟩
    · obtain ⟨x, hx, hkey⟩ := hb c' hc'
      rw [hitems, Multiset.mem_add] at hx
      rcases hx with hx | hx
      · exact ⟨_, .inl rfl, (hkeys x hx).symm.trans hkey⟩
      · exact ⟨x, .inr hx, hkey⟩

/-- After a run that gives up no requeue, every accepted item is somewhere, and
every finished one has a reason. -/
theorem retained_run {block : UInt64} {nWorkers : Nat} {tr : List (State × Action)} {s : State}
    (hrun : Run (step cfg) (State.start block nWorkers) tr s) (hok : ∀ p ∈ tr, Retained cfg p.1 p.2) :
    (s.board cfg).Covered ∧ ∀ f ∈ s.finished, Explained cfg s.events f := by
  have hinv := board_inv (fun b => b.Covered ∧ b.Running ∧ ∀ f ∈ b.finished, Explained cfg b.events f)
    (by simp [Board.Covered, Board.Running])
    (fun _ _ _ _ hl hb hmove =>
      ⟨covered_move hmove hb.1, running_move hmove hb.2.1, explained_move hmove hl hb.2.1 hb.2.2⟩) hrun hok
  exact ⟨hinv.1, hinv.2.2⟩

/-! ## The limits -/

/-- No Redis command of the turn fails. -/
def NoFault : Action → Prop
  | .pushStep _ fails => fails = false
  | .worker _ env => env.fails = false
  | _ => True

instance : DecidablePred NoFault
  | .pushStep _ fails => instDecidableEqBool fails false
  | .worker _ env => instDecidableEqBool env.fails false
  | .push _ | .update _ | .updateStep _ => instDecidableTrue

/-- The items that workers have taken out of the sorted set and not finished. -/
def State.held (s : State) : List PackArgs := s.workers.filterMap WorkerPc.item

/-- The block that a call in progress has read, while it counts for that block. -/
def PushStage.readBlock : PushStage → Option UInt64
  | .count nextBlock => some (nextBlock - 1)
  | .countLater nextBlock _ => some (nextBlock - 1)
  | _ => none

def WorkerPc.readBlock : WorkerPc → Option UInt64
  | .requeue _ stage => stage.readBlock
  | _ => none

/-- There is room for what the workers hold. In each class, those in the sorted
set and all that workers hold, which may come back to either class, stay within
the threshold of every held item. The classes are those of the current block and
of the blocks that requeues in progress have read. -/
def Roomy (cfg : RedisQueueConfig) (s : State) : Prop :=
  ∀ a ∈ s.held, ∀ block ∈ s.currentBlock :: s.workers.filterMap WorkerPc.readBlock, ∀ now,
    queued block now s.redis + s.held.length ≤ (threshold cfg now a.highPriority).toNat

-- the instance is given, since blocks are also a finite type, but not one to go through
instance (cfg : RedisQueueConfig) (s : State) : Decidable (Roomy cfg s) :=
  @List.decidableBAll _ _ (fun _ => List.decidableBAll _ _) _

/-- What a requeue has counted so far is below the threshold of its item, for either class. -/
def WorkerPc.Below (cfg : RedisQueueConfig) : WorkerPc → Prop
  | .requeue a stage => ∀ now, ∀ n ∈ stage.counted now, n < (threshold cfg now a.highPriority).toNat
  | _ => True

variable {s s' : State}

/-- A held item leaves one place below every threshold. -/
theorem Roomy.queued_lt (h : Roomy cfg s) {pc : WorkerPc} (hpc : pc ∈ s.workers) {a : PackArgs} (ha : pc.item = some a)
    {nextBlock : UInt64} (hblock : pc.readBlock = some (nextBlock - 1)) (now : Bool) :
    queued (nextBlock - 1) now s.redis < (threshold cfg now a.highPriority).toNat := by
  have hheld : a ∈ s.held := List.mem_filterMap.2 ⟨pc, hpc, ha⟩
  have hread : nextBlock - 1 ∈ s.workers.filterMap WorkerPc.readBlock := List.mem_filterMap.2 ⟨pc, hpc, hblock⟩
  have hroom := h a hheld _ (List.mem_cons_of_mem _ hread) now
  have hone : 0 < s.held.length := List.length_pos_of_mem hheld
  omega

/-- A worker that has not counted anything yet is below every threshold. -/
theorem WorkerPc.Fresh.below {pc : WorkerPc} (h : pc.Fresh) : pc.Below cfg := by
  rcases h with hzero | ⟨a, rfl⟩
  · cases pc with
    | requeue a stage => simp [WorkerPc.calls] at hzero
    | _ => trivial
  · intro now n hn
    cases hn

theorem goOn_below {a : PackArgs} {stage stage' : PushStage} (hroom : Roomy cfg s)
    (hpc : .requeue a stage ∈ s.workers) (hbelow : WorkerPc.Below cfg (.requeue a stage))
    (h : pushToQueue cfg s.currentBlock s.redis a stage = .goOn stage') : WorkerPc.Below cfg (.requeue a stage') := by
  cases stage with
  | begin =>
    cases h
    intro now n hn
    cases hn
  | count nextBlock =>
    cases h
    intro now n hn
    -- only the processable items are counted so far
    cases now with
    | false => cases hn
    | true =>
      cases hn
      have hlt := hroom.queued_lt hpc rfl rfl true
      rwa [queued, if_pos rfl, UInt64.sub_add_cancel] at hlt
  | countLater nextBlock processable =>
    cases h
    intro now n hn
    cases now with
    | true =>
      cases hn
      exact hbelow true processable rfl
    | false =>
      cases hn
      have hlt := hroom.queued_lt hpc rfl rfl false
      rwa [queued, if_neg Bool.false_ne_true, UInt64.sub_add_cancel] at hlt
  | check processable unprocessable =>
    rcases pushToQueue_check cfg s.currentBlock s.redis a processable unprocessable with ⟨-, heq⟩ | heq
    · rw [heq] at h
      cases h
      intro now n hn
      cases hn
    · rw [heq] at h
      cases h
  | add => cases h

/-- A requeue that has counted below the thresholds is not refused. -/
theorem not_full_of_below {a : PackArgs} {stage : PushStage} (h : WorkerPc.Below cfg (.requeue a stage)) :
    pushToQueue cfg s.currentBlock s.redis a stage ≠ .full := by
  cases stage with
  | check processable unprocessable =>
    have hlt := h (a.minTargetBlock ≤ s.currentBlock + 1) _ rfl
    simp only [pushToQueue, ge_iff_le, Nat.not_le.2 hlt, ↓reduceIte, ne_eq, reduceCtorEq, not_false_eq_true]
  | _ =>
    intro hfull
    cases hfull

/-- A turn of a worker begins a call, ends one or takes it one access further. -/
theorem workerTurn_fresh {env : WorkerEnv} {pc pc' : WorkerPc} (h : workerTurn cfg s env pc = some (pc', s')) :
    pc'.Fresh ∨ ∃ a stage stage', pc = .requeue a stage ∧ pc' = .requeue a stage' ∧
      pushToQueue cfg s.currentBlock s.redis a stage = .goOn stage' := by
  cases pc with
  | idle =>
    simp only [workerTurn] at h
    split at h
    · cases h
      exact .inl (.inl rfl)
    · split at h
      · cases h
      · split at h
        · cases h
          exact .inl (.inl rfl)
        · cases h
          exact .inl (.inl rfl)
  | popped a =>
    obtain ⟨rfl, rfl⟩ := Prod.ext_iff.1 (Option.some.inj h)
    exact .inl (dispatch_fresh s a).1
  | processing a =>
    obtain ⟨rfl, rfl⟩ := Prod.ext_iff.1 (Option.some.inj h)
    exact .inl (finishProcess_fresh _ a env.result).1
  | requeue a stage =>
    simp only [workerTurn] at h
    split at h
    · obtain ⟨rfl, rfl⟩ := Prod.ext_iff.1 (Option.some.inj h)
      exact .inl (refused_fresh s a env.giveUp).1
    · split at h
      · rename_i hgo
        cases h
        exact .inr ⟨a, stage, _, rfl, rfl, hgo⟩
      · obtain ⟨rfl, rfl⟩ := Prod.ext_iff.1 (Option.some.inj h)
        exact .inl (refused_fresh s a env.giveUp).1
      · cases h
        exact .inl (.inl rfl)

/-- As long as there is room, what requeues have counted stays below the thresholds. -/
theorem below_step {a : Action} (hroom : Roomy cfg s) (hs : ∀ pc ∈ s.workers, pc.Below cfg)
    (h : step cfg s a = some s') : ∀ pc ∈ s'.workers, pc.Below cfg := by
  rcases step_workers h with heq | ⟨w, env, -, rfl, -⟩
  · exact heq ▸ hs
  · obtain ⟨pc, pc', next, hpc, hturn, rfl⟩ := worker_step h
    intro q hq
    rcases List.mem_or_eq_of_mem_set hq with hq | rfl
    · exact hs q hq
    · rcases workerTurn_fresh hturn with hfresh | ⟨a, stage, stage', rfl, rfl, hgo⟩
      · exact hfresh.below
      · have hmem := List.mem_of_getElem? hpc
        exact goOn_below hroom hmem (hs _ hmem) hgo

/-- No requeue is given up in a run that leaves room for what the workers hold. -/
theorem retained_of_roomy {block : UInt64} {nWorkers : Nat} {tr : List (State × Action)}
    (hrun : Run (step cfg) (State.start block nWorkers) tr s) (hok : ∀ p ∈ tr, NoFault p.2 ∧ Roomy cfg p.1) :
    ∀ p ∈ tr, Retained cfg p.1 p.2 := by
  intro p hp
  obtain ⟨before, after, rfl⟩ := List.append_of_mem hp
  have hbefore := (hrun.fired before p.1 p.2 after rfl).1
  have hbelow : ∀ pc ∈ p.1.workers, pc.Below cfg := by
    refine @Run.inv _ _ _ _ (fun s _ => Roomy cfg s) (fun s => ∀ pc ∈ s.workers, pc.Below cfg) ?_
      (fun _ _ _ hs hroom hstep => below_step hroom hs hstep) _ _ hbefore fun q hq => (hok q (List.mem_append_left _ hq)).2
    intro pc hpc
    rw [List.eq_of_mem_replicate hpc]
    trivial
  obtain ⟨q, a⟩ := p
  cases a with
  | worker w env =>
    have hfails : env.fails = false := (hok _ hp).1
    intro args stage hpc _
    exact ⟨by simp [hfails], not_full_of_below (hbelow _ (List.mem_of_getElem? hpc))⟩
  | _ => trivial

/-- As long as there is room for what the workers hold, no item is dropped: every
accepted item is in the sorted set, held by a worker or finished, and what is
finished has a reason of its own. -/
theorem requeue_keeps_items {block : UInt64} {nWorkers : Nat} {tr : List (State × Action)} {s : State}
    (hrun : Run (step cfg) (State.start block nWorkers) tr s) (hok : ∀ p ∈ tr, NoFault p.2 ∧ Roomy cfg p.1) :
    (∀ p ∈ s.pushes, p.pc = .returned none → s.copies cfg p.call.key ≠ 0) ∧
      ∀ f ∈ s.finished, f.outcome ≠ .lost ∧ Explained cfg s.events f := by
  obtain ⟨hcovered, hexplained⟩ := retained_run hrun (retained_of_roomy hrun hok)
  constructor
  · intro p hp hpc
    obtain ⟨a, ha, hkey⟩ := hcovered p.call (mem_accepted.2 ⟨p, hp, hpc, rfl⟩)
    rw [copies_eq_count, Multiset.count_ne_zero, ← hkey]
    exact Multiset.mem_map_of_mem _ ha
  · intro f hf
    refine ⟨fun hlost => ?_, hexplained f hf⟩
    have hreason := hexplained f hf
    simp only [Explained, hlost] at hreason

def twoItems : RedisQueueConfig := ⟨2, 2, 2, 2, 2, 0⟩

/-- Two items for block 1 are pushed. -/
def pushedPair : List Action :=
  pushed (untilBlockOne 1) ++ .push { untilBlockOne 1 with data := [8] } :: List.replicate 6 (.pushStep 1 false)

/-- The queue is full with two items, and the one whose worker failed goes back to it. -/
theorem requeue_keeps_items_retried :
    ∃ tr s, Run (step twoItems) (State.start 0 1) tr s ∧ (∀ p ∈ tr, NoFault p.2 ∧ Roomy twoItems p.1) ∧
      s.pushes.map Push.pc = [.returned none, .returned none] ∧ s.redis.length = 2 ∧ s.events.length = 2 ∧
      ∀ p ∈ s.pushes, s.copies twoItems p.call.key ≠ 0 := by
  have hseen : ((pushedPair ++ List.replicate 8 (worked (some [.workerError]))).foldlM
        (fun s a => if NoFault a ∧ Roomy twoItems s then step twoItems s a else none) (State.start 0 1)).map
        (fun s => (s.pushes.map Push.pc, s.redis.length, s.events.length)) =
      some ([.returned none, .returned none], 2, 2) := by decide +kernel
  obtain ⟨s, hexec, hs⟩ := Option.map_eq_some_iff.1 hseen
  simp only [Prod.mk.injEq] at hs
  obtain ⟨hpushes, hredis, hevents⟩ := hs
  obtain ⟨tr, hrun, hok⟩ := run_of_checked hexec
  refine ⟨tr, s, hrun, hok, hpushes, hredis, hevents, fun p hp => ?_⟩
  have hpc : p.pc ∈ s.pushes.map Push.pc := List.mem_map_of_mem hp
  rw [hpushes, List.mem_pair, or_self] at hpc
  exact (requeue_keeps_items hrun hok).1 p hp hpc

def oneItem : RedisQueueConfig := ⟨2, 1, 1, 1, 1, 0⟩

/-- With room for one item: while a worker processes an item another one is
pushed, the worker fails, and its item is dropped when the backoff runs out. -/
theorem accepted_item_dropped :
    ∃ tr s, Run (step oneItem) (State.start 0 1) tr s ∧ (∀ p ∈ tr, NoFault p.2) ∧
      ⟨untilBlockOne 1, .returned none⟩ ∈ s.pushes ∧
      s.finished = [⟨⟨[7], 1, 1, false, 0, 1⟩, .lost⟩] ∧ s.workers = [.idle] ∧
      s.redis.map (fun e => (unpackData 0 e.1 e.2).map PackArgs.data) = [some [8]] := by
  have hfollows : ∃ s, Follows (step oneItem) (fun _ a => NoFault a) (State.start 0 1)
      (pushed (untilBlockOne 1) ++ [worked none, worked none] ++
        .push { untilBlockOne 1 with data := [8] } :: List.replicate 6 (.pushStep 1 false) ++
        List.replicate 4 (worked (some [.workerError])) ++ [.worker 0 ⟨none, false, true⟩]) s ∧
      ⟨untilBlockOne 1, .returned none⟩ ∈ s.pushes ∧
      s.finished = [⟨⟨[7], 1, 1, false, 0, 1⟩, .lost⟩] ∧ s.workers = [.idle] ∧
      s.redis.map (fun e => (unpackData 0 e.1 e.2).map PackArgs.data) = [some [8]] :=
    ⟨_, ⟨trivial, _, rfl, rfl, _, rfl, rfl, _, rfl, rfl, _, rfl, rfl, _, rfl, rfl, _, rfl, rfl, _, rfl, rfl, _, rfl,
      rfl, _, rfl, trivial, _, rfl, rfl, _, rfl, rfl, _, rfl, rfl, _, rfl, rfl, _, rfl, rfl, _, rfl, rfl, _, rfl,
      rfl, _, rfl, rfl, _, rfl, rfl, _, rfl, rfl, _, rfl, rfl, _, rfl, rfl⟩, List.mem_cons_self, rfl, rfl, rfl⟩
  obtain ⟨s, hfollows, hpushes, hfinished, hworkers, hredis⟩ := hfollows
  obtain ⟨tr, hrun, hok⟩ := hfollows.run
  exact ⟨tr, s, hrun, hok, hpushes, hfinished, hworkers, hredis⟩

end MevShare.Queue
