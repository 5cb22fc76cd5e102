import MevShare.Queue.Conservation
/-!
# The current block

`UpdateBlock` reads the current block and writes it in two steps, without a lock.
`SimQueue.Start` makes its calls one after the other: one before it starts the
workers, the others from one goroutine. Then the current block is the highest that
was reported so far, and `process` is never invoked for an earlier block than
before, whichever item and worker it is.
-/
open Lib

namespace MevShare.Queue

variable {cfg : RedisQueueConfig} {start : UInt64} {s s' : State}

def UpdatePc.isReturned : UpdatePc → Bool
  | .returned _ => true
  | _ => false

/-- A call of `UpdateBlock` begins when the ones before it have returned. -/
def Serial (s : State) : Action → Prop
  | .update _ => ∀ u ∈ s.updates, u.pc.isReturned = true
  | _ => True

instance (s : State) (act : Action) : Decidable (Serial s act) := by
  unfold Serial
  split <;> infer_instance

/-- The blocks of the calls that have returned. -/
def State.reported (s : State) : List UInt64 := (s.updates.filter (·.pc.isReturned)).map (·.block)

def Event.block? : Event → Option UInt64
  | .invoked _ currentBlock _ => some currentBlock
  | .returned _ _ => none

/-- The current blocks at which `process` was invoked, in order. -/
def State.invokedAt (s : State) : List UInt64 := s.events.filterMap Event.block?

/-! ## What a turn leaves alone -/

theorem pushTurn_frame {fails : Bool} {p : Push} {pc : PushPc} (h : pushTurn cfg s fails p = some (pc, s')) :
    s' = { s with redis := s'.redis } := by
  unfold pushTurn at h
  repeat' split at h
  all_goals cases h <;> rfl

/-- What the events of a worker's turn say of the block. -/
structure Reads (s s' : State) : Prop where
  block : s'.currentBlock = s.currentBlock
  updates : s'.updates = s.updates
  invoked : s'.invokedAt = s.invokedAt ∨ s'.invokedAt = s.invokedAt ++ [s.currentBlock]

theorem Reads.refl (s : State) : Reads s s := ⟨rfl, rfl, .inl rfl⟩

theorem Reads.retry {a : PackArgs} {incrIteration incrBlock : Bool} {r : ProcessResult} (h : Reads s s') :
    Reads s (retry cfg s' a incrIteration incrBlock r).2 := by
  rcases retry_cases cfg s' a incrIteration incrBlock r with ⟨-, -, heq⟩ | ⟨-, heq⟩ | ⟨-, -, heq⟩ <;> rw [heq]
  · exact h
  · exact ⟨h.block, h.updates, h.invoked⟩
  · exact ⟨h.block, h.updates, h.invoked⟩

theorem dispatch_reads (cfg : RedisQueueConfig) (s : State) (a : PackArgs) : Reads s (dispatch cfg s a).2 := by
  unfold dispatch
  dsimp only
  split
  · exact (Reads.refl s).retry
  · split
    · split
      · exact ⟨rfl, rfl, .inl rfl⟩
      · exact (Reads.refl s).retry
    · exact ⟨rfl, rfl, .inr (by simp [State.invokedAt, State.log, Event.block?])⟩

theorem finishProcess_reads (cfg : RedisQueueConfig) (s : State) (a : PackArgs) (r : ProcessResult) :
    Reads s (finishProcess cfg (s.log (.returned a r)) a r).2 := by
  have hlog : Reads s (s.log (.returned a r)) :=
    ⟨rfl, rfl, .inl (by simp [State.invokedAt, State.log, Event.block?])⟩
  unfold finishProcess
  split
  all_goals first
    | exact hlog.retry
    | exact ⟨hlog.block, hlog.updates, hlog.invoked⟩

theorem workerTurn_reads {env : WorkerEnv} {pc pc' : WorkerPc} (h : workerTurn cfg s env pc = some (pc', s')) :
    Reads s s' := by
  cases pc with
  | idle =>
    simp only [workerTurn] at h
    repeat' split at h
    all_goals cases h <;> exact ⟨rfl, rfl, .inl rfl⟩
  | popped a =>
    obtain ⟨-, rfl⟩ := Prod.ext_iff.1 (Option.some.inj h)
    exact dispatch_reads cfg s a
  | processing a =>
    obtain ⟨-, rfl⟩ := Prod.ext_iff.1 (Option.some.inj h)
    exact finishProcess_reads cfg s a env.result
  | requeue a stage =>
    simp only [workerTurn] at h
    repeat' split at h
    all_goals
      obtain ⟨-, rfl⟩ := Prod.ext_iff.1 (Option.some.inj h)
      simp only [refused]
      try split
      all_goals exact ⟨rfl, rfl, .inl rfl⟩

/-! ## The highest block -/

/-- The calls that have returned, and the one that has not. A call that is about to write has found a lower block. -/
structure InTurn (s : State) (done last : List Update) : Prop where
  updates : s.updates = done ++ last
  returned : ∀ u ∈ done, u.pc.isReturned = true
  one : last.length ≤ 1
  pending : ∀ u ∈ last, u.pc = .load ∨ u.pc = .store ∧ s.currentBlock < u.block

structure Followed (start : UInt64) (s : State) : Prop where
  highest : s.currentBlock = s.reported.foldl max start
  inTurn : ∃ done last, InTurn s done last
  sorted : s.invokedAt.Pairwise (· ≤ ·)
  past : ∀ n ∈ s.invokedAt, n ≤ s.currentBlock

theorem InTurn.reported {done last : List Update} (h : InTurn s done last) : s.reported = done.map (·.block) := by
  have hlast : last.filter (·.pc.isReturned) = [] := by
    refine List.filter_eq_nil_iff.2 fun u hu => ?_
    rcases h.pending u hu with hpc | ⟨hpc, -⟩ <;> simp [hpc, UpdatePc.isReturned]
  rw [State.reported, h.updates, List.filter_append, hlast, List.append_nil, List.filter_eq_self.2 h.returned]

/-- The call whose turn it is. -/
theorem InTurn.turn {done last : List Update} {i : Nat} {u : Update} (h : InTurn s done last) (hi : s.updates[i]? = some u)
    (hpc : u.pc.isReturned = false) : last = [u] ∧ ∀ v, s.updates.set i v = done ++ [v] := by
  rw [h.updates] at hi
  have hge : done.length ≤ i := by
    by_contra hlt
    rw [List.getElem?_append_left (by omega)] at hi
    exact absurd (h.returned u (List.mem_of_getElem? hi)) (by simp [hpc])
  rw [List.getElem?_append_right hge] at hi
  obtain ⟨v, rfl⟩ : ∃ v, last = [v] := by
    refine List.length_eq_one_iff.1 (Nat.le_antisymm h.one ?_)
    exact List.length_pos_of_mem (List.mem_of_getElem? hi)
  have hzero : i - done.length = 0 := by
    have hlt := (List.getElem?_eq_some_iff.1 hi).1
    simpa using hlt
  rw [hzero] at hi
  cases hi
  refine ⟨rfl, fun w => ?_⟩
  rw [h.updates, List.set_append_right _ _ hge, hzero]
  rfl

/-- A turn of something else. -/
theorem Followed.reads (h : Followed start s) (hreads : Reads s s') : Followed start s' := by
  have hreported : s'.reported = s.reported := by rw [State.reported, State.reported, hreads.updates]
  obtain ⟨done, last, hin⟩ := h.inTurn
  refine ⟨by rw [hreads.block, hreported, h.highest], ⟨done, last, ?_⟩, ?_, ?_⟩
  · exact ⟨hreads.updates.trans hin.updates, hin.returned, hin.one, hreads.block ▸ hin.pending⟩
  · rcases hreads.invoked with heq | heq <;> rw [heq]
    · exact h.sorted
    · refine List.pairwise_append.2 ⟨h.sorted, List.pairwise_singleton _ _, fun n hn m hm => ?_⟩
      rw [List.mem_singleton.1 hm]
      exact h.past n hn
  · rw [hreads.block]
    rcases hreads.invoked with heq | heq <;> rw [heq]
    · exact h.past
    · intro n hn
      rcases List.mem_append.1 hn with hn | hn
      · exact h.past n hn
      · rw [List.mem_singleton.1 hn]
        exact UInt64.le_refl _

theorem Followed.update {block : UInt64} (h : Followed start s) (hserial : Serial s (.update block)) :
    Followed start { s with updates := s.updates ++ [⟨block, .load⟩] } := by
  have hin : InTurn { s with updates := s.updates ++ [⟨block, .load⟩] } s.updates [⟨block, .load⟩] :=
    ⟨rfl, hserial, by simp, by simp⟩
  refine ⟨?_, ⟨_, _, hin⟩, h.sorted, h.past⟩
  rw [hin.reported]
  have hall : s.updates.filter (·.pc.isReturned) = s.updates := List.filter_eq_self.2 hserial
  rw [show s.currentBlock = s.reported.foldl max start from h.highest, State.reported, hall]

theorem uint64_max (a b : UInt64) : max a b = if a ≤ b then b else a := rfl

/-- A call returns: the current block is the higher one of what it was and what the call says. -/
theorem Followed.finish {done last : List Update} {block current : UInt64} {err : Option QueueErr} (h : Followed start s)
    (hin : InTurn s done last) (hcurrent : current = max s.currentBlock block) :
    Followed start { s with currentBlock := current, updates := done ++ [⟨block, .returned err⟩] } := by
  have hnew : InTurn { s with currentBlock := current, updates := done ++ [⟨block, .returned err⟩] }
      (done ++ [⟨block, .returned err⟩]) [] := by
    refine ⟨(List.append_nil _).symm, ?_, by simp, by simp⟩
    rintro u hu
    rcases List.mem_append.1 hu with hu | hu
    · exact hin.returned u hu
    · rw [List.mem_singleton.1 hu]
      rfl
  refine ⟨?_, ⟨_, _, hnew⟩, h.sorted, fun n hn => ?_⟩
  · rw [hnew.reported, List.map_append, List.foldl_append, ← hin.reported, ← h.highest]
    exact hcurrent
  · have hle : s.currentBlock ≤ max s.currentBlock block := by grind [uint64_max]
    rw [hcurrent]
    exact UInt64.le_trans (h.past n hn) hle

theorem Followed.updateStep {i : Nat} {u : Update} {pc : UpdatePc} {next : State} (h : Followed start s)
    (hi : s.updates[i]? = some u) (hturn : updateTurn s u = some (pc, next)) :
    Followed start { next with updates := s.updates.set i { u with pc } } := by
  obtain ⟨done, last, hin⟩ := h.inTurn
  cases hpc : u.pc with
  | load =>
    obtain ⟨rfl, hset⟩ := hin.turn hi (by rw [hpc]; rfl)
    rw [hset]
    simp only [updateTurn, hpc] at hturn
    split at hturn
    · rename_i heq
      cases hturn
      exact h.finish hin (by simp [uint64_max, heq])
    · split at hturn
      · rename_i hgt
        cases hturn
        exact h.finish hin (by grind [uint64_max])
      · rename_i hne hle
        cases hturn
        have hlt : s.currentBlock < u.block := by grind
        have hstore : InTurn { s with updates := done ++ [{ u with pc := .store }] } done [{ u with pc := .store }] :=
          ⟨rfl, hin.returned, by simp, by simpa using hlt⟩
        refine ⟨?_, ⟨_, _, hstore⟩, h.sorted, h.past⟩
        rw [hstore.reported, ← hin.reported]
        exact h.highest
  | store =>
    obtain ⟨rfl, hset⟩ := hin.turn hi (by rw [hpc]; rfl)
    rw [hset]
    simp only [updateTurn, hpc] at hturn
    cases hturn
    have hlt : s.currentBlock < u.block := by
      rcases hin.pending u (by simp) with hload | ⟨-, hlt⟩
      · rw [hpc] at hload
        cases hload
      · exact hlt
    exact h.finish hin (by grind [uint64_max])
  | returned err => simp [updateTurn, hpc] at hturn

theorem Followed.step {act : Action} (h : Followed start s) (hserial : Serial s act) (hstep : step cfg s act = some s') :
    Followed start s' := by
  cases act with
  | push c =>
    cases hstep
    exact ⟨h.highest, h.inTurn.imp fun _ => .imp fun _ hin => ⟨hin.1, hin.2, hin.3, hin.4⟩, h.sorted, h.past⟩
  | pushStep i fails =>
    simp only [Queue.step, Option.bind_eq_bind, Option.bind_eq_some_iff] at hstep
    obtain ⟨p, -, ⟨pc, next⟩, hturn, heq⟩ := hstep
    cases heq
    rw [pushTurn_frame hturn]
    exact h.reads ⟨rfl, rfl, .inl rfl⟩
  | update block =>
    cases hstep
    exact h.update hserial
  | updateStep i =>
    simp only [Queue.step, Option.bind_eq_bind, Option.bind_eq_some_iff] at hstep
    obtain ⟨u, hu, ⟨pc, next⟩, hturn, heq⟩ := hstep
    cases heq
    exact h.updateStep hu hturn
  | worker w env =>
    obtain ⟨pc, pc', next, -, hturn, rfl⟩ := worker_step hstep
    have hreads := workerTurn_reads hturn
    exact h.reads ⟨hreads.block, hreads.updates, hreads.invoked⟩

/-- As long as the calls of `UpdateBlock` come one after the other, the current
block is the highest that was reported, and the blocks at which `process` is
invoked never go back. -/
theorem current_block_highest {nWorkers : Nat} {tr : List (State × Action)}
    (hrun : Run (step cfg) (State.start start nWorkers) tr s) (hserial : ∀ p ∈ tr, Serial p.1 p.2) :
    s.currentBlock = s.reported.foldl max start ∧ s.invokedAt.Pairwise (· ≤ ·) ∧ ∀ n ∈ s.invokedAt, n ≤ s.currentBlock := by
  have h0 : Followed start (State.start start nWorkers) :=
    ⟨rfl, ⟨[], [], rfl, by simp, by simp, by simp⟩, .nil, fun _ hn => by cases hn⟩
  have h := Run.inv (Followed start) h0 (fun _ _ _ h hserial hstep => h.step hserial hstep) hrun hserial
  exact ⟨h.highest, h.sorted, h.past⟩

/-- Block 2 is reported after block 3, and an item was processed before that. -/
def outOfOrder : List Action :=
  [.update 1, .updateStep 0, .updateStep 0] ++ pushed ⟨[7], false, 2, 9, 0⟩ ++ [worked none, worked none] ++
    [.update 3, .updateStep 1, .updateStep 1, .update 2, .updateStep 2]

theorem current_block_highest_out_of_order :
    ∃ s : State, s.reported = [1, 3, 2] ∧ s.invokedAt = [1] ∧ s.currentBlock = [1, 3, 2].foldl max 0 ∧
      ∀ n ∈ s.invokedAt, n ≤ s.currentBlock := by
  have hsteps : ∃ s, outOfOrder.foldlM (fun s act => if Serial s act then step smallConfig s act else none)
      (State.start 0 1) = some s ∧ s.reported = [1, 3, 2] ∧ s.invokedAt = [1] := ⟨_, rfl, rfl, rfl⟩
  obtain ⟨s, hsteps, hreported, hinvoked⟩ := hsteps
  obtain ⟨tr, hrun, hserial⟩ := run_of_checked hsteps
  obtain ⟨hhighest, -, hpast⟩ := current_block_highest hrun hserial
  exact ⟨s, hreported, hinvoked, hreported ▸ hhighest, hpast⟩

/-- Two calls at the same time, of which the one with the lower block writes last. -/
example : ∃ s, List.foldlM (step smallConfig) (State.start 0 0)
    [.update 1, .update 2, .updateStep 0, .updateStep 1, .updateStep 1, .updateStep 0] = some s ∧ s.currentBlock = 1 :=
  ⟨_, rfl, rfl⟩

end MevShare.Queue
