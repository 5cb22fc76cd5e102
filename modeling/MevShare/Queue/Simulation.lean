import MevShare.Queue.Tokens
/-!
# The code plays the game

`step_move`: a turn of the queue is a move on its board. It is proved for a turn
of a worker and for a turn of a call of `Push` on the part of the board that the
turn is about, with the rest as a parameter.
-/
open Lib

namespace MevShare.Queue

/-- The turn does not give up a requeue: no Redis command of one fails and none
finds the queue full, unless it is tried again. -/
def Retained (cfg : RedisQueueConfig) (s : State) : Action → Prop
  | .worker w env => ∀ args stage, s.workers[w]? = some (.requeue args stage) → env.giveUp = true →
      (env.fails && stage.usesRedis) = false ∧ pushToQueue cfg s.currentBlock s.redis args stage ≠ .full
  | _ => True

/-- The worker does not find an item due whose iterations are used up. -/
def InTime (cfg : RedisQueueConfig) (s : State) : Action → Prop
  | .worker w _ => ∀ args, s.workers[w]? = some (.popped args) → s.currentBlock + 1 = args.minTargetBlock →
      args.iteration < cfg.maxRetries
  | _ => True

/-- Every call of `Push` in progress carries the item it made of its arguments. -/
def Sound (s : State) : Prop :=
  ∀ p ∈ s.pushes, ∀ a stage, p.pc = .pushing a stage → Fits p.call a

/-- The board with the given tokens at the workers and the given accepted calls. -/
def State.boardWith (cfg : RedisQueueConfig) (s : State) (held : Multiset Token) (accepted : Multiset PushCall) : Board :=
  ⟨(s.redis.map (entryTokens cfg)).sum + held, accepted, s.events, s.finished⟩

variable {cfg : RedisQueueConfig} {s s' : State} {lossless inTime : Prop} {rest : Multiset Token}
  {accepted : Multiset PushCall}

/-! ## A turn of a worker -/

theorem held_first (z : List (Nat × Bytes)) (x : Token) :
    (z.map (entryTokens cfg)).sum + ({x} + rest) = {x} + ((z.map (entryTokens cfg)).sum + rest) :=
  add_left_comm _ _ _

/-- Dropping or requeuing an item that was popped and not processed. -/
theorem retry_popped {a a' : PackArgs} (hheld : Held a a') :
    Move cfg lossless inTime (s.boardWith cfg ({⟨a, .popped⟩} + rest) accepted)
      ((retry cfg s a' false false none).2.boardWith cfg ((retry cfg s a' false false none).1.tokens + rest) accepted) := by
  have hiter : a'.iteration = a.iteration := by rcases hheld with rfl | ⟨_, _, _, rfl⟩ <;> rfl
  rcases retry_cases cfg s a' false false none with ⟨hlt, -, heq⟩ | ⟨hle, heq⟩ | ⟨hblock, -, -⟩
  · simp only [heq, State.boardWith, WorkerPc.tokens, held_first]
    exact .hold (hiter ▸ hlt) hheld rfl
  · simp only [heq, State.boardWith, State.finish, WorkerPc.tokens, held_first, zero_add]
    exact .dropped hheld hle rfl rfl
  · cases hblock

theorem dispatch_move {a : PackArgs}
    (hin : inTime → s.currentBlock + 1 = a.minTargetBlock → a.iteration < cfg.maxRetries) :
    Move cfg lossless inTime (s.boardWith cfg ({⟨a, .popped⟩} + rest) accepted)
      ((dispatch cfg s a).2.boardWith cfg ((dispatch cfg s a).1.tokens + rest) accepted) := by
  unfold dispatch
  dsimp only
  split
  · exact retry_popped (.inl rfl)
  · split
    · rename_i hlate
      split
      · rename_i hstale
        simp only [State.boardWith, State.finish, WorkerPc.tokens, held_first, zero_add]
        exact .dropped (.inl rfl) hstale rfl rfl
      · rename_i hmax
        exact retry_popped (.inr ⟨_, hlate, by simpa using hmax, rfl⟩)
    · rename_i hearly hlate
      have hdue : s.currentBlock + 1 = a.minTargetBlock := by grind
      simp only [State.boardWith, State.log, WorkerPc.tokens, held_first]
      exact .invoke hdue.symm (fun h => hin h hdue) rfl

/-- Dropping or requeuing an item after `process`. -/
theorem retry_processed {a : PackArgs} {r : ProcessResult} {incrIteration incrBlock : Bool}
    (hblock : incrBlock = true → verdict r = .success ∨ verdict r = .nextBlock)
    (hretried : a.iteration < cfg.maxRetries → (incrBlock = true → a.minTargetBlock < a.maxTargetBlock) →
      Retried cfg r a (a.bump incrIteration incrBlock)) :
    Move cfg lossless inTime (s.boardWith cfg ({⟨a, .processing⟩} + rest) accepted)
      ((retry cfg (s.log (.returned a r)) a incrIteration incrBlock r).2.boardWith cfg
        ((retry cfg (s.log (.returned a r)) a incrIteration incrBlock r).1.tokens + rest) accepted) := by
  rcases retry_cases cfg (s.log (.returned a r)) a incrIteration incrBlock r with
    ⟨hlt, hnext, heq⟩ | ⟨hle, heq⟩ | ⟨hincr, hle, heq⟩
  · rw [heq]
    simp only [State.boardWith, State.log, WorkerPc.tokens, held_first]
    exact .retried (hretried hlt hnext) rfl
  · rw [heq]
    simp only [State.boardWith, State.log, State.finish, WorkerPc.tokens, held_first, zero_add]
    exact .done hle (fun _ hr => by cases hr) rfl
  · rw [heq]
    simp only [State.boardWith, State.log, State.finish, WorkerPc.tokens, held_first, zero_add]
    exact .done ⟨hblock hincr, hle⟩ (fun _ hr => by cases hr; rfl) rfl

theorem finishProcess_move {a : PackArgs} {r : ProcessResult} :
    Move cfg lossless inTime (s.boardWith cfg ({⟨a, .processing⟩} + rest) accepted)
      ((finishProcess cfg (s.log (.returned a r)) a r).2.boardWith cfg
        ((finishProcess cfg (s.log (.returned a r)) a r).1.tokens + rest) accepted) := by
  unfold finishProcess
  cases hr : verdict r with
  | retry => exact retry_processed (by simp) fun hlt _ => ⟨hlt, by simp [hr]⟩
  | nextBlock => exact retry_processed (by simp [hr]) fun hlt hnext => ⟨hlt, by simp [hr, hnext]⟩
  | lagging => exact retry_processed (by simp) fun hlt _ => ⟨hlt, by simp [hr, PackArgs.bump]⟩
  | success => exact retry_processed (by simp [hr]) fun hlt hnext => ⟨hlt, by simp [hr, hnext]⟩
  | unrecoverable =>
    simp only [State.boardWith, State.log, State.finish, WorkerPc.tokens, held_first, zero_add]
    exact .done (.inl hr) (fun _ hr' => by cases hr'; rfl) rfl
  | unknown =>
    simp only [State.boardWith, State.log, State.finish, WorkerPc.tokens, held_first, zero_add]
    exact .done (.inr hr) (fun _ hr' => by cases hr'; rfl) rfl

theorem refused_move {a : PackArgs} {giveUp : Bool} (hloss : giveUp = true → ¬lossless) :
    Move cfg lossless inTime (s.boardWith cfg ({⟨a, .requeue⟩} + rest) accepted)
      ((refused s a giveUp).2.boardWith cfg ((refused s a giveUp).1.tokens + rest) accepted) := by
  cases giveUp with
  | false => exact .stutter
  | true =>
    simp only [refused, ↓reduceIte, State.boardWith, State.finish, WorkerPc.tokens, zero_add]
    exact .lose (hloss rfl) (add_left_comm _ _ _)

/-- The comparison looks at the count of the item's class, and at the threshold of its priority. -/
theorem pushToQueue_check (cfg : RedisQueueConfig) (block : UInt64) (redis : List (Nat × Bytes)) (a : PackArgs)
    (processable unprocessable : Nat) :
    ((if decide (a.minTargetBlock ≤ block + 1) then processable else unprocessable) <
        (threshold cfg (a.minTargetBlock ≤ block + 1) a.highPriority).toNat ∧
      pushToQueue cfg block redis a (.check processable unprocessable) = .goOn .add) ∨
    pushToQueue cfg block redis a (.check processable unprocessable) = .full := by
  by_cases hfull : (if decide (a.minTargetBlock ≤ block + 1) then processable else unprocessable) ≥
      (threshold cfg (a.minTargetBlock ≤ block + 1) a.highPriority).toNat
  · exact .inr (by rw [pushToQueue, if_pos hfull])
  · exact .inl ⟨Nat.lt_of_not_le hfull, by rw [pushToQueue, if_neg hfull]⟩

/-- Only the last stage of `pushToQueue` writes the sorted set. -/
theorem pushToQueue_added {block : UInt64} {redis redis' : List (Nat × Bytes)} {a : PackArgs} {stage : PushStage}
    (h : pushToQueue cfg block redis a stage = .added redis') :
    stage = .add ∧ redis' = zadd redis (packData a).1 (packData a).2 := by
  cases stage with
  | add => exact ⟨rfl, (PushStep.added.inj h).symm⟩
  | check processable unprocessable =>
    rcases pushToQueue_check cfg block redis a processable unprocessable with ⟨-, heq⟩ | heq
    · rw [heq] at h
      cases h
    · rw [heq] at h
      cases h
  | _ => cases h

theorem requeue_added {a : PackArgs} :
    Move cfg lossless inTime (s.boardWith cfg ({⟨a, .requeue⟩} + rest) accepted)
      (State.boardWith cfg { s with redis := zadd s.redis (packData a).1 (packData a).2 } rest accepted) := by
  obtain ⟨merged, others, hsame, hbefore, hafter⟩ := zadd_tokens cfg s.redis a
  have htokens : (s.redis.map (entryTokens cfg)).sum + ({⟨a, .requeue⟩} + rest) =
      {⟨a, .requeue⟩} + (merged + (others + rest)) := by
    rw [held_first, hbefore, add_assoc]
  simp only [State.boardWith, hafter, htokens, add_assoc]
  exact .requeued hsame rfl

theorem workerTurn_move {env : WorkerEnv} {pc pc' : WorkerPc} (h : workerTurn cfg s env pc = some (pc', s'))
    (hin : inTime → ∀ a, pc = .popped a → s.currentBlock + 1 = a.minTargetBlock → a.iteration < cfg.maxRetries)
    (hloss : lossless → ∀ a stage, pc = .requeue a stage → env.giveUp = true →
      (env.fails && stage.usesRedis) = false ∧ pushToQueue cfg s.currentBlock s.redis a stage ≠ .full) :
    Move cfg lossless inTime (s.boardWith cfg (pc.tokens + rest) accepted)
      (s'.boardWith cfg (pc'.tokens + rest) accepted) := by
  cases pc with
  | idle =>
    simp only [workerTurn] at h
    split at h
    · cases h
      exact .stutter
    · split at h
      · cases h
      · rename_i score member redis hpop
        have hsum : (s.redis.map (entryTokens cfg)).sum =
            entryTokens cfg (score, member) + (redis.map (entryTokens cfg)).sum := by
          rw [((popMin_perm hpop).map _).sum_eq, List.map_cons, List.sum_cons]
        split at h
        · -- an entry that cannot be unpacked stands for no item
          rename_i hunpack
          cases h
          have hzero : entryTokens cfg (score, member) = 0 := by simp only [entryTokens, hunpack]
          simp only [State.boardWith, hsum, hzero, zero_add]
          exact .stutter
        · rename_i a hunpack
          cases h
          have hone : entryTokens cfg (score, member) = {⟨a, .queued⟩} := by simp only [entryTokens, hunpack]
          simp only [State.boardWith, hsum, hone, WorkerPc.tokens, zero_add, add_assoc]
          rw [held_first]
          exact .pop rfl
  | popped a =>
    obtain ⟨rfl, rfl⟩ := Prod.ext_iff.1 (Option.some.inj h)
    exact dispatch_move fun h => hin h a rfl
  | processing a =>
    obtain ⟨rfl, rfl⟩ := Prod.ext_iff.1 (Option.some.inj h)
    exact finishProcess_move
  | requeue a stage =>
    simp only [workerTurn] at h
    split at h
    · rename_i hfails
      obtain ⟨rfl, rfl⟩ := Prod.ext_iff.1 (Option.some.inj h)
      exact refused_move fun hgive hl => by simp [(hloss hl a stage rfl hgive).1] at hfails
    · split at h
      · cases h
        exact .stutter
      · rename_i hfull
        obtain ⟨rfl, rfl⟩ := Prod.ext_iff.1 (Option.some.inj h)
        exact refused_move fun hgive hl => (hloss hl a stage rfl hgive).2 hfull
      · rename_i redis hadded
        cases h
        rw [(pushToQueue_added hadded).2, WorkerPc.tokens, zero_add]
        exact requeue_added

/-! ## A turn of a call of `Push` -/

theorem pushTurn_move {fails : Bool} {p : Push} {pc : PushPc} {others : Multiset PushCall}
    (h : pushTurn cfg s fails p = some (pc, s')) (hfits : ∀ a stage, p.pc = .pushing a stage → Fits p.call a) :
    Move cfg lossless inTime (s.boardWith cfg rest (p.accepted + others))
      (s'.boardWith cfg rest (Push.accepted { p with pc } + others)) := by
  cases hpc : p.pc with
  | enter =>
    have hacc : p.accepted = 0 := by simp only [Push.accepted, hpc]
    simp only [pushTurn, hpc] at h
    split at h
    · cases h
      rw [hacc]
      exact .stutter
    · cases h
      rw [hacc]
      exact .stutter
  | pushing a stage =>
    have hacc : p.accepted = 0 := by simp only [Push.accepted, hpc]
    rw [hacc]
    simp only [pushTurn, hpc] at h
    split at h
    · cases h
      exact .stutter
    · split at h
      · cases h
        exact .stutter
      · cases h
        exact .stutter
      · rename_i redis hadded
        cases h
        obtain ⟨merged, unmerged, hsame, hbefore, hafter⟩ := zadd_tokens cfg s.redis a
        simp only [State.boardWith, (pushToQueue_added hadded).2, hbefore, hafter, Push.accepted, zero_add, add_assoc]
        exact .accept (hfits a _ hpc) hsame rfl
  | returned err => simp [pushTurn, hpc] at h

theorem pushTurn_workers {fails : Bool} {p : Push} {pc : PushPc} (h : pushTurn cfg s fails p = some (pc, s')) :
    s'.workers = s.workers := by
  unfold pushTurn at h
  repeat' split at h
  all_goals cases h <;> rfl

theorem pushTurn_fits {fails : Bool} {p : Push} {pc : PushPc} (h : pushTurn cfg s fails p = some (pc, s'))
    (hfits : ∀ a stage, p.pc = .pushing a stage → Fits p.call a) {a : PackArgs} {stage : PushStage}
    (hpc : pc = .pushing a stage) : Fits p.call a := by
  unfold pushTurn at h
  split at h
  · split at h
    · cases h
      cases hpc
    · rename_i hargs
      cases h
      cases hpc
      exact fits_of_pushArgs hargs
  · rename_i a' stage' hp
    split at h
    · cases h
      cases hpc
    · split at h <;> cases h <;> cases hpc
      exact hfits _ _ hp
  · cases h

/-! ## The whole queue -/

theorem workerTurn_pushes {env : WorkerEnv} {pc pc' : WorkerPc} (h : workerTurn cfg s env pc = some (pc', s')) :
    s'.pushes = s.pushes := by
  have hretry (s : State) (a : PackArgs) (i b : Bool) (r : ProcessResult) : (retry cfg s a i b r).2.pushes = s.pushes := by
    rcases retry_cases cfg s a i b r with ⟨-, -, heq⟩ | ⟨-, heq⟩ | ⟨-, -, heq⟩ <;> rw [heq] <;> rfl
  cases pc with
  | idle =>
    simp only [workerTurn] at h
    repeat' split at h
    all_goals cases h <;> rfl
  | popped a =>
    obtain ⟨-, rfl⟩ := Prod.ext_iff.1 (Option.some.inj h)
    simp only [dispatch]
    repeat' split
    all_goals first | exact hretry .. | rfl
  | processing a =>
    obtain ⟨-, rfl⟩ := Prod.ext_iff.1 (Option.some.inj h)
    simp only [finishProcess]
    split
    all_goals first | exact hretry .. | rfl
  | requeue a stage =>
    simp only [workerTurn] at h
    repeat' split at h
    all_goals
      obtain ⟨-, rfl⟩ := Prod.ext_iff.1 (Option.some.inj h)
      simp only [refused]
      try split
      all_goals rfl

theorem updateTurn_frame {u : Update} {pc : UpdatePc} (h : updateTurn s u = some (pc, s')) :
    s' = { s with currentBlock := s'.currentBlock } := by
  unfold updateTurn at h
  repeat' split at h
  all_goals cases h <;> rfl

/-- A turn changes at most the worker whose turn it is. -/
theorem step_workers {a : Action} (h : step cfg s a = some s') :
    s'.workers = s.workers ∨ ∃ w env pc, a = .worker w env ∧ s'.workers = s.workers.set w pc := by
  cases a with
  | push c =>
    cases h
    exact .inl rfl
  | pushStep i fails =>
    simp only [step, Option.bind_eq_bind, Option.bind_eq_some_iff] at h
    obtain ⟨p, -, ⟨pc, s₁⟩, hturn, heq⟩ := h
    cases heq
    have hworkers : s₁.workers = s.workers := pushTurn_workers hturn
    exact .inl hworkers
  | update block =>
    cases h
    exact .inl rfl
  | updateStep i =>
    simp only [step, Option.bind_eq_bind, Option.bind_eq_some_iff] at h
    obtain ⟨u, -, ⟨pc, s₁⟩, hturn, heq⟩ := h
    cases heq
    rw [updateTurn_frame hturn]
    exact .inl rfl
  | worker w env =>
    simp only [step, Option.bind_eq_bind, Option.bind_eq_some_iff] at h
    obtain ⟨pc, -, ⟨pc', s₁⟩, hturn, heq⟩ := h
    cases heq
    exact .inr ⟨w, env, pc', rfl, rfl⟩

theorem worker_step {w : Nat} {env : WorkerEnv} (h : step cfg s (.worker w env) = some s') :
    ∃ pc pc' next, s.workers[w]? = some pc ∧ workerTurn cfg s env pc = some (pc', next) ∧
      s' = { next with workers := s.workers.set w pc' } := by
  obtain ⟨pc, hpc, h⟩ := Option.bind_eq_some_iff.1 h
  obtain ⟨⟨pc', next⟩, hturn, h⟩ := Option.bind_eq_some_iff.1 h
  cases h
  exact ⟨pc, pc', next, hpc, hturn, rfl⟩

/-- What holds of a call of `Push` when it is made, and is kept by its turns, holds of every call. -/
theorem step_pushes {P : Push → Prop} (henter : ∀ c, P ⟨c, .enter⟩)
    (hturn : ∀ s fails p pc s', P p → pushTurn cfg s fails p = some (pc, s') → P { p with pc }) {a : Action}
    (hs : ∀ p ∈ s.pushes, P p) (h : step cfg s a = some s') : ∀ p ∈ s'.pushes, P p := by
  cases a with
  | push c =>
    cases h
    intro p hp
    rcases List.mem_append.1 hp with hp | hp
    · exact hs p hp
    · rw [List.mem_singleton.1 hp]
      exact henter c
  | pushStep i fails =>
    simp only [step, Option.bind_eq_bind, Option.bind_eq_some_iff] at h
    obtain ⟨p, hp, ⟨pc, s₁⟩, hstep, heq⟩ := h
    cases heq
    intro q hq
    rcases List.mem_or_eq_of_mem_set hq with hq | rfl
    · exact hs q hq
    · exact hturn s fails p pc s₁ (hs p (List.mem_of_getElem? hp)) hstep
  | update block =>
    cases h
    exact hs
  | updateStep i =>
    simp only [step, Option.bind_eq_bind, Option.bind_eq_some_iff] at h
    obtain ⟨u, -, ⟨pc, s₁⟩, hstep, heq⟩ := h
    cases heq
    rw [updateTurn_frame hstep]
    exact hs
  | worker w env =>
    simp only [step, Option.bind_eq_bind, Option.bind_eq_some_iff] at h
    obtain ⟨pc, -, ⟨pc', s₁⟩, hstep, heq⟩ := h
    cases heq
    intro p hp
    rw [workerTurn_pushes hstep] at hp
    exact hs p hp

theorem sound_step {a : Action} (hs : Sound s) (h : step cfg s a = some s') : Sound s' :=
  step_pushes (P := fun p => ∀ a stage, p.pc = .pushing a stage → Fits p.call a) (fun _ _ _ hpc => nomatch hpc)
    (fun _ _ _ _ _ hp hturn _ _ hpc => pushTurn_fits hturn hp hpc) hs h

/-- Every turn of the queue is a move on its board. -/
theorem step_move {a : Action} (hs : Sound s) (h : step cfg s a = some s') :
    Move cfg (Retained cfg s a) (InTime cfg s a) (s.board cfg) (s'.board cfg) := by
  cases a with
  | push c =>
    cases h
    simp only [State.board, List.map_append, List.sum_append, List.map_singleton, List.sum_singleton, Push.accepted,
      add_zero]
    exact .stutter
  | pushStep i fails =>
    simp only [step, Option.bind_eq_bind, Option.bind_eq_some_iff] at h
    obtain ⟨p, hp, ⟨pc, s₁⟩, hturn, heq⟩ := h
    cases heq
    obtain ⟨others, hsum, hset⟩ := exists_rest Push.accepted hp
    have hmove : Move cfg (Retained cfg s (.pushStep i fails)) (InTime cfg s (.pushStep i fails))
        (s.boardWith cfg (s.workers.map WorkerPc.tokens).sum (p.accepted + others))
        (s₁.boardWith cfg (s.workers.map WorkerPc.tokens).sum (Push.accepted { p with pc } + others)) :=
      pushTurn_move hturn (hs p (List.mem_of_getElem? hp))
    simpa only [State.board, State.boardWith, hsum, hset, pushTurn_workers hturn] using hmove
  | update block =>
    cases h
    exact .stutter
  | updateStep i =>
    simp only [step, Option.bind_eq_bind, Option.bind_eq_some_iff] at h
    obtain ⟨u, -, ⟨pc, s₁⟩, hturn, heq⟩ := h
    cases heq
    rw [updateTurn_frame hturn]
    exact .stutter
  | worker w env =>
    simp only [step, Option.bind_eq_bind, Option.bind_eq_some_iff] at h
    obtain ⟨pc, hpc, ⟨pc', s₁⟩, hturn, heq⟩ := h
    cases heq
    obtain ⟨others, hsum, hset⟩ := exists_rest WorkerPc.tokens hpc
    have hmove : Move cfg (Retained cfg s (.worker w env)) (InTime cfg s (.worker w env))
        (s.boardWith cfg (pc.tokens + others) (s.pushes.map Push.accepted).sum)
        (s₁.boardWith cfg (pc'.tokens + others) (s.pushes.map Push.accepted).sum) :=
      workerTurn_move hturn (fun hin a ha => hin a (by rw [hpc, ha]))
        fun hl a stage ha => hl a stage (by rw [hpc, ha])
    simpa only [State.board, State.boardWith, hsum, hset, workerTurn_pushes hturn] using hmove

/-- What every move keeps holds of the board after every run. -/
theorem board_inv {ok : State → Action → Prop} (J : Board → Prop) (h0 : J ⟨0, 0, [], []⟩)
    (hmove : ∀ s a b b', ok s a → J b → Move cfg (Retained cfg s a) (InTime cfg s a) b b' → J b')
    {block : UInt64} {nWorkers : Nat} {tr : List (State × Action)}
    (hrun : Run (step cfg) (State.start block nWorkers) tr s) (hok : ∀ p ∈ tr, ok p.1 p.2) : J (s.board cfg) := by
  have hstart : (State.start block nWorkers).board cfg = ⟨0, 0, [], []⟩ := by
    simp [State.board, State.start, WorkerPc.tokens]
  refine (Run.inv (fun s => Sound s ∧ J (s.board cfg)) ⟨by simp [Sound, State.start], hstart ▸ h0⟩ ?_ hrun hok).2
  intro s a s' hs hoka hstep
  exact ⟨sound_step hs.1 hstep, hmove s a _ _ hoka hs.2 (step_move hs.1 hstep)⟩

end MevShare.Queue
