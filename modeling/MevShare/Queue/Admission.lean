import MevShare.Queue.Simulation
/-!
# How full the queue gets

`pushToQueue` counts, compares and inserts in separate commands, so several calls
that all counted before the last free place was taken all insert. The bound
counts the calls that have passed the limit with what they counted as places
already taken: such a call is `armed`. Arming takes a count below the limit, and
at most `k` calls are armed at a time.

The two classes of items, those that can be processed for the next block and
those for later blocks, are treated together: `now` says which one is meant.
-/
open Lib

namespace MevShare.Queue

/-! ## The calls of `pushToQueue` -/

structure Call where
  args : PackArgs
  stage : PushStage

def PushPc.calls : PushPc → Multiset Call
  | .pushing args stage => {⟨args, stage⟩}
  | _ => 0

def WorkerPc.calls : WorkerPc → Multiset Call
  | .requeue args stage => {⟨args, stage⟩}
  | _ => 0

def State.calls (s : State) : Multiset Call :=
  (s.pushes.map (·.pc.calls)).sum + (s.workers.map WorkerPc.calls).sum

/-- What a turn does to the sorted set and to the calls: entries are popped and
calls end, a call begins, one goes on, or one inserts its item. -/
inductive CallMove (cfg : RedisQueueConfig) (currentBlock : UInt64) (redis : List (Nat × Bytes))
    (calls : Multiset Call) : List (Nat × Bytes) → Multiset Call → Prop
  | settle {redis' rest} : redis'.Subperm redis → rest ≤ calls → CallMove cfg currentBlock redis calls redis' rest
  | start {args rest} : rest ≤ calls → CallMove cfg currentBlock redis calls redis ({⟨args, .begin⟩} + rest)
  | advance {args stage stage' rest} : calls = {⟨args, stage⟩} + rest →
      pushToQueue cfg currentBlock redis args stage = .goOn stage' →
      CallMove cfg currentBlock redis calls redis ({⟨args, stage'⟩} + rest)
  | add {args rest} : calls = {⟨args, .add⟩} + rest →
      CallMove cfg currentBlock redis calls (zadd redis (packData args).1 (packData args).2) rest

variable {cfg : RedisQueueConfig} {s s' : State} {rest : Multiset Call}

theorem pushTurn_callMove {fails : Bool} {p : Push} {pc : PushPc} (h : pushTurn cfg s fails p = some (pc, s')) :
    CallMove cfg s.currentBlock s.redis (p.pc.calls + rest) s'.redis (pc.calls + rest) := by
  cases hpc : p.pc with
  | enter =>
    simp only [pushTurn, hpc] at h
    split at h
    · cases h
      exact .settle (List.Subperm.refl _) le_rfl
    · cases h
      exact .start (zero_add rest).ge
  | pushing a stage =>
    simp only [pushTurn, hpc] at h
    split at h
    · cases h
      exact .settle (List.Subperm.refl _) (add_le_add (Multiset.zero_le _) le_rfl)
    · split at h
      · rename_i hgo
        cases h
        exact .advance rfl hgo
      · cases h
        exact .settle (List.Subperm.refl _) (add_le_add (Multiset.zero_le _) le_rfl)
      · rename_i redis hadded
        obtain ⟨rfl, rfl⟩ := pushToQueue_added hadded
        cases h
        simp only [PushPc.calls, zero_add]
        exact .add rfl
  | returned err => simp [pushTurn, hpc] at h

/-- The worker makes no call, or has not begun the one it is to make. -/
def WorkerPc.Fresh (pc : WorkerPc) : Prop := pc.calls = 0 ∨ ∃ args, pc = .requeue args .begin

theorem retry_fresh (s : State) (a : PackArgs) (incrIteration incrBlock : Bool) (r : ProcessResult) :
    (retry cfg s a incrIteration incrBlock r).1.Fresh ∧ (retry cfg s a incrIteration incrBlock r).2.redis = s.redis := by
  rcases retry_cases cfg s a incrIteration incrBlock r with ⟨-, -, heq⟩ | ⟨-, heq⟩ | ⟨-, -, heq⟩
  · rw [heq]
    exact ⟨.inr ⟨_, rfl⟩, rfl⟩
  · rw [heq]
    exact ⟨.inl rfl, rfl⟩
  · rw [heq]
    exact ⟨.inl rfl, rfl⟩

theorem dispatch_fresh (s : State) (a : PackArgs) :
    (dispatch cfg s a).1.Fresh ∧ (dispatch cfg s a).2.redis = s.redis := by
  simp only [dispatch]
  split
  · exact retry_fresh ..
  · split
    · split
      · exact ⟨.inl rfl, rfl⟩
      · exact retry_fresh ..
    · exact ⟨.inl rfl, rfl⟩

theorem finishProcess_fresh (s : State) (a : PackArgs) (r : ProcessResult) :
    (finishProcess cfg s a r).1.Fresh ∧ (finishProcess cfg s a r).2.redis = s.redis := by
  unfold finishProcess
  cases verdict r with
  | unrecoverable => exact ⟨.inl rfl, rfl⟩
  | unknown => exact ⟨.inl rfl, rfl⟩
  | _ => exact retry_fresh ..

theorem refused_fresh (s : State) (a : PackArgs) (giveUp : Bool) :
    (refused s a giveUp).1.Fresh ∧ (refused s a giveUp).2.redis = s.redis := by
  cases giveUp with
  | false => exact ⟨.inr ⟨a, rfl⟩, rfl⟩
  | true => exact ⟨.inl rfl, rfl⟩

theorem CallMove.of_fresh {block : UInt64} {redis : List (Nat × Bytes)} {calls : Multiset Call} {pc : WorkerPc}
    (hfresh : pc.Fresh) (hle : rest ≤ calls) : CallMove cfg block redis calls redis (pc.calls + rest) := by
  rcases hfresh with hzero | ⟨a, rfl⟩
  · rw [hzero, zero_add]
    exact .settle (List.Subperm.refl _) hle
  · exact .start hle

theorem workerTurn_callMove {env : WorkerEnv} {pc pc' : WorkerPc} (h : workerTurn cfg s env pc = some (pc', s')) :
    CallMove cfg s.currentBlock s.redis (pc.calls + rest) s'.redis (pc'.calls + rest) := by
  have hless : rest ≤ pc.calls + rest := Multiset.le_add_left _ _
  cases pc with
  | idle =>
    simp only [workerTurn] at h
    split at h
    · cases h
      exact .settle (List.Subperm.refl _) le_rfl
    · split at h
      · cases h
      · rename_i score member redis hpop
        have hsub : redis.Subperm s.redis :=
          ((List.sublist_cons_self _ _).subperm).trans (popMin_perm hpop).symm.subperm
        split at h
        · cases h
          exact .settle hsub le_rfl
        · cases h
          exact .settle hsub le_rfl
  | popped a =>
    obtain ⟨rfl, rfl⟩ := Prod.ext_iff.1 (Option.some.inj h)
    obtain ⟨hfresh, hredis⟩ := @dispatch_fresh cfg s a
    rw [hredis]
    exact .of_fresh hfresh hless
  | processing a =>
    obtain ⟨rfl, rfl⟩ := Prod.ext_iff.1 (Option.some.inj h)
    obtain ⟨hfresh, hredis⟩ := @finishProcess_fresh cfg (s.log (.returned a env.result)) a env.result
    rw [hredis]
    exact .of_fresh hfresh hless
  | requeue a stage =>
    simp only [workerTurn] at h
    split at h
    · obtain ⟨rfl, rfl⟩ := Prod.ext_iff.1 (Option.some.inj h)
      obtain ⟨hfresh, hredis⟩ := refused_fresh s a env.giveUp
      rw [hredis]
      exact .of_fresh hfresh hless
    · split at h
      · rename_i hgo
        cases h
        exact .advance rfl hgo
      · obtain ⟨rfl, rfl⟩ := Prod.ext_iff.1 (Option.some.inj h)
        obtain ⟨hfresh, hredis⟩ := refused_fresh s a env.giveUp
        rw [hredis]
        exact .of_fresh hfresh hless
      · rename_i redis hadded
        obtain ⟨rfl, rfl⟩ := pushToQueue_added hadded
        cases h
        simp only [WorkerPc.calls, zero_add]
        exact .add rfl

theorem step_callMove {a : Action} (h : step cfg s a = some s') :
    CallMove cfg s.currentBlock s.redis s.calls s'.redis s'.calls := by
  cases a with
  | push c =>
    cases h
    refine .settle (List.Subperm.refl _) ?_
    simp [State.calls, PushPc.calls]
  | pushStep i fails =>
    simp only [step, Option.bind_eq_bind, Option.bind_eq_some_iff] at h
    obtain ⟨p, hp, ⟨pc, s₁⟩, hturn, heq⟩ := h
    cases heq
    obtain ⟨others, hsum, hset⟩ := exists_rest (fun p : Push => p.pc.calls) hp
    have hmove : CallMove cfg s.currentBlock s.redis (p.pc.calls + (others + (s.workers.map WorkerPc.calls).sum))
        s₁.redis (pc.calls + (others + (s.workers.map WorkerPc.calls).sum)) := pushTurn_callMove hturn
    simpa only [State.calls, hsum, hset, pushTurn_workers hturn, add_assoc] using hmove
  | update block =>
    cases h
    exact .settle (List.Subperm.refl _) le_rfl
  | updateStep i =>
    simp only [step, Option.bind_eq_bind, Option.bind_eq_some_iff] at h
    obtain ⟨u, -, ⟨pc, s₁⟩, hturn, heq⟩ := h
    cases heq
    rw [updateTurn_frame hturn]
    exact .settle (List.Subperm.refl _) le_rfl
  | worker w env =>
    simp only [step, Option.bind_eq_bind, Option.bind_eq_some_iff] at h
    obtain ⟨pc, hpc, ⟨pc', s₁⟩, hturn, heq⟩ := h
    cases heq
    obtain ⟨others, hsum, hset⟩ := exists_rest WorkerPc.calls hpc
    have hmove : CallMove cfg s.currentBlock s.redis (pc.calls + (others + (s.pushes.map (·.pc.calls)).sum))
        s₁.redis (pc'.calls + (others + (s.pushes.map (·.pc.calls)).sum)) := workerTurn_callMove hturn
    rw [← add_assoc, ← add_assoc, add_comm _ (s.pushes.map _).sum, add_comm _ (s.pushes.map _).sum] at hmove
    simpa only [State.calls, hsum, hset, workerTurn_pushes hturn] using hmove

/-! ## The two classes -/

section Class
variable (cfg) (currentBlock : UInt64) (now : Bool)

/-- The higher of the two thresholds of a class. -/
def limit : Nat := max (threshold cfg now false).toNat (threshold cfg now true).toNat

/-- The items of a class in the sorted set, as `queuedItems` counts them. -/
def queued (redis : List (Nat × Bytes)) : Nat :=
  if now then zcountUpTo redis (score (currentBlock + 1)) else zcountFrom redis (score (currentBlock + 1 + 1))

def InClass (args : PackArgs) : Prop := decide (args.minTargetBlock ≤ currentBlock + 1) = now

instance (args : PackArgs) : Decidable (InClass currentBlock now args) := inferInstanceAs (Decidable (_ = _))

/-- The count of the class that a call has read. -/
def PushStage.counted : PushStage → Option Nat
  | .countLater _ processable => if now then some processable else none
  | .check processable unprocessable => some (if now then processable else unprocessable)
  | _ => none

/-- The call will insert an item of the class unless its own threshold is lower
than the limit: it counted fewer, or has already passed the check. -/
def Call.Armed (c : Call) : Prop :=
  InClass currentBlock now c.args ∧ (c.stage = .add ∨ ∃ n ∈ c.stage.counted now, n < limit cfg now)

instance (c : Call) : Decidable (c.Armed cfg currentBlock now) := inferInstanceAs (Decidable (_ ∧ _))

/-- The call counts for the current block. -/
def Call.Current (c : Call) : Prop :=
  match c.stage with
  | .count nextBlock => nextBlock = currentBlock + 1
  | .countLater nextBlock _ => nextBlock = currentBlock + 1
  | _ => True

/-- The items of the class with those that armed calls may still add. -/
def load (redis : List (Nat × Bytes)) (calls : Multiset Call) : Nat :=
  queued currentBlock now redis + calls.countP (Call.Armed cfg currentBlock now)

end Class

variable {block : UInt64} {now : Bool} {redis redis' : List (Nat × Bytes)} {calls calls' : Multiset Call}

theorem current_move (h : CallMove cfg block redis calls redis' calls') (hc : ∀ c ∈ calls, c.Current block) :
    ∀ c ∈ calls', c.Current block := by
  cases h with
  | settle _ hle => exact fun c hc' => hc c (Multiset.mem_of_le hle hc')
  | start hle =>
    intro c hc'
    rcases Multiset.mem_add.1 hc' with hc' | hc'
    · rw [Multiset.mem_singleton.1 hc']
      trivial
    · exact hc c (Multiset.mem_of_le hle hc')
  | @advance args stage stage' rest hcalls hgo =>
    intro c hc'
    rcases Multiset.mem_add.1 hc' with hc' | hc'
    · rw [Multiset.mem_singleton.1 hc']
      have hcall : Call.Current block ⟨args, stage⟩ := hc _ (by simp [hcalls])
      cases stage with
      | begin =>
        cases hgo
        rfl
      | count nextBlock =>
        cases hgo
        exact hcall
      | countLater nextBlock processable =>
        cases hgo
        trivial
      | check processable unprocessable =>
        rcases pushToQueue_check cfg block redis args processable unprocessable with ⟨-, heq⟩ | heq
        · rw [heq] at hgo
          cases hgo
          trivial
        · rw [heq] at hgo
          cases hgo
      | add => cases hgo
    · exact hc c (by simp [hcalls, hc'])
  | add hcalls => exact fun c hc' => hc c (by simp [hcalls, hc'])

theorem queued_subperm (h : redis'.Subperm redis) : queued block now redis' ≤ queued block now redis := by
  unfold queued zcountUpTo zcountFrom
  split
  · exact h.countP_le _
  · exact h.countP_le _

/-- An item that is inserted is in the class that it was checked for, as long as scores are exact. -/
theorem queued_zadd_le (hsmall : block.toNat + 2 ≤ 2 ^ 53) (args : PackArgs) :
    queued block now (zadd redis (packData args).1 (packData args).2) ≤
      queued block now redis + if InClass block now args then 1 else 0 := by
  have hnext : (block + 1).toNat = block.toNat + 1 := by
    rw [UInt64.toNat_add, UInt64.toNat_one]
    omega
  have hlater : (block + 1 + 1).toNat = block.toNat + 2 := by
    rw [UInt64.toNat_add, UInt64.toNat_one, hnext]
    omega
  have hscore : score (block + 1) = block.toNat + 1 := by
    rw [score, hnext]
    exact toDouble_of_le (by omega)
  have hscore' : score (block + 1 + 1) = block.toNat + 2 := by
    rw [score, hlater]
    exact toDouble_of_le (by omega)
  -- a block above the class may be rounded, but not down into it
  have hclass : args.minTargetBlock ≤ block + 1 ↔ (packData args).1 ≤ block.toNat + 1 := by
    rw [UInt64.le_iff_toNat_le, hnext]
    constructor
    · intro h
      simp only [packData, score]
      rwa [toDouble_of_le (by omega)]
    · intro h
      by_contra hgt
      have : block.toNat + 2 ≤ (packData args).1 := le_toDouble hsmall (by omega)
      omega
  unfold queued zcountUpTo zcountFrom InClass
  cases now with
  | true =>
    simp only [↓reduceIte, hscore, decide_eq_true_eq, hclass]
    refine le_trans (countP_zadd_le _ redis _ _) ?_
    simp
  | false =>
    simp only [Bool.false_eq_true, ↓reduceIte, hscore', decide_eq_false_iff_not, hclass]
    refine le_trans (countP_zadd_le _ redis _ _) ?_
    simp only [decide_eq_true_eq]
    split <;> split <;> omega

/-- A call that goes on becomes armed only by a count below the limit. -/
theorem armed_advance {args : PackArgs} {stage stage' : PushStage}
    (hgo : pushToQueue cfg block redis args stage = .goOn stage') (hcur : Call.Current block ⟨args, stage⟩)
    (harmed : Call.Armed cfg block now ⟨args, stage'⟩) :
    Call.Armed cfg block now ⟨args, stage⟩ ∨ queued block now redis < limit cfg now := by
  obtain ⟨hclass, harmed⟩ := harmed
  cases stage with
  | begin =>
    cases hgo
    simp [PushStage.counted] at harmed
  | count nextBlock =>
    cases hgo
    obtain rfl : nextBlock = block + 1 := hcur
    cases now with
    | true => exact .inr (by simpa [PushStage.counted, queued] using harmed)
    | false => simp [PushStage.counted] at harmed
  | countLater nextBlock processable =>
    cases hgo
    obtain rfl : nextBlock = block + 1 := hcur
    cases now with
    | true => exact .inl ⟨hclass, by simpa [PushStage.counted] using harmed⟩
    | false => exact .inr (by simpa [PushStage.counted, queued] using harmed)
  | check processable unprocessable =>
    rcases pushToQueue_check cfg block redis args processable unprocessable with ⟨hlt, -⟩ | hfull
    · refine .inl ⟨hclass, .inr ⟨_, rfl, ?_⟩⟩
      have hclass' : decide (args.minTargetBlock ≤ block + 1) = now := hclass
      rw [hclass'] at hlt
      -- the threshold of the call's own priority is one of the two that the limit is the larger of
      refine lt_of_lt_of_le hlt ?_
      unfold limit
      cases args.highPriority with
      | true => exact le_max_right ..
      | false => exact le_max_left ..
    · rw [hfull] at hgo
      cases hgo
  | add => cases hgo

/-- The load grows only by a call that counts fewer items than the limit. -/
theorem load_move (hsmall : block.toNat + 2 ≤ 2 ^ 53) (h : CallMove cfg block redis calls redis' calls')
    (hcur : ∀ c ∈ calls, c.Current block) :
    load cfg block now redis' calls' ≤ load cfg block now redis calls ∨ queued block now redis' < limit cfg now := by
  unfold load
  cases h with
  | settle hsub hle => exact .inl (Nat.add_le_add (queued_subperm hsub) (Multiset.countP_le_of_le _ hle))
  | @start args rest hle =>
    have hnew : ¬Call.Armed cfg block now ⟨args, .begin⟩ := by simp [Call.Armed, PushStage.counted]
    rw [Multiset.singleton_add, Multiset.countP_cons_of_neg _ hnew]
    exact .inl (Nat.add_le_add_left (Multiset.countP_le_of_le _ hle) _)
  | @advance args stage stage' rest hcalls hgo =>
    by_cases harmed : Call.Armed cfg block now ⟨args, stage'⟩
    · rcases armed_advance hgo (hcur _ (by simp [hcalls])) harmed with hbefore | hlt
      · left
        rw [hcalls, Multiset.singleton_add, Multiset.singleton_add, Multiset.countP_cons_of_pos _ harmed,
          Multiset.countP_cons_of_pos _ hbefore]
      · exact .inr hlt
    · left
      rw [hcalls, Multiset.singleton_add, Multiset.singleton_add, Multiset.countP_cons_of_neg _ harmed]
      exact Nat.add_le_add_left (Multiset.countP_le_of_le _ (Multiset.le_cons_self _ _)) _
  | @add args rest hcalls =>
    left
    have harmed : Call.Armed cfg block now ⟨args, .add⟩ ↔ InClass block now args := by simp [Call.Armed]
    have hadd := @queued_zadd_le block now redis hsmall args
    rw [hcalls, Multiset.singleton_add, Multiset.countP_cons]
    simp only [harmed]
    omega

/-! ## The queue -/

/-- The call has made its first access. -/
def PushStage.inProgress (stage : PushStage) : Bool := stage ≠ .begin

def PushPc.inProgress : PushPc → Bool
  | .pushing _ stage => stage.inProgress
  | _ => false

def WorkerPc.inProgress : WorkerPc → Bool
  | .requeue _ stage => stage.inProgress
  | _ => false

/-- The number of calls of `pushToQueue` in progress, of `Push` and of the workers together. -/
def State.callsInProgress (s : State) : Nat :=
  s.pushes.countP (·.pc.inProgress) + s.workers.countP WorkerPc.inProgress

theorem callsInProgress_eq (s : State) : s.callsInProgress = s.calls.countP fun c => c.stage.inProgress = true := by
  have hone (args : PackArgs) (stage : PushStage) :
      ({⟨args, stage⟩} : Multiset Call).countP (fun c => c.stage.inProgress = true) =
        if stage.inProgress then 1 else 0 := by
    rw [← Multiset.cons_zero]
    cases hstage : stage.inProgress with
    | true =>
      have hcall : (Call.mk args stage).stage.inProgress = true := hstage
      rw [Multiset.countP_cons_of_pos (p := fun c : Call => c.stage.inProgress = true) _ hcall, Multiset.countP_zero]
      rfl
    | false =>
      have hcall : ¬(Call.mk args stage).stage.inProgress = true := by simp [hstage]
      rw [Multiset.countP_cons_of_neg (p := fun c : Call => c.stage.inProgress = true) _ hcall, Multiset.countP_zero]
      rfl
  have hpush (p : Push) : p.pc.calls.countP (fun c => c.stage.inProgress = true) = if p.pc.inProgress then 1 else 0 := by
    cases p.pc with
    | pushing args stage => exact hone args stage
    | _ => rfl
  have hworker (pc : WorkerPc) : pc.calls.countP (fun c => c.stage.inProgress = true) = if pc.inProgress then 1 else 0 := by
    cases pc with
    | requeue args stage => exact hone args stage
    | _ => rfl
  rw [State.calls, Multiset.countP_add, countP_sum hpush, countP_sum hworker]
  rfl

theorem armed_le_callsInProgress (s : State) (block : UInt64) (now : Bool) :
    s.calls.countP (Call.Armed cfg block now) ≤ s.callsInProgress := by
  rw [callsInProgress_eq, Multiset.countP_eq_card_filter, Multiset.countP_eq_card_filter]
  refine Multiset.card_le_card (Multiset.monotone_filter_right _ ?_)
  rintro ⟨args, stage⟩ ⟨-, harmed⟩
  cases stage with
  | begin => simp [PushStage.counted] at harmed
  | _ => rfl

theorem current_of_none_inProgress (h : s.callsInProgress = 0) : ∀ c ∈ s.calls, c.Current block := by
  rw [callsInProgress_eq, Multiset.countP_eq_zero] at h
  rintro ⟨args, stage⟩ hc
  have hbegin : stage = .begin := by simpa [PushStage.inProgress] using h _ hc
  subst hbegin
  trivial

/-- While the current block is the same, the calls begin after it was set and at
most `k` are in progress at a time, each class exceeds the higher of its
thresholds by at most `k - 1` items, if it did not exceed it at the start. -/
theorem queued_within_limit {s₀ : State} {tr : List (State × Action)} {k : Nat}
    (hrun : Run (step cfg) s₀ tr s) (hsmall : s₀.currentBlock.toNat + 2 ≤ 2 ^ 53)
    (hblock : ∀ p ∈ tr, p.1.currentBlock = s₀.currentBlock) (hnone : s₀.callsInProgress = 0)
    (hcalls : ∀ p ∈ tr, p.1.callsInProgress ≤ k) (hlast : s.callsInProgress ≤ k) (now : Bool)
    (hstart : queued s₀.currentBlock now s₀.redis ≤ limit cfg now) :
    queued s₀.currentBlock now s.redis ≤ limit cfg now + (k - 1) := by
  have hinv : (∀ c ∈ s.calls, c.Current s₀.currentBlock) ∧
      load cfg s₀.currentBlock now s.redis s.calls ≤ limit cfg now + (k - 1) := by
    induction hrun with
    | nil =>
      refine ⟨current_of_none_inProgress hnone, ?_⟩
      have harmed := @armed_le_callsInProgress cfg s₀ s₀.currentBlock now
      unfold load
      omega
    | @snoc tr s a s' _ hstep ih =>
      obtain ⟨hcur, hload⟩ := ih (fun p hp => hblock p (by simp [hp])) (fun p hp => hcalls p (by simp [hp]))
        (hcalls (s, a) (by simp))
      have hmove := step_callMove hstep
      rw [show s.currentBlock = s₀.currentBlock from hblock (s, a) (by simp)] at hmove
      refine ⟨current_move hmove hcur, ?_⟩
      rcases load_move hsmall hmove hcur with hle | hlt
      · exact le_trans hle hload
      · -- a call that has just been armed saw a free place, and only the other calls in progress are armed beside it
        have harmed := @armed_le_callsInProgress cfg s' s₀.currentBlock now
        unfold load
        omega
  exact le_trans (Nat.le_add_right ..) hinv.2

/-- Room for one item that can be processed. -/
def oneProcessable : RedisQueueConfig := ⟨2, 1, 1, 10, 10, 0⟩

def item (data : UInt8) (block : UInt64) : PushCall := ⟨[data], false, block, block, 0⟩

/-- Two calls that both count before either inserts take the last place twice. -/
theorem queued_within_limit_two :
    ∃ tr s, Run (step oneProcessable) (State.start 0 0) tr s ∧ (∀ p ∈ tr, p.1.callsInProgress ≤ 2) ∧
      limit oneProcessable true = 1 ∧ queued 0 true s.redis = 2 ∧
      queued 0 true s.redis ≤ limit oneProcessable true + (2 - 1) := by
  have hseen : (List.foldlM
      (fun s a => if s.currentBlock = 0 ∧ s.callsInProgress ≤ 2 then step oneProcessable s a else none) (State.start 0 0)
      (List.flatten [[.push (item 7 1), .push (item 8 1)], List.replicate 4 (.pushStep 0 false),
        List.replicate 4 (.pushStep 1 false), List.replicate 2 (.pushStep 0 false),
        List.replicate 2 (.pushStep 1 false)])).map (fun s => (s.callsInProgress, queued 0 true s.redis)) =
      some (0, 2) := by decide +kernel
  obtain ⟨s, hexec, hs⟩ := Option.map_eq_some_iff.1 hseen
  obtain ⟨hnone, htwo⟩ := Prod.mk.inj hs
  obtain ⟨tr, hrun, hok⟩ := run_of_checked hexec
  refine ⟨tr, s, hrun, fun p hp => (hok p hp).2, rfl, htwo, ?_⟩
  exact queued_within_limit hrun (by decide) (fun p hp => (hok p hp).1) rfl (fun p hp => (hok p hp).2)
    (hnone ▸ Nat.zero_le _) true (by decide)

/-- The bound fails where a score is rounded: an item for block 2^53 + 1 is
checked as one for later and stored as one for 2^53, so a single caller fills the
queue past the limit. It also fails for a call that began before the current
block was set: one that counted for the old block inserts for the new one. -/
theorem queued_past_limit :
    (∃ tr s, Run (step oneProcessable) (State.start 9007199254740991 0) tr s ∧
      (∀ p ∈ tr, p.1.currentBlock = 9007199254740991 ∧ p.1.callsInProgress ≤ 1) ∧ s.callsInProgress ≤ 1 ∧
      limit oneProcessable true = 1 ∧ queued 9007199254740991 true s.redis = 2) ∧
    ∃ tr₀ s₀ tr s, Run (step oneProcessable) (State.start 0 0) tr₀ s₀ ∧ Run (step oneProcessable) s₀ tr s ∧
      (∀ p ∈ tr, p.1.currentBlock = 1 ∧ p.1.callsInProgress ≤ 1) ∧ s.callsInProgress ≤ 1 ∧
      queued 1 true s₀.redis = limit oneProcessable true ∧ queued 1 true s.redis = 2 := by
  have hrounded : (List.foldlM
      (fun s a => if s.currentBlock = 9007199254740991 ∧ s.callsInProgress ≤ 1 then step oneProcessable s a else none)
      (State.start 9007199254740991 0)
      (List.flatten [[.push (item 7 9007199254740993)], List.replicate 6 (.pushStep 0 false),
        [.push (item 8 9007199254740993)], List.replicate 6 (.pushStep 1 false)])).map
        (fun s => (s.callsInProgress, queued 9007199254740991 true s.redis)) = some (0, 2) := by decide +kernel
  obtain ⟨s, hexec, hs⟩ := Option.map_eq_some_iff.1 hrounded
  obtain ⟨hnone, htwo⟩ := Prod.mk.inj hs
  obtain ⟨tr, hrun, hok⟩ := run_of_checked hexec
  have hstale : ∃ s₀ s, List.foldlM (step oneProcessable) (State.start 0 0)
        (List.flatten [[.push (item 7 2)], List.replicate 6 (.pushStep 0 false), [.push (item 8 2)],
          List.replicate 4 (.pushStep 1 false), [.update 1, .updateStep 0, .updateStep 0]]) = some s₀ ∧
      List.foldlM (fun s a => if s.currentBlock = 1 ∧ s.callsInProgress ≤ 1 then step oneProcessable s a else none) s₀
        (List.replicate 2 (.pushStep 1 false)) = some s ∧ s.callsInProgress = 0 ∧
      queued 1 true s₀.redis = 1 ∧ queued 1 true s.redis = 2 := ⟨_, _, rfl, rfl, rfl, rfl, rfl⟩
  obtain ⟨s₀, s', hbefore, hafter, hnone', hone, htwo'⟩ := hstale
  obtain ⟨tr₀, hrun₀, -⟩ := run_of_foldlM hbefore
  obtain ⟨tr', hrun', hok'⟩ := run_of_checked hafter
  exact ⟨⟨tr, s, hrun, hok, hnone ▸ Nat.zero_le _, rfl, htwo⟩,
    tr₀, s₀, tr', s', hrun₀, hrun', hok', hnone' ▸ Nat.zero_le _, hone, htwo'⟩

end MevShare.Queue
