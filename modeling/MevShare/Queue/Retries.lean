import MevShare.Queue.Conservation
/-!
# How often an item is processed

Each accepted item brings a budget of `MaxRetries` invocations of `process`. An
item in the queue still has what its iteration leaves of it, and a return of
`ErrLaggingBlock` gives the invocation back. The budget holds as long as no item
that has used it up is due once more: `retryItem` looks at the iteration before
it counts the attempt, and nothing looks at it before `process`.
-/
open Lib

namespace MevShare.Queue

variable {cfg : RedisQueueConfig} {lossless inTime : Prop} {b b' : Board} {k : Key}

def Event.invokes (k : Key) : Event → Bool
  | .invoked a _ _ => a.key = k
  | .returned _ _ => false

def Event.lags (k : Key) : Event → Bool
  | .invoked _ _ _ => false
  | .returned a r => a.key = k && verdict r = .lagging

/-- The invocations of `process` on an item. -/
def invocations (events : List Event) (k : Key) : Nat := events.countP (Event.invokes k)

/-- Those that returned `ErrLaggingBlock`. -/
def laggingInvocations (events : List Event) (k : Key) : Nat := events.countP (Event.lags k)

/-- What is left of the budget of an item. -/
def Token.credit (cfg : RedisQueueConfig) (k : Key) (x : Token) : Nat :=
  if x.args.key = k then
    cfg.maxRetries.toNat - x.args.iteration.toNat - (if x.phase = .processing then 1 else 0)
  else 0

def credits (cfg : RedisQueueConfig) (k : Key) (tokens : Multiset Token) : Nat :=
  (tokens.map (Token.credit cfg k)).sum

@[simp] theorem credits_add (x : Token) (rest : Multiset Token) :
    credits cfg k ({x} + rest) = x.credit cfg k + credits cfg k rest := by
  simp [credits]

def Board.Budget (cfg : RedisQueueConfig) (k : Key) (b : Board) : Prop :=
  invocations b.events k + credits cfg k b.tokens ≤
    cfg.maxRetries.toNat * (b.accepted.map PushCall.key).count k + laggingInvocations b.events k

theorem Held.credit {a a' : PackArgs} (h : Held a a') :
    Token.credit cfg k ⟨a', .requeue⟩ = Token.credit cfg k ⟨a, .popped⟩ := by
  rcases h with rfl | ⟨_, _, _, rfl⟩ <;> rfl

theorem credit_invoked {a : PackArgs} {currentBlock : UInt64} {info : QueueItemInfo}
    (hlt : a.iteration < cfg.maxRetries) :
    Token.credit cfg k ⟨a, .processing⟩ + (if Event.invokes k (.invoked a currentBlock info) then 1 else 0) =
      Token.credit cfg k ⟨a, .popped⟩ := by
  have := UInt16.lt_iff_toNat_lt.1 hlt
  simp only [Token.credit, Event.invokes, decide_eq_true_eq, reduceCtorEq, ↓reduceIte]
  split <;> omega

/-- An attempt that counts has used up its invocation, one that lags gets it back. -/
theorem Retried.credit {r : ProcessResult} {a a' : PackArgs} (h : Retried cfg r a a') :
    Token.credit cfg k ⟨a', .requeue⟩ ≤
      Token.credit cfg k ⟨a, .processing⟩ + if Event.lags k (.returned a r) then 1 else 0 := by
  obtain ⟨hlt, h⟩ := h
  have hiter : (a.iteration + 1).toNat = a.iteration.toNat + 1 := by
    have := cfg.maxRetries.toNat_lt
    have := UInt16.lt_iff_toNat_lt.1 hlt
    rw [UInt16.toNat_add, UInt16.toNat_one]
    omega
  -- all results but a lagging block count the attempt
  have hcounted {incrBlock : Bool} (hbump : a' = a.bump true incrBlock) :
      Token.credit cfg k ⟨a', .requeue⟩ = Token.credit cfg k ⟨a, .processing⟩ := by
    subst hbump
    simp only [Token.credit, PackArgs.bump, PackArgs.key, hiter, reduceCtorEq, ↓reduceIte]
    split <;> omega
  split at h
  · rw [hcounted h]
    exact Nat.le_add_right ..
  · rw [hcounted h.2]
    exact Nat.le_add_right ..
  · rw [hcounted h.2]
    exact Nat.le_add_right ..
  · rename_i hlag
    subst h
    simp only [Token.credit, Event.lags, hlag, decide_true, Bool.and_true, decide_eq_true_eq, reduceCtorEq, ↓reduceIte]
    split <;> omega
  · exact h.elim

theorem budget_move (h : Move cfg lossless inTime b b') (hin : inTime) (hb : b.Budget cfg k) : b'.Budget cfg k := by
  unfold Board.Budget at *
  cases h with
  | stutter => exact hb
  | @accept c a merged rest hfits _ htokens =>
    have hnew : Token.credit cfg k ⟨a.stored cfg.outOfRange, .queued⟩ ≤
        cfg.maxRetries.toNat * Multiset.count k {c.key} := by
      have hkey : (a.stored cfg.outOfRange).key = c.key := hfits.key
      simp only [Token.credit, hkey, Multiset.count_singleton, eq_comm]
      split
      · simp
      · simp
    have hmerged : credits cfg k b.tokens = credits cfg k merged + credits cfg k rest := by simp [credits, htokens]
    simp only [credits_add, Multiset.map_add, Multiset.map_singleton, Multiset.count_add, Nat.mul_add]
    omega
  | @requeued a merged rest _ htokens =>
    have hnew : Token.credit cfg k ⟨a.stored cfg.outOfRange, .queued⟩ = Token.credit cfg k ⟨a, .requeue⟩ := rfl
    have hmerged : credits cfg k (merged + rest) = credits cfg k merged + credits cfg k rest := by simp [credits]
    rw [htokens, credits_add] at hb
    simp only [credits_add]
    omega
  | @pop a rest htokens =>
    have hnew : Token.credit cfg k ⟨a, .popped⟩ = Token.credit cfg k ⟨a, .queued⟩ := rfl
    rw [htokens, credits_add] at hb
    rwa [credits_add, hnew]
  | hold _ hheld htokens =>
    rw [htokens, credits_add] at hb
    rwa [credits_add, hheld.credit]
  | @invoke a currentBlock rest _ hleft htokens =>
    have hcredit := @credit_invoked _ k _ currentBlock ⟨a.iteration.toNat, a.minTargetBlock⟩ (hleft hin)
    rw [htokens, credits_add] at hb
    simp only [credits_add, invocations, laggingInvocations, List.countP_append, List.countP_singleton, Event.lags]
      at hb ⊢
    simp only [Bool.false_eq_true, ↓reduceIte]
    omega
  | @retried a a' r rest hretried htokens =>
    have hcredit := @Retried.credit _ k _ _ _ hretried
    rw [htokens, credits_add] at hb
    simp only [credits_add, invocations, laggingInvocations, List.countP_append, List.countP_singleton, Event.invokes]
      at hb ⊢
    simp only [Bool.false_eq_true, ↓reduceIte]
    omega
  | dropped _ _ _ htokens =>
    rw [htokens, credits_add] at hb
    dsimp only
    omega
  | done _ _ htokens =>
    rw [htokens, credits_add] at hb
    simp only [invocations, laggingInvocations, List.countP_append, List.countP_singleton, Event.invokes] at hb ⊢
    simp only [Bool.false_eq_true, ↓reduceIte]
    omega
  | lose _ htokens =>
    rw [htokens, credits_add] at hb
    dsimp only
    omega

/-! ## The queue -/

/-- How many calls of `Push` were accepted with this item. -/
def State.acceptedPushes (s : State) (k : Key) : Nat :=
  s.pushes.countP fun p => p.pc = .returned none ∧ p.call.key = k

theorem acceptedPushes_eq_count (s : State) (k : Key) :
    s.acceptedPushes k = ((s.board cfg).accepted.map PushCall.key).count k := by
  have hone (p : Push) : (p.accepted.map PushCall.key).count k =
      if decide (p.pc = .returned none ∧ p.call.key = k) then 1 else 0 := by
    unfold Push.accepted
    split
    · rename_i hpc
      simp [hpc, Multiset.count_singleton, eq_comm]
    · rename_i hpc
      rw [if_neg fun h => hpc (of_decide_eq_true h).1]
      rfl
  exact (count_map_sum hone s.pushes).symm

/-- If no worker finds an item due that has used up its iterations, `process` is
invoked on an item at most `MaxRetries` times for each call of `Push` that was
accepted with it, not counting the invocations that returned `ErrLaggingBlock`. -/
theorem invocations_within_retries {block : UInt64} {nWorkers : Nat} {tr : List (State × Action)} {s : State}
    (hrun : Run (step cfg) (State.start block nWorkers) tr s) (hok : ∀ p ∈ tr, InTime cfg p.1 p.2) (k : Key) :
    invocations s.events k ≤ cfg.maxRetries.toNat * s.acceptedPushes k + laggingInvocations s.events k := by
  have hbudget : (s.board cfg).Budget cfg k :=
    board_inv (Board.Budget cfg k) (by simp [Board.Budget, invocations, credits])
      (fun _ _ _ _ hin hb hmove => budget_move hmove hin hb) hrun hok
  rw [acceptedPushes_eq_count]
  exact le_trans (Nat.le_add_right ..) hbudget

def oneRetry : RedisQueueConfig := { smallConfig with maxRetries := 1 }

theorem invocations_within_retries_once :
    ∃ tr s, Run (step oneRetry) (State.start 0 1) tr s ∧ (∀ p ∈ tr, InTime oneRetry p.1 p.2) ∧
      s.events.length = 2 ∧ invocations s.events (untilBlockOne 1).key ≤
        oneRetry.maxRetries.toNat * s.acceptedPushes (untilBlockOne 1).key +
          laggingInvocations s.events (untilBlockOne 1).key := by
  have hfollows : ∃ s, Follows (step oneRetry) (InTime oneRetry) (State.start 0 1)
      (pushed (untilBlockOne 1) ++ List.replicate 3 (worked none)) s ∧ s.events.length = 2 :=
    ⟨_, ⟨trivial, _, rfl, trivial, _, rfl, trivial, _, rfl, trivial, _, rfl, trivial, _, rfl, trivial, _, rfl,
      trivial, _, rfl, (fun _ h => nomatch h), _, rfl, (fun _ h _ => by cases h; decide), _, rfl,
      (fun _ h => nomatch h), _, rfl, rfl⟩, rfl⟩
  obtain ⟨s, hfollows, hevents⟩ := hfollows
  obtain ⟨tr, hrun, hok⟩ := hfollows.run
  exact ⟨tr, s, hrun, hok, hevents, invocations_within_retries hrun hok _⟩

/-- With one retry: the attempt is counted after the check, so the item goes back
to the queue and is processed a second time for the same block. -/
theorem invoked_past_retries :
    ∃ tr s, Run (step oneRetry) (State.start 0 1) tr s ∧ oneRetry.maxRetries = 1 ∧
      s.pushes = [⟨untilBlockOne 1, .returned none⟩] ∧ invocations s.events (untilBlockOne 1).key = 2 ∧
      laggingInvocations s.events (untilBlockOne 1).key = 0 := by
  have hexec : ∃ s, List.foldlM (step oneRetry) (State.start 0 1)
        (pushed (untilBlockOne 1) ++ List.replicate 10 (worked (some [.workerError]))) = some s ∧
      s.pushes = [⟨untilBlockOne 1, .returned none⟩] ∧ invocations s.events (untilBlockOne 1).key = 2 ∧
      laggingInvocations s.events (untilBlockOne 1).key = 0 :=
    ⟨_, rfl, rfl, rfl, rfl⟩
  obtain ⟨s, hexec, hpushes, htwo, hnone⟩ := hexec
  obtain ⟨tr, hrun, -⟩ := run_of_foldlM hexec
  exact ⟨tr, s, hrun, rfl, hpushes, htwo, hnone⟩

end MevShare.Queue
