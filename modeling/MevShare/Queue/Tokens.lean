import MevShare.Lib.Checks
import MevShare.Lib.Runs
import MevShare.Lib.Tally
import MevShare.Queue.Model
/-!
# The queue as a game of tokens

What the queue is for: every accepted item is a token that moves between the
sorted set and the workers until it is taken off the board. `Move` says what one
turn can do to the board, and `step_move` that the code does nothing else. The
theorems about the queue are invariants of the moves.

Two items that are the same to Redis (same member) merge into one token.
-/
open Lib

namespace MevShare.Queue

/-! ## The board -/

inductive Phase where
  | queued | popped | processing | requeue
deriving DecidableEq, Repr

structure Token where
  args : PackArgs
  phase : Phase
deriving DecidableEq, Repr

structure Board where
  tokens : Multiset Token
  accepted : Multiset PushCall
  events : List Event
  finished : List Finished

def entryTokens (cfg : RedisQueueConfig) (e : Nat × Bytes) : Multiset Token :=
  match unpackData cfg.outOfRange e.1 e.2 with
  | none => 0
  | some a => {⟨a, .queued⟩}

def WorkerPc.tokens : WorkerPc → Multiset Token
  | .idle => 0
  | .popped a => {⟨a, .popped⟩}
  | .processing a => {⟨a, .processing⟩}
  | .requeue a _ => {⟨a, .requeue⟩}

/-- A call of `Push` has put its item into the sorted set once it has returned nil. -/
def Push.accepted (p : Push) : Multiset PushCall :=
  match p.pc with
  | .returned none => {p.call}
  | _ => 0

def State.board (cfg : RedisQueueConfig) (s : State) : Board where
  tokens := (s.redis.map (entryTokens cfg)).sum + (s.workers.map WorkerPc.tokens).sum
  accepted := (s.pushes.map Push.accepted).sum
  events := s.events
  finished := s.finished

/-! ## The moves -/

/-- The item that `Push` makes of its arguments. -/
structure Fits (c : PushCall) (a : PackArgs) : Prop where
  key : a.key = c.key
  iteration : a.iteration = 0
  min : c.minTargetBlock ≤ a.minTargetBlock
  max : c.minTargetBlock ≤ c.maxTargetBlock → a.minTargetBlock ≤ a.maxTargetBlock

/-- An item that is requeued with or without counting the attempt and moving to the next block. -/
def PackArgs.bump (a : PackArgs) (incrIteration incrBlock : Bool) : PackArgs :=
  { a with
    iteration := if incrIteration then a.iteration + 1 else a.iteration
    minTargetBlock := if incrBlock then a.minTargetBlock + 1 else a.minTargetBlock }

/-- A popped item that was too early stays as it is; one that was late moves up to the next block. -/
def Held (a a' : PackArgs) : Prop :=
  a' = a ∨ ∃ nextBlock, a.minTargetBlock < nextBlock ∧ nextBlock ≤ a.maxTargetBlock ∧
    a' = { a with minTargetBlock := nextBlock }

/-- How an item goes back to the queue after `process`. -/
def Retried (cfg : RedisQueueConfig) (r : ProcessResult) (a a' : PackArgs) : Prop :=
  a.iteration < cfg.maxRetries ∧
    match verdict r with
    | .retry => a' = a.bump true false
    | .nextBlock | .success => a.minTargetBlock < a.maxTargetBlock ∧ a' = a.bump true true
    | .lagging => a' = a
    | _ => False

/-- The result of `process` that finished the item. -/
def Outcome.result : Outcome → Option ProcessResult
  | .noNextBlock r => some r
  | .processed r => some r
  | _ => none

/-- The item is finished for a reason of its own: it is stale, out of retries,
out of blocks, or `process` said so. -/
def Justified (cfg : RedisQueueConfig) (f : Finished) : Prop :=
  match f.outcome with
  | .stale nextBlock => f.args.maxTargetBlock < nextBlock
  | .exhausted => cfg.maxRetries ≤ f.args.iteration
  | .noNextBlock r => (verdict r = .success ∨ verdict r = .nextBlock) ∧ f.args.maxTargetBlock ≤ f.args.minTargetBlock
  | .processed r => verdict r = .unrecoverable ∨ verdict r = .unknown
  | .lost => False

/-- Queued tokens with the member of `a`. -/
def SameMember (a : PackArgs) (merged : Multiset Token) : Prop :=
  ∀ x ∈ merged, x.phase = .queued ∧ x.args.key = a.key ∧ x.args.iteration = a.iteration

/-- What one turn does to the board. The turn loses an item only if it is not
`lossless`, and if it is `inTime` it does not invoke `process` on an item that
is out of retries. -/
inductive Move (cfg : RedisQueueConfig) (lossless inTime : Prop) : Board → Board → Prop
  | stutter {b} : Move cfg lossless inTime b b
  | accept {b c a merged rest} : Fits c a → SameMember a merged → b.tokens = merged + rest →
      Move cfg lossless inTime b { b with
        tokens := {⟨a.stored cfg.outOfRange, .queued⟩} + rest, accepted := {c} + b.accepted }
  | requeued {b a merged rest} : SameMember a merged → b.tokens = {⟨a, .requeue⟩} + (merged + rest) →
      Move cfg lossless inTime b { b with tokens := {⟨a.stored cfg.outOfRange, .queued⟩} + rest }
  | pop {b a rest} : b.tokens = {⟨a, .queued⟩} + rest →
      Move cfg lossless inTime b { b with tokens := {⟨a, .popped⟩} + rest }
  | hold {b a a' rest} : a.iteration < cfg.maxRetries → Held a a' → b.tokens = {⟨a, .popped⟩} + rest →
      Move cfg lossless inTime b { b with tokens := {⟨a', .requeue⟩} + rest }
  | invoke {b a currentBlock rest} : a.minTargetBlock = currentBlock + 1 →
      (inTime → a.iteration < cfg.maxRetries) → b.tokens = {⟨a, .popped⟩} + rest →
      Move cfg lossless inTime b { b with
        tokens := {⟨a, .processing⟩} + rest
        events := b.events ++ [.invoked a currentBlock ⟨a.iteration.toNat, a.minTargetBlock⟩] }
  | retried {b a a' r rest} : Retried cfg r a a' → b.tokens = {⟨a, .processing⟩} + rest →
      Move cfg lossless inTime b { b with tokens := {⟨a', .requeue⟩} + rest, events := b.events ++ [.returned a r] }
  | dropped {b a a' outcome rest} : Held a a' → Justified cfg ⟨a', outcome⟩ → outcome.result = none →
      b.tokens = {⟨a, .popped⟩} + rest →
      Move cfg lossless inTime b { b with tokens := rest, finished := b.finished ++ [⟨a', outcome⟩] }
  | done {b a r outcome rest} : Justified cfg ⟨a, outcome⟩ → (∀ r', outcome.result = some r' → r' = r) →
      b.tokens = {⟨a, .processing⟩} + rest →
      Move cfg lossless inTime b { b with
        tokens := rest, events := b.events ++ [.returned a r], finished := b.finished ++ [⟨a, outcome⟩] }
  | lose {b a rest} : ¬lossless → b.tokens = {⟨a, .requeue⟩} + rest →
      Move cfg lossless inTime b { b with tokens := rest, finished := b.finished ++ [⟨a, .lost⟩] }

/-! ## What the code computes -/

theorem fits_of_pushArgs {c : PushCall} {currentBlock : UInt64} {a : PackArgs} (h : pushArgs c currentBlock = .ok a) :
    Fits c a := by
  unfold pushArgs at h
  split at h
  · cases h
  · cases h
    refine ⟨rfl, rfl, ?_, ?_⟩ <;> grind

theorem retry_cases (cfg : RedisQueueConfig) (s : State) (a : PackArgs) (incrIteration incrBlock : Bool)
    (r : ProcessResult) :
    (a.iteration < cfg.maxRetries ∧ (incrBlock = true → a.minTargetBlock < a.maxTargetBlock) ∧
        retry cfg s a incrIteration incrBlock r = (.requeue (a.bump incrIteration incrBlock) .begin, s)) ∨
      (cfg.maxRetries ≤ a.iteration ∧ retry cfg s a incrIteration incrBlock r = (.idle, s.finish a .exhausted)) ∨
      (incrBlock = true ∧ a.maxTargetBlock ≤ a.minTargetBlock ∧
        retry cfg s a incrIteration incrBlock r = (.idle, s.finish a (.noNextBlock r))) := by
  by_cases hiter : a.iteration ≥ cfg.maxRetries
  · exact .inr (.inl ⟨hiter, by simp [retry, retryItem, hiter, throw_eq_error]⟩)
  · have hlt : a.iteration < cfg.maxRetries := by simpa using hiter
    cases incrBlock with
    | false =>
      refine .inl ⟨hlt, by simp, ?_⟩
      cases incrIteration <;> simp [retry, retryItem, hiter, PackArgs.bump, pure, Except.pure]
    | true =>
      by_cases hblock : a.minTargetBlock ≥ a.maxTargetBlock
      · refine .inr (.inr ⟨rfl, hblock, ?_⟩)
        cases incrIteration <;> simp [retry, retryItem, hiter, hblock, throw_eq_error]
      · refine .inl ⟨hlt, fun _ => by simpa using hblock, ?_⟩
        cases incrIteration <;> simp [retry, retryItem, hiter, hblock, PackArgs.bump, pure, Except.pure]

theorem entryTokens_packData (cfg : RedisQueueConfig) (n : Nat) (a : PackArgs) :
    entryTokens cfg (n, (packData a).2) = {⟨{ a with minTargetBlock := uint64OfScore cfg.outOfRange n }, .queued⟩} := by
  simp only [entryTokens, unpackData_packData]

/-- An insertion adds the token of the item and takes those with the same member away. -/
theorem zadd_tokens (cfg : RedisQueueConfig) (z : List (Nat × Bytes)) (a : PackArgs) :
    ∃ merged rest, SameMember a merged ∧ (z.map (entryTokens cfg)).sum = merged + rest ∧
      ((zadd z (packData a).1 (packData a).2).map (entryTokens cfg)).sum =
        {⟨a.stored cfg.outOfRange, .queued⟩} + rest := by
  refine ⟨((z.filter fun e => !decide (e.2 ≠ (packData a).2)).map (entryTokens cfg)).sum,
    ((z.filter fun e => e.2 ≠ (packData a).2).map (entryTokens cfg)).sum, ?_, ?_, ?_⟩
  · intro x hx
    obtain ⟨e, he, hx⟩ := mem_sum_map.1 hx
    have hmember : e.2 = (packData a).2 := by simpa using (List.mem_filter.1 he).2
    rw [← Prod.mk.eta (p := e), hmember, entryTokens_packData, Multiset.mem_singleton] at hx
    subst hx
    exact ⟨rfl, rfl, rfl⟩
  · rw [add_comm]
    exact (sum_filter_add_sum_filter_not _ _ _).symm
  · rw [zadd, List.map_append, List.sum_append, List.map_singleton, List.sum_singleton, entryTokens_packData, add_comm]
    rfl

end MevShare.Queue
