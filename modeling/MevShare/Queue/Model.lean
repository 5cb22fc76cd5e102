import MevShare.Lib.SortedSet
import MevShare.Queue.Pack
/-!
# `simqueue/queue.go`

The queue as a step function: any number of calls of `Push` and `UpdateBlock`
and any number of workers in `processNextItem` take turns. A turn is one access
to what they share, that is one Redis command or one read or write of the
current block, with the code up to the next access. Redis commands are atomic,
and one that returns an error has done nothing.

Time is not modelled: the timestamp of an item, the result of `process` (a
deadline that ran out included) and whether the backoff of a refused requeue has
run out come with the action.
-/
open Lib

namespace MevShare.Queue

structure RedisQueueConfig where
  maxRetries : UInt16
  maxQueuedProcessableItemsLowPrio : UInt64
  maxQueuedProcessableItemsHighPrio : UInt64
  maxQueuedUnprocessableItemsLowPrio : UInt64
  maxQueuedUnprocessableItemsHighPrio : UInt64
  /-- the platform's `uint64` of the float 2^64 -/
  outOfRange : UInt64
deriving DecidableEq, Repr

inductive QueueErr where
  | blockNumberIncorrect | staleItem | queueFull | maxRetriesReached | noNextBlock | redis
deriving DecidableEq, Repr

/-- The errors that `processNextItem` looks for with `errors.Is`. -/
inductive Sentinel where
  | deadlineExceeded | workerError | scheduleNextBlock | lagging | unrecoverable
deriving DecidableEq, Repr

/-- What `process` returns: nil, or an error given by the sentinels it wraps. -/
abbrev ProcessResult := Option (List Sentinel)

/-- The cases of the switch over the result. -/
inductive Verdict where
  | retry | nextBlock | lagging | unrecoverable | success | unknown
deriving DecidableEq, Repr

def verdict : ProcessResult → Verdict
  | none => .success
  | some e =>
    if e.contains .deadlineExceeded || e.contains .workerError then .retry
    else if e.contains .scheduleNextBlock then .nextBlock
    else if e.contains .lagging then .lagging
    else if e.contains .unrecoverable then .unrecoverable
    else .unknown

structure QueueItemInfo where
  retries : Nat
  targetBlock : UInt64
deriving DecidableEq, Repr

/-! ## The calls -/

/-- The arguments of `Push`, and the time at which it is called. -/
structure PushCall where
  data : Bytes
  highPriority : Bool
  minTargetBlock : UInt64
  maxTargetBlock : UInt64
  timestamp : Int64
deriving DecidableEq, Repr

def PushCall.key (c : PushCall) : Key := ⟨c.data, c.maxTargetBlock, c.highPriority, c.timestamp⟩

/-- The next access of `pushToQueue`: the first reading of the block, the two
counts, the second reading with the comparison, and the insertion. -/
inductive PushStage where
  | begin
  | count (nextBlock : UInt64)
  | countLater (nextBlock : UInt64) (processable : Nat)
  | check (processable unprocessable : Nat)
  | add
deriving DecidableEq, Repr

def PushStage.usesRedis : PushStage → Bool
  | .begin => false
  | .count _ => true
  | .countLater _ _ => true
  | .check _ _ => false
  | .add => true

inductive PushPc where
  | enter
  | pushing (args : PackArgs) (stage : PushStage)
  | returned (err : Option QueueErr)
deriving DecidableEq, Repr

structure Push where
  call : PushCall
  pc : PushPc
deriving DecidableEq, Repr

inductive UpdatePc where
  | load | store
  | returned (err : Option QueueErr)
deriving DecidableEq, Repr

structure Update where
  block : UInt64
  pc : UpdatePc
deriving DecidableEq, Repr

inductive WorkerPc where
  | idle
  | popped (args : PackArgs)
  | processing (args : PackArgs)
  | requeue (args : PackArgs) (stage : PushStage)
deriving DecidableEq, Repr

/-! ## The state -/

/-- Why an item has left the queue. -/
inductive Outcome where
  | stale (nextBlock : UInt64)
  | exhausted
  | noNextBlock (result : ProcessResult)
  | processed (result : ProcessResult)
  | lost
deriving DecidableEq, Repr

structure Finished where
  args : PackArgs
  outcome : Outcome
deriving DecidableEq, Repr

/-- The invocations of `process`, with the current block that the worker read. -/
inductive Event where
  | invoked (args : PackArgs) (currentBlock : UInt64) (info : QueueItemInfo)
  | returned (args : PackArgs) (result : ProcessResult)
deriving DecidableEq, Repr

/-- `events` and `finished` are what has happened so far; the code does not read them. -/
structure State where
  currentBlock : UInt64
  redis : List (Nat × Bytes)
  pushes : List Push
  updates : List Update
  workers : List WorkerPc
  events : List Event
  finished : List Finished
deriving DecidableEq, Repr

def State.start (currentBlock : UInt64) (workers : Nat) : State :=
  ⟨currentBlock, [], [], [], List.replicate workers .idle, [], []⟩

def State.finish (s : State) (args : PackArgs) (outcome : Outcome) : State :=
  { s with finished := s.finished ++ [⟨args, outcome⟩] }

def State.log (s : State) (e : Event) : State := { s with events := s.events ++ [e] }

/-- How a turn of a worker turns out: the result of `process`, an error of the
Redis command, the end of the backoff after a refused requeue. -/
structure WorkerEnv where
  result : ProcessResult
  fails : Bool
  giveUp : Bool
deriving DecidableEq, Repr

inductive Action where
  | push (c : PushCall)
  | pushStep (i : Nat) (fails : Bool)
  | update (block : UInt64)
  | updateStep (i : Nat)
  | worker (w : Nat) (env : WorkerEnv)
deriving DecidableEq, Repr

section Config
variable (cfg : RedisQueueConfig)

/-! ## `Push` -/

/-- The checks of `Push` and the item it makes. -/
def pushArgs (c : PushCall) (currentBlock : UInt64) : Except QueueErr PackArgs :=
  if c.maxTargetBlock ≤ currentBlock then throw .staleItem
  else
    let nextBlock := currentBlock + 1
    return {
      data := c.data
      minTargetBlock := if c.minTargetBlock < nextBlock then nextBlock else c.minTargetBlock
      maxTargetBlock := c.maxTargetBlock
      highPriority := c.highPriority
      timestamp := c.timestamp
      iteration := 0 }

inductive PushStep where
  | goOn (stage : PushStage)
  | full
  | added (redis : List (Nat × Bytes))

/-- The thresholds for an item that can be processed now, or later. -/
def threshold (canProcessItem highPriority : Bool) : UInt64 :=
  match canProcessItem, highPriority with
  | true, false => cfg.maxQueuedProcessableItemsLowPrio
  | true, true => cfg.maxQueuedProcessableItemsHighPrio
  | false, false => cfg.maxQueuedUnprocessableItemsLowPrio
  | false, true => cfg.maxQueuedUnprocessableItemsHighPrio

def pushToQueue (currentBlock : UInt64) (redis : List (Nat × Bytes)) (args : PackArgs) : PushStage → PushStep
  | .begin => .goOn (.count (currentBlock + 1))
  | .count nextBlock => .goOn (.countLater nextBlock (zcountUpTo redis (score nextBlock)))
  | .countLater nextBlock processable => .goOn (.check processable (zcountFrom redis (score (nextBlock + 1))))
  | .check processable unprocessable =>
    let nextBlock := currentBlock + 1
    let canProcessItem : Bool := args.minTargetBlock ≤ nextBlock
    let queued := if canProcessItem then processable else unprocessable
    if queued ≥ (threshold cfg canProcessItem args.highPriority).toNat then .full else .goOn .add
  | .add => .added (zadd redis (packData args).1 (packData args).2)

/-- A turn of a call of `Push`. -/
def pushTurn (s : State) (fails : Bool) (p : Push) : Option (PushPc × State) :=
  match p.pc with
  | .enter =>
    match pushArgs p.call s.currentBlock with
    | .error e => some (.returned (some e), s)
    | .ok args => some (.pushing args .begin, s)
  | .pushing args stage =>
    if fails && stage.usesRedis then some (.returned (some .redis), s)
    else
      match pushToQueue cfg s.currentBlock s.redis args stage with
      | .goOn stage => some (.pushing args stage, s)
      | .full => some (.returned (some .queueFull), s)
      | .added redis => some (.returned none, { s with redis })
  | .returned _ => none

/-! ## `UpdateBlock` -/

def updateTurn (s : State) (u : Update) : Option (UpdatePc × State) :=
  match u.pc with
  | .load =>
    if s.currentBlock = u.block then some (.returned none, s)
    else if s.currentBlock > u.block then some (.returned (some .blockNumberIncorrect), s)
    else some (.store, s)
  | .store => some (.returned none, { s with currentBlock := u.block })
  | .returned _ => none

/-! ## `processNextItem` -/

/-- `retryItem` up to the requeue: the item as it goes back. -/
def retryItem (args : PackArgs) (incrIteration incrBlock : Bool) : Except QueueErr PackArgs :=
  if args.iteration ≥ cfg.maxRetries then throw .maxRetriesReached
  else
    let args := if incrIteration then { args with iteration := args.iteration + 1 } else args
    if incrBlock then
      if args.minTargetBlock ≥ args.maxTargetBlock then throw .noNextBlock
      else return { args with minTargetBlock := args.minTargetBlock + 1 }
    else return args

/-- The worker goes on to the requeue, or the item is dropped with the error. -/
def retry (s : State) (args : PackArgs) (incrIteration incrBlock : Bool) (result : ProcessResult) : WorkerPc × State :=
  match retryItem cfg args incrIteration incrBlock with
  | .ok args => (.requeue args .begin, s)
  | .error .noNextBlock => (.idle, s.finish args (.noNextBlock result))
  | .error _ => (.idle, s.finish args .exhausted)

/-- After the pop: the block is read, and the item is too early, late or due. -/
def dispatch (s : State) (args : PackArgs) : WorkerPc × State :=
  let nextBlock := s.currentBlock + 1
  if nextBlock < args.minTargetBlock then retry cfg s args false false none
  else if nextBlock > args.minTargetBlock then
    if nextBlock > args.maxTargetBlock then (.idle, s.finish args (.stale nextBlock))
    else retry cfg s { args with minTargetBlock := nextBlock } false false none
  else (.processing args, s.log (.invoked args s.currentBlock ⟨args.iteration.toNat, args.minTargetBlock⟩))

/-- The switch over the result of `process`. -/
def finishProcess (s : State) (args : PackArgs) (result : ProcessResult) : WorkerPc × State :=
  match verdict result with
  | .retry => retry cfg s args true false result
  | .nextBlock => retry cfg s args true true result
  | .lagging => retry cfg s args false false result
  | .unrecoverable => (.idle, s.finish args (.processed result))
  | .success => retry cfg s args true true result
  | .unknown => (.idle, s.finish args (.processed result))

/-- A requeue that was refused is tried again from the start until the backoff runs out. -/
def refused (s : State) (args : PackArgs) (giveUp : Bool) : WorkerPc × State :=
  if giveUp then (.idle, s.finish args .lost) else (.requeue args .begin, s)

/-- A turn of a worker. Without an item it waits; a member that cannot be decoded is dropped. -/
def workerTurn (s : State) (env : WorkerEnv) : WorkerPc → Option (WorkerPc × State)
  | .idle =>
    if env.fails then some (.idle, s)
    else
      match popMin s.redis with
      | none => none
      | some ((score, member), redis) =>
        match unpackData cfg.outOfRange score member with
        | none => some (.idle, { s with redis })
        | some args => some (.popped args, { s with redis })
  | .popped args => some (dispatch cfg s args)
  | .processing args => some (finishProcess cfg (s.log (.returned args env.result)) args env.result)
  | .requeue args stage =>
    if env.fails && stage.usesRedis then some (refused s args env.giveUp)
    else
      match pushToQueue cfg s.currentBlock s.redis args stage with
      | .goOn stage => some (.requeue args stage, s)
      | .full => some (refused s args env.giveUp)
      | .added redis => some (.idle, { s with redis })

/-! ## The queue -/

def step (s : State) : Action → Option State
  | .push c => some { s with pushes := s.pushes ++ [⟨c, .enter⟩] }
  | .pushStep i fails => do
    let p ← s.pushes[i]?
    let (pc, s') ← pushTurn cfg s fails p
    return { s' with pushes := s.pushes.set i { p with pc } }
  | .update block => some { s with updates := s.updates ++ [⟨block, .load⟩] }
  | .updateStep i => do
    let u ← s.updates[i]?
    let (pc, s') ← updateTurn s u
    return { s' with updates := s.updates.set i { u with pc } }
  | .worker w env => do
    let pc ← s.workers[w]?
    let (pc', s') ← workerTurn cfg s env pc
    return { s' with workers := s.workers.set w pc' }

end Config

end MevShare.Queue
