import Mathlib.Logic.Function.Basic
/-!
# `spike/manager.go`

Any number of calls of `GetResult`, the loop of `start` and the goroutines that
it starts take turns. A turn is one access to what they share: a lock of the
mutex, a `Get` or `Set` of the cache, a send, receive or close of a channel, the
return of `Fetch`. Only the holder of the mutex reads or writes
`currentlyExecuted`, so such an access stands in one turn with the `Lock` before
it or the `Unlock` after it.

| turn of a thread | there |
| --- | --- |
| `idle` | `for t := range m.taskQueue` |
| `lock`, `get`, `look` | `mu.Lock`, `handler.Get` and the look at `currentlyExecuted`, in the loop and in the goroutine |
| `fetch`, `set` | `handler.Fetch` returns, `handler.Set` |
| `relock` | the `mu.Lock` after `Fetch` |
| `send`, `close` | one turn of `for _, ch := range chans`, or the send and the close of a cached value |

The cache loses entries at any time (`expire`). A turn that is not enabled
(`none`) is one that blocks or, for a send or a close, panics.
-/

namespace MevShare.Spike

def taskQueueLen : Nat := 60

/-- `res` is the channel of the call with that number. -/
structure Task where
  key : String
  res : Nat
deriving DecidableEq, Repr

structure Result (V E : Type) where
  v : V
  e : Option E
deriving DecidableEq, Repr

variable {V E : Type}

/-! ## Channels -/

/-- A channel of `GetResult` has room for one result. -/
structure Chan (V E : Type) where
  buffer : Option (Result V E)
  closed : Bool
deriving DecidableEq, Repr

def Chan.send (c : Chan V E) (r : Result V E) : Option (Chan V E) :=
  if c.closed || c.buffer.isSome then none else some { c with buffer := some r }

def Chan.close (c : Chan V E) : Option (Chan V E) :=
  if c.closed then none else some { c with closed := true }

/-- A closed channel with nothing in it gives the zero result. -/
def Chan.receive [Inhabited V] (c : Chan V E) : Option (Result V E × Chan V E) :=
  match c.buffer with
  | some r => some (r, { c with buffer := none })
  | none => if c.closed then some (⟨default, none⟩, c) else none

/-! ## The shared state -/

/-- What a call of `Fetch` for a key returned. -/
structure Fetched (V E : Type) where
  key : String
  v : V
  err : Option E
deriving DecidableEq, Repr

/-- `taken`, `fetches`, `sent` and `closes` are what has happened so far; the code does not read them. -/
structure Manager (V E : Type) where
  locked : Bool
  cache : String → Option V
  taskQueue : List Task
  currentlyExecuted : String → Option (List Nat)
  chans : Nat → Chan V E
  taken : List Task
  fetches : List (Fetched V E)
  sent : List (Nat × Result V E)
  closes : List Nat

namespace Manager

def create (cache : String → Option V) : Manager V E where
  locked := false
  cache := cache
  taskQueue := []
  currentlyExecuted := fun _ => none
  chans := fun _ => ⟨none, false⟩
  taken := []
  fetches := []
  sent := []
  closes := []

def unlock (m : Manager V E) : Manager V E := { m with locked := false }

/-- The channels waiting for a key are `chans` from now on. -/
def register (m : Manager V E) (key : String) (chans : List Nat) : Manager V E :=
  { m with currentlyExecuted := Function.update m.currentlyExecuted key (some chans) }

/-- `delete(m.currentlyExecuted, key)`, at the end of a delivery to the waiters of a key. -/
def delete (m : Manager V E) : Option String → Manager V E
  | none => m
  | some key => { m with currentlyExecuted := Function.update m.currentlyExecuted key none }

def send (m : Manager V E) (ch : Nat) (r : Result V E) : Option (Manager V E) := do
  let c ← (m.chans ch).send r
  return { m with chans := Function.update m.chans ch c, sent := m.sent ++ [(ch, r)] }

def close (m : Manager V E) (ch : Nat) : Option (Manager V E) := do
  let c ← (m.chans ch).close
  return { m with chans := Function.update m.chans ch c, closes := m.closes ++ [ch] }

end Manager

/-! ## `start` -/

/-- The loop of `start`, or a goroutine started by it. -/
inductive Role where
  | dispatcher | fetcher
deriving DecidableEq, Repr

/-- The next turn of a thread. A delivery has the channels still to be served and,
if they are the waiters of a key, the entry to be deleted. -/
inductive Pc (V E : Type) where
  | idle
  | lock (t : Task)
  | get (t : Task)
  | look (t : Task)
  | fetch (t : Task)
  | set (t : Task) (v : V)
  | relock (t : Task) (r : Result V E)
  | send (entry : Option String) (todo : List Nat) (r : Result V E)
  | close (entry : Option String) (ch : Nat) (todo : List Nat) (r : Result V E)
  | returned
deriving DecidableEq, Repr

/-- The loop goes on to the next task, a goroutine returns. -/
def Role.rest : Role → Pc V E
  | .dispatcher => .idle
  | .fetcher => .returned

structure Thread (V E : Type) where
  role : Role
  pc : Pc V E
deriving DecidableEq, Repr

/-- The state after a turn, the next turn of the thread, and the tasks of the goroutines it started. -/
abbrev Turned (V E : Type) := Manager V E × Pc V E × List Task

variable [Inhabited V]

/-- A turn of a thread; `answer` is what `Fetch` returns if the turn is its return. -/
def turn (m : Manager V E) (role : Role) (answer : V × Option E) : Pc V E → Option (Turned V E)
  | .idle =>
    match role, m.taskQueue with
    | .dispatcher, t :: rest => some ({ m with taskQueue := rest, taken := m.taken ++ [t] }, .lock t, [])
    | _, _ => none
  | .lock t => if m.locked then none else some ({ m with locked := true }, .get t, [])
  | .get t =>
    match m.cache t.key with
    | some v => some (m, .send none [t.res] ⟨v, none⟩, [])
    | none => some (m, .look t, [])
  | .look t =>
    match m.currentlyExecuted t.key, role with
    | some chans, _ => some ((m.register t.key (chans ++ [t.res])).unlock, role.rest, [])
    | none, .dispatcher => some (m.unlock, .idle, [t])
    | none, .fetcher => some ((m.register t.key [t.res]).unlock, .fetch t, [])
  | .fetch t =>
    let m := { m with fetches := m.fetches ++ [⟨t.key, answer.1, answer.2⟩] }
    match answer.2 with
    | some err => some (m, .relock t ⟨default, some err⟩, [])
    | none => some (m, .set t answer.1, [])
  | .set t v => some ({ m with cache := Function.update m.cache t.key (some v) }, .relock t ⟨v, none⟩, [])
  | .relock t r =>
    if m.locked then none
    else some ({ m with locked := true }, .send (some t.key) ((m.currentlyExecuted t.key).getD []) r, [])
  | .send entry [] _ => some ((m.delete entry).unlock, role.rest, [])
  | .send entry (ch :: todo) r => do
    let m ← m.send ch r
    return (m, .close entry ch todo r, [])
  | .close entry ch todo r => do
    let m ← m.close ch
    return (m, .send entry todo r, [])
  | .returned => none

/-! ## `GetResult` -/

inductive CallerPc (V E : Type) where
  | lookup | enqueue | waiting
  | returned (r : Result V E)
deriving DecidableEq, Repr

structure Caller (V E : Type) where
  key : String
  pc : CallerPc V E
deriving DecidableEq, Repr

def callerTurn (m : Manager V E) (i : Nat) (c : Caller V E) : Option (Manager V E × CallerPc V E) :=
  match c.pc with
  | .lookup =>
    match m.cache c.key with
    | some v => some (m, .returned ⟨v, none⟩)
    | none => some (m, .enqueue)
  | .enqueue =>
    if m.taskQueue.length < taskQueueLen then
      some ({ m with taskQueue := m.taskQueue ++ [⟨c.key, i⟩] }, .waiting)
    else none
  | .waiting => do
    let (r, ch) ← (m.chans i).receive
    return ({ m with chans := Function.update m.chans i ch }, .returned r)
  | .returned _ => none

/-- The context of a call ends while it waits. -/
def giveUp (err : E) : CallerPc V E → Option (CallerPc V E)
  | .waiting => some (.returned ⟨default, some err⟩)
  | _ => none

/-! ## The system -/

structure State (V E : Type) where
  manager : Manager V E
  threads : List (Thread V E)
  callers : List (Caller V E)

/-- A manager as it is created, with anything in its cache. -/
def State.start (cache : String → Option V) : State V E := ⟨.create cache, [⟨.dispatcher, .idle⟩], []⟩

inductive Action (V E : Type) where
  | call (key : String)
  | caller (i : Nat)
  | giveUp (i : Nat) (err : E)
  | thread (j : Nat) (answer : V × Option E)
  | expire (key : String)
deriving DecidableEq, Repr

def step (s : State V E) : Action V E → Option (State V E)
  | .call key => some { s with callers := s.callers ++ [⟨key, .lookup⟩] }
  | .caller i => do
    let c ← s.callers[i]?
    let (manager, pc) ← callerTurn s.manager i c
    return { s with manager, callers := s.callers.set i { c with pc } }
  | .giveUp i err => do
    let c ← s.callers[i]?
    let pc ← giveUp err c.pc
    return { s with callers := s.callers.set i { c with pc } }
  | .thread j answer => do
    let th ← s.threads[j]?
    let (manager, pc, started) ← turn s.manager th.role answer th.pc
    return { s with manager, threads := s.threads.set j { th with pc } ++ started.map fun t => ⟨.fetcher, .lock t⟩ }
  | .expire key => some { s with manager := { s.manager with cache := Function.update s.manager.cache key none } }

end MevShare.Spike
