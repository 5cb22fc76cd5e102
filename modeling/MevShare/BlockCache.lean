import MevShare.Lib.RWLock
import MevShare.Lib.Runs
import MevShare.Types
/-!
# `EthCachingClient.BlockNumber`

The block number that `SendBundle` validates against is cached for five seconds
(`mevshare/utils.go`). Any number of calls run at the same time: each looks at
the age of the cached number under the read lock, lets go of it, and either reads
the number, without the lock, or takes the write lock and asks the Ethereum node.
A call that waited for the write lock asks the node even if another one has just
done so.

Time is in milliseconds. `answers` records what the node answered, in the order in
which the answers were stored.
-/
open Lib

namespace MevShare

/-- Where a call is. -/
inductive BlockCall where
  /-- about to take the read lock -/
  | starting
  /-- holds the read lock -/
  | checking
  /-- found the number fresh at this time, let go of the lock and is about to read the number -/
  | reading (checked : Nat)
  /-- about to take the write lock -/
  | locking
  /-- holds the write lock and waits for the node -/
  | fetching
  /-- wrote the number and is about to write the time, let go of the lock and return -/
  | stamping (n : UInt64)
  | done (result : Option UInt64)
deriving DecidableEq, Repr

def BlockCall.holds : BlockCall → Hold
  | .checking => .reading
  | .fetching | .stamping _ => .writing
  | _ => .nothing

structure EthCachingClient where
  now : Nat
  blockNumber : UInt64
  lastUpdate : Int
  calls : List BlockCall
  answers : List UInt64
deriving Repr

/-- `NewCachingEthClient`. -/
def newCachingEthClient (now : Nat) : EthCachingClient := ⟨now, 0, now - 10000, [], []⟩

inductive BlockAction where
  | tick (elapsed : Nat)
  | call
  /-- the next step of a call; `answer` is what the node answers, if it does -/
  | run (i : Nat) (answer : Option UInt64)

def EthCachingClient.goto (s : EthCachingClient) (i : Nat) (c : BlockCall) : EthCachingClient :=
  { s with calls := s.calls.set i c }

def blockStep (s : EthCachingClient) : BlockAction → Option EthCachingClient
  | .tick elapsed => some { s with now := s.now + elapsed }
  | .call => some { s with calls := s.calls ++ [.starting] }
  | .run i answer => do
    match ← s.calls[i]? with
    | .starting => if readable BlockCall.holds s.calls then some (s.goto i .checking) else none
    | .checking => if s.now - s.lastUpdate < 5000 then some (s.goto i (.reading s.now)) else some (s.goto i .locking)
    | .reading _ => some (s.goto i (.done (some s.blockNumber)))
    | .locking => if writable BlockCall.holds s.calls then some (s.goto i .fetching) else none
    | .fetching =>
      match answer with
      | none => some (s.goto i (.done none))
      | some n => some { s.goto i (.stamping n) with blockNumber := n, answers := s.answers ++ [n] }
    | .stamping n => some { s.goto i (.done (some n)) with lastUpdate := s.now }
    | .done _ => none

/-- What a step does. -/
inductive BlockEffect (s : EthCachingClient) : EthCachingClient → Prop
  | tick (elapsed) : BlockEffect s { s with now := s.now + elapsed }
  | call : BlockEffect s { s with calls := s.calls ++ [.starting] }
  | rlock {i} : s.calls[i]? = some .starting → readable BlockCall.holds s.calls = true → BlockEffect s (s.goto i .checking)
  | fresh {i} : s.calls[i]? = some .checking → s.now - s.lastUpdate < 5000 → BlockEffect s (s.goto i (.reading s.now))
  | stale {i} : s.calls[i]? = some .checking → BlockEffect s (s.goto i .locking)
  | read {i checked} : s.calls[i]? = some (.reading checked) →
      BlockEffect s (s.goto i (.done (some s.blockNumber)))
  | lock {i} : s.calls[i]? = some .locking → writable BlockCall.holds s.calls = true → BlockEffect s (s.goto i .fetching)
  | failed {i} : s.calls[i]? = some .fetching → BlockEffect s (s.goto i (.done none))
  | fetched {i n} : s.calls[i]? = some .fetching →
      BlockEffect s { s.goto i (.stamping n) with blockNumber := n, answers := s.answers ++ [n] }
  | stamped {i n} : s.calls[i]? = some (.stamping n) →
      BlockEffect s { s.goto i (.done (some n)) with lastUpdate := s.now }

variable {s s' : EthCachingClient}

theorem blockStep_effect {a : BlockAction} (h : blockStep s a = some s') : BlockEffect s s' := by
  cases a with
  | tick elapsed =>
    cases h
    exact .tick elapsed
  | call =>
    cases h
    exact .call
  | run i answer =>
    obtain ⟨c, hc, h⟩ := Option.bind_eq_some_iff.1 h
    cases c with
    | starting =>
      obtain ⟨hfree, h⟩ := Option.ite_none_right_eq_some.1 h
      cases h
      exact .rlock hc hfree
    | checking =>
      dsimp only at h
      split at h
      · cases h
        exact .fresh hc ‹_›
      · cases h
        exact .stale hc
    | reading checked =>
      cases h
      exact .read hc
    | locking =>
      obtain ⟨hfree, h⟩ := Option.ite_none_right_eq_some.1 h
      cases h
      exact .lock hc hfree
    | fetching =>
      cases answer with
      | none =>
        cases h
        exact .failed hc
      | some n =>
        cases h
        exact .fetched hc
    | stamping n =>
      cases h
      exact .stamped hc
    | done result => cases h

/-! ## What is cached -/

/-- The lock is held as it may be, the number is the last answer, and a call
that is about to read it found it fresh. -/
structure Cached (s : EthCachingClient) : Prop where
  shared : Shared BlockCall.holds s.calls
  past : s.lastUpdate ≤ s.now
  value : ∀ n, s.answers.getLast? = some n → s.blockNumber = n
  never : s.answers = [] → s.lastUpdate + 10000 ≤ s.now
  reading : ∀ t : Nat, .reading t ∈ s.calls → s.answers ≠ [] ∧ t < s.lastUpdate + 5000 ∧ t ≤ s.now
  stamping : ∀ n, .stamping n ∈ s.calls → s.answers.getLast? = some n
  results : ∀ n, .done (some n) ∈ s.calls → n ∈ s.answers

theorem cached_new (now : Nat) : Cached (newCachingEthClient now) where
  shared := .nil
  past := by simp [newCachingEthClient]
  value := by simp [newCachingEthClient]
  never := by simp [newCachingEthClient]
  reading := by simp [newCachingEthClient]
  stamping := by simp [newCachingEthClient]
  results := by simp [newCachingEthClient]

/-- A step of a call that leaves the cache alone. -/
theorem Cached.goto {i : Nat} {c : BlockCall} (h : Cached s) (hshared : Shared BlockCall.holds (s.calls.set i c))
    (hreading : ∀ t : Nat, c = .reading t → s.answers ≠ [] ∧ t < s.lastUpdate + 5000 ∧ t ≤ s.now)
    (hstamping : ∀ n, c ≠ .stamping n) (hresult : ∀ n, c = .done (some n) → n ∈ s.answers) : Cached (s.goto i c) where
  shared := hshared
  past := h.past
  value := h.value
  never := h.never
  reading t ht := by
    rcases List.mem_or_eq_of_mem_set ht with ht | ht
    · exact h.reading t ht
    · exact hreading t ht.symm
  stamping n hn := by
    rcases List.mem_or_eq_of_mem_set hn with hn | hn
    · exact h.stamping n hn
    · exact absurd hn.symm (hstamping n)
  results n hn := by
    rcases List.mem_or_eq_of_mem_set hn with hn | hn
    · exact h.results n hn
    · exact hresult n hn.symm

/-- The number is the last answer as soon as there is one. -/
theorem Cached.last (h : Cached s) (hne : s.answers ≠ []) : s.answers.getLast? = some s.blockNumber := by
  rw [h.value _ (List.getLast?_eq_some_getLast hne), List.getLast?_eq_some_getLast hne]

theorem Cached.fetched {i : Nat} {n : UInt64} (h : Cached s) (hi : s.calls[i]? = some .fetching) :
    Cached { s.goto i (.stamping n) with blockNumber := n, answers := s.answers ++ [n] } where
  shared := h.shared.keep hi rfl
  past := h.past
  value m hm := by simpa using hm
  never := by simp
  reading t ht := by
    rcases List.mem_or_eq_of_mem_set ht with ht | ht
    · exact ⟨by simp, (h.reading t ht).2⟩
    · cases ht
  stamping m hm := by
    -- another call that has written its number would hold the lock
    rcases h.shared.writer hi rfl hm with hm | hm
    · cases hm
      simp
    · cases hm
  results m hm := by
    rcases List.mem_or_eq_of_mem_set hm with hm | hm
    · exact List.mem_append_left _ (h.results m hm)
    · cases hm

theorem Cached.stamped {i : Nat} {n : UInt64} (h : Cached s) (hi : s.calls[i]? = some (.stamping n)) :
    Cached { s.goto i (.done (some n)) with lastUpdate := s.now } where
  shared := h.shared.release hi rfl
  past := le_refl _
  value := h.value
  never hnil := by
    have hlast := h.stamping n (List.mem_of_getElem? hi)
    rw [show s.answers = [] from hnil] at hlast
    cases hlast
  reading t ht := by
    rcases List.mem_or_eq_of_mem_set ht with ht | ht
    · obtain ⟨hne, -, hle⟩ := h.reading t ht
      exact ⟨hne, by dsimp only; omega, hle⟩
    · cases ht
  stamping m hm := by
    rcases List.mem_or_eq_of_mem_set hm with hm | hm
    · exact h.stamping m hm
    · cases hm
  results m hm := by
    rcases List.mem_or_eq_of_mem_set hm with hm | hm
    · exact h.results m hm
    · cases hm
      exact List.mem_of_getLast? (h.stamping n (List.mem_of_getElem? hi))

theorem Cached.step (h : Cached s) (heff : BlockEffect s s') : Cached s' := by
  cases heff with
  | tick elapsed =>
    refine ⟨h.shared, ?_, h.value, fun hnil => ?_, fun t ht => ?_, h.stamping, h.results⟩
    · have := h.past
      push_cast
      omega
    · have := h.never hnil
      push_cast
      omega
    · obtain ⟨hne, hlt, hle⟩ := h.reading t ht
      exact ⟨hne, hlt, by dsimp only; omega⟩
  | call =>
    have hnew : ∀ {c : BlockCall}, c ∈ s.calls ++ [.starting] → c ≠ .starting → c ∈ s.calls := by
      intro c hc hne
      simpa [hne] using hc
    refine ⟨h.shared.join rfl, h.past, h.value, h.never, fun t ht => ?_, fun n hn => ?_,
      fun n hn => ?_⟩
    · exact h.reading t (hnew ht (by simp))
    · exact h.stamping n (hnew hn (by simp))
    · exact h.results n (hnew hn (by simp))
  | rlock hi hfree => exact h.goto (h.shared.rlock hi hfree rfl) (by simp) (by simp) (by simp)
  | fresh hi hfresh =>
    refine h.goto (h.shared.release hi rfl) (fun t ht => ?_) (by simp) (by simp)
    cases ht
    refine ⟨fun hnil => ?_, by omega, le_refl _⟩
    have := h.never hnil
    omega
  | stale hi => exact h.goto (h.shared.release hi rfl) (by simp) (by simp) (by simp)
  | read hi =>
    refine h.goto (h.shared.release hi rfl) (by simp) (by simp) (fun n hn => ?_)
    cases hn
    exact List.mem_of_getLast? (h.last (h.reading _ (List.mem_of_getElem? hi)).1)
  | lock hi hfree => exact h.goto (h.shared.lock hi hfree) (by simp) (by simp) (by simp)
  | failed hi => exact h.goto (h.shared.release hi rfl) (by simp) (by simp) (by simp)
  | fetched hi => exact h.fetched hi
  | stamped hi => exact h.stamped hi

theorem cached_run {start : Nat} {tr : List (EthCachingClient × BlockAction)}
    (h : Run blockStep (newCachingEthClient start) tr s) : Cached s :=
  @Run.inv _ _ _ _ (fun _ _ => True) Cached (cached_new start) (fun _ _ _ hc _ hstep => hc.step (blockStep_effect hstep))
    _ _ h fun _ _ => trivial

/-- Asks the node, which answers 7, and returns. -/
def askSeven (i : Nat) : List BlockAction := [.run i none, .run i none, .run i none, .run i (some 7), .run i none]

/-- The first call has asked the node, the second is about to return what that stored, and the third, six
seconds later, asks again. -/
def sampleClient : EthCachingClient := ⟨7000, 7, 1000, [.done (some 7), .reading 1000, .fetching], [7]⟩

theorem sampleClient_reached :
    List.foldlM blockStep (newCachingEthClient 1000) (.call :: askSeven 0 ++
      [.call, .run 1 none, .run 1 none, .tick 6000, .call, .run 2 none, .run 2 none, .run 2 none]) = some sampleClient := rfl

/-- Whatever a call returns is an answer of the node, and never the number that
the cache starts with. A call that is about to return the cached number finds the
last answer there, less than five seconds old when it looked or stored since. No
two calls ask the node at the same time. -/
theorem cached_block_fresh {start : Nat} {tr : List (EthCachingClient × BlockAction)}
    (h : Run blockStep (newCachingEthClient start) tr s) :
    (∀ n, .done (some n) ∈ s.calls → n ∈ s.answers) ∧
      (∀ t : Nat, .reading t ∈ s.calls → s.answers.getLast? = some s.blockNumber ∧ t < s.lastUpdate + 5000) ∧
      ∀ i j : Nat, s.calls[i]? = some .fetching → s.calls[j]? = some .fetching → i = j := by
  have hc := cached_run h
  refine ⟨hc.results, fun t ht => ⟨hc.last (hc.reading t ht).1, (hc.reading t ht).2.1⟩, fun i j hi hj => ?_⟩
  exact hc.shared.one_writer hi hj rfl rfl

theorem cached_block_fresh_reading :
    (∀ n, .done (some n) ∈ (sampleClient.calls) → n ∈ sampleClient.answers) ∧
      (∀ t : Nat, .reading t ∈ sampleClient.calls →
        sampleClient.answers.getLast? = some sampleClient.blockNumber ∧ t < sampleClient.lastUpdate + 5000) ∧
      ∀ i j : Nat, sampleClient.calls[i]? = some .fetching → sampleClient.calls[j]? = some .fetching → i = j := by
  obtain ⟨tr, hrun, -⟩ := run_of_foldlM sampleClient_reached
  exact cached_block_fresh hrun

/-! ## Order -/

/-- Since the node answered `m`, no call from the one numbered `first` on returned less. -/
structure NotBelow (m : UInt64) (first : Nat) (s : EthCachingClient) : Prop where
  cached : Cached s
  answered : m ∈ s.answers
  later : s.answers.Pairwise (· ≤ ·) → ∀ j n, first ≤ j → s.calls[j]? = some (.done (some n)) → m ≤ n

variable {m : UInt64} {first : Nat}

theorem NotBelow.le_last {n : UInt64} (h : NotBelow m first s) (hsorted : s.answers.Pairwise (· ≤ ·))
    (hn : s.answers.getLast? = some n) : m ≤ n := by
  have hne : s.answers ≠ [] := List.ne_nil_of_mem h.answered
  rw [List.getLast?_eq_some_getLast hne, Option.some.injEq] at hn
  exact hn ▸ hsorted.rel_getLast h.answered

/-- A step of a call that returns, if anything, the last answer. -/
theorem NotBelow.goto {i : Nat} {c : BlockCall} (h : NotBelow m first s) (hsorted : s.answers.Pairwise (· ≤ ·))
    (hc : ∀ n, c = .done (some n) → s.answers.getLast? = some n) (j : Nat) (n : UInt64) (hj : first ≤ j)
    (hn : (s.calls.set i c)[j]? = some (.done (some n))) : m ≤ n := by
  rcases Decidable.em (i = j) with rfl | hne
  · have hlt : i < s.calls.length := by
      simpa using (List.getElem?_eq_some_iff.1 hn).1
    rw [List.getElem?_set_self hlt, Option.some.injEq] at hn
    exact h.le_last hsorted (hc n hn)
  · rw [List.getElem?_set_ne hne] at hn
    exact h.later hsorted j n hj hn

theorem NotBelow.step (h : NotBelow m first s) (heff : BlockEffect s s') : NotBelow m first s' := by
  have hcached := h.cached.step heff
  cases heff with
  | tick elapsed => exact ⟨hcached, h.answered, h.later⟩
  | call =>
    refine ⟨hcached, h.answered, fun hsorted j n hj hn => ?_⟩
    rcases Nat.lt_or_ge j s.calls.length with hlt | hge
    · exact h.later hsorted j n hj (by rwa [← List.getElem?_append_left hlt])
    · rw [List.getElem?_append_right hge] at hn
      cases List.mem_singleton.1 (List.mem_of_getElem? hn)
  | rlock hi hfree => exact ⟨hcached, h.answered, fun hsorted => h.goto hsorted (by simp)⟩
  | fresh hi hfresh => exact ⟨hcached, h.answered, fun hsorted => h.goto hsorted (by simp)⟩
  | stale hi => exact ⟨hcached, h.answered, fun hsorted => h.goto hsorted (by simp)⟩
  | read hi =>
    refine ⟨hcached, h.answered, fun hsorted => h.goto hsorted fun n hn => ?_⟩
    cases hn
    exact h.cached.last (List.ne_nil_of_mem h.answered)
  | lock hi hfree => exact ⟨hcached, h.answered, fun hsorted => h.goto hsorted (by simp)⟩
  | failed hi => exact ⟨hcached, h.answered, fun hsorted => h.goto hsorted (by simp)⟩
  | fetched hi =>
    exact ⟨hcached, List.mem_append_left _ h.answered, fun hsorted => h.goto (List.pairwise_append.1 hsorted).1 (by simp)⟩
  | stamped hi =>
    refine ⟨hcached, h.answered, fun hsorted => h.goto hsorted fun n hn => ?_⟩
    cases hn
    exact h.cached.stamping _ (List.mem_of_getElem? hi)

/-- As long as the node's answers never go back, a call that begins after
another has returned does not return a smaller number, however the calls interleave. -/
theorem block_numbers_in_order {start : Nat} {before after : List (EthCachingClient × BlockAction)} {i j : Nat}
    {n : UInt64} (hbefore : Run blockStep (newCachingEthClient start) before s)
    (hi : s.calls[i]? = some (.done (some m))) (hafter : Run blockStep s after s') (hlater : s.calls.length ≤ j)
    (hj : s'.calls[j]? = some (.done (some n))) (hsorted : s'.answers.Pairwise (· ≤ ·)) : m ≤ n := by
  have hcached := cached_run hbefore
  have hstart : NotBelow m s.calls.length s := by
    refine ⟨hcached, hcached.results m (List.mem_of_getElem? hi), fun _ k n hk hn => ?_⟩
    rw [List.getElem?_eq_none hk] at hn
    cases hn
  have hend : NotBelow m s.calls.length s' :=
    @Run.inv _ _ _ _ (fun _ _ => True) (NotBelow m s.calls.length) hstart
      (fun _ _ _ h _ hstep => h.step (blockStep_effect hstep)) _ _ hafter fun _ _ => trivial
  exact hend.later hsorted j n hlater hj

/-- `sampleClient` after its third call got 8 from the node; a fourth one, which began before, returned
that as well. -/
def sampleLater : EthCachingClient :=
  ⟨7000, 8, 7000, [.done (some 7), .reading 1000, .done (some 8), .done (some 8)], [7, 8]⟩

theorem sampleLater_reached :
    List.foldlM blockStep sampleClient
      [.call, .run 2 (some 8), .run 2 none, .run 3 none, .run 3 none, .run 3 none] = some sampleLater := rfl

theorem block_numbers_in_order_sample :
    sampleClient.calls[0]? = some (.done (some 7)) ∧ sampleLater.calls[3]? = some (.done (some 8)) ∧ (7 : UInt64) ≤ 8 := by
  obtain ⟨before, hbefore, -⟩ := run_of_foldlM sampleClient_reached
  obtain ⟨after, hafter, -⟩ := run_of_foldlM sampleLater_reached
  exact ⟨rfl, rfl, block_numbers_in_order hbefore (i := 0) (j := 3) rfl hafter (by decide) rfl (by decide)⟩

end MevShare
