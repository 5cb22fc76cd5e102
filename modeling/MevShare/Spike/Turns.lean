import Mathlib.Tactic.Abel
import MevShare.Lib.Runs
import MevShare.Lib.Tally
import MevShare.Spike.Model
/-!
# Who has a task

A task that was taken from the queue is a ticket. Until its channel is closed
one thread has it: directly (`Pc.direct`), or through the entry of
`currentlyExecuted` that a thread in a fetch will serve (`Pc.parked`). `Ledger`
says that no ticket is lost or copied on the way, and `Guarded`, which it needs,
that the mutex has one holder and each entry one thread that will delete it.

`Turn` says once what a turn does; the invariants are read off it.
-/
open Lib

namespace MevShare.Spike

variable {V E : Type}

/-! ## What a thread has -/

/-- The channels that the thread will serve itself. -/
def Pc.direct : Pc V E → Multiset Nat
  | .lock t | .get t | .look t => {t.res}
  | .send _ todo _ => todo
  | .close _ ch todo _ => ch ::ₘ todo
  | _ => 0

/-- The key whose waiters the thread will serve after its fetch. -/
def Pc.parked : Pc V E → Multiset String
  | .fetch t | .set t _ | .relock t _ => {t.key}
  | _ => 0

/-- The key whose entry the thread will delete at the end of a delivery. -/
def Pc.delivering : Pc V E → Multiset String
  | .send entry _ _ | .close entry _ _ _ => entry.toList
  | _ => 0

/-- The channel that has its result and is still to be closed. -/
def Pc.closing : Pc V E → Multiset Nat
  | .close _ ch _ _ => {ch}
  | _ => 0

def Pc.holds : Pc V E → Bool
  | .get _ | .look _ | .send _ _ _ | .close _ _ _ _ => true
  | _ => false

/-- The key whose entry the thread will delete. -/
def Pc.owned (pc : Pc V E) : Multiset String := pc.parked + pc.delivering

/-- The channels that wait for a key. -/
def waiters (m : Manager V E) (k : String) : Multiset Nat := ((m.currentlyExecuted k).getD [] : List Nat)

/-- The channels that the thread will serve, with those that wait for the key it fetches. -/
def Pc.tickets (m : Manager V E) (pc : Pc V E) : Multiset Nat := pc.direct + pc.parked.bind (waiters m)

theorem waiters_register (m : Manager V E) (k : String) (chans : List Nat) :
    waiters (m.register k chans).unlock = Function.update (waiters m) k chans := by
  funext k'
  by_cases hk : k' = k
  · subst hk
    simp [waiters, Manager.unlock, Manager.register]
  · simp [waiters, Manager.unlock, Manager.register, hk]

theorem waiters_delete (m : Manager V E) (k : String) :
    waiters (m.delete (some k)).unlock = Function.update (waiters m) k 0 := by
  funext k'
  by_cases hk : k' = k
  · subst hk
    simp [waiters, Manager.unlock, Manager.delete]
  · simp [waiters, Manager.unlock, Manager.delete, hk]

/-- What the threads will serve, with the waiters of a key counted for the thread that fetches it. -/
theorem bind_tickets (m : Manager V E) (pcs : Multiset (Pc V E)) :
    pcs.bind (Pc.tickets m) = pcs.bind Pc.direct + (pcs.bind Pc.parked).bind (waiters m) := by
  rw [Multiset.bind_assoc, ← Multiset.bind_add]
  rfl

theorem bind_owned (pcs : Multiset (Pc V E)) :
    pcs.bind Pc.owned = pcs.bind Pc.parked + pcs.bind Pc.delivering := by
  rw [← Multiset.bind_add]
  rfl

theorem tickets_congr {m m' : Manager V E} (h : waiters m' = waiters m) : Pc.tickets m' = Pc.tickets m := by
  funext pc
  rw [Pc.tickets, h, Pc.tickets]

/-- A delivery is under the mutex. -/
theorem delivering_of_free {pcs : Multiset (Pc V E)} (h : (pcs.map Pc.holds).count true = 0) :
    pcs.bind Pc.delivering = 0 := by
  refine Multiset.eq_zero_of_forall_notMem fun k hk => ?_
  obtain ⟨pc, hpc, hk⟩ := Multiset.mem_bind.1 hk
  have hfree : pc.holds ≠ true := fun hholds => Multiset.count_eq_zero.1 h (hholds ▸ Multiset.mem_map_of_mem _ hpc)
  cases pc with
  | send | close => exact hfree rfl
  | _ => simp [Pc.delivering] at hk

theorem holders_cons (pc : Pc V E) (others : Multiset (Pc V E)) :
    ((pc ::ₘ others).map Pc.holds).count true = pc.holds.toNat + (others.map Pc.holds).count true := by
  rw [Multiset.map_cons]
  cases pc.holds with
  | false => simp
  | true => simp [add_comm]

/-! ## The mutex and the entries -/

/-- The mutex is held by one thread if it is locked and by none otherwise; an
entry of `currentlyExecuted` has one thread that will delete it. -/
structure Guarded (m : Manager V E) (pcs : Multiset (Pc V E)) : Prop where
  mutex : (pcs.map Pc.holds).count true = m.locked.toNat
  entries : ∀ k, (pcs.bind Pc.owned).count k = (m.currentlyExecuted k).isSome.toNat

variable {m : Manager V E} {pc : Pc V E} {others : Multiset (Pc V E)}

/-- While a thread holds the mutex no other one does. -/
theorem Guarded.alone (hg : Guarded m (pc ::ₘ others)) (hpc : pc.holds = true) :
    (others.map Pc.holds).count true = 0 := by
  have hmutex := hg.mutex
  have hle := Bool.toNat_le m.locked
  rw [holders_cons, hpc, Bool.toNat_true] at hmutex
  omega

theorem Guarded.join_parked (hg : Guarded m (pc ::ₘ others)) (hpc : pc.holds = true) (howned : pc.owned = 0) {k : String}
    (hk : (m.currentlyExecuted k).isSome = true) : (others.bind Pc.parked).count k = 1 := by
  have hentries := hg.entries k
  rw [Multiset.cons_bind, howned, zero_add, hk, bind_owned, delivering_of_free (hg.alone hpc), add_zero] at hentries
  exact hentries

theorem Guarded.not_parked (hg : Guarded m (pc ::ₘ others)) {k : String}
    (hk : pc.owned = {k} ∨ m.currentlyExecuted k = none) : k ∉ others.bind Pc.parked := by
  have hentries := hg.entries k
  rw [Multiset.cons_bind, Multiset.count_add, bind_owned, Multiset.count_add] at hentries
  have hle := Bool.toNat_le (m.currentlyExecuted k).isSome
  refine Multiset.count_eq_zero.1 ?_
  rcases hk with hk | hk
  · rw [hk, Multiset.count_singleton_self] at hentries
    omega
  · rw [hk, Option.isSome_none, Bool.toNat_false] at hentries
    omega

/-! ## The tickets -/

/-- A task that was taken is with one thread until its channel is closed, and a
channel has its result from the send on. -/
structure Ledger (m : Manager V E) (pcs : Multiset (Pc V E)) : Prop where
  tickets : (m.taken.map Task.res : Multiset Nat) = pcs.bind (Pc.tickets m) + (m.closes : List Nat)
  sends : (m.sent.map Prod.fst : Multiset Nat) = pcs.bind Pc.closing + (m.closes : List Nat)

/-! ## What a turn does -/

/-- The last argument: the goroutines that the turn starts. -/
inductive Turn [Inhabited V] (m : Manager V E) : Role → Pc V E → Manager V E → Pc V E → Multiset (Pc V E) → Prop
  | take {t rest} : m.taskQueue = t :: rest →
      Turn m .dispatcher .idle { m with taskQueue := rest, taken := m.taken ++ [t] } (.lock t) 0
  | lock {role t} : m.locked = false → Turn m role (.lock t) { m with locked := true } (.get t) 0
  | hit {role t v} : m.cache t.key = some v → Turn m role (.get t) m (.send none [t.res] ⟨v, none⟩) 0
  | miss {role t} : m.cache t.key = none → Turn m role (.get t) m (.look t) 0
  | join {role t chans} : m.currentlyExecuted t.key = some chans →
      Turn m role (.look t) (m.register t.key (chans ++ [t.res])).unlock role.rest 0
  | spawn {t} : m.currentlyExecuted t.key = none → Turn m .dispatcher (.look t) m.unlock .idle {.lock t}
  | register {t} : m.currentlyExecuted t.key = none →
      Turn m .fetcher (.look t) (m.register t.key [t.res]).unlock (.fetch t) 0
  | failed {role t v err} :
      Turn m role (.fetch t) { m with fetches := m.fetches ++ [⟨t.key, v, some err⟩] }
        (.relock t ⟨default, some err⟩) 0
  | fetched {role t v} :
      Turn m role (.fetch t) { m with fetches := m.fetches ++ [⟨t.key, v, none⟩] } (.set t v) 0
  | set {role t v} :
      Turn m role (.set t v) { m with cache := Function.update m.cache t.key (some v) } (.relock t ⟨v, none⟩) 0
  | relock {role t r} : m.locked = false →
      Turn m role (.relock t r) { m with locked := true }
        (.send (some t.key) ((m.currentlyExecuted t.key).getD []) r) 0
  | send {role entry ch todo r} :
      Turn m role (.send entry (ch :: todo) r)
        { m with
          chans := Function.update m.chans ch { m.chans ch with buffer := some r }, sent := m.sent ++ [(ch, r)] }
        (.close entry ch todo r) 0
  | close {role entry ch todo r} :
      Turn m role (.close entry ch todo r)
        { m with
          chans := Function.update m.chans ch { m.chans ch with closed := true }, closes := m.closes ++ [ch] }
        (.send entry todo r) 0
  | finish {role entry r} : Turn m role (.send entry [] r) (m.delete entry).unlock role.rest 0

theorem send_eq {m m' : Manager V E} {ch : Nat} {r : Result V E} (h : m.send ch r = some m') :
    m' = { m with
      chans := Function.update m.chans ch { m.chans ch with buffer := some r }, sent := m.sent ++ [(ch, r)] } := by
  simp only [Manager.send, Chan.send, Option.bind_eq_bind, Option.bind_eq_some_iff] at h
  obtain ⟨c, hc, h⟩ := h
  split at hc
  · cases hc
  · cases hc
    cases h
    rfl

theorem close_eq {m m' : Manager V E} {ch : Nat} (h : m.close ch = some m') :
    m' = { m with
      chans := Function.update m.chans ch { m.chans ch with closed := true }, closes := m.closes ++ [ch] } := by
  simp only [Manager.close, Chan.close, Option.bind_eq_bind, Option.bind_eq_some_iff] at h
  obtain ⟨c, hc, h⟩ := h
  split at hc
  · cases hc
  · cases hc
    cases h
    rfl

variable [Inhabited V] {m' : Manager V E} {role : Role} {answer : V × Option E} {pc' : Pc V E} {started : Multiset (Pc V E)}

theorem turn_cases {started : List Task} (h : turn m role answer pc = some (m', pc', started)) :
    Turn m role pc m' pc' (started.map Pc.lock : List (Pc V E)) := by
  cases pc with
  | idle =>
    simp only [turn] at h
    split at h
    · rename_i hqueue
      cases h
      exact .take hqueue
    · cases h
  | lock t =>
    simp only [turn] at h
    split at h
    · cases h
    · rename_i hlocked
      cases h
      exact .lock (by simpa using hlocked)
  | get t =>
    simp only [turn] at h
    split at h
    · rename_i hcache
      cases h
      exact .hit hcache
    · rename_i hcache
      cases h
      exact .miss hcache
  | look t =>
    simp only [turn] at h
    split at h
    · rename_i hentry
      cases h
      exact .join hentry
    · rename_i hentry
      cases h
      exact .spawn hentry
    · rename_i hentry
      cases h
      exact .register hentry
  | fetch t =>
    obtain ⟨v, err⟩ := answer
    cases err with
    | none =>
      cases h
      exact .fetched
    | some err =>
      cases h
      exact .failed
  | set t v =>
    cases h
    exact .set
  | relock t r =>
    simp only [turn] at h
    split at h
    · cases h
    · rename_i hlocked
      cases h
      exact .relock (by simpa using hlocked)
  | send entry todo r =>
    cases todo with
    | nil =>
      cases h
      exact .finish
    | cons ch todo =>
      simp only [turn, Option.bind_eq_bind, Option.bind_eq_some_iff] at h
      obtain ⟨m₁, hsend, h⟩ := h
      cases h
      rw [send_eq hsend]
      exact .send
  | close entry ch todo r =>
    simp only [turn, Option.bind_eq_bind, Option.bind_eq_some_iff] at h
    obtain ⟨m₁, hclose, h⟩ := h
    cases h
    rw [close_eq hclose]
    exact .close
  | returned => cases h

/-- A goroutine that starts has neither the mutex nor an entry. -/
theorem Turn.spawned (h : Turn m role pc m' pc' started) :
    (started.map Pc.holds).count true = 0 ∧ started.bind Pc.parked = 0 ∧ started.bind Pc.owned = 0 ∧
      started.bind Pc.closing = 0 := by
  cases h with
  | spawn => exact ⟨rfl, rfl, rfl, rfl⟩
  | _ => exact ⟨rfl, rfl, rfl, rfl⟩

/-- A turn leaves the mutex as it is, locks it or unlocks it. -/
theorem Turn.mutex (h : Turn m role pc m' pc' started) :
    (pc'.holds = pc.holds ∧ m'.locked = m.locked) ∨
      (pc.holds = false ∧ pc'.holds = true ∧ m.locked = false ∧ m'.locked = true) ∨
      (pc.holds = true ∧ pc'.holds = false ∧ m'.locked = false) := by
  cases h with
  | take | hit | miss | failed | fetched | set | send | close => exact .inl ⟨rfl, rfl⟩
  | lock hfree | relock hfree => exact .inr (.inl ⟨rfl, rfl, hfree, rfl⟩)
  | spawn | register => exact .inr (.inr ⟨rfl, rfl, rfl⟩)
  | join | finish => exact .inr (.inr ⟨rfl, by cases role <;> rfl, rfl⟩)

/-- A turn keeps the entries and what the thread owns, or it is about one entry
that the thread owns afterwards or has owned before. -/
theorem Turn.entries (h : Turn m role pc m' pc' started) :
    (pc'.owned = pc.owned ∧ ∀ k, (m'.currentlyExecuted k).isSome = (m.currentlyExecuted k).isSome) ∨
      (∃ k chans, pc.owned = 0 ∧ pc'.owned = {k} ∧ m.currentlyExecuted k = none ∧
        m'.currentlyExecuted = Function.update m.currentlyExecuted k (some chans)) ∨
      (∃ k, pc.owned = {k} ∧ pc'.owned = 0 ∧ m'.currentlyExecuted = Function.update m.currentlyExecuted k none) := by
  cases h with
  | take | lock | hit | miss | spawn | failed | fetched | set | relock | send | close =>
    exact .inl ⟨rfl, fun _ => rfl⟩
  | @join _ t _ hentry =>
    refine .inl ⟨by cases role <;> rfl, fun k => ?_⟩
    by_cases hk : k = t.key
    · subst hk
      simp [Manager.unlock, Manager.register, hentry]
    · simp [Manager.unlock, Manager.register, hk]
  | register hentry => exact .inr (.inl ⟨_, _, rfl, rfl, hentry, rfl⟩)
  | @finish _ entry _ =>
    cases entry with
    | none => exact .inl ⟨by cases role <;> rfl, fun _ => rfl⟩
    | some k => exact .inr (.inr ⟨k, rfl, by cases role <;> rfl, rfl⟩)

/-- A turn passes the tickets of the thread on, or puts one of them under an
entry that another thread has, or changes an entry that no other thread has. -/
theorem Turn.tickets (h : Turn m role pc m' pc' started) :
    -- what comes in from the queue, and what is closed
    (waiters m' = waiters m ∧ ∃ new done : Multiset Nat,
      (m'.taken.map Task.res : Multiset Nat) = new + (m.taken.map Task.res : List Nat) ∧
      (m'.closes : Multiset Nat) = done + (m.closes : List Nat) ∧
      new + pc.tickets m = done + (pc'.tickets m + started.bind Pc.direct)) ∨
    -- a task joins the waiters of its key
    (∃ k c, pc.holds = true ∧ pc.owned = 0 ∧ (m.currentlyExecuted k).isSome = true ∧
      waiters m' = Function.update (waiters m) k (waiters m k + {c}) ∧
      m'.taken = m.taken ∧ m'.closes = m.closes ∧ pc.tickets m = {c} ∧ pc'.tickets m' = 0 ∧ started = 0) ∨
    -- the entry is new, or the one the thread has served
    (∃ k chans, (pc.owned = {k} ∨ m.currentlyExecuted k = none) ∧ waiters m' = Function.update (waiters m) k chans ∧
      m'.taken = m.taken ∧ m'.closes = m.closes ∧ pc'.tickets m' = pc.tickets m ∧ started = 0) := by
  cases h with
  | @take t _ _ =>
    exact .inl ⟨rfl, {t.res}, 0, by simp [coe_snoc], by simp, by simp [Pc.tickets, Pc.direct, Pc.parked]⟩
  | lock | hit | miss | spawn | failed | fetched | set | send =>
    exact .inl ⟨rfl, 0, 0, by simp [Manager.unlock], by simp [Manager.unlock],
      by simp [Pc.tickets, Pc.direct, Pc.parked]⟩
  | relock =>
    exact .inl ⟨rfl, 0, 0, by simp, by simp, by simp [Pc.tickets, Pc.direct, Pc.parked, waiters]⟩
  | @close _ _ ch _ _ =>
    exact .inl ⟨rfl, 0, {ch}, by simp, by simp [coe_snoc], by simp [Pc.tickets, Pc.direct, Pc.parked]⟩
  | @join _ t chans hentry =>
    refine .inr (.inl ⟨t.key, t.res, rfl, rfl, by simp [hentry], ?_, rfl, rfl, by simp [Pc.tickets, Pc.direct, Pc.parked],
      by cases role <;> rfl, rfl⟩)
    rw [waiters_register, coe_snoc, add_comm, waiters, hentry, Option.getD_some]
  | @register t hentry =>
    refine .inr (.inr ⟨t.key, _, .inr hentry, waiters_register _ _ _, rfl, rfl, ?_, rfl⟩)
    simp [Pc.tickets, Pc.direct, Pc.parked, waiters_register]
  | @finish _ entry r =>
    cases entry with
    | none =>
      refine .inl ⟨rfl, 0, 0, by simp [Manager.unlock, Manager.delete], by simp [Manager.unlock, Manager.delete], ?_⟩
      cases role <;> simp [Pc.tickets, Pc.direct, Pc.parked, Role.rest]
    | some k =>
      refine .inr (.inr ⟨k, _, .inl rfl, waiters_delete _ _, rfl, rfl, ?_, rfl⟩)
      cases role <;> simp [Pc.tickets, Pc.direct, Pc.parked, Role.rest]

theorem Turn.sends (h : Turn m role pc m' pc' started) :
    ∃ new done : Multiset Nat, (m'.sent.map Prod.fst : Multiset Nat) = new + (m.sent.map Prod.fst : List Nat) ∧
      (m'.closes : Multiset Nat) = done + (m.closes : List Nat) ∧ new + pc.closing = done + pc'.closing := by
  cases h with
  | take | lock | hit | miss | spawn | register | failed | fetched | set | relock =>
    exact ⟨0, 0, (zero_add _).symm, (zero_add _).symm, rfl⟩
  | join => exact ⟨0, 0, (zero_add _).symm, (zero_add _).symm, by cases role <;> rfl⟩
  | @finish _ entry _ => exact ⟨0, 0, by cases entry <;> exact (zero_add _).symm,
      by cases entry <;> exact (zero_add _).symm, by cases role <;> rfl⟩
  | @send _ _ ch _ _ => exact ⟨{ch}, 0, by simp [coe_snoc], by simp, by simp [Pc.closing]⟩
  | @close _ _ ch _ _ => exact ⟨0, {ch}, by simp, by simp [coe_snoc], by simp [Pc.closing]⟩

/-! ## A turn keeps the accounts -/

theorem Guarded.turn (hg : Guarded m (pc ::ₘ others)) (h : Turn m role pc m' pc' started) :
    Guarded m' (pc' ::ₘ (started + others)) := by
  have hmutex := hg.mutex
  rw [holders_cons] at hmutex
  obtain ⟨hholds, -, howned, -⟩ := h.spawned
  constructor
  · rw [holders_cons, Multiset.map_add, Multiset.count_add, hholds, zero_add]
    rcases h.mutex with ⟨hpc, hlocked⟩ | ⟨hpc, hpc', hfree, hlocked⟩ | ⟨hpc, hpc', hlocked⟩
    · rw [hpc, hlocked, hmutex]
    · rw [hpc, hfree] at hmutex
      rw [hpc', hlocked, Nat.eq_zero_of_add_eq_zero_left hmutex, add_zero]
    · rw [hpc', hlocked, hg.alone hpc, add_zero]
  · intro k
    have hk := hg.entries k
    rw [Multiset.cons_bind, Multiset.count_add] at hk
    rw [Multiset.cons_bind, Multiset.add_bind, howned, zero_add, Multiset.count_add]
    rcases h.entries with ⟨hpc, hentries⟩ | ⟨k', chans, hpc, hpc', hnone, hentries⟩ | ⟨k', hpc, hpc', hentries⟩
    · rw [hpc, hentries, hk]
    · rw [hpc, Multiset.count_zero, zero_add] at hk
      rw [hpc', hentries, hk]
      by_cases heq : k = k'
      · subst heq
        simp [hnone]
      · simp [heq]
    · rw [hpc] at hk
      rw [hpc', hentries, Multiset.count_zero, zero_add]
      by_cases heq : k = k'
      · subst heq
        have hle := Bool.toNat_le (m.currentlyExecuted k).isSome
        rw [Multiset.count_singleton_self] at hk
        rw [Function.update_self, Option.isSome_none, Bool.toNat_false]
        omega
      · simpa [heq] using hk

theorem Ledger.turn (hg : Guarded m (pc ::ₘ others)) (hl : Ledger m (pc ::ₘ others)) (h : Turn m role pc m' pc' started) :
    Ledger m' (pc' ::ₘ (started + others)) := by
  obtain ⟨-, hparked, -, hclosing⟩ := h.spawned
  constructor
  · have htickets := hl.tickets
    rw [Multiset.cons_bind] at htickets
    rw [Multiset.cons_bind, Multiset.add_bind]
    rcases h.tickets with ⟨hwaiters, new, done, htaken, hcloses, hmoved⟩ |
      ⟨k, c, hpc, howned, hentry, hwaiters, htaken, hcloses, hbefore, hafter, rfl⟩ |
      ⟨k, chans, hk, hwaiters, htaken, hcloses, hsame, rfl⟩
    · have hstarted : started.bind (Pc.tickets m) = started.bind Pc.direct := by
        rw [bind_tickets, hparked, Multiset.zero_bind, add_zero]
      rw [tickets_congr hwaiters, hstarted, htaken, hcloses, htickets]
      calc new + (pc.tickets m + others.bind (Pc.tickets m) + m.closes)
          = new + pc.tickets m + (others.bind (Pc.tickets m) + m.closes) := by abel
        _ = _ := by rw [hmoved]; abel
    · have hothers : others.bind (Pc.tickets m') = {c} + others.bind (Pc.tickets m) := by
        rw [bind_tickets, bind_tickets, hwaiters, bind_update_add (hg.join_parked hpc howned hentry)]
        abel
      rw [htaken, hcloses, htickets, hafter, hbefore, Multiset.zero_bind, zero_add, zero_add, hothers]
    · have hothers : others.bind (Pc.tickets m') = others.bind (Pc.tickets m) := by
        rw [bind_tickets, bind_tickets, hwaiters, bind_update_of_notMem (hg.not_parked hk)]
      rw [htaken, hcloses, htickets, hsame, hothers, Multiset.zero_bind, zero_add]
  · have hsends := hl.sends
    rw [Multiset.cons_bind] at hsends
    obtain ⟨new, done, hsent, hcloses, hmoved⟩ := h.sends
    rw [Multiset.cons_bind, Multiset.add_bind, hclosing, hsent, hcloses, hsends]
    calc new + (pc.closing + others.bind Pc.closing + m.closes)
        = new + pc.closing + (others.bind Pc.closing + m.closes) := by abel
      _ = _ := by rw [hmoved]; abel

end MevShare.Spike
