import MevShare.Spike.Reached
/-!
# The threads never get stuck

A channel that a thread is about to send on or to close is on its account, so it
is empty and open: the turn can be taken whether or not the caller still waits
(`Reached.delivery`). Unless the manager is at rest some thread can take its turn
(`Reached.exists_turn`), and every turn of a thread lowers `work`, so all the
tasks that were taken are served.
-/

open Lib

namespace MevShare.Spike

variable {V E : Type}

/-! ## No delivery blocks -/

theorem closing_le_tickets (m : Manager V E) (pc : Pc V E) : pc.closing ≤ pc.tickets m := by
  refine le_trans ?_ (Multiset.le_add_right _ _)
  cases pc with
  | close entry ch todo r => simp [Pc.closing, Pc.direct]
  | _ => exact Multiset.zero_le _

variable {s s' : State V E} {m m' : Manager V E} {role : Role} {pc pc' : Pc V E} {started : Multiset (Pc V E)}

theorem Reached.taken_nodup (hr : Reached s) : (s.manager.taken.map Task.res : Multiset Nat).Nodup := by
  have hfresh := hr.fresh
  rw [List.map_append] at hfresh
  exact (List.nodup_append.1 hfresh).1

/-- A channel that a thread will serve itself is open, and only that thread can have sent to it. -/
theorem Reached.own (hr : Reached s) {others : Multiset (Pc V E)} (hpcs : s.pcs = pc ::ₘ others) (ch : Nat)
    (hch : ch ∈ pc.direct) :
    (s.manager.chans ch).closed = false ∧ (ch ∉ pc.closing → (s.manager.chans ch).buffer = none) := by
  have hledger := hpcs ▸ hr.ledger
  have hnodup := hr.taken_nodup
  rw [hledger.tickets, Multiset.cons_bind, add_assoc, Multiset.nodup_add] at hnodup
  have hmine : ch ∈ pc.tickets s.manager := Multiset.mem_add.2 (.inl hch)
  have hrest := Multiset.disjoint_left.1 hnodup.2.2 hmine
  rw [Multiset.mem_add, not_or] at hrest
  obtain ⟨hothers, hcloses⟩ := hrest
  constructor
  · exact Bool.eq_false_iff.2 fun hclosed => hcloses ((hr.recorded ch).2 hclosed)
  · intro hclosing
    by_contra hne
    have hbuffer := Option.isSome_iff_ne_none.2 hne
    have hsent : ch ∈ (s.manager.sent.map Prod.fst : Multiset Nat) := (hr.recorded ch).1 hbuffer
    rw [hledger.sends, Multiset.cons_bind, Multiset.mem_add, Multiset.mem_add] at hsent
    rcases hsent with (hsent | hsent) | hsent
    · exact hclosing hsent
    · obtain ⟨p, hp, hmem⟩ := Multiset.mem_bind.1 hsent
      exact hothers (Multiset.mem_bind.2 ⟨p, hp, Multiset.mem_of_le (closing_le_tickets _ p) hmem⟩)
    · exact hcloses hsent

variable [Inhabited V]

theorem step_of_turn {j : Nat} {th : Thread V E} {answer : V × Option E} (hth : s.threads[j]? = some th)
    (h : (turn s.manager th.role answer th.pc).isSome = true) : (step s (.thread j answer)).isSome = true := by
  obtain ⟨r, hr⟩ := Option.isSome_iff_exists.1 h
  simp [step, hth, hr]

/-- The next turn is a send or a close, or ends a delivery. -/
def Pc.delivers : Pc V E → Bool
  | .send _ _ _ | .close _ _ _ _ => true
  | _ => false

theorem Reached.delivery (hr : Reached s) {j : Nat} {th : Thread V E} (hth : s.threads[j]? = some th)
    (hpc : th.pc.delivers = true) (answer : V × Option E) : (step s (.thread j answer)).isSome = true := by
  refine step_of_turn hth ?_
  obtain ⟨others, hperm, -⟩ := exists_others hth
  have hpcs : s.pcs = th.pc ::ₘ (others.map Thread.pc : List (Pc V E)) := Multiset.coe_eq_coe.2 (hperm.map Thread.pc)
  obtain ⟨role, pc⟩ := th
  cases pc with
  | send entry todo r =>
    cases todo with
    | nil => rfl
    | cons ch todo =>
      obtain ⟨hopen, hempty⟩ := hr.own hpcs ch (by simp [Pc.direct])
      simp [turn, Manager.send, Chan.send, hopen, hempty (by simp [Pc.closing])]
  | close entry ch todo r =>
    obtain ⟨hopen, -⟩ := hr.own hpcs ch (by simp [Pc.direct])
    simp [turn, Manager.close, Chan.close, hopen]
  | _ => cases hpc

/-! ## All tasks are served -/

/-- No thread is running and no task is waiting to be taken. -/
def State.Quiet (s : State V E) : Prop := s.manager.taskQueue = [] ∧ ∀ th ∈ s.threads, th.pc = .idle ∨ th.pc = .returned

/-- A thread that is not at rest can take its turn if it holds the mutex or the mutex is free. -/
theorem Reached.running (hr : Reached s) {j : Nat} {th : Thread V E} (hth : s.threads[j]? = some th)
    (hrest : ¬(th.pc = .idle ∨ th.pc = .returned)) (hmutex : s.manager.locked = false ∨ th.pc.holds = true)
    (answer : V × Option E) : (step s (.thread j answer)).isSome = true := by
  by_cases hdelivers : th.pc.delivers = true
  · exact hr.delivery hth hdelivers answer
  refine step_of_turn hth ?_
  obtain ⟨role, pc⟩ := th
  cases pc with
  | idle => exact absurd (.inl rfl) hrest
  | returned => exact absurd (.inr rfl) hrest
  | lock t | relock t r =>
    have hfree : s.manager.locked = false := hmutex.resolve_right (by simp [Pc.holds])
    simp [turn, hfree]
  | get t => cases hcache : s.manager.cache t.key <;> simp [turn, hcache]
  | look t =>
    cases hentry : s.manager.currentlyExecuted t.key with
    | none => cases role <;> simp [turn, hentry]
    | some chans => simp [turn, hentry]
  | fetch t => cases herr : answer.2 <;> simp [turn, herr]
  | set t v => rfl
  | send | close => exact absurd rfl hdelivers

/-- Unless the manager is at rest some thread can take its turn, whatever `Fetch` returns. -/
theorem Reached.exists_turn (hr : Reached s) (hq : ¬s.Quiet) :
    ∃ j, ∀ answer, (step s (.thread j answer)).isSome = true := by
  cases hlocked : s.manager.locked with
  | true =>
    have hmutex := hr.guarded.mutex
    rw [hlocked, Bool.toNat_true] at hmutex
    obtain ⟨pc, hpc, hholds⟩ := Multiset.mem_map.1 (Multiset.count_pos.1 (hmutex ▸ Nat.one_pos))
    obtain ⟨th, hth, rfl⟩ := List.mem_map.1 hpc
    obtain ⟨j, hj⟩ := List.mem_iff_getElem?.1 hth
    refine ⟨j, hr.running hj (fun hrest => ?_) (.inr hholds)⟩
    rcases hrest with hrest | hrest <;> rw [hrest] at hholds <;> cases hholds
  | false =>
    by_cases hrest : ∀ th ∈ s.threads, th.pc = .idle ∨ th.pc = .returned
    · -- the loop waits for a task, and there is one
      obtain ⟨th, hth, hrole, hpc⟩ := hr.dispatcher
      obtain ⟨j, hj⟩ := List.mem_iff_getElem?.1 hth
      refine ⟨j, fun answer => step_of_turn hj ?_⟩
      cases hqueue : s.manager.taskQueue with
      | nil => exact absurd ⟨hqueue, hrest⟩ hq
      | cons t rest => simp [turn, hrole, (hrest th hth).resolve_right hpc, hqueue]
    · push Not at hrest
      obtain ⟨th, hth, hidle, hreturned⟩ := hrest
      obtain ⟨j, hj⟩ := List.mem_iff_getElem?.1 hth
      exact ⟨j, hr.running hj (not_or.2 ⟨hidle, hreturned⟩) (.inl hlocked)⟩

/-- What is left to do for a thread, beside the deliveries. -/
def Thread.stage (th : Thread V E) : Nat :=
  match th.role, th.pc with
  | .dispatcher, .lock _ => 10
  | .dispatcher, .get _ => 9
  | .dispatcher, .look _ => 8
  | .fetcher, .lock _ => 7
  | .fetcher, .get _ => 6
  | .fetcher, .look _ => 5
  | _, .fetch _ => 4
  | _, .set _ _ => 3
  | _, .relock _ _ => 2
  | _, .send _ _ _ => 1
  | _, _ => 0

/-- What is left to do: at most thirteen turns for a task in the queue, and two for each channel to be served. -/
def State.work (s : State V E) : Nat :=
  13 * s.manager.taskQueue.length + (s.threads.map Thread.stage).sum +
    2 * (s.manager.taken.length - s.manager.closes.length)

omit [Inhabited V] in
theorem Ledger.closes_le {pcs : Multiset (Pc V E)} (h : Ledger m pcs) : m.closes.length ≤ m.taken.length := by
  have hcard := congrArg Multiset.card h.tickets
  simp only [Multiset.card_add, Multiset.coe_card, List.length_map] at hcard
  omega

omit [Inhabited V] in
theorem Outside.work (hthreads : s'.threads = s.threads) (hout : Outside s s')
    (hqueue : s'.manager.taskQueue.length ≤ s.manager.taskQueue.length) : s'.work = s.work := by
  cases hout with
  | quiet cache chans hm => rw [State.work, State.work, hthreads, hm]
  | queued t c hm =>
    rw [hm, List.length_append] at hqueue
    exact absurd hqueue (by simp)

theorem Turn.work (h : Turn m role pc m' pc' started) (hle : m.closes.length ≤ m.taken.length)
    (hle' : m'.closes.length ≤ m'.taken.length) :
    13 * m'.taskQueue.length + (Thread.stage ⟨role, pc'⟩ + 7 * Multiset.card started) +
      2 * (m'.taken.length - m'.closes.length) <
    13 * m.taskQueue.length + Thread.stage ⟨role, pc⟩ + 2 * (m.taken.length - m.closes.length) := by
  cases h with
  | take hqueue =>
    simp only [hqueue, List.length_append, List.length_cons, List.length_nil, Thread.stage, Multiset.card_zero]
    omega
  | close =>
    simp only [List.length_append, List.length_cons, List.length_nil] at hle'
    simp only [List.length_append, List.length_cons, List.length_nil, Thread.stage, Multiset.card_zero]
    omega
  | @finish _ entry _ => cases entry <;> cases role <;> simp [Thread.stage, Manager.unlock, Manager.delete, Role.rest]
  | register | spawn => simp [Thread.stage, Manager.unlock, Manager.register]
  | failed | fetched | set | relock | send => simp [Thread.stage]
  | lock | hit | miss | join => cases role <;> simp [Thread.stage, Manager.unlock, Manager.register, Role.rest]

theorem Reached.work_lt (hr : Reached s) {j : Nat} {answer : V × Option E} (h : step s (.thread j answer) = some s') :
    s'.work < s.work := by
  obtain ⟨⟨role, pc⟩, others, pc', started, hth, hturn, hbefore, hafter, -⟩ := step_thread h
  have hlt := (turn_cases hturn).work hr.ledger.closes_le (hr.next h).ledger.closes_le
  have hstarted : ((started.map fun t => (⟨.fetcher, .lock t⟩ : Thread V E)).map Thread.stage).sum = 7 * started.length := by
    simp [Function.comp_def, Thread.stage, mul_comm]
  rw [State.work, State.work, (hbefore.map _).sum_eq, (hafter.map _).sum_eq]
  simp only [List.map_cons, List.sum_cons, List.map_append, List.sum_append, hstarted]
  simp only [Multiset.coe_card, List.length_map] at hlt
  omega

def Action.isThread : Action V E → Bool
  | .thread _ _ => true
  | _ => false

/-- The step does not add a task to the queue. -/
def NoNewTask (s : State V E) (a : Action V E) : Prop :=
  ∀ s', step s a = some s' → s'.manager.taskQueue.length ≤ s.manager.taskQueue.length

/-- Without new tasks the threads take at most `work` turns. -/
theorem Reached.turns_le {acts : List (Action V E)} (hr : Reached s) (h : Follows step NoNewTask s acts s') :
    Reached s' ∧ acts.countP Action.isThread + s'.work ≤ s.work := by
  induction acts generalizing s with
  | nil =>
    cases h
    exact ⟨hr, by simp⟩
  | cons a acts ih =>
    obtain ⟨hnew, s₁, hstep, hrest⟩ := h
    obtain ⟨hr', hle⟩ := ih (hr.next hstep) hrest
    refine ⟨hr', ?_⟩
    by_cases ha : ∃ j answer, a = .thread j answer
    · obtain ⟨j, answer, rfl⟩ := ha
      have hlt := hr.work_lt hstep
      simp only [List.countP_cons, Action.isThread, ↓reduceIte]
      omega
    · have hothers : ∀ j answer, a ≠ .thread j answer := fun j answer hj => ha ⟨j, answer, hj⟩
      have hfalse : a.isThread = false := by
        cases a with
        | thread j answer => exact absurd rfl (hothers j answer)
        | _ => rfl
      obtain ⟨hthreads, hout, -⟩ := step_outside hothers hstep
      rw [List.countP_cons, hfalse, ← hout.work hthreads (hnew s₁ hstep)]
      simpa using hle

end MevShare.Spike
