import Mathlib.Algebra.Order.Group.Nat
import MevShare.Spike.Progress
/-!
# Every task gets one result

A result that is sent is for the key of its task: its value was in the cache
from the start or a fetch of that key returned it, and its error is that of a
fetch of that key (`Origin`). With the accounts of `Turns` and the progress of
the threads every task that is taken gets one such result and its channel is
closed once.
-/
open Lib

namespace MevShare.Spike

variable {V E : Type} [Inhabited V]

/-! ## Where a result comes from -/

/-- The result is a value that the cache had at the start or that a fetch of the key returned, or the error of such a fetch. -/
def Origin (cache : String → Option V) (m : Manager V E) (k : String) (r : Result V E) : Prop :=
  (r.e = none ∧ (cache k = some r.v ∨ ⟨k, r.v, none⟩ ∈ m.fetches)) ∨
    ∃ v err, r = ⟨default, some err⟩ ∧ ⟨k, v, some err⟩ ∈ m.fetches

/-- A thread carries tasks that were taken, and the results it has are for the keys of the tasks they go to. -/
def Pc.Sound (cache : String → Option V) (m : Manager V E) : Pc V E → Prop
  | .lock t | .get t | .look t => t ∈ m.taken
  | .set t v => Origin cache m t.key ⟨v, none⟩
  | .relock t r => Origin cache m t.key r
  | .send _ todo r | .close _ _ todo r => ∃ k, Origin cache m k r ∧ ∀ ch ∈ todo, ⟨k, ch⟩ ∈ m.taken
  | _ => True

structure Sound (cache : String → Option V) (m : Manager V E) (pcs : Multiset (Pc V E)) : Prop where
  cached : ∀ k v, m.cache k = some v → Origin cache m k ⟨v, none⟩
  waiting : ∀ k, ∀ ch ∈ waiters m k, ⟨k, ch⟩ ∈ m.taken
  carried : ∀ pc ∈ pcs, pc.Sound cache m
  sent : ∀ p ∈ m.sent, ∃ k, ⟨k, p.1⟩ ∈ m.taken ∧ Origin cache m k p.2

variable {cache : String → Option V} {s s' : State V E} {m m' : Manager V E} {role : Role} {pc pc' : Pc V E}
  {started others : Multiset (Pc V E)} {k : String} {r : Result V E}

theorem Origin.mono (hf : m.fetches ⊆ m'.fetches) (h : Origin cache m k r) : Origin cache m' k r := by
  rcases h with ⟨he, hv | hv⟩ | ⟨v, err, hr, hv⟩
  · exact .inl ⟨he, .inl hv⟩
  · exact .inl ⟨he, .inr (hf hv)⟩
  · exact .inr ⟨v, err, hr, hf hv⟩

theorem Pc.Sound.mono (ht : m.taken ⊆ m'.taken) (hf : m.fetches ⊆ m'.fetches) (h : pc.Sound cache m) :
    pc.Sound cache m' := by
  cases pc with
  | lock | get | look => exact ht h
  | set | relock => exact Origin.mono hf h
  | send | close =>
    obtain ⟨k, hr, htodo⟩ := h
    exact ⟨k, hr.mono hf, fun ch hch => ht (htodo ch hch)⟩
  | _ => trivial

theorem Turn.grows (h : Turn m role pc m' pc' started) : m.taken ⊆ m'.taken ∧ m.fetches ⊆ m'.fetches := by
  cases h with
  | take => exact ⟨List.subset_append_left _ _, fun _ => id⟩
  | failed | fetched => exact ⟨fun _ => id, List.subset_append_left _ _⟩
  | @finish _ entry _ => cases entry <;> exact ⟨fun _ => id, fun _ => id⟩
  | _ => exact ⟨fun _ => id, fun _ => id⟩

/-- What the thread carries after the turn, and what a goroutine starts with. -/
theorem Turn.carried (h : Turn m role pc m' pc' started) (hs : Sound cache m (pc ::ₘ others)) :
    pc'.Sound cache m' ∧ ∀ p ∈ started, p.Sound cache m' := by
  have hpc := hs.carried pc (Multiset.mem_cons_self _ _)
  cases h with
  | take => exact ⟨List.mem_append_right _ (List.mem_singleton_self _), by simp⟩
  | lock | miss => exact ⟨hpc, by simp⟩
  | @hit _ t v hcache => exact ⟨⟨t.key, hs.cached t.key v hcache, by simpa [Pc.Sound] using hpc⟩, by simp⟩
  | spawn => exact ⟨trivial, fun p hp => Multiset.mem_singleton.1 hp ▸ hpc⟩
  | register => exact ⟨trivial, by simp⟩
  | @failed _ t v err =>
    exact ⟨.inr ⟨v, err, rfl, List.mem_append_right _ (List.mem_singleton_self _)⟩, by simp⟩
  | fetched => exact ⟨.inl ⟨rfl, .inr (List.mem_append_right _ (List.mem_singleton_self _))⟩, by simp⟩
  | set => exact ⟨hpc, by simp⟩
  | @relock _ t r => exact ⟨⟨t.key, hpc, fun ch hch => hs.waiting t.key ch hch⟩, by simp⟩
  | send =>
    obtain ⟨k, hr, htodo⟩ := hpc
    exact ⟨⟨k, hr, fun ch hch => htodo ch (List.mem_cons_of_mem _ hch)⟩, by simp⟩
  | close => exact ⟨hpc, by simp⟩
  | join | finish => exact ⟨by cases role <;> trivial, by simp⟩

theorem Turn.cached (h : Turn m role pc m' pc' started) {v : V} (hv : m'.cache k = some v) :
    m.cache k = some v ∨ ∃ t, pc = .set t v ∧ t.key = k := by
  cases h with
  | @set _ t w =>
    by_cases hk : k = t.key
    · subst hk
      simp only [Function.update_self, Option.some.injEq] at hv
      exact .inr ⟨t, by rw [hv], rfl⟩
    · simp only [Function.update_of_ne hk] at hv
      exact .inl hv
  | @finish _ entry _ => cases entry <;> exact .inl hv
  | _ => exact .inl hv

theorem Turn.waiting (h : Turn m role pc m' pc' started) {ch : Nat} (hch : ch ∈ waiters m' k) :
    ch ∈ waiters m k ∨ pc = .look ⟨k, ch⟩ := by
  cases h with
  | @join _ t chans hentry =>
    rw [waiters_register] at hch
    by_cases hk : k = t.key
    · subst hk
      rw [Function.update_self, Multiset.mem_coe, List.mem_append, List.mem_singleton] at hch
      rcases hch with hch | rfl
      · exact .inl (by simpa [waiters, hentry] using hch)
      · exact .inr rfl
    · rw [Function.update_of_ne hk] at hch
      exact .inl hch
  | @register t hentry =>
    rw [waiters_register] at hch
    by_cases hk : k = t.key
    · subst hk
      rw [Function.update_self, Multiset.mem_coe, List.mem_singleton] at hch
      subst hch
      exact .inr rfl
    · rw [Function.update_of_ne hk] at hch
      exact .inl hch
  | @finish _ entry _ =>
    cases entry with
    | none => exact .inl hch
    | some key =>
      rw [waiters_delete] at hch
      by_cases hk : k = key
      · subst hk
        rw [Function.update_self] at hch
        exact absurd hch (Multiset.notMem_zero _)
      · rw [Function.update_of_ne hk] at hch
        exact .inl hch
  | _ => exact .inl hch

theorem Turn.sent (h : Turn m role pc m' pc' started) {p : Nat × Result V E} (hp : p ∈ m'.sent) :
    p ∈ m.sent ∨ ∃ entry todo, pc = .send entry (p.1 :: todo) p.2 := by
  cases h with
  | @send _ entry ch todo r =>
    rcases List.mem_append.1 hp with hp | hp
    · exact .inl hp
    · rw [List.mem_singleton.1 hp]
      exact .inr ⟨entry, todo, rfl⟩
  | @finish _ entry _ => cases entry <;> exact .inl hp
  | _ => exact .inl hp

theorem Sound.turn (hs : Sound cache m (pc ::ₘ others)) (h : Turn m role pc m' pc' started) :
    Sound cache m' (pc' ::ₘ (started + others)) := by
  obtain ⟨htaken, hfetches⟩ := h.grows
  have hpc := hs.carried pc (Multiset.mem_cons_self _ _)
  refine ⟨fun k v hv => ?_, fun k ch hch => ?_, fun p hp => ?_, fun p hp => ?_⟩
  · rcases h.cached hv with hv | ⟨t, rfl, rfl⟩
    · exact (hs.cached k v hv).mono hfetches
    · exact Origin.mono hfetches hpc
  · rcases h.waiting hch with hch | rfl
    · exact htaken (hs.waiting k ch hch)
    · exact htaken hpc
  · rcases Multiset.mem_cons.1 hp with rfl | hp
    · exact (h.carried hs).1
    · rcases Multiset.mem_add.1 hp with hp | hp
      · exact (h.carried hs).2 p hp
      · exact (hs.carried p (Multiset.mem_cons_of_mem hp)).mono htaken hfetches
  · rcases h.sent hp with hp | ⟨entry, todo, rfl⟩
    · obtain ⟨k, htask, hr⟩ := hs.sent p hp
      exact ⟨k, htaken htask, hr.mono hfetches⟩
    · obtain ⟨k, hr, htodo⟩ := hpc
      exact ⟨k, htaken (htodo _ List.mem_cons_self), hr.mono hfetches⟩

theorem sound_run {tr} (h : Run step (State.start cache) tr s) : Sound cache s.manager s.pcs := by
  refine manager_inv (Sound cache) ?_ (fun _ _ _ _ _ _ _ _ hs ht => hs.turn ht) ?_ h (absurd trivial)
  · exact ⟨fun k v hv => .inl ⟨rfl, .inl hv⟩, fun k ch hch => absurd hch (Multiset.notMem_zero _),
      fun pc hpc => by rw [Multiset.mem_singleton.1 hpc]; trivial, fun p hp => absurd hp List.not_mem_nil⟩
  · intro m pcs queue cache' chans hs hcache _
    exact ⟨fun k v hv => hs.cached k v (hcache k v hv), hs.waiting, hs.carried, hs.sent⟩

/-! ## One result for each task -/

/-- What was sent on a channel. -/
def results (m : Manager V E) (ch : Nat) : List (Result V E) := (m.sent.filter fun p => p.1 = ch).map Prod.snd

omit [Inhabited V] in
theorem length_results (m : Manager V E) (ch : Nat) :
    (results m ch).length = (m.sent.map Prod.fst : Multiset Nat).count ch := by
  rw [results, List.length_map, Multiset.coe_count, List.count_eq_countP, List.countP_map, List.countP_eq_length_filter]
  rfl

omit [Inhabited V] in
theorem Reached.results_le_one (hr : Reached s) (ch : Nat) : (results s.manager ch).length ≤ 1 := by
  have hone := Multiset.nodup_iff_count_le_one.1 hr.taken_nodup ch
  have hclosing : (s.pcs.bind Pc.closing).count ch ≤ (s.pcs.bind (Pc.tickets s.manager)).count ch := by
    rw [Multiset.count_bind, Multiset.count_bind]
    exact Multiset.sum_map_le_sum_map _ _ fun pc _ => Multiset.count_le_of_le ch (closing_le_tickets _ pc)
  rw [hr.ledger.tickets, Multiset.count_add] at hone
  rw [length_results, hr.ledger.sends, Multiset.count_add]
  omega

omit [Inhabited V] in
theorem Reached.closes_le_results (hr : Reached s) (ch : Nat) :
    s.manager.closes.count ch ≤ (results s.manager ch).length := by
  rw [length_results, hr.ledger.sends, Multiset.count_add, Multiset.coe_count]
  exact Nat.le_add_left _ _

theorem Sound.results {pcs : Multiset (Pc V E)} (hs : Sound cache m pcs)
    (hnodup : (m.taken.map Task.res : Multiset Nat).Nodup) {t : Task} (ht : t ∈ m.taken) :
    ∀ r ∈ results m t.res, Origin cache m t.key r := by
  intro r hr
  obtain ⟨⟨ch, r'⟩, hp, rfl⟩ := List.mem_map.1 hr
  obtain ⟨hsent, hch⟩ := List.mem_filter.1 hp
  obtain ⟨k, htask, horigin⟩ := hs.sent _ hsent
  -- the channels of the tasks differ, so the task that the result was sent for is this one
  have heq := List.inj_on_of_nodup_map (Multiset.coe_nodup.1 hnodup) htask ht (by simpa using hch)
  rw [← heq]
  exact horigin

omit [Inhabited V] in
/-- A thread at rest has nothing. -/
theorem State.Quiet.nothing (hq : s.Quiet) : s.pcs.bind (Pc.tickets s.manager) = 0 ∧ s.pcs.bind Pc.closing = 0 ∧
    s.pcs.bind Pc.owned = 0 := by
  have hrest : ∀ pc ∈ s.pcs, pc = .idle ∨ pc = .returned := by
    intro pc hpc
    obtain ⟨th, hth, rfl⟩ := List.mem_map.1 hpc
    exact hq.2 th hth
  refine ⟨?_, ?_, ?_⟩ <;>
    · refine Multiset.eq_zero_of_forall_notMem fun x hx => ?_
      obtain ⟨pc, hpc, hx⟩ := Multiset.mem_bind.1 hx
      rcases hrest pc hpc with rfl | rfl <;> exact Multiset.notMem_zero _ hx

omit [Inhabited V] in
theorem Reached.quiet (hr : Reached s) (hq : s.Quiet) :
    (∀ t ∈ s.manager.taken, ∃ r, results s.manager t.res = [r] ∧ s.manager.closes.count t.res = 1) ∧
      ∀ k, s.manager.currentlyExecuted k = none := by
  obtain ⟨htickets, hclosing, howned⟩ := hq.nothing
  constructor
  · intro t ht
    have hcloses : s.manager.closes.count t.res = 1 := by
      have hcount := Multiset.count_eq_one_of_mem hr.taken_nodup (List.mem_map_of_mem ht)
      rwa [hr.ledger.tickets, htickets, zero_add, Multiset.coe_count] at hcount
    have hlength : (results s.manager t.res).length = 1 := by
      rw [length_results, hr.ledger.sends, hclosing, zero_add, Multiset.coe_count, hcloses]
    obtain ⟨r, hr⟩ := List.length_eq_one_iff.1 hlength
    exact ⟨r, hr, hcloses⟩
  · intro k
    have hk := hr.guarded.entries k
    rw [howned, Multiset.count_zero] at hk
    cases hentry : s.manager.currentlyExecuted k with
    | none => rfl
    | some chans => simp [hentry] at hk

/-- In every interleaving of the callers, the loop, the goroutines and the expiry
of cache entries: a task that was taken has at most one result, which is for its
key, and its channel is closed at most once and not before; a send or a close of
a delivery never blocks; without new tasks the threads come to rest after
finitely many turns, and until then one of them can take its turn whatever
`Fetch` returns; and once they are at rest every task has its one result, its
channel was closed once, and no waiter is left. -/
theorem task_delivered_once {tr} (h : Run step (State.start cache) tr s) :
    (∀ t ∈ s.manager.taken, (results s.manager t.res).length ≤ 1 ∧
      s.manager.closes.count t.res ≤ (results s.manager t.res).length ∧
      ∀ r ∈ results s.manager t.res, Origin cache s.manager t.key r) ∧
    (∀ j th answer, s.threads[j]? = some th → th.pc.delivers = true → (step s (.thread j answer)).isSome = true) ∧
    (∃ n, ∀ acts s', Follows step NoNewTask s acts s' → acts.countP Action.isThread ≤ n ∧
      (s'.Quiet ∨ ∃ j, ∀ answer, (step s' (.thread j answer)).isSome = true)) ∧
    (s.Quiet → (∀ t ∈ s.manager.taken, ∃ r, results s.manager t.res = [r] ∧ s.manager.closes.count t.res = 1) ∧
      ∀ k, s.manager.currentlyExecuted k = none) := by
  have hr := reached_run h
  refine ⟨fun t ht => ⟨hr.results_le_one t.res, hr.closes_le_results t.res, (sound_run h).results hr.taken_nodup ht⟩,
    fun j th answer hth hpc => hr.delivery hth hpc answer, ⟨s.work, fun acts s' hacts => ?_⟩, hr.quiet⟩
  obtain ⟨hr', hle⟩ := hr.turns_le hacts
  refine ⟨by omega, ?_⟩
  by_cases hq : s'.Quiet
  · exact .inl hq
  · exact .inr (hr'.exists_turn hq)

/-- Two calls for one key; the second task joins the fetch for the first, whose caller gives up. -/
def sharedFetch : List (Action Nat Unit) :=
  List.flatten [[.call "k", .caller 0, .caller 0, .call "k", .caller 1, .caller 1],
    List.replicate 4 (.thread 0 (0, none)), List.replicate 3 (.thread 1 (0, none)),
    List.replicate 4 (.thread 0 (0, none)), [.giveUp 0 ()], List.replicate 8 (.thread 1 (7, none))]

theorem task_delivered_once_shared :
    ∃ tr s, Run step (State.start fun _ => none : State Nat Unit) tr s ∧ s.manager.taken = [⟨"k", 0⟩, ⟨"k", 1⟩] ∧
      (∃ r, results s.manager 0 = [r] ∧ s.manager.closes.count 0 = 1) ∧ s.manager.currentlyExecuted "k" = none := by
  have hseen : (sharedFetch.foldlM step (State.start fun _ => none)).map
      (fun s => (s.manager.taken, s.manager.taskQueue, s.threads)) =
        some ([⟨"k", 0⟩, ⟨"k", 1⟩], [], [⟨.dispatcher, .idle⟩, ⟨.fetcher, .returned⟩]) := by decide +kernel
  obtain ⟨s, hexec, hs⟩ := Option.map_eq_some_iff.1 hseen
  obtain ⟨htaken, hs⟩ := Prod.mk.inj hs
  obtain ⟨hqueue, hthreads⟩ := Prod.mk.inj hs
  obtain ⟨tr, hrun, -⟩ := run_of_foldlM hexec
  have hq : s.Quiet := ⟨hqueue, by simp [hthreads]⟩
  obtain ⟨hserved, hentries⟩ := (task_delivered_once hrun).2.2.2 hq
  exact ⟨tr, s, hrun, htaken, hserved ⟨"k", 0⟩ (by simp [htaken]), hentries "k"⟩

end MevShare.Spike
