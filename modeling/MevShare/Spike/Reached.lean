import MevShare.Spike.Turns
/-!
# The states that can be reached

The accounts of `Turns` hold after every run (`reached_run`). Beside them: the
tasks have different channels, because a call asks only once (`Asked`), and what
is in a channel was sent to it (`Recorded`).

A step is a turn of one thread beside all the others (`step_thread`), or one of
a caller or of the cache, which the threads see only in the queue, in the cache
and in the buffers (`step_outside`).
-/
open Lib

namespace MevShare.Spike

variable {V E : Type}

/-! ## Reachable states -/

def State.pcs (s : State V E) : Multiset (Pc V E) := (s.threads.map Thread.pc : List (Pc V E))

/-- The call has put its task into the queue. -/
def CallerPc.asked : CallerPc V E → Bool
  | .lookup | .enqueue => false
  | .waiting | .returned _ => true

theorem pcs_of_perm {s s' : State V E} {th th' : Thread V E} {started : List Task} {others : List (Thread V E)}
    (hbefore : s.threads.Perm (th :: others))
    (hafter : s'.threads.Perm (th' :: (started.map (fun t => ⟨.fetcher, .lock t⟩) ++ others))) :
    s.pcs = th.pc ::ₘ (others.map Thread.pc : List (Pc V E)) ∧
      s'.pcs = th'.pc ::ₘ ((started.map Pc.lock : List (Pc V E)) + (others.map Thread.pc : List (Pc V E))) := by
  refine ⟨Multiset.coe_eq_coe.2 (hbefore.map Thread.pc), ?_⟩
  rw [Multiset.coe_add, Multiset.cons_coe, State.pcs, Multiset.coe_eq_coe]
  have hmap := hafter.map Thread.pc
  rw [List.map_cons, List.map_append, List.map_map] at hmap
  exact hmap

/-- The task is that of a call which has put it into the queue. -/
def Asked (s : State V E) (t : Task) : Prop :=
  ∃ c, s.callers[t.res]? = some c ∧ c.key = t.key ∧ c.pc.asked = true

/-- Whatever is in a channel was sent, and it is closed only once `close` was called. -/
def Recorded (m : Manager V E) : Prop :=
  ∀ ch, ((m.chans ch).buffer.isSome = true → ch ∈ m.sent.map Prod.fst) ∧ ((m.chans ch).closed = true → ch ∈ m.closes)

structure Reached (s : State V E) : Prop where
  guarded : Guarded s.manager s.pcs
  ledger : Ledger s.manager s.pcs
  recorded : Recorded s.manager
  fresh : ((s.manager.taken ++ s.manager.taskQueue).map Task.res).Nodup
  asked : ∀ t ∈ s.manager.taken ++ s.manager.taskQueue, Asked s t
  dispatcher : ∃ th ∈ s.threads, th.role = .dispatcher ∧ th.pc ≠ .returned

theorem reached_start (cache : String → Option V) : Reached (State.start cache : State V E) where
  guarded := ⟨rfl, fun _ => rfl⟩
  ledger := ⟨rfl, rfl⟩
  recorded := fun _ => ⟨fun h => by simp [State.start, Manager.create] at h,
    fun h => by simp [State.start, Manager.create] at h⟩
  fresh := List.nodup_nil
  asked := fun t ht => by simp [State.start, Manager.create] at ht
  dispatcher := ⟨_, List.mem_singleton_self _, rfl, by simp⟩

/-! ## The steps -/

/-- A step of a caller or of the cache: a result is received or an entry expires, or a new task is queued. -/
inductive Outside (s s' : State V E) : Prop
  | quiet (cache : String → Option V) (chans : Nat → Chan V E) : 
      s'.manager = { s.manager with cache, chans } →
      (∀ k v, cache k = some v → s.manager.cache k = some v) →
      (∀ ch, (chans ch).closed = (s.manager.chans ch).closed) →
      (∀ ch, (chans ch).buffer.isSome = true → (s.manager.chans ch).buffer.isSome = true) → Outside s s'
  | queued (t : Task) (c : Caller V E) :
      s'.manager = { s.manager with taskQueue := s.manager.taskQueue ++ [t] } →
      s.callers[t.res]? = some c → c.pc.asked = false → Asked s' t → Outside s s'

theorem Reached.outside {s s' : State V E} (hr : Reached s) (hthreads : s'.threads = s.threads) (hout : Outside s s')
    (hasked : ∀ t, Asked s t → Asked s' t) : Reached s' := by
  have hpcs : s'.pcs = s.pcs := by rw [State.pcs, hthreads, State.pcs]
  have hdispatcher := hthreads ▸ hr.dispatcher
  cases hout with
  | quiet cache chans hm hcache hclosed hbuffer =>
    refine ⟨?_, ?_, ?_, ?_, ?_, hdispatcher⟩
    · rw [hpcs, hm]
      exact ⟨hr.guarded.mutex, hr.guarded.entries⟩
    · rw [hpcs, hm]
      exact ⟨hr.ledger.tickets, hr.ledger.sends⟩
    · rw [hm]
      exact fun ch => ⟨fun hch => (hr.recorded ch).1 (hbuffer ch hch), fun hch => (hr.recorded ch).2 (hclosed ch ▸ hch)⟩
    · rw [hm]
      exact hr.fresh
    · rw [hm]
      exact fun t ht => hasked t (hr.asked t ht)
  | queued t c hm hc hpc ht =>
    refine ⟨?_, ?_, ?_, ?_, ?_, hdispatcher⟩
    · rw [hpcs, hm]
      exact ⟨hr.guarded.mutex, hr.guarded.entries⟩
    · rw [hpcs, hm]
      exact ⟨hr.ledger.tickets, hr.ledger.sends⟩
    · rw [hm]
      exact hr.recorded
    · -- the call has not asked before, so its channel is not among those of the tasks
      have hnew : t.res ∉ (s.manager.taken ++ s.manager.taskQueue).map Task.res := by
        intro hmem
        obtain ⟨t', ht', hres⟩ := List.mem_map.1 hmem
        obtain ⟨c', hc', -, hpc'⟩ := hr.asked t' ht'
        rw [hres, hc, Option.some.injEq] at hc'
        rw [← hc', hpc] at hpc'
        cases hpc'
      rw [hm, ← List.append_assoc, List.map_append]
      exact List.nodup_append.2 ⟨hr.fresh, List.nodup_singleton _, fun a ha b hb => by
        rw [List.map_singleton, List.mem_singleton] at hb
        exact fun hab => hnew (hb ▸ hab ▸ ha)⟩
    · rw [hm, ← List.append_assoc]
      intro t' ht'
      rcases List.mem_append.1 ht' with ht' | ht'
      · exact hasked t' (hr.asked t' ht')
      · rw [List.mem_singleton.1 ht']
        exact ht

theorem asked_set {s s' : State V E} {i : Nat} {c : Caller V E} {pc : CallerPc V E} (hc : s.callers[i]? = some c)
    (hpc : c.pc.asked = true → pc.asked = true) (hs' : s'.callers = s.callers.set i { c with pc }) {t : Task}
    (ht : Asked s t) : Asked s' t := by
  obtain ⟨d, hd, hkey, hdpc⟩ := ht
  unfold Asked
  rw [hs']
  by_cases hi : t.res = i
  · subst hi
    cases hc.symm.trans hd
    obtain ⟨hlt, -⟩ := List.getElem?_eq_some_iff.1 hc
    exact ⟨_, List.getElem?_set_self hlt, hkey, hpc hdpc⟩
  · exact ⟨d, by rwa [List.getElem?_set_ne (Ne.symm hi)], hkey, hdpc⟩

variable [Inhabited V] {s s' : State V E} {m m' : Manager V E} {role : Role} {pc pc' : Pc V E}
  {started : Multiset (Pc V E)}

/-- A turn of a thread, beside all the others. -/
theorem step_thread {j : Nat} {answer : V × Option E} (h : step s (.thread j answer) = some s') :
    ∃ (th : Thread V E) (others : List (Thread V E)) (pc' : Pc V E) (started : List Task),
      s.threads[j]? = some th ∧ turn s.manager th.role answer th.pc = some (s'.manager, pc', started) ∧
      s.threads.Perm (th :: others) ∧
      s'.threads.Perm (⟨th.role, pc'⟩ :: (started.map (fun t => ⟨.fetcher, .lock t⟩) ++ others)) ∧
      s'.callers = s.callers := by
  simp only [step, Option.bind_eq_bind, Option.bind_eq_some_iff, Option.pure_def, Option.some.injEq] at h
  obtain ⟨th, hth, ⟨manager, pc', started⟩, hturn, rfl⟩ := h
  obtain ⟨others, hbefore, hafter⟩ := exists_others hth
  exact ⟨th, others, pc', started, hth, hturn, hbefore,
    ((hafter _).append_right _).trans (List.perm_append_comm.cons _), rfl⟩

theorem receive_keeps {c c' : Chan V E} {r : Result V E} (h : c.receive = some (r, c')) :
    c'.closed = c.closed ∧ (c'.buffer.isSome = true → c.buffer.isSome = true) := by
  unfold Chan.receive at h
  split at h
  · cases h
    exact ⟨rfl, by simp⟩
  · split at h
    · cases h
      exact ⟨rfl, id⟩
    · cases h

theorem step_outside {a : Action V E} (ha : ∀ j answer, a ≠ .thread j answer) (h : step s a = some s') :
    s'.threads = s.threads ∧ Outside s s' ∧ (∀ t, Asked s t → Asked s' t) ∧
      ((∀ k, a ≠ .expire k) → s'.manager.cache = s.manager.cache) := by
  cases a with
  | thread j answer => exact absurd rfl (ha j answer)
  | call key =>
    cases h
    refine ⟨rfl, .quiet s.manager.cache s.manager.chans rfl (fun _ _ => id) (fun _ => rfl) (fun _ => id), ?_, fun _ => rfl⟩
    rintro t ⟨c, hc, hkey, hpc⟩
    obtain ⟨hlt, -⟩ := List.getElem?_eq_some_iff.1 hc
    exact ⟨c, by rwa [List.getElem?_append_left hlt], hkey, hpc⟩
  | expire key =>
    cases h
    refine ⟨rfl, .quiet _ s.manager.chans rfl (fun k v hv => ?_) (fun _ => rfl) (fun _ => id), fun _ => id,
      fun hexp => absurd rfl (hexp key)⟩
    by_cases hk : k = key
    · subst hk
      simp at hv
    · simpa [hk] using hv
  | giveUp i err =>
    simp only [step, Option.bind_eq_bind, Option.bind_eq_some_iff, Option.pure_def, Option.some.injEq] at h
    obtain ⟨c, hc, pc, hpc, rfl⟩ := h
    refine ⟨rfl, .quiet s.manager.cache s.manager.chans rfl (fun _ _ => id) (fun _ => rfl) (fun _ => id),
      fun t => asked_set hc (fun _ => ?_) rfl, fun _ => rfl⟩
    unfold giveUp at hpc
    split at hpc
    · cases hpc
      rfl
    · cases hpc
  | caller i =>
    simp only [step, Option.bind_eq_bind, Option.bind_eq_some_iff, Option.pure_def, Option.some.injEq] at h
    obtain ⟨c, hc, ⟨manager, pc⟩, hturn, rfl⟩ := h
    obtain ⟨key, cpc⟩ := c
    cases cpc with
    | lookup =>
      have hquiet : manager = s.manager := by
        simp only [callerTurn] at hturn
        split at hturn <;> cases hturn <;> rfl
      subst hquiet
      exact ⟨rfl, .quiet s.manager.cache s.manager.chans rfl (fun _ _ => id) (fun _ => rfl) (fun _ => id),
        fun t => asked_set hc (by simp [CallerPc.asked]) rfl, fun _ => rfl⟩
    | enqueue =>
      simp only [callerTurn] at hturn
      split at hturn
      · cases hturn
        obtain ⟨hlt, -⟩ := List.getElem?_eq_some_iff.1 hc
        exact ⟨rfl, .queued ⟨key, i⟩ _ rfl hc rfl ⟨_, List.getElem?_set_self hlt, rfl, rfl⟩,
          fun t => asked_set hc (fun _ => rfl) rfl, fun _ => rfl⟩
      · cases hturn
    | waiting =>
      simp only [callerTurn, Option.bind_eq_bind, Option.bind_eq_some_iff, Option.pure_def, Option.some.injEq,
        Prod.mk.injEq] at hturn
      obtain ⟨⟨r, ch⟩, hreceive, rfl, rfl⟩ := hturn
      refine ⟨rfl, .quiet s.manager.cache _ rfl (fun _ _ => id) (fun ch' => ?_) (fun ch' hch' => ?_),
        fun t => asked_set hc (fun _ => rfl) rfl, fun _ => rfl⟩
      · by_cases hi : ch' = i
        · subst hi
          rw [Function.update_self, (receive_keeps hreceive).1]
        · rw [Function.update_of_ne hi]
      · by_cases hi : ch' = i
        · subst hi
          rw [Function.update_self] at hch'
          exact (receive_keeps hreceive).2 hch'
        · rwa [Function.update_of_ne hi] at hch'
    | returned r => cases hturn

/-! ## The accounts hold in every state -/

theorem Turn.queue (h : Turn m role pc m' pc' started) : m'.taken ++ m'.taskQueue = m.taken ++ m.taskQueue := by
  cases h with
  | take hqueue => simp [hqueue]
  | @finish _ entry _ => cases entry <;> rfl
  | _ => rfl

theorem Turn.dispatcher (h : Turn m .dispatcher pc m' pc' started) : pc' ≠ .returned := by
  cases h <;> exact fun hpc => by cases hpc

theorem Turn.recorded (h : Turn m role pc m' pc' started) (hm : Recorded m) : Recorded m' := by
  cases h with
  | @send _ _ ch _ r =>
    intro ch'
    by_cases hch : ch' = ch
    · subst hch
      exact ⟨by simp, by simpa using (hm ch').2⟩
    · refine ⟨fun hbuffer => ?_, by simpa [hch] using (hm ch').2⟩
      have := (hm ch').1 (by simpa [hch] using hbuffer)
      rw [List.map_append]
      exact List.mem_append_left _ this
  | @close _ _ ch _ r =>
    intro ch'
    by_cases hch : ch' = ch
    · subst hch
      exact ⟨by simpa using (hm ch').1, by simp⟩
    · refine ⟨by simpa [hch] using (hm ch').1, fun hclosed => ?_⟩
      exact List.mem_append_left _ ((hm ch').2 (by simpa [hch] using hclosed))
  | @finish _ entry _ => cases entry <;> exact hm
  | _ => exact hm

theorem Reached.thread {j : Nat} {answer : V × Option E} (hr : Reached s) (h : step s (.thread j answer) = some s') :
    Reached s' := by
  obtain ⟨th, others, pc', started, hth, hturn, hbefore, hafter, hcallers⟩ := step_thread h
  have ht := turn_cases hturn
  obtain ⟨hpcs, hpcs'⟩ := pcs_of_perm hbefore hafter
  have hguarded := hpcs ▸ hr.guarded
  have hledger := hpcs ▸ hr.ledger
  refine ⟨hpcs' ▸ hguarded.turn ht, hpcs' ▸ Ledger.turn hguarded hledger ht, ht.recorded hr.recorded, ?_, ?_, ?_⟩
  · rw [ht.queue]
    exact hr.fresh
  · rw [ht.queue]
    intro t htask
    obtain ⟨c, hc, hrest⟩ := hr.asked t htask
    exact ⟨c, by rwa [hcallers], hrest⟩
  · obtain ⟨d, hd, hrole, hpc⟩ := hr.dispatcher
    rcases List.mem_cons.1 (hbefore.mem_iff.1 hd) with rfl | hd
    · refine ⟨_, hafter.mem_iff.2 List.mem_cons_self, hrole, ?_⟩
      rw [hrole] at ht
      exact ht.dispatcher
    · exact ⟨d, hafter.mem_iff.2 (List.mem_cons_of_mem _ (List.mem_append_right _ hd)), hrole, hpc⟩

theorem Reached.next {a : Action V E} (hr : Reached s) (h : step s a = some s') : Reached s' := by
  by_cases ha : ∃ j answer, a = .thread j answer
  · obtain ⟨j, answer, rfl⟩ := ha
    exact hr.thread h
  · obtain ⟨hthreads, hout, hasked, -⟩ := step_outside (fun j answer hj => ha ⟨j, answer, hj⟩) h
    exact hr.outside hthreads hout hasked

theorem reached_run {cache : String → Option V} {tr} (h : Run step (State.start cache) tr s) : Reached s :=
  @Run.inv _ _ _ _ (fun _ _ => True) Reached (reached_start cache) (fun _ _ _ hr _ => hr.next) _ _ h fun _ _ => trivial

/-- The step is not the expiry of an entry. -/
def NoExpiry (_ : State V E) (a : Action V E) : Prop := ∀ k, a ≠ .expire k

/-- What holds at the start and is kept by every turn and by what the callers and
the cache do holds in every state. Where it needs that no entry expires, `expiring`
is false. -/
theorem manager_inv {cache : String → Option V} {expiring : Prop} (I : Manager V E → Multiset (Pc V E) → Prop)
    (hstart : I (.create cache) {.idle})
    (hturn : ∀ m role pc m' pc' started others, Guarded m (pc ::ₘ others) → I m (pc ::ₘ others) →
      Turn m role pc m' pc' started → I m' (pc' ::ₘ (started + others)))
    (hout : ∀ m pcs queue cache chans, I m pcs → (∀ k v, cache k = some v → m.cache k = some v) →
      (¬expiring → cache = m.cache) → I { m with taskQueue := queue, cache := cache, chans := chans } pcs)
    {tr} (h : Run step (State.start cache) tr s) (hok : ¬expiring → ∀ p ∈ tr, NoExpiry p.1 p.2) :
    I s.manager s.pcs := by
  have hinv : Reached s ∧ I s.manager s.pcs := by
    refine @Run.inv _ _ _ _ (fun s a => ¬expiring → NoExpiry s a) (fun s => Reached s ∧ I s.manager s.pcs)
      ⟨reached_start cache, hstart⟩ ?_ _ _ h fun p hp hexp => hok hexp p hp
    rintro s a s' ⟨hr, hI⟩ hexpiry hstep
    refine ⟨hr.next hstep, ?_⟩
    by_cases ha : ∃ j answer, a = .thread j answer
    · obtain ⟨j, answer, rfl⟩ := ha
      obtain ⟨th, others, pc', started, -, hstep, hbefore, hafter, -⟩ := step_thread hstep
      obtain ⟨hpcs, hpcs'⟩ := pcs_of_perm hbefore hafter
      rw [hpcs']
      exact hturn _ _ _ _ _ _ _ (hpcs ▸ hr.guarded) (hpcs ▸ hI) (turn_cases hstep)
    · obtain ⟨hthreads, houtside, -, hkept⟩ := step_outside (fun j answer hj => ha ⟨j, answer, hj⟩) hstep
      have hpcs : s'.pcs = s.pcs := by rw [State.pcs, hthreads, State.pcs]
      have hcache (hexp : ¬expiring) : s'.manager.cache = s.manager.cache := hkept (hexpiry hexp)
      rw [hpcs]
      cases houtside with
      | quiet cache' chans hm hsub =>
        rw [hm] at hcache ⊢
        exact hout _ _ _ _ _ hI hsub hcache
      | queued t c hm =>
        rw [hm]
        exact hout _ _ _ _ _ hI (fun _ _ => id) fun _ => rfl
  exact hinv.2

end MevShare.Spike
