import MevShare.Spike.Reached
/-!
# One fetch for each key

While a thread fetches a key it owns the entry of that key, and an entry has one
owner: so one `Fetch` for a key is in progress at most.

As long as nothing expires, a key that was fetched is in the cache or about to be
(`Single.present`). The lookup and the registration of a goroutine are two turns,
but under one lock: a goroutine that did not find the key in the cache finds the
entry of a fetch that succeeded in between (`Single.seen`), so it does not start
a second one.
-/
open Lib

namespace MevShare.Spike

variable {V E : Type}

/-- A call of `Fetch` for the key is in progress. -/
def Pc.fetches (k : String) : Pc V E → Bool
  | .fetch t => t.key = k
  | _ => false

/-- A fetch of the key has returned a value that is not in the cache yet. -/
def Pc.sets (k : String) : Pc V E → Bool
  | .set t _ => t.key = k
  | _ => false

def Fetched.succeeds (k : String) (f : Fetched V E) : Bool := f.key = k && f.err.isNone

/-- How often `Fetch` returned a value for the key. -/
def successes (m : Manager V E) (k : String) : Nat := m.fetches.countP (Fetched.succeeds k)

/-- A fetch that succeeded is the only one, and it is known: by the cache or the
thread that will store it, and by the entry to those who have looked into the
cache before. -/
structure Single (m : Manager V E) (pcs : Multiset (Pc V E)) : Prop where
  once : ∀ k, successes m k ≤ 1
  present : ∀ k, 0 < successes m k → (m.cache k).isSome = true ∨ ∃ pc ∈ pcs, pc.sets k = true
  seen : ∀ t, .look t ∈ pcs → 0 < successes m t.key → (m.currentlyExecuted t.key).isSome = true
  first : ∀ t, .fetch t ∈ pcs → successes m t.key = 0

variable [Inhabited V] {s s' : State V E} {m m' : Manager V E} {role : Role} {pc pc' : Pc V E}
  {started others : Multiset (Pc V E)} {k : String}

/-- A turn counts as a success if `Fetch` returns a value in it. -/
theorem Turn.successes (h : Turn m role pc m' pc' started) :
    (∀ k, successes m' k = successes m k) ∨
      ∃ t v, pc = .fetch t ∧ pc' = .set t v ∧ m'.currentlyExecuted = m.currentlyExecuted ∧
        (∀ k, successes m' k = successes m k + if t.key = k then 1 else 0) := by
  cases h with
  | @failed _ t v err => exact .inl fun k => by simp [Spike.successes, List.countP_append, Fetched.succeeds]
  | @fetched _ t v =>
    refine .inr ⟨t, v, rfl, rfl, rfl, fun k => ?_⟩
    simp [Spike.successes, List.countP_append, Fetched.succeeds, List.countP_singleton]
  | @finish _ entry _ => cases entry <;> exact .inl fun _ => rfl
  | _ => exact .inl fun _ => rfl

theorem Turn.cache_kept (h : Turn m role pc m' pc' started) (hk : (m.cache k).isSome = true ∨ pc.sets k = true) :
    (m'.cache k).isSome = true := by
  cases h with
  | @set _ t v =>
    by_cases heq : k = t.key
    · subst heq
      simp
    · have hcached := hk.resolve_right (by simpa [Pc.sets] using Ne.symm heq)
      simpa [heq] using hcached
  | @finish _ entry _ => cases entry <;> exact hk.resolve_right (by simp [Pc.sets])
  | _ => exact hk.resolve_right (by simp [Pc.sets])

theorem Turn.entry_kept (h : Turn m role pc m' pc' started) (hpc : pc.holds = false) :
    m'.currentlyExecuted = m.currentlyExecuted := by
  cases h with
  | take | lock | failed | fetched | set | relock => rfl
  | _ => cases hpc

/-- Only a thread that finds nothing in the cache looks for an entry. -/
theorem Turn.looks {t : Task} (h : Turn m role pc m' pc' started) (ht : .look t ∈ pc' ::ₘ started) :
    pc = .get t ∧ m.cache t.key = none ∧ m' = m := by
  cases h with
  | miss hcache =>
    simp at ht
    subst ht
    exact ⟨rfl, hcache, rfl⟩
  | join | finish => cases role <;> simp [Role.rest] at ht
  | _ => simp at ht

/-- Only a thread that finds no entry begins to fetch. -/
theorem Turn.begins {t : Task} (h : Turn m role pc m' pc' started) (ht : .fetch t ∈ pc' ::ₘ started) :
    pc = .look t ∧ m.currentlyExecuted t.key = none := by
  cases h with
  | register hentry =>
    simp at ht
    subst ht
    exact ⟨rfl, hentry⟩
  | join | finish => cases role <;> simp [Role.rest] at ht
  | _ => simp at ht

omit [Inhabited V] in
theorem Guarded.entry_of_owned {pcs : Multiset (Pc V E)} (hg : Guarded m pcs) (hpc : pc ∈ pcs) (hk : k ∈ pc.owned) :
    (m.currentlyExecuted k).isSome = true := by
  have hcount := hg.entries k
  have hpos := Multiset.count_pos.2 (Multiset.mem_bind.2 ⟨pc, hpc, hk⟩)
  cases hentry : (m.currentlyExecuted k).isSome with
  | true => rfl
  | false =>
    rw [hentry, Bool.toNat_false] at hcount
    omega

omit [Inhabited V] in
theorem Guarded.owner {p : Pc V E} (hg : Guarded m (pc ::ₘ others)) (hk : k ∈ pc.owned) (hp : p ∈ others) : k ∉ p.owned := by
  intro hkp
  have hcount := hg.entries k
  have hle := Bool.toNat_le (m.currentlyExecuted k).isSome
  have hpos := Multiset.count_pos.2 hk
  have hpos' := Multiset.count_pos.2 (Multiset.mem_bind.2 ⟨p, hp, hkp⟩)
  rw [Multiset.cons_bind, Multiset.count_add] at hcount
  omega

omit [Inhabited V] in
theorem owned_of_sets (h : pc.sets k = true) : k ∈ pc.owned := by
  cases pc with
  | set t v => simpa [Pc.owned, Pc.parked, Pc.delivering, Pc.sets, eq_comm] using h
  | _ => cases h

omit [Inhabited V] in
theorem owned_of_fetches (h : pc.fetches k = true) : k ∈ pc.owned := by
  cases pc with
  | fetch t => simpa [Pc.owned, Pc.parked, Pc.delivering, Pc.fetches, eq_comm] using h
  | _ => cases h

omit [Inhabited V] in
theorem mem_after {p : Pc V E} (hp : p ∈ pc' ::ₘ (started + others)) : p ∈ pc' ::ₘ started ∨ p ∈ others := by
  rwa [← Multiset.cons_add, Multiset.mem_add] at hp

/-- A turn in which no fetch succeeds. -/
theorem Single.turn_same (hs : Single m (pc ::ₘ others)) (hg : Guarded m (pc ::ₘ others))
    (h : Turn m role pc m' pc' started) (hsame : ∀ k, successes m' k = successes m k) :
    Single m' (pc' ::ₘ (started + others)) := by
  refine ⟨fun k => ?_, fun k hk => ?_, fun t ht hk => ?_, fun t ht => ?_⟩
  · rw [hsame]
    exact hs.once k
  · rw [hsame] at hk
    rcases hs.present k hk with hcached | ⟨p, hp, hsets⟩
    · exact .inl (h.cache_kept (.inl hcached))
    · rcases Multiset.mem_cons.1 hp with rfl | hp
      · exact .inl (h.cache_kept (.inr hsets))
      · exact .inr ⟨p, Multiset.mem_cons_of_mem (Multiset.mem_add.2 (.inr hp)), hsets⟩
  · rw [hsame] at hk
    rcases mem_after ht with ht | ht
    · -- the thread that will store the value still has the entry
      obtain ⟨rfl, hcache, rfl⟩ := h.looks ht
      obtain ⟨p, hp, hsets⟩ := (hs.present t.key hk).resolve_left (by simp [hcache])
      exact hg.entry_of_owned hp (owned_of_sets hsets)
    · -- the thread that looks has the mutex, so this turn deletes no entry
      have hfree : pc.holds = false := by
        refine Bool.eq_false_iff.2 fun hholds => Multiset.count_eq_zero.1 (hg.alone hholds) ?_
        exact Multiset.mem_map.2 ⟨_, ht, rfl⟩
      rw [h.entry_kept hfree]
      exact hs.seen t (Multiset.mem_cons_of_mem ht) hk
  · rw [hsame]
    rcases mem_after ht with ht | ht
    · obtain ⟨rfl, hentry⟩ := h.begins ht
      by_contra hne
      have hseen := hs.seen t (Multiset.mem_cons_self _ _) (Nat.pos_of_ne_zero hne)
      rw [hentry] at hseen
      cases hseen
    · exact hs.first t (Multiset.mem_cons_of_mem ht)

/-- A turn in which a fetch succeeds. -/
theorem Single.turn_success {t : Task} {v : V} (hs : Single m (.fetch t ::ₘ others)) (hg : Guarded m (.fetch t ::ₘ others))
    (h : Turn m role (.fetch t) m' (.set t v) started) (hentries : m'.currentlyExecuted = m.currentlyExecuted)
    (hmore : ∀ k, successes m' k = successes m k + if t.key = k then 1 else 0) :
    Single m' (.set t v ::ₘ (started + others)) := by
  have hself := Multiset.mem_cons_self (Pc.fetch t) others
  have howned : t.key ∈ (.fetch t : Pc V E).owned := Multiset.mem_add.2 (.inl (Multiset.mem_singleton_self _))
  refine ⟨fun k => ?_, fun k hk => ?_, fun t' ht' hk => ?_, fun t' ht' => ?_⟩
  · rw [hmore]
    split
    · rename_i heq
      rw [← heq, hs.first t hself]
    · exact hs.once k
  · by_cases heq : t.key = k
    · exact .inr ⟨_, Multiset.mem_cons_self _ _, by simpa [Pc.sets] using heq⟩
    · rw [hmore, if_neg heq, add_zero] at hk
      rcases hs.present k hk with hcached | ⟨p, hp, hsets⟩
      · exact .inl (h.cache_kept (.inl hcached))
      · rcases Multiset.mem_cons.1 hp with rfl | hp
        · cases hsets
        · exact .inr ⟨p, Multiset.mem_cons_of_mem (Multiset.mem_add.2 (.inr hp)), hsets⟩
  · rw [hentries]
    rcases mem_after ht' with ht' | ht'
    · cases (h.looks ht').1
    · by_cases heq : t.key = t'.key
      · exact heq ▸ hg.entry_of_owned hself howned
      · rw [hmore, if_neg heq, add_zero] at hk
        exact hs.seen t' (Multiset.mem_cons_of_mem ht') hk
  · rcases mem_after ht' with ht' | ht'
    · cases (h.begins ht').1
    · have hne : t.key ≠ t'.key := by
        intro heq
        exact hg.owner howned ht' (heq ▸ Multiset.mem_add.2 (.inl (Multiset.mem_singleton_self _)))
      rw [hmore, if_neg hne, add_zero]
      exact hs.first t' (Multiset.mem_cons_of_mem ht')

theorem Single.turn (hs : Single m (pc ::ₘ others)) (hg : Guarded m (pc ::ₘ others))
    (h : Turn m role pc m' pc' started) : Single m' (pc' ::ₘ (started + others)) := by
  rcases h.successes with hsame | ⟨t, v, rfl, rfl, hentries, hmore⟩
  · exact hs.turn_same hg h hsame
  · exact hs.turn_success hg h hentries hmore

theorem single_run {cache : String → Option V} {tr} (h : Run step (State.start cache) tr s)
    (hok : ∀ p ∈ tr, NoExpiry p.1 p.2) : Single s.manager s.pcs := by
  refine manager_inv Single ?_ (fun _ _ _ _ _ _ _ hg hs ht => hs.turn hg ht) ?_ h fun _ : ¬False => hok
  · exact ⟨fun _ => Nat.zero_le _, fun _ hk => absurd hk (Nat.lt_irrefl 0), fun _ _ hk => absurd hk (Nat.lt_irrefl 0),
      fun _ _ => rfl⟩
  · intro m pcs queue cache' chans hs _ hcache
    rw [hcache id]
    exact ⟨hs.once, hs.present, hs.seen, hs.first⟩

/-- In every interleaving at most one `Fetch` for a key is in progress, and if no
entry of the cache expires `Fetch` returns a value for a key at most once. -/
theorem single_flight {cache : String → Option V} {tr} (h : Run step (State.start cache) tr s) :
    (∀ k, s.threads.countP (fun th => th.pc.fetches k) ≤ 1) ∧
      ((∀ p ∈ tr, NoExpiry p.1 p.2) → ∀ k, successes s.manager k ≤ 1) := by
  refine ⟨fun k => ?_, fun hok => (single_run h hok).once⟩
  calc s.threads.countP (fun th => th.pc.fetches k)
      = (s.threads.map Thread.pc).countP (Pc.fetches k) := by rw [List.countP_map]; rfl
    _ ≤ (s.pcs.bind Pc.owned).count k := countP_le_count_bind (fun _ => owned_of_fetches) _
    _ = (s.manager.currentlyExecuted k).isSome.toNat := (reached_run h).guarded.entries k
    _ ≤ 1 := Bool.toNat_le _

/-- A call whose fetch fails, one whose fetch succeeds, and one that finds the value in the cache. -/
def failedThenFetched : List (Action Nat Unit) :=
  List.flatten [[.call "k", .caller 0, .caller 0], List.replicate 4 (.thread 0 (0, none)),
    List.replicate 8 (.thread 1 (0, some ())), [.call "k", .caller 1, .caller 1],
    List.replicate 4 (.thread 0 (0, none)), List.replicate 9 (.thread 2 (7, none)), [.call "k", .caller 2]]

theorem single_flight_after_failure :
    ∃ tr s, Run step (State.start fun _ => none : State Nat Unit) tr s ∧ (∀ p ∈ tr, NoExpiry p.1 p.2) ∧
      s.manager.fetches = [⟨"k", 0, some ()⟩, ⟨"k", 7, none⟩] ∧ s.callers[2]? = some ⟨"k", .returned ⟨7, none⟩⟩ ∧
      s.threads.countP (fun th => th.pc.fetches "k") ≤ 1 ∧ successes s.manager "k" ≤ 1 := by
  have hseen : (failedThenFetched.foldlM step (State.start fun _ => none)).map
      (fun s => (s.manager.fetches, s.callers[2]?)) =
        some ([⟨"k", 0, some ()⟩, ⟨"k", 7, none⟩], some ⟨"k", .returned ⟨7, none⟩⟩) := by decide +kernel
  obtain ⟨s, hexec, hs⟩ := Option.map_eq_some_iff.1 hseen
  obtain ⟨hfetches, hcaller⟩ := Prod.mk.inj hs
  obtain ⟨tr, hrun, hactions⟩ := run_of_foldlM hexec
  have hok : ∀ p ∈ tr, NoExpiry p.1 p.2 := by
    have hnone : ∀ a ∈ failedThenFetched, ∀ k, a ≠ .expire k := by simp [failedThenFetched]
    intro p hp
    exact hnone p.2 (hactions ▸ List.mem_map_of_mem hp)
  obtain ⟨hfetching, honce⟩ := single_flight hrun
  exact ⟨tr, s, hrun, hok, hfetches, hcaller, hfetching "k", honce hok "k"⟩

end MevShare.Spike
