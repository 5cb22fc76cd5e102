import MevShare.Queue.Admission
import MevShare.Queue.Order
import MevShare.Queue.Targets
/-!
# What a worker pops

The order of the entries is the documented one for items that Redis can hold
without rounding (`Order.lean`). Here that is carried over to runs: every entry of
the sorted set is the encoding of an item that was pushed, so a worker that pops
takes the item that comes first among all that are queued at that moment, whoever
put them there and however often they have been requeued.
-/
open Lib

namespace MevShare.Queue

variable {cfg : RedisQueueConfig} {s s' : State} {a b : PackArgs}

/-- The item is in the sorted set as it is: its block is exact as a score and its time is from 1970 on. -/
structure Sortable (a : PackArgs) : Prop where
  block : a.minTargetBlock.toNat ≤ 2 ^ 53
  time : 0 ≤ a.timestamp

/-- The call makes such an item. -/
structure PushCall.Timed (c : PushCall) : Prop where
  exact : c.Exact
  time : 0 ≤ c.timestamp

def Timely : Action → Prop
  | .push c => c.Timed
  | _ => True

/-! ## The entries of the sorted set -/

theorem PushCall.Timed.sortable {c : PushCall} (hc : c.Timed) (hkey : c.key = a.key)
    (hle : a.minTargetBlock ≤ a.maxTargetBlock) : Sortable a where
  block := hc.exact.block_small hkey hle
  time := by
    have htime : c.timestamp = a.timestamp := congrArg Key.timestamp hkey
    exact htime ▸ hc.time

/-- Where the calls of `Push` come from. -/
theorem step_calls {act : Action} (h : step cfg s act = some s') :
    ∀ p ∈ s'.pushes, (∃ q ∈ s.pushes, q.call = p.call) ∨ act = .push p.call := by
  intro p hp
  cases act with
  | push c =>
    cases h
    rcases List.mem_append.1 hp with hp | hp
    · exact .inl ⟨p, hp, rfl⟩
    · rw [List.mem_singleton.1 hp]
      exact .inr rfl
  | pushStep i fails =>
    simp only [step, Option.bind_eq_bind, Option.bind_eq_some_iff] at h
    obtain ⟨q, hq, ⟨pc, s₁⟩, -, heq⟩ := h
    cases heq
    rcases List.mem_or_eq_of_mem_set hp with hp | rfl
    · exact .inl ⟨p, hp, rfl⟩
    · exact .inl ⟨q, List.mem_of_getElem? hq, rfl⟩
  | update block =>
    cases h
    exact .inl ⟨p, hp, rfl⟩
  | updateStep i =>
    simp only [step, Option.bind_eq_bind, Option.bind_eq_some_iff] at h
    obtain ⟨u, -, ⟨pc, s₁⟩, hturn, heq⟩ := h
    cases heq
    rw [updateTurn_frame hturn] at hp
    exact .inl ⟨p, hp, rfl⟩
  | worker w env =>
    obtain ⟨pc, pc', s₁, -, hturn, rfl⟩ := worker_step h
    rw [workerTurn_pushes hturn] at hp
    exact .inl ⟨p, hp, rfl⟩

/-- Every call was timed, and every entry was written by `packData` from a sortable item. -/
structure Sorted (cfg : RedisQueueConfig) (s : State) : Prop where
  sound : Sound s
  tracked : (s.board cfg).Tracked
  timed : ∀ p ∈ s.pushes, p.call.Timed
  written : ∀ e ∈ s.redis, ∃ a, e = packData a ∧ Sortable a

theorem Sorted.pushed (h : Sorted cfg s) (ha : Pushed (s.board cfg).accepted a) : Sortable a := by
  obtain ⟨c, hc, hkey, hblocks⟩ := ha
  obtain ⟨p, hp, -, rfl⟩ := mem_accepted.1 hc
  have htimed := h.timed p hp
  exact htimed.sortable hkey (hblocks htimed.exact).2

/-- The items on their way into the sorted set. -/
theorem Sorted.call {c : Call} (h : Sorted cfg s) (hc : c ∈ s.calls) : Sortable c.args := by
  rcases Multiset.mem_add.1 hc with hc | hc
  · obtain ⟨p, hp, hc⟩ := mem_sum_map.1 hc
    cases hpc : p.pc with
    | pushing args stage =>
      rw [hpc] at hc
      cases Multiset.mem_singleton.1 hc
      have hfits := h.sound p hp args stage hpc
      have htimed := h.timed p hp
      exact htimed.sortable hfits.key.symm (hfits.max htimed.exact.le)
    | enter | returned =>
      rw [hpc] at hc
      cases hc
  · obtain ⟨pc, hpc, hc⟩ := mem_sum_map.1 hc
    cases pc with
    | requeue args stage =>
      cases Multiset.mem_singleton.1 hc
      have hmem : ⟨args, .requeue⟩ ∈ (s.board cfg).tokens :=
        Multiset.mem_add.2 (.inr (mem_sum_map.2 ⟨_, hpc, by simp [WorkerPc.tokens]⟩))
      exact h.pushed (h.tracked.token hmem)
    | idle | popped | processing => cases hc

theorem Sorted.step {act : Action} (h : Sorted cfg s) (hact : Timely act) (hstep : step cfg s act = some s') :
    Sorted cfg s' := by
  refine ⟨sound_step h.sound hstep, tracked_move (step_move h.sound hstep) h.tracked, fun p hp => ?_, fun e he => ?_⟩
  · rcases step_calls hstep p hp with ⟨q, hq, hcall⟩ | rfl
    · exact hcall ▸ h.timed q hq
    · exact hact
  · have hmove := step_callMove hstep
    generalize s'.redis = redis' at he hmove
    generalize s'.calls = calls' at hmove
    cases hmove with
    | settle hsub _ => exact h.written e (hsub.subset he)
    | start | advance => exact h.written e he
    | @add args _ hcalls =>
      rcases List.mem_append.1 he with he | he
      · exact h.written e (List.mem_of_mem_filter he)
      · exact ⟨args, List.mem_singleton.1 he, h.call (c := ⟨args, .add⟩) (by simp [hcalls])⟩

theorem sorted_run {block : UInt64} {nWorkers : Nat} {tr : List (State × Action)}
    (hrun : Run (step cfg) (State.start block nWorkers) tr s) (htimely : ∀ p ∈ tr, Timely p.2) : Sorted cfg s := by
  refine @Run.inv _ _ _ _ (fun _ act => Timely act) (Sorted cfg) ?_ (fun _ _ _ h hact hstep => h.step hact hstep) _ _ hrun
    htimely
  exact ⟨by simp [Sound, State.start], ⟨by simp [Board.items, State.board, State.start, WorkerPc.tokens],
    by simp [State.board, State.start]⟩, by simp [State.start], by simp [State.start]⟩

/-! ## The pop -/

theorem mem_queued : ⟨a, .queued⟩ ∈ (s.board cfg).tokens ↔ ∃ e ∈ s.redis, unpackData cfg.outOfRange e.1 e.2 = some a := by
  have hentry : ∀ e, ⟨a, .queued⟩ ∈ entryTokens cfg e ↔ unpackData cfg.outOfRange e.1 e.2 = some a := by
    intro e
    unfold entryTokens
    cases unpackData cfg.outOfRange e.1 e.2 with
    | none => simp
    | some b => simp [eq_comm]
  have hworker : ∀ pc : WorkerPc, ⟨a, .queued⟩ ∉ pc.tokens := by
    intro pc
    cases pc <;> simp [WorkerPc.tokens]
  simp only [State.board, Multiset.mem_add, mem_sum_map, hentry, hworker, and_false, exists_false, or_false]

/-- An entry is sorted as the item that it decodes to. -/
theorem Sorted.entry (h : Sorted cfg s) {e : Nat × Bytes} (he : e ∈ s.redis)
    (hdecode : unpackData cfg.outOfRange e.1 e.2 = some a) : e = packData a ∧ Sortable a := by
  obtain ⟨a', rfl, ha'⟩ := h.written e he
  rw [unpackData_packData, packData, uint64OfScore_score cfg.outOfRange ha'.block] at hdecode
  cases hdecode
  exact ⟨rfl, ha'⟩

theorem idle_pops {env : WorkerEnv} (h : workerTurn cfg s env .idle = some (.popped a, s')) :
    ∃ e ∈ s.redis, unpackData cfg.outOfRange e.1 e.2 = some a ∧ ∀ x ∈ s.redis, sortsBefore x e = false := by
  simp only [workerTurn] at h
  split at h
  · cases h
  · split at h
    · cases h
    · rename_i score member redis hpop
      obtain ⟨e, he, heq⟩ := Option.map_eq_some_iff.1 hpop
      cases heq
      split at h
      · cases h
      · rename_i a' ha'
        cases h
        exact ⟨_, minEntry_mem he, ha', minEntry_first he⟩

/-- After any run, the item that a worker pops is one that was queued, and comes
before every other one in the documented order: target block, priority, retries,
time of submission. -/
theorem popped_first {block : UInt64} {nWorkers w : Nat} {env : WorkerEnv} {tr : List (State × Action)}
    (hrun : Run (step cfg) (State.start block nWorkers) tr s) (htimely : ∀ p ∈ tr, Timely p.2)
    (hidle : s.workers[w]? = some .idle) (hstep : step cfg s (.worker w env) = some s')
    (hpopped : s'.workers[w]? = some (.popped a)) :
    ⟨a, .queued⟩ ∈ (s.board cfg).tokens ∧ ∀ b, ⟨b, .queued⟩ ∈ (s.board cfg).tokens → b = a ∨ Precedes a b := by
  have hsorted := sorted_run hrun htimely
  obtain ⟨pc, pc', s₁, hpc, hturn, rfl⟩ := worker_step hstep
  obtain rfl : pc = .idle := by simpa [hpc] using hidle
  obtain rfl : pc' = .popped a := by
    have hlt := (List.getElem?_eq_some_iff.1 hpc).1
    simpa [hlt] using hpopped
  obtain ⟨e, he, hdecode, hfirst⟩ := idle_pops hturn
  refine ⟨mem_queued.2 ⟨e, he, hdecode⟩, fun b hb => ?_⟩
  obtain ⟨x, hx, hdecodex⟩ := mem_queued.1 hb
  obtain ⟨rfl, hasort⟩ := hsorted.entry he hdecode
  obtain ⟨rfl, hbsort⟩ := hsorted.entry hx hdecodex
  have hnot : ¬Precedes b a := by
    rw [← sortsBefore_packData hbsort.block hasort.block hbsort.time hasort.time, hfirst _ hx]
    exact Bool.false_ne_true
  by_cases hab : Precedes a b
  · exact .inr hab
  · exact .inl (eq_of_not_precedes hnot hab)

/-- An item of low priority, and one of high priority that is pushed after it. -/
def lowThenHigh : List Action :=
  pushed ⟨[1], false, 1, 5, 8⟩ ++ .push ⟨[2], true, 1, 5, 9⟩ :: List.replicate 6 (.pushStep 1 false)

theorem lowThenHigh_timely : ∀ act ∈ lowThenHigh, Timely act := by
  intro act hact
  simp only [lowThenHigh, pushed, List.cons_append, List.mem_cons, List.mem_append, List.mem_replicate] at hact
  rcases hact with rfl | ⟨-, rfl⟩ | rfl | ⟨-, rfl⟩
  · exact ⟨⟨by decide, by decide⟩, by decide⟩
  · trivial
  · exact ⟨⟨by decide, by decide⟩, by decide⟩
  · trivial

theorem popped_first_high :
    ∃ s s', lowThenHigh.foldlM (step smallConfig) (State.start 0 1) = some s ∧
      step smallConfig s (worked none) = some s' ∧ s'.workers[0]? = some (.popped ⟨[2], 1, 5, true, 9, 0⟩) ∧
      ∀ b, ⟨b, .queued⟩ ∈ (s.board smallConfig).tokens →
        b = ⟨[2], 1, 5, true, 9, 0⟩ ∨ Precedes ⟨[2], 1, 5, true, 9, 0⟩ b := by
  have hsteps : ∃ s s', lowThenHigh.foldlM (step smallConfig) (State.start 0 1) = some s ∧ s.workers[0]? = some .idle ∧
      step smallConfig s (worked none) = some s' ∧ s'.workers[0]? = some (.popped ⟨[2], 1, 5, true, 9, 0⟩) :=
    ⟨_, _, rfl, rfl, rfl, rfl⟩
  obtain ⟨s, s', hsteps, hidle, hstep, hpopped⟩ := hsteps
  obtain ⟨tr, hrun, hactions⟩ := run_of_foldlM hsteps
  have htimely : ∀ p ∈ tr, Timely p.2 := fun p hp => lowThenHigh_timely _ (hactions ▸ List.mem_map_of_mem hp)
  exact ⟨s, s', hsteps, hstep, hpopped, (popped_first hrun htimely hidle hstep hpopped).2⟩

end MevShare.Queue
