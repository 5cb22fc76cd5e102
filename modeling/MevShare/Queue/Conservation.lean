import Mathlib.Tactic.Abel
import MevShare.Queue.Simulation
/-!
# No item is lost or copied

The items on the board and the finished ones are, as a multiset of keys, the
accepted ones. It is read off `Move.items`, which says what a move does to the
items. What finished an item is in the record of the invocations of `process`.
-/
open Lib

namespace MevShare.Queue

variable {cfg : RedisQueueConfig} {lossless inTime : Prop} {b b' : Board}

/-! ## The items -/

def Board.items (b : Board) : Multiset PackArgs :=
  b.tokens.map Token.args + (b.finished.map Finished.args : List PackArgs)

/-- An item on its way through the queue keeps its key, and its block only moves
up, not past the last one. In Redis the block may be rounded. -/
def Later (outOfRange : UInt64) (a a' : PackArgs) : Prop :=
  a' = a.stored outOfRange ∨
    a'.key = a.key ∧ a.minTargetBlock ≤ a'.minTargetBlock ∧
      (a.minTargetBlock ≤ a.maxTargetBlock → a'.minTargetBlock ≤ a'.maxTargetBlock)

theorem Later.key {outOfRange : UInt64} {a a' : PackArgs} (h : Later outOfRange a a') : a'.key = a.key := by
  rcases h with rfl | ⟨hkey, -⟩
  · rfl
  · exact hkey

theorem Held.keeps {a a' : PackArgs} (h : Held a a') :
    a'.key = a.key ∧ a.minTargetBlock ≤ a'.minTargetBlock ∧
      (a.minTargetBlock ≤ a.maxTargetBlock → a'.minTargetBlock ≤ a'.maxTargetBlock) := by
  rcases h with rfl | ⟨nextBlock, hlt, hle, rfl⟩
  · exact ⟨rfl, UInt64.le_refl _, id⟩
  · exact ⟨rfl, UInt64.le_of_lt hlt, fun _ => hle⟩

theorem Retried.keeps {r : ProcessResult} {a a' : PackArgs} (h : Retried cfg r a a') :
    a'.key = a.key ∧ a.minTargetBlock ≤ a'.minTargetBlock ∧
      (a.minTargetBlock ≤ a.maxTargetBlock → a'.minTargetBlock ≤ a'.maxTargetBlock) := by
  obtain ⟨-, h⟩ := h
  split at h
  · exact ⟨by rw [h]; rfl, by rw [h]; exact UInt64.le_refl _, by rw [h]; exact id⟩
  · obtain ⟨hlt, rfl⟩ := h
    refine ⟨rfl, ?_, fun _ => ?_⟩ <;> simp only [PackArgs.bump] <;> grind
  · obtain ⟨hlt, rfl⟩ := h
    refine ⟨rfl, ?_, fun _ => ?_⟩ <;> simp only [PackArgs.bump] <;> grind
  · subst h
    exact ⟨rfl, UInt64.le_refl _, id⟩
  · exact h.elim

section Items
variable {accepted : Multiset PushCall} {events : List Event} {finished : List Finished} {rest : Multiset Token}

theorem Board.items_of_tokens {moved : Multiset Token} (h : b.tokens = moved + rest) :
    b.items = moved.map Token.args + (rest.map Token.args + (b.finished.map Finished.args : List PackArgs)) := by
  rw [Board.items, h, Multiset.map_add, add_assoc]

theorem Board.items_token {t : Token} :
    Board.items ⟨{t} + rest, accepted, events, finished⟩ =
      {t.args} + (rest.map Token.args + (finished.map Finished.args : List PackArgs)) := by
  rw [Board.items_of_tokens rfl, Multiset.map_singleton]

theorem Board.items_finished {f : Finished} :
    Board.items ⟨rest, accepted, events, finished ++ [f]⟩ =
      {f.args} + (rest.map Token.args + (finished.map Finished.args : List PackArgs)) := by
  simp only [Board.items, List.map_append, ← Multiset.coe_add, List.map_singleton, Multiset.coe_singleton]
  abel

end Items

/-- A move leaves the items as they are, replaces one by a later form of it, or
adds an accepted one. The last two may absorb items with the same key. -/
theorem Move.items (h : Move cfg lossless inTime b b') :
    b'.accepted = b.accepted ∧ b'.items = b.items ∨
      (∃ a a' merged rest, Later cfg.outOfRange a a' ∧ (∀ m ∈ merged, m.key = a.key) ∧
        b.items = {a} + (merged + rest) ∧ b'.items = {a'} + rest ∧ b'.accepted = b.accepted) ∨
      ∃ c a merged rest, Fits c a ∧ (∀ m ∈ merged, m.key = a.key) ∧
        b.items = merged + rest ∧ b'.items = {a.stored cfg.outOfRange} + rest ∧ b'.accepted = {c} + b.accepted := by
  have hkeys {a : PackArgs} {merged : Multiset Token} (hsame : SameMember a merged) :
      ∀ m ∈ merged.map Token.args, m.key = a.key := by
    intro m hm
    obtain ⟨x, hx, rfl⟩ := Multiset.mem_map.1 hm
    exact (hsame x hx).2.1
  cases h with
  | stutter => exact .inl ⟨rfl, rfl⟩
  | accept hfits hsame htokens =>
    exact .inr (.inr ⟨_, _, _, _, hfits, hkeys hsame, Board.items_of_tokens htokens, Board.items_token, rfl⟩)
  | requeued hsame htokens =>
    -- what comes back from Redis is the item with its score rounded
    refine .inr (.inl ⟨_, _, _, _, .inl rfl, hkeys hsame, ?_, Board.items_token, rfl⟩)
    rw [← add_assoc] at htokens
    rw [Board.items_of_tokens htokens, Multiset.map_add, Multiset.map_singleton, add_assoc]
  | pop htokens =>
    refine .inl ⟨rfl, ?_⟩
    rw [Board.items_token, Board.items_of_tokens htokens, Multiset.map_singleton]
  | hold _ hheld htokens =>
    refine .inr (.inl ⟨_, _, 0, _, .inr hheld.keeps, by simp, ?_, Board.items_token, rfl⟩)
    rw [zero_add, Board.items_of_tokens htokens, Multiset.map_singleton]
  | invoke _ _ htokens =>
    refine .inl ⟨rfl, ?_⟩
    rw [Board.items_token, Board.items_of_tokens htokens, Multiset.map_singleton]
  | retried hretried htokens =>
    refine .inr (.inl ⟨_, _, 0, _, .inr hretried.keeps, by simp, ?_, Board.items_token, rfl⟩)
    rw [zero_add, Board.items_of_tokens htokens, Multiset.map_singleton]
  | dropped hheld _ _ htokens =>
    refine .inr (.inl ⟨_, _, 0, _, .inr hheld.keeps, by simp, ?_, Board.items_finished, rfl⟩)
    rw [zero_add, Board.items_of_tokens htokens, Multiset.map_singleton]
  | done _ _ htokens =>
    refine .inl ⟨rfl, ?_⟩
    rw [Board.items_finished, Board.items_of_tokens htokens, Multiset.map_singleton]
  | lose _ htokens =>
    refine .inl ⟨rfl, ?_⟩
    rw [Board.items_finished, Board.items_of_tokens htokens, Multiset.map_singleton]

/-! ## Every accepted item is in one place -/

def Board.Distinct (b : Board) : Prop := (b.accepted.map PushCall.key).Nodup

def Board.Conserved (b : Board) : Prop := b.items.map PackArgs.key = b.accepted.map PushCall.key

theorem Move.distinct (h : Move cfg lossless inTime b b') (hd : b'.Distinct) : b.Distinct := by
  unfold Board.Distinct at *
  rcases h.items with ⟨hacc, -⟩ | ⟨_, _, _, _, -, -, -, -, hacc⟩ | ⟨c, _, _, _, -, -, -, -, hacc⟩
  · rwa [hacc] at hd
  · rwa [hacc] at hd
  · rw [hacc, Multiset.map_add] at hd
    exact (Multiset.nodup_add.1 hd).2.1

theorem conserved_move (h : Move cfg lossless inTime b b') (hd : b'.Distinct) (hb : b.Conserved) : b'.Conserved := by
  -- distinct keys leave nothing to be absorbed
  have habsorbed {k : Key} {merged : Multiset PackArgs} (hkeys : ∀ m ∈ merged, m.key = k)
      (hk : k ∉ merged.map PackArgs.key) : merged = 0 :=
    Multiset.eq_zero_of_forall_notMem fun m hm => hk (hkeys m hm ▸ Multiset.mem_map_of_mem _ hm)
  unfold Board.Conserved Board.Distinct at *
  rcases h.items with ⟨hacc, hitems⟩ | ⟨a, a', merged, rest, hlater, hkeys, hitems, hitems', hacc⟩ |
    ⟨c, a, merged, rest, hfits, hkeys, hitems, hitems', hacc⟩
  · rwa [hacc, hitems]
  · rw [hitems, Multiset.map_add, Multiset.map_singleton, Multiset.map_add] at hb
    rw [hacc, ← hb, Multiset.singleton_add, Multiset.nodup_cons, Multiset.mem_add] at hd
    have hzero : merged = 0 := habsorbed hkeys fun hk => hd.1 (.inl hk)
    rw [hitems', hacc, ← hb, hzero, Multiset.map_add, Multiset.map_singleton, hlater.key, Multiset.map_zero, zero_add]
  · rw [hitems, Multiset.map_add] at hb
    rw [hacc, Multiset.map_add, Multiset.map_singleton, ← hb, Multiset.singleton_add, Multiset.nodup_cons,
      Multiset.mem_add] at hd
    have hzero : merged = 0 := habsorbed hkeys fun hk => hd.1 (.inl (hfits.key ▸ hk))
    rw [hitems', hacc, Multiset.map_add, Multiset.map_add, ← hb, hzero, Multiset.map_zero, zero_add,
      Multiset.map_singleton, Multiset.map_singleton, ← hfits.key]
    rfl

/-! ## Every item is finished for a reason -/

/-- `process` was invoked on the item, for the block after the one that the worker read. -/
def Invoked (events : List Event) (a : PackArgs) : Prop :=
  ∃ currentBlock info, .invoked a currentBlock info ∈ events ∧ a.minTargetBlock = currentBlock + 1

def Board.Running (b : Board) : Prop :=
  ∀ x ∈ b.tokens, x.phase = .processing → Invoked b.events x.args

theorem Invoked.mono {events events' : List Event} {a : PackArgs} (h : Invoked events a) (hsub : events ⊆ events') :
    Invoked events' a := by
  obtain ⟨currentBlock, info, hmem, hblock⟩ := h
  exact ⟨currentBlock, info, hsub hmem, hblock⟩

theorem Move.events (h : Move cfg lossless inTime b b') : b.events ⊆ b'.events := by
  cases h with
  | invoke | retried | done => exact List.subset_append_left ..
  | _ => exact List.Subset.refl _

theorem running_move (h : Move cfg lossless inTime b b') (hb : b.Running) : b'.Running := by
  rintro ⟨a, phase⟩ hx rfl
  -- only an invocation begins to process an item
  have hnew : ⟨a, .processing⟩ ∈ b.tokens ∨ Invoked b'.events a := by
    cases h with
    | invoke hblock _ htokens =>
      rcases Multiset.mem_add.1 hx with hx | hx
      · cases Multiset.mem_singleton.1 hx
        exact .inr ⟨_, _, List.mem_append_right _ (List.mem_singleton_self _), hblock⟩
      · exact .inl (by simp [htokens, hx])
    | _ => simp_all
  rcases hnew with hold | hnew
  · exact (hb _ hold rfl).mono h.events
  · exact hnew

/-- How an item has left the queue: `process` returned an error that is not
retried, the next block was past its last block when it was popped, it was out of
retries, or it was at its last block after `process` returned nil or
`ErrProcessScheduleNextBlock`. An item pushed with its first block after its last
is processed for the first one, so that case is one of a next block past the last. -/
def Explained (cfg : RedisQueueConfig) (events : List Event) (f : Finished) : Prop :=
  match f.outcome with
  | .processed r => .returned f.args r ∈ events ∧ (verdict r = .unrecoverable ∨ verdict r = .unknown)
  | .stale nextBlock => f.args.maxTargetBlock < nextBlock
  | .exhausted => cfg.maxRetries ≤ f.args.iteration
  | .noNextBlock r => .returned f.args r ∈ events ∧ (verdict r = .success ∨ verdict r = .nextBlock) ∧
      (f.args.minTargetBlock = f.args.maxTargetBlock ∨
        ∃ currentBlock info, .invoked f.args currentBlock info ∈ events ∧ f.args.maxTargetBlock < currentBlock + 1)
  | .lost => False

theorem Explained.mono {events events' : List Event} {f : Finished} (h : Explained cfg events f)
    (hsub : events ⊆ events') : Explained cfg events' f := by
  unfold Explained at *
  split
  · rename_i hf
    simp only [hf] at h
    exact ⟨hsub h.1, h.2⟩
  · rename_i hf
    simpa only [hf] using h
  · rename_i hf
    simpa only [hf] using h
  · rename_i hf
    simp only [hf] at h
    refine ⟨hsub h.1, h.2.1, h.2.2.imp id ?_⟩
    rintro ⟨currentBlock, info, hmem, hlt⟩
    exact ⟨currentBlock, info, hsub hmem, hlt⟩
  · rename_i hf
    simp only [hf] at h

/-- A reason that is a result of `process` is explained by the invocation that returned it. -/
theorem Justified.explained {events : List Event} {f : Finished} (h : Justified cfg f)
    (hresult : ∀ r, f.outcome.result = some r → .returned f.args r ∈ events ∧ Invoked events f.args) :
    Explained cfg events f := by
  cases hf : f.outcome with
  | stale nextBlock => simpa only [Explained, Justified, hf] using h
  | exhausted => simpa only [Explained, Justified, hf] using h
  | noNextBlock r =>
    simp only [Justified, hf] at h
    obtain ⟨hret, currentBlock, info, hmem, hblock⟩ := hresult r (by rw [hf]; rfl)
    simp only [Explained, hf]
    refine ⟨hret, h.1, ?_⟩
    by_cases heq : f.args.minTargetBlock = f.args.maxTargetBlock
    · exact .inl heq
    · exact .inr ⟨currentBlock, info, hmem, hblock ▸ UInt64.lt_of_le_of_ne h.2 (Ne.symm heq)⟩
  | processed r =>
    simp only [Justified, hf] at h
    simp only [Explained, hf]
    exact ⟨(hresult r (by rw [hf]; rfl)).1, h⟩
  | lost => simp only [Justified, hf] at h

theorem Move.finished (h : Move cfg lossless inTime b b') (hrun : b.Running) :
    b'.finished = b.finished ∨
      ∃ f, b'.finished = b.finished ++ [f] ∧ (lossless → Explained cfg b'.events f) := by
  have hsub := h.events
  cases h with
  | dropped _ hjust hnone _ => exact .inr ⟨_, rfl, fun _ => hjust.explained (by simp [hnone])⟩
  | @done a _ _ _ hjust hresult htokens =>
    have hmem : ⟨a, .processing⟩ ∈ b.tokens := by simp [htokens]
    refine .inr ⟨_, rfl, fun _ => hjust.explained fun r hr => ?_⟩
    exact ⟨by simp [hresult r hr], (hrun _ hmem rfl).mono hsub⟩
  | lose hloss _ => exact .inr ⟨_, rfl, fun hl => absurd hl hloss⟩
  | _ => exact .inl rfl

theorem explained_move (h : Move cfg lossless inTime b b') (hl : lossless) (hrun : b.Running)
    (hb : ∀ f ∈ b.finished, Explained cfg b.events f) : ∀ f ∈ b'.finished, Explained cfg b'.events f := by
  intro f hf
  rcases h.finished hrun with heq | ⟨f', heq, hexplained⟩
  · exact (hb f (heq ▸ hf)).mono h.events
  · rw [heq, List.mem_append, List.mem_singleton] at hf
    rcases hf with hf | rfl
    · exact (hb f hf).mono h.events
    · exact hexplained hl

/-! ## The queue -/

def WorkerPc.item : WorkerPc → Option PackArgs
  | .idle => none
  | .popped a => some a
  | .processing a => some a
  | .requeue a _ => some a

/-- In how many places an item is: entries of the sorted set, workers that hold it, and its end. -/
def State.copies (cfg : RedisQueueConfig) (s : State) (k : Key) : Nat :=
  s.redis.countP (fun e => (unpackData cfg.outOfRange e.1 e.2).map PackArgs.key = some k) +
    s.workers.countP (fun pc => pc.item.map PackArgs.key = some k) +
    s.finished.countP (fun f => f.args.key = k)

theorem copies_eq_count (s : State) (k : Key) :
    s.copies cfg k = ((s.board cfg).items.map PackArgs.key).count k := by
  have hentry (e : Nat × Bytes) : ((entryTokens cfg e).map fun x => x.args.key).count k =
      if decide ((unpackData cfg.outOfRange e.1 e.2).map PackArgs.key = some k) then 1 else 0 := by
    unfold entryTokens
    cases unpackData cfg.outOfRange e.1 e.2 with
    | none => simp
    | some a => simp [Multiset.count_singleton, eq_comm]
  have hworker (pc : WorkerPc) : (pc.tokens.map fun x => x.args.key).count k =
      if decide (pc.item.map PackArgs.key = some k) then 1 else 0 := by
    cases pc <;> simp [WorkerPc.tokens, WorkerPc.item, Multiset.count_singleton, eq_comm]
  have hfinished : (Multiset.map PackArgs.key (s.finished.map Finished.args : List PackArgs)).count k =
      s.finished.countP (fun f => f.args.key = k) := by
    simp [List.count_eq_countP, List.countP_map, Function.comp_def, beq_eq_decide]
  simp only [State.copies, Board.items, State.board, Multiset.map_add, Multiset.count_add, Multiset.map_map,
    Function.comp_def, count_map_sum hentry, count_map_sum hworker, hfinished]

theorem mem_accepted {s : State} {c : PushCall} :
    c ∈ (s.board cfg).accepted ↔ ∃ p ∈ s.pushes, p.pc = .returned none ∧ p.call = c := by
  have hone (p : Push) : c ∈ p.accepted ↔ p.pc = .returned none ∧ p.call = c := by
    unfold Push.accepted
    split <;> simp_all [eq_comm]
  simp only [State.board, mem_sum_map, hone]

theorem distinct_of_pushes {s : State} (h : (s.pushes.map (·.call.key)).Nodup) : (s.board cfg).Distinct := by
  have hone (p : Push) : p.accepted ≤ {p.call} := by
    unfold Push.accepted
    split <;> simp
  have hle (l : List Push) : (l.map Push.accepted).sum ≤ (l.map Push.call : List PushCall) := by
    induction l with
    | nil => simp
    | cons p l ih =>
      rw [List.map_cons, List.sum_cons, List.map_cons, ← Multiset.cons_coe, ← Multiset.singleton_add]
      exact add_le_add (hone p) ih
  refine Multiset.nodup_of_le (Multiset.map_le_map (hle s.pushes)) ?_
  simpa [Multiset.map_coe, List.map_map, Function.comp_def] using h

/-- As long as no requeue is given up, every accepted item is in one place with
what was pushed, nothing else is in the queue, and an item is finished only if
`process` said so, the next block was past its last, or it was out of retries or
out of blocks. -/
theorem accepted_in_one_place {block : UInt64} {nWorkers : Nat} {tr : List (State × Action)} {s : State}
    (hrun : Run (step cfg) (State.start block nWorkers) tr s) (hok : ∀ p ∈ tr, Retained cfg p.1 p.2)
    (hdistinct : (s.pushes.map (·.call.key)).Nodup) :
    (∀ p ∈ s.pushes, p.pc = .returned none → s.copies cfg p.call.key = 1) ∧
      (∀ k, s.copies cfg k ≠ 0 → ∃ p ∈ s.pushes, p.pc = .returned none ∧ p.call.key = k) ∧
      ∀ f ∈ s.finished, Explained cfg s.events f := by
  have hd : (s.board cfg).Distinct := distinct_of_pushes hdistinct
  have hconserved : (s.board cfg).Conserved :=
    board_inv (fun b => b.Distinct → b.Conserved) (fun _ => rfl)
      (fun _ _ _ _ _ hb hmove hd => conserved_move hmove hd (hb (hmove.distinct hd))) hrun hok hd
  have hexplained : ∀ f ∈ (s.board cfg).finished, Explained cfg (s.board cfg).events f :=
    (board_inv (fun b => b.Running ∧ ∀ f ∈ b.finished, Explained cfg b.events f) (by simp [Board.Running])
      (fun _ _ _ _ hl hb hmove => ⟨running_move hmove hb.1, explained_move hmove hl hb.1 hb.2⟩) hrun hok).2
  have hcopies (k : Key) : s.copies cfg k = ((s.board cfg).accepted.map PushCall.key).count k := by
    rw [copies_eq_count, hconserved]
  refine ⟨fun p hp hpc => ?_, fun k hk => ?_, hexplained⟩
  · rw [hcopies, Multiset.count_eq_one_of_mem hd]
    exact Multiset.mem_map_of_mem _ (mem_accepted.2 ⟨p, hp, hpc, rfl⟩)
  · rw [hcopies, Multiset.count_ne_zero, Multiset.mem_map] at hk
    obtain ⟨c, hc, rfl⟩ := hk
    obtain ⟨p, hp, hpc, rfl⟩ := mem_accepted.1 hc
    exact ⟨p, hp, hpc, rfl⟩

def smallConfig : RedisQueueConfig := ⟨2, 10, 10, 10, 10, 0⟩

def untilBlockOne (minTargetBlock : UInt64) : PushCall := ⟨[7], false, minTargetBlock, 1, 0⟩

/-- The first call of `Push`, up to its return. -/
def pushed (c : PushCall) : List Action := .push c :: List.replicate 6 (.pushStep 0 false)

def worked (result : ProcessResult) : Action := .worker 0 ⟨result, false, false⟩

theorem accepted_in_one_place_past_max :
    ∃ tr s, Run (step smallConfig) (State.start 0 1) tr s ∧ (∀ p ∈ tr, Retained smallConfig p.1 p.2) ∧
      (s.pushes.map (·.call.key)).Nodup ∧ s.copies smallConfig (untilBlockOne 2).key = 1 ∧
      ∃ f ∈ s.finished, f.outcome = .noNextBlock none ∧ Explained smallConfig s.events f := by
  have hfollows : ∃ s, Follows (step smallConfig) (Retained smallConfig) (State.start 0 1)
      (pushed (untilBlockOne 2) ++ [.update 1, .updateStep 0, .updateStep 0, worked none, worked none, worked none]) s ∧
      s.pushes = [⟨untilBlockOne 2, .returned none⟩] ∧
      s.finished = [⟨⟨[7], 2, 1, false, 0, 0⟩, .noNextBlock none⟩] :=
    ⟨_, ⟨trivial, _, rfl, trivial, _, rfl, trivial, _, rfl, trivial, _, rfl, trivial, _, rfl, trivial, _, rfl,
      trivial, _, rfl, trivial, _, rfl, trivial, _, rfl, trivial, _, rfl, (fun _ _ h => nomatch h), _, rfl,
      (fun _ _ h => nomatch h), _, rfl, (fun _ _ h => nomatch h), _, rfl, rfl⟩, rfl, rfl⟩
  obtain ⟨s, hfollows, hpushes, hfinished⟩ := hfollows
  obtain ⟨tr, hrun, hok⟩ := hfollows.run
  have hdistinct : (s.pushes.map (·.call.key)).Nodup := by simp [hpushes]
  obtain ⟨hone, -, hexplained⟩ := accepted_in_one_place hrun hok hdistinct
  exact ⟨tr, s, hrun, hok, hdistinct, hone ⟨untilBlockOne 2, .returned none⟩ (by simp [hpushes]) rfl,
    _, by simp [hfinished], rfl, hexplained ⟨⟨[7], 2, 1, false, 0, 0⟩, .noNextBlock none⟩ (by simp [hfinished])⟩

end MevShare.Queue
