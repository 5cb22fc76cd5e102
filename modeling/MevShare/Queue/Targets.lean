import MevShare.Queue.Conservation
/-!
# The blocks for which an item is processed

An item stays between the blocks it was pushed with, and the record of its
invocations is a `Story`: one invocation after the other, each for a block that
the earlier ones allow.
-/
open Lib

namespace MevShare.Queue

variable {cfg : RedisQueueConfig} {lossless inTime : Prop} {b b' : Board}

/-! ## The blocks of an item -/

/-- The blocks of the call are in order and small enough to be scores as they are. -/
structure PushCall.Exact (c : PushCall) : Prop where
  le : c.minTargetBlock ≤ c.maxTargetBlock
  small : c.maxTargetBlock.toNat ≤ 2 ^ 53

/-- The item comes from one of the calls and is in the range of blocks of that call. -/
def Pushed (accepted : Multiset PushCall) (a : PackArgs) : Prop :=
  ∃ c ∈ accepted, c.key = a.key ∧
    (c.Exact → c.minTargetBlock ≤ a.minTargetBlock ∧ a.minTargetBlock ≤ a.maxTargetBlock)

theorem PackArgs.stored_eq {outOfRange : UInt64} {a : PackArgs} (h : a.minTargetBlock.toNat ≤ 2 ^ 53) :
    a.stored outOfRange = a := by
  have hscore : uint64OfScore outOfRange (score a.minTargetBlock) = a.minTargetBlock := by
    rw [score, toDouble_of_le h, uint64OfScore, if_pos a.minTargetBlock.toNat_lt, UInt64.ofNat_toNat]
  simp only [PackArgs.stored, hscore]

theorem PushCall.Exact.block_small {c : PushCall} {a : PackArgs} (hc : c.Exact) (hkey : c.key = a.key)
    (hle : a.minTargetBlock ≤ a.maxTargetBlock) : a.minTargetBlock.toNat ≤ 2 ^ 53 := by
  have hmax : c.maxTargetBlock = a.maxTargetBlock := congrArg Key.maxTargetBlock hkey
  exact le_trans (UInt64.le_iff_toNat_le.1 hle) (hmax ▸ hc.small)

theorem Pushed.later {accepted : Multiset PushCall} {outOfRange : UInt64} {a a' : PackArgs}
    (h : Pushed accepted a) (hlater : Later outOfRange a a') : Pushed accepted a' := by
  obtain ⟨c, hc, hkey, hblocks⟩ := h
  refine ⟨c, hc, hkey.trans hlater.key.symm, fun hexact => ?_⟩
  obtain ⟨hmin, hmax⟩ := hblocks hexact
  rcases hlater with rfl | ⟨-, hup, hle⟩
  · rw [PackArgs.stored_eq (hexact.block_small hkey hmax)]
    exact ⟨hmin, hmax⟩
  · exact ⟨UInt64.le_trans hmin hup, hle hmax⟩

theorem Pushed.mono {accepted : Multiset PushCall} {a : PackArgs} (c : PushCall) (h : Pushed accepted a) :
    Pushed ({c} + accepted) a := by
  obtain ⟨c', hc', h⟩ := h
  exact ⟨c', Multiset.mem_add.2 (.inr hc'), h⟩

theorem Fits.pushed {c : PushCall} {a : PackArgs} (h : Fits c a) (accepted : Multiset PushCall) :
    Pushed ({c} + accepted) a :=
  ⟨c, by simp, h.key.symm, fun hexact => ⟨h.min, h.max hexact.le⟩⟩

theorem pushed_move (h : Move cfg lossless inTime b b') (hb : ∀ a ∈ b.items, Pushed b.accepted a) :
    ∀ a ∈ b'.items, Pushed b'.accepted a := by
  rcases h.items with ⟨hacc, hitems⟩ | ⟨a, a', merged, rest, hlater, -, hitems, hitems', hacc⟩ |
    ⟨c, a, merged, rest, hfits, -, hitems, hitems', hacc⟩
  · rwa [hacc, hitems]
  · intro x hx
    rw [hitems', Multiset.mem_add, Multiset.mem_singleton] at hx
    rw [hacc]
    rcases hx with rfl | hx
    · exact (hb a (by simp [hitems])).later hlater
    · exact hb x (by simp [hitems, hx])
  · intro x hx
    rw [hitems', Multiset.mem_add, Multiset.mem_singleton] at hx
    rw [hacc]
    rcases hx with rfl | hx
    · exact (hfits.pushed _).later (.inl rfl)
    · exact (hb x (by simp [hitems, hx])).mono c

/-! ## The story of an item -/

def Event.args : Event → PackArgs
  | .invoked a _ _ => a
  | .returned a _ => a

/-- The events of one item, in order. -/
def itemEvents (events : List Event) (k : Key) : List Event := events.filter (·.args.key = k)

/-- `process` is done with the block: it returned nil or `ErrProcessScheduleNextBlock`. -/
def DoneWithBlock (r : ProcessResult) : Prop := verdict r = .success ∨ verdict r = .nextBlock

/-- After the event, the item may be processed for the block. -/
def Event.Allows (block : UInt64) : Event → Prop
  | .invoked a _ _ => a.minTargetBlock ≤ block
  | .returned a r => DoneWithBlock r → a.minTargetBlock < block

/-- What happens to an item, and with what `process` is running. -/
inductive Story : List Event → Option PackArgs → Prop
  | nil : Story [] none
  | invoked {events a currentBlock retries} : Story events none → (∀ e ∈ events, e.Allows a.minTargetBlock) →
      a.minTargetBlock = currentBlock + 1 →
      Story (events ++ [.invoked a currentBlock ⟨retries, a.minTargetBlock⟩]) (some a)
  | returned {events a r} : Story events (some a) → Story (events ++ [.returned a r]) none

theorem Event.Allows.mono {e : Event} {block block' : UInt64} (h : e.Allows block) (hle : block ≤ block') :
    e.Allows block' := by
  cases e with
  | invoked a _ _ => exact UInt64.le_trans h hle
  | returned a r => exact fun hr => UInt64.lt_of_lt_of_le (h hr) hle

theorem Story.target {events : List Event} {current : Option PackArgs} (h : Story events current) :
    ∀ a currentBlock info, .invoked a currentBlock info ∈ events →
      info.targetBlock = a.minTargetBlock ∧ a.minTargetBlock = currentBlock + 1 := by
  induction h with
  | nil => simp
  | invoked _ _ hblock ih =>
    intro a currentBlock info hmem
    rcases List.mem_append.1 hmem with hmem | hmem
    · exact ih a currentBlock info hmem
    · cases List.mem_singleton.1 hmem
      exact ⟨rfl, hblock⟩
  | returned _ ih =>
    intro a currentBlock info hmem
    rcases List.mem_append.1 hmem with hmem | hmem
    · exact ih a currentBlock info hmem
    · cases List.mem_singleton.1 hmem

/-- An invocation is followed by its return, unless `process` is still running. -/
theorem Story.answered {events : List Event} {current : Option PackArgs} (h : Story events current) :
    ∀ before a currentBlock info after, events = before ++ .invoked a currentBlock info :: after →
      (after = [] ∧ current = some a) ∨ ∃ r later, after = .returned a r :: later := by
  induction h with
  | nil => simp
  | invoked _ _ _ ih =>
    intro before a currentBlock info after heq
    rcases snoc_eq_append_cons heq with ⟨-, hlast, rfl⟩ | ⟨after', rfl, heq'⟩
    · cases hlast
      exact .inl ⟨rfl, rfl⟩
    · rcases ih _ _ _ _ _ heq' with ⟨-, hcurrent⟩ | ⟨r, later, rfl⟩
      · cases hcurrent
      · exact .inr ⟨r, _, rfl⟩
  | returned _ ih =>
    intro before a currentBlock info after heq
    rcases snoc_eq_append_cons heq with ⟨-, hlast, -⟩ | ⟨after', rfl, heq'⟩
    · cases hlast
    · rcases ih _ _ _ _ _ heq' with ⟨rfl, hcurrent⟩ | ⟨r, later, rfl⟩
      · cases hcurrent
        exact .inr ⟨_, [], rfl⟩
      · exact .inr ⟨r, _, rfl⟩

/-- A later invocation is for the same block or a later one, and for a later one
if the earlier invocation was done with its block. -/
theorem Story.order {events : List Event} {current : Option PackArgs} (h : Story events current) :
    ∀ before a currentBlock info after, events = before ++ .invoked a currentBlock info :: after →
      ∀ a' currentBlock' info', .invoked a' currentBlock' info' ∈ after →
        a.minTargetBlock ≤ a'.minTargetBlock ∧ ∃ r later, after = .returned a r :: later ∧
          (DoneWithBlock r → a.minTargetBlock < a'.minTargetBlock) := by
  induction h with
  | nil => simp
  | invoked hstory hallows _ ih =>
    intro before a currentBlock info after heq a' currentBlock' info' hmem
    rcases snoc_eq_append_cons heq with ⟨-, -, rfl⟩ | ⟨after', rfl, heq'⟩
    · simp at hmem
    · rcases List.mem_append.1 hmem with hmem | hmem
      · obtain ⟨hle, r, later, rfl, hlt⟩ := ih _ _ _ _ _ heq' _ _ _ hmem
        exact ⟨hle, r, _, rfl, hlt⟩
      · -- the new invocation: the earlier one was answered, since only one is open at a time
        cases List.mem_singleton.1 hmem
        rcases hstory.answered _ _ _ _ _ heq' with ⟨-, hcurrent⟩ | ⟨r, later, rfl⟩
        · cases hcurrent
        · exact ⟨hallows (.invoked a currentBlock info) (by simp [heq']), r, _, rfl,
            hallows (.returned a r) (by simp [heq'])⟩
  | returned _ ih =>
    intro before a currentBlock info after heq a' currentBlock' info' hmem
    rcases snoc_eq_append_cons heq with ⟨-, hlast, -⟩ | ⟨after', rfl, heq'⟩
    · cases hlast
    · rcases List.mem_append.1 hmem with hmem | hmem
      · obtain ⟨hle, r, later, rfl, hlt⟩ := ih _ _ _ _ _ heq' _ _ _ hmem
        exact ⟨hle, r, _, rfl, hlt⟩
      · cases List.mem_singleton.1 hmem

/-! ## The moves tell stories -/

theorem Retried.next {r : ProcessResult} {a a' : PackArgs} (h : Retried cfg r a a') :
    Event.Allows a'.minTargetBlock (.returned a r) := by
  obtain ⟨-, h⟩ := h
  rintro (hr | hr) <;> simp only [hr] at h <;> obtain ⟨hlt, rfl⟩ := h <;> simp only [PackArgs.bump] <;> grind

/-- The calls have different items, with blocks that are scores as they are. -/
structure Board.Fair (b : Board) : Prop where
  distinct : b.Distinct
  exact : ∀ c ∈ b.accepted, c.Exact

/-- The story of the item so far, and what it allows. -/
structure Token.Tells (events : List Event) (x : Token) : Prop where
  story : Story (itemEvents events x.args.key) (if x.phase = .processing then some x.args else none)
  allows : ∀ e ∈ itemEvents events x.args.key, e.Allows x.args.minTargetBlock

structure Board.Told (b : Board) : Prop where
  story : ∀ k, ∃ current, Story (itemEvents b.events k) current
  token : ∀ x ∈ b.tokens, x.Tells b.events

theorem Token.Tells.later {events : List Event} {x y : Token} (h : x.Tells events) (hkey : y.args.key = x.args.key)
    (hle : x.args.minTargetBlock ≤ y.args.minTargetBlock) (hx : x.phase ≠ .processing) (hy : y.phase ≠ .processing) :
    y.Tells events := by
  have hstory := h.story
  rw [if_neg hx] at hstory
  refine ⟨?_, fun e he => ?_⟩
  · rw [hkey, if_neg hy]
    exact hstory
  · rw [hkey] at he
    exact (h.allows e he).mono hle

theorem itemEvents_append_self (events : List Event) (e : Event) :
    itemEvents (events ++ [e]) e.args.key = itemEvents events e.args.key ++ [e] := by
  simp [itemEvents]

theorem itemEvents_append_of_ne {events : List Event} {e : Event} {k : Key} (h : e.args.key ≠ k) :
    itemEvents (events ++ [e]) k = itemEvents events k := by
  simp [itemEvents, h]

theorem Token.Tells.append {events : List Event} {x : Token} {e : Event} (hkey : e.args.key = x.args.key)
    (hstory : Story (itemEvents events e.args.key ++ [e]) (if x.phase = .processing then some x.args else none))
    (hallows : ∀ e ∈ itemEvents events x.args.key, e.Allows x.args.minTargetBlock)
    (hnew : e.Allows x.args.minTargetBlock) : x.Tells (events ++ [e]) := by
  refine ⟨?_, fun e' he' => ?_⟩
  · rwa [← hkey, itemEvents_append_self]
  · rw [← hkey, itemEvents_append_self, List.mem_append, List.mem_singleton] at he'
    rcases he' with he' | rfl
    · exact hallows e' (hkey ▸ he')
    · exact hnew

/-- An event of one item leaves the stories of the others as they are. -/
theorem Board.Told.append {e : Event} {current : Option PackArgs} {rest : Multiset Token} (hb : b.Told)
    (hstory : Story (itemEvents b.events e.args.key ++ [e]) current)
    (hrest : ∀ y ∈ rest, y ∈ b.tokens ∧ y.args.key ≠ e.args.key) :
    (∀ k, ∃ current, Story (itemEvents (b.events ++ [e]) k) current) ∧ ∀ y ∈ rest, y.Tells (b.events ++ [e]) := by
  refine ⟨fun k => ?_, fun y hy => ?_⟩
  · by_cases hk : e.args.key = k
    · subst hk
      exact ⟨current, itemEvents_append_self .. ▸ hstory⟩
    · rw [itemEvents_append_of_ne hk]
      exact hb.story k
  · obtain ⟨hmem, hne⟩ := hrest y hy
    obtain ⟨hs, ha⟩ := hb.token y hmem
    exact ⟨by rwa [itemEvents_append_of_ne (Ne.symm hne)], by rwa [itemEvents_append_of_ne (Ne.symm hne)]⟩

theorem Board.Conserved.others {x : Token} {rest : Multiset Token} (hc : b.Conserved) (hd : b.Distinct)
    (htokens : b.tokens = {x} + rest) : ∀ y ∈ rest, y ∈ b.tokens ∧ y.args.key ≠ x.args.key := by
  unfold Board.Conserved Board.items Board.Distinct at *
  rw [← hc, htokens, Multiset.map_add, Multiset.map_add, Multiset.map_add, Multiset.map_singleton,
    Multiset.map_singleton, add_assoc, Multiset.singleton_add, Multiset.nodup_cons, Multiset.mem_add] at hd
  refine fun y hy => ⟨by simp [htokens, hy], fun hkey => hd.1 (.inl ?_)⟩
  rw [← hkey]
  exact Multiset.mem_map_of_mem _ (Multiset.mem_map_of_mem _ hy)

/-- The items in the queue and in the record are pushed ones. -/
structure Board.Tracked (b : Board) : Prop where
  items : ∀ a ∈ b.items, Pushed b.accepted a
  events : ∀ e ∈ b.events, Pushed b.accepted e.args

theorem Board.Tracked.token {x : Token} (h : b.Tracked) (hx : x ∈ b.tokens) : Pushed b.accepted x.args :=
  h.items _ (Multiset.mem_add.2 (.inl (Multiset.mem_map_of_mem _ hx)))

theorem tracked_move (h : Move cfg lossless inTime b b') (hb : b.Tracked) : b'.Tracked := by
  have hnew {x : Token} {rest : Multiset Token} {e : Event} (htokens : b.tokens = {x} + rest)
      (he : e.args = x.args) : ∀ e' ∈ b.events ++ [e], Pushed b.accepted e'.args := by
    intro e' he'
    rcases List.mem_append.1 he' with he' | he'
    · exact hb.events e' he'
    · rw [List.mem_singleton.1 he', he]
      exact hb.token (by simp [htokens])
  refine ⟨pushed_move h hb.items, ?_⟩
  cases h with
  | accept => exact fun e he => (hb.events e he).mono _
  | invoke _ _ htokens => exact hnew htokens rfl
  | retried _ htokens => exact hnew htokens rfl
  | done _ _ htokens => exact hnew htokens rfl
  | _ => exact hb.events

/-- A call of `Push` that has passed its first check: it has a last block after some current one. -/
def Push.Fresh (p : Push) : Prop :=
  p.pc = .enter ∨ (∃ e, p.pc = .returned (some e)) ∨ p.call.maxTargetBlock ≠ 0

theorem fresh_turn {s s' : State} {fails : Bool} {p : Push} {pc : PushPc} (hp : p.Fresh)
    (h : pushTurn cfg s fails p = some (pc, s')) : Push.Fresh { p with pc } := by
  unfold pushTurn at h
  split at h
  · split at h
    · rename_i e _
      cases h
      exact .inr (.inl ⟨e, rfl⟩)
    · rename_i args hargs
      cases h
      refine .inr (.inr fun hzero => ?_)
      simp only at hzero
      rw [pushArgs, if_pos (by simp [hzero])] at hargs
      cases hargs
  · rename_i hpc
    rcases hp with henter | ⟨e, herr⟩ | hne
    · rw [hpc] at henter
      cases henter
    · rw [hpc] at herr
      cases herr
    · exact .inr (.inr hne)
  · cases h

theorem accepted_fresh {block : UInt64} {nWorkers : Nat} {tr : List (State × Action)} {s : State}
    (hrun : Run (step cfg) (State.start block nWorkers) tr s) :
    ∀ p ∈ s.pushes, p.pc = .returned none → p.call.maxTargetBlock ≠ 0 := by
  have hfresh : ∀ p ∈ s.pushes, p.Fresh := by
    refine @Run.inv _ _ _ _ (fun _ _ => True) (fun s : State => ∀ p ∈ s.pushes, p.Fresh) (by simp [State.start]) ?_
      _ _ hrun fun _ _ => trivial
    intro s a s' hs _ hstep
    exact step_pushes (fun _ => .inl rfl) (fun _ _ _ _ _ hp hturn => fresh_turn hp hturn) hs hstep
  intro p hp hpc
  rcases hfresh p hp with henter | ⟨e, herr⟩ | hne
  · rw [hpc] at henter
    cases henter
  · rw [hpc] at herr
    cases herr
  · exact hne

/-- Every invocation says the block that the item is at. -/
def Board.Aimed (b : Board) : Prop :=
  ∀ a currentBlock info, .invoked a currentBlock info ∈ b.events → info.targetBlock = a.minTargetBlock

theorem aimed_move (h : Move cfg lossless inTime b b') (hb : b.Aimed) : b'.Aimed := by
  have hreturned {a : PackArgs} {r : ProcessResult} : ∀ a' currentBlock info,
      .invoked a' currentBlock info ∈ b.events ++ [.returned a r] → info.targetBlock = a'.minTargetBlock := by
    intro a' currentBlock info hmem
    rcases List.mem_append.1 hmem with hmem | hmem
    · exact hb a' currentBlock info hmem
    · cases List.mem_singleton.1 hmem
  cases h with
  | invoke =>
    intro a' currentBlock' info hmem
    rcases List.mem_append.1 hmem with hmem | hmem
    · exact hb a' currentBlock' info hmem
    · cases List.mem_singleton.1 hmem
      rfl
  | retried => exact hreturned
  | done => exact hreturned
  | _ => exact hb

theorem invoked_pushed {block : UInt64} {nWorkers : Nat} {tr : List (State × Action)} {s : State}
    (hrun : Run (step cfg) (State.start block nWorkers) tr s) {a : PackArgs} {currentBlock : UInt64}
    {info : QueueItemInfo} (h : .invoked a currentBlock info ∈ s.events) :
    info.targetBlock = a.minTargetBlock ∧ Pushed (s.board cfg).accepted a := by
  obtain ⟨htracked, haimed⟩ : (s.board cfg).Tracked ∧ (s.board cfg).Aimed := by
    refine @board_inv _ _ (fun _ _ => True) (fun b => b.Tracked ∧ b.Aimed) ?_ ?_ _ _ _ hrun fun _ _ => trivial
    · exact ⟨⟨by simp [Board.items], by simp⟩, fun _ _ _ hmem => nomatch hmem⟩
    · intro _ _ b b' _ hb hmove
      exact ⟨tracked_move hmove hb.1, aimed_move hmove hb.2⟩
  exact ⟨haimed a currentBlock info h, htracked.events _ h⟩

theorem Move.fair (h : Move cfg lossless inTime b b') (hfair : b'.Fair) : b.Fair := by
  refine ⟨h.distinct hfair.distinct, fun c hc => hfair.exact c ?_⟩
  cases h with
  | accept => exact Multiset.mem_add.2 (.inr hc)
  | _ => exact hc

theorem told_move (h : Move cfg lossless inTime b b') (hfair : b'.Fair) (htracked : b.Tracked) (hc : b.Conserved)
    (hb : b.Told) : b'.Told := by
  have hd := h.distinct hfair.distinct
  have hbfair := h.fair hfair
  -- a move that appends no event and changes one token
  have hquiet {x : Token} {rest : Multiset Token} (hx : x.Tells b.events) (hrest : ∀ y ∈ rest, y ∈ b.tokens) :
      ∀ y ∈ ({x} : Multiset Token) + rest, y.Tells b.events := by
    intro y hy
    rcases Multiset.mem_add.1 hy with hy | hy
    · rw [Multiset.mem_singleton.1 hy]
      exact hx
    · exact hb.token y (hrest y hy)
  cases h with
  | stutter => exact hb
  | @accept c a merged rest hfits _ htokens =>
    -- nothing has happened to the item yet, for an earlier event would mean an earlier call with this key
    have hnone : itemEvents b.events a.key = [] := by
      refine List.filter_eq_nil_iff.2 fun e he hkey => ?_
      obtain ⟨c', hc', hckey, -⟩ := htracked.events e he
      have hnodup := hfair.distinct
      simp only [Board.Distinct, Multiset.singleton_add, Multiset.map_cons, Multiset.nodup_cons] at hnodup
      refine hnodup.1 (Multiset.mem_map.2 ⟨c', hc', ?_⟩)
      rw [hckey, of_decide_eq_true hkey, hfits.key]
    refine ⟨hb.story, hquiet ⟨?_, ?_⟩ fun y hy => by simp [htokens, hy]⟩
    · exact hnone ▸ .nil
    · exact fun e he => by simp [show itemEvents b.events (a.stored cfg.outOfRange).key = [] from hnone] at he
  | @requeued a merged rest _ htokens =>
    have hmem : ⟨a, .requeue⟩ ∈ b.tokens := by simp [htokens]
    obtain ⟨c, hc, hkey, hblocks⟩ := htracked.token hmem
    have hexact := hbfair.exact c hc
    have hstored : a.stored cfg.outOfRange = a :=
      PackArgs.stored_eq (hexact.block_small hkey (hblocks hexact).2)
    refine ⟨hb.story, hquiet ?_ fun y hy => by simp [htokens, hy]⟩
    rw [hstored]
    exact (hb.token _ hmem).later rfl (UInt64.le_refl _) (by simp) (by simp)
  | @pop a rest htokens =>
    have hmem : ⟨a, .queued⟩ ∈ b.tokens := by simp [htokens]
    exact ⟨hb.story, hquiet ((hb.token _ hmem).later rfl (UInt64.le_refl _) (by simp) (by simp))
      fun y hy => by simp [htokens, hy]⟩
  | @hold a a' rest _ hheld htokens =>
    have hmem : ⟨a, .popped⟩ ∈ b.tokens := by simp [htokens]
    exact ⟨hb.story, hquiet ((hb.token _ hmem).later hheld.keeps.1 hheld.keeps.2.1 (by simp) (by simp))
      fun y hy => by simp [htokens, hy]⟩
  | @invoke a currentBlock rest hblock _ htokens =>
    obtain ⟨hs, ha⟩ := hb.token ⟨a, .popped⟩ (by simp [htokens])
    have hstory : Story (itemEvents b.events a.key ++ [.invoked a currentBlock ⟨a.iteration.toNat, a.minTargetBlock⟩])
        (some a) := .invoked hs ha hblock
    obtain ⟨hstories, hrest⟩ := @Board.Told.append _ (.invoked ..) _ _ hb hstory (hc.others hd htokens)
    refine ⟨hstories, fun y hy => ?_⟩
    rcases Multiset.mem_add.1 hy with hy | hy
    · rw [Multiset.mem_singleton.1 hy]
      exact .append rfl hstory ha (UInt64.le_refl _)
    · exact hrest y hy
  | @retried a a' r rest hretried htokens =>
    obtain ⟨hs, ha⟩ := hb.token ⟨a, .processing⟩ (by simp [htokens])
    obtain ⟨hkey, hle, -⟩ := hretried.keeps
    have hstory : Story (itemEvents b.events (Event.returned a r).args.key ++ [.returned a r]) none := .returned hs
    obtain ⟨hstories, hrest⟩ := hb.append hstory (hc.others hd htokens)
    refine ⟨hstories, fun y hy => ?_⟩
    rcases Multiset.mem_add.1 hy with hy | hy
    · rw [Multiset.mem_singleton.1 hy]
      exact .append hkey.symm hstory (fun e he => (ha e (hkey ▸ he)).mono hle) hretried.next
    · exact hrest y hy
  | dropped _ _ _ htokens => exact ⟨hb.story, fun y hy => hb.token y (by simp [htokens, hy])⟩
  | @done a r outcome rest _ _ htokens =>
    have hstory : Story (itemEvents b.events (Event.returned a r).args.key ++ [.returned a r]) none :=
      .returned (hb.token ⟨a, .processing⟩ (by simp [htokens])).story
    obtain ⟨hstories, hrest⟩ := hb.append hstory (hc.others hd htokens)
    exact ⟨hstories, hrest⟩
  | lose _ htokens => exact ⟨hb.story, fun y hy => hb.token y (by simp [htokens, hy])⟩

/-- Every invocation is for the block after the current one that the worker read,
between the blocks of the call of `Push`. The invocations on one item come one
after the other, for no earlier block, and for a later one after `process`
returned nil or `ErrProcessScheduleNextBlock`. -/
theorem targets_in_order {block : UInt64} {nWorkers : Nat} {tr : List (State × Action)} {s : State}
    (hrun : Run (step cfg) (State.start block nWorkers) tr s) (hdistinct : (s.pushes.map (·.call.key)).Nodup)
    (hblocks : ∀ p ∈ s.pushes, p.call.minTargetBlock ≤ p.call.maxTargetBlock ∧ p.call.maxTargetBlock.toNat < 2 ^ 53)
    (k : Key) :
    (∀ a currentBlock info, .invoked a currentBlock info ∈ itemEvents s.events k →
      info.targetBlock = currentBlock + 1 ∧ ∃ p ∈ s.pushes, p.pc = .returned none ∧ p.call.key = k ∧
        p.call.minTargetBlock ≤ info.targetBlock ∧ info.targetBlock ≤ p.call.maxTargetBlock) ∧
      ∀ before a currentBlock info after, itemEvents s.events k = before ++ .invoked a currentBlock info :: after →
        ∀ a' currentBlock' info', .invoked a' currentBlock' info' ∈ after →
          info.targetBlock ≤ info'.targetBlock ∧ ∃ r later, after = .returned a r :: later ∧
            (verdict r = .success ∨ verdict r = .nextBlock → info.targetBlock < info'.targetBlock) := by
  have hfair : (s.board cfg).Fair := by
    refine ⟨distinct_of_pushes hdistinct, fun c hc => ?_⟩
    obtain ⟨p, hp, -, rfl⟩ := mem_accepted.1 hc
    exact ⟨(hblocks p hp).1, Nat.le_of_lt (hblocks p hp).2⟩
  obtain ⟨htracked, htold⟩ : (s.board cfg).Tracked ∧ ((s.board cfg).Fair → (s.board cfg).Conserved ∧ (s.board cfg).Told) := by
    refine @board_inv _ _ (fun _ _ => True) (fun b => b.Tracked ∧ (b.Fair → b.Conserved ∧ b.Told)) ?_ ?_ _ _ _ hrun
      fun _ _ => trivial
    · exact ⟨⟨by simp [Board.items], by simp⟩, fun _ => ⟨rfl, ⟨fun _ => ⟨none, .nil⟩, by simp⟩⟩⟩
    · intro _ _ b b' _ hb hmove
      refine ⟨tracked_move hmove hb.1, fun hfair => ?_⟩
      obtain ⟨hc, ht⟩ := hb.2 (hmove.fair hfair)
      exact ⟨conserved_move hmove hfair.distinct hc, told_move hmove hfair hb.1 hc ht⟩
  obtain ⟨current, hstory⟩ := (htold hfair).2.story k
  refine ⟨fun a currentBlock info hmem => ?_, fun before a currentBlock info after heq a' currentBlock' info' hmem => ?_⟩
  · obtain ⟨htarget, hblock⟩ := hstory.target _ _ _ hmem
    obtain ⟨hevent, hkey⟩ := List.mem_filter.1 hmem
    obtain ⟨c, hc, hckey, hrange⟩ := htracked.events _ hevent
    obtain ⟨p, hp, hpc, rfl⟩ := mem_accepted.1 hc
    obtain ⟨hmin, hmax⟩ := hrange (hfair.exact _ hc)
    have hmaxkey : p.call.maxTargetBlock = a.maxTargetBlock := congrArg Key.maxTargetBlock hckey
    exact ⟨htarget.trans hblock, p, hp, hpc, hckey.trans (of_decide_eq_true hkey), htarget ▸ hmin,
      htarget ▸ hmaxkey ▸ hmax⟩
  · have hfirst : .invoked a currentBlock info ∈ itemEvents s.events k := by simp [heq]
    have hsecond : .invoked a' currentBlock' info' ∈ itemEvents s.events k := by simp [heq, hmem]
    rw [(hstory.target _ _ _ hfirst).1, (hstory.target _ _ _ hsecond).1]
    exact hstory.order _ _ _ _ _ heq _ _ _ hmem

def untilBlockTwo : PushCall := ⟨[7], false, 1, 2, 0⟩

theorem targets_in_order_two_blocks :
    ∃ tr s a info a' info', Run (step smallConfig) (State.start 0 1) tr s ∧ (s.pushes.map (·.call.key)).Nodup ∧
      (∀ p ∈ s.pushes, p.call.minTargetBlock ≤ p.call.maxTargetBlock ∧ p.call.maxTargetBlock.toNat < 2 ^ 53) ∧
      itemEvents s.events untilBlockTwo.key = [.invoked a 0 info, .returned a none, .invoked a' 1 info'] ∧
      info.targetBlock < info'.targetBlock := by
  have hexec : ∃ s a info a' info', List.foldlM (step smallConfig) (State.start 0 1)
        (pushed untilBlockTwo ++ List.replicate 8 (worked none) ++ [.update 1, .updateStep 0, .updateStep 0] ++
          List.replicate 2 (worked none)) = some s ∧ s.pushes = [⟨untilBlockTwo, .returned none⟩] ∧
      itemEvents s.events untilBlockTwo.key = [.invoked a 0 info, .returned a none, .invoked a' 1 info'] :=
    ⟨_, _, _, _, _, rfl, rfl, rfl⟩
  obtain ⟨s, a, info, a', info', hexec, hpushes, hevents⟩ := hexec
  obtain ⟨tr, hrun, -⟩ := run_of_foldlM hexec
  have hdistinct : (s.pushes.map (·.call.key)).Nodup := by simp [hpushes]
  have hblocks : ∀ p ∈ s.pushes,
      p.call.minTargetBlock ≤ p.call.maxTargetBlock ∧ p.call.maxTargetBlock.toNat < 2 ^ 53 := by
    rw [hpushes]
    decide
  obtain ⟨-, r, later, hafter, hlt⟩ :=
    (targets_in_order hrun hdistinct hblocks untilBlockTwo.key).2 [] a 0 info _ hevents a' 1 info' (by simp)
  cases hafter
  exact ⟨tr, s, a, info, a', info', hrun, hdistinct, hblocks, hevents, hlt (.inl rfl)⟩

end MevShare.Queue
