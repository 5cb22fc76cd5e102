import MevShare.Queue.Targets
/-!
# Concluded blocks

A call of `process` concludes the block of its item unless the item is to be
tried again for the same block. The item then goes on to a later block or is
dropped, so no block of an item is concluded twice, whatever the interleaving of
the workers (`concluded_once`).
-/
open Lib

namespace MevShare.Queue

/-- The item is not tried again for the block it was processed for. -/
def Concludes (r : ProcessResult) : Prop := verdict r ≠ .retry ∧ verdict r ≠ .lagging

instance (r : ProcessResult) : Decidable (Concludes r) := inferInstanceAs (Decidable (_ ∧ _))

/-- The item and the block that the event concludes. -/
def Event.concluded? : Event → Option (Key × UInt64)
  | .invoked _ _ _ => none
  | .returned a r => if Concludes r then some (a.key, a.minTargetBlock) else none

/-- The items and blocks that were concluded, in order. -/
def conclusions (events : List Event) : List (Key × UInt64) := events.filterMap Event.concluded?

variable {cfg : RedisQueueConfig} {lossless inTime : Prop} {b b' : Board}

theorem conclusions_append (events : List Event) (e : Event) :
    conclusions (events ++ [e]) = conclusions events ++ e.concluded?.toList := by
  rw [conclusions, conclusions, List.filterMap_append]
  cases h : e.concluded? <;> simp [h]

theorem mem_concluded {a : PackArgs} {r : ProcessResult} {p : Key × UInt64} :
    p ∈ (Event.returned a r).concluded?.toList ↔ Concludes r ∧ p = (a.key, a.minTargetBlock) := by
  by_cases hr : Concludes r <;> simp [Event.concluded?, hr]

/-- What is still in the queue is at a later block than the ones that were concluded for it. -/
structure Board.Concluded (b : Board) : Prop where
  nodup : (conclusions b.events).Nodup
  later : ∀ x ∈ b.tokens, ∀ block, (x.args.key, block) ∈ conclusions b.events → block < x.args.minTargetBlock

/-- A move without an event, after which each token is a later form of one there was. -/
theorem Board.Concluded.quiet {tokens : Multiset Token} {accepted : Multiset PushCall} {finished : List Finished}
    (hb : b.Concluded)
    (htokens : ∀ y ∈ tokens, ∃ x ∈ b.tokens, y.args.key = x.args.key ∧ x.args.minTargetBlock ≤ y.args.minTargetBlock) :
    Board.Concluded ⟨tokens, accepted, b.events, finished⟩ := by
  refine ⟨hb.nodup, fun y hy block hblock => ?_⟩
  obtain ⟨x, hx, hkey, hle⟩ := htokens y hy
  exact UInt64.lt_of_lt_of_le (hb.later x hx block (hkey ▸ hblock)) hle

/-- A call of `process` returns: the block of its item was not concluded before, and the tokens of other items
do not see it. -/
theorem Board.Concluded.returned {a : PackArgs} {r : ProcessResult} {rest tokens : Multiset Token}
    {accepted : Multiset PushCall} {finished : List Finished} (hb : b.Concluded)
    (htokens : b.tokens = {⟨a, .processing⟩} + rest) (hothers : ∀ y ∈ rest, y ∈ b.tokens ∧ y.args.key ≠ a.key)
    (hnew : ∀ y ∈ tokens, y ∈ rest ∨ (y.args.key = a.key ∧ a.minTargetBlock ≤ y.args.minTargetBlock ∧
      (Concludes r → a.minTargetBlock < y.args.minTargetBlock))) :
    Board.Concluded ⟨tokens, accepted, b.events ++ [.returned a r], finished⟩ := by
  have hbefore : ∀ block, (a.key, block) ∈ conclusions b.events → block < a.minTargetBlock :=
    hb.later ⟨a, .processing⟩ (by simp [htokens])
  constructor
  · rw [conclusions_append]
    refine hb.nodup.append (Option.toList_nodup _) fun p hp hlast => ?_
    obtain ⟨-, rfl⟩ := mem_concluded.1 hlast
    exact absurd (hbefore _ hp) (UInt64.lt_irrefl _)
  · intro y hy block hblock
    rw [conclusions_append, List.mem_append, mem_concluded, Prod.mk.injEq] at hblock
    rcases hnew y hy with hrest | ⟨hkey, hle, hlt⟩
    · obtain ⟨hmem, hne⟩ := hothers y hrest
      rcases hblock with hblock | ⟨-, hkey, -⟩
      · exact hb.later y hmem block hblock
      · exact absurd hkey hne
    · rcases hblock with hblock | ⟨hr, -, rfl⟩
      · exact UInt64.lt_of_lt_of_le (hbefore block (hkey ▸ hblock)) hle
      · exact hlt hr

theorem Move.events_extend (h : Move cfg lossless inTime b b') : b.events <+: b'.events := by
  cases h with
  | invoke | retried | done => exact List.prefix_append ..
  | _ => exact List.prefix_rfl

/-- What was concluded stays so. -/
theorem conclusions_step {s s' : State} {a : Action} (hs : Sound s) (h : step cfg s a = some s') :
    (conclusions s.events).Sublist (conclusions s'.events) :=
  (step_move hs h).events_extend.sublist.filterMap _

end MevShare.Queue
