import MevShare.Contacts
import MevShare.Lib.WaitGroup
/-!
# The wait groups of `mevshare/builders.go`

`SendBundle` and `CancelBundleByHash` call `wg.Add(1)` for every goroutine they
start and wait for all of them. A goroutine for an external builder that is
delayed on the first block returns before its `defer wg.Done()`, and no goroutine
of `CancelBundleByHash` has a `wg.Done()`.
-/
open Lib

namespace MevShare

/-- The bundle names an external builder that knows replacements if they are needed and waits for the second block. -/
def NamesDelayed (D : Deps) (b : BuildersBackend) (bundle : SendMevBundleArgs) (targetBlock : UInt64) : Prop :=
  ∃ x, Names D b bundle x ∧ ¬Unreplaceable bundle x ∧ Delayed bundle targetBlock x

variable {D : Deps} {b : BuildersBackend} {bundle : SendMevBundleArgs} {targetBlock : UInt64} {shouldCancel : Bool}

theorem internalSpawns_done {p : Prepared} (h : prepare D bundle targetBlock shouldCancel = .ok p) {s : Spawn}
    (hs : s ∈ internalSpawns D b p) : s.done = true := by
  obtain ⟨x, -, -, -, ⟨-, rfl⟩ | ⟨-, rfl⟩⟩ := (mem_internalSpawns_iff h).1 hs
  · rfl
  · rfl

theorem externalSpawns_done_iff {p : Prepared} (h : prepare D bundle targetBlock shouldCancel = .ok p) :
    (∀ s ∈ externalSpawns D b p p.builders [], s.done = true) ↔ ¬NamesDelayed D b bundle targetBlock := by
  constructor
  · rintro hdone ⟨x, hx, hrepl, hdelay⟩
    exact Bool.false_ne_true (hdone _ ((mem_externalSpawns_names h).2 ⟨x, hx, hrepl, .inl ⟨hdelay, rfl⟩⟩))
  · intro hnone s hs
    obtain ⟨x, hx, hrepl, ⟨hdelay, -⟩ | ⟨-, rfl⟩⟩ := (mem_externalSpawns_names h).1 hs
    · exact absurd ⟨x, hx, hrepl, hdelay⟩ hnone
    · rfl

/-- The goroutines of `SendBundle` that do not call `wg.Done` are those for delayed external builders. -/
theorem spawned_done_iff :
    (∀ s ∈ b.spawned D bundle targetBlock shouldCancel, s.done = true) ↔
      ¬(bundle.metadata.isSome ∧ NamesDelayed D b bundle targetBlock) := by
  simp only [mem_spawned]
  cases hm : bundle.metadata with
  | none =>
    -- the call panics before it starts any goroutine
    have hpanic : ∀ p, prepare D bundle targetBlock shouldCancel ≠ .ok p := by
      intro p hp
      obtain ⟨m, hm', -⟩ := prepare_fields hp
      rw [hm] at hm'
      cases hm'
    simp [hpanic]
  | some m =>
    obtain ⟨p, hp⟩ := prepare_of_metadata (D := D) hm targetBlock shouldCancel
    simp only [Option.isSome_some, true_and, ← externalSpawns_done_iff hp]
    constructor
    · intro hdone s hs
      exact hdone s ⟨p, hp, .inr hs⟩
    · rintro hdone s ⟨p', hp', hs | hs⟩
      · exact internalSpawns_done hp' hs
      · cases hp.symm.trans hp'
        exact hdone s hs

/-- When all goroutines have returned, in any order and with any results of
their calls, `SendBundle` has seen as many `wg.Done` as `wg.Add(1)` unless the
bundle names a delayed external builder and this is the first block, and
`CancelBundleByHash` only if there is no internal builder. -/
theorem wait_groups_balanced_iff (D : Deps) (b : BuildersBackend) (bundle : SendMevBundleArgs) (targetBlock : UInt64)
    (shouldCancel : Bool) (hash : Hash) :
    (WaitGroup.Balanced (Option Err) Spawn.done (b.spawned D bundle targetBlock shouldCancel) ↔
        ¬(bundle.metadata.isSome ∧ NamesDelayed D b bundle targetBlock)) ∧
      (WaitGroup.Balanced (Option Err) CancelSpawn.done (b.cancelBundleByHash hash) ↔ b.internalBuilders = []) := by
  rw [WaitGroup.balanced_iff, WaitGroup.balanced_iff]
  refine ⟨spawned_done_iff, ?_⟩
  simp [BuildersBackend.cancelBundleByHash, List.eq_nil_iff_forall_not_mem]

/-- An external builder that waits for the second block, and an internal one. -/
def delayedConfig : BuildersConfig :=
  ⟨[⟨"alpha", "http://alpha", "v0.1", false, false, true⟩, ⟨"flashbots", "http://flashbots", "v0.1", true, false, false⟩], ""⟩

/-- On the first block the goroutine for the external builder returns without
`wg.Done`, and the goroutine of a cancellation always does. -/
theorem wait_groups_stuck :
    ∃ b, loadBuilderConfig sampleDeps delayedConfig = .ok b ∧
      (∃ (tr : List (WaitGroup Spawn × WaitAction (Option Err))) (s : WaitGroup Spawn),
        Run (waitStep Spawn.done) (.begin (b.spawned sampleDeps backrun 2 false)) tr s ∧
          s.Over ∧ s.added = 2 ∧ s.done = 1) ∧
      ∃ (tr : List (WaitGroup CancelSpawn × WaitAction (Option Err))) (s : WaitGroup CancelSpawn),
        Run (waitStep CancelSpawn.done) (.begin (b.cancelBundleByHash 0)) tr s ∧
          s.Over ∧ s.added = 1 ∧ s.done = 0 := by
  refine ⟨_, rfl, ?_, ?_⟩
  · exact ⟨_, _, .snoc (a := .finish 0 none) (.snoc (a := .finish 1 none) (.snoc (a := .start) (.snoc (a := .start)
      .nil rfl) rfl) rfl) rfl, ⟨rfl, rfl⟩, rfl, rfl⟩
  · exact ⟨_, _, .snoc (a := .finish 0 none) (.snoc (a := .start) .nil rfl) rfl, ⟨rfl, rfl⟩, rfl, rfl⟩

end MevShare
