import MevShare.BuilderConsent
import MevShare.Lib.Runs
import MevShare.SimResult
/-!
# Two goroutines on one bundle

While one goroutine of `SimulatedBundle` stores the bundle and extracts the
hint, the other prepares what the builders get and thereby changes the bundle:
it narrows the builders of the top-level privacy record and drops privacy and
metadata of the nested bundles. `Untouched` bundles are those the preparation
leaves as they are. For any other bundle that is sent to the builders, what is
stored depends on who comes first (`outputs_fixed_iff`).
-/
open Lib

namespace MevShare

/-- The preparation of the builders' arguments finds nothing to change. -/
def Untouched (D : Deps) (b : SendMevBundleArgs) : Prop :=
  (b.privacy = none ∨ (mergePrivacyBuilders D b).privacy = b.privacy) ∧
    ∀ el ∈ b.body, ∀ c, el.bundle = some c → Everywhere Clean c

/-- The bodies in the store and the published hints. -/
structure Outputs where
  statsBody : Option SendMevBundleArgs
  builderBody : Option SendMevBundleArgs
  hints : List Hint

def Outside.outputs (out : Outside) (h : Hash) : Outputs :=
  ⟨(out.db.bundle h).map (·.body), (out.db.builder h).map (·.body), out.published⟩

/-- What a successful simulation adds to `out`, all of it computed from `bundle`. -/
def computedFrom (s : SimulationResultBackend) (bundle : SendMevBundleArgs) (sim : SimMevBundleResponse) (h : Hash)
    (out : Outside) : Outputs :=
  ⟨some bundle, some bundle,
    out.published ++ if (out.db.bundle h).isSome then [] else s.hintsOf bundle sim⟩

/-- No call of the step fails. -/
def TaskAction.Ok : TaskAction → Prop
  | .store env => env.Ok
  | .send => True

/-! ## What the preparation changes -/

theorem cleanElements_eq_iff {l : List MevBundleBody} :
    cleanElements l = l ↔ ∀ el ∈ l, ∀ c, el.bundle = some c → cleanBundle c = c := by
  induction l with
  | nil => simp [cleanElements]
  | cons el l ih =>
    obtain ⟨hash, tx, bundle, canRevert, revertMode⟩ := el
    cases bundle with
    | none => simp [cleanElements, ih]
    | some c => simp [cleanElements, ih]

theorem cleanBundle_eq_iff (b : SendMevBundleArgs) : cleanBundle b = b ↔ Everywhere Clean b := by
  induction b using SendMevBundleArgs.tree_induction with
  | h b ih =>
    rw [everywhere_iff]
    obtain ⟨version, uuid, inclusion, body, validity, privacy, metadata⟩ := b
    simp only [cleanBundle, SendMevBundleArgs.mk.injEq, true_and, cleanElements_eq_iff, Clean]
    constructor
    · rintro ⟨hbody, hp, hm⟩
      exact ⟨⟨hp.symm, hm.symm⟩, fun el hel c hc => (ih el hel c hc).1 (hbody el hel c hc)⟩
    · rintro ⟨⟨hp, hm⟩, hbody⟩
      exact ⟨fun el hel c hc => (ih el hel c hc).2 (hbody el hel c hc), hp.symm, hm.symm⟩

theorem sharedBundle_eq_iff {D : Deps} {b : SendMevBundleArgs} : sharedBundle D b = b ↔ Untouched D b := by
  have hbody : cleanElements b.body = b.body ↔ ∀ el ∈ b.body, ∀ c, el.bundle = some c → Everywhere Clean c := by
    rw [cleanElements_eq_iff]
    exact forall₂_congr fun el _ => forall₂_congr fun c _ => cleanBundle_eq_iff c
  have hpriv : mergedPrivacy D b = b.privacy ↔ b.privacy = none ∨ (mergePrivacyBuilders D b).privacy = b.privacy := by
    cases hp : b.privacy <;> simp [mergedPrivacy, hp]
  rw [Untouched, ← hbody, ← hpriv]
  obtain ⟨version, uuid, inclusion, body, validity, privacy, metadata⟩ := b
  simp [sharedBundle, and_comm]

theorem sendBundle_shared {D : Deps} {b : BuildersBackend} {bundle : SendMevBundleArgs} {targetBlock : UInt64}
    {shouldCancel : Bool} {d : Dispatch} (h : b.sendBundle D bundle targetBlock shouldCancel = .ok d) :
    d.shared = sharedBundle D bundle := by
  simp only [BuildersBackend.sendBundle, prepare, bind_ok, pure_ok] at h
  obtain ⟨p, hp, rfl⟩ := h
  cases hm : bundle.metadata with
  | none => simp [hm, throw_eq_error] at hp
  | some m =>
    simp only [hm, pure_ok] at hp
    subst hp
    rfl

/-! ## Runs in which the bundle stays the same -/

section Steady
variable (s : SimulationResultBackend) (h : Hash) (b : SendMevBundleArgs) (sim : SimMevBundleResponse) (out : Outside)

/-- How far the store goroutine has got with what is computed from `b`. -/
def Progress (now : Outside) : StorePc → Prop
  | .stats => now.db.bundle h = out.db.bundle h ∧ now.published = out.published
  | .hints => (now.db.bundle h).map (·.body) = some b ∧ out.db.bundle h = none ∧ now.published = out.published
  | .builder => (now.db.bundle h).map (·.body) = some b ∧ now.published = (computedFrom s b sim h out).hints
  | .done => now.outputs h = computedFrom s b sim h out

structure Steady (c : SimTask × Outside) : Prop where
  bundle_eq : c.1.bundle = b
  sim_eq : c.1.sim = sim
  sending_untouched : c.1.sending = true → Untouched s.deps b
  progress : Progress s h b sim out c.2 c.1.store

variable {s h b sim out}

theorem Steady.step {c c' : SimTask × Outside} {a : TaskAction} {m : MevBundleMetadata} (hc : Steady s m.bundleHash b sim out c)
    (hm : b.metadata = some m) (hb : m.bodyHashes ≠ []) (hsim : sim.success = true) (ha : a.Ok)
    (hstep : taskStep s c a = some c') : Steady s m.bundleHash b sim out c' := by
  obtain ⟨t, now⟩ := c
  obtain ⟨t', now'⟩ := c'
  obtain ⟨hbundle, hsim', hsend, hp⟩ := hc
  simp only at hbundle hsim' hsend hp
  cases a with
  | store env =>
    cases storeStep_effect hstep ha (hbundle ▸ hm) hb with
    | stats hpc hrow hpub =>
      obtain ⟨r, hr, hrb⟩ := hrow
      rw [hpc] at hp
      obtain ⟨hp1, hp2⟩ := hp
      refine ⟨hbundle, hsim', hsend, ?_⟩
      cases hknown : (out.db.bundle m.bundleHash) with
      | none =>
        simp [afterStats, hsim', hsim, hp1, hknown, Progress, hr, hrb, hbundle, hpub, hp2]
      | some r' =>
        simp [afterStats, hsim', hsim, hp1, hknown, Progress, hr, hrb, hbundle, hpub, hp2, computedFrom]
    | hints hpc hpub hrow =>
      rw [hpc] at hp
      obtain ⟨hp1, hp2, hp3⟩ := hp
      refine ⟨hbundle, hsim', hsend, ?_⟩
      simp [Progress, hrow, hp1, hpub, hp3, computedFrom, hp2, hbundle, hsim']
    | builder hpc hpub hrow hbuilder =>
      obtain ⟨r, hr, hrb⟩ := hbuilder
      rw [hpc] at hp
      obtain ⟨hp1, hp2⟩ := hp
      refine ⟨hbundle, hsim', hsend, ?_⟩
      simp only [Progress, Outside.outputs, hrow, hp1, hr, hpub, hp2, Option.map_some, hrb, hbundle]
      rfl
  | send =>
    simp only [taskStep, sendStep] at hstep
    split at hstep
    · rename_i hsending
      split at hstep
      · rename_i d hd
        cases hstep
        -- the preparation runs on a bundle that it does not change
        have hsame : d.shared = b := by
          rw [sendBundle_shared hd, hbundle, sharedBundle_eq_iff]
          exact hsend hsending
        exact ⟨hsame, hsim', by simp, by cases hs : t.store <;> simp only [hs] at hp ⊢ <;> exact hp⟩
      · cases hstep
    · cases hstep

/-- If the bundle does not change, a finished call leaves what is computed from it. -/
theorem steady_outputs {t : SimTask} {m : MevBundleMetadata} (hm : t.bundle.metadata = some m) (hb : m.bodyHashes ≠ [])
    (hsim : t.sim.success = true) (hstart : t.store = .stats) (hsend : t.sending = true → Untouched s.deps t.bundle)
    {tr c} (hrun : Run (taskStep s) (t, out) tr c) (hok : ∀ p ∈ tr, p.2.Ok) (hdone : c.1.Finished) :
    c.2.outputs m.bundleHash = computedFrom s t.bundle t.sim m.bundleHash out := by
  have hc : Steady s m.bundleHash t.bundle t.sim out c :=
    @Run.inv _ _ _ _ (fun _ a => a.Ok) _ ⟨rfl, rfl, hsend, by rw [hstart]; exact ⟨rfl, rfl⟩⟩
      (fun _ _ _ hc ha hstep => hc.step hm hb hsim ha hstep) _ _ hrun hok
  simpa [hdone.1, Progress] using hc.progress

end Steady

/-! ## Every order -/

/-- A step in which every call succeeds. -/
def fineEnv : Env := ⟨0, .none, false, some 0, false⟩

theorem fineEnv_ok : fineEnv.Ok := ⟨rfl, rfl, rfl, rfl⟩

/-- The number of calls the store goroutine has before it, at most. -/
def StorePc.left : StorePc → Nat
  | .stats => 3
  | .hints => 2
  | .builder => 1
  | .done => 0

theorem storeStep_enabled (s : SimulationResultBackend) (t : SimTask) (out : Outside) (h : t.store ≠ .done) :
    ∃ t' out', storeStep s fineEnv t out = some (t', out') ∧ t'.sending = t.sending ∧ t'.store.left < t.store.left := by
  cases hs : t.store with
  | stats =>
    simp only [storeStep, hs]
    refine ⟨_, _, rfl, rfl, ?_⟩
    simp only [afterStats]
    split
    · split <;> simp [StorePc.left]
    · simp [StorePc.left]
  | hints =>
    simp only [storeStep, hs]
    exact ⟨_, _, rfl, rfl, by simp [StorePc.left]⟩
  | builder =>
    simp only [storeStep, hs]
    split <;> exact ⟨_, _, rfl, rfl, by simp [StorePc.left]⟩
  | done => exact absurd hs h

theorem store_finishes (s : SimulationResultBackend) (n : Nat) : ∀ (t : SimTask) (out : Outside), t.store.left ≤ n →
    t.sending = false → ∃ tr c, Run (taskStep s) (t, out) tr c ∧ (∀ p ∈ tr, p.2.Ok) ∧ c.1.Finished := by
  induction n with
  | zero =>
    intro t out hn hsend
    have hdone : t.store = .done := by cases hs : t.store <;> simp_all [StorePc.left]
    exact ⟨[], _, .nil, by simp, hdone, hsend⟩
  | succ n ih =>
    intro t out hn hsend
    by_cases hdone : t.store = .done
    · exact ⟨[], _, .nil, by simp, hdone, hsend⟩
    · obtain ⟨t', out', hstep, hsend', hlt⟩ := storeStep_enabled s t out hdone
      obtain ⟨tr, c, hrun, hok, hfin⟩ := ih t' out' (by omega) (hsend'.trans hsend)
      have hstep' : taskStep s (t, out) (.store fineEnv) = some (t', out') := hstep
      exact ⟨_, c, hrun.cons hstep', List.forall_mem_cons.2 ⟨fineEnv_ok, hok⟩, hfin⟩

/-- If the bundle is sent to the builders, the preparation may come first; everything is then computed from what it leaves. -/
theorem send_first (s : SimulationResultBackend) {t : SimTask} {out : Outside} {m : MevBundleMetadata}
    (hm : t.bundle.metadata = some m) (hb : m.bodyHashes ≠ []) (hsim : t.sim.success = true) (hstart : t.store = .stats)
    (hsend : t.sending = true) :
    ∃ tr c, Run (taskStep s) (t, out) tr c ∧ (∀ p ∈ tr, p.2.Ok) ∧ c.1.Finished ∧
      (c.2.outputs m.bundleHash).statsBody = some (sharedBundle s.deps t.bundle) := by
  obtain ⟨d, hd⟩ : ∃ d, s.builders.sendBundle s.deps t.bundle (t.sim.stateBlock + 1) t.shouldCancel = .ok d := by
    simp [BuildersBackend.sendBundle, prepare, hm, bind, Except.bind, pure, Except.pure]
  have hstep : taskStep s (t, out) .send =
      some ({ t with bundle := d.shared, sending := false }, { out with dispatched := out.dispatched ++ [d] }) := by
    simp only [taskStep, sendStep, hsend, ↓reduceIte, hd]
  obtain ⟨tr, c, hrun, hok, hfin⟩ := store_finishes s 3 { t with bundle := d.shared, sending := false }
    { out with dispatched := out.dispatched ++ [d] } (by simp only [hstart]; decide) rfl
  have hm' : d.shared.metadata = some m := by rw [sendBundle_shared hd]; exact hm
  have hout := @steady_outputs s _ { t with bundle := d.shared, sending := false } m hm' hb hsim hstart
    (by simp) _ _ hrun hok hfin
  refine ⟨_, c, hrun.cons hstep, List.forall_mem_cons.2 ⟨trivial, hok⟩, hfin, ?_⟩
  rw [hout, computedFrom, sendBundle_shared hd]

/-- In every order of the calls of a `SimulatedBundle` for a successful
simulation the stored bodies and the published hint are those computed from the
simulated bundle, if and only if the bundle is not sent to the builders or
preparing it for them changes nothing. -/
theorem outputs_fixed_iff (s : SimulationResultBackend) (out : Outside) {bundle : SendMevBundleArgs}
    {sim : SimMevBundleResponse} {m : MevBundleMetadata} (hm : bundle.metadata = some m) (hb : m.bodyHashes ≠ [])
    (hsim : sim.success = true) (shouldCancel isOldBundle : Bool) :
    (∀ tr c, Run (taskStep s) (simulatedBundle s.deps bundle sim shouldCancel isOldBundle, out) tr c →
        (∀ p ∈ tr, p.2.Ok) → c.1.Finished →
        c.2.outputs m.bundleHash = computedFrom s bundle sim m.bundleHash out) ↔
      sendsToBuilders s.deps bundle sim shouldCancel isOldBundle = false ∨ Untouched s.deps bundle := by
  constructor
  · intro hall
    by_cases hsend : sendsToBuilders s.deps bundle sim shouldCancel isOldBundle = true
    · right
      -- the order in which the arguments for the builders are prepared before anything is stored
      obtain ⟨tr, c, hrun, hok, hfin, hstats⟩ :=
        @send_first s (simulatedBundle s.deps bundle sim shouldCancel isOldBundle) out m hm hb hsim rfl hsend
      rw [hall tr c hrun hok hfin] at hstats
      exact sharedBundle_eq_iff.1 (Option.some.inj hstats).symm
    · exact .inl (by simpa using hsend)
  · intro hfixed tr c hrun hok hfin
    refine steady_outputs hm hb hsim rfl (fun hsend => ?_) hrun hok hfin
    rcases hfixed with hnot | hun
    · exact absurd hsend (by simp [simulatedBundle, hnot])
    · exact hun

/-- A node with no builders and nothing stored. -/
def bareBackend : SimulationResultBackend := ⟨sampleDeps, ⟨fun _ => none, [], ""⟩, false, false⟩

def nothing : Outside := ⟨.empty, [], []⟩

/-- One transaction as it leaves validation. -/
def flatBundle : SendMevBundleArgs :=
  ⟨"v0.1", "", ⟨2, 2⟩, [⟨none, some sampleTx, none, false, revertModeFail⟩], ⟨[], []⟩, some ⟨hintHash, [], none⟩,
    some { MevBundleMetadata.empty with bundleHash := 1, bodyHashes := [1] }⟩

/-- A successful simulation without logs of a bundle with these numbers of nested elements. -/
def quietSim (nested : List Nat) : SimMevBundleResponse :=
  ⟨true, "", 1, 0, 0, 0, 21000, nested.map fun n => .mk [] (List.replicate n (.mk [] [])), "", []⟩

/-- A backrun of a private bundle whose sender shares its hash. -/
def privateBackrun : SendMevBundleArgs :=
  ⟨"v0.1", "", ⟨2, 2⟩,
    [⟨none, none, some { flatBundle with inclusion := ⟨2, 3⟩ }, false, ""⟩,
      ⟨none, some sampleTx, none, false, revertModeFail⟩],
    ⟨[], []⟩, none, some { MevBundleMetadata.empty with bundleHash := 2, bodyHashes := [1, 1] }⟩

/-- The same backrun when the bundle in it has been cleaned before. -/
def cleanedBackrun : SendMevBundleArgs := sharedBundle sampleDeps privateBackrun

theorem outputs_fixed_iff_nested :
    sendsToBuilders sampleDeps cleanedBackrun (quietSim [1, 0]) false false = true ∧
      (∃ tr c, Run (taskStep bareBackend) (simulatedBundle sampleDeps cleanedBackrun (quietSim [1, 0]) false false, nothing)
        tr c ∧ (∀ p ∈ tr, p.2.Ok) ∧ c.1.Finished) ∧
      ∀ tr c, Run (taskStep bareBackend) (simulatedBundle sampleDeps cleanedBackrun (quietSim [1, 0]) false false, nothing)
          tr c → (∀ p ∈ tr, p.2.Ok) → c.1.Finished →
        c.2.outputs 2 = computedFrom bareBackend cleanedBackrun (quietSim [1, 0]) 2 nothing := by
  have hun : Untouched sampleDeps cleanedBackrun := sharedBundle_eq_iff.1 rfl
  obtain ⟨tr, c, hrun, hok, hfin, -⟩ := @send_first bareBackend
    (simulatedBundle sampleDeps cleanedBackrun (quietSim [1, 0]) false false) nothing _ rfl (by simp) rfl rfl rfl
  exact ⟨rfl, ⟨tr, c, hrun, hok, hfin⟩,
    (@outputs_fixed_iff bareBackend nothing cleanedBackrun (quietSim [1, 0]) _ rfl (by simp) rfl false false).2 (.inr hun)⟩

/-- If the builders' arguments are prepared first, the backrun is stored without
the privacy record and the metadata of the bundle it backruns. -/
theorem backrun_stored_without_privacy :
    ∃ tr c, Run (taskStep bareBackend) (simulatedBundle sampleDeps privateBackrun (quietSim [1, 0]) false false, nothing)
        tr c ∧ (∀ p ∈ tr, p.2.Ok) ∧ c.1.Finished ∧
        c.2.outputs 2 ≠ computedFrom bareBackend privateBackrun (quietSim [1, 0]) 2 nothing := by
  obtain ⟨tr, c, hrun, hok, hfin, hstats⟩ := @send_first bareBackend
    (simulatedBundle sampleDeps privateBackrun (quietSim [1, 0]) false false) nothing _ rfl (by simp) rfl rfl rfl
  refine ⟨tr, c, hrun, hok, hfin, fun h => ?_⟩
  have hun : Untouched sampleDeps privateBackrun := by
    rw [← sharedBundle_eq_iff, ← Option.some.injEq]
    exact hstats.symm.trans (congrArg Outputs.statsBody h)
  have hclean := hun.2 _ List.mem_cons_self _ rfl
  cases hclean with
  | node hnode => cases hnode.1

end MevShare
