import MevShare.Handed
import MevShare.HintOnce
import MevShare.Tables
/-!
# Published hints can be acted on

A hint invites searchers to refer to the bundle by its matching hash. The call of
`SimulatedBundle` that publishes it has stored the bundle before, and what it
stored stays: rows are updated and cancelled but not removed, and no write
changes the columns that a look-up by matching hash selects on, `cancelled`
apart. So a hint that is out refers to a row that such a look-up finds until its
signer cancels it.

`InsertBundleForStats` must not fail: when it does, the code goes on as for a new
bundle, and publishes a hint for which there may be no row.
-/
open Lib

namespace MevShare

/-! ## The node and the cancellations -/

inductive MarketAction where
  | node (a : NodeAction)
  | cancel (fails : Bool) (hash : Hash) (signer : Address)

/-- The background calls take turns with calls of `CancelBundleByHash`. -/
def marketStep (s : SimulationResultBackend) (n : Node) : MarketAction → Option Node
  | .node a => nodeStep s n a
  | .cancel fails hash signer =>
    match cancelBundleByHash fails n.out.db hash signer with
    | .ok db => some { n with out := { n.out with db } }
    | .error _ => some n

/-- A bundle with the metadata that validation gives it. -/
def Named (D : Deps) (bundle : SendMevBundleArgs) : Prop :=
  ∃ m, bundle.metadata = some m ∧ m.matchingHash = D.keccak256 (hashBytes m.bundleHash) ∧ m.bodyHashes ≠ []

/-- The bundles are validated ones, and no statement of `InsertBundleForStats` fails. -/
def Recorded (s : SimulationResultBackend) (n : Node) : MarketAction → Prop
  | .node (.process bundle _ _ _ _) => Named s.deps bundle
  | .node (.task i (.store env)) => ∀ t, n.tasks[i]? = some t → t.store = .stats → env.faults = .none
  | _ => True

/-! ## What is offered -/

/-- There is a row for the hash that may be matched. -/
def Offers (db : Database) (h : Hash) : Prop := ∃ r, db.bundle h = some r ∧ r.allowMatching = true

structure Listed (D : Deps) (n : Node) : Prop where
  tidy : Tidy n.out.db
  rows : ∀ h r, n.out.db.bundle h = some r → r.matchingHash = D.keccak256 (hashBytes h) ∧ Named D r.body
  tasks : ∀ t ∈ n.tasks, Named D t.bundle
  /-- a call that is about to publish a hint has stored the bundle -/
  pending : ∀ t ∈ n.tasks, t.store = .hints → t.bundle.hasHintHash = true →
    ∃ m, t.bundle.metadata = some m ∧ Offers n.out.db m.bundleHash
  published : ∀ hint ∈ n.out.published, ∃ h, hint.hash = D.keccak256 (hashBytes h) ∧ Offers n.out.db h
  history : ∀ x ∈ n.out.db.sbundleHintHistory, x.hint ∈ n.out.published

variable {s : SimulationResultBackend} {n n' : Node}

theorem extractHints_hash {bundle : SendMevBundleArgs} {sim : SimMevBundleResponse} {hint : Hint}
    (h : s.extractHints bundle sim = .ok hint) : hint.hash = bundle.matchingHash := by
  simp only [SimulationResultBackend.extractHints, extractHints, bind_ok, rejectIf_ok, pure_ok] at h
  obtain ⟨_, -, _, -, _, -, rfl⟩ := h
  rfl

/-- `ProcessHints` publishes nothing, or one hint of the bundle, which it may record. -/
theorem processHints_cases (env : Env) (bundle : SendMevBundleArgs) (sim : SimMevBundleResponse) (out : Outside) :
    s.processHints env bundle sim out = out ∨
      ∃ hint, bundle.hasHintHash = true ∧ hint.hash = bundle.matchingHash ∧
        (s.processHints env bundle sim out).published = out.published ++ [hint] ∧
        (s.processHints env bundle sim out).db.sbundle = out.db.sbundle ∧
        ∀ x ∈ (s.processHints env bundle sim out).db.sbundleHintHistory, x ∈ out.db.sbundleHintHistory ∨ x.hint = hint := by
  unfold SimulationResultBackend.processHints
  split
  · exact .inl rfl
  · rename_i hhint
    cases hext : s.extractHints bundle sim with
    | error e => exact .inl rfl
    | ok hint =>
      dsimp only
      split
      · exact .inl rfl
      · refine .inr ⟨hint, by simpa using hhint, extractHints_hash hext, ?_⟩
        cases env.blockNumber with
        | none => exact ⟨rfl, rfl, fun x hx => .inl hx⟩
        | some block =>
          dsimp only
          split
          · exact ⟨rfl, rfl, fun x hx => .inl hx⟩
          · rename_i db hdb
            unfold insertHistoricalHint at hdb
            split at hdb
            · cases hdb
            · cases hdb
              refine ⟨rfl, rfl, fun x hx => ?_⟩
              rcases List.mem_append.1 hx with hx | hx
              · exact .inl hx
              · rw [List.mem_singleton.1 hx]
                exact .inr rfl

theorem hasHintHash_sharedBundle (D : Deps) (b : SendMevBundleArgs) : (sharedBundle D b).hasHintHash = b.hasHintHash := by
  cases hp : b.privacy with
  | none => simp [SendMevBundleArgs.hasHintHash, sharedBundle, mergedPrivacy, hp]
  | some p =>
    rw [← @hasHintHash_eq b (mergePrivacyBuilders D b) (merge_terms b)]
    simp [SendMevBundleArgs.hasHintHash, sharedBundle, mergedPrivacy, hp]

/-! ## The writes keep what is offered -/

theorem Offers.stats {c : StatsCall} {m : MevBundleMetadata} {db : Database} {h : Hash} (ho : Offers db h)
    (hm : c.bundle.metadata = some m) (hc : c.committed db = true) : Offers (c.run db).db h := by
  obtain ⟨r, hr, hallow⟩ := ho
  unfold Offers
  rw [StatsCall.bundle_run hm hc]
  split
  · rename_i hh
    rw [hh, hr]
    exact ⟨_, rfl, (updatedRow_counted c.now c.bundle c.result r).2.2.1.trans hallow⟩
  · exact ⟨r, hr, hallow⟩

theorem Offers.cancel {db db' : Database} {hash h : Hash} {signer : Address} (ho : Offers db h)
    (hcancel : db'.sbundle = db.sbundle.map (cancelRow hash signer)) : Offers db' h := by
  obtain ⟨r, hr, hallow⟩ := ho
  refine ⟨_, by rw [bundle_cancelRow hcancel, hr]; rfl, ?_⟩
  unfold cancelRow
  split <;> exact hallow

theorem Offers.congr {db db' : Database} {h : Hash} (ho : Offers db h) (hsame : db'.sbundle = db.sbundle) : Offers db' h := by
  unfold Offers Database.bundle at *
  rwa [hsame]

/-- A write to the database that keeps the offers, with the tasks and the record as they are. -/
theorem Listed.write {D : Deps} {db : Database} (hn : Listed D n) (htidy : Tidy db)
    (hrows : ∀ h r, db.bundle h = some r → r.matchingHash = D.keccak256 (hashBytes h) ∧ Named D r.body)
    (hoffers : ∀ h, Offers n.out.db h → Offers db h) (hhistory : db.sbundleHintHistory = n.out.db.sbundleHintHistory) :
    Listed D { n with out := { n.out with db } } := by
  refine ⟨htidy, hrows, hn.tasks, fun t ht hpc hhint => ?_, fun hint hh => ?_, hhistory ▸ hn.history⟩
  · obtain ⟨m, hm, ho⟩ := hn.pending t ht hpc hhint
    exact ⟨m, hm, hoffers _ ho⟩
  · obtain ⟨h, heq, ho⟩ := hn.published hint hh
    exact ⟨h, heq, hoffers _ ho⟩

/-- A change to one task. -/
theorem Listed.set {D : Deps} {i : Nat} {t' : SimTask} {committed : List SimMevBundleResponse} (hn : Listed D n)
    (hnamed : Named D t'.bundle)
    (hpending : t'.store = .hints → t'.bundle.hasHintHash = true →
      ∃ m, t'.bundle.metadata = some m ∧ Offers n.out.db m.bundleHash) :
    Listed D { n with tasks := n.tasks.set i t', committed } := by
  refine ⟨hn.tidy, hn.rows, fun t ht => ?_, fun t ht => ?_, hn.published, hn.history⟩
  · rcases List.mem_or_eq_of_mem_set ht with ht | rfl
    · exact hn.tasks t ht
    · exact hnamed
  · rcases List.mem_or_eq_of_mem_set ht with ht | rfl
    · exact hn.pending t ht
    · exact hpending

/-- None of these calls writes the history of hints. -/
theorem history_tableStep {db db' : Database} {a : TableCall} (h : tableStep db a = some db') :
    db'.sbundleHintHistory = db.sbundleHintHistory := by
  cases tableEffect_of_step h with
  | unchanged => rfl
  | stored =>
    unfold StatsCall.run insertBundleForStats
    repeat' split
    all_goals rfl
  | forBuilder => rfl
  | cancelled => rfl

theorem tidy_congr {db db' : Database} (h : Tidy db) (hsame : db'.sbundle = db.sbundle) : Tidy db' :=
  ⟨by rw [hsame]; exact h.keys, by unfold Database.bundle; rw [hsame]; exact h.bodies⟩

/-- `InsertBundleForStats` stores the bundle, and offers it if it is new and asks for hints. -/
theorem Listed.stats {D : Deps} {c : StatsCall} (hn : Listed D n) (hnamed : Named D c.bundle) (hfaults : c.faults = .none) :
    Listed D { n with out := { n.out with db := (c.run n.out.db).db } } ∧
      ((c.run n.out.db).known = false → c.bundle.hasHintHash = true →
        ∃ m, c.bundle.metadata = some m ∧ Offers (c.run n.out.db).db m.bundleHash) := by
  have hnamed' := hnamed
  obtain ⟨m, hm, hmatching, hbody⟩ := hnamed
  have hc : c.committed n.out.db = true := by
    simp only [StatsCall.committed, hm, hfaults, Faults.none]
    cases n.out.db.bundle m.bundleHash <;> simp [hbody]
  have hstep : tableStep n.out.db (.insertForStats c) = some (c.run n.out.db).db := rfl
  refine ⟨hn.write (hn.tidy.step hstep) (fun h r hr => ?_) (fun h ho => ho.stats hm hc) ?_, fun hnew hhint => ⟨m, hm, ?_⟩⟩
  · rw [StatsCall.bundle_run hm hc] at hr
    split at hr
    · rename_i hh
      cases hr
      rw [rowAfter_body]
      refine ⟨?_, hnamed'⟩
      cases hrow : n.out.db.bundle m.bundleHash with
      | none => exact hh ▸ hmatching
      | some stored =>
        rw [StatsCall.rowAfter, (updatedRow_counted c.now c.bundle c.result stored).1, ← hh]
        exact (hn.rows _ stored hrow).1
    · exact hn.rows h r hr
  · exact history_tableStep hstep
  · rw [(StatsCall.run_committed hm hc).1, Option.isSome_eq_false_iff, Option.isNone_iff_eq_none] at hnew
    refine ⟨_, by rw [StatsCall.bundle_run hm hc, if_pos rfl], ?_⟩
    rw [hnew]
    exact hhint

theorem known_of_afterStats {sim : SimMevBundleResponse} {known : Bool} (h : afterStats sim known = .hints) :
    known = false := by
  unfold afterStats at h
  cases known with
  | false => rfl
  | true => split at h <;> cases h

/-- `ProcessHints` publishes a hint for the row that its call has stored. -/
theorem Listed.hints {t : SimTask} {env : Env} (hn : Listed s.deps n) (ht : t ∈ n.tasks) (hpc : t.store = .hints) :
    Listed s.deps { n with out := s.processHints env t.bundle t.sim n.out } := by
  rcases processHints_cases (s := s) env t.bundle t.sim n.out with hsame | ⟨hint, hhint, hhash, hpub, hrows, hhist⟩
  · rw [hsame]
    exact hn
  · obtain ⟨m, hm, ho⟩ := hn.pending t ht hpc hhint
    obtain ⟨m', hm', hmatching, -⟩ := hn.tasks t ht
    cases hm.symm.trans hm'
    have hoffers {h : Hash} (ho : Offers n.out.db h) : Offers (s.processHints env t.bundle t.sim n.out).db h :=
      ho.congr hrows
    refine ⟨tidy_congr hn.tidy hrows, ?_, hn.tasks, fun u hu hupc huhint => ?_, fun x hx => ?_, fun x hx => ?_⟩
    · simp only [Database.bundle, hrows]
      exact hn.rows
    · obtain ⟨mu, hmu, hou⟩ := hn.pending u hu hupc huhint
      exact ⟨mu, hmu, hoffers hou⟩
    · rw [hpub] at hx
      rcases List.mem_append.1 hx with hx | hx
      · obtain ⟨h, heq, hoh⟩ := hn.published x hx
        exact ⟨h, heq, hoffers hoh⟩
      · rw [List.mem_singleton.1 hx]
        refine ⟨m.bundleHash, ?_, hoffers ho⟩
        simp only [hhash, SendMevBundleArgs.matchingHash, hm, hmatching]
    · rw [hpub]
      rcases hhist x hx with hold | rfl
      · exact List.mem_append_left _ (hn.history x hold)
      · exact List.mem_append_right _ (List.mem_singleton_self _)

theorem Listed.cancel {D : Deps} {fails : Bool} {hash : Hash} {signer : Address} {db : Database} (hn : Listed D n)
    (hdb : cancelBundleByHash fails n.out.db hash signer = .ok db) : Listed D { n with out := { n.out with db } } := by
  have hrows := (cancelBundleByHash_ok hdb).2
  have hstep : tableStep n.out.db (.cancel fails hash signer) = some db := by rw [tableStep, hdb]
  refine hn.write (hn.tidy.step hstep) (fun k r hr => ?_) (fun k ho => ho.cancel hrows) (history_tableStep hstep)
  rw [bundle_cancelRow hrows] at hr
  obtain ⟨r', hr', rfl⟩ := Option.map_eq_some_iff.1 hr
  rw [(cancelRow_keeps hash signer r').2.1]
  refine ⟨?_, (hn.rows k r' hr').2⟩
  rw [← (hn.rows k r' hr').1]
  unfold cancelRow
  split <;> rfl

theorem Listed.forBuilder {D : Deps} {fails : Bool} {bundle : SendMevBundleArgs} {sim : SimMevBundleResponse}
    {targetBlock : UInt64} {db : Database} (hn : Listed D n)
    (hdb : insertBundleForBuilder fails n.out.db bundle sim targetBlock = .ok db) :
    Listed D { n with out := { n.out with db } } := by
  have hrows := insertBundleForBuilder_sbundle hdb
  have hstep : tableStep n.out.db (.insertForBuilder fails bundle sim targetBlock) = some db := by rw [tableStep, hdb]
  refine hn.write (tidy_congr hn.tidy hrows) ?_ (fun h ho => ho.congr hrows) (history_tableStep hstep)
  simp only [Database.bundle, hrows]
  exact hn.rows

/-- A result is handed over; its call begins with `InsertBundleForStats`. -/
theorem Listed.join {D : Deps} {t : SimTask} (hn : Listed D n) (hnamed : Named D t.bundle) (hpc : t.store = .stats) :
    Listed D { n with tasks := n.tasks ++ [t] } := by
  refine ⟨hn.tidy, hn.rows, fun u hu => ?_, fun u hu hupc => ?_, hn.published, hn.history⟩
  · rcases List.mem_append.1 hu with hu | hu
    · exact hn.tasks u hu
    · rw [List.mem_singleton.1 hu]
      exact hnamed
  · rcases List.mem_append.1 hu with hu | hu
    · exact hn.pending u hu hupc
    · rw [List.mem_singleton.1 hu, hpc] at hupc
      cases hupc

theorem Listed.store {i : Nat} {t t' : SimTask} {out' : Outside} {env : Env} {committed : List SimMevBundleResponse}
    (hn : Listed s.deps n) (ht : t ∈ n.tasks) (hfaults : t.store = .stats → env.faults = .none)
    (h : storeStep s env t n.out = some (t', out')) :
    Listed s.deps { n with tasks := n.tasks.set i t', out := out', committed } := by
  have hnamed := hn.tasks t ht
  cases hpc : t.store with
  | stats =>
    simp only [storeStep, hpc, Option.some.injEq, Prod.mk.injEq] at h
    obtain ⟨rfl, rfl⟩ := h
    obtain ⟨hlisted, hnew⟩ := hn.stats (c := ⟨env.faults, env.now, t.bundle, t.sim⟩) hnamed (hfaults hpc)
    exact hlisted.set hnamed fun hstore hhint => hnew (known_of_afterStats hstore) hhint
  | hints =>
    simp only [storeStep, hpc, Option.some.injEq, Prod.mk.injEq] at h
    obtain ⟨rfl, rfl⟩ := h
    exact (hn.hints ht hpc).set hnamed (by simp)
  | builder =>
    simp only [storeStep, hpc] at h
    split at h
    · rename_i db hdb
      cases h
      exact (hn.forBuilder hdb).set hnamed (by simp)
    · cases h
      exact hn.set hnamed (by simp)
  | done => simp [storeStep, hpc] at h

theorem Listed.send {i : Nat} {t t' : SimTask} {out' : Outside} {committed : List SimMevBundleResponse}
    (hn : Listed s.deps n) (ht : t ∈ n.tasks) (h : sendStep s t n.out = some (t', out')) :
    Listed s.deps { n with tasks := n.tasks.set i t', out := out', committed } := by
  unfold sendStep at h
  split at h
  · split at h
    · rename_i d hd
      cases h
      -- the shared bundle keeps the metadata and the wish for hints
      have hshared := sendBundle_shared hd
      have hmeta : d.shared.metadata = t.bundle.metadata := by rw [hshared]; rfl
      have hhints : d.shared.hasHintHash = t.bundle.hasHintHash := by rw [hshared, hasHintHash_sharedBundle]
      have hlisted : Listed s.deps { n with out := { n.out with dispatched := n.out.dispatched ++ [d] } } :=
        ⟨hn.tidy, hn.rows, hn.tasks, hn.pending, hn.published, hn.history⟩
      refine hlisted.set ?_ fun hstore hhint => ?_
      · simpa only [Named, hmeta] using hn.tasks t ht
      · simpa only [hmeta] using hn.pending t ht hstore (hhints ▸ hhint)
    · cases h
  · cases h

theorem Listed.step {a : MarketAction} (hn : Listed s.deps n) (ha : Recorded s n a) (h : marketStep s n a = some n') :
    Listed s.deps n' := by
  cases a with
  | cancel fails hash signer =>
    simp only [marketStep] at h
    split at h
    · rename_i db hdb
      cases h
      exact hn.cancel hdb
    · cases h
      exact hn
  | node a =>
    cases a with
    | process bundle targetBlock cancelled simulated rnonce =>
      simp only [marketStep, nodeStep] at h
      split at h
      · rename_i p hp
        cases h
        cases ht : p.handed with
        | none => simpa using hn
        | some t =>
          obtain ⟨rfl, hpc, -⟩ := process_handed hp ht
          exact hn.join ha hpc
      · cases h
    | task i action =>
      simp only [marketStep, nodeStep, Option.bind_eq_bind, Option.bind_eq_some_iff] at h
      obtain ⟨t, ht, ⟨t', out'⟩, htask, heq⟩ := h
      cases heq
      cases action with
      | store env => exact hn.store (List.mem_of_getElem? ht) (ha t ht) htask
      | send => exact hn.send (List.mem_of_getElem? ht) htask

/-! ## Look-ups -/

/-- A row that is offered and not cancelled is found under its matching hash, or another one with the same. -/
theorem Listed.found {D : Deps} {h : Hash} {r : DBSbundle} (hn : Listed D n) (hr : n.out.db.bundle h = some r)
    (hallow : r.allowMatching = true) (hcancelled : r.cancelled = false) (pick : Nat) :
    ∃ b m, getBundleByMatchingHash false pick n.out.db r.matchingHash = .ok b ∧ b.metadata = some m ∧
      m.matchingHash = r.matchingHash := by
  have hmem : r ∈ n.out.db.sbundle.filter fun x => x.matchingHash = r.matchingHash && x.allowMatching && !x.cancelled :=
    List.mem_filter.2 ⟨List.mem_of_find?_eq_some hr, by simp [hallow, hcancelled]⟩
  obtain ⟨r', hr'⟩ : ∃ r', _ = some r' := ⟨_, List.getElem?_eq_getElem (Nat.mod_lt pick (List.length_pos_of_mem hmem))⟩
  obtain ⟨hmem', hcond⟩ := List.mem_filter.1 (List.mem_of_getElem? hr')
  have hrow : n.out.db.bundle r'.hash = some r' := row_of_mem hn.tidy.keys hmem'
  obtain ⟨hhash, m, hm, hmatching, -⟩ := hn.rows _ r' hrow
  have hbundle : m.bundleHash = r'.hash := by simpa [hm] using hn.tidy.bodies _ r' hrow
  refine ⟨r'.body, m, ?_, hm, ?_⟩
  · simp only [getBundleByMatchingHash, Bool.false_eq_true, ↓reduceIte, hr']
    rfl
  · simp only [Bool.and_eq_true, decide_eq_true_eq] at hcond
    rw [hmatching, hbundle, ← hhash, hcond.1.1]

/-- Over every run in which `InsertBundleForStats` does not fail, whatever else
does: the hash of a published hint is the matching hash of a stored bundle that
may be matched, and as long as that bundle is not cancelled a look-up by the hash
finds a bundle with this matching hash. What the history says was published. -/
theorem published_hint_found {tr : List (Node × MarketAction)} (hrun : Run (marketStep s) freshNode tr n)
    (hok : ∀ p ∈ tr, Recorded s p.1 p.2) :
    (∀ hint ∈ n.out.published, ∃ h r, n.out.db.bundle h = some r ∧ r.allowMatching = true ∧
      r.matchingHash = hint.hash ∧
      (r.cancelled = false → ∀ pick, ∃ b m, getBundleByMatchingHash false pick n.out.db hint.hash = .ok b ∧
        b.metadata = some m ∧ m.matchingHash = hint.hash)) ∧
      ∀ x ∈ n.out.db.sbundleHintHistory, x.hint ∈ n.out.published := by
  have hn : Listed s.deps n := by
    refine Run.inv (Listed s.deps) ⟨tidy_empty, ?_, ?_, ?_, ?_, ?_⟩ (fun _ _ _ hn ha hstep => hn.step ha hstep) hrun hok
    · exact fun _ _ hr => by cases hr
    all_goals simp [freshNode, nothing, Database.empty]
  refine ⟨fun hint hhint => ?_, hn.history⟩
  obtain ⟨h, heq, r, hr, hallow⟩ := hn.published hint hhint
  have hmatching : r.matchingHash = hint.hash := (hn.rows h r hr).1.trans heq.symm
  refine ⟨h, r, hr, hallow, hmatching, fun hcancelled pick => ?_⟩
  rw [← hmatching]
  exact hn.found hr hallow hcancelled pick

theorem named_replaceableTx : Named sampleDeps replaceableTx := ⟨_, rfl, by decide, by simp⟩

/-- One bundle is simulated and its hint published, and a stranger fails to cancel it. -/
theorem published_hint_found_once :
    ∃ tr n, Run (marketStep bareBackend) freshNode tr n ∧ (∀ p ∈ tr, Recorded bareBackend p.1 p.2) ∧
      ∃ hint ∈ n.out.published, ∃ h r, n.out.db.bundle h = some r ∧ r.allowMatching = true ∧
        r.matchingHash = hint.hash := by
  have hfollows : ∃ n, Follows (marketStep bareBackend) (Recorded bareBackend) freshNode
      ((invocation 0 2 (quietSim [0]) 3).map .node ++ [.cancel false 1 7]) n ∧ n.out.published.length = 1 :=
    ⟨_, ⟨named_replaceableTx, _, rfl, trivial, _, rfl, (fun _ _ _ => rfl), _, rfl, (fun _ _ _ => rfl), _, rfl,
      (fun _ _ _ => rfl), _, rfl, trivial, _, rfl, rfl⟩, rfl⟩
  obtain ⟨n, hfollows, hpub⟩ := hfollows
  obtain ⟨tr, hrun, hok⟩ := hfollows.run
  obtain ⟨hint, hhint⟩ := List.exists_mem_of_length_pos (by rw [hpub]; exact Nat.one_pos)
  obtain ⟨h, r, hr, hallow, hmatching, -⟩ := (published_hint_found hrun hok).1 hint hhint
  exact ⟨tr, n, hrun, hok, hint, hhint, h, r, hr, hallow, hmatching⟩

end MevShare
