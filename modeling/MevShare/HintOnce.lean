import MevShare.SharedBundle
import MevShare.Worker
/-!
# How often a hint is published

The hint of a bundle is published by the call of `SimulatedBundle` whose
`InsertBundleForStats` finds no row, if that simulation was successful, and by
no other call (`NodeInv`). A failed simulation leaves a row too. So over any run
for one bundle hash the hint comes out once if some simulation was successful
and not at all otherwise, exactly if the first recorded simulation was
successful or none was (`published_once_iff`).
-/
open Lib

namespace MevShare

/-- An item of the queue for the bundle hash `h` whose sender asks for a hint.
A bundle without body hashes is left out, since its insert fails. -/
def ItemOf (h : Hash) (b : SendMevBundleArgs) : Prop :=
  b.hasHintHash = true ∧ ∃ m, b.metadata = some m ∧ m.bundleHash = h ∧ m.bodyHashes ≠ []

/-- The runs in question: items of one bundle hash, and no call to the store, to
Redis or to the Ethereum node fails, and no hint extraction either. -/
def Assumed (s : SimulationResultBackend) (h : Hash) (n : Node) : NodeAction → Prop
  | .process bundle _ _ _ _ => ItemOf h bundle
  | .task i action => action.Ok ∧
      ∀ t, n.tasks[i]? = some t → t.store = .hints → ∃ hint, s.extractHints t.bundle t.sim = .ok hint

/-! ## The preparation for the builders keeps what the hint depends on -/

theorem sharedBundle_item {D : Deps} {h : Hash} {b : SendMevBundleArgs} (hb : ItemOf h b) : ItemOf h (sharedBundle D b) := by
  obtain ⟨hhint, hm⟩ := hb
  exact ⟨(hasHintHash_eq (mergedPrivacy_terms b)).trans hhint, hm⟩

/-! ## The invariant -/

/-- 1 if the first recorded simulation was successful, 0 otherwise. -/
def firstSuccess : List SimMevBundleResponse → Nat
  | [] => 0
  | r :: _ => if r.success then 1 else 0

theorem firstSuccess_append {l : List SimMevBundleResponse} (h : l ≠ []) (l' : List SimMevBundleResponse) :
    firstSuccess (l ++ l') = firstSuccess l := by
  cases l with
  | nil => exact absurd rfl h
  | cons r l => rfl

/-- The hint is out or on its way exactly if the first recorded simulation was successful. -/
structure NodeInv (h : Hash) (n : Node) : Prop where
  items : ∀ t ∈ n.tasks, ItemOf h t.bundle
  row : (n.out.db.bundle h).isSome ↔ n.committed ≠ []
  count : n.out.published.length + n.tasks.countP (·.store = .hints) = firstSuccess n.committed
  recorded : ∀ t ∈ n.tasks, t.store ≠ .stats → t.sim ∈ n.committed
  handed : ∀ r ∈ n.committed, r ∈ n.tasks.map (·.sim)

theorem map_set_same {α β : Type} (f : α → β) {l : List α} {i : Nat} {x y : α} (hx : l[i]? = some x) (hy : f y = f x) :
    (l.set i y).map f = l.map f := by
  obtain ⟨hi, rfl⟩ := List.getElem?_eq_some_iff.1 hx
  have hself := @List.set_getElem_self _ (l.map f) i (by simpa using hi)
  rwa [List.getElem_map, ← hy, ← List.map_set] at hself

/-- A step of one call, from what it does to that call and to the outside. -/
theorem NodeInv.set {h : Hash} {n n' : Node} {i : Nat} {t t' : SimTask} {rs : List SimMevBundleResponse}
    (hn : NodeInv h n) (ht : n.tasks[i]? = some t) (htasks : n'.tasks = n.tasks.set i t')
    (hcommitted : n'.committed = n.committed ++ rs) (hitem : ItemOf h t'.bundle) (hsim : t'.sim = t.sim)
    (hrow : (n'.out.db.bundle h).isSome ↔ n'.committed ≠ [])
    (hrec : t'.store ≠ .stats → t.sim ∈ n'.committed) (hrs : ∀ r ∈ rs, r = t.sim)
    (hcount : n'.out.published.length + (if t'.store = .hints then 1 else 0) + firstSuccess n.committed =
      n.out.published.length + (if t.store = .hints then 1 else 0) + firstSuccess n'.committed) : NodeInv h n' := by
  have hmem : t ∈ n.tasks := List.mem_of_getElem? ht
  obtain ⟨hi, hget⟩ := List.getElem?_eq_some_iff.1 ht
  refine ⟨fun u hu => ?_, hrow, ?_, fun u hu hpc => ?_, fun r hr => ?_⟩
  · rw [htasks] at hu
    rcases List.mem_or_eq_of_mem_set hu with hu | rfl
    · exact hn.items u hu
    · exact hitem
  · have hpos : (if t.store = .hints then 1 else 0) ≤ n.tasks.countP (·.store = .hints) := by
      split
      · exact List.countP_pos_iff.2 ⟨t, hmem, by simpa⟩
      · exact Nat.zero_le _
    have hc := hn.count
    rw [htasks, List.countP_set hi, hget]
    simp only [decide_eq_true_eq]
    omega
  · rw [htasks] at hu
    rcases List.mem_or_eq_of_mem_set hu with hu | rfl
    · rw [hcommitted]
      exact List.mem_append_left _ (hn.recorded u hu hpc)
    · rw [hsim]
      exact hrec hpc
  · rw [htasks, map_set_same _ ht hsim]
    rw [hcommitted, List.mem_append] at hr
    rcases hr with hr | hr
    · exact hn.handed r hr
    · rw [hrs r hr]
      exact List.mem_map_of_mem hmem

theorem NodeInv.process {s : SimulationResultBackend} {h : Hash} {n : Node} {bundle : SendMevBundleArgs}
    {targetBlock : UInt64} {cancelled : Except Err Bool} {simulated : Except Err SimMevBundleResponse}
    {rnonce : Except Err UInt64} {p : Processed} (hn : NodeInv h n) (hb : ItemOf h bundle)
    (hp : process s.deps (.ok bundle) targetBlock cancelled simulated rnonce = .ok p) :
    NodeInv h { n with tasks := n.tasks ++ p.handed.toList } := by
  cases ht : p.handed with
  | none => simpa using hn
  | some t =>
    obtain ⟨rfl, hpc, -⟩ := process_handed hp ht
    refine ⟨?_, hn.row, ?_, ?_, ?_⟩
    · intro u hu
      rcases List.mem_append.1 hu with hu | hu
      · exact hn.items u hu
      · rw [List.mem_singleton.1 hu]
        exact hb
    · simpa [hpc] using hn.count
    · intro u hu hpc'
      rcases List.mem_append.1 hu with hu | hu
      · exact hn.recorded u hu hpc'
      · rw [List.mem_singleton.1 hu] at hpc'
        exact absurd hpc hpc'
    · intro r hr
      rw [List.map_append]
      exact List.mem_append_left _ (hn.handed r hr)

theorem NodeInv.step {s : SimulationResultBackend} {h : Hash} {n n' : Node} {a : NodeAction} (hn : NodeInv h n)
    (ha : Assumed s h n a) (hstep : nodeStep s n a = some n') : NodeInv h n' := by
  cases a with
  | process bundle targetBlock cancelled simulated rnonce =>
    simp only [nodeStep] at hstep
    split at hstep
    · rename_i p hp
      cases hstep
      exact hn.process ha hp
    · cases hstep
  | task i action =>
    simp only [nodeStep, Option.bind_eq_bind, Option.bind_eq_some_iff] at hstep
    obtain ⟨t, ht, ⟨t', out'⟩, htask, heq⟩ := hstep
    cases heq
    have hmem := List.mem_of_getElem? ht
    have hitem := hn.items t hmem
    have ⟨hhint, m, hm, hh, hb⟩ := hitem
    subst hh
    cases action with
    | store env =>
      have hstore : storeStep s env t n.out = some (t', out') := htask
      cases storeStep_effect hstore ha.1 hm hb with
      | stats hpc hrow hpub =>
        obtain ⟨r, hr, -⟩ := hrow
        refine hn.set ht rfl rfl hitem rfl (by simp [commitsOf, hpc, hr]) (by simp [commitsOf, hpc])
          (by simp [commitsOf, hpc]) ?_
        -- the row is missing exactly if nothing was recorded before
        by_cases hc : n.committed = []
        · have hnone : n.out.db.bundle m.bundleHash = none := by
            simpa [hc, Option.not_isSome_iff_eq_none] using hn.row
          simp [hpub, hc, hpc, commitsOf, hnone, afterStats, firstSuccess]
        · have hnot : afterStats t.sim (n.out.db.bundle m.bundleHash).isSome ≠ .hints := by
            rw [hn.row.2 hc]
            cases hs : t.sim.success <;> simp [afterStats, hs]
          simp [hpub, hpc, firstSuccess_append hc, hnot]
      | hints hpc hpub hrow =>
        obtain ⟨hint, hext⟩ := ha.2 t ht hpc
        have hone : (s.hintsOf t.bundle t.sim).length = 1 := by
          simp [SimulationResultBackend.hintsOf, hhint, hext, Except.toOption]
        have hrec := hn.recorded t hmem (by simp [hpc])
        refine hn.set ht rfl rfl hitem rfl (by simpa [commitsOf, hpc, hrow] using hn.row)
          (by simpa [commitsOf, hpc] using hrec) (by simp [commitsOf, hpc]) ?_
        simp [hpub, hpc, commitsOf, hone]
      | builder hpc hpub hrow _ =>
        have hrec := hn.recorded t hmem (by simp [hpc])
        refine hn.set ht rfl rfl hitem rfl (by simpa [commitsOf, hpc, hrow] using hn.row)
          (by simpa [commitsOf, hpc] using hrec) (by simp [commitsOf, hpc]) ?_
        simp [hpub, hpc, commitsOf]
    | send =>
      simp only [taskStep, sendStep] at htask
      split at htask
      · split at htask
        · rename_i d hd
          cases htask
          refine hn.set ht rfl rfl ?_ rfl (by simpa [commitsOf] using hn.row)
            (by simpa [commitsOf] using hn.recorded t hmem) (by simp [commitsOf]) (by simp [commitsOf])
          rw [sendBundle_shared hd]
          exact sharedBundle_item hitem
        · cases htask
      · cases htask

/-! ## Whole runs -/

/-- A node that has not seen any bundle of this hash. -/
def Fresh (h : Hash) (n : Node) : Prop :=
  n.out.db.bundle h = none ∧ n.out.published = [] ∧ n.tasks = [] ∧ n.committed = []

/-- Over a run for one bundle hash, once the background calls have finished: the
hint was published once if some simulation result was successful and never
otherwise, if and only if the result recorded first was successful or none was. -/
theorem published_once_iff {s : SimulationResultBackend} {h : Hash} {n₀ n : Node} {tr : List (Node × NodeAction)}
    (hfresh : Fresh h n₀) (hrun : Run (nodeStep s) n₀ tr n) (hok : ∀ p ∈ tr, Assumed s h p.1 p.2)
    (hdone : ∀ t ∈ n.tasks, t.Finished) :
    n.out.published.length = (if n.tasks.any (·.sim.success) then 1 else 0) ↔
      (∀ r, n.committed.head? = some r → r.success = true) ∨ ∀ t ∈ n.tasks, t.sim.success = false := by
  obtain ⟨hrow₀, hpub₀, htasks₀, hcommitted₀⟩ := hfresh
  have hn : NodeInv h n := hrun.inv _ ⟨by simp [htasks₀], by simp [hrow₀, hcommitted₀],
    by simp [hpub₀, htasks₀, hcommitted₀, firstSuccess], by simp [htasks₀], by simp [hcommitted₀]⟩
    (fun _ _ _ hn ha hstep => hn.step ha hstep) hok
  -- nothing is on the way any more, so the published hints are those that the first record allowed
  have hcount : n.out.published.length = firstSuccess n.committed := by
    have hzero : n.tasks.countP (·.store = .hints) = 0 :=
      List.countP_eq_zero.2 fun t ht => by simp [(hdone t ht).1]
    have := hn.count
    omega
  have hrecorded : ∀ t ∈ n.tasks, t.sim ∈ n.committed := fun t ht => hn.recorded t ht (by simp [(hdone t ht).1])
  rw [hcount]
  cases hc : n.committed with
  | nil =>
    have hnone : n.tasks = [] := List.eq_nil_iff_forall_not_mem.2 fun t ht => by simpa [hc] using hrecorded t ht
    simp [hnone, firstSuccess]
  | cons r rs =>
    obtain ⟨t, ht, htr⟩ := List.mem_map.1 (hn.handed r (by simp [hc]))
    cases hr : r.success with
    | true =>
      have hany : n.tasks.any (·.sim.success) = true := List.any_eq_true.2 ⟨t, ht, by rw [htr, hr]⟩
      simp [firstSuccess, hr, hany]
    | false =>
      simp [firstSuccess, hr]

def freshNode : Node := ⟨nothing, [], []⟩

/-- A transaction that its sender may replace, for the blocks 2 and 3. -/
def replaceableTx : SendMevBundleArgs := { flatBundle with replacementUUID := "uuid", inclusion := ⟨2, 3⟩ }

def failedSim : SimMevBundleResponse := { quietSim [0] with success := false, error := "execution reverted" }

/-- An invocation with this target block and simulation result, and then the steps of its background call. -/
def invocation (i : Nat) (targetBlock : UInt64) (sim : SimMevBundleResponse) (calls : Nat) : List NodeAction :=
  .process replaceableTx targetBlock (.ok false) (.ok { sim with stateBlock := targetBlock - 1 }) (.ok 0) ::
    .task i .send :: List.replicate calls (.task i (.store fineEnv))

theorem itemOf_replaceableTx : ItemOf 1 replaceableTx := ⟨rfl, _, rfl, rfl, by simp⟩

/-- A step of a call that is not about to publish a hint. -/
theorem assumed_task {s : SimulationResultBackend} {h : Hash} {n : Node} {i : Nat} {a : TaskAction} (ha : a.Ok)
    (hpc : (n.tasks[i]?).map (·.store) ≠ some .hints) : Assumed s h n (.task i a) :=
  ⟨ha, fun t ht hs => absurd (by rw [ht, Option.map_some, hs]) hpc⟩

theorem published_once_iff_first :
    ∃ tr n, Run (nodeStep bareBackend) freshNode tr n ∧ (∀ p ∈ tr, Assumed bareBackend 1 p.1 p.2) ∧
      (∀ t ∈ n.tasks, t.Finished) ∧ n.out.published.length = 1 := by
  have hfollows : ∃ n, Follows (nodeStep bareBackend) (Assumed bareBackend 1) freshNode
      (invocation 0 2 (quietSim [0]) 3) n ∧ (∀ t ∈ n.tasks, t.Finished) ∧
      n.committed.map (·.success) = [true] ∧ n.tasks.any (·.sim.success) = true :=
    ⟨_, ⟨itemOf_replaceableTx, _, rfl, assumed_task trivial (by decide), _, rfl,
      assumed_task fineEnv_ok (by decide), _, rfl, ⟨fineEnv_ok, fun t ht _ => by cases ht; exact ⟨_, rfl⟩⟩, _, rfl,
      assumed_task fineEnv_ok (by decide), _, rfl, rfl⟩, List.forall_mem_singleton.2 ⟨rfl, rfl⟩, rfl, rfl⟩
  obtain ⟨n, hfollows, hdone, hcommitted, hany⟩ := hfollows
  obtain ⟨tr, hrun, hok⟩ := hfollows.run
  refine ⟨tr, n, hrun, hok, hdone, ?_⟩
  have honce := (published_once_iff ⟨rfl, rfl, rfl, rfl⟩ hrun hok hdone).2 (.inl fun r hr => ?_)
  · rwa [hany, if_pos rfl] at honce
  · have := congrArg List.head? hcommitted
    simpa [hr] using this

/-- The first simulation fails, the next block's is successful, and no hint is published. -/
theorem retried_bundle_unpublished :
    ∃ tr n, Fresh 1 freshNode ∧ Run (nodeStep bareBackend) freshNode tr n ∧
      (∀ p ∈ tr, Assumed bareBackend 1 p.1 p.2) ∧ (∀ t ∈ n.tasks, t.Finished) ∧
      n.tasks.any (·.sim.success) = true ∧ n.out.published = [] := by
  have hfollows : ∃ n, Follows (nodeStep bareBackend) (Assumed bareBackend 1) freshNode
      (invocation 0 2 failedSim 1 ++ invocation 1 3 (quietSim [0]) 2) n ∧ (∀ t ∈ n.tasks, t.Finished) ∧
      n.tasks.any (·.sim.success) = true ∧ n.out.published = [] :=
    ⟨_, ⟨itemOf_replaceableTx, _, rfl, assumed_task trivial (by decide), _, rfl,
      assumed_task fineEnv_ok (by decide), _, rfl, itemOf_replaceableTx, _, rfl, assumed_task trivial (by decide), _, rfl,
      assumed_task fineEnv_ok (by decide), _, rfl, assumed_task fineEnv_ok (by decide), _, rfl, rfl⟩,
      List.forall_mem_cons.2 ⟨⟨rfl, rfl⟩, List.forall_mem_singleton.2 ⟨rfl, rfl⟩⟩, rfl, rfl⟩
  obtain ⟨n, hfollows, hdone, hany, hpub⟩ := hfollows
  obtain ⟨tr, hrun, hok⟩ := hfollows.run
  exact ⟨tr, n, ⟨rfl, rfl, rfl, rfl⟩, hrun, hok, hdone, hany, hpub⟩

end MevShare
