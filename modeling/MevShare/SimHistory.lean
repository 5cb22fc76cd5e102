import MevShare.Database
/-!
# The simulations of a bundle

`InsertBundleForStats` inserts a row at the first call for a bundle hash and
updates it at the later ones. What the row says is a summary of all the calls
for that hash whose transaction was committed (`Summary`): the two paths of the
code keep it, for every mix of successful and failed simulations, with calls for
other bundles and failing calls in between.
-/
open Lib

namespace MevShare

/-- A call of `InsertBundleForStats`, with the time and the statements that fail. -/
structure StatsCall where
  faults : Faults
  now : UInt64
  bundle : SendMevBundleArgs
  result : SimMevBundleResponse

namespace StatsCall

def run (c : StatsCall) (db : Database) : Inserted := insertBundleForStats c.faults c.now db c.bundle c.result

def hash (c : StatsCall) : Option Hash := c.bundle.metadata.map (·.bundleHash)

/-- No statement of the call fails; the rows for the body of a new bundle must not be empty. -/
def committed (c : StatsCall) (db : Database) : Bool :=
  match c.bundle.metadata with
  | none => false
  | some m =>
    !c.faults.begin && !c.faults.insert && !c.faults.commit &&
      match db.bundle m.bundleHash with
      | some _ => !c.faults.select && !c.faults.update
      | none => !c.faults.body && !m.bodyHashes.isEmpty

/-- The row that a call leaves. -/
def rowAfter (c : StatsCall) (m : MevBundleMetadata) : Option DBSbundle → DBSbundle
  | none => newRow c.now c.bundle m c.result
  | some stored => updatedRow c.now c.bundle c.result stored

variable {c : StatsCall} {db : Database} {m : MevBundleMetadata}

theorem rowAfter_hash {stored : Option DBSbundle} (h : ∀ r ∈ stored, r.hash = m.bundleHash) :
    (c.rowAfter m stored).hash = m.bundleHash := by
  cases stored with
  | none => rfl
  | some r => exact (updatedRow_hash ..).trans (h r rfl)

/-- The tables after a call that was not committed are those before it. -/
theorem run_uncommitted (h : c.committed db = false) : (c.run db).db = db := by
  unfold run insertBundleForStats
  split
  · rfl
  · rename_i m hm
    simp only [committed, hm] at h
    cases hrow : db.bundle m.bundleHash with
    | some stored =>
      simp only [hrow] at h ⊢
      split_ifs with hbegin hinsert hselect hupdate hcommit <;> simp_all
    | none =>
      simp only [hrow] at h ⊢
      split_ifs with hbegin hinsert hbody hcommit <;> simp_all [bodyElements]

theorem run_committed (hm : c.bundle.metadata = some m) (h : c.committed db = true) :
    (c.run db).known = (db.bundle m.bundleHash).isSome ∧
      (c.run db).db.sbundle = upsertRow DBSbundle.hash db.sbundle (c.rowAfter m (db.bundle m.bundleHash)) := by
  simp only [committed, hm, Bool.and_eq_true, Bool.not_eq_true'] at h
  obtain ⟨⟨⟨hbegin, hinsert⟩, hcommit⟩, h⟩ := h
  unfold run insertBundleForStats upsertRow
  cases hrow : db.bundle m.bundleHash with
  | some stored =>
    have hkey : stored.hash = m.bundleHash := key_of_row hrow
    simp only [hrow, Bool.and_eq_true, Bool.not_eq_true'] at h
    unfold Database.bundle at hrow
    simp [hm, hbegin, hinsert, hcommit, h, rowAfter, hkey, hrow, Database.bundle]
  | none =>
    simp only [hrow, Bool.and_eq_true, Bool.not_eq_true'] at h
    unfold Database.bundle at hrow
    simp_all [rowAfter, newRow, Database.bundle, bodyElements]

/-- Which row a look-up finds after a committed call. -/
theorem bundle_run (hm : c.bundle.metadata = some m) (h : c.committed db = true) (k : Hash) :
    (c.run db).db.bundle k =
      if m.bundleHash = k then some (c.rowAfter m (db.bundle m.bundleHash)) else db.bundle k := by
  have hkey : (c.rowAfter m (db.bundle m.bundleHash)).hash = m.bundleHash := rowAfter_hash fun r hr => key_of_row hr
  rw [Database.bundle, (run_committed hm h).2, row_upsertRow, hkey]
  rfl

end StatsCall

/-! ## The summary -/

/-- The call whose result the row shows: the last successful one, or the last one if none was. -/
def decisive (calls : List StatsCall) : Option StatsCall := (calls.filter (·.result.success)).getLast?.or calls.getLast?

def totalGas (calls : List StatsCall) : Nat := (calls.map (·.result.gasUsed.toNat)).sum

/-- The row is a summary of the calls. The two counters are columns of 64 bits. -/
structure Summary (calls : List StatsCall) (r : DBSbundle) : Prop where
  first : ∃ c m rest, calls = c :: rest ∧ c.bundle.metadata = some m ∧ r.hash = m.bundleHash ∧
    r.matchingHash = m.matchingHash ∧ r.signer = m.signer ∧ r.allowMatching = c.bundle.hasHintHash ∧ r.cancelled = false
  count : r.simTotalSimCount = some (Int64.ofNat calls.length)
  gas : r.simAllSimsGasUsed = some (Int64.ofNat (totalGas calls))
  success : r.simSuccess = calls.any (·.result.success)
  shown : ∃ c, decisive calls = some c ∧ r.simError = nullString c.result.error ∧
    r.simEffGasPrice = amount c.result c.result.mevGasPrice ∧ r.simProfit = amount c.result c.result.profit ∧
    r.simRefundableValue = amount c.result c.result.refundableValue ∧ r.simGasUsed = some c.result.gasUsed.toInt64
  body : calls.getLast?.map (·.bundle) = some r.body

theorem toInt64_eq (g : UInt64) : g.toInt64 = Int64.ofNat g.toNat := by
  rw [← UInt64.toInt64_ofNat', UInt64.ofNat_toNat]

/-- A failed simulation after a successful one is not shown, any other one is. -/
theorem decisive_snoc (calls : List StatsCall) (c : StatsCall) :
    decisive (calls ++ [c]) = if calls.any (·.result.success) && !c.result.success then decisive calls else some c := by
  unfold decisive
  cases hc : c.result.success with
  | true => simp [hc]
  | false =>
    simp only [List.filter_append, List.filter_cons, hc, Bool.false_eq_true, ↓reduceIte, List.filter_nil, List.append_nil,
      List.getLast?_concat, Bool.not_false, Bool.and_true]
    cases hlast : (calls.filter (·.result.success)).getLast? with
    | none =>
      rw [List.getLast?_eq_none_iff, List.filter_eq_nil_iff] at hlast
      rw [if_neg (by simpa using hlast), Option.none_or]
    | some d =>
      have hmem := List.mem_filter.1 (List.mem_of_getLast? hlast)
      rw [if_pos (List.any_eq_true.2 ⟨d, hmem.1, hmem.2⟩)]
      rfl

theorem summary_new (c : StatsCall) {m : MevBundleMetadata} (hm : c.bundle.metadata = some m) :
    Summary [c] (c.rowAfter m none) where
  first := ⟨c, m, [], rfl, hm, rfl, rfl, rfl, rfl, rfl⟩
  count := rfl
  gas := by simp [StatsCall.rowAfter, newRow, totalGas, toInt64_eq]
  success := by simp [StatsCall.rowAfter, newRow]
  shown := ⟨c, by cases hc : c.result.success <;> simp [decisive, hc], rfl, rfl, rfl, rfl, rfl⟩
  body := rfl

/-- The columns that every call of a known bundle treats the same way. -/
theorem updatedRow_counted (now : UInt64) (bundle : SendMevBundleArgs) (result : SimMevBundleResponse) (r : DBSbundle) :
    (updatedRow now bundle result r).matchingHash = r.matchingHash ∧ (updatedRow now bundle result r).signer = r.signer ∧
      (updatedRow now bundle result r).allowMatching = r.allowMatching ∧
      (updatedRow now bundle result r).cancelled = r.cancelled ∧
      (updatedRow now bundle result r).simTotalSimCount = (countedRow bundle result.gasUsed.toInt64 r).simTotalSimCount ∧
      (updatedRow now bundle result r).simAllSimsGasUsed = (countedRow bundle result.gasUsed.toInt64 r).simAllSimsGasUsed := by
  unfold updatedRow
  dsimp only
  split <;> exact ⟨rfl, rfl, rfl, rfl, rfl, rfl⟩

theorem Summary.snoc {calls : List StatsCall} {r : DBSbundle} (h : Summary calls r) (c : StatsCall) (m : MevBundleMetadata) :
    Summary (calls ++ [c]) (c.rowAfter m (some r)) := by
  obtain ⟨hmatching, hsigner, hallow, hcancelled, hcount, hgas⟩ := updatedRow_counted c.now c.bundle c.result r
  have hshould : shouldUpdateSim r c.result = !(calls.any (·.result.success) && !c.result.success) := by
    unfold shouldUpdateSim
    rw [h.success]
    cases calls.any (·.result.success) <;> simp
  refine ⟨?_, ?_, ?_, ?_, ?_, ?_⟩
  · obtain ⟨d, md, rest, rfl, hmd, hhash, hm, hs, ha, hc⟩ := h.first
    exact ⟨d, md, rest ++ [c], rfl, hmd, (updatedRow_hash ..).trans hhash, hmatching.trans hm, hsigner.trans hs,
      hallow.trans ha, hcancelled.trans hc⟩
  · rw [StatsCall.rowAfter, hcount, countedRow, h.count, List.length_append, Int64.ofNat_add]
    rfl
  · rw [StatsCall.rowAfter, hgas, countedRow, h.count, h.gas, toInt64_eq, totalGas, totalGas, List.map_append, List.sum_append,
      Int64.ofNat_add]
    simp
  · rw [List.any_append, StatsCall.rowAfter, updatedRow, hshould, h.success.symm]
    cases hstored : r.simSuccess <;> cases hresult : c.result.success <;> simp [hstored, hresult, countedRow]
  · rw [decisive_snoc, StatsCall.rowAfter, updatedRow, hshould]
    cases hkeep : calls.any (·.result.success) && !c.result.success with
    | true => exact h.shown
    | false => exact ⟨c, rfl, rfl, rfl, rfl, rfl, rfl⟩
  · rw [List.getLast?_concat, StatsCall.rowAfter, updatedRow_body]
    rfl

/-! ## Whole histories -/

/-- The database, and the committed calls for one hash with the `known` they returned. -/
structure History where
  db : Database
  calls : List (StatsCall × Bool)

def History.call (h : Hash) (s : History) (c : StatsCall) : History where
  db := (c.run s.db).db
  calls := if c.hash = some h ∧ c.committed s.db then s.calls ++ [(c, (c.run s.db).known)] else s.calls

/-- What the database has about the hash is a summary of the calls, and the first one found no row. -/
structure History.Sound (h : Hash) (s : History) : Prop where
  row : (s.calls = [] ∧ s.db.bundle h = none) ∨ ∃ r, s.db.bundle h = some r ∧ Summary (s.calls.map Prod.fst) r
  known : ∀ i c known, s.calls[i]? = some (c, known) → (known = false ↔ i = 0)

theorem Summary.ne_nil {calls : List StatsCall} {r : DBSbundle} (h : Summary calls r) : calls ≠ [] := by
  obtain ⟨c, m, rest, rfl, -⟩ := h.first
  exact List.cons_ne_nil _ _

/-- A committed call for the hash. -/
theorem History.Sound.snoc {h : Hash} {s s' : History} (hs : s.Sound h) {c : StatsCall} {m : MevBundleMetadata}
    (hm : c.bundle.metadata = some m) (hrow : s'.db.bundle h = some (c.rowAfter m (s.db.bundle h)))
    (hcalls : s'.calls = s.calls ++ [(c, (s.db.bundle h).isSome)]) : s'.Sound h := by
  refine ⟨.inr ⟨_, hrow, ?_⟩, fun i d known hi => ?_⟩
  · rw [hcalls, List.map_append]
    rcases hs.row with ⟨hnil, hnone⟩ | ⟨r, hr, hsummary⟩
    · rw [hnil, hnone]
      exact summary_new c hm
    · rw [hr]
      exact hsummary.snoc c m
  · rw [hcalls, List.getElem?_append] at hi
    split at hi
    · exact hs.known i d known hi
    · -- the new call is the last one, and the only one if there was no row
      obtain ⟨hi, heq⟩ := List.getElem?_eq_some_iff.1 hi
      have hlast : i = s.calls.length := by
        rw [List.length_singleton] at hi
        omega
      subst hlast
      simp only [Nat.sub_self, List.getElem_cons_zero, Prod.mk.injEq] at heq
      rw [← heq.2]
      rcases hs.row with ⟨hnil, hnone⟩ | ⟨r, hr, hsummary⟩
      · simp [hnil, hnone]
      · simpa [hr] using hsummary.ne_nil

theorem History.Sound.call {h : Hash} {s : History} (hs : s.Sound h) (c : StatsCall) : (s.call h c).Sound h := by
  cases hcommitted : c.committed s.db with
  | false =>
    have hsame : s.call h c = s := by simp [History.call, StatsCall.run_uncommitted hcommitted, hcommitted]
    rw [hsame]
    exact hs
  | true =>
    cases hm : c.bundle.metadata with
    | none => simp [StatsCall.committed, hm] at hcommitted
    | some m =>
      have hrow := StatsCall.bundle_run hm hcommitted h
      by_cases hh : m.bundleHash = h
      · subst hh
        refine hs.snoc hm (hrow.trans (if_pos rfl)) ?_
        simp [History.call, StatsCall.hash, hm, hcommitted, (StatsCall.run_committed hm hcommitted).1]
      · have hcalls : (s.call h c).calls = s.calls := by simp [History.call, StatsCall.hash, hm, hh]
        have hkept : (s.call h c).db.bundle h = s.db.bundle h := hrow.trans (if_neg hh)
        exact ⟨by rw [hkept, hcalls]; exact hs.row, by rw [hcalls]; exact hs.known⟩

def sampleStats (success : Bool) (gasUsed : UInt64) : StatsCall where
  faults := .none
  now := 0
  bundle := ⟨"v0.1", "", ⟨2, 2⟩, [⟨none, some sampleTx, none, false, ""⟩], ⟨[], []⟩, none,
    some { MevBundleMetadata.empty with bundleHash := 1, bodyHashes := [2] }⟩
  result := ⟨success, "", 1, 0, 0, 0, gasUsed, [], "", []⟩

end MevShare
