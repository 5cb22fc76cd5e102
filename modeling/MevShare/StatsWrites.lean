import MevShare.SimHistory
/-!
# The writes of `InsertBundleForStats`

A call that is not committed leaves the tables alone. Whether it also returns an
error is another question: on the path of a known bundle the result of the
commit is dropped (`run_err`). A call that is committed writes the row, and for a
new bundle the rows of its body; for a known one it writes two columns that it
did not read (`updatedRow_kept`).
-/
open Lib

namespace MevShare

namespace StatsCall

/-- Everything that the call has to write is in `db'`. -/
def Written (c : StatsCall) (db db' : Database) : Prop :=
  ∃ m, c.bundle.metadata = some m ∧
    match db.bundle m.bundleHash with
    | some stored => db'.bundle m.bundleHash = some (updatedRow c.now c.bundle c.result stored)
    | none => db'.bundle m.bundleHash = some (newRow c.now c.bundle m c.result) ∧
        ∀ el ∈ bodyElements c.bundle m, el ∈ db'.sbundleBody

/-- All or nothing: without an error everything is written, with one nothing is. -/
def Atomic (c : StatsCall) (db : Database) : Prop :=
  ((c.run db).err = none → c.Written db (c.run db).db) ∧
    ((c.run db).err ≠ none → (c.run db).db.sbundle = db.sbundle ∧ (c.run db).db.sbundleBody = db.sbundleBody)

/-- The bundle is known, and of all the statements only the commit fails. -/
def CommitUnseen (c : StatsCall) (db : Database) : Prop :=
  c.faults.begin = false ∧ c.faults.insert = false ∧ c.faults.select = false ∧ c.faults.update = false ∧
    c.faults.commit = true ∧ ∃ m stored, c.bundle.metadata = some m ∧ db.bundle m.bundleHash = some stored

/-- The bundle is new, and the place of one of its body rows is taken by another row. -/
def PlaceTaken (c : StatsCall) (db : Database) : Prop :=
  c.committed db = true ∧ ∃ m, c.bundle.metadata = some m ∧ db.bundle m.bundleHash = none ∧
    ∃ el ∈ bodyElements c.bundle m, el ∉ db.sbundleBody ∧ ∃ r ∈ db.sbundleBody, r.hash = el.hash ∧ r.idx = el.idx

variable {c : StatsCall} {db : Database} {m : MevBundleMetadata}

/-- A call returns no error if it is committed, or if nobody sees that it is not. -/
theorem run_err : (c.run db).err = none ↔ c.committed db = true ∨ c.CommitUnseen db := by
  unfold run insertBundleForStats
  cases hm : c.bundle.metadata with
  | none => simp [committed, CommitUnseen, hm]
  | some m =>
    simp only [committed, CommitUnseen, hm]
    cases hrow : db.bundle m.bundleHash with
    | some stored => split_ifs <;> simp_all
    | none => cases hbody : c.faults.body <;> split_ifs <;> simp_all [bodyElements]

theorem nodup_bodyElements (bundle : SendMevBundleArgs) (m : MevBundleMetadata) :
    ((bodyElements bundle m).map fun r => (r.hash, r.idx)).Nodup := by
  refine List.Nodup.of_map Prod.snd ?_
  have hidx : ((bodyElements bundle m).map fun r => (r.hash, r.idx)).map Prod.snd = List.range m.bodyHashes.length := by
    simp [bodyElements, List.mapIdx_eq_zipIdx_map, Function.comp_def, List.range_eq_range']
  rw [hidx]
  exact List.nodup_range

/-- The body table after a committed call for a new bundle. -/
theorem mem_sbundleBody_run (hm : c.bundle.metadata = some m) (h : c.committed db = true)
    (hnew : db.bundle m.bundleHash = none) {el : DBSbundleBody} :
    el ∈ (c.run db).db.sbundleBody ↔
      el ∈ db.sbundleBody ∨ el ∈ bodyElements c.bundle m ∧ ∀ r ∈ db.sbundleBody, (r.hash, r.idx) ≠ (el.hash, el.idx) := by
  have htable : (c.run db).db.sbundleBody =
      (bodyElements c.bundle m).foldl (insertNew fun r => (r.hash, r.idx)) db.sbundleBody := by
    simp only [committed, hm, hnew, Bool.and_eq_true, Bool.not_eq_true'] at h
    simp_all [run, insertBundleForStats, bodyElements]
  rw [htable]
  exact mem_foldl_insertNew (nodup_bodyElements c.bundle m)

/-- A committed call writes everything, except a body row whose place is taken. -/
theorem written_of_committed (h : c.committed db = true) : c.Written db (c.run db).db ↔ ¬c.PlaceTaken db := by
  cases hm : c.bundle.metadata with
  | none => simp [committed, hm] at h
  | some m =>
    have hrow := (bundle_run hm h m.bundleHash).trans (if_pos rfl)
    cases hstored : db.bundle m.bundleHash with
    | some stored => simpa [Written, PlaceTaken, hm, hstored, rowAfter] using hrow
    | none =>
      rw [hstored] at hrow
      simp only [Written, PlaceTaken, h, hm, hstored, Option.some.injEq, exists_eq_left', true_and, hrow, rowAfter,
        mem_sbundleBody_run hm h hstored, ne_eq, Prod.mk.injEq, not_exists, not_and]
      refine forall₂_congr fun el hel => ?_
      rw [and_iff_right hel, or_iff_not_imp_left]

theorem updatedRow_ne (now : UInt64) (bundle : SendMevBundleArgs) (result : SimMevBundleResponse) (stored : DBSbundle) :
    updatedRow now bundle result stored ≠ stored := by
  intro heq
  -- the count goes up by one, and in 64 bits too it is then another number
  have hcount := (updatedRow_counted now bundle result stored).2.2.2.2.1
  rw [heq] at hcount
  cases hn : stored.simTotalSimCount with
  | none => simp [countedRow, hn] at hcount
  | some n =>
    simp only [countedRow, hn, Option.some.injEq] at hcount
    exact absurd (Int64.left_eq_add.1 hcount) (by decide)

theorem not_written_of_unseen (h : c.CommitUnseen db) : ¬c.Written db (c.run db).db := by
  obtain ⟨-, -, -, -, hcommit, m, stored, hm, hstored⟩ := h
  have hsame : (c.run db).db = db := run_uncommitted (by simp [committed, hm, hcommit])
  simp [hsame, Written, hm, hstored, (updatedRow_ne c.now c.bundle c.result stored).symm]

/-- A call of `InsertBundleForStats` is all or nothing, whatever statements fail,
except when the commit fails for a known bundle, or when a row of a new bundle's
body finds its place taken. -/
theorem insert_atomic_iff (c : StatsCall) (db : Database) : c.Atomic db ↔ ¬c.CommitUnseen db ∧ ¬c.PlaceTaken db := by
  unfold Atomic
  cases hc : c.committed db with
  | true =>
    have hunseen : ¬c.CommitUnseen db := by
      rintro ⟨-, -, -, -, hcommit, m, stored, hm, -⟩
      simp [committed, hm, hcommit] at hc
    have herr : (c.run db).err = none := run_err.2 (.inl hc)
    simp [herr, hunseen, written_of_committed hc]
  | false =>
    have htaken : ¬c.PlaceTaken db := fun h => by simp [PlaceTaken, hc] at h
    by_cases hunseen : c.CommitUnseen db
    · have herr : (c.run db).err = none := run_err.2 (.inr hunseen)
      simp [herr, hunseen, not_written_of_unseen hunseen]
    · have herr : (c.run db).err ≠ none := fun h => by simpa [hc, hunseen] using run_err.1 h
      simp [herr, hunseen, htaken, run_uncommitted hc]

/-- A place can only be taken by a body row without a bundle, which the foreign key of `sbundle_body` excludes. -/
theorem unowned_of_placeTaken (h : c.PlaceTaken db) : ∃ r ∈ db.sbundleBody, db.bundle r.hash = none := by
  obtain ⟨-, m, hm, hnew, el, hel, -, r, hr, hhash, -⟩ := h
  refine ⟨r, hr, ?_⟩
  obtain ⟨i, hi, rfl⟩ := List.mem_mapIdx.1 hel
  rw [hhash]
  exact hnew

/-- The second simulation of a bundle; its commit fails and the call returns no error. -/
theorem insert_commit_unseen :
    let second : StatsCall := { sampleStats false 4 with faults := { commit := true } }
    let db := ((sampleStats true 3).run .empty).db
    (second.run db).err = none ∧ (second.run db).db = db ∧ ¬second.Atomic db := by
  intro second db
  have hunseen : second.CommitUnseen db := ⟨rfl, rfl, rfl, rfl, rfl, _, _, rfl, rfl⟩
  exact ⟨rfl, rfl, fun h => not_written_of_unseen hunseen (h.1 rfl)⟩

end StatsCall

/-! ## A failed simulation after a successful one -/

/-- What the update leaves of a row whose stored result is kept. -/
theorem updatedRow_kept {now : UInt64} {bundle : SendMevBundleArgs} {result : SimMevBundleResponse} {stored : DBSbundle}
    (hstored : stored.simSuccess = true) (hresult : result.success = false) :
    updatedRow now bundle result stored =
      { countedRow bundle result.gasUsed.toInt64 stored with execError := none, revert := [] } := by
  simp [updatedRow, shouldUpdateSim, hstored, hresult]

/-- A failed simulation leaves the successful result of a row alone, apart from
the two counters and the body, if and only if the columns that are written
without being read are empty, or nothing is written. -/
theorem kept_result_iff (c : StatsCall) (db : Database) (m : MevBundleMetadata) (stored : DBSbundle)
    (hm : c.bundle.metadata = some m) (hrow : db.bundle m.bundleHash = some stored) (hstored : stored.simSuccess = true)
    (hresult : c.result.success = false) :
    (∃ gas count body, (c.run db).db.bundle m.bundleHash =
        some { stored with simAllSimsGasUsed := gas, simTotalSimCount := count, body := body }) ↔
      (stored.execError = none ∧ stored.revert = []) ∨ c.committed db = false := by
  cases hc : c.committed db with
  | false =>
    rw [StatsCall.run_uncommitted hc, hrow]
    exact iff_of_true ⟨_, _, _, rfl⟩ (.inr rfl)
  | true =>
    rw [StatsCall.bundle_run hm hc, if_pos rfl, hrow, StatsCall.rowAfter, updatedRow_kept hstored hresult]
    simp only [Option.some.injEq, Bool.true_eq_false, or_false, DBSbundle.mk.injEq, countedRow, true_and]
    constructor
    · rintro ⟨gas, count, body, -, -, -, hexec, hrevert⟩
      exact ⟨hexec.symm, hrevert.symm⟩
    · rintro ⟨hexec, hrevert⟩
      exact ⟨_, _, _, rfl, rfl, rfl, hexec.symm, hrevert.symm⟩

theorem kept_result_sample :
    ∃ stored gas count body, ((sampleStats true 3).run .empty).db.bundle 1 = some stored ∧ stored.simSuccess = true ∧
      ((sampleStats false 4).run ((sampleStats true 3).run .empty).db).db.bundle 1 =
        some { stored with simAllSimsGasUsed := gas, simTotalSimCount := count, body := body } := by
  obtain ⟨gas, count, body, h⟩ := (kept_result_iff (sampleStats false 4) ((sampleStats true 3).run .empty).db _ _ rfl rfl rfl
    rfl).2 (.inl ⟨rfl, rfl⟩)
  exact ⟨_, gas, count, body, rfl, rfl, h⟩

/-- A successful simulation in which a transaction reverted. -/
def revertedStats : StatsCall :=
  { sampleStats true 3 with result := ⟨true, "", 1, 0, 0, 0, 3, [], "execution reverted", [1, 2]⟩ }

/-- After the next failed simulation the row no longer says so. -/
theorem kept_result_emptied :
    let db := (revertedStats.run .empty).db
    let after := ((sampleStats false 4).run db).db
    (db.bundle 1).map (fun r => (r.simSuccess, r.execError, r.revert)) = some (true, some "execution reverted", [1, 2]) ∧
      (after.bundle 1).map (fun r => (r.simSuccess, r.execError, r.revert)) = some (true, none, []) := by
  exact ⟨rfl, rfl⟩

end MevShare
