import MevShare.CancelledRows
import MevShare.StatsWrites
/-!
# The tables beside `sbundle`

`sbundle_body` lists the elements of a bundle's body and `sbundle_builder` is
what the block builder reads. Over every sequence of calls, with any statements
failing, each is tied to the calls that wrote it: the body rows of a bundle are
those of the call that made its `sbundle` row, and are never written again; the
builder's row is that of the last `InsertBundleForBuilder`.

A cancellation marks the row of `sbundle` only. The column `cancelled` of
`sbundle_builder` is never set.
-/
open Lib

namespace MevShare

/-! ## What one call writes -/

/-- The builder's row of a hash is written. -/
def StoresForBuilder (h : Hash) : TableCall → Prop
  | .insertForBuilder fails bundle _ _ => fails = false ∧ bundle.metadata.map (·.bundleHash) = some h
  | _ => False

inductive TableEffect (db : Database) : TableCall → Database → Prop where
  | unchanged {a} : (∀ h, ¬Stores h db a) → (∀ h, ¬StoresForBuilder h a) → TableEffect db a db
  | stored {c m} : c.bundle.metadata = some m → c.committed db = true → TableEffect db (.insertForStats c) (c.run db).db
  | forBuilder {bundle m result targetBlock} : bundle.metadata = some m →
    TableEffect db (.insertForBuilder false bundle result targetBlock)
      { db with
        sbundleBuilder := upsertRow DBSbundleBuilder.hash db.sbundleBuilder
          (builderRow ((db.builder m.bundleHash).any (·.cancelled)) bundle m result targetBlock) }
  | cancelled {hash signer} :
    TableEffect db (.cancel false hash signer) { db with sbundle := db.sbundle.map (cancelRow hash signer) }

theorem tableEffect_of_step {db db' : Database} {a : TableCall} (h : tableStep db a = some db') : TableEffect db a db' := by
  cases a with
  | insertForStats c =>
    cases h
    cases hm : c.bundle.metadata with
    | none =>
      have hc : c.committed db = false := by simp [StatsCall.committed, hm]
      rw [StatsCall.run_uncommitted hc]
      exact .unchanged (fun h hs => by simp [Stores, hc] at hs) fun _ => id
    | some m =>
      cases hc : c.committed db with
      | false =>
        rw [StatsCall.run_uncommitted hc]
        exact .unchanged (fun h hs => by simp [Stores, hc] at hs) fun _ => id
      | true => exact .stored hm hc
  | insertForBuilder fails bundle result targetBlock =>
    simp only [tableStep, insertBundleForBuilder] at h
    cases hm : bundle.metadata with
    | none =>
      simp only [hm] at h
      cases h
      exact .unchanged (fun _ => id) fun h hs => by simp [StoresForBuilder, hm] at hs
    | some m =>
      cases fails with
      | true =>
        simp only [hm] at h
        cases h
        exact .unchanged (fun _ => id) fun h hs => by cases hs.1
      | false =>
        simp only [hm] at h
        cases h
        exact .forBuilder hm
  | cancel fails hash signer =>
    simp only [tableStep, cancelBundleByHash] at h
    cases fails with
    | true =>
      cases h
      exact .unchanged (fun _ => id) fun _ => id
    | false =>
      simp only [Bool.false_eq_true, ↓reduceIte] at h
      split at h
      · rename_i hok
        cases h
        split_ifs at hok
        cases hok
        exact .cancelled
      · cases h
        exact .unchanged (fun _ => id) fun _ => id
  | get =>
    cases h
    exact .unchanged (fun _ => id) fun _ => id

/-- A committed call leaves `sbundle_builder` alone, and `sbundle_body` too if the bundle is known. -/
theorem StatsCall.run_other_tables {c : StatsCall} {db : Database} {m : MevBundleMetadata} (hm : c.bundle.metadata = some m)
    (h : c.committed db = true) :
    (c.run db).db.sbundleBuilder = db.sbundleBuilder ∧
      (c.run db).db.sbundleBody = match db.bundle m.bundleHash with
        | some _ => db.sbundleBody
        | none => (bodyElements c.bundle m).foldl (insertNew fun r => (r.hash, r.idx)) db.sbundleBody := by
  cases hrow : db.bundle m.bundleHash with
  | some stored =>
    simp only [committed, hm, hrow, Bool.and_eq_true, Bool.not_eq_true'] at h
    simp_all [run, insertBundleForStats]
  | none =>
    simp only [committed, hm, hrow, Bool.and_eq_true, Bool.not_eq_true'] at h
    simp_all [run, insertBundleForStats, bodyElements]

/-! ## Body rows -/

/-- The first call of the run that stores the hash. -/
def FirstInsert (tr : List (Database × TableCall)) (h : Hash) (c : StatsCall) : Prop :=
  ∃ pre db₀ post, tr = pre ++ (db₀, .insertForStats c) :: post ∧ c.hash = some h ∧ c.committed db₀ = true ∧
    ∀ p ∈ pre, ¬Stores h p.1 p.2

theorem FirstInsert.snoc {tr : List (Database × TableCall)} {h : Hash} {c : StatsCall} (hf : FirstInsert tr h c)
    (p : Database × TableCall) : FirstInsert (tr ++ [p]) h c := by
  obtain ⟨pre, db₀, post, rfl, hrest⟩ := hf
  exact ⟨pre, db₀, post ++ [p], by simp, hrest⟩

def Database.bodyOf (db : Database) (h : Hash) : List DBSbundleBody := db.sbundleBody.filter fun r => r.hash = h

/-- The body rows of a bundle are those of the call that made its row, and there are no others. -/
structure BodyRows (tr : List (Database × TableCall)) (db : Database) : Prop where
  owned : ∀ r ∈ db.sbundleBody, (db.bundle r.hash).isSome
  first : ∀ h, (db.bundle h).isSome →
    ∃ c m, FirstInsert tr h c ∧ c.bundle.metadata = some m ∧ db.bodyOf h = bodyElements c.bundle m

theorem hash_of_mem_bodyElements {bundle : SendMevBundleArgs} {m : MevBundleMetadata} {el : DBSbundleBody}
    (h : el ∈ bodyElements bundle m) : el.hash = m.bundleHash := by
  obtain ⟨i, hi, rfl⟩ := List.mem_mapIdx.1 h
  rfl

section
variable {tr : List (Database × TableCall)} {db : Database}

theorem BodyRows.snoc {db' : Database} (hb : BodyRows tr db) (p : Database × TableCall)
    (hbody : db'.sbundleBody = db.sbundleBody) (hrows : ∀ h, (db'.bundle h).isSome = (db.bundle h).isSome) :
    BodyRows (tr ++ [p]) db' := by
  refine ⟨fun r hr => ?_, fun h hsome => ?_⟩
  · rw [hrows]
    exact hb.owned r (hbody ▸ hr)
  · rw [hrows] at hsome
    obtain ⟨c, m, hf, hm, heq⟩ := hb.first h hsome
    exact ⟨c, m, hf.snoc p, hm, by rw [Database.bodyOf, hbody]; exact heq⟩

/-- A new bundle's body rows all find their place free. -/
theorem BodyRows.sbundleBody_new (hb : BodyRows tr db) {c : StatsCall} {m : MevBundleMetadata}
    (hm : c.bundle.metadata = some m) (hc : c.committed db = true) (hnew : db.bundle m.bundleHash = none) :
    (c.run db).db.sbundleBody = db.sbundleBody ++ bodyElements c.bundle m := by
  rw [(StatsCall.run_other_tables hm hc).2, hnew]
  refine foldl_insertNew_of_free (StatsCall.nodup_bodyElements c.bundle m) fun el hel r hr heq => ?_
  have hhash : r.hash = m.bundleHash := (Prod.mk.inj heq).1.trans (hash_of_mem_bodyElements hel)
  have howned := hb.owned r hr
  rw [hhash, hnew] at howned
  cases howned

theorem bodyOf_new {db' : Database} {bundle : SendMevBundleArgs} {m : MevBundleMetadata} {h : Hash}
    (htable : db'.sbundleBody = db.sbundleBody ++ bodyElements bundle m) :
    db'.bodyOf h = db.bodyOf h ++ if m.bundleHash = h then bodyElements bundle m else [] := by
  rw [Database.bodyOf, htable, List.filter_append, Database.bodyOf]
  congr 1
  split
  · rename_i hk
    exact List.filter_eq_self.2 fun el hel => decide_eq_true ((hash_of_mem_bodyElements hel).trans hk)
  · rename_i hk
    exact List.filter_eq_nil_iff.2 fun el hel heq =>
      hk ((hash_of_mem_bodyElements hel).symm.trans (of_decide_eq_true heq))

theorem BodyRows.bodyOf_none (hb : BodyRows tr db) {h : Hash} (hnone : db.bundle h = none) : db.bodyOf h = [] := by
  refine List.filter_eq_nil_iff.2 fun r hr heq => ?_
  have howned := hb.owned r hr
  rw [of_decide_eq_true heq, hnone] at howned
  cases howned

/-- The call makes the row of its bundle. -/
theorem BodyRows.made (hb : BodyRows tr db) {c : StatsCall} {m : MevBundleMetadata} (hm : c.bundle.metadata = some m)
    (hc : c.committed db = true) (hnew : db.bundle m.bundleHash = none)
    (hnever : ∀ p ∈ tr, ¬Stores m.bundleHash p.1 p.2) :
    BodyRows (tr ++ [(db, .insertForStats c)]) (c.run db).db := by
  have hrow := StatsCall.bundle_run hm hc
  have htable := hb.sbundleBody_new hm hc hnew
  refine ⟨fun r hr => ?_, fun h hsome => ?_⟩
  · rw [hrow]
    rw [htable] at hr
    split
    · rfl
    · rename_i hk
      rcases List.mem_append.1 hr with hr | hr
      · exact hb.owned r hr
      · exact absurd (hash_of_mem_bodyElements hr).symm hk
  · rw [bodyOf_new htable]
    by_cases hk : m.bundleHash = h
    · subst hk
      refine ⟨c, m, ⟨tr, db, [], rfl, by rw [StatsCall.hash, hm]; rfl, hc, hnever⟩, hm, ?_⟩
      rw [hb.bodyOf_none hnew, if_pos rfl, List.nil_append]
    · rw [hrow, if_neg hk] at hsome
      obtain ⟨c₀, m₀, hf, hm₀, heq⟩ := hb.first h hsome
      exact ⟨c₀, m₀, hf.snoc _, hm₀, by rw [if_neg hk, List.append_nil, heq]⟩

theorem BodyRows.stored (hb : BodyRows tr db) {c : StatsCall} {m : MevBundleMetadata} (hm : c.bundle.metadata = some m)
    (hc : c.committed db = true) (hnever : ∀ h, db.bundle h = none → ∀ p ∈ tr, ¬Stores h p.1 p.2) :
    BodyRows (tr ++ [(db, .insertForStats c)]) (c.run db).db := by
  cases hknown : db.bundle m.bundleHash with
  | some stored =>
    refine hb.snoc _ (by rw [(StatsCall.run_other_tables hm hc).2, hknown]) fun h => ?_
    rw [StatsCall.bundle_run hm hc]
    split
    · rename_i hk
      rw [← hk, hknown]
      rfl
    · rfl
  | none => exact hb.made hm hc hknown (hnever _ hknown)

theorem bodyRows_run (hrun : Run tableStep .empty tr db) : BodyRows tr db := by
  induction hrun with
  | nil => exact ⟨fun r hr => absurd hr List.not_mem_nil, fun h hsome => by cases hsome⟩
  | @snoc tr db a db' hrun hstep ih =>
    cases tableEffect_of_step hstep with
    | unchanged => exact ih.snoc _ rfl fun _ => rfl
    | stored hm hc => exact ih.stored hm hc fun h => (signer_run hrun h).1
    | forBuilder => exact ih.snoc _ rfl fun _ => rfl
    | cancelled => exact ih.snoc _ rfl fun h => by rw [bundle_cancelRow rfl, Option.isSome_map]

end

/-- In every sequence of calls from an empty database: a body row belongs to a
bundle of `sbundle`; the body rows of a bundle are those of the first committed
call with its hash, in their order, whatever was sent since; and an insert is all
or nothing unless the commit fails for a known bundle. -/
theorem body_rows_of_first (tr : List (Database × TableCall)) (db : Database) (hrun : Run tableStep .empty tr db) :
    (∀ r ∈ db.sbundleBody, (db.bundle r.hash).isSome) ∧
    (∀ h, (db.bundle h).isSome →
      ∃ c m, FirstInsert tr h c ∧ c.bundle.metadata = some m ∧ db.bodyOf h = bodyElements c.bundle m) ∧
    ∀ c : StatsCall, ¬c.CommitUnseen db → c.Atomic db := by
  have hb := bodyRows_run hrun
  refine ⟨hb.owned, hb.first, fun c hseen => ⟨fun herr => ?_, fun herr => ?_⟩⟩
  · have hc : c.committed db = true := (StatsCall.run_err.1 herr).resolve_right hseen
    refine (StatsCall.written_of_committed hc).2 fun htaken => ?_
    obtain ⟨r, hr, hnone⟩ := StatsCall.unowned_of_placeTaken htaken
    have howned := hb.owned r hr
    rw [hnone] at howned
    cases howned
  · have hc : c.committed db = false := Bool.eq_false_iff.2 fun hc => herr (StatsCall.run_err.2 (.inl hc))
    rw [StatsCall.run_uncommitted hc]
    exact ⟨rfl, rfl⟩

/-- A bundle is stored and simulated again, with a failing update in between. -/
theorem body_rows_of_first_again :
    ∃ tr db, Run tableStep .empty tr db ∧ tr.length = 3 ∧ (db.bundle 1).isSome ∧
      ∃ c m, FirstInsert tr 1 c ∧ c.bundle.metadata = some m ∧ db.bodyOf 1 = bodyElements c.bundle m := by
  have hrun : ∃ tr db, Run tableStep .empty tr db ∧ tr.length = 3 ∧ (db.bundle 1).isSome :=
    ⟨_, _, .snoc (.snoc (.snoc .nil
      (show tableStep _ (.insertForStats (sampleStats true 3)) = some _ from rfl))
      (show tableStep _ (.insertForStats { sampleStats false 4 with faults := { update := true } }) = some _ from rfl))
      (show tableStep _ (.insertForStats (sampleStats false 5)) = some _ from rfl), rfl, rfl⟩
  obtain ⟨tr, db, hrun, hlength, hsome⟩ := hrun
  exact ⟨tr, db, hrun, hlength, hsome, (body_rows_of_first tr db hrun).2.1 1 hsome⟩

/-! ## The builder's rows -/

/-- The row is that of the last call of the run that wrote the builder's row of the hash. -/
def LastForBuilder (tr : List (Database × TableCall)) (h : Hash) (r : DBSbundleBuilder) : Prop :=
  ∃ pre db₀ bundle m result targetBlock post,
    tr = pre ++ (db₀, .insertForBuilder false bundle result targetBlock) :: post ∧ bundle.metadata = some m ∧
    m.bundleHash = h ∧ r = builderRow false bundle m result targetBlock ∧ ∀ p ∈ post, ¬StoresForBuilder h p.2

structure BuilderRows (tr : List (Database × TableCall)) (db : Database) : Prop where
  keys : (db.sbundleBuilder.map DBSbundleBuilder.hash).Nodup
  never : ∀ h, db.builder h = none → ∀ p ∈ tr, ¬StoresForBuilder h p.2
  last : ∀ h r, db.builder h = some r → LastForBuilder tr h r

section
variable {tr : List (Database × TableCall)} {db : Database} {h : Hash}

theorem LastForBuilder.snoc {r : DBSbundleBuilder} (hl : LastForBuilder tr h r) {p : Database × TableCall}
    (hnot : ¬StoresForBuilder h p.2) : LastForBuilder (tr ++ [p]) h r := by
  obtain ⟨pre, db₀, bundle, m, result, targetBlock, post, rfl, hm, hh, hr, hpost⟩ := hl
  refine ⟨pre, db₀, bundle, m, result, targetBlock, post ++ [p], by simp, hm, hh, hr, fun q hq => ?_⟩
  rcases List.mem_append.1 hq with hq | hq
  · exact hpost q hq
  · rw [List.mem_singleton.1 hq]
    exact hnot

theorem LastForBuilder.not_cancelled {r : DBSbundleBuilder} (hl : LastForBuilder tr h r) : r.cancelled = false := by
  obtain ⟨_, _, _, _, _, _, _, -, -, -, rfl, -⟩ := hl
  rfl

theorem not_stored_snoc (hnever : ∀ p ∈ tr, ¬StoresForBuilder h p.2) {p : Database × TableCall}
    (hnot : ¬StoresForBuilder h p.2) : ∀ q ∈ tr ++ [p], ¬StoresForBuilder h q.2 := by
  intro q hq
  rcases List.mem_append.1 hq with hq | hq
  · exact hnever q hq
  · rw [List.mem_singleton.1 hq]
    exact hnot

theorem BuilderRows.snoc {db' : Database} (hb : BuilderRows tr db) {p : Database × TableCall}
    (hrows : db'.sbundleBuilder = db.sbundleBuilder) (hnot : ∀ h, ¬StoresForBuilder h p.2) :
    BuilderRows (tr ++ [p]) db' := by
  have hbuilder (h : Hash) : db'.builder h = db.builder h := by rw [Database.builder, hrows, Database.builder]
  refine ⟨hrows ▸ hb.keys, fun h hnone => ?_, fun h r hr => ?_⟩
  · exact not_stored_snoc (hb.never h (hbuilder h ▸ hnone)) (hnot h)
  · exact (hb.last h r (hbuilder h ▸ hr)).snoc (hnot h)

theorem BuilderRows.upsert (hb : BuilderRows tr db) {bundle : SendMevBundleArgs} {m : MevBundleMetadata}
    {result : SimMevBundleResponse} {targetBlock : UInt64} (hm : bundle.metadata = some m) :
    BuilderRows (tr ++ [(db, .insertForBuilder false bundle result targetBlock)])
      { db with
        sbundleBuilder := upsertRow DBSbundleBuilder.hash db.sbundleBuilder
          (builderRow ((db.builder m.bundleHash).any (·.cancelled)) bundle m result targetBlock) } := by
  have hcancelled : (db.builder m.bundleHash).any (·.cancelled) = false := by
    cases hrow : db.builder m.bundleHash with
    | none => rfl
    | some r => exact (hb.last _ r hrow).not_cancelled
  have hnot {h : Hash} (hk : m.bundleHash ≠ h) :
      ¬StoresForBuilder h (.insertForBuilder false bundle result targetBlock) := by
    rintro ⟨-, hhash⟩
    rw [hm, Option.map_some] at hhash
    exact hk (Option.some.inj hhash)
  rw [hcancelled]
  refine ⟨nodup_upsertRow hb.keys, fun h hnone => ?_, fun h r hr => ?_⟩
  · rw [Database.builder, row_upsertRow] at hnone
    split at hnone
    · cases hnone
    · rename_i hk
      exact not_stored_snoc (hb.never h hnone) (hnot hk)
  · rw [Database.builder, row_upsertRow] at hr
    split at hr
    · rename_i hk
      cases hr
      exact ⟨tr, db, bundle, m, result, targetBlock, [], rfl, hm, hk, rfl, fun p hp => absurd hp List.not_mem_nil⟩
    · rename_i hk
      exact (hb.last h r hr).snoc (hnot hk)

theorem builderRows_run (hrun : Run tableStep .empty tr db) : BuilderRows tr db := by
  induction hrun with
  | nil => exact ⟨List.nodup_nil, fun _ _ p hp => absurd hp List.not_mem_nil, fun _ _ hr => by cases hr⟩
  | @snoc tr db a db' hrun hstep ih =>
    cases tableEffect_of_step hstep with
    | unchanged _ hnot => exact ih.snoc rfl hnot
    | stored hm hc => exact ih.snoc (StatsCall.run_other_tables hm hc).1 fun _ => id
    | forBuilder hm => exact ih.upsert hm
    | cancelled => exact ih.snoc rfl fun _ => id

end

/-- In every sequence of calls from an empty database a hash has at most one row
in `sbundle_builder`. It is there if and only if some `InsertBundleForBuilder` for
the hash went through, it is that of the last one, and it is not marked as
cancelled, whatever was cancelled. -/
theorem builder_row_latest (tr : List (Database × TableCall)) (db : Database) (hrun : Run tableStep .empty tr db) :
    (db.sbundleBuilder.map DBSbundleBuilder.hash).Nodup ∧
    ∀ h, ((∃ p ∈ tr, StoresForBuilder h p.2) ↔ ∃ r ∈ db.sbundleBuilder, r.hash = h) ∧
      ∀ r ∈ db.sbundleBuilder, r.hash = h → LastForBuilder tr h r ∧ r.cancelled = false := by
  have hb := builderRows_run hrun
  refine ⟨hb.keys, fun h => ?_⟩
  have hlast : ∀ r ∈ db.sbundleBuilder, r.hash = h → LastForBuilder tr h r := by
    rintro r hr rfl
    exact hb.last r.hash r (row_of_mem hb.keys hr)
  refine ⟨⟨?_, ?_⟩, fun r hr hh => ⟨hlast r hr hh, (hlast r hr hh).not_cancelled⟩⟩
  · rintro ⟨p, hp, hstores⟩
    by_contra hnone
    exact hb.never h (row_eq_none.2 fun r hr hh => hnone ⟨r, hr, hh⟩) p hp hstores
  · rintro ⟨r, hr, hh⟩
    obtain ⟨pre, db₀, bundle, m, result, targetBlock, post, rfl, hm, hhash, -, -⟩ := hlast r hr hh
    exact ⟨_, List.mem_append_right _ List.mem_cons_self, rfl, by rw [hm, Option.map_some, hhash]⟩

/-- A bundle is stored, written for the builder twice, and cancelled by its
signer: the builder's row is the second one and is not marked. -/
theorem builder_row_latest_cancelled :
    ∃ tr db, Run tableStep .empty tr db ∧ CancelledIn 1 db ∧
      ∃ r ∈ db.sbundleBuilder, r.hash = 1 ∧ r.block = 6 ∧ LastForBuilder tr 1 r ∧ r.cancelled = false := by
  have hrun : ∃ tr db, Run tableStep .empty tr db ∧ CancelledIn 1 db ∧
      ∃ r ∈ db.sbundleBuilder, r.hash = 1 ∧ r.block = 6 :=
    let c := sampleStats true 3
    ⟨_, _, .snoc (.snoc (.snoc (.snoc .nil
      (show tableStep _ (.insertForStats c) = some _ from rfl))
      (show tableStep _ (.insertForBuilder false c.bundle c.result 5) = some _ from rfl))
      (show tableStep _ (.insertForBuilder false c.bundle c.result 6) = some _ from rfl))
      (show tableStep _ (.cancel false 1 0) = some _ from rfl), ⟨_, rfl, rfl⟩, _, List.mem_singleton_self _, rfl, rfl⟩
  obtain ⟨tr, db, hrun, hcancelled, r, hr, hhash, hblock⟩ := hrun
  exact ⟨tr, db, hrun, hcancelled, r, hr, hhash, hblock, ((builder_row_latest tr db hrun).2 1).2 r hr hhash⟩

end MevShare
