import MevShare.Lib.Runs
import MevShare.SimHistory
/-!
# Cancelled rows

What the writes to `sbundle` do to a cancelled row: none of them revives it or
moves it under another hash, so a look-up by matching hash does not find it any
more and it cannot be cancelled again. The signer of a row is that of the insert
that made it, so only that signer can cancel it.

The statements hold for any bundles, in any order of the calls and with any
statements failing.
-/
open Lib

namespace MevShare

/-! ## The calls -/

inductive TableCall where
  | insertForStats (c : StatsCall)
  | insertForBuilder (fails : Bool) (bundle : SendMevBundleArgs) (result : SimMevBundleResponse) (targetBlock : UInt64)
  | cancel (fails : Bool) (hash : Hash) (signer : Address)
  | get (fails : Bool) (pick : Nat) (matchingHash : Hash)

/-- A call that returns an error leaves the tables as they are. -/
def tableStep (db : Database) : TableCall → Option Database
  | .insertForStats c => some (c.run db).db
  | .insertForBuilder fails bundle result targetBlock =>
    match insertBundleForBuilder fails db bundle result targetBlock with
    | .ok db => some db
    | .error _ => some db
  | .cancel fails hash signer =>
    match cancelBundleByHash fails db hash signer with
    | .ok db => some db
    | .error _ => some db
  | .get _ _ _ => some db

/-- The row of a hash is made or updated. -/
def Stores (h : Hash) (db : Database) : TableCall → Prop
  | .insertForStats c => c.hash = some h ∧ c.committed db = true
  | _ => False

theorem insertBundleForBuilder_sbundle {fails : Bool} {db db' : Database} {bundle : SendMevBundleArgs}
    {result : SimMevBundleResponse} {targetBlock : UInt64}
    (h : insertBundleForBuilder fails db bundle result targetBlock = .ok db') : db'.sbundle = db.sbundle := by
  unfold insertBundleForBuilder at h
  split at h
  · cases h
  · split at h
    · cases h
    · cases h
      rfl

def cancelRow (hash : Hash) (signer : Address) (r : DBSbundle) : DBSbundle :=
  if r.hash = hash ∧ r.signer = signer then { r with cancelled := true } else r

theorem cancelBundleByHash_ok {fails : Bool} {db db' : Database} {hash : Hash} {signer : Address}
    (h : cancelBundleByHash fails db hash signer = .ok db') :
    (∃ r ∈ db.sbundle, r.hash = hash ∧ r.signer = signer ∧ r.cancelled = false) ∧
      db'.sbundle = db.sbundle.map (cancelRow hash signer) := by
  unfold cancelBundleByHash at h
  split at h
  · cases h
  · split at h
    · rename_i hany
      cases h
      obtain ⟨r, hr, hcond⟩ := List.any_eq_true.1 hany
      simp only [Bool.and_eq_true, decide_eq_true_eq, Bool.not_eq_true'] at hcond
      exact ⟨⟨r, hr, hcond.1.1, hcond.1.2, hcond.2⟩, rfl⟩
    · cases h

/-- What one call does to the rows of `sbundle`. -/
theorem tableStep_cases {db db' : Database} {a : TableCall} (h : tableStep db a = some db') :
    db'.sbundle = db.sbundle ∧ (∀ h, ¬Stores h db a) ∨
      (∃ c m, a = .insertForStats c ∧ c.bundle.metadata = some m ∧ c.committed db = true ∧ db' = (c.run db).db) ∨
      ∃ hash signer, db'.sbundle = db.sbundle.map (cancelRow hash signer) ∧ ∀ h, ¬Stores h db a := by
  cases a with
  | insertForStats c =>
    cases h
    cases hcommitted : c.committed db with
    | false =>
      refine .inl ⟨by rw [StatsCall.run_uncommitted hcommitted], fun h hs => ?_⟩
      rw [Stores, hcommitted] at hs
      cases hs.2
    | true =>
      cases hm : c.bundle.metadata with
      | none => simp [StatsCall.committed, hm] at hcommitted
      | some m => exact .inr (.inl ⟨c, m, rfl, hm, hcommitted, rfl⟩)
  | insertForBuilder fails bundle result targetBlock =>
    simp only [tableStep] at h
    split at h
    · rename_i hok
      cases h
      exact .inl ⟨insertBundleForBuilder_sbundle hok, fun _ => id⟩
    · cases h
      exact .inl ⟨rfl, fun _ => id⟩
  | cancel fails hash signer =>
    simp only [tableStep] at h
    split at h
    · rename_i hok
      cases h
      exact .inr (.inr ⟨hash, signer, (cancelBundleByHash_ok hok).2, fun _ => id⟩)
    · cases h
      exact .inl ⟨rfl, fun _ => id⟩
  | get =>
    cases h
    exact .inl ⟨rfl, fun _ => id⟩

/-! ## Every state of the table -/

/-- The rows have different hashes, and the body of a row is a bundle with the hash of the row. -/
structure Tidy (db : Database) : Prop where
  keys : (db.sbundle.map DBSbundle.hash).Nodup
  bodies : ∀ h r, db.bundle h = some r → r.body.metadata.map (·.bundleHash) = some h

theorem bundle_cancelRow {db db' : Database} {hash : Hash} {signer : Address}
    (h : db'.sbundle = db.sbundle.map (cancelRow hash signer)) (k : Hash) :
    db'.bundle k = (db.bundle k).map (cancelRow hash signer) := by
  rw [Database.bundle, h, row_map]
  · rfl
  · intro r
    unfold cancelRow
    split <;> rfl

theorem cancelRow_keeps (hash : Hash) (signer : Address) (r : DBSbundle) :
    (cancelRow hash signer r).hash = r.hash ∧ (cancelRow hash signer r).body = r.body ∧
      (cancelRow hash signer r).signer = r.signer ∧ (r.cancelled = true → (cancelRow hash signer r).cancelled = true) := by
  unfold cancelRow
  split
  · exact ⟨rfl, rfl, rfl, fun _ => rfl⟩
  · exact ⟨rfl, rfl, rfl, id⟩

theorem rowAfter_body (c : StatsCall) (m : MevBundleMetadata) (stored : Option DBSbundle) :
    (c.rowAfter m stored).body = c.bundle := by
  cases stored with
  | none => rfl
  | some r => exact updatedRow_body ..

theorem Tidy.step {db db' : Database} {a : TableCall} (ht : Tidy db) (h : tableStep db a = some db') : Tidy db' := by
  rcases tableStep_cases h with ⟨hsame, -⟩ | ⟨c, m, -, hm, hcommitted, rfl⟩ | ⟨hash, signer, hcancel, -⟩
  · exact ⟨by rw [hsame]; exact ht.keys, by unfold Database.bundle; rw [hsame]; exact ht.bodies⟩
  · refine ⟨?_, fun k r hr => ?_⟩
    · rw [(StatsCall.run_committed hm hcommitted).2]
      exact nodup_upsertRow ht.keys
    · rw [StatsCall.bundle_run hm hcommitted] at hr
      split at hr
      · rename_i hk
        cases hr
        rw [rowAfter_body, hm, Option.map_some, hk]
      · exact ht.bodies k r hr
  · refine ⟨?_, fun k r hr => ?_⟩
    · rw [hcancel, List.map_map]
      have hkept : DBSbundle.hash ∘ cancelRow hash signer = DBSbundle.hash := funext fun r => (cancelRow_keeps hash signer r).1
      rw [hkept]
      exact ht.keys
    · rw [bundle_cancelRow hcancel] at hr
      obtain ⟨r', hr', rfl⟩ := Option.map_eq_some_iff.1 hr
      rw [(cancelRow_keeps hash signer r').2.1]
      exact ht.bodies k r' hr'

theorem tidy_empty : Tidy .empty := ⟨List.nodup_nil, fun _ _ hr => by cases hr⟩

theorem tidy_run {tr db} (h : Run tableStep .empty tr db) : Tidy db :=
  @Run.inv _ _ _ _ (fun _ _ => True) Tidy tidy_empty (fun _ _ _ ht _ => ht.step) _ _ h fun _ _ => trivial

/-! ## A cancelled row -/

def CancelledIn (h : Hash) (db : Database) : Prop := ∃ r, db.bundle h = some r ∧ r.cancelled = true

theorem rowAfter_cancelled (c : StatsCall) (m : MevBundleMetadata) (r : DBSbundle) :
    (c.rowAfter m (some r)).cancelled = r.cancelled :=
  (updatedRow_counted c.now c.bundle c.result r).2.2.2.1

theorem CancelledIn.step {h : Hash} {db db' : Database} {a : TableCall} (hc : CancelledIn h db)
    (hstep : tableStep db a = some db') : CancelledIn h db' := by
  obtain ⟨r, hr, hcancelled⟩ := hc
  rcases tableStep_cases hstep with ⟨hsame, -⟩ | ⟨c, m, -, hm, hcommitted, rfl⟩ | ⟨hash, signer, hcancel, -⟩
  · exact ⟨r, by unfold Database.bundle; rwa [hsame], hcancelled⟩
  · unfold CancelledIn
    rw [StatsCall.bundle_run hm hcommitted]
    split
    · rename_i hk
      rw [hk, hr]
      exact ⟨_, rfl, (rowAfter_cancelled c m r).trans hcancelled⟩
    · exact ⟨r, hr, hcancelled⟩
  · refine ⟨_, by rw [bundle_cancelRow hcancel, hr]; rfl, (cancelRow_keeps hash signer r).2.2.2 hcancelled⟩

/-- The row that a successful cancellation marks. -/
theorem Tidy.cancel {fails : Bool} {db db' : Database} {h : Hash} {signer : Address} (ht : Tidy db)
    (hok : cancelBundleByHash fails db h signer = .ok db') :
    (∃ r, db.bundle h = some r ∧ r.signer = signer ∧ r.cancelled = false) ∧ CancelledIn h db' := by
  obtain ⟨⟨r, hr, hhash, hsigner, hcancelled⟩, htable⟩ := cancelBundleByHash_ok hok
  have hrow : db.bundle h = some r := hhash ▸ row_of_mem ht.keys hr
  refine ⟨⟨r, hrow, hsigner, hcancelled⟩, cancelRow h signer r, by rw [bundle_cancelRow htable, hrow]; rfl, ?_⟩
  rw [cancelRow, if_pos ⟨hhash, hsigner⟩]

theorem CancelledIn.not_cancelled_again {h : Hash} {db : Database} (hc : CancelledIn h db) (ht : Tidy db) (fails : Bool)
    (signer : Address) : ∃ e, cancelBundleByHash fails db h signer = .error e := by
  cases hok : cancelBundleByHash fails db h signer with
  | error e => exact ⟨e, rfl⟩
  | ok db' =>
    obtain ⟨r, hr, hcancelled⟩ := hc
    obtain ⟨⟨r', hr', -, hnot⟩, -⟩ := ht.cancel hok
    cases hr.symm.trans hr'
    rw [hcancelled] at hnot
    cases hnot

theorem CancelledIn.not_found {h : Hash} {db : Database} (hc : CancelledIn h db) (ht : Tidy db) {fails : Bool} {pick : Nat}
    {matchingHash : Hash} {b : SendMevBundleArgs} (hget : getBundleByMatchingHash fails pick db matchingHash = .ok b) :
    b.metadata.map (·.bundleHash) ≠ some h := by
  unfold getBundleByMatchingHash at hget
  split at hget
  · cases hget
  · dsimp only at hget
    split at hget
    · cases hget
    · rename_i r hr
      cases hget
      obtain ⟨hmem, hcond⟩ := List.mem_filter.1 (List.mem_of_getElem? hr)
      have hrow : db.bundle r.hash = some r := row_of_mem ht.keys hmem
      rw [ht.bodies r.hash r hrow]
      intro heq
      obtain ⟨r', hr', hcancelled⟩ := hc
      rw [← Option.some.inj heq, hrow] at hr'
      cases hr'
      simp [hcancelled] at hcond

/-! ## The signer of a row -/

/-- The first call of the run that stores the hash has the signer. -/
def FirstStored (tr : List (Database × TableCall)) (h : Hash) (signer : Address) : Prop :=
  ∃ pre db₀ c m post, tr = pre ++ (db₀, .insertForStats c) :: post ∧ c.bundle.metadata = some m ∧ m.bundleHash = h ∧
    m.signer = signer ∧ c.committed db₀ = true ∧ ∀ p ∈ pre, ¬Stores h p.1 p.2

theorem FirstStored.snoc {tr : List (Database × TableCall)} {h : Hash} {signer : Address} (hf : FirstStored tr h signer)
    (p : Database × TableCall) : FirstStored (tr ++ [p]) h signer := by
  obtain ⟨pre, db₀, c, m, post, rfl, hrest⟩ := hf
  exact ⟨pre, db₀, c, m, post ++ [p], by simp, hrest⟩

theorem signer_run {tr db} (hrun : Run tableStep .empty tr db) (h : Hash) :
    (db.bundle h = none → ∀ p ∈ tr, ¬Stores h p.1 p.2) ∧ (∀ r, db.bundle h = some r → FirstStored tr h r.signer) := by
  induction hrun with
  | nil => exact ⟨fun _ p hp => absurd hp List.not_mem_nil, fun r hr => by cases hr⟩
  | @snoc tr db a db' _ hstep ih =>
    obtain ⟨hnone, hsome⟩ := ih
    have hkept (hnot : ¬Stores h db a) (hn : db.bundle h = none) : ∀ p ∈ tr ++ [(db, a)], ¬Stores h p.1 p.2 := by
      intro p hp
      rcases List.mem_append.1 hp with hp | hp
      · exact hnone hn p hp
      · rw [List.mem_singleton.1 hp]
        exact hnot
    rcases tableStep_cases hstep with ⟨hsame, hnot⟩ | ⟨c, m, rfl, hm, hcommitted, rfl⟩ | ⟨hash, signer, hcancel, hnot⟩
    · have hrow : db'.bundle h = db.bundle h := by rw [Database.bundle, hsame, Database.bundle]
      rw [hrow]
      exact ⟨hkept (hnot h), fun r hr => (hsome r hr).snoc _⟩
    · rw [StatsCall.bundle_run hm hcommitted]
      split
      · rename_i hk
        refine ⟨fun hn => absurd hn (Option.some_ne_none _), fun r hr => ?_⟩
        cases hr
        rw [hk]
        cases hrow : db.bundle h with
        | none => exact ⟨tr, db, c, m, [], rfl, hm, hk, rfl, hcommitted, hnone hrow⟩
        | some stored =>
          rw [StatsCall.rowAfter, (updatedRow_counted c.now c.bundle c.result stored).2.1]
          exact (hsome stored hrow).snoc _
      · rename_i hk
        refine ⟨hkept ?_, fun r hr => (hsome r hr).snoc _⟩
        rintro ⟨hhash, -⟩
        simp [StatsCall.hash, hm, hk] at hhash
    · rw [bundle_cancelRow hcancel]
      refine ⟨fun hn => hkept (hnot h) (Option.map_eq_none_iff.1 hn), fun r hr => ?_⟩
      obtain ⟨r', hr', rfl⟩ := Option.map_eq_some_iff.1 hr
      rw [(cancelRow_keeps hash signer r').2.2.1]
      exact (hsome r' hr').snoc _

/-- In every sequence of calls from an empty database: after a successful
`CancelBundleByHash` of a hash no look-up returns a bundle with that hash and no
other cancellation of it succeeds; and a cancellation succeeds only for the
signer of the first bundle stored with the hash. -/
theorem cancellation_final :
    (∀ pre db₁ fails h signer db' mid db,
      Run tableStep .empty (pre ++ (db₁, .cancel fails h signer) :: mid) db →
      cancelBundleByHash fails db₁ h signer = .ok db' →
      (∀ fails pick matchingHash b, getBundleByMatchingHash fails pick db matchingHash = .ok b →
        b.metadata.map (·.bundleHash) ≠ some h) ∧
      ∀ fails signer, ∃ e, cancelBundleByHash fails db h signer = .error e) ∧
    (∀ tr db fails h signer db', Run tableStep .empty tr db → cancelBundleByHash fails db h signer = .ok db' →
      FirstStored tr h signer) := by
  constructor
  · intro pre db₁ fails h signer db' mid db hrun hok
    have hafter : CancelledIn h db := by
      obtain ⟨hbefore, -⟩ := hrun.fired pre db₁ _ mid rfl
      refine @Run.after _ _ _ _ (fun _ _ => True) (CancelledIn h) _ _ (fun s' hs' => ?_) (fun _ _ _ hc _ => hc.step) _ _ _
        hrun fun _ _ => trivial
      simp only [tableStep, hok] at hs'
      cases hs'
      exact ((tidy_run hbefore).cancel hok).2
    exact ⟨fun _ _ _ _ => hafter.not_found (tidy_run hrun), hafter.not_cancelled_again (tidy_run hrun)⟩
  · intro tr db fails h signer db' hrun hok
    obtain ⟨⟨r, hr, hsigner, -⟩, -⟩ := (tidy_run hrun).cancel hok
    exact hsigner ▸ (signer_run hrun h).2 r hr

/-- A bundle is stored, and its signer cancels it. -/
theorem cancellation_final_once :
    ∃ tr db₁ db, Run tableStep .empty tr db₁ ∧ cancelBundleByHash false db₁ 1 0 = .ok db ∧ FirstStored tr 1 0 ∧
      ∀ fails signer, ∃ e, cancelBundleByHash fails db 1 signer = .error e := by
  have hstored : Run tableStep .empty [(.empty, .insertForStats (sampleStats true 3))] ((sampleStats true 3).run .empty).db :=
    .snoc .nil rfl
  have hok : ∃ db, cancelBundleByHash false ((sampleStats true 3).run .empty).db 1 0 = .ok db := ⟨_, rfl⟩
  obtain ⟨db, hok⟩ := hok
  have hcancelled := hstored.snoc (show tableStep _ (.cancel false 1 0) = some db by rw [tableStep, hok])
  exact ⟨_, _, db, hstored, hok, cancellation_final.2 _ _ _ _ _ _ hstored hok,
    (cancellation_final.1 _ _ _ _ _ _ [] _ hcancelled hok).2⟩

end MevShare
