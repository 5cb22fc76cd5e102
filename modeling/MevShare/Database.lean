import MevShare.Hints
import MevShare.Lib.Checks
import MevShare.Lib.Table
/-!
# `mevshare/database.go`

The tables the node writes. A nullable column is an `Option`, an amount in
ether is its value in wei, a JSON document is the value it encodes. The clock
and the failures of single statements are inputs. A call is one step: the
insert takes the row lock that the rest of the transaction runs under.
-/
open Lib

namespace MevShare

/-- A row of `sbundle`; `inserted_at`, which the database fills in, is left out.
For `revert`, a byte slice, null and empty are not told apart. -/
structure DBSbundle where
  hash : Hash
  matchingHash : Hash
  signer : Address
  cancelled : Bool
  allowMatching : Bool
  prematched : Bool
  receivedAt : UInt64
  simSuccess : Bool
  simError : Option String
  simulatedAt : Option UInt64
  simEffGasPrice : Option Int
  simProfit : Option Int
  simRefundableValue : Option Int
  simGasUsed : Option Int64
  simAllSimsGasUsed : Option Int64
  simTotalSimCount : Option Int64
  body : SendMevBundleArgs
  bodySize : Nat
  originID : Option String
  execError : Option String
  revert : Bytes

structure DBSbundleBody where
  hash : Hash
  elementHash : Hash
  idx : Nat
  type : Nat
deriving DecidableEq, Repr

structure DBSbundleBuilder where
  hash : Hash
  cancelled : Bool
  block : Int64
  maxBlock : Int64
  simStateBlock : Option Int64
  simEffGasPrice : Option Int
  simProfit : Option Int
  body : SendMevBundleArgs

structure DBSbundleHistoricalHint where
  block : Int64
  hint : Hint

structure Database where
  sbundle : List DBSbundle
  sbundleBody : List DBSbundleBody
  sbundleBuilder : List DBSbundleBuilder
  sbundleHintHistory : List DBSbundleHistoricalHint

def Database.empty : Database := ⟨[], [], [], []⟩

/-- The `sbundle` row of a bundle hash. -/
def Database.bundle (db : Database) (h : Hash) : Option DBSbundle := row DBSbundle.hash db.sbundle h

/-- The `sbundle_builder` row of a bundle hash. -/
def Database.builder (db : Database) (h : Hash) : Option DBSbundleBuilder := row DBSbundleBuilder.hash db.sbundleBuilder h

/-- `sql.NullString` of a Go string. -/
def nullString (s : String) : Option String := if s = "" then none else some s

/-- An amount that is only recorded for a successful simulation. -/
def amount (result : SimMevBundleResponse) (wei : Int) : Option Int := if result.success then some wei else none

/-! ## `InsertBundleForStats` -/

/-- The row of a bundle that is new to the database. -/
def newRow (now : UInt64) (bundle : SendMevBundleArgs) (metadata : MevBundleMetadata) (result : SimMevBundleResponse) :
    DBSbundle where
  hash := metadata.bundleHash
  matchingHash := metadata.matchingHash
  signer := metadata.signer
  cancelled := false
  allowMatching := bundle.hasHintHash
  prematched := metadata.prematched
  receivedAt := metadata.receivedAt
  simSuccess := result.success
  simError := nullString result.error
  simulatedAt := some now
  simEffGasPrice := amount result result.mevGasPrice
  simProfit := amount result result.profit
  simRefundableValue := amount result result.refundableValue
  simGasUsed := some result.gasUsed.toInt64
  simAllSimsGasUsed := some result.gasUsed.toInt64
  simTotalSimCount := some 1
  body := bundle
  bodySize := bundle.body.length
  originID := nullString metadata.originID
  execError := nullString result.execError
  revert := result.revert

/-- A failed simulation does not replace a successful one. -/
def shouldUpdateSim (stored : DBSbundle) (result : SimMevBundleResponse) : Bool :=
  if stored.simSuccess then result.success else true

/-- The columns that every simulation changes. -/
def countedRow (bundle : SendMevBundleArgs) (gasUsed : Int64) (stored : DBSbundle) : DBSbundle :=
  { stored with
    simAllSimsGasUsed := some (match stored.simTotalSimCount with
      | some _ => stored.simAllSimsGasUsed.getD 0 + gasUsed
      | none => gasUsed)
    simTotalSimCount := some (match stored.simTotalSimCount with
      | some n => n + 1
      | none => 1)
    body := bundle }

/-- The row of a known bundle after another simulation. The row is read back
without `exec_error` and `revert`, and the update writes both, so when the
stored result is kept these two columns are emptied. -/
def updatedRow (now : UInt64) (bundle : SendMevBundleArgs) (result : SimMevBundleResponse) (stored : DBSbundle) :
    DBSbundle :=
  let counted := countedRow bundle result.gasUsed.toInt64 stored
  if shouldUpdateSim stored result then
    { counted with
      simSuccess := result.success
      simError := nullString result.error
      simulatedAt := some now
      simEffGasPrice := amount result result.mevGasPrice
      simProfit := amount result result.profit
      simRefundableValue := amount result result.refundableValue
      simGasUsed := some result.gasUsed.toInt64
      execError := nullString result.execError
      revert := result.revert }
  else { counted with execError := none, revert := [] }

/-- 1 for a transaction, 2 for a bundle, 0 for anything else. -/
def bodyType (body : List MevBundleBody) (i : Nat) : Nat :=
  match body[i]? with
  | none => 0
  | some el => if el.tx.isSome then 1 else if el.bundle.isSome then 2 else 0

def bodyElements (bundle : SendMevBundleArgs) (metadata : MevBundleMetadata) : List DBSbundleBody :=
  metadata.bodyHashes.mapIdx fun i hash => ⟨metadata.bundleHash, hash, i, bodyType bundle.body i⟩

/-- The statements of one call that fail for a reason of the database's own. -/
structure Faults where
  begin : Bool := false
  insert : Bool := false
  select : Bool := false
  update : Bool := false
  body : Bool := false
  commit : Bool := false
deriving DecidableEq, Repr

def Faults.none : Faults := {}

/-- What a call of `InsertBundleForStats` returns, and the tables it leaves. -/
structure Inserted where
  known : Bool
  err : Option Err
  db : Database

/-- The result of the commit on the path of a known bundle is not looked at. A
list of body rows that is empty is refused by sqlx. -/
def insertBundleForStats (f : Faults) (now : UInt64) (db : Database) (bundle : SendMevBundleArgs)
    (result : SimMevBundleResponse) : Inserted :=
  match bundle.metadata with
  | none => ⟨false, some .nilBundleMetadata, db⟩
  | some metadata =>
    if f.begin then ⟨false, some .database, db⟩
    else if f.insert then ⟨false, some .database, db⟩
    else
      match db.bundle metadata.bundleHash with
      | some stored =>
        if f.select then ⟨true, some .database, db⟩
        else if f.update then ⟨true, some .database, db⟩
        else if f.commit then ⟨true, none, db⟩
        else ⟨true, none, { db with
          sbundle := updateRow DBSbundle.hash db.sbundle (updatedRow now bundle result stored) }⟩
      | none =>
        if f.body || (bodyElements bundle metadata).isEmpty then ⟨false, some .database, db⟩
        else if f.commit then ⟨false, some .database, db⟩
        else ⟨false, none, { db with
          sbundle := db.sbundle ++ [newRow now bundle metadata result]
          sbundleBody := (bodyElements bundle metadata).foldl (insertNew fun r => (r.hash, r.idx)) db.sbundleBody }⟩

@[simp] theorem updatedRow_hash (now : UInt64) (bundle : SendMevBundleArgs) (result : SimMevBundleResponse)
    (stored : DBSbundle) : (updatedRow now bundle result stored).hash = stored.hash := by
  unfold updatedRow
  dsimp only
  split <;> rfl

@[simp] theorem updatedRow_body (now : UInt64) (bundle : SendMevBundleArgs) (result : SimMevBundleResponse)
    (stored : DBSbundle) : (updatedRow now bundle result stored).body = bundle := by
  unfold updatedRow
  dsimp only
  split <;> rfl

/-- A call without faults: the bundle is known exactly if it had a row, and
afterwards it has one, with the body of this call. -/
theorem insertBundleForStats_none {now : UInt64} {db : Database} {bundle : SendMevBundleArgs}
    {result : SimMevBundleResponse} {m : MevBundleMetadata} (hm : bundle.metadata = some m) (hb : m.bodyHashes ≠ []) :
    (insertBundleForStats .none now db bundle result).known = (db.bundle m.bundleHash).isSome ∧
      (∃ r, (insertBundleForStats .none now db bundle result).db.bundle m.bundleHash = some r ∧ r.body = bundle) ∧
      (insertBundleForStats .none now db bundle result).db.sbundleBuilder = db.sbundleBuilder := by
  have hne : (bodyElements bundle m).isEmpty = false := by
    simp [bodyElements, List.isEmpty_eq_false_iff, hb]
  cases hrow : db.bundle m.bundleHash with
  | none =>
    simp only [insertBundleForStats, hm, hrow, Faults.none, hne, Bool.or_false, Bool.false_eq_true, ↓reduceIte]
    refine ⟨rfl, ⟨newRow now bundle m result, ?_, rfl⟩, trivial⟩
    unfold Database.bundle at hrow ⊢
    rw [row_append_new (by simpa [newRow] using hrow)]
    exact if_pos rfl
  | some stored =>
    simp only [insertBundleForStats, hm, hrow, Faults.none, Bool.false_eq_true, ↓reduceIte]
    refine ⟨rfl, ⟨updatedRow now bundle result stored, ?_, updatedRow_body ..⟩, trivial⟩
    unfold Database.bundle at hrow ⊢
    rw [row_updateRow, if_pos (by rw [updatedRow_hash]; exact key_of_row hrow), hrow, Option.map_some]

/-! ## The other tables -/

def builderRow (cancelled : Bool) (bundle : SendMevBundleArgs) (metadata : MevBundleMetadata)
    (result : SimMevBundleResponse) (targetBlock : UInt64) : DBSbundleBuilder where
  hash := metadata.bundleHash
  cancelled
  block := targetBlock.toInt64
  maxBlock := targetBlock.toInt64
  simStateBlock := if result.success then some result.stateBlock.toInt64 else none
  simEffGasPrice := amount result result.mevGasPrice
  simProfit := amount result result.profit
  body := bundle

/-- An upsert that does not touch `cancelled`. -/
def insertBundleForBuilder (fails : Bool) (db : Database) (bundle : SendMevBundleArgs) (result : SimMevBundleResponse)
    (targetBlock : UInt64) : Except Err Database :=
  match bundle.metadata with
  | none => throw .nilBundleMetadata
  | some metadata =>
    if fails then throw .database
    else
      let cancelled := (db.builder metadata.bundleHash).any (·.cancelled)
      return { db with
        sbundleBuilder := upsertRow DBSbundleBuilder.hash db.sbundleBuilder
          (builderRow cancelled bundle metadata result targetBlock) }

theorem insertBundleForBuilder_ok {db : Database} {bundle : SendMevBundleArgs} {result : SimMevBundleResponse}
    {targetBlock : UInt64} {m : MevBundleMetadata} (hm : bundle.metadata = some m) :
    ∃ db', insertBundleForBuilder false db bundle result targetBlock = .ok db' ∧ db'.sbundle = db.sbundle ∧
      ∃ r, db'.builder m.bundleHash = some r ∧ r.body = bundle := by
  simp only [insertBundleForBuilder, hm, Bool.false_eq_true, ↓reduceIte, pure_ok, exists_eq_left']
  refine ⟨trivial, builderRow ((db.builder m.bundleHash).any (·.cancelled)) bundle m result targetBlock, ?_, rfl⟩
  rw [Database.builder, row_upsertRow]
  exact if_pos rfl

def insertHistoricalHint (fails : Bool) (db : Database) (currentBlock : UInt64) (hint : Hint) : Except Err Database :=
  if fails then throw .database
  else return { db with sbundleHintHistory := db.sbundleHintHistory ++ [⟨currentBlock.toInt64, hint⟩] }

/-! ## `CancelBundleByHash` -/

/-- Marks the signer's bundle, if it is there and not marked yet. -/
def cancelBundleByHash (fails : Bool) (db : Database) (hash : Hash) (signer : Address) : Except Err Database :=
  if fails then throw .database
  else if db.sbundle.any fun r => r.hash = hash && r.signer = signer && !r.cancelled then
    return { db with sbundle := db.sbundle.map fun r =>
      if r.hash = hash ∧ r.signer = signer then { r with cancelled := true } else r }
  else throw .bundleNotCancelled

/-! ## `GetBundleByMatchingHash` -/

inductive GetBundleErr where
  | bundleNotFound | database
deriving DecidableEq, Repr

/-- The body of one of the rows that may be matched; which of them the query returns first is up to the database. -/
def getBundleByMatchingHash (fails : Bool) (pick : Nat) (db : Database) (hash : Hash) :
    Except GetBundleErr SendMevBundleArgs :=
  if fails then throw .database
  else
    let rows := db.sbundle.filter fun r => r.matchingHash = hash && r.allowMatching && !r.cancelled
    match rows[pick % rows.length]? with
    | none => throw .bundleNotFound
    | some r => return r.body

end MevShare
