import MevShare.Lib.Checks
import MevShare.Utils
/-!
# `mevshare/hints.go`

What a searcher gets to see of a bundle and its simulation. The log filters
change the logs of the simulation result in place; nothing reads these logs
afterwards, so the model returns the changed logs instead.
-/
open Lib

namespace MevShare

structure CleanLog where
  address : Address
  topics : List Hash
  data : Bytes
deriving DecidableEq, Repr

structure TxHint where
  hash : Option Hash
  toAddr : Option Address
  functionSelector : Option Bytes
  callData : Option Bytes
deriving DecidableEq, Repr

structure Hint where
  hash : Hash
  logs : List CleanLog
  txs : List TxHint
  mevGasPrice : Option Int
  gasUsed : Option UInt64
deriving DecidableEq, Repr

/-! ## Transactions -/

/-- `var s [4]byte; copy(s[:], data)`. -/
def functionSelector (data : Bytes) : Bytes := data.take 4 ++ List.replicate (4 - data.length) 0

def extractTxHints (tx : Transaction) (want : HintIntent) : Option TxHint :=
  -- calldata implies the selector, and either implies the address
  let want := if want.hasHint (hintFunctionSelector ||| hintCallData) then want.setHint hintContractAddress else want
  let want := if want.hasHint hintCallData then want.setHint hintFunctionSelector else want
  if want.hasHint (hintContractAddress ||| hintFunctionSelector ||| hintCallData ||| hintTxHash) then
    some {
      hash := if want.hasHint hintTxHash then some tx.hash else none
      toAddr := if want.hasHint hintContractAddress then tx.toAddr else none
      functionSelector := if want.hasHint hintFunctionSelector then some (functionSelector tx.data) else none
      callData := if want.hasHint hintCallData then some tx.data else none }
  else none

/-! ## Logs -/

def uni2log : Hash := 0xd78ad95fa46c994b6551d0da85fc275fe613ce37657fb8d5e3d130840159d822#256
def uni3log : Hash := 0xc42079f94a6350d7e6235f29174924f928cc2ac818eb64fed8004e115fbcca67#256
def curveLog : Hash := 0x8b3e96f2b889fa771c53c981b40daf005f63f637f1869f707052d15a3dd97140#256
def balancerLog : Hash := 0x2170c741c41531aec20e7c107c24eecfdd15e69c9bb0a8dd37b1840b9e0b207b#256

/-- Every topic but the first is zeroed and the data is dropped. -/
def removeLogFields (log : Log) : Log :=
  { log with topics := log.topics.take 1 ++ (log.topics.drop 1).map fun _ => 0, data := [] }

/-- What the loop of `filterSpecialLogs` appends for one log. -/
def specialLog (log : Log) : Option Log :=
  match log.topics with
  | [] => none
  | signature :: indexed =>
    if signature = uni2log ∨ signature = uni3log ∨ signature = curveLog then some (removeLogFields log)
    else if signature = balancerLog then
      match indexed with
      | [] => none
      | poolID :: _ => some { removeLogFields log with topics := (removeLogFields log).topics.set 1 poolID }
    else none

def filterSpecialLogs (logs : List Log) : List Log := logs.filterMap specialLog

def cleanLogs (logs : List Log) : List CleanLog := logs.map fun log => ⟨log.address, log.topics, log.data⟩

/-! ## Bundles -/

/-- The hint intents of a bundle, none without a privacy record. -/
def SendMevBundleArgs.hints (b : SendMevBundleArgs) : HintIntent :=
  match b.privacy with
  | none => hintNone
  | some p => p.hints

/-- The logs a transaction of a bundle with intents `want` contributes. -/
def txLogHints (want : HintIntent) (logs : List Log) : List CleanLog :=
  if want.hasHint hintLogs then cleanLogs logs
  else if want.hasHint hintSpecialLogs then cleanLogs (filterSpecialLogs logs)
  else []

section Deps
variable (D : Deps)

/-- The transaction hint it contributes, if any. Its bytes are decoded only if
some hint about the transaction is wanted. -/
def txHints (want : HintIntent) (txBytes : Bytes) : Except Err (List TxHint) :=
  if want.hasHint (hintContractAddress ||| hintFunctionSelector ||| hintCallData ||| hintTxHash) then do
    let tx ← D.unmarshalBinary txBytes
    return (extractTxHints tx want).toList
  else return []

mutual
def extractHintsInner : SendMevBundleArgs → List SimMevBodyLogs → Except Err (List CleanLog × List TxHint)
  | ⟨_, _, _, body, _, privacy, _⟩, bundleLogs =>
    let want := match privacy with
      | none => hintNone
      | some p => p.hints
    if !want.hasHint hintHash then return ([], [])
    else do
      rejectIf (bundleLogs.length ≠ body.length) .cannotExtractHints
      extractHintsBody want body bundleLogs

/-- The loop over the body, next to the logs at the same positions. -/
def extractHintsBody (want : HintIntent) :
    List MevBundleBody → List SimMevBodyLogs → Except Err (List CleanLog × List TxHint)
  | el :: rest, bodyLogs :: bundleLogs => do
    let (logs, txs) ← extractHintsElement want el bodyLogs
    let (restLogs, restTxs) ← extractHintsBody want rest bundleLogs
    return (logs ++ restLogs, txs ++ restTxs)
  | _, _ => return ([], [])

/-- What one element appends. -/
def extractHintsElement (want : HintIntent) :
    MevBundleBody → SimMevBodyLogs → Except Err (List CleanLog × List TxHint)
  | ⟨_, tx, bundle, _, _⟩, bodyLogs =>
    match bundle, tx with
    | some innerBundle, _ => extractHintsInner innerBundle bodyLogs.bundleLogs
    | none, some txBytes => do
      let hints ← txHints D want txBytes
      return (txLogHints want bodyLogs.txLogs, hints)
    | none, none => return ([], [])
end

theorem extractHintsInner_eq (b : SendMevBundleArgs) (bundleLogs : List SimMevBodyLogs) :
    extractHintsInner D b bundleLogs =
      if !b.hints.hasHint hintHash then return ([], [])
      else
        rejectIf (bundleLogs.length ≠ b.body.length) .cannotExtractHints >>= fun _ =>
          extractHintsBody D b.hints b.body bundleLogs := by
  cases b; rfl

/-- The rounded gas of a simulation: `int64` on the way in, `Uint64()` on the way out. -/
def roundedGasUsed (simRes : SimMevBundleResponse) : UInt64 :=
  UInt64.ofNat (roundUpWithPrecision simRes.gasUsed.toInt64.toInt hintGasNumberPrecisionDigits).natAbs

def roundedMevGasPrice (simRes : SimMevBundleResponse) : Int :=
  roundUpWithPrecision simRes.mevGasPrice hintGasPriceNumberPrecisionDigits

/-- The hash a hint carries; zero without metadata. -/
def SendMevBundleArgs.matchingHash (b : SendMevBundleArgs) : Hash :=
  match b.metadata with
  | none => 0
  | some m => m.matchingHash

def extractHints (bundle : SendMevBundleArgs) (simRes : SimMevBundleResponse) (shareGasUsed shareMevGasPrice : Bool) :
    Except Err Hint := do
  rejectIf bundle.privacy.isNone .cannotExtractHints
  rejectIf (¬bundle.hints.hasHint hintHash) .cannotExtractHints
  let (logs, txs) ← extractHintsInner D bundle simRes.bodyLogs
  return {
    hash := bundle.matchingHash
    logs, txs
    mevGasPrice := if shareMevGasPrice then some (roundedMevGasPrice simRes) else none
    gasUsed := if shareGasUsed then some (roundedGasUsed simRes) else none }

end Deps

end MevShare
