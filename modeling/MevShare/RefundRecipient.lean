import MevShare.Lib.Checks
import MevShare.Types
/-!
# `mevshare/refund_recipient.go`

The conversion of a bundle to the request of a builder that only knows
`eth_sendBundle` with a refund recipient.
-/
open Lib

namespace MevShare

structure SendRefundRecBundleArgs where
  blockNumber : UInt64
  txs : List Bytes
  revertingTxHashes : List Hash
  refundPercent : Option Int
  refundRecipient : Option Address
deriving DecidableEq, Repr

/-- The hash that marks the element at index `i` as allowed to revert. -/
def revertingHash (metadata : Option MevBundleMetadata) (i : Nat) : Except Err Hash :=
  match metadata with
  | none => throw .nilBundleMetadata
  | some m =>
    match m.bodyHashes[i]? with
    | some h => return h
    | none => throw .invalidBundleBody

mutual
def extractTxsForRefundRecipientBundle (depth : Nat) : SendMevBundleArgs → Except Err (List Bytes × List Hash)
  | ⟨_, _, _, body, validity, _, metadata⟩ => do
    rejectIf (depth > maxNestingLevel) .invalidBundleBody
    -- only a top-level refund is acceptable
    rejectIf (depth > 0 ∧ validity.refund.length > 0) .cantConvertToRefRecBundle
    extractTxsBody depth metadata 0 body

/-- The loop over the body, from index `i` on. -/
def extractTxsBody (depth : Nat) (metadata : Option MevBundleMetadata) :
    Nat → List MevBundleBody → Except Err (List Bytes × List Hash)
  | _, [] => return ([], [])
  | i, el :: rest => do
    let (txs, canRevert) ← extractTxsElement depth metadata i el
    let (restTxs, restRevert) ← extractTxsBody depth metadata (i + 1) rest
    return (txs ++ restTxs, canRevert ++ restRevert)

def extractTxsElement (depth : Nat) (metadata : Option MevBundleMetadata) (i : Nat) :
    MevBundleBody → Except Err (List Bytes × List Hash)
  | ⟨_, tx, bundle, canRevert, _⟩ =>
    match tx, bundle with
    | some txBytes, _ =>
      if canRevert then do
        let hash ← revertingHash metadata i
        return ([txBytes], [hash])
      else return ([txBytes], [])
    | none, some inner => extractTxsForRefundRecipientBundle (depth + 1) inner
    | none, none => throw .invalidBundleBody
end

/-- Go evaluates `bundle.Body[idx]` for any `idx` below the length, so a
negative one panics; integer division truncates. -/
def extractRefundDataForRefundRecipientData (bundle : SendMevBundleArgs) : Except Err (Option Int × Option Address) :=
  match bundle.validity.refund with
  | [] => return (none, none)
  | [refund] => do
    let idx := refund.bodyIdx
    rejectIf (bundle.body.length ≤ idx) .invalidBundleConstraints
    rejectIf (idx < 0) .panic
    match bundle.body[idx.toNat]? with
    | none => throw .panic
    | some ⟨_, some _, _, _, _⟩ =>
      -- the sender of the first transaction is refunded without being named
      if idx = 0 then return (some refund.percent, none) else throw .cantConvertToRefRecBundle
    | some ⟨_, none, some inner, _, _⟩ =>
      match inner.validity.refundConfig with
      | [] => if idx = 0 then return (some refund.percent, none) else throw .cantConvertToRefRecBundle
      | [config] => return (some ((config.percent * refund.percent).tdiv 100), some config.address)
      | _ => throw .cantConvertToRefRecBundle
    | some ⟨_, none, none, _, _⟩ => throw .invalidBundleBody
  | _ => throw .cantConvertToRefRecBundle

def convertBundleToRefundRecipient (bundle : SendMevBundleArgs) : Except Err SendRefundRecBundleArgs := do
  let (txs, canRevert) ← extractTxsForRefundRecipientBundle 0 bundle
  let (percent, address) ← extractRefundDataForRefundRecipientData bundle
  return ⟨bundle.inclusion.blockNumber, txs, canRevert, percent, address⟩

end MevShare
