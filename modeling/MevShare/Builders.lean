import MevShare.RefundRecipient
import MevShare.Validation
/-!
# `mevshare/builders.go`

Which builders a bundle is sent to and what they are sent. A builder's RPC
client is its URL, an RPC call is the request it carries, and the order in
which the goroutines of `SendBundle` run is not part of the result. The
orderflow header and the HTTP transport are left out.

`SendBundle` works on `args := *bundle`, a shallow copy: the privacy record and
the nested bundles are the caller's. `prepare` returns both what the builders
get and what the caller's bundle has become.
-/
open Lib

namespace MevShare

inductive BuilderAPI where
  | refundRecipient | mevShareBeta1 | mevShareBeta1Replacement
deriving DecidableEq, Repr

def parseBuilderAPI (api : String) : Except Err BuilderAPI :=
  if api = "refund-recipient" then return .refundRecipient
  else if api = "v0.1" then return .mevShareBeta1
  else if api = "v0.1-replacement" then return .mevShareBeta1Replacement
  else throw .invalidBuilder

/-- One entry of the builders file. -/
structure BuilderConfig where
  name : String
  url : String
  api : String
  internal : Bool
  disabled : Bool
  delay : Bool
deriving DecidableEq, Repr

structure BuildersConfig where
  builders : List BuilderConfig
  restrictedAddress : String
deriving DecidableEq, Repr

structure JSONRPCBuilderBackend where
  name : String
  client : String
  api : BuilderAPI
  delay : Bool
deriving DecidableEq, Repr

structure BuildersBackend where
  externalBuilders : String → Option JSONRPCBuilderBackend
  internalBuilders : List JSONRPCBuilderBackend
  restrictedAddress : String

/-! ## Sending to one builder -/

/-- The RPC call that reaches a builder. -/
inductive Request where
  | ethSendBundle (args : SendRefundRecBundleArgs)
  | mevSendBundle (args : SendMevBundleArgs)

/-- `JSONRPCBuilderBackend.SendBundle` up to the call; an error here means that no call is made. -/
def JSONRPCBuilderBackend.sendBundle (b : JSONRPCBuilderBackend) (bundle : SendMevBundleArgs) : Except Err Request :=
  match b.api with
  | .refundRecipient => do
    let refRec ← convertBundleToRefundRecipient bundle
    return .ethSendBundle refRec
  | .mevShareBeta1 => return .mevSendBundle bundle
  | .mevShareBeta1Replacement => return .mevSendBundle bundle

/-! ## Cleaning -/

mutual
/-- Privacy and metadata are dropped at every level. -/
def cleanBundle : SendMevBundleArgs → SendMevBundleArgs
  | ⟨version, replacementUUID, inclusion, body, validity, _, _⟩ =>
    ⟨version, replacementUUID, inclusion, cleanElements body, validity, none, none⟩

/-- The elements of a body with the bundles they point to cleaned. -/
def cleanElements : List MevBundleBody → List MevBundleBody
  | [] => []
  | ⟨hash, tx, bundle, canRevert, revertMode⟩ :: rest =>
    ⟨hash, tx, match bundle with
      | some inner => some (cleanBundle inner)
      | none => none, canRevert, revertMode⟩ :: cleanElements rest
end

section Deps
variable (D : Deps)

/-- A backend for every enabled entry, and two entries of one name leave the later one. -/
def loadBuilderConfig (config : BuildersConfig) : Except Err BuildersBackend := do
  let enabled ← (config.builders.filter fun c => !c.disabled).mapM fun c => do
    let api ← parseBuilderAPI c.api
    return (c.internal, (⟨D.toLower c.name, c.url, api, c.delay⟩ : JSONRPCBuilderBackend))
  let externals := (enabled.filter fun e => !e.1).map (·.2)
  return {
    externalBuilders := fun name => externals.reverse.find? fun b => b.name = name
    internalBuilders := (enabled.filter fun e => e.1).map (·.2)
    restrictedAddress := config.restrictedAddress }

/-! ## `BuildersBackend.SendBundle` -/

/-- The builders a privacy record names; without a record there are none. -/
def privacyBuilders : Option MevBundlePrivacy → List String
  | none => []
  | some p => p.builders

/-- What `SendBundle` computes before it starts any goroutine. -/
structure Prepared where
  isFirstBlock : Bool
  isReplaceable : Bool
  /-- for the external builders -/
  args : SendMevBundleArgs
  /-- for the internal builders, with the signer -/
  iArgs : SendMevBundleArgs
  signingAddress : Address
  builders : List String
  /-- the caller's bundle afterwards -/
  shared : SendMevBundleArgs

/-- The caller's privacy record after the merge. -/
def mergedPrivacy (bundle : SendMevBundleArgs) : Option MevBundlePrivacy :=
  match bundle.privacy with
  | none => none
  | some _ => (mergePrivacyBuilders D bundle).privacy

/-- The caller's bundle after the preparation: the merge writes to the privacy
record and the cleaning to the nested bundles that the copy shares with it. The
cleaning of the top level is on the copy. -/
def sharedBundle (bundle : SendMevBundleArgs) : SendMevBundleArgs :=
  { bundle with privacy := mergedPrivacy D bundle, body := cleanElements bundle.body }

/-- A bundle without metadata panics when the nonce is read. -/
def prepare (bundle : SendMevBundleArgs) (targetBlock : UInt64) (shouldCancel : Bool) : Except Err Prepared :=
  match bundle.metadata with
  | none => throw .panic
  | some metadata =>
    let args := cleanBundle { bundle with inclusion := ⟨targetBlock, targetBlock⟩ }
    return {
      isFirstBlock := bundle.inclusion.blockNumber = targetBlock
      isReplaceable := bundle.replacementUUID ≠ ""
      args
      iArgs := { args with
        metadata := some { MevBundleMetadata.empty with
          signer := metadata.signer
          replacementNonce := metadata.replacementNonce
          cancelled := shouldCancel } }
      signingAddress := metadata.signer
      builders := privacyBuilders (mergedPrivacy D bundle)
      shared := sharedBundle D bundle }

/-- A goroutine of `SendBundle`: the builder, what it passes to the builder's
`SendBundle` if it gets that far, and whether it calls `wg.Done`. -/
structure Spawn where
  builder : JSONRPCBuilderBackend
  contact : Option SendMevBundleArgs
  done : Bool

/-- The loop over the internal builders. -/
def internalSpawns (b : BuildersBackend) (p : Prepared) : List Spawn :=
  b.internalBuilders.filterMap fun builder =>
    if p.isReplaceable && builder.api ≠ .mevShareBeta1Replacement then none
    else if D.toLower (D.addressString p.signingAddress) = D.toLower b.restrictedAddress &&
        builder.api ≠ .mevShareBeta1Replacement then none
    else if builder.delay && p.isFirstBlock then some ⟨builder, none, true⟩
    else some ⟨builder, some p.iArgs, true⟩

/-- The loop over the builders a bundle names. The early return of a delayed
builder comes before `defer wg.Done()`. -/
def externalSpawns (b : BuildersBackend) (p : Prepared) : List String → List String → List Spawn
  | [], _ => []
  | target :: rest, buildersUsed =>
    let target := D.toLower target
    if target = "default" || target = "flashbots" then externalSpawns b p rest buildersUsed
    else if buildersUsed.contains target then externalSpawns b p rest buildersUsed
    else
      let next := externalSpawns b p rest (buildersUsed ++ [target])
      match b.externalBuilders target with
      | none => next
      | some builder =>
        if p.isReplaceable && builder.api ≠ .mevShareBeta1Replacement then next
        else if builder.delay && p.isFirstBlock then ⟨builder, none, false⟩ :: next
        else ⟨builder, some p.args, true⟩ :: next

structure Dispatch where
  internal : List Spawn
  external : List Spawn
  shared : SendMevBundleArgs

def BuildersBackend.sendBundle (b : BuildersBackend) (bundle : SendMevBundleArgs) (targetBlock : UInt64)
    (shouldCancel : Bool) : Except Err Dispatch := do
  let p ← prepare D bundle targetBlock shouldCancel
  return ⟨internalSpawns D b p, externalSpawns D b p p.builders [], p.shared⟩

end Deps

/-- The builders that a list of goroutines reaches, and what their `SendBundle` is given. -/
def contacts (spawns : List Spawn) : List (JSONRPCBuilderBackend × SendMevBundleArgs) :=
  spawns.filterMap fun s => s.contact.map fun args => (s.builder, args)

/-! ## `BuildersBackend.CancelBundleByHash` -/

/-- A goroutine of `CancelBundleByHash`: the builder it calls, and whether it calls `wg.Done`. -/
structure CancelSpawn where
  builder : JSONRPCBuilderBackend
  hash : Hash
  done : Bool
deriving DecidableEq, Repr

/-- A goroutine for every internal builder; there is no `wg.Done` in it. -/
def BuildersBackend.cancelBundleByHash (b : BuildersBackend) (hash : Hash) : List CancelSpawn :=
  b.internalBuilders.map fun builder => ⟨builder, hash, false⟩

end MevShare
