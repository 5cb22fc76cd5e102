import Mathlib.Algebra.Ring.Int.Defs
import Mathlib.Algebra.Ring.Nat
import Mathlib.Data.List.Basic
import Mathlib.Tactic.Common
/-!
# The node's data

`mevshare/types.go`, and what the node takes from other packages. A Go pointer
that may be nil is an `Option`, a slice is a `List` (nil and empty are the same
JSON and are not told apart), and the fixed-width integers are Lean's.

A bundle is a tree through the `bundle` field of its body elements. An element
is not forced to carry exactly one of `hash`, `tx` and `bundle`: JSON can set
any of them, and what the node makes of that is what the theorems are about.
-/

namespace MevShare

abbrev Bytes := List UInt8
/-- `common.Hash`, 32 bytes. -/
abbrev Hash := BitVec 256
/-- `common.Address`, 20 bytes. -/
abbrev Address := BitVec 160

/-- The bytes of a hash, most significant first (`h[:]`). -/
def hashBytes (h : Hash) : Bytes :=
  (List.range 32).map fun i => UInt8.ofNat (h.toNat / 256 ^ (31 - i))

/-- The sentinel errors of package `mevshare`, an error of the database, those of
transaction decoding, and a run-time panic (a nil pointer or an index out of range). -/
inductive Err where
  | invalidInclusion | invalidBundleBodySize | invalidBundleBody
  | backrunNotFound | backrunInvalidBundle | backrunInclusion | internalServiceError
  | unsupportedBundleVersion | bundleTooDeep | invalidBundleConstraints | invalidRevertMode | invalidBundlePrivacy
  | invalidHintIntent | nilBundleMetadata | cannotExtractHints | cantConvertToRefRecBundle | invalidBuilder
  | bundleNotCancelled | database
  | decode (msg : String)
  | panic
deriving DecidableEq, Repr

/-! ## Hint intents -/

/-- A set of hint intents, one bit each. -/
abbrev HintIntent := UInt8

def hintContractAddress : HintIntent := 1
def hintFunctionSelector : HintIntent := 2
def hintLogs : HintIntent := 4
def hintCallData : HintIntent := 8
def hintHash : HintIntent := 16
def hintSpecialLogs : HintIntent := 32
def hintTxHash : HintIntent := 64
def hintNone : HintIntent := 0

def HintIntent.setHint (b flag : HintIntent) : HintIntent := b ||| flag
def HintIntent.hasHint (b flag : HintIntent) : Bool := b &&& flag != 0

theorem and_or_flags (b f g : UInt8) : b &&& (f ||| g) = (b &&& f) ||| (b &&& g) := by
  apply UInt8.toNat_inj.1
  simp [Nat.and_or_distrib_left]

@[simp] theorem hasHint_or (b f g : HintIntent) : b.hasHint (f ||| g) = (b.hasHint f || b.hasHint g) := by
  unfold HintIntent.hasHint
  rw [and_or_flags, Bool.eq_iff_iff, bne_iff_ne, ne_eq, UInt8.or_eq_zero_iff, Bool.or_eq_true, bne_iff_ne, bne_iff_ne]
  exact not_and_or

@[simp] theorem hasHint_setHint (b f g : HintIntent) : (b.setHint f).hasHint g = (b.hasHint g || f.hasHint g) := by
  have h := hasHint_or g b f
  unfold HintIntent.hasHint HintIntent.setHint at *
  rw [UInt8.and_comm, h, UInt8.and_comm g b, UInt8.and_comm g f]

/-! ## Bundles -/

structure MevBundleInclusion where
  blockNumber : UInt64
  maxBlock : UInt64
deriving DecidableEq, Repr

structure RefundConstraint where
  bodyIdx : Int
  percent : Int
deriving DecidableEq, Repr

structure RefundConfig where
  address : Address
  percent : Int
deriving DecidableEq, Repr

structure MevBundleValidity where
  refund : List RefundConstraint
  refundConfig : List RefundConfig
deriving DecidableEq, Repr

structure MevBundlePrivacy where
  hints : HintIntent
  builders : List String
  wantRefund : Option Int
deriving DecidableEq, Repr

structure MevBundleMetadata where
  bundleHash : Hash
  bodyHashes : List Hash
  signer : Address
  originID : String
  receivedAt : UInt64
  matchingHash : Hash
  prematched : Bool
  replacementNonce : UInt64
  cancelled : Bool
deriving DecidableEq, Repr

/-- `&MevBundleMetadata{}`. -/
def MevBundleMetadata.empty : MevBundleMetadata := ⟨0, [], 0, "", 0, 0, false, 0, false⟩

mutual
structure SendMevBundleArgs where
  version : String
  replacementUUID : String
  inclusion : MevBundleInclusion
  body : List MevBundleBody
  validity : MevBundleValidity
  privacy : Option MevBundlePrivacy
  metadata : Option MevBundleMetadata

structure MevBundleBody where
  hash : Option Hash
  tx : Option Bytes
  bundle : Option SendMevBundleArgs
  canRevert : Bool
  revertMode : String
end

/-- The top-level bundle asks for a hint. -/
def SendMevBundleArgs.hasHintHash (bundle : SendMevBundleArgs) : Bool :=
  match bundle.privacy with
  | none => false
  | some p => HintIntent.hasHint p.hints hintHash

/-- What a privacy record says apart from the builders. -/
def MevBundlePrivacy.terms (p : MevBundlePrivacy) : HintIntent × Option Int := (p.hints, p.wantRefund)

theorem hasHintHash_eq {b b' : SendMevBundleArgs} (h : b'.privacy.map (·.terms) = b.privacy.map (·.terms)) :
    b'.hasHintHash = b.hasHintHash := by
  unfold SendMevBundleArgs.hasHintHash
  cases hp : b.privacy with
  | none =>
    rw [hp, Option.map_none, Option.map_eq_none_iff] at h
    rw [h]
  | some p =>
    rw [hp] at h
    obtain ⟨q, hq, hqp⟩ := Option.map_eq_some_iff.1 h
    simp [hq, (Prod.mk.inj hqp).1]

/-- Induction over a bundle tree: it is enough to prove a property of a bundle
from the bundles its body elements hold. -/
theorem SendMevBundleArgs.tree_induction {P : SendMevBundleArgs → Prop}
    (h : ∀ b, (∀ el ∈ b.body, ∀ c, el.bundle = some c → P c) → P b) (b : SendMevBundleArgs) : P b :=
  @SendMevBundleArgs.rec P (fun el => ∀ c, el.bundle = some c → P c)
    (fun l => ∀ el ∈ l, ∀ c, el.bundle = some c → P c) (fun o => ∀ c, o = some c → P c)
    (fun _ _ _ _ _ _ _ ih => h _ ih)
    (fun _ _ _ _ _ ih => ih)
    (fun _ hel => nomatch hel)
    (fun _ _ hhead htail el hel => by
      rcases List.mem_cons.1 hel with rfl | hel
      · exact hhead
      · exact htail el hel)
    (fun _ hc => nomatch hc)
    (fun _ ih _ hc => by cases hc; exact ih)
    b

/-- `P` holds of the bundle and of every bundle nested in it, at any depth. -/
inductive Everywhere (P : SendMevBundleArgs → Prop) : SendMevBundleArgs → Prop
  | node {b} : P b → (∀ el ∈ b.body, ∀ c, el.bundle = some c → Everywhere P c) → Everywhere P b

theorem everywhere_iff {P : SendMevBundleArgs → Prop} {b : SendMevBundleArgs} :
    Everywhere P b ↔ P b ∧ ∀ el ∈ b.body, ∀ c, el.bundle = some c → Everywhere P c := by
  constructor
  · rintro ⟨hp, hc⟩
    exact ⟨hp, hc⟩
  · rintro ⟨hp, hc⟩
    exact .node hp hc

theorem everywhere_of_flat {P : SendMevBundleArgs → Prop} {b : SendMevBundleArgs} (hp : P b)
    (hflat : ∀ el ∈ b.body, el.bundle = none) : Everywhere P b :=
  .node hp fun el hel c hc => by
    rw [hflat el hel] at hc
    cases hc

theorem Everywhere.mono {P Q : SendMevBundleArgs → Prop} (h : ∀ b, P b → Q b) {b : SendMevBundleArgs}
    (hb : Everywhere P b) : Everywhere Q b := by
  induction hb with
  | node hp _ ih => exact .node (h _ hp) ih

/-! ## Simulation results -/

/-- The fields of `types.Log` that the node reads. -/
structure Log where
  address : Address
  topics : List Hash
  data : Bytes
deriving DecidableEq, Repr

inductive SimMevBodyLogs where
  | mk (txLogs : List Log) (bundleLogs : List SimMevBodyLogs)

def SimMevBodyLogs.txLogs : SimMevBodyLogs → List Log
  | .mk l _ => l

def SimMevBodyLogs.bundleLogs : SimMevBodyLogs → List SimMevBodyLogs
  | .mk _ l => l

structure SimMevBundleResponse where
  success : Bool
  error : String
  stateBlock : UInt64
  mevGasPrice : Int
  profit : Int
  refundableValue : Int
  gasUsed : UInt64
  bodyLogs : List SimMevBodyLogs
  execError : String
  revert : Bytes

/-! ## Code outside the repository -/

/-- A decoded `types.Transaction`, as far as the node reads it. -/
structure Transaction where
  hash : Hash
  toAddr : Option Address
  data : Bytes
  gasTipCap : Int
deriving DecidableEq, Repr

/-- What the node calls and does not define: go-ethereum's transaction
decoding and address text, the legacy Keccak-256 hash, and Go's `strings.ToLower`. -/
structure Deps where
  unmarshalBinary : Bytes → Except Err Transaction
  addressString : Address → String
  keccak256 : Bytes → Hash
  toLower : String → String

/-- A legacy transaction (nonce 0, gas price 1, gas 21000, no recipient, data
`0102030405`), and the parts of it that the node reads. -/
def sampleTx : Bytes := [0xd0, 0x80, 1, 0x82, 0x52, 8, 0x80, 0x80, 0x85, 1, 2, 3, 4, 5, 0x1b, 1, 1]

def sampleTransaction : Transaction where
  hash := 0x24f302207013090f790e5769329a77e5a5bf5962427f8682380239ab468a14f3#256
  toAddr := none
  data := [1, 2, 3, 4, 5]
  gasTipCap := 1

/-- The outside code on the inputs of the examples: it decodes `sampleTx` only,
prints the zero address, knows the Keccak hash of the sample's hash (any other
input gets zero), and lower-cases ASCII. -/
def sampleDeps : Deps where
  unmarshalBinary b := if b = sampleTx then .ok sampleTransaction else .error (.decode "rlp")
  addressString _ := "0x0000000000000000000000000000000000000000"
  keccak256 b :=
    if b = hashBytes sampleTransaction.hash then
      0xdadec9135fa28cd5884c94d2b3faa527ca43bc5bdb0afd375ecb494616322703#256
    else 0
  toLower s := String.ofList (s.toList.map Char.toLower)

/-- The sample's matching hash, the hash of its hash. -/
def sampleMatchingHash : Hash := 0xdadec9135fa28cd5884c94d2b3faa527ca43bc5bdb0afd375ecb494616322703#256

/-- The same with the Keccak hashes of the empty input and of two pairs, the
sample's hash twice and its matching hash with its hash, and the hashes of these. -/
def pairDeps : Deps :=
  { sampleDeps with
    keccak256 := fun b =>
      if b = [] then 0xc5d2460186f7233c927e7db2dcc703c0e500b653ca82273b7bfad8045d85a470#256
      else if b = hashBytes 0xc5d2460186f7233c927e7db2dcc703c0e500b653ca82273b7bfad8045d85a470#256 then
        0x10ca3eff73ebec87d2394fc58560afeab86dac7a21f5e402ea0a55e5c8a6758f#256
      else if b = hashBytes sampleTransaction.hash ++ hashBytes sampleTransaction.hash then
        0x24513e4ecb513f4f400706176de58559d69f6f0d09f210887dd323bc115ee226#256
      else if b = hashBytes 0x24513e4ecb513f4f400706176de58559d69f6f0d09f210887dd323bc115ee226#256 then
        0xaec3c02e8688c0aaaf73810373512ef87ed5fa22fa2baf302804fe8efa5eaf5b#256
      else if b = hashBytes sampleMatchingHash ++ hashBytes sampleTransaction.hash then
        0x20ecadb12e514ecc278bd42d1faecce165954e0ebbaa4ab00f370b8e5309859a#256
      else if b = hashBytes 0x20ecadb12e514ecc278bd42d1faecce165954e0ebbaa4ab00f370b8e5309859a#256 then
        0x19da4836048c2ba08c71f578b4ec11c9fd1baae60b07489e067c7b8e9c4d44f9#256
      else sampleDeps.keccak256 b }

theorem sampleDeps_toLower_idem (s : String) :
    sampleDeps.toLower (sampleDeps.toLower s) = sampleDeps.toLower s := by
  have hchar (c : Char) : (Char.toLower ∘ Char.toLower) c = c.toLower := by
    simp only [Function.comp_apply]
    unfold Char.toLower
    split
    · rw [dif_neg]
      grind
    · rfl
  simp only [sampleDeps, String.toList_ofList, List.map_map, funext hchar]

/-! ## Constants (`mevshare.go`) -/

def maxBlockOffset : UInt64 := 5
def maxBlockRange : UInt64 := 30
def maxBodySize : Nat := 50
def maxNestingLevel : Nat := 1
def refundPercent : Int := 90
def hintGasPriceNumberPrecisionDigits : Nat := 3
def hintGasNumberPrecisionDigits : Nat := 2

def revertModeAllow : String := "allow"
def revertModeDrop : String := "drop"
def revertModeFail : String := "fail"

end MevShare
