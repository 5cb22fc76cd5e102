import MevShare.BundleHash
import MevShare.Lib.Hex
import MevShare.Lib.JsonFields
/-!
# Bundles as JSON

The tags of `mevshare/types.go`, `HintIntent.MarshalJSON` and `UnmarshalJSON`,
and the text forms of go-ethereum's `hexutil` and `common` types. `omitempty`
leaves out an empty string, slice or pointer, a zero and a `false`; it never
leaves out a hash or an address, which are arrays of a fixed length. A type with
an `UnmarshalJSON` of its own is given `null` too, and the hexadecimal ones
refuse it.

How deep bundles may be nested is bounded by the number that `decodeBundle` is
given: a text that is nested too deeply is not parsed in the first place.
-/
open Lib

namespace MevShare

/-! ## Hexadecimal values -/

def addressBytes (a : Address) : Bytes := putBigEndian 20 a.toNat

def trim0x : List Char → Option (List Char)
  | '0' :: 'x' :: digits => some digits
  | '0' :: 'X' :: digits => some digits
  | _ => none

def encodeBytes (b : Bytes) : JsonValue := .str (String.ofList ('0' :: 'x' :: encodeHex b))

def encodeUint64 (n : UInt64) : JsonValue := .str (String.ofList ('0' :: 'x' :: hexNumber n.toNat))

def encodeHash (h : Hash) : JsonValue := encodeBytes (hashBytes h)

def encodeAddress (a : Address) : JsonValue := encodeBytes (addressBytes a)

/-- `hexutil.Bytes`: the empty text is no bytes. -/
def decodeBytes (_ : Bytes) : JsonValue → Option Bytes
  | .str s => if s.toList = [] then some [] else (trim0x s.toList).bind decodeHex
  | _ => none

/-- `hexutil.Uint64`: the empty text is zero, and a number has no leading zeros and at most sixteen digits. -/
def decodeUint64 (_ : UInt64) : JsonValue → Option UInt64
  | .str s =>
    if s.toList = [] then some 0
    else (trim0x s.toList).bind fun digits =>
      if digits = [] ∨ (1 < digits.length ∧ digits.head? = some '0') ∨ 16 < digits.length then none
      else (readHexNumber digits).map UInt64.ofNat
  | _ => none

/-- Bytes of a fixed length. -/
def decodeFixed (n : Nat) : JsonValue → Option Nat
  | .str s => ((trim0x s.toList).bind decodeHex).bind fun bytes => if bytes.length = n then some (bigEndian bytes) else none
  | _ => none

def decodeHash (_ : Hash) (j : JsonValue) : Option Hash := (decodeFixed 32 j).map (BitVec.ofNat 256)

def decodeAddress (_ : Address) (j : JsonValue) : Option Address := (decodeFixed 20 j).map (BitVec.ofNat 160)

/-! ## Hint intents -/

/-- The tests of `MarshalJSON`, one after the other. -/
def HintIntent.flags : List (HintIntent × String) :=
  [(hintContractAddress, "contract_address"), (hintFunctionSelector, "function_selector"), (hintLogs, "logs"),
    (hintCallData, "calldata"), (hintHash, "hash"), (hintSpecialLogs, "special_logs"), (hintTxHash, "tx_hash")]

def HintIntent.names (b : HintIntent) : List String := (flags.filter fun flag => b.hasHint flag.1).map Prod.snd

/-- Without a name the array is nil, and a nil slice is `null`. -/
def HintIntent.marshalJSON (b : HintIntent) : JsonValue :=
  match HintIntent.names b with
  | [] => .null
  | arr => .arr (arr.map .str)

def HintIntent.ofName : String → Option HintIntent
  | "contract_address" => some hintContractAddress
  | "function_selector" => some hintFunctionSelector
  | "logs" => some hintLogs
  | "calldata" => some hintCallData
  | "hash" => some hintHash
  | "special_logs" => some hintSpecialLogs
  | "default_logs" => some hintSpecialLogs
  | "tx_hash" => some hintTxHash
  | _ => none

def HintIntent.unmarshalJSON (b : HintIntent) (j : JsonValue) : Option HintIntent := do
  let arr ← decodeSlice decodeString "" [] j
  arr.foldlM (fun b v => (HintIntent.ofName v).map b.setHint) b

/-! ## Structs -/

def omitEmpty (empty : Bool) (j : JsonValue) : Option JsonValue := if empty then none else some j

/-- A Go `int`. -/
def decodeGoInt : Int → JsonValue → Option Int := decodeInt (-9223372036854775808) 9223372036854775807

/-- A Go `uint64`. -/
def decodeGoUint64 (current : UInt64) (j : JsonValue) : Option UInt64 :=
  (decodeInt 0 18446744073709551615 current.toNat j).map fun n => UInt64.ofNat n.toNat

def inclusionFields : List (StructField MevBundleInclusion) :=
  [⟨"block", (·.blockNumber), fun x s => { s with blockNumber := x }, fun x => some (encodeUint64 x), decodeUint64⟩,
    ⟨"maxBlock", (·.maxBlock), fun x s => { s with maxBlock := x }, fun x => some (encodeUint64 x), decodeUint64⟩]

def refundConstraintFields : List (StructField RefundConstraint) :=
  [⟨"bodyIdx", (·.bodyIdx), fun x s => { s with bodyIdx := x }, fun x => some (.int x), decodeGoInt⟩,
    ⟨"percent", (·.percent), fun x s => { s with percent := x }, fun x => some (.int x), decodeGoInt⟩]

def refundConfigFields : List (StructField RefundConfig) :=
  [⟨"address", (·.address), fun x s => { s with address := x }, fun x => some (encodeAddress x), decodeAddress⟩,
    ⟨"percent", (·.percent), fun x s => { s with percent := x }, fun x => some (.int x), decodeGoInt⟩]

def validityFields : List (StructField MevBundleValidity) :=
  [⟨"refund", (·.refund), fun x s => { s with refund := x },
      fun x => omitEmpty x.isEmpty (.arr (x.map (encodeObject refundConstraintFields))),
      decodeSlice (decodeObject refundConstraintFields) ⟨0, 0⟩⟩,
    ⟨"refundConfig", (·.refundConfig), fun x s => { s with refundConfig := x },
      fun x => omitEmpty x.isEmpty (.arr (x.map (encodeObject refundConfigFields))),
      decodeSlice (decodeObject refundConfigFields) ⟨0, 0⟩⟩]

def privacyFields : List (StructField MevBundlePrivacy) :=
  [⟨"hints", (·.hints), fun x s => { s with hints := x }, fun x => omitEmpty (x = 0) (HintIntent.marshalJSON x),
      HintIntent.unmarshalJSON⟩,
    ⟨"builders", (·.builders), fun x s => { s with builders := x },
      fun x => omitEmpty x.isEmpty (.arr (x.map JsonValue.str)), decodeSlice decodeString ""⟩,
    ⟨"wantRefund", (·.wantRefund), fun x s => { s with wantRefund := x }, fun x => x.map JsonValue.int,
      decodePointer decodeGoInt 0⟩]

def metadataFields : List (StructField MevBundleMetadata) :=
  [⟨"bundleHash", (·.bundleHash), fun x s => { s with bundleHash := x }, fun x => some (encodeHash x), decodeHash⟩,
    ⟨"bodyHashes", (·.bodyHashes), fun x s => { s with bodyHashes := x },
      fun x => omitEmpty x.isEmpty (.arr (x.map encodeHash)), decodeSlice decodeHash 0⟩,
    ⟨"signer", (·.signer), fun x s => { s with signer := x }, fun x => some (encodeAddress x), decodeAddress⟩,
    ⟨"originId", (·.originID), fun x s => { s with originID := x }, fun x => omitEmpty (x = "") (.str x), decodeString⟩,
    ⟨"receivedAt", (·.receivedAt), fun x s => { s with receivedAt := x }, fun x => omitEmpty (x = 0) (encodeUint64 x),
      decodeUint64⟩,
    ⟨"matchingHash", (·.matchingHash), fun x s => { s with matchingHash := x }, fun x => some (encodeHash x), decodeHash⟩,
    ⟨"prematched", (·.prematched), fun x s => { s with prematched := x }, fun x => some (.bool x), decodeBool⟩,
    ⟨"replacementNonce", (·.replacementNonce), fun x s => { s with replacementNonce := x },
      fun x => omitEmpty (x = 0) (.int x.toNat), decodeGoUint64⟩,
    ⟨"cancelled", (·.cancelled), fun x s => { s with cancelled := x }, fun x => some (.bool x), decodeBool⟩]

/-- The members that are not left out. -/
def present (members : List (String × Option JsonValue)) : List (String × JsonValue) :=
  members.filterMap fun m => m.2.map fun j => (m.1, j)

mutual

def encodeBundle : SendMevBundleArgs → JsonValue
  | ⟨version, replacementUUID, inclusion, body, validity, privacy, metadata⟩ =>
    .obj (present [
      ("version", some (.str version)),
      ("replacementUuid", omitEmpty (replacementUUID = "") (.str replacementUUID)),
      ("inclusion", some (encodeObject inclusionFields inclusion)),
      ("body", some (.arr (encodeBodies body))),
      ("validity", some (encodeObject validityFields validity)),
      ("privacy", privacy.map (encodeObject privacyFields)),
      ("metadata", metadata.map (encodeObject metadataFields))])

def encodeBodies : List MevBundleBody → List JsonValue
  | [] => []
  | el :: rest => encodeBody el :: encodeBodies rest

def encodeBody : MevBundleBody → JsonValue
  | ⟨hash, tx, bundle, canRevert, revertMode⟩ =>
    .obj (present [
      ("hash", hash.map encodeHash),
      ("tx", tx.map encodeBytes),
      ("bundle", encodeInner bundle),
      ("canRevert", omitEmpty (!canRevert) (.bool canRevert)),
      ("revertMode", omitEmpty (revertMode = "") (.str revertMode))])

def encodeInner : Option SendMevBundleArgs → Option JsonValue
  | none => none
  | some b => some (encodeBundle b)

end

/-- `MevBundleBody{}` and `SendMevBundleArgs{}`. -/
def MevBundleBody.empty : MevBundleBody := ⟨none, none, none, false, ""⟩

def SendMevBundleArgs.empty : SendMevBundleArgs := ⟨"", "", ⟨0, 0⟩, [], ⟨[], []⟩, none, none⟩

section Inner
variable (inner : SendMevBundleArgs → JsonValue → Option SendMevBundleArgs)

def bodyFields : List (StructField MevBundleBody) :=
  [⟨"hash", (·.hash), fun x s => { s with hash := x }, fun x => x.map encodeHash, decodePointer decodeHash 0⟩,
    ⟨"tx", (·.tx), fun x s => { s with tx := x }, fun x => x.map encodeBytes, decodePointer decodeBytes []⟩,
    ⟨"bundle", (·.bundle), fun x s => { s with bundle := x }, encodeInner, decodePointer inner .empty⟩,
    ⟨"canRevert", (·.canRevert), fun x s => { s with canRevert := x }, fun x => omitEmpty (!x) (.bool x), decodeBool⟩,
    ⟨"revertMode", (·.revertMode), fun x s => { s with revertMode := x }, fun x => omitEmpty (x = "") (.str x),
      decodeString⟩]

def bundleFields : List (StructField SendMevBundleArgs) :=
  [⟨"version", (·.version), fun x s => { s with version := x }, fun x => some (.str x), decodeString⟩,
    ⟨"replacementUuid", (·.replacementUUID), fun x s => { s with replacementUUID := x },
      fun x => omitEmpty (x = "") (.str x), decodeString⟩,
    ⟨"inclusion", (·.inclusion), fun x s => { s with inclusion := x }, fun x => some (encodeObject inclusionFields x),
      decodeObject inclusionFields⟩,
    ⟨"body", (·.body), fun x s => { s with body := x }, fun x => some (.arr (encodeBodies x)),
      decodeSlice (decodeObject (bodyFields inner)) .empty⟩,
    ⟨"validity", (·.validity), fun x s => { s with validity := x }, fun x => some (encodeObject validityFields x),
      decodeObject validityFields⟩,
    ⟨"privacy", (·.privacy), fun x s => { s with privacy := x }, fun x => x.map (encodeObject privacyFields),
      decodePointer (decodeObject privacyFields) ⟨0, [], none⟩⟩,
    ⟨"metadata", (·.metadata), fun x s => { s with metadata := x }, fun x => x.map (encodeObject metadataFields),
      decodePointer (decodeObject metadataFields) .empty⟩]

end Inner

def decodeBundle : Nat → SendMevBundleArgs → JsonValue → Option SendMevBundleArgs
  | 0, _, _ => none
  | n + 1, current, j => decodeObject (bundleFields (decodeBundle n)) current j

/-- `json.Unmarshal` into a new bundle. A text with more than ten thousand levels is not parsed. -/
def unmarshalBundle (j : JsonValue) : Option SendMevBundleArgs := decodeBundle 10000 .empty j

/-! ## The tables are the structs -/

theorem inclusionFields_lawful : LawfulFields inclusionFields where
  tags := by decide
  get_set := by simp [inclusionFields]
  get_other := by simp [inclusionFields]
  ext s t h := by
    cases s; cases t
    simpa [inclusionFields] using h

theorem refundConstraintFields_lawful : LawfulFields refundConstraintFields where
  tags := by decide
  get_set := by simp [refundConstraintFields]
  get_other := by simp [refundConstraintFields]
  ext s t h := by
    cases s; cases t
    simpa [refundConstraintFields] using h

theorem refundConfigFields_lawful : LawfulFields refundConfigFields where
  tags := by decide
  get_set := by simp [refundConfigFields]
  get_other := by simp [refundConfigFields]
  ext s t h := by
    cases s; cases t
    simpa [refundConfigFields] using h

theorem validityFields_lawful : LawfulFields validityFields where
  tags := by decide
  get_set := by simp [validityFields]
  get_other := by simp [validityFields]
  ext s t h := by
    cases s; cases t
    simpa [validityFields] using h

theorem privacyFields_lawful : LawfulFields privacyFields where
  tags := by decide
  get_set := by simp [privacyFields]
  get_other := by simp [privacyFields]
  ext s t h := by
    cases s; cases t
    simpa [privacyFields] using h

theorem metadataFields_lawful : LawfulFields metadataFields where
  tags := by decide
  get_set := by simp [metadataFields]
  get_other := by simp [metadataFields]
  ext s t h := by
    cases s; cases t
    simpa [metadataFields] using h

section Inner
variable (inner : SendMevBundleArgs → JsonValue → Option SendMevBundleArgs)

theorem bodyFields_lawful : LawfulFields (bodyFields inner) where
  tags := by
    change ["hash", "tx", "bundle", "canRevert", "revertMode"].Nodup
    decide
  get_set := by simp [bodyFields]
  get_other := by simp [bodyFields]
  ext s t h := by
    cases s; cases t
    simpa [bodyFields] using h

theorem bundleFields_lawful : LawfulFields (bundleFields inner) where
  tags := by
    change ["version", "replacementUuid", "inclusion", "body", "validity", "privacy", "metadata"].Nodup
    decide
  get_set := by simp [bundleFields]
  get_other := by simp [bundleFields]
  ext s t h := by
    cases s; cases t
    simpa [bundleFields] using h

theorem encodeBody_eq (el : MevBundleBody) : encodeBody el = encodeObject (bodyFields inner) el := by
  cases el
  rfl

theorem encodeInner_eq (b : Option SendMevBundleArgs) : encodeInner b = b.map encodeBundle := by
  cases b <;> rfl

theorem encodeBundle_eq (b : SendMevBundleArgs) : encodeBundle b = encodeObject (bundleFields inner) b := by
  cases b
  rfl

end Inner

theorem encodeBodies_eq (l : List MevBundleBody) : encodeBodies l = l.map encodeBody := by
  induction l with
  | nil => rfl
  | cons el l ih => rw [encodeBodies, ih, List.map_cons]

/-! ## Values that are read back -/

theorem hashBytes_eq (h : Hash) : hashBytes h = putBigEndian 32 h.toNat := (putBigEndian_eq_map 32 h.toNat).symm

@[simp] theorem trim0x_cons (digits : List Char) : trim0x ('0' :: 'x' :: digits) = some digits := rfl

theorem restores_bytes (zero b : Bytes) : Restores decodeBytes zero b (encodeBytes b) := by
  rintro j' ⟨⟩
  simp only [encodeBytes, decodeBytes, String.toList_ofList, reduceCtorEq, ↓reduceIte, trim0x_cons, Option.bind_some,
    decodeHex_encodeHex]

theorem restores_uint64 (zero n : UInt64) : Restores decodeUint64 zero n (encodeUint64 n) := by
  rintro j' ⟨⟩
  obtain ⟨c, rest, hdigits, hzero⟩ := hexNumber_head n.toNat
  have hlength : (hexNumber n.toNat).length ≤ 16 := length_hexNumber (by decide) n.toNat_lt
  have hnumber := readHexNumber_hexNumber n.toNat
  rw [hdigits] at hlength hnumber
  have hok : ¬(False ∨ (1 < (c :: rest).length ∧ (c :: rest).head? = some '0') ∨ 16 < (c :: rest).length) := by
    rintro (h | ⟨hlong, hhead⟩ | h)
    · exact h
    · rw [hzero (Option.some.inj hhead)] at hlong
      exact absurd hlong (by simp)
    · omega
  simp only [encodeUint64, decodeUint64, String.toList_ofList, reduceCtorEq, ↓reduceIte, trim0x_cons, hdigits,
    Option.bind_some]
  rw [if_neg hok, hnumber, Option.map_some, UInt64.ofNat_toNat]

theorem decodeFixed_encodeBytes {n v : Nat} (h : v < 256 ^ n) : decodeFixed n (encodeBytes (putBigEndian n v)) = some v := by
  simp only [decodeFixed, encodeBytes, String.toList_ofList, trim0x_cons, Option.bind_some, decodeHex_encodeHex,
    length_putBigEndian, ↓reduceIte, bigEndian_putBigEndian h]

theorem restores_hash (zero h : Hash) : Restores decodeHash zero h (encodeHash h) := by
  rintro j' ⟨⟩
  rw [decodeHash, encodeHash, hashBytes_eq, decodeFixed_encodeBytes (by simpa using h.isLt), Option.map_some,
    BitVec.ofNat_toNat, BitVec.setWidth_eq]

theorem restores_address (zero a : Address) : Restores decodeAddress zero a (encodeAddress a) := by
  rintro j' ⟨⟩
  rw [decodeAddress, encodeAddress, addressBytes, decodeFixed_encodeBytes (by simpa using a.isLt), Option.map_some,
    BitVec.ofNat_toNat, BitVec.setWidth_eq]

theorem restores_goUint64 (zero n : UInt64) : Restores decodeGoUint64 zero n (.int n.toNat) := by
  rintro j' ⟨⟩
  have hlt := n.toNat_lt
  rw [decodeGoUint64, decodeInt, if_pos ⟨by omega, by omega⟩, Option.map_some, Int.toNat_natCast, UInt64.ofNat_toNat]

/-! ## Hint intents that are read back -/

theorem reorders_strings {l : List String} {j' : JsonValue} (h : Reorders (.arr (l.map .str)) j') :
    j' = .arr (l.map .str) := by
  obtain ⟨js, rfl, hjs⟩ := reorders_arr h
  congr
  clear h
  induction l generalizing js with
  | nil =>
    cases hjs
    rfl
  | cons s l ih =>
    cases hjs with
    | cons hs hl =>
      cases hs
      rw [ih _ hl, List.map_cons]

theorem hints_read_back (i : Fin 256) (hbit : UInt8.ofNat i &&& 128 = 0) (hne : UInt8.ofNat i ≠ 0) :
    HintIntent.unmarshalJSON 0 (HintIntent.marshalJSON (UInt8.ofNat i)) = some (UInt8.ofNat i) := by
  revert i
  decide +kernel

theorem reorders_marshalJSON {b : HintIntent} {j' : JsonValue} (h : Reorders (HintIntent.marshalJSON b) j') :
    j' = HintIntent.marshalJSON b := by
  unfold HintIntent.marshalJSON at h ⊢
  split at h
  · cases h
    rfl
  · exact reorders_strings h

theorem restores_hints {b : HintIntent} (hbit : b &&& 128 = 0) (hne : b ≠ 0) :
    Restores HintIntent.unmarshalJSON 0 b (HintIntent.marshalJSON b) := by
  intro j' hj
  have hread := hints_read_back ⟨b.toNat, b.toNat_lt⟩
  simp only [UInt8.ofNat_toNat] at hread
  rw [reorders_marshalJSON hj, hread hbit hne]

/-! ## Structs that are read back -/

theorem restoresMember_omitEmpty {α : Type} {dec : α → JsonValue → Option α} {zero x : α} {empty : Bool} {j : JsonValue}
    (hempty : empty = true → zero = x) (h : empty = false → Restores dec zero x j) :
    RestoresMember dec zero x (omitEmpty empty j) := by
  cases empty with
  | true => exact hempty rfl
  | false => exact h rfl

theorem restoresMember_slice {α : Type} {dec : α → JsonValue → Option α} {zero : α} {enc : α → JsonValue} {l : List α}
    (h : ∀ x ∈ l, Restores dec zero x (enc x)) :
    RestoresMember (decodeSlice dec zero) [] l (omitEmpty l.isEmpty (.arr (l.map enc))) :=
  restoresMember_omitEmpty (fun hempty => (List.isEmpty_iff.1 hempty).symm) fun _ => restores_slice h

theorem restoresMember_string (s : String) : RestoresMember decodeString "" s (omitEmpty (s = "") (.str s)) :=
  restoresMember_omitEmpty (fun hempty => (of_decide_eq_true hempty).symm) fun _ => restores_string "" s

/-- What a Go `int` can be. -/
def GoInt (n : Int) : Prop := -9223372036854775808 ≤ n ∧ n ≤ 9223372036854775807

theorem restores_goInt {n : Int} (h : GoInt n) (zero : Int) : Restores decodeGoInt zero n (.int n) :=
  restores_int zero h.1 h.2

theorem restores_inclusion (zero s : MevBundleInclusion) :
    Restores (decodeObject inclusionFields) zero s (encodeObject inclusionFields s) := by
  refine restores_object inclusionFields_lawful (List.forall_mem_cons.2 ⟨?_, List.forall_mem_singleton.2 ?_⟩)
  · exact restores_uint64 zero.blockNumber s.blockNumber
  · exact restores_uint64 zero.maxBlock s.maxBlock

/-! What the types of Go allow and `HintIntent` has a name for. -/

structure RefundConstraint.Encodable (c : RefundConstraint) : Prop where
  bodyIdx : GoInt c.bodyIdx
  percent : GoInt c.percent

def RefundConfig.Encodable (c : RefundConfig) : Prop := GoInt c.percent

structure MevBundleValidity.Encodable (v : MevBundleValidity) : Prop where
  refund : ∀ c ∈ v.refund, c.Encodable
  refundConfig : ∀ c ∈ v.refundConfig, c.Encodable

structure MevBundlePrivacy.Encodable (p : MevBundlePrivacy) : Prop where
  hints : p.hints &&& 128 = 0
  wantRefund : ∀ n ∈ p.wantRefund, GoInt n

structure Encodable (b : SendMevBundleArgs) : Prop where
  validity : b.validity.Encodable
  privacy : ∀ p ∈ b.privacy, p.Encodable

theorem restores_refundConstraint {c : RefundConstraint} (h : c.Encodable) :
    Restores (decodeObject refundConstraintFields) ⟨0, 0⟩ c (encodeObject refundConstraintFields c) := by
  refine restores_object refundConstraintFields_lawful (List.forall_mem_cons.2 ⟨?_, List.forall_mem_singleton.2 ?_⟩)
  · exact restores_goInt h.bodyIdx 0
  · exact restores_goInt h.percent 0

theorem restores_refundConfig {c : RefundConfig} (h : c.Encodable) :
    Restores (decodeObject refundConfigFields) ⟨0, 0⟩ c (encodeObject refundConfigFields c) := by
  refine restores_object refundConfigFields_lawful (List.forall_mem_cons.2 ⟨?_, List.forall_mem_singleton.2 ?_⟩)
  · exact restores_address 0 c.address
  · exact restores_goInt h 0

theorem restores_validity {v : MevBundleValidity} (h : v.Encodable) :
    Restores (decodeObject validityFields) ⟨[], []⟩ v (encodeObject validityFields v) := by
  refine restores_object validityFields_lawful (List.forall_mem_cons.2 ⟨?_, List.forall_mem_singleton.2 ?_⟩)
  · exact restoresMember_slice fun c hc => restores_refundConstraint (h.refund c hc)
  · exact restoresMember_slice fun c hc => restores_refundConfig (h.refundConfig c hc)

theorem restores_privacy {p : MevBundlePrivacy} (h : p.Encodable) :
    Restores (decodeObject privacyFields) ⟨0, [], none⟩ p (encodeObject privacyFields p) := by
  refine restores_object privacyFields_lawful ?_
  simp only [privacyFields, List.forall_mem_cons, List.not_mem_nil, false_imp_iff, implies_true, and_true]
  refine ⟨?_, ?_, ?_⟩
  · exact restoresMember_omitEmpty (fun hzero => (of_decide_eq_true hzero).symm) fun hne =>
      restores_hints h.hints (of_decide_eq_false hne)
  · exact restoresMember_slice fun s _ => restores_string "" s
  · exact restoresMember_pointer (fun n hn => restores_goInt (h.wantRefund n hn) 0) (by simp)

theorem restores_metadata (m : MevBundleMetadata) :
    Restores (decodeObject metadataFields) .empty m (encodeObject metadataFields m) := by
  refine restores_object metadataFields_lawful ?_
  simp only [metadataFields, List.forall_mem_cons, List.not_mem_nil, false_imp_iff, implies_true, and_true]
  refine ⟨?_, ?_, ?_, ?_, ?_, ?_, ?_, ?_, ?_⟩
  · exact restores_hash 0 m.bundleHash
  · exact restoresMember_slice fun h _ => restores_hash 0 h
  · exact restores_address 0 m.signer
  · exact restoresMember_string m.originID
  · exact restoresMember_omitEmpty (fun hzero => (of_decide_eq_true hzero).symm) fun _ => restores_uint64 0 m.receivedAt
  · exact restores_hash 0 m.matchingHash
  · exact restores_bool false m.prematched
  · exact restoresMember_omitEmpty (fun hzero => (of_decide_eq_true hzero).symm) fun _ =>
      restores_goUint64 0 m.replacementNonce
  · exact restores_bool false m.cancelled

/-! ## Bundles that are read back -/

/-- The bundle has at most this many levels. -/
inductive Within : Nat → SendMevBundleArgs → Prop
  | node {n b} : (∀ el ∈ b.body, ∀ c, el.bundle = some c → Within n c) → Within (n + 1) b

section Inner
variable {inner : SendMevBundleArgs → JsonValue → Option SendMevBundleArgs}

theorem restores_body {el : MevBundleBody}
    (h : ∀ c, el.bundle = some c → Restores inner .empty c (encodeBundle c)) :
    Restores (decodeObject (bodyFields inner)) .empty el (encodeBody el) := by
  rw [encodeBody_eq inner]
  refine restores_object (bodyFields_lawful inner) ?_
  simp only [bodyFields, List.forall_mem_cons, List.not_mem_nil, false_imp_iff, implies_true, and_true]
  refine ⟨?_, ?_, ?_, ?_, ?_⟩
  · exact restoresMember_pointer (fun g _ => restores_hash 0 g) (by simp [encodeHash, encodeBytes])
  · exact restoresMember_pointer (fun tx _ => restores_bytes [] tx) (by simp [encodeBytes])
  · change RestoresMember _ none el.bundle (encodeInner el.bundle)
    rw [encodeInner_eq]
    exact restoresMember_pointer h (by simp [encodeBundle_eq inner, encodeObject])
  · exact restoresMember_omitEmpty (fun hfalse => (by simpa using hfalse : el.canRevert = false).symm) fun _ =>
      restores_bool false el.canRevert
  · exact restoresMember_string el.revertMode

theorem restores_bundle_of_inner {b : SendMevBundleArgs} (hb : Encodable b)
    (h : ∀ el ∈ b.body, ∀ c, el.bundle = some c → Restores inner .empty c (encodeBundle c)) :
    Restores (decodeObject (bundleFields inner)) .empty b (encodeBundle b) := by
  rw [encodeBundle_eq inner]
  refine restores_object (bundleFields_lawful inner) ?_
  simp only [bundleFields, List.forall_mem_cons, List.not_mem_nil, false_imp_iff, implies_true, and_true]
  refine ⟨?_, ?_, ?_, ?_, ?_, ?_, ?_⟩
  · exact restores_string "" b.version
  · exact restoresMember_string b.replacementUUID
  · exact restores_inclusion ⟨0, 0⟩ b.inclusion
  · change Restores _ [] b.body (.arr (encodeBodies b.body))
    rw [encodeBodies_eq]
    exact restores_slice fun el hel => restores_body (h el hel)
  · exact restores_validity hb.validity
  · exact restoresMember_pointer (fun p hp => restores_privacy (hb.privacy p hp)) (by simp [encodeObject])
  · exact restoresMember_pointer (fun m _ => restores_metadata m) (by simp [encodeObject])

end Inner

theorem restores_bundle {n : Nat} {b : SendMevBundleArgs} (hn : Within n b) (hb : Everywhere Encodable b) :
    Restores (decodeBundle n) .empty b (encodeBundle b) := by
  induction hn with
  | @node n b _ ih =>
    obtain ⟨hself, hinner⟩ := everywhere_iff.1 hb
    exact restores_bundle_of_inner hself fun el hel c hc => ih el hel c hc (hinner el hel c hc)


/-! ## What is read can be written -/

theorem goInt_of_decode {current n : Int} {j : JsonValue} (hc : GoInt current) (h : decodeGoInt current j = some n) : GoInt n :=
  decodeInt_bounds hc h

theorem goInt_zero : GoInt 0 := ⟨by decide, by decide⟩

theorem decoded_refundConstraint {c c' : RefundConstraint} {j : JsonValue} (hc : c.Encodable)
    (h : decodeObject refundConstraintFields c j = some c') : c'.Encodable := by
  refine decodeObject_inv RefundConstraint.Encodable ?_ hc h
  simp only [refundConstraintFields, List.forall_mem_cons, List.not_mem_nil, false_imp_iff, implies_true, and_true]
  refine ⟨fun s x j hs hx => ?_, fun s x j hs hx => ?_⟩
  · exact ⟨goInt_of_decode hs.bodyIdx hx, hs.percent⟩
  · exact ⟨hs.bodyIdx, goInt_of_decode hs.percent hx⟩

theorem decoded_refundConfig {c c' : RefundConfig} {j : JsonValue} (hc : c.Encodable)
    (h : decodeObject refundConfigFields c j = some c') : c'.Encodable := by
  refine decodeObject_inv RefundConfig.Encodable ?_ hc h
  simp only [refundConfigFields, List.forall_mem_cons, List.not_mem_nil, false_imp_iff, implies_true, and_true]
  exact ⟨fun s x j hs hx => hs, fun s x j hs hx => goInt_of_decode hs hx⟩

theorem ofName_clear {v : String} {flag : HintIntent} (h : HintIntent.ofName v = some flag) : flag &&& 128 = 0 := by
  unfold HintIntent.ofName at h
  split at h <;> cases h <;> rfl

theorem setHint_clear {b flag : HintIntent} (hb : b &&& 128 = 0) (hflag : flag &&& 128 = 0) : b.setHint flag &&& 128 = 0 := by
  rw [HintIntent.setHint, UInt8.and_comm, and_or_flags, UInt8.and_comm 128 b, UInt8.and_comm 128 flag, hb, hflag]
  rfl

theorem decoded_hints {b b' : HintIntent} {j : JsonValue} (hb : b &&& 128 = 0)
    (h : HintIntent.unmarshalJSON b j = some b') : b' &&& 128 = 0 := by
  obtain ⟨arr, -, hfold⟩ := Option.bind_eq_some_iff.1 h
  clear h
  induction arr generalizing b with
  | nil => exact Option.some.inj hfold ▸ hb
  | cons v arr ih =>
    obtain ⟨b₁, hv, hrest⟩ := Option.bind_eq_some_iff.1 hfold
    obtain ⟨flag, hflag, rfl⟩ := Option.map_eq_some_iff.1 hv
    exact ih (setHint_clear hb (ofName_clear hflag)) hrest

theorem decoded_validity {v v' : MevBundleValidity} {j : JsonValue} (hv : v.Encodable)
    (h : decodeObject validityFields v j = some v') : v'.Encodable := by
  refine decodeObject_inv MevBundleValidity.Encodable ?_ hv h
  simp only [validityFields, List.forall_mem_cons, List.not_mem_nil, false_imp_iff, implies_true, and_true]
  refine ⟨fun s x j hs hx => ⟨?_, hs.refundConfig⟩, fun s x j hs hx => ⟨hs.refund, ?_⟩⟩
  · exact decodeSlice_all (fun j c hc => decoded_refundConstraint ⟨goInt_zero, goInt_zero⟩ hc)
      (fun c j c' hc hc' => decoded_refundConstraint hc hc') hs.refund hx
  · have hzero : RefundConfig.Encodable ⟨0, 0⟩ := goInt_zero
    exact decodeSlice_all (fun j c hc => decoded_refundConfig hzero hc)
      (fun c j c' hc hc' => decoded_refundConfig hc hc') hs.refundConfig hx

theorem decoded_privacy {p p' : MevBundlePrivacy} {j : JsonValue} (hp : p.Encodable)
    (h : decodeObject privacyFields p j = some p') : p'.Encodable := by
  refine decodeObject_inv MevBundlePrivacy.Encodable ?_ hp h
  simp only [privacyFields, List.forall_mem_cons, List.not_mem_nil, false_imp_iff, implies_true, and_true]
  refine ⟨fun s x j hs hx => ⟨decoded_hints hs.hints hx, hs.wantRefund⟩, fun s x j hs hx => ⟨hs.hints, hs.wantRefund⟩,
    fun s x j hs hx => ⟨hs.hints, ?_⟩⟩
  exact decodePointer_all (fun j n hn => goInt_of_decode goInt_zero hn) (fun n j n' hn hn' => goInt_of_decode hn hn')
    hs.wantRefund hx

/-- The bundle can be written, and read again with this many levels. -/
def Readable (n : Nat) (b : SendMevBundleArgs) : Prop := Within n b ∧ Everywhere Encodable b

theorem readable_succ {n : Nat} {b : SendMevBundleArgs} :
    Readable (n + 1) b ↔ Encodable b ∧ ∀ el ∈ b.body, ∀ c ∈ el.bundle, Readable n c := by
  constructor
  · rintro ⟨⟨hn⟩, hb⟩
    obtain ⟨hself, hinner⟩ := everywhere_iff.1 hb
    exact ⟨hself, fun el hel c hc => ⟨hn el hel c hc, hinner el hel c hc⟩⟩
  · rintro ⟨hself, hinner⟩
    exact ⟨.node fun el hel c hc => (hinner el hel c hc).1, .node hself fun el hel c hc => (hinner el hel c hc).2⟩

theorem readable_empty (n : Nat) : Readable (n + 1) .empty :=
  readable_succ.2 ⟨⟨⟨nofun, nofun⟩, nofun⟩, nofun⟩

section Inner
variable {inner : SendMevBundleArgs → JsonValue → Option SendMevBundleArgs} {P : SendMevBundleArgs → Prop}

theorem decoded_body (hzero : ∀ j b, inner .empty j = some b → P b) (hinner : ∀ b j b', P b → inner b j = some b' → P b')
    {el el' : MevBundleBody} {j : JsonValue} (hel : ∀ c ∈ el.bundle, P c)
    (h : decodeObject (bodyFields inner) el j = some el') : ∀ c ∈ el'.bundle, P c := by
  refine decodeObject_inv (fun el : MevBundleBody => ∀ c ∈ el.bundle, P c) ?_ hel h
  simp only [bodyFields, List.forall_mem_cons, List.not_mem_nil, false_imp_iff, implies_true, and_true]
  refine ⟨fun s x j hs hx => hs, fun s x j hs hx => hs, fun s x j hs hx => ?_, fun s x j hs hx => hs,
    fun s x j hs hx => hs⟩
  exact decodePointer_all hzero hinner hs hx

end Inner

theorem decoded_readable (n : Nat) : (∀ j b, decodeBundle n .empty j = some b → Readable n b) ∧
    ∀ b j b', Readable n b → decodeBundle n b j = some b' → Readable n b' := by
  induction n with
  | zero => exact ⟨nofun, nofun⟩
  | succ n ih =>
    have hstep : ∀ b j b', Readable (n + 1) b → decodeBundle (n + 1) b j = some b' → Readable (n + 1) b' := by
      intro b j b' hb h
      refine decodeObject_inv (Readable (n + 1)) ?_ hb h
      simp only [readable_succ, bundleFields, List.forall_mem_cons, List.not_mem_nil, false_imp_iff, implies_true, and_true]
      refine ⟨?_, ?_, ?_, ?_, ?_, ?_, ?_⟩ <;> intro s x j hs hx
      · exact ⟨⟨hs.1.validity, hs.1.privacy⟩, hs.2⟩
      · exact ⟨⟨hs.1.validity, hs.1.privacy⟩, hs.2⟩
      · exact ⟨⟨hs.1.validity, hs.1.privacy⟩, hs.2⟩
      · refine ⟨⟨hs.1.validity, hs.1.privacy⟩, ?_⟩
        exact decodeSlice_all (fun j el hel => decoded_body ih.1 ih.2 (by simp [MevBundleBody.empty]) hel)
          (fun el j el' hel hel' => decoded_body ih.1 ih.2 hel hel') hs.2 hx
      · exact ⟨⟨decoded_validity hs.1.validity hx, hs.1.privacy⟩, hs.2⟩
      · have hzero : MevBundlePrivacy.Encodable ⟨0, [], none⟩ := ⟨rfl, by simp⟩
        refine ⟨⟨hs.1.validity, ?_⟩, hs.2⟩
        exact decodePointer_all (fun j p hp => decoded_privacy hzero hp)
          (fun p j p' hp hp' => decoded_privacy hp hp') hs.1.privacy hx
      · exact ⟨⟨hs.1.validity, hs.1.privacy⟩, hs.2⟩
    exact ⟨fun j b h => hstep .empty j b (readable_empty n) h, hstep⟩

/-- What a client's JSON is read as is what comes back of it from the queue and
from the database, which keeps the members of an object in an order of its own. -/
theorem accepted_json_stable {j j' : JsonValue} {b : SendMevBundleArgs} (h : unmarshalBundle j = some b)
    (hj : Reorders (encodeBundle b) j') : unmarshalBundle j' = some b := by
  obtain ⟨hn, hb⟩ := (decoded_readable 10000).1 j b h
  exact restores_bundle hn hb j' hj

/-- A bundle in a bundle, with hints and a refund. -/
def pairOfPair : SendMevBundleArgs :=
  ⟨"v0.1", "uuid", ⟨16, 0⟩,
    [⟨none, none, some ⟨"v0.1", "", ⟨1, 2⟩, [⟨none, some sampleTx, none, true, ""⟩], ⟨[], []⟩, none, none⟩, false, "drop"⟩],
    ⟨[⟨0, 90⟩], []⟩, some ⟨hintHash, ["alpha"], some 50⟩, some { MevBundleMetadata.empty with bundleHash := 7 }⟩

theorem pairOfPair_readable : Readable 10000 pairOfPair := by
  refine readable_succ.2 ⟨⟨⟨?_, nofun⟩, ?_⟩, ?_⟩
  · rintro c hc
    rw [List.mem_singleton.1 hc]
    exact ⟨goInt_zero, by decide, by decide⟩
  · rintro p ⟨⟩
    exact ⟨rfl, by rintro n ⟨⟩; exact ⟨by decide, by decide⟩⟩
  · rintro el hel c hc
    rw [List.mem_singleton.1 hel] at hc
    cases hc
    refine readable_succ.2 ⟨⟨⟨nofun, nofun⟩, nofun⟩, ?_⟩
    rintro el hel c hc
    rw [List.mem_singleton.1 hel] at hc
    cases hc

theorem reordersMembers_refl (ms : List (String × JsonValue)) : ReordersMembers ms ms := by
  induction ms with
  | nil => exact .nil
  | cons m ms ih => exact .cons (.refl m.2) ih

theorem accepted_json_stable_reversed :
    ∃ ms, encodeBundle pairOfPair = .obj ms ∧ unmarshalBundle (.obj ms.reverse) = some pairOfPair := by
  have h : unmarshalBundle (encodeBundle pairOfPair) = some pairOfPair :=
    restores_bundle pairOfPair_readable.1 pairOfPair_readable.2 _ (.refl _)
  refine ⟨_, rfl, accepted_json_stable h ?_⟩
  exact .obj (reordersMembers_refl _) (List.reverse_perm _).symm

end MevShare
