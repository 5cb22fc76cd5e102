import MevShare.Lib.Numbers
import MevShare.Types
/-!
# `simqueue/utils.go`

The encoding of a queue item as an entry of the Redis sorted set: the minimal
target block is the score, everything else is in the member. A time is its
`UnixNano`.
-/
open Lib

namespace MevShare.Queue

structure PackArgs where
  data : Bytes
  minTargetBlock : UInt64
  maxTargetBlock : UInt64
  highPriority : Bool
  timestamp : Int64
  iteration : UInt16
deriving DecidableEq, Repr

/-- What stays the same of an item while it is in the queue. -/
structure Key where
  data : Bytes
  maxTargetBlock : UInt64
  highPriority : Bool
  timestamp : Int64
deriving DecidableEq, Repr

def PackArgs.key (a : PackArgs) : Key := ⟨a.data, a.maxTargetBlock, a.highPriority, a.timestamp⟩

/-- `float64(n)`; as the bound of a `ZCOUNT` the decimal text of `n` is parsed to the same number. -/
def score (n : UInt64) : Nat := toDouble n.toNat

/-- `uint64(score)`. The one score that does not fit is 2^64; what that is
converted to Go leaves to the platform. -/
def uint64OfScore (outOfRange : UInt64) (score : Nat) : UInt64 :=
  if score < 2 ^ 64 then UInt64.ofNat score else outOfRange

def packData (a : PackArgs) : Nat × Bytes :=
  (score a.minTargetBlock,
    (if a.highPriority then 0 else 1) :: (putBigEndian 2 a.iteration.toNat ++
      (putBigEndian 8 a.timestamp.toUInt64.toNat ++ (putBigEndian 8 a.maxTargetBlock.toNat ++ a.data))))

/-- The slices of the member at the offsets 1, 3, 11 and 19; it is an error if
there are fewer than 19 bytes. -/
def unpackData (outOfRange : UInt64) (score : Nat) (packedData : Bytes) : Option PackArgs :=
  if packedData.length < 19 then none
  else some {
    data := packedData.drop 19
    minTargetBlock := uint64OfScore outOfRange score
    maxTargetBlock := UInt64.ofNat (bigEndian ((packedData.drop 11).take 8))
    highPriority := packedData.head? = some 0
    timestamp := (UInt64.ofNat (bigEndian ((packedData.drop 3).take 8))).toInt64
    iteration := UInt16.ofNat (bigEndian ((packedData.drop 1).take 2)) }

/-- An item as it comes back from Redis: only the block may differ. -/
def PackArgs.stored (outOfRange : UInt64) (a : PackArgs) : PackArgs :=
  { a with minTargetBlock := uint64OfScore outOfRange (score a.minTargetBlock) }

theorem unpackData_packData (outOfRange : UInt64) (n : Nat) (a : PackArgs) :
    unpackData outOfRange n (packData a).2 = some { a with minTargetBlock := uint64OfScore outOfRange n } := by
  have hiter : bigEndian (putBigEndian 2 a.iteration.toNat) = a.iteration.toNat :=
    bigEndian_putBigEndian a.iteration.toNat_lt
  have htime : bigEndian (putBigEndian 8 a.timestamp.toUInt64.toNat) = a.timestamp.toUInt64.toNat :=
    bigEndian_putBigEndian a.timestamp.toUInt64.toNat_lt
  have hmax : bigEndian (putBigEndian 8 a.maxTargetBlock.toNat) = a.maxTargetBlock.toNat :=
    bigEndian_putBigEndian a.maxTargetBlock.toNat_lt
  simp only [unpackData, packData, List.length_cons, List.length_append, length_putBigEndian]
  rw [if_neg (by omega)]
  simp [List.drop_append, List.drop_eq_nil_of_le, hiter, htime, hmax]

theorem unpackData_eq_none {outOfRange : UInt64} {n : Nat} {packedData : Bytes} :
    unpackData outOfRange n packedData = none ↔ packedData.length < 19 := by
  unfold unpackData
  split <;> simp_all

/-! ## Round trips

Up to 2^53 a block number is a score without rounding, and everything else is
kept in the bytes of the member, whose fields have fixed places. -/

theorem uint64OfScore_score {n : UInt64} (outOfRange : UInt64) (h : n.toNat ≤ 2 ^ 53) :
    uint64OfScore outOfRange (score n) = n := by
  unfold uint64OfScore score
  rw [toDouble_of_le h, if_pos n.toNat_lt, UInt64.ofNat_toNat]

theorem score_uint64OfScore {n : Nat} (outOfRange : UInt64) (h : n ≤ 2 ^ 53) :
    score (uint64OfScore outOfRange n) = n := by
  have hlt : n < 2 ^ 64 := by omega
  unfold uint64OfScore score
  rw [if_pos hlt, UInt64.toNat_ofNat_of_lt' hlt, toDouble_of_le h]

/-- The fields of a member that is long enough, one after the other. -/
theorem fields_of_member {b : UInt8} {l : Bytes} (h : 18 ≤ l.length) :
    ∃ iteration timestamp maxBlock data : Bytes, iteration.length = 2 ∧ timestamp.length = 8 ∧ maxBlock.length = 8 ∧
      b :: l = b :: (iteration ++ (timestamp ++ (maxBlock ++ data))) := by
  refine ⟨l.take 2, (l.drop 2).take 8, ((l.drop 2).drop 8).take 8, ((l.drop 2).drop 8).drop 8, ?_, ?_, ?_, ?_⟩
  · simp only [List.length_take]
    omega
  · simp only [List.length_take, List.length_drop]
    omega
  · simp only [List.length_take, List.length_drop]
    omega
  · rw [List.take_append_drop, List.take_append_drop, List.take_append_drop]

/-- Reading a member and writing it again gives the same bytes, unless its flag
is neither of the two that are written. -/
theorem packData_unpackData {outOfRange : UInt64} {n : Nat} {packedData : Bytes} (hlen : 19 ≤ packedData.length)
    (hflag : packedData.head? = some 0 ∨ packedData.head? = some 1) (hn : n ≤ 2 ^ 53) :
    ∃ a, unpackData outOfRange n packedData = some a ∧ packData a = (n, packedData) := by
  cases packedData with
  | nil => simp at hlen
  | cons b l =>
    obtain ⟨iteration, timestamp, maxBlock, data, hi, ht, hm, hl⟩ := fields_of_member (b := b) (l := l) (by simpa using hlen)
    rw [hl] at hlen hflag ⊢
    have hiter := bigEndian_lt iteration
    have htime := bigEndian_lt timestamp
    have hmax := bigEndian_lt maxBlock
    have hiter' := putBigEndian_bigEndian iteration
    have htime' := putBigEndian_bigEndian timestamp
    have hmax' := putBigEndian_bigEndian maxBlock
    rw [hi] at hiter hiter'
    rw [ht] at htime htime'
    rw [hm] at hmax hmax'
    refine ⟨_, by rw [unpackData, if_neg (by omega)], ?_⟩
    have hbyte : (if b = 0 then (0 : UInt8) else 1) = b := by
      rcases hflag with h | h <;> simp at h <;> simp [h]
    simp [packData, score_uint64OfScore outOfRange hn, List.drop_append, List.drop_eq_nil_of_le, hi, ht, hm,
      UInt16.toNat_ofNat_of_lt' hiter, UInt64.toNat_ofNat_of_lt' htime, UInt64.toNat_ofNat_of_lt' hmax, hiter', htime', hmax',
      hbyte]

/-- Packing and unpacking are inverse to each other on block numbers that a
double can hold, and only a member that is too short cannot be read. -/
theorem pack_unpack_inverse (outOfRange : UInt64) :
    (∀ a : PackArgs, a.minTargetBlock.toNat ≤ 2 ^ 53 → unpackData outOfRange (packData a).1 (packData a).2 = some a) ∧
      (∀ (n : Nat) (packedData : Bytes), 19 ≤ packedData.length →
        packedData.head? = some 0 ∨ packedData.head? = some 1 → n ≤ 2 ^ 53 →
        ∃ a, unpackData outOfRange n packedData = some a ∧ packData a = (n, packedData)) ∧
      ∀ (n : Nat) (packedData : Bytes), unpackData outOfRange n packedData = none ↔ packedData.length < 19 := by
  refine ⟨?_, ?_, fun n packedData => unpackData_eq_none⟩
  · intro a h
    rw [unpackData_packData]
    exact congrArg some (by rw [packData, uint64OfScore_score outOfRange h])
  · intro n packedData hlen hflag hn
    exact packData_unpackData hlen hflag hn

/-- A low-priority item with a negative time, and a member of nineteen bytes. -/
theorem pack_unpack_at_bound :
    unpackData 0 (packData ⟨[7], 9007199254740992, 5, false, -1, 3⟩).1 (packData ⟨[7], 9007199254740992, 5, false, -1, 3⟩).2 =
        some ⟨[7], 9007199254740992, 5, false, -1, 3⟩ ∧
      ∃ a, unpackData 0 9007199254740992 (0 :: List.replicate 18 255) = some a ∧
        packData a = (9007199254740992, 0 :: List.replicate 18 255) :=
  ⟨(pack_unpack_inverse 0).1 _ (by decide), (pack_unpack_inverse 0).2.1 _ _ (by decide) (by decide) (by decide)⟩

end MevShare.Queue
