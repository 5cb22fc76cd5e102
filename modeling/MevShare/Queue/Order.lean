import MevShare.Lib.SortedSet
import MevShare.Queue.Pack
/-!
# The order in which items are popped

Redis compares the scores of two entries and then their members byte by byte.
The member of an item is a byte for the priority, three numbers of fixed width
and the payload, so this is the order of the package comment: target block,
priority, retries, time of submission, last target block, payload.
-/
open Lib

namespace MevShare.Queue

/-- The order of the package comment. -/
def Precedes (a b : PackArgs) : Prop :=
  a.minTargetBlock < b.minTargetBlock ∨ a.minTargetBlock = b.minTargetBlock ∧
    ((a.highPriority = true ∧ b.highPriority = false) ∨ a.highPriority = b.highPriority ∧
      (a.iteration < b.iteration ∨ a.iteration = b.iteration ∧
        (a.timestamp < b.timestamp ∨ a.timestamp = b.timestamp ∧
          (a.maxTargetBlock < b.maxTargetBlock ∨ a.maxTargetBlock = b.maxTargetBlock ∧ a.data < b.data))))

instance (a b : PackArgs) : Decidable (Precedes a b) := inferInstanceAs (Decidable (_ ∨ _))

/-! ## The members -/

theorem iteration_bytes_lt {a b : PackArgs} {x y : Bytes} :
    putBigEndian 2 a.iteration.toNat ++ x < putBigEndian 2 b.iteration.toNat ++ y ↔
      a.iteration < b.iteration ∨ (a.iteration = b.iteration ∧ x < y) := by
  rw [putBigEndian_append_lt a.iteration.toNat_lt b.iteration.toNat_lt, UInt16.lt_iff_toNat_lt, UInt16.toNat_inj]

theorem maxTargetBlock_bytes_lt {a b : PackArgs} {x y : Bytes} :
    putBigEndian 8 a.maxTargetBlock.toNat ++ x < putBigEndian 8 b.maxTargetBlock.toNat ++ y ↔
      a.maxTargetBlock < b.maxTargetBlock ∨ (a.maxTargetBlock = b.maxTargetBlock ∧ x < y) := by
  rw [putBigEndian_append_lt a.maxTargetBlock.toNat_lt b.maxTargetBlock.toNat_lt, UInt64.lt_iff_toNat_lt,
    UInt64.toNat_inj]

/-- Two times from 1970 on compare like the unsigned numbers that are written. -/
theorem timestamp_lt {t u : Int64} (ht : 0 ≤ t) (hu : 0 ≤ u) : t.toUInt64.toNat < u.toUInt64.toNat ↔ t < u := by
  have hnat {v : Int64} (hv : 0 ≤ v) : (v.toUInt64.toNat : Int) = v.toInt := by
    have hnonneg : 0 ≤ v.toInt := Int64.le_iff_toInt_le.1 hv
    rw [Int64.toNat_toUInt64_of_le hv, Int64.toNatClampNeg]
    exact Int.toNat_of_nonneg hnonneg
  rw [Int64.lt_iff_toInt_lt, ← hnat ht, ← hnat hu]
  exact Int.ofNat_lt.symm

theorem timestamp_bytes_lt {a b : PackArgs} {x y : Bytes} (ha : 0 ≤ a.timestamp) (hb : 0 ≤ b.timestamp) :
    putBigEndian 8 a.timestamp.toUInt64.toNat ++ x < putBigEndian 8 b.timestamp.toUInt64.toNat ++ y ↔
      a.timestamp < b.timestamp ∨ (a.timestamp = b.timestamp ∧ x < y) := by
  have heq : a.timestamp.toUInt64.toNat = b.timestamp.toUInt64.toNat ↔ a.timestamp = b.timestamp := by
    rw [UInt64.toNat_inj]
    constructor
    · intro h
      simpa using congrArg UInt64.toInt64 h
    · exact congrArg Int64.toUInt64
  rw [putBigEndian_append_lt a.timestamp.toUInt64.toNat_lt b.timestamp.toUInt64.toNat_lt, timestamp_lt ha hb, heq]

/-- The byte of high priority is the smaller one. -/
theorem priority_byte_lt {p q : Bool} {x y : Bytes} :
    (if p then (0 : UInt8) else 1) :: x < (if q then (0 : UInt8) else 1) :: y ↔
      (p = true ∧ q = false) ∨ (p = q ∧ x < y) := by
  rw [List.cons_lt_cons_iff]
  cases p with
  | true => cases q <;> simp
  | false => cases q <;> simp

/-! ## The entries -/

theorem score_eq {n : UInt64} (h : n.toNat ≤ 2 ^ 53) : score n = n.toNat := toDouble_of_le h

theorem sortsBefore_packData {a b : PackArgs} (ha : a.minTargetBlock.toNat ≤ 2 ^ 53)
    (hb : b.minTargetBlock.toNat ≤ 2 ^ 53) (hta : 0 ≤ a.timestamp) (htb : 0 ≤ b.timestamp) :
    sortsBefore (packData a) (packData b) = true ↔ Precedes a b := by
  simp only [sortsBefore, packData, score_eq ha, score_eq hb, Bool.or_eq_true, Bool.and_eq_true, decide_eq_true_eq,
    priority_byte_lt, iteration_bytes_lt, timestamp_bytes_lt hta htb, maxTargetBlock_bytes_lt, ← UInt64.lt_iff_toNat_lt,
    UInt64.toNat_inj]
  rfl

/-- Of two different items one precedes the other. -/
theorem eq_of_not_precedes {a b : PackArgs} (hab : ¬Precedes a b) (hba : ¬Precedes b a) : a = b := by
  obtain ⟨data, min, max, high, time, iter⟩ := a
  obtain ⟨data', min', max', high', time', iter'⟩ := b
  simp only [Precedes, not_or, not_and] at hab hba
  obtain ⟨hmin, hab⟩ := hab
  obtain ⟨hmin', hba⟩ := hba
  obtain rfl : min = min' := UInt64.le_antisymm (UInt64.not_lt.1 hmin') (UInt64.not_lt.1 hmin)
  obtain ⟨hhigh, hab⟩ := hab rfl
  obtain ⟨hhigh', hba⟩ := hba rfl
  obtain rfl : high = high' := by
    cases high with
    | true => cases high' <;> simp_all
    | false => cases high' <;> simp_all
  obtain ⟨hiter, hab⟩ := hab rfl
  obtain ⟨hiter', hba⟩ := hba rfl
  obtain rfl : iter = iter' := UInt16.le_antisymm (UInt16.not_lt.1 hiter') (UInt16.not_lt.1 hiter)
  obtain ⟨htime, hab⟩ := hab rfl
  obtain ⟨htime', hba⟩ := hba rfl
  obtain rfl : time = time' := Int64.le_antisymm (Int64.not_lt.1 htime') (Int64.not_lt.1 htime)
  obtain ⟨hmax, hab⟩ := hab rfl
  obtain ⟨hmax', hba⟩ := hba rfl
  obtain rfl : max = max' := UInt64.le_antisymm (UInt64.not_lt.1 hmax') (UInt64.not_lt.1 hmax)
  obtain rfl : data = data' := List.le_antisymm (List.not_lt.1 (hba rfl)) (List.not_lt.1 (hab rfl))
  rfl

/-- For blocks that are scores as they are and times from 1970 on, the order of
the entries is the documented one, and two items between which it does not
decide are the same. -/
theorem sortsBefore_iff_precedes {a b : PackArgs} (ha : a.minTargetBlock.toNat ≤ 2 ^ 53)
    (hb : b.minTargetBlock.toNat ≤ 2 ^ 53) (hta : 0 ≤ a.timestamp) (htb : 0 ≤ b.timestamp) :
    (sortsBefore (packData a) (packData b) = true ↔ Precedes a b) ∧
      (sortsBefore (packData a) (packData b) = false → sortsBefore (packData b) (packData a) = false → a = b) := by
  have hab := sortsBefore_packData ha hb hta htb
  have hba := sortsBefore_packData hb ha htb hta
  refine ⟨hab, fun hnot hnot' => eq_of_not_precedes ?_ ?_⟩
  · rw [← hab, hnot]
    exact Bool.false_ne_true
  · rw [← hba, hnot']
    exact Bool.false_ne_true

/-- A retried item comes after a later one that was not retried, and the 256
retries of the first are more than the 2 of the other. -/
theorem sortsBefore_iff_precedes_iterations :
    sortsBefore (packData ⟨[9], 5, 6, false, 7, 2⟩) (packData ⟨[], 5, 6, false, 1, 256⟩) = true ∧
      Precedes ⟨[9], 5, 6, false, 7, 2⟩ ⟨[], 5, 6, false, 1, 256⟩ :=
  have hprecedes : Precedes ⟨[9], 5, 6, false, 7, 2⟩ ⟨[], 5, 6, false, 1, 256⟩ := by decide
  ⟨(sortsBefore_iff_precedes (by decide) (by decide) (by decide) (by decide)).1.2 hprecedes, hprecedes⟩

end MevShare.Queue
