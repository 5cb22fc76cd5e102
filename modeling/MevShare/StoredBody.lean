import MevShare.Handed
import MevShare.SimHistory
/-!
# The body that is stored

A bundle that is submitted again with a later `maxBlock` is queued beside the
first submission, and the results of both are recorded under one hash. The
comment on the update expects the row to have the body with the largest
`maxBlock`. Every call writes the body it was called with, so the row has the
body of the last call, and that is the wanted one as long as the calls come in
the order of their `maxBlock`.
-/
open Lib

namespace MevShare

def StatsCall.maxBlock (c : StatsCall) : UInt64 := c.bundle.inclusion.maxBlock

/-- Of the committed calls for the hash, the row has the body of one with the largest `maxBlock`. -/
def History.NewestBody (h : Hash) (s : History) : Prop :=
  s.calls ≠ [] → ∃ r c, s.db.bundle h = some r ∧ c ∈ s.calls.map Prod.fst ∧ r.body = c.bundle ∧
    ∀ d ∈ s.calls.map Prod.fst, d.maxBlock ≤ c.maxBlock

variable {h : Hash}

theorem History.newestBody_iff {s : History} (hs : s.Sound h) :
    s.NewestBody h ↔ ∀ c, (s.calls.map Prod.fst).getLast? = some c → ∀ d ∈ s.calls.map Prod.fst, d.maxBlock ≤ c.maxBlock := by
  rcases hs.row with ⟨hnil, -⟩ | ⟨r, hr, hsummary⟩
  · simp [NewestBody, hnil]
  · obtain ⟨last, hlast, hbody⟩ := Option.map_eq_some_iff.1 hsummary.body
    have hne : s.calls ≠ [] := fun hnil => hsummary.ne_nil (by rw [hnil, List.map_nil])
    constructor
    · intro hnewest c hc d hd
      obtain ⟨r', e, hr', -, hbody', hmax⟩ := hnewest hne
      rw [hlast] at hc
      rw [hr] at hr'
      cases hc
      cases hr'
      have hsame : last.maxBlock = e.maxBlock := by rw [StatsCall.maxBlock, hbody, hbody', StatsCall.maxBlock]
      rw [hsame]
      exact hmax d hd
    · intro hmax _
      exact ⟨r, last, hr, List.mem_of_getLast? hlast, hbody.symm, hmax last hlast⟩

theorem le_getLast_of_pairwise {calls : List StatsCall} (hp : calls.Pairwise fun c d => c.maxBlock ≤ d.maxBlock) :
    ∀ c, calls.getLast? = some c → ∀ d ∈ calls, d.maxBlock ≤ c.maxBlock := by
  intro c hc d hd
  obtain ⟨front, rfl⟩ := List.getLast?_eq_some_iff.1 hc
  rw [List.pairwise_append] at hp
  rcases List.mem_append.1 hd with hd | hd
  · exact hp.2.2 d hd c (List.mem_singleton_self c)
  · rw [List.mem_singleton.1 hd]
    exact UInt64.le_refl _

/-- One more call keeps the order of the committed ones if and only if the row still has the newest body. -/
theorem History.pairwise_call {s : History} (hs : s.Sound h) (c : StatsCall) :
    (((s.call h c).calls.map Prod.fst).Pairwise fun c d => c.maxBlock ≤ d.maxBlock) ↔
      ((s.calls.map Prod.fst).Pairwise fun c d => c.maxBlock ≤ d.maxBlock) ∧ (s.call h c).NewestBody h := by
  rw [newestBody_iff (hs.call c)]
  by_cases hc : c.hash = some h ∧ c.committed s.db
  · have hcalls : (s.call h c).calls.map Prod.fst = s.calls.map Prod.fst ++ [c] := by
      rw [History.call, if_pos hc, List.map_append]
      rfl
    rw [hcalls, List.pairwise_append]
    simp only [List.pairwise_singleton, List.mem_singleton, forall_eq, true_and, List.getLast?_concat, Option.some.injEq,
      forall_eq', List.mem_append, or_imp, forall_and, UInt64.le_refl, and_true]
  · have hcalls : (s.call h c).calls.map Prod.fst = s.calls.map Prod.fst := by rw [History.call, if_neg hc]
    rw [hcalls]
    exact (and_iff_left_of_imp le_getLast_of_pairwise).symm

/-- From a database without a row for the hash, and whatever other calls are made:
the row has the newest body after each call if and only if the committed calls
for the hash come in the order of their `maxBlock`. -/
theorem newest_body_iff (h : Hash) (db : Database) (hnew : db.bundle h = none) (calls : List StatsCall) :
    (∀ part, part <+: calls → (part.foldl (History.call h) ⟨db, []⟩).NewestBody h) ↔
      ((calls.foldl (History.call h) ⟨db, []⟩).calls.map Prod.fst).Pairwise fun c d => c.maxBlock ≤ d.maxBlock := by
  have hsound : ∀ part : List StatsCall, (part.foldl (History.call h) ⟨db, []⟩).Sound h := fun part =>
    List.foldlRecOn part (History.call h) ⟨.inl ⟨rfl, hnew⟩, by simp⟩ fun _ hs c _ => hs.call c
  induction calls using List.reverseRecOn with
  | nil => simp [History.NewestBody]
  | append_singleton calls c ih =>
    simp only [List.prefix_concat_iff, or_imp, forall_and, forall_eq, ih, List.foldl_append, List.foldl_cons, List.foldl_nil]
    rw [History.pairwise_call (hsound calls), and_comm]

/-! ## Two submissions of one transaction -/

/-- A submission of the sample transaction for the blocks from 2 on. -/
def untilBlock (maxBlock : UInt64) : SendRequest :=
  callWith ⟨"v0.1", "", ⟨2, maxBlock⟩, [⟨none, some sampleTx, none, false, ""⟩], ⟨[], []⟩, none, none⟩ (.error .backrunNotFound)

/-- The result of a simulation of it is recorded. -/
def recorded (maxBlock : UInt64) : StatsCall := ⟨.none, 0, storedBy (untilBlock maxBlock), fineSim⟩

theorem newest_body_in_order :
    Database.empty.bundle sampleTransaction.hash = none ∧
      ([recorded 5, recorded 10].foldl (History.call sampleTransaction.hash) ⟨.empty, []⟩).NewestBody sampleTransaction.hash := by
  have hnew : Database.empty.bundle sampleTransaction.hash = none := rfl
  refine ⟨hnew, (newest_body_iff _ .empty hnew [recorded 5, recorded 10]).2 ?_ _ List.prefix_rfl⟩
  decide +kernel

/-- Both submissions are queued. The result for the later one is recorded first,
and then the row has the body of the earlier one. -/
theorem newest_body_overwritten :
    Handed pairDeps (untilBlock 5) (storedBy (untilBlock 5)) ∧ Handed pairDeps (untilBlock 10) (storedBy (untilBlock 10)) ∧
      ¬([recorded 10, recorded 5].foldl (History.call sampleTransaction.hash) ⟨.empty, []⟩).NewestBody
        sampleTransaction.hash := by
  refine ⟨⟨_, _, emptyApi, _, rfl, rfl, rfl⟩, ⟨_, _, emptyApi, _, rfl, rfl, rfl⟩, fun hnewest => ?_⟩
  have hcalls : ([recorded 10, recorded 5].foldl (History.call sampleTransaction.hash) ⟨.empty, []⟩).calls.map Prod.fst =
      [recorded 10, recorded 5] := rfl
  have hstored : (([recorded 10, recorded 5].foldl (History.call sampleTransaction.hash) ⟨.empty, []⟩).db.bundle
      sampleTransaction.hash).map (·.body.inclusion.maxBlock) = some 5 := rfl
  obtain ⟨r, c, hr, -, hbody, hmax⟩ := hnewest (List.cons_ne_nil _ _)
  rw [hr, Option.map_some, hbody, Option.some.injEq] at hstored
  rw [hcalls] at hmax
  have hle : (recorded 10).maxBlock ≤ c.maxBlock := hmax _ List.mem_cons_self
  rw [StatsCall.maxBlock, StatsCall.maxBlock, hstored] at hle
  exact absurd hle (by decide)

end MevShare
