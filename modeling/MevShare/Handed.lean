import MevShare.BuilderConsent
import MevShare.Limits
import MevShare.Replacement
/-!
# What a call hands to the scheduler

A bundle gets to `ScheduleBundleSimulation` as it was validated, or with a stored
bundle in the place of the hash it was submitted with. `Handing` tells the two
apart, field by field, and `HandedBy.step` says that nothing else is ever
scheduled, however calls interleave.
-/
open Lib

namespace MevShare

/-- A call with this request gets to `ScheduleBundleSimulation` with this bundle. -/
def Handed (D : Deps) (r : SendRequest) (bundle : SendMevBundleArgs) : Prop :=
  ∃ v b s s', received D r = .ok v ∧ matched D r v = .ok b ∧ Api.replace s r b = .ok (bundle, s')

def MevBundleMetadata.hashes (m : MevBundleMetadata) : Hash × Hash × List Hash :=
  (m.bundleHash, m.matchingHash, m.bodyHashes)

/-- The bundles are the same at the top level, apart from builders. The bundles
nested in them may differ. -/
structure SameTop (b b' : SendMevBundleArgs) : Prop where
  inclusion : b'.inclusion = b.inclusion
  body : b'.body.map (fun el => (el.hash, el.tx)) = b.body.map fun el => (el.hash, el.tx)
  validity : b'.validity = b.validity
  privacy : b'.privacy.map (·.terms) = b.privacy.map (·.terms)
  metadata : b'.metadata.map (·.hashes) = b.metadata.map (·.hashes)

/-- A call has handed the bundle over. It may have been prepared for the builders
before it was stored, which strips the nested bundles (`sharedBundle_sameTop`). -/
def OnceHanded (D : Deps) (b : SendMevBundleArgs) : Prop := ∃ r c, Handed D r c ∧ SameTop c b

/-- The look-up for an unmatched hash answers with a bundle that was handed over
before, under its matching hash. -/
def SendRequest.Answered (D : Deps) (r : SendRequest) : Prop :=
  ∀ el g stored, r.bundle.body.head? = some el → el.hash = some g → r.fetched = .ok stored →
    ∃ m, OnceHanded D stored ∧ stored.metadata = some m ∧ m.matchingHash = g

/-- How the bundle comes from the validated one. -/
inductive Handing (D : Deps) (r : SendRequest) (v : Validated) (bundle : SendMevBundleArgs) : Prop
  | whole : v.unmatched = false → bundle.body = v.bundle.body → bundle.inclusion = v.bundle.inclusion →
      bundle.hasHintHash = v.bundle.hasHintHash →
      bundle.metadata.map (·.hashes) = v.bundle.metadata.map (·.hashes) → Handing D r v bundle
  | spliced {h tx old canRevert revertMode rest stored m} : v.unmatched = true →
      v.bundle.body = ⟨some h, tx, old, canRevert, revertMode⟩ :: rest → r.fetched = .ok stored →
      stored.hasHintHash = true → stored.metadata = some m →
      mergeInclusionIntervals v.bundle.inclusion stored.inclusion = .ok bundle.inclusion →
      bundle.body = ⟨none, tx, some stored, canRevert, revertMode⟩ :: rest →
      bundle.hasHintHash = v.bundle.hasHintHash →
      bundle.metadata.map (·.hashes) =
        v.bundle.metadata.map (fun md => (md.bundleHash, md.matchingHash, findAndReplace md.bodyHashes h m.bundleHash)) →
      Handing D r v bundle

variable {D : Deps} {r : SendRequest} {v : Validated} {bundle : SendMevBundleArgs}

theorem received_ok (h : received D r = .ok v) : ∃ currentBlock, validateBundle D currentBlock r.bundle = .ok v := by
  unfold received at h
  split at h
  · cases h
  · exact ⟨_, h⟩

/-- The hash that a call asks the store for is the one in front of the submission. -/
theorem SendRequest.Answered.stored {g : Hash} {tx : Option Bytes} {old : Option SendMevBundleArgs} {canRevert : Bool}
    {revertMode : String} {rest : List MevBundleBody} {stored : SendMevBundleArgs} (h : r.Answered D)
    (hv : received D r = .ok v) (hhead : v.bundle.body = ⟨some g, tx, old, canRevert, revertMode⟩ :: rest)
    (hfetched : r.fetched = .ok stored) :
    ∃ m, OnceHanded D stored ∧ stored.metadata = some m ∧ m.matchingHash = g := by
  obtain ⟨currentBlock, hvalid⟩ := received_ok hv
  obtain ⟨hkept, -⟩ := validated_body hvalid
  rw [hhead] at hkept
  obtain ⟨el, l, hel, -, hbody⟩ := List.forall₂_cons_right_iff.1 hkept
  cases hel
  exact h _ g stored (by rw [hbody]; rfl) rfl hfetched

theorem replace_keeps {s s' : Api} {bundle' : SendMevBundleArgs} (h : s.replace r bundle = .ok (bundle', s')) :
    bundle'.body = bundle.body ∧ bundle'.inclusion = bundle.inclusion ∧ bundle'.hasHintHash = bundle.hasHintHash ∧
      bundle'.metadata.map (·.hashes) = bundle.metadata.map (·.hashes) := by
  rcases replace_ok h with ⟨-, rfl, -⟩ | ⟨-, -, rfl, -⟩
  · exact ⟨rfl, rfl, rfl, rfl⟩
  · exact ⟨rfl, rfl, rfl, by simp [Function.comp_def, MevBundleMetadata.hashes]⟩

/-- Validation leaves metadata, so the stamp keeps the hashes in it. -/
theorem stamp_hashes (hv : received D r = .ok v) :
    (stamp r v).metadata.map (·.hashes) = v.bundle.metadata.map (·.hashes) := by
  obtain ⟨m, hm, -⟩ := Option.map_eq_some_iff.1 (received_bundleHash hv)
  simp [stamp, hm, MevBundleMetadata.hashes]

theorem handing (h : Handed D r bundle) : ∃ v, received D r = .ok v ∧ Handing D r v bundle := by
  obtain ⟨v, b, s, s', hv, hb, hreplace⟩ := h
  obtain ⟨hbody, hinclusion, hhint, hhashes⟩ := replace_keeps hreplace
  refine ⟨v, hv, ?_⟩
  unfold matched at hb
  split at hb
  · rename_i hu
    obtain ⟨g, tx, old, canRevert, revertMode, rest, stored, m, inclusion, hhead, hfetched, hstored, hm, hmerge, rfl⟩ :=
      matchBundle_ok hb
    refine .spliced hu hhead hfetched hstored hm (hinclusion ▸ hmerge) hbody ?_ ?_
    · rw [hhint]
      exact hasHintHash_eq (merge_terms _)
    · obtain ⟨md, hmd, -⟩ := Option.map_eq_some_iff.1 (received_bundleHash hv)
      rw [hhashes]
      simp [mergePrivacyBuilders, stamp, hmd, MevBundleMetadata.hashes]
  · rename_i hu
    cases hb
    exact .whole (by simpa using hu) hbody hinclusion hhint (hhashes.trans (stamp_hashes hv))

/-- A bundle with a hint was not unmatched: those have none. So it is handed on as it was validated. -/
theorem handed_hinted (h : Handed D r bundle) (hhint : bundle.hasHintHash = true) :
    ∃ currentBlock v, validateBundle D currentBlock r.bundle = .ok v ∧ v.unmatched = false ∧
      bundle.body = v.bundle.body ∧ bundle.inclusion = v.bundle.inclusion ∧
      bundle.metadata.map (·.hashes) = v.bundle.metadata.map (·.hashes) := by
  obtain ⟨v, hv, hhanding⟩ := handing h
  obtain ⟨currentBlock, hvalid⟩ := received_ok hv
  cases hhanding with
  | whole hu hbody hinclusion _ hhashes => exact ⟨currentBlock, v, hvalid, hu, hbody, hinclusion, hhashes⟩
  | spliced hu _ _ _ _ _ _ hsame _ =>
    -- the hints are still those of the submission, and an unmatched one has none
    have hnone := (unmatched_bare hvalid hu).2
    rw [hhint, SendMevBundleArgs.hasHintHash] at hsame
    split at hsame
    · cases hsame
    · rename_i p hp
      rw [hnone p hp] at hsame
      exact absurd hsame (by decide)

theorem Handed.once (h : Handed D r bundle) : OnceHanded D bundle := ⟨r, bundle, h, rfl, rfl, rfl, rfl, rfl⟩

/-- What a call has at hand for its next step. -/
def CallPc.OnWay (D : Deps) (r : SendRequest) : CallPc → Prop
  | .remember v => received D r = .ok v
  | .replace v bundle => received D r = .ok v ∧ matched D r v = .ok bundle
  | .schedule _ bundle => Handed D r bundle
  | _ => True

theorem onWay_step {pc pc' : CallPc} {s s' : Api} (hpc : pc.OnWay D r) (h : callStep D r (pc, s) = some (pc', s')) :
    pc'.OnWay D r ∧ ∀ e ∈ s'.scheduled, e ∈ s.scheduled ∨ Handed D r e.bundle := by
  cases pc with
  | enter =>
    simp only [callStep] at h
    split at h
    · cases h
      exact ⟨trivial, fun e he => .inl he⟩
    · rename_i v hv
      split at h
      · cases h
        exact ⟨trivial, fun e he => .inl he⟩
      · cases h
        exact ⟨hv, fun e he => .inl he⟩
  | remember v =>
    simp only [callStep] at h
    split at h
    · cases h
      exact ⟨trivial, fun e he => .inl he⟩
    · rename_i b hb
      cases h
      exact ⟨⟨hpc, hb⟩, fun e he => .inl he⟩
  | replace v b =>
    obtain ⟨hv, hb⟩ := hpc
    simp only [callStep] at h
    split at h
    · cases h
      exact ⟨trivial, fun e he => .inl he⟩
    · rename_i b' s₁ hreplace
      cases h
      -- taking a nonce leaves the schedule alone
      refine ⟨⟨v, b, s, s', hv, hb, hreplace⟩, fun e he => .inl ?_⟩
      rcases replace_ok hreplace with ⟨-, -, rfl⟩ | ⟨-, -, -, rfl⟩
      · exact he
      · exact he
  | schedule v b =>
    simp only [callStep, Api.schedule] at h
    split at h
    · cases h
      exact ⟨trivial, fun e he => .inl he⟩
    · cases h
      refine ⟨trivial, fun e he => ?_⟩
      rcases List.mem_append.1 he with he | he
      · exact .inl he
      · rw [List.mem_singleton.1 he]
        exact .inr hpc
  | returned result => simp [callStep] at h

/-- Every request has `Q`, and whatever is scheduled was handed over by a call with such a request. -/
structure HandedBy (D : Deps) (Q : SendRequest → Prop) (s : Calls) : Prop where
  calls : ∀ c ∈ s.calls, Q c.req ∧ c.pc.OnWay D c.req
  scheduled : ∀ e ∈ s.api.scheduled, ∃ r, Q r ∧ Handed D r e.bundle

theorem HandedBy.step {Q : SendRequest → Prop} {s s' : Calls} {a : CallAction} (hs : HandedBy D Q s)
    (ha : ∀ r, a = .call r → Q r) (hstep : callsStep D s a = some s') : HandedBy D Q s' := by
  cases a with
  | call r =>
    cases hstep
    refine ⟨fun c hc => ?_, hs.scheduled⟩
    rcases List.mem_append.1 hc with hc | hc
    · exact hs.calls c hc
    · rw [List.mem_singleton.1 hc]
      exact ⟨ha r rfl, trivial⟩
  | evict h =>
    cases hstep
    exact ⟨hs.calls, hs.scheduled⟩
  | step i =>
    simp only [callsStep, Option.bind_eq_bind, Option.bind_eq_some_iff] at hstep
    obtain ⟨c, hc, ⟨pc', api'⟩, hcall, heq⟩ := hstep
    cases heq
    obtain ⟨hq, hpc⟩ := hs.calls c (List.mem_of_getElem? hc)
    obtain ⟨hpc', hnew⟩ := onWay_step hpc hcall
    refine ⟨fun d hd => ?_, fun e he => ?_⟩
    · rcases List.mem_or_eq_of_mem_set hd with hd | rfl
      · exact hs.calls d hd
      · exact ⟨hq, hpc'⟩
    · rcases hnew e he with he | he
      · exact hs.scheduled e he
      · exact ⟨c.req, hq, he⟩

/-! ## Sample calls -/

/-- A call at block 1 that gets this bundle from the store if it asks for one. -/
def callWith (bundle : SendMevBundleArgs) (fetched : Except Err SendMevBundleArgs) : SendRequest :=
  ⟨bundle, 0, "", false, 0, .ok 1, fetched, false, false⟩

/-- What a call leaves in the store: its bundle as it was validated, with the metadata. -/
def storedBy (r : SendRequest) : SendMevBundleArgs :=
  match received pairDeps r with
  | .ok v => stamp r v
  | .error _ => r.bundle

/-- A submission with a hint. -/
def hinted (el : MevBundleBody) : SendRequest :=
  callWith ⟨"v0.1", "", ⟨2, 2⟩, [el], ⟨[], []⟩, some ⟨hintHash, [], none⟩, none⟩ (.error .backrunNotFound)

/-- A submission that asks for the bundle with the sample's matching hash, and backruns it. -/
def backrunOf (stored : SendMevBundleArgs) : SendRequest :=
  callWith ⟨"v0.1", "", ⟨2, 2⟩, [⟨some sampleMatchingHash, none, none, false, ""⟩,
    ⟨none, some sampleTx, none, false, ""⟩], ⟨[], []⟩, none, none⟩ (.ok stored)

/-- A submission of one transaction. -/
def flatRequest : SendRequest := hinted ⟨none, some sampleTx, none, false, ""⟩

/-- A submission as deep as it may be. -/
def nestedRequest : SendRequest :=
  hinted ⟨none, none, some (oneTx ⟨none, some sampleTx, none, false, ""⟩), false, ""⟩

/-- A successful simulation on the state of block 1. -/
def fineSim : SimMevBundleResponse := ⟨true, "", 1, 0, 0, 0, 0, [], "", []⟩

theorem flatRequest_handed : Handed pairDeps flatRequest (storedBy flatRequest) :=
  ⟨_, _, emptyApi, _, rfl, rfl, rfl⟩

theorem nestedRequest_handed : Handed pairDeps nestedRequest (storedBy nestedRequest) :=
  ⟨_, _, emptyApi, _, rfl, rfl, rfl⟩

end MevShare
