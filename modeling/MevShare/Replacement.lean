import MevShare.KnownBundles
/-!
# Replacement nonces under concurrent calls

Calls of `SendBundle` for one signer and replacement UUID take their nonces from
one counter, and a worker drops a bundle whose nonce the counter has passed. The
counter moves in the middle of a call: before the bundle is scheduled and before
the call returns. So the bundle of a successful call is current until another
call for the same pair increments the counter (`last_increment_current`), which
may be long before that other call returns.
-/
open Lib

namespace MevShare

structure Call where
  req : SendRequest
  pc : CallPc

/-- The calls so far and what they share. -/
structure Calls where
  api : Api
  calls : List Call
  /-- the call that incremented the nonce of a pair last -/
  lastIncrement : ReplacementKey → Option Nat

inductive CallAction where
  | call (r : SendRequest)
  | step (i : Nat)
  | evict (h : Hash)

/-- The pair whose nonce a step from `pc` to `pc'` has incremented. -/
def incremented (r : SendRequest) : CallPc → CallPc → Option ReplacementKey
  | .replace _ bundle, .schedule _ _ =>
    if bundle.replacementUUID = "" then none else some (r.signer, bundle.replacementUUID)
  | _, _ => none

def callsStep (D : Deps) (s : Calls) : CallAction → Option Calls
  | .call r => some { s with calls := s.calls ++ [⟨r, .enter⟩] }
  | .step i => do
    let c ← s.calls[i]?
    let (pc, api) ← callStep D c.req (c.pc, s.api)
    return {
      api
      calls := s.calls.set i { c with pc }
      lastIncrement := fun key => if incremented c.req c.pc pc = some key then some i else s.lastIncrement key }
  | .evict h =>
    some { s with api := { s.api with
      knownBundleCache := fun h' => if h' = h then none else s.api.knownBundleCache h' } }

/-- No call has been made; Redis and the scheduler may hold anything. -/
def Calls.start (api : Api) : Calls := ⟨api, [], fun _ => none⟩

/-- The bundle has this hash, belongs to the pair, and has the nonce that the pair is at. -/
def Current (s : Api) (key : ReplacementKey) (h : Hash) (bundle : SendMevBundleArgs) : Prop :=
  ∃ m, bundle.metadata = some m ∧ m.bundleHash = h ∧ m.signer = key.1 ∧ bundle.replacementUUID = key.2 ∧
    m.replacementNonce = s.nonces key

/-! ## The invariant -/

/-- What a call knows at its next step. -/
def CallPc.Sound (D : Deps) (r : SendRequest) : CallPc → Prop
  | .remember v => received D r = .ok v
  | .replace v bundle => ∃ m, bundle.metadata = some m ∧ m.bundleHash = v.hash ∧ m.signer = r.signer
  | _ => True

/-- What holds of a call while nobody has incremented the pair's nonce after it. -/
def CallPc.Last (s : Api) (key : ReplacementKey) : CallPc → Prop
  | .schedule v bundle => Current s key v.hash bundle
  | .returned (.ok h) => ∃ e ∈ s.scheduled, Current s key h e.bundle
  | .returned (.error _) => True
  | _ => False

structure CallsInv (D : Deps) (s : Calls) : Prop where
  sound : ∀ c ∈ s.calls, c.pc.Sound D c.req
  last : ∀ key i, s.lastIncrement key = some i → ∃ c, s.calls[i]? = some c ∧ c.pc.Last s.api key

variable {D : Deps}

theorem Current.of_nonce {s s' : Api} {key : ReplacementKey} {h : Hash} {bundle : SendMevBundleArgs}
    (hc : Current s key h bundle) (hn : s'.nonces key = s.nonces key) : Current s' key h bundle := by
  obtain ⟨m, hm, hh, hs, hu, hnonce⟩ := hc
  exact ⟨m, hm, hh, hs, hu, hnonce.trans hn.symm⟩

/-- Other calls may add to what is scheduled and change other pairs' nonces. -/
theorem CallPc.Last.mono {s s' : Api} {key : ReplacementKey} {pc : CallPc} (h : pc.Last s key)
    (hn : s'.nonces key = s.nonces key) (hs : ∀ e ∈ s.scheduled, e ∈ s'.scheduled) : pc.Last s' key := by
  cases pc with
  | schedule v bundle => exact Current.of_nonce h hn
  | returned result =>
    cases result with
    | ok h' =>
      obtain ⟨e, he, hcur⟩ := h
      exact ⟨e, hs e he, hcur.of_nonce hn⟩
    | error e => trivial
  | _ => exact h.elim

/-- What a step of a call does: to the shared state, to the call, and to the
pair whose nonce it increments if it does. -/
theorem callStep_effect {r : SendRequest} {pc pc' : CallPc} {s s' : Api} (hsound : pc.Sound D r)
    (h : callStep D r (pc, s) = some (pc', s')) :
    pc'.Sound D r ∧ (∀ e ∈ s.scheduled, e ∈ s'.scheduled) ∧
      (∀ key, incremented r pc pc' ≠ some key → s'.nonces key = s.nonces key) ∧
      (∀ key, incremented r pc pc' = some key → pc'.Last s' key) ∧
      (∀ key, pc.Last s key → pc'.Last s' key) := by
  cases pc with
  | enter =>
    simp only [callStep] at h
    split at h
    · cases h
      simp [CallPc.Sound, incremented, CallPc.Last]
    · rename_i v hv
      split at h <;> cases h <;> simp [CallPc.Sound, incremented, CallPc.Last, hv]
  | remember v =>
    simp only [CallPc.Sound] at hsound
    simp only [callStep] at h
    split at h
    · cases h
      simp [CallPc.Sound, incremented, CallPc.Last, Api.remember]
    · rename_i bundle hb
      cases h
      simpa [CallPc.Sound, incremented, CallPc.Last, Api.remember] using matched_metadata hsound hb
  | replace v bundle =>
    obtain ⟨m, hm, hh, hs⟩ := hsound
    simp only [callStep] at h
    split at h
    · cases h
      simp [CallPc.Sound, incremented, CallPc.Last]
    · rename_i bundle' s₁ hr
      cases h
      rcases replace_ok hr with ⟨huuid, rfl, rfl⟩ | ⟨huuid, -, rfl, rfl⟩
      · simp [CallPc.Sound, incremented, CallPc.Last, huuid]
      · refine ⟨trivial, fun e he => he, fun key hkey => ?_, fun key hkey => ?_, fun key hlast => hlast.elim⟩
        · have hne : key ≠ (r.signer, bundle.replacementUUID) := by
            rintro rfl
            simp [incremented, huuid] at hkey
          simp [Api.setNonce, hne]
        · simp only [incremented, huuid, ↓reduceIte, Option.some.injEq] at hkey
          subst hkey
          exact ⟨{ m with replacementNonce := s.nonces (r.signer, bundle.replacementUUID) + 1 }, by simp [hm], hh, hs, rfl,
            by simp [Api.setNonce]⟩
  | schedule v bundle =>
    simp only [callStep, Api.schedule] at h
    split at h
    · cases h
      simp [CallPc.Sound, incremented, CallPc.Last]
    · cases h
      refine ⟨trivial, by simp +contextual, fun _ _ => rfl, by simp [incremented], fun key hlast => ?_⟩
      exact ⟨⟨bundle, r.highPriority, v.bundle.inclusion.maxBlock⟩, by simp, Current.of_nonce hlast rfl⟩
  | returned result => simp [callStep] at h

theorem CallsInv.step {s s' : Calls} {a : CallAction} (hs : CallsInv D s) (hstep : callsStep D s a = some s') :
    CallsInv D s' := by
  cases a with
  | call r =>
    cases hstep
    refine ⟨fun c hc => ?_, fun key i hi => ?_⟩
    · rcases List.mem_append.1 hc with hc | hc
      · exact hs.sound c hc
      · rw [List.mem_singleton.1 hc]
        trivial
    · obtain ⟨c, hc, hlast⟩ := hs.last key i hi
      have hlt := (List.getElem?_eq_some_iff.1 hc).1
      exact ⟨c, by rw [List.getElem?_append_left hlt, hc], hlast⟩
  | evict h =>
    cases hstep
    exact ⟨hs.sound, hs.last⟩
  | step i =>
    simp only [callsStep, Option.bind_eq_bind, Option.bind_eq_some_iff] at hstep
    obtain ⟨c, hc, ⟨pc', api'⟩, hcall, heq⟩ := hstep
    cases heq
    have hlt := (List.getElem?_eq_some_iff.1 hc).1
    obtain ⟨hsound, hsched, hother, hinc, hkeep⟩ := callStep_effect (hs.sound c (List.mem_of_getElem? hc)) hcall
    refine ⟨fun d hd => ?_, fun key j hj => ?_⟩
    · rcases List.mem_or_eq_of_mem_set hd with hd | rfl
      · exact hs.sound d hd
      · exact hsound
    · -- the last call to increment the key is the one that moves, if its step increments it, and the old one otherwise
      simp only at hj
      split at hj
      · rename_i hkey
        cases hj
        exact ⟨_, List.getElem?_set_self hlt, hinc key hkey⟩
      · rename_i hkey
        obtain ⟨d, hd, hlast⟩ := hs.last key j hj
        by_cases hij : i = j
        · subst hij
          rw [hc] at hd
          cases hd
          exact ⟨_, List.getElem?_set_self hlt, hkeep key hlast⟩
        · exact ⟨d, by rw [List.getElem?_set_ne hij, hd], hlast.mono (hother key hkey) hsched⟩

theorem isOldBundle_current {s : Api} {key : ReplacementKey} {bundle : SendMevBundleArgs} {m : MevBundleMetadata}
    (h : m.replacementNonce = s.nonces key) : isOldBundle bundle m (s.getReplacementNonce key) = false := by
  unfold isOldBundle Api.getReplacementNonce
  split
  · rename_i nonce hnonce
    split at hnonce
    · cases hnonce
    · cases hnonce
      simp [h]
  · rfl

/-- In every interleaving: after a call has returned success with hash `h`, and
as long as it is the last call to have incremented the nonce of a pair, the
nonce that the pair is at is that of a scheduled bundle of the pair with hash
`h`, and a worker that reads it does not take this bundle for old. -/
theorem last_increment_current {api : Api} {tr : List (Calls × CallAction)} {s : Calls}
    (hrun : Run (callsStep D) (.start api) tr s) {key : ReplacementKey} {i : Nat} (hlast : s.lastIncrement key = some i)
    {r : SendRequest} {h : Hash} (hret : s.calls[i]? = some ⟨r, .returned (.ok h)⟩) :
    ∃ e ∈ s.api.scheduled, ∃ m, e.bundle.metadata = some m ∧ m.bundleHash = h ∧ m.signer = key.1 ∧
      e.bundle.replacementUUID = key.2 ∧ m.replacementNonce = s.api.nonces key ∧
      isOldBundle e.bundle m (s.api.getReplacementNonce key) = false := by
  have hs : CallsInv D s := @Run.inv _ _ _ _ (fun _ _ => True) _ ⟨by simp [Calls.start], by simp [Calls.start]⟩
    (fun _ _ _ hs _ hstep => hs.step hstep) _ _ hrun fun _ _ => trivial
  obtain ⟨c, hc, hcur⟩ := hs.last key i hlast
  rw [hret] at hc
  cases hc
  obtain ⟨e, he, m, hm, hh, hsig, huuid, hnonce⟩ := hcur
  exact ⟨e, he, m, hm, hh, hsig, huuid, hnonce, isOldBundle_current hnonce⟩

/-- A transaction under a replacement UUID, valid until the given block. -/
def replacementRequest (maxBlock : UInt64) : SendRequest :=
  { txRequest maxBlock false with bundle := { (txRequest maxBlock false).bundle with replacementUUID := "uuid" } }

/-- Redis, the scheduler and the cache are empty. -/
def emptyApi : Api := .start fun _ => 0

/-- Two calls for one pair overlap: the first takes its nonce first, and returns last. -/
theorem last_increment_current_overlapping :
    ∃ tr s, Run (callsStep sampleDeps) (.start emptyApi) tr s ∧ s.lastIncrement (7, "uuid") = some 1 ∧
      s.api.scheduled.length = 2 ∧
      ∃ e ∈ s.api.scheduled, ∃ m, e.bundle.metadata = some m ∧ m.bundleHash = sampleTransaction.hash ∧
        m.replacementNonce = s.api.nonces (7, "uuid") ∧
        isOldBundle e.bundle m (s.api.getReplacementNonce (7, "uuid")) = false := by
  have hexec : ∃ s, List.foldlM (callsStep sampleDeps) (.start emptyApi)
        [.call (replacementRequest 3), .call (replacementRequest 4), .step 0, .step 1, .step 0, .step 1, .step 0, .step 1,
          .step 1, .step 0] = some s ∧
      s.lastIncrement (7, "uuid") = some 1 ∧ s.api.scheduled.length = 2 ∧
      s.calls[1]? = some ⟨replacementRequest 4, .returned (.ok sampleTransaction.hash)⟩ :=
    ⟨_, rfl, rfl, rfl, rfl⟩
  obtain ⟨s, hexec, hlast, htwo, hret⟩ := hexec
  obtain ⟨tr, hrun, -⟩ := run_of_foldlM hexec
  obtain ⟨e, he, m, hm, hh, -, -, hnonce, hold⟩ := last_increment_current hrun hlast hret
  exact ⟨tr, s, hrun, hlast, htwo, e, he, m, hm, hh, hnonce, hold⟩

/-- The first call has returned success and the second, for the same pair, has
not returned: its increment already makes the first call's bundle old. -/
theorem unreturned_replacement_makes_old :
    ∃ tr s m e, Run (callsStep sampleDeps) (.start emptyApi) tr s ∧
      (s.calls[0]?).map (·.pc) = some (.returned (.ok sampleTransaction.hash)) ∧
      (∀ c ∈ s.calls.tail, ∀ result, c.pc ≠ .returned result) ∧ s.api.scheduled = [e] ∧ e.bundle.metadata = some m ∧
      m.bundleHash = sampleTransaction.hash ∧ m.replacementNonce ≠ s.api.nonces (7, "uuid") ∧
      isOldBundle e.bundle m (s.api.getReplacementNonce (7, "uuid")) = true := by
  have hexec : ∃ s, List.foldlM (callsStep sampleDeps) (.start emptyApi)
        [.call (replacementRequest 3), .step 0, .step 0, .step 0, .step 0,
          .call (replacementRequest 4), .step 1, .step 1, .step 1] = some s ∧
      (s.calls[0]?).map (·.pc) = some (.returned (.ok sampleTransaction.hash)) ∧
      (∀ c ∈ s.calls.tail, ∀ result, c.pc ≠ .returned result) ∧
      ∃ e m, s.api.scheduled = [e] ∧ e.bundle.metadata = some m ∧ m.bundleHash = sampleTransaction.hash ∧
        m.replacementNonce ≠ s.api.nonces (7, "uuid") ∧
        isOldBundle e.bundle m (s.api.getReplacementNonce (7, "uuid")) = true :=
    ⟨_, rfl, rfl, List.forall_mem_singleton.2 (fun _ h => nomatch h), _, _, rfl, rfl, rfl, by decide, rfl⟩
  obtain ⟨s, hexec, hret, hpending, e, m, he, hm, hh, hnonce, hold⟩ := hexec
  obtain ⟨tr, hrun, -⟩ := run_of_foldlM hexec
  exact ⟨tr, s, m, e, hrun, hret, hpending, he, hm, hh, hnonce, hold⟩

end MevShare
