import MevShare.BodyHashes
import MevShare.Lib.Runs
import MevShare.Worker
/-!
# `mevshare/api.go`

`API.SendBundle`. What it shares with other calls is an `Api`: the cache of
known bundles, the replacement nonces in Redis and the bundles handed to the
scheduler. Everything else a call depends on comes with its `SendRequest`, the
outcomes of its calls to the outside included.

`sendBundle` is a call on its own. `callStep` cuts it at its accesses to the
shared state, so that calls can interleave; `sendBundle_steps` says that the two
agree.
-/
open Lib

namespace MevShare

/-- One call of `SendBundle`. -/
structure SendRequest where
  bundle : SendMevBundleArgs
  signer : Address
  origin : String
  highPriority : Bool
  receivedAt : UInt64
  /-- what the Ethereum node answers -/
  blockNumber : Except Err UInt64
  /-- what the look-up of an unmatched hash returns -/
  fetched : Except Err SendMevBundleArgs
  incrFails : Bool
  scheduleFails : Bool

/-- A bundle that the scheduler accepted, and the last block it was validated for. -/
structure Scheduled where
  bundle : SendMevBundleArgs
  highPriority : Bool
  validatedMaxBlock : UInt64

/-- A key of the replacement cache. In Redis it is the text of the address
followed by the UUID; the text of an address has a fixed length. -/
abbrev ReplacementKey := Address × String

/-- Of a cached bundle only the inclusion is ever read. -/
structure Api where
  knownBundleCache : Hash → Option SendMevBundleArgs
  nonces : ReplacementKey → UInt64
  scheduled : List Scheduled

/-- The largest value that Redis increments to. -/
def maxNonce : UInt64 := 0x7fffffffffffffff

def findAndReplace (hashes : List Hash) (old replacer : Hash) : List Hash :=
  hashes.map fun h => if h = old then replacer else h

section Deps
variable (D : Deps)

/-! ## The stages -/

/-- The block number and the validation. -/
def received (r : SendRequest) : Except Err Validated :=
  match r.blockNumber with
  | .error _ => throw .internalServiceError
  | .ok currentBlock => validateBundle D currentBlock r.bundle

/-- The bundle is in the cache with an inclusion that ends no earlier. -/
def alreadyKnown (cached : Option SendMevBundleArgs) (bundle : SendMevBundleArgs) : Bool :=
  match cached with
  | none => false
  | some old => !newerInclusion old bundle

def stamp (r : SendRequest) (v : Validated) : SendMevBundleArgs :=
  { v.bundle with
    metadata := some { v.bundle.metadata.getD .empty with
      signer := r.signer
      receivedAt := r.receivedAt
      originID := r.origin
      prematched := !v.unmatched } }

/-- The fetched bundle takes the place of the hash at the head of the body. -/
def matchBundle (bundle : SendMevBundleArgs) (fetched : Except Err SendMevBundleArgs) : Except Err SendMevBundleArgs :=
  match bundle.body with
  | ⟨some unmatchedHash, tx, _, canRevert, revertMode⟩ :: rest =>
    match fetched with
    | .error _ => throw .backrunNotFound
    | .ok unmatched => do
      rejectIf (unmatched.hasHintHash = false) .backrunInvalidBundle
      match unmatched.metadata with
      | none => throw .panic
      | some m =>
        let percent := (unmatched.privacy.bind (·.wantRefund)).getD refundPercent
        let spliced := mergePrivacyBuilders D { bundle with
          body := ⟨none, tx, some unmatched, canRevert, revertMode⟩ :: rest
          metadata := bundle.metadata.map fun md =>
            { md with bodyHashes := findAndReplace md.bodyHashes unmatchedHash m.bundleHash }
          validity := { bundle.validity with refund := [⟨0, percent⟩] } }
        match mergeInclusionIntervals bundle.inclusion unmatched.inclusion with
        | .error _ => throw .backrunInclusion
        | .ok inclusion => return { spliced with inclusion }
  | _ => throw .internalServiceError

/-- What is scheduled of a validated bundle, before it gets its nonce. -/
def matched (r : SendRequest) (v : Validated) : Except Err SendMevBundleArgs :=
  if v.unmatched then matchBundle D (stamp r v) r.fetched else return stamp r v

def Api.remember (s : Api) (v : Validated) : Api :=
  { s with knownBundleCache := fun h => if h = v.hash then some v.bundle else s.knownBundleCache h }

def Api.setNonce (s : Api) (key : ReplacementKey) (nonce : UInt64) : Api :=
  { s with nonces := fun k => if k = key then nonce else s.nonces k }

def Api.incReplacementNonce (s : Api) (key : ReplacementKey) (fails : Bool) : Except Err (UInt64 × Api) :=
  if fails || s.nonces key = maxNonce then throw .internalServiceError
  else return (s.nonces key + 1, s.setNonce key (s.nonces key + 1))

/-- A key that was never incremented is absent. -/
def Api.getReplacementNonce (s : Api) (key : ReplacementKey) : Except Err UInt64 :=
  if s.nonces key = 0 then throw .internalServiceError else return s.nonces key

/-- A bundle with a replacement UUID gets the next nonce. -/
def Api.replace (s : Api) (r : SendRequest) (bundle : SendMevBundleArgs) : Except Err (SendMevBundleArgs × Api) :=
  if bundle.replacementUUID = "" then return (bundle, s)
  else do
    let (nonce, s) ← s.incReplacementNonce (r.signer, bundle.replacementUUID) r.incrFails
    return ({ bundle with metadata := bundle.metadata.map fun m => { m with replacementNonce := nonce } }, s)

def Api.schedule (s : Api) (r : SendRequest) (v : Validated) (bundle : SendMevBundleArgs) : Except Err Hash × Api :=
  if r.scheduleFails then (.error .internalServiceError, s)
  else (.ok v.hash, { s with scheduled := s.scheduled ++ [⟨bundle, r.highPriority, v.bundle.inclusion.maxBlock⟩] })

/-! ## A call on its own -/

def sendBundle (s : Api) (r : SendRequest) : Except Err Hash × Api :=
  match received D r with
  | .error e => (.error e, s)
  | .ok v =>
    if alreadyKnown (s.knownBundleCache v.hash) v.bundle then (.ok v.hash, s)
    else
      let s := s.remember v
      match matched D r v with
      | .error e => (.error e, s)
      | .ok bundle =>
        match s.replace r bundle with
        | .error e => (.error e, s)
        | .ok (bundle, s) => s.schedule r v bundle

/-! ## Calls that interleave -/

/-- What a call does next. -/
inductive CallPc where
  | enter
  | remember (v : Validated)
  | replace (v : Validated) (bundle : SendMevBundleArgs)
  | schedule (v : Validated) (bundle : SendMevBundleArgs)
  | returned (result : Except Err Hash)

def callStep (r : SendRequest) : CallPc × Api → Option (CallPc × Api)
  | (.enter, s) =>
    match received D r with
    | .error e => some (.returned (.error e), s)
    | .ok v =>
      if alreadyKnown (s.knownBundleCache v.hash) v.bundle then some (.returned (.ok v.hash), s)
      else some (.remember v, s)
  | (.remember v, s) =>
    match matched D r v with
    | .error e => some (.returned (.error e), s.remember v)
    | .ok bundle => some (.replace v bundle, s.remember v)
  | (.replace v bundle, s) =>
    match s.replace r bundle with
    | .error e => some (.returned (.error e), s)
    | .ok (bundle, s) => some (.schedule v bundle, s)
  | (.schedule v bundle, s) =>
    let (result, s) := s.schedule r v bundle
    some (.returned result, s)
  | (.returned _, _) => none

/-- A call that nobody interrupts does what `sendBundle` says. -/
theorem sendBundle_steps (s : Api) (r : SendRequest) :
    ∃ tr, Run (fun c (_ : Unit) => callStep D r c) (.enter, s) tr
      (.returned (sendBundle D s r).1, (sendBundle D s r).2) := by
  unfold sendBundle
  cases hv : received D r with
  | error e => exact ⟨_, .snoc .nil (a := ()) (by simp [callStep, hv])⟩
  | ok v =>
    dsimp only
    split
    · rename_i hk
      exact ⟨_, .snoc .nil (a := ()) (by simp [callStep, hv, hk])⟩
    · rename_i hk
      have h1 : callStep D r (.enter, s) = some (.remember v, s) := by simp [callStep, hv, hk]
      cases hb : matched D r v with
      | error e => exact ⟨_, .snoc (.snoc .nil (a := ()) h1) (a := ()) (by simp [callStep, hb])⟩
      | ok bundle =>
        have h2 : callStep D r (.remember v, s) = some (.replace v bundle, s.remember v) := by simp [callStep, hb]
        cases hr : (s.remember v).replace r bundle with
        | error e => exact ⟨_, .snoc (.snoc (.snoc .nil (a := ()) h1) (a := ()) h2) (a := ()) (by simp [callStep, hr])⟩
        | ok p =>
          have h3 : callStep D r (.replace v bundle, s.remember v) = some (.schedule v p.1, p.2) := by simp [callStep, hr]
          exact ⟨_, .snoc (.snoc (.snoc (.snoc .nil (a := ()) h1) (a := ()) h2) (a := ()) h3) (a := ())
            (by simp [callStep, hr])⟩

end Deps

/-! ## What the stages keep -/

section Stages
variable {D : Deps} {r : SendRequest} {v : Validated} {bundle : SendMevBundleArgs}

theorem received_bundleHash (h : received D r = .ok v) : v.bundle.metadata.map (·.bundleHash) = some v.hash := by
  unfold received at h
  split at h
  · cases h
  · exact bundleHash_of_ok h

/-- Everything a successful match went through, and what it makes of the bundle. -/
theorem matchBundle_ok {b : SendMevBundleArgs} {fetched : Except Err SendMevBundleArgs}
    (h : matchBundle D b fetched = .ok bundle) :
    ∃ unmatchedHash tx old canRevert revertMode rest unmatched m inclusion,
      b.body = ⟨some unmatchedHash, tx, old, canRevert, revertMode⟩ :: rest ∧ fetched = .ok unmatched ∧
      unmatched.hasHintHash = true ∧ unmatched.metadata = some m ∧
      mergeInclusionIntervals b.inclusion unmatched.inclusion = .ok inclusion ∧
      bundle = { mergePrivacyBuilders D { b with
        body := ⟨none, tx, some unmatched, canRevert, revertMode⟩ :: rest
        metadata := b.metadata.map fun md =>
          { md with bodyHashes := findAndReplace md.bodyHashes unmatchedHash m.bundleHash }
        validity := { b.validity with
          refund := [⟨0, (unmatched.privacy.bind (·.wantRefund)).getD refundPercent⟩] } } with inclusion } := by
  unfold matchBundle at h
  split at h
  · rename_i unmatchedHash tx old canRevert revertMode rest hbody
    split at h
    · cases h
    · rename_i unmatched
      simp only [bind_ok, rejectIf_ok] at h
      obtain ⟨_, hhint, h⟩ := h
      split at h
      · cases h
      · rename_i m hm
        split at h
        · cases h
        · rename_i inclusion hmerge
          cases h
          exact ⟨unmatchedHash, tx, old, canRevert, revertMode, rest, unmatched, m, inclusion, hbody, rfl,
            by simpa using hhint, hm, hmerge, rfl⟩
  · cases h

theorem matchBundle_metadata {b : SendMevBundleArgs} {fetched : Except Err SendMevBundleArgs}
    (h : matchBundle D b fetched = .ok bundle) :
    bundle.metadata.map (fun m => (m.bundleHash, m.signer)) = b.metadata.map (fun m => (m.bundleHash, m.signer)) := by
  obtain ⟨_, _, _, _, _, _, _, _, _, -, -, -, -, -, rfl⟩ := matchBundle_ok h
  simp [mergePrivacyBuilders, Function.comp_def]

/-- What is scheduled has the hash of the submission and the signer of the request. -/
theorem matched_metadata (hv : received D r = .ok v) (h : matched D r v = .ok bundle) :
    ∃ m, bundle.metadata = some m ∧ m.bundleHash = v.hash ∧ m.signer = r.signer := by
  obtain ⟨m₀, hm₀, hhash⟩ := Option.map_eq_some_iff.1 (received_bundleHash hv)
  have hstamp : (stamp r v).metadata.map (fun m => (m.bundleHash, m.signer)) = some (v.hash, r.signer) := by
    simp [stamp, hm₀, hhash]
  have hkeeps : bundle.metadata.map (fun m => (m.bundleHash, m.signer)) = some (v.hash, r.signer) := by
    unfold matched at h
    split at h
    · rw [matchBundle_metadata h, hstamp]
    · cases h
      exact hstamp
  obtain ⟨m, hm, heq⟩ := Option.map_eq_some_iff.1 hkeeps
  exact ⟨m, hm, congrArg Prod.fst heq, congrArg Prod.snd heq⟩

/-- The nonce is the only thing that `replace` changes. -/
theorem replace_ok {s s' : Api} {bundle' : SendMevBundleArgs} (h : s.replace r bundle = .ok (bundle', s')) :
    (bundle.replacementUUID = "" ∧ bundle' = bundle ∧ s' = s) ∨
      (bundle.replacementUUID ≠ "" ∧ s.nonces (r.signer, bundle.replacementUUID) ≠ maxNonce ∧
        bundle' = { bundle with metadata := bundle.metadata.map fun m =>
          { m with replacementNonce := s.nonces (r.signer, bundle.replacementUUID) + 1 } } ∧
        s' = s.setNonce (r.signer, bundle.replacementUUID) (s.nonces (r.signer, bundle.replacementUUID) + 1)) := by
  unfold Api.replace at h
  split at h
  · rename_i huuid
    cases h
    exact .inl ⟨huuid, rfl, rfl⟩
  · rename_i huuid
    simp only [bind_ok, Api.incReplacementNonce] at h
    obtain ⟨⟨nonce, s₁⟩, hinc, heq⟩ := h
    split at hinc
    · cases hinc
    · rename_i hmax
      cases hinc
      cases heq
      simp only [Bool.or_eq_true, decide_eq_true_eq, not_or] at hmax
      exact .inr ⟨huuid, hmax.2, rfl, rfl⟩

end Stages

end MevShare
