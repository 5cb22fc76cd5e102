import MevShare.Lib.Checks
import MevShare.Utils
/-!
# `mevshare/bundle_validation.go`

`validateBundleInner` mutates the bundle it is given; here it returns the
bundle as it is when the call returns without error. Its three stages are the
functions `validateInclusion`, `validateBody` (the loop over the body, the only
recursive part) and `finishBundle`. The `signer` argument is never read.
-/

open Lib

namespace MevShare

/-- What the loop of `cleanBody` assigns to its variable. -/
def cleanElement (el : MevBundleBody) : MevBundleBody :=
  let el := if el.hash.isSome then { el with tx := none, bundle := none, revertMode := "" } else el
  let el := if el.tx.isSome then { el with hash := none, bundle := none } else el
  if el.bundle.isSome then { el with hash := none, tx := none, revertMode := "" } else el

/-- `for _, el := range bundle.Body` binds `el` to a copy of the element, so
what the loop assigns to `el` is dropped: the bundle is returned as it was. -/
def cleanBody (bundle : SendMevBundleArgs) : SendMevBundleArgs :=
  let _ := bundle.body.map cleanElement
  bundle

/-- The overlap of the two intervals, or an error if there is none. -/
def mergeInclusionIntervals (topLevel inner : MevBundleInclusion) : Except Err MevBundleInclusion := do
  rejectIf (topLevel.maxBlock < inner.blockNumber ∨ inner.maxBlock < topLevel.blockNumber) .invalidInclusion
  let blockNumber := if topLevel.blockNumber < inner.blockNumber then inner.blockNumber else topLevel.blockNumber
  let maxBlock := if topLevel.maxBlock > inner.maxBlock then inner.maxBlock else topLevel.maxBlock
  return ⟨blockNumber, maxBlock⟩

def validateRevertMode (revertMode : String) : Bool :=
  !(revertMode ≠ "" && revertMode ≠ revertModeFail && revertMode ≠ revertModeDrop && revertMode ≠ revertModeAllow)

/-- Prefers `revertMode`; if it is empty, `canRevert` decides. -/
def applyRevertMode (canRevert : Bool) (revertMode : String) : Bool × String :=
  if revertMode = revertModeFail then (false, revertMode)
  else if revertMode = revertModeDrop then (false, revertMode)
  else if revertMode = revertModeAllow then (true, revertMode)
  else if canRevert then (true, revertModeAllow)
  else (false, revertModeFail)

/-! ## The stages of `validateBundleInner` -/

/-- The inclusion checks, with the default for an absent `maxBlock`. -/
def validateInclusion (inclusion : MevBundleInclusion) (currentBlock : UInt64) : Except Err MevBundleInclusion := do
  let inclusion := if inclusion.maxBlock = 0 then { inclusion with maxBlock := inclusion.blockNumber } else inclusion
  let minBlock := inclusion.blockNumber
  let maxBlock := inclusion.maxBlock
  rejectIf (maxBlock < minBlock) .invalidInclusion
  rejectIf (maxBlock - minBlock > maxBlockRange) .invalidInclusion
  rejectIf (currentBlock ≥ maxBlock) .invalidInclusion
  rejectIf (minBlock > currentBlock + maxBlockOffset) .invalidInclusion
  return inclusion

/-- What the loop over the body has computed so far. The inclusion and the
privacy are those of the bundle being validated, narrowed in place. -/
structure BodyState where
  inclusion : MevBundleInclusion
  privacy : Option MevBundlePrivacy
  body : List MevBundleBody
  bodyHashes : List Hash
  txs : Nat
  unmatched : Bool

/-- What a successful `validateBundleInner` returns, and the bundle it leaves. -/
structure Validated where
  bundle : SendMevBundleArgs
  hash : Hash
  txs : Nat
  unmatched : Bool

/-- The refund config percents: each within 0 to 100, summed. -/
def totalRefundConfigPercent (cs : List RefundConfig) : Except Err Int :=
  cs.foldlM (fun (total : Int) (c : RefundConfig) => do
    rejectIf (c.percent < 0 ∨ c.percent > 100) .invalidBundleConstraints
    return total + c.percent) 0

/-- The refunds: indices within the body and used once, percents within 0 to 100, summed. -/
def totalRefundPercent (bodySize : Nat) (cs : List RefundConstraint) : Except Err (List Int × Int) :=
  cs.foldlM (fun (st : List Int × Int) (c : RefundConstraint) => do
    let (usedBodyPos, total) := st
    rejectIf (c.bodyIdx ≥ (bodySize : Int) ∨ c.bodyIdx < 0) .invalidBundleConstraints
    rejectIf (usedBodyPos.contains c.bodyIdx) .invalidBundleConstraints
    rejectIf (c.percent < 0 ∨ c.percent > 100) .invalidBundleConstraints
    return (usedBodyPos ++ [c.bodyIdx], total + c.percent)) ([], 0)

def validateValidity (unmatched : Bool) (bodySize : Nat) (validity : MevBundleValidity) : Except Err Unit := do
  rejectIf (unmatched ∧ validity.refund.length > 0) .invalidBundleConstraints
  let configPercent ← totalRefundConfigPercent validity.refundConfig
  rejectIf (configPercent > 100) .invalidBundleConstraints
  let (_, percent) ← totalRefundPercent bodySize validity.refund
  rejectIf (percent > 100) .invalidBundleConstraints

section Deps
variable (D : Deps)

/-- `MergeBuilders` for a `topLevel` and an `inner` that do not point to the same privacy. -/
def mergeBuilders (topLevel inner : Option MevBundlePrivacy) : Option MevBundlePrivacy :=
  match topLevel with
  | none => none
  | some t =>
    match inner with
    | none => some { t with builders := [] }
    | some i => some { t with builders := intersect D t.builders i.builders }

/-- A single element's hash stands for the bundle; otherwise the hashes are hashed together. -/
def hashBundle (bodyHashes : List Hash) : Hash :=
  match bodyHashes with
  | [h] => h
  | hs => D.keccak256 (hs.flatMap hashBytes)

def validatePrivacy (unmatched : Bool) (privacy : Option MevBundlePrivacy) : Except Err (Option MevBundlePrivacy) :=
  match privacy with
  | none => return none
  | some p => do
    rejectIf (unmatched ∧ p.hints ≠ hintNone) .invalidBundlePrivacy
    let hints := if p.hints ≠ hintNone then p.hints.setHint hintHash else p.hints
    rejectIf (∃ r ∈ p.wantRefund, r < 0 ∨ r > 100) .invalidBundlePrivacy
    return some { p with hints, builders := p.builders.map D.toLower }

/-- The metadata fields owned by the node, everything else cleared. -/
def freshMetadata (hash : Hash) (bodyHashes : List Hash) : MevBundleMetadata :=
  { MevBundleMetadata.empty with bundleHash := hash, bodyHashes, matchingHash := D.keccak256 (hashBytes hash) }

/-- What follows the loop over the body: the size check, the hash, the
constraints, the privacy and the metadata. -/
def finishBundle (version replacementUUID : String) (validity : MevBundleValidity) (st : BodyState) :
    Except Err Validated := do
  rejectIf (st.txs > maxBodySize) .invalidBundleBodySize
  let hash := hashBundle D st.bodyHashes
  validateValidity st.unmatched st.body.length validity
  let privacy ← validatePrivacy D st.unmatched st.privacy
  let bundle : SendMevBundleArgs :=
    ⟨version, replacementUUID, st.inclusion, st.body, validity, privacy, some (freshMetadata D hash st.bodyHashes)⟩
  return ⟨bundle, hash, st.txs, st.unmatched⟩

mutual
def validateBundleInner (currentBlock : UInt64) (level : Nat) : SendMevBundleArgs → Except Err Validated
  | ⟨version, replacementUUID, inclusion, body, validity, privacy, _⟩ => do
    rejectIf (level > maxNestingLevel) .bundleTooDeep
    rejectIf (version ≠ "beta-1" ∧ version ≠ "v0.1") .unsupportedBundleVersion
    let inclusion ← validateInclusion inclusion currentBlock
    -- `cleanBody` runs here and leaves the body as it is
    rejectIf (body.length = 0) .invalidBundleBodySize
    let st ← validateBody currentBlock level body.length 0 body ⟨inclusion, privacy, [], [], 0, false⟩
    finishBundle D version replacementUUID validity st

/-- The loop over the body, from index `i` on; `size` is `len(bundle.Body)`. -/
def validateBody (currentBlock : UInt64) (level size : Nat) :
    Nat → List MevBundleBody → BodyState → Except Err BodyState
  | _, [], st => return st
  | i, el :: rest, st => do
    let st ← validateElement currentBlock level size i el st
    validateBody currentBlock level size (i + 1) rest st

/-- One turn of the loop, for the element at index `i`. An element with none of
the three fields set passes through and adds no hash. -/
def validateElement (currentBlock : UInt64) (level size i : Nat) : MevBundleBody → BodyState → Except Err BodyState
  | ⟨hash, tx, bundle, canRevert, revertMode⟩, st =>
    match hash with
    | some h => do
      -- at most one unmatched element, first in the body and not alone there
      rejectIf (st.unmatched ∨ i ≠ 0) .invalidBundleBody
      rejectIf (size = 1) .invalidBundleBody
      return { st with
        unmatched := true
        body := st.body ++ [⟨hash, tx, bundle, canRevert, revertMode⟩]
        bodyHashes := st.bodyHashes ++ [h]
        txs := st.txs + 1 }
    | none =>
      match tx with
      | some txBytes => do
        let decoded ← D.unmarshalBinary txBytes
        rejectIf (¬validateRevertMode revertMode) .invalidRevertMode
        let (canRevert, revertMode) := applyRevertMode canRevert revertMode
        return { st with
          body := st.body ++ [⟨none, tx, bundle, canRevert, revertMode⟩]
          bodyHashes := st.bodyHashes ++ [decoded.hash]
          txs := st.txs + 1 }
      | none =>
        match bundle with
        | some inner => do
          let inclusion ← mergeInclusionIntervals st.inclusion inner.inclusion
          let privacy := mergeBuilders D st.privacy inner.privacy
          let r ← validateBundleInner currentBlock (level + 1) inner
          -- no unmatched bundles below the first level
          rejectIf r.unmatched .invalidBundleBody
          return { st with
            inclusion, privacy
            body := st.body ++ [⟨none, none, some r.bundle, canRevert, revertMode⟩]
            bodyHashes := st.bodyHashes ++ [r.hash]
            txs := st.txs + r.txs }
        | none => return { st with body := st.body ++ [⟨none, none, none, canRevert, revertMode⟩] }
end

/-- `ValidateBundle`: the top-level call, with the transaction count dropped. -/
def validateBundle (currentBlock : UInt64) (bundle : SendMevBundleArgs) : Except Err Validated :=
  validateBundleInner D currentBlock 0 bundle

/-! ## Merging the builders of a tree -/

mutual
/-- Only the builders of `topLevel` change. At the root `bundle.Privacy` is
`topLevel` itself; it is read before the one write to it, so the value that the
call was given is the value it reads. -/
def mergePrivacyBuildersInner : SendMevBundleArgs → Option MevBundlePrivacy → Option MevBundlePrivacy
  | ⟨_, _, _, body, _, privacy, _⟩, topLevel => mergePrivacyBuildersBody body (mergeBuilders D topLevel privacy)

def mergePrivacyBuildersBody : List MevBundleBody → Option MevBundlePrivacy → Option MevBundlePrivacy
  | [], topLevel => topLevel
  | ⟨_, _, bundle, _, _⟩ :: rest, topLevel =>
    mergePrivacyBuildersBody rest (match bundle with
      | some inner => mergePrivacyBuildersInner inner topLevel
      | none => topLevel)
end

def mergePrivacyBuilders (bundle : SendMevBundleArgs) : SendMevBundleArgs :=
  { bundle with privacy := mergePrivacyBuildersInner D bundle bundle.privacy }

end Deps

/-! ## What an accepted bundle went through -/

/-- Everything one turn of the loop over the body can do to the loop's state. -/
inductive Turn (D : Deps) (currentBlock : UInt64) (level size i : Nat) (st : BodyState) :
    MevBundleBody → BodyState → Prop
  | hash {h tx bundle canRevert revertMode} : st.unmatched = false → i = 0 → size ≠ 1 →
      Turn D currentBlock level size i st ⟨some h, tx, bundle, canRevert, revertMode⟩
        { st with
          unmatched := true, body := st.body ++ [⟨some h, tx, bundle, canRevert, revertMode⟩],
          bodyHashes := st.bodyHashes ++ [h], txs := st.txs + 1 }
  | tx {txBytes bundle canRevert revertMode decoded} : D.unmarshalBinary txBytes = .ok decoded →
      validateRevertMode revertMode = true →
      Turn D currentBlock level size i st ⟨none, some txBytes, bundle, canRevert, revertMode⟩
        { st with
          body := st.body ++ [⟨none, some txBytes, bundle, (applyRevertMode canRevert revertMode).1,
            (applyRevertMode canRevert revertMode).2⟩],
          bodyHashes := st.bodyHashes ++ [decoded.hash], txs := st.txs + 1 }
  | bundle {inner canRevert revertMode inclusion r} :
      mergeInclusionIntervals st.inclusion inner.inclusion = .ok inclusion →
      validateBundleInner D currentBlock (level + 1) inner = .ok r → r.unmatched = false →
      Turn D currentBlock level size i st ⟨none, none, some inner, canRevert, revertMode⟩
        { st with
          inclusion, privacy := mergeBuilders D st.privacy inner.privacy,
          body := st.body ++ [⟨none, none, some r.bundle, canRevert, revertMode⟩],
          bodyHashes := st.bodyHashes ++ [r.hash], txs := st.txs + r.txs }
  | empty {canRevert revertMode} :
      Turn D currentBlock level size i st ⟨none, none, none, canRevert, revertMode⟩
        { st with body := st.body ++ [⟨none, none, none, canRevert, revertMode⟩] }

variable {D : Deps} {currentBlock : UInt64} {level : Nat}

theorem turn_of_element {size i : Nat} {el : MevBundleBody} {st st' : BodyState}
    (h : validateElement D currentBlock level size i el st = .ok st') : Turn D currentBlock level size i st el st' := by
  obtain ⟨hash, tx, bundle, canRevert, revertMode⟩ := el
  cases hash with
  | some g =>
    simp only [validateElement, bind_ok, rejectIf_ok, exists_const, pure_ok, not_or, Bool.not_eq_true, ne_eq,
      not_not] at h
    obtain ⟨⟨hu, hi⟩, hs, rfl⟩ := h
    exact .hash hu hi hs
  | none =>
    cases tx with
    | some t =>
      simp only [validateElement, bind_ok, rejectIf_ok, exists_const, pure_ok, not_not] at h
      obtain ⟨d, hd, hm, rfl⟩ := h
      exact .tx hd hm
    | none =>
      cases bundle with
      | some inner =>
        simp only [validateElement, bind_ok, rejectIf_ok, exists_const, pure_ok, Bool.not_eq_true] at h
        obtain ⟨inc, hinc, r, hr, hu, rfl⟩ := h
        exact .bundle hinc hr hu
      | none =>
        simp only [validateElement, pure_ok] at h
        subst h
        exact .empty

/-- The invariant rule for the loop over the body: `P` relates the elements that are done to the loop's state. -/
theorem validateBody_ok {P : List MevBundleBody → BodyState → Prop} {size : Nat} {els : List MevBundleBody}
    {st st' : BodyState}
    (hturn : ∀ done el st st', el ∈ els → P done st → Turn D currentBlock level size done.length st el st' →
      P (done ++ [el]) st')
    (h0 : P [] st) (h : validateBody D currentBlock level size 0 els st = .ok st') : P els st' := by
  suffices hfrom : ∀ rest done st, (∀ el ∈ rest, el ∈ els) → P done st →
      validateBody D currentBlock level size done.length rest st = .ok st' → P (done ++ rest) st' from
    hfrom els [] st (fun _ hel => hel) h0 h
  intro rest
  induction rest with
  | nil =>
    intro done st _ hdone h
    simp only [validateBody, pure_ok] at h
    simpa [← h] using hdone
  | cons el rest ih =>
    intro done st hrest hdone h
    simp only [validateBody, bind_ok] at h
    obtain ⟨st₁, h1, h2⟩ := h
    have hnext := hturn done el st st₁ (hrest el List.mem_cons_self) hdone (turn_of_element h1)
    simpa using ih (done ++ [el]) st₁ (fun x hx => hrest x (List.mem_cons_of_mem _ hx)) hnext (by simpa using h2)

/-- Everything an accepted bundle went through: the checks in front of the loop, the loop, and what follows it. -/
theorem validated_inv {b : SendMevBundleArgs} {r : Validated}
    (h : validateBundleInner D currentBlock level b = .ok r) :
    ∃ inclusion st, level ≤ maxNestingLevel ∧ validateInclusion b.inclusion currentBlock = .ok inclusion ∧
      (cleanBody b).body.length ≠ 0 ∧
      validateBody D currentBlock level b.body.length 0 (cleanBody b).body
        ⟨inclusion, b.privacy, [], [], 0, false⟩ = .ok st ∧
      finishBundle D b.version b.replacementUUID b.validity st = .ok r := by
  obtain ⟨version, uuid, inclusion, body, validity, privacy, metadata⟩ := b
  simp only [validateBundleInner, bind_ok, rejectIf_ok, exists_const, gt_iff_lt, Nat.not_lt] at h
  obtain ⟨hl, -, inc, hinc, hsize, st, hst, hr⟩ := h
  exact ⟨inc, st, hl, hinc, hsize, hst, hr⟩

/-- What `finishBundle` makes of the state the loop ends in. -/
theorem finishBundle_ok {version uuid : String} {validity : MevBundleValidity} {st : BodyState} {r : Validated}
    (h : finishBundle D version uuid validity st = .ok r) :
    st.txs ≤ maxBodySize ∧ validateValidity st.unmatched st.body.length validity = .ok () ∧
      ∃ privacy, validatePrivacy D st.unmatched st.privacy = .ok privacy ∧
        r = ⟨⟨version, uuid, st.inclusion, st.body, validity, privacy,
          some (freshMetadata D (hashBundle D st.bodyHashes) st.bodyHashes)⟩,
          hashBundle D st.bodyHashes, st.txs, st.unmatched⟩ := by
  simp only [finishBundle, bind_ok, rejectIf_ok, exists_const, pure_ok, gt_iff_lt, Nat.not_lt] at h
  obtain ⟨htxs, _, hv, privacy, hp, rfl⟩ := h
  exact ⟨htxs, hv, privacy, hp, rfl⟩

end MevShare
