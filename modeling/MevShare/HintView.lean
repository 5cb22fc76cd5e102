import MevShare.Hints
/-!
# What a hint depends on

`projection` lists what the flags of a bundle tree let out of its
transactions, one `TxView` for each transaction that is reached through bundles
that all have the hash hint. `extract_eq_render`: the logs and transaction hints
of `extractHintsInner` are computed from that list alone. So two bundles with
the same projection get the same hint (`hint_of_projection`), whatever else
differs between them or their simulations.
-/
open Lib

namespace MevShare

/-! ## The allowed projection -/

/-- What the special-logs hint lets out of a recognised swap log: the pool's
address, the event and how many topics it has, and the pool id for balancer. -/
structure SwapView where
  address : Address
  topics : Nat
  signature : Hash
  poolID : Option Hash
deriving DecidableEq

/-- The view of a log, if it is a recognised swap. -/
def swapView (log : Log) : Option SwapView :=
  match log.topics with
  | [] => none
  | signature :: indexed =>
    if signature = uni2log ∨ signature = uni3log ∨ signature = curveLog then
      some ⟨log.address, log.topics.length, signature, none⟩
    else if signature = balancerLog ∧ indexed ≠ [] then
      some ⟨log.address, log.topics.length, signature, indexed.head?⟩
    else none

/-- Logs as far as the flags let them out. -/
inductive LogView where
  | all (logs : List CleanLog)
  | swaps (logs : List SwapView)
  | hidden
deriving DecidableEq

/-- A transaction as far as the flags of the bundle it is in let it out. -/
structure TxView where
  logs : LogView
  hash : Option Hash
  toAddr : Option (Option Address)
  selector : Option Bytes
  callData : Option Bytes
deriving DecidableEq

def logView (want : HintIntent) (logs : List Log) : LogView :=
  if want.hasHint hintLogs then .all (logs.map fun log => ⟨log.address, log.topics, log.data⟩)
  else if want.hasHint hintSpecialLogs then .swaps (logs.filterMap swapView)
  else .hidden

section Deps
variable (D : Deps)

/-- The view of the transaction with these bytes and logs in a bundle with the intents `want`. -/
def txView (want : HintIntent) (txBytes : Bytes) (logs : List Log) : TxView :=
  let tx := (D.unmarshalBinary txBytes).toOption
  let address := want.hasHint hintContractAddress || want.hasHint hintFunctionSelector || want.hasHint hintCallData
  { logs := logView want logs
    hash := if want.hasHint hintTxHash then tx.map (·.hash) else none
    toAddr := if address then tx.map (·.toAddr) else none
    selector := if want.hasHint hintFunctionSelector || want.hasHint hintCallData then
      tx.map fun tx => functionSelector tx.data else none
    callData := if want.hasHint hintCallData then tx.map (·.data) else none }

mutual
/-- The views of the transactions reached through bundles with the hash hint, in order. -/
def projection : SendMevBundleArgs → List SimMevBodyLogs → List TxView
  | ⟨_, _, _, body, _, privacy, _⟩, bundleLogs =>
    let want := match privacy with
      | none => hintNone
      | some p => p.hints
    if want.hasHint hintHash then bodyProjection want body bundleLogs else []

def bodyProjection (want : HintIntent) : List MevBundleBody → List SimMevBodyLogs → List TxView
  | el :: rest, bodyLogs :: bundleLogs => elementProjection want el bodyLogs ++ bodyProjection want rest bundleLogs
  | _, _ => []

def elementProjection (want : HintIntent) : MevBundleBody → SimMevBodyLogs → List TxView
  | ⟨_, tx, bundle, _, _⟩, bodyLogs =>
    match bundle, tx with
    | some inner, _ => projection inner bodyLogs.bundleLogs
    | none, some txBytes => [txView D want txBytes bodyLogs.txLogs]
    | none, none => []
end

/-! ## The hint, from the projection -/

/-- The redacted log a swap view stands for. -/
def SwapView.render (v : SwapView) : CleanLog :=
  ⟨v.address, v.signature :: match v.poolID with
    | none => List.replicate (v.topics - 1) 0
    | some p => p :: List.replicate (v.topics - 2) 0, []⟩

def TxView.renderLogs (v : TxView) : List CleanLog :=
  match v.logs with
  | .all logs => logs
  | .swaps logs => logs.map SwapView.render
  | .hidden => []

def TxView.renderTx (v : TxView) : List TxHint :=
  if v.hash.isSome || v.toAddr.isSome then [⟨v.hash, v.toAddr.join, v.selector, v.callData⟩] else []

theorem specialLog_render (log : Log) :
    (specialLog log).map (fun log => (⟨log.address, log.topics, log.data⟩ : CleanLog)) =
      (swapView log).map SwapView.render := by
  obtain ⟨address, topics, data⟩ := log
  cases topics with
  | nil => rfl
  | cons signature indexed =>
    simp only [specialLog, swapView]
    split
    · simp [removeLogFields, SwapView.render]
    · cases indexed with
      | nil => simp
      | cons poolID rest =>
        by_cases hb : signature = balancerLog <;> simp [hb, removeLogFields, SwapView.render]

theorem txLogHints_render (want : HintIntent) (txBytes : Bytes) (logs : List Log) :
    txLogHints want logs = (txView D want txBytes logs).renderLogs := by
  simp only [txLogHints, txView, TxView.renderLogs, logView]
  split
  · rfl
  · split
    · dsimp only
      rw [cleanLogs, filterSpecialLogs, List.map_filterMap, List.map_filterMap]
      exact congrArg (fun f => List.filterMap f logs) (funext specialLog_render)
    · rfl

/-- Which fields a transaction hint has, from the flags as submitted. -/
theorem extractTxHints_eq (tx : Transaction) (want : HintIntent) :
    extractTxHints tx want =
      let selector := want.hasHint hintFunctionSelector || want.hasHint hintCallData
      let address := want.hasHint hintContractAddress || selector
      if address || want.hasHint hintTxHash then
        some ⟨if want.hasHint hintTxHash then some tx.hash else none, if address then tx.toAddr else none,
          if selector then some (functionSelector tx.data) else none,
          if want.hasHint hintCallData then some tx.data else none⟩
      else none := by
  have c1 : hintContractAddress.hasHint hintContractAddress = true := rfl
  have c2 : hintContractAddress.hasHint hintFunctionSelector = false := rfl
  have c3 : hintContractAddress.hasHint hintCallData = false := rfl
  have c4 : hintContractAddress.hasHint hintTxHash = false := rfl
  have f1 : hintFunctionSelector.hasHint hintContractAddress = false := rfl
  have f2 : hintFunctionSelector.hasHint hintFunctionSelector = true := rfl
  have f3 : hintFunctionSelector.hasHint hintCallData = false := rfl
  have f4 : hintFunctionSelector.hasHint hintTxHash = false := rfl
  cases h1 : want.hasHint hintContractAddress <;> cases h2 : want.hasHint hintFunctionSelector <;>
    cases h3 : want.hasHint hintCallData <;> cases h4 : want.hasHint hintTxHash <;>
    simp [extractTxHints, h1, h2, h3, h4, c1, c2, c3, c4, f1, f2, f3, f4]

theorem txHints_render {want : HintIntent} {txBytes : Bytes} {hints : List TxHint} (logs : List Log)
    (h : txHints D want txBytes = .ok hints) : hints = (txView D want txBytes logs).renderTx := by
  simp only [txHints, hasHint_or] at h
  split at h
  · rename_i hw
    simp only [bind_ok, pure_ok] at h
    obtain ⟨tx, htx, rfl⟩ := h
    rw [extractTxHints_eq]
    simp only [txView, TxView.renderTx, htx, Except.toOption]
    cases h1 : want.hasHint hintContractAddress <;> cases h2 : want.hasHint hintFunctionSelector <;>
      cases h3 : want.hasHint hintCallData <;> cases h4 : want.hasHint hintTxHash <;> simp_all
  · rename_i hw
    simp only [pure_ok] at h
    subst h
    simp only [Bool.or_eq_true, not_or, Bool.not_eq_true] at hw
    simp [txView, TxView.renderTx, hw]

theorem projection_eq (b : SendMevBundleArgs) (bundleLogs : List SimMevBodyLogs) :
    projection D b bundleLogs = if b.hints.hasHint hintHash then bodyProjection D b.hints b.body bundleLogs else [] := by
  cases b; rfl

/-- One element, given the result for the bundle it holds. -/
theorem extractElement_render (want : HintIntent) (el : MevBundleBody)
    (ih : ∀ c, el.bundle = some c → ∀ {bundleLogs logs txs},
      extractHintsInner D c bundleLogs = .ok (logs, txs) →
        logs = (projection D c bundleLogs).flatMap TxView.renderLogs ∧
          txs = (projection D c bundleLogs).flatMap TxView.renderTx)
    {bodyLogs logs txs} (h : extractHintsElement D want el bodyLogs = .ok (logs, txs)) :
    logs = (elementProjection D want el bodyLogs).flatMap TxView.renderLogs ∧
      txs = (elementProjection D want el bodyLogs).flatMap TxView.renderTx := by
  obtain ⟨hash, tx, bundle, canRevert, revertMode⟩ := el
  cases bundle with
  | some inner => exact ih inner rfl h
  | none =>
    cases tx with
    | some txBytes =>
      simp only [extractHintsElement, bind_ok, pure_ok, Prod.mk.injEq] at h
      obtain ⟨hints, hh, rfl, rfl⟩ := h
      simp [elementProjection, ← txLogHints_render, ← txHints_render D bodyLogs.txLogs hh]
    | none =>
      simp only [extractHintsElement, pure_ok, Prod.mk.injEq] at h
      obtain ⟨rfl, rfl⟩ := h
      simp [elementProjection]

/-- One bundle's loop, given the result for the bundles its elements hold. -/
theorem extractBody_render (want : HintIntent) (body : List MevBundleBody)
    (ih : ∀ el ∈ body, ∀ c, el.bundle = some c → ∀ {bundleLogs logs txs},
      extractHintsInner D c bundleLogs = .ok (logs, txs) →
        logs = (projection D c bundleLogs).flatMap TxView.renderLogs ∧
          txs = (projection D c bundleLogs).flatMap TxView.renderTx) :
    ∀ {bundleLogs logs txs}, extractHintsBody D want body bundleLogs = .ok (logs, txs) →
      logs = (bodyProjection D want body bundleLogs).flatMap TxView.renderLogs ∧
        txs = (bodyProjection D want body bundleLogs).flatMap TxView.renderTx := by
  induction body with
  | nil =>
    intro bundleLogs logs txs h
    simp only [extractHintsBody, pure_ok, Prod.mk.injEq] at h
    obtain ⟨rfl, rfl⟩ := h
    simp [bodyProjection]
  | cons el rest ihr =>
    intro bundleLogs logs txs h
    cases bundleLogs with
    | nil =>
      simp only [extractHintsBody, pure_ok, Prod.mk.injEq] at h
      obtain ⟨rfl, rfl⟩ := h
      simp [bodyProjection]
    | cons bodyLogs bundleLogs =>
      simp only [extractHintsBody, bind_ok, pure_ok, Prod.mk.injEq] at h
      obtain ⟨⟨l, t⟩, hel, ⟨l', t'⟩, hrest, rfl, rfl⟩ := h
      obtain ⟨rfl, rfl⟩ := ihr (fun el hel => ih el (List.mem_cons_of_mem _ hel)) hrest
      obtain ⟨rfl, rfl⟩ := extractElement_render D want el (ih el List.mem_cons_self) hel
      simp only [bodyProjection, List.flatMap_append, and_self]

/-- The logs and the transaction hints of a bundle are those of its projection. -/
theorem extract_eq_render (b : SendMevBundleArgs) :
    ∀ {bundleLogs logs txs}, extractHintsInner D b bundleLogs = .ok (logs, txs) →
      logs = (projection D b bundleLogs).flatMap TxView.renderLogs ∧
        txs = (projection D b bundleLogs).flatMap TxView.renderTx := by
  induction b using SendMevBundleArgs.tree_induction with
  | h b ih =>
    intro bundleLogs logs txs h
    rw [extractHintsInner_eq] at h
    rw [projection_eq]
    cases hw : b.hints.hasHint hintHash with
    | false =>
      simp only [hw, Bool.not_false, if_true, pure_ok, Prod.mk.injEq] at h
      obtain ⟨rfl, rfl⟩ := h
      simp
    | true =>
      simp only [hw, Bool.not_true, Bool.false_eq_true, if_false, bind_ok, rejectIf_ok, exists_const] at h
      exact extractBody_render D b.hints b.body ih h.2

/-! ## Two runs -/

/-- Two bundles and their simulations get the same hint if they have the same
matching hash, the same rounded gas figures as far as these are shared, and the
same projection: nothing else of the transactions, the logs or the bundles
reaches the hint. The projection says which flags let out what, so no further
assumption about the shape of the two trees is needed. -/
theorem hint_of_projection {b₁ b₂ : SendMevBundleArgs} {sim₁ sim₂ : SimMevBundleResponse}
    {shareGasUsed shareMevGasPrice : Bool} {hint₁ hint₂ : Hint}
    (h₁ : extractHints D b₁ sim₁ shareGasUsed shareMevGasPrice = .ok hint₁)
    (h₂ : extractHints D b₂ sim₂ shareGasUsed shareMevGasPrice = .ok hint₂)
    (hhash : b₁.matchingHash = b₂.matchingHash)
    (hprice : shareMevGasPrice → roundedMevGasPrice sim₁ = roundedMevGasPrice sim₂)
    (hgas : shareGasUsed → roundedGasUsed sim₁ = roundedGasUsed sim₂)
    (hview : projection D b₁ sim₁.bodyLogs = projection D b₂ sim₂.bodyLogs) : hint₁ = hint₂ := by
  simp only [extractHints, bind_ok, rejectIf_ok, exists_const, pure_ok] at h₁ h₂
  obtain ⟨-, -, ⟨logs₁, txs₁⟩, hin₁, rfl⟩ := h₁
  obtain ⟨-, -, ⟨logs₂, txs₂⟩, hin₂, rfl⟩ := h₂
  obtain ⟨rfl, rfl⟩ := extract_eq_render D b₁ hin₁
  obtain ⟨rfl, rfl⟩ := extract_eq_render D b₂ hin₂
  rw [hhash, hview]
  congr 1
  · exact ite_congr rfl (fun h => congrArg some (hprice h)) fun _ => rfl
  · exact ite_congr rfl (fun h => congrArg some (hgas h)) fun _ => rfl

end Deps

/-- A bundle with the hash and special-logs hints and one transaction. -/
def swapBundle (tx : Bytes) : SendMevBundleArgs :=
  ⟨"v0.1", "", ⟨2, 2⟩, [⟨none, some tx, none, false, "fail"⟩], ⟨[], []⟩, some ⟨hintHash ||| hintSpecialLogs, [], none⟩, none⟩

/-- A simulation whose one transaction emitted one swap with these indexed topics and data. -/
def swapSim (gasUsed : UInt64) (indexed : List Hash) (data : Bytes) : SimMevBundleResponse :=
  ⟨true, "", 1, 0, 0, 0, gasUsed, [.mk [⟨7, uni2log :: indexed, data⟩] []], "", []⟩

/-- Two different swaps of the same pool, in different transactions. -/
theorem hint_of_projection_swap :
    ∃ hint₁ hint₂, extractHints sampleDeps (swapBundle sampleTx) (swapSim 21000 [1, 2] [3]) false false = .ok hint₁ ∧
      extractHints sampleDeps (swapBundle [9]) (swapSim 50000 [5, 6] []) false false = .ok hint₂ ∧ hint₁ = hint₂ :=
  ⟨_, _, rfl, rfl, @hint_of_projection sampleDeps (swapBundle sampleTx) (swapBundle [9]) (swapSim 21000 [1, 2] [3])
    (swapSim 50000 [5, 6] []) false false _ _ rfl rfl rfl (by simp) (by simp) rfl⟩

end MevShare
