import MevShare.Contacts
import MevShare.Conversion
/-!
# The requests to refund-recipient builders

`SendBundle` takes metadata and privacy off the bundle before a builder with the
refund-recipient API converts it, and the conversion looks up the hashes of the
transactions that may revert in the metadata. Without such a transaction cleaning
and conversion commute (`convert_clean`). With one the conversion fails
(`clean_no_revert`), and the builder is sent nothing.
-/
open Lib

namespace MevShare

/-- There is no hash to look up: no metadata, or metadata without body hashes. -/
def NoHashes (metadata : Option MevBundleMetadata) : Prop := ∀ i h, revertingHash metadata i ≠ .ok h

/-- No transaction that the conversion collects may revert. -/
def NoRevert (ts : List (Bytes × Bool)) : Prop := ∀ t ∈ ts, t.2 = false

theorem noHashes_none : NoHashes none := fun _ _ => nofun

theorem noHashes_some {m : MevBundleMetadata} (h : m.bodyHashes = []) : NoHashes (some m) := by
  intro i hash heq
  simp [revertingHash, h, throw_eq_error] at heq

theorem noRevert_append {ts ts' : List (Bytes × Bool)} : NoRevert (ts ++ ts') ↔ NoRevert ts ∧ NoRevert ts' :=
  List.forall_mem_append

/-! ## Cleaning -/

/-- The loop over a cleaned body gives the same as over the body, as long as no hash is looked up. -/
theorem extractTxsBody_clean {depth : Nat} {l : List MevBundleBody}
    (ih : ∀ el ∈ l, ∀ c, el.bundle = some c → NoRevert c.transactions →
      extractTxsForRefundRecipientBundle (depth + 1) (cleanBundle c) = extractTxsForRefundRecipientBundle (depth + 1) c)
    (h : NoRevert (bodyTransactions l)) :
    ∀ metadata metadata' i,
      extractTxsBody depth metadata i (cleanElements l) = extractTxsBody depth metadata' i l := by
  induction l with
  | nil => exact fun _ _ _ => rfl
  | cons el l ihl =>
    intro metadata metadata' i
    rw [bodyTransactions, noRevert_append] at h
    have hrest := ihl (fun x hx => ih x (List.mem_cons_of_mem _ hx)) h.2 metadata metadata' (i + 1)
    have hel : extractTxsElement depth metadata i { el with bundle := el.bundle.map cleanBundle } =
        extractTxsElement depth metadata' i el := by
      have hinner := ih el List.mem_cons_self
      obtain ⟨_, tx, bundle, canRevert, _⟩ := el
      cases tx with
      | some t =>
        cases canRevert with
        | false => rfl
        | true => cases h.1 (t, true) (List.mem_singleton.2 rfl)
      | none =>
        cases bundle with
        | some c => exact hinner c rfl h.1
        | none => rfl
    rw [cleanElements_eq, List.map_cons, ← cleanElements_eq, extractTxsBody, extractTxsBody, hel, hrest]

theorem extract_clean (b : SendMevBundleArgs) :
    ∀ depth, NoRevert b.transactions →
      extractTxsForRefundRecipientBundle depth (cleanBundle b) = extractTxsForRefundRecipientBundle depth b := by
  induction b using SendMevBundleArgs.tree_induction with
  | h b ih =>
    intro depth h
    rw [transactions_eq] at h
    rw [extract_eq, extract_eq, cleanBundle_eq]
    simp only [extractTxsBody_clean (fun el hel c hc => ih el hel c hc (depth + 1)) h none b.metadata 0]

/-- A walk over a cleaned body that succeeds has met no transaction that may revert. -/
theorem cleanElements_no_revert {depth : Nat} {metadata : Option MevBundleMetadata} (hmeta : NoHashes metadata)
    {l : List MevBundleBody}
    (ih : ∀ el ∈ l, ∀ c, el.bundle = some c → ∀ {out},
      extractTxsForRefundRecipientBundle (depth + 1) (cleanBundle c) = .ok out → NoRevert c.transactions) :
    ∀ {i out}, extractTxsBody depth metadata i (cleanElements l) = .ok out → NoRevert (bodyTransactions l) := by
  induction l with
  | nil => simp [NoRevert, bodyTransactions]
  | cons el l ihl =>
    intro i out h
    rw [cleanElements_eq, List.map_cons, ← cleanElements_eq] at h
    simp only [extractTxsBody, bind_ok] at h
    obtain ⟨out₁, hel, out₂, hrest, -⟩ := h
    rw [bodyTransactions, noRevert_append]
    refine ⟨?_, ihl (fun x hx => ih x (List.mem_cons_of_mem _ hx)) hrest⟩
    have hinner := ih el List.mem_cons_self
    obtain ⟨_, tx, bundle, canRevert, _⟩ := el
    cases tx with
    | some t =>
      cases canRevert with
      | false => simp [NoRevert, elementTransactions]
      | true =>
        simp only [extractTxsElement, if_true, bind_ok] at hel
        obtain ⟨hash, hhash, -⟩ := hel
        exact absurd hhash (hmeta i hash)
    | none =>
      cases bundle with
      | some c => exact hinner c rfl hel
      | none => simp [NoRevert, elementTransactions]

theorem clean_no_revert (b : SendMevBundleArgs) :
    ∀ {depth out}, extractTxsForRefundRecipientBundle depth (cleanBundle b) = .ok out → NoRevert b.transactions := by
  induction b using SendMevBundleArgs.tree_induction with
  | h b ih =>
    intro depth out h
    rw [cleanBundle_eq] at h
    rw [transactions_eq]
    exact cleanElements_no_revert noHashes_none (fun el hel c hc _ => ih el hel c hc) (extract_ok.1 h).2.2

/-! ## Conversion after cleaning -/

/-- What a builder is given: the cleaned bundle for the target block, with new metadata or none. -/
def sentArgs (bundle : SendMevBundleArgs) (targetBlock : UInt64) (metadata : Option MevBundleMetadata) :
    SendMevBundleArgs :=
  ⟨bundle.version, bundle.replacementUUID, ⟨targetBlock, targetBlock⟩, cleanElements bundle.body, bundle.validity, none,
    metadata⟩

theorem prepare_sent {D : Deps} {bundle : SendMevBundleArgs} {targetBlock : UInt64} {shouldCancel : Bool} {p : Prepared}
    (h : prepare D bundle targetBlock shouldCancel = .ok p) :
    p.args = sentArgs bundle targetBlock none ∧
      ∃ m, m.bodyHashes = [] ∧ p.iArgs = sentArgs bundle targetBlock (some m) := by
  obtain ⟨m, -, -, -, -, -, hargs, hiArgs⟩ := prepare_fields h
  rw [hargs] at hiArgs
  exact ⟨hargs, _, rfl, hiArgs⟩

/-- The refund is read from what cleaning keeps. -/
theorem refundData_sent (bundle : SendMevBundleArgs) (targetBlock : UInt64) (metadata : Option MevBundleMetadata) :
    extractRefundDataForRefundRecipientData (sentArgs bundle targetBlock metadata) =
      extractRefundDataForRefundRecipientData bundle := by
  simp only [extractRefundDataForRefundRecipientData, sentArgs, cleanElements_eq, List.length_map, List.getElem?_map]
  rcases bundle.validity.refund with _ | ⟨refund, _ | ⟨_, _⟩⟩
  · rfl
  · dsimp only
    cases bundle.body[refund.bodyIdx.toNat]? with
    | none => rfl
    | some el =>
      obtain ⟨_, tx, inner, _, _⟩ := el
      cases tx with
      | some t => rfl
      | none =>
        cases inner with
        | none => rfl
        | some c => simp only [Option.map_some, cleanBundle_eq]
  · rfl

section Sent
variable {bundle : SendMevBundleArgs} {conv : SendRefundRecBundleArgs} {targetBlock : UInt64}
  {metadata : Option MevBundleMetadata}

theorem convert_clean (h : NoRevert bundle.transactions) (hconv : convertBundleToRefundRecipient bundle = .ok conv) :
    convertBundleToRefundRecipient (sentArgs bundle targetBlock metadata) =
      .ok { conv with blockNumber := targetBlock } := by
  obtain ⟨-, htxs, hrefund⟩ := convert_ok.1 hconv
  rw [transactions_eq] at h
  refine convert_ok.2 ⟨rfl, ?_, by rw [refundData_sent, hrefund]⟩
  obtain ⟨hdepth, hno, hbody⟩ := extract_ok.1 htxs
  refine extract_ok.2 ⟨hdepth, hno, ?_⟩
  rw [← hbody]
  exact extractTxsBody_clean (fun el _ c _ => extract_clean c 1) h _ _ 0

theorem no_revert_of_sent (hmeta : NoHashes metadata)
    (h : convertBundleToRefundRecipient (sentArgs bundle targetBlock metadata) = .ok conv) :
    NoRevert bundle.transactions := by
  obtain ⟨-, htxs, -⟩ := convert_ok.1 h
  rw [transactions_eq]
  exact cleanElements_no_revert hmeta (fun _ _ c _ _ => clean_no_revert c) (extract_ok.1 htxs).2.2

theorem sendBundle_refundRecipient {x : JSONRPCBuilderBackend} {args : SendMevBundleArgs}
    (hx : x.api = .refundRecipient) :
    x.sendBundle args = .ok (.ethSendBundle conv) ↔ convertBundleToRefundRecipient args = .ok conv := by
  simp only [JSONRPCBuilderBackend.sendBundle, hx, bind_ok, pure_ok, Request.ethSendBundle.injEq, exists_eq_right]

end Sent

/-! ## One call of `SendBundle` -/

/-- A builder with the refund-recipient API is selected. -/
def SendsRefundRecipient (D : Deps) (b : BuildersBackend) (bundle : SendMevBundleArgs) (targetBlock : UInt64) : Prop :=
  ∃ x : JSONRPCBuilderBackend, x.api = .refundRecipient ∧
    (SentInternal D b bundle targetBlock x ∨ SentExternal D b bundle targetBlock x)

/-- Every selected builder with the refund-recipient API is sent the conversion
of the bundle for the target block, if and only if no such builder is selected
or no transaction of the bundle may revert. -/
theorem refund_requests_iff (D : Deps) (b : BuildersBackend) {bundle : SendMevBundleArgs} {m : MevBundleMetadata}
    {conv : SendRefundRecBundleArgs} (hm : bundle.metadata = some m)
    (hconv : convertBundleToRefundRecipient bundle = .ok conv) (targetBlock : UInt64) (shouldCancel : Bool) :
    (∀ x args, (x, args) ∈ contacts (b.spawned D bundle targetBlock shouldCancel) → x.api = .refundRecipient →
        x.sendBundle args = .ok (.ethSendBundle { conv with blockNumber := targetBlock })) ↔
      ¬(SendsRefundRecipient D b bundle targetBlock ∧ ∃ t ∈ bundle.transactions, t.2 = true) := by
  have hsent : ∀ {x : JSONRPCBuilderBackend} {args : SendMevBundleArgs},
      (x, args) ∈ contacts (b.spawned D bundle targetBlock shouldCancel) →
      ∃ metadata, NoHashes metadata ∧ args = sentArgs bundle targetBlock metadata := by
    intro x args hx
    obtain ⟨p, hp, ⟨-, rfl⟩ | ⟨-, rfl⟩⟩ := mem_contacts_spawned.1 hx
    · obtain ⟨m', hm', heq⟩ := (prepare_sent hp).2
      exact ⟨_, noHashes_some hm', heq⟩
    · exact ⟨none, noHashes_none, (prepare_sent hp).1⟩
  constructor
  · rintro h ⟨⟨x, hapi, hx⟩, t, ht, hrevert⟩
    obtain ⟨p, hp⟩ := prepare_of_metadata (D := D) hm targetBlock shouldCancel
    obtain ⟨args, hargs⟩ : ∃ args, (x, args) ∈ contacts (b.spawned D bundle targetBlock shouldCancel) := by
      rcases hx with hx | hx
      · exact ⟨_, mem_contacts_spawned.2 ⟨p, hp, .inl ⟨hx, rfl⟩⟩⟩
      · exact ⟨_, mem_contacts_spawned.2 ⟨p, hp, .inr ⟨hx, rfl⟩⟩⟩
    obtain ⟨metadata, hmeta, rfl⟩ := hsent hargs
    have hok := (sendBundle_refundRecipient hapi).1 (h x _ hargs hapi)
    rw [no_revert_of_sent hmeta hok t ht] at hrevert
    cases hrevert
  · intro h x args hargs hapi
    obtain ⟨metadata, -, rfl⟩ := hsent hargs
    rw [sendBundle_refundRecipient hapi]
    refine convert_clean (fun t ht => ?_) hconv
    by_contra hrevert
    obtain ⟨p, -, hx⟩ := mem_contacts_spawned.1 hargs
    exact h ⟨⟨x, hapi, hx.imp And.left And.left⟩, t, ht, by simpa using hrevert⟩

/-- An internal and an external builder with the refund-recipient API. -/
def refundBuilders : BuildersConfig :=
  ⟨[⟨"alpha", "http://alpha", "refund-recipient", false, false, false⟩,
    ⟨"beta", "http://beta", "refund-recipient", true, false, false⟩], ""⟩

/-- One transaction, for the external builder too. -/
def alphaTx (canRevert : Bool) : SendMevBundleArgs :=
  ⟨"v0.1", "", ⟨2, 2⟩, [⟨none, some sampleTx, none, canRevert, ""⟩], ⟨[], []⟩, some ⟨hintNone, ["alpha"], none⟩, none⟩

theorem refund_requests_iff_alpha :
    ∃ b r conv, loadBuilderConfig sampleDeps refundBuilders = .ok b ∧
      validateBundle sampleDeps 1 (alphaTx false) = .ok r ∧ convertBundleToRefundRecipient r.bundle = .ok conv ∧
      (contacts (b.spawned sampleDeps r.bundle 2 false)).map (·.1.name) = ["beta", "alpha"] ∧
      ∀ x args, (x, args) ∈ contacts (b.spawned sampleDeps r.bundle 2 false) → x.api = .refundRecipient →
        x.sendBundle args = .ok (.ethSendBundle { conv with blockNumber := 2 }) := by
  refine ⟨_, _, _, rfl, rfl, rfl, by decide, ?_⟩
  refine (@refund_requests_iff sampleDeps _ _ _ _ rfl rfl 2 false).2 ?_
  rintro ⟨-, t, ht, hrevert⟩
  cases List.mem_singleton.1 ht
  cases hrevert

/-- The conversion of the accepted bundle succeeds, and neither builder is sent anything. -/
theorem reverting_not_sent :
    ∃ b r conv, loadBuilderConfig sampleDeps refundBuilders = .ok b ∧
      validateBundle sampleDeps 1 (alphaTx true) = .ok r ∧ convertBundleToRefundRecipient r.bundle = .ok conv ∧
      conv.revertingTxHashes = [sampleTransaction.hash] ∧
      (contacts (b.spawned sampleDeps r.bundle 2 false)).map (fun c => c.1.sendBundle c.2) =
        [.error .invalidBundleBody, .error .nilBundleMetadata] :=
  ⟨_, _, _, rfl, rfl, rfl, rfl, rfl⟩

end MevShare
