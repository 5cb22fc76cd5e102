import MevShare.Limits
import MevShare.RefundRecipient
/-!
# Converting an accepted bundle

`ConvertBundleToRefundRecipient` walks the tree a second time and reads the hash
of a transaction that may revert from the metadata that validation wrote, by its
position in the body. `transactions` is what that walk collects. On an accepted
bundle in which every element is a transaction or a bundle the positions are
right (`extract_validated`), and `convert_accepted` says when the conversion
succeeds and with what.
-/
open Lib

namespace MevShare

mutual
/-- The transactions of a tree in order, each with whether it may revert. -/
def SendMevBundleArgs.transactions : SendMevBundleArgs → List (Bytes × Bool)
  | ⟨_, _, _, body, _, _, _⟩ => bodyTransactions body

def bodyTransactions : List MevBundleBody → List (Bytes × Bool)
  | [] => []
  | el :: rest => elementTransactions el ++ bodyTransactions rest

def elementTransactions : MevBundleBody → List (Bytes × Bool)
  | ⟨_, some tx, _, canRevert, _⟩ => [(tx, canRevert)]
  | ⟨_, none, some inner, _, _⟩ => inner.transactions
  | ⟨_, none, none, _, _⟩ => []
end

theorem transactions_eq (b : SendMevBundleArgs) : b.transactions = bodyTransactions b.body := by
  cases b
  rfl

/-- The element is a transaction or a bundle. -/
def MevBundleBody.TxOrBundle (el : MevBundleBody) : Prop := el.hash = none ∧ el.Single

instance (el : MevBundleBody) : Decidable el.TxOrBundle := inferInstanceAs (Decidable (_ ∧ _))

def AllTxOrBundle (b : SendMevBundleArgs) : Prop := ∀ el ∈ b.body, el.TxOrBundle

instance (b : SendMevBundleArgs) : Decidable (AllTxOrBundle b) :=
  inferInstanceAs (Decidable (∀ el ∈ b.body, el.TxOrBundle))

def NoRefund (b : SendMevBundleArgs) : Prop := b.validity.refund = []

/-- No nested bundle has refund constraints. -/
def NestedNoRefund (b : SendMevBundleArgs) : Prop :=
  ∀ el ∈ b.body, ∀ c, el.bundle = some c → Everywhere NoRefund c

/-- The hash of a transaction, with whether it may revert. -/
def HashOf (D : Deps) (t : Bytes × Bool) (hash : Hash) : Prop := ∃ d, D.unmarshalBinary t.1 = .ok d ∧ d.hash = hash

/-- All transactions, and the hashes of exactly those that may revert. -/
def Extracts (D : Deps) (ts : List (Bytes × Bool)) (out : List Bytes × List Hash) : Prop :=
  out.1 = ts.map Prod.fst ∧ List.Forall₂ (HashOf D) (ts.filter Prod.snd) out.2

/-- The refunds that the request can express, with its percent and recipient. -/
inductive Refunds (b : SendMevBundleArgs) : Option Int → Option Address → Prop
  | absent : b.validity.refund = [] → Refunds b none none
  | tx {p el t} : b.validity.refund = [⟨0, p⟩] → b.body[0]? = some el → el.tx = some t → Refunds b (some p) none
  | bundle {p el c} : b.validity.refund = [⟨0, p⟩] → b.body[0]? = some el → el.bundle = some c →
      c.validity.refundConfig = [] → Refunds b (some p) none
  | config {i p el c config} : b.validity.refund = [⟨i, p⟩] → 0 ≤ i → b.body[i.toNat]? = some el →
      el.bundle = some c → c.validity.refundConfig = [config] →
      Refunds b (some (config.percent * p / 100)) (some config.address)

variable {D : Deps} {currentBlock : UInt64} {level : Nat}

/-! ## The walk -/

theorem extract_eq (depth : Nat) (b : SendMevBundleArgs) :
    extractTxsForRefundRecipientBundle depth b = (do
      rejectIf (depth > maxNestingLevel) .invalidBundleBody
      rejectIf (depth > 0 ∧ b.validity.refund.length > 0) .cantConvertToRefRecBundle
      extractTxsBody depth b.metadata 0 b.body) := by
  cases b
  rfl

theorem extract_ok {depth : Nat} {b : SendMevBundleArgs} {out : List Bytes × List Hash} :
    extractTxsForRefundRecipientBundle depth b = .ok out ↔
      depth ≤ maxNestingLevel ∧ (0 < depth → NoRefund b) ∧ extractTxsBody depth b.metadata 0 b.body = .ok out := by
  simp only [extract_eq, bind_ok, rejectIf_ok, exists_const, gt_iff_lt, Nat.not_lt, not_and, NoRefund, Nat.le_zero,
    List.length_eq_zero_iff]

theorem Extracts.append {ts ts' : List (Bytes × Bool)} {out out' : List Bytes × List Hash} (h : Extracts D ts out)
    (h' : Extracts D ts' out') : Extracts D (ts ++ ts') (out.1 ++ out'.1, out.2 ++ out'.2) := by
  refine ⟨by rw [List.map_append, h.1, h'.1], ?_⟩
  rw [List.filter_append]
  exact List.rel_append h.2 h'.2

/-- The loop over the body: every element contributes its transactions. -/
theorem extractTxsBody_ok {depth : Nat} {metadata : Option MevBundleMetadata} {l : List MevBundleBody} {i : Nat}
    (h : ∀ k el, l[k]? = some el →
      ∃ out, extractTxsElement depth metadata (i + k) el = .ok out ∧ Extracts D (elementTransactions el) out) :
    ∃ out, extractTxsBody depth metadata i l = .ok out ∧ Extracts D (bodyTransactions l) out := by
  induction l generalizing i with
  | nil => exact ⟨([], []), rfl, rfl, .nil⟩
  | cons el l ih =>
    obtain ⟨out, hel, hout⟩ := h 0 el rfl
    obtain ⟨out', hrest, hout'⟩ := ih (i := i + 1) fun k x hk => by
      simpa [Nat.add_assoc, Nat.add_comm 1] using h (k + 1) x (by simpa using hk)
    refine ⟨_, ?_, hout.append hout'⟩
    simp only [extractTxsBody, bind_ok]
    exact ⟨out, hel, out', hrest, rfl⟩

theorem extractTxsBody_mem {depth : Nat} {metadata : Option MevBundleMetadata} {l : List MevBundleBody} {i : Nat}
    {out : List Bytes × List Hash} (h : extractTxsBody depth metadata i l = .ok out) :
    ∀ el ∈ l, ∃ k out', extractTxsElement depth metadata k el = .ok out' := by
  induction l generalizing i out with
  | nil => simp
  | cons el l ih =>
    simp only [extractTxsBody, bind_ok] at h
    obtain ⟨out₁, hel, out₂, hrest, -⟩ := h
    exact List.forall_mem_cons.2 ⟨⟨i, out₁, hel⟩, ih hrest⟩

/-- On what validation leaves the walk finds every hash in its place. -/
theorem extract_validated (b : SendMevBundleArgs) :
    ∀ {level : Nat} {r : Validated}, validateBundleInner D currentBlock level b = .ok r →
      Everywhere AllTxOrBundle b → (0 < level → NoRefund r.bundle) → NestedNoRefund r.bundle →
      ∃ out, extractTxsForRefundRecipientBundle level r.bundle = .ok out ∧ Extracts D r.bundle.transactions out := by
  induction b using SendMevBundleArgs.tree_induction with
  | h b ih =>
    intro level r h hb hrefund hnested
    obtain ⟨hb, hbelow⟩ := everywhere_iff.1 hb
    obtain ⟨m, hm, -, hget⟩ := (aligned_of_single h fun el hel => (hb el hel).2).hashes
    obtain ⟨_, _, hlevel, -⟩ := validated_inv h
    simp only [extract_ok, hm, transactions_eq]
    suffices hbody : ∃ out, extractTxsBody level (some m) 0 r.bundle.body = .ok out ∧
        Extracts D (bodyTransactions r.bundle.body) out by
      obtain ⟨out, hout, hext⟩ := hbody
      exact ⟨out, ⟨hlevel, hrefund, hout⟩, hext⟩
    refine extractTxsBody_ok fun k el' hk => ?_
    have hel' : el' ∈ r.bundle.body := List.mem_of_getElem? hk
    obtain ⟨el, hel, hkept⟩ := submitted_of_mem h hel'
    have hhash := hget k
    rw [hk, Option.bind_some] at hhash
    rw [Nat.zero_add]
    cases hkept with
    | hash => cases (hb _ hel).1
    | @tx t d bundle _ _ canRevert _ hd =>
      cases canRevert with
      | false => exact ⟨_, rfl, rfl, .nil⟩
      | true =>
        have hrevert : revertingHash (some m) k = .ok d.hash := by
          simp [revertingHash, hhash, elementHash, hd, Except.toOption, pure, Except.pure]
        refine ⟨([t], [d.hash]), ?_, rfl, .cons ⟨d, hd, rfl⟩ .nil⟩
        simp [extractTxsElement, hrevert, bind, Except.bind, pure, Except.pure]
    | @bundle c rc _ _ hrc =>
      obtain ⟨hno, hnested'⟩ := everywhere_iff.1 (hnested _ hel' _ rfl)
      exact ih _ hel c rfl hrc (hbelow _ hel c rfl) (fun _ => hno) hnested'
    | empty => exact absurd (hb _ hel).2 (by simp [MevBundleBody.Single])

theorem extractTxsElement_bundle {depth i : Nat} {metadata : Option MevBundleMetadata} {el : MevBundleBody}
    {c : SendMevBundleArgs} (htx : el.tx = none) (hc : el.bundle = some c) :
    extractTxsElement depth metadata i el = extractTxsForRefundRecipientBundle (depth + 1) c := by
  obtain ⟨_, _, _, _, _⟩ := el
  cases htx
  cases hc
  rfl

/-- A walk that succeeds has met no refund below the top level. -/
theorem extract_noRefund (b : SendMevBundleArgs) :
    ∀ {depth : Nat} {out : List Bytes × List Hash}, extractTxsForRefundRecipientBundle depth b = .ok out →
      Everywhere AllSingle b → (0 < depth → NoRefund b) ∧ NestedNoRefund b := by
  induction b using SendMevBundleArgs.tree_induction with
  | h b ih =>
    intro depth out h hs
    obtain ⟨hs, hbelow⟩ := everywhere_iff.1 hs
    obtain ⟨-, hrefund, hbody⟩ := extract_ok.1 h
    refine ⟨hrefund, fun el hel c hc => ?_⟩
    obtain ⟨k, out', hout⟩ := extractTxsBody_mem hbody el hel
    rw [extractTxsElement_bundle ((hs el hel).of_bundle hc).2 hc] at hout
    obtain ⟨hno, hnested⟩ := ih el hel c hc hout (hbelow el hel c hc)
    exact .node (hno depth.succ_pos) hnested

theorem extractTxsElement_ne_panic {depth i : Nat} {metadata : Option MevBundleMetadata} {el : MevBundleBody}
    (ih : ∀ c, el.bundle = some c → extractTxsForRefundRecipientBundle (depth + 1) c ≠ .error .panic) :
    extractTxsElement depth metadata i el ≠ .error .panic := by
  obtain ⟨_, tx, bundle, canRevert, _⟩ := el
  cases tx with
  | some t =>
    intro h
    cases canRevert with
    | false => cases h
    | true =>
      simp only [extractTxsElement, if_true, bind_error] at h
      rcases h with h | ⟨hash, -, h⟩
      · -- the index is checked before it is used
        unfold revertingHash at h
        split at h
        · cases h
        · split at h <;> cases h
      · cases h
  | none =>
    cases bundle with
    | some c => exact ih c rfl
    | none => exact nofun

theorem extractTxsBody_ne_panic {depth : Nat} {metadata : Option MevBundleMetadata} {l : List MevBundleBody}
    (ih : ∀ el ∈ l, ∀ c, el.bundle = some c → extractTxsForRefundRecipientBundle (depth + 1) c ≠ .error .panic) :
    ∀ i, extractTxsBody depth metadata i l ≠ .error .panic := by
  induction l with
  | nil => exact fun _ => nofun
  | cons el l ihl =>
    intro i h
    simp only [extractTxsBody, bind_error] at h
    rcases h with h | ⟨out, -, h | ⟨out', -, h⟩⟩
    · exact extractTxsElement_ne_panic (ih el List.mem_cons_self) h
    · exact ihl (fun x hx => ih x (List.mem_cons_of_mem _ hx)) (i + 1) h
    · cases h

theorem extract_ne_panic (b : SendMevBundleArgs) :
    ∀ depth, extractTxsForRefundRecipientBundle depth b ≠ .error .panic := by
  induction b using SendMevBundleArgs.tree_induction with
  | h b ih =>
    intro depth h
    simp only [extract_eq, bind_error, rejectIf_error, reduceCtorEq, and_false, false_or] at h
    obtain ⟨-, -, -, -, h⟩ := h
    exact extractTxsBody_ne_panic (fun el hel c hc => ih el hel c hc (depth + 1)) 0 h

/-! ## The refund -/

/-- The refunded element decides. -/
theorem refundData_eq {b : SendMevBundleArgs} {i p : Int} {el : MevBundleBody} (hrefund : b.validity.refund = [⟨i, p⟩])
    (hi : 0 ≤ i) (hel : b.body[i.toNat]? = some el) :
    extractRefundDataForRefundRecipientData b =
      match el.tx, el.bundle with
      | some _, _ => if i = 0 then .ok (some p, none) else .error .cantConvertToRefRecBundle
      | none, some c =>
        match c.validity.refundConfig with
        | [] => if i = 0 then .ok (some p, none) else .error .cantConvertToRefRecBundle
        | [config] => .ok (some ((config.percent * p).tdiv 100), some config.address)
        | _ => .error .cantConvertToRefRecBundle
      | none, none => .error .invalidBundleBody := by
  have hlt : i.toNat < b.body.length := (List.getElem?_eq_some_iff.1 hel).1
  have hle : ¬(b.body.length : Int) ≤ i := by omega
  have hneg : ¬i < 0 := by omega
  obtain ⟨hash, tx, bundle, canRevert, revertMode⟩ := el
  simp only [extractRefundDataForRefundRecipientData, hrefund, hel, rejectIf, hle, hneg, if_false]
  cases tx with
  | some t => rfl
  | none =>
    cases bundle with
    | none => rfl
    | some c =>
      dsimp only
      rcases c.validity.refundConfig with _ | ⟨config, _ | ⟨_, _⟩⟩ <;> rfl

section Refund
variable {b : SendMevBundleArgs}

/-- Of an accepted bundle, the element that a refund names is there. -/
theorem Constraints.exists_element (hc : Constraints b) {i p : Int} (hrefund : b.validity.refund = [⟨i, p⟩]) :
    0 ≤ i ∧ ∃ el ∈ b.body, b.body[i.toNat]? = some el := by
  obtain ⟨hi, hlt⟩ := hc.inBody ⟨i, p⟩ (by simp [hrefund])
  dsimp only at hi hlt
  have hin : i.toNat < b.body.length := by omega
  exact ⟨hi, _, List.getElem_mem hin, List.getElem?_eq_getElem hin⟩

/-- The percents of a refund and of the share in it are not negative. -/
theorem Constraints.share_nonneg (hc : Constraints b) {c : SendMevBundleArgs} (hinner : Constraints c) {i p : Int}
    {config : RefundConfig} (hrefund : b.validity.refund = [⟨i, p⟩]) (hconfig : c.validity.refundConfig = [config]) :
    0 ≤ config.percent * p := by
  have hp := (hc.percents ⟨i, p⟩ (by simp [hrefund])).1
  have hq := (hinner.configPercents config (by simp [hconfig])).1
  exact Int.mul_nonneg hq hp

theorem refundData_ne_panic (hc : Constraints b) : extractRefundDataForRefundRecipientData b ≠ .error .panic := by
  intro h
  rcases hrefund : b.validity.refund with _ | ⟨⟨i, p⟩, _ | ⟨_, _⟩⟩
  · simp [extractRefundDataForRefundRecipientData, hrefund, pure, Except.pure] at h
  · obtain ⟨hi, el, -, hel⟩ := hc.exists_element hrefund
    rw [refundData_eq hrefund hi hel] at h
    split at h
    · split at h <;> cases h
    · split at h
      · split at h <;> cases h
      · cases h
      · cases h
    · cases h
  · simp [extractRefundDataForRefundRecipientData, hrefund, throw_eq_error] at h

/-- The refund data are those of the four kinds of refunds. -/
theorem refundData_ok_iff (hc : Constraints b) (hb : AllSingle b)
    (hinner : ∀ el ∈ b.body, ∀ c, el.bundle = some c → Constraints c) {percent : Option Int} {address : Option Address} :
    extractRefundDataForRefundRecipientData b = .ok (percent, address) ↔ Refunds b percent address := by
  constructor
  · intro h
    rcases hrefund : b.validity.refund with _ | ⟨⟨i, p⟩, _ | ⟨_, _⟩⟩
    · simp only [extractRefundDataForRefundRecipientData, hrefund, pure_ok, Prod.mk.injEq] at h
      obtain ⟨rfl, rfl⟩ := h
      exact .absent hrefund
    · obtain ⟨hi, el, hmem, hel⟩ := hc.exists_element hrefund
      rw [refundData_eq hrefund hi hel] at h
      cases htx : el.tx with
      | some t =>
        simp only [htx] at h
        split at h <;> cases h
        subst i
        exact .tx hrefund hel htx
      | none =>
        cases hbundle : el.bundle with
        | none => simp [htx, hbundle] at h
        | some c =>
          simp only [htx, hbundle] at h
          split at h
          · split at h <;> cases h
            subst i
            exact .bundle hrefund hel hbundle ‹_›
          · rename_i config hconfig
            cases h
            rw [Int.tdiv_eq_ediv_of_nonneg (hc.share_nonneg (hinner el hmem c hbundle) hrefund hconfig)]
            exact .config hrefund hi hel hbundle hconfig
          · cases h
    · simp [extractRefundDataForRefundRecipientData, hrefund, throw_eq_error] at h
  · intro h
    cases h with
    | absent hrefund => simp [extractRefundDataForRefundRecipientData, hrefund, pure, Except.pure]
    | tx hrefund hel htx =>
      rw [refundData_eq hrefund (Int.le_refl 0) hel, htx]
      rfl
    | bundle hrefund hel hbundle hconfig =>
      have htx := ((hb _ (List.mem_of_getElem? hel)).of_bundle hbundle).2
      rw [refundData_eq hrefund (Int.le_refl 0) hel, htx, hbundle]
      simp [hconfig]
    | @config i p el c config hrefund hi hel hbundle hconfig =>
      have hmem := List.mem_of_getElem? hel
      have htx := ((hb _ hmem).of_bundle hbundle).2
      have hnonneg := hc.share_nonneg (hinner el hmem c hbundle) hrefund hconfig
      rw [refundData_eq hrefund hi hel, htx, hbundle]
      simp [hconfig, Int.tdiv_eq_ediv_of_nonneg hnonneg]

/-- A refund is between nothing and the percent of the constraint. -/
theorem Refunds.bounds {q : Int} {address : Option Address} (hc : Constraints b)
    (hinner : ∀ el ∈ b.body, ∀ c, el.bundle = some c → Constraints c) (h : Refunds b (some q) address) :
    ∃ c, b.validity.refund = [c] ∧ 0 ≤ q ∧ q ≤ c.percent := by
  cases h with
  | tx hrefund hel htx => exact ⟨_, hrefund, (hc.percents ⟨0, q⟩ (by simp [hrefund])).1, Int.le_refl _⟩
  | bundle hrefund hel hbundle hconfig =>
    exact ⟨_, hrefund, (hc.percents ⟨0, q⟩ (by simp [hrefund])).1, Int.le_refl _⟩
  | @config i p el c config hrefund hi hel hbundle hconfig =>
    have hc' := hinner el (List.mem_of_getElem? hel) c hbundle
    have hnonneg := hc.share_nonneg hc' hrefund hconfig
    have hmul : config.percent * p ≤ 100 * p :=
      Int.mul_le_mul_of_nonneg_right (hc'.configPercents config (by simp [hconfig])).2
        (hc.percents ⟨i, p⟩ (by simp [hrefund])).1
    exact ⟨_, hrefund, by omega, by dsimp only; omega⟩

end Refund

/-! ## The conversion -/

theorem convert_ok {b : SendMevBundleArgs} {conv : SendRefundRecBundleArgs} :
    convertBundleToRefundRecipient b = .ok conv ↔
      conv.blockNumber = b.inclusion.blockNumber ∧
        extractTxsForRefundRecipientBundle 0 b = .ok (conv.txs, conv.revertingTxHashes) ∧
        extractRefundDataForRefundRecipientData b = .ok (conv.refundPercent, conv.refundRecipient) := by
  simp only [convertBundleToRefundRecipient, bind_ok, pure_ok]
  constructor
  · rintro ⟨⟨txs, canRevert⟩, htxs, ⟨percent, address⟩, hrefund, rfl⟩
    exact ⟨rfl, htxs, hrefund⟩
  · rintro ⟨hblock, htxs, hrefund⟩
    exact ⟨_, htxs, _, hrefund, by rw [← hblock]⟩

/-- An accepted bundle in which every element, at every level, is a transaction
or a bundle is converted without a panic; the conversion succeeds exactly if no
nested bundle has refunds and the request can express the refund, and then it
has the transactions in order, the hashes of those that may revert, and that
refund. -/
theorem convert_accepted {b : SendMevBundleArgs} {r : Validated} (h : validateBundle D currentBlock b = .ok r)
    (hb : Everywhere AllTxOrBundle b) :
    convertBundleToRefundRecipient r.bundle ≠ .error .panic ∧
      ((∃ conv, convertBundleToRefundRecipient r.bundle = .ok conv) ↔
        NestedNoRefund r.bundle ∧ ∃ percent address, Refunds r.bundle percent address) ∧
      ∀ conv, convertBundleToRefundRecipient r.bundle = .ok conv →
        conv.txs = r.bundle.transactions.map Prod.fst ∧
        List.Forall₂ (HashOf D) (r.bundle.transactions.filter Prod.snd) conv.revertingTxHashes ∧
        Refunds r.bundle conv.refundPercent conv.refundRecipient ∧
        ∀ q, conv.refundPercent = some q → ∃ c, r.bundle.validity.refund = [c] ∧ 0 ≤ q ∧ q ≤ c.percent := by
  have hs : Everywhere AllSingle b := hb.mono fun _ hc el hel => (hc el hel).2
  have hs' : Everywhere AllSingle r.bundle := (everywhere_allSingle_iff b h).2 hs
  have hc := everywhere_of_single (fun _ hs => hs) (fun h _ => validated_constraints h) b h hs
  obtain ⟨hc, hbelow⟩ := everywhere_iff.1 hc
  have hinner : ∀ el ∈ r.bundle.body, ∀ c, el.bundle = some c → Constraints c := fun el hel c hel' =>
    (everywhere_iff.1 (hbelow el hel c hel')).1
  have hrefund {percent address} := @refundData_ok_iff r.bundle hc (everywhere_iff.1 hs').1 hinner percent address
  refine ⟨fun hpanic => ?_, ⟨?_, ?_⟩, fun conv hconv => ?_⟩
  · simp only [convertBundleToRefundRecipient, bind_error] at hpanic
    rcases hpanic with hpanic | ⟨_, -, hpanic | ⟨_, -, hpanic⟩⟩
    · exact extract_ne_panic _ _ hpanic
    · exact refundData_ne_panic hc hpanic
    · cases hpanic
  · rintro ⟨conv, hconv⟩
    obtain ⟨-, htxs, hdata⟩ := convert_ok.1 hconv
    exact ⟨(extract_noRefund _ htxs hs').2, _, _, hrefund.1 hdata⟩
  · rintro ⟨hnested, percent, address, hdata⟩
    obtain ⟨⟨txs, canRevert⟩, htxs, -⟩ := extract_validated b h hb (by simp) hnested
    exact ⟨⟨_, txs, canRevert, percent, address⟩, convert_ok.2 ⟨rfl, htxs, hrefund.2 hdata⟩⟩
  · obtain ⟨-, htxs, hdata⟩ := convert_ok.1 hconv
    -- the walk is a function: what it found is what it finds on any accepted bundle
    obtain ⟨out, hout, hext⟩ := extract_validated b h hb (by simp) (extract_noRefund _ htxs hs').2
    cases htxs.symm.trans hout
    refine ⟨hext.1, hext.2, hrefund.1 hdata, fun q hq => ?_⟩
    have hshape := hrefund.1 hdata
    rw [hq] at hshape
    exact hshape.bounds hc hinner

/-- A bundle of one transaction whose sender shares its refund, and a transaction that may revert. -/
def sharedRefund : SendMevBundleArgs :=
  ⟨"v0.1", "", ⟨2, 3⟩,
    [⟨none, none, some ⟨"v0.1", "", ⟨2, 2⟩, [⟨none, some sampleTx, none, false, ""⟩], ⟨[], [⟨7#160, 50⟩]⟩, none, none⟩,
        false, ""⟩,
      ⟨none, some sampleTx, none, true, ""⟩], ⟨[⟨0, 90⟩], []⟩, none, none⟩

theorem convert_accepted_shared :
    ∃ r, validateBundle pairDeps 1 sharedRefund = .ok r ∧
      ∃ conv, convertBundleToRefundRecipient r.bundle = .ok conv ∧
        conv.refundPercent = some 45 ∧ conv.refundRecipient = some 7#160 ∧
        conv.revertingTxHashes = [sampleTransaction.hash] ∧ conv.txs = r.bundle.transactions.map Prod.fst := by
  have hb : Everywhere AllTxOrBundle sharedRefund := by
    refine .node (by decide) fun el hel c hc => ?_
    rcases List.mem_pair.1 hel with rfl | rfl
    · cases hc
      refine .node (by decide) fun el hel c hc => ?_
      cases List.mem_singleton.1 hel
      cases hc
    · cases hc
  refine ⟨_, rfl, _, rfl, rfl, rfl, rfl, ?_⟩
  exact ((@convert_accepted pairDeps 1 sharedRefund _ rfl hb).2.2 _ rfl).1

end MevShare
