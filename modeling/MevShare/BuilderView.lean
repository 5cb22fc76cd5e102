import MevShare.Handed
import MevShare.RefundRequests
/-!
# What builders are told

Two consequences of how a submission is stamped, matched, cleaned and sent.

The external builders are not told who sent a bundle: take two submissions of the
same bundle that differ in the signer, the origin, the priority and the time, and
the external builders are sent the same requests. They are not told either whether
the bundle is being cancelled, so a replaceable bundle whose simulation fails is sent
to them once more like any other.

The refund of a backrun is what the bundle in front of it asks for (90 percent if
it asks for nothing), and every builder is told that share.
-/
open Lib

namespace MevShare

variable {D : Deps} {r r' : SendRequest} {v : Validated} {b b' bundle bundle' : SendMevBundleArgs} {targetBlock : UInt64}

/-! ## The sender -/

/-- The requests are the same to the validation and the look-up. -/
structure SendRequest.Alike (r r' : SendRequest) : Prop where
  bundle : r'.bundle = r.bundle
  blockNumber : r'.blockNumber = r.blockNumber
  fetched : r'.fetched = r.fetched

/-- The bundle without the metadata at the top, where the sender is. -/
def SendMevBundleArgs.unsigned (b : SendMevBundleArgs) : SendMevBundleArgs := { b with metadata := none }

theorem matched_unsigned (hfetched : r'.fetched = r.fetched) (h : matched D r v = .ok b) (h' : matched D r' v = .ok b') :
    b.unsigned = b'.unsigned := by
  unfold matched at h h'
  split at h
  · rename_i hu
    rw [if_pos hu, hfetched] at h'
    obtain ⟨_, _, _, _, _, _, stored, m, inclusion, hbody, hstored, -, hm, hinclusion, rfl⟩ := matchBundle_ok h
    obtain ⟨_, _, _, _, _, _, stored', m', inclusion', hbody', hstored', -, hm', hinclusion', rfl⟩ := matchBundle_ok h'
    cases hbody.symm.trans hbody'
    cases hstored.symm.trans hstored'
    cases hm.symm.trans hm'
    cases hinclusion.symm.trans hinclusion'
    simp only [SendMevBundleArgs.unsigned, mergePrivacyBuilders, mergePrivacyBuildersInner, stamp]
  · rename_i hu
    rw [if_neg hu] at h'
    cases h
    cases h'
    rfl

theorem replace_unsigned {s s' : Api} (h : s.replace r b = .ok (bundle, s')) : bundle.unsigned = b.unsigned := by
  rcases replace_ok h with ⟨-, rfl, -⟩ | ⟨-, -, rfl, -⟩
  · rfl
  · rfl

theorem handed_unsigned (halike : r.Alike r') (h : Handed D r bundle) (h' : Handed D r' bundle') :
    bundle.unsigned = bundle'.unsigned := by
  obtain ⟨v, b, s, s₁, hv, hb, hreplace⟩ := h
  obtain ⟨v', b', s', s₁', hv', hb', hreplace'⟩ := h'
  have hsame : received D r' = received D r := by rw [received, received, halike.bundle, halike.blockNumber]
  cases hv.symm.trans (hsame.symm.trans hv')
  rw [replace_unsigned hreplace, replace_unsigned hreplace', matched_unsigned halike.fetched hb hb']

/-- What the loop over the named builders reads of the preparation. -/
structure Prepared.SameOutside (p p' : Prepared) : Prop where
  isFirstBlock : p.isFirstBlock = p'.isFirstBlock
  isReplaceable : p.isReplaceable = p'.isReplaceable
  args : p.args = p'.args
  builders : p.builders = p'.builders

variable {p p' : Prepared} {shouldCancel shouldCancel' : Bool}

theorem prepare_sameOutside (hsame : bundle.unsigned = bundle'.unsigned) (h : prepare D bundle targetBlock shouldCancel = .ok p)
    (h' : prepare D bundle' targetBlock shouldCancel' = .ok p') : p.SameOutside p' := by
  obtain ⟨m, -, -, hbuilders, hfirst, hreplaceable, hargs, -⟩ := prepare_fields h
  obtain ⟨m', -, -, hbuilders', hfirst', hreplaceable', hargs', -⟩ := prepare_fields h'
  obtain ⟨version, uuid, inclusion, body, validity, privacy, metadata⟩ := bundle
  obtain ⟨version', uuid', inclusion', body', validity', privacy', metadata'⟩ := bundle'
  cases hsame
  refine ⟨hfirst.trans hfirst'.symm, hreplaceable.trans hreplaceable'.symm, ?_, ?_⟩
  · rw [hargs, hargs', cleanBundle, cleanBundle]
  · rw [hbuilders, hbuilders']
    simp only [mergedPrivacy, mergePrivacyBuilders, mergePrivacyBuildersInner]

theorem externalSpawns_sameOutside (backend : BuildersBackend) (h : p.SameOutside p') :
    ∀ names used : List String, externalSpawns D backend p names used = externalSpawns D backend p' names used := by
  intro names
  induction names with
  | nil => exact fun _ => rfl
  | cons name names ih =>
    intro used
    simp only [externalSpawns, h.isFirstBlock, h.isReplaceable, h.args, ih]

theorem external_contact {backend : BuildersBackend} (hp : prepare D bundle targetBlock shouldCancel = .ok p)
    {x : JSONRPCBuilderBackend} {args : SendMevBundleArgs}
    (h : (x, args) ∈ contacts (externalSpawns D backend p p.builders [])) : args = p.args := by
  obtain ⟨s, hs, -, hcontact⟩ := mem_contacts.1 h
  obtain ⟨_, -, -, ⟨-, rfl⟩ | ⟨-, rfl⟩⟩ := (mem_externalSpawns_names hp).1 hs
  · cases hcontact
  · cases hcontact
    rfl

/-- The external builders are contacted in the same way and with the same requests, whoever sends a
bundle, from wherever, whenever and with whatever priority, and whether it is being cancelled or not.
No bundle in a request has privacy settings or metadata. -/
theorem sender_hidden_from_external (backend : BuildersBackend) (halike : r.Alike r') (h : Handed D r bundle)
    (h' : Handed D r' bundle') {d d' : Dispatch} (hd : backend.sendBundle D bundle targetBlock shouldCancel = .ok d)
    (hd' : backend.sendBundle D bundle' targetBlock shouldCancel' = .ok d') :
    d.external = d'.external ∧ ∀ x args, (x, args) ∈ contacts d.external → Everywhere Clean args := by
  simp only [BuildersBackend.sendBundle, bind_ok, pure_ok] at hd hd'
  obtain ⟨p, hp, rfl⟩ := hd
  obtain ⟨p', hp', rfl⟩ := hd'
  have hsame := prepare_sameOutside (handed_unsigned halike h h') hp hp'
  constructor
  · dsimp only
    rw [hsame.builders, externalSpawns_sameOutside backend hsame]
  · intro x args hcontact
    obtain ⟨_, -, -, -, -, -, hargs, -⟩ := prepare_fields hp
    rw [external_contact hp hcontact, hargs]
    exact cleanBundle_clean _

/-- A submission for an external builder, and the same one by somebody else. -/
def alphaRequest : SendRequest := callWith (alphaTx false) (.error .backrunNotFound)

def alphaRequestToo : SendRequest := { alphaRequest with signer := 7, origin := "elsewhere", highPriority := true, receivedAt := 9 }

theorem sender_hidden_from_external_alpha :
    ∃ backend bundle bundle' d d', loadBuilderConfig pairDeps refundBuilders = .ok backend ∧
      Handed pairDeps alphaRequest bundle ∧ Handed pairDeps alphaRequestToo bundle' ∧
      backend.sendBundle pairDeps bundle 2 false = .ok d ∧ backend.sendBundle pairDeps bundle' 2 true = .ok d' ∧
      (contacts d.external).length = 1 ∧ d.external = d'.external := by
  have hsent : ∃ backend bundle bundle' d d', loadBuilderConfig pairDeps refundBuilders = .ok backend ∧
      Handed pairDeps alphaRequest bundle ∧ Handed pairDeps alphaRequestToo bundle' ∧
      backend.sendBundle pairDeps bundle 2 false = .ok d ∧ backend.sendBundle pairDeps bundle' 2 true = .ok d' ∧
      (contacts d.external).length = 1 :=
    ⟨_, _, _, _, _, rfl, ⟨_, _, emptyApi, _, rfl, rfl, rfl⟩, ⟨_, _, emptyApi, _, rfl, rfl, rfl⟩, rfl, rfl, rfl⟩
  obtain ⟨backend, bundle, bundle', d, d', hload, h, h', hd, hd', hone⟩ := hsent
  have halike : alphaRequest.Alike alphaRequestToo := ⟨rfl, rfl, rfl⟩
  exact ⟨backend, bundle, bundle', d, d', hload, h, h', hd, hd', hone,
    (sender_hidden_from_external backend halike h h' hd hd').1⟩

/-! ## The refund of a backrun -/

/-- The percentage of the refund that goes to a bundle when it is backrun. -/
def backrunShare (stored : SendMevBundleArgs) : Int := (stored.privacy.bind (·.wantRefund)).getD refundPercent

/-- The request says that the bundle in front, which is the stored one, gets its share: the first
element of the body does, or the sender of its first transaction, or the one address that it names. -/
inductive TellsShare (stored : SendMevBundleArgs) : Request → Prop
  | element {args : SendMevBundleArgs} {el : MevBundleBody} : args.validity.refund = [⟨0, backrunShare stored⟩] →
      args.body.head? = some el → el.tx = none → el.bundle = some (cleanBundle stored) →
      TellsShare stored (.mevSendBundle args)
  | sender {conv : SendRefundRecBundleArgs} : stored.validity.refundConfig = [] →
      conv.refundPercent = some (backrunShare stored) → conv.refundRecipient = none →
      stored.transactions.map Prod.fst <+: conv.txs → TellsShare stored (.ethSendBundle conv)
  | address {conv : SendRefundRecBundleArgs} {config : RefundConfig} : stored.validity.refundConfig = [config] →
      conv.refundPercent = some (config.percent * backrunShare stored / 100) →
      conv.refundRecipient = some config.address → TellsShare stored (.ethSendBundle conv)

theorem cleanBundle_transactions (b : SendMevBundleArgs) : (cleanBundle b).transactions = b.transactions := by
  induction b using SendMevBundleArgs.tree_induction with
  | h b ih =>
    rw [transactions_eq, transactions_eq, cleanBundle_eq]
    dsimp only
    rw [cleanElements_eq]
    generalize b.body = body at ih
    induction body with
    | nil => rfl
    | cons el body ihbody =>
      rw [List.map_cons, bodyTransactions, bodyTransactions, ihbody fun x hx => ih x (List.mem_cons_of_mem _ hx)]
      obtain ⟨_, tx, inner, _, _⟩ := el
      cases tx with
      | some t => rfl
      | none =>
        cases inner with
        | none => rfl
        | some c => simp [elementTransactions, ih _ List.mem_cons_self c rfl]

theorem sentArgs_transactions (metadata : Option MevBundleMetadata) :
    (sentArgs bundle targetBlock metadata).transactions = bundle.transactions := by
  rw [← cleanBundle_transactions bundle, cleanBundle_eq, transactions_eq, transactions_eq, sentArgs]

/-- The loop over a body collects the transactions in order, if the walk does for the bundles in it. -/
theorem extractTxsBody_txs {depth : Nat} {metadata : Option MevBundleMetadata} {l : List MevBundleBody} {i : Nat}
    {out : List Bytes × List Hash} (h : extractTxsBody depth metadata i l = .ok out)
    (hinner : ∀ el ∈ l, ∀ c, el.bundle = some c → ∀ depth out, extractTxsForRefundRecipientBundle depth c = .ok out →
      out.1 = c.transactions.map Prod.fst) : out.1 = (bodyTransactions l).map Prod.fst := by
  induction l generalizing i out with
  | nil =>
    cases h
    rfl
  | cons el l ih =>
    simp only [extractTxsBody, bind_ok] at h
    obtain ⟨first, hfirst, rest, hrest, heq⟩ := h
    cases heq
    rw [bodyTransactions, List.map_append, ← ih hrest fun x hx => hinner x (List.mem_cons_of_mem _ hx)]
    refine congrArg (· ++ rest.1) ?_
    obtain ⟨_, tx, inner, canRevert, _⟩ := el
    cases tx with
    | some t =>
      simp only [extractTxsElement] at hfirst
      split at hfirst
      · obtain ⟨hash, -, heq⟩ := bind_ok.1 hfirst
        cases heq
        rfl
      · cases hfirst
        rfl
    | none =>
      cases inner with
      | none => cases hfirst
      | some c => exact hinner _ List.mem_cons_self c rfl _ _ hfirst

theorem extract_txs (b : SendMevBundleArgs) : ∀ (depth : Nat) (out : List Bytes × List Hash),
    extractTxsForRefundRecipientBundle depth b = .ok out → out.1 = b.transactions.map Prod.fst := by
  induction b using SendMevBundleArgs.tree_induction with
  | h b ih =>
    intro depth out h
    rw [transactions_eq]
    exact extractTxsBody_txs (extract_ok.1 h).2.2 ih

/-- What a matched bundle is: the stored bundle in front and its share as the only refund. -/
theorem handed_backrun {stored : SendMevBundleArgs} (hv : received D r = .ok v) (hu : v.unmatched = true)
    (hsingle : Everywhere AllSingle r.bundle) (hfetched : r.fetched = .ok stored) (h : Handed D r bundle) :
    stored.hasHintHash = true ∧ bundle.validity.refund = [⟨0, backrunShare stored⟩] ∧
      ∃ canRevert revertMode rest, bundle.body = ⟨none, none, some stored, canRevert, revertMode⟩ :: rest := by
  obtain ⟨v', b, s, s', hv', hb, hreplace⟩ := h
  cases hv.symm.trans hv'
  rw [matched, if_pos hu] at hb
  obtain ⟨g, tx, old, canRevert, revertMode, rest, stored', m, inclusion, hbody, hstored, hhint, -, -, rfl⟩ :=
    matchBundle_ok hb
  cases hfetched.symm.trans hstored
  -- a hash stands alone
  have htx : tx = none := by
    obtain ⟨currentBlock, hvalid⟩ := received_ok hv
    have hel := (everywhere_iff.1 ((everywhere_allSingle_iff _ hvalid).2 hsingle)).1 _ (hbody ▸ List.mem_cons_self)
    cases tx with
    | none => rfl
    | some t =>
      simp [MevBundleBody.Single] at hel
      omega
  subst htx
  refine ⟨hhint, ?_, canRevert, revertMode, rest, (replace_keeps hreplace).1⟩
  rcases replace_ok hreplace with ⟨-, rfl, -⟩ | ⟨-, -, rfl, -⟩ <;> rfl

theorem unmatched_hasHintHash (hv : received D r = .ok v) (hu : v.unmatched = true) : v.bundle.hasHintHash = false := by
  obtain ⟨currentBlock, hvalid⟩ := received_ok hv
  have hnone := (unmatched_bare hvalid hu).2
  unfold SendMevBundleArgs.hasHintHash
  split
  · rfl
  · rename_i p hp
    rw [hnone p hp]
    decide

/-- A bundle that can be matched was accepted with these terms. -/
theorem handed_constraints {stored : SendMevBundleArgs} (h : Handed D r stored) (hhint : stored.hasHintHash = true) :
    Constraints stored := by
  obtain ⟨v, hv, hhanding⟩ := handing h
  obtain ⟨v', b, s, s', hv', hb, hreplace⟩ := h
  cases hv.symm.trans hv'
  obtain ⟨currentBlock, hvalid⟩ := received_ok hv
  have hc := validated_constraints hvalid
  cases hhanding with
  | whole hu =>
    simp only [matched, hu, Bool.false_eq_true, if_false] at hb
    cases hb
    rcases replace_ok hreplace with ⟨-, rfl, -⟩ | ⟨-, -, rfl, -⟩
    · exact ⟨hc.1, hc.2, hc.3, hc.4, hc.5, hc.6, hc.7, hc.8⟩
    · exact ⟨hc.1, hc.2, hc.3, hc.4, hc.5, hc.6, hc.7, hc.8⟩
  | spliced hu _ _ _ _ _ _ hsame =>
    rw [hhint, unmatched_hasHintHash hv hu] at hsame
    cases hsame

theorem SameTop.share (h : SameTop b b') : backrunShare b' = backrunShare b := by
  have hwant (p : Option MevBundlePrivacy) : p.bind (·.wantRefund) = (p.map (·.terms)).bind (·.2) := by
    rw [Option.bind_map]
    rfl
  rw [backrunShare, backrunShare, hwant, h.privacy, ← hwant]

theorem backrunShare_bounds {stored : SendMevBundleArgs} (h : Constraints stored) :
    0 ≤ backrunShare stored ∧ backrunShare stored ≤ 100 := by
  unfold backrunShare
  cases hwant : stored.privacy.bind (·.wantRefund) with
  | none => decide
  | some w =>
    obtain ⟨p, hp, hw⟩ := Option.bind_eq_some_iff.1 hwant
    exact h.wantRefund p hp w hw

/-- The percentages in a bundle that is found for a hash. -/
theorem stored_percents {stored : SendMevBundleArgs} (h : OnceHanded D stored) (hhint : stored.hasHintHash = true) :
    (0 ≤ backrunShare stored ∧ backrunShare stored ≤ 100) ∧ ∀ c ∈ stored.validity.refundConfig, 0 ≤ c.percent := by
  obtain ⟨r, c, hc, htop⟩ := h
  have hconstraints := handed_constraints hc ((hasHintHash_eq htop.privacy).symm.trans hhint)
  rw [htop.share, htop.validity]
  exact ⟨backrunShare_bounds hconstraints, fun config hconfig => (hconstraints.configPercents config hconfig).1⟩

/-- The conversion of a backrun tells the share in the way that the stored bundle asks for. -/
theorem conversion_tells_share {stored : SendMevBundleArgs} {canRevert : Bool} {revertMode : String}
    {rest : List MevBundleBody} {metadata : Option MevBundleMetadata} {conv : SendRefundRecBundleArgs}
    (hrefund : bundle.validity.refund = [⟨0, backrunShare stored⟩])
    (hbody : bundle.body = ⟨none, none, some stored, canRevert, revertMode⟩ :: rest) (hshare : 0 ≤ backrunShare stored)
    (hconfigs : ∀ config ∈ stored.validity.refundConfig, 0 ≤ config.percent)
    (hconv : convertBundleToRefundRecipient (sentArgs bundle targetBlock metadata) = .ok conv) :
    TellsShare stored (.ethSendBundle conv) := by
  obtain ⟨-, htxs, hdata⟩ := convert_ok.1 hconv
  rw [refundData_sent, refundData_eq hrefund (Int.le_refl 0) (by rw [hbody]; rfl)] at hdata
  dsimp only at hdata
  split at hdata
  · rename_i hconfig
    obtain ⟨hpercent, haddress⟩ := Prod.mk.inj (Except.ok.inj hdata)
    refine .sender hconfig hpercent.symm haddress.symm ?_
    have htransactions : bundle.transactions = stored.transactions ++ bodyTransactions rest := by
      rw [transactions_eq bundle, hbody]
      rfl
    rw [show conv.txs = _ from extract_txs _ _ _ htxs, sentArgs_transactions, htransactions, List.map_append]
    exact List.prefix_append _ _
  · rename_i config hconfig
    obtain ⟨hpercent, haddress⟩ := Prod.mk.inj (Except.ok.inj hdata)
    have hnonneg : 0 ≤ config.percent * backrunShare stored :=
      Int.mul_nonneg (hconfigs config (by simp [hconfig])) hshare
    rw [Int.tdiv_eq_ediv_of_nonneg hnonneg] at hpercent
    exact .address hconfig hpercent.symm haddress.symm
  · cases hdata

/-- A builder that is sent a backrun is told that the bundle in front of it gets the share that it
asked for when it was accepted, or 90 percent. -/
theorem backrun_share_told (backend : BuildersBackend) {stored : SendMevBundleArgs} (hv : received D r = .ok v)
    (hu : v.unmatched = true) (hsingle : Everywhere AllSingle r.bundle) (hfetched : r.fetched = .ok stored)
    (hstored : OnceHanded D stored) (h : Handed D r bundle) {x : JSONRPCBuilderBackend} {args : SendMevBundleArgs}
    {request : Request} (hcontact : (x, args) ∈ contacts (backend.spawned D bundle targetBlock shouldCancel))
    (hrequest : x.sendBundle args = .ok request) :
    TellsShare stored request ∧ 0 ≤ backrunShare stored ∧ backrunShare stored ≤ 100 := by
  obtain ⟨hhint, hrefund, canRevert, revertMode, rest, hbody⟩ := handed_backrun hv hu hsingle hfetched h
  obtain ⟨hbounds, hconfigs⟩ := stored_percents hstored hhint
  obtain ⟨p, hp, hargs⟩ := mem_contacts_spawned.1 hcontact
  obtain ⟨hexternal, m, -, hinternal⟩ := prepare_sent hp
  obtain ⟨metadata, rfl⟩ : ∃ metadata, args = sentArgs bundle targetBlock metadata := by
    rcases hargs with ⟨-, rfl⟩ | ⟨-, rfl⟩
    · exact ⟨_, hinternal⟩
    · exact ⟨_, hexternal⟩
  refine ⟨?_, hbounds⟩
  have hmev : TellsShare stored (.mevSendBundle (sentArgs bundle targetBlock metadata)) :=
    .element hrefund (by rw [sentArgs, hbody, cleanElements_eq]; rfl) rfl rfl
  unfold JSONRPCBuilderBackend.sendBundle at hrequest
  split at hrequest
  · obtain ⟨conv, hconv, heq⟩ := bind_ok.1 hrequest
    cases heq
    exact conversion_tells_share hrefund hbody hbounds.1 hconfigs hconv
  · cases hrequest
    exact hmev
  · cases hrequest
    exact hmev

/-- A backrun of one transaction, sent to a builder with the refund-recipient API. -/
theorem backrun_share_told_flat :
    ∃ backend bundle x args request, loadBuilderConfig pairDeps refundBuilders = .ok backend ∧
      Handed pairDeps (backrunOf (storedBy flatRequest)) bundle ∧
      (x, args) ∈ contacts (backend.spawned pairDeps bundle 2 false) ∧ x.sendBundle args = .ok request ∧
      TellsShare (storedBy flatRequest) request := by
  have hsent : ∃ backend bundle, loadBuilderConfig pairDeps refundBuilders = .ok backend ∧
      Handed pairDeps (backrunOf (storedBy flatRequest)) bundle ∧
      (contacts (backend.spawned pairDeps bundle 2 false)).any (fun c => (c.1.sendBundle c.2).toBool) = true :=
    ⟨_, _, rfl, ⟨_, _, emptyApi, _, rfl, rfl, rfl⟩, by decide +kernel⟩
  obtain ⟨backend, bundle, hload, hbundle, hany⟩ := hsent
  obtain ⟨⟨x, args⟩, hcontact, hok⟩ := List.any_eq_true.1 hany
  obtain ⟨request, hrequest⟩ : ∃ request, x.sendBundle args = .ok request := by
    cases hsend : x.sendBundle args with
    | error e => simp [hsend, Except.toBool] at hok
    | ok request => exact ⟨request, rfl⟩
  have hsingle : Everywhere AllSingle (backrunOf (storedBy flatRequest)).bundle := everywhere_of_flat (by decide) (by decide)
  exact ⟨backend, bundle, x, args, request, hload, hbundle, hcontact, hrequest,
    (backrun_share_told backend rfl rfl hsingle rfl flatRequest_handed.once hbundle hcontact hrequest).1⟩

end MevShare
