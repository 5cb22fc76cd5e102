import MevShare.Lib.Tally
import MevShare.Replacement
/-!
# Superseded bundles

A nonce is a ticket: a call of `SendBundle` draws it from the counter of its pair
and the scheduled bundle carries it on. No two tickets of a pair are the same and
none is past the counter, in every interleaving of the calls. So of two scheduled
bundles of one pair one is behind the counter, and since the counter only rises
no invocation of `Process` that gets to read it has that one sent any more
(`superseded_withheld`). An invocation that cannot read the counter, because Redis
fails or the key has expired, goes on as if the bundle were current.
-/
open Lib

namespace MevShare

/-- The pair and the nonce of a bundle with a replacement UUID. -/
def ticketOf (bundle : SendMevBundleArgs) : Option (ReplacementKey × UInt64) :=
  match bundle.metadata with
  | some m => if bundle.replacementUUID = "" then none else some ((m.signer, bundle.replacementUUID), m.replacementNonce)
  | none => none

/-- The ticket of a call that is about to schedule its bundle. -/
def CallPc.ticket : CallPc → Option (ReplacementKey × UInt64)
  | .schedule _ bundle => ticketOf bundle
  | _ => none

def Api.tickets (s : Api) : List (ReplacementKey × UInt64) := s.scheduled.filterMap (ticketOf ·.bundle)

/-- The tickets that were drawn and not thrown away. -/
def Calls.tickets (s : Calls) : Multiset (ReplacementKey × UInt64) :=
  s.api.tickets + (s.calls.map fun c => (c.pc.ticket.toList : Multiset (ReplacementKey × UInt64))).sum

/-- No counter is past what Redis increments to. -/
def Api.InRange (s : Api) : Prop := ∀ key, s.nonces key ≤ maxNonce

/-- Whatever an invocation of `Process` is told about cancellations and by the
simulation node, it does not have the bundle sent to the builders, if it reads the
nonces as they are now. -/
def Withheld (D : Deps) (s : Api) (bundle : SendMevBundleArgs) : Prop :=
  ∀ m, bundle.metadata = some m → ∀ targetBlock cancelled simulated p t,
    process D (.ok bundle) targetBlock cancelled simulated (s.getReplacementNonce (m.signer, bundle.replacementUUID)) =
      .ok p → p.handed = some t → t.sending = false

variable {D : Deps}

/-! ## What a step of a call does to the tickets -/

/-- A step throws tickets away or moves them, or it draws the next one of a pair. -/
inductive TicketEffect (r : SendRequest) (pc : CallPc) (s : Api) (pc' : CallPc) (s' : Api) : Prop
  | keep : s'.nonces = s.nonces →
      (s'.tickets : Multiset (ReplacementKey × UInt64)) + pc'.ticket.toList ≤ s.tickets + pc.ticket.toList →
      TicketEffect r pc s pc' s'
  | draw {key} : s'.tickets = s.tickets → pc.ticket = none → s.nonces key ≠ maxNonce →
      pc'.ticket = some (key, s.nonces key + 1) → s' = s.setNonce key (s.nonces key + 1) → TicketEffect r pc s pc' s'

theorem callStep_tickets {r : SendRequest} {pc pc' : CallPc} {s s' : Api} (hsound : pc.Sound D r)
    (h : callStep D r (pc, s) = some (pc', s')) : TicketEffect r pc s pc' s' := by
  cases pc with
  | enter =>
    simp only [callStep] at h
    repeat' split at h
    all_goals
      cases h
      exact .keep rfl (le_refl _)
  | remember v =>
    simp only [callStep] at h
    split at h
    all_goals
      cases h
      exact .keep rfl (le_refl _)
  | replace v bundle =>
    obtain ⟨m, hm, -, hsigner⟩ := hsound
    simp only [callStep] at h
    split at h
    · cases h
      exact .keep rfl (le_refl _)
    · rename_i bundle' s₁ hr
      cases h
      rcases replace_ok hr with ⟨huuid, rfl, rfl⟩ | ⟨huuid, hmax, rfl, rfl⟩
      · -- a bundle without a UUID has no ticket
        have hnone : (CallPc.schedule v bundle').ticket = none := by simp [CallPc.ticket, ticketOf, hm, huuid]
        refine .keep rfl ?_
        rw [hnone]
        exact le_refl _
      · refine .draw rfl rfl hmax ?_ rfl
        simp [CallPc.ticket, ticketOf, hm, huuid, hsigner]
  | schedule v bundle =>
    simp only [callStep, Api.schedule] at h
    split at h
    · cases h
      exact .keep rfl (add_le_add (le_refl _) (Multiset.zero_le _))
    · cases h
      refine .keep rfl (le_of_eq ?_)
      cases ht : ticketOf bundle with
      | none => simp [Api.tickets, CallPc.ticket, ht]
      | some ticket => simp [Api.tickets, CallPc.ticket, ht, ← Multiset.coe_add]
  | returned result => simp [callStep] at h

/-! ## The tickets of a run -/

structure Ticketed (D : Deps) (s : Calls) : Prop where
  sound : ∀ c ∈ s.calls, c.pc.Sound D c.req
  range : s.api.InRange
  nodup : s.tickets.Nodup
  drawn : ∀ x ∈ s.tickets, x.2 ≤ s.api.nonces x.1

theorem lt_succ_of_ne_max {n : UInt64} (hle : n ≤ maxNonce) (hne : n ≠ maxNonce) : n < n + 1 ∧ n + 1 ≤ maxNonce := by
  unfold maxNonce at *
  grind

/-- A step does not lower a counter, and leaves it in the range of Redis. -/
theorem TicketEffect.nonces {r : SendRequest} {pc pc' : CallPc} {s s' : Api} (h : TicketEffect r pc s pc' s')
    (hs : s.InRange) : s'.InRange ∧ ∀ key, s.nonces key ≤ s'.nonces key := by
  cases h with
  | keep hnonces _ =>
    unfold Api.InRange
    rw [hnonces]
    exact ⟨hs, fun key => UInt64.le_refl _⟩
  | @draw key _ _ hmax _ hs' =>
    subst hs'
    obtain ⟨hlt, hle⟩ := lt_succ_of_ne_max (hs key) hmax
    refine ⟨fun k => ?_, fun k => ?_⟩ <;> by_cases hk : k = key <;> simp only [Api.setNonce, hk, if_true, if_false]
    · exact hle
    · exact hs k
    · exact UInt64.le_of_lt hlt
    · exact UInt64.le_refl _

/-- The step of one call, with the tickets of the others as `rest`: a ticket that is drawn is past all of its pair. -/
theorem TicketEffect.tickets {r : SendRequest} {pc pc' : CallPc} {s s' : Api} {rest : Multiset (ReplacementKey × UInt64)}
    (h : TicketEffect r pc s pc' s') (hs : s.InRange)
    (hnodup : (s.tickets + pc.ticket.toList + rest : Multiset (ReplacementKey × UInt64)).Nodup)
    (hdrawn : ∀ x ∈ (s.tickets + pc.ticket.toList + rest : Multiset (ReplacementKey × UInt64)), x.2 ≤ s.nonces x.1) :
    (s'.tickets + pc'.ticket.toList + rest : Multiset (ReplacementKey × UInt64)).Nodup ∧
      ∀ x ∈ (s'.tickets + pc'.ticket.toList + rest : Multiset (ReplacementKey × UInt64)), x.2 ≤ s'.nonces x.1 := by
  obtain ⟨-, hrise⟩ := h.nonces hs
  cases h with
  | keep _ hle =>
    have hsub : (s'.tickets + pc'.ticket.toList + rest : Multiset (ReplacementKey × UInt64)) ≤
        s.tickets + pc.ticket.toList + rest := add_le_add hle (le_refl _)
    exact ⟨Multiset.nodup_of_le hsub hnodup,
      fun x hx => UInt64.le_trans (hdrawn x (Multiset.mem_of_le hsub hx)) (hrise x.1)⟩
  | @draw key htickets hnone hmax hnew hapi =>
    have hlt := (lt_succ_of_ne_max (hs key) hmax).1
    have hcons : (s'.tickets + pc'.ticket.toList + rest : Multiset (ReplacementKey × UInt64)) =
        (key, s.nonces key + 1) ::ₘ (s.tickets + pc.ticket.toList + rest) := by
      rw [htickets, hnone, hnew, Option.toList_some, Option.toList_none, Multiset.coe_singleton, Multiset.coe_nil, add_zero,
        add_right_comm, ← Multiset.singleton_add, add_comm]
    rw [hcons]
    refine ⟨Multiset.nodup_cons.2 ⟨fun hmem => ?_, hnodup⟩, fun x hx => ?_⟩
    · exact absurd (hdrawn _ hmem) (UInt64.not_le.2 hlt)
    · rcases Multiset.mem_cons.1 hx with rfl | hx
      · simp [hapi, Api.setNonce]
      · exact UInt64.le_trans (hdrawn x hx) (hrise x.1)

theorem Ticketed.step {s s' : Calls} {a : CallAction} (hs : Ticketed D s) (hstep : callsStep D s a = some s') :
    Ticketed D s' := by
  cases a with
  | call r =>
    cases hstep
    have htickets : Calls.tickets { s with calls := s.calls ++ [⟨r, .enter⟩] } = s.tickets := by
      simp [Calls.tickets, CallPc.ticket]
    refine ⟨fun c hc => ?_, hs.range, htickets ▸ hs.nodup, htickets ▸ hs.drawn⟩
    rcases List.mem_append.1 hc with hc | hc
    · exact hs.sound c hc
    · rw [List.mem_singleton.1 hc]
      trivial
  | evict h =>
    cases hstep
    exact ⟨hs.sound, hs.range, hs.nodup, hs.drawn⟩
  | step i =>
    simp only [callsStep, Option.bind_eq_bind, Option.bind_eq_some_iff] at hstep
    obtain ⟨c, hc, ⟨pc', api'⟩, hcall, heq⟩ := hstep
    cases heq
    have hcsound := hs.sound c (List.mem_of_getElem? hc)
    have heffect := callStep_tickets hcsound hcall
    obtain ⟨rest, hsum, hset⟩ :=
      exists_rest (fun c : Call => (c.pc.ticket.toList : Multiset (ReplacementKey × UInt64))) hc
    have hnodup := hs.nodup
    have hdrawn := hs.drawn
    rw [Calls.tickets, hsum, ← add_assoc] at hnodup hdrawn
    obtain ⟨hnodup', hdrawn'⟩ := heffect.tickets hs.range hnodup hdrawn
    refine ⟨fun d hd => ?_, (heffect.nonces hs.range).1, ?_, ?_⟩
    · rcases List.mem_or_eq_of_mem_set hd with hd | rfl
      · exact hs.sound d hd
      · exact (callStep_effect hcsound hcall).1
    · rw [Calls.tickets, hset, ← add_assoc]
      exact hnodup'
    · rw [Calls.tickets, hset, ← add_assoc]
      exact hdrawn'

/-- A ticket that is behind its counter stays behind it. -/
theorem behind_step {s s' : Calls} {a : CallAction} {x : ReplacementKey × UInt64} (hs : Ticketed D s)
    (hx : x.2 < s.api.nonces x.1) (hstep : callsStep D s a = some s') : x.2 < s'.api.nonces x.1 := by
  cases a with
  | call r =>
    cases hstep
    exact hx
  | evict h =>
    cases hstep
    exact hx
  | step i =>
    simp only [callsStep, Option.bind_eq_bind, Option.bind_eq_some_iff] at hstep
    obtain ⟨c, hc, ⟨pc', api'⟩, hcall, heq⟩ := hstep
    cases heq
    have heffect := callStep_tickets (hs.sound c (List.mem_of_getElem? hc)) hcall
    exact UInt64.lt_of_lt_of_le hx ((heffect.nonces hs.range).2 x.1)

/-! ## Workers -/

theorem process_old {bundle : SendMevBundleArgs} {m : MevBundleMetadata} {targetBlock : UInt64}
    {cancelled : Except Err Bool} {simulated : Except Err SimMevBundleResponse} {rnonce : Except Err UInt64}
    {p : Processed} {t : SimTask} (h : process D (.ok bundle) targetBlock cancelled simulated rnonce = .ok p)
    (hm : bundle.metadata = some m) (hold : isOldBundle bundle m rnonce = true) (ht : p.handed = some t) :
    t.sending = false := by
  simp only [process, hm, hold] at h
  repeat' split at h
  all_goals cases h
  all_goals cases ht
  all_goals rfl

/-- A worker that reads a counter past the nonce of the bundle does not send it. -/
theorem withheld_of_behind {s : Api} {bundle : SendMevBundleArgs} {x : ReplacementKey × UInt64}
    (hticket : ticketOf bundle = some x) (hx : x.2 < s.nonces x.1) : Withheld D s bundle := by
  intro m hm targetBlock cancelled simulated p t hp ht
  simp only [ticketOf, hm] at hticket
  obtain ⟨huuid, heq⟩ := Option.ite_none_left_eq_some.1 hticket
  cases heq
  have hne : s.nonces (m.signer, bundle.replacementUUID) ≠ 0 := by
    intro hzero
    rw [hzero] at hx
    simp at hx
  refine process_old hp hm ?_ ht
  simp only [isOldBundle, Api.getReplacementNonce, hne, if_false, pure, Except.pure]
  simp [huuid, hx]

/-- The bundles were submitted by one signer under one replacement UUID. -/
def SamePair (bundle bundle' : SendMevBundleArgs) : Prop :=
  ∃ m m', bundle.metadata = some m ∧ bundle'.metadata = some m' ∧ m.signer = m'.signer ∧
    bundle.replacementUUID = bundle'.replacementUUID ∧ bundle.replacementUUID ≠ ""

theorem ticketed_run {api : Api} (hempty : api.scheduled = []) (hrange : api.InRange) {tr : List (Calls × CallAction)}
    {s : Calls} (hrun : Run (callsStep D) (.start api) tr s) : Ticketed D s := by
  refine @Run.inv _ _ _ _ (fun _ _ => True) (Ticketed D) ?_ (fun _ _ _ hs _ hstep => hs.step hstep) _ _ hrun
    fun _ _ => trivial
  have hnone : (Calls.start api).tickets = 0 := by simp [Calls.tickets, Calls.start, Api.tickets, hempty]
  exact ⟨by simp [Calls.start], hrange, by simp [hnone], by simp [hnone]⟩

/-- A bundle that is behind the counter is withheld from now on. -/
theorem Ticketed.withheld {s s' : Calls} {tr : List (Calls × CallAction)} {bundle : SendMevBundleArgs}
    {x : ReplacementKey × UInt64} (hs : Ticketed D s) (hticket : ticketOf bundle = some x) (hx : x.2 < s.api.nonces x.1)
    (hrun : Run (callsStep D) s tr s') : Withheld D s'.api bundle := by
  have hinv : Ticketed D s' ∧ x.2 < s'.api.nonces x.1 :=
    @Run.inv _ _ _ _ (fun _ _ => True) (fun s : Calls => Ticketed D s ∧ x.2 < s.api.nonces x.1) ⟨hs, hx⟩
      (fun _ _ _ h _ hstep => ⟨h.1.step hstep, behind_step h.1 h.2 hstep⟩) _ _ hrun fun _ _ => trivial
  exact withheld_of_behind hticket hinv.2

theorem Ticketed.scheduled_nodup {s : Calls} (hs : Ticketed D s) : s.api.tickets.Nodup := by
  have hle : (s.api.tickets : Multiset (ReplacementKey × UInt64)) ≤ s.tickets := Multiset.le_add_right _ _
  exact Multiset.coe_nodup.1 (Multiset.nodup_of_le hle hs.nodup)

theorem Ticketed.scheduled_drawn {s : Calls} (hs : Ticketed D s) {e : Scheduled} {x : ReplacementKey × UInt64}
    (he : e ∈ s.api.scheduled) (hticket : ticketOf e.bundle = some x) : x.2 ≤ s.api.nonces x.1 := by
  refine hs.drawn x (Multiset.mem_add.2 (.inl ?_))
  exact List.mem_filterMap.2 ⟨e, he, hticket⟩

/-- In every interleaving of the calls: of any two bundles that were scheduled for
one pair, there is one that no `Process` from now on has sent to the builders if it
reads the nonce of the pair, whatever calls still come. -/
theorem superseded_withheld {api : Api} (hempty : api.scheduled = []) (hrange : api.InRange)
    {tr : List (Calls × CallAction)} {s : Calls} (hrun : Run (callsStep D) (.start api) tr s) :
    s.api.scheduled.Pairwise fun e e' => SamePair e.bundle e'.bundle →
      ∃ x, (x = e ∨ x = e') ∧ ∀ tr' s', Run (callsStep D) s tr' s' → Withheld D s'.api x.bundle := by
  have hs := ticketed_run hempty hrange hrun
  refine List.Pairwise.imp_of_mem ?_ (List.pairwise_filterMap.1 hs.scheduled_nodup)
  intro e e' he he' hne hpair
  obtain ⟨m, m', hm, hm', hsigner, huuid, huuid'⟩ := hpair
  have hticket : ticketOf e.bundle = some ((m.signer, e.bundle.replacementUUID), m.replacementNonce) := by
    simp [ticketOf, hm, huuid']
  have hticket' : ticketOf e'.bundle = some ((m.signer, e.bundle.replacementUUID), m'.replacementNonce) := by
    simp [ticketOf, hm', ← huuid, huuid', hsigner]
  have hdiffer : m.replacementNonce ≠ m'.replacementNonce := by
    intro heq
    exact hne _ hticket _ hticket' (by rw [heq])
  have hle := hs.scheduled_drawn he hticket
  have hle' := hs.scheduled_drawn he' hticket'
  by_cases hx : m.replacementNonce < s.api.nonces (m.signer, e.bundle.replacementUUID)
  · exact ⟨e, .inl rfl, fun tr' s' => hs.withheld hticket hx⟩
  · -- the first bundle is at the counter, so the other one is not
    refine ⟨e', .inr rfl, fun tr' s' => hs.withheld hticket' ?_⟩
    have heq := UInt64.le_antisymm hle (UInt64.not_lt.1 hx)
    exact UInt64.lt_of_le_of_ne hle' fun h => hdiffer (heq.trans h.symm)

/-- A bundle and its replacement. -/
theorem superseded_withheld_replaced :
    ∃ tr s e e', emptyApi.scheduled = [] ∧ emptyApi.InRange ∧ Run (callsStep sampleDeps) (.start emptyApi) tr s ∧
      s.api.scheduled = [e, e'] ∧ SamePair e.bundle e'.bundle ∧
      ∃ x, (x = e ∨ x = e') ∧ Withheld sampleDeps s.api x.bundle := by
  have hexec : ∃ s, List.foldlM (callsStep sampleDeps) (.start emptyApi)
        ([.call (replacementRequest 3), .step 0, .step 0, .step 0, .step 0] ++
          [.call (replacementRequest 4), .step 1, .step 1, .step 1, .step 1]) = some s ∧
      ∃ e e', s.api.scheduled = [e, e'] ∧ SamePair e.bundle e'.bundle :=
    ⟨_, rfl, _, _, rfl, _, _, rfl, rfl, rfl, rfl, by decide⟩
  obtain ⟨s, hexec, e, e', hscheduled, hpair⟩ := hexec
  obtain ⟨tr, hrun, -⟩ := run_of_foldlM hexec
  have hrange : emptyApi.InRange := fun _ => UInt64.zero_le
  have hpairwise := superseded_withheld rfl hrange hrun
  rw [hscheduled, List.pairwise_pair] at hpairwise
  obtain ⟨x, hx, hlater⟩ := hpairwise hpair
  exact ⟨tr, s, e, e', rfl, hrange, hrun, hscheduled, hpair, x, hx, hlater [] s .nil⟩

end MevShare
