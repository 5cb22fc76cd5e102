import MevShare.TargetBlock
/-!
# From a request to the worker

A bundle comes in as JSON, is validated, stamped and perhaps spliced, and goes to
the queue as the text of its JSON (`ScheduleBundleSimulation`); the queue packs it
into a member of its sorted set, and the worker unpacks, parses and decodes it
(`Process`). What the node does to a bundle on the way keeps it within what JSON can
say (`handed_encodable`), so every worker gets a bundle that a call scheduled, with
nothing lost: `worker_reads_scheduled`. The strings of a bundle are UTF-8; Go would
write replacement characters for the bytes of an origin header that are not.
-/
open Lib

namespace MevShare

/-! ## What the node does to a bundle -/

variable {D : Deps} {currentBlock : UInt64}

theorem encodable_mergeBuilders {topLevel : Option MevBundlePrivacy} (inner : Option MevBundlePrivacy)
    (h : ∀ p ∈ topLevel, p.Encodable) : ∀ p ∈ mergeBuilders D topLevel inner, p.Encodable := by
  rw [mergeBuilders_eq]
  intro p hp
  obtain ⟨q, hq, rfl⟩ := Option.mem_map.1 hp
  exact ⟨(h q hq).hints, (h q hq).wantRefund⟩

theorem encodable_validatePrivacy {unmatched : Bool} {privacy privacy' : Option MevBundlePrivacy}
    (hp : ∀ p ∈ privacy, p.Encodable) (h : validatePrivacy D unmatched privacy = .ok privacy') :
    ∀ p ∈ privacy', p.Encodable := by
  cases privacy with
  | none =>
    simp only [validatePrivacy, pure_ok] at h
    simp [← h]
  | some p =>
    simp only [validatePrivacy, bind_ok, rejectIf_ok, exists_const, pure_ok] at h
    obtain ⟨-, -, rfl⟩ := h
    rintro _ ⟨⟩
    refine ⟨?_, (hp p rfl).wantRefund⟩
    split
    · exact setHint_clear (hp p rfl).hints rfl
    · exact (hp p rfl).hints

/-- Validation keeps a bundle within what JSON can say. -/
theorem validated_encodable (b : SendMevBundleArgs) : ∀ {level : Nat} {r : Validated},
    validateBundleInner D currentBlock level b = .ok r → Everywhere Encodable b → Everywhere Encodable r.bundle := by
  induction b using SendMevBundleArgs.tree_induction with
  | h b ih =>
    intro level r h hb
    obtain ⟨hself, hinner⟩ := everywhere_iff.1 hb
    obtain ⟨_, st, -, -, -, hst, hf⟩ := validated_inv h
    obtain ⟨-, -, privacy, hprivacy, rfl⟩ := finishBundle_ok hf
    -- the elements that the loop has left hold what JSON can say, and so does the privacy
    have hloop : (∀ el ∈ st.body, ∀ c, el.bundle = some c → Everywhere Encodable c) ∧ ∀ p ∈ st.privacy, p.Encodable := by
      refine validateBody_ok (P := fun _ st => (∀ el ∈ st.body, ∀ c, el.bundle = some c → Everywhere Encodable c) ∧
        ∀ p ∈ st.privacy, p.Encodable) ?_ ⟨by simp, hself.privacy⟩ hst
      rintro done el st st' hel ⟨hbody, hpriv⟩ hturn
      have hnext : ∀ x : MevBundleBody, (∀ c, x.bundle = some c → Everywhere Encodable c) →
          ∀ el ∈ st.body ++ [x], ∀ c, el.bundle = some c → Everywhere Encodable c := by
        intro x hx el hel
        rcases List.mem_append.1 hel with hel | hel
        · exact hbody el hel
        · exact List.mem_singleton.1 hel ▸ hx
      cases hturn with
      | hash => exact ⟨hnext _ (hinner _ hel), hpriv⟩
      | tx => exact ⟨hnext _ fun c hc => hinner _ hel c hc, hpriv⟩
      | @bundle inner _ _ _ r _ hr _ =>
        refine ⟨hnext _ ?_, encodable_mergeBuilders inner.privacy hpriv⟩
        rintro c ⟨⟩
        exact ih _ hel inner rfl hr (hinner _ hel inner rfl)
      | empty => exact ⟨hnext _ nofun, hpriv⟩
    exact .node ⟨hself.validity, encodable_validatePrivacy hloop.2 hprivacy⟩ hloop.1

theorem everywhere_encodable_of {b b' : SendMevBundleArgs} (h : Everywhere Encodable b) (hbody : b'.body = b.body)
    (hvalidity : b'.validity = b.validity) (hprivacy : b'.privacy = b.privacy) : Everywhere Encodable b' := by
  obtain ⟨hself, hinner⟩ := everywhere_iff.1 h
  exact .node ⟨hvalidity ▸ hself.validity, hprivacy ▸ hself.privacy⟩ (hbody ▸ hinner)

variable {r : SendRequest} {bundle : SendMevBundleArgs}

theorem matched_encodable {b : SendMevBundleArgs} {fetched : Except Err SendMevBundleArgs}
    (h : matchBundle D b fetched = .ok bundle) (hb : Everywhere Encodable b)
    (hfetched : ∀ stored, fetched = .ok stored → Everywhere Encodable stored) : Everywhere Encodable bundle := by
  obtain ⟨_, tx, _, canRevert, revertMode, rest, stored, m, inclusion, hbody, hstored, -, -, -, rfl⟩ := matchBundle_ok h
  obtain ⟨hself, hinner⟩ := everywhere_iff.1 hb
  have hst := hfetched stored hstored
  -- the refund that the stored bundle asks for
  have hpercent : GoInt ((stored.privacy.bind (·.wantRefund)).getD refundPercent) := by
    cases hwant : stored.privacy.bind (·.wantRefund) with
    | none => exact ⟨by decide, by decide⟩
    | some n =>
      obtain ⟨p, hp, hn⟩ := Option.bind_eq_some_iff.1 hwant
      exact ((everywhere_iff.1 hst).1.privacy p hp).wantRefund n hn
  refine .node ⟨⟨?_, hself.validity.refundConfig⟩, ?_⟩ ?_
  · intro c hc
    rw [List.mem_singleton.1 hc]
    exact ⟨goInt_zero, hpercent⟩
  · intro p hp
    simp only [mergePrivacyBuilders, mergePrivacyBuildersInner_eq] at hp
    obtain ⟨q, hq, rfl⟩ := Option.mem_map.1 hp
    exact ⟨(hself.privacy q hq).hints, (hself.privacy q hq).wantRefund⟩
  · intro el hel c hc
    rcases List.mem_cons.1 hel with rfl | hel
    · cases hc
      exact hst
    · exact hinner el (hbody ▸ List.mem_cons_of_mem _ hel) c hc

/-- What `SendBundle` schedules can be said in JSON, if what it was sent and what it fetched can. -/
theorem handed_encodable (h : Handed D r bundle) (hb : Everywhere Encodable r.bundle)
    (hfetched : ∀ stored, r.fetched = .ok stored → Everywhere Encodable stored) : Everywhere Encodable bundle := by
  obtain ⟨v, b, s, s', hv, hmatched, hreplace⟩ := h
  obtain ⟨currentBlock, hvalid⟩ := received_ok hv
  have hstamp : Everywhere Encodable (stamp r v) := everywhere_encodable_of (validated_encodable _ hvalid hb) rfl rfl rfl
  have hb : Everywhere Encodable b := by
    unfold matched at hmatched
    split at hmatched
    · exact matched_encodable hmatched hstamp hfetched
    · cases hmatched
      exact hstamp
  rcases replace_ok hreplace with ⟨-, rfl, -⟩ | ⟨-, -, rfl, -⟩
  · exact hb
  · exact everywhere_encodable_of hb rfl rfl rfl

/-! ## What the worker reads -/

/-- The call of `Push` for a bundle of `SendBundle` that came in as JSON, and in which bundles are
not nested too deeply for its own JSON to be parsed. -/
structure Sent (D : Deps) (call : Queue.PushCall) (bundle : SendMevBundleArgs) : Prop where
  scheduled : ∃ highPriority timestamp, call = scheduleBundleSimulation bundleJson bundle highPriority timestamp
  handed : ∃ r, Handed D r bundle ∧ (∃ j, unmarshalBundle j = some r.bundle) ∧
    ∀ stored, r.fetched = .ok stored → ∃ j, unmarshalBundle j = some stored
  levels : Within maxBundleLevels bundle

theorem Sent.read {call : Queue.PushCall} (h : Sent D call bundle) : bundleJson.unmarshal call.data = .ok bundle := by
  obtain ⟨highPriority, timestamp, rfl⟩ := h.scheduled
  obtain ⟨r, hr, ⟨j, hj⟩, hfetched⟩ := h.handed
  refine unmarshal_marshal h.levels (handed_encodable hr ((decoded_readable 10000).1 j _ hj).2 fun stored hstored => ?_)
  obtain ⟨j', hj'⟩ := hfetched stored hstored
  exact ((decoded_readable 10000).1 j' stored hj').2

/-- Whatever the queue gives to a worker, in any run, the worker decodes to a
bundle that a call scheduled, exactly as that call handed it over. -/
theorem worker_reads_scheduled {cfg : Queue.RedisQueueConfig} {block : UInt64} {nWorkers : Nat}
    {tr : List (Queue.State × Queue.Action)} {s : Queue.State} (hrun : Run (Queue.step cfg) (.start block nWorkers) tr s)
    (hpushes : ∀ p ∈ s.pushes, ∃ bundle, Sent D p.call bundle) {a : Queue.PackArgs} {currentBlock : UInt64}
    {info : Queue.QueueItemInfo} (hinvoked : .invoked a currentBlock info ∈ s.events) :
    ∃ p ∈ s.pushes, ∃ bundle, Sent D p.call bundle ∧ p.pc = .returned none ∧
      bundleJson.unmarshal a.data = .ok bundle := by
  obtain ⟨-, c, hc, hkey, -⟩ := Queue.invoked_pushed hrun hinvoked
  obtain ⟨q, hq, hpc, rfl⟩ := Queue.mem_accepted.1 hc
  obtain ⟨bundle, hsent⟩ := hpushes q hq
  have hdata : q.call.data = a.data := congrArg Queue.Key.data hkey
  exact ⟨q, hq, bundle, hsent, hpc, hdata ▸ hsent.read⟩

theorem storedBy_sent : Sent pairDeps (callForTwo (bundleJson.marshal (storedBy flatRequest))) (storedBy flatRequest) where
  scheduled := ⟨false, 0, storedBy_scheduled⟩
  handed := by
    refine ⟨flatRequest, flatRequest_handed, ⟨encodeBundle flatRequest.bundle, ?_⟩, nofun⟩
    have hreadable : Readable 1 flatRequest.bundle :=
      flat_readable rfl (by rintro p ⟨⟩; exact ⟨rfl, nofun⟩) (by decide)
    exact restores_bundle (hreadable.1.mono (by decide)) hreadable.2 _ (.refl _)
  levels := storedBy_readable.1.mono (by decide)

/-- The bundle of one transaction gets to the worker as the text that Go writes for it. -/
theorem worker_reads_scheduled_flat :
    ∃ tr s a info bundle, Run (Queue.step Queue.smallConfig) (.start 1 1) tr s ∧ .invoked a 1 info ∈ s.events ∧
      a.data = bundleJson.marshal (storedBy flatRequest) ∧ bundleJson.unmarshal a.data = .ok bundle := by
  obtain ⟨tr, s, a, info, hrun, hpushes, hinvoked, hdata, -⟩ :=
    callForTwo_invoked (bundleJson.marshal (storedBy flatRequest))
  have hsent : ∀ p ∈ s.pushes, ∃ bundle, Sent pairDeps p.call bundle := by
    rw [hpushes]
    exact List.forall_mem_singleton.2 ⟨_, storedBy_sent⟩
  obtain ⟨-, -, bundle, -, -, hread⟩ := worker_reads_scheduled hrun hsent hinvoked
  exact ⟨tr, s, a, info, bundle, hrun, hinvoked, hdata, hread⟩

end MevShare
