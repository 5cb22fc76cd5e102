import MevShare.Api
/-!
# What a successful `SendBundle` stands for

The caller of `SendBundle` may take a success as: this bundle, or the same
bundle with an inclusion that ends no earlier, is with the scheduler. The known
bundles are meant to keep that true for a resubmission, but a bundle is
remembered before the steps that can still fail. `Backed` is the promise, and it
holds for every call that is not answered from an entry which a failed call has
left (`accepted_backed`).
-/
open Lib

namespace MevShare

inductive ApiAction where
  | send (r : SendRequest)
  /-- the LRU cache drops an entry -/
  | evict (h : Hash)

def apiStep (D : Deps) (s : Api) : ApiAction → Option Api
  | .send r => some (sendBundle D s r).2
  | .evict h => some { s with knownBundleCache := fun h' => if h' = h then none else s.knownBundleCache h' }

/-- Nothing is cached yet and nothing scheduled; Redis may hold nonces. -/
def Api.start (nonces : ReplacementKey → UInt64) : Api := ⟨fun _ => none, nonces, []⟩

/-- The scheduler got a bundle of this hash that is valid at least until this block. -/
def Backed (s : Api) (h : Hash) (maxBlock : UInt64) : Prop :=
  ∃ e ∈ s.scheduled, e.bundle.metadata.map (·.bundleHash) = some h ∧ maxBlock ≤ e.validatedMaxBlock

/-- The call gets past the validation and the cache, and remembers its bundle under this hash. -/
def Remembers (D : Deps) (h : Hash) (s : Api) : ApiAction → Prop
  | .send r => ∃ v, received D r = .ok v ∧ v.hash = h ∧ alreadyKnown (s.knownBundleCache h) v.bundle = false
  | .evict _ => False

def Fails (D : Deps) (s : Api) : ApiAction → Prop
  | .send r => ∃ e, (sendBundle D s r).1 = .error e
  | .evict _ => False

/-- The last call of the trace that remembered a bundle under this hash failed after that. -/
inductive LeftByFailed (D : Deps) (h : Hash) : List (Api × ApiAction) → Prop
  | failed {tr s a} : Remembers D h s a → Fails D s a → LeftByFailed D h (tr ++ [(s, a)])
  | later {tr s a} : ¬Remembers D h s a → LeftByFailed D h tr → LeftByFailed D h (tr ++ [(s, a)])

variable {D : Deps}

/-! ## One call -/

/-- A call that gets past the cache is remembered, and scheduled unless it fails. -/
theorem sendBundle_past {s : Api} {r : SendRequest} {v : Validated} (hv : received D r = .ok v)
    (hk : alreadyKnown (s.knownBundleCache v.hash) v.bundle = false) :
    (sendBundle D s r).2.knownBundleCache = (s.remember v).knownBundleCache ∧
      (∀ e ∈ s.scheduled, e ∈ (sendBundle D s r).2.scheduled) ∧
      ((∃ e, (sendBundle D s r).1 = .error e) ∨
        (sendBundle D s r).1 = .ok v.hash ∧ Backed (sendBundle D s r).2 v.hash v.bundle.inclusion.maxBlock) := by
  simp only [sendBundle, hv, hk, Bool.false_eq_true, ↓reduceIte]
  cases hb : matched D r v with
  | error e => exact ⟨rfl, fun _ he => he, .inl ⟨e, rfl⟩⟩
  | ok b =>
    obtain ⟨m, hm, hhash, -⟩ := matched_metadata hv hb
    dsimp only
    cases hreplace : (s.remember v).replace r b with
    | error e => exact ⟨rfl, fun _ he => he, .inl ⟨e, rfl⟩⟩
    | ok p =>
      obtain ⟨b', s'⟩ := p
      -- the nonce leaves the hash, the cache and the schedule alone
      have hkept : b'.metadata.map (·.bundleHash) = some v.hash ∧
          s'.knownBundleCache = (s.remember v).knownBundleCache ∧ s'.scheduled = s.scheduled := by
        rcases replace_ok hreplace with ⟨-, rfl, rfl⟩ | ⟨-, -, rfl, rfl⟩
        · exact ⟨by simp [hm, hhash], rfl, rfl⟩
        · exact ⟨by simp [hm, hhash], rfl, rfl⟩
      obtain ⟨hhash', hcache, hscheduled⟩ := hkept
      dsimp only [Api.schedule]
      split
      · exact ⟨hcache, fun e he => hscheduled ▸ he, .inl ⟨_, rfl⟩⟩
      · refine ⟨hcache, fun e he => List.mem_append_left _ (hscheduled ▸ he), .inr ⟨rfl, ?_⟩⟩
        exact ⟨_, List.mem_append_right _ (List.mem_singleton.2 rfl), hhash', UInt64.le_refl _⟩

/-- A call that the validation turns down or the cache answers changes nothing. -/
theorem sendBundle_unchanged {s : Api} {r : SendRequest}
    (h : ∀ v, received D r = .ok v → alreadyKnown (s.knownBundleCache v.hash) v.bundle = true) :
    (sendBundle D s r).2 = s ∧ ∀ v, received D r = .ok v → (sendBundle D s r).1 = .ok v.hash := by
  unfold sendBundle
  cases hv : received D r with
  | error e => simp
  | ok v => simp [h v hv]

theorem alreadyKnown_iff {cached : Option SendMevBundleArgs} {bundle : SendMevBundleArgs} :
    alreadyKnown cached bundle = true ↔ ∃ old, cached = some old ∧ bundle.inclusion.maxBlock ≤ old.inclusion.maxBlock := by
  cases cached with
  | none => simp [alreadyKnown]
  | some old => simp [alreadyKnown, newerInclusion]

theorem Backed.mono {s s' : Api} {h : Hash} {n n' : UInt64} (hb : Backed s h n) (hn : n' ≤ n)
    (hs : ∀ e ∈ s.scheduled, e ∈ s'.scheduled) : Backed s' h n' := by
  obtain ⟨e, he, hh, hmax⟩ := hb
  exact ⟨e, hs e he, hh, UInt64.le_trans hn hmax⟩

/-! ## Runs -/

/-- A remembered bundle is with the scheduler, unless the call that remembered it failed. -/
def CacheBacked (D : Deps) (tr : List (Api × ApiAction)) (s : Api) : Prop :=
  ∀ h b, s.knownBundleCache h = some b → LeftByFailed D h tr ∨ Backed s h b.inclusion.maxBlock

/-- An entry that a step does not write keeps its backing. -/
theorem CacheBacked.kept {tr : List (Api × ApiAction)} {s s' : Api} {a : ApiAction} {h : Hash} {b : SendMevBundleArgs}
    (hs : CacheBacked D tr s) (hb : s.knownBundleCache h = some b) (hnot : ¬Remembers D h s a)
    (hscheduled : ∀ e ∈ s.scheduled, e ∈ s'.scheduled) :
    LeftByFailed D h (tr ++ [(s, a)]) ∨ Backed s' h b.inclusion.maxBlock :=
  (hs h b hb).imp (.later hnot) fun hbacked => hbacked.mono (UInt64.le_refl _) hscheduled

theorem cacheBacked_step {tr : List (Api × ApiAction)} {s s' : Api} {a : ApiAction} (hs : CacheBacked D tr s)
    (hstep : apiStep D s a = some s') : CacheBacked D (tr ++ [(s, a)]) s' := by
  intro h b hb
  cases a with
  | evict g =>
    cases hstep
    simp only at hb
    split at hb
    · cases hb
    · exact hs.kept hb id fun e he => he
  | send r =>
    cases hstep
    by_cases hpast : ∃ v, received D r = .ok v ∧ alreadyKnown (s.knownBundleCache v.hash) v.bundle = false
    · obtain ⟨v, hv, hk⟩ := hpast
      obtain ⟨hcache, hscheduled, houtcome⟩ := sendBundle_past hv hk
      rw [hcache] at hb
      simp only [Api.remember] at hb
      split at hb
      · rename_i hh
        subst hh
        cases hb
        rcases houtcome with hfail | ⟨-, hbacked⟩
        · exact .inl (.failed ⟨v, hv, rfl, hk⟩ hfail)
        · exact .inr hbacked
      · rename_i hne
        refine hs.kept hb ?_ hscheduled
        rintro ⟨v', hv', rfl, -⟩
        cases hv.symm.trans hv'
        exact hne rfl
    · have hsame := (sendBundle_unchanged (s := s) (r := r) fun v hv => by
        by_contra hk
        exact hpast ⟨v, hv, by simpa using hk⟩).1
      rw [hsame] at hb
      refine hs.kept hb ?_ fun e he => hsame.symm ▸ he
      rintro ⟨v, hv, rfl, hk⟩
      exact hpast ⟨v, hv, hk⟩

/-- A call that remembers its bundle and succeeds makes good for those before it. -/
theorem not_leftByFailed {tr : List (Api × ApiAction)} {s : Api} {a : ApiAction} {h : Hash} (ha : Remembers D h s a)
    (hok : ¬Fails D s a) : ¬LeftByFailed D h (tr ++ [(s, a)]) := by
  intro hleft
  generalize htr : tr ++ [(s, a)] = l at hleft
  cases hleft with
  | failed _ hfails =>
    cases (List.append_inj' htr rfl).2
    exact hok hfails
  | later hnot _ =>
    cases (List.append_inj' htr rfl).2
    exact hnot ha

theorem cacheBacked_run {nonces : ReplacementKey → UInt64} {tr : List (Api × ApiAction)} {s : Api}
    (hrun : Run (apiStep D) (.start nonces) tr s) : CacheBacked D tr s := by
  induction hrun with
  | nil =>
    intro h b hb
    cases hb
  | snoc _ hstep ih => exact cacheBacked_step ih hstep

/-- In every run: a call that returns success with hash `h`, and is not answered
from an entry that a failed call has left, leaves a bundle of hash `h` with the
scheduler whose validated last block is not before that of the submission. -/
theorem accepted_backed {nonces : ReplacementKey → UInt64} {tr pre post : List (Api × ApiAction)} {s s₁ : Api}
    {r : SendRequest} (hrun : Run (apiStep D) (.start nonces) tr s) (htr : tr = pre ++ (s₁, .send r) :: post)
    {v : Validated} {h : Hash} (hv : received D r = .ok v) (hret : (sendBundle D s₁ r).1 = .ok h)
    (hentry : alreadyKnown (s₁.knownBundleCache h) v.bundle = true → ¬LeftByFailed D h pre) :
    Backed (sendBundle D s₁ r).2 h v.bundle.inclusion.maxBlock := by
  cases hk : alreadyKnown (s₁.knownBundleCache v.hash) v.bundle with
  | false =>
    obtain ⟨-, -, ⟨e, hfail⟩ | ⟨hok, hbacked⟩⟩ := sendBundle_past hv hk
    · rw [hfail] at hret
      cases hret
    · rw [hok] at hret
      cases hret
      exact hbacked
  | true =>
    obtain ⟨hsame, hres⟩ := sendBundle_unchanged (s := s₁) (r := r) fun v' hv' => by
      rw [hv] at hv'
      cases hv'
      exact hk
    rw [hres v hv] at hret
    cases hret
    obtain ⟨old, hold, hle⟩ := alreadyKnown_iff.1 hk
    rw [hsame]
    rcases cacheBacked_run (hrun.fired pre s₁ _ post htr).1 _ old hold with hleft | hbacked
    · exact absurd hleft (hentry hk)
    · exact hbacked.mono hle fun e he => he

/-- A request for a transaction, valid until the given block, with the given outcome of the scheduling. -/
def txRequest (maxBlock : UInt64) (scheduleFails : Bool) : SendRequest where
  bundle := ⟨"v0.1", "", ⟨2, maxBlock⟩, [⟨none, some sampleTx, none, false, ""⟩], ⟨[], []⟩, none, none⟩
  signer := 7
  origin := ""
  highPriority := false
  receivedAt := 0
  blockNumber := .ok 1
  fetched := .error .backrunNotFound
  incrFails := false
  scheduleFails

/-- The scheduler has refused the transaction, and then taken it with a later block. -/
def refusedOnce : Api := (sendBundle sampleDeps (.start fun _ => 0) (txRequest 3 true)).2

def takenLater : Api := (sendBundle sampleDeps refusedOnce (txRequest 4 false)).2

/-- The first call fails; the third is answered from the entry of the second, which did not. -/
theorem accepted_backed_resubmission :
    ∃ tr s v, Run (apiStep sampleDeps) (.start fun _ => 0) tr s ∧ (takenLater, .send (txRequest 3 true)) ∈ tr ∧
      received sampleDeps (txRequest 3 true) = .ok v ∧
      alreadyKnown (takenLater.knownBundleCache sampleTransaction.hash) v.bundle = true ∧
      Backed (sendBundle sampleDeps takenLater (txRequest 3 true)).2 sampleTransaction.hash
        v.bundle.inclusion.maxBlock := by
  have hrun : Run (apiStep sampleDeps) (.start fun _ => 0)
      ([] ++ [(.start fun _ => 0, .send (txRequest 3 true))] ++ [(refusedOnce, .send (txRequest 4 false))] ++
        [(takenLater, .send (txRequest 3 true))]) _ :=
    .snoc (.snoc (.snoc .nil rfl) rfl) rfl
  have hremembers : Remembers sampleDeps sampleTransaction.hash refusedOnce (.send (txRequest 4 false)) :=
    ⟨_, rfl, rfl, rfl⟩
  have hok : ¬Fails sampleDeps refusedOnce (.send (txRequest 4 false)) := by
    rintro ⟨e, he⟩
    cases he
  exact ⟨_, _, _, hrun, List.mem_append_right _ List.mem_cons_self, rfl, rfl,
    accepted_backed hrun rfl rfl rfl fun _ => not_leftByFailed hremembers hok⟩

/-- The scheduler refuses a bundle; sent again, it is answered with success and still not scheduled. -/
theorem refused_bundle_accepted :
    ∃ tr s s₁ v, Run (apiStep sampleDeps) (.start fun _ => 0) tr s ∧ (s₁, .send (txRequest 3 false)) ∈ tr ∧
      received sampleDeps (txRequest 3 false) = .ok v ∧
      (sendBundle sampleDeps s₁ (txRequest 3 false)).1 = .ok sampleTransaction.hash ∧
      ¬Backed (sendBundle sampleDeps s₁ (txRequest 3 false)).2 sampleTransaction.hash v.bundle.inclusion.maxBlock := by
  have hrun : Run (apiStep sampleDeps) (.start fun _ => 0)
      ([] ++ [(_, .send (txRequest 3 true))] ++ [(_, .send (txRequest 3 false))]) _ := .snoc (.snoc .nil rfl) rfl
  refine ⟨_, _, _, _, hrun, List.mem_cons_of_mem _ List.mem_cons_self, rfl, rfl, ?_⟩
  rintro ⟨e, he, -⟩
  cases he

end MevShare
