import MevShare.MergedBuilders
/-!
# Who sees a bundle

A bundle goes to an external builder only if everybody whose bundle is in the
tree named that builder. `MergePrivacyBuilders` computes the common names by
walking the tree (`mem_mergedBuilders`), the loop of `SendBundle` looks them up
without contacting a name twice (`externalSpawns_nodup`), and what it sends has
been cleaned at every level (`cleanBundle_clean`).
-/
open Lib

namespace MevShare

/-- The bundle's own privacy record names the builder, in upper or lower case. -/
def Lists (D : Deps) (name : String) (b : SendMevBundleArgs) : Prop :=
  ∃ v ∈ privacyBuilders b.privacy, D.toLower v = D.toLower name

/-- Nothing in this bundle says who sent it or what they agreed to share. -/
def Clean (b : SendMevBundleArgs) : Prop := b.privacy = none ∧ b.metadata = none

/-- A call that gives away neither privacy settings nor metadata and asks for one block only. -/
def Request.Discreet (targetBlock : UInt64) : Request → Prop
  | .mevSendBundle args => Everywhere Clean args ∧ args.inclusion = ⟨targetBlock, targetBlock⟩
  | .ethSendBundle args => args.blockNumber = targetBlock

variable {D : Deps}

/-! ## The cleaned bundle -/

theorem cleanBundle_eq (b : SendMevBundleArgs) :
    cleanBundle b = { b with body := cleanElements b.body, privacy := none, metadata := none } := by
  cases b
  rfl

theorem cleanElements_eq (l : List MevBundleBody) :
    cleanElements l = l.map fun el => { el with bundle := el.bundle.map cleanBundle } := by
  induction l with
  | nil => rfl
  | cons el l ih =>
    obtain ⟨_, _, bundle, _, _⟩ := el
    cases bundle <;> simp [cleanElements, ih]

theorem cleanBundle_clean (b : SendMevBundleArgs) : Everywhere Clean (cleanBundle b) := by
  induction b using SendMevBundleArgs.tree_induction with
  | h b ih =>
    rw [cleanBundle_eq]
    refine .node ⟨rfl, rfl⟩ fun el hel c hc => ?_
    dsimp only at hel
    rw [cleanElements_eq] at hel
    obtain ⟨el', hel', rfl⟩ := List.mem_map.1 hel
    obtain ⟨c', hc', rfl⟩ := Option.map_eq_some_iff.1 hc
    exact ih el' hel' c' hc'

/-- What the two loops look at and send, in terms of the bundle. -/
theorem prepare_fields {bundle : SendMevBundleArgs} {targetBlock : UInt64} {shouldCancel : Bool} {p : Prepared}
    (h : prepare D bundle targetBlock shouldCancel = .ok p) :
    ∃ m, bundle.metadata = some m ∧ p.signingAddress = m.signer ∧
      p.builders = privacyBuilders (mergedPrivacy D bundle) ∧
      p.isFirstBlock = decide (bundle.inclusion.blockNumber = targetBlock) ∧
      p.isReplaceable = decide (bundle.replacementUUID ≠ "") ∧
      p.args = cleanBundle { bundle with inclusion := ⟨targetBlock, targetBlock⟩ } ∧
      p.iArgs = { p.args with
        metadata := some { MevBundleMetadata.empty with
          signer := m.signer, replacementNonce := m.replacementNonce, cancelled := shouldCancel } } := by
  unfold prepare at h
  cases hm : bundle.metadata with
  | none => simp [hm, throw_eq_error] at h
  | some m =>
    simp only [hm, pure_ok] at h
    subst h
    exact ⟨m, rfl, rfl, rfl, rfl, rfl, rfl, rfl⟩

/-- With metadata there is no panic. -/
theorem prepare_of_metadata {bundle : SendMevBundleArgs} {m : MevBundleMetadata} (hm : bundle.metadata = some m)
    (targetBlock : UInt64) (shouldCancel : Bool) : ∃ p, prepare D bundle targetBlock shouldCancel = .ok p := by
  rw [prepare, hm]
  exact ⟨_, rfl⟩

theorem prepare_ok (hlow : ∀ s, D.toLower (D.toLower s) = D.toLower s) {bundle : SendMevBundleArgs} {targetBlock : UInt64}
    {shouldCancel : Bool} {p : Prepared} (h : prepare D bundle targetBlock shouldCancel = .ok p) :
    Everywhere Clean p.args ∧ p.args.inclusion = ⟨targetBlock, targetBlock⟩ ∧
      ∀ x ∈ p.builders, Everywhere (fun c => Occurs D x (privacyBuilders c.privacy)) bundle := by
  obtain ⟨m, -, -, hbuilders, -, -, hargs, -⟩ := prepare_fields h
  rw [hargs, hbuilders]
  refine ⟨cleanBundle_clean _, rfl, fun x hx => ?_⟩
  -- without privacy no builder is named; with it the names are the merged ones
  cases hp : bundle.privacy with
  | none => simp [mergedPrivacy, hp, privacyBuilders] at hx
  | some q =>
    simp only [mergedPrivacy, hp, mergePrivacyBuilders_some hp] at hx
    exact (mem_mergedBuilders hlow hp).1 hx

/-! ## The loop over the names -/

/-- The map of the external builders is keyed by their names. -/
def BuildersBackend.KeyedByName (b : BuildersBackend) : Prop :=
  ∀ k x, b.externalBuilders k = some x → x.name = k

theorem loadBuilderConfig_keyed {config : BuildersConfig} {b : BuildersBackend} (h : loadBuilderConfig D config = .ok b) :
    b.KeyedByName := by
  simp only [loadBuilderConfig, bind_ok, pure_ok] at h
  obtain ⟨enabled, -, rfl⟩ := h
  intro k x hx
  simpa using List.find?_some hx

/-- The goroutine that is started for a name in lower case. -/
def externalSpawn (b : BuildersBackend) (p : Prepared) (target : String) : Option Spawn :=
  if target = "default" || target = "flashbots" then none
  else
    match b.externalBuilders target with
    | none => none
    | some builder =>
      if p.isReplaceable && builder.api ≠ .mevShareBeta1Replacement then none
      else if builder.delay && p.isFirstBlock then some ⟨builder, none, false⟩
      else some ⟨builder, some p.args, true⟩

theorem externalSpawn_some {b : BuildersBackend} {p : Prepared} {target : String} {s : Spawn}
    (h : externalSpawn b p target = some s) :
    b.externalBuilders target = some s.builder ∧ ∀ args, s.contact = some args → args = p.args := by
  unfold externalSpawn at h
  cases hx : b.externalBuilders target with
  | none => simp [hx] at h
  | some builder =>
    simp only [hx] at h
    split_ifs at h <;> cases h <;> simp

/-- One turn of the loop: the name was used before or has no goroutine, or its
goroutine starts and the name is used from now on. -/
theorem externalSpawns_cons (b : BuildersBackend) (p : Prepared) (t : String) (rest used : List String) :
    (∃ used', used ⊆ used' ∧ (∀ u ∈ used', u ∈ used ∨ u = D.toLower t) ∧
        (D.toLower t ∈ used ∨ externalSpawn b p (D.toLower t) = none) ∧
        externalSpawns D b p (t :: rest) used = externalSpawns D b p rest used') ∨
      ∃ s : Spawn, D.toLower t ∉ used ∧ externalSpawn b p (D.toLower t) = some s ∧
        externalSpawns D b p (t :: rest) used = s :: externalSpawns D b p rest (used ++ [D.toLower t]) := by
  have hsub : used ⊆ used ++ [D.toLower t] := List.subset_append_left _ _
  have hmem : ∀ u ∈ used ++ [D.toLower t], u ∈ used ∨ u = D.toLower t := by simp
  by_cases hused : D.toLower t ∈ used
  · exact .inl ⟨used, List.Subset.refl _, fun _ => .inl, .inl hused, by simp [externalSpawns, hused]⟩
  have hcontains : used.contains (D.toLower t) = false := by simpa using hused
  simp only [externalSpawns, externalSpawn, hcontains, Bool.false_eq_true, ↓reduceIte]
  split
  · exact .inl ⟨used, List.Subset.refl _, fun _ => .inl, .inr rfl, rfl⟩
  cases b.externalBuilders (D.toLower t) with
  | none => exact .inl ⟨_, hsub, hmem, .inr rfl, rfl⟩
  | some builder =>
    dsimp only
    split
    · exact .inl ⟨_, hsub, hmem, .inr rfl, rfl⟩
    split
    · exact .inr ⟨⟨builder, none, false⟩, hused, rfl, rfl⟩
    · exact .inr ⟨⟨builder, some p.args, true⟩, hused, rfl, rfl⟩

/-- The goroutines of the loop are those of the names that were not used before. -/
theorem mem_externalSpawns {b : BuildersBackend} {p : Prepared} {l : List String} {s : Spawn} :
    ∀ {used : List String}, s ∈ externalSpawns D b p l used ↔
      ∃ t ∈ l, D.toLower t ∉ used ∧ externalSpawn b p (D.toLower t) = some s := by
  induction l with
  | nil => simp [externalSpawns]
  | cons t l ih =>
    intro used
    rcases externalSpawns_cons b p t l used with ⟨used', hsub, hmem, hskip, heq⟩ | ⟨s', hfresh, hs', heq⟩
    · rw [heq, ih]
      constructor
      · rintro ⟨u, hu, hfresh, hs⟩
        exact ⟨u, List.mem_cons_of_mem _ hu, fun h => hfresh (hsub h), hs⟩
      · rintro ⟨u, hu, hfresh, hs⟩
        -- the name that was passed over has no goroutine, in any case
        have hne : D.toLower u ≠ D.toLower t := by
          intro hut
          rw [hut] at hfresh hs
          rcases hskip with hskip | hskip
          · exact hfresh hskip
          · rw [hskip] at hs
            cases hs
        rcases List.mem_cons.1 hu with rfl | hu
        · exact absurd rfl hne
        · exact ⟨u, hu, fun h => (hmem _ h).elim hfresh hne, hs⟩
    · rw [heq, List.mem_cons, ih]
      constructor
      · rintro (rfl | ⟨u, hu, hfresh', hs⟩)
        · exact ⟨t, List.mem_cons_self, hfresh, hs'⟩
        · exact ⟨u, List.mem_cons_of_mem _ hu, fun h => hfresh' (List.mem_append_left _ h), hs⟩
      · rintro ⟨u, hu, hfresh', hs⟩
        by_cases hut : D.toLower u = D.toLower t
        · rw [hut, hs'] at hs
          exact .inl (Option.some.inj hs).symm
        · rcases List.mem_cons.1 hu with rfl | hu
          · exact absurd rfl hut
          · exact .inr ⟨u, hu, by simp [hfresh', hut], hs⟩

theorem externalSpawns_nodup {b : BuildersBackend} (hb : b.KeyedByName) (p : Prepared) (l : List String) :
    ∀ used : List String, ((externalSpawns D b p l used).map (·.builder.name)).Nodup := by
  induction l with
  | nil => intro used; exact List.nodup_nil
  | cons t l ih =>
    intro used
    rcases externalSpawns_cons b p t l used with ⟨used', -, -, -, heq⟩ | ⟨s, -, hs, heq⟩
    · rw [heq]
      exact ih used'
    · rw [heq, List.map_cons, List.nodup_cons]
      refine ⟨fun hmem => ?_, ih _⟩
      obtain ⟨s', hs', hname⟩ := List.mem_map.1 hmem
      obtain ⟨u, -, hfresh, hu⟩ := mem_externalSpawns.1 hs'
      apply hfresh
      rw [← hb _ _ (externalSpawn_some hu).1, hname, hb _ _ (externalSpawn_some hs).1]
      simp

/-! ## One call of `SendBundle` -/

/-- The external builders that a call of `SendBundle` contacts, with what it
passes on; a call that panics has contacted nobody. -/
def BuildersBackend.externalContacts (D : Deps) (b : BuildersBackend) (bundle : SendMevBundleArgs)
    (targetBlock : UInt64) (shouldCancel : Bool) : List (JSONRPCBuilderBackend × SendMevBundleArgs) :=
  match b.sendBundle D bundle targetBlock shouldCancel with
  | .ok d => contacts d.external
  | .error _ => []

theorem sendBundle_discreet {x : JSONRPCBuilderBackend} {args : SendMevBundleArgs} {targetBlock : UInt64} {r : Request}
    (hclean : Everywhere Clean args) (hinc : args.inclusion = ⟨targetBlock, targetBlock⟩)
    (h : x.sendBundle args = .ok r) : r.Discreet targetBlock := by
  unfold JSONRPCBuilderBackend.sendBundle at h
  split at h
  · simp only [bind_ok, pure_ok, convertBundleToRefundRecipient] at h
    obtain ⟨_, ⟨⟨txs, canRevert⟩, -, ⟨percent, address⟩, -, rfl⟩, rfl⟩ := h
    simp [Request.Discreet, hinc]
  · cases h
    exact ⟨hclean, hinc⟩
  · cases h
    exact ⟨hclean, hinc⟩

theorem mem_contacts {l : List Spawn} {x : JSONRPCBuilderBackend} {args : SendMevBundleArgs} :
    (x, args) ∈ contacts l ↔ ∃ s ∈ l, s.builder = x ∧ s.contact = some args := by
  simp only [contacts, List.mem_filterMap, Option.map_eq_some_iff, Prod.mk.injEq]
  constructor
  · rintro ⟨s, hs, _, hc, rfl, rfl⟩
    exact ⟨s, hs, rfl, hc⟩
  · rintro ⟨s, hs, rfl, hc⟩
    exact ⟨s, hs, args, hc, rfl, rfl⟩

theorem map_name_contacts_sublist (l : List Spawn) :
    ((contacts l).map (·.1.name)).Sublist (l.map (·.builder.name)) := by
  induction l with
  | nil => exact .slnil
  | cons s l ih =>
    cases hs : s.contact with
    | none => simpa [contacts, hs] using ih.cons _
    | some args => simpa [contacts, hs] using ih.cons_cons s.builder.name

/-- A call of `SendBundle` contacts no external builder twice, and only builders
that every bundle of the tree names; what such a builder is sent has no privacy
or metadata at any level and asks for the target block only. -/
theorem external_contacts_consented (hlow : ∀ s, D.toLower (D.toLower s) = D.toLower s) {config : BuildersConfig}
    {b : BuildersBackend} (hload : loadBuilderConfig D config = .ok b) (bundle : SendMevBundleArgs)
    (targetBlock : UInt64) (shouldCancel : Bool) :
    ((b.externalContacts D bundle targetBlock shouldCancel).map (·.1.name)).Nodup ∧
      ∀ x args, (x, args) ∈ b.externalContacts D bundle targetBlock shouldCancel →
        Everywhere (Lists D x.name) bundle ∧ ∀ r, x.sendBundle args = .ok r → r.Discreet targetBlock := by
  unfold BuildersBackend.externalContacts BuildersBackend.sendBundle
  have hkey := loadBuilderConfig_keyed hload
  cases hp : prepare D bundle targetBlock shouldCancel with
  | error e => simp [bind, Except.bind]
  | ok p =>
    obtain ⟨hclean, hinc, hbuilders⟩ := prepare_ok hlow hp
    simp only [bind, Except.bind, pure, Except.pure]
    refine ⟨(externalSpawns_nodup hkey p _ _).sublist (map_name_contacts_sublist _), fun x args hx => ?_⟩
    obtain ⟨s, hs, rfl, hargs⟩ := mem_contacts.1 hx
    obtain ⟨t, ht, -, hspawn⟩ := mem_externalSpawns.1 hs
    obtain ⟨hb, hc⟩ := externalSpawn_some hspawn
    cases hc args hargs
    refine ⟨?_, fun r hr => sendBundle_discreet hclean hinc hr⟩
    refine (hbuilders t ht).mono fun c ⟨v, hv, hvt⟩ => ⟨v, hv, ?_⟩
    rw [hkey _ _ hb, ← hvt, hlow, hlow]

/-- Two builders of one name, in different case: the later one is the one that is known. -/
def twoBuilders : BuildersConfig :=
  ⟨[⟨"alpha", "http://old", "v0.1", false, false, false⟩, ⟨"Alpha", "http://new", "v0.1", false, false, false⟩], ""⟩

/-- A backrun of a private bundle; the two senders name the builder in different case. -/
def backrun : SendMevBundleArgs :=
  ⟨"v0.1", "", ⟨2, 4⟩,
    [⟨none, none, some ⟨"v0.1", "", ⟨2, 4⟩, [⟨none, some sampleTx, none, false, ""⟩], ⟨[], []⟩,
        some ⟨hintHash, ["alpha", "beta"], none⟩, some .empty⟩, false, ""⟩,
      ⟨none, some sampleTx, none, false, ""⟩],
    ⟨[], []⟩, some ⟨hintHash, ["ALPHA", "Alpha"], none⟩, some .empty⟩

theorem external_contacts_consented_backrun :
    ∃ b, loadBuilderConfig sampleDeps twoBuilders = .ok b ∧
      (b.externalContacts sampleDeps backrun 3 false).map (·.1.client) = ["http://new"] ∧
      Everywhere (Lists sampleDeps "alpha") backrun := by
  refine ⟨_, rfl, by decide, ?_⟩
  exact ((@external_contacts_consented sampleDeps sampleDeps_toLower_idem twoBuilders _ rfl backrun 3 false).2
    ⟨"alpha", "http://new", .mevShareBeta1, false⟩ _ (List.mem_singleton.2 rfl)).1

end MevShare
