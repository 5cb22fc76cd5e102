import MevShare.Lib.HashTree
import MevShare.Lib.Numbers
import MevShare.Validation
/-!
# What a bundle hash identifies

The hash of a bundle is its key in the cache of known bundles, in the database
and for cancellations. It is the digest of the tree of its references
(`hash_eq_digest`), where a bundle of one reference is that reference. So two
bundles with one hash have the same tree of hashes, unless Keccak collides; but
a hash that is still to be matched and a transaction look the same in it. Such a
hash is accepted only in front of a bundle, so the kinds can differ there only.
An element that carries nothing leaves no trace in the tree.
-/
open Lib

namespace MevShare

/-- What a hash in a body refers to. -/
inductive RefKind where
  | hash | tx
deriving DecidableEq, Repr

section Deps
variable (D : Deps)

mutual
/-- The references of a bundle, as a tree: hashes to be matched, transactions, and nested bundles. -/
def refTree : SendMevBundleArgs → HashTree (RefKind × Hash)
  | ⟨_, _, _, body, _, _, _⟩ => .wrap (bodyRefs body)

def bodyRefs : List MevBundleBody → List (HashTree (RefKind × Hash))
  | [] => []
  | el :: rest => elementRefs el ++ bodyRefs rest

/-- An element with several fields refers to what the first of them says. -/
def elementRefs : MevBundleBody → List (HashTree (RefKind × Hash))
  | ⟨some h, _, _, _, _⟩ => [.leaf (.hash, h)]
  | ⟨none, some tx, _, _, _⟩ =>
    match D.unmarshalBinary tx with
    | .ok decoded => [.leaf (.tx, decoded.hash)]
    | .error _ => []
  | ⟨none, none, some inner, _, _⟩ => [refTree inner]
  | ⟨none, none, none, _, _⟩ => []
end

/-- The references compared by their hashes alone. -/
def hashTree (b : SendMevBundleArgs) : HashTree Hash := (refTree D b).map Prod.snd

def keccakAll (hs : List Hash) : Hash := D.keccak256 (hs.flatMap hashBytes)

end Deps

variable {D : Deps} {currentBlock : UInt64} {level : Nat}

theorem refTree_eq (b : SendMevBundleArgs) : refTree D b = .wrap (bodyRefs D b.body) := by
  cases b
  rfl

theorem bodyRefs_append (l l' : List MevBundleBody) : bodyRefs D (l ++ l') = bodyRefs D l ++ bodyRefs D l' := by
  induction l with
  | nil => rfl
  | cons el l ih => rw [List.cons_append, bodyRefs, bodyRefs, ih, List.append_assoc]

theorem elementRefs_tx {tx : Bytes} {decoded : Transaction} {bundle : Option SendMevBundleArgs} {canRevert : Bool}
    {revertMode : String} (h : D.unmarshalBinary tx = .ok decoded) :
    elementRefs D ⟨none, some tx, bundle, canRevert, revertMode⟩ = [.leaf (.tx, decoded.hash)] := by
  change (match D.unmarshalBinary tx with
    | .ok decoded => [HashTree.leaf (RefKind.tx, decoded.hash)]
    | .error _ => []) = _
  rw [h]

/-! ## The hash is a digest -/

section Digest
variable (D)

/-- The digests of the references in a body. -/
def refDigests (ts : List (HashTree (RefKind × Hash))) : List Hash :=
  ts.map fun t => (t.map Prod.snd).digest (keccakAll D)

end Digest

theorem refDigests_append (ts ts' : List (HashTree (RefKind × Hash))) :
    refDigests D (ts ++ ts') = refDigests D ts ++ refDigests D ts' := List.map_append

theorem hashBundle_refDigests (ts : List (HashTree (RefKind × Hash))) :
    hashBundle D (refDigests D ts) = ((HashTree.wrap ts).map Prod.snd).digest (keccakAll D) := by
  have hcombine (hs : List Hash) : hashBundle D hs = HashTree.combine (keccakAll D) hs := by
    match hs with
    | [] => rfl
    | [h] => rfl
    | h :: g :: hs => rfl
  rw [hcombine, HashTree.map_wrap, HashTree.digest_wrap, List.map_map]
  rfl

theorem hash_eq_digest (b : SendMevBundleArgs) : ∀ {level : Nat} {r : Validated},
    validateBundleInner D currentBlock level b = .ok r → r.hash = (hashTree D b).digest (keccakAll D) := by
  induction b using SendMevBundleArgs.tree_induction with
  | h b ih =>
    intro level r h
    obtain ⟨_, st, -, -, -, hst, hf⟩ := validated_inv h
    obtain ⟨-, -, p, -, rfl⟩ := finishBundle_ok hf
    rw [hashTree, refTree_eq, ← hashBundle_refDigests]
    refine congrArg (hashBundle D) ?_
    -- the hashes collected so far are the digests of the elements that are done
    refine validateBody_ok (P := fun done st => st.bodyHashes = refDigests D (bodyRefs D done)) ?_ rfl hst
    rintro done el st st' hel hdone hturn
    rw [bodyRefs_append, refDigests_append, ← hdone, bodyRefs, bodyRefs, List.append_nil]
    cases hturn with
    | hash => rfl
    | tx hd _ => rw [elementRefs_tx hd]; rfl
    | @bundle inner _ _ _ rc _ hr _ => rw [ih _ hel inner rfl hr]; rfl
    | empty => exact (List.append_nil _).symm

/-! ## Bytes -/

theorem hashBytes_length (h : Hash) : (hashBytes h).length = 32 := by simp [hashBytes]

theorem hashBytes_injective {h h' : Hash} (heq : hashBytes h = hashBytes h') : h = h' := by
  refine BitVec.eq_of_toNat_eq (eq_of_bytes (n := 32) (by simpa using h.isLt) (by simpa using h'.isLt) fun k hk => ?_)
  have hbyte := List.map_inj_left.1 heq (31 - k) (List.mem_range.2 (by omega))
  rwa [show 31 - (31 - k) = k by omega] at hbyte

/-! ## The kinds of the references -/

theorem mem_tail_append {α : Type} {l l' : List α} {x : α} (h : x ∈ (l ++ l').tail) : x ∈ l.tail ∨ x ∈ l' := by
  cases l with
  | nil => exact .inr (List.mem_of_mem_tail h)
  | cons y l => exact List.mem_append.1 h

/-- A hash to be matched is the first reference of the bundle, and a bundle that
is not unmatched has none. -/
theorem kinds_of_ok (b : SendMevBundleArgs) : ∀ {level : Nat} {r : Validated},
    validateBundleInner D currentBlock level b = .ok r →
      (r.unmatched = false → ∀ x ∈ (refTree D b).leaves, x.1 = .tx) ∧ ∀ x ∈ (refTree D b).leaves.tail, x.1 = .tx := by
  induction b using SendMevBundleArgs.tree_induction with
  | h b ih =>
    intro level r h
    obtain ⟨_, st, -, -, -, hst, hf⟩ := validated_inv h
    obtain ⟨-, -, p, -, rfl⟩ := finishBundle_ok hf
    rw [refTree_eq, HashTree.leaves_wrap]
    refine validateBody_ok (P := fun done st =>
      (st.unmatched = false → ∀ x ∈ HashTree.leavesList (bodyRefs D done), x.1 = .tx) ∧
        ∀ x ∈ (HashTree.leavesList (bodyRefs D done)).tail, x.1 = .tx) ?_
        ⟨fun _ => List.forall_mem_nil _, List.forall_mem_nil _⟩ hst
    rintro done el st st' hel ⟨hall, htail⟩ hturn
    rw [bodyRefs_append, HashTree.leavesList_append, bodyRefs, bodyRefs, List.append_nil]
    -- an element whose references are transactions goes at the end
    have hsnoc (hel : ∀ x ∈ HashTree.leavesList (elementRefs D el), x.1 = .tx) :
        (st.unmatched = false → ∀ x ∈ HashTree.leavesList (bodyRefs D done) ++ HashTree.leavesList (elementRefs D el),
          x.1 = .tx) ∧
        ∀ x ∈ (HashTree.leavesList (bodyRefs D done) ++ HashTree.leavesList (elementRefs D el)).tail, x.1 = .tx :=
      ⟨fun hu x hx => (List.mem_append.1 hx).elim (hall hu x) (hel x),
        fun x hx => (mem_tail_append hx).elim (htail x) (hel x)⟩
    cases hturn with
    | hash _ hfirst _ =>
      rw [List.length_eq_zero_iff.1 hfirst]
      exact ⟨fun hmatched => Bool.noConfusion hmatched, List.forall_mem_nil _⟩
    | tx hd _ =>
      refine hsnoc ?_
      rw [elementRefs_tx hd]
      intro x hx
      rw [List.mem_singleton.1 hx]
    | @bundle inner _ _ _ rc _ hr hu =>
      refine hsnoc fun x hx => (ih _ hel inner rfl hr).1 hu x ?_
      rwa [elementRefs, HashTree.leavesList, HashTree.leavesList, List.append_nil] at hx
    | empty => exact hsnoc (List.forall_mem_nil _)

/-! ## Bundles with one hash -/

/-- Every element carries a hash, a transaction or a bundle. -/
def AllCarry (b : SendMevBundleArgs) : Prop := ∀ el ∈ b.body, el.hash.isSome ∨ el.tx.isSome ∨ el.bundle.isSome

instance (b : SendMevBundleArgs) : Decidable (AllCarry b) :=
  inferInstanceAs (Decidable (∀ el ∈ b.body, el.hash.isSome ∨ el.tx.isSome ∨ el.bundle.isSome))

/-- An element that carries something adds one reference: to a hash, or to a bundle that was accepted. -/
theorem refs_of_carry {b : SendMevBundleArgs} {r : Validated} (h : validateBundleInner D currentBlock level b = .ok r)
    (hcarry : AllCarry b) :
    bodyRefs D b.body ≠ [] ∧ ∀ t ∈ bodyRefs D b.body, (∃ x, t = .leaf x) ∨
      ∃ el ∈ b.body, ∃ c r, el.bundle = some c ∧ validateBundleInner D currentBlock (level + 1) c = .ok r ∧
        t = refTree D c := by
  obtain ⟨_, st, -, -, hsize, hst, -⟩ := validated_inv h
  suffices hrefs : (bodyRefs D b.body).length = b.body.length ∧ ∀ t ∈ bodyRefs D b.body, (∃ x, t = .leaf x) ∨
      ∃ el ∈ b.body, ∃ c r, el.bundle = some c ∧ validateBundleInner D currentBlock (level + 1) c = .ok r ∧
        t = refTree D c from
    ⟨fun hnil => hsize (by rw [cleanBody, ← hrefs.1, hnil, List.length_nil]), hrefs.2⟩
  refine validateBody_ok (P := fun done _ => (bodyRefs D done).length = done.length ∧
    ∀ t ∈ bodyRefs D done, (∃ x, t = .leaf x) ∨ ∃ el ∈ b.body, ∃ c r, el.bundle = some c ∧
      validateBundleInner D currentBlock (level + 1) c = .ok r ∧ t = refTree D c) ?_ ⟨rfl, nofun⟩ hst
  rintro done el st st' hel ⟨hlen, hrefs⟩ hturn
  obtain ⟨t, hone, ht⟩ : ∃ t, elementRefs D el = [t] ∧ ((∃ x, t = .leaf x) ∨ ∃ el ∈ b.body, ∃ c r,
      el.bundle = some c ∧ validateBundleInner D currentBlock (level + 1) c = .ok r ∧ t = refTree D c) := by
    cases hturn with
    | hash => exact ⟨_, rfl, .inl ⟨_, rfl⟩⟩
    | tx hd _ => exact ⟨_, elementRefs_tx hd, .inl ⟨_, rfl⟩⟩
    | @bundle inner _ _ _ rc _ hr _ => exact ⟨_, rfl, .inr ⟨_, hel, inner, rc, rfl, hr, rfl⟩⟩
    | empty => exact absurd (hcarry _ hel) (by simp)
  rw [bodyRefs_append, bodyRefs, bodyRefs, List.append_nil, hone, List.length_append, List.length_append, hlen]
  refine ⟨rfl, fun u hu => ?_⟩
  rcases List.mem_append.1 hu with hu | hu
  · exact hrefs u hu
  · exact List.mem_singleton.1 hu ▸ ht

/-- Only concatenations of two or more hashes are hashed. -/
theorem two_hashed (b : SendMevBundleArgs) : ∀ {level : Nat} {r : Validated} {hs : List Hash},
    validateBundleInner D currentBlock level b = .ok r → Everywhere AllCarry b →
      (hashTree D b).Hashes (keccakAll D) hs → 2 ≤ hs.length := by
  induction b using SendMevBundleArgs.tree_induction with
  | h b ih =>
    intro level r hs h hcarry hhs
    obtain ⟨hself, hinner⟩ := everywhere_iff.1 hcarry
    obtain ⟨hne, hrefs⟩ := refs_of_carry h hself
    rw [hashTree, refTree_eq, HashTree.map_wrap] at hhs
    rcases hhs.of_wrap with ⟨hlen, rfl⟩ | ⟨t, ht, hhs⟩
    · have hpos : (bodyRefs D b.body).length ≠ 0 := fun hzero => hne (List.length_eq_zero_iff.1 hzero)
      rw [List.length_map] at hlen
      rw [List.length_map, List.length_map]
      omega
    · obtain ⟨u, hu, rfl⟩ := List.mem_map.1 ht
      rcases hrefs u hu with ⟨x, rfl⟩ | ⟨el, hel, c, rc, hc, hrc, rfl⟩
      · cases hhs
      · exact ih el hel c hc hrc (hinner el hel c hc) hhs

/-- Keccak does not collide on the concatenations of two or more hashes that are
hashed for the two bundles, and no transaction hash and no given hash of one of
them is the Keccak hash of such a concatenation for the other. -/
structure KeccakDistinct (D : Deps) (b b' : SendMevBundleArgs) : Prop where
  inputs : ∀ hs hs', (hashTree D b).Hashes (keccakAll D) hs → (hashTree D b').Hashes (keccakAll D) hs' →
    2 ≤ hs.length → 2 ≤ hs'.length → D.keccak256 (hs.flatMap hashBytes) = D.keccak256 (hs'.flatMap hashBytes) →
    hs.flatMap hashBytes = hs'.flatMap hashBytes
  refs : ∀ h hs, (hashTree D b).HasLeaf h → (hashTree D b').Hashes (keccakAll D) hs → 2 ≤ hs.length →
    h ≠ D.keccak256 (hs.flatMap hashBytes)
  refs' : ∀ h hs, (hashTree D b').HasLeaf h → (hashTree D b).Hashes (keccakAll D) hs → 2 ≤ hs.length →
    h ≠ D.keccak256 (hs.flatMap hashBytes)

/-- Two accepted bundles with one hash, in which every element carries something,
have the same references in the same tree, and from the second reference on they
are also of the same kinds. -/
theorem same_hash_same_tree {b b' : SendMevBundleArgs} {currentBlock' : UInt64} {r r' : Validated}
    (h : validateBundle D currentBlock b = .ok r) (h' : validateBundle D currentBlock' b' = .ok r')
    (hcarry : Everywhere AllCarry b) (hcarry' : Everywhere AllCarry b') (hhash : r.hash = r'.hash)
    (hkeccak : KeccakDistinct D b b') :
    hashTree D b = hashTree D b' ∧ (refTree D b).leaves.tail = (refTree D b').leaves.tail := by
  have htwo {hs : List Hash} : (hashTree D b).Hashes (keccakAll D) hs → 2 ≤ hs.length := two_hashed b h hcarry
  have htwo' {hs : List Hash} : (hashTree D b').Hashes (keccakAll D) hs → 2 ≤ hs.length := two_hashed b' h' hcarry'
  have hfree : HashTree.CollisionFree (keccakAll D) (hashTree D b) (hashTree D b') := {
    lists := fun hs hs' hhs hhs' heq =>
      flatMap_injective (by decide) hashBytes_length (fun _ _ => hashBytes_injective)
        (hkeccak.inputs hs hs' hhs hhs' (htwo hhs) (htwo' hhs') heq)
    leaves := fun g hs hg hhs => hkeccak.refs g hs hg hhs (htwo' hhs)
    leaves' := fun g hs hg hhs => hkeccak.refs' g hs hg hhs (htwo hhs) }
  have htree : hashTree D b = hashTree D b' := by
    refine HashTree.digest_injective (hashTree D b) (hashTree D b') hfree ?_
    rw [← hash_eq_digest b h, ← hash_eq_digest b' h', hhash]
  refine ⟨htree, ?_⟩
  -- the references have the same hashes, and from the second on both are transactions
  have hsnd : (refTree D b).leaves.tail.map Prod.snd = (refTree D b').leaves.tail.map Prod.snd := by
    rw [List.map_tail, List.map_tail, ← HashTree.leaves_map, ← HashTree.leaves_map]
    exact congrArg (fun t => (HashTree.leaves t).tail) htree
  refine HashTree.eq_of_map_eq hsnd fun x hx y hy hxy => Prod.ext ?_ hxy
  rw [(kinds_of_ok b h).2 x hx, (kinds_of_ok b' h').2 y hy]

/-- A bundle with these elements. -/
def bundleOf (body : List MevBundleBody) : SendMevBundleArgs :=
  ⟨"v0.1", "", ⟨2, 2⟩, body, ⟨[], []⟩, none, none⟩

def txElement : MevBundleBody := ⟨none, some sampleTx, none, false, ""⟩

def hashElement (h : Hash) : MevBundleBody := ⟨some h, none, none, false, ""⟩

/-- The tree of hashes of a pair of sample transactions. -/
def pairTree : HashTree Hash := .node [.leaf sampleTransaction.hash, .leaf sampleTransaction.hash]

theorem keccakDistinct_pair {b b' : SendMevBundleArgs} (hb : hashTree pairDeps b = pairTree)
    (hb' : hashTree pairDeps b' = pairTree) : KeccakDistinct pairDeps b b' := by
  have hhashes {hs : List Hash} (h : pairTree.Hashes (keccakAll pairDeps) hs) :
      hs = [sampleTransaction.hash, sampleTransaction.hash] := by
    cases h with
    | here => rfl
    | inside ht h =>
      rcases List.mem_pair.1 ht with rfl | rfl
      · cases h
      · cases h
  have hleaf {g : Hash} (h : pairTree.HasLeaf g) : g = sampleTransaction.hash := by
    cases h with
    | inside ht h =>
      rcases List.mem_pair.1 ht with rfl | rfl
      · cases h
        rfl
      · cases h
        rfl
  have hne {g : Hash} {hs : List Hash} (hg : pairTree.HasLeaf g) (hhs : pairTree.Hashes (keccakAll pairDeps) hs) :
      g ≠ pairDeps.keccak256 (hs.flatMap hashBytes) := by
    rw [hleaf hg, hhashes hhs]
    decide
  refine ⟨fun hs hs' h h' _ _ _ => ?_, fun g hs hg hhs _ => ?_, fun g hs hg hhs _ => ?_⟩
  · rw [hb] at h
    rw [hb'] at h'
    rw [hhashes h, hhashes h']
  · exact hne (hb ▸ hg) (hb' ▸ hhs)
  · exact hne (hb' ▸ hg) (hb ▸ hhs)

/-- The second transaction of a pair, wrapped in a bundle. -/
def wrappedTx : MevBundleBody := ⟨none, none, some (bundleOf [txElement]), false, ""⟩

/-- Two transactions, and the same with the second one wrapped in a bundle. -/
theorem same_hash_same_tree_wrapped :
    ∃ r r', validateBundle pairDeps 1 (bundleOf [txElement, txElement]) = .ok r ∧
      validateBundle pairDeps 1 (bundleOf [txElement, wrappedTx]) = .ok r' ∧ r.hash = r'.hash ∧
      hashTree pairDeps (bundleOf [txElement, txElement]) = hashTree pairDeps (bundleOf [txElement, wrappedTx]) ∧
      (refTree pairDeps (bundleOf [txElement, txElement])).leaves.tail =
        (refTree pairDeps (bundleOf [txElement, wrappedTx])).leaves.tail := by
  have hwrapped : Everywhere AllCarry (bundleOf [txElement, wrappedTx]) := by
    refine .node (by decide) fun el hel c hc => ?_
    rcases List.mem_pair.1 hel with rfl | rfl
    · cases hc
    · cases hc
      exact everywhere_of_flat (by decide) (by decide)
  exact ⟨_, _, rfl, rfl, rfl, @same_hash_same_tree pairDeps 1 _ _ 1 _ _ rfl rfl (everywhere_of_flat (by decide) (by decide))
    hwrapped rfl (keccakDistinct_pair rfl rfl)⟩

/-- A backrun of an unmatched hash has the hash of the bundle that has the
transaction with this hash in its place. -/
theorem different_trees_one_hash :
    ∃ b b' r r', validateBundle pairDeps 1 b = .ok r ∧ validateBundle pairDeps 1 b' = .ok r' ∧
      Everywhere AllCarry b ∧ Everywhere AllCarry b' ∧ r.hash = r'.hash ∧ KeccakDistinct pairDeps b b' ∧
      refTree pairDeps b ≠ refTree pairDeps b' := by
  refine ⟨bundleOf [hashElement sampleTransaction.hash, txElement], bundleOf [txElement, txElement], _, _, rfl, rfl,
    everywhere_of_flat (by decide) (by decide), everywhere_of_flat (by decide) (by decide), rfl, keccakDistinct_pair rfl rfl, ?_⟩
  intro heq
  cases heq

end MevShare
