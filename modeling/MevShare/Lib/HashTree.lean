import Mathlib.Tactic.Common
/-!
# Hash trees

A tree of references is identified by a digest: a leaf is its own digest, and
the digests of a node's children are hashed together. `HashTree.wrap` builds a node
unless there is only one child, which then stands for the whole.

No hash function is injective, so `digest_injective` asks for that only of the
lists that are hashed for the two trees in question (`HashTree.Hashes`), and that no
leaf is the hash of one of them.
-/

namespace Lib

inductive HashTree (α : Type) where
  | leaf (a : α)
  | node (children : List (HashTree α))

namespace HashTree
variable {α β η : Type}

theorem tree_induction {P : HashTree α → Prop} (leaf : ∀ a, P (.leaf a))
    (node : ∀ ts, (∀ t ∈ ts, P t) → P (.node ts)) (t : HashTree α) : P t :=
  @HashTree.rec α P (fun ts => ∀ t ∈ ts, P t) leaf (fun ts ih => node ts ih) (fun _ ht => nomatch ht)
    (fun _ _ hhead htail t ht => by
      rcases List.mem_cons.1 ht with rfl | ht
      · exact hhead
      · exact htail t ht) t

mutual
def map (f : α → β) : HashTree α → HashTree β
  | leaf a => leaf (f a)
  | node ts => node (mapList f ts)

def mapList (f : α → β) : List (HashTree α) → List (HashTree β)
  | [] => []
  | t :: ts => map f t :: mapList f ts
end

mutual
def digest (H : List η → η) : HashTree η → η
  | leaf h => h
  | node ts => H (digests H ts)

def digests (H : List η → η) : List (HashTree η) → List η
  | [] => []
  | t :: ts => digest H t :: digests H ts
end

mutual
/-- The leaves from left to right. -/
def leaves : HashTree α → List α
  | leaf a => [a]
  | node ts => leavesList ts

def leavesList : List (HashTree α) → List α
  | [] => []
  | t :: ts => leaves t ++ leavesList ts
end

def wrap : List (HashTree α) → HashTree α
  | [t] => t
  | ts => node ts

/-- The digest of `wrap` from those of the children. -/
def combine (H : List η → η) : List η → η
  | [d] => d
  | ds => H ds

theorem mapList_eq (f : α → β) (ts : List (HashTree α)) : mapList f ts = ts.map (map f) := by
  induction ts with
  | nil => rfl
  | cons t ts ih => rw [mapList, ih, List.map_cons]

theorem digests_eq (H : List η → η) (ts : List (HashTree η)) : digests H ts = ts.map (digest H) := by
  induction ts with
  | nil => rfl
  | cons t ts ih => rw [digests, ih, List.map_cons]

theorem map_wrap (f : α → β) (ts : List (HashTree α)) : map f (wrap ts) = wrap (ts.map (map f)) := by
  match ts with
  | [] => rfl
  | [t] => rfl
  | t :: u :: ts =>
    change map f (node (t :: u :: ts)) = _
    rw [map, mapList_eq]
    rfl

theorem digest_wrap (H : List η → η) (ts : List (HashTree η)) : digest H (wrap ts) = combine H (ts.map (digest H)) := by
  match ts with
  | [] => rfl
  | [t] => rfl
  | t :: u :: ts =>
    change digest H (node (t :: u :: ts)) = _
    rw [digest, digests_eq]
    rfl

theorem leavesList_append (ts ts' : List (HashTree α)) : leavesList (ts ++ ts') = leavesList ts ++ leavesList ts' := by
  induction ts with
  | nil => rfl
  | cons t ts ih => rw [List.cons_append, leavesList, leavesList, ih, List.append_assoc]

theorem leaves_wrap (ts : List (HashTree α)) : leaves (wrap ts) = leavesList ts := by
  match ts with
  | [] => rfl
  | [t] => exact (List.append_nil _).symm
  | t :: u :: ts => rfl

theorem leaves_map (f : α → β) (t : HashTree α) : leaves (map f t) = (leaves t).map f := by
  induction t using tree_induction with
  | leaf a => rfl
  | node ts ih =>
    rw [map, leaves, leaves]
    induction ts with
    | nil => rfl
    | cons t ts ihl =>
      rw [mapList, leavesList, leavesList, List.map_append, ih t List.mem_cons_self,
        ihl fun u hu => ih u (List.mem_cons_of_mem _ hu)]

/-- The list is hashed when the digest of the tree is computed. -/
inductive Hashes (H : List η → η) : HashTree η → List η → Prop
  | here {ts} : Hashes H (node ts) (ts.map (digest H))
  | inside {t ts ds} : t ∈ ts → Hashes H t ds → Hashes H (node ts) ds

/-- What is hashed for several children, or for one that stands for the whole. -/
theorem Hashes.of_wrap {H : List η → η} {ts : List (HashTree η)} {ds : List η} (h : Hashes H (wrap ts) ds) :
    ts.length ≠ 1 ∧ ds = ts.map (digest H) ∨ ∃ t ∈ ts, Hashes H t ds := by
  match ts, h with
  | [], .here => exact .inl ⟨nofun, rfl⟩
  | [t], h => exact .inr ⟨t, List.mem_singleton_self t, h⟩
  | t :: u :: ts, .here => exact .inl ⟨nofun, rfl⟩
  | t :: u :: ts, .inside ht h => exact .inr ⟨_, ht, h⟩

inductive HasLeaf : HashTree α → α → Prop
  | here {a} : HasLeaf (leaf a) a
  | inside {t ts a} : t ∈ ts → HasLeaf t a → HasLeaf (node ts) a

/-- No two different lists among those hashed for the trees have one hash, and
no leaf of one tree is the hash of a list hashed for the other. -/
structure CollisionFree (H : List η → η) (t t' : HashTree η) : Prop where
  lists : ∀ ds ds', Hashes H t ds → Hashes H t' ds' → H ds = H ds' → ds = ds'
  leaves : ∀ h ds, HasLeaf t h → Hashes H t' ds → h ≠ H ds
  leaves' : ∀ h ds, HasLeaf t' h → Hashes H t ds → h ≠ H ds

theorem CollisionFree.child {H : List η → η} {t t' : HashTree η} {ts ts' : List (HashTree η)}
    (h : CollisionFree H (node ts) (node ts')) (ht : t ∈ ts) (ht' : t' ∈ ts') : CollisionFree H t t' where
  lists ds ds' hds hds' := h.lists ds ds' (.inside ht hds) (.inside ht' hds')
  leaves g ds hg hds := h.leaves g ds (.inside ht hg) (.inside ht' hds)
  leaves' g ds hg hds := h.leaves' g ds (.inside ht' hg) (.inside ht hds)

theorem eq_of_map_eq {γ δ : Type} {f : γ → δ} {l l' : List γ} (h : l.map f = l'.map f)
    (hf : ∀ x ∈ l, ∀ y ∈ l', f x = f y → x = y) : l = l' := by
  induction l generalizing l' with
  | nil => exact (List.map_eq_nil_iff.1 h.symm).symm
  | cons x l ih =>
    cases l' with
    | nil => cases h
    | cons y l' =>
      rw [List.map_cons, List.map_cons, List.cons.injEq] at h
      obtain ⟨hhead, htail⟩ := h
      rw [hf x List.mem_cons_self y List.mem_cons_self hhead,
        ih htail fun a ha b hb => hf a (List.mem_cons_of_mem _ ha) b (List.mem_cons_of_mem _ hb)]

/-- Trees with one digest are the same tree. -/
theorem digest_injective {H : List η → η} (t : HashTree η) :
    ∀ t', CollisionFree H t t' → digest H t = digest H t' → t = t' := by
  induction t using tree_induction with
  | leaf h =>
    intro t' hfree heq
    cases t' with
    | leaf h' => exact congrArg leaf heq
    | node ts' =>
      rw [digest, digest, digests_eq] at heq
      exact absurd heq (hfree.leaves h _ .here .here)
  | node ts ih =>
    intro t' hfree heq
    cases t' with
    | leaf h' =>
      rw [digest, digest, digests_eq] at heq
      exact absurd heq.symm (hfree.leaves' h' _ .here .here)
    | node ts' =>
      rw [digest, digest, digests_eq, digests_eq] at heq
      have hlists := hfree.lists _ _ .here .here heq
      rw [eq_of_map_eq hlists fun t ht t' ht' => ih t ht t' (hfree.child ht ht')]

end HashTree

/-- A concatenation of pieces of one length determines the pieces. -/
theorem flatMap_injective {α β : Type} {f : α → List β} {n : Nat} (hn : n ≠ 0) (hlen : ∀ a, (f a).length = n)
    (hf : ∀ a b, f a = f b → a = b) {l l' : List α} (h : l.flatMap f = l'.flatMap f) : l = l' := by
  have hne (a : α) : f a ≠ [] := fun hnil => hn (by rw [← hlen a, hnil, List.length_nil])
  induction l generalizing l' with
  | nil =>
    cases l' with
    | nil => rfl
    | cons b l' => exact absurd (List.append_eq_nil_iff.1 h.symm).1 (hne b)
  | cons a l ih =>
    cases l' with
    | nil => exact absurd (List.append_eq_nil_iff.1 h).1 (hne a)
    | cons b l' =>
      rw [List.flatMap_cons, List.flatMap_cons] at h
      obtain ⟨hhead, htail⟩ := List.append_inj h ((hlen a).trans (hlen b).symm)
      rw [hf a b hhead, ih htail]

end Lib
