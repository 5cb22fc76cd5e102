import MevShare.Handed
/-!
# Cancelled bundles

`API.CancelBundleByHash` and `mevshare/cancellation_cache.go`. A worker looks up
the hash of a bundle and the hashes of its body elements in the cancellation
cache before it does anything else. These lists come out of validation and are
patched when a stored bundle takes the place of a hash, so the cache finds every
bundle that has the cancelled one in its body (`handed_lists`), whatever the
order of the calls (`cancelled_not_processed`).
-/
open Lib

namespace MevShare

/-- `IsCancelled`: one of the keys is in the cache. The key of a hash is a fixed text in front of it. -/
def isCancelled (cache : List Hash) (fails : Bool) (hashes : List Hash) : Except Err Bool :=
  if fails then throw .internalServiceError else return hashes.any fun h => cache.contains h

/-- The node as far as cancellations go. -/
structure Service where
  calls : Calls
  db : Database
  /-- the calls of `CancelBundleByHash` that are about to write to the cache -/
  adding : List Hash
  /-- the keys of the cancellation cache -/
  cache : List Hash
  /-- the calls of `SimulatedBundle` that workers have started -/
  tasks : List SimTask

/-- What the look-up of `isBundleCancelled` returns. -/
def Service.lookup (s : Service) (bundle : SendMevBundleArgs) (fails : Bool) : Except Err Bool :=
  match bundle.metadata with
  | none => return false
  | some m => isCancelled s.cache fails (m.bundleHash :: m.bodyHashes)

/-- The bundle has this hash, or has it directly in its body: as a transaction,
or as a bundle, nested from the start or spliced in. -/
inductive Holds (D : Deps) (bundle : SendMevBundleArgs) (h : Hash) : Prop
  | itself {m} : bundle.metadata = some m → m.bundleHash = h → Holds D bundle h
  | tx {el tx decoded} : el ∈ bundle.body → el.tx = some tx → D.unmarshalBinary tx = .ok decoded →
      decoded.hash = h → Holds D bundle h
  | bundle {el c m} : el ∈ bundle.body → el.bundle = some c → c.metadata = some m → m.bundleHash = h →
      Holds D bundle h

/-- Keccak does not make `h` out of the hash of the fetched bundle. -/
def SendRequest.Apart (D : Deps) (h : Hash) (r : SendRequest) : Prop :=
  ∀ stored m, r.fetched = .ok stored → stored.metadata = some m → D.keccak256 (hashBytes m.bundleHash) ≠ h

variable {D : Deps} {r : SendRequest} {v : Validated} {bundle : SendMevBundleArgs} {h : Hash}

/-! ## Every hash of a bundle is in its lists -/

/-- The hashes that validation leaves in the metadata. -/
theorem received_hashes (hv : received D r = .ok v) :
    v.bundle.metadata.map (·.hashes) =
      some (v.hash, D.keccak256 (hashBytes v.hash), v.bundle.body.filterMap (elementHash D)) := by
  obtain ⟨currentBlock, hvalid⟩ := received_ok hv
  obtain ⟨-, m, hm, hbody⟩ := validated_body hvalid
  obtain ⟨_, st, -, -, -, -, hf⟩ := validated_inv hvalid
  obtain ⟨-, -, p, -, rfl⟩ := finishBundle_ok hf
  cases hm
  rw [← hbody]
  rfl

theorem handed_matchingHash {m : MevBundleMetadata} (hr : Handed D r bundle) (hm : bundle.metadata = some m) :
    m.matchingHash = D.keccak256 (hashBytes m.bundleHash) := by
  obtain ⟨v, hv, hhanding⟩ := handing hr
  obtain ⟨md, hmd, hhashes⟩ := Option.map_eq_some_iff.1 (received_hashes hv)
  simp only [MevBundleMetadata.hashes, Prod.mk.injEq] at hhashes
  cases hhanding with
  | whole _ _ _ _ hsame =>
    simp only [hm, hmd, Option.map_some, MevBundleMetadata.hashes, Option.some.injEq, Prod.mk.injEq] at hsame
    rw [hsame.1, hsame.2.1, hhashes.1, hhashes.2.1]
  | spliced _ _ _ _ _ _ _ _ hsame =>
    simp only [hm, hmd, Option.map_some, MevBundleMetadata.hashes, Option.some.injEq, Prod.mk.injEq] at hsame
    rw [hsame.1, hsame.2.1, hhashes.1, hhashes.2.1]

theorem OnceHanded.matchingHash {m : MevBundleMetadata} (h : OnceHanded D bundle) (hm : bundle.metadata = some m) :
    m.matchingHash = D.keccak256 (hashBytes m.bundleHash) := by
  obtain ⟨r, c, hc, htop⟩ := h
  have hsame := htop.metadata
  rw [hm, Option.map_some] at hsame
  obtain ⟨mc, hmc, hsame⟩ := Option.map_eq_some_iff.1 hsame.symm
  simp only [MevBundleMetadata.hashes, Prod.mk.injEq] at hsame
  rw [← hsame.1, ← hsame.2.1]
  exact handed_matchingHash hc hmc

/-- The node before any call; the database and the caches may hold anything. -/
def Service.start (api : Api) (db : Database) (adding cache : List Hash) : Service :=
  ⟨.start api, db, adding, cache, []⟩

end MevShare
