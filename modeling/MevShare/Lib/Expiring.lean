import Mathlib.Logic.Function.Basic
import Mathlib.Tactic.Common
/-!
# Entries that expire

A keyspace maps a key to an entry, which may have a last moment at which it is
still there. What is read at a moment is what is live at it; nothing has to be
removed for that.

`Shows` says that a family of keys of one keyspace holds what another keyspace
holds, so that several stores can share one keyspace under different keys.
-/

namespace Lib

variable {ι κ β γ : Type}

structure Entry (β : Type) where
  value : β
  deadline : Option Nat
deriving DecidableEq, Repr

def Entry.map (f : β → γ) (e : Entry β) : Entry γ := ⟨f e.value, e.deadline⟩

def Entry.live (now : Nat) (e : Entry β) : Bool := e.deadline.all (now ≤ ·)

abbrev Keyspace (κ β : Type) := κ → Option (Entry β)

namespace Keyspace

def find (s : Keyspace κ β) (now : Nat) (k : κ) : Option (Entry β) := (s k).filter (Entry.live now)

section Writes
variable [DecidableEq κ]

/-- What the key is given; `none` removes it. -/
def write (s : Keyspace κ β) (k : κ) (e : Option (Entry β)) : Keyspace κ β := Function.update s k e

/-- A new deadline for a key that is there. -/
def expire (s : Keyspace κ β) (now : Nat) (k : κ) (deadline : Nat) : Keyspace κ β :=
  match s.find now k with
  | none => s
  | some e => s.write k (some { e with deadline := some deadline })

@[simp] theorem write_self (s : Keyspace κ β) (k : κ) (e : Option (Entry β)) : s.write k e k = e :=
  Function.update_self ..

theorem write_of_ne {s : Keyspace κ β} {k k' : κ} {e : Option (Entry β)} (h : k' ≠ k) : s.write k e k' = s k' :=
  Function.update_of_ne h ..

theorem expire_of_ne {s : Keyspace κ β} {now deadline : Nat} {k k' : κ} (h : k' ≠ k) :
    s.expire now k deadline k' = s k' := by
  unfold expire
  cases s.find now k with
  | none => rfl
  | some e => exact write_of_ne h

end Writes

/-- The keys `key i` of `r` hold what `s` holds, with values as `f` writes them. -/
def Shows (key : ι → κ) (f : β → γ) (r : Keyspace κ γ) (s : Keyspace ι β) : Prop :=
  ∀ i, r (key i) = (s i).map (Entry.map f)

variable {key : ι → κ} {f : β → γ} {r : Keyspace κ γ} {s : Keyspace ι β}

theorem Shows.find (h : Shows key f r s) (now : Nat) (i : ι) :
    r.find now (key i) = (s.find now i).map (Entry.map f) := by
  unfold Keyspace.find
  rw [h i]
  cases s i with
  | none => rfl
  | some e =>
    have hlive : (e.map f).live now = e.live now := rfl
    simp only [Option.map_some, Option.filter_some, hlive]
    split <;> rfl

variable [DecidableEq κ]

theorem Shows.write_other (h : Shows key f r s) {k : κ} (hk : ∀ i, key i ≠ k) (e : Option (Entry γ)) :
    Shows key f (r.write k e) s := by
  intro i
  rw [write_of_ne (hk i), h i]

theorem Shows.expire_other (h : Shows key f r s) {k : κ} (hk : ∀ i, key i ≠ k) (now deadline : Nat) :
    Shows key f (r.expire now k deadline) s := by
  intro i
  rw [expire_of_ne (hk i), h i]

variable [DecidableEq ι]

theorem Shows.write (h : Shows key f r s) (hkey : Function.Injective key) (i : ι) (e : Option (Entry β)) :
    Shows key f (r.write (key i) (e.map (Entry.map f))) (s.write i e) := by
  intro j
  by_cases hj : j = i
  · subst hj
    rw [write_self, write_self]
  · rw [write_of_ne hj, write_of_ne (hkey.ne hj), h j]

theorem Shows.expire (h : Shows key f r s) (hkey : Function.Injective key) (now : Nat) (i : ι) (deadline : Nat) :
    Shows key f (r.expire now (key i) deadline) (s.expire now i deadline) := by
  unfold Keyspace.expire
  rw [h.find]
  cases s.find now i with
  | none => exact h
  | some e => exact h.write hkey i (some { e with deadline := some deadline })

end Keyspace

end Lib
