import Mathlib.Tactic.Common
import Mathlib.Data.List.Nodup
/-!
# Tables with a key

A table is the list of its rows, and `key` is what its primary key or unique
constraint is on. The three writes are `INSERT … ON CONFLICT DO NOTHING`,
`UPDATE … WHERE key = …` and `INSERT … ON CONFLICT DO UPDATE`; the lemmas say
which row a later look-up finds.
-/

namespace Lib

section Table
variable {ρ κ : Type} [DecidableEq κ] (key : ρ → κ)

def row (t : List ρ) (k : κ) : Option ρ := t.find? fun r => key r = k

def insertNew (t : List ρ) (r : ρ) : List ρ :=
  if (row key t (key r)).isSome then t else t ++ [r]

def updateRow (t : List ρ) (r : ρ) : List ρ := t.map fun x => if key x = key r then r else x

def upsertRow (t : List ρ) (r : ρ) : List ρ :=
  if (row key t (key r)).isSome then updateRow key t r else t ++ [r]

variable {key} {t : List ρ} {r : ρ} {k : κ}

theorem key_of_row (h : row key t k = some r) : key r = k := by
  simpa using List.find?_some h

theorem row_append_new (h : row key t (key r) = none) :
    row key (t ++ [r]) k = if key r = k then some r else row key t k := by
  unfold row at *
  rw [List.find?_append]
  by_cases hk : key r = k
  · subst hk
    simp [h]
  · simp [hk]

theorem row_updateRow :
    row key (updateRow key t r) k = if key r = k then (row key t k).map fun _ => r else row key t k := by
  unfold row updateRow
  induction t with
  | nil => simp
  | cons x t ih =>
    simp only [List.map_cons, List.find?_cons]
    by_cases hx : key x = key r
    · by_cases hk : key r = k <;> simp_all
    · by_cases hk : key r = k
      · have hxk : key x ≠ k := hk ▸ hx
        simp_all
      · simp only [hx, ↓reduceIte, hk] at ih ⊢
        rw [ih]

theorem row_upsertRow :
    row key (upsertRow key t r) k = if key r = k then some r else row key t k := by
  unfold upsertRow
  cases h : row key t (key r) with
  | none => rw [Option.isSome_none, if_neg Bool.false_ne_true, row_append_new h]
  | some x =>
    rw [Option.isSome_some, if_pos rfl, row_updateRow]
    split
    · rename_i hk
      rw [← hk, h, Option.map_some]
    · rfl

/-- With different keys a row is the one that its key finds. -/
theorem row_of_mem (hkeys : (t.map key).Nodup) (h : r ∈ t) : row key t (key r) = some r := by
  cases hrow : row key t (key r) with
  | none => exact absurd (decide_eq_true rfl) (List.find?_eq_none.1 hrow r h)
  | some x =>
    have hx := List.mem_of_find?_eq_some hrow
    rw [List.inj_on_of_nodup_map hkeys hx h (key_of_row hrow)]

theorem row_eq_none : row key t k = none ↔ ∀ x ∈ t, key x ≠ k := by
  simp [row]

/-- What is in the table after inserting rows with different keys: a row whose
key was taken is not inserted. -/
theorem mem_foldl_insertNew {rows : List ρ} (hkeys : (rows.map key).Nodup) :
    r ∈ rows.foldl (insertNew key) t ↔ r ∈ t ∨ r ∈ rows ∧ ∀ x ∈ t, key x ≠ key r := by
  induction rows generalizing t with
  | nil => simp
  | cons y rows ih =>
    rw [List.map_cons, List.nodup_cons] at hkeys
    have hfresh : ∀ x ∈ rows, key y ≠ key x := fun x hx heq => hkeys.1 (List.mem_map.2 ⟨x, hx, heq.symm⟩)
    rw [List.foldl_cons, ih hkeys.2, insertNew]
    cases hrow : row key t (key y) with
    | some z =>
      have hz : ¬∀ x ∈ t, key x ≠ key y := fun h => absurd (row_eq_none.2 h) (by simp [hrow])
      rw [Option.isSome_some, if_pos rfl, List.mem_cons]
      refine or_congr_right ⟨fun ⟨hr, h⟩ => ⟨.inr hr, h⟩, ?_⟩
      rintro ⟨rfl | hr, h⟩
      · exact absurd h hz
      · exact ⟨hr, h⟩
    | none =>
      rw [row_eq_none] at hrow
      rw [Option.isSome_none, if_neg Bool.false_ne_true, List.mem_append, List.mem_singleton, List.mem_cons, or_assoc]
      refine or_congr_right ⟨?_, ?_⟩
      · rintro (rfl | ⟨hr, h⟩)
        · exact ⟨.inl rfl, hrow⟩
        · exact ⟨.inr hr, fun x hx => h x (List.mem_append_left _ hx)⟩
      · rintro ⟨rfl | hr, h⟩
        · exact .inl rfl
        · refine .inr ⟨hr, fun x hx => ?_⟩
          rcases List.mem_append.1 hx with hx | hx
          · exact h x hx
          · rw [List.mem_singleton.1 hx]
            exact hfresh r hr

/-- Rows whose keys are all free are appended. -/
theorem foldl_insertNew_of_free {rows : List ρ} (hkeys : (rows.map key).Nodup)
    (hfree : ∀ r ∈ rows, ∀ x ∈ t, key x ≠ key r) : rows.foldl (insertNew key) t = t ++ rows := by
  induction rows generalizing t with
  | nil => simp
  | cons y rows ih =>
    rw [List.map_cons, List.nodup_cons] at hkeys
    have hnew : insertNew key t y = t ++ [y] := by
      rw [insertNew, row_eq_none.2 (hfree y List.mem_cons_self), Option.isSome_none, if_neg Bool.false_ne_true]
    rw [List.foldl_cons, hnew, ih hkeys.2, List.append_assoc, List.singleton_append]
    intro r hr x hx
    rcases List.mem_append.1 hx with hx | hx
    · exact hfree r (List.mem_cons_of_mem _ hr) x hx
    · rw [List.mem_singleton.1 hx]
      exact fun heq => hkeys.1 (List.mem_map.2 ⟨r, hr, heq.symm⟩)

theorem row_map (f : ρ → ρ) (hf : ∀ x, key (f x) = key x) : row key (t.map f) k = (row key t k).map f := by
  unfold row
  rw [List.find?_map]
  congr 2
  funext x
  simp [hf]

theorem nodup_upsertRow (hkeys : (t.map key).Nodup) : ((upsertRow key t r).map key).Nodup := by
  unfold upsertRow
  split
  · have hsame : (updateRow key t r).map key = t.map key := by
      unfold updateRow
      rw [List.map_map]
      refine List.map_congr_left fun x _ => ?_
      by_cases hx : key x = key r <;> simp [hx]
    rwa [hsame]
  · rename_i hnone
    rw [List.map_append, List.map_singleton]
    refine List.nodup_append.2 ⟨hkeys, List.nodup_singleton _, fun a ha b hb => ?_⟩
    obtain ⟨x, hx, rfl⟩ := List.mem_map.1 ha
    rw [List.mem_singleton.1 hb]
    intro heq
    rw [← heq, row_of_mem hkeys hx] at hnone
    exact hnone rfl

end Table

end Lib
