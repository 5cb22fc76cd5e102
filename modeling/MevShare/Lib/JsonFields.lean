import Mathlib.Data.List.Forall2
import Mathlib.Data.List.Nodup
import Mathlib.Tactic.Common
/-!
# JSON and Go structs

Parsed JSON, and how `encoding/json` writes a struct and reads it: a struct is a
list of fields, each with its tag, what is written for it if it is not left out,
and how a value is read into what the field holds already. A member of an object
is for the field with its name, and if there is none for one whose name differs
in case only; a member for no field is skipped. `null` leaves a struct as it is.

`Reorders` allows the members of every object to come in another order, as a
database gives them back. A value is restored (`Restores`) if it is read from
whatever its JSON is reordered to; fields that are restored make a struct that
is (`restores_object`), and the same goes for slices and pointers.
-/

namespace Lib

/-- A number is an `int` if it is written without a fraction and an exponent. -/
inductive JsonValue where
  | null
  | bool (b : Bool)
  | int (n : Int)
  | real (text : String)
  | str (s : String)
  | arr (elements : List JsonValue)
  | obj (members : List (String × JsonValue))

mutual

/-- The same JSON, but for the order of the members. -/
inductive Reorders : JsonValue → JsonValue → Prop
  | refl (j : JsonValue) : Reorders j j
  | arr {js js'} : List.Forall₂ Reorders js js' → Reorders (.arr js) (.arr js')
  | obj {ms mid ms'} : ReordersMembers ms mid → mid.Perm ms' → Reorders (.obj ms) (.obj ms')

inductive ReordersMembers : List (String × JsonValue) → List (String × JsonValue) → Prop
  | nil : ReordersMembers [] []
  | cons {name j j' ms ms'} : Reorders j j' → ReordersMembers ms ms' →
      ReordersMembers ((name, j) :: ms) ((name, j') :: ms')

end

variable {α σ : Type}

/-- `x` is read from the JSON, in whatever order. -/
def Restores (dec : α → JsonValue → Option α) (zero x : α) (j : JsonValue) : Prop :=
  ∀ j', Reorders j j' → dec zero j' = some x

/-- The same for a member: if it is left out, `x` is what is there anyway. -/
def RestoresMember (dec : α → JsonValue → Option α) (zero x : α) : Option JsonValue → Prop
  | none => zero = x
  | some j => Restores dec zero x j

/-! ## Plain values -/

def decodeString (current : String) : JsonValue → Option String
  | .null => some current
  | .str s => some s
  | _ => none

def decodeBool (current : Bool) : JsonValue → Option Bool
  | .null => some current
  | .bool b => some b
  | _ => none

/-- An integer type with these bounds. -/
def decodeInt (min max current : Int) : JsonValue → Option Int
  | .null => some current
  | .int n => if min ≤ n ∧ n ≤ max then some n else none
  | _ => none

theorem restores_string (zero s : String) : Restores decodeString zero s (.str s) := by
  rintro j' ⟨⟩
  rfl

theorem restores_bool (zero b : Bool) : Restores decodeBool zero b (.bool b) := by
  rintro j' ⟨⟩
  rfl

theorem restores_int {min max n : Int} (zero : Int) (hmin : min ≤ n) (hmax : n ≤ max) :
    Restores (decodeInt min max) zero n (.int n) := by
  rintro j' ⟨⟩
  exact if_pos ⟨hmin, hmax⟩

theorem decodeInt_bounds {min max current n : Int} {j : JsonValue} (hc : min ≤ current ∧ current ≤ max)
    (h : decodeInt min max current j = some n) : min ≤ n ∧ n ≤ max := by
  unfold decodeInt at h
  split at h
  · exact Option.some.inj h ▸ hc
  · obtain ⟨hn, heq⟩ := Option.ite_none_right_eq_some.1 h
    exact Option.some.inj heq ▸ hn
  · cases h

/-! ## Slices and pointers -/

/-- Elements are read into those that are there, and into new ones after these. -/
def decodeArray (dec : α → JsonValue → Option α) (zero : α) : List α → List JsonValue → Option (List α)
  | _, [] => some []
  | current, j :: js => do
    let x ← dec (current.headD zero) j
    let rest ← decodeArray dec zero current.tail js
    return x :: rest

def decodeSlice (dec : α → JsonValue → Option α) (zero : α) (current : List α) : JsonValue → Option (List α)
  | .null => some []
  | .arr js => decodeArray dec zero current js
  | _ => none

def decodePointer (dec : α → JsonValue → Option α) (zero : α) (current : Option α) : JsonValue → Option (Option α)
  | .null => some none
  | j => (dec (current.getD zero) j).map some

section Compose
variable {dec : α → JsonValue → Option α} {zero : α}

theorem reorders_arr {js : List JsonValue} {j' : JsonValue} (h : Reorders (.arr js) j') :
    ∃ js', j' = .arr js' ∧ List.Forall₂ Reorders js js' := by
  cases h with
  | refl => exact ⟨js, rfl, List.forall₂_same.2 fun j _ => .refl j⟩
  | arr h => exact ⟨_, rfl, h⟩

theorem restores_slice {enc : α → JsonValue} {l : List α} (h : ∀ x ∈ l, Restores dec zero x (enc x)) :
    Restores (decodeSlice dec zero) [] l (.arr (l.map enc)) := by
  intro j' hj
  obtain ⟨js, rfl, hjs⟩ := reorders_arr hj
  simp only [decodeSlice]
  clear hj
  induction l generalizing js with
  | nil =>
    cases hjs
    rfl
  | cons x l ih =>
    cases hjs with
    | cons hx hl =>
      have hrest := ih (fun y hy => h y (List.mem_cons_of_mem _ hy)) _ hl
      simp [decodeArray, h x List.mem_cons_self _ hx, hrest]

theorem decodePointer_of_ne {current : Option α} {j : JsonValue} (hj : j ≠ .null) :
    decodePointer dec zero current j = (dec (current.getD zero) j).map some := by
  cases j with
  | null => exact absurd rfl hj
  | _ => rfl

theorem restores_pointer {x : α} {j : JsonValue} (h : Restores dec zero x j) (hj : j ≠ .null) :
    Restores (decodePointer dec zero) none (some x) j := by
  intro j' hre
  have hj' : j' ≠ .null := by
    rintro rfl
    cases hre
    exact hj rfl
  rw [decodePointer_of_ne hj', Option.getD_none, h j' hre, Option.map_some]

/-- A pointer field is left out if it is nil. -/
theorem restoresMember_pointer {enc : α → JsonValue} {x : Option α} (h : ∀ y ∈ x, Restores dec zero y (enc y))
    (hne : ∀ y, enc y ≠ .null) : RestoresMember (decodePointer dec zero) none x (x.map enc) := by
  cases x with
  | none => rfl
  | some y => exact restores_pointer (h y rfl) (hne y)

variable {P : α → Prop}

theorem decodeArray_all (hzero : ∀ j y, dec zero j = some y → P y) (hdec : ∀ x j y, P x → dec x j = some y → P y)
    {js : List JsonValue} {current l : List α} (hcurrent : ∀ x ∈ current, P x)
    (h : decodeArray dec zero current js = some l) : ∀ x ∈ l, P x := by
  induction js generalizing current l with
  | nil =>
    cases h
    simp
  | cons j js ih =>
    obtain ⟨x, hx, h⟩ := Option.bind_eq_some_iff.1 h
    obtain ⟨rest, hrest, h⟩ := Option.bind_eq_some_iff.1 h
    cases h
    refine List.forall_mem_cons.2 ⟨?_, ih (fun y hy => hcurrent y (List.mem_of_mem_tail hy)) hrest⟩
    cases current with
    | nil => exact hzero j x hx
    | cons c current => exact hdec c j x (hcurrent c List.mem_cons_self) hx

theorem decodeSlice_all (hzero : ∀ j y, dec zero j = some y → P y) (hdec : ∀ x j y, P x → dec x j = some y → P y)
    {j : JsonValue} {current l : List α} (hcurrent : ∀ x ∈ current, P x) (h : decodeSlice dec zero current j = some l) :
    ∀ x ∈ l, P x := by
  unfold decodeSlice at h
  split at h
  · cases h
    simp
  · exact decodeArray_all hzero hdec hcurrent h
  · cases h

theorem decodePointer_all (hzero : ∀ j y, dec zero j = some y → P y) (hdec : ∀ x j y, P x → dec x j = some y → P y)
    {j : JsonValue} {current y : Option α} (hcurrent : ∀ x ∈ current, P x)
    (h : decodePointer dec zero current j = some y) : ∀ x ∈ y, P x := by
  by_cases hj : j = .null
  · subst hj
    cases h
    simp
  · rw [decodePointer_of_ne hj] at h
    obtain ⟨x, hx, rfl⟩ := Option.map_eq_some_iff.1 h
    rintro _ ⟨⟩
    cases current with
    | none => exact hzero j x hx
    | some c => exact hdec c j x (hcurrent c rfl) hx

end Compose

/-! ## Structs -/

structure StructField (σ : Type) where
  tag : String
  {β : Type}
  get : σ → β
  set : β → σ → σ
  enc : β → Option JsonValue
  dec : β → JsonValue → Option β

/-- Letters that differ in case, with the two that have a third form outside ASCII. -/
def foldChar (c : Char) : Char := if c.toNat = 0x17f then 's' else if c.toNat = 0x212a then 'k' else c.toLower

def sameName (key tag : String) : Bool := key.toList.map foldChar = tag.toList.map foldChar

def findField (fields : List (StructField σ)) (key : String) : Option (StructField σ) :=
  (fields.find? fun f => f.tag = key).or (fields.find? fun f => sameName key f.tag)

def decodeMember (fields : List (StructField σ)) (s : σ) (m : String × JsonValue) : Option σ :=
  match findField fields m.1 with
  | none => some s
  | some f => (f.dec (f.get s) m.2).map fun x => f.set x s

def decodeObject (fields : List (StructField σ)) (s : σ) : JsonValue → Option σ
  | .null => some s
  | .obj members => members.foldlM (decodeMember fields) s
  | _ => none

def encodeObject (fields : List (StructField σ)) (s : σ) : JsonValue :=
  .obj (fields.filterMap fun f => (f.enc (f.get s)).map fun j => (f.tag, j))

/-- The fields are the parts of the struct, and their tags are different. -/
structure LawfulFields (fields : List (StructField σ)) : Prop where
  tags : (fields.map StructField.tag).Nodup
  get_set : ∀ f ∈ fields, ∀ x s, f.get (f.set x s) = x
  get_other : fields.Pairwise fun f g => (∀ x s, g.get (f.set x s) = g.get s) ∧ ∀ x s, f.get (g.set x s) = f.get s
  ext : ∀ s t, (∀ f ∈ fields, f.get s = f.get t) → s = t

def StructField.Restores (f : StructField σ) (zero s : σ) : Prop :=
  RestoresMember f.dec (f.get zero) (f.get s) (f.enc (f.get s))

variable {fields : List (StructField σ)}

theorem LawfulFields.findField (hl : LawfulFields fields) {f : StructField σ} (hf : f ∈ fields) : findField fields f.tag = some f := by
  have hfind : (fields.find? fun g => g.tag = f.tag) = some f := by
    have htags := hl.tags
    clear hl
    induction fields with
    | nil => cases hf
    | cons g fields ih =>
      rw [List.map_cons, List.nodup_cons] at htags
      rcases List.mem_cons.1 hf with rfl | hf
      · simp
      · have hne : g.tag ≠ f.tag := fun heq => htags.1 (heq ▸ List.mem_map_of_mem hf)
        rw [List.find?_cons_of_neg (by simpa using hne)]
        exact ih hf htags.2
  rw [Lib.findField, hfind, Option.some_or]

theorem LawfulFields.get_set_other (hl : LawfulFields fields) {f g : StructField σ} (hf : f ∈ fields) (hg : g ∈ fields)
    (hne : g.tag ≠ f.tag) (x : f.β) (s : σ) : g.get (f.set x s) = g.get s := by
  have hother := hl.get_other
  clear hl
  induction fields with
  | nil => cases hf
  | cons h fields ih =>
    rw [List.pairwise_cons] at hother
    rcases List.mem_cons.1 hf with rfl | hf' <;> rcases List.mem_cons.1 hg with rfl | hg'
    · exact absurd rfl hne
    · exact (hother.1 g hg').1 x s
    · exact (hother.1 f hf').2 x s
    · exact ih hf' hg' hother.2

/-! ## Reading what was written -/

/-- A member that is written for `s`. -/
def Writes (fields : List (StructField σ)) (s : σ) (m : String × JsonValue) : Prop :=
  ∃ f ∈ fields, m.1 = f.tag ∧ ∃ j, f.enc (f.get s) = some j ∧ Reorders j m.2

theorem ReordersMembers.names {ms ms' : List (String × JsonValue)} (h : ReordersMembers ms ms') :
    ms'.map Prod.fst = ms.map Prod.fst := by
  induction ms generalizing ms' with
  | nil =>
    cases h
    rfl
  | cons m ms ih =>
    cases h with
    | cons _ hrest => rw [List.map_cons, List.map_cons, ih hrest]

theorem ReordersMembers.source {ms ms' : List (String × JsonValue)} (h : ReordersMembers ms ms') {m' : String × JsonValue}
    (hm : m' ∈ ms') : ∃ j, (m'.1, j) ∈ ms ∧ Reorders j m'.2 := by
  induction ms generalizing ms' with
  | nil =>
    cases h
    cases hm
  | cons m ms ih =>
    cases h with
    | cons hj hrest =>
      rcases List.mem_cons.1 hm with rfl | hm
      · exact ⟨_, List.mem_cons_self, hj⟩
      · obtain ⟨j, hmem, hre⟩ := ih hrest hm
        exact ⟨j, List.mem_cons_of_mem _ hmem, hre⟩

theorem reorders_obj {ms : List (String × JsonValue)} {j' : JsonValue} (h : Reorders (.obj ms) j') :
    ∃ ms', j' = .obj ms' ∧ (ms'.map Prod.fst).Perm (ms.map Prod.fst) ∧
      ∀ m' ∈ ms', ∃ j, (m'.1, j) ∈ ms ∧ Reorders j m'.2 := by
  cases h with
  | refl => exact ⟨ms, rfl, .refl _, fun m' hm' => ⟨m'.2, hm', .refl _⟩⟩
  | obj hmid hperm =>
    refine ⟨_, rfl, hmid.names ▸ (hperm.map _).symm, fun m' hm' => hmid.source (hperm.mem_iff.2 hm')⟩

/-- What the fields hold when the members with these names have been read. -/
def Halfway (fields : List (StructField σ)) (zero s : σ) (names : List String) (t : σ) : Prop :=
  ∀ f ∈ fields, f.get t = if f.tag ∈ names then f.get s else f.get zero

theorem Halfway.step (hl : LawfulFields fields) {zero s t : σ} {names : List String} {m : String × JsonValue}
    (hs : ∀ f ∈ fields, f.Restores zero s) (ht : Halfway fields zero s names t) (hm : Writes fields s m)
    (hnew : m.1 ∉ names) :
    ∃ t', decodeMember fields t m = some t' ∧ Halfway fields zero s (names ++ [m.1]) t' := by
  obtain ⟨f, hf, hname, j, henc, hre⟩ := hm
  have hget : f.get t = f.get zero := by rw [ht f hf, if_neg (hname ▸ hnew)]
  have hdec : f.dec (f.get zero) m.2 = some (f.get s) := by
    have hrestores := hs f hf
    rw [StructField.Restores, henc] at hrestores
    exact hrestores m.2 hre
  refine ⟨f.set (f.get s) t, by simp [decodeMember, hname, hl.findField hf, hget, hdec], fun g hg => ?_⟩
  by_cases htag : g.tag = f.tag
  · have heq : g = f := Option.some.inj ((hl.findField hg).symm.trans (htag ▸ hl.findField hf))
    subst heq
    rw [hl.get_set g hg, if_pos (by simp [hname])]
  · rw [hl.get_set_other hf hg htag, ht g hg]
    simp [hname, htag]

theorem Halfway.run (hl : LawfulFields fields) {zero s : σ} (hs : ∀ f ∈ fields, f.Restores zero s)
    {ms : List (String × JsonValue)} {names : List String} {t : σ} (ht : Halfway fields zero s names t)
    (hms : ∀ m ∈ ms, Writes fields s m) (hnew : (names ++ ms.map Prod.fst).Nodup) :
    ∃ t', ms.foldlM (decodeMember fields) t = some t' ∧ Halfway fields zero s (names ++ ms.map Prod.fst) t' := by
  induction ms generalizing names t with
  | nil => exact ⟨t, rfl, by simpa using ht⟩
  | cons m ms ih =>
    rw [List.map_cons, List.append_cons] at hnew ⊢
    have hname : m.1 ∉ names := by
      have hdisjoint := (List.nodup_append.1 (List.nodup_append.1 hnew).1).2.2
      exact fun hmem => hdisjoint m.1 hmem m.1 (by simp) rfl
    obtain ⟨t', hstep, ht'⟩ := ht.step hl hs (hms m List.mem_cons_self) hname
    obtain ⟨t'', hrun, ht''⟩ := ih ht' (fun m' hm' => hms m' (List.mem_cons_of_mem _ hm')) hnew
    exact ⟨t'', by rw [List.foldlM_cons, hstep]; exact hrun, ht''⟩

theorem names_encodeObject (fields : List (StructField σ)) (s : σ) :
    (fields.filterMap fun f => (f.enc (f.get s)).map fun j => (f.tag, j)).map Prod.fst =
      (fields.filter fun f => (f.enc (f.get s)).isSome).map StructField.tag := by
  induction fields with
  | nil => rfl
  | cons f fields ih => cases henc : f.enc (f.get s) <;> simp [henc, ih]

/-- A struct whose fields are restored is restored. -/
theorem restores_object (hl : LawfulFields fields) {zero s : σ} (hs : ∀ f ∈ fields, f.Restores zero s) :
    Restores (decodeObject fields) zero s (encodeObject fields s) := by
  intro j' hj
  obtain ⟨ms', rfl, hnames, hsource⟩ := reorders_obj hj
  rw [names_encodeObject] at hnames
  have hnodup : (ms'.map Prod.fst).Nodup := hnames.nodup_iff.2 (hl.tags.sublist (List.filter_sublist.map _))
  have hwrites : ∀ m ∈ ms', Writes fields s m := by
    intro m hm
    obtain ⟨j, hmem, hre⟩ := hsource m hm
    obtain ⟨f, hf, hwrite⟩ := List.mem_filterMap.1 hmem
    obtain ⟨j₀, henc, heq⟩ := Option.map_eq_some_iff.1 hwrite
    rw [Prod.mk.injEq] at heq
    exact ⟨f, hf, heq.1.symm, j₀, henc, heq.2 ▸ hre⟩
  have hzero : Halfway fields zero s [] zero := fun f _ => by simp
  obtain ⟨t, hrun, ht⟩ := hzero.run hl hs hwrites (by simpa using hnodup)
  refine hrun.trans (congrArg some (hl.ext t s fun f hf => ?_))
  rw [ht f hf, List.nil_append]
  split
  · rfl
  · -- a field that was left out
    rename_i hout
    have henc : f.enc (f.get s) = none := by
      by_contra hne
      exact hout (hnames.mem_iff.2 (List.mem_map_of_mem (List.mem_filter.2 ⟨hf, Option.isSome_iff_ne_none.2 hne⟩)))
    have hrestores := hs f hf
    rwa [StructField.Restores, henc] at hrestores

/-! ## What is read -/

/-- A property that reading one field keeps holds of whatever is read. -/
theorem decodeObject_inv (I : σ → Prop) (hstep : ∀ f ∈ fields, ∀ s x j, I s → f.dec (f.get s) j = some x → I (f.set x s))
    {s t : σ} {j : JsonValue} (hs : I s) (h : decodeObject fields s j = some t) : I t := by
  have hmember : ∀ s m t, I s → decodeMember fields s m = some t → I t := by
    intro s m t hs h
    unfold decodeMember at h
    split at h
    · exact Option.some.inj h ▸ hs
    · rename_i f hf
      have hmem : f ∈ fields := by
        rcases Option.or_eq_some_iff.1 hf with hf | ⟨-, hf⟩
        · exact List.mem_of_find?_eq_some hf
        · exact List.mem_of_find?_eq_some hf
      obtain ⟨x, hx, rfl⟩ := Option.map_eq_some_iff.1 h
      exact hstep f hmem s x m.2 hs hx
  cases j with
  | null => exact Option.some.inj h ▸ hs
  | obj members =>
    simp only [decodeObject] at h
    induction members generalizing s with
    | nil => exact Option.some.inj h ▸ hs
    | cons m members ih =>
      obtain ⟨s', hs', h⟩ := Option.bind_eq_some_iff.1 h
      exact ih (hmember s m s' hs hs') h
  | _ => cases h

end Lib
