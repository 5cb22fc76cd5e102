import MevShare.Lib.Decimal
import MevShare.Lib.Hex
import MevShare.Lib.JsonFields
/-!
# JSON as text

`printJson` writes a value as `encoding/json` does: without spaces, and with the
characters escaped that mean something to HTML. `parseJson` reads a text: there may
be spaces between the tokens, a number without a fraction and an exponent is an
integer, half of a surrogate pair is the replacement character, and arrays and
objects are nested at most `maxNestingDepth` deep. What is printed is read back
(`parseJson_printJson`), and so are its bytes (`unmarshalText_marshalText`).
-/

namespace Lib

def maxNestingDepth : Nat := 10000

/-! ## Printing -/

/-- The last four hexadecimal digits of a number. -/
def hex4 (n : Nat) : List Char :=
  [hexDigit (n / 4096 % 16), hexDigit (n / 256 % 16), hexDigit (n / 16 % 16), hexDigit (n % 16)]

/-- Control characters, what HTML gives a meaning to, and two line separators. -/
def special (c : Char) : Bool :=
  c.toNat < 0x20 || c = '<' || c = '>' || c = '&' || c.toNat = 0x2028 || c.toNat = 0x2029

def escapeChar (c : Char) : List Char :=
  if c = '"' ∨ c = '\\' then ['\\', c]
  else if c = '\n' then ['\\', 'n']
  else if c = '\r' then ['\\', 'r']
  else if c = '\t' then ['\\', 't']
  else if special c then '\\' :: 'u' :: hex4 c.toNat
  else [c]

def printString (s : String) : List Char := '"' :: (s.toList.flatMap escapeChar ++ ['"'])

mutual

def printJson : JsonValue → List Char
  | .null => ['n', 'u', 'l', 'l']
  | .bool true => ['t', 'r', 'u', 'e']
  | .bool false => ['f', 'a', 'l', 's', 'e']
  | .int n => intText n
  | .real text => text.toList
  | .str s => printString s
  | .arr elements => '[' :: ([','].intercalate (printElements elements) ++ [']'])
  | .obj members => '{' :: ([','].intercalate (printMembers members) ++ ['}'])

def printElements : List JsonValue → List (List Char)
  | [] => []
  | j :: js => printJson j :: printElements js

def printMembers : List (String × JsonValue) → List (List Char)
  | [] => []
  | m :: ms => printMember m :: printMembers ms

def printMember : String × JsonValue → List Char
  | (name, j) => printString name ++ ':' :: printJson j

end

/-! ## Parsing -/

def skipSpace (text : List Char) : List Char :=
  text.dropWhile fun c => c = ' ' || c = '\t' || c = '\n' || c = '\r'

/-- The character that stands after a backslash. -/
def unescape : Char → Option Char
  | '"' => some '"'
  | '\\' => some '\\'
  | '/' => some '/'
  | 'b' => some (Char.ofNat 0x8)
  | 'f' => some (Char.ofNat 0xc)
  | 'n' => some '\n'
  | 'r' => some '\r'
  | 't' => some '\t'
  | _ => none

/-- The rest of a string, and what follows it. An escape with four digits is left as a number. -/
def parseUnits : List Char → Option (List (Char ⊕ Nat) × List Char)
  | [] => none
  | '"' :: rest => some ([], rest)
  | '\\' :: 'u' :: a :: b :: c :: d :: rest => do
    let n ← readHexNumber [a, b, c, d]
    let (units, rest) ← parseUnits rest
    return (.inr n :: units, rest)
  | '\\' :: c :: rest => do
    let e ← unescape c
    let (units, rest) ← parseUnits rest
    return (.inl e :: units, rest)
  | c :: rest =>
    if c.toNat < 0x20 then none
    else do
      let (units, rest) ← parseUnits rest
      return (.inl c :: units, rest)

def surrogate (n : Nat) : Bool := 0xd800 ≤ n && n < 0xe000

/-- The character with this number; half of a pair is replaced. -/
def unitChar (n : Nat) : Char := if surrogate n then Char.ofNat 0xfffd else Char.ofNat n

/-- Two numbers that are a surrogate pair make one character. -/
def joinUnits : List (Char ⊕ Nat) → List Char
  | [] => []
  | .inl c :: rest => c :: joinUnits rest
  | .inr high :: .inr low :: rest =>
    if 0xd800 ≤ high ∧ high < 0xdc00 ∧ 0xdc00 ≤ low ∧ low < 0xe000 then
      Char.ofNat (0x10000 + (high - 0xd800) * 0x400 + (low - 0xdc00)) :: joinUnits rest
    else unitChar high :: joinUnits (.inr low :: rest)
  | .inr n :: rest => unitChar n :: joinUnits rest

def parseString (text : List Char) : Option (String × List Char) :=
  (parseUnits text).map fun p => (String.ofList (joinUnits p.1), p.2)

/-- The digits in front of a text. -/
def leadingDigits (text : List Char) : List Char := text.takeWhile Char.isDigit

def afterDigits (text : List Char) : List Char := text.dropWhile Char.isDigit

def parseFraction : List Char → Option (List Char × List Char)
  | '.' :: rest => if leadingDigits rest = [] then none else some ('.' :: leadingDigits rest, afterDigits rest)
  | rest => some ([], rest)

def exponentSign : List Char → List Char × List Char
  | '+' :: rest => (['+'], rest)
  | '-' :: rest => (['-'], rest)
  | rest => ([], rest)

def parseExponent : List Char → Option (List Char × List Char)
  | [] => some ([], [])
  | c :: rest =>
    if c = 'e' ∨ c = 'E' then
      let (sign, rest) := exponentSign rest
      if leadingDigits rest = [] then none else some (c :: sign ++ leadingDigits rest, afterDigits rest)
    else some ([], c :: rest)

def minus : List Char → Bool × List Char
  | '-' :: rest => (true, rest)
  | rest => (false, rest)

/-- A number has a digit, and no zero in front of others. -/
def parseNumber (text : List Char) : Option (JsonValue × List Char) :=
  let (neg, rest) := minus text
  let whole := leadingDigits rest
  if whole = [] ∨ (whole.head? = some '0' ∧ whole ≠ ['0']) then none
  else do
    let (fraction, rest) ← parseFraction (afterDigits rest)
    let (exponent, rest) ← parseExponent rest
    if fraction = [] ∧ exponent = [] then
      let n : Int := Nat.ofDigitChars 10 whole 0
      return (.int (if neg then -n else n), rest)
    else return (.real (String.ofList ((if neg then ['-'] else []) ++ whole ++ fraction ++ exponent)), rest)

mutual

/-- A value and what follows it; `depth` is how deep arrays and objects may still be nested. -/
def parseValue : Nat → Nat → List Char → Option (JsonValue × List Char)
  | 0, _, _ => none
  | fuel + 1, depth, text =>
    match skipSpace text with
    | 'n' :: 'u' :: 'l' :: 'l' :: rest => some (.null, rest)
    | 't' :: 'r' :: 'u' :: 'e' :: rest => some (.bool true, rest)
    | 'f' :: 'a' :: 'l' :: 's' :: 'e' :: rest => some (.bool false, rest)
    | '"' :: rest => (parseString rest).map fun p => (.str p.1, p.2)
    | '[' :: rest =>
      if depth = 0 then none
      else match skipSpace rest with
        | ']' :: rest => some (.arr [], rest)
        | rest => (parseElements fuel (depth - 1) rest).map fun p => (.arr p.1, p.2)
    | '{' :: rest =>
      if depth = 0 then none
      else match skipSpace rest with
        | '}' :: rest => some (.obj [], rest)
        | rest => (parseMembers fuel (depth - 1) rest).map fun p => (.obj p.1, p.2)
    | rest => parseNumber rest

/-- The elements of an array up to its end. -/
def parseElements : Nat → Nat → List Char → Option (List JsonValue × List Char)
  | 0, _, _ => none
  | fuel + 1, depth, text => do
    let (j, rest) ← parseValue fuel depth text
    match skipSpace rest with
    | ',' :: rest => (parseElements fuel depth rest).map fun p => (j :: p.1, p.2)
    | ']' :: rest => some ([j], rest)
    | _ => none

/-- The members of an object up to its end. -/
def parseMembers : Nat → Nat → List Char → Option (List (String × JsonValue) × List Char)
  | 0, _, _ => none
  | fuel + 1, depth, text =>
    match skipSpace text with
    | '"' :: rest => do
      let (name, rest) ← parseString rest
      match skipSpace rest with
      | ':' :: rest => do
        let (j, rest) ← parseValue fuel depth rest
        match skipSpace rest with
        | ',' :: rest => (parseMembers fuel depth rest).map fun p => ((name, j) :: p.1, p.2)
        | '}' :: rest => some ([(name, j)], rest)
        | _ => none
      | _ => none
    | _ => none

end

def parseJson (text : List Char) : Option JsonValue := do
  let (j, rest) ← parseValue text.length maxNestingDepth text
  if skipSpace rest = [] then some j else none

/-- The text in UTF-8. -/
def marshalText (j : JsonValue) : List UInt8 := (String.ofList (printJson j)).toUTF8.data.toList

/-- Bytes that are not UTF-8 are refused; `encoding/json` reads them as replacement characters in strings. -/
def unmarshalText (bytes : List UInt8) : Option JsonValue :=
  (String.fromUTF8? ⟨bytes.toArray⟩).bind fun s => parseJson s.toList

/-! ## What can be printed -/

/-- Integers only, and arrays and objects nested at most `n` deep. -/
inductive Writable : Nat → JsonValue → Prop
  | null {n} : Writable n .null
  | bool {n} (b : Bool) : Writable n (.bool b)
  | int {n} (z : Int) : Writable n (.int z)
  | str {n} (s : String) : Writable n (.str s)
  | arr {n js} : (∀ j ∈ js, Writable n j) → Writable (n + 1) (.arr js)
  | obj {n ms} : (∀ m ∈ ms, Writable n m.2) → Writable (n + 1) (.obj ms)

theorem Writable.mono {n m : Nat} {j : JsonValue} (h : Writable n j) (hle : n ≤ m) : Writable m j := by
  induction h generalizing m with
  | null => exact .null
  | bool b => exact .bool b
  | int z => exact .int z
  | str s => exact .str s
  | arr _ ih =>
    obtain ⟨m, rfl⟩ := Nat.exists_eq_succ_of_ne_zero (Nat.ne_zero_of_lt hle)
    exact .arr fun j hj => ih j hj (Nat.le_of_succ_le_succ hle)
  | obj _ ih =>
    obtain ⟨m, rfl⟩ := Nat.exists_eq_succ_of_ne_zero (Nat.ne_zero_of_lt hle)
    exact .obj fun m hm => ih m hm (Nat.le_of_succ_le_succ hle)

theorem writable_array {α : Type} {n : Nat} {enc : α → JsonValue} {l : List α} (h : ∀ x ∈ l, Writable n (enc x)) :
    Writable (n + 1) (.arr (l.map enc)) :=
  .arr (List.forall_mem_map.2 h)

/-- A struct is one level more than its fields. -/
theorem writable_object {σ : Type} {n : Nat} {fields : List (StructField σ)} {s : σ}
    (h : ∀ f ∈ fields, ∀ j ∈ f.enc (f.get s), Writable n j) : Writable (n + 1) (encodeObject fields s) := by
  refine .obj fun m hm => ?_
  obtain ⟨f, hf, hwrite⟩ := List.mem_filterMap.1 hm
  obtain ⟨j, hj, rfl⟩ := Option.map_eq_some_iff.1 hwrite
  exact h f hf j hj

/-! ## Strings -/

theorem readHexNumber_hex4 {n : Nat} (h : n < 65536) : readHexNumber (hex4 n) = some n := by
  have hvalue : n / 4096 % 16 * 4096 + n / 256 % 16 * 256 + n / 16 % 16 * 16 + n % 16 = n := by omega
  simp only [readHexNumber, hex4, List.foldlM_cons, List.foldlM_nil, Option.bind_eq_bind,
    hexValue_hexDigit (Nat.mod_lt _ (by decide : 16 > 0)), Option.map_some, Option.bind_some, Option.pure_def,
    Option.some.injEq]
  omega

/-- The unit stands for the character. -/
def Stands (u : Char ⊕ Nat) (c : Char) : Prop := u = .inl c ∨ u = .inr c.toNat ∧ surrogate c.toNat = false

theorem unitChar_toNat {c : Char} (h : surrogate c.toNat = false) : unitChar c.toNat = c := by
  rw [unitChar, h, if_neg Bool.false_ne_true, Char.ofNat_toNat]

theorem joinUnits_cons {u : Char ⊕ Nat} {c : Char} (h : Stands u c) (us : List (Char ⊕ Nat)) :
    joinUnits (u :: us) = c :: joinUnits us := by
  rcases h with rfl | ⟨rfl, hc⟩
  · rfl
  · have hchar := unitChar_toNat hc
    have hhigh : ¬(0xd800 ≤ c.toNat ∧ c.toNat < 0xdc00) := by
      simp only [surrogate, Bool.and_eq_false_iff, decide_eq_false_iff_not] at hc
      omega
    cases us with
    | nil => simp [joinUnits, hchar]
    | cons v us =>
      cases v with
      | inl d => simp [joinUnits, hchar]
      | inr n =>
        rw [joinUnits, if_neg fun hpair => hhigh ⟨hpair.1, hpair.2.1⟩, hchar]

theorem joinUnits_stands {us : List (Char ⊕ Nat)} {cs : List Char} (h : List.Forall₂ Stands us cs) : joinUnits us = cs := by
  induction h with
  | nil => rfl
  | cons hu _ ih => rw [joinUnits_cons hu, ih]

theorem special_bounds {c : Char} (h : special c) : c.toNat < 65536 ∧ surrogate c.toNat = false := by
  simp only [special, Bool.or_eq_true, decide_eq_true_eq] at h
  simp only [surrogate, Bool.and_eq_false_iff, decide_eq_false_iff_not]
  rcases h with ((((h | rfl) | rfl) | rfl) | h) | h
  · omega
  · decide
  · decide
  · decide
  · omega
  · omega

theorem parseUnits_backslash {e c : Char} (he : e ≠ 'u') (hc : unescape e = some c) (rest : List Char) :
    parseUnits ('\\' :: e :: rest) = (parseUnits rest).map fun p => (.inl c :: p.1, p.2) := by
  rw [parseUnits]
  · rw [hc]
    cases h : parseUnits rest <;> rfl
  · rintro a b c d rest rfl
    exact absurd rfl he

theorem parseUnits_hex4 {n : Nat} (h : n < 65536) (rest : List Char) :
    parseUnits ('\\' :: 'u' :: hex4 n ++ rest) = (parseUnits rest).map fun p => (.inr n :: p.1, p.2) := by
  have hread := readHexNumber_hex4 h
  rw [hex4] at hread
  simp only [hex4, List.cons_append, List.nil_append, parseUnits, hread]
  cases parseUnits rest <;> rfl

theorem parseUnits_plain {c : Char} (hquote : c ≠ '"') (hbackslash : c ≠ '\\') (hcontrol : ¬c.toNat < 0x20)
    (rest : List Char) : parseUnits (c :: rest) = (parseUnits rest).map fun p => (.inl c :: p.1, p.2) := by
  rw [parseUnits]
  · rw [if_neg hcontrol]
    cases parseUnits rest <;> rfl
  · exact hquote
  · exact fun a b d e rest heq _ => hbackslash heq
  · exact fun e rest heq _ => hbackslash heq

/-- An escape is read as the character it was made of. -/
theorem parseUnits_escapeChar (c : Char) :
    ∃ u, Stands u c ∧ ∀ rest, parseUnits (escapeChar c ++ rest) = (parseUnits rest).map fun p => (u :: p.1, p.2) := by
  unfold escapeChar
  split_ifs with hquote hn hr ht hspecial
  · refine ⟨.inl c, .inl rfl, fun rest => ?_⟩
    rcases hquote with rfl | rfl
    · exact parseUnits_backslash (by decide) rfl rest
    · exact parseUnits_backslash (by decide) rfl rest
  · exact ⟨.inl c, .inl rfl, fun rest => parseUnits_backslash (by decide) (by rw [hn]; rfl) rest⟩
  · exact ⟨.inl c, .inl rfl, fun rest => parseUnits_backslash (by decide) (by rw [hr]; rfl) rest⟩
  · exact ⟨.inl c, .inl rfl, fun rest => parseUnits_backslash (by decide) (by rw [ht]; rfl) rest⟩
  · obtain ⟨hlt, hsurrogate⟩ := special_bounds hspecial
    exact ⟨.inr c.toNat, .inr ⟨rfl, hsurrogate⟩, parseUnits_hex4 hlt⟩
  · obtain ⟨hne, hne'⟩ := not_or.1 hquote
    have hcontrol : ¬c.toNat < 0x20 := by
      simp only [special, Bool.or_eq_true, decide_eq_true_eq] at hspecial
      omega
    exact ⟨.inl c, .inl rfl, parseUnits_plain hne hne' hcontrol⟩

theorem parseUnits_escaped (cs rest : List Char) :
    ∃ us, List.Forall₂ Stands us cs ∧ parseUnits (cs.flatMap escapeChar ++ '"' :: rest) = some (us, rest) := by
  induction cs with
  | nil => exact ⟨[], .nil, rfl⟩
  | cons c cs ih =>
    obtain ⟨us, hus, hrest⟩ := ih
    obtain ⟨u, hu, hparse⟩ := parseUnits_escapeChar c
    refine ⟨u :: us, .cons hu hus, ?_⟩
    rw [List.flatMap_cons, List.append_assoc, hparse, hrest, Option.map_some]

theorem parseString_escaped (s : String) (rest : List Char) :
    parseString (s.toList.flatMap escapeChar ++ '"' :: rest) = some (s, rest) := by
  obtain ⟨us, hus, hparse⟩ := parseUnits_escaped s.toList rest
  rw [parseString, hparse, Option.map_some, joinUnits_stands hus, String.ofList_toList]

/-! ## Numbers -/

theorem head_toDigits {n : Nat} (h : (Nat.toDigits 10 n).head? = some '0') : n = 0 := by
  induction n using Nat.strong_induction_on with
  | h n ih =>
    by_cases hn : n < 10
    · rw [Nat.toDigits_of_lt_base hn] at h
      interval_cases n <;> first | rfl | exact absurd h (by decide)
    · rw [Nat.toDigits_of_base_le (by decide) (by omega), List.head?_append_of_ne_nil _ Nat.toDigits_ne_nil] at h
      have hzero := ih (n / 10) (by omega) h
      omega

/-- Nothing that would go on with a number. -/
def Stops (rest : List Char) : Prop := ∀ c ∈ rest.head?, c.isDigit = false ∧ c ≠ '.' ∧ c ≠ 'e' ∧ c ≠ 'E'

theorem leadingDigits_append {ds rest : List Char} (hds : ∀ c ∈ ds, c.isDigit) (hrest : Stops rest) :
    leadingDigits (ds ++ rest) = ds ∧ afterDigits (ds ++ rest) = rest := by
  rw [leadingDigits, afterDigits, List.takeWhile_append_of_pos hds, List.dropWhile_append_of_pos hds]
  cases rest with
  | nil => simp
  | cons c rest => simp [(hrest c rfl).1]

theorem minus_intText (z : Int) (rest : List Char) :
    minus (intText z ++ rest) = (decide (z < 0), Nat.toDigits 10 z.natAbs ++ rest) := by
  unfold intText
  split_ifs with hneg
  · simp [minus, hneg]
  · cases hdigits : Nat.toDigits 10 z.natAbs with
    | nil => exact absurd hdigits Nat.toDigits_ne_nil
    | cons c ds =>
      have hdigit : c.isDigit := isDigit_toDigits (hdigits ▸ List.mem_cons_self)
      simp only [List.nil_append, List.cons_append, minus, hneg, decide_false]
      split
      · rename_i heq
        cases heq
        exact absurd hdigit (by decide)
      · rfl

theorem parseFraction_stops {rest : List Char} (hrest : Stops rest) : parseFraction rest = some ([], rest) := by
  unfold parseFraction
  split
  · exact absurd rfl (hrest '.' rfl).2.1
  · rfl

theorem parseExponent_stops {rest : List Char} (hrest : Stops rest) : parseExponent rest = some ([], rest) := by
  unfold parseExponent
  split
  · rfl
  · rename_i c rest
    rw [if_neg (not_or.2 (hrest c rfl).2.2)]

theorem parseNumber_intText (z : Int) {rest : List Char} (hrest : Stops rest) :
    parseNumber (intText z ++ rest) = some (.int z, rest) := by
  obtain ⟨hleading, hafter⟩ := leadingDigits_append (fun c hc => isDigit_toDigits (n := z.natAbs) hc) hrest
  have hzero : ¬(Nat.toDigits 10 z.natAbs = [] ∨
      (Nat.toDigits 10 z.natAbs).head? = some '0' ∧ Nat.toDigits 10 z.natAbs ≠ ['0']) := by
    rintro (hnil | ⟨hhead, hne⟩)
    · exact Nat.toDigits_ne_nil hnil
    · rw [head_toDigits hhead] at hne
      exact hne rfl
  simp only [parseNumber, minus_intText, hleading, hafter, if_neg hzero, parseFraction_stops hrest,
    parseExponent_stops hrest, Option.bind_eq_bind, Option.bind_some, and_self, if_true,
    Nat.ofDigitChars_toDigits (by decide : 1 < 10) (by decide : 10 ≤ 10)]
  have hvalue : (if decide (z < 0) = true then -(z.natAbs : Int) else z.natAbs) = z := by
    split_ifs with hneg
    · simp only [decide_eq_true_eq] at hneg
      omega
    · simp only [decide_eq_true_eq] at hneg
      omega
  rw [hvalue]
  rfl

/-! ## Values -/

/-- A character that a value can start with. -/
def Begins (c : Char) : Prop := c.isDigit = true ∨ c ∈ ['n', 't', 'f', '"', '[', '{', '-']

theorem Begins.token {c : Char} (h : Begins c) : c ∉ [' ', '\t', '\n', '\r', ']', '}'] := by
  intro hc
  simp only [List.mem_cons, List.not_mem_nil, or_false] at hc
  rcases h with h | h
  · rcases hc with rfl | rfl | rfl | rfl | rfl | rfl <;> exact absurd h (by decide)
  · rcases hc with rfl | rfl | rfl | rfl | rfl | rfl <;> exact absurd h (by decide)

theorem skipSpace_token {c : Char} (hc : c ∉ [' ', '\t', '\n', '\r']) (rest : List Char) :
    skipSpace (c :: rest) = c :: rest := by
  simp only [List.mem_cons, List.not_mem_nil, or_false, not_or] at hc
  simp [skipSpace, hc]

theorem Begins.skipSpace {c : Char} (h : Begins c) (rest : List Char) : skipSpace (c :: rest) = c :: rest :=
  skipSpace_token (fun hc => h.token (by simp only [List.mem_cons, List.not_mem_nil, or_false] at hc ⊢; tauto)) rest

theorem intText_begins (z : Int) : ∃ c rest, intText z = c :: rest ∧ (c.isDigit ∨ c = '-') := by
  unfold intText
  split_ifs
  · exact ⟨'-', _, rfl, .inr rfl⟩
  · cases hdigits : Nat.toDigits 10 z.natAbs with
    | nil => exact absurd hdigits Nat.toDigits_ne_nil
    | cons c ds => exact ⟨c, ds, rfl, .inl (isDigit_toDigits (hdigits ▸ List.mem_cons_self))⟩

theorem printJson_begins {n : Nat} {j : JsonValue} (h : Writable n j) : ∃ c rest, printJson j = c :: rest ∧ Begins c := by
  cases h with
  | null => exact ⟨_, _, rfl, .inr (by decide)⟩
  | bool b => cases b <;> exact ⟨_, _, rfl, .inr (by decide)⟩
  | int z =>
    obtain ⟨c, rest, htext, hc⟩ := intText_begins z
    refine ⟨c, rest, htext, hc.imp id ?_⟩
    rintro rfl
    decide
  | str s => exact ⟨_, _, rfl, .inr (by decide)⟩
  | arr _ => exact ⟨_, _, rfl, .inr (by decide)⟩
  | obj _ => exact ⟨_, _, rfl, .inr (by decide)⟩

theorem stops_cons {c : Char} (hc : c.isDigit = false ∧ c ≠ '.' ∧ c ≠ 'e' ∧ c ≠ 'E') (rest : List Char) :
    Stops (c :: rest) := by
  rintro _ ⟨⟩
  exact hc

theorem parseValue_number {c : Char} (hc : c.isDigit ∨ c = '-') (fuel depth : Nat) (rest : List Char) :
    parseValue (fuel + 1) depth (c :: rest) = parseNumber (c :: rest) := by
  have hbegins : Begins c := hc.imp id fun heq => by rw [heq]; decide
  have hother : c ∉ ['n', 't', 'f', '"', '[', '{'] := by
    intro hmem
    simp only [List.mem_cons, List.not_mem_nil, or_false] at hmem
    rcases hmem with rfl | rfl | rfl | rfl | rfl | rfl <;> exact absurd hc (by decide)
  rw [parseValue, hbegins.skipSpace]
  split
  all_goals
    first
    | rfl
    | rename_i heq
      cases heq
      exact absurd hother (by decide)

/-- The value is read back from its text with this much room for nesting, whatever follows. -/
def ReadsBack (depth : Nat) (j : JsonValue) : Prop :=
  ∀ fuel rest, (printJson j).length ≤ fuel → Stops rest → parseValue fuel depth (printJson j ++ rest) = some (j, rest)

theorem parseElements_print {depth : Nat} {rest : List Char} {js : List JsonValue} (hne : js ≠ [])
    (h : ∀ j ∈ js, ReadsBack depth j) : ∀ fuel, ([','].intercalate (printElements js)).length < fuel →
      parseElements fuel depth ([','].intercalate (printElements js) ++ ']' :: rest) = some (js, rest) := by
  induction js with
  | nil => exact absurd rfl hne
  | cons j js ih =>
    intro fuel hfuel
    obtain ⟨fuel, rfl⟩ := Nat.exists_eq_succ_of_ne_zero (Nat.ne_zero_of_lt hfuel)
    have hj := h j List.mem_cons_self
    cases js with
    | nil =>
      simp only [printElements, List.intercalate_singleton] at hfuel ⊢
      rw [parseElements, hj fuel _ (by omega) (stops_cons (by decide) rest)]
      simp [skipSpace_token]
    | cons j' js =>
      have hrest := ih (by simp) (fun x hx => h x (List.mem_cons_of_mem _ hx)) fuel
      simp only [printElements, List.intercalate_cons_cons, List.append_assoc, List.cons_append, List.nil_append,
        List.length_append, List.length_cons] at hfuel hrest ⊢
      rw [parseElements, hj fuel _ (by omega) (stops_cons (by decide) _)]
      simp [skipSpace_token, hrest (by omega)]

theorem parseMembers_print {depth : Nat} {rest : List Char} {ms : List (String × JsonValue)} (hne : ms ≠ [])
    (h : ∀ m ∈ ms, ReadsBack depth m.2) : ∀ fuel, ([','].intercalate (printMembers ms)).length < fuel →
      parseMembers fuel depth ([','].intercalate (printMembers ms) ++ '}' :: rest) = some (ms, rest) := by
  induction ms with
  | nil => exact absurd rfl hne
  | cons m ms ih =>
    intro fuel hfuel
    obtain ⟨fuel, rfl⟩ := Nat.exists_eq_succ_of_ne_zero (Nat.ne_zero_of_lt hfuel)
    obtain ⟨name, j⟩ := m
    have hj := h (name, j) List.mem_cons_self
    cases ms with
    | nil =>
      simp only [printMembers, printMember, printString, List.intercalate_singleton, List.append_assoc, List.cons_append,
        List.nil_append, List.length_append, List.length_cons] at hfuel ⊢
      have hvalue := hj fuel ('}' :: rest) (by dsimp only; omega) (stops_cons (by decide) rest)
      simp [parseMembers, skipSpace_token, parseString_escaped, hvalue]
    | cons m' ms =>
      have hrest := ih (by simp) (fun x hx => h x (List.mem_cons_of_mem _ hx)) fuel
      simp only [printMembers, printMember, printString, List.intercalate_cons_cons, List.append_assoc, List.cons_append,
        List.nil_append, List.length_append, List.length_cons] at hfuel hrest ⊢
      have hvalue := hj fuel (',' :: ([','].intercalate (printMember m' :: printMembers ms) ++ '}' :: rest))
        (by dsimp only; omega) (stops_cons (by decide) _)
      simp [parseMembers, skipSpace_token, parseString_escaped, hvalue, hrest (by omega)]

theorem parseValue_arr {c : Char} (hc : Begins c) (fuel depth : Nat) (text : List Char) :
    parseValue (fuel + 1) (depth + 1) ('[' :: c :: text) =
      (parseElements fuel depth (c :: text)).map fun p => (.arr p.1, p.2) := by
  rw [parseValue, skipSpace_token (by decide)]
  simp only [Nat.add_one_ne_zero, ↓reduceIte, hc.skipSpace, Nat.add_sub_cancel]
  split
  · rename_i heq
    cases heq
    exact absurd hc.token (by decide)
  · rfl

theorem parseValue_obj {c : Char} (hc : Begins c) (fuel depth : Nat) (text : List Char) :
    parseValue (fuel + 1) (depth + 1) ('{' :: c :: text) =
      (parseMembers fuel depth (c :: text)).map fun p => (.obj p.1, p.2) := by
  rw [parseValue, skipSpace_token (by decide)]
  simp only [Nat.add_one_ne_zero, ↓reduceIte, hc.skipSpace, Nat.add_sub_cancel]
  split
  · rename_i heq
    cases heq
    exact absurd hc.token (by decide)
  · rfl

/-- A text that is put together starts with its first part. -/
theorem intercalate_begins {c : Char} {part text : List Char} (hpart : part = c :: text) (parts : List (List Char)) :
    ∃ rest, [','].intercalate (part :: parts) = c :: rest := by
  subst hpart
  cases parts with
  | nil => exact ⟨text, List.intercalate_singleton⟩
  | cons p ps => exact ⟨_, List.intercalate_cons_cons⟩

theorem fuel_pos {n fuel : Nat} {j : JsonValue} (h : Writable n j) (hfuel : (printJson j).length ≤ fuel) :
    ∃ f, fuel = f + 1 := by
  obtain ⟨c, rest, htext, -⟩ := printJson_begins h
  rw [htext, List.length_cons] at hfuel
  exact Nat.exists_eq_succ_of_ne_zero (by omega)

theorem readsBack_int (depth : Nat) (z : Int) : ReadsBack depth (.int z) := by
  intro fuel rest hfuel hrest
  obtain ⟨fuel, rfl⟩ := fuel_pos (n := 0) (.int z) hfuel
  obtain ⟨c, ds, htext, hc⟩ := intText_begins z
  rw [printJson, ← parseNumber_intText z hrest, htext, List.cons_append, parseValue_number hc]

theorem readsBack_str (depth : Nat) (s : String) : ReadsBack depth (.str s) := by
  intro fuel rest hfuel _
  obtain ⟨fuel, rfl⟩ := fuel_pos (n := 0) (.str s) hfuel
  have htext : printJson (.str s) ++ rest = '"' :: (s.toList.flatMap escapeChar ++ '"' :: rest) := by
    simp [printJson, printString]
  rw [htext, parseValue, skipSpace_token (by decide)]
  simp [parseString_escaped]

theorem readsBack_arr {n depth : Nat} {js : List JsonValue} (hjs : ∀ j ∈ js, Writable n j)
    (hback : ∀ j ∈ js, ReadsBack depth j) : ReadsBack (depth + 1) (.arr js) := by
  intro fuel rest hfuel _
  obtain ⟨fuel, rfl⟩ := fuel_pos (.arr hjs) hfuel
  simp only [printJson, List.length_cons, List.length_append] at hfuel
  cases js with
  | nil => simp [printJson, printElements, parseValue, skipSpace_token]
  | cons j js =>
    obtain ⟨c, _, hfirst, hc⟩ := printJson_begins (hjs j List.mem_cons_self)
    obtain ⟨text, htext⟩ := intercalate_begins hfirst (printElements js)
    have helements := @parseElements_print depth rest (j :: js) (by simp) hback fuel (by omega)
    rw [printElements, htext, List.cons_append] at helements
    rw [printJson, printElements, htext, List.cons_append, List.append_assoc, List.cons_append, parseValue_arr hc]
    exact (congrArg _ helements).trans rfl

theorem readsBack_obj {n depth : Nat} {ms : List (String × JsonValue)} (hms : ∀ m ∈ ms, Writable n m.2)
    (hback : ∀ m ∈ ms, ReadsBack depth m.2) : ReadsBack (depth + 1) (.obj ms) := by
  intro fuel rest hfuel _
  obtain ⟨fuel, rfl⟩ := fuel_pos (.obj hms) hfuel
  simp only [printJson, List.length_cons, List.length_append] at hfuel
  cases ms with
  | nil => simp [printJson, printMembers, parseValue, skipSpace_token]
  | cons m ms =>
    have hfirst : printMember m = '"' :: (m.1.toList.flatMap escapeChar ++ ['"'] ++ ':' :: printJson m.2) := by
      rw [printMember, printString, List.cons_append]
    obtain ⟨text, htext⟩ := intercalate_begins hfirst (printMembers ms)
    have hmembers := @parseMembers_print depth rest (m :: ms) (by simp) hback fuel (by omega)
    rw [printMembers, htext, List.cons_append] at hmembers
    rw [printJson, printMembers, htext, List.cons_append, List.append_assoc, List.cons_append,
      parseValue_obj (.inr (by decide))]
    exact (congrArg _ hmembers).trans rfl

/-- A printed value is read back if there is room for it. -/
theorem readsBack_of_writable {n : Nat} {j : JsonValue} (h : Writable n j) : ∀ depth, n ≤ depth → ReadsBack depth j := by
  induction h with
  | null =>
    intro depth _ fuel rest hfuel _
    obtain ⟨fuel, rfl⟩ := fuel_pos (n := 0) .null hfuel
    rfl
  | bool b =>
    intro depth _ fuel rest hfuel _
    obtain ⟨fuel, rfl⟩ := fuel_pos (n := 0) (.bool b) hfuel
    cases b <;> rfl
  | int z => exact fun depth _ => readsBack_int depth z
  | str s => exact fun depth _ => readsBack_str depth s
  | arr hjs ih =>
    intro depth hdepth
    obtain ⟨depth, rfl⟩ := Nat.exists_eq_succ_of_ne_zero (Nat.ne_zero_of_lt hdepth)
    exact readsBack_arr hjs fun j hj => ih j hj depth (Nat.le_of_succ_le_succ hdepth)
  | obj hms ih =>
    intro depth hdepth
    obtain ⟨depth, rfl⟩ := Nat.exists_eq_succ_of_ne_zero (Nat.ne_zero_of_lt hdepth)
    exact readsBack_obj hms fun m hm => ih m hm depth (Nat.le_of_succ_le_succ hdepth)

theorem parseJson_printJson {j : JsonValue} (h : Writable maxNestingDepth j) : parseJson (printJson j) = some j := by
  have hread := readsBack_of_writable h maxNestingDepth (Nat.le_refl _) (printJson j).length [] (Nat.le_refl _) nofun
  rw [List.append_nil] at hread
  rw [parseJson, hread]
  rfl

theorem unmarshalText_marshalText {j : JsonValue} (h : Writable maxNestingDepth j) :
    unmarshalText (marshalText j) = some j := by
  have hbytes : String.fromUTF8? ⟨(marshalText j).toArray⟩ = some (String.ofList (printJson j)) := by
    rw [marshalText, Array.toArray_toList]
    exact dif_pos (String.isValidUTF8 _)
  rw [unmarshalText, hbytes, Option.bind_some, String.toList_ofList, parseJson_printJson h]

end Lib
