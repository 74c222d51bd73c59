import Mathlib.Algebra.Group.Int.Defs
import Mathlib.Data.List.Basic
import Mathlib.Data.List.TakeWhile

/-!
# Wirekrak.Lib.JsonText — JSON texts: a reader, a compact printer, and their round trip

A text is a list of characters, each of which may be a byte; strings are compared as such lists.  The reader takes the
whole grammar: white space, all escapes, surrogate pairs, signs, fractions and exponents.  A number is its digits and a
power of ten.

* `read`: the value of a text, if the text is one value and nothing else.
* `print esc`: the compact text of a value, with the strings written by `esc`, character by character.
* `Escapes esc`: every character is written so that the reader gets it back.
* `read_print`: then the reader gets every value back.
-/

namespace Wirekrak.Lib.JsonText

inductive Value
  | null
  | bool (b : Bool)
  /-- `mantissa * 10 ^ exponent` -/
  | number (mantissa exponent : ℤ)
  | string (s : List Char)
  | array (elems : List Value)
  | object (members : List (List Char × Value))

/-! ## The reader -/

def isBlank (c : Char) : Bool := c = ' ' || c = '\t' || c = '\n' || c = '\r'

def skipBlanks (s : List Char) : List Char := s.dropWhile isBlank

def hexVal (c : Char) : Option ℕ :=
  if c.isDigit then some (c.toNat - '0'.toNat)
  else if 'a' ≤ c ∧ c ≤ 'f' then some (c.toNat - 'a'.toNat + 10)
  else if 'A' ≤ c ∧ c ≤ 'F' then some (c.toNat - 'A'.toNat + 10)
  else none

/-- Four hexadecimal digits. -/
def hex4 : List Char → Option (ℕ × List Char)
  | a :: b :: c :: d :: r => do
    let a ← hexVal a
    let b ← hexVal b
    let c ← hexVal c
    let d ← hexVal d
    return (((a * 16 + b) * 16 + c) * 16 + d, r)
  | _ => none

/-- The bytes of a code point in UTF-8. -/
def utf8 (n : ℕ) : List Char :=
  (if n < 0x80 then [n]
  else if n < 0x800 then [0xC0 + n / 64, 0x80 + n % 64]
  else if n < 0x10000 then [0xE0 + n / 4096, 0x80 + n / 64 % 64, 0x80 + n % 64]
  else [0xF0 + n / 262144, 0x80 + n / 4096 % 64, 0x80 + n / 64 % 64, 0x80 + n % 64]).map Char.ofNat

/-- What follows a backslash: the characters it stands for, and the rest. -/
def escaped : List Char → Option (List Char × List Char)
  | '"' :: r => some (['"'], r)
  | '\\' :: r => some (['\\'], r)
  | '/' :: r => some (['/'], r)
  | 'b' :: r => some (['\x08'], r)
  | 'f' :: r => some (['\x0c'], r)
  | 'n' :: r => some (['\n'], r)
  | 'r' :: r => some (['\r'], r)
  | 't' :: r => some (['\t'], r)
  | 'u' :: r => do
    let (n, r) ← hex4 r
    if 0xD800 ≤ n ∧ n < 0xDC00 then
      match r with
      | '\\' :: 'u' :: r => do
        let (m, r) ← hex4 r
        if 0xDC00 ≤ m ∧ m < 0xE000 then some (utf8 (0x10000 + (n - 0xD800) * 0x400 + (m - 0xDC00)), r) else none
      | _ => none
    else if 0xDC00 ≤ n ∧ n < 0xE000 then none
    else some (utf8 n, r)
  | _ => none

/-- A string behind its opening quote.  The first argument bounds the number of steps. -/
def stringBody : ℕ → List Char → Option (List Char × List Char)
  | 0, _ => none
  | _ + 1, [] => none
  | fuel + 1, c :: r =>
    if c = '"' then some ([], r)
    else if c = '\\' then do
      let (bs, r) ← escaped r
      let (s, r) ← stringBody fuel r
      return (bs ++ s, r)
    else if c.toNat < 0x20 then none
    else do
      let (s, r) ← stringBody fuel r
      return (c :: s, r)

/-- A sign or none, and whether it is a minus. -/
def sign (plus : Bool) : List Char → Bool × List Char
  | '-' :: r => (true, r)
  | '+' :: r => if plus then (false, r) else (false, '+' :: r)
  | r => (false, r)

def digits (s : List Char) : Option (List Char × List Char) :=
  if s.takeWhile Char.isDigit = [] then none else some (s.takeWhile Char.isDigit, s.dropWhile Char.isDigit)

def fraction : List Char → Option (List Char × List Char)
  | '.' :: r => digits r
  | r => some ([], r)

def exponent (s : List Char) : Option (ℤ × List Char) :=
  match s with
  | c :: r =>
    if c = 'e' ∨ c = 'E' then do
      let (ds, r') ← digits (sign true r).2
      return (if (sign true r).1 then -(Nat.ofDigitChars 10 ds 0 : ℤ) else Nat.ofDigitChars 10 ds 0, r')
    else some (0, c :: r)
  | [] => some (0, [])

def number (s : List Char) : Option (Value × List Char) := do
  let (ds, r) ← digits (sign false s).2
  if 1 < ds.length ∧ ds.head? = some '0' then none
  else
    let (fs, r) ← fraction r
    let (e, r) ← exponent r
    let m : ℤ := Nat.ofDigitChars 10 (ds ++ fs) 0
    return (.number (if (sign false s).1 then -m else m) (e - fs.length), r)

mutual

/-- A value and the rest of the text.  The first argument bounds the depth of the recursion. -/
def value : ℕ → List Char → Option (Value × List Char)
  | 0, _ => none
  | fuel + 1, s =>
    match skipBlanks s with
    | '"' :: r => do
      let (t, r') ← stringBody (r.length + 1) r
      return (.string t, r')
    | '[' :: r =>
      match skipBlanks r with
      | ']' :: r' => some (.array [], r')
      | _ => do
        let (vs, r') ← elements fuel r
        return (.array vs, r')
    | '{' :: r =>
      match skipBlanks r with
      | '}' :: r' => some (.object [], r')
      | _ => do
        let (ms, r') ← members fuel r
        return (.object ms, r')
    | 't' :: 'r' :: 'u' :: 'e' :: r => some (.bool true, r)
    | 'f' :: 'a' :: 'l' :: 's' :: 'e' :: r => some (.bool false, r)
    | 'n' :: 'u' :: 'l' :: 'l' :: r => some (.null, r)
    | r => number r

/-- The elements of an array from one of them on. -/
def elements : ℕ → List Char → Option (List Value × List Char)
  | 0, _ => none
  | fuel + 1, s => do
    let (v, r) ← value fuel s
    match skipBlanks r with
    | ',' :: r' => do
      let (vs, r'') ← elements fuel r'
      return (v :: vs, r'')
    | ']' :: r' => some ([v], r')
    | _ => none

/-- The members of an object from one of them on. -/
def members : ℕ → List Char → Option (List (List Char × Value) × List Char)
  | 0, _ => none
  | fuel + 1, s =>
    match skipBlanks s with
    | '"' :: r => do
      let (k, r) ← stringBody (r.length + 1) r
      match skipBlanks r with
      | ':' :: r => do
        let (v, r) ← value fuel r
        match skipBlanks r with
        | ',' :: r' => do
          let (ms, r'') ← members fuel r'
          return ((k, v) :: ms, r'')
        | '}' :: r' => some ([(k, v)], r')
        | _ => none
      | _ => none
    | _ => none

end

def read (s : List Char) : Option Value := do
  let (v, r) ← value (s.length + 1) s
  if skipBlanks r = [] then some v else none

/-! ## Access -/

namespace Value

def string? : Value → Option (List Char)
  | .string s => some s
  | _ => none

def bool? : Value → Option Bool
  | .bool b => some b
  | _ => none

/-- An integer, also if it is written with an exponent. -/
def int? : Value → Option ℤ
  | .number m e => if 0 ≤ e then some (m * 10 ^ e.toNat) else none
  | _ => none

def array? : Value → Option (List Value)
  | .array vs => some vs
  | _ => none

/-- The first member of that name. -/
def field? : Value → List Char → Option Value
  | .object ms, k => (ms.find? fun m => m.1 = k).map Prod.snd
  | _, _ => none

theorem field?_cons_self (k : List Char) (v : Value) (ms : List (List Char × Value)) :
    (object ((k, v) :: ms)).field? k = some v := by
  simp [field?]

theorem field?_cons_of_ne {k k' : List Char} (h : k' ≠ k) (v : Value) (ms : List (List Char × Value)) :
    (object ((k', v) :: ms)).field? k = (object ms).field? k := by
  simp [field?, h]

end Value

/-! ## The printer -/

/-- A string between its quotes. -/
def quote (esc : Char → List Char) (s : List Char) : List Char := '"' :: (s.flatMap esc ++ ['"'])

def printInt (n : ℤ) : List Char := if n < 0 then '-' :: Nat.toDigits 10 n.natAbs else Nat.toDigits 10 n.natAbs

def printNumber (m e : ℤ) : List Char := printInt m ++ if e = 0 then [] else 'e' :: printInt e

mutual

/-- The compact text of a value. -/
def print (esc : Char → List Char) : Value → List Char
  | .null => ['n', 'u', 'l', 'l']
  | .bool true => ['t', 'r', 'u', 'e']
  | .bool false => ['f', 'a', 'l', 's', 'e']
  | .number m e => printNumber m e
  | .string s => quote esc s
  | .array [] => ['[', ']']
  | .array (v :: vs) => '[' :: (print esc v ++ printElements esc vs)
  | .object [] => ['{', '}']
  | .object ((k, v) :: ms) => '{' :: (quote esc k ++ ':' :: (print esc v ++ printMembers esc ms))

/-- What follows an element of an array. -/
def printElements (esc : Char → List Char) : List Value → List Char
  | [] => [']']
  | v :: vs => ',' :: (print esc v ++ printElements esc vs)

/-- What follows a member of an object. -/
def printMembers (esc : Char → List Char) : List (List Char × Value) → List Char
  | [] => ['}']
  | (k, v) :: ms => ',' :: (quote esc k ++ ':' :: (print esc v ++ printMembers esc ms))

end

/-- Each character is written as itself or as an escape that stands for it. -/
def Escapes (esc : Char → List Char) : Prop :=
  ∀ c, (esc c = [c] ∧ c ≠ '"' ∧ c ≠ '\\' ∧ 0x20 ≤ c.toNat) ∨
    ∃ e, esc c = '\\' :: e ∧ ∀ r, escaped (e ++ r) = some ([c], r)

/-! ## Strings -/

variable {esc : Char → List Char}

theorem stringBody_quoted (h : Escapes esc) : ∀ (s : List Char) (rest : List Char) (fuel : ℕ),
    (s.flatMap esc ++ ['"']).length ≤ fuel → stringBody fuel (s.flatMap esc ++ '"' :: rest) = some (s, rest)
  | [], rest, fuel, hf => by
    obtain ⟨fuel, rfl⟩ : ∃ n, fuel = n + 1 := ⟨fuel - 1, by simp at hf; omega⟩
    simp [stringBody]
  | c :: s, rest, fuel, hf => by
    obtain ⟨fuel, rfl⟩ : ∃ n, fuel = n + 1 := ⟨fuel - 1, by simp at hf; omega⟩
    have ih := stringBody_quoted h s rest fuel
    rcases h c with ⟨e, hq, hb, hc⟩ | ⟨e, he, hr⟩
    · have := ih (by simp [e] at hf ⊢; omega)
      simp [e, stringBody, hq, hb, this, Nat.not_lt.mpr hc]
    · have := ih (by simp [he] at hf ⊢; omega)
      simp [he, stringBody, hr, this]

/-- A quoted string is read back with as many steps as there are characters left. -/
theorem stringBody_quote (h : Escapes esc) (s rest : List Char) :
    stringBody ((s.flatMap esc ++ '"' :: rest).length + 1) (s.flatMap esc ++ '"' :: rest) = some (s, rest) :=
  stringBody_quoted h s rest _ (by simp)

/-! ## Numbers -/

/-- No number goes on with this text. -/
def Ends (rest : List Char) : Prop := ∀ c ∈ rest.head?, c.isDigit = false ∧ c ≠ '.' ∧ c ≠ 'e' ∧ c ≠ 'E'

theorem ends_cons {c : Char} {r : List Char} (h : c.isDigit = false) (h' : c ≠ '.') (he : c ≠ 'e') (hE : c ≠ 'E') :
    Ends (c :: r) := by
  rintro d ⟨⟩
  exact ⟨h, h', he, hE⟩

theorem takeWhile_toDigits (n : ℕ) {rest : List Char} (h : ∀ c ∈ rest.head?, c.isDigit = false) :
    (Nat.toDigits 10 n ++ rest).takeWhile Char.isDigit = Nat.toDigits 10 n := by
  have hd : ∀ c ∈ Nat.toDigits 10 n, c.isDigit = true := fun c hc =>
    Nat.isDigit_of_mem_toDigits (by decide) (by decide) hc
  rw [List.takeWhile_append_of_pos hd]
  cases rest with
  | nil => simp
  | cons c r => rw [List.takeWhile_cons_of_neg (by simp [h c rfl]), List.append_nil]

theorem dropWhile_toDigits (n : ℕ) {rest : List Char} (h : ∀ c ∈ rest.head?, c.isDigit = false) :
    (Nat.toDigits 10 n ++ rest).dropWhile Char.isDigit = rest := by
  have hd : ∀ c ∈ Nat.toDigits 10 n, c.isDigit = true := fun c hc =>
    Nat.isDigit_of_mem_toDigits (by decide) (by decide) hc
  rw [List.dropWhile_append_of_pos hd]
  cases rest with
  | nil => rfl
  | cons c r => rw [List.dropWhile_cons_of_neg (by simp [h c rfl])]

theorem digits_toDigits (n : ℕ) {rest : List Char} (h : ∀ c ∈ rest.head?, c.isDigit = false) :
    digits (Nat.toDigits 10 n ++ rest) = some (Nat.toDigits 10 n, rest) := by
  rw [digits, takeWhile_toDigits n h, dropWhile_toDigits n h, if_neg Nat.toDigits_ne_nil]

/-- Only zero starts with a zero. -/
theorem head_toDigits : ∀ n : ℕ, 0 < n → (Nat.toDigits 10 n).head? ≠ some '0' := by
  intro n
  induction n using Nat.strongRecOn with
  | ind n ih =>
    intro hn
    rcases Nat.lt_or_ge n 10 with h | h
    · rw [Nat.toDigits_of_lt_base h]
      simp
      omega
    · rw [Nat.toDigits_of_base_le (by decide) h, List.head?_append_of_ne_nil _ Nat.toDigits_ne_nil]
      exact ih (n / 10) (by omega) (by omega)

theorem no_leading_zero (n : ℕ) : ¬ (1 < (Nat.toDigits 10 n).length ∧ (Nat.toDigits 10 n).head? = some '0') := by
  rintro ⟨hl, hz⟩
  rcases Nat.eq_zero_or_pos n with rfl | hn
  · simp at hl
  · exact head_toDigits n hn hz

theorem head_digits (n : ℕ) : ∃ c r, Nat.toDigits 10 n = c :: r ∧ c.isDigit = true := by
  cases h : Nat.toDigits 10 n with
  | nil => exact absurd h Nat.toDigits_ne_nil
  | cons c r => exact ⟨c, r, rfl, Nat.isDigit_of_mem_toDigits (by decide) (by decide) (h ▸ List.mem_cons_self)⟩

/-- A printed integer is its sign and its digits. -/
theorem sign_printInt (plus : Bool) (n : ℤ) (rest : List Char) :
    sign plus (printInt n ++ rest) = (decide (n < 0), Nat.toDigits 10 n.natAbs ++ rest) := by
  rw [printInt]
  by_cases h : n < 0
  · simp [h, sign]
  · obtain ⟨c, r, e, hc⟩ := head_digits n.natAbs
    rw [if_neg h, e, List.cons_append, sign.eq_def]
    split
    · rename_i heq
      obtain ⟨rfl, -⟩ := List.cons.inj heq
      simp [Char.isDigit] at hc
    · rename_i heq
      obtain ⟨rfl, -⟩ := List.cons.inj heq
      simp [Char.isDigit] at hc
    · simp [h]

theorem signed_natAbs (n : ℤ) : (if decide (n < 0) = true then -(n.natAbs : ℤ) else n.natAbs) = n := by
  by_cases h : n < 0
  · rw [if_pos (decide_eq_true h)]
    omega
  · rw [if_neg (by rw [decide_eq_true_eq]; exact h)]
    omega

theorem exponent_printed (e : ℤ) {rest : List Char} (h : Ends rest) :
    exponent ((if e = 0 then [] else 'e' :: printInt e) ++ rest) = some (e, rest) := by
  by_cases he : e = 0
  · cases rest with
    | nil => simp [he, exponent]
    | cons c r =>
      obtain ⟨-, -, h1, h2⟩ := h c rfl
      simp [he, exponent, h1, h2]
  · rw [if_neg he, List.cons_append, exponent, if_pos (Or.inl rfl), sign_printInt,
      digits_toDigits _ (fun c hc => (h c hc).1)]
    simp only [Option.bind_eq_bind, Option.bind_some, Nat.ofDigitChars_ten_toDigits]
    rw [signed_natAbs]
    rfl

theorem number_printed (m e : ℤ) {rest : List Char} (h : Ends rest) :
    number (printNumber m e ++ rest) = some (.number m e, rest) := by
  have hrest : ∀ c ∈ ((if e = 0 then [] else 'e' :: printInt e) ++ rest).head?, c.isDigit = false ∧ c ≠ '.' := by
    intro c hc
    by_cases he : e = 0
    · exact ⟨(h c (by simpa [he] using hc)).1, (h c (by simpa [he] using hc)).2.1⟩
    · simp only [he, if_false, List.cons_append, List.head?_cons, Option.mem_def, Option.some.injEq] at hc
      rw [← hc]
      decide
  have hfrac : fraction ((if e = 0 then [] else 'e' :: printInt e) ++ rest) =
      some ([], (if e = 0 then [] else 'e' :: printInt e) ++ rest) := by
    rw [fraction.eq_def]
    split
    · rename_i heq
      rw [heq] at hrest
      exact absurd rfl (hrest '.' rfl).2
    · rfl
  rw [number, printNumber, List.append_assoc, sign_printInt, digits_toDigits _ (fun c hc => (hrest c hc).1)]
  simp only [Option.bind_eq_bind, Option.bind_some, if_neg (no_leading_zero m.natAbs), hfrac, exponent_printed e h,
    List.append_nil, Nat.ofDigitChars_ten_toDigits]
  rw [signed_natAbs]
  simp

/-! ## Values -/

@[simp] theorem skipBlanks_cons {c : Char} {r : List Char} (h : isBlank c = false) : skipBlanks (c :: r) = c :: r := by
  rw [skipBlanks, List.dropWhile_cons_of_neg (by simp [h])]

/-- The text of a value starts neither with a blank nor with a closing bracket. -/
theorem head_print (esc : Char → List Char) (v : Value) :
    ∃ c r, print esc v = c :: r ∧ isBlank c = false ∧ c ≠ ']' := by
  have hn : ∀ m e : ℤ, ∃ c r, printNumber m e = c :: r ∧ isBlank c = false ∧ c ≠ ']' := by
    intro m e
    obtain ⟨c, r, hd, hc⟩ := head_digits m.natAbs
    by_cases hm : m < 0
    · exact ⟨'-', _, by rw [printNumber, printInt, if_pos hm, List.cons_append], by decide, by decide⟩
    · refine ⟨c, _, by rw [printNumber, printInt, if_neg hm, hd, List.cons_append], ?_, ?_⟩
      · simp only [isBlank, Bool.or_eq_false_iff, decide_eq_false_iff_not]
        refine ⟨⟨⟨?_, ?_⟩, ?_⟩, ?_⟩ <;> (rintro rfl; exact absurd hc (by decide))
      · rintro rfl
        exact absurd hc (by decide)
  cases v with
  | null => exact ⟨_, _, by rw [print], by decide, by decide⟩
  | bool b => cases b <;> exact ⟨_, _, by rw [print], by decide, by decide⟩
  | number m e => simpa only [print] using hn m e
  | string s => exact ⟨_, _, by rw [print, quote], by decide, by decide⟩
  | array vs => cases vs <;> exact ⟨_, _, by rw [print], by decide, by decide⟩
  | object ms => rcases ms with _ | ⟨⟨k, v⟩, ms⟩ <;> exact ⟨_, _, by rw [print], by decide, by decide⟩

/-- A text that starts with a sign or a digit is read as a number. -/
theorem value_of_number {fuel : ℕ} {c : Char} {r : List Char} (h : c = '-' ∨ c.isDigit = true) :
    value (fuel + 1) (c :: r) = number (c :: r) := by
  have hne : ∀ d : Char, d ≠ '-' → d.isDigit = false → c ≠ d := by
    rintro d h1 h2 rfl
    rcases h with h | h
    · exact h1 h
    · rw [h2] at h
      cases h
  have hb : isBlank c = false := by
    simp only [isBlank, Bool.or_eq_false_iff, decide_eq_false_iff_not]
    exact ⟨⟨⟨hne _ (by decide) (by decide), hne _ (by decide) (by decide)⟩, hne _ (by decide) (by decide)⟩,
      hne _ (by decide) (by decide)⟩
  rw [value, skipBlanks_cons hb]
  split <;> first
    | rfl
    | (rename_i heq; exact absurd (List.cons.inj heq).1 (hne _ (by decide) (by decide)))

theorem value_number (m e : ℤ) (fuel : ℕ) {rest : List Char} (h : Ends rest) :
    value (fuel + 1) (printNumber m e ++ rest) = some (.number m e, rest) := by
  obtain ⟨c, r, hd, hc⟩ := head_digits m.natAbs
  rw [← number_printed m e h]
  by_cases hm : m < 0
  · rw [printNumber, printInt, if_pos hm]
    exact value_of_number (Or.inl rfl)
  · rw [printNumber, printInt, if_neg hm, hd]
    exact value_of_number (Or.inr hc)

theorem ends_printElements (vs : List Value) (rest : List Char) : Ends (printElements esc vs ++ rest) := by
  cases vs <;> rw [printElements] <;> exact ends_cons (by decide) (by decide) (by decide) (by decide)

theorem ends_printMembers (ms : List (List Char × Value)) (rest : List Char) : Ends (printMembers esc ms ++ rest) := by
  rcases ms with _ | ⟨⟨k, v⟩, ms⟩ <;> rw [printMembers] <;>
    exact ends_cons (by decide) (by decide) (by decide) (by decide)

/-- The reader gets a value back from its text, whatever follows it. -/
def Readable (esc : Char → List Char) (v : Value) : Prop :=
  ∀ (rest : List Char) (fuel : ℕ), Ends rest → (print esc v).length ≤ fuel →
    value fuel (print esc v ++ rest) = some (v, rest)

mutual

theorem readable (h : Escapes esc) : ∀ v : Value, Readable esc v
  | .null, rest, fuel, _, hf => by
    obtain ⟨fuel, rfl⟩ : ∃ n, fuel = n + 1 := ⟨fuel - 1, by simp [print] at hf; omega⟩
    rfl
  | .bool true, rest, fuel, _, hf => by
    obtain ⟨fuel, rfl⟩ : ∃ n, fuel = n + 1 := ⟨fuel - 1, by simp [print] at hf; omega⟩
    rfl
  | .bool false, rest, fuel, _, hf => by
    obtain ⟨fuel, rfl⟩ : ∃ n, fuel = n + 1 := ⟨fuel - 1, by simp [print] at hf; omega⟩
    rfl
  | .number m e, rest, fuel, he, hf => by
    obtain ⟨fuel, rfl⟩ : ∃ n, fuel = n + 1 := by
      obtain ⟨c, r, e', -⟩ := head_print esc (.number m e)
      exact ⟨fuel - 1, by simp [e'] at hf; omega⟩
    rw [print]
    exact value_number m e fuel he
  | .string s, rest, fuel, _, hf => by
    obtain ⟨fuel, rfl⟩ : ∃ n, fuel = n + 1 := ⟨fuel - 1, by simp [print, quote] at hf; omega⟩
    rw [print, quote, value, List.cons_append, skipBlanks_cons (by decide), List.append_assoc]
    simp only [List.singleton_append, stringBody_quote h, Option.bind_eq_bind, Option.bind_some]
    rfl
  | .array [], rest, fuel, _, hf => by
    obtain ⟨fuel, rfl⟩ : ∃ n, fuel = n + 1 := ⟨fuel - 1, by simp [print] at hf; omega⟩
    rfl
  | .array (v :: vs), rest, fuel, _, hf => by
    obtain ⟨fuel, rfl⟩ : ∃ n, fuel = n + 1 := ⟨fuel - 1, by simp [print] at hf; omega⟩
    have ih := readElements h vs v (readable h v) rest fuel (by simp [print] at hf ⊢; omega)
    obtain ⟨c, r, hc, hb, hn⟩ := head_print esc v
    rw [print, value, List.cons_append, skipBlanks_cons (by decide)]
    simp only [hc, List.cons_append, List.append_assoc] at ih ⊢
    rw [skipBlanks_cons hb]
    split
    · rename_i heq
      exact absurd (List.cons.inj heq).1 hn
    · rw [ih]
      rfl
  | .object [], rest, fuel, _, hf => by
    obtain ⟨fuel, rfl⟩ : ∃ n, fuel = n + 1 := ⟨fuel - 1, by simp [print] at hf; omega⟩
    rfl
  | .object ((k, v) :: ms), rest, fuel, _, hf => by
    obtain ⟨fuel, rfl⟩ : ∃ n, fuel = n + 1 := ⟨fuel - 1, by simp [print] at hf; omega⟩
    have ih := readMembers h ms k v (readable h v) rest fuel (by simp [print] at hf ⊢; omega)
    rw [print, value, List.cons_append, skipBlanks_cons (by decide)]
    simp only [quote, List.cons_append, List.append_assoc] at ih ⊢
    rw [skipBlanks_cons (by decide)]
    simp only [ih, Option.bind_eq_bind, Option.bind_some]
    rfl

theorem readElements (h : Escapes esc) : ∀ (vs : List Value) (v : Value), Readable esc v →
    ∀ (rest : List Char) (fuel : ℕ), (print esc v ++ printElements esc vs).length ≤ fuel →
      elements fuel (print esc v ++ printElements esc vs ++ rest) = some (v :: vs, rest)
  | [], v, hv, rest, fuel, hf => by
    obtain ⟨fuel, rfl⟩ : ∃ n, fuel = n + 1 := ⟨fuel - 1, by simp [printElements] at hf; omega⟩
    rw [elements, List.append_assoc, hv _ fuel (ends_printElements [] rest) (by simp [printElements] at hf; omega)]
    simp only [printElements, Option.bind_eq_bind, Option.bind_some, List.singleton_append]
    rw [skipBlanks_cons (by decide)]
    rfl
  | w :: ws, v, hv, rest, fuel, hf => by
    obtain ⟨fuel, rfl⟩ : ∃ n, fuel = n + 1 := ⟨fuel - 1, by simp [printElements] at hf; omega⟩
    have ih := readElements h ws w (readable h w) rest fuel (by simp [printElements] at hf ⊢; omega)
    rw [elements, List.append_assoc, hv _ fuel (ends_printElements _ rest) (by simp [printElements] at hf; omega)]
    simp only [printElements, Option.bind_eq_bind, Option.bind_some, List.cons_append]
    rw [skipBlanks_cons (by decide)]
    simp only [ih, Option.bind_some]
    rfl

theorem readMembers (h : Escapes esc) : ∀ (ms : List (List Char × Value)) (k : List Char) (v : Value), Readable esc v →
    ∀ (rest : List Char) (fuel : ℕ), (quote esc k ++ ':' :: (print esc v ++ printMembers esc ms)).length ≤ fuel →
      members fuel (quote esc k ++ ':' :: (print esc v ++ printMembers esc ms) ++ rest) = some ((k, v) :: ms, rest)
  | [], k, v, hv, rest, fuel, hf => by
    obtain ⟨fuel, rfl⟩ : ∃ n, fuel = n + 1 := ⟨fuel - 1, by simp [printMembers] at hf; omega⟩
    have hv := hv (printMembers esc [] ++ rest) fuel (ends_printMembers [] rest)
      (by simp [printMembers, quote] at hf ⊢; omega)
    rw [members, quote, List.cons_append, List.cons_append, skipBlanks_cons (by decide)]
    simp only [List.append_assoc, List.cons_append, List.nil_append, stringBody_quote h, Option.bind_eq_bind,
      Option.bind_some]
    rw [skipBlanks_cons (by decide)]
    simp only [hv, Option.bind_some]
    simp only [printMembers, List.cons_append, List.nil_append]
    rw [skipBlanks_cons (by decide)]
    rfl
  | (l, w) :: ms, k, v, hv, rest, fuel, hf => by
    obtain ⟨fuel, rfl⟩ : ∃ n, fuel = n + 1 := ⟨fuel - 1, by simp [printMembers] at hf; omega⟩
    have ih := readMembers h ms l w (readable h w) rest fuel (by simp [printMembers] at hf ⊢; omega)
    have hv := hv (printMembers esc ((l, w) :: ms) ++ rest) fuel (ends_printMembers ((l, w) :: ms) rest)
      (by simp [printMembers, quote] at hf ⊢; omega)
    rw [members, quote, List.cons_append, List.cons_append, skipBlanks_cons (by decide)]
    simp only [List.append_assoc, List.cons_append, List.nil_append, stringBody_quote h, Option.bind_eq_bind,
      Option.bind_some]
    rw [skipBlanks_cons (by decide)]
    simp only [hv, Option.bind_some]
    simp only [printMembers, List.cons_append, List.append_assoc] at ih ⊢
    rw [skipBlanks_cons (by decide)]
    simp only [ih, Option.bind_some]
    rfl

end

/-- **A printed value is read back**, and nothing is left of its text. -/
theorem read_print (h : Escapes esc) (v : Value) : read (print esc v) = some v := by
  have := readable h v [] _ (by rintro c ⟨⟩) (Nat.le_succ (print esc v).length)
  rw [List.append_nil] at this
  rw [read, this]
  rfl

end Wirekrak.Lib.JsonText
