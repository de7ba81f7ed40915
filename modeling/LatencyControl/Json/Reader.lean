import LatencyControl.Json.Basic

/-!
# Reading JSON

`Json.parse?` reads a document: one value, with blanks around it and nothing else.  The reader
works on the list of characters that are still to be read; every part of the grammar is a function
from such a list to a result and the rest of the list.  The depth of nesting is not limited, and
whether texts and numbers can be used is left to those who ask for them.

Values are read with fuel.  An array or an object takes two levels of recursion and reads at least
its opening bracket, an item or a field one level and at least one character, so twice the number
of characters is always enough.
-/

namespace LatencyControl.Json

/-- Blank characters between the parts of a document. -/
def isBlank (c : Char) : Bool := c == ' ' || c == '\n' || c == '\t' || c == '\r'

/-- What follows the blanks at the start. -/
def skipBlanks (cs : List Char) : List Char := cs.dropWhile isBlank

/-! ### Texts -/

/-- The value of a hexadecimal digit. -/
def hexValue? (c : Char) : Option Nat :=
  if '0' ≤ c ∧ c ≤ '9' then some (c.toNat - '0'.toNat)
  else if 'a' ≤ c ∧ c ≤ 'f' then some (c.toNat - 'a'.toNat + 10)
  else if 'A' ≤ c ∧ c ≤ 'F' then some (c.toNat - 'A'.toNat + 10)
  else none

/-- The number that four hexadecimal digits stand for. -/
def hexCode? (a b c d : Char) : Option Nat := do
  return (((← hexValue? a) * 16 + (← hexValue? b)) * 16 + (← hexValue? c)) * 16 + (← hexValue? d)

/-- Whether a code unit is the first half of a surrogate pair. -/
def isLeadingHalf (unit : Nat) : Bool := 0xD800 ≤ unit && unit < 0xDC00

/-- Whether a code unit is the second half of a surrogate pair. -/
def isTrailingHalf (unit : Nat) : Bool := 0xDC00 ≤ unit && unit < 0xE000

/-- The second half of a surrogate pair, if the characters start with the escape of one. -/
def trailingHalf? : List Char → Option (Nat × List Char)
  | '\\' :: 'u' :: a :: b :: c :: d :: rest => do
    let unit ← hexCode? a b c d
    if isTrailingHalf unit then some (unit, rest) else none
  | _ => none

/-- What a backslash and the given character stand for. -/
def simpleEscape? : Char → Option Char
  | '"' => some '"'
  | '\\' => some '\\'
  | '/' => some '/'
  | 'b' => some '\x08'
  | 'f' => some '\x0c'
  | 'n' => some '\n'
  | 'r' => some '\r'
  | 't' => some '\t'
  | _ => none

/-- Reads a text up to its closing quote.  `seen` holds the characters so far, the last one first,
or nothing if an escape did not stand for a character. -/
def readText (fuel : Nat) (seen : Option (List Char)) (cs : List Char) :
    Option (Option String × List Char) :=
  match fuel, cs with
  | _, '"' :: rest => some (seen.map (fun r => String.ofList r.reverse), rest)
  | fuel + 1, '\\' :: 'u' :: a :: b :: c :: d :: rest => do
    let unit ← hexCode? a b c d
    if isLeadingHalf unit then
      match trailingHalf? rest with
      | some (second, rest) =>
        let code := 0x10000 + (unit - 0xD800) * 0x400 + (second - 0xDC00)
        readText fuel (seen.map (Char.ofNat code :: ·)) rest
      | none => readText fuel none rest
    else if isTrailingHalf unit then readText fuel none rest
    else readText fuel (seen.map (Char.ofNat unit :: ·)) rest
  | fuel + 1, '\\' :: c :: rest => do
    let meant ← simpleEscape? c
    readText fuel (seen.map (meant :: ·)) rest
  | fuel + 1, c :: rest =>
    if c.toNat < 32 then none else readText fuel (seen.map (c :: ·)) rest
  | _, _ => none

/-! ### Numbers -/

/-- Whether a character is a decimal digit. -/
def isDigit (c : Char) : Bool := '0' ≤ c && c ≤ '9'

/-- The digits at the start, and what follows them. -/
def digits (cs : List Char) : List Nat × List Char :=
  ((cs.takeWhile isDigit).map (fun c => c.toNat - '0'.toNat), cs.dropWhile isDigit)

/-- At least one digit. -/
def digits? (cs : List Char) : Option (List Nat × List Char) :=
  match digits cs with
  | ([], _) => none
  | found => some found

/-- The digits of a whole number; it starts with zero only if it is zero. -/
def wholeDigits? (cs : List Char) : Option (List Nat × List Char) :=
  match digits cs with
  | ([], _) => none
  | (0 :: _ :: _, _) => none
  | found => some found

/-- The digits behind a decimal point, if there is one. -/
def fractionDigits? : List Char → Option (List Nat × List Char)
  | '.' :: rest => digits? rest
  | cs => some ([], cs)

/-- The sign and the digits of an exponent, if there is one. -/
def exponentDigits? : List Char → Option (Option (Bool × List Nat) × List Char)
  | c :: rest =>
    if c == 'e' || c == 'E' then
      let (negative, rest) := match rest with
        | '-' :: rest => (true, rest)
        | '+' :: rest => (false, rest)
        | rest => (false, rest)
      (digits? rest).map (fun (ds, rest) => (some (negative, ds), rest))
    else some (none, c :: rest)
  | [] => some (none, [])

/-- A number. -/
def readNumeral (cs : List Char) : Option (Numeral × List Char) := do
  let (negative, cs) := match cs with
    | '-' :: rest => (true, rest)
    | cs => (false, cs)
  let (whole, cs) ← wholeDigits? cs
  let (fraction, cs) ← fractionDigits? cs
  let (exponent, cs) ← exponentDigits? cs
  return (⟨negative, whole, fraction, exponent⟩, cs)

/-! ### Values -/

mutual

/-- A value and what follows it. -/
def readValue : Nat → List Char → Option (Json × List Char)
  | 0, _ => none
  | fuel + 1, cs =>
    match skipBlanks cs with
    | 'n' :: 'u' :: 'l' :: 'l' :: rest => some (.null, rest)
    | 't' :: 'r' :: 'u' :: 'e' :: rest => some (.bool true, rest)
    | 'f' :: 'a' :: 'l' :: 's' :: 'e' :: rest => some (.bool false, rest)
    | '"' :: rest => (readText rest.length (some []) rest).map (fun (s, rest) => (.string s, rest))
    | '[' :: rest =>
      match skipBlanks rest with
      | ']' :: rest => some (.array [], rest)
      | _ => (readItems fuel rest).map (fun (items, rest) => (.array items, rest))
    | '\x7b' :: rest =>
      match skipBlanks rest with
      | '\x7d' :: rest => some (.object [], rest)
      | _ => (readFields fuel rest).map (fun (fields, rest) => (.object fields, rest))
    | cs => (readNumeral cs).map (fun (n, rest) => (.number n, rest))

/-- At least one item, up to the closing bracket. -/
def readItems : Nat → List Char → Option (List Json × List Char)
  | 0, _ => none
  | fuel + 1, cs => do
    let (item, cs) ← readValue fuel cs
    match skipBlanks cs with
    | ',' :: rest =>
      let (items, rest) ← readItems fuel rest
      return (item :: items, rest)
    | ']' :: rest => return ([item], rest)
    | _ => none

/-- At least one field, up to the closing brace. -/
def readFields : Nat → List Char → Option (List (Option String × Json) × List Char)
  | 0, _ => none
  | fuel + 1, cs => do
    match skipBlanks cs with
    | '"' :: rest =>
      let (name, cs) ← readText rest.length (some []) rest
      match skipBlanks cs with
      | ':' :: rest =>
        let (value, cs) ← readValue fuel rest
        match skipBlanks cs with
        | ',' :: rest =>
          let (fields, rest) ← readFields fuel rest
          return ((name, value) :: fields, rest)
        | '\x7d' :: rest => return ([(name, value)], rest)
        | _ => none
      | _ => none
    | _ => none

end

/-- Reads a document. -/
def parse? (document : String) : Option Json :=
  let cs := document.toList
  match readValue (2 * cs.length + 1) cs with
  | some (value, rest) => if (skipBlanks rest).isEmpty then some value else none
  | none => none

end LatencyControl.Json
