import LatencyControl.Json.Basic

/-!
# Writing JSON

`Json.compact` writes a value without any blanks, `Json.pretty` one item or field to a line,
indented by two blanks per level.  Both escape quotes, backslashes and control characters in texts
and nothing else.
-/

namespace LatencyControl.Json

/-- The two lower-case hexadecimal digits of a number below 256. -/
def hexByte (n : Nat) : List Char := [Nat.digitChar (n / 16 % 16), Nat.digitChar (n % 16)]

/-- One character of a text. -/
def escapedChar : Char → List Char
  | '"' => ['\\', '"']
  | '\\' => ['\\', '\\']
  | '\x08' => ['\\', 'b']
  | '\t' => ['\\', 't']
  | '\n' => ['\\', 'n']
  | '\x0c' => ['\\', 'f']
  | '\r' => ['\\', 'r']
  | c => if c.toNat < 32 then ['\\', 'u', '0', '0'] ++ hexByte c.toNat else [c]

/-- A text between quotes. -/
def textChars (s : String) : List Char := '"' :: s.toList.flatMap escapedChar ++ ['"']

/-- An unreadable text has no written form; it is written as an empty one. -/
def optionalTextChars (s : Option String) : List Char := textChars (s.getD "")

/-! ### Without blanks -/

mutual

/-- A value without blanks. -/
def compactChars : Json → List Char
  | .null => ['n', 'u', 'l', 'l']
  | .bool true => ['t', 'r', 'u', 'e']
  | .bool false => ['f', 'a', 'l', 's', 'e']
  | .number value => value.toChars
  | .string text => optionalTextChars text
  | .array [] => ['[', ']']
  | .array (item :: rest) => '[' :: (compactChars item ++ compactItems rest)
  | .object [] => ['\x7b', '\x7d']
  | .object ((name, value) :: rest) =>
    '\x7b' :: (optionalTextChars name ++ ':' :: (compactChars value ++ compactFields rest))

/-- The items after the first, and the closing bracket. -/
def compactItems : List Json → List Char
  | [] => [']']
  | item :: rest => ',' :: (compactChars item ++ compactItems rest)

/-- The fields after the first, and the closing brace. -/
def compactFields : List (Option String × Json) → List Char
  | [] => ['\x7d']
  | (name, value) :: rest =>
    ',' :: (optionalTextChars name ++ ':' :: (compactChars value ++ compactFields rest))

end

/-- The text of a value, without blanks. -/
def compact (value : Json) : String := String.ofList (compactChars value)

/-! ### One item to a line -/

/-- The start of a line at a level of nesting. -/
def newLine (level : Nat) : List Char := '\n' :: List.replicate (2 * level) ' '

mutual

/-- A value at a level of nesting. -/
def prettyChars (level : Nat) : Json → List Char
  | .array [] => ['[', ']']
  | .array (item :: rest) =>
    '[' :: (newLine (level + 1) ++ (prettyChars (level + 1) item ++ prettyItems level rest))
  | .object [] => ['\x7b', '\x7d']
  | .object ((name, value) :: rest) =>
    '\x7b' :: (newLine (level + 1) ++ (optionalTextChars name ++ ':' :: ' '
      :: (prettyChars (level + 1) value ++ prettyFields level rest)))
  | .null => ['n', 'u', 'l', 'l']
  | .bool true => ['t', 'r', 'u', 'e']
  | .bool false => ['f', 'a', 'l', 's', 'e']
  | .number value => value.toChars
  | .string text => optionalTextChars text

/-- The items after the first, and the closing bracket. -/
def prettyItems (level : Nat) : List Json → List Char
  | [] => newLine level ++ [']']
  | item :: rest =>
    ',' :: (newLine (level + 1) ++ (prettyChars (level + 1) item ++ prettyItems level rest))

/-- The fields after the first, and the closing brace. -/
def prettyFields (level : Nat) : List (Option String × Json) → List Char
  | [] => newLine level ++ ['\x7d']
  | (name, value) :: rest =>
    ',' :: (newLine (level + 1) ++ (optionalTextChars name ++ ':' :: ' '
      :: (prettyChars (level + 1) value ++ prettyFields level rest)))

end

/-- The text of a value, one item or field to a line. -/
def pretty (value : Json) : String := String.ofList (prettyChars 0 value)

example : (record [("a", .array [.nat 10, .null]), ("b", .object [])]).compact =
    "\x7b\"a\":[10,null],\"b\":\x7b\x7d\x7d" := by decide +kernel

example : (record [("a", .array [.bool true]), ("b", .array [])]).pretty =
    "\x7b\n  \"a\": [\n    true\n  ],\n  \"b\": []\n\x7d" := by decide +kernel

end LatencyControl.Json
