import LatencyControl.Ident
import LatencyControl.Text.Unprintable

/-!
# Quoted texts

A text is shown to people between double quotes.  Quotes and backslashes in it are marked with a
backslash, tabulator, line feed, carriage return and the null character have a letter or digit of
their own, and every other character that cannot be shown by itself is given by its code point.
-/

namespace LatencyControl.Text

/-- A code point in lower-case hexadecimal, without leading zeros. -/
def hexCode (code : Nat) : List Char := Nat.toDigits 16 code

/-- One character of a quoted text. -/
def quotedChar : Char → List Char
  | '"' => ['\\', '"']
  | '\\' => ['\\', '\\']
  | '\t' => ['\\', 't']
  | '\n' => ['\\', 'n']
  | '\r' => ['\\', 'r']
  | '\x00' => ['\\', '0']
  | c => if isUnprintable c then ['\\', 'u', '\x7b'] ++ hexCode c.toNat ++ ['\x7d'] else [c]

/-- A text between double quotes. -/
def quoted (s : String) : String :=
  String.ofList ('"' :: s.toList.flatMap quotedChar ++ ['"'])

end LatencyControl.Text

namespace LatencyControl

/-- An identifier together with its kind: the label, a colon and the quoted text. -/
def Ident.labelled {e : Entity} (id : Ident e) : String := e.label ++ ": " ++ Text.quoted id.text

end LatencyControl
