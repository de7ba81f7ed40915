import LatencyControl.Bytes
import LatencyControl.Control.Action

/-!
# Messages as bytes

A message is written as its job, a number for the kind of its action, and the fields of the action.
Numbers have a fixed width and start with their lowest byte.  A text is its length followed by its
bytes in UTF-8; a list is its length followed by its items.

Reading takes what it needs from the front of the bytes, and what comes after a message does not
matter.  The first fault met is the one reported.  A message that makes no sense is refused like one
that cannot be read: its action as soon as the action has been read, its job last.
-/

namespace LatencyControl

namespace Wire

/-! ### Writing -/

/-- The bytes of a length. -/
def ofLength (n : Nat) : List UInt8 := Bytes.littleEndian 8 n

/-- The bytes of an integer. -/
def ofInt32 (i : Int32) : List UInt8 := Bytes.littleEndian 4 i.toUInt32.toNat

/-- The bytes of a text. -/
def ofString (s : String) : List UInt8 := ofLength s.utf8ByteSize ++ s.toUTF8.toList

/-- The bytes of an identifier. -/
def ofIdent {e : Entity} (i : Ident e) : List UInt8 := ofString i.text

/-- The bytes of a list. -/
def ofList {α : Type} (item : α → List UInt8) (items : List α) : List UInt8 :=
  ofLength items.length ++ items.flatMap item

/-- The number for the kind of an action. -/
def tag : Action → Nat
  | .limitBufferSize .. => 0
  | .setLifetimeTarget .. => 1
  | .establishChain _ => 2
  | .dropChain .. => 3

/-- The bytes of the fields of an action. -/
def ofFields : Action → List UInt8
  | .limitBufferSize member gate channel size =>
    ofIdent member ++ ofIdent gate ++ ofIdent channel ++ ofInt32 size
  | .setLifetimeTarget member gate channel target =>
    ofIdent member ++ ofIdent gate ++ ofIdent channel ++ ofInt32 target
  | .establishChain members => ofList ofIdent members
  | .dropChain member gate => ofIdent member ++ ofIdent gate

/-- The bytes of a message. -/
def ofMessage (m : Message) : List UInt8 :=
  ofIdent m.job ++ Bytes.littleEndian 4 (tag m.action) ++ ofFields m.action

/-! ### Reading -/

/-- Reads something from the front of some bytes, and leaves the rest. -/
abbrev Reading := StateT (List UInt8) (Except Error)

/-- Takes a number of bytes. -/
def take (n : Nat) : Reading (List UInt8) := fun bytes =>
  if n ≤ bytes.length then .ok (bytes.take n, bytes.drop n) else .error .wireExhausted

/-- Reads a length. -/
def length : Reading Nat := Bytes.ofLittleEndian <$> take 8

/-- Reads an integer. -/
def int32 : Reading Int32 :=
  (fun bytes => (UInt32.ofNat (Bytes.ofLittleEndian bytes)).toInt32) <$> take 4

/-- Reads a text. -/
def string : Reading String := do
  let bytes ← take (← length)
  match String.fromUTF8? ⟨bytes.toArray⟩ with
  | some s => return s
  | none => throw .wireNotUtf8

/-- Reads an identifier. -/
def ident {e : Entity} : Reading (Ident e) := Ident.mk <$> string

/-- Reads a number of items. -/
def items {α : Type} (item : Reading α) : Nat → Reading (List α)
  | 0 => return []
  | n + 1 => return (← item) :: (← items item n)

/-- Reads a list. -/
def list {α : Type} (item : Reading α) : Reading (List α) := do items item (← length)

/-- Reads the fields of an action of the kind with the given number. -/
def fields : Nat → Reading Action
  | 0 => return .limitBufferSize (← ident) (← ident) (← ident) (← int32)
  | 1 => return .setLifetimeTarget (← ident) (← ident) (← ident) (← int32)
  | 2 => return .establishChain (← list ident)
  | 3 => return .dropChain (← ident) (← ident)
  | other => throw (.wireUnknownAction other)

/-- Refuses what a check has refused. -/
def accept {α : Type} : Except Error α → Reading α
  | .ok a => return a
  | .error cause => throw (.wireRejected cause)

/-- Reads a message. -/
def message : Reading Message := do
  let job ← ident
  let tag ← Bytes.ofLittleEndian <$> take 4
  let action ← fields tag
  accept action.check
  accept (job.require "jobID")
  return { job, action }

/-- The message at the front of some bytes. -/
def toMessage (bytes : List UInt8) : Except Error Message := (message.run bytes).map Prod.fst

end Wire

end LatencyControl
