import LatencyControl.SipHash

/-!
# Selecting channels

An output gate asks its selector which of its channels a record goes to.
-/

namespace LatencyControl

/-- A way of selecting channels for records of type `ρ`. -/
inductive Selector (ρ : Type)
  /-- One channel after the other; holds the channel that is next. -/
  | roundRobin (next : Nat)
  /-- All channels. -/
  | broadcast
  /-- The same channel for all records with the same key. -/
  | byKey (key : ρ → List UInt8)

namespace Selector

variable {ρ : Type}

/-- The channels for a record, out of a number of channels, and the selector for the next record. -/
def select (s : Selector ρ) (record : ρ) (channels : Nat) : List Nat × Selector ρ :=
  match s with
  | .roundRobin next =>
    if channels = 0 then ([], s)
    else ([next % channels], .roundRobin ((next % channels + 1) % channels))
  | .broadcast => (List.range channels, s)
  | .byKey key =>
    if channels = 0 then ([], s) else ([(sipHash (key record)).toNat % channels], s)

end Selector

/-- The bytes of an integer as a key. -/
def integerKey (i : Int64) : List UInt8 := Bytes.littleEndian 8 i.toUInt64.toNat

/-- The bytes of a text as a key: those of its UTF-8 form and one that no text has. -/
def textKey (s : String) : List UInt8 := s.toUTF8.toList ++ [0xff]

end LatencyControl
