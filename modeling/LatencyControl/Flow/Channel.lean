import LatencyControl.Error
import LatencyControl.Millis

/-!
# Buffered channels

A channel collects records in a buffer and sends them when the buffer is full, or when a record is
written and the buffer is older than its target.  What is sent arrives if the receiver is there.

The age of a buffer is a difference of two readings of the clock.  Where it is nothing that the
clock can read, the program ends: `Channel.write?` has no outcome then, and else the one of
`Channel.write`.
-/

namespace LatencyControl

/-- A channel with records of type `ρ` and times of type `τ`. -/
structure Channel (τ ρ : Type) where
  id : ChannelId
  /-- How many records fill the buffer; at least one. -/
  limit : Nat
  buffer : List ρ := []
  /-- The age, in milliseconds, at which a buffer is sent. -/
  target : Option Int32 := none
  /-- When the first record of the buffer was written. -/
  openedAt : Option τ := none
  buffersSent : Nat := 0

namespace Channel

variable {τ ρ : Type}

/-- A channel whose buffers take the given number of records, or one if that is zero. -/
def ofLimit (id : ChannelId) (limit : Nat) : Channel τ ρ := { id, limit := max limit 1 }

/-- Sends the buffer.  Without a receiver its records are lost. -/
def flush (c : Channel τ ρ) (connected : Bool) : Except Error (List ρ) × Channel τ ρ :=
  if c.buffer.isEmpty then (.ok [], c)
  else if connected then
    (.ok c.buffer, { c with buffer := [], openedAt := none, buffersSent := c.buffersSent + 1 })
  else (.error (.receiverGone c.id), { c with buffer := [] })

/-- Puts a record into the buffer. -/
def push (c : Channel τ ρ) (now : τ) (record : ρ) : Channel τ ρ :=
  { c with
    buffer := c.buffer ++ [record]
    openedAt := if c.buffer.isEmpty then some now else c.openedAt }

/-- Whether the buffer is full. -/
def isFull (c : Channel τ ρ) : Bool := c.limit ≤ c.buffer.length

/-- Sets the age at which a buffer is sent. -/
def setTarget (c : Channel τ ρ) (target : Int32) : Channel τ ρ := { c with target := some target }

variable [Millis τ]

/-- Whether the buffer is as old as its target. -/
def isOverdue (c : Channel τ ρ) (now : τ) : Bool :=
  match c.target, c.openedAt with
  | some target, some opened => Millis.atMost (Millis.ofInt target.toInt) (Millis.sub now opened)
  | _, _ => false

/-- Writes a record; the answer holds the records that are sent at once. -/
def write (c : Channel τ ρ) (now : τ) (connected : Bool) (record : ρ) :
    Except Error (List ρ) × Channel τ ρ :=
  let c := c.push now record
  if c.isFull || c.isOverdue now then c.flush connected else (.ok [], c)

/-- Whether looking at the age of the buffer calculates a time that the clock cannot read. -/
def overflows (c : Channel τ ρ) (now : τ) : Bool :=
  match c.target, c.openedAt with
  | some _, some opened => !Millis.differenceFits now opened
  | _, _ => false

/-- Whether writing a record overflows: it looks at the age of the buffer unless that is full. -/
def overflowsAt (c : Channel τ ρ) (now : τ) (record : ρ) : Bool :=
  !(c.push now record).isFull && (c.push now record).overflows now

/-- Writes a record, unless that overflows. -/
def write? (c : Channel τ ρ) (now : τ) (connected : Bool) (record : ρ) :
    Option (Except Error (List ρ) × Channel τ ρ) :=
  if c.overflowsAt now record then none else some (c.write now connected record)

end Channel

end LatencyControl
