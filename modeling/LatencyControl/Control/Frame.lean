import LatencyControl.Control.Wire

/-!
# Frames

On a stream of bytes each message travels in a frame: four bytes for the length of its content,
highest byte first, and then the content.  A frame may hold at most eight mebibytes.

A `FrameReader` collects the bytes of a stream and takes frames off its front.  A length is taken
off as soon as it is complete, and the content when all of it has arrived.  A frame whose content is
not a message is taken off all the same, so that the stream can go on behind it.
-/

namespace LatencyControl

namespace Frame

/-- The greatest length of the content of a frame. -/
def limit : Nat := 8 * 1024 * 1024

/-- The bytes in front of a content of the given length. -/
def header (length : Nat) : List UInt8 := (Bytes.littleEndian 4 length).reverse

/-- A frame around a content, which must not be too long. -/
def ofContent (content : List UInt8) : Except Error (List UInt8) :=
  if content.length ≤ limit then .ok (header content.length ++ content)
  else .error (.io .invalidInput)

/-- A frame around a message. -/
def ofMessage (m : Message) : Except Error (List UInt8) := ofContent (Wire.ofMessage m)

/-- Appends the frame around a message to the bytes of a stream, unless it would be too long. -/
def append (m : Message) (stream : List UInt8) : Except Error Unit × List UInt8 :=
  match ofMessage m with
  | .ok frame => (.ok (), stream ++ frame)
  | .error e => (.error e, stream)

end Frame

/-- The bytes of a stream that have arrived and are not part of an earlier frame. -/
structure FrameReader where
  buffer : List UInt8 := []
  /-- The length of the content to come, if it was taken off already. -/
  awaited : Option Nat := none
  deriving DecidableEq, Repr

namespace FrameReader

/-- Appends bytes that have arrived. -/
def feed (r : FrameReader) (bytes : List UInt8) : FrameReader :=
  { r with buffer := r.buffer ++ bytes }

/-- Takes off a content of the given length, if all of it has arrived. -/
def takeContent (r : FrameReader) (length : Nat) : Option (List UInt8) × FrameReader :=
  if length ≤ r.buffer.length then
    (some (r.buffer.take length), { buffer := r.buffer.drop length })
  else (none, { r with awaited := some length })

/-- Takes off the next content, if all of it has arrived.  A length beyond the limit is an error and
stays where it is. -/
def next (r : FrameReader) : Except Error (Option (List UInt8)) × FrameReader :=
  match r.awaited with
  | some length => let (content, r) := r.takeContent length; (.ok content, r)
  | none =>
    if r.buffer.length < 4 then (.ok none, r)
    else
      let length := Bytes.ofLittleEndian (r.buffer.take 4).reverse
      if length ≤ Frame.limit then
        let (content, r) := { r with buffer := r.buffer.drop 4 : FrameReader }.takeContent length
        (.ok content, r)
      else (.error (.io .invalidData), r)

/-- Takes off the next message, if all of it has arrived. -/
def nextMessage (r : FrameReader) : Except Error (Option Message) × FrameReader :=
  match r.next with
  | (.ok (some content), r) => ((Wire.toMessage content).map some, r)
  | (.ok none, r) => (.ok none, r)
  | (.error e, r) => (.error e, r)

/-- Takes off the next message of a stream that has ended, where incomplete rests are an error. -/
def lastMessage (r : FrameReader) : Except Error (Option Message) × FrameReader :=
  match r.nextMessage with
  | (.ok none, r) => (if r.buffer.isEmpty then .ok none else .error (.io .other), r)
  | answer => answer

end FrameReader

end LatencyControl
