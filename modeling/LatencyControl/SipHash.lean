import LatencyControl.Bytes

/-!
# SipHash-1-3

The hash function SipHash with one round per word, three rounds at the end and both keys zero.  The
input is cut into words of eight bytes; the last word holds what remains, and the length of the
input in its highest byte.
-/

namespace LatencyControl

namespace SipHash

/-- The four words of the state. -/
structure State where
  v0 : UInt64
  v1 : UInt64
  v2 : UInt64
  v3 : UInt64
  deriving DecidableEq, Repr

/-- The state before any input. -/
def initial : State :=
  { v0 := 0x736f6d6570736575, v1 := 0x646f72616e646f6d
    v2 := 0x6c7967656e657261, v3 := 0x7465646279746573 }

/-- Turns the bits of a word to the left. -/
def rotate (x n : UInt64) : UInt64 := (x <<< n) ||| (x >>> (64 - n))

/-- One round. -/
def round (s : State) : State :=
  let v0 := s.v0 + s.v1
  let v1 := rotate s.v1 13 ^^^ v0
  let v0 := rotate v0 32
  let v2 := s.v2 + s.v3
  let v3 := rotate s.v3 16 ^^^ v2
  let v0 := v0 + v3
  let v3 := rotate v3 21 ^^^ v0
  let v2 := v2 + v1
  let v1 := rotate v1 17 ^^^ v2
  let v2 := rotate v2 32
  { v0, v1, v2, v3 }

/-- Takes in one word. -/
def absorb (s : State) (word : UInt64) : State :=
  let s := round { s with v3 := s.v3 ^^^ word }
  { s with v0 := s.v0 ^^^ word }

/-- The word that at most eight bytes stand for. -/
def word (bytes : List UInt8) : UInt64 := UInt64.ofNat (Bytes.ofLittleEndian bytes)

/-- Takes in all bytes of an input of the given length. -/
def absorbAll (length : Nat) (s : State) : List UInt8 → State
  | a :: b :: c :: d :: e :: f :: g :: h :: rest =>
    absorbAll length (absorb s (word [a, b, c, d, e, f, g, h])) rest
  | rest => absorb s (word rest ||| (UInt64.ofNat length <<< 56))

/-- Closes the state into a hash. -/
def finish (s : State) : UInt64 :=
  let s := round (round (round { s with v2 := s.v2 ^^^ 0xff }))
  s.v0 ^^^ s.v1 ^^^ s.v2 ^^^ s.v3

end SipHash

/-- The hash of some bytes. -/
def sipHash (bytes : List UInt8) : UInt64 :=
  SipHash.finish (SipHash.absorbAll bytes.length SipHash.initial bytes)

end LatencyControl
