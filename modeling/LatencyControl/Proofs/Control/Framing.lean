import LatencyControl.Control.Frame
import LatencyControl.Proofs.Control.Reading

/-!
# Messages in frames

A frame that has arrived as a whole is taken off the stream, and just this frame
(`FrameReader.nextMessage_frame`).  So a message that fits into a frame gets through, if it makes
sense: the reader finds the message that could have been created from the fields in the frame, and
refuses fields that no message could have been created from (`FrameReader.nextMessage_append`).
-/

namespace LatencyControl

namespace Frame

/-- The frame around a content. -/
def around (content : List UInt8) : List UInt8 := header content.length ++ content

theorem ofContent_eq_ite (content : List UInt8) :
    ofContent content =
      if content.length ≤ limit then .ok (around content) else .error (.io .invalidInput) := rfl

theorem length_header (length : Nat) : (header length).length = 4 := by
  rw [header, List.length_reverse, Bytes.length_littleEndian]

theorem take_header (length : Nat) (bytes : List UInt8) :
    (header length ++ bytes).take 4 = header length := by
  rw [← length_header length, List.take_left]

theorem drop_header (length : Nat) (bytes : List UInt8) :
    (header length ++ bytes).drop 4 = bytes := by
  rw [← length_header length, List.drop_left]

/-- A length within the limit can be told from its header. -/
theorem ofLittleEndian_header {length : Nat} (h : length ≤ limit) :
    Bytes.ofLittleEndian (header length).reverse = length := by
  have hbound : length < 256 ^ 4 := Nat.lt_of_le_of_lt h (by decide)
  rw [header, List.reverse_reverse, Bytes.ofLittleEndian_littleEndian, Nat.pow_eq,
    Nat.mod_eq_of_lt hbound]

end Frame

namespace FrameReader

/-! ### Taking contents off -/

/-- A content that is awaited and has arrived is taken off. -/
theorem next_of_awaited (content rest : List UInt8) :
    next { buffer := content ++ rest, awaited := some content.length } =
      (.ok (some content), { buffer := rest }) := by
  simp [next, takeContent]

/-- A content that has not all arrived is awaited. -/
theorem next_of_missing {part : List UInt8} {length : Nat} (h : part.length < length) :
    next { buffer := part, awaited := some length } =
      (.ok none, { buffer := part, awaited := some length }) := by
  simp [next, takeContent, Nat.not_le.mpr h]

/-- A header that has arrived is taken off, whatever comes after it. -/
theorem next_of_header {length : Nat} (h : length ≤ Frame.limit) (bytes : List UInt8) :
    next { buffer := Frame.header length ++ bytes } =
      next { buffer := bytes, awaited := some length } := by
  have hlong : ¬ (Frame.header length ++ bytes).length < 4 := by
    rw [List.length_append, Frame.length_header]
    omega
  simp only [next, takeContent, hlong, Frame.take_header, Frame.drop_header,
    Frame.ofLittleEndian_header h, h, if_false, if_true]

/-- Less than a header tells nothing. -/
theorem next_of_short {bytes : List UInt8} (h : bytes.length < 4) :
    next { buffer := bytes } = (.ok none, { buffer := bytes }) := by
  simp [next, h]

/-! ### Taking messages off -/

/-- A frame that has arrived is taken off, and nothing else. -/
theorem nextMessage_frame {content : List UInt8} (h : content.length ≤ Frame.limit)
    (rest : List UInt8) :
    nextMessage { buffer := Frame.around content ++ rest } =
      ((Wire.toMessage content).map some, { buffer := rest }) := by
  rw [nextMessage, Frame.around, List.append_assoc, next_of_header h, next_of_awaited]

/-- **Messages get through, and nothing else does.**  What is too long for a frame is not sent.
Anything else that is sent comes out of the stream as the message that was created from its fields,
if there is one, or else is refused; and just its own frame is taken off. -/
theorem nextMessage_append (fields : Message) (stream rest : List UInt8) :
    (Frame.limit < (Wire.ofMessage fields).length →
        Frame.append fields stream = (.error (.io .invalidInput), stream)) ∧
      ((Wire.ofMessage fields).length ≤ Frame.limit →
        ∃ frame answer, Frame.append fields stream = (.ok (), stream ++ frame) ∧
          nextMessage { buffer := frame ++ rest } = (answer, { buffer := rest }) ∧
          (∀ m, answer = .ok (some m) ↔ Message.create fields.job fields.action = .ok m) ∧
          ∀ cause, Message.create fields.job fields.action = .error cause →
            answer = .error (.wireRejected cause) ∧ (Error.wireRejected cause).kind = .encoding) := by
  rw [Frame.append, Frame.ofMessage, Frame.ofContent_eq_ite]
  refine ⟨fun hlong => by rw [if_neg (by omega)], fun hfits => ?_⟩
  have hread := Wire.toMessage_ofMessage (Nat.lt_of_le_of_lt hfits (by decide)) []
  rw [List.append_nil] at hread
  rw [if_pos hfits]
  refine ⟨_, _, rfl, nextMessage_frame hfits rest, ?_⟩
  rw [hread]
  cases Message.create fields.job fields.action with
  | ok m =>
    refine ⟨fun m' => ?_, fun cause hcause => by cases hcause⟩
    change Except.ok (some m) = .ok (some m') ↔ Except.ok m = .ok m'
    rw [Except.ok.injEq, Except.ok.injEq, Option.some.injEq]
  | error cause =>
    refine ⟨fun m => ?_, fun cause' hcause => ?_⟩
    · constructor
      · intro haccepted
        cases haccepted
      · intro hcreated
        cases hcreated
    · obtain rfl := Except.error.inj hcause
      exact ⟨rfl, rfl⟩

/-- A frame that holds the fields of a chain of two members. -/
theorem nextMessage_append_chain :
    let fields : Message := ⟨⟨"job"⟩, .establishChain [⟨"a"⟩, ⟨"b"⟩]⟩
    (Wire.ofMessage fields).length ≤ Frame.limit ∧
      Message.create fields.job fields.action = .ok fields ∧
      ∃ frame, Frame.append fields [1] = (.ok (), [1] ++ frame) ∧
        nextMessage { buffer := frame ++ [2] } = (.ok (some fields), { buffer := [2] }) := by
  intro fields
  have hfits : (Wire.ofMessage fields).length ≤ Frame.limit := by decide +kernel
  have hcreate : Message.create fields.job fields.action = .ok fields := rfl
  obtain ⟨frame, answer, happend, hnext, haccept, -⟩ := (nextMessage_append fields [1] [2]).2 hfits
  rw [(haccept fields).mpr hcreate] at hnext
  exact ⟨hfits, hcreate, frame, happend, hnext⟩

end FrameReader

end LatencyControl
