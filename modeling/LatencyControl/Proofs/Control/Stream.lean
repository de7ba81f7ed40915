import LatencyControl.Proofs.Control.Framing
import Mathlib.Data.List.Forall2

/-!
# Streams in pieces

A stream of frames arrives in pieces that may end anywhere, within a header as well as within a
content.  After each piece the reader is asked for messages until it has no more.  What it answers
does not depend on the pieces: it is one answer for each frame, the one that this frame alone would
have got (`FrameReader.receives_iff`).  A frame that is refused takes no other frame along.

Between two pieces the reader waits with an incomplete frame (`Frame.IsPartial`), and the state that
it waits in tells which bytes of it have arrived (`FrameReader.waiting`).
-/

namespace LatencyControl

namespace Frame

/-- The beginning of a frame, of which some bytes are missing. -/
def IsPartial (bytes : List UInt8) : Prop :=
  bytes.length < 4 ∨
    ∃ length part, bytes = header length ++ part ∧ length ≤ limit ∧ part.length < length

/-- A beginning that holds the header holds a beginning of the content. -/
theorem exists_part {length : Nat} {bytes more content : List UInt8} (h : 4 ≤ bytes.length)
    (hbytes : bytes ++ more = header length ++ content) :
    ∃ part, bytes = header length ++ part ∧ part ++ more = content := by
  have hheader : header length <+: bytes :=
    List.prefix_of_prefix_length_le ⟨content, hbytes.symm⟩ (List.prefix_append bytes more)
      (by rwa [length_header])
  obtain ⟨part, rfl⟩ := hheader
  rw [List.append_assoc] at hbytes
  exact ⟨part, rfl, List.append_cancel_left hbytes⟩

/-- Any beginning of an incomplete frame is incomplete. -/
theorem IsPartial.of_append {bytes more : List UInt8} (h : IsPartial (bytes ++ more)) :
    IsPartial bytes := by
  rcases Nat.lt_or_ge bytes.length 4 with hshort | hlong
  · exact .inl hshort
  rcases h with hshort | ⟨length, content, hbytes, hlimit, hmissing⟩
  · rw [List.length_append] at hshort
    omega
  · obtain ⟨part, rfl, rfl⟩ := exists_part hlong hbytes
    rw [List.length_append] at hmissing
    exact .inr ⟨length, part, rfl, hlimit, by omega⟩

/-- A beginning of a frame is incomplete, unless it is the frame. -/
theorem isPartial_of_around {content bytes more : List UInt8} (h : content.length ≤ limit)
    (hframe : bytes ++ more = around content) (hmore : more ≠ []) : IsPartial bytes := by
  rcases Nat.lt_or_ge bytes.length 4 with hshort | hlong
  · exact .inl hshort
  · obtain ⟨part, rfl, hpart⟩ := exists_part hlong hframe
    have hlength : part.length + more.length = content.length := by
      rw [← List.length_append, hpart]
    have hmissing := List.length_pos_of_ne_nil hmore
    exact .inr ⟨content.length, part, rfl, h, by omega⟩

/-- No frame has arrived as a whole with an incomplete one. -/
theorem not_isPartial_around {content : List UInt8} (h : content.length ≤ limit)
    (more : List UInt8) : ¬ IsPartial (around content ++ more) := by
  rintro (hshort | ⟨length, part, hbytes, hlimit, hmissing⟩)
  · rw [around, List.length_append, List.length_append, length_header] at hshort
    omega
  · rw [around, List.append_assoc] at hbytes
    obtain ⟨hheader, hpart⟩ := List.append_inj hbytes (by rw [length_header, length_header])
    have hlength : content.length = length := by
      rw [← ofLittleEndian_header h, hheader, ofLittleEndian_header hlimit]
    rw [← hpart, List.length_append] at hmissing
    omega

/-- A piece of a stream ends within a frame: there are complete frames before, and the beginning of
a frame is left. -/
theorem exists_split {contents : List (List UInt8)} {rest bytes more : List UInt8}
    (hlimit : ∀ content ∈ contents, content.length ≤ limit) (hrest : IsPartial rest)
    (h : bytes ++ more = contents.flatMap around ++ rest) :
    ∃ arrived later part, contents = arrived ++ later ∧ bytes = arrived.flatMap around ++ part ∧
      IsPartial part ∧ part ++ more = later.flatMap around ++ rest := by
  induction contents generalizing bytes with
  | nil =>
    refine ⟨[], [], bytes, rfl, rfl, ?_, h⟩
    rw [List.flatMap_nil, List.nil_append] at h
    subst h
    exact hrest.of_append
  | cons content contents ih =>
    obtain ⟨hfirst, hlater⟩ := List.forall_mem_cons.mp hlimit
    rw [List.flatMap_cons, List.append_assoc] at h
    rcases List.append_eq_append_iff.mp h with ⟨missing, hframe, hmore⟩ | ⟨bytes', hbytes, hmore⟩
    · -- the piece ends in the first frame, or just behind it
      by_cases hmissing : missing = []
      · subst hmissing
        rw [List.append_nil] at hframe
        refine ⟨[content], contents, [], rfl, ?_, .inl (by decide), hmore⟩
        rw [List.flatMap_singleton, List.append_nil, hframe]
      · refine ⟨[], content :: contents, bytes, rfl, rfl,
          isPartial_of_around hfirst hframe.symm hmissing, ?_⟩
        rw [List.flatMap_cons, List.append_assoc, h]
    · obtain ⟨arrived, later, part, rfl, rfl, hpart, hcontinued⟩ := ih hlater hmore.symm
      exact ⟨content :: arrived, later, part, rfl,
        by rw [hbytes, List.flatMap_cons, List.append_assoc], hpart, hcontinued⟩

end Frame

namespace FrameReader

/-- The reader that waits for the rest of an incomplete frame. -/
def waiting (bytes : List UInt8) : FrameReader :=
  if bytes.length < 4 then { buffer := bytes }
  else { buffer := bytes.drop 4, awaited := some (Bytes.ofLittleEndian (bytes.take 4).reverse) }

theorem waiting_of_header {length : Nat} (h : length ≤ Frame.limit) (part : List UInt8) :
    waiting (Frame.header length ++ part) = { buffer := part, awaited := some length } := by
  have hlong : ¬ (Frame.header length ++ part).length < 4 := by
    rw [List.length_append, Frame.length_header]
    omega
  rw [waiting, if_neg hlong, Frame.take_header, Frame.drop_header, Frame.ofLittleEndian_header h]

/-- More bytes are taken as if they had arrived together with those that are waiting. -/
theorem next_feed_waiting {part : List UInt8} (h : Frame.IsPartial part) (piece : List UInt8) :
    ((waiting part).feed piece).next = next { buffer := part ++ piece } := by
  rcases h with hshort | ⟨length, part, rfl, hlimit, -⟩
  · rw [waiting, if_pos hshort]
    rfl
  · rw [waiting_of_header hlimit, List.append_assoc, next_of_header hlimit]
    rfl

/-- An incomplete frame has no message, and the reader waits for more of it. -/
theorem nextMessage_of_isPartial {part : List UInt8} (h : Frame.IsPartial part) :
    nextMessage { buffer := part } = (.ok none, waiting part) := by
  rcases h with hshort | ⟨length, part, rfl, hlimit, hmissing⟩
  · rw [nextMessage, next_of_short hshort, waiting, if_pos hshort]
  · rw [nextMessage, next_of_header hlimit, next_of_missing hmissing, waiting_of_header hlimit]

/-! ### Runs of a reader -/

/-- The answers of a reader that is asked for messages until it has no more; a refusal is an answer
as well. -/
inductive Answers : FrameReader → List (Except Error Message) → FrameReader → Prop
  | done {r r' : FrameReader} (h : r.nextMessage = (.ok none, r')) : Answers r [] r'
  | next {r r' r'' : FrameReader} {answer : Except Error Message}
    {answers : List (Except Error Message)} (h : r.nextMessage = (answer.map some, r'))
    (later : Answers r' answers r'') : Answers r (answer :: answers) r''

/-- The answers of a reader that is fed with a stream piece by piece, and asked for messages after
each piece. -/
inductive Receives : FrameReader → List (List UInt8) → List (Except Error Message) →
    FrameReader → Prop
  | done {r : FrameReader} : Receives r [] [] r
  | piece {r r' r'' : FrameReader} {piece : List UInt8} {pieces : List (List UInt8)}
    {answers later : List (Except Error Message)} (first : Answers (r.feed piece) answers r')
    (rest : Receives r' pieces later r'') : Receives r (piece :: pieces) (answers ++ later) r''

section

variable {r r' r'' : FrameReader} {answers : List (Except Error Message)}

theorem answers_iff_of_done (h : r.nextMessage = (.ok none, r')) :
    Answers r answers r'' ↔ answers = [] ∧ r'' = r' := by
  constructor
  · intro hanswers
    cases hanswers with
    | done hdone =>
      rw [h] at hdone
      exact ⟨rfl, (Prod.mk.inj hdone).2.symm⟩
    | @next _ _ _ answer _ hnext _ =>
      rw [h] at hnext
      cases answer <;> cases (Prod.mk.inj hnext).1
  · rintro ⟨rfl, rfl⟩
    exact .done h

theorem answers_iff_of_next {answer : Except Error Message}
    (h : r.nextMessage = (answer.map some, r')) :
    Answers r answers r'' ↔ ∃ later, answers = answer :: later ∧ Answers r' later r'' := by
  constructor
  · intro hanswers
    cases hanswers with
    | done hdone =>
      rw [h] at hdone
      cases answer <;> cases (Prod.mk.inj hdone).1
    | @next _ _ _ answer' later hnext hlater =>
      rw [h] at hnext
      obtain ⟨hsame, rfl⟩ := Prod.mk.inj hnext
      have hanswer : answer = answer' := by
        cases answer <;> cases answer' <;> cases hsame <;> rfl
      exact ⟨later, by rw [hanswer], hlater⟩
  · rintro ⟨later, rfl, hlater⟩
    exact .next h hlater

/-- The answers depend on the next message alone. -/
theorem answers_congr {r₁ r₂ : FrameReader} (h : r₁.nextMessage = r₂.nextMessage) :
    Answers r₁ answers r'' ↔ Answers r₂ answers r'' := by
  have hmono : ∀ {r₁ r₂ : FrameReader}, r₁.nextMessage = r₂.nextMessage →
      Answers r₁ answers r'' → Answers r₂ answers r'' := fun h hanswers => by
    cases hanswers with
    | done hdone => exact .done (h ▸ hdone)
    | next hnext later => exact .next (h ▸ hnext) later
  exact ⟨hmono h, hmono h.symm⟩

end

/-- Complete frames are answered one by one, and with an incomplete one the reader waits. -/
theorem answers_frames {contents : List (List UInt8)} {part : List UInt8}
    (hlimit : ∀ content ∈ contents, content.length ≤ Frame.limit) (hpart : Frame.IsPartial part)
    {answers : List (Except Error Message)} {r : FrameReader} :
    Answers { buffer := contents.flatMap Frame.around ++ part } answers r ↔
      answers = contents.map Wire.toMessage ∧ r = waiting part := by
  induction contents generalizing answers with
  | nil => exact answers_iff_of_done (nextMessage_of_isPartial hpart)
  | cons content contents ih =>
    obtain ⟨hfirst, hlater⟩ := List.forall_mem_cons.mp hlimit
    rw [List.flatMap_cons, List.append_assoc, answers_iff_of_next (nextMessage_frame hfirst _)]
    simp only [ih hlater, List.map_cons]
    constructor
    · rintro ⟨later, rfl, rfl, rfl⟩
      exact ⟨rfl, rfl⟩
    · rintro ⟨rfl, rfl⟩
      exact ⟨_, rfl, rfl, rfl⟩

/-- However a stream goes on in pieces, its frames are answered one by one. -/
theorem receives_waiting {pieces : List (List UInt8)} {contents : List (List UInt8)}
    {part rest : List UInt8} (hlimit : ∀ content ∈ contents, content.length ≤ Frame.limit)
    (hpart : Frame.IsPartial part) (hrest : Frame.IsPartial rest)
    (h : part ++ pieces.flatten = contents.flatMap Frame.around ++ rest)
    {answers : List (Except Error Message)} {r : FrameReader} :
    Receives (waiting part) pieces answers r ↔
      answers = contents.map Wire.toMessage ∧ r = waiting rest := by
  induction pieces generalizing part contents answers r with
  | nil =>
    rw [List.flatten_nil, List.append_nil] at h
    -- no frame has arrived, as the reader still waits for one
    have hnone : contents = [] := by
      cases contents with
      | nil => rfl
      | cons content contents =>
        rw [List.flatMap_cons, List.append_assoc] at h
        exact absurd (h ▸ hpart) (Frame.not_isPartial_around (hlimit _ List.mem_cons_self) _)
    subst hnone
    obtain rfl : part = rest := h
    constructor
    · rintro ⟨⟩
      exact ⟨rfl, rfl⟩
    · rintro ⟨rfl, rfl⟩
      exact .done
  | cons piece pieces ih =>
    rw [List.flatten_cons, ← List.append_assoc] at h
    obtain ⟨arrived, later, part', rfl, hbytes, hpart', hcontinued⟩ :=
      Frame.exists_split hlimit hrest h
    have hfirst : ∀ answers r', Answers ((waiting part).feed piece) answers r' ↔
        answers = arrived.map Wire.toMessage ∧ r' = waiting part' := fun answers r' => by
      have hnext : ((waiting part).feed piece).nextMessage =
          nextMessage { buffer := arrived.flatMap Frame.around ++ part' } := by
        rw [nextMessage, next_feed_waiting hpart, hbytes, ← nextMessage]
      rw [answers_congr hnext]
      exact answers_frames (fun content hcontent =>
        hlimit content (List.mem_append_left later hcontent)) hpart'
    have hlater : ∀ answers r', Receives (waiting part') pieces answers r' ↔
        answers = later.map Wire.toMessage ∧ r' = waiting rest := fun answers r' =>
      ih (fun content hcontent => hlimit content (List.mem_append_right arrived hcontent)) hpart'
        hcontinued
    rw [List.map_append]
    constructor
    · intro hreceives
      cases hreceives with
      | piece first others =>
        obtain ⟨rfl, rfl⟩ := (hfirst _ _).mp first
        obtain ⟨rfl, rfl⟩ := (hlater _ _).mp others
        exact ⟨rfl, rfl⟩
    · rintro ⟨rfl, rfl⟩
      exact .piece ((hfirst _ _).mpr ⟨rfl, rfl⟩) ((hlater _ _).mpr ⟨rfl, rfl⟩)

/-- **Pieces make no difference.**  A stream of frames that ends with an incomplete one is answered
in just one way, in whatever pieces it arrives: with one answer for each frame, which is the one
that the frame gets when it arrives alone. -/
theorem receives_iff {contents pieces : List (List UInt8)} {rest : List UInt8}
    (hlimit : ∀ content ∈ contents, content.length ≤ Frame.limit) (hrest : Frame.IsPartial rest)
    (hpieces : pieces.flatten = contents.flatMap Frame.around ++ rest) :
    ∃ expected, List.Forall₂ (fun content answer =>
        nextMessage { buffer := Frame.around content } = (answer.map some, {})) contents expected ∧
      ∀ answers r, Receives {} pieces answers r ↔ answers = expected ∧ r = waiting rest := by
  have hempty : Frame.IsPartial [] := .inl (by decide)
  refine ⟨contents.map Wire.toMessage, ?_, fun answers r =>
    receives_waiting hlimit hempty hrest hpieces⟩
  rw [List.forall₂_map_right_iff, List.forall₂_same]
  intro content hcontent
  have hframe := nextMessage_frame (hlimit content hcontent) []
  rwa [List.append_nil] at hframe

/-- The contents of three frames, of which the second one is no message. -/
def mixedContents : List (List UInt8) :=
  [Wire.ofMessage ⟨⟨"job"⟩, .establishChain [⟨"a"⟩, ⟨"b"⟩]⟩, [7],
    Wire.ofMessage ⟨⟨"job"⟩, .dropChain ⟨"a"⟩ ⟨"g"⟩⟩]

/-- The three frames and the beginning of a fourth one. -/
def mixedStream : List UInt8 := mixedContents.flatMap Frame.around ++ [0, 0, 0, 5, 1]

/-- A stream that is cut within the first content and within the second header. -/
theorem receives_iff_mixedContents :
    (∀ content ∈ mixedContents, content.length ≤ Frame.limit) ∧
      Frame.IsPartial [0, 0, 0, 5, 1] ∧
      [mixedStream.take 30, (mixedStream.drop 30).take 17, mixedStream.drop 47].flatten =
        mixedContents.flatMap Frame.around ++ [0, 0, 0, 5, 1] ∧
      ∃ expected, List.Forall₂ (fun content answer =>
          nextMessage { buffer := Frame.around content } = (answer.map some, {}))
          mixedContents expected ∧
        ∀ answers r, Receives {}
            [mixedStream.take 30, (mixedStream.drop 30).take 17, mixedStream.drop 47] answers r ↔
          answers = expected ∧ r = { buffer := [1], awaited := some 5 } := by
  have hlimit : ∀ content ∈ mixedContents, content.length ≤ Frame.limit := by decide +kernel
  have hrest : Frame.IsPartial [0, 0, 0, 5, 1] := .inr ⟨5, [1], rfl, by decide, by decide⟩
  have hpieces : [mixedStream.take 30, (mixedStream.drop 30).take 17, mixedStream.drop 47].flatten =
      mixedContents.flatMap Frame.around ++ [0, 0, 0, 5, 1] := by decide +kernel
  exact ⟨hlimit, hrest, hpieces, receives_iff hlimit hrest hpieces⟩

end FrameReader

end LatencyControl
