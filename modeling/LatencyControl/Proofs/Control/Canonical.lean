import LatencyControl.Proofs.Control.Framing
import LatencyControl.Proofs.Result

/-!
# Only what was written is read

Whatever bytes arrive, a message that is read from them makes sense, and it stands in front of them
just as it would be written (`Wire.of_toMessage_eq_ok`).  With `Wire.toMessage_ofMessage` this says
exactly which contents of frames are messages (`FrameReader.nextMessage_eq_ok_iff`): nothing is made
up, put right or taken from the bytes behind the message.

The reader of each part of a message is canonical: the bytes that it takes are the ones that the
part is written as.  Lengths are the place to look at, since a reader believes them: it takes as many
bytes or items as a length says, so that writing them gives the same length again.
-/

namespace LatencyControl

/-! ### Bytes -/

namespace Bytes

theorem ofLittleEndian_lt (bytes : List UInt8) : ofLittleEndian bytes < 256 ^ bytes.length := by
  induction bytes with
  | nil => simp [ofLittleEndian]
  | cons b rest ih =>
    have hb : b.toNat < 256 := b.toNat_lt
    rw [ofLittleEndian, List.length_cons, Nat.pow_succ]
    omega

/-- Bytes are what the number that they stand for is written as. -/
theorem littleEndian_ofLittleEndian (bytes : List UInt8) :
    littleEndian bytes.length (ofLittleEndian bytes) = bytes := by
  induction bytes with
  | nil => rfl
  | cons b rest ih =>
    have hb : b.toNat < 256 := b.toNat_lt
    have hlow : UInt8.ofNat (b.toNat + 256 * ofLittleEndian rest) = b := by
      apply UInt8.toNat_inj.mp
      rw [UInt8.toNat_ofNat']
      omega
    have hhigh : (b.toNat + 256 * ofLittleEndian rest) / 256 = ofLittleEndian rest := by omega
    rw [List.length_cons, ofLittleEndian, littleEndian, hlow, hhigh, ih]

end Bytes

/-! ### Messages that make sense -/

theorem Ident.require_eq_ok {e : Entity} {i : Ident e} {field : String} :
    i.require field = .ok () ↔ i.text ≠ "" := by
  rw [Ident.require_eq_ok_iff, Ident.isEmpty, ← Bool.not_eq_true, String.isEmpty_iff]

/-- All names of an action are given, its number is in range, and a chain has two members or
more. -/
def Action.MakesSense : Action → Prop
  | .limitBufferSize member gate channel size =>
    member.text ≠ "" ∧ gate.text ≠ "" ∧ channel.text ≠ "" ∧ 0 < size
  | .setLifetimeTarget member gate channel target =>
    member.text ≠ "" ∧ gate.text ≠ "" ∧ channel.text ≠ "" ∧ 0 ≤ target
  | .establishChain members => 2 ≤ members.length ∧ ∀ member ∈ members, member.text ≠ ""
  | .dropChain member gate => member.text ≠ "" ∧ gate.text ≠ ""

/-- The action of a message makes sense, and its job has a name. -/
def Message.MakesSense (m : Message) : Prop := m.job.text ≠ "" ∧ m.action.MakesSense

namespace Action

theorem checkGate_eq_ok {member : MemberId} {gate : GateId} :
    checkGate member gate = .ok () ↔ member.text ≠ "" ∧ gate.text ≠ "" := by
  rw [checkGate, step_eq_ok, Ident.require_eq_ok, Ident.require_eq_ok]

theorem checkChannel_eq_ok {member : MemberId} {gate : GateId} {channel : ChannelId} :
    checkChannel member gate channel = .ok () ↔
      member.text ≠ "" ∧ gate.text ≠ "" ∧ channel.text ≠ "" := by
  rw [checkChannel, step_eq_ok, checkGate_eq_ok, Ident.require_eq_ok, and_assoc]

/-- An action passes its check if it makes sense. -/
theorem check_eq_ok_iff {action : Action} : action.check = .ok () ↔ action.MakesSense := by
  cases action with
  | limitBufferSize member gate channel size =>
    rw [check, step_eq_ok, checkChannel_eq_ok, lastCheck_eq_ok, Int32.not_le]
    simp [MakesSense, and_assoc]
  | setLifetimeTarget member gate channel target =>
    rw [check, step_eq_ok, checkChannel_eq_ok, lastCheck_eq_ok, Int32.not_lt]
    simp [MakesSense, and_assoc]
  | establishChain members =>
    rw [check, check_eq_ok, forM_eq_ok, Nat.not_lt]
    simp only [MakesSense, Ident.require_eq_ok]
  | dropChain member gate => exact checkGate_eq_ok

end Action

/-- A message can be created from a job and an action that make sense together. -/
theorem Message.create_eq_ok_iff {job : JobId} {action : Action} {m : Message} :
    Message.create job action = .ok m ↔ m = ⟨job, action⟩ ∧ m.MakesSense := by
  rw [create, step_eq_ok, step_eq_ok, Action.check_eq_ok_iff, Ident.require_eq_ok]
  constructor
  · rintro ⟨haction, hjob, hm⟩
    obtain rfl := Except.ok.inj hm
    exact ⟨rfl, hjob, haction⟩
  · rintro ⟨rfl, hjob, haction⟩
    exact ⟨haction, hjob, rfl⟩

namespace Wire

/-! ### Readings -/

variable {α β : Type} {bytes rest : List UInt8}

/-- A reading is canonical if it takes just the bytes that its result is written as. -/
def IsCanonical (r : Reading α) (write : α → List UInt8) : Prop :=
  ∀ {bytes rest : List UInt8} {a : α}, r.run bytes = .ok (a, rest) → bytes = write a ++ rest

theorem run_bind_eq_ok {r : Reading α} {next : α → Reading β} {b : β} :
    (r >>= next).run bytes = .ok (b, rest) ↔
      ∃ a left, r.run bytes = .ok (a, left) ∧ (next a).run left = .ok (b, rest) := by
  rw [StateT.run_bind, bind_eq_ok, Prod.exists]

theorem run_map_eq_ok {r : Reading α} {f : α → β} {b : β} :
    (f <$> r).run bytes = .ok (b, rest) ↔ ∃ a, r.run bytes = .ok (a, rest) ∧ b = f a := by
  rw [map_eq_pure_bind, run_bind_eq_ok]
  constructor
  · rintro ⟨a, left, hr, hpure⟩
    obtain ⟨rfl, rfl⟩ := Prod.mk.inj (Except.ok.inj hpure)
    exact ⟨a, hr, rfl⟩
  · rintro ⟨a, hr, rfl⟩
    exact ⟨a, rest, hr, rfl⟩

theorem run_pure_eq_ok {a b : α} :
    (pure a : Reading α).run bytes = .ok (b, rest) ↔ b = a ∧ rest = bytes := by
  change Except.ok (a, bytes) = Except.ok (b, rest) ↔ _
  rw [Except.ok.injEq, Prod.mk.injEq, eq_comm, eq_comm (a := bytes)]

theorem run_take_eq_ok {n : ℕ} {taken : List UInt8} (h : (take n).run bytes = .ok (taken, rest)) :
    bytes = taken ++ rest ∧ taken.length = n := by
  change (if n ≤ bytes.length then Except.ok (bytes.take n, bytes.drop n)
    else Except.error Error.wireExhausted) = .ok (taken, rest) at h
  split_ifs at h with hn
  obtain ⟨rfl, rfl⟩ := Prod.mk.inj (Except.ok.inj h)
  exact ⟨(List.take_append_drop n bytes).symm, List.length_take_of_le hn⟩

/-! ### Numbers -/

/-- A number is written as the bytes that it was read from. -/
theorem isCanonical_littleEndian (width : ℕ) :
    IsCanonical (Bytes.ofLittleEndian <$> take width) (Bytes.littleEndian width) := by
  intro bytes rest n h
  obtain ⟨taken, htake, rfl⟩ := run_map_eq_ok.mp h
  obtain ⟨hbytes, rfl⟩ := run_take_eq_ok htake
  rw [Bytes.littleEndian_ofLittleEndian]
  exact hbytes

theorem isCanonical_length : IsCanonical length ofLength := isCanonical_littleEndian 8

theorem isCanonical_int32 : IsCanonical int32 ofInt32 := by
  intro bytes rest i h
  obtain ⟨taken, htake, rfl⟩ := run_map_eq_ok.mp h
  obtain ⟨hbytes, hfour⟩ := run_take_eq_ok htake
  have hbound : Bytes.ofLittleEndian taken < 2 ^ 32 := by
    have hlt := Bytes.ofLittleEndian_lt taken
    rw [hfour] at hlt
    exact hlt
  have hsame : (UInt32.ofNat (Bytes.ofLittleEndian taken)).toNat = Bytes.ofLittleEndian taken :=
    UInt32.toNat_ofNat_of_lt hbound
  have hwrite := Bytes.littleEndian_ofLittleEndian taken
  rw [hfour] at hwrite
  rw [ofInt32, UInt32.toUInt32_toInt32, hsame, hwrite]
  exact hbytes

/-! ### Texts -/

/-- A text is spelled by the bytes that it was read from. -/
theorem toUTF8_of_fromUTF8? {taken : List UInt8} {s : String}
    (h : String.fromUTF8? ⟨taken.toArray⟩ = some s) : s.toUTF8.toList = taken := by
  rw [String.fromUTF8?] at h
  split_ifs at h with hvalid
  obtain rfl := Option.some.inj h
  rw [toList_eq_toList_data]
  rfl

theorem isCanonical_string : IsCanonical string ofString := by
  intro bytes rest s h
  obtain ⟨n, left, hlength, h⟩ := run_bind_eq_ok.mp h
  obtain ⟨taken, left', htake, h⟩ := run_bind_eq_ok.mp h
  obtain ⟨hleft, htaken⟩ := run_take_eq_ok htake
  split at h
  · next s' hs =>
    obtain ⟨rfl, rfl⟩ := run_pure_eq_ok.mp h
    have hspelled := toUTF8_of_fromUTF8? hs
    have hsize : s.utf8ByteSize = n := by
      have hlen := congrArg List.length hspelled
      rw [toList_eq_toList_data, htaken] at hlen
      exact hlen
    rw [ofString, hsize, hspelled, List.append_assoc, ← hleft]
    exact isCanonical_length hlength
  · cases h

theorem isCanonical_ident {e : Entity} : IsCanonical (ident : Reading (Ident e)) ofIdent := by
  intro bytes rest i h
  obtain ⟨s, hs, rfl⟩ := run_map_eq_ok.mp h
  exact isCanonical_string hs

/-! ### Lists -/

/-- As many items are read as were asked for, and they are written as what they were read from. -/
theorem items_eq_ok {item : Reading α} {write : α → List UInt8} (hitem : IsCanonical item write)
    {n : ℕ} {xs : List α} (h : (items item n).run bytes = .ok (xs, rest)) :
    xs.length = n ∧ bytes = xs.flatMap write ++ rest := by
  induction n generalizing bytes xs with
  | zero =>
    obtain ⟨rfl, rfl⟩ := run_pure_eq_ok.mp h
    exact ⟨rfl, rfl⟩
  | succ n ih =>
    obtain ⟨x, left, hx, h⟩ := run_bind_eq_ok.mp h
    obtain ⟨later, left', hlater, h⟩ := run_bind_eq_ok.mp h
    obtain ⟨rfl, rfl⟩ := run_pure_eq_ok.mp h
    obtain ⟨hlength, hleft⟩ := ih hlater
    refine ⟨by rw [List.length_cons, hlength], ?_⟩
    rw [List.flatMap_cons, List.append_assoc, ← hleft]
    exact hitem hx

theorem isCanonical_list {item : Reading α} {write : α → List UInt8}
    (hitem : IsCanonical item write) : IsCanonical (list item) (ofList write) := by
  intro bytes rest xs h
  obtain ⟨n, left, hlength, h⟩ := run_bind_eq_ok.mp h
  obtain ⟨rfl, hleft⟩ := items_eq_ok hitem h
  rw [ofList, List.append_assoc, ← hleft]
  exact isCanonical_length hlength

/-! ### Messages -/

/-- The actions that set a number for a channel are written as the fields that they are read
from. -/
theorem channelFields_eq_ok {f : MemberId → GateId → ChannelId → Int32 → Action} {action : Action}
    (h : (do return f (← ident) (← ident) (← ident) (← int32) : Reading Action).run bytes
      = .ok (action, rest)) :
    ∃ member gate channel number, action = f member gate channel number ∧
      bytes = ofIdent member ++ ofIdent gate ++ ofIdent channel ++ ofInt32 number ++ rest := by
  obtain ⟨member, left₁, hmember, h⟩ := run_bind_eq_ok.mp h
  obtain ⟨gate, left₂, hgate, h⟩ := run_bind_eq_ok.mp h
  obtain ⟨channel, left₃, hchannel, h⟩ := run_bind_eq_ok.mp h
  obtain ⟨number, left₄, hnumber, h⟩ := run_bind_eq_ok.mp h
  obtain ⟨rfl, rfl⟩ := run_pure_eq_ok.mp h
  refine ⟨member, gate, channel, number, rfl, ?_⟩
  rw [isCanonical_ident hmember, isCanonical_ident hgate, isCanonical_ident hchannel,
    isCanonical_int32 hnumber]
  simp only [List.append_assoc]

/-- The fields that are read make an action of the kind that was asked for. -/
theorem fields_eq_ok {kind : ℕ} {action : Action}
    (h : (fields kind).run bytes = .ok (action, rest)) :
    tag action = kind ∧ bytes = ofFields action ++ rest := by
  rcases kind with _ | _ | _ | _ | other
  · obtain ⟨member, gate, channel, size, rfl, hbytes⟩ := channelFields_eq_ok h
    exact ⟨rfl, hbytes⟩
  · obtain ⟨member, gate, channel, target, rfl, hbytes⟩ := channelFields_eq_ok h
    exact ⟨rfl, hbytes⟩
  · obtain ⟨members, left, hmembers, h⟩ := run_bind_eq_ok.mp h
    obtain ⟨rfl, rfl⟩ := run_pure_eq_ok.mp h
    exact ⟨rfl, isCanonical_list isCanonical_ident hmembers⟩
  · obtain ⟨member, left, hmember, h⟩ := run_bind_eq_ok.mp h
    obtain ⟨gate, left', hgate, h⟩ := run_bind_eq_ok.mp h
    obtain ⟨rfl, rfl⟩ := run_pure_eq_ok.mp h
    refine ⟨rfl, ?_⟩
    rw [isCanonical_ident hmember, isCanonical_ident hgate, ofFields, List.append_assoc]
  · cases h

theorem accept_eq_ok {x : Except Error α} {a : α} (h : (accept x).run bytes = .ok (a, rest)) :
    x = .ok a ∧ rest = bytes := by
  cases x with
  | error cause => cases h
  | ok b =>
    obtain ⟨rfl, rfl⟩ := run_pure_eq_ok.mp h
    exact ⟨rfl, rfl⟩

/-- A message that was read makes sense, and is written as what it was read from. -/
theorem message_eq_ok {m : Message} (h : message.run bytes = .ok (m, rest)) :
    m.MakesSense ∧ bytes = ofMessage m ++ rest := by
  obtain ⟨job, left₁, hjob, h⟩ := run_bind_eq_ok.mp h
  obtain ⟨kind, left₂, hkind, h⟩ := run_bind_eq_ok.mp h
  obtain ⟨action, left₃, hfields, h⟩ := run_bind_eq_ok.mp h
  obtain ⟨_, left₄, hcheck, hrest⟩ := run_bind_eq_ok.mp h
  obtain ⟨_, left₅, hrequire, hreturn⟩ := run_bind_eq_ok.mp hrest
  obtain ⟨haction, rfl⟩ := accept_eq_ok hcheck
  obtain ⟨hname, rfl⟩ := accept_eq_ok hrequire
  obtain ⟨rfl, rfl⟩ := run_pure_eq_ok.mp hreturn
  obtain ⟨rfl, hleft⟩ := fields_eq_ok hfields
  refine ⟨⟨Ident.require_eq_ok.mp hname, Action.check_eq_ok_iff.mp haction⟩, ?_⟩
  rw [isCanonical_ident hjob, isCanonical_littleEndian 4 hkind, hleft, ofMessage]
  simp only [List.append_assoc]

/-- Whatever the bytes, a message that is read from them makes sense and stands in front of them. -/
theorem of_toMessage_eq_ok {content : List UInt8} {m : Message} (h : toMessage content = .ok m) :
    m.MakesSense ∧ ofMessage m <+: content := by
  rw [toMessage] at h
  cases hrun : message.run content with
  | error cause =>
    rw [hrun] at h
    cases h
  | ok found =>
    obtain ⟨m', rest⟩ := found
    rw [hrun] at h
    obtain rfl : m' = m := Except.ok.inj h
    obtain ⟨hsense, hcontent⟩ := message_eq_ok hrun
    exact ⟨hsense, rest, hcontent.symm⟩

/-- A message that makes sense is read wherever it stands in front. -/
theorem toMessage_of_isPrefix {content : List UInt8} {m : Message} (hsense : m.MakesSense)
    (hfront : ofMessage m <+: content) (hlength : content.length < 2 ^ 64) :
    toMessage content = .ok m := by
  obtain ⟨rest, rfl⟩ := hfront
  have hfits : (ofMessage m).length < 2 ^ 64 := by
    rw [List.length_append] at hlength
    omega
  have hcreate : Message.create m.job m.action = .ok m :=
    Message.create_eq_ok_iff.mpr ⟨rfl, hsense⟩
  have hread := toMessage_ofMessage hfits rest
  rw [hcreate] at hread
  exact hread

end Wire

namespace FrameReader

/-- **Only messages are read, and just as they are written.**  A message that is read from some bytes
makes sense, and what it is written as stands in front of them.  The content of a frame is read as a
message exactly if this is so; what stands behind the message in the frame does not matter. -/
theorem nextMessage_eq_ok_iff (content : List UInt8) (m : Message) :
    (Wire.toMessage content = .ok m → m.MakesSense ∧ Wire.ofMessage m <+: content) ∧
      (content.length ≤ Frame.limit → ∀ rest,
        ((nextMessage { buffer := Frame.around content ++ rest }).1 = .ok (some m) ↔
          m.MakesSense ∧ Wire.ofMessage m <+: content)) := by
  refine ⟨Wire.of_toMessage_eq_ok, fun hlimit rest => ?_⟩
  have hframe : (nextMessage { buffer := Frame.around content ++ rest }).1 = .ok (some m) ↔
      Wire.toMessage content = .ok m := by
    rw [nextMessage_frame hlimit]
    cases Wire.toMessage content with
    | error cause => simp [Except.map]
    | ok found => simp [Except.map]
  rw [hframe]
  constructor
  · exact Wire.of_toMessage_eq_ok
  · rintro ⟨hsense, hfront⟩
    exact Wire.toMessage_of_isPrefix hsense hfront (Nat.lt_of_le_of_lt hlimit (by decide))

/-- A chain of two members, with two bytes behind it that mean nothing. -/
def paddedChain : List UInt8 :=
  Wire.ofMessage ⟨⟨"job"⟩, .establishChain [⟨"a"⟩, ⟨"b"⟩]⟩ ++ [7, 7]

theorem nextMessage_eq_ok_iff_paddedChain :
    let m : Message := ⟨⟨"job"⟩, .establishChain [⟨"a"⟩, ⟨"b"⟩]⟩
    Wire.toMessage paddedChain = .ok m ∧ paddedChain.length ≤ Frame.limit ∧
      (m.MakesSense ∧ Wire.ofMessage m <+: paddedChain) ∧
        ((nextMessage { buffer := Frame.around paddedChain ++ [1] }).1 = .ok (some m) ↔
          m.MakesSense ∧ Wire.ofMessage m <+: paddedChain) := by
  intro m
  have hread : Wire.toMessage paddedChain = .ok m := eq_ok_of_toOption (by decide +kernel)
  have hlimit : paddedChain.length ≤ Frame.limit := by decide +kernel
  exact ⟨hread, hlimit, (nextMessage_eq_ok_iff paddedChain m).1 hread,
    (nextMessage_eq_ok_iff paddedChain m).2 hlimit [1]⟩

end FrameReader

end LatencyControl
