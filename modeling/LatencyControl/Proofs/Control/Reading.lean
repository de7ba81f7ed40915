import LatencyControl.Control.Wire
import Mathlib.Algebra.Group.Nat.Defs

/-!
# Reading what was written

What is written is read back, whatever bytes come after it (`Reads`), as long as all of its lengths
fit into eight bytes.  For the fields of a message this holds without any check of what they say:
only then is the message refused or accepted, just as it would be if it were created from these
fields (`toMessage_ofMessage`).
-/

namespace LatencyControl

/-! ### Bytes -/

theorem toList_loop_eq (bytes : ByteArray) (i : Nat) (found : List UInt8) :
    ByteArray.toList.loop bytes i found = found.reverse ++ bytes.data.toList.drop i := by
  fun_induction ByteArray.toList.loop bytes i found with
  | case1 i found hi ih =>
    have hnext : bytes.data.toList.drop i = bytes.get! i :: bytes.data.toList.drop (i + 1) := by
      rw [List.drop_eq_getElem_cons (by simpa using hi), Array.getElem_toList]
      exact congrArg (· :: _) (getElem!_pos bytes.data i hi).symm
    rw [ih, hnext, List.reverse_cons, List.append_assoc, List.singleton_append]
  | case2 i found hi =>
    rw [List.drop_eq_nil_of_le (by simpa using hi), List.append_nil]

theorem toList_eq_toList_data (bytes : ByteArray) : bytes.toList = bytes.data.toList := by
  rw [ByteArray.toList, toList_loop_eq, List.reverse_nil, List.nil_append, List.drop_zero]

/-- The bytes of a text spell the text. -/
theorem fromUTF8?_toUTF8 (s : String) : String.fromUTF8? ⟨s.toUTF8.toList.toArray⟩ = some s := by
  have hbytes : (⟨s.toUTF8.toList.toArray⟩ : ByteArray) = s.toByteArray := by
    rw [toList_eq_toList_data, Array.toArray_toList]
    rfl
  rw [hbytes, String.fromUTF8?, dif_pos s.isValidUTF8]
  rfl

namespace Wire

/-! ### Readings -/

/-- Reading gives a value back from the bytes that it was written as, and leaves what follows. -/
def Reads {α : Type} (r : Reading α) (bytes : List UInt8) (a : α) : Prop :=
  ∀ rest, r.run (bytes ++ rest) = .ok (a, rest)

variable {α β : Type}

theorem reads_pure (a : α) : Reads (pure a) [] a := fun _ => rfl

/-- What comes after a reading goes on with what the reading has left. -/
theorem Reads.run_bind {r : Reading α} {bytes : List UInt8} {a : α} (h : Reads r bytes a)
    (next : α → Reading β) (rest : List UInt8) :
    (r >>= next).run (bytes ++ rest) = (next a).run rest := by
  rw [StateT.run_bind, h]
  rfl

theorem Reads.bind {r : Reading α} {next : α → Reading β} {bytes bytes' : List UInt8} {a : α}
    {b : β} (h : Reads r bytes a) (h' : Reads (next a) bytes' b) :
    Reads (r >>= next) (bytes ++ bytes') b := fun rest => by
  rw [List.append_assoc, h.run_bind]
  exact h' rest

theorem Reads.map {r : Reading α} {bytes : List UInt8} {a : α} (h : Reads r bytes a) (f : α → β) :
    Reads (f <$> r) bytes (f a) := fun rest => by
  rw [StateT.run_map, h]
  rfl

/-- A reading ends with what it makes of all that it has read. -/
theorem Reads.bind_pure {r : Reading α} {bytes : List UInt8} {a : α} (h : Reads r bytes a)
    (f : α → β) : Reads (r >>= fun a => pure (f a)) bytes (f a) := by
  rw [← map_eq_pure_bind]
  exact h.map f

theorem reads_take (bytes : List UInt8) : Reads (take bytes.length) bytes bytes := fun rest => by
  simp [StateT.run, take]

/-! ### Numbers -/

/-- A number that fits into some bytes is read from them. -/
theorem reads_littleEndian {width n : Nat} (h : n < 256 ^ width) :
    Reads (Bytes.ofLittleEndian <$> take width) (Bytes.littleEndian width n) n := by
  have htake := reads_take (Bytes.littleEndian width n)
  rw [Bytes.length_littleEndian] at htake
  have hmap := htake.map Bytes.ofLittleEndian
  rwa [Bytes.ofLittleEndian_littleEndian, Nat.pow_eq, Nat.mod_eq_of_lt h] at hmap

theorem reads_length {n : Nat} (h : n < 2 ^ 64) : Reads length (ofLength n) n :=
  reads_littleEndian (by omega)

theorem reads_int32 (i : Int32) : Reads int32 (ofInt32 i) i := by
  have hbound : i.toUInt32.toNat < 256 ^ 4 := i.toUInt32.toNat_lt
  have hread := (reads_littleEndian hbound).map fun n => (UInt32.ofNat n).toInt32
  rw [UInt32.ofNat_toNat, Int32.toInt32_toUInt32, Functor.map_map] at hread
  exact hread

/-! ### Texts -/

theorem length_ofString (s : String) : (ofString s).length = 8 + s.utf8ByteSize := by
  rw [ofString, ofLength, List.length_append, Bytes.length_littleEndian, toList_eq_toList_data]
  rfl

theorem reads_string {s : String} (h : (ofString s).length < 2 ^ 64) :
    Reads string (ofString s) s := by
  rw [length_ofString] at h
  have hlength : Reads length (ofLength s.utf8ByteSize) s.utf8ByteSize := reads_length (by omega)
  have hsize : s.toUTF8.toList.length = s.utf8ByteSize := by
    rw [toList_eq_toList_data]
    rfl
  have hbytes := reads_take s.toUTF8.toList
  rw [hsize] at hbytes
  refine hlength.bind fun rest => ?_
  rw [hbytes.run_bind]
  simp only [fromUTF8?_toUTF8]
  rfl

theorem reads_ident {e : Entity} {i : Ident e} (h : (ofIdent i).length < 2 ^ 64) :
    Reads ident (ofIdent i) i := (reads_string h).map Ident.mk

/-! ### Lists -/

theorem reads_items {item : Reading α} {write : α → List UInt8} {xs : List α}
    (h : ∀ x ∈ xs, Reads item (write x) x) : Reads (items item xs.length) (xs.flatMap write) xs := by
  induction xs with
  | nil => exact reads_pure []
  | cons x rest ih =>
    obtain ⟨hfirst, hrest⟩ := List.forall_mem_cons.mp h
    exact hfirst.bind ((ih hrest).bind_pure (x :: ·))

theorem reads_list {item : Reading α} {write : α → List UInt8} {xs : List α}
    (hlength : xs.length < 2 ^ 64) (h : ∀ x ∈ xs, Reads item (write x) x) :
    Reads (list item) (ofList write xs) xs := (reads_length hlength).bind (reads_items h)

/-- A list takes up at least a byte for each item, and as many as any of its items. -/
theorem length_ofIdents {e : Entity} (is : List (Ident e)) :
    is.length ≤ (ofList ofIdent is).length ∧
      ∀ i ∈ is, (ofIdent i).length ≤ (ofList ofIdent is).length := by
  have hitems : is.length ≤ (is.flatMap ofIdent).length ∧
      ∀ i ∈ is, (ofIdent i).length ≤ (is.flatMap ofIdent).length := by
    induction is with
    | nil => exact ⟨Nat.le_refl 0, fun i hi => (List.not_mem_nil hi).elim⟩
    | cons first rest ih =>
      obtain ⟨hcount, hrest⟩ := ih
      have hfirst : (ofIdent first).length = 8 + first.text.utf8ByteSize := length_ofString first.text
      rw [List.flatMap_cons, List.length_append, List.length_cons]
      refine ⟨by omega, List.forall_mem_cons.mpr ⟨by omega, fun i hi => ?_⟩⟩
      have hlater := hrest i hi
      omega
  rw [ofList, List.length_append]
  exact ⟨by omega, fun i hi => Nat.le_trans (hitems.2 i hi) (Nat.le_add_left _ _)⟩

theorem reads_idents {e : Entity} {is : List (Ident e)} (h : (ofList ofIdent is).length < 2 ^ 64) :
    Reads (list ident) (ofList ofIdent is) is := by
  obtain ⟨hlength, hitems⟩ := length_ofIdents is
  exact reads_list (Nat.lt_of_le_of_lt hlength h) fun i hi =>
    reads_ident (Nat.lt_of_le_of_lt (hitems i hi) h)

/-! ### Messages -/

/-- The fields of the actions that set a number for a channel. -/
theorem reads_channelFields {member : MemberId} {gate : GateId} {channel : ChannelId}
    {number : Int32} (f : MemberId → GateId → ChannelId → Int32 → Action)
    (h : (ofIdent member ++ ofIdent gate ++ ofIdent channel ++ ofInt32 number).length < 2 ^ 64) :
    Reads (do return f (← ident) (← ident) (← ident) (← int32))
      (ofIdent member ++ ofIdent gate ++ ofIdent channel ++ ofInt32 number)
      (f member gate channel number) := by
  simp only [List.length_append] at h
  have hmember : Reads ident (ofIdent member) member := reads_ident (by omega)
  have hgate : Reads ident (ofIdent gate) gate := reads_ident (by omega)
  have hchannel : Reads ident (ofIdent channel) channel := reads_ident (by omega)
  rw [List.append_assoc, List.append_assoc]
  exact hmember.bind (hgate.bind (hchannel.bind ((reads_int32 number).bind_pure _)))

theorem reads_fields {action : Action} (h : (ofFields action).length < 2 ^ 64) :
    Reads (fields (tag action)) (ofFields action) action := by
  cases action with
  | limitBufferSize member gate channel size => exact reads_channelFields .limitBufferSize h
  | setLifetimeTarget member gate channel target => exact reads_channelFields .setLifetimeTarget h
  | establishChain members => exact (reads_idents h).bind_pure _
  | dropChain member gate =>
    simp only [ofFields, List.length_append] at h
    have hmember : Reads ident (ofIdent member) member := reads_ident (by omega)
    have hgate : Reads ident (ofIdent gate) gate := reads_ident (by omega)
    exact hmember.bind (hgate.bind_pure _)

theorem tag_lt (action : Action) : tag action < 256 ^ 4 := by
  cases action <;> simp only [tag] <;> decide

/-- The fields of a message are read before any of the checks that they have to pass. -/
theorem run_message {job : JobId} {action : Action}
    (h : (ofMessage ⟨job, action⟩).length < 2 ^ 64) (rest : List UInt8) :
    message.run (ofMessage ⟨job, action⟩ ++ rest) =
      (do accept action.check; accept (job.require "jobID"); return { job, action } :
        Reading Message).run rest := by
  simp only [ofMessage, List.length_append] at h
  have hjob : Reads ident (ofIdent job) job := reads_ident (by omega)
  have htag := reads_littleEndian (tag_lt action)
  have hfields : Reads (fields (tag action)) (ofFields action) action := reads_fields (by omega)
  rw [message, ofMessage, List.append_assoc, List.append_assoc, hjob.run_bind, htag.run_bind,
    hfields.run_bind]

/-- **Reading undoes writing.**  From what was written of some fields, whatever comes after it, one
reads just the message that could have been created from these fields; if none could, then it is
refused for the same cause. -/
theorem toMessage_ofMessage {job : JobId} {action : Action}
    (h : (ofMessage ⟨job, action⟩).length < 2 ^ 64) (rest : List UInt8) :
    toMessage (ofMessage ⟨job, action⟩ ++ rest) =
      (Message.create job action).mapError .wireRejected := by
  rw [toMessage, run_message h, Message.create]
  cases action.check with
  | error cause => rfl
  | ok _ =>
    cases job.require "jobID" with
    | error cause => rfl
    | ok _ => rfl

end Wire

end LatencyControl
