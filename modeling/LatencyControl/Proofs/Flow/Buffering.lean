import Mathlib.Data.Int.Basic
import LatencyControl.Flow.Channel

/-!
# What a channel holds back

A channel holds records back until its buffer is full or old enough.  `run?_ofLimit` says of every
run of a channel whose receiver stays connected what has been sent and what is held back: nothing is
lost, sent twice or sent out of order, the opening time is that of the oldest record that is held
back, and a write leaves neither a full nor an overdue buffer.

The clock may jump, and nothing is assumed of its readings.  So there is one more way for a write to
come out: the buffer may be so old, or so much younger than now, that its age is nothing that the
clock can read, and then the program ends.  `run?_ofLimit` says when that is.

* A write may read the clock twice, when it opens a buffer and when it looks at the buffer's age.
  `writeAt` has a reading for either; a write while time stands still is one of these
  (`write?_eq_writeAt?`).
* `IsYoung` compares ages in the integers, `isYoung_of_isOverdue_eq_false` comes to it from what the
  channel calculates.
* `HoldsBack` is the invariant: the records that are held back, each with the reading at which it
  came, say what is in the buffer and when the buffer was opened.
* `HoldsBack.flush` and `HoldsBack.push` are the two changes of a buffer, `HoldsBack.handle` is the
  step and `HoldsBack.run` the run.
* `run?` is a run that ends where something overflows, and `run` one in which nothing does.
-/

namespace LatencyControl

variable {τ ρ : Type}

namespace Channel

/-! ### Requests -/

/-- What a channel is asked for. -/
inductive Request (τ ρ : Type)
  /-- To write a record, with the clock readings at the opening of a buffer and at the look at its
  age. -/
  | write (opening checking : τ) (record : ρ)
  | flush
  | setTarget (target : Int32)

namespace Request

/-- The record that is written, with the reading at which it comes. -/
def written : Request τ ρ → List (τ × ρ)
  | .write opening _ record => [(opening, record)]
  | .flush => []
  | .setTarget _ => []

/-- The readings of the clock that come with a request. -/
def readings : Request τ ρ → List τ
  | .write opening checking _ => [opening, checking]
  | .flush => []
  | .setTarget _ => []

/-- The target that is set. -/
def target? : Request τ ρ → Option Int32
  | .write _ _ _ => none
  | .flush => none
  | .setTarget target => some target

end Request

variable [Millis τ]

/-- Writes a record, with the clock readings at the opening of a buffer and at the look at its
age. -/
def writeAt (c : Channel τ ρ) (opening checking : τ) (connected : Bool) (record : ρ) :
    Except Error (List ρ) × Channel τ ρ :=
  let c := c.push opening record
  if c.isFull || c.isOverdue checking then c.flush connected else (.ok [], c)

/-- Whether that overflows. -/
def overflowsOn (c : Channel τ ρ) : Request τ ρ → Bool
  | .write opening checking record =>
    !(c.push opening record).isFull && (c.push opening record).overflows checking
  | .flush => false
  | .setTarget _ => false

/-- Writes a record, unless that overflows. -/
def writeAt? (c : Channel τ ρ) (opening checking : τ) (connected : Bool) (record : ρ) :
    Option (Except Error (List ρ) × Channel τ ρ) :=
  if c.overflowsOn (.write opening checking record) then none
  else some (c.writeAt opening checking connected record)

theorem write?_eq_writeAt? (c : Channel τ ρ) (now : τ) (connected : Bool) (record : ρ) :
    c.write? now connected record = c.writeAt? now now connected record := rfl

/-- Does what a channel is asked for while its receiver is connected; the answer holds the records
that are sent. -/
def handle (c : Channel τ ρ) : Request τ ρ → Except Error (List ρ) × Channel τ ρ
  | .write opening checking record => c.writeAt opening checking true record
  | .flush => c.flush true
  | .setTarget target => (.ok [], c.setTarget target)

/-- Does what a channel is asked for while its receiver is connected, unless that overflows. -/
def handle? (c : Channel τ ρ) : Request τ ρ → Option (Except Error (List ρ) × Channel τ ρ)
  | .write opening checking record => c.writeAt? opening checking true record
  | .flush => some (c.flush true)
  | .setTarget target => some (.ok [], c.setTarget target)

/-- Does all that a channel is asked for, up to the first failure, unless something overflows; the
answer holds the records that are sent, in their order. -/
def run? (c : Channel τ ρ) : List (Request τ ρ) → Option (Except Error (List ρ) × Channel τ ρ)
  | [] => some (.ok [], c)
  | request :: rest => do
    match ← c.handle? request with
    | (.error e, c) => return (.error e, c)
    | (.ok sent, c) =>
      let (later, c) ← c.run? rest
      return (later.map (sent ++ ·), c)

/-- Does all that a channel is asked for as if nothing could overflow. -/
def run (c : Channel τ ρ) : List (Request τ ρ) → Except Error (List ρ) × Channel τ ρ
  | [] => (.ok [], c)
  | request :: rest =>
    match c.handle request with
    | (.error e, c) => (.error e, c)
    | (.ok sent, c) =>
      let (later, c) := c.run rest
      (later.map (sent ++ ·), c)

/-! ### Age -/

/-- At a clock reading the buffer is younger than its target, if it has one. -/
def IsYoung (c : Channel τ ρ) (now : τ) : Prop :=
  ∀ target ∈ c.target, ∀ opened ∈ c.openedAt,
    Millis.toInt now - Millis.toInt opened < target.toInt

/-- What a channel calculates is the age in the integers, unless it overflows. -/
theorem isYoung_of_isOverdue_eq_false {c : Channel τ ρ} {now : τ} (h : c.isOverdue now = false)
    (hfits : c.overflows now = false) : c.IsYoung now := by
  intro target htarget opened hopened
  rw [Option.mem_def] at htarget hopened
  rw [isOverdue, htarget, hopened] at h
  rw [overflows, htarget, hopened] at hfits
  have hdifference : Millis.differenceFits now opened = true := by simpa using hfits
  have hage := Millis.toInt_sub now opened hdifference
  have hlimit : Millis.toInt (Millis.ofInt target.toInt : τ) = target.toInt :=
    Millis.toInt_ofInt _ (Millis.fits_int32 target)
  have hless : ¬ Millis.toInt (Millis.ofInt target.toInt : τ)
      ≤ Millis.toInt (Millis.sub now opened) := by
    rw [← Millis.atMost_iff]
    exact Bool.eq_false_iff.mp h
  rw [hage, hlimit] at hless
  omega

/-! ### What is held back -/

/-- Some records, each with the reading at which it came, are what a channel holds back. -/
structure HoldsBack (c : Channel τ ρ) (held : List (τ × ρ)) : Prop where
  buffer : c.buffer = held.map Prod.snd
  openedAt : c.openedAt = held.head?.map Prod.fst

omit [Millis τ] in
theorem holdsBack_ofLimit (id : ChannelId) (limit : ℕ) :
    (ofLimit id limit : Channel τ ρ).HoldsBack [] := ⟨rfl, rfl⟩

section

variable {c : Channel τ ρ} {held : List (τ × ρ)}

omit [Millis τ] in
theorem HoldsBack.isEmpty_buffer (h : c.HoldsBack held) : c.buffer.isEmpty = held.isEmpty := by
  rw [h.buffer, List.isEmpty_map]

omit [Millis τ] in
/-- **A flush sends all that is held back**, in order, and nothing is held back any longer. -/
theorem HoldsBack.flush (h : c.HoldsBack held) :
    (c.flush true).1 = .ok (held.map Prod.snd) ∧ (c.flush true).2.HoldsBack [] := by
  rw [Channel.flush, h.isEmpty_buffer]
  cases held with
  | nil => exact ⟨rfl, h⟩
  | cons first rest => exact ⟨congrArg Except.ok h.buffer, rfl, rfl⟩

omit [Millis τ] in
/-- **A record that comes is held back after the others**, and opens the buffer if it is empty. -/
theorem HoldsBack.push (h : c.HoldsBack held) (opening : τ) (record : ρ) :
    (c.push opening record).HoldsBack (held ++ [(opening, record)]) := by
  constructor
  · show c.buffer ++ [record] = _
    rw [h.buffer, List.map_append]
    rfl
  · show (if c.buffer.isEmpty then some opening else c.openedAt) = _
    rw [h.isEmpty_buffer, h.openedAt]
    cases held <;> rfl

/-- **What a request does to the records**: those that were held back and the one that is written
are sent, or held back from now on, in this order. -/
theorem HoldsBack.handle (h : c.HoldsBack held) (request : Request τ ρ) : ∃ sent held',
    (c.handle request).1 = .ok (sent.map Prod.snd) ∧ (c.handle request).2.HoldsBack held' ∧
      held ++ request.written = sent ++ held' := by
  cases request with
  | write opening checking record =>
    have hpush := h.push opening record
    obtain ⟨hsent, hnone⟩ := hpush.flush
    rw [Channel.handle, writeAt]
    split_ifs
    · exact ⟨_, [], hsent, hnone, (List.append_nil _).symm⟩
    · exact ⟨[], _, rfl, hpush, rfl⟩
  | flush =>
    obtain ⟨hsent, hnone⟩ := h.flush
    exact ⟨held, [], hsent, hnone, rfl⟩
  | setTarget target => exact ⟨[], held, rfl, ⟨h.buffer, h.openedAt⟩, List.append_nil held⟩

end

/-! ### What else a request does -/

omit [Millis τ] in
/-- A flush concerns the buffer only. -/
theorem flush_eq (c : Channel τ ρ) (connected : Bool) : ∃ buffer openedAt buffersSent,
    (c.flush connected).2 = { c with buffer, openedAt, buffersSent } := by
  unfold Channel.flush
  split_ifs
  · exact ⟨_, _, _, rfl⟩
  · exact ⟨_, _, _, rfl⟩
  · exact ⟨_, _, _, rfl⟩

omit [Millis τ] in
/-- After a flush the buffer is empty, whether its records have arrived or are lost. -/
theorem buffer_flush (c : Channel τ ρ) (connected : Bool) : (c.flush connected).2.buffer = [] := by
  unfold Channel.flush
  split_ifs with hempty
  · exact List.isEmpty_iff.mp hempty
  · rfl
  · rfl

/-- The limit stays, and the target is the one that is set. -/
theorem handle_settings (c : Channel τ ρ) (request : Request τ ρ) :
    (c.handle request).2.limit = c.limit ∧
      (c.handle request).2.target = request.target?.or c.target := by
  cases request with
  | write opening checking record =>
    obtain ⟨_, _, _, hflush⟩ := (c.push opening record).flush_eq true
    rw [handle, writeAt]
    split_ifs
    · rw [hflush]
      exact ⟨rfl, rfl⟩
    · exact ⟨rfl, rfl⟩
  | flush =>
    obtain ⟨_, _, _, hflush⟩ := c.flush_eq true
    rw [handle, hflush]
    exact ⟨rfl, rfl⟩
  | setTarget target => exact ⟨rfl, rfl⟩

/-- The buffer is empty, or else neither full nor, at a clock reading, as old as its target. -/
def IsSettled (c : Channel τ ρ) (now : τ) : Prop :=
  c.buffer = [] ∨ c.buffer.length < c.limit ∧ c.IsYoung now

/-- **A write settles the buffer** at the reading with which it looks at the buffer's age, unless it
overflows. -/
theorem isSettled_writeAt {c : Channel τ ρ} {opening checking : τ} {record : ρ}
    (h : c.overflowsOn (.write opening checking record) = false) :
    (c.writeAt opening checking true record).2.IsSettled checking := by
  rw [writeAt]
  split_ifs with hdue
  · exact .inl ((c.push opening record).buffer_flush true)
  · rw [Bool.not_eq_true, Bool.or_eq_false_iff] at hdue
    obtain ⟨hroom, hyoung⟩ := hdue
    have hlt : ¬ (c.push opening record).limit ≤ (c.push opening record).buffer.length :=
      of_decide_eq_false hroom
    have hfits : (c.push opening record).overflows checking = false := by
      simpa [overflowsOn, hroom] using h
    exact .inr ⟨Nat.lt_of_not_le hlt, isYoung_of_isOverdue_eq_false hyoung hfits⟩

/-! ### Runs -/

/-- Nothing overflows at any of the requests. -/
def GetsThrough (c : Channel τ ρ) : List (Request τ ρ) → Prop
  | [] => True
  | request :: rest => c.overflowsOn request = false ∧ (c.handle request).2.GetsThrough rest

/-- **What a run does to the records.**  It does not fail, and it ends with a settled buffer if it
ends with a write and nothing overflows. -/
theorem HoldsBack.run {c : Channel τ ρ} {held : List (τ × ρ)} (h : c.HoldsBack held)
    (requests : List (Request τ ρ)) : ∃ c' sent held',
      c.run requests = (.ok (sent.map Prod.snd), c') ∧ c'.HoldsBack held' ∧
        held ++ requests.flatMap Request.written = sent ++ held' ∧ c'.limit = c.limit ∧
        c'.target = (requests.filterMap Request.target?).getLast?.or c.target ∧
        (c.GetsThrough requests → ∀ before opening checking record,
          requests = before ++ [.write opening checking record] → c'.IsSettled checking) := by
  induction requests generalizing c held with
  | nil =>
    refine ⟨c, [], held, rfl, h, List.append_nil held, rfl, rfl, fun _ => ?_⟩
    intro before opening checking record hlast
    exact absurd hlast.symm (List.append_ne_nil_of_right_ne_nil before (List.cons_ne_nil _ _))
  | cons request rest ih =>
    obtain ⟨sent, held₁, hsent, hheld₁, hsplit⟩ := h.handle request
    obtain ⟨hlimit, htarget⟩ := c.handle_settings request
    obtain ⟨c', later, held', hrun, hheld', hrest, hlimit', htarget', hlast⟩ := ih hheld₁
    have hhandle : c.handle request = (.ok (sent.map Prod.snd), (c.handle request).2) :=
      Prod.ext hsent rfl
    refine ⟨c', sent ++ later, held', ?_, hheld', ?_, hlimit'.trans hlimit, ?_, ?_⟩
    · rw [Channel.run, hhandle]
      simp only [hrun, Except.map, List.map_append]
    · rw [List.flatMap_cons, ← List.append_assoc, hsplit, List.append_assoc, hrest,
        List.append_assoc]
    · rw [htarget', htarget, List.filterMap_cons]
      cases request.target? with
      | none => rw [Option.none_or]
      | some target =>
        rw [Option.some_or, List.getLast?_cons]
        cases (rest.filterMap Request.target?).getLast? <;> rfl
    · rintro ⟨hfits, hthrough⟩ before opening checking record hall
      cases before with
      | nil =>
        obtain ⟨rfl, rfl⟩ := List.cons_eq_cons.mp hall
        obtain rfl : (c.handle (.write opening checking record)).2 = c' := congrArg Prod.snd hrun
        exact isSettled_writeAt hfits
      | cons first others =>
        obtain ⟨-, hothers⟩ := List.cons_eq_cons.mp hall
        exact hlast hthrough others opening checking record hothers

theorem handle?_eq (c : Channel τ ρ) (request : Request τ ρ) :
    c.handle? request = if c.overflowsOn request then none else some (c.handle request) := by
  cases request with
  | write opening checking record => rfl
  | flush => rfl
  | setTarget target => rfl

/-- While the receiver is connected, nothing fails. -/
theorem exists_handle_eq (c : Channel τ ρ) (request : Request τ ρ) :
    ∃ sent, c.handle request = (.ok sent, (c.handle request).2) := by
  have hflush : ∀ c : Channel τ ρ, ∃ sent, (c.flush true).1 = .ok sent := by
    intro c
    unfold Channel.flush
    by_cases hempty : c.buffer.isEmpty = true
    · exact ⟨[], congrArg Prod.fst (if_pos hempty)⟩
    · exact ⟨c.buffer, congrArg Prod.fst (if_neg hempty)⟩
  cases request with
  | write opening checking record =>
    rw [handle, writeAt]
    split_ifs
    · obtain ⟨sent, hsent⟩ := hflush (c.push opening record)
      exact ⟨sent, Prod.ext hsent rfl⟩
    · exact ⟨[], rfl⟩
  | flush =>
    obtain ⟨sent, hsent⟩ := hflush c
    exact ⟨sent, Prod.ext hsent rfl⟩
  | setTarget target => exact ⟨[], rfl⟩

/-- A run gets through just if nothing overflows, and then it is as if nothing could. -/
theorem run?_eq (c : Channel τ ρ) (requests : List (Request τ ρ)) :
    (c.GetsThrough requests → c.run? requests = some (c.run requests)) ∧
      (¬ c.GetsThrough requests → c.run? requests = none) := by
  induction requests generalizing c with
  | nil => exact ⟨fun _ => rfl, fun h => absurd trivial h⟩
  | cons request rest ih =>
    obtain ⟨sent, hhandle⟩ := c.exists_handle_eq request
    obtain ⟨hthrough, hends⟩ := ih (c.handle request).2
    rw [run?, handle?_eq, run]
    cases hoverflows : c.overflowsOn request with
    | true =>
      refine ⟨fun h => ?_, fun _ => rfl⟩
      cases hoverflows.symm.trans h.1
    | false =>
      rw [hhandle]
      constructor
      · rintro ⟨-, hrest⟩
        show ((c.handle request).2.run? rest).bind _ = _
        rw [hthrough hrest]
        rfl
      · intro h
        show ((c.handle request).2.run? rest).bind _ = none
        rw [hends fun hrest => h ⟨hoverflows, hrest⟩]
        rfl

/-- Looking at the age of the buffer, which is not full and has a target, takes a time that the
clock cannot read. -/
structure Overreaches (c : Channel τ ρ) (now : τ) : Prop where
  room : c.buffer.length < c.limit
  hasTarget : c.target.isSome = true
  beyond : ∃ opened ∈ c.openedAt, Millis.fits τ (Millis.toInt now - Millis.toInt opened) = false

theorem overreaches_iff {c : Channel τ ρ} {opening checking : τ} {record : ρ} :
    c.overflowsOn (.write opening checking record) = true ↔
      (c.push opening record).Overreaches checking := by
  have hroom : (c.push opening record).isFull = false ↔
      (c.push opening record).buffer.length < (c.push opening record).limit := by
    rw [isFull, decide_eq_false_iff_not, Nat.not_le]
  have hage : (c.push opening record).overflows checking = true ↔
      (c.push opening record).target.isSome = true ∧ ∃ opened ∈ (c.push opening record).openedAt,
        Millis.fits τ (Millis.toInt checking - Millis.toInt opened) = false := by
    unfold overflows
    cases (c.push opening record).target <;> cases (c.push opening record).openedAt <;>
      simp [Millis.differenceFits]
  rw [overflowsOn, Bool.and_eq_true, Bool.not_eq_true', hroom, hage]
  exact ⟨fun ⟨h₁, h₂, h₃⟩ => ⟨h₁, h₂, h₃⟩, fun ⟨h₁, h₂, h₃⟩ => ⟨h₁, h₂, h₃⟩⟩

/-- A run ends at the first write that overreaches. -/
theorem not_getsThrough_iff {c : Channel τ ρ} {requests : List (Request τ ρ)} :
    ¬ c.GetsThrough requests ↔ ∃ before opening checking record later,
      requests = before ++ .write opening checking record :: later ∧ ∃ answer c',
        c.run? before = some (answer, c') ∧ (c'.push opening record).Overreaches checking := by
  induction requests generalizing c with
  | nil => simp [GetsThrough]
  | cons request rest ih =>
    obtain ⟨sent, hhandle⟩ := c.exists_handle_eq request
    cases hoverflows : c.overflowsOn request with
    | true =>
      refine iff_of_true (fun h => ?_) ?_
      · cases hoverflows.symm.trans h.1
      · cases request with
        | write opening checking record =>
          exact ⟨[], opening, checking, record, rest, rfl, _, c, rfl, overreaches_iff.mp hoverflows⟩
        | flush => cases hoverflows
        | setTarget target => cases hoverflows
    | false =>
      have hstep : ∀ before, c.run? (request :: before) =
          ((c.handle request).2.run? before).map fun (later, c) => (later.map (sent ++ ·), c) := by
        intro before
        rw [run?, handle?_eq, hoverflows, hhandle]
        show ((c.handle request).2.run? before).bind _ = _
        cases (c.handle request).2.run? before <;> rfl
      have hrest : ¬ c.GetsThrough (request :: rest) ↔ ¬ (c.handle request).2.GetsThrough rest :=
        not_congr (and_iff_right hoverflows)
      rw [hrest, ih]
      constructor
      · rintro ⟨before, opening, checking, record, later, rfl, answer, c', hrun, hbeyond⟩
        exact ⟨request :: before, opening, checking, record, later, rfl, _, c',
          by rw [hstep, hrun]; rfl, hbeyond⟩
      · rintro ⟨before, opening, checking, record, later, hall, answer, c', hrun, hbeyond⟩
        cases before with
        | nil =>
          obtain ⟨rfl, -⟩ := List.cons_eq_cons.mp hall
          obtain ⟨-, rfl⟩ := Prod.mk.inj (Option.some.inj hrun)
          cases hoverflows.symm.trans (overreaches_iff.mpr hbeyond)
        | cons first others =>
          obtain ⟨rfl, rfl⟩ := List.cons_eq_cons.mp hall
          rw [hstep] at hrun
          obtain ⟨⟨answer', c''⟩, hothers, heq⟩ := Option.map_eq_some_iff.mp hrun
          obtain ⟨-, rfl⟩ := Prod.mk.inj heq
          exact ⟨others, opening, checking, record, later, rfl, answer', c'', hothers, hbeyond⟩

/-- The channel is what becomes of a new one with the given limit by the requests; it has sent some
records and holds back others, each with the reading at which it came. -/
structure HasServed (c : Channel τ ρ) (limit : ℕ) (requests : List (Request τ ρ))
    (sent held : List (τ × ρ)) : Prop where
  /-- No record is lost, sent twice or sent out of order. -/
  written : requests.flatMap Request.written = sent ++ held
  buffer : c.buffer = held.map Prod.snd
  /-- The opening time is the reading at which the first record in the buffer came. -/
  openedAt : c.openedAt = held.head?.map Prod.fst
  target : c.target = (requests.filterMap Request.target?).getLast?
  /-- After a write the buffer is empty, or it has room and is younger than the target. -/
  settled : ∀ before opening checking record,
    requests = before ++ [.write opening checking record] →
      c.buffer = [] ∨ c.buffer.length < max limit 1 ∧ c.IsYoung checking

section

variable (id : ChannelId) (limit : ℕ) (requests : List (Request τ ρ))

/-- A new channel serves what it gets through. -/
theorem hasServed_of_run? {answer : Except Error (List ρ)} {c : Channel τ ρ}
    (h : (ofLimit id limit : Channel τ ρ).run? requests = some (answer, c)) :
    ∃ sent held, answer = .ok (sent.map Prod.snd) ∧ c.HasServed limit requests sent held := by
  obtain ⟨hthrough, hends⟩ := (ofLimit id limit : Channel τ ρ).run?_eq requests
  have hfits : (ofLimit id limit : Channel τ ρ).GetsThrough requests := by
    by_contra hbeyond
    cases h.symm.trans (hends hbeyond)
  obtain ⟨c', sent, held, hrun, hheld, hwritten, hlimit, htarget, hlast⟩ :=
    (holdsBack_ofLimit id limit).run requests
  rw [hthrough hfits, hrun] at h
  obtain ⟨rfl, rfl⟩ := Prod.mk.inj (Option.some.inj h)
  refine ⟨sent, held, rfl, hwritten, hheld.buffer, hheld.openedAt, ?_, ?_⟩
  · rw [htarget]
    exact Option.or_none
  · intro before opening checking record hwrite
    have hsettled := hlast hfits before opening checking record hwrite
    rw [IsSettled, hlimit] at hsettled
    exact hsettled

/-- A buffer is opened at one of the readings. -/
theorem HasServed.mem_readings {c : Channel τ ρ} {before later : List (Request τ ρ)}
    {sent held : List (τ × ρ)} (h : c.HasServed limit before sent held) {opening checking : τ}
    {record : ρ} (hrequests : requests = before ++ .write opening checking record :: later)
    {opened : τ} (hopened : opened ∈ (c.push opening record).openedAt) :
    opened ∈ requests.flatMap Request.readings := by
  have hhead : (c.push opening record).openedAt
      = (held ++ [(opening, record)]).head?.map Prod.fst :=
    (HoldsBack.push ⟨h.buffer, h.openedAt⟩ opening record).openedAt
  rw [hhead, Option.mem_def, Option.map_eq_some_iff] at hopened
  obtain ⟨⟨t, r⟩, hfirst, rfl⟩ := hopened
  have hwritten : (t, r) ∈ requests.flatMap Request.written := by
    have hall : requests.flatMap Request.written =
        sent ++ (held ++ [(opening, record)]) ++ later.flatMap Request.written := by
      rw [hrequests, List.flatMap_append, h.written, List.flatMap_cons]
      simp only [Request.written, List.append_assoc]
    rw [hall]
    have hmem := List.mem_of_mem_head? hfirst
    exact List.mem_append_left _ (List.mem_append_right _ hmem)
  obtain ⟨request, hrequest, hmem⟩ := List.mem_flatMap.mp hwritten
  refine List.mem_flatMap.mpr ⟨request, hrequest, ?_⟩
  cases request with
  | write opening' checking' record' =>
    obtain ⟨rfl, -⟩ := Prod.mk.inj (List.mem_singleton.mp hmem)
    exact List.mem_cons_self
  | flush => exact (List.not_mem_nil hmem).elim
  | setTarget target => exact (List.not_mem_nil hmem).elim

/-- **What a channel holds back.**  A new channel is asked for anything while its receiver is
connected, with any readings of the clock.  Then

* if the program gets through, nothing has failed and the channel has served the requests;
* the program ends where a write finds a target and a buffer that is not full, the age of which is
  nothing that the clock can read, and nowhere else;
* so it gets through if the clock can read all differences between the readings. -/
theorem run?_ofLimit :
    (∀ answer c, (ofLimit id limit : Channel τ ρ).run? requests = some (answer, c) →
      ∃ sent held, answer = .ok (sent.map Prod.snd) ∧ c.HasServed limit requests sent held) ∧
    ((ofLimit id limit : Channel τ ρ).run? requests = none ↔
      ∃ before opening checking record later,
        requests = before ++ .write opening checking record :: later ∧ ∃ answer c,
          (ofLimit id limit : Channel τ ρ).run? before = some (answer, c) ∧
            (c.push opening record).Overreaches checking) ∧
    ((∀ t ∈ requests.flatMap Request.readings, ∀ t' ∈ requests.flatMap Request.readings,
        Millis.differenceFits t t' = true) →
      ∃ answer, (ofLimit id limit : Channel τ ρ).run? requests = some answer) := by
  obtain ⟨hthrough, hends⟩ := (ofLimit id limit : Channel τ ρ).run?_eq requests
  have hnone : (ofLimit id limit : Channel τ ρ).run? requests = none ↔
      ¬ (ofLimit id limit : Channel τ ρ).GetsThrough requests := by
    refine ⟨fun h hfits => ?_, hends⟩
    cases h.symm.trans (hthrough hfits)
  refine ⟨fun answer c hrun => hasServed_of_run? id limit requests hrun,
    hnone.trans not_getsThrough_iff, fun hreadings => ⟨_, hthrough ?_⟩⟩
  by_contra hbeyond
  obtain ⟨before, opening, checking, record, later, hrequests, answer, c, hrun, hoverreaches⟩ :=
    not_getsThrough_iff.mp hbeyond
  obtain ⟨sent, held, -, hserved⟩ := hasServed_of_run? id limit before hrun
  obtain ⟨opened, hopened, hage⟩ := hoverreaches.beyond
  have hchecking : checking ∈ requests.flatMap Request.readings := by
    rw [hrequests, List.flatMap_append, List.flatMap_cons]
    simp [Request.readings]
  have hfits := hreadings checking hchecking opened
    (hserved.mem_readings limit requests hrequests hopened)
  cases hage.symm.trans hfits

end

/-- A record that is written before zero is still held back at the greatest reading, and then
another one is written. -/
def agedRequests : List (Request Int64 ℕ) :=
  [.setTarget 10, .write (-1) (-1) 1, .write Int64.maxValue Int64.maxValue 2]

/-- The second record ought to send both, as the first is older than the target by far. -/
theorem not_hasServed_agedRequests :
    ¬ ∃ answer c sent held,
      (ofLimit ⟨"c"⟩ 10 : Channel Int64 ℕ).run? agedRequests = some (answer, c) ∧
        c.HasServed 10 agedRequests sent held := by
  rintro ⟨answer, c, sent, held, hrun, -⟩
  have hends : ((ofLimit ⟨"c"⟩ 10 : Channel Int64 ℕ).run? agedRequests).isNone = true := by
    decide +kernel
  rw [hrun] at hends
  cases hends

end Channel

end LatencyControl
