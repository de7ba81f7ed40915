import LatencyControl.Flow.Write
import Mathlib.Data.Nat.Notation
import Mathlib.Data.List.Basic

/-!
# Lines of tasks

In a line of tasks every task reads what its predecessor writes.  `Stage` is what counts of one
task: its user code and memory, the records that wait in its queue and in the buffer of its output
gate, and what is queued at that gate.  `Line` is the row of the stages, with the records that have
left it.

The measure of everything is `Line.yield L k xs`: all records that will have left the line when the
records `xs` are written to the gate of stage `k`, and everything that waits anywhere from there on
is worked off.  Sending a buffer does not change it (`yield_flush`), writing a record puts that
record in front (`yield_push`), and running a stage whose queue is empty, behind a gate whose buffer
is empty, turns the records in front into what the stage makes of them (`yield_advance`).  What
yields the same from a gate on yields the same from every earlier gate (`yield_eq_of_le`).
-/

namespace LatencyControl

variable {σ ρ : Type}

/-! ### User code on many records -/

/-- What user code makes of some records, one after the other, and the memory that it is left
with. -/
def transduce (code : σ → ρ → List ρ × σ) : σ → List ρ → List ρ × σ
  | memory, [] => ([], memory)
  | memory, record :: rest =>
    let (made, memory) := code memory record
    let (later, memory) := transduce code memory rest
    (made ++ later, memory)

theorem transduce_append (code : σ → ρ → List ρ × σ) (m : σ) (xs ys : List ρ) :
    transduce code m (xs ++ ys)
      = ((transduce code m xs).1 ++ (transduce code (transduce code m xs).2 ys).1,
        (transduce code (transduce code m xs).2 ys).2) := by
  induction xs generalizing m with
  | nil => rfl
  | cons x xs ih => simp only [List.cons_append, transduce, ih, List.append_assoc]

/-! ### Stages -/

/-- What counts of a task in a line. -/
structure Stage (σ ρ : Type) where
  code : σ → ρ → List ρ × σ
  memory : σ
  /-- The records that wait to be read. -/
  queue : List ρ
  /-- The records that wait to be sent. -/
  buffer : List ρ
  /-- The chain that the output gate is the head of. -/
  chain : Option Chain
  /-- The actions queued at the output gate. -/
  pending : List GateAction
  /-- Whether the thread of the task works on a record, if there is one that runs. -/
  working : Option Bool

namespace Stage

/-- What the stage makes of some records, as it stands. -/
def makes (s : Stage σ ρ) (records : List ρ) : List ρ := (transduce s.code s.memory records).1

/-- The stage after it has worked on some records. -/
def after (s : Stage σ ρ) (records : List ρ) : Stage σ ρ :=
  { s with memory := (transduce s.code s.memory records).2 }

/-- What decides what a stage makes of the records that its predecessor sends. -/
def inlet (s : Stage σ ρ) : (σ → ρ → List ρ × σ) × σ × List ρ := (s.code, s.memory, s.queue)

/-- What nobody but the task's own thread ever changes. -/
def fixed (s : Stage σ ρ) : (σ → ρ → List ρ × σ) × Option Bool := (s.code, s.working)

/-- Everything that waits at the stage. -/
def contents (s : Stage σ ρ) : List ρ × List ρ × Option Chain × List GateAction :=
  (s.queue, s.buffer, s.chain, s.pending)

theorem makes_append (s : Stage σ ρ) (xs ys : List ρ) :
    s.makes (xs ++ ys) = s.makes xs ++ (s.after xs).makes ys := by
  simp only [makes, after, transduce_append]

theorem after_nil (s : Stage σ ρ) : s.after [] = s := rfl

end Stage

/-- The records that leave a row of stages in the end, if the given ones are written to the gate of
the first stage: all that waits behind that gate is worked off as well. -/
def outflow : List (Stage σ ρ) → List ρ → List ρ
  | [], records => records
  | [s], records => s.buffer ++ records
  | s :: next :: rest, records =>
    outflow (next :: rest) (next.makes (next.queue ++ s.buffer ++ records))

/-! ### Lines -/

/-- The stages of a line, and the records that have left it. -/
structure Line (σ ρ : Type) where
  stages : List (Stage σ ρ)
  arrived : List ρ

namespace Line

/-- How many stages there are. -/
def size (L : Line σ ρ) : ℕ := L.stages.length

/-- Changes one stage. -/
def modify (L : Line σ ρ) (k : ℕ) (f : Stage σ ρ → Stage σ ρ) : Line σ ρ :=
  { L with stages := L.stages.modify k f }

/-- A record is put into the buffer of a gate. -/
def push (L : Line σ ρ) (k : ℕ) (record : ρ) : Line σ ρ :=
  L.modify k (fun s => { s with buffer := s.buffer ++ [record] })

/-- Records go from a gate to the next stage, or out of the line. -/
def leave (L : Line σ ρ) (k : ℕ) (records : List ρ) : Line σ ρ :=
  if k + 1 < L.size then L.modify (k + 1) (fun s => { s with queue := s.queue ++ records })
  else { L with arrived := L.arrived ++ records }

/-- The buffer of a gate is sent. -/
def flush (L : Line σ ρ) (k : ℕ) : Line σ ρ :=
  match L.stages[k]? with
  | some s => (L.modify k (fun s => { s with buffer := [] })).leave k s.buffer
  | none => L

/-- All records that will have left the line, if the given ones are written to a gate. -/
def yield (L : Line σ ρ) (k : ℕ) (records : List ρ) : List ρ :=
  L.arrived ++ outflow (L.stages.drop k) records

/-! ### Looking at changed lines -/

@[simp] theorem size_modify (L : Line σ ρ) (k : ℕ) (f : Stage σ ρ → Stage σ ρ) :
    (L.modify k f).size = L.size := by
  simp [size, modify]

@[simp] theorem arrived_modify (L : Line σ ρ) (k : ℕ) (f : Stage σ ρ → Stage σ ρ) :
    (L.modify k f).arrived = L.arrived := rfl

@[simp] theorem getElem?_modify_self (L : Line σ ρ) (k : ℕ) (f : Stage σ ρ → Stage σ ρ) :
    (L.modify k f).stages[k]? = L.stages[k]?.map f := by
  simp [modify]

theorem getElem?_modify_of_ne (L : Line σ ρ) {k m : ℕ} (h : m ≠ k) (f : Stage σ ρ → Stage σ ρ) :
    (L.modify k f).stages[m]? = L.stages[m]? := by
  simp [modify, Ne.symm h]

/-- A stage of a changed line is the one that was there, changed if it is the one in question. -/
theorem getElem?_modify_eq_some {L : Line σ ρ} {k m : ℕ} {f : Stage σ ρ → Stage σ ρ}
    {s' : Stage σ ρ} (h : (L.modify k f).stages[m]? = some s') :
    ∃ s, L.stages[m]? = some s ∧ s' = if m = k then f s else s := by
  by_cases hm : m = k
  · subst hm
    rw [getElem?_modify_self, Option.map_eq_some_iff] at h
    obtain ⟨s, hs, rfl⟩ := h
    exact ⟨s, hs, by simp⟩
  · rw [getElem?_modify_of_ne L hm] at h
    exact ⟨s', h, by simp [hm]⟩

theorem exists_stage {L : Line σ ρ} {k : ℕ} (h : k < L.size) : ∃ s, L.stages[k]? = some s :=
  ⟨L.stages[k], List.getElem?_eq_getElem h⟩

theorem lt_size {L : Line σ ρ} {k : ℕ} {s : Stage σ ρ} (h : L.stages[k]? = some s) : k < L.size :=
  (List.getElem?_eq_some_iff.mp h).1

/-- Changes that do the same to the stage in question. -/
theorem modify_congr {L : Line σ ρ} {k : ℕ} {f g : Stage σ ρ → Stage σ ρ}
    (h : ∀ s, L.stages[k]? = some s → f s = g s) : L.modify k f = L.modify k g := by
  have hstages : L.stages.modify k f = L.stages.modify k g := by
    refine List.ext_getElem? fun m => ?_
    rw [List.getElem?_modify, List.getElem?_modify]
    by_cases hm : k = m
    · subst hm
      cases hs : L.stages[k]? with
      | none => rfl
      | some s => simp [h s hs]
    · simp [hm]
  rw [modify, modify, hstages]

theorem modify_modify (L : Line σ ρ) (k : ℕ) (f g : Stage σ ρ → Stage σ ρ) :
    (L.modify k f).modify k g = L.modify k (g ∘ f) := by
  simp only [modify, List.modify_modify_eq]

/-- A change that changes nothing. -/
theorem modify_eq_self {L : Line σ ρ} {k : ℕ} {f : Stage σ ρ → Stage σ ρ}
    (h : ∀ s, L.stages[k]? = some s → f s = s) : L.modify k f = L := by
  rw [modify_congr (g := id) h, modify, List.modify_id]

/-! ### What a line yields -/

theorem yield_of_succ {L : Line σ ρ} {k : ℕ} {s next : Stage σ ρ} (hs : L.stages[k]? = some s)
    (hnext : L.stages[k + 1]? = some next) (xs : List ρ) :
    L.yield k xs = L.yield (k + 1) (next.makes (next.queue ++ s.buffer ++ xs)) := by
  obtain ⟨hk, rfl⟩ := List.getElem?_eq_some_iff.mp hs
  obtain ⟨hk', rfl⟩ := List.getElem?_eq_some_iff.mp hnext
  rw [yield, yield, List.drop_eq_getElem_cons hk, List.drop_eq_getElem_cons hk', outflow]

theorem yield_of_last {L : Line σ ρ} {k : ℕ} {s : Stage σ ρ} (hs : L.stages[k]? = some s)
    (hlast : k + 1 = L.size) (xs : List ρ) : L.yield k xs = L.arrived ++ (s.buffer ++ xs) := by
  obtain ⟨hk, rfl⟩ := List.getElem?_eq_some_iff.mp hs
  have hnil : L.stages.drop (k + 1) = [] := List.drop_eq_nil_of_le (Nat.le_of_eq hlast.symm)
  rw [yield, List.drop_eq_getElem_cons hk, hnil, outflow]

/-- What a gate yields depends on its buffer and on what is behind it. -/
theorem yield_congr {L L' : Line σ ρ} {k : ℕ} (harr : L'.arrived = L.arrived)
    (hdrop : L'.stages.drop (k + 1) = L.stages.drop (k + 1))
    (hbuf : L'.stages[k]?.map Stage.buffer = L.stages[k]?.map Stage.buffer) (xs : List ρ) :
    L'.yield k xs = L.yield k xs := by
  rw [yield, yield, harr]
  congr 1
  cases hs : L.stages[k]? with
  | none =>
    have hs' : L'.stages[k]? = none := by simpa [hs] using hbuf
    rw [List.drop_eq_nil_of_le (List.getElem?_eq_none_iff.mp hs),
      List.drop_eq_nil_of_le (List.getElem?_eq_none_iff.mp hs')]
  | some s =>
    obtain ⟨s', hs', hb⟩ : ∃ s', L'.stages[k]? = some s' ∧ s'.buffer = s.buffer := by
      simpa [hs, Option.map_eq_some_iff] using hbuf
    obtain ⟨hk, rfl⟩ := List.getElem?_eq_some_iff.mp hs
    obtain ⟨hk', rfl⟩ := List.getElem?_eq_some_iff.mp hs'
    rw [List.drop_eq_getElem_cons hk, List.drop_eq_getElem_cons hk', hdrop]
    -- `outflow` looks at the buffer of the first stage only, but at two stages at once
    cases L.stages.drop (k + 1) with
    | nil => simp only [outflow, hb]
    | cons next rest => simp only [outflow, hb]

/-- What yields the same from a gate on yields the same from every earlier gate. -/
theorem yield_eq_of_le {L L' : Line σ ρ} {k : ℕ} (hsize : L'.size = L.size) (hk : k < L.size)
    (hbefore : ∀ m < k, L'.stages[m]? = L.stages[m]?)
    (hinlet : L'.stages[k]?.map Stage.inlet = L.stages[k]?.map Stage.inlet)
    (h : ∀ ys, L'.yield k ys = L.yield k ys) {j : ℕ} (hj : j ≤ k) (ys : List ρ) :
    L'.yield j ys = L.yield j ys := by
  -- from gate `k` towards the front: gate `j` yields what gate `j + 1` yields for the records that
  -- the stage between them makes, and that stage makes the same ones in both lines
  induction hd : k - j generalizing j ys with
  | zero =>
    obtain rfl : j = k := by omega
    exact h ys
  | succ d ih =>
    obtain ⟨s, hs⟩ := exists_stage (L := L) (k := j) (by omega)
    obtain ⟨next, hnext⟩ := exists_stage (L := L) (k := j + 1) (by omega)
    obtain ⟨next', hnext'⟩ := exists_stage (L := L') (k := j + 1) (by omega)
    have hs' : L'.stages[j]? = some s := by rw [hbefore j (by omega), hs]
    have hsame : next'.inlet = next.inlet := by
      by_cases hjk : j + 1 = k
      · simpa [← hjk, hnext, hnext'] using hinlet
      · have := hbefore (j + 1) (by omega)
        rw [hnext, hnext', Option.some.injEq] at this
        rw [this]
    simp only [Stage.inlet, Prod.mk.injEq] at hsame
    obtain ⟨hcode, hmemory, hqueue⟩ := hsame
    rw [yield_of_succ hs' hnext', yield_of_succ hs hnext, ih (by omega) _ (by omega), Stage.makes,
      Stage.makes, hcode, hmemory, hqueue]

/-! ### What changes of a line do to its yield -/

/-- A change of a stage that leaves its buffer alone does not show at its own gate. -/
theorem yield_modify_self (L : Line σ ρ) (k : ℕ) (f : Stage σ ρ → Stage σ ρ)
    (hf : ∀ s, (f s).buffer = s.buffer) (xs : List ρ) :
    (L.modify k f).yield k xs = L.yield k xs := by
  refine yield_congr (arrived_modify L k f) ?_ ?_ xs
  · exact List.drop_modify_of_lt f k (k + 1) L.stages (Nat.lt_succ_self k)
  · rw [getElem?_modify_self, Option.map_map]
    congr 1
    funext s
    exact hf s

/-- A change of a stage that leaves its code, memory, queue and buffer alone does not show at any
gate. -/
theorem yield_modify (L : Line σ ρ) (k : ℕ) (f : Stage σ ρ → Stage σ ρ)
    (hbuf : ∀ s, (f s).buffer = s.buffer) (hinlet : ∀ s, (f s).inlet = s.inlet) (j : ℕ)
    (xs : List ρ) : (L.modify k f).yield j xs = L.yield j xs := by
  by_cases hk : k < L.size
  · by_cases hj : j ≤ k
    · refine yield_eq_of_le (size_modify L k f) hk ?_ ?_ (yield_modify_self L k f hbuf) hj xs
      · exact fun m hm => getElem?_modify_of_ne L (by omega) f
      · rw [getElem?_modify_self, Option.map_map]
        congr 1
        funext s
        exact hinlet s
    · rw [yield, yield, arrived_modify]
      congr 2
      exact List.drop_modify_of_lt f k j L.stages (by omega)
  · rw [modify, List.modify_eq_self (by simpa [size] using hk)]

/-- What is written to a gate comes before everything that is written later. -/
theorem yield_push {L : Line σ ρ} {k : ℕ} (hk : k < L.size) (record : ρ) (ys : List ρ) :
    (L.push k record).yield k ys = L.yield k (record :: ys) := by
  obtain ⟨s, hs⟩ := exists_stage hk
  have hs' : (L.push k record).stages[k]? = some { s with buffer := s.buffer ++ [record] } := by
    rw [push, getElem?_modify_self, hs, Option.map_some]
  have hsize : (L.push k record).size = L.size := size_modify L k _
  by_cases hlast : k + 1 = L.size
  · rw [yield_of_last hs' (by omega), yield_of_last hs hlast]
    simp [push]
  · obtain ⟨next, hnext⟩ := exists_stage (L := L) (k := k + 1) (by omega)
    have hnext' : (L.push k record).stages[k + 1]? = some next := by
      rw [push, getElem?_modify_of_ne L (by omega), hnext]
    -- the stages behind the gate are the same, and `next` gets its queue, the buffer and the rest
    rw [yield_of_succ hs' hnext', yield_of_succ hs hnext, yield, yield, push, arrived_modify,
      modify, List.drop_modify_of_lt _ _ _ _ (Nat.lt_succ_self k)]
    simp

/-! ### Sending a buffer -/

@[simp] theorem size_leave (L : Line σ ρ) (k : ℕ) (xs : List ρ) : (L.leave k xs).size = L.size := by
  unfold leave
  split <;> simp [size, modify]

@[simp] theorem size_flush (L : Line σ ρ) (k : ℕ) : (L.flush k).size = L.size := by
  unfold flush
  split <;> simp

/-- If no records leave a gate, nothing happens. -/
theorem leave_nil (L : Line σ ρ) (k : ℕ) : L.leave k [] = L := by
  unfold leave
  split
  · exact modify_eq_self fun s _ => by simp
  · simp

/-- A record that is sent at once, with everything before it. -/
theorem flush_push {L : Line σ ρ} {k : ℕ} {s : Stage σ ρ} (hs : L.stages[k]? = some s)
    (record : ρ) :
    (L.push k record).flush k
      = (L.modify k (fun s => { s with buffer := [] })).leave k (s.buffer ++ [record]) := by
  rw [flush, push, getElem?_modify_self, hs, Option.map_some]
  dsimp only
  rw [modify_modify]
  rfl

/-- A stage after records have left a gate: those of the next stage are in its queue. -/
theorem getElem?_leave_eq_some {L : Line σ ρ} {k m : ℕ} {xs : List ρ} {s' : Stage σ ρ}
    (h : (L.leave k xs).stages[m]? = some s') :
    ∃ s, L.stages[m]? = some s ∧
      s' = if m = k + 1 then { s with queue := s.queue ++ xs } else s := by
  unfold leave at h
  split at h
  · exact getElem?_modify_eq_some h
  · next hk =>
    have hm : m ≠ k + 1 := by
      have := lt_size (L := L) h
      omega
    exact ⟨s', h, by rw [if_neg hm]⟩

/-- A stage after the buffer of a gate was sent. -/
theorem getElem?_flush_eq_some {L : Line σ ρ} {k m : ℕ} {s' : Stage σ ρ}
    (h : (L.flush k).stages[m]? = some s') :
    ∃ s, L.stages[m]? = some s ∧
      s' = if m = k then { s with buffer := [] }
        else if m = k + 1 then
          { s with queue := s.queue ++ ((L.stages[k]?).map Stage.buffer).getD [] }
        else s := by
  unfold flush at h
  split at h
  · next head hhead =>
    obtain ⟨s₁, hs₁, rfl⟩ := getElem?_leave_eq_some h
    obtain ⟨s, hs, rfl⟩ := getElem?_modify_eq_some hs₁
    refine ⟨s, hs, ?_⟩
    by_cases hm : m = k
    · rw [if_pos hm, if_neg (by omega), if_pos hm]
    · rw [if_neg hm, if_neg hm, hhead]
      rfl
  · next hnone =>
    have hm : m ≠ k := by
      rintro rfl
      rw [hnone] at h
      cases h
    refine ⟨s', h, ?_⟩
    rw [if_neg hm, hnone]
    simp

theorem yield_leave {L : Line σ ρ} {k : ℕ} {s : Stage σ ρ} (hs : L.stages[k]? = some s)
    (hempty : s.buffer = []) (xs ys : List ρ) :
    (L.leave k xs).yield k ys = L.yield k (xs ++ ys) := by
  have hk := lt_size hs
  unfold leave
  split
  · next hnext =>
    obtain ⟨next, hnext⟩ := exists_stage hnext
    have hs' : (L.modify (k + 1) (fun s => { s with queue := s.queue ++ xs })).stages[k]?
        = some s := by
      rw [getElem?_modify_of_ne L (by omega), hs]
    have hnext' : (L.modify (k + 1) (fun s => { s with queue := s.queue ++ xs })).stages[k + 1]?
        = some { next with queue := next.queue ++ xs } := by
      rw [getElem?_modify_self, hnext, Option.map_some]
    -- `xs` now stand at the end of the queue of `next`: where they would be, as the buffer is empty
    rw [yield_of_succ hs' hnext', yield_of_succ hs hnext,
      yield_modify_self L (k + 1) (fun s => { s with queue := s.queue ++ xs }) (fun _ => rfl),
      hempty]
    simp [Stage.makes]
  · next hlast =>
    have hlast : k + 1 = L.size := by omega
    rw [yield_of_last (L := { L with arrived := L.arrived ++ xs }) hs hlast, yield_of_last hs hlast,
      hempty]
    simp

/-- Sending a buffer changes nothing in the end. -/
theorem yield_flush (L : Line σ ρ) (k : ℕ) (ys : List ρ) :
    (L.flush k).yield k ys = L.yield k ys := by
  unfold flush
  split
  · next s hs =>
    have hs' : (L.modify k (fun s => { s with buffer := [] })).stages[k]?
        = some { s with buffer := [] } := by
      rw [getElem?_modify_self, hs, Option.map_some]
    rw [yield_leave hs' rfl]
    by_cases hlast : k + 1 = L.size
    · rw [yield_of_last hs' (by simpa using hlast), yield_of_last hs hlast]
      simp
    · have hk := lt_size hs
      obtain ⟨next, hnext⟩ := exists_stage (L := L) (k := k + 1) (by omega)
      have hnext' : (L.modify k (fun s => { s with buffer := [] })).stages[k + 1]? = some next := by
        rw [getElem?_modify_of_ne L (by omega), hnext]
      rw [yield_of_succ hs' hnext', yield_of_succ hs hnext, yield, yield, arrived_modify, modify,
        List.drop_modify_of_lt _ _ _ _ (Nat.lt_succ_self k)]
      simp
  · rfl

/-! ### Running a stage -/

/-- A stage with an empty queue, behind an empty buffer, works on what would be written to that
buffer. -/
theorem yield_advance {L : Line σ ρ} {k : ℕ} {s next : Stage σ ρ} (hs : L.stages[k]? = some s)
    (hnext : L.stages[k + 1]? = some next) (hbuf : s.buffer = []) (hqueue : next.queue = [])
    (xs ys : List ρ) :
    L.yield k (xs ++ ys) = L.yield (k + 1) (next.makes xs ++ (next.after xs).makes ys) := by
  rw [yield_of_succ hs hnext, hbuf, hqueue, List.nil_append, List.nil_append, Stage.makes_append]

end Line

end LatencyControl
