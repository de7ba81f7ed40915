import LatencyControl.Proofs.Flow.Annotating
import LatencyControl.Proofs.Flow.Upkeep

/-!
# Gates select in turn

Writes may make others, to any depth, and so may everything else that makes records move (`Move`).
`World.picksOf` has the selections that a move makes at all gates, in their order, and
`World.run_annotated` says that noting them changes nothing.  A run is any number of moves, with
anything in between that leaves selectors and channels alone (`Picked`).

`Picked.selects_in_turn` says of every run that a gate with a round robin selector gives each of its
channels a turn before any of them has another one, no matter which records come to it, in which
writes, and whether they go to channels or through a chain; and that no selector ever selects a
channel twice for a record, or one that is not there.
-/

namespace LatencyControl

variable {σ ρ : Type}

/-! ### Moves -/

/-- What makes records move. -/
inductive Move (ρ : Type)
  /-- A record is written to an output gate. -/
  | write (g : GateRef) (record : ρ)
  /-- An output gate sends its buffers. -/
  | flush (g : GateRef)
  /-- An output gate carries out what is queued. -/
  | perform (g : GateRef)
  /-- A record passes through a chain, from the link with the given index on. -/
  | through (c : Chain) (start : ℕ) (record : ρ)
  /-- The thread of a task handles some records. -/
  | turn (task records : ℕ)
  /-- The thread of a task works off what is queued, if it is eager to do so. -/
  | settle (task : ℕ)

namespace Move

/-- Makes records move, with the given way of writing. -/
def act (write : GateRef → ρ → Flow σ ρ Unit) : Move ρ → Flow σ ρ Unit
  | .write g record => write g record
  | .flush g => Flow.flushGate write g
  | .perform g => Flow.performPending write g
  | .through c start record => Flow.writeFrom write c start record
  | .turn task records => Flow.giveTurn write task records
  | .settle task => Flow.settle write task

/-- Makes records move. -/
def flow (m : Move ρ) : Flow σ ρ Unit := Flow.withWriter fun write => m.act write

/-- What a move makes of an instance, whether it fails or not. -/
def apply (m : Move ρ) (w : World σ ρ) : World σ ρ := (m.flow.run.run w).2

/-- Makes records move, and notes what is selected. -/
def noting (m : Move ρ) : Flow (Noted σ ρ) ρ Unit := Flow.withNotes fun write => m.act write

theorem annotates_noting (m : Move ρ) :
    Flow.Annotates (m.noting : Flow (Noted σ ρ) ρ Unit) (m.flow : Flow σ ρ Unit) := by
  refine Flow.annotates_withWriter fun write' write hwrite => ?_
  cases m with
  | write g record => exact hwrite g record
  | flush g => exact Flow.annotates_flushGate hwrite g
  | perform g => exact Flow.annotates_performPending hwrite g
  | through c start record => exact Flow.annotates_writeFrom hwrite c start record
  | turn task records => exact Flow.annotates_giveTurn hwrite task records
  | settle task => exact Flow.annotates_settle hwrite task

end Move

namespace World

/-- The selections that a move makes. -/
def picksOf (w : World σ ρ) (m : Move ρ) : List (Pick ρ) :=
  (m.noting.run.run (w.annotated [])).2.notes

/-- Where something is selected there are tasks to keep notes. -/
theorem notes_of_course {w w' : World σ ρ} {picks : List (Pick ρ)}
    (h : Flow.Course w picks w') : (w'.annotated picks).notes = picks := by
  by_cases htasks : w'.tasks = []
  · have hnone : picks = [] := by
      refine List.eq_nil_iff_forall_not_mem.mpr fun p hp => ?_
      obtain ⟨selector, n, hturn, -⟩ := h.turns.sound hp
      have hsize := h.turns.size_eq p.gate
      rw [hturn] at hsize
      simp [turnAt, output?, task?, htasks] at hsize
    rw [hnone, World.notes, annotated, htasks]
    rfl
  · exact notes_annotated htasks picks

/-- **Noting what is selected changes nothing.**  A move that notes it has the same outcome, and the
notes say by which selections the turns have changed. -/
theorem run_annotated (w : World σ ρ) (m : Move ρ) :
    m.noting.run.run (w.annotated []) =
        ((m.flow.run.run w).1, (m.apply w).annotated (w.picksOf m)) ∧
      Flow.Course w (w.picksOf m) (m.apply w) ∧ Finds (m.flow.run.run w).1 := by
  obtain ⟨picks, hrun, hcourse, hfinds⟩ := m.annotates_noting [] w
  have hpicks : w.picksOf m = picks := by
    rw [picksOf, hrun]
    exact notes_of_course hcourse
  rw [hpicks]
  exact ⟨hrun, hcourse, hfinds⟩

/-- The first selection of a write to a running gate is the one for the record that is written. -/
theorem picksOf_write {w : World σ ρ} {g : GateRef} {gate : OutputGate ρ}
    (hgate : w.output? g = some gate) (hrunning : gate.state = .running) (record : ρ) :
    ∃ more, w.picksOf (.write g record) =
      ⟨g, record, (gate.selector.select record gate.outlet.size).1⟩ :: more := by
  obtain ⟨depth, hdepth⟩ := Flow.exists_depth_eq w
  obtain ⟨more, hrun, hcourse, -⟩ := Flow.annotatesAt_writeOnce_of_running
    (Flow.annotates_writeWithin depth) [] hgate hrunning record
  have hnoting : (Move.write g record).noting.run.run (w.annotated []) =
      (Flow.notingWithin (depth + 1) g record).run.run (w.annotated []) := by
    rw [Move.noting, Flow.withNotes, Flow.run_get_bind, depth_annotated, hdepth]
    rfl
  have hselect : (w.select g record).1 = (gate.selector.select record gate.outlet.size).1 := by
    rw [select, hgate]
  refine ⟨more, ?_⟩
  rw [picksOf, hnoting, Flow.notingWithin, hrun, ← hselect]
  exact notes_of_course hcourse

end World

/-! ### Runs -/

/-- Records have moved, with some selections.  In between, anything may have happened to the
instance that leaves its selectors and channels alone. -/
inductive Picked (w₀ : World σ ρ) : List (Pick ρ) → World σ ρ → Prop
  | start : Picked w₀ [] w₀
  | move {picks : List (Pick ρ)} {w : World σ ρ} (h : Picked w₀ picks w) (m : Move ρ) :
      Picked w₀ (picks ++ w.picksOf m) (m.apply w)
  | elsewhere {picks : List (Pick ρ)} {w w' : World σ ρ} (h : Picked w₀ picks w)
      (hw : w'.turnAt = w.turnAt) : Picked w₀ picks w'

namespace Picked

variable {w₀ w : World σ ρ} {made : List (Pick ρ)}

theorem picks (h : Picked w₀ made w) : Picks w₀.turnAt made w.turnAt := by
  induction h with
  | start => exact .nil
  | move _ m ih =>
    obtain ⟨-, hcourse, -⟩ := World.run_annotated _ m
    exact ih.trans hcourse.turns
  | elsewhere _ hw ih => exact hw ▸ ih

/-- What leaves selectors and channels alone continues the run. -/
theorem of_footing (h : Picked w₀ made w) {w' : World σ ρ} (hw : w'.footing = w.footing) :
    ∃ more, Picked w₀ (made ++ more) w' :=
  ⟨[], (List.append_nil made).symm ▸ h.elsewhere (World.turnAt_congr hw)⟩

/-- A gate that leaves the running state changes its state and gives up its chain before it sends
its buffers. -/
theorem leaveRunning (h : Picked w₀ made w) (g : GateRef) (state : GateState) :
    ∃ more, Picked w₀ (made ++ more) ((Flow.leaveRunning g state : Flow σ ρ Unit).run.run w).2 := by
  cases hgate : w.output? g with
  | none =>
    have hrun : (Flow.leaveRunning g state : Flow σ ρ Unit).run.run w =
        (.error (.noOutputGate g.gate), w) := by
      refine Flow.run_bind_of_error ?_
      rw [Flow.outputGate, Flow.run_get_bind, hgate]
      rfl
    rw [hrun]
    exact h.of_footing rfl
  | some gate =>
    rw [Flow.leaveRunning, Flow.run_outputGate_bind hgate]
    split_ifs with hclosed
    · have hstate : (w.modifyOutput g fun gate => { gate with state }).footing = w.footing :=
        World.footing_modifyOutput fun _ _ => rfl
      have hdropped := (World.footing_dropChain _ g).trans hstate
      exact ⟨_, (h.elsewhere (World.turnAt_congr hdropped)).move (.flush g)⟩
    · exact h.of_footing rfl

/-- Whatever is done to an instance from outside continues the run. -/
theorem operate (h : Picked w₀ made w) (o : GateOp ρ) :
    ∃ more, Picked w₀ (made ++ more) (o.apply w) := by
  cases o with
  | enqueue g a => exact h.of_footing (World.footing_modifyOutput fun _ _ => rfl)
  | write g record => exact ⟨_, h.move (.write g record)⟩
  | perform g => exact ⟨_, h.move (.perform g)⟩
  | dropChain g => exact h.of_footing (World.footing_dropChain w g)
  | suspend g => exact h.leaveRunning g _
  | close g => exact h.leaveRunning g _
  | resume g =>
    refine h.of_footing ?_
    show (w.resume g).2.footing = w.footing
    unfold World.resume
    split
    · split_ifs
      · exact World.footing_modifyOutput fun _ _ => rfl
      · rfl
    · rfl
  | step task => exact ⟨_, h.move (.turn task 1)⟩

/-- The selections at a gate are those that its selector makes of the records that come there. -/
theorem channels_of_gate (h : Picked w₀ made w) {g : GateRef} {gate : OutputGate ρ}
    (hgate : w₀.output? g = some gate) :
    (made.filter (·.gate = g)).map Pick.channels = (gate.selector.selectAll gate.outlet.size
      ((made.filter (·.gate = g)).map Pick.record)).1 := by
  have hturn : w₀.turnAt g = some (gate.selector, gate.outlet.size) := by
    rw [World.turnAt, hgate]
    rfl
  exact (h.picks.of_gate hturn).2

/-- **Gates select in turn.**  Whatever has happened to an instance,
- each selection of a gate with a round robin selector and with channels is a single one of these,
  and as many of them in a row as there are channels select each channel once, whether the records
  have gone to channels or through a chain;
- no selector selects a channel twice for a record, or one that is not there, and so no move fails
  for lack of a channel, nor does a thread;
- a write to a running gate makes the selection of its gate before all others, and taking notes of
  selections changes nothing; and
- whatever is done to the instance from outside continues the run. -/
theorem selects_in_turn (h : Picked w₀ made w) :
    (∀ g gate next, w₀.output? g = some gate → gate.selector = .roundRobin next →
        0 < gate.outlet.size →
        (∀ p ∈ made, p.gate = g → ∃ i < gate.outlet.size, p.channels = [i]) ∧
          ∀ window, window <:+: made.filter (·.gate = g) → window.length = gate.outlet.size →
            (window.map Pick.channels).Perm ((List.range gate.outlet.size).map fun i => [i])) ∧
      (∀ (selector : Selector ρ) record n, (selector.select record n).1.Nodup ∧
        ∀ i ∈ (selector.select record n).1, i < n) ∧
      (∀ p ∈ made, ∃ gate, w₀.output? p.gate = some gate ∧ p.channels.Nodup ∧
        ∀ i ∈ p.channels, i < gate.outlet.size) ∧
      (∀ m : Move ρ, (∀ gate index, (m.flow.run.run w).1 ≠ .error (.noChannel gate index)) ∧
        (w.ThreadsFind → (m.apply w).ThreadsFind)) ∧
      (∀ g gate record, w.output? g = some gate → gate.state = .running →
        ∃ more, w.picksOf (.write g record) =
          ⟨g, record, (gate.selector.select record gate.outlet.size).1⟩ :: more) ∧
      (∀ m : Move ρ, m.noting.run.run (w.annotated []) =
        ((m.flow.run.run w).1, (m.apply w).annotated (w.picksOf m))) ∧
      ∀ o : GateOp ρ, ∃ more, Picked w₀ (made ++ more) (o.apply w) := by
  refine ⟨fun g gate next hgate hselector hsize => ?_,
    fun selector record n => ⟨selector.nodup_select record n, fun i => Selector.lt_of_mem_select⟩,
    fun p hp => ?_, fun m => ?_,
    fun g gate record hgate hrunning => World.picksOf_write hgate hrunning record, fun m => ?_,
    h.operate⟩
  · have hchannels := h.channels_of_gate hgate
    rw [hselector] at hchannels
    constructor
    · intro p hp hg
      have hmem : p.channels ∈ (made.filter (·.gate = g)).map Pick.channels :=
        List.mem_map_of_mem (List.mem_filter.mpr ⟨hp, decide_eq_true hg⟩)
      rw [hchannels, Selector.selectAll_roundRobin next hsize] at hmem
      obtain ⟨k, -, hk⟩ := List.mem_map.mp hmem
      exact ⟨_, Nat.mod_lt k hsize, hk.symm⟩
    · intro window hwindow hlength
      have hinfix := hwindow.map Pick.channels
      rw [hchannels] at hinfix
      exact Selector.perm_of_window hsize hinfix ((List.length_map _).trans hlength)
  · obtain ⟨selector, n, hturn, hnodup, hlt⟩ := h.picks.sound hp
    obtain ⟨gate, hgate, hgateTurn⟩ := Option.map_eq_some_iff.mp hturn
    obtain ⟨rfl, rfl⟩ := Prod.mk.inj hgateTurn
    exact ⟨gate, hgate, hnodup, hlt⟩
  · obtain ⟨-, hcourse, hfinds⟩ := World.run_annotated w m
    exact ⟨hfinds, hcourse.threads⟩
  · exact (World.run_annotated w m).1

/-- The chain from the first task to the second. -/
def sideChain : Chain where
  number := 0
  id := ⟨"chain"⟩
  head := ⟨"fork"⟩
  links := [⟨⟨"side"⟩, 1, 0, 0⟩]

/-- A task with two channels, which is the head of a chain at first, and the other task of the
chain. -/
def forkWorld : World Unit ℕ where
  job := ⟨"job"⟩
  clock := 0
  tasks :=
    [{ id := ⟨"fork"⟩
       inputs := []
       outputs :=
        [{ outlet := .channels
            { id := ⟨"fork/out0"⟩
              lanes := [⟨.ofLimit ⟨"left"⟩ 1, .sink 0⟩, ⟨.ofLimit ⟨"right"⟩ 1, .sink 1⟩] }
           selector := .roundRobin 0
           chain := some sideChain
           timeout := 5000 }]
       code := fun _ n => ([n], ())
       memory := () },
     { id := ⟨"side"⟩
       inputs := [{ id := ⟨"side/in0"⟩ }]
       outputs :=
        [{ outlet := .direct ⟨"side/out0"⟩ (.sink 2), selector := .broadcast, timeout := 5000 }]
       code := fun _ n => ([n + 10], ())
       memory := () }]
  sinks := [{ name := "left" }, { name := "right" }, { name := "side" }]

/-- The first record goes through the chain, and those that come after the chain has been given up
go to channels. -/
theorem selects_in_turn_forkWorld : ∃ made w, Picked forkWorld made w ∧
    made = [⟨⟨0, 0⟩, 1, [0]⟩, ⟨⟨1, 0⟩, 11, [0]⟩, ⟨⟨0, 0⟩, 2, [1]⟩, ⟨⟨0, 0⟩, 3, [0]⟩] ∧
      (∀ p ∈ made, p.gate = ⟨0, 0⟩ → ∃ i < 2, p.channels = [i]) ∧
      ∀ window, window <:+: made.filter (·.gate = ⟨0, 0⟩) → window.length = 2 →
        (window.map Pick.channels).Perm ((List.range 2).map fun i => [i]) := by
  have hstart : Picked forkWorld [] forkWorld := .start
  have hchained := hstart.move (.write ⟨0, 0⟩ 1)
  have hdropped := hchained.elsewhere (World.turnAt_congr (World.footing_dropChain _ ⟨0, 0⟩))
  have hrun := (hdropped.move (.write ⟨0, 0⟩ 2)).move (.write ⟨0, 0⟩ 3)
  obtain ⟨hround, -⟩ := selects_in_turn hrun
  refine ⟨_, _, hrun, by decide +kernel, ?_⟩
  exact hround ⟨0, 0⟩ _ 0 rfl rfl Nat.two_pos

end Picked

end LatencyControl
