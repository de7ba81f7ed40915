import LatencyControl.Flow.Halt
import Mathlib.Data.List.Induction

/-!
# Waiting for a thread to park

The thread of a task and any number of control threads share one place to park.  Every move any of
them makes happens under the lock of that place, so that a run is a sequence of moves in some order.
Waiting changes nothing and may end at any time, so that only its end is a move.  We prove what a
control thread knows when it has waited for the thread and has been told that it parks: that it
parks indeed, and that it goes on doing so until the next wake exactly when the halt has not been
withdrawn before.  The thread counts as parked until it has left, not until it is woken; hence the
answer may still be positive when nothing holds the thread any more.
-/

namespace LatencyControl

/-- A move at the place where a thread parks. -/
inductive ParkingMove where
  /-- A control thread asks the thread to halt. -/
  | request
  /-- A control thread wakes the thread. -/
  | wake
  /-- A control thread, having waited for at most the given time, is told whether the thread is
  parked. -/
  | await (nanos : Nat)
  /-- The thread comes to the place, and stays if it has been asked to halt. -/
  | arrive
  /-- The thread, no longer asked to halt, leaves the place. -/
  | depart
  /-- The thread does something away from the place. -/
  | work
  deriving DecidableEq, Repr

/-- The move is one of the thread that may park, not of a control thread. -/
def ParkingMove.IsOwn : ParkingMove → Prop
  | .request | .wake | .await _ => False
  | .arrive | .depart | .work => True

/-- A thread that may park, together with the place where it does so. -/
structure ParkingThread where
  /-- The place. -/
  halt : Halt := {}
  /-- The thread has come to the place, and has not left it. -/
  isInside : Bool := false
  deriving DecidableEq, Repr

namespace ParkingThread

variable {t u : ParkingThread} {m : ParkingMove} {moves : List ParkingMove}

/-- What a move makes of a thread; the thread itself works and arrives only when it is not at the
place, and departs only when it is there and nobody asks it to halt. -/
def step (t : ParkingThread) : ParkingMove → Option ParkingThread
  | .request => some { t with halt := t.halt.request.2 }
  | .wake => some { t with halt := t.halt.wake.2 }
  | .await _ => some t
  | .arrive => if t.isInside then none else some ⟨t.halt.enter, t.halt.requested⟩
  | .depart => if t.isInside && !t.halt.requested then some ⟨t.halt.leave, false⟩ else none
  | .work => if t.isInside then none else some t

/-- What a sequence of moves makes of a thread. -/
def run (t : ParkingThread) (moves : List ParkingMove) : Option ParkingThread := moves.foldlM step t

@[simp]
theorem run_nil : t.run [] = some t := rfl

@[simp]
theorem run_cons : t.run (m :: moves) = (t.step m).bind (run · moves) := by
  simp [run, Option.bind_eq_bind]

@[simp]
theorem run_concat : t.run (moves ++ [m]) = (t.run moves).bind (step · m) := by
  simp [run, Option.bind_eq_bind]

/-- The place counts its thread as parked exactly when the thread is there. -/
def IsSettled (t : ParkingThread) : Prop := t.halt.parked = t.isInside

/-- The thread is at the place, and asked to halt. -/
def IsHeld (t : ParkingThread) : Prop := t.isInside = true ∧ t.halt.requested = true

/-- Whatever happens before the next wake, the thread makes no move of its own, and it is parked
throughout. -/
def StaysParked (t : ParkingThread) : Prop :=
  ∀ moves u, .wake ∉ moves → t.run moves = some u →
    (∀ m ∈ moves, ¬m.IsOwn) ∧ u.isInside = true ∧ u.halt.parked = true

/-- The last that the control threads wanted in the moves is that the thread halts. -/
def IsAsked (moves : List ParkingMove) : Prop :=
  ∃ before since, moves = before ++ .request :: since ∧ .wake ∉ since

/-! ### Single moves -/

/-- No move makes the place lose count of its thread. -/
theorem IsSettled.step (hs : t.IsSettled) (h : t.step m = some u) : u.IsSettled := by
  rw [IsSettled] at hs ⊢
  cases m with
  | request => cases h; exact hs
  | wake => cases h; exact hs
  | await nanos => cases h; exact hs
  | arrive =>
    obtain ⟨hout, rfl⟩ : t.isInside = false ∧ ⟨t.halt.enter, t.halt.requested⟩ = u := by
      simpa [ParkingThread.step] using h
    simp [Halt.enter, hs, hout]
  | depart =>
    obtain ⟨⟨-, hr⟩, rfl⟩ :
        (t.isInside = true ∧ t.halt.requested = false) ∧ ⟨t.halt.leave, false⟩ = u := by
      simpa [ParkingThread.step] using h
    simp [Halt.leave, hr]
  | work =>
    obtain ⟨-, rfl⟩ : t.isInside = false ∧ t = u := by simpa [ParkingThread.step] using h
    exact hs

/-- Only a wake ends the hold on a thread, and a thread that is held makes no move. -/
theorem IsHeld.step (hheld : t.IsHeld) (hm : m ≠ .wake) (h : t.step m = some u) :
    u.IsHeld ∧ ¬m.IsOwn := by
  obtain ⟨hin, hr⟩ := hheld
  cases m with
  | request => cases h; exact ⟨⟨hin, rfl⟩, id⟩
  | wake => exact absurd rfl hm
  | await nanos => cases h; exact ⟨⟨hin, hr⟩, id⟩
  | arrive => simp [ParkingThread.step, hin] at h
  | depart => simp [ParkingThread.step, hr] at h
  | work => simp [ParkingThread.step, hin] at h

/-- A move other than of asking and waking leaves open what the thread is asked to do. -/
theorem requested_step (h : t.step m = some u) :
    u.halt.requested = true ↔ m = .request ∨ m ≠ .wake ∧ t.halt.requested = true := by
  cases m with
  | request => cases h; simp [Halt.request]
  | wake => cases h; simp [Halt.wake]
  | await nanos => cases h; simp
  | arrive =>
    obtain ⟨-, rfl⟩ : t.isInside = false ∧ ⟨t.halt.enter, t.halt.requested⟩ = u := by
      simpa [step] using h
    simp [Halt.enter]
  | depart =>
    obtain ⟨-, rfl⟩ :
        (t.isInside = true ∧ t.halt.requested = false) ∧ ⟨t.halt.leave, false⟩ = u := by
      simpa [step] using h
    simp [Halt.leave]
  | work =>
    obtain ⟨-, rfl⟩ : t.isInside = false ∧ t = u := by simpa [step] using h
    simp

theorem isAsked_concat :
    IsAsked (moves ++ [m]) ↔ m = .request ∨ m ≠ .wake ∧ IsAsked moves := by
  constructor
  · rintro ⟨before, since, heq, hsince⟩
    -- The move is the last of those since the request, or else the request itself.
    obtain rfl | ⟨since, m', rfl⟩ := since.eq_nil_or_concat
    · obtain ⟨-, hm⟩ := List.append_inj' heq rfl
      exact .inl (by simpa using hm)
    · rw [List.concat_eq_append] at heq hsince
      rw [← List.cons_append, ← List.append_assoc] at heq
      obtain ⟨rfl, hm⟩ := List.append_inj' heq rfl
      obtain rfl : m = m' := by simpa using hm
      rw [List.mem_append, List.mem_singleton, not_or] at hsince
      exact .inr ⟨fun hm => hsince.2 hm.symm, before, since, rfl, hsince.1⟩
  · rintro (rfl | ⟨hm, before, since, rfl, hsince⟩)
    · exact ⟨moves, [], rfl, by simp⟩
    · refine ⟨before, since ++ [m], by simp, ?_⟩
      simpa [hsince] using Ne.symm hm

/-! ### Runs -/

theorem IsSettled.run (hs : t.IsSettled) (h : t.run moves = some u) : u.IsSettled := by
  induction moves generalizing t with
  | nil => cases h; exact hs
  | cons m moves ih =>
    obtain ⟨v, hv, hu⟩ := Option.bind_eq_some_iff.mp (run_cons ▸ h)
    exact ih (hs.step hv) hu

/-- Until the next wake, a thread that is held stays held and makes no move. -/
theorem IsHeld.run (hheld : t.IsHeld) (hwake : .wake ∉ moves) (h : t.run moves = some u) :
    u.IsHeld ∧ ∀ m ∈ moves, ¬m.IsOwn := by
  induction moves generalizing t with
  | nil => cases h; exact ⟨hheld, by simp⟩
  | cons m moves ih =>
    obtain ⟨hm, hwake⟩ := List.ne_and_not_mem_of_not_mem_cons hwake
    obtain ⟨v, hv, hu⟩ := Option.bind_eq_some_iff.mp (run_cons ▸ h)
    obtain ⟨hheldv, hown⟩ := hheld.step hm.symm hv
    obtain ⟨hheldu, howns⟩ := ih hheldv hwake hu
    exact ⟨hheldu, List.forall_mem_cons.mpr ⟨hown, howns⟩⟩

/-- A thread is asked to halt exactly when nobody has withdrawn the last request. -/
theorem requested_run (h : run {} moves = some t) :
    t.halt.requested = true ↔ IsAsked moves := by
  induction moves using List.reverseRecOn generalizing t with
  | nil => cases h; simp [IsAsked]
  | append_singleton moves m ih =>
    obtain ⟨v, hv, ht⟩ := Option.bind_eq_some_iff.mp (run_concat ▸ h)
    rw [requested_step ht, ih hv, isAsked_concat]

/-! ### What the answer is worth -/

/-- A thread at the place stays there exactly when it is still asked to halt: otherwise it can leave
at once. -/
theorem IsSettled.staysParked_iff (hs : t.IsSettled) (hin : t.isInside = true) :
    t.StaysParked ↔ t.halt.requested = true := by
  constructor
  · intro hstays
    by_contra hr
    have hrun : t.run [.depart] = some ⟨t.halt.leave, false⟩ := by
      simp [ParkingThread.step, hin, hr]
    obtain ⟨hown, -⟩ := hstays [.depart] _ (by simp) hrun
    exact hown .depart (by simp) trivial
  · intro hr moves u hwake hu
    obtain ⟨hheld, howns⟩ := IsHeld.run ⟨hin, hr⟩ hwake hu
    exact ⟨howns, hheld.1, (hs.run hu).trans hheld.1⟩

theorem awaitParked_eq_ok_iff (h : Halt) (nanos : Nat) :
    h.awaitParked nanos = .ok () ↔ h.parked = true := by
  by_cases hp : h.parked <;> simp [Halt.awaitParked, hp]

/-- Whoever asks the thread to halt, waits for it and is told that it parks can rely on that, unless
somebody else has woken the thread in the meantime. -/
theorem staysParked_of_request {since : List ParkingMove}
    (h : run {} (moves ++ .request :: since) = some t) (hwake : .wake ∉ since) {nanos : Nat}
    (hok : t.halt.awaitParked nanos = .ok ()) : t.StaysParked := by
  have hs : t.IsSettled := IsSettled.run (t := {}) rfl h
  have hin : t.isInside = true := hs.symm.trans ((awaitParked_eq_ok_iff ..).mp hok)
  exact (hs.staysParked_iff hin).mpr ((requested_run h).mpr ⟨moves, since, rfl, hwake⟩)

/-- **The answer says where the thread is, not what holds it there**: in every order of the moves, a
control thread is told that the thread parks exactly when the thread has come to the place and not
left it; and then the thread stays, and makes no move of its own, until a wake that comes after the
answer, exactly when no wake has come after the last request before the answer. -/
theorem awaitParked_spec (h : run {} moves = some t) (nanos : Nat) :
    (t.halt.awaitParked nanos = .ok () ↔ t.isInside = true) ∧
      (t.halt.awaitParked nanos = .ok () → (t.StaysParked ↔ IsAsked moves)) := by
  have hs : t.IsSettled := IsSettled.run (t := {}) rfl h
  have hok : t.halt.awaitParked nanos = .ok () ↔ t.isInside = true := by
    rw [awaitParked_eq_ok_iff, hs]
  refine ⟨hok, fun hans => ?_⟩
  rw [hs.staysParked_iff (hok.mp hans), requested_run h]

/-- A thread that came to the place after it was asked to halt. -/
theorem awaitParked_spec_requested :
    run {} [.request, .arrive] = some ⟨⟨true, true⟩, true⟩ ∧
      Halt.awaitParked ⟨true, true⟩ 0 = .ok () ∧
      (StaysParked ⟨⟨true, true⟩, true⟩ ↔ IsAsked [.request, .arrive]) :=
  ⟨rfl, rfl, (awaitParked_spec (t := ⟨⟨true, true⟩, true⟩) rfl 0).2 rfl⟩

/-- **A withdrawn halt may still be answered for**: the thread parks, is woken, and counts as parked
although nothing keeps it from leaving, without another wake. -/
theorem awaitParked_withdrawn :
    ∃ t, run {} [.request, .arrive, .wake] = some t ∧ t.halt.requested = false ∧
      t.halt.awaitParked 0 = .ok () ∧
      t.run [.depart, .work] = some ⟨⟨false, false⟩, false⟩ ∧ ¬t.StaysParked := by
  refine ⟨⟨⟨false, true⟩, true⟩, rfl, rfl, rfl, rfl, fun hstays => ?_⟩
  obtain ⟨hown, -⟩ := hstays [.depart, .work] ⟨⟨false, false⟩, false⟩ (by decide) rfl
  exact hown .depart (by decide) trivial

end ParkingThread

end LatencyControl
