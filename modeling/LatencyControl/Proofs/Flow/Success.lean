import LatencyControl.Flow.Write

/-!
# Activities that succeed

`Flow.Succeeds x w post` says that the activity `x`, started in the world `w`, gets to an answer and
a world that satisfy `post`; in particular it does not fail.  There is one rule for each way of
putting activities together, and with them a proof about an activity follows its text.
-/

namespace LatencyControl.Flow

variable {σ ρ α β : Type}

/-- The activity comes to an answer and a world that satisfy a condition. -/
def Succeeds (x : Flow σ ρ α) (w : World σ ρ) (post : α → World σ ρ → Prop) : Prop :=
  ∃ a w', x.run.run w = (.ok a, w') ∧ post a w'

variable {w : World σ ρ} {post : α → World σ ρ → Prop}

theorem Succeeds.mono {x : Flow σ ρ α} {post' : α → World σ ρ → Prop} (h : x.Succeeds w post)
    (himp : ∀ a w', post a w' → post' a w') : x.Succeeds w post' := by
  obtain ⟨a, w', hrun, hpost⟩ := h
  exact ⟨a, w', hrun, himp a w' hpost⟩

theorem succeeds_pure {a : α} (h : post a w) : Succeeds (pure a) w post := ⟨a, w, rfl, h⟩

theorem succeeds_bind {x : Flow σ ρ α} {f : α → Flow σ ρ β} {post : β → World σ ρ → Prop}
    (h : x.Succeeds w fun a w' => (f a).Succeeds w' post) : (x >>= f).Succeeds w post := by
  obtain ⟨a, w', hrun, b, w'', hrun', hpost⟩ := h
  refine ⟨b, w'', ?_, hpost⟩
  rw [ExceptT.run_bind, StateT.run_bind, hrun]
  exact hrun'

theorem succeeds_get {post : World σ ρ → World σ ρ → Prop} (h : post w w) :
    Succeeds (get : Flow σ ρ (World σ ρ)) w post := ⟨w, w, rfl, h⟩

theorem succeeds_modify {f : World σ ρ → World σ ρ} {post : Unit → World σ ρ → Prop}
    (h : post () (f w)) : Succeeds (modify f : Flow σ ρ Unit) w post := ⟨(), f w, rfl, h⟩

theorem succeeds_modifyGet {f : World σ ρ → α × World σ ρ} (h : post (f w).1 (f w).2) :
    Succeeds (modifyGet f : Flow σ ρ α) w post := ⟨(f w).1, (f w).2, rfl, h⟩

theorem succeeds_ofExcept {a : α} (h : post a w) :
    Succeeds (ofExcept (.ok a) : Flow σ ρ α) w post := ⟨a, w, rfl, h⟩

/-- An activity that succeeds has nothing to hold on to. -/
theorem succeeds_attempt {x : Flow σ ρ α} {post : Except Error α → World σ ρ → Prop}
    (h : x.Succeeds w fun a w' => post (.ok a) w') : (attempt x).Succeeds w post := by
  obtain ⟨a, w', hrun, hpost⟩ := h
  refine ⟨.ok a, w', ?_, hpost⟩
  rw [attempt, ExceptT.run_lift, StateT.run_map, hrun]
  rfl

/-- The output gate that an activity looks up is there. -/
theorem succeeds_outputGate {g : GateRef} {gate : OutputGate ρ}
    {post : OutputGate ρ → World σ ρ → Prop} (hgate : w.output? g = some gate) (h : post gate w) :
    (outputGate g).Succeeds w post := by
  refine succeeds_bind (succeeds_get ?_)
  rw [hgate]
  exact succeeds_pure h

/-- An activity for each item of a list, with what holds of the world before an item and all later
ones. -/
theorem succeeds_forM {γ : Type} {f : γ → Flow σ ρ PUnit} (inv : List γ → World σ ρ → Prop)
    (hstep : ∀ c rest w, inv (c :: rest) w → (f c).Succeeds w fun _ w' => inv rest w')
    {items : List γ} (h : inv items w) : (items.forM f).Succeeds w fun _ w' => inv [] w' := by
  induction items generalizing w with
  | nil => exact succeeds_pure h
  | cons c rest ih =>
    refine succeeds_bind ((hstep c rest w h).mono ?_)
    intro _ w' hinv
    exact ih hinv

end LatencyControl.Flow
