import LatencyControl.Flow.Write

/-!
# What activities leave behind

An activity that fails keeps what it changed before it failed.  So what can be said of instances
that nobody restarts has to be said of both outcomes: `Flow.Leads x w post fail` says that the
activity `x`, started in the world `w`, satisfies `post` if it comes to an answer, and leaves a
world that satisfies `fail` if it does not.  `Flow.Keeps P x` is the common case that a condition on
worlds holds again afterwards, whatever the outcome.
-/

namespace LatencyControl.Flow

variable {σ ρ α β γ : Type}

/-! ### Outcomes -/

/-- An answer satisfies the first condition, and what a failure leaves behind the second. -/
def Leads (x : Flow σ ρ α) (w : World σ ρ) (post : α → World σ ρ → Prop)
    (fail : World σ ρ → Prop) : Prop :=
  match x.run.run w with
  | (.ok a, w') => post a w'
  | (.error _, w') => fail w'

variable {w : World σ ρ} {x : Flow σ ρ α} {post : α → World σ ρ → Prop}
  {fail : World σ ρ → Prop}

theorem Leads.mono {post' : α → World σ ρ → Prop} {fail' : World σ ρ → Prop}
    (h : x.Leads w post fail) (hpost : ∀ a w', post a w' → post' a w')
    (hfail : ∀ w', fail w' → fail' w') : x.Leads w post' fail' := by
  revert h
  unfold Leads
  cases x.run.run w with
  | mk result w' =>
    cases result with
    | ok a => exact hpost a w'
    | error e => exact hfail w'

/-- Whatever the outcome, the world that is left satisfies what both conditions imply. -/
theorem Leads.final {P : World σ ρ → Prop} (h : x.Leads w (fun _ => P) P) : P (x.run.run w).2 := by
  revert h
  unfold Leads
  cases x.run.run w with
  | mk result w' => cases result <;> exact id

/-- What is said of the outcomes separately holds of them together. -/
theorem Leads.and {post' : α → World σ ρ → Prop} {fail' : World σ ρ → Prop}
    (h : x.Leads w post fail) (h' : x.Leads w post' fail') :
    x.Leads w (fun a w' => post a w' ∧ post' a w') fun w' => fail w' ∧ fail' w' := by
  revert h h'
  unfold Leads
  cases x.run.run w with
  | mk result w' => cases result <;> exact And.intro

theorem leads_pure {a : α} (h : post a w) : Leads (pure a) w post fail := h

theorem leads_throw {e : Error} (h : fail w) : Leads (throw e) w post fail := h

theorem leads_bind {f : α → Flow σ ρ β} {post : β → World σ ρ → Prop}
    (h : x.Leads w (fun a w' => (f a).Leads w' post fail) fail) : (x >>= f).Leads w post fail := by
  revert h
  unfold Leads
  rw [ExceptT.run_bind, StateT.run_bind]
  cases x.run.run w with
  | mk result w' => cases result <;> exact id

theorem leads_get {post : World σ ρ → World σ ρ → Prop} (h : post w w) :
    Leads (get : Flow σ ρ (World σ ρ)) w post fail := h

theorem leads_modify {f : World σ ρ → World σ ρ} {post : Unit → World σ ρ → Prop}
    (h : post () (f w)) : Leads (modify f : Flow σ ρ Unit) w post fail := h

theorem leads_modifyGet {f : World σ ρ → α × World σ ρ} (h : post (f w).1 (f w).2) :
    Leads (modifyGet f : Flow σ ρ α) w post fail := h

theorem leads_ofExcept {result : Except Error α} (hok : ∀ a, result = .ok a → post a w)
    (herror : fail w) : Leads (ofExcept result : Flow σ ρ α) w post fail := by
  cases result with
  | ok a => exact hok a rfl
  | error e => exact herror

/-- Nothing fails while its failure is held on to. -/
theorem leads_attempt {post : Except Error α → World σ ρ → Prop}
    (h : x.Leads w (fun a => post (.ok a)) fun w' => ∀ e, post (.error e) w') :
    (attempt x).Leads w post fail := by
  revert h
  unfold Leads
  rw [attempt, ExceptT.run_lift, StateT.run_map]
  cases x.run.run w with
  | mk result w' =>
    cases result with
    | ok a => exact id
    | error e => exact fun h => h e

theorem leads_outputGate {g : GateRef} {post : OutputGate ρ → World σ ρ → Prop}
    (hgate : ∀ gate, w.output? g = some gate → post gate w) (hnone : fail w) :
    (outputGate g).Leads w post fail := by
  refine leads_bind (leads_get ?_)
  cases h : w.output? g with
  | some gate => exact hgate gate h
  | none => exact hnone

/-! ### Runs -/

theorem Leads.of_ok {a : α} {w' : World σ ρ} (h : x.Leads w post fail)
    (hrun : x.run.run w = (.ok a, w')) : post a w' := by
  rwa [Leads, hrun] at h

theorem Leads.of_error {e : Error} {w' : World σ ρ} (h : x.Leads w post fail)
    (hrun : x.run.run w = (.error e, w')) : fail w' := by
  rwa [Leads, hrun] at h

/-- The same condition for both outcomes, said of the run. -/
theorem leads_iff_run {P : World σ ρ → Prop} : x.Leads w (fun _ => P) P ↔
    ∀ result w', x.run.run w = (result, w') → P w' := by
  rcases hrun : x.run.run w with ⟨result, w'⟩
  have hleads : x.Leads w (fun _ => P) P ↔ P w' := by
    rw [Leads, hrun]
    cases result <;> exact Iff.rfl
  rw [hleads]
  constructor
  · rintro h _ _ ⟨⟩
    exact h
  · exact fun h => h result w' rfl

theorem run_bind_of_ok {f : α → Flow σ ρ β} {a : α} {w' : World σ ρ}
    (hrun : x.run.run w = (.ok a, w')) : (x >>= f).run.run w = (f a).run.run w' := by
  rw [ExceptT.run_bind, StateT.run_bind, hrun]
  rfl

theorem run_bind_of_error {f : α → Flow σ ρ β} {e : Error} {w' : World σ ρ}
    (hrun : x.run.run w = (.error e, w')) : (x >>= f).run.run w = (.error e, w') := by
  rw [ExceptT.run_bind, StateT.run_bind, hrun]
  rfl

/-- How an activity that consists of two ended. -/
theorem run_bind_cases {f : α → Flow σ ρ β} {result : Except Error β} {w' : World σ ρ}
    (hrun : (x >>= f).run.run w = (result, w')) :
    (∃ e, x.run.run w = (.error e, w') ∧ result = .error e) ∨
      ∃ a w₁, x.run.run w = (.ok a, w₁) ∧ (f a).run.run w₁ = (result, w') := by
  rcases hx : x.run.run w with ⟨e | a, w₁⟩
  · rw [run_bind_of_error hx] at hrun
    cases hrun
    exact .inl ⟨e, rfl, rfl⟩
  · rw [run_bind_of_ok hx] at hrun
    exact .inr ⟨a, w₁, rfl, hrun⟩

/-- A failure that is held on to is an answer. -/
theorem run_attempt_bind {f : Except Error α → Flow σ ρ β} {result : Except Error α}
    {w' : World σ ρ} (hrun : x.run.run w = (result, w')) :
    (attempt x >>= f).run.run w = (f result).run.run w' := by
  refine run_bind_of_ok ?_
  rw [attempt, ExceptT.run_lift, StateT.run_map, hrun]
  rfl

theorem run_get_bind (f : World σ ρ → Flow σ ρ β) : (get >>= f).run.run w = (f w).run.run w := rfl

theorem run_modify_bind (f : World σ ρ → World σ ρ) (k : PUnit → Flow σ ρ β) :
    (modify f >>= k).run.run w = (k ⟨⟩).run.run (f w) := rfl

theorem run_modifyGet_bind (f : World σ ρ → α × World σ ρ) (k : α → Flow σ ρ β) :
    (modifyGet f >>= k).run.run w = (k (f w).1).run.run (f w).2 := rfl

/-- Writes are made inside each other to the depth that the world says. -/
theorem run_withWriter (x : (GateRef → ρ → Flow σ ρ Unit) → Flow σ ρ α) :
    (withWriter x).run.run w = (x (writeWithin w.depth)).run.run w := by
  unfold withWriter
  exact run_get_bind fun w => x (writeWithin w.depth)

/-- There is always room for a write. -/
theorem exists_depth_eq (w : World σ ρ) : ∃ depth, w.depth = depth + 1 :=
  Nat.exists_eq_succ_of_ne_zero (by simp [World.depth])

/-- What comes after a gate that is there has been looked up. -/
theorem run_outputGate_bind {g : GateRef} {gate : OutputGate ρ} (hgate : w.output? g = some gate)
    (f : OutputGate ρ → Flow σ ρ β) : (outputGate g >>= f).run.run w = (f gate).run.run w := by
  have hrun : (outputGate g).run.run w = (.ok gate, w) := by
    rw [outputGate, run_get_bind, hgate]
    rfl
  exact run_bind_of_ok hrun

/-! ### Conditions that are kept -/

/-- A condition that holds before an activity holds afterwards, even if it fails. -/
def Keeps (P : World σ ρ → Prop) (x : Flow σ ρ α) : Prop :=
  ∀ w, P w → x.Leads w (fun _ => P) P

variable {P : World σ ρ → Prop}

theorem keeps_pure (a : α) : Keeps P (pure a : Flow σ ρ α) := fun _ h => h

theorem keeps_throw (e : Error) : Keeps P (throw e : Flow σ ρ α) := fun _ h => h

theorem Keeps.bind {f : α → Flow σ ρ β} (hx : Keeps P x) (hf : ∀ a, Keeps P (f a)) :
    Keeps P (x >>= f) := by
  intro w hw
  refine leads_bind ((hx w hw).mono ?_ fun _ => id)
  intro a w' hw'
  exact hf a w' hw'

theorem keeps_get : Keeps P (get : Flow σ ρ (World σ ρ)) := fun _ h => h

theorem keeps_modify {f : World σ ρ → World σ ρ} (hf : ∀ w, P w → P (f w)) :
    Keeps P (modify f : Flow σ ρ Unit) := hf

theorem keeps_modifyGet {f : World σ ρ → α × World σ ρ} (hf : ∀ w, P w → P (f w).2) :
    Keeps P (modifyGet f : Flow σ ρ α) := hf

theorem keeps_ofExcept (result : Except Error α) : Keeps P (ofExcept result : Flow σ ρ α) :=
  fun _ hw => leads_ofExcept (fun _ _ => hw) hw

theorem Keeps.attempt (hx : Keeps P x) : Keeps P (attempt x) :=
  fun w hw => leads_attempt ((hx w hw).mono (fun _ _ => id) fun _ h _ => h)

theorem keeps_outputGate (g : GateRef) : Keeps P (outputGate g : Flow σ ρ (OutputGate ρ)) :=
  fun _ hw => leads_outputGate (fun _ _ => hw) hw

theorem keeps_forM_of_mem {f : γ → Flow σ ρ PUnit} {items : List γ}
    (hf : ∀ c ∈ items, Keeps P (f c)) : Keeps P (items.forM f) := by
  induction items with
  | nil => exact keeps_pure _
  | cons c rest ih =>
    obtain ⟨hc, hrest⟩ := List.forall_mem_cons.mp hf
    exact hc.bind fun _ => ih hrest

theorem keeps_forM {f : γ → Flow σ ρ PUnit} (hf : ∀ c, Keeps P (f c)) (items : List γ) :
    Keeps P (items.forM f) :=
  keeps_forM_of_mem fun c _ => hf c

end LatencyControl.Flow
