import LatencyControl.Proofs.Flow.Calm
import LatencyControl.Proofs.Flow.Halting

/-!
# Chains that overlap

While a task is a link of a chain, its own thread should be halted, or else the task is run by two
threads.  An installation that is rolled back only wakes the links that it has halted itself, but a
chain that goes wakes all of its links, whoever else has halted them: if chains of two gates have a
link in common, the thread runs again as soon as one of them goes (`not_haltsLinks`).

A link that only the chains of one gate have, and always by the same name, stays halted for as long
as such a chain is held (`Operated.isHalted_of_holds`).  This is said of instances whose threads
wait to be given turns, so that nothing else happens in the middle of an installation.
-/

namespace LatencyControl

open LatencyControl.Flow World

variable {σ ρ : Type}

/-- A chain at an output gate that has the input gate `i` as a link only if the output gate is `g₀`,
and only by the name `v₀`. -/
def LinksOnlyAt (i g₀ : GateRef) (v₀ : MemberId) (g : GateRef) (c : Chain) : Prop :=
  ∀ l ∈ c.links, l.inputRef = i → g = g₀ ∧ l.member = v₀

section

variable {i g₀ g h : GateRef} {v₀ : MemberId} {p c : Chain}

theorem LinksOnlyAt.eq_of_mem (hc : LinksOnlyAt i g₀ v₀ g c) (hi : i ∈ c.inputs) : g = g₀ := by
  obtain ⟨l, hl, hli⟩ := List.mem_map.mp hi
  exact (hc l hl hli).1

/-- What both chains have, they have by the same name, so it is taken over. -/
theorem LinksOnlyAt.not_mem_released (hp : LinksOnlyAt i g₀ v₀ h p)
    (hc : LinksOnlyAt i g₀ v₀ g c) (hi : i ∈ c.inputs) : i ∉ p.released c := by
  intro hreleased
  obtain ⟨l, hl, hli⟩ := List.mem_map.mp hreleased
  obtain ⟨l', hl', hli'⟩ := List.mem_map.mp hi
  have hmember : l'.member = l.member := by
    rw [(hc l' hl' hli').2, (hp l (List.mem_of_mem_filter hl) hli).2]
  have hlink : c.hasLink l.member = true := List.any_eq_true.mpr ⟨l', hl', by simpa using hmember⟩
  have hnot := (List.mem_filter.mp hl).2
  simp [hlink] at hnot

end

namespace World

/-- Each link of each chain that a gate holds is halted. -/
def HaltsLinks (w : World σ ρ) : Prop :=
  ∀ g c, w.Holds g c → ∀ l ∈ c.links, w.isHalted l.inputRef = true

/-! ### A link of one gate's chains -/

/-- An instance whose threads wait for their turns halts the input gate `i` while a chain with this
link is held; only chains of the gate `g₀` have it, by the name `v₀`. -/
structure Bypasses (i g₀ : GateRef) (v₀ : MemberId) (w : World σ ρ) : Prop where
  lazy : w.isEager = false
  held : ∀ g c, w.Holds g c → LinksOnlyAt i g₀ v₀ g c
  queued : ∀ g c, w.Awaits g c → LinksOnlyAt i g₀ v₀ g c
  halted : ∀ g c, w.Holds g c → i ∈ c.inputs → w.isHalted i = true

variable {i g₀ g : GateRef} {v₀ : MemberId} {w w' : World σ ρ}

theorem Bypasses.of_sameGates (hw : Bypasses i g₀ v₀ w) (h : SameGates w w')
    (hkept : w.isHalted i = true → w'.isHalted i = true) : Bypasses i g₀ v₀ w' where
  lazy := h.isEager.trans hw.lazy
  held g c hc := hw.held g c ((h.chainAt g).symm.trans hc)
  queued g c hc := hw.queued g c (by rwa [Awaits, h.queuedAt] at hc)
  halted g c hc hi := hkept (hw.halted g c ((h.chainAt g).symm.trans hc) hi)

theorem Bypasses.of_control (hw : Bypasses i g₀ v₀ w) (h : w'.control = w.control) :
    Bypasses i g₀ v₀ w' :=
  hw.of_sameGates (SameGates.of_control h) fun hi => (isHalted_congr h i).trans hi

theorem Bypasses.of_sameThreads (hw : Bypasses i g₀ v₀ w) (h : SameThreads w w')
    (hqueued : ∀ g c, w'.Awaits g c → LinksOnlyAt i g₀ v₀ g c) : Bypasses i g₀ v₀ w' where
  lazy := h.isEager.trans hw.lazy
  held g c hc := hw.held g c ((h.chainAt g).symm.trans hc)
  queued := hqueued
  halted g c hc hi := (h.isHalted i).trans (hw.halted g c ((h.chainAt g).symm.trans hc) hi)

/-- A gate may exchange its chain if its new one is halted.  That wakes nothing that the chain of
another gate has as a link. -/
theorem Bypasses.exchange {new : Option Chain} {woken : Chain → List GateRef}
    (hw : Bypasses i g₀ v₀ w) (hx : Exchanges w w' g new woken)
    (hwoken : ∀ p, ∀ j ∈ woken p, j ∈ p.inputs)
    (hnew : ∀ c, new = some c →
      LinksOnlyAt i g₀ v₀ g c ∧ (i ∈ c.inputs → w'.isHalted i = true)) : Bypasses i g₀ v₀ w' where
  lazy := hx.isEager.trans hw.lazy
  held h c hc := by
    rcases hx.holds hc with ⟨rfl, hgiven⟩ | ⟨-, hold⟩
    · exact (hnew c hgiven).1
    · exact hw.held h c hold
  queued h c hc := hw.queued h c (hx.awaits hc)
  halted h c hc hi := by
    rcases hx.holds hc with ⟨-, hgiven⟩ | ⟨hgh, hold⟩
    · exact (hnew c hgiven).2 hi
    · refine (hx.isHalted i).mpr ⟨hw.halted h c hold hi, fun p hp hip => hgh ?_⟩
      have hg : g = g₀ := (hw.held g p hp).eq_of_mem (hwoken p i hip)
      rw [hg, (hw.held h c hold).eq_of_mem hi]

theorem Bypasses.dropChain (hw : Bypasses i g₀ v₀ w) (g : GateRef) :
    Bypasses i g₀ v₀ (w.dropChain g) := by
  refine hw.exchange (exchanges_dropChain w g) (fun _ _ hj => hj) ?_
  rintro c ⟨⟩

/-- A chain does not wake a halted link of its successor. -/
theorem Bypasses.isHalted_of_exchanges {new : Option Chain} {c : Chain} (hw : Bypasses i g₀ v₀ w)
    (hx : Exchanges w w' g new fun p => p.released c) {h : GateRef}
    (hc : LinksOnlyAt i g₀ v₀ h c) (hi : i ∈ c.inputs) (hhalted : w.isHalted i = true) :
    w'.isHalted i = true :=
  (hx.isHalted i).mpr ⟨hhalted, fun p hp => (hw.held g p hp).not_mem_released hc hi⟩

theorem Bypasses.dissolve {c : Chain} (hw : Bypasses i g₀ v₀ w) (hc : LinksOnlyAt i g₀ v₀ g c)
    (hhalted : i ∈ c.inputs → w.isHalted i = true) :
    Bypasses i g₀ v₀ (w.dissolve c) ∧ (i ∈ c.inputs → (w.dissolve c).isHalted i = true) := by
  refine List.foldlRecOn (motive := fun w : World σ ρ =>
    Bypasses i g₀ v₀ w ∧ (i ∈ c.inputs → w.isHalted i = true)) c.links _ ⟨hw, hhalted⟩ ?_
  intro w hw l _
  have hx := exchanges_release w l.outputRef c
  have hkept := fun hi => hw.1.isHalted_of_exchanges hx hc hi (hw.2 hi)
  refine ⟨hw.1.exchange hx (fun _ _ hj => Chain.mem_inputs_of_mem_released hj) ?_, hkept⟩
  rintro c ⟨⟩

theorem Bypasses.replaceChain {c : Chain} (hw : Bypasses i g₀ v₀ w)
    (hc : LinksOnlyAt i g₀ v₀ g c) (hhalted : i ∈ c.inputs → w.isHalted i = true)
    (hg : w.hasOutput g = true) : Bypasses i g₀ v₀ (w.replaceChain g c) := by
  have hx := exchanges_replaceChain hg c
  refine hw.exchange hx (fun _ _ hj => Chain.mem_inputs_of_mem_released hj) ?_
  rintro _ ⟨⟩
  exact ⟨hc, fun hi => hw.isHalted_of_exchanges hx hc hi (hhalted hi)⟩

end World

/-! ### Installing a chain while all threads wait -/

section

variable (write : GateRef → ρ → Flow σ ρ Unit)

theorem input?_of_awaitParked {w : World σ ρ} {i : GateRef} {millis : ℕ}
    (h : w.awaitParked i millis = .ok ()) : (w.input? i).isSome = true := by
  unfold awaitParked at h
  cases hi : w.input? i with
  | none => simp [hi] at h
  | some gate => rfl

/-- A link that is made sure of is there, and if nothing else happens when its gate sends its
buffers, nothing else happens. -/
theorem leads_secureLink {w : World σ ρ} {l : ChainLink}
    (hflush : Keeps w.StandsAs (flushGate write l.outputRef))
    (millis : ℕ) : (secureLink write millis l).Leads w
      (fun _ w' => w.StandsAs w' ∧ (w.input? l.inputRef).isSome = true)
      w.StandsAs := by
  refine leads_bind (leads_get (leads_bind (leads_ofExcept ?_ rfl)))
  rintro ⟨⟩ hparked
  exact (hflush w rfl).mono (fun _ w' hw' => ⟨hw', input?_of_awaitParked hparked⟩) fun _ => id

/-- What comes of halting links: halted gates stay so, the links in the answer were not halted
before, no other ones are halted, and if the links have come to rest they are halted now. -/
structure HaltsAll (w w' : World σ ρ) (links : List ChainLink)
    (answer : Except Error Unit × List ChainLink) : Prop where
  sameGates : SameGates w w'
  kept : ∀ j, w.isHalted j = true → w'.isHalted j = true
  fresh : ∀ l ∈ answer.2, w.isHalted l.inputRef = false
  only : ∀ j, w'.isHalted j = true → w.isHalted j = true ∨ j ∈ answer.2.map ChainLink.inputRef
  halted : answer.1 = .ok () → ∀ l ∈ links, w'.isHalted l.inputRef = true

/-- Halting one link, upon which nothing that counts happens. -/
theorem haltsAll_halt {w w' : World σ ρ} {l : ChainLink} {links : List ChainLink}
    {result : Except Error Unit} (hw : w'.control = (w.halt l.inputRef).2.control)
    (hdone : result = .ok () →
      ∀ l' ∈ links, (w.halt l.inputRef).2.isHalted l'.inputRef = true) :
    HaltsAll w w' links (result, if (w.halt l.inputRef).1 then [l] else []) where
  sameGates := (sameGates_halt w l.inputRef).trans (SameGates.of_control hw)
  kept j hj := by
    rw [isHalted_congr hw]
    exact isHalted_halt_of_isHalted l.inputRef hj
  fresh l' hl' := by
    split_ifs at hl' with hnew
    · rw [List.mem_singleton.mp hl']
      exact ((halt_isNew w _).mp hnew).2
    · cases hl'
  only j hj := by
    by_cases hold : w.isHalted j = true
    · exact .inl hold
    · rw [isHalted_congr hw, isHalted_halt] at hj
      split_ifs at hj with hlj
      · subst hlj
        have hnew : (w.halt l.inputRef).1 = true := (halt_isNew w _).mpr ⟨hj, by simpa using hold⟩
        simp [hnew]
      · exact absurd hj hold
  halted hok l' hl' := by
    rw [isHalted_congr hw]
    exact hdone hok l' hl'

theorem HaltsAll.cons {w w' w'' : World σ ρ} {l : ChainLink} {rest halted : List ChainLink}
    {answer : Except Error Unit × List ChainLink} (h : HaltsAll w w' [l] (.ok (), halted))
    (hrest : HaltsAll w' w'' rest answer) :
    HaltsAll w w'' (l :: rest) (answer.1, halted ++ answer.2) where
  sameGates := h.sameGates.trans hrest.sameGates
  kept j hj := hrest.kept j (h.kept j hj)
  fresh l' hl' := by
    rcases List.mem_append.mp hl' with hfirst | hlater
    · exact h.fresh l' hfirst
    · by_contra hhalted
      have hstill : w'.isHalted l'.inputRef = true := h.kept _ (by simpa using hhalted)
      simp [hrest.fresh l' hlater] at hstill
  only j hj := by
    rw [List.map_append, List.mem_append]
    rcases hrest.only j hj with hbefore | hlater
    · exact (h.only j hbefore).imp_right .inl
    · exact .inr (.inr hlater)
  halted hok l' hl' := by
    rcases List.mem_cons.mp hl' with rfl | hlater
    · exact hrest.kept _ (h.halted rfl l' List.mem_cons_self)
    · exact hrest.halted hok l' hlater

/-- Only links are halted. -/
theorem leads_haltLinks_subset (millis : ℕ) (links : List ChainLink) (w : World σ ρ) :
    (haltLinks write millis links).Leads w (fun answer _ => answer.2 ⊆ links) fun _ => False := by
  induction links generalizing w with
  | nil => exact leads_pure (List.Subset.refl _)
  | cons l rest ih =>
    refine leads_bind (leads_modifyGet ?_)
    have hfirst : (if (w.halt l.inputRef).1 then [l] else []) ⊆ l :: rest := by
      split_ifs <;> simp
    -- it does not matter what comes of the link
    have hsecure : (secureLink write millis l).Leads (w.halt l.inputRef).2 (fun _ _ => True)
        fun _ => True := leads_iff_run.mpr fun _ _ _ => trivial
    refine leads_bind (leads_attempt (hsecure.mono ?_ ?_))
    · intro _ w₁ _
      refine leads_bind ((ih w₁).mono ?_ fun _ hfalse => hfalse)
      intro answer _ hlater
      have hrest : answer.2 ⊆ l :: rest := fun x hx => List.mem_cons_of_mem l (hlater hx)
      exact leads_pure (List.append_subset.mpr ⟨hfirst, hrest⟩)
    · exact fun _ _ e => leads_pure hfirst

/-- A condition under which nothing else happens when the gates of links send their buffers, and
which does not depend on which input gates are halted. -/
theorem leads_haltLinks_of_calm {Q : World σ ρ → Prop} (hQ : IsOfStanding Q)
    (hhalt : ∀ w i, Q w → Q (w.halt i).2) {links : List ChainLink}
    (hflush : ∀ w, Q w → ∀ l ∈ links,
      Keeps w.StandsAs (flushGate write l.outputRef)) (millis : ℕ)
    {w : World σ ρ} (hw : Q w) : (haltLinks write millis links).Leads w
      (fun answer w' => HaltsAll w w' links answer) fun _ => False := by
  induction links generalizing w with
  | nil => exact leads_pure ⟨SameGates.refl w, fun _ => id, by simp, fun _ => .inl, by simp⟩
  | cons l rest ih =>
    refine leads_bind (leads_modifyGet ?_)
    have hhalted := hhalt w l.inputRef hw
    have hsecure := leads_secureLink write (hflush _ hhalted l List.mem_cons_self) millis
    refine leads_bind (leads_attempt (hsecure.mono ?_ ?_))
    · intro _ w₁ ⟨hw₁, hthere⟩
      have hdone : ∀ l' ∈ [l], (w.halt l.inputRef).2.isHalted l'.inputRef = true := by
        intro l' hl'
        rw [List.mem_singleton.mp hl']
        exact isHalted_halt_self hthere
      have hfirst : HaltsAll w w₁ [l] (.ok (), if (w.halt l.inputRef).1 then [l] else []) :=
        haltsAll_halt (control_congr hw₁) fun _ => hdone
      have hrest := ih (fun w hw l' hl' => hflush w hw l' (List.mem_cons_of_mem l hl'))
        (hQ hw₁ hhalted)
      refine leads_bind (hrest.mono ?_ fun _ hfalse => hfalse)
      intro answer w₂ hlater
      exact leads_pure (hfirst.cons hlater)
    · intro w₁ hw₁ e
      exact leads_pure (haltsAll_halt (control_congr hw₁) fun hok => by cases hok)

theorem leads_haltLinks_lazy (millis : ℕ) (links : List ChainLink) {w : World σ ρ}
    (hlazy : w.isEager = false) : (haltLinks write millis links).Leads w
      (fun answer w' => HaltsAll w w' links answer) fun _ => False :=
  leads_haltLinks_of_calm write (fun _ _ h hw => (isEager_congr (control_congr h)).trans hw)
    (fun w i hw => (sameGates_halt w i).isEager.trans hw)
    (fun _ hw _ _ => keeps_flushGate (isOfStanding_standsAs _) (keeps_deliver_lazy hw) _)
    millis hlazy

variable {write} {i g₀ : GateRef} {v₀ : MemberId}

theorem isOfControl_bypasses : IsOfControl (Bypasses (σ := σ) (ρ := ρ) i g₀ v₀) :=
  fun _ _ h hw => hw.of_control h

/-- A gate that becomes the head of a chain has halted its links.  If it does not get that far, it
wakes none that was halted before, and no chain has others. -/
theorem keeps_install_bypasses
    (hwrite : ∀ g record, Keeps (Bypasses i g₀ v₀) (write g record)) {g : GateRef} {c : Chain}
    (hc : LinksOnlyAt i g₀ v₀ g c) : Keeps (Bypasses i g₀ v₀) (install write g c) := by
  have hkeeps : IsOfStanding (Bypasses (σ := σ) (ρ := ρ) i g₀ v₀) := isOfControl_bypasses.ofStanding
  refine keeps_install_of hkeeps (fun l _ => hwrite l.outputRef)
    (keeps_flushGate hkeeps (keeps_deliver hkeeps hwrite) g) (fun w hw => hw.dropChain g) ?_
  intro w millis hw hg
  refine (leads_haltLinks_lazy write millis c.links hw.lazy).mono ?_ fun _ hfalse => hfalse
  intro answer w' hall
  constructor
  · intro e _
    have hsame := hall.sameGates.trans (sameGates_wakeLinks answer.2 w')
    refine hw.of_sameGates hsame fun hi => ?_
    refine (isHalted_wakeLinks answer.2 w' i).mpr ⟨hall.kept i hi, fun hmem => ?_⟩
    obtain ⟨l, hl, rfl⟩ := List.mem_map.mp hmem
    simp [hall.fresh l hl] at hi
  · intro hok
    have hw' : Bypasses i g₀ v₀ w' := hw.of_sameGates hall.sameGates (hall.kept i)
    have hhalted : i ∈ c.inputs → w'.isHalted i = true := by
      intro hi
      obtain ⟨l, hl, rfl⟩ := List.mem_map.mp hi
      exact hall.halted hok l hl
    have hroom := hw'.dissolve hc hhalted
    have hthere : (w'.dissolve c).hasOutput g = true := by
      rw [hasOutput_dissolve, hall.sameGates.hasOutput, hg]
    exact hroom.1.replaceChain hc hroom.2 hthere

end

theorem upkeep_bypasses (i g₀ : GateRef) (v₀ : MemberId) :
    Upkeep (fun _ : Unit => Bypasses (σ := σ) (ρ := ρ) i g₀ v₀) (LinksOnlyAt i g₀ v₀) where
  ofControl _ := isOfControl_bypasses
  enqueue hw ha := hw.of_sameThreads (sameThreads_enqueue _ _ _) fun g c hc => by
    rcases mem_queuedAt_enqueue hc with hold | ⟨rfl, hnew⟩
    · exact hw.queued g c hold
    · exact ha c hnew.symm
  popAction hw := hw.of_sameThreads (sameThreads_popAction _ _) fun g c hc =>
    hw.queued g c (mem_queuedAt_popAction hc)
  admits hw hc := hw.queued _ _ hc
  dropChain hw := hw.dropChain _
  keeps_install hwrite hc _ := keeps_install_bypasses (hwrite ()) hc

/-! ### Every run -/

/-- A link of a chain that is held is halted, if all chains that were queued have it only at this
gate, and only by this name. -/
theorem Operated.isHalted_of_holds {w₀ w : World σ ρ} {ops : List (GateOp ρ)}
    (hrun : Operated w₀ ops w) (h₀ : w₀.IsFresh) (hlazy : w₀.isEager = false) {g : GateRef}
    {c : Chain} {l : ChainLink} (hc : w.Holds g c) (hl : l ∈ c.links)
    (hown : ∀ g' c', Queues ops g' c' → LinksOnlyAt l.inputRef g l.member g' c') :
    w.isHalted l.inputRef = true := by
  have hstart : Bypasses l.inputRef g l.member w₀ :=
    ⟨hlazy, fun _ _ hc => absurd hc h₀.not_holds, fun _ _ hc => absurd hc h₀.not_awaits,
      fun _ _ hc => absurd hc h₀.not_holds⟩
  have hend : Bypasses l.inputRef g l.member w :=
    (upkeep_bypasses l.inputRef g l.member).of_operated (i := ()) hstart hrun hown
  exact hend.halted g c hc (List.mem_map_of_mem hl)

/-- The instance in which `a` and `x` write to `b`, whose thread waits for its turns. -/
def joinWorld : World Unit ℕ := { joinPlan.world with isEager := false }

theorem isFresh_joinWorld : joinWorld.IsFresh :=
  ⟨joinPlan.isFresh_world.isHalted, joinPlan.isFresh_world.chainAt,
    joinPlan.isFresh_world.queuedAt⟩

/-- Only `a` is made the head of a chain with `b`, twice. -/
def loneOps : List (GateOp ℕ) :=
  [.enqueue ⟨0, 0⟩ (.establishChain (joinChain 0 "a")), .perform ⟨0, 0⟩,
    .enqueue ⟨0, 0⟩ (.establishChain (joinChain 1 "a")), .write ⟨0, 0⟩ 7]

theorem isHalted_of_holds_joinWorld : joinWorld.IsFresh ∧ joinWorld.isEager = false ∧
    (∀ g c, Queues loneOps g c → LinksOnlyAt ⟨2, 0⟩ ⟨0, 0⟩ ⟨"b"⟩ g c) ∧
      ∃ w, Operated joinWorld loneOps w ∧ w.Holds ⟨0, 0⟩ (joinChain 1 "a") ∧
        w.isHalted ⟨2, 0⟩ = true := by
  have hown : ∀ g c, Queues loneOps g c → LinksOnlyAt ⟨2, 0⟩ ⟨0, 0⟩ ⟨"b"⟩ g c := by
    intro g c hc l hl _
    simp only [Queues, loneOps, List.mem_cons, List.not_mem_nil, reduceCtorEq,
      GateOp.enqueue.injEq, GateAction.establishChain.injEq, or_false, false_or] at hc
    rcases hc with ⟨rfl, rfl⟩ | ⟨rfl, rfl⟩ <;>
      exact ⟨rfl, by rw [List.mem_singleton.mp hl]⟩
  have hrun : Operated joinWorld loneOps (joinWorld.after loneOps) :=
    Operated.start.after loneOps
  have hheld : (joinWorld.after loneOps).Holds ⟨0, 0⟩ (joinChain 1 "a") := by
    unfold Holds
    decide +kernel
  exact ⟨isFresh_joinWorld, rfl, hown, _, hrun, hheld,
    hrun.isHalted_of_holds isFresh_joinWorld rfl hheld List.mem_cons_self hown⟩

/-- Both `a` and `x` are made heads of a chain with `b`, and then `x` gives up its chain. -/
def overlapOps : List (GateOp ℕ) := joinOps ++ [.dropChain ⟨1, 0⟩]

/-- When `x` gives up its chain, the thread of `b` is woken, although `b` is still a link of the
chain of `a`. -/
theorem not_haltsLinks : joinWorld.IsFresh ∧ joinWorld.isEager = false ∧
    (∀ g c, Queues overlapOps g c → Chain.create c.number c.id c.head c.links = .ok c) ∧
      ∃ w, Operated joinWorld overlapOps w ∧ ¬ w.HaltsLinks := by
  have hcreated : ∀ g c, Queues overlapOps g c →
      Chain.create c.number c.id c.head c.links = .ok c := by
    intro g c hc
    simp only [Queues, overlapOps, joinOps, List.cons_append, List.nil_append, List.mem_cons,
      List.not_mem_nil, reduceCtorEq, GateOp.enqueue.injEq, GateAction.establishChain.injEq,
      or_false, false_or] at hc
    rcases hc with ⟨-, rfl⟩ | ⟨-, rfl⟩ <;> rfl
  have hrun : Operated joinWorld overlapOps (joinWorld.after overlapOps) :=
    Operated.start.after overlapOps
  have hheld : (joinWorld.after overlapOps).Holds ⟨0, 0⟩ (joinChain 0 "a") := by
    unfold Holds
    decide +kernel
  have hawake : (joinWorld.after overlapOps).isHalted ⟨2, 0⟩ = false := by
    decide +kernel
  refine ⟨isFresh_joinWorld, rfl, hcreated, _, hrun, fun hhalts => ?_⟩
  have hhalted : (joinWorld.after overlapOps).isHalted ⟨2, 0⟩ = true :=
    hhalts ⟨0, 0⟩ (joinChain 0 "a") hheld ⟨⟨"b"⟩, 2, 0, 0⟩ List.mem_cons_self
  exact Bool.false_ne_true (hawake.symm.trans hhalted)

end LatencyControl
