import LatencyControl.Proofs.Flow.Upkeep

/-!
# No thread is left parked

Threads are asked to halt by the installation of a chain only, and each of them is woken when its
task is no longer part of a chain, in whatever way that comes about: the chain is dropped, its gate
leaves the running state, another chain replaces it or takes its gate in, or its installation does
not get through.  So a halted input gate always belongs to a link of a chain that some gate holds
(`Operated.accountsForHalts`).

A chain does not wake what its successor takes over, and which of its links these are is decided by
name.  Therefore a name always has to stand for the same input gate.
-/

namespace LatencyControl

open LatencyControl.Flow World

variable {σ ρ : Type}

/-! ### What accounts for a halted gate -/

/-- A member stands for the same input gate in all these chains. -/
def AgreeOnInputs (C : Chain → Prop) : Prop :=
  ∀ c c', C c → C c' → ∀ l ∈ c.links, ∀ l' ∈ c'.links, l.member = l'.member →
    l.inputRef = l'.inputRef

/-- What a chain does not release, its successor takes over. -/
theorem AgreeOnInputs.mem_released_or_mem_inputs {C : Chain → Prop} (hC : AgreeOnInputs C)
    {p c : Chain} (hp : C p) (hc : C c) {i : GateRef} (hi : i ∈ p.inputs) :
    i ∈ p.released c ∨ i ∈ c.inputs := by
  obtain ⟨l, hl, rfl⟩ := List.mem_map.mp hi
  by_cases hkept : l.inputRef ∈ p.released c
  · exact .inl hkept
  · obtain ⟨l', hl', hmember⟩ := Chain.exists_link_of_not_mem_released hl hkept
    rw [← hC c p hc hp l' hl' l hl hmember]
    exact .inr (List.mem_map_of_mem hl')

namespace World

/-- Every halted input gate belongs to a link of a chain that some gate holds. -/
def AccountsForHalts (w : World σ ρ) : Prop :=
  ∀ i, w.isHalted i = true → ∃ g c, w.Holds g c ∧ i ∈ c.inputs

/-- The same with an exception: while a chain is being installed, the gates that it halts do not
belong to it yet.  All chains that are held or queued are of one kind, and there are certain output
gates. -/
structure Accounts (C : Chain → Prop) (gates : GateRef → Bool) (S : List GateRef)
    (w : World σ ρ) : Prop where
  halted : ∀ i, w.isHalted i = true → i ∈ S ∨ ∃ g c, w.Holds g c ∧ i ∈ c.inputs
  held : ∀ g c, w.Holds g c → C c
  queued : ∀ g c, w.Awaits g c → C c
  hasOutput : ∀ g, w.hasOutput g = gates g

variable {C : Chain → Prop} {gates : GateRef → Bool} {S S' : List GateRef} {w w' : World σ ρ}
  {g : GateRef}

/-- Queues may change as long as no new kind of chain gets into them. -/
theorem Accounts.of_sameThreads (hw : Accounts C gates S w) (h : SameThreads w w')
    (hqueued : ∀ g c, w'.Awaits g c → C c) : Accounts C gates S w' where
  halted i hi := by
    rw [h.isHalted] at hi
    refine (hw.halted i hi).imp_right ?_
    rintro ⟨g, c, hc, hic⟩
    exact ⟨g, c, (h.chainAt g).trans hc, hic⟩
  held g c hc := hw.held g c ((h.chainAt g).symm.trans hc)
  queued := hqueued
  hasOutput g := (h.hasOutput g).trans (hw.hasOutput g)

/-- Gates may be halted if they become exceptions, and must be woken before they cease to be. -/
theorem Accounts.of_sameGates (hw : Accounts C gates S w) (h : SameGates w w')
    (hhalted : ∀ i, w'.isHalted i = true →
      i ∈ S' ∨ w.isHalted i = true ∧ (i ∈ S → i ∈ S')) : Accounts C gates S' w' where
  halted i hi := by
    rcases hhalted i hi with hnew | ⟨hold, hkept⟩
    · exact .inl hnew
    · refine (hw.halted i hold).imp hkept ?_
      rintro ⟨g, c, hc, hic⟩
      exact ⟨g, c, (h.chainAt g).trans hc, hic⟩
  held g c hc := hw.held g c ((h.chainAt g).symm.trans hc)
  queued g c hc := hw.queued g c (by rwa [Awaits, h.queuedAt] at hc)
  hasOutput g := (h.hasOutput g).trans (hw.hasOutput g)

theorem Accounts.of_control (hw : Accounts C gates S w) (h : w'.control = w.control) :
    Accounts C gates S w' := by
  refine hw.of_sameGates (SameGates.of_control h) ?_
  intro i hi
  rw [isHalted_congr h] at hi
  exact .inr ⟨hi, id⟩

/-- A chain may go if each of its gates is woken, is an exception or is taken over by the chain
that comes, which also takes over exceptions. -/
theorem Accounts.exchange {new : Option Chain} {woken : Chain → List GateRef}
    (hw : Accounts C gates S w) (hx : Exchanges w w' g new woken) (hnew : ∀ c, new = some c → C c)
    (hgone : ∀ p, w.Holds g p → ∀ i ∈ p.inputs,
      i ∈ woken p ∨ i ∈ S' ∨ ∃ c, new = some c ∧ i ∈ c.inputs)
    (hS : ∀ i ∈ S, i ∈ S' ∨ ∃ c, new = some c ∧ i ∈ c.inputs) : Accounts C gates S' w' where
  halted i hi := by
    obtain ⟨hold, hasleep⟩ := (hx.isHalted i).mp hi
    have htaken : (∃ c, new = some c ∧ i ∈ c.inputs) → ∃ g c, w'.Holds g c ∧ i ∈ c.inputs := by
      rintro ⟨c, rfl, hic⟩
      exact ⟨g, c, by rw [Holds, hx.chainAt, if_pos rfl], hic⟩
    rcases hw.halted i hold with hi | ⟨h, p, hp, hip⟩
    · exact (hS i hi).imp_right htaken
    · by_cases hgh : g = h
      · subst hgh
        rcases hgone p hp i hip with hwoken | hkept | hover
        · exact absurd hwoken (hasleep p hp)
        · exact .inl hkept
        · exact .inr (htaken hover)
      · exact .inr ⟨h, p, by rwa [Holds, hx.chainAt, if_neg hgh], hip⟩
  held h c hc := by
    rcases hx.holds hc with ⟨-, hc⟩ | ⟨-, hc⟩
    · exact hnew c hc
    · exact hw.held h c hc
  queued h c hc := hw.queued h c (hx.awaits hc)
  hasOutput h := (hx.hasOutput h).trans (hw.hasOutput h)

theorem Accounts.dropChain (hw : Accounts C gates S w) (g : GateRef) :
    Accounts C gates S (w.dropChain g) := by
  refine hw.exchange (exchanges_dropChain w g) ?_ ?_ ?_
  · rintro c ⟨⟩
  · exact fun p _ i hi => .inl hi
  · exact fun i hi => .inl hi

/-- While all gates of a chain are exceptions, other chains may make room for it. -/
theorem Accounts.dissolve (hw : Accounts C gates S w) (hC : AgreeOnInputs C) {c : Chain} (hc : C c)
    (hS : ∀ i ∈ c.inputs, i ∈ S) : Accounts C gates S (w.dissolve c) := by
  refine List.foldlRecOn c.links _ hw ?_
  intro w hw l _
  refine hw.exchange (exchanges_release w l.outputRef c) ?_ ?_ ?_
  · rintro c ⟨⟩
  · intro p hp i hi
    have hkept := hC.mem_released_or_mem_inputs (hw.held _ p hp) hc hi
    exact hkept.imp_right fun hi => .inl (hS i hi)
  · exact fun i hi => .inl hi

/-- Once a gate holds the chain, its gates are exceptions no longer. -/
theorem Accounts.replaceChain {c : Chain} (hw : Accounts C gates (S ++ c.inputs) w)
    (hC : AgreeOnInputs C) (hc : C c) (hg : w.hasOutput g = true) :
    Accounts C gates S (w.replaceChain g c) := by
  refine hw.exchange (exchanges_replaceChain hg c) ?_ ?_ ?_
  · rintro _ ⟨⟩
    exact hc
  · intro p hp i hi
    have hkept := hC.mem_released_or_mem_inputs (hw.held g p hp) hc hi
    exact hkept.imp_right fun hi => .inr ⟨c, rfl, hi⟩
  · exact fun i hi => (List.mem_append.mp hi).imp_right fun hi => ⟨c, rfl, hi⟩

/-- A gate that is halted anew becomes an exception. -/
theorem Accounts.halt (hw : Accounts C gates S w) (l : ChainLink) :
    Accounts C gates
      (S ++ (if (w.halt l.inputRef).1 then [l] else []).map ChainLink.inputRef)
      (w.halt l.inputRef).2 := by
  refine hw.of_sameGates (sameGates_halt w _) ?_
  intro i hi
  by_cases hold : w.isHalted i = true
  · exact .inr ⟨hold, fun hi => List.mem_append_left _ hi⟩
  · have hnew : (w.halt l.inputRef).1 = true ∧ l.inputRef = i := by
      rw [isHalted_halt] at hi
      split_ifs at hi with hli
      · subst hli
        exact ⟨(halt_isNew w _).mpr ⟨hi, by simpa using hold⟩, rfl⟩
      · exact absurd hi hold
    refine .inl (List.mem_append_right S ?_)
    rw [if_pos hnew.1, ← hnew.2]
    exact List.mem_singleton_self _

/-- Gates that were exceptions are woken. -/
theorem Accounts.wakeLinks {links : List ChainLink}
    (hw : Accounts C gates (S ++ links.map ChainLink.inputRef) w) :
    Accounts C gates S (w.wakeLinks links) := by
  refine hw.of_sameGates (sameGates_wakeLinks links w) ?_
  intro i hi
  have hawake := (isHalted_wakeLinks links w i).mp hi
  refine .inr ⟨hawake.1, fun hexcept => ?_⟩
  exact (List.mem_append.mp hexcept).resolve_right hawake.2

end World

/-! ### Installing a chain -/

section

variable {C : Chain → Prop} {gates : GateRef → Bool}

theorem isOfControl_accounts (S : List GateRef) :
    IsOfControl (Accounts (σ := σ) (ρ := ρ) C gates S) := fun _ _ h hw => hw.of_control h

variable {write : GateRef → ρ → Flow σ ρ Unit}
  (hwrite : ∀ S g record, Keeps (Accounts C gates S) (write g record))

include hwrite

/-- The links that were halted are exceptions afterwards, whether all of them came to rest or
not. -/
theorem leads_haltLinks (millis : ℕ) (links : List ChainLink) {S : List GateRef} {w : World σ ρ}
    (hw : Accounts C gates S w) : (haltLinks write millis links).Leads w
      (fun answer w' => Accounts C gates (S ++ answer.2.map ChainLink.inputRef) w' ∧
        answer.2 ⊆ links) fun _ => False := by
  induction links generalizing S w with
  | nil => exact leads_pure ⟨by simpa using hw, List.Subset.refl _⟩
  | cons l rest ih =>
    refine leads_bind (leads_modifyGet ?_)
    have hhalt := hw.halt l
    generalize hnew : (if (w.halt l.inputRef).1 then [l] else []) = halted at hhalt
    have hfirst : halted ⊆ l :: rest := by
      subst hnew
      split_ifs <;> simp
    have hkeeps : IsOfStanding (Accounts (σ := σ) (ρ := ρ) C gates
        (S ++ halted.map ChainLink.inputRef)) := (isOfControl_accounts _).ofStanding
    have hflush := keeps_flushGate hkeeps (keeps_deliver hkeeps (hwrite _)) l.outputRef
    have hsecure := keeps_secureLink hflush millis
    refine leads_bind (leads_attempt ((hsecure _ hhalt).mono ?_ ?_))
    · intro _ w' hw'
      refine leads_bind ((ih hw').mono ?_ fun _ hfalse => hfalse)
      intro answer w'' hanswer
      have hlater : answer.2 ⊆ l :: rest := fun x hx => List.mem_cons_of_mem l (hanswer.2 hx)
      refine leads_pure ⟨?_, List.append_subset.mpr ⟨hfirst, hlater⟩⟩
      simpa [List.append_assoc] using hanswer.1
    · intro w' hw' e
      exact leads_pure ⟨hw', hfirst⟩

/-- While the links come to rest they are exceptions.  If they do not, those that were halted are
woken again; if they do, the chain accounts for all of them once the gate holds it. -/
theorem keeps_install_accounts (hC : AgreeOnInputs C) {g : GateRef} {c : Chain} (hc : C c)
    (S : List GateRef) : Keeps (Accounts C gates S) (install write g c) := by
  have hkeeps : IsOfStanding (Accounts (σ := σ) (ρ := ρ) C gates S) :=
    (isOfControl_accounts S).ofStanding
  refine keeps_install_of hkeeps (fun l _ => hwrite S l.outputRef)
    (keeps_flushGate hkeeps (keeps_deliver hkeeps (hwrite S)) g) (fun w hw => hw.dropChain g) ?_
  intro w millis hw hg
  refine (leads_haltLinks hwrite millis c.links hw).mono ?_ fun _ hfalse => hfalse
  intro answer w' ⟨hw', hsub⟩
  constructor
  · intro _ _
    exact hw'.wakeLinks
  · intro _
    have hall : Accounts C gates (S ++ c.inputs) w' := by
      refine hw'.of_sameGates (SameGates.refl w') fun i hi => .inr ⟨hi, ?_⟩
      intro hexcept
      have hlinks : answer.2.map ChainLink.inputRef ⊆ c.inputs := List.map_subset _ hsub
      exact List.mem_append.mpr ((List.mem_append.mp hexcept).imp_right fun hi => hlinks hi)
    have hroom : Accounts C gates (S ++ c.inputs) (w'.dissolve c) :=
      hall.dissolve hC hc fun i hi => List.mem_append_right S hi
    have hthere : (w'.dissolve c).hasOutput g = true := by
      rw [hroom.hasOutput, ← hw.hasOutput, hg]
    exact hroom.replaceChain hC hc hthere

end

theorem upkeep_accounts {C : Chain → Prop} (hC : AgreeOnInputs C) (gates : GateRef → Bool) :
    Upkeep (Accounts (σ := σ) (ρ := ρ) C gates) fun _ c => C c where
  ofControl := isOfControl_accounts
  enqueue hw ha := hw.of_sameThreads (sameThreads_enqueue _ _ _) fun g c hc =>
    (mem_queuedAt_enqueue hc).elim (hw.queued g c) fun h => ha c h.2.symm
  popAction hw := hw.of_sameThreads (sameThreads_popAction _ _) fun g c hc =>
    hw.queued g c (mem_queuedAt_popAction hc)
  admits hw hc := hw.queued _ _ hc
  dropChain hw := hw.dropChain _
  keeps_install hwrite hc S := keeps_install_accounts hwrite hC hc S

/-! ### Every run -/

/-- **No thread is left parked.**  Whatever is done to a new instance, and whatever becomes of it,
every halted input gate belongs to a link of a chain that some gate holds. -/
theorem Operated.accountsForHalts {w₀ w : World σ ρ} {ops : List (GateOp ρ)}
    (hrun : Operated w₀ ops w) (h₀ : w₀.IsFresh)
    (hops : AgreeOnInputs fun c => ∃ g, Queues ops g c) : w.AccountsForHalts := by
  have hstart : Accounts (fun c => ∃ g, Queues ops g c) w₀.hasOutput [] w₀ := by
    refine ⟨fun i hi => ?_, fun _ _ hc => absurd hc h₀.not_holds,
      fun _ _ hc => absurd hc h₀.not_awaits, fun _ => rfl⟩
    rw [h₀.isHalted] at hi
    cases hi
  have hend : Accounts (fun c => ∃ g, Queues ops g c) w₀.hasOutput [] w :=
    (upkeep_accounts hops w₀.hasOutput).of_operated hstart hrun fun g c hc => ⟨g, hc⟩
  intro i hi
  exact (hend.halted i hi).resolve_left List.not_mem_nil

/-! ### Two tasks that feed a third -/

/-- A task of a plan that passes on what it reads, one record at a time. -/
def relayPlan (name : String) (inputs : ℕ) (target : String) (hasThread : Bool) :
    TaskPlan Unit ℕ where
  id := ⟨name⟩
  inputs
  outputs := [{ outlet := .channels [⟨⟨name⟩, target, 1⟩] }]
  code := fun m record => ([record], m)
  memory := ()
  hasThread

/-- The tasks `a` and `x` write to the task `b`, which has a thread. -/
def joinPlan : Plan Unit ℕ where
  job := ⟨"job"⟩
  clock := 0
  tasks := [relayPlan "a" 0 "b" false, relayPlan "x" 0 "b" false, relayPlan "b" 1 "sink" true]

/-- A chain of a task and `b`. -/
def joinChain (number : ℕ) (head : String) : Chain where
  number
  id := ⟨head⟩
  head := ⟨head⟩
  links := [⟨⟨"b"⟩, 2, 0, 0⟩]

/-- Both tasks are made heads of a chain with `b`, one after the other. -/
def joinOps : List (GateOp ℕ) :=
  [.enqueue ⟨0, 0⟩ (.establishChain (joinChain 0 "a")), .perform ⟨0, 0⟩,
    .enqueue ⟨1, 0⟩ (.establishChain (joinChain 1 "x")), .perform ⟨1, 0⟩]

theorem links_of_queues_joinOps {g : GateRef} {c : Chain} (hc : Queues joinOps g c) :
    c.links = [⟨⟨"b"⟩, 2, 0, 0⟩] := by
  simp only [Queues, joinOps, List.mem_cons, List.not_mem_nil, reduceCtorEq, GateOp.enqueue.injEq,
    GateAction.establishChain.injEq, or_false, false_or] at hc
  rcases hc with ⟨-, rfl⟩ | ⟨-, rfl⟩ <;> rfl

theorem accountsForHalts_joinPlan : joinPlan.world.IsFresh ∧
    (AgreeOnInputs fun c => ∃ g, Queues joinOps g c) ∧
      ∃ w, Operated joinPlan.world joinOps w ∧ w.isHalted ⟨2, 0⟩ = true ∧ w.AccountsForHalts := by
  have hfresh : joinPlan.world.IsFresh := joinPlan.isFresh_world
  have hops : AgreeOnInputs fun c => ∃ g, Queues joinOps g c := by
    rintro c c' ⟨g, hc⟩ ⟨g', hc'⟩ l hl l' hl' -
    rw [links_of_queues_joinOps hc, List.mem_singleton] at hl
    rw [links_of_queues_joinOps hc', List.mem_singleton] at hl'
    rw [hl, hl']
  have hrun : Operated joinPlan.world joinOps (joinPlan.world.after joinOps) :=
    Operated.start.after joinOps
  exact ⟨hfresh, hops, _, hrun, by decide +kernel, hrun.accountsForHalts hfresh hops⟩

end LatencyControl
