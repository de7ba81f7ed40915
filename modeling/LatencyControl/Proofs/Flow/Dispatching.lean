import LatencyControl.Flow.Dispatch
import LatencyControl.Proofs.Flow.Queue
import LatencyControl.Proofs.Result

/-!
# Where messages end up

A message is queued at one output gate of a registered task, or it is skipped.  `dispatch_outcomes`
says which, for every register that registrations and withdrawals make: what is queued, where, that
nothing changes at any other gate, and that a message is skipped for the reasons of
`World.Refuses` only, in which case it leaves no trace.

* `World.registrant` says from the history of a register which task stands for a member, and
  `registered?_amended` that the register has this task.
* `findOutput?_eq_some`, `enchains_of_link?` and `exists_of_buildChain?` say what each look-up finds;
  what it takes for them to fail is said by `findOutput?_eq_none`, `link?_eq_none` and
  `buildChain?_eq_none`.
* A chain is built from all of its members before anything is queued, so there is nothing to undo
  when one of them is missing.
-/

namespace LatencyControl

variable {σ ρ : Type}

/-! ### What a message names -/

namespace Action

/-- The members that an action names. -/
def members : Action → List MemberId
  | .limitBufferSize member _ _ _ => [member]
  | .setLifetimeTarget member _ _ _ => [member]
  | .establishChain members => members
  | .dropChain member _ => [member]

/-- The gate that an action names, unless it is about a chain. -/
def addressee? : Action → Option (MemberId × GateId)
  | .limitBufferSize member gate _ _ => some (member, gate)
  | .setLifetimeTarget member gate _ _ => some (member, gate)
  | .establishChain _ => none
  | .dropChain member gate => some (member, gate)

/-- An action is for one gate, or it asks for a chain. -/
theorem addressee_cases (a : Action) :
    (∃ member gate queued, a.addressee? = some (member, gate) ∧ a.members = [member] ∧
      GateAction.ofAction? a = some queued) ∨ ∃ members, a = .establishChain members := by
  cases a with
  | limitBufferSize member gate channel size => exact .inl ⟨member, gate, _, rfl, rfl, rfl⟩
  | setLifetimeTarget member gate channel target => exact .inl ⟨member, gate, _, rfl, rfl, rfl⟩
  | establishChain members => exact .inr ⟨members, rfl⟩
  | dropChain member gate => exact .inl ⟨member, gate, _, rfl, rfl, rfl⟩

end Action

namespace World

variable {w w' : World σ ρ}

/-! ### The register -/

/-- What changes the register. -/
inductive RegisterOp
  | register (task : ℕ)
  | unregister (member : MemberId)

/-- Changes the register; a registration that is refused changes nothing. -/
def amend (w : World σ ρ) : RegisterOp → World σ ρ
  | .register task =>
    match w.registerTask task with
    | .ok w' => w'
    | .error _ => w
  | .unregister member => (w.unregister member).2

/-- The instance with the register that some changes make of an empty one. -/
def amended (w : World σ ρ) (ops : List RegisterOp) : World σ ρ :=
  ops.foldl amend { w with register := Table.empty }

/-- Which task stands for a member after a change, given the one that did before: it is the first
that was registered as the member, since the member was last taken out. -/
def noted (w : World σ ρ) (member : MemberId) (found : Option ℕ) : RegisterOp → Option ℕ
  | .register task =>
    found.or (if (w.task? task).map Task.id = some member then some task else none)
  | .unregister member' => if member' = member then none else found

/-- Which task stands for a member after some changes of an empty register. -/
def registrant (w : World σ ρ) (ops : List RegisterOp) (member : MemberId) : Option ℕ :=
  ops.foldl (w.noted member) none

/-- A registration counts if there is such a task and nobody is registered under its name. -/
theorem amend_register (w : World σ ρ) (task : ℕ) : w.amend (.register task) =
    match w.task? task with
    | none => w
    | some t =>
      if w.register.contains t.id then w
      else { w with register := w.register.insert t.id task } := by
  rw [amend, registerTask]
  cases w.task? task with
  | none => rfl
  | some t =>
    dsimp only
    split_ifs
    · rfl
    · rfl

/-- A change of the register changes nothing else. -/
theorem amend_eq (w : World σ ρ) (op : RegisterOp) :
    w.amend op = { w with register := (w.amend op).register } := by
  cases op with
  | unregister member => rfl
  | register task =>
    rw [amend_register]
    cases w.task? task with
    | none => rfl
    | some t =>
      dsimp only
      split_ifs
      · rfl
      · rfl

/-- What a change does to the entry of a member. -/
theorem find?_amend (w : World σ ρ) (op : RegisterOp) (member : MemberId) :
    (w.amend op).register.find? member = w.noted member (w.register.find? member) op := by
  cases op with
  | unregister member' =>
    show (w.register.erase member').find? member = if member' = member then none else _
    by_cases hmember : member' = member
    · subst hmember
      rw [Table.find?_erase_self, if_pos rfl]
    · rw [Table.find?_erase_of_ne _ hmember, if_neg hmember]
  | register task =>
    rw [amend_register, noted]
    cases ht : w.task? task with
    | none => simp
    | some t =>
      dsimp only
      rw [Option.map_some]
      by_cases hmember : t.id = member
      · subst hmember
        cases hfound : w.register.find? t.id with
        | some k =>
          have hcontains : w.register.contains t.id = true := by rw [Table.contains, hfound]; rfl
          rw [if_pos hcontains, hfound]
          rfl
        | none =>
          have hcontains : ¬ w.register.contains t.id = true := by
            rw [Table.contains, hfound]
            exact Bool.false_ne_true
          rw [if_neg hcontains, if_pos rfl]
          exact Table.find?_insert_self ..
      · rw [if_neg (fun h => hmember (Option.some.inj h)), Option.or_none]
        split_ifs
        · rfl
        · exact Table.find?_insert_of_ne _ hmember _

theorem foldl_amend_eq (ops : List RegisterOp) (w : World σ ρ) :
    ops.foldl amend w = { w with register := (ops.foldl amend w).register } := by
  induction ops generalizing w with
  | nil => rfl
  | cons op rest ih =>
    have hop := w.amend_eq op
    rw [List.foldl_cons, ih, hop]

/-- Changes of the register change nothing else. -/
theorem amended_eq (w : World σ ρ) (ops : List RegisterOp) :
    w.amended ops = { w with register := (w.amended ops).register } :=
  foldl_amend_eq ops { w with register := Table.empty }

/-- The register at the end has what the changes note, one after the other. -/
theorem find?_foldl_amend (ops : List RegisterOp) (w : World σ ρ) (member : MemberId) :
    (ops.foldl amend w).register.find? member
      = ops.foldl (w.noted member) (w.register.find? member) := by
  induction ops generalizing w with
  | nil => rfl
  | cons op rest ih =>
    -- what a change notes depends on the tasks only, and these stay as they are
    have hnoted : (w.amend op).noted member = w.noted member := by
      rw [w.amend_eq op]
      rfl
    rw [List.foldl_cons, ih, hnoted, find?_amend, List.foldl_cons]

/-- **The register has what its history says.** -/
theorem find?_amended (w : World σ ρ) (ops : List RegisterOp) (member : MemberId) :
    (w.amended ops).register.find? member = w.registrant ops member := by
  have hstart : (Table.empty : Table MemberId ℕ).find? member = none := Table.find?_empty member
  rw [amended, find?_foldl_amend, hstart]
  rfl

/-- Who stands for a member is a task of that name. -/
theorem exists_task_of_registrant {ops : List RegisterOp} {member : MemberId} {k : ℕ}
    (h : w.registrant ops member = some k) : ∃ t, w.task? k = some t ∧ t.id = member := by
  suffices hfold : ∀ found : Option ℕ,
      (∀ k, found = some k → ∃ t, w.task? k = some t ∧ t.id = member) →
      ops.foldl (w.noted member) found = some k → ∃ t, w.task? k = some t ∧ t.id = member from
    hfold none (fun _ h => by cases h) h
  clear h
  induction ops with
  | nil => exact fun found hfound h => hfound k h
  | cons op rest ih =>
    intro found hfound hrest
    refine ih (w.noted member found op) (fun k' hk' => ?_) hrest
    cases op with
    | unregister member' =>
      rw [noted] at hk'
      split_ifs at hk'
      exact hfound k' hk'
    | register task =>
      rw [noted, Option.or_eq_some_iff] at hk'
      rcases hk' with hold | ⟨-, hnew⟩
      · exact hfound k' hold
      · split_ifs at hnew with htask
        obtain rfl := Option.some.inj hnew
        exact Option.map_eq_some_iff.mp htask

/-- **Who is registered.** -/
theorem registered?_amended {ops : List RegisterOp} {member : MemberId} {k : ℕ} {t : Task σ ρ} :
    (w.amended ops).registered? member = some (k, t) ↔
      w.registrant ops member = some k ∧ w.task? k = some t ∧ t.id = member := by
  have htask : ∀ k, (w.amended ops).task? k = w.task? k := fun k => by
    rw [amended_eq]
    rfl
  rw [registered?, find?_amended]
  cases hfound : w.registrant ops member with
  | none => simp
  | some k' =>
    obtain ⟨t', ht', hid⟩ := exists_task_of_registrant hfound
    show ((w.amended ops).task? k' >>= fun t => pure (k', t)) = some (k, t) ↔ _
    rw [htask, ht']
    constructor
    · intro h
      obtain ⟨rfl, rfl⟩ := Prod.mk.inj (Option.some.inj h)
      exact ⟨rfl, ht', hid⟩
    · rintro ⟨hk, ht, -⟩
      obtain rfl := Option.some.inj hk
      rw [ht', Option.some.injEq] at ht
      rw [ht]
      rfl

/-! ### Look-ups -/

/-- A gate is the first one of a task that has an identifier. -/
structure IsFirstOutput (t : Task σ ρ) (gate : GateId) (n : ℕ) : Prop where
  has : ∃ output, t.outputs[n]? = some output ∧ output.id = gate
  first : ∀ n' < n, ∀ output, t.outputs[n']? = some output → output.id ≠ gate

theorem findIdx?_eq_some {t : Task σ ρ} {gate : GateId} {n : ℕ} :
    t.outputs.findIdx? (fun output => output.id = gate) = some n ↔ IsFirstOutput t gate n := by
  rw [List.findIdx?_eq_some_iff_getElem]
  constructor
  · rintro ⟨hn, hid, hearlier⟩
    refine ⟨⟨t.outputs[n], List.getElem?_eq_getElem hn, of_decide_eq_true hid⟩, ?_⟩
    intro n' hn' output houtput hsame
    obtain ⟨hlt, rfl⟩ := List.getElem?_eq_some_iff.mp houtput
    exact hearlier n' hn' (decide_eq_true hsame)
  · rintro ⟨⟨output, houtput, hid⟩, hfirst⟩
    obtain ⟨hn, rfl⟩ := List.getElem?_eq_some_iff.mp houtput
    refine ⟨hn, decide_eq_true hid, fun n' hn' hsame => ?_⟩
    exact hfirst n' hn' _ (List.getElem?_eq_getElem (Nat.lt_trans hn' hn)) (of_decide_eq_true hsame)

theorem findOutput?_eq_some {member : MemberId} {gate : GateId} {g : GateRef} :
    w.findOutput? member gate = some g ↔
      ∃ t, w.registered? member = some (g.task, t) ∧ IsFirstOutput t gate g.gate := by
  simp only [← findIdx?_eq_some]
  obtain ⟨task, n⟩ := g
  rw [findOutput?]
  cases w.registered? member with
  | none => simp
  | some found =>
    obtain ⟨task', t⟩ := found
    show (t.outputs.findIdx? (fun output => output.id = gate)).bind
      (fun n => some ({ task := task', gate := n } : GateRef)) = _ ↔ _
    rw [Option.bind_eq_some_iff]
    constructor
    · rintro ⟨n', hn', hsame⟩
      obtain ⟨rfl, rfl⟩ := GateRef.mk.inj (Option.some.inj hsame)
      exact ⟨t, rfl, hn'⟩
    · rintro ⟨t', ht', hn⟩
      obtain ⟨rfl, rfl⟩ := Prod.mk.inj (Option.some.inj ht')
      exact ⟨n, hn, rfl⟩

theorem findOutput?_eq_none {member : MemberId} {gate : GateId} :
    w.findOutput? member gate = none ↔ w.registered? member = none ∨
      ∃ k t, w.registered? member = some (k, t) ∧ ∀ output ∈ t.outputs, output.id ≠ gate := by
  rw [findOutput?]
  cases w.registered? member with
  | none => simp
  | some found =>
    obtain ⟨task, t⟩ := found
    have hnone : t.outputs.findIdx? (fun output => output.id = gate) = none ↔
        ∀ output ∈ t.outputs, output.id ≠ gate := by
      simp [List.findIdx?_eq_none_iff]
    show (t.outputs.findIdx? (fun output => output.id = gate)).bind
      (fun n => some ({ task, gate := n } : GateRef)) = none ↔ _
    cases hfound : t.outputs.findIdx? (fun output => output.id = gate) with
    | none =>
      refine iff_of_true rfl (.inr ⟨task, t, rfl, hnone.mp hfound⟩)
    | some n =>
      refine iff_of_false (fun h => by cases h) ?_
      rintro (h | ⟨k, t', ht', hall⟩)
      · cases h
      · obtain ⟨rfl, rfl⟩ := Prod.mk.inj (Option.some.inj ht')
        rw [hnone.mpr hall] at hfound
        cases hfound

/-- A link takes a member into a chain: it is the registered task of the member, with the first
gates and the user code of this task. -/
structure Enchains (w : World σ ρ) (l : ChainLink) (t : Task σ ρ) : Prop where
  registered : w.registered? l.member = some (l.task, t)
  gates : l.input = 0 ∧ l.output = 0
  input : ∃ gate, t.inputs.head? = some gate ∧ w.input? l.inputRef = some gate
  output : ∃ gate, t.outputs.head? = some gate ∧ w.output? l.outputRef = some gate
  code : ∀ record, (w.runCode l.task record).1 = (t.code t.memory record).1

/-- The link of a member is there if its task has gates on either side. -/
theorem link?_of_registered {member : MemberId} {k : ℕ} {t : Task σ ρ}
    (h : w.registered? member = some (k, t)) : w.link? member =
      if t.inputs = [] ∨ t.outputs = [] then none
      else some { member, task := k, input := 0, output := 0 } := by
  rw [link?, h]
  show (if (t.inputs.isEmpty || t.outputs.isEmpty) = true then none else some _) = _
  simp only [Bool.or_eq_true, List.isEmpty_iff]

theorem link?_eq_none {member : MemberId} : w.link? member = none ↔
    w.registered? member = none ∨
      ∃ k t, w.registered? member = some (k, t) ∧ (t.inputs = [] ∨ t.outputs = []) := by
  cases hfound : w.registered? member with
  | none =>
    rw [link?, hfound]
    exact iff_of_true rfl (.inl rfl)
  | some found =>
    obtain ⟨k, t⟩ := found
    rw [link?_of_registered hfound]
    simp [or_iff_not_imp_left]

/-- A registered task is there. -/
theorem task?_of_registered {member : MemberId} {k : ℕ} {t : Task σ ρ}
    (h : w.registered? member = some (k, t)) : w.task? k = some t := by
  obtain ⟨index, -, hindex⟩ := Option.bind_eq_some_iff.mp h
  obtain ⟨t', ht', hsame⟩ := Option.bind_eq_some_iff.mp hindex
  obtain ⟨rfl, rfl⟩ := Prod.mk.inj (Option.some.inj hsame)
  exact ht'

/-- **What a link is made of.** -/
theorem enchains_of_link? {member : MemberId} {l : ChainLink} (h : w.link? member = some l) :
    l.member = member ∧ ∃ t, w.Enchains l t := by
  cases hfound : w.registered? member with
  | none =>
    rw [link?, hfound] at h
    cases h
  | some found =>
    obtain ⟨k, t⟩ := found
    rw [link?_of_registered hfound] at h
    split_ifs at h with hgates
    obtain rfl := Option.some.inj h
    obtain ⟨hinputs, houtputs⟩ := not_or.mp hgates
    obtain ⟨i, inputs, hi⟩ := List.exists_cons_of_ne_nil hinputs
    obtain ⟨o, outputs, ho⟩ := List.exists_cons_of_ne_nil houtputs
    have htask := task?_of_registered hfound
    refine ⟨rfl, t, hfound, ⟨rfl, rfl⟩, ⟨i, ?_, ?_⟩, ⟨o, ?_, ?_⟩, fun record => ?_⟩
    · rw [hi]
      rfl
    · rw [input?, ChainLink.inputRef, htask, Option.bind_some, hi]
      rfl
    · rw [ho]
      rfl
    · rw [output?, ChainLink.outputRef, htask, Option.bind_some, ho]
      rfl
    · rw [runCode, htask]

/-! ### Chains -/

theorem toOption_addChain (w : World σ ρ) (id : ChainId) (head : MemberId)
    (links : List ChainLink) : (w.addChain id head links).toOption =
      if links = [] ∨ head ∈ links.map ChainLink.member then none
      else
        let c : Chain := { number := w.chains.length, id, head, links }
        some (c, { w with chains := w.chains ++ [c] }) := by
  have hhead : (links.any fun l => l.member = head) = true ↔
      head ∈ links.map ChainLink.member := by
    simp [List.any_eq_true]
  rw [addChain, Chain.create]
  cases hempty : links.isEmpty with
  | true =>
    exact (if_pos (.inl (List.isEmpty_iff.mp hempty))).symm
  | false =>
    have hlinks : links ≠ [] := by
      rintro rfl
      cases hempty
    cases hany : links.any fun l => l.member = head with
    | true =>
      exact (if_pos (.inr (hhead.mp hany))).symm
    | false =>
      have hmem : head ∉ links.map ChainLink.member := fun hmem => by
        rw [hhead.mpr hmem] at hany
        cases hany
      exact (if_neg (not_or.mpr ⟨hlinks, hmem⟩)).symm

/-- Links that were made for some members take just these into a chain. -/
theorem enchains_of_forall₂ {members : List MemberId} {links : List ChainLink}
    (h : List.Forall₂ (fun member l => w.link? member = some l) members links) :
    links.map ChainLink.member = members ∧ ∀ l ∈ links, ∃ t, w.Enchains l t := by
  induction h with
  | nil => exact ⟨rfl, fun l hl => absurd hl List.not_mem_nil⟩
  | cons hl _ ih =>
    obtain ⟨hmember, henchains⟩ := enchains_of_link? hl
    exact ⟨by rw [List.map_cons, ih.1, hmember], List.forall_mem_cons.mpr ⟨henchains, ih.2⟩⟩

/-- How a chain is built once its head is found. -/
theorem buildChain?_cons {id : ChainId} {head : MemberId} {rest : List MemberId} {k : ℕ}
    {t : Task σ ρ} (h : w.registered? head = some (k, t)) : w.buildChain? id (head :: rest) =
      if t.outputs = [] then none
      else (rest.mapM w.link?).bind fun links =>
        if rest = [] ∨ head ∈ rest then none
        else
          let c : Chain := { number := w.chains.length, id, head, links }
          some ({ task := k, gate := 0 }, c, { w with chains := w.chains ++ [c] }) := by
  have hbuild : w.buildChain? id (head :: rest) =
      if t.outputs = [] then none
      else (rest.mapM w.link?).bind fun links =>
        (w.addChain id head links).toOption.bind fun built =>
          some ({ task := k, gate := 0 }, built.1, built.2) := by
    simp only [buildChain?, List.head?_cons, h, Option.bind_eq_bind, Option.bind_some,
      List.tail_cons]
    by_cases houtputs : t.outputs = []
    · simp [houtputs]
    · simp [houtputs]
  rw [hbuild]
  by_cases houtputs : t.outputs = []
  · rw [if_pos houtputs, if_pos houtputs]
  · rw [if_neg houtputs, if_neg houtputs]
    cases hlinks : rest.mapM w.link? with
    | none => rfl
    | some links =>
      have hmembers := (enchains_of_forall₂ (mapM_eq_some.mp hlinks)).1
      have hempty : links = [] ↔ rest = [] := by
        rw [← hmembers, List.map_eq_nil_iff]
      rw [Option.bind_some, Option.bind_some, toOption_addChain, hmembers]
      simp only [hempty]
      split_ifs
      · rfl
      · rfl

/-- **Why a chain is not built.** -/
theorem buildChain?_eq_none {id : ChainId} {members : List MemberId} :
    w.buildChain? id members = none ↔ members.length < 2 ∨
      ∃ head rest, members = head :: rest ∧ (w.registered? head = none ∨
        (∃ k t, w.registered? head = some (k, t) ∧ t.outputs = []) ∨
        (∃ member ∈ rest, w.link? member = none) ∨ head ∈ rest) := by
  cases members with
  | nil => exact iff_of_true rfl (.inl (Nat.succ_pos 1))
  | cons head rest =>
    have hlength : (head :: rest).length < 2 ↔ rest = [] := by
      cases rest <;> simp
    rw [hlength]
    cases hfound : w.registered? head with
    | none =>
      refine iff_of_true ?_ (.inr ⟨head, rest, rfl, .inl hfound⟩)
      rw [buildChain?, List.head?_cons, Option.bind_eq_bind, Option.bind_some, hfound]
      rfl
    | some found =>
      obtain ⟨k, t⟩ := found
      rw [buildChain?_cons hfound]
      by_cases houtputs : t.outputs = []
      · rw [if_pos houtputs]
        exact iff_of_true rfl (.inr ⟨head, rest, rfl, .inr (.inl ⟨k, t, hfound, houtputs⟩)⟩)
      · rw [if_neg houtputs]
        cases hlinks : rest.mapM w.link? with
        | none =>
          have hmissing := mapM_eq_none.mp hlinks
          exact iff_of_true rfl (.inr ⟨head, rest, rfl, .inr (.inr (.inl hmissing))⟩)
        | some links =>
          rw [Option.bind_some]
          by_cases hchain : rest = [] ∨ head ∈ rest
          · rw [if_pos hchain]
            refine iff_of_true rfl (hchain.imp_right fun hmem => ?_)
            exact ⟨head, rest, rfl, .inr (.inr (.inr hmem))⟩
          · -- the chain is built, so none of the reasons can hold
            rw [if_neg hchain]
            obtain ⟨hlong, hother⟩ := not_or.mp hchain
            refine iff_of_false (fun h => by cases h) ?_
            rintro (hshort | ⟨head', rest', hsame, hnone⟩)
            · exact hlong hshort
            · obtain ⟨rfl, rfl⟩ := List.cons_eq_cons.mp hsame
              rcases hnone with hnone | ⟨k', t', ht', hempty⟩ | hmissing | hmem
              · rw [hfound] at hnone
                cases hnone
              · rw [hfound] at ht'
                obtain ⟨rfl, rfl⟩ := Prod.mk.inj (Option.some.inj ht')
                exact houtputs hempty
              · rw [mapM_eq_none.mpr hmissing] at hlinks
                cases hlinks
              · exact hother hmem

/-- **What a chain is made of**: the registered tasks of its members, in their order. -/
theorem exists_of_buildChain? {id : ChainId} {members : List MemberId} {g : GateRef} {c : Chain}
    (h : w.buildChain? id members = some (g, c, w')) :
    ∃ head rest k t, members = head :: rest ∧ w.registered? head = some (k, t) ∧ t.outputs ≠ [] ∧
      g = { task := k, gate := 0 } ∧ c.members = head :: rest ∧
      (∀ l ∈ c.links, ∃ t, w.Enchains l t) ∧ w' = { w with chains := w.chains ++ [c] } := by
  cases members with
  | nil => cases h
  | cons head rest =>
    cases hfound : w.registered? head with
    | none =>
      have hnone : w.buildChain? id (head :: rest) = none :=
        buildChain?_eq_none.mpr (.inr ⟨head, rest, rfl, .inl hfound⟩)
      rw [hnone] at h
      cases h
    | some found =>
      obtain ⟨k, t⟩ := found
      have houtputs : t.outputs ≠ [] := fun hempty => by
        rw [buildChain?_cons hfound, if_pos hempty] at h
        cases h
      rw [buildChain?_cons hfound, if_neg houtputs] at h
      obtain ⟨links, hlinks, hbuilt⟩ := Option.bind_eq_some_iff.mp h
      split_ifs at hbuilt
      obtain ⟨rfl, hpair⟩ := Prod.mk.inj (Option.some.inj hbuilt)
      obtain ⟨rfl, rfl⟩ := Prod.mk.inj hpair
      obtain ⟨hmembers, henchains⟩ := enchains_of_forall₂ (mapM_eq_some.mp hlinks)
      exact ⟨head, rest, k, t, rfl, hfound, houtputs, rfl, congrArg (head :: ·) hmembers,
        henchains, rfl⟩

/-! ### Messages -/

/-- Why a message is skipped. -/
inductive Refuses (w : World σ ρ) (m : Message) : Prop
  /-- It is for another job. -/
  | foreignJob : m.job ≠ w.job → Refuses w m
  /-- It names a task that is not registered. -/
  | unknownTask {member : MemberId} :
    member ∈ m.action.members → w.registered? member = none → Refuses w m
  /-- The task does not have the gate that the message is for. -/
  | missingGate {member : MemberId} {gate : GateId} {k : ℕ} {t : Task σ ρ} :
    m.action.addressee? = some (member, gate) → w.registered? member = some (k, t) →
    (∀ output ∈ t.outputs, output.id ≠ gate) → Refuses w m
  /-- The head of the chain has no output gate. -/
  | missingHeadGate {head : MemberId} {rest : List MemberId} {k : ℕ} {t : Task σ ρ} :
    m.action = .establishChain (head :: rest) → w.registered? head = some (k, t) →
    t.outputs = [] → Refuses w m
  /-- A link of the chain lacks gates on one side. -/
  | missingLinkGate {head member : MemberId} {rest : List MemberId} {k : ℕ} {t : Task σ ρ} :
    m.action = .establishChain (head :: rest) → member ∈ rest →
    w.registered? member = some (k, t) → t.inputs = [] ∨ t.outputs = [] → Refuses w m
  /-- The chain has no links, or its head is one of them. -/
  | invalidChain {members : List MemberId} : m.action = .establishChain members →
    members.length < 2 ∨ (∃ head rest, members = head :: rest ∧ head ∈ rest) → Refuses w m

theorem refuses_iff_of_addressee {m : Message} {member : MemberId} {gate : GateId}
    (haddressee : m.action.addressee? = some (member, gate))
    (hmembers : m.action.members = [member]) :
    w.Refuses m ↔ m.job ≠ w.job ∨ w.findOutput? member gate = none := by
  have hgate : ∀ members, m.action ≠ .establishChain members := by
    intro members hchain
    rw [hchain] at haddressee
    cases haddressee
  rw [findOutput?_eq_none]
  constructor
  · intro h
    cases h with
    | foreignJob hjob => exact .inl hjob
    | unknownTask hmember hnone =>
      rw [hmembers, List.mem_singleton] at hmember
      exact .inr (.inl (hmember ▸ hnone))
    | missingGate haddressee' ht hall =>
      rw [haddressee] at haddressee'
      obtain ⟨rfl, rfl⟩ := Prod.mk.inj (Option.some.inj haddressee')
      exact .inr (.inr ⟨_, _, ht, hall⟩)
    | missingHeadGate hchain _ _ => exact absurd hchain (hgate _)
    | missingLinkGate hchain _ _ _ => exact absurd hchain (hgate _)
    | invalidChain hchain _ => exact absurd hchain (hgate _)
  · rintro (hjob | hnone | ⟨k, t, ht, hall⟩)
    · exact .foreignJob hjob
    · exact .unknownTask (by rw [hmembers]; exact List.mem_singleton_self member) hnone
    · exact .missingGate haddressee ht hall

theorem refuses_iff_of_chain {m : Message} {members : List MemberId} (id : ChainId)
    (haction : m.action = .establishChain members) :
    w.Refuses m ↔ m.job ≠ w.job ∨ w.buildChain? id members = none := by
  rw [buildChain?_eq_none]
  constructor
  · intro h
    cases h with
    | foreignJob hjob => exact .inl hjob
    | unknownTask hmember hnone =>
      rw [haction] at hmember
      cases members with
      | nil => exact absurd hmember List.not_mem_nil
      | cons head rest =>
        rcases List.mem_cons.mp hmember with rfl | hrest
        · exact .inr (.inr ⟨_, rest, rfl, .inl hnone⟩)
        · have hlink := link?_eq_none.mpr (.inl hnone)
          exact .inr (.inr ⟨head, rest, rfl, .inr (.inr (.inl ⟨_, hrest, hlink⟩))⟩)
    | missingGate haddressee _ _ =>
      rw [haction] at haddressee
      cases haddressee
    | missingHeadGate hchain ht hempty =>
      obtain rfl := Action.establishChain.inj (haction.symm.trans hchain)
      exact .inr (.inr ⟨_, _, rfl, .inr (.inl ⟨_, _, ht, hempty⟩)⟩)
    | missingLinkGate hchain hmember ht hempty =>
      obtain rfl := Action.establishChain.inj (haction.symm.trans hchain)
      have hlink := link?_eq_none.mpr (.inr ⟨_, _, ht, hempty⟩)
      exact .inr (.inr ⟨_, _, rfl, .inr (.inr (.inl ⟨_, hmember, hlink⟩))⟩)
    | invalidChain hchain hinvalid =>
      obtain rfl := Action.establishChain.inj (haction.symm.trans hchain)
      refine .inr (hinvalid.imp_right ?_)
      rintro ⟨head, rest, rfl, hmem⟩
      exact ⟨head, rest, rfl, .inr (.inr (.inr hmem))⟩
  · rintro (hjob | hshort | ⟨head, rest, rfl,
      hnone | ⟨k, t, ht, hempty⟩ | ⟨member, hmem, hlink⟩ | hmem⟩)
    · exact .foreignJob hjob
    · exact .invalidChain haction (.inl hshort)
    · have hmember : head ∈ m.action.members := by
        rw [haction]
        exact List.mem_cons_self
      exact .unknownTask hmember hnone
    · exact .missingHeadGate haction ht hempty
    · rcases link?_eq_none.mp hlink with hnone | ⟨k, t, ht, hempty⟩
      · have hmember : member ∈ m.action.members := by
          rw [haction]
          exact List.mem_cons_of_mem head hmem
        exact .unknownTask hmember hnone
      · exact .missingLinkGate haction hmem ht hempty
    · exact .invalidChain haction (.inr ⟨head, rest, rfl, hmem⟩)

/-- A message for another job goes nowhere. -/
theorem dispatch_of_foreign {m : Message} (h : m.job ≠ w.job) (id : ChainId) :
    w.dispatch id m = (.skipped, w) := if_pos h

theorem dispatch_of_addressee {m : Message} (hjob : m.job = w.job) {member : MemberId}
    {gate : GateId} (haddressee : m.action.addressee? = some (member, gate)) {a : GateAction}
    (ha : GateAction.ofAction? m.action = some a) (id : ChainId) :
    w.dispatch id m = w.enqueueAt member gate a := by
  rw [dispatch, if_neg (not_not.mpr hjob)]
  cases haction : m.action with
  | establishChain members =>
    rw [haction] at haddressee
    cases haddressee
  | limitBufferSize _ _ _ _ | setLifetimeTarget _ _ _ _ | dropChain _ _ =>
    rw [haction] at haddressee ha
    obtain ⟨rfl, rfl⟩ := Prod.mk.inj (Option.some.inj haddressee)
    obtain rfl := Option.some.inj ha
    rfl

theorem dispatch_of_chain {m : Message} (hjob : m.job = w.job) {members : List MemberId}
    (haction : m.action = .establishChain members) (id : ChainId) :
    w.dispatch id m = w.enqueueChain id members := by
  rw [dispatch, if_neg (not_not.mpr hjob), haction]

/-- Where a message is queued if it is for one gate. -/
def QueuesAction (w : World σ ρ) (m : Message) (g : GateRef) (a : GateAction) : Prop :=
  ∃ member gate t, m.action.addressee? = some (member, gate) ∧
    GateAction.ofAction? m.action = some a ∧ w.registered? member = some (g.task, t) ∧
    IsFirstOutput t gate g.gate

/-- Where a chain is queued that a message asks for, and what it is made of. -/
def QueuesChain (w : World σ ρ) (m : Message) (g : GateRef) (c : Chain) : Prop :=
  ∃ head rest t, m.action = .establishChain (head :: rest) ∧
    w.registered? head = some (g.task, t) ∧ g.gate = 0 ∧ t.outputs ≠ [] ∧
    c.members = head :: rest ∧ ∀ l ∈ c.links, ∃ t, w.Enchains l t

/-- **What becomes of a message**: it is refused and leaves no trace, or it is queued at a gate, or
its chain is. -/
theorem dispatch_cases (w : World σ ρ) (id : ChainId) (m : Message) :
    (w.Refuses m ∧ w.dispatch id m = (.skipped, w)) ∨
      (¬ w.Refuses m ∧ ∃ g a, w.QueuesAction m g a ∧
        w.dispatch id m = (.enqueued, w.enqueue g a)) ∨
      (¬ w.Refuses m ∧ ∃ g c, w.QueuesChain m g c ∧ w.dispatch id m = (.chainEnqueued c,
        { w with chains := w.chains ++ [c] }.enqueue g (.establishChain c))) := by
  by_cases hjob : m.job = w.job
  · rcases m.action.addressee_cases with
      ⟨member, gate, a, haddressee, hmembers, ha⟩ | ⟨members, haction⟩
    · rw [dispatch_of_addressee hjob haddressee ha, enqueueAt,
        refuses_iff_of_addressee haddressee hmembers]
      cases hfound : w.findOutput? member gate with
      | none => exact .inl ⟨.inr rfl, rfl⟩
      | some g =>
        obtain ⟨t, ht, hfirst⟩ := findOutput?_eq_some.mp hfound
        refine .inr (.inl ⟨?_, g, a, ⟨member, gate, t, haddressee, ha, ht, hfirst⟩, rfl⟩)
        exact not_or.mpr ⟨not_not.mpr hjob, fun h => by cases h⟩
    · rw [dispatch_of_chain hjob haction, enqueueChain, refuses_iff_of_chain id haction]
      cases hbuilt : w.buildChain? id members with
      | none => exact .inl ⟨.inr rfl, rfl⟩
      | some built =>
        obtain ⟨g, c, w'⟩ := built
        obtain ⟨head, rest, k, t, rfl, ht, houtputs, rfl, hmembers, hlinks, rfl⟩ :=
          exists_of_buildChain? hbuilt
        refine .inr (.inr ⟨?_, _, c, ⟨head, rest, t, haction, ht, rfl, houtputs, hmembers, hlinks⟩,
          rfl⟩)
        exact not_or.mpr ⟨not_not.mpr hjob, fun h => by cases h⟩
  · exact .inl ⟨.foreignJob hjob, dispatch_of_foreign hjob id⟩

/-- What is known of a chain that was dispatched. -/
theorem shape_of_dispatch {id : ChainId} {m : Message} {c : Chain}
    (h : (w.dispatch id m).1 = .chainEnqueued c) :
    ∃ head rest, m.action = .establishChain (head :: rest) ∧ c.members = head :: rest ∧
      c.links ≠ [] ∧ head ∉ rest ∧ ∀ l ∈ c.links, ∃ t, w.Enchains l t := by
  rcases w.dispatch_cases id m with ⟨-, heq⟩ | ⟨-, g, a, -, heq⟩ | ⟨hrefuses, g, c', hqueues, heq⟩
  · rw [heq] at h
    cases h
  · rw [heq] at h
    cases h
  · rw [heq] at h
    obtain rfl := Dispatched.chainEnqueued.inj h
    obtain ⟨head, rest, -, haction, -, -, -, hmembers, hlinks⟩ := hqueues
    have hrest : c'.links.map ChainLink.member = rest := (List.cons.inj hmembers).2
    refine ⟨head, rest, haction, hmembers, fun hempty => ?_, fun hmem => ?_, hlinks⟩
    · rw [hempty, List.map_nil] at hrest
      exact hrefuses (.invalidChain haction (.inl (by simp [← hrest])))
    · exact hrefuses (.invalidChain haction (.inr ⟨head, rest, rfl, hmem⟩))

/-! ### Queues -/

theorem queuedAt_enqueue_eq {g : GateRef} (hg : w.hasOutput g = true) (a : GateAction)
    (h : GateRef) : (w.enqueue g a).queuedAt h = w.queuedAt h ++ if h = g then [a] else [] := by
  by_cases hgh : h = g
  · subst hgh
    rw [queuedAt_enqueue hg, if_pos rfl]
  · rw [if_neg hgh, List.append_nil, queuedAt, enqueue, output?_modifyOutput,
      if_neg (Ne.symm hgh), queuedAt]

theorem QueuesAction.hasOutput {m : Message} {g : GateRef} {a : GateAction}
    (h : w.QueuesAction m g a) : w.hasOutput g = true := by
  obtain ⟨member, gate, t, -, -, ht, ⟨output, houtput, -⟩, -⟩ := h
  rw [World.hasOutput, output?, task?_of_registered ht, Option.bind_some, houtput]
  rfl

theorem QueuesChain.hasOutput {m : Message} {g : GateRef} {c : Chain} (h : w.QueuesChain m g c) :
    w.hasOutput g = true := by
  obtain ⟨head, rest, t, -, ht, hgate, houtputs, -⟩ := h
  obtain ⟨output, outputs, hcons⟩ := List.exists_cons_of_ne_nil houtputs
  rw [World.hasOutput, output?, task?_of_registered ht, hgate, Option.bind_some, hcons]
  rfl

/-- **Messages end up where they belong, or nowhere.**  Whatever registrations and withdrawals have
made of an empty register, and whatever a message says:

* a member is registered if its history says so, as the task of that name;
* a message that is skipped leaves no trace;
* a message that is enqueued adds just its action, at the end of the queue of the first gate that
  has its gate identifier, at the task that is registered as its member;
* a message whose chain is enqueued adds just this chain, at the end of the queue of the first
  output gate of the head's task; the chain has the members of the message, and its links are the
  registered tasks with their first gates and their user code;
* a message is skipped exactly if it is for another job, names an unknown task, needs a gate that
  is not there or asks for a chain that cannot be. -/
theorem dispatch_outcomes (w : World σ ρ) (ops : List RegisterOp) (id : ChainId) (m : Message) :
    let s := w.amended ops
    let answer := (s.dispatch id m).1
    let s' := (s.dispatch id m).2
    (∀ member k t, s.registered? member = some (k, t) ↔
      w.registrant ops member = some k ∧ w.task? k = some t ∧ t.id = member) ∧
    (answer = .skipped → s' = s) ∧
    (answer = .enqueued → ∃ g a, s.QueuesAction m g a ∧
      ∀ h, s'.queuedAt h = s.queuedAt h ++ if h = g then [a] else []) ∧
    (∀ c, answer = .chainEnqueued c → ∃ g, s.QueuesChain m g c ∧
      ∀ h, s'.queuedAt h = s.queuedAt h ++ if h = g then [.establishChain c] else []) ∧
    (answer = .skipped ↔ s.Refuses m) := by
  intro s
  refine ⟨fun member k t => registered?_amended, ?_⟩
  rcases s.dispatch_cases id m with
    ⟨hrefuses, heq⟩ | ⟨haccepts, g, a, hqueues, heq⟩ | ⟨haccepts, g, c, hqueues, heq⟩
  · rw [heq]
    exact ⟨fun _ => rfl, fun h => (by cases h), fun c h => (by cases h), iff_of_true rfl hrefuses⟩
  · rw [heq]
    refine ⟨fun h => (by cases h), fun _ => ⟨g, a, hqueues, ?_⟩, fun c h => (by cases h),
      iff_of_false (fun h => by cases h) haccepts⟩
    exact queuedAt_enqueue_eq hqueues.hasOutput a
  · rw [heq]
    refine ⟨fun h => (by cases h), fun h => (by cases h), fun c' h => ?_,
      iff_of_false (fun h => by cases h) haccepts⟩
    obtain rfl : c = c' := Dispatched.chainEnqueued.inj h
    refine ⟨g, hqueues, fun h => ?_⟩
    exact queuedAt_enqueue_eq (w := { s with chains := s.chains ++ [c] }) hqueues.hasOutput _ h

end World

end LatencyControl
