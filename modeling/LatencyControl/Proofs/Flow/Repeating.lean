import LatencyControl.Proofs.Flow.Dispatching
import LatencyControl.Proofs.Flow.Passing
import Mathlib.Data.List.Nodup

/-!
# Members that a chain has twice

A chain never has its head among its links.  Nothing else keeps a message from naming a member
twice, and then the chain has two links for one task.  `World.passes_of_dispatch` says what this
comes to: a record that the head writes passes through the task of each member as often as the
message names the member behind the head, so that it passes through every task once exactly if the
members of the chain are distinct.

This rests on the register: it has one task for each member, and different ones for different
members (`World.task_eq_iff`), so that links repeat a task exactly where they repeat a member.
-/

namespace LatencyControl

variable {σ ρ : Type}

namespace World

variable {w : World σ ρ}

/-! ### Tasks on the way through a chain -/

/-- How often records are given to the task with an index on their way. -/
def turns (legs : List (Leg σ ρ)) (k : ℕ) : ℕ := legs.countP fun leg => leg.link.task = k

/-- Records pass through every link once. -/
theorem map_link_legs (w : World σ ρ) (links : List ChainLink) (records : List ρ) :
    (w.legs links records).map Leg.link = links := by
  induction links generalizing w records with
  | nil => rfl
  | cons l rest ih => exact congrArg (l :: ·) (ih _ _)

theorem turns_legs (w : World σ ρ) (links : List ChainLink) (records : List ρ) (k : ℕ) :
    turns (w.legs links records) k = links.countP fun l => l.task = k := by
  have hlinks := congrArg (List.countP fun l => l.task = k) (w.map_link_legs links records)
  rwa [List.countP_map] at hlinks

/-! ### Tasks and members -/

variable {ops : List RegisterOp}

/-- A link is the task that stands for its member. -/
theorem registrant_of_enchains {l : ChainLink} {t : Task σ ρ}
    (h : (w.amended ops).Enchains l t) : w.registrant ops l.member = some l.task :=
  (registered?_amended.mp h.registered).1

/-- No task stands for two members. -/
theorem task_eq_iff {member member' : MemberId} {k k' : ℕ} (h : w.registrant ops member = some k)
    (h' : w.registrant ops member' = some k') : k = k' ↔ member = member' := by
  constructor
  · rintro rfl
    obtain ⟨t, ht, hid⟩ := exists_task_of_registrant h
    obtain ⟨t', ht', hid'⟩ := exists_task_of_registrant h'
    obtain rfl : t = t' := Option.some.inj (ht.symm.trans ht')
    exact hid.symm.trans hid'
  · rintro rfl
    exact Option.some.inj (h.symm.trans h')

/-- Links repeat the task of a member exactly where they repeat the member. -/
theorem countP_task_eq_count {links : List ChainLink}
    (hlinks : ∀ l ∈ links, ∃ t, (w.amended ops).Enchains l t) {member : MemberId} {k : ℕ}
    (h : w.registrant ops member = some k) :
    links.countP (fun l => l.task = k) = (links.map ChainLink.member).count member := by
  rw [List.count, List.countP_map]
  refine List.countP_congr fun l hl => ?_
  obtain ⟨t, ht⟩ := hlinks l hl
  simpa using task_eq_iff (registrant_of_enchains ht) h

/-- The tasks of distinct members get records once, and only those do. -/
theorem nodup_iff_turns {links : List ChainLink}
    (hlinks : ∀ l ∈ links, ∃ t, (w.amended ops).Enchains l t) (u : World σ ρ) (records : List ρ) :
    (links.map ChainLink.member).Nodup ↔
      ∀ leg ∈ u.legs links records, turns (u.legs links records) leg.link.task = 1 := by
  -- a task gets records as often as its member is among the links
  have hturns : ∀ l ∈ links, turns (u.legs links records) l.task
      = (links.map ChainLink.member).count l.member := by
    intro l hl
    obtain ⟨t, ht⟩ := hlinks l hl
    rw [turns_legs, countP_task_eq_count hlinks (registrant_of_enchains ht)]
  rw [List.nodup_iff_count_eq_one, List.forall_mem_map]
  constructor
  · intro hcount leg hleg
    have hlink : leg.link ∈ links := u.map_link_legs links records ▸ List.mem_map_of_mem hleg
    rw [hturns leg.link hlink]
    exact hcount leg.link hlink
  · intro hcount l hl
    obtain ⟨leg, hleg, rfl⟩ := List.mem_map.mp ((u.map_link_legs links records).symm ▸ hl)
    rw [← hturns leg.link hl]
    exact hcount leg hleg

/-! ### Dispatched chains -/

/-- **Members that a chain has twice.**  A chain that a message asks for has the members of the
message, and its head is not among its links.  A record that the head writes passes through the task
of each member as often as the message names the member behind the head.  So it passes through each
task once exactly if the members of the chain are distinct. -/
theorem passes_of_dispatch {id : ChainId} {m : Message} {c : Chain}
    (h : ((w.amended ops).dispatch id m).1 = .chainEnqueued c) :
    ∃ head rest, m.action = .establishChain (head :: rest) ∧ c.members = head :: rest ∧
      head ∉ rest ∧ (c.members.Nodup ↔ rest.Nodup) ∧
      ∀ (write : GateRef → ρ → Flow σ ρ Unit) (u : World σ ρ) (record : ρ), ∃ passed tail,
        u.legs c.links [record] = passed ++ [tail] ∧
        (Flow.writeFrom write c 0 record).run.run u
          = (tail.made.forM (write tail.link.outputRef)).run.run
            ((u.afterwards c.links [record]).tell
              (passed.flatMap (fun leg => leg.heard ++ leg.uttered) ++ tail.heard)) ∧
        (∀ member k, w.registrant ops member = some k →
          turns (passed ++ [tail]) k = rest.count member) ∧
        (c.members.Nodup ↔ ∀ leg ∈ passed ++ [tail], turns (passed ++ [tail]) leg.link.task = 1) := by
  obtain ⟨head, rest, haction, hmembers, hne, hhead, hlinks⟩ := shape_of_dispatch h
  have hrest : c.links.map ChainLink.member = rest := (List.cons.inj hmembers).2
  have hnodup : c.members.Nodup ↔ rest.Nodup := by
    rw [hmembers, List.nodup_cons]
    exact and_iff_right hhead
  refine ⟨head, rest, haction, hmembers, hhead, hnodup, fun write u record => ?_⟩
  obtain ⟨passed, tail, hlegs, -, hrun⟩ := Flow.run_passAlong (w := u) write hne [record]
  refine ⟨passed, tail, hlegs, ?_, fun member k hk => ?_, ?_⟩
  · rw [Flow.writeFrom, if_pos (List.length_pos_iff.mpr hne), List.drop_zero, hrun]
  · rw [← hlegs, turns_legs, countP_task_eq_count hlinks hk, hrest]
  · rw [hnodup, ← hlegs, ← hrest, nodup_iff_turns hlinks u [record]]

/-- The line with all of its tasks registered. -/
def lineOps : List RegisterOp := [.register 0, .register 1, .register 2]

/-- A message that names the second task of the line twice. -/
def twiceSummed : Message :=
  { job := ⟨"job"⟩, action := .establishChain [⟨"head"⟩, ⟨"sum"⟩, ⟨"double"⟩, ⟨"sum"⟩] }

/-- The chain that comes of it. -/
def twiceSumming : Chain where
  number := 0
  id := ⟨"chain"⟩
  head := ⟨"head"⟩
  links := [⟨⟨"sum"⟩, 1, 0, 0⟩, ⟨⟨"double"⟩, 2, 0, 0⟩, ⟨⟨"sum"⟩, 1, 0, 0⟩]

theorem dispatch_twiceSummed :
    ((summingLine.amended lineOps).dispatch ⟨"chain"⟩ twiceSummed).1
      = .chainEnqueued twiceSumming := by decide +kernel

theorem passes_of_dispatch_twiceSummed :
    ((summingLine.amended lineOps).dispatch ⟨"chain"⟩ twiceSummed).1 = .chainEnqueued twiceSumming ∧
      ∃ passed tail, summingLine.legs twiceSumming.links [5] = passed ++ [tail] ∧
        turns (passed ++ [tail]) 1 = 2 ∧ turns (passed ++ [tail]) 2 = 1 := by
  obtain ⟨head, rest, haction, -, -, -, hpass⟩ := passes_of_dispatch dispatch_twiceSummed
  obtain ⟨rfl, rfl⟩ := List.cons.inj (Action.establishChain.inj haction)
  obtain ⟨passed, tail, hlegs, -, hturns, -⟩ := hpass (fun _ _ => pure ()) summingLine 5
  refine ⟨dispatch_twiceSummed, passed, tail, hlegs, ?_, ?_⟩
  · exact hturns ⟨"sum"⟩ 1 (by decide +kernel)
  · exact hturns ⟨"double"⟩ 2 (by decide +kernel)

/-- Members of a dispatched chain need not be distinct. -/
theorem exists_repeated_member : ¬∀ (w : World ℕ ℕ) (ops : List RegisterOp) (id : ChainId)
    (m : Message) (c : Chain), ((w.amended ops).dispatch id m).1 = .chainEnqueued c →
      c.members.Nodup := by
  intro hall
  have hnodup := hall summingLine lineOps ⟨"chain"⟩ twiceSummed twiceSumming dispatch_twiceSummed
  exact absurd hnodup (by decide)

end World

end LatencyControl
