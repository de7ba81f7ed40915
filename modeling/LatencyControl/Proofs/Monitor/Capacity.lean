import LatencyControl.Proofs.Monitor.Interleaving
import LatencyControl.Proofs.Monitor.Reporting
import Mathlib.Data.List.DropRight

/-!
# How much a history remembers

A history keeps the measurements that were added last, as many as it has room for
(`History.entries_addAll`).  Nothing that a manager does looks further back than to the last one:
two models of one role that differ in the room of their histories give the same answers to all that
is done to them, and show the same (`Model.looksLike_of_capacity`).
-/

namespace LatencyControl

namespace History

variable {α : Type}

/-- Adds several measurements, one after the other. -/
def addAll (h : History α) (entries : List (Stamped α)) : History α :=
  entries.foldl (fun h entry => h.add entry.value entry.timestamp) h

theorem addAll_concat (h : History α) (entries : List (Stamped α)) (entry : Stamped α) :
    h.addAll (entries ++ [entry]) = (h.addAll entries).add entry.value entry.timestamp :=
  List.foldl_concat ..

theorem capacity_ofCapacity (capacity : ℕ) :
    (ofCapacity capacity : History α).capacity = max capacity 1 := rfl

theorem capacity_addAll (h : History α) (entries : List (Stamped α)) :
    (h.addAll entries).capacity = h.capacity :=
  List.foldlRecOn (motive := fun h' : History α => h'.capacity = h.capacity) _ _ rfl
    fun _ hcapacity _ _ => hcapacity

/-- A measurement that is added to the last `n + 1` of a list makes room for itself. -/
theorem entries_add_rtake (n : ℕ) (entries : List (Stamped α)) (entry : Stamped α) :
    (add { capacity := n + 1, entries := entries.rtake (n + 1) }
      entry.value entry.timestamp).entries = (entries ++ [entry]).rtake (n + 1) := by
  rw [List.rtake_concat_succ]
  by_cases hroom : entries.length ≤ n
  · -- nothing has been forgotten yet, and nothing is forgotten now
    have hall : ∀ k, n ≤ k → entries.rtake k = entries := fun k hk => by
      rw [List.rtake, Nat.sub_eq_zero_of_le (hroom.trans hk), List.drop_zero]
    simp only [add, isFull, hall n le_rfl, hall (n + 1) (Nat.le_succ n)]
    rw [if_neg (by simpa [Nat.lt_succ_iff] using hroom)]
  · -- the history is full, and its oldest measurement makes room
    have hlength : (entries.rtake (n + 1)).length = n + 1 := by
      rw [List.rtake, List.length_drop]
      omega
    have htail : (entries.rtake (n + 1)).tail = entries.rtake n := by
      rw [List.rtake, List.tail_drop, List.rtake]
      congr 1
      omega
    simp only [add, isFull, hlength, le_refl, decide_true, if_true, htail]

/-- **A history remembers what was added last**, oldest first, as much as it has room for. -/
theorem entries_addAll (capacity : ℕ) (entries : List (Stamped α)) :
    ((ofCapacity capacity).addAll entries).entries = entries.rtake (max capacity 1) := by
  induction entries using List.reverseRecOn with
  | nil => exact (List.rtake_nil _).symm
  | append_singleton entries entry ih =>
    obtain ⟨n, hn⟩ : ∃ n, max capacity 1 = n + 1 := ⟨max capacity 1 - 1, by omega⟩
    have hbefore : (ofCapacity capacity).addAll entries =
        { capacity := n + 1, entries := entries.rtake (n + 1) } := by
      rw [← hn, ← ih, ← capacity_ofCapacity, ← capacity_addAll (ofCapacity capacity) entries]
    rw [addAll_concat, hbefore, entries_add_rtake, hn]

example : ((ofCapacity 2).addAll [⟨10, 1⟩, ⟨20, 2⟩, ⟨30, 3⟩] : History ℕ).entries =
    [⟨20, 2⟩, ⟨30, 3⟩] := rfl

end History

namespace Model

variable {role : ManagerRole} {settings settings' : Settings} {deployed : Int} {m m' : Model}

/-- Models of one role accept the same. -/
theorem succeeds_eq_of_create (hm : create role settings deployed = .ok m)
    (hm' : create role settings' deployed = .ok m') (o : ModelOp) :
    o.succeeds m = o.succeeds m' := by
  obtain ⟨assigned, hassigned, -⟩ := create_eq_ok hm
  rw [Bool.eq_iff_iff, succeeds_iff, succeeds_iff]
  cases o with
  | sample s timestamp =>
    exact (expects_after_iff hm hassigned [] s).trans (expects_after_iff hm' hassigned [] s).symm
  | resize channel size now =>
    exact ((room_after hm hassigned []).2 channel).trans
      ((room_after hm' hassigned []).2 channel).symm

/-- Models of one role that were deployed with the same buffer size, and have been through the same
since, know the same of every slot: it is what their log says, and they have the same log. -/
theorem agreesOn_of_create (hm : create role settings deployed = .ok m)
    (hm' : create role settings' deployed = .ok m')
    (hsize : settings.initialBufferSize = settings'.initialBufferSize) (ops : List ModelOp)
    (slot : Slot) : (m.after ops).AgreesOn (m'.after ops) slot := by
  obtain ⟨assigned, hassigned, -⟩ := create_eq_ok hm
  have hnew := create_isNew hm hassigned
  have hnew' := create_isNew hm' hassigned
  have hrole : m.role = m'.role := (create_role hm).trans (create_role hm').symm
  have hlog : m.log ops = m'.log ops := by
    rw [log_eq_filter, log_eq_filter]
    exact List.filter_congr fun o _ => succeeds_eq_of_create hm hm' o
  cases slot with
  | between id gates =>
    rw [AgreesOn, hnew.lastBetween?_after, hnew'.lastBetween?_after, hrole, hlog]
  | on channel =>
    have hroom : ((m.after ops).channels.find? channel).isSome =
        ((m'.after ops).channels.find? channel).isSome := by
      rw [Bool.eq_iff_iff, (room_after hm hassigned ops).2, (room_after hm' hassigned ops).2]
    refine ⟨hroom, ?_, fun k => by rw [hnew.lastOn?_after, hnew'.lastOn?_after, hlog]⟩
    -- the size that a channel was deployed with stands in where it was never changed
    cases hfound : (m.after ops).channels.find? channel with
    | some d =>
      have hsome : ((m.after ops).channels.find? channel).isSome = true := by rw [hfound]; rfl
      rw [hnew.lastSize?_after ops hsome, hnew'.lastSize?_after ops (hroom ▸ hsome), hlog, hsize]
    | none =>
      rw [hfound] at hroom
      have hfound' : (m'.after ops).channels.find? channel = none :=
        Option.not_isSome_iff_eq_none.mp (by rw [← hroom]; exact Bool.false_ne_true)
      rw [lastSize?, lastSize?, hfound, hfound']

/-- **What a history forgets is of no account.**  A history remembers what was added last, as much
as it has room for.  Two models of one role, whose settings differ in this room only, are both
refused with the same error, or both created.  Then whatever is done to them, they give the same
answers to it, and show the same buffer sizes, paths, summaries and violations. -/
theorem looksLike_of_capacity (role : ManagerRole) (settings : Settings) (capacity capacity' : ℕ)
    (deployed : Int) :
    (∀ {α : Type} (entries : List (Stamped α)),
        ((History.ofCapacity capacity).addAll entries).entries = entries.rtake (max capacity 1)) ∧
      ((∃ e, create role { settings with historyCapacity := capacity } deployed = .error e ∧
          create role { settings with historyCapacity := capacity' } deployed = .error e) ∨
        ∃ m m', create role { settings with historyCapacity := capacity } deployed = .ok m ∧
          create role { settings with historyCapacity := capacity' } deployed = .ok m' ∧
          ∀ ops, m.answers ops = m'.answers ops ∧ (m.after ops).LooksLike (m'.after ops)) := by
  refine ⟨History.entries_addAll capacity, ?_⟩
  cases hassigned : role.assignments with
  | error e =>
    refine .inl ⟨e, ?_, ?_⟩
    · rw [create, hassigned]
      rfl
    · rw [create, hassigned]
      rfl
  | ok assigned =>
    have hcreate : ∀ s : Settings, ∃ m, create role s deployed = .ok m := fun s => by
      rw [create, hassigned]
      exact ⟨_, rfl⟩
    obtain ⟨m, hm⟩ := hcreate { settings with historyCapacity := capacity }
    obtain ⟨m', hm'⟩ := hcreate { settings with historyCapacity := capacity' }
    refine .inr ⟨m, m', hm, hm', fun ops => ⟨?_, ?_⟩⟩
    · rw [answers_eq_map, answers_eq_map]
      exact List.map_congr_left fun o _ => succeeds_eq_of_create hm hm' o
    · have hrole : (m.after ops).role = (m'.after ops).role := by
        rw [after_role, after_role, create_role hm, create_role hm']
      exact looksLike_of_agreesOn hrole fun slot => agreesOn_of_create hm hm' rfl ops slot

end Model

end LatencyControl
