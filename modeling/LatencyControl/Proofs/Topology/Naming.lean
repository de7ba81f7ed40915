import LatencyControl.Proofs.Topology.Declared

/-!
# Names of wires

The name of a wire is put together from the identifiers of the members at its ends and the numbers
of their gates.  A member may be called anything, so its identifier can look like a piece of such a
name, and then one name can be read in two ways: `a[0]->b[0]->c[0]` leads from `a` to `b[0]->c`, or
from `a[0]->b` to `c`.

This is the only way in which two wires can share a name: there are two arrows in it, and each wire
has one of them for its own (`Wire.sourceChannel_eq_iff`).  So a name denotes its wire unless the
topology has another one that the name can be read as (`Topology.denotes_iff`), and there is none if
the description of the job calls its members plainly (`Job.IsPlain.denotes`).
-/

namespace LatencyControl

/-! ### Texts with separators -/

/-- The first separator of a text splits it in one way only. -/
theorem append_separator_inj {α : Type} {a : α} {us vs xs ys : List α} (hus : a ∉ us) (hvs : a ∉ vs)
    (h : us ++ a :: xs = vs ++ a :: ys) : us = vs ∧ xs = ys := by
  -- if one of the beginnings were longer, it would have the separator of the other in it
  rcases List.append_eq_append_iff.mp h with ⟨ws, rfl, hrest⟩ | ⟨ws, rfl, hrest⟩
  · cases ws with
    | nil => simpa using hrest
    | cons w ws =>
      obtain rfl := (List.cons.inj hrest).1
      exact absurd (List.mem_append_right us List.mem_cons_self) hvs
  · cases ws with
    | nil => simpa [eq_comm] using hrest
    | cons w ws =>
      obtain rfl := (List.cons.inj hrest).1
      exact absurd (List.mem_append_right vs List.mem_cons_self) hus

/-- The last separator of a text splits it in one way only. -/
theorem separator_append_inj {α : Type} {a : α} {us vs xs ys : List α} (hxs : a ∉ xs) (hys : a ∉ ys)
    (h : us ++ a :: xs = vs ++ a :: ys) : us = vs ∧ xs = ys := by
  have hreverse : xs.reverse ++ a :: us.reverse = ys.reverse ++ a :: vs.reverse := by
    simpa using congrArg List.reverse h
  obtain ⟨hright, hleft⟩ := append_separator_inj (by simpa using hxs) (by simpa using hys) hreverse
  exact ⟨List.reverse_injective hleft, List.reverse_injective hright⟩

/-! ### Numbers -/

theorem repr_injective : Function.Injective Nat.repr := by
  intro i j h
  have hdigits : i.repr.toList = j.repr.toList := congrArg String.toList h
  rw [Nat.toList_repr, Nat.toList_repr] at hdigits
  rw [← Nat.ofDigitChars_ten_toDigits (n := i), hdigits, Nat.ofDigitChars_ten_toDigits]

/-- Numbers are written in digits only. -/
theorem notMem_repr {c : Char} (hc : c.isDigit = false) (n : ℕ) : c ∉ n.repr.toList := by
  rw [Nat.toList_repr]
  intro hmem
  rw [Nat.isDigit_of_mem_toDigits (by decide) (by decide) hmem] at hc
  cases hc

namespace Wire

/-! ### Pieces of names -/

/-- What stands in a name between the source of a wire and its target. -/
def arrow (gate : ℕ) : String := s!"[{gate}]->"

theorem toList_arrow (gate : ℕ) :
    (arrow gate).toList = '[' :: (gate.repr.toList ++ [']', '-', '>']) := by
  simp [arrow, ToString.toString]

/-- A name is the source, the arrow, the target and the number of the input gate. -/
theorem toList_sourceChannel (w : Wire) : w.sourceChannel.text.toList =
    w.source.text.toList ++ ((arrow w.outputGate).toList ++ w.target.text.toList) ++
      '[' :: (w.inputGate.repr.toList ++ [']']) := by
  simp [sourceChannel, arrow, ToString.toString]

/-- An arrow has a bracket at its start only. -/
theorem eq_nil_of_arrow_eq {gate : ℕ} {us vs : List Char}
    (h : (arrow gate).toList = us ++ '[' :: vs) : us = [] := by
  cases us with
  | nil => rfl
  | cons u us =>
    rw [toList_arrow] at h
    have hmem : '[' ∈ gate.repr.toList ++ [']', '-', '>'] := by
      rw [(List.cons.inj h).2]
      exact List.mem_append_right us List.mem_cons_self
    rcases List.mem_append.mp hmem with hdigit | hend
    · exact absurd hdigit (notMem_repr (by decide) gate)
    · simp at hend

/-- An arrow says which gate it is from. -/
theorem arrow_append_inj {gate gate' : ℕ} {us vs : List Char}
    (h : (arrow gate).toList ++ us = (arrow gate').toList ++ vs) : gate = gate' ∧ us = vs := by
  simp only [toList_arrow, List.cons_append, List.append_assoc, List.nil_append,
    List.cons.injEq, true_and] at h
  obtain ⟨hgate, hrest⟩ :=
    append_separator_inj (notMem_repr (by decide) gate) (notMem_repr (by decide) gate') h
  exact ⟨repr_injective (String.toList_injective hgate), by simpa using hrest⟩

/-- If a text starts with an arrow and has another one at some place, either the two are the same or
the second is behind the first. -/
theorem arrow_cases {gate gate' : ℕ} {us vs before : List Char}
    (h : (arrow gate).toList ++ us = before ++ ((arrow gate').toList ++ vs)) :
    (before = [] ∧ gate = gate' ∧ us = vs) ∨
      ∃ between, before = (arrow gate).toList ++ between ∧
        us = between ++ ((arrow gate').toList ++ vs) := by
  rcases List.append_eq_append_iff.mp h with ⟨between, hbefore, hus⟩ | ⟨rest, harrow, hrest⟩
  · exact .inr ⟨between, hbefore, hus⟩
  · cases rest with
    | nil => exact .inr ⟨[], by simpa using harrow.symm, hrest.symm⟩
    | cons c rest =>
      -- the second arrow would start within the first
      rw [toList_arrow, List.cons_append] at hrest
      obtain rfl := (List.cons.inj hrest).1
      obtain rfl := eq_nil_of_arrow_eq harrow
      exact .inl ⟨rfl, arrow_append_inj h⟩

/-! ### Wires of one name -/

/-- The name of one wire can be read as that of the other: the source of the other has the first
arrow of the name in it, and so the target of the one has the second. -/
def Nests (w w' : Wire) : Prop :=
  w.inputGate = w'.inputGate ∧ ∃ between : String,
    w'.source.text = w.source.text ++ (arrow w.outputGate ++ between) ∧
    w.target.text = between ++ (arrow w'.outputGate ++ w'.target.text)

variable {w w' : Wire}

theorem Nests.sourceChannel_eq (h : w.Nests w') : w.sourceChannel = w'.sourceChannel := by
  obtain ⟨hinput, between, hsource, htarget⟩ := h
  refine congrArg Ident.mk (String.toList_injective ?_)
  show w.sourceChannel.text.toList = w'.sourceChannel.text.toList
  simp only [toList_sourceChannel, hinput, hsource, htarget, String.toList_append,
    List.append_assoc]

/-- Wires of one name have neither end in common. -/
theorem Nests.ends_ne (h : w.Nests w') : w.source ≠ w'.source ∧ w.target ≠ w'.target := by
  obtain ⟨-, between, hsource, htarget⟩ := h
  have harrow : ∀ gate, 0 < (arrow gate).length := fun gate => by
    rw [← String.length_toList, toList_arrow]
    exact Nat.succ_pos _
  -- each of the two ends is longer than its counterpart by an arrow at least
  have hout := harrow w.outputGate
  have hout' := harrow w'.outputGate
  have hlength := congrArg String.length hsource
  have hlength' := congrArg String.length htarget
  simp only [String.length_append] at hlength hlength'
  constructor
  · intro hsame
    rw [hsame] at hlength
    omega
  · intro hsame
    rw [hsame] at hlength'
    omega

/-- The case of two wires of one name in which the second has the longer source. -/
theorem eq_or_nests {us : List Char} (hinput : w.inputGate = w'.inputGate)
    (hsource : w'.source.text.toList = w.source.text.toList ++ us)
    (hrest : (arrow w.outputGate).toList ++ w.target.text.toList =
      us ++ ((arrow w'.outputGate).toList ++ w'.target.text.toList)) : w = w' ∨ w.Nests w' := by
  rcases arrow_cases hrest with ⟨rfl, houtput, htarget⟩ | ⟨between, rfl, htarget⟩
  · -- both wires have the same arrow for their own
    left
    rw [List.append_nil] at hsource
    obtain ⟨⟨source⟩, output, ⟨target⟩, input⟩ := w
    obtain ⟨⟨source'⟩, output', ⟨target'⟩, input'⟩ := w'
    obtain rfl : source' = source := String.toList_injective hsource
    obtain rfl : target = target' := String.toList_injective htarget
    obtain rfl : output = output' := houtput
    obtain rfl : input = input' := hinput
    rfl
  · refine .inr ⟨hinput, String.ofList between, String.toList_injective ?_,
      String.toList_injective ?_⟩
    · simpa using hsource
    · simpa using htarget

/-- **When wires share a name.**  Two wires have the same name if they are the same, or the name of
one of them can be read as that of the other. -/
theorem sourceChannel_eq_iff :
    w.sourceChannel = w'.sourceChannel ↔ w = w' ∨ w.Nests w' ∨ w'.Nests w := by
  constructor
  · intro h
    have htext := congrArg (fun channel => channel.text.toList) h
    simp only [toList_sourceChannel] at htext
    -- the last bracket of the name is that of the input gate
    obtain ⟨hends, hdigits⟩ := separator_append_inj
      (by simpa using notMem_repr (by decide) w.inputGate)
      (by simpa using notMem_repr (by decide) w'.inputGate) htext
    have hinput : w.inputGate = w'.inputGate :=
      repr_injective (String.toList_injective (by simpa using hdigits))
    rcases List.append_eq_append_iff.mp hends with ⟨us, hsource, hrest⟩ | ⟨us, hsource, hrest⟩
    · rcases eq_or_nests hinput hsource hrest with hsame | hnests
      · exact .inl hsame
      · exact .inr (.inl hnests)
    · rcases eq_or_nests hinput.symm hsource hrest with hsame | hnests
      · exact .inl hsame.symm
      · exact .inr (.inr hnests)
  · rintro (rfl | h | h)
    · rfl
    · exact h.sourceChannel_eq
    · exact h.sourceChannel_eq.symm

/-- The wires of one member have different names, and so have those to one member. -/
theorem eq_of_sourceChannel_eq (h : w.sourceChannel = w'.sourceChannel)
    (hends : w.source = w'.source ∨ w.target = w'.target) : w = w' := by
  rcases sourceChannel_eq_iff.mp h with hsame | hnests | hnests
  · exact hsame
  · obtain ⟨hsource, htarget⟩ := hnests.ends_ne
    exact (hends.elim hsource htarget).elim
  · obtain ⟨hsource, htarget⟩ := hnests.ends_ne
    exact (hends.elim (fun h => hsource h.symm) fun h => htarget h.symm).elim

end Wire

/-! ### What a name denotes -/

namespace Topology

/-- A name denotes a wire: the wire is found under it, and no other has it. -/
structure Denotes (t : Topology) (channel : ChannelId) (w : Wire) : Prop where
  found : t.wire? channel = some w
  only : t.wires.filter (fun w' => w'.sourceChannel = channel) = [w]

variable {t : Topology} {w : Wire}

theorem Denotes.eq_of_mem {channel : ChannelId} (h : t.Denotes channel w) {w' : Wire}
    (hw' : w' ∈ t.wires) (hname : w'.sourceChannel = channel) : w' = w := by
  have hmem : w' ∈ t.wires.filter (fun w' => w'.sourceChannel = channel) :=
    List.mem_filter.mpr ⟨hw', decide_eq_true hname⟩
  rw [h.only] at hmem
  exact List.mem_singleton.mp hmem

/-- The name of a wire denotes it if no other wire has the same name. -/
theorem denotes_of_only (hwires : t.wires.Nodup) (hw : w ∈ t.wires)
    (honly : ∀ w' ∈ t.wires, w'.sourceChannel = w.sourceChannel → w' = w) :
    t.Denotes w.sourceChannel w := by
  have hfilter : t.wires.filter (fun w' => w'.sourceChannel = w.sourceChannel) = [w] := by
    have hsame : ∀ w' ∈ t.wires, decide (w'.sourceChannel = w.sourceChannel) = (w' == w) := by
      intro w' hw'
      rw [Bool.eq_iff_iff, decide_eq_true_eq, beq_iff_eq]
      exact ⟨honly w' hw', fun h => h ▸ rfl⟩
    rw [List.filter_congr hsame, List.filter_beq, List.count_eq_one_of_mem hwires hw]
    rfl
  exact ⟨by rw [wire?, hfilter]; rfl, hfilter⟩

/-- **What the name of a wire denotes.**  It denotes the wire unless there is another one that the
name can be read as. -/
theorem denotes_iff (hwires : t.wires.Nodup) (hw : w ∈ t.wires) :
    t.Denotes w.sourceChannel w ↔ ∀ w' ∈ t.wires, ¬ w.Nests w' ∧ ¬ w'.Nests w := by
  constructor
  · intro h w' hw'
    constructor
    · intro hnests
      obtain rfl := h.eq_of_mem hw' hnests.sourceChannel_eq.symm
      exact hnests.ends_ne.1 rfl
    · intro hnests
      obtain rfl := h.eq_of_mem hw' hnests.sourceChannel_eq
      exact hnests.ends_ne.1 rfl
  · intro h
    refine denotes_of_only hwires hw fun w' hw' hname => ?_
    rcases Wire.sourceChannel_eq_iff.mp hname with hsame | hnests | hnests
    · exact hsame
    · exact absurd hnests (h w' hw').2
    · exact absurd hnests (h w' hw').1

/-- Names denote their wires if the identifiers of members have no arrows. -/
theorem denotes_of_plain (hsound : t.IsSound)
    (hplain : ∀ m ∈ t.members, ¬ ['-', '>'] <:+: m.id.text.toList) (hw : w ∈ t.wires) :
    t.Denotes w.sourceChannel w := by
  have hnests : ∀ w₁ ∈ t.wires, ∀ w₂ : Wire, ¬ w₂.Nests w₁ := by
    rintro w₁ hw₁ w₂ ⟨-, between, hsource, -⟩
    obtain ⟨-, -, -, m, hm, hid, -⟩ := hsound.origins w₁ hw₁
    refine hplain m hm ⟨w₂.source.text.toList ++ '[' :: (w₂.outputGate.repr.toList ++ [']']),
      between.toList, ?_⟩
    simp [hid, hsource, Wire.toList_arrow]
  exact (denotes_iff hsound.wires hw).mpr fun w' hw' => ⟨hnests w' hw' w, hnests w hw w'⟩

end Topology

/-! ### Jobs -/

namespace Job

variable {job : Job} {t : Topology}

/-- The description lists all members of a topology. -/
def Lists (job : Job) (t : Topology) : Prop :=
  ∀ m ∈ t.members, ∃ g ∈ job.groups, ∃ entry ∈ g.members, entry.id = m.id

theorem Lists.declareGroup (h : job.Lists t) {g : GroupEntry} (hg : g ∈ job.groups)
    {t' : Topology} (hdeclare : declareGroup t g = .ok t') : job.Lists t' := by
  obtain ⟨t₁, hadd, hmembers⟩ := bind_eq_ok.mp hdeclare
  have h₁ : job.Lists t₁ := by
    obtain ⟨-, -, rfl⟩ := Topology.addGroup_eq_ok hadd
    exact h
  refine foldlM_preserves job.Lists (fun t t' entry hentry ht hadd => ?_) h₁ hmembers
  obtain ⟨-, -, -, -, name, rfl⟩ := Topology.addMember_eq_ok hadd
  intro m hm
  rcases List.mem_append.mp hm with hm | hm
  · exact ht m hm
  · obtain rfl := List.mem_singleton.mp hm
    exact ⟨g, hg, entry, hentry, rfl⟩

/-- The topology of a job has no members but those that the description lists. -/
theorem topology_lists (h : job.topology = .ok t) : job.Lists t := by
  obtain ⟨t₁, hgroups, h⟩ := bind_eq_ok.mp h
  obtain ⟨t₂, hedges, hconstraints⟩ := bind_eq_ok.mp h
  have h₁ : job.Lists t₁ := foldlM_preserves job.Lists
    (fun _ _ _ hg ht hdeclare => ht.declareGroup hg hdeclare)
    (fun _ hm => (List.not_mem_nil hm).elim) hgroups
  have h₂ : job.Lists t₂ := by
    refine foldlM_preserves job.Lists (fun t t' e _ ht hconnect => ?_) h₁ hedges
    obtain ⟨-, -, -, hmembers, -⟩ := Topology.connect_eq_ok hconnect
    intro m hm
    rw [hmembers] at hm
    obtain ⟨m₀, hm₀, rfl⟩ := List.mem_map.mp hm
    rw [(Topology.foldl_openGates _ m₀).1]
    exact ht m₀ hm₀
  refine foldlM_preserves job.Lists (fun t t' c _ ht hadd => ?_) h₂ hconstraints
  obtain ⟨-, -, rfl⟩ := Topology.addConstraint_eq_ok hadd
  exact ht

/-- No member that the description lists has an arrow in its identifier. -/
def IsPlain (job : Job) : Prop :=
  ∀ g ∈ job.groups, ∀ entry ∈ g.members, ¬ ['-', '>'] <:+: entry.id.text.toList

instance (job : Job) : Decidable job.IsPlain :=
  inferInstanceAs (Decidable (∀ g ∈ job.groups, ∀ entry ∈ g.members,
    ¬ ['-', '>'] <:+: entry.id.text.toList))

theorem IsPlain.denotes (hplain : job.IsPlain) (h : job.topology = .ok t) {w : Wire}
    (hw : w ∈ t.wires) : t.Denotes w.sourceChannel w := by
  refine Topology.denotes_of_plain (topology_isSound h) (fun m hm => ?_) hw
  obtain ⟨g, hg, entry, hentry, hid⟩ := topology_lists h m hm
  exact hid ▸ hplain g hg entry hentry

end Job

end LatencyControl
