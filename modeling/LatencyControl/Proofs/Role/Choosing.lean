import Mathlib.Data.Finset.Max
import Mathlib.Order.Nat
import Mathlib.Order.ConditionallyCompleteLattice.Basic
import Mathlib.Order.Lattice.Nat
import LatencyControl.Proofs.Role.Managing
import LatencyControl.Proofs.Topology.Stemming

/-!
# Which group becomes the anchor

Among the groups that a sequence touches, the widest ones run on the most hosts
(`Topology.IsWidest`), and the candidates are those of the widest ones at which an edge element has
the fewest channels (`Topology.IsCandidate`).  `Topology.selectAnchor_spec` says that the anchor is
the first candidate that is not in use, or the first one of all if all of them are in use, and that
there is an anchor unless the sequence is empty or has an edge element without a declared edge.

This holds of every topology that can be built (`Topology.IsBuilt`): it rests on an output gate
having one edge only, and on the groups of a constraint being there.
-/

namespace LatencyControl

/-! ### Lists and sets -/

/-- The elements with the greatest value. -/
theorem mem_filter_foldl_max {α : Type} {f : α → ℕ} {xs : List α} {x : α} :
    x ∈ xs.filter (fun y => f y = (xs.map f).foldl max 0) ↔ x ∈ xs ∧ ∀ y ∈ xs, f y ≤ f x := by
  rw [List.mem_filter, decide_eq_true_eq]
  refine and_congr_right fun hx => ?_
  obtain ⟨most, hmost⟩ : ∃ most, (xs.map f).max? = some most := by
    refine Option.ne_none_iff_exists'.mp fun hnone => ?_
    exact List.ne_nil_of_mem (List.mem_map_of_mem hx) (List.max?_eq_none_iff.mp hnone)
  rw [List.foldl_max, hmost, Option.getD_some, Nat.zero_max]
  obtain ⟨hmem, hle⟩ := List.max?_eq_some_iff.mp hmost
  constructor
  · exact fun heq y hy => heq ▸ hle (f y) (List.mem_map_of_mem hy)
  · intro hgreatest
    obtain ⟨y, hy, rfl⟩ := List.mem_map.mp hmem
    exact Nat.le_antisymm (hle (f x) (List.mem_map_of_mem hx)) (hgreatest y hy)

/-- A set that is made of a list has as many elements as the list has different ones. -/
theorem KeySet.size_ofList {κ : Type} [TableKey κ] [DecidableEq κ] (ks : List κ) :
    (KeySet.ofList ks).size = ks.toFinset.card :=
  Table.size_eq_card fun _ => KeySet.mem_ofList

/-- The first of the groups with a property, in the order of their identifiers. -/
def IsFirst (p : GroupId → Prop) (g : GroupId) : Prop := p g ∧ ∀ g', p g' → ¬ g' < g

/-- What is found in a list that is in order is the first of its kind. -/
theorem isFirst_of_find? {gs : List GroupId} (hgs : gs.Pairwise (· < ·)) {p : GroupId → Bool}
    {g : GroupId} (h : gs.find? p = some g) : IsFirst (fun g => g ∈ gs ∧ p g = true) g := by
  obtain ⟨hp, before, after, rfl, hbefore⟩ := List.find?_eq_some_iff_append.mp h
  refine ⟨⟨by simp, hp⟩, fun g' ⟨hmem, hp'⟩ hlt => ?_⟩
  rcases List.mem_append.mp hmem with hmem | hmem
  · have hnot := hbefore g' hmem
    rw [hp'] at hnot
    cases hnot
  · rcases List.mem_cons.mp hmem with rfl | hmem
    · exact Ident.lt_irrefl _ hlt
    · have hafter := (List.pairwise_cons.mp (List.pairwise_append.mp hgs).2.1).1 g' hmem
      exact Ident.lt_irrefl _ (Ident.lt_trans hlt hafter)

namespace Topology

/-! ### Topologies that can be built -/

/-- The topologies that can be built: those that were declared part by part, and those that such a
topology was split into. -/
inductive IsBuilt : Topology → Prop
  | empty : IsBuilt {}
  | declare {t t' : Topology} {d : Declaration} : IsBuilt t → t.declare d = .ok t' → IsBuilt t'
  | split {t t' : Topology} : IsBuilt t → t' ∈ t.splitByConstraint.map Prod.snd → IsBuilt t'

/-- All constraints run along groups that are there. -/
def KnowsTouched (t : Topology) : Prop :=
  ∀ id c, t.constraints.find? id = some c →
    ∀ g ∈ c.sequence.flatMap Element.touched, t.groups.contains g = true

variable {t t' : Topology}

theorem KnowsTouched.declare (h : t.KnowsTouched) {d : Declaration} (hd : t.declare d = .ok t') :
    t'.KnowsTouched := by
  cases d with
  | group id name =>
    obtain ⟨-, -, rfl⟩ := addGroup_eq_ok hd
    intro id' c hc g hg
    by_cases hid : id = g
    · rw [Table.contains, hid, Table.find?_insert_self]
      rfl
    · rw [Table.contains, Table.find?_insert_of_ne _ hid]
      exact h id' c hc g hg
  | member g id host =>
    obtain ⟨-, -, -, -, name, rfl⟩ := addMember_eq_ok hd
    exact h
  | edge e =>
    obtain ⟨-, -, -, rfl⟩ := connect_eq_ok_iff.mp hd
    exact h
  | constraint c =>
    obtain ⟨-, hknown, rfl⟩ := addConstraint_eq_ok hd
    intro id c' hc'
    by_cases hid : c.id = id
    · rw [hid, Table.find?_insert_self] at hc'
      obtain rfl := Option.some.inj hc'
      exact hknown
    · rw [Table.find?_insert_of_ne _ hid] at hc'
      exact h id c' hc'

/-- What is known of every topology that can be built. -/
theorem IsBuilt.invariant (h : t.IsBuilt) : t.IsGrounded ∧ t.KnowsTouched := by
  induction h with
  | empty => exact ⟨IsGrounded.empty, fun id c hc => by cases hc⟩
  | @declare t t' d _ hd ih =>
    refine ⟨?_, ih.2.declare hd⟩
    cases d with
    | group id name => exact ih.1.addGroup hd
    | member g id host => exact ih.1.addMember hd
    | edge e => exact ih.1.connect hd
    | constraint c => exact ih.1.addConstraint hd
  | @split t t' _ ht' ih =>
    obtain ⟨entry, hentry, rfl⟩ := List.mem_map.mp ht'
    obtain ⟨⟨id, c⟩, hc, rfl⟩ := List.mem_map.mp hentry
    obtain ⟨hgrounded, hknown⟩ := ih
    refine ⟨⟨hgrounded.groups, hgrounded.sources, hgrounded.targets, hgrounded.edges⟩, ?_⟩
    intro id' c' hc'
    by_cases hid : id = id'
    · rw [hid, Table.find?_insert_self] at hc'
      obtain rfl := Option.some.inj hc'
      exact hknown id c (t.constraints.mem_entries_iff.mp hc)
    · rw [Table.find?_insert_of_ne _ hid] at hc'
      cases hc'

/-! ### Hosts -/

/-- How many different hosts run members of a group. -/
def spread (t : Topology) (g : GroupId) : ℕ := ((t.membersOf g).map Member.host).toFinset.card

theorem hostCount_eq_ok {g : GroupId} (hg : t.groups.contains g = true) :
    t.hostCount g = .ok (t.spread g) := by
  rw [hostCount, membersOfGroup_eq_ok.mpr ⟨hg, rfl⟩]
  exact congrArg Except.ok (KeySet.size_ofList _)

/-- The sequence touches the group, and no group that it touches runs on more hosts. -/
def IsWidest (t : Topology) (s : Sequence) (g : GroupId) : Prop :=
  g ∈ s.flatMap Element.touched ∧ ∀ g' ∈ s.flatMap Element.touched, t.spread g' ≤ t.spread g

/-- The groups of a sequence that run on the most hosts, in order. -/
theorem onMostHosts_touched {s : Sequence}
    (hs : ∀ g ∈ s.flatMap Element.touched, t.groups.contains g = true) :
    ∃ widest, t.onMostHosts s.touched.toList = .ok widest ∧ widest.Pairwise (· < ·) ∧
      ∀ g, g ∈ widest ↔ t.IsWidest s g := by
  have hcounts : s.touched.toList.mapM (fun g => do return (g, ← t.hostCount g))
      = .ok (s.touched.toList.map fun g => (g, t.spread g)) :=
    mapM_eq_ok_map fun g hg => by
      rw [hostCount_eq_ok (hs g (KeySet.mem_ofList.mp hg))]
      rfl
  refine ⟨s.touched.toList.filter fun g =>
    t.spread g = (s.touched.toList.map t.spread).foldl max 0, ?_, ?_, fun g => ?_⟩
  · rw [onMostHosts, hcounts]
    refine congrArg Except.ok ?_
    rw [List.map_map, List.filter_map, List.map_map]
    exact List.map_id _
  · exact (Table.keys_ascending s.touched).filter _
  · rw [mem_filter_foldl_max]
    simp only [Sequence.touched, KeySet.mem_ofList]
    rfl

/-! ### Channels -/

/-- The declared edge at the output gate of a link makes so many channels between the groups of the
link. -/
def HasChannels (t : Topology) (l : Link) (n : ℕ) : Prop :=
  ∃ e ∈ t.edges, e.link.source = l.source ∧ e.link.outputGate = l.outputGate ∧
    n = e.pattern.channelCount (t.membersOf l.source).length (t.membersOf l.target).length

/-- An edge element of the sequence starts or ends at the group, and has so many channels. -/
def HasEdge (t : Topology) (s : Sequence) (g : GroupId) (n : ℕ) : Prop :=
  ∃ l sampling, .edge l sampling ∈ s ∧ (l.source = g ∨ l.target = g) ∧ t.HasChannels l n

/-- An edge element of the sequence leaves its source through an output gate that has no edge. -/
def IsUnconnected (t : Topology) (s : Sequence) : Prop :=
  ∃ l sampling, .edge l sampling ∈ s ∧
    ∀ e ∈ t.edges, ¬ (e.link.source = l.source ∧ e.link.outputGate = l.outputGate)

/-- The channels of one edge element. -/
def channelsAlong (t : Topology) (l : Link) : Except Error (Link × ℕ) := do
  let sources ← t.membersOfGroup l.source
  let targets ← t.membersOfGroup l.target
  match (t.forward l.source).find? l.outputGate with
  | some e => return (l, e.pattern.channelCount sources.length targets.length)
  | none => throw (.unknownGroupOutput l.outputGate l.source)

theorem channelsAlong_eq_ok_iff (ht : t.IsGrounded) {l : Link}
    (hsource : t.groups.contains l.source = true) (htarget : t.groups.contains l.target = true)
    {p : Link × ℕ} : t.channelsAlong l = .ok p ↔ p.1 = l ∧ t.HasChannels l p.2 := by
  obtain ⟨l', n⟩ := p
  simp only [channelsAlong, membersOfGroup_eq_ok.mpr ⟨hsource, rfl⟩,
    membersOfGroup_eq_ok.mpr ⟨htarget, rfl⟩, bind, Except.bind]
  cases hedge : (t.forward l.source).find? l.outputGate with
  | some e =>
    obtain ⟨he, hsame⟩ := ht.find?_forward.mp hedge
    constructor
    · intro h
      obtain ⟨rfl, rfl⟩ := Prod.mk.inj (Except.ok.inj h)
      exact ⟨rfl, e, he, hsame.1, hsame.2, rfl⟩
    · rintro ⟨rfl, e', he', hsource', hgate', rfl⟩
      have hedge' := ht.find?_forward.mpr ⟨he', hsource', hgate'⟩
      obtain rfl : e = e' := Option.some.inj (hedge.symm.trans hedge')
      rfl
  | none =>
    constructor
    · intro h
      cases h
    · rintro ⟨-, e, he, hsource', hgate', -⟩
      rw [ht.find?_forward.mpr ⟨he, hsource', hgate'⟩] at hedge
      cases hedge

/-- The links of the edge elements. -/
def links (s : Sequence) : List Link :=
  s.filterMap fun
    | .edge l _ => some l
    | .vertex .. => none

theorem mem_links {s : Sequence} {l : Link} : l ∈ links s ↔ ∃ sampling, .edge l sampling ∈ s := by
  rw [links, List.mem_filterMap]
  constructor
  · rintro ⟨e, he, hl⟩
    cases e with
    | vertex => cases hl
    | edge l' sampling =>
      obtain rfl := Option.some.inj hl
      exact ⟨sampling, he⟩
  · rintro ⟨sampling, he⟩
    exact ⟨_, he, rfl⟩

/-- The channels can be counted exactly if all edge elements are connected. -/
theorem channelCounts_spec (ht : t.IsGrounded) {s : Sequence}
    (hs : ∀ g ∈ s.flatMap Element.touched, t.groups.contains g = true) :
    ((∃ counts, t.channelCounts s = .ok counts) ↔ ¬ t.IsUnconnected s) ∧
      ∀ counts, t.channelCounts s = .ok counts → ∀ l n,
        (l, n) ∈ counts ↔ (∃ sampling, .edge l sampling ∈ s) ∧ t.HasChannels l n := by
  have halong : ∀ l ∈ links s, ∀ p, t.channelsAlong l = .ok p ↔ p.1 = l ∧ t.HasChannels l p.2 := by
    intro l hl p
    obtain ⟨sampling, he⟩ := mem_links.mp hl
    have htouched : ∀ g ∈ Element.touched (.edge l sampling), t.groups.contains g = true :=
      fun g hg => hs g (List.mem_flatMap.mpr ⟨_, he, hg⟩)
    exact channelsAlong_eq_ok_iff ht (htouched l.source List.mem_cons_self)
      (htouched l.target (List.mem_cons_of_mem _ (List.mem_singleton_self _)))
  have hcounts : t.channelCounts s = (links s).mapM t.channelsAlong := rfl
  rw [hcounts]
  refine ⟨⟨?_, fun hconnected => ?_⟩, fun counts h l n => ⟨fun hmem => ?_, ?_⟩⟩
  · rintro ⟨counts, h⟩ ⟨l, sampling, he, hnone⟩
    have hl := mem_links.mpr ⟨sampling, he⟩
    obtain ⟨p, -, hp⟩ := exists_result (mapM_eq_ok.mp h) hl
    obtain ⟨-, e, he, hsource, hgate, -⟩ := (halong l hl p).mp hp
    exact hnone e he ⟨hsource, hgate⟩
  · refine exists_mapM_eq_ok fun l hl => ?_
    by_contra hfails
    obtain ⟨sampling, he⟩ := mem_links.mp hl
    refine hconnected ⟨l, sampling, he, fun e hedge hsame => hfails ?_⟩
    exact ⟨(l, _), (halong l hl _).mpr ⟨rfl, e, hedge, hsame.1, hsame.2, rfl⟩⟩
  · obtain ⟨l', hl', hp⟩ := exists_item (mapM_eq_ok.mp h) hmem
    obtain ⟨rfl, hchannels⟩ := (halong l' hl' _).mp hp
    exact ⟨mem_links.mp hl', hchannels⟩
  · rintro ⟨he, hchannels⟩
    have hl := mem_links.mpr he
    obtain ⟨p, hmem, hp⟩ := exists_result (mapM_eq_ok.mp h) hl
    have hself := (halong l hl (l, n)).mpr ⟨rfl, hchannels⟩
    obtain rfl : p = (l, n) := Except.ok.inj (hp.symm.trans hself)
    exact hmem

/-! ### Candidates -/

/-- The group is one of the widest, and its cheapest edge element has as few channels as that of any
other, if any of the widest groups has an edge element. -/
def IsCandidate (t : Topology) (s : Sequence) (g : GroupId) : Prop :=
  t.IsWidest s g ∧
    ((∃ n, IsLeast {n | t.HasEdge s g n} n ∧
        ∀ g' n', t.IsWidest s g' → IsLeast {n | t.HasEdge s g' n} n' → n ≤ n') ∨
      ∀ g' n, t.IsWidest s g' → ¬ t.HasEdge s g' n)

/-- The fewest channels of an edge element at a group. -/
theorem fewestChannels?_eq_some_iff {s : Sequence} {counts : List (Link × ℕ)}
    (hcounts : ∀ l n, (l, n) ∈ counts ↔ (∃ sampling, .edge l sampling ∈ s) ∧ t.HasChannels l n)
    {g : GroupId} {n : ℕ} :
    fewestChannels? counts g = some n ↔ IsLeast {n | t.HasEdge s g n} n := by
  have hmem : ∀ n, n ∈ (counts.filter (fun c => c.1.source = g ∨ c.1.target = g)).map Prod.snd ↔
      t.HasEdge s g n := by
    intro n
    simp only [List.mem_map, List.mem_filter, decide_eq_true_eq, Prod.exists, exists_eq_right,
      hcounts]
    constructor
    · rintro ⟨l, ⟨⟨sampling, he⟩, hchannels⟩, hend⟩
      exact ⟨l, sampling, he, hend, hchannels⟩
    · rintro ⟨l, sampling, he, hend, hchannels⟩
      exact ⟨l, ⟨⟨sampling, he⟩, hchannels⟩, hend⟩
  rw [fewestChannels?, List.min?_eq_some_iff, hmem]
  exact and_congr_right fun _ => forall_congr' fun n' => imp_congr_left (hmem n')

theorem exists_isLeast_of_mem {counts : Set ℕ} {n : ℕ} (h : n ∈ counts) :
    ∃ least, IsLeast counts least :=
  ⟨sInf counts, Nat.sInf_mem ⟨n, h⟩, fun _ => Nat.sInf_le⟩

/-- The candidates among the widest groups, in the same order. -/
theorem atFewestChannels_spec (ht : t.IsGrounded) {s : Sequence}
    (hs : ∀ g ∈ s.flatMap Element.touched, t.groups.contains g = true) {widest : List GroupId}
    (hwidest : ∀ g, g ∈ widest ↔ t.IsWidest s g) :
    ((∃ found, t.atFewestChannels s widest = .ok found) ↔ ¬ t.IsUnconnected s) ∧
      ∀ found, t.atFewestChannels s widest = .ok found →
        found.Sublist widest ∧ ∀ g, g ∈ found ↔ t.IsCandidate s g := by
  obtain ⟨hsucceeds, hcounts⟩ := channelCounts_spec ht hs
  refine ⟨?_, fun found h => ?_⟩
  · rw [← hsucceeds]
    constructor
    · rintro ⟨found, h⟩
      obtain ⟨counts, h, -⟩ := bind_eq_ok.mp h
      exact ⟨counts, h⟩
    · rintro ⟨counts, h⟩
      cases hleast : (widest.filterMap (fewestChannels? counts)).min? with
      | none => exact ⟨widest, bind_eq_ok.mpr ⟨counts, h, by rw [hleast]; rfl⟩⟩
      | some least => exact ⟨_, bind_eq_ok.mpr ⟨counts, h, by rw [hleast]; rfl⟩⟩
  · obtain ⟨counts, hc, h⟩ := bind_eq_ok.mp h
    have hfewest : ∀ {g n}, fewestChannels? counts g = some n ↔
        IsLeast {n | t.HasEdge s g n} n := fewestChannels?_eq_some_iff (hcounts counts hc)
    split at h
    · next hnone =>
      obtain rfl := Except.ok.inj h
      have hedgeless : ∀ g n, t.IsWidest s g → ¬ t.HasEdge s g n := by
        intro g n hg hn
        obtain ⟨least, hleast⟩ := exists_isLeast_of_mem (show n ∈ {n | t.HasEdge s g n} from hn)
        have hmem := List.mem_filterMap.mpr ⟨g, (hwidest g).mpr hg, hfewest.mpr hleast⟩
        rw [List.min?_eq_none_iff.mp hnone] at hmem
        exact List.not_mem_nil hmem
      exact ⟨List.Sublist.refl _, fun g =>
        (hwidest g).trans ⟨fun hg => ⟨hg, .inr hedgeless⟩, And.left⟩⟩
    · next least hleast =>
      obtain rfl := Except.ok.inj h
      obtain ⟨hmem, hle⟩ := List.min?_eq_some_iff.mp hleast
      obtain ⟨g₀, hg₀, hcheapest⟩ := List.mem_filterMap.mp hmem
      refine ⟨List.filter_sublist, fun g => ?_⟩
      rw [List.mem_filter, decide_eq_true_eq, hfewest, hwidest]
      refine and_congr_right fun hg => ⟨fun hn => .inl ⟨least, hn, fun g' n' hg' hn' => ?_⟩, ?_⟩
      · exact hle n' (List.mem_filterMap.mpr ⟨g', (hwidest g').mpr hg', hfewest.mpr hn'⟩)
      · rintro (⟨n, hn, hall⟩ | hedgeless)
        · have hleast : least ≤ n :=
            hle n (List.mem_filterMap.mpr ⟨g, (hwidest g).mpr hg, hfewest.mpr hn⟩)
          obtain rfl : n = least :=
            Nat.le_antisymm (hall g₀ least ((hwidest g₀).mp hg₀) (hfewest.mp hcheapest)) hleast
          exact hn
        · exact absurd (hfewest.mp hcheapest).1 (hedgeless g₀ least ((hwidest g₀).mp hg₀))

theorem exists_mem_touched (e : Element) : ∃ g, g ∈ e.touched := by
  cases e with
  | vertex g => exact ⟨g, List.mem_singleton_self g⟩
  | edge l => exact ⟨l.source, List.mem_cons_self⟩

/-- A sequence that is not empty has a candidate. -/
theorem exists_isCandidate {s : Sequence} (hs : s ≠ []) : ∃ g, t.IsCandidate s g := by
  obtain ⟨e, he⟩ := List.exists_mem_of_ne_nil _ hs
  obtain ⟨first, hfirst⟩ := exists_mem_touched e
  have htouched : (s.flatMap Element.touched).toFinset.Nonempty :=
    ⟨first, List.mem_toFinset.mpr (List.mem_flatMap.mpr ⟨e, he, hfirst⟩)⟩
  obtain ⟨g, hg, hmost⟩ := Finset.exists_max_image _ t.spread htouched
  have hwidest : t.IsWidest s g :=
    ⟨List.mem_toFinset.mp hg, fun g' hg' => hmost g' (List.mem_toFinset.mpr hg')⟩
  by_cases hedges : ∃ n g', t.IsWidest s g' ∧ t.HasEdge s g' n
  · -- a widest group with the least number of channels at any widest group
    obtain ⟨n, hn⟩ := hedges
    obtain ⟨least, ⟨g', hg', hedge⟩, hle⟩ := exists_isLeast_of_mem
      (show n ∈ {n | ∃ g', t.IsWidest s g' ∧ t.HasEdge s g' n} from hn)
    exact ⟨g', hg', .inl ⟨least, ⟨hedge, fun m hm => hle ⟨g', hg', hm⟩⟩,
      fun g'' m hg'' hm => hle ⟨g'', hg'', hm.1⟩⟩⟩
  · exact ⟨g, hwidest, .inr fun g' n hg' hn => hedges ⟨n, g', hg', hn⟩⟩

theorem not_isCandidate_nil (g : GroupId) : ¬ t.IsCandidate [] g := fun h =>
  List.not_mem_nil h.1.1

/-! ### The choice -/

/-- The group is the first candidate that is not in use, or else the first of all candidates. -/
def IsAnchorFor (t : Topology) (s : Sequence) (used : KeySet GroupId) (g : GroupId) : Prop :=
  IsFirst (fun g => t.IsCandidate s g ∧ g ∉ used.toList) g ∨
    (∀ g', t.IsCandidate s g' → g' ∈ used.toList) ∧ IsFirst (t.IsCandidate s) g

theorem IsAnchorFor.isCandidate {s : Sequence} {used : KeySet GroupId} {g : GroupId}
    (h : t.IsAnchorFor s used g) : t.IsCandidate s g :=
  h.elim (fun hfree => hfree.1.1) fun hall => hall.2.1

theorem not_contains_iff {used : KeySet GroupId} {g : GroupId} :
    (!used.contains g) = true ↔ g ∉ used.toList := by
  rw [Bool.not_eq_true', ← Bool.not_eq_true, Table.contains, Option.isSome_iff_exists,
    KeySet.toList, Table.mem_keys_iff]

/-- What is picked from the candidates in order. -/
theorem pickAnchor_spec {s : Sequence} {candidates : List GroupId}
    (hsorted : candidates.Pairwise (· < ·))
    (hcandidates : ∀ g, g ∈ candidates ↔ t.IsCandidate s g) (used : KeySet GroupId) :
    (pickAnchor candidates used = none ∧ ∀ g, ¬ t.IsCandidate s g) ∨
      ∃ g, pickAnchor candidates used = some (g, used.add g) ∧ t.IsAnchorFor s used g := by
  unfold pickAnchor
  cases hfree : candidates.find? (fun g => !used.contains g) with
  | some g =>
    refine .inr ⟨g, rfl, .inl ?_⟩
    have hfirst := isFirst_of_find? hsorted hfree
    simpa only [not_contains_iff, hcandidates] using hfirst
  | none =>
    cases candidates with
    | nil => exact .inl ⟨rfl, fun g hg => List.not_mem_nil ((hcandidates g).mpr hg)⟩
    | cons g rest =>
      refine .inr ⟨g, rfl, .inr ⟨fun g' hg' => ?_, ?_⟩⟩
      · have hused := List.find?_eq_none.mp hfree g' ((hcandidates g').mpr hg')
        rwa [not_contains_iff, not_not] at hused
      · have hfirst := isFirst_of_find? hsorted (p := fun _ => true) (List.find?_cons_of_pos rfl)
        simpa [hcandidates] using hfirst

/-- Picks a candidate, with the anchors in use as a state. -/
def pickFrom (candidates : List GroupId) (id : ConstraintId) :
    ExceptT Error (StateM (KeySet GroupId)) GroupId := do
  match pickAnchor candidates (← get) with
  | some (g, used) =>
    set used
    return g
  | none => throw (.emptySequence id)

/-- The choice of an anchor, with the anchors in use as a state. -/
def chooseAnchor (t : Topology) : ExceptT Error (StateM (KeySet GroupId)) GroupId := do
  let c ← t.singleConstraint
  let candidates ← t.onMostHosts c.sequence.touched.toList
  let candidates ← t.atFewestChannels c.sequence candidates
  pickFrom candidates c.id

theorem run_pickFrom (candidates : List GroupId) (id : ConstraintId) (used : KeySet GroupId) :
    (pickFrom candidates id).run.run used = match pickAnchor candidates used with
      | some (g, used') => (.ok g, used')
      | none => (.error (.emptySequence id), used) := by
  change StateT.run (ExceptT.run (match pickAnchor candidates used with
    | some (g, used) => set used >>= fun _ => pure g
    | none => throw (Error.emptySequence id))) used = _
  cases pickAnchor candidates used with
  | none => rfl
  | some p => rfl

theorem run_lift_bind {ε σ α β : Type} (x : Except ε α) (f : α → ExceptT ε (StateM σ) β) (s : σ) :
    (liftM x >>= f).run.run s = match x with
      | .ok a => (f a).run.run s
      | .error e => (.error e, s) := by
  cases x with
  | ok a => rfl
  | error e => rfl

/-- Only a successful choice changes the anchors in use. -/
theorem run_chooseAnchor (t : Topology) (used : KeySet GroupId) :
    t.chooseAnchor.run.run used = match t.selectAnchor used with
      | .ok (g, used') => (.ok g, used')
      | .error e => (.error e, used) := by
  unfold chooseAnchor selectAnchor
  rw [run_lift_bind]
  cases t.singleConstraint with
  | error e => rfl
  | ok c =>
    dsimp only
    rw [run_lift_bind]
    cases hwidest : t.onMostHosts c.sequence.touched.toList with
    | error e => simp only [hwidest, bind, Except.bind]
    | ok widest =>
      dsimp only
      rw [run_lift_bind]
      cases hfound : t.atFewestChannels c.sequence widest with
      | error e => simp only [hwidest, hfound, bind, Except.bind]
      | ok found =>
        dsimp only
        rw [run_pickFrom]
        simp only [hwidest, hfound, bind, Except.bind]
        cases pickAnchor found used with
        | none => rfl
        | some p => rfl

end Topology

/-- The topology of a job can be built. -/
theorem Job.topology_isBuilt {job : Job} {t : Topology} (h : job.topology = .ok t) : t.IsBuilt :=
  Job.topology_induction .empty
    (fun {_ _ id name} ht hadd => .declare (d := .group id name) ht hadd)
    (fun {_ _ g id host} ht hadd => .declare (d := .member g id host) ht hadd)
    (fun {_ _ e} ht hconnect => .declare (d := .edge e) ht hconnect)
    (fun {_ _ c} ht hadd => .declare (d := .constraint c) ht hadd) h

namespace Topology

variable {t : Topology} {c : Constraint}

/-- **Which group becomes the anchor.**  In a topology with a single constraint, the choice of an
anchor fails exactly if the sequence is empty or has an edge element without a declared edge, and
then the anchors in use stay the same.  Otherwise the anchor is the first candidate that is not in
use, or else the first of all candidates, and is in use from then on. -/
theorem selectAnchor_spec (h : t.IsBuilt) (hc : t.singleConstraint = .ok c)
    (used : KeySet GroupId) :
    ((c.sequence = [] ∨ t.IsUnconnected c.sequence) ∧
      ∃ e, t.selectAnchor used = .error e ∧ t.chooseAnchor.run.run used = (.error e, used)) ∨
    (¬ (c.sequence = [] ∨ t.IsUnconnected c.sequence) ∧
      ∃ g, t.selectAnchor used = .ok (g, used.add g) ∧
        t.chooseAnchor.run.run used = (.ok g, used.add g) ∧ t.IsAnchorFor c.sequence used g) := by
  obtain ⟨hgrounded, hknown⟩ := h.invariant
  have htouched : ∀ g ∈ c.sequence.flatMap Element.touched, t.groups.contains g = true := by
    have hvalue : c ∈ t.constraints.values := by
      unfold singleConstraint at hc
      split at hc
      · next c' hvalues =>
        obtain rfl := Except.ok.inj hc
        rw [hvalues]
        exact List.mem_singleton_self _
      · cases hc
    obtain ⟨id, hid⟩ := t.constraints.mem_values_iff.mp hvalue
    exact hknown id c hid
  obtain ⟨widest, hwidest, hascending, hmem⟩ := onMostHosts_touched htouched
  obtain ⟨hsucceeds, hfound⟩ := atFewestChannels_spec hgrounded htouched hmem
  rw [run_chooseAnchor, selectAnchor, hc]
  simp only [bind, Except.bind, hwidest]
  by_cases hconnected : t.IsUnconnected c.sequence
  · cases hcounts : t.atFewestChannels c.sequence widest with
    | ok found => exact absurd hconnected (hsucceeds.mp ⟨found, hcounts⟩)
    | error e => exact .inl ⟨.inr hconnected, e, rfl, rfl⟩
  · obtain ⟨found, hcounts⟩ := hsucceeds.mpr hconnected
    obtain ⟨hsublist, hcandidates⟩ := hfound found hcounts
    rw [hcounts]
    rcases pickAnchor_spec (hascending.sublist hsublist) hcandidates used with
      ⟨hnone, hempty⟩ | ⟨g, hg, hanchor⟩
    · have hnil : c.sequence = [] := by
        by_contra hne
        obtain ⟨g, hg⟩ := exists_isCandidate (t := t) hne
        exact hempty g hg
      refine .inl ⟨.inl hnil, .emptySequence c.id, ?_⟩
      simp only [hnone]
      exact ⟨rfl, rfl⟩
    · refine .inr ⟨?_, g, ?_⟩
      · rintro (hnil | hunconnected)
        · exact not_isCandidate_nil g (hnil ▸ hanchor.isCandidate)
        · exact hconnected hunconnected
      · simp only [hg]
        exact ⟨rfl, rfl, hanchor⟩

/-- A job with three groups on the same two hosts.  There are fewer channels from the second group
to the third than from the first to the second. -/
def tiedJob : Job where
  id := ⟨"job"⟩
  groups := ["A", "B", "C"].map fun g =>
    { id := ⟨g⟩, name := g
      members := [{ id := ⟨g ++ "0"⟩, host := ⟨"h"⟩ }, { id := ⟨g ++ "1"⟩, host := ⟨"k"⟩ }] }
  edges :=
    [{ link := { source := ⟨"A"⟩, outputGate := 0, target := ⟨"B"⟩, inputGate := 0 }
       pattern := .bipartite },
      { link := { source := ⟨"B"⟩, outputGate := 0, target := ⟨"C"⟩, inputGate := 0 }
        pattern := .pointwise }]
  constraints :=
    [{ id := ⟨"c"⟩, name := "c", bound := 10
       sequence :=
         [.edge { source := ⟨"A"⟩, outputGate := 0, target := ⟨"B"⟩, inputGate := 0 } .readWrite,
           .vertex ⟨"B"⟩ (some 0) (some 0) .readWrite,
           .edge { source := ⟨"B"⟩, outputGate := 0, target := ⟨"C"⟩, inputGate := 0 }
             .readWrite] }]

/-- With the second group in use, the third one is the anchor. -/
theorem selectAnchor_spec_tiedJob :
    ∃ t c, tiedJob.topology = .ok t ∧ t.IsBuilt ∧ t.singleConstraint = .ok c ∧
      t.selectAnchor (KeySet.ofList [⟨"B"⟩]) = .ok (⟨"C"⟩, (KeySet.ofList [⟨"B"⟩]).add ⟨"C"⟩) ∧
      t.IsAnchorFor c.sequence (KeySet.ofList [⟨"B"⟩]) ⟨"C"⟩ := by
  have hchosen : (tiedJob.topology.toOption.bind fun t =>
      t.singleConstraint.toOption.bind fun _ =>
        (t.selectAnchor (KeySet.ofList [⟨"B"⟩])).toOption.map Prod.fst) = some ⟨"C"⟩ := by
    decide +kernel
  obtain ⟨t, ht, hchosen⟩ := Option.bind_eq_some_iff.mp hchosen
  obtain ⟨c, hc, hchosen⟩ := Option.bind_eq_some_iff.mp hchosen
  obtain ⟨⟨g, used⟩, hg, rfl⟩ := Option.map_eq_some_iff.mp hchosen
  have ht := eq_ok_of_toOption ht
  have hc := eq_ok_of_toOption hc
  have hg := eq_ok_of_toOption hg
  have hbuilt := Job.topology_isBuilt ht
  rcases selectAnchor_spec hbuilt hc (KeySet.ofList [⟨"B"⟩]) with
    ⟨-, e, hfails, -⟩ | ⟨-, g', hg', -, hanchor⟩
  · rw [hg] at hfails
    cases hfails
  · obtain ⟨rfl, rfl⟩ := Prod.mk.inj (Except.ok.inj (hg.symm.trans hg'))
    exact ⟨t, c, ht, hbuilt, hc, hg, hanchor⟩

end Topology

end LatencyControl
