import LatencyControl.Table
import Mathlib.Data.Finset.Card
import Mathlib.Data.List.Basic
import Mathlib.Data.List.Nodup

/-!
# Tables as lists of entries

A table is looked at by key (`Table.find?`) or entry by entry.  `Table.mem_entries_iff` connects the
two views.  A table that is made of a list has the last value that the list gives for a key
(`Table.find?_ofList`), and a set that is made of a list has its elements (`KeySet.mem_ofList`).
`IsLastFor` says which item of a list this is, and `Table.find?_ofList_map_iff` that it is found.
-/

namespace LatencyControl

/-! ### Last items -/

/-- An item is the last one of a list that has a given key. -/
def IsLastFor {α κ : Type} (key : α → κ) (xs : List α) (k : κ) (x : α) : Prop :=
  ∃ earlier later, xs = earlier ++ x :: later ∧ key x = k ∧ ∀ y ∈ later, key y ≠ k

section

variable {α κ : Type} [DecidableEq κ] {key : α → κ} {xs : List α} {k : κ} {x y : α}

/-- The last item is the first one that is found from the end of the list. -/
theorem find?_reverse_eq_some_iff :
    xs.reverse.find? (fun y => key y = k) = some x ↔ IsLastFor key xs k x := by
  rw [List.find?_eq_some_iff_append]
  constructor
  · rintro ⟨hkey, behind, before, hsplit, hbehind⟩
    refine ⟨before.reverse, behind.reverse, ?_, of_decide_eq_true hkey, fun y hy => ?_⟩
    · rw [← List.reverse_reverse xs, hsplit]
      simp
    · simpa using hbehind y (List.mem_reverse.mp hy)
  · rintro ⟨earlier, later, rfl, hkey, hlater⟩
    refine ⟨decide_eq_true hkey, later.reverse, earlier.reverse, by simp, fun y hy => ?_⟩
    simpa using hlater y (List.mem_reverse.mp hy)

omit [DecidableEq κ] in
theorem IsLastFor.mem (h : IsLastFor key xs k x) : x ∈ xs := by
  obtain ⟨earlier, later, rfl, -, -⟩ := h
  exact List.mem_append_right earlier List.mem_cons_self

/-- There is only one last item. -/
theorem IsLastFor.unique (hx : IsLastFor key xs k x) (hy : IsLastFor key xs k y) : x = y :=
  Option.some.inj ((find?_reverse_eq_some_iff.mpr hx).symm.trans (find?_reverse_eq_some_iff.mpr hy))

omit [DecidableEq κ] in
/-- If the keys differ, every item is the last one with its key. -/
theorem isLastFor_of_nodup (hkeys : (xs.map key).Nodup) (hx : x ∈ xs) :
    IsLastFor key xs (key x) x := by
  obtain ⟨earlier, later, rfl⟩ := List.append_of_mem hx
  refine ⟨earlier, later, rfl, rfl, fun y hy hsame => ?_⟩
  rw [List.map_append, List.map_cons] at hkeys
  have hnew := (List.nodup_cons.mp (List.nodup_append.mp hkeys).2.1).1
  exact hnew (hsame ▸ List.mem_map_of_mem hy)

/-- If every item of a list is the last one with its key, the keys differ. -/
theorem nodup_map_of_isLastFor (hxs : xs.Nodup) (hlast : ∀ x ∈ xs, IsLastFor key xs (key x) x) :
    (xs.map key).Nodup := by
  refine hxs.map_on fun x hx y hy hsame => ?_
  have hx' : IsLastFor key xs (key y) x := hsame ▸ hlast x hx
  exact hx'.unique (hlast y hy)

end

namespace Table

variable {κ ν : Type} [TableKey κ]

/-! ### Entries -/

theorem mem_entries_iff (t : Table κ ν) {k : κ} {v : ν} :
    (k, v) ∈ t.entries ↔ t.find? k = some v := by
  unfold find?
  constructor
  · intro hmem
    obtain ⟨before, after, hsplit⟩ := List.append_of_mem hmem
    have hsorted := t.ascending
    rw [hsplit, List.pairwise_append] at hsorted
    have hnone : before.find? (fun entry => decide (entry.1 = k)) = none := by
      rw [List.find?_eq_none]
      intro entry hentry hkey
      have hlt := hsorted.2.2 entry hentry (k, v) List.mem_cons_self
      rw [of_decide_eq_true hkey] at hlt
      exact TableKey.irrefl k hlt
    rw [hsplit, List.find?_append, hnone]
    simp
  · intro hfind
    obtain ⟨entry, hentry, rfl⟩ := Option.map_eq_some_iff.mp hfind
    have hkey : entry.1 = k := by simpa using List.find?_some hentry
    rw [← hkey]
    exact List.mem_of_find?_eq_some hentry

theorem mem_values_iff (t : Table κ ν) {v : ν} : v ∈ t.values ↔ ∃ k, t.find? k = some v := by
  simp [values, ← mem_entries_iff]

theorem mem_keys_iff (t : Table κ ν) {k : κ} : k ∈ t.keys ↔ ∃ v, t.find? k = some v := by
  simp [keys, ← mem_entries_iff]

theorem nodup_keys (t : Table κ ν) : t.keys.Nodup := by
  refine t.keys_ascending.imp ?_
  rintro k _ hlt rfl
  exact TableKey.irrefl k hlt

/-- What is listed of the values stays the same if a change of one of them keeps it, and nothing is
listed of a new one. -/
theorem flatMap_values_upsert {γ : Type} (t : Table κ ν) (k : κ) {f : Option ν → ν}
    {g : ν → List γ} (hnew : g (f none) = []) (hold : ∀ v, g (f (some v)) = g v) :
    (t.upsert k f).values.flatMap g = t.values.flatMap g := by
  obtain ⟨entries, hsorted⟩ := t
  simp only [values, upsert]
  induction entries with
  | nil => simp [upsertEntry, hnew]
  | cons entry rest ih =>
    have hrest := ih (List.pairwise_cons.mp hsorted).2
    simp only [upsertEntry]
    split_ifs
    · simp [hnew]
    · simp [hrest]
    · simp [hold]

/-- The entries with a given key: the one that the table has for it. -/
theorem filter_entries (t : Table κ ν) (k : κ) :
    t.entries.filter (fun entry => entry.1 = k) = ((t.find? k).map (fun v => (k, v))).toList := by
  obtain ⟨entries, hsorted⟩ := t
  simp only [find?]
  induction entries with
  | nil => rfl
  | cons entry rest ih =>
    obtain ⟨hhead, htail⟩ := List.pairwise_cons.mp hsorted
    by_cases hk : entry.1 = k
    · have hnone : rest.filter (fun entry => decide (entry.1 = k)) = [] := by
        refine List.filter_eq_nil_iff.mpr fun other hother hsame => ?_
        have hlt := hhead other hother
        rw [hk, of_decide_eq_true hsame] at hlt
        exact TableKey.irrefl k hlt
      rw [List.filter_cons_of_pos (by simpa using hk), hnone,
        List.find?_cons_of_pos (by simpa using hk)]
      simp [← hk]
    · rw [List.filter_cons_of_neg (by simpa using hk), List.find?_cons_of_neg (by simpa using hk)]
      exact ih htail

/-- A table is known by what it has for each key. -/
theorem ext_find? {t t' : Table κ ν} (h : ∀ k, t.find? k = t'.find? k) : t = t' := by
  have hnodup : ∀ u : Table κ ν, u.entries.Nodup := fun u => u.nodup_keys.of_map Prod.fst
  have hperm : t.entries.Perm t'.entries :=
    (List.perm_ext_iff_of_nodup (hnodup t) (hnodup t')).mpr fun entry => by
      rw [mem_entries_iff t, mem_entries_iff t', h]
  have hentries : t.entries = t'.entries :=
    hperm.eq_of_pairwise (fun a b _ _ hab hba => (TableKey.irrefl _ (TableKey.trans hab hba)).elim)
      t.ascending t'.ascending
  obtain ⟨entries, _⟩ := t
  obtain ⟨entries', _⟩ := t'
  obtain rfl := hentries
  rfl

/-- Tables with values for the same keys list these keys in the same way. -/
theorem keys_eq_of_mem_iff {μ : Type} {t : Table κ ν} {t' : Table κ μ}
    (h : ∀ k, k ∈ t.keys ↔ k ∈ t'.keys) : t.keys = t'.keys := by
  have hperm : t.keys.Perm t'.keys :=
    (List.perm_ext_iff_of_nodup t.nodup_keys t'.nodup_keys).mpr h
  exact hperm.eq_of_pairwise
    (fun a b _ _ hab hba => (TableKey.irrefl _ (TableKey.trans hab hba)).elim)
    t.keys_ascending t'.keys_ascending

/-! ### Tables of lists -/

theorem find?_foldl_insert (entries : List (κ × ν)) (t : Table κ ν) (k : κ) :
    (entries.foldl (fun t entry => t.insert entry.1 entry.2) t).find? k
      = ((entries.reverse.find? (fun entry => entry.1 = k)).map Prod.snd).or (t.find? k) := by
  induction entries generalizing t with
  | nil => rfl
  | cons entry rest ih =>
    rw [List.foldl_cons, ih, List.reverse_cons, List.find?_append, Option.map_or, Option.or_assoc]
    congr 1
    by_cases hk : entry.1 = k
    · subst hk
      simp
    · rw [find?_insert_of_ne _ hk]
      simp [hk]

/-- The last value that is listed for a key counts. -/
theorem find?_ofList (entries : List (κ × ν)) (k : κ) :
    (ofList entries).find? k = (entries.reverse.find? (fun entry => entry.1 = k)).map Prod.snd := by
  rw [ofList, find?_foldl_insert, find?_empty, Option.or_none]

theorem contains_ofList_iff (entries : List (κ × ν)) (k : κ) :
    (ofList entries).contains k = true ↔ ∃ v, (k, v) ∈ entries := by
  rw [contains, find?_ofList, Option.isSome_map, List.find?_isSome]
  simp

/-- A list with at most one value for each key. -/
theorem find?_ofList_iff {entries : List (κ × ν)} (h : (entries.map Prod.fst).Nodup) {k : κ}
    {v : ν} : (ofList entries).find? k = some v ↔ (k, v) ∈ entries := by
  rw [find?_ofList, Option.map_eq_some_iff]
  constructor
  · rintro ⟨⟨k', v'⟩, hfind, rfl⟩
    obtain rfl : k' = k := by simpa using List.find?_some hfind
    exact List.mem_reverse.mp (List.mem_of_find?_eq_some hfind)
  · intro hmem
    obtain ⟨⟨k', v'⟩, hfind⟩ :
        ∃ entry, entries.reverse.find? (fun entry => entry.1 = k) = some entry := by
      rw [← Option.isSome_iff_exists, List.find?_isSome]
      exact ⟨(k, v), List.mem_reverse.mpr hmem, by simp⟩
    obtain rfl : k' = k := by simpa using List.find?_some hfind
    have hsame := List.inj_on_of_nodup_map h (List.mem_reverse.mp (List.mem_of_find?_eq_some hfind))
      hmem rfl
    exact ⟨_, hfind, (Prod.mk.inj hsame).2⟩

/-- Of the items that are listed for a key the last one counts. -/
theorem find?_ofList_map_iff {α : Type} {key : α → κ} {xs : List α} {k : κ} {x : α} :
    (ofList (xs.map fun x => (key x, x))).find? k = some x ↔ IsLastFor key xs k x := by
  rw [find?_ofList, ← List.map_reverse, List.find?_map, Option.map_map,
    ← find?_reverse_eq_some_iff]
  exact iff_of_eq (congrArg (· = some x) Option.map_id')

/-- A table that has the keys of a list has as many of them as the list has different ones. -/
theorem size_eq_card [DecidableEq κ] {t : Table κ ν} {ks : List κ} (h : ∀ k, k ∈ t.keys ↔ k ∈ ks) :
    t.size = ks.toFinset.card := by
  have hsame : t.keys.toFinset = ks.toFinset := by
    ext k
    rw [List.mem_toFinset, List.mem_toFinset, h]
  rw [← hsame, List.toFinset_card_of_nodup t.nodup_keys]
  exact (List.length_map _).symm

theorem size_ofList [DecidableEq κ] (entries : List (κ × ν)) :
    (ofList entries).size = (entries.map Prod.fst).toFinset.card := by
  refine size_eq_card fun k => ?_
  rw [mem_keys_iff, ← Option.isSome_iff_exists]
  exact (contains_ofList_iff entries k).trans (by simp)

/-- It does not matter in which order entries with different keys are listed. -/
theorem ofList_perm {entries entries' : List (κ × ν)} (h : entries.Perm entries')
    (hkeys : (entries.map Prod.fst).Nodup) : ofList entries = ofList entries' :=
  ext_find? fun k => Option.ext fun v => by
    rw [find?_ofList_iff hkeys, find?_ofList_iff ((h.map Prod.fst).nodup hkeys), h.mem_iff]

/-- The entries of a table make up the table. -/
theorem ofList_entries (t : Table κ ν) : ofList t.entries = t :=
  ext_find? fun k => Option.ext fun v => by
    rw [find?_ofList_iff t.nodup_keys, mem_entries_iff]

end Table

/-! ### Sets of lists -/

namespace KeySet

variable {κ : Type} [TableKey κ]

theorem not_mem_toList_empty (k : κ) : k ∉ toList (Table.empty : KeySet κ) := List.not_mem_nil

theorem mem_toList_add (s : KeySet κ) (k k' : κ) :
    k' ∈ (s.add k).toList ↔ k = k' ∨ k' ∈ s.toList := by
  simp only [toList, Table.mem_keys_iff, add, Table.insert, Table.find?_upsert]
  split_ifs with hk
  · simp [hk]
  · simp [hk]

theorem mem_ofList {ks : List κ} {k : κ} : k ∈ (ofList ks).toList ↔ k ∈ ks := by
  have hfold : ∀ s : KeySet κ, k ∈ (ks.foldl add s).toList ↔ k ∈ ks ∨ k ∈ s.toList := by
    induction ks with
    | nil => simp
    | cons k' rest ih =>
      intro s
      rw [List.foldl_cons, ih, mem_toList_add, List.mem_cons, eq_comm (a := k)]
      tauto
  rw [ofList, hfold]
  simp [toList, Table.keys, Table.empty]

end KeySet

end LatencyControl
