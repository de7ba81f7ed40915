import LatencyControl.Ident

/-!
# Ordered tables

A `Table κ ν` holds at most one value per key and lists its entries in the order of their keys.
Every answer that shows a whole table shows it in this order, so the order belongs to the type: it
is the proof field `ascending`.

`find?` is the view of a table.  `find?_upsert_self` and `find?_upsert_of_ne` say what a change at
one key does to it, and `keys_ascending` that the keys are listed once each and in order.
-/

namespace LatencyControl

/-- Keys of a table: a decidable strict order in which any two different keys are comparable. -/
class TableKey (κ : Type) extends LT κ where
  decEq : DecidableEq κ
  decLt : ∀ a b : κ, Decidable (a < b)
  irrefl : ∀ a : κ, ¬ a < a
  trans : ∀ {a b c : κ}, a < b → b < c → a < c
  trichotomy : ∀ a b : κ, a < b ∨ a = b ∨ b < a

instance (priority := low) {κ : Type} [TableKey κ] : DecidableEq κ := TableKey.decEq

instance (priority := low) TableKey.decidableLt {κ : Type} [TableKey κ] (a b : κ) :
    Decidable (a < b) :=
  TableKey.decLt a b

instance {e : Entity} : TableKey (Ident e) where
  decEq := inferInstance
  decLt := inferInstance
  irrefl := Ident.lt_irrefl
  trans := Ident.lt_trans
  trichotomy := Ident.lt_trichotomy

instance : TableKey Nat where
  decEq := inferInstance
  decLt := inferInstance
  irrefl := Nat.lt_irrefl
  trans := Nat.lt_trans
  trichotomy := Nat.lt_trichotomy

/-- Entries in ascending order of their keys. -/
structure Table (κ ν : Type) [TableKey κ] where
  entries : List (κ × ν) := []
  ascending : entries.Pairwise (fun a b => a.1 < b.1) := by exact List.Pairwise.nil

namespace Table

variable {κ ν : Type} [TableKey κ]

/-- The table without entries. -/
def empty : Table κ ν := {}

instance : Inhabited (Table κ ν) := ⟨empty⟩

/-- The value at a key. -/
def find? (t : Table κ ν) (k : κ) : Option ν :=
  (t.entries.find? (fun entry => decide (entry.1 = k))).map Prod.snd

/-- Whether the table has a value at a key. -/
def contains (t : Table κ ν) (k : κ) : Bool := (t.find? k).isSome

/-- The keys, in order. -/
def keys (t : Table κ ν) : List κ := t.entries.map Prod.fst

/-- The values, in the order of their keys. -/
def values (t : Table κ ν) : List ν := t.entries.map Prod.snd

/-- How many keys the table has. -/
def size (t : Table κ ν) : Nat := t.entries.length

/-! ### Changing one entry -/

/-- Puts `f` of the value found at `k` at the place of `k` among ascending entries. -/
def upsertEntry (k : κ) (f : Option ν → ν) : List (κ × ν) → List (κ × ν)
  | [] => [(k, f none)]
  | entry :: rest =>
    if k < entry.1 then (k, f none) :: entry :: rest
    else if entry.1 < k then entry :: upsertEntry k f rest
    else (k, f (some entry.2)) :: rest

theorem fst_of_mem_upsertEntry {k : κ} {f : Option ν → ν} {entries : List (κ × ν)} {x : κ × ν}
    (h : x ∈ upsertEntry k f entries) : x.1 = k ∨ ∃ y ∈ entries, y.1 = x.1 := by
  induction entries with
  | nil => simp_all [upsertEntry]
  | cons entry rest ih =>
    simp only [upsertEntry] at h
    split at h
    · rcases List.mem_cons.1 h with rfl | h
      · exact .inl rfl
      · exact .inr ⟨x, h, rfl⟩
    · split at h
      · rcases List.mem_cons.1 h with rfl | h
        · exact .inr ⟨_, List.mem_cons_self, rfl⟩
        · rcases ih h with h | ⟨y, hy, hx⟩
          · exact .inl h
          · exact .inr ⟨y, List.mem_cons_of_mem _ hy, hx⟩
      · rcases List.mem_cons.1 h with rfl | h
        · exact .inl rfl
        · exact .inr ⟨x, List.mem_cons_of_mem _ h, rfl⟩

theorem pairwise_upsertEntry (k : κ) (f : Option ν → ν) {entries : List (κ × ν)}
    (h : entries.Pairwise (fun a b => a.1 < b.1)) :
    (upsertEntry k f entries).Pairwise (fun a b => a.1 < b.1) := by
  induction entries with
  | nil => simp [upsertEntry]
  | cons entry rest ih =>
    obtain ⟨hhead, htail⟩ := List.pairwise_cons.1 h
    simp only [upsertEntry]
    split
    · next hlt =>
      refine List.pairwise_cons.2 ⟨fun x hx => ?_, h⟩
      rcases List.mem_cons.1 hx with rfl | hx
      · exact hlt
      · exact TableKey.trans hlt (hhead x hx)
    · next hnlt =>
      split
      · next hgt =>
        refine List.pairwise_cons.2 ⟨fun x hx => ?_, ih htail⟩
        rcases fst_of_mem_upsertEntry hx with hk | ⟨y, hy, hyx⟩
        · exact hk ▸ hgt
        · exact hyx ▸ hhead y hy
      · next hngt =>
        have heq : k = entry.1 := by
          rcases TableKey.trichotomy k entry.1 with h | h | h
          · exact absurd h hnlt
          · exact h
          · exact absurd h hngt
        exact List.pairwise_cons.2 ⟨fun x hx => heq ▸ hhead x hx, htail⟩

/-- Changes the value at `k` to `f` of the value found there, adding the key if it is new. -/
def upsert (t : Table κ ν) (k : κ) (f : Option ν → ν) : Table κ ν :=
  ⟨upsertEntry k f t.entries, pairwise_upsertEntry k f t.ascending⟩

/-- Puts `v` at `k`; an earlier value at `k` is replaced. -/
def insert (t : Table κ ν) (k : κ) (v : ν) : Table κ ν := t.upsert k (fun _ => v)

/-- Changes the value at `k`, if there is one. -/
def modify (t : Table κ ν) (k : κ) (f : ν → ν) : Table κ ν :=
  match t.find? k with
  | none => t
  | some v => t.insert k (f v)

/-- Takes a key out of the table. -/
def erase (t : Table κ ν) (k : κ) : Table κ ν :=
  ⟨t.entries.filter (fun entry => decide (entry.1 ≠ k)), t.ascending.filter _⟩

/-- The table of the given entries; of two entries with one key the later counts. -/
def ofList (entries : List (κ × ν)) : Table κ ν :=
  entries.foldl (fun t entry => t.insert entry.1 entry.2) empty

/-! ### Lemmas -/

theorem keys_ascending (t : Table κ ν) : t.keys.Pairwise (· < ·) := by
  simpa [keys, List.pairwise_map] using t.ascending

theorem find?_upsertEntry (k : κ) (f : Option ν → ν) {entries : List (κ × ν)}
    (h : entries.Pairwise (fun a b => a.1 < b.1)) (k' : κ) :
    ((upsertEntry k f entries).find? (fun entry => decide (entry.1 = k'))).map Prod.snd =
      if k = k' then
        some (f ((entries.find? (fun entry => decide (entry.1 = k))).map Prod.snd))
      else (entries.find? (fun entry => decide (entry.1 = k'))).map Prod.snd := by
  induction entries with
  | nil => by_cases hk : k = k' <;> simp [upsertEntry, hk]
  | cons entry rest ih =>
    obtain ⟨hhead, htail⟩ := List.pairwise_cons.1 h
    simp only [upsertEntry]
    split
    · next hlt =>
      have hnone : ((entry :: rest).find? (fun e => decide (e.1 = k))) = none := by
        simp only [List.find?_eq_none, List.mem_cons, decide_eq_true_eq]
        rintro x (rfl | hx) hk
        · exact TableKey.irrefl _ (hk ▸ hlt)
        · exact TableKey.irrefl _ (TableKey.trans (hk ▸ hlt : x.1 < entry.1) (hhead x hx))
      by_cases hk : k = k'
      · subst hk
        simp only [hnone, Option.map_none]
        simp
      · simp [hk]
    · next hnlt =>
      split
      · next hgt =>
        have hne : entry.1 ≠ k := fun hk => TableKey.irrefl _ (hk ▸ hgt)
        by_cases he : entry.1 = k'
        · have : k ≠ k' := fun hk => hne (he.trans hk.symm)
          simp [he, this]
        · have := ih htail
          simp [he, hne] at this ⊢
          exact this
      · next hngt =>
        have heq : entry.1 = k := by
          rcases TableKey.trichotomy k entry.1 with h | h | h
          · exact absurd h hnlt
          · exact h.symm
          · exact absurd h hngt
        by_cases hk : k = k'
        · simp [heq, hk]
        · have : entry.1 ≠ k' := fun h => hk (heq.symm.trans h)
          simp [hk, this]

theorem find?_upsert (t : Table κ ν) (k k' : κ) (f : Option ν → ν) :
    (t.upsert k f).find? k' = if k = k' then some (f (t.find? k)) else t.find? k' :=
  find?_upsertEntry k f t.ascending k'

@[simp] theorem find?_upsert_self (t : Table κ ν) (k : κ) (f : Option ν → ν) :
    (t.upsert k f).find? k = some (f (t.find? k)) := by simp [find?_upsert]

theorem find?_upsert_of_ne (t : Table κ ν) {k k' : κ} (h : k ≠ k') (f : Option ν → ν) :
    (t.upsert k f).find? k' = t.find? k' := by simp [find?_upsert, h]

@[simp] theorem find?_erase_self (t : Table κ ν) (k : κ) : (t.erase k).find? k = none := by
  simp [erase, find?, List.find?_filter]

theorem find?_erase_of_ne (t : Table κ ν) {k k' : κ} (h : k ≠ k') :
    (t.erase k).find? k' = t.find? k' := by
  unfold erase find?
  rw [List.find?_filter]
  congr 2
  funext entry
  by_cases he : entry.1 = k'
  · simp [he, Ne.symm h]
  · simp [he]

@[simp] theorem find?_empty (k : κ) : (empty : Table κ ν).find? k = none := rfl

@[simp] theorem find?_insert_self (t : Table κ ν) (k : κ) (v : ν) :
    (t.insert k v).find? k = some v := by simp [insert]

theorem find?_insert_of_ne (t : Table κ ν) {k k' : κ} (h : k ≠ k') (v : ν) :
    (t.insert k v).find? k' = t.find? k' := by simp [insert, find?_upsert_of_ne, h]

theorem find?_modify (t : Table κ ν) (k k' : κ) (f : ν → ν) :
    (t.modify k f).find? k' = if k = k' then (t.find? k').map f else t.find? k' := by
  unfold modify
  by_cases hk : k = k'
  · subst hk
    rw [if_pos rfl]
    cases hfound : t.find? k with
    | none => exact hfound
    | some v => exact find?_insert_self t k (f v)
  · rw [if_neg hk]
    cases t.find? k with
    | none => rfl
    | some v => exact find?_insert_of_ne t hk (f v)

end Table

/-- An ordered set: a table whose values say nothing. -/
abbrev KeySet (κ : Type) [TableKey κ] := Table κ Unit

namespace KeySet

variable {κ : Type} [TableKey κ]

/-- The set with one more element. -/
def add (s : KeySet κ) (k : κ) : KeySet κ := Table.insert s k ()

/-- The set of the listed elements. -/
def ofList (ks : List κ) : KeySet κ := ks.foldl add Table.empty

/-- The elements, in order. -/
def toList (s : KeySet κ) : List κ := Table.keys s

end KeySet

end LatencyControl
