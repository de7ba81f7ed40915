import Mathlib.Data.List.Forall2

/-!
# Computations that get through

Inversion lemmas for computations that may fail: if the whole gets through, so did its parts.  The
first section is about plain results, the second one about two computations that get through
together (`SameOutcome`), and the third one about activities that change a state as well.
-/

namespace LatencyControl

variable {ε α β σ : Type}

/-! ### Results -/

theorem bind_eq_ok {x : Except ε α} {f : α → Except ε β} {b : β} :
    (x >>= f) = .ok b ↔ ∃ a, x = .ok a ∧ f a = .ok b := by
  cases x with
  | error e =>
    constructor
    · intro h
      cases h
    · rintro ⟨a, h, -⟩
      cases h
  | ok a =>
    constructor
    · exact fun h => ⟨a, rfl, h⟩
    · rintro ⟨a', h, h'⟩
      cases h
      exact h'

theorem exists_eq_ok {x : Except ε α} (h : x.isOk = true) : ∃ a, x = .ok a := by
  cases x with
  | error e => cases h
  | ok a => exact ⟨a, rfl⟩

theorem eq_ok_of_toOption {x : Except ε α} {a : α} (h : x.toOption = some a) : x = .ok a := by
  cases x with
  | error e => cases h
  | ok b => rw [Option.some.inj h]

/-- A computation whose result passes a check. -/
theorem exists_ok_of_check {x : Except ε α} {p : α → Prop} [DecidablePred p]
    (h : x.toOption.any (fun a => decide (p a)) = true) : ∃ a, x = .ok a ∧ p a := by
  obtain ⟨a, ha, hp⟩ := (Option.any_eq_true _ _).mp h
  exact ⟨a, eq_ok_of_toOption ha, of_decide_eq_true hp⟩

/-- A step without a result, before the rest of a computation. -/
theorem step_eq_ok {x : Except ε PUnit} {y : Except ε β} {b : β} :
    (x >>= fun _ => y) = .ok b ↔ x = .ok () ∧ y = .ok b := by
  rw [bind_eq_ok]
  exact ⟨fun ⟨_, hx, hy⟩ => ⟨hx, hy⟩, fun ⟨hx, hy⟩ => ⟨⟨⟩, hx, hy⟩⟩

/-- A check before the rest of a computation. -/
theorem check_eq_ok {p : Prop} [Decidable p] {e : ε} {f : PUnit → Except ε β} {b : β} :
    (if p then throw e >>= f else f ⟨⟩) = .ok b ↔ ¬p ∧ f ⟨⟩ = .ok b := by
  split_ifs with hp
  · constructor
    · intro h
      cases h
    · exact fun h => absurd hp h.1
  · exact ⟨fun h => ⟨hp, h⟩, And.right⟩

/-- A check at the end of a computation. -/
theorem lastCheck_eq_ok {p : Prop} [Decidable p] {e : ε} :
    (if p then throw e else pure () : Except ε PUnit) = .ok () ↔ ¬p := by
  split_ifs with hp
  · exact ⟨fun h => (by cases h), fun h => absurd hp h⟩
  · exact ⟨fun _ => hp, fun _ => rfl⟩

/-- Every item of a list passes a check. -/
theorem forM_eq_ok {f : α → Except ε PUnit} {xs : List α} :
    xs.forM f = .ok () ↔ ∀ x ∈ xs, f x = .ok () := by
  induction xs with
  | nil => exact ⟨fun _ x hx => (List.not_mem_nil hx).elim, fun _ => rfl⟩
  | cons x rest ih =>
    rw [List.forall_mem_cons, ← ih]
    exact step_eq_ok

/-- A list is worked through if each of its items is. -/
theorem mapM_eq_ok {f : α → Except ε β} {xs : List α} {ys : List β} :
    xs.mapM f = .ok ys ↔ List.Forall₂ (fun x y => f x = .ok y) xs ys := by
  induction xs generalizing ys with
  | nil =>
    rw [List.mapM_nil, List.forall₂_nil_left_iff]
    exact ⟨fun h => (Except.ok.inj h).symm, fun h => by rw [h]; rfl⟩
  | cons x rest ih =>
    rw [List.mapM_cons, bind_eq_ok, List.forall₂_cons_left_iff]
    constructor
    · rintro ⟨y, hy, h⟩
      obtain ⟨later, hlater, h⟩ := bind_eq_ok.mp h
      exact ⟨y, later, hy, ih.mp hlater, (Except.ok.inj h).symm⟩
    · rintro ⟨y, later, hy, hlater, rfl⟩
      exact ⟨y, hy, bind_eq_ok.mpr ⟨later, ih.mpr hlater, rfl⟩⟩

theorem mapM_eq_ok_map {f : α → Except ε β} {g : α → β} {xs : List α}
    (h : ∀ x ∈ xs, f x = .ok (g x)) : xs.mapM f = .ok (xs.map g) := by
  rw [mapM_eq_ok, List.forall₂_map_right_iff, List.forall₂_same]
  exact h

theorem exists_mapM_eq_ok {f : α → Except ε β} {xs : List α} (h : ∀ x ∈ xs, ∃ y, f x = .ok y) :
    ∃ ys, xs.mapM f = .ok ys := by
  induction xs with
  | nil => exact ⟨[], rfl⟩
  | cons x rest ih =>
    obtain ⟨y, hy⟩ := h x List.mem_cons_self
    obtain ⟨later, hlater⟩ := ih fun x hx => h x (List.mem_cons_of_mem _ hx)
    exact ⟨y :: later, mapM_eq_ok.mpr (.cons hy (mapM_eq_ok.mp hlater))⟩

/-- A list is looked up item by item. -/
theorem mapM_eq_some {f : α → Option β} {xs : List α} {ys : List β} :
    xs.mapM f = some ys ↔ List.Forall₂ (fun x y => f x = some y) xs ys := by
  induction xs generalizing ys with
  | nil =>
    rw [List.mapM_nil, List.forall₂_nil_left_iff]
    exact ⟨fun h => (Option.some.inj h).symm, fun h => congrArg some h.symm⟩
  | cons x rest ih =>
    rw [List.mapM_cons, List.forall₂_cons_left_iff]
    simp only [Option.bind_eq_bind, Option.bind_eq_some_iff]
    constructor
    · rintro ⟨y, hy, later, hlater, hys⟩
      exact ⟨y, later, hy, ih.mp hlater, (Option.some.inj hys).symm⟩
    · rintro ⟨y, later, hy, hlater, rfl⟩
      exact ⟨y, hy, later, ih.mpr hlater, rfl⟩

theorem mapM_eq_none {f : α → Option β} {xs : List α} :
    xs.mapM f = none ↔ ∃ x ∈ xs, f x = none := by
  induction xs with
  | nil => simp
  | cons x rest ih =>
    rw [List.mapM_cons, List.exists_mem_cons_iff, ← ih]
    cases f x with
    | none => exact iff_of_true rfl (.inl rfl)
    | some y =>
      cases rest.mapM f with
      | none => exact iff_of_true rfl (.inr rfl)
      | some later => simp

/-- The result of an item of a list that was worked through. -/
theorem exists_result {R : α → β → Prop} {xs : List α} {ys : List β} (h : List.Forall₂ R xs ys)
    {x : α} (hx : x ∈ xs) : ∃ y ∈ ys, R x y := by
  induction h with
  | nil => exact (List.not_mem_nil hx).elim
  | cons hfirst _ ih =>
    rcases List.mem_cons.mp hx with rfl | hx
    · exact ⟨_, List.mem_cons_self, hfirst⟩
    · obtain ⟨y, hy, hR⟩ := ih hx
      exact ⟨y, List.mem_cons_of_mem _ hy, hR⟩

/-- The item that a result comes from. -/
theorem exists_item {R : α → β → Prop} {xs : List α} {ys : List β} (h : List.Forall₂ R xs ys)
    {y : β} (hy : y ∈ ys) : ∃ x ∈ xs, R x y :=
  exists_result (R := flip R) (List.Forall₂.flip h) hy

/-- What stands in a relation item by item also stands in one that follows from it. -/
theorem forall₂_imp_of_mem {R S : α → β → Prop} {xs : List α} {ys : List β}
    (h : List.Forall₂ R xs ys) (himp : ∀ x ∈ xs, ∀ y, R x y → S x y) : List.Forall₂ S xs ys := by
  induction h with
  | nil => exact .nil
  | cons hfirst _ ih =>
    exact .cons (himp _ List.mem_cons_self _ hfirst)
      (ih fun x hx => himp x (List.mem_cons_of_mem _ hx))

/-- What every step of a fold preserves, the whole fold preserves. -/
theorem foldlM_preserves {f : σ → α → Except ε σ} (P : σ → Prop) {xs : List α}
    (hstep : ∀ s s' x, x ∈ xs → P s → f s x = .ok s' → P s') {s s' : σ} (hs : P s)
    (h : xs.foldlM f s = .ok s') : P s' := by
  induction xs generalizing s with
  | nil => exact Except.ok.inj h ▸ hs
  | cons x rest ih =>
    rw [List.foldlM_cons] at h
    obtain ⟨s₁, hfirst, hrest⟩ := bind_eq_ok.mp h
    exact ih (fun s s' y hy => hstep s s' y (List.mem_cons_of_mem x hy))
      (hstep s s₁ x List.mem_cons_self hs hfirst) hrest

/-- A fold gets through if none of its steps can fail. -/
theorem exists_foldlM_eq_ok {f : σ → α → Except ε σ} {xs : List α}
    (hstep : ∀ s, ∀ x ∈ xs, ∃ s', f s x = .ok s') (s : σ) : ∃ s', xs.foldlM f s = .ok s' := by
  induction xs generalizing s with
  | nil => exact ⟨s, rfl⟩
  | cons x rest ih =>
    obtain ⟨s₁, hfirst⟩ := hstep s x List.mem_cons_self
    obtain ⟨s', hrest⟩ := ih (fun s y hy => hstep s y (List.mem_cons_of_mem x hy)) s₁
    exact ⟨s', by rw [List.foldlM_cons, hfirst]; exact hrest⟩

/-- What is on the lists that the items of a list come to. -/
theorem mem_flatten_of_mapM {f : α → Except ε (List β)} {xs : List α} {found : List (List β)}
    (h : xs.mapM f = .ok found) {y : β} :
    y ∈ found.flatten ↔ ∃ x ∈ xs, ∃ ys, f x = .ok ys ∧ y ∈ ys := by
  rw [List.mem_flatten]
  constructor
  · rintro ⟨ys, hys, hy⟩
    obtain ⟨x, hx, hf⟩ := exists_item (mapM_eq_ok.mp h) hys
    exact ⟨x, hx, ys, hf, hy⟩
  · rintro ⟨x, hx, ys, hf, hy⟩
    obtain ⟨ys', hys', hf'⟩ := exists_result (mapM_eq_ok.mp h) hx
    obtain rfl : ys = ys' := Except.ok.inj (hf.symm.trans hf')
    exact ⟨ys, hys', hy⟩

/-! ### Two results -/

/-- Two computations fail with the same error, or get through with results that are related. -/
inductive SameOutcome (R : α → β → Prop) : Except ε α → Except ε β → Prop
  | error (e : ε) : SameOutcome R (.error e) (.error e)
  | ok {a : α} {b : β} (h : R a b) : SameOutcome R (.ok a) (.ok b)

namespace SameOutcome

variable {γ δ : Type} {R : α → β → Prop} {S : γ → δ → Prop}

/-- A computation and another one after it. -/
theorem bind {x : Except ε α} {y : Except ε β} {f : α → Except ε γ} {g : β → Except ε δ}
    (h : SameOutcome R x y) (hnext : ∀ a b, R a b → SameOutcome S (f a) (g b)) :
    SameOutcome S (x >>= f) (y >>= g) := by
  cases h with
  | error e => exact .error e
  | ok hab => exact hnext _ _ hab

/-- The same step without a result before both. -/
theorem step (x : Except ε PUnit) {y : Except ε γ} {z : Except ε δ} (h : SameOutcome S y z) :
    SameOutcome S (x >>= fun _ => y) (x >>= fun _ => z) := by
  cases x with
  | error e => exact .error e
  | ok _ => exact h

/-- The same check before both. -/
theorem check {p : Prop} [Decidable p] {e : ε} {f : PUnit → Except ε γ} {g : PUnit → Except ε δ}
    (h : ¬p → SameOutcome S (f ⟨⟩) (g ⟨⟩)) :
    SameOutcome S (if p then throw e >>= f else f ⟨⟩) (if p then throw e >>= g else g ⟨⟩) := by
  split_ifs with hp
  · exact .error e
  · exact h hp

/-- Two passes over the same list. -/
theorem foldlM {ι : Type} {f : α → ι → Except ε α} {g : β → ι → Except ε β}
    (hstep : ∀ a b i, R a b → SameOutcome R (f a i) (g b i)) (is : List ι) {a : α} {b : β}
    (hab : R a b) : SameOutcome R (is.foldlM f a) (is.foldlM g b) := by
  induction is generalizing a b with
  | nil => exact .ok hab
  | cons i rest ih =>
    rw [List.foldlM_cons, List.foldlM_cons]
    exact (hstep a b i hab).bind fun _ _ hnext => ih hnext

/-- If one of the computations fails, and the state stays as it is then, so does the other. -/
theorem getD {a : α} {b : β} {x : Except ε α} {y : Except ε β} (h : SameOutcome R x y)
    (hab : R a b) : R (x.toOption.getD a) (y.toOption.getD b) := by
  cases h with
  | error e => exact hab
  | ok hnew => exact hnew

theorem exists_ok {x : Except ε α} {y : Except ε β} {b : β} (h : SameOutcome R x y)
    (hy : y = .ok b) : ∃ a, x = .ok a ∧ R a b := by
  subst hy
  cases h with
  | ok hab => exact ⟨_, rfl, hab⟩

end SameOutcome

/-! ### Activities -/

/-- An activity in two steps gets through if both of them do. -/
theorem run_bind_eq_ok {x : ExceptT ε (StateM σ) α} {f : α → ExceptT ε (StateM σ) β} {s s' : σ}
    {b : β} :
    (x >>= f).run.run s = (.ok b, s') ↔
      ∃ a s₁, x.run.run s = (.ok a, s₁) ∧ (f a).run.run s₁ = (.ok b, s') := by
  rw [ExceptT.run_bind, StateT.run_bind]
  rcases hx : x.run.run s with ⟨_ | a, s₁⟩
  · constructor
    · intro h
      cases h
    · rintro ⟨a, s₂, h, -⟩
      cases h
  · constructor
    · exact fun h => ⟨a, s₁, rfl, h⟩
    · rintro ⟨a', s₂, h, h'⟩
      cases h
      exact h'

/-- A result that is used in an activity leaves the state as it is. -/
theorem run_lift_eq_ok {x : Except ε α} {s s' : σ} {a : α} :
    (liftM x : ExceptT ε (StateM σ) α).run.run s = (.ok a, s') ↔ x = .ok a ∧ s' = s := by
  change (x, s) = (.ok a, s') ↔ _
  rw [Prod.mk.injEq, eq_comm (a := s)]

end LatencyControl
