import LatencyControl.Proofs.Flow.Line
import Mathlib.Data.Nat.Basic

/-!
# Chains in a line

A chain in a line takes over the stages that directly follow its head (`Chain.Spans`).  As long as
it is in place the way that it bypasses is clear (`Line.Clear`): no buffer between its stages and no
queue of theirs holds a record, and none of its stages but the last is itself the head of a chain.
That is why records which the chain passes on at once overtake nothing.

`Line.Sound k` demands this of all chains from stage `k` on.  `Line.Extends k xs` says what becomes
of a line when the gate of stage `k` takes the records `xs`: nothing before that gate changes, and
the line yields what it would have yielded for `xs`.  `Line.Passes p e xs` says the same of records
that pass from gate `p` through all stages up to `e` without being queued anywhere.
-/

namespace LatencyControl

variable {σ ρ : Type}

/-! ### Chains and actions that fit into a line -/

/-- The links are those of a row of tasks, starting with the given one, by their only gates. -/
def Follows : ℕ → List ChainLink → Prop
  | _, [] => True
  | k, l :: rest => (l.task = k ∧ l.input = 0 ∧ l.output = 0) ∧ Follows (k + 1) rest

instance decidableFollows : ∀ (k : ℕ) (links : List ChainLink), Decidable (Follows k links)
  | _, [] => inferInstanceAs (Decidable True)
  | k, l :: rest =>
    have := decidableFollows (k + 1) rest
    inferInstanceAs (Decidable ((l.task = k ∧ l.input = 0 ∧ l.output = 0) ∧ Follows (k + 1) rest))

/-- The links behind the first ones of a row. -/
theorem Follows.drop {k : ℕ} {links : List ChainLink} (h : Follows k links) (n : ℕ) :
    Follows (k + n) (links.drop n) := by
  induction n generalizing k links with
  | zero => exact h
  | succ n ih =>
    cases links with
    | nil => trivial
    | cons l rest =>
      have := ih h.2
      rwa [show k + 1 + n = k + (n + 1) by omega] at this

theorem Follows.getElem {k : ℕ} {links : List ChainLink} (h : Follows k links) {n : ℕ}
    (hn : n < links.length) :
    links[n].task = k + n ∧ links[n].input = 0 ∧ links[n].output = 0 := by
  have hdrop := h.drop n
  rw [List.drop_eq_getElem_cons hn] at hdrop
  exact hdrop.1

/-- The chain takes over a run of tasks that directly follow the given one, in a line with the given
number of tasks. -/
structure Chain.Spans (c : Chain) (gate size : ℕ) : Prop where
  nonempty : c.links ≠ []
  follows : Follows (gate + 1) c.links
  fits : gate + c.links.length < size

/-- Whether an action may be queued at a gate of a line: chains have to take over tasks that
directly follow. -/
def GateAction.Fits (gate size : ℕ) : GateAction → Prop
  | .establishChain c => c.Spans gate size
  | _ => True

namespace Line

/-! ### Ranges of stages -/

/-- All stages from `a` on and before `b` have a property. -/
def Each (L : Line σ ρ) (a b : ℕ) (P : Stage σ ρ → Prop) : Prop :=
  ∀ m s, a ≤ m → m < b → L.stages[m]? = some s → P s

theorem Each.mono {L : Line σ ρ} {a b a' b' : ℕ} {P : Stage σ ρ → Prop} (h : L.Each a b P)
    (ha : a ≤ a') (hb : b' ≤ b) : L.Each a' b' P :=
  fun m s hm hm' hs => h m s (by omega) (by omega) hs

theorem Each.single {L : Line σ ρ} {k : ℕ} {P : Stage σ ρ → Prop}
    (h : ∀ s, L.stages[k]? = some s → P s) : L.Each k (k + 1) P := by
  intro m s hm hm' hs
  obtain rfl : m = k := by omega
  exact h s hs

/-- A property passes to another line whose stages inherit it. -/
theorem Each.imp {L L' : Line σ ρ} {a b : ℕ} {P : Stage σ ρ → Prop} (h : L.Each a b P)
    (himp : ∀ m s', a ≤ m → m < b → L'.stages[m]? = some s' →
      ∃ s, L.stages[m]? = some s ∧ (P s → P s')) : L'.Each a b P := by
  intro m s' hm hm' hs'
  obtain ⟨s, hs, hP⟩ := himp m s' hm hm' hs'
  exact hP (h m s hm hm' hs)

/-- A property passes to another line with the same stages, as far as a view of them goes. -/
theorem Each.congr {L L' : Line σ ρ} {a b : ℕ} {P : Stage σ ρ → Prop} {γ : Type}
    (view : Stage σ ρ → γ) (h : L.Each a b P) (hP : ∀ s s', view s' = view s → P s → P s')
    (hview : ∀ m, a ≤ m → m < b → L'.stages[m]?.map view = L.stages[m]?.map view) :
    L'.Each a b P := by
  refine h.imp fun m s' hm hm' hs' => ?_
  have heq := hview m hm hm'
  rw [hs', Option.map_some] at heq
  obtain ⟨s, hs, hv⟩ := Option.map_eq_some_iff.mp heq.symm
  exact ⟨s, hs, hP s s' hv.symm⟩

/-! ### Clear ways and sound lines -/

/-- Nothing waits between the gate of stage `p` and the task of stage `e`. -/
structure WayClear (L : Line σ ρ) (p e : ℕ) : Prop where
  buffers : L.Each p e (fun s => s.buffer = [])
  queues : L.Each (p + 1) (e + 1) (fun s => s.queue = [])

/-- What holds of a chain in place, with its head at stage `k`. -/
structure Clear (L : Line σ ρ) (k : ℕ) (c : Chain) : Prop where
  spans : c.Spans k L.size
  way : L.WayClear k (k + c.links.length)
  chains : L.Each (k + 1) (k + c.links.length) (fun s => s.chain = none)

/-- What holds of one stage: the actions queued at it fit, and its chain is in place. -/
def SoundAt (L : Line σ ρ) (k : ℕ) (s : Stage σ ρ) : Prop :=
  (∀ a ∈ s.pending, a.Fits k L.size) ∧ ∀ c, s.chain = some c → L.Clear k c

/-- All stages from `k` on are sound. -/
def Sound (L : Line σ ρ) (k : ℕ) : Prop := ∀ m s, k ≤ m → L.stages[m]? = some s → L.SoundAt m s

theorem Sound.mono {L : Line σ ρ} {k j : ℕ} (h : L.Sound k) (hj : k ≤ j) : L.Sound j :=
  fun m s hm hs => h m s (by omega) hs

/-- A stage and all later ones. -/
theorem Sound.of_succ {L : Line σ ρ} {k : ℕ} (h : L.Sound (k + 1))
    (hk : ∀ s, L.stages[k]? = some s → L.SoundAt k s) : L.Sound k := by
  intro m s hm hs
  by_cases hmk : m = k
  · subst hmk
    exact hk s hs
  · exact h m s (by omega) hs

theorem WayClear.imp {L L' : Line σ ρ} {p e : ℕ} (h : L.WayClear p e)
    (himp : ∀ m s', p ≤ m → m ≤ e → L'.stages[m]? = some s' → ∃ s, L.stages[m]? = some s ∧
      (m < e → s.buffer = [] → s'.buffer = []) ∧ (p < m → s.queue = [] → s'.queue = [])) :
    L'.WayClear p e where
  buffers := h.buffers.imp fun m s' hm hm' hs' =>
    let ⟨s, hs, hb, _⟩ := himp m s' hm (by omega) hs'
    ⟨s, hs, hb hm'⟩
  queues := h.queues.imp fun m s' hm hm' hs' =>
    let ⟨s, hs, _, hq⟩ := himp m s' (by omega) (by omega) hs'
    ⟨s, hs, hq (by omega)⟩

theorem WayClear.modify {L : Line σ ρ} {p e : ℕ} (h : L.WayClear p e) (j : ℕ)
    {f : Stage σ ρ → Stage σ ρ}
    (hf : ∀ s, (s.buffer = [] → (f s).buffer = []) ∧ (s.queue = [] → (f s).queue = [])) :
    (L.modify j f).WayClear p e := by
  refine h.imp fun m s' _ _ hs' => ?_
  obtain ⟨s, hs, rfl⟩ := getElem?_modify_eq_some hs'
  refine ⟨s, hs, fun _ hb => ?_, fun _ hq => ?_⟩
  · split_ifs
    · exact (hf s).1 hb
    · exact hb
  · split_ifs
    · exact (hf s).2 hq
    · exact hq

/-- A chain stays in place if nothing arrives on the way that it bypasses, and none of its stages
becomes the head of a chain. -/
theorem Clear.imp {L L' : Line σ ρ} {k : ℕ} {c : Chain} (h : L.Clear k c) (hsize : L'.size = L.size)
    (himp : ∀ m s', k ≤ m → m ≤ k + c.links.length → L'.stages[m]? = some s' →
      ∃ s, L.stages[m]? = some s ∧
        (m < k + c.links.length → s.buffer = [] → s'.buffer = []) ∧
        (k < m → s.queue = [] → s'.queue = []) ∧
        (k < m → m < k + c.links.length → s.chain = none → s'.chain = none)) : L'.Clear k c where
  spans := hsize ▸ h.spans
  way := h.way.imp fun m s' hm hm' hs' =>
    let ⟨s, hs, hb, hq, _⟩ := himp m s' hm hm' hs'
    ⟨s, hs, hb, hq⟩
  chains := h.chains.imp fun m s' hm hm' hs' =>
    let ⟨s, hs, _, _, hc⟩ := himp m s' (by omega) (by omega) hs'
    ⟨s, hs, hc (by omega) hm'⟩

/-- A line stays sound if stages only lose what waits at them, or get actions that fit. -/
theorem Sound.imp {L L' : Line σ ρ} {k : ℕ} (h : L.Sound k) (hsize : L'.size = L.size)
    (himp : ∀ m s', k ≤ m → L'.stages[m]? = some s' → ∃ s, L.stages[m]? = some s ∧
      (∀ a ∈ s'.pending, a ∈ s.pending ∨ a.Fits m L.size) ∧
      (s'.chain = s.chain ∨ s'.chain = none) ∧ (s.buffer = [] → s'.buffer = []) ∧
      (s.queue = [] → s'.queue = [])) : L'.Sound k := by
  intro m s' hm hs'
  obtain ⟨s, hs, hpending, hchain, -, -⟩ := himp m s' hm hs'
  obtain ⟨hfits, hclear⟩ := h m s hm hs
  refine ⟨fun a ha => hsize ▸ (hpending a ha).elim (hfits a) id, fun c hc => ?_⟩
  -- no stage gets a chain, so that a chain of `L'` was in place in `L`
  have hc' : s.chain = some c := by
    rcases hchain with hsame | hnone
    · rw [← hsame, hc]
    · rw [hnone] at hc
      cases hc
  refine (hclear c hc').imp hsize fun q r' hq _ hr' => ?_
  obtain ⟨r, hr, -, hchain', hb, hqueue⟩ := himp q r' (by omega) hr'
  refine ⟨r, hr, fun _ => hb, fun _ => hqueue, fun _ _ hnone => ?_⟩
  rcases hchain' with hsame | hnone'
  · rw [hsame, hnone]
  · exact hnone'

/-- A line stays sound if one stage only loses what waits at it. -/
theorem Sound.modify {L : Line σ ρ} {k : ℕ} (h : L.Sound k) (j : ℕ) (f : Stage σ ρ → Stage σ ρ)
    (hf : ∀ s, (∀ a ∈ (f s).pending, a ∈ s.pending) ∧ ((f s).chain = s.chain ∨ (f s).chain = none) ∧
      (s.buffer = [] → (f s).buffer = []) ∧ (s.queue = [] → (f s).queue = [])) :
    (L.modify j f).Sound k := by
  refine h.imp (size_modify L j f) fun m s' _ hs' => ?_
  obtain ⟨s, hs, rfl⟩ := getElem?_modify_eq_some hs'
  obtain ⟨hpending, hwaits⟩ := hf s
  refine ⟨s, hs, ?_⟩
  by_cases hm : m = j
  · rw [if_pos hm]
    exact ⟨fun a ha => .inl (hpending a ha), hwaits⟩
  · rw [if_neg hm]
    exact ⟨fun _ ha => .inl ha, .inl rfl, fun hb => hb, fun hq => hq⟩

/-- An action that fits may be queued. -/
theorem Sound.enqueue {L : Line σ ρ} {k j : ℕ} (h : L.Sound k) {a : GateAction}
    (ha : a.Fits j L.size) :
    (L.modify j fun s => { s with pending := s.pending ++ [a] }).Sound k := by
  refine h.imp (size_modify L j _) fun m s' _ hs' => ?_
  obtain ⟨s, hs, rfl⟩ := getElem?_modify_eq_some hs'
  refine ⟨s, hs, ?_⟩
  by_cases hm : m = j
  · rw [if_pos hm]
    refine ⟨fun b hb => ?_, .inl rfl, fun hb => hb, fun hq => hq⟩
    rcases List.mem_append.mp hb with hold | hnew
    · exact .inl hold
    · exact .inr (by rw [List.mem_singleton.mp hnew, hm]; exact ha)
  · rw [if_neg hm]
    exact ⟨fun _ ha => .inl ha, .inl rfl, fun hb => hb, fun hq => hq⟩

/-- Sending a buffer puts no record on a way that is bypassed: the buffers there are empty. -/
theorem Sound.flush {L : Line σ ρ} {k : ℕ} (h : L.Sound k) (j : ℕ) : (L.flush j).Sound k := by
  intro m s' hm hs'
  obtain ⟨s, hs, hs'⟩ := getElem?_flush_eq_some hs'
  obtain ⟨hfits, hclear⟩ := h m s hm hs
  have hsame : s'.pending = s.pending ∧ s'.chain = s.chain := by
    rw [hs']
    split_ifs <;> exact ⟨rfl, rfl⟩
  refine ⟨fun a ha => size_flush L j ▸ hfits a (hsame.1 ▸ ha), fun c hc => ?_⟩
  have hplace := hclear c (hsame.2 ▸ hc)
  refine hplace.imp (size_flush L j) fun q r' hq hq' hr' => ?_
  obtain ⟨r, hr, rfl⟩ := getElem?_flush_eq_some hr'
  refine ⟨r, hr, fun _ hb => ?_, fun hlt hqueue => ?_, fun _ _ hnone => ?_⟩
  · split_ifs <;> first | rfl | exact hb
  · split_ifs with h1 h2
    · exact hqueue
    · -- stage `q` is on the way and gets what was in the buffer before it, which is on the way too
      have hempty : ((L.stages[j]?).map Stage.buffer).getD [] = [] := by
        cases ht : L.stages[j]? with
        | none => rfl
        | some t => exact hplace.way.buffers j t (by omega) (by omega) ht
      rw [hempty, List.append_nil]
      exact hqueue
    · exact hqueue
  · split_ifs <;> exact hnone

/-- A record in the buffer of a gate that is not the head of a chain is on no way that is
bypassed. -/
theorem Sound.push {L : Line σ ρ} {k : ℕ} (h : L.Sound k)
    (hchain : ∀ s, L.stages[k]? = some s → s.chain = none) (x : ρ) : (L.push k x).Sound k := by
  have hsize : (L.push k x).size = L.size := size_modify L k _
  refine Sound.of_succ ?_ fun s' hs' => ?_
  · refine (h.mono (Nat.le_succ k)).imp hsize fun m s' hm hs' => ?_
    rw [Line.push, getElem?_modify_of_ne L (by omega)] at hs'
    exact ⟨s', hs', fun _ ha => .inl ha, .inl rfl, fun hb => hb, fun hq => hq⟩
  · obtain ⟨s, hs, rfl⟩ := getElem?_modify_eq_some hs'
    have hnone := hchain s hs
    rw [if_pos rfl]
    -- there is no chain at the gate itself that would have to stay in place
    refine ⟨fun a ha => hsize ▸ (h k s le_rfl hs).1 a ha, fun c hc => ?_⟩
    rw [show s.chain = some c from hc] at hnone
    cases hnone

/-! ### What a gate takes -/

/-- The line `L'` is what `L` becomes when the gate of stage `k` takes the records `xs`: what comes
before that gate is as it was, and in the end the records are as good as written there. -/
structure Extends (L : Line σ ρ) (k : ℕ) (xs : List ρ) (L' : Line σ ρ) : Prop where
  before : ∀ m < k, L'.stages[m]? = L.stages[m]?
  inlet : L'.stages[k]?.map Stage.inlet = L.stages[k]?.map Stage.inlet
  fixed : L'.stages.map Stage.fixed = L.stages.map Stage.fixed
  yield_eq : ∀ ys, L'.yield k ys = L.yield k (xs ++ ys)

theorem size_eq_of_fixed {L L' : Line σ ρ}
    (h : L'.stages.map Stage.fixed = L.stages.map Stage.fixed) : L'.size = L.size := by
  simpa [size] using congrArg List.length h

theorem getElem?_fixed {L L' : Line σ ρ} (h : L'.stages.map Stage.fixed = L.stages.map Stage.fixed)
    {m : ℕ} {s' : Stage σ ρ} (hs' : L'.stages[m]? = some s') :
    ∃ s, L.stages[m]? = some s ∧ s'.fixed = s.fixed := by
  have heq := congrArg (fun l => l[m]?) h
  simp only [List.getElem?_map, hs', Option.map_some] at heq
  obtain ⟨s, hs, hf⟩ := Option.map_eq_some_iff.mp heq.symm
  exact ⟨s, hs, hf.symm⟩

theorem fixed_modify (L : Line σ ρ) (k : ℕ) {f : Stage σ ρ → Stage σ ρ}
    (hf : ∀ s, (f s).fixed = s.fixed) :
    (L.modify k f).stages.map Stage.fixed = L.stages.map Stage.fixed := by
  refine List.ext_getElem? fun m => ?_
  rw [List.getElem?_map, List.getElem?_map]
  by_cases hm : m = k
  · subst hm
    rw [getElem?_modify_self, Option.map_map]
    congr 1
    funext s
    exact hf s
  · rw [getElem?_modify_of_ne L hm]

theorem Extends.refl (L : Line σ ρ) (k : ℕ) : L.Extends k [] L :=
  ⟨fun _ _ => rfl, rfl, rfl, fun _ => rfl⟩

theorem Extends.trans {L L' L'' : Line σ ρ} {k : ℕ} {xs ys : List ρ} (h : L.Extends k xs L')
    (h' : L'.Extends k ys L'') : L.Extends k (xs ++ ys) L'' where
  before m hm := (h'.before m hm).trans (h.before m hm)
  inlet := h'.inlet.trans h.inlet
  fixed := h'.fixed.trans h.fixed
  yield_eq zs := by rw [h'.yield_eq, h.yield_eq, List.append_assoc]

/-- A later gate that takes nothing, but where something moves on. -/
theorem Extends.of_le {L L' : Line σ ρ} {j k : ℕ} (h : L.Extends k [] L') (hk : k < L.size)
    (hj : j ≤ k) : L.Extends j [] L' where
  before m hm := h.before m (by omega)
  inlet := by
    by_cases hjk : j = k
    · subst hjk
      exact h.inlet
    · rw [h.before j (by omega)]
  fixed := h.fixed
  yield_eq := yield_eq_of_le (size_eq_of_fixed h.fixed) hk h.before h.inlet h.yield_eq hj

/-- A change of what counts for nothing but control. -/
theorem extends_modify (L : Line σ ρ) {k j : ℕ} (hk : k ≤ j) {f : Stage σ ρ → Stage σ ρ}
    (hbuf : ∀ s, (f s).buffer = s.buffer) (hinlet : ∀ s, (f s).inlet = s.inlet)
    (hfixed : ∀ s, (f s).fixed = s.fixed) : L.Extends k [] (L.modify j f) where
  before m hm := getElem?_modify_of_ne L (by omega) f
  inlet := by
    by_cases hkj : k = j
    · subst hkj
      rw [getElem?_modify_self, Option.map_map]
      congr 1
      funext s
      exact hinlet s
    · rw [getElem?_modify_of_ne L hkj]
  fixed := fixed_modify L j hfixed
  yield_eq ys := yield_modify L j f hbuf hinlet k ys

theorem extends_push {L : Line σ ρ} {k : ℕ} (hk : k < L.size) (x : ρ) :
    L.Extends k [x] (L.push k x) where
  before m hm := getElem?_modify_of_ne L (by omega) _
  inlet := by
    rw [push, getElem?_modify_self, Option.map_map]
    rfl
  fixed := fixed_modify L k fun _ => rfl
  yield_eq ys := yield_push hk x ys

theorem fixed_leave (L : Line σ ρ) (k : ℕ) (xs : List ρ) :
    (L.leave k xs).stages.map Stage.fixed = L.stages.map Stage.fixed := by
  unfold leave
  split
  · exact fixed_modify L (k + 1) fun _ => rfl
  · rfl

theorem extends_flush (L : Line σ ρ) {k : ℕ} (hk : k < L.size) : L.Extends k [] (L.flush k) where
  before m hm := by
    obtain ⟨s', hs'⟩ := exists_stage (L := L.flush k) (k := m) (by rw [size_flush]; omega)
    obtain ⟨s, hs, rfl⟩ := getElem?_flush_eq_some hs'
    rw [hs', hs, if_neg (by omega), if_neg (by omega)]
  inlet := by
    obtain ⟨s', hs'⟩ := exists_stage (L := L.flush k) (k := k) (by rw [size_flush]; omega)
    obtain ⟨s, hs, rfl⟩ := getElem?_flush_eq_some hs'
    rw [hs', hs, if_pos rfl]
    rfl
  fixed := by
    unfold flush
    split
    · exact (fixed_leave _ k _).trans (fixed_modify L k fun _ => rfl)
    · rfl
  yield_eq := yield_flush L k

/-! ### Idle stages -/

/-- The threads of all stages behind stage `k` are between two records. -/
def IdleAfter (L : Line σ ρ) (k : ℕ) : Prop :=
  ∀ m s, k < m → L.stages[m]? = some s → s.working = some false

theorem IdleAfter.mono {L : Line σ ρ} {k j : ℕ} (h : L.IdleAfter k) (hj : k ≤ j) : L.IdleAfter j :=
  fun m s hm hs => h m s (by omega) hs

theorem IdleAfter.congr {L L' : Line σ ρ} {k : ℕ} (h : L.IdleAfter k)
    (hfixed : L'.stages.map Stage.fixed = L.stages.map Stage.fixed) : L'.IdleAfter k := by
  intro m s' hm hs'
  obtain ⟨s, hs, hf⟩ := getElem?_fixed hfixed hs'
  rw [Stage.fixed, Stage.fixed, Prod.mk.injEq] at hf
  rw [hf.2]
  exact h m s hm hs

/-! ### What passes through a chain -/

/-- The line `L'` is what `L` becomes when the records `xs` pass from gate `p` through all stages up
to `e`, and what the last one makes of them is written to its gate. -/
structure Passes (L : Line σ ρ) (p e : ℕ) (xs : List ρ) (L' : Line σ ρ) : Prop where
  before : ∀ m ≤ p, L'.stages[m]? = L.stages[m]?
  between : ∀ m, p < m → m < e → L'.stages[m]?.map Stage.contents = L.stages[m]?.map Stage.contents
  last : L'.stages[e]?.map Stage.queue = L.stages[e]?.map Stage.queue
  fixed : L'.stages.map Stage.fixed = L.stages.map Stage.fixed
  sound : L'.Sound e
  yield_eq : ∀ ys, L'.yield p ys = L.yield p (xs ++ ys)

/-- If a stage behind a clear way has worked on some records, and what it made of them is as good as
written to its gate, then the records themselves are as good as written to the gate before it. -/
theorem yield_eq_of_after {L L' : Line σ ρ} {p : ℕ} {next : Stage σ ρ} {xs : List ρ}
    (hway : L.WayClear p (p + 1)) (hnext : L.stages[p + 1]? = some next)
    (hbefore : L'.stages[p]? = L.stages[p]?)
    (hinlet : L'.stages[p + 1]?.map Stage.inlet = some (next.after xs).inlet)
    (h : ∀ ys, L'.yield (p + 1) ys
      = (L.modify (p + 1) (·.after xs)).yield (p + 1) (next.makes xs ++ ys)) (ys : List ρ) :
    L'.yield p ys = L.yield p (xs ++ ys) := by
  obtain ⟨s, hs⟩ := exists_stage (L := L) (k := p) (by have := lt_size hnext; omega)
  have hbuf : s.buffer = [] := hway.buffers p s le_rfl (by omega) hs
  have hqueue : next.queue = [] := hway.queues (p + 1) next le_rfl (by omega) hnext
  obtain ⟨next', hnext', hsame⟩ := Option.map_eq_some_iff.mp hinlet
  simp only [Stage.inlet, Prod.mk.injEq] at hsame
  obtain ⟨hcode, hmemory, hqueue'⟩ := hsame
  have hmakes : next'.makes ys = (next.after xs).makes ys := by
    rw [Stage.makes, Stage.makes, hcode, hmemory]
  have hempty : next'.queue = [] := hqueue'.trans hqueue
  -- nothing waits between gate `p` and the stage, so that `xs` come before `ys` there as well
  calc L'.yield p ys
      = L'.yield (p + 1) (next'.makes (next'.queue ++ s.buffer ++ ys)) :=
        yield_of_succ (hbefore.trans hs) hnext' ys
    _ = L'.yield (p + 1) ((next.after xs).makes ys) := by
        rw [hempty, hbuf, List.nil_append, List.nil_append, hmakes]
    _ = L.yield (p + 1) (next.makes xs ++ (next.after xs).makes ys) := by
        rw [h, yield_modify_self L (p + 1) (·.after xs) (fun _ => rfl)]
    _ = L.yield p (xs ++ ys) := (yield_advance hs hnext hbuf hqueue xs ys).symm

theorem WayClear.mono {L : Line σ ρ} {p e p' e' : ℕ} (h : L.WayClear p e) (hp : p ≤ p')
    (he : e' ≤ e) : L.WayClear p' e' :=
  ⟨h.buffers.mono hp he, h.queues.mono (by omega) (by omega)⟩

/-- The last stage has worked on the records and its gate takes what it made of them. -/
theorem passes_last {L L' : Line σ ρ} {p : ℕ} {next : Stage σ ρ} {xs : List ρ}
    (hway : L.WayClear p (p + 1)) (hnext : L.stages[p + 1]? = some next)
    (h : (L.modify (p + 1) (·.after xs)).Extends (p + 1) (next.makes xs) L')
    (hsound : L'.Sound (p + 1)) : L.Passes p (p + 1) xs L' where
  before m hm := by rw [h.before m (by omega), getElem?_modify_of_ne L (by omega)]
  between m hm hm' := by omega
  last := by
    have := congrArg (Option.map fun i : (σ → ρ → List ρ × σ) × σ × List ρ => i.2.2) h.inlet
    rw [getElem?_modify_self, Option.map_map, Option.map_map, Option.map_map] at this
    exact this
  fixed := h.fixed.trans (fixed_modify L (p + 1) fun _ => rfl)
  sound := hsound
  yield_eq := by
    refine yield_eq_of_after hway hnext ?_ ?_ h.yield_eq
    · rw [h.before p (by omega), getElem?_modify_of_ne L (by omega)]
    · rw [h.inlet, getElem?_modify_self, hnext]
      rfl

/-- A stage has worked on the records, and what it made of them passes through the stages behind
it. -/
theorem passes_cons {L L' : Line σ ρ} {p e : ℕ} {next : Stage σ ρ} {xs : List ρ}
    (hway : L.WayClear p e) (hnext : L.stages[p + 1]? = some next) (he : p + 1 < e)
    (h : (L.modify (p + 1) (·.after xs)).Passes (p + 1) e (next.makes xs) L') :
    L.Passes p e xs L' where
  before m hm := by rw [h.before m (by omega), getElem?_modify_of_ne L (by omega)]
  between m hm hm' := by
    by_cases hmp : m = p + 1
    · subst hmp
      rw [h.before _ le_rfl, getElem?_modify_self, Option.map_map]
      rfl
    · rw [h.between m (by omega) hm', getElem?_modify_of_ne L hmp]
  last := by rw [h.last, getElem?_modify_of_ne L (by omega)]
  fixed := h.fixed.trans (fixed_modify L (p + 1) fun _ => rfl)
  sound := h.sound
  yield_eq := by
    refine yield_eq_of_after (hway.mono le_rfl (by omega)) hnext ?_ ?_ h.yield_eq
    · rw [h.before p (by omega), getElem?_modify_of_ne L (by omega)]
    · rw [h.before _ le_rfl, getElem?_modify_self, hnext]
      rfl

theorem Passes.refl {L : Line σ ρ} {p e : ℕ} (h : L.Sound e) : L.Passes p e [] L :=
  ⟨fun _ _ => rfl, fun _ _ _ => rfl, rfl, rfl, h, fun _ => rfl⟩

theorem Passes.trans {L L' L'' : Line σ ρ} {p e : ℕ} {xs ys : List ρ} (h : L.Passes p e xs L')
    (h' : L'.Passes p e ys L'') : L.Passes p e (xs ++ ys) L'' where
  before m hm := (h'.before m hm).trans (h.before m hm)
  between m hm hm' := (h'.between m hm hm').trans (h.between m hm hm')
  last := h'.last.trans h.last
  fixed := h'.fixed.trans h.fixed
  sound := h'.sound
  yield_eq zs := by rw [h'.yield_eq, h.yield_eq, List.append_assoc]

theorem Passes.extends {L L' : Line σ ρ} {p e : ℕ} {xs : List ρ} (h : L.Passes p e xs L') :
    L.Extends p xs L' where
  before m hm := h.before m (by omega)
  inlet := by rw [h.before p le_rfl]
  fixed := h.fixed
  yield_eq := h.yield_eq

/-- A stage before the last one, after records have passed: everything that waits at it is as it
was. -/
theorem Passes.contents {L L' : Line σ ρ} {p e : ℕ} {xs : List ρ} (h : L.Passes p e xs L') {m : ℕ}
    (hm : m < e) : L'.stages[m]?.map Stage.contents = L.stages[m]?.map Stage.contents := by
  by_cases hmp : m ≤ p
  · rw [h.before m hmp]
  · exact h.between m (by omega) hm

theorem Passes.queue {L L' : Line σ ρ} {p e : ℕ} {xs : List ρ} (h : L.Passes p e xs L') {m : ℕ}
    (hm : m ≤ e) : L'.stages[m]?.map Stage.queue = L.stages[m]?.map Stage.queue := by
  by_cases hme : m = e
  · rw [hme]
    exact h.last
  · have := congrArg (Option.map Prod.fst) (h.contents (m := m) (by omega))
    rwa [Option.map_map, Option.map_map] at this

/-- A property of what waits at stages is not touched by records that pass. -/
theorem Passes.each {L L' : Line σ ρ} {p e : ℕ} {xs : List ρ} (h : L.Passes p e xs L') {a b : ℕ}
    (hb : b ≤ e) {P : Stage σ ρ → Prop} (hP : ∀ s s', Stage.contents s' = s.contents → P s → P s')
    (heach : L.Each a b P) : L'.Each a b P :=
  heach.congr Stage.contents hP fun _ _ hm' => h.contents (by omega)

theorem Passes.each_queue {L L' : Line σ ρ} {p e : ℕ} {xs : List ρ} (h : L.Passes p e xs L')
    {a b : ℕ} (hb : b ≤ e + 1) (heach : L.Each a b (fun s => s.queue = [])) :
    L'.Each a b (fun s => s.queue = []) :=
  heach.congr Stage.queue (fun _ _ hq hs => hq.trans hs) fun _ _ hm' => h.queue (by omega)

theorem Passes.wayClear {L L' : Line σ ρ} {p e : ℕ} {xs : List ρ} (h : L.Passes p e xs L') {p' : ℕ}
    (hway : L.WayClear p' e) : L'.WayClear p' e where
  buffers := by
    refine h.each le_rfl (fun s s' hc hb => ?_) hway.buffers
    simp only [Stage.contents, Prod.mk.injEq] at hc
    rw [hc.2.1, hb]
  queues := h.each_queue le_rfl hway.queues

/-- Records that pass through a chain in place leave the line sound. -/
theorem Passes.sound_head {L L' : Line σ ρ} {k : ℕ} {c : Chain} {xs : List ρ} {s : Stage σ ρ}
    (h : L.Passes k (k + c.links.length) xs L') (hsound : L.Sound k)
    (hs : L.stages[k]? = some s) (hc : s.chain = some c) : L'.Sound k := by
  have hclear : L.Clear k c := (hsound k s le_rfl hs).2 c hc
  have hsize := size_eq_of_fixed h.fixed
  have hclear' : L'.Clear k c := by
    refine ⟨hsize ▸ hclear.spans, h.wayClear hclear.way,
      h.each le_rfl (fun s s' hs hc => ?_) hclear.chains⟩
    simp only [Stage.contents, Prod.mk.injEq] at hs
    rw [hs.2.2.1, hc]
  intro m r' hm hr'
  by_cases hlast : k + c.links.length ≤ m
  · exact h.sound m r' hlast hr'
  · -- a stage on the way has what it had before, and only the head has a chain
    have heq := h.contents (m := m) (by omega)
    rw [hr', Option.map_some] at heq
    obtain ⟨r, hr, hsame⟩ := Option.map_eq_some_iff.mp heq.symm
    simp only [Stage.contents, Prod.mk.injEq] at hsame
    obtain ⟨-, -, hchain, hpending⟩ := hsame
    refine ⟨fun a ha => ?_, fun c' hc' => ?_⟩
    · rw [hsize]
      exact (hsound m r hm hr).1 a (hpending ▸ ha)
    · by_cases hmk : m = k
      · subst hmk
        rw [hr, Option.some.injEq] at hs
        subst hs
        rw [← hchain, hc, Option.some.injEq] at hc'
        exact hc' ▸ hclear'
      · have hnone := hclear.chains m r (by omega) (by omega) hr
        rw [← hchain, hnone] at hc'
        cases hc'

/-! ### Setting up a chain -/

/-- The buffers of a row of gates are sent, one after the other. -/
def flushAll (L : Line σ ρ) (k : ℕ) : ℕ → Line σ ρ
  | 0 => L
  | n + 1 => (L.flush k).flushAll (k + 1) n

theorem extends_flushAll (n : ℕ) : ∀ (L : Line σ ρ) (k : ℕ), k + n ≤ L.size →
    ∀ j ≤ k, L.Extends j [] (L.flushAll k n) := by
  induction n with
  | zero => exact fun L _ _ j _ => Extends.refl L j
  | succ n ih =>
    intro L k hk j hj
    have hfirst := (extends_flush L (k := k) (by omega)).of_le (by omega) hj
    have hrest := ih (L.flush k) (k + 1) (by rw [size_flush]; omega) j (by omega)
    exact hfirst.trans hrest

theorem Sound.flushAll (n : ℕ) {j : ℕ} : ∀ {L : Line σ ρ} (k : ℕ), L.Sound j →
    (L.flushAll k n).Sound j := by
  induction n with
  | zero => exact fun _ h => h
  | succ n ih => exact fun k h => ih (k + 1) (h.flush k)

/-- Sending a buffer fills no buffer. -/
theorem each_buffer_flush {L : Line σ ρ} {a b k : ℕ}
    (h : L.Each a k (fun s => s.buffer = [])) (h' : L.Each (k + 1) b (fun s => s.buffer = [])) :
    (L.flush k).Each a b (fun s => s.buffer = []) := by
  intro m s' hm hm' hs'
  obtain ⟨s, hs, rfl⟩ := getElem?_flush_eq_some hs'
  split_ifs with h1 h2
  · rfl
  · exact h' m s (by omega) hm' hs
  · by_cases hmk : m < k
    · exact h m s hm hmk hs
    · exact h' m s (by omega) hm' hs

theorem each_buffer_flushAll (n : ℕ) {a : ℕ} : ∀ {L : Line σ ρ} {k : ℕ},
    L.Each a k (fun s => s.buffer = []) →
    (L.flushAll k n).Each a (k + n) (fun s => s.buffer = []) := by
  induction n with
  | zero => exact fun h => h
  | succ n ih =>
    intro L k h
    have hstep : (L.flush k).Each a (k + 1) (fun s => s.buffer = []) :=
      each_buffer_flush h fun m s hm hm' => absurd hm' (by omega)
    have := ih hstep
    rwa [show k + 1 + n = k + (n + 1) by omega] at this

/-- The chains of a row of gates are taken away, one after the other. -/
def unchainAll (L : Line σ ρ) (k : ℕ) : ℕ → Line σ ρ
  | 0 => L
  | n + 1 => (L.modify k (fun s => { s with chain := none })).unchainAll (k + 1) n

theorem extends_unchainAll (n : ℕ) : ∀ (L : Line σ ρ) (k j : ℕ), j ≤ k →
    L.Extends j [] (L.unchainAll k n) := by
  induction n with
  | zero => exact fun L _ j _ => Extends.refl L j
  | succ n ih =>
    intro L k j hj
    have hfirst : L.Extends j [] (L.modify k (fun s => { s with chain := none })) :=
      extends_modify L hj (fun _ => rfl) (fun _ => rfl) (fun _ => rfl)
    exact hfirst.trans (ih _ (k + 1) j (by omega))

theorem Sound.unchain {L : Line σ ρ} {j : ℕ} (h : L.Sound j) (k : ℕ) :
    (L.modify k (fun s => { s with chain := none })).Sound j :=
  h.modify k _ fun _ => ⟨fun _ ha => ha, .inr rfl, fun hb => hb, fun hq => hq⟩

theorem Sound.unchainAll (n : ℕ) {j : ℕ} : ∀ {L : Line σ ρ} (k : ℕ), L.Sound j →
    (L.unchainAll k n).Sound j := by
  induction n with
  | zero => exact fun _ h => h
  | succ n ih => exact fun k h => ih (k + 1) (h.unchain k)

/-- What a stage is after chains were taken away: at most its own chain is gone. -/
theorem getElem?_unchainAll_eq_some (n : ℕ) : ∀ {L : Line σ ρ} {k m : ℕ} {s' : Stage σ ρ},
    (L.unchainAll k n).stages[m]? = some s' → ∃ s, L.stages[m]? = some s ∧
      s' = if k ≤ m ∧ m < k + n then { s with chain := none } else s := by
  induction n with
  | zero =>
    intro L k m s' h
    exact ⟨s', h, by rw [if_neg (by omega)]⟩
  | succ n ih =>
    intro L k m s' h
    obtain ⟨r, hr, rfl⟩ := ih h
    obtain ⟨s, hs, rfl⟩ := getElem?_modify_eq_some hr
    refine ⟨s, hs, ?_⟩
    by_cases hm : m = k
    · rw [if_neg (by omega), if_pos hm, if_pos (by omega)]
    · rw [if_neg hm]
      by_cases hmn : k + 1 ≤ m ∧ m < k + 1 + n
      · rw [if_pos hmn, if_pos (by omega)]
      · rw [if_neg hmn, if_neg (by omega)]

/-- A new chain has its head at stage `k`: all buffers up to its end were sent and the chains of its
links are gone, but nothing of what waits in front of its links has been passed on yet. -/
def prepare (L : Line σ ρ) (k : ℕ) (c : Chain) : Line σ ρ :=
  ((L.flushAll k (c.links.length + 1)).unchainAll (k + 1) c.links.length).modify k
    (fun s => { s with chain := some c })

theorem extends_prepare {L : Line σ ρ} {k : ℕ} {c : Chain} (hspans : c.Spans k L.size) :
    L.Extends k [] (L.prepare k c) := by
  have hfits := hspans.fits
  have hflush := extends_flushAll (c.links.length + 1) L k (by omega) k le_rfl
  have hunchain := extends_unchainAll c.links.length (L.flushAll k (c.links.length + 1)) (k + 1) k
    (Nat.le_succ k)
  exact (hflush.trans hunchain).trans
    (extends_modify _ le_rfl (fun _ => rfl) (fun _ => rfl) fun _ => rfl)

/-! ### Draining the links of a chain -/

/-- How far a new chain with its head at stage `k` has come: what waits at its first `n` links has
still to be passed on. -/
structure Draining (L : Line σ ρ) (k : ℕ) (c : Chain) (n : ℕ) : Prop where
  spans : c.Spans k L.size
  head : ∀ s, L.stages[k]? = some s → s.chain = some c
  pending : ∀ m s, k ≤ m → m < k + c.links.length → L.stages[m]? = some s →
    ∀ a ∈ s.pending, a.Fits m L.size
  buffers : L.Each k (k + c.links.length) (fun s => s.buffer = [])
  queues : L.Each (k + n + 1) (k + c.links.length + 1) (fun s => s.queue = [])
  chains : L.Each (k + 1) (k + c.links.length) (fun s => s.chain = none)
  sound : L.Sound (k + c.links.length)

/-- What a stage is in a line with a new chain. -/
theorem getElem?_prepare_eq_some {L : Line σ ρ} {k m : ℕ} {c : Chain} {s' : Stage σ ρ}
    (h : (L.prepare k c).stages[m]? = some s') :
    ∃ s, (L.flushAll k (c.links.length + 1)).stages[m]? = some s ∧
      s' = { s with chain :=
        if m = k then some c else if k < m ∧ m ≤ k + c.links.length then none else s.chain } := by
  obtain ⟨r, hr, rfl⟩ := getElem?_modify_eq_some h
  obtain ⟨s, hs, rfl⟩ := getElem?_unchainAll_eq_some _ hr
  refine ⟨s, hs, ?_⟩
  by_cases hm : m = k
  · rw [if_pos hm, if_pos hm, if_neg (by omega)]
  · rw [if_neg hm, if_neg hm]
    by_cases hlink : k < m ∧ m ≤ k + c.links.length
    · rw [if_pos hlink, if_pos (by omega)]
    · rw [if_neg hlink, if_neg (by omega)]

/-- All links of a new chain have still to be drained. -/
theorem Sound.draining {L : Line σ ρ} {k : ℕ} {c : Chain} (h : L.Sound k)
    (hspans : c.Spans k L.size) : (L.prepare k c).Draining k c c.links.length := by
  have hsize : (L.prepare k c).size = L.size := size_eq_of_fixed (extends_prepare hspans).fixed
  have hsize' : (L.flushAll k (c.links.length + 1)).size = L.size := by
    have hfits := hspans.fits
    exact size_eq_of_fixed (extends_flushAll _ L k (by omega) k le_rfl).fixed
  have hflushed := Sound.flushAll (c.links.length + 1) k h
  have hpositive : 0 < c.links.length := List.length_pos_iff.mpr hspans.nonempty
  -- the chains of the links are gone; from the end of the chain on, those in place are untouched
  refine ⟨hsize ▸ hspans, fun s' hs' => ?_, fun m s' hm _ hs' a ha => ?_, fun m s' hm hm' hs' => ?_,
    fun m s' hm hm' => ?_, fun m s' hm hm' hs' => ?_, ?_⟩
  · obtain ⟨s, -, rfl⟩ := getElem?_prepare_eq_some hs'
    simp
  · obtain ⟨s, hs, rfl⟩ := getElem?_prepare_eq_some hs'
    rw [hsize, ← hsize']
    exact (hflushed m s hm hs).1 a ha
  · obtain ⟨s, hs, rfl⟩ := getElem?_prepare_eq_some hs'
    exact each_buffer_flushAll (c.links.length + 1) (a := k) (fun _ _ h₁ h₂ => absurd h₂ (by omega))
      m s hm (by omega) hs
  · omega
  · obtain ⟨s, -, rfl⟩ := getElem?_prepare_eq_some hs'
    simp only
    rw [if_neg (by omega), if_pos (by omega)]
  · refine (hflushed.mono (by omega)).imp (hsize.trans hsize'.symm) fun m s' hm hs' => ?_
    obtain ⟨s, hs, rfl⟩ := getElem?_prepare_eq_some hs'
    refine ⟨s, hs, fun _ ha => .inl ha, ?_, fun hb => hb, fun hq => hq⟩
    simp only
    rw [if_neg (by omega)]
    split_ifs
    · exact .inr rfl
    · exact .inl rfl

/-- The way from the last link that still has to be drained is clear, once its queue is taken. -/
theorem Draining.wayClear {L : Line σ ρ} {k : ℕ} {c : Chain} {n : ℕ} (h : L.Draining k c (n + 1)) :
    (L.modify (k + n + 1) (fun s => { s with queue := [] })).WayClear (k + n)
      (k + c.links.length) where
  buffers := (h.buffers.mono (by omega) le_rfl).imp fun m s' _ _ hs' => by
    obtain ⟨s, hs, rfl⟩ := getElem?_modify_eq_some hs'
    refine ⟨s, hs, fun hb => ?_⟩
    split_ifs <;> exact hb
  queues := by
    intro m s' hm hm' hs'
    obtain ⟨s, hs, rfl⟩ := getElem?_modify_eq_some hs'
    split_ifs with hmn
    · rfl
    · exact h.queues m s (by omega) hm' hs

section Drained

variable {L L' : Line σ ρ} {k : ℕ} {c : Chain} {n : ℕ} {s : Stage σ ρ}

/-- What waits at a stage of the chain is as it was when one link was drained, except for the queue
that was taken. -/
theorem Passes.exists_drained {e : ℕ} {xs : List ρ}
    (h : (L.modify (k + n + 1) (fun s => { s with queue := [] })).Passes (k + n) e xs L') {m : ℕ}
    (hm : m < e) {s' : Stage σ ρ} (hs' : L'.stages[m]? = some s') :
    ∃ s, L.stages[m]? = some s ∧ s'.buffer = s.buffer ∧ s'.chain = s.chain ∧
      s'.pending = s.pending := by
  have heq := h.contents hm
  rw [hs', Option.map_some] at heq
  obtain ⟨r, hr, hcontents⟩ := Option.map_eq_some_iff.mp heq.symm
  obtain ⟨s, hs, rfl⟩ := getElem?_modify_eq_some hr
  simp only [Stage.contents, Prod.mk.injEq] at hcontents
  obtain ⟨-, hb, hc, hp⟩ := hcontents
  refine ⟨s, hs, ?_⟩
  split_ifs at hb hc hp <;> exact ⟨hb.symm, hc.symm, hp.symm⟩

/-- One link is drained: its queue is taken and passes through the rest of the chain.  Seen from the
gate before the link, the queue is taken and written anew. -/
theorem Draining.extends (h : L.Draining k c (n + 1)) (hn : n < c.links.length)
    (hs : L.stages[k + n + 1]? = some s)
    (hpass : (L.modify (k + n + 1) (fun s => { s with queue := [] })).Passes (k + n)
      (k + c.links.length) s.queue L') : L.Extends k [] L' := by
  have hfix : (L.modify (k + n + 1) (fun s => { s with queue := [] })).stages.map Stage.fixed
      = L.stages.map Stage.fixed := fixed_modify L _ fun _ => rfl
  have hbefore : ∀ m ≤ k + n, L'.stages[m]? = L.stages[m]? := fun m hm => by
    rw [hpass.before m hm, getElem?_modify_of_ne L (by omega)]
  have hsize : k + n < L.size := by
    have := lt_size hs
    omega
  obtain ⟨t, ht⟩ := exists_stage hsize
  have hyield : ∀ ys, L'.yield (k + n) ys = L.yield (k + n) ys := by
    intro ys
    have hnext : (L.modify (k + n + 1) (fun s => { s with queue := [] })).stages[k + n + 1]?
        = some { s with queue := [] } := by
      rw [getElem?_modify_self, hs, Option.map_some]
    have ht' : (L.modify (k + n + 1) (fun s => { s with queue := [] })).stages[k + n]?
        = some t := by
      rw [getElem?_modify_of_ne L (by omega), ht]
    have hempty : t.buffer = [] := h.buffers (k + n) t (by omega) (by omega) ht
    rw [hpass.yield_eq, yield_of_succ ht' hnext, yield_of_succ ht hs, hempty,
      yield_modify_self L (k + n + 1) (fun s => { s with queue := [] }) (fun _ => rfl)]
    simp [Stage.makes]
  have hlink : L.Extends (k + n) [] L' :=
    ⟨fun m hm => hbefore m (by omega), by rw [hbefore _ le_rfl], hpass.fixed.trans hfix, hyield⟩
  exact hlink.of_le hsize (by omega)

/-- What waits at the links before the one that was drained has still to be passed on. -/
theorem Draining.step (h : L.Draining k c (n + 1)) (hn : n < c.links.length)
    (hs : L.stages[k + n + 1]? = some s)
    (hpass : (L.modify (k + n + 1) (fun s => { s with queue := [] })).Passes (k + n)
      (k + c.links.length) s.queue L') : L'.Draining k c n := by
  have hext := h.extends hn hs hpass
  have hsize : L'.size = L.size := size_eq_of_fixed hext.fixed
  refine ⟨hsize ▸ h.spans, fun r' hr' => ?_, fun m r' hm hm' hr' a ha => ?_, ?_, ?_, ?_,
    hpass.sound⟩
  · obtain ⟨r, hr, -, hc, -⟩ := hpass.exists_drained (by omega) hr'
    exact hc.trans (h.head r hr)
  · obtain ⟨r, hr, -, -, hp⟩ := hpass.exists_drained hm' hr'
    rw [hsize]
    exact h.pending m r hm hm' hr a (hp ▸ ha)
  · refine h.buffers.imp fun m r' hm hm' hr' => ?_
    obtain ⟨r, hr, hb, -, -⟩ := hpass.exists_drained hm' hr'
    exact ⟨r, hr, fun hempty => hb.trans hempty⟩
  · exact hpass.each_queue le_rfl (h.wayClear.queues)
  · refine h.chains.imp fun m r' hm hm' hr' => ?_
    obtain ⟨r, hr, -, hc, -⟩ := hpass.exists_drained hm' hr'
    exact ⟨r, hr, fun hnone => hc.trans hnone⟩

end Drained

/-- When all links are drained, the chain is in place. -/
theorem Draining.sound_of_zero {L : Line σ ρ} {k : ℕ} {c : Chain} (h : L.Draining k c 0) :
    L.Sound k := by
  intro m s hm hs
  by_cases hlast : k + c.links.length ≤ m
  · exact h.sound m s hlast hs
  · refine ⟨h.pending m s hm (by omega) hs, fun c' hc' => ?_⟩
    by_cases hmk : m = k
    · subst hmk
      rw [h.head s hs, Option.some.injEq] at hc'
      exact hc' ▸ ⟨h.spans, ⟨h.buffers, h.queues⟩, h.chains⟩
    · rw [h.chains m s (by omega) (by omega) hs] at hc'
      cases hc'

end Line

end LatencyControl
