import LatencyControl.Proofs.Flow.LineWorld
import LatencyControl.Proofs.Flow.Success

/-!
# Writing in a line

What the activities that make up a write do to a line.  `World.HasTaken` is what they all come to:
the line is what becomes of it when a gate takes some records, none or one of them as a rule.
`Flow.WritesAt write sink size k` is the contract of a way of writing at the gate of stage `k`: it
succeeds, and the gate has taken the record.  Everything that happens inside of a write at stage `k`
only writes at later stages, so all activities of a write keep their promises if the contract holds
for later stages (`writesAt_writeOnce`), and with enough depth it holds for all of them
(`writesAt_writeWithin`).
-/

namespace LatencyControl

variable {σ ρ : Type}

/-! ### Channels of connected receivers -/

namespace Channel

variable {τ : Type}

theorem flush_connected (c : Channel τ ρ) :
    (c.flush true).1 = .ok c.buffer ∧ (c.flush true).2.buffer = [] := by
  unfold flush
  split
  · next hempty =>
    have hnil : c.buffer = [] := List.isEmpty_iff.mp hempty
    exact ⟨by rw [hnil], hnil⟩
  · exact ⟨rfl, rfl⟩

/-- A record that is written stays in the buffer, or is sent with everything before it. -/
theorem write_connected [Millis τ] (c : Channel τ ρ) (now : τ) (record : ρ) :
    ((c.write now true record).1 = .ok [] ∧
        (c.write now true record).2.buffer = c.buffer ++ [record]) ∨
      ((c.write now true record).1 = .ok (c.buffer ++ [record]) ∧
        (c.write now true record).2.buffer = []) := by
  unfold write
  dsimp only
  split
  · exact .inr (flush_connected (c.push now record))
  · exact .inl ⟨rfl, rfl⟩

end Channel

/-! ### What a gate has taken -/

/-- The instance shows what has become of a line whose gate at stage `k` has taken some records, and
the chains from there on are in place. -/
def World.HasTaken (sink : ℕ) (L : Line σ ρ) (k : ℕ) (xs : List ρ) (w : World σ ρ) : Prop :=
  ∃ L', w.Shows sink L' ∧ L.Extends k xs L' ∧ L'.Sound k

theorem World.Shows.hasTaken_nil {sink k : ℕ} {w : World σ ρ} {L : Line σ ρ} (h : w.Shows sink L)
    (hsound : L.Sound k) : w.HasTaken sink L k [] := ⟨L, h, Line.Extends.refl L k, hsound⟩

/-- What was taken before comes first. -/
theorem Line.Extends.hasTaken {sink k : ℕ} {w : World σ ρ} {L L' : Line σ ρ} {xs ys : List ρ}
    (hext : L.Extends k xs L') (h : w.HasTaken sink L' k ys) : w.HasTaken sink L k (xs ++ ys) := by
  obtain ⟨L'', h, hext', hsound⟩ := h
  exact ⟨L'', h, hext.trans hext', hsound⟩

namespace Flow

variable {write : GateRef → ρ → Flow σ ρ Unit} {sink k : ℕ} {w : World σ ρ} {L : Line σ ρ}

/-- What a way of writing does at the gate of stage `k`, in lines of the given size. -/
def WritesAt (write : GateRef → ρ → Flow σ ρ Unit) (sink size k : ℕ) : Prop :=
  ∀ (w : World σ ρ) (L : Line σ ρ) (x : ρ), w.Shows sink L → L.size = size → k < size →
    L.Sound k → L.IdleAfter k →
    (write { task := k, gate := 0 } x).Succeeds w fun _ w' => w'.HasTaken sink L k [x]

/-! ### Sending -/

/-- Nobody works off what arrives, as threads wait for their turns. -/
theorem succeeds_deliver (h : w.Shows sink L) {size : ℕ} (hsize : L.size = size) (k : ℕ)
    (xs : List ρ) :
    (deliver write (lineReceiver k size sink, xs)).Succeeds w fun _ w' =>
      w'.Shows sink (L.leave k xs) := by
  subst hsize
  have harrive := h.arrive k xs
  refine succeeds_bind (succeeds_modify ?_)
  split
  · refine succeeds_bind (succeeds_get ?_)
    rw [if_neg (by simp [harrive.lazy])]
    exact succeeds_pure harrive
  · exact succeeds_pure harrive

/-- The channel of a gate is replaced. -/
theorem succeeds_setOutlet (h : w.Shows sink L) (k : ℕ) (id : GateId) (c : Channel Int64 ρ) :
    (setOutlet { task := k, gate := 0 }
      (.channels { id, lanes := [⟨c, lineReceiver k L.size sink⟩] })).Succeeds w fun _ w' =>
        w'.Shows sink (L.modify k (fun s => { s with buffer := c.buffer })) :=
  succeeds_modify (h.setChannel k id c)

theorem succeeds_flushGate (h : w.Shows sink L) (hk : k < L.size) :
    (flushGate write { task := k, gate := 0 }).Succeeds w fun _ w' =>
      w'.Shows sink (L.flush k) := by
  obtain ⟨s, hs⟩ := Line.exists_stage hk
  obtain ⟨gate, hgate, ⟨-, id, c, houtlet⟩, hbuffer, -⟩ := h.exists_gate hs
  have hsent : c.buffer = s.buffer := by simpa [houtlet, Outlet.buffered] using hbuffer
  obtain ⟨hresult, hempty⟩ := c.flush_connected
  have hflush : Bank.flush { id, lanes := [⟨c, lineReceiver k L.size sink⟩] } w.isOpen
      = (.ok (), [(lineReceiver k L.size sink, c.buffer)],
        { id, lanes := [⟨(c.flush true).2, lineReceiver k L.size sink⟩] }) := by
    simp only [Bank.flush, Bank.flushLanes, h.isOpen k]
    rw [← Prod.eta (c.flush true), hresult]
  refine succeeds_bind (succeeds_outputGate hgate ?_)
  rw [houtlet]
  refine succeeds_bind (succeeds_get ?_)
  rw [hflush]
  refine succeeds_bind ((succeeds_setOutlet h k id _).mono fun _ w₁ h₁ => ?_)
  refine succeeds_bind (succeeds_bind ?_)
  refine (succeeds_deliver h₁ (Line.size_modify L k _) k c.buffer).mono fun _ w₂ h₂ => ?_
  refine succeeds_pure (succeeds_ofExcept ?_)
  rw [hempty, hsent] at h₂
  rw [Line.flush, hs]
  exact h₂

/-- A record that is written to the channel of a gate is all that happens, or the buffer is sent
with it. -/
theorem succeeds_writeChannel (h : w.Shows sink L) (hk : k < L.size) (x : ρ) :
    (writeChannel write { task := k, gate := 0 } x 0).Succeeds w fun _ w' =>
      w'.Shows sink (L.push k x) ∨ w'.Shows sink ((L.push k x).flush k) := by
  obtain ⟨s, hs⟩ := Line.exists_stage hk
  obtain ⟨gate, hgate, ⟨-, id, c, houtlet⟩, hbuffer, -⟩ := h.exists_gate hs
  have hsent : c.buffer = s.buffer := by simpa [houtlet, Outlet.buffered] using hbuffer
  have hwrite : Bank.write { id, lanes := [⟨c, lineReceiver k L.size sink⟩] } 0 w.clock w.isOpen x
      = ((c.write w.clock true x).1.map fun records => (lineReceiver k L.size sink, records),
        { id, lanes := [⟨(c.write w.clock true x).2, lineReceiver k L.size sink⟩] }) := by
    simp [Bank.write, Bank.setChannel, h.isOpen k]
  refine succeeds_bind (succeeds_get (succeeds_bind (succeeds_outputGate hgate ?_)))
  rw [houtlet]
  dsimp only
  rw [hwrite]
  refine succeeds_bind ((succeeds_setOutlet h k id _).mono fun _ w₁ h₁ => ?_)
  rcases c.write_connected w.clock x with ⟨hresult, hstays⟩ | ⟨hresult, hempty⟩
  · -- the record stays in the buffer: what leaves is nothing
    rw [hresult]
    refine succeeds_bind (succeeds_ofExcept ?_)
    refine (succeeds_deliver h₁ (Line.size_modify L k _) k []).mono fun _ w₂ h₂ => .inl ?_
    have hpush : L.modify k (fun s => { s with buffer := (c.write w.clock true x).2.buffer })
        = L.push k x := Line.modify_congr fun s' hs' => by
      rw [hstays, hsent, Option.some.inj (hs.symm.trans hs')]
    rwa [Line.leave_nil, hpush] at h₂
  · -- the record leaves with everything before it
    rw [hresult]
    refine succeeds_bind (succeeds_ofExcept ?_)
    refine (succeeds_deliver h₁ (Line.size_modify L k _) k _).mono fun _ w₂ h₂ => .inr ?_
    rw [hempty, hsent] at h₂
    rw [Line.flush_push hs]
    exact h₂

/-! ### Passing records along -/

/-- Records that are written one after the other. -/
theorem succeeds_forM_write (hwrite : WritesAt write sink L.size k) (xs : List ρ)
    (h : w.Shows sink L) (hk : k < L.size) (hsound : L.Sound k) (hidle : L.IdleAfter k) :
    (xs.forM (write { task := k, gate := 0 })).Succeeds w fun _ w' => w'.HasTaken sink L k xs := by
  induction xs generalizing w L with
  | nil => exact succeeds_pure (h.hasTaken_nil hsound)
  | cons x rest ih =>
    refine succeeds_bind ((hwrite w L x h rfl hk hsound hidle).mono ?_)
    rintro _ w₁ ⟨L₁, h₁, hext₁, hsound₁⟩
    have hsize := Line.size_eq_of_fixed hext₁.fixed
    have hrest := ih (hsize ▸ hwrite) h₁ (by omega) hsound₁ (hidle.congr hext₁.fixed)
    exact hrest.mono fun _ w₂ h₂ => hext₁.hasTaken h₂

/-- The task of a link works on some records. -/
theorem succeeds_runLink {l : ChainLink} (xs : List ρ) {s : Stage σ ρ} (h : w.Shows sink L)
    (hs : L.stages[l.task]? = some s) :
    (runLink l xs).Succeeds w fun made w' =>
      made = s.makes xs ∧ w'.Shows sink (L.modify l.task (·.after xs)) := by
  induction xs generalizing w L s with
  | nil =>
    refine succeeds_pure ⟨rfl, ?_⟩
    rwa [Line.modify_eq_self (f := (·.after [])) fun s _ => s.after_nil]
  | cons x rest ih =>
    refine succeeds_bind (succeeds_modify (succeeds_bind (succeeds_modifyGet ?_)))
    obtain ⟨hmade, hcode⟩ := (h.report l.task (.received l.input)).runCode hs x
    have hs' : (L.modify l.task (·.after [x])).stages[l.task]? = some (s.after [x]) := by
      rw [Line.getElem?_modify_self, hs, Option.map_some]
    refine succeeds_bind ((ih hcode hs').mono ?_)
    rintro later w' ⟨rfl, hlater⟩
    refine succeeds_pure ⟨?_, ?_⟩
    · rw [hmade, ← Stage.makes_append, List.singleton_append]
    · rw [Line.modify_modify] at hlater
      exact hlater

/-- Observers are told of records; nothing happens to the line. -/
theorem succeeds_forM_report (h : w.Shows sink L) (task : ℕ) (e : GateEvent) (xs : List ρ) :
    (xs.forM (fun _ => (modify (·.report task e) : Flow σ ρ Unit))).Succeeds w fun _ w' =>
      w'.Shows sink L :=
  succeeds_forM (fun _ w => w.Shows sink L) (fun _ _ _ hw => succeeds_modify (hw.report task e)) h

/-- Records pass through a row of links with a clear way. -/
theorem succeeds_passAlong (links : List ChainLink) : ∀ {w : World σ ρ} {L : Line σ ρ} {p : ℕ}
    (xs : List ρ), WritesAt write sink L.size (p + links.length) → w.Shows sink L → links ≠ [] →
    Follows (p + 1) links → p + links.length < L.size → L.WayClear p (p + links.length) →
    L.Sound (p + links.length) → L.IdleAfter (p + links.length) →
    (passAlong write links xs).Succeeds w fun _ w' =>
      ∃ L', w'.Shows sink L' ∧ L.Passes p (p + links.length) xs L' := by
  -- on the links: the first one works on the records, and what it makes passes through the rest
  induction links with
  | nil => exact fun _ _ _ hne => absurd rfl hne
  | cons l rest ih =>
    intro w L p xs hwrite h _ hfollows hsize hway hsound hidle
    obtain ⟨⟨htask, -, houtput⟩, hrest⟩ := hfollows
    obtain ⟨next, hnext⟩ := Line.exists_stage (L := L) (k := p + 1) (by
      rw [List.length_cons] at hsize
      omega)
    have hafter : (L.modify (p + 1) (·.after xs)).Sound (p + (l :: rest).length) :=
      hsound.modify (p + 1) _ fun _ => ⟨fun _ ha => ha, .inl rfl, fun hb => hb, fun hq => hq⟩
    have hfixed : (L.modify (p + 1) (·.after xs)).stages.map Stage.fixed
        = L.stages.map Stage.fixed := Line.fixed_modify L (p + 1) fun _ => rfl
    have hrun := succeeds_runLink xs h (htask ▸ hnext)
    rw [htask] at hrun
    cases rest with
    | nil =>
      -- only the last link writes to its gate, in the ordinary way
      refine succeeds_bind (hrun.mono ?_)
      rintro _ w₁ ⟨rfl, h₁⟩
      rw [ChainLink.outputRef, htask, houtput]
      refine (succeeds_forM_write (by simpa using hwrite) _ h₁ (by simpa using hsize) hafter
        (hidle.congr hfixed)).mono ?_
      rintro _ w₂ ⟨L₂, h₂, hext, hsound₂⟩
      exact ⟨L₂, h₂, Line.passes_last hway hnext hext hsound₂⟩
    | cons l' rest =>
      have hlength : p + 1 + (l' :: rest).length = p + (l :: l' :: rest).length := by
        simp only [List.length_cons]
        omega
      refine succeeds_bind (hrun.mono ?_)
      rintro _ w₁ ⟨rfl, h₁⟩
      refine succeeds_bind ((succeeds_forM_report h₁ l.task (.emitted l.output) _).mono ?_)
      intro _ w₂ h₂
      rw [← hlength] at hwrite hsize hway hafter hidle
      have hway' : (L.modify (p + 1) (·.after xs)).WayClear (p + 1) (p + 1 + (l' :: rest).length) :=
        (hway.mono (Nat.le_succ p) le_rfl).modify (p + 1) fun _ => ⟨fun hb => hb, fun hq => hq⟩
      refine (ih (next.makes xs) (by simpa using hwrite) h₂ (List.cons_ne_nil l' rest) hrest
        (by simpa using hsize) hway' hafter (hidle.congr hfixed)).mono ?_
      rintro _ w₃ ⟨L₃, h₃, hpass⟩
      refine ⟨L₃, h₃, ?_⟩
      rw [← hlength]
      exact Line.passes_cons hway hnext (by simp) hpass

/-- A record passes through a chain from one of its links on. -/
theorem succeeds_writeFrom {c : Chain} {n : ℕ}
    (hwrite : WritesAt write sink L.size (k + c.links.length)) (h : w.Shows sink L)
    (hspans : c.Spans k L.size) (hn : n < c.links.length)
    (hway : L.WayClear (k + n) (k + c.links.length)) (hsound : L.Sound (k + c.links.length))
    (hidle : L.IdleAfter k) (x : ρ) :
    (writeFrom write c n x).Succeeds w fun _ w' =>
      ∃ L', w'.Shows sink L' ∧ L.Passes (k + n) (k + c.links.length) [x] L' := by
  have hlength : k + n + (c.links.drop n).length = k + c.links.length := by
    rw [List.length_drop]
    omega
  have hfollows := hspans.follows.drop n
  rw [show k + 1 + n = k + n + 1 by omega] at hfollows
  rw [writeFrom, if_pos hn]
  rw [← hlength] at hwrite hway hsound ⊢
  have hfits := hspans.fits
  refine succeeds_passAlong (c.links.drop n) [x] hwrite h ?_ hfollows (by omega) hway hsound
    (hidle.mono (by omega))
  rw [ne_eq, List.drop_eq_nil_iff]
  omega

/-- The same for many records. -/
theorem succeeds_forM_writeFrom {c : Chain} {n : ℕ}
    (hwrite : WritesAt write sink L.size (k + c.links.length)) (h : w.Shows sink L)
    (hspans : c.Spans k L.size) (hn : n < c.links.length)
    (hway : L.WayClear (k + n) (k + c.links.length)) (hsound : L.Sound (k + c.links.length))
    (hidle : L.IdleAfter k) (xs : List ρ) :
    (xs.forM (writeFrom write c n)).Succeeds w fun _ w' =>
      ∃ L', w'.Shows sink L' ∧ L.Passes (k + n) (k + c.links.length) xs L' := by
  induction xs generalizing w L with
  | nil => exact succeeds_pure ⟨L, h, Line.Passes.refl hsound⟩
  | cons x rest ih =>
    refine succeeds_bind ((succeeds_writeFrom hwrite h hspans hn hway hsound hidle x).mono ?_)
    rintro _ w₁ ⟨L₁, h₁, hpass₁⟩
    have hsize := Line.size_eq_of_fixed hpass₁.fixed
    refine (ih (hsize ▸ hwrite) h₁ (hsize ▸ hspans) (hpass₁.wayClear hway) hpass₁.sound
      (hidle.congr hpass₁.fixed)).mono ?_
    rintro _ w₂ ⟨L₂, h₂, hpass₂⟩
    exact ⟨L₂, h₂, hpass₁.trans hpass₂⟩

/-! ### Halting and draining links -/

/-- A link comes to rest, and its buffer is sent. -/
theorem succeeds_haltLinks (millis : ℕ) (links : List ChainLink) : ∀ {w : World σ ρ}
    {L : Line σ ρ} {k : ℕ}, w.Shows sink L → Follows (k + 1) links → k + links.length < L.size →
    L.IdleAfter k →
    (haltLinks write millis links).Succeeds w fun answer w' =>
      answer.1 = .ok () ∧ w'.Shows sink (L.flushAll (k + 1) links.length) := by
  induction links with
  | nil => exact fun h _ _ _ => succeeds_pure ⟨rfl, h⟩
  | cons l rest ih =>
    intro w L k h hfollows hsize hidle
    obtain ⟨⟨htask, hinput, houtput⟩, hrest⟩ := hfollows
    rw [List.length_cons] at hsize
    have hin : l.inputRef = { task := k + 1, gate := 0 } := by
      rw [ChainLink.inputRef, htask, hinput]
    have hout : l.outputRef = { task := k + 1, gate := 0 } := by
      rw [ChainLink.outputRef, htask, houtput]
    obtain ⟨hhalt, hparked⟩ := h.halt (k := k) (by omega)
      (fun s hs => hidle (k + 1) s (Nat.lt_succ_self k) hs) millis
    refine succeeds_bind (succeeds_modifyGet ?_)
    refine succeeds_bind (succeeds_attempt ?_)
    rw [secureLink, hin, hout]
    refine succeeds_bind (succeeds_get ?_)
    rw [hparked]
    refine succeeds_bind (succeeds_ofExcept ?_)
    refine (succeeds_flushGate hhalt (by omega)).mono fun _ w₁ h₁ => ?_
    have hfixed := (Line.extends_flush L (k := k + 1) (by omega)).fixed
    refine succeeds_bind ((ih h₁ hrest (by rw [Line.size_flush]; omega)
      ((hidle.mono (Nat.le_succ k)).congr hfixed)).mono ?_)
    rintro ⟨result, later⟩ w₂ ⟨rfl, h₂⟩
    exact succeeds_pure ⟨rfl, h₂⟩

/-- What is queued at the first links of a chain passes through it, from the last of them on. -/
theorem succeeds_drainLinks {c : Chain} {n : ℕ} (hn : n ≤ c.links.length)
    (hwrite : WritesAt write sink L.size (k + c.links.length)) (h : w.Shows sink L)
    (hdrain : L.Draining k c n) (hidle : L.IdleAfter k) :
    (drainLinks write c (c.links.take n).zipIdx.reverse).Succeeds w fun _ w' =>
      w'.HasTaken sink L k [] := by
  -- from the last link to the first one: what a link has in its queue finds a clear way
  induction n generalizing w L with
  | zero => exact succeeds_pure (h.hasTaken_nil hdrain.sound_of_zero)
  | succ n ih =>
    have hlinks : (c.links.take (n + 1)).zipIdx.reverse
        = (c.links[n], n) :: (c.links.take n).zipIdx.reverse := by
      rw [List.take_add_one, List.getElem?_eq_getElem (by omega), List.zipIdx_append]
      simp [Nat.min_eq_left (show n ≤ c.links.length by omega)]
    obtain ⟨htask, hinput, -⟩ := hdrain.spans.follows.getElem (n := n) (by omega)
    have hin : (c.links[n]).inputRef = { task := k + n + 1, gate := 0 } := by
      rw [ChainLink.inputRef, htask, hinput, show k + 1 + n = k + n + 1 by omega]
    obtain ⟨s, hs⟩ := Line.exists_stage (L := L) (k := k + n + 1) (by
      have := hdrain.spans.fits
      omega)
    obtain ⟨hqueue, htake⟩ := h.takeQueue hs
    have hfixed : (L.modify (k + n + 1) (fun s => { s with queue := [] })).stages.map Stage.fixed
        = L.stages.map Stage.fixed := Line.fixed_modify L _ fun _ => rfl
    have hsound : (L.modify (k + n + 1) (fun s => { s with queue := [] })).Sound
        (k + c.links.length) :=
      hdrain.sound.modify _ _ fun _ => ⟨fun _ ha => ha, .inl rfl, fun hb => hb, fun _ => rfl⟩
    rw [hlinks]
    refine succeeds_bind (succeeds_modifyGet ?_)
    rw [hin, hqueue]
    refine succeeds_bind ((succeeds_forM_writeFrom (by simpa using hwrite) htake
      (by simpa using hdrain.spans) (by omega) hdrain.wayClear hsound (hidle.congr hfixed)
      s.queue).mono ?_)
    rintro _ w₁ ⟨L₁, h₁, hpass⟩
    have hdrain₁ := hdrain.step (by omega) hs hpass
    have hext₁ := hdrain.extends (by omega) hs hpass
    have hsize := Line.size_eq_of_fixed hext₁.fixed
    have hrest := ih (by omega) (hsize ▸ hwrite) h₁ hdrain₁ (hidle.congr hext₁.fixed)
    exact hrest.mono fun _ w₂ h₂ => hext₁.hasTaken h₂

/-! ### Setting up chains -/

/-- A chain is set up: in the end, no record has noticed. -/
theorem succeeds_install {c : Chain} (hwrite : WritesAt write sink L.size (k + c.links.length))
    (h : w.Shows sink L) (hspans : c.Spans k L.size) (hsound : L.Sound k) (hidle : L.IdleAfter k) :
    (install write { task := k, gate := 0 } c).Succeeds w fun _ w' => w'.HasTaken sink L k [] := by
  have hk : k < L.size := by
    have := hspans.fits
    omega
  -- the gate is flushed, then the links come to rest, one after the other
  have hext₁ := Line.extends_flush L hk
  refine succeeds_bind ((succeeds_flushGate h hk).mono fun _ w₁ h₁ => ?_)
  obtain ⟨s₁, hs₁⟩ := Line.exists_stage (L := L.flush k) (k := k) (by rwa [Line.size_flush])
  obtain ⟨gate, hgate, -⟩ := h₁.exists_gate hs₁
  refine succeeds_bind (succeeds_outputGate hgate ?_)
  refine succeeds_bind ((succeeds_haltLinks gate.timeout c.links h₁ hspans.follows
    (by rw [Line.size_flush]; exact hspans.fits) (hidle.congr hext₁.fixed)).mono ?_)
  rintro ⟨result, halted⟩ w₂ ⟨rfl, h₂⟩
  -- their own chains are dissolved, and the new one takes the place of the old one
  refine succeeds_bind (succeeds_modify (succeeds_bind (succeeds_modify ?_)))
  have h₃ : World.Shows sink _ (L.prepare k c) :=
    (h₂.dissolve hspans.follows).replaceChain k c
  -- what waits in front of the links passes through the chain that is there already
  have hext₃ := Line.extends_prepare hspans
  have hsize := Line.size_eq_of_fixed hext₃.fixed
  have hdrain := succeeds_drainLinks le_rfl (hsize ▸ hwrite) h₃ (hsound.draining hspans)
    (hidle.congr hext₃.fixed)
  rw [List.take_length] at hdrain
  refine succeeds_bind (succeeds_attempt (hdrain.mono fun _ w₄ h₄ => ?_))
  exact succeeds_pure (hext₃.hasTaken h₄)

/-- A chain that was queued at a running gate is set up. -/
theorem succeeds_establish {c : Chain} (hwrite : WritesAt write sink L.size (k + c.links.length))
    (h : w.Shows sink L) (hspans : c.Spans k L.size) (hsound : L.Sound k) (hidle : L.IdleAfter k) :
    (establish write { task := k, gate := 0 } c).Succeeds w fun _ w' =>
      w'.HasTaken sink L k [] := by
  obtain ⟨s, hs⟩ := Line.exists_stage (L := L) (k := k) (by
    have := hspans.fits
    omega)
  obtain ⟨gate, hgate, ⟨hrunning, -⟩, -⟩ := h.exists_gate hs
  refine succeeds_bind (succeeds_outputGate hgate ?_)
  rw [if_pos hrunning]
  refine succeeds_bind (succeeds_attempt ?_)
  refine (succeeds_install hwrite h hspans hsound hidle).mono ?_
  rintro _ w' ⟨L', h', hext, hsound'⟩
  exact succeeds_bind (succeeds_modify (succeeds_ofExcept ⟨L', h'.signal c, hext, hsound'⟩))

/-! ### Carrying out actions -/

/-- The age at which the buffer of a gate is sent does not count. -/
theorem succeeds_setTarget (h : w.Shows sink L) (hk : k < L.size) (channel : ChannelId)
    (target : Int32) :
    (perform write { task := k, gate := 0 } (.setLifetimeTarget channel target)).Succeeds w
      fun _ w' => w'.Shows sink L := by
  obtain ⟨s, hs⟩ := Line.exists_stage hk
  obtain ⟨gate, hgate, ⟨-, id, c, houtlet⟩, hbuffer, -⟩ := h.exists_gate hs
  have hsent : c.buffer = s.buffer := by simpa [houtlet, Outlet.buffered] using hbuffer
  obtain ⟨c', hc', htarget⟩ : ∃ c', c'.buffer = c.buffer ∧ gate.outlet.setTarget channel target
      = .ok (.channels { id, lanes := [⟨c', lineReceiver k L.size sink⟩] }) := by
    rw [houtlet]
    by_cases hchannel : c.id = channel
    · exact ⟨c.setTarget target, rfl, by
        simp [Outlet.setTarget, Bank.indexOf?, Bank.setTarget, Bank.setChannel, Except.map,
          hchannel, List.findIdx?_cons]⟩
    · exact ⟨c, rfl, by simp [Outlet.setTarget, Bank.indexOf?, hchannel, List.findIdx?_cons]⟩
  refine succeeds_bind (succeeds_outputGate hgate ?_)
  rw [htarget]
  refine succeeds_bind (succeeds_ofExcept ((succeeds_setOutlet h k id c').mono fun _ w' h' => ?_))
  rwa [Line.modify_eq_self fun s' hs' => by
    rw [hc', hsent, Option.some.inj (hs.symm.trans hs')]] at h'

/-- An action that fits is carried out: in the end, no record has noticed. -/
theorem succeeds_perform (hwrite : ∀ e, k < e → WritesAt write sink L.size e) (h : w.Shows sink L)
    (hk : k < L.size) (hsound : L.Sound k) (hidle : L.IdleAfter k) {a : GateAction}
    (ha : a.Fits k L.size) :
    (perform write { task := k, gate := 0 } a).Succeeds w fun _ w' => w'.HasTaken sink L k [] := by
  -- a chain writes at the gate of its last link, which comes after the gate that it is queued at
  cases a with
  | limitBufferSize channel size => exact succeeds_pure (h.hasTaken_nil hsound)
  | setLifetimeTarget channel target =>
    refine (succeeds_setTarget h hk channel target).mono fun _ w' h' => ?_
    exact h'.hasTaken_nil hsound
  | establishChain c =>
    have hpositive : 0 < c.links.length := List.length_pos_iff.mpr ha.nonempty
    exact succeeds_establish (hwrite _ (by omega)) h ha hsound hidle
  | dropChain =>
    exact succeeds_modify ⟨_, h.dropChain k,
      Line.extends_modify L le_rfl (fun _ => rfl) (fun _ => rfl) fun _ => rfl, hsound.unchain k⟩

theorem succeeds_performQueued (hwrite : ∀ e, k < e → WritesAt write sink L.size e)
    (h : w.Shows sink L) (hk : k < L.size) (hsound : L.Sound k) (hidle : L.IdleAfter k) (n : ℕ) :
    (performQueued write { task := k, gate := 0 } n).Succeeds w fun _ w' =>
      w'.HasTaken sink L k [] := by
  induction n generalizing w L with
  | zero => exact succeeds_pure (h.hasTaken_nil hsound)
  | succ n ih =>
    obtain ⟨s, hs⟩ := Line.exists_stage hk
    refine succeeds_bind (succeeds_modifyGet ?_)
    cases hpending : s.pending with
    | nil =>
      rw [h.popAction_nil hs hpending]
      exact succeeds_pure (h.hasTaken_nil hsound)
    | cons a rest =>
      obtain ⟨hfirst, hpop⟩ := h.popAction hs hpending
      have hfits : a.Fits k L.size := (hsound k s le_rfl hs).1 a (by simp [hpending])
      have hext : L.Extends k [] (L.modify k (fun s => { s with pending := s.pending.tail })) :=
        Line.extends_modify L le_rfl (fun _ => rfl) (fun _ => rfl) fun _ => rfl
      have hsound₁ : (L.modify k (fun s => { s with pending := s.pending.tail })).Sound k :=
        hsound.modify k _ fun _ =>
          ⟨fun _ => List.mem_of_mem_tail, .inl rfl, fun hb => hb, fun hq => hq⟩
      have hsize := Line.size_modify L k (fun s => { s with pending := s.pending.tail })
      rw [hfirst]
      refine succeeds_bind ((succeeds_perform (hsize ▸ hwrite) hpop (hsize ▸ hk) hsound₁
        (hidle.congr hext.fixed) (hsize ▸ hfits)).mono ?_)
      rintro _ w₂ ⟨L₂, h₂, hext₂, hsound₂⟩
      have hext' := hext.trans hext₂
      have hsize₂ := Line.size_eq_of_fixed hext'.fixed
      have hrest := ih (hsize₂ ▸ hwrite) h₂ (hsize₂ ▸ hk) hsound₂ (hidle.congr hext'.fixed)
      exact hrest.mono fun _ w₃ h₃ => hext'.hasTaken h₃

theorem succeeds_performPending (hwrite : ∀ e, k < e → WritesAt write sink L.size e)
    (h : w.Shows sink L) (hk : k < L.size) (hsound : L.Sound k) (hidle : L.IdleAfter k) :
    (performPending write { task := k, gate := 0 }).Succeeds w fun _ w' =>
      w'.HasTaken sink L k [] := by
  obtain ⟨s, hs⟩ := Line.exists_stage hk
  obtain ⟨gate, hgate, -⟩ := h.exists_gate hs
  exact succeeds_bind (succeeds_outputGate hgate
    (succeeds_performQueued hwrite h hk hsound hidle gate.pending.length))

/-! ### Writing -/

/-- A record goes to the gate's channel. -/
theorem succeeds_writeChannel_extends (h : w.Shows sink L) (hk : k < L.size) (hsound : L.Sound k)
    (hchain : ∀ s, L.stages[k]? = some s → s.chain = none) (x : ρ) :
    (writeChannel write { task := k, gate := 0 } x 0).Succeeds w fun _ w' =>
      w'.HasTaken sink L k [x] := by
  have hpush := Line.extends_push hk x
  have hsound₁ := hsound.push hchain x
  refine (succeeds_writeChannel h hk x).mono ?_
  rintro _ w' (h' | h')
  · exact ⟨_, h', hpush, hsound₁⟩
  · have hflush := Line.extends_flush (L.push k x) (k := k) (by rwa [Line.push, Line.size_modify])
    exact ⟨_, h', by simpa using hpush.trans hflush, hsound₁.flush k⟩

/-- A write keeps its promise at a gate if writes at later gates do. -/
theorem writesAt_writeOnce {size : ℕ} (hwrite : ∀ e, k < e → WritesAt write sink size e) :
    WritesAt (writeOnce write) sink size k := by
  rintro w L x h rfl hk hsound hidle
  obtain ⟨s, hs⟩ := Line.exists_stage hk
  obtain ⟨gate, hgate, ⟨hrunning, -⟩, -, hchain, -⟩ := h.exists_gate hs
  obtain ⟨hchannel, hselect⟩ := (h.report k (.emitted 0)).select hk x
  -- whichever way the record is taken, the queued actions follow
  have hpending : ∀ w₁, World.HasTaken sink L k [x] w₁ →
      (performPending write { task := k, gate := 0 }).Succeeds w₁ fun _ w' =>
        w'.HasTaken sink L k [x] := by
    rintro w₁ ⟨L₁, h₁, hext₁, hsound₁⟩
    have hsize := Line.size_eq_of_fixed hext₁.fixed
    have hrest := succeeds_performPending (hsize ▸ hwrite) h₁ (hsize ▸ hk) hsound₁
      (hidle.congr hext₁.fixed)
    exact hrest.mono fun _ w₂ h₂ => hext₁.hasTaken h₂
  refine succeeds_bind (succeeds_outputGate hgate ?_)
  rw [if_neg (by simp [hrunning])]
  refine succeeds_bind (succeeds_modify (succeeds_bind (succeeds_modifyGet ?_)))
  rw [hchannel, hchain]
  cases hc : s.chain with
  | some c =>
    -- the way that the chain bypasses is clear, so that the record overtakes nothing
    have hclear := (hsound k s le_rfl hs).2 c hc
    have hpositive : 0 < c.links.length := List.length_pos_iff.mpr hclear.spans.nonempty
    refine succeeds_bind ((succeeds_writeFrom (hwrite _ (by omega)) hselect hclear.spans hpositive
      hclear.way (hsound.mono (by omega)) hidle x).mono ?_)
    rintro _ w₁ ⟨L₁, h₁, hpass⟩
    exact hpending w₁ ⟨L₁, h₁, hpass.extends, hpass.sound_head hsound hs hc⟩
  | none =>
    have hnone : ∀ s', L.stages[k]? = some s' → s'.chain = none := fun s' hs' => by
      rw [← Option.some.inj (hs.symm.trans hs'), hc]
    refine succeeds_bind (succeeds_bind ?_)
    refine (succeeds_writeChannel_extends hselect hk hsound hnone x).mono fun _ w₁ h₁ => ?_
    exact succeeds_pure (hpending w₁ h₁)

/-- With enough depth for the rest of the line, a write keeps its promise. -/
theorem writesAt_writeWithin {size : ℕ} (depth : ℕ) (hdepth : size ≤ k + depth) :
    WritesAt (writeWithin (σ := σ) (ρ := ρ) depth) sink size k := by
  -- the depth goes down by one for each nested write, and those are at later gates
  induction depth generalizing k with
  | zero =>
    intro w L x _ _ hk
    omega
  | succ depth ih => exact writesAt_writeOnce fun e he => ih (by omega)

end Flow

end LatencyControl
