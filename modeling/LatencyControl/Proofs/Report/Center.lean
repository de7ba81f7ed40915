import Mathlib.Data.List.Count
import Mathlib.Data.List.Induction
import Mathlib.Data.List.Nodup
import Mathlib.Data.Prod.Basic
import LatencyControl.Report.Center

/-!
# Every listener is told once

A center is called to add listeners and to announce configurations, in any order and any number
(`Center.Call`).  Of all configurations with one key it keeps the one that was announced first, and
it tells each of its listeners of each configuration that it keeps, once: of the later ones when they
are announced, and of the earlier ones when the listener joins.

So the notices of a run are as many as there are pairs of a listener and a kept configuration
(`Center.count_told`).  That holds at the start, and every call adds to both sides alike.
-/

namespace LatencyControl

namespace Center

variable {ℓ : Type}

/-! ### Runs -/

/-- What a center is called for. -/
inductive Call (ℓ : Type)
  | listen (listener : ℓ)
  | announce (config : Config)
  deriving DecidableEq

/-- The listener that a call adds. -/
def Call.listener? : Call ℓ → Option ℓ
  | .listen listener => some listener
  | .announce _ => none

/-- The configuration that a call announces. -/
def Call.config? : Call ℓ → Option Config
  | .listen _ => none
  | .announce config => some config

/-- The center after a call, and what listeners are told then. -/
def step (c : Center ℓ) : Call ℓ → Center ℓ × List (Notice ℓ)
  | .listen listener => c.addListener listener
  | .announce config => (c.announce config).2

/-- The center after some calls. -/
def after (c : Center ℓ) (calls : List (Call ℓ)) : Center ℓ :=
  calls.foldl (fun c call => (c.step call).1) c

/-- What listeners are told in the course of some calls. -/
def told (c : Center ℓ) : List (Call ℓ) → List (Notice ℓ)
  | [] => []
  | call :: calls => (c.step call).2 ++ (c.step call).1.told calls

/-- Whether a configuration is the first of its key. -/
def IsFirst (config : Config) (configs : List Config) : Prop :=
  configs.find? (fun c => c.key = config.key) = some config

instance (config : Config) (configs : List Config) : Decidable (IsFirst config configs) :=
  inferInstanceAs (Decidable (_ = _))

theorem after_concat (c : Center ℓ) (calls : List (Call ℓ)) (call : Call ℓ) :
    c.after (calls ++ [call]) = ((c.after calls).step call).1 := by
  rw [after, List.foldl_append]
  rfl

theorem told_concat (c : Center ℓ) (calls : List (Call ℓ)) (call : Call ℓ) :
    c.told (calls ++ [call]) = c.told calls ++ ((c.after calls).step call).2 := by
  induction calls generalizing c with
  | nil => exact List.append_nil _
  | cons first rest ih =>
    rw [List.cons_append, told, ih, told, List.append_assoc]
    rfl

/-! ### What a center keeps -/

theorem knows_iff {c : Center ℓ} {config : Config} :
    c.knows config = true ↔ ∃ kept ∈ c.configs, kept.key = config.key := by
  rw [knows, List.contains_iff_mem, List.mem_map]

/-- **What an announcement does.**  Either its key is known, and then nothing happens; or it is
news, which is kept and told to all listeners. -/
theorem announce_cases (c : Center ℓ) (config : Config) :
    (c.knows config = true ∧ c.announce config = (false, c, [])) ∨
      (c.knows config = false ∧ c.announce config =
        (true, { c with configs := c.configs ++ [config] },
          c.listeners.map (fun listener => (listener, config)))) := by
  unfold announce
  split_ifs with hknown
  · exact .inl ⟨hknown, rfl⟩
  · exact .inr ⟨Bool.not_eq_true _ ▸ hknown, rfl⟩

/-- A center keeps all listeners, each as often as it was added. -/
theorem listeners_after (c : Center ℓ) (calls : List (Call ℓ)) :
    (c.after calls).listeners = c.listeners ++ calls.filterMap Call.listener? := by
  induction calls using List.reverseRecOn with
  | nil => exact (List.append_nil _).symm
  | append_singleton calls call ih =>
    rw [after_concat, List.filterMap_append, ← List.append_assoc, ← ih]
    cases call with
    | listen listener => rfl
    | announce config =>
      rw [step]
      rcases (c.after calls).announce_cases config with ⟨-, hsame⟩ | ⟨-, hnews⟩
      · rw [hsame]
        exact (List.append_nil _).symm
      · rw [hnews]
        exact (List.append_nil _).symm

variable {c : Center ℓ}

/-- Of the announced configurations with one key, a new center keeps the first. -/
theorem find?_configs_after (hc : c.configs = []) (calls : List (Call ℓ))
    (key : ReporterId × ManagerId) :
    (c.after calls).configs.find? (fun config => config.key = key)
      = (calls.filterMap Call.config?).find? (fun config => config.key = key) := by
  induction calls using List.reverseRecOn with
  | nil =>
    show c.configs.find? _ = none
    rw [hc]
    rfl
  | append_singleton calls call ih =>
    rw [after_concat, List.filterMap_append, List.find?_append, ← ih]
    cases call with
    | listen listener => exact (Option.or_none).symm
    | announce config =>
      rw [step]
      rcases (c.after calls).announce_cases config with ⟨hknown, hsame⟩ | ⟨-, hnews⟩
      · -- a configuration is there that hides the new one
        obtain ⟨kept, hkept, hkey⟩ := knows_iff.mp hknown
        rw [hsame]
        by_cases hsame : config.key = key
        · have hfound :
              ((c.after calls).configs.find? (fun config => config.key = key)).isSome := by
            rw [List.find?_isSome]
            exact ⟨kept, hkept, decide_eq_true (hkey.trans hsame)⟩
          rw [Option.or_of_isSome hfound]
        · have hnone : [config].find? (fun config => config.key = key) = none := by
            simp [hsame]
          exact (hnone ▸ Option.or_none).symm
      · rw [hnews]
        exact List.find?_append

/-- The configurations that a new center keeps have different keys. -/
theorem nodup_keys_after (hc : c.configs = []) (calls : List (Call ℓ)) :
    ((c.after calls).configs.map Config.key).Nodup := by
  induction calls using List.reverseRecOn with
  | nil =>
    show (c.configs.map Config.key).Nodup
    rw [hc]
    exact List.nodup_nil
  | append_singleton calls call ih =>
    rw [after_concat]
    cases call with
    | listen listener => exact ih
    | announce config =>
      rw [step]
      rcases (c.after calls).announce_cases config with ⟨-, hsame⟩ | ⟨hnew, hnews⟩
      · rw [hsame]
        exact ih
      · rw [hnews]
        show (((c.after calls).configs ++ [config]).map Config.key).Nodup
        rw [List.map_append, List.map_singleton, ← List.concat_eq_append, List.nodup_concat]
        refine ⟨fun hkey => ?_, ih⟩
        rw [knows_iff.mpr (List.mem_map.mp hkey)] at hnew
        cases hnew

/-- A new center keeps the configurations that are the first of their keys to be announced. -/
theorem isFirst_iff_mem (hc : c.configs = []) (calls : List (Call ℓ)) {config : Config} :
    IsFirst config (calls.filterMap Call.config?) ↔ config ∈ (c.after calls).configs := by
  rw [IsFirst, ← find?_configs_after hc]
  constructor
  · exact List.mem_of_find?_eq_some
  · intro hmem
    have hsome : ((c.after calls).configs.find? (fun kept => kept.key = config.key)).isSome := by
      rw [List.find?_isSome]
      exact ⟨config, hmem, decide_eq_true rfl⟩
    obtain ⟨kept, hfound⟩ := Option.isSome_iff_exists.mp hsome
    have hkey : kept.key = config.key := by simpa using List.find?_some hfound
    rw [hfound, List.inj_on_of_nodup_map (nodup_keys_after hc calls)
      (List.mem_of_find?_eq_some hfound) hmem hkey]

/-! ### What listeners are told -/

section

variable {α β : Type} [DecidableEq α] [DecidableEq β]

theorem count_map_pair (a a' : α) (b : β) (bs : List β) :
    (bs.map (fun b => (a', b))).count (a, b) = [a'].count a * bs.count b := by
  by_cases h : a' = a
  · subst h
    rw [List.count_map_of_injective _ _ (Prod.mk_right_injective a'), List.count_singleton_self,
      Nat.one_mul]
  · have hnone : [a'].count a = 0 := List.count_eq_zero.mpr fun hmem =>
      h (List.mem_singleton.mp hmem).symm
    rw [hnone, Nat.zero_mul, List.count_eq_zero]
    intro hmem
    obtain ⟨b', -, hpair⟩ := List.mem_map.mp hmem
    exact h (Prod.mk.inj hpair).1

theorem count_map_pair' (a : α) (b b' : β) (as : List α) :
    (as.map (fun a => (a, b'))).count (a, b) = as.count a * [b'].count b := by
  rw [← List.count_map_of_injective _ _ Prod.swap_injective, List.map_map, Nat.mul_comm]
  exact count_map_pair b b' a as

end

/-- What is replayed to a new listener is what is kept. -/
theorem replay_perm (c : Center ℓ) : c.replay.Perm c.configs := by
  unfold replay vertexConfigs edgeConfigs
  induction c.configs with
  | nil => exact List.Perm.nil
  | cons config rest ih =>
    cases config with
    | vertex config => exact ih.cons _
    | edge config => exact List.perm_middle.trans (ih.cons _)

/-- Whoever listens has been told of what is kept, or is told with the next call. -/
theorem mem_step_iff (c : Center ℓ) {call : Call ℓ} {listener : ℓ} {config : Config} :
    (listener ∈ c.listeners ∧ config ∈ c.configs) ∨ (listener, config) ∈ (c.step call).2 ↔
      listener ∈ (c.step call).1.listeners ∧ config ∈ (c.step call).1.configs := by
  cases call with
  | listen listener' =>
    have htold : (listener, config) ∈ c.replay.map (fun config => (listener', config)) ↔
        listener = listener' ∧ config ∈ c.configs := by
      rw [List.mem_map, ← c.replay_perm.mem_iff]
      constructor
      · rintro ⟨config, hconfig, hpair⟩
        obtain ⟨rfl, rfl⟩ := Prod.mk.inj hpair
        exact ⟨rfl, hconfig⟩
      · rintro ⟨rfl, hconfig⟩
        exact ⟨config, hconfig, rfl⟩
    show _ ∨ (listener, config) ∈ c.replay.map _ ↔ listener ∈ c.listeners ++ [listener'] ∧ _
    rw [htold, List.mem_append, List.mem_singleton, or_and_right]
    rfl
  | announce config' =>
    rw [step]
    rcases c.announce_cases config' with ⟨-, hsame⟩ | ⟨-, hnews⟩
    · rw [hsame]
      simp
    · have htold : (listener, config) ∈ c.listeners.map (fun listener => (listener, config')) ↔
          listener ∈ c.listeners ∧ config = config' := by
        rw [List.mem_map]
        constructor
        · rintro ⟨listener, hlistener, hpair⟩
          obtain ⟨rfl, rfl⟩ := Prod.mk.inj hpair
          exact ⟨hlistener, rfl⟩
        · rintro ⟨hlistener, rfl⟩
          exact ⟨listener, hlistener, rfl⟩
      rw [hnews]
      show _ ∨ (listener, config) ∈ c.listeners.map _ ↔ _ ∧ config ∈ c.configs ++ [config']
      rw [htold, List.mem_append, List.mem_singleton, and_or_left]

/-- **The notices of a run.**  A listener is told of a configuration as often as it was added, if
the configuration is kept. -/
theorem count_told [DecidableEq ℓ] (hl : c.listeners = [])
    (calls : List (Call ℓ)) (listener : ℓ) (config : Config) :
    (c.told calls).count (listener, config)
      = (c.after calls).listeners.count listener * (c.after calls).configs.count config := by
  induction calls using List.reverseRecOn with
  | nil =>
    show 0 = c.listeners.count listener * _
    rw [hl, List.count_nil, Nat.zero_mul]
  | append_singleton calls call ih =>
    rw [told_concat, after_concat, List.count_append, ih]
    cases call with
    | listen listener' =>
      -- the listener is replayed what is kept, and there is one more of it
      show _ + ((c.after calls).replay.map (fun config => (listener', config))).count _
        = ((c.after calls).listeners ++ [listener']).count listener * _
      rw [count_map_pair, (replay_perm _).count_eq, List.count_append, Nat.add_mul]
      rfl
    | announce config' =>
      rw [step]
      rcases (c.after calls).announce_cases config' with ⟨-, hsame⟩ | ⟨-, hnews⟩
      · rw [hsame, List.count_nil, Nat.add_zero]
      · -- everyone who listens is told the news, and there is one more configuration
        rw [hnews]
        show _ + ((c.after calls).listeners.map (fun listener => (listener, config'))).count _
          = _ * ((c.after calls).configs ++ [config']).count config
        rw [count_map_pair', List.count_append, Nat.mul_add]

theorem count_filterMap_listener? [DecidableEq ℓ] (calls : List (Call ℓ)) (listener : ℓ) :
    (calls.filterMap Call.listener?).count listener = calls.count (.listen listener) := by
  rw [List.count_filterMap, List.count_eq_countP]
  refine List.countP_congr fun call _ => ?_
  cases call <;> simp [Call.listener?]

/-- **A new listener is told once.**  A listener of a new center is told of each configuration that
is the first of its key as often as it was added, and of no other. -/
theorem count_told_eq_ite [DecidableEq ℓ] (hc : c.configs = []) (hl : c.listeners = [])
    (calls : List (Call ℓ)) (listener : ℓ) (config : Config) :
    (c.told calls).count (listener, config)
      = if IsFirst config (calls.filterMap Call.config?) then calls.count (.listen listener)
        else 0 := by
  have hlisteners : (c.after calls).listeners.count listener = calls.count (.listen listener) := by
    rw [listeners_after, hl, List.nil_append, count_filterMap_listener?]
  have hconfigs : (c.after calls).configs.Nodup := (nodup_keys_after hc calls).of_map
  rw [count_told hl, hlisteners]
  split_ifs with hfirst
  · have hkept := (isFirst_iff_mem hc calls).mp hfirst
    rw [List.count_eq_one_of_mem hconfigs hkept, Nat.mul_one]
  · have hnone := mt (isFirst_iff_mem hc calls).mpr hfirst
    rw [List.count_eq_zero.mpr hnone, Nat.mul_zero]

/-- What a center that was new knows has been announced. -/
theorem knows_after_iff (hc : c.configs = []) (calls : List (Call ℓ)) {config : Config} :
    (c.after calls).knows config = true ↔
      ∃ earlier ∈ calls.filterMap Call.config?, earlier.key = config.key := by
  have hfind := congrArg Option.isSome (find?_configs_after hc calls config.key)
  rw [Bool.eq_iff_iff, List.find?_isSome, List.find?_isSome] at hfind
  simpa only [knows_iff, decide_eq_true_eq] using hfind

/-- An announcement to a center that was new is news if no earlier one has the same key. -/
theorem announce_after_eq_true_iff (hc : c.configs = []) (calls : List (Call ℓ)) (config : Config) :
    ((c.after calls).announce config).1 = true ↔
      ∀ earlier ∈ calls.filterMap Call.config?, earlier.key ≠ config.key := by
  have hknows : (c.after calls).knows config = true ↔ _ := knows_after_iff hc calls
  rcases (c.after calls).announce_cases config with ⟨hknown, hsame⟩ | ⟨hnew, hnews⟩
  · obtain ⟨earlier, hearlier, hkey⟩ := hknows.mp hknown
    rw [hsame]
    exact ⟨Bool.noConfusion, fun h => absurd hkey (h earlier hearlier)⟩
  · rw [hnews]
    refine ⟨fun _ earlier hearlier hkey => ?_, fun _ => rfl⟩
    rw [hknows.mpr ⟨earlier, hearlier, hkey⟩] at hnew
    cases hnew

/-! ### Announcing several configurations -/

/-- Configurations with different new keys are all news. -/
theorem announceAll_of_nodup {configs : List Config}
    (h : ((c.configs ++ configs).map Config.key).Nodup) :
    (c.announceAll configs).1 = configs.length ∧
      (c.announceAll configs).2.1.configs = c.configs ++ configs := by
  induction configs generalizing c with
  | nil => exact ⟨rfl, (List.append_nil _).symm⟩
  | cons config rest ih =>
    rw [announceAll]
    rcases c.announce_cases config with ⟨hknown, -⟩ | ⟨-, hnews⟩
    · obtain ⟨kept, hkept, hkey⟩ := knows_iff.mp hknown
      rw [List.map_append] at h
      exact absurd hkey ((List.nodup_append.mp h).2.2 _ (List.mem_map_of_mem hkept) _
        List.mem_cons_self)
    · rw [List.append_cons] at h
      obtain ⟨hcount, hconfigs⟩ := ih (c := { c with configs := c.configs ++ [config] }) h
      rw [hnews]
      refine ⟨?_, hconfigs.trans (List.append_cons _ _ _).symm⟩
      show 1 + _ = rest.length + 1
      rw [hcount, Nat.add_comm]

/-- What is known is not announced again. -/
theorem announceAll_of_knows {configs : List Config}
    (h : ∀ config ∈ configs, c.knows config = true) : (c.announceAll configs).1 = 0 := by
  induction configs with
  | nil => rfl
  | cons config rest ih =>
    rw [announceAll]
    rcases c.announce_cases config with ⟨-, hsame⟩ | ⟨hnew, -⟩
    · rw [hsame]
      show 0 + (c.announceAll rest).1 = 0
      rw [ih fun config hconfig => h config (List.mem_cons_of_mem _ hconfig)]
    · rw [h config List.mem_cons_self] at hnew
      cases hnew

end Center

end LatencyControl
