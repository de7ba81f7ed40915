import LatencyControl.Proofs.Role.Assigning
import Mathlib.Logic.Function.Iterate

/-!
# Candidate chains

Somebody proposes chains, and each host gets those of them that it could run on one thread.
`Deployment.candidates` reads off the topologies and the proposals what a host is to get, and
`Deployment.chains_of_assigned` says that it gets just that, each chain once and at the place of its
first mention, whatever else the list of proposals holds.

Two facts carry this.  Adding chains appends to a list without repetitions and leaves it one
(`Deployment.chainsOn_addChains`).  Assigning roles touches no chains, even if it stops at a fault
(`Deployment.keeps_assignRoles`).
-/

namespace LatencyControl

/-! ### Lists without repetitions -/

theorem nodup_eraseDups {α : Type} [BEq α] [LawfulBEq α] (xs : List α) : xs.eraseDups.Nodup := by
  -- `eraseDups` goes on with a filtered rest, so the induction is on the length
  induction hn : xs.length using Nat.strong_induction_on generalizing xs with
  | _ n ih =>
    cases xs with
    | nil => exact List.nodup_nil
    | cons x rest =>
      rw [List.eraseDups_cons]
      have hlater : (rest.filter (fun y => !y == x)).length < n :=
        hn ▸ Nat.lt_succ_of_le (List.length_filter_le _ rest)
      refine List.nodup_cons.mpr ⟨fun hx => ?_, ih _ hlater _ rfl⟩
      simpa using (List.mem_filter.mp (List.mem_eraseDups.mp hx)).2

/-- A chain joins the chains of a host if it is not empty, unless it is among them. -/
theorem RoleSet.addChain_chains {s : RoleSet} {chains : List (List MemberId)}
    (h : s.chains = chains.eraseDups) (chain : List MemberId) :
    (s.addChain chain).chains = (chains ++ if chain = [] then [] else [chain]).eraseDups := by
  have hmem : chain ∈ s.chains ↔ chain ∈ chains := by rw [h, List.mem_eraseDups]
  rw [List.eraseDups_append, ← h]
  unfold addChain
  by_cases hempty : chain = []
  · simp [hempty, List.removeAll]
  · by_cases hthere : chain ∈ chains
    · simp [hmem, hthere, hempty, List.removeAll]
    · simp [hmem, hthere, hempty, List.removeAll, List.eraseDups_cons]

/-! ### Which chains are candidates -/

/-- A proposed chain suits a host under a constraint: it is proposed for both of them, it is not
empty, and in the topology of the constraint all of its members run on the host. -/
def ChainProposal.Suits (p : ChainProposal) (id : ConstraintId) (t : Topology) (host : HostId) :
    Prop :=
  p.constraint = id ∧ p.host = host ∧ p.members ≠ [] ∧
    ∀ member ∈ p.members, ∃ m ∈ t.member? member, m.host = host

instance (p : ChainProposal) (id : ConstraintId) (t : Topology) (host : HostId) :
    Decidable (p.Suits id t host) :=
  inferInstanceAs (Decidable (_ ∧ _ ∧ _ ∧ _))

namespace Deployment

theorem runsOnHost_iff {t : Topology} {p : ChainProposal} :
    runsOnHost t p = true ↔ ∀ member ∈ p.members, ∃ m ∈ t.member? member, m.host = p.host := by
  rw [runsOnHost, List.all_eq_true]
  refine forall₂_congr fun member _ => ?_
  cases t.member? member <;> simp

/-- The chains that the proposals offer a host: constraint by constraint in the order of the
constraints, under each constraint in the order of the proposals, and as often as they are proposed
there. -/
def candidates (topologies : Table ConstraintId Topology) (proposals : List ChainProposal)
    (host : HostId) : List (List MemberId) :=
  topologies.entries.flatMap fun (id, t) =>
    (proposals.filter (fun p => p.Suits id t host)).map ChainProposal.members

theorem mem_candidates {topologies : Table ConstraintId Topology} {proposals : List ChainProposal}
    {host : HostId} {chain : List MemberId} :
    chain ∈ candidates topologies proposals host ↔ ∃ p ∈ proposals, p.members = chain ∧
      ∃ t, topologies.find? p.constraint = some t ∧ p.Suits p.constraint t host := by
  simp only [candidates, List.mem_flatMap, Prod.exists, Table.mem_entries_iff, List.mem_map,
    List.mem_filter, decide_eq_true_eq]
  constructor
  · rintro ⟨id, t, ht, p, ⟨hp, hsuits⟩, hmembers⟩
    obtain rfl : p.constraint = id := hsuits.1
    exact ⟨p, hp, hmembers, t, ht, hsuits⟩
  · rintro ⟨p, hp, hmembers, t, ht, hsuits⟩
    exact ⟨p.constraint, t, ht, p, ⟨hp, hsuits⟩, hmembers⟩

/-! ### Adding chains -/

/-- The chains that a host may run on one thread. -/
def chainsOn (d : Deployment) (host : HostId) : List (List MemberId) :=
  ((d.roles.find? host).map RoleSet.chains).getD []

/-- The chains of a host after a chain was added to it, or to another host. -/
theorem chainsOn_changeRoles (d : Deployment) (host host' : HostId) (chain : List MemberId) :
    (d.changeRoles host (·.addChain chain)).chainsOn host' =
      if host = host' then
        (({ host := host', chains := d.chainsOn host' } : RoleSet).addChain chain).chains
      else d.chainsOn host' := by
  rw [chainsOn, find?_changeRoles]
  split_ifs with hhost
  · subst hhost
    cases hs : d.roles.find? host <;>
      (simp only [chainsOn, RoleSet.addChain, hs, Option.map_some, Option.getD_some]
       split_ifs <;> simp_all)
  · rfl

/-- A host gets those of several chains that are for it and not empty. -/
theorem chainsOn_foldl (proposals : List ChainProposal) {d : Deployment} {host : HostId}
    {chains : List (List MemberId)} (h : d.chainsOn host = chains.eraseDups) :
    (proposals.foldl (fun d p => d.changeRoles p.host (·.addChain p.members)) d).chainsOn host =
      (chains ++ (proposals.filter (fun p => p.host = host ∧ p.members ≠ [])).map
        ChainProposal.members).eraseDups := by
  induction proposals generalizing d chains with
  | nil => simpa using h
  | cons p rest ih =>
    rw [List.foldl_cons]
    have hfirst : (d.changeRoles p.host (·.addChain p.members)).chainsOn host =
        (chains ++ if p.host = host ∧ p.members ≠ [] then [p.members] else []).eraseDups := by
      rw [chainsOn_changeRoles]
      by_cases hhost : p.host = host
      · rw [if_pos hhost, RoleSet.addChain_chains h]
        by_cases hempty : p.members = [] <;> simp [hhost, hempty]
      · simp [hhost, h]
    rw [ih hfirst, List.append_assoc, List.filter_cons]
    by_cases hsuits : p.host = host ∧ p.members ≠ [] <;> simp [hsuits]

/-- What suits a host is what passes the check of its members, is for the host and is not empty. -/
theorem filter_suits (proposals : List ChainProposal) (id : ConstraintId) (t : Topology)
    (host : HostId) :
    (proposals.filter (fun p => p.constraint = id ∧ runsOnHost t p)).filter
        (fun p => p.host = host ∧ p.members ≠ [])
      = proposals.filter (fun p => p.Suits id t host) := by
  rw [List.filter_filter]
  refine List.filter_congr fun p _ => ?_
  rw [Bool.eq_iff_iff]
  simp only [Bool.and_eq_true, decide_eq_true_eq, runsOnHost_iff]
  constructor
  · rintro ⟨⟨rfl, hmembers⟩, rfl, hruns⟩
    exact ⟨rfl, rfl, hmembers, hruns⟩
  · rintro ⟨rfl, rfl, hmembers, hruns⟩
    exact ⟨⟨rfl, hmembers⟩, rfl, hruns⟩

/-- Adding chains gives each host its candidates, after the chains that it has. -/
theorem chainsOn_addChains (d : Deployment) (proposals : List ChainProposal) {host : HostId}
    {chains : List (List MemberId)} (h : d.chainsOn host = chains.eraseDups) :
    (d.addChains proposals).chainsOn host =
      (chains ++ candidates d.topologies proposals host).eraseDups := by
  unfold addChains candidates
  generalize d.topologies.entries = entries
  induction entries generalizing d chains with
  | nil => simpa using h
  | cons entry rest ih =>
    obtain ⟨id, t⟩ := entry
    rw [List.foldl_cons, List.flatMap_cons, ← List.append_assoc]
    -- the later constraints find the chains of this one behind those that were there
    refine ih _ ?_
    rw [chainsOn_foldl _ h, filter_suits]

/-! ### Assigning roles -/

/-- An activity keeps a condition on deployments, also if it fails. -/
def Keeps (P : Deployment → Prop) {α : Type} (x : Deploying α) : Prop :=
  ∀ d, P d → P (x.run.run d).2

section

variable {P : Deployment → Prop} {α β : Type}

theorem Keeps.bind {x : Deploying α} {f : α → Deploying β} (hx : Keeps P x)
    (hf : ∀ a, Keeps P (f a)) : Keeps P (x >>= f) := by
  intro d hd
  have hfirst := hx d hd
  rw [ExceptT.run_bind, StateT.run_bind]
  rcases hrun : x.run.run d with ⟨_ | a, d'⟩
  · rw [hrun] at hfirst
    exact hfirst
  · rw [hrun] at hfirst
    exact hf a d' hfirst

theorem keeps_lift (x : Except Error α) : Keeps P (liftM x : Deploying α) := fun _ hd => hd

theorem keeps_modify {f : Deployment → Deployment} (hf : ∀ d, P d → P (f d)) :
    Keeps P (modify f : Deploying PUnit) := hf

theorem keeps_forM {f : α → Deploying PUnit} (hf : ∀ a, Keeps P (f a)) (xs : List α) :
    Keeps P (xs.forM f) := by
  induction xs with
  | nil => exact fun _ hd => hd
  | cons x rest ih => exact (hf x).bind fun _ => ih

variable (hmanager : ∀ d r, P d → P (addManager d r)) (hreporter : ∀ d a, P d → P (addReporter d a))

include hmanager in
theorem keeps_assignManagers (ts : List Topology) (used : KeySet GroupId) :
    Keeps P (assignManagers ts used) := by
  induction ts generalizing used with
  | nil => exact fun _ hd => hd
  | cons t rest ih =>
    refine (keeps_lift _).bind fun c => (keeps_lift _).bind fun (anchor, used) =>
      (keeps_lift _).bind fun parts => (keeps_forM (fun part => ?_) _).bind fun _ => ih used
    exact (keeps_lift _).bind fun role => keeps_modify fun d hd => hmanager d role hd

include hreporter in
theorem keeps_assignReporters (roles : List ManagerRole) : Keeps P (assignReporters roles) := by
  induction roles with
  | nil => exact fun _ hd => hd
  | cons r rest ih =>
    refine (keeps_lift _).bind fun found => (keeps_modify fun d hd => ?_).bind fun _ => ih
    exact List.foldlRecOn found addReporter hd fun d hd a _ => hreporter d a hd

include hmanager hreporter in
/-- Assigning roles keeps what adding single ones keeps, whether or not it gets through. -/
theorem keeps_assignRoles : Keeps P assignRoles := by
  have hget : ∀ {α : Type} (f : Deployment → α), Keeps P (f <$> get : Deploying α) :=
    fun _ _ hd => hd
  exact (hget id).bind fun d => (keeps_assignManagers hmanager _ _).bind fun _ =>
    (hget id).bind fun d => keeps_assignReporters hreporter _

end

theorem chainsOn_addManager (d : Deployment) (r : ManagerRole) (host : HostId) :
    (d.addManager r).chainsOn host = d.chainsOn host :=
  view_changeRoles (fun _ => rfl) { d with managers := d.managers.add r.manager } r.host host
    fun _ => rfl

theorem chainsOn_addReporter (d : Deployment) (a : Assignment) (host : HostId) :
    (d.addReporter a).chainsOn host = d.chainsOn host :=
  view_changeRoles (fun _ => rfl) d a.1 host fun s => by
    unfold RoleSet.addReporter
    split_ifs <;> rfl

/-- A deployment after its roles were assigned a number of times, whether or not that got through. -/
def afterRoles (topologies : Table ConstraintId Topology) (times : ℕ) : Deployment :=
  (fun d => (assignRoles.run.run d).2)^[times] { topologies }

theorem afterRoles_of_run {topologies : Table ConstraintId Topology} {d : Deployment}
    (h : assignRoles.run.run { topologies } = (.ok (), d)) : afterRoles topologies 1 = d :=
  congrArg Prod.snd h

/-- Assigning roles gives no host any chains. -/
theorem chainsOn_afterRoles (topologies : Table ConstraintId Topology) (times : ℕ) (host : HostId) :
    (afterRoles topologies times).chainsOn host = [] := by
  have hkeeps : Keeps (fun d => d.chainsOn host = []) assignRoles :=
    keeps_assignRoles (fun d r hd => (chainsOn_addManager d r host).trans hd)
      fun d a hd => (chainsOn_addReporter d a host).trans hd
  exact Function.Iterate.rec (fun d : Deployment => d.chainsOn host = []) rfl hkeeps times

theorem topologies_afterRoles (topologies : Table ConstraintId Topology) (times : ℕ) :
    (afterRoles topologies times).topologies = topologies := by
  have hkeeps : Keeps (fun d => d.topologies = topologies) assignRoles :=
    keeps_assignRoles (fun _ _ hd => hd) fun _ _ hd => hd
  exact Function.Iterate.rec (fun d : Deployment => d.topologies = topologies) rfl hkeeps times

/-- The chains that are added go to the hosts that they suit, and nothing else does. -/
theorem chainsOn_addChains_afterRoles (topologies : Table ConstraintId Topology) (times : ℕ)
    (proposals : List ChainProposal) (host : HostId) :
    ((afterRoles topologies times).addChains proposals).chainsOn host =
      (candidates topologies proposals host).eraseDups := by
  have hnone : (afterRoles topologies times).chainsOn host =
      ([] : List (List MemberId)).eraseDups :=
    chainsOn_afterRoles topologies times host
  have hchains := chainsOn_addChains (afterRoles topologies times) proposals hnone
  rwa [List.nil_append, topologies_afterRoles] at hchains

/-- **Hosts get their candidates.**  Whether or not the roles of some topologies have been assigned,
and whatever came of that, the chains that are proposed then and suit a host become its chains, each
of them once, in the order of the constraints and under each constraint in the order of the
proposals.  The other roles stay as they are. -/
theorem chains_of_assigned (topologies : Table ConstraintId Topology) (times : ℕ)
    (proposals : List ChainProposal) (host : HostId) :
    let d := afterRoles topologies times
    (d.addChains proposals).chainsOn host = (candidates topologies proposals host).eraseDups ∧
      ((d.addChains proposals).chainsOn host).Nodup ∧
      (d.addChains proposals).managersOn host = d.managersOn host ∧
      (d.addChains proposals).reportersOn host = d.reportersOn host := by
  intro d
  have hchains := chainsOn_addChains_afterRoles topologies times proposals host
  exact ⟨hchains, hchains ▸ nodup_eraseDups _, managersOn_addChains d proposals host,
    reportersOn_addChains d proposals host⟩

end Deployment

end LatencyControl
