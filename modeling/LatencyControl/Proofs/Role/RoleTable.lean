import LatencyControl.Proofs.Table
import LatencyControl.Role.Deployment

/-!
# Roles host by host

What adding manager and reporter roles does to the role table of a deployment, seen from one host:
`Deployment.managersOn` and `Deployment.reportersOn` are the two views.  A manager role is always
added.  A reporter role is added if its key is new to the host, so that of all roles with one key
the host has the one that came first (`find?_reportersOn_foldl`).
-/

namespace LatencyControl

/-! ### Reporters with different keys -/

namespace RoleSet

theorem addReporter_managers (s : RoleSet) (r : ReporterRole) :
    (s.addReporter r).managers = s.managers := by
  unfold addReporter
  split_ifs <;> rfl

theorem addChain_managers (s : RoleSet) (chain : List MemberId) :
    (s.addChain chain).managers = s.managers := by
  unfold addChain
  split_ifs <;> rfl

theorem addChain_reporters (s : RoleSet) (chain : List MemberId) :
    (s.addChain chain).reporters = s.reporters := by
  unfold addChain
  split_ifs <;> rfl

theorem find?_addReporter (s : RoleSet) (r : ReporterRole) (key : ReporterId × ManagerId) :
    (s.addReporter r).reporters.find? (fun r' => r'.key = key)
      = (s.reporters.find? (fun r' => r'.key = key)).or (if r.key = key then some r else none) := by
  unfold addReporter
  split_ifs with hmem hkey hkey
  · -- the role is dropped, and the one that is there with its key was found anyway
    obtain ⟨r', hr', hsame⟩ := List.mem_map.mp hmem
    have hfound : (s.reporters.find? (fun r' => r'.key = key)).isSome := by
      rw [List.find?_isSome]
      exact ⟨r', hr', by simpa [hsame] using hkey⟩
    rw [Option.or_of_isSome hfound]
  · rw [Option.or_none]
  · simp [List.find?_append, hkey]
  · simp [List.find?_append, hkey]

theorem nodup_addReporter {s : RoleSet} (h : (s.reporters.map ReporterRole.key).Nodup)
    (r : ReporterRole) : ((s.addReporter r).reporters.map ReporterRole.key).Nodup := by
  unfold addReporter
  split_ifs with hmem
  · exact h
  · rw [List.map_append]
    refine List.nodup_append.mpr ⟨h, List.nodup_singleton r.key, fun a ha b hb hab => ?_⟩
    have hnew : b = r.key := List.mem_singleton.mp hb
    exact hmem (hnew ▸ hab ▸ ha)

end RoleSet

/-! ### Views of a deployment -/

/-- Only a host that has roles can have a manager role. -/
theorem RoleTable.mem_keys_of_mem_managers {roles : RoleTable} {host : HostId} {r : ManagerRole}
    (hr : r ∈ ((roles.find? host).map RoleSet.managers).getD []) : host ∈ roles.keys := by
  rw [Table.mem_keys_iff]
  cases hroles : roles.find? host with
  | none =>
    rw [hroles] at hr
    exact (List.not_mem_nil hr).elim
  | some set => exact ⟨set, rfl⟩

namespace Deployment

/-- The manager roles of a host. -/
def managersOn (d : Deployment) (host : HostId) : List ManagerRole :=
  ((d.roles.find? host).map RoleSet.managers).getD []

/-- The reporter roles of a host. -/
def reportersOn (d : Deployment) (host : HostId) : List ReporterRole :=
  ((d.roles.find? host).map RoleSet.reporters).getD []

theorem mem_managerRoles (d : Deployment) {r : ManagerRole} :
    r ∈ d.managerRoles ↔ ∃ host, r ∈ d.managersOn host := by
  simp only [managerRoles, List.mem_flatMap, Table.mem_values_iff, managersOn]
  constructor
  · rintro ⟨s, ⟨host, hs⟩, hr⟩
    exact ⟨host, by simpa [hs] using hr⟩
  · rintro ⟨host, hr⟩
    cases hs : d.roles.find? host with
    | none => simp [hs] at hr
    | some s => exact ⟨s, ⟨host, hs⟩, by simpa [hs] using hr⟩

theorem find?_changeRoles (d : Deployment) (host host' : HostId) (change : RoleSet → RoleSet) :
    (d.changeRoles host change).roles.find? host'
      = if host = host' then some (change ((d.roles.find? host).getD { host }))
        else d.roles.find? host' := Table.find?_upsert d.roles host host' _

/-- The host whose roles are changed has some from then on. -/
theorem mem_keys_changeRoles {d : Deployment} {host host' : HostId}
    {change : RoleSet → RoleSet} :
    host' ∈ (d.changeRoles host change).roles.keys ↔ host = host' ∨ host' ∈ d.roles.keys := by
  rw [Table.mem_keys_iff, Table.mem_keys_iff, find?_changeRoles]
  split_ifs with hhost
  · simp [hhost]
  · simp [hhost]

/-- The hosts that have roles after several changes, each of which gives roles to some hosts. -/
theorem mem_keys_foldl {α : Type} {f : Deployment → α → Deployment} {P : α → HostId → Prop}
    (hf : ∀ d x host, host ∈ (f d x).roles.keys ↔ P x host ∨ host ∈ d.roles.keys)
    (xs : List α) {d : Deployment} {host : HostId} :
    host ∈ (xs.foldl f d).roles.keys ↔ (∃ x ∈ xs, P x host) ∨ host ∈ d.roles.keys := by
  induction xs generalizing d with
  | nil => simp
  | cons x rest ih =>
    rw [List.foldl_cons, ih, hf]
    simp only [List.mem_cons, exists_eq_or_imp]
    rw [or_left_comm, or_assoc]

/-- Changes that leave the topologies alone. -/
theorem topologies_foldl {α : Type} {f : Deployment → α → Deployment}
    (hf : ∀ d x, (f d x).topologies = d.topologies) (xs : List α) (d : Deployment) :
    (xs.foldl f d).topologies = d.topologies := by
  induction xs generalizing d with
  | nil => rfl
  | cons x rest ih => rw [List.foldl_cons, ih, hf]

/-- A change of other roles leaves a view of the roles of each host as it is. -/
theorem view_changeRoles {α : Type} {view : RoleSet → List α} (hnew : ∀ host, view { host } = [])
    (d : Deployment) (host host' : HostId) {change : RoleSet → RoleSet}
    (hsame : ∀ s, view (change s) = view s) :
    (((d.changeRoles host change).roles.find? host').map view).getD []
      = ((d.roles.find? host').map view).getD [] := by
  rw [find?_changeRoles]
  split_ifs with hhost
  · subst hhost
    cases hs : d.roles.find? host <;> simp [hsame, hnew]
  · rfl

/-! ### Adding managers -/

theorem managersOn_addManager (d : Deployment) (r : ManagerRole) (host : HostId) :
    (d.addManager r).managersOn host = d.managersOn host ++ if r.host = host then [r] else [] := by
  rw [managersOn, addManager, find?_changeRoles]
  split_ifs with hhost
  · subst hhost
    cases hs : d.roles.find? r.host <;> simp [managersOn, RoleSet.addManager, hs]
  · simp [managersOn]

theorem reportersOn_addManager (d : Deployment) (r : ManagerRole) (host : HostId) :
    (d.addManager r).reportersOn host = d.reportersOn host := by
  rw [reportersOn, addManager, find?_changeRoles]
  split_ifs with hhost
  · subst hhost
    cases hs : d.roles.find? r.host <;> simp [reportersOn, RoleSet.addManager, hs]
  · rfl

theorem managersOn_foldl_addManager (roles : List ManagerRole) (d : Deployment) (host : HostId) :
    (roles.foldl addManager d).managersOn host
      = d.managersOn host ++ roles.filter (fun r => r.host = host) := by
  induction roles generalizing d with
  | nil => simp
  | cons r rest ih =>
    rw [List.foldl_cons, ih, managersOn_addManager]
    split_ifs with hhost <;> simp [hhost]

theorem reportersOn_foldl_addManager (roles : List ManagerRole) (d : Deployment) (host : HostId) :
    (roles.foldl addManager d).reportersOn host = d.reportersOn host := by
  induction roles generalizing d with
  | nil => rfl
  | cons r rest ih => rw [List.foldl_cons, ih, reportersOn_addManager]

theorem mem_keys_foldl_addManager (roles : List ManagerRole) {d : Deployment} {host : HostId} :
    host ∈ (roles.foldl addManager d).roles.keys ↔
      (∃ r ∈ roles, r.host = host) ∨ host ∈ d.roles.keys :=
  mem_keys_foldl (f := addManager) (P := fun r host => r.host = host)
    (fun _ _ _ => mem_keys_changeRoles) roles

theorem topologies_foldl_addManager (roles : List ManagerRole) (d : Deployment) :
    (roles.foldl addManager d).topologies = d.topologies :=
  topologies_foldl (f := addManager) (fun _ _ => rfl) roles d

/-! ### Adding reporters -/

theorem managersOn_addReporter (d : Deployment) (a : Assignment) (host : HostId) :
    (d.addReporter a).managersOn host = d.managersOn host :=
  view_changeRoles (fun _ => rfl) d a.1 host (RoleSet.addReporter_managers · a.2)

theorem managerRoles_addReporter (d : Deployment) (a : Assignment) :
    (d.addReporter a).managerRoles = d.managerRoles := by
  refine Table.flatMap_values_upsert d.roles a.1 ?_ fun s => ?_
  · simp [RoleSet.addReporter_managers]
  · simp [RoleSet.addReporter_managers]

theorem managerRoles_foldl_addReporter (as : List Assignment) (d : Deployment) :
    (as.foldl addReporter d).managerRoles = d.managerRoles := by
  induction as generalizing d with
  | nil => rfl
  | cons a rest ih => rw [List.foldl_cons, ih, managerRoles_addReporter]

theorem managersOn_foldl_addReporter (as : List Assignment) (d : Deployment) (host : HostId) :
    (as.foldl addReporter d).managersOn host = d.managersOn host := by
  induction as generalizing d with
  | nil => rfl
  | cons a rest ih => rw [List.foldl_cons, ih, managersOn_addReporter]

/-- The reporters of a host after a reporter was assigned to it, or to another host. -/
theorem reportersOn_addReporter (d : Deployment) (a : Assignment) (host : HostId) :
    (d.addReporter a).reportersOn host =
      if a.1 = host then
        (({ host, reporters := d.reportersOn host } : RoleSet).addReporter a.2).reporters
      else d.reportersOn host := by
  rw [reportersOn, addReporter, find?_changeRoles]
  split_ifs with hhost
  · subst hhost
    cases hs : d.roles.find? a.1 <;>
      (simp only [reportersOn, RoleSet.addReporter, hs, Option.map_some, Option.getD_some]
       split_ifs <;> simp_all)
  · rfl

/-- Of all roles with one key that are assigned to a host, it has the first. -/
theorem find?_reportersOn_foldl (as : List Assignment) (d : Deployment) (host : HostId)
    (key : ReporterId × ManagerId) :
    ((as.foldl addReporter d).reportersOn host).find? (fun r => r.key = key)
      = ((d.reportersOn host).find? (fun r => r.key = key)).or
        ((as.find? (fun a => a.1 = host ∧ a.2.key = key)).map Prod.snd) := by
  induction as generalizing d with
  | nil => simp
  | cons a rest ih =>
    rw [List.foldl_cons, ih, reportersOn_addReporter, List.find?_cons]
    by_cases hhost : a.1 = host
    · rw [if_pos hhost, RoleSet.find?_addReporter]
      by_cases hkey : a.2.key = key
      · simp [hhost, hkey]
      · simp [hkey]
    · rw [if_neg hhost]
      simp [hhost]

theorem nodup_reportersOn_foldl (as : List Assignment) {d : Deployment} {host : HostId}
    (h : ((d.reportersOn host).map ReporterRole.key).Nodup) :
    (((as.foldl addReporter d).reportersOn host).map ReporterRole.key).Nodup := by
  induction as generalizing d with
  | nil => exact h
  | cons a rest ih =>
    refine ih ?_
    rw [reportersOn_addReporter]
    split_ifs
    · exact RoleSet.nodup_addReporter h a.2
    · exact h

theorem mem_keys_foldl_addReporter (as : List Assignment) {d : Deployment} {host : HostId} :
    host ∈ (as.foldl addReporter d).roles.keys ↔
      (∃ a ∈ as, a.1 = host) ∨ host ∈ d.roles.keys :=
  mem_keys_foldl (P := fun a host => a.1 = host) (fun _ _ _ => mem_keys_changeRoles) as

theorem topologies_foldl_addReporter (as : List Assignment) (d : Deployment) :
    (as.foldl addReporter d).topologies = d.topologies :=
  topologies_foldl (f := addReporter) (fun _ _ => rfl) as d

/-! ### Adding chains -/

/-- Adding chains leaves a view of the other roles of each host as it is. -/
theorem view_addChains {α : Type} {view : RoleSet → List α} (hnew : ∀ host, view { host } = [])
    (hsame : ∀ s chain, view (s.addChain chain) = view s) (d : Deployment)
    (proposals : List ChainProposal) (host : HostId) :
    (((d.addChains proposals).roles.find? host).map view).getD []
      = ((d.roles.find? host).map view).getD [] := by
  have hfits : ∀ (ps : List ChainProposal) (d : Deployment),
      (((ps.foldl (fun d p => d.changeRoles p.host (·.addChain p.members)) d).roles.find? host).map
        view).getD [] = ((d.roles.find? host).map view).getD [] := by
    intro ps
    induction ps with
    | nil => exact fun d => rfl
    | cons p rest ih =>
      intro d
      rw [List.foldl_cons, ih]
      exact view_changeRoles hnew d p.host host (hsame · p.members)
  unfold addChains
  generalize d.topologies.entries = entries
  induction entries generalizing d with
  | nil => rfl
  | cons entry rest ih => rw [List.foldl_cons, ih, hfits]

theorem managersOn_addChains (d : Deployment) (proposals : List ChainProposal) (host : HostId) :
    (d.addChains proposals).managersOn host = d.managersOn host :=
  view_addChains (fun _ => rfl) RoleSet.addChain_managers d proposals host

theorem reportersOn_addChains (d : Deployment) (proposals : List ChainProposal) (host : HostId) :
    (d.addChains proposals).reportersOn host = d.reportersOn host :=
  view_addChains (fun _ => rfl) RoleSet.addChain_reporters d proposals host

/-- The hosts that have roles after chains were added. -/
theorem mem_keys_addChains (d : Deployment) (proposals : List ChainProposal) {host : HostId} :
    host ∈ (d.addChains proposals).roles.keys ↔
      (∃ entry ∈ d.topologies.entries, ∃ p ∈ proposals.filter (fun p =>
        p.constraint = entry.1 ∧ runsOnHost entry.2 p), p.host = host) ∨ host ∈ d.roles.keys := by
  have hfits : ∀ (ps : List ChainProposal) (d : Deployment) host,
      host ∈ (ps.foldl (fun d p => d.changeRoles p.host (·.addChain p.members)) d).roles.keys ↔
        (∃ p ∈ ps, p.host = host) ∨ host ∈ d.roles.keys := fun ps d host =>
    mem_keys_foldl (P := fun p host => p.host = host) (fun _ _ _ => mem_keys_changeRoles) ps
  refine mem_keys_foldl (P := fun entry host => ∃ p ∈ proposals.filter (fun p =>
    p.constraint = entry.1 ∧ runsOnHost entry.2 p), p.host = host) ?_ d.topologies.entries
  rintro d ⟨id, t⟩ host
  exact hfits _ d host

/-- The deployment with those of the proposed chains that fit, if there are proposals. -/
def propose (d : Deployment) : Option (List ChainProposal) → Deployment
  | some proposals => d.addChains proposals
  | none => d

theorem managersOn_propose (d : Deployment) (proposals : Option (List ChainProposal))
    (host : HostId) : (d.propose proposals).managersOn host = d.managersOn host := by
  cases proposals with
  | none => rfl
  | some proposals => exact managersOn_addChains d proposals host

theorem reportersOn_propose (d : Deployment) (proposals : Option (List ChainProposal))
    (host : HostId) : (d.propose proposals).reportersOn host = d.reportersOn host := by
  cases proposals with
  | none => rfl
  | some proposals => exact reportersOn_addChains d proposals host

end Deployment

end LatencyControl
