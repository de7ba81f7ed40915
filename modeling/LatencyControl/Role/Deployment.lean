import LatencyControl.Role.Anchor
import LatencyControl.Role.Collection

/-!
# Deploying the roles of a job

A deployment takes one topology per constraint and assigns roles to hosts.  First every constraint
gets its managers, one on each host that runs members of its anchor; then every manager gets its
reporters.  Deploying stops at the first fault, and what was assigned up to then remains.
-/

namespace LatencyControl

/-- The roles of all hosts that have any, by host. -/
abbrev RoleTable := Table HostId RoleSet

/-- A chain of members that somebody proposes for a constraint, on a host. -/
structure ChainProposal where
  constraint : ConstraintId
  host : HostId
  members : List MemberId
  deriving DecidableEq, Repr

/-- The state of a deployment. -/
structure Deployment where
  /-- The topology that each constraint is watched in, by constraint. -/
  topologies : Table ConstraintId Topology
  roles : RoleTable := Table.empty
  /-- All managers. -/
  managers : KeySet ManagerId := Table.empty

/-- An activity that changes a deployment and may fail; changes made before the failure remain. -/
abbrev Deploying := ExceptT Error (StateM Deployment)

namespace Deployment

/-! ### Changing the roles of one host -/

/-- Changes the role set of a host, starting with an empty one if the host has none. -/
def changeRoles (d : Deployment) (host : HostId) (change : RoleSet → RoleSet) : Deployment :=
  { d with roles := d.roles.upsert host (fun found => change (found.getD { host })) }

/-- Adds a manager role to the host that it is for. -/
def addManager (d : Deployment) (r : ManagerRole) : Deployment :=
  { d with managers := d.managers.add r.manager }.changeRoles r.host (·.addManager r)

/-- Adds a reporter role to the host that it is assigned to. -/
def addReporter (d : Deployment) (a : Assignment) : Deployment :=
  d.changeRoles a.1 (·.addReporter a.2)

/-! ### Assigning roles -/

/-- The members of a group by host, each host's members in the order of their positions. -/
def partition (t : Topology) (anchor : GroupId) : Except Error (Table HostId (List MemberId)) := do
  let members ← t.membersOfGroup anchor
  return members.foldl (fun parts m => parts.upsert m.host (fun found => found.getD [] ++ [m.id]))
    Table.empty

/-- Creates the manager role of one host and adds it. -/
def assignManager (t : Topology) (constraint : ConstraintId) (anchor : GroupId)
    (part : HostId × List MemberId) : Deploying Unit := do
  let role ← ManagerRole.create part.1 constraint t anchor part.2
  modify (·.addManager role)

/-- Assigns the managers of the constraints of the given topologies, one after the other; `used`
holds the anchors of earlier constraints. -/
def assignManagers : List Topology → KeySet GroupId → Deploying Unit
  | [], _ => pure ()
  | t :: rest, used => do
    let c ← t.singleConstraint
    let (anchor, used) ← t.selectAnchor used
    let parts ← partition t anchor
    parts.entries.forM (assignManager t c.id anchor)
    assignManagers rest used

/-- Assigns the reporters of the given manager roles, one after the other. -/
def assignReporters : List ManagerRole → Deploying Unit
  | [] => pure ()
  | r :: rest => do
    let found ← r.assignments
    modify (fun d => found.foldl addReporter d)
    assignReporters rest

/-- All manager roles, host by host. -/
def managerRoles (d : Deployment) : List ManagerRole := d.roles.values.flatMap RoleSet.managers

/-- Assigns all roles. -/
def assignRoles : Deploying Unit := do
  assignManagers (← get).topologies.values Table.empty
  assignReporters (← get).managerRoles

/-! ### Chains -/

/-- Whether every member of a proposed chain runs on the host that it is proposed for. -/
def runsOnHost (t : Topology) (p : ChainProposal) : Bool :=
  p.members.all fun id =>
    match t.member? id with
    | some m => m.host = p.host
    | none => false

/-- Adds the proposed chains that fit, constraint by constraint. -/
def addChains (d : Deployment) (proposals : List ChainProposal) : Deployment :=
  d.topologies.entries.foldl (fun d (id, t) =>
    (proposals.filter (fun p => p.constraint = id ∧ runsOnHost t p)).foldl
      (fun d p => d.changeRoles p.host (·.addChain p.members)) d) d

/-! ### What was deployed -/

/-- The managers of each constraint that has any. -/
def managersByConstraint (d : Deployment) : Table ConstraintId (KeySet ManagerId) :=
  d.managerRoles.foldl (fun found r =>
    found.upsert r.constraint (fun ids => (ids.getD Table.empty).add r.manager)) Table.empty

end Deployment

/-! ### Deployed jobs -/

/-- A job whose roles are deployed, with the settings that its hosts run with. -/
structure DeployedJob where
  id : JobId
  settings : Settings
  roles : RoleTable
  managersByConstraint : Table ConstraintId (KeySet ManagerId)

namespace DeployedJob

/-- Deploys a job under the given topologies.  Chains are looked at only if a list of proposals is
given. -/
def deploy (id : JobId) (topologies : Table ConstraintId Topology) (settings : Settings)
    (proposals : Option (List ChainProposal)) : Except Error DeployedJob := do
  id.require "jobID"
  settings.validate
  let (result, d) := Deployment.assignRoles.run.run { topologies }
  result
  let d := match proposals with
    | some proposals => d.addChains proposals
    | none => d
  return { id, settings, roles := d.roles, managersByConstraint := d.managersByConstraint }

/-- Deploys a described job, one topology for each of its constraints. -/
def ofJob (job : Job) (settings : Settings) (proposals : Option (List ChainProposal)) :
    Except Error DeployedJob := do
  let t ← job.topology
  deploy job.id (Table.ofList t.splitByConstraint) settings proposals

/-- The role set of a host. -/
def rolesOf? (d : DeployedJob) (host : HostId) : Option RoleSet := d.roles.find? host

/-- The overviews of all hosts. -/
def summaries (d : DeployedJob) : List RoleSet.Summary := d.roles.values.map RoleSet.summary

end DeployedJob

end LatencyControl
