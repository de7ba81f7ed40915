import LatencyControl.Report.Config
import LatencyControl.Report.Scheduler

/-!
# Spreading configurations

The center of a host collects the configurations of the host's reporters and tells listeners of
them.  A configuration counts once: what is announced again under the same reporter and manager is
not news.  A listener that joins late is told of everything that is known by then, members before
channels, and then of what is news.

The listeners that matter are the tasks of the host: the scheduler of a task registers the reporters
of the task's own member.
-/

namespace LatencyControl

/-- The configurations known on a host, in the order of their announcement, and its listeners. -/
structure Center (ℓ : Type) where
  interval : Int64
  configs : List Config := []
  listeners : List ℓ := []

namespace Center

variable {ℓ : Type}

/-- The news that a listener is told. -/
abbrev Notice (ℓ : Type) := ℓ × Config

/-- Whether a configuration is known under its key. -/
def knows (c : Center ℓ) (config : Config) : Bool := (c.configs.map Config.key).contains config.key

/-- All known configurations of measuring members. -/
def vertexConfigs (c : Center ℓ) : List VertexConfig := c.configs.filterMap Config.vertex?

/-- All known configurations of measuring channels. -/
def edgeConfigs (c : Center ℓ) : List EdgeConfig := c.configs.filterMap Config.edge?

/-- The known configurations of measuring a member. -/
def vertexConfigsOf (c : Center ℓ) (member : MemberId) : List VertexConfig :=
  c.vertexConfigs.filter (fun config => config.member = member)

/-- What is told to a listener that joins: members before channels. -/
def replay (c : Center ℓ) : List Config :=
  c.vertexConfigs.map .vertex ++ c.edgeConfigs.map .edge

/-- Adds a listener, who is told what is known. -/
def addListener (c : Center ℓ) (listener : ℓ) : Center ℓ × List (Notice ℓ) :=
  ({ c with listeners := c.listeners ++ [listener] },
    c.replay.map (fun config => (listener, config)))

/-- Announces a configuration; the answer says whether it is news, in which case all listeners are
told. -/
def announce (c : Center ℓ) (config : Config) : Bool × Center ℓ × List (Notice ℓ) :=
  if c.knows config then (false, c, [])
  else
    (true, { c with configs := c.configs ++ [config] },
      c.listeners.map (fun listener => (listener, config)))

/-- Announces several configurations, one after the other; the answer is how many are news. -/
def announceAll (c : Center ℓ) : List Config → Nat × Center ℓ × List (Notice ℓ)
  | [] => (0, c, [])
  | config :: rest =>
    let (isNews, c, told) := c.announce config
    let (count, c, toldLater) := c.announceAll rest
    ((if isNews then 1 else 0) + count, c, told ++ toldLater)

end Center

/-! ### Tasks as listeners -/

/-- What a configuration makes the scheduler of a member's task do: it registers the reporters that
sample the member, as far as the task has their gates. -/
def Scheduler.configure {τ : Type} (s : Scheduler τ) (now : τ) (member : MemberId) :
    Config → Scheduler τ
  | .vertex c =>
    if c.member = member ∧ ¬ c.isDummy then
      match s.register now c.input c.output c.reporter with
      | .ok (_, s) => s
      | .error _ => s
    else s
  | .edge _ => s

/-- What several configurations, each for the member with it, make the scheduler of a task do. -/
def Scheduler.configureAll {τ : Type} (s : Scheduler τ) (now : τ)
    (told : List (Center.Notice MemberId)) : Scheduler τ :=
  told.foldl (fun s (member, config) => s.configure now member config) s

end LatencyControl
