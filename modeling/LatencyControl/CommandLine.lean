import LatencyControl.Json.Writer
import LatencyControl.Role.Deployment

/-!
# The command line

The program takes the description of a job, and settings if there are any, and prints an overview of
the roles of every host.  What it needs from outside is the content of two files, so all of it is a
function of their bytes.
-/

namespace LatencyControl.CommandLine

/-- What the command line asks for. -/
structure Arguments where
  /-- The file with the description of the job. -/
  job : String
  /-- The file with the settings; without one, the defaults apply. -/
  settings : Option String
  deriving DecidableEq, Repr

/-- What follows a given start of a text. -/
def after? (start text : String) : Option String :=
  if text.startsWith start then some (text.drop start.length).toString else none

/-- Reads arguments in the forms `--name value` and `--name=value`, each name once. -/
def readArguments : List String → Option String → Option String → Option Arguments
  | [], some job, settings => some { job, settings }
  | [], none, _ => none
  | "--job" :: value :: rest, none, settings => readArguments rest (some value) settings
  | "--config" :: value :: rest, job, none => readArguments rest job (some value)
  | argument :: rest, job, settings =>
    match after? "--job=" argument, after? "--config=" argument with
    | some value, _ => if job.isNone then readArguments rest (some value) settings else none
    | none, some value => if settings.isNone then readArguments rest job (some value) else none
    | none, none => none

/-- Reads the arguments of the program. -/
def Arguments.ofList? (arguments : List String) : Option Arguments :=
  readArguments arguments none none

/-- Settings from the content of a file, where `none` stands for a missing file; they have to be
valid. -/
def settingsOfFile (content : Option ByteArray) : Except Error Settings := do
  let settings ← readDocumentFile Settings.ofJson? content
  settings.validate
  return settings

/-- Deploys the job described by the content of a file. -/
def deployFile (content : Option ByteArray) (settings : Settings) : Except Error DeployedJob := do
  let job ← readDocumentFile Job.ofJson? content
  DeployedJob.ofJob job settings none

/-- Deploys a job given the content of its file, and of the file with the settings if one is
named.  The settings are read first. -/
def deployFiles (settings : Option (Option ByteArray)) (job : Option ByteArray) :
    Except Error DeployedJob := do
  let settings ← match settings with
    | some content => settingsOfFile content
    | none => pure {}
  deployFile job settings

/-- The overview that is printed for a deployed job. -/
def overview (d : DeployedJob) : String :=
  (Json.list RoleSet.Summary.toJson d.summaries).pretty ++ "\n"

/-- The exit code and the output of the program, given the content of its files. -/
def run (settings : Option (Option ByteArray)) (job : Option ByteArray) : Nat × String :=
  match deployFiles settings job with
  | .ok d => (0, overview d)
  | .error _ => (1, "")

end LatencyControl.CommandLine
