import Shortlist.Catalog.Stored
import Shortlist.Command.Invocation
import Shortlist.Command.Pair
import Shortlist.Command.Report
import Shortlist.Command.Sample
import Shortlist.Session

/-!
# Running a command

A command loads a catalog, gives the answers of its pairs to a new session and reports. What is
wrong with the configuration or an answer is part of the report; only a fault leaves none.
-/

namespace Shortlist.Command

/-- What a command prints, and its exit code. -/
structure Response where
  code : Nat
  lines : List String
deriving DecidableEq, Repr

/-- What comes of a command line. -/
inductive Outcome
  | help
  | misuse
  | response (r : Response)
deriving DecidableEq, Repr

def successCode : Nat := 0

def configurationCode : Nat := 1

/-- The exit code when the command line cannot be carried out. -/
def usageCode : Nat := 2

/-- Why a command cannot be carried out. -/
inductive Trouble
  | configuration (problems : List Problem)
  | rejection (r : Rejection)
  | pair (e : PairError)
  | fault (f : Fault)

def Trouble.ofConfiguration : ConfigurationError → Trouble
  | .refused problems => .configuration problems
  | .fault f => .fault f

def Trouble.ofAnswer : AnswerError → Trouble
  | .rejected r => .rejection r
  | .fault f => .fault f

def problemLines (first : String) (problems : List Problem) : Except Fault (List String) := do
  return first :: (← Problem.texts problems).map bullet

def Trouble.respond : Trouble → Except Fault Response
  | .configuration problems => do
    return ⟨configurationCode, ← problemLines "ERROR: Invalid configuration" problems⟩
  | .rejection r => .ok ⟨usageCode, ["ERROR: " ++ r.message]⟩
  | .pair e => .ok ⟨usageCode, ["ERROR: " ++ e.message]⟩
  | .fault f => .error f

def openCatalog (files : Files) : Option String → Except ConfigurationError Catalog
  | some path => Catalog.loadFile files path
  | none => Catalog.load sample

/-- The answers of pairs. A missing pair is a fault. -/
def answersOf (pairs : List (Option String)) : Except Trouble (Entries String) := do
  return Entries.ofList (← pairs.mapM fun pair =>
    match pair with
    | some pair => (readPair pair).mapError .pair
    | none => .error (.fault .missingPair))

def openSession (files : Files) (config : Option String) (pairs : List (Option String)) :
    Except Trouble Session := do
  let catalog ← (openCatalog files config).mapError .ofConfiguration
  let session ← (Session.start catalog).mapError .fault
  let answers ← answersOf pairs
  if answers.isEmpty then return session
  (session.setAll (answers.mapValues fun _ s => .text s)).mapError .ofAnswer

def check (files : Files) (config : Option String) : Except Fault Response :=
  match openCatalog files config with
  | .ok catalog => .ok ⟨successCode, catalogLines catalog⟩
  | .error (.refused problems) => do
    return ⟨configurationCode, ← problemLines "Configuration is INVALID:" problems⟩
  | .error (.fault f) => .error f

def evaluate (session : Session) : Except Fault Response := do
  return ⟨successCode, ← evaluationLines session.evaluation session.state⟩

def explain (session : Session) (output : String) : Except Fault Response :=
  match session.catalog.output? output with
  | some _ => do
    return ⟨successCode, outputLines output (← session.reasonsAgainst output) session.evaluation⟩
  | none => .ok ⟨usageCode, unknownOutputLines session.catalog output⟩

/-- Carries on with a session, or responds to the trouble that there is none for. -/
def withSession (session : Except Trouble Session)
    (next : Session → Except Fault Response) : Except Fault Response :=
  match session with
  | .ok session => next session
  | .error trouble => trouble.respond

def Invocation.run (files : Files) : Invocation → Except Fault Response
  | .check config => Command.check files config
  | .evaluate config pairs => withSession (openSession files config pairs) Command.evaluate
  | .explain output config pairs =>
    withSession (openSession files config pairs) fun session => Command.explain session output

def run (files : Files) (arguments : List String) : Except Fault Outcome :=
  match Invocation.read arguments with
  | .ok invocation => (invocation.run files).map .response
  | .error .help => .ok .help
  | .error .misuse => .ok .misuse

end Shortlist.Command
