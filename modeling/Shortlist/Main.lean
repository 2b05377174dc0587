import Shortlist.Command.Run

/-!
# The command line

Reads the configuration that the command line names, runs the command and prints its response.
-/

namespace Shortlist.CommandLine

open Command

def usageLines : List String :=
  ["usage: shortlist [-h] [-v] <command> ...",
   "",
   "commands:",
   "  check [config]                            report every problem of a configuration",
   "  evaluate [config] [--set NAME=VALUE]      show feasible outputs and their ranking",
   "  explain output [config] [--set NAME=VALUE]",
   "                                            show a score, or why an output is ruled out",
   "",
   "Without a configuration file the sample configuration is used."]

def faultText : Fault → String
  | .ornamentalDigit => "a numeral holds a digit without a value"
  | .tooManyDigits => "an integer has too many digits"
  | .notANumeral => "a weight is not a numeral"
  | .notANumber => "a number is expected"
  | .beyondDouble => "an integer is too large"
  | .notAKey => "a list or an object cannot be looked up"
  | .notAnObject => "an object is expected"
  | .notUtf8 => "the file is not UTF-8"
  | .isDirectory => "the path leads to a directory"
  | .notADirectory => "the path goes on below a file"
  | .nameTooLong => "the path is too long"
  | .zeroInPath => "the path holds the character zero"
  | .withoutKeys => "a value without keys is asked for one"
  | .nestedTooDeeply => "the configuration is nested too deeply"
  | .missingPair => "an option has no pair"

/-- The code of the operating system for a directory in place of a file. -/
def directoryCode : UInt32 := 21

/-- What an error of the operating system means for the reading of a file. -/
def ofSystemError : IO.Error → Except IO.Error (Except Fault (Option ByteArray))
  | .noFileOrDirectory .. => .ok (.ok none)
  | .inappropriateType _ code _ =>
    .ok (.error (if code = directoryCode then .isDirectory else .notADirectory))
  | .invalidArgument .. => .ok (.error .nameTooLong)
  | e => .error e

def readBytes (path : String) : IO (Except Fault (Option ByteArray)) := do
  if path.toList.contains '\x00' then return .error .zeroInPath
  try
    let text := (Path.ofText path).text
    return .ok (some (← IO.FS.readBinFile text))
  catch e => IO.ofExcept (ofSystemError e)

def configPath? (arguments : List String) : Option String :=
  match Invocation.read arguments with
  | .ok (.check config) => config
  | .ok (.evaluate config _) => config
  | .ok (.explain _ config _) => config
  | .error _ => none

/-- The files that a command line needs: at most one is read. -/
def readFiles (arguments : List String) : IO Files := do
  match configPath? arguments with
  | some path =>
    let found ← readBytes path
    return fun _ => found
  | none => return fun _ => .ok none

end Shortlist.CommandLine

open Shortlist CommandLine Command

def main (arguments : List String) : IO UInt32 := do
  match run (← readFiles arguments) arguments with
  | .ok .help =>
    usageLines.forM fun line => IO.println line
    return successCode.toUInt32
  | .ok .misuse =>
    usageLines.forM fun line => IO.eprintln line
    return usageCode.toUInt32
  | .ok (.response r) =>
    r.lines.forM fun line => IO.println line
    return r.code.toUInt32
  | .error f =>
    IO.eprintln ("error: " ++ faultText f)
    return 1
