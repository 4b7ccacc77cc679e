import Sexp.Shell.Evaluate
import Sexp.Source.Steps

/-!
# The shell

What the arguments of the program ask for, and what the program then writes and returns.

In a session each line is read and evaluated by itself. Every expression of a line is answered by
a report, which goes to the output or to the diagnostics. A line that is not UTF-8 ends the
session. A script is read as a whole before anything of it is evaluated. Its expressions are
evaluated in order up to the first error, and its result is that of the last one.

Of the file system the shell looks at a working directory with plain files in it. A path is
followed from the working directory, component by component. Nothing is known about the
directories above, but that they are directories.
-/

namespace Sexp.Shell

inductive Report where
  | result (v : Value)
  | evaluationError (e : EvalError)
  | readError (e : ReadError)
  | malformedInput

def Report.ofItem : Except ReadError Value → Report
  | .error e => .readError e
  | .ok v =>
    match evaluate v with
    | .ok r => .result r
    | .error e => .evaluationError e

def reports (r : Reader) : List Report := r.drain.1.map Report.ofItem

def lineReports (line : List Char) : List Report := reports (.ofChars (Text.trim line))

def splitLines : List UInt8 → List (List UInt8)
  | [] => []
  | b :: bytes =>
    if b = 0x0A then [] :: splitLines bytes
    else
      match splitLines bytes with
      | [] => [[b]]
      | line :: lines => (b :: line) :: lines

def sessionReports : List (List UInt8) → List Report
  | [] => []
  | line :: lines =>
    match Text.Utf8.strict? line with
    | none => [.malformedInput]
    | some chars => lineReports chars ++ sessionReports lines

namespace Report

def output : Report → String
  | result v => v.render ++ "\n"
  | _ => ""

def diagnostics : Report → String
  | result _ => ""
  | evaluationError e => "Error: " ++ e.message ++ "\n"
  | readError e => "Read error: " ++ e.message ++ "\n"
  | malformedInput => "Error: stream did not contain valid UTF-8\n"

end Report

inductive FileError where
  | notFound
  | notADirectory
  | isADirectory
  | malformed
  | other (reason : String)
  deriving DecidableEq

def FileError.text : FileError → String
  | notFound => "No such file or directory (os error 2)"
  | notADirectory => "Not a directory (os error 20)"
  | isADirectory => "Is a directory (os error 21)"
  | malformed => "stream did not contain valid UTF-8"
  | other reason => reason

abbrev Directory := Table String (List UInt8)

inductive Place where
  | here
  | above
  | file (bytes : List UInt8)

def Directory.step (d : Directory) : Place → String → Except FileError Place
  | .file _, _ => .error .notADirectory
  | place, "" | place, "." => .ok place
  | _, ".." => .ok .above
  | .here, name =>
    match d.get? name with
    | some bytes => .ok (.file bytes)
    | none => .error .notFound
  | .above, _ => .error .notFound

def components : List Char → List (List Char)
  | [] => [[]]
  | c :: cs =>
    match components cs with
    | [] => [[c]]
    | name :: names => if c = '/' then [] :: name :: names else (c :: name) :: names

/-- Follows a path. A path that starts with a slash starts at the top. -/
def Directory.follow (d : Directory) (path : String) : Except FileError Place :=
  if path.isEmpty then .error .notFound
  else
    let start := if path.toList.head? = some '/' then Place.above else .here
    ((components path.toList).map String.ofList).foldlM d.step start

def Directory.contents (d : Directory) (path : String) : Except FileError (List UInt8) := do
  match ← d.follow path with
  | .file bytes => .ok bytes
  | .here | .above => .error .isADirectory

inductive ScriptError where
  | file (path : String) (e : FileError)
  | read (e : ReadError)
  | evaluation (e : EvalError)

def ScriptError.message : ScriptError → String
  | file path e => "Failed to read file '" ++ path ++ "': " ++ e.text
  | read e => "Read error: " ++ e.message
  | evaluation e => "Evaluation error: " ++ e.message

def evaluateLast (last : Option Value) : List Value → Except EvalError (Option Value)
  | [] => .ok last
  | v :: vs =>
    match evaluate v with
    | .error e => .error e
    | .ok r => evaluateLast (some r) vs

def runText (text : List Char) : Except ScriptError (Option Value) :=
  match (Reader.ofChars text).readAll with
  | .error e => .error (.read e)
  | .ok vs =>
    match evaluateLast none vs with
    | .error e => .error (.evaluation e)
    | .ok last => .ok last

def runContents (path : String) : Except FileError (List UInt8) → Except ScriptError (Option Value)
  | .error e => .error (.file path e)
  | .ok bytes =>
    match Text.Utf8.strict? bytes with
    | none => .error (.file path .malformed)
    | some text => runText text

def runScript (d : Directory) (path : String) : Except ScriptError (Option Value) :=
  runContents path (d.contents path)

inductive Command where
  | session
  | help
  | script (path : String)
  | misuse
  deriving DecidableEq

def Command.ofArguments : List String → Command
  | [] => .session
  | [argument] => if argument = "--help" ∨ argument = "-h" then .help else .script argument
  | _ => .misuse

structure Transcript where
  exit : Nat
  output : String
  diagnostics : String

def banner : String :=
  "sxpr s-expression REPL\nForms: QUOTE, LIST, CAT, EVAL. Ctrl+D to quit\n\n"

def usage : String :=
  "Usage:\n" ++
  "  sxpr              Start interactive REPL\n" ++
  "  sxpr <file>       Evaluate every expression in a file\n" ++
  "  sxpr --help       Show this help message\n" ++
  "\n" ++
  "Set RUST_LOG=sxpr=trace to follow evaluation.\n"

namespace Transcript

def ofReports (reports : List Report) : Transcript :=
  ⟨0, banner ++ String.join (reports.map (·.output)), String.join (reports.map (·.diagnostics))⟩

def ofScript : Except ScriptError (Option Value) → Transcript
  | .ok none => ⟨0, "", ""⟩
  | .ok (some v) => ⟨0, v.render ++ "\n", ""⟩
  | .error e => ⟨1, "", e.message ++ "\n"⟩

def help : Transcript := ⟨0, "", usage⟩

def misuse : Transcript := ⟨1, "", "Error: Too many arguments\n" ++ usage⟩

end Transcript

def Command.run (d : Directory) (input : List UInt8) : Command → Transcript
  | session => .ofReports (sessionReports (splitLines input))
  | help => .help
  | script path => .ofScript (runScript d path)
  | misuse => .misuse

end Sexp.Shell
