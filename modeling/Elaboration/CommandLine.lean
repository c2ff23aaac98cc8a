import Elaboration.Demo

/-!
# Command line

`demo NAME` elaborates a bundled program and prints its value and type; `demo --list` lists the
bundled programs. Arguments that cannot be read end with status 2, an unknown demo or one with
failures with status 1.
-/

namespace Elaboration
namespace CommandLine

/-- What a run writes, and its exit status. -/
structure Output where
  exit : Nat
  stdout : String := ""
  stderr : String := ""
deriving Repr

/-- What the arguments ask for. -/
inductive Request where
  | version
  | help
  | list
  | demo (name : String)
  /-- The arguments cannot be read. -/
  | usageError
deriving DecidableEq, Repr

/-- Name and version of the program. -/
def versionText : String := "kiln 0.1.0\n"

/-- How the program is used. -/
def usageText : String := "Usage: kiln demo [--list] <NAME>\n"

/-- Whether an argument is an option: it starts with a dash and is not a dash alone. -/
def isOption (arg : String) : Bool := arg.startsWith "-" && arg ≠ "-"

/-- Whether an argument is a group of short options that starts with a given letter. -/
def isShort (arg : String) (letter : Char) : Bool :=
  arg.toList.take 2 = ['-', letter]

/-- Reads the arguments of `demo`: whether `--list` was given, and the name. -/
def readDemo : Bool → Option String → List String → Request
  | true, _, [] => .list
  | false, some name, [] => .demo name
  | false, none, [] => .usageError
  | list, name, "--" :: rest => readNames list name rest
  | list, name, arg :: rest =>
    if arg = "--list" then
      if list then .usageError else readDemo true name rest
    else if arg = "--help" || isShort arg 'h' then .help
    else if isOption arg then .usageError
    else if name.isSome then .usageError
    else readDemo list (some arg) rest
where
  /-- Reads what follows `--`: no option any more. -/
  readNames : Bool → Option String → List String → Request
    | true, _, [] => .list
    | false, some name, [] => .demo name
    | false, none, [] => .usageError
    | list, none, arg :: rest => readNames list (some arg) rest
    | _, some _, _ :: _ => .usageError

/-- Reads the arguments. -/
def read : List String → Request
  | "demo" :: rest => readDemo false none rest
  | "help" :: _ => .help
  | arg :: _ =>
    if arg = "--version" || isShort arg 'V' then .version
    else if arg = "--help" || isShort arg 'h' then .help
    else .usageError
  | [] => .usageError

/-- Whether terms are coloured (`from_env`): as it is said outright, or else where the terminal is
able to and colours are not refused. -/
def wantsColour (env : String → Option String) : Bool :=
  match (env "KILN_COLORIZE").map String.toLower with
  | some "always" => true
  | some "always-ansi" => true
  | some "never" => false
  | _ =>
    match env "TERM" with
    | none => false
    | some term => term ≠ "dumb" && (env "NO_COLOR").isNone

/-- A text filled up with spaces to a number of columns. -/
def padRight (columns : Nat) (s : String) : String :=
  s ++ String.ofList (List.replicate (columns - s.length) ' ')

/-- The list of demos. -/
def listText : String :=
  String.join (Demo.all.map fun d => padRight 16 d.name ++ d.description ++ "\n")

/-- A labelled term on a line of its own. -/
def labelled (colour : Bool) (names : Names) (label : String) (t : Term) : String :=
  let cfg : PrintConfig := {}
  let doc := t.doc cfg names
  label ++ ": " ++ (if colour then doc.renderColoured cfg.width else doc.render cfg.width) ++ "\n"

/-- A failure as it is shown. -/
def failureText (f : Failure) : String :=
  f.code ++ ": " ++ f.message ++ "\n" ++
    match f.help? with
    | some help => help ++ "\n"
    | none => ""

/-- Elaborates a demo and prints the normal forms of its value and type. -/
def runDemo (colour : Bool) (name : String) : Output :=
  match Demo.find? name with
  | none => { exit := 1, stderr := "There is no demo called \"" ++ name ++ "\"\n" }
  | some d =>
    match d.result? with
    | none => { exit := 101 }
    | some r =>
      { exit := if r.failures.isEmpty then 0 else 1
        stdout := labelled colour r.names "value" r.reduced.value ++
          labelled colour r.names "type" r.reduced.type
        stderr := String.join (r.failures.map failureText) }

/-- Runs the program with arguments and environment (`exec`). -/
def run (args : List String) (env : String → Option String) : Output :=
  match read args with
  | .version => { exit := 0, stdout := versionText }
  | .help => { exit := 0, stdout := usageText }
  | .list => { exit := 0, stdout := listText }
  | .demo name => runDemo (wantsColour env) name
  | .usageError => { exit := 2, stderr := usageText }

end CommandLine
end Elaboration
