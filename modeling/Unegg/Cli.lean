import Unegg.Run

/-!
# Unegg.Cli

The command line (`parse_args` in `main.rs`).

The arguments that are still to come are the state of the parse, as the iterator
is in the source.  An option that prints something and leaves the process stops
the parse, as an error does (`CliStop`).
-/

namespace Unegg

open Prog

structure Cli where
  list : Bool
  pipe : Bool
  quiet : Bool
  destDir : Option String
  password : Option String
  archive : String
  files : List String
  deriving Repr, DecidableEq

/-- What stops a parse. -/
inductive CliStop where
  | error (msg : String)
  /-- The usage is printed; exit status 0. -/
  | help
  /-- The version is printed; exit status 0. -/
  | version
  deriving Repr, DecidableEq

/-- What the arguments so far have set. -/
structure CliArgs where
  list : Bool := false
  pipe : Bool := false
  quiet : Bool := false
  destDir : Option String := none
  password : Option String := none
  positional : List String := []
  optionsDone : Bool := false
  deriving Repr, DecidableEq

abbrev ArgParser := Run (List String) CliStop

/-- `args.next()`. -/
def nextArg : ArgParser (Option String) := ⟨fun args => (.ok args.head?, args.tail)⟩

/-- `args.next().ok_or(msg)`. -/
def nextArgOr (msg : String) : ArgParser String := do
  match ← nextArg with
  | some arg => return arg
  | none => Run.throw (.error msg)

/-- `split_once('=')`, with the whole name when there is no `=`. -/
def splitOnce (long : List Char) : String × Option String :=
  (String.ofList (long.takeWhile (· ≠ '=')),
    match long.dropWhile (· ≠ '=') with
    | [] => none
    | _ :: value => some (String.ofList value))

/-- The value of a long option: behind the `=`, or else the next argument. -/
def longValue (name : String) (inline : Option String) (what : String) : ArgParser String :=
  match inline with
  | some value => return value
  | none => nextArgOr ("--" ++ name ++ " requires " ++ what)

/-- A long option, without its dashes. -/
def longOption (long : List Char) (s : CliArgs) : ArgParser CliArgs := do
  let (name, inline) := splitOnce long
  if name = "list" then return { s with list := true }
  else if name = "pipe" then return { s with pipe := true }
  else if name = "quiet" then return { s with quiet := true }
  else if name = "output-dir" then
    let value ← longValue name inline "a directory"
    return { s with destDir := some value }
  else if name = "password" then
    let value ← longValue name inline "a password"
    return { s with password := some value }
  else if name = "help" then Run.throw .help
  else if name = "version" then Run.throw .version
  else Run.throw (.error ("unknown option: --" ++ name))

/-- The letters of a cluster of short options; `d` and `P` take what is left of
it as their value, or else the next argument. -/
def shortCluster : List Char → CliArgs → ArgParser CliArgs
  | [], s => return s
  | c :: cs, s =>
    if c = 'l' then shortCluster cs { s with list := true }
    else if c = 'p' then shortCluster cs { s with pipe := true }
    else if c = 'q' then shortCluster cs { s with quiet := true }
    else if c = 'h' then Run.throw .help
    else if c = 'V' then Run.throw .version
    else if c = 'd' ∨ c = 'P' then do
      let value ← (if cs = [] then nextArgOr ("-" ++ c.toString ++ " requires an argument")
        else return String.ofList cs : ArgParser String)
      return if c = 'd' then { s with destDir := some value }
        else { s with password := some value }
    else Run.throw (.error ("unknown option: -" ++ c.toString))

/-- One argument, with the value it takes from behind it. -/
def readArg (arg : String) (s : CliArgs) : ArgParser CliArgs :=
  if s.optionsDone ∨ arg = "-" ∨ arg.toList.head? ≠ some '-' then
    return { s with positional := s.positional ++ [arg] }
  else if arg = "--" then return { s with optionsDone := true }
  else if arg.toList.take 2 = ['-', '-'] then longOption (arg.toList.drop 2) s
  else shortCluster (arg.toList.drop 1) s

/-- One pass of the loop over the arguments. -/
def argStep (s : CliArgs) : ArgParser (Flow CliArgs CliArgs) := do
  match ← nextArg with
  | none => return .done s
  | some arg =>
    let s ← readArg arg s
    return .next s

/-- The first positional argument is the archive. -/
def CliArgs.toCli (s : CliArgs) : Except CliStop Cli :=
  match s.positional with
  | [] => .error (.error "no archive specified")
  | archive :: files => .ok {
      list := s.list
      pipe := s.pipe
      quiet := s.quiet
      destDir := s.destDir
      password := s.password
      archive
      files }

/-- `parse_args`, on all of the arguments of the process. -/
def parseArgs : ArgParser Cli := do
  let _ ← nextArg
  let args ← Run.get
  let s ← Run.loop argStep (args.length + 1) {}
  Run.ofExcept s.toCli

end Unegg
