import Unegg.Cli
import Unegg.Extract
import Unegg.Listing
import Unegg.Volume.Reader
import Unegg.Volume.Open

/-!
# Unegg.Main

The process (`main.rs`): from its arguments to its exit status.

What it can ask of its surroundings is a parameter (`Host`); what it has done is
its state (`Process`).  Its arguments are valid Unicode; `env::args` aborts at
one that is not.  A path names one file with one content for as long as the
process runs.  Extracting from a split archive reads the contents of its volumes
as a cursor on them.

`println!` and `eprintln!` abort the process, with status 101, where their
stream takes no more (`Outcome.panic`).
-/

namespace Unegg

open Prog Bytes

/-- `Box<dyn Error>`. -/
inductive MainError where
  | egg (e : EggError)
  | io (e : IoError)
  | text (s : String)
  deriving Repr, DecidableEq

namespace MainError

def toString : MainError → String
  | egg e => e.toString
  | io e => e.text
  | text s => s

/-- `downcast_ref::<EggError>()`, and that is a broken pipe. -/
def isBrokenPipe : MainError → Bool
  | egg e => e.isBrokenPipe
  | _ => false

end MainError

/-- The surroundings of the process. -/
structure Host where
  crates : Crates
  pages : CodePages
  os : Os
  /-- All of standard input. -/
  stdin : Except IoError (List UInt8)
  /-- The content of the file at a path. -/
  file : String → Except IoError (List UInt8)
  /-- The directory that a path lies in. -/
  dir : String → List DirEntry
  /-- What the reads of volumes deliver. -/
  amounts : Nat → Nat
  /-- The answer to a prompt, counted from 0; `none` without a terminal. -/
  tty : Nat → Option String
  /-- Whether standard error takes a line, behind the lines it has. -/
  stderr : List String → String → Bool

structure Process where
  world : World
  /-- The lines on standard error. -/
  stderr : List String
  prompts : Nat
  deriving Repr, DecidableEq

def Process.start : Process := ⟨[], [], 0⟩

/-- Standard error takes every line. -/
def Host.Heard (host : Host) : Prop := ∀ lines line, host.stderr lines line = true

/-- There is a line that standard error does not take now. -/
def Host.Refuses (host : Host) (p : Process) : Prop := ∃ line, host.stderr p.stderr line = false

theorem Host.Heard.takes {host : Host} (h : host.Heard) (p : Process) : ¬ host.Refuses p := by
  rintro ⟨line, hline⟩
  simp [h p.stderr line] at hline

abbrev Main := Run Process MainError

/-- What is done to the outside. -/
def onWorld {ε α : Type} (m : Run World ε α) : Run Process ε α :=
  Run.zoom Process.world (fun world p => { p with world }) m

/-- `eprintln!`, which aborts when standard error takes no more. -/
def eprintln {ε : Type} (host : Host) (line : String) : Run Process ε Unit := ⟨fun p =>
  if host.stderr p.stderr line then (.ok (), { p with stderr := p.stderr ++ [line] })
  else (.panic, p)⟩

/-- A line is printed, or the process aborts. -/
theorem eprintln_run {ε : Type} (host : Host) (line : String) (p : Process) :
    (eprintln host line : Run Process ε Unit).run p =
        (.ok (), { p with stderr := p.stderr ++ [line] }) ∨
      (eprintln host line : Run Process ε Unit).run p = (.panic, p) ∧ host.Refuses p := by
  simp only [eprintln]
  cases hline : host.stderr p.stderr line with
  | true => exact .inl rfl
  | false => exact .inr ⟨rfl, line, hline⟩

/-- `if c { eprintln!(..) }`. -/
def noteIf {ε : Type} (host : Host) (c : Bool) (line : String) : Run Process ε Unit :=
  if c then eprintln host line else return ()

/-- A message is printed where it is due, or the process aborts at it. -/
theorem noteIf_run {ε : Type} (host : Host) (c : Bool) (line : String) (p : Process) :
    (noteIf host c line : Run Process ε Unit).run p =
        (.ok (), { p with stderr := p.stderr ++ if c then [line] else [] }) ∨
      (noteIf host c line : Run Process ε Unit).run p = (.panic, p) ∧ host.Refuses p ∧ c = true := by
  cases c with
  | false => exact .inl (by simp [noteIf])
  | true => exact (eprintln_run host line p).imp id fun h => ⟨h.1, h.2, rfl⟩

/-- `println!`, which aborts when standard output takes no more. -/
def println {ε : Type} (os : Os) (line : String) : Run Process ε Unit := do
  match ← Run.attempt (onWorld ((os.sink .stdout).writeAll (utf8Bytes (line ++ "\n")))) with
  | .error _ => Run.panic
  | .ok _ => return ()

/-- `rpassword::prompt_password`. -/
def readPassword {ε : Type} (host : Host) : Run Process ε (Option String) := ⟨fun p =>
  (.ok (host.tty p.prompts), { p with prompts := p.prompts + 1 })⟩

section Process

variable (host : Host)

/-! ## passwords -/

/-- The loop of `prompt_password` over the attempts that are left. -/
def promptAttempts (entries : List EggFileEntry) : List Nat → Main String
  | [] => Run.throw (.egg .invalidPassword)
  | attempt :: attempts => do
    match ← readPassword host with
    | none => Run.throw (.text "password required (use --password)")
    | some pw =>
      let valid ← Run.mapErr .egg (Run.ofExcept (verifyPassword host.crates entries pw))
      if valid then return pw
      else
        eprintln host ("unegg: incorrect password" ++ if attempt < 3 then ", try again" else "")
        promptAttempts entries attempts

def promptPassword (entries : List EggFileEntry) : Main String :=
  promptAttempts host entries [1, 2, 3]

/-! ## one archive -/

def listArchive (archive : EggArchive) : Run Process IoError Unit := do
  noteIf host archive.isSolid "[solid archive]"
  noteIf host archive.splitInfo.isSome "[split archive]"
  onWorld (listEntries host.os archive.entries)

/-- The password of an extraction. -/
def findPassword (cli : Cli) (archive : EggArchive) : Main (Option String) :=
  match cli.password with
  | some p => return some p
  | none =>
    if archive.isEncrypted then do
      let prompted ← promptPassword host archive.entries
      return some prompted
    else return none

def runArchive (cli : Cli) (archive : EggArchive) : Main Unit :=
  if cli.list then do
    match ← Run.attempt (listArchive host archive) with
    | .error e => if e.kind ≠ .brokenPipe then Run.throw (.io e) else return ()
    | .ok _ => return ()
  else do
    let destDir := components (cli.destDir.getD ".")
    let password ← findPassword host cli archive
    Run.mapErr .egg (onWorld
      (if cli.files = [] then
        extractAll host.crates host.os archive destDir password cli.pipe
      else extractFiles host.crates host.os archive destDir password cli.pipe cli.files))
    noteIf host (!cli.quiet && !cli.pipe)
      ("extracted " ++ archive.entries.length.repr ++ " entries")

/-! ## opening it -/

/-- Open an archive that is a cursor on its bytes. -/
def openCursor (bytes : List UInt8) : Main EggArchive := ⟨fun p =>
  (((EggArchive.open' host.pages).run ⟨bytes, 0⟩).1.mapErr .egg, p)⟩

/-- `MultiVolumeReader::try_open`. -/
def openVolumes (path : String) : Main (Option MultiVolumeReader) := do
  let first ← Run.mapErr (.egg ∘ .cantOpenFile) (Run.ofExcept (host.file path))
  ⟨fun p => (((tryOpen (host.dir path) first).run ()).1.mapErr .egg, p)⟩

/-- `EggArchive::open` on the volumes; the archive reads their contents. -/
def openSplit (reader : MultiVolumeReader) : Main EggArchive := ⟨fun p =>
  let r := (Reader.openArchive host.pages).run (⟨reader, host.amounts⟩ : VolumeReader)
  ((r.1.map fun o => o.archive
    ⟨contents r.2.reader.segments, r.2.reader.logicalPos⟩).mapErr .egg, p)⟩

def run (cli : Cli) : Main Unit :=
  if cli.archive = "-" then do
    let data ← Run.mapErr .io (Run.ofExcept host.stdin)
    let archive ← openCursor host data
    runArchive host cli archive
  else do
    match ← openVolumes host cli.archive with
    | some reader =>
      let archive ← openSplit host reader
      noteIf host (!cli.quiet && !cli.pipe)
        ("split archive: " ++ reader.segments.length.repr ++ " volumes")
      runArchive host cli archive
    | none =>
      let data ← Run.mapErr (.egg ∘ .cantOpenFile) (Run.ofExcept (host.file cli.archive))
      let archive ← openCursor host data
      runArchive host cli archive

/-! ## the process -/

def usage : String :=
"Usage: unegg [OPTION]... ARCHIVE [FILE]...
  or:  unegg [OPTION]... - [FILE]...

Extract files from an EGG archive, or list its contents. With no FILE
operand every file is extracted; otherwise only the named FILEs are.
A single '-' in place of ARCHIVE reads the archive from standard input.

  -l, --list            list the archive contents, do not extract
  -d, --output-dir=DIR  extract into DIR instead of the current directory
  -p, --pipe            write extracted files to standard output
  -P, --password=PW     decrypt the archive with password PW
  -q, --quiet           suppress informational messages
  -h, --help            display this help and exit
  -V, --version         display version information and exit

Report bugs at <https://github.com/alkegi/unegg/issues>."

def versionText : String := "unegg 0.2.1"

/-- The exit status of a run.  A reader that closes the pipe is a normal stop. -/
def report (cli : Cli) : Except MainError Unit → Run Process Empty Nat
  | .ok _ => return 0
  | .error e =>
    if cli.pipe && e.isBrokenPipe then return 0
    else do
      eprintln host ("unegg: " ++ e.toString)
      return 1

/-- The process from its arguments on: its exit status. -/
def main (args : List String) : Run Process Empty Nat :=
  match (parseArgs.run args).1 with
  | .err (.error e) => do
    eprintln host ("unegg: " ++ e ++ "\n" ++ usage)
    return 2
  | .err .help => do
    println host.os usage
    return 0
  | .err .version => do
    println host.os versionText
    return 0
  | .panic => Run.panic
  | .hang => Run.hang
  | .ok cli => do
    let result ← Run.attempt (run host cli)
    report host cli result

end Process

end Unegg
