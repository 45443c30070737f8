import Unegg.Extract.Settles
import Unegg.Main.Prompted
import Unegg.Main.Touched
import Unegg.Volume.Archive

/-!
# Unegg.Main.Returns

The process ends, with an exit status.

Whatever the arguments, the input, the answers to prompts and the system are, no
loop goes on for ever, and nothing on the way aborts but the macros that print
(`main_returns`): a message that standard error does not take, and the help and
the version where standard output fails.
-/

namespace Unegg

open Prog Bytes

variable {host : Host} {cli : Cli} {archive : EggArchive}

/-! ## the command line -/

/-- A step of the parse comes back, and puts no argument back. -/
def Eats {α : Type} (m : ArgParser α) : Prop :=
  ∀ args, Run.EndsIn (fun _ args' => args'.length ≤ args.length) (fun _ => True) (m.run args)

namespace Eats

variable {α β : Type} {m m' : ArgParser α}

/-- A value eats nothing. -/
theorem pure (a : α) : Eats (Pure.pure a) := fun _ => .ok le_rfl

theorem throw (e : CliStop) : Eats (Run.throw e : ArgParser α) := fun _ => .err trivial

/-- Two parts eat one behind the other. -/
theorem bind {f : α → ArgParser β} (hm : Eats m) (hf : ∀ a, Eats (f a)) : Eats (m >>= f) :=
  fun args => (hm args).bind fun a args' h =>
    (hf a args').mono (fun _ _ h' => h'.trans h) fun _ => id

theorem ite {p : Prop} [Decidable p] (h : Eats m) (h' : Eats m') : Eats (if p then m else m') := by
  split
  · exact h
  · exact h'

end Eats

/-- The value of an option is eaten, or its absence reported. -/
theorem eats_nextArgOr (msg : String) : Eats (nextArgOr msg) := by
  refine .bind (fun args => .ok (by simp)) fun arg => ?_
  cases arg with
  | none => exact .throw _
  | some arg => exact .pure _

/-- The value of a long option stands behind its `=`, or is eaten. -/
theorem eats_longValue (name : String) (inline : Option String) (what : String) :
    Eats (longValue name inline what) := by
  cases inline with
  | none => exact eats_nextArgOr _
  | some value => exact .pure _

/-- A long option comes back with what it leaves of the arguments. -/
theorem eats_longOption (long : List Char) (s : CliArgs) : Eats (longOption long s) := by
  refine .ite (.pure _) (.ite (.pure _) (.ite (.pure _) (.ite ?_ (.ite ?_ ?_))))
  · exact .bind (eats_longValue _ _ _) fun _ => .pure _
  · exact .bind (eats_longValue _ _ _) fun _ => .pure _
  · exact .ite (.throw _) (.ite (.throw _) (.throw _))

/-- A cluster comes back, letter by letter. -/
theorem eats_shortCluster (cs : List Char) (s : CliArgs) : Eats (shortCluster cs s) := by
  induction cs generalizing s with
  | nil => exact .pure _
  | cons c cs ih =>
      refine .ite (ih _) (.ite (ih _) (.ite (ih _) (.ite (.throw _) (.ite (.throw _) (.ite ?_ ?_)))))
      · exact .bind (.ite (eats_nextArgOr _) (.pure _)) fun _ => .pure _
      · exact .throw _

/-- Any argument comes back with what it leaves of the others. -/
theorem eats_readArg (arg : String) (s : CliArgs) : Eats (readArg arg s) :=
  .ite (.pure _) (.ite (.pure _) (.ite (eats_longOption _ _) (eats_shortCluster _ _)))

/-- The arguments are read to their end, or to an error. -/
theorem ends_parseArgs : Run.Ends parseArgs := by
  intro argv
  have hnext : nextArg.run argv = (.ok argv.head?, argv.tail) := rfl
  have hget : (Run.get : ArgParser _).run argv.tail = (.ok argv.tail, argv.tail) := rfl
  rw [parseArgs, Run.bind_of_ok hnext, Run.bind_of_ok hget]
  refine Run.EndsIn.bind_returned (Q := fun _ _ => True) (E := fun _ => True)
    ?_ fun s args _ => Run.Ends.ofExcept s.toCli args
  refine .loop (I := fun _ _ => True) (fun _ args => args.length) ?_ trivial (Nat.lt_succ_self _)
  rintro s args -
  cases args with
  | nil => exact .ok trivial
  | cons arg args =>
      have hnext : nextArg.run (arg :: args) = (.ok (some arg), args) := rfl
      rw [argStep, Run.bind_of_ok hnext]
      refine .bind (eats_readArg arg s args) fun s' args' h => ?_
      exact .ok ⟨trivial, Nat.lt_succ_of_le h⟩

/-! ## listing -/

/-- Every time of the format has a text. -/
theorem formatFiletime_total (filetime : UInt64) : ∃ text, formatFiletime filetime = some text := by
  rw [formatFiletime]
  split
  · exact ⟨_, rfl⟩
  · obtain ⟨date, hdate, -⟩ := daysToYmd_ok (days_in_range filetime)
    dsimp only
    rw [hdate]
    exact ⟨_, rfl⟩

/-- Every entry has a line in the listing. -/
theorem listLine_total (entry : EggFileEntry) : ∃ line, listLine entry = some line := by
  have htime : ∃ text, timeOf entry = some text := by
    rw [timeOf]
    split
    · exact formatFiletime_total _
    · exact ⟨_, rfl⟩
  obtain ⟨text, htime⟩ := htime
  exact ⟨_, by rw [listLine, htime]; rfl⟩

/-- A listing comes back, whatever standard output takes. -/
theorem ends_listEntries (os : Os) (entries : List EggFileEntry) :
    Run.Ends (listEntries os entries) := by
  refine .forEach fun entry _ => ?_
  obtain ⟨line, hline⟩ := listLine_total entry
  rw [listEntry, hline]
  exact ByteSink.ends_writeAll (ends_osWrite os .stdout) _

/-! ## one archive -/

/-- What comes back on the world comes back in the process. -/
theorem ends_onWorld {ε α : Type} {m : Run World ε α} (h : Run.Ends m) :
    Run.Ends (onWorld m) := fun p => h p.world

/-- A line on standard error comes back, or panics where it is refused. -/
theorem endsOr_eprintln {ε : Type} (line : String) :
    Run.EndsOr host.Refuses (eprintln host line : Run Process ε Unit) := by
  intro p
  rcases @eprintln_run ε host line p with h | ⟨h, hrefuses⟩
  · rw [h]
    exact .inl rfl
  · rw [h]
    exact .inr ⟨rfl, hrefuses⟩

/-- A line that is not always printed comes back, or panics where it is refused. -/
theorem endsOr_noteIf {ε : Type} (c : Bool) (line : String) :
    Run.EndsOr host.Refuses (noteIf host c line : Run Process ε Unit) :=
  .ite (endsOr_eprintln _) (.of_ends (.pure _))

/-- A listing panics only over the lines in front of it. -/
theorem endsOr_listArchive : Run.EndsOr host.Refuses (listArchive host archive) :=
  .bind (endsOr_noteIf _ _) fun _ => .bind (endsOr_noteIf _ _) fun _ =>
    .of_ends (ends_onWorld (ends_listEntries host.os archive.entries))

/-- The prompts come back, the third wrong answer included. -/
theorem endsOr_promptAttempts (entries : List EggFileEntry) (attempts : List Nat) :
    Run.EndsOr host.Refuses (promptAttempts host entries attempts) := by
  induction attempts with
  | nil => exact .of_ends (.throw _)
  | cons attempt attempts ih =>
      refine .bind (.of_ends fun _ => rfl) fun answer => ?_
      cases answer with
      | none => exact .of_ends (.throw _)
      | some pw =>
          refine .bind (.of_ends (.mapErr (.ofExcept _))) fun _ => .ite (.of_ends (.pure _)) ?_
          exact .bind (endsOr_eprintln _) fun _ => ih

/-- A password is found, missing, or wrong. -/
theorem endsOr_findPassword : Run.EndsOr host.Refuses (findPassword host cli archive) := by
  rw [findPassword]
  split
  · exact .of_ends (.pure _)
  · exact .ite (.bind (endsOr_promptAttempts _ _) fun _ => .of_ends (.pure _)) (.of_ends (.pure _))

/-- An archive is listed or extracted, with passes enough for its load. -/
theorem endsOr_runArchive (hcrates : host.crates.Settle)
    (hfuel : load archive.entries < host.crates.fuel) :
    Run.EndsOr host.Refuses (runArchive host cli archive) := by
  cases hlist : cli.list with
  | true =>
      rw [runArchive, if_pos hlist]
      refine .bind (fun p => (endsOr_listArchive p).attempt) fun result => ?_
      cases result with
      | error e => exact .of_ends (.ite (.throw _) (.pure _))
      | ok u => exact .of_ends (.pure _)
  | false =>
      rw [runArchive_eq hlist]
      refine .bind endsOr_findPassword fun password => .bind (.of_ends ?_) fun _ => endsOr_noteIf _ _
      exact .mapErr (ends_onWorld (ends_extraction _ _ _ _ _ _ hcrates hfuel))

/-! ## opening it -/

/-- The volumes of a split archive are small enough for the reader's positions. -/
def SmallVolumes (host : Host) (path : String) : Prop :=
  ∀ first r u, host.file path = .ok first → (tryOpen (host.dir path) first).run () = (.ok (some r), u) →
    SmallFiles (host.dir path) first ∧ r.totalSize < 2 ^ 61

theorem returned_mapErr {ε ε' α : Type} {f : ε → ε'} {o : Outcome ε α} (h : o.returned) :
    (o.mapErr f).returned := by
  cases o <;> exact h

/-- Opening from memory comes back. -/
theorem ends_openCursor (bytes : List UInt8) : Run.Ends (openCursor host bytes) := fun _ =>
  returned_mapErr (ends_open host.pages ⟨bytes, 0⟩)

/-- Joining the volumes comes back. -/
theorem ends_openVolumes (path : String) : Run.Ends (openVolumes host path) :=
  .bind (.mapErr (.ofExcept _)) fun first _ => returned_mapErr (ends_tryOpen (host.dir path) first ())

/-- What the volumes join to is opened as the parser would open it from a cursor. -/
theorem openSplit_returned {path : String} (hsmall : SmallVolumes host path)
    {r : MultiVolumeReader} {p q : Process}
    (h : (openVolumes host path).run p = (.ok (some r), q)) :
    ((openSplit host r).run q).1.returned := by
  rw [openVolumes, Run.bind_ok] at h
  obtain ⟨first, p₁, hfirst, hrun⟩ := h
  obtain ⟨hfirst, -⟩ := Run.ofExcept_ok.mp (Run.mapErr_ok.mp hfirst)
  rcases htry : (tryOpen (host.dir path) first).run () with ⟨volumes | e | _ | _, u⟩
  · simp only [htry, Outcome.mapErr, Prod.mk.injEq, Outcome.ok.injEq] at hrun
    obtain ⟨rfl, rfl⟩ := hrun
    obtain ⟨hfiles, htotal⟩ := hsmall first r u hfirst htry
    have hat := tryOpen_at htry hfiles host.amounts
    have htotal_eq : r.totalSize = _ := hat.represents.consistent.total_eq
    obtain ⟨outcome, v, c, hparse, hcursor, -⟩ := hat.parses (htotal_eq ▸ htotal) host.pages
    have hends := ends_open host.pages ⟨contents r.segments, 0⟩
    rw [hcursor] at hends
    simp only [openSplit, hparse]
    refine returned_mapErr ?_
    cases outcome <;> exact hends
  all_goals simp [htry, Outcome.mapErr] at hrun

/-- **Every input is opened, or refused**, unless standard error does not take that
it is split. -/
theorem endsOr_openAny (hsmall : SmallVolumes host cli.archive) :
    Run.EndsOr host.Refuses (openAny host cli) := by
  refine .ite (.of_ends ?_) fun p => ?_
  · exact .bind (.mapErr (.ofExcept _)) fun _ => ends_openCursor _
  · refine .bind (.of_ends (ends_openVolumes _) p) fun volumes q hq => ?_
    cases volumes with
    | none =>
        have hcursor : Run.Ends (do
            let data ← Run.mapErr (.egg ∘ .cantOpenFile) (Run.ofExcept (host.file cli.archive))
            openCursor host data) := .bind (.mapErr (.ofExcept _)) fun _ => ends_openCursor _
        exact .of_ends hcursor q
    | some reader =>
        refine .bind (.inl (openSplit_returned hsmall hq)) fun archive q' _ => ?_
        exact Run.EndsOr.bind (endsOr_noteIf _ _) (fun _ => .of_ends (.pure _)) q'

/-! ## the process -/

/-- A command line is carried out or refused, and panics only over standard error. -/
theorem returnsOr_run (hcrates : host.crates.Settle) (hsmall : SmallVolumes host cli.archive)
    {p : Process} (hfuel : ∀ archive, ((openAny host cli).run p).1 = .ok archive →
      load archive.entries < host.crates.fuel) :
    Run.ReturnsOr host.Refuses ((run host cli).run p) := by
  rw [run_eq]
  refine .bind (endsOr_openAny hsmall p) fun archive q hq => ?_
  exact endsOr_runArchive hcrates (hfuel archive (by rw [hq])) q

/-- Printing, and then a status. -/
theorem eprintln_status (host : Host) (line : String) (status : Nat) (p : Process) :
    ((do eprintln host line; return status : Run Process Empty Nat).run p).1 = .ok status ∨
      ((do eprintln host line; return status : Run Process Empty Nat).run p).1 = .panic ∧
        host.Refuses ((do eprintln host line; return status : Run Process Empty Nat).run p).2 := by
  rcases @eprintln_run Empty host line p with hprint | ⟨hprint, hrefuses⟩
  · rw [Run.bind_of_ok hprint]
    exact .inl rfl
  · rw [Run.bind_of_panic hprint]
    exact .inr ⟨rfl, hrefuses⟩

/-- The report ends with status 0 or 1, or with a refused line. -/
theorem report_status (result : Except MainError Unit) (p : Process) :
    (∃ status ≤ 1, ((report host cli result).run p).1 = .ok status) ∨
      ((report host cli result).run p).1 = .panic ∧
        host.Refuses ((report host cli result).run p).2 := by
  cases result with
  | ok u => exact .inl ⟨0, by omega, rfl⟩
  | error e =>
      rw [report]
      split
      · exact .inl ⟨0, by omega, rfl⟩
      · exact (eprintln_status host _ 1 p).imp (fun h => ⟨1, le_rfl, h⟩) id

/-- `println!` comes back unless standard output fails. -/
theorem println_run (os : Os) (line : String) (p : Process) :
    ((println os line : Run Process Empty Unit).run p).1 = .ok () ∨
      ((println os line : Run Process Empty Unit).run p).1 = .panic ∧
        ∃ e w, ((os.sink .stdout).writeAll (utf8Bytes (line ++ "\n"))).run p.world = (.err e, w) := by
  have hends := ByteSink.ends_writeAll (ends_osWrite os .stdout)
    (utf8Bytes (line ++ "\n")) p.world
  rw [println, Run.bind_run, Run.attempt, onWorld, Run.zoom]
  dsimp only
  rcases hwrite : ((os.sink .stdout).writeAll (utf8Bytes (line ++ "\n"))).run p.world with
    ⟨u | e | _ | _, w⟩
  · exact .inl rfl
  · exact .inr ⟨rfl, e, w, rfl⟩
  all_goals simp [hwrite, Outcome.returned] at hends

/-- The help and the version: exit status 0, or an abort. -/
theorem println_status (os : Os) (line : String) :
    (∃ status ≤ 2, ((do println os line; return 0 : Run Process Empty Nat).run .start).1 =
        .ok status) ∨
      ((do println os line; return 0 : Run Process Empty Nat).run .start).1 = .panic ∧
        ∃ e w, ((os.sink .stdout).writeAll (utf8Bytes (line ++ "\n"))).run [] = (.err e, w) := by
  have hrun := println_run os line .start
  rw [Run.bind_run]
  rcases hprint : (println os line : Run Process Empty Unit).run .start with ⟨u | e | _ | _, p⟩
  · exact .inl ⟨0, by omega, rfl⟩
  · exact e.elim
  · rw [hprint] at hrun
    exact .inr ⟨rfl, (hrun.resolve_left (by simp)).2⟩
  · simp [hprint] at hrun

/-- **The process ends**, with exit status 0, 1 or 2; nothing aborts but a message
that standard error does not take, and the help and the version when standard
output does not take them. -/
theorem main_returns (hcrates : host.crates.Settle) (args : List String)
    (hsmall : ∀ cli, (parseArgs.run args).1 = .ok cli → SmallVolumes host cli.archive)
    (hfuel : ∀ cli archive, (parseArgs.run args).1 = .ok cli →
      ((openAny host cli).run .start).1 = .ok archive → load archive.entries < host.crates.fuel) :
    (∃ status ≤ 2, ((main host args).run .start).1 = .ok status) ∨
      ((main host args).run .start).1 = .panic ∧
        (host.Refuses ((main host args).run .start).2 ∨
          ∃ text e w, ((parseArgs.run args).1 = .err .help ∧ text = usage ∨
              (parseArgs.run args).1 = .err .version ∧ text = versionText) ∧
            ((host.os.sink .stdout).writeAll (utf8Bytes (text ++ "\n"))).run [] = (.err e, w)) := by
  have hends := ends_parseArgs args
  unfold main
  rcases hparse : (parseArgs.run args).1 with cli | stop | _ | _
  · have hrun := returnsOr_run hcrates (hsmall cli hparse) (p := .start) fun archive hopen =>
      hfuel cli archive hparse hopen
    rcases hresult : (run host cli).run .start with ⟨u | e | _ | _, p⟩
    · dsimp only
      rw [Run.bind_of_ok (Run.attempt_of_ok hresult)]
      exact (report_status (.ok u) p).imp (fun h => h.imp fun _ h => ⟨h.1.trans (by decide), h.2⟩)
        fun h => ⟨h.1, .inl h.2⟩
    · dsimp only
      rw [Run.bind_of_ok (Run.attempt_of_err hresult)]
      exact (report_status (.error e) p).imp (fun h => h.imp fun _ h => ⟨h.1.trans (by decide), h.2⟩)
        fun h => ⟨h.1, .inl h.2⟩
    · rw [hresult] at hrun
      dsimp only
      rw [Run.bind_of_panic (Run.attempt_of_panic hresult)]
      exact .inr ⟨rfl, .inl hrun.of_panic⟩
    · rw [hresult] at hrun
      exact hrun.not_hang.elim
  · cases stop with
    | error e =>
        exact (eprintln_status host _ 2 .start).imp (fun h => ⟨2, le_rfl, h⟩)
          fun h => ⟨h.1, .inl h.2⟩
    | help =>
        dsimp only
        rcases println_status host.os usage with hstatus | ⟨hpanic, e, w, hfail⟩
        · exact .inl hstatus
        · exact .inr ⟨hpanic, .inr ⟨usage, e, w, .inl ⟨rfl, rfl⟩, hfail⟩⟩
    | version =>
        dsimp only
        rcases println_status host.os versionText with hstatus | ⟨hpanic, e, w, hfail⟩
        · exact .inl hstatus
        · exact .inr ⟨hpanic, .inr ⟨versionText, e, w, .inr ⟨rfl, rfl⟩, hfail⟩⟩
  all_goals simp [hparse, Outcome.returned] at hends

/-- The host of `askingHost`, with an inflater that takes what it is given. -/
def inflatingHost : Host :=
  { askingHost with crates := { Crates.storeOnly with inflate := pairInflate, fuel := 8 } }

/-- The inflater of the host makes progress, and its other decoders refuse. -/
theorem inflatingHost_settle : inflatingHost.crates.Settle where
  inflate := pairInflate_progresses
  lzma := fun _ _ _ _ => trivial
  azo := fun _ _ _ _ _ => trivial

/-- An archive on standard input, extracted through a decoder that makes progress. -/
theorem main_returns_inflating :
    ∃ status ≤ 2, ((main inflatingHost ["unegg", "-d", "out", "-"]).run .start).1 = .ok status := by
  have hparse : (parseArgs.run ["unegg", "-d", "out", "-"]).1 =
      .ok ⟨false, false, false, some "out", none, "-", []⟩ := by
    decide +kernel
  have hload : ((openAny inflatingHost ⟨false, false, false, some "out", none, "-", []⟩).run
      .start).1.map (fun archive => load archive.entries) = .ok 6 := by
    decide +kernel
  refine (main_returns inflatingHost_settle ["unegg", "-d", "out", "-"] ?_ ?_).resolve_right ?_
  · intro cli _ first r u hfirst
    simp [inflatingHost, askingHost] at hfirst
  · intro cli archive hcli hopen
    obtain rfl := Outcome.ok.inj (hparse.symm.trans hcli)
    rw [hopen, Outcome.map, Outcome.ok.injEq] at hload
    rw [hload]
    decide
  · rintro ⟨-, ⟨line, hline⟩ | ⟨text, e, w, hstop, -⟩⟩
    · cases hline
    · simp [hparse] at hstop

end Unegg
