import Unegg.Extract.Containment
import Unegg.Main
import Unegg.Writer.Roundtrip

/-!
# Unegg.Main.Touched

What the process does to the outside (`main_touches`): a listing and an
extraction to standard output touch nothing else, and an extraction to a
directory stays below the one that the command line names and leaves standard
output alone; on every run, whatever the archive, the host and the arguments are.
-/

namespace Unegg

open Prog

variable {crates : Crates} {os : Os} {archive : EggArchive} {entries : List EggFileEntry}
  {dest : Path} {password : Option String} {filter : Option (List String)} {entry : EggFileEntry}
  {host : Host} {cli : Cli}

/-! ## standard output alone -/

/-- An event of standard output. -/
def Event.OnStdout : Event → Prop
  | .stdout | .write .stdout _ => True
  | _ => False

/-- Where the test is known, its branch is what counts. -/
theorem steps_of_pos {σ ε α : Type} {R : σ → σ → Prop} {p : Prop} [Decidable p] {m m' : Run σ ε α}
    (hp : p) (h : Run.Steps R m) : Run.Steps R (if p then m else m') := by
  rwa [if_pos hp]

/-- Extracting an entry into a pipe touches standard output alone. -/
theorem piped_extractEntry : Run.Steps (Adds Event.OnStdout)
    (extractEntry crates os archive dest password true entry) := by
  refine .bind (.ofExcept _) fun target => .ite (steps_of_pos rfl (.pure _)) (.ite ?_ ?_)
  · exact .ite (.throw _) (steps_of_pos rfl (.pure _))
  · refine .bind (.ofExcept _) fun crypto => .bind (adds_onReader _) fun _ w => ?_
    have hopen : (openWriter os true target).run w = (.ok .stdout, w ++ [.stdout]) := rfl
    have hout : ∀ bs, (Event.write .stdout bs).OnStdout := fun _ => trivial
    refine Run.step_bind ?_ fun out w₁ hrun => ?_
    · rw [hopen]
      exact Adds.one trivial w
    · rw [hopen, Prod.mk.injEq, Outcome.ok.injEq] at hrun
      obtain ⟨rfl, rfl⟩ := hrun
      refine Run.Steps.bind (.attempt (adds_extractBlocks hout _ _)) (fun r => ?_) _
      cases r with
      | error e => exact .bind (steps_of_pos rfl (.pure _)) fun _ => .throw _
      | ok u => exact steps_of_pos rfl (.pure _)

/-- A sink that has no file. -/
def SolidSink.NoFile (s : SolidSink) : Prop := s.writer = none ∨ s.writer = some .stdout

/-- A step of a sink that has no file. -/
def PipedStep (x y : SolidSink × World) : Prop :=
  x.1.NoFile → y.1.NoFile ∧ Adds Event.OnStdout x.2 y.2

/-- No method of a piped sink opens a file. -/
theorem piped_methods {cfg : SinkConfig} (hpipe : cfg.pipeMode = true) :
    SolidSink.MethodRule os cfg PipedStep where
  refl := fun x hx => ⟨hx, Std.Refl.refl x.2⟩
  trans := by
    intro x y z hxy hyz hx
    obtain ⟨hy, hadds⟩ := hxy hx
    obtain ⟨hz, hadds'⟩ := hyz hy
    exact ⟨hz, IsTrans.trans _ _ _ hadds hadds'⟩
  update := by
    intro s s' w _ hwriter hs
    refine ⟨?_, Std.Refl.refl w⟩
    rcases hwriter with h | h
    · change s'.writer = none ∨ s'.writer = some .stdout
      rw [h]
      exact hs
    · exact .inl h
  openOutput := by
    intro entry _ x hx
    rw [SolidSink.openOutput, if_pos hpipe]
    exact ⟨.inr rfl, Adds.one trivial x.2⟩
  writeTo := by
    intro s w bs hs
    refine ⟨hs, ?_⟩
    have hout : ∀ bs, (Event.write .stdout bs).OnStdout := fun _ => trivial
    rcases hs with h | h
    · rw [h]
      exact Std.Refl.refl w
    · rw [h]
      exact ByteSink.steps_writeAll (Adds.write hout) bs w
  flush := fun s t w _ hs => ⟨hs, Adds.flush t w⟩

/-- Extracting a solid archive into a pipe touches standard output alone. -/
theorem piped_extractAllSolid : Run.Steps (Adds Event.OnStdout)
    (extractAllSolid crates os archive entries dest password true filter) := by
  have hscan : ∀ (es : List (EggFileEntry × Nat)) (spans : Spans), Run.Steps (Adds Event.OnStdout)
      (scanEntries os dest true filter es spans) := by
    intro es
    induction es with
    | nil => exact fun _ => .pure _
    | cons p es ih =>
        intro spans
        refine .bind (.ite (.bind (fun w => ?_) fun _ => .pure _) ?_) fun spans => ih spans
        · exact Std.Refl.refl w
        · exact .bind (.ofExcept _) fun _ => .pure _
  refine .bind (hscan _ _) fun spans => .bind (.ite ?_ (steps_of_pos rfl (.pure _))) fun _ =>
    steps_of_pos rfl (.pure _)
  refine .bind (adds_onReader _) fun stream w => ?_
  have hrule : SolidSink.MethodRule os
      { fileSpans := spans.fileSpans, crcSpans := spans.crcSpans, entries, destDir := dest,
        filter, pipeMode := true } PipedStep := piped_methods rfl
  have hsteps := hrule.decompressInto (decompressSolid crates (solidMethod entries) stream.length
    ((spans.crcSpans.map Prod.fst).sum % 2 ^ 64)) stream (.new, w) (.inl rfl)
  refine Run.step_bind ?_ fun r w₁ _ => ?_
  · rw [withSink_world]
    exact hsteps.2
  · obtain ⟨r, s⟩ := r
    cases r with
    | ok u => exact Std.Refl.refl w₁
    | error e => exact Run.Steps.bind (steps_of_pos rfl (.pure _)) (fun _ => .throw _) w₁

/-! ## standard output left alone -/

/-- An event that is not one of standard output. -/
def Event.OffStdout : Event → Prop
  | .stdout | .write .stdout _ => False
  | _ => True

/-- Creating a file leaves standard output alone. -/
theorem disk_createFile (target : Path) :
    Run.Steps (Adds Event.OffStdout) (createFile os target) :=
  .bind (.mapErr (Adds.createParent fun _ _ _ => trivial)) fun _ =>
    .mapErr (Adds.createFile fun _ => trivial)

theorem disk_createDirAll (target : Path) :
    Run.Steps (Adds Event.OffStdout) (createDirAll os target) :=
  .mapErr (Adds.mkdirAll fun _ => trivial)

theorem disk_setFileTime (target : Path) (filetime : UInt64) :
    Run.Steps (Adds Event.OffStdout) (setFileTime target filetime) :=
  .ite (.pure _) (Adds.note trivial)

/-- On disk an entry is written to a file. -/
theorem disk_extractEntry : Run.Steps (Adds Event.OffStdout)
    (extractEntry crates os archive dest password false entry) := by
  refine .bind (.ofExcept _) fun target => .ite (.ite (.pure _) (disk_createDirAll _)) (.ite ?_ ?_)
  · exact .ite (.throw _) (.ite (.pure _) (disk_createFile _))
  · refine .bind (.ofExcept _) fun crypto => .bind (adds_onReader _) fun _ => ?_
    have hout : ∀ bs, (Event.write (.file target) bs).OffStdout := fun _ => trivial
    rw [openWriter, if_neg Bool.false_ne_true, bind_assoc]
    simp only [pure_bind]
    refine .bind (disk_createFile _) fun _ => .bind (.attempt (adds_extractBlocks hout _ _)) fun r => ?_
    cases r with
    | error e => exact .bind (.ite (.pure _) (Adds.note trivial)) fun _ => .throw _
    | ok u =>
        refine .ite (.pure _) ?_
        split
        · exact disk_setFileTime _ _
        · exact .pure _

/-- A step of a sink that does not write to standard output. -/
def DiskStep (x y : SolidSink × World) : Prop :=
  x.1.writer ≠ some .stdout → y.1.writer ≠ some .stdout ∧ Adds Event.OffStdout x.2 y.2

instance : Std.Refl DiskStep := ⟨fun x h => ⟨h, Std.Refl.refl x.2⟩⟩

instance : IsTrans (SolidSink × World) DiskStep where
  trans := by
    intro x y z hxy hyz hx
    obtain ⟨hy, hadds⟩ := hxy hx
    obtain ⟨hz, hadds'⟩ := hyz hy
    exact ⟨hz, IsTrans.trans _ _ _ hadds hadds'⟩

/-- A call that leaves standard output alone leaves the sink as it is. -/
theorem disk_call {α : Type} {m : Run World IoError α} (hm : Run.Steps (Adds Event.OffStdout) m) :
    Run.Steps DiskStep (SolidSink.call m) := fun x hx => ⟨hx, hm x.2⟩

/-- A sink on disk opens files only. -/
theorem disk_openOutput {cfg : SinkConfig} (hpipe : cfg.pipeMode = false) :
    Run.Steps DiskStep (SolidSink.openOutput os cfg entry) := by
  rw [SolidSink.openOutput, if_neg (by simp [hpipe])]
  refine .bind (.ofExcept _) fun path => .bind (disk_call (Adds.createParent fun _ _ _ => trivial))
    fun _ => .bind (disk_call (Adds.createFile fun _ => trivial)) fun _ x _ => ?_
  refine ⟨?_, Std.Refl.refl x.2⟩
  rw [SolidSink.modify_run]
  simp

/-- No method of a sink on disk touches standard output. -/
theorem disk_methods {cfg : SinkConfig} (hpipe : cfg.pipeMode = false) :
    SolidSink.MethodRule os cfg DiskStep where
  refl := fun x => Std.Refl.refl x
  trans := fun x y z => IsTrans.trans x y z
  update := by
    intro s s' w _ hwriter hs
    refine ⟨?_, Std.Refl.refl w⟩
    change s'.writer ≠ some .stdout
    rcases hwriter with h | h
    · rw [h]
      exact hs
    · simp [h]
  openOutput := fun entry _ => disk_openOutput hpipe
  writeTo := by
    intro s w bs hs
    refine ⟨hs, ?_⟩
    cases ht : s.writer with
    | none => exact Std.Refl.refl w
    | some t =>
        have hout : ∀ bs, (Event.write t bs).OffStdout := by
          intro bs
          cases t with
          | stdout => exact absurd ht hs
          | file p => trivial
        exact ByteSink.steps_writeAll (Adds.write hout) bs w
  flush := fun s t w _ hs => ⟨hs, Adds.flush t w⟩

/-- The solid stream goes to files only. -/
theorem disk_extractStream (spans : Spans) : Run.Steps (Adds Event.OffStdout)
    (extractStream crates os archive entries dest password false filter spans) := by
  refine .bind (adds_onReader _) fun stream w => ?_
  have hrule : SolidSink.MethodRule os
      { fileSpans := spans.fileSpans, crcSpans := spans.crcSpans, entries, destDir := dest,
        filter, pipeMode := false } DiskStep := disk_methods rfl
  have hsteps := hrule.decompressInto (decompressSolid crates (solidMethod entries) stream.length
    ((spans.crcSpans.map Prod.fst).sum % 2 ^ 64)) stream (.new, w) (by simp [SolidSink.new])
  refine Run.step_bind ?_ fun r w₁ _ => ?_
  · rw [withSink_world]
    exact hsteps.2
  · obtain ⟨r, s⟩ := r
    cases r with
    | ok u => exact Std.Refl.refl w₁
    | error e =>
        refine Run.Steps.bind (.ite (.pure _) (.forEach fun p _ => ?_)) (fun _ => .throw _) w₁
        exact Adds.note trivial

/-- On disk a solid archive is written to files. -/
theorem disk_extractAllSolid : Run.Steps (Adds Event.OffStdout)
    (extractAllSolid crates os archive entries dest password false filter) := by
  have hscan : ∀ (es : List (EggFileEntry × Nat)) (spans : Spans), Run.Steps (Adds Event.OffStdout)
      (scanEntries os dest false filter es spans) := by
    intro es
    induction es with
    | nil => exact fun _ => .pure _
    | cons p es ih =>
        intro spans
        refine .bind (.ite (.bind (.ite ?_ (.pure _)) fun _ => .pure _) ?_) fun spans => ih spans
        · exact .bind (.ofExcept _) fun _ => disk_createDirAll _
        · exact .bind (.ofExcept _) fun _ => .pure _
  refine .bind (hscan _ _) fun spans => .bind ?_ fun _ => ?_
  · refine .ite (disk_extractStream spans) (.ite (.pure _) (.ite (.throw _) (.forEach fun span _ => ?_)))
    unfold createEmpty
    split
    · exact .panic
    · exact .ite (.pure _) (.bind (.ofExcept _) fun _ => disk_createFile _)
  · refine .ite (.pure _) (.forEach fun entry _ => .ite (.pure _) ?_)
    split
    · exact .pure _
    · exact .bind (.ofExcept _) fun _ => disk_setFileTime _ _

/-! ## extractions -/

/-- An event below `dest`, and none of standard output. -/
def Event.Beneath (dest : Path) : Event → Prop
  | .createDirAll p _ => p = dest ∨ Inside dest p
  | .create p _ | .remove p | .setTime p _ _ | .write (.file p) _ => Inside dest p
  | .stdout | .write .stdout _ => False

/-- What an extraction to disk touches lies beneath its destination. -/
theorem Event.Within.beneath {e : Event} (h : e.Within dest entries) (hoff : e.OffStdout) :
    e.Beneath dest := by
  cases e with
  | createDirAll p ok => exact h.1
  | create p ok => exact h.1
  | remove p => exact h.1
  | setTime p unixSecs nanos => exact h.1
  | stdout => exact hoff
  | write t bs =>
      cases t with
      | stdout => exact hoff
      | file p => exact h.1

/-- What is added is the same for both. -/
theorem Adds.and {P Q : Event → Prop} {w w' : World} (hP : Adds P w w') (hQ : Adds Q w w') :
    Adds (fun e => P e ∧ Q e) w w' := by
  obtain ⟨es, rfl, hes⟩ := hP
  obtain ⟨es', heq, hes'⟩ := hQ
  obtain rfl := List.append_cancel_left heq
  exact ⟨es, rfl, fun e he => ⟨hes e he, hes' e he⟩⟩

/-- An extraction does what its steps do. -/
theorem steps_extraction {P : Event → Prop} {pipeMode : Bool}
    (hentry : ∀ entry ∈ archive.entries,
      Run.Steps (Adds P) (extractEntry crates os archive dest password pipeMode entry))
    (hsolid : ∀ filter, Run.Steps (Adds P)
      (extractAllSolid crates os archive archive.entries dest password pipeMode filter)) :
    Run.Steps (Adds P) (extractAll crates os archive dest password pipeMode) ∧
      ∀ files, Run.Steps (Adds P) (extractFiles crates os archive dest password pipeMode files) := by
  refine ⟨.ite (hsolid none) (.forEach hentry), fun files => ?_⟩
  refine .bind (.ite (hsolid _) (.forEach fun entry hmem => ?_)) fun _ => ?_
  · exact .ite (hentry entry hmem) (.pure _)
  · split
    · exact .throw _
    · exact .pure _

/-- What the command line allows. -/
def Cli.Permits (cli : Cli) (e : Event) : Prop :=
  if cli.list ∨ cli.pipe then e.OnStdout else e.Beneath (components (cli.destDir.getD "."))

/-- A listing and a pipe may write to standard output. -/
theorem permits_stdout (h : cli.list = true ∨ cli.pipe = true) {e : Event} (he : e.OnStdout) :
    cli.Permits e := by
  rwa [Cli.Permits, if_pos h]

/-- Either extraction stays within what its options permit. -/
theorem permits_extraction (hlist : cli.list = false) :
    Run.Steps (Adds cli.Permits)
        (extractAll crates os archive (components (cli.destDir.getD ".")) password cli.pipe) ∧
      ∀ files, Run.Steps (Adds cli.Permits) (extractFiles crates os archive
        (components (cli.destDir.getD ".")) password cli.pipe files) := by
  cases hpipe : cli.pipe with
  | true =>
      have hmono : ∀ e : Event, e.OnStdout → cli.Permits e := fun e => permits_stdout (.inr hpipe)
      exact steps_extraction (fun _ _ w => (piped_extractEntry w).mono hmono)
        fun _ w => (piped_extractAllSolid w).mono hmono
  | false =>
      have hmono : ∀ e : Event, e.Within (components (cli.destDir.getD ".")) archive.entries ∧
          e.OffStdout → cli.Permits e := by
        rintro e ⟨he, hoff⟩
        rw [Cli.Permits, if_neg (by simp [hlist, hpipe])]
        exact he.beneath hoff
      exact steps_extraction
        (fun _ hmem w => ((within_extractEntry hmem w).and (disk_extractEntry w)).mono hmono)
        fun _ w => ((within_extractAllSolid w).and (disk_extractAllSolid w)).mono hmono

/-! ## the process -/

/-- The process has done things with `P`. -/
def Did (P : Event → Prop) (p q : Process) : Prop := Adds P p.world q.world

section Did

variable {P : Event → Prop}

instance : Std.Refl (Did P) := ⟨fun p => Std.Refl.refl p.world⟩

instance : IsTrans Process (Did P) where
  trans _ _ _ hpq hqr := IsTrans.trans (r := Adds P) _ _ _ hpq hqr

/-- What is done to the world is done to the process. -/
theorem did_onWorld {ε α : Type} {m : Run World ε α} (h : Run.Steps (Adds P) m) :
    Run.Steps (Did P) (onWorld m) := fun p => h p.world

/-- A step that leaves the world as it is does nothing. -/
theorem did_nothing {ε α : Type} {m : Run Process ε α} (h : ∀ p, (m.run p).2.world = p.world) :
    Run.Steps (Did P) m := by
  intro p
  rw [Did, h p]
  exact Std.Refl.refl p.world

/-- A line on standard error touches neither files nor standard output. -/
theorem did_eprintln {ε : Type} (line : String) :
    Run.Steps (Did P) (eprintln host line : Run Process ε Unit) := did_nothing fun p => by
  rw [eprintln]
  dsimp only
  split <;> rfl

theorem did_noteIf {ε : Type} (c : Bool) (line : String) :
    Run.Steps (Did P) (noteIf host c line : Run Process ε Unit) := .ite (did_eprintln _) (.pure _)

/-- A printed line is a write to standard output. -/
theorem did_println {ε : Type} (hP : ∀ bs, P (.write .stdout bs)) (line : String) :
    Run.Steps (Did P) (println os line : Run Process ε Unit) := by
  refine .bind (.attempt (did_onWorld fun w => ?_)) fun r => ?_
  · exact ByteSink.steps_writeAll (Adds.write hP) _ w
  · cases r with
    | error e => exact .panic
    | ok u => exact .pure _

/-- Asking for a password touches nothing. -/
theorem did_promptAttempts (attempts : List Nat) :
    Run.Steps (Did P) (promptAttempts host entries attempts) := by
  induction attempts with
  | nil => exact .throw _
  | cons attempt attempts ih =>
      refine .bind (did_nothing fun _ => rfl) fun answer => ?_
      cases answer with
      | none => exact .throw _
      | some pw =>
          refine .bind (.mapErr (.ofExcept _)) fun valid => .ite (.pure _) ?_
          exact .bind (did_eprintln _) fun _ => ih

/-- A listing writes to standard output only. -/
theorem did_listArchive (hP : ∀ bs, P (.write .stdout bs)) :
    Run.Steps (Did P) (listArchive host archive) := by
  have hlist : Run.Steps (Did P) (onWorld (listEntries host.os archive.entries)) := by
    refine did_onWorld (.forEach fun entry _ => ?_)
    unfold listEntry
    split
    · exact .panic
    · exact fun w => ByteSink.steps_writeAll (Adds.write hP) _ w
  exact .bind (did_noteIf _ _) fun _ => .bind (did_noteIf _ _) fun _ => hlist

end Did

/-- Finding the password touches nothing. -/
theorem did_findPassword {P : Event → Prop} :
    Run.Steps (Did P) (findPassword host cli archive) := by
  unfold findPassword
  split
  · exact .pure _
  · exact .ite (.bind (did_promptAttempts _) fun _ => .pure _) (.pure _)

/-- An opened archive is handled within what the options permit. -/
theorem did_runArchive : Run.Steps (Did cli.Permits) (runArchive host cli archive) := by
  unfold runArchive
  split
  · next hlist =>
    refine .bind (.attempt (did_listArchive fun _ => permits_stdout (.inl hlist) trivial)) fun r => ?_
    cases r with
    | error e => exact .ite (.throw _) (.pure _)
    | ok u => exact .pure _
  · next hlist =>
      refine .bind did_findPassword fun password => .bind ?_ fun _ => did_noteIf _ _
      have hpermits := @permits_extraction host.crates host.os archive password cli
        (Bool.eq_false_iff.mpr hlist)
      exact .mapErr (did_onWorld (.ite hpermits.1 (hpermits.2 _)))

/-- A whole command line is carried out within what its options permit. -/
theorem did_run : Run.Steps (Did cli.Permits) (run host cli) := by
  have hcursor : ∀ bytes, Run.Steps (Did cli.Permits) (openCursor host bytes) :=
    fun _ => did_nothing fun _ => rfl
  refine .ite (.bind (.mapErr (.ofExcept _)) fun _ => .bind (hcursor _) fun _ => did_runArchive) ?_
  refine .bind (.bind (.mapErr (.ofExcept _)) fun _ => did_nothing fun _ => rfl) fun volumes => ?_
  cases volumes with
  | some reader =>
      exact .bind (did_nothing fun _ => rfl) fun _ => .bind (did_noteIf _ _) fun _ => did_runArchive
  | none =>
      exact .bind (.mapErr (.ofExcept _)) fun _ => .bind (hcursor _) fun _ => did_runArchive

/-- The report goes to standard error. -/
theorem did_report {P : Event → Prop} (r : Except MainError Unit) :
    Run.Steps (Did P) (report host cli r) := by
  cases r with
  | error e => exact .ite (.pure _) (.bind (did_eprintln _) fun _ => .pure _)
  | ok u => exact .pure _

/-- The process does what its command line allows. -/
theorem did_main {args : List String} (hparse : (parseArgs.run args).1 = .ok cli) :
    Run.Steps (Did cli.Permits) (main host args) := by
  unfold main
  rw [hparse]
  exact .bind (.attempt did_run) did_report

/-- Without a command line it does nothing but print. -/
theorem did_main_stopped {args : List String} (hparse : ∀ cli, (parseArgs.run args).1 ≠ .ok cli) :
    Run.Steps (Did Event.OnStdout) (main host args) := by
  unfold main
  have hout : ∀ bs, (Event.write .stdout bs).OnStdout := fun _ => trivial
  rcases hrun : (parseArgs.run args).1 with cli | stop | _ | _
  · exact absurd hrun (hparse cli)
  · cases stop with
    | error e => exact .bind (did_eprintln _) fun _ => .pure _
    | help => exact .bind (did_println hout _) fun _ => .pure _
    | version => exact .bind (did_println hout _) fun _ => .pure _
  · exact .panic
  · exact .hang

/-- **What the process touches**, on every run: with a command line, what that
allows, which is standard output for a list and a pipe and otherwise what lies
below the directory; without one, nothing but standard output. -/
theorem main_touches (host : Host) (args : List String) :
    (∀ cli, (parseArgs.run args).1 = .ok cli →
        ∀ e ∈ ((main host args).run .start).2.world, cli.Permits e) ∧
      ((∀ cli, (parseArgs.run args).1 ≠ .ok cli) →
        ∀ e ∈ ((main host args).run .start).2.world, e.OnStdout) := by
  have hevents : ∀ {P : Event → Prop}, Run.Steps (Did P) (main host args) →
      ∀ e ∈ ((main host args).run .start).2.world, P e := by
    intro P hsteps e he
    obtain ⟨es, hes, hP⟩ := hsteps .start
    have hworld : ((main host args).run .start).2.world = es := hes
    exact hP e (hworld ▸ he)
  exact ⟨fun cli hparse => hevents (did_main hparse), fun hparse => hevents (did_main_stopped hparse)⟩

/-- A host with a locked archive on its standard input, where a wrong and the
right password are typed. -/
def askingHost : Host where
  crates := .storeOnly
  pages := .blank
  os := .obliging
  stdin := .ok (lockedArchive.bytes .storeOnly "pw")
  file _ := .error ⟨.notFound, "No such file or directory (os error 2)"⟩
  dir _ := []
  amounts _ := 1
  tty i := ["no", "pw"][i]?
  stderr _ _ := true

/-- An archive on standard input extracted to `out`, and a call without arguments. -/
theorem main_touches_asking :
    (∀ e ∈ ((main askingHost ["unegg", "-d", "out", "-"]).run .start).2.world,
        e.Beneath [.normal "out"]) ∧
      ∀ e ∈ ((main askingHost ["unegg"]).run .start).2.world, e.OnStdout := by
  refine ⟨fun e he => ?_, (main_touches askingHost ["unegg"]).2 fun cli hcli => ?_⟩
  · have hpermits := (main_touches askingHost ["unegg", "-d", "out", "-"]).1
      ⟨false, false, false, some "out", none, "-", []⟩ (by decide +kernel) e he
    have hdest : components "out" = [.normal "out"] := by decide
    rwa [Cli.Permits, if_neg (by decide), Option.getD_some, hdest] at hpermits
  · have hparse : (parseArgs.run ["unegg"]).1 = .err (.error "no archive specified") := by
      decide +kernel
    simp [hparse] at hcli

end Unegg
