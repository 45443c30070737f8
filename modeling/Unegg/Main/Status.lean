import Unegg.Extract.Extractable
import Unegg.Main.Prompted
import Unegg.Main.Touched

/-!
# Unegg.Main.Status

What the exit status of an extraction says.

To a directory, and with a system that does what it is asked, the process exits
with status 0 only when the input is opened, a password is found and what the
operands select can be extracted; and when it can the files are there and the
status is 0, unless standard error does not take the message at the end
(`main_status`).  So a status of 0 never hides an entry whose checksums or password
are wrong, nor an operand that names nothing.  It may hide one whose blocks hold
fewer bytes than they announce.
-/

namespace Unegg

open Prog

variable {host : Host} {cli : Cli} {archive : EggArchive} {password : Option String}

/-- The input is an archive, and its password is known or typed. -/
def Opens (host : Host) (cli : Cli) (archive : EggArchive) (password : Option String) : Prop :=
  ∃ q q', (openAny host cli).run .start = (.ok archive, q) ∧
    (findPassword host cli archive).run q = (.ok password, q')

/-- What a status of 0 stands for. -/
def Cli.Extractable (host : Host) (cli : Cli) (archive : EggArchive) (password : Option String)
    (fs : List (List UInt8)) : Prop :=
  Opens host cli archive password ∧ NamesMatched cli.filter archive.entries ∧
    Unegg.Extractable host.crates archive (components (cli.destDir.getD ".")) password cli.filter fs

/-- In a directory an extraction ends with status 0 when it succeeds. -/
theorem main_ok_iff {args : List String} (hparse : (parseArgs.run args).1 = .ok cli)
    (hpipe : cli.pipe = false) :
    ((main host args).run .start).1 = .ok 0 ↔ ((run host cli).run .start).1 = .ok () := by
  rcases hrun : (run host cli).run .start with ⟨u | e | _ | _, p⟩
  · rw [main_of_ok hparse hrun]
    simp
  · rcases @main_of_err host cli args hparse _ _ _ hrun (by rw [hpipe, Bool.false_and]) with
      hmain | ⟨hmain, -⟩
    all_goals
      rw [hmain]
      simp
  all_goals
    unfold main
    rw [hparse]
    simp [Run.bind_run, Run.attempt, hrun]

/-- Prompts leave the outside as it is. -/
theorem findPassword_world {q q' : Process}
    (h : (findPassword host cli archive).run q = (.ok password, q')) : q'.world = q.world := by
  rw [findPassword] at h
  split at h
  · simp only [Run.pure_run, Prod.mk.injEq] at h
    rw [h.2]
  · split at h
    · rw [Run.bind_ok] at h
      obtain ⟨pw, q₁, hprompt, h⟩ := h
      simp only [Run.pure_run, Prod.mk.injEq] at h
      rcases @promptAttempts_run host archive.entries [1, 2, 3] q with
        ⟨n, pw', q₂, -, -, hrun, hworld, -⟩ | ⟨e, q₂, -, hrun, -⟩ | ⟨q₂, hrun, -⟩
      · have hsame := hrun.symm.trans hprompt
        rw [Prod.mk.injEq] at hsame
        rw [← h.2, ← hsame.2, hworld]
      all_goals
        have hsame := hrun.symm.trans hprompt
        simp at hsame
    · simp only [Run.pure_run, Prod.mk.injEq] at h
      rw [h.2]

/-- The steps of a run on an archive that is opened. -/
theorem run_of_opens (hlist : cli.list = false) (h : Opens host cli archive password) :
    ∃ q, q.world = [] ∧
      (run host cli).run .start = (cli.extractWith host archive password).run q := by
  obtain ⟨q, q', hopen, hfind⟩ := h
  obtain ⟨hworld, -⟩ : Keeps .start q := keeps_openAny.of_run hopen
  refine ⟨q', (findPassword_world hfind).trans hworld, ?_⟩
  rw [run_eq, Run.bind_of_ok hopen, runArchive_eq hlist, Run.bind_of_ok hfind]

/-- A run that succeeds has opened an archive, found a password and extracted. -/
theorem opens_of_run (hlist : cli.list = false)
    (h : ((run host cli).run .start).1 = .ok ()) : ∃ archive password,
      Opens host cli archive password ∧
        ((cli.extraction host archive password).run []).1 = .ok () := by
  have hrun : (run host cli).run .start = (.ok (), _) := Prod.ext h rfl
  rw [run_eq, Run.bind_ok] at hrun
  obtain ⟨archive, q, hopen, hrun⟩ := hrun
  rw [runArchive_eq hlist, Run.bind_ok] at hrun
  obtain ⟨password, q', hfind, hrun⟩ := hrun
  refine ⟨archive, password, ⟨q, q', hopen, hfind⟩, ?_⟩
  obtain ⟨hworld, -⟩ : Keeps .start q := keeps_openAny.of_run hopen
  have hempty : q'.world = [] := (findPassword_world hfind).trans hworld
  rw [Cli.extractWith, Run.bind_ok] at hrun
  obtain ⟨_, q₁, hextract, -⟩ := hrun
  have hdone := Run.mapErr_ok.mp hextract
  simp only [onWorld, Run.zoom, Prod.mk.injEq, hempty] at hdone
  exact hdone.1

/-- **What a status of 0 says**: everything that is asked for can be extracted.
When it can, it has been, and the status is 0 or standard error does not take the
message at the end. -/
theorem main_status {args : List String} (hos : host.os.Succeeds)
    (hcrates : host.crates.StopsOnError) (hparse : (parseArgs.run args).1 = .ok cli)
    (hlist : cli.list = false) (hpipe : cli.pipe = false) :
    (((main host args).run .start).1 = .ok 0 →
        ∃ archive password fs, cli.Extractable host archive password fs) ∧
      ∀ archive password fs, cli.Extractable host archive password fs →
        (((main host args).run .start).1 = .ok 0 ∨
          ((main host args).run .start).1 = .panic ∧
            host.Refuses ((main host args).run .start).2) ∧
        Delivered (components (cli.destDir.getD ".")) false cli.filter archive.entries fs []
          ((main host args).run .start).2.world := by
  have hextraction : ∀ archive password, cli.extraction host archive password =
      extraction host.crates host.os archive (components (cli.destDir.getD ".")) password false
        cli.filter := by
    intro archive password
    rw [Cli.extraction, hpipe]
  refine ⟨fun h => ?_, ?_⟩
  · obtain ⟨archive, password, hopens, hrun⟩ := opens_of_run hlist ((main_ok_iff hparse hpipe).mp h)
    rw [hextraction] at hrun
    obtain ⟨hnames, fs, hfs⟩ := (extraction_ok_iff hos hcrates []).mp hrun
    exact ⟨archive, password, fs, hopens, hnames, hfs⟩
  · rintro archive password fs ⟨hopens, hnames, hfs⟩
    obtain ⟨v, hrun, hdelivered⟩ := hfs.run hos hnames []
    obtain ⟨q, hworld, hstart⟩ := run_of_opens hlist hopens
    have hextract : (cli.extraction host archive password).run q.world = (.ok (), v) := by
      rw [hextraction, hworld, hrun]
    obtain ⟨q', rfl, hwith | ⟨hwith, hrefuses⟩⟩ := extractWith_ok hextract
    · rw [main_of_ok hparse (hstart.trans hwith)]
      exact ⟨.inl rfl, hdelivered⟩
    · rw [main_of_panic hparse (hstart.trans hwith)]
      exact ⟨.inr ⟨rfl, hrefuses⟩, hdelivered⟩

theorem main_status_asking :
    ∃ archive password fs,
      Cli.Extractable askingHost ⟨false, false, false, some "out", some "pw", "-", []⟩ archive
        password fs ∧
      Delivered [.normal "out"] false none archive.entries fs []
        ((main askingHost ["unegg", "-d", "out", "-P", "pw", "-"]).run .start).2.world := by
  have hparse : (parseArgs.run ["unegg", "-d", "out", "-P", "pw", "-"]).1 =
      .ok ⟨false, false, false, some "out", some "pw", "-", []⟩ := by
    decide +kernel
  have hdest : components "out" = [.normal "out"] := by decide
  obtain ⟨hextractable, hdelivered⟩ := @main_status askingHost _ _ Os.obliging_succeeds
    Crates.storeOnly_stops hparse rfl rfl
  obtain ⟨archive, password, fs, hfs⟩ := hextractable (by decide +kernel)
  refine ⟨archive, password, fs, hfs, ?_⟩
  have h := (hdelivered archive password fs hfs).2
  rwa [Option.getD_some, hdest] at h

end Unegg
