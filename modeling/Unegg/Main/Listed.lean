import Unegg.Effects.Output
import Unegg.Main.Prompted
import Unegg.Main.Returns

/-!
# Unegg.Main.Listed

What a listing prints.

The lines of the entries, in order, and nothing else: all of them, or up to
where standard output failed (`listEntries_run`).  A reader that closes the pipe
is a normal end of it, any other failure is not (`main_lists`).  In front of a
solid or split archive stands a message, and where standard error does not take
that nothing is listed.
-/

namespace Unegg

open Prog

variable {host : Host} {cli : Cli} {archive : EggArchive}

/-- The text of a listed entry. -/
def listingOf (entry : EggFileEntry) : List UInt8 :=
  utf8Bytes ((listLine entry).getD "" ++ "\n")

/-- The listing of an archive. -/
def listing (entries : List EggFileEntry) : List UInt8 := entries.flatMap listingOf

theorem listEntry_eq (os : Os) (entry : EggFileEntry) :
    listEntry os entry = (os.sink .stdout).writeAll (listingOf entry) := by
  obtain ⟨line, hline⟩ := listLine_total entry
  rw [listEntry, listingOf, hline]
  rfl

/-- **The listing**, or what went through of it before an error. -/
theorem listEntries_run (os : Os) (entries : List EggFileEntry) (w : World) :
    ∃ sent w', sent <+: listing entries ∧ written w' = written w ++ sent ∧
      ((listEntries os entries).run w = (.ok (), w') ∧ sent = listing entries ∨
        ∃ e, (listEntries os entries).run w = (.err e, w')) := by
  induction entries generalizing w with
  | nil => exact ⟨[], w, List.nil_prefix, (List.append_nil _).symm, .inl ⟨rfl, rfl⟩⟩
  | cons entry entries ih =>
      obtain ⟨line, w₁, hline, hwritten, hrun⟩ := writeAll_output os .stdout (listingOf entry) w
      rw [← listEntry_eq] at hrun
      rcases hrun with ⟨hrun, rfl⟩ | ⟨e, hrun⟩
      · obtain ⟨sent, w', hsent, hwritten', hrest⟩ := ih w₁
        refine ⟨listingOf entry ++ sent, w', ?_, ?_, ?_⟩
        · exact (List.prefix_append_right_inj _).mpr hsent
        · rw [hwritten', hwritten, List.append_assoc]
        · have hstep : (listEntries os (entry :: entries)).run w = (listEntries os entries).run w₁ :=
            Run.bind_of_ok hrun
          rw [hstep]
          exact hrest.imp (fun h => ⟨h.1, congrArg _ h.2⟩) id
      · exact ⟨line, w₁, hline.trans (List.prefix_append _ _), hwritten,
          .inr ⟨e, Run.bind_of_err hrun⟩⟩

/-- With a standard output that takes everything, all of it is printed. -/
theorem listEntries_total {os : Os} (hout : os.Takes .stdout) (entries : List EggFileEntry)
    (w : World) : ((listEntries os entries).run w).1 = .ok () := by
  have htotal := @Run.forEach_total World IoError EggFileEntry (fun _ _ => True) ⟨fun _ => trivial⟩
    ⟨fun _ _ _ _ _ => trivial⟩ (listEntry os) entries (fun entry _ v => ?_) w
  · obtain ⟨w', hrun, -⟩ := htotal
    exact congrArg Prod.fst hrun
  · rw [listEntry_eq]
    obtain ⟨v', hrun⟩ := hout.writeAll_total (listingOf entry) v
    exact ⟨v', hrun, trivial⟩

/-- The messages in front of a listing. -/
def EggArchive.Announces (archive : EggArchive) : Prop :=
  archive.isSolid = true ∨ archive.splitInfo.isSome = true

/-- Besides the listing there are messages on standard error, or there is an abort
at one of them in front of it. -/
theorem listArchive_run (p : Process) :
    (∃ stderr, (listArchive host archive).run p =
      (((listEntries host.os archive.entries).run p.world).1,
        { p with world := ((listEntries host.os archive.entries).run p.world).2, stderr })) ∨
      ∃ q, (listArchive host archive).run p = (.panic, q) ∧ q.world = p.world ∧ host.Refuses q ∧
        archive.Announces := by
  rw [listArchive]
  rcases @noteIf_run IoError host archive.isSolid "[solid archive]" p with
    hsolid | ⟨hsolid, hrefuses, hdue⟩
  · rw [Run.bind_of_ok hsolid]
    rcases @noteIf_run IoError host archive.splitInfo.isSome "[split archive]"
      { p with stderr := p.stderr ++ if archive.isSolid then ["[solid archive]"] else [] } with
      hsplit | ⟨hsplit, hrefuses, hdue⟩
    · rw [Run.bind_of_ok hsplit]
      exact .inl ⟨_, rfl⟩
    · rw [Run.bind_of_panic hsplit]
      exact .inr ⟨_, rfl, rfl, hrefuses, .inr hdue⟩
  · rw [Run.bind_of_panic hsolid]
    exact .inr ⟨p, rfl, rfl, hrefuses, .inl hdue⟩

/-- How a listing that has put out `sent` leaves the process. -/
inductive Listed (host : Host) (archive : EggArchive) (sent : List UInt8) (p : Process) :
    Outcome Empty Nat → Prop
  | whole (hall : sent = listing archive.entries) : Listed host archive sent p (.ok 0)
  | closed {e : IoError} (he : ((listEntries host.os archive.entries).run []).1 = .err e)
      (hpipe : e.kind = .brokenPipe) : Listed host archive sent p (.ok 0)
  | failed {e : IoError} (he : ((listEntries host.os archive.entries).run []).1 = .err e)
      (hpipe : e.kind ≠ .brokenPipe) : Listed host archive sent p (.ok 1)
  | unreported {e : IoError} (he : ((listEntries host.os archive.entries).run []).1 = .err e)
      (hpipe : e.kind ≠ .brokenPipe) (hrefuses : host.Refuses p) :
      Listed host archive sent p .panic
  | unannounced (hnone : sent = []) (hdue : archive.Announces) (hrefuses : host.Refuses p) :
      Listed host archive sent p .panic

/-- With both streams working the listing is printed. -/
theorem Listed.whole_of_takes {sent : List UInt8} {p : Process} {o : Outcome Empty Nat}
    (h : Listed host archive sent p o) (hout : host.os.Takes .stdout) (hheard : host.Heard) :
    sent = listing archive.entries ∧ o = .ok 0 := by
  have hok := listEntries_total hout archive.entries []
  cases h with
  | whole hall => exact ⟨hall, rfl⟩
  | closed he => simp [hok] at he
  | failed he => simp [hok] at he
  | unreported he => simp [hok] at he
  | unannounced _ _ hrefuses => exact absurd hrefuses (hheard.takes p)

/-- **List mode**: what reaches standard output is the listing, all of it or up
to a failed write; a broken pipe is no failure of the process.  Where standard
error does not take a message the process aborts, in front of the listing or
behind a write that failed. -/
theorem main_lists {args : List String} (hparse : (parseArgs.run args).1 = .ok cli)
    (hopen : ((openAny host cli).run .start).1 = .ok archive) (hlist : cli.list = true) :
    ∃ o p sent, (main host args).run .start = (o, p) ∧ written p.world = sent ∧
      sent <+: listing archive.entries ∧ Listed host archive sent p o ∧
      (host.os.Takes .stdout → host.Heard → sent = listing archive.entries ∧ o = .ok 0) := by
  suffices hmain : ∃ o p sent, (main host args).run .start = (o, p) ∧ written p.world = sent ∧
      sent <+: listing archive.entries ∧ Listed host archive sent p o by
    obtain ⟨o, p, sent, hrun, hwritten, hsent, hlisted⟩ := hmain
    exact ⟨o, p, sent, hrun, hwritten, hsent, hlisted, hlisted.whole_of_takes⟩
  obtain ⟨q, hopen⟩ : ∃ q, (openAny host cli).run .start = (.ok archive, q) :=
    ⟨_, Prod.ext hopen rfl⟩
  obtain ⟨hworld, -⟩ : Keeps .start q := keeps_openAny.of_run hopen
  have hempty : q.world = [] := hworld
  have hstart : (run host cli).run .start = (runArchive host cli archive).run q := by
    rw [run_eq, Run.bind_of_ok hopen]
  rw [runArchive, if_pos hlist] at hstart
  rcases @listArchive_run host archive q with ⟨stderr, hnotes⟩ | ⟨q', hpanic, hsame, hrefuses, hdue⟩
  · obtain ⟨sent, w, hsent, hwritten, hrun⟩ := listEntries_run host.os archive.entries []
    have hsent_eq : written w = sent := hwritten
    rw [hempty] at hnotes
    rcases hrun with ⟨hrun, hall⟩ | ⟨e, hrun⟩
    · rw [hrun] at hnotes
      rw [Run.bind_of_ok (Run.attempt_of_ok hnotes)] at hstart
      exact ⟨.ok 0, _, sent, main_of_ok hparse hstart, hsent_eq, hsent, .whole hall⟩
    · have herr : ((listEntries host.os archive.entries).run []).1 = .err e := by rw [hrun]
      rw [hrun] at hnotes
      rw [Run.bind_of_ok (Run.attempt_of_err hnotes)] at hstart
      dsimp only at hstart
      by_cases hpipe : e.kind = .brokenPipe
      · rw [if_neg (not_not_intro hpipe)] at hstart
        exact ⟨.ok 0, _, sent, main_of_ok hparse hstart, hsent_eq, hsent, .closed herr hpipe⟩
      · rw [if_pos hpipe] at hstart
        rcases @main_of_err host cli args hparse _ _ _ hstart (Bool.and_false _) with
          hmain | ⟨hmain, hrefuses⟩
        · exact ⟨.ok 1, _, sent, hmain, hsent_eq, hsent, .failed herr hpipe⟩
        · exact ⟨.panic, _, sent, hmain, hsent_eq, hsent, .unreported herr hpipe hrefuses⟩
  · rw [Run.bind_of_panic (Run.attempt_of_panic hpanic)] at hstart
    refine ⟨.panic, q', [], main_of_panic hparse hstart, ?_, List.nil_prefix,
      .unannounced rfl hdue hrefuses⟩
    rw [hsame, hempty]
    rfl

theorem main_lists_asking :
    ∃ p, (main askingHost ["unegg", "-l", "-"]).run .start = (.ok 0, p) ∧
      written p.world = listing (lockedArchive.desc .storeOnly "pw").archive.entries := by
  have hparse : (parseArgs.run ["unegg", "-l", "-"]).1 =
      .ok ⟨true, false, false, none, none, "-", []⟩ := by
    decide +kernel
  obtain ⟨o, p, sent, hrun, hwritten, -, -, hall⟩ :=
    @main_lists askingHost _ (lockedArchive.desc .storeOnly "pw").archive _ hparse
      (by decide +kernel) rfl
  obtain ⟨rfl, rfl⟩ := hall (Os.obliging_succeeds.takes .stdout) fun _ _ => rfl
  exact ⟨p, hrun, hwritten⟩

end Unegg
