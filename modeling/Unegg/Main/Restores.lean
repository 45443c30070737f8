import Unegg.Main.Prompted
import Unegg.Volume.Split
import Unegg.Writer.Solid

/-!
# Unegg.Main.Restores

From the command line to the files (`main_restores`): run on what the writer
packed, from a file, from standard input or from volumes, with the password
given or asked for, the process restores the files and its exit status is 0, with
a system that does what it is asked and a standard error that takes the messages.
-/

namespace Unegg

open Prog MultiVolumeReader

variable {host : Host} {cli : Cli} {pwd : String} {a : PackedArchive}

/-! ## the archive -/

/-- The blocks of an archive hold its files, one by one or as one stream. -/
inductive PackedArchive.Coded (crates : Crates) (a : PackedArchive) : Prop
  | plain (hsolid : a.fields.any PrefixField.isSolid = false)
      (hplain : ∀ f ∈ a.files, f.isDirectory = false → f.Plain crates)
  | solid (methodByte : UInt8) (hsolid : a.Solid crates methodByte)

/-- Where the command line says, there is the archive that is described. -/
inductive Input (host : Host) (cli : Cli) (d : ArchiveDesc) : Prop
  | stdin (harchive : cli.archive = "-") (hdata : host.stdin = .ok d.bytes)
  | file (harchive : cli.archive ≠ "-") (hdata : host.file cli.archive = .ok d.bytes)
      (hsplit : d.nextId = 0)
  | volumes (s : SplitArchive) (hs : s.archive = d) (harchive : cli.archive ≠ "-")
      (hfirst : host.file cli.archive = .ok s.first)
      (hdir : ∀ v ∈ s.later, InDirectory (host.dir cli.archive) v)
      (hsmall : SmallFiles (host.dir cli.archive) s.first) (htotal : d.bytes.length < 2 ^ 61)

theorem openCursor_run (d : ArchiveDesc) (p : Process) :
    (openCursor host d.bytes).run p = (.ok d.archive, p) := by
  rw [openCursor, d.open_run]
  rfl

/-- The archive is opened, and nothing is done to the outside. -/
theorem Input.openAny_run {d : ArchiveDesc} (hheard : host.Heard) (h : Input host cli d) (p : Process) :
    ∃ q, (openAny host cli).run p = (.ok d.archive, q) ∧ Keeps p q := by
  suffices hrun : ∃ q, (openAny host cli).run p = (.ok d.archive, q) by
    obtain ⟨q, hq⟩ := hrun
    exact ⟨q, hq, keeps_openAny.of_run hq⟩
  cases h with
  | stdin harchive hdata =>
      have hread : (Run.mapErr .io (Run.ofExcept host.stdin) : Main _).run p = (.ok d.bytes, p) := by
        rw [hdata]
        rfl
      rw [openAny, if_pos harchive, Run.bind_of_ok hread]
      exact ⟨p, openCursor_run d p⟩
  | file harchive hdata hsplit =>
      have hread : (Run.mapErr (.egg ∘ .cantOpenFile) (Run.ofExcept (host.file cli.archive)) :
          Main _).run p = (.ok d.bytes, p) := by
        rw [hdata]
        rfl
      have hvolumes : (openVolumes host cli.archive).run p = (.ok none, p) := by
        rw [openVolumes, Run.bind_of_ok hread]
        have hnone : (tryOpen (host.dir cli.archive) d.bytes).run () = (.ok none, ()) :=
          tryOpen_unsplit hsplit _
        simp only [hnone]
        rfl
      rw [openAny, if_neg harchive, Run.bind_of_ok hvolumes]
      dsimp only
      rw [Run.bind_of_ok hread]
      exact ⟨p, openCursor_run d p⟩
  | volumes s hs harchive hfirst hdir hsmall htotal =>
      subst hs
      have hread : (Run.mapErr (.egg ∘ .cantOpenFile) (Run.ofExcept (host.file cli.archive)) :
          Main _).run p = (.ok s.first, p) := by
        rw [hfirst]
        rfl
      obtain ⟨r, hrun, hcontents⟩ := s.tryOpen_run hdir
      obtain ⟨v, o, hparse, harchive', hstands⟩ :=
        s.parse_run hrun hcontents hsmall htotal host.amounts host.pages
      have hvolumes : (openVolumes host cli.archive).run p = (.ok (some r), p) := by
        rw [openVolumes, Run.bind_of_ok hread]
        simp only [hrun]
        rfl
      have hsplit : (openSplit host r).run p = (.ok s.archive.archive, p) := by
        simp only [openSplit, hparse, hstands.contents_eq, hstands.pos_eq, ← harchive']
        rfl
      rw [openAny, if_neg harchive, Run.bind_of_ok hvolumes]
      dsimp only
      have hnote := (@noteIf_run MainError host (!cli.quiet && !cli.pipe)
        ("split archive: " ++ r.segments.length.repr ++ " volumes") p).resolve_right
        fun h => hheard.takes p h.2.1
      rw [Run.bind_of_ok hsplit, Run.bind_of_ok hnote]
      exact ⟨_, rfl⟩

/-! ## the password -/

/-- The password is on the command line or typed in time, or no file is locked. -/
def Given (host : Host) (cli : Cli) (entries : List EggFileEntry) (pwd : String)
    (fs : List PackedFile) : Prop :=
  cli.password = some pwd ∨
    (cli.password = none ∧ ∃ n < 3, host.tty n = some pwd ∧ ∀ i < n, ∃ w, host.tty i = some w ∧
      verifyPassword host.crates entries w = .ok false) ∨
    ∀ f ∈ fs, f.lock = none

/-- The password that files were packed with verifies. -/
theorem verifyPassword_readBack {crates : Crates} {archive : EggArchive}
    {entries : List EggFileEntry} {fs : List PackedFile}
    (h : List.Forall₂ (ReadBack crates archive pwd) entries fs) :
    verifyPassword crates entries pwd = .ok true := by
  induction h with
  | nil => rfl
  | cons hread _ ih =>
      rw [verifyPassword, hread.setup (.inl rfl)]
      split
      · rfl
      · exact ih

/-- The archive is marked as encrypted exactly when a file is locked. -/
theorem isEncrypted_desc (crates : Crates) (pwd : String) (a : PackedArchive) :
    (a.desc crates pwd).archive.isEncrypted = true ↔ ∃ f ∈ a.files, f.lock ≠ none := by
  have hrecord : ∀ r : PackedRecord, (r.record crates pwd).isEncrypted = true ↔
      ∃ f, r.file? = some f ∧ f.lock ≠ none := by
    intro r
    cases r with
    | file f =>
        cases hlock : f.lock <;>
          simp [PackedRecord.record, PackedRecord.file?, Record.isEncrypted, PackedFile.pack, hlock]
    | comment f => simp [PackedRecord.record, PackedRecord.file?, Record.isEncrypted]
    | dummy f => simp [PackedRecord.record, PackedRecord.file?, Record.isEncrypted]
  have hany : (a.desc crates pwd).archive.isEncrypted =
      a.records.any fun r => (r.2.record crates pwd).isEncrypted := by
    rw [ArchiveDesc.archive, PackedArchive.desc, List.any_map]
    rfl
  rw [hany, List.any_eq_true, PackedArchive.files]
  constructor
  · rintro ⟨r, hr, henc⟩
    obtain ⟨f, hf, hlock⟩ := (hrecord r.2).mp henc
    exact ⟨f, List.mem_filterMap.mpr ⟨r, hr, hf⟩, hlock⟩
  · rintro ⟨f, hf, hlock⟩
    obtain ⟨r, hr, hfile⟩ := List.mem_filterMap.mp hf
    exact ⟨r, hr, (hrecord r.2).mpr ⟨f, hfile, hlock⟩⟩

/-- The password that is found unlocks the files. -/
theorem Given.findPassword_run (hheard : host.Heard)
    (h : Given host cli (a.desc host.crates pwd).archive.entries pwd a.files) (p : Process)
    (hp : p.prompts = 0) :
    ∃ password q, (findPassword host cli (a.desc host.crates pwd).archive).run p =
        (.ok password, q) ∧ q.world = p.world ∧ ∀ f ∈ a.files, Unlocks password pwd f := by
  have hnone : (a.desc host.crates pwd).archive.isEncrypted ≠ true →
      ∀ f ∈ a.files, f.lock = none := by
    intro hnot f hf
    by_contra hlock
    exact hnot ((isEncrypted_desc _ _ a).mpr ⟨f, hf, hlock⟩)
  cases hpassword : cli.password with
  | some given =>
      refine ⟨some given, p, by rw [findPassword, hpassword]; rfl, rfl, fun f hf => ?_⟩
      rcases h with hgiven | ⟨hmissing, -⟩ | hunlocked
      · exact .inl (hpassword.symm.trans hgiven)
      · simp [hpassword] at hmissing
      · exact .inr (hunlocked f hf)
  | none =>
      by_cases hencrypted : (a.desc host.crates pwd).archive.isEncrypted = true
      · rcases h with hgiven | ⟨-, n, hn, hanswer, hrefused⟩ | hunlocked
        · simp [hpassword] at hgiven
        · have hverified := verifyPassword_readBack (a.readBack_desc host.crates pwd).2
          have hans : Answered host (a.desc host.crates pwd).archive.entries p.prompts n pwd := by
            rw [hp]
            exact ⟨by simpa using hrefused, by simpa using hanswer, hverified⟩
          rcases @promptAttempts_run host (a.desc host.crates pwd).archive.entries [1, 2, 3] p with
            ⟨m, pw, q, -, hans', hprompt, hw, -⟩ | ⟨e, q, hnot, -⟩ | ⟨q, -, hrefuses, -⟩
          · obtain ⟨-, rfl⟩ := hans.unique hans'
            refine ⟨some pwd, q, ?_, hw, fun f _ => .inl rfl⟩
            rw [findPassword, hpassword]
            dsimp only
            rw [if_pos hencrypted, promptPassword, Run.bind_of_ok hprompt]
            rfl
          · exact absurd hans (hnot n hn pwd)
          · exact absurd hrefuses (hheard.takes q)
        · obtain ⟨f, hf, hlock⟩ := (isEncrypted_desc _ _ a).mp hencrypted
          exact absurd (hunlocked f hf) hlock
      · refine ⟨none, p, ?_, rfl, fun f hf => .inr (hnone hencrypted f hf)⟩
        rw [findPassword, hpassword]
        dsimp only
        rw [if_neg hencrypted]
        rfl

/-! ## the process -/

theorem PackedArchive.Coded.restores {crates : Crates} {os : Os} {archive : EggArchive}
    {password : Option String} {filter : Option (List String)} (h : a.Coded crates) (hos : os.Succeeds)
    (hback : List.Forall₂ (ReadBack crates archive pwd) archive.entries a.files)
    (hsolid : archive.isSolid = a.fields.any PrefixField.isSolid)
    (hnames : ∀ f ∈ a.files, SafeName f.name) (hunlocks : ∀ f ∈ a.files, Unlocks password pwd f)
    (hmatched : Matched filter a.files) (dest : Path) (pipeMode : Bool) (w : World) :
    ∃ v, (extraction crates os archive dest password pipeMode filter).run w = (.ok (), v) ∧
      Restored dest pipeMode filter a.files w v := by
  cases h with
  | plain hnot hplain =>
      exact restores_plain hos hback (hsolid.trans hnot) hplain hnames hunlocks hmatched dest pipeMode w
  | solid methodByte ha =>
      exact ha.restores hos hback (hsolid.trans ha.solid) hnames hunlocks hmatched dest pipeMode w

/-- **End to end**: the process restores what was packed, and its exit status is 0,
where the calls to the system succeed and standard error takes the messages. -/
theorem main_restores {args : List String} (hos : host.os.Succeeds) (hheard : host.Heard)
    (hparse : (parseArgs.run args).1 = .ok cli) (hlist : cli.list = false)
    (hinput : Input host cli (a.desc host.crates pwd)) (hcoded : a.Coded host.crates)
    (hgiven : Given host cli (a.desc host.crates pwd).archive.entries pwd a.files)
    (hnames : ∀ f ∈ a.files, SafeName f.name) (hmatched : Matched cli.filter a.files) :
    ∃ p, (main host args).run .start = (.ok 0, p) ∧
      Restored (components (cli.destDir.getD ".")) cli.pipe cli.filter a.files [] p.world := by
  obtain ⟨q, hopen, hworld, hprompts⟩ := hinput.openAny_run hheard .start
  obtain ⟨password, q₁, hfind, hworld₁, hunlocks⟩ := hgiven.findPassword_run hheard q hprompts
  obtain ⟨hsolid, hback⟩ := a.readBack_desc host.crates pwd
  obtain ⟨v, hextract, hrestored⟩ := hcoded.restores hos hback hsolid hnames hunlocks hmatched
    (components (cli.destDir.getD ".")) cli.pipe []
  have hempty : q₁.world = [] := hworld₁.trans hworld
  have hinner : (cli.extraction host (a.desc host.crates pwd).archive password).run q₁.world =
      (.ok (), v) := hempty ▸ hextract
  obtain ⟨p, rfl, hdone | ⟨-, hrefuses⟩⟩ := extractWith_ok hinner
  · have hrun : (run host cli).run .start = (.ok (), p) := by
      rw [run_eq, Run.bind_of_ok hopen, runArchive_eq hlist, Run.bind_of_ok hfind, hdone]
    exact ⟨p, main_of_ok hparse hrun, hrestored⟩
  · exact absurd hrefuses (hheard.takes p)

/-- The typed password restores the file. -/
theorem main_restores_asking :
    ∃ p, (main askingHost ["unegg", "-", "a"]).run .start = (.ok 0, p) ∧
      Restored [.curDir] false (some ["a"]) lockedArchive.files [] p.world := by
  have hparse : (parseArgs.run ["unegg", "-", "a"]).1 =
      .ok ⟨false, false, false, none, none, "-", ["a"]⟩ := by
    decide +kernel
  have hgiven : Given askingHost ⟨false, false, false, none, none, "-", ["a"]⟩
      (lockedArchive.desc .storeOnly "pw").archive.entries "pw" lockedArchive.files := by
    refine .inr (.inl ⟨rfl, 1, by decide, rfl, fun i hi => ⟨"no", ?_, ?_⟩⟩)
    · obtain rfl : i = 0 := by omega
      rfl
    · decide +kernel
  have hcoded : lockedArchive.Coded .storeOnly := .plain rfl fun f hf _ => by
    obtain rfl := List.mem_singleton.mp hf
    exact lockedFile_plain _
  refine main_restores Os.obliging_succeeds (fun _ _ => rfl) hparse rfl (.stdin rfl rfl) hcoded hgiven
    (by decide) ?_
  intro pats hpats
  obtain rfl := Option.some.inj hpats
  decide +kernel

end Unegg
