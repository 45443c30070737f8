import Unegg.Extract.Selection
import Unegg.Main.Touched

/-!
# Unegg.Main.Prompted

Passwords that are asked for.

At most three answers are heard, and the first one that verifies is the
password of the extraction; when there is none, nothing is done to the outside
and the exit status is 1, or the process aborts where standard error does not
take its messages (`main_prompts`).
-/

namespace Unegg

open Prog

variable {host : Host} {cli : Cli} {archive : EggArchive} {entries : List EggFileEntry}
  {entry : EggFileEntry} {pw pw' : String} {e : EggError}

/-! ## answers -/

/-- The `n`-th answer from the `k`-th on is the first that verifies; those
before it are refused. -/
structure Answered (host : Host) (entries : List EggFileEntry) (k n : Nat) (pw : String) : Prop where
  refused : ∀ i < n, ∃ w, host.tty (k + i) = some w ∧
    verifyPassword host.crates entries w = .ok false
  answer : host.tty (k + n) = some pw
  verified : verifyPassword host.crates entries pw = .ok true

/-- The first answer verifies. -/
theorem Answered.zero {k : Nat} (answer : host.tty k = some pw)
    (verified : verifyPassword host.crates entries pw = .ok true) :
    Answered host entries k 0 pw := ⟨by simp, answer, verified⟩

/-- A refused answer leads to the next. -/
theorem Answered.succ {k n : Nat} {w : String} (hw : host.tty k = some w)
    (hfalse : verifyPassword host.crates entries w = .ok false)
    (h : Answered host entries (k + 1) n pw) : Answered host entries k (n + 1) pw where
  refused := by
    intro i hi
    cases i with
    | zero => exact ⟨w, hw, hfalse⟩
    | succ i =>
        have hrefused := h.refused i (by omega)
        rwa [Nat.add_assoc, Nat.add_comm 1] at hrefused
  answer := by
    have hanswer := h.answer
    rwa [Nat.add_assoc, Nat.add_comm 1] at hanswer
  verified := h.verified

/-- The first answer verifies, or is refused and the others go on. -/
theorem Answered.split {k n : Nat} (h : Answered host entries k n pw) :
    (n = 0 ∧ host.tty k = some pw ∧ verifyPassword host.crates entries pw = .ok true) ∨
      ∃ m w, n = m + 1 ∧ host.tty k = some w ∧
        verifyPassword host.crates entries w = .ok false ∧ Answered host entries (k + 1) m pw := by
  cases n with
  | zero => exact .inl ⟨rfl, h.answer, h.verified⟩
  | succ m =>
      obtain ⟨w, hw, hfalse⟩ := h.refused 0 (Nat.succ_pos m)
      refine .inr ⟨m, w, rfl, hw, hfalse, fun i hi => ?_, ?_, h.verified⟩
      · have hrefused := h.refused (i + 1) (by omega)
        rwa [Nat.add_comm i, ← Nat.add_assoc] at hrefused
      · have hanswer := h.answer
        rwa [Nat.add_comm m, ← Nat.add_assoc] at hanswer

/-- There is one such answer at most. -/
theorem Answered.unique {k n m : Nat} (h : Answered host entries k n pw)
    (h' : Answered host entries k m pw') : n = m ∧ pw = pw' := by
  have hlt : ∀ {i j : Nat} {u v : String}, Answered host entries k i u →
      Answered host entries k j v → ¬ i < j := by
    intro i j u v hu hv hij
    obtain ⟨w, hw, hfalse⟩ := hv.refused i hij
    obtain rfl := Option.some.inj (hw.symm.trans hu.answer)
    exact absurd (hfalse.symm.trans hu.verified) (by simp)
  obtain rfl : n = m := by
    have := hlt h h'
    have := hlt h' h
    omega
  exact ⟨rfl, Option.some.inj (h.answer.symm.trans h'.answer)⟩

/-! ## what verifying fails with -/

/-- Two steps fail over no pipe if neither does. -/
theorem bind_notBrokenPipe {α β : Type} {x : Except EggError α} {f : α → Except EggError β}
    (h : x >>= f = .error e) (hx : ∀ e, x = .error e → e.isBrokenPipe = false)
    (hf : ∀ a e, f a = .error e → e.isBrokenPipe = false) : e.isBrokenPipe = false := by
  cases x with
  | ok a => exact hf a e h
  | error e' => exact hx e (congrArg Except.error (Except.error.inj h))

/-- Setting up a decryptor writes nothing. -/
theorem setupDecryptor_notBrokenPipe {crates : Crates} {password : Option String}
    (h : setupDecryptor crates entry password = .error e) : e.isBrokenPipe = false := by
  have hsome : ∀ {x : Except EggError FileCrypto}, (some <$> x : Except EggError _) = .error e →
      x = .error e := by
    intro x hx
    cases x with
    | ok a => cases hx
    | error e' => exact congrArg Except.error (Except.error.inj hx)
  have haes : ∀ {data : List UInt8} {pwd : String} {saltSize : Nat} {mode : UInt8},
      buildAes crates data pwd saltSize mode = .error e → e.isBrokenPipe = false := by
    intro data pwd saltSize mode h
    rw [buildAes] at h
    split at h
    · cases h
      rfl
    · refine bind_notBrokenPipe h (fun e he => ?_) fun _ _ h => by cases h
      simp only [AesCtrDecryptor.new] at he
      split_ifs at he <;> cases he <;> rfl
  have hlea : ∀ {data : List UInt8} {pwd : String} {saltSize : Nat} {mode : UInt8},
      buildLea crates data pwd saltSize mode = .error e → e.isBrokenPipe = false := by
    intro data pwd saltSize mode h
    rw [buildLea] at h
    split at h
    · cases h
      rfl
    · refine bind_notBrokenPipe h (fun e he => ?_) fun _ _ h => by cases h
      simp only [LeaCtrDecryptor.new] at he
      split_ifs at he <;> cases he <;> rfl
  rw [setupDecryptor] at h
  split at h
  · cases h
  · split at h
    · cases h
      rfl
    · split at h
      · have hzip := hsome h
        simp only [setupZipCrypto] at hzip
        split_ifs at hzip <;> cases hzip <;> rfl
      · exact haes (hsome h)
      · exact haes (hsome h)
      · exact hlea (hsome h)
      · exact hlea (hsome h)
      · cases h
        rfl

/-- Verifying a password fails over no pipe. -/
theorem verifyPassword_notBrokenPipe {crates : Crates}
    (h : verifyPassword crates entries pw = .error e) : e.isBrokenPipe = false := by
  induction entries with
  | nil => simp [verifyPassword] at h
  | cons entry entries ih =>
      rw [verifyPassword] at h
      split at h
      · cases hsetup : setupDecryptor crates entry (some pw) with
        | ok crypto => simp [hsetup] at h
        | error e' =>
            simp only [hsetup] at h
            split at h
            · next heq => cases heq
            · cases h
            · next heq =>
                cases heq
                cases h
                exact setupDecryptor_notBrokenPipe hsetup
      · exact ih h

/-! ## prompting -/

/-- The process has done nothing but print. -/
def Keeps (p q : Process) : Prop := q.world = p.world ∧ q.prompts = p.prompts

instance : Std.Refl Keeps := ⟨fun _ => ⟨rfl, rfl⟩⟩

instance : IsTrans Process Keeps := ⟨fun _ _ _ h h' => ⟨h'.1.trans h.1, h'.2.trans h.2⟩⟩

/-- A line on standard error keeps what has been prompted and done. -/
theorem keeps_eprintln {ε : Type} (line : String) :
    Run.Steps Keeps (eprintln host line : Run Process ε Unit) := by
  intro p
  rcases @eprintln_run ε host line p with h | ⟨h, -⟩
  all_goals
    rw [h]
    exact ⟨rfl, rfl⟩

theorem keeps_noteIf {ε : Type} (c : Bool) (line : String) :
    Run.Steps Keeps (noteIf host c line : Run Process ε Unit) := .ite (keeps_eprintln _) (.pure _)

/-- The loop of the prompts: the first answer that verifies, an error, or an abort
where standard error does not take that an answer was wrong. -/
theorem promptAttempts_run (attempts : List Nat) (p : Process) :
    (∃ n pw q, n < attempts.length ∧ Answered host entries p.prompts n pw ∧
        (promptAttempts host entries attempts).run p = (.ok pw, q) ∧ q.world = p.world ∧
        q.prompts = p.prompts + n + 1) ∨
      (∃ e q, (∀ n < attempts.length, ∀ pw, ¬ Answered host entries p.prompts n pw) ∧
        (promptAttempts host entries attempts).run p = (.err e, q) ∧ e.isBrokenPipe = false ∧
        q.world = p.world ∧ q.prompts ≤ p.prompts + attempts.length) ∨
      ∃ q, (promptAttempts host entries attempts).run p = (.panic, q) ∧ host.Refuses q ∧
        q.world = p.world ∧ q.prompts ≤ p.prompts + attempts.length := by
  induction attempts generalizing p with
  | nil =>
      refine .inr (.inl ⟨_, p, ?_, rfl, rfl, rfl, Nat.le_add_right _ _⟩)
      intro n hn
      simp at hn
  | cons attempt attempts ih =>
      obtain ⟨q, hq⟩ : ∃ q : Process, q = { p with prompts := p.prompts + 1 } := ⟨_, rfl⟩
      have hread : (readPassword host).run p =
          ((.ok (host.tty p.prompts) : Outcome MainError _), q) := by rw [hq]; rfl
      have hworld : q.world = p.world := by rw [hq]
      have hprompts : q.prompts = p.prompts + 1 := by rw [hq]
      rw [promptAttempts, Run.bind_of_ok hread, List.length_cons]
      cases hanswer : host.tty p.prompts with
      | none =>
          refine .inr (.inl ⟨_, q, fun n _ pw hans => ?_, rfl, rfl, hworld, by omega⟩)
          rcases hans.split with ⟨-, h, -⟩ | ⟨_, _, -, h, -⟩ <;> simp [hanswer] at h
      | some w =>
          dsimp only
          cases hverify : verifyPassword host.crates entries w with
          | error e =>
              refine .inr (.inl ⟨.egg e, q, fun n _ pw hans => ?_, rfl, ?_, hworld, by omega⟩)
              · rcases hans.split with ⟨-, h, h'⟩ | ⟨_, _, -, h, h', -⟩
                all_goals
                  obtain rfl := Option.some.inj (hanswer.symm.trans h)
                  simp [hverify] at h'
              · exact verifyPassword_notBrokenPipe hverify
          | ok valid =>
              have hvalid : (Run.mapErr .egg (Run.ofExcept (.ok valid)) : Main Bool).run q =
                  (.ok valid, q) := rfl
              rw [Run.bind_of_ok hvalid]
              cases valid with
              | true =>
                  exact .inl ⟨0, w, q, Nat.succ_pos _, .zero hanswer hverify, rfl, hworld, hprompts⟩
              | false =>
                  obtain ⟨line, hline⟩ : ∃ line, line = "unegg: incorrect password" ++
                    if attempt < 3 then ", try again" else "" := ⟨_, rfl⟩
                  rw [if_neg (by simp), ← hline]
                  rcases @eprintln_run MainError host line q with hprint | ⟨hprint, hrefuses⟩
                  · rw [Run.bind_of_ok hprint]
                    rcases ih { q with stderr := q.stderr ++ [line] } with
                      ⟨n, pw, q', hn, hans, hrun, hw, hp⟩ | ⟨e, q', hnone, hrun, he, hw, hp⟩ |
                        ⟨q', hrun, hrefuses, hw, hp⟩
                    · simp only [hprompts] at hans hp
                      exact .inl ⟨n + 1, pw, q', by omega, hans.succ hanswer hverify, hrun,
                        hw.trans hworld, by omega⟩
                    · simp only [hprompts] at hnone hp
                      refine .inr (.inl ⟨e, q', fun n hn pw hans => ?_, hrun, he, hw.trans hworld,
                        by omega⟩)
                      rcases hans.split with ⟨-, h, h'⟩ | ⟨m, _, rfl, -, -, hrest⟩
                      · obtain rfl := Option.some.inj (hanswer.symm.trans h)
                        simp [hverify] at h'
                      · exact hnone m (by omega) pw hrest
                    · simp only [hprompts] at hp
                      exact .inr (.inr ⟨q', hrun, hrefuses, hw.trans hworld, by omega⟩)
                  · rw [Run.bind_of_panic hprint]
                    exact .inr (.inr ⟨q, rfl, hrefuses, hworld, by omega⟩)

/-! ## the runs -/

/-- What `run` does before it looks at the archive. -/
def openAny (host : Host) (cli : Cli) : Main EggArchive :=
  if cli.archive = "-" then do
    let data ← Run.mapErr .io (Run.ofExcept host.stdin)
    openCursor host data
  else do
    match ← openVolumes host cli.archive with
    | some reader =>
      let archive ← openSplit host reader
      noteIf host (!cli.quiet && !cli.pipe)
        ("split archive: " ++ reader.segments.length.repr ++ " volumes")
      return archive
    | none =>
      let data ← Run.mapErr (.egg ∘ .cantOpenFile) (Run.ofExcept (host.file cli.archive))
      openCursor host data

/-- A command line opens its archive and handles it. -/
theorem run_eq (host : Host) (cli : Cli) :
    run host cli = openAny host cli >>= runArchive host cli := by
  rw [run, openAny]
  split
  · rw [bind_assoc]
  · rw [bind_assoc]
    refine congrArg _ (funext fun volumes => ?_)
    cases volumes <;> simp only [bind_assoc, pure_bind]

/-- Opening keeps what has been prompted and done. -/
theorem keeps_openAny : Run.Steps Keeps (openAny host cli) := by
  have hcursor : ∀ bytes, Run.Steps Keeps (openCursor host bytes) := fun _ _ => ⟨rfl, rfl⟩
  refine .ite (.bind (.mapErr (.ofExcept _)) fun _ => hcursor _) ?_
  refine .bind (.bind (.mapErr (.ofExcept _)) fun _ _ => ⟨rfl, rfl⟩) fun volumes => ?_
  cases volumes with
  | some reader => exact .bind (fun _ => ⟨rfl, rfl⟩) fun _ => .bind (keeps_noteIf _ _) fun _ => .pure _
  | none => exact .bind (.mapErr (.ofExcept _)) fun _ => hcursor _

/-- The filter of the operands. -/
def Cli.filter (cli : Cli) : Option (List String) := if cli.files = [] then none else some cli.files

/-- The extraction that the command line asks for. -/
def Cli.extraction (host : Host) (cli : Cli) (archive : EggArchive) (password : Option String) :
    Extract Unit :=
  Unegg.extraction host.crates host.os archive (components (cli.destDir.getD ".")) password cli.pipe
    cli.filter

/-- An extraction, and the message at its end. -/
def Cli.extractWith (host : Host) (cli : Cli) (archive : EggArchive) (password : Option String) :
    Main Unit := do
  Run.mapErr .egg (onWorld (cli.extraction host archive password))
  noteIf host (!cli.quiet && !cli.pipe) ("extracted " ++ archive.entries.length.repr ++ " entries")

/-- The files on the command line are the filter of the extraction. -/
theorem extraction_filter (password : Option String) :
    (if cli.files = [] then
      extractAll host.crates host.os archive (components (cli.destDir.getD ".")) password cli.pipe
    else extractFiles host.crates host.os archive (components (cli.destDir.getD ".")) password
      cli.pipe cli.files) = cli.extraction host archive password := by
  rw [Cli.extraction, Cli.filter]
  split <;> rfl

/-- Without a listing the password is found, and used. -/
theorem runArchive_eq (hlist : cli.list = false) :
    runArchive host cli archive = findPassword host cli archive >>= cli.extractWith host archive := by
  rw [runArchive, if_neg (by simp [hlist])]
  simp only [extraction_filter]
  rfl

/-- What comes after a step, when the others do nothing that `R` sees. -/
theorem step_after {σ ε α β : Type} {R : σ → σ → Prop} [Std.Refl R] {m : Run σ ε α}
    {f : α → Run σ ε β} (hf : ∀ a, Run.Steps R (f a)) (s : σ) :
    R (m.run s).2 ((m >>= f).run s).2 := by
  rw [Run.bind_run]
  rcases m.run s with ⟨a | e | _ | _, s'⟩
  · exact hf a s'
  all_goals exact Std.Refl.refl s'

/-- It does to the outside what the extraction does. -/
theorem keeps_extractWith (password : Option String) (p : Process) :
    Keeps { p with world := ((cli.extraction host archive password).run p.world).2 }
      ((cli.extractWith host archive password).run p).2 :=
  step_after (fun _ => keeps_noteIf _ _) p

/-- An extraction that succeeds does so with its message, or aborts at that. -/
theorem extractWith_ok {password : Option String} {q : Process} {v : World}
    (h : (cli.extraction host archive password).run q.world = (.ok (), v)) :
    ∃ q', q'.world = v ∧ ((cli.extractWith host archive password).run q = (.ok (), q') ∨
      (cli.extractWith host archive password).run q = (.panic, q') ∧ host.Refuses q') := by
  have hstep : (Run.mapErr .egg (onWorld (cli.extraction host archive password)) : Main Unit).run
      q = (.ok (), { q with world := v }) :=
    Run.mapErr_of_ok (by simp only [onWorld, Run.zoom, h])
  rw [Cli.extractWith, Run.bind_of_ok hstep]
  rcases @noteIf_run MainError host (!cli.quiet && !cli.pipe)
    ("extracted " ++ archive.entries.length.repr ++ " entries") { q with world := v } with
    hprint | ⟨hprint, hrefuses, -⟩
  · exact ⟨_, rfl, .inl hprint⟩
  · exact ⟨_, rfl, .inr ⟨hprint, hrefuses⟩⟩

/-- A run that succeeds gives status 0. -/
theorem main_of_ok {args : List String} (hparse : (parseArgs.run args).1 = .ok cli) {p q : Process}
    (h : (run host cli).run p = (.ok (), q)) : (main host args).run p = (.ok 0, q) := by
  unfold main
  rw [hparse]
  dsimp only
  rw [Run.bind_of_ok (Run.attempt_of_ok h)]
  rfl

/-- A run that fails gives a message and status 1, unless a pipe was closed. -/
theorem main_of_err {args : List String} (hparse : (parseArgs.run args).1 = .ok cli)
    {p q : Process} {e : MainError} (h : (run host cli).run p = (.err e, q))
    (hpipe : (cli.pipe && e.isBrokenPipe) = false) :
    (main host args).run p =
        (.ok 1, { q with stderr := q.stderr ++ ["unegg: " ++ e.toString] }) ∨
      (main host args).run p = (.panic, q) ∧ host.Refuses q := by
  unfold main
  rw [hparse]
  dsimp only
  rw [Run.bind_of_ok (Run.attempt_of_err h), report, hpipe]
  rcases @eprintln_run Empty host ("unegg: " ++ e.toString) q with hprint | ⟨hprint, hrefuses⟩
  · exact .inl (Run.bind_of_ok hprint)
  · exact .inr ⟨Run.bind_of_panic hprint, hrefuses⟩

/-- A run that aborts is the process that does. -/
theorem main_of_panic {args : List String} (hparse : (parseArgs.run args).1 = .ok cli)
    {p q : Process} (h : (run host cli).run p = (.panic, q)) :
    (main host args).run p = (.panic, q) := by
  unfold main
  rw [hparse]
  exact Run.bind_of_panic (Run.attempt_of_panic h)

/-- Behind its run the process only prints. -/
theorem keeps_main {args : List String} (hparse : (parseArgs.run args).1 = .ok cli) (p : Process) :
    Keeps ((run host cli).run p).2 ((main host args).run p).2 := by
  have hreport : ∀ r, Run.Steps Keeps (report host cli r) := by
    intro r
    cases r with
    | ok u => exact .pure _
    | error e => exact .ite (.pure _) (.bind (keeps_eprintln _) fun _ => .pure _)
  have hattempt : ((Run.attempt (run host cli) : Run Process Empty _).run p).2 =
      ((run host cli).run p).2 := by
    simp only [Run.attempt]
    rcases (run host cli).run p with ⟨a | e | _ | _, q⟩ <;> rfl
  unfold main
  rw [hparse, ← hattempt]
  exact step_after hreport p

/-- **A password that is asked for**: at most three answers are heard; the first
that verifies, behind others that were refused, is the password of the
extraction.  Without one nothing is done to the outside, and the exit status is 1,
or standard error does not take a message. -/
theorem main_prompts {args : List String} (hparse : (parseArgs.run args).1 = .ok cli)
    (hopen : ((openAny host cli).run .start).1 = .ok archive) (hlist : cli.list = false)
    (hpassword : cli.password = none) (hencrypted : archive.isEncrypted = true) :
    (∃ n pw, n < 3 ∧ Answered host archive.entries 0 n pw ∧
        ((main host args).run .start).2.prompts = n + 1 ∧
        ((main host args).run .start).2.world =
          ((cli.extraction host archive (some pw)).run []).2) ∨
      ((main host args).run .start).2.world = [] ∧
        ((main host args).run .start).2.prompts ≤ 3 ∧
        ((∀ n < 3, ∀ pw, ¬ Answered host archive.entries 0 n pw) ∧
            ((main host args).run .start).1 = .ok 1 ∨
          ((main host args).run .start).1 = .panic ∧
            host.Refuses ((main host args).run .start).2) := by
  have hkeeps := @keeps_main host cli args hparse .start
  obtain ⟨q, hq⟩ : ∃ q, (openAny host cli).run .start = (.ok archive, q) :=
    ⟨_, Prod.ext hopen rfl⟩
  obtain ⟨hworld, hprompts⟩ : Keeps .start q := keeps_openAny.of_run hq
  have hpassword : findPassword host cli archive =
      promptPassword host archive.entries >>= fun pw => return some pw := by
    rw [findPassword, hpassword]
    exact if_pos hencrypted
  have hrun : (run host cli).run .start = (promptPassword host archive.entries >>= fun pw =>
      cli.extractWith host archive (some pw)).run q := by
    rw [run_eq, Run.bind_of_ok hq, runArchive_eq hlist, hpassword, bind_assoc]
    rfl
  rcases @promptAttempts_run host archive.entries [1, 2, 3] q with
    ⟨n, pw, q', hn, hans, hprompt, hw, hp⟩ | ⟨e, q', hnone, hprompt, he, hw, hp⟩ |
      ⟨q', hprompt, hrefuses, hw, hp⟩
  · have hprompt : (promptPassword host archive.entries).run q = (.ok pw, q') := hprompt
    rw [hrun, Run.bind_of_ok hprompt] at hkeeps
    have hextract := @keeps_extractWith host cli archive (some pw) q'
    rw [hprompts] at hans hp
    refine .inl ⟨n, pw, hn, hans, ?_, ?_⟩
    · rw [hkeeps.2, hextract.2, hp]
      simp [Process.start]
    · rw [hkeeps.1, hextract.1, hw, hworld]
      rfl
  · have hprompt : (promptPassword host archive.entries).run q = (.err e, q') := hprompt
    rw [Run.bind_of_err hprompt] at hrun
    rw [hrun] at hkeeps
    rw [hprompts] at hnone hp
    refine .inr ⟨by rw [hkeeps.1, hw, hworld]; rfl, by rw [hkeeps.2]; exact hp, ?_⟩
    rcases @main_of_err host cli args hparse _ _ _ hrun (by rw [he, Bool.and_false]) with
      hmain | ⟨hmain, hrefuses⟩
    · exact .inl ⟨hnone, by rw [hmain]⟩
    · exact .inr ⟨by rw [hmain], by rw [hmain]; exact hrefuses⟩
  · have hprompt : (promptPassword host archive.entries).run q = (.panic, q') := hprompt
    rw [Run.bind_of_panic hprompt] at hrun
    rw [hrun] at hkeeps
    rw [hprompts] at hp
    have hmain := @main_of_panic host cli args hparse _ _ hrun
    refine .inr ⟨by rw [hkeeps.1, hw, hworld]; rfl, by rw [hkeeps.2]; exact hp, .inr ⟨?_, ?_⟩⟩
    · rw [hmain]
    · rw [hmain]
      exact hrefuses

/-- A locked archive, and a terminal whose second answer is right. -/
theorem main_prompts_asking :
    ∃ n pw, n < 3 ∧ Answered askingHost (lockedArchive.desc .storeOnly "pw").archive.entries 0 n pw ∧
      ((main askingHost ["unegg", "-"]).run .start).2.prompts = n + 1 ∧
      ((main askingHost ["unegg", "-"]).run .start).2.world =
        ((Cli.extraction askingHost ⟨false, false, false, none, none, "-", []⟩
          (lockedArchive.desc .storeOnly "pw").archive (some pw)).run []).2 := by
  have hparse : (parseArgs.run ["unegg", "-"]).1 =
      .ok ⟨false, false, false, none, none, "-", []⟩ := by
    decide +kernel
  refine (main_prompts hparse (by decide +kernel) rfl rfl (by decide +kernel)).resolve_right ?_
  rintro ⟨-, -, ⟨-, hstatus⟩ | ⟨hstatus, -⟩⟩
  all_goals
    have hok : ((main askingHost ["unegg", "-"]).run .start).1 = .ok 0 := by decide +kernel
    simp [hok] at hstatus

end Unegg
