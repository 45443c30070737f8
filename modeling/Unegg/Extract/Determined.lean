import Unegg.Coder.Lockstep
import Unegg.Effects.Made
import Unegg.Extract
import Unegg.SolidSink.Tilings

/-!
# Unegg.Extract.Determined

What an entry comes to when every call succeeds.

It does not matter then where the entry is written to nor what has happened
before: its extraction ends as it does on its own (`entryOutcome`), and what it
writes is what it writes on its own (`entryContent`).  For a list of entries the
same is read off entry by entry (`entries_ok`, `entries_outcome`).
-/

namespace Unegg

open Prog

variable {crates : Crates} {os : Os} {archive : EggArchive} {dest : Path}
  {password : Option String} {pipeMode pipeMode' : Bool} {entry : EggFileEntry}
  {w w' w₀ w₀' : World} {t t' : Target}

/-! ## two writers under one cap -/

/-- Below its cap a capped writer takes what the writer takes. -/
theorem limit_writeAllFrom (hos : os.Succeeds) {n : Nat} {bs : List UInt8} (hn : bs.length ≤ n)
    {cap : Nat} (hcap : bs.length ≤ cap) (k : Nat) (w : World) :
    ∃ w', ((os.sink t).writeAllFrom n k bs).run w = (.ok (k + bs.length, none), w') ∧
      ((limitWriter (os.sink t)).writeAllFrom n k bs).run (w, cap) =
        (.ok (k + bs.length, none), (w', cap - bs.length)) := by
  induction n generalizing bs cap k w with
  | zero =>
      obtain rfl : bs = [] := List.length_eq_zero_iff.mp (by omega)
      exact ⟨w, by simp, by simp⟩
  | succ n ih =>
      cases bs with
      | nil => exact ⟨w, by simp, by simp⟩
      | cons b bs =>
          obtain ⟨m, hm, hpos⟩ := hos.write w t (b :: bs)
          obtain ⟨j, hj⟩ : ∃ j, min m (b :: bs).length = j := ⟨_, rfl⟩
          have hle : 0 < j ∧ j ≤ (b :: bs).length := by
            have := hpos (by simp)
            rw [List.length_cons] at hj ⊢
            omega
          have hwrite : ((os.sink t).write (b :: bs)).run w =
              (.ok j, w ++ [.write t ((b :: bs).take m)]) := by
            simp only [Os.sink, hm, hj]
          have hlimit : ((limitWriter (os.sink t)).write (b :: bs)).run (w, cap) =
              (.ok j, (w ++ [.write t ((b :: bs).take m)], cap - j)) := by
            simp only [limitWriter, if_neg (Nat.not_lt.mpr hcap), hwrite]
          have hne : j ≠ 0 := by omega
          have hlen : ((b :: bs).drop j).length = (b :: bs).length - j := List.length_drop
          have hn' : ((b :: bs).drop j).length ≤ n := by omega
          have hcap' : ((b :: bs).drop j).length ≤ cap - j := by omega
          obtain ⟨w', h, h'⟩ := ih hn' hcap' (k + j) (w ++ [.write t ((b :: bs).take m)])
          have hsum : k + j + ((b :: bs).drop j).length = k + (b :: bs).length := by omega
          have hroom : cap - j - ((b :: bs).drop j).length = cap - (b :: bs).length := by omega
          rw [hsum] at h h'
          rw [hroom] at h'
          refine ⟨w', ?_, ?_⟩
          · rw [ByteSink.writeAllFrom, Run.bind_of_ok (Run.attempt_of_ok hwrite)]
            simp only [if_neg hne, h]
          · rw [ByteSink.writeAllFrom, Run.bind_of_ok (Run.attempt_of_ok hlimit)]
            simp only [if_neg hne, h']

/-- A capped writer refuses what exceeds its cap, and takes everything else. -/
theorem limit_writeAll (hos : os.Succeeds) (t : Target) (bs : List UInt8) (w : World) (cap : Nat) :
    if cap < bs.length then
      ((limitWriter (os.sink t)).writeAllCounted bs).run (w, cap) = (.ok (0,
        some ⟨.invalidData, "decompressed output exceeds declared uncompressed size"⟩), (w, cap))
    else
      ∃ w', ((limitWriter (os.sink t)).writeAllCounted bs).run (w, cap) =
          (.ok (bs.length, none), (w', cap - bs.length)) ∧
        (os.writeTo (some t) bs).run w = (.ok (), w') := by
  split
  · next hcap =>
      cases bs with
      | nil => simp at hcap
      | cons b bs =>
          have hlimit : ((limitWriter (os.sink t)).write (b :: bs)).run (w, cap) =
              (.err ⟨.invalidData, "decompressed output exceeds declared uncompressed size"⟩,
                (w, cap)) := by
            simp only [limitWriter, if_pos hcap]
          rw [ByteSink.writeAllCounted, List.length_cons, ByteSink.writeAllFrom,
            Run.bind_of_ok (Run.attempt_of_err hlimit)]
          rfl
  · next hcap =>
      obtain ⟨w', h, h'⟩ := limit_writeAllFrom (t := t) hos le_rfl (Nat.not_lt.mp hcap) 0 w
      rw [Nat.zero_add] at h h'
      exact ⟨w', h', ByteSink.writeAll_ok.mpr h⟩

/-- The same bytes have gone to two outputs, with the same room left. -/
def SameFill (t t' : Target) (w₀ w₀' : World) (p q : World × Nat) : Prop :=
  q.2 = p.2 ∧ ∃ cs, Made w₀ p.1 [(t, cs)] ∧ Made w₀' q.1 [(t', cs)]

/-- A write to an output goes on with it, and with no other. -/
theorem Made.fill {cs bs : List UInt8} (hos : os.Succeeds) (h : Made w₀ w [(t, cs)])
    (hrun : (os.writeTo (some t) bs).run w = (.ok (), w')) : Made w₀ w' [(t, cs ++ bs)] := by
  have hmade : Made w₀ w ([] ++ ((some t).map (·, cs)).toList) := h
  obtain ⟨w₁, hrun₁, h₁⟩ := hmade.writeTo hos bs
  rw [hrun, Prod.mk.injEq] at hrun₁
  rw [hrun₁.2]
  exact h₁

/-- Writers of two outputs under one cap stay in step. -/
theorem inStep_limitWriter (hos : os.Succeeds) :
    Coder.InStep (limitWriter (os.sink t)) (limitWriter (os.sink t')) (SameFill t t' w₀ w₀') where
  writeAll := by
    rintro bs ⟨w, cap⟩ ⟨w', cap'⟩ ⟨hcap, cs, h, h'⟩
    dsimp only at hcap h h'
    subst hcap
    have hleft := limit_writeAll hos t bs w cap'
    have hright := limit_writeAll hos t' bs w' cap'
    split at hleft
    · next hlt =>
        rw [if_pos hlt] at hright
        rw [hleft, hright]
        exact .ok ⟨rfl, cs, h, h'⟩
    · next hge =>
        rw [if_neg hge] at hright
        obtain ⟨w₁, hrun, hto⟩ := hleft
        obtain ⟨w₁', hrun', hto'⟩ := hright
        rw [hrun, hrun']
        exact .ok ⟨rfl, cs ++ bs, h.fill hos hto, h'.fill hos hto'⟩
  flush := by
    rintro p q h
    simp only [limitWriter, Os.sink, hos.flush]
    exact .ok h

/-! ## the blocks of an entry -/

/-- The same bytes have gone to two outputs, with the same decryptor left. -/
def SameState (t t' : Target) (w₀ w₀' : World) (p q : Option Decryptor × World) : Prop :=
  q.1 = p.1 ∧ ∃ cs, Made w₀ p.2 [(t, cs)] ∧ Made w₀' q.2 [(t', cs)]

/-- A block is extracted alike to both of them. -/
theorem alike_extractBlock (hos : os.Succeeds) (block : EggBlock) {p q : Option Decryptor × World}
    (h : SameState t t' w₀ w₀' p q) :
    Run.Alike (fun _ => SameState t t' w₀ w₀') (SameState t t' w₀ w₀')
      ((extractBlock crates os archive t block).run p)
      ((extractBlock crates os archive t' block).run q) := by
  obtain ⟨d, w⟩ := p
  obtain ⟨d', w'⟩ := q
  obtain ⟨hd, hmade⟩ := h
  dsimp only at hd hmade
  subst hd
  have hio : Coder.SameIo (SameFill t t' w₀ w₀') (blockIo archive block (d', w))
      (blockIo archive block (d', w')) := ⟨rfl, rfl, rfl, hmade⟩
  have hrun := (inStep_limitWriter hos).run (decryptSome crates) (decompress crates
    block.compressionMethod block.compressedSize.toNat block.uncompressedSize.toNat d'.isSome) hio
  have hblock : Run.Alike (fun _ => SameState t t' w₀ w₀') (SameState t t' w₀ w₀')
      ((decompressBlock crates os archive t block).run (d', w))
      ((decompressBlock crates os archive t' block).run (d', w')) := by
    simp only [decompressBlock]
    generalize (Coder.run (decryptSome crates) (limitWriter (os.sink t)) _).run _ = x at hrun
    generalize (Coder.run (decryptSome crates) (limitWriter (os.sink t')) _).run _ = y at hrun
    cases hrun with
    | ok h => exact .ok ⟨h.crypto.symm, h.out.2⟩
    | err h => exact .err ⟨h.crypto.symm, h.out.2⟩
    | panic h => exact .panic ⟨h.crypto.symm, h.out.2⟩
    | hang h => exact .hang ⟨h.crypto.symm, h.out.2⟩
  refine hblock.bind fun crc p q h => ?_
  split
  · exact .err h
  · exact .ok h

/-- The blocks of an entry are extracted alike to both of them. -/
theorem alike_extractBlocks (hos : os.Succeeds) (blocks : List EggBlock)
    (crypto : Option Decryptor) (h : ∃ cs, Made w₀ w [(t, cs)] ∧ Made w₀' w' [(t', cs)]) :
    Run.Alike (fun _ v v' => ∃ cs, Made w₀ v [(t, cs)] ∧ Made w₀' v' [(t', cs)]) (fun _ _ => True)
      ((extractBlocks crates os archive t blocks crypto).run w)
      ((extractBlocks crates os archive t' blocks crypto).run w') := by
  have hloop : Run.Alike (fun _ => SameState t t' w₀ w₀') (SameState t t' w₀ w₀')
      ((Run.forEach (extractBlock crates os archive t) blocks).run (crypto, w))
      ((Run.forEach (extractBlock crates os archive t') blocks).run (crypto, w')) :=
    .forEach (fun block _ _ _ h => alike_extractBlock hos block h) ⟨rfl, h⟩
  simp only [extractBlocks]
  generalize (Run.forEach (extractBlock crates os archive t) blocks).run (crypto, w) = x at hloop
  generalize (Run.forEach (extractBlock crates os archive t') blocks).run (crypto, w') = y at hloop
  cases hloop with
  | ok h => exact .ok h.2
  | err h => exact .err trivial
  | panic h => exact .panic trivial
  | hang h => exact .hang trivial

/-! ## one entry, written to two places -/

/-- The output of an entry with content `f`: a directory has none, and a file
without blocks none on standard output. -/
def entryOutputs (dest : Path) (pipeMode : Bool) (entry : EggFileEntry) (f : List UInt8) :
    List (Target × List UInt8) :=
  if entry.isDirectory || pipeMode && entry.blocks = [] then []
  else ((outputTarget dest pipeMode none entry).map (·, f)).toList

/-- The directories that are made for an entry on disk. -/
def entryDirectories (dest : Path) (entry : EggFileEntry) : List Path :=
  match (safeJoin dest entry.fileName).toOption with
  | none => []
  | some path => if entry.isDirectory then [path] else path.parent.toList

/-- An entry has been extracted with content `f`. -/
structure EntryDone (dest : Path) (pipeMode : Bool) (entry : EggFileEntry) (f : List UInt8)
    (w v : World) : Prop where
  wrote : Wrote w v (entryOutputs dest pipeMode entry f)
  written : written v = written w ++ f
  directories :
    directories v = directories w ++ if pipeMode then [] else entryDirectories dest entry

/-- What is made for a file. -/
theorem EntryDone.of_made {path : Path} {f : List UInt8}
    (hjoin : safeJoin dest entry.fileName = .ok path) (hdir : entry.isDirectory = false)
    (hblocks : pipeMode = true → entry.blocks ≠ [])
    (h : Made w w' [(if pipeMode then .stdout else .file path, f)]) :
    EntryDone dest pipeMode entry f w w' where
  wrote := by
    have hempty : (entry.isDirectory || pipeMode && decide (entry.blocks = [])) = false := by
      cases pipeMode <;> simp_all
    rw [entryOutputs, hempty]
    cases pipeMode <;>
      simpa [outputTarget, shouldExtract, hjoin, Except.toOption] using h.wrote
  written := by simpa using h.wrote.written
  directories := by
    rw [h.directories]
    cases pipeMode <;> simp [entryDirectories, hjoin, Except.toOption, hdir, Target.above]

/-- A file that is created is an empty output. -/
theorem createFile_made (hos : os.Succeeds) (path : Path) (w : World) :
    ∃ v, (createFile os path).run w = (.ok (), v) ∧ Made w v [(.file path, [])] := by
  obtain ⟨w₁, v, h₁, h₂, hmade⟩ := Made.start.create hos path (w := w)
  refine ⟨v, ?_, by simpa using hmade⟩
  rw [createFile, Run.bind_of_ok (Run.mapErr_of_ok h₁), Run.mapErr_of_ok h₂]

/-- A directory is done once it is made, or passed over by a pipe. -/
theorem directory_done (hos : os.Succeeds) (pipeMode : Bool) {path : Path}
    (hjoin : safeJoin dest entry.fileName = .ok path) (hdir : entry.isDirectory) (w : World) :
    ∃ v, (if pipeMode then pure () else createDirAll os path : Extract Unit).run w = (.ok (), v) ∧
      EntryDone dest pipeMode entry [] w v := by
  cases pipeMode with
  | true => exact ⟨w, rfl, by simpa [entryOutputs, hdir] using Wrote.start, by simp, by simp⟩
  | false =>
      have hwrote : Wrote w (w ++ [.createDirAll path true]) [] := Wrote.start.quiet rfl
      refine ⟨_, Run.mapErr_of_ok (hos.mkdirAll_run path w), ?_, ?_, ?_⟩
      · simpa [entryOutputs, hdir] using hwrote
      · simpa using hwrote.written
      · rw [directories_append]
        simp [entryDirectories, hjoin, Except.toOption, hdir, Unegg.directories, Event.madeDir]

/-- A file without blocks is done once it is created, or passed over by a pipe. -/
theorem empty_done (hos : os.Succeeds) (pipeMode : Bool) {path : Path}
    (hjoin : safeJoin dest entry.fileName = .ok path) (hdir : entry.isDirectory = false)
    (hblocks : entry.blocks = []) (w : World) :
    ∃ v, (if pipeMode then pure () else createFile os path : Extract Unit).run w = (.ok (), v) ∧
      EntryDone dest pipeMode entry [] w v := by
  cases pipeMode with
  | true => exact ⟨w, rfl, by simpa [entryOutputs, hblocks] using Wrote.start, by simp, by simp⟩
  | false =>
      obtain ⟨v, hrun, hmade⟩ := createFile_made hos path w
      exact ⟨v, hrun, .of_made hjoin hdir (by simp) (by simpa using hmade)⟩

/-- Opening the writer begins the output of the entry. -/
theorem openWriter_made (hos : os.Succeeds) (pipeMode : Bool) (path : Path) (w : World) :
    ∃ v, (openWriter os pipeMode path).run w =
        (.ok (if pipeMode then .stdout else .file path), v) ∧
      Made w v [(if pipeMode then .stdout else .file path, [])] := by
  cases pipeMode with
  | true => exact ⟨_, rfl, Made.start.stdout⟩
  | false =>
      obtain ⟨v, hrun, hmade⟩ := createFile_made hos path w
      refine ⟨v, ?_, by simpa using hmade⟩
      rw [openWriter, if_neg (by simp), Run.bind_of_ok hrun]
      rfl

/-- Setting a time succeeds and writes nothing. -/
theorem setFileTime_run (path : Path) (filetime : UInt64) (w : World) :
    ∃ v, (setFileTime path filetime).run w = (.ok (), v) ∧
      Adds (fun e => e.isQuiet ∧ e.madeDir = none) w v := by
  rw [setFileTime]
  split
  · exact ⟨w, rfl, Std.Refl.refl w⟩
  · exact ⟨_, rfl, Adds.one ⟨rfl, rfl⟩ w⟩

/-- Stamping the file of an entry succeeds and writes nothing. -/
theorem stamp_run (pipeMode : Bool) (path : Path) (fileTime : Option UInt64) (w : World) :
    ∃ v, (stamp pipeMode path fileTime).run w = (.ok (), v) ∧
      Adds (fun e => e.isQuiet ∧ e.madeDir = none) w v := by
  cases pipeMode with
  | true => exact ⟨w, rfl, Std.Refl.refl w⟩
  | false =>
      cases fileTime with
      | none => exact ⟨w, rfl, Std.Refl.refl w⟩
      | some ft => exact setFileTime_run path ft w

/-- Discarding it succeeds. -/
theorem discard_run (pipeMode : Bool) (path : Path) (w : World) :
    ∃ v, (discard pipeMode path).run w = (.ok (), v) := by
  cases pipeMode with
  | true => exact ⟨w, rfl⟩
  | false => exact ⟨_, rfl⟩

/-- What is parsed does not depend on the world. -/
theorem alike_onReader {α : Type} (m : Parser α) (w w' : World) :
    Run.Alike (fun _ v v' => v = w ∧ v' = w') (fun _ _ => True) ((onReader archive m).run w)
      ((onReader archive m).run w') := by
  simp only [onReader]
  cases (m.run archive.reader).1 with
  | ok a => exact .ok ⟨rfl, rfl⟩
  | err e => exact .err trivial
  | panic => exact .panic trivial
  | hang => exact .hang trivial

/-- An entry with blocks. -/
theorem alike_extractData (hos : os.Succeeds) (pipeMode pipeMode' : Bool) {path : Path}
    (hjoin : safeJoin dest entry.fileName = .ok path) (hdir : entry.isDirectory = false)
    (hblocks : entry.blocks ≠ []) (w w' : World) :
    Run.Alike (fun _ v v' => ∃ f, EntryDone dest pipeMode entry f w v ∧
        EntryDone dest pipeMode' entry f w' v') (fun _ _ => True)
      ((extractData crates os archive password pipeMode entry path).run w)
      ((extractData crates os archive password pipeMode' entry path).run w') := by
  rw [extractData, extractData]
  cases setupDecryptor crates entry password with
  | error e => exact .err trivial
  | ok crypto =>
      rw [Run.ofExcept, pure_bind, pure_bind]
      refine (alike_onReader _ w w').bind ?_
      rintro _ w w' ⟨rfl, rfl⟩
      obtain ⟨v, hopen, hmade⟩ := openWriter_made hos pipeMode path w
      obtain ⟨v', hopen', hmade'⟩ := openWriter_made hos pipeMode' path w'
      rw [Run.bind_of_ok hopen, Run.bind_of_ok hopen']
      refine (alike_extractBlocks hos entry.blocks _ ⟨[], hmade, hmade'⟩).attempt.bind ?_
      rintro (e | u) v₁ v₁' ⟨hok, -⟩
      · obtain ⟨v₂, hrun⟩ := discard_run pipeMode path v₁
        obtain ⟨v₂', hrun'⟩ := discard_run pipeMode' path v₁'
        simp only [Run.bind_of_ok hrun, Run.bind_of_ok hrun']
        exact .err trivial
      · obtain ⟨f, hf, hf'⟩ := hok u rfl
        obtain ⟨v₂, hrun, hquiet⟩ := stamp_run pipeMode path entry.fileTime v₁
        obtain ⟨v₂', hrun', hquiet'⟩ := stamp_run pipeMode' path entry.fileTime v₁'
        simp only [hrun, hrun']
        exact .ok ⟨f, .of_made hjoin hdir (fun _ => hblocks) (hf.adds hquiet),
          .of_made hjoin hdir (fun _ => hblocks) (hf'.adds hquiet')⟩

/-- **An entry is extracted alike wherever it goes.** -/
theorem alike_extractEntry (hos : os.Succeeds) (pipeMode pipeMode' : Bool) (entry : EggFileEntry)
    (w w' : World) :
    Run.Alike (fun _ v v' => ∃ f, EntryDone dest pipeMode entry f w v ∧
        EntryDone dest pipeMode' entry f w' v') (fun _ _ => True)
      ((extractEntry crates os archive dest password pipeMode entry).run w)
      ((extractEntry crates os archive dest password pipeMode' entry).run w') := by
  rw [extractEntry, extractEntry]
  cases hjoin : safeJoin dest entry.fileName with
  | error e => exact .err trivial
  | ok path =>
      rw [Run.ofExcept, pure_bind, pure_bind]
      split
      · next hdir =>
          obtain ⟨v, hrun, hdone⟩ := directory_done hos pipeMode hjoin hdir w
          obtain ⟨v', hrun', hdone'⟩ := directory_done hos pipeMode' hjoin hdir w'
          rw [hrun, hrun']
          exact .ok ⟨[], hdone, hdone'⟩
      next hdir =>
        rw [Bool.not_eq_true] at hdir
        split
        · next hblocks =>
            split
            · exact .err trivial
            · obtain ⟨v, hrun, hdone⟩ := empty_done hos pipeMode hjoin hdir hblocks w
              obtain ⟨v', hrun', hdone'⟩ := empty_done hos pipeMode' hjoin hdir hblocks w'
              rw [hrun, hrun']
              exact .ok ⟨[], hdone, hdone'⟩
        · next hblocks => exact alike_extractData hos pipeMode pipeMode' hjoin hdir hblocks w w'

/-! ## what an entry comes to -/

section Outcome

variable (crates : Crates) (os : Os) (archive : EggArchive) (dest : Path)
  (password : Option String)

/-- How the extraction of an entry ends. -/
def entryOutcome (entry : EggFileEntry) : Outcome EggError Unit :=
  ((extractEntry crates os archive dest password false entry).run []).1

/-- What it writes. -/
def entryContent (entry : EggFileEntry) : List UInt8 :=
  written ((extractEntry crates os archive dest password false entry).run []).2

/-- How the extraction of several entries ends: with the first that fails. -/
def entriesOutcome : List EggFileEntry → Outcome EggError Unit
  | [] => .ok ()
  | entry :: entries =>
    match entryOutcome crates os archive dest password entry with
    | .ok _ => entriesOutcome entries
    | o => o

end Outcome

/-- What the extraction of an entry comes to is its own. -/
theorem extractEntry_determined (hos : os.Succeeds) (pipeMode : Bool) (entry : EggFileEntry)
    (w : World) :
    ((extractEntry crates os archive dest password pipeMode entry).run w).1 =
        entryOutcome crates os archive dest password entry ∧
      (entryOutcome crates os archive dest password entry = .ok () →
        EntryDone dest pipeMode entry (entryContent crates os archive dest password entry) w
          ((extractEntry crates os archive dest password pipeMode entry).run w).2) := by
  have halike : Run.Alike (fun _ v v' => ∃ f, EntryDone dest pipeMode entry f w v ∧
        EntryDone dest false entry f [] v') (fun _ _ => True)
      ((extractEntry crates os archive dest password pipeMode entry).run w)
      ((extractEntry crates os archive dest password false entry).run []) :=
    alike_extractEntry hos pipeMode false entry w []
  refine ⟨halike.outcome, fun hok => ?_⟩
  obtain ⟨f, hdone, hdone'⟩ := halike.of_ok (halike.outcome.trans hok)
  have hcontent : entryContent crates os archive dest password entry = f := by
    rw [entryContent, hdone'.written]
    rfl
  rwa [hcontent]

/-- Entries succeed exactly if each of them does. -/
theorem entriesOutcome_ok {es : List EggFileEntry} :
    entriesOutcome crates os archive dest password es = .ok () ↔
      ∀ entry ∈ es, entryOutcome crates os archive dest password entry = .ok () := by
  induction es with
  | nil => simp [entriesOutcome]
  | cons entry es ih =>
      rw [entriesOutcome, List.forall_mem_cons]
      cases entryOutcome crates os archive dest password entry with
      | ok u => simp [ih]
      | _ => simp

/-- Several entries have been extracted with the contents `content`. -/
structure EntriesDone (dest : Path) (pipeMode : Bool) (content : EggFileEntry → List UInt8)
    (es : List EggFileEntry) (w v : World) : Prop where
  wrote : Wrote w v (es.flatMap fun entry => entryOutputs dest pipeMode entry (content entry))
  written : written v = written w ++ es.flatMap content
  directories : directories v =
    directories w ++ if pipeMode then [] else es.flatMap (entryDirectories dest)

/-- Entries are done one behind the other. -/
theorem EntriesDone.cons {content : EggFileEntry → List UInt8} {es : List EggFileEntry}
    {v₁ v : World} (h : EntryDone dest pipeMode entry (content entry) w v₁)
    (h' : EntriesDone dest pipeMode content es v₁ v) :
    EntriesDone dest pipeMode content (entry :: es) w v where
  wrote := by
    rw [List.flatMap_cons]
    exact h.wrote.trans h'.wrote
  written := by rw [h'.written, h.written, List.flatMap_cons, List.append_assoc]
  directories := by
    rw [h'.directories, h.directories]
    cases pipeMode <;> simp

/-- **The extraction of several entries** is that of each. -/
theorem entries_determined (hos : os.Succeeds) (pipeMode : Bool) (es : List EggFileEntry)
    (w : World) :
    ((Run.forEach (extractEntry crates os archive dest password pipeMode) es).run w).1 =
        entriesOutcome crates os archive dest password es ∧
      (entriesOutcome crates os archive dest password es = .ok () →
        EntriesDone dest pipeMode (entryContent crates os archive dest password) es w
          ((Run.forEach (extractEntry crates os archive dest password pipeMode) es).run w).2) := by
  induction es generalizing w with
  | nil => exact ⟨rfl, fun _ => ⟨.start, by simp [Run.forEach], by simp [Run.forEach]⟩⟩
  | cons entry es ih =>
      obtain ⟨hout, hdone⟩ :=
        @extractEntry_determined crates os archive dest password hos pipeMode entry w
      rw [Run.forEach, Run.bind_run, entriesOutcome, ← hout]
      rw [← hout] at hdone
      rcases hrun : (extractEntry crates os archive dest password pipeMode entry).run w with
        ⟨u | e | _ | _, w₁⟩
      case ok =>
        rw [hrun] at hdone
        obtain ⟨hout', hdone'⟩ := ih w₁
        exact ⟨hout', fun hok => .cons (hdone rfl) (hdone' hok)⟩
      all_goals exact ⟨rfl, by simp⟩

end Unegg
