import Unegg.Extract.Selection
import Unegg.Extract.Solid
import Unegg.SolidSink.Spends

/-!
# Unegg.Extract.Announced

An extraction writes no more than the archive announces.

The block headers say how many bytes each block decompresses to.  However a run
ends, and whatever a decompressor makes of the data, the bytes that are written
are no more than that (`extraction_bounded`): a small archive cannot be made to
fill a disk that its headers do not say it will.
-/

namespace Unegg

open Prog

variable {crates : Crates} {os : Os} {archive : EggArchive} {entries : List EggFileEntry}
  {dest : Path} {password : Option String} {pipeMode : Bool} {filter : Option (List String)}

/-- The bytes that blocks announce. -/
def announced (blocks : List EggBlock) : Nat :=
  (blocks.map fun block => block.uncompressedSize.toNat).sum

/-- The blocks that an extraction decompresses: those of a solid archive are one
stream, whatever is selected. -/
def outputBlocks (archive : EggArchive) (filter : Option (List String)) : List EggBlock :=
  if archive.isSolid then solidBlocks archive.entries
  else solidBlocks (selected filter archive.entries)

/-! ## silent steps -/

/-- Quiet steps write nothing. -/
theorem silent_of_quiet {ε α : Type} {m : Run World ε α}
    (h : Run.Steps (Adds fun e => e.isQuiet) m) : Run.Steps SameOutput m := fun w =>
  (h w).sameOutput fun e he => by cases e <;> simp_all [Event.isQuiet, written.step]

/-- Creating a file puts nothing out. -/
theorem silent_createFile (target : Path) : Run.Steps SameOutput (createFile os target) :=
  .bind (.mapErr (sameOutput_createParent _)) fun _ => .mapErr (sameOutput_createFile _)

/-- Parsing puts nothing out. -/
theorem silent_onReader {α : Type} (m : Parser α) : Run.Steps SameOutput (onReader archive m) :=
  fun _ => rfl

theorem silent_checkMatched : Run.Steps SameOutput (checkMatched archive filter) := by
  cases filter with
  | none => exact .pure _
  | some files =>
      rw [checkMatched]
      split
      · exact .throw _
      · exact .pure _

/-! ## entry by entry -/

/-- The cap and what has been written are in balance. -/
theorem steps_cappedSink (out : Target) (bs : List UInt8) :
    Run.Steps (fun p q : World × Nat => output q.1 + q.2 ≤ output p.1 + p.2)
      ((limitWriter (os.sink out)).write bs) := by
  intro p
  rcases hwrite : os.write p.1 out bs with e | n
  all_goals
    simp only [limitWriter, Os.sink, hwrite]
    split
  · exact le_rfl
  · exact le_rfl
  · exact le_rfl
  · dsimp only
    rw [output, written_concat, List.length_append, written.step, List.length_take, output]
    omega

/-- **A block** writes no more than it announces. -/
theorem grows_decompressBlock (out : Target) (block : EggBlock) :
    Run.Grows (fun p : Option Decryptor × World => output p.2) block.uncompressedSize.toNat
      (decompressBlock crates os archive out block) := by
  intro p
  have hrefl : Std.Refl fun p q : World × Nat => output q.1 + q.2 ≤ output p.1 + p.2 :=
    ⟨fun _ => le_rfl⟩
  have htrans : IsTrans (World × Nat) fun p q => output q.1 + q.2 ≤ output p.1 + p.2 :=
    ⟨fun _ _ _ h h' => h'.trans h⟩
  have hflush : Run.Steps (fun p q : World × Nat => output q.1 + q.2 ≤ output p.1 + p.2)
      (limitWriter (os.sink out)).flush := by
    intro q
    simp only [limitWriter, Os.sink]
    split <;> exact le_rfl
  have hrun := @Coder.steps_run _ _ _ _ _ _ (decryptSome crates) (limitWriter (os.sink out)) _
    hrefl htrans (steps_cappedSink out) hflush (decompress crates block.compressionMethod
      block.compressedSize.toNat block.uncompressedSize.toNat p.1.isSome) (blockIo archive block p)
  exact (Nat.le_add_right _ _).trans hrun

/-- Blocks put out no more than they announce. -/
theorem grows_extractBlocks (out : Target) (blocks : List EggBlock) (crypto : Option Decryptor) :
    Run.Grows output (announced blocks) (extractBlocks crates os archive out blocks crypto) := by
  have hblock : ∀ block ∈ blocks, Run.Grows (fun p : Option Decryptor × World => output p.2)
      block.uncompressedSize.toNat (extractBlock crates os archive out block) := by
    intro block _
    exact .before (grows_decompressBlock out block) fun crc => .ite (fun _ => rfl) fun _ => rfl
  exact fun w => Run.Grows.forEach hblock (crypto, w)

/-- The data of an entry puts out no more than its blocks announce. -/
theorem grows_extractData (entry : EggFileEntry) (target : Path) :
    Run.Grows output (announced entry.blocks)
      (extractData crates os archive password pipeMode entry target) := by
  have hopen : Run.Steps SameOutput (openWriter os pipeMode target) :=
    .ite (.bind (sameOutput_note rfl) fun _ => .pure _)
      (.bind (silent_createFile target) fun _ => .pure _)
  refine .behind (.ofExcept _) fun crypto => .behind (silent_onReader _) fun _ => ?_
  refine .behind hopen fun out => .before (.attempt (grows_extractBlocks out _ _)) fun r => ?_
  cases r with
  | error e => exact .bind (.ite (.pure _) (sameOutput_note rfl)) fun _ => .throw _
  | ok u =>
      refine .ite (.pure _) ?_
      split
      · exact silent_of_quiet (quiet_setFileTime _ _)
      · exact .pure _

/-- What an entry that is extracted on its own announces. -/
def entryAnnounced (entry : EggFileEntry) : Nat :=
  if entry.isDirectory then 0 else announced entry.blocks

/-- An entry puts out no more than it announces. -/
theorem grows_extractEntry (entry : EggFileEntry) :
    Run.Grows output (entryAnnounced entry)
      (extractEntry crates os archive dest password pipeMode entry) := by
  refine .behind (.ofExcept _) fun target => ?_
  rw [entryAnnounced]
  split
  · exact .of_steps (.ite (.pure _) (silent_of_quiet (quiet_createDirAll target)))
  · refine .ite (.of_steps (.ite (.throw _) (.ite (.pure _) (silent_createFile target)))) ?_
    exact grows_extractData entry target

/-- The files announce what their blocks do. -/
theorem sum_entryAnnounced (entries : List EggFileEntry) :
    (entries.map entryAnnounced).sum = announced (solidBlocks entries) := by
  induction entries with
  | nil => rfl
  | cons entry entries ih =>
      rw [List.map_cons, List.sum_cons, ih, entryAnnounced]
      by_cases hdir : entry.isDirectory
      · rw [if_pos hdir, Nat.zero_add, solidBlocks, solidBlocks, regular_cons_directory hdir]
      · rw [if_neg hdir, solidBlocks, solidBlocks, regular_cons_file hdir, List.flatMap_cons,
          announced, announced, announced, List.map_append, List.sum_append]

/-! ## a solid archive -/

/-- **A stream** writes no more than its blocks announce. -/
theorem output_decompressInto {cfg : SinkConfig} {decode : Decode Unit} (hdecode : decode.Streams)
    (stream : List UInt8) (w : World) :
    output ((decompressInto os cfg decode stream).run (.new, w)).2.2 ≤
      output w + (cfg.crcSpans.map Prod.fst).sum := by
  have hstream := @Coder.Streams.spends_run _ _ _ _ _ _ (SolidSink.sink os cfg) SolidSink.spent
    (SolidSink.unchecked cfg) Prod.mk _ hdecode (SolidSink.spends_write os)
    (SolidSink.spends_flush os) ⟨stream, (), (.new, w)⟩
  have hall : Run.Spends SolidSink.spent (SolidSink.unchecked cfg) (.new, w)
      ((decompressInto os cfg decode stream).run (.new, w)) := by
    refine .bind ⟨hstream.spent_le, fun a ha => hstream.balance a ha⟩ fun _ p _ => ?_
    refine .bind (.mapErr (SolidSink.idle_advanceFullFiles p).spends) fun _ q _ => ?_
    refine .bind (.mapErr (.pure _)) fun s r _ => ?_
    split
    · exact .throw _
    · exact .pure _
  exact hall.spent_le

/-- A stream puts out what its run does. -/
theorem output_withSink {m : Run (SolidSink × World) EggError Unit} {w : World} {n : Nat}
    (h : output (m.run (.new, w)).2.2 ≤ output w + n) :
    output ((withSink m).run w).2 ≤ output w + n := by
  simp only [withSink, Run.attempt]
  rcases hrun : m.run (.new, w) with ⟨u | e | _ | _, s, w'⟩
  all_goals rwa [hrun] at h

/-- A solid stream puts out no more than its blocks announce. -/
theorem grows_extractStream (hcrates : crates.StopsOnError) :
    Run.Grows output (announced (solidBlocks entries)) (extractStream crates os archive entries dest
      password pipeMode filter (.ofEntries entries)) := by
  have hspans : ((Spans.ofEntries entries).crcSpans.map Prod.fst).sum =
      announced (solidBlocks entries) := by
    rw [crcSpans_ofEntries, List.map_map]
    rfl
  refine .behind (silent_onReader _) fun stream => .before (fun w => ?_) fun r => ?_
  · rw [← hspans]
    exact output_withSink (output_decompressInto
      (stops_decompressSolid hcrates _ _ _).streams stream w)
  · rcases r with ⟨e | u, s⟩
    · refine .bind (.ite (.pure _) (.forEach fun path _ => sameOutput_note rfl)) fun _ => .throw _
    · exact .pure _

/-- Files without data put nothing out. -/
theorem silent_createEmptyFiles (spans : Spans) :
    Run.Steps SameOutput (createEmptyFiles os entries dest filter spans) := by
  refine .ite (.throw _) (.forEach fun span _ => ?_)
  rw [createEmpty]
  split
  · exact .panic
  · exact .ite (.pure _) (.bind (.ofExcept _) fun path => silent_createFile path)

/-- So a solid archive puts out no more than it announces. -/
theorem grows_extractAllSolid (hcrates : crates.StopsOnError) :
    Run.Grows output (announced (solidBlocks entries))
      (extractAllSolid crates os archive entries dest password pipeMode filter) := by
  intro w
  rw [← Nat.zero_add (announced _)]
  refine Run.Grows.bind_at (silent_of_quiet (quiet_scanEntries _ _) w).le fun spans w₁ hscan => ?_
  obtain rfl := spans_ofEntries hscan
  refine Run.Grows.before (.ite (grows_extractStream hcrates) (.ite ?_ ?_)) (fun _ => ?_) w₁
  · exact .of_steps (.pure _)
  · exact .of_steps (silent_createEmptyFiles _)
  · exact silent_of_quiet quiet_applyTimes

/-! ## the extraction -/

/-- **No more is written than is announced**, however the extraction ends. -/
theorem extraction_bounded (os : Os) (dest : Path) (password : Option String) (pipeMode : Bool)
    (filter : Option (List String)) (hcrates : archive.isSolid = true → crates.StopsOnError)
    (w : World) :
    output ((extraction crates os archive dest password pipeMode filter).run w).2 ≤
      output w + announced (outputBlocks archive filter) := by
  suffices h : Run.Grows output (announced (outputBlocks archive filter))
      (extraction crates os archive dest password pipeMode filter) from h w
  rw [outputBlocks]
  by_cases hsolid : archive.isSolid = true
  · rw [if_pos hsolid, extraction_solid _ _ _ _ _ _ _ hsolid]
    exact .before (grows_extractAllSolid (hcrates hsolid)) fun _ => silent_checkMatched
  · rw [if_neg hsolid, extraction_entries _ _ _ _ _ _ _ (by simpa using hsolid)]
    refine .before ?_ fun _ => silent_checkMatched
    rw [← sum_entryAnnounced]
    exact .forEach fun entry _ => grows_extractEntry entry

/-- Two bytes are announced, and no more are written. -/
theorem twoFilesOneBlock_bounded :
    output ((extraction .storeOnly .obliging twoFilesOneBlock [.normal "out"] none false none).run
      []).2 ≤ 2 := by
  have hannounced : announced (outputBlocks twoFilesOneBlock none) = 2 := by decide +kernel
  have hbounded := extraction_bounded .obliging [.normal "out"] none false none
    (fun _ : twoFilesOneBlock.isSolid = true => Crates.storeOnly_stops) []
  rw [hannounced] at hbounded
  exact hbounded

end Unegg
