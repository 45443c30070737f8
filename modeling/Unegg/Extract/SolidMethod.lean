import Unegg.Extract.Codec
import Unegg.SolidSink.Leading

/-!
# Unegg.Extract.SolidMethod

Which blocks steer the decoding of a solid stream.

The stream is put together from the blocks of the files, but its codec is read
off the first block of the archive, be it a directory's or an empty one.  An
extraction whose codec is given does not look at the blocks of directories
(`extractAllSolidAs_file`), nor at an empty block in front of the others
(`extractAllSolidAs_leading`); so these matter where they come first, and
nowhere else.
-/

namespace Unegg

open Prog

variable {crates : Crates} {os : Os} {archive : EggArchive} {entries entries' : List EggFileEntry}
  {destDir : Path} {password : Option String} {pipeMode : Bool} {filter : Option (List String)}
  {w : World} {method : CompressionMethod}

/-! ## one stream, two archives -/

/-- What is done behind the stream looks at the world and the created files only. -/
theorem afterStream_alike {S : SolidSink × World → SolidSink × World → Prop}
    {x y : Outcome EggError Unit × (SolidSink × World)} (h : Run.Alike (fun _ => S) S x y)
    (hS : ∀ p q, S p q → q.2 = p.2 ∧ q.1.created = p.1.created) :
    afterStream pipeMode y = afterStream pipeMode x := by
  cases h with
  | ok h => simp only [afterStream, (hS _ _ h).1]
  | err h => simp only [afterStream, (hS _ _ h).1, (hS _ _ h).2]
  | panic h => simp only [afterStream, (hS _ _ h).1]
  | hang h => simp only [afterStream, (hS _ _ h).1]

/-- Only the names of the entries are looked at for their times. -/
theorem applyTimes_bare (entries : List EggFileEntry) :
    applyTimes (entries.map EggFileEntry.bare) destDir pipeMode filter =
      applyTimes entries destDir pipeMode filter := by
  rw [applyTimes, applyTimes]
  congr 1
  induction entries with
  | nil => rfl
  | cons entry entries ih =>
      rw [List.map_cons, Run.forEach, Run.forEach, ih]
      rfl

/-- Setting the times does not look at the blocks. -/
theorem applyTimes_eq (h : entries'.map EggFileEntry.bare = entries.map EggFileEntry.bare) :
    applyTimes entries' destDir pipeMode filter = applyTimes entries destDir pipeMode filter := by
  rw [← applyTimes_bare entries', ← applyTimes_bare entries, h]

/-- Reading only asks the entries for their decryptors. -/
theorem readBlocks_congr {brs : List BlockRead}
    (h : ∀ br ∈ brs, switchFile crates entries' password br.fileIdx =
      switchFile crates entries password br.fileIdx) (g : Gathered) :
    readBlocks crates entries' password brs g = readBlocks crates entries password brs g := by
  induction brs generalizing g with
  | nil => rfl
  | cons br brs ih =>
      rw [List.forall_mem_cons] at h
      rw [readBlocks, readBlocks, readBlock, readBlock, h.1]
      simp only [ih h.2]

/-- Entries that differ in their blocks have the same outputs. -/
theorem sameOutputs_solidConfig {spans spans' : Spans}
    (h : entries'.map EggFileEntry.bare = entries.map EggFileEntry.bare)
    (hspans : spans'.fileSpans = spans.fileSpans) :
    (solidConfig entries destDir pipeMode filter spans).SameOutputs
      (solidConfig entries' destDir pipeMode filter spans') where
  fileSpans := hspans
  entries := h
  destDir := rfl
  filter := rfl
  pipeMode := rfl

/-! ## the blocks of directories -/

/-- An entry without the blocks of a directory. -/
def EggFileEntry.file (entry : EggFileEntry) : EggFileEntry :=
  if entry.isDirectory then entry.bare else entry

/-- Taking the blocks off a directory leaves the rest of it. -/
theorem map_bare_file (entries : List EggFileEntry) :
    (entries.map EggFileEntry.file).map EggFileEntry.bare = entries.map EggFileEntry.bare := by
  rw [List.map_map]
  refine List.map_congr_left fun entry _ => ?_
  rw [Function.comp_apply, EggFileEntry.file]
  split
  · rfl
  · rfl

/-- The files stay what they are. -/
theorem regular_file (entries : List EggFileEntry) :
    regular (entries.map EggFileEntry.file) = regular entries := by
  have hsame : ∀ entry : EggFileEntry, entry.file.isDirectory = entry.isDirectory := by
    intro entry
    rw [EggFileEntry.file]
    split
    · rfl
    · rfl
  rw [regular, regular, List.filter_map]
  simp only [Function.comp_def, hsame]
  refine (List.map_congr_left fun entry hentry => ?_).trans (List.map_id _)
  rw [EggFileEntry.file, if_neg]
  · rfl
  · simpa using (List.mem_filter.mp hentry).2

/-- The scan of an entry does not see the blocks of a directory. -/
theorem scanEntry_file (entry : EggFileEntry) (fi : Nat) (spans : Spans) :
    scanEntry os destDir pipeMode filter entry.file fi spans =
      scanEntry os destDir pipeMode filter entry fi spans := by
  by_cases hdir : entry.isDirectory
  · have hbare : entry.bare.isDirectory := hdir
    rw [EggFileEntry.file, if_pos hdir, scanEntry, scanEntry, if_pos hbare, if_pos hdir]
    rfl
  · rw [EggFileEntry.file, if_neg hdir]

/-- The scan of all entries does not see the blocks of directories. -/
theorem scanEntries_file (entries : List EggFileEntry) (n : Nat) (spans : Spans) :
    scanEntries os destDir pipeMode filter ((entries.map EggFileEntry.file).zipIdx n) spans =
      scanEntries os destDir pipeMode filter (entries.zipIdx n) spans := by
  induction entries generalizing n spans with
  | nil => rfl
  | cons entry entries ih =>
      rw [List.map_cons, List.zipIdx_cons, List.zipIdx_cons, scanEntries, scanEntries,
        scanEntry_file]
      simp only [ih]

/-- Creating an empty file does not look at the blocks. -/
theorem createEmpty_eq (h : entries'.map EggFileEntry.bare = entries.map EggFileEntry.bare)
    (span : Nat × Nat) :
    createEmpty os entries' destDir filter span = createEmpty os entries destDir filter span := by
  have hget := congrArg (fun es => es[span.1]?) h
  simp only [List.getElem?_map] at hget
  rw [createEmpty, createEmpty]
  cases hentry' : entries'[span.1]? with
  | none =>
      rw [hentry', Option.map_none, eq_comm, Option.map_eq_none_iff] at hget
      rw [hget]
  | some entry' =>
      rw [hentry', Option.map_some, eq_comm, Option.map_eq_some_iff] at hget
      obtain ⟨entry, hentry, hbare⟩ := hget
      have hname : entry.fileName = entry'.fileName := by
        simpa only [EggFileEntry.bare] using congrArg EggFileEntry.fileName hbare
      have hsel : shouldExtract entry filter = shouldExtract entry' filter := by
        cases filter with
        | none => rfl
        | some files => simp only [shouldExtract, hname]
      simp only [hentry, hsel, hname]

/-- Decoding the stream does not look at the blocks, apart from the method. -/
theorem decodeStream_eq (h : entries'.map EggFileEntry.bare = entries.map EggFileEntry.bare)
    (spans : Spans) (stream : List UInt8) :
    (decodeStream method crates os entries' destDir pipeMode filter spans stream).run w =
      (decodeStream method crates os entries destDir pipeMode filter spans stream).run w := by
  rw [decodeStream_run, decodeStream_run]
  refine afterStream_alike ((@SolidSink.lockstep_ahead os _ _ [] (sameOutputs_solidConfig h rfl)
    rfl).decompressInto _ stream rfl) ?_
  rintro p _ rfl
  exact ⟨rfl, rfl⟩

/-- Spans are extracted from the data of their files. -/
theorem extractSpansAs_eq {spans : Spans}
    (h : entries'.map EggFileEntry.bare = entries.map EggFileEntry.bare)
    (hswitch : ∀ br ∈ spans.blockReads, switchFile crates entries' password br.fileIdx =
      switchFile crates entries password br.fileIdx) :
    (extractSpansAs method crates os archive entries' destDir password pipeMode filter spans).run
        w =
      (extractSpansAs method crates os archive entries destDir password pipeMode filter spans).run
        w := by
  rw [extractSpansAs, extractSpansAs]
  split
  · rw [readBlocks_congr hswitch, Run.bind_run, Run.bind_run]
    simp only [decodeStream_eq h]
  · have hempty : createEmpty os entries' destDir filter = createEmpty os entries destDir filter :=
      funext (createEmpty_eq h)
    rw [createEmptyFiles, createEmptyFiles, hempty]

/-- The blocks that are read are blocks of files. -/
theorem regular_of_blockRead {spans : Spans} {w₁ : World} {br : BlockRead}
    (hscan : (scanEntries os destDir pipeMode filter entries.zipIdx .empty).run w =
      (.ok spans, w₁)) (hbr : br ∈ spans.blockReads) :
    ∃ entry, entries[br.fileIdx]? = some entry ∧ entry.isDirectory = false := by
  obtain ⟨rfl, -⟩ := scanEntries_ok hscan
  simp only [Spans.append, Spans.empty, Spans.of, List.nil_append, List.mem_flatMap,
    List.mem_map] at hbr
  obtain ⟨p, hp, block, -, rfl⟩ := hbr
  rw [regularIdx, List.mem_filter] at hp
  exact ⟨p.1, getElem?_of_mem_zipIdx hp.1, by simpa using hp.2⟩

/-- **The blocks of directories do not matter** to a codec that is given. -/
theorem extractAllSolidAs_file :
    (extractAllSolidAs method crates os archive (entries.map EggFileEntry.file) destDir password
        pipeMode filter).run w =
      (extractAllSolidAs method crates os archive entries destDir password pipeMode filter).run
        w := by
  rw [extractAllSolidAs, extractAllSolidAs, applyTimes_eq (map_bare_file entries),
    scanEntries_file, Run.bind_run, Run.bind_run]
  rcases hscan : (scanEntries os destDir pipeMode filter entries.zipIdx .empty).run w with
    ⟨spans | e | _ | _, w₁⟩
  case ok =>
    simp only
    rw [Run.bind_run, Run.bind_run, extractSpansAs_eq (map_bare_file entries)]
    intro br hbr
    obtain ⟨entry, hentry, hfile⟩ := regular_of_blockRead hscan hbr
    have hself : entry.file = entry := if_neg (by simp [hfile])
    rw [switchFile, switchFile, List.getElem?_map, hentry, Option.map_some, hself]
  all_goals rfl

/-! ## an empty block in front -/

/-- A block without data. -/
def EggBlock.empty (method : CompressionMethod) (pos : Nat) : EggBlock := ⟨method, 0, 0, 0, pos⟩

/-- An entry with an empty block in front of its own. -/
def EggFileEntry.led (entry : EggFileEntry) (method : CompressionMethod) (pos : Nat) :
    EggFileEntry :=
  { entry with blocks := .empty method pos :: entry.blocks }

/-- The spans of a file that has an empty block in front. -/
def Spans.led (spans : Spans) (fi pos : Nat) : Spans where
  fileSpans := spans.fileSpans
  crcSpans := (0, 0) :: spans.crcSpans
  blockReads := ⟨fi, 0, pos⟩ :: spans.blockReads

/-- A block in front stays in front while the scan goes on. -/
theorem scanEntry_led (entry : EggFileEntry) (i fi pos : Nat) (spans : Spans) :
    scanEntry os destDir pipeMode filter entry i (spans.led fi pos) =
      scanEntry os destDir pipeMode filter entry i spans >>= fun s => pure (s.led fi pos) := by
  rw [scanEntry, scanEntry]
  split
  · simp only [bind_assoc, pure_bind]
  · simp only [bind_assoc, pure_bind]
    rfl

/-- A block in front stays in front to the end of the scan. -/
theorem scanEntries_led (es : List (EggFileEntry × Nat)) (fi pos : Nat) (spans : Spans) :
    scanEntries os destDir pipeMode filter es (spans.led fi pos) =
      scanEntries os destDir pipeMode filter es spans >>= fun s => pure (s.led fi pos) := by
  induction es generalizing spans with
  | nil => rfl
  | cons p es ih =>
      obtain ⟨entry, i⟩ := p
      rw [scanEntries, scanEntries, scanEntry_led]
      simp only [bind_assoc, pure_bind, ih]

/-- The scan of the archive with the empty block. -/
theorem scanEntries_leading {before after : List EggFileEntry} {entry : EggFileEntry}
    (hbefore : ∀ dir ∈ before, dir.isDirectory) (hentry : ¬ entry.isDirectory)
    (m : CompressionMethod) (pos n : Nat) :
    scanEntries os destDir pipeMode filter ((before ++ entry.led m pos :: after).zipIdx n) .empty =
      scanEntries os destDir pipeMode filter ((before ++ entry :: after).zipIdx n) .empty >>=
        fun s => pure (s.led (n + before.length) pos) := by
  induction before generalizing n with
  | nil =>
      rw [List.nil_append, List.nil_append, List.zipIdx_cons, List.zipIdx_cons, scanEntries,
        scanEntries]
      have hled : ¬ (entry.led m pos).isDirectory := hentry
      rw [scanEntry, if_neg hled, scanEntry, if_neg hentry]
      simp only [bind_assoc, pure_bind, ← scanEntries_led]
      rfl
  | cons dir before ih =>
      rw [List.forall_mem_cons] at hbefore
      rw [List.cons_append, List.cons_append, List.zipIdx_cons, List.zipIdx_cons, scanEntries,
        scanEntries, scanEntry, if_pos hbefore.1]
      simp only [bind_assoc, pure_bind, ih hbefore.2, List.length_cons]
      rw [Nat.add_right_comm, Nat.add_assoc]

/-! ### reading past it -/

section Reading

variable {c c' : Cursor}

/-- Behind a seek the position before it is forgotten. -/
theorem alike_seek {α : Type} (h : SameData c c') (pos : Nat) (f : Unit → Parser α) :
    Run.Alike (fun _ => SameData) SameData ((seekStart pos >>= f).run c)
      ((seekStart pos >>= f).run c') := by
  have hseek : (seekStart pos).run c' = (seekStart pos).run c := by
    simp only [seekStart]
    rw [h]
  rw [Run.bind_run, Run.bind_run, hseek]
  exact .refl _

/-- Authentication reads from positions it seeks to. -/
theorem alike_authenticate (h : SameData c c') (entry : EggFileEntry)
    (crypto : Option FileCrypto) :
    Run.Alike (fun _ => SameData) SameData ((authenticate crates entry crypto).run c)
      ((authenticate crates entry crypto).run c') := by
  rw [authenticate]
  split
  · have hmessage : Run.Alike (fun _ => SameData) SameData ((hmacMessage entry.blocks []).run c)
        ((hmacMessage entry.blocks []).run c') := by
      cases entry.blocks with
      | nil => exact .ok h
      | cons block blocks => exact alike_seek h _ _
    refine hmessage.bind fun msg c₁ c₁' h₁ => ?_
    simp only
    split
    · exact .err h₁
    · exact .ok h₁
  · exact .ok h

/-- So going over to a file does not depend on where the reader stands. -/
theorem alike_switchFile (h : SameData c c') (fi : Nat) :
    Run.Alike (fun _ => SameData) SameData ((switchFile crates entries password fi).run c)
      ((switchFile crates entries password fi).run c') := by
  rw [switchFile]
  split
  · exact .panic h
  · next entry hentry =>
      cases hsetup : setupDecryptor crates entry password with
      | error e => exact .err h
      | ok crypto =>
          rw [Run.ofExcept, pure_bind]
          exact (alike_authenticate h entry crypto).bind fun _ _ _ h₁ => .ok h₁

/-- Reading the blocks does not depend on where the reader stands. -/
theorem alike_readBlocks (h : SameData c c') (brs : List BlockRead) (g : Gathered) :
    Run.Alike (fun _ => SameData) SameData ((readBlocks crates entries password brs g).run c)
      ((readBlocks crates entries password brs g).run c') := by
  induction brs generalizing c c' g with
  | nil => exact .ok h
  | cons br brs ih =>
      rw [readBlocks]
      refine .bind ?_ fun g _ _ h₁ => ih h₁ g
      rw [readBlock]
      have hcrypto : Run.Alike (fun _ => SameData) SameData
          ((if some br.fileIdx ≠ g.currentFileIdx then
            switchFile crates entries password br.fileIdx else pure g.crypto : Parser _).run c)
          ((if some br.fileIdx ≠ g.currentFileIdx then
            switchFile crates entries password br.fileIdx else pure g.crypto : Parser _).run c') := by
        split
        · exact alike_switchFile h _
        · exact .ok h
      exact hcrypto.bind fun crypto _ _ h₁ => alike_seek h₁ _ _

/-- A file without encryption needs no decryptor. -/
theorem switchFile_plain {fi : Nat} {entry : EggFileEntry} (hentry : entries[fi]? = some entry)
    (hplain : entry.encryptInfo = none) : switchFile crates entries password fi = pure none := by
  rw [switchFile, hentry]
  simp only [setupDecryptor, hplain, Run.ofExcept, pure_bind, authenticate, Option.bind_none]

/-- Having read an empty block of an entry that is not encrypted is as having
read nothing. -/
theorem readBlocks_plain {fi : Nat} {entry : EggFileEntry} (hentry : entries[fi]? = some entry)
    (hplain : entry.encryptInfo = none) (brs : List BlockRead) :
    readBlocks crates entries password brs ⟨some fi, none, []⟩ =
      readBlocks crates entries password brs .empty := by
  cases brs with
  | nil => rfl
  | cons br brs =>
      have hcrypto : (if some br.fileIdx ≠ some fi then
          switchFile crates entries password br.fileIdx else pure none : Parser _) =
          switchFile crates entries password br.fileIdx := by
        split
        · rfl
        · next heq =>
            rw [not_not, Option.some.injEq] at heq
            rw [heq, switchFile_plain hentry hplain]
      have hempty : some br.fileIdx ≠ Gathered.empty.currentFileIdx := by simp [Gathered.empty]
      rw [readBlocks, readBlocks, readBlock, readBlock, hcrypto, if_pos hempty]
      rfl

/-- An empty block moves the reader and reads nothing. -/
theorem readBlock_empty {fi pos : Nat} {entry : EggFileEntry} (hentry : entries[fi]? = some entry)
    (hplain : entry.encryptInfo = none) (c : Cursor) :
    (readBlock crates entries password .empty ⟨fi, 0, pos⟩).run c =
      (.ok ⟨some fi, none, []⟩, { c with pos }) := by
  have hempty : some fi ≠ Gathered.empty.currentFileIdx := by simp [Gathered.empty]
  have hread : (readUpTo 0).run { c with pos } = (.ok [], { c with pos }) := rfl
  rw [readBlock, if_pos hempty, switchFile_plain hentry hplain, pure_bind,
    Run.bind_of_ok (rfl : (seekStart pos).run c = (.ok (), { c with pos }))]
  exact Run.bind_of_ok hread

end Reading

section Leading

variable {before after : List EggFileEntry} {entry : EggFileEntry}

/-- An empty block in front changes the blocks of one entry. -/
theorem map_bare_leading (m : CompressionMethod) (pos : Nat) :
    (before ++ entry.led m pos :: after).map EggFileEntry.bare =
      (before ++ entry :: after).map EggFileEntry.bare := by
  rw [List.map_append, List.map_append, List.map_cons, List.map_cons]
  rfl

/-- The stream of the archive with the empty block is the same. -/
theorem readBlocks_leading (hplain : entry.encryptInfo = none) (m : CompressionMethod) (pos : Nat)
    (brs : List BlockRead) (c : Cursor) :
    ((readBlocks crates (before ++ entry.led m pos :: after) password
        (⟨before.length, 0, pos⟩ :: brs) .empty).run c).1 =
      ((readBlocks crates (before ++ entry :: after) password brs .empty).run c).1 := by
  have hled : (before ++ entry.led m pos :: after)[before.length]? = some (entry.led m pos) := by
    simp
  have hself : (before ++ entry :: after)[before.length]? = some entry := by simp
  have hswitch : ∀ br ∈ brs,
      switchFile crates (before ++ entry.led m pos :: after) password br.fileIdx =
        switchFile crates (before ++ entry :: after) password br.fileIdx := by
    intro br _
    by_cases hfi : br.fileIdx = before.length
    · rw [hfi, switchFile_plain hled hplain, switchFile_plain hself hplain]
    · have hget : (before ++ entry.led m pos :: after)[br.fileIdx]? =
          (before ++ entry :: after)[br.fileIdx]? := by
        rcases Nat.lt_or_gt_of_ne hfi with hlt | hgt
        · rw [List.getElem?_append_left hlt, List.getElem?_append_left hlt]
        · obtain ⟨k, hk⟩ := Nat.exists_eq_add_of_lt hgt
          rw [List.getElem?_append_right hgt.le, List.getElem?_append_right hgt.le, hk,
            Nat.add_assoc, Nat.add_sub_cancel_left, List.getElem?_cons_succ,
            List.getElem?_cons_succ]
      rw [switchFile, switchFile, hget]
  rw [readBlocks, Run.bind_of_ok (readBlock_empty hled hplain c), readBlocks_plain hled hplain,
    readBlocks_congr hswitch]
  have hdata : SameData c { c with pos } := rfl
  exact ((alike_readBlocks hdata brs .empty).outcome).symm

/-- An empty block in front changes nothing of what is decoded. -/
theorem decodeStream_leading {spans : Spans} (hcrcs : spans.crcSpans ≠ [])
    (m : CompressionMethod) (fi pos : Nat) (stream : List UInt8) :
    (decodeStream method crates os (before ++ entry.led m pos :: after) destDir pipeMode filter
        (spans.led fi pos) stream).run w =
      (decodeStream method crates os (before ++ entry :: after) destDir pipeMode filter spans
        stream).run w := by
  have htotal : ((spans.led fi pos).crcSpans.map Prod.fst).sum =
      (spans.crcSpans.map Prod.fst).sum := by
    rw [Spans.led, List.map_cons, List.sum_cons, Nat.zero_add]
  have houts : (solidConfig (before ++ entry :: after) destDir pipeMode filter spans).SameOutputs
      (solidConfig (before ++ entry.led m pos :: after) destDir pipeMode filter
        (spans.led fi pos)) :=
    sameOutputs_solidConfig (map_bare_leading m pos) rfl
  rw [decodeStream_run, decodeStream_run, htotal]
  refine afterStream_alike (SolidSink.leading_decompressInto houts rfl hcrcs _ stream w) ?_
  rintro p q (rfl | ⟨rfl, -⟩)
  · exact ⟨rfl, rfl⟩
  · exact ⟨rfl, rfl⟩

/-- **An empty block in front of the others does not matter** to a codec that is
given. -/
theorem extractAllSolidAs_leading (hbefore : ∀ dir ∈ before, dir.isDirectory)
    (hentry : ¬ entry.isDirectory) (hplain : entry.encryptInfo = none)
    (hblocks : solidBlocks (before ++ entry :: after) ≠ []) (m : CompressionMethod) (pos : Nat) :
    (extractAllSolidAs method crates os archive (before ++ entry.led m pos :: after) destDir
        password pipeMode filter).run w =
      (extractAllSolidAs method crates os archive (before ++ entry :: after) destDir password
        pipeMode filter).run w := by
  rw [extractAllSolidAs, extractAllSolidAs, applyTimes_eq (map_bare_leading m pos),
    scanEntries_leading hbefore hentry, bind_assoc, Run.bind_run, Run.bind_run]
  rcases hscan : (scanEntries os destDir pipeMode filter (before ++ entry :: after).zipIdx
    .empty).run w with ⟨spans | e | _ | _, w₁⟩
  case ok =>
    obtain rfl := spans_ofEntries hscan
    have hreads := blockReads_ne_nil hblocks
    have hcrcs : (Spans.ofEntries (before ++ entry :: after)).crcSpans ≠ [] := by
      rw [crcSpans_ofEntries]
      simpa using hblocks
    simp only
    rw [pure_bind, Nat.zero_add, Run.bind_run, Run.bind_run]
    rw [extractSpansAs, if_pos (by exact List.cons_ne_nil _ _), extractSpansAs, if_pos hreads,
      Run.bind_run, Run.bind_run]
    have hread : ((readBlocks crates (before ++ entry.led m pos :: after) password
        ((Spans.ofEntries (before ++ entry :: after)).led before.length pos).blockReads .empty).run
        archive.reader).1 = _ := readBlocks_leading hplain m pos _ archive.reader
    simp only [onReader, hread, decodeStream_leading hcrcs]
  all_goals rfl

end Leading

/-! ## what steers the codec -/

/-- The blocks of files that carry data declare a known method. -/
structure Agreed (entries : List EggFileEntry) (method : CompressionMethod) : Prop where
  carries : ∃ block ∈ solidBlocks entries, block.compressedSize ≠ 0
  declares : ∀ block ∈ solidBlocks entries, block.compressedSize ≠ 0 →
    block.compressionMethod = method
  known : ∀ n, method ≠ .unknown n

/-- The first block of the archive, of whatever entry and size, declares the method. -/
def FirstDeclares (entries : List EggFileEntry) (method : CompressionMethod) : Prop :=
  ∃ block ∈ (entries.flatMap EggFileEntry.blocks).head?, block.compressionMethod = method

/-- An archive with blocks of files has blocks. -/
theorem blocks_ne_nil (h : solidBlocks entries ≠ []) :
    entries.flatMap EggFileEntry.blocks ≠ [] := by
  intro hnil
  rw [List.flatMap_eq_nil_iff] at hnil
  refine h (List.flatMap_eq_nil_iff.mpr fun entry hentry => hnil entry ?_)
  exact List.mem_of_mem_filter hentry

/-- Where there are blocks, the first of them declares the method of the stream. -/
theorem firstDeclares_iff (h : entries.flatMap EggFileEntry.blocks ≠ []) :
    FirstDeclares entries method ↔ solidMethod entries = method := by
  obtain ⟨block, blocks, hblocks⟩ := List.exists_cons_of_ne_nil h
  rw [FirstDeclares, solidMethod, hblocks]
  simp

/-- The extractions of two archives that differ in what a given codec does not
look at are the same, if and only if the first blocks declare the same. -/
theorem extractAllSolid_eq_iff (hblocks : entries.flatMap EggFileEntry.blocks ≠ [])
    (hblocks' : entries'.flatMap EggFileEntry.blocks ≠ [])
    (h : ∀ (crates : Crates) method,
      (extractAllSolidAs method crates os archive entries' destDir password pipeMode filter).run w =
        (extractAllSolidAs method crates os archive entries destDir password pipeMode filter).run
          w) :
    (∀ codecs, (extractAllSolid (crates.withCodecs codecs) os archive entries' destDir password
        pipeMode filter).run w =
      (extractAllSolid (crates.withCodecs codecs) os archive entries destDir password pipeMode
        filter).run w) ↔
      (Reaches crates os archive entries destDir password pipeMode filter w →
        ∃ method, FirstDeclares entries method ∧ FirstDeclares entries' method) := by
  simp only [extractAllSolid_eq, h]
  rw [extractAllSolidAs_eq_iff]
  refine forall_congr' fun _ => ?_
  simp only [firstDeclares_iff hblocks, firstDeclares_iff hblocks', eq_comm, exists_eq_left]

/-- **The first block steers the codec**, whether or not it contributes to the
stream: where the blocks that do agree on a method, a run that gets as far as a
codec uses that of this method if and only if the first block of all declares it.
Other blocks for the directories, or an empty block in front of the others, make
no difference if and only if they leave what the first block declares. -/
theorem first_block_steers (hmethod : Agreed entries method) :
    ((∀ codecs, (extractAllSolid (crates.withCodecs codecs) os archive entries destDir password
          pipeMode filter).run w =
        (extractAllSolidAs method (crates.withCodecs codecs) os archive entries destDir password
          pipeMode filter).run w) ↔
      (Reaches crates os archive entries destDir password pipeMode filter w →
        FirstDeclares entries method)) ∧
    (∀ entries', entries'.map EggFileEntry.file = entries.map EggFileEntry.file →
      ((∀ codecs, (extractAllSolid (crates.withCodecs codecs) os archive entries' destDir password
          pipeMode filter).run w =
        (extractAllSolid (crates.withCodecs codecs) os archive entries destDir password pipeMode
          filter).run w) ↔
      (Reaches crates os archive entries destDir password pipeMode filter w →
        ∃ method, FirstDeclares entries method ∧ FirstDeclares entries' method))) ∧
    ∀ before entry after m pos, entries = before ++ entry :: after →
      (∀ dir ∈ before, dir.isDirectory) → ¬ entry.isDirectory → entry.encryptInfo = none →
      ((∀ codecs, (extractAllSolid (crates.withCodecs codecs) os archive
          (before ++ entry.led m pos :: after) destDir password pipeMode filter).run w =
        (extractAllSolid (crates.withCodecs codecs) os archive entries destDir password pipeMode
          filter).run w) ↔
      (Reaches crates os archive entries destDir password pipeMode filter w →
        ∃ method, FirstDeclares entries method ∧
          FirstDeclares (before ++ entry.led m pos :: after) method)) := by
  have hsolid : solidBlocks entries ≠ [] := by
    obtain ⟨block, hblock, -⟩ := hmethod.carries
    exact List.ne_nil_of_mem hblock
  have hblocks := blocks_ne_nil hsolid
  refine ⟨?_, fun entries' hfile => ?_, ?_⟩
  · simp only [extractAllSolid_eq, firstDeclares_iff hblocks]
    exact extractAllSolidAs_eq_iff
  · have hregular : regular entries' = regular entries := by
      rw [← regular_file entries', hfile, regular_file]
    have hblocks' : entries'.flatMap EggFileEntry.blocks ≠ [] :=
      blocks_ne_nil (by rwa [solidBlocks, hregular])
    refine extractAllSolid_eq_iff hblocks hblocks' fun crates method => ?_
    rw [← extractAllSolidAs_file, hfile, extractAllSolidAs_file]
  · rintro before entry after m pos rfl hbefore hentry hplain
    have hled : (before ++ entry.led m pos :: after).flatMap EggFileEntry.blocks ≠ [] := by
      simp [EggFileEntry.led]
    exact extractAllSolid_eq_iff hblocks hled fun crates method =>
      extractAllSolidAs_leading hbefore hentry hplain hsolid m pos

/-- `"a"` and `"b"` of one byte each, stored in one block of `"a"`, behind a
directory with these blocks. -/
def behindDirectory (blocks : List EggBlock) : EggArchive :=
  { twoFilesOneBlock with
    entries := ⟨"d", 2, 0, blocks, none, none, attrDirectory, none⟩ :: twoFilesOneBlock.entries }

/-- The blocks of the files agree on a method, whatever blocks the directory has. -/
theorem agreed_behindDirectory (blocks : List EggBlock) :
    Agreed (behindDirectory blocks).entries .store := by
  have hblocks : solidBlocks (behindDirectory blocks).entries =
      [⟨.store, 2, 2, 0x9E83486D, 0⟩] := by
    simp [solidBlocks, regular, behindDirectory, twoFilesOneBlock, EggFileEntry.isDirectory,
      attrDirectory]
  refine ⟨⟨_, by rw [hblocks]; exact List.mem_singleton_self _, by decide⟩, ?_, by simp⟩
  intro block hblock _
  rw [hblocks, List.mem_singleton] at hblock
  rw [hblock]

/-- A directory without blocks is harmless. -/
theorem behindDirectory_steers :
    (extractAllSolid (Crates.storeOnly.withCodecs .failing) .obliging (behindDirectory [])
        (behindDirectory []).entries [.normal "out"] none false none).run [] =
      (extractAllSolidAs .store (Crates.storeOnly.withCodecs .failing) .obliging
        (behindDirectory []) (behindDirectory []).entries [.normal "out"] none false none).run [] :=
  (first_block_steers (agreed_behindDirectory [])).1.mpr (fun _ => ⟨_, rfl, rfl⟩) .failing

/-- A block of the directory decides the codec of the files behind it, and so does
an empty block in front of theirs. -/
theorem behindDirectory_misled :
    Agreed (behindDirectory [.empty (.unknown 9) 0]).entries .store ∧
    ((extractAllSolid .storeOnly .obliging (behindDirectory []) (behindDirectory []).entries
      [.normal "out"] none false none).run []).1 = .ok () ∧
    ((extractAllSolid .storeOnly .obliging (behindDirectory [.empty (.unknown 9) 0])
      (behindDirectory [.empty (.unknown 9) 0]).entries [.normal "out"] none false none).run []).1 =
        .err (.unknownCompressionMethod 9) ∧
    ((extractAllSolid .storeOnly .obliging twoFilesOneBlock
      [⟨"a", 0, 1, [.empty (.unknown 9) 0, ⟨.store, 2, 2, 0x9E83486D, 0⟩], none, none, 0, none⟩,
        ⟨"b", 1, 1, [], none, none, 0, none⟩] [.normal "out"] none false none).run []).1 =
        .err (.unknownCompressionMethod 9) :=
  ⟨agreed_behindDirectory _, by decide +kernel, by decide +kernel, by decide +kernel⟩

end Unegg
