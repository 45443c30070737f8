import Unegg.Archive.Passes
import Unegg.Extract.Selection
import Unegg.Extract.Solid
import Unegg.SolidSink.Settles

/-!
# Unegg.Extract.Settles

Every extraction comes back.

Whatever an archive says and however the system answers, the ends of an
extraction are `Ok` and an error: the subtractions of the sink have room, the
spans of the scan belong to entries, and every decompressor comes to an end on
its capped writer.  The passes it may take are those of the bytes that the blocks
announce (`load`).
-/

namespace Unegg

open Prog

/-- The bytes that the blocks of entries announce, on both sides of the
decompressors. -/
def load (entries : List EggFileEntry) : Nat :=
  ((entries.flatMap EggFileEntry.blocks).map fun block =>
    block.compressedSize.toNat + block.uncompressedSize.toNat).sum

/-- The load of an archive is no less than that of any of its blocks. -/
theorem block_le_load {entries : List EggFileEntry} {entry : EggFileEntry} {block : EggBlock}
    (hentry : entry ∈ entries) (hblock : block ∈ entry.blocks) :
    block.compressedSize.toNat + block.uncompressedSize.toNat ≤ load entries :=
  List.le_sum_of_mem (List.mem_map.mpr ⟨block, List.mem_flatMap.mpr ⟨entry, hentry, hblock⟩, rfl⟩)

variable {crates : Crates} {os : Os} {archive : EggArchive} {entries : List EggFileEntry}
  {dest : Path} {password : Option String} {pipeMode : Bool} {filter : Option (List String)}

/-! ## the reader and the system -/

/-- A parse of the archive's reader comes back if the parser does. -/
theorem ends_onReader {α : Type} {m : Parser α} (h : Run.Ends m) :
    Run.Ends (onReader archive m) := fun _ => h archive.reader

theorem ends_hmacStep (p : Nat × List UInt8) : Run.Ends (hmacStep p) := by
  rw [hmacStep]
  exact .ite (.pure _) (.bind (ends_readExact _) fun _ => .pure _)

/-- Gathering what is authenticated comes back. -/
theorem ends_hmacMessage (blocks : List EggBlock) (msg : List UInt8) :
    Run.Ends (hmacMessage blocks msg) := by
  induction blocks generalizing msg with
  | nil => exact .pure _
  | cons block blocks ih =>
      refine .bind (ends_seekStart _) fun _ => .bind (fun c => ?_) ih
      refine Run.loop_ends (fun p _ => p.1) ends_hmacStep ?_ (Nat.lt_succ_self _)
      rintro ⟨remaining, msg⟩ c p' c' hstep
      rw [hmacStep] at hstep
      split at hstep
      · simp at hstep
      · rw [Run.bind_ok] at hstep
        obtain ⟨buf, c₁, -, hstep⟩ := hstep
        simp only [Run.pure_run, Prod.mk.injEq, Outcome.ok.injEq, Flow.next.injEq] at hstep
        rw [← hstep.1]
        dsimp only
        omega

variable (crates) in
/-- Authentication comes back. -/
theorem ends_authenticate (entry : EggFileEntry) (crypto : Option FileCrypto) :
    Run.Ends (authenticate crates entry crypto) := by
  rw [authenticate]
  split
  · exact .bind (ends_hmacMessage _ _) fun _ => .ite (.throw _) (.pure _)
  · exact .pure _

variable (os) in
/-- Creating a file comes back. -/
theorem ends_createFileAt (target : Path) : Run.Ends (createFile os target) :=
  .bind (.mapErr (SolidSink.ends_createParent os target)) fun _ => .mapErr (SolidSink.ends_createFile os target)

theorem ends_setFileTime (path : Path) (filetime : UInt64) :
    Run.Ends (setFileTime path filetime) := by
  rw [setFileTime]
  exact .ite (.pure _) fun _ => rfl

/-! ## one entry -/

variable (os archive) in
/-- A block on its own, with passes enough for what it announces. -/
theorem ends_decompressBlock (hcrates : crates.Settle) (out : Target) {block : EggBlock}
    (hfuel : block.compressedSize.toNat + block.uncompressedSize.toNat < crates.fuel) :
    Run.Ends (decompressBlock crates os archive out block) := fun _ =>
  ((settles_decompress hcrates _ _ _ hfuel).run length_decryptSome
    (pays_limitWriter (ends_osWrite os out) (ends_osFlush os out))
    trivial).returned

variable (os archive) in
/-- The blocks of an entry are extracted or refused within the fuel. -/
theorem ends_extractBlocks (hcrates : crates.Settle) (out : Target) {blocks : List EggBlock}
    (hfuel : ∀ block ∈ blocks,
      block.compressedSize.toNat + block.uncompressedSize.toNat < crates.fuel)
    (crypto : Option Decryptor) : Run.Ends (extractBlocks crates os archive out blocks crypto) := by
  intro w
  refine Run.Ends.forEach (fun block hblock => ?_) (crypto, w)
  exact .bind (ends_decompressBlock os archive hcrates out (hfuel block hblock)) fun _ =>
    .ite (.throw _) (.pure _)

variable (os archive dest password pipeMode) in
/-- **An entry**, with passes enough for each of its blocks. -/
theorem ends_extractEntry (hcrates : crates.Settle) {entry : EggFileEntry}
    (hfuel : ∀ block ∈ entry.blocks,
      block.compressedSize.toNat + block.uncompressedSize.toNat < crates.fuel) :
    Run.Ends (extractEntry crates os archive dest password pipeMode entry) := by
  refine .bind (.ofExcept _) fun target => .ite ?_ (.ite ?_ ?_)
  · exact .ite (.pure _) (.mapErr (SolidSink.ends_mkdirAll os target))
  · exact .ite (.throw _) (.ite (.pure _) (ends_createFileAt os target))
  · refine .bind (.ofExcept _) fun crypto => .bind (ends_onReader (ends_authenticate crates _ _))
      fun _ => .bind ?_ fun out => .bind (.attempt (ends_extractBlocks os archive hcrates out hfuel _))
      fun result => ?_
    · exact .ite (.bind (fun _ => rfl) fun _ => .pure _)
        (.bind (ends_createFileAt os target) fun _ => .pure _)
    · cases result with
      | error e => exact .bind (.ite (.pure _) fun _ => rfl) fun _ => .throw _
      | ok u =>
          refine .ite (.pure _) ?_
          cases entry.fileTime with
          | none => exact .pure _
          | some ft => exact ends_setFileTime target ft

/-! ## a solid archive -/

theorem ends_makeDirectory (entry : EggFileEntry) :
    Run.Ends (makeDirectory os dest pipeMode filter entry) :=
  .ite (.bind (.ofExcept _) fun _ => .mapErr (SolidSink.ends_mkdirAll os _)) (.pure _)

/-- The scan comes back. -/
theorem ends_scanEntries (es : List (EggFileEntry × Nat)) (spans : Spans) :
    Run.Ends (scanEntries os dest pipeMode filter es spans) := by
  induction es generalizing spans with
  | nil => exact .pure _
  | cons p es ih =>
      refine .bind (.ite ?_ ?_) fun _ => ih _
      · exact .bind (ends_makeDirectory p.1) fun _ => .pure _
      · exact .bind (.ofExcept _) fun _ => .pure _

/-- The place of a file is one of the entries. -/
theorem lt_length_of_mem_regularIdx {p : EggFileEntry × Nat} (h : p ∈ regularIdx entries.zipIdx) :
    p.2 < entries.length :=
  (List.getElem?_eq_some_iff.mp (getElem?_of_mem_zipIdx (List.mem_of_mem_filter h))).1

/-- So every span of a file leads to an entry. -/
theorem fileSpan_lt_length : ∀ span ∈ (Spans.ofEntries entries).fileSpans,
    span.1 < entries.length := by
  intro span hspan
  obtain ⟨p, hp, rfl⟩ := List.mem_map.mp hspan
  exact lt_length_of_mem_regularIdx hp

/-- Every read of a block leads to an entry, so no index is out of bounds. -/
theorem blockRead_lt_length : ∀ br ∈ (Spans.ofEntries entries).blockReads,
    br.fileIdx < entries.length := by
  intro br hbr
  obtain ⟨p, hp, hbr⟩ := List.mem_flatMap.mp hbr
  obtain ⟨block, -, rfl⟩ := List.mem_map.mp hbr
  exact lt_length_of_mem_regularIdx hp

/-- What the blocks of the files announce is part of the load. -/
theorem spans_le_load :
    ((Spans.ofEntries entries).blockReads.map fun br => br.compressedSize.toNat).sum +
      ((Spans.ofEntries entries).crcSpans.map Prod.fst).sum ≤ load entries := by
  have hreads : ((Spans.ofEntries entries).blockReads.map fun br => br.compressedSize.toNat) =
      (solidBlocks entries).map fun block => block.compressedSize.toNat := by
    rw [solidBlocks, ← map_regularIdx, List.flatMap_map, List.map_flatMap, Spans.ofEntries,
      Spans.of, List.map_flatMap]
    simp only [List.map_map, Function.comp_def]
  have hsub : (solidBlocks entries).Sublist (entries.flatMap EggFileEntry.blocks) :=
    List.filter_sublist.flatMap _
  rw [hreads, crcSpans_ofEntries, List.map_map, Function.comp_def, ← List.sum_map_add, load]
  exact (hsub.map _).sum_le_sum fun _ _ => Nat.zero_le _

/-! ### the stream -/

variable (crates password) in
/-- Going over to a file of the archive does not panic. -/
theorem ends_switchFile {fi : Nat} (h : fi < entries.length) :
    Run.Ends (switchFile crates entries password fi) := by
  rw [switchFile, List.getElem?_eq_getElem h]
  exact .bind (.ofExcept _) fun _ => .bind (ends_authenticate crates _ _) fun _ => .pure _

/-- A block that is read adds as many bytes as it announces. -/
theorem readBlock_endsIn (g : Gathered) {br : BlockRead} (h : br.fileIdx < entries.length)
    (c : Cursor) :
    Run.EndsIn (fun g' _ => g'.allCompressed.length =
        g.allCompressed.length + br.compressedSize.toNat)
      (fun _ => True) ((readBlock crates entries password g br).run c) := by
  have hswitch : Run.Ends (if some br.fileIdx ≠ g.currentFileIdx then
      switchFile crates entries password br.fileIdx else pure g.crypto : Parser _) :=
    .ite (ends_switchFile crates password h) (.pure _)
  refine .bind (.of_returned (E := fun _ => True) (hswitch c) trivial) fun crypto c₁ _ => ?_
  refine .bind (.of_returned (E := fun _ => True) (ends_seekStart _ c₁) trivial) fun _ c₂ _ => ?_
  refine .bind (Q := fun _ _ => True) (.ok trivial) fun buf c₃ _ => ?_
  split
  · exact .err trivial
  · next hlen =>
      rw [not_not] at hlen
      cases crypto with
      | none => exact .ok (by rw [List.length_append, hlen])
      | some fc =>
          have hdec := @length_decryptSome crates buf (some fc.decryptor)
          refine .ok ?_
          rw [List.length_append, ← hlen, ← hdec]
          rfl

/-- The compressed stream is read whole, as long as the blocks declare, or not at all. -/
theorem readBlocks_endsIn {brs : List BlockRead} (hbrs : ∀ br ∈ brs, br.fileIdx < entries.length)
    (g : Gathered) (c : Cursor) :
    Run.EndsIn (fun stream _ => stream.length =
        g.allCompressed.length + (brs.map fun br => br.compressedSize.toNat).sum)
      (fun _ => True) ((readBlocks crates entries password brs g).run c) := by
  induction brs generalizing g c with
  | nil => exact .ok rfl
  | cons br brs ih =>
      rw [List.forall_mem_cons] at hbrs
      refine .bind (readBlock_endsIn g hbrs.1 c) fun g' c' hlen => ?_
      refine (ih hbrs.2 g' c').mono (fun stream _ h => ?_) fun _ => id
      rw [h, hlen, List.map_cons, List.sum_cons, Nat.add_assoc]

/-! ### the sink -/

variable (os) in
/-- A stream goes through the sink to its end, or to an error. -/
theorem decompressInto_returned (hcrates : crates.Settle) {cfg : SinkConfig}
    (hentries : SolidSink.EntriesFound cfg) (method : CompressionMethod) (maxOutput : Nat)
    (stream : List UInt8)
    (hfuel : stream.length + (cfg.crcSpans.map Prod.fst).sum < crates.fuel) (w : World) :
    ((decompressInto os cfg (decompressSolid crates method stream.length maxOutput) stream).run
      (.new, w)).1.returned := by
  have hroom : SolidSink.HasRoom cfg .new := ⟨fun _ _ => Nat.zero_le _, fun _ _ => Nat.zero_le _⟩
  have hsettles : (decompressSolid crates method stream.length maxOutput).Settles
      (fun _ _ _ => True) stream.length (SolidSink.unchecked cfg (.new, w)) :=
    settles_decompressSolid hcrates method maxOutput hfuel
  have hstream : Run.EndsIn (fun _ io => SolidSink.HasRoom cfg io.out.1 ∧ True)
      (fun io => SolidSink.HasRoom cfg io.out.1)
      (((decompressSolid crates method stream.length maxOutput).run Prod.mk
        (SolidSink.sink os cfg)).run ⟨stream, (), (.new, w)⟩) :=
    Coder.Settles.run (Q := fun _ _ _ => True) (fun _ _ => rfl)
      (SolidSink.pays_sink os hentries) hsettles hroom
  refine Run.EndsIn.bind_returned (Q := fun _ q => SolidSink.HasRoom cfg q.1) (E := fun _ => True)
    ?_ fun _ q hq => SolidSink.finish_returned hentries hq
  dsimp only
  generalize (Coder.run _ _ (decompressSolid crates method stream.length maxOutput)).run _ = r
    at hstream
  cases hstream with
  | ok h => exact .ok h.1
  | err => exact .err trivial

/-- A stream comes back with its sink. -/
theorem withSink_returned {m : Run (SolidSink × World) EggError Unit} {w : World}
    (h : (m.run (.new, w)).1.returned) : ((withSink m).run w).1.returned := by
  simp only [withSink, Run.attempt]
  rcases hm : m.run (.new, w) with ⟨u | e | _ | _, s, w'⟩
  · rfl
  · rfl
  all_goals simp [hm, Outcome.returned] at h

variable (os dest password pipeMode filter archive) in
/-- The solid stream is extracted or refused within the fuel. -/
theorem ends_extractStream (hcrates : crates.Settle) (hfuel : load entries < crates.fuel) :
    Run.Ends (extractStream crates os archive entries dest password pipeMode filter
      (.ofEntries entries)) := by
  intro w
  have hread : Run.EndsIn (fun stream _ => stream.length =
        ((Spans.ofEntries entries).blockReads.map fun br => br.compressedSize.toNat).sum)
      (fun _ => True) ((onReader archive (readBlocks crates entries password
        (Spans.ofEntries entries).blockReads .empty)).run w) := by
    have hblocks := @readBlocks_endsIn crates entries password (Spans.ofEntries entries).blockReads
      blockRead_lt_length .empty archive.reader
    simp only [onReader]
    generalize (readBlocks crates entries password _ Gathered.empty).run archive.reader = r at hblocks
    cases hblocks with
    | ok h => exact .ok (h.trans (Nat.zero_add _))
    | err => exact .err trivial
  refine hread.bind_returned fun stream w' hlen => ?_
  have hspans := @spans_le_load entries
  refine Run.returned_bind ?_ fun r w'' _ => ?_
  · refine withSink_returned (decompressInto_returned os hcrates ?_ _ _ _ ?_ w')
    · exact fileSpan_lt_length
    · dsimp only
      omega
  · rcases r with ⟨e | u, s⟩
    · exact Run.Ends.bind (.ite (.pure _) (.forEach fun _ _ _ => rfl)) (fun _ => .throw _) w''
    · rfl

/-- Creating an empty file comes back. -/
theorem ends_createEmpty {span : Nat × Nat} (h : span.1 < entries.length) :
    Run.Ends (createEmpty os entries dest filter span) := by
  rw [createEmpty, List.getElem?_eq_getElem h]
  exact .ite (.pure _) (.bind (.ofExcept _) fun path => ends_createFileAt os path)

theorem ends_applyTime (entry : EggFileEntry) : Run.Ends (applyTime dest filter entry) := by
  refine .ite (.pure _) ?_
  cases entry.fileTime with
  | none => exact .pure _
  | some ft => exact .bind (.ofExcept _) fun path => ends_setFileTime path ft

variable (os dest password pipeMode filter archive) in
/-- **A solid archive**, with passes enough for its load. -/
theorem ends_extractAllSolid (hcrates : crates.Settle) (hfuel : load entries < crates.fuel) :
    Run.Ends (extractAllSolid crates os archive entries dest password pipeMode filter) := by
  intro w
  refine Run.returned_bind (ends_scanEntries _ _ w) fun spans w₁ hscan => ?_
  obtain rfl := spans_ofEntries hscan
  refine Run.Ends.bind (.ite ?_ (.ite (.pure _) (.ite (.throw _) ?_))) (fun _ => ?_) w₁
  · exact ends_extractStream os archive dest password pipeMode filter hcrates hfuel
  · exact .forEach fun span hspan => ends_createEmpty (fileSpan_lt_length span hspan)
  · exact .ite (.pure _) (.forEach fun entry _ => ends_applyTime entry)

/-! ## the entry points -/

variable (os archive dest password pipeMode filter) in
/-- **Every extraction comes back.** -/
theorem ends_extraction (hcrates : crates.Settle) (hfuel : load archive.entries < crates.fuel) :
    Run.Ends (extraction crates os archive dest password pipeMode filter) := by
  have hblock : ∀ entry ∈ archive.entries, ∀ block ∈ entry.blocks,
      block.compressedSize.toNat + block.uncompressedSize.toNat < crates.fuel :=
    fun entry hentry block hblock => (block_le_load hentry hblock).trans_lt hfuel
  cases filter with
  | none =>
      refine .ite (ends_extractAllSolid os archive dest password pipeMode none hcrates hfuel) ?_
      exact .forEach fun entry hentry =>
        ends_extractEntry os archive dest password pipeMode hcrates (hblock entry hentry)
  | some files =>
      refine .bind (.ite ?_ ?_) fun _ => ?_
      · exact ends_extractAllSolid os archive dest password pipeMode (some files) hcrates hfuel
      · exact .forEach fun entry hentry => .ite
          (ends_extractEntry os archive dest password pipeMode hcrates (hblock entry hentry))
          (.pure _)
      · cases unmatched archive files with
        | none => exact .pure _
        | some name => exact .throw _

end Unegg
