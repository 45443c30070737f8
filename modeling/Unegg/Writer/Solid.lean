import Unegg.Extract.SolidReadable
import Unegg.Writer.Roundtrip

/-!
# Unegg.Writer.Solid

Round trips of solid archives (`PackedArchive.extracts_solid`).

The files of a solid archive are one stream: what their blocks hold, decrypted
file by file, is put together and decoded as a whole, and the result is cut
into the files again.  The blocks need not end where the files do.
-/

namespace Unegg

open Prog Bytes Crc32

variable {crates : Crates} {os : Os} {archive : EggArchive} {dest : Path}
  {password : Option String} {filter : Option (List String)} {entry : EggFileEntry}
  {entries : List EggFileEntry} {pwd : String} {f : PackedFile} {fs : List PackedFile}

/-! ## streams -/

/-- `stream` is `content` as the method encodes it as a whole. -/
def EncodesStream (crates : Crates) (methodByte : UInt8) (stream content : List UInt8) : Prop :=
  ∃ rest, ((decompressSolid crates (.fromByte methodByte) stream.length content.length).run Prod.mk
    ByteSink.recorder).run ⟨stream, (), []⟩ = (.ok (), ⟨rest, (), content⟩)

/-- A copy with enough fuel hands all of the data on. -/
theorem ioCopy_run {n : Nat} {data out : List UInt8} (h : data.length < n) :
    ((ioCopy n).run Prod.mk ByteSink.recorder).run ⟨data, (), out⟩ =
      (.ok (), ⟨[], (), out ++ data⟩) := by
  induction n generalizing data out with
  | zero => omega
  | succ n ih =>
      cases data with
      | nil => simp [ioCopy, Coder.run]
      | cons b bs =>
          have hne : (b :: bs).take 8192 ≠ [] := by simp
          have hlt : ((b :: bs).drop 8192).length < n := by
            rw [List.length_drop]
            simp only [List.length_cons] at h ⊢
            omega
          simp only [ioCopy, Coder.run, if_neg hne, ByteSink.recorder_writeAllCounted]
          rw [ih hlt, List.append_assoc, List.take_append_drop]

/-- A stored stream is its content. -/
theorem encodesStream_store (content : List UInt8) : EncodesStream crates 0 content content :=
  ⟨[], ioCopy_run (Nat.lt_add_one _)⟩

/-! ## packing -/

/-- The blocks of a solid archive. -/
def solidChunks (fs : List PackedFile) : List Chunk := (plain fs).flatMap PackedFile.chunks

/-- A solid archive: its blocks hold one stream, whose content is that of its
files, and the last of them has bytes.  Behind the last byte nothing passes a block
without any, and the archive would be refused. -/
structure PackedArchive.Solid (crates : Crates) (a : PackedArchive) (methodByte : UInt8) : Prop where
  solid : a.fields.any PrefixField.isSolid = true
  method : ∀ f ∈ a.files, ∀ c ∈ f.chunks, c.methodByte = methodByte
  encodes : EncodesStream crates methodByte ((solidChunks a.files).flatMap Chunk.encoded)
    ((solidChunks a.files).flatMap Chunk.content)
  content : (plain a.files).flatMap PackedFile.content =
    (solidChunks a.files).flatMap Chunk.content
  fits : ((solidChunks a.files).flatMap Chunk.content).length < 2 ^ 64
  last : ∀ c ∈ (solidChunks a.files).getLast?, c.content ≠ []

/-- What the blocks of a file decrypt to. -/
theorem decryptSome_sealChunks (cs : List Chunk) (d : Option Decryptor) :
    (decryptSome crates ((sealChunks crates cs d).flatMap BlockField.data) d).1 =
      cs.flatMap Chunk.encoded := by
  induction cs generalizing d with
  | nil => exact List.length_eq_zero_iff.mp (length_decryptSome _ _)
  | cons c cs ih =>
      have hback : decryptSome crates (encryptSome crates c.encoded d).1 d = _ :=
        decryptSome_encryptSome c.encoded d
      rw [sealChunks, List.flatMap_cons, List.flatMap_cons, decryptSome_append]
      simp only [Chunk.block, hback, ih]

/-! ## what is read back -/

/-- The compressed data of a file is read back as it was encoded. -/
theorem ReadBack.entryStream (h : ReadBack crates archive pwd entry f)
    (hunlocks : Unlocks password pwd f) :
    Unegg.entryStream crates archive password entry = f.chunks.flatMap Chunk.encoded := by
  rw [Unegg.entryStream, freshDecryptor, h.setup hunlocks, h.message, PackedFile.stored,
    PackedFile.blocks, ← decryptSome_sealChunks f.chunks (f.keys crates pwd), PackedFile.keys]
  simp only [Option.map_map]
  rfl

/-- What a block declares. -/
def Chunk.declares (c : Chunk) : CompressionMethod × Nat × UInt32 :=
  (.fromByte c.methodByte, c.content.length, crc32 c.content)

/-- Sealing leaves what the blocks declare. -/
theorem declares_sealChunks (cs : List Chunk) (d : Option Decryptor) (p : Nat) :
    (blocksAt p (sealChunks crates cs d)).map
        (fun b => (b.compressionMethod, b.uncompressedSize.toNat, b.crc32)) =
      cs.map Chunk.declares := by
  induction cs generalizing d p with
  | nil => rfl
  | cons c cs ih =>
      have hsize : (UInt32.ofNat c.content.length).toNat = c.content.length :=
        UInt32.toNat_ofNat_of_lt' c.contentFits
      rw [sealChunks, blocksAt, List.map_cons, List.map_cons, ih]
      simp [BlockField.block, Chunk.block, Chunk.declares, hsize]

/-- The blocks read back declare their contents. -/
theorem ReadBack.declares (h : ReadBack crates archive pwd entry f) :
    entry.blocks.map (fun b => (b.compressionMethod, b.uncompressedSize.toNat, b.crc32)) =
      f.chunks.map Chunk.declares := by
  obtain ⟨p, hblocks⟩ := h.blocks
  rw [hblocks, PackedFile.blocks, declares_sealChunks]

/-- Lists that match element by element match when flattened. -/
theorem flatMap_forall₂ {α β γ : Type} {R : α → β → Prop} {as : List α} {bs : List β}
    {g : α → List γ} {g' : β → List γ} (h : List.Forall₂ R as bs)
    (hR : ∀ a, ∀ b ∈ bs, R a b → g a = g' b) : as.flatMap g = bs.flatMap g' := by
  induction h with
  | nil => rfl
  | cons h _ ih =>
      rw [List.flatMap_cons, List.flatMap_cons, hR _ _ List.mem_cons_self h,
        ih fun a b hb => hR a b (List.mem_cons_of_mem _ hb)]

/-- The blocks of the entries, and of the files that were packed. -/
theorem declares_flatMap (h : List.Forall₂ (ReadBack crates archive pwd) entries fs) :
    (entries.flatMap EggFileEntry.blocks).map
        (fun b => (b.compressionMethod, b.uncompressedSize.toNat, b.crc32)) =
      (fs.flatMap PackedFile.chunks).map Chunk.declares := by
  rw [List.map_flatMap, List.map_flatMap]
  exact flatMap_forall₂ h fun _ _ _ hread => hread.declares

/-- The blocks read back have the sizes and checksums of the contents. -/
theorem solidBlocks_spans (h : List.Forall₂ (ReadBack crates archive pwd) entries fs) :
    (solidBlocks entries).map (fun b => (b.uncompressedSize.toNat, b.crc32)) =
      (solidChunks fs).map fun c => (c.content.length, crc32 c.content) := by
  have hdeclares := congrArg (List.map Prod.snd) (declares_flatMap (forall₂_plain h))
  rw [List.map_map, List.map_map] at hdeclares
  exact hdeclares

/-- The stream read back is the one that was packed. -/
theorem solidStream_readBack (h : List.Forall₂ (ReadBack crates archive pwd) entries fs)
    (hunlocks : ∀ f ∈ fs, Unlocks password pwd f) :
    solidStream crates archive password entries = (solidChunks fs).flatMap Chunk.encoded := by
  rw [solidStream, solidChunks, List.flatMap_assoc]
  exact flatMap_forall₂ (forall₂_plain h) fun _ f hf hread =>
    hread.entryStream (hunlocks f (List.mem_of_mem_filter hf))

/-- The method of the stream is the one all the blocks were given. -/
theorem solidMethod_readBack (h : List.Forall₂ (ReadBack crates archive pwd) entries fs)
    {methodByte : UInt8} (hmethod : ∀ f ∈ fs, ∀ c ∈ f.chunks, c.methodByte = methodByte)
    (hchunks : fs.flatMap PackedFile.chunks ≠ []) :
    solidMethod entries = .fromByte methodByte := by
  have hheads := congrArg List.head? (declares_flatMap h)
  rw [List.head?_map, List.head?_map] at hheads
  obtain ⟨c, cs, hcons⟩ := List.exists_cons_of_ne_nil hchunks
  have hmem : c ∈ fs.flatMap PackedFile.chunks := by simp [hcons]
  obtain ⟨f, hf, hc⟩ := List.mem_flatMap.mp hmem
  rw [hcons, List.head?_cons, Option.map_some, Option.map_eq_some_iff] at hheads
  obtain ⟨block, hblock, heq⟩ := hheads
  simp only [Chunk.declares, Prod.mk.injEq] at heq
  rw [solidMethod, hblock, ← hmethod f hf c hc]
  exact heq.1

/-- The files read back have the sizes of their contents. -/
theorem sizes_readBack (h : List.Forall₂ (ReadBack crates archive pwd) entries fs) :
    fs.map (fun f => f.content.length) = entries.map fun e => e.uncompressedSize.toNat := by
  induction h with
  | nil => rfl
  | @cons entry f _ _ hread _ ih =>
      have hsize : (UInt64.ofNat f.content.length).toNat = f.content.length :=
        UInt64.toNat_ofNat_of_lt' f.fits
      rw [List.map_cons, List.map_cons, ih, hread.size, hsize]

/-- A packed solid archive can be read, its files as they were packed. -/
theorem PackedArchive.Solid.readable {a : PackedArchive} {methodByte : UInt8}
    (ha : a.Solid crates methodByte)
    (h : List.Forall₂ (ReadBack crates archive pwd) entries a.files)
    (hunlocks : ∀ f ∈ a.files, Unlocks password pwd f) (hblocks : solidBlocks entries ≠ []) :
    SolidReadable crates archive password entries ((plain a.files).map PackedFile.content) := by
  have hspans := solidBlocks_spans h
  have hchunks : solidChunks a.files ≠ [] := by
    intro hnil
    rw [hnil, List.map_nil, List.map_eq_nil_iff] at hspans
    exact hblocks hspans
  have hall : a.files.flatMap PackedFile.chunks ≠ [] := by
    obtain ⟨c, hc⟩ := List.exists_mem_of_ne_nil _ hchunks
    obtain ⟨f, hf, hmem⟩ := List.mem_flatMap.mp hc
    exact List.ne_nil_of_mem (List.mem_flatMap.mpr ⟨f, List.mem_of_mem_filter hf, hmem⟩)
  have htotal : ((solidBlocks entries).map fun b => b.uncompressedSize.toNat).sum =
      ((solidChunks a.files).flatMap Chunk.content).length := by
    have hsizes := congrArg (List.map Prod.fst) hspans
    rw [List.map_map, List.map_map] at hsizes
    rw [List.length_flatMap]
    exact congrArg List.sum hsizes
  obtain ⟨rest, hrun⟩ := ha.encodes
  have hrecord : recordStream crates archive password entries =
      (.ok (), ⟨rest, (), (solidChunks a.files).flatMap Chunk.content⟩) := by
    rw [← hrun, recordStream, htotal, Nat.mod_eq_of_lt ha.fits, solidStream_readBack h hunlocks,
      solidMethod_readBack h ha.method hall]
  have hcontent : ((plain a.files).map PackedFile.content).flatten =
      (solidChunks a.files).flatMap Chunk.content := by
    rw [← List.flatMap_def, ha.content]
  refine ⟨fun entry hentry _ => ?_, fun block hblock => ?_, ?_, ?_, ?_, ?_, ?_⟩
  · obtain ⟨f, hf, hread⟩ := (exists_of_forall₂ h).1 entry (List.mem_of_mem_filter hentry)
    exact ⟨_, hread.setup (hunlocks f hf), hread.authenticates⟩
  · obtain ⟨entry, hentry, hmem⟩ := List.mem_flatMap.mp hblock
    obtain ⟨f, hf, hread⟩ := (exists_of_forall₂ h).1 entry (List.mem_of_mem_filter hentry)
    exact hread.data_length block hmem
  · rw [hrecord]
  · rw [hrecord, hcontent]
  · rw [List.map_map]
    exact sizes_readBack (forall₂_plain h)
  · refine ⟨(solidChunks a.files).map Chunk.content, by rw [hcontent, List.flatMap_def], ?_⟩
    rw [hspans, List.map_map]
    rfl
  · intro block hblock hzero
    have hlasts := congrArg List.getLast? hspans
    rw [List.getLast?_map, List.getLast?_map, Option.mem_def.mp hblock, Option.map_some] at hlasts
    obtain ⟨c, hc, hpair⟩ := Option.map_eq_some_iff.mp hlasts.symm
    rw [Prod.mk.injEq, hzero] at hpair
    exact ha.last c hc (List.length_eq_zero_iff.mp hpair.1)

/-- Files of an archive without blocks are empty. -/
theorem PackedArchive.Solid.content_nil {a : PackedArchive} {methodByte : UInt8}
    (ha : a.Solid crates methodByte)
    (h : List.Forall₂ (ReadBack crates archive pwd) entries a.files) (hblocks : solidBlocks entries = []) :
    ∀ f ∈ plain a.files, f.content = [] := by
  have hspans := solidBlocks_spans h
  rw [hblocks, List.map_nil, eq_comm, List.map_eq_nil_iff] at hspans
  have hcontent := ha.content
  rw [hspans, List.flatMap_nil, List.flatMap_eq_nil_iff] at hcontent
  exact hcontent

/-- Extracting what a filter selects of a solid archive restores it. -/
theorem PackedArchive.Solid.restores {a : PackedArchive} {methodByte : UInt8}
    (ha : a.Solid crates methodByte) (hos : os.Succeeds)
    (hback : List.Forall₂ (ReadBack crates archive pwd) archive.entries a.files)
    (hsolid : archive.isSolid = true) (hnames : ∀ f ∈ a.files, SafeName f.name)
    (hunlocks : ∀ f ∈ a.files, Unlocks password pwd f) (hmatched : Matched filter a.files)
    (dest : Path) (pipeMode : Bool) (w : World) :
    ∃ v, (extraction crates os archive dest password pipeMode filter).run w = (.ok (), v) ∧
      Restored dest pipeMode filter a.files w v := by
  have hscan : scanError dest pipeMode filter archive.entries = none := by
    refine scanError_eq_none.mpr fun entry hentry _ => ?_
    obtain ⟨f, hf, hread⟩ := (exists_of_forall₂ hback).1 entry hentry
    rw [hread.name]
    exact hnames f hf
  suffices hrun : ∃ v, (extractAllSolid crates os archive archive.entries dest password pipeMode
      filter).run w = (.ok (), v) ∧ Delivered dest pipeMode filter archive.entries
        ((plain a.files).map PackedFile.content) w v by
    obtain ⟨v, hv, hd⟩ := hrun
    refine ⟨v, ?_, .of_delivered hback hd⟩
    rw [extraction_solid _ _ _ _ _ _ _ hsolid, Run.bind_of_ok hv]
    exact checkMatched_run hback hmatched v
  by_cases hblocks : solidBlocks archive.entries = []
  · have hnil := ha.content_nil hback hblocks
    have hempty : (plain a.files).map PackedFile.content = emptyFiles archive.entries := by
      rw [emptyFiles, List.map_const', (forall₂_plain hback).length_eq, ← List.map_const']
      exact List.map_congr_left hnil
    have hzero : NoBytes archive.entries := by
      intro entry hentry
      obtain ⟨f, hf, hread⟩ := (exists_of_forall₂ (forall₂_plain hback)).1 entry hentry
      rw [hread.size, hnil f hf]
      rfl
    obtain ⟨w₁, hdirs, hscanned⟩ := extractAllSolid_scanned hos crates archive password hscan w
    obtain ⟨v, hdone, hd⟩ :=
      @withoutData_run os dest pipeMode filter archive.entries w hos (safeFiles_of_scanError hscan)
        hzero w₁ hdirs
    refine ⟨v, ?_, hempty ▸ hd⟩
    rw [hscanned, extractSpans, if_neg (not_not.mpr (blockReads_eq_nil_iff.mpr hblocks)), hdone]
  · exact extractAllSolid_run hos hscan hblocks (ha.readable hback hunlocks hblocks) w

/-- **Round trip of a solid archive**, whose last block has bytes: it opens, and
extracting what a filter selects restores exactly those files, where their names may be
joined and those of the filter match. -/
theorem PackedArchive.extracts_solid (hos : os.Succeeds) (crates : Crates) (pages : CodePages)
    (pwd : String) (a : PackedArchive) {methodByte : UInt8} (ha : a.Solid crates methodByte)
    (hnames : ∀ f ∈ a.files, SafeName f.name) (hunlocks : ∀ f ∈ a.files, Unlocks password pwd f)
    (hmatched : Matched filter a.files) (dest : Path) (pipeMode : Bool) (w : World) :
    ∃ archive c v, (EggArchive.open' pages).run ⟨a.bytes crates pwd, 0⟩ = (.ok archive, c) ∧
      (extraction crates os archive dest password pipeMode filter).run w = (.ok (), v) ∧
      Restored dest pipeMode filter a.files w v := by
  obtain ⟨archive, c, hopen, hsolid, hback⟩ := a.readBack crates pages pwd
  obtain ⟨v, hrun, hrestored⟩ := ha.restores hos hback (hsolid.trans ha.solid) hnames hunlocks
    hmatched dest pipeMode w
  exact ⟨archive, c, v, hopen, hrun, hrestored⟩

/-- The file `"a"` with two bytes, the first of them in its own block. -/
def solidFirst : PackedFile :=
  { lockedFile with
    content := [0x77, 0x78]
    chunks := [.stored [0x77] (by decide)]
    fits := by decide }

theorem plainName_b : PlainName "b" := by simp [PlainName, isControl]

/-- A file `"b"`, in whose block is the rest of `"a"`. -/
def solidSecond : PackedFile where
  desc := { lockedFile.desc with
    name := "b"
    plain := plainName_b
    nameFits := by decide
    subs := [.filename ⟨1, 0, 0, utf8Bytes "b", by decide⟩] }
  ordered := .refl _
  content := [0x79]
  chunks := [.stored [0x78, 0x79] (by decide)]
  lock := none
  fits := by decide

def solidArchive : PackedArchive :=
  { lockedArchive with
    fields := [.solid ⟨0, [], by decide⟩]
    records := [(false, .file solidFirst), (true, .file solidSecond)] }

/-- The archive is solid, and its last block has a byte. -/
theorem solidArchive_solid (crates : Crates) : solidArchive.Solid crates 0 where
  solid := rfl
  method := by decide
  encodes := encodesStream_store _
  content := rfl
  fits := by decide
  last := by decide

/-- Extracting its second file alone. -/
theorem solidArchive_extracts :
    ∃ archive c v, (EggArchive.open' CodePages.blank).run
        ⟨solidArchive.bytes .storeOnly "pw", 0⟩ = (.ok archive, c) ∧
      (extraction .storeOnly .obliging archive [.normal "out"] (some "pw") false
        (some ["b"])).run [] = (.ok (), v) ∧
      Restored [.normal "out"] false (some ["b"]) [solidFirst, solidSecond] [] v :=
  solidArchive.extracts_solid Os.obliging_succeeds .storeOnly _ "pw" (solidArchive_solid _)
    (by decide) (fun _ _ => .inl rfl) (fun pats hpats => by
      obtain rfl := Option.some.inj hpats
      decide +kernel) _ false []

end Unegg
