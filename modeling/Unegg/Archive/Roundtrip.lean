import Unegg.Archive.Wire

/-!
# Unegg.Archive.Roundtrip

Reading back what is laid out as in `Unegg.Archive.Wire`.

Each record type has one lemma: a cursor whose rest starts with the record's
bytes reads the record and is left right behind it.  Lists of records follow
by peeling passes off the loop that reads them (`subHeaders_peel`,
`blocks_peel`, `prefix_peel`, `records_peel`), and the whole archive from
those.
-/

namespace Unegg

open Prog Bytes

section Fields

variable (pages : CodePages) {c : Cursor} {r : List UInt8}

/-! ## sub-headers -/

/-- The code page of a name is read if its flag is set. -/
theorem readAreaCode_of_rest {flags : UInt8} {code : UInt16} {n : Nat}
    (h : c.rest = (if flags &&& fnAreaCode ≠ 0 then le16 code else []) ++ r) :
    (readAreaCode flags ((if flags &&& fnAreaCode ≠ 0 then 2 else 0) + n)).run c =
        (.ok (if flags &&& fnAreaCode ≠ 0 then some code else none, n),
          c.advance (if flags &&& fnAreaCode ≠ 0 then 2 else 0)) ∧
      (c.advance (if flags &&& fnAreaCode ≠ 0 then 2 else 0)).rest = r := by
  by_cases ha : flags &&& fnAreaCode ≠ 0
  · simp only [if_pos ha] at h ⊢
    obtain ⟨h₁, h⟩ := readU16_of_rest h
    refine ⟨?_, h⟩
    have hsub : ¬ 2 + n < 2 := by omega
    rw [readAreaCode, if_pos ha, Run.bind_of_ok h₁, checkedSub, if_neg hsub]
    simp
  · simp only [if_neg ha, Nat.zero_add] at h ⊢
    refine ⟨?_, h⟩
    rw [readAreaCode, if_neg ha]
    rfl

/-- The id of the parent is read if its flag is set. -/
theorem readParentId_of_rest {flags : UInt8} {old : Option UInt32} {pid : UInt32} {n : Nat}
    (h : c.rest = (if flags &&& fnRelative ≠ 0 then le32 pid else []) ++ r) :
    (readParentId flags old ((if flags &&& fnRelative ≠ 0 then 4 else 0) + n)).run c =
        (.ok (if flags &&& fnRelative ≠ 0 then some pid else old, n),
          c.advance (if flags &&& fnRelative ≠ 0 then 4 else 0)) ∧
      (c.advance (if flags &&& fnRelative ≠ 0 then 4 else 0)).rest = r := by
  by_cases ha : flags &&& fnRelative ≠ 0
  · simp only [if_pos ha] at h ⊢
    obtain ⟨h₁, h⟩ := readU32_of_rest h
    refine ⟨?_, h⟩
    have hsub : ¬ 4 + n < 4 := by omega
    rw [readParentId, if_pos ha, Run.bind_of_ok h₁, checkedSub, if_neg hsub]
    simp
  · simp only [if_neg ha, Nat.zero_add] at h ⊢
    refine ⟨?_, h⟩
    rw [readParentId, if_neg ha]
    rfl

/-- A name sub-header is read as it was written. -/
theorem parseFilename_of_rest {f : FilenameField} {hd : FileHeaders}
    (h : c.rest = f.bytes ++ r) :
    (parseFilename pages hd).run c =
      (.ok ((SubHeader.filename f).apply pages hd), c.advance f.bytes.length) := by
  have hsize : f.size = (if f.flags &&& fnAreaCode ≠ 0 then 2 else 0) +
      ((if f.flags &&& fnRelative ≠ 0 then 4 else 0) + f.name.length) := by
    rw [FilenameField.size, Nat.add_assoc]
    rfl
  have hfits : FitsField f.flags f.size := f.fits
  have hlen : f.bytes.length = (extraField f.flags f.size).length +
      ((if f.flags &&& fnAreaCode ≠ 0 then 2 else 0) +
        ((if f.flags &&& fnRelative ≠ 0 then 4 else 0) + f.name.length)) := by
    rw [FilenameField.bytes]
    by_cases ha : f.flags &&& fnAreaCode ≠ 0 <;> by_cases hr : f.flags &&& fnRelative ≠ 0 <;>
      simp [FilenameField.hasAreaCode, FilenameField.isRelative, ha, hr]
  rw [FilenameField.bytes, List.append_assoc, List.append_assoc, List.append_assoc] at h
  rw [hlen]
  rw [hsize] at h hfits ⊢
  obtain ⟨h₁, h⟩ := readExtraField_of_rest hfits h
  obtain ⟨h₂, h⟩ := readAreaCode_of_rest h
  obtain ⟨h₃, h⟩ := readParentId_of_rest h
  obtain ⟨h₄, h⟩ := readExactCapped_of_rest h rfl
  rw [parseFilename, Run.bind_of_ok h₁]
  simp only [hfits.toNat_ofNat]
  rw [Run.bind_of_ok h₂, Run.bind_of_ok h₃, Run.bind_of_ok h₄]
  simp only [Run.pure_run, Cursor.advance_advance, Nat.add_assoc]
  rfl

/-- The times and attributes of Windows are read as they were written. -/
theorem parseWindowsFileInfo_of_rest {f : WindowsField} {hd : FileHeaders}
    (h : c.rest = f.bytes ++ r) :
    (parseWindowsFileInfo hd).run c =
      (.ok ((SubHeader.windows f).apply pages hd), c.advance f.bytes.length) := by
  rw [WindowsField.bytes, List.append_assoc, List.append_assoc, List.cons_append] at h
  obtain ⟨h₁, h⟩ := readExtraField_of_rest f.fits h
  obtain ⟨h₂, h⟩ := readU64_of_rest h
  obtain ⟨h₃, h⟩ := readU8_of_rest h
  have hge : ¬ 9 + f.pad.length < 9 := by omega
  have hlen : f.bytes.length = (extraField f.flags (9 + f.pad.length)).length +
      (8 + (1 + f.pad.length)) := by
    simp [WindowsField.bytes, Nat.add_comm 1]
  rw [parseWindowsFileInfo, Run.bind_of_ok h₁]
  simp only [f.fits.toNat_ofNat, if_neg hge, Nat.add_sub_cancel_left]
  rw [Run.bind_of_ok h₂, Run.bind_of_ok h₃, Run.bind_of_ok (skip_run _ _)]
  simp only [Run.pure_run, Cursor.advance_advance, Nat.add_assoc, hlen]
  rfl

/-- The mode and time of POSIX are read as they were written. -/
theorem parsePosixFileInfo_of_rest {f : PosixField} {hd : FileHeaders}
    (h : c.rest = f.bytes ++ r) :
    (parsePosixFileInfo hd).run c =
      (.ok ((SubHeader.posix f).apply pages hd), c.advance f.bytes.length) := by
  simp only [PosixField.bytes, List.append_assoc] at h
  obtain ⟨h₁, h⟩ := readExtraField_of_rest f.fits h
  obtain ⟨h₂, h⟩ := readU32_of_rest h
  obtain ⟨h₃, h⟩ := readU32_of_rest h
  obtain ⟨h₄, h⟩ := readU32_of_rest h
  obtain ⟨h₅, h⟩ := readU64_of_rest h
  have hge : ¬ 20 + f.pad.length < 20 := by omega
  have hlen : f.bytes.length = (extraField f.flags (20 + f.pad.length)).length +
      (4 + (4 + (4 + (8 + f.pad.length)))) := by
    simp [PosixField.bytes]
  have hattr : (if f.mode &&& sIfmt = sIfdir then hd.fileAttr ||| attrDirectory
      else hd.fileAttr) = hd.fileAttr ||| f.attr := by
    rw [PosixField.attr]
    split <;> simp
  have htime : (if hd.fileTime.isNone then some (unixToFiletime f.mtime) else hd.fileTime) =
      hd.fileTime.or (some (unixToFiletime f.mtime)) := by
    cases hd.fileTime <;> rfl
  rw [parsePosixFileInfo, Run.bind_of_ok h₁]
  simp only [f.fits.toNat_ofNat, if_neg hge, Nat.add_sub_cancel_left]
  rw [Run.bind_of_ok h₂, Run.bind_of_ok h₃, Run.bind_of_ok h₄, Run.bind_of_ok h₅,
    Run.bind_of_ok (skip_run _ _), hattr, htime]
  simp only [Run.pure_run, Cursor.advance_advance, Nat.add_assoc, hlen]
  rfl

/-- One pass of the sub-header loop over a laid-out sub-header. -/
theorem subHeaderStep_of_rest (hd : FileHeaders) {s : SubHeader} (h : c.rest = s.bytes ++ r) :
    (subHeaderStep pages hd).run c = (.ok (.next (s.apply pages hd)), c.advance s.bytes.length) := by
  cases s with
  | filename f =>
      rw [SubHeader.bytes, List.append_assoc] at h
      obtain ⟨h₁, h⟩ := readU32_of_rest h
      rw [subHeaderStep, Run.bind_of_ok h₁, if_pos rfl,
        Run.bind_of_ok (parseFilename_of_rest pages h)]
      simp [SubHeader.bytes]
  | comment f =>
      rw [SubHeader.bytes, List.append_assoc] at h
      obtain ⟨h₁, h⟩ := readU32_of_rest h
      rw [subHeaderStep, Run.bind_of_ok h₁, if_neg (by decide), if_pos rfl,
        Run.bind_of_ok (skipField_of_rest h).1]
      simp [SubHeader.bytes, SubHeader.apply]
  | windows f =>
      rw [SubHeader.bytes, List.append_assoc] at h
      obtain ⟨h₁, h⟩ := readU32_of_rest h
      rw [subHeaderStep, Run.bind_of_ok h₁, if_neg (by decide), if_neg (by decide), if_pos rfl,
        Run.bind_of_ok (parseWindowsFileInfo_of_rest pages h)]
      simp [SubHeader.bytes]
  | posix f =>
      rw [SubHeader.bytes, List.append_assoc] at h
      obtain ⟨h₁, h⟩ := readU32_of_rest h
      rw [subHeaderStep, Run.bind_of_ok h₁, if_neg (by decide), if_neg (by decide),
        if_neg (by decide), if_pos rfl, Run.bind_of_ok (parsePosixFileInfo_of_rest pages h)]
      simp [SubHeader.bytes]

/-- The bytes of a list of sub-headers. -/
def subHeaderBytes (subs : List SubHeader) : List UInt8 := subs.flatMap SubHeader.bytes

/-- What reading a list of sub-headers makes of the headers before it. -/
def applyAll (pages : CodePages) (hd : FileHeaders) (subs : List SubHeader) : FileHeaders :=
  subs.foldl (SubHeader.apply pages) hd

/-- A list of sub-headers takes one pass each off the loop. -/
theorem subHeaders_peel {subs : List SubHeader} {hd : FileHeaders} {k : Nat}
    (h : c.rest = subHeaderBytes subs ++ r) :
    (Run.loop (subHeaderStep pages) (subs.length + k) hd).run c =
      (Run.loop (subHeaderStep pages) k (applyAll pages hd subs)).run
        (c.advance (subHeaderBytes subs).length) := by
  induction subs generalizing c hd with
  | nil => simp [subHeaderBytes, applyAll]
  | cons s subs ih =>
      rw [subHeaderBytes, List.flatMap_cons, List.append_assoc] at h
      have hstep := subHeaderStep_of_rest pages hd h
      have hrest := Cursor.rest_advance_of_append h rfl
      rw [List.length_cons, Nat.add_right_comm, Run.loop_next hstep, ih hrest,
        Cursor.advance_advance]
      simp [subHeaderBytes, applyAll]

/-- The End Marker ends the loop. -/
theorem subHeaders_end {hd : FileHeaders} {k : Nat} (h : c.rest = le32 sigEndMarker ++ r) :
    (Run.loop (subHeaderStep pages) (k + 1) hd).run c = (.ok hd, c.advance 4) := by
  obtain ⟨h₁, -⟩ := readU32_of_rest h
  apply Run.loop_done
  rw [subHeaderStep, Run.bind_of_ok h₁]
  rfl

/-! ## encryption info -/

/-- A described encryption is one the reader knows. -/
theorem EncryptField.method_known (f : EncryptField) (n : UInt8) : f.method ≠ .unknown n := by
  intro hm
  have hv := f.valid
  rw [← EncryptField.method, hm] at hv
  simp [EncryptionMethod.payloadLengths] at hv

/-- An encryption info is read as the payload reader settles its length. -/
theorem encryptInfo_run (hd : FileHeaders) {flags methodByte : UInt8} {declared : Nat}
    (hfits : FitsField flags (1 + declared))
    (hknown : ∀ n, EncryptionMethod.fromByte methodByte ≠ .unknown n)
    (h : c.rest = le32 sigEncryptInfo ++ (extraField flags (1 + declared) ++ (methodByte :: r))) :
    (subHeaderStep pages hd).run c = (do
      let data ← readExactCapped (payloadLength r (.fromByte methodByte) declared)
      return Flow.next { hd with
        encryptInfo := some ⟨.fromByte methodByte, data⟩, isEncrypted := true } :
        Parser _).run (c.advance (4 + (extraField flags (1 + declared)).length + 1)) := by
  obtain ⟨h₁, h⟩ := readU32_of_rest h
  obtain ⟨h₂, h⟩ := readExtraField_of_rest hfits h
  obtain ⟨h₃, h⟩ := readU8_of_rest h
  have hne : UInt32.ofNat (1 + declared) ≠ 0 := by
    intro h0
    have := congrArg UInt32.toNat h0
    rw [hfits.toNat_ofNat] at this
    simp at this
  simp only [Cursor.advance_advance] at h₃ h
  have hpay := readEncryptPayload_run (.fromByte methodByte) declared
    (c.advance (4 + (extraField flags (1 + declared)).length + 1))
  rw [h] at hpay
  rw [subHeaderStep, Run.bind_of_ok h₁, if_neg (by decide), if_neg (by decide),
    if_neg (by decide), if_neg (by decide), if_pos rfl, parseEncryptInfo]
  simp only [bind_assoc]
  rw [Run.bind_of_ok h₂]
  simp only [if_neg hne, bind_assoc, Cursor.advance_advance]
  rw [Run.bind_of_ok h₃]
  simp only [hfits.toNat_ofNat, Nat.add_sub_cancel_left]
  generalize EncryptionMethod.fromByte methodByte = m at hknown hpay ⊢
  cases m with
  | unknown n => exact absurd rfl (hknown n)
  | _ => simp only [bind_assoc, pure_bind, Run.bind_run, hpay]

/-- The head of the field is its signature, its extra field and the method. -/
theorem EncryptField.length_head (f : EncryptField) :
    f.head.length = 4 + (extraField f.flags (1 + f.payload.length)).length + 1 := by
  simp [EncryptField.head, Nat.add_assoc]

/-- The same for one that says how long its payload is. -/
theorem parseEncryptInfo_run (hd : FileHeaders) {f : EncryptField} (h : c.rest = f.head ++ r) :
    (subHeaderStep pages hd).run c = (do
      let data ← readExactCapped (payloadLength r f.method f.payload.length)
      return Flow.next { hd with encryptInfo := some ⟨f.method, data⟩, isEncrypted := true } :
        Parser _).run (c.advance f.head.length) := by
  simp only [EncryptField.head, List.append_assoc, List.cons_append, List.nil_append] at h
  rw [f.length_head]
  exact encryptInfo_run pages hd f.fits f.method_known h

/-- The headers with an encryption info set. -/
def FileHeaders.withEncrypt (hd : FileHeaders) (f : EncryptField) : FileHeaders :=
  { hd with encryptInfo := some f.info, isEncrypted := true }

/-- The pass over an encryption info whose length is settled as declared. -/
theorem encryptStep_of_rest (hd : FileHeaders) {f : EncryptField} (h : c.rest = f.bytes ++ r)
    (hlen : payloadLength (f.payload ++ r) f.method f.payload.length = f.payload.length) :
    (subHeaderStep pages hd).run c = (.ok (.next (hd.withEncrypt f)), c.advance f.bytes.length) := by
  rw [EncryptField.bytes, List.append_assoc] at h
  have hrest := Cursor.rest_advance_of_append h rfl
  obtain ⟨h₁, -⟩ := readExactCapped_of_rest hrest rfl
  rw [parseEncryptInfo_run pages hd h, hlen, Run.bind_of_ok h₁]
  simp [EncryptField.bytes, FileHeaders.withEncrypt, EncryptField.info]

/-! ## blocks -/

/-- A block is read as it was written, and its data passed over. -/
theorem parseBlock_of_rest {b : BlockField} {c : Cursor}
    (h : (c.advance 4).rest = b.bytes.drop 4 ++ r) :
    parseBlock.run (c.advance 4) = (.ok (b.block c.pos), c.advance b.bytes.length) := by
  have hbytes : b.bytes.drop 4 ++ r = b.methodByte :: b.hint :: (le32 b.uncompressedSize ++
      (le32 (UInt32.ofNat b.data.length) ++ (le32 b.crc32 ++ (le32 sigEndMarker ++
        (b.data ++ r))))) := by
    have hsize : toLE 4 b.data.length = le32 (UInt32.ofNat b.data.length) := by
      rw [le32, UInt32.toNat_ofNat_of_lt' b.fits]
    simp only [BlockField.bytes, BlockField.head, List.append_assoc]
    rw [drop_append_of_length (length_le32 _), hsize]
    simp
  rw [hbytes] at h
  obtain ⟨h₁, h⟩ := readU8_of_rest h
  obtain ⟨h₂, h⟩ := readU8_of_rest h
  obtain ⟨h₃, h⟩ := readU32_of_rest h
  obtain ⟨h₄, h⟩ := readU32_of_rest h
  obtain ⟨h₅, h⟩ := readU32_of_rest h
  obtain ⟨h₆, h⟩ := readU32_of_rest h
  have hpos : ∀ c : Cursor, streamPosition.run c = (.ok c.pos, c) := fun _ => rfl
  have hlen : b.bytes.length = 4 + 18 + b.data.length := by
    simp [BlockField.bytes]
  rw [parseBlock, Run.bind_of_ok h₁, Run.bind_of_ok h₂, Run.bind_of_ok h₃, Run.bind_of_ok h₄,
    Run.bind_of_ok h₅, Run.bind_of_ok h₆, if_neg (not_not.mpr rfl), Run.bind_of_ok (hpos _),
    Run.bind_of_ok (skip_run _ _), UInt32.toNat_ofNat_of_lt' b.fits, hlen]
  simp [BlockField.block]

/-- The bytes of a list of blocks. -/
def blockBytes (bs : List BlockField) : List UInt8 := bs.flatMap BlockField.bytes

/-- A list of blocks takes one pass each off the loop. -/
theorem blocks_peel {bs : List BlockField} {acc : List EggBlock} {k : Nat} {c : Cursor}
    (h : c.rest = blockBytes bs ++ r) :
    (Run.loop blockStep (bs.length + k) acc).run c =
      (Run.loop blockStep k (acc ++ blocksAt c.pos bs)).run (c.advance (blockBytes bs).length) := by
  induction bs generalizing c acc with
  | nil => simp [blockBytes, blocksAt]
  | cons b bs ih =>
      rw [blockBytes, List.flatMap_cons, List.append_assoc] at h
      have hrest := Cursor.rest_advance_of_append h rfl
      have hsig : b.bytes = le32 sigBlockHeader ++ b.bytes.drop 4 := by
        simp only [BlockField.bytes, BlockField.head, List.append_assoc]
        rw [drop_append_of_length (length_le32 _)]
      rw [hsig, List.append_assoc] at h
      obtain ⟨h₁, h⟩ := readU32_of_rest h
      have hstep : (blockStep acc).run c =
          (.ok (.next (acc ++ [b.block c.pos])), c.advance b.bytes.length) := by
        rw [blockStep, Run.bind_of_ok h₁, if_pos rfl, Run.bind_of_ok (parseBlock_of_rest h)]
        rfl
      rw [List.length_cons, Nat.add_right_comm, Run.loop_next hstep, ih hrest,
        Cursor.advance_advance]
      simp [blockBytes, blocksAt]

/-- The record that follows ends the list of blocks; its signature is un-read. -/
theorem blocks_end {acc : List EggBlock} {k : Nat} {sig : UInt32} (hsig : IsRecordSig sig)
    {c : Cursor} (h : c.rest = le32 sig ++ r) :
    (Run.loop blockStep (k + 1) acc).run c = (.ok acc, c) := by
  obtain ⟨h₁, -⟩ := readU32_of_rest h
  have hne : sig ≠ sigBlockHeader := by
    rcases hsig with rfl | rfl | rfl | rfl <;> decide
  unfold IsRecordSig at hsig
  apply Run.loop_done
  rw [blockStep, Run.bind_of_ok h₁, if_neg hne, if_pos hsig,
    Run.bind_of_ok (seekCurrent_back c)]
  rfl

/-- Every list of records has at most as many elements as bytes. -/
theorem length_le_length_flatMap {α : Type} (f : α → List UInt8) (hf : ∀ a, f a ≠ [])
    (as : List α) : as.length ≤ (as.flatMap f).length := by
  induction as with
  | nil => simp
  | cons a as ih =>
      have := List.length_pos_iff.mpr (hf a)
      simp only [List.length_cons, List.flatMap_cons, List.length_append]
      omega

theorem BlockField.bytes_ne_nil (b : BlockField) : b.bytes ≠ [] := by
  apply List.ne_nil_of_length_pos
  simp [BlockField.bytes]

theorem SubHeader.bytes_ne_nil (s : SubHeader) : s.bytes ≠ [] := by
  apply List.ne_nil_of_length_pos
  cases s <;> simp [SubHeader.bytes]

/-- Reading a list of blocks up to the record behind them. -/
theorem parseBlocks_of_rest {bs : List BlockField} {sig : UInt32} (hsig : IsRecordSig sig)
    {c : Cursor} (h : c.rest = blockBytes bs ++ (le32 sig ++ r)) :
    parseBlocks.run c = (.ok (blocksAt c.pos bs), c.advance (blockBytes bs).length) := by
  have hbound : passBound.run c = (.ok (c.data.length + 1), c) := rfl
  have hle : bs.length ≤ c.data.length := by
    have hb := length_le_length_flatMap BlockField.bytes BlockField.bytes_ne_nil bs
    have hr := congrArg List.length h
    rw [Cursor.length_rest, List.length_append] at hr
    simp only [blockBytes] at hr
    omega
  obtain ⟨k, hk⟩ : ∃ k, c.data.length + 1 = bs.length + (k + 1) :=
    ⟨c.data.length - bs.length, by omega⟩
  rw [parseBlocks, Run.bind_of_ok hbound, hk, blocks_peel h,
    blocks_end hsig (Cursor.rest_advance_of_append h rfl), List.nil_append]

/-! ## a whole file entry -/

/-- What comes after the sub-headers: the End Marker, the blocks, and the
signature of the record that follows. -/
def entryTail (bs : List BlockField) (sig : UInt32) (r : List UInt8) : List UInt8 :=
  le32 sigEndMarker ++ (blockBytes bs ++ (le32 sig ++ r))

/-- The entry that the headers, the id and size words and the blocks make. -/
def entryOf (fileId : UInt32) (size : UInt64) (hd : FileHeaders) (blocks : List EggBlock) :
    EggFileEntry where
  fileName := hd.fileName
  fileId := fileId
  uncompressedSize := size
  blocks := blocks
  encryptInfo := hd.encryptInfo
  fileTime := hd.fileTime
  fileAttr := hd.fileAttr
  parentId := hd.parentId

/-- An entry is its sub-headers, as the loop reads them, and then its blocks. -/
theorem parseFileEntry_of_rest {fileId : UInt32} {size : UInt64} {isEncrypted : Bool}
    {hd : FileHeaders} {bs : List BlockField} {sig : UInt32} (hsig : IsRecordSig sig)
    {c : Cursor} {subs : List UInt8}
    (h : c.rest = le32 fileId ++ (le64 size ++ (subs ++ entryTail bs sig r)))
    (hsubs : (parseSubHeaders pages isEncrypted).run (c.advance 12) =
      (.ok hd, c.advance (12 + (subs.length + 4)))) :
    (parseFileEntry pages isEncrypted).run c =
      (.ok (entryOf fileId size hd (blocksAt (c.pos + (12 + (subs.length + 4))) bs),
          hd.isEncrypted),
        c.advance (12 + (subs.length + 4) + (blockBytes bs).length)) := by
  obtain ⟨h₁, h⟩ := readU32_of_rest h
  obtain ⟨h₂, h⟩ := readU64_of_rest h
  have hrest := Cursor.rest_advance_of_append h rfl
  obtain hend := Cursor.rest_advance_of_append hrest (length_le32 _)
  simp only [Cursor.advance_advance] at h₂ hend
  have hpos : 4 + 8 + subs.length + 4 = 12 + (subs.length + 4) := by omega
  rw [hpos] at hend
  rw [parseFileEntry, Run.bind_of_ok h₁, Run.bind_of_ok h₂, Run.bind_of_ok hsubs,
    Run.bind_of_ok (parseBlocks_of_rest hsig hend)]
  simp [entryOf, Nat.add_assoc]

/-- A list of sub-headers at the start of the loop leaves it passes for
whatever follows. -/
theorem parseSubHeaders_peel (isEncrypted : Bool) {pre : List SubHeader} {c : Cursor}
    (h : c.rest = subHeaderBytes pre ++ r) :
    ∃ k, r.length ≤ k ∧ (parseSubHeaders pages isEncrypted).run c =
      (Run.loop (subHeaderStep pages) (k + 1) (applyAll pages { isEncrypted } pre)).run
        (c.advance (subHeaderBytes pre).length) := by
  have hbound : passBound.run c = (.ok (c.data.length + 1), c) := rfl
  have hle : pre.length + r.length ≤ c.data.length := by
    have hb := length_le_length_flatMap SubHeader.bytes SubHeader.bytes_ne_nil pre
    have hlen := congrArg List.length h
    rw [Cursor.length_rest, List.length_append] at hlen
    simp only [subHeaderBytes] at hlen
    omega
  refine ⟨c.data.length - pre.length, by omega, ?_⟩
  have hk : c.data.length + 1 = pre.length + (c.data.length - pre.length + 1) := by omega
  rw [parseSubHeaders, Run.bind_of_ok hbound, hk, subHeaders_peel pages h]

/-- Reading a list of sub-headers up to the End Marker. -/
theorem parseSubHeaders_of_rest {isEncrypted : Bool} {subs : List SubHeader} {c : Cursor}
    (h : c.rest = subHeaderBytes subs ++ (le32 sigEndMarker ++ r)) :
    (parseSubHeaders pages isEncrypted).run c =
      (.ok (applyAll pages { isEncrypted } subs), c.advance ((subHeaderBytes subs).length + 4)) := by
  obtain ⟨k, -, hrun⟩ := parseSubHeaders_peel pages isEncrypted h
  rw [hrun, subHeaders_end pages (Cursor.rest_advance_of_append h rfl), Cursor.advance_advance]

/-- Reading sub-headers with an encryption info among them whose length is
settled as declared. -/
theorem parseSubHeaders_encrypt_of_rest (isEncrypted : Bool) (pre post : List SubHeader)
    {f : EncryptField} {c : Cursor}
    (h : c.rest = subHeaderBytes pre ++ (f.bytes ++ (subHeaderBytes post ++
      (le32 sigEndMarker ++ r))))
    (hlen : payloadLength (f.payload ++ (subHeaderBytes post ++ (le32 sigEndMarker ++ r)))
      f.method f.payload.length = f.payload.length) :
    (parseSubHeaders pages isEncrypted).run c =
      (.ok (applyAll pages ((applyAll pages { isEncrypted } pre).withEncrypt f) post),
        c.advance ((subHeaderBytes pre ++ (f.bytes ++ subHeaderBytes post)).length + 4)) := by
  have hpost := length_le_length_flatMap SubHeader.bytes SubHeader.bytes_ne_nil post
  have hf : 0 < f.bytes.length := by simp [EncryptField.bytes, EncryptField.head]
  obtain ⟨k, hk, hrun⟩ := parseSubHeaders_peel pages isEncrypted h
  have hrest := Cursor.rest_advance_of_append h rfl
  have hstep := encryptStep_of_rest pages (applyAll pages { isEncrypted } pre) hrest hlen
  have hrest' := Cursor.rest_advance_of_append hrest rfl
  obtain ⟨j, hj⟩ : ∃ j, k = post.length + (j + 1) := by
    simp only [List.length_append, length_le32, subHeaderBytes] at hk
    exact ⟨k - post.length - 1, by omega⟩
  rw [hrun, Run.loop_next hstep, hj, subHeaders_peel pages hrest',
    subHeaders_end pages (Cursor.rest_advance_of_append hrest' rfl)]
  simp [Nat.add_assoc]

end Fields

/-! ## sub-headers in any order -/

/-- The name of a list of sub-headers is the last one set. -/
theorem applyAll_fileName (pages : CodePages) (hd : FileHeaders) (subs : List SubHeader) :
    (applyAll pages hd subs).fileName =
      (subs.filterMap SubHeader.filename?).foldl (fun _ f => f.fileName pages) hd.fileName := by
  induction subs generalizing hd with
  | nil => rfl
  | cons s subs ih =>
      rw [applyAll, List.foldl_cons, ← applyAll, ih]
      cases s <;> rfl

/-- The last name sub-header with a parent decides the parent. -/
theorem applyAll_parentId (pages : CodePages) (hd : FileHeaders) (subs : List SubHeader) :
    (applyAll pages hd subs).parentId =
      (subs.filterMap SubHeader.filename?).foldl (fun old f => f.parent old) hd.parentId := by
  induction subs generalizing hd with
  | nil => rfl
  | cons s subs ih =>
      rw [applyAll, List.foldl_cons, ← applyAll, ih]
      cases s <;> rfl

/-- The last Windows time wins over everything; without one it is the time set
before, or else the first POSIX time. -/
theorem applyAll_fileTime (pages : CodePages) (hd : FileHeaders) (subs : List SubHeader) :
    (applyAll pages hd subs).fileTime =
      ((subs.filterMap SubHeader.windows?).getLast?.map (·.time)).or
        (hd.fileTime.or ((subs.filterMap SubHeader.posix?).head?.map
          fun f => unixToFiletime f.mtime)) := by
  induction subs generalizing hd with
  | nil => simp [applyAll]
  | cons s subs ih =>
      rw [applyAll, List.foldl_cons, ← applyAll, ih]
      cases s with
      | filename f => rfl
      | comment f => rfl
      | windows f =>
          simp only [SubHeader.apply, List.filterMap_cons, SubHeader.windows?, SubHeader.posix?,
            List.getLast?_cons]
          cases (subs.filterMap SubHeader.windows?).getLast? <;> rfl
      | posix f =>
          simp only [SubHeader.apply, List.filterMap_cons, SubHeader.windows?, SubHeader.posix?,
            List.head?_cons, Option.map_some, Option.or_assoc]
          cases hd.fileTime <;> rfl

/-- The attributes of the Windows infos and the directory bits of the POSIX
infos are all OR-ed together. -/
theorem applyAll_fileAttr (pages : CodePages) (hd : FileHeaders) (subs : List SubHeader) :
    (applyAll pages hd subs).fileAttr =
      (hd.fileAttr ||| ((subs.filterMap SubHeader.windows?).map (·.attr)).foldr (· ||| ·) 0) |||
        ((subs.filterMap SubHeader.posix?).map PosixField.attr).foldr (· ||| ·) 0 := by
  induction subs generalizing hd with
  | nil => simp [applyAll]
  | cons s subs ih =>
      rw [applyAll, List.foldl_cons, ← applyAll, ih]
      cases s with
      | filename f => rfl
      | comment f => rfl
      | windows f =>
          simp only [SubHeader.apply, List.filterMap_cons, SubHeader.windows?, SubHeader.posix?,
            List.map_cons, List.foldr_cons, UInt8.or_assoc]
      | posix f =>
          simp only [SubHeader.apply, List.filterMap_cons, SubHeader.windows?, SubHeader.posix?,
            List.map_cons, List.foldr_cons, ← UInt8.or_assoc]
          rw [UInt8.or_assoc hd.fileAttr f.attr, UInt8.or_comm f.attr, ← UInt8.or_assoc]

/-- Sub-headers other than an encryption info leave the encryption alone. -/
theorem applyAll_encrypt (pages : CodePages) (hd : FileHeaders) (subs : List SubHeader) :
    (applyAll pages hd subs).encryptInfo = hd.encryptInfo ∧
      (applyAll pages hd subs).isEncrypted = hd.isEncrypted := by
  induction subs generalizing hd with
  | nil => exact ⟨rfl, rfl⟩
  | cons s subs ih =>
      rw [applyAll, List.foldl_cons, ← applyAll]
      obtain ⟨h₁, h₂⟩ := ih (SubHeader.apply pages hd s)
      rw [h₁, h₂]
      cases s <;> exact ⟨rfl, rfl⟩

/-- A permutation of at most one element is the identity. -/
theorem eq_of_perm_toList {α : Type} {l : List α} {o : Option α} (h : l.Perm o.toList) :
    l = o.toList := by
  cases o with
  | none => exact List.Perm.eq_nil h
  | some a => exact List.perm_singleton.mp h

namespace EntryDesc

variable (pages : CodePages) (e : EntryDesc)

/-- A described entry has one name sub-header. -/
theorem filterMap_filename? (h : e.WellOrdered) :
    e.subs.filterMap SubHeader.filename? = [e.filenameField] := by
  have hp := h.filterMap SubHeader.filename?
  have hc : e.canonicalSubs.filterMap SubHeader.filename? = (some e.filenameField).toList := by
    unfold canonicalSubs
    cases e.windows <;> cases e.posix <;> simp [SubHeader.filename?]
  rw [hc] at hp
  exact eq_of_perm_toList hp

/-- A described entry has one sub-header of Windows at most. -/
theorem filterMap_windows? (h : e.WellOrdered) :
    e.subs.filterMap SubHeader.windows? = e.windows.toList := by
  have hp := h.filterMap SubHeader.windows?
  have hc : e.canonicalSubs.filterMap SubHeader.windows? = e.windows.toList := by
    unfold canonicalSubs
    cases e.windows <;> cases e.posix <;> simp [SubHeader.windows?, List.filterMap_cons]
  rw [hc] at hp
  exact eq_of_perm_toList hp

/-- A described entry has one sub-header of POSIX at most. -/
theorem filterMap_posix? (h : e.WellOrdered) :
    e.subs.filterMap SubHeader.posix? = e.posix.toList := by
  have hp := h.filterMap SubHeader.posix?
  have hc : e.canonicalSubs.filterMap SubHeader.posix? = e.posix.toList := by
    unfold canonicalSubs
    cases e.windows <;> cases e.posix <;> simp [SubHeader.posix?, List.filterMap_cons]
  rw [hc] at hp
  exact eq_of_perm_toList hp

/-- The headers that the sub-headers of the entry leave. -/
theorem applyAll_subs (h : e.WellOrdered) (isEncrypted : Bool) :
    applyAll pages { isEncrypted } e.subs =
      { fileName := e.name, fileTime := e.time, fileAttr := e.attr, encryptInfo := none,
        parentId := none, isEncrypted } := by
  have hname : (applyAll pages { isEncrypted } e.subs).fileName = e.name := by
    have hplain : e.filenameField.fileName pages = e.name := by
      have ha : ¬ e.filenameField.hasAreaCode := e.flags_clear.1
      simp only [FilenameField.fileName, ha, decide_false, decodeFilename, Bool.not_false, if_true]
      rw [filenameField, fromUtf8Lossy_utf8Bytes, normalizePath_of_plain e.plain]
    rw [applyAll_fileName, e.filterMap_filename? h, List.foldl_cons, List.foldl_nil, hplain]
  have hparent : (applyAll pages { isEncrypted } e.subs).parentId = none := by
    have hr : ¬ e.filenameField.isRelative := e.flags_clear.2
    rw [applyAll_parentId, e.filterMap_filename? h, List.foldl_cons, List.foldl_nil,
      FilenameField.parent, if_neg hr]
  have htime : (applyAll pages { isEncrypted } e.subs).fileTime = e.time := by
    rw [applyAll_fileTime, e.filterMap_windows? h, e.filterMap_posix? h, time]
    cases e.windows <;> cases e.posix <;> rfl
  have hattr : (applyAll pages { isEncrypted } e.subs).fileAttr = e.attr := by
    rw [applyAll_fileAttr, e.filterMap_windows? h, e.filterMap_posix? h, attr]
    cases e.windows <;> cases e.posix <;> simp
  obtain ⟨henc, hflag⟩ := applyAll_encrypt pages { isEncrypted } e.subs
  rcases happly : applyAll pages { isEncrypted } e.subs with
    ⟨fileName, fileTime, fileAttr, encryptInfo, parentId, flag⟩
  rw [happly] at hname hparent htime hattr henc hflag
  simp only at hname hparent htime hattr henc hflag
  rw [hname, hparent, htime, hattr, henc, hflag]

end EntryDesc

/-! ## records -/

/-- A truthful size with an End Marker behind the payload is believed. -/
theorem EncryptField.payloadLength_of_lands (f : EncryptField) {r : List UInt8}
    (h : endMarkerAt r f.payload.length = true) :
    payloadLength r f.method f.payload.length = f.payload.length := by
  have hvalid : f.method.payloadLengths.contains f.payload.length = true :=
    List.contains_iff_mem.mpr f.valid
  rw [payloadLength, hvalid, h]
  rfl

/-- A truthful encryption info in front of the End Marker is taken at its word. -/
theorem EncryptField.payloadLength_of_last (f : EncryptField) (r : List UInt8) :
    payloadLength (f.payload ++ (le32 sigEndMarker ++ r)) f.method f.payload.length =
      f.payload.length := by
  apply f.payloadLength_of_lands
  rw [endMarkerAt, drop_append_of_length rfl, take_append_of_length (length_le32 _)]
  simp

/-- Reading a described entry, after its signature, up to the signature of the
record behind it. -/
theorem parseFileEntry_of_desc (pages : CodePages) {e : EntryDesc} (ho : e.WellOrdered)
    {isEncrypted : Bool} {sig : UInt32} (hsig : IsRecordSig sig) {r : List UInt8} {c : Cursor}
    (h : c.rest = e.bytes ++ (le32 sig ++ r)) :
    (parseFileEntry pages isEncrypted).run (c.advance 4) =
      (.ok (e.entry c.pos, isEncrypted || e.encrypt.isSome), c.advance e.bytes.length) := by
  have hrest : (c.advance 4).rest = le32 e.fileId ++ (le64 e.size ++ (e.subBytes ++
      entryTail e.blocks sig r)) := by
    have hhead : c.rest = le32 sigFileHeader ++ (le32 e.fileId ++ (le64 e.size ++ (e.subBytes ++
        entryTail e.blocks sig r))) := by
      rw [h]
      simp [EntryDesc.bytes, entryTail, blockBytes]
    exact Cursor.rest_advance_of_append hhead (length_le32 _)
  have hsubsRest : ((c.advance 4).advance 12).rest = e.subBytes ++ entryTail e.blocks sig r := by
    rw [← List.append_assoc] at hrest
    exact Cursor.rest_advance_of_append hrest (by simp)
  have hsubs : (parseSubHeaders pages isEncrypted).run ((c.advance 4).advance 12) =
      (.ok { fileName := e.name, fileTime := e.time, fileAttr := e.attr,
             encryptInfo := e.encrypt.map EncryptField.info, parentId := none,
             isEncrypted := isEncrypted || e.encrypt.isSome },
        (c.advance 4).advance (12 + (e.subBytes.length + 4))) := by
    cases henc : e.encrypt with
    | none =>
        have hsub : e.subBytes = subHeaderBytes e.subs := by
          simp [EntryDesc.subBytes, henc, subHeaderBytes]
        rw [hsub, entryTail] at hsubsRest
        rw [parseSubHeaders_of_rest pages hsubsRest, e.applyAll_subs pages ho, hsub]
        simp [← Nat.add_assoc]
    | some f =>
        have hsub : e.subBytes = subHeaderBytes e.subs ++ f.bytes := by
          simp [EntryDesc.subBytes, henc, subHeaderBytes]
        have hpost : subHeaderBytes [] = [] := rfl
        rw [hsub, entryTail, List.append_assoc] at hsubsRest
        have hrun := parseSubHeaders_encrypt_of_rest pages isEncrypted e.subs [] hsubsRest
          (f.payloadLength_of_last _)
        rw [hrun, e.applyAll_subs pages ho, hsub]
        simp [applyAll, FileHeaders.withEncrypt, hpost, ← Nat.add_assoc]
  rw [parseFileEntry_of_rest pages hsig hrest hsubs]
  have hlen : e.bytes.length = 4 + (12 + (e.subBytes.length + 4) + (blockBytes e.blocks).length) := by
    simp [EntryDesc.bytes, blockBytes]
    omega
  rw [hlen]
  simp [entryOf, EntryDesc.entry, Nat.add_assoc]

/-- The signature a record starts with. -/
def Record.sig : Record → UInt32
  | entry _ _ => sigFileHeader
  | comment _ => sigComment
  | dummy _ => sigDummy

/-- A record begins with its signature. -/
theorem Record.bytes_eq (d : Record) : ∃ bs, d.bytes = le32 d.sig ++ bs := by
  cases d with
  | entry e ordered => exact ⟨_, rfl⟩
  | comment f => exact ⟨_, rfl⟩
  | dummy f => exact ⟨_, rfl⟩

theorem Record.isRecordSig (d : Record) : IsRecordSig d.sig := by
  rcases d with _ | _ | _
  · exact .inr (.inl rfl)
  · exact .inl rfl
  · exact .inr (.inr (.inr rfl))

/-- A list of records in front of another signature of a record starts with one. -/
theorem recordsBytes_eq (rs : List PlacedRecord) {sig : UInt32} (hsig : IsRecordSig sig)
    (r : List UInt8) : ∃ sig' bs, IsRecordSig sig' ∧
      rs.flatMap PlacedRecord.bytes ++ (le32 sig ++ r) = le32 sig' ++ bs := by
  cases rs with
  | nil => exact ⟨sig, r, hsig, rfl⟩
  | cons d rs =>
      obtain ⟨bs, hbs⟩ := d.record.bytes_eq
      rw [List.flatMap_cons, PlacedRecord.bytes]
      split
      · refine ⟨sigEndMarker, d.record.bytes ++ (rs.flatMap PlacedRecord.bytes ++
          (le32 sig ++ r)), .inr (.inr (.inl rfl)), ?_⟩
        rw [List.append_assoc, List.append_assoc]
      · refine ⟨d.record.sig, bs ++ (rs.flatMap PlacedRecord.bytes ++ (le32 sig ++ r)),
          d.record.isRecordSig, ?_⟩
        rw [List.nil_append, hbs, List.append_assoc, List.append_assoc]

section Records

variable (pages : CodePages) {c : Cursor} {r : List UInt8}

/-- What reading a record at position `p` makes of the records before it. -/
def Records.add (rs : Records) (p : Nat) (d : Record) : Records where
  entries := rs.entries ++ d.entries p
  isEncrypted := rs.isEncrypted || d.isEncrypted

/-- One pass of the record loop over a laid-out record. -/
theorem recordStep_of_rest (rs : Records) {d : Record} {sig : UInt32} (hsig : IsRecordSig sig)
    (h : c.rest = d.bytes ++ (le32 sig ++ r)) :
    (recordStep pages rs).run c = (.ok (.next (rs.add c.pos d)), c.advance d.bytes.length) := by
  cases d with
  | entry e ordered =>
      have hsigRest : c.rest = le32 sigFileHeader ++ (e.bytes.drop 4 ++ (le32 sig ++ r)) := by
        rw [h, Record.bytes, EntryDesc.bytes, drop_append_of_length (length_le32 _)]
        simp
      obtain ⟨h₁, -⟩ := readU32_of_rest hsigRest
      rw [recordStep, Run.bind_of_ok h₁, if_pos rfl,
        Run.bind_of_ok (parseFileEntry_of_desc pages ordered hsig h)]
      rfl
  | comment f =>
      rw [Record.bytes, List.append_assoc] at h
      obtain ⟨h₁, h⟩ := readU32_of_rest h
      rw [recordStep, Run.bind_of_ok h₁, if_neg (by decide), if_pos rfl,
        Run.bind_of_ok (skipField_of_rest h).1]
      simp [Records.add, Record.entries, Record.isEncrypted, Record.bytes]
  | dummy f =>
      rw [Record.bytes, List.append_assoc] at h
      obtain ⟨h₁, h⟩ := readU32_of_rest h
      rw [recordStep, Run.bind_of_ok h₁, if_neg (by decide), if_neg (by decide), if_pos rfl,
        Run.bind_of_ok (skipField_of_rest h).1]
      simp [Records.add, Record.entries, Record.isEncrypted, Record.bytes]

/-- An End Marker in front of a record is a volume boundary. -/
theorem boundary_of_sig (rs : Records) {sig : UInt32}
    (hsig : sig = sigFileHeader ∨ sig = sigComment ∨ sig = sigDummy)
    (h : c.rest = le32 sigEndMarker ++ (le32 sig ++ r)) :
    (recordStep pages rs).run c = (.ok (.next rs), c.advance 4) := by
  obtain ⟨h₁, h⟩ := readU32_of_rest h
  obtain ⟨h₂, -⟩ := readU32_of_rest h
  rw [recordStep, Run.bind_of_ok h₁, if_neg (by decide), if_neg (by decide), if_neg (by decide),
    if_pos rfl, peekRecord, Run.bind_of_ok (Run.attempt_of_ok h₂)]
  simp only [if_pos hsig]
  rw [Run.bind_of_ok (seekCurrent_back _)]
  rfl

/-- An end marker in front of a record is passed over. -/
theorem boundary_of_rest (rs : Records) {d : Record}
    (h : c.rest = le32 sigEndMarker ++ (d.bytes ++ r)) :
    (recordStep pages rs).run c = (.ok (.next rs), c.advance 4) := by
  obtain ⟨bs, hbs⟩ := d.bytes_eq
  rw [hbs, List.append_assoc] at h
  refine boundary_of_sig pages rs ?_ h
  cases d with
  | entry e ordered => exact .inl rfl
  | comment f => exact .inr (.inl rfl)
  | dummy f => exact .inr (.inr rfl)

/-- The End Marker at the end of the stream ends the loop, with the reader
there. -/
theorem records_end {rs : Records} {k : Nat} (h : c.rest = le32 sigEndMarker) :
    (Run.loop (recordStep pages) (k + 1) rs).run c = (.ok rs, { c with pos := c.data.length }) := by
  rw [← List.append_nil (le32 sigEndMarker)] at h
  obtain ⟨h₁, hnil⟩ := readU32_of_rest h
  have h₂ := readU32_run (c.advance 4)
  rw [hnil, if_neg (by simp)] at h₂
  apply Run.loop_done
  rw [recordStep, Run.bind_of_ok h₁, if_neg (by decide), if_neg (by decide), if_neg (by decide),
    if_pos rfl, peekRecord, Run.bind_of_ok (Run.attempt_of_err h₂)]
  rfl

/-- The passes a placed record takes: one for the boundary, one for itself. -/
def PlacedRecord.passes (d : PlacedRecord) : Nat := (if d.boundary then 1 else 0) + 1

/-- A placed record takes its passes off the loop. -/
theorem placedRecord_peel {d : PlacedRecord} {rs : Records} {k : Nat} {sig : UInt32}
    (hsig : IsRecordSig sig) (h : c.rest = d.bytes ++ (le32 sig ++ r)) :
    (Run.loop (recordStep pages) (d.passes + k) rs).run c =
      (Run.loop (recordStep pages) k
        (rs.add (c.pos + (if d.boundary then 4 else 0)) d.record)).run
          (c.advance d.bytes.length) := by
  rw [PlacedRecord.bytes, List.append_assoc] at h
  cases hb : d.boundary with
  | false =>
      simp only [hb, Bool.false_eq_true, if_false, List.nil_append] at h
      have hstep := recordStep_of_rest pages rs hsig h
      have hpasses : d.passes + k = k + 1 := by
        simp [PlacedRecord.passes, hb, Nat.add_comm]
      rw [hpasses, Run.loop_next hstep]
      simp [PlacedRecord.bytes, hb]
  | true =>
      simp only [hb, if_true] at h
      have hmark := boundary_of_rest pages rs h
      have hstep := recordStep_of_rest pages rs hsig
        (Cursor.rest_advance_of_append h (length_le32 _))
      have hpasses : d.passes + k = k + 1 + 1 := by
        simp only [PlacedRecord.passes, hb, if_true]
        omega
      rw [hpasses, Run.loop_next hmark, Run.loop_next hstep]
      simp [PlacedRecord.bytes, hb]

/-- What reading a list of records at position `p` makes of the records before it. -/
def Records.addAll (rs : Records) : Nat → List PlacedRecord → Records
  | _, [] => rs
  | p, d :: ds =>
      (rs.add (p + (if d.boundary then 4 else 0)) d.record).addAll (p + d.bytes.length) ds

/-- Adding records one by one adds their entries in order. -/
theorem Records.addAll_eq (rs : Records) (p : Nat) (ds : List PlacedRecord) :
    rs.addAll p ds = ⟨rs.entries ++ entriesAt p ds,
      rs.isEncrypted || ds.any fun d => d.record.isEncrypted⟩ := by
  induction ds generalizing rs p with
  | nil => simp [addAll, entriesAt]
  | cons d ds ih => simp [addAll, ih, add, entriesAt, Bool.or_assoc]

/-- A list of records takes its passes off the loop. -/
theorem records_peel {ds : List PlacedRecord} {rs : Records} {k : Nat} {sig : UInt32}
    (hsig : IsRecordSig sig) (h : c.rest = ds.flatMap PlacedRecord.bytes ++ (le32 sig ++ r)) :
    (Run.loop (recordStep pages) ((ds.map PlacedRecord.passes).sum + k) rs).run c =
      (Run.loop (recordStep pages) k (rs.addAll c.pos ds)).run
        (c.advance (ds.flatMap PlacedRecord.bytes).length) := by
  induction ds generalizing c rs with
  | nil => simp [Records.addAll]
  | cons d ds ih =>
      rw [List.flatMap_cons, List.append_assoc] at h
      have hrest := Cursor.rest_advance_of_append h rfl
      obtain ⟨sig', bs, hsig', hbs⟩ := recordsBytes_eq ds hsig r
      rw [hbs] at h
      rw [List.map_cons, List.sum_cons, Nat.add_assoc, placedRecord_peel pages hsig' h, ih hrest,
        Cursor.advance_advance, List.flatMap_cons, List.length_append]
      rfl

/-- A record has more bytes than the passes it takes. -/
theorem PlacedRecord.passes_le (d : PlacedRecord) : d.passes ≤ d.bytes.length := by
  have hd : 0 < d.record.bytes.length := by
    obtain ⟨bs, hbs⟩ := d.record.bytes_eq
    simp [hbs]
  simp only [passes, bytes, List.length_append]
  split
  · simp only [length_le32]
    omega
  · omega

/-- The records have more bytes than the passes they take, so the fuel suffices. -/
theorem sum_passes_le (ds : List PlacedRecord) :
    (ds.map PlacedRecord.passes).sum ≤ (ds.flatMap PlacedRecord.bytes).length := by
  rw [List.length_flatMap]
  exact List.sum_le_sum fun d _ => d.passes_le

/-- Reading the records of an archive up to the end of the stream. -/
theorem parseRecords_of_rest {ds : List PlacedRecord} {bound : Nat} {c : Cursor}
    (hbound : c.data.length < bound)
    (h : c.rest = ds.flatMap PlacedRecord.bytes ++ le32 sigEndMarker) :
    (Run.loop (recordStep pages) bound {}).run c =
      (.ok ⟨entriesAt c.pos ds, ds.any fun d => d.record.isEncrypted⟩,
        { c with pos := c.data.length }) := by
  have hpasses := sum_passes_le ds
  have hle : (ds.map PlacedRecord.passes).sum ≤ c.data.length := by
    have hlen := congrArg List.length h
    rw [Cursor.length_rest, List.length_append] at hlen
    omega
  obtain ⟨k, hk⟩ : ∃ k, bound = (ds.map PlacedRecord.passes).sum + (k + 1) :=
    ⟨bound - (ds.map PlacedRecord.passes).sum - 1, by omega⟩
  have hend : c.rest = ds.flatMap PlacedRecord.bytes ++ (le32 sigEndMarker ++ []) := by
    rw [h, List.append_nil]
  rw [hk, records_peel pages (.inr (.inr (.inl rfl))) hend,
    records_end pages (Cursor.rest_advance_of_append h rfl), Records.addAll_eq]
  simp

end Records

/-! ## the prefix -/

section Prefixes

variable {c : Cursor} {r : List UInt8}

/-- One pass of the prefix loop over a laid-out field. -/
theorem prefixStep_of_rest {f : PrefixField} {p : Prefix} (h : c.rest = f.bytes ++ r) :
    (prefixStep p).run c = (.ok (.next (f.apply p)), c.advance f.bytes.length) := by
  cases f with
  | split flags prevId nextId pad fits =>
      simp only [PrefixField.bytes, List.append_assoc] at h
      obtain ⟨h₁, h⟩ := readU32_of_rest h
      obtain ⟨h₂, h⟩ := readExtraField_of_rest fits h
      obtain ⟨h₃, h⟩ := readU32_of_rest h
      obtain ⟨h₄, h⟩ := readU32_of_rest h
      rw [prefixStep, Run.bind_of_ok h₁, if_pos rfl, parseSplitInfo]
      simp only [bind_assoc]
      rw [Run.bind_of_ok h₂]
      simp only [fits.toNat_ofNat, Nat.add_sub_cancel_left]
      rw [Run.bind_of_ok h₃, Run.bind_of_ok h₄, Run.bind_of_ok (skip_run _ _)]
      simp [PrefixField.apply, PrefixField.bytes, ← Nat.add_assoc]
  | solid f =>
      rw [PrefixField.bytes, List.append_assoc] at h
      obtain ⟨h₁, h⟩ := readU32_of_rest h
      rw [prefixStep, Run.bind_of_ok h₁, if_neg (by decide), if_pos rfl,
        Run.bind_of_ok (skipField_of_rest h).1]
      simp [PrefixField.apply, PrefixField.bytes]
  | skip f =>
      rw [PrefixField.bytes, List.append_assoc] at h
      obtain ⟨h₁, h⟩ := readU32_of_rest h
      rw [prefixStep, Run.bind_of_ok h₁, if_neg (by decide), if_neg (by decide), if_pos rfl,
        Run.bind_of_ok (skipField_of_rest h).1]
      simp [PrefixField.apply, PrefixField.bytes]
  | globalEncrypt f =>
      rw [PrefixField.bytes, List.append_assoc] at h
      obtain ⟨h₁, h⟩ := readU32_of_rest h
      rw [prefixStep, Run.bind_of_ok h₁, if_neg (by decide), if_neg (by decide),
        if_neg (by decide), if_pos rfl, Run.bind_of_ok (skipField_of_rest h).1]
      simp [PrefixField.apply, PrefixField.bytes]

/-- A list of prefix fields takes one pass each off the loop. -/
theorem prefix_peel {fs : List PrefixField} {p : Prefix} {k : Nat}
    (h : c.rest = fs.flatMap PrefixField.bytes ++ r) :
    (Run.loop prefixStep (fs.length + k) p).run c =
      (Run.loop prefixStep k (fs.foldl PrefixField.apply p)).run
        (c.advance (fs.flatMap PrefixField.bytes).length) := by
  induction fs generalizing c p with
  | nil => simp
  | cons f fs ih =>
      rw [List.flatMap_cons, List.append_assoc] at h
      have hstep := prefixStep_of_rest (p := p) h
      have hrest := Cursor.rest_advance_of_append h rfl
      rw [List.length_cons, Nat.add_right_comm, Run.loop_next hstep, ih hrest,
        Cursor.advance_advance]
      simp

theorem PrefixField.bytes_ne_nil (f : PrefixField) : f.bytes ≠ [] := by
  apply List.ne_nil_of_length_pos
  cases f <;> simp [PrefixField.bytes]

/-- Reading the prefix up to its End Marker. -/
theorem parsePrefix_of_rest {fs : List PrefixField} {bound : Nat} {c : Cursor}
    (hbound : c.data.length < bound)
    (h : c.rest = fs.flatMap PrefixField.bytes ++ (le32 sigEndMarker ++ r)) :
    (Run.loop prefixStep bound {}).run c =
      (.ok ⟨fs.any PrefixField.isSolid, (fs.filterMap PrefixField.splitInfo?).getLast?⟩,
        c.advance ((fs.flatMap PrefixField.bytes).length + 4)) := by
  have hle : fs.length ≤ c.data.length := by
    have hb := length_le_length_flatMap PrefixField.bytes PrefixField.bytes_ne_nil fs
    have hlen := congrArg List.length h
    rw [Cursor.length_rest, List.length_append] at hlen
    omega
  obtain ⟨k, hk⟩ : ∃ k, bound = fs.length + (k + 1) := ⟨bound - fs.length - 1, by omega⟩
  obtain ⟨h₁, -⟩ := readU32_of_rest (Cursor.rest_advance_of_append h rfl)
  have hend : (prefixStep (fs.foldl PrefixField.apply {})).run
      (c.advance (fs.flatMap PrefixField.bytes).length) =
        (.ok (.done (fs.foldl PrefixField.apply {})),
          c.advance ((fs.flatMap PrefixField.bytes).length + 4)) := by
    rw [prefixStep, Run.bind_of_ok h₁, Cursor.advance_advance]
    rfl
  rw [hk, prefix_peel h, Run.loop_done hend, PrefixField.foldl_apply]
  simp

end Prefixes

/-! ## the whole archive -/

/-- Entries without a parent keep their names. -/
theorem resolveRelativePaths_of_no_parent {entries : List EggFileEntry}
    (h : ∀ e ∈ entries, e.parentId = none) : resolveRelativePaths entries = entries := by
  refine Eq.trans (List.map_congr_left fun p hp => ?_) (List.zipIdx_map_fst 0 entries)
  have hnone : resolvedName entries p.1 p.2 = none := by
    rw [resolvedName, h p.1 (List.fst_mem_of_mem_zipIdx hp)]
    rfl
  simp only [hnone]

/-- A described entry refers to no parent. -/
theorem parentId_of_mem_entriesAt {p : Nat} {ds : List PlacedRecord} {e : EggFileEntry}
    (h : e ∈ entriesAt p ds) : e.parentId = none := by
  induction ds generalizing p with
  | nil => simp [entriesAt] at h
  | cons d ds ih =>
      rw [entriesAt, List.mem_append] at h
      rcases h with h | h
      · rcases hd : d.record with ⟨e', ho⟩ | f | f
        · rw [hd, Record.entries, List.mem_singleton] at h
          rw [h]
          rfl
        · rw [hd] at h
          simp [Record.entries] at h
        · rw [hd] at h
          simp [Record.entries] at h
      · exact ih h

/-- The rest of `open`, behind the prefix. -/
def openRecords (pages : CodePages) (headerId : UInt32) (p : Prefix) (bound : Nat) :
    Parser EggArchive := do
  let rs ← Run.loop (recordStep pages) bound {}
  let reader ← Run.get
  return {
    reader
    entries := resolveRelativePaths rs.entries
    isEncrypted := rs.isEncrypted
    isSolid := p.isSolid
    headerId
    splitInfo := p.splitInfo }

namespace ArchiveDesc

/-- What the prefix sets. -/
def prefixSet (d : ArchiveDesc) : Prefix :=
  ⟨d.fields.any PrefixField.isSolid, (d.fields.filterMap PrefixField.splitInfo?).getLast?⟩

/-- Opening goes through the prefix to the records. -/
theorem open_prefix (pages : CodePages) (d : ArchiveDesc) (r : List UInt8) :
    (EggArchive.open' pages).run ⟨d.prefixBytes ++ r, 0⟩ =
      (openRecords pages d.headerId d.prefixSet ((d.prefixBytes ++ r).length + 1)).run
        ⟨d.prefixBytes ++ r, d.prefixBytes.length⟩ := by
  let c : Cursor := ⟨d.prefixBytes ++ r, 0⟩
  have hrest : c.rest = d.prefixBytes ++ r := rfl
  simp only [ArchiveDesc.prefixBytes, List.append_assoc] at hrest
  obtain ⟨h₁, hrest⟩ := readU32_of_rest hrest
  obtain ⟨h₂, hrest⟩ := readU16_of_rest hrest
  obtain ⟨h₃, hrest⟩ := readU32_of_rest hrest
  obtain ⟨h₄, hrest⟩ := readU32_of_rest hrest
  have hbound : ∀ c : Cursor, passBound.run c = (.ok (c.data.length + 1), c) := fun _ => rfl
  have hprefix := parsePrefix_of_rest (Nat.lt_add_one _) hrest
  have hlen : 4 + 2 + 4 + 4 + ((d.fields.flatMap PrefixField.bytes).length + 4) =
      d.prefixBytes.length := by
    simp [ArchiveDesc.prefixBytes]
    omega
  simp only [Cursor.advance_advance, Cursor.advance_data, hlen] at hprefix
  rw [EggArchive.open', Run.bind_of_ok h₁, if_neg (not_not.mpr rfl), Run.bind_of_ok h₂,
    Run.bind_of_ok h₃, Run.bind_of_ok h₄, Run.bind_of_ok (hbound _)]
  simp only [Cursor.advance_advance, Cursor.advance_data]
  rw [Run.bind_of_ok hprefix]
  simp [openRecords, prefixSet, c, Cursor.advance]

/-- The records, up to the end of the stream. -/
theorem openRecords_run (pages : CodePages) (d : ArchiveDesc) :
    (openRecords pages d.headerId d.prefixSet (d.bytes.length + 1)).run
        ⟨d.bytes, d.prefixBytes.length⟩ =
      (.ok d.archive, ⟨d.bytes, d.bytes.length⟩) := by
  let c : Cursor := ⟨d.bytes, d.prefixBytes.length⟩
  have hrest : c.rest = d.records.flatMap PlacedRecord.bytes ++ le32 sigEndMarker :=
    List.drop_left' rfl
  rw [openRecords, Run.bind_of_ok (parseRecords_of_rest pages (Nat.lt_add_one _) hrest),
    Run.bind_of_ok (Run.get_run _),
    resolveRelativePaths_of_no_parent fun e he => parentId_of_mem_entriesAt he]
  rfl

end ArchiveDesc

/-- **Round trip**: opening the bytes of a described archive gives exactly the
archive that is described. -/
theorem open_bytes (pages : CodePages) (d : ArchiveDesc) :
    (EggArchive.open' pages).run ⟨d.bytes, 0⟩ =
      (.ok d.archive, ⟨d.bytes, d.bytes.length⟩) :=
  (d.open_prefix pages _).trans (d.openRecords_run pages)

end Unegg
