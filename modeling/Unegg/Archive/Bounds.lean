import Unegg.Archive
import Unegg.Intervals

/-!
# Unegg.Archive.Bounds

Where the parser can be after a successful step, on any input.

Positions only grow (`Forward`), although signatures are un-read and the
payload reader probes ahead, because every un-reading undoes a read of the same
step.  The data of a block is skipped without a bounds check; what keeps it
inside the stream is that the block loop only goes on or ends after a further
signature has been read (`blockStep_ok`).
-/

namespace Unegg

open Prog Bytes Intervals

/-! ## the position only grows -/

/-- The data is the same and the position is no earlier. -/
def Forward (c c' : Cursor) : Prop := c'.data = c.data ∧ c.pos ≤ c'.pos

instance : Std.Refl Forward := ⟨fun _ => ⟨rfl, le_rfl⟩⟩

instance : IsTrans Cursor Forward :=
  ⟨fun _ _ _ h h' => ⟨h'.1.trans h.1, h.2.trans h'.2⟩⟩

/-- An advance goes forward. -/
theorem forward_advance (c : Cursor) (n : Nat) : Forward c (c.advance n) :=
  ⟨rfl, Nat.le_add_right _ _⟩

theorem forward_readU8 : Run.Moves Forward readU8 := fun c _ _ h => by
  rw [(readU8_ok h).2]
  exact forward_advance c 1

theorem forward_readU16 : Run.Moves Forward readU16 := fun c _ _ h => by
  rw [(readU16_ok h).2]
  exact forward_advance c 2

theorem forward_readU32 : Run.Moves Forward readU32 := fun c _ _ h => by
  rw [(readU32_ok h).2.1]
  exact forward_advance c 4

theorem forward_readU64 : Run.Moves Forward readU64 := fun c _ _ h => by
  rw [(readU64_ok h).2]
  exact forward_advance c 8

/-- A read in portions goes forward. -/
theorem forward_readExactCapped (n : Nat) : Run.Moves Forward (readExactCapped n) :=
  fun c _ _ h => by
    rw [(readExactCapped_ok h).2.2]
    exact forward_advance c n

/-- A skip goes forward, past the end if it has to. -/
theorem forward_skip (n : Nat) : Run.Moves Forward (skip n) := fun c _ _ h => by
  rw [skip_ok h]
  exact forward_advance c n

theorem forward_checkedSub (n k : Nat) : Run.Moves Forward (checkedSub n k) :=
  .ite (.throw _) (.pure _)

theorem forward_readExtraField : Run.Moves Forward readExtraField :=
  .bind forward_readU8 fun _ =>
    .ite (.bind forward_readU32 fun _ => .pure _) (.bind forward_readU16 fun _ => .pure _)

theorem forward_skipField : Run.Moves Forward skipField :=
  .bind forward_readExtraField fun _ => forward_skip _

/-- Reading the payload goes forward, whatever lengths are tried. -/
theorem forward_readEncryptPayload (method : EncryptionMethod) (declared : Nat) :
    Run.Moves Forward (readEncryptPayload method declared) := fun c _ _ h => by
  rw [readEncryptPayload_run] at h
  exact forward_readExactCapped _ c _ _ h

theorem forward_passBound : Run.Moves Forward passBound := by
  rintro c _ _ ⟨⟩
  exact ⟨rfl, le_rfl⟩

section Entries

variable (pages : CodePages)

/-- Behind a name the reader stands further on. -/
theorem forward_parseFilename (h : FileHeaders) : Run.Moves Forward (parseFilename pages h) := by
  refine .bind forward_readExtraField fun ⟨flags, size⟩ => ?_
  refine .bind ?_ fun ⟨localeCode, remaining⟩ => ?_
  · exact .ite (.bind forward_readU16 fun _ => .bind (forward_checkedSub _ _) fun _ => .pure _)
      (.pure _)
  refine .bind ?_ fun ⟨parentId, remaining⟩ => ?_
  · exact .ite (.bind forward_readU32 fun _ => .bind (forward_checkedSub _ _) fun _ => .pure _)
      (.pure _)
  exact .bind (forward_readExactCapped _) fun _ => .pure _

theorem forward_parseWindowsFileInfo (h : FileHeaders) :
    Run.Moves Forward (parseWindowsFileInfo h) :=
  .bind forward_readExtraField fun _ => .ite (.throw _) <|
    .bind forward_readU64 fun _ => .bind forward_readU8 fun _ =>
      .bind (forward_skip _) fun _ => .pure _

theorem forward_parsePosixFileInfo (h : FileHeaders) :
    Run.Moves Forward (parsePosixFileInfo h) :=
  .bind forward_readExtraField fun _ => .ite (.throw _) <|
    .bind forward_readU32 fun _ => .bind forward_readU32 fun _ => .bind forward_readU32 fun _ =>
      .bind forward_readU64 fun _ => .bind (forward_skip _) fun _ => .pure _

/-- The encryption sub-header is read going forward. -/
theorem forward_parseEncryptInfo (h : FileHeaders) : Run.Moves Forward (parseEncryptInfo h) := by
  refine .bind forward_readExtraField fun _ => .ite (.throw _) ?_
  refine .bind forward_readU8 fun b => ?_
  cases EncryptionMethod.fromByte b with
  | unknown n => exact .throw _
  | _ => exact .bind (forward_readEncryptPayload _ _) fun _ => .pure _

/-- A pass that reads a signature and goes on from there. -/
def BySignature {α : Type} (m : Parser α) : Prop :=
  ∃ f : UInt32 → Parser α, m = readU32 >>= f ∧ ∀ sig, Run.Moves Forward (f sig)

/-- A field behind a signature is read going forward. -/
theorem BySignature.forward {α : Type} {m : Parser α} (h : BySignature m) :
    Run.Moves Forward m := by
  obtain ⟨f, rfl, hf⟩ := h
  exact .bind forward_readU32 hf

/-- A sub-header begins with its signature. -/
theorem bySignature_subHeaderStep (h : FileHeaders) : BySignature (subHeaderStep pages h) := by
  refine ⟨_, rfl, fun sig => ?_⟩
  exact .ite (.bind (forward_parseFilename pages h) fun _ => .pure _) <|
    .ite (.bind forward_skipField fun _ => .pure _) <|
    .ite (.bind (forward_parseWindowsFileInfo h) fun _ => .pure _) <|
    .ite (.bind (forward_parsePosixFileInfo h) fun _ => .pure _) <|
    .ite (.bind (forward_parseEncryptInfo h) fun _ => .pure _) <|
    .ite (.pure _) (.throw _)

theorem forward_subHeaderStep (h : FileHeaders) : Run.Moves Forward (subHeaderStep pages h) :=
  (bySignature_subHeaderStep pages h).forward

/-- The sub-headers of an entry are read going forward. -/
theorem forward_parseSubHeaders (isEncrypted : Bool) :
    Run.Moves Forward (parseSubHeaders pages isEncrypted) :=
  .bind forward_passBound fun n => .loop (forward_subHeaderStep pages) n _

theorem forward_parseSplitInfo (p : Prefix) : Run.Moves Forward (parseSplitInfo p) :=
  .bind forward_readExtraField fun _ => .bind forward_readU32 fun _ =>
    .bind forward_readU32 fun _ => .bind (forward_skip _) fun _ => .pure _

/-- A field of the prefix begins with its signature. -/
theorem bySignature_prefixStep (p : Prefix) : BySignature (prefixStep p) := by
  refine ⟨_, rfl, fun sig => ?_⟩
  exact .ite (.bind (forward_parseSplitInfo p) fun _ => .pure _) <|
    .ite (.bind forward_skipField fun _ => .pure _) <|
    .ite (.bind forward_skipField fun _ => .pure _) <|
    .ite (.bind forward_skipField fun _ => .pure _) <|
    .ite (.pure _) (.throw _)

/-- The prefix is read going forward. -/
theorem forward_prefixStep (p : Prefix) : Run.Moves Forward (prefixStep p) :=
  (bySignature_prefixStep p).forward

end Entries

/-! ## blocks lie one after the other -/

/-- The data ranges of the blocks lie in order between two positions. -/
abbrev BlocksLaid (lo : Nat) (blocks : List EggBlock) (hi : Nat) : Prop :=
  Laid EggBlock.dataPos EggBlock.dataEnd lo blocks hi

/-- A block's data starts after the position its header was read at, and the
parser goes on right behind it. -/
theorem parseBlock_ok {c c' : Cursor} {b : EggBlock} (h : parseBlock.run c = (.ok b, c')) :
    c'.data = c.data ∧ c.pos < b.dataPos ∧ c'.pos = b.dataEnd := by
  simp only [parseBlock, Run.bind_ok] at h
  obtain ⟨_, c₁, h₁, _, c₂, h₂, _, c₃, h₃, size, c₄, h₄, _, c₅, h₅, _, c₆, h₆, h⟩ := h
  obtain ⟨-, rfl⟩ := readU8_ok h₁
  obtain ⟨-, rfl⟩ := readU8_ok h₂
  obtain ⟨-, rfl, -⟩ := readU32_ok h₃
  obtain ⟨-, rfl, -⟩ := readU32_ok h₄
  obtain ⟨-, rfl, -⟩ := readU32_ok h₅
  obtain ⟨-, rfl, -⟩ := readU32_ok h₆
  split at h
  · simp at h
  · obtain ⟨p, c₇, h₇, h⟩ := Run.bind_ok.mp h
    obtain ⟨_, c₈, h₈, h⟩ := Run.bind_ok.mp h
    cases h₇
    obtain rfl := skip_ok h₈
    cases h
    refine ⟨rfl, ?_, rfl⟩
    simp only [Cursor.advance_pos]
    omega

/-- What a successful pass of the block loop says about the stream: the
signature it read was there, so whatever was skipped before it is in bounds. -/
theorem blockStep_ok {blocks : List EggBlock} {f : Flow (List EggBlock) (List EggBlock)}
    {c c' : Cursor} (h : (blockStep blocks).run c = (.ok f, c')) :
    c'.data = c.data ∧ c.pos ≤ c.data.length ∧
      ((∃ b, f = .next (blocks ++ [b]) ∧ c.pos < b.dataPos ∧ c'.pos = b.dataEnd) ∨
        (f = .done blocks ∧ c' = c)) := by
  simp only [blockStep, Run.bind_ok] at h
  obtain ⟨sig, c₁, h₁, h⟩ := h
  obtain ⟨hle, rfl, -⟩ := readU32_ok h₁
  rw [Cursor.length_rest] at hle
  split at h
  · obtain ⟨b, c₂, h₂, h⟩ := Run.bind_ok.mp h
    obtain ⟨hdata, hlt, hend⟩ := parseBlock_ok h₂
    cases h
    rw [Cursor.advance_pos] at hlt
    exact ⟨hdata, by omega, .inl ⟨b, rfl, by omega, hend⟩⟩
  · split at h
    · rw [Run.bind_of_ok (seekCurrent_back c)] at h
      cases h
      exact ⟨rfl, by omega, .inr ⟨rfl, rfl⟩⟩
    · simp at h

/-- The blocks of an entry lie between the position their loop starts at and
the one it ends at, which is inside the stream. -/
theorem parseBlocks_ok {c c' : Cursor} {blocks : List EggBlock}
    (h : parseBlocks.run c = (.ok blocks, c')) :
    c'.data = c.data ∧ c'.pos ≤ c.data.length ∧ BlocksLaid c.pos blocks c'.pos := by
  obtain ⟨n, c₁, hn, hl⟩ := Run.bind_ok.mp h
  obtain rfl : c₁ = c := by cases hn; rfl
  refine Run.loop_invariant
    (I := fun bs s => s.data = c₁.data ∧ BlocksLaid c₁.pos bs s.pos)
    (Q := fun bs s => s.data = c₁.data ∧ s.pos ≤ c₁.data.length ∧ BlocksLaid c₁.pos bs s.pos)
    ?_ ?_ ⟨rfl, le_rfl⟩ hl
  · rintro bs s bs' s' ⟨hd, hlaid⟩ hb
    obtain ⟨hd', hle, ⟨b, hf, hlt, hend⟩ | ⟨hf, -⟩⟩ := blockStep_ok hb
    · obtain rfl : bs' = bs ++ [b] := by cases hf; rfl
      refine ⟨hd'.trans hd, hlaid.append ⟨hlt, ?_, hend.ge⟩⟩
      exact Nat.le_add_right _ _
    · cases hf
  · rintro bs s bs' s' ⟨hd, hlaid⟩ hb
    obtain ⟨-, hle, ⟨b, hf, -⟩ | ⟨hf, rfl⟩⟩ := blockStep_ok hb
    · cases hf
    · obtain rfl : bs' = bs := by cases hf; rfl
      exact ⟨hd, hd ▸ hle, hlaid⟩

/-! ## the archive -/

section Archive

variable (pages : CodePages)

/-- The blocks of an entry lie between where it begins and where it ends. -/
theorem parseFileEntry_ok {isEncrypted : Bool} {c c' : Cursor} {r : EggFileEntry × Bool}
    (h : (parseFileEntry pages isEncrypted).run c = (.ok r, c')) :
    c'.data = c.data ∧ c'.pos ≤ c.data.length ∧ BlocksLaid c.pos r.1.blocks c'.pos := by
  simp only [parseFileEntry, Run.bind_ok] at h
  obtain ⟨_, c₁, h₁, _, c₂, h₂, hd, c₃, h₃, blocks, c₄, h₄, hret⟩ := h
  have f₁ := forward_readU32 _ _ _ h₁
  have f₂ := forward_readU64 _ _ _ h₂
  have f₃ := forward_parseSubHeaders pages _ _ _ _ h₃
  obtain ⟨hdata, hle, hlaid⟩ := parseBlocks_ok h₄
  cases hret
  have hc₃ : c₃.data = c.data := f₃.1.trans (f₂.1.trans f₁.1)
  exact ⟨hdata.trans hc₃, hc₃ ▸ hle, hlaid.mono (f₁.2.trans (f₂.2.trans f₃.2)) le_rfl⟩

/-- The blocks of all entries, in entry order and then in block order. -/
def allBlocks (entries : List EggFileEntry) : List EggBlock := entries.flatMap (·.blocks)

/-- The invariant of the record loop: the blocks read so far are laid out
before the position, and inside the stream. -/
structure RecordsLaid (data : List UInt8) (rs : Records) (c : Cursor) : Prop where
  data_eq : c.data = data
  laid : ∃ hi ≤ data.length, hi ≤ c.pos ∧ BlocksLaid 0 (allBlocks rs.entries) hi

/-- Records that lie before a position lie before every later one. -/
theorem RecordsLaid.forward {data : List UInt8} {rs : Records} {c c' : Cursor}
    (h : RecordsLaid data rs c) (hf : Forward c c') : RecordsLaid data rs c' := by
  obtain ⟨hi, hlen, hpos, hlaid⟩ := h.laid
  exact ⟨hf.1.trans h.data_eq, hi, hlen, hpos.trans hf.2, hlaid⟩

/-- An entry whose blocks are laid out from the position on joins the layout. -/
theorem RecordsLaid.push {data : List UInt8} {rs : Records} {c c' : Cursor} {r : EggFileEntry × Bool}
    (h : RecordsLaid data rs c) (hr : (parseFileEntry pages rs.isEncrypted).run c = (.ok r, c')) :
    RecordsLaid data ⟨rs.entries ++ [r.1], r.2⟩ c' := by
  obtain ⟨hdata, hle, hlaid⟩ := parseFileEntry_ok pages hr
  obtain ⟨hi, hlen, hpos, hold⟩ := h.laid
  refine ⟨hdata.trans h.data_eq, c'.pos, h.data_eq ▸ hle, le_rfl, ?_⟩
  simp only [allBlocks, List.flatMap_append, List.flatMap_cons, List.flatMap_nil, List.append_nil]
  exact hold.append (hlaid.mono hpos le_rfl)

/-- Looking at the next signature either leaves the reader where it was or
finds the end of the data. -/
theorem peekRecord_ok {rs : Records} {f : Flow Records Records} {c c' : Cursor}
    (h : (peekRecord rs).run c = (.ok f, c')) :
    (f = .next rs ∧ c' = c) ∨ (f = .done rs ∧ c'.data = c.data) := by
  rw [peekRecord] at h
  have hread := readU32_run c
  split at hread
  · rw [Run.bind_of_ok (Run.attempt_of_ok hread), Run.bind_of_ok (seekCurrent_back c)] at h
    split at h
    · cases h
      exact .inl ⟨rfl, rfl⟩
    · cases h
      exact .inr ⟨rfl, rfl⟩
  · rw [Run.bind_of_ok (Run.attempt_of_err hread)] at h
    cases h
    exact .inr ⟨rfl, rfl⟩

/-- One pass of the record loop keeps the layout. -/
theorem recordStep_ok {data : List UInt8} {rs : Records} {f : Flow Records Records}
    {c c' : Cursor} (hI : RecordsLaid data rs c) (h : (recordStep pages rs).run c = (.ok f, c')) :
    match f with
    | .next rs' => RecordsLaid data rs' c'
    | .done rs' => ∃ hi ≤ data.length, BlocksLaid 0 (allBlocks rs'.entries) hi := by
  obtain ⟨sig, c₁, h₁, h⟩ := Run.bind_ok.mp h
  have hI₁ := hI.forward (forward_readU32 _ _ _ h₁)
  split at h
  · obtain ⟨r, c₂, h₂, h⟩ := Run.bind_ok.mp h
    cases h
    exact hI₁.push pages h₂
  split at h
  · obtain ⟨_, c₂, h₂, h⟩ := Run.bind_ok.mp h
    cases h
    exact hI₁.forward (forward_skipField _ _ _ h₂)
  split at h
  · obtain ⟨_, c₂, h₂, h⟩ := Run.bind_ok.mp h
    cases h
    exact hI₁.forward (forward_skipField _ _ _ h₂)
  split at h
  · rcases peekRecord_ok h with ⟨rfl, rfl⟩ | ⟨rfl, hd⟩
    · exact hI₁
    · obtain ⟨hi, hlen, -, hlaid⟩ := hI₁.laid
      exact ⟨hi, hlen, hlaid⟩
  · simp at h

/-- Resolving names leaves every block where it is. -/
theorem allBlocks_resolveRelativePaths (entries : List EggFileEntry) :
    allBlocks (resolveRelativePaths entries) = allBlocks entries := by
  have hblocks : (resolveRelativePaths entries).map (·.blocks) = entries.map (·.blocks) := by
    rw [resolveRelativePaths, List.map_map]
    conv_rhs => rw [← List.zipIdx_map_fst 0 entries, List.map_map]
    apply List.map_congr_left
    rintro ⟨e, i⟩ -
    simp only [Function.comp_apply]
    split <;> rfl
  rw [allBlocks, allBlocks, List.flatMap_def, hblocks, ← List.flatMap_def]

/-- The blocks of an opened archive are laid out inside the stream. -/
theorem open_laid {data : List UInt8} {a : EggArchive} {c' : Cursor}
    (h : (EggArchive.open' pages).run ⟨data, 0⟩ = (.ok a, c')) :
    ∃ hi ≤ data.length, BlocksLaid 0 (allBlocks a.entries) hi := by
  obtain ⟨_, c₁, h₁, h⟩ := Run.bind_ok.mp h
  split at h
  · simp at h
  simp only [Run.bind_ok] at h
  obtain ⟨_, c₂, h₂, _, c₃, h₃, _, c₄, h₄, n, c₅, h₅, p, c₆, h₆, rs, c₇, h₇, _, c₈, h₈, h⟩ := h
  have hdata : c₆.data = data :=
    (Run.Moves.loop forward_prefixStep _ _ _ _ _ h₆).1.trans <|
      (forward_passBound _ _ _ h₅).1.trans <| (forward_readU32 _ _ _ h₄).1.trans <|
      (forward_readU32 _ _ _ h₃).1.trans <| (forward_readU16 _ _ _ h₂).1.trans <|
      (forward_readU32 _ _ _ h₁).1
  cases h
  simp only [allBlocks_resolveRelativePaths]
  refine Run.loop_invariant (I := RecordsLaid data)
    (Q := fun rs _ => ∃ hi ≤ data.length, BlocksLaid 0 (allBlocks rs.entries) hi)
    (fun rs s rs' s' hI hb => recordStep_ok pages hI hb)
    (fun rs s rs' s' hI hb => recordStep_ok pages hI hb)
    ⟨hdata, 0, Nat.zero_le _, Nat.zero_le _, ?_⟩ h₇
  exact Nat.zero_le 0

/-- **Blocks are in bounds and never overlap**: on any stream that is accepted,
every block's data lies inside the stream, each block's data starts after the
end of all earlier ones, and the compressed sizes add up to no more than the
stream. -/
theorem blocks_disjoint_in_bounds {data : List UInt8} {a : EggArchive} {c' : Cursor}
    (h : (EggArchive.open' pages).run ⟨data, 0⟩ = (.ok a, c')) :
    (∀ b ∈ allBlocks a.entries, b.dataPos + b.compressedSize.toNat ≤ data.length) ∧
    (allBlocks a.entries).Pairwise
      (fun b b' => b.dataPos + b.compressedSize.toNat < b'.dataPos) ∧
    ((allBlocks a.entries).map fun b => b.compressedSize.toNat).sum ≤ data.length := by
  obtain ⟨hi, hlen, hlaid⟩ := open_laid pages h
  refine ⟨fun b hb => (hlaid.stop_le b hb).trans hlen, hlaid.pairwise, ?_⟩
  have hsize : ∀ b : EggBlock, b.dataEnd - b.dataPos = b.compressedSize.toNat := fun b => by
    rw [EggBlock.dataEnd]; omega
  have hsum := hlaid.sum_le
  simp only [hsize] at hsum
  omega

end Archive

/-- A stream with one file in two stored blocks, of one and of two bytes. -/
def twoBlocks : List UInt8 :=
  le32 sigEggHeader ++ le16 0x100 ++ le32 1 ++ le32 0 ++ le32 sigEndMarker ++
    (le32 sigFileHeader ++ le32 5 ++ le64 3 ++
      (le32 sigFilename ++ [0] ++ le16 1 ++ [0x61]) ++ le32 sigEndMarker ++
      (le32 sigBlockHeader ++ [0, 0] ++ le32 1 ++ le32 1 ++ le32 9 ++ le32 sigEndMarker ++ [0x41]) ++
      (le32 sigBlockHeader ++ [0, 0] ++ le32 2 ++ le32 2 ++ le32 9 ++ le32 sigEndMarker ++
        [0x42, 0x43])) ++ le32 sigEndMarker

/-- The archive in `twoBlocks`. -/
def twoBlocksArchive : EggArchive where
  reader := ⟨twoBlocks, twoBlocks.length⟩
  entries := [{
    fileName := "a"
    fileId := 5
    uncompressedSize := 3
    blocks := [⟨.store, 1, 1, 9, 68⟩, ⟨.store, 2, 2, 9, 91⟩]
    encryptInfo := none
    fileTime := none
    fileAttr := 0
    parentId := none }]
  isEncrypted := false
  isSolid := false
  headerId := 1
  splitInfo := none

/-- Two blocks of one file, the second right behind the first. -/
theorem twoBlocks_disjoint_in_bounds :
    (∀ b ∈ allBlocks twoBlocksArchive.entries,
      b.dataPos + b.compressedSize.toNat ≤ twoBlocks.length) ∧
    (allBlocks twoBlocksArchive.entries).Pairwise
      (fun b b' => b.dataPos + b.compressedSize.toNat < b'.dataPos) ∧
    ((allBlocks twoBlocksArchive.entries).map fun b => b.compressedSize.toNat).sum ≤
      twoBlocks.length :=
  have hopen : (EggArchive.open' .blank).run ⟨twoBlocks, 0⟩ =
      (.ok twoBlocksArchive, ⟨twoBlocks, twoBlocks.length⟩) := by decide +kernel
  blocks_disjoint_in_bounds .blank hopen

end Unegg
