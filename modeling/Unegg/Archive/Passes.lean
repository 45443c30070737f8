import Unegg.Archive.Bounds

/-!
# Unegg.Archive.Passes

Opening ends on every stream, after a number of passes that is linear in what
there is to read.

Every pass that goes on has read a signature and is paid for by its four bytes;
skipping beyond the end only leaves less to read.  The signatures that are
un-read are read a second time by another loop: the one behind the last block is
paid for by the id and size words of the entry (`entryPasses_ok`), and the one
that was looked at behind an End Marker by the pass that comes next.
-/

namespace Unegg

open Prog Bytes

/-! ## reading ends -/

/-- A read comes back: with the bytes, or with the error of a short file. -/
theorem ends_readExact (n : Nat) : Run.Ends (readExact n) := by
  intro c
  rw [readExact]
  dsimp only
  split <;> rfl

theorem ends_readU8 : Run.Ends readU8 := .bind (ends_readExact 1) fun _ => .pure _

theorem ends_readU16 : Run.Ends readU16 := .bind (ends_readExact 2) fun _ => .pure _

theorem ends_readU32 : Run.Ends readU32 := .bind (ends_readExact 4) fun _ => .pure _

theorem ends_readU64 : Run.Ends readU64 := .bind (ends_readExact 8) fun _ => .pure _

/-- A read in portions comes back. -/
theorem ends_readExactCapped (n : Nat) : Run.Ends (readExactCapped n) :=
  .bind (fun _ => rfl) fun _ => .ite (.throw _) (.pure _)

theorem ends_seekStart (p : Nat) : Run.Ends (seekStart p) := fun _ => rfl

/-- A seek comes back, whether or not it would land before the start. -/
theorem ends_seekCurrent (k : Int) : Run.Ends (seekCurrent k) := by
  intro c
  rw [seekCurrent]
  dsimp only
  split <;> rfl

theorem ends_skip (n : Nat) : Run.Ends (skip n) := ends_seekCurrent n

theorem ends_readExtraField : Run.Ends readExtraField :=
  .bind ends_readU8 fun _ =>
    .ite (.bind ends_readU32 fun _ => .pure _) (.bind ends_readU16 fun _ => .pure _)

theorem ends_skipField : Run.Ends skipField := .bind ends_readExtraField fun _ => ends_skip _

/-- Whatever lengths are tried for the payload, the attempt comes back. -/
theorem ends_readEncryptPayload (method : EncryptionMethod) (declared : Nat) :
    Run.Ends (readEncryptPayload method declared) := fun c => by
  rw [readEncryptPayload_run]
  exact ends_readExactCapped _ c

theorem ends_checkedSub (n k : Nat) : Run.Ends (checkedSub n k) := .ite (.throw _) (.pure _)

/-- A pass of the block loop comes back. -/
theorem ends_blockStep (blocks : List EggBlock) : Run.Ends (blockStep blocks) := by
  refine .bind ends_readU32 fun _ => .ite (.bind ?_ fun _ => .pure _) (.ite ?_ (.throw _))
  · refine .bind ends_readU8 fun _ => .bind ends_readU8 fun _ => .bind ends_readU32 fun _ => ?_
    refine .bind ends_readU32 fun _ => .bind ends_readU32 fun _ => .bind ends_readU32 fun _ => ?_
    exact .ite (.throw _) (.bind (fun _ => rfl) fun _ => .bind (ends_skip _) fun _ => .pure _)
  · exact .bind (ends_seekCurrent _) fun _ => .pure _

/-- A pass over the prefix comes back. -/
theorem ends_prefixStep (p : Prefix) : Run.Ends (prefixStep p) :=
  .bind ends_readU32 fun _ =>
    .ite (.bind (.bind ends_readExtraField fun _ => .bind ends_readU32 fun _ =>
      .bind ends_readU32 fun _ => .bind (ends_skip _) fun _ => .pure _) fun _ => .pure _) <|
    .ite (.bind ends_skipField fun _ => .pure _) <|
    .ite (.bind ends_skipField fun _ => .pure _) <|
    .ite (.bind ends_skipField fun _ => .pure _) <|
    .ite (.pure _) (.throw _)

section Entries

variable (pages : CodePages)

/-- A name sub-header is read or refused. -/
theorem ends_parseFilename (h : FileHeaders) : Run.Ends (parseFilename pages h) := by
  refine .bind ends_readExtraField fun ⟨flags, size⟩ => ?_
  refine .bind ?_ fun ⟨localeCode, remaining⟩ => .bind ?_ fun ⟨parentId, remaining⟩ => ?_
  · exact .ite (.bind ends_readU16 fun _ => .bind (ends_checkedSub _ _) fun _ => .pure _) (.pure _)
  · exact .ite (.bind ends_readU32 fun _ => .bind (ends_checkedSub _ _) fun _ => .pure _) (.pure _)
  · exact .bind (ends_readExactCapped _) fun _ => .pure _

/-- The encryption sub-header is read or refused. -/
theorem ends_parseEncryptInfo (h : FileHeaders) : Run.Ends (parseEncryptInfo h) := by
  refine .bind ends_readExtraField fun _ => .ite (.throw _) (.bind ends_readU8 fun b => ?_)
  cases EncryptionMethod.fromByte b with
  | unknown n => exact .throw _
  | _ => exact .bind (ends_readEncryptPayload _ _) fun _ => .pure _

theorem ends_parseWindowsFileInfo (h : FileHeaders) : Run.Ends (parseWindowsFileInfo h) :=
  .bind ends_readExtraField fun _ => .ite (.throw _) <|
    .bind ends_readU64 fun _ => .bind ends_readU8 fun _ => .bind (ends_skip _) fun _ => .pure _

theorem ends_parsePosixFileInfo (h : FileHeaders) : Run.Ends (parsePosixFileInfo h) :=
  .bind ends_readExtraField fun _ => .ite (.throw _) <|
    .bind ends_readU32 fun _ => .bind ends_readU32 fun _ => .bind ends_readU32 fun _ =>
      .bind ends_readU64 fun _ => .bind (ends_skip _) fun _ => .pure _

/-- A pass over the sub-headers of an entry comes back. -/
theorem ends_subHeaderStep (h : FileHeaders) : Run.Ends (subHeaderStep pages h) :=
  .bind ends_readU32 fun _ =>
    .ite (.bind (ends_parseFilename pages h) fun _ => .pure _) <|
    .ite (.bind ends_skipField fun _ => .pure _) <|
    .ite (.bind (ends_parseWindowsFileInfo h) fun _ => .pure _) <|
    .ite (.bind (ends_parsePosixFileInfo h) fun _ => .pure _) <|
    .ite (.bind (ends_parseEncryptInfo h) fun _ => .pure _) <|
    .ite (.pure _) (.throw _)

/-! ## what a pass takes -/

variable {pages} {c c' : Cursor}

/-- What there is to read shrinks. -/
theorem Forward.rest_le (h : Forward c c') : c'.rest.length ≤ c.rest.length := by
  rw [Cursor.length_rest, Cursor.length_rest, h.1]
  have := h.2
  omega

/-- Behind a signature there are four bytes less. -/
theorem rest_le_of_sig {sig : UInt32} {c₁ : Cursor} (h : readU32.run c = (.ok sig, c₁))
    (hf : Forward c₁ c') : 4 + c'.rest.length ≤ c.rest.length := by
  obtain ⟨hle, rfl, -⟩ := readU32_ok h
  have hrest := hf.rest_le
  rw [Cursor.rest_advance, List.length_drop] at hrest
  omega

/-- A pass by signature takes the signature at least. -/
theorem BySignature.rest_le {α : Type} {m : Parser α} (hm : BySignature m) {a : α}
    (h : m.run c = (.ok a, c')) : 4 + c'.rest.length ≤ c.rest.length := by
  obtain ⟨f, rfl, hf⟩ := hm
  obtain ⟨sig, c₁, hsig, h⟩ := Run.bind_ok.mp h
  exact rest_le_of_sig hsig (hf sig _ _ _ h)

/-- Each sub-header takes its signature at least. -/
theorem subHeaderStep_rest {hd : FileHeaders} {f : Prog.Flow FileHeaders FileHeaders}
    (h : (subHeaderStep pages hd).run c = (.ok f, c')) : 4 + c'.rest.length ≤ c.rest.length :=
  (bySignature_subHeaderStep pages hd).rest_le h

/-- Each field of the prefix takes its signature at least. -/
theorem prefixStep_rest {p : Prefix} {f : Prog.Flow Prefix Prefix}
    (h : (prefixStep p).run c = (.ok f, c')) : 4 + c'.rest.length ≤ c.rest.length :=
  (bySignature_prefixStep p).rest_le h

/-- A pass of the block loop that goes on takes its signature; the last takes nothing. -/
theorem blockStep_rest {blocks : List EggBlock} {f : Prog.Flow (List EggBlock) (List EggBlock)}
    (h : (blockStep blocks).run c = (.ok f, c')) :
    (∃ bs, f = .next bs ∧ 4 + c'.rest.length ≤ c.rest.length) ∨ (∃ bs, f = .done bs ∧ c' = c) := by
  rw [blockStep] at h
  obtain ⟨sig, c₁, hsig, h⟩ := Run.bind_ok.mp h
  split at h
  · obtain ⟨b, c₂, hblock, h⟩ := Run.bind_ok.mp h
    obtain ⟨hdata, hlt, hend⟩ := parseBlock_ok hblock
    cases h
    refine .inl ⟨_, rfl, rest_le_of_sig hsig ⟨hdata, ?_⟩⟩
    rw [hend, EggBlock.dataEnd]
    omega
  · split at h
    · obtain ⟨-, rfl, -⟩ := readU32_ok hsig
      rw [Run.bind_of_ok (seekCurrent_back c)] at h
      cases h
      exact .inr ⟨_, rfl, rfl⟩
    · simp at h

/-! ## the passes of an opening -/

variable (pages)

def subHeaderPasses (isEncrypted : Bool) (c : Cursor) : Nat :=
  Run.loopCost (fun _ _ => 0) (subHeaderStep pages) (c.data.length + 1) { isEncrypted } c

def blockPasses (c : Cursor) : Nat :=
  Run.loopCost (fun _ _ => 0) blockStep (c.data.length + 1) [] c

/-- The passes inside `parseFileEntry`. -/
def entryPasses (isEncrypted : Bool) : Cursor → Nat :=
  Run.costBehind readU32 fun _ => Run.costBehind readU64 fun _ c =>
    subHeaderPasses pages isEncrypted c +
      Run.costBehind (parseSubHeaders pages isEncrypted) (fun _ => blockPasses) c

/-- The passes inside one of the record loop. -/
def recordInnerPasses (rs : Records) : Cursor → Nat :=
  Run.costBehind readU32 fun sig c =>
    if sig = sigFileHeader then entryPasses pages rs.isEncrypted c else 0

/-- The passes of all four loops of `EggArchive.open'`. -/
def openPasses : Cursor → Nat :=
  Run.costBehind readU32 fun sig c => if sig ≠ sigEggHeader then 0 else
    c |> Run.costBehind readU16 fun _ => Run.costBehind readU32 fun _ =>
      Run.costBehind readU32 fun _ c =>
        let bound := c.data.length + 1
        Run.loopCost (fun _ _ => 0) prefixStep bound {} c +
          Run.costBehind (Run.loop prefixStep bound {})
            (fun _ => Run.loopCost (recordInnerPasses pages) (recordStep pages) bound {}) c

/-! ### the loops of an entry -/

/-- The fuel of the sub-header loop comes from the length of the file. -/
theorem parseSubHeaders_run (isEncrypted : Bool) (c : Cursor) :
    (parseSubHeaders pages isEncrypted).run c =
      (Run.loop (subHeaderStep pages) (c.data.length + 1) { isEncrypted }).run c := rfl

/-- The fuel of the block loop comes from the length of the file. -/
theorem parseBlocks_run (c : Cursor) :
    parseBlocks.run c = (Run.loop blockStep (c.data.length + 1) []).run c := rfl

/-- However the loop ends, its passes took four bytes each, but for the last. -/
theorem subHeaderPasses_le (isEncrypted : Bool) (c : Cursor) :
    4 * subHeaderPasses pages isEncrypted c ≤ c.rest.length + 4 := by
  refine Run.loopCost_le (φ := fun c => c.rest.length) (fun hd c hd' c' h => ?_) ?_ _ _ c
  · exact subHeaderStep_rest h
  · exact fun _ c => Nat.le_add_left 4 _

/-- If it ends well, all of them did. -/
theorem subHeaderPasses_ok {isEncrypted : Bool} {c c' : Cursor} {hd : FileHeaders}
    (h : (parseSubHeaders pages isEncrypted).run c = (.ok hd, c')) :
    4 * subHeaderPasses pages isEncrypted c + c'.rest.length ≤ c.rest.length := by
  rw [parseSubHeaders_run] at h
  change _ ≤ c.rest.length + 0
  refine Run.loopCost_ok (φ := fun c => c.rest.length) (fun hd c hd' c' h => ?_)
    (fun hd c hd' c' h => ?_) h
  · exact subHeaderStep_rest h
  · exact subHeaderStep_rest h

/-- The passes of the block loop took four bytes each, but for the last. -/
theorem blockPasses_le (c : Cursor) : 4 * blockPasses c ≤ c.rest.length + 4 := by
  refine Run.loopCost_le (φ := fun c => c.rest.length) (fun bs c bs' c' h => ?_) ?_ _ _ c
  · rcases blockStep_rest h with ⟨_, -, hle⟩ | ⟨_, hf, -⟩
    · exact hle
    · cases hf
  · exact fun _ c => Nat.le_add_left 4 _

/-- The signature that ends the blocks is un-read: its pass is not paid for. -/
theorem blockPasses_ok {c c' : Cursor} {blocks : List EggBlock}
    (h : parseBlocks.run c = (.ok blocks, c')) :
    4 * blockPasses c + c'.rest.length ≤ c.rest.length + 4 := by
  rw [parseBlocks_run] at h
  refine Run.loopCost_ok (φ := fun c => c.rest.length) (fun bs c bs' c' h => ?_)
    (fun bs c bs' c' h => ?_) h
  · rcases blockStep_rest h with ⟨_, -, hle⟩ | ⟨_, hf, -⟩
    · exact hle
    · cases hf
  · rcases blockStep_rest h with ⟨_, hf, -⟩ | ⟨_, -, rfl⟩
    · cases hf
    · omega

/-! ### entries -/

/-- The id and the size of an entry pay for the pass that its blocks leave over. -/
theorem entryPasses_ok {isEncrypted : Bool} {c c' : Cursor} {r : EggFileEntry × Bool}
    (h : (parseFileEntry pages isEncrypted).run c = (.ok r, c')) :
    8 + (4 * entryPasses pages isEncrypted c + c'.rest.length) ≤ c.rest.length := by
  simp only [parseFileEntry, Run.bind_ok] at h
  obtain ⟨_, c₁, h₁, _, c₂, h₂, hd, c₃, h₃, blocks, c₄, h₄, hret⟩ := h
  cases hret
  rw [entryPasses, Run.costBehind_of_ok h₁, Run.costBehind_of_ok h₂, Run.costBehind_of_ok h₃]
  have hsubs := subHeaderPasses_ok pages h₃
  have hblocks := blockPasses_ok h₄
  obtain ⟨hid, rfl, -⟩ := readU32_ok h₁
  obtain ⟨hsize, rfl⟩ := readU64_ok h₂
  simp only [Cursor.rest_advance, List.length_drop] at hsize hsubs
  omega

/-- The loops of an entry make at most a quarter as many passes as bytes are left. -/
theorem entryPasses_le (isEncrypted : Bool) (c : Cursor) :
    4 * entryPasses pages isEncrypted c ≤ c.rest.length := by
  rw [entryPasses]
  refine Run.costBehind_le fun _ c₁ h₁ => Run.costBehind_le fun _ c₂ h₂ => ?_
  have hid := rest_le_of_sig h₁ (Std.Refl.refl c₁)
  have hsize := (forward_readU64 _ _ _ h₂).rest_le
  have hsubs := subHeaderPasses_le pages isEncrypted c₂
  refine Run.add_costBehind_le (by omega) fun hd c₃ h₃ => ?_
  have hpaid := subHeaderPasses_ok pages h₃
  have hblocks := blockPasses_le c₃
  omega

/-! ### records -/

/-- A pass of the record loop that goes on pays for all that is inside it. -/
theorem recordStep_rest {rs rs' : Records} {c c' : Cursor}
    (h : (recordStep pages rs).run c = (.ok (.next rs'), c')) :
    4 * (1 + recordInnerPasses pages rs c) + c'.rest.length ≤ c.rest.length := by
  rw [recordStep] at h
  obtain ⟨sig, c₁, hsig, h⟩ := Run.bind_ok.mp h
  rw [recordInnerPasses, Run.costBehind_of_ok hsig]
  split at h
  · next hfile =>
      obtain ⟨r, c₂, hentry, h⟩ := Run.bind_ok.mp h
      cases h
      have hpaid := entryPasses_ok pages hentry
      have hread := rest_le_of_sig hsig (Std.Refl.refl c₁)
      rw [if_pos hfile]
      omega
  · next hfile =>
      rw [if_neg hfile]
      refine rest_le_of_sig hsig ?_
      split at h
      · obtain ⟨_, c₂, hskip, h⟩ := Run.bind_ok.mp h
        cases h
        exact forward_skipField _ _ _ hskip
      split at h
      · obtain ⟨_, c₂, hskip, h⟩ := Run.bind_ok.mp h
        cases h
        exact forward_skipField _ _ _ hskip
      split at h
      · rcases peekRecord_ok h with ⟨-, rfl⟩ | ⟨hdone, -⟩
        · exact Std.Refl.refl _
        · cases hdone
      · simp at h

/-- The loops inside one record make at most a quarter as many passes as bytes are left. -/
theorem recordInnerPasses_le (rs : Records) (c : Cursor) :
    4 * recordInnerPasses pages rs c ≤ c.rest.length := by
  rw [recordInnerPasses]
  refine Run.costBehind_le fun sig c₁ hsig => ?_
  have hread := rest_le_of_sig hsig (Std.Refl.refl c₁)
  have hentry := entryPasses_le pages rs.isEncrypted c₁
  split <;> omega

/-- The record loop and the loops inside it took four bytes for each pass, but for the last. -/
theorem recordPasses_le (n : Nat) (rs : Records) (c : Cursor) :
    4 * Run.loopCost (recordInnerPasses pages) (recordStep pages) n rs c ≤ c.rest.length + 4 := by
  refine Run.loopCost_le (φ := fun c => c.rest.length) (fun rs c rs' c' h => ?_)
    (fun rs c => ?_) n rs c
  · exact recordStep_rest pages h
  · have hinner := recordInnerPasses_le pages rs c
    omega

/-! ### the archive -/

/-- The header pays for the last pass of the record loop. -/
theorem openPasses_le (c : Cursor) : 4 * openPasses pages c ≤ c.rest.length := by
  rw [openPasses]
  refine Run.costBehind_le fun sig c₁ h₁ => ?_
  have hsig := rest_le_of_sig h₁ (Std.Refl.refl c₁)
  split
  · omega
  refine Run.costBehind_le fun _ c₂ h₂ => Run.costBehind_le fun _ c₃ h₃ =>
    Run.costBehind_le fun _ c₄ h₄ => ?_
  have hrest₂ := (forward_readU16 _ _ _ h₂).rest_le
  have hrest₃ := (forward_readU32 _ _ _ h₃).rest_le
  have hrest₄ := (forward_readU32 _ _ _ h₄).rest_le
  have hnext : ∀ p c p' c', (prefixStep p).run c = (.ok (.next p'), c') →
      4 * (1 + 0) + c'.rest.length ≤ c.rest.length := fun _ _ _ _ h => prefixStep_rest h
  have hprefix := Run.loopCost_le (φ := fun c => c.rest.length) hnext
    (fun _ c => Nat.le_add_left 4 _) (c₄.data.length + 1) {} c₄
  refine Run.add_costBehind_le (by omega) fun p c₅ h₅ => ?_
  have hpaid : 4 * Run.loopCost (fun _ _ => 0) prefixStep (c₄.data.length + 1) {} c₄ +
      c₅.rest.length ≤ c₄.rest.length + 0 :=
    Run.loopCost_ok (φ := fun c => c.rest.length) hnext (fun _ _ _ _ h => prefixStep_rest h) h₅
  have hrecords := recordPasses_le pages (c₄.data.length + 1) {} c₅
  omega

/-! ## opening ends -/

/-- A loop over the stream ends when each pass that goes on has read a signature. -/
theorem loop_returned {β γ : Type} {body : β → Parser (Prog.Flow β γ)}
    (hbody : ∀ b, Run.Ends (body b))
    (hnext : ∀ b c b' c', (body b).run c = (.ok (.next b'), c') →
      4 + c'.rest.length ≤ c.rest.length) {n : Nat} {b : β} {c : Cursor}
    (hn : c.rest.length < n) : ((Run.loop body n b).run c).1.returned := by
  refine Run.loop_ends (fun _ c => c.rest.length) hbody (fun b c b' c' h => ?_) hn
  have hle := hnext b c b' c' h
  omega

/-- The fuel of a loop exceeds the bytes that are left. -/
theorem length_rest_lt_bound (c : Cursor) : c.rest.length < c.data.length + 1 := by
  rw [Cursor.length_rest]
  omega

/-- The sub-header loop ends within its fuel. -/
theorem ends_parseSubHeaders (isEncrypted : Bool) :
    Run.Ends (parseSubHeaders pages isEncrypted) := fun c => by
  rw [parseSubHeaders_run]
  exact loop_returned (ends_subHeaderStep pages) (fun _ _ _ _ h => subHeaderStep_rest h)
    (length_rest_lt_bound c)

/-- The block loop ends within its fuel. -/
theorem ends_parseBlocks : Run.Ends parseBlocks := fun c => by
  rw [parseBlocks_run]
  refine loop_returned ends_blockStep (fun bs c bs' c' h => ?_) (length_rest_lt_bound c)
  rcases blockStep_rest h with ⟨_, -, hle⟩ | ⟨_, hf, -⟩
  · exact hle
  · cases hf

/-- An entry is read to its end or refused. -/
theorem ends_parseFileEntry (isEncrypted : Bool) : Run.Ends (parseFileEntry pages isEncrypted) :=
  .bind ends_readU32 fun _ => .bind ends_readU64 fun _ =>
    .bind (ends_parseSubHeaders pages isEncrypted) fun _ => .bind ends_parseBlocks fun _ => .pure _

/-- The look at the next record comes back. -/
theorem ends_peekRecord (rs : Records) : Run.Ends (peekRecord rs) := by
  refine .bind (.attempt ends_readU32) fun x => ?_
  cases x with
  | ok next => exact .bind (ends_seekCurrent _) fun _ => .ite (.pure _) (.pure _)
  | error e => exact .pure _

/-- A pass of the record loop comes back. -/
theorem ends_recordStep (rs : Records) : Run.Ends (recordStep pages rs) :=
  .bind ends_readU32 fun _ =>
    .ite (.bind (ends_parseFileEntry pages rs.isEncrypted) fun _ => .pure _) <|
    .ite (.bind ends_skipField fun _ => .pure _) <|
    .ite (.bind ends_skipField fun _ => .pure _) <|
    .ite (ends_peekRecord rs) (.throw _)

/-- Opening ends, whatever the file holds. -/
theorem ends_open : Run.Ends (EggArchive.open' pages) := by
  refine .bind ends_readU32 fun _ => .ite (.throw _) (.bind ends_readU16 fun _ => ?_)
  refine .bind ends_readU32 fun _ => .bind ends_readU32 fun _ c => ?_
  have hbound : passBound.run c = (.ok (c.data.length + 1), c) := rfl
  rw [Run.bind_of_ok hbound]
  refine Run.returned_bind ?_ fun p c₁ hprefix => Run.returned_bind ?_ fun _ _ _ => rfl
  · exact loop_returned ends_prefixStep (fun _ _ _ _ h => prefixStep_rest h)
      (length_rest_lt_bound c)
  · have hrest := (Run.Moves.loop forward_prefixStep _ _ _ _ _ hprefix).rest_le
    refine loop_returned (ends_recordStep pages) (fun rs c rs' c' h => ?_)
      (hrest.trans_lt (length_rest_lt_bound c))
    have hpaid := recordStep_rest pages h
    omega

/-- **Opening always comes back**: on any stream, whatever position it stands at,
`open` returns an archive or an error, after no more passes of its prefix, entry,
sub-header and block loops than a quarter of the bytes that are left to read. -/
theorem open_passes (c : Cursor) :
    ((EggArchive.open' pages).run c).1.returned ∧ 4 * openPasses pages c ≤ c.rest.length :=
  ⟨ends_open pages c, openPasses_le pages c⟩

/-- Two sub-headers, three blocks, one End Marker of the prefix and one of the records,
and the entry itself. -/
example : openPasses .blank ⟨twoBlocks, 0⟩ = 8 := by decide +kernel

end Entries

end Unegg
