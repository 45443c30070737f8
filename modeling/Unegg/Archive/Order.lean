import Unegg.Archive.Ahead
import Unegg.Archive.Roundtrip

/-!
# Unegg.Archive.Order

The order of the sub-headers of a file entry does not matter.

Sub-headers with at most one name, one Windows and one POSIX info set each
field of the entry at most once by name, and the two infos combine their times
and attributes the same way round in any order (`applyAll_perm`).  What comes
behind them stands at the same place (`parseFileEntry_perm`).
-/

namespace Unegg

open Prog Bytes Run

/-- At most one name, one Windows info and one POSIX info, and any comments. -/
structure AtMostOnce (subs : List SubHeader) : Prop where
  filename : (subs.filterMap SubHeader.filename?).length ≤ 1
  windows : (subs.filterMap SubHeader.windows?).length ≤ 1
  posix : (subs.filterMap SubHeader.posix?).length ≤ 1

namespace SubHeader

/-- The name among some sub-headers. -/
def nameOf (subs : List SubHeader) : Option FilenameField := (subs.filterMap filename?).head?

/-- The Windows info among some sub-headers. -/
def windowsOf (subs : List SubHeader) : Option WindowsField := (subs.filterMap windows?).head?

/-- The POSIX info among some sub-headers. -/
def posixOf (subs : List SubHeader) : Option PosixField := (subs.filterMap posix?).head?

end SubHeader

open SubHeader

theorem toList_head?_of_length_le_one {α : Type} {as : List α} (h : as.length ≤ 1) :
    as = as.head?.toList := by
  match as with
  | [] => rfl
  | [a] => rfl
  | _ :: _ :: _ => simp at h

section Perm

variable {pages : CodePages} {subs subs' : List SubHeader}

theorem head?_eq_of_perm {α : Type} {as bs : List α} (h : as.Perm bs) (hone : as.length ≤ 1) :
    as.head? = bs.head? := by
  rw [toList_head?_of_length_le_one hone] at h ⊢
  rw [eq_of_perm_toList h.symm]

/-- The infos are the same in any order. -/
theorem AtMostOnce.infos_perm (h : AtMostOnce subs) (hperm : subs.Perm subs') :
    nameOf subs' = nameOf subs ∧ windowsOf subs' = windowsOf subs ∧
      posixOf subs' = posixOf subs :=
  ⟨(head?_eq_of_perm (hperm.filterMap _) h.filename).symm,
    (head?_eq_of_perm (hperm.filterMap _) h.windows).symm,
    (head?_eq_of_perm (hperm.filterMap _) h.posix).symm⟩

theorem AtMostOnce.perm (h : AtMostOnce subs) (hperm : subs.Perm subs') : AtMostOnce subs' where
  filename := (hperm.filterMap _).length_eq ▸ h.filename
  windows := (hperm.filterMap _).length_eq ▸ h.windows
  posix := (hperm.filterMap _).length_eq ▸ h.posix

/-- What sub-headers leave behind, by what is among them. -/
theorem AtMostOnce.applyAll (h : AtMostOnce subs) (isEncrypted : Bool) :
    applyAll pages { isEncrypted } subs = {
      fileName := ((nameOf subs).map (FilenameField.fileName pages)).getD ""
      fileTime := ((windowsOf subs).map WindowsField.time).or
        ((posixOf subs).map fun f => unixToFiletime f.mtime)
      fileAttr := ((windowsOf subs).map WindowsField.attr).getD 0 |||
        ((posixOf subs).map PosixField.attr).getD 0
      parentId := (nameOf subs).bind fun f => f.parent none
      isEncrypted } := by
  have hname := applyAll_fileName pages { isEncrypted } subs
  have hparent := applyAll_parentId pages { isEncrypted } subs
  have htime := applyAll_fileTime pages { isEncrypted } subs
  have hattr := applyAll_fileAttr pages { isEncrypted } subs
  obtain ⟨hencrypt, hflag⟩ := applyAll_encrypt pages { isEncrypted } subs
  rw [toList_head?_of_length_le_one h.filename] at hname hparent
  rw [toList_head?_of_length_le_one h.windows, toList_head?_of_length_le_one h.posix] at htime hattr
  rcases happly : Unegg.applyAll pages { isEncrypted } subs with
    ⟨fileName, fileTime, fileAttr, encryptInfo, parentId, flag⟩
  rw [happly] at hname hparent htime hattr hencrypt hflag
  dsimp only at hname hparent htime hattr hencrypt hflag
  subst hname hparent htime hattr hencrypt hflag
  rw [nameOf, windowsOf, posixOf]
  cases (subs.filterMap filename?).head? <;> cases (subs.filterMap windows?).head? <;>
    cases (subs.filterMap posix?).head? <;> simp

/-- **Sub-headers commute**, two infos that write the same fields included. -/
theorem applyAll_perm (h : AtMostOnce subs) (hperm : subs.Perm subs') (isEncrypted : Bool) :
    applyAll pages { isEncrypted } subs' = applyAll pages { isEncrypted } subs := by
  obtain ⟨hname, hwindows, hposix⟩ := h.infos_perm hperm
  rw [h.applyAll, (h.perm hperm).applyAll, hname, hwindows, hposix]

end Perm

/-- A file entry, after its signature: id and size, the sub-headers up to the End
Marker, and whatever follows. -/
def fileEntryBytes (fileId : UInt32) (size : UInt64) (subs : List SubHeader) (tail : List UInt8) :
    List UInt8 :=
  le32 fileId ++ (le64 size ++ (subHeaderBytes subs ++ (le32 sigEndMarker ++ tail)))

/-- The reader in front of a file entry. -/
def beforeEntry (before : List UInt8) (fileId : UInt32) (size : UInt64) (subs : List SubHeader)
    (tail : List UInt8) : Cursor :=
  ⟨before ++ fileEntryBytes fileId size subs tail, before.length⟩

/-- An entry is what its sub-headers leave, and its blocks. -/
theorem parseFileEntry_of_subs (pages : CodePages) (isEncrypted : Bool) (fileId : UInt32)
    (size : UInt64) (subs : List SubHeader) (before tail : List UInt8) :
    let c := beforeEntry before fileId size subs tail
    (parseFileEntry pages isEncrypted).run c =
      (do
        let blocks ← parseBlocks
        return (entryOf fileId size (applyAll pages { isEncrypted } subs) blocks, isEncrypted) :
          Parser _).run (c.advance (12 + ((subHeaderBytes subs).length + 4))) := by
  intro c
  have hrest : c.rest = fileEntryBytes fileId size subs tail := List.drop_left' rfl
  rw [fileEntryBytes] at hrest
  obtain ⟨h₁, hrest⟩ := readU32_of_rest hrest
  obtain ⟨h₂, hrest⟩ := readU64_of_rest hrest
  have h₃ : (parseSubHeaders pages isEncrypted).run _ = _ := parseSubHeaders_of_rest pages hrest
  rw [parseFileEntry, bind_of_ok h₁, bind_of_ok h₂, bind_of_ok h₃,
    (applyAll_encrypt pages { isEncrypted } subs).2]
  simp only [Cursor.advance_advance]
  rfl

theorem sameAhead_behindSubs {subs subs' : List SubHeader} (hperm : subs.Perm subs')
    (fileId : UInt32) (size : UInt64) (before tail : List UInt8) :
    SameAhead
      ((beforeEntry before fileId size subs tail).advance (12 + ((subHeaderBytes subs).length + 4)))
      ((beforeEntry before fileId size subs' tail).advance
        (12 + ((subHeaderBytes subs').length + 4))) := by
  have hlen : (subHeaderBytes subs').length = (subHeaderBytes subs).length :=
    (hperm.symm.flatMap_right SubHeader.bytes).length_eq
  have hrest : ∀ subs : List SubHeader, ((beforeEntry before fileId size subs tail).advance
      (12 + ((subHeaderBytes subs).length + 4))).rest = tail := by
    intro subs
    have h : (beforeEntry before fileId size subs tail).rest =
        (le32 fileId ++ (le64 size ++ (subHeaderBytes subs ++ le32 sigEndMarker))) ++ tail := by
      have h₀ : (beforeEntry before fileId size subs tail).rest =
          fileEntryBytes fileId size subs tail := List.drop_left' rfl
      rw [h₀, fileEntryBytes]
      simp only [List.append_assoc]
    refine Cursor.rest_advance_of_append h ?_
    simp only [List.length_append, length_le32, length_le64]
    omega
  refine ⟨?_, ?_, ?_⟩
  · rw [Cursor.advance_pos, Cursor.advance_pos, hlen]
    rfl
  · rw [hrest, hrest]
  · simp only [Cursor.advance_data, beforeEntry, fileEntryBytes, List.length_append, hlen]

/-- The directory flag is the union of those of the two infos. -/
theorem isDirectory_or (windows : Option WindowsField) (posix : Option PosixField) :
    decide (((windows.map WindowsField.attr).getD 0 ||| (posix.map PosixField.attr).getD 0) &&&
        attrDirectory ≠ 0) =
      (windows.any (fun f => f.attr &&& attrDirectory ≠ 0) ||
        posix.any fun f => f.mode &&& sIfmt = sIfdir) := by
  have hposix : ∀ f : PosixField, f.attr &&& attrDirectory = 0 ↔ f.mode &&& sIfmt ≠ sIfdir := by
    intro f
    rw [PosixField.attr]
    split
    · next h => exact iff_of_false (by decide) (not_not.mpr h)
    · next h => exact iff_of_true (by decide) h
  have hdistrib : ∀ a b : UInt8, (a ||| b) &&& attrDirectory =
      a &&& attrDirectory ||| b &&& attrDirectory := fun a b =>
    UInt8.toBitVec_inj.mp BitVec.and_or_distrib_right
  rw [hdistrib, Bool.eq_iff_iff, decide_eq_true_iff, Bool.or_eq_true, ne_eq,
    UInt8.or_eq_zero_iff, not_and_or]
  refine or_congr ?_ ?_
  · cases windows <;> simp
  · cases posix <;> simp [hposix]

/-- **The order of the sub-headers does not matter**: an entry whose sub-headers
are at most one name, Windows and POSIX info and any comments is read the same
whatever their order, its blocks included, or fails in the same way.  The time
of the Windows info wins, and the directory flags of the infos are united. -/
theorem parseFileEntry_perm (pages : CodePages) (isEncrypted : Bool) (fileId : UInt32)
    (size : UInt64) (before tail : List UInt8) {subs subs' : List SubHeader}
    (h : AtMostOnce subs) (hperm : subs.Perm subs') :
    let r := (parseFileEntry pages isEncrypted).run (beforeEntry before fileId size subs tail)
    let r' := (parseFileEntry pages isEncrypted).run (beforeEntry before fileId size subs' tail)
    r'.1 = r.1 ∧ r'.2.pos = r.2.pos ∧ ∀ entry flag, r.1 = .ok (entry, flag) →
      flag = isEncrypted ∧ entry.fileId = fileId ∧ entry.uncompressedSize = size ∧
      entry.encryptInfo = none ∧
      entry.fileName = ((nameOf subs).map (FilenameField.fileName pages)).getD "" ∧
      entry.parentId = (nameOf subs).bind (fun f => f.parent none) ∧
      entry.fileTime = ((windowsOf subs).map WindowsField.time).or
        ((posixOf subs).map fun f => unixToFiletime f.mtime) ∧
      entry.fileAttr = ((windowsOf subs).map WindowsField.attr).getD 0 |||
        ((posixOf subs).map PosixField.attr).getD 0 ∧
      entry.isDirectory = ((windowsOf subs).any (fun f => f.attr &&& attrDirectory ≠ 0) ||
        (posixOf subs).any fun f => f.mode &&& sIfmt = sIfdir) := by
  intro r r'
  have halike : Alike (fun _ => SameAhead) SameAhead r r' := by
    simp only [r, r', parseFileEntry_of_subs, applyAll_perm h hperm]
    exact .bind (alike_parseBlocks (sameAhead_behindSubs hperm fileId size before tail))
      fun _ _ _ h => .ok h
  refine ⟨halike.outcome.symm, halike.related.pos.symm, fun entry flag hok => ?_⟩
  obtain ⟨c, hc⟩ : ∃ c, r = (.ok (entry, flag), c) := ⟨r.2, Prod.ext hok rfl⟩
  simp only [r, parseFileEntry_of_subs] at hc
  obtain ⟨blocks, c₁, -, hc⟩ := bind_ok.mp hc
  simp only [pure_run, Prod.mk.injEq, Outcome.ok.injEq] at hc
  obtain ⟨⟨rfl, rfl⟩, -⟩ := hc
  rw [h.applyAll]
  exact ⟨rfl, rfl, rfl, rfl, rfl, rfl, rfl, rfl, isDirectory_or _ _⟩

/-- A name, the two infos and a comment. -/
def orderSample : List SubHeader :=
  [.windows ⟨0, 7, 0x20, [0xEE], by decide⟩, .comment ⟨0, [1, 2], by decide⟩,
    .filename ⟨0x10, 0, 5, [0x61], by decide⟩, .posix ⟨0x01, 0x41ED, 0, 0, 1, [], by decide⟩]

/-- The sample read back to front: a directory with the time of the Windows info. -/
theorem parseFileEntry_perm_reverse : ∃ entry, entry.isDirectory = true ∧
    entry.fileTime = some 7 ∧ ∀ subs ∈ [orderSample, orderSample.reverse],
      ((parseFileEntry CodePages.blank false).run
        (beforeEntry [] 3 0 subs (le32 sigEndMarker))).1 = .ok (entry, false) := by
  have hone : AtMostOnce orderSample := ⟨by decide, by decide, by decide⟩
  obtain ⟨hsame, -, -⟩ := parseFileEntry_perm CodePages.blank false 3 0 [] (le32 sigEndMarker)
    hone (List.reverse_perm orderSample).symm
  refine ⟨⟨"a", 3, 0, [], none, some 7, 0xA0, some 5⟩, by decide, rfl, ?_⟩
  have hfirst : ((parseFileEntry CodePages.blank false).run
      (beforeEntry [] 3 0 orderSample (le32 sigEndMarker))).1 =
        .ok (⟨"a", 3, 0, [], none, some 7, 0xA0, some 5⟩, false) := by decide +kernel
  simp only [List.forall_mem_cons, List.not_mem_nil, false_implies, implies_true, and_true]
  exact ⟨hfirst, hsame.trans hfirst⟩

end Unegg
