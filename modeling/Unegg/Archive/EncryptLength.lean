import Unegg.Archive.Roundtrip

/-!
# Unegg.Archive.EncryptLength

How long `read_encrypt_payload` takes an encryption payload to be.

The reader looks for an End Marker behind each length the method allows.  A
declared length with an End Marker behind it is believed; a declared length
with another sub-header behind it is not, and then an End Marker that happens
to stand behind one of the other lengths wins.  So a truthful size is honoured
exactly when the payload is the last sub-header or no other length lands on an
End Marker (`parseFileEntry_encrypted_iff`).
-/

namespace Unegg

open Prog Bytes

/-! ## an entry with an encryption info anywhere among its sub-headers -/

/-- A file entry whose truthful encryption info stands between two lists of
sub-headers. -/
structure EncryptedDesc where
  fileId : UInt32
  size : UInt64
  pre : List SubHeader
  encrypt : EncryptField
  post : List SubHeader
  blocks : List BlockField

namespace EncryptedDesc

/-- The sub-headers, up to the End Marker. -/
def subBytes (d : EncryptedDesc) : List UInt8 :=
  subHeaderBytes d.pre ++ (d.encrypt.bytes ++ subHeaderBytes d.post)

/-- The bytes of the entry after its signature. -/
def bytes (d : EncryptedDesc) : List UInt8 :=
  le32 d.fileId ++ (le64 d.size ++ (d.subBytes ++ (le32 sigEndMarker ++ blockBytes d.blocks)))

/-- Everything from the payload on, when `r` follows the entry. -/
def fromPayload (d : EncryptedDesc) (r : List UInt8) : List UInt8 :=
  d.encrypt.payload ++ (subHeaderBytes d.post ++ (le32 sigEndMarker ++ (blockBytes d.blocks ++ r)))

/-- What the sub-headers say, with the payload as it was written. -/
def headers (pages : CodePages) (isEncrypted : Bool) (d : EncryptedDesc) : FileHeaders :=
  applyAll pages ((applyAll pages { isEncrypted } d.pre).withEncrypt d.encrypt) d.post

/-- The entry that is described, when its bytes stand at position `p`. -/
def entry (pages : CodePages) (p : Nat) (d : EncryptedDesc) : EggFileEntry :=
  entryOf d.fileId d.size (d.headers pages false)
    (blocksAt (p + (12 + (d.subBytes.length + 4))) d.blocks)

end EncryptedDesc

/-- The encryption flag going in does not show in what the sub-headers say,
the flag itself apart. -/
theorem entryOf_headers (pages : CodePages) (isEncrypted : Bool) (d : EncryptedDesc)
    (blocks : List EggBlock) :
    entryOf d.fileId d.size (d.headers pages isEncrypted) blocks =
      entryOf d.fileId d.size (d.headers pages false) blocks := by
  simp only [entryOf, EncryptedDesc.headers, applyAll_fileName, applyAll_parentId,
    applyAll_fileTime, applyAll_fileAttr, applyAll_encrypt, FileHeaders.withEncrypt]

/-! ## which length is taken -/

/-- Where a sub-header starts there is no End Marker. -/
theorem endMarkerAt_subHeader (bs : List UInt8) (s : SubHeader) (r : List UInt8) :
    endMarkerAt (bs ++ (s.bytes ++ r)) bs.length = false := by
  have hsig : ∃ sig rest, sig ≠ sigEndMarker ∧ s.bytes = le32 sig ++ rest := by
    cases s with
    | filename f => exact ⟨sigFilename, f.bytes, by decide, rfl⟩
    | comment f => exact ⟨sigComment, f.bytes, by decide, rfl⟩
    | windows f => exact ⟨sigWindowsFileInfo, f.bytes, by decide, rfl⟩
    | posix f => exact ⟨sigPosixFileInfo, f.bytes, by decide, rfl⟩
  obtain ⟨sig, rest, hne, hs⟩ := hsig
  rw [endMarkerAt, drop_append_of_length rfl, hs, List.append_assoc,
    take_append_of_length (length_le32 _), decide_eq_false_iff_not, le32_injective.eq_iff]
  exact hne

/-- An untrusted declared length is kept exactly when no other length lands. -/
theorem payloadLength_eq_iff {rest : List UInt8} {method : EncryptionMethod} {declared : Nat}
    (h : endMarkerAt rest declared = false) :
    payloadLength rest method declared = declared ↔
      ∀ len ∈ method.payloadLengths, len ≠ declared → endMarkerAt rest len = false := by
  rw [payloadLength, h, Bool.and_false]
  simp only [Bool.false_eq_true, if_false]
  constructor
  · intro hfind len hlen hne
    cases hf : method.payloadLengths.find? (endMarkerAt rest) with
    | none => simpa using List.find?_eq_none.mp hf len hlen
    | some k =>
        rw [hf, Option.getD_some] at hfind
        have hk := List.find?_some hf
        rw [hfind, h] at hk
        contradiction
  · intro hnone
    have hfind : method.payloadLengths.find? (endMarkerAt rest) = none := by
      rw [List.find?_eq_none]
      intro len hlen
      by_cases heq : len = declared
      · rw [heq, h]
        simp
      · rw [hnone len hlen heq]
        simp
    rw [hfind]
    rfl

/-- A length other than the declared one was taken for the End Marker behind it. -/
theorem endMarkerAt_payloadLength {rest : List UInt8} {method : EncryptionMethod}
    {declared : Nat} (h : payloadLength rest method declared ≠ declared) :
    endMarkerAt rest (payloadLength rest method declared) = true := by
  rw [payloadLength] at h ⊢
  split
  · next ht =>
      rw [if_pos ht] at h
      exact absurd rfl h
  · next ht =>
      rw [if_neg ht] at h
      cases hf : method.payloadLengths.find? (endMarkerAt rest) with
      | none =>
          rw [hf] at h
          exact absurd rfl h
      | some k =>
          rw [Option.getD_some]
          exact List.find?_some hf

/-- An End Marker at `len` splits the bytes around it. -/
theorem append_of_endMarkerAt {rest : List UInt8} {len : Nat} (h : endMarkerAt rest len = true) :
    rest = rest.take len ++ (le32 sigEndMarker ++ rest.drop (len + 4)) ∧
      (rest.take len).length = len := by
  rw [endMarkerAt, decide_eq_true_iff] at h
  constructor
  · rw [← h, ← List.drop_drop, List.take_append_drop, List.take_append_drop]
  · have hlen := congrArg List.length h
    rw [List.length_take, List.length_drop, length_le32] at hlen
    rw [List.length_take]
    omega

/-! ## what the entry reader makes of it -/

section Reading

variable (pages : CodePages) {c : Cursor} {r : List UInt8}

/-- When another length lands on an End Marker, the sub-headers end there, and
the payload is what stands before it. -/
theorem parseSubHeaders_landing {isEncrypted : Bool} {pre : List SubHeader} {f : EncryptField}
    {len : Nat} (h : c.rest = subHeaderBytes pre ++ (f.head ++ r))
    (hlen : payloadLength r f.method f.payload.length = len) (hmark : endMarkerAt r len = true) :
    ∃ hd c', (parseSubHeaders pages isEncrypted).run c = (.ok hd, c') ∧
      hd.encryptInfo = some ⟨f.method, r.take len⟩ := by
  obtain ⟨hsplit, htake⟩ := append_of_endMarkerAt hmark
  obtain ⟨k, hk, hrun⟩ := parseSubHeaders_peel pages isEncrypted h
  have hhead := Cursor.rest_advance_of_append h rfl
  have hpay := Cursor.rest_advance_of_append hhead rfl
  rw [hsplit] at hpay
  obtain ⟨h₁, hrest⟩ := readExactCapped_of_rest hpay htake
  obtain ⟨j, rfl⟩ : ∃ j, k = j + 1 := by
    have : 0 < f.head.length := by simp [EncryptField.head]
    rw [List.length_append] at hk
    exact ⟨k - 1, by omega⟩
  have hstep := parseEncryptInfo_run pages (applyAll pages { isEncrypted } pre) hhead
  rw [hlen, Run.bind_of_ok h₁, Run.pure_run] at hstep
  rw [Run.loop_next hstep, subHeaders_end pages hrest] at hrun
  exact ⟨_, _, hrun, rfl⟩

/-- The encryption info of an entry that was read is the one its sub-headers set. -/
theorem parseFileEntry_encryptInfo {isEncrypted flag : Bool} {e : EggFileEntry} {c' : Cursor}
    {hd : FileHeaders} {c₁ : Cursor}
    (hsubs : (parseSubHeaders pages isEncrypted).run (c.advance 12) = (.ok hd, c₁))
    (h : (parseFileEntry pages isEncrypted).run c = (.ok (e, flag), c')) :
    e.encryptInfo = hd.encryptInfo := by
  rw [parseFileEntry, Run.bind_ok] at h
  obtain ⟨fileId, c₂, h₂, h⟩ := h
  rw [Run.bind_ok] at h
  obtain ⟨size, c₃, h₃, h⟩ := h
  obtain ⟨-, rfl, -⟩ := readU32_ok h₂
  obtain ⟨-, rfl⟩ := readU64_ok h₃
  rw [Cursor.advance_advance, Run.bind_of_ok hsubs, Run.bind_ok] at h
  obtain ⟨blocks, c₄, -, h⟩ := h
  simp only [Run.pure_run, Prod.mk.injEq, Outcome.ok.injEq] at h
  rw [← h.1.1]

/-- **A truthful size is honoured exactly when nothing competes with it**: the
entry is read as it is described if and only if its encryption info is the
last sub-header, or none of the method's other payload lengths has an End
Marker behind it. -/
theorem parseFileEntry_encrypted_iff (d : EncryptedDesc) (isEncrypted : Bool) {sig : UInt32}
    (hsig : IsRecordSig sig) (h : c.rest = d.bytes ++ (le32 sig ++ r)) :
    (parseFileEntry pages isEncrypted).run c =
        (.ok (d.entry pages c.pos, true), c.advance d.bytes.length) ↔
      d.post = [] ∨ ∀ len ∈ d.encrypt.method.payloadLengths, len ≠ d.encrypt.payload.length →
        endMarkerAt (d.fromPayload (le32 sig ++ r)) len = false := by
  have hrest : c.rest = le32 d.fileId ++ (le64 d.size ++ (d.subBytes ++
      entryTail d.blocks sig r)) := by
    rw [h]
    simp [EncryptedDesc.bytes, entryTail]
  have hsubs : (c.advance 12).rest = d.subBytes ++ entryTail d.blocks sig r := by
    rw [← List.append_assoc] at hrest
    exact Cursor.rest_advance_of_append hrest (by simp)
  have hfrom : d.subBytes ++ entryTail d.blocks sig r =
      subHeaderBytes d.pre ++ (d.encrypt.head ++ d.fromPayload (le32 sig ++ r)) := by
    simp [EncryptedDesc.subBytes, EncryptField.bytes, EncryptedDesc.fromPayload, entryTail]
  -- the run succeeds as described when the length is taken as declared
  have hgood : payloadLength (d.fromPayload (le32 sig ++ r)) d.encrypt.method
      d.encrypt.payload.length = d.encrypt.payload.length →
      (parseFileEntry pages isEncrypted).run c =
        (.ok (d.entry pages c.pos, true), c.advance d.bytes.length) := by
    intro hlen
    have hcat : d.subBytes ++ entryTail d.blocks sig r = subHeaderBytes d.pre ++
        (d.encrypt.bytes ++ (subHeaderBytes d.post ++ (le32 sigEndMarker ++
          (blockBytes d.blocks ++ (le32 sig ++ r))))) := by
      simp [EncryptedDesc.subBytes, entryTail]
    have hrun := parseSubHeaders_encrypt_of_rest pages isEncrypted d.pre d.post
      (hsubs.trans hcat) hlen
    rw [Cursor.advance_advance] at hrun
    have hflag : (d.headers pages isEncrypted).isEncrypted = true :=
      (applyAll_encrypt pages _ d.post).2
    have hbytes : 12 + (d.subBytes.length + 4) + (blockBytes d.blocks).length = d.bytes.length := by
      simp [EncryptedDesc.bytes]
      omega
    rw [parseFileEntry_of_rest pages hsig hrest hrun, ← EncryptedDesc.headers, entryOf_headers,
      hflag, hbytes]
    rfl
  constructor
  · intro hparse
    by_contra hcond
    rw [not_or] at hcond
    obtain ⟨hpost, hother⟩ := hcond
    obtain ⟨s, post, hs⟩ := List.exists_cons_of_ne_nil hpost
    have hmark : endMarkerAt (d.fromPayload (le32 sig ++ r)) d.encrypt.payload.length = false := by
      rw [EncryptedDesc.fromPayload, hs, subHeaderBytes, List.flatMap_cons, List.append_assoc]
      exact endMarkerAt_subHeader _ s _
    have hne := mt (payloadLength_eq_iff hmark).mp hother
    have hland := endMarkerAt_payloadLength hne
    obtain ⟨hd, c₁, hrun, hinfo⟩ := parseSubHeaders_landing pages (hsubs.trans hfrom) rfl hland
    have hentry := parseFileEntry_encryptInfo pages hrun hparse
    have hwritten : (d.entry pages c.pos).encryptInfo = some d.encrypt.info :=
      (applyAll_encrypt pages _ d.post).1
    rw [hwritten, hinfo, Option.some.injEq, EncryptField.info, EncryptInfo.mk.injEq] at hentry
    have hlen := congrArg List.length hentry.2
    rw [(append_of_endMarkerAt hland).2] at hlen
    exact hne hlen.symm
  · rintro (hpost | hother)
    · apply hgood
      rw [EncryptedDesc.fromPayload, hpost]
      exact d.encrypt.payloadLength_of_last _
    · apply hgood
      cases hmark : endMarkerAt (d.fromPayload (le32 sig ++ r)) d.encrypt.payload.length with
      | true => exact d.encrypt.payloadLength_of_lands hmark
      | false => exact (payloadLength_eq_iff hmark).mpr hother

end Reading

/-- An AES-128 entry without authentication footer, with a comment behind its
encryption info. -/
def shortPayload (comment : List UInt8) (fits : FitsField 0 comment.length) : EncryptedDesc where
  fileId := 7
  size := 0
  pre := []
  encrypt := ⟨0, 1, List.replicate 10 0xAA, by decide, by decide⟩
  post := [.comment ⟨0, comment, fits⟩]
  blocks := []

/-- Before a comment of one byte the short payload is honoured. -/
theorem shortPayload_honoured :
    let d := shortPayload [0] (by decide)
    (parseFileEntry .blank false).run ⟨d.bytes ++ le32 sigEndMarker, 0⟩ =
      (.ok (d.entry .blank 0, true),
        (⟨d.bytes ++ le32 sigEndMarker, 0⟩ : Cursor).advance d.bytes.length) :=
  (parseFileEntry_encrypted_iff .blank (shortPayload [0] (by decide)) false
    (c := ⟨(shortPayload [0] (by decide)).bytes ++ le32 sigEndMarker, 0⟩) (r := [])
    (.inr (.inr (.inl rfl))) (by decide +kernel)).mpr (.inr (by decide +kernel))

/-- Before a comment of three bytes the payload is taken for the one with a
footer: the comment becomes part of it. -/
theorem shortPayload_taken_long :
    let d := shortPayload [1, 2, 3] (by decide)
    (parseFileEntry .blank false).run ⟨d.bytes ++ le32 sigEndMarker, 0⟩ ≠
        (.ok (d.entry .blank 0, true),
          (⟨d.bytes ++ le32 sigEndMarker, 0⟩ : Cursor).advance d.bytes.length) ∧
      ∃ e c', (parseFileEntry .blank false).run
          ⟨d.bytes ++ le32 sigEndMarker, 0⟩ = (.ok (e, true), c') ∧
        e.encryptInfo = some ⟨.aes128, d.encrypt.payload ++ subHeaderBytes d.post⟩ := by
  refine ⟨by decide +kernel, ?_⟩
  let d := shortPayload [1, 2, 3] (by decide)
  exact ⟨{ d.entry .blank 0 with
    encryptInfo := some ⟨.aes128, d.encrypt.payload ++ subHeaderBytes d.post⟩ },
    (⟨d.bytes ++ le32 sigEndMarker, 0⟩ : Cursor).advance d.bytes.length, by decide +kernel, rfl⟩

end Unegg
