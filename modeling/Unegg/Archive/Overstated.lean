import Unegg.Archive.Ahead
import Unegg.Archive.Roundtrip

/-!
# Unegg.Archive.Overstated

Encryption infos that declare more than they have.

A payload of the longest length of its method, in front of the End Marker, is
found whatever larger size is declared (`overstatedStep_of_rest`).  Behind it the
reader stands where it would have stood, so one overstated size changes nothing
of what is opened, whatever follows (`open_overstated_one`), and neither do
several (`open_overstated`).
-/

namespace Unegg

open Prog Bytes Run

/-! ## layout -/

/-- The payload has the longest length of the method. -/
def EncryptField.Longest (f : EncryptField) : Prop :=
  f.method.payloadLengths.head? = some f.payload.length

/-- The field with `surplus` added to its declared size. -/
def EncryptField.overstated (surplus : Nat) (f : EncryptField) : List UInt8 :=
  le32 sigEncryptInfo ++ (extraField f.flags (1 + (f.payload.length + surplus)) ++
    (f.methodByte :: f.payload))

/-- The entry with its encryption info, if it has one, overstated. -/
def EntryDesc.overstated (surplus : Nat) (e : EntryDesc) : List UInt8 :=
  le32 sigFileHeader ++ (le32 e.fileId ++ (le64 e.size ++ (e.subs.flatMap SubHeader.bytes ++
    ((e.encrypt.map (EncryptField.overstated surplus)).getD [] ++
      (le32 sigEndMarker ++ e.blocks.flatMap BlockField.bytes)))))

def Record.overstated (surplus : Nat) : Record → List UInt8
  | .entry e _ => e.overstated surplus
  | .comment f => (Record.comment f).bytes
  | .dummy f => (Record.dummy f).bytes

def PlacedRecord.overstated (surplus : Nat) (r : PlacedRecord) : List UInt8 :=
  (if r.boundary then le32 sigEndMarker else []) ++ r.record.overstated surplus

/-- The encryption info of a record. -/
def Record.encrypt : Record → Option EncryptField
  | .entry e _ => e.encrypt
  | .comment _ | .dummy _ => none

/-- The encryption info of a record, if it has one, carries the longest payload
of its method, and its size field has room for the surplus. -/
def PlacedRecord.MayOverstate (r : PlacedRecord) (surplus : Nat) : Prop :=
  ∀ f ∈ r.record.encrypt, f.Longest ∧ FitsField f.flags (1 + (f.payload.length + surplus))

/-- The archive with a surplus for each of its records. -/
def ArchiveDesc.overstated (d : ArchiveDesc) (surplus : Nat → Nat) : List UInt8 :=
  d.prefixBytes ++ (d.records.zipIdx.flatMap (fun r => r.1.overstated (surplus r.2)) ++
    le32 sigEndMarker)

/-- What was opened, but for the bytes it was read from. -/
def EggArchive.unread (a : EggArchive) : EggArchive := { a with reader := ⟨[], a.reader.pos⟩ }

/-! ## the payload is found -/

theorem length_extraField (flags : UInt8) (n m : Nat) :
    (extraField flags n).length = (extraField flags m).length := by
  rw [extraField, extraField]
  split <;> simp

namespace EncryptField

variable (f : EncryptField) (surplus : Nat)

theorem overstated_zero : f.overstated 0 = f.bytes := by
  simp [overstated, bytes, head]

theorem length_overstated : (f.overstated surplus).length = f.bytes.length := by
  simp only [overstated, bytes, head, List.length_append, List.length_cons, List.length_nil,
    length_extraField f.flags (1 + (f.payload.length + surplus)) (1 + f.payload.length)]
  omega

variable {f}

/-- No length of the method is longer. -/
theorem Longest.le (h : f.Longest) {len : Nat} (hlen : len ∈ f.method.payloadLengths) :
    len ≤ f.payload.length := by
  rw [Longest] at h
  generalize f.method = m at h hlen
  cases m <;> simp [EncryptionMethod.payloadLengths] at h hlen <;> omega

/-- The longest length is the one that lands. -/
theorem Longest.payloadLength (h : f.Longest) (r : List UInt8) :
    payloadLength (f.payload ++ (le32 sigEndMarker ++ r)) f.method (f.payload.length + surplus) =
      f.payload.length := by
  have hlands : endMarkerAt (f.payload ++ (le32 sigEndMarker ++ r)) f.payload.length = true := by
    rw [endMarkerAt, drop_append_of_length rfl, take_append_of_length (length_le32 _)]
    simp
  have hfind : f.method.payloadLengths.find?
      (endMarkerAt (f.payload ++ (le32 sigEndMarker ++ r))) = some f.payload.length := by
    obtain ⟨lens, hlens⟩ := List.head?_eq_some_iff.mp h
    rw [hlens, List.find?_cons, hlands]
  rw [Unegg.payloadLength, hfind]
  split
  · next htrust =>
      rw [Bool.and_eq_true, List.contains_iff_mem] at htrust
      have hle := h.le htrust.1
      omega
  · rfl

end EncryptField

section Field

variable (pages : CodePages) {c c' : Cursor} {r : List UInt8} {f : EncryptField} {surplus : Nat}

/-- An overstated size is seen through. -/
theorem overstatedStep_of_rest (hd : FileHeaders) (hlong : f.Longest)
    (hfits : FitsField f.flags (1 + (f.payload.length + surplus)))
    (h : c.rest = f.overstated surplus ++ (le32 sigEndMarker ++ r)) :
    (subHeaderStep pages hd).run c =
      (.ok (.next (hd.withEncrypt f)), c.advance (f.overstated surplus).length) := by
  simp only [EncryptField.overstated, List.append_assoc, List.cons_append] at h
  have hrun := encryptInfo_run pages hd hfits f.method_known h
  have hrest : (c.advance (4 + (extraField f.flags (1 + (f.payload.length + surplus))).length +
      1)).rest = f.payload ++ (le32 sigEndMarker ++ r) := by
    have happ : c.rest = (le32 sigEncryptInfo ++
        (extraField f.flags (1 + (f.payload.length + surplus)) ++ [f.methodByte])) ++
          (f.payload ++ (le32 sigEndMarker ++ r)) := by
      rw [h]
      simp
    exact Cursor.rest_advance_of_append happ (by simp [Nat.add_assoc])
  obtain ⟨hread, -⟩ := readExactCapped_of_rest hrest rfl
  have hlen : (f.overstated surplus).length =
      4 + (extraField f.flags (1 + (f.payload.length + surplus))).length + 1 +
        f.payload.length := by
    simp [EncryptField.overstated]
    omega
  have hfound := hlong.payloadLength surplus r
  rw [EncryptField.method] at hfound
  rw [hrun, hfound, bind_of_ok hread, hlen, Cursor.advance_advance]
  rfl

/-! ## one entry -/

/-- A file entry with an overstated encryption info, after its signature. -/
def overstatedEntry (e : EntryDesc) (f : EncryptField) (surplus : Nat) (r : List UInt8) :
    List UInt8 :=
  le32 e.fileId ++ (le64 e.size ++ (subHeaderBytes e.subs ++ (f.overstated surplus ++
    (le32 sigEndMarker ++ r))))

/-- The entry is read alike with any surplus, whatever follows. -/
theorem alike_overstatedEntry (isEncrypted : Bool) {e : EntryDesc} {surplus' : Nat}
    (hlong : f.Longest) (hfits : FitsField f.flags (1 + (f.payload.length + surplus)))
    (hfits' : FitsField f.flags (1 + (f.payload.length + surplus')))
    (hpos : c.pos = c'.pos) (hlen : c.data.length = c'.data.length)
    (h : c.rest = overstatedEntry e f surplus r) (h' : c'.rest = overstatedEntry e f surplus' r) :
    AlikeAhead (parseFileEntry pages isEncrypted) c c' := by
  rw [overstatedEntry] at h h'
  obtain ⟨h₁, h⟩ := readU32_of_rest h
  obtain ⟨h₂, h⟩ := readU64_of_rest h
  obtain ⟨h₁', h'⟩ := readU32_of_rest h'
  obtain ⟨h₂', h'⟩ := readU64_of_rest h'
  rw [AlikeAhead, parseFileEntry, bind_of_ok h₁, bind_of_ok h₂, bind_of_ok h₁', bind_of_ok h₂']
  refine Alike.bind (Q := fun _ => SameAhead) ?_ fun hd c c' hc =>
    AlikeAhead.bind (alike_parseBlocks hc) fun _ _ _ hc => alike_pure _ hc
  -- both loops take the sub-headers in front, and then the encryption info
  have hbound : ∀ c : Cursor, passBound.run c = (.ok (c.data.length + 1), c) := fun _ => rfl
  have hsubs := length_le_length_flatMap SubHeader.bytes SubHeader.bytes_ne_nil e.subs
  have hroom := congrArg List.length h
  rw [Cursor.length_rest, List.length_append, List.length_append, List.length_append,
    length_le32, subHeaderBytes] at hroom
  simp only [Cursor.advance_data] at hroom
  obtain ⟨k, hk⟩ : ∃ k, c.data.length + 1 = e.subs.length + (k + 1) :=
    ⟨c.data.length - e.subs.length, by omega⟩
  have hrest := Cursor.rest_advance_of_append h rfl
  have hrest' := Cursor.rest_advance_of_append h' rfl
  have hstep := overstatedStep_of_rest pages (applyAll pages { isEncrypted } e.subs) hlong hfits
    hrest
  have hstep' := overstatedStep_of_rest pages (applyAll pages { isEncrypted } e.subs) hlong hfits'
    hrest'
  rw [parseSubHeaders, bind_of_ok (hbound _), bind_of_ok (hbound _)]
  simp only [Cursor.advance_data, ← hlen, hk]
  rw [subHeaders_peel pages h, subHeaders_peel pages h', loop_next hstep, loop_next hstep']
  refine alike_loop (fun hd _ _ hc => alike_subHeaderStep pages hd hc) _ _ ⟨?_, ?_, hlen⟩
  · simp only [Cursor.advance_pos, EncryptField.length_overstated, hpos]
  · rw [Cursor.rest_advance_of_append hrest rfl, Cursor.rest_advance_of_append hrest' rfl]

end Field

/-! ## one record -/

section Archive

variable (pages : CodePages)

theorem PlacedRecord.length_overstated (r : PlacedRecord) (surplus : Nat) :
    (r.overstated surplus).length = r.bytes.length := by
  rcases r with ⟨boundary, ⟨e, ho⟩ | f | f⟩
  case entry =>
    simp only [overstated, bytes, Record.overstated, Record.bytes, EntryDesc.overstated,
      EntryDesc.bytes, EntryDesc.subBytes, List.length_append]
    cases e.encrypt with
    | none => simp
    | some f =>
        simp only [Option.map_some, Option.getD_some, f.length_overstated]
        omega
  all_goals rfl

theorem PlacedRecord.bytes_plain (r : Record) : PlacedRecord.bytes ⟨false, r⟩ = r.bytes := rfl

theorem PlacedRecord.overstated_plain (r : Record) (surplus : Nat) :
    PlacedRecord.overstated surplus ⟨false, r⟩ = r.overstated surplus := rfl

/-- The loop over the records, in front of a record with one surplus or another. -/
theorem alike_overstatedRecord {r : PlacedRecord} {surplus : Nat} (h : r.MayOverstate surplus)
    {rs : Records} {k : Nat} (hk : 2 ≤ k) {c c' : Cursor} {tail : List UInt8}
    (hpos : c.pos = c'.pos) (hlen : c.data.length = c'.data.length)
    (hrest : c.rest = r.bytes ++ tail) (hrest' : c'.rest = r.overstated surplus ++ tail) :
    AlikeAhead (Run.loop (recordStep pages) k rs) c c' := by
  by_cases hsame : r.overstated surplus = r.bytes
  · exact alike_records pages k rs ⟨hpos, by rw [hrest, hrest', hsame], hlen⟩
  rcases r with ⟨boundary, ⟨e, ho⟩ | f | f⟩
  case comment => exact absurd rfl hsame
  case dummy => exact absurd rfl hsame
  rcases henc : e.encrypt with _ | f
  · refine absurd ?_ hsame
    simp [PlacedRecord.overstated, PlacedRecord.bytes, Record.overstated, Record.bytes,
      EntryDesc.overstated, EntryDesc.bytes, EntryDesc.subBytes, henc]
  obtain ⟨hlong, hfits⟩ := h f henc
  -- both have the entry in front, behind the same boundary
  have hentry : (Record.entry e ho).bytes ++ tail = le32 sigFileHeader ++
      overstatedEntry e f 0 (e.blocks.flatMap BlockField.bytes ++ tail) := by
    simp [Record.bytes, EntryDesc.bytes, EntryDesc.subBytes, henc, overstatedEntry,
      f.overstated_zero, subHeaderBytes]
  have hentry' : (Record.entry e ho).overstated surplus ++ tail = le32 sigFileHeader ++
      overstatedEntry e f surplus (e.blocks.flatMap BlockField.bytes ++ tail) := by
    simp [Record.overstated, EntryDesc.overstated, henc, overstatedEntry, subHeaderBytes]
  have hplain : ∀ {k : Nat} {rs : Records} {c c' : Cursor}, c.pos = c'.pos →
      c.data.length = c'.data.length → c.rest = (Record.entry e ho).bytes ++ tail →
      c'.rest = (Record.entry e ho).overstated surplus ++ tail →
      AlikeAhead (Run.loop (recordStep pages) (k + 1) rs) c c' := by
    intro k rs c c' hpos hlen hrest hrest'
    rw [hentry] at hrest
    rw [hentry'] at hrest'
    obtain ⟨h₁, hrest⟩ := readU32_of_rest hrest
    obtain ⟨h₁', hrest'⟩ := readU32_of_rest hrest'
    refine Alike.bind (Q := fun _ => SameAhead) ?_ fun fl c c' hc => ?_
    · rw [recordStep, bind_of_ok h₁, bind_of_ok h₁', if_pos rfl]
      refine Alike.bind (Q := fun _ => SameAhead) ?_ fun _ _ _ hc => .ok hc
      exact alike_overstatedEntry pages rs.isEncrypted hlong f.fits hfits
        (by simp [hpos]) hlen hrest hrest'
    · cases fl with
      | next rs => exact alike_records pages k rs hc
      | done rs => exact .ok hc
  cases boundary with
  | false =>
      obtain ⟨k, rfl⟩ : ∃ j, k = j + 1 := ⟨k - 1, by omega⟩
      rw [PlacedRecord.bytes_plain] at hrest
      rw [PlacedRecord.overstated_plain] at hrest'
      exact hplain hpos hlen hrest hrest'
  | true =>
      obtain ⟨k, rfl⟩ : ∃ j, k = j + 1 + 1 := ⟨k - 2, by omega⟩
      simp only [PlacedRecord.bytes, PlacedRecord.overstated, if_true, List.append_assoc]
        at hrest hrest'
      have hnext := Cursor.rest_advance_of_append hrest (length_le32 _)
      have hnext' := Cursor.rest_advance_of_append hrest' (length_le32 _)
      rw [hentry] at hrest
      rw [hentry'] at hrest'
      rw [AlikeAhead, loop_next (boundary_of_sig pages rs (.inl rfl) hrest),
        loop_next (boundary_of_sig pages rs (.inl rfl) hrest')]
      exact hplain (by simp [hpos]) hlen hnext hnext'

theorem Record.overstated_eq (r : Record) (surplus : Nat) :
    ∃ bs, r.overstated surplus = le32 r.sig ++ bs := by
  cases r with
  | entry e ho => exact ⟨_, rfl⟩
  | comment f => exact (Record.comment f).bytes_eq
  | dummy f => exact (Record.dummy f).bytes_eq

/-- Both layouts of a record start with the same signature. -/
theorem PlacedRecord.overstated_sig (r : PlacedRecord) (surplus : Nat) :
    ∃ sig bs bs', IsRecordSig sig ∧ r.bytes = le32 sig ++ bs ∧
      r.overstated surplus = le32 sig ++ bs' := by
  rcases r with ⟨_ | _, r⟩
  · obtain ⟨bs, hbs⟩ := r.bytes_eq
    obtain ⟨bs', hbs'⟩ := r.overstated_eq surplus
    exact ⟨r.sig, bs, bs', r.isRecordSig, (bytes_plain r).trans hbs,
      (overstated_plain r surplus).trans hbs'⟩
  · exact ⟨sigEndMarker, r.bytes, r.overstated surplus, .inr (.inr (.inl rfl)), rfl, rfl⟩

/-- **One overstated size**, behind the records of an archive and in front of any
bytes, changes nothing of what is opened. -/
theorem open_overstated_one (d : ArchiveDesc) {r : PlacedRecord} {surplus : Nat}
    (h : r.MayOverstate surplus) (tail : List UInt8) :
    ((EggArchive.open' pages).run ⟨d.prefixBytes ++ (d.records.flatMap PlacedRecord.bytes ++
        (r.overstated surplus ++ tail)), 0⟩).1.map EggArchive.unread =
      ((EggArchive.open' pages).run ⟨d.prefixBytes ++ (d.records.flatMap PlacedRecord.bytes ++
        (r.bytes ++ tail)), 0⟩).1.map EggArchive.unread := by
  obtain ⟨sig, bs, bs', hsig, hbytes, hbytes'⟩ := r.overstated_sig surplus
  let plain := d.prefixBytes ++ (d.records.flatMap PlacedRecord.bytes ++ (r.bytes ++ tail))
  let more := d.prefixBytes ++ (d.records.flatMap PlacedRecord.bytes ++
    (r.overstated surplus ++ tail))
  have hlen : plain.length = more.length := by
    simp only [plain, more, List.length_append, r.length_overstated]
  have hsum := sum_passes_le d.records
  have hfront : 4 ≤ d.prefixBytes.length := by
    simp only [ArchiveDesc.prefixBytes, List.length_append, length_le32]
    omega
  obtain ⟨k, hk, hbound⟩ : ∃ k, 2 ≤ k ∧
      plain.length + 1 = (d.records.map PlacedRecord.passes).sum + k := by
    refine ⟨plain.length + 1 - (d.records.map PlacedRecord.passes).sum, ?_, ?_⟩
    · simp only [plain, List.length_append]
      omega
    · simp only [plain, List.length_append]
      omega
  let c : Cursor := ⟨plain, d.prefixBytes.length⟩
  let c' : Cursor := ⟨more, d.prefixBytes.length⟩
  have hrest : c.rest = d.records.flatMap PlacedRecord.bytes ++ (r.bytes ++ tail) :=
    List.drop_left' rfl
  have hrest' : c'.rest = d.records.flatMap PlacedRecord.bytes ++
      (r.overstated surplus ++ tail) := List.drop_left' rfl
  have hfirst : c.rest = d.records.flatMap PlacedRecord.bytes ++ (le32 sig ++ (bs ++ tail)) := by
    rw [hrest, hbytes, List.append_assoc]
  have hfirst' : c'.rest = d.records.flatMap PlacedRecord.bytes ++
      (le32 sig ++ (bs' ++ tail)) := by
    rw [hrest', hbytes', List.append_assoc]
  have halike : AlikeAhead (Run.loop (recordStep pages) k
      (Records.addAll {} d.prefixBytes.length d.records))
      (c.advance (d.records.flatMap PlacedRecord.bytes).length)
      (c'.advance (d.records.flatMap PlacedRecord.bytes).length) :=
    alike_overstatedRecord pages h hk rfl hlen (Cursor.rest_advance_of_append hrest rfl)
      (Cursor.rest_advance_of_append hrest' rfl)
  rw [d.open_prefix pages, d.open_prefix pages, openRecords, openRecords]
  change (Run.run (Run.loop (recordStep pages) (more.length + 1) {} >>= _) c').1.map _ =
    (Run.run (Run.loop (recordStep pages) (plain.length + 1) {} >>= _) c).1.map _
  rw [← hlen, hbound, bind_run, bind_run, records_peel pages hsig hfirst,
    records_peel pages hsig hfirst']
  rw [AlikeAhead] at halike
  generalize Run.run (Run.loop (recordStep pages) k _) (c.advance _) = p at halike
  generalize Run.run (Run.loop (recordStep pages) k _) (c'.advance _) = q at halike
  cases halike with
  | ok h =>
      -- all that differs in what is opened is the bytes of the reader
      exact congrArg (fun p => Outcome.ok (EggArchive.mk ⟨[], p⟩ _ _ _ _ _)) h.pos.symm
  | err h => rfl
  | panic h => rfl
  | hang h => rfl

/-- The same for any of the records, from the first on. -/
theorem open_overstated_list (d : ArchiveDesc) (rs : List (PlacedRecord × Nat))
    (h : ∀ r ∈ rs, r.1.MayOverstate r.2) (tail : List UInt8) :
    ((EggArchive.open' pages).run ⟨d.prefixBytes ++ (d.records.flatMap PlacedRecord.bytes ++
        (rs.flatMap (fun r => r.1.overstated r.2) ++ tail)), 0⟩).1.map EggArchive.unread =
      ((EggArchive.open' pages).run ⟨d.prefixBytes ++ (d.records.flatMap PlacedRecord.bytes ++
        (rs.flatMap (fun r => r.1.bytes) ++ tail)), 0⟩).1.map EggArchive.unread := by
  induction rs generalizing d with
  | nil => rfl
  | cons r rs ih =>
      rw [List.forall_mem_cons] at h
      -- the first is put right, and counts among the records in front from then on
      have hone := open_overstated_one pages d h.1
        (rs.flatMap (fun r => r.1.overstated r.2) ++ tail)
      have hrest := ih { d with records := d.records ++ [r.1] } h.2
      have hfront : ({ d with records := d.records ++ [r.1] } : ArchiveDesc).prefixBytes =
          d.prefixBytes := rfl
      simp only [hfront, List.flatMap_append, List.flatMap_singleton, List.append_assoc] at hrest
      simp only [List.flatMap_cons, List.append_assoc]
      exact hone.trans hrest

/-- **Overstated sizes are invisible**: in an archive whose encryption infos carry
the longest payloads of their methods, the declared size of each may be any that
its size field can hold from the true one on, and the archive opens to the same
contents, or fails in the same way, whatever follows it; with nothing behind it,
it opens as the archive that is described. -/
theorem open_overstated (d : ArchiveDesc) (surplus : Nat → Nat)
    (h : ∀ r ∈ d.records.zipIdx, r.1.MayOverstate (surplus r.2)) :
    (∀ trailing : List UInt8,
      ((EggArchive.open' pages).run ⟨d.overstated surplus ++ trailing, 0⟩).1.map
          EggArchive.unread =
        ((EggArchive.open' pages).run ⟨d.bytes ++ trailing, 0⟩).1.map EggArchive.unread) ∧
    ((EggArchive.open' pages).run ⟨d.overstated surplus, 0⟩).1.map EggArchive.unread =
      .ok d.archive.unread := by
  have hall : ∀ trailing : List UInt8,
      ((EggArchive.open' pages).run ⟨d.overstated surplus ++ trailing, 0⟩).1.map
          EggArchive.unread =
        ((EggArchive.open' pages).run ⟨d.bytes ++ trailing, 0⟩).1.map EggArchive.unread := by
    intro trailing
    have hplaced : ∀ r ∈ d.records.zipIdx.map (fun r => (r.1, surplus r.2)),
        r.1.MayOverstate r.2 := by
      intro r hr
      obtain ⟨q, hq, rfl⟩ := List.mem_map.mp hr
      exact h q hq
    have hlist := open_overstated_list pages { d with records := [] }
      (d.records.zipIdx.map fun r => (r.1, surplus r.2)) hplaced
      (le32 sigEndMarker ++ trailing)
    have hover : (d.records.zipIdx.map fun r => (r.1, surplus r.2)).flatMap
        (fun r => r.1.overstated r.2) =
        d.records.zipIdx.flatMap fun r => r.1.overstated (surplus r.2) := by
      rw [List.flatMap_map]
    have hplain : (d.records.zipIdx.map fun r => (r.1, surplus r.2)).flatMap
        (fun r => r.1.bytes) = d.records.flatMap PlacedRecord.bytes := by
      conv_rhs => rw [← List.zipIdx_map_fst 0 d.records]
      rw [List.flatMap_map, List.flatMap_map]
    have hfront : ({ d with records := [] } : ArchiveDesc).prefixBytes = d.prefixBytes := rfl
    simp only [hover, hplain, hfront, List.flatMap_nil, List.nil_append] at hlist
    simpa only [ArchiveDesc.overstated, ArchiveDesc.bytes, List.append_assoc] using hlist
  refine ⟨hall, ?_⟩
  have hnone := hall []
  rw [List.append_nil, List.append_nil] at hnone
  have hopen := (d.open_prefix pages _).trans (d.openRecords_run pages)
  rw [hnone]
  exact congrArg (fun r => r.1.map EggArchive.unread) hopen

end Archive

/-- A ZipCrypto entry with no blocks; the payload has an End Marker inside. -/
def overstatedSample : ArchiveDesc where
  version := 0x0100
  headerId := 9
  reserved := 0
  fields := []
  records := [⟨false, .entry {
    fileId := 1
    size := 0
    name := "a"
    plain := by simp [PlainName, isControl]
    nameFlags := 0
    unflagged := by decide
    nameFits := by decide
    windows := none
    posix := none
    comments := []
    subs := [.filename ⟨0, 0, 0, [0x61], by decide⟩]
    encrypt := some ⟨0, 0, le32 sigEndMarker ++ List.replicate 12 5, by decide, by decide⟩
    blocks := [] } (.refl _)⟩]

/-- The sample with a size that is too large by seven, and more bytes behind it. -/
theorem open_overstated_sample :
    ((EggArchive.open' CodePages.blank).run
      ⟨overstatedSample.overstated (fun _ => 7) ++ [1, 2, 3], 0⟩).1.map EggArchive.unread =
    ((EggArchive.open' CodePages.blank).run
      ⟨overstatedSample.bytes ++ [1, 2, 3], 0⟩).1.map EggArchive.unread ∧
    overstatedSample.overstated (fun _ => 7) ≠ overstatedSample.bytes := by
  refine ⟨(open_overstated CodePages.blank overstatedSample (fun _ => 7) ?_).1 [1, 2, 3], ?_⟩
  · intro r hr
    obtain rfl := List.mem_singleton.mp hr
    rintro f ⟨⟩
    exact ⟨rfl, by decide⟩
  · decide +kernel

end Unegg
