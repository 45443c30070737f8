import Unegg.Volume.Archive
import Unegg.Writer

/-!
# Unegg.Volume.Split

Archives that have been split.

A volume is a header with fields of its own and a part of the archive behind it
(`VolumeDesc`); the first one is the front part of the archive itself.  When the
ids lead from volume to volume (`Linked`) and the directory has the volumes
under their ids, `try_open` finds all of them and joins the parts
(`SplitArchive.tryOpen_run`); so splitting an archive does not change what is
read of it (`SplitArchive.opens`).
-/

namespace Unegg

open Prog Bytes MultiVolumeReader

/-! ## the front of a volume -/

/-- A Split Info field as the scans of the prefix see it. -/
def PrefixField.splitField? : PrefixField → Option SplitField
  | .split _ prevId nextId pad _ => some ⟨UInt32.ofNat (8 + pad.length), prevId, nextId⟩
  | _ => none

theorem splitInfo?_eq (f : PrefixField) : f.splitInfo? = f.splitField?.map SplitField.ids := by
  cases f <;> rfl

theorem splitField?_size {f : PrefixField} {s : SplitField} (h : f.splitField? = some s) :
    8 ≤ s.size.toNat := by
  cases f with
  | split flags prevId nextId pad fits =>
      rw [PrefixField.splitField?, Option.some.injEq] at h
      rw [← h, fits.toNat_ofNat]
      exact Nat.le_add_right 8 _
  | _ => simp [PrefixField.splitField?] at h

section Fields

variable {c c' : Cursor} {r : List UInt8} {fields : List SplitField}

/-- A field that has no ids. -/
theorem prefixFields_other {f : Field} {sig : UInt32} (hne : sig ≠ sigEndMarker ∧ sig ≠ sigSplitInfo)
    (h : c.rest = le32 sig ++ f.bytes ++ r)
    (rest : PrefixFields (c.advance (le32 sig ++ f.bytes).length) fields c') :
    PrefixFields c fields c' := by
  simp only [Field.bytes, List.append_assoc] at h
  obtain ⟨h₁, h⟩ := readU32_of_rest h
  obtain ⟨h₂, -⟩ := readExtraField_of_rest f.fits h
  refine .other h₁ hne h₂ ?_
  rw [f.fits.toNat_ofNat]
  simpa [Field.bytes, Cursor.advance_advance, Nat.add_assoc] using rest

/-- A laid-out field in front of others. -/
theorem prefixFields_cons {f : PrefixField} (h : c.rest = f.bytes ++ r)
    (rest : PrefixFields (c.advance f.bytes.length) fields c') :
    PrefixFields c (f.splitField?.toList ++ fields) c' := by
  cases f with
  | split flags prevId nextId pad fits =>
      simp only [PrefixField.bytes, List.append_assoc] at h
      obtain ⟨h₁, h⟩ := readU32_of_rest h
      obtain ⟨h₂, h⟩ := readExtraField_of_rest fits h
      obtain ⟨h₃, h⟩ := readU32_of_rest h
      obtain ⟨h₄, -⟩ := readU32_of_rest h
      refine .split h₁ h₂ h₃ h₄ ?_
      rw [fits.toNat_ofNat, Nat.add_sub_cancel_left]
      change PrefixFields _ fields c'
      simpa only [PrefixField.bytes, List.length_append, length_le32, Cursor.advance_advance,
        Nat.add_assoc] using rest
  | solid f => exact prefixFields_other (by decide) h rest
  | skip f => exact prefixFields_other (by decide) h rest
  | globalEncrypt f => exact prefixFields_other (by decide) h rest

/-- The laid-out fields up to the End Marker. -/
theorem prefixFields_of_rest {fs : List PrefixField}
    (h : c.rest = fs.flatMap PrefixField.bytes ++ (le32 sigEndMarker ++ r)) :
    PrefixFields c (fs.filterMap PrefixField.splitField?)
      (c.advance ((fs.flatMap PrefixField.bytes).length + 4)) := by
  induction fs generalizing c with
  | nil => exact .done (readU32_of_rest h).1
  | cons f fs ih =>
      rw [List.flatMap_cons, List.append_assoc] at h
      have hrest := ih (Cursor.rest_advance_of_append h rfl)
      rw [Cursor.advance_advance, ← Nat.add_assoc, ← List.length_append, ← List.flatMap_cons] at hrest
      have hfields := prefixFields_cons h hrest
      cases hf : f.splitField? <;> simpa [List.filterMap_cons, hf] using hfields

end Fields

namespace ArchiveDesc

/-- The next id that the fields give: that of the first Split Info among them, or 0. -/
def nextId (d : ArchiveDesc) : UInt32 :=
  ((d.fields.filterMap PrefixField.splitInfo?).head?.map SplitInfo.nextId).getD 0

variable (d : ArchiveDesc) (r : List UInt8)

/-- What lies behind the header. -/
theorem rest_front : (⟨d.prefixBytes ++ r, 14⟩ : Cursor).rest =
    d.fields.flatMap PrefixField.bytes ++ (le32 sigEndMarker ++ r) := by
  obtain ⟨head, hhead⟩ : ∃ head, head = le32 sigEggHeader ++ (le16 d.version ++
    (le32 d.headerId ++ le32 d.reserved)) := ⟨_, rfl⟩
  have hlen : head.length = 14 := by rw [hhead]; simp
  have hbytes : d.prefixBytes ++ r =
      head ++ (d.fields.flatMap PrefixField.bytes ++ (le32 sigEndMarker ++ r)) := by
    rw [hhead]
    simp [prefixBytes]
  rw [Cursor.rest, hbytes]
  simp only
  rw [← hlen, List.drop_left]

theorem front_fields : PrefixFields ⟨d.prefixBytes ++ r, 14⟩
    (d.fields.filterMap PrefixField.splitField?) ⟨d.prefixBytes ++ r, d.prefixBytes.length⟩ := by
  have h := prefixFields_of_rest (d.rest_front r)
  have hlen : 14 + ((d.fields.flatMap PrefixField.bytes).length + 4) = d.prefixBytes.length := by
    simp [prefixBytes]
    omega
  rwa [Cursor.advance, hlen] at h

theorem quickHeaderId_front : quickHeaderId (d.prefixBytes ++ r) = some d.headerId := by
  obtain ⟨tail, htail⟩ : ∃ tail, tail = le32 d.reserved ++
    (d.fields.flatMap PrefixField.bytes ++ (le32 sigEndMarker ++ r)) := ⟨_, rfl⟩
  obtain ⟨head, hhead⟩ : ∃ head, head = le32 sigEggHeader ++ le16 d.version := ⟨_, rfl⟩
  have hlen : head.length = 6 := by rw [hhead]; simp
  have hbytes : d.prefixBytes ++ r = head ++ le32 d.headerId ++ tail := by
    rw [hhead, htail]
    simp [prefixBytes]
  have hten : (head ++ le32 d.headerId).length = 10 := by simp [hlen]
  have htake : (d.prefixBytes ++ r).take 10 = head ++ le32 d.headerId := by
    rw [hbytes, ← hten, List.take_left]
  have hsig : (head ++ le32 d.headerId).take 4 = le32 sigEggHeader := by
    rw [hhead, List.append_assoc, ← length_le32 sigEggHeader, List.take_left]
  have hid : (head ++ le32 d.headerId).drop 6 = le32 d.headerId := by
    rw [← hlen, List.drop_left]
  simp only [quickHeaderId, htake, hten, hsig, hid, ofLE_le32]
  rw [if_neg (lt_irrefl 10), if_neg (by simp)]

theorem rest_start : (⟨d.prefixBytes ++ r, 0⟩ : Cursor).rest =
    le32 sigEggHeader ++ (d.prefixBytes ++ r).drop 4 := by
  rw [Cursor.rest, List.drop_zero, prefixBytes, List.append_assoc]
  congr 1

/-- `read_split_info` on a volume. -/
theorem readSplitInfo_run : (readSplitInfo.run ⟨d.prefixBytes ++ r, 0⟩).1 =
    .ok ((d.fields.filterMap PrefixField.splitInfo?).head?.map fun s => (s.prevId, s.nextId)) := by
  have hexact : (readExact 4).run ⟨d.prefixBytes ++ r, 0⟩ =
      (.ok (le32 sigEggHeader), ⟨d.prefixBytes ++ r, 4⟩) :=
    (readExact_of_rest (d.rest_start r) rfl).1
  have hstart : (seekStart 0).run ⟨d.prefixBytes ++ r, 0⟩ = (.ok (), ⟨d.prefixBytes ++ r, 0⟩) := rfl
  have hseek : (seekStart 14).run ⟨d.prefixBytes ++ r, 4⟩ = (.ok (), ⟨d.prefixBytes ++ r, 14⟩) := rfl
  have hpass : passBound.run ⟨d.prefixBytes ++ r, 14⟩ =
      (.ok ((d.prefixBytes ++ r).length + 1), ⟨d.prefixBytes ++ r, 14⟩) := rfl
  have hloop := (d.front_fields r).splitInfoLoop (Nat.lt_succ_of_le (Nat.sub_le _ 14))
  rw [readSplitInfo, Run.bind_of_ok hstart, Run.bind_of_ok (Run.attempt_of_ok hexact)]
  simp only [ofLE_le32, ne_eq, not_true, if_false]
  rw [Run.bind_of_ok hseek, Run.bind_of_ok hpass, hloop]
  have hinfo : PrefixField.splitInfo? = fun f => f.splitField?.map SplitField.ids :=
    funext splitInfo?_eq
  rw [hinfo, ← List.map_filterMap, List.head?_map, Option.map_map]
  rfl

/-- `skip_continuation_header` on a volume. -/
theorem skipContinuationHeader_run : skipContinuationHeader.run ⟨d.prefixBytes ++ r, 0⟩ =
    (.ok d.prefixBytes.length, ⟨d.prefixBytes ++ r, d.prefixBytes.length⟩) := by
  have hstart : (seekStart 0).run ⟨d.prefixBytes ++ r, 0⟩ = (.ok (), ⟨d.prefixBytes ++ r, 0⟩) := rfl
  have hsig : readU32.run ⟨d.prefixBytes ++ r, 0⟩ = (.ok sigEggHeader, ⟨d.prefixBytes ++ r, 4⟩) :=
    (readU32_of_rest (d.rest_start r)).1
  have hseek : (seekCurrent 10).run ⟨d.prefixBytes ++ r, 4⟩ = (.ok (), ⟨d.prefixBytes ++ r, 14⟩) := rfl
  have hpass : passBound.run ⟨d.prefixBytes ++ r, 14⟩ =
      (.ok ((d.prefixBytes ++ r).length + 1), ⟨d.prefixBytes ++ r, 14⟩) := rfl
  have hsizes : ∀ f ∈ d.fields.filterMap PrefixField.splitField?, 8 ≤ f.size.toNat := by
    intro f hf
    obtain ⟨g, -, hg⟩ := List.mem_filterMap.mp hf
    exact splitField?_size hg
  have hloop := (d.front_fields r).continuationLoop hsizes (Nat.lt_succ_of_le (Nat.sub_le _ 14))
  rw [skipContinuationHeader, Run.bind_of_ok hstart, readU32Raw, Run.bind_of_ok hsig,
    if_neg (by simp), Run.bind_of_ok hseek, Run.bind_of_ok hpass, Run.bind_of_ok hloop]
  rfl

/-- What `try_open` reads of a later volume. -/
theorem readVolume_run : ∃ p, readVolume.run ⟨d.prefixBytes ++ r, 0⟩ =
    (.ok (d.prefixBytes.length, d.nextId), ⟨d.prefixBytes ++ r, p⟩) := by
  have hseek : (seekStart 0).run ⟨d.prefixBytes ++ r, d.prefixBytes.length⟩ =
      (.ok (), ⟨d.prefixBytes ++ r, 0⟩) := rfl
  obtain ⟨⟨data, p⟩, hsplit⟩ : ∃ c, readSplitInfo.run ⟨d.prefixBytes ++ r, 0⟩ = (.ok _, c) :=
    ⟨_, Prod.ext (d.readSplitInfo_run r) rfl⟩
  obtain rfl : data = d.prefixBytes ++ r := sameData_readSplitInfo.of_run hsplit
  refine ⟨p, ?_⟩
  rw [readVolume, Run.bind_of_ok (d.skipContinuationHeader_run r), Run.bind_of_ok hseek,
    Run.bind_of_ok hsplit, Option.map_map]
  rfl

end ArchiveDesc

/-! ## the volumes -/

/-- A later volume: a front of its own and a part of the archive. -/
structure VolumeDesc where
  version : UInt16
  headerId : UInt32
  reserved : UInt32
  fields : List PrefixField
  data : List UInt8

namespace VolumeDesc

def front (v : VolumeDesc) : ArchiveDesc where
  version := v.version
  headerId := v.headerId
  reserved := v.reserved
  fields := v.fields
  records := []

def bytes (v : VolumeDesc) : List UInt8 := v.front.prefixBytes ++ v.data

def nextId (v : VolumeDesc) : UInt32 := v.front.nextId

theorem readVolume_run (v : VolumeDesc) : ∃ p, readVolume.run ⟨v.bytes, 0⟩ =
    (.ok (v.front.prefixBytes.length, v.nextId), ⟨v.bytes, p⟩) := by
  unfold bytes nextId
  exact v.front.readVolume_run v.data

end VolumeDesc

/-- The ids lead from volume to volume, up to the last one. -/
def Linked : UInt32 → List VolumeDesc → Prop
  | id, [] => id = 0
  | id, v :: vs => id ≠ 0 ∧ v.headerId = id ∧ Linked v.nextId vs

instance Linked.decide : ∀ id vs, Decidable (Linked id vs)
  | id, [] => inferInstanceAs (Decidable (id = 0))
  | _, v :: vs => @instDecidableAnd _ _ _ (@instDecidableAnd _ _ _ (Linked.decide v.nextId vs))

theorem Linked.ne_zero {id : UInt32} {vs : List VolumeDesc} (h : Linked id vs) (hvs : vs ≠ []) :
    id ≠ 0 := by
  cases vs with
  | nil => exact absurd rfl hvs
  | cons v vs => exact h.1

/-- The directory has a volume, and no other file carries its id. -/
def InDirectory (dir : List DirEntry) (v : VolumeDesc) : Prop :=
  ⟨true, v.bytes⟩ ∈ dir ∧
    ∀ entry ∈ dir, entry.isFile → quickHeaderId entry.bytes = some v.headerId → entry.bytes = v.bytes

instance (dir : List DirEntry) (v : VolumeDesc) : Decidable (InDirectory dir v) :=
  inferInstanceAs (Decidable (_ ∧ _))

variable {dir : List DirEntry} {v : VolumeDesc} {vs : List VolumeDesc} {chain : Chain} {n : Nat}

theorem InDirectory.find (h : InDirectory dir v) :
    findVolumeById dir v.headerId = .ok v.bytes := by
  obtain ⟨hmem, honly⟩ := h
  cases hfind : findVolumeById dir v.headerId with
  | ok found =>
      obtain ⟨hid, entry, hentry, hfile, rfl⟩ := findVolumeById_ok hfind
      rw [honly entry hentry hfile hid]
  | error e =>
      have hid : quickHeaderId v.bytes = some v.headerId := v.front.quickHeaderId_front v.data
      rw [findVolumeById] at hfind
      split at hfind
      · simp at hfind
      · next hnone =>
          have hnot := List.find?_eq_none.mp hnone _ hmem
          simp [hid] at hnot

/-! ## joining them -/

/-- One pass joins the volume that is asked for. -/
theorem chainStep_run (hv : InDirectory dir v) (hne : v.headerId ≠ 0) (hnext : chain.next = v.headerId)
    (hseen : v.headerId ∉ chain.seen) (hcount : chain.segments.length < maxVolumes) :
    ∃ s : Segment, s.bytes = v.data ∧ (chainStep dir chain).run () =
      (.ok (.next ⟨chain.segments ++ [s], v.headerId :: chain.seen, v.nextId⟩), ()) := by
  obtain ⟨p, hread⟩ := v.readVolume_run
  have hfile : (onFile v.bytes readVolume).run () =
      (.ok ((v.front.prefixBytes.length, v.nextId), ⟨v.bytes, p⟩), ()) := by
    simp only [onFile, hread]
  have hlen : v.bytes.length = v.front.prefixBytes.length + v.data.length := List.length_append
  refine ⟨⟨⟨v.bytes, p⟩, v.front.prefixBytes.length, endOf chain.segments,
    v.bytes.length - v.front.prefixBytes.length⟩, ?_, ?_⟩
  · rw [Segment.bytes, hlen, Nat.add_sub_cancel_left, VolumeDesc.bytes, List.drop_left,
      List.take_length]
  · have hfound : (Run.ofExcept (.ok v.bytes) : Opening _).run () = (.ok v.bytes, ()) := rfl
    rw [chainStep, hnext, if_neg hne, if_neg hseen, if_neg (not_le.mpr hcount), hv.find,
      Run.bind_of_ok hfound, Run.bind_of_ok hfile]
    dsimp only
    rw [if_neg (by omega)]
    rfl

/-- The passes join all that the ids lead to. -/
theorem chainLoop_run (h : Linked chain.next vs) (hdir : ∀ v ∈ vs, InDirectory dir v)
    (hdistinct : (vs.map VolumeDesc.headerId).Nodup)
    (hseen : ∀ v ∈ vs, v.headerId ∉ chain.seen)
    (hcount : chain.segments.length + vs.length ≤ maxVolumes) (hn : vs.length < n) :
    ∃ segs, (Run.loop (chainStep dir) n chain).run () = (.ok segs, ()) ∧
      contents segs = contents chain.segments ++ vs.flatMap VolumeDesc.data := by
  induction vs generalizing chain n with
  | nil =>
      obtain ⟨k, rfl⟩ : ∃ k, n = k + 1 := ⟨n - 1, by rw [List.length_nil] at hn; omega⟩
      have hdone : (chainStep dir chain).run () = (.ok (.done chain.segments), ()) := by
        have hzero : chain.next = 0 := h
        rw [chainStep, if_pos hzero]
        rfl
      exact ⟨chain.segments, Run.loop_done hdone, by simp⟩
  | cons v vs ih =>
      obtain ⟨k, rfl⟩ : ∃ k, n = k + 1 := ⟨n - 1, by rw [List.length_cons] at hn; omega⟩
      rw [List.length_cons] at hn hcount
      rw [List.forall_mem_cons] at hdir hseen
      rw [List.map_cons, List.nodup_cons] at hdistinct
      obtain ⟨hne, hid, hrest⟩ := h
      obtain ⟨s, hs, hstep⟩ := chainStep_run hdir.1 (hid ▸ hne) hid.symm hseen.1 (by omega)
      have hseen' : ∀ w ∈ vs, w.headerId ∉ v.headerId :: chain.seen := by
        intro w hw hmem
        rcases List.mem_cons.mp hmem with heq | hmem
        · exact hdistinct.1 (heq ▸ List.mem_map_of_mem hw)
        · exact hseen.2 w hw hmem
      obtain ⟨segs, hloop, hcontents⟩ := @ih
        ⟨chain.segments ++ [s], v.headerId :: chain.seen, v.nextId⟩ k hrest hdir.2 hdistinct.2
        hseen' (by rw [List.length_append, List.length_singleton]; omega) (by omega)
      refine ⟨segs, by rw [Run.loop_next hstep, hloop], ?_⟩
      rw [hcontents, contents, contents, List.flatMap_append, List.flatMap_singleton, hs,
        List.append_assoc, List.flatMap_cons]

/-- A volume that asks for no other is not split. -/
theorem tryOpen_unsplit {d : ArchiveDesc} (h : d.nextId = 0) (r : List UInt8) :
    (tryOpen dir (d.prefixBytes ++ r)).run () = (.ok none, ()) := by
  obtain ⟨c, hsplit⟩ : ∃ c, readSplitInfo.run ⟨d.prefixBytes ++ r, 0⟩ = (.ok _, c) :=
    ⟨_, Prod.ext (d.readSplitInfo_run r) rfl⟩
  rw [ArchiveDesc.nextId] at h
  cases hhead : (d.fields.filterMap PrefixField.splitInfo?).head? with
  | none =>
      rw [hhead] at hsplit
      simp only [tryOpen, onFile, Run.bind_run, hsplit]
      rfl
  | some info =>
      rw [hhead] at hsplit h
      have hzero : info.nextId = 0 := h
      simp only [tryOpen, onFile, Run.bind_run, hsplit, Option.map_some, if_pos hzero]
      rfl

/-! ## archives in parts -/

/-- An archive that has been split: the first volume has its front and `head`,
the later ones have the rest. -/
structure SplitArchive where
  archive : ArchiveDesc
  head : List UInt8
  later : List VolumeDesc
  cut : archive.bytes = archive.prefixBytes ++ head ++ later.flatMap VolumeDesc.data
  split : later ≠ []
  linked : Linked archive.nextId later
  distinct : (archive.headerId :: later.map VolumeDesc.headerId).Nodup
  count : later.length < maxVolumes

namespace SplitArchive

variable (s : SplitArchive)

/-- The bytes of the first volume. -/
def first : List UInt8 := s.archive.prefixBytes ++ s.head

/-- `try_open` joins the parts again. -/
theorem tryOpen_run (hdir : ∀ v ∈ s.later, InDirectory dir v) :
    ∃ r, (tryOpen dir s.first).run () = (.ok (some r), ()) ∧
      contents r.segments = s.archive.bytes := by
  have hid : quickHeaderId s.first = some s.archive.headerId := s.archive.quickHeaderId_front s.head
  have hdistinct := List.nodup_cons.mp s.distinct
  have hcount := s.count
  have hne : s.archive.nextId ≠ 0 := s.linked.ne_zero s.split
  -- the first volume has a Split Info field, since it asks for another volume
  obtain ⟨info, hinfo, hnext⟩ : ∃ info, (s.archive.fields.filterMap PrefixField.splitInfo?).head? =
      some info ∧ info.nextId = s.archive.nextId := by
    rw [ArchiveDesc.nextId] at hne ⊢
    cases hhead : (s.archive.fields.filterMap PrefixField.splitInfo?).head? with
    | none => simp [hhead] at hne
    | some info => exact ⟨info, rfl, rfl⟩
  obtain ⟨c, hsplit⟩ : ∃ c, readSplitInfo.run ⟨s.first, 0⟩ =
      (.ok (some (info.prevId, info.nextId)), c) :=
    ⟨_, Prod.ext ((s.archive.readSplitInfo_run s.head).trans (by rw [hinfo]; rfl)) rfl⟩
  have hfile : (onFile s.first readSplitInfo).run () =
      (.ok (some (info.prevId, info.nextId), c), ()) := by
    simp only [onFile, hsplit]
  have hseen : ∀ v ∈ s.later, v.headerId ∉ (Chain.start s.first s.archive.nextId).seen := by
    intro v hv hmem
    rw [Chain.start, hid, Option.toList_some, List.mem_singleton] at hmem
    exact hdistinct.1 (hmem ▸ List.mem_map_of_mem hv)
  have hroom : (Chain.start s.first s.archive.nextId).segments.length + s.later.length ≤ maxVolumes := by
    rw [Chain.start, List.length_singleton]
    omega
  obtain ⟨segs, hloop, hcontents⟩ := @chainLoop_run dir s.later
    (Chain.start s.first s.archive.nextId) (maxVolumes + 1) s.linked hdir hdistinct.2 hseen hroom
    (by omega)
  refine ⟨.new segs, ?_, ?_⟩
  · rw [tryOpen, Run.bind_of_ok hfile]
    dsimp only
    rw [hnext, if_neg hne, Run.bind_of_ok hloop]
    rfl
  · have hstart : contents (Chain.start s.first s.archive.nextId).segments = s.first := by
      simp [Chain.start, contents, Segment.bytes]
    change contents segs = _
    rw [hcontents, hstart, s.cut, first]

/-- The reader that is returned parses to the archive that was split. -/
theorem parse_run {r : MultiVolumeReader} (hrun : (tryOpen dir s.first).run () = (.ok (some r), ()))
    (hcontents : contents r.segments = s.archive.bytes) (hsmall : SmallFiles dir s.first)
    (htotal : s.archive.bytes.length < 2 ^ 61) (amounts : Nat → Nat) (pages : CodePages) :
    ∃ v o, (Reader.openArchive pages).run (⟨r, amounts⟩ : VolumeReader) = (.ok o, v) ∧
      o.archive ⟨s.archive.bytes, s.archive.bytes.length⟩ = s.archive.archive ∧
      Represents s.archive.bytes v.reader s.archive.bytes.length := by
  have hat := tryOpen_at hrun hsmall amounts
  rw [hcontents] at hat
  obtain ⟨outcome, v, c, hparse, hopen, hstands⟩ := hat.parses htotal pages
  rw [s.archive.open_run] at hopen
  cases outcome with
  | ok o =>
      simp only [Outcome.map, Prod.mk.injEq, Outcome.ok.injEq] at hopen
      obtain ⟨harchive, rfl⟩ := hopen
      exact ⟨v, o, hparse, harchive.symm, hstands o rfl⟩
  | _ => simp [Outcome.map] at hopen

/-- **Splitting is transparent**: the volumes of a split archive are found and
joined, and opening them gives the archive that was split, however the reads are cut and
whatever else is in the directory, as long as it has no other content under the id of a
volume: the first file with an id is the one that is taken. -/
theorem opens (hdir : ∀ v ∈ s.later, InDirectory dir v) (hsmall : SmallFiles dir s.first)
    (htotal : s.archive.bytes.length < 2 ^ 61) (amounts : Nat → Nat) (pages : CodePages) :
    ∃ r v o, (tryOpen dir s.first).run () = (.ok (some r), ()) ∧
      (Reader.openArchive pages).run (⟨r, amounts⟩ : VolumeReader) = (.ok o, v) ∧
      o.archive ⟨s.archive.bytes, s.archive.bytes.length⟩ = s.archive.archive ∧
      Represents s.archive.bytes v.reader s.archive.bytes.length := by
  obtain ⟨r, hrun, hcontents⟩ := s.tryOpen_run hdir
  obtain ⟨v, o, hparse, harchive, hstands⟩ := s.parse_run hrun hcontents hsmall htotal amounts pages
  exact ⟨r, v, o, hrun, hparse, harchive, hstands⟩

end SplitArchive

/-- An archive with a comment in three volumes; the second has nothing of the
archive. -/
def commentInThree : SplitArchive where
  archive := {
    version := 0x0100
    headerId := 7
    reserved := 0
    fields := [.split 0 0 9 [] (by decide)]
    records := [⟨false, .comment ⟨0, [0x68, 0x69], by decide⟩⟩] }
  head := [0x72, 0x36]
  later := [⟨0x0100, 9, 0, [.split 0 7 8 [] (by decide)], []⟩,
    ⟨0x0100, 8, 0, [.split 0 9 0 [] (by decide)],
      [0xC6, 0x04, 0, 2, 0, 0x68, 0x69, 0x22, 0x82, 0xE2, 0x08]⟩]
  cut := by decide
  split := by decide
  linked := by decide
  distinct := by decide
  count := by decide

theorem commentInThree_opens :
    ∃ r v o, (tryOpen (⟨true, []⟩ :: (commentInThree.later.map fun v => ⟨true, v.bytes⟩))
        commentInThree.first).run () = (.ok (some r), ()) ∧
      (Reader.openArchive CodePages.blank).run (⟨r, fun _ => 1⟩ : VolumeReader) = (.ok o, v) ∧
      o.archive ⟨commentInThree.archive.bytes, commentInThree.archive.bytes.length⟩ =
        commentInThree.archive.archive ∧
      Represents commentInThree.archive.bytes v.reader commentInThree.archive.bytes.length :=
  commentInThree.opens (by decide +kernel) (by decide +kernel) (by decide +kernel) _ _

end Unegg
