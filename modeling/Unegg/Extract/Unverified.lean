import Unegg.Effects.Left
import Unegg.Extract.Codec
import Unegg.Extract.Containment
import Unegg.Extract.Determined
import Unegg.Extract.Entry
import Unegg.Extract.SolidDelivered

/-!
# Unegg.Extract.Unverified

No unverified file is left behind.

An entry that fails has removed its file (`extractEntry_err`), a solid stream
that fails all the files it created (`extractStream_err`).  What is left are
the files of entries, or of a stream, that went through, whose blocks all had
the right checksum, and empty files that declare no bytes
(`no_unverified_file`).
-/

namespace Unegg

open Prog Crc32 Tiling

variable {crates : Crates} {os : Os} {archive : EggArchive} {dest : Path}
  {password : Option String} {filter : Option (List String)} {entries : List EggFileEntry}
  {entry : EggFileEntry} {w₀ w w' : World} {p : Path} {c : List UInt8}

/-! ## an entry that fails -/

/-- The event touches no file but this one. -/
abbrev TouchesOnly (path : Path) (e : Event) : Prop := ∀ p, e.changes = some p → p ∈ [path]

/-- Making the parent of a file writes nothing. -/
theorem quiet_createParent (path : Path) :
    Run.Steps (Adds fun e => e.isQuiet) (os.createParent path) :=
  Adds.createParent fun _ _ _ => rfl

/-- A file that cannot be created has not been. -/
theorem createFile_err {path : Path} {e : EggError}
    (h : (createFile os path).run w = (.err e, w')) : Adds (fun e => e.isQuiet) w w' := by
  rw [createFile, Run.bind_err] at h
  obtain h | ⟨_, w₁, hparent, h⟩ := h
  · obtain ⟨x, h, -⟩ := Run.mapErr_err.mp h
    exact (quiet_createParent path).of_run h
  · have hquiet := (quiet_createParent path).of_run (Run.mapErr_ok.mp hparent)
    obtain ⟨x, h, -⟩ := Run.mapErr_err.mp h
    simp only [Os.createFile] at h
    split at h
    · simp at h
    · simp only [Prod.mk.injEq] at h
      rw [← h.2]
      exact IsTrans.trans _ _ _ hquiet (Adds.one (P := fun e => e.isQuiet) rfl w₁)

/-- Creating a file touches that file. -/
theorem touches_createFile (path : Path) :
    Run.Steps (Adds (TouchesOnly path)) (createFile os path) := by
  refine .bind (.mapErr (Adds.createParent fun q ok _ p hp => by cases hp)) fun _ => .mapErr ?_
  refine Adds.createFile fun ok p hp => ?_
  cases ok with
  | false => cases hp
  | true => exact List.mem_singleton.mpr (Option.some.inj hp).symm

/-- Extracting its blocks touches no other. -/
theorem touches_extractBlocks (path : Path) (blocks : List EggBlock) (d : Option Decryptor) :
    Run.Steps (Adds (TouchesOnly path)) (extractBlocks crates os archive (.file path) blocks d) :=
  adds_extractBlocks (fun _ _ hp => List.mem_singleton.mpr (Option.some.inj hp).symm) blocks d

/-- A failed extraction to disk removes its file. -/
theorem extractData_err {path : Path} {e : EggError}
    (h : (extractData crates os archive password false entry path).run w = (.err e, w')) :
    CleansUp w w' := by
  rw [extractData, Run.bind_err] at h
  obtain h | ⟨crypto, w₁, hsetup, h⟩ := h
  · have hquiet := (Run.Steps.ofExcept (R := Adds fun e => e.isQuiet) _).of_run h
    exact .quiet hquiet
  obtain rfl : w = w₁ := (Run.ofExcept_ok.mp hsetup).2
  rw [Run.bind_err] at h
  obtain h | ⟨_, w₂, hauth, h⟩ := h
  · have hquiet := (adds_onReader (P := fun e => e.isQuiet) _).of_run h
    exact .quiet hquiet
  obtain rfl : w = w₂ := congrArg Prod.snd hauth
  rw [Run.bind_err] at h
  obtain h | ⟨out, w₃, hopen, h⟩ := h
  · rw [openWriter, if_neg (by simp), Run.bind_err] at h
    obtain h | ⟨_, _, _, h⟩ := h
    · exact .quiet (createFile_err h)
    · simp at h
  have htouch : Adds (TouchesOnly path) w w₃ ∧ out = .file path := by
    rw [openWriter, if_neg (by simp), Run.bind_ok] at hopen
    obtain ⟨_, w₄, hcreate, hopen⟩ := hopen
    simp only [Run.pure_run, Prod.mk.injEq, Outcome.ok.injEq] at hopen
    exact ⟨hopen.2 ▸ (touches_createFile path).of_run hcreate, hopen.1.symm⟩
  obtain ⟨htouch, rfl⟩ := htouch
  rw [Run.bind_err] at h
  obtain h | ⟨r, w₄, hblocks, h⟩ := h
  · simp only [Run.attempt] at h
    split at h <;> simp at h
  have htouch' : Adds (TouchesOnly path) w₃ w₄ :=
    (Run.Steps.attempt (touches_extractBlocks path _ _)).of_run hblocks
  cases r with
  | error e' =>
      simp only [discard, Bool.false_eq_true, if_false] at h
      have hremove : (Os.note (.remove path) : Extract Unit).run w₄ =
          (.ok (), w₄ ++ [.remove path]) := rfl
      rw [Run.bind_of_ok hremove] at h
      simp only [Run.throw_run, Prod.mk.injEq] at h
      exact ⟨[path], w₄, IsTrans.trans _ _ _ htouch htouch', h.2.symm⟩
  | ok u =>
      obtain ⟨v, hstamp, -⟩ := stamp_run false path entry.fileTime w₄
      simp only [hstamp] at h
      simp at h

/-- **An entry that fails** leaves no file. -/
theorem extractEntry_err {e : EggError}
    (h : (extractEntry crates os archive dest password false entry).run w = (.err e, w')) :
    CleansUp w w' := by
  rw [extractEntry, Run.bind_err] at h
  obtain h | ⟨path, w₁, hjoin, h⟩ := h
  · have hquiet := (Run.Steps.ofExcept (R := Adds fun e => e.isQuiet) _).of_run h
    exact .quiet hquiet
  obtain rfl : w = w₁ := (Run.ofExcept_ok.mp hjoin).2
  split at h
  · exact .quiet ((quiet_createDirAll path).of_run h)
  split at h
  · split at h
    · simp only [Run.throw_run, Prod.mk.injEq] at h
      exact .quiet (h.2 ▸ Std.Refl.refl w)
    · exact .quiet (createFile_err h)
  · exact extractData_err h

/-! ## a stream that fails -/

/-- The open output of the sink is a file it has created. -/
def SolidSink.WriterCreated (s : SolidSink) : Prop :=
  ∀ p, s.writer = some (.file p) → p ∈ s.created

/-- What the sink touches is what it has created. -/
def Recorded (x y : SolidSink × World) : Prop :=
  x.1.WriterCreated → y.1.WriterCreated ∧ x.1.created ⊆ y.1.created ∧
    Adds (fun e => ∀ p, e.changes = some p → p ∈ y.1.created) x.2 y.2

instance : Std.Refl Recorded := ⟨fun x h => ⟨h, List.Subset.refl _, Std.Refl.refl x.2⟩⟩

instance : IsTrans (SolidSink × World) Recorded where
  trans := by
    intro x y z hxy hyz hx
    obtain ⟨hy, hsub, hadds⟩ := hxy hx
    obtain ⟨hz, hsub', hadds'⟩ := hyz hy
    refine ⟨hz, List.Subset.trans hsub hsub', IsTrans.trans _ _ _ (hadds.mono fun e he p hp => ?_) hadds'⟩
    exact hsub' (he p hp)

/-- A file is created and recorded, or neither. -/
theorem recorded_openOutput {cfg : SinkConfig} (hpipe : cfg.pipeMode = false) :
    Run.Steps Recorded (SolidSink.openOutput os cfg entry) := by
  rw [SolidSink.openOutput, if_neg (by simp [hpipe])]
  refine .bind (.ofExcept _) fun path => ?_
  have hparent : Run.Steps Recorded (SolidSink.call (os.createParent path)) := by
    intro x hx
    refine ⟨hx, List.Subset.refl _, (quiet_createParent path x.2).mono fun e he p hp => ?_⟩
    rw [Event.changes_of_isQuiet he] at hp
    cases hp
  refine .bind hparent fun _ x hx => ?_
  cases hcreate : os.create x.2 path with
  | none =>
      have hrun : (SolidSink.call (os.createFile path)).run x =
          (.ok (), (x.1, x.2 ++ [.create path true])) :=
        SolidSink.call_ok.mpr ⟨_, by simp only [Os.createFile, hcreate], rfl⟩
      rw [Run.bind_of_ok hrun]
      refine ⟨fun p hp => ?_, List.subset_append_left _ _, [_], rfl, ?_⟩
      · rw [SolidSink.modify_run, Option.some.injEq, Target.file.injEq] at hp
        exact List.mem_append_right _ (List.mem_singleton.mpr hp.symm)
      · rw [List.forall_mem_singleton]
        intro p hp
        exact List.mem_append_right _ (List.mem_singleton.mpr (Option.some.inj hp).symm)
  | some e =>
      have hrun : (SolidSink.call (os.createFile path)).run x =
          (.err e, (x.1, x.2 ++ [.create path false])) := by
        simp only [SolidSink.call, Run.zoom, Os.createFile, hcreate]
      rw [Run.bind_of_err hrun]
      refine ⟨hx, List.Subset.refl _, [_], rfl, ?_⟩
      rw [List.forall_mem_singleton]
      intro p hp
      cases hp

/-- Every file the sink opens is recorded as created. -/
theorem recorded_methods {cfg : SinkConfig} (hpipe : cfg.pipeMode = false) :
    SolidSink.MethodRule os cfg Recorded where
  refl := fun x => Std.Refl.refl x
  trans := fun x y z => IsTrans.trans x y z
  update := by
    intro s s' w hcreated hwriter hs
    refine ⟨fun p hp => ?_, hcreated ▸ List.Subset.refl _, Std.Refl.refl w⟩
    rw [hcreated]
    obtain h | h := hwriter
    · exact hs p (h ▸ hp)
    · rw [h] at hp
      cases hp
  openOutput := fun entry _ => recorded_openOutput hpipe
  writeTo := by
    intro s w bs hs
    refine ⟨hs, List.Subset.refl _, ?_⟩
    cases ht : s.writer with
    | none => exact Std.Refl.refl w
    | some t =>
        refine ByteSink.steps_writeAll (Adds.write fun bs p hp => ?_) bs w
        cases t with
        | stdout => cases hp
        | file q =>
            obtain rfl := Option.some.inj hp
            exact hs q ht
  flush := fun s t w _ hs => ⟨hs, List.Subset.refl _, Adds.flush t w⟩

/-- **A stream that fails** leaves no file. -/
theorem extractStream_err {spans : Spans} {e : EggError}
    (h : (extractStream crates os archive entries dest password false filter spans).run w =
      (.err e, w')) : CleansUp w w' := by
  rw [extractStream, Run.bind_err] at h
  obtain h | ⟨stream, w₁, hread, h⟩ := h
  · exact .quiet ((adds_onReader (P := fun e => e.isQuiet) _).of_run h)
  obtain rfl : w = w₁ := congrArg Prod.snd hread
  change (decodeStream (solidMethod entries) crates os entries dest false filter spans stream).run w =
    (.err e, w') at h
  rw [decodeStream_run] at h
  have hrule : SolidSink.MethodRule os (solidConfig entries dest false filter spans) Recorded :=
    recorded_methods rfl
  have hsteps := hrule.decompressInto (decompressSolid crates (solidMethod entries) stream.length
    ((spans.crcSpans.map Prod.fst).sum % 2 ^ 64)) stream (.new, w)
    (fun p hp => by simp [SolidSink.new] at hp)
  rcases hinto : (decompressInto os (solidConfig entries dest false filter spans)
    (decompressSolid crates (solidMethod entries) stream.length
      ((spans.crcSpans.map Prod.fst).sum % 2 ^ 64)) stream).run (.new, w) with
    ⟨u | e' | _ | _, s, w₂⟩
  all_goals simp only [hinto, afterStream, Prod.mk.injEq, reduceCtorEq, false_and] at h
  rw [hinto] at hsteps
  exact ⟨s.created, w₂, hsteps.2.2, h.2.symm⟩

/-! ## what may be left -/

/-- The blocks of an archive with what their data decodes to: entry by entry, or cut out
of the one stream of a solid archive. -/
def blockOutputs (crates : Crates) (archive : EggArchive) (password : Option String) :
    List (EggBlock × List UInt8) :=
  if archive.isSolid then
    (solidBlocks archive.entries).zip
      (((solidBlocks archive.entries).map fun block => block.uncompressedSize.toNat).splitLengths
        (solidOutput crates archive password archive.entries))
  else archive.entries.flatMap fun entry =>
    entry.blocks.zip (entryBlocks crates archive password entry)

/-- A file that may be left: an empty one of an entry that declares no bytes, or one
that consists of bytes of blocks which passed their checksums. -/
def Verified (crates : Crates) (archive : EggArchive) (dest : Path) (password : Option String)
    (p : Path) (c : List UInt8) : Prop :=
  ∃ entry ∈ regular archive.entries, safeJoin dest entry.fileName = .ok p ∧
    (c = [] ∧ entry.uncompressedSize = 0 ∨
      ∃ outs ⊆ blockOutputs crates archive password,
        (∀ b ∈ outs, crc32 b.2 = b.1.crc32) ∧ c <:+: (outs.map Prod.snd).flatten)

/-- What writes nothing leaves nothing unverified. -/
theorem leaves_of_quiet {ok : Path → List UInt8 → Prop} {α : Type} {m : Extract α}
    (hm : Run.Steps (Adds fun e => e.isQuiet) m) (h : Leaves ok w₀ w) :
    Run.Returns (Leaves ok w₀) m w := fun _ => h.quiet (hm w)

/-! ### entry by entry -/

/-- Each block decodes to one list of bytes. -/
theorem length_decodedBlocks (blocks : List EggBlock) (d : Option Decryptor) :
    (decodedBlocks crates archive blocks d).length = blocks.length := by
  induction blocks generalizing d with
  | nil => rfl
  | cons block blocks ih => rw [decodedBlocks, List.length_cons, List.length_cons, ih]

/-- What the blocks of an entry decode to may be left, if their checksums are right. -/
theorem verified_entry (hsolid : archive.isSolid = false) (hmem : entry ∈ archive.entries)
    (hdir : entry.isDirectory = false) (hjoin : safeJoin dest entry.fileName = .ok p)
    (hsums : (entryBlocks crates archive password entry).map crc32 =
      entry.blocks.map EggBlock.crc32) :
    Verified crates archive dest password p
      (entryBlocks crates archive password entry).flatten := by
  refine ⟨entry, List.mem_filter.mpr ⟨hmem, by simp [hdir]⟩, hjoin, .inr ?_⟩
  have hlen : (entryBlocks crates archive password entry).length = entry.blocks.length :=
    length_decodedBlocks _ _
  refine ⟨entry.blocks.zip (entryBlocks crates archive password entry), ?_, ?_, ?_⟩
  · rw [blockOutputs, if_neg (by simp [hsolid])]
    exact fun b hb => List.mem_flatMap.mpr ⟨entry, hmem, hb⟩
  · intro b hb
    obtain ⟨i, hi, rfl⟩ := List.mem_iff_getElem.mp hb
    have hget := congrArg (·[i]?) hsums
    rw [List.length_zip] at hi
    have hi₁ : i < (entryBlocks crates archive password entry).length := by omega
    have hi₂ : i < entry.blocks.length := by omega
    simpa [List.getElem?_map, List.getElem?_eq_getElem hi₁, List.getElem?_eq_getElem hi₂] using hget
  · rw [List.map_snd_zip hlen.le]

/-- An entry leaves its verified content, or nothing. -/
theorem leaves_extractEntry (hcrates : crates.StopsOnError) (hazo : crates.AzoChecksum)
    (hsolid : archive.isSolid = false) (hmem : entry ∈ archive.entries)
    (h : Leaves (Verified crates archive dest password) w₀ w) :
    Run.Returns (Leaves (Verified crates archive dest password) w₀)
      (extractEntry crates os archive dest password false entry) w := by
  intro hreturned
  rcases hrun : (extractEntry crates os archive dest password false entry).run w with
    ⟨u | e | _ | _, w'⟩
  · by_cases hdir : entry.isDirectory = true
    · have hquiet : Run.Steps (Adds fun e => e.isQuiet)
          (extractEntry crates os archive dest password false entry) := by
        rw [extractEntry]
        refine .bind (.ofExcept _) fun path => ?_
        rw [if_pos hdir]
        exact .ite (.pure _) (quiet_createDirAll path)
      exact h.quiet (hquiet.of_run hrun)
    rw [Bool.not_eq_true] at hdir
    by_cases hnil : entry.blocks = []
    · obtain ⟨path, hjoin, hsize, hwrote⟩ := extractEntry_ok_empty hdir hnil .start hrun
      refine h.wrote hwrote fun p c hpc => ?_
      obtain ⟨rfl, rfl⟩ : p = path ∧ c = [] := by simpa using hpc
      exact ⟨entry, List.mem_filter.mpr ⟨hmem, by simp [hdir]⟩, hjoin, .inl ⟨rfl, hsize⟩⟩
    · obtain ⟨path, hjoin, hwrote, -, hsums⟩ := extractEntry_ok hcrates hdir hnil .start hrun
      refine h.wrote hwrote fun p c hpc => ?_
      obtain ⟨rfl, rfl⟩ : p = path ∧ c = (entryBlocks crates archive password entry).flatten := by
        simpa [entryTarget] using hpc
      exact verified_entry hsolid hmem hdir hjoin (hsums hazo)
  · exact h.cleanUp (extractEntry_err hrun)
  · rw [hrun] at hreturned
    cases hreturned
  · rw [hrun] at hreturned
    cases hreturned

/-! ### a solid archive -/

/-- The files of a stream that went through may be left. -/
theorem verified_stream (hsolid : archive.isSolid = true) {fs bs : List (List UInt8)}
    (hfs : solidOutput crates archive password archive.entries = fs.flatten)
    (hbs : solidOutput crates archive password archive.entries = bs.flatten)
    (hblocks : bs.map (fun b => (b.length, crc32 b)) =
      (solidBlocks archive.entries).map fun block => (block.uncompressedSize.toNat, block.crc32))
    (hp : (.file p, c) ∈ fileOutputs dest false filter archive.entries fs) :
    Verified crates archive dest password p c := by
  obtain ⟨q, hq, hout⟩ := List.mem_filterMap.mp hp
  obtain ⟨hentry, hc⟩ := List.of_mem_zip hq
  obtain ⟨t, ht, heq⟩ := Option.map_eq_some_iff.mp hout
  rw [Prod.mk.injEq] at heq
  obtain ⟨rfl, rfl⟩ := heq
  have hjoin : safeJoin dest q.1.fileName = .ok p := by
    rw [outputTarget] at ht
    split at ht
    · cases hs : safeJoin dest q.1.fileName with
      | error e => simp [hs, Except.toOption] at ht
      | ok path => simpa [hs, Except.toOption] using ht
    · cases ht
  have hsizes : bs.map List.length =
      (solidBlocks archive.entries).map fun block => block.uncompressedSize.toNat := by
    simpa [Function.comp_def] using congrArg (List.map Prod.fst) hblocks
  have hlen : bs.length = (solidBlocks archive.entries).length := by
    simpa using congrArg List.length hblocks
  have houts : blockOutputs crates archive password = (solidBlocks archive.entries).zip bs := by
    rw [blockOutputs, if_pos hsolid, ← hsizes, hbs, splitLengths_flatten]
  refine ⟨q.1, hentry, hjoin, .inr ⟨blockOutputs crates archive password, List.Subset.refl _,
    fun b hb => ?_, ?_⟩⟩
  · rw [houts] at hb
    obtain ⟨i, hi, rfl⟩ := List.mem_iff_getElem.mp hb
    have hget := congrArg (·[i]?) hblocks
    rw [List.length_zip] at hi
    have hi₁ : i < bs.length := by omega
    have hi₂ : i < (solidBlocks archive.entries).length := by omega
    simp only [List.getElem?_map, List.getElem?_eq_getElem hi₁, List.getElem?_eq_getElem hi₂,
      Option.map_some, Option.some.injEq, Prod.mk.injEq] at hget
    simpa using hget.2
  · rw [houts, List.map_snd_zip hlen.le, ← hbs, hfs]
    obtain ⟨before, after, rfl⟩ := List.append_of_mem hc
    exact ⟨before.flatten, after.flatten, by simp⟩

/-- A solid stream leaves verified content, or nothing. -/
theorem leaves_extractStream (hcrates : crates.StopsOnError) (hsolid : archive.isSolid = true)
    (h : Leaves (Verified crates archive dest password) w₀ w) :
    Run.Returns (Leaves (Verified crates archive dest password) w₀)
      (extractStream crates os archive archive.entries dest password false filter
        (.ofEntries archive.entries)) w := by
  intro hreturned
  rcases hrun : (extractStream crates os archive archive.entries dest password false filter
    (.ofEntries archive.entries)).run w with ⟨u | e | _ | _, w'⟩
  · obtain ⟨fs, bs, hfs, hbs, -, hblocks, hwrote⟩ := extractStream_ok hcrates hrun
    exact h.wrote hwrote fun p c hp => verified_stream hsolid hfs hbs hblocks hp
  · exact h.cleanUp (extractStream_err hrun)
  · rw [hrun] at hreturned
    cases hreturned
  · rw [hrun] at hreturned
    cases hreturned

/-- Files without data are left empty, as they should be. -/
theorem leaves_createEmptyFiles
    (h : Leaves (Verified crates archive dest password) w₀ w) :
    Run.Returns (Leaves (Verified crates archive dest password) w₀)
      (createEmptyFiles os archive.entries dest filter (.ofEntries archive.entries)) w := by
  rw [createEmptyFiles]
  split
  · exact .throw h
  · next hsizes =>
      refine .forEach (fun span hspan w h => ?_) h
      have hzero : span.2 = 0 := by
        by_contra hne
        exact hsizes (List.any_eq_true.mpr ⟨span, hspan, by simpa using hne⟩)
      obtain ⟨q, hq, rfl⟩ := List.mem_map.mp hspan
      have hentry : archive.entries[q.2]? = some q.1 :=
        getElem?_of_mem_zipIdx (List.mem_of_mem_filter hq)
      have hregular : q.1 ∈ regular archive.entries := by
        rw [← map_regularIdx]
        exact List.mem_map_of_mem hq
      rw [createEmpty, hentry]
      dsimp only
      split
      · exact .pure h
      · refine .bind (leaves_of_quiet (.ofExcept _) h) fun path w₁ hrun h₁ => ?_
        have hjoin := (Run.ofExcept_ok.mp hrun).1
        intro hreturned
        rcases hcreate : (createFile os path).run w₁ with ⟨u | e | _ | _, w'⟩
        · refine h₁.wrote (createFile_ok .start hcreate) fun p c hpc => ?_
          obtain ⟨rfl, rfl⟩ : p = path ∧ c = [] := by simpa using hpc
          exact ⟨q.1, hregular, hjoin, .inl ⟨rfl, UInt64.toNat_inj.mp hzero⟩⟩
        · exact h₁.quiet (createFile_err hcreate)
        · rw [hcreate] at hreturned
          cases hreturned
        · rw [hcreate] at hreturned
          cases hreturned

/-- The extraction of a solid archive leaves verified content only. -/
theorem leaves_extractAllSolid (hcrates : crates.StopsOnError) (hsolid : archive.isSolid = true)
    (h : Leaves (Verified crates archive dest password) w₀ w) :
    Run.Returns (Leaves (Verified crates archive dest password) w₀)
      (extractAllSolid crates os archive archive.entries dest password false filter) w := by
  refine .bind (leaves_of_quiet (quiet_scanEntries _ _) h) fun spans w₁ hscan h₁ => ?_
  obtain rfl := spans_ofEntries hscan
  refine .bind ?_ fun _ w₂ _ h₂ => leaves_of_quiet quiet_applyTimes h₂
  rw [extractSpans]
  split
  · exact leaves_extractStream hcrates hsolid h₁
  · exact leaves_createEmptyFiles h₁

/-- **A solid extraction that fails** leaves no file of its stream. -/
theorem extractAllSolid_err {e : EggError} (hblocks : solidBlocks entries ≠ [])
    (h : (extractAllSolid crates os archive entries dest password false filter).run w =
      (.err e, w')) : CleansUp w w' := by
  rw [extractAllSolid, Run.bind_err] at h
  obtain h | ⟨spans, w₁, hscan, h⟩ := h
  · exact .quiet ((quiet_scanEntries _ _).of_run h)
  have hquiet := (quiet_scanEntries _ _).of_run hscan
  have hfiles : SafeFiles entries := by
    intro entry hentry
    rw [← map_regularIdx] at hentry
    obtain ⟨q, hq, rfl⟩ := List.mem_map.mp hentry
    exact (scanEntries_ok hscan).2 q hq
  obtain rfl := spans_ofEntries hscan
  rw [extractSpans, if_pos (blockReads_ne_nil hblocks), Run.bind_err] at h
  obtain h | ⟨_, w₂, -, h⟩ := h
  · exact (extractStream_err h).after hquiet
  · obtain ⟨v, htimes, -⟩ := applyTimes_run dest false filter hfiles w₂
    rw [htimes] at h
    cases h

/-! ## all of an extraction -/

/-- What was created since `w` is gone. -/
def Undone (w w' : World) : Prop := ∀ p, Created w w' p → files w' p = none

/-- What cleans up behind itself is undone. -/
theorem CleansUp.undone (h : CleansUp w w') : Undone w w' := by
  obtain ⟨es, rfl, hgone⟩ := h.gone
  rintro p ⟨es', heq, hmem⟩
  rw [List.append_cancel_left_eq] at heq
  exact (hgone p).1 (heq ▸ hmem)

theorem quiet_checkMatched (filter : Option (List String)) :
    Run.Steps (Adds fun e => e.isQuiet) (checkMatched archive filter) := by
  cases filter with
  | none => exact .pure _
  | some names =>
      rw [checkMatched]
      split
      · exact .throw _
      · exact .pure _

/-- An extraction to disk leaves verified content only. -/
theorem leaves_extraction (hcrates : crates.StopsOnError) (hazo : crates.AzoChecksum)
    (filter : Option (List String)) (w : World) :
    Run.Returns (Leaves (Verified crates archive dest password) w)
      (extraction crates os archive dest password false filter) w := by
  cases hsolid : archive.isSolid with
  | false =>
      rw [extraction_entries _ _ _ _ _ _ _ hsolid]
      refine .bind (.forEach (fun entry hentry w h => ?_) .start) fun _ w₁ _ h₁ =>
        leaves_of_quiet (quiet_checkMatched _) h₁
      exact leaves_extractEntry hcrates hazo hsolid (List.mem_of_mem_filter hentry) h
  | true =>
      rw [extraction_solid _ _ _ _ _ _ _ hsolid]
      exact .bind (leaves_extractAllSolid hcrates hsolid .start) fun _ w₁ _ h₁ =>
        leaves_of_quiet (quiet_checkMatched _) h₁

/-- **No unverified file is left behind.**  Of the files that an extraction creates those
are left that are verified, however it ends; and an entry or a stream that fails has
removed what it created. -/
theorem no_unverified_file (hcrates : crates.StopsOnError) (hazo : crates.AzoChecksum) (os : Os)
    (archive : EggArchive) (dest : Path) (password : Option String)
    (filter : Option (List String)) (w : World) :
    (∀ o w', (extraction crates os archive dest password false filter).run w = (o, w') →
      o.returned → ∀ p c, Created w w' p → files w' p = some c →
        Verified crates archive dest password p c) ∧
    (∀ entry e w', (extractEntry crates os archive dest password false entry).run w =
      (.err e, w') → Undone w w') ∧
    (solidBlocks archive.entries ≠ [] → ∀ e w', (extractAllSolid crates os archive archive.entries
      dest password false filter).run w = (.err e, w') → Undone w w') := by
  refine ⟨fun o w' hrun hreturned => ?_, fun _ _ _ h => (extractEntry_err h).undone,
    fun hblocks _ _ h => (extractAllSolid_err hblocks h).undone⟩
  have hleaves := @leaves_extraction crates os archive dest password hcrates hazo filter w
  rw [Run.Returns, hrun] at hleaves
  exact (hleaves hreturned).allowed

theorem Crates.storeOnly_azoChecksum : Crates.storeOnly.AzoChecksum := fun _ _ _ => trivial

/-- Two stored blocks with the right checksums, and a third with a wrong one. -/
def badSecond : EggArchive where
  reader := storedBytes.reader
  entries := [fullEntry, ⟨"c", 1, 1, [⟨.store, 1, 1, 0, 0⟩], none, none, 0, none⟩]
  isEncrypted := false
  isSolid := false
  headerId := 0
  splitInfo := none

/-- The first file is left, the second is not. -/
theorem no_unverified_file_sample :
    ∃ w', (extraction .storeOnly .obliging badSecond [.normal "out"] none false none).run [] =
        (.err (.invalidFileCrc 0 0xE8B7BE43), w') ∧
      files w' [.normal "out", .normal "ab"] = some [0x61, 0x62] ∧
      Verified .storeOnly badSecond [.normal "out"] none [.normal "out", .normal "ab"]
        [0x61, 0x62] ∧
      files w' [.normal "out", .normal "c"] = none := by
  let r := (extraction .storeOnly .obliging badSecond [.normal "out"] none false none).run []
  have hrun : (extraction .storeOnly .obliging badSecond [.normal "out"] none false none).run [] =
      (.err (.invalidFileCrc 0 0xE8B7BE43), r.2) := Prod.ext (by decide +kernel) rfl
  have hfile : files r.2 [.normal "out", .normal "ab"] = some [0x61, 0x62] := by decide +kernel
  have hcreated : Created [] r.2 [.normal "out", .normal "ab"] := ⟨r.2, rfl, by decide +kernel⟩
  have hverified := (no_unverified_file Crates.storeOnly_stops Crates.storeOnly_azoChecksum
    .obliging badSecond [.normal "out"] none none []).1 _ _ hrun rfl _ _ hcreated hfile
  exact ⟨r.2, hrun, hfile, hverified, by decide +kernel⟩

end Unegg
