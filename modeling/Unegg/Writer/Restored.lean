import Unegg.Extract.Delivered
import Unegg.Extract.Solid
import Unegg.Writer

/-!
# Unegg.Writer.Restored

What packed files come to: the entries that are read back unlock with the
password (`ReadBack.setup`, `ReadBack.authenticates`), and an extraction that
delivers their contents has restored the files (`Restored.of_delivered`).
-/

namespace Unegg

open Prog Bytes Crc32

variable {crates : Crates} {archive : EggArchive} {dest : Path} {password : Option String}
  {pipeMode : Bool} {filter : Option (List String)} {entry : EggFileEntry} {pwd : String}
  {f : PackedFile}

/-! ## authentication -/

/-- A block that is there goes into the message. -/
theorem hmacLoop_run {n r : Nat} {msg : List UInt8} {c : Cursor} (hn : r < n)
    (h : r ≤ c.rest.length) :
    (Run.loop hmacStep n (r, msg)).run c = (.ok (msg ++ c.rest.take r), c.advance r) := by
  induction n generalizing r msg c with
  | zero => omega
  | succ n ih =>
      by_cases hzero : r = 0
      · subst hzero
        have hdone : (hmacStep (0, msg)).run c = (.ok (.done msg), c) := rfl
        rw [Run.loop_done hdone]
        simp
      · have hle : min r 8192 ≤ c.rest.length := by omega
        have hread : (readExact (min r 8192)).run c =
            (.ok (c.rest.take (min r 8192)), c.advance (min r 8192)) := by
          simp only [readExact, if_pos hle]
        have hnext : (hmacStep (r, msg)).run c =
            (.ok (.next (r - min r 8192, msg ++ c.rest.take (min r 8192))),
              c.advance (min r 8192)) := by
          rw [hmacStep, if_neg hzero, Run.bind_of_ok hread]
          rfl
        have hrest : r - min r 8192 ≤ (c.advance (min r 8192)).rest.length := by
          rw [Cursor.rest_advance, List.length_drop]
          omega
        rw [Run.loop_next hnext, ih (by omega) hrest, Cursor.rest_advance, Cursor.advance_advance,
          List.append_assoc, ← List.take_add]
        have hsum : min r 8192 + (r - min r 8192) = r := by omega
        rw [hsum]

theorem hmacMessage_run {blocks : List EggBlock} {msg : List UInt8} {c : Cursor}
    (hc : c.data = archive.reader.data)
    (h : ∀ block ∈ blocks, (blockData archive block).length = block.compressedSize.toNat) :
    ∃ c', (hmacMessage blocks msg).run c = (.ok (msg ++ blocks.flatMap (blockData archive)), c') := by
  induction blocks generalizing msg c with
  | nil => exact ⟨c, by simp [hmacMessage]⟩
  | cons block blocks ih =>
      have hseek : (seekStart block.dataPos).run c = (.ok (), { c with pos := block.dataPos }) := rfl
      have htake : ({ c with pos := block.dataPos } : Cursor).rest.take block.compressedSize.toNat =
          blockData archive block := by
        simp only [Cursor.rest, hc, blockData]
      have hle : block.compressedSize.toNat ≤ ({ c with pos := block.dataPos } : Cursor).rest.length := by
        have hlen := h block List.mem_cons_self
        rw [← htake, List.length_take] at hlen
        omega
      obtain ⟨c₁, hc₁⟩ : ∃ c₁, c₁ = ({ c with pos := block.dataPos } : Cursor).advance
        block.compressedSize.toNat := ⟨_, rfl⟩
      have hloop : (Run.loop hmacStep (block.compressedSize.toNat + 1)
          (block.compressedSize.toNat, msg)).run { c with pos := block.dataPos } =
          (.ok (msg ++ blockData archive block), c₁) := by
        rw [hmacLoop_run (Nat.lt_add_one _) hle, htake, hc₁]
      have hdata : c₁.data = archive.reader.data := by
        rw [hc₁]
        exact hc
      obtain ⟨c', hrun⟩ := ih hdata fun b hb => h b (List.mem_cons_of_mem _ hb)
      refine ⟨c', ?_⟩
      rw [hmacMessage, Run.bind_of_ok hseek]
      simp only
      rw [Run.bind_of_ok hloop, hrun, List.flatMap_cons, List.append_assoc]

/-- A footer that is the one of the blocks is accepted. -/
theorem authenticate_run {crypto : Option FileCrypto}
    (hauth : ∀ auth, crypto.bind FileCrypto.auth = some auth →
      auth.tag = (crates.hmacSha1 auth.key (entry.blocks.flatMap (blockData archive))).take 10)
    (h : ∀ block ∈ entry.blocks, (blockData archive block).length = block.compressedSize.toNat) :
    ((authenticate crates entry crypto).run archive.reader).1 = .ok () := by
  rw [authenticate]
  cases hcrypto : crypto.bind FileCrypto.auth with
  | none => rfl
  | some auth =>
      obtain ⟨c', hmessage⟩ : ∃ c', (hmacMessage entry.blocks []).run archive.reader =
        (.ok ([] ++ entry.blocks.flatMap (blockData archive)), c') := hmacMessage_run rfl h
      have htag := hauth auth hcrypto
      have hlen : auth.tag.length = 10 := by rw [htag, Lock.length_tag]
      simp only
      rw [verifyHmac, Run.bind_of_ok hmessage, List.nil_append, if_neg]
      · rfl
      · simp [hlen, ← htag, crates.length_hmacSha1]

/-! ## unlocking -/

/-- The password is the one a file was packed with, or it is not locked. -/
def Unlocks (password : Option String) (pwd : String) (f : PackedFile) : Prop :=
  password = some pwd ∨ f.lock = none

/-- Setting up a packed entry gives the keys it was packed under, and the
footer of its data. -/
theorem ReadBack.setup (h : ReadBack crates archive pwd entry f)
    (hunlocks : Unlocks password pwd f) :
    setupDecryptor crates entry password = .ok (f.lock.map fun l =>
      ⟨l.decryptor crates pwd, l.auth crates pwd (f.stored crates pwd)⟩) := by
  have hinfo := h.info
  cases hlock : f.lock with
  | none =>
      rw [hlock] at hinfo
      simp [setupDecryptor, hinfo]
  | some l =>
      obtain rfl : password = some pwd := by simpa [Unlocks, hlock] using hunlocks
      rw [hlock] at hinfo
      rw [l.setup hinfo]
      rfl

theorem length_storedAt {data : List UInt8} {p : Nat} {bs : List BlockField}
    (h : (blocksAt p bs).map (storedAt data) = bs.map BlockField.data) :
    ∀ block ∈ blocksAt p bs, (storedAt data block).length = block.compressedSize.toNat := by
  induction bs generalizing p with
  | nil => simp [blocksAt]
  | cons b bs ih =>
      simp only [blocksAt, List.map_cons, List.cons.injEq] at h
      rw [blocksAt, List.forall_mem_cons]
      refine ⟨?_, ih h.2⟩
      rw [b.toNat_compressedSize, h.1]

theorem ReadBack.data_length (h : ReadBack crates archive pwd entry f) :
    ∀ block ∈ entry.blocks, (blockData archive block).length = block.compressedSize.toNat := by
  obtain ⟨p, hblocks⟩ := h.blocks
  have hdata := h.data
  rw [hblocks] at hdata ⊢
  exact length_storedAt hdata

theorem ReadBack.message (h : ReadBack crates archive pwd entry f) :
    entry.blocks.flatMap (blockData archive) = f.stored crates pwd := by
  rw [PackedFile.stored, List.flatMap_def, List.flatMap_def]
  exact congrArg List.flatten h.data

/-- A footer of the data as it is stored. -/
theorem Lock.tag_of_auth {l : Lock} {stored : List UInt8} {auth : AuthInfo}
    (h : l.auth crates pwd stored = some auth) :
    auth.tag = (crates.hmacSha1 auth.key stored).take 10 := by
  cases l with
  | zipCrypto filler crc => simp [Lock.auth] at h
  | ctr c salt hsalt footer =>
      cases footer with
      | false => simp [Lock.auth] at h
      | true =>
          simp only [Lock.auth, if_true, Option.some.injEq] at h
          rw [← h]

/-- The footer of a packed entry is accepted. -/
theorem ReadBack.authenticates (h : ReadBack crates archive pwd entry f) :
    ((authenticate crates entry (f.lock.map fun l =>
      ⟨l.decryptor crates pwd, l.auth crates pwd (f.stored crates pwd)⟩)).run archive.reader).1 =
      .ok () := by
  refine authenticate_run (fun auth hauth => ?_) h.data_length
  cases hlock : f.lock with
  | none => simp [hlock] at hauth
  | some l =>
      simp only [hlock, Option.map_some, Option.bind_some] at hauth
      rw [h.message]
      exact Lock.tag_of_auth hauth

/-! ## archives -/

/-- A filter selects a name. -/
def selects (filter : Option (List String)) (name : String) : Bool :=
  match filter with
  | none => true
  | some pats => pats.any (matchesFilter name)

/-- The files among them, which are not directories. -/
def plain (fs : List PackedFile) : List PackedFile :=
  fs.filter fun f => !f.isDirectory

/-- The files that a filter selects. -/
def chosen (filter : Option (List String)) (fs : List PackedFile) :
    List PackedFile :=
  (plain fs).filter fun f => selects filter f.name

/-- No two names lead to one path. -/
def ApartNames (dest : Path) (names : List String) : Prop :=
  names.Pairwise fun n n' => ∀ p, safeJoin dest n = .ok p → safeJoin dest n' ≠ .ok p

/-- The files that are selected are there, each with its content, and nothing
else has changed. -/
structure Restored (dest : Path) (pipeMode : Bool) (filter : Option (List String))
    (fs : List PackedFile) (w v : World) : Prop where
  written : written v = written w ++ (chosen filter fs).flatMap PackedFile.content
  files : pipeMode = false → ApartNames dest (fs.map PackedFile.name) →
    ∀ f ∈ chosen filter fs, ∀ p, safeJoin dest f.name = .ok p → files v p = some f.content
  others : pipeMode = false → ∀ p, (∀ f ∈ chosen filter fs, safeJoin dest f.name ≠ .ok p) →
    Unegg.files v p = Unegg.files w p
  directories : pipeMode = false → ∀ f ∈ fs, f.isDirectory → selects filter f.name →
    ∀ p, safeJoin dest f.name = .ok p → p ∈ directories v

section Lists

variable {entries : List EggFileEntry} {fs : List PackedFile} {w v : World}

theorem ReadBack.selected (h : ReadBack crates archive pwd entry f) :
    shouldExtract entry filter = selects filter f.name := by
  cases filter with
  | none => rfl
  | some pats => simp [shouldExtract, selects, h.name]

theorem forall₂_plain (h : List.Forall₂ (ReadBack crates archive pwd) entries fs) :
    List.Forall₂ (ReadBack crates archive pwd) (regular entries) (plain fs) := by
  refine List.rel_filter ?_ h
  intro entry f hread
  dsimp only
  rw [hread.directory]

/-- What is delivered, file by file. -/
theorem forall₂_deliveries (h : List.Forall₂ (ReadBack crates archive pwd) entries fs) :
    List.Forall₂ (fun d f => ReadBack crates archive pwd d.1 f ∧ d.2 = f.content)
      (deliveries filter entries ((plain fs).map PackedFile.content)) (chosen filter fs) := by
  have hzip : List.Forall₂ (fun d f => ReadBack crates archive pwd d.1 f ∧ d.2 = f.content)
      ((regular entries).zip ((plain fs).map PackedFile.content)) (plain fs) := by
    have hplain := forall₂_plain h
    generalize regular entries = es at hplain
    generalize plain fs = gs at hplain
    induction hplain with
    | nil => exact .nil
    | cons h _ ih => exact .cons ⟨h, rfl⟩ ih
  refine List.rel_filter ?_ hzip
  rintro d f ⟨hread, -⟩
  dsimp only
  rw [hread.selected]

theorem distinctTargets_of_names (h : List.Forall₂ (ReadBack crates archive pwd) entries fs)
    (hapart : ApartNames dest (fs.map PackedFile.name)) : DistinctTargets dest entries := by
  have hnames : entries.map EggFileEntry.fileName = fs.map PackedFile.name := by
    induction h with
    | nil => rfl
    | cons h _ ih => rw [List.map_cons, List.map_cons, h.name, ih (List.pairwise_cons.mp hapart).2]
  rw [← hnames, ApartNames, List.pairwise_map] at hapart
  exact hapart

/-- What the extraction of entries delivers is what was packed. -/
theorem Restored.of_delivered (h : List.Forall₂ (ReadBack crates archive pwd) entries fs)
    (hd : Delivered dest pipeMode filter entries ((plain fs).map PackedFile.content) w v) :
    Restored dest pipeMode filter fs w v := by
  have hdeliveries : List.Forall₂ _ (deliveries filter entries _) (chosen filter fs) :=
    forall₂_deliveries h
  refine ⟨?_, ?_, ?_, ?_⟩
  · rw [hd.written]
    congr 1
    generalize deliveries filter entries ((plain fs).map PackedFile.content) = ds at hdeliveries
    generalize chosen filter fs = gs at hdeliveries
    induction hdeliveries with
    | nil => rfl
    | cons h _ ih => rw [List.flatMap_cons, List.flatMap_cons, h.2, ih]
  · rintro rfl hapart f hf p hp
    obtain ⟨⟨entry, content⟩, hmem, hread, rfl⟩ := (exists_of_forall₂ hdeliveries).2 f hf
    refine hd.files_of_mem (distinctTargets_of_names h hapart) hmem ?_
    rwa [hread.name]
  · rintro rfl p hp
    refine hd.files_of_not fun entry hentry => ?_
    rw [← deliveries_fst hd.length] at hentry
    obtain ⟨d, hmem, rfl⟩ := List.mem_map.mp hentry
    obtain ⟨f, hf, hread, -⟩ := (exists_of_forall₂ hdeliveries).1 d hmem
    rw [hread.name]
    exact hp f hf
  · rintro rfl f hf hdir hselects p hp
    obtain ⟨entry, hmem, hread⟩ := (exists_of_forall₂ h).2 f hf
    refine (hd.directories rfl p).mpr (.inr ⟨entry, ?_, ?_⟩)
    · exact List.mem_filter.mpr ⟨hmem, by rw [hread.selected, hselects]⟩
    · rw [entryDirectories, hread.name, hp, hread.directory, hdir]
      simp [Except.toOption]

end Lists

/-- Every name of the filter matches a file. -/
def Matched (filter : Option (List String)) (fs : List PackedFile) : Prop :=
  ∀ pats, filter = some pats → ∀ pat ∈ pats, ∃ f ∈ fs, matchesFilter f.name pat

theorem checkMatched_run {fs : List PackedFile}
    (h : List.Forall₂ (ReadBack crates archive pwd) archive.entries fs) (hmatched : Matched filter fs)
    (w : World) : (checkMatched archive filter).run w = (.ok (), w) := by
  cases filter with
  | none => rfl
  | some pats =>
      have hnone : unmatched archive pats = none := by
        rw [unmatched, List.find?_eq_none]
        intro pat hpat
        obtain ⟨f, hf, hmatch⟩ := hmatched pats rfl pat hpat
        obtain ⟨entry, hentry, hread⟩ := (exists_of_forall₂ h).2 f hf
        have hany : archive.entries.any fun e => matchesFilter e.fileName pat :=
          List.any_eq_true.mpr ⟨entry, hentry, by rwa [hread.name]⟩
        simp [hany]
      simp [checkMatched, hnone]

end Unegg
