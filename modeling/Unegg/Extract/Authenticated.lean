import Unegg.Extract.Selection
import Unegg.Extract.Solid

/-!
# Unegg.Extract.Authenticated

Nothing is put out before it has been authenticated
(`authenticated_before_output`).

An AES or LEA entry carries a footer, the head of the HMAC of its stored blocks
under a derived key (`Seal`).  An entry whose footer does not match stops its
own extraction, and that of the whole archive, before the first file is opened
for it.
-/

namespace Unegg

open Prog Bytes

variable {crates : Crates} {os : Os} {archive : EggArchive} {entries : List EggFileEntry}
  {dest : Path} {password : Option String} {pipeMode : Bool} {filter : Option (List String)}
  {entry : EggFileEntry}

/-! ## seals -/

/-- The sizes of the salt and of the keys, for the methods with a footer. -/
def macSizes : EncryptionMethod → Option (Nat × Nat)
  | .aes128 | .lea128 => some (8, 16)
  | .aes256 | .lea256 => some (16, 32)
  | .zipCrypto | .unknown _ => none

/-- What the footer of an entry is checked with. -/
structure Seal where
  salt : List UInt8
  keySize : Nat
  footer : List UInt8

/-- The second of the keys that are derived from a password. -/
def Seal.authKey (crates : Crates) (s : Seal) (pwd : String) : List UInt8 :=
  ((crates.pbkdf2 (utf8Bytes pwd) s.salt 1000 (s.keySize * 2 + 2)).drop s.keySize).take s.keySize

/-- The entry has blocks and a footer. -/
structure Sealed (entry : EggFileEntry) (s : Seal) : Prop where
  file : entry.isDirectory = false
  blocks : entry.blocks ≠ []
  info : ∃ ei saltSize, entry.encryptInfo = some ei ∧
    macSizes ei.method = some (saltSize, s.keySize) ∧ s.salt = ei.data.take saltSize ∧
    authFooter ei.data saltSize = some s.footer

/-- The footer is that of the blocks, as they are stored. -/
def Authentic (crates : Crates) (archive : EggArchive) (password : Option String)
    (entry : EggFileEntry) (s : Seal) : Prop :=
  ∃ pwd, password = some pwd ∧ (crates.hmacSha1 (s.authKey crates pwd)
    (entry.blocks.flatMap (blockData archive))).take 10 = s.footer

/-- The mode bytes of the key sizes. -/
def IsMode (mode : UInt8) (keySize : Nat) : Prop :=
  (mode = 1 ∧ keySize = 16) ∨ (mode = 3 ∧ keySize = 32)

section Keys

variable {mode : UInt8} {keySize saltSize : Nat} {pwd : String} {salt verifier data : List UInt8}

theorem aes_authKey {d : AesCtrDecryptor} (hmode : IsMode mode keySize)
    (h : AesCtrDecryptor.new crates mode pwd salt verifier = .ok d) : d.authKey =
      ((crates.pbkdf2 (utf8Bytes pwd) salt 1000 (keySize * 2 + 2)).drop keySize).take keySize := by
  have hne : ¬ (3 : UInt8) = 1 := by decide
  rcases hmode with ⟨rfl, rfl⟩ | ⟨rfl, rfl⟩
  all_goals
    simp only [AesCtrDecryptor.new, hne, if_true, if_false] at h
    split at h
    · simp at h
    · rw [← Except.ok.inj h]

theorem lea_authKey {d : LeaCtrDecryptor} (hmode : IsMode mode keySize)
    (h : LeaCtrDecryptor.new crates mode pwd salt verifier = .ok d) : d.authKey =
      ((crates.pbkdf2 (utf8Bytes pwd) salt 1000 (keySize * 2 + 2)).drop keySize).take keySize := by
  have hne : ¬ (3 : UInt8) = 1 := by decide
  rcases hmode with ⟨rfl, rfl⟩ | ⟨rfl, rfl⟩
  all_goals
    simp only [LeaCtrDecryptor.new, hne, if_true, if_false] at h
    split at h
    · simp at h
    · rw [← Except.ok.inj h]

theorem buildAes_auth {fc : FileCrypto} (hmode : IsMode mode keySize)
    (h : buildAes crates data pwd saltSize mode = .ok fc) :
    fc.auth = (authFooter data saltSize).map fun tag =>
      ⟨((crates.pbkdf2 (utf8Bytes pwd) (data.take saltSize) 1000 (keySize * 2 + 2)).drop keySize).take
        keySize, tag⟩ := by
  rw [buildAes] at h
  split at h
  · simp at h
  · cases hnew : AesCtrDecryptor.new crates mode pwd (data.take saltSize)
      ((data.drop saltSize).take 2) with
    | error e => simp [hnew, bind, Except.bind] at h
    | ok d =>
        rw [← aes_authKey hmode hnew]
        simp only [hnew, bind, Except.bind, pure, Except.pure, Except.ok.injEq] at h
        rw [← h]

theorem buildLea_auth {fc : FileCrypto} (hmode : IsMode mode keySize)
    (h : buildLea crates data pwd saltSize mode = .ok fc) :
    fc.auth = (authFooter data saltSize).map fun tag =>
      ⟨((crates.pbkdf2 (utf8Bytes pwd) (data.take saltSize) 1000 (keySize * 2 + 2)).drop keySize).take
        keySize, tag⟩ := by
  rw [buildLea] at h
  split at h
  · simp at h
  · cases hnew : LeaCtrDecryptor.new crates mode pwd (data.take saltSize)
      ((data.drop saltSize).take 2) with
    | error e => simp [hnew, bind, Except.bind] at h
    | ok d =>
        rw [← lea_authKey hmode hnew]
        simp only [hnew, bind, Except.bind, pure, Except.pure, Except.ok.injEq] at h
        rw [← h]

end Keys

/-- The decryptor of a sealed entry comes with the key and the footer. -/
theorem Sealed.setup {s : Seal} {crypto : Option FileCrypto} (hs : Sealed entry s)
    (h : setupDecryptor crates entry password = .ok crypto) :
    ∃ pwd, password = some pwd ∧
      crypto.bind FileCrypto.auth = some ⟨s.authKey crates pwd, s.footer⟩ := by
  obtain ⟨ei, saltSize, hinfo, hsizes, hsalt, hfooter⟩ := hs.info
  simp only [setupDecryptor, hinfo] at h
  cases password with
  | none => simp at h
  | some pwd =>
      refine ⟨pwd, rfl, ?_⟩
      rw [Seal.authKey, hsalt]
      have hsome {x : Except EggError FileCrypto} (hx : some <$> x = .ok crypto) :
          ∃ fc, x = .ok fc ∧ crypto = some fc := by
        cases x with
        | error e => simp [Functor.map, Except.map] at hx
        | ok fc => exact ⟨fc, rfl, (Except.ok.inj hx).symm⟩
      cases hmethod : ei.method with
      | zipCrypto | unknown => simp [hmethod, macSizes] at hsizes
      | aes128 | aes256 =>
          simp only [hmethod, macSizes, Option.some.injEq, Prod.mk.injEq] at h hsizes
          obtain ⟨fc, hfc, rfl⟩ := hsome h
          obtain ⟨rfl, hkey⟩ := hsizes
          have hauth := buildAes_auth (show IsMode _ s.keySize by simp [IsMode, ← hkey]) hfc
          rw [Option.bind_some, hauth, hfooter, Option.map_some]
      | lea128 | lea256 =>
          simp only [hmethod, macSizes, Option.some.injEq, Prod.mk.injEq] at h hsizes
          obtain ⟨fc, hfc, rfl⟩ := hsome h
          obtain ⟨rfl, hkey⟩ := hsizes
          have hauth := buildLea_auth (show IsMode _ s.keySize by simp [IsMode, ← hkey]) hfc
          rw [Option.bind_some, hauth, hfooter, Option.map_some]

/-! ## the message -/

/-- A block goes into the message as it is stored. -/
theorem hmacLoop_ok {n r : Nat} {msg msg' : List UInt8} {c c' : Cursor}
    (h : (Run.loop hmacStep n (r, msg)).run c = (.ok msg', c')) : msg' = msg ++ c.rest.take r := by
  induction n generalizing r msg c with
  | zero => simp [Run.loop] at h
  | succ n ih =>
      obtain ⟨k, hk, f, c₁, hstep, hcase⟩ := Run.loop_ok h
      obtain rfl : n = k := by omega
      rw [hmacStep] at hstep
      split at hstep
      · next hzero =>
          simp only [Run.pure_run, Prod.mk.injEq, Outcome.ok.injEq] at hstep
          obtain ⟨rfl, rfl⟩ := hstep
          rcases hcase with ⟨b, hb, -⟩ | ⟨hdone, -⟩
          · simp at hb
          · rw [← Flow.done.inj hdone, hzero, List.take_zero, List.append_nil]
      · rw [Run.bind_ok] at hstep
        obtain ⟨buf, c₂, hread, hstep⟩ := hstep
        obtain ⟨hle, rfl, rfl⟩ := readExact_ok hread
        simp only [Run.pure_run, Prod.mk.injEq, Outcome.ok.injEq] at hstep
        obtain ⟨rfl, rfl⟩ := hstep
        rcases hcase with ⟨b, hb, hloop⟩ | ⟨hdone, -⟩
        · obtain rfl := Flow.next.inj hb
          rw [ih hloop, Cursor.rest_advance, List.append_assoc, ← List.take_add]
          congr 2
          omega
        · simp at hdone

theorem hmacMessage_ok {blocks : List EggBlock} {msg msg' : List UInt8} {c c' : Cursor}
    (hc : c.data = archive.reader.data) (h : (hmacMessage blocks msg).run c = (.ok msg', c')) :
    msg' = msg ++ blocks.flatMap (blockData archive) := by
  induction blocks generalizing msg c with
  | nil =>
      simp only [hmacMessage, Run.pure_run, Prod.mk.injEq, Outcome.ok.injEq] at h
      rw [← h.1, List.flatMap_nil, List.append_nil]
  | cons block blocks ih =>
      have hseek : (seekStart block.dataPos).run c = (.ok (), { c with pos := block.dataPos }) := rfl
      rw [hmacMessage, Run.bind_of_ok hseek] at h
      simp only at h
      rw [Run.bind_ok] at h
      obtain ⟨msg₁, c₁, hloop, h⟩ := h
      have hdata : c₁.data = archive.reader.data := by
        have hsame : Run.Steps SameData (Run.loop hmacStep (block.compressedSize.toNat + 1)
            (block.compressedSize.toNat, msg)) := sameData_hmacLoop _ _
        exact (hsame.of_run hloop).trans hc
      rw [ih hdata h, hmacLoop_ok hloop, List.flatMap_cons, List.append_assoc]
      simp only [Cursor.rest, hc, blockData]

/-- What authenticating a sealed entry says. -/
theorem Sealed.authentic {s : Seal} (hs : Sealed entry s)
    (h : Authenticated crates archive password entry) :
    Authentic crates archive password entry s := by
  obtain ⟨crypto, c, c', hc, hsetup, hauth⟩ := h
  obtain ⟨pwd, hpwd, hcrypto⟩ := hs.setup hsetup
  refine ⟨pwd, hpwd, ?_⟩
  simp only [authenticate, hcrypto] at hauth
  rw [verifyHmac, Run.bind_ok] at hauth
  obtain ⟨msg, c₁, hmsg, hauth⟩ := hauth
  rw [hmacMessage_ok hc hmsg, List.nil_append] at hauth
  by_contra hne
  simp [hne] at hauth

/-! ## one entry -/

/-- A sealed entry that is not authentic stops before its output is opened. -/
theorem extractEntry_stops {s : Seal} (hs : Sealed entry s)
    (hforged : ¬ Authentic crates archive password entry s) (w : World) :
    Run.Stops (extractEntry crates os archive dest password pipeMode entry) w := by
  have hofExcept {α : Type} (x : Except EggError α) :
      ((Run.ofExcept x : Extract α).run w).2 = w := by
    cases x <;> rfl
  refine .bind (hofExcept _) fun target _ => ?_
  rw [if_neg (by simp [hs.file]), if_neg hs.blocks]
  refine .bind (hofExcept _) fun crypto hcrypto => .bind rfl fun u hauth => ?_
  have hsetup := (Run.ofExcept_ok.mp hcrypto).1
  simp only [onReader, Prod.mk.injEq, and_true] at hauth
  exact absurd (hs.authentic ⟨crypto, _, _, rfl, hsetup, Prod.ext hauth rfl⟩) hforged

/-! ## a solid archive -/

/-- An event that makes a directory. -/
def Event.IsDirectory (e : Event) : Prop := ∃ p ok, e = .createDirAll p ok

/-- The scan makes directories. -/
theorem directories_scanEntries (es : List (EggFileEntry × Nat)) (spans : Spans) :
    Run.Steps (Adds Event.IsDirectory) (scanEntries os dest pipeMode filter es spans) := by
  induction es generalizing spans with
  | nil => exact .pure _
  | cons p es ih =>
      refine .bind (.ite (.bind (.ite ?_ (.pure _)) fun _ => .pure _) ?_) fun spans => ih spans
      · exact .bind (.ofExcept _) fun path => .mapErr (Adds.mkdirAll fun ok => ⟨path, ok, rfl⟩)
      · exact .bind (.ofExcept _) fun _ => .pure _

/-- A solid archive with a file that is not authentic is not decompressed. -/
theorem extractAllSolid_stops {s : Seal} (hmem : entry ∈ entries) (hs : Sealed entry s)
    (hforged : ¬ Authentic crates archive password entry s) (w : World) :
    Adds Event.IsDirectory w
        ((extractAllSolid crates os archive entries dest password pipeMode filter).run w).2 ∧
      ∀ u, ((extractAllSolid crates os archive entries dest password pipeMode filter).run w).1 ≠
        .ok u := by
  have hregular : entry ∈ regular entries := List.mem_filter.mpr ⟨hmem, by simp [hs.file]⟩
  have hreads : (Spans.ofEntries entries).blockReads ≠ [] := by
    obtain ⟨block, hblock⟩ := List.exists_mem_of_ne_nil _ hs.blocks
    rw [← map_regularIdx] at hregular
    obtain ⟨p, hp, rfl⟩ := List.mem_map.mp hregular
    exact List.ne_nil_of_mem (List.mem_flatMap.mpr ⟨p, hp, List.mem_map_of_mem hblock⟩)
  have hstops (w : World) : Run.Stops (extractSpans crates os archive entries dest password pipeMode
      filter (.ofEntries entries)) w := by
    rw [extractSpans, if_pos hreads]
    refine .bind rfl fun stream hread => ?_
    simp only [onReader, Prod.mk.injEq, and_true] at hread
    have hauth := (readStream_ok (Prod.ext hread rfl)).2 entry hregular hs.blocks
    exact absurd (hs.authentic hauth) hforged
  have hscan : Adds Event.IsDirectory w
      ((scanEntries os dest pipeMode filter entries.zipIdx .empty).run w).2 :=
    directories_scanEntries _ _ w
  rw [extractAllSolid, Run.bind_run]
  rcases hrun : (scanEntries os dest pipeMode filter entries.zipIdx .empty).run w with
    ⟨spans | e | _ | _, w₁⟩
  · rw [hrun] at hscan
    obtain rfl : spans = .ofEntries entries := (scanEntries_ok hrun).1
    obtain ⟨hworld, hne⟩ := Run.bind_of_not_ok
      (f := fun _ => applyTimes entries dest pipeMode filter) (hstops w₁).2
    exact ⟨by rw [hworld, (hstops w₁).1]; exact hscan, hne⟩
  all_goals
    rw [hrun] at hscan
    exact ⟨hscan, by simp⟩

/-! ## the archive -/

/-- Every sealed entry is authentic. -/
def AllAuthentic (crates : Crates) (archive : EggArchive) (password : Option String) : Prop :=
  ∀ entry ∈ archive.entries, ∀ s, Sealed entry s → Authentic crates archive password entry s

/-- **Authentication comes first.**  Entry by entry, one that is not authentic
opens no output, and no entry behind it is extracted; of a solid archive with
such an entry, no file is made or written at all. -/
theorem authenticated_before_output (crates : Crates) (os : Os) (archive : EggArchive) (dest : Path)
    (password : Option String) (pipeMode : Bool) (filter : Option (List String)) (w : World) :
    (∀ entry s, Sealed entry s → ¬ Authentic crates archive password entry s →
      Run.Stops (extractEntry crates os archive dest password pipeMode entry) w) ∧
    (archive.isSolid = false → ∀ before entry after s,
      selected filter archive.entries = before ++ entry :: after → Sealed entry s →
      ¬ Authentic crates archive password entry s →
      ((extraction crates os archive dest password pipeMode filter).run w).2 =
          ((Run.forEach (extractEntry crates os archive dest password pipeMode) before).run w).2 ∧
        ∀ u, ((extraction crates os archive dest password pipeMode filter).run w).1 ≠ .ok u) ∧
    (archive.isSolid = true → ¬ AllAuthentic crates archive password →
      Adds Event.IsDirectory w
          ((extraction crates os archive dest password pipeMode filter).run w).2 ∧
        ∀ u, ((extraction crates os archive dest password pipeMode filter).run w).1 ≠ .ok u) := by
  refine ⟨fun entry s hs hforged => extractEntry_stops hs hforged w, ?_, ?_⟩
  · intro hsolid before entry after s hselected hs hforged
    rw [extraction_entries _ _ _ _ _ _ _ hsolid, hselected]
    have hstops : ∀ w, Run.Stops (extractEntry crates os archive dest password pipeMode entry) w :=
      extractEntry_stops hs hforged
    obtain ⟨hworld, hne⟩ := Run.forEach_stops hstops w
    obtain ⟨hworld', hne'⟩ := Run.bind_of_not_ok (f := fun _ => checkMatched archive filter) hne
    exact ⟨hworld'.trans hworld, hne'⟩
  · intro hsolid hall
    simp only [AllAuthentic, not_forall] at hall
    obtain ⟨entry, hmem, s, hs, hforged⟩ := hall
    rw [extraction_solid _ _ _ _ _ _ _ hsolid]
    obtain ⟨hadds, hsolid⟩ := @extractAllSolid_stops crates os archive archive.entries dest password
      pipeMode filter entry s hmem hs hforged w
    obtain ⟨hworld, hne⟩ := Run.bind_of_not_ok (f := fun _ => checkMatched archive filter) hsolid
    exact ⟨hworld ▸ hadds, hne⟩

end Unegg
