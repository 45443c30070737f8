import Mathlib

/-!
# Unegg.Encoding

Filename decoding and normalization (`encoding.rs`).  The two legacy code
pages are decoded by a third-party crate and are a parameter (`CodePages`);
UTF-8 is decoded by the standard library's lossy rule, spelled out here.
-/

namespace Unegg

/-- The `encoding_rs` decoders the program refers to. -/
structure CodePages where
  shiftJis : List UInt8 → String
  eucKr : List UInt8 → String

/-- Decoders that give the empty string, for streams with UTF-8 names only. -/
def CodePages.blank : CodePages := ⟨fun _ => "", fun _ => ""⟩

/-! ## `String::from_utf8_lossy` -/

/-- `10xxxxxx`. -/
def isCont (b : UInt8) : Bool := b &&& 0xC0 == 0x80

/-- Whether `b1` may follow the lead byte `b0` of a three- or four-byte
sequence: no overlong form, no surrogate, nothing past `U+10FFFF`. -/
def isSecond (b0 b1 : UInt8) : Bool :=
  if b0 == 0xE0 then 0xA0 ≤ b1 && b1 ≤ 0xBF
  else if b0 == 0xED then 0x80 ≤ b1 && b1 ≤ 0x9F
  else if b0 == 0xF0 then 0x90 ≤ b1 && b1 ≤ 0xBF
  else if b0 == 0xF4 then 0x80 ≤ b1 && b1 ≤ 0x8F
  else isCont b1

/-- `U+FFFD`. -/
def replacementChar : Char := '\uFFFD'

/-- One step of the lossy decoder: the next character and the number of bytes
it stands for.  An ill-formed sequence is replaced as far as it was a prefix
of a well-formed one. -/
def utf8Step : List UInt8 → Char × Nat
  | [] => (replacementChar, 1)
  | b0 :: bs =>
    if b0 < 0x80 then (Char.ofNat b0.toNat, 1)
    else if 0xC2 ≤ b0 && b0 ≤ 0xDF then
      match bs with
      | b1 :: _ =>
        if isCont b1 then (Char.ofNat ((b0.toNat - 0xC0) * 64 + (b1.toNat - 0x80)), 2)
        else (replacementChar, 1)
      | [] => (replacementChar, 1)
    else if 0xE0 ≤ b0 && b0 ≤ 0xEF then
      match bs with
      | b1 :: b2 :: _ =>
        if !isSecond b0 b1 then (replacementChar, 1)
        else if isCont b2 then
          (Char.ofNat (((b0.toNat - 0xE0) * 64 + (b1.toNat - 0x80)) * 64 + (b2.toNat - 0x80)), 3)
        else (replacementChar, 2)
      | [b1] => (replacementChar, if isSecond b0 b1 then 2 else 1)
      | [] => (replacementChar, 1)
    else if 0xF0 ≤ b0 && b0 ≤ 0xF4 then
      match bs with
      | b1 :: b2 :: b3 :: _ =>
        if !isSecond b0 b1 then (replacementChar, 1)
        else if !isCont b2 then (replacementChar, 2)
        else if isCont b3 then
          (Char.ofNat ((((b0.toNat - 0xF0) * 64 + (b1.toNat - 0x80)) * 64 +
            (b2.toNat - 0x80)) * 64 + (b3.toNat - 0x80)), 4)
        else (replacementChar, 3)
      | [b1, b2] =>
        (replacementChar, if !isSecond b0 b1 then 1 else if isCont b2 then 3 else 2)
      | [b1] => (replacementChar, if isSecond b0 b1 then 2 else 1)
      | [] => (replacementChar, 1)
    else (replacementChar, 1)

/-- The lossy decoder; each step takes at least one of the `n` bytes. -/
def utf8Lossy : Nat → List UInt8 → List Char
  | 0, _ => []
  | _, [] => []
  | n + 1, bs => (utf8Step bs).1 :: utf8Lossy n (bs.drop (utf8Step bs).2)

/-- `String::from_utf8_lossy`: a well-formed string as it is, and otherwise
with its ill-formed parts replaced. -/
def fromUtf8Lossy (data : List UInt8) : String :=
  match String.fromUTF8? data.toByteArray with
  | some s => s
  | none => String.ofList (utf8Lossy data.length data)

/-- The bytes of a string. -/
def utf8Bytes (s : String) : List UInt8 := s.toUTF8.data.toList

/-- Decoding the bytes of a string gives the string. -/
theorem fromUtf8Lossy_utf8Bytes (s : String) : fromUtf8Lossy (utf8Bytes s) = s := by
  have hb : (utf8Bytes s).toByteArray = s.toByteArray := by
    ext1
    simp [utf8Bytes]
  have hs : String.fromUTF8? (utf8Bytes s).toByteArray = some s := by
    rw [hb]
    simp [String.fromUTF8?, s.isValidUTF8, String.fromUTF8]
  simp only [fromUtf8Lossy, hs]

/-! ## decoding and normalizing -/

/-- Without the area-code flag the name is UTF-8; with it, `localeCode` selects
a legacy code page. -/
def decodeFilename (pages : CodePages) (useAreaCode : Bool) (localeCode : Option UInt16)
    (data : List UInt8) : String :=
  if !useAreaCode then fromUtf8Lossy data
  else
    let locale := localeCode.getD 0
    if locale = 932 then pages.shiftJis data else pages.eucKr data

/-- `char::is_control`: the general category `Cc`. -/
def isControl (c : Char) : Bool := c.val < 0x20 || (0x7F ≤ c.val && c.val ≤ 0x9F)

/-- Forward slashes, no leading slash, no control character. -/
def normalizePath (path : String) : String :=
  let replaced := path.toList.map fun c => if c = '\\' then '/' else c
  String.ofList ((replaced.dropWhile (· = '/')).filter fun c => !isControl c)

/-- A name that `normalizePath` has nothing to do on. -/
def PlainName (s : String) : Prop :=
  (∀ c ∈ s.toList, c ≠ '\\' ∧ isControl c = false) ∧ s.toList.head? ≠ some '/'

instance (s : String) : Decidable (PlainName s) := inferInstanceAs (Decidable (_ ∧ _))

/-- A plain name is its own normal form. -/
theorem normalizePath_of_plain {s : String} (h : PlainName s) : normalizePath s = s := by
  obtain ⟨hchars, hhead⟩ := h
  have hmap : (s.toList.map fun c => if c = '\\' then '/' else c) = s.toList := by
    rw [List.map_congr_left (g := id), List.map_id]
    intro c hc
    rw [if_neg (hchars c hc).1, id]
  have hdrop : s.toList.dropWhile (· = '/') = s.toList := by
    cases hs : s.toList with
    | nil => rfl
    | cons c cs =>
        have hc : c ≠ '/' := by
          intro hc
          rw [hs, List.head?_cons, hc] at hhead
          exact hhead rfl
        rw [List.dropWhile_cons_of_neg (by simp [hc])]
  have hfilter : s.toList.filter (fun c => !isControl c) = s.toList := by
    rw [List.filter_eq_self]
    intro c hc
    simp [(hchars c hc).2]
  simp only [normalizePath, hmap, hdrop, hfilter, String.ofList_toList]

/-! ## the normal form -/

/-- What becomes a forward slash. -/
def isSeparator (c : Char) : Bool := c = '/' || c = '\\'

/-- No backslash and no control character is left. -/
theorem normalizePath_chars (path : String) :
    ∀ c ∈ (normalizePath path).toList, c ≠ '\\' ∧ isControl c = false := by
  intro c hc
  simp only [normalizePath, String.toList_ofList, List.mem_filter] at hc
  obtain ⟨hmem, hcontrol⟩ := hc
  obtain ⟨d, -, hd⟩ := List.mem_map.mp (List.dropWhile_suffix _ |>.subset hmem)
  refine ⟨?_, by simpa using hcontrol⟩
  rw [← hd]
  split
  · decide
  · assumption

/-- The slash at the front of a normal form is the one that the stripping of
leading slashes did not reach, for the control characters in front of it. -/
theorem normalizePath_head (path : String) :
    (normalizePath path).toList.head? = some '/' ↔
      ∃ c, ((path.toList.dropWhile isSeparator).dropWhile isControl).head? = some c ∧
        isSeparator c := by
  have hslash : ∀ c : Char, (if c = '\\' then '/' else c) = '/' ↔ isSeparator c := by
    intro c
    by_cases h : c = '\\' <;> simp [h, isSeparator]
  have hcontrol : ∀ c : Char, isControl (if c = '\\' then '/' else c) = isControl c := by
    intro c
    split
    · next h =>
        subst h
        decide
    · rfl
  have hdrop : ((path.toList.map fun c => if c = '\\' then '/' else c).dropWhile (· = '/')) =
      (path.toList.dropWhile isSeparator).map fun c => if c = '\\' then '/' else c := by
    rw [List.dropWhile_map]
    congr 2
    funext c
    rw [Bool.eq_iff_iff, Function.comp_apply, decide_eq_true_iff, hslash]
  simp only [normalizePath, String.toList_ofList, hdrop, List.filter_map, List.head?_map,
    List.head?_filter, Function.comp_def, hcontrol, List.find?_not_eq_head?_dropWhile, Option.map_eq_some_iff,
    hslash]

/-- **The normal form**: the result has no backslash, no control character and
no leading slash, and is its own normal form, exactly when the first character
behind the leading separators that is no control character is no separator. -/
theorem normalizePath_normal_iff (path : String) :
    ((∀ c ∈ (normalizePath path).toList, c ≠ '\\' ∧ isControl c = false) ∧
        (normalizePath path).toList.head? ≠ some '/' ∧
        normalizePath (normalizePath path) = normalizePath path) ↔
      ∀ c, ((path.toList.dropWhile isSeparator).dropWhile isControl).head? = some c →
        isSeparator c = false := by
  constructor
  · rintro ⟨-, hhead, -⟩ c hc
    rw [Ne, normalizePath_head] at hhead
    by_contra hsep
    exact hhead ⟨c, hc, by simpa using hsep⟩
  · intro h
    have hhead : (normalizePath path).toList.head? ≠ some '/' := by
      rw [Ne, normalizePath_head]
      rintro ⟨c, hc, hsep⟩
      simp [h c hc] at hsep
    exact ⟨normalizePath_chars path, hhead, normalizePath_of_plain ⟨normalizePath_chars path, hhead⟩⟩

/-- A control character in front of a slash keeps it from being stripped. -/
theorem normalizePath_control_slash :
    normalizePath "\x01/a" = "/a" ∧ normalizePath (normalizePath "\x01/a") = "a" := by
  decide

end Unegg
