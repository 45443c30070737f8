import Unegg.Archive.Bounds
import Unegg.Volume.Open

/-!
# Unegg.Volume.PrefixScan

The prefix of a volume is read three times: by `EggArchive::open`, by
`skip_continuation_header` and by `read_split_info`.

`PrefixFields` describes the fields as `open` goes through them, with what each
Split Info field declares and carries.  The other two scans are told from that
description: the first trusts a declared size below eight, the second stops at
the first Split Info field where `open` keeps the last
(`prefix_scans_agree`).
-/

namespace Unegg

open Prog Bytes

/-! ## the prefix as `open` reads it -/

/-- `EggArchive::open` up to the End Marker of the prefix: the header id and
what the fields have set. -/
def readPrefix : Parser (UInt32 × Prefix) := do
  let sig ← readU32
  if sig ≠ sigEggHeader then Run.throw .notEggFile
  else
    let _version ← readU16
    let headerId ← readU32
    let _reserved ← readU32
    let bound ← passBound
    let p ← Run.loop prefixStep bound {}
    return (headerId, p)

/-- It is the beginning of `open`, which records its split info. -/
theorem open_prefix {pages : CodePages} {c c' : Cursor} {archive : EggArchive}
    (h : (EggArchive.open' pages).run c = (.ok archive, c')) :
    ∃ p c₁, readPrefix.run c = (.ok (archive.headerId, p), c₁) ∧
      archive.splitInfo = p.splitInfo := by
  rw [EggArchive.open', Run.bind_ok] at h
  obtain ⟨sig, c₁, hsig, h⟩ := h
  split at h
  · simp at h
  · next hegg =>
      rw [Run.bind_ok] at h
      obtain ⟨version, c₂, hversion, h⟩ := h
      rw [Run.bind_ok] at h
      obtain ⟨headerId, c₃, hid, h⟩ := h
      rw [Run.bind_ok] at h
      obtain ⟨reserved, c₄, hreserved, h⟩ := h
      rw [Run.bind_ok] at h
      obtain ⟨bound, c₅, hbound, h⟩ := h
      rw [Run.bind_ok] at h
      obtain ⟨p, c₆, hprefix, h⟩ := h
      rw [Run.bind_ok] at h
      obtain ⟨rs, c₇, hrecords, h⟩ := h
      simp only [Run.bind_of_ok (Run.get_run c₇), Run.pure_run, Prod.mk.injEq,
        Outcome.ok.injEq] at h
      obtain ⟨rfl, rfl⟩ := h
      refine ⟨p, c₆, ?_, rfl⟩
      rw [readPrefix, Run.bind_of_ok hsig, if_neg hegg, Run.bind_of_ok hversion,
        Run.bind_of_ok hid, Run.bind_of_ok hreserved, Run.bind_of_ok hbound,
        Run.bind_of_ok hprefix, Run.pure_run]

/-- A Split Info field: its declared size and the ids it carries. -/
structure SplitField where
  size : UInt32
  ids : SplitInfo
  deriving Repr, DecidableEq

/-- The fields from a position up to and with the End Marker, and the Split
Info fields among them. -/
inductive PrefixFields : Cursor → List SplitField → Cursor → Prop
  | done {c c' : Cursor} (hsig : readU32.run c = (.ok sigEndMarker, c')) : PrefixFields c [] c'
  | split {c c₁ c₂ c₃ c₄ c' : Cursor} {flags : UInt8} {size prevId nextId : UInt32}
      {fields : List SplitField} (hsig : readU32.run c = (.ok sigSplitInfo, c₁))
      (hsize : readExtraField.run c₁ = (.ok (flags, size), c₂))
      (hprev : readU32.run c₂ = (.ok prevId, c₃)) (hnext : readU32.run c₃ = (.ok nextId, c₄))
      (rest : PrefixFields (c₄.advance (size.toNat - 8)) fields c') :
      PrefixFields c (⟨size, prevId, nextId⟩ :: fields) c'
  | other {c c₁ c₂ c' : Cursor} {sig : UInt32} {flags : UInt8} {size : UInt32}
      {fields : List SplitField} (hsig : readU32.run c = (.ok sig, c₁))
      (hne : sig ≠ sigEndMarker ∧ sig ≠ sigSplitInfo)
      (hsize : readExtraField.run c₁ = (.ok (flags, size), c₂))
      (rest : PrefixFields (c₂.advance size.toNat) fields c') : PrefixFields c fields c'

variable {c c' : Cursor} {fields : List SplitField} {p p' : Prefix} {n : Nat}

/-- The fields are a matter of the bytes alone. -/
theorem PrefixFields.unique {fields' : List SplitField} {d : Cursor}
    (h : PrefixFields c fields c') (h' : PrefixFields c fields' d) : fields = fields' ∧ c' = d := by
  have hfun : ∀ {α : Type} {m : Parser α} {c c₁ c₂ : Cursor} {a a' : α},
      m.run c = (.ok a, c₁) → m.run c = (.ok a', c₂) → a = a' ∧ c₁ = c₂ := by
    intro α m c c₁ c₂ a a' h h'
    simpa using h.symm.trans h'
  induction h generalizing fields' d with
  | done hsig =>
      cases h' with
      | done hsig' => exact ⟨rfl, (hfun hsig hsig').2⟩
      | split hsig' => exact absurd (hfun hsig hsig').1 (by decide)
      | other hsig' hne => exact absurd (hfun hsig hsig').1.symm hne.1
  | split hsig hsize hprev hnext rest ih =>
      cases h' with
      | done hsig' => exact absurd (hfun hsig hsig').1 (by decide)
      | split hsig' hsize' hprev' hnext' rest' =>
          obtain ⟨-, rfl⟩ := hfun hsig hsig'
          obtain ⟨heq, rfl⟩ := hfun hsize hsize'
          obtain ⟨-, rfl⟩ := Prod.mk.injEq .. ▸ heq
          obtain ⟨rfl, rfl⟩ := hfun hprev hprev'
          obtain ⟨rfl, rfl⟩ := hfun hnext hnext'
          obtain ⟨rfl, rfl⟩ := ih rest'
          exact ⟨rfl, rfl⟩
      | other hsig' hne => exact absurd (hfun hsig hsig').1.symm hne.2
  | other hsig hne hsize rest ih =>
      cases h' with
      | done hsig' => exact absurd (hfun hsig hsig').1 hne.1
      | split hsig' => exact absurd (hfun hsig hsig').1 hne.2
      | other hsig' hne' hsize' rest' =>
          obtain ⟨-, rfl⟩ := hfun hsig hsig'
          obtain ⟨heq, rfl⟩ := hfun hsize hsize'
          obtain ⟨-, rfl⟩ := Prod.mk.injEq .. ▸ heq
          exact ih rest'

theorem skipField_next {p₁ : Prefix} {r : Prog.Flow Prefix Prefix}
    (h : (skipField >>= fun _ => pure (.next p₁)).run c = (.ok r, c')) :
    ∃ flags size c₁, readExtraField.run c = (.ok (flags, size), c₁) ∧
      c' = c₁.advance size.toNat ∧ r = .next p₁ := by
  rw [skipField, bind_assoc, Run.bind_ok] at h
  obtain ⟨⟨flags, size⟩, c₁, hsize, h⟩ := h
  rw [Run.bind_of_ok (skip_run c₁ _)] at h
  simp only [Run.pure_run, Prod.mk.injEq, Outcome.ok.injEq] at h
  exact ⟨flags, size, c₁, hsize, h.2.symm, h.1.symm⟩

/-- One pass of the prefix loop of `open`. -/
theorem prefixStep_ok {r : Prog.Flow Prefix Prefix} (h : (prefixStep p).run c = (.ok r, c')) :
    (r = .done p ∧ readU32.run c = (.ok sigEndMarker, c')) ∨
    (∃ c₁ c₂ c₃ c₄ flags size prevId nextId, readU32.run c = (.ok sigSplitInfo, c₁) ∧
      readExtraField.run c₁ = (.ok (flags, size), c₂) ∧ readU32.run c₂ = (.ok prevId, c₃) ∧
      readU32.run c₃ = (.ok nextId, c₄) ∧ c' = c₄.advance (size.toNat - 8) ∧
      r = .next { p with splitInfo := some ⟨prevId, nextId⟩ }) ∨
    (∃ c₁ c₂ sig flags size p₁, readU32.run c = (.ok sig, c₁) ∧
      (sig ≠ sigEndMarker ∧ sig ≠ sigSplitInfo) ∧
      readExtraField.run c₁ = (.ok (flags, size), c₂) ∧ c' = c₂.advance size.toNat ∧
      r = .next p₁ ∧ p₁.splitInfo = p.splitInfo) := by
  rw [prefixStep, Run.bind_ok] at h
  obtain ⟨sig, c₁, hsig, h⟩ := h
  split at h
  · next hsplit =>
      subst hsplit
      rw [Run.bind_ok] at h
      obtain ⟨p₁, c₂, hparse, h⟩ := h
      rw [parseSplitInfo, Run.bind_ok] at hparse
      obtain ⟨⟨flags, size⟩, c₃, hsize, hparse⟩ := hparse
      rw [Run.bind_ok] at hparse
      obtain ⟨prevId, c₄, hprev, hparse⟩ := hparse
      rw [Run.bind_ok] at hparse
      obtain ⟨nextId, c₅, hnext, hparse⟩ := hparse
      rw [Run.bind_ok] at hparse
      obtain ⟨_, c₆, hskip, hparse⟩ := hparse
      simp only [Run.pure_run, Prod.mk.injEq, Outcome.ok.injEq] at hparse h
      obtain ⟨rfl, rfl⟩ := hparse
      obtain ⟨rfl, rfl⟩ := h
      exact .inr (.inl ⟨c₁, c₃, c₄, c₅, flags, size, prevId, nextId, hsig, hsize, hprev, hnext,
        skip_ok hskip, rfl⟩)
  · next hsplit =>
      split at h
      · next hsolid =>
          obtain ⟨flags, size, c₂, hsize, rfl, rfl⟩ := skipField_next h
          exact .inr (.inr ⟨c₁, c₂, sig, flags, size, _, hsig, by rw [hsolid]; decide, hsize, rfl, rfl, rfl⟩)
      · split at h
        · next hskip =>
            obtain ⟨flags, size, c₂, hsize, rfl, rfl⟩ := skipField_next h
            exact .inr (.inr ⟨c₁, c₂, sig, flags, size, _, hsig, by rw [hskip]; decide, hsize, rfl, rfl, rfl⟩)
        · split at h
          · next hencrypt =>
              obtain ⟨flags, size, c₂, hsize, rfl, rfl⟩ := skipField_next h
              exact .inr (.inr ⟨c₁, c₂, sig, flags, size, _, hsig, by rw [hencrypt]; decide, hsize, rfl, rfl, rfl⟩)
          · split at h
            · next hend =>
                simp only [Run.pure_run, Prod.mk.injEq, Outcome.ok.injEq] at h
                exact .inl ⟨h.1.symm, by rw [← h.2, ← hend]; exact hsig⟩
            · simp at h

/-- The loop of `open` goes through the fields and keeps the last ids. -/
theorem prefixLoop_ok (h : (Run.loop prefixStep n p).run c = (.ok p', c')) :
    ∃ fields, PrefixFields c fields c' ∧
      p'.splitInfo = (fields.getLast?.map SplitField.ids).or p.splitInfo := by
  induction n generalizing c p with
  | zero => simp [Run.loop] at h
  | succ n ih =>
      obtain ⟨k, hk, r, c₁, hstep, hcase⟩ := Run.loop_ok h
      obtain rfl : n = k := by omega
      rcases prefixStep_ok hstep with ⟨rfl, hend⟩ | hsplit | hother
      · rcases hcase with ⟨b, hb, -⟩ | ⟨hp, rfl⟩
        · simp at hb
        · simp only [Flow.done.injEq] at hp
          exact ⟨[], .done hend, by simp [hp]⟩
      · obtain ⟨c₂, c₃, c₄, c₅, flags, size, prevId, nextId, hsig, hsize, hprev, hnext, rfl, rfl⟩ :=
          hsplit
        rcases hcase with ⟨b, hb, hloop⟩ | ⟨hp, -⟩
        · simp only [Flow.next.injEq] at hb
          subst hb
          obtain ⟨fields, hfields, hinfo⟩ := ih hloop
          refine ⟨_, .split hsig hsize hprev hnext hfields, ?_⟩
          rw [hinfo]
          cases hlast : fields.getLast? <;> simp [List.getLast?_cons, hlast]
        · simp at hp
      · obtain ⟨c₂, c₃, sig, flags, size, p₁, hsig, hne, hsize, rfl, rfl, hp₁⟩ := hother
        rcases hcase with ⟨b, hb, hloop⟩ | ⟨hp, -⟩
        · simp only [Flow.next.injEq] at hb
          subst hb
          obtain ⟨fields, hfields, hinfo⟩ := ih hloop
          exact ⟨fields, .other hsig hne hsize hfields, by rw [hinfo, hp₁]⟩
        · simp at hp

/-! ## the other two scans -/

/-- A field that was read leaves fewer bytes to go. -/
theorem field_shrinks {c₁ c₂ : Cursor} {sig size : UInt32} {flags : UInt8} {k : Nat}
    (hsig : readU32.run c = (.ok sig, c₁)) (hsize : readExtraField.run c₁ = (.ok (flags, size), c₂))
    (hn : c.data.length - c.pos < n + 1) :
    (c₂.advance k).data.length - (c₂.advance k).pos < n := by
  obtain ⟨hle, rfl, -⟩ := readU32_ok hsig
  obtain ⟨hdata, hpos⟩ := forward_readExtraField _ _ _ hsize
  rw [Cursor.length_rest] at hle
  rw [Cursor.advance_data, Cursor.advance_pos, hdata, Cursor.advance_data]
  rw [Cursor.advance_pos] at hpos
  omega

/-- `read_split_info` finds the first Split Info field. -/
theorem PrefixFields.splitInfoLoop (h : PrefixFields c fields c')
    (hn : c.data.length - c.pos < n) :
    ((Run.loop splitInfoStep n ()).run c).1 =
      .ok (fields.head?.map fun f => (f.ids.prevId, f.ids.nextId)) := by
  induction h generalizing n with
  | done hsig =>
      obtain ⟨n, rfl⟩ : ∃ m, n = m + 1 := ⟨n - 1, by omega⟩
      rw [Run.loop, splitInfoStep, readU32Raw, bind_assoc, Run.bind_of_ok hsig]
      rfl
  | split hsig hsize hprev hnext rest ih =>
      obtain ⟨n, rfl⟩ : ∃ m, n = m + 1 := ⟨n - 1, by omega⟩
      rw [Run.loop, splitInfoStep, readU32Raw, bind_assoc, Run.bind_of_ok hsig,
        if_neg (by decide), readExtraFieldRaw, bind_assoc, Run.bind_of_ok hsize]
      simp only [if_true]
      rw [bind_assoc, Run.bind_of_ok hprev, bind_assoc, Run.bind_of_ok hnext]
      rfl
  | other hsig hne hsize rest ih =>
      obtain ⟨n, rfl⟩ : ∃ m, n = m + 1 := ⟨n - 1, by omega⟩
      rw [Run.loop, splitInfoStep, readU32Raw, bind_assoc, Run.bind_of_ok hsig, if_neg hne.1,
        readExtraFieldRaw, bind_assoc, Run.bind_of_ok hsize]
      simp only [if_neg hne.2]
      rw [bind_assoc, Run.bind_of_ok (seekCurrent_nat _ _), pure_bind]
      exact ih (field_shrinks hsig hsize hn)

/-- `skip_continuation_header` ends where `open` does, when no Split Info field
declares less than it holds. -/
theorem PrefixFields.continuationLoop (h : PrefixFields c fields c')
    (hsizes : ∀ f ∈ fields, 8 ≤ f.size.toNat) (hn : c.data.length - c.pos < n) :
    (Run.loop continuationStep n ()).run c = (.ok (), c') := by
  induction h generalizing n with
  | done hsig =>
      obtain ⟨n, rfl⟩ : ∃ m, n = m + 1 := ⟨n - 1, by omega⟩
      rw [Run.loop, continuationStep, readU32Raw, bind_assoc, Run.bind_of_ok hsig]
      rfl
  | @split c c₁ c₂ c₃ c₄ c' flags size _ _ fields hsig hsize hprev hnext rest ih =>
      obtain ⟨n, rfl⟩ : ∃ m, n = m + 1 := ⟨n - 1, by omega⟩
      rw [List.forall_mem_cons] at hsizes
      -- the ids lie inside the declared size, so both scans go on at the same place
      have hbehind : c₄.advance (size.toNat - 8) = c₂.advance size.toNat := by
        rw [(readU32_ok hnext).2.1, (readU32_ok hprev).2.1, Cursor.advance_advance,
          Cursor.advance_advance]
        have hge : 8 ≤ size.toNat := hsizes.1
        congr 1
        omega
      rw [Run.loop, continuationStep, readU32Raw, bind_assoc, Run.bind_of_ok hsig,
        if_neg (by decide), readExtraFieldRaw, bind_assoc, Run.bind_of_ok hsize]
      simp only
      rw [bind_assoc, Run.bind_of_ok (seekCurrent_nat _ _), pure_bind, ← hbehind]
      refine ih hsizes.2 ?_
      rw [hbehind]
      exact field_shrinks hsig hsize hn
  | other hsig hne hsize rest ih =>
      obtain ⟨n, rfl⟩ : ∃ m, n = m + 1 := ⟨n - 1, by omega⟩
      rw [Run.loop, continuationStep, readU32Raw, bind_assoc, Run.bind_of_ok hsig, if_neg hne.1,
        readExtraFieldRaw, bind_assoc, Run.bind_of_ok hsize]
      simp only
      rw [bind_assoc, Run.bind_of_ok (seekCurrent_nat _ _), pure_bind]
      exact ih hsizes (field_shrinks hsig hsize hn)

/-- The header, as the three scans read it. -/
theorem readPrefix_ok {bytes : List UInt8} {headerId : UInt32}
    (h : readPrefix.run ⟨bytes, 0⟩ = (.ok (headerId, p), c)) :
    readU32.run ⟨bytes, 0⟩ = (.ok sigEggHeader, ⟨bytes, 4⟩) ∧
      (Run.loop prefixStep (bytes.length + 1) {}).run ⟨bytes, 14⟩ = (.ok p, c) := by
  rw [readPrefix, Run.bind_ok] at h
  obtain ⟨sig, c₁, hsig, h⟩ := h
  split at h
  · simp at h
  · next hegg =>
      rw [not_not] at hegg
      subst hegg
      obtain ⟨-, rfl, -⟩ := readU32_ok hsig
      rw [Run.bind_ok] at h
      obtain ⟨version, c₂, hversion, h⟩ := h
      obtain ⟨-, rfl⟩ := readU16_ok hversion
      rw [Run.bind_ok] at h
      obtain ⟨id, c₃, hid, h⟩ := h
      obtain ⟨-, rfl, -⟩ := readU32_ok hid
      rw [Run.bind_ok] at h
      obtain ⟨reserved, c₄, hreserved, h⟩ := h
      obtain ⟨-, rfl, -⟩ := readU32_ok hreserved
      rw [Run.bind_ok] at h
      obtain ⟨bound, c₅, hbound, h⟩ := h
      simp only [passBound, Prod.mk.injEq, Outcome.ok.injEq] at hbound
      obtain ⟨rfl, rfl⟩ := hbound
      rw [Run.bind_ok] at h
      obtain ⟨p', c₆, hloop, h⟩ := h
      simp only [Run.pure_run, Prod.mk.injEq, Outcome.ok.injEq] at h
      obtain ⟨⟨-, rfl⟩, rfl⟩ := h
      exact ⟨hsig, hloop⟩

/-- What the three scans are to agree on: the end of the prefix, and the ids. -/
def ScansAgree (bytes : List UInt8) (p : Prefix) (c : Cursor) : Prop :=
  (skipContinuationHeader.run ⟨bytes, 0⟩).1 = .ok c.pos ∧
    (readSplitInfo.run ⟨bytes, 0⟩).1 = .ok (p.splitInfo.map fun s => (s.prevId, s.nextId))

/-- **The three scans of the prefix** agree when every Split Info field declares
what it holds and the first and the last of them carry the same ids; without
the latter they do not.  For the offset the declared sizes are only a sufficient
condition: where one is too small the scan that goes by it may come to the same end
by way of what it reads there. -/
theorem prefix_scans_agree {bytes : List UInt8} {headerId : UInt32}
    (h : readPrefix.run ⟨bytes, 0⟩ = (.ok (headerId, p), c)) :
    ∃ fields, PrefixFields ⟨bytes, 14⟩ fields c ∧
      ((∀ f ∈ fields, 8 ≤ f.size.toNat) → (ScansAgree bytes p c ↔
        fields.head?.map SplitField.ids = fields.getLast?.map SplitField.ids)) ∧
      (ScansAgree bytes p c →
        fields.head?.map SplitField.ids = fields.getLast?.map SplitField.ids) := by
  obtain ⟨hsig, hloop⟩ := readPrefix_ok h
  obtain ⟨fields, hfields, hinfo⟩ := prefixLoop_ok hloop
  simp only [Option.or_none] at hinfo
  have hbound : (⟨bytes, 14⟩ : Cursor).data.length - 14 < bytes.length + 1 := by simp
  have hsplit : (readSplitInfo.run ⟨bytes, 0⟩).1 =
      .ok (fields.head?.map fun f => (f.ids.prevId, f.ids.nextId)) := by
    obtain ⟨hle, -, htake⟩ := readU32_ok hsig
    have hexact : (readExact 4).run ⟨bytes, 0⟩ = (.ok (le32 sigEggHeader), ⟨bytes, 4⟩) := by
      simp only [readExact, if_pos hle, htake]
      rfl
    have hstart : (seekStart 0).run ⟨bytes, 0⟩ = (.ok (), ⟨bytes, 0⟩) := rfl
    have hseek : (seekStart 14).run ⟨bytes, 4⟩ = (.ok (), ⟨bytes, 14⟩) := rfl
    have hpass : passBound.run ⟨bytes, 14⟩ = (.ok (bytes.length + 1), ⟨bytes, 14⟩) := rfl
    rw [readSplitInfo, Run.bind_of_ok hstart, Run.bind_of_ok (Run.attempt_of_ok hexact)]
    simp only [ofLE_le32, ne_eq, not_true, if_false]
    rw [Run.bind_of_ok hseek, Run.bind_of_ok hpass]
    exact hfields.splitInfoLoop hbound
  have hskip (hsizes : ∀ f ∈ fields, 8 ≤ f.size.toNat) :
      (skipContinuationHeader.run ⟨bytes, 0⟩).1 = .ok c.pos := by
    have hstart : (seekStart 0).run ⟨bytes, 0⟩ = (.ok (), ⟨bytes, 0⟩) := rfl
    have hseek : (seekCurrent 10).run ⟨bytes, 4⟩ = (.ok (), ⟨bytes, 14⟩) := rfl
    have hpass : passBound.run ⟨bytes, 14⟩ = (.ok (bytes.length + 1), ⟨bytes, 14⟩) := rfl
    rw [skipContinuationHeader, Run.bind_of_ok hstart, readU32Raw, Run.bind_of_ok hsig,
      if_neg (by simp), Run.bind_of_ok hseek, Run.bind_of_ok hpass,
      Run.bind_of_ok (hfields.continuationLoop hsizes hbound)]
    rfl
  have hids : (readSplitInfo.run ⟨bytes, 0⟩).1 =
        .ok (p.splitInfo.map fun s => (s.prevId, s.nextId)) ↔
      fields.head?.map SplitField.ids = fields.getLast?.map SplitField.ids := by
    have hinj : Function.Injective fun s : SplitInfo => (s.prevId, s.nextId) := by
      rintro ⟨a, b⟩ ⟨a', b'⟩ heq
      simpa using heq
    rw [hsplit, hinfo, Outcome.ok.injEq, ← (Option.map_injective hinj).eq_iff, Option.map_map,
      Option.map_map]
    rfl
  exact ⟨fields, hfields, fun hsizes => ⟨fun hagree => hids.mp hagree.2,
    fun heq => ⟨hskip hsizes, hids.mpr heq⟩⟩, fun hagree => hids.mp hagree.2⟩

/-- A prefix with one Split Info field. -/
def oneSplit : List UInt8 :=
  le32 sigEggHeader ++ [0, 1, 7, 0, 0, 0, 0, 0, 0, 0] ++ le32 sigSplitInfo ++ [0, 8, 0] ++
    le32 5 ++ le32 9 ++ le32 sigEndMarker

theorem oneSplit_agree :
    readPrefix.run ⟨oneSplit, 0⟩ = (.ok (7, ⟨false, some ⟨5, 9⟩⟩), ⟨oneSplit, 33⟩) ∧
      ScansAgree oneSplit ⟨false, some ⟨5, 9⟩⟩ ⟨oneSplit, 33⟩ := by
  have hrun : readPrefix.run ⟨oneSplit, 0⟩ = (.ok (7, ⟨false, some ⟨5, 9⟩⟩), ⟨oneSplit, 33⟩) := by
    decide +kernel
  have hfields : PrefixFields ⟨oneSplit, 14⟩ [⟨8, 5, 9⟩] ⟨oneSplit, 33⟩ := by
    have hsig : readU32.run ⟨oneSplit, 14⟩ = (.ok sigSplitInfo, ⟨oneSplit, 18⟩) := by decide +kernel
    have hsize : readExtraField.run ⟨oneSplit, 18⟩ = (.ok (0, 8), ⟨oneSplit, 21⟩) := by
      decide +kernel
    have hprev : readU32.run ⟨oneSplit, 21⟩ = (.ok 5, ⟨oneSplit, 25⟩) := by decide +kernel
    have hnext : readU32.run ⟨oneSplit, 25⟩ = (.ok 9, ⟨oneSplit, 29⟩) := by decide +kernel
    exact .split hsig hsize hprev hnext (.done (by decide +kernel))
  obtain ⟨fields, hfields', hiff, -⟩ := prefix_scans_agree hrun
  obtain ⟨rfl, -⟩ := hfields.unique hfields'
  exact ⟨hrun, (hiff (by decide)).mpr rfl⟩

/-- A Split Info field that declares half of what it holds, and two fields with
different ids. -/
def shortSplit : List UInt8 :=
  le32 sigEggHeader ++ [0, 1, 7, 0, 0, 0, 0, 0, 0, 0] ++ le32 sigSplitInfo ++ [0, 4, 0] ++
    le32 5 ++ le32 9 ++ le32 sigEndMarker

def twoSplits : List UInt8 :=
  le32 sigEggHeader ++ [0, 1, 7, 0, 0, 0, 0, 0, 0, 0] ++ le32 sigSplitInfo ++ [0, 8, 0] ++
    le32 5 ++ le32 9 ++ le32 sigSplitInfo ++ [0, 8, 0] ++ le32 5 ++ le32 0 ++ le32 sigEndMarker

/-- `open` gets through both; `skip_continuation_header` fails on the first, and
`read_split_info` gives the other ids on the second. -/
theorem splits_disagree :
    readPrefix.run ⟨shortSplit, 0⟩ = (.ok (7, ⟨false, some ⟨5, 9⟩⟩), ⟨shortSplit, 33⟩) ∧
      (skipContinuationHeader.run ⟨shortSplit, 0⟩).1 = .err (.io .unexpectedEof) ∧
      readPrefix.run ⟨twoSplits, 0⟩ = (.ok (7, ⟨false, some ⟨5, 0⟩⟩), ⟨twoSplits, 48⟩) ∧
      (readSplitInfo.run ⟨twoSplits, 0⟩).1 = .ok (some (5, 9)) := by
  decide +kernel

end Unegg
