import Unegg.Archive.Passes
import Unegg.Volume.PrefixScan
import Unegg.Volume.Refines

/-!
# Unegg.Volume.Chain

The volumes `tryOpen` joins.

`Follows` are the volumes that the next ids lead to from the first one.  A
chain that has been walked is one of them, with distinct ids and segments laid
out one behind the other (`Walked`); every pass of the loop keeps that or
fails, so the walk ends, and what it ends with is a whole chain
(`tryOpen_chain`).
-/

namespace Unegg

open Prog Bytes

/-! ## the ids -/

/-- The next id of a volume; 0 when its prefix has none. -/
def NextId (v : List UInt8) (next : UInt32) : Prop :=
  ∃ split, (readSplitInfo.run ⟨v, 0⟩).1 = .ok split ∧ next = (split.map Prod.snd).getD 0

/-- The volumes from the first one on, and the id that the last one asks for. -/
inductive Follows (dir : List DirEntry) (first : List UInt8) : List (List UInt8) → UInt32 → Prop
  | start {next : UInt32} (hnext : NextId first next) : Follows dir first [first] next
  | step {vols : List (List UInt8)} {v : List UInt8} {next next' : UInt32}
      (h : Follows dir first vols next) (hne : next ≠ 0) (hv : findVolumeById dir next = .ok v)
      (hnext : NextId v next') : Follows dir first (vols ++ [v]) next'

variable {dir : List DirEntry} {first v : List UInt8} {vols vols' : List (List UInt8)}
  {next next' id : UInt32}

/-- A volume names one successor. -/
theorem NextId.unique (h : NextId v next) (h' : NextId v next') : next = next' := by
  obtain ⟨split, hsplit, rfl⟩ := h
  obtain ⟨split', hsplit', rfl⟩ := h'
  obtain rfl := Outcome.ok.inj (hsplit.symm.trans hsplit')
  rfl

/-- The volume found is a file of the directory that carries the id. -/
theorem findVolumeById_ok (h : findVolumeById dir id = .ok v) :
    quickHeaderId v = some id ∧ ∃ entry ∈ dir, entry.isFile ∧ entry.bytes = v := by
  rw [findVolumeById] at h
  split at h
  · next entry hfind =>
      have hmem := List.mem_of_find?_eq_some hfind
      have hid := List.find?_some hfind
      simp only [Bool.and_eq_true, decide_eq_true_eq] at hid
      obtain rfl := Except.ok.inj h
      exact ⟨hid.2, entry, hmem, hid.1, rfl⟩
  · simp at h

/-- A volume is not found when no file carries the id. -/
theorem findVolumeById_missing (h : ∀ entry ∈ dir, entry.isFile → quickHeaderId entry.bytes ≠ some id) :
    ∃ e, findVolumeById dir id = .error e := by
  cases hfind : findVolumeById dir id with
  | error e => exact ⟨e, rfl⟩
  | ok v =>
      obtain ⟨hid, entry, hmem, hfile, rfl⟩ := findVolumeById_ok hfind
      exact absurd hid (h entry hmem hfile)

namespace Follows

/-- A chain has a first volume. -/
theorem ne_nil (h : Follows dir first vols next) : vols ≠ [] := by
  cases h <;> simp

/-- The ids lead one way. -/
theorem unique (h : Follows dir first vols next) (h' : Follows dir first vols' next')
    (hlen : vols.length = vols'.length) : vols = vols' ∧ next = next' := by
  induction h generalizing vols' next' with
  | start hnext =>
      cases h' with
      | start hnext' => exact ⟨rfl, hnext.unique hnext'⟩
      | step h' _ _ _ =>
          have := List.length_pos_of_ne_nil h'.ne_nil
          rw [List.length_append, List.length_singleton, List.length_singleton] at hlen
          omega
  | step h _ hv hnext ih =>
      cases h' with
      | start =>
          have := List.length_pos_of_ne_nil h.ne_nil
          rw [List.length_append, List.length_singleton, List.length_singleton] at hlen
          omega
      | step h' _ hv' hnext' =>
          rw [List.length_append, List.length_append, List.length_singleton,
            List.length_singleton] at hlen
          obtain ⟨rfl, rfl⟩ := ih h' (by omega)
          obtain rfl := Except.ok.inj (hv.symm.trans hv')
          exact ⟨rfl, hnext.unique hnext'⟩

/-- A longer chain goes on from the shorter one with the volume it asks for. -/
theorem goes_on (h : Follows dir first vols next) (h' : Follows dir first vols' next')
    (hlt : vols.length < vols'.length) :
    ∃ v, next ≠ 0 ∧ findVolumeById dir next = .ok v ∧ vols ++ [v] <+: vols' := by
  induction h' with
  | start =>
      have := List.length_pos_of_ne_nil h.ne_nil
      rw [List.length_singleton] at hlt
      omega
  | @step vols₁ v₁ next₁ next₂ h₁ hne hv _ ih =>
      rw [List.length_append, List.length_singleton] at hlt
      by_cases hlt₁ : vols.length < vols₁.length
      · obtain ⟨v, hne', hv', hfront⟩ := ih hlt₁
        exact ⟨v, hne', hv', hfront.trans (List.prefix_append _ _)⟩
      · obtain ⟨rfl, rfl⟩ := h.unique h₁ (by omega)
        exact ⟨v₁, hne, hv, List.prefix_rfl⟩

/-- The last volume asks for the next one. -/
theorem next_eq (h : Follows dir first vols next) :
    ∃ v, vols.getLast? = some v ∧ NextId v next := by
  cases h with
  | start hnext => exact ⟨first, rfl, hnext⟩
  | step _ _ _ hnext => exact ⟨_, List.getLast?_concat, hnext⟩

/-- Each volume carries the id its predecessor asks for. -/
theorem linked (h : Follows dir first vols next) :
    vols.IsChain fun u v => ∃ id, NextId u id ∧ quickHeaderId v = some id := by
  induction h with
  | start => exact .singleton first
  | step h _ hv _ ih =>
      obtain ⟨u, hu, hnext⟩ := h.next_eq
      refine List.isChain_append.mpr ⟨ih, .singleton _, fun x hx y hy => ?_⟩
      obtain rfl : u = x := Option.some.inj (hu.symm.trans hx)
      obtain rfl := Option.some.inj hy
      exact ⟨_, hnext, (findVolumeById_ok hv).1⟩

/-- The later volumes are files of the directory. -/
theorem present (h : Follows dir first vols next) (hv : v ∈ vols.tail) :
    ∃ entry ∈ dir, entry.isFile ∧ entry.bytes = v := by
  induction h with
  | start => simp at hv
  | step h _ hfind _ ih =>
      rw [List.tail_append_of_ne_nil h.ne_nil] at hv
      rcases List.mem_append.mp hv with hv | hv
      · exact ih hv
      · obtain rfl := List.mem_singleton.mp hv
        exact (findVolumeById_ok hfind).2

end Follows

/-! ## the prefix of a later volume -/

/-- The End Marker of a prefix, behind fields as long as they declare. -/
inductive PrefixEnd : Cursor → Cursor → Prop
  | here {c c' : Cursor} (hsig : readU32.run c = (.ok sigEndMarker, c')) : PrefixEnd c c'
  | behind {c c₁ c₂ c' : Cursor} {sig : UInt32} {flags : UInt8} {size : UInt32}
      (hsig : readU32.run c = (.ok sig, c₁)) (hne : sig ≠ sigEndMarker)
      (hsize : readExtraField.run c₁ = (.ok (flags, size), c₂))
      (rest : PrefixEnd (c₂.advance size.toNat) c') : PrefixEnd c c'

/-- One pass over the prefix. -/
theorem continuationStep_ok {c c' : Cursor} {r : Prog.Flow Unit Unit}
    (h : (continuationStep ()).run c = (.ok r, c')) :
    (r = .done () ∧ readU32.run c = (.ok sigEndMarker, c')) ∨
    (r = .next () ∧ ∃ c₁ c₂ sig flags size, readU32.run c = (.ok sig, c₁) ∧ sig ≠ sigEndMarker ∧
      readExtraField.run c₁ = (.ok (flags, size), c₂) ∧ c' = c₂.advance size.toNat) := by
  rw [continuationStep, readU32Raw, Run.bind_ok] at h
  obtain ⟨sig, c₁, hsig, h⟩ := h
  split at h
  · next hend =>
      simp only [Run.pure_run, Prod.mk.injEq, Outcome.ok.injEq] at h
      obtain ⟨rfl, rfl⟩ := h
      exact .inl ⟨rfl, hend ▸ hsig⟩
  · next hend =>
      rw [readExtraFieldRaw, Run.bind_ok] at h
      obtain ⟨⟨flags, size⟩, c₂, hsize, h⟩ := h
      rw [Run.bind_of_ok (seekCurrent_nat _ _)] at h
      simp only [Run.pure_run, Prod.mk.injEq, Outcome.ok.injEq] at h
      exact .inr ⟨h.1.symm, c₁, c₂, sig, flags, size, hsig, hend, hsize, h.2.symm⟩

/-- The loop stops where the prefix ends. -/
theorem continuationLoop_ok {c c' : Cursor} {n : Nat}
    (h : (Run.loop continuationStep n ()).run c = (.ok (), c')) : PrefixEnd c c' := by
  induction n generalizing c with
  | zero => simp [Run.loop] at h
  | succ n ih =>
      obtain ⟨k, hk, r, c₁, hstep, hcase⟩ := Run.loop_ok h
      obtain rfl : n = k := by omega
      rcases continuationStep_ok hstep with
        ⟨rfl, hend⟩ | ⟨rfl, c₂, c₃, sig, flags, size, hsig, hne, hsize, rfl⟩
      · rcases hcase with ⟨b, hb, -⟩ | ⟨-, rfl⟩
        · simp at hb
        · exact .here hend
      · rcases hcase with ⟨b, -, hloop⟩ | ⟨hr, -⟩
        · exact .behind hsig hne hsize (ih hloop)
        · simp at hr

/-- The data of a volume starts behind the End Marker of its prefix. -/
theorem skipContinuationHeader_ok {c : Cursor} {p : Nat}
    (h : skipContinuationHeader.run ⟨v, 0⟩ = (.ok p, c)) :
    PrefixEnd ⟨v, 14⟩ c ∧ c.pos = p := by
  have hstart : (seekStart 0).run ⟨v, 0⟩ = (.ok (), ⟨v, 0⟩) := rfl
  rw [skipContinuationHeader, Run.bind_of_ok hstart, readU32Raw, Run.bind_ok] at h
  obtain ⟨sig, c₁, hsig, h⟩ := h
  obtain ⟨-, rfl, -⟩ := readU32_ok hsig
  split at h
  · simp at h
  · have hseek : (seekCurrent 10).run ⟨v, 4⟩ = (.ok (), ⟨v, 14⟩) := rfl
    have hpass : passBound.run ⟨v, 14⟩ = (.ok (v.length + 1), ⟨v, 14⟩) := rfl
    rw [show (⟨v, 0⟩ : Cursor).advance 4 = ⟨v, 4⟩ from rfl, Run.bind_of_ok hseek,
      Run.bind_of_ok hpass, Run.bind_ok] at h
    obtain ⟨_, c₂, hloop, h⟩ := h
    simp only [streamPosition, Prod.mk.injEq, Outcome.ok.injEq] at h
    obtain ⟨rfl, rfl⟩ := h
    exact ⟨continuationLoop_ok hloop, rfl⟩

/-! ## reading a volume -/

theorem sameData_readExtraField : Run.Steps SameData readExtraField :=
  .bind sameData_readU8 fun _ =>
    .ite (.bind sameData_readU32 fun _ => .pure _) (.bind sameData_readU16 fun _ => .pure _)

theorem sameData_passBound : Run.Steps SameData passBound := fun _ => rfl

/-- Reading the split field leaves the data. -/
theorem sameData_readSplitInfo : Run.Steps SameData readSplitInfo := by
  refine .bind (sameData_seekStart 0) fun _ => .bind (.attempt (sameData_readExact 4)) fun r => ?_
  cases r with
  | error e => exact .pure none
  | ok sig =>
      refine .ite (.pure none) (.bind (sameData_seekStart 14) fun _ => ?_)
      refine .bind sameData_passBound fun n => .loop (fun _ => ?_) n ()
      refine .bind sameData_readU32 fun sig => .ite (.pure _) ?_
      refine .bind sameData_readExtraField fun _ => .ite ?_ ?_
      · exact .bind sameData_readU32 fun _ => .bind sameData_readU32 fun _ => .pure _
      · exact .bind (sameData_seekCurrent _) fun _ => .pure _

/-- Skipping the prefix of a later volume leaves the data. -/
theorem sameData_skipContinuationHeader : Run.Steps SameData skipContinuationHeader := by
  refine .bind (sameData_seekStart 0) fun _ => .bind sameData_readU32 fun sig => ?_
  refine .ite (.throw _) (.bind (sameData_seekCurrent 10) fun _ => ?_)
  refine .bind sameData_passBound fun n => .bind (.loop (fun _ => ?_) n ()) fun _ => fun _ => rfl
  refine .bind sameData_readU32 fun sig => .ite (.pure _) ?_
  exact .bind sameData_readExtraField fun _ => .bind (sameData_seekCurrent _) fun _ => .pure _

/-- What is read of a later volume. -/
theorem readVolume_ok {p : Nat} {c : Cursor} (h : readVolume.run ⟨v, 0⟩ = (.ok (p, id), c)) :
    PrefixEnd ⟨v, 14⟩ ⟨v, p⟩ ∧ NextId v id ∧ c.data = v := by
  rw [readVolume, Run.bind_ok] at h
  obtain ⟨dataStart, ⟨data, pos⟩, hskip, h⟩ := h
  obtain rfl : data = v := sameData_skipContinuationHeader.of_run hskip
  obtain ⟨hend, rfl⟩ := skipContinuationHeader_ok hskip
  have hseek : (seekStart 0).run ⟨data, pos⟩ = (.ok (), ⟨data, 0⟩) := rfl
  rw [Run.bind_of_ok hseek, Run.bind_ok] at h
  obtain ⟨split, c₂, hsplit, h⟩ := h
  simp only [Run.pure_run, Prod.mk.injEq, Outcome.ok.injEq] at h
  obtain ⟨⟨rfl, rfl⟩, rfl⟩ := h
  exact ⟨hend, ⟨split, by rw [hsplit], rfl⟩, sameData_readSplitInfo.of_run hsplit⟩

/-- A file with split info has a header id. -/
theorem quickHeaderId_of_split {ids : UInt32 × UInt32}
    (h : (readSplitInfo.run ⟨v, 0⟩).1 = .ok (some ids)) : ∃ id, quickHeaderId v = some id := by
  obtain ⟨c, h⟩ : ∃ c, readSplitInfo.run ⟨v, 0⟩ = (.ok (some ids), c) := ⟨_, Prod.ext h rfl⟩
  have hstart : (seekStart 0).run ⟨v, 0⟩ = (.ok (), ⟨v, 0⟩) := rfl
  rw [readSplitInfo, Run.bind_of_ok hstart, Run.bind_ok] at h
  obtain ⟨r, ⟨data, pos⟩, hattempt, h⟩ := h
  cases r with
  | error e => simp at h
  | ok sig =>
      obtain ⟨hle, rfl, hc⟩ := readExact_ok (Run.attempt_ok.mp hattempt)
      simp only [Cursor.advance, Cursor.mk.injEq] at hc
      obtain ⟨rfl, rfl⟩ := hc
      simp only [Cursor.rest, List.drop_zero] at hle h
      split at h
      · simp at h
      · next hegg =>
          have hseek : (seekStart 14).run ⟨data, 0 + 4⟩ = (.ok (), ⟨data, 14⟩) := rfl
          have hpass : passBound.run ⟨data, 14⟩ = (.ok (data.length + 1), ⟨data, 14⟩) := rfl
          rw [Run.bind_of_ok hseek, Run.bind_of_ok hpass] at h
          obtain ⟨k, -, r, c₁, hstep, -⟩ := Run.loop_ok h
          rw [splitInfoStep, readU32Raw, Run.bind_ok] at hstep
          obtain ⟨sig, c₂, hsig, -⟩ := hstep
          -- a signature was read at 14, so ten bytes are there
          have hlen : 4 ≤ data.length - 14 := by
            have := (readU32_ok hsig).1
            rwa [Cursor.length_rest] at this
          refine ⟨UInt32.ofNat (ofLE ((data.take 10).drop 6)), ?_⟩
          have htake : (data.take 10).length = 10 := by rw [List.length_take]; omega
          have hsig : (data.take 10).take 4 = data.take 4 := by rw [List.take_take]; rfl
          simp only [quickHeaderId, htake, hsig]
          rw [if_neg (lt_irrefl 10), if_neg hegg]

/-! ## reading ends -/

/-- A pass over a field of a prefix leaves less to read. -/
theorem splitInfoStep_next {c c' : Cursor} {u : Unit}
    (h : (splitInfoStep ()).run c = (.ok (.next u), c')) :
    c'.data.length - c'.pos < c.data.length - c.pos := by
  rw [splitInfoStep, readU32Raw, Run.bind_ok] at h
  obtain ⟨sig, c₁, hsig, h⟩ := h
  split at h
  · simp at h
  · rw [readExtraFieldRaw, Run.bind_ok] at h
    obtain ⟨⟨flags, size⟩, c₂, hsize, h⟩ := h
    dsimp only at h
    split at h
    · rw [Run.bind_ok] at h
      obtain ⟨_, c₃, -, h⟩ := h
      rw [Run.bind_ok] at h
      obtain ⟨_, c₄, -, h⟩ := h
      simp at h
    · rw [Run.bind_of_ok (seekCurrent_nat _ _)] at h
      simp only [Run.pure_run, Prod.mk.injEq] at h
      rw [← h.2]
      exact field_shrinks hsig hsize (Nat.lt_succ_self _)

/-- A pass over a field of the prefix leaves fewer bytes ahead. -/
theorem continuationStep_next {c c' : Cursor} {u : Unit}
    (h : (continuationStep ()).run c = (.ok (.next u), c')) :
    c'.data.length - c'.pos < c.data.length - c.pos := by
  rcases continuationStep_ok h with ⟨hr, -⟩ | ⟨-, c₁, c₂, sig, flags, size, hsig, -, hsize, rfl⟩
  · simp at hr
  · exact field_shrinks hsig hsize (Nat.lt_succ_self _)

/-- A loop over the fields of a prefix ends within its bound. -/
theorem ends_prefixLoop {γ : Type} {body : Unit → Parser (Prog.Flow Unit γ)}
    (hbody : Run.Ends (body ())) (hnext : ∀ u c c', (body ()).run c = (.ok (.next u), c') →
      c'.data.length - c'.pos < c.data.length - c.pos) :
    Run.Ends (passBound >>= fun n => Run.loop body n ()) := by
  intro c
  have hpass : passBound.run c = (.ok (c.data.length + 1), c) := rfl
  rw [Run.bind_of_ok hpass]
  exact Run.loop_ends (fun _ c => c.data.length - c.pos) (fun _ => hbody)
    (fun _ s b' s' h => hnext b' s s' h) (by omega)

/-- Reading the split field comes back. -/
theorem ends_readSplitInfo : Run.Ends readSplitInfo := by
  refine .bind (ends_seekStart 0) fun _ => .bind (.attempt (ends_readExact 4)) fun r => ?_
  cases r with
  | error e => exact .pure none
  | ok sig =>
      refine .ite (.pure none) (.bind (ends_seekStart 14) fun _ => ?_)
      refine ends_prefixLoop ?_ fun _ _ _ => splitInfoStep_next
      refine .bind ends_readU32 fun sig => .ite (.pure _) (.bind ends_readExtraField fun _ => ?_)
      exact .ite (.bind ends_readU32 fun _ => .bind ends_readU32 fun _ => .pure _)
        (.bind (ends_seekCurrent _) fun _ => .pure _)

/-- Skipping the prefix comes back, for each pass takes a field. -/
theorem ends_skipContinuationHeader : Run.Ends skipContinuationHeader := by
  refine .bind (ends_seekStart 0) fun _ => .bind ends_readU32 fun sig => ?_
  refine .ite (.throw _) (.bind (ends_seekCurrent 10) fun _ => ?_)
  rw [← bind_assoc]
  refine .bind (ends_prefixLoop ?_ fun _ _ _ => continuationStep_next) fun _ => fun _ => rfl
  refine .bind ends_readU32 fun sig => .ite (.pure _) (.bind ends_readExtraField fun _ => ?_)
  exact .bind (ends_seekCurrent _) fun _ => .pure _

theorem ends_readVolume : Run.Ends readVolume :=
  .bind ends_skipContinuationHeader fun _ => .bind (ends_seekStart 0) fun _ =>
    .bind ends_readSplitInfo fun _ => .pure _

/-- What comes back from a cursor comes back from a file. -/
theorem ends_onFile {α : Type} {m : Parser α} (hm : Run.Ends m) (bytes : List UInt8) :
    Run.Ends (onFile bytes m) := by
  intro u
  have h := hm ⟨bytes, 0⟩
  simp only [onFile]
  rcases hrun : m.run ⟨bytes, 0⟩ with ⟨a | e | _ | _, c⟩
  · rfl
  · rfl
  all_goals
    rw [hrun] at h
    exact h

/-- A file is read from its start. -/
theorem onFile_ok {α : Type} {m : Parser α} {bytes : List UInt8} {a : α} {c : Cursor} {u u' : Unit}
    (h : (onFile bytes m).run u = (.ok (a, c), u')) : m.run ⟨bytes, 0⟩ = (.ok a, c) := by
  simp only [onFile] at h
  rcases hrun : m.run ⟨bytes, 0⟩ with ⟨a' | e | _ | _, c'⟩ <;> rw [hrun] at h <;> simp_all

/-! ## the walk -/

/-- The segment of a later volume: all that lies behind its prefix. -/
structure ContinuationOf (v : List UInt8) (s : Segment) : Prop where
  data : s.file.data = v
  start : PrefixEnd ⟨v, 14⟩ ⟨v, s.physStart⟩
  size : s.physStart + s.dataSize = v.length

/-- The segments lie one behind the other, from `lo` to `hi`. -/
def Contiguous : Nat → List Segment → Nat → Prop
  | lo, [], hi => lo = hi
  | lo, s :: segs, hi => s.logicalStart = lo ∧ Contiguous s.logicalEnd segs hi

/-- A segment that starts where the others end goes on with them. -/
theorem Contiguous.concat {lo hi : Nat} {segs : List Segment} {s : Segment}
    (h : Contiguous lo segs hi) (hs : s.logicalStart = hi) :
    Contiguous lo (segs ++ [s]) s.logicalEnd := by
  induction segs generalizing lo with
  | nil =>
      obtain rfl : lo = hi := h
      exact ⟨hs, rfl⟩
  | cons t segs ih => exact ⟨h.1, ih h.2⟩

/-- The last segment says where all of them end. -/
@[simp] theorem endOf_concat (segs : List Segment) (s : Segment) :
    endOf (segs ++ [s]) = s.logicalEnd := by
  simp [endOf]

/-- What holds when the loop has joined the first volume and `later`. -/
structure Walked (dir : List DirEntry) (first : List UInt8) (later : List (List UInt8))
    (chain : Chain) : Prop where
  follows : Follows dir first (first :: later) chain.next
  seen : (first :: later).map quickHeaderId = chain.seen.reverse.map some
  nodup : chain.seen.Nodup
  segments : ∃ segs, chain.segments = ⟨⟨first, 0⟩, 0, 0, first.length⟩ :: segs ∧
    List.Forall₂ ContinuationOf later segs
  contiguous : Contiguous 0 chain.segments (endOf chain.segments)
  count : later.length < maxVolumes

/-- One pass of the loop. -/
theorem chainStep_ok {chain : Chain} {r : Prog.Flow Chain (List Segment)} {u u' : Unit}
    (h : (chainStep dir chain).run u = (.ok r, u')) :
    (chain.next = 0 ∧ r = .done chain.segments) ∨
    (chain.next ≠ 0 ∧ chain.next ∉ chain.seen ∧ chain.segments.length < maxVolumes ∧
      ∃ v s next, findVolumeById dir chain.next = .ok v ∧ ContinuationOf v s ∧
        s.logicalStart = endOf chain.segments ∧ NextId v next ∧
        r = .next ⟨chain.segments ++ [s], chain.next :: chain.seen, next⟩) := by
  rw [chainStep] at h
  split at h
  · next hnext =>
      simp only [Run.pure_run, Prod.mk.injEq, Outcome.ok.injEq] at h
      exact .inl ⟨hnext, h.1.symm⟩
  · next hnext =>
      split at h
      · simp at h
      · next hseen =>
          split at h
          · simp at h
          · next hcount =>
              rw [Run.bind_ok] at h
              obtain ⟨v, u₁, hv, h⟩ := h
              obtain ⟨hfind, rfl⟩ := Run.ofExcept_ok.mp hv
              rw [Run.bind_ok] at h
              obtain ⟨⟨⟨p, id⟩, file⟩, u₂, hread, h⟩ := h
              obtain ⟨hend, hid, hdata⟩ := readVolume_ok (onFile_ok hread)
              dsimp only at h
              split at h
              · simp at h
              · next hlen =>
                  simp only [Run.pure_run, Prod.mk.injEq, Outcome.ok.injEq] at h
                  refine .inr ⟨hnext, hseen, by omega, v, _, id, hfind, ⟨hdata, hend, ?_⟩, rfl, hid,
                    h.1.symm⟩
                  change p + (v.length - p) = v.length
                  omega

/-- The first volume alone. -/
theorem Walked.start (hnext : NextId first next) (hne : next ≠ 0) :
    Walked dir first [] (Chain.start first next) := by
  obtain ⟨split, hsplit, rfl⟩ := id hnext
  cases split with
  | none => simp at hne
  | some ids =>
      obtain ⟨id, hid⟩ := quickHeaderId_of_split hsplit
      refine ⟨.start hnext, ?_, ?_, ⟨[], rfl, .nil⟩, ⟨rfl, rfl⟩, by decide⟩
      · simp [Chain.start, hid]
      · simp [Chain.start, hid]

/-- A pass that goes on joins one more volume. -/
theorem Walked.step {later : List (List UInt8)} {chain chain' : Chain} {u u' : Unit}
    (hw : Walked dir first later chain)
    (h : (chainStep dir chain).run u = (.ok (.next chain'), u')) :
    ∃ v, Walked dir first (later ++ [v]) chain' := by
  rcases chainStep_ok h with
    ⟨-, hr⟩ | ⟨hne, hseen, hcount, v, s, next, hfind, hs, hstart, hnext, hr⟩
  · simp at hr
  · obtain rfl := Flow.next.inj hr
    obtain ⟨segs, hsegs, hlater⟩ := hw.segments
    refine ⟨v, .step hw.follows hne hfind hnext, ?_, List.nodup_cons.mpr ⟨hseen, hw.nodup⟩,
      ⟨segs ++ [s], by rw [hsegs, List.cons_append], List.rel_append hlater (.cons hs .nil)⟩, ?_, ?_⟩
    · have hid := (findVolumeById_ok hfind).1
      rw [← List.cons_append, List.map_append, hw.seen]
      simp [hid]
    · rw [endOf_concat]
      exact hw.contiguous.concat hstart
    · rw [hsegs, List.length_cons, ← hlater.length_eq] at hcount
      rw [List.length_append, List.length_singleton]
      exact hcount

/-- What `try_open` returns has been walked to its end. -/
theorem tryOpen_ok {r : MultiVolumeReader} {u u' : Unit}
    (h : (tryOpen dir first).run u = (.ok (some r), u')) :
    ∃ later chain, Walked dir first later chain ∧ chain.next = 0 ∧ r = .new chain.segments := by
  rw [tryOpen, Run.bind_ok] at h
  obtain ⟨⟨split, file⟩, u₁, hsplit, h⟩ := h
  cases split with
  | none => simp at h
  | some ids =>
      obtain ⟨prev, next⟩ := ids
      dsimp only at h
      split at h
      · simp at h
      · next hne =>
          rw [Run.bind_ok] at h
          obtain ⟨segments, u₂, hloop, h⟩ := h
          simp only [Run.pure_run, Prod.mk.injEq, Outcome.ok.injEq, Option.some.injEq] at h
          have hnext : NextId first next := ⟨some (prev, next), by rw [onFile_ok hsplit], rfl⟩
          have hstep (chain : Chain) (s : Unit) (chain' : Chain) (s' : Unit)
              (hI : ∃ later, Walked dir first later chain)
              (hrun : (chainStep dir chain).run s = (.ok (.next chain'), s')) :
              ∃ later, Walked dir first later chain' := by
            obtain ⟨later, hw⟩ := hI
            obtain ⟨v, hw'⟩ := hw.step hrun
            exact ⟨later ++ [v], hw'⟩
          have hdone (chain : Chain) (s : Unit) (segs : List Segment) (s' : Unit)
              (hI : ∃ later, Walked dir first later chain)
              (hrun : (chainStep dir chain).run s = (.ok (.done segs), s')) :
              ∃ later chain, Walked dir first later chain ∧ chain.next = 0 ∧
                segs = chain.segments := by
            obtain ⟨later, hw⟩ := hI
            rcases chainStep_ok hrun with ⟨hzero, hr⟩ | ⟨-, -, -, _, _, _, -, -, -, -, hr⟩
            · exact ⟨later, chain, hw, hzero, Flow.done.inj hr⟩
            · simp at hr
          obtain ⟨later, chain, hw, hend, rfl⟩ :=
            Run.loop_invariant (Q := fun segs _ => _) hstep hdone ⟨[], .start hnext hne⟩ hloop
          exact ⟨later, chain, hw, hend, h.1.symm⟩

/-! ## what `try_open` joins -/

/-- The bytes of a volume behind the End Marker of its prefix. -/
def BehindPrefix (v bs : List UInt8) : Prop := ∃ p, PrefixEnd ⟨v, 14⟩ ⟨v, p⟩ ∧ bs = v.drop p

/-- The reader is the first volume and all of `later` behind it. -/
structure Joined (dir : List DirEntry) (first : List UInt8) (later : List (List UInt8))
    (r : MultiVolumeReader) : Prop where
  distinct : ∃ ids : List UInt32, (first :: later).map quickHeaderId = ids.map some ∧ ids.Nodup
  linked : (first :: later).IsChain fun u v => ∃ id, NextId u id ∧ quickHeaderId v = some id
  present : ∀ v ∈ later, ∃ entry ∈ dir, entry.isFile ∧ entry.bytes = v
  last : NextId ((first :: later).getLast (List.cons_ne_nil _ _)) 0
  count : later.length < maxVolumes
  contiguous : Contiguous 0 r.segments r.totalSize
  bytes : ∃ tails, List.Forall₂ BehindPrefix later tails ∧
    r.segments.map Segment.bytes = first :: tails ∧ contents r.segments = first ++ tails.flatten

/-- A continuation is what lies behind the prefix of its volume. -/
theorem ContinuationOf.behindPrefix {s : Segment} (h : ContinuationOf v s) :
    BehindPrefix v s.bytes := by
  refine ⟨s.physStart, h.start, ?_⟩
  have hlen : s.dataSize = (v.drop s.physStart).length := by
    rw [List.length_drop, ← h.size, Nat.add_sub_cancel_left]
  rw [Segment.bytes, h.data, hlen, List.take_length]

/-- A walk that has come to a volume without a successor has joined them all. -/
theorem Walked.joined {later : List (List UInt8)} {chain : Chain}
    (hw : Walked dir first later chain) (hend : chain.next = 0) :
    Joined dir first later (.new chain.segments) := by
  obtain ⟨segs, hsegs, hlater⟩ := hw.segments
  have hfollows := hend ▸ hw.follows
  obtain ⟨last, hlast, hnext⟩ := hfollows.next_eq
  have htails : List.Forall₂ BehindPrefix later (segs.map Segment.bytes) :=
    List.forall₂_map_right_iff.mpr (hlater.imp fun _ _ => ContinuationOf.behindPrefix)
  have hbytes : chain.segments.map Segment.bytes = first :: segs.map Segment.bytes := by
    rw [hsegs, List.map_cons]
    simp [Segment.bytes]
  exact {
    distinct := ⟨_, hw.seen, List.nodup_reverse.mpr hw.nodup⟩
    linked := hfollows.linked
    present := fun v hv => hfollows.present hv
    last := by
      rw [List.getLast?_eq_some_getLast (List.cons_ne_nil _ _), Option.some.injEq] at hlast
      exact hlast ▸ hnext
    count := hw.count
    contiguous := hw.contiguous
    bytes := ⟨_, htails, hbytes, by
      rw [contents, List.flatMap_def]
      exact congrArg List.flatten hbytes⟩ }

/-! ## the theorem -/

/-- A step of the walk comes back. -/
theorem ends_chainStep (chain : Chain) : Run.Ends (chainStep dir chain) := by
  refine .ite (.pure _) (.ite (.throw _) (.ite (.throw _) ?_))
  exact .bind (.ofExcept _) fun v => .bind (ends_onFile ends_readVolume v) fun _ =>
    .ite (.throw _) (.pure _)

/-- The walk comes back. -/
theorem ends_tryOpen (dir : List DirEntry) (first : List UInt8) :
    Run.Ends (tryOpen dir first) := by
  refine .bind (ends_onFile ends_readSplitInfo first) fun ⟨split, _⟩ => ?_
  rcases split with _ | ⟨prev, next⟩
  · exact .pure _
  · refine .ite (.pure _) (.bind (fun u => ?_) fun _ => .pure _)
    refine Run.loop_ends (fun chain _ => maxVolumes - chain.segments.length) ends_chainStep ?_ ?_
    · intro chain s chain' s' h
      rcases chainStep_ok h with ⟨-, hr⟩ | ⟨-, -, hcount, v, s, next, -, -, -, -, hr⟩
      · simp at hr
      · obtain rfl := Flow.next.inj hr
        rw [List.length_append, List.length_singleton]
        omega
    · exact Nat.lt_succ_of_le (Nat.sub_le _ _)

/-- An archive that is not split asks for no volume. -/
theorem tryOpen_none {u u' : Unit} (h : (tryOpen dir first).run u = (.ok none, u')) :
    NextId first 0 := by
  rw [tryOpen, Run.bind_ok] at h
  obtain ⟨⟨split, file⟩, u₁, hsplit, h⟩ := h
  have hsplit := congrArg Prod.fst (onFile_ok hsplit)
  cases split with
  | none => exact ⟨none, hsplit, rfl⟩
  | some ids =>
      obtain ⟨prev, next⟩ := ids
      dsimp only at h
      split at h
      · next hzero => exact ⟨some (prev, next), hsplit, hzero.symm⟩
      · rw [Run.bind_ok] at h
        obtain ⟨segments, u₂, -, h⟩ := h
        simp at h

/-- Why a chain cannot go on: the next id has been used, no file carries it, or
there are as many volumes as there may be. -/
def Stuck (dir : List DirEntry) (vols : List (List UInt8)) (next : UInt32) : Prop :=
  some next ∈ vols.map quickHeaderId ∨
    (∀ entry ∈ dir, entry.isFile → quickHeaderId entry.bytes ≠ some next) ∨
    maxVolumes ≤ vols.length

/-- A chain that is stuck has not been walked to the end of. -/
theorem Walked.not_stuck {later : List (List UInt8)} {chain : Chain}
    (hw : Walked dir first later chain) (hend : chain.next = 0)
    (h : Follows dir first vols next) (hne : next ≠ 0) : ¬ Stuck dir vols next := by
  intro hstuck
  rcases Nat.lt_trichotomy vols.length (first :: later).length with hlt | heq | hgt
  · obtain ⟨v, -, hv, hfront⟩ := h.goes_on hw.follows hlt
    rcases hstuck with hused | hmissing | hcount
    · have hnodup : ((first :: later).map quickHeaderId).Nodup := by
        rw [hw.seen]
        exact (List.nodup_reverse.mpr hw.nodup).map (Option.some_injective _)
      have hsub := hnodup.sublist (hfront.sublist.map quickHeaderId)
      rw [List.map_append, List.map_singleton, (findVolumeById_ok hv).1] at hsub
      exact (List.nodup_append.mp hsub).2.2 _ hused _ (List.mem_singleton_self _) rfl
    · obtain ⟨e, he⟩ := findVolumeById_missing hmissing
      simp [he] at hv
    · have hlater := hw.count
      rw [List.length_cons] at hlt
      omega
  · obtain ⟨-, rfl⟩ := h.unique hw.follows heq
    exact hne hend
  · obtain ⟨v, hne', -⟩ := hw.follows.goes_on h hgt
    exact hne' hend

/-- **The chain of volumes.**  `try_open` ends; it fails when the ids lead to one
that cannot be followed; and what it returns is the whole chain. -/
theorem tryOpen_chain (dir : List DirEntry) (first : List UInt8) :
    ((tryOpen dir first).run ()).1.returned ∧
      (∀ vols next, Follows dir first vols next → next ≠ 0 → Stuck dir vols next →
        ∃ e, ((tryOpen dir first).run ()).1 = .err e) ∧
      ∀ r, ((tryOpen dir first).run ()).1 = .ok (some r) → ∃ later, Joined dir first later r := by
  have hends := ends_tryOpen dir first ()
  refine ⟨hends, fun vols next hfollows hne hstuck => ?_, fun r hr => ?_⟩
  · rcases hrun : (tryOpen dir first).run () with ⟨(_ | r) | e | _ | _, u⟩
    · exfalso
      have hzero : Follows dir first [first] 0 := .start (tryOpen_none hrun)
      have hlen := List.length_pos_of_ne_nil hfollows.ne_nil
      rcases Nat.lt_or_ge 1 vols.length with hlt | hge
      · obtain ⟨v, hne', -⟩ := hzero.goes_on hfollows hlt
        exact hne' rfl
      · obtain ⟨-, rfl⟩ := hfollows.unique hzero (by rw [List.length_singleton]; omega)
        exact hne rfl
    · obtain ⟨later, chain, hw, hend, -⟩ := tryOpen_ok hrun
      exact absurd hstuck (hw.not_stuck hend hfollows hne)
    · exact ⟨e, rfl⟩
    all_goals
      rw [hrun] at hends
      simp [Outcome.returned] at hends
  · obtain ⟨later, chain, hw, hend, rfl⟩ := tryOpen_ok (Prod.ext hr rfl)
    exact ⟨later, hw.joined hend⟩

end Unegg
