import Unegg.Extract
import Unegg.SolidSink.Steps

/-!
# Unegg.Extract.Containment

Everything an extraction touches lies below the destination, and is there for
an entry whose name may be joined (`extraction_contained`).

Every event is traced to the call that caused it, over all runs: every path
comes from `safeJoin`, directly, as a parent, or through what the sink has
created.
-/

namespace Unegg

open Prog

variable {crates : Crates} {os : Os} {archive : EggArchive} {entries : List EggFileEntry}
  {dest : Path} {password : Option String} {pipeMode : Bool} {filter : Option (List String)}
  {entry : EggFileEntry} {p q target : Path}

/-- The path of an entry with a safe name. -/
def Owned (dest : Path) (entries : List EggFileEntry) (p : Path) : Prop :=
  ∃ entry ∈ entries, SafeName entry.fileName ∧ safeJoin dest entry.fileName = .ok p

/-- The events an extraction below `dest` may cause: files and times only at
the paths of entries, directories only there or right above. -/
def Event.Within (dest : Path) (entries : List EggFileEntry) : Event → Prop
  | .createDirAll p _ =>
    (p = dest ∨ Inside dest p) ∧ ∃ q, Owned dest entries q ∧ (p = q ∨ q.parent = some p)
  | .create p _ | .remove p | .setTime p _ _ | .write (.file p) _ =>
    Inside dest p ∧ Owned dest entries p
  | .stdout | .write .stdout _ => True

theorem owned_of_safeJoin (hmem : entry ∈ entries)
    (h : safeJoin dest entry.fileName = .ok p) : Owned dest entries p :=
  ⟨entry, hmem, (safeJoin_ok.mp h).1, h⟩

/-- An owned path lies inside the destination. -/
theorem Owned.inside (h : Owned dest entries p) : Inside dest p := by
  obtain ⟨entry, -, -, hjoin⟩ := h
  exact inside_of_safeJoin hjoin

/-- An owned path may be made a directory. -/
theorem Owned.createDirAll (h : Owned dest entries p) (ok : Bool) :
    (Event.createDirAll p ok).Within dest entries :=
  ⟨.inr h.inside, p, h, .inl rfl⟩

/-- The parent of an owned path may be made. -/
theorem Owned.createParent (h : Owned dest entries p) (hq : p.parent = some q) (ok : Bool) :
    (Event.createDirAll q ok).Within dest entries :=
  ⟨h.inside.parent hq, p, h, .inr hq⟩

/-! ## files and directories -/

/-- Creating a file of an entry stays within. -/
theorem within_createFile (h : Owned dest entries target) :
    Run.Steps (Adds (Event.Within dest entries)) (createFile os target) :=
  .bind (.mapErr (Adds.createParent fun _ ok hq => h.createParent hq ok)) fun _ =>
    .mapErr (Adds.createFile fun _ => ⟨h.inside, h⟩)

/-- Making the directory of an entry stays within. -/
theorem within_createDirAll (h : Owned dest entries target) :
    Run.Steps (Adds (Event.Within dest entries)) (createDirAll os target) :=
  .mapErr (Adds.mkdirAll h.createDirAll)

/-- Setting the time of an entry stays within. -/
theorem within_setFileTime (h : Owned dest entries target) (filetime : UInt64) :
    Run.Steps (Adds (Event.Within dest entries)) (setFileTime target filetime) :=
  .ite (.pure _) (Adds.note ⟨h.inside, h⟩)

/-! ## one entry -/

/-- A block only writes to its output. -/
theorem adds_extractBlocks {P : Event → Prop} {out : Target} (hout : ∀ bs, P (.write out bs))
    (blocks : List EggBlock) (d : Option Decryptor) :
    Run.Steps (Adds P) (extractBlocks crates os archive out blocks d) := by
  have hrefl : Std.Refl fun x y : Option Decryptor × World => Adds P x.2 y.2 :=
    ⟨fun x => Std.Refl.refl x.2⟩
  have htrans : IsTrans (Option Decryptor × World) fun x y => Adds P x.2 y.2 :=
    ⟨fun _ _ _ h h' => IsTrans.trans _ _ _ h h'⟩
  have hrefl' : Std.Refl fun x y : World × Nat => Adds P x.1 y.1 := ⟨fun x => Std.Refl.refl x.1⟩
  have htrans' : IsTrans (World × Nat) fun x y => Adds P x.1 y.1 :=
    ⟨fun _ _ _ h h' => IsTrans.trans _ _ _ h h'⟩
  have hblock : ∀ block, Run.Steps (fun x y => Adds P x.2 y.2)
      (decompressBlock crates os archive out block) := by
    intro block x
    exact Coder.steps_run (fun bs => steps_limitWriter (Adds.write hout bs))
      (fun y => Adds.flush out y.1) _ (blockIo archive block x)
  intro w
  refine Run.Steps.forEach (R := fun x y => Adds P x.2 y.2) (fun block _ => ?_) (d, w)
  exact .bind (hblock block) fun crc => .ite (.throw _) (.pure _)

/-- Parsing adds no event. -/
theorem adds_onReader {P : Event → Prop} {α : Type} (m : Parser α) :
    Run.Steps (Adds P) (onReader archive m) := fun w => Std.Refl.refl w

/-- The writer is standard output or the file of the entry. -/
theorem openWriter_target {out : Target} {w w' : World}
    (h : (openWriter os pipeMode target).run w = (.ok out, w')) :
    out = .stdout ∨ out = .file target := by
  rw [openWriter] at h
  split at h
  all_goals
    rw [Run.bind_ok] at h
    obtain ⟨_, w₁, _, h⟩ := h
    simp only [Run.pure_run, Prod.mk.injEq, Outcome.ok.injEq] at h
    simp [← h.1]

/-- Extracting an entry stays within. -/
theorem within_extractEntry (hmem : entry ∈ entries) :
    Run.Steps (Adds (Event.Within dest entries))
      (extractEntry crates os archive dest password pipeMode entry) := by
  intro w
  refine Run.step_bind (Run.Steps.ofExcept _ w) fun target w₁ hjoin => ?_
  have howned : Owned dest entries target :=
    owned_of_safeJoin hmem (Run.ofExcept_ok.mp hjoin).1
  refine Run.Steps.ite (.ite (.pure _) (within_createDirAll howned)) (.ite ?_ ?_) w₁
  · exact .ite (.throw _) (.ite (.pure _) (within_createFile howned))
  · refine .bind (.ofExcept _) fun crypto => .bind (adds_onReader _) fun _ => fun w₂ => ?_
    have hopen : Run.Steps (Adds (Event.Within dest entries)) (openWriter os pipeMode target) :=
      .ite (.bind (Adds.note trivial) fun _ => .pure _)
        (.bind (within_createFile howned) fun _ => .pure _)
    refine Run.step_bind (hopen w₂) fun out w₃ hrun => ?_
    have hout : ∀ bs, (Event.write out bs).Within dest entries := by
      intro bs
      rcases openWriter_target hrun with rfl | rfl
      · trivial
      · exact ⟨howned.inside, howned⟩
    refine Run.Steps.bind (.attempt (adds_extractBlocks hout _ _)) (fun r => ?_) w₃
    cases r with
    | error e =>
        refine .bind ?_ fun _ => .throw _
        exact .ite (.pure _) (Adds.note ⟨howned.inside, howned⟩)
    | ok u =>
        refine .ite (.pure _) ?_
        split
        · exact within_setFileTime howned _
        · exact .pure _

/-! ## the sink -/

/-- The files of a sink are those of entries. -/
def SolidSink.Owns (dest : Path) (entries : List EggFileEntry) (s : SolidSink) : Prop :=
  (∀ p ∈ s.created, Owned dest entries p) ∧ ∀ p, s.writer = some (.file p) → Owned dest entries p

/-- A step of a sink that owns its files. -/
def WithinStep (dest : Path) (entries : List EggFileEntry) (x y : SolidSink × World) : Prop :=
  x.1.Owns dest entries → y.1.Owns dest entries ∧ Adds (Event.Within dest entries) x.2 y.2

instance : Std.Refl (WithinStep dest entries) := ⟨fun x h => ⟨h, Std.Refl.refl x.2⟩⟩

instance : IsTrans (SolidSink × World) (WithinStep dest entries) where
  trans := by
    intro x y z hxy hyz hx
    obtain ⟨hy, hadds⟩ := hxy hx
    obtain ⟨hz, hadds'⟩ := hyz hy
    exact ⟨hz, IsTrans.trans _ _ _ hadds hadds'⟩

/-- A call to the outside leaves the sink's fields alone. -/
theorem within_call {α : Type} {m : Run World IoError α}
    (hm : Run.Steps (Adds (Event.Within dest entries)) m) :
    Run.Steps (WithinStep dest entries) (SolidSink.call m) := fun x hx => ⟨hx, hm x.2⟩

/-- The sink opens files of entries only. -/
theorem within_openOutput {cfg : SinkConfig} (hdest : cfg.destDir = dest) (hmem : entry ∈ entries) :
    Run.Steps (WithinStep dest entries) (SolidSink.openOutput os cfg entry) := by
  refine .ite ?_ fun x => ?_
  · refine .bind (within_call (Adds.note trivial)) fun _ x hx => ⟨⟨hx.1, ?_⟩, Std.Refl.refl x.2⟩
    intro p hp
    simp at hp
  · refine Run.step_bind (Run.Steps.ofExcept _ x) fun path x₁ hjoin => ?_
    have howned : Owned dest entries path := by
      have hjoin := (Run.ofExcept_ok.mp hjoin).1
      cases hs : safeJoin cfg.destDir entry.fileName with
      | error e => simp [hs, Except.mapError] at hjoin
      | ok q =>
          simp only [hs, Except.mapError, Except.ok.injEq] at hjoin
          rw [hdest, hjoin] at hs
          exact owned_of_safeJoin hmem hs
    refine Run.Steps.bind (within_call (Adds.createParent fun _ ok hq => howned.createParent hq ok))
      (fun _ => ?_) x₁
    refine .bind (within_call (Adds.createFile fun _ => ⟨howned.inside, howned⟩)) fun _ y hy => ?_
    refine ⟨⟨?_, ?_⟩, Std.Refl.refl y.2⟩
    · intro p hp
      rcases List.mem_append.mp hp with hp | hp
      · exact hy.1 p hp
      · rw [List.mem_singleton.mp hp]
        exact howned
    · intro p hp
      simp only [SolidSink.modify_run, Option.some.injEq, Target.file.injEq] at hp
      rw [← hp]
      exact howned

/-- So every method of it stays within. -/
theorem within_methods {cfg : SinkConfig} (hdest : cfg.destDir = dest)
    (hentries : cfg.entries = entries) : SolidSink.MethodRule os cfg (WithinStep dest entries) where
  refl := fun x => Std.Refl.refl x
  trans := fun x y z => IsTrans.trans x y z
  update := by
    intro s s' w hcreated hwriter hs
    refine ⟨⟨?_, ?_⟩, Std.Refl.refl w⟩
    · rw [hcreated]
      exact hs.1
    · intro p hp
      rcases hwriter with h | h
      · exact hs.2 p (h ▸ hp)
      · simp [h] at hp
  openOutput := fun entry hmem => within_openOutput hdest (hentries ▸ hmem)
  writeTo := by
    intro s w bs hs
    refine ⟨hs, ?_⟩
    cases ht : s.writer with
    | none => exact Std.Refl.refl w
    | some t =>
        have hout : ∀ bs, (Event.write t bs).Within dest entries := by
          intro bs
          cases t with
          | stdout => trivial
          | file p => exact ⟨(hs.2 p ht).inside, hs.2 p ht⟩
        exact ByteSink.steps_writeAll (Adds.write hout) bs w
  flush := fun s t w _ hs => ⟨hs, Adds.flush t w⟩

/-! ## a solid archive -/

/-- The world behind a stream is that of its run. -/
theorem withSink_world (m : Run (SolidSink × World) EggError Unit) (w : World) :
    ((withSink m).run w).2 = (m.run (.new, w)).2.2 := by
  simp only [withSink, Run.attempt]
  rcases m.run (.new, w) with ⟨_ | e | _ | _, s, w'⟩ <;> rfl

/-- The sink behind a stream is that of its run. -/
theorem withSink_sink {m : Run (SolidSink × World) EggError Unit} {w w' : World}
    {r : Except EggError Unit} {s : SolidSink} (h : (withSink m).run w = (.ok (r, s), w')) :
    s = (m.run (.new, w)).2.1 := by
  simp only [withSink, Run.attempt] at h
  rcases hm : m.run (.new, w) with ⟨_ | e | _ | _, s', w₁⟩
  all_goals simp only [hm, Prod.mk.injEq, Outcome.ok.injEq, reduceCtorEq, false_and] at h
  · exact h.1.2.symm
  · exact h.1.2.symm

/-- The solid stream stays within. -/
theorem within_extractStream (spans : Spans) :
    Run.Steps (Adds (Event.Within dest entries))
      (extractStream crates os archive entries dest password pipeMode filter spans) := by
  refine .bind (adds_onReader _) fun stream w => ?_
  have hrule : SolidSink.MethodRule os
      { fileSpans := spans.fileSpans, crcSpans := spans.crcSpans, entries, destDir := dest,
        filter, pipeMode }
      (WithinStep dest entries) := within_methods rfl rfl
  have hsteps := hrule.decompressInto (decompressSolid crates (solidMethod entries) stream.length
    ((spans.crcSpans.map Prod.fst).sum % 2 ^ 64)) stream (.new, w)
    ⟨by simp [SolidSink.new], by simp [SolidSink.new]⟩
  refine Run.step_bind ?_ fun r w₁ hrun => ?_
  · rw [withSink_world]
    exact hsteps.2
  · obtain ⟨r, s⟩ := r
    cases r with
    | ok u => exact Std.Refl.refl w₁
    | error e =>
        have howns : s.Owns dest entries := by
          rw [withSink_sink hrun]
          exact hsteps.1
        refine Run.Steps.bind (.ite (.pure _) (.forEach fun p hp => ?_)) (fun _ => .throw _) w₁
        exact Adds.note ⟨(howns.1 p hp).inside, howns.1 p hp⟩

/-- The extraction of a solid archive stays within. -/
theorem within_extractAllSolid :
    Run.Steps (Adds (Event.Within dest entries))
      (extractAllSolid crates os archive entries dest password pipeMode filter) := by
  have hjoin : ∀ {α : Type} (entry : EggFileEntry) (k : Path → Extract α), entry ∈ entries →
      (∀ p, Owned dest entries p → Run.Steps (Adds (Event.Within dest entries)) (k p)) →
      Run.Steps (Adds (Event.Within dest entries))
        (Run.ofExcept (safeJoin dest entry.fileName) >>= k) := by
    intro α entry k hmem hk w
    refine Run.step_bind (Run.Steps.ofExcept _ w) fun p w₁ hrun => hk p ?_ w₁
    exact owned_of_safeJoin hmem (Run.ofExcept_ok.mp hrun).1
  have hscan : ∀ (es : List (EggFileEntry × Nat)) (spans : Spans), (∀ p ∈ es, p.1 ∈ entries) →
      Run.Steps (Adds (Event.Within dest entries)) (scanEntries os dest pipeMode filter es spans) := by
    intro es
    induction es with
    | nil => exact fun _ _ => .pure _
    | cons p es ih =>
        intro spans hes
        rw [List.forall_mem_cons] at hes
        refine .bind (.ite (.bind (.ite ?_ (.pure _)) fun _ => .pure _) ?_) fun spans => ih spans hes.2
        · exact hjoin p.1 _ hes.1 fun _ howned => within_createDirAll howned
        · exact hjoin p.1 _ hes.1 fun _ _ => .pure _
  refine .bind (hscan _ _ fun p hp => List.fst_mem_of_mem_zipIdx hp) fun spans => .bind ?_ fun _ => ?_
  · refine .ite (within_extractStream spans) (.ite (.pure _) (.ite (.throw _) ?_))
    refine .forEach fun span _ => ?_
    unfold createEmpty
    split
    · exact .panic
    · next entry hentry =>
        exact .ite (.pure _) (hjoin entry _ (List.mem_of_getElem? hentry) fun _ howned =>
          within_createFile howned)
  · refine .ite (.pure _) (.forEach fun entry hmem => .ite (.pure _) ?_)
    split
    · exact .pure _
    · exact hjoin entry _ hmem fun _ howned => within_setFileTime howned _

/-- **Containment**: whatever an extraction does, it does below the
destination, at the path of an entry with a safe name. -/
theorem extraction_contained (crates : Crates) (os : Os) (archive : EggArchive) (dest : Path)
    (password : Option String) (pipeMode : Bool) :
    (∀ e ∈ ((extractAll crates os archive dest password pipeMode).run []).2,
        e.Within dest archive.entries) ∧
      ∀ files, ∀ e ∈ ((extractFiles crates os archive dest password pipeMode files).run []).2,
        e.Within dest archive.entries := by
  have hevents : ∀ {α : Type} {m : Extract α}, Run.Steps (Adds (Event.Within dest archive.entries)) m →
      ∀ e ∈ (m.run []).2, e.Within dest archive.entries := by
    intro α m hm e he
    obtain ⟨es, hes, hwithin⟩ := hm []
    rw [hes, List.nil_append] at he
    exact hwithin e he
  refine ⟨hevents ?_, fun files => hevents ?_⟩
  · exact .ite within_extractAllSolid (.forEach fun entry hmem => within_extractEntry hmem)
  · refine .bind (.ite within_extractAllSolid (.forEach fun entry hmem => ?_)) fun _ => ?_
    · exact .ite (within_extractEntry hmem) (.pure _)
    · split
      · exact .throw _
      · exact .pure _

end Unegg
