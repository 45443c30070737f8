import Unegg.Effects

/-!
# Unegg.Effects.Left

What a run leaves behind.

`Leaves ok w₀ w` says that every file which was created since `w₀` and is still
there has a content that `ok` allows.  Quiet events keep it, outputs that are
allowed keep it (`Leaves.wrote`), and so does a run that removes whatever it
has touched (`CleansUp`).
-/

namespace Unegg

open Prog

variable {w₀ w v w' : World} {ok : Path → List UInt8 → Prop} {p : Path}

/-- The file that an event opens, writes to or removes. -/
def Event.changes : Event → Option Path
  | create p true | write (.file p) _ | remove p => some p
  | _ => none

theorem Event.changes_of_isQuiet {e : Event} (h : e.isQuiet) : e.changes = none := by
  cases e with
  | create p ok => cases ok <;> simp_all [isQuiet, changes]
  | _ => simp_all [isQuiet, changes]

/-- What does not change a file leaves it as it is. -/
theorem files_frame (h : Adds (fun e => e.changes ≠ some p) w w') : files w' p = files w p := by
  obtain ⟨es, rfl, hes⟩ := h
  induction es using List.reverseRecOn with
  | nil => rw [List.append_nil]
  | append_singleton es e ih =>
      rw [List.forall_mem_append, List.forall_mem_singleton] at hes
      have hstep : files (w ++ (es ++ [e])) = files.step (files (w ++ es)) e := by
        simp [files]
      rw [hstep, ← ih hes.1]
      have hne := hes.2
      cases e with
      | create q ok =>
          cases ok with
          | false => rfl
          | true =>
              have hpq : p ≠ q := fun heq => hne (heq ▸ rfl)
              exact Function.update_of_ne hpq _ _
      | write t bs =>
          cases t with
          | stdout => rfl
          | file q =>
              have hpq : p ≠ q := fun heq => hne (heq ▸ rfl)
              exact Function.update_of_ne hpq _ _
      | remove q =>
          have hpq : p ≠ q := fun heq => hne (heq ▸ rfl)
          exact Function.update_of_ne hpq _ _
      | createDirAll q ok => rfl
      | stdout => rfl
      | setTime q s n => rfl

theorem files_removes (w : World) (ps : List Path) (p : Path) :
    files (w ++ ps.map Event.remove) p = if p ∈ ps then none else files w p := by
  induction ps using List.reverseRecOn with
  | nil => simp
  | append_singleton ps q ih =>
      rw [List.map_append, List.map_singleton, ← List.append_assoc, files_remove, ih]
      by_cases hq : p = q <;> simp [hq]

/-! ## files that are allowed -/

/-- Since `w₀` the events created `p`. -/
def Created (w₀ w : World) (p : Path) : Prop := ∃ es, w = w₀ ++ es ∧ .create p true ∈ es

/-- What was created and is still there is allowed. -/
structure Leaves (ok : Path → List UInt8 → Prop) (w₀ w : World) : Prop where
  goesOn : ∃ es, w = w₀ ++ es
  allowed : ∀ p c, Created w₀ w p → files w p = some c → ok p c

theorem Leaves.start : Leaves ok w w where
  goesOn := ⟨[], (List.append_nil w).symm⟩
  allowed := by
    rintro p c ⟨es, hes, hmem⟩ -
    rw [List.self_eq_append_right.mp hes] at hmem
    simp at hmem

theorem created_append {es : List Event} (h : ∃ es, w = w₀ ++ es) :
    Created w₀ (w ++ es) p ↔ Created w₀ w p ∨ .create p true ∈ es := by
  obtain ⟨es₀, rfl⟩ := h
  constructor
  · rintro ⟨es', heq, hmem⟩
    rw [List.append_assoc, List.append_cancel_left_eq] at heq
    rw [← heq] at hmem
    obtain hmem | hmem := List.mem_append.mp hmem
    · exact .inl ⟨es₀, rfl, hmem⟩
    · exact .inr hmem
  · rintro (⟨es', heq, hmem⟩ | hmem)
    · rw [List.append_cancel_left_eq] at heq
      subst heq
      exact ⟨es₀ ++ es, List.append_assoc _ _ _, List.mem_append_left _ hmem⟩
    · exact ⟨es₀ ++ es, List.append_assoc _ _ _, List.mem_append_right _ hmem⟩

/-- New files that are allowed, and the others as they were or gone. -/
theorem Leaves.goOn {es : List Event} (h : Leaves ok w₀ w)
    (hnew : ∀ p c, .create p true ∈ es → files (w ++ es) p = some c → ok p c)
    (hold : ∀ p, .create p true ∉ es →
      files (w ++ es) p = files w p ∨ files (w ++ es) p = none) : Leaves ok w₀ (w ++ es) where
  goesOn := by
    obtain ⟨es₀, rfl⟩ := h.goesOn
    exact ⟨es₀ ++ es, List.append_assoc _ _ _⟩
  allowed := by
    intro p c hcreated hc
    by_cases hmem : .create p true ∈ es
    · exact hnew p c hmem hc
    · rw [created_append h.goesOn] at hcreated
      have hbefore := hcreated.resolve_right hmem
      obtain hsame | hgone := hold p hmem
      · exact h.allowed p c hbefore (hsame ▸ hc)
      · rw [hgone] at hc
        cases hc

theorem Leaves.quiet (h : Leaves ok w₀ w) (hadds : Adds (fun e => e.isQuiet) w w') :
    Leaves ok w₀ w' := by
  obtain ⟨es, rfl, hes⟩ := hadds
  refine h.goOn (fun p c hmem _ => absurd (hes _ hmem) (by simp [Event.isQuiet])) fun p _ => .inl ?_
  refine files_frame ⟨es, rfl, fun e he => ?_⟩
  have hnone : e.changes = none := Event.changes_of_isQuiet (hes e he)
  simp [hnone]

/-- The files that were created are the outputs. -/
theorem Wrote.created {outs : List (Target × List UInt8)} (h : Wrote w w' outs) :
    ∃ es, w' = w ++ es ∧ ∀ p, .create p true ∈ es ↔ (contentOf outs p).isSome := by
  have hgrow : ∀ {v : World} {es : List Event} {e : Event}, v = w ++ es →
      v ++ [e] = w ++ (es ++ [e]) := by
    rintro v es e rfl
    exact List.append_assoc _ _ _
  induction h with
  | start => exact ⟨[], (List.append_nil w).symm, by simp⟩
  | quiet _ he ih =>
      obtain ⟨es, hes, hcreated⟩ := ih
      refine ⟨_, hgrow hes, fun p => ?_⟩
      rw [← hcreated, List.mem_append, List.mem_singleton, or_iff_left]
      rintro rfl
      simp [Event.isQuiet] at he
  | create q _ ih =>
      obtain ⟨es, hes, hcreated⟩ := ih
      refine ⟨_, hgrow hes, fun p => ?_⟩
      rw [contentOf_concat, List.mem_append, List.mem_singleton, hcreated]
      by_cases hq : q = p
      · simp [hq]
      · simp [hq, Ne.symm hq]
  | stdout _ ih =>
      obtain ⟨es, hes, hcreated⟩ := ih
      refine ⟨_, hgrow hes, fun p => ?_⟩
      rw [contentOf_concat, List.mem_append, List.mem_singleton, hcreated]
      simp
  | write bs _ ih =>
      obtain ⟨es, hes, hcreated⟩ := ih
      refine ⟨_, hgrow hes, fun p => ?_⟩
      rw [List.mem_append, List.mem_singleton, hcreated, contentOf_concat, contentOf_concat]
      split <;> simp

/-- Outputs that are allowed. -/
theorem Leaves.wrote {outs : List (Target × List UInt8)} (h : Leaves ok w₀ w)
    (hwrote : Wrote w w' outs) (houts : ∀ p c, (.file p, c) ∈ outs → ok p c) : Leaves ok w₀ w' := by
  obtain ⟨es, rfl, hcreated⟩ := hwrote.created
  refine h.goOn (fun p c hmem hc => ?_) fun p hp => ?_
  · obtain ⟨c', hc'⟩ := Option.isSome_iff_exists.mp ((hcreated p).mp hmem)
    rw [hwrote.files, hc'] at hc
    obtain rfl := Option.some.inj hc
    exact houts p c' (mem_of_contentOf hc')
  · rw [hcreated, Option.not_isSome_iff_eq_none] at hp
    rw [hwrote.files, hp]
    exact .inl rfl

/-! ## runs that clean up -/

/-- Only some files have been touched, and these have been removed. -/
def CleansUp (w w' : World) : Prop :=
  ∃ (ps : List Path) (v : World), Adds (fun e => ∀ p, e.changes = some p → p ∈ ps) w v ∧
    w' = v ++ ps.map Event.remove

theorem CleansUp.quiet (h : Adds (fun e => e.isQuiet) w w') : CleansUp w w' := by
  refine ⟨[], w', h.mono fun e he p hp => ?_, (List.append_nil w').symm⟩
  rw [Event.changes_of_isQuiet he] at hp
  cases hp

theorem CleansUp.after {w₁ : World} (h : CleansUp w₁ w') (hquiet : Adds (fun e => e.isQuiet) w w₁) :
    CleansUp w w' := by
  obtain ⟨ps, v, hadds, rfl⟩ := h
  refine ⟨ps, v, IsTrans.trans _ _ _ (hquiet.mono fun e he p hp => ?_) hadds, rfl⟩
  rw [Event.changes_of_isQuiet he] at hp
  cases hp

/-- What was created is gone, the rest as it was or gone. -/
theorem CleansUp.gone (h : CleansUp w w') : ∃ es, w' = w ++ es ∧ ∀ p,
    (.create p true ∈ es → files w' p = none) ∧ (files w' p = files w p ∨ files w' p = none) := by
  obtain ⟨ps, v, hadds, rfl⟩ := h
  have hframe : ∀ p, p ∉ ps → files v p = files w p := fun p hp =>
    files_frame (hadds.mono fun e he heq => hp (he p heq))
  obtain ⟨es, rfl, hes⟩ := hadds
  refine ⟨es ++ ps.map Event.remove, List.append_assoc _ _ _, fun p => ?_⟩
  rw [files_removes]
  by_cases hp : p ∈ ps
  · simp [hp]
  · refine ⟨fun hmem => ?_, .inl (by rw [if_neg hp, hframe p hp])⟩
    obtain hmem | hmem := List.mem_append.mp hmem
    · exact absurd (hes _ hmem p rfl) hp
    · simp at hmem

theorem Leaves.cleanUp (h : Leaves ok w₀ w) (hclean : CleansUp w w') : Leaves ok w₀ w' := by
  obtain ⟨es, rfl, hgone⟩ := hclean.gone
  refine h.goOn (fun p c hmem hc => ?_) fun p _ => (hgone p).2
  rw [(hgone p).1 hmem] at hc
  cases hc

end Unegg
