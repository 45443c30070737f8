import Unegg.Archive

/-!
# Unegg.Path

Paths as `std::path` sees them on Unix: lists of components, and the joining
of an entry's name onto the destination (`safe_join`).

A `PathBuf` is the list of its components.  Pushing a plain name appends one
component, and two paths are equal when their components are.
-/

namespace Unegg

/-- `std::path::Component`. -/
inductive Component where
  | winPrefix (s : String)
  | rootDir
  | curDir
  | parentDir
  | normal (s : String)
  deriving Repr, DecidableEq

abbrev Path := List Component

/-- The component of one part between slashes; a dot counts only at the start. -/
def Component.ofPart (first : Bool) (part : String) : Option Component :=
  if part = "" then none
  else if part = "." then if first then some .curDir else none
  else if part = ".." then some .parentDir
  else some (.normal part)

/-- `Path::new(name).components()`. -/
def components (name : String) : List Component :=
  let parts := (name.toList.splitOn '/').map String.ofList
  (if name.toList.head? = some '/' then [.rootDir] else []) ++
    parts.zipIdx.filterMap fun (part, i) => Component.ofPart (i = 0) part

/-- `Path::parent`. -/
def Path.parent (p : Path) : Option Path :=
  match p.getLast? with
  | some (.normal _) | some .curDir | some .parentDir => some p.dropLast
  | _ => none

/-- The loop of `safe_join` over the components of `name`. -/
def pushComponents (name : String) : Path → List Component → Except EggError Path
  | out, [] => .ok out
  | out, .normal c :: comps => pushComponents name (out ++ [.normal c]) comps
  | out, .curDir :: comps => pushComponents name out comps
  | _, .parentDir :: _ | _, .rootDir :: _ | _, .winPrefix _ :: _ => .error (.pathTraversal name)

/-- Join an entry's name onto `dest`, from its normal components only. -/
def safeJoin (dest : Path) (name : String) : Except EggError Path := do
  let out ← pushComponents name dest (components name)
  if out = dest then .error .corruptedFile else return out

/-! ## what a joined path is -/

def Component.isNormal : Component → Bool
  | normal _ => true
  | _ => false

@[simp] theorem Component.isNormal_normal (s : String) : (normal s).isNormal = true := rfl

@[simp] theorem Component.isNormal_curDir : curDir.isNormal = false := rfl

@[simp] theorem Component.isNormal_parentDir : parentDir.isNormal = false := rfl

@[simp] theorem Component.isNormal_rootDir : rootDir.isNormal = false := rfl

@[simp] theorem Component.isNormal_winPrefix (s : String) : (winPrefix s).isNormal = false := rfl

/-- A name that may be joined: nothing but normal components and a leading dot,
and a normal component at least. -/
def SafeName (name : String) : Prop :=
  (∀ c ∈ components name, c.isNormal ∨ c = .curDir) ∧ ∃ c ∈ components name, c.isNormal

instance (name : String) : Decidable (SafeName name) := inferInstanceAs (Decidable (_ ∧ _))

/-- The parts of a name are pushed if they are plain, and `.` is left out. -/
theorem pushComponents_ok {name : String} {comps : List Component} {out p : Path} :
    pushComponents name out comps = .ok p ↔
      (∀ c ∈ comps, c.isNormal ∨ c = .curDir) ∧ p = out ++ comps.filter Component.isNormal := by
  induction comps generalizing out with
  | nil =>
      have h : out = p ↔ p = out := eq_comm
      simpa [pushComponents] using h
  | cons c comps ih =>
      cases c with
      | normal s =>
          rw [pushComponents, ih, List.forall_mem_cons,
            List.filter_cons_of_pos (Component.isNormal_normal s), List.append_assoc]
          simp
      | curDir =>
          rw [pushComponents, ih, List.forall_mem_cons, List.filter_cons_of_neg (by decide)]
          simp
      | parentDir => simp [pushComponents]
      | rootDir => simp [pushComponents]
      | winPrefix s => simp [pushComponents]

/-- Joining succeeds exactly on safe names, and appends their normal components. -/
theorem safeJoin_ok {dest p : Path} {name : String} :
    safeJoin dest name = .ok p ↔
      SafeName name ∧ p = dest ++ (components name).filter Component.isNormal := by
  have hnil : (components name).filter Component.isNormal = [] ↔
      ¬ ∃ c ∈ components name, c.isNormal := by
    simp [List.filter_eq_nil_iff]
  rw [safeJoin, SafeName]
  cases hpush : pushComponents name dest (components name) with
  | error e =>
      have hne : ¬ ∀ c ∈ components name, c.isNormal ∨ c = .curDir := by
        intro h
        rw [pushComponents_ok.mpr ⟨h, rfl⟩] at hpush
        simp at hpush
      simp [bind, Except.bind, hne]
  | ok out =>
      obtain ⟨hall, rfl⟩ := pushComponents_ok.mp hpush
      by_cases hex : ∃ c ∈ components name, c.isNormal
      · have hne : dest ++ (components name).filter Component.isNormal ≠ dest := by
          intro heq
          exact hnil.mp (List.append_cancel_left (heq.trans (List.append_nil dest).symm)) hex
        simp only [bind, Except.bind, if_neg hne, pure, Except.pure, Except.ok.injEq]
        exact ⟨fun h => ⟨⟨hall, hex⟩, h.symm⟩, fun h => h.2.symm⟩
      · have heq : dest ++ (components name).filter Component.isNormal = dest := by
          rw [hnil.mpr hex, List.append_nil]
        simp only [bind, Except.bind, if_pos heq, reduceCtorEq, false_iff]
        exact fun h => hex h.1.2

/-- A safe name is joined to any destination. -/
theorem SafeName.joins {name : String} (h : SafeName name) (dest : Path) :
    ∃ p, safeJoin dest name = .ok p := ⟨_, safeJoin_ok.mpr ⟨h, rfl⟩⟩

/-- `dest` followed by at least one component, all of them normal. -/
def Inside (dest p : Path) : Prop := ∃ cs, cs ≠ [] ∧ (∀ c ∈ cs, c.isNormal) ∧ p = dest ++ cs

/-- A refusal names the whole name. -/
theorem pushComponents_error {name : String} {comps : List Component} {out : Path} {e : EggError}
    (h : pushComponents name out comps = .error e) : e = .pathTraversal name := by
  induction comps generalizing out with
  | nil => simp [pushComponents] at h
  | cons c comps ih =>
      cases c with
      | normal s => exact ih h
      | curDir => exact ih h
      | parentDir => exact (Except.error.inj h).symm
      | rootDir => exact (Except.error.inj h).symm
      | winPrefix s => exact (Except.error.inj h).symm

/-- A name that leads elsewhere, or nowhere. -/
theorem safeJoin_error {dest : Path} {name : String} {e : EggError}
    (h : safeJoin dest name = .error e) : e = .pathTraversal name ∨ e = .corruptedFile := by
  rw [safeJoin] at h
  cases hpush : pushComponents name dest (components name) with
  | error e' =>
      rw [hpush] at h
      rw [← Except.error.inj h]
      exact .inl (pushComponents_error hpush)
  | ok out =>
      rw [hpush] at h
      change (if out = dest then _ else _) = _ at h
      split at h
      · exact .inr (Except.error.inj h).symm
      · simp [pure, Except.pure] at h

/-- What is joined lies inside the destination. -/
theorem inside_of_safeJoin {dest p : Path} {name : String} (h : safeJoin dest name = .ok p) :
    Inside dest p := by
  obtain ⟨⟨-, c, hc, hnormal⟩, rfl⟩ := safeJoin_ok.mp h
  refine ⟨_, List.ne_nil_of_mem (List.mem_filter.mpr ⟨hc, hnormal⟩), fun d hd => ?_, rfl⟩
  exact (List.mem_filter.mp hd).2

/-- The parent of a path inside `dest` is `dest` or inside it. -/
theorem Inside.parent {dest p q : Path} (h : Inside dest p) (hq : p.parent = some q) :
    q = dest ∨ Inside dest q := by
  obtain ⟨cs, hne, hall, rfl⟩ := h
  have hdrop : q = dest ++ cs.dropLast := by
    rw [Path.parent] at hq
    split at hq <;> simp_all [List.dropLast_append_of_ne_nil]
  by_cases hnil : cs.dropLast = []
  · rw [hnil, List.append_nil] at hdrop
    exact .inl hdrop
  · exact .inr ⟨cs.dropLast, hnil, fun c hc => hall c (List.dropLast_subset _ hc), hdrop⟩

end Unegg
