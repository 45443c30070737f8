import Unegg.Archive

/-!
# Unegg.Archive.Relative

The resolution of relative paths as a map over the entries.

Where no two entries share an id, an id stands for an entry and not for a place
in the list.  Each entry then gets its name from its parent as it was parsed
(`resolveRelativePaths_eq_map`), and the order of the entries does not matter
(`resolveRelativePaths_perm`).
-/

namespace Unegg

variable {entries : List EggFileEntry} {e p : EggFileEntry} {i j : Nat} {id : UInt32}

/-- No two entries share an id. -/
def DistinctIds (entries : List EggFileEntry) : Prop := (entries.map (·.fileId)).Nodup

instance (entries : List EggFileEntry) : Decidable (DistinctIds entries) :=
  inferInstanceAs (Decidable (List.Nodup _))

/-- An id belongs to one entry. -/
theorem DistinctIds.eq_of_fileId (h : DistinctIds entries) (he : e ∈ entries) (hp : p ∈ entries)
    (hid : e.fileId = p.fileId) : e = p := List.inj_on_of_nodup_map h he hp hid

/-- An id leads to one place. -/
theorem DistinctIds.index (h : DistinctIds entries) (hi : entries[i]? = some e)
    (hj : entries[j]? = some p) (hid : e.fileId = p.fileId) : i = j := by
  obtain ⟨hilt, hi⟩ := List.getElem?_eq_some_iff.mp hi
  obtain ⟨hjlt, hj⟩ := List.getElem?_eq_some_iff.mp hj
  have hinj := @List.Nodup.getElem_inj_iff _ _ h i (by rwa [List.length_map]) j
    (by rwa [List.length_map])
  rw [List.getElem_map, List.getElem_map, hi, hj] at hinj
  exact hinj.mp hid

/-! ## ids -/

/-- The index of an id leads to an entry that carries it. -/
theorem indexById_some (h : indexById entries id = some j) :
    ∃ p, entries[j]? = some p ∧ p.fileId = id := by
  rw [indexById, Option.map_eq_some_iff] at h
  obtain ⟨⟨p, i⟩, hlast, rfl⟩ := h
  have hmem := List.mem_filter.mp (List.mem_of_getLast? hlast)
  exact ⟨p, List.mem_zipIdx_iff_getElem?.mp hmem.1, by simpa using hmem.2⟩

/-- An id without an index is carried by no entry. -/
theorem indexById_none (h : indexById entries id = none) (hp : p ∈ entries) : p.fileId ≠ id := by
  rw [indexById, Option.map_eq_none_iff, List.getLast?_eq_none_iff, List.filter_eq_nil_iff] at h
  obtain ⟨i, hi⟩ := List.mem_iff_getElem?.mp hp
  simpa using h (p, i) (List.mem_zipIdx_iff_getElem?.mpr hi)

/-- The entry that an entry names as its parent. -/
def parentOf (entries : List EggFileEntry) (e : EggFileEntry) : Option EggFileEntry :=
  entries.find? fun p => e.parentId = some p.fileId

/-- The parent is the entry with the id that is referred to. -/
theorem parentOf_some (h : DistinctIds entries) :
    parentOf entries e = some p ↔ p ∈ entries ∧ e.parentId = some p.fileId := by
  constructor
  · intro hfind
    exact ⟨List.mem_of_find?_eq_some hfind, by simpa using List.find?_some hfind⟩
  · rintro ⟨hp, hid⟩
    obtain ⟨q, hq⟩ : ∃ q, parentOf entries e = some q := by
      rw [← Option.isSome_iff_exists, parentOf, List.find?_isSome]
      exact ⟨p, hp, by simpa using hid⟩
    have hqid : e.parentId = some q.fileId := by simpa using List.find?_some hq
    rw [hid, Option.some.injEq] at hqid
    rw [hq, h.eq_of_fileId hp (List.mem_of_find?_eq_some hq) hqid]

/-- A parent that is another entry and has a name besides slashes. -/
structure UsableParent (entries : List EggFileEntry) (e p : EggFileEntry) : Prop where
  mem : p ∈ entries
  parentId : e.parentId = some p.fileId
  other : p ≠ e
  named : trimEndSlashes p.fileName ≠ ""

/-! ## names -/

/-- An entry below its parent. -/
def prefixed (entries : List EggFileEntry) (e : EggFileEntry) : EggFileEntry :=
  match parentOf entries e with
  | none => e
  | some p =>
    if p = e ∨ trimEndSlashes p.fileName = "" then e
    else { e with fileName := trimEndSlashes p.fileName ++ "/" ++ e.fileName }

/-- Behind a parent that may be used the name gets its path in front. -/
theorem prefixed_of_usable (h : DistinctIds entries) (hp : UsableParent entries e p) :
    prefixed entries e =
      { e with fileName := trimEndSlashes p.fileName ++ "/" ++ e.fileName } := by
  obtain ⟨hmem, hid, hne, hname⟩ := hp
  rw [prefixed, (parentOf_some h).mpr ⟨hmem, hid⟩]
  exact if_neg (by simp [hne, hname])

/-- Without a parent that may be used the entry stays as it is. -/
theorem prefixed_of_not_usable (h : DistinctIds entries) (hp : ∀ p, ¬ UsableParent entries e p) :
    prefixed entries e = e := by
  rw [prefixed]
  split
  · rfl
  · next p hparent =>
      obtain ⟨hmem, hid⟩ := (parentOf_some h).mp hparent
      refine if_pos ?_
      by_contra hnot
      rw [not_or] at hnot
      exact hp p ⟨hmem, hid, hnot.1, hnot.2⟩

/-- The place of an entry does not matter for its name. -/
theorem resolved_eq_prefixed (h : DistinctIds entries) (hi : entries[i]? = some e) :
    (match resolvedName entries e i with
      | some name => { e with fileName := name }
      | none => e) = prefixed entries e := by
  rw [resolvedName]
  cases hpid : e.parentId with
  | none =>
      rw [prefixed_of_not_usable h fun p hp => by simpa [hpid] using hp.parentId]
      rfl
  | some pid =>
      simp only [Option.bind_eq_bind, Option.bind_some]
      cases hindex : indexById entries pid with
      | none =>
          have hnone : ∀ p, ¬ UsableParent entries e p := fun p hp =>
            indexById_none hindex hp.mem (by simpa [hpid] using hp.parentId.symm)
          rw [prefixed_of_not_usable h hnone]
          rfl
      | some j =>
          obtain ⟨p, hj, rfl⟩ := indexById_some hindex
          have hp := List.mem_of_getElem? hj
          have hunique : ∀ q, UsableParent entries e q → q = p := fun q hq =>
            h.eq_of_fileId hq.mem hp (by simpa [hpid] using hq.parentId.symm)
          simp only [Option.bind_some, hj]
          by_cases hji : j = i
          · have hpe : p = e := by simpa [hji, hi] using hj.symm
            rw [if_pos hji, prefixed_of_not_usable h fun q hq => hq.other (hunique q hq ▸ hpe)]
          · rw [if_neg hji]
            by_cases hname : trimEndSlashes p.fileName = ""
            · rw [prefixed_of_not_usable h fun q hq => hq.named (hunique q hq ▸ hname), hname]
              rfl
            · have hne : p ≠ e := fun hpe => hji (h.index hj hi (by rw [hpe]))
              rw [prefixed_of_usable h ⟨hp, hpid, hne, hname⟩]
              simp [hname, hpid]

/-- **Resolution is a map over the entries.** -/
theorem resolveRelativePaths_eq_map (h : DistinctIds entries) :
    resolveRelativePaths entries = entries.map (prefixed entries) := by
  calc resolveRelativePaths entries
      = entries.zipIdx.map fun q => prefixed entries q.1 := List.map_congr_left fun q hq =>
        resolved_eq_prefixed h (List.mem_zipIdx_iff_getElem?.mp hq)
    _ = (entries.zipIdx.map Prod.fst).map (prefixed entries) := by rw [List.map_map]; rfl
    _ = entries.map (prefixed entries) := by rw [List.zipIdx_map_fst]

/-! ## the order of the entries -/

/-- The order of the entries does not matter for the parent of one. -/
theorem parentOf_perm {entries' : List EggFileEntry} (h : DistinctIds entries)
    (hperm : entries'.Perm entries) (e : EggFileEntry) :
    parentOf entries' e = parentOf entries e := by
  have h' : DistinctIds entries' := (hperm.map _).nodup_iff.mpr h
  ext p
  rw [parentOf_some h, parentOf_some h', hperm.mem_iff]

/-- So each entry is resolved alike in any order. -/
theorem resolveRelativePaths_perm {entries' : List EggFileEntry} (h : DistinctIds entries)
    (hperm : entries'.Perm entries) :
    resolveRelativePaths entries' = entries'.map (prefixed entries) := by
  have h' : DistinctIds entries' := (hperm.map _).nodup_iff.mpr h
  rw [resolveRelativePaths_eq_map h']
  refine List.map_congr_left fun e _ => ?_
  rw [prefixed, prefixed, parentOf_perm h hperm]

/-- No entry is added or lost. -/
@[simp] theorem length_resolveRelativePaths (entries : List EggFileEntry) :
    (resolveRelativePaths entries).length = entries.length := by
  simp [resolveRelativePaths]

/-- **Resolution commutes with every rearrangement**, and puts nothing but the
path of a usable parent in front of a name. -/
theorem resolveRelativePaths_local (h : DistinctIds entries) :
    (∀ σ : Equiv.Perm (Fin entries.length),
      resolveRelativePaths (List.ofFn fun i => entries.get (σ i)) =
        List.ofFn fun i =>
          (resolveRelativePaths entries).get ((σ i).cast (length_resolveRelativePaths _).symm)) ∧
      ∀ (i : Nat) (e : EggFileEntry), entries[i]? = some e →
        ∃ e', (resolveRelativePaths entries)[i]? = some e' ∧
        ((∃ p, UsableParent entries e p ∧
            e' = { e with fileName := trimEndSlashes p.fileName ++ "/" ++ e.fileName }) ∨
          (∀ p, ¬ UsableParent entries e p) ∧ e' = e) := by
  constructor
  · intro σ
    have hperm : (List.ofFn fun i => entries.get (σ i)).Perm entries := by
      have := Equiv.Perm.ofFn_comp_perm σ entries.get
      rwa [List.ofFn_get] at this
    rw [resolveRelativePaths_perm h hperm, List.map_ofFn]
    congr 1
    funext i
    simp only [Function.comp_apply, List.get_eq_getElem, Fin.val_cast,
      resolveRelativePaths_eq_map h, List.getElem_map]
  · intro i e hi
    refine ⟨prefixed entries e, ?_, ?_⟩
    · rw [resolveRelativePaths_eq_map h, List.getElem?_map, hi]
      rfl
    · by_cases hp : ∃ p, UsableParent entries e p
      · obtain ⟨p, hp⟩ := hp
        exact .inl ⟨p, hp, prefixed_of_usable h hp⟩
      · rw [not_exists] at hp
        exact .inr ⟨hp, prefixed_of_not_usable h hp⟩

/-- An entry before its parent, which names the entry as its own. -/
def mutualEntries : List EggFileEntry := [
  ⟨"b", 1, 0, [], none, none, 0, some 2⟩,
  ⟨"a/", 2, 0, [], none, none, 0, some 1⟩]

/-- Two entries that refer to each other, in both orders. -/
theorem mutualEntries_local :
    resolveRelativePaths mutualEntries = [
        ⟨"a/b", 1, 0, [], none, none, 0, some 2⟩,
        ⟨"b/a/", 2, 0, [], none, none, 0, some 1⟩] ∧
      resolveRelativePaths (List.ofFn fun i => mutualEntries.get (Fin.revPerm i)) = [
        ⟨"b/a/", 2, 0, [], none, none, 0, some 1⟩,
        ⟨"a/b", 1, 0, [], none, none, 0, some 2⟩] := by
  have hdistinct : DistinctIds mutualEntries := by decide
  refine ⟨by decide +kernel, ?_⟩
  rw [(resolveRelativePaths_local hdistinct).1 Fin.revPerm]
  decide +kernel

end Unegg
