import Mathlib

/-!
# Unegg.Intervals

Lists of things that occupy an interval of the natural numbers each, laid out
one after the other with at least one number between the end of one and the
start of the next.
-/

namespace Intervals

variable {α : Type} (start stop : α → Nat)

/-- The intervals of `xs` lie between `lo` and `hi`, in order, each starting
after everything before it. -/
def Laid : Nat → List α → Nat → Prop
  | lo, [], hi => lo ≤ hi
  | lo, x :: xs, hi => lo < start x ∧ start x ≤ stop x ∧ Laid (stop x) xs hi

variable {start stop} {lo mid hi : Nat} {xs ys : List α}

theorem Laid.le (h : Laid start stop lo xs hi) : lo ≤ hi := by
  induction xs generalizing lo with
  | nil => exact h
  | cons x xs ih =>
      obtain ⟨hlo, hx, hxs⟩ := h
      have := ih hxs
      omega

/-- A wider frame holds the same layout. -/
theorem Laid.mono {lo' hi' : Nat} (h : Laid start stop lo xs hi) (hlo : lo' ≤ lo)
    (hhi : hi ≤ hi') : Laid start stop lo' xs hi' := by
  induction xs generalizing lo lo' with
  | nil =>
      have : lo ≤ hi := h
      exact show lo' ≤ hi' by omega
  | cons x xs ih =>
      obtain ⟨hx, hle, hxs⟩ := h
      exact ⟨by omega, hle, ih hxs le_rfl⟩

/-- Two layouts that meet make one. -/
theorem Laid.append (hx : Laid start stop lo xs mid) (hy : Laid start stop mid ys hi) :
    Laid start stop lo (xs ++ ys) hi := by
  induction xs generalizing lo with
  | nil => exact hy.mono hx le_rfl
  | cons x xs ih =>
      obtain ⟨hlt, hle, hxs⟩ := hx
      exact ⟨hlt, hle, ih hxs⟩

theorem Laid.start_gt (h : Laid start stop lo xs hi) : ∀ x ∈ xs, lo < start x := by
  induction xs generalizing lo with
  | nil => simp
  | cons x xs ih =>
      obtain ⟨hlt, hle, hxs⟩ := h
      intro y hy
      rcases List.mem_cons.mp hy with rfl | hy
      · exact hlt
      · have := ih hxs y hy
        omega

theorem Laid.stop_le (h : Laid start stop lo xs hi) : ∀ x ∈ xs, stop x ≤ hi := by
  induction xs generalizing lo with
  | nil => simp
  | cons x xs ih =>
      obtain ⟨hlt, hle, hxs⟩ := h
      intro y hy
      rcases List.mem_cons.mp hy with rfl | hy
      · exact hxs.le
      · exact ih hxs y hy

/-- Every interval starts after the end of each earlier one. -/
theorem Laid.pairwise (h : Laid start stop lo xs hi) :
    xs.Pairwise fun x y => stop x < start y := by
  induction xs generalizing lo with
  | nil => exact .nil
  | cons x xs ih =>
      obtain ⟨hlt, hle, hxs⟩ := h
      exact List.pairwise_cons.mpr ⟨hxs.start_gt, ih hxs⟩

/-- The lengths add up to no more than the frame. -/
theorem Laid.sum_le (h : Laid start stop lo xs hi) :
    (xs.map fun x => stop x - start x).sum ≤ hi - lo := by
  induction xs generalizing lo with
  | nil => simp
  | cons x xs ih =>
      obtain ⟨hlt, hle, hxs⟩ := h
      have := ih hxs
      have := hxs.le
      simp only [List.map_cons, List.sum_cons]
      omega

end Intervals
