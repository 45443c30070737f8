import Mathlib

/-!
# Tiling

A stream that is cut into pieces of given sizes while it arrives.

`Cut sizes pieces part` says where the cutting stands: `pieces` are the pieces
that are complete, `part` is what has come of the next one.  The stream so far
is `pieces.flatten ++ part`; it can grow (`Cut.grow`), and a part that has its
size becomes a piece (`Cut.close`).  A stream that is itself made of pieces of
these sizes is cut into exactly those (`Cut.eq_take`).
-/

namespace Tiling

variable {α : Type}

structure Cut (sizes : List Nat) (pieces : List (List α)) (part : List α) : Prop where
  whole : pieces.map List.length = sizes.take pieces.length
  part_le : ∀ n, sizes[pieces.length]? = some n → part.length ≤ n

/-- The next piece wants more. -/
def Wanting (sizes : List Nat) (pieces : List (List α)) (part : List α) : Prop :=
  ∀ n, sizes[pieces.length]? = some n → part.length < n

namespace Cut

variable {sizes : List Nat} {pieces ps : List (List α)} {part more : List α} {n : Nat}

/-- Nothing has come yet. -/
theorem start : Cut sizes [] ([] : List α) := ⟨rfl, fun _ _ => Nat.zero_le _⟩

theorem length_le (h : Cut sizes pieces part) : pieces.length ≤ sizes.length := by
  have := congrArg List.length h.whole
  rw [List.length_map, List.length_take] at this
  omega

/-- More of the next piece. -/
theorem grow (h : Cut sizes pieces part) (hn : sizes[pieces.length]? = some n)
    (hle : part.length + more.length ≤ n) : Cut sizes pieces (part ++ more) where
  whole := h.whole
  part_le := by
    intro m hm
    rw [hn, Option.some.injEq] at hm
    rw [List.length_append]
    omega

/-- A part of full size is a piece. -/
theorem close (h : Cut sizes pieces part) (hn : sizes[pieces.length]? = some part.length) :
    Cut sizes (pieces ++ [part]) ([] : List α) where
  whole := by
    rw [List.map_append, h.whole, List.length_append, List.length_singleton, List.take_add_one, hn]
    rfl
  part_le := fun _ _ => Nat.zero_le _

/-- All pieces are there. -/
theorem lengths (h : Cut sizes pieces part) (hall : pieces.length = sizes.length) :
    pieces.map List.length = sizes := by
  rw [h.whole, hall, List.take_length]

theorem length_flatten (h : Cut sizes pieces part) :
    pieces.flatten.length = (sizes.take pieces.length).sum := by
  rw [List.length_flatten, h.whole]

/-- The pieces are those the stream is made of. -/
theorem eq_take (h : Cut sizes pieces part) (hps : ps.map List.length = sizes)
    (hpre : pieces.flatten ++ part <+: ps.flatten) : pieces = ps.take pieces.length := by
  have hlen : pieces.map List.length = (ps.take pieces.length).map List.length := by
    rw [h.whole, ← hps, List.map_take]
  have htake : (ps.take pieces.length).flatten <+: ps.flatten := by
    refine ⟨(ps.drop pieces.length).flatten, ?_⟩
    rw [← List.flatten_append, List.take_append_drop]
  have hflat : pieces.flatten <+: ps.flatten := (List.prefix_append _ _).trans hpre
  have hsame : pieces.flatten.length = (ps.take pieces.length).flatten.length := by
    rw [List.length_flatten, List.length_flatten, hlen]
  have heq : pieces.flatten = (ps.take pieces.length).flatten :=
    (List.prefix_of_prefix_length_le hflat htake hsame.le).eq_of_length hsame
  exact List.eq_iff_flatten_eq.mpr ⟨heq, hlen⟩

/-- A stream that is not over leaves a piece to come. -/
theorem length_lt (h : Cut sizes pieces part) (hps : ps.map List.length = sizes)
    (hpre : pieces.flatten ++ part ++ more <+: ps.flatten) (hmore : more ≠ []) :
    pieces.length < sizes.length := by
  by_contra hge
  have hall : pieces.length = sizes.length := le_antisymm h.length_le (not_lt.mp hge)
  have hlen := hpre.length_le
  rw [List.length_append, List.length_append, List.length_flatten, List.length_flatten, hps,
    h.lengths hall] at hlen
  have := List.length_pos_of_ne_nil hmore
  omega

/-- A stream that is over, and whose next piece wants more, leaves none. -/
theorem length_eq (h : Cut sizes pieces part) (hps : ps.map List.length = sizes)
    (hflat : pieces.flatten ++ part = ps.flatten) (hwant : Wanting sizes pieces part) :
    pieces.length = sizes.length := by
  by_contra hne
  have hlt : pieces.length < sizes.length := lt_of_le_of_ne h.length_le hne
  have hpart := hwant _ (List.getElem?_eq_getElem hlt)
  have hle : (sizes.take (pieces.length + 1)).sum ≤ sizes.sum :=
    (List.take_sublist _ _).sum_le_sum fun _ _ => Nat.zero_le _
  have hlen := congrArg List.length hflat
  rw [List.length_append, h.length_flatten, List.length_flatten, hps] at hlen
  rw [List.take_add_one, List.getElem?_eq_getElem hlt, List.sum_append] at hle
  simp only [Option.toList_some, List.sum_singleton] at hle
  omega

/-- A stream that is over leaves no piece, when the last piece is not empty. -/
theorem length_eq_of_last (h : Cut sizes pieces part) (hps : ps.map List.length = sizes)
    (hflat : pieces.flatten = ps.flatten) (hlast : ∀ n ∈ sizes.getLast?, n ≠ 0) :
    pieces.length = sizes.length := by
  by_contra hne
  have hlt : pieces.length < sizes.length := lt_of_le_of_ne h.length_le hne
  have hdrop : sizes.drop pieces.length ≠ [] := by
    rw [Ne, List.drop_eq_nil_iff]
    omega
  have hsum : (sizes.drop pieces.length).sum = 0 := by
    have hlen := congrArg List.length hflat
    have hsplit := congrArg List.sum (List.take_append_drop pieces.length sizes)
    rw [h.length_flatten, List.length_flatten, hps] at hlen
    rw [List.sum_append] at hsplit
    omega
  have hmem := List.getLast_mem hdrop
  have hzero := List.sum_eq_zero_iff.mp hsum _ hmem
  refine hlast 0 ?_ rfl
  rw [Option.mem_def, List.getLast?_eq_getLast_of_ne_nil (List.ne_nil_of_length_pos (by omega)),
    ← List.getLast_drop hdrop, hzero]

/-- A stream that is over has no part left when all its pieces are there. -/
theorem part_nil (h : Cut sizes pieces part) (hps : ps.map List.length = sizes)
    (hflat : pieces.flatten ++ part = ps.flatten) (hall : pieces.length = sizes.length) :
    part = [] := by
  have hlen := congrArg List.length hflat
  rw [List.length_append, List.length_flatten, List.length_flatten, hps, h.lengths hall] at hlen
  exact List.length_eq_zero_iff.mp (by omega)

end Cut

/-- A list of pieces is what cutting their concatenation at their sizes gives. -/
theorem splitLengths_flatten (ps : List (List α)) :
    (ps.map List.length).splitLengths ps.flatten = ps := by
  induction ps with
  | nil => rfl
  | cons p ps ih => simp [ih]

end Tiling
