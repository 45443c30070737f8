import Unegg.Archive.Wire

/-!
# Unegg.Archive.Positions

Where the data of the blocks stands in the bytes of a described archive: at the
positions the entries that are read from it give (`ArchiveDesc.stored`).
-/

namespace Unegg

open Bytes

/-- `bs` stands at position `p` of `data`. -/
def StandsAt (data : List UInt8) (p : Nat) (bs : List UInt8) : Prop := bs <+: data.drop p

namespace StandsAt

variable {data xs ys : List UInt8} {p : Nat}

theorem left (h : StandsAt data p (xs ++ ys)) : StandsAt data p xs :=
  (List.prefix_append xs ys).trans h

theorem right (h : StandsAt data p (xs ++ ys)) : StandsAt data (p + xs.length) ys := by
  obtain ⟨r, hr⟩ := h
  refine ⟨r, ?_⟩
  rw [← List.drop_drop, ← hr, List.append_assoc, drop_append_of_length rfl]

theorem right_of_length {n : Nat} (h : StandsAt data p (xs ++ ys)) (hn : xs.length = n) :
    StandsAt data (p + n) ys := hn ▸ h.right

theorem take {n : Nat} (h : StandsAt data p xs) (hn : xs.length = n) :
    (data.drop p).take n = xs := by
  obtain ⟨r, hr⟩ := h
  rw [← hr, take_append_of_length hn]

end StandsAt

/-- The data of a block, as the extraction reads it. -/
def storedAt (data : List UInt8) (block : EggBlock) : List UInt8 :=
  (data.drop block.dataPos).take block.compressedSize.toNat

theorem BlockField.toNat_compressedSize (b : BlockField) (p : Nat) :
    (b.block p).compressedSize.toNat = b.data.length :=
  UInt32.toNat_ofNat_of_lt' b.fits

/-- The blocks that are read have the data of the blocks that were written. -/
theorem storedAt_blocksAt {data : List UInt8} {p : Nat} {bs : List BlockField}
    (h : StandsAt data p (bs.flatMap BlockField.bytes)) :
    (blocksAt p bs).map (storedAt data) = bs.map BlockField.data := by
  induction bs generalizing p with
  | nil => rfl
  | cons b bs ih =>
      rw [List.flatMap_cons] at h
      have hdata : StandsAt data (p + 22) b.data := h.left.right_of_length b.length_head
      rw [blocksAt, List.map_cons, List.map_cons, ih h.right, storedAt, b.toNat_compressedSize]
      exact congrArg (· :: _) (hdata.take rfl)

/-- The blocks of an entry that stands at `p`. -/
theorem EntryDesc.stored {data : List UInt8} {p : Nat} {e : EntryDesc}
    (h : StandsAt data p e.bytes) :
    (e.entry p).blocks.map (storedAt data) = e.blocks.map BlockField.data := by
  apply storedAt_blocksAt
  have h₁ : StandsAt data (p + 4) _ := h.right_of_length (length_le32 _)
  have h₂ : StandsAt data (p + 4 + 4) _ := h₁.right_of_length (length_le32 _)
  have h₃ : StandsAt data (p + 4 + 4 + 8) _ := h₂.right_of_length (length_le64 _)
  have h₄ := h₃.right.right_of_length (length_le32 _)
  have hpos : p + 4 + 4 + 8 + e.subBytes.length + 4 = p + (4 + (12 + (e.subBytes.length + 4))) := by
    omega
  rwa [hpos] at h₄

/-- The entry of a record. -/
def Record.entryDesc? : Record → Option EntryDesc
  | entry e _ => some e
  | comment _ | dummy _ => none

def entryDescs (rs : List PlacedRecord) : List EntryDesc := rs.filterMap (·.record.entryDesc?)

/-- An entry that was read, and the one that was written. -/
def ReadAs (data : List UInt8) (entry : EggFileEntry) (e : EntryDesc) : Prop :=
  ∃ p, entry = e.entry p ∧ entry.blocks.map (storedAt data) = e.blocks.map BlockField.data

theorem readAs_entriesAt {data : List UInt8} {p : Nat} {rs : List PlacedRecord}
    (h : StandsAt data p (rs.flatMap PlacedRecord.bytes)) :
    List.Forall₂ (ReadAs data) (entriesAt p rs) (entryDescs rs) := by
  induction rs generalizing p with
  | nil => exact .nil
  | cons r rs ih =>
      rw [List.flatMap_cons] at h
      have hrest := ih h.right
      have hrecord : StandsAt data (p + if r.boundary then 4 else 0) r.record.bytes := by
        refine h.left.right_of_length ?_
        cases r.boundary <;> simp
      rw [entriesAt, entryDescs, List.filterMap_cons]
      cases hr : r.record with
      | entry e ordered =>
          rw [hr] at hrecord
          exact .cons ⟨_, rfl, e.stored hrecord⟩ hrest
      | comment f => exact hrest
      | dummy f => exact hrest

/-- **Positions**: each entry of a described archive, with the data its blocks
point at. -/
theorem ArchiveDesc.stored (d : ArchiveDesc) :
    List.Forall₂ (ReadAs d.bytes) d.archive.entries (entryDescs d.records) := by
  apply readAs_entriesAt
  have h : StandsAt d.bytes 0 d.bytes := List.prefix_rfl
  have hrecords : StandsAt d.bytes (0 + d.prefixBytes.length) _ := h.right
  rw [Nat.zero_add] at hrecords
  exact hrecords.left

end Unegg
