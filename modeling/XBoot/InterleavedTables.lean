import XBoot.ListSlices
import Mathlib.Order.Monotone.Basic

/-!
# Tables with a marker after each group of entries

A table holds groups of `ratio` entries with a marker behind each group, and behind the
last marker at most one group without one. Entry number `k` lies at slot `k + k / ratio`:
the slots of the entries are all slots but those of the markers.
-/

namespace XBoot.InterleavedTables

open ListSlices

variable {α : Type} {ratio : ℕ}

structure Chunk (α : Type) (ratio : ℕ) where
  group : List α
  marker : α
  length_group : group.length = ratio

structure Table (α : Type) (ratio : ℕ) where
  chunks : List (Chunk α ratio)
  rest : List α
  rest_le : rest.length ≤ ratio

namespace Table

def slots (table : Table α ratio) : List α :=
  table.chunks.flatMap (fun chunk => chunk.group ++ [chunk.marker]) ++ table.rest

def entries (table : Table α ratio) : List α := table.chunks.flatMap Chunk.group ++ table.rest

end Table

def slotOf (ratio k : ℕ) : ℕ := k + k / ratio

/-- A marker lies behind `ratio` entries of its chunk. -/
def MarkerSlot (ratio slot : ℕ) : Prop := ∃ chunk, slot = (ratio + 1) * chunk + ratio

theorem slotOf_strictMono (ratio : ℕ) : StrictMono (slotOf ratio) :=
  fun _ _ h => Nat.add_lt_add_of_lt_of_le h (Nat.div_le_div_right (Nat.le_of_lt h))

theorem slotOf_group (chunk : ℕ) {i : ℕ} (hi : i < ratio) :
    slotOf ratio (ratio * chunk + i) = (ratio + 1) * chunk + i := by
  have hdiv : (ratio * chunk + i) / ratio = chunk := by
    rw [Nat.mul_add_div (by omega), Nat.div_eq_of_lt hi, Nat.add_zero]
  rw [slotOf, hdiv, Nat.add_mul, Nat.one_mul]
  omega

private theorem group_of (hratio : 0 < ratio) (k : ℕ) : ∃ chunk i, i < ratio ∧ k = ratio * chunk + i :=
  ⟨k / ratio, k % ratio, Nat.mod_lt k hratio, (Nat.div_add_mod k ratio).symm⟩

theorem slotOf_not_marker (hratio : 0 < ratio) (k : ℕ) : ¬ MarkerSlot ratio (slotOf ratio k) := by
  rintro ⟨chunk, hslot⟩
  obtain ⟨chunk', i, hi, rfl⟩ := group_of hratio k
  rw [slotOf_group chunk' hi] at hslot
  have hmod := congrArg (· % (ratio + 1)) hslot
  simp only [Nat.mul_add_mod, Nat.mod_eq_of_lt (show i < ratio + 1 by omega),
    Nat.mod_eq_of_lt (Nat.lt_succ_self ratio)] at hmod
  omega

theorem exists_slotOf {slot : ℕ} (h : ¬ MarkerSlot ratio slot) : ∃ k, slotOf ratio k = slot := by
  have hmod := Nat.mod_lt slot (Nat.add_one_pos ratio)
  have hdiv := Nat.div_add_mod slot (ratio + 1)
  have hi : slot % (ratio + 1) < ratio := by
    by_contra hge
    exact h ⟨slot / (ratio + 1), by omega⟩
  exact ⟨ratio * (slot / (ratio + 1)) + slot % (ratio + 1), (slotOf_group _ hi).trans hdiv⟩

namespace Table

private theorem length_chunk (chunk : Chunk α ratio) :
    (chunk.group ++ [chunk.marker]).length = ratio + 1 := by
  rw [List.length_append, chunk.length_group, List.length_singleton]

private theorem slots_chunk (table : Table α ratio) {c i : ℕ} (hc : c < table.chunks.length)
    (hi : i < ratio + 1) : table.slots[(ratio + 1) * c + i]? =
      (table.chunks[c].group ++ [table.chunks[c].marker])[i]? := by
  have hcut := slice_flatMap length_chunk table.chunks hc
  have hlen := length_flatMap_of_length length_chunk table.chunks
  have hmul := Nat.mul_le_mul_left (ratio + 1) (Nat.succ_le_of_lt hc)
  rw [Nat.mul_succ] at hmul
  rw [slots, List.getElem?_append_left (by omega), ← hcut, getElem?_slice, if_pos hi]

private theorem entries_chunk (table : Table α ratio) {c i : ℕ} (hc : c < table.chunks.length)
    (hi : i < ratio) : table.entries[ratio * c + i]? = table.chunks[c].group[i]? := by
  have hcut := slice_flatMap Chunk.length_group table.chunks hc
  have hlen := length_flatMap_of_length Chunk.length_group table.chunks
  have hmul := Nat.mul_le_mul_left ratio (Nat.succ_le_of_lt hc)
  rw [Nat.mul_succ] at hmul
  rw [entries, List.getElem?_append_left (by omega), ← hcut, getElem?_slice, if_pos hi]

theorem slots_marker (table : Table α ratio) {c : ℕ} (hc : c < table.chunks.length) :
    table.slots[(ratio + 1) * c + ratio]? = some table.chunks[c].marker := by
  rw [table.slots_chunk hc (Nat.lt_succ_self ratio), List.getElem?_append_right (by rw [Chunk.length_group]),
    Chunk.length_group, Nat.sub_self]
  rfl

theorem slots_slotOf (hratio : 0 < ratio) (table : Table α ratio) (k : ℕ) :
    table.slots[slotOf ratio k]? = table.entries[k]? := by
  obtain ⟨c, i, hi, rfl⟩ := group_of hratio k
  rw [slotOf_group c hi]
  rcases Nat.lt_or_ge c table.chunks.length with hc | hc
  · rw [table.slots_chunk hc (by omega), table.entries_chunk hc hi,
      List.getElem?_append_left (by rw [Chunk.length_group]; exact hi)]
  · have hslots := length_flatMap_of_length length_chunk table.chunks
    have hentries := length_flatMap_of_length Chunk.length_group table.chunks
    obtain ⟨more, rfl⟩ := Nat.exists_eq_add_of_le hc
    rw [Nat.mul_add, Nat.mul_add]
    rw [slots, entries, List.getElem?_append_right (by omega), List.getElem?_append_right (by omega),
      hslots, hentries]
    have hrest := table.rest_le
    -- behind the last marker the slots are the entries, up to the end of the table
    cases more with
    | zero =>
      congr 1
      omega
    | succ more =>
      rw [Nat.mul_succ, Nat.mul_succ, List.getElem?_eq_none (by omega),
        List.getElem?_eq_none (by omega)]

end Table

end XBoot.InterleavedTables
