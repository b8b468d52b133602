import XBoot.ListSlices
import Mathlib.Data.List.Forall2

/-!
# Lists as arrays of blocks

The whole blocks of a list, in their order; a tail that is shorter than a block is left out.
Reading a range of blocks cuts a slice out of the list, and overwriting a range of blocks
overwrites the list.
-/

namespace XBoot.BlockArrays

open ListSlices

variable {α : Type}

/-- The whole blocks of `size` elements. -/
def blocks (size : ℕ) (xs : List α) : List (List α) :=
  (List.range (xs.length / size)).map fun i => slice xs (i * size) size

@[simp] theorem length_blocks (size : ℕ) (xs : List α) :
    (blocks size xs).length = xs.length / size := by
  rw [blocks, List.length_map, List.length_range]

theorem getElem?_blocks (size : ℕ) (xs : List α) (i : ℕ) :
    (blocks size xs)[i]? = if i < xs.length / size then some (slice xs (i * size) size) else none := by
  rw [blocks, List.getElem?_map]
  by_cases h : i < xs.length / size
  · rw [if_pos h, List.getElem?_range h]
    rfl
  · rw [if_neg h, List.getElem?_eq_none (by rw [List.length_range]; exact Nat.not_lt.1 h)]
    rfl

theorem range_le {size n length : ℕ} (h : n ≤ length / size) : n * size ≤ length :=
  Nat.le_trans (Nat.mul_le_mul_right size h) (Nat.div_mul_le_self length size)

theorem length_of_mem_blocks {size : ℕ} {xs block : List α} (h : block ∈ blocks size xs) :
    block.length = size := by
  obtain ⟨i, hi, rfl⟩ := List.mem_map.1 h
  have hend : (i + 1) * size ≤ xs.length := range_le (List.mem_range.1 hi)
  rw [Nat.add_mul, Nat.one_mul] at hend
  exact length_slice hend

theorem blocks_append {size : ℕ} (hsize : 0 < size) {block : List α} (hblock : block.length = size)
    (xs : List α) : blocks size (block ++ xs) = block :: blocks size xs := by
  have hcount : (block ++ xs).length / size = xs.length / size + 1 := by
    rw [List.length_append, hblock, Nat.add_comm, Nat.add_div_right _ hsize]
  rw [blocks, hcount, List.range_succ_eq_map, List.map_cons, List.map_map, Nat.zero_mul,
    slice_append_left (by omega), ← hblock, slice_all, blocks]
  congr 1
  apply List.map_congr_left
  intro i _
  rw [Function.comp_apply, slice_append_right (by rw [Nat.succ_mul]; omega), Nat.succ_mul,
    Nat.add_sub_cancel]

theorem blocks_flatten {size : ℕ} (hsize : 0 < size) {bs : List (List α)}
    (h : ∀ block ∈ bs, block.length = size) : blocks size bs.flatten = bs := by
  induction bs with
  | nil => simp [blocks]
  | cons block bs ih =>
    obtain ⟨hblock, hrest⟩ := List.forall_mem_cons.1 h
    rw [List.flatten_cons, blocks_append hsize hblock, ih hrest]

theorem flatten_slice_blocks {size : ℕ} {xs : List α} {start n : ℕ}
    (h : start + n ≤ xs.length / size) :
    (slice (blocks size xs) start n).flatten = slice xs (start * size) (n * size) := by
  induction n with
  | zero => simp
  | succ n ih =>
    have hlast : slice (blocks size xs) (start + n) 1 = [slice xs ((start + n) * size) size] := by
      apply List.ext_getElem?
      intro i
      rw [getElem?_slice]
      cases i with
      | zero =>
        rw [if_pos Nat.zero_lt_one, Nat.add_zero, getElem?_blocks, if_pos (by omega)]
        rfl
      | succ i =>
        rw [if_neg (by omega)]
        rfl
    rw [← slice_append_slice, List.flatten_append, ih (by omega), hlast, List.flatten_singleton,
      Nat.add_mul, slice_append_slice, Nat.add_mul, Nat.one_mul]

theorem blocks_overwrite {size : ℕ} {xs data : List α} {start n : ℕ} (hsize : 0 < size)
    (hrange : start + n ≤ xs.length / size) (hdata : data.length = n * size) :
    blocks size (overwrite xs (start * size) data) =
      overwrite (blocks size xs) start (blocks size data) := by
  have hend := range_le hrange
  rw [Nat.add_mul] at hend
  have hfit : start * size + data.length ≤ xs.length := by omega
  have hn : data.length / size = n := by rw [hdata, Nat.mul_div_cancel n hsize]
  apply List.ext_getElem?
  intro i
  rw [getElem?_blocks, length_overwrite hfit, getElem?_overwrite (by simpa [hn] using hrange),
    length_blocks, hn]
  by_cases hi : i < xs.length / size
  · rw [if_pos hi]
    by_cases hin : start ≤ i ∧ i < start + n
    · have hlow : start * size ≤ i * size := Nat.mul_le_mul_right size hin.1
      have hhigh : (i + 1) * size ≤ (start + n) * size := Nat.mul_le_mul_right size hin.2
      rw [Nat.add_mul, Nat.add_mul, Nat.one_mul] at hhigh
      rw [if_pos hin, getElem?_blocks, hn, if_pos (by omega),
        slice_overwrite_of_subset hfit hlow (by omega), Nat.sub_mul]
    · rw [if_neg hin, getElem?_blocks, if_pos hi, slice_overwrite_of_disjoint hfit]
      by_cases hbefore : i < start
      · have hle : (i + 1) * size ≤ start * size := Nat.mul_le_mul_right size hbefore
        rw [Nat.add_mul, Nat.one_mul] at hle
        exact .inl hle
      · have hle : (start + n) * size ≤ i * size := Nat.mul_le_mul_right size (by omega)
        rw [Nat.add_mul] at hle
        exact .inr (by omega)
  · rw [if_neg hi, if_neg (by omega), getElem?_blocks, if_neg hi]

structure BlockDevice (α : Type) where
  blockSize : ℕ
  content : List (List α)
  sized : ∀ block ∈ content, block.length = blockSize

namespace BlockDevice

def ofList (size : ℕ) (xs : List α) : BlockDevice α where
  blockSize := size
  content := blocks size xs
  sized _ h := length_of_mem_blocks h

def read (dev : BlockDevice α) (start n : ℕ) : List α := (slice dev.content start n).flatten

/-- The device with the blocks of `data` in place of its own from `start` on. -/
def replace (dev : BlockDevice α) (start : ℕ) (data : List α) : BlockDevice α where
  blockSize := dev.blockSize
  content := overwrite dev.content start (blocks dev.blockSize data)
  sized block h := by
    rcases List.mem_append.1 h with h | h
    · rcases List.mem_append.1 h with h | h
      · exact dev.sized block (List.mem_of_mem_take h)
      · exact length_of_mem_blocks h
    · exact dev.sized block (List.mem_of_mem_drop h)

theorem ofList_overwrite {size : ℕ} {xs data : List α} {start n : ℕ} (hsize : 0 < size)
    (hrange : start + n ≤ xs.length / size) (hdata : data.length = n * size) :
    ofList size (overwrite xs (start * size) data) = (ofList size xs).replace start data := by
  simp only [ofList, replace, blocks_overwrite hsize hrange hdata]

theorem read_ofList {size : ℕ} {xs : List α} {start n : ℕ} (hrange : start + n ≤ xs.length / size) :
    (ofList size xs).read start n = slice xs (start * size) (n * size) := flatten_slice_blocks hrange

end BlockDevice

variable {β : Type} {R : α → β → Prop} {xs : List α} {ys : List β}

theorem forall₂_getElem? (h : List.Forall₂ R xs ys) (n : ℕ) : Option.Rel R xs[n]? ys[n]? := by
  induction h generalizing n with
  | nil => exact .none
  | cons hr _ ih =>
    cases n with
    | zero => exact .some hr
    | succ n => exact ih n

theorem forall₂_set (h : List.Forall₂ R xs ys) {x : α} {y : β} (hr : R x y) (n : ℕ) :
    List.Forall₂ R (xs.set n x) (ys.set n y) := by
  induction h generalizing n with
  | nil => exact .nil
  | cons hhead htail ih =>
    cases n with
    | zero => exact .cons hr htail
    | succ n => exact .cons hhead (ih n)

end XBoot.BlockArrays
