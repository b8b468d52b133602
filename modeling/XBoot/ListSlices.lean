import Mathlib.Algebra.Order.Ring.Nat
import Mathlib.Data.List.Basic
import Mathlib.Tactic.Common

/-!
# Slices and overwrites of lists

`slice xs o n` is the sublist of length `n` at position `o`; `overwrite xs o ys`
replaces the elements at `o, o+1, ...` by those of `ys`. The lemmas describe both
by their elements, and say how neighbouring slices and overwrites compose.
-/

namespace XBoot.ListSlices

variable {α : Type*}

/-- The `n` elements of `xs` from position `o` on. -/
def slice (xs : List α) (o n : ℕ) : List α := (xs.drop o).take n

/-- Replace the elements of `xs` from position `o` on by `ys`. -/
def overwrite (xs : List α) (o : ℕ) (ys : List α) : List α :=
  xs.take o ++ ys ++ xs.drop (o + ys.length)

theorem getElem?_slice (xs : List α) (o n i : ℕ) :
    (slice xs o n)[i]? = if i < n then xs[o + i]? else none := by
  simp [slice, List.getElem?_take]

theorem length_slice {xs : List α} {o n : ℕ} (h : o + n ≤ xs.length) :
    (slice xs o n).length = n := by
  simp only [slice, List.length_take, List.length_drop]
  omega

@[simp] theorem slice_zero (xs : List α) (o : ℕ) : slice xs o 0 = [] := by simp [slice]

@[simp] theorem slice_all (xs : List α) : slice xs 0 xs.length = xs := by simp [slice]

theorem slice_append_left {xs ys : List α} {o n : ℕ} (h : o + n ≤ xs.length) :
    slice (xs ++ ys) o n = slice xs o n := by
  apply List.ext_getElem?
  intro i
  simp only [getElem?_slice]
  split
  · rw [List.getElem?_append_left (by omega)]
  · rfl

theorem slice_append_right {xs ys : List α} {o n : ℕ} (h : xs.length ≤ o) :
    slice (xs ++ ys) o n = slice ys (o - xs.length) n := by
  apply List.ext_getElem?
  intro i
  simp only [getElem?_slice]
  split
  · rw [List.getElem?_append_right (by omega), Nat.sub_add_comm h]
  · rfl

theorem slice_append_self {xs ys : List α} {o n : ℕ} (ho : xs.length = o) (hn : ys.length = n) :
    slice (xs ++ ys) o n = ys := by
  rw [slice_append_right (by omega), ho, Nat.sub_self, ← hn, slice_all]

theorem slice_append_slice (xs : List α) (o n m : ℕ) :
    slice xs o n ++ slice xs (o + n) m = slice xs o (n + m) := by
  simp [slice, List.take_add]

theorem slice_slice (xs : List α) (o n p m : ℕ) (h : p + m ≤ n) :
    slice (slice xs o n) p m = slice xs (o + p) m := by
  apply List.ext_getElem?
  intro i
  simp only [getElem?_slice]
  by_cases hi : i < m
  · rw [if_pos hi, if_pos (by omega), if_pos hi, Nat.add_assoc]
  · rw [if_neg hi, if_neg hi]

theorem slice_min_length (xs : List α) (o n : ℕ) :
    slice xs o (min (o + n) xs.length - o) = slice xs o n := by
  apply List.ext_getElem?
  intro i
  simp only [getElem?_slice]
  by_cases hi : o + i < xs.length
  · simp only [show i < min (o + n) xs.length - o ↔ i < n by omega]
  · simp only [List.getElem?_eq_none (Nat.not_lt.1 hi), ite_self]

theorem slice_congr {xs ys : List α} {o n : ℕ}
    (h : ∀ i, o ≤ i → i < o + n → xs[i]? = ys[i]?) : slice xs o n = slice ys o n := by
  apply List.ext_getElem?
  intro i
  simp only [getElem?_slice]
  by_cases hi : i < n
  · rw [if_pos hi, if_pos hi, h (o + i) (by omega) (by omega)]
  · rw [if_neg hi, if_neg hi]

theorem length_overwrite {xs ys : List α} {o : ℕ} (h : o + ys.length ≤ xs.length) :
    (overwrite xs o ys).length = xs.length := by
  simp only [overwrite, List.length_append, List.length_take, List.length_drop]
  omega

theorem getElem?_overwrite {xs ys : List α} {o : ℕ} (h : o + ys.length ≤ xs.length) (i : ℕ) :
    (overwrite xs o ys)[i]? =
      if o ≤ i ∧ i < o + ys.length then ys[i - o]? else xs[i]? := by
  have ho : (xs.take o).length = o := by simp only [List.length_take]; omega
  simp only [overwrite, List.append_assoc, List.getElem?_append, ho, List.getElem?_drop]
  rcases Nat.lt_or_ge i o with hi | hi
  · rw [if_pos hi, if_neg (by omega), List.getElem?_take_of_lt hi]
  · rw [if_neg (by omega)]
    by_cases hy : i < o + ys.length
    · rw [if_pos (by omega), if_pos ⟨hi, hy⟩]
    · rw [if_neg (by omega), if_neg (by omega)]
      congr 1
      omega

@[simp] theorem overwrite_nil (xs : List α) (o : ℕ) : overwrite xs o [] = xs := by
  simp [overwrite]

theorem overwrite_all {xs ys : List α} (h : ys.length = xs.length) : overwrite xs 0 ys = ys := by
  simp [overwrite, h]

/-- Overwriting inside the middle part of a concatenation keeps the other parts. -/
theorem overwrite_middle {front mid back ys : List α} {o : ℕ} (ho : front.length = o)
    (h : ys.length ≤ mid.length) :
    overwrite (front ++ mid ++ back) o ys = front ++ (ys ++ mid.drop ys.length) ++ back := by
  subst ho
  have hdrop : (front ++ (mid ++ back)).drop (front.length + ys.length) = mid.drop ys.length ++ back := by
    rw [List.drop_length_add_append, List.drop_append_of_le_length h]
  rw [overwrite, List.append_assoc front mid back, List.take_left, hdrop]
  simp only [List.append_assoc]

theorem overwrite_slice_self {xs : List α} {o n : ℕ} (h : o + n ≤ xs.length) :
    overwrite xs o (slice xs o n) = xs := by
  have hlen : (slice xs o n).length = n := length_slice h
  apply List.ext_getElem?
  intro i
  rw [getElem?_overwrite (by omega), hlen, getElem?_slice]
  split
  · rw [if_pos (by omega)]
    congr 1
    omega
  · rfl

theorem overwrite_overwrite {xs ys zs : List α} {o : ℕ}
    (h : o + ys.length + zs.length ≤ xs.length) :
    overwrite (overwrite xs o ys) (o + ys.length) zs = overwrite xs o (ys ++ zs) := by
  have hy : o + ys.length ≤ xs.length := by omega
  apply List.ext_getElem?
  intro i
  rw [getElem?_overwrite (by rw [length_overwrite hy]; exact h), getElem?_overwrite hy,
    getElem?_overwrite (by simpa [Nat.add_assoc] using h), List.getElem?_append]
  simp only [List.length_append]
  rcases Nat.lt_or_ge i o with hi | hi
  · rw [if_neg (by omega), if_neg (by omega), if_neg (by omega)]
  rcases Nat.lt_or_ge i (o + ys.length) with hy' | hy'
  · rw [if_neg (by omega), if_pos (by omega), if_pos (by omega), if_pos (by omega)]
  by_cases hz : i < o + ys.length + zs.length
  · rw [if_pos (by omega), if_pos (by omega), if_neg (by omega)]
    congr 1
    omega
  · rw [if_neg (by omega), if_neg (by omega), if_neg (by omega)]

theorem overwrite_slice_slice {xs ys : List α} {o a m n : ℕ} (hys : a + m + n ≤ ys.length)
    (h : o + m + n ≤ xs.length) :
    overwrite (overwrite xs o (slice ys a m)) (o + m) (slice ys (a + m) n) =
      overwrite xs o (slice ys a (m + n)) := by
  have hm : (slice ys a m).length = m := length_slice (by omega)
  have hn : (slice ys (a + m) n).length = n := length_slice (by omega)
  have hjoin : overwrite (overwrite xs o (slice ys a m)) (o + (slice ys a m).length)
      (slice ys (a + m) n) = _ := overwrite_overwrite (by omega)
  rwa [hm, slice_append_slice] at hjoin

theorem overwrite_again {xs ys zs : List α} {o : ℕ} (h : o + ys.length ≤ xs.length)
    (hlen : ys.length = zs.length) : overwrite (overwrite xs o ys) o zs = overwrite xs o zs := by
  have hz : o + zs.length ≤ xs.length := hlen ▸ h
  apply List.ext_getElem?
  intro i
  rw [getElem?_overwrite (by rwa [length_overwrite h]), getElem?_overwrite hz]
  split
  · rfl
  · rw [getElem?_overwrite h, hlen]
    exact if_neg ‹_›

theorem slice_overwrite_of_disjoint {xs ys : List α} {o p n : ℕ}
    (h : o + ys.length ≤ xs.length) (hd : p + n ≤ o ∨ o + ys.length ≤ p) :
    slice (overwrite xs o ys) p n = slice xs p n := by
  apply slice_congr
  intro i hi hn
  rw [getElem?_overwrite h, if_neg (by omega)]

theorem slice_overwrite_of_subset {xs ys : List α} {o p n : ℕ}
    (h : o + ys.length ≤ xs.length) (hp : o ≤ p) (hn : p + n ≤ o + ys.length) :
    slice (overwrite xs o ys) p n = slice ys (p - o) n := by
  apply List.ext_getElem?
  intro i
  simp only [getElem?_slice]
  by_cases hi : i < n
  · rw [if_pos hi, if_pos hi, getElem?_overwrite h, if_pos (by omega)]
    congr 1
    omega
  · rw [if_neg hi, if_neg hi]

theorem slice_overwrite_inside {xs ys : List α} {o p n : ℕ} (h : o + n ≤ xs.length)
    (hp : p + ys.length ≤ n) : slice (overwrite xs (o + p) ys) o n = overwrite (slice xs o n) p ys := by
  apply List.ext_getElem?
  intro i
  rw [getElem?_overwrite (by rw [length_slice h]; exact hp), getElem?_slice, getElem?_slice,
    getElem?_overwrite (by omega)]
  by_cases hi : p ≤ i ∧ i < p + ys.length
  · rw [if_pos hi, if_pos (by omega), if_pos (by omega)]
    congr 1
    omega
  · rw [if_neg hi, if_neg (show ¬ (o + p ≤ o + i ∧ o + i < o + p + ys.length) by omega)]

theorem overwrite_overwrite_slice {xs ys : List α} {o p n : ℕ} (h : p + n ≤ xs.length)
    (hn : o + ys.length ≤ n) :
    overwrite xs p (overwrite (slice xs p n) o ys) = overwrite xs (p + o) ys := by
  have hs : (slice xs p n).length = n := length_slice h
  have hw : (overwrite (slice xs p n) o ys).length = n := by rw [length_overwrite (by omega), hs]
  have houter : p + (overwrite (slice xs p n) o ys).length ≤ xs.length := by omega
  have hwhole : p + o + ys.length ≤ xs.length := by omega
  apply List.ext_getElem?
  intro i
  rw [getElem?_overwrite houter, getElem?_overwrite hwhole, hw]
  by_cases hi : p ≤ i ∧ i < p + n
  · have hslice : (slice xs p n)[i - p]? = xs[i]? := by
      rw [getElem?_slice, if_pos (by omega), Nat.add_sub_cancel' hi.1]
    rw [if_pos hi, getElem?_overwrite (by omega), hslice]
    by_cases hy : p + o ≤ i ∧ i < p + o + ys.length
    · rw [if_pos (by omega), if_pos hy, Nat.sub_sub]
    · rw [if_neg (by omega), if_neg hy]
  · rw [if_neg hi, if_neg (by omega)]

section Tables

variable {β : Type*} {f : β → List α} {w : ℕ} (hf : ∀ x, (f x).length = w)
include hf

theorem length_flatMap_of_length (xs : List β) : (xs.flatMap f).length = w * xs.length := by
  induction xs with
  | nil => rfl
  | cons x xs ih =>
    rw [List.flatMap_cons, List.length_append, hf, ih, List.length_cons, Nat.mul_succ, Nat.add_comm]

theorem slice_flatMap (xs : List β) {i : ℕ} (hi : i < xs.length) :
    slice (xs.flatMap f) (w * i) w = f xs[i] := by
  induction xs generalizing i with
  | nil => cases hi
  | cons x xs ih =>
    have hx := hf x
    rw [List.flatMap_cons]
    cases i with
    | zero =>
      have hall := slice_all (f x)
      rw [hx] at hall
      rw [Nat.mul_zero, slice_append_left (by omega), hall, List.getElem_cons_zero]
    | succ i =>
      rw [slice_append_right (by rw [hx, Nat.mul_succ]; omega), hx, Nat.mul_succ, Nat.add_sub_cancel,
        List.getElem_cons_succ]
      exact ih (Nat.lt_of_succ_lt_succ hi)

end Tables

end XBoot.ListSlices
