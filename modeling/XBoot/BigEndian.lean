import XBoot.ListSlices

/-!
# Big-endian fields

`toBe w n` writes the low `w` bytes of `n`, most significant byte first, and `ofBe`
reads such a field back. A record is a concatenation of fields; a field of known
length is cut out of it by its position.
-/

namespace XBoot.BigEndian

open ListSlices

def ascii (s : String) : List UInt8 := s.toList.map fun c => UInt8.ofNat c.toNat

def ofBe : List UInt8 → ℕ
  | [] => 0
  | b :: bs => b.toNat * 256 ^ bs.length + ofBe bs

/-- The `w` low bytes of `n`, most significant first. -/
def toBe : ℕ → ℕ → List UInt8
  | 0, _ => []
  | w + 1, n => UInt8.ofNat (n / 256 ^ w) :: toBe w n

/-- Least significant byte first. -/
def toLe (w n : ℕ) : List UInt8 := (toBe w n).reverse

@[simp] theorem length_toBe (w n : ℕ) : (toBe w n).length = w := by
  induction w with
  | zero => rfl
  | succ w ih => rw [toBe, List.length_cons, ih]

@[simp] theorem length_toLe (w n : ℕ) : (toLe w n).length = w := by simp [toLe]

@[simp] theorem slice_toBe (w n : ℕ) : slice (toBe w n) 0 w = toBe w n := by
  have hall := slice_all (toBe w n)
  rwa [length_toBe] at hall

theorem ofBe_toBe (w n : ℕ) : ofBe (toBe w n) = n % 256 ^ w := by
  induction w with
  | zero => rw [toBe, ofBe, Nat.pow_zero, Nat.mod_one]
  | succ w ih =>
    have hbyte : (UInt8.ofNat (n / 256 ^ w)).toNat = n / 256 ^ w % 256 := by simp
    rw [toBe, ofBe, length_toBe, hbyte, ih, Nat.pow_succ, Nat.mod_mul, Nat.add_comm, Nat.mul_comm]

theorem ofBe_toBe_of_lt {w n : ℕ} (h : n < 256 ^ w) : ofBe (toBe w n) = n := by
  rw [ofBe_toBe, Nat.mod_eq_of_lt h]

theorem ofBe_concat (bs : List UInt8) (b : UInt8) : ofBe (bs ++ [b]) = 256 * ofBe bs + b.toNat := by
  induction bs with
  | nil => simp [ofBe]
  | cons a bs ih =>
    rw [List.cons_append, ofBe, ih, ofBe, List.length_append, List.length_singleton, Nat.pow_succ,
      Nat.mul_add, ← Nat.add_assoc, Nat.mul_comm _ 256, Nat.mul_left_comm]

theorem ofBe_lt (bs : List UInt8) : ofBe bs < 256 ^ bs.length := by
  induction bs with
  | nil => simp [ofBe]
  | cons b bs ih =>
    have hb : b.toNat * 256 ^ bs.length ≤ 255 * 256 ^ bs.length :=
      Nat.mul_le_mul_right _ (by have := b.toNat_lt; omega)
    rw [ofBe, List.length_cons, Nat.pow_succ]
    omega

/-- A field of at most `w` bytes stands for a number below `256 ^ w`. -/
theorem ofBe_slice_lt (bs : List UInt8) (o w : ℕ) : ofBe (slice bs o w) < 256 ^ w := by
  have hlen : (slice bs o w).length ≤ w := by
    rw [slice, List.length_take]
    exact Nat.min_le_left _ _
  exact Nat.lt_of_lt_of_le (ofBe_lt _) (Nat.pow_le_pow_right (by decide) hlen)

end XBoot.BigEndian
