import Mathlib.Algebra.Order.Ring.Nat
import Mathlib.Tactic.Common
import XBoot.Utf8

/-!
# Decimal numerals

`str::parse` at an unsigned type of `bits` bits: an optional plus sign and at least one
ASCII digit, of a number that fits the type.
-/

namespace XBoot.Numerals

def digitsOf : List Char → List Char
  | c :: rest => if c = '+' then rest else c :: rest
  | [] => []

def parseUnsigned (bits : ℕ) (s : String) : Option ℕ :=
  let digits := digitsOf s.toList
  if digits = [] ∨ ¬ digits.all Char.isDigit then none
  else
    let n := digits.foldl (fun n c => n * 10 + (c.toNat - 48)) 0
    if n < 2 ^ bits then some n else none

theorem parseUnsigned_lt {bits n : ℕ} {s : String} (h : parseUnsigned bits s = some n) :
    n < 2 ^ bits := by
  simp only [parseUnsigned] at h
  split at h
  · cases h
  · split at h
    · cases h; assumption
    · cases h

theorem toList_toString (n : ℕ) : (toString n).toList = Nat.toDigits 10 n := Nat.toList_repr

theorem isDigit_of_mem_toString {n : ℕ} {c : Char} (hc : c ∈ (toString n).toList) :
    c.isDigit = true := by
  rw [toList_toString] at hc
  exact Nat.isDigit_of_mem_toDigits (by decide) (by decide) hc

theorem toNat_of_mem_toString {n : ℕ} {c : Char} (hc : c ∈ (toString n).toList) :
    0 < c.toNat ∧ c.toNat < 0x80 := by
  have hdigit := Char.isDigit_iff_toNat.1 (isDigit_of_mem_toString hc)
  exact ⟨Nat.lt_of_lt_of_le (by decide) hdigit.1, Nat.lt_of_le_of_lt hdigit.2 (by decide)⟩

theorem length_encode_toString {n k : ℕ} (hk : 0 < k) (h : n < 10 ^ k) :
    (Utf8.encode (toString n)).length ≤ k := by
  rw [Utf8.length_encode_ascii fun c hc => (toNat_of_mem_toString hc).2, toList_toString]
  exact (Nat.length_toDigits_le_iff (by decide) hk).2 h

theorem parseUnsigned_toString {bits n : ℕ} (h : n < 2 ^ bits) :
    parseUnsigned bits (toString n) = some n := by
  have hlist := toList_toString n
  have hdigit : ∀ c ∈ Nat.toDigits 10 n, c.isDigit = true :=
    fun c hc => isDigit_of_mem_toString (hlist ▸ hc)
  have hplain : digitsOf (Nat.toDigits 10 n) = Nat.toDigits 10 n := by
    obtain ⟨c, cs, hcons⟩ := List.exists_cons_of_ne_nil (Nat.toDigits_ne_nil (n := n) (b := 10))
    have hc : c ≠ '+' := by
      rintro rfl
      exact absurd (hdigit '+' (hcons ▸ List.mem_cons_self)) (by decide)
    rw [hcons, digitsOf, if_neg hc]
  have hvalue : (Nat.toDigits 10 n).foldl (fun n c => n * 10 + (c.toNat - 48)) 0 = n := by
    have hfold : (Nat.toDigits 10 n).foldl (fun n c => 10 * n + (c.toNat - 48)) 0 = n :=
      Nat.ofDigitChars_eq_foldl.symm.trans Nat.ofDigitChars_ten_toDigits
    simpa only [Nat.mul_comm] using hfold
  rw [parseUnsigned]
  dsimp only
  rw [hlist, hplain, if_neg, hvalue, if_pos h]
  rintro (hnil | hother)
  · exact Nat.toDigits_ne_nil hnil
  · exact hother (List.all_eq_true.2 hdigit)

example : parseUnsigned 16 "+1468" = some 1468 ∧
    parseUnsigned 16 "-1" = none := by decide

end XBoot.Numerals
