import Mathlib.Algebra.Order.Ring.Nat
import Mathlib.Logic.Function.Iterate
import Mathlib.Tactic.Common

/-!
# Linear feedback shift registers

A register of `w` bits absorbs symbols of `k` bits, each with `k` shifts. It is linear, and where the
feedback reaches the highest bit it forgets nothing, so two texts of symbols that differ in at most `w`
consecutive bits never leave it in the same state.
-/

namespace XBoot.ShiftRegisters

variable {w k : ℕ} {poly : BitVec w}

def shift (poly c : BitVec w) : BitVec w := c >>> 1 ^^^ if c.getLsbD 0 then poly else 0#w

def absorb (poly c : BitVec w) (b : BitVec k) : BitVec w := (shift poly)^[k] (c ^^^ b.setWidth w)

def run (poly c : BitVec w) (bs : List (BitVec k)) : BitVec w := bs.foldl (absorb poly) c

theorem shift_xor (poly a b : BitVec w) : shift poly (a ^^^ b) = shift poly a ^^^ shift poly b := by
  apply BitVec.eq_of_getLsbD_eq
  intro i _
  simp only [shift, BitVec.getLsbD_xor, BitVec.ushiftRight_xor_distrib]
  cases a.getLsbD 0 <;> cases b.getLsbD 0 <;> cases (a >>> 1).getLsbD i <;>
    cases (b >>> 1).getLsbD i <;> cases poly.getLsbD i <;> simp [*]

theorem shifts_xor (poly : BitVec w) (n : ℕ) (a b : BitVec w) :
    (shift poly)^[n] (a ^^^ b) = (shift poly)^[n] a ^^^ (shift poly)^[n] b := by
  induction n generalizing a b with
  | zero => rfl
  | succ n ih => rw [Function.iterate_succ_apply, shift_xor, ih]; rfl

/-- A register whose feedback reaches the highest bit forgets nothing. -/
theorem shift_injective (hpoly : poly.getLsbD (w - 1) = true) : Function.Injective (shift poly) := by
  intro a b h
  have hw : 0 < w := by
    by_contra hzero
    rw [BitVec.getLsbD_of_ge poly _ (by omega)] at hpoly
    cases hpoly
  have hfeedback (c : BitVec w) (i : ℕ) :
      (if c.getLsbD 0 then poly else 0#w).getLsbD i = (c.getLsbD 0 && poly.getLsbD i) := by
    cases c.getLsbD 0 <;> simp
  have hbit (i : ℕ) : (a.getLsbD (1 + i) ^^ (a.getLsbD 0 && poly.getLsbD i)) =
      (b.getLsbD (1 + i) ^^ (b.getLsbD 0 && poly.getLsbD i)) := by
    have hsame : (shift poly a).getLsbD i = (shift poly b).getLsbD i := by rw [h]
    simpa only [shift, BitVec.getLsbD_xor, BitVec.getLsbD_ushiftRight, hfeedback] using hsame
  -- the highest bit of the next state is the lowest one of this state
  have hlow : a.getLsbD 0 = b.getLsbD 0 := by
    have htop := hbit (w - 1)
    rwa [BitVec.getLsbD_of_ge a _ (by omega), BitVec.getLsbD_of_ge b _ (by omega), hpoly,
      Bool.and_true, Bool.and_true, Bool.false_xor, Bool.false_xor] at htop
  apply BitVec.eq_of_getLsbD_eq
  intro i _
  cases i with
  | zero => exact hlow
  | succ i =>
    have hnext := hbit i
    rw [hlow, Bool.xor_left_inj, Nat.add_comm] at hnext
    exact hnext

theorem absorb_injective (hpoly : poly.getLsbD (w - 1) = true) (b : BitVec k) :
    Function.Injective fun c => absorb poly c b := by
  intro c c' h
  have hstate := (shift_injective hpoly).iterate k h
  exact (BitVec.xor_left_inj _).1 hstate

theorem run_injective (hpoly : poly.getLsbD (w - 1) = true) (bs : List (BitVec k)) :
    Function.Injective fun c => run poly c bs := by
  induction bs with
  | nil => exact fun _ _ h => h
  | cons b bs ih => exact fun c c' h => absorb_injective hpoly b (ih h)

/-- Symbols one after another, the first one lowest. -/
def word (w : ℕ) : List (BitVec k) → BitVec w
  | [] => 0#w
  | b :: bs => b.setWidth w ^^^ word w bs <<< k

theorem getLsbD_word_of_ge {bs : List (BitVec k)} {i : ℕ} (h : k * bs.length ≤ i) :
    (word w bs).getLsbD i = false := by
  induction bs generalizing i with
  | nil => exact BitVec.getLsbD_zero
  | cons b bs ih =>
    rw [List.length_cons, Nat.mul_succ] at h
    rw [word, BitVec.getLsbD_xor, BitVec.getLsbD_setWidth, BitVec.getLsbD_of_ge b i (by omega),
      BitVec.getLsbD_shiftLeft, ih (by omega)]
    simp

/-- Bits that are shifted up come down again without feedback. -/
theorem shifts_shiftLeft (poly : BitVec w) {n : ℕ} {c : BitVec w}
    (h : ∀ i, w ≤ i + n → c.getLsbD i = false) : (shift poly)^[n] (c <<< n) = c := by
  induction n with
  | zero => rw [Function.iterate_zero_apply, BitVec.shiftLeft_zero]
  | succ n ih =>
    have hlow : (c <<< (n + 1)).getLsbD 0 = false := by simp
    have hdown : c <<< (n + 1) >>> 1 = c <<< n := by
      apply BitVec.eq_of_getLsbD_eq
      intro i hi
      rw [BitVec.getLsbD_ushiftRight, BitVec.getLsbD_shiftLeft, BitVec.getLsbD_shiftLeft]
      rcases Nat.lt_or_ge i n with hlt | hge
      · simp [show 1 + i < n + 1 by omega, hlt]
      · have hsub : 1 + i - (n + 1) = i - n := by omega
        rcases Nat.lt_or_ge (1 + i) w with hin | hout
        · simp [hin, hi, hsub, show ¬ 1 + i < n + 1 by omega, show ¬ i < n by omega]
        · simp [show ¬ 1 + i < w by omega, h (i - n) (by omega)]
    rw [Function.iterate_succ_apply, shift, hlow, hdown, if_neg Bool.false_ne_true, BitVec.xor_zero]
    exact ih fun i hi => h i (by omega)

theorem run_word (poly c : BitVec w) {bs : List (BitVec k)} (h : k * bs.length ≤ w) :
    run poly c bs = (shift poly)^[k * bs.length] (c ^^^ word w bs) := by
  induction bs generalizing c with
  | nil => simp [run, word]
  | cons b bs ih =>
    rw [List.length_cons, Nat.mul_succ] at h
    have hrest : (shift poly)^[k] (word w bs <<< k) = word w bs :=
      shifts_shiftLeft poly fun i hi => getLsbD_word_of_ge (by omega)
    have hnext : run poly c (b :: bs) = run poly (absorb poly c b) bs := rfl
    rw [hnext, ih _ (by omega), absorb, List.length_cons, Nat.mul_succ, Function.iterate_add_apply,
      word, ← BitVec.xor_assoc, shifts_xor poly k _ (word w bs <<< k), hrest]

theorem word_injective {bs bs' : List (BitVec k)} (hlen : bs.length = bs'.length)
    (hfit : k * bs.length ≤ w) (h : word w bs = word w bs') : bs = bs' := by
  induction bs generalizing bs' with
  | nil => exact (List.length_eq_zero_iff.1 hlen.symm).symm
  | cons b bs ih =>
    cases bs' with
    | nil => cases hlen
    | cons b' bs' =>
      rw [List.length_cons, Nat.mul_succ] at hfit
      have hlen' : bs.length = bs'.length := Nat.succ.inj hlen
      have hbit (i : ℕ) : (word w (b :: bs)).getLsbD i = (word w (b' :: bs')).getLsbD i := by rw [h]
      simp only [word, BitVec.getLsbD_xor, BitVec.getLsbD_setWidth, BitVec.getLsbD_shiftLeft] at hbit
      have hfirst : b = b' := by
        apply BitVec.eq_of_getLsbD_eq
        intro i hi
        simpa [hi, show i < w by omega] using hbit i
      have hrest : word w bs = word w bs' := by
        apply BitVec.eq_of_getLsbD_eq
        intro i hi
        rcases Nat.lt_or_ge (i + k) w with hin | hout
        · simpa [hin, BitVec.getLsbD_of_ge] using hbit (i + k)
        · rw [getLsbD_word_of_ge (by omega), getLsbD_word_of_ge (by rw [← hlen']; omega)]
      rw [hfirst, ih hlen' (by omega) hrest]

/-- Texts that differ within one window no longer than the register end in different states. -/
theorem run_window (hpoly : poly.getLsbD (w - 1) = true) (c : BitVec w) {front back : List (BitVec k)}
    {bs bs' : List (BitVec k)} (hlen : bs.length = bs'.length) (hfit : k * bs.length ≤ w)
    (h : run poly c (front ++ bs ++ back) = run poly c (front ++ bs' ++ back)) : bs = bs' := by
  simp only [run, List.foldl_append] at h
  have hwindow : run poly (front.foldl (absorb poly) c) bs = run poly (front.foldl (absorb poly) c) bs' :=
    run_injective hpoly back h
  rw [run_word _ _ hfit, run_word _ _ (hlen ▸ hfit), hlen] at hwindow
  have hword := (shift_injective hpoly).iterate _ hwindow
  exact word_injective hlen hfit ((BitVec.xor_right_inj _).1 hword)

end XBoot.ShiftRegisters
