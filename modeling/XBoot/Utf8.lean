import Mathlib.Algebra.Order.Ring.Nat
import Mathlib.Tactic.Common

/-!
# UTF-8 text

`encode` gives the bytes of a string. `fromUtf8Lossy` reads any bytes as text, with one
replacement character for each maximal piece that no character starts with.
-/

namespace XBoot.Utf8

def encode (s : String) : List UInt8 := s.toList.flatMap String.utf8EncodeChar

def replacement : Char := Char.ofNat 0xFFFD

/-- A character of which `owed` more bytes are due, the next one between `least` and `greatest`. -/
structure Pending where
  owed : ℕ
  least : ℕ
  greatest : ℕ
  value : ℕ

/-- What the first byte of a character gives: a whole character, or one to be completed. -/
def start (b : ℕ) : List Char × Option Pending :=
  if b < 0x80 then ([Char.ofNat b], none)
  else if b < 0xC2 then ([replacement], none)
  else if b < 0xE0 then ([], some ⟨1, 0x80, 0xBF, b - 0xC0⟩)
  -- the narrower second bytes exclude overlong forms and surrogates
  else if b < 0xF0 then
    ([], some ⟨2, if b = 0xE0 then 0xA0 else 0x80, if b = 0xED then 0x9F else 0xBF, b - 0xE0⟩)
  else if b < 0xF5 then
    ([], some ⟨3, if b = 0xF0 then 0x90 else 0x80, if b = 0xF4 then 0x8F else 0xBF, b - 0xF0⟩)
  else ([replacement], none)

def decode : Option Pending → List UInt8 → List Char
  | none, [] => []
  | some _, [] => [replacement]
  | none, b :: bs => (start b.toNat).1 ++ decode (start b.toNat).2 bs
  | some p, b :: bs =>
    if p.least ≤ b.toNat ∧ b.toNat ≤ p.greatest then
      let value := p.value * 64 + (b.toNat - 0x80)
      if p.owed = 1 then Char.ofNat value :: decode none bs
      else decode (some ⟨p.owed - 1, 0x80, 0xBF, value⟩) bs
    -- the byte that broke the pending character is read again on its own
    else replacement :: (start b.toNat).1 ++ decode (start b.toNat).2 bs

/-- `String::from_utf8_lossy`. -/
def fromUtf8Lossy (bytes : List UInt8) : String := String.ofList (decode none bytes)

theorem utf8EncodeChar_ascii {c : Char} (h : c.toNat < 0x80) :
    String.utf8EncodeChar c = [UInt8.ofNat c.toNat] := by
  have hle : c.val.toNat ≤ 127 := Nat.le_of_lt_succ h
  rw [String.utf8EncodeChar, if_pos hle]
  rfl

theorem encode_ascii {s : String} (h : ∀ c ∈ s.toList, c.toNat < 0x80) :
    encode s = s.toList.map fun c => UInt8.ofNat c.toNat := by
  rw [encode, List.map_eq_flatMap, List.flatMap_def, List.flatMap_def]
  exact congrArg List.flatten (List.map_congr_left fun c hc => utf8EncodeChar_ascii (h c hc))

theorem length_encode_ascii {s : String} (h : ∀ c ∈ s.toList, c.toNat < 0x80) :
    (encode s).length = s.toList.length := by
  rw [encode_ascii h, List.length_map]

theorem length_encode_replicate (n : ℕ) {c : Char} (h : c.toNat < 0x80) :
    (encode (String.ofList (List.replicate n c))).length = n := by
  have hletters : (String.ofList (List.replicate n c)).toList = List.replicate n c :=
    String.toList_ofList
  rw [length_encode_ascii, hletters, List.length_replicate]
  intro c' hc'
  rw [hletters] at hc'
  rwa [List.eq_of_mem_replicate hc']

section Pending

variable {p : Pending} {n : ℕ} (hn : n < 256) (hleast : p.least ≤ n) (hgreatest : n ≤ p.greatest)
include hn hleast hgreatest

private theorem decode_last (bs : List UInt8) (howed : p.owed = 1) :
    decode (some p) (UInt8.ofNat n :: bs) = Char.ofNat (p.value * 64 + (n - 0x80)) :: decode none bs := by
  have hbyte : (UInt8.ofNat n).toNat = n := UInt8.toNat_ofNat_of_lt' hn
  simp only [decode, hbyte, if_pos (And.intro hleast hgreatest), if_pos howed]

private theorem decode_next (bs : List UInt8) (howed : p.owed ≠ 1) :
    decode (some p) (UInt8.ofNat n :: bs) =
      decode (some ⟨p.owed - 1, 0x80, 0xBF, p.value * 64 + (n - 0x80)⟩) bs := by
  have hbyte : (UInt8.ofNat n).toNat = n := UInt8.toNat_ofNat_of_lt' hn
  simp only [decode, hbyte, if_pos (And.intro hleast hgreatest), if_neg howed]

end Pending

private theorem decode_start {n : ℕ} (hn : n < 256) (bs : List UInt8) :
    decode none (UInt8.ofNat n :: bs) = (start n).1 ++ decode (start n).2 bs := by
  rw [decode, UInt8.toNat_ofNat_of_lt' hn]

/-- A character is read back from its bytes, whatever follows them. -/
theorem decode_encodeChar (c : Char) (bs : List UInt8) :
    decode none (String.utf8EncodeChar c ++ bs) = c :: decode none bs := by
  have hvalid : c.toNat < 0xD800 ∨ 0xDFFF < c.toNat ∧ c.toNat < 0x110000 := c.valid
  have hc : Char.ofNat c.toNat = c := Char.ofNat_toNat c
  have hval : c.val.toNat = c.toNat := rfl
  rw [String.utf8EncodeChar]
  simp only [hval]
  generalize c.toNat = v at *
  by_cases h1 : v ≤ 0x7f
  · rw [if_pos h1, List.singleton_append, decode_start (by omega), start, if_pos (by omega), hc]
    rfl
  by_cases h2 : v ≤ 0x7ff
  · have hsum : (v / 64 % 0x20 + 0xc0 - 0xc0) * 64 + (v % 0x40 + 0x80 - 0x80) = v := by omega
    rw [if_neg h1, if_pos h2, List.cons_append, List.singleton_append, decode_start (by omega), start,
      if_neg (by omega), if_neg (by omega), if_pos (by omega), List.nil_append,
      decode_last (by omega) (by dsimp only; omega) (by dsimp only; omega) bs rfl]
    dsimp only
    rw [hsum, hc]
  by_cases h3 : v ≤ 0xffff
  · have hsum : ((v / 4096 % 0x10 + 0xe0 - 0xe0) * 64 + (v / 64 % 0x40 + 0x80 - 0x80)) * 64 +
        (v % 0x40 + 0x80 - 0x80) = v := by omega
    rw [if_neg h1, if_neg h2, if_pos h3, List.cons_append, List.cons_append, List.singleton_append,
      decode_start (by omega), start, if_neg (by omega), if_neg (by omega), if_neg (by omega),
      if_pos (by omega), List.nil_append,
      decode_next (by omega) (by dsimp only; split <;> omega) (by dsimp only; split <;> omega) _ (by simp),
      decode_last (by omega) (by dsimp only; omega) (by dsimp only; omega) bs rfl]
    dsimp only
    rw [hsum, hc]
  · have hsum : (((v / 262144 % 0x08 + 0xf0 - 0xf0) * 64 + (v / 4096 % 0x40 + 0x80 - 0x80)) * 64 +
        (v / 64 % 0x40 + 0x80 - 0x80)) * 64 + (v % 0x40 + 0x80 - 0x80) = v := by omega
    rw [if_neg h1, if_neg h2, if_neg h3, List.cons_append, List.cons_append, List.cons_append,
      List.singleton_append, decode_start (by omega), start, if_neg (by omega), if_neg (by omega),
      if_neg (by omega), if_neg (by omega), if_pos (by omega), List.nil_append,
      decode_next (by omega) (by dsimp only; split <;> omega) (by dsimp only; split <;> omega) _ (by simp),
      decode_next (by omega) (by dsimp only; omega) (by dsimp only; omega) _ (by simp),
      decode_last (by omega) (by dsimp only; omega) (by dsimp only; omega) bs rfl]
    dsimp only
    rw [hsum, hc]

private theorem decode_flatMap (cs : List Char) : decode none (cs.flatMap String.utf8EncodeChar) = cs := by
  induction cs with
  | nil => rfl
  | cons c cs ih => rw [List.flatMap_cons, decode_encodeChar, ih]

/-- Text is read back from its bytes. -/
theorem fromUtf8Lossy_encode (s : String) : fromUtf8Lossy (encode s) = s := by
  rw [fromUtf8Lossy, encode, decode_flatMap, String.ofList_toList]

example : fromUtf8Lossy (encode "naïve €") = "naïve €" := by decide

/-- An ASCII byte is that of one character; the bytes of all others are not ASCII. -/
theorem mem_encodeChar {c : Char} {b : UInt8} (hb : b.toNat < 0x80) :
    b ∈ String.utf8EncodeChar c ↔ c.toNat = b.toNat := by
  have hval : c.val.toNat = c.toNat := rfl
  have hbyte {n : ℕ} (hn : n < 256) (heq : b = UInt8.ofNat n) : b.toNat = n := by
    rw [heq, UInt8.toNat_ofNat_of_lt' hn]
  rw [String.utf8EncodeChar]
  simp only [hval]
  generalize c.toNat = v at *
  split
  · rw [List.mem_singleton]
    refine ⟨fun heq => (hbyte (by omega) heq).symm, fun heq => ?_⟩
    rw [heq, UInt8.ofNat_toNat]
  · refine iff_of_false (fun hmem => ?_) (by omega)
    split at hmem
    · simp only [List.mem_cons, List.not_mem_nil, or_false] at hmem
      rcases hmem with heq | heq <;> have := hbyte (by omega) heq <;> omega
    · split at hmem
      · simp only [List.mem_cons, List.not_mem_nil, or_false] at hmem
        rcases hmem with heq | heq | heq <;> have := hbyte (by omega) heq <;> omega
      · simp only [List.mem_cons, List.not_mem_nil, or_false] at hmem
        rcases hmem with heq | heq | heq | heq <;> have := hbyte (by omega) heq <;> omega

theorem mem_encode {s : String} {b : UInt8} (hb : b.toNat < 0x80) :
    b ∈ encode s ↔ ∃ c ∈ s.toList, c.toNat = b.toNat := by
  simp only [encode, List.mem_flatMap, mem_encodeChar hb]

/-- The numbers that a pending character can become are scalar values beyond ASCII. -/
structure Pending.Sound (p : Pending) : Prop where
  owed_pos : 0 < p.owed
  least_ge : 0x80 ≤ p.least
  low : 0x80 ≤ (p.value * 64 + (p.least - 0x80)) * 64 ^ (p.owed - 1)
  scalar : (p.value * 64 + (p.greatest - 0x80) + 1) * 64 ^ (p.owed - 1) ≤ 0xD800 ∨
    0xE000 ≤ (p.value * 64 + (p.least - 0x80)) * 64 ^ (p.owed - 1) ∧
      (p.value * 64 + (p.greatest - 0x80) + 1) * 64 ^ (p.owed - 1) ≤ 0x110000

theorem start_sound {b : ℕ} {p : Pending} (h : (start b).2 = some p) : p.Sound := by
  rw [start] at h
  split at h
  · cases h
  · split at h
    · cases h
    · split at h
      · cases h
        constructor <;> simp only <;> omega
      · split at h
        · cases h
          refine ⟨Nat.two_pos, ?_, ?_, ?_⟩ <;> dsimp only <;> split_ifs <;> omega
        · split at h
          · cases h
            refine ⟨Nat.succ_pos 2, ?_, ?_, ?_⟩ <;> dsimp only <;> split_ifs <;> omega
          · cases h

private theorem toNat_charOfNat {n : ℕ} (h : n.isValidChar) : (Char.ofNat n).toNat = n := by
  rw [Char.ofNat, dif_pos h]
  rfl

private theorem replacement_not_ascii {c : Char} (h : c ∈ [replacement]) : ¬ c.toNat < 0x80 := by
  rw [List.mem_singleton.1 h]
  decide

theorem mem_start {b : ℕ} {c : Char} (h : c ∈ (start b).1) (hc : c.toNat < 0x80) : c.toNat = b := by
  rw [start] at h
  split at h
  · rename_i hlt
    rw [List.mem_singleton.1 h, toNat_charOfNat (.inl (by omega))]
  · split at h
    · exact absurd hc (replacement_not_ascii h)
    · split at h
      · cases h
      · split at h
        · cases h
        · split at h
          · cases h
          · exact absurd hc (replacement_not_ascii h)

section Sound

variable {p : Pending} {n : ℕ} (hp : p.Sound) (hleast : p.least ≤ n) (hgreatest : n ≤ p.greatest)
include hp hleast hgreatest

private theorem Pending.Sound.next (howed : p.owed ≠ 1) :
    Pending.Sound ⟨p.owed - 1, 0x80, 0xBF, p.value * 64 + (n - 0x80)⟩ := by
  obtain ⟨more, hmore⟩ : ∃ more, p.owed = more + 2 := ⟨p.owed - 2, by have := hp.owed_pos; omega⟩
  have hlow := hp.low
  have hscalar := hp.scalar
  have hleast' := hp.least_ge
  rw [hmore, show more + 2 - 1 = more + 1 by omega] at hlow hscalar
  have hge : (p.value * 64 + (p.least - 0x80)) * 64 ^ (more + 1) ≤
      (p.value * 64 + (n - 0x80)) * 64 ^ (more + 1) := Nat.mul_le_mul_right _ (by omega)
  have hle : (p.value * 64 + (n - 0x80) + 1) * 64 ^ (more + 1) ≤
      (p.value * 64 + (p.greatest - 0x80) + 1) * 64 ^ (more + 1) := Nat.mul_le_mul_right _ (by omega)
  have hfirst : ((p.value * 64 + (n - 0x80)) * 64 + (0x80 - 0x80)) * 64 ^ more =
      (p.value * 64 + (n - 0x80)) * 64 ^ (more + 1) := by
    rw [Nat.pow_succ, Nat.mul_comm (64 ^ more), ← Nat.mul_assoc, Nat.sub_self, Nat.add_zero]
  have hlast : ((p.value * 64 + (n - 0x80)) * 64 + (0xBF - 0x80) + 1) * 64 ^ more =
      (p.value * 64 + (n - 0x80) + 1) * 64 ^ (more + 1) := by
    rw [Nat.pow_succ, Nat.mul_comm (64 ^ more), ← Nat.mul_assoc, Nat.add_mul _ 1 64]
  refine ⟨by dsimp only; omega, Nat.le_refl _, ?_, ?_⟩ <;> dsimp only <;>
    rw [hmore, show more + 2 - 1 - 1 = more by omega, hfirst]
  · omega
  · rw [hlast]
    omega

private theorem Pending.Sound.last (howed : p.owed = 1) :
    0x80 ≤ (Char.ofNat (p.value * 64 + (n - 0x80))).toNat := by
  have hlow := hp.low
  have hscalar := hp.scalar
  have hleast' := hp.least_ge
  rw [howed, Nat.sub_self, Nat.pow_zero, Nat.mul_one] at hlow hscalar
  rw [Nat.mul_one] at hscalar
  have hvalid : (p.value * 64 + (n - 0x80)).isValidChar := by
    rcases hscalar with hlt | hlt
    · exact .inl (by omega)
    · exact .inr ⟨by omega, by omega⟩
  rw [toNat_charOfNat hvalid]
  omega

end Sound

/-- An ASCII character that is read is one of the bytes. -/
theorem mem_decode {state : Option Pending} (hstate : ∀ p, state = some p → p.Sound)
    {bs : List UInt8} {c : Char} (h : c ∈ decode state bs) (hc : c.toNat < 0x80) :
    ∃ b ∈ bs, b.toNat = c.toNat := by
  induction bs generalizing state with
  | nil =>
    cases state with
    | none => cases h
    | some p => exact absurd hc (replacement_not_ascii h)
  | cons b bs ih =>
    have hfresh (hmem : c ∈ (start b.toNat).1 ++ decode (start b.toNat).2 bs) :
        ∃ b' ∈ b :: bs, b'.toNat = c.toNat := by
      rcases List.mem_append.1 hmem with hfirst | hrest
      · exact ⟨b, List.mem_cons_self, (mem_start hfirst hc).symm⟩
      · obtain ⟨b', hb', heq⟩ := ih (fun p => start_sound) hrest
        exact ⟨b', List.mem_cons_of_mem _ hb', heq⟩
    cases state with
    | none => exact hfresh h
    | some p =>
      rw [decode] at h
      split at h
      · rename_i hrange
        dsimp only at h
        split at h
        · rename_i howed
          rcases List.mem_cons.1 h with hlast | hrest
          · have hge := (hstate p rfl).last hrange.1 hrange.2 howed
            rw [← hlast] at hge
            omega
          · obtain ⟨b', hb', heq⟩ := ih (fun p hp => by cases hp) hrest
            exact ⟨b', List.mem_cons_of_mem _ hb', heq⟩
        · rename_i howed
          obtain ⟨b', hb', heq⟩ := ih (fun p' hp' => by
            cases hp'
            exact (hstate p rfl).next hrange.1 hrange.2 howed) h
          exact ⟨b', List.mem_cons_of_mem _ hb', heq⟩
      · rcases List.mem_cons.1 h with hfirst | hmem
        · exact absurd hc (replacement_not_ascii (List.mem_singleton.2 hfirst))
        · exact hfresh hmem

/-- Reading introduces no ASCII character. -/
theorem mem_fromUtf8Lossy {bs : List UInt8} {c : Char} (h : c ∈ (fromUtf8Lossy bs).toList)
    (hc : c.toNat < 0x80) : ∃ b ∈ bs, b.toNat = c.toNat := by
  rw [fromUtf8Lossy, String.toList_ofList] at h
  exact mem_decode (fun p hp => by cases hp) h hc

private theorem decode_pending_ne_nil (p : Pending) (bs : List UInt8) : decode (some p) bs ≠ [] := by
  induction bs generalizing p with
  | nil => simp [decode]
  | cons b bs ih =>
    rw [decode]
    split
    · dsimp only
      split
      · simp
      · exact ih _
    · simp

private theorem start_gives (b : ℕ) : (start b).1 ≠ [] ∨ ∃ p, (start b).2 = some p := by
  rw [start]
  split_ifs <;> simp

/-- Bytes are read as at least one character. -/
theorem fromUtf8Lossy_ne_empty {bs : List UInt8} (h : bs ≠ []) : fromUtf8Lossy bs ≠ "" := by
  obtain ⟨b, bs, rfl⟩ := List.exists_cons_of_ne_nil h
  intro hempty
  have hnil := congrArg String.toList hempty
  rw [fromUtf8Lossy, String.toList_ofList, decode] at hnil
  obtain ⟨hfirst, hrest⟩ := List.append_eq_nil_iff.1 hnil
  rcases start_gives b.toNat with hne | ⟨p, hp⟩
  · exact hne hfirst
  · rw [hp] at hrest
    exact decode_pending_ne_nil p bs hrest

def NulFree (s : String) : Prop := ∀ c ∈ s.toList, c.toNat ≠ 0

theorem NulFree.zero_not_mem {s : String} (h : NulFree s) : 0 ∉ encode s := by
  intro hmem
  obtain ⟨c, hc, hzero⟩ := (mem_encode (by decide)).1 hmem
  exact h c hc hzero

theorem nulFree_fromUtf8Lossy {bs : List UInt8} (h : 0 ∉ bs) : NulFree (fromUtf8Lossy bs) := by
  intro c hc hzero
  obtain ⟨b, hb, heq⟩ := mem_fromUtf8Lossy hc (by rw [hzero]; decide)
  rw [hzero] at heq
  exact h ((UInt8.toNat_inj.1 heq : b = 0) ▸ hb)

theorem encode_ne_nil {s : String} (h : s ≠ "") : encode s ≠ [] := by
  intro hnil
  have hread := fromUtf8Lossy_encode s
  rw [hnil] at hread
  exact h hread.symm

end XBoot.Utf8
