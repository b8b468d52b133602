import XBoot.ListSlices

/-!
# Fetching a range piece by piece

A range of positions is cut at the multiples of a unit and each piece is fetched on
its own, front to back, until the requested length is reached. The fuel bounds the
number of pieces; `stuck` is the result of a loop that makes no progress. When every
piece fetched is the slice of one list, so is the whole range; each element of a fetched
range is an element of the piece that covers its position; and a range is fetched exactly
when its part in each unit is.
-/

namespace XBoot.UnitWalk

open ListSlices

variable {α ε : Type}

/-- Fetch `len` elements, the `done` first ones being in `buf` already. -/
def walk (unit : ℕ) (stuck : ε) (piece : ℕ → ℕ → Except ε (List α)) (len : ℕ) :
    ℕ → ℕ → List α → Except ε (List α)
  | 0, _, buf => if len ≤ buf.length then .ok buf else .error stuck
  | fuel + 1, pos, buf =>
    if len ≤ buf.length then .ok buf
    else
      match piece pos (min (unit - pos % unit) (len - buf.length)) with
      | .error e => .error e
      | .ok dst =>
        walk unit stuck piece len fuel (pos + min (unit - pos % unit) (len - buf.length)) (buf ++ dst)

/-- A piece lies in the range from `pos` to `stop` and does not cross a multiple of the unit. -/
structure Piece (unit pos stop p n : ℕ) : Prop where
  pos_le : pos ≤ p
  le_stop : p + n ≤ stop
  nonempty : 0 < n
  inside : p % unit + n ≤ unit

/-- All positions of a piece lie in one unit. -/
theorem Piece.div_eq {unit pos stop p n x : ℕ} (h : Piece unit pos stop p n) (hp : p ≤ x)
    (hx : x < p + n) : x / unit = p / unit := by
  have hmod := Nat.div_add_mod' p unit
  have hin := h.inside
  exact Nat.div_eq_of_lt_le (by omega) (by rw [Nat.add_mul, Nat.one_mul]; omega)

variable {unit : ℕ} {stuck : ε} {piece : ℕ → ℕ → Except ε (List α)} {len : ℕ}

theorem first_piece {pos done : ℕ} (hunit : 0 < unit) (hdone : done < len) :
    Piece unit pos (pos + (len - done)) pos (min (unit - pos % unit) (len - done)) := by
  have hmod := Nat.mod_lt pos hunit
  exact ⟨Nat.le_refl _, by omega, by omega, by omega⟩

theorem Piece.mono {pos pos' stop p n : ℕ} (h : Piece unit pos' stop p n)
    (hp : pos ≤ pos') : Piece unit pos stop p n :=
  ⟨Nat.le_trans hp h.pos_le, h.le_stop, h.nonempty, h.inside⟩

theorem walk_done {fuel pos : ℕ} {buf : List α} (h : len ≤ buf.length) :
    walk unit stuck piece len fuel pos buf = .ok buf := by
  cases fuel <;> simp [walk, h]

theorem walk_next {fuel pos n : ℕ} {buf dst : List α} (h : buf.length < len)
    (hn : n = min (unit - pos % unit) (len - buf.length)) (hp : piece pos n = .ok dst) :
    walk unit stuck piece len (fuel + 1) pos buf =
      walk unit stuck piece len fuel (pos + n) (buf ++ dst) := by
  rw [walk, if_neg (by omega), ← hn, hp]

/-- Pieces that are slices of one list make up the slice of the whole range. -/
theorem walk_eq_append (hunit : 0 < unit) (content : List α) (fuel pos : ℕ) (buf : List α)
    (hfuel : len ≤ buf.length + fuel) (hbuf : buf.length ≤ len)
    (hlen : pos + (len - buf.length) ≤ content.length)
    (hpiece : ∀ p n, Piece unit pos (pos + (len - buf.length)) p n →
      piece p n = .ok (slice content p n)) :
    walk unit stuck piece len fuel pos buf =
      .ok (buf ++ slice content pos (len - buf.length)) := by
  induction fuel generalizing pos buf with
  | zero =>
    have hz : len - buf.length = 0 := by omega
    rw [walk_done (by omega), hz, slice_zero, List.append_nil]
  | succ fuel ih =>
    rcases Nat.lt_or_ge buf.length len with hlt | hge
    · have hfirst : Piece unit pos (pos + (len - buf.length)) pos _ := first_piece hunit hlt
      set n := min (unit - pos % unit) (len - buf.length) with hn
      have hslice : (slice content pos n).length = n := length_slice (Nat.le_trans hfirst.le_stop hlen)
      have hstop := hfirst.le_stop
      have hrest := ih (pos + n) (buf ++ slice content pos n)
        (by rw [List.length_append, hslice]; have := hfirst.nonempty; omega)
        (by rw [List.length_append, hslice]; omega)
        (by rw [List.length_append, hslice]; omega)
        (by
          intro p m hp
          rw [List.length_append, hslice,
            show pos + n + (len - (buf.length + n)) = pos + (len - buf.length) by omega] at hp
          exact hpiece p m (hp.mono (by omega)))
      rw [walk_next hlt hn (hpiece pos n hfirst), hrest, List.append_assoc, List.length_append,
        hslice, slice_append_slice,
        show n + (len - (buf.length + n)) = len - buf.length by omega]
    · have hz : len - buf.length = 0 := by omega
      rw [walk_done (by omega), hz, slice_zero, List.append_nil]

/-- A range whose pieces are slices of one list is fetched as the slice of that list. -/
theorem walk_eq_slice (hunit : 0 < unit) (content : List α) (pos : ℕ)
    (hlen : pos + len ≤ content.length)
    (hpiece : ∀ p n, Piece unit pos (pos + len) p n → piece p n = .ok (slice content p n)) :
    walk unit stuck piece len len pos [] = .ok (slice content pos len) := by
  simpa using walk_eq_append hunit content len pos [] (by simp) (by simp)
    (by simpa using hlen) (by simpa using hpiece)

/-- Every element of a fetched range comes from a piece that covers its position. -/
theorem walk_ok (hunit : 0 < unit)
    (hlength : ∀ p n bytes, piece p n = .ok bytes → bytes.length = n) (fuel pos : ℕ)
    (buf out : List α) (hbuf : buf.length ≤ len)
    (h : walk unit stuck piece len fuel pos buf = .ok out) :
    ∃ rest, out = buf ++ rest ∧ out.length = len ∧
      ∀ i < rest.length, ∃ p n bytes, Piece unit pos (pos + (len - buf.length)) p n ∧
        piece p n = .ok bytes ∧ p ≤ pos + i ∧ pos + i < p + n ∧
        rest[i]? = bytes[pos + i - p]? := by
  induction fuel generalizing pos buf with
  | zero =>
    by_cases hle : len ≤ buf.length
    · rw [walk_done hle] at h
      cases h
      exact ⟨[], by simp, by omega, by simp⟩
    · simp [walk, hle] at h
  | succ fuel ih =>
    rcases Nat.lt_or_ge buf.length len with hlt | hge
    · have hfirst : Piece unit pos (pos + (len - buf.length)) pos _ := first_piece hunit hlt
      set n := min (unit - pos % unit) (len - buf.length) with hn
      cases hp : piece pos n with
      | error e => rw [walk, if_neg (by omega), ← hn, hp] at h; cases h
      | ok bytes =>
        rw [walk_next hlt hn hp] at h
        have hb : bytes.length = n := hlength pos n bytes hp
        have hstop := hfirst.le_stop
        obtain ⟨rest, hout, hl, hrest⟩ := ih (pos + n) (buf ++ bytes)
          (by rw [List.length_append, hb]; omega) h
        refine ⟨bytes ++ rest, by rw [hout, List.append_assoc], hl, ?_⟩
        intro i hi
        rcases Nat.lt_or_ge i n with hin | hin
        · refine ⟨pos, n, bytes, hfirst, hp, by omega, by omega, ?_⟩
          rw [List.getElem?_append_left (by omega)]
          congr 1
          omega
        · obtain ⟨p, m, bs, hpiece, hpm, h₁, h₂, h₃⟩ := hrest (i - n)
            (by rw [List.length_append] at hi; omega)
          rw [List.length_append, hb,
            show pos + n + (len - (buf.length + n)) = pos + (len - buf.length) by omega] at hpiece
          refine ⟨p, m, bs, hpiece.mono (by omega), hpm, by omega, by omega, ?_⟩
          rw [List.getElem?_append_right (by omega), hb, h₃]
          congr 1
          omega
    · rw [walk_done (by omega)] at h
      cases h
      exact ⟨[], by simp, by omega, by simp⟩

/-- A fetched range has the requested length, and each of its elements comes from a
piece that covers its position. -/
theorem getElem?_of_walk (hunit : 0 < unit)
    (hlength : ∀ p n bytes, piece p n = .ok bytes → bytes.length = n) {pos : ℕ} {out : List α}
    (h : walk unit stuck piece len len pos [] = .ok out) :
    out.length = len ∧ ∀ i < len, ∃ p n bytes, Piece unit pos (pos + len) p n ∧
      piece p n = .ok bytes ∧ p ≤ pos + i ∧ pos + i < p + n ∧
      out[i]? = bytes[pos + i - p]? := by
  obtain ⟨rest, hout, hl, hrest⟩ := walk_ok hunit hlength len pos [] out (by simp) h
  simp only [List.nil_append] at hout
  subst hout
  refine ⟨hl, fun i hi => ?_⟩
  simpa using hrest i (by omega)

/-- A range whose pieces can all be fetched can be fetched. -/
theorem walk_succeeds (hunit : 0 < unit)
    (hlength : ∀ p n bytes, piece p n = .ok bytes → bytes.length = n) (fuel pos : ℕ)
    (buf : List α) (hfuel : len ≤ buf.length + fuel)
    (hpiece : ∀ p n, Piece unit pos (pos + (len - buf.length)) p n → ∃ bytes, piece p n = .ok bytes) :
    ∃ out, walk unit stuck piece len fuel pos buf = .ok out := by
  induction fuel generalizing pos buf with
  | zero => exact ⟨buf, walk_done (by omega)⟩
  | succ fuel ih =>
    rcases Nat.lt_or_ge buf.length len with hlt | hge
    · have hfirst : Piece unit pos (pos + (len - buf.length)) pos _ := first_piece hunit hlt
      set n := min (unit - pos % unit) (len - buf.length) with hn
      obtain ⟨bytes, hp⟩ := hpiece pos n hfirst
      have hb := hlength pos n bytes hp
      have hstop := hfirst.le_stop
      have hpos := hfirst.nonempty
      rw [walk_next hlt hn hp]
      refine ih (pos + n) (buf ++ bytes) (by rw [List.length_append]; omega) fun p m hm => ?_
      rw [List.length_append, hb,
        show pos + n + (len - (buf.length + n)) = pos + (len - buf.length) by omega] at hm
      exact hpiece p m (hm.mono (by omega))
    · exact ⟨buf, walk_done hge⟩

/-- Where the part of a range from `pos` on begins that lies in unit `u`. -/
def partStart (unit pos u : ℕ) : ℕ := max pos (u * unit)

/-- How long the part is in unit `u` of a range from `pos` to `stop`. -/
def partLen (unit pos stop u : ℕ) : ℕ := min stop (u * unit + unit) - partStart unit pos u

theorem partLen_pos_iff (hunit : 0 < unit) {pos n u : ℕ} :
    0 < partLen unit pos (pos + n) u ↔ ∃ i < n, (pos + i) / unit = u := by
  rw [partLen, partStart]
  constructor
  · intro h
    refine ⟨max pos (u * unit) - pos, by omega, ?_⟩
    rw [show pos + (max pos (u * unit) - pos) = max pos (u * unit) by omega]
    exact Nat.div_eq_of_lt_le (by omega) (by rw [Nat.add_mul, Nat.one_mul]; omega)
  · rintro ⟨i, hi, rfl⟩
    have hmod := Nat.mod_lt (pos + i) hunit
    have hdiv := Nat.div_add_mod' (pos + i) unit
    omega

theorem partLen_pos (hunit : 0 < unit) (pos : ℕ) {n i : ℕ} (hi : i < n) :
    0 < partLen unit pos (pos + n) ((pos + i) / unit) :=
  (partLen_pos_iff hunit).2 ⟨i, hi, rfl⟩

/-- A part lies in its range. -/
theorem part_within {pos stop u : ℕ} (hu : 0 < partLen unit pos stop u) :
    pos ≤ partStart unit pos u ∧ partStart unit pos u + partLen unit pos stop u ≤ stop := by
  rw [partLen, partStart] at *
  omega

/-- The part in the unit of a position has the position. -/
theorem part_covers (hunit : 0 < unit) {pos stop p : ℕ} (hp : pos ≤ p) (hlt : p < stop) :
    partStart unit pos (p / unit) ≤ p ∧
      p < partStart unit pos (p / unit) + partLen unit pos stop (p / unit) := by
  have hmod := Nat.mod_lt p hunit
  have hdiv := Nat.div_add_mod' p unit
  rw [partLen, partStart]
  omega

/-- All positions of a part lie in its unit. -/
theorem part_div {pos stop u p : ℕ} (hu : 0 < partLen unit pos stop u)
    (hp : partStart unit pos u ≤ p) (hlt : p < partStart unit pos u + partLen unit pos stop u) :
    p / unit = u := by
  rw [partLen] at hu hlt
  have hle : u * unit ≤ partStart unit pos u := Nat.le_max_right _ _
  exact Nat.div_eq_of_lt_le (by omega) (by rw [Nat.add_mul, Nat.one_mul]; omega)

section Rounds

variable (hunit : 0 < unit) {pos n rem u : ℕ} (hn : n = min (unit - pos % unit) rem)
include hunit hn

private theorem part_first (hrem : 0 < rem) : partStart unit pos (pos / unit) = pos ∧
    partLen unit pos (pos + rem) (pos / unit) = n := by
  have hmod := Nat.mod_lt pos hunit
  have hdiv := Nat.div_add_mod' pos unit
  rw [partLen, partStart]
  omega

private theorem part_rest (hu : u ≠ pos / unit) :
    partLen unit pos (pos + rem) u = partLen unit (pos + n) (pos + n + (rem - n)) u ∧
      (0 < partLen unit pos (pos + rem) u → partStart unit pos u = partStart unit (pos + n) u ∧
        pos + n ≤ partStart unit pos u) := by
  have hmod := Nat.mod_lt pos hunit
  have hdiv := Nat.div_add_mod' pos unit
  rw [partLen, partLen, partStart, partStart]
  rcases Nat.lt_or_gt_of_ne hu with hlt | hgt
  · have hmul := Nat.mul_le_mul_right unit (Nat.succ_le_of_lt hlt)
    rw [Nat.succ_mul] at hmul
    omega
  · have hmul := Nat.mul_le_mul_right unit (Nat.succ_le_of_lt hgt)
    rw [Nat.succ_mul] at hmul
    omega

private theorem part_first_over : partLen unit (pos + n) (pos + n + (rem - n)) (pos / unit) = 0 := by
  have hmod := Nat.mod_lt pos hunit
  have hdiv := Nat.div_add_mod' pos unit
  rw [partLen, partStart]
  omega

end Rounds

/-- Every part of the range at `pos` is fetched as its place in `xs`. -/
def Fetched (unit : ℕ) (piece : ℕ → ℕ → Except ε (List α)) (pos : ℕ) (xs : List α) : Prop :=
  ∀ u, 0 < partLen unit pos (pos + xs.length) u →
    piece (partStart unit pos u) (partLen unit pos (pos + xs.length) u) =
      .ok (slice xs (partStart unit pos u - pos) (partLen unit pos (pos + xs.length) u))

theorem fetched_nil (pos : ℕ) : Fetched unit piece pos [] := by
  intro u hu
  rw [partLen, partStart, List.length_nil] at hu
  omega

private theorem fetched_round (hunit : 0 < unit) {pos n : ℕ} {xs : List α} (hxs : 0 < xs.length)
    (hn : n = min (unit - pos % unit) xs.length) :
    Fetched unit piece pos xs ↔
      piece pos n = .ok (xs.take n) ∧ Fetched unit piece (pos + n) (xs.drop n) := by
  obtain ⟨hstart, hlen⟩ := part_first hunit hn hxs
  constructor
  · intro h
    refine ⟨?_, fun u hu => ?_⟩
    · have hfirst := h (pos / unit)
      rw [hstart, hlen, Nat.sub_self] at hfirst
      exact hfirst (by have := Nat.mod_lt pos hunit; omega)
    · rw [List.length_drop] at hu ⊢
      by_cases hne : u = pos / unit
      · rw [hne, part_first_over hunit hn] at hu
        exact absurd hu (Nat.lt_irrefl 0)
      · obtain ⟨hsame, hplace⟩ := part_rest hunit hn hne
        rw [← hsame] at hu ⊢
        obtain ⟨hsame', hle⟩ := hplace hu
        rw [← hsame', h u hu, slice, slice, List.drop_drop]
        congr 3
        omega
  · rintro ⟨hfirst, hrest⟩ u hu
    by_cases hne : u = pos / unit
    · rw [hne, hstart, hlen, hfirst, Nat.sub_self]
      rfl
    · obtain ⟨hsame, hplace⟩ := part_rest hunit hn hne
      obtain ⟨hsame', hle⟩ := hplace hu
      have hu' := hrest u
      rw [List.length_drop, ← hsame, ← hsame'] at hu'
      rw [hu' hu, slice, slice, List.drop_drop]
      congr 3
      omega

private theorem walk_ok_iff_done {fuel pos : ℕ} {buf out : List α} (h : buf.length = len) :
    walk unit stuck piece len fuel pos buf = .ok out ↔
      ∃ rest, out = buf ++ rest ∧ rest.length = len - buf.length ∧ Fetched unit piece pos rest := by
  rw [walk_done (Nat.le_of_eq h.symm)]
  constructor
  · intro hok
    cases hok
    exact ⟨[], (List.append_nil buf).symm, by rw [List.length_nil]; omega, fetched_nil pos⟩
  · rintro ⟨rest, rfl, hrest, -⟩
    rw [List.length_eq_zero_iff.1 (show rest.length = 0 by omega), List.append_nil]

/-- A range is fetched exactly when its parts are, one in each unit, and is made up of them. -/
theorem walk_ok_iff (hunit : 0 < unit)
    (hlength : ∀ p n bytes, piece p n = .ok bytes → bytes.length = n) {fuel pos : ℕ}
    {buf out : List α} (hfuel : len ≤ buf.length + fuel) (hbuf : buf.length ≤ len) :
    walk unit stuck piece len fuel pos buf = .ok out ↔
      ∃ rest, out = buf ++ rest ∧ rest.length = len - buf.length ∧ Fetched unit piece pos rest := by
  induction fuel generalizing pos buf with
  | zero => exact walk_ok_iff_done (by omega)
  | succ fuel ih =>
    rcases Nat.eq_or_lt_of_le hbuf with hdone | hlt
    · exact walk_ok_iff_done hdone
    · obtain ⟨n, hn⟩ : ∃ n, n = min (unit - pos % unit) (len - buf.length) := ⟨_, rfl⟩
      have hmod := Nat.mod_lt pos hunit
      cases hp : piece pos n with
      | error e =>
        rw [walk, if_neg (by omega), ← hn, hp]
        constructor
        · intro h
          cases h
        · rintro ⟨rest, -, hrest, hall⟩
          have hround : n = min (unit - pos % unit) rest.length := by rw [hrest]; exact hn
          have hfirst := ((fetched_round hunit (by omega) hround).1 hall).1
          rw [hp] at hfirst
          cases hfirst
      | ok bytes =>
        have hb := hlength pos n bytes hp
        have hnext : (buf ++ bytes).length = buf.length + n := by rw [List.length_append, hb]
        rw [walk_next hlt hn hp, ih (by omega) (by omega)]
        constructor
        · rintro ⟨rest, rfl, hrest, hall⟩
          have hlen : (bytes ++ rest).length = len - buf.length := by
            rw [List.length_append]
            omega
          have hround : n = min (unit - pos % unit) (bytes ++ rest).length := by rw [hlen]; exact hn
          refine ⟨bytes ++ rest, List.append_assoc _ _ _, hlen, ?_⟩
          rw [fetched_round hunit (by omega) hround, List.take_left' hb, List.drop_left' hb]
          exact ⟨hp, hall⟩
        · rintro ⟨rest, rfl, hrest, hall⟩
          have hround : n = min (unit - pos % unit) rest.length := by rw [hrest]; exact hn
          obtain ⟨hfirst, hall⟩ := (fetched_round hunit (by omega) hround).1 hall
          cases hp.symm.trans hfirst
          refine ⟨rest.drop n, ?_, by rw [List.length_drop]; omega, hall⟩
          rw [List.append_assoc, List.take_append_drop]

/-- A range that is not fetched is not for one of its parts. -/
theorem part_of_walk_error (hunit : 0 < unit) {fuel pos : ℕ} {buf : List α} {e : ε}
    (hfuel : len ≤ buf.length + fuel)
    (hlength : ∀ p n bytes, piece p n = .ok bytes → bytes.length = n)
    (h : walk unit stuck piece len fuel pos buf = .error e) :
    ∃ u, 0 < partLen unit pos (pos + (len - buf.length)) u ∧
      piece (partStart unit pos u) (partLen unit pos (pos + (len - buf.length)) u) = .error e := by
  induction fuel generalizing pos buf with
  | zero =>
    rw [walk_done (by omega)] at h
    cases h
  | succ fuel ih =>
    rcases Nat.lt_or_ge buf.length len with hlt | hge
    · obtain ⟨n, hn⟩ : ∃ n, n = min (unit - pos % unit) (len - buf.length) := ⟨_, rfl⟩
      have hmod := Nat.mod_lt pos hunit
      obtain ⟨hstart, hlen⟩ := part_first hunit hn (by omega)
      cases hp : piece pos n with
      | error e' =>
        rw [walk, if_neg (by omega), ← hn, hp] at h
        cases h
        exact ⟨pos / unit, by omega, by rw [hstart, hlen, hp]⟩
      | ok bytes =>
        have hb := hlength pos n bytes hp
        rw [walk_next hlt hn hp] at h
        obtain ⟨u, hu, herror⟩ := ih (by rw [List.length_append]; omega) h
        rw [List.length_append, hb, ← Nat.sub_sub] at hu herror
        have hne : u ≠ pos / unit := by
          rintro rfl
          rw [part_first_over hunit hn] at hu
          exact absurd hu (Nat.lt_irrefl 0)
        obtain ⟨hsame, hplace⟩ := part_rest hunit hn hne
        rw [← hsame] at hu herror
        exact ⟨u, hu, by rw [(hplace hu).1]; exact herror⟩
    · rw [walk_done hge] at h
      cases h

end XBoot.UnitWalk
