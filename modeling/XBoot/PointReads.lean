import XBoot.UnitWalk

/-!
# Reads that are determined position by position

Some positions have an element and others cannot be read. A reader that returns a range exactly
when all of its positions have elements, and then these, may be asked for the range at once
or in pieces.
-/

namespace XBoot.PointReads

open ListSlices UnitWalk

variable {α ε : Type} {cells cells' : ℕ → Option α} {offset len m n : ℕ} {xs ys : List α}

/-- The positions from `offset` on have these elements. -/
structure Spells (cells : ℕ → Option α) (offset len : ℕ) (xs : List α) : Prop where
  length_eq : xs.length = len
  getElem?_eq : ∀ i < len, xs[i]? = cells (offset + i)

theorem spells_zero : Spells cells offset 0 xs ↔ xs = [] :=
  ⟨fun h => List.eq_nil_of_length_eq_zero h.length_eq, fun h => h ▸ ⟨rfl, by simp⟩⟩

theorem Spells.unique (h : Spells cells offset len xs) (h' : Spells cells offset len ys) : xs = ys := by
  apply List.ext_getElem?
  intro i
  rcases Nat.lt_or_ge i len with hi | hi
  · rw [h.getElem?_eq i hi, h'.getElem?_eq i hi]
  · rw [List.getElem?_eq_none (by rw [h.length_eq]; exact hi),
      List.getElem?_eq_none (by rw [h'.length_eq]; exact hi)]

/-- Two ranges whose positions have the same elements. -/
theorem spells_congr {offset' : ℕ} (h : ∀ i < len, cells (offset + i) = cells' (offset' + i)) :
    Spells cells offset len xs ↔ Spells cells' offset' len xs := by
  constructor
  · intro hxs
    exact ⟨hxs.length_eq, fun i hi => (hxs.getElem?_eq i hi).trans (h i hi)⟩
  · intro hxs
    exact ⟨hxs.length_eq, fun i hi => (hxs.getElem?_eq i hi).trans (h i hi).symm⟩

/-- A range is spelled out by its two parts. -/
theorem spells_append (hm : xs.length = m) :
    Spells cells offset (m + n) (xs ++ ys) ↔
      Spells cells offset m xs ∧ Spells cells (offset + m) n ys := by
  constructor
  · intro h
    have hlen := h.length_eq
    rw [List.length_append, hm] at hlen
    refine ⟨⟨hm, fun i hi => ?_⟩, Nat.add_left_cancel hlen, fun i hi => ?_⟩
    · rw [← h.getElem?_eq i (by omega), List.getElem?_append_left (by omega)]
    · rw [Nat.add_assoc, ← h.getElem?_eq (m + i) (by omega), List.getElem?_append_right (by omega), hm,
        Nat.add_sub_cancel_left]
  · rintro ⟨h, h'⟩
    refine ⟨by rw [List.length_append, hm, h'.length_eq], fun i hi => ?_⟩
    rcases Nat.lt_or_ge i m with him | him
    · rw [List.getElem?_append_left (by omega), h.getElem?_eq i him]
    · rw [List.getElem?_append_right (by omega), hm, h'.getElem?_eq (i - m) (by omega)]
      congr 1
      omega

/-- A part of a range that is spelled out. -/
theorem Spells.slice (h : Spells cells offset len xs) {o : ℕ} (hin : o + n ≤ len) :
    Spells cells (offset + o) n (slice xs o n) := by
  refine ⟨length_slice (by rw [h.length_eq]; exact hin), fun i hi => ?_⟩
  rw [getElem?_slice, if_pos hi, h.getElem?_eq (o + i) (by omega), Nat.add_assoc]

/-- A range is spelled out by some list when all its positions have elements. -/
theorem exists_spells_iff :
    (∃ xs, Spells cells offset len xs) ↔ ∀ i < len, (cells (offset + i)).isSome = true := by
  constructor
  · rintro ⟨xs, h⟩ i hi
    rw [← h.getElem?_eq i hi, List.getElem?_eq_getElem (by rw [h.length_eq]; exact hi)]
    rfl
  · intro h
    induction len with
    | zero => exact ⟨[], spells_zero.2 rfl⟩
    | succ len ih =>
      obtain ⟨xs, hxs⟩ := ih fun i hi => h i (Nat.lt_succ_of_lt hi)
      obtain ⟨x, hx⟩ := Option.isSome_iff_exists.1 (h len (Nat.lt_succ_self len))
      refine ⟨xs ++ [x], (spells_append hxs.length_eq).2 ⟨hxs, rfl, fun i hi => ?_⟩⟩
      obtain rfl : i = 0 := by omega
      exact hx.symm

/-- The elements of a list at their own positions. -/
theorem spells_list {content : List α} (hlen : 0 < len) :
    Spells (fun p => content[p]?) offset len xs ↔
      offset + len ≤ content.length ∧ xs = slice content offset len := by
  constructor
  · intro h
    have hlast := (exists_spells_iff.1 ⟨xs, h⟩) (len - 1) (by omega)
    rw [isSome_getElem?] at hlast
    have hin : offset + len ≤ content.length := by omega
    refine ⟨hin, h.unique ⟨length_slice hin, fun i hi => ?_⟩⟩
    rw [getElem?_slice, if_pos hi]
  · rintro ⟨hin, rfl⟩
    refine ⟨length_slice hin, fun i hi => ?_⟩
    rw [getElem?_slice, if_pos hi]

variable {unit : ℕ} {stuck : ε} {piece : ℕ → ℕ → Except ε (List α)}

private theorem walk_spells_done {fuel pos : ℕ} {buf out : List α} (hle : len ≤ buf.length) :
    walk unit stuck piece len fuel pos buf = .ok out ↔
      ∃ rest, out = buf ++ rest ∧ Spells cells pos (len - buf.length) rest := by
  rw [walk_done hle, Nat.sub_eq_zero_of_le hle]
  simp only [spells_zero, exists_eq_right, List.append_nil, Except.ok.injEq]
  exact eq_comm

/-- A range whose pieces are determined position by position is itself. -/
theorem walk_spells (hunit : 0 < unit) {fuel pos stop : ℕ} {buf out : List α}
    (hstop : pos + (len - buf.length) = stop) (hfuel : len ≤ buf.length + fuel)
    (hpiece : ∀ p n, Piece unit pos stop p n → ∀ xs, piece p n = .ok xs ↔ Spells cells p n xs) :
    walk unit stuck piece len fuel pos buf = .ok out ↔
      ∃ rest, out = buf ++ rest ∧ Spells cells pos (len - buf.length) rest := by
  induction fuel generalizing pos buf with
  | zero => exact walk_spells_done (by omega)
  | succ fuel ih =>
    rcases Nat.lt_or_ge buf.length len with hlt | hge
    · have hfirst : Piece unit pos (pos + (len - buf.length)) pos _ := first_piece hunit hlt
      obtain ⟨n, hn⟩ : ∃ n, n = min (unit - pos % unit) (len - buf.length) := ⟨_, rfl⟩
      rw [← hn, hstop] at hfirst
      have hpos := hfirst.nonempty
      have hle := hfirst.le_stop
      have hsplit : len - buf.length = n + (len - (buf.length + n)) := by omega
      rw [hsplit]
      cases hp : piece pos n with
      | error e =>
        rw [walk, if_neg (by omega), ← hn, hp]
        refine iff_of_false (by simp) ?_
        rintro ⟨rest, -, hrest⟩
        have hread := (hpiece pos n hfirst _).2 (by simpa using hrest.slice (o := 0) (n := n) (by omega))
        rw [hp] at hread
        cases hread
      | ok xs =>
        have hxs := (hpiece pos n hfirst xs).1 hp
        have hnext : (buf ++ xs).length = buf.length + n := by rw [List.length_append, hxs.length_eq]
        rw [walk_next hlt hn hp, ih (by rw [hnext]; omega) (by rw [hnext]; omega)
          fun p m hm => hpiece p m (hm.mono (Nat.le_add_right pos n)), hnext]
        constructor
        · rintro ⟨rest, rfl, hrest⟩
          exact ⟨xs ++ rest, List.append_assoc _ _ _, (spells_append hxs.length_eq).2 ⟨hxs, hrest⟩⟩
        · rintro ⟨rest, rfl, hrest⟩
          have htake : (rest.take n).length = n := by
            rw [List.length_take, hrest.length_eq]
            omega
          rw [← List.take_append_drop n rest] at hrest
          obtain ⟨hfirst, hdrop⟩ := (spells_append htake).1 hrest
          refine ⟨rest.drop n, ?_, hdrop⟩
          rw [hxs.unique hfirst, List.append_assoc, List.take_append_drop]
    · exact walk_spells_done hge

end XBoot.PointReads
