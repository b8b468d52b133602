import XBoot.BackingStore
import XBoot.BigEndian

/-!
# What a read of allocation units returns

`read_units` succeeds exactly when the range is inside the image and each unit of it is
located and can be read, and every byte then is a zero or the byte at its place in the
unit. A range may as well be read in pieces.
-/

namespace XBoot.Storage

open ListSlices UnitWalk BigEndian

variable {virtualSize unitSize offset len : ℕ} {locate : ℕ → Outcome UnitPlace}
  {readPhys : ℕ → ℕ → Outcome (List UInt8)} {phys : ℕ → UInt8} {bytes : List UInt8}

/-- A physical read fills the buffer with the bytes at its positions, or it fails. -/
def FillsFrom (readPhys : ℕ → ℕ → Outcome (List UInt8)) (phys : ℕ → UInt8) : Prop :=
  ∀ p n bytes, readPhys p n = .ok bytes →
    bytes.length = n ∧ ∀ i < n, bytes[i]? = some (phys (p + i))

/-- A physical read fails only for a position that cannot be read. -/
def FailsAt (readPhys : ℕ → ℕ → Outcome (List UInt8)) (readable : ℕ → Prop) : Prop :=
  ∀ p n, 0 < n → ((∃ bytes, readPhys p n = .ok bytes) ↔ ∀ i < n, readable (p + i))

/-- No unit is located where its positions pass `2 ^ 64`. -/
def PlacesFit (unitSize : ℕ) (locate : ℕ → Outcome UnitPlace) : Prop :=
  ∀ u base, locate u = .ok (.at base) → base + unitSize < 2 ^ 64

/-- Unit `u` is located, and unless it reads as zeros, the part of it in the range can be read. -/
def UnitServed (unitSize : ℕ) (locate : ℕ → Outcome UnitPlace)
    (readPhys : ℕ → ℕ → Outcome (List UInt8)) (offset len u : ℕ) : Prop :=
  locate u = .ok .zero ∨ ∃ base bytes, locate u = .ok (.at base) ∧
    readPhys (base + (partStart unitSize offset u - u * unitSize))
      (partLen unitSize offset (offset + len) u) = .ok bytes

/-- The byte at position `p` of the image: a zero, or at its place in its unit. -/
def unitByte (unitSize : ℕ) (locate : ℕ → Outcome UnitPlace) (phys : ℕ → UInt8) (p : ℕ) :
    Option UInt8 :=
  match locate (p / unitSize) with
  | .error _ => none
  | .ok .zero => some 0
  | .ok (.at base) => some (phys (base + p % unitSize))

/-- The range is inside the image, and each unit of it is served. -/
structure RangeServed (virtualSize unitSize : ℕ) (locate : ℕ → Outcome UnitPlace)
    (readPhys : ℕ → ℕ → Outcome (List UInt8)) (offset len : ℕ) : Prop where
  no_overflow : offset + len < 2 ^ 64
  le_size : offset + len ≤ virtualSize
  units : ∀ i < len, UnitServed unitSize locate readPhys offset len ((offset + i) / unitSize)

/-- The range is read piece by piece, `n` bytes for each `n` of the list. -/
def readPieces (virtualSize unitSize : ℕ) (locate : ℕ → Outcome UnitPlace)
    (readPhys : ℕ → ℕ → Outcome (List UInt8)) : ℕ → List ℕ → Outcome (List UInt8)
  | _, [] => .ok []
  | offset, n :: rest => match readUnits virtualSize unitSize locate readPhys offset n with
    | .error e => .error e
    | .ok bytes => match readPieces virtualSize unitSize locate readPhys (offset + n) rest with
      | .error e => .error e
      | .ok more => .ok (bytes ++ more)

private theorem length_readUnit (hphys : FillsFrom readPhys phys) (p n : ℕ) (bytes : List UInt8)
    (h : readUnit unitSize locate readPhys p n = .ok bytes) : bytes.length = n := by
  rw [readUnit] at h
  split at h
  · cases h
  · cases h
    exact List.length_replicate
  · split at h
    · cases h
    · exact (hphys _ _ _ h).1

private theorem readUnit_part (hunit : 0 < unitSize) (hfit : PlacesFit unitSize locate) {stop u : ℕ}
    (hu : 0 < partLen unitSize offset stop u) :
    readUnit unitSize locate readPhys (partStart unitSize offset u)
      (partLen unitSize offset stop u) = match locate u with
    | .error e => .error e
    | .ok .zero => .ok (List.replicate (partLen unitSize offset stop u) 0)
    | .ok (.at base) => readPhys (base + (partStart unitSize offset u - u * unitSize))
        (partLen unitSize offset stop u) := by
  have hstart : partStart unitSize offset u / unitSize = u :=
    part_div hu (Nat.le_refl _) (Nat.lt_add_of_pos_right hu)
  have hmod := Nat.div_add_mod' (partStart unitSize offset u) unitSize
  have hlt := Nat.mod_lt (partStart unitSize offset u) hunit
  rw [hstart] at hmod
  rw [readUnit, hstart, show partStart unitSize offset u % unitSize =
    partStart unitSize offset u - u * unitSize by omega]
  cases hplace : locate u with
  | error e => rfl
  | ok place =>
    cases place with
    | zero => rfl
    | «at» base =>
      have hbase := hfit u base hplace
      exact if_neg (by omega)

private theorem unitByte_part {stop u j : ℕ} (hu : 0 < partLen unitSize offset stop u)
    (hj : j < partLen unitSize offset stop u) :
    unitByte unitSize locate phys (partStart unitSize offset u + j) = match locate u with
    | .error _ => none
    | .ok .zero => some 0
    | .ok (.at base) => some (phys (base + (partStart unitSize offset u - u * unitSize) + j)) := by
  have hdiv : (partStart unitSize offset u + j) / unitSize = u :=
    part_div hu (Nat.le_add_right _ _) (Nat.add_lt_add_left hj _)
  have hmod := Nat.div_add_mod' (partStart unitSize offset u + j) unitSize
  have hle : u * unitSize ≤ partStart unitSize offset u := Nat.le_max_right _ _
  rw [hdiv] at hmod
  rw [unitByte, hdiv]
  cases locate u with
  | error e => rfl
  | ok place =>
    cases place with
    | zero => rfl
    | «at» base =>
      dsimp only
      congr 2
      omega

private theorem readUnit_part_ok_iff (hunit : 0 < unitSize) (hphys : FillsFrom readPhys phys)
    (hfit : PlacesFit unitSize locate) {u : ℕ}
    (hu : 0 < partLen unitSize offset (offset + len) u) :
    readUnit unitSize locate readPhys (partStart unitSize offset u)
        (partLen unitSize offset (offset + len) u) = .ok bytes ↔
      UnitServed unitSize locate readPhys offset len u ∧
        bytes.length = partLen unitSize offset (offset + len) u ∧
        ∀ j < partLen unitSize offset (offset + len) u,
          bytes[j]? = unitByte unitSize locate phys (partStart unitSize offset u + j) := by
  have hbyte : ∀ j < partLen unitSize offset (offset + len) u,
      unitByte unitSize locate phys (partStart unitSize offset u + j) = _ :=
    fun j hj => unitByte_part hu hj
  rw [readUnit_part hunit hfit hu, UnitServed]
  generalize partLen unitSize offset (offset + len) u = n at *
  cases hplace : locate u with
  | error e => simp
  | ok place =>
    rw [hplace] at hbyte
    cases place with
    | zero =>
      simp only at hbyte ⊢
      constructor
      · intro h
        cases h
        refine ⟨.inl trivial, List.length_replicate, fun j hj => ?_⟩
        rw [hbyte j hj, List.getElem?_replicate, if_pos hj]
      · rintro ⟨-, hlen, hall⟩
        congr 1
        apply List.ext_getElem?
        intro j
        rw [List.getElem?_replicate]
        split
        · rename_i hj
          rw [hall j hj, hbyte j hj]
        · exact (List.getElem?_eq_none (by omega)).symm
    | «at» base =>
      simp only at hbyte ⊢
      constructor
      · intro h
        obtain ⟨hlen, hall⟩ := hphys _ _ _ h
        exact ⟨.inr ⟨base, bytes, rfl, h⟩, hlen, fun j hj => by rw [hall j hj, hbyte j hj]⟩
      · rintro ⟨hserved, hlen, hall⟩
        obtain ⟨base', read, hsame, hread⟩ := hserved.resolve_left (by simp)
        cases hsame
        obtain ⟨hlen', hall'⟩ := hphys _ _ _ hread
        rw [hread]
        congr 1
        apply List.ext_getElem?
        intro j
        rcases Nat.lt_or_ge j n with hj | hj
        · rw [hall' j hj, hall j hj, hbyte j hj]
        · rw [List.getElem?_eq_none (by omega), List.getElem?_eq_none (by omega)]

private theorem fetched_iff (hunit : 0 < unitSize) (hphys : FillsFrom readPhys phys)
    (hfit : PlacesFit unitSize locate) (hlen : bytes.length = len) :
    Fetched unitSize (readUnit unitSize locate readPhys) offset bytes ↔
      (∀ i < len, UnitServed unitSize locate readPhys offset len ((offset + i) / unitSize)) ∧
        ∀ i < len, bytes[i]? = unitByte unitSize locate phys (offset + i) := by
  rw [Fetched, hlen]
  constructor
  · intro h
    have hpart : ∀ i < len, 0 < partLen unitSize offset (offset + len) ((offset + i) / unitSize) :=
      fun i hi => partLen_pos hunit offset hi
    refine ⟨fun i hi => ?_, fun i hi => ?_⟩
    · exact ((readUnit_part_ok_iff hunit hphys hfit (hpart i hi)).1 (h _ (hpart i hi))).1
    · obtain ⟨hle, hlt⟩ := part_covers hunit (Nat.le_add_right offset i) (Nat.add_lt_add_left hi _)
      obtain ⟨hstart, -⟩ := part_within (hpart i hi)
      obtain ⟨-, -, hall⟩ := (readUnit_part_ok_iff hunit hphys hfit (hpart i hi)).1 (h _ (hpart i hi))
      have hbyte := hall (offset + i - partStart unitSize offset ((offset + i) / unitSize)) (by omega)
      rw [getElem?_slice, if_pos (by omega), Nat.add_sub_cancel' hle] at hbyte
      rw [← hbyte]
      congr 1
      omega
  · rintro ⟨hserved, hbytes⟩ u hu
    obtain ⟨i, hi, rfl⟩ := (partLen_pos_iff hunit).1 hu
    obtain ⟨hstart, hstop⟩ := part_within hu
    refine (readUnit_part_ok_iff hunit hphys hfit hu).2 ⟨hserved i hi, ?_, fun j hj => ?_⟩
    · exact length_slice (by omega)
    · rw [getElem?_slice, if_pos hj, hbytes _ (by omega)]
      congr 1
      omega

/-- When a read succeeds, and with which bytes. -/
theorem readUnits_eq_ok_iff (hunit : 0 < unitSize) (hphys : FillsFrom readPhys phys)
    (hfit : PlacesFit unitSize locate) :
    readUnits virtualSize unitSize locate readPhys offset len = .ok bytes ↔
      RangeServed virtualSize unitSize locate readPhys offset len ∧
        bytes.length = len ∧ ∀ i < len, bytes[i]? = unitByte unitSize locate phys (offset + i) := by
  rw [readUnits, if_neg (Nat.ne_of_gt hunit)]
  constructor
  · intro h
    split at h
    · cases h
    · rename_i hrange
      obtain ⟨hoverflow, hsize⟩ := checkReadRange_eq_ok.1 hrange
      obtain ⟨rest, rfl, hrest, hall⟩ := (walk_ok_iff hunit (length_readUnit hphys) (by simp)
        (Nat.zero_le _)).1 h
      obtain ⟨hserved, hbytes⟩ := (fetched_iff hunit hphys hfit hrest).1 hall
      exact ⟨⟨hoverflow, hsize, hserved⟩, hrest, hbytes⟩
  · rintro ⟨⟨hoverflow, hsize, hserved⟩, hlen, hbytes⟩
    rw [checkReadRange_eq_ok.2 ⟨hoverflow, hsize⟩]
    exact (walk_ok_iff hunit (length_readUnit hphys) (by simp) (Nat.zero_le _)).2
      ⟨bytes, rfl, hlen, (fetched_iff hunit hphys hfit hlen).2 ⟨hserved, hbytes⟩⟩

/-- A served range has bytes, which are then what is read. -/
theorem readUnits_succeeds_iff (hunit : 0 < unitSize) (hphys : FillsFrom readPhys phys)
    (hfit : PlacesFit unitSize locate) :
    (∃ bytes, readUnits virtualSize unitSize locate readPhys offset len = .ok bytes) ↔
      RangeServed virtualSize unitSize locate readPhys offset len := by
  constructor
  · rintro ⟨bytes, h⟩
    exact ((readUnits_eq_ok_iff hunit hphys hfit).1 h).1
  · intro h
    refine ⟨(List.range len).map fun i => (unitByte unitSize locate phys (offset + i)).getD 0, ?_⟩
    refine (readUnits_eq_ok_iff hunit hphys hfit).2 ⟨h, by simp, fun i hi => ?_⟩
    rw [List.getElem?_map, List.getElem?_range hi, Option.map_some, unitByte]
    rcases h.units i hi with hzero | ⟨base, read, hbase, -⟩
    · rw [hzero]
      rfl
    · rw [hbase]
      rfl

private theorem readPieces_bytes (hunit : 0 < unitSize) (hphys : FillsFrom readPhys phys)
    (hfit : PlacesFit unitSize locate) {lens : List ℕ}
    (h : readPieces virtualSize unitSize locate readPhys offset lens = .ok bytes) :
    bytes.length = lens.sum ∧
      ∀ i < lens.sum, bytes[i]? = unitByte unitSize locate phys (offset + i) := by
  induction lens generalizing offset bytes with
  | nil =>
    cases h
    exact ⟨rfl, by simp⟩
  | cons n lens ih =>
    rw [readPieces] at h
    split at h
    · cases h
    · rename_i first hfirst
      split at h
      · cases h
      · rename_i more hmore
        cases h
        obtain ⟨-, hlen, hall⟩ := (readUnits_eq_ok_iff hunit hphys hfit).1 hfirst
        obtain ⟨hlen', hall'⟩ := ih hmore
        rw [List.length_append, List.sum_cons]
        refine ⟨by omega, fun i hi => ?_⟩
        rcases Nat.lt_or_ge i n with hin | hin
        · rw [List.getElem?_append_left (by omega), hall i hin]
        · rw [List.getElem?_append_right (by omega), hlen, hall' (i - n) (by omega)]
          congr 1
          omega

variable {readable : ℕ → Prop}

/-- The byte at position `p` of the image can be read. -/
def Available (unitSize : ℕ) (locate : ℕ → Outcome UnitPlace) (readable : ℕ → Prop) (p : ℕ) :
    Prop :=
  locate (p / unitSize) = .ok .zero ∨
    ∃ base, locate (p / unitSize) = .ok (.at base) ∧ readable (base + p % unitSize)

private theorem unitServed_iff (hfails : FailsAt readPhys readable) {u : ℕ}
    (hu : 0 < partLen unitSize offset (offset + len) u) :
    UnitServed unitSize locate readPhys offset len u ↔
      ∀ j < partLen unitSize offset (offset + len) u,
        Available unitSize locate readable (partStart unitSize offset u + j) := by
  have hplace : ∀ j < partLen unitSize offset (offset + len) u,
      Available unitSize locate readable (partStart unitSize offset u + j) ↔
        locate u = .ok .zero ∨ ∃ base, locate u = .ok (.at base) ∧
          readable (base + (partStart unitSize offset u - u * unitSize) + j) := by
    intro j hj
    have hdiv := part_div hu (Nat.le_add_right _ j) (Nat.add_lt_add_left hj _)
    have hmod := Nat.div_add_mod' (partStart unitSize offset u + j) unitSize
    have hle : u * unitSize ≤ partStart unitSize offset u := Nat.le_max_right _ _
    rw [hdiv] at hmod
    rw [Available, hdiv, show (partStart unitSize offset u + j) % unitSize =
      partStart unitSize offset u - u * unitSize + j by omega]
    simp only [Nat.add_assoc]
  constructor
  · rintro (hzero | ⟨base, bytes, hbase, hread⟩) j hj
    · exact (hplace j hj).2 (.inl hzero)
    · exact (hplace j hj).2 (.inr ⟨base, hbase, (hfails _ _ hu).1 ⟨bytes, hread⟩ j hj⟩)
  · intro h
    rcases (hplace 0 hu).1 (h 0 hu) with hzero | ⟨base, hbase, -⟩
    · exact .inl hzero
    · have hreadable : ∀ j < partLen unitSize offset (offset + len) u,
          readable (base + (partStart unitSize offset u - u * unitSize) + j) := by
        intro j hj
        have hj' := (hplace j hj).1 (h j hj)
        rw [hbase] at hj'
        obtain ⟨base', hsame, hread⟩ := hj'.resolve_left (by simp)
        cases hsame
        exact hread
      obtain ⟨bytes, hread⟩ := (hfails _ _ hu).2 hreadable
      exact .inr ⟨base, bytes, hbase, hread⟩

private theorem unitsServed_iff (hunit : 0 < unitSize) (hfails : FailsAt readPhys readable) :
    (∀ i < len, UnitServed unitSize locate readPhys offset len ((offset + i) / unitSize)) ↔
      ∀ i < len, Available unitSize locate readable (offset + i) := by
  constructor
  · intro h i hi
    obtain ⟨hle, hlt⟩ := part_covers hunit (Nat.le_add_right offset i) (Nat.add_lt_add_left hi _)
    have hpart := (unitServed_iff hfails (partLen_pos hunit offset hi)).1 (h i hi)
      (offset + i - partStart unitSize offset ((offset + i) / unitSize)) (by omega)
    rwa [Nat.add_sub_cancel' hle] at hpart
  · intro h i hi
    have hu := partLen_pos hunit offset hi
    obtain ⟨hstart, hstop⟩ := part_within hu
    refine (unitServed_iff hfails hu).2 fun j hj => ?_
    have hposition := h (partStart unitSize offset ((offset + i) / unitSize) + j - offset) (by omega)
    rwa [Nat.add_sub_cancel' (by omega)] at hposition

/-- The range is inside the image, and its bytes are available. -/
structure RangeAvailable (virtualSize unitSize : ℕ) (locate : ℕ → Outcome UnitPlace)
    (readable : ℕ → Prop) (offset len : ℕ) : Prop where
  no_overflow : offset + len < 2 ^ 64
  le_size : offset + len ≤ virtualSize
  bytes : ∀ i < len, Available unitSize locate readable (offset + i)

theorem readUnits_succeeds_iff_available (hunit : 0 < unitSize) (hphys : FillsFrom readPhys phys)
    (hfit : PlacesFit unitSize locate) (hfails : FailsAt readPhys readable) :
    (∃ bytes, readUnits virtualSize unitSize locate readPhys offset len = .ok bytes) ↔
      RangeAvailable virtualSize unitSize locate readable offset len := by
  rw [readUnits_succeeds_iff hunit hphys hfit]
  exact ⟨fun h => ⟨h.no_overflow, h.le_size, (unitsServed_iff hunit hfails).1 h.units⟩,
    fun h => ⟨h.no_overflow, h.le_size, (unitsServed_iff hunit hfails).2 h.bytes⟩⟩

/-- Two ranges, one behind the other, are available when both are. -/
theorem rangeAvailable_add {n rest : ℕ} :
    RangeAvailable virtualSize unitSize locate readable offset (n + rest) ↔
      RangeAvailable virtualSize unitSize locate readable offset n ∧
        RangeAvailable virtualSize unitSize locate readable (offset + n) rest := by
  constructor
  · rintro ⟨hoverflow, hsize, hall⟩
    refine ⟨⟨by omega, by omega, fun i hi => hall i (by omega)⟩, by omega, by omega, fun i hi => ?_⟩
    rw [Nat.add_assoc]
    exact hall (n + i) (by omega)
  · rintro ⟨⟨-, -, hall⟩, hoverflow, hsize, hall'⟩
    refine ⟨by omega, by omega, fun i hi => ?_⟩
    rcases Nat.lt_or_ge i n with hin | hin
    · exact hall i hin
    · have hrest := hall' (i - n) (by omega)
      rwa [show offset + n + (i - n) = offset + i by omega] at hrest

private theorem readPieces_succeeds_iff (hunit : 0 < unitSize) (hphys : FillsFrom readPhys phys)
    (hfit : PlacesFit unitSize locate) (hfails : FailsAt readPhys readable) {lens : List ℕ}
    (hne : lens ≠ []) :
    (∃ bytes, readPieces virtualSize unitSize locate readPhys offset lens = .ok bytes) ↔
      RangeAvailable virtualSize unitSize locate readable offset lens.sum := by
  induction lens generalizing offset with
  | nil => exact absurd rfl hne
  | cons n lens ih =>
    have hfirst : _ ↔ RangeAvailable virtualSize unitSize locate readable offset n :=
      readUnits_succeeds_iff_available hunit hphys hfit hfails
    rw [List.sum_cons, rangeAvailable_add, ← hfirst]
    constructor
    · rintro ⟨bytes, h⟩
      rw [readPieces] at h
      split at h
      · cases h
      · rename_i first hread
        split at h
        · cases h
        · rename_i more hmore
          refine ⟨⟨first, hread⟩, ?_⟩
          cases lens with
          | nil =>
            have havailable := hfirst.1 ⟨first, hread⟩
            exact ⟨havailable.no_overflow, havailable.le_size, by simp⟩
          | cons n' lens => exact (ih (by simp)).1 ⟨more, hmore⟩
    · rintro ⟨⟨first, hread⟩, hrest⟩
      have hmore : ∃ more,
          readPieces virtualSize unitSize locate readPhys (offset + n) lens = .ok more := by
        cases lens with
        | nil => exact ⟨[], rfl⟩
        | cons n' lens => exact (ih (by simp)).2 hrest
      obtain ⟨more, hmore⟩ := hmore
      exact ⟨first ++ more, by rw [readPieces, hread]; simp only [hmore]⟩

/-- A read succeeds exactly when the range is served, with a zero or the byte at its place for
each position; read in pieces it has the same bytes, and when physical reads fail at positions
it also fails alike. -/
theorem read_units_spec (virtualSize unitSize offset len : ℕ) (locate : ℕ → Outcome UnitPlace)
    (readPhys : ℕ → ℕ → Outcome (List UInt8)) (phys : ℕ → UInt8) (hunit : 0 < unitSize)
    (hphys : FillsFrom readPhys phys) (hfit : PlacesFit unitSize locate) :
    ((∃ bytes, readUnits virtualSize unitSize locate readPhys offset len = .ok bytes) ↔
      RangeServed virtualSize unitSize locate readPhys offset len) ∧
    (∀ bytes, readUnits virtualSize unitSize locate readPhys offset len = .ok bytes →
      bytes.length = len ∧ ∀ i < len, bytes[i]? = unitByte unitSize locate phys (offset + i)) ∧
    (∀ lens : List ℕ, lens.sum = len → ∀ bytes bytes',
      readUnits virtualSize unitSize locate readPhys offset len = .ok bytes →
      readPieces virtualSize unitSize locate readPhys offset lens = .ok bytes' → bytes' = bytes) ∧
    ∀ readable, FailsAt readPhys readable → ∀ lens : List ℕ, lens ≠ [] → lens.sum = len →
      (readPieces virtualSize unitSize locate readPhys offset lens).toOption =
        (readUnits virtualSize unitSize locate readPhys offset len).toOption := by
  have hsame : ∀ lens : List ℕ, lens.sum = len → ∀ bytes bytes',
      readUnits virtualSize unitSize locate readPhys offset len = .ok bytes →
      readPieces virtualSize unitSize locate readPhys offset lens = .ok bytes' → bytes' = bytes := by
    rintro lens rfl bytes bytes' hread hpieces
    obtain ⟨-, hlen, hall⟩ := (readUnits_eq_ok_iff hunit hphys hfit).1 hread
    obtain ⟨hlen', hall'⟩ := readPieces_bytes hunit hphys hfit hpieces
    apply List.ext_getElem?
    intro i
    rcases Nat.lt_or_ge i lens.sum with hi | hi
    · rw [hall i hi, hall' i hi]
    · rw [List.getElem?_eq_none (by omega), List.getElem?_eq_none (by omega)]
  refine ⟨readUnits_succeeds_iff hunit hphys hfit,
    fun bytes hread => ((readUnits_eq_ok_iff hunit hphys hfit).1 hread).2, hsame, ?_⟩
  rintro readable hfails lens hne rfl
  have hwhole : _ ↔ RangeAvailable virtualSize unitSize locate readable offset lens.sum :=
    readUnits_succeeds_iff_available hunit hphys hfit hfails
  have hpieces : _ ↔
      ∃ bytes, readPieces virtualSize unitSize locate readPhys offset lens = .ok bytes :=
    hwhole.trans (readPieces_succeeds_iff hunit hphys hfit hfails hne).symm
  cases hread : readUnits virtualSize unitSize locate readPhys offset lens.sum with
  | error e =>
    cases hpiece : readPieces virtualSize unitSize locate readPhys offset lens with
    | error e' => rfl
    | ok bytes =>
      obtain ⟨bytes', hbytes⟩ := hpieces.2 ⟨bytes, hpiece⟩
      rw [hread] at hbytes
      cases hbytes
  | ok bytes =>
    obtain ⟨bytes', hbytes⟩ := hpieces.1 ⟨bytes, hread⟩
    rw [hbytes, hsame lens rfl bytes bytes' hread hbytes]

theorem readExactAt_fills (file : List UInt8) :
    FillsFrom (readExactAt file) fun p => file.getD p 0 := by
  intro p n bytes h
  obtain ⟨rfl, hlen⟩ := readExactAt_ok h
  refine ⟨hlen, fun i hi => ?_⟩
  have hfile := readExactAt_in_file (by omega) h
  rw [getElem?_slice, if_pos hi, List.getElem?_eq_getElem (by omega)]
  simp [List.getD_eq_getElem?_getD, List.getElem?_eq_getElem (show p + i < file.length by omega)]

theorem readExactAt_failsAt (file : List UInt8) : FailsAt (readExactAt file) (· < file.length) := by
  intro p n hn
  constructor
  · rintro ⟨bytes, h⟩ i hi
    have hfile := readExactAt_in_file (by omega) h
    omega
  · intro h
    have hlast := h (n - 1) (by omega)
    exact ⟨_, readExactAt_eq (by omega)⟩

section Positions

variable {file : List UInt8} (hunit : 0 < unitSize)
include hunit

/-- A byte that is read is a zero or comes from its place in the file. -/
theorem readUnits_from_file
    (h : readUnits virtualSize unitSize locate (readExactAt file) offset len = .ok bytes) :
    bytes.length = len ∧ ∀ i < len,
      (locate ((offset + i) / unitSize) = .ok .zero ∧ bytes[i]? = some 0) ∨
        ∃ base, locate ((offset + i) / unitSize) = .ok (.at base) ∧
          base + (offset + i) % unitSize < file.length ∧
          bytes[i]? = file[base + (offset + i) % unitSize]? := by
  rw [readUnits, if_neg (Nat.ne_of_gt hunit)] at h
  split at h
  · cases h
  · obtain ⟨hlen, hall⟩ := getElem?_of_walk hunit (length_readUnit (readExactAt_fills file)) h
    refine ⟨hlen, fun i hi => ?_⟩
    obtain ⟨p, n, part, hpiece, hread, hle, hlt, hbyte⟩ := hall i hi
    have hsame : (offset + i) / unitSize = p / unitSize := hpiece.div_eq hle hlt
    have hmod := Nat.div_add_mod' (offset + i) unitSize
    have hmod' := Nat.div_add_mod' p unitSize
    rw [hsame] at hmod ⊢
    rw [readUnit] at hread
    cases hplace : locate (p / unitSize) with
    | error e =>
      rw [hplace] at hread
      cases hread
    | ok place =>
      rw [hplace] at hread
      cases place with
      | zero =>
        cases hread
        refine .inl ⟨rfl, ?_⟩
        rw [hbyte, List.getElem?_replicate, if_pos (by omega)]
      | «at» base =>
        simp only at hread
        split at hread
        · cases hread
        · have hin := readExactAt_in_file (Nat.ne_of_gt hpiece.nonempty) hread
          refine .inr ⟨base, rfl, by omega, ?_⟩
          rw [hbyte, (readExactAt_ok hread).1, getElem?_slice, if_pos (by omega)]
          congr 1
          omega

/-- A read inside the image succeeds when its units are zeros or lie in the file. -/
theorem readUnits_in_file (hfile : file.length < 2 ^ 64) (hsize : virtualSize < 2 ^ 64)
    (hrange : offset + len ≤ virtualSize)
    (hall : ∀ i < len, locate ((offset + i) / unitSize) = .ok .zero ∨
      ∃ base, locate ((offset + i) / unitSize) = .ok (.at base) ∧ base + unitSize ≤ file.length) :
    ∃ bytes, readUnits virtualSize unitSize locate (readExactAt file) offset len = .ok bytes := by
  rw [readUnits, if_neg (Nat.ne_of_gt hunit), checkReadRange_ok hsize hrange]
  refine walk_succeeds hunit (length_readUnit (readExactAt_fills file)) len offset [] (by simp)
    fun p n hpiece => ?_
  have hle := hpiece.pos_le
  have hstop := hpiece.le_stop
  have hpos := hpiece.nonempty
  have hinside := hpiece.inside
  rw [List.length_nil, Nat.sub_zero] at hstop
  have hplace := hall (p - offset) (by omega)
  rw [Nat.add_sub_cancel' hle] at hplace
  rcases hplace with hzero | ⟨base, hbase, hin⟩
  · exact ⟨_, by rw [readUnit, hzero]⟩
  · refine ⟨slice file (base + p % unitSize) n, ?_⟩
    rw [readUnit, hbase]
    simp only
    rw [if_neg (by omega)]
    exact readExactAt_eq (by omega)

/-- No arithmetic on the way to position `p` overflows, and no index is out of bounds. -/
def SafelyLocated (unitSize : ℕ) (locate : ℕ → Outcome UnitPlace) (p : ℕ) : Prop :=
  (∀ e, locate (p / unitSize) = .error e → ∃ io, e = .io io) ∧
    ∀ base, locate (p / unitSize) = .ok (.at base) → base + p % unitSize < 2 ^ 64

omit hunit in
private theorem readUnit_error {p n : ℕ} {e : Failure} (hsafe : SafelyLocated unitSize locate p)
    (h : readUnit unitSize locate (readExactAt file) p n = .error e) : ∃ io, e = .io io := by
  rw [readUnit] at h
  cases hplace : locate (p / unitSize) with
  | error e' =>
    rw [hplace] at h
    cases h
    exact hsafe.1 e hplace
  | ok place =>
    rw [hplace] at h
    cases place with
    | zero => cases h
    | «at» base =>
      have hlt := hsafe.2 base hplace
      simp only at h
      rw [if_neg (by omega), readExactAt] at h
      split at h
      · cases h
      · split at h
        · cases h
        · cases h
          exact ⟨_, rfl⟩

/-- One byte is read in one round. -/
theorem readUnits_one {p : ℕ} {e : Failure} (hsize : virtualSize < 2 ^ 64) (hp : p < virtualSize)
    (h : readUnit unitSize locate (readExactAt file) p 1 = .error e) :
    readUnits virtualSize unitSize locate (readExactAt file) p 1 = .error e := by
  have hmod := Nat.mod_lt p hunit
  have htake : min (unitSize - p % unitSize) (1 - ([] : List UInt8).length) = 1 := by
    rw [List.length_nil]
    omega
  rw [readUnits, if_neg (Nat.ne_of_gt hunit), checkReadRange_ok hsize hp]
  simp only [walk, htake, h]
  rfl

/-- All reads end with bytes or an `io::Error` exactly when every position is safely located. -/
theorem reads_safe_iff (file : List UInt8) (hsize : virtualSize < 2 ^ 64) :
    (∀ offset len e, readUnits virtualSize unitSize locate (readExactAt file) offset len = .error e →
      ∃ io, e = .io io) ↔ ∀ p < virtualSize, SafelyLocated unitSize locate p := by
  constructor
  · intro h p hp
    refine ⟨fun e hplace => ?_, fun base hplace => ?_⟩
    · exact h p 1 e (readUnits_one hunit hsize hp (by rw [readUnit, hplace]))
    · by_contra hge
      obtain ⟨io, hio⟩ := h p 1 .panic (readUnits_one hunit hsize hp (by
        rw [readUnit, hplace]
        exact if_pos (Nat.not_lt.1 hge)))
      cases hio
  · intro h offset len e herror
    rw [readUnits, if_neg (Nat.ne_of_gt hunit)] at herror
    split at herror
    · rename_i e' hrange
      cases herror
      rw [checkReadRange] at hrange
      split at hrange
      · cases hrange
        exact ⟨_, rfl⟩
      · split at hrange
        · cases hrange
          exact ⟨_, rfl⟩
        · cases hrange
    · rename_i hrange
      have hle := (checkReadRange_eq_ok.1 hrange).2
      obtain ⟨u, hu, hpart⟩ := part_of_walk_error hunit (by simp)
        (length_readUnit (readExactAt_fills file)) herror
      have hwithin := part_within hu
      rw [List.length_nil, Nat.sub_zero] at hwithin hu
      exact readUnit_error (h _ (by omega)) hpart

end Positions

def threeUnits (u : ℕ) : Outcome UnitPlace := .ok (if u = 0 then .at 0 else if u = 2 then .at 4 else .zero)

/-- A read across the hole, at once and in two pieces. -/
theorem read_units_across_hole :
    readUnits 12 4 threeUnits (readExactAt (ascii "AAAACCCC")) 2 8 =
        .ok [65, 65, 0, 0, 0, 0, 67, 67] ∧
      (readPieces 12 4 threeUnits (readExactAt (ascii "AAAACCCC")) 2 [3, 5]).toOption =
        some [65, 65, 0, 0, 0, 0, 67, 67] := by
  have hread : readUnits 12 4 threeUnits (readExactAt (ascii "AAAACCCC")) 2 8 =
      .ok [65, 65, 0, 0, 0, 0, 67, 67] := by decide
  have hfit : PlacesFit 4 threeUnits := by
    intro u base h
    rw [threeUnits] at h
    split at h
    · cases h
      decide
    · split at h
      · cases h
        decide
      · cases h
  obtain ⟨-, -, -, hpieces⟩ := read_units_spec 12 4 2 8 threeUnits (readExactAt (ascii "AAAACCCC"))
    _ (by decide) (readExactAt_fills _) hfit
  refine ⟨hread, ?_⟩
  rw [hpieces _ (readExactAt_failsAt _) [3, 5] (by simp) rfl, hread]
  rfl

end XBoot.Storage
