import XBoot.VhdWriter

/-!
# The geometry in a footer

Cylinders, heads and sectors per track fit their fields of a footer, and describe the
disk up to its last incomplete cylinder.
-/

namespace XBoot.Vhd

open ListSlices BigEndian

/-- The number of sectors that a geometry describes at most. -/
def MAX_GEOMETRY_SECTORS : ℕ := 65535 * 16 * 255

/-- A geometry that fits its fields and leaves less than a cylinder of `t` sectors out. -/
structure GeometryOf (t cyls heads spt : ℕ) : Prop where
  cyls_le : cyls ≤ 65535
  heads_pos : 1 ≤ heads
  heads_le : heads ≤ 16
  spt_mem : spt ∈ [17, 31, 63, 255]
  le : cyls * heads * spt ≤ t
  lt : t < (cyls + 1) * heads * spt

private theorem geometryOf_tracks {t heads spt : ℕ} (hmem : spt ∈ [17, 31, 63, 255])
    (hpos : 1 ≤ heads) (hle : heads ≤ 16) (hcyls : t / spt < 65536 * heads) :
    GeometryOf t (t / spt / heads) heads spt := by
  have hspt : 0 < spt := by
    simp only [List.mem_cons, List.not_mem_nil, or_false] at hmem
    omega
  have hcyl : t / spt / heads = t / (heads * spt) := by
    rw [Nat.div_div_eq_div_mul, Nat.mul_comm]
  have hcylPos : 0 < heads * spt := Nat.mul_pos hpos hspt
  refine ⟨?_, hpos, hle, hmem, ?_, ?_⟩
  · exact Nat.le_of_lt_succ ((Nat.div_lt_iff_lt_mul hpos).2 hcyls)
  · rw [hcyl, Nat.mul_assoc]
    exact Nat.div_mul_le_self t (heads * spt)
  · have hlt := Nat.lt_mul_div_succ t hcylPos
    rw [hcyl, Nat.mul_assoc, Nat.mul_comm]
    exact hlt

/-- The geometry of any number of sectors, capped, is not changed by the casts to its fields. -/
theorem geometry_fits (totalSectors : ℕ) :
    GeometryOf (min totalSectors MAX_GEOMETRY_SECTORS) (geometry totalSectors).1
        (geometry totalSectors).2.1 (geometry totalSectors).2.2 ∧
      (geometry totalSectors).1 % 2 ^ 16 = (geometry totalSectors).1 ∧
      (geometry totalSectors).2.1 % 2 ^ 8 = (geometry totalSectors).2.1 ∧
      (geometry totalSectors).2.2 % 2 ^ 8 = (geometry totalSectors).2.2 := by
  have hgeometry : GeometryOf (min totalSectors MAX_GEOMETRY_SECTORS) (geometry totalSectors).1
      (geometry totalSectors).2.1 (geometry totalSectors).2.2 := by
    have hcap := Nat.min_le_right totalSectors MAX_GEOMETRY_SECTORS
    rw [geometry]
    rw [MAX_GEOMETRY_SECTORS] at *
    generalize min totalSectors (65535 * 16 * 255) = t at *
    by_cases hlarge : 65535 * 16 * 63 ≤ t
    · simp only [if_pos hlarge]
      exact geometryOf_tracks (by simp) (by omega) (by omega) (by omega)
    · simp only [if_neg hlarge]
      by_cases htracks : max ((t / 17 + 1023) / 1024) 4 * 1024 ≤ t / 17 ∨
          16 < max ((t / 17 + 1023) / 1024) 4
      · simp only [if_pos htracks]
        split
        · exact geometryOf_tracks (by simp) (by omega) (by omega) (by omega)
        · exact geometryOf_tracks (by simp) (by omega) (by omega) (by omega)
      · simp only [if_neg htracks]
        rw [not_or] at htracks
        split
        · exact geometryOf_tracks (by simp) (by omega) (by omega) (by omega)
        · exact geometryOf_tracks (by simp) (by omega) (by omega) (by omega)
  have hcyls := hgeometry.cyls_le
  have hheads := hgeometry.heads_le
  have hspt := hgeometry.spt_mem
  simp only [List.mem_cons, List.not_mem_nil, or_false] at hspt
  exact ⟨hgeometry, by omega, by omega, by omega⟩

/-- The footer of an image has the geometry of its whole sectors. -/
theorem footer_geometry (secs size : ℕ) :
    ofBe (slice (buildFooter secs size) 56 2) = (geometry (size / SECTOR)).1 ∧
      ofBe (slice (buildFooter secs size) 58 1) = (geometry (size / SECTOR)).2.1 ∧
      ofBe (slice (buildFooter secs size) 59 1) = (geometry (size / SECTOR)).2.2 := by
  obtain ⟨-, hcyls, hheads, hspt⟩ := geometry_fits (size / SECTOR)
  have hfield : ∀ o n, o + n ≤ 64 →
      slice (buildFooter secs size) o n = slice (footerFront secs size) o n := by
    intro o n h
    rw [buildFooter, List.append_assoc, slice_append_left (by rw [length_footerFront]; exact h)]
  have hcookie : (ascii "conectix").length = 8 := by decide
  have hcreator : (ascii "xbot").length = 4 := by decide
  have hhost : (ascii "Wi2k").length = 4 := by decide
  have hfields : slice (footerFront secs size) 56 2 = toBe 2 (geometry (size / SECTOR)).1 ∧
      slice (footerFront secs size) 58 1 = toBe 1 (geometry (size / SECTOR)).2.1 ∧
      slice (footerFront secs size) 59 1 = toBe 1 (geometry (size / SECTOR)).2.2 := by
    simp only [footerFront, List.append_assoc]
    refine ⟨?_, ?_, ?_⟩ <;>
      simp [slice_append_right, slice_append_left, hcookie, hcreator, hhost]
  rw [hfield 56 2 (by decide), hfield 58 1 (by decide), hfield 59 1 (by decide), hfields.1,
    hfields.2.1, hfields.2.2, ofBe_toBe, ofBe_toBe, ofBe_toBe]
  exact ⟨hcyls, hheads, hspt⟩

end XBoot.Vhd
