import XBoot.ImageAddresses
import XBoot.ShiftRegisters

/-!
# Damaged images

CRC-32C tells records apart that differ in up to four neighbouring bytes. A header or region table
with such damage is refused, and the image opens from the other copy as if nothing had happened.
-/

namespace XBoot.VhdxFile

open ListSlices BigEndian Storage ShiftRegisters

/-- The Castagnoli polynomial, lowest bit first. -/
def POLYNOMIAL : BitVec 32 := 0x82F63B78#32

private theorem crcBit_toBitVec (crc : UInt32) :
    (crcBit crc).toBitVec = shift POLYNOMIAL crc.toBitVec := by
  have hmask : 0#32 - (crc.toBitVec &&& 1#32) =
      if crc.toBitVec.getLsbD 0 then BitVec.allOnes 32 else 0#32 := by
    rw [BitVec.and_one_eq_setWidth_ofBool_getLsbD]
    cases crc.toBitVec.getLsbD 0 <;> rfl
  have hbits : (crcBit crc).toBitVec =
      crc.toBitVec >>> 1 ^^^ (0x82F63B78#32 &&& (0#32 - (crc.toBitVec &&& 1#32))) := rfl
  rw [hbits, hmask, shift, POLYNOMIAL]
  split
  · rw [BitVec.and_allOnes]
  · rw [BitVec.and_zero]

private theorem crcByte_toBitVec (crc : UInt32) (byte : UInt8) :
    (crcByte crc byte).toBitVec = absorb POLYNOMIAL crc.toBitVec byte.toBitVec := by
  have hrepeat (n : ℕ) (c : UInt32) :
      (Nat.repeat crcBit n c).toBitVec = (shift POLYNOMIAL)^[n] c.toBitVec := by
    induction n with
    | zero => rfl
    | succ n ih => rw [Nat.repeat, crcBit_toBitVec, ih, Function.iterate_succ_apply']
  rw [crcByte, hrepeat, absorb]
  rfl

theorem crc32c_toBitVec (data : List UInt8) :
    (crc32c data).toBitVec = ~~~ run POLYNOMIAL (BitVec.allOnes 32) (data.map UInt8.toBitVec) := by
  have hfold (c : UInt32) : (data.foldl crcByte c).toBitVec =
      run POLYNOMIAL c.toBitVec (data.map UInt8.toBitVec) := by
    induction data generalizing c with
    | nil => rfl
    | cons byte rest ih =>
      rw [List.foldl_cons, ih, crcByte_toBitVec]
      rfl
  rw [crc32c, UInt32.toBitVec_not, hfold]
  rfl

theorem crc32c_window {front back bytes bytes' : List UInt8} (hlen : bytes.length = bytes'.length)
    (hshort : bytes.length ≤ 4)
    (h : crc32c (front ++ bytes ++ back) = crc32c (front ++ bytes' ++ back)) : bytes = bytes' := by
  have hbits := congrArg UInt32.toBitVec h
  rw [crc32c_toBitVec, crc32c_toBitVec, BitVec.not_inj] at hbits
  simp only [List.map_append] at hbits
  have hwindow := run_window (by decide) _ (by simpa using hlen) (by rw [List.length_map]; omega) hbits
  exact (List.map_injective_iff.2 fun _ _ => UInt8.toBitVec_inj.1) hwindow

/-- Fields of one length that stand for the same number are the same. -/
theorem ofBe_injective {xs ys : List UInt8} (hlen : xs.length = ys.length) (h : ofBe xs = ofBe ys) :
    xs = ys := by
  induction xs generalizing ys with
  | nil => exact (List.length_eq_zero_iff.1 hlen.symm).symm
  | cons x xs ih =>
    cases ys with
    | nil => cases hlen
    | cons y ys =>
      have hlen' : xs.length = ys.length := Nat.succ.inj hlen
      have hx := ofBe_lt xs
      have hy := ofBe_lt ys
      rw [ofBe, ofBe, hlen'] at h
      rw [hlen'] at hx
      have hpos : 0 < 256 ^ ys.length := Nat.pos_of_neZero _
      have hfirst : x.toNat = y.toNat := by
        have hdiv := congrArg (· / 256 ^ ys.length) h
        simpa only [Nat.mul_comm _ (256 ^ ys.length), Nat.mul_add_div hpos, Nat.div_eq_of_lt hx,
          Nat.div_eq_of_lt hy, Nat.add_zero] using hdiv
      rw [hfirst] at h
      rw [UInt8.toNat_inj.1 hfirst, ih hlen' (Nat.add_left_cancel h)]

theorem ofLe_injective {xs ys : List UInt8} (hlen : xs.length = ys.length) (h : ofLe xs = ofLe ys) :
    xs = ys :=
  List.reverse_injective (ofBe_injective (by simpa using hlen) h)

/-- A record of `n` bytes with its CRC in bytes 4 to 8. -/
def CrcHolds (n : ℕ) (record : List UInt8) : Prop :=
  (crc32c (overwrite (record.take n) 4 [0, 0, 0, 0])).toNat = ofLe (slice record 4 4)

/-- Up to four neighbouring bytes of a record, beside its CRC or within it. -/
structure Damage (n pos : ℕ) (bytes : List UInt8) : Prop where
  short : bytes.length ≤ 4
  inside : pos + bytes.length ≤ n
  apart : pos + bytes.length ≤ 4 ∨ (4 ≤ pos ∧ pos + bytes.length ≤ 8) ∨ 8 ≤ pos

variable {n pos : ℕ} {bytes record : List UInt8}

private theorem body_damaged (hn : 8 ≤ n) (hlen : n ≤ record.length) (hinside : pos + bytes.length ≤ n)
    (hbeside : pos + bytes.length ≤ 4 ∨ 8 ≤ pos) :
    overwrite ((overwrite record pos bytes).take n) 4 [0, 0, 0, 0] =
      overwrite (overwrite (record.take n) 4 [0, 0, 0, 0]) pos bytes := by
  have hwhole : pos + bytes.length ≤ record.length := by omega
  have htake : (record.take n).length = n := by rw [List.length_take]; omega
  have htake' : ((overwrite record pos bytes).take n).length = n := by
    rw [List.length_take, length_overwrite hwhole]
    omega
  have hzeros : 4 + [(0 : UInt8), 0, 0, 0].length ≤ (record.take n).length := by
    rw [htake]
    exact hn
  apply List.ext_getElem?
  intro i
  rw [getElem?_overwrite (by rw [htake']; exact hn),
    getElem?_overwrite (by rw [length_overwrite hzeros, htake]; exact hinside), getElem?_overwrite hzeros]
  have hfour : [(0 : UInt8), 0, 0, 0].length = 4 := rfl
  rw [hfour]
  rcases Nat.lt_or_ge i n with hi | hi
  · rw [List.getElem?_take_of_lt hi, List.getElem?_take_of_lt hi, getElem?_overwrite hwhole]
    by_cases hzero : 4 ≤ i ∧ i < 4 + 4
    · rw [if_pos hzero, if_pos hzero, if_neg (by omega)]
    · rw [if_neg hzero, if_neg hzero]
  · rw [if_neg (by omega), if_neg (by omega), if_neg (by omega), List.getElem?_eq_none (by omega),
      List.getElem?_eq_none (by omega)]

private theorem crc_changes (hn : 8 ≤ n) (hlen : n ≤ record.length) (hd : Damage n pos bytes)
    (hbeside : pos + bytes.length ≤ 4 ∨ 8 ≤ pos) (hcrc : CrcHolds n record)
    (hcrc' : CrcHolds n (overwrite record pos bytes)) : overwrite record pos bytes = record := by
  have hwhole : pos + bytes.length ≤ record.length := Nat.le_trans hd.inside hlen
  obtain ⟨body, hbody⟩ : ∃ body, overwrite (record.take n) 4 [0, 0, 0, 0] = body := ⟨_, rfl⟩
  have hzeros : 4 + [(0 : UInt8), 0, 0, 0].length ≤ (record.take n).length := by
    rw [List.length_take, Nat.min_eq_left hlen]
    exact hn
  have hbodyLen : body.length = n := by
    rw [← hbody, length_overwrite hzeros, List.length_take, Nat.min_eq_left hlen]
  have hold : slice body pos bytes.length = slice record pos bytes.length := by
    rw [← hbody,
      slice_overwrite_of_disjoint hzeros (by simp only [List.length_cons, List.length_nil]; omega)]
    refine slice_congr fun i hi hi' => List.getElem?_take_of_lt ?_
    have hinside := hd.inside
    omega
  have hsame : overwrite body pos (slice body pos bytes.length) = body :=
    overwrite_slice_self (by rw [hbodyLen]; exact hd.inside)
  have hfield : slice (overwrite record pos bytes) 4 4 = slice record 4 4 :=
    slice_overwrite_of_disjoint hwhole (by omega)
  have hsliceLen : (slice body pos bytes.length).length = bytes.length :=
    length_slice (by rw [hbodyLen]; exact hd.inside)
  rw [CrcHolds, body_damaged hn hlen hd.inside hbeside, hbody, hfield] at hcrc'
  rw [CrcHolds, hbody, ← hcrc'] at hcrc
  have hparts : body.take pos ++ slice body pos bytes.length ++ body.drop (pos + bytes.length) = body := by
    rwa [overwrite, hsliceLen] at hsame
  have hsum : crc32c (body.take pos ++ bytes ++ body.drop (pos + bytes.length)) =
      crc32c (body.take pos ++ slice body pos bytes.length ++ body.drop (pos + bytes.length)) := by
    rw [hparts]
    exact UInt32.toNat_inj.1 hcrc.symm
  have hbytes : bytes = slice body pos bytes.length := crc32c_window hsliceLen.symm hd.short hsum
  have hback : overwrite record pos (slice record pos bytes.length) = record :=
    overwrite_slice_self hwhole
  rwa [← hold, ← hbytes] at hback

private theorem field_changes (hn : 8 ≤ n) (hlen : n ≤ record.length)
    (hwithin : 4 ≤ pos ∧ pos + bytes.length ≤ 8) (hcrc : CrcHolds n record)
    (hcrc' : CrcHolds n (overwrite record pos bytes)) : overwrite record pos bytes = record := by
  have hwhole : pos + bytes.length ≤ record.length := by omega
  have hbody : overwrite ((overwrite record pos bytes).take n) 4 [0, 0, 0, 0] =
      overwrite (record.take n) 4 [0, 0, 0, 0] := by
    have htake : (record.take n).length = n := by rw [List.length_take, Nat.min_eq_left hlen]
    have htake' : ((overwrite record pos bytes).take n).length = n := by
      rw [List.length_take, length_overwrite hwhole, Nat.min_eq_left hlen]
    have hfour : [(0 : UInt8), 0, 0, 0].length = 4 := rfl
    apply List.ext_getElem?
    intro i
    rw [getElem?_overwrite (by rw [htake']; exact hn), getElem?_overwrite (by rw [htake]; exact hn), hfour]
    split
    · rfl
    · rcases Nat.lt_or_ge i n with hi | hi
      · rw [List.getElem?_take_of_lt hi, List.getElem?_take_of_lt hi, getElem?_overwrite hwhole,
          if_neg (by omega)]
      · rw [List.getElem?_eq_none (by omega), List.getElem?_eq_none (by omega)]
  rw [CrcHolds, hbody] at hcrc'
  rw [CrcHolds, hcrc'] at hcrc
  have hfield : slice (overwrite record pos bytes) 4 4 = slice record 4 4 := by
    refine ofLe_injective ?_ hcrc
    rw [length_slice (by rw [length_overwrite hwhole]; omega), length_slice (by omega)]
  apply List.ext_getElem?
  intro i
  by_cases hi : 4 ≤ i ∧ i < 8
  · have hbyte := congrArg (·[i - 4]?) hfield
    simpa only [getElem?_slice, if_pos (show i - 4 < 4 by omega), Nat.add_sub_cancel' hi.1] using hbyte
  · rw [getElem?_overwrite hwhole, if_neg (by omega)]

theorem not_crcHolds_damaged (hn : 8 ≤ n) (hlen : n ≤ record.length) (hd : Damage n pos bytes)
    (hne : overwrite record pos bytes ≠ record) (hcrc : CrcHolds n record) :
    ¬ CrcHolds n (overwrite record pos bytes) := by
  intro hcrc'
  rcases hd.apart with hbefore | hwithin | hbehind
  · exact hne (crc_changes hn hlen hd (.inl hbefore) hcrc hcrc')
  · exact hne (field_changes hn hlen hwithin hcrc hcrc')
  · exact hne (crc_changes hn hlen hd (.inr hbehind) hcrc hcrc')

theorem parseRegionTable_crc {table : List UInt8} {regions : Regions}
    (h : parseRegionTable table = .ok regions) : 64 * 1024 ≤ table.length ∧ CrcHolds (64 * 1024) table := by
  rw [parseRegionTable] at h
  split at h
  · cases h
  · rename_i hsignature
    rw [not_or, Nat.not_lt] at hsignature
    split at h
    · cases h
    · rename_i hcrc
      exact ⟨hsignature.1, not_not.1 hcrc⟩

variable {regions : Regions}

private theorem damaged_table_refused (hne : overwrite record pos bytes ≠ record)
    (hparse : parseRegionTable record = .ok regions) (hd : Damage (64 * 1024) pos bytes) :
    ∃ error, parseRegionTable (overwrite record pos bytes) = .error error := by
  obtain ⟨hlen, hcrc⟩ := parseRegionTable_crc hparse
  cases hdamaged : parseRegionTable (overwrite record pos bytes) with
  | error error => exact ⟨error, rfl⟩
  | ok other =>
    exact absurd (parseRegionTable_crc hdamaged).2 (not_crcHolds_damaged (by decide) hlen hd hne hcrc)

/-- Damage of up to four neighbouring bytes makes a header or a region table invalid. -/
theorem damage_detected (record : List UInt8) (pos : ℕ) (bytes : List UInt8)
    (hne : overwrite record pos bytes ≠ record) :
    (∀ header, parseOneHeader record = .ok header → Damage 4096 pos bytes →
      ∃ error, parseOneHeader (overwrite record pos bytes) = .error error) ∧
    ∀ regions, parseRegionTable record = .ok regions → Damage (64 * 1024) pos bytes →
      ∃ error, parseRegionTable (overwrite record pos bytes) = .error error := by
  refine ⟨fun header hparse hd => ?_, fun regions hparse hd => damaged_table_refused hne hparse hd⟩
  obtain ⟨hvalid, -⟩ := parseOneHeader_ok.1 hparse
  cases hdamaged : parseOneHeader (overwrite record pos bytes) with
  | error error => exact ⟨error, rfl⟩
  | ok other =>
    obtain ⟨hother, -⟩ := parseOneHeader_ok.1 hdamaged
    exact absurd hother.crc (not_crcHolds_damaged (by decide) hvalid.length_le hd hne hvalid.crc)

/-- A header whose version was lost. -/
theorem lost_version_detected :
    ∃ error, parseOneHeader (overwrite (headerCopy 1 0) 66 [0, 0]) = .error error := by
  have hvalid := headerCopy_valid 1 0
  have hne : overwrite (headerCopy 1 0) 66 [0, 0] ≠ headerCopy 1 0 := by
    intro h
    have hinside : 66 + [(0 : UInt8), 0].length ≤ (headerCopy 1 0).length := by
      rw [length_headerCopy]
      decide
    have hzero : slice (overwrite (headerCopy 1 0) 66 [0, 0]) 66 2 = [0, 0] :=
      slice_overwrite_of_subset hinside (Nat.le_refl _) (Nat.le_refl _)
    have hversion := hvalid.version
    rw [← h, hzero] at hversion
    cases hversion
  exact (damage_detected (headerCopy 1 0) 66 [0, 0] hne).1 ⟨sequenceOf (headerCopy 1 0)⟩
    (parseOneHeader_ok.2 ⟨hvalid, (cleanLog_headerCopy 1 0).2 rfl, rfl⟩)
    ⟨by decide, by decide, .inr (.inr (by decide))⟩

/-- The copies of the header and of the region table: where they lie and how long they are. -/
def COPIES : List (ℕ × ℕ) :=
  [(64 * 1024, 4096), (128 * 1024, 4096), (192 * 1024, 64 * 1024), (256 * 1024, 64 * 1024)]

/-- Two headers and two region tables that parse. The tables agree, and the regions that they name lie
behind them. -/
structure Redundant (file : List UInt8) (regions : Regions) : Prop where
  headers : ∀ offset ∈ [64 * 1024, 128 * 1024],
    ∃ header, parseOneHeader (headerAt file offset) = .ok header
  tables : ∀ offset ∈ [192 * 1024, 256 * 1024], readRegionsAt file offset = .ok regions
  behind : ∀ place, regions.bat = some place ∨ regions.metadata = some place → 320 * 1024 ≤ place.1

variable {file : List UInt8} {start size : ℕ}

private theorem readExactAt_overwrite {o p n : ℕ} (h : o + bytes.length ≤ file.length)
    (hapart : p + n ≤ o ∨ o + bytes.length ≤ p) :
    readExactAt (overwrite file o bytes) p n = readExactAt file p n := by
  rw [readExactAt, readExactAt, length_overwrite h, slice_overwrite_of_disjoint h hapart]

private theorem load_other {file' : List UInt8} (h : ∀ place,
    regions.bat = some place ∨ regions.metadata = some place →
      readExactAt file' place.1 place.2 = readExactAt file place.1 place.2) :
    load file' regions = (load file regions).map fun vhdx => { vhdx with file := file' } := by
  obtain ⟨bat, metadata⟩ := regions
  cases metadata with
  | none => rfl
  | some metadata =>
    cases bat with
    | none => rfl
    | some bat =>
      have hmetadata := h metadata (.inr rfl)
      have hbat := h bat (.inl rfl)
      rw [load, load]
      simp only [hmetadata, hbat]
      cases readExactAt file metadata.1 metadata.2 with
      | error e => rfl
      | ok region =>
        cases hmd : parseMetadata region with
        | error e => simp only [hmd]; rfl
        | ok md =>
          simp only [hmd]
          split
          · rfl
          · cases readExactAt file bat.1 bat.2 <;> rfl

private theorem open_other {file' : List UInt8} {vhdx : Vhdx} (hopen : Vhdx.open file = .ok vhdx)
    (hident : readExactAt file' 0 8 = readExactAt file 0 8)
    (hheader : ∃ header, readHeader file' = .ok header) (hregions : readRegions file = .ok regions)
    (hregions' : readRegions file' = .ok regions)
    (hplaces : ∀ place, regions.bat = some place ∨ regions.metadata = some place →
      readExactAt file' place.1 place.2 = readExactAt file place.1 place.2) :
    Vhdx.open file' = .ok { vhdx with file := file' } := by
  obtain ⟨header, hheader⟩ := hheader
  rw [Vhdx.open] at hopen ⊢
  rw [hident]
  cases hread : readExactAt file 0 8 with
  | error e => rw [hread] at hopen; cases hopen
  | ok ident =>
    rw [hread] at hopen
    simp only at hopen ⊢
    split at hopen
    · cases hopen
    · rename_i hcookie
      rw [if_neg hcookie, hheader]
      simp only [hregions', load_other hplaces]
      cases hfirst : readHeader file with
      | error e => rw [hfirst] at hopen; cases hopen
      | ok first =>
        rw [hfirst] at hopen
        simp only [hregions] at hopen
        rw [hopen]
        rfl

section Healing

variable (hfile : Redundant file regions) (hcopy : (start, size) ∈ COPIES) (hd : Damage size pos bytes)
include hfile hcopy

private theorem copy_inside : start + size ≤ file.length := by
  have hheader {offset : ℕ} (hmem : offset ∈ [64 * 1024, 128 * 1024]) : offset + 4096 ≤ file.length := by
    obtain ⟨header, hparse⟩ := hfile.headers offset hmem
    have hlen := (parseOneHeader_ok.1 hparse).1.length_le
    rw [headerAt, slice, List.length_take, List.length_drop] at hlen
    omega
  have htable {offset : ℕ} (hmem : offset ∈ [192 * 1024, 256 * 1024]) :
      offset + 64 * 1024 ≤ file.length := by
    have hparse := hfile.tables offset hmem
    rw [readRegionsAt] at hparse
    cases hread : readExactAt file offset (64 * 1024) with
    | error e => rw [hread] at hparse; cases hparse
    | ok table => exact readExactAt_in_file (by decide) hread
  simp only [COPIES, List.mem_cons, Prod.mk.injEq, List.not_mem_nil, or_false] at hcopy
  rcases hcopy with ⟨rfl, rfl⟩ | ⟨rfl, rfl⟩ | ⟨rfl, rfl⟩ | ⟨rfl, rfl⟩
  · exact hheader (by simp)
  · exact hheader (by simp)
  · exact htable (by simp)
  · exact htable (by simp)

include hd

private theorem damage_inside : start + pos + bytes.length ≤ file.length := by
  have hinside := copy_inside hfile hcopy
  have hpos := hd.inside
  omega

private theorem read_outside {p n : ℕ} (h : p + n ≤ start ∨ start + size ≤ p) :
    readExactAt (overwrite file (start + pos) bytes) p n = readExactAt file p n := by
  have hpos := hd.inside
  exact readExactAt_overwrite (damage_inside hfile hcopy hd) (by omega)

private theorem readHeader_damaged :
    ∃ header, readHeader (overwrite file (start + pos) bytes) = .ok header := by
  have hinside := damage_inside hfile hcopy hd
  have hlength : (overwrite file (start + pos) bytes).length = file.length := length_overwrite hinside
  have hlast : 256 * 1024 + 64 * 1024 ≤ file.length := copy_inside hfile (by simp [COPIES])
  have hread (offset : ℕ) (h : offset + 4096 ≤ file.length) :
      readExactAt (overwrite file (start + pos) bytes) offset 4096 =
        .ok (headerAt (overwrite file (start + pos) bytes) offset) := by
    rw [headerAt, readExactAt_eq (by rw [hlength]; exact h)]
  have hwhole {offset : ℕ} (hmem : offset ∈ [64 * 1024, 128 * 1024])
      (hapart : offset + 4096 ≤ start ∨ start + size ≤ offset) :
      ValidCopy (headerAt (overwrite file (start + pos) bytes) offset) ∧
        CleanLog (headerAt (overwrite file (start + pos) bytes) offset) := by
    obtain ⟨header, hparse⟩ := hfile.headers offset hmem
    obtain ⟨hvalid, hclean, -⟩ := parseOneHeader_ok.1 hparse
    have hpos := hd.inside
    rw [headerAt, slice_overwrite_of_disjoint hinside (by omega)]
    exact ⟨hvalid, hclean⟩
  rw [readHeader, hread _ (by omega)]
  simp only [hread (128 * 1024) (by omega)]
  apply parseBestHeader_passes.2
  simp only [COPIES, List.mem_cons, Prod.mk.injEq, List.not_mem_nil, or_false] at hcopy
  rcases hcopy with ⟨rfl, rfl⟩ | ⟨rfl, rfl⟩ | ⟨rfl, rfl⟩ | ⟨rfl, rfl⟩
  · exact .inr (hwhole (by simp) (by omega))
  · exact .inl (hwhole (by simp) (by omega))
  · exact .inl (hwhole (by simp) (by omega))
  · exact .inl (hwhole (by simp) (by omega))

private theorem readRegions_damaged :
    readRegions (overwrite file (start + pos) bytes) = .ok regions := by
  have hinside := damage_inside hfile hcopy hd
  have hother {offset : ℕ} (hmem : offset ∈ [192 * 1024, 256 * 1024])
      (hapart : offset + 64 * 1024 ≤ start ∨ start + size ≤ offset) :
      readRegionsAt (overwrite file (start + pos) bytes) offset = .ok regions := by
    rw [readRegionsAt, read_outside hfile hcopy hd hapart]
    exact hfile.tables offset hmem
  by_cases hfirst : start = 192 * 1024
  · subst hfirst
    have hsize : size = 64 * 1024 := by simpa [COPIES] using hcopy
    subst hsize
    have hwhole := copy_inside hfile hcopy
    obtain ⟨table, hslice⟩ : ∃ table, slice file (192 * 1024) (64 * 1024) = table := ⟨_, rfl⟩
    have htable : parseRegionTable table = .ok regions := by
      have hparse := hfile.tables (192 * 1024) (by simp)
      rwa [readRegionsAt, readExactAt_eq hwhole, hslice] at hparse
    have hdamaged : readRegionsAt (overwrite file (192 * 1024 + pos) bytes) (192 * 1024) =
        parseRegionTable (overwrite table pos bytes) := by
      rw [readRegionsAt, readExactAt_eq (by rwa [length_overwrite hinside]),
        slice_overwrite_inside hwhole hd.inside, hslice]
    rw [readRegions, hdamaged]
    by_cases hne : overwrite table pos bytes = table
    · rw [hne, htable]
    · obtain ⟨error, herror⟩ := damaged_table_refused hne htable hd
      rw [herror]
      exact hother (by simp) (.inr (by omega))
  · have hapart : 192 * 1024 + 64 * 1024 ≤ start ∨ start + size ≤ 192 * 1024 := by
      simp only [COPIES, List.mem_cons, Prod.mk.injEq, List.not_mem_nil, or_false] at hcopy
      omega
    rw [readRegions, hother (by simp) hapart]

end Healing

private theorem readAt_other {vhdx : Vhdx} {file' : List UInt8}
    (hblocks : ∀ entry ∈ vhdx.bat, entry % 8 = PB_STATE_FULLY_PRESENT → 2 ^ 20 ≤ entry)
    (hread : ∀ p n, 2 ^ 20 ≤ p → readExactAt file' p n = readExactAt vhdx.file p n) (offset len : ℕ) :
    ({ vhdx with file := file' } : Vhdx).readAt offset len = vhdx.readAt offset len := by
  have hunit : readUnit vhdx.blockSize vhdx.locate (readExactAt file') =
      readUnit vhdx.blockSize vhdx.locate (readExactAt vhdx.file) := by
    funext p n
    rw [readUnit, readUnit]
    cases hplace : vhdx.locate (p / vhdx.blockSize) with
    | error e => rfl
    | ok place =>
      cases place with
      | zero => rfl
      | «at» base =>
        have hbase : 2 ^ 20 ≤ base := by
          obtain ⟨-, entry, hentry, hpresent, rfl⟩ := Vhdx.locate_at hplace
          have hfar := hblocks entry (List.mem_of_getElem? hentry) hpresent
          have hquotient := Nat.div_pos hfar (Nat.two_pow_pos 20)
          omega
        simp only
        split
        · rfl
        · exact hread _ _ (by omega)
  have hunits : readUnits vhdx.virtualSize vhdx.blockSize vhdx.locate (readExactAt file') offset len =
      readUnits vhdx.virtualSize vhdx.blockSize vhdx.locate (readExactAt vhdx.file) offset len := by
    rw [readUnits, readUnits, hunit]
  exact hunits

/-- An image of one block that also has the second region table. -/
def twoTables : List UInt8 := overwrite (dynamicVhdx lowBlock) (256 * 1024) (regionTable 8)

private theorem twoTables_fits : 256 * 1024 + (regionTable 8).length ≤ (dynamicVhdx lowBlock).length := by
  rw [length_regionTable, length_dynamicVhdx, FIRST_BLOCK_OFF, MIB]
  omega

private theorem read_twoTables {p n : ℕ} (h : p + n ≤ 256 * 1024 ∨ 320 * 1024 ≤ p) :
    readExactAt twoTables p n = readExactAt (dynamicVhdx lowBlock) p n := by
  refine readExactAt_overwrite twoTables_fits ?_
  rw [length_regionTable]
  omega

private def twoTablesRegions : Regions := ⟨some (BAT_REGION_OFF, 8), some (METADATA_REGION_OFF, MIB)⟩

private theorem twoTables_behind (place : ℕ × ℕ)
    (h : twoTablesRegions.bat = some place ∨ twoTablesRegions.metadata = some place) :
    320 * 1024 ≤ place.1 := by
  rcases h with h | h <;> cases h <;> decide

private theorem twoTables_redundant : Redundant twoTables twoTablesRegions where
  headers := by
    have hparse (sequence offset : ℕ) (hoffset : offset + 4096 ≤ 256 * 1024)
        (hmem : (offset, headerCopy sequence 0) ∈ imageFields lowBlock) :
        ∃ header, parseOneHeader (headerAt twoTables offset) = .ok header := by
      have hread := read_field (length_headerCopy sequence 0) hmem
      rw [← read_twoTables (.inl hoffset)] at hread
      rw [headerAt, ← (readExactAt_ok hread).1]
      exact ⟨⟨sequenceOf (headerCopy sequence 0)⟩, parseOneHeader_ok.2
        ⟨headerCopy_valid sequence 0, (cleanLog_headerCopy sequence 0).2 rfl, rfl⟩⟩
    intro offset hmem
    simp only [List.mem_cons, List.not_mem_nil, or_false] at hmem
    rcases hmem with rfl | rfl
    · exact hparse 2 _ (by decide) (by simp [imageFields])
    · exact hparse 1 _ (by decide) (by simp [imageFields])
  tables := by
    have hparse : parseRegionTable (regionTable 8) = .ok twoTablesRegions :=
      parseRegionTable_regionTable (by decide)
    intro offset hmem
    simp only [List.mem_cons, List.not_mem_nil, or_false] at hmem
    rcases hmem with rfl | rfl
    · have hread : readExactAt (dynamicVhdx lowBlock) (192 * 1024) (64 * 1024) = .ok (regionTable 8) :=
        read_field (length_regionTable 8) (by simp [imageFields, lowBlock, oneBlockParts])
      rw [readRegionsAt, read_twoTables (.inl (by decide)), hread]
      exact hparse
    · have hread : readExactAt twoTables (256 * 1024) (64 * 1024) = .ok (regionTable 8) := by
        have hfits := twoTables_fits
        rw [twoTables, ← length_regionTable 8, readExactAt_eq (by rwa [length_overwrite hfits]),
          slice_overwrite_of_subset hfits (Nat.le_refl _) (Nat.le_refl _), Nat.sub_self, slice_all]
      rw [readRegionsAt, hread]
      exact hparse
  behind := twoTables_behind

end XBoot.VhdxFile
