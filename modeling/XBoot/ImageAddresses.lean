import XBoot.UnitReads
import XBoot.VhdChain
import XBoot.VhdxImages

/-!
# Addresses of image bytes

The places of the units come unchecked from the image. A read of a dynamic VHD never
overflows, because its table has sector numbers of 32 bits. An entry of a VHDX has the
offset of its block itself, and the position behind it can pass `2 ^ 64`.
-/

namespace XBoot.Storage

open ListSlices UnitWalk

/-- The start of a unit in the file, and the position of a byte that is taken from it. -/
structure Origin where
  unitStart : ℕ
  pos : ℕ

/-- A read ends with an `io::Error`, or with zeros and bytes of the file that do not lie before
their unit. -/
def SafeRead (file : List UInt8) (origin : ℕ → Option Origin) (offset len : ℕ) :
    Outcome (List UInt8) → Prop
  | .error e => ∃ io, e = .io io
  | .ok bytes => bytes.length = len ∧ ∀ i < len, match origin (offset + i) with
    | none => bytes[i]? = some 0
    | some place => place.unitStart ≤ place.pos ∧ place.pos < file.length ∧ bytes[i]? = file[place.pos]?

private theorem safeRead_of_places {virtualSize unitSize offset len : ℕ}
    {locate : ℕ → Outcome UnitPlace} {file : List UInt8} {origin : ℕ → Option Origin}
    (hunit : 0 < unitSize)
    (hzero : ∀ p, locate (p / unitSize) = .ok .zero → origin p = none)
    (hplace : ∀ p base, locate (p / unitSize) = .ok (.at base) →
      ∃ start ≤ base, origin p = some ⟨start, base + p % unitSize⟩)
    (hfails : ∀ e, readUnits virtualSize unitSize locate (readExactAt file) offset len = .error e →
      ∃ io, e = .io io) :
    SafeRead file origin offset len
      (readUnits virtualSize unitSize locate (readExactAt file) offset len) := by
  cases hread : readUnits virtualSize unitSize locate (readExactAt file) offset len with
  | error e => exact hfails e hread
  | ok bytes =>
    obtain ⟨hlen, hall⟩ := readUnits_from_file hunit hread
    refine ⟨hlen, fun i hi => ?_⟩
    rcases hall i hi with ⟨hlocate, hbyte⟩ | ⟨base, hlocate, hin, hbyte⟩
    · rw [hzero _ hlocate]
      exact hbyte
    · obtain ⟨start, hle, horigin⟩ := hplace _ base hlocate
      rw [horigin]
      exact ⟨Nat.le_trans hle (Nat.le_add_right _ _), hin, hbyte⟩

end XBoot.Storage

namespace XBoot.VhdxFile

open ListSlices Storage

namespace Vhdx

/-- Where the byte at position `p` of the disk comes from; `none` is a zero. -/
def origin (vhdx : Vhdx) (p : ℕ) : Option Origin :=
  match vhdx.bat[p / vhdx.blockSize + p / vhdx.blockSize / vhdx.chunkRatio]? with
  | none => none
  | some entry =>
    if entry % 8 = PB_STATE_FULLY_PRESENT then
      some ⟨entry / 2 ^ 20 * 2 ^ 20, entry / 2 ^ 20 * 2 ^ 20 + p % vhdx.blockSize⟩
    else none

/-- No index of a table entry and no position in a stored block of the disk passes `2 ^ 64`. -/
def AddressesFit (vhdx : Vhdx) : Prop :=
  ∀ block, block * vhdx.blockSize < vhdx.virtualSize →
    block + block / vhdx.chunkRatio < 2 ^ 64 ∧
      ∀ entry, vhdx.bat[block + block / vhdx.chunkRatio]? = some entry →
        entry % 8 = PB_STATE_FULLY_PRESENT →
          entry / 2 ^ 20 * 2 ^ 20 +
            min vhdx.blockSize (vhdx.virtualSize - block * vhdx.blockSize) ≤ 2 ^ 64

variable {vhdx : Vhdx}

/-- What a table entry says of its block. -/
theorem locate_entry {block entry : ℕ} (hindex : block + block / vhdx.chunkRatio < 2 ^ 64)
    (he : vhdx.bat[block + block / vhdx.chunkRatio]? = some entry) :
    vhdx.locate block =
      if entry % 8 = PB_STATE_FULLY_PRESENT then .ok (.at (entry / 2 ^ 20 * 2 ^ 20))
      else if entry % 8 = PB_STATE_PARTIALLY_PRESENT then
        .error (invalidData "partially-present VHDX block unsupported")
      else .ok .zero := by
  rw [locate, if_neg (Nat.not_le.2 hindex), he]

theorem locate_error {block : ℕ} {e : Failure} (hindex : block + block / vhdx.chunkRatio < 2 ^ 64)
    (h : vhdx.locate block = .error e) : ∃ io, e = .io io := by
  rw [locate, if_neg (Nat.not_le.2 hindex)] at h
  split at h
  · cases h
    exact ⟨_, rfl⟩
  · split at h
    · cases h
    · split at h
      · cases h
        exact ⟨_, rfl⟩
      · cases h

theorem locate_at {block base : ℕ} (h : vhdx.locate block = .ok (.at base)) :
    block + block / vhdx.chunkRatio < 2 ^ 64 ∧
      ∃ entry, vhdx.bat[block + block / vhdx.chunkRatio]? = some entry ∧
        entry % 8 = PB_STATE_FULLY_PRESENT ∧ base = entry / 2 ^ 20 * 2 ^ 20 := by
  rw [locate] at h
  split at h
  · cases h
  · rename_i hindex
    cases hentry : vhdx.bat[block + block / vhdx.chunkRatio]? with
    | none =>
      rw [hentry] at h
      cases h
    | some entry =>
      rw [hentry] at h
      simp only at h
      split at h
      · rename_i hpresent
        cases h
        exact ⟨Nat.not_le.1 hindex, entry, rfl, hpresent, rfl⟩
      · split at h <;> cases h

theorem locate_zero {block : ℕ} (h : vhdx.locate block = .ok .zero) :
    ∃ entry, vhdx.bat[block + block / vhdx.chunkRatio]? = some entry ∧
      entry % 8 ≠ PB_STATE_FULLY_PRESENT := by
  rw [locate] at h
  split at h
  · cases h
  · cases hentry : vhdx.bat[block + block / vhdx.chunkRatio]? with
    | none =>
      rw [hentry] at h
      cases h
    | some entry =>
      rw [hentry] at h
      simp only at h
      split at h
      · cases h
      · rename_i hpresent
        exact ⟨entry, rfl, hpresent⟩

/-- The addresses of an image fit exactly when all positions of its disk are safely located. -/
theorem addressesFit_iff : vhdx.AddressesFit ↔
    ∀ p < vhdx.virtualSize, SafelyLocated vhdx.blockSize vhdx.locate p := by
  have hpos := vhdx.blockSize_pos
  constructor
  · intro h p hp
    have hmod := Nat.div_add_mod' p vhdx.blockSize
    have hlt := Nat.mod_lt p hpos
    obtain ⟨hindex, hentries⟩ := h (p / vhdx.blockSize) (by omega)
    refine ⟨fun e he => locate_error hindex he, fun base hbase => ?_⟩
    obtain ⟨-, entry, he, hpresent, rfl⟩ := locate_at hbase
    have hfit := hentries entry he hpresent
    omega
  · intro h block hblock
    have hstart : block * vhdx.blockSize / vhdx.blockSize = block := Nat.mul_div_cancel _ hpos
    have hindex : block + block / vhdx.chunkRatio < 2 ^ 64 := by
      by_contra hge
      obtain ⟨io, hio⟩ := (h _ hblock).1 .panic (by
        rw [hstart, locate]
        exact if_pos (Nat.not_lt.1 hge))
      cases hio
    refine ⟨hindex, fun entry he hpresent => ?_⟩
    -- the last position of the disk in this block
    obtain ⟨last, hlast⟩ : ∃ last,
        last + 1 = min vhdx.blockSize (vhdx.virtualSize - block * vhdx.blockSize) :=
      ⟨min vhdx.blockSize (vhdx.virtualSize - block * vhdx.blockSize) - 1, by omega⟩
    have hdiv : (block * vhdx.blockSize + last) / vhdx.blockSize = block :=
      Nat.div_eq_of_lt_le (by omega) (by rw [Nat.add_mul, Nat.one_mul]; omega)
    have hmod := Nat.div_add_mod' (block * vhdx.blockSize + last) vhdx.blockSize
    have hsafe := (h (block * vhdx.blockSize + last) (by omega)).2 (entry / 2 ^ 20 * 2 ^ 20) (by
      rw [hdiv, locate_entry hindex he]
      exact if_pos hpresent)
    rw [hdiv] at hmod
    omega

end Vhdx

theorem load_file {file : List UInt8} {regions : Regions} {vhdx : Vhdx}
    (h : load file regions = .ok vhdx) :
    vhdx.file = file ∧ ∃ batOff batLen, vhdx.bat = batEntries (slice file batOff batLen) := by
  rw [load] at h
  split at h
  · cases h
  · split at h
    · cases h
    · split at h
      · cases h
      · split at h
        · cases h
        · simp only at h
          split at h
          · cases h
          · split at h
            · cases h
            · rename_i raw hraw
              cases h
              exact ⟨rfl, _, _, congrArg batEntries (readExactAt_ok hraw).1⟩

theorem open_file {file : List UInt8} {vhdx : Vhdx} (h : Vhdx.open file = .ok vhdx) :
    vhdx.file = file ∧ ∃ batOff batLen, vhdx.bat = batEntries (slice file batOff batLen) := by
  rw [Vhdx.open] at h
  split at h
  · cases h
  · split at h
    · cases h
    · split at h
      · cases h
      · split at h
        · cases h
        · exact load_file h

/-- Reads of a VHDX are safe exactly when its addresses fit. -/
theorem vhdx_reads_safe_iff {file : List UInt8} {vhdx : Vhdx} (h : Vhdx.open file = .ok vhdx) :
    (∀ offset len, SafeRead file vhdx.origin offset len (vhdx.readAt offset len)) ↔
      vhdx.AddressesFit := by
  obtain ⟨hfile, -⟩ := open_file h
  have hsafe : _ ↔ ∀ p < vhdx.virtualSize, SafelyLocated vhdx.blockSize vhdx.locate p :=
    reads_safe_iff vhdx.blockSize_pos file vhdx.virtualSize_lt
  rw [Vhdx.addressesFit_iff, ← hsafe]
  have hread (offset len : ℕ) : vhdx.readAt offset len =
      readUnits vhdx.virtualSize vhdx.blockSize vhdx.locate (readExactAt file) offset len := by
    rw [← hfile]
    rfl
  constructor
  · intro hall offset len e herror
    have hresult := hall offset len
    rw [hread, herror] at hresult
    exact hresult
  · intro hall offset len
    rw [hread]
    apply safeRead_of_places vhdx.blockSize_pos
    · intro p hzero
      obtain ⟨entry, he, hstate⟩ := Vhdx.locate_zero hzero
      rw [Vhdx.origin, he]
      exact if_neg hstate
    · intro p base hbase
      obtain ⟨-, entry, he, hstate, rfl⟩ := Vhdx.locate_at hbase
      refine ⟨_, Nat.le_refl _, ?_⟩
      rw [Vhdx.origin, he]
      exact if_pos hstate
    · exact hall offset len

end XBoot.VhdxFile

namespace XBoot.Vhd

open ListSlices Storage

namespace DynamicVhd

/-- Where the byte at position `p` of the disk comes from, the units being the blocks. -/
def origin (ignoreBitmap : Bool) (vhd : DynamicVhd) (p : ℕ) : Option Origin :=
  match vhd.bat[p / SECTOR / vhd.sectorsPerBlock]? with
  | none => none
  | some entry =>
    if entry ≠ HOLE ∧ (ignoreBitmap || vhd.bitSet (p / SECTOR)) then
      some ⟨entry * SECTOR, vhd.dataOffset entry (p / SECTOR) + p % SECTOR⟩
    else none

variable {vhd : DynamicVhd} {ignoreBitmap : Bool} {sector : ℕ}

theorem sectorOffset_ok {place : Option ℕ} (h : vhd.sectorOffset ignoreBitmap sector = .ok place) :
    place = if ignoreBitmap || vhd.bitSet sector then vhd.place sector else none := by
  by_cases hcover : sector / vhd.sectorsPerBlock < vhd.bat.length
  · rw [sectorOffset_eq ignoreBitmap hcover] at h
    cases h
    rfl
  · rw [sectorOffset, List.getElem?_eq_none (Nat.not_lt.1 hcover)] at h
    cases h

theorem sectorOffset_error {e : Failure} (h : vhd.sectorOffset ignoreBitmap sector = .error e) :
    ∃ io, e = .io io := by
  by_cases hcover : sector / vhd.sectorsPerBlock < vhd.bat.length
  · rw [sectorOffset_eq ignoreBitmap hcover] at h
    cases h
  · rw [sectorOffset, List.getElem?_eq_none (Nat.not_lt.1 hcover)] at h
    cases h
    exact ⟨_, rfl⟩

theorem sectorOffset_lt {off : ℕ} (h : vhd.sectorOffset ignoreBitmap sector = .ok (some off)) :
    off + SECTOR < 2 ^ 64 := by
  have hplace := sectorOffset_ok h
  split at hplace
  · exact place_lt hplace.symm
  · cases hplace

theorem origin_of_none {p : ℕ} (h : vhd.locate ignoreBitmap (p / SECTOR) = .ok .zero) :
    vhd.origin ignoreBitmap p = none := by
  rw [locate] at h
  split at h
  · cases h
  · rename_i hoffset
    have hplace := sectorOffset_ok hoffset
    rw [place] at hplace
    rw [origin]
    cases hentry : vhd.bat[p / SECTOR / vhd.sectorsPerBlock]? with
    | none => rfl
    | some entry =>
      apply if_neg
      rintro ⟨hhole, hbit⟩
      rw [if_pos hbit, hentry] at hplace
      simp only [if_neg hhole] at hplace
      cases hplace
  · cases h

theorem origin_of_some {p base : ℕ} (h : vhd.locate ignoreBitmap (p / SECTOR) = .ok (.at base)) :
    ∃ start ≤ base, vhd.origin ignoreBitmap p = some ⟨start, base + p % SECTOR⟩ := by
  rw [locate] at h
  split at h
  · cases h
  · cases h
  · rename_i hoffset
    cases h
    have hplace := sectorOffset_ok hoffset
    split at hplace
    · rename_i hbit
      rw [place] at hplace
      rw [origin]
      cases hentry : vhd.bat[p / SECTOR / vhd.sectorsPerBlock]? with
      | none =>
        rw [hentry] at hplace
        cases hplace
      | some entry =>
        rw [hentry] at hplace
        simp only at hplace
        split at hplace
        · cases hplace
        · rename_i hhole
          cases hplace
          refine ⟨entry * SECTOR, ?_, if_pos ⟨hhole, hbit⟩⟩
          rw [dataOffset, Nat.add_assoc]
          exact Nat.le_add_right _ _
    · cases hplace

theorem safelyLocated (ignoreBitmap : Bool) (vhd : DynamicVhd) (p : ℕ) :
    SafelyLocated SECTOR (vhd.locate ignoreBitmap) p := by
  have hmod := Nat.mod_lt p (show 0 < SECTOR by decide)
  refine ⟨fun e h => ?_, fun base h => ?_⟩
  · rw [locate] at h
    split at h
    · rename_i hoffset
      cases h
      exact sectorOffset_error hoffset
    · cases h
    · cases h
  · rw [locate] at h
    split at h
    · cases h
    · cases h
    · rename_i hoffset
      cases h
      have hlt := sectorOffset_lt hoffset
      omega

theorem open_file {file : List UInt8} (h : DynamicVhd.open file = .ok vhd) : vhd.file = file := by
  rw [DynamicVhd.open] at h
  split at h
  · cases h
  · split at h
    · cases h
    · split at h
      · cases h
      · split at h
        · cases h
        · dsimp only at h
          split at h
          · cases h
          · cases h
            rfl

theorem reads_safe {file : List UInt8} (h : DynamicVhd.open file = .ok vhd) (ignoreBitmap : Bool)
    (offset len : ℕ) :
    SafeRead file (vhd.origin ignoreBitmap) offset len (vhd.readAt ignoreBitmap offset len) := by
  have hread : vhd.readAt ignoreBitmap offset len =
      readUnits vhd.virtualSize SECTOR (vhd.locate ignoreBitmap) (readExactAt file) offset len := by
    rw [← open_file h]
    rfl
  rw [hread]
  have hfails := (reads_safe_iff (by decide) file vhd.virtualSize_lt).2
    fun p _ => safelyLocated ignoreBitmap vhd p
  exact safeRead_of_places (by decide) (fun p => origin_of_none) (fun p base => origin_of_some)
    (hfails offset len)

end DynamicVhd

end XBoot.Vhd

namespace XBoot.VhdxFile

open Storage Vhd

/-- Reads of an opened VHDX are safe exactly when its addresses fit; those of an opened dynamic
VHD always are. -/
theorem image_reads_safe_iff (file : List UInt8) :
    (∀ vhdx, Vhdx.open file = .ok vhdx →
      ((∀ offset len, SafeRead file vhdx.origin offset len (vhdx.readAt offset len)) ↔
        vhdx.AddressesFit)) ∧
    ∀ vhd, DynamicVhd.open file = .ok vhd → ∀ ignoreBitmap,
      (∀ offset len, SafeRead file (vhd.origin ignoreBitmap) offset len
        (vhd.readAt ignoreBitmap offset len)) ∧
      ∀ sector off, vhd.sectorOffset ignoreBitmap sector = .ok (some off) → off + SECTOR < 2 ^ 64 :=
  ⟨fun _ => vhdx_reads_safe_iff, fun _ h ignoreBitmap =>
    ⟨DynamicVhd.reads_safe h ignoreBitmap, fun _ _ => DynamicVhd.sectorOffset_lt⟩⟩

/-- One block of 2 MiB with a given table entry, and no data. -/
def oneBlockParts (entry : ℕ) (h : entry < 2 ^ 64) : ImageParts where
  blockSize := 2 ^ 21
  sectorSize := 512
  virtualSize := 2 ^ 21
  entries := [entry]
  data := []
  blockSize_pow := ⟨21, by decide, rfl⟩
  sectorSize_pow := ⟨9, by decide, rfl⟩
  ratio_pos := by decide
  virtualSize_lt := by decide
  entries_lt := by simpa using h
  entries_le := show 8 * 1 ≤ MIB by decide

def lowBlock : ImageParts := oneBlockParts 0x300006 (by decide)

def highBlock : ImageParts := oneBlockParts 0xFFFFFFFFFFF00006 (by decide)

/-- An image with a block in the file, and an increment with one block. -/
theorem low_block_reads_safe :
    (∃ vhdx, Vhdx.open (dynamicVhdx lowBlock) = .ok vhdx ∧ ∀ offset len,
      SafeRead (dynamicVhdx lowBlock) vhdx.origin offset len (vhdx.readAt offset len)) ∧
    ∃ vhd, DynamicVhd.open (oneBlockIncrement 0x80 1).bytes = .ok vhd ∧ ∀ offset len,
      SafeRead (oneBlockIncrement 0x80 1).bytes (vhd.origin false) offset len
        (vhd.readAt false offset len) := by
  obtain ⟨vhdx, hopen, -, hsize, hblock, hratio, hbat⟩ := open_dynamicVhdx lowBlock
  obtain ⟨vhd, hopen', -⟩ := oneBlockIncrement_opens
  have hvhdx := (image_reads_safe_iff (dynamicVhdx lowBlock)).1 vhdx hopen
  have hvhd := (image_reads_safe_iff (oneBlockIncrement 0x80 1).bytes).2 vhd hopen' false
  refine ⟨⟨vhdx, hopen, hvhdx.2 fun block hstart => ?_⟩, vhd, hopen', hvhd.1⟩
  have hzero : block = 0 := by
    rw [hsize, hblock] at hstart
    have hlt : block * 2 ^ 21 < 2 ^ 21 := hstart
    omega
  subst hzero
  rw [Nat.zero_div, hbat, hblock, hsize]
  refine ⟨by decide, fun entry he _ => ?_⟩
  cases he
  decide

/-- A read in the second half of the high block adds up to `2 ^ 64`. -/
theorem high_block_overflows : ∃ vhdx, Vhdx.open (dynamicVhdx highBlock) = .ok vhdx ∧
    vhdx.readAt (2 ^ 20) 1 = .error .panic ∧
    ¬ SafeRead (dynamicVhdx highBlock) vhdx.origin (2 ^ 20) 1 (vhdx.readAt (2 ^ 20) 1) := by
  obtain ⟨vhdx, hopen, -, hsize, hblock, hratio, hbat⟩ := open_dynamicVhdx highBlock
  have hnumber : 2 ^ 20 / vhdx.blockSize = 0 := by
    rw [hblock]
    decide
  have hwithin : 2 ^ 20 % vhdx.blockSize = 2 ^ 20 := by
    rw [hblock]
    decide
  have hlocate : vhdx.locate 0 = .ok (.at 0xFFFFFFFFFFF00000) := by
    have hentry : vhdx.bat[0 + 0 / vhdx.chunkRatio]? = some 0xFFFFFFFFFFF00006 := by
      rw [hbat, Nat.zero_div]
      rfl
    rw [Vhdx.locate_entry (by rw [Nat.zero_div]; decide) hentry]
    decide
  have hread : vhdx.readAt (2 ^ 20) 1 = .error .panic := by
    apply readUnits_one vhdx.blockSize_pos vhdx.virtualSize_lt (by rw [hsize]; decide)
    rw [readUnit, hnumber, hlocate, hwithin]
    exact if_pos (by decide)
  refine ⟨vhdx, hopen, hread, ?_⟩
  rw [hread]
  rintro ⟨io, hio⟩
  cases hio

end XBoot.VhdxFile
