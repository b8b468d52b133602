import XBoot.BackingStore
import XBoot.BigEndian
import Mathlib.Data.Nat.Log

/-!
# Reading a dynamic VHD

The trailing footer and the dynamic header describe a block allocation table whose
entries are sector numbers; each allocated block is a bitmap of its sectors followed
by their data. `open` checks footer and header and loads the table and the bitmaps,
and an opened image carries what it checked.
-/

namespace XBoot.Vhd

open ListSlices UnitWalk BigEndian Storage

def SECTOR : ℕ := 512
def DISK_TYPE_FIXED : ℕ := 2
def DISK_TYPE_DYNAMIC : ℕ := 3

/-- The table entry of an unallocated block. -/
def HOLE : ℕ := 0xFFFFFFFF

/-- One's complement of the byte sum without the bytes `lo..hi` of the checksum itself. -/
def checksum (buf : List UInt8) (lo hi : ℕ) : ℕ :=
  2 ^ 32 - 1 - ((buf.take lo ++ buf.drop hi).map UInt8.toNat).sum % 2 ^ 32

/-- The parsed fields of a 512-byte VHD footer that are used. -/
structure VhdFooter where
  dataOffset : ℕ
  currentSize : ℕ
  diskType : ℕ
  currentSize_lt : currentSize < 2 ^ 64

def VhdFooter.parse (bytes : List UInt8) : Outcome VhdFooter :=
  if bytes.length < 512 then .error (invalidData "VHD footer shorter than 512 bytes")
  else
    let f := bytes.take 512
    if slice f 0 8 ≠ ascii "conectix" then .error (invalidData "VHD footer cookie mismatch")
    else if checksum f 64 68 ≠ ofBe (slice f 64 4) then
      .error (invalidData "VHD footer checksum mismatch")
    else .ok {
      dataOffset := ofBe (slice f 16 8)
      currentSize := ofBe (slice f 48 8)
      diskType := ofBe (slice f 60 4)
      currentSize_lt := ofBe_slice_lt f 48 8 }

def trailingFooter (file : List UInt8) : Outcome VhdFooter :=
  if file.length < 512 then .error (invalidData "VHD file shorter than a footer")
  else match readExactAt file (file.length - 512) 512 with
    | .error e => .error e
    | .ok footer => VhdFooter.parse footer

structure Layout where
  tableOffset : ℕ
  maxEntries : ℕ
  blockSize : ℕ
  sector_le : SECTOR ≤ blockSize
  blockSize_lt : blockSize < 2 ^ 32

/-- The bytes of a block's sector bitmap, padded to whole sectors. -/
def bitmapSizeOf (blockSize : ℕ) : ℕ := (((blockSize / SECTOR + 7) / 8 + 511) / SECTOR) * SECTOR

private theorem sector_le_of_multiple {n : ℕ} (h : ¬ (n = 0 ∨ n % SECTOR ≠ 0 ∨ 2 ^ n.log2 ≠ n)) :
    SECTOR ≤ n := by
  rw [not_or, not_or] at h
  have hmod : n % SECTOR = 0 := by_contra h.2.1
  exact Nat.le_of_dvd (by omega) (Nat.dvd_of_mod_eq_zero hmod)

def readLayout (file : List UInt8) (dataOffset : ℕ) : Outcome Layout :=
  match readExactAt file dataOffset 1024 with
  | .error e => .error e
  | .ok hdr =>
    if slice hdr 0 8 ≠ ascii "cxsparse" then .error (invalidData "dynamic header cookie mismatch")
    else
      let blockSize := ofBe (slice hdr 32 4)
      if h : blockSize = 0 ∨ blockSize % SECTOR ≠ 0 ∨ 2 ^ blockSize.log2 ≠ blockSize then
        .error (invalidData "invalid dynamic VHD block size")
      else if 2 ^ 32 < ofBe (slice hdr 28 4) then .error (invalidData "dynamic VHD BAT too large")
      else .ok {
        tableOffset := ofBe (slice hdr 16 8)
        maxEntries := ofBe (slice hdr 28 4)
        blockSize
        sector_le := sector_le_of_multiple h
        blockSize_lt := ofBe_slice_lt hdr 32 4 }

def tableEntries (raw : List UInt8) (n : ℕ) : List ℕ :=
  (List.range n).map fun i => ofBe (slice raw (4 * i) 4)

/-- The preloaded sector bitmaps; a hole has none. -/
def loadBitmaps (file : List UInt8) (bitmapSize : ℕ) : List ℕ → Outcome (List (Option (List UInt8)))
  | [] => .ok []
  | entry :: rest =>
    if entry = HOLE then
      match loadBitmaps file bitmapSize rest with
      | .error e => .error e
      | .ok bitmaps => .ok (none :: bitmaps)
    else match readExactAt file (entry * SECTOR) bitmapSize with
      | .error e => .error e
      | .ok bitmap => match loadBitmaps file bitmapSize rest with
        | .error e => .error e
        | .ok bitmaps => .ok (some bitmap :: bitmaps)

theorem loadBitmaps_ok {file : List UInt8} {bitmapSize : ℕ} (hpos : bitmapSize ≠ 0) {bat : List ℕ}
    {bitmaps : List (Option (List UInt8))} (h : loadBitmaps file bitmapSize bat = .ok bitmaps) :
    bitmaps = bat.map (fun entry =>
        if entry = HOLE then none else some (slice file (entry * SECTOR) bitmapSize)) ∧
      ∀ entry ∈ bat, entry ≠ HOLE → entry * SECTOR + bitmapSize ≤ file.length := by
  induction bat generalizing bitmaps with
  | nil => cases h; exact ⟨rfl, by simp⟩
  | cons entry rest ih =>
    rw [loadBitmaps] at h
    split at h
    · rename_i hhole
      split at h
      · cases h
      · rename_i hrest
        cases h
        obtain ⟨heq, hin⟩ := ih hrest
        rw [List.map_cons, if_pos hhole, heq]
        refine ⟨rfl, fun e he hne => ?_⟩
        rcases List.mem_cons.1 he with rfl | he
        · exact absurd hhole hne
        · exact hin e he hne
    · rename_i hhole
      split at h
      · cases h
      · rename_i bitmap hread
        split at h
        · cases h
        · rename_i hrest
          cases h
          obtain ⟨heq, hin⟩ := ih hrest
          rw [List.map_cons, if_neg hhole, heq, (readExactAt_ok hread).1]
          refine ⟨rfl, fun e he hne => ?_⟩
          rcases List.mem_cons.1 he with rfl | he
          · exact readExactAt_in_file hpos hread
          · exact hin e he hne

theorem bitmapSizeOf_ne_zero {blockSize : ℕ} (h : SECTOR ≤ blockSize) :
    bitmapSizeOf blockSize ≠ 0 := by
  rw [bitmapSizeOf, SECTOR] at *
  omega

/-- An opened dynamic VHD. -/
structure DynamicVhd where
  file : List UInt8
  virtualSize : ℕ
  layout : Layout
  bat : List ℕ
  bitmaps : List (Option (List UInt8))
  virtualSize_lt : virtualSize < 2 ^ 64
  bat_lt : ∀ entry ∈ bat, entry < 2 ^ 32
  bitmaps_eq : bitmaps = bat.map fun entry =>
    if entry = HOLE then none else some (slice file (entry * SECTOR) (bitmapSizeOf layout.blockSize))
  bitmaps_in_file : ∀ entry ∈ bat, entry ≠ HOLE →
    entry * SECTOR + bitmapSizeOf layout.blockSize ≤ file.length

theorem tableEntries_lt (raw : List UInt8) (n : ℕ) : ∀ entry ∈ tableEntries raw n, entry < 2 ^ 32 := by
  intro entry he
  obtain ⟨i, -, rfl⟩ := List.mem_map.1 he
  exact ofBe_slice_lt raw (4 * i) 4

/-- `DynamicVhd::open` of a file with these bytes. -/
def DynamicVhd.open (file : List UInt8) : Outcome DynamicVhd :=
  match trailingFooter file with
  | .error e => .error e
  | .ok footer =>
    if footer.diskType ≠ DISK_TYPE_DYNAMIC then .error (invalidData "not a dynamic VHD")
    else match readLayout file footer.dataOffset with
      | .error e => .error e
      | .ok layout => match readExactAt file layout.tableOffset (layout.maxEntries * 4) with
        | .error e => .error e
        | .ok raw =>
          let bat := tableEntries raw layout.maxEntries
          match h : loadBitmaps file (bitmapSizeOf layout.blockSize) bat with
          | .error e => .error e
          | .ok bitmaps => .ok {
            file, layout, bat, bitmaps
            virtualSize := footer.currentSize
            virtualSize_lt := footer.currentSize_lt
            bat_lt := tableEntries_lt raw layout.maxEntries
            bitmaps_eq := (loadBitmaps_ok (bitmapSizeOf_ne_zero layout.sector_le) h).1
            bitmaps_in_file := (loadBitmaps_ok (bitmapSizeOf_ne_zero layout.sector_le) h).2 }

theorem loadBitmaps_succeeds {file : List UInt8} {bitmapSize : ℕ} {bat : List ℕ}
    (h : ∀ entry ∈ bat, entry ≠ HOLE → entry * SECTOR + bitmapSize ≤ file.length) :
    ∃ bitmaps, loadBitmaps file bitmapSize bat = .ok bitmaps := by
  induction bat with
  | nil => exact ⟨[], rfl⟩
  | cons entry rest ih =>
    obtain ⟨bitmaps, hrest⟩ := ih fun e he => h e (List.mem_cons_of_mem _ he)
    rw [loadBitmaps, hrest]
    split
    · exact ⟨_, rfl⟩
    · rename_i hhole
      rw [readExactAt_eq (h entry List.mem_cons_self hhole)]
      exact ⟨_, rfl⟩

section Open

variable {file raw : List UInt8} {footer : VhdFooter} {layout : Layout}
  (hfooter : trailingFooter file = .ok footer) (htype : footer.diskType = DISK_TYPE_DYNAMIC)
  (hlayout : readLayout file footer.dataOffset = .ok layout)
  (hraw : readExactAt file layout.tableOffset (layout.maxEntries * 4) = .ok raw)
include hfooter htype hlayout hraw

theorem DynamicVhd.open_fields {vhd : DynamicVhd} (h : DynamicVhd.open file = .ok vhd) :
    vhd.file = file ∧ vhd.virtualSize = footer.currentSize ∧ vhd.layout = layout ∧
      vhd.bat = tableEntries raw layout.maxEntries := by
  simp only [DynamicVhd.open, hfooter, if_neg (not_not.2 htype), hlayout, hraw] at h
  split at h
  · cases h
  · cases h
    exact ⟨rfl, rfl, rfl, rfl⟩

theorem DynamicVhd.open_succeeds (h : ∀ entry ∈ tableEntries raw layout.maxEntries, entry ≠ HOLE →
    entry * SECTOR + bitmapSizeOf layout.blockSize ≤ file.length) :
    ∃ vhd, DynamicVhd.open file = .ok vhd := by
  obtain ⟨bitmaps, hbitmaps⟩ := loadBitmaps_succeeds h
  simp only [DynamicVhd.open, hfooter, if_neg (not_not.2 htype), hlayout, hraw]
  split
  · rename_i e he
    rw [hbitmaps] at he
    cases he
  · exact ⟨_, rfl⟩

end Open

namespace DynamicVhd

def sectorsPerBlock (vhd : DynamicVhd) : ℕ := vhd.layout.blockSize / SECTOR

/-- Where the data of `sector` lies in the block with table entry `entry`. -/
def dataOffset (vhd : DynamicVhd) (entry sector : ℕ) : ℕ :=
  entry * SECTOR + bitmapSizeOf vhd.layout.blockSize + sector % vhd.sectorsPerBlock * SECTOR

/-- `sector_offset`; `ignoreBitmap` says that the environment has `XBOOT_IGNORE_BITMAP`. -/
def sectorOffset (ignoreBitmap : Bool) (vhd : DynamicVhd) (sector : ℕ) : Outcome (Option ℕ) :=
  match vhd.bat[sector / vhd.sectorsPerBlock]? with
  | none => .error (invalidData "sector beyond BAT")
  | some entry =>
    if entry = HOLE then .ok none
    else if ignoreBitmap then .ok (some (vhd.dataOffset entry sector))
    else match vhd.bitmaps[sector / vhd.sectorsPerBlock]? with
      | none => .error .panic
      | some none => .error (invalidData "allocated block without bitmap")
      | some (some bitmap) => match bitmap[sector % vhd.sectorsPerBlock / 8]? with
        | none => .error .panic
        | some byte =>
          if byte.toNat.testBit (7 - sector % vhd.sectorsPerBlock % 8) then
            .ok (some (vhd.dataOffset entry sector))
          else .ok none

/-- `block_sector_offset`: as `sector_offset`, whatever the bitmap says. -/
def blockSectorOffset (vhd : DynamicVhd) (sector : ℕ) : Outcome (Option ℕ) :=
  match vhd.bat[sector / vhd.sectorsPerBlock]? with
  | none => .error (invalidData "sector beyond BAT")
  | some entry => if entry = HOLE then .ok none else .ok (some (vhd.dataOffset entry sector))

def readPhys (vhd : DynamicVhd) (offset len : ℕ) : Outcome (List UInt8) :=
  readExactAt vhd.file offset len

/-- `locate` of the sector-sized units of `read_at`. -/
def locate (ignoreBitmap : Bool) (vhd : DynamicVhd) (sector : ℕ) : Outcome UnitPlace :=
  match vhd.sectorOffset ignoreBitmap sector with
  | .error e => .error e
  | .ok none => .ok .zero
  | .ok (some off) => .ok (.at off)

def readAt (ignoreBitmap : Bool) (vhd : DynamicVhd) (offset len : ℕ) : Outcome (List UInt8) :=
  readUnits vhd.virtualSize SECTOR (vhd.locate ignoreBitmap) vhd.readPhys offset len

def store (ignoreBitmap : Bool) (vhd : DynamicVhd) : BackingStore where
  sizeBytes := vhd.virtualSize
  readAt := vhd.readAt ignoreBitmap
  sizeBytes_lt := vhd.virtualSize_lt
  length_readAt h := length_readUnits (fun _ _ _ hr => (readExactAt_ok hr).2) h

def place (vhd : DynamicVhd) (sector : ℕ) : Option ℕ :=
  match vhd.bat[sector / vhd.sectorsPerBlock]? with
  | none => none
  | some entry => if entry = HOLE then none else some (vhd.dataOffset entry sector)

def bitSet (vhd : DynamicVhd) (sector : ℕ) : Bool :=
  match vhd.bat[sector / vhd.sectorsPerBlock]? with
  | none => false
  | some entry => match vhd.file[entry * SECTOR + sector % vhd.sectorsPerBlock / 8]? with
    | none => false
    | some byte => byte.toNat.testBit (7 - sector % vhd.sectorsPerBlock % 8)

variable {vhd : DynamicVhd} {sector : ℕ}

theorem sectorsPerBlock_pos (vhd : DynamicVhd) : 0 < vhd.sectorsPerBlock :=
  Nat.div_pos vhd.layout.sector_le (by decide)

theorem bitmap_covers (vhd : DynamicVhd) (sector : ℕ) :
    sector % vhd.sectorsPerBlock / 8 < bitmapSizeOf vhd.layout.blockSize := by
  have hmod := Nat.mod_lt sector vhd.sectorsPerBlock_pos
  rw [sectorsPerBlock] at hmod ⊢
  rw [bitmapSizeOf, SECTOR] at *
  omega

private theorem bitmap_at (vhd : DynamicVhd) {entry : ℕ}
    (he : vhd.bat[sector / vhd.sectorsPerBlock]? = some entry) (hne : entry ≠ HOLE) :
    ∃ bitmap byte, vhd.bitmaps[sector / vhd.sectorsPerBlock]? = some (some bitmap) ∧
      bitmap[sector % vhd.sectorsPerBlock / 8]? = some byte ∧
      vhd.file[entry * SECTOR + sector % vhd.sectorsPerBlock / 8]? = some byte := by
  have hcover := vhd.bitmap_covers sector
  have hfile := vhd.bitmaps_in_file entry (List.mem_of_getElem? he) hne
  have hlt : entry * SECTOR + sector % vhd.sectorsPerBlock / 8 < vhd.file.length := by omega
  refine ⟨slice vhd.file (entry * SECTOR) (bitmapSizeOf vhd.layout.blockSize),
    vhd.file[entry * SECTOR + sector % vhd.sectorsPerBlock / 8], ?_, ?_,
    List.getElem?_eq_getElem hlt⟩
  · rw [vhd.bitmaps_eq, List.getElem?_map, he, Option.map_some, if_neg hne]
  · rw [getElem?_slice, if_pos hcover, List.getElem?_eq_getElem hlt]

theorem sectorOffset_eq (ignoreBitmap : Bool)
    (hcover : sector / vhd.sectorsPerBlock < vhd.bat.length) :
    vhd.sectorOffset ignoreBitmap sector =
      .ok (if ignoreBitmap || vhd.bitSet sector then vhd.place sector else none) := by
  obtain ⟨entry, he⟩ : ∃ entry, vhd.bat[sector / vhd.sectorsPerBlock]? = some entry :=
    ⟨_, List.getElem?_eq_getElem hcover⟩
  by_cases hhole : entry = HOLE
  · have hplace : vhd.place sector = none := by simp only [place, he, if_pos hhole]
    simp only [sectorOffset, he, if_pos hhole, hplace, ite_self]
  · obtain ⟨bitmap, byte, hbitmap, hbyte, hfile⟩ := vhd.bitmap_at he hhole
    have hplace : vhd.place sector = some (vhd.dataOffset entry sector) := by
      simp only [place, he, if_neg hhole]
    have hbit : vhd.bitSet sector = byte.toNat.testBit (7 - sector % vhd.sectorsPerBlock % 8) := by
      simp only [bitSet, he, hfile]
    simp only [sectorOffset, he, if_neg hhole, hbitmap, hbyte, hplace, hbit]
    cases ignoreBitmap
    · simp only [Bool.false_eq_true, if_false, Bool.false_or]
      split <;> rfl
    · rfl

theorem blockSectorOffset_eq (hcover : sector / vhd.sectorsPerBlock < vhd.bat.length) :
    vhd.blockSectorOffset sector = .ok (vhd.place sector) := by
  rw [blockSectorOffset, place, List.getElem?_eq_getElem hcover]
  dsimp only
  split <;> rfl

/-- A place and the positions in its sector stay far below `2 ^ 64`. -/
theorem place_lt {off : ℕ} (h : vhd.place sector = some off) : off + SECTOR < 2 ^ 64 := by
  rw [place] at h
  split at h
  · cases h
  · rename_i entry he
    split at h
    · cases h
    · cases h
      have hentry := vhd.bat_lt entry (List.mem_of_getElem? he)
      have hblock := vhd.layout.blockSize_lt
      have hmod := Nat.mod_lt sector vhd.sectorsPerBlock_pos
      rw [dataOffset, bitmapSizeOf]
      rw [sectorsPerBlock] at hmod ⊢
      rw [SECTOR] at *
      omega

/-- The table has an entry for each block of the disk. -/
def CoversDisk (vhd : DynamicVhd) : Prop :=
  ∀ sector, sector * SECTOR < vhd.virtualSize → sector / vhd.sectorsPerBlock < vhd.bat.length

/-- The byte at position `p` of the disk: in its sector's place, or zero. -/
def byteAt (ignoreBitmap : Bool) (vhd : DynamicVhd) (p : ℕ) : Option UInt8 :=
  match vhd.place (p / SECTOR) with
  | none => some 0
  | some off =>
    if ignoreBitmap || vhd.bitSet (p / SECTOR) then vhd.file[off + p % SECTOR]? else some 0

theorem readUnit_some {ignoreBitmap : Bool} {pos take off : ℕ}
    (hcover : pos / SECTOR / vhd.sectorsPerBlock < vhd.bat.length)
    (hoff : vhd.place (pos / SECTOR) = some off)
    (hbit : (ignoreBitmap || vhd.bitSet (pos / SECTOR)) = true) :
    readUnit SECTOR (vhd.locate ignoreBitmap) vhd.readPhys pos take =
      readExactAt vhd.file (off + pos % SECTOR) take := by
  have hlt := place_lt hoff
  have hmod := Nat.mod_lt pos (show 0 < SECTOR by decide)
  rw [readUnit, locate, sectorOffset_eq ignoreBitmap hcover, hbit, if_pos rfl, hoff]
  dsimp only
  rw [if_neg (by omega), readPhys]

theorem readUnit_none {ignoreBitmap : Bool} {pos take : ℕ}
    (hcover : pos / SECTOR / vhd.sectorsPerBlock < vhd.bat.length)
    (h : vhd.place (pos / SECTOR) = none ∨ (ignoreBitmap || vhd.bitSet (pos / SECTOR)) = false) :
    readUnit SECTOR (vhd.locate ignoreBitmap) vhd.readPhys pos take =
      .ok (List.replicate take 0) := by
  have hnone : (if ignoreBitmap || vhd.bitSet (pos / SECTOR) then vhd.place (pos / SECTOR) else none) =
      none := by
    rcases h with h | h <;> simp [h]
  rw [readUnit, locate, sectorOffset_eq ignoreBitmap hcover, hnone]

private theorem readUnit_byteAt {ignoreBitmap : Bool} {pos take : ℕ} {bytes : List UInt8}
    (hcover : pos / SECTOR / vhd.sectorsPerBlock < vhd.bat.length)
    (hread : readUnit SECTOR (vhd.locate ignoreBitmap) vhd.readPhys pos take = .ok bytes)
    {p : ℕ} (hp : pos ≤ p) (hlt : p < pos + take) (hsector : p / SECTOR = pos / SECTOR) :
    bytes[p - pos]? = vhd.byteAt ignoreBitmap p := by
  have hdiv := Nat.div_add_mod' pos SECTOR
  have hdiv' := Nat.div_add_mod' p SECTOR
  rw [byteAt, hsector]
  rw [hsector] at hdiv'
  cases hoff : vhd.place (pos / SECTOR) with
  | none =>
    rw [readUnit_none hcover (.inl hoff)] at hread
    cases hread
    rw [List.getElem?_replicate, if_pos (by omega)]
  | some off =>
    dsimp only
    split
    · rename_i hbit
      rw [readUnit_some hcover hoff hbit] at hread
      rw [(readExactAt_ok hread).1, getElem?_slice, if_pos (by omega)]
      congr 1
      omega
    · rename_i hbit
      rw [readUnit_none hcover (.inr (by simpa using hbit))] at hread
      cases hread
      rw [List.getElem?_replicate, if_pos (by omega)]

private theorem length_readUnit {ignoreBitmap : Bool} {pos take : ℕ} {bytes : List UInt8}
    (h : readUnit SECTOR (vhd.locate ignoreBitmap) vhd.readPhys pos take = .ok bytes) :
    bytes.length = take := by
  rw [readUnit] at h
  split at h
  · cases h
  · cases h
    rw [List.length_replicate]
  · split at h
    · cases h
    · exact (readExactAt_ok h).2

theorem readAt_byteAt {ignoreBitmap : Bool} (hcover : vhd.CoversDisk) {offset len : ℕ}
    {bytes : List UInt8} (hin : offset + len ≤ vhd.virtualSize)
    (hread : vhd.readAt ignoreBitmap offset len = .ok bytes) :
    bytes.length = len ∧ ∀ i < len, bytes[i]? = vhd.byteAt ignoreBitmap (offset + i) := by
  rw [readAt, readUnits, if_neg (by decide), checkReadRange_ok vhd.virtualSize_lt hin] at hread
  obtain ⟨hlen, hall⟩ := getElem?_of_walk (by decide) (fun _ _ _ => length_readUnit) hread
  refine ⟨hlen, fun i hi => ?_⟩
  obtain ⟨p, n, piece, hpiece, hok, hle, hlt, hbyte⟩ := hall i hi
  have hdiv := Nat.div_mul_le_self p SECTOR
  have hstop := hpiece.le_stop
  rw [hbyte]
  exact readUnit_byteAt (hcover _ (by omega)) hok hle hlt (hpiece.div_eq hle hlt)

/-- An image whose disk bytes are those of `content` reads as its slices. -/
theorem readAt_eq_slice {ignoreBitmap : Bool} (hcover : vhd.CoversDisk) {content : List UInt8}
    (hlen : content.length = vhd.virtualSize)
    (hbytes : ∀ p < vhd.virtualSize, vhd.byteAt ignoreBitmap p = content[p]?) {offset len : ℕ}
    (hin : offset + len ≤ vhd.virtualSize) :
    vhd.readAt ignoreBitmap offset len = .ok (slice content offset len) := by
  refine readUnits_eq_slice vhd.virtualSize_lt (by decide) hlen hin fun p n hpiece => ?_
  have hdiv := Nat.div_mul_le_self p SECTOR
  have hstop := hpiece.le_stop
  have hpos := hpiece.nonempty
  have hbat := hcover (p / SECTOR) (by omega)
  obtain ⟨bytes, hread⟩ : ∃ bytes,
      readUnit SECTOR (vhd.locate ignoreBitmap) vhd.readPhys p n = .ok bytes := by
    by_cases hnone : vhd.place (p / SECTOR) = none ∨
        (ignoreBitmap || vhd.bitSet (p / SECTOR)) = false
    · exact ⟨_, readUnit_none hbat hnone⟩
    · rw [not_or, Bool.not_eq_false] at hnone
      obtain ⟨off, hoff⟩ := Option.ne_none_iff_exists'.1 hnone.1
      -- the last byte of the piece is in the file, so the whole piece is
      have hlast : (p + n - 1) / SECTOR = p / SECTOR := hpiece.div_eq (by omega) (by omega)
      have hmod := Nat.div_add_mod' p SECTOR
      have hmod' := Nat.div_add_mod' (p + n - 1) SECTOR
      have hbyte := hbytes (p + n - 1) (by omega)
      rw [hlast] at hmod'
      rw [byteAt, hlast, hoff] at hbyte
      dsimp only at hbyte
      rw [if_pos hnone.2, List.getElem?_eq_getElem (show p + n - 1 < content.length by omega)] at hbyte
      obtain ⟨hfile, -⟩ := List.getElem?_eq_some_iff.1 hbyte
      refine ⟨slice vhd.file (off + p % SECTOR) n, ?_⟩
      rw [readUnit_some hbat hoff hnone.2]
      exact readExactAt_eq (by omega)
  have hn := length_readUnit hread
  rw [hread]
  congr 1
  apply List.ext_getElem?
  intro i
  rw [getElem?_slice]
  split
  · have hsector := hpiece.div_eq (show p ≤ p + i by omega) (by omega)
    have hbyte := readUnit_byteAt hbat hread (show p ≤ p + i by omega) (by omega) hsector
    rw [Nat.add_sub_cancel_left] at hbyte
    rw [hbyte, hbytes (p + i) (by omega)]
  · exact List.getElem?_eq_none (by omega)

end DynamicVhd

end XBoot.Vhd
