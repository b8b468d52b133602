import XBoot.PlacedFields
import XBoot.Vhdx

/-!
# Images that open

A dynamic VHDX is put together from its parts: identifier, headers, region table, metadata,
block allocation table and data. It opens as what it was made from.
-/

namespace XBoot.VhdxFile

open ListSlices BigEndian Storage PlacedFields

def MIB : ℕ := 1024 * 1024
def METADATA_REGION_OFF : ℕ := MIB
def BAT_REGION_OFF : ℕ := 2 * MIB
def FIRST_BLOCK_OFF : ℕ := 3 * MIB

/-- An entry of 32 bytes that names a place; the offset has `w` bytes. -/
def tableEntry (w : ℕ) (guid : List UInt8) (off len : ℕ) (flags : List UInt8) : List UInt8 :=
  guid ++ toLe w off ++ toLe 4 len ++ flags

def regionEntry (guid : List UInt8) (off len : ℕ) : List UInt8 := tableEntry 8 guid off len (toLe 4 1)

/-- The fields of `write_region_table`; its CRC field is zero. -/
def regionFields (batLen : ℕ) : List (ℕ × List UInt8) :=
  [(0, ascii "regi"), (4, [0, 0, 0, 0]), (8, toLe 4 2), (16, regionEntry BAT_GUID BAT_REGION_OFF batLen),
    (48, regionEntry METADATA_GUID METADATA_REGION_OFF MIB)]

def regionTable (batLen : ℕ) : List UInt8 :=
  sealed (place (List.replicate (64 * 1024) 0) (regionFields batLen))

def metadataEntry (guid : List UInt8) (off len : ℕ) : List UInt8 := tableEntry 4 guid off len (toLe 8 0)

/-- The fields of `write_metadata`. -/
def metadataFields (blockSize sectorSize virtualSize : ℕ) : List (ℕ × List UInt8) :=
  [(0, ascii "metadata"), (10, toLe 2 3), (32, metadataEntry FILE_PARAMS_GUID 0x10000 8),
    (64, metadataEntry VDISK_SIZE_GUID 0x10010 8), (96, metadataEntry LOGICAL_SECTOR_GUID 0x10020 4),
    (0x10000, toLe 4 blockSize ++ toLe 4 0), (0x10010, toLe 8 virtualSize),
    (0x10020, toLe 4 sectorSize)]

def metadataRegion (blockSize sectorSize virtualSize : ℕ) : List UInt8 :=
  place (List.replicate MIB 0) (metadataFields blockSize sectorSize virtualSize)

/-- What an image is made from: sizes that an image can have, the entries of a table that fits
its region, and the bytes from 3 MiB on. -/
structure ImageParts where
  blockSize : ℕ
  sectorSize : ℕ
  virtualSize : ℕ
  entries : List ℕ
  data : List UInt8
  blockSize_pow : ∃ k < 32, blockSize = 2 ^ k
  sectorSize_pow : ∃ k < 32, sectorSize = 2 ^ k
  ratio_pos : blockSize ≤ 8388608 * sectorSize
  virtualSize_lt : virtualSize < 2 ^ 64
  entries_lt : ∀ entry ∈ entries, entry < 2 ^ 64
  entries_le : 8 * entries.length ≤ MIB

def imageFields (parts : ImageParts) : List (ℕ × List UInt8) :=
  [(0, ascii "vhdxfile"), (64 * 1024, headerCopy 2 0), (128 * 1024, headerCopy 1 0),
    (192 * 1024, regionTable (8 * parts.entries.length)),
    (METADATA_REGION_OFF, metadataRegion parts.blockSize parts.sectorSize parts.virtualSize),
    (BAT_REGION_OFF, parts.entries.flatMap (toLe 8)), (FIRST_BLOCK_OFF, parts.data)]

/-- `dynamic_vhdx`, with any block size and table. -/
def dynamicVhdx (parts : ImageParts) : List UInt8 :=
  place (List.replicate (FIRST_BLOCK_OFF + parts.data.length) 0) (imageFields parts)

theorem length_guids : BAT_GUID.length = 16 ∧ METADATA_GUID.length = 16 ∧
    FILE_PARAMS_GUID.length = 16 ∧ VDISK_SIZE_GUID.length = 16 ∧ LOGICAL_SECTOR_GUID.length = 16 := by
  decide

theorem ofLe_toLe {w n : ℕ} (h : n < 256 ^ w) : ofLe (toLe w n) = n := by
  rw [ofLe, toLe, List.reverse_reverse, ofBe_toBe_of_lt h]

private theorem length_tableEntry {w : ℕ} {guid flags : List UInt8} (h : guid.length = 16)
    (hflags : w + flags.length = 12) (off len : ℕ) : (tableEntry w guid off len flags).length = 32 := by
  simp only [tableEntry, List.length_append, length_toLe, h]
  omega

private theorem tableEntry_fields {w : ℕ} {guid : List UInt8} (flags : List UInt8)
    (h : guid.length = 16) {off len : ℕ} (hoff : off < 256 ^ w) (hlen : len < 256 ^ 4) :
    slice (tableEntry w guid off len flags) 0 16 = guid ∧
      ofLe (slice (tableEntry w guid off len flags) 16 w) = off ∧
      ofLe (slice (tableEntry w guid off len flags) (16 + w) 4) = len := by
  have hall := slice_all guid
  have hoffAll := slice_all (toLe w off)
  have hlenAll := slice_all (toLe 4 len)
  rw [length_toLe] at hoffAll hlenAll
  rw [h] at hall
  rw [tableEntry]
  refine ⟨?_, ?_, ?_⟩
  · simp [slice_append_left, h, hall]
  · simp [slice_append_left, slice_append_right, h, hoffAll, ofLe_toLe hoff]
  · simp [slice_append_left, slice_append_right, h, hlenAll, ofLe_toLe hlen]

private theorem length_regionEntry {guid : List UInt8} (h : guid.length = 16) (off len : ℕ) :
    (regionEntry guid off len).length = 32 := length_tableEntry h rfl off len

private theorem length_metadataEntry {guid : List UInt8} (h : guid.length = 16) (off len : ℕ) :
    (metadataEntry guid off len).length = 32 := length_tableEntry h rfl off len

section Zeros

variable {size : ℕ} {fields : List (ℕ × List UInt8)} (h : Layout size (places fields))
include h

private theorem layout_zeros : Layout (List.replicate size (0 : UInt8)).length (places fields) := by
  rwa [List.length_replicate]

private theorem length_zeros_place : (place (List.replicate size 0) fields).length = size := by
  rw [length_place (layout_zeros h).inside, List.length_replicate]

private theorem slice_zeros_place {pos n : ℕ} {bytes : List UInt8} (hn : bytes.length = n)
    (hmem : (pos, bytes) ∈ fields) : slice (place (List.replicate size 0) fields) pos n = bytes := by
  rw [← hn]
  exact slice_place_of_mem (layout_zeros h) hmem

end Zeros

private theorem regionFields_layout (batLen : ℕ) : Layout (64 * 1024) (places (regionFields batLen)) := by
  obtain ⟨hbat, hmeta, -⟩ := length_guids
  have hcookie : (ascii "regi").length = 4 := by decide
  constructor <;>
    simp [places, regionFields, length_regionEntry hbat, length_regionEntry hmeta, hcookie, Avoids]

theorem length_regionTable (batLen : ℕ) : (regionTable batLen).length = 64 * 1024 := by
  have hbody := length_zeros_place (regionFields_layout batLen)
  rw [regionTable, length_sealed (by rw [hbody]; decide), hbody]

private theorem add_bat {off len : ℕ} (hoff : off < 2 ^ 64) (hlen : len < 2 ^ 32) (regions : Regions) :
    regions.add (regionEntry BAT_GUID off len) = { regions with bat := some (off, len) } := by
  obtain ⟨hguid, hoff', hlen'⟩ := tableEntry_fields (w := 8) (toLe 4 1) length_guids.1 hoff hlen
  rw [Regions.add, regionEntry, hguid, hoff', hlen']
  exact if_pos rfl

private theorem add_metadata {off len : ℕ} (hoff : off < 2 ^ 64) (hlen : len < 2 ^ 32)
    (regions : Regions) :
    regions.add (regionEntry METADATA_GUID off len) = { regions with metadata := some (off, len) } := by
  obtain ⟨hguid, hoff', hlen'⟩ := tableEntry_fields (w := 8) (toLe 4 1) length_guids.2.1 hoff hlen
  have hne : METADATA_GUID ≠ BAT_GUID := by decide
  rw [Regions.add, regionEntry, hguid, hoff', hlen', if_neg hne]
  exact if_pos rfl

/-- The region table is parsed as what was written. -/
theorem parseRegionTable_regionTable {batLen : ℕ} (h : batLen < 2 ^ 32) :
    parseRegionTable (regionTable batLen) =
      .ok ⟨some (BAT_REGION_OFF, batLen), some (METADATA_REGION_OFF, MIB)⟩ := by
  obtain ⟨hbatGuid, hmetaGuid, -⟩ := length_guids
  have hlayout := regionFields_layout batLen
  have hlong : 8 ≤ (place (List.replicate (64 * 1024) 0) (regionFields batLen)).length := by
    rw [length_zeros_place hlayout]
    decide
  have hcookie := slice_zeros_place hlayout rfl (.head _)
  have hcrc := slice_zeros_place hlayout rfl (.tail _ (.head _))
  have hcount := slice_zeros_place hlayout (length_toLe 4 2) (.tail _ (.tail _ (.head _)))
  have hbat := slice_zeros_place hlayout (length_regionEntry hbatGuid _ _)
    (.tail _ (.tail _ (.tail _ (.head _))))
  have hmeta := slice_zeros_place hlayout (length_regionEntry hmetaGuid _ _)
    (.tail _ (.tail _ (.tail _ (.tail _ (.head _)))))
  have htake : (regionTable batLen).take (64 * 1024) = regionTable batLen := by
    rw [← length_regionTable batLen, List.take_length]
  have hsignature : ¬ ((regionTable batLen).length < 64 * 1024 ∨
      slice (regionTable batLen) 0 4 ≠ ascii "regi") := by
    rw [length_regionTable, regionTable, slice_sealed hlong (.inl (by decide))]
    exact not_or.2 ⟨Nat.lt_irrefl _, not_not.2 hcookie⟩
  have hcheck : (crc32c (overwrite ((regionTable batLen).take (64 * 1024)) 4 [0, 0, 0, 0])).toNat =
      ofLe (slice (regionTable batLen) 4 4) := by
    rw [htake, regionTable, overwrite_sealed hlong hcrc, ofLe_sealed hlong]
  have hentries : ofLe (slice (regionTable batLen) 8 4) = 2 := by
    rw [regionTable, slice_sealed hlong (.inr (by decide)), hcount, ofLe_toLe (by decide)]
  have hbatEntry : slice (regionTable batLen) (16 + 0 * 32) 32 =
      regionEntry BAT_GUID BAT_REGION_OFF batLen :=
    (slice_sealed hlong (.inr (by decide))).trans hbat
  have hmetaEntry : slice (regionTable batLen) (16 + 1 * 32) 32 =
      regionEntry METADATA_GUID METADATA_REGION_OFF MIB :=
    (slice_sealed hlong (.inr (by decide))).trans hmeta
  have hfold (f : Regions → ℕ → Regions) (regions : Regions) :
      (List.range 2).foldl f regions = f (f regions 0) 1 := rfl
  rw [parseRegionTable, if_neg hsignature, if_neg (not_not.2 hcheck), hentries]
  refine (if_neg (by decide)).trans (congrArg Except.ok ?_)
  rw [hfold, hbatEntry, hmetaEntry, add_bat (by decide) h, add_metadata (by decide) (by decide)]

private theorem metadataFields_layout (blockSize sectorSize virtualSize : ℕ) :
    Layout MIB (places (metadataFields blockSize sectorSize virtualSize)) := by
  obtain ⟨-, -, hparams, hsize, hsector⟩ := length_guids
  have hcookie : (ascii "metadata").length = 8 := by decide
  constructor <;>
    simp [places, metadataFields, length_metadataEntry hparams, length_metadataEntry hsize,
      length_metadataEntry hsector, hcookie, Avoids, MIB]

section Items

variable {region : List UInt8} {off : ℕ} (hoff : off < 256 ^ 4)
include hoff

private theorem add_fileParams {blockSize : ℕ} (hblock : blockSize < 256 ^ 4)
    (hfit : off + 8 ≤ region.length) (hvalue : slice region off 8 = toLe 4 blockSize ++ toLe 4 0)
    (items : MetadataItems) : items.add region (metadataEntry FILE_PARAMS_GUID off 8) =
      .ok { items with blockSize := some blockSize } := by
  obtain ⟨-, -, hparams, -⟩ := length_guids
  obtain ⟨hguid, hoff', hlen'⟩ := tableEntry_fields (w := 4) (toLe 8 0) hparams hoff
    (show 8 < 256 ^ 4 by decide)
  have hall := slice_all (toLe 4 blockSize)
  have hflags := slice_append_self (length_toLe 4 blockSize) (length_toLe 4 0)
  rw [length_toLe] at hall
  have hzero : ofLe (toLe 4 0) = 0 := by decide
  have hnumber : ofLe (slice (toLe 4 blockSize ++ toLe 4 0) 0 4) = blockSize := by
    rw [slice_append_left (by simp), hall, ofLe_toLe hblock]
  simp only [MetadataItems.add, metadataEntry, hguid, hoff', hlen', if_neg (Nat.not_lt.2 hfit), hvalue,
    hflags, hnumber, hzero]
  simp

private theorem add_diskSize {virtualSize : ℕ} (hvirtual : virtualSize < 256 ^ 8)
    (hfit : off + 8 ≤ region.length) (hvalue : slice region off 8 = toLe 8 virtualSize)
    (items : MetadataItems) : ∃ items', items.add region (metadataEntry VDISK_SIZE_GUID off 8) =
      .ok items' ∧ items'.blockSize = items.blockSize ∧
        items'.logicalSectorSize = items.logicalSectorSize ∧ items'.virtualSize = some virtualSize := by
  obtain ⟨-, -, -, hsize, -⟩ := length_guids
  obtain ⟨hguid, hoff', hlen'⟩ := tableEntry_fields (w := 4) (toLe 8 0) hsize hoff
    (show 8 < 256 ^ 4 by decide)
  have hall := slice_all (toLe 8 virtualSize)
  rw [length_toLe] at hall
  have hne : VDISK_SIZE_GUID ≠ FILE_PARAMS_GUID := by decide
  simp [MetadataItems.add, metadataEntry, hguid, hoff', hlen', Nat.not_lt.2 hfit, hvalue, hne, hall,
    ofLe_toLe hvirtual]

private theorem add_sectorSize {sectorSize : ℕ} (hsectorSize : sectorSize < 256 ^ 4)
    (hfit : off + 4 ≤ region.length) (hvalue : slice region off 4 = toLe 4 sectorSize)
    (items : MetadataItems) : items.add region (metadataEntry LOGICAL_SECTOR_GUID off 4) =
      .ok { items with logicalSectorSize := some sectorSize } := by
  obtain ⟨-, -, -, -, hsector⟩ := length_guids
  obtain ⟨hguid, hoff', hlen'⟩ := tableEntry_fields (w := 4) (toLe 8 0) hsector hoff
    (show 4 < 256 ^ 4 by decide)
  have hall := slice_all (toLe 4 sectorSize)
  rw [length_toLe] at hall
  have hne : LOGICAL_SECTOR_GUID ≠ FILE_PARAMS_GUID := by decide
  have hne' : LOGICAL_SECTOR_GUID ≠ VDISK_SIZE_GUID := by decide
  simp [MetadataItems.add, metadataEntry, hguid, hoff', hlen', Nat.not_lt.2 hfit, hvalue, hne, hne',
    hall, ofLe_toLe hsectorSize]

end Items

private theorem metadataItems_next {region : List UInt8} {i n : ℕ} {items items' : MetadataItems}
    (h : items.add region (slice region (32 + i * 32) 32) = .ok items') :
    metadataItems region i (n + 1) items = metadataItems region (i + 1) n items' := by
  rw [metadataItems, h]

private theorem finish_powers {items : MetadataItems} {blockSize sectorSize virtualSize k j : ℕ}
    (hblock : items.blockSize = some blockSize) (hsector : items.logicalSectorSize = some sectorSize)
    (hvirtual : items.virtualSize = some virtualSize) (hk : blockSize = 2 ^ k)
    (hj : sectorSize = 2 ^ j) : ∃ md, items.finish = .ok md ∧
      md.blockSize = blockSize ∧ md.logicalSectorSize = sectorSize ∧
      md.virtualSize = virtualSize := by
  obtain ⟨_, _, _, hlt⟩ := items
  subst hblock hsector hvirtual hk hj
  have hpow (n : ℕ) : ¬ (2 ^ n = 0 ∨ 2 ^ (2 ^ n).log2 ≠ 2 ^ n) := by
    simp [Nat.log2_two_pow]
  rw [MetadataItems.finish]
  simp only [dif_neg (hpow k), if_neg (hpow j)]
  exact ⟨_, rfl, rfl, rfl, rfl⟩

theorem length_metadataRegion (blockSize sectorSize virtualSize : ℕ) :
    (metadataRegion blockSize sectorSize virtualSize).length = MIB :=
  length_zeros_place (metadataFields_layout blockSize sectorSize virtualSize)

/-- The metadata are parsed as what was written. -/
theorem parseMetadata_metadataRegion {blockSize sectorSize virtualSize : ℕ}
    (hblock : ∃ k < 32, blockSize = 2 ^ k) (hsector : ∃ k < 32, sectorSize = 2 ^ k)
    (hvirtual : virtualSize < 2 ^ 64) :
    ∃ md, parseMetadata (metadataRegion blockSize sectorSize virtualSize) = .ok md ∧
      md.blockSize = blockSize ∧ md.logicalSectorSize = sectorSize ∧
      md.virtualSize = virtualSize := by
  obtain ⟨k, hk, hblock⟩ := hblock
  obtain ⟨j, hj, hsector⟩ := hsector
  have hpow {n : ℕ} (hn : n < 32) : 2 ^ n < 256 ^ 4 := Nat.pow_lt_pow_right (by decide) hn
  obtain ⟨-, -, hparamsGuid, hsizeGuid, hsectorGuid⟩ := length_guids
  have hlayout := metadataFields_layout blockSize sectorSize virtualSize
  have hlength := length_metadataRegion blockSize sectorSize virtualSize
  have hfield {pos n : ℕ} {bytes : List UInt8} (hn : bytes.length = n)
      (hmem : (pos, bytes) ∈ metadataFields blockSize sectorSize virtualSize) :
      slice (metadataRegion blockSize sectorSize virtualSize) pos n = bytes :=
    slice_zeros_place hlayout hn hmem
  generalize metadataRegion blockSize sectorSize virtualSize = region at *
  have hcookie : slice region 0 8 = ascii "metadata" := hfield rfl (by simp [metadataFields])
  have hcount : slice region 10 2 = toLe 2 3 := hfield (length_toLe 2 3) (by simp [metadataFields])
  have hparams : slice region (32 + 0 * 32) 32 = metadataEntry FILE_PARAMS_GUID 0x10000 8 :=
    hfield (length_metadataEntry hparamsGuid _ _) (by simp [metadataFields])
  have hsize : slice region (32 + 1 * 32) 32 = metadataEntry VDISK_SIZE_GUID 0x10010 8 :=
    hfield (length_metadataEntry hsizeGuid _ _) (by simp [metadataFields])
  have hsectorEntry : slice region (32 + 2 * 32) 32 = metadataEntry LOGICAL_SECTOR_GUID 0x10020 4 :=
    hfield (length_metadataEntry hsectorGuid _ _) (by simp [metadataFields])
  have hparamsValue : slice region 0x10000 8 = toLe 4 blockSize ++ toLe 4 0 :=
    hfield (by simp) (by simp [metadataFields])
  have hsizeValue : slice region 0x10010 8 = toLe 8 virtualSize :=
    hfield (length_toLe 8 virtualSize) (by simp [metadataFields])
  have hsectorValue : slice region 0x10020 4 = toLe 4 sectorSize :=
    hfield (length_toLe 4 sectorSize) (by simp [metadataFields])
  obtain ⟨items, hadd, hblock', -, hvirtual'⟩ := add_diskSize (by decide) hvirtual
    (by rw [hlength]; decide) hsizeValue ⟨some blockSize, none, none, fun _ h => by cases h⟩
  have hitems (hnone : ∀ n, none = some n → n < 2 ^ 64) :
      metadataItems region 0 3 ⟨none, none, none, hnone⟩ =
        .ok { items with logicalSectorSize := some sectorSize } := by
    have hfirst := add_fileParams (by decide) (hblock ▸ hpow hk) (by rw [hlength]; decide)
      hparamsValue ⟨none, none, none, hnone⟩
    have hthird := add_sectorSize (by decide) (hsector ▸ hpow hj) (by rw [hlength]; decide)
      hsectorValue items
    rw [← hparams] at hfirst
    rw [← hsize] at hadd
    rw [← hsectorEntry] at hthird
    exact (metadataItems_next hfirst).trans ((metadataItems_next hadd).trans (metadataItems_next hthird))
  have hsignature : ¬ (region.length < 32 ∨ slice region 0 8 ≠ ascii "metadata") := by
    rw [hlength, hcookie]
    exact not_or.2 ⟨by decide, not_not.2 rfl⟩
  have hentries : ofLe (slice region 10 2) = 3 := by rw [hcount, ofLe_toLe (by decide)]
  have hinside : ¬ region.length < 32 + 3 * 32 := by
    rw [hlength]
    decide
  have hblock'' : ({ items with logicalSectorSize := some sectorSize } : MetadataItems).blockSize =
      some blockSize := hblock'
  obtain ⟨md, hfinish, hmd⟩ := finish_powers hblock'' rfl hvirtual' hblock hsector
  refine ⟨md, ?_, hmd⟩
  rw [parseMetadata, if_neg hsignature, hentries]
  refine (if_neg hinside).trans ?_
  rw [hitems]
  exact hfinish

theorem batEntries_flatMap {entries : List ℕ} (h : ∀ entry ∈ entries, entry < 2 ^ 64) :
    batEntries (entries.flatMap (toLe 8)) = entries := by
  have hcount : 8 * entries.length / 8 = entries.length := Nat.mul_div_cancel_left _ (by decide)
  rw [batEntries, length_flatMap_of_length (length_toLe 8), hcount]
  apply List.ext_getElem
  · rw [List.length_map, List.length_range]
  · intro i hi hi'
    have hlt : entries[i] < 256 ^ 8 := h entries[i] (List.getElem_mem hi')
    simp only [List.getElem_map, List.getElem_range, slice_flatMap (length_toLe 8) entries hi']
    exact ofLe_toLe hlt

private theorem imageFields_layout (parts : ImageParts) :
    Layout (FIRST_BLOCK_OFF + parts.data.length) (places (imageFields parts)) := by
  have hcookie : (ascii "vhdxfile").length = 8 := by decide
  have hmeta := length_metadataRegion parts.blockSize parts.sectorSize parts.virtualSize
  have hentries := parts.entries_le
  constructor <;>
    simp [places, imageFields, length_headerCopy, length_regionTable, hcookie, hmeta, Avoids, MIB,
      METADATA_REGION_OFF, BAT_REGION_OFF, FIRST_BLOCK_OFF] at hentries ⊢ <;> omega

theorem load_ok {file region raw : List UInt8} {metaOff metaLen batOff batLen : ℕ} {md : VhdxMetadata}
    (hregion : readExactAt file metaOff metaLen = .ok region) (hmd : parseMetadata region = .ok md)
    (hratio : 8388608 * md.logicalSectorSize / md.blockSize ≠ 0)
    (hraw : readExactAt file batOff batLen = .ok raw) :
    ∃ vhdx, load file ⟨some (batOff, batLen), some (metaOff, metaLen)⟩ = .ok vhdx ∧
      vhdx.file = file ∧ vhdx.virtualSize = md.virtualSize ∧ vhdx.blockSize = md.blockSize ∧
      vhdx.chunkRatio = 8388608 * md.logicalSectorSize / md.blockSize ∧ vhdx.bat = batEntries raw := by
  rw [load]
  simp only [hregion, hmd, dif_neg hratio, hraw]
  exact ⟨_, rfl, rfl, rfl, rfl, rfl, rfl⟩

theorem length_dynamicVhdx (parts : ImageParts) :
    (dynamicVhdx parts).length = FIRST_BLOCK_OFF + parts.data.length :=
  length_zeros_place (imageFields_layout parts)

theorem read_field {parts : ImageParts} {pos n : ℕ} {bytes : List UInt8} (hn : bytes.length = n)
    (hmem : (pos, bytes) ∈ imageFields parts) : readExactAt (dynamicVhdx parts) pos n = .ok bytes := by
  have hlayout := imageFields_layout parts
  have hlength := length_dynamicVhdx parts
  have hinside := hlayout.inside (pos, bytes.length) (List.mem_map.2 ⟨(pos, bytes), hmem, rfl⟩)
  have hfield : slice (dynamicVhdx parts) pos n = bytes := slice_zeros_place hlayout hn hmem
  rw [readExactAt_eq (by rw [hlength, ← hn]; exact hinside), hfield]

theorem readHeader_dynamicVhdx (parts : ImageParts) :
    ∃ header, readHeader (dynamicVhdx parts) = .ok header := by
  have hfirst : readExactAt (dynamicVhdx parts) (64 * 1024) 4096 = .ok (headerCopy 2 0) :=
    read_field (length_headerCopy 2 0) (by simp [imageFields])
  have hsecond : readExactAt (dynamicVhdx parts) (128 * 1024) 4096 = .ok (headerCopy 1 0) :=
    read_field (length_headerCopy 1 0) (by simp [imageFields])
  have hpasses : ∃ header, parseBestHeader (headerCopy 2 0) (headerCopy 1 0) = .ok header :=
    parseBestHeader_passes.2 (.inl ⟨headerCopy_valid 2 0, (cleanLog_headerCopy 2 0).2 rfl⟩)
  rw [readHeader, hfirst]
  simp only [hsecond]
  exact hpasses

private theorem readRegions_dynamicVhdx (parts : ImageParts) : readRegions (dynamicVhdx parts) =
    .ok ⟨some (BAT_REGION_OFF, 8 * parts.entries.length), some (METADATA_REGION_OFF, MIB)⟩ := by
  have htable : readExactAt (dynamicVhdx parts) (192 * 1024) (64 * 1024) =
      .ok (regionTable (8 * parts.entries.length)) :=
    read_field (length_regionTable _) (by simp [imageFields])
  have hsmall : 8 * parts.entries.length < 2 ^ 32 := Nat.lt_of_le_of_lt parts.entries_le (by decide)
  have hregions : readRegionsAt (dynamicVhdx parts) (192 * 1024) =
      .ok ⟨some (BAT_REGION_OFF, 8 * parts.entries.length), some (METADATA_REGION_OFF, MIB)⟩ := by
    rw [readRegionsAt, htable]
    exact parseRegionTable_regionTable hsmall
  rw [readRegions, hregions]

/-- The image opens as what it was made from. -/
theorem open_dynamicVhdx (parts : ImageParts) :
    ∃ vhdx, Vhdx.open (dynamicVhdx parts) = .ok vhdx ∧ vhdx.file = dynamicVhdx parts ∧
      vhdx.virtualSize = parts.virtualSize ∧ vhdx.blockSize = parts.blockSize ∧
      vhdx.chunkRatio = 8388608 * parts.sectorSize / parts.blockSize ∧ vhdx.bat = parts.entries := by
  have hident : readExactAt (dynamicVhdx parts) 0 8 = .ok (ascii "vhdxfile") :=
    read_field rfl (by simp [imageFields])
  have hmeta : readExactAt (dynamicVhdx parts) METADATA_REGION_OFF MIB =
      .ok (metadataRegion parts.blockSize parts.sectorSize parts.virtualSize) :=
    read_field (length_metadataRegion _ _ _) (by simp [imageFields])
  have hbat : readExactAt (dynamicVhdx parts) BAT_REGION_OFF (8 * parts.entries.length) =
      .ok (parts.entries.flatMap (toLe 8)) :=
    read_field (length_flatMap_of_length (length_toLe 8) _) (by simp [imageFields])
  obtain ⟨header, hheader⟩ := readHeader_dynamicVhdx parts
  have hregions := readRegions_dynamicVhdx parts
  obtain ⟨md, hmd, hblock, hsector, hvirtual⟩ := parseMetadata_metadataRegion parts.blockSize_pow
    parts.sectorSize_pow parts.virtualSize_lt
  have hratio : 8388608 * md.logicalSectorSize / md.blockSize ≠ 0 := by
    rw [hblock, hsector]
    have hpos : 0 < parts.blockSize := by
      obtain ⟨k, -, hk⟩ := parts.blockSize_pow
      rw [hk]
      exact Nat.two_pow_pos k
    exact Nat.ne_of_gt (Nat.div_pos parts.ratio_pos hpos)
  have hload := load_ok hmeta hmd hratio hbat
  rw [hvirtual, hblock, hsector, batEntries_flatMap parts.entries_lt] at hload
  obtain ⟨vhdx, hvhdx, hparts⟩ := hload
  refine ⟨vhdx, ?_, hparts⟩
  rw [Vhdx.open, hident]
  refine (if_neg (not_not.2 rfl)).trans ?_
  rw [hheader]
  simp only [hregions, hvhdx]

/-- The data of an image lie at 3 MiB. -/
theorem getElem?_dynamicVhdx (parts : ImageParts) (i : ℕ) :
    (dynamicVhdx parts)[FIRST_BLOCK_OFF + i]? = parts.data[i]? := by
  have hlength := length_dynamicVhdx parts
  have hdata : slice (dynamicVhdx parts) FIRST_BLOCK_OFF parts.data.length = parts.data :=
    slice_zeros_place (imageFields_layout parts) rfl (by simp [imageFields])
  rcases Nat.lt_or_ge i parts.data.length with hi | hi
  · rw [← hdata, getElem?_slice, if_pos hi]
  · rw [List.getElem?_eq_none (by omega), List.getElem?_eq_none hi]

end XBoot.VhdxFile
