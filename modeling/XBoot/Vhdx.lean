import XBoot.VhdxHeaders

/-!
# Reading a dynamic VHDX

The region table names the metadata and the block allocation table (BAT). `open` checks
the headers and loads the table; its entries of payload blocks are interleaved with
entries of sector bitmaps.
-/

namespace XBoot.VhdxFile

open ListSlices UnitWalk BigEndian Storage

def BAT_GUID : List UInt8 :=
  [0x66, 0x77, 0xC2, 0x2D, 0x23, 0xF6, 0x00, 0x42, 0x9D, 0x64, 0x11, 0x5E, 0x9B, 0xFD, 0x4A, 0x08]

def METADATA_GUID : List UInt8 :=
  [0x06, 0xA2, 0x7C, 0x8B, 0x90, 0x47, 0x9A, 0x4B, 0xB8, 0xFE, 0x57, 0x5F, 0x05, 0x0F, 0x88, 0x6E]

structure Regions where
  bat : Option (ℕ × ℕ)
  metadata : Option (ℕ × ℕ)
  deriving DecidableEq, Repr

/-- Take one 32-byte entry of the table into account. -/
def Regions.add (regions : Regions) (entry : List UInt8) : Regions :=
  let place := (ofLe (slice entry 16 8), ofLe (slice entry 24 4))
  if slice entry 0 16 = BAT_GUID then { regions with bat := some place }
  else if slice entry 0 16 = METADATA_GUID then { regions with metadata := some place }
  else regions

def parseRegionTable (rt : List UInt8) : Outcome Regions :=
  if rt.length < 64 * 1024 ∨ slice rt 0 4 ≠ ascii "regi" then
    .error (invalidData "VHDX region table signature mismatch")
  else if (crc32c (overwrite (rt.take (64 * 1024)) 4 [0, 0, 0, 0])).toNat ≠ ofLe (slice rt 4 4) then
    .error (invalidData "VHDX region table CRC mismatch")
  else
    let count := ofLe (slice rt 8 4)
    if 64 * 1024 < 16 + count * 32 then
      .error (invalidData "VHDX region table entry count too large")
    else .ok ((List.range count).foldl (fun regions i => regions.add (slice rt (16 + i * 32) 32))
      ⟨none, none⟩)

def FILE_PARAMS_GUID : List UInt8 :=
  [0x37, 0x67, 0xA1, 0xCA, 0x36, 0xFA, 0x43, 0x4D, 0xB3, 0xB6, 0x33, 0xF0, 0xAA, 0x44, 0xE7, 0x6B]

def VDISK_SIZE_GUID : List UInt8 :=
  [0x24, 0x42, 0xA5, 0x2F, 0x1B, 0xCD, 0x76, 0x48, 0xB2, 0x11, 0x5D, 0xBE, 0xD8, 0x3B, 0xF4, 0xB8]

def LOGICAL_SECTOR_GUID : List UInt8 :=
  [0x1D, 0xBF, 0x41, 0x81, 0x6F, 0xA9, 0x09, 0x47, 0xBA, 0x47, 0xF2, 0x33, 0xA8, 0xFA, 0xAB, 0x5F]

structure MetadataItems where
  blockSize : Option ℕ
  logicalSectorSize : Option ℕ
  virtualSize : Option ℕ
  virtualSize_lt : ∀ n, virtualSize = some n → n < 2 ^ 64

theorem ofLe_slice_lt (bs : List UInt8) (o w : ℕ) : ofLe (slice bs o w) < 256 ^ w := by
  have hlen : (slice bs o w).reverse.length ≤ w := by
    rw [List.length_reverse, slice, List.length_take]
    exact Nat.min_le_left _ _
  exact Nat.lt_of_lt_of_le (ofBe_lt _) (Nat.pow_le_pow_right (by decide) hlen)

/-- Take one 32-byte entry of the metadata table into account. -/
def MetadataItems.add (items : MetadataItems) (region entry : List UInt8) : Outcome MetadataItems :=
  let guid := slice entry 0 16
  let off := ofLe (slice entry 16 4)
  let len := ofLe (slice entry 20 4)
  if region.length < off + len then .error (invalidData "VHDX metadata item out of bounds")
  else
    let value := slice region off len
    if guid = FILE_PARAMS_GUID then
      if value.length < 8 then .error (invalidData "VHDX file parameters too short")
      else if (ofLe (slice value 4 4)).testBit 1 then
        .error (invalidData "differencing VHDX (has parent) unsupported")
      else .ok { items with blockSize := some (ofLe (slice value 0 4)) }
    else if guid = VDISK_SIZE_GUID then
      if value.length < 8 then .error (invalidData "VHDX virtual disk size too short")
      else .ok { items with
        virtualSize := some (ofLe (slice value 0 8))
        virtualSize_lt := fun _ hn => Option.some.inj hn ▸ ofLe_slice_lt value 0 8 }
    else if guid = LOGICAL_SECTOR_GUID then
      if value.length < 4 then .error (invalidData "VHDX logical sector size too short")
      else .ok { items with logicalSectorSize := some (ofLe (slice value 0 4)) }
    else .ok items

/-- The items of the entries from number `i` on. -/
def metadataItems (region : List UInt8) : ℕ → ℕ → MetadataItems → Outcome MetadataItems
  | _, 0, items => .ok items
  | i, count + 1, items => match items.add region (slice region (32 + i * 32) 32) with
    | .error e => .error e
    | .ok items => metadataItems region (i + 1) count items

structure VhdxMetadata where
  blockSize : ℕ
  logicalSectorSize : ℕ
  virtualSize : ℕ
  blockSize_pos : 0 < blockSize
  virtualSize_lt : virtualSize < 2 ^ 64

/-- The three items that are needed, when they are all there and sensible. -/
def MetadataItems.finish (items : MetadataItems) : Outcome VhdxMetadata :=
  match items.blockSize with
  | none => .error (invalidData "VHDX missing block size")
  | some blockSize => match items.logicalSectorSize with
    | none => .error (invalidData "VHDX missing logical sector size")
    | some logicalSectorSize => match hv : items.virtualSize with
      | none => .error (invalidData "VHDX missing virtual size")
      | some virtualSize =>
        if hb : blockSize = 0 ∨ 2 ^ blockSize.log2 ≠ blockSize then
          .error (invalidData "invalid VHDX block size")
        else if logicalSectorSize = 0 ∨ 2 ^ logicalSectorSize.log2 ≠ logicalSectorSize then
          .error (invalidData "invalid VHDX logical sector size")
        else .ok {
          blockSize, logicalSectorSize, virtualSize
          blockSize_pos := Nat.pos_of_ne_zero fun h => hb (.inl h)
          virtualSize_lt := items.virtualSize_lt virtualSize hv }

def parseMetadata (region : List UInt8) : Outcome VhdxMetadata :=
  if region.length < 32 ∨ slice region 0 8 ≠ ascii "metadata" then
    .error (invalidData "VHDX metadata signature mismatch")
  else
    let count := ofLe (slice region 10 2)
    if region.length < 32 + count * 32 then
      .error (invalidData "VHDX metadata entry count too large")
    else match metadataItems region 0 count ⟨none, none, none, nofun⟩ with
      | .error e => .error e
      | .ok items => items.finish

def PB_STATE_FULLY_PRESENT : ℕ := 6
def PB_STATE_PARTIALLY_PRESENT : ℕ := 7

structure Vhdx where
  file : List UInt8
  virtualSize : ℕ
  blockSize : ℕ
  chunkRatio : ℕ
  bat : List ℕ
  virtualSize_lt : virtualSize < 2 ^ 64
  blockSize_pos : 0 < blockSize
  chunkRatio_pos : 0 < chunkRatio

/-- The two copies of the header lie at 64 KiB and 128 KiB. -/
def readHeader (file : List UInt8) : Outcome VhdxHeader :=
  match readExactAt file (64 * 1024) 4096 with
  | .error e => .error e
  | .ok h1 => match readExactAt file (128 * 1024) 4096 with
    | .error e => .error e
    | .ok h2 => parseBestHeader h1 h2

def readRegionsAt (file : List UInt8) (offset : ℕ) : Outcome Regions :=
  match readExactAt file offset (64 * 1024) with
  | .error e => .error e
  | .ok rt => parseRegionTable rt

/-- The region table at 192 KiB, or its copy at 256 KiB when that one does not parse. -/
def readRegions (file : List UInt8) : Outcome Regions :=
  match readRegionsAt file (192 * 1024) with
  | .ok regions => .ok regions
  | .error _ => readRegionsAt file (256 * 1024)

def batEntries (raw : List UInt8) : List ℕ :=
  (List.range (raw.length / 8)).map fun i => ofLe (slice raw (8 * i) 8)

/-- The metadata and the table that the regions name. -/
def load (file : List UInt8) (regions : Regions) : Outcome Vhdx :=
  match regions.metadata with
  | none => .error (invalidData "VHDX missing metadata region")
  | some (metaOff, metaLen) => match regions.bat with
    | none => .error (invalidData "VHDX missing BAT region")
    | some (batOff, batLen) => match readExactAt file metaOff metaLen with
      | .error e => .error e
      | .ok region => match parseMetadata region with
        | .error e => .error e
        | .ok md =>
          let chunkRatio := 8388608 * md.logicalSectorSize / md.blockSize
          if hratio : chunkRatio = 0 then .error (invalidData "invalid VHDX chunk ratio")
          else match readExactAt file batOff batLen with
            | .error e => .error e
            | .ok raw => .ok {
              file, chunkRatio
              virtualSize := md.virtualSize
              blockSize := md.blockSize
              bat := batEntries raw
              virtualSize_lt := md.virtualSize_lt
              blockSize_pos := md.blockSize_pos
              chunkRatio_pos := Nat.pos_of_ne_zero hratio }

namespace Vhdx

def «open» (file : List UInt8) : Outcome Vhdx :=
  match readExactAt file 0 8 with
  | .error e => .error e
  | .ok ident =>
    if ident ≠ ascii "vhdxfile" then .error (invalidData "not a VHDX file")
    else match readHeader file with
      | .error e => .error e
      | .ok _ => match readRegions file with
        | .error e => .error e
        | .ok regions => load file regions

/-- Where a payload block lies; one sector-bitmap entry follows every `chunkRatio` entries. -/
def locate (vhdx : Vhdx) (block : ℕ) : Outcome UnitPlace :=
  if 2 ^ 64 ≤ block + block / vhdx.chunkRatio then .error .panic
  else match vhdx.bat[block + block / vhdx.chunkRatio]? with
    | none => .error (invalidData "block beyond BAT")
    | some entry =>
      if entry % 8 = PB_STATE_FULLY_PRESENT then .ok (.at (entry / 2 ^ 20 * 2 ^ 20))
      else if entry % 8 = PB_STATE_PARTIALLY_PRESENT then
        .error (invalidData "partially-present VHDX block unsupported")
      else .ok .zero

def readPhys (vhdx : Vhdx) (offset len : ℕ) : Outcome (List UInt8) :=
  readExactAt vhdx.file offset len

def readAt (vhdx : Vhdx) (offset len : ℕ) : Outcome (List UInt8) :=
  readUnits vhdx.virtualSize vhdx.blockSize vhdx.locate vhdx.readPhys offset len

def store (vhdx : Vhdx) : BackingStore where
  sizeBytes := vhdx.virtualSize
  readAt := vhdx.readAt
  sizeBytes_lt := vhdx.virtualSize_lt
  length_readAt h := length_readUnits (fun _ _ _ hr => (readExactAt_ok hr).2) h

end Vhdx

/-- The copy of the header at an offset of the file. -/
def headerAt (file : List UInt8) (offset : ℕ) : List UInt8 := slice file offset 4096

theorem readHeader_ok {file : List UInt8} {header : VhdxHeader} (h : readHeader file = .ok header) :
    parseBestHeader (headerAt file (64 * 1024)) (headerAt file (128 * 1024)) = .ok header := by
  rw [readHeader] at h
  split at h
  · cases h
  · rename_i h1 hfirst
    split at h
    · cases h
    · rename_i h2 hsecond
      rwa [headerAt, headerAt, ← (readExactAt_ok hfirst).1, ← (readExactAt_ok hsecond).1]

theorem open_passes {file : List UInt8} {vhdx : Vhdx} (h : Vhdx.open file = .ok vhdx) :
    ∃ header, parseBestHeader (headerAt file (64 * 1024)) (headerAt file (128 * 1024)) =
      .ok header := by
  rw [Vhdx.open] at h
  split at h
  · cases h
  · split at h
    · cases h
    · split at h
      · cases h
      · rename_i header hheader
        exact ⟨header, readHeader_ok hheader⟩

theorem open_has_clean_header {file : List UInt8} {vhdx : Vhdx} (h : Vhdx.open file = .ok vhdx) :
    ∃ offset ∈ [64 * 1024, 128 * 1024],
      ValidCopy (headerAt file offset) ∧ CleanLog (headerAt file offset) := by
  rcases parseBestHeader_passes.1 (open_passes h) with hfirst | hsecond
  · exact ⟨64 * 1024, by simp, hfirst⟩
  · exact ⟨128 * 1024, by simp, hsecond⟩

end XBoot.VhdxFile
