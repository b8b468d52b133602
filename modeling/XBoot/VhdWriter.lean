import XBoot.DynamicVhd
import Mathlib.Data.Nat.Count

/-!
# Writing a dynamic VHD

`write_dynamic_vhd` lays a source out as footer, header, table, the blocks that are not
all zero, each after a full bitmap, and the footer again. The running sector number of
the next block is a `u32` that wraps. The clock is a parameter, and file writes succeed.
-/

namespace XBoot.Vhd

open ListSlices BigEndian Storage

def DEFAULT_BLOCK_SIZE : ℕ := 2 * 1024 * 1024

/-- VHD CHS geometry from the total sector count: cylinders, heads and sectors per track. -/
def geometry (totalSectors : ℕ) : ℕ × ℕ × ℕ :=
  let ts := min totalSectors (65535 * 16 * 255)
  let (spt, heads, cth) :=
    if 65535 * 16 * 63 ≤ ts then (255, 16, ts / 255)
    else
      let heads := max ((ts / 17 + 1023) / 1024) 4
      let (spt, heads, cth) :=
        if heads * 1024 ≤ ts / 17 ∨ 16 < heads then (31, 16, ts / 31) else (17, heads, ts / 17)
      if heads * 1024 ≤ cth then (63, 16, ts / 63) else (spt, heads, cth)
  (cth / heads, heads, spt)

/-- The footer's fields before its checksum. -/
def footerFront (secsSince2000 currentSize : ℕ) : List UInt8 :=
  let (cyl, heads, spt) := geometry (currentSize / SECTOR)
  ascii "conectix" ++ toBe 4 2 ++ toBe 4 0x10000 ++ toBe 8 512 ++ toBe 4 secsSince2000 ++
    ascii "xbot" ++ toBe 4 0x10000 ++ ascii "Wi2k" ++ toBe 8 currentSize ++ toBe 8 currentSize ++
    toBe 2 cyl ++ toBe 1 heads ++ toBe 1 spt ++ toBe 4 DISK_TYPE_DYNAMIC

/-- The footer's fields after its checksum. -/
def footerBack (secsSince2000 currentSize : ℕ) : List UInt8 :=
  toLe 8 currentSize ++ toLe 4 secsSince2000 ++ ascii "xbot" ++ List.replicate 428 0

def buildFooter (secsSince2000 currentSize : ℕ) : List UInt8 :=
  let front := footerFront secsSince2000 currentSize
  let back := footerBack secsSince2000 currentSize
  front ++ toBe 4 (checksum (front ++ List.replicate 4 0 ++ back) 64 68) ++ back

/-- The header's fields before its checksum. -/
def headerFront (nBlocks : ℕ) : List UInt8 :=
  ascii "cxsparse" ++ toBe 8 (2 ^ 64 - 1) ++ toBe 8 (512 + 1024) ++ toBe 4 0x10000 ++
    toBe 4 nBlocks ++ toBe 4 DEFAULT_BLOCK_SIZE

def dynamicHeader (nBlocks : ℕ) : List UInt8 :=
  let front := headerFront nBlocks
  front ++ toBe 4 (checksum (front ++ List.replicate 988 0) 36 40) ++ List.replicate 984 0

def nBlocksOf (virtualSize : ℕ) : ℕ := (virtualSize + (DEFAULT_BLOCK_SIZE - 1)) / DEFAULT_BLOCK_SIZE

/-- The bytes reserved for the table, padded to whole sectors. -/
def batPadded (nBlocks : ℕ) : ℕ := (nBlocks * 4 + (SECTOR - 1)) / SECTOR * SECTOR

def blocksStart (nBlocks : ℕ) : ℕ := 512 + 1024 + batPadded nBlocks

/-- A bitmap with the bits of all sectors of a block set. -/
def fullBitmap : List UInt8 :=
  let raw := (DEFAULT_BLOCK_SIZE / SECTOR + 7) / 8
  List.replicate raw 0xFF ++ List.replicate (bitmapSizeOf DEFAULT_BLOCK_SIZE - raw) 0

/-- What the block loop builds: the table, the next free sector and the blocks written. -/
structure Writer where
  bat : List ℕ
  nextBlockSector : ℕ
  blocks : List UInt8

/-- One round of the block loop. -/
def writeBlock (source : BackingStore) (w : Writer) (i : ℕ) : Outcome Writer :=
  let off := i * DEFAULT_BLOCK_SIZE
  let this := min DEFAULT_BLOCK_SIZE (source.sizeBytes - off)
  match source.readAt off this with
  | .error e => .error e
  | .ok bytes =>
    let blockBuf := bytes ++ List.replicate (DEFAULT_BLOCK_SIZE - this) 0
    if blockBuf.all (· == 0) then .ok w
    else .ok {
      bat := w.bat.set i w.nextBlockSector
      nextBlockSector := (w.nextBlockSector +
        (bitmapSizeOf DEFAULT_BLOCK_SIZE + DEFAULT_BLOCK_SIZE) / SECTOR) % 2 ^ 32
      blocks := w.blocks ++ fullBitmap ++ blockBuf }

/-- The block loop from block `i` on. -/
def writeBlocks (source : BackingStore) : ℕ → ℕ → Writer → Outcome Writer
  | 0, _, w => .ok w
  | remaining + 1, i, w => match writeBlock source w i with
    | .error e => .error e
    | .ok w' => writeBlocks source remaining (i + 1) w'

/-- `write_dynamic_vhd`: the bytes of the file it writes. -/
def writeDynamicVhd (secsSince2000 : ℕ) (source : BackingStore) : Outcome (List UInt8) :=
  let nBlocks := nBlocksOf source.sizeBytes
  if 2 ^ 32 - 1 < nBlocks then .error (invalidData "image too large for VHD BAT")
  else
    let footer := buildFooter secsSince2000 source.sizeBytes
    match writeBlocks source nBlocks 0 {
        bat := List.replicate nBlocks HOLE
        nextBlockSector := blocksStart nBlocks / SECTOR % 2 ^ 32
        blocks := [] } with
    | .error e => .error e
    | .ok w => .ok (overwrite
        (footer ++ dynamicHeader nBlocks ++ List.replicate (batPadded nBlocks) 0xFF ++ w.blocks ++ footer)
        (512 + 1024) (w.bat.flatMap (toBe 4)))

/-- The bytes of block `i`, a partial last block filled up with zeros. -/
def blockData (content : List UInt8) (i : ℕ) : List UInt8 :=
  let this := min DEFAULT_BLOCK_SIZE (content.length - i * DEFAULT_BLOCK_SIZE)
  slice content (i * DEFAULT_BLOCK_SIZE) this ++ List.replicate (DEFAULT_BLOCK_SIZE - this) 0

/-- Block `i` has a byte that is not zero. -/
def stored (content : List UInt8) (i : ℕ) : Bool := !(blockData content i).all (· == 0)

def blockSectors : ℕ := (bitmapSizeOf DEFAULT_BLOCK_SIZE + DEFAULT_BLOCK_SIZE) / SECTOR

/-- The sector at which block `i` starts in the file, if `alloc` are the blocks stored. -/
def startSector (nBlocks : ℕ) (alloc : ℕ → Bool) (i : ℕ) : ℕ :=
  blocksStart nBlocks / SECTOR + blockSectors * Nat.count (fun j => alloc j = true) i

/-- The table entry that the writer gives block `i`. -/
def batEntry (nBlocks : ℕ) (alloc : ℕ → Bool) (i : ℕ) : ℕ :=
  if alloc i then startSector nBlocks alloc i % 2 ^ 32 else HOLE

/-- The first `k` blocks as they stand in the file. -/
def storedBlocks (content : List UInt8) (k : ℕ) : List UInt8 :=
  (List.range k).flatMap fun i => if stored content i then fullBitmap ++ blockData content i else []

/-- The file up to its blocks: it depends on the source by its size and stored blocks only. -/
def fileFront (secsSince2000 size : ℕ) (alloc : ℕ → Bool) : List UInt8 :=
  let nBlocks := nBlocksOf size
  let table := ((List.range nBlocks).map (batEntry nBlocks alloc)).flatMap (toBe 4)
  buildFooter secsSince2000 size ++ dynamicHeader nBlocks ++
    (table ++ List.replicate (batPadded nBlocks - table.length) 0xFF)

/-- The writer's state before block `i`. -/
def writerAt (content : List UInt8) (nBlocks i : ℕ) : Writer where
  bat := (List.range nBlocks).map fun j => if j < i then batEntry nBlocks (stored content) j else HOLE
  nextBlockSector := startSector nBlocks (stored content) i % 2 ^ 32
  blocks := storedBlocks content i

variable {source : BackingStore} {content : List UInt8}

theorem startSector_succ (nBlocks : ℕ) (alloc : ℕ → Bool) (i : ℕ) :
    startSector nBlocks alloc (i + 1) =
      startSector nBlocks alloc i + if alloc i then blockSectors else 0 := by
  rw [startSector, startSector, Nat.count_succ]
  cases alloc i
  · simp
  · rw [if_pos rfl, if_pos rfl, Nat.mul_add, Nat.mul_one, Nat.add_assoc]

theorem storedBlocks_succ (content : List UInt8) (k : ℕ) :
    storedBlocks content (k + 1) = storedBlocks content k ++
      if stored content k then fullBitmap ++ blockData content k else [] := by
  rw [storedBlocks, storedBlocks, List.range_succ, List.flatMap_append, List.flatMap_singleton]

private theorem bat_succ (content : List UInt8) {nBlocks i : ℕ} (hi : i < nBlocks) :
    (writerAt content nBlocks (i + 1)).bat =
      (writerAt content nBlocks i).bat.set i (batEntry nBlocks (stored content) i) := by
  apply List.ext_getElem?
  intro j
  simp only [writerAt, List.getElem?_set, List.getElem?_map, List.length_map, List.length_range]
  rcases Nat.lt_or_ge j nBlocks with hj | hj
  · rw [List.getElem?_range hj, Option.map_some, Option.map_some]
    rcases Nat.lt_trichotomy j i with hlt | rfl | hgt
    · rw [if_pos (show j < i + 1 by omega), if_neg (show ¬ i = j by omega), if_pos hlt]
    · rw [if_pos (Nat.lt_succ_self j), if_pos rfl, if_pos hi]
    · rw [if_neg (show ¬ j < i + 1 by omega), if_neg (show ¬ i = j by omega),
        if_neg (show ¬ j < i by omega)]
  · have hnone : (List.range nBlocks)[j]? = none := List.getElem?_eq_none (by simpa using hj)
    rw [hnone, if_neg (show ¬ i = j by omega), Option.map_none, Option.map_none]

private theorem bat_set_hole (content : List UInt8) {nBlocks i : ℕ} (hi : i < nBlocks) :
    (writerAt content nBlocks i).bat.set i HOLE = (writerAt content nBlocks i).bat := by
  have hlen : i < (writerAt content nBlocks i).bat.length := by simpa [writerAt] using hi
  have hhole : (writerAt content nBlocks i).bat[i] = HOLE := by simp [writerAt]
  rw [← hhole, List.set_getElem_self]

/-- A round goes from the state before its block to the state before the next one. -/
theorem writeBlock_run (hs : source.Serves content) {nBlocks i : ℕ} (hi : i < nBlocks)
    (hsize : i * DEFAULT_BLOCK_SIZE ≤ source.sizeBytes) :
    writeBlock source (writerAt content nBlocks i) i = .ok (writerAt content nBlocks (i + 1)) := by
  have hread := hs.readAt_eq (show i * DEFAULT_BLOCK_SIZE +
    min DEFAULT_BLOCK_SIZE (source.sizeBytes - i * DEFAULT_BLOCK_SIZE) ≤ source.sizeBytes by omega)
  have hbuf : slice content (i * DEFAULT_BLOCK_SIZE)
      (min DEFAULT_BLOCK_SIZE (source.sizeBytes - i * DEFAULT_BLOCK_SIZE)) ++
      List.replicate (DEFAULT_BLOCK_SIZE -
        min DEFAULT_BLOCK_SIZE (source.sizeBytes - i * DEFAULT_BLOCK_SIZE)) 0 =
      blockData content i := by
    rw [blockData, hs.length_eq]
  have hnext : writerAt content nBlocks (i + 1) = {
      bat := (writerAt content nBlocks i).bat.set i (batEntry nBlocks (stored content) i)
      nextBlockSector := startSector nBlocks (stored content) (i + 1) % 2 ^ 32
      blocks := storedBlocks content (i + 1) } := by
    rw [← bat_succ content hi]
    rfl
  rw [writeBlock]
  dsimp only
  rw [hread]
  dsimp only
  rw [hbuf, hnext, storedBlocks_succ, batEntry, startSector_succ]
  cases hstored : stored content i with
  | false =>
    have hzero : (blockData content i).all (· == 0) = true := by simpa [stored] using hstored
    rw [if_pos hzero, if_neg Bool.false_ne_true, if_neg Bool.false_ne_true, if_neg Bool.false_ne_true,
      bat_set_hole content hi, List.append_nil, Nat.add_zero]
    rfl
  | true =>
    have hdata : (blockData content i).all (· == 0) = false := by simpa [stored] using hstored
    rw [hdata, if_neg Bool.false_ne_true, if_pos rfl, if_pos rfl, if_pos rfl]
    simp only [writerAt, Nat.mod_add_mod, blockSectors, List.append_assoc]

theorem writeBlocks_run (hs : source.Serves content) (remaining i : ℕ)
    (h : i + remaining = nBlocksOf source.sizeBytes) :
    writeBlocks source remaining i (writerAt content (nBlocksOf source.sizeBytes) i) =
      .ok (writerAt content (nBlocksOf source.sizeBytes) (nBlocksOf source.sizeBytes)) := by
  induction remaining generalizing i with
  | zero => rw [writeBlocks, ← h, Nat.add_zero]
  | succ remaining ih =>
    have hsize : i * DEFAULT_BLOCK_SIZE ≤ source.sizeBytes := by
      rw [nBlocksOf, DEFAULT_BLOCK_SIZE] at *
      omega
    rw [writeBlocks, writeBlock_run hs (by omega) hsize]
    exact ih (i + 1) (by omega)

theorem length_footerFront (secs size : ℕ) : (footerFront secs size).length = 64 := by
  have hcookie : (ascii "conectix").length = 8 := by decide
  have hcreator : (ascii "xbot").length = 4 := by decide
  have hhost : (ascii "Wi2k").length = 4 := by decide
  simp only [footerFront, List.length_append, length_toBe, hcookie, hcreator, hhost]

theorem length_footerBack (secs size : ℕ) : (footerBack secs size).length = 444 := by
  have hcreator : (ascii "xbot").length = 4 := by decide
  simp only [footerBack, List.length_append, length_toLe, hcreator, List.length_replicate]

theorem length_buildFooter (secs size : ℕ) : (buildFooter secs size).length = 512 := by
  simp only [buildFooter, List.length_append, length_toBe, length_footerFront, length_footerBack]

theorem length_headerFront (nBlocks : ℕ) : (headerFront nBlocks).length = 36 := by
  have hcookie : (ascii "cxsparse").length = 8 := by decide
  simp only [headerFront, List.length_append, length_toBe, hcookie]

theorem length_dynamicHeader (nBlocks : ℕ) : (dynamicHeader nBlocks).length = 1024 := by
  simp only [dynamicHeader, List.length_append, length_toBe, length_headerFront,
    List.length_replicate]

theorem length_table (entries : List ℕ) : (entries.flatMap (toBe 4)).length = 4 * entries.length :=
  length_flatMap_of_length (length_toBe 4) entries

theorem table_le_batPadded (nBlocks : ℕ) : nBlocks * 4 ≤ batPadded nBlocks := by
  rw [batPadded, SECTOR]
  omega

theorem length_fileFront (secs size : ℕ) (alloc : ℕ → Bool) :
    (fileFront secs size alloc).length = blocksStart (nBlocksOf size) := by
  have htable := table_le_batPadded (nBlocksOf size)
  simp only [fileFront, List.length_append, length_buildFooter, length_dynamicHeader, length_table,
    List.length_map, List.length_range, List.length_replicate, blocksStart]
  omega

private theorem writerAt_zero (content : List UInt8) (nBlocks : ℕ) :
    writerAt content nBlocks 0 = {
      bat := List.replicate nBlocks HOLE
      nextBlockSector := blocksStart nBlocks / SECTOR % 2 ^ 32
      blocks := [] } := by
  simp [writerAt, startSector, storedBlocks]

private theorem writerAt_last (content : List UInt8) (nBlocks : ℕ) :
    (writerAt content nBlocks nBlocks).bat =
      (List.range nBlocks).map (batEntry nBlocks (stored content)) := by
  refine List.map_congr_left fun j hj => ?_
  rw [if_pos (List.mem_range.1 hj)]

/-- The file written: the front, the stored blocks and the footer. -/
theorem writeDynamicVhd_eq (hs : source.Serves content) (secs : ℕ)
    (hn : nBlocksOf source.sizeBytes ≤ 2 ^ 32 - 1) :
    writeDynamicVhd secs source = .ok (fileFront secs source.sizeBytes (stored content) ++
      storedBlocks content (nBlocksOf source.sizeBytes) ++ buildFooter secs source.sizeBytes) := by
  have htable := table_le_batPadded (nBlocksOf source.sizeBytes)
  have hrun := writeBlocks_run hs (nBlocksOf source.sizeBytes) 0 (Nat.zero_add _)
  have hfront : (buildFooter secs source.sizeBytes ++
      dynamicHeader (nBlocksOf source.sizeBytes)).length = 512 + 1024 := by
    rw [List.length_append, length_buildFooter, length_dynamicHeader]
  rw [writerAt_zero] at hrun
  rw [writeDynamicVhd]
  dsimp only
  rw [if_neg (by omega), hrun]
  dsimp only
  rw [List.append_assoc (_ ++ List.replicate _ _), overwrite_middle hfront
    (by rw [writerAt_last, length_table, List.length_map, List.length_range, List.length_replicate]; omega),
    writerAt_last, List.drop_replicate, fileFront]
  simp only [writerAt, List.append_assoc]

end XBoot.Vhd
