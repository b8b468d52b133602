import XBoot.VhdWriter

/-!
# Reading back a written VHD

`Vhd::open` dispatches on the footer of an image. A file that `write_dynamic_vhd` wrote
opens and shows its source as long as the sector number of every stored block is below the
mark of a hole; from there on the `u32` sector number wraps, and the file's front is read in
place of the block's data.
-/

namespace XBoot.Vhd

open ListSlices BigEndian Storage

/-- Fixed VHD: raw data followed by a footer. -/
structure FixedVhd where
  file : List UInt8
  virtualSize : ℕ
  virtualSize_lt : virtualSize < 2 ^ 64

def FixedVhd.open (file : List UInt8) : Outcome FixedVhd :=
  match trailingFooter file with
  | .error e => .error e
  | .ok footer =>
    if footer.diskType ≠ DISK_TYPE_FIXED then .error (invalidData "not a fixed VHD")
    else .ok {
      file
      virtualSize := footer.currentSize
      virtualSize_lt := footer.currentSize_lt }

def FixedVhd.readAt (vhd : FixedVhd) (offset len : ℕ) : Outcome (List UInt8) :=
  match checkReadRange vhd.virtualSize offset len with
  | .error e => .error e
  | .ok _ => readExactAt vhd.file offset len

def FixedVhd.store (vhd : FixedVhd) : BackingStore where
  sizeBytes := vhd.virtualSize
  readAt := vhd.readAt
  sizeBytes_lt := vhd.virtualSize_lt
  length_readAt he := by
    rw [FixedVhd.readAt] at he
    split at he
    · cases he
    · exact (readExactAt_ok he).2

/-- `Vhd::open`: the reader for the disk type in the footer. -/
def openVhd (ignoreBitmap : Bool) (file : List UInt8) : Outcome BackingStore :=
  match trailingFooter file with
  | .error e => .error e
  | .ok footer =>
    if footer.diskType = DISK_TYPE_FIXED then
      match FixedVhd.open file with
      | .error e => .error e
      | .ok vhd => .ok vhd.store
    else if footer.diskType = DISK_TYPE_DYNAMIC then
      match DynamicVhd.open file with
      | .error e => .error e
      | .ok vhd => .ok (vhd.store ignoreBitmap)
    else .error (invalidData s!"unsupported VHD disk type {footer.diskType}")

private theorem lengths : (ascii "conectix").length = 8 ∧ (ascii "xbot").length = 4 ∧
    (ascii "Wi2k").length = 4 ∧ (ascii "cxsparse").length = 8 := by decide

theorem footerFront_fields (secs size : ℕ) :
    slice (footerFront secs size) 0 8 = ascii "conectix" ∧
      slice (footerFront secs size) 16 8 = toBe 8 512 ∧
      slice (footerFront secs size) 48 8 = toBe 8 size ∧
      slice (footerFront secs size) 60 4 = toBe 4 DISK_TYPE_DYNAMIC := by
  obtain ⟨hcookie, hcreator, hhost, -⟩ := lengths
  have hall : slice (ascii "conectix") 0 8 = ascii "conectix" := by decide
  simp only [footerFront, List.append_assoc]
  refine ⟨?_, ?_, ?_, ?_⟩ <;>
    simp [slice_append_right, slice_append_left, hcookie, hcreator, hhost, hall]

theorem headerFront_fields (nBlocks : ℕ) :
    slice (headerFront nBlocks) 0 8 = ascii "cxsparse" ∧
      slice (headerFront nBlocks) 16 8 = toBe 8 (512 + 1024) ∧
      slice (headerFront nBlocks) 28 4 = toBe 4 nBlocks ∧
      slice (headerFront nBlocks) 32 4 = toBe 4 DEFAULT_BLOCK_SIZE := by
  obtain ⟨-, -, -, hcookie⟩ := lengths
  have hall : slice (ascii "cxsparse") 0 8 = ascii "cxsparse" := by decide
  simp only [headerFront, List.append_assoc]
  refine ⟨?_, ?_, ?_, ?_⟩ <;> simp [slice_append_right, slice_append_left, hcookie, hall]

private theorem checksum_middle {front mid mid' back : List UInt8} {lo hi : ℕ}
    (hfront : front.length = lo) (hmid : lo + mid.length = hi) (hmid' : lo + mid'.length = hi) :
    checksum (front ++ mid ++ back) lo hi = checksum (front ++ mid' ++ back) lo hi := by
  have hparts : ∀ m : List UInt8, lo + m.length = hi →
      (front ++ m ++ back).take lo = front ∧ (front ++ m ++ back).drop hi = back := by
    intro m hm
    have hlen : (front ++ m).length = hi := by rw [List.length_append, hfront, hm]
    constructor
    · rw [List.append_assoc, ← hfront, List.take_left]
    · rw [← hlen, List.drop_left]
  rw [checksum, checksum, (hparts mid hmid).1, (hparts mid hmid).2, (hparts mid' hmid').1,
    (hparts mid' hmid').2]

theorem checksum_lt (buf : List UInt8) (lo hi : ℕ) : checksum buf lo hi < 2 ^ 32 := by
  rw [checksum]
  omega

/-- The footer parses as what it was built from. -/
theorem parse_buildFooter (secs : ℕ) {size : ℕ} (h : size < 2 ^ 64) :
    ∃ footer, VhdFooter.parse (buildFooter secs size) = .ok footer ∧ footer.dataOffset = 512 ∧
      footer.currentSize = size ∧ footer.diskType = DISK_TYPE_DYNAMIC := by
  obtain ⟨hcookie, hoffset, hsize, htype⟩ := footerFront_fields secs size
  have hfront := length_footerFront secs size
  have hlen := length_buildFooter secs size
  have htake : (buildFooter secs size).take 512 = buildFooter secs size :=
    List.take_of_length_le (by omega)
  have hfield : ∀ o n, o + n ≤ 64 →
      slice (buildFooter secs size) o n = slice (footerFront secs size) o n := by
    intro o n hon
    rw [buildFooter, List.append_assoc, slice_append_left (by omega)]
  have hsum : ofBe (slice (buildFooter secs size) 64 4) = checksum (buildFooter secs size) 64 68 := by
    have hstored : slice (buildFooter secs size) 64 4 = toBe 4 (checksum
        (footerFront secs size ++ List.replicate 4 0 ++ footerBack secs size) 64 68) := by
      rw [buildFooter, slice_append_left (by simp [hfront]), slice_append_self hfront (length_toBe _ _)]
    rw [hstored, ofBe_toBe_of_lt (checksum_lt _ _ _), buildFooter]
    exact checksum_middle hfront (by rw [List.length_replicate]) (by rw [length_toBe])
  have hparse : VhdFooter.parse (buildFooter secs size) = .ok {
      dataOffset := ofBe (slice (buildFooter secs size) 16 8)
      currentSize := ofBe (slice (buildFooter secs size) 48 8)
      diskType := ofBe (slice (buildFooter secs size) 60 4)
      currentSize_lt := ofBe_slice_lt _ 48 8 } := by
    rw [VhdFooter.parse, if_neg (by omega)]
    simp only [htake]
    rw [if_neg (by rw [hfield 0 8 (by decide), hcookie]; simp), if_neg (by simp [hsum])]
  refine ⟨_, hparse, ?_, ?_, ?_⟩
  · dsimp only
    rw [hfield 16 8 (by decide), hoffset, ofBe_toBe_of_lt (by decide)]
  · dsimp only
    rw [hfield 48 8 (by decide), hsize, ofBe_toBe_of_lt (by omega)]
  · dsimp only
    rw [hfield 60 4 (by decide), htype, ofBe_toBe_of_lt (by decide)]

theorem bitmapSizeOf_default : bitmapSizeOf DEFAULT_BLOCK_SIZE = SECTOR := by decide

theorem nBlocks_of_sector {size sector : ℕ} (h : sector * SECTOR < size) :
    sector / (DEFAULT_BLOCK_SIZE / SECTOR) < nBlocksOf size := by
  rw [nBlocksOf, DEFAULT_BLOCK_SIZE, SECTOR] at *
  omega

section Front

variable {secs size : ℕ} {alloc : ℕ → Bool} {back : List UInt8}

/-- The header of a written file. -/
theorem readLayout_front (hn : nBlocksOf size ≤ 2 ^ 32 - 1) :
    ∃ layout, readLayout (fileFront secs size alloc ++ back) 512 = .ok layout ∧
      layout.tableOffset = 512 + 1024 ∧ layout.maxEntries = nBlocksOf size ∧
      layout.blockSize = DEFAULT_BLOCK_SIZE := by
  obtain ⟨hcookie, htable, hentries, hblock⟩ := headerFront_fields (nBlocksOf size)
  have hfront := length_headerFront (nBlocksOf size)
  have hread : readExactAt (fileFront secs size alloc ++ back) 512 1024 =
      .ok (dynamicHeader (nBlocksOf size)) := by
    have hlen := length_fileFront secs size alloc
    have hstart : 1536 ≤ blocksStart (nBlocksOf size) := by rw [blocksStart]; omega
    rw [readExactAt_eq (by rw [List.length_append]; omega), slice_append_left (by omega), fileFront,
      slice_append_left (by simp [length_buildFooter, length_dynamicHeader]),
      slice_append_self (length_buildFooter _ _) (length_dynamicHeader _)]
  have hfield : ∀ o n, o + n ≤ 36 →
      slice (dynamicHeader (nBlocksOf size)) o n = slice (headerFront (nBlocksOf size)) o n := by
    intro o n hon
    rw [dynamicHeader, List.append_assoc, slice_append_left (by omega)]
  have hsize : ofBe (slice (dynamicHeader (nBlocksOf size)) 32 4) = DEFAULT_BLOCK_SIZE := by
    rw [hfield 32 4 (by decide), hblock, ofBe_toBe_of_lt (by decide)]
  have hcount : ofBe (slice (dynamicHeader (nBlocksOf size)) 28 4) = nBlocksOf size := by
    rw [hfield 28 4 (by decide), hentries, ofBe_toBe_of_lt (by omega)]
  have hvalid : ¬ (ofBe (slice (dynamicHeader (nBlocksOf size)) 32 4) = 0 ∨
      ofBe (slice (dynamicHeader (nBlocksOf size)) 32 4) % SECTOR ≠ 0 ∨
      2 ^ (ofBe (slice (dynamicHeader (nBlocksOf size)) 32 4)).log2 ≠
        ofBe (slice (dynamicHeader (nBlocksOf size)) 32 4)) := by
    rw [hsize]
    decide
  rw [readLayout, hread]
  dsimp only
  rw [if_neg (by rw [hfield 0 8 (by decide), hcookie]; simp), dif_neg hvalid,
    if_neg (by rw [hcount]; omega)]
  refine ⟨_, rfl, ?_, hcount, hsize⟩
  dsimp only
  rw [hfield 16 8 (by decide), htable, ofBe_toBe_of_lt (by decide)]

/-- The table of a written file. -/
theorem readTable_front :
    readExactAt (fileFront secs size alloc ++ back) (512 + 1024) (nBlocksOf size * 4) =
      .ok (((List.range (nBlocksOf size)).map (batEntry (nBlocksOf size) alloc)).flatMap (toBe 4)) := by
  have hlen := length_fileFront secs size alloc
  have htable := table_le_batPadded (nBlocksOf size)
  have hstart : blocksStart (nBlocksOf size) = 512 + 1024 + batPadded (nBlocksOf size) := rfl
  have hfront : (buildFooter secs size ++ dynamicHeader (nBlocksOf size)).length = 512 + 1024 := by
    rw [List.length_append, length_buildFooter, length_dynamicHeader]
  have hentries : (((List.range (nBlocksOf size)).map (batEntry (nBlocksOf size) alloc)).flatMap
      (toBe 4)).length = nBlocksOf size * 4 := by
    rw [length_table, List.length_map, List.length_range, Nat.mul_comm]
  rw [readExactAt_eq (by rw [List.length_append]; omega), slice_append_left (by omega), fileFront,
    ← List.append_assoc, slice_append_left (by rw [List.length_append]; omega),
    slice_append_self hfront hentries]

end Front

theorem slice_table (entries : List ℕ) {i : ℕ} (hi : i < entries.length) :
    slice (entries.flatMap (toBe 4)) (4 * i) 4 = toBe 4 entries[i] :=
  slice_flatMap (length_toBe 4) entries hi

theorem tableEntries_flatMap {entries : List ℕ} (h : ∀ entry ∈ entries, entry < 2 ^ 32) :
    tableEntries (entries.flatMap (toBe 4)) entries.length = entries := by
  apply List.ext_getElem
  · rw [tableEntries, List.length_map, List.length_range]
  · intro i hi hi'
    have hlt := h entries[i] (List.getElem_mem hi')
    simp only [tableEntries, List.getElem_map, List.getElem_range, slice_table entries hi']
    exact ofBe_toBe_of_lt hlt

theorem batEntry_lt (nBlocks : ℕ) (alloc : ℕ → Bool) (i : ℕ) : batEntry nBlocks alloc i < 2 ^ 32 := by
  rw [batEntry]
  split
  · exact Nat.mod_lt _ (by decide)
  · decide

theorem tableEntries_table (nBlocks : ℕ) (alloc : ℕ → Bool) :
    tableEntries (((List.range nBlocks).map (batEntry nBlocks alloc)).flatMap (toBe 4)) nBlocks =
      (List.range nBlocks).map (batEntry nBlocks alloc) := by
  have hlt : ∀ entry ∈ (List.range nBlocks).map (batEntry nBlocks alloc), entry < 2 ^ 32 := by
    intro entry he
    obtain ⟨i, -, rfl⟩ := List.mem_map.1 he
    exact batEntry_lt nBlocks alloc i
  have hback := tableEntries_flatMap hlt
  rwa [List.length_map, List.length_range] at hback

/-- The fields of a written image. -/
structure Written (secs size : ℕ) (alloc : ℕ → Bool) (file : List UInt8) (vhd : DynamicVhd) :
    Prop where
  file_eq : vhd.file = file
  virtualSize_eq : vhd.virtualSize = size
  blockSize_eq : vhd.layout.blockSize = DEFAULT_BLOCK_SIZE
  bat_eq : vhd.bat = (List.range (nBlocksOf size)).map (batEntry (nBlocksOf size) alloc)

section Open

variable {secs size : ℕ} {alloc : ℕ → Bool} {blocks : List UInt8}

private theorem trailingFooter_written :
    trailingFooter (fileFront secs size alloc ++ blocks ++ buildFooter secs size) =
      VhdFooter.parse (buildFooter secs size) := by
  have hlen := length_buildFooter secs size
  have hread : readExactAt (fileFront secs size alloc ++ blocks ++ buildFooter secs size)
      ((fileFront secs size alloc ++ blocks ++ buildFooter secs size).length - 512) 512 =
        .ok (buildFooter secs size) := by
    rw [readExactAt_eq (by rw [List.length_append]; omega),
      slice_append_self (by simp only [List.length_append]; omega) hlen]
  rw [trailingFooter, if_neg (by rw [List.length_append]; omega), hread]

/-- A written file opens as a dynamic image exactly as its table says, and it does open when
the bitmaps that the table points to lie in the file. -/
theorem open_written (hsize : size < 2 ^ 64) (hn : nBlocksOf size ≤ 2 ^ 32 - 1) :
    let file := fileFront secs size alloc ++ blocks ++ buildFooter secs size
    (∀ ignoreBitmap store, openVhd ignoreBitmap file = .ok store →
        ∃ vhd, Written secs size alloc file vhd ∧ store = vhd.store ignoreBitmap) ∧
      ((∀ i < nBlocksOf size, batEntry (nBlocksOf size) alloc i ≠ HOLE →
          batEntry (nBlocksOf size) alloc i * SECTOR + SECTOR ≤ file.length) →
        ∃ vhd, Written secs size alloc file vhd ∧
          ∀ ignoreBitmap, openVhd ignoreBitmap file = .ok (vhd.store ignoreBitmap)) := by
  intro file
  obtain ⟨footer, hparse, hoffset, hcurrent, htype⟩ := parse_buildFooter secs hsize
  have hfooter : trailingFooter file = .ok footer := trailingFooter_written.trans hparse
  obtain ⟨layout, hlayout, htable, hentries, hblock⟩ : ∃ layout,
      readLayout file 512 = .ok layout ∧ layout.tableOffset = 512 + 1024 ∧
        layout.maxEntries = nBlocksOf size ∧ layout.blockSize = DEFAULT_BLOCK_SIZE := by
    simp only [file, List.append_assoc]
    exact readLayout_front hn
  rw [← hoffset] at hlayout
  have hraw : readExactAt file layout.tableOffset (layout.maxEntries * 4) =
      .ok (((List.range (nBlocksOf size)).map (batEntry (nBlocksOf size) alloc)).flatMap (toBe 4)) := by
    rw [htable, hentries]
    simp only [file, List.append_assoc]
    exact readTable_front
  have hbat : tableEntries (((List.range (nBlocksOf size)).map
      (batEntry (nBlocksOf size) alloc)).flatMap (toBe 4)) layout.maxEntries =
        (List.range (nBlocksOf size)).map (batEntry (nBlocksOf size) alloc) := by
    rw [hentries]
    exact tableEntries_table (nBlocksOf size) alloc
  have hfields : ∀ vhd, DynamicVhd.open file = .ok vhd → Written secs size alloc file vhd := by
    intro vhd hvhd
    obtain ⟨hf, hv, hl, hb⟩ := DynamicVhd.open_fields hfooter htype hlayout hraw hvhd
    exact ⟨hf, hv.trans hcurrent, by rw [hl, hblock], by rw [hb, hbat]⟩
  have hdispatch : ∀ ignoreBitmap, openVhd ignoreBitmap file =
      match DynamicVhd.open file with
      | .error e => .error e
      | .ok vhd => .ok (vhd.store ignoreBitmap) := by
    intro ignoreBitmap
    rw [openVhd, hfooter]
    dsimp only
    rw [if_neg (by rw [htype]; decide), if_pos htype]
  constructor
  · intro ignoreBitmap store hopen
    rw [hdispatch] at hopen
    split at hopen
    · cases hopen
    · rename_i vhd hvhd
      cases hopen
      exact ⟨vhd, hfields vhd hvhd, rfl⟩
  · intro hbitmaps
    obtain ⟨vhd, hvhd⟩ := DynamicVhd.open_succeeds hfooter htype hlayout hraw (by
      intro entry he hhole
      rw [hbat] at he
      obtain ⟨i, hi, rfl⟩ := List.mem_map.1 he
      rw [hblock, bitmapSizeOf_default]
      exact hbitmaps i (List.mem_range.1 hi) hhole)
    exact ⟨vhd, hfields vhd hvhd, fun ignoreBitmap => by rw [hdispatch, hvhd]⟩

end Open

section Blocks

variable {content : List UInt8}

theorem length_fullBitmap : fullBitmap.length = SECTOR := by
  rw [fullBitmap, List.length_append, List.length_replicate, List.length_replicate]
  decide

theorem getElem?_fullBitmap {q : ℕ} (hq : q < SECTOR) : fullBitmap[q]? = some 0xFF := by
  have hraw : (DEFAULT_BLOCK_SIZE / SECTOR + 7) / 8 = SECTOR := by decide
  rw [fullBitmap, hraw, List.getElem?_append_left (by rwa [List.length_replicate]),
    List.getElem?_replicate, if_pos hq]

theorem length_blockData (content : List UInt8) (i : ℕ) :
    (blockData content i).length = DEFAULT_BLOCK_SIZE := by
  rw [blockData, List.length_append, List.length_replicate, slice, List.length_take, List.length_drop]
  omega

theorem blockData_at {p : ℕ} (hp : p < content.length) :
    (blockData content (p / DEFAULT_BLOCK_SIZE))[p % DEFAULT_BLOCK_SIZE]? = content[p]? := by
  have hdiv := Nat.div_add_mod' p DEFAULT_BLOCK_SIZE
  have hmod := Nat.mod_lt p (show 0 < DEFAULT_BLOCK_SIZE by decide)
  rw [blockData, List.getElem?_append_left (by rw [length_slice (by omega)]; omega), getElem?_slice,
    if_pos (by omega), hdiv]

def storedSize : ℕ := blockSectors * SECTOR

theorem length_storedBlock (content : List UInt8) (i : ℕ) :
    (fullBitmap ++ blockData content i).length = storedSize := by
  rw [List.length_append, length_fullBitmap, length_blockData]
  decide

theorem length_storedBlocks (content : List UInt8) (k : ℕ) :
    (storedBlocks content k).length =
      storedSize * Nat.count (fun j => stored content j = true) k := by
  induction k with
  | zero => rw [Nat.count_zero, Nat.mul_zero]; rfl
  | succ k ih =>
    rw [storedBlocks_succ, List.length_append, ih, Nat.count_succ, Nat.mul_add]
    cases stored content k
    · simp
    · rw [if_pos rfl, if_pos rfl, length_storedBlock, Nat.mul_one]

theorem storedBlocks_split {i k : ℕ} (hi : i < k) (hstored : stored content i = true) :
    ∃ rest, storedBlocks content k =
      storedBlocks content i ++ (fullBitmap ++ blockData content i) ++ rest := by
  induction k, hi using Nat.le_induction with
  | base => exact ⟨[], by rw [storedBlocks_succ, if_pos hstored, List.append_nil]⟩
  | succ k hik ih =>
    obtain ⟨rest, hrest⟩ := ih
    exact ⟨rest ++ _, by rw [storedBlocks_succ, hrest, List.append_assoc _ rest]⟩

theorem blocksStart_sectors (nBlocks : ℕ) :
    blocksStart nBlocks / SECTOR * SECTOR = blocksStart nBlocks := by
  rw [blocksStart, batPadded, SECTOR]
  omega

/-- The bytes from a stored block's start sector on are its bitmap and its data. -/
theorem file_at_startSector {secs size i q : ℕ} {back : List UInt8} (hi : i < nBlocksOf size)
    (hstored : stored content i = true) (hq : q < storedSize) :
    (fileFront secs size (stored content) ++ storedBlocks content (nBlocksOf size) ++ back)[
        startSector (nBlocksOf size) (stored content) i * SECTOR + q]? =
      (fullBitmap ++ blockData content i)[q]? := by
  obtain ⟨rest, hsplit⟩ := storedBlocks_split hi hstored
  have hstart : startSector (nBlocksOf size) (stored content) i * SECTOR =
      (fileFront secs size (stored content) ++ storedBlocks content i).length := by
    rw [List.length_append, length_fileFront, length_storedBlocks, startSector, Nat.add_mul,
      blocksStart_sectors, storedSize, Nat.mul_right_comm]
  have hlen := length_storedBlock content i
  rw [hsplit, hstart, ← List.append_assoc, ← List.append_assoc, List.append_assoc _ rest,
    List.append_assoc _ (fullBitmap ++ blockData content i),
    List.getElem?_append_right (Nat.le_add_right _ _), Nat.add_sub_cancel_left,
    List.getElem?_append_left (by omega)]

section StartSector

variable {secs size i q : ℕ} {back : List UInt8} (hi : i < nBlocksOf size)
  (hstored : stored content i = true)
include hi hstored

theorem bitmap_in_file (hq : q < SECTOR) :
    (fileFront secs size (stored content) ++ storedBlocks content (nBlocksOf size) ++ back)[
      startSector (nBlocksOf size) (stored content) i * SECTOR + q]? = some 0xFF := by
  have hsize : SECTOR ≤ storedSize := by decide
  rw [file_at_startSector hi hstored (by omega),
    List.getElem?_append_left (show q < fullBitmap.length by rw [length_fullBitmap]; exact hq)]
  exact getElem?_fullBitmap hq

theorem data_in_file (hq : q < DEFAULT_BLOCK_SIZE) :
    (fileFront secs size (stored content) ++ storedBlocks content (nBlocksOf size) ++ back)[
      startSector (nBlocksOf size) (stored content) i * SECTOR + (SECTOR + q)]? =
        (blockData content i)[q]? := by
  have hsize : storedSize = SECTOR + DEFAULT_BLOCK_SIZE := by decide
  rw [file_at_startSector hi hstored (by omega), ← length_fullBitmap,
    List.getElem?_append_right (Nat.le_add_right _ _), Nat.add_sub_cancel_left]

end StartSector

end Blocks

/-- The start sector of every stored block is below the mark of a hole. -/
def Fits (size : ℕ) (alloc : ℕ → Bool) : Prop :=
  ∀ i < nBlocksOf size, alloc i = true → startSector (nBlocksOf size) alloc i < HOLE

namespace Written

variable {secs size : ℕ} {alloc : ℕ → Bool} {file : List UInt8} {vhd : DynamicVhd}

theorem sectorsPerBlock_eq (h : Written secs size alloc file vhd) :
    vhd.sectorsPerBlock = DEFAULT_BLOCK_SIZE / SECTOR := by
  rw [DynamicVhd.sectorsPerBlock, h.blockSize_eq]

theorem entry_eq (h : Written secs size alloc file vhd) {i : ℕ} (hi : i < nBlocksOf size) :
    vhd.bat[i]? = some (batEntry (nBlocksOf size) alloc i) := by
  rw [h.bat_eq, List.getElem?_map, List.getElem?_range hi, Option.map_some]

theorem coversDisk (h : Written secs size alloc file vhd) : vhd.CoversDisk := by
  intro sector hs
  rw [h.virtualSize_eq] at hs
  rw [h.sectorsPerBlock_eq, h.bat_eq, List.length_map, List.length_range]
  exact nBlocks_of_sector hs

theorem place_eq (h : Written secs size alloc file vhd) {i sector : ℕ} (hi : i < nBlocksOf size)
    (hsector : sector / (DEFAULT_BLOCK_SIZE / SECTOR) = i) :
    vhd.place sector = if batEntry (nBlocksOf size) alloc i = HOLE then none else
      some (batEntry (nBlocksOf size) alloc i * SECTOR + SECTOR +
        sector % (DEFAULT_BLOCK_SIZE / SECTOR) * SECTOR) := by
  rw [DynamicVhd.place, h.sectorsPerBlock_eq, hsector, h.entry_eq hi]
  simp only [DynamicVhd.dataOffset, h.blockSize_eq, h.sectorsPerBlock_eq, bitmapSizeOf_default]

theorem bitSet_eq (h : Written secs size alloc file vhd) {i sector : ℕ} (hi : i < nBlocksOf size)
    (hsector : sector / (DEFAULT_BLOCK_SIZE / SECTOR) = i) {byte : UInt8}
    (hbyte : file[batEntry (nBlocksOf size) alloc i * SECTOR +
      sector % (DEFAULT_BLOCK_SIZE / SECTOR) / 8]? = some byte) :
    vhd.bitSet sector = byte.toNat.testBit (7 - sector % (DEFAULT_BLOCK_SIZE / SECTOR) % 8) := by
  simp only [DynamicVhd.bitSet, h.sectorsPerBlock_eq, hsector, h.entry_eq hi, h.file_eq, hbyte]

end Written

private theorem testBit_full (k : ℕ) : (0xFF : UInt8).toNat.testBit (7 - k) = true := by
  have hall : ∀ j < 8, (0xFF : UInt8).toNat.testBit j = true := by decide
  exact hall (7 - k) (by omega)

theorem stored_false {content : List UInt8} {i : ℕ} (h : stored content i = false) {q : ℕ}
    {b : UInt8} (hq : (blockData content i)[q]? = some b) : b = 0 := by
  have hall : (blockData content i).all (· == 0) = true := by simpa [stored] using h
  simpa using List.all_eq_true.1 hall b (List.mem_of_getElem? hq)

theorem stored_of_ne_zero {content : List UInt8} {p : ℕ} {b : UInt8} (h : content[p]? = some b)
    (hb : b ≠ 0) : stored content (p / DEFAULT_BLOCK_SIZE) = true := by
  by_contra hno
  have hbyte := blockData_at (List.getElem?_eq_some_iff.1 h).1
  exact hb (stored_false (by simpa using hno) (hbyte.trans h))

/-- An image that fits shows the bytes it was written from. -/
theorem byteAt_of_fits {secs size : ℕ} {content : List UInt8} {vhd : DynamicVhd}
    (h : Written secs size (stored content) (fileFront secs size (stored content) ++
      storedBlocks content (nBlocksOf size) ++ buildFooter secs size) vhd)
    (hfits : Fits size (stored content)) (hlen : content.length = size) (ignoreBitmap : Bool) {p : ℕ}
    (hp : p < size) : vhd.byteAt ignoreBitmap p = content[p]? := by
  have hdata := blockData_at (show p < content.length by omega)
  have hi : p / DEFAULT_BLOCK_SIZE < nBlocksOf size := by
    rw [nBlocksOf, DEFAULT_BLOCK_SIZE]
    omega
  have hblock : p / SECTOR / (DEFAULT_BLOCK_SIZE / SECTOR) = p / DEFAULT_BLOCK_SIZE := by
    rw [SECTOR, DEFAULT_BLOCK_SIZE]
    omega
  have hplace := h.place_eq hi hblock
  generalize hblk : p / DEFAULT_BLOCK_SIZE = i at *
  cases hstored : stored content i with
  | false =>
    obtain ⟨b, hb⟩ : ∃ b, content[p]? = some b := ⟨_, List.getElem?_eq_getElem (by omega)⟩
    rw [hb] at hdata
    rw [batEntry, hstored, if_neg Bool.false_ne_true, if_pos rfl] at hplace
    rw [DynamicVhd.byteAt, hplace, hb, stored_false hstored hdata]
  | true =>
    have hlt := hfits i hi hstored
    have hentry : batEntry (nBlocksOf size) (stored content) i =
        startSector (nBlocksOf size) (stored content) i := by
      rw [batEntry, hstored, if_pos rfl, Nat.mod_eq_of_lt (by rw [HOLE] at hlt; omega)]
    have hmod := Nat.mod_lt p (show 0 < DEFAULT_BLOCK_SIZE by decide)
    have hinside : p / SECTOR % (DEFAULT_BLOCK_SIZE / SECTOR) * SECTOR + p % SECTOR =
        p % DEFAULT_BLOCK_SIZE := by
      rw [SECTOR, DEFAULT_BLOCK_SIZE]
      omega
    have hpos : p / SECTOR % (DEFAULT_BLOCK_SIZE / SECTOR) / 8 < SECTOR := by
      rw [SECTOR, DEFAULT_BLOCK_SIZE]
      omega
    have hbyte := h.bitSet_eq hi hblock (by
      rw [hentry]
      exact bitmap_in_file hi hstored hpos)
    rw [hentry, if_neg (by omega)] at hplace
    have hindex : startSector (nBlocksOf size) (stored content) i * SECTOR + SECTOR +
        p / SECTOR % (DEFAULT_BLOCK_SIZE / SECTOR) * SECTOR + p % SECTOR =
          startSector (nBlocksOf size) (stored content) i * SECTOR +
            (SECTOR + p % DEFAULT_BLOCK_SIZE) := by omega
    rw [DynamicVhd.byteAt, hplace, hbyte, testBit_full, Bool.or_true, h.file_eq]
    dsimp only
    rw [if_pos rfl, hindex]
    exact (data_in_file hi hstored hmod).trans hdata

/-- If the writer succeeds on `source`, its file opens with the source's size and every
in-range read returns the source's bytes. -/
def RoundTrips (ignoreBitmap : Bool) (secs : ℕ) (source : BackingStore) (content : List UInt8) : Prop :=
  ∀ file, writeDynamicVhd secs source = .ok file →
    ∃ store, openVhd ignoreBitmap file = .ok store ∧ store.sizeBytes = source.sizeBytes ∧
      ∀ offset len, offset + len ≤ source.sizeBytes →
        store.readAt offset len = .ok (slice content offset len)

variable {ignoreBitmap : Bool} {secs : ℕ} {source : BackingStore} {content : List UInt8}

private theorem bitmaps_of_fits {size : ℕ} (hfits : Fits size (stored content)) (back : List UInt8)
    {i : ℕ} (hi : i < nBlocksOf size) (hhole : batEntry (nBlocksOf size) (stored content) i ≠ HOLE) :
    batEntry (nBlocksOf size) (stored content) i * SECTOR + SECTOR ≤
      (fileFront secs size (stored content) ++ storedBlocks content (nBlocksOf size) ++ back).length := by
  have hstored : stored content i = true := by
    by_contra hno
    rw [batEntry, if_neg hno] at hhole
    exact hhole rfl
  have hlt := hfits i hi hstored
  have hentry : batEntry (nBlocksOf size) (stored content) i =
      startSector (nBlocksOf size) (stored content) i := by
    rw [batEntry, hstored, if_pos rfl, Nat.mod_eq_of_lt (by rw [HOLE] at hlt; omega)]
  have hlast : (fileFront secs size (stored content) ++ storedBlocks content (nBlocksOf size) ++ back)[
      startSector (nBlocksOf size) (stored content) i * SECTOR + (SECTOR - 1)]? = some 0xFF :=
    bitmap_in_file hi hstored (by decide)
  obtain ⟨hin, -⟩ := List.getElem?_eq_some_iff.1 hlast
  have hpos : 0 < SECTOR := by decide
  rw [hentry]
  omega

theorem nBlocks_of_written {file : List UInt8} (h : writeDynamicVhd secs source = .ok file) :
    nBlocksOf source.sizeBytes ≤ 2 ^ 32 - 1 := by
  by_contra hlarge
  rw [writeDynamicVhd] at h
  dsimp only at h
  rw [if_pos (by omega)] at h
  cases h

theorem roundTrips_of_fits (hs : source.Serves content)
    (hfits : Fits source.sizeBytes (stored content)) :
    RoundTrips ignoreBitmap secs source content := by
  intro file hwrite
  have hn := nBlocks_of_written hwrite
  rw [writeDynamicVhd_eq hs secs hn] at hwrite
  cases hwrite
  obtain ⟨vhd, hwritten, hopen⟩ := (open_written source.sizeBytes_lt hn).2
    fun i => bitmaps_of_fits hfits (buildFooter secs source.sizeBytes)
  have hsize := hwritten.virtualSize_eq
  refine ⟨_, hopen ignoreBitmap, hsize, fun offset len hin => ?_⟩
  refine DynamicVhd.readAt_eq_slice hwritten.coversDisk (by rw [hsize, hs.length_eq]) ?_
    (by rw [hsize]; exact hin)
  intro p hp
  rw [hsize] at hp
  exact byteAt_of_fits hwritten hfits hs.length_eq ignoreBitmap hp

/-- A start sector is the first one, or follows that of a stored block before it. -/
theorem startSector_cases (nBlocks : ℕ) (alloc : ℕ → Bool) (i : ℕ) :
    startSector nBlocks alloc i = blocksStart nBlocks / SECTOR ∨
      ∃ j < i, alloc j = true ∧
        startSector nBlocks alloc i = startSector nBlocks alloc j + blockSectors := by
  induction i with
  | zero => exact .inl (by rw [startSector, Nat.count_zero, Nat.mul_zero, Nat.add_zero])
  | succ i ih =>
    rw [startSector_succ]
    cases halloc : alloc i with
    | true => exact .inr ⟨i, Nat.lt_succ_self i, halloc, by rw [if_pos rfl]⟩
    | false =>
      rw [if_neg Bool.false_ne_true, Nat.add_zero]
      rcases ih with hfirst | ⟨j, hj, hrest⟩
      · exact .inl hfirst
      · exact .inr ⟨j, Nat.lt_succ_of_lt hj, hrest⟩

theorem startSector_le (nBlocks : ℕ) (alloc : ℕ → Bool) (i : ℕ) :
    startSector nBlocks alloc i ≤ blocksStart nBlocks / SECTOR + blockSectors * i := by
  have hcount : Nat.count (fun j => alloc j = true) i ≤ i := Nat.count_le _
  exact Nat.add_le_add_left (Nat.mul_le_mul_left _ hcount) _

/-- The first block that does not fit has an entry that is a hole or points into the front. -/
theorem wrapped_entry {size : ℕ} {alloc : ℕ → Bool} (hn : nBlocksOf size ≤ 2 ^ 32 - 1)
    (h : ¬ Fits size alloc) :
    ∃ i < nBlocksOf size, alloc i = true ∧ (batEntry (nBlocksOf size) alloc i = HOLE ∨
      (batEntry (nBlocksOf size) alloc i + blockSectors) * SECTOR ≤ blocksStart (nBlocksOf size)) := by
  classical
  have hex : ∃ i, i < nBlocksOf size ∧ alloc i = true ∧
      HOLE ≤ startSector (nBlocksOf size) alloc i := by
    simpa [Fits] using h
  obtain ⟨hi, halloc, hge⟩ := Nat.find_spec hex
  have hbefore := fun j (hj : j < Nat.find hex) => Nat.find_min hex hj
  generalize Nat.find hex = i at *
  have hsectors : blockSectors = 4097 := by decide
  have hle := startSector_le (nBlocksOf size) alloc i
  have hlt : startSector (nBlocksOf size) alloc i < HOLE + blockSectors := by
    rcases startSector_cases (nBlocksOf size) alloc i with hfirst | ⟨j, hj, hallocj, hnext⟩
    · rw [hfirst, blocksStart, batPadded, SECTOR, HOLE]
      omega
    · have hj' := hbefore j hj
      have : startSector (nBlocksOf size) alloc j < HOLE := by
        by_contra hjge
        exact hj' ⟨by omega, hallocj, by omega⟩
      omega
  refine ⟨i, hi, halloc, ?_⟩
  rw [batEntry, halloc, if_pos rfl]
  rw [hsectors] at *
  rw [blocksStart, batPadded, SECTOR, HOLE] at *
  omega

/-- Two images with one table that agree on a front show the same bytes of a block that lies in
the front or is a hole. -/
theorem Written.byteAt_congr {size bound i p : ℕ} {alloc : ℕ → Bool} {file file' : List UInt8}
    {vhd vhd' : DynamicVhd} (h : Written secs size alloc file vhd)
    (h' : Written secs size alloc file' vhd') (hfiles : ∀ k < bound, file[k]? = file'[k]?)
    (hi : i < nBlocksOf size) (hp : p / DEFAULT_BLOCK_SIZE = i)
    (hentry : batEntry (nBlocksOf size) alloc i = HOLE ∨
      (batEntry (nBlocksOf size) alloc i + blockSectors) * SECTOR ≤ bound) :
    vhd.byteAt ignoreBitmap p = vhd'.byteAt ignoreBitmap p := by
  have hblock : p / SECTOR / (DEFAULT_BLOCK_SIZE / SECTOR) = i := by
    rw [← hp, SECTOR, DEFAULT_BLOCK_SIZE]
    omega
  rw [DynamicVhd.byteAt, DynamicVhd.byteAt, h.place_eq hi hblock, h'.place_eq hi hblock]
  by_cases hhole : batEntry (nBlocksOf size) alloc i = HOLE
  · rw [if_pos hhole]
  · have hbound := hentry.resolve_left hhole
    have hsectors : blockSectors = 4097 := by decide
    have hin : ∀ k < blockSectors * SECTOR,
        file[batEntry (nBlocksOf size) alloc i * SECTOR + k]? =
          file'[batEntry (nBlocksOf size) alloc i * SECTOR + k]? := by
      intro k hk
      rw [Nat.add_mul] at hbound
      exact hfiles _ (by omega)
    have hbit : vhd.bitSet (p / SECTOR) = vhd'.bitSet (p / SECTOR) := by
      have hsame := hin (p / SECTOR % (DEFAULT_BLOCK_SIZE / SECTOR) / 8)
        (by rw [hsectors, SECTOR, DEFAULT_BLOCK_SIZE]; omega)
      simp only [DynamicVhd.bitSet, h.sectorsPerBlock_eq, h'.sectorsPerBlock_eq, hblock, h.entry_eq hi,
        h'.entry_eq hi, h.file_eq, h'.file_eq, hsame]
    have hbyte := hin (SECTOR + p % DEFAULT_BLOCK_SIZE)
      (by rw [hsectors, SECTOR, DEFAULT_BLOCK_SIZE]; omega)
    have hindex : batEntry (nBlocksOf size) alloc i * SECTOR + SECTOR +
        p / SECTOR % (DEFAULT_BLOCK_SIZE / SECTOR) * SECTOR + p % SECTOR =
          batEntry (nBlocksOf size) alloc i * SECTOR + (SECTOR + p % DEFAULT_BLOCK_SIZE) := by
      rw [SECTOR, DEFAULT_BLOCK_SIZE]
      omega
    rw [if_neg hhole, hbit]
    dsimp only
    rw [hindex, h.file_eq, h'.file_eq, hbyte]

/-- Putting one nonzero byte into a stored block keeps the set of stored blocks. -/
theorem stored_overwrite {i : ℕ} {b : UInt8} (hstored : stored content i = true)
    (hi : i * DEFAULT_BLOCK_SIZE < content.length) (hb : b ≠ 0) :
    stored (overwrite content (i * DEFAULT_BLOCK_SIZE) [b]) = stored content := by
  have hfit : i * DEFAULT_BLOCK_SIZE + [b].length ≤ content.length := hi
  have hlen := length_overwrite hfit
  funext j
  by_cases hj : j = i
  · subst hj
    have hdiv : j * DEFAULT_BLOCK_SIZE / DEFAULT_BLOCK_SIZE = j := Nat.mul_div_cancel _ (by decide)
    have hbyte : (overwrite content (j * DEFAULT_BLOCK_SIZE) [b])[j * DEFAULT_BLOCK_SIZE]? = some b := by
      rw [getElem?_overwrite hfit, if_pos ⟨Nat.le_refl _, by simp⟩, Nat.sub_self]
      rfl
    have hkept := stored_of_ne_zero hbyte hb
    rw [hdiv] at hkept
    rw [hkept, hstored]
  · have hdata : blockData (overwrite content (i * DEFAULT_BLOCK_SIZE) [b]) j = blockData content j := by
      rw [blockData, blockData, hlen, slice_overwrite_of_disjoint hfit]
      rcases Nat.lt_or_gt_of_ne hj with hlt | hgt
      · have hmul : (j + 1) * DEFAULT_BLOCK_SIZE ≤ i * DEFAULT_BLOCK_SIZE := Nat.mul_le_mul_right _ hlt
        rw [Nat.add_mul, Nat.one_mul] at hmul
        exact .inl (by omega)
      · have hmul : (i + 1) * DEFAULT_BLOCK_SIZE ≤ j * DEFAULT_BLOCK_SIZE := Nat.mul_le_mul_right _ hgt
        rw [Nat.add_mul, Nat.one_mul] at hmul
        exact .inr (by rw [List.length_singleton]; have : 0 < DEFAULT_BLOCK_SIZE := by decide
                       omega)
    rw [stored, stored, hdata]

private theorem byteAt_of_roundTrips (hs : source.Serves content)
    (hn : nBlocksOf source.sizeBytes ≤ 2 ^ 32 - 1) (h : RoundTrips ignoreBitmap secs source content)
    {p : ℕ} (hp : p < source.sizeBytes) :
    ∃ vhd, Written secs source.sizeBytes (stored content)
        (fileFront secs source.sizeBytes (stored content) ++
          storedBlocks content (nBlocksOf source.sizeBytes) ++ buildFooter secs source.sizeBytes) vhd ∧
      vhd.byteAt ignoreBitmap p = content[p]? := by
  obtain ⟨store, hopen, -, hreads⟩ := h _ (writeDynamicVhd_eq hs secs hn)
  obtain ⟨vhd, hwritten, rfl⟩ := (open_written source.sizeBytes_lt hn).1 _ _ hopen
  have hread := hreads p 1 (by omega)
  have hbyte := (DynamicVhd.readAt_byteAt hwritten.coversDisk
    (by rw [hwritten.virtualSize_eq]; omega) hread).2 0 (by decide)
  rw [getElem?_slice, if_pos (by decide), Nat.add_zero] at hbyte
  exact ⟨vhd, hwritten, hbyte.symm⟩

/-- If some block does not fit, a source with the same stored blocks is not read back. -/
theorem not_roundTrips_of_not_fits (hs : source.Serves content)
    (hn : nBlocksOf source.sizeBytes ≤ 2 ^ 32 - 1) (hnot : ¬ Fits source.sizeBytes (stored content)) :
    ∃ source' content', source'.Serves content' ∧ source'.sizeBytes = source.sizeBytes ∧
      stored content' = stored content ∧ ¬ RoundTrips ignoreBitmap secs source' content' := by
  obtain ⟨i, hi, hstored, hentry⟩ := wrapped_entry hn hnot
  have hlen := hs.length_eq
  have hsize := source.sizeBytes_lt
  have hpos : i * DEFAULT_BLOCK_SIZE < content.length := by
    rw [nBlocksOf, DEFAULT_BLOCK_SIZE] at *
    omega
  have hfit : ∀ b : UInt8, i * DEFAULT_BLOCK_SIZE + [b].length ≤ content.length := fun b => hpos
  have hlt : ∀ b : UInt8, (overwrite content (i * DEFAULT_BLOCK_SIZE) [b]).length < 2 ^ 64 := by
    intro b
    rw [length_overwrite (hfit b)]
    omega
  by_contra hall
  push Not at hall
  have hbyte : ∀ b : UInt8, b ≠ 0 → ∃ file vhd, Written secs source.sizeBytes (stored content) file vhd ∧
      (∀ k < blocksStart (nBlocksOf source.sizeBytes),
        file[k]? = (fileFront secs source.sizeBytes (stored content))[k]?) ∧
      vhd.byteAt ignoreBitmap (i * DEFAULT_BLOCK_SIZE) = some b := by
    intro b hb
    have hserves := rawFile_serves _ (hlt b)
    have hsame : (rawFile _ (hlt b)).sizeBytes = source.sizeBytes := by
      rw [← hserves.length_eq, length_overwrite (hfit b), hlen]
    have hkeep := stored_overwrite hstored hpos hb
    obtain ⟨vhd, hwritten, hshow⟩ := byteAt_of_roundTrips hserves (by rw [hsame]; exact hn)
      (hall _ _ hserves hsame hkeep) (show i * DEFAULT_BLOCK_SIZE < (rawFile _ (hlt b)).sizeBytes by omega)
    rw [hsame, hkeep] at hwritten
    refine ⟨_, vhd, hwritten, fun k hk => ?_, ?_⟩
    · rw [List.append_assoc, List.getElem?_append_left (by rw [length_fileFront]; exact hk)]
    · rw [hshow, getElem?_overwrite (hfit b), if_pos ⟨Nat.le_refl _, by simp⟩, Nat.sub_self]
      rfl
  obtain ⟨file₁, vhd₁, hw₁, hfront₁, hb₁⟩ := hbyte 1 (by decide)
  obtain ⟨file₂, vhd₂, hw₂, hfront₂, hb₂⟩ := hbyte 2 (by decide)
  have hsame : vhd₁.byteAt ignoreBitmap (i * DEFAULT_BLOCK_SIZE) =
      vhd₂.byteAt ignoreBitmap (i * DEFAULT_BLOCK_SIZE) :=
    hw₁.byteAt_congr hw₂ (fun k hk => by rw [hfront₁ k hk, hfront₂ k hk]) hi
      (Nat.mul_div_cancel _ (by decide)) hentry
  rw [hb₁, hb₂] at hsame
  cases hsame

/-- Every source of a given size and set of nonzero blocks is read back from the image written of
it exactly when the writer refuses that size or every stored block's sector number fits. -/
theorem dynamic_vhd_round_trip_iff (ignoreBitmap : Bool) (secs : ℕ) (source : BackingStore)
    (content : List UInt8) (hs : source.Serves content) :
    (∀ source' content', source'.Serves content' → source'.sizeBytes = source.sizeBytes →
        stored content' = stored content → RoundTrips ignoreBitmap secs source' content') ↔
      2 ^ 32 - 1 < nBlocksOf source.sizeBytes ∨ Fits source.sizeBytes (stored content) := by
  constructor
  · intro hall
    by_contra hno
    rw [not_or] at hno
    obtain ⟨source', content', hs', hsize, hkeep, hnot⟩ :=
      not_roundTrips_of_not_fits (by assumption) (by omega) hno.2
    exact hnot (hall source' content' hs' hsize hkeep)
  · rintro hcond source' content' hs' hsize hkeep file hwrite
    have hn := nBlocks_of_written hwrite
    rw [hsize] at hn
    rcases hcond with hlarge | hfits
    · omega
    · rw [← hsize, ← hkeep] at hfits
      exact roundTrips_of_fits hs' hfits file hwrite

/-- A block of ones, a block of zeros, and one byte of a third block. -/
def holedDisk : List UInt8 :=
  List.replicate DEFAULT_BLOCK_SIZE 1 ++ List.replicate DEFAULT_BLOCK_SIZE 0 ++ [5]

private theorem length_holedDisk : holedDisk.length = 2 * DEFAULT_BLOCK_SIZE + 1 := by
  rw [holedDisk, List.length_append, List.length_append, List.length_replicate,
    List.length_replicate, List.length_singleton, Nat.two_mul]

private theorem holedDisk_blocks : stored holedDisk 0 = true ∧ stored holedDisk 1 = false ∧
    stored holedDisk 2 = true := by
  have hfront : (List.replicate DEFAULT_BLOCK_SIZE (1 : UInt8) ++
      List.replicate DEFAULT_BLOCK_SIZE 0).length = 2 * DEFAULT_BLOCK_SIZE := by
    rw [List.length_append, List.length_replicate, List.length_replicate, Nat.two_mul]
  have hfirst : holedDisk[0]? = some 1 := by
    rw [holedDisk, List.append_assoc, List.getElem?_append_left (by rw [List.length_replicate]; decide),
      List.getElem?_replicate, if_pos (by decide)]
  have hlast : holedDisk[2 * DEFAULT_BLOCK_SIZE]? = some 5 := by
    rw [holedDisk, List.getElem?_append_right (Nat.le_of_eq hfront), hfront, Nat.sub_self]
    rfl
  have hmiddle : blockData holedDisk 1 = List.replicate DEFAULT_BLOCK_SIZE 0 := by
    have hmin : min DEFAULT_BLOCK_SIZE (holedDisk.length - 1 * DEFAULT_BLOCK_SIZE) =
        DEFAULT_BLOCK_SIZE := by
      rw [length_holedDisk]
      decide
    rw [blockData, hmin, Nat.sub_self, List.replicate_zero, List.append_nil, holedDisk,
      slice_append_left (by rw [hfront]; decide),
      slice_append_self (by rw [List.length_replicate, Nat.one_mul]) List.length_replicate]
  have hzero := stored_of_ne_zero hfirst (by decide)
  have htwo := stored_of_ne_zero hlast (by decide)
  rw [Nat.zero_div] at hzero
  rw [Nat.mul_div_cancel _ (by decide)] at htwo
  refine ⟨hzero, ?_, htwo⟩
  rw [stored, hmiddle]
  simp

def holedStore : BackingStore := rawFile holedDisk (by
  rw [length_holedDisk]
  decide)

/-- A disk of three blocks, of which the second one is a hole, is read back. -/
theorem dynamic_vhd_round_trip_with_hole :
    (stored holedDisk 0, stored holedDisk 1, stored holedDisk 2) = (true, false, true) ∧
      RoundTrips false 0 holedStore holedDisk := by
  obtain ⟨hfirst, hsecond, hthird⟩ := holedDisk_blocks
  have hserves : holedStore.Serves holedDisk := rawFile_serves _ _
  refine ⟨by rw [hfirst, hsecond, hthird], (dynamic_vhd_round_trip_iff false 0 _ _ hserves).2
    (.inr fun i hi _ => ?_) _ _ hserves rfl rfl⟩
  have hn : nBlocksOf holedStore.sizeBytes = 3 := by
    rw [← hserves.length_eq, length_holedDisk]
    decide
  rw [hn] at hi ⊢
  have hle := startSector_le 3 (stored holedDisk) i
  have hstart : blocksStart 3 / SECTOR = 4 := by decide
  have hsectors : blockSectors = 4097 := by decide
  rw [hstart, hsectors] at hle
  rw [HOLE]
  omega

private theorem table_byte {size i : ℕ} {alloc : ℕ → Bool} (hi : i < nBlocksOf size) :
    (fileFront secs size alloc)[512 + 1024 + 4 * i]? =
      some (UInt8.ofNat (batEntry (nBlocksOf size) alloc i / 256 ^ 3)) := by
  have hread : readExactAt (fileFront secs size alloc ++ []) (512 + 1024) (nBlocksOf size * 4) = _ :=
    readTable_front
  have hentries : ((List.range (nBlocksOf size)).map (batEntry (nBlocksOf size) alloc)).length =
      nBlocksOf size := by rw [List.length_map, List.length_range]
  have hentry := slice_table ((List.range (nBlocksOf size)).map (batEntry (nBlocksOf size) alloc))
    (show i < _ by rw [hentries]; exact hi)
  rw [(readExactAt_ok hread).1, slice_slice _ _ _ _ _ (by omega), List.append_nil] at hentry
  have hbyte := congrArg (·[0]?) hentry
  simp only [getElem?_slice, List.getElem_map, List.getElem_range] at hbyte
  simpa [toBe] using hbyte

private theorem ones_not_read_back (hs : source.Serves content)
    (hsize : source.sizeBytes = 1048576 * DEFAULT_BLOCK_SIZE)
    (hones : ∀ p < content.length, content[p]? = some 1) : ¬ RoundTrips false secs source content := by
  intro h
  have hlen := hs.length_eq
  have hblock : DEFAULT_BLOCK_SIZE = 2097152 := by decide
  have hn : nBlocksOf source.sizeBytes = 1048576 := by
    rw [hsize, nBlocksOf, hblock]
  have hstored : ∀ i < 1048576, stored content i = true := by
    intro i hi
    have hpos : i * DEFAULT_BLOCK_SIZE < content.length := by
      rw [hlen, hsize, hblock]
      omega
    have hstored := stored_of_ne_zero (hones _ hpos) (by decide)
    rwa [Nat.mul_div_cancel _ (by decide)] at hstored
  have hstart : ∀ i < 1048576, batEntry 1048576 (stored content) i = (8195 + 4097 * i) % 2 ^ 32 := by
    intro i hi
    have hcount : Nat.count (fun j => stored content j = true) i = i :=
      Nat.count_iff_forall.2 fun j hj => hstored j (by omega)
    have hfirst : blocksStart 1048576 / SECTOR = 8195 := by decide
    have hsectors : blockSectors = 4097 := by decide
    rw [batEntry, hstored i hi, if_pos rfl, startSector, hcount, hfirst, hsectors]
  obtain ⟨vhd, hwritten, hshow⟩ := byteAt_of_roundTrips hs (by rw [hn]; decide) h
    (show 1048319 * DEFAULT_BLOCK_SIZE < source.sizeBytes by rw [hsize, hblock]; decide)
  have hsector : 1048319 * DEFAULT_BLOCK_SIZE / SECTOR = 1048319 * (DEFAULT_BLOCK_SIZE / SECTOR) := by
    decide
  have hin : 1048319 < nBlocksOf source.sizeBytes := by rw [hn]; decide
  have hdiv : 1048319 * (DEFAULT_BLOCK_SIZE / SECTOR) / (DEFAULT_BLOCK_SIZE / SECTOR) = 1048319 := by
    decide
  have hmod : 1048319 * (DEFAULT_BLOCK_SIZE / SECTOR) % (DEFAULT_BLOCK_SIZE / SECTOR) = 0 := by decide
  have hentry : batEntry (nBlocksOf source.sizeBytes) (stored content) 1048319 = 3842 := by
    have hwrapped : (8195 + 4097 * 1048319) % 2 ^ 32 = 3842 := by decide
    rw [hn, hstart 1048319 (by decide), hwrapped]
  have hplace := hwritten.place_eq hin hdiv
  rw [hentry, if_neg (by decide), hmod] at hplace
  have hbyte : (fileFront secs source.sizeBytes (stored content) ++
      storedBlocks content (nBlocksOf source.sizeBytes) ++ buildFooter secs source.sizeBytes)[
        3842 * SECTOR + 0 / 8]? = some 119 := by
    have hlt : 3842 * SECTOR + 0 / 8 <
        (fileFront secs source.sizeBytes (stored content)).length := by
      rw [length_fileFront, hn]
      decide
    have htable : (fileFront secs source.sizeBytes (stored content))[512 + 1024 + 4 * 491392]? = _ :=
      table_byte (by rw [hn]; decide)
    rw [hn, hstart 491392 (by decide)] at htable
    rw [List.append_assoc, List.getElem?_append_left hlt]
    exact htable
  have hbit := hwritten.bitSet_eq hin hdiv (by rw [hentry, hmod]; exact hbyte)
  rw [hmod] at hbit
  have hclear : (119 : UInt8).toNat.testBit (7 - 0 % 8) = false := by decide
  rw [DynamicVhd.byteAt, hsector, hplace, hbit, hclear, hones _ (by
    rw [hlen, hsize, hblock]
    decide)] at hshow
  cases hshow

/-- A disk of 2 TiB of ones is written without an error and not read back. -/
theorem two_tib_of_ones_not_read_back :
    ¬ RoundTrips false 0 (rawFile (List.replicate (2 ^ 41) 1) (by
        rw [List.length_replicate]
        decide)) (List.replicate (2 ^ 41) 1) := by
  have hserves := rawFile_serves (List.replicate (2 ^ 41) 1) (by
    rw [List.length_replicate]
    decide)
  refine ones_not_read_back hserves ?_ fun p hp => ?_
  · rw [← hserves.length_eq, List.length_replicate]
    decide
  · rw [List.length_replicate] at hp
    rw [List.getElem?_replicate, if_pos hp]

end XBoot.Vhd
