import XBoot.ImageAddresses
import XBoot.InterleavedTables

/-!
# Payload blocks behind interleaved table entries

In the table of a VHDX an entry of a sector bitmap follows every `chunkRatio` entries of
payload blocks. A read skips them however many chunks the disk has, so every block shows
its own payload.
-/

namespace XBoot.VhdxFile

open ListSlices Storage InterleavedTables

/-- The table has the entries of all payload blocks of the disk, with the sector-bitmap entries
as markers, and the present blocks lie in the file. -/
structure FollowsFormat (vhdx : Vhdx) (table : Table ℕ vhdx.chunkRatio) : Prop where
  bat_eq : vhdx.bat = table.slots
  covers : vhdx.virtualSize ≤ table.entries.length * vhdx.blockSize
  in_file : ∀ entry ∈ table.entries, entry % 8 = PB_STATE_FULLY_PRESENT →
    entry / 2 ^ 20 * 2 ^ 20 + vhdx.blockSize ≤ vhdx.file.length

/-- The byte at position `p` of the disk: in the payload of its block, or a zero. -/
def payloadByte (vhdx : Vhdx) (payload : List ℕ) (p : ℕ) : Option UInt8 :=
  match payload[p / vhdx.blockSize]? with
  | none => none
  | some entry =>
    if entry % 8 = PB_STATE_FULLY_PRESENT then
      vhdx.file[entry / 2 ^ 20 * 2 ^ 20 + p % vhdx.blockSize]?
    else some 0

/-- The range has a position in a partially-present block. -/
def TouchesPartial (vhdx : Vhdx) (payload : List ℕ) (offset len : ℕ) : Prop :=
  ∃ i < len, ∃ entry, payload[(offset + i) / vhdx.blockSize]? = some entry ∧
    entry % 8 = PB_STATE_PARTIALLY_PRESENT

namespace FollowsFormat

variable {vhdx : Vhdx} {table : Table ℕ vhdx.chunkRatio} (h : FollowsFormat vhdx table)
include h

theorem bat_slot (block : ℕ) :
    vhdx.bat[block + block / vhdx.chunkRatio]? = table.entries[block]? := by
  rw [h.bat_eq]
  exact table.slots_slotOf vhdx.chunkRatio_pos block

theorem has_entry {p : ℕ} (hp : p < vhdx.virtualSize) :
    ∃ entry ∈ table.entries, table.entries[p / vhdx.blockSize]? = some entry := by
  have hblock : p / vhdx.blockSize < table.entries.length :=
    Nat.div_lt_of_lt_mul (by rw [Nat.mul_comm]; exact Nat.lt_of_lt_of_le hp h.covers)
  exact ⟨_, List.getElem_mem hblock, List.getElem?_eq_getElem hblock⟩

theorem slot_lt {file : List UInt8} (hopen : Vhdx.open file = .ok vhdx) (hfile : file.length < 2 ^ 64)
    {block entry : ℕ} (he : table.entries[block]? = some entry) :
    block + block / vhdx.chunkRatio < 2 ^ 64 := by
  obtain ⟨-, batOff, batLen, hbat⟩ := open_file hopen
  rw [← h.bat_slot block] at he
  obtain ⟨hlt, -⟩ := List.getElem?_eq_some_iff.1 he
  have hslice : (slice file batOff batLen).length ≤ file.length := by
    rw [slice, List.length_take, List.length_drop]
    omega
  rw [hbat, batEntries, List.length_map, List.length_range] at hlt
  omega

theorem addressesFit {file : List UInt8} (hopen : Vhdx.open file = .ok vhdx)
    (hfile : file.length < 2 ^ 64) : vhdx.AddressesFit := by
  intro block hblock
  have hstart : block * vhdx.blockSize / vhdx.blockSize = block :=
    Nat.mul_div_cancel _ vhdx.blockSize_pos
  obtain ⟨entry, hmem, he⟩ := h.has_entry hblock
  rw [hstart] at he
  refine ⟨h.slot_lt hopen hfile he, fun entry' he' hpresent => ?_⟩
  rw [h.bat_slot, he] at he'
  cases he'
  have hin := h.in_file entry hmem hpresent
  rw [(open_file hopen).1] at hin
  omega

theorem payloadByte_eq {p : ℕ} (hp : p < vhdx.virtualSize) :
    payloadByte vhdx table.entries p = match vhdx.origin p with
      | none => some 0
      | some place => vhdx.file[place.pos]? := by
  obtain ⟨entry, -, he⟩ := h.has_entry hp
  rw [payloadByte, Vhdx.origin, h.bat_slot, he]
  dsimp only
  split <;> rfl

end FollowsFormat

section Reads

variable {file : List UInt8} {vhdx : Vhdx} {table : Table ℕ vhdx.chunkRatio}
  (hopen : Vhdx.open file = .ok vhdx) (hfile : file.length < 2 ^ 64) (h : FollowsFormat vhdx table)
  {offset len : ℕ}
include hopen hfile h

private theorem fails_of_partial (htouches : TouchesPartial vhdx table.entries offset len) :
    ∃ e, vhdx.readAt offset len = .error e := by
  obtain ⟨i, hi, entry, he, hstate⟩ := htouches
  have hlocate : ∀ place, vhdx.locate ((offset + i) / vhdx.blockSize) ≠ .ok place := by
    intro place hok
    rw [Vhdx.locate_entry (h.slot_lt hopen hfile he) (by rw [h.bat_slot, he]), hstate,
      if_neg (by decide), if_pos rfl] at hok
    cases hok
  cases hread : vhdx.readAt offset len with
  | error e => exact ⟨e, rfl⟩
  | ok bytes =>
    rcases (readUnits_from_file vhdx.blockSize_pos hread).2 i hi with ⟨hzero, -⟩ | ⟨base, hat, -⟩
    · exact absurd hzero (hlocate _)
    · exact absurd hat (hlocate _)

private theorem succeeds_of_not_partial (hrange : offset + len ≤ vhdx.virtualSize)
    (htouches : ¬ TouchesPartial vhdx table.entries offset len) :
    ∃ bytes, vhdx.readAt offset len = .ok bytes := by
  have hsame := (open_file hopen).1
  refine readUnits_in_file vhdx.blockSize_pos (hsame ▸ hfile) vhdx.virtualSize_lt hrange
    fun i hi => ?_
  obtain ⟨entry, hmem, he⟩ := h.has_entry (show offset + i < vhdx.virtualSize by omega)
  rw [Vhdx.locate_entry (h.slot_lt hopen hfile he) (by rw [h.bat_slot, he])]
  by_cases hpresent : entry % 8 = PB_STATE_FULLY_PRESENT
  · rw [if_pos hpresent]
    exact .inr ⟨_, rfl, h.in_file entry hmem hpresent⟩
  · rw [if_neg hpresent, if_neg fun hstate => htouches ⟨i, hi, entry, he, hstate⟩]
    exact .inl rfl

end Reads

/-- The slots of the blocks increase, are none of sector bitmaps and are all others; a read inside the disk
fails, with an `io::Error`, exactly when it touches a partially-present block, and otherwise has
the bytes of each block's own payload. -/
theorem interleaved_blocks_read {file : List UInt8} {vhdx : Vhdx} (hopen : Vhdx.open file = .ok vhdx)
    (hfile : file.length < 2 ^ 64) (table : Table ℕ vhdx.chunkRatio)
    (h : FollowsFormat vhdx table) :
    StrictMono (slotOf vhdx.chunkRatio) ∧
    (∀ block, ¬ MarkerSlot vhdx.chunkRatio (slotOf vhdx.chunkRatio block)) ∧
    (∀ slot, ¬ MarkerSlot vhdx.chunkRatio slot → ∃ block, slotOf vhdx.chunkRatio block = slot) ∧
    (∀ c (hc : c < table.chunks.length),
      vhdx.bat[(vhdx.chunkRatio + 1) * c + vhdx.chunkRatio]? = some table.chunks[c].marker) ∧
    ∀ offset len, offset + len ≤ vhdx.virtualSize →
      ((∃ e, vhdx.readAt offset len = .error e) ↔
        TouchesPartial vhdx table.entries offset len) ∧
      (∀ e, vhdx.readAt offset len = .error e → ∃ io, e = .io io) ∧
      ∀ bytes, vhdx.readAt offset len = .ok bytes → bytes.length = len ∧
        ∀ i < len, bytes[i]? = payloadByte vhdx table.entries (offset + i) := by
  refine ⟨slotOf_strictMono _, slotOf_not_marker vhdx.chunkRatio_pos, fun _ => exists_slotOf,
    fun c hc => by rw [h.bat_eq]; exact table.slots_marker hc, fun offset len hrange => ?_⟩
  have hsafe := (vhdx_reads_safe_iff hopen).2 (h.addressesFit hopen hfile) offset len
  refine ⟨⟨fun ⟨e, herror⟩ => ?_, fails_of_partial hopen hfile h⟩, fun e herror => ?_,
    fun bytes hread => ?_⟩
  · by_contra htouches
    obtain ⟨bytes, hread⟩ := succeeds_of_not_partial hopen hfile h hrange htouches
    rw [herror] at hread
    cases hread
  · rw [herror] at hsafe
    exact hsafe
  · rw [hread] at hsafe
    obtain ⟨hlen, hall⟩ := hsafe
    refine ⟨hlen, fun i hi => ?_⟩
    have hbyte := hall i hi
    rw [h.payloadByte_eq (by omega)]
    rw [(open_file hopen).1]
    cases horigin : vhdx.origin (offset + i) with
    | none =>
      rw [horigin] at hbyte
      exact hbyte
    | some place =>
      rw [horigin] at hbyte
      exact hbyte.2.2

/-- Three blocks of 8 MiB in chunks of one: not present, partially present, and present. -/
def threeBlocks : ImageParts where
  blockSize := 2 ^ 23
  sectorSize := 1
  virtualSize := 3 * 2 ^ 23
  entries := [0, 0, 7, 0, 0x300006]
  data := List.replicate (2 ^ 23) 0xAB
  blockSize_pow := ⟨23, by decide, rfl⟩
  sectorSize_pow := ⟨0, by decide, rfl⟩
  ratio_pos := by decide
  virtualSize_lt := by decide
  entries_lt := by decide
  entries_le := by decide

/-- The third block is behind two sector bitmaps; the second one cannot be read. -/
theorem third_block_read : ∃ vhdx, Vhdx.open (dynamicVhdx threeBlocks) = .ok vhdx ∧
    vhdx.readAt (2 ^ 24) 1 = .ok [0xAB] ∧ ∃ e, vhdx.readAt (2 ^ 23) 1 = .error e := by
  obtain ⟨vhdx, hopen, hfile, hsize, hblock, hratio, hbat⟩ := open_dynamicVhdx threeBlocks
  have hone : vhdx.chunkRatio = 1 := by
    rw [hratio]
    decide
  have hlength : (dynamicVhdx threeBlocks).length = FIRST_BLOCK_OFF + 2 ^ 23 := by
    rw [length_dynamicVhdx]
    exact congrArg (FIRST_BLOCK_OFF + ·) List.length_replicate
  obtain ⟨table, hchunks, hrest⟩ : ∃ table : Table ℕ vhdx.chunkRatio,
      table.slots = [0, 0, 7, 0, 0x300006] ∧ table.entries = [0, 7, 0x300006] :=
    ⟨⟨[⟨[0], 0, hone.symm⟩, ⟨[7], 0, hone.symm⟩], [0x300006], Nat.le_of_eq hone.symm⟩, rfl, rfl⟩
  have hformat : FollowsFormat vhdx table := by
    refine ⟨hbat.trans hchunks.symm, ?_, ?_⟩
    · rw [hrest, hsize, hblock]
      decide
    · rw [hrest, hblock, hfile, hlength]
      decide
  obtain ⟨-, -, -, -, hreads⟩ := interleaved_blocks_read hopen (by rw [hlength]; decide) table hformat
  rw [hsize] at hreads
  obtain ⟨hfails, -, hbytes⟩ := hreads (2 ^ 24) 1 (by decide)
  obtain ⟨hfails', -, -⟩ := hreads (2 ^ 23) 1 (by decide)
  refine ⟨vhdx, hopen, ?_, hfails'.2 ⟨0, Nat.one_pos, 7, ?_, rfl⟩⟩
  · cases hread : vhdx.readAt (2 ^ 24) 1 with
    | error e =>
      obtain ⟨i, hi, entry, he, hstate⟩ := hfails.1 ⟨e, hread⟩
      obtain rfl : i = 0 := by omega
      rw [hrest, hblock] at he
      cases he
      exact absurd hstate (by decide)
    | ok bytes =>
      obtain ⟨hlen, hbyte⟩ := hbytes bytes hread
      have hfirst := hbyte 0 Nat.one_pos
      have hdata : (dynamicVhdx threeBlocks)[FIRST_BLOCK_OFF + 0]? = some 0xAB :=
        (getElem?_dynamicVhdx threeBlocks 0).trans (List.getElem?_replicate_of_lt (by decide))
      have hplace : payloadByte vhdx table.entries (2 ^ 24 + 0) = vhdx.file[FIRST_BLOCK_OFF + 0]? := by
        rw [payloadByte, hrest, hblock]
        rfl
      rw [hplace, hfile, hdata] at hfirst
      obtain ⟨byte, rfl⟩ := List.length_eq_one_iff.1 hlen
      cases hfirst
      rfl
  · rw [hrest, hblock]
    decide

end XBoot.VhdxFile
