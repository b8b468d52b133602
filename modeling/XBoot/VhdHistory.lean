import XBoot.VhdChain

/-!
# Chains as histories of a disk

Each increment captures whole blocks of the disk as it was when the layer was made. The
disk after the last increment is what its newest captured blocks hold, whatever their
bitmaps say, so a chain shows that disk exactly when no older set bit hides a captured
block with other data.
-/

namespace XBoot.Vhd

open ListSlices Storage NewestLayer

/-- `layer` captures the disk `after`, made from the disk `before`: an allocated block holds
the data of `after` whether or not its bits are set, and any other block is unchanged. -/
structure Captures (layer : DynamicVhd) (before after : List UInt8) : Prop where
  length_eq : after.length = layer.virtualSize
  allocated {p off : ℕ} : p < after.length → layer.place (p / SECTOR) = some off →
    layer.file[off + p % SECTOR]? = after[p]?
  unchanged {p : ℕ} : layer.place (p / SECTOR) = none → after[p]? = before[p]?

/-- Where some layer has a sector's bit set, the newest such layer is the newest that has the
sector's block, or holds the same bytes for it. -/
def Unshadowed (ignoreBitmap : Bool) (size : ℕ) (layers : List DynamicVhd) : Prop :=
  ∀ p < size, ∀ layer layer' off off',
    newest (fun l => (l.place (p / SECTOR)).isSome && (ignoreBitmap || l.bitSet (p / SECTOR)))
      layers = some layer →
    newest (fun l => (l.place (p / SECTOR)).isSome) layers = some layer' →
    layer.place (p / SECTOR) = some off → layer'.place (p / SECTOR) = some off' →
    layer.file[off + p % SECTOR]? = layer'.file[off' + p % SECTOR]?

section History

variable {base : BackingStore} {disks : ℕ → List UInt8} {layers : List DynamicVhd}
  (hcap : ∀ k (h : k < layers.length), Captures layers[k] (disks k) (disks (k + 1)))
include hcap

private theorem unchanged_since {p j k : ℕ} (hjk : j ≤ k) (hk : k ≤ layers.length)
    (h : ∀ i layer, j ≤ i → layers[i]? = some layer → layer.place (p / SECTOR) = none) :
    (disks k)[p]? = (disks j)[p]? := by
  induction k, hjk using Nat.le_induction with
  | base => rfl
  | succ k hjk ih =>
    have hplace := h k layers[k] hjk (List.getElem?_eq_getElem (by omega))
    rw [(hcap k (by omega)).unchanged hplace]
    exact ih (by omega)

/-- The last disk holds what the newest captured block holds. -/
theorem last_disk_captured {p off : ℕ} {layer : DynamicVhd}
    (hp : p < (disks layers.length).length)
    (h : newest (fun l => (l.place (p / SECTOR)).isSome) layers = some layer)
    (hoff : layer.place (p / SECTOR) = some off) :
    (disks layers.length)[p]? = layer.file[off + p % SECTOR]? := by
  obtain ⟨-, older, newer, heq, hnone⟩ := newest_eq_some.1 h
  have hk : older.length < layers.length := by rw [heq]; simp
  have hlayer : layers[older.length] = layer := by simp [heq]
  have hlater : ∀ i later, older.length + 1 ≤ i → layers[i]? = some later →
      later.place (p / SECTOR) = none := by
    intro i later hi hget
    obtain ⟨j, rfl⟩ := Nat.exists_eq_add_of_le hi
    rw [heq, List.getElem?_append_right (by omega),
      show older.length + 1 + j - older.length = j + 1 by omega, List.getElem?_cons_succ] at hget
    simpa using hnone later (List.mem_of_getElem? hget)
  have hsame : (disks layers.length)[p]? = (disks (older.length + 1))[p]? :=
    unchanged_since hcap hk (Nat.le_refl _) hlater
  have hcapture := hcap older.length hk
  rw [hlayer] at hcapture
  have hlt : p < (disks (older.length + 1)).length := by
    by_contra hge
    rw [List.getElem?_eq_getElem hp, List.getElem?_eq_none (by omega)] at hsame
    cases hsame
  rw [hsame, hcapture.allocated hlt hoff]

theorem last_disk_base {p : ℕ} (h : newest (fun l => (l.place (p / SECTOR)).isSome) layers = none) :
    (disks layers.length)[p]? = (disks 0)[p]? := by
  refine unchanged_since hcap (Nat.zero_le _) (Nat.le_refl _) fun i layer _ hget => ?_
  simpa using newest_eq_none.1 h layer (List.mem_of_getElem? hget)

variable (hbase : base.Serves (disks 0))
  (hsize : ∀ layer ∈ layers, layer.virtualSize = base.sizeBytes)
include hbase hsize

theorem length_disks {k : ℕ} (hk : k ≤ layers.length) : (disks k).length = base.sizeBytes := by
  cases k with
  | zero => exact hbase.length_eq
  | succ k => rw [(hcap k hk).length_eq, hsize _ (List.getElem_mem _)]

theorem readable_of_captures : Readable base layers where
  base_reads hin := ⟨_, hbase.readAt_eq hin⟩
  layer_reads {layer p off} hl hp hoff := by
    obtain ⟨k, hk, rfl⟩ := List.mem_iff_getElem.1 hl
    have hlen := length_disks hcap hbase hsize (k := k + 1) hk
    have hbyte := (hcap k hk).allocated (by omega) hoff
    by_contra hge
    rw [List.getElem?_eq_none (by omega), List.getElem?_eq_getElem (by omega)] at hbyte
    cases hbyte

private theorem takenFrom_last_disk {ignoreBitmap : Bool}
    (hun : Unshadowed ignoreBitmap base.sizeBytes layers) {p : ℕ} {byte : Option UInt8}
    (hp : p < base.sizeBytes)
    (h : TakenFrom base p byte (servingLayer ignoreBitmap layers (p / SECTOR))) :
    byte = (disks layers.length)[p]? := by
  have hlast : p < (disks layers.length).length := by
    rw [length_disks hcap hbase hsize (Nat.le_refl _)]
    exact hp
  cases hblock : newest (fun l => (l.place (p / SECTOR)).isSome) layers with
  | none =>
    have hserve : servingLayer ignoreBitmap layers (p / SECTOR) = none := by
      rw [servingLayer, hblock, Option.or_none, newest_eq_none]
      intro layer hl
      rw [newest_eq_none.1 hblock layer hl, Bool.false_and]
    rw [hserve] at h
    obtain ⟨q, n, bytes, hin, hread, hq, hlt, rfl⟩ := h
    rw [hbase.readAt_eq hin] at hread
    cases hread
    rw [last_disk_base hcap hblock, getElem?_slice, if_pos (by omega), Nat.add_sub_cancel' hq]
  | some layer' =>
    obtain ⟨off', hoff'⟩ := Option.isSome_iff_exists.1 (newest_eq_some.1 hblock).1
    rw [last_disk_captured hcap hlast hblock hoff']
    cases hset : newest (fun l => (l.place (p / SECTOR)).isSome &&
        (ignoreBitmap || l.bitSet (p / SECTOR))) layers with
    | none =>
      rw [servingLayer, hset, Option.none_or, hblock] at h
      obtain ⟨off, hoff, rfl⟩ := h
      rw [hoff'] at hoff
      cases hoff
      rfl
    | some layer =>
      rw [servingLayer, hset, Option.some_or] at h
      obtain ⟨off, hoff, rfl⟩ := h
      exact hun p hp layer layer' off off' hset hblock hoff hoff'

variable (hcover : ∀ layer ∈ layers, layer.CoversDisk)
include hcover

theorem chain_shows_last_disk {ignoreBitmap : Bool}
    (hun : Unshadowed ignoreBitmap base.sizeBytes layers) {offset len : ℕ}
    (hin : offset + len ≤ base.sizeBytes) :
    ChainedVhd.readAt ignoreBitmap { overlays := layers.reverse, base } offset len =
      .ok (slice (disks layers.length) offset len) := by
  obtain ⟨bytes, hread⟩ := readAt_succeeds hsize hcover
    (readable_of_captures hcap hbase hsize) hin
  obtain ⟨hlen, hall⟩ := readAt_takenFrom hsize hcover hin hread
  rw [hread]
  congr 1
  apply List.ext_getElem?
  intro i
  rw [getElem?_slice]
  split
  · exact takenFrom_last_disk hcap hbase hsize hun (by omega) (hall i (by omega))
  · rw [List.getElem?_eq_none (by omega)]

theorem unshadowed_of_shows {ignoreBitmap : Bool}
    (hshows : ∀ offset len, offset + len ≤ base.sizeBytes →
      ChainedVhd.readAt ignoreBitmap { overlays := layers.reverse, base } offset len =
        .ok (slice (disks layers.length) offset len)) :
    Unshadowed ignoreBitmap base.sizeBytes layers := by
  intro p hp layer layer' off off' hset hblock hoff hoff'
  have hlast : p < (disks layers.length).length := by
    rw [length_disks hcap hbase hsize (Nat.le_refl _)]
    exact hp
  obtain ⟨-, hall⟩ := readAt_takenFrom hsize hcover (by omega) (hshows p 1 (by omega))
  have hbyte := hall 0 (by decide)
  rw [Nat.add_zero, servingLayer, hset, Option.some_or, getElem?_slice, if_pos (by decide),
    Nat.add_zero] at hbyte
  obtain ⟨off₂, hoff₂, hbyte⟩ := hbyte
  rw [hoff] at hoff₂
  cases hoff₂
  rw [← hbyte, last_disk_captured hcap hlast hblock hoff']

end History

/-- A chain whose layers capture the successive states of a disk reads as the last state
exactly when no older set bit shadows a captured block that holds other bytes. -/
theorem chain_reads_last_disk_iff (ignoreBitmap : Bool) (base : BackingStore)
    (disks : ℕ → List UInt8) (increments : List IncrementFile) (layers : List DynamicVhd)
    (hopen : increments.map (fun file => DynamicVhd.open file.bytes) = layers.map .ok)
    (hsize : ∀ layer ∈ layers, layer.virtualSize = base.sizeBytes)
    (hcover : ∀ layer ∈ layers, layer.CoversDisk) (hbase : base.Serves (disks 0))
    (hcap : ∀ k (h : k < layers.length), Captures layers[k] (disks k) (disks (k + 1))) :
    ∃ chain, ChainedVhd.open base increments = .ok chain ∧
      ((∀ offset len, offset + len ≤ base.sizeBytes → chain.readAt ignoreBitmap offset len =
          .ok (slice (disks layers.length) offset len)) ↔
        Unshadowed ignoreBitmap base.sizeBytes layers) :=
  ⟨_, ChainedVhd.open_ok hopen hsize, unshadowed_of_shows hcap hbase hsize hcover,
    fun hun _ _ hin => chain_shows_last_disk hcap hbase hsize hcover hun hin⟩

def filledDisk (k : ℕ) : List UInt8 := List.replicate 512 (UInt8.ofNat k)

theorem OneBlock.captures {k : ℕ} {layer : DynamicVhd} (h : OneBlock (UInt8.ofNat (k + 1)) layer) :
    Captures layer (filledDisk k) (filledDisk (k + 1)) := by
  have hplace : ∀ sector, layer.place sector = if sector = 0 then some 2048 else none := by
    intro sector
    rw [DynamicVhd.place, DynamicVhd.sectorsPerBlock, h.bat_eq, h.blockSize_eq]
    cases sector with
    | zero => simp [DynamicVhd.dataOffset, h.blockSize_eq, bitmapSizeOf, SECTOR, HOLE,
        DynamicVhd.sectorsPerBlock]
    | succ sector => simp [SECTOR]
  refine ⟨by rw [filledDisk, List.length_replicate, h.virtualSize_eq], ?_, ?_⟩
  · intro p off hp hoff
    rw [filledDisk, List.length_replicate] at hp
    rw [hplace, show p / SECTOR = 0 from Nat.div_eq_of_lt hp, if_pos rfl] at hoff
    cases hoff
    rw [filledDisk, ← h.data_eq, getElem?_slice, if_pos hp, Nat.mod_eq_of_lt (by rw [SECTOR]; exact hp)]
  · intro p hnone
    have hp : 512 ≤ p := by
      by_contra hlt
      rw [hplace, show p / SECTOR = 0 from Nat.div_eq_of_lt (by rw [SECTOR]; omega), if_pos rfl] at hnone
      cases hnone
    rw [List.getElem?_eq_none (by rw [filledDisk, List.length_replicate]; exact hp),
      List.getElem?_eq_none (by rw [filledDisk, List.length_replicate]; exact hp)]

/-- A chain of one increment over a blank disk. -/
theorem chain_reads_last_disk_iff_one_block :
    ∃ layer chain, DynamicVhd.open (oneBlockIncrement 0x80 1).bytes = .ok layer ∧
      ChainedVhd.open (blankDisk 512 (by decide)) [oneBlockIncrement 0x80 1] = .ok chain ∧
      ((∀ offset len, offset + len ≤ 512 →
          chain.readAt false offset len = .ok (slice (filledDisk 1) offset len)) ↔
        Unshadowed false 512 [layer]) := by
  obtain ⟨layer, hlayer, hone⟩ := oneBlockIncrement_opens
  have hserves := blankDisk_serves 512 (by decide)
  have hdisk : (blankDisk 512 (by decide)).sizeBytes = 512 := List.length_replicate
  obtain ⟨chain, hchain, hiff⟩ := chain_reads_last_disk_iff false (blankDisk 512 (by decide))
    filledDisk [oneBlockIncrement 0x80 1] [layer]
    (by rw [List.map_singleton, List.map_singleton, hlayer])
    (by simpa [hdisk] using hone.virtualSize_eq) (by simpa using hone.coversDisk) hserves
    (by
      intro k hk
      obtain rfl : k = 0 := by simpa using hk
      exact OneBlock.captures hone)
  rw [hdisk] at hiff
  exact ⟨layer, chain, hlayer, hchain, hiff⟩

/-- A read of a freshly opened chain, if it returns these bytes. -/
private def opensAndReads (bytes : List UInt8) : Outcome ChainedVhd → Bool
  | .ok chain => match chain.readAt false 0 512 with
    | .ok bs => bs == bytes
    | .error _ => false
  | .error _ => false

private theorem of_opensAndReads {bytes : List UInt8} {r : Outcome ChainedVhd}
    (h : opensAndReads bytes r = true) :
    ∃ chain, r = .ok chain ∧ chain.readAt false 0 512 = .ok bytes := by
  cases r with
  | error e => cases h
  | ok chain =>
    rw [opensAndReads] at h
    split at h
    · rename_i bs hbs
      exact ⟨chain, rfl, by rw [hbs, beq_iff_eq.1 h]⟩
    · cases h

/-- The second increment captures the block again with its bit clear; the chain still reads
the first one's data. -/
theorem older_bit_hides_newer_block :
    ∃ (layers : List DynamicVhd) (chain : ChainedVhd),
      [oneBlockIncrement 0x80 1, oneBlockIncrement 0 2].map
        (fun file => DynamicVhd.open file.bytes) = layers.map .ok ∧
      (∀ k (h : k < layers.length), Captures layers[k] (filledDisk k) (filledDisk (k + 1))) ∧
      (blankDisk 512 (by decide)).Serves (filledDisk 0) ∧
      ChainedVhd.open (blankDisk 512 (by decide))
        [oneBlockIncrement 0x80 1, oneBlockIncrement 0 2] = .ok chain ∧
      layers.length = 2 ∧ chain.readAt false 0 512 = .ok (filledDisk 1) ∧
      filledDisk 1 ≠ slice (filledDisk 2) 0 512 := by
  obtain ⟨layer₁, hlayer₁, hone₁⟩ := oneBlockIncrement_opens
  obtain ⟨layer₂, hlayer₂, hone₂⟩ : ∃ layer, DynamicVhd.open (oneBlockIncrement 0 2).bytes =
      .ok layer ∧ OneBlock 2 layer := oneBlock_of_opens (by decide +kernel)
  have hreads : opensAndReads (filledDisk 1) (ChainedVhd.open (blankDisk 512 (by decide))
      [oneBlockIncrement 0x80 1, oneBlockIncrement 0 2]) = true := by
    decide +kernel
  obtain ⟨chain, hchain, hread⟩ := of_opensAndReads hreads
  have hserves := blankDisk_serves 512 (by decide)
  have hopen : [oneBlockIncrement 0x80 1, oneBlockIncrement 0 2].map
      (fun file => DynamicVhd.open file.bytes) = [layer₁, layer₂].map .ok := by
    rw [List.map_cons, List.map_singleton, hlayer₁, hlayer₂]
    rfl
  refine ⟨[layer₁, layer₂], chain, hopen, ?_, hserves, hchain, rfl, hread, by decide +kernel⟩
  intro k hk
  match k, hk with
  | 0, _ => exact OneBlock.captures hone₁
  | 1, _ => exact OneBlock.captures hone₂

end XBoot.Vhd
