import XBoot.DynamicVhd
import XBoot.NewestLayer

/-!
# Chains of VHD increments

A base store and the increments over it, which are dynamic VHDs. Each sector is taken
from the newest layer that has its bitmap bit set, or else the newest layer that has its
block, or else the base.
-/

namespace XBoot.Vhd

open ListSlices UnitWalk BigEndian Storage NewestLayer

/-- An increment file: its path, for messages, and its bytes. -/
structure IncrementFile where
  path : String
  bytes : List UInt8

/-- A base overlaid by increment layers, newest first. -/
structure ChainedVhd where
  overlays : List DynamicVhd
  base : BackingStore

/-- Open the layers in the order given; each must have the size of the base. -/
def openLayers (virtualSize : ℕ) : List IncrementFile → Outcome (List DynamicVhd)
  | [] => .ok []
  | file :: rest => match DynamicVhd.open file.bytes with
    | .error e => .error e
    | .ok layer =>
      if layer.virtualSize ≠ virtualSize then
        .error (invalidData
          s!"increment {file.path} virtual size {layer.virtualSize} != base {virtualSize}")
      else match openLayers virtualSize rest with
        | .error e => .error e
        | .ok layers => .ok (layer :: layers)

/-- `ChainedVhd::open` of a base and increments ordered oldest to newest. -/
def ChainedVhd.open (base : BackingStore) (increments : List IncrementFile) : Outcome ChainedVhd :=
  match openLayers base.sizeBytes increments.reverse with
  | .error e => .error e
  | .ok overlays => .ok { overlays, base }

namespace ChainedVhd

/-- The first layer for which `locate` has an offset. -/
def firstServing (locate : DynamicVhd → Outcome (Option ℕ)) :
    List DynamicVhd → Outcome (Option (DynamicVhd × ℕ))
  | [] => .ok none
  | layer :: rest => match locate layer with
    | .error e => .error e
    | .ok (some off) => .ok (some (layer, off))
    | .ok none => firstServing locate rest

/-- Read from a layer at `within` bytes past an offset of it. -/
def readFrom (layer : DynamicVhd) (off within take : ℕ) : Outcome (List UInt8) :=
  if 2 ^ 64 ≤ off + within then .error .panic else layer.readPhys (off + within) take

/-- One round of the loop of `read_at`: `take` bytes inside the sector of `pos`. -/
def readSector (ignoreBitmap : Bool) (chain : ChainedVhd) (pos take : ℕ) : Outcome (List UInt8) :=
  match firstServing (fun layer => layer.sectorOffset ignoreBitmap (pos / SECTOR)) chain.overlays with
  | .error e => .error e
  | .ok (some (layer, off)) => readFrom layer off (pos % SECTOR) take
  | .ok none =>
    match firstServing (fun layer => layer.blockSectorOffset (pos / SECTOR)) chain.overlays with
    | .error e => .error e
    | .ok (some (layer, off)) => readFrom layer off (pos % SECTOR) take
    | .ok none => chain.base.readAt pos take

def readAt (ignoreBitmap : Bool) (chain : ChainedVhd) (offset len : ℕ) : Outcome (List UInt8) :=
  match checkReadRange chain.base.sizeBytes offset len with
  | .error e => .error e
  | .ok _ => walk SECTOR .hang (chain.readSector ignoreBitmap) len len offset []

end ChainedVhd

/-- The layer that serves a sector, of `layers` listed oldest first: the newest one whose
block is allocated and whose bit is set (every bit counts as set when bitmaps are ignored),
else the newest one whose block is allocated, else none. -/
def servingLayer (ignoreBitmap : Bool) (layers : List DynamicVhd) (sector : ℕ) : Option DynamicVhd :=
  (newest (fun layer => (layer.place sector).isSome && (ignoreBitmap || layer.bitSet sector))
      layers).or
    (newest (fun layer => (layer.place sector).isSome) layers)

variable {ignoreBitmap : Bool} {base : BackingStore} {layers : List DynamicVhd} {sector : ℕ}

theorem ChainedVhd.firstServing_eq {locate : DynamicVhd → Outcome (Option ℕ)}
    {offer : DynamicVhd → Option ℕ} (h : ∀ layer ∈ layers, locate layer = .ok (offer layer)) :
    firstServing locate layers = .ok (layers.findSome? fun layer => (offer layer).map (layer, ·)) := by
  induction layers with
  | nil => rfl
  | cons layer rest ih =>
    have hrest := ih fun l hl => h l (List.mem_cons_of_mem _ hl)
    rw [firstServing, h layer List.mem_cons_self, List.findSome?_cons]
    cases offer layer with
    | none => exact hrest
    | some off => rfl

theorem place_of_servingLayer {layer : DynamicVhd}
    (h : servingLayer ignoreBitmap layers sector = some layer) :
    layer ∈ layers ∧ ∃ off, layer.place sector = some off := by
  have hmem : ∀ P : DynamicVhd → Bool, newest P layers = some layer → layer ∈ layers := by
    intro P hP
    obtain ⟨-, older, newer, rfl, -⟩ := newest_eq_some.1 hP
    simp
  rw [servingLayer, Option.or_eq_some_iff] at h
  rcases h with hset | ⟨-, halloc⟩
  · have hP := (newest_eq_some.1 hset).1
    rw [Bool.and_eq_true] at hP
    exact ⟨hmem _ hset, Option.isSome_iff_exists.1 hP.1⟩
  · exact ⟨hmem _ halloc, Option.isSome_iff_exists.1 (newest_eq_some.1 halloc).1⟩

section ReadSector

variable (hcover : ∀ layer ∈ layers, sector / layer.sectorsPerBlock < layer.bat.length)
include hcover

private theorem firstServing_set :
    ChainedVhd.firstServing (fun layer => layer.sectorOffset ignoreBitmap sector) layers.reverse =
      .ok ((newest (fun layer => (layer.place sector).isSome &&
          (ignoreBitmap || layer.bitSet sector)) layers).bind
        fun layer => (layer.place sector).map (layer, ·)) := by
  have hoffer : ∀ layer ∈ layers.reverse, layer.sectorOffset ignoreBitmap sector = .ok _ :=
    fun layer hl => DynamicVhd.sectorOffset_eq ignoreBitmap (hcover layer (List.mem_reverse.1 hl))
  have hsome : (fun layer : DynamicVhd =>
      (if ignoreBitmap || layer.bitSet sector then layer.place sector else none).isSome) =
      fun layer => (layer.place sector).isSome && (ignoreBitmap || layer.bitSet sector) := by
    funext layer
    cases ignoreBitmap || layer.bitSet sector <;> simp
  rw [ChainedVhd.firstServing_eq hoffer, findSome?_reverse, hsome]
  cases hnew : newest (fun layer : DynamicVhd => (layer.place sector).isSome &&
      (ignoreBitmap || layer.bitSet sector)) layers with
  | none => rfl
  | some layer =>
    have hP := (newest_eq_some.1 hnew).1
    rw [Bool.and_eq_true] at hP
    simp only [Option.bind_some, if_pos hP.2]

private theorem firstServing_block :
    ChainedVhd.firstServing (fun layer => layer.blockSectorOffset sector) layers.reverse =
      .ok ((newest (fun layer => (layer.place sector).isSome) layers).bind
        fun layer => (layer.place sector).map (layer, ·)) := by
  have hoffer : ∀ layer ∈ layers.reverse, layer.blockSectorOffset sector = .ok _ :=
    fun layer hl => DynamicVhd.blockSectorOffset_eq (hcover layer (List.mem_reverse.1 hl))
  rw [ChainedVhd.firstServing_eq hoffer, findSome?_reverse]

/-- A sector with a serving layer is read at its place in that layer. -/
theorem readSector_layer {layer : DynamicVhd} {off pos take : ℕ} (hpos : pos / SECTOR = sector)
    (h : servingLayer ignoreBitmap layers sector = some layer)
    (hoff : layer.place sector = some off) :
    ChainedVhd.readSector ignoreBitmap { overlays := layers.reverse, base } pos take =
      layer.readPhys (off + pos % SECTOR) take := by
  have hread : ChainedVhd.readFrom layer off (pos % SECTOR) take =
      layer.readPhys (off + pos % SECTOR) take := by
    have hmod := Nat.mod_lt pos (show 0 < SECTOR by decide)
    have hlt := DynamicVhd.place_lt hoff
    rw [ChainedVhd.readFrom, if_neg (by omega)]
  rw [ChainedVhd.readSector, hpos]
  dsimp only
  rw [firstServing_set hcover, firstServing_block hcover]
  rw [servingLayer, Option.or_eq_some_iff] at h
  rcases h with hset | ⟨hnone, halloc⟩
  · simp only [hset, hoff, Option.bind_some, Option.map_some, hread]
  · simp only [hnone, halloc, hoff, Option.bind_none, Option.bind_some, Option.map_some, hread]

theorem readSector_base {pos take : ℕ} (hpos : pos / SECTOR = sector)
    (h : servingLayer ignoreBitmap layers sector = none) :
    ChainedVhd.readSector ignoreBitmap { overlays := layers.reverse, base } pos take =
      base.readAt pos take := by
  rw [servingLayer, Option.or_eq_none_iff] at h
  rw [ChainedVhd.readSector, hpos]
  dsimp only
  rw [firstServing_set hcover, firstServing_block hcover]
  simp only [h.1, h.2, Option.bind_none]

end ReadSector

theorem openLayers_ok {virtualSize : ℕ} {files : List IncrementFile}
    (hopen : files.map (fun file => DynamicVhd.open file.bytes) = layers.map .ok)
    (hsize : ∀ layer ∈ layers, layer.virtualSize = virtualSize) :
    openLayers virtualSize files = .ok layers := by
  induction files generalizing layers with
  | nil =>
    cases layers with
    | nil => rfl
    | cons layer rest => cases hopen
  | cons file files ih =>
    cases layers with
    | nil => cases hopen
    | cons layer rest =>
      rw [List.map_cons, List.map_cons, List.cons.injEq] at hopen
      have hrest := ih hopen.2 fun l hl => hsize l (List.mem_cons_of_mem _ hl)
      have hlayer := hsize layer List.mem_cons_self
      rw [openLayers, hopen.1]
      dsimp only
      rw [if_neg (by simpa using hlayer), hrest]

/-- Increments that open as `layers`, oldest first, make a chain that probes the newest first. -/
theorem ChainedVhd.open_ok {increments : List IncrementFile}
    (hopen : increments.map (fun file => DynamicVhd.open file.bytes) = layers.map .ok)
    (hsize : ∀ layer ∈ layers, layer.virtualSize = base.sizeBytes) :
    ChainedVhd.open base increments = .ok { overlays := layers.reverse, base } := by
  have hrev : increments.reverse.map (fun file => DynamicVhd.open file.bytes) =
      layers.reverse.map .ok := by
    rw [List.map_reverse, List.map_reverse, hopen]
  rw [ChainedVhd.open, openLayers_ok hrev fun l hl => hsize l (List.mem_reverse.1 hl)]

/-- The byte at position `p` comes from `layer`, or from the base where there is none. -/
def TakenFrom (base : BackingStore) (p : ℕ) (byte : Option UInt8) : Option DynamicVhd → Prop
  | some layer => ∃ off, layer.place (p / SECTOR) = some off ∧ byte = layer.file[off + p % SECTOR]?
  | none => ∃ q n bytes, q + n ≤ base.sizeBytes ∧ base.readAt q n = .ok bytes ∧ q ≤ p ∧ p < q + n ∧
      byte = bytes[p - q]?

/-- The base can be read and the layers' files hold every byte they have a place for. -/
structure Readable (base : BackingStore) (layers : List DynamicVhd) : Prop where
  base_reads {q n : ℕ} : q + n ≤ base.sizeBytes → ∃ bytes, base.readAt q n = .ok bytes
  layer_reads {layer : DynamicVhd} {p off : ℕ} : layer ∈ layers → p < base.sizeBytes →
    layer.place (p / SECTOR) = some off → off + p % SECTOR < layer.file.length

theorem length_readSector {chain : ChainedVhd} {pos take : ℕ} {bytes : List UInt8}
    (h : chain.readSector ignoreBitmap pos take = .ok bytes) : bytes.length = take := by
  have hfrom : ∀ (layer : DynamicVhd) (off within : ℕ),
      ChainedVhd.readFrom layer off within take = .ok bytes → bytes.length = take := by
    intro layer off within hr
    rw [ChainedVhd.readFrom] at hr
    split at hr
    · cases hr
    · exact (readExactAt_ok hr).2
  rw [ChainedVhd.readSector] at h
  split at h
  · cases h
  · exact hfrom _ _ _ h
  · split at h
    · cases h
    · exact hfrom _ _ _ h
    · exact chain.base.length_readAt h

/-- Each byte of a sector's piece is taken from the serving layer, or from the base. -/
theorem readSector_takenFrom
    (hcover : ∀ layer ∈ layers, sector / layer.sectorsPerBlock < layer.bat.length)
    {pos take : ℕ} {bytes : List UInt8} (hpos : pos / SECTOR = sector)
    (hin : pos + take ≤ base.sizeBytes)
    (h : ChainedVhd.readSector ignoreBitmap { overlays := layers.reverse, base } pos take = .ok bytes)
    {p : ℕ} (hp : pos ≤ p) (hlt : p < pos + take) (hsector : p / SECTOR = sector) :
    TakenFrom base p bytes[p - pos]? (servingLayer ignoreBitmap layers sector) := by
  cases hserve : servingLayer ignoreBitmap layers sector with
  | none =>
    rw [readSector_base hcover hpos hserve] at h
    exact ⟨pos, take, bytes, hin, h, hp, hlt, rfl⟩
  | some layer =>
    obtain ⟨-, off, hoff⟩ := place_of_servingLayer hserve
    rw [readSector_layer hcover hpos hserve hoff] at h
    have hbytes := (readExactAt_ok h).1
    have hdiv := Nat.div_add_mod' pos SECTOR
    have hdiv' := Nat.div_add_mod' p SECTOR
    rw [hpos] at hdiv
    rw [hsector] at hdiv'
    refine ⟨off, by rw [hsector]; exact hoff, ?_⟩
    rw [hbytes, getElem?_slice, if_pos (by omega)]
    congr 1
    omega

section Reads

variable (hsize : ∀ layer ∈ layers, layer.virtualSize = base.sizeBytes)
  (hcover : ∀ layer ∈ layers, layer.CoversDisk)
include hsize hcover

private theorem bat_covers {p : ℕ} (hp : p < base.sizeBytes) :
    ∀ layer ∈ layers, p / SECTOR / layer.sectorsPerBlock < layer.bat.length := by
  intro layer hl
  have hdiv := Nat.div_mul_le_self p SECTOR
  exact hcover layer hl _ (by rw [hsize layer hl]; omega)

/-- What a successful read returns. -/
theorem readAt_takenFrom {offset len : ℕ} {bytes : List UInt8}
    (hin : offset + len ≤ base.sizeBytes)
    (hread : ChainedVhd.readAt ignoreBitmap { overlays := layers.reverse, base } offset len =
      .ok bytes) :
    bytes.length = len ∧ ∀ i < len, TakenFrom base (offset + i) bytes[i]?
      (servingLayer ignoreBitmap layers ((offset + i) / SECTOR)) := by
  simp only [ChainedVhd.readAt, checkReadRange_ok base.sizeBytes_lt hin] at hread
  obtain ⟨hlen, hall⟩ := getElem?_of_walk (by decide) (fun _ _ _ => length_readSector) hread
  refine ⟨hlen, fun i hi => ?_⟩
  obtain ⟨p, n, piece, hpiece, hok, hle, hlt, hbyte⟩ := hall i hi
  have hsector := hpiece.div_eq hle hlt
  have hstop := hpiece.le_stop
  rw [hbyte, hsector]
  exact readSector_takenFrom (bat_covers hsize hcover (by omega)) rfl (by omega) hok hle hlt hsector

/-- An in-range read of a readable chain succeeds. -/
theorem readAt_succeeds (hreadable : Readable base layers) {offset len : ℕ}
    (hin : offset + len ≤ base.sizeBytes) :
    ∃ bytes, ChainedVhd.readAt ignoreBitmap { overlays := layers.reverse, base } offset len =
      .ok bytes := by
  simp only [ChainedVhd.readAt, checkReadRange_ok base.sizeBytes_lt hin]
  refine walk_succeeds (by decide) (fun _ _ _ => length_readSector) len offset [] (by simp) ?_
  intro p n hpiece
  have hstop := hpiece.le_stop
  have hinside := hpiece.inside
  have hpos := hpiece.nonempty
  rw [List.length_nil] at hstop
  have hdisk := bat_covers hsize hcover (by omega : p < base.sizeBytes)
  cases hserve : servingLayer ignoreBitmap layers (p / SECTOR) with
  | none =>
    obtain ⟨bytes, hbytes⟩ := hreadable.base_reads (by omega : p + n ≤ base.sizeBytes)
    exact ⟨bytes, by rw [readSector_base hdisk rfl hserve, hbytes]⟩
  | some layer =>
    obtain ⟨hl, off, hoff⟩ := place_of_servingLayer hserve
    have hlast : (p + n - 1) / SECTOR = p / SECTOR := hpiece.div_eq (by omega) (by omega)
    have hfile := hreadable.layer_reads hl (by omega : p + n - 1 < base.sizeBytes)
      (by rw [hlast]; exact hoff)
    have hdiv := Nat.div_add_mod' p SECTOR
    have hdiv' := Nat.div_add_mod' (p + n - 1) SECTOR
    rw [hlast] at hdiv'
    refine ⟨slice layer.file (off + p % SECTOR) n, ?_⟩
    rw [readSector_layer hdisk rfl hserve hoff]
    exact readExactAt_eq (by omega)

end Reads

/-- Increments opened over a base read as the newest layer with the sector's bit set, else the
newest with its block allocated, else the base; outside the disk a read is an error. -/
theorem chained_read_takes_newest_layer (ignoreBitmap : Bool) (base : BackingStore)
    (increments : List IncrementFile) (layers : List DynamicVhd)
    (hopen : increments.map (fun file => DynamicVhd.open file.bytes) = layers.map .ok)
    (hsize : ∀ layer ∈ layers, layer.virtualSize = base.sizeBytes)
    (hcover : ∀ layer ∈ layers, layer.CoversDisk) :
    ∃ chain, ChainedVhd.open base increments = .ok chain ∧ ∀ offset len,
      (base.sizeBytes < offset + len →
        ∃ msg, chain.readAt ignoreBitmap offset len = .error (invalidData msg)) ∧
      (offset + len ≤ base.sizeBytes →
        (∀ bytes, chain.readAt ignoreBitmap offset len = .ok bytes → bytes.length = len ∧
          ∀ i < len, TakenFrom base (offset + i) bytes[i]?
            (servingLayer ignoreBitmap layers ((offset + i) / SECTOR))) ∧
        (Readable base layers → ∃ bytes, chain.readAt ignoreBitmap offset len = .ok bytes)) := by
  refine ⟨_, ChainedVhd.open_ok hopen hsize, fun offset len => ⟨fun hout => ?_, fun hin =>
    ⟨fun bytes => readAt_takenFrom hsize hcover hin, fun hr => readAt_succeeds hsize hcover hr hin⟩⟩⟩
  obtain ⟨msg, hmsg⟩ := checkReadRange_error hout
  exact ⟨msg, by simp only [ChainedVhd.readAt, hmsg]⟩

/-- A one-block increment of a 512-byte disk: header, table, bitmap, data and footer. -/
def oneBlockIncrement (bits data : UInt8) : IncrementFile where
  path := "disk.001.vhd"
  bytes :=
    let front := ascii "conectix" ++ List.replicate 40 0 ++ toBe 8 512 ++ List.replicate 4 0 ++
      toBe 4 DISK_TYPE_DYNAMIC
    ascii "cxsparse" ++ toBe 8 0 ++ toBe 8 1024 ++ toBe 4 0 ++ toBe 4 1 ++ toBe 4 512 ++
      List.replicate 988 0 ++ toBe 4 3 ++ List.replicate 508 0 ++ [bits] ++ List.replicate 511 0 ++
      List.replicate 512 data ++ front ++ toBe 4 (checksum (front ++ List.replicate 448 0) 64 68) ++
      List.replicate 444 0

private def opensOneBlock (data : UInt8) : Outcome DynamicVhd → Bool
  | .ok layer => layer.virtualSize == 512 && layer.bat == [3] && layer.layout.blockSize == 512 &&
      slice layer.file 2048 512 == List.replicate 512 data
  | .error _ => false

/-- What an opened one-block increment is: its block's data starts at byte 2048. -/
structure OneBlock (data : UInt8) (layer : DynamicVhd) : Prop where
  virtualSize_eq : layer.virtualSize = 512
  bat_eq : layer.bat = [3]
  blockSize_eq : layer.layout.blockSize = 512
  data_eq : slice layer.file 2048 512 = List.replicate 512 data

theorem oneBlock_of_opens {data : UInt8} {r : Outcome DynamicVhd}
    (h : opensOneBlock data r = true) : ∃ layer, r = .ok layer ∧ OneBlock data layer := by
  cases r with
  | error e => cases h
  | ok layer =>
    simp only [opensOneBlock, Bool.and_eq_true, beq_iff_eq] at h
    exact ⟨layer, rfl, h.1.1.1, h.1.1.2, h.1.2, h.2⟩

theorem OneBlock.coversDisk {data : UInt8} {layer : DynamicVhd} (h : OneBlock data layer) :
    layer.CoversDisk := by
  intro sector hs
  rw [h.virtualSize_eq] at hs
  rw [DynamicVhd.sectorsPerBlock, h.blockSize_eq, h.bat_eq, List.length_singleton]
  rw [SECTOR] at *
  omega

/-- An increment whose block is captured with its bit set opens. -/
theorem oneBlockIncrement_opens : ∃ layer, DynamicVhd.open (oneBlockIncrement 0x80 1).bytes =
    .ok layer ∧ OneBlock 1 layer := oneBlock_of_opens (by decide +kernel)

/-- The increment opens, and a chain over a 512-byte base reads whole sectors and nothing beyond. -/
theorem chained_read_takes_newest_layer_one_block :
    ∃ chain, ChainedVhd.open (blankDisk 512 (by decide)) [oneBlockIncrement 0x80 1] = .ok chain ∧
      (∀ bytes, chain.readAt false 0 512 = .ok bytes → bytes.length = 512) ∧
      ∃ msg, chain.readAt false 0 513 = .error (invalidData msg) := by
  obtain ⟨layer, hlayer, hone⟩ := oneBlockIncrement_opens
  have hdisk : (blankDisk 512 (by decide)).sizeBytes = 512 := List.length_replicate
  obtain ⟨chain, hchain, hreads⟩ := chained_read_takes_newest_layer false
    (blankDisk 512 (by decide)) [oneBlockIncrement 0x80 1] [layer]
    (by rw [List.map_singleton, List.map_singleton, hlayer])
    (by simpa [hdisk] using hone.virtualSize_eq) (by simpa using hone.coversDisk)
  refine ⟨chain, hchain, fun bytes hb => ?_, (hreads 0 513).1 (by rw [hdisk]; decide)⟩
  exact (((hreads 0 512).2 (by rw [hdisk])).1 bytes hb).1

end XBoot.Vhd
