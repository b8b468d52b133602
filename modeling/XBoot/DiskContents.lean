import XBoot.PointReads
import XBoot.VhdRoundTrip
import XBoot.VhdChain
import XBoot.Vhdx

/-!
# What a store presents

An opened image is a disk some of whose bytes cannot be read: a read succeeds exactly when
each byte of its range can be read. This holds of raw files and of all readers of images, whatever
the bytes of their files.
-/

namespace XBoot.Storage

open ListSlices UnitWalk PointReads

/-- The store is a disk with these bytes; reads that pass its end fail with an `io::Error`. -/
structure BackingStore.Presents (m : BackingStore) (cells : ℕ → Option UInt8) : Prop where
  reads {offset len : ℕ} {bytes : List UInt8} : offset + len ≤ m.sizeBytes →
    (m.readAt offset len = .ok bytes ↔ Spells cells offset len bytes)
  outside {offset len : ℕ} : m.sizeBytes < offset + len →
    ∃ error, m.readAt offset len = .error (.io error)

variable {m m' : BackingStore} {cells : ℕ → Option UInt8} {file : List UInt8} {offset len : ℕ}
  {bytes : List UInt8}

namespace BackingStore.Presents

/-- A disk whose bytes can all be read serves them. -/
theorem serves (h : m.Presents cells) (hall : ∀ p < m.sizeBytes, (cells p).isSome = true) :
    ∃ content, m.Serves content ∧ ∀ p < m.sizeBytes, content[p]? = cells p := by
  obtain ⟨content, hcontent⟩ : ∃ content, Spells cells 0 m.sizeBytes content :=
    exists_spells_iff.2 fun p hp => by rw [Nat.zero_add]; exact hall p hp
  refine ⟨content, ⟨hcontent.length_eq, fun {offset len} hin => ?_⟩, fun p hp => ?_⟩
  · rw [h.reads hin]
    have hpart := hcontent.slice hin
    rwa [Nat.zero_add] at hpart
  · rw [hcontent.getElem?_eq p hp, Nat.zero_add]

theorem succeeds_iff (h : m.Presents cells) (hin : offset + len ≤ m.sizeBytes) :
    (∃ bytes, m.readAt offset len = .ok bytes) ↔ ∀ i < len, (cells (offset + i)).isSome = true := by
  simp only [h.reads hin, exists_spells_iff]

end BackingStore.Presents

theorem readExactAt_spells :
    readExactAt file offset len = .ok bytes ↔ Spells (fun p => file[p]?) offset len bytes := by
  rcases Nat.eq_zero_or_pos len with rfl | hpos
  · rw [readExactAt, if_pos rfl, spells_zero, Except.ok.injEq]
    exact eq_comm
  · rw [spells_list hpos]
    constructor
    · intro h
      exact ⟨readExactAt_in_file (Nat.ne_of_gt hpos) h, (readExactAt_ok h).1⟩
    · rintro ⟨hin, rfl⟩
      exact readExactAt_eq hin

theorem checkReadRange_fails {virtualSize : ℕ} (h : virtualSize < offset + len) :
    ∃ error, checkReadRange virtualSize offset len = .error (.io error) := by
  obtain ⟨msg, hmsg⟩ := checkReadRange_error h
  exact ⟨_, hmsg⟩

theorem presents_of_file (hreads : ∀ offset len, m.readAt offset len =
    match checkReadRange m.sizeBytes offset len with
    | .error e => .error e
    | .ok _ => readExactAt file offset len) : m.Presents fun p => file[p]? := by
  constructor
  · intro offset len bytes hin
    rw [hreads, checkReadRange_ok m.sizeBytes_lt hin]
    exact readExactAt_spells
  · intro offset len hout
    obtain ⟨error, herror⟩ := checkReadRange_fails hout
    exact ⟨error, by rw [hreads, herror]⟩

theorem rawFile_presents (h : file.length < 2 ^ 64) : (rawFile file h).Presents fun p => file[p]? :=
  presents_of_file fun _ _ => rfl

/-- The byte at a position of an image made up of units of a file. -/
def unitCell (unitSize : ℕ) (locate : ℕ → Outcome UnitPlace) (file : List UInt8) (p : ℕ) :
    Option UInt8 :=
  match locate (p / unitSize) with
  | .error _ => none
  | .ok .zero => some 0
  | .ok (.at base) => file[base + p % unitSize]?

variable {unitSize virtualSize : ℕ} {locate : ℕ → Outcome UnitPlace}

theorem mod_add_of_inside {unit p i n : ℕ} (hinside : p % unit + n ≤ unit) (hi : i < n) :
    (p + i) / unit = p / unit ∧ (p + i) % unit = p % unit + i := by
  have hdiv := Nat.div_add_mod' p unit
  have hsame : (p + i) / unit = p / unit :=
    Nat.div_eq_of_lt_le (by omega) (by rw [Nat.add_mul, Nat.one_mul]; omega)
  have hdiv' := Nat.div_add_mod' (p + i) unit
  rw [hsame] at hdiv'
  exact ⟨hsame, by omega⟩

private theorem readUnit_spells (hfile : file.length < 2 ^ 64) {pos stop p n : ℕ}
    (hpiece : Piece unitSize pos stop p n) :
    readUnit unitSize locate (readExactAt file) p n = .ok bytes ↔
      Spells (unitCell unitSize locate file) p n bytes := by
  have hcell : ∀ i < n, unitCell unitSize locate file (p + i) = match locate (p / unitSize) with
      | .error _ => none
      | .ok .zero => some 0
      | .ok (.at base) => file[base + p % unitSize + i]? := by
    intro i hi
    obtain ⟨hdiv, hmod⟩ := mod_add_of_inside hpiece.inside hi
    rw [unitCell, hdiv, hmod]
    simp only [Nat.add_assoc]
  have hpos := hpiece.nonempty
  rw [readUnit]
  cases hplace : locate (p / unitSize) with
  | error e =>
    simp only [hplace] at hcell
    refine iff_of_false (by simp) fun h => ?_
    have hfirst := exists_spells_iff.1 ⟨bytes, h⟩ 0 hpos
    rw [hcell 0 hpos] at hfirst
    cases hfirst
  | ok place =>
    cases place with
    | zero =>
      simp only [hplace] at hcell
      have hzeros : Spells (unitCell unitSize locate file) p n (List.replicate n 0) := by
        refine ⟨List.length_replicate, fun i hi => ?_⟩
        rw [hcell i hi, List.getElem?_replicate, if_pos hi]
      simp only [Except.ok.injEq]
      exact ⟨fun h => h ▸ hzeros, fun h => hzeros.unique h⟩
    | «at» base =>
      simp only [hplace] at hcell
      rw [spells_congr hcell]
      dsimp only
      split
      · refine iff_of_false (by simp) fun h => ?_
        have hfirst := exists_spells_iff.1 ⟨bytes, h⟩ 0 hpos
        rw [isSome_getElem?] at hfirst
        omega
      · exact readExactAt_spells

theorem readUnits_spells (hunit : 0 < unitSize) (hfile : file.length < 2 ^ 64)
    (hsize : virtualSize < 2 ^ 64) (hin : offset + len ≤ virtualSize) :
    readUnits virtualSize unitSize locate (readExactAt file) offset len = .ok bytes ↔
      Spells (unitCell unitSize locate file) offset len bytes := by
  rw [readUnits, if_neg (Nat.ne_of_gt hunit), checkReadRange_ok hsize hin]
  dsimp only
  rw [walk_spells hunit rfl (by simp) fun p n hpiece xs => readUnit_spells hfile hpiece]
  simp

theorem readUnits_outside (hunit : 0 < unitSize) {readPhys : ℕ → ℕ → Outcome (List UInt8)}
    (hout : virtualSize < offset + len) :
    ∃ error, readUnits virtualSize unitSize locate readPhys offset len = .error (.io error) := by
  obtain ⟨error, herror⟩ := checkReadRange_fails hout
  exact ⟨error, by rw [readUnits, if_neg (Nat.ne_of_gt hunit), herror]⟩

end XBoot.Storage

namespace XBoot.VhdxFile

open Storage

theorem Vhdx.store_presents (vhdx : Vhdx) (hfile : vhdx.file.length < 2 ^ 64) :
    vhdx.store.Presents (unitCell vhdx.blockSize vhdx.locate vhdx.file) :=
  ⟨readUnits_spells vhdx.blockSize_pos hfile vhdx.virtualSize_lt,
    readUnits_outside vhdx.blockSize_pos⟩

end XBoot.VhdxFile

namespace XBoot.Vhd

open Storage UnitWalk PointReads

variable {ignoreBitmap : Bool}

theorem FixedVhd.store_presents (vhd : FixedVhd) : vhd.store.Presents fun p => vhd.file[p]? :=
  presents_of_file fun _ _ => rfl

theorem DynamicVhd.store_presents (vhd : DynamicVhd) (hfile : vhd.file.length < 2 ^ 64) :
    (vhd.store ignoreBitmap).Presents (unitCell SECTOR (vhd.locate ignoreBitmap) vhd.file) := by
  have hsector : 0 < SECTOR := by decide
  exact ⟨readUnits_spells hsector hfile vhd.virtualSize_lt, readUnits_outside hsector⟩

namespace ChainedVhd

def store (ignoreBitmap : Bool) (chain : ChainedVhd) : BackingStore where
  sizeBytes := chain.base.sizeBytes
  readAt := chain.readAt ignoreBitmap
  sizeBytes_lt := chain.base.sizeBytes_lt
  length_readAt h := by
    rw [readAt] at h
    split at h
    · cases h
    · exact (getElem?_of_walk (by decide) (fun _ _ _ => length_readSector) h).1

variable {locate : DynamicVhd → Outcome (Option ℕ)} {layers : List DynamicVhd}

theorem mem_of_firstServing {layer : DynamicVhd} {off : ℕ}
    (h : firstServing locate layers = .ok (some (layer, off))) : layer ∈ layers := by
  induction layers with
  | nil => cases h
  | cons first rest ih =>
    rw [firstServing] at h
    split at h
    · cases h
    · cases h
      exact List.mem_cons_self
    · exact List.mem_cons_of_mem _ (ih h)

/-- Where a sector lies: by the bitmaps, or else by the tables alone. -/
def serving (ignoreBitmap : Bool) (layers : List DynamicVhd) (sector : ℕ) :
    Outcome (Option (DynamicVhd × ℕ)) :=
  match firstServing (fun layer => layer.sectorOffset ignoreBitmap sector) layers with
  | .ok none => firstServing (fun layer => layer.blockSectorOffset sector) layers
  | found => found

theorem mem_of_serving {sector : ℕ} {layer : DynamicVhd} {off : ℕ}
    (h : serving ignoreBitmap layers sector = .ok (some (layer, off))) : layer ∈ layers := by
  rw [serving] at h
  split at h
  · exact mem_of_firstServing h
  · exact mem_of_firstServing h

/-- The byte at a position of a chain over a base with these bytes. -/
def cell (ignoreBitmap : Bool) (layers : List DynamicVhd) (base : ℕ → Option UInt8) (p : ℕ) :
    Option UInt8 :=
  match serving ignoreBitmap layers (p / SECTOR) with
  | .error _ => none
  | .ok (some (layer, off)) => layer.file[off + p % SECTOR]?
  | .ok none => base p

variable {chain : ChainedVhd} {cells : ℕ → Option UInt8} {bytes : List UInt8}

theorem readSector_eq (chain : ChainedVhd) (p n : ℕ) : chain.readSector ignoreBitmap p n =
    match serving ignoreBitmap chain.overlays (p / SECTOR) with
    | .error e => .error e
    | .ok (some (layer, off)) => readFrom layer off (p % SECTOR) n
    | .ok none => chain.base.readAt p n := by
  rw [readSector, serving]
  cases firstServing (fun layer => layer.sectorOffset ignoreBitmap (p / SECTOR)) chain.overlays with
  | error e => rfl
  | ok found =>
    cases found with
    | some found => rfl
    | none => rfl

private theorem readFrom_spells {layer : DynamicVhd} (hfile : layer.file.length < 2 ^ 64)
    {off within n : ℕ} (hpos : 0 < n) : readFrom layer off within n = .ok bytes ↔
      Spells (fun q => layer.file[q]?) (off + within) n bytes := by
  rw [readFrom]
  split
  · refine iff_of_false (by simp) fun h => ?_
    have hfirst := exists_spells_iff.1 ⟨bytes, h⟩ 0 hpos
    rw [isSome_getElem?] at hfirst
    omega
  · exact readExactAt_spells

private theorem readSector_spells (hbase : chain.base.Presents cells)
    (hfiles : ∀ layer ∈ chain.overlays, layer.file.length < 2 ^ 64) {pos stop p n : ℕ}
    (hstop : stop ≤ chain.base.sizeBytes) (hpiece : Piece SECTOR pos stop p n) :
    chain.readSector ignoreBitmap p n = .ok bytes ↔
      Spells (cell ignoreBitmap chain.overlays cells) p n bytes := by
  have hpos := hpiece.nonempty
  have hcell : ∀ i < n, cell ignoreBitmap chain.overlays cells (p + i) =
      match serving ignoreBitmap chain.overlays (p / SECTOR) with
      | .error _ => none
      | .ok (some (layer, off)) => layer.file[off + p % SECTOR + i]?
      | .ok none => cells (p + i) := by
    intro i hi
    obtain ⟨hdiv, hmod⟩ := mod_add_of_inside hpiece.inside hi
    rw [cell, hdiv, hmod]
    simp only [Nat.add_assoc]
  rw [readSector_eq]
  cases hserve : serving ignoreBitmap chain.overlays (p / SECTOR) with
  | error e =>
    simp only [hserve] at hcell
    refine iff_of_false (by simp) fun h => ?_
    have hfirst := exists_spells_iff.1 ⟨bytes, h⟩ 0 hpos
    rw [hcell 0 hpos] at hfirst
    cases hfirst
  | ok found =>
    cases found with
    | none =>
      simp only [hserve] at hcell
      rw [spells_congr hcell]
      exact hbase.reads (Nat.le_trans hpiece.le_stop hstop)
    | some found =>
      obtain ⟨layer, off⟩ := found
      simp only [hserve] at hcell
      rw [spells_congr hcell]
      exact readFrom_spells (hfiles layer (mem_of_serving hserve)) hpos

theorem store_presents (chain : ChainedVhd) (hbase : chain.base.Presents cells)
    (hfiles : ∀ layer ∈ chain.overlays, layer.file.length < 2 ^ 64) :
    (chain.store ignoreBitmap).Presents (cell ignoreBitmap chain.overlays cells) := by
  have hsector : 0 < SECTOR := by decide
  constructor
  · intro offset len bytes hin
    have hcheck : checkReadRange chain.base.sizeBytes offset len = _ :=
      checkReadRange_ok chain.base.sizeBytes_lt hin
    have hread : (chain.store ignoreBitmap).readAt offset len =
        walk SECTOR .hang (chain.readSector ignoreBitmap) len len offset [] := by
      simp only [store, readAt, hcheck]
    rw [hread, walk_spells hsector rfl (by simp) fun p n hpiece xs =>
      readSector_spells hbase hfiles hin hpiece]
    simp
  · intro offset len hout
    obtain ⟨error, herror⟩ := checkReadRange_fails hout
    exact ⟨error, by simp only [store, readAt] at herror ⊢; rw [herror]⟩

end ChainedVhd

end XBoot.Vhd
