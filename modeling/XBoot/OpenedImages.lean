import XBoot.DiskContents
import XBoot.ImageAddresses
import XBoot.VhdIncrements

/-!
# Opening images

`open_backing` knows the format of an image by its magic bytes, and layers the increments that it
finds beside a VHD over it. Files do not change while an image is open.
-/

namespace XBoot.Storage

open ListSlices BigEndian Utf8 Vhd VhdxFile

/-- The bytes of a file, of which there are fewer than a `u64` can count. -/
structure FileBytes where
  bytes : List UInt8
  length_lt : bytes.length < 2 ^ 64

/-- What a path names. -/
inductive PathEntry where
  | absent (error : IoError)
  | file (content : FileBytes)
  -- it exists, but is not opened: a directory, or a file that may not be read
  | closed (error : IoError)

abbrev Entries := OsName → PathEntry

/-- The part of the machine that the images depend on. -/
structure Host where
  entries : Entries
  readDir : OsName → Option (List (Option OsName))
  toLowercase : String → String
  -- `XBOOT_NO_CHAIN` and `XBOOT_IGNORE_BITMAP` are in the environment
  noChain : Bool
  ignoreBitmap : Bool

def openFile (entries : Entries) (path : OsName) : Outcome FileBytes :=
  match entries path with
  | .absent error => .error (.io error)
  | .file content => .ok content
  | .closed error => .error (.io error)

/-- A path as it is given, with its parts. -/
structure ImagePath where
  path : OsName
  base : BasePath

end XBoot.Storage

namespace XBoot.Vhd

open BigEndian Utf8 Storage

def EntryPath.path (entry : EntryPath) : OsName :=
  if entry.dir.getLast? = some 47 then entry.dir ++ entry.name
  else entry.dir ++ 47 :: entry.name

/-- The loop of `ChainedVhd::open`, over paths in the order in which they are opened. -/
def openIncrements (entries : Entries) (virtualSize : ℕ) :
    List EntryPath → Outcome (List DynamicVhd)
  | [] => .ok []
  | entry :: rest => match openFile entries entry.path with
    | .error e => .error e
    | .ok file => match DynamicVhd.open file.bytes with
      | .error e => .error e
      | .ok layer =>
        let path := fromUtf8Lossy entry.path
        if layer.virtualSize ≠ virtualSize then
          .error (invalidData
            s!"increment {path} virtual size {layer.virtualSize} != base {virtualSize}")
        else match openIncrements entries virtualSize rest with
          | .error e => .error e
          | .ok layers => .ok (layer :: layers)

end XBoot.Vhd

namespace XBoot.Storage

open ListSlices BigEndian Vhd VhdxFile

/-- The increments beside an image, oldest first. -/
def Host.increments (host : Host) (base : BasePath) : List EntryPath :=
  findIncrements host.toLowercase base host.readDir

/-- A base with the increments that were found layered over it. -/
def openLayered (host : Host) (base : BackingStore) : List EntryPath → Outcome BackingStore
  | [] => .ok base
  | increments => match openIncrements host.entries base.sizeBytes increments.reverse with
    | .error e => .error e
    | .ok overlays => .ok (ChainedVhd.store host.ignoreBitmap { overlays, base })

/-- The VHD part of `open_backing`. -/
def openChain (host : Host) (image : ImagePath) (file : FileBytes) : Outcome BackingStore :=
  match openVhd host.ignoreBitmap file.bytes with
  | .error e => .error e
  | .ok base =>
    if host.noChain then .ok base else openLayered host base (host.increments image.base)

def openBacking (host : Host) (image : ImagePath) : Outcome BackingStore :=
  match openFile host.entries image.path with
  | .error e => .error e
  | .ok file =>
    let len := file.bytes.length
    if 8 ≤ len ∧ slice file.bytes 0 8 = ascii "vhdxfile" then
      match Vhdx.open file.bytes with
      | .error e => .error e
      | .ok vhdx => .ok vhdx.store
    else if 512 ≤ len ∧ slice file.bytes (len - 512) 8 = ascii "conectix" then
      openChain host image file
    else .ok (rawFile file.bytes file.length_lt)

end XBoot.Storage

namespace XBoot.Vhd

open Storage

variable {entries : Entries} {ignoreBitmap : Bool} {virtualSize : ℕ}

/-- The layers opened are whole files. -/
theorem openIncrements_files {paths : List EntryPath} {layers : List DynamicVhd}
    (h : openIncrements entries virtualSize paths = .ok layers) :
    ∀ layer ∈ layers, layer.file.length < 2 ^ 64 := by
  induction paths generalizing layers with
  | nil =>
    cases h
    simp
  | cons path rest ih =>
    rw [openIncrements] at h
    split at h
    · cases h
    · rename_i file hfile
      split at h
      · cases h
      · rename_i layer hlayer
        dsimp only at h
        split at h
        · cases h
        · split at h
          · cases h
          · rename_i others hothers
            cases h
            intro l hl
            rcases List.mem_cons.1 hl with rfl | hl
            · rw [DynamicVhd.open_file hlayer]
              exact file.length_lt
            · exact ih hothers l hl

theorem FixedVhd.open_file {file : List UInt8} {vhd : FixedVhd} (h : FixedVhd.open file = .ok vhd) :
    vhd.file = file := by
  rw [FixedVhd.open] at h
  split at h
  · cases h
  · split at h
    · cases h
    · cases h
      rfl

theorem openVhd_presents {file : List UInt8} (hfile : file.length < 2 ^ 64) {store : BackingStore}
    (h : openVhd ignoreBitmap file = .ok store) : ∃ cells, store.Presents cells := by
  rw [openVhd] at h
  split at h
  · cases h
  · split at h
    · split at h
      · cases h
      · rename_i vhd hvhd
        cases h
        exact ⟨_, vhd.store_presents⟩
    · split at h
      · split at h
        · cases h
        · rename_i vhd hvhd
          cases h
          exact ⟨_, vhd.store_presents (by rw [DynamicVhd.open_file hvhd]; exact hfile)⟩
      · cases h

end XBoot.Vhd

namespace XBoot.Storage

open ListSlices BigEndian PointReads Vhd VhdxFile

variable {host : Host} {image : ImagePath} {store : BackingStore}

theorem openChain_presents {file : FileBytes} (h : openChain host image file = .ok store) :
    ∃ cells, store.Presents cells := by
  rw [openChain] at h
  split at h
  · cases h
  · rename_i base hbase
    obtain ⟨cells, hcells⟩ := openVhd_presents file.length_lt hbase
    split at h
    · cases h
      exact ⟨cells, hcells⟩
    · rw [openLayered.eq_def] at h
      split at h
      · cases h
        exact ⟨cells, hcells⟩
      · split at h
        · cases h
        · rename_i overlays hoverlays
          cases h
          exact ⟨_, ChainedVhd.store_presents _ hcells (openIncrements_files hoverlays)⟩

/-- Whatever its files hold, an opened image is a disk some of whose bytes cannot be read. -/
theorem openBacking_presents (h : openBacking host image = .ok store) :
    ∃ cells, store.Presents cells := by
  rw [openBacking] at h
  split at h
  · cases h
  · rename_i file hfile
    dsimp only at h
    split at h
    · split at h
      · cases h
      · rename_i vhdx hvhdx
        cases h
        exact ⟨_, vhdx.store_presents (by rw [(VhdxFile.open_file hvhdx).1]; exact file.length_lt)⟩
    · split at h
      · exact openChain_presents h
      · cases h
        exact ⟨_, rawFile_presents file.length_lt⟩

/-- A read within the disk returns its bytes exactly when each of them is returned on its own;
one beyond the disk fails with an `io::Error`. -/
structure ReadsBytewise (store : BackingStore) : Prop where
  reads {offset len : ℕ} {bytes : List UInt8} : offset + len ≤ store.sizeBytes →
    (store.readAt offset len = .ok bytes ↔ bytes.length = len ∧
      ∀ i < len, store.readAt (offset + i) 1 = .ok (slice bytes i 1))
  outside {offset len : ℕ} : store.sizeBytes < offset + len →
    ∃ error, store.readAt offset len = .error (.io error)

theorem BackingStore.Presents.readsBytewise {cells : ℕ → Option UInt8} (h : store.Presents cells) :
    ReadsBytewise store := by
  refine ⟨fun {offset len bytes} hin => ?_, h.outside⟩
  rw [h.reads hin]
  constructor
  · intro hbytes
    exact ⟨hbytes.length_eq, fun i hi => (h.reads (by omega)).2 (hbytes.slice (by omega))⟩
  · rintro ⟨hlen, hall⟩
    refine ⟨hlen, fun i hi => ?_⟩
    have hone := ((h.reads (by omega)).1 (hall i hi)).getElem?_eq 0 Nat.zero_lt_one
    rwa [getElem?_slice, if_pos Nat.zero_lt_one] at hone

/-- Reads of an opened image do not depend on how they are cut, whatever the bytes of its files. -/
theorem opened_image_reads_bytewise (host : Host) (image : ImagePath) (store : BackingStore)
    (h : openBacking host image = .ok store) : ReadsBytewise store := by
  obtain ⟨cells, hcells⟩ := openBacking_presents h
  exact hcells.readsBytewise

/-- A one-block VHD with two increments, of which the directory lists the second one first. -/
def numberedImages : Host where
  entries path := .file (
    if path = ascii "d/m.2.vhd" then ⟨(oneBlockIncrement 0x80 2).bytes, by decide +kernel⟩
    else ⟨(oneBlockIncrement 0x80 1).bytes, by decide +kernel⟩)
  readDir _ := some [some (ascii "m.2.vhd"), some (ascii "m.1.vhd")]
  toLowercase := lowerAscii
  noChain := false
  ignoreBitmap := false

theorem exists_of_bind {α β : Type} {r : Outcome α} {f : α → Outcome β} {b : β}
    (h : r.bind f = .ok b) : ∃ a, r = .ok a ∧ f a = .ok b := by
  cases r with
  | error e => cases h
  | ok a => exact ⟨a, rfl, h⟩

theorem numberedImages_read : ∃ store,
    openBacking numberedImages ⟨ascii "d/m.vhd", imageM⟩ = .ok store ∧ store.readAt 0 3 = .ok [2, 2, 2] :=
  exists_of_bind (by decide +kernel)

theorem opened_chain_reads_bytewise : ∃ store,
    openBacking numberedImages ⟨ascii "d/m.vhd", imageM⟩ = .ok store ∧
      store.readAt 0 3 = .ok [2, 2, 2] ∧ ReadsBytewise store := by
  obtain ⟨store, hopens, hread⟩ := numberedImages_read
  exact ⟨store, hopens, hread, opened_image_reads_bytewise numberedImages _ store hopens⟩

end XBoot.Storage
