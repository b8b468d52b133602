import XBoot.UnitWalk

/-!
# Read-only sources of disk-image bytes

The outcome of a fallible operation, positioned reads of a file, the `BackingStore`
interface with its raw-file implementation, and `read_units`, which serves a byte
range from fixed-size allocation units. Sizes and positions are `u64` in the source;
an addition that the source does not check and that passes `2 ^ 64` is a panic here.
-/

namespace XBoot.Storage

open ListSlices UnitWalk

inductive IoError where
  | invalidData (msg : String)
  | unexpectedEof
  | other (msg : String)
  deriving DecidableEq, Repr

/-- What ends an operation early: an `io::Error`, a panic, or a loop without progress. -/
inductive Failure where
  | io (error : IoError)
  | panic
  | hang
  deriving DecidableEq, Repr

abbrev Outcome (α : Type) := Except Failure α

def invalidData (msg : String) : Failure := .io (.invalidData msg)

/-- A read-only source of disk-image bytes. -/
structure BackingStore where
  sizeBytes : ℕ
  readAt (offset len : ℕ) : Outcome (List UInt8)
  sizeBytes_lt : sizeBytes < 2 ^ 64
  length_readAt {offset len : ℕ} {bytes : List UInt8} :
    readAt offset len = .ok bytes → bytes.length = len

/-- In-range reads, when they succeed, show the bytes of `content`. -/
structure BackingStore.Shows (m : BackingStore) (content : List UInt8) : Prop where
  length_eq : content.length = m.sizeBytes
  readAt_eq {offset len : ℕ} {bytes : List UInt8} : offset + len ≤ m.sizeBytes →
    m.readAt offset len = .ok bytes → bytes = slice content offset len

/-- In-range reads succeed and show the bytes of `content`. -/
structure BackingStore.Serves (m : BackingStore) (content : List UInt8) : Prop where
  length_eq : content.length = m.sizeBytes
  readAt_eq {offset len : ℕ} : offset + len ≤ m.sizeBytes →
    m.readAt offset len = .ok (slice content offset len)

theorem BackingStore.Serves.shows {m : BackingStore} {content : List UInt8}
    (h : m.Serves content) : m.Shows content where
  length_eq := h.length_eq
  readAt_eq hr he := by rw [h.readAt_eq hr] at he; cases he; rfl

/-- `read_exact_at`: a positioned read of exactly `len` bytes. -/
def readExactAt (file : List UInt8) (offset len : ℕ) : Outcome (List UInt8) :=
  if len = 0 then .ok []
  else if offset + len ≤ file.length then .ok (slice file offset len)
  else .error (.io .unexpectedEof)

theorem readExactAt_eq {file : List UInt8} {offset len : ℕ} (h : offset + len ≤ file.length) :
    readExactAt file offset len = .ok (slice file offset len) := by
  by_cases hz : len = 0
  · subst hz; simp [readExactAt]
  · rw [readExactAt, if_neg hz, if_pos h]

theorem readExactAt_ok {file bytes : List UInt8} {offset len : ℕ}
    (h : readExactAt file offset len = .ok bytes) :
    bytes = slice file offset len ∧ bytes.length = len := by
  by_cases hz : len = 0
  · subst hz; simp only [readExactAt, if_true] at h; cases h; simp
  · rw [readExactAt, if_neg hz] at h
    by_cases hle : offset + len ≤ file.length
    · rw [if_pos hle] at h; cases h; exact ⟨rfl, length_slice hle⟩
    · rw [if_neg hle] at h; cases h

theorem readExactAt_in_file {file bytes : List UInt8} {offset len : ℕ} (hlen : len ≠ 0)
    (h : readExactAt file offset len = .ok bytes) : offset + len ≤ file.length := by
  rw [readExactAt, if_neg hlen] at h
  by_contra hlt
  rw [if_neg hlt] at h
  cases h

/-- The range check shared by the readers of images. -/
def checkReadRange (virtualSize offset len : ℕ) : Outcome Unit :=
  if 2 ^ 64 ≤ offset + len then .error (invalidData "read range overflows u64")
  else if virtualSize < offset + len then
    .error (invalidData s!"read past end of image: {offset + len} > {virtualSize}")
  else .ok ()

theorem checkReadRange_ok {virtualSize offset len : ℕ} (hv : virtualSize < 2 ^ 64)
    (h : offset + len ≤ virtualSize) : checkReadRange virtualSize offset len = .ok () := by
  rw [checkReadRange, if_neg (by omega), if_neg (by omega)]

theorem checkReadRange_eq_ok {virtualSize offset len : ℕ} :
    checkReadRange virtualSize offset len = .ok () ↔
      offset + len < 2 ^ 64 ∧ offset + len ≤ virtualSize := by
  rw [checkReadRange]
  split
  · refine iff_of_false (by simp) fun h => ?_
    omega
  · split
    · refine iff_of_false (by simp) fun h => ?_
      omega
    · exact iff_of_true rfl ⟨by omega, by omega⟩

theorem checkReadRange_error {virtualSize offset len : ℕ} (h : virtualSize < offset + len) :
    ∃ msg, checkReadRange virtualSize offset len = .error (invalidData msg) := by
  by_cases ho : 2 ^ 64 ≤ offset + len
  · exact ⟨_, by rw [checkReadRange, if_pos ho]⟩
  · exact ⟨_, by rw [checkReadRange, if_neg ho, if_pos h]⟩

/-- A raw disk image: the file is the disk, byte for byte. -/
def rawFile (file : List UInt8) (h : file.length < 2 ^ 64) : BackingStore where
  sizeBytes := file.length
  readAt offset len := match checkReadRange file.length offset len with
    | .error e => .error e
    | .ok _ => readExactAt file offset len
  sizeBytes_lt := h
  length_readAt he := by
    split at he
    · cases he
    · exact (readExactAt_ok he).2

theorem rawFile_serves (file : List UInt8) (h : file.length < 2 ^ 64) :
    (rawFile file h).Serves file where
  length_eq := rfl
  readAt_eq hr := by
    simp only [rawFile, checkReadRange_ok h hr]
    exact readExactAt_eq hr

/-- A raw image of `n` zero bytes. -/
def blankDisk (n : ℕ) (h : n < 2 ^ 64) : BackingStore :=
  rawFile (List.replicate n 0) (by rwa [List.length_replicate])

theorem blankDisk_serves (n : ℕ) (h : n < 2 ^ 64) :
    (blankDisk n h).Serves (List.replicate n 0) := rawFile_serves _ _

/-- Where an allocation unit's data lives. -/
inductive UnitPlace where
  | zero
  | at (base : ℕ)
  deriving DecidableEq, Repr

/-- One round of the loop of `read_units`: `take` bytes inside the unit of `pos`. -/
def readUnit (unitSize : ℕ) (locate : ℕ → Outcome UnitPlace)
    (readPhys : ℕ → ℕ → Outcome (List UInt8)) (pos take : ℕ) : Outcome (List UInt8) :=
  match locate (pos / unitSize) with
  | .error e => .error e
  | .ok .zero => .ok (List.replicate take 0)
  | .ok (.at base) =>
    if 2 ^ 64 ≤ base + pos % unitSize then .error .panic
    else readPhys (base + pos % unitSize) take

/-- `read_units`: serve `len` bytes at `offset` from fixed-size allocation units. -/
def readUnits (virtualSize unitSize : ℕ) (locate : ℕ → Outcome UnitPlace)
    (readPhys : ℕ → ℕ → Outcome (List UInt8)) (offset len : ℕ) : Outcome (List UInt8) :=
  if unitSize = 0 then .error (invalidData "unit_size must be non-zero")
  else match checkReadRange virtualSize offset len with
    | .error e => .error e
    | .ok _ => walk unitSize .hang (readUnit unitSize locate readPhys) len len offset []

/-- Units that all show one list of bytes serve the slices of that list. -/
theorem readUnits_eq_slice {virtualSize unitSize offset len : ℕ}
    {locate : ℕ → Outcome UnitPlace} {readPhys : ℕ → ℕ → Outcome (List UInt8)}
    {content : List UInt8} (hv : virtualSize < 2 ^ 64) (hunit : 0 < unitSize)
    (hc : content.length = virtualSize) (h : offset + len ≤ virtualSize)
    (hpiece : ∀ p n, Piece unitSize offset (offset + len) p n →
      readUnit unitSize locate readPhys p n = .ok (slice content p n)) :
    readUnits virtualSize unitSize locate readPhys offset len = .ok (slice content offset len) := by
  rw [readUnits, if_neg (by omega), checkReadRange_ok hv h]
  exact walk_eq_slice hunit content offset (by omega) hpiece

/-- A read of allocation units returns as many bytes as were asked for. -/
theorem length_readUnits {virtualSize unitSize offset len : ℕ}
    {locate : ℕ → Outcome UnitPlace} {readPhys : ℕ → ℕ → Outcome (List UInt8)}
    {bytes : List UInt8}
    (hphys : ∀ p n bs, readPhys p n = .ok bs → bs.length = n)
    (h : readUnits virtualSize unitSize locate readPhys offset len = .ok bytes) :
    bytes.length = len := by
  have hunit : ∀ p n bs, readUnit unitSize locate readPhys p n = .ok bs → bs.length = n := by
    intro p n bs hr
    rw [readUnit] at hr
    split at hr
    · cases hr
    · cases hr; simp
    · split at hr
      · cases hr
      · exact hphys _ _ _ hr
  rw [readUnits] at h
  split at h
  · cases h
  · split at h
    · cases h
    · exact (getElem?_of_walk (by omega) hunit h).1

end XBoot.Storage
