import XBoot.IscsiPdu
import XBoot.Volume

/-!
# SCSI command execution

A target is a list of logical units, each a volume with the identity it reports. A
command is executed against one of them and may change its overlay.
-/

namespace XBoot.Iscsi

open ListSlices BigEndian Utf8 Storage Volume Resumptions

def GOOD : UInt8 := 0x00
def CHECK_CONDITION : UInt8 := 0x02

def NO_SENSE : UInt8 := 0x00
def MEDIUM_ERROR : UInt8 := 0x03
def ILLEGAL_REQUEST : UInt8 := 0x05

def ASC_INVALID_OPCODE : UInt8 × UInt8 := (0x20, 0x00)
def ASC_LBA_OUT_OF_RANGE : UInt8 × UInt8 := (0x21, 0x00)
def ASC_INVALID_FIELD_IN_CDB : UInt8 × UInt8 := (0x24, 0x00)
def ASC_LUN_NOT_SUPPORTED : UInt8 × UInt8 := (0x25, 0x00)
def ASC_UNRECOVERED_READ_ERROR : UInt8 × UInt8 := (0x11, 0x00)
def ASC_WRITE_ERROR : UInt8 × UInt8 := (0x0c, 0x00)

def fixedSense (key asc ascq : UInt8) : List UInt8 :=
  [0x70, 0, key &&& 0x0f, 0, 0, 0, 0, 10, 0, 0, 0, 0, asc, ascq, 0, 0, 0, 0]

structure ScsiOutcome where
  status : UInt8
  data : List UInt8
  sense : List UInt8
  deriving DecidableEq, Repr

def ScsiOutcome.ok : ScsiOutcome := ⟨GOOD, [], []⟩

def ScsiOutcome.good (data : List UInt8) : ScsiOutcome := ⟨GOOD, data, []⟩

def ScsiOutcome.check (key : UInt8) (asc : UInt8 × UInt8) : ScsiOutcome :=
  ⟨CHECK_CONDITION, [], fixedSense key asc.1 asc.2⟩

abbrev Bytes (n : ℕ) := { bytes : List UInt8 // bytes.length = n }

/-- One LUN: a virtual disk and the identity it reports to the initiator. -/
structure LogicalUnit where
  master : BackingStore
  overlay : RamOverlay
  blockSize : ℕ
  vendor : Bytes 8
  product : Bytes 16
  revision : Bytes 4
  serial : String
  removable : Bool
  blockSize_lt : blockSize < 2 ^ 32

/-- A block device of 512-byte blocks over a fresh overlay. -/
def LogicalUnit.new (master : BackingStore) : LogicalUnit where
  master := master
  overlay := fun _ => none
  blockSize := 512
  vendor := ⟨ascii "XBOOT   ", by decide⟩
  product := ⟨ascii "VDISK           ", by decide⟩
  revision := ⟨ascii "0001", by decide⟩
  serial := "XBOOT0000000001"
  removable := false
  blockSize_lt := by decide

def LogicalUnit.withSerial (lu : LogicalUnit) (serial : String) : LogicalUnit :=
  { lu with serial := serial }

namespace LogicalUnit

variable (lu : LogicalUnit)

/-- Number of addressable blocks; a division by zero panics. -/
def totalBlocks : Outcome ℕ :=
  if lu.blockSize = 0 then .error .panic else .ok (lu.master.sizeBytes / lu.blockSize)

/-- Run a program of the volume alone: an `io::Error` is a result, a panic is not. -/
def runVolume {α : Type} (program : VolumeProgram α) : Outcome (Except IoError α × LogicalUnit) :=
  match program.run (effects lu.master) lu.overlay with
  | .error e => .error e
  | .ok (.ok a, overlay) => .ok (.ok a, { lu with overlay := overlay })
  | .ok (.error (.io e), overlay) => .ok (.error e, { lu with overlay := overlay })
  | .ok (.error e, _) => .error e

def standardInquiry : List UInt8 :=
  [0x00, if lu.removable then 0x80 else 0x00, 0x05, 0x02, 31, 0, 0, 0] ++
    lu.vendor.1 ++ lu.product.1 ++ lu.revision.1

def vpdUnitSerial : List UInt8 :=
  let sn := encode lu.serial
  [0x00, 0x80, 0, UInt8.ofNat sn.length] ++ sn

def vpdDeviceId : List UInt8 :=
  let id := lu.vendor.1 ++ lu.product.1 ++ encode lu.serial
  let desc := [0x02, 0x01, 0, UInt8.ofNat id.length] ++ id
  [0x00, 0x83] ++ toBe 2 desc.length ++ desc

end LogicalUnit

def TEST_UNIT_READY : UInt8 := 0x00
def REQUEST_SENSE : UInt8 := 0x03
def INQUIRY : UInt8 := 0x12
def MODE_SENSE_6 : UInt8 := 0x1a
def START_STOP_UNIT : UInt8 := 0x1b
def PREVENT_ALLOW : UInt8 := 0x1e
def READ_CAPACITY_10 : UInt8 := 0x25
def READ_10 : UInt8 := 0x28
def WRITE_10 : UInt8 := 0x2a
def SYNC_CACHE_10 : UInt8 := 0x35
def MODE_SENSE_10 : UInt8 := 0x5a
def READ_16 : UInt8 := 0x88
def WRITE_16 : UInt8 := 0x8a
def SYNC_CACHE_16 : UInt8 := 0x91
def SERVICE_ACTION_IN_16 : UInt8 := 0x9e
def REPORT_LUNS : UInt8 := 0xa0

def SAI_READ_CAPACITY_16 : UInt8 := 0x10

/-- LBA of a 10-byte command. -/
def lba32 (cdb : Cdb) : ℕ := ofBe (slice cdb.1 2 4)

/-- Transfer length in blocks of a 10-byte command. -/
def len16 (cdb : Cdb) : ℕ := ofBe (slice cdb.1 7 2)

/-- LBA of a 16-byte command. -/
def lba64 (cdb : Cdb) : ℕ := ofBe (slice cdb.1 2 8)

/-- Transfer length in blocks of a 16-byte command. -/
def len32_16 (cdb : Cdb) : ℕ := ofBe (slice cdb.1 10 4)

def requestSense : ScsiOutcome := .good (fixedSense NO_SENSE 0x00 0x00)

/-- Caching mode page with the write cache enabled. -/
def cachingPage : List UInt8 := [0x08, 0x12, 0x04] ++ List.replicate 17 0

def modeSense (cdb : Cdb) : ScsiOutcome :=
  let pageCode := byte cdb.1 2 &&& 0x3f
  let pages := if pageCode = 0x08 ∨ pageCode = 0x3f then cachingPage else []
  if byte cdb.1 0 = MODE_SENSE_10 then .good (toBe 2 (6 + pages.length) ++ List.replicate 6 0 ++ pages)
  else .good ([UInt8.ofNat (3 + pages.length), 0, 0, 0] ++ pages)

def inRange (lu : LogicalUnit) (lba blocks : ℕ) : Outcome Bool :=
  if 2 ^ 64 ≤ lba + blocks then .ok false
  else match lu.totalBlocks with
    | .error e => .error e
    | .ok total => .ok (lba + blocks ≤ total)

def write (lu : LogicalUnit) (lba blocks : ℕ) (writeData : List UInt8) :
    Outcome (ScsiOutcome × LogicalUnit) :=
  if blocks = 0 then .ok (.ok, lu)
  else match inRange lu lba blocks with
    | .error e => .error e
    | .ok false => .ok (.check ILLEGAL_REQUEST ASC_LBA_OUT_OF_RANGE, lu)
    | .ok true =>
      if writeData.length ≠ blocks * lu.blockSize then
        .ok (.check ILLEGAL_REQUEST ASC_INVALID_FIELD_IN_CDB, lu)
      else match lu.runVolume (writeAt lu.master (lba * lu.blockSize) writeData) with
        | .error e => .error e
        | .ok (.ok _, lu') => .ok (.ok, lu')
        | .ok (.error _, lu') => .ok (.check MEDIUM_ERROR ASC_WRITE_ERROR, lu')

def read (lu : LogicalUnit) (lba blocks : ℕ) : Outcome (ScsiOutcome × LogicalUnit) :=
  if blocks = 0 then .ok (.ok, lu)
  else match inRange lu lba blocks with
    | .error e => .error e
    | .ok false => .ok (.check ILLEGAL_REQUEST ASC_LBA_OUT_OF_RANGE, lu)
    | .ok true =>
      match lu.runVolume (readAt lu.master (lba * lu.blockSize) (blocks * lu.blockSize)) with
        | .error e => .error e
        | .ok (.ok data, lu') => .ok (.good data, lu')
        | .ok (.error _, lu') => .ok (.check MEDIUM_ERROR ASC_UNRECOVERED_READ_ERROR, lu')

def readCapacity10 (lu : LogicalUnit) : Outcome ScsiOutcome :=
  match lu.totalBlocks with
  | .error e => .error e
  | .ok total => .ok (.good (toBe 4 (min (total - 1) (2 ^ 32 - 1)) ++ toBe 4 lu.blockSize))

def readCapacity16 (lu : LogicalUnit) : Outcome ScsiOutcome :=
  match lu.totalBlocks with
  | .error e => .error e
  | .ok total =>
    .ok (.good (toBe 8 (total - 1) ++ toBe 4 lu.blockSize ++ List.replicate 20 0))

def vpdSupportedPages : List UInt8 := [0x00, 0x00, 0x00, 0x03, 0x00, 0x80, 0x83]

def inquiry (lu : LogicalUnit) (cdb : Cdb) : ScsiOutcome :=
  let page := byte cdb.1 2
  if flag cdb.1 1 0x01 = false then
    if page ≠ 0 then .check ILLEGAL_REQUEST ASC_INVALID_FIELD_IN_CDB
    else .good lu.standardInquiry
  else if page = 0x00 then .good vpdSupportedPages
  else if page = 0x80 then .good lu.vpdUnitSerial
  else if page = 0x83 then .good lu.vpdDeviceId
  else .check ILLEGAL_REQUEST ASC_INVALID_FIELD_IN_CDB

def unchanged (lu : LogicalUnit) : Outcome ScsiOutcome → Outcome (ScsiOutcome × LogicalUnit)
  | .error e => .error e
  | .ok outcome => .ok (outcome, lu)

/-- Route a command to its handler. -/
def dispatch (lu : LogicalUnit) (cmd : ScsiCommand) (writeData : List UInt8) :
    Outcome (ScsiOutcome × LogicalUnit) :=
  let cdb := cmd.cdb
  let op := byte cdb.1 0
  if op = TEST_UNIT_READY then .ok (.ok, lu)
  else if op = INQUIRY then .ok (inquiry lu cdb, lu)
  else if op = READ_CAPACITY_10 then unchanged lu (readCapacity10 lu)
  else if op = SERVICE_ACTION_IN_16 ∧ byte cdb.1 1 &&& 0x1f = SAI_READ_CAPACITY_16 then
    unchanged lu (readCapacity16 lu)
  else if op = READ_10 then read lu (lba32 cdb) (len16 cdb)
  else if op = READ_16 then read lu (lba64 cdb) (len32_16 cdb)
  else if op = WRITE_10 then write lu (lba32 cdb) (len16 cdb) writeData
  else if op = WRITE_16 then write lu (lba64 cdb) (len32_16 cdb) writeData
  else if op = SYNC_CACHE_10 ∨ op = SYNC_CACHE_16 then .ok (.ok, lu)
  else if op = PREVENT_ALLOW ∨ op = START_STOP_UNIT then .ok (.ok, lu)
  else if op = REQUEST_SENSE then .ok (requestSense, lu)
  else if op = MODE_SENSE_6 ∨ op = MODE_SENSE_10 then .ok (modeSense cdb, lu)
  else .ok (.check ILLEGAL_REQUEST ASC_INVALID_OPCODE, lu)

structure ScsiTarget where
  luns : List (Option LogicalUnit)

/-- The LUN number in an 8-byte LUN field of flat addressing. -/
def lunNumber (lun : UInt64) : Option ℕ :=
  if lun >>> 56 ≠ 0 then none else some ((lun >>> 48) &&& 0xff).toNat

def ScsiTarget.reportLuns (t : ScsiTarget) : ScsiOutcome :=
  let present := (List.range t.luns.length).filter fun n => (t.luns[n]?.join).isSome
  .good (toBe 4 (present.length * 8) ++ [0, 0, 0, 0] ++
    present.flatMap fun n => [0, UInt8.ofNat n, 0, 0, 0, 0, 0, 0])

/-- Execute one command; `writeData` is the assembled write payload. -/
def ScsiTarget.execute (t : ScsiTarget) (cmd : ScsiCommand) (writeData : List UInt8) :
    Outcome (ScsiOutcome × ScsiTarget) :=
  match lunNumber cmd.lun with
  | none => .ok (.check ILLEGAL_REQUEST ASC_LUN_NOT_SUPPORTED, t)
  | some n => match t.luns[n]?.join with
    | none => .ok (.check ILLEGAL_REQUEST ASC_LUN_NOT_SUPPORTED, t)
    | some lu =>
      if byte cmd.cdb.1 0 = REPORT_LUNS then .ok (t.reportLuns, t)
      else match dispatch lu cmd writeData with
        | .error e => .error e
        | .ok (outcome, lu') => .ok (outcome, ⟨t.luns.set n (some lu')⟩)

end XBoot.Iscsi
