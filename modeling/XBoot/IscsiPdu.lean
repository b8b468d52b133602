import XBoot.BigEndian
import XBoot.Utf8

/-!
# iSCSI PDUs

Decoding of the requests that an initiator sends, and the responses of the target.
-/

namespace XBoot.Iscsi

open ListSlices BigEndian Utf8

def BHS_LEN : ℕ := 48

def MAX_DATA_SEGMENT : ℕ := 256 * 1024

def NOP_OUT : ℕ := 0x00
def SCSI_COMMAND : ℕ := 0x01
def TASK_MGMT : ℕ := 0x02
def LOGIN_REQ : ℕ := 0x03
def TEXT_REQ : ℕ := 0x04
def DATA_OUT : ℕ := 0x05
def LOGOUT_REQ : ℕ := 0x06

inductive PduError where
  | shortHeader
  | shortData
  | unexpectedAhs
  | dataSegmentTooLong
  deriving DecidableEq, Repr

/-- Padding needed to round `n` bytes up to a 4-byte boundary. -/
def pad4 (n : ℕ) : ℕ := (4 - n % 4) % 4

/-- Parse a text segment into key-value pairs, skipping malformed entries. -/
def parsePairs (data : List UInt8) : List (String × String) :=
  (data.splitOn 0).filterMap fun chunk =>
    match chunk.findIdx? (· = 61) with
    | none => none
    | some eq =>
      if eq = 0 then none
      else some (fromUtf8Lossy (chunk.take eq), fromUtf8Lossy (chunk.drop (eq + 1)))

abbrev Cdb := { bytes : List UInt8 // bytes.length = 16 }

abbrev Isid := { bytes : List UInt8 // bytes.length = 6 }

structure LoginRequest where
  transit : Bool
  continue_ : Bool
  csg : UInt8
  nsg : UInt8
  versionMax : UInt8
  versionMin : UInt8
  isid : Isid
  tsih : UInt16
  itt : UInt32
  cid : UInt16
  cmdSn : UInt32
  expStatSn : UInt32
  text : List (String × String)
  deriving DecidableEq

structure TextRequest where
  final_ : Bool
  continue_ : Bool
  lun : UInt64
  itt : UInt32
  ttt : UInt32
  cmdSn : UInt32
  expStatSn : UInt32
  text : List (String × String)
  deriving DecidableEq

structure ScsiCommand where
  final_ : Bool
  read : Bool
  write : Bool
  attr : UInt8
  lun : UInt64
  itt : UInt32
  edtl : UInt32
  cmdSn : UInt32
  expStatSn : UInt32
  cdb : Cdb
  data : List UInt8
  deriving DecidableEq

structure ScsiDataOut where
  final_ : Bool
  lun : UInt64
  itt : UInt32
  ttt : UInt32
  expStatSn : UInt32
  dataSn : UInt32
  bufferOffset : UInt32
  data : List UInt8
  deriving DecidableEq

structure NopOut where
  lun : UInt64
  itt : UInt32
  ttt : UInt32
  cmdSn : UInt32
  expStatSn : UInt32
  data : List UInt8
  deriving DecidableEq

structure LogoutRequest where
  reason : UInt8
  itt : UInt32
  cid : UInt16
  cmdSn : UInt32
  expStatSn : UInt32
  deriving DecidableEq

structure TaskMgmt where
  function : UInt8
  lun : UInt64
  itt : UInt32
  refTaskTag : UInt32
  cmdSn : UInt32
  expStatSn : UInt32
  deriving DecidableEq

inductive Request where
  | login (r : LoginRequest)
  | text (r : TextRequest)
  | scsiCommand (r : ScsiCommand)
  | dataOut (r : ScsiDataOut)
  | nopOut (r : NopOut)
  | logout (r : LogoutRequest)
  | taskMgmt (r : TaskMgmt)
  /-- Any opcode that is not handled. -/
  | unsupported (opcode : ℕ) (itt : UInt32)
  deriving DecidableEq

def byte (h : List UInt8) (off : ℕ) : UInt8 := h.getD off 0

/-- Whether any bit of `mask` is set in a header byte. -/
def flag (h : List UInt8) (off : ℕ) (mask : UInt8) : Bool := byte h off &&& mask != 0

def be16 (h : List UInt8) (off : ℕ) : UInt16 := UInt16.ofNat (ofBe (slice h off 2))
def be24 (h : List UInt8) (off : ℕ) : ℕ := ofBe (slice h off 3)
def be32 (h : List UInt8) (off : ℕ) : UInt32 := UInt32.ofNat (ofBe (slice h off 4))
def be64 (h : List UInt8) (off : ℕ) : UInt64 := UInt64.ofNat (ofBe (slice h off 8))

def opcodeOf (h : List UInt8) : ℕ := (byte h 0 &&& 0x3f).toNat

def cdbOf (h : List UInt8) (hlen : h.length = BHS_LEN) : Cdb :=
  ⟨slice h 32 16, length_slice (by rw [hlen]; decide)⟩

def isidOf (h : List UInt8) (hlen : h.length = BHS_LEN) : Isid :=
  ⟨slice h 8 6, length_slice (by rw [hlen]; decide)⟩

def requestOf (h : List UInt8) (hlen : h.length = BHS_LEN) (data : List UInt8) : Request :=
  if opcodeOf h = LOGIN_REQ then .login {
    transit := flag h 1 0x80
    continue_ := flag h 1 0x40
    csg := (byte h 1 >>> 2) &&& 0x3
    nsg := byte h 1 &&& 0x3
    versionMax := byte h 2
    versionMin := byte h 3
    isid := isidOf h hlen
    tsih := be16 h 14
    itt := be32 h 16
    cid := be16 h 20
    cmdSn := be32 h 24
    expStatSn := be32 h 28
    text := parsePairs data }
  else if opcodeOf h = TEXT_REQ then .text {
    final_ := flag h 1 0x80
    continue_ := flag h 1 0x40
    lun := be64 h 8
    itt := be32 h 16
    ttt := be32 h 20
    cmdSn := be32 h 24
    expStatSn := be32 h 28
    text := parsePairs data }
  else if opcodeOf h = SCSI_COMMAND then .scsiCommand {
    final_ := flag h 1 0x80
    read := flag h 1 0x40
    write := flag h 1 0x20
    attr := byte h 1 &&& 0x07
    lun := be64 h 8
    itt := be32 h 16
    edtl := be32 h 20
    cmdSn := be32 h 24
    expStatSn := be32 h 28
    cdb := cdbOf h hlen
    data := data }
  else if opcodeOf h = DATA_OUT then .dataOut {
    final_ := flag h 1 0x80
    lun := be64 h 8
    itt := be32 h 16
    ttt := be32 h 20
    expStatSn := be32 h 28
    dataSn := be32 h 36
    bufferOffset := be32 h 40
    data := data }
  else if opcodeOf h = NOP_OUT then .nopOut {
    lun := be64 h 8
    itt := be32 h 16
    ttt := be32 h 20
    cmdSn := be32 h 24
    expStatSn := be32 h 28
    data := data }
  else if opcodeOf h = LOGOUT_REQ then .logout {
    reason := byte h 1 &&& 0x7f
    itt := be32 h 16
    cid := be16 h 20
    cmdSn := be32 h 24
    expStatSn := be32 h 28 }
  else if opcodeOf h = TASK_MGMT then .taskMgmt {
    function := byte h 1 &&& 0x7f
    lun := be64 h 8
    itt := be32 h 16
    refTaskTag := be32 h 20
    cmdSn := be32 h 24
    expStatSn := be32 h 28 }
  else .unsupported (opcodeOf h) (be32 h 16)

/-- Decode one PDU from the front of `buf`: the request and the bytes consumed. -/
def decode (buf : List UInt8) : Except PduError (Request × ℕ) :=
  if hlong : buf.length < BHS_LEN then .error .shortHeader
  else
    let h := slice buf 0 BHS_LEN
    have hlen : h.length = BHS_LEN := length_slice (by omega)
    if byte h 4 ≠ 0 then .error .unexpectedAhs
    else if MAX_DATA_SEGMENT < be24 h 5 then .error .dataSegmentTooLong
    else
      let total := BHS_LEN + be24 h 5 + pad4 (be24 h 5)
      if buf.length < total then .error .shortData
      else .ok (requestOf h hlen (slice buf BHS_LEN (be24 h 5)), total)

/-- What `decode` does with a complete header. -/
theorem decode_long {buf hdr : List UInt8} (hlen : hdr.length = BHS_LEN)
    (hlong : BHS_LEN ≤ buf.length) (hhdr : slice buf 0 BHS_LEN = hdr) :
    decode buf =
      if byte hdr 4 ≠ 0 then .error .unexpectedAhs
      else if MAX_DATA_SEGMENT < be24 hdr 5 then .error .dataSegmentTooLong
      else if buf.length < BHS_LEN + be24 hdr 5 + pad4 (be24 hdr 5) then .error .shortData
      else .ok (requestOf hdr hlen (slice buf BHS_LEN (be24 hdr 5)),
        BHS_LEN + be24 hdr 5 + pad4 (be24 hdr 5)) := by
  subst hhdr
  rw [decode, dif_neg (Nat.not_lt.2 hlong)]

/-- A decoded PDU has its header at the front of the buffer, and its data behind it. -/
theorem decode_eq_ok {buf : List UInt8} {req : Request} {used : ℕ} :
    decode buf = .ok (req, used) ↔
      ∃ (hdr : List UInt8) (hlen : hdr.length = BHS_LEN), slice buf 0 BHS_LEN = hdr ∧
        byte hdr 4 = 0 ∧ be24 hdr 5 ≤ MAX_DATA_SEGMENT ∧
        used = BHS_LEN + be24 hdr 5 + pad4 (be24 hdr 5) ∧ used ≤ buf.length ∧
        req = requestOf hdr hlen (slice buf BHS_LEN (be24 hdr 5)) := by
  constructor
  · intro h
    by_cases hlong : BHS_LEN ≤ buf.length
    · have hlen : (slice buf 0 BHS_LEN).length = BHS_LEN := length_slice (by omega)
      rw [decode_long hlen hlong rfl] at h
      split at h
      · cases h
      · split at h
        · cases h
        · split at h
          · cases h
          · rename_i hahs hshort hcomplete
            cases h
            exact ⟨_, hlen, rfl, Decidable.not_not.1 hahs, Nat.not_lt.1 hshort, rfl,
              Nat.not_lt.1 hcomplete, rfl⟩
    · rw [decode, dif_pos (Nat.not_le.1 hlong)] at h
      cases h
  · rintro ⟨hdr, hlen, hhdr, hahs, hshort, rfl, hcomplete, rfl⟩
    rw [decode_long hlen (by omega) hhdr, if_neg (not_not.2 hahs), if_neg (Nat.not_lt.2 hshort),
      if_neg (Nat.not_lt.2 hcomplete)]

structure LoginResponse where
  transit : Bool
  continue_ : Bool
  csg : UInt8
  nsg : UInt8
  versionMax : UInt8
  versionActive : UInt8
  isid : Isid
  tsih : UInt16
  itt : UInt32
  statSn : UInt32
  expCmdSn : UInt32
  maxCmdSn : UInt32
  statusClass : UInt8
  statusDetail : UInt8
  text : List (String × String)
  deriving DecidableEq

structure TextResponse where
  final_ : Bool
  continue_ : Bool
  itt : UInt32
  ttt : UInt32
  statSn : UInt32
  expCmdSn : UInt32
  maxCmdSn : UInt32
  text : List (String × String)
  deriving DecidableEq

structure ScsiResponse where
  response : UInt8
  status : UInt8
  itt : UInt32
  statSn : UInt32
  expCmdSn : UInt32
  maxCmdSn : UInt32
  residual : UInt32
  sense : List UInt8
  deriving DecidableEq

structure ScsiDataIn where
  final_ : Bool
  ack : Bool
  hasStatus : Bool
  status : UInt8
  lun : UInt64
  itt : UInt32
  ttt : UInt32
  statSn : UInt32
  expCmdSn : UInt32
  maxCmdSn : UInt32
  dataSn : UInt32
  bufferOffset : UInt32
  data : List UInt8
  deriving DecidableEq

structure R2t where
  lun : UInt64
  itt : UInt32
  ttt : UInt32
  statSn : UInt32
  expCmdSn : UInt32
  maxCmdSn : UInt32
  r2tSn : UInt32
  bufferOffset : UInt32
  desiredLength : UInt32
  deriving DecidableEq

structure NopIn where
  lun : UInt64
  itt : UInt32
  ttt : UInt32
  statSn : UInt32
  expCmdSn : UInt32
  maxCmdSn : UInt32
  data : List UInt8
  deriving DecidableEq

structure LogoutResponse where
  response : UInt8
  statSn : UInt32
  expCmdSn : UInt32
  maxCmdSn : UInt32
  deriving DecidableEq

structure TaskMgmtResponse where
  response : UInt8
  itt : UInt32
  statSn : UInt32
  expCmdSn : UInt32
  maxCmdSn : UInt32
  deriving DecidableEq

structure Reject where
  reason : UInt8
  statSn : UInt32
  expCmdSn : UInt32
  maxCmdSn : UInt32
  /-- The rejected PDU's header. -/
  header : List UInt8
  deriving DecidableEq

inductive Outbound where
  | login (r : LoginResponse)
  | scsiResp (r : ScsiResponse)
  | dataIn (r : ScsiDataIn)
  | r2t (r : R2t)
  | nopIn (r : NopIn)
  | text (r : TextResponse)
  | logout (r : LogoutResponse)
  | taskMgmt (r : TaskMgmtResponse)
  | reject (r : Reject)
  deriving DecidableEq

/-- The ExpCmdSN that a response advertises. -/
def Outbound.expCmdSn : Outbound → UInt32
  | .login r => r.expCmdSn
  | .scsiResp r => r.expCmdSn
  | .dataIn r => r.expCmdSn
  | .r2t r => r.expCmdSn
  | .nopIn r => r.expCmdSn
  | .text r => r.expCmdSn
  | .logout r => r.expCmdSn
  | .taskMgmt r => r.expCmdSn
  | .reject r => r.expCmdSn

def Outbound.maxCmdSn : Outbound → UInt32
  | .login r => r.maxCmdSn
  | .scsiResp r => r.maxCmdSn
  | .dataIn r => r.maxCmdSn
  | .r2t r => r.maxCmdSn
  | .nopIn r => r.maxCmdSn
  | .text r => r.maxCmdSn
  | .logout r => r.maxCmdSn
  | .taskMgmt r => r.maxCmdSn
  | .reject r => r.maxCmdSn

end XBoot.Iscsi
