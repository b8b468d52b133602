import XBoot.IscsiPdu
import XBoot.PlacedFields

/-!
# Encoding of the target's PDUs

Every response fills a header of zeros field by field and hangs its data segment on it;
`frame` writes the low three bytes of the segment's length and pads it to four bytes.
-/

namespace XBoot.Iscsi

open ListSlices BigEndian PlacedFields

def NOP_IN : UInt8 := 0x20
def SCSI_RESP : UInt8 := 0x21
def TASK_MGMT_RESP : UInt8 := 0x22
def LOGIN_RESP : UInt8 := 0x23
def TEXT_RESP : UInt8 := 0x24
def DATA_IN : UInt8 := 0x25
def LOGOUT_RESP : UInt8 := 0x26
def R2T : UInt8 := 0x31
def REJECT : UInt8 := 0x3f

/-- Encode pairs into a text segment: each `Key=Value` followed by a NUL. -/
def encodePairs (pairs : List (String × String)) : List UInt8 :=
  pairs.flatMap fun kv => Utf8.encode kv.1 ++ [61] ++ Utf8.encode kv.2 ++ [0]

/-- A header with the given fields, zero elsewhere. -/
def bhsOf (fields : List (ℕ × List UInt8)) : List UInt8 :=
  place (List.replicate BHS_LEN 0) fields

def put16 (off : ℕ) (v : UInt16) : ℕ × List UInt8 := (off, toBe 2 v.toNat)
def put32 (off : ℕ) (v : UInt32) : ℕ × List UInt8 := (off, toBe 4 v.toNat)
def put64 (off : ℕ) (v : UInt64) : ℕ × List UInt8 := (off, toBe 8 v.toNat)

def bit (b : Bool) (mask : UInt8) : UInt8 := if b then mask else 0

/-- A header and its data segment as sent: the segment's length goes into bytes 5..8, and
the segment is padded to four bytes. -/
def frame (bhs data : List UInt8) : List UInt8 :=
  overwrite bhs 5 (toBe 3 data.length) ++ data ++ List.replicate (pad4 data.length) 0

/-- The fields of a response's header, in the order in which they are written. -/
def LoginResponse.fields (r : LoginResponse) : List (ℕ × List UInt8) :=
  [(0, [LOGIN_RESP]),
    (1, [bit r.transit 0x80 ||| bit r.continue_ 0x40 ||| ((r.csg &&& 0x3) <<< 2) ||| (r.nsg &&& 0x3)]),
    (2, [r.versionMax]), (3, [r.versionActive]), (8, r.isid.1), put16 14 r.tsih, put32 16 r.itt,
    put32 24 r.statSn, put32 28 r.expCmdSn, put32 32 r.maxCmdSn, (36, [r.statusClass]),
    (37, [r.statusDetail])]

def LoginResponse.encode (r : LoginResponse) : List UInt8 :=
  frame (bhsOf r.fields) (encodePairs r.text)

def TextResponse.fields (r : TextResponse) : List (ℕ × List UInt8) :=
  [(0, [TEXT_RESP]), (1, [bit r.final_ 0x80 ||| bit r.continue_ 0x40]), put32 16 r.itt,
    put32 20 r.ttt, put32 24 r.statSn, put32 28 r.expCmdSn, put32 32 r.maxCmdSn]

def TextResponse.encode (r : TextResponse) : List UInt8 :=
  frame (bhsOf r.fields) (encodePairs r.text)

def ScsiResponse.fields (r : ScsiResponse) : List (ℕ × List UInt8) :=
  [(0, [SCSI_RESP]), (1, [0x80]), (2, [r.response]), (3, [r.status]), put32 16 r.itt,
    put32 24 r.statSn, put32 28 r.expCmdSn, put32 32 r.maxCmdSn, put32 44 r.residual]

def ScsiResponse.encode (r : ScsiResponse) : List UInt8 := frame (bhsOf r.fields) r.sense

def ScsiDataIn.fields (r : ScsiDataIn) : List (ℕ × List UInt8) :=
  [(0, [DATA_IN]), (1, [bit r.final_ 0x80 ||| bit r.ack 0x40 ||| bit r.hasStatus 0x01]),
    (3, [r.status]), put64 8 r.lun, put32 16 r.itt, put32 20 r.ttt, put32 24 r.statSn,
    put32 28 r.expCmdSn, put32 32 r.maxCmdSn, put32 36 r.dataSn, put32 40 r.bufferOffset]

def ScsiDataIn.encode (r : ScsiDataIn) : List UInt8 := frame (bhsOf r.fields) r.data

def R2t.fields (r : R2t) : List (ℕ × List UInt8) :=
  [(0, [R2T]), (1, [0x80]), put64 8 r.lun, put32 16 r.itt, put32 20 r.ttt, put32 24 r.statSn,
    put32 28 r.expCmdSn, put32 32 r.maxCmdSn, put32 36 r.r2tSn, put32 40 r.bufferOffset,
    put32 44 r.desiredLength]

def R2t.encode (r : R2t) : List UInt8 := frame (bhsOf r.fields) []

def NopIn.fields (r : NopIn) : List (ℕ × List UInt8) :=
  [(0, [NOP_IN]), (1, [0x80]), put64 8 r.lun, put32 16 r.itt, put32 20 r.ttt, put32 24 r.statSn,
    put32 28 r.expCmdSn, put32 32 r.maxCmdSn]

def NopIn.encode (r : NopIn) : List UInt8 := frame (bhsOf r.fields) r.data

def LogoutResponse.fields (r : LogoutResponse) : List (ℕ × List UInt8) :=
  [(0, [LOGOUT_RESP]), (1, [0x80]), (2, [r.response]), put32 24 r.statSn, put32 28 r.expCmdSn,
    put32 32 r.maxCmdSn]

def LogoutResponse.encode (r : LogoutResponse) : List UInt8 := frame (bhsOf r.fields) []

def TaskMgmtResponse.fields (r : TaskMgmtResponse) : List (ℕ × List UInt8) :=
  [(0, [TASK_MGMT_RESP]), (1, [0x80]), (2, [r.response]), put32 16 r.itt, put32 24 r.statSn,
    put32 28 r.expCmdSn, put32 32 r.maxCmdSn]

def TaskMgmtResponse.encode (r : TaskMgmtResponse) : List UInt8 := frame (bhsOf r.fields) []

def Reject.fields (r : Reject) : List (ℕ × List UInt8) :=
  [(0, [REJECT]), (1, [0x80]), (2, [r.reason]), put32 24 r.statSn, put32 28 r.expCmdSn,
    put32 32 r.maxCmdSn]

def Reject.encode (r : Reject) : List UInt8 := frame (bhsOf r.fields) r.header

namespace Outbound

def encode : Outbound → List UInt8
  | .login r => r.encode
  | .scsiResp r => r.encode
  | .dataIn r => r.encode
  | .r2t r => r.encode
  | .nopIn r => r.encode
  | .text r => r.encode
  | .logout r => r.encode
  | .taskMgmt r => r.encode
  | .reject r => r.encode

def fields : Outbound → List (ℕ × List UInt8)
  | .login r => r.fields
  | .scsiResp r => r.fields
  | .dataIn r => r.fields
  | .r2t r => r.fields
  | .nopIn r => r.fields
  | .text r => r.fields
  | .logout r => r.fields
  | .taskMgmt r => r.fields
  | .reject r => r.fields

def segment : Outbound → List UInt8
  | .login r => encodePairs r.text
  | .scsiResp r => r.sense
  | .dataIn r => r.data
  | .r2t _ => []
  | .nopIn r => r.data
  | .text r => encodePairs r.text
  | .logout _ => []
  | .taskMgmt _ => []
  | .reject r => r.header

variable (o : Outbound)

theorem encode_eq : o.encode = frame (bhsOf o.fields) o.segment := by cases o <;> rfl

/-- The fields of every header are apart, and leave bytes 5 to 7 to the segment's length. -/
theorem layout_fields : Layout BHS_LEN (places o.fields) ∧
    ∀ p ∈ places o.fields, Avoids 5 3 p := by
  cases o with
  | login r =>
    have hisid := r.isid.2
    refine ⟨⟨?_, ?_⟩, ?_⟩ <;>
      simp [places, fields, LoginResponse.fields, put16, put32, hisid, Avoids, BHS_LEN]
  | scsiResp r =>
    refine ⟨⟨?_, ?_⟩, ?_⟩ <;> simp [places, fields, ScsiResponse.fields, put32, Avoids, BHS_LEN]
  | dataIn r =>
    refine ⟨⟨?_, ?_⟩, ?_⟩ <;>
      simp [places, fields, ScsiDataIn.fields, put32, put64, Avoids, BHS_LEN]
  | r2t r =>
    refine ⟨⟨?_, ?_⟩, ?_⟩ <;> simp [places, fields, R2t.fields, put32, put64, Avoids, BHS_LEN]
  | nopIn r =>
    refine ⟨⟨?_, ?_⟩, ?_⟩ <;> simp [places, fields, NopIn.fields, put32, put64, Avoids, BHS_LEN]
  | text r =>
    refine ⟨⟨?_, ?_⟩, ?_⟩ <;> simp [places, fields, TextResponse.fields, put32, Avoids, BHS_LEN]
  | logout r =>
    refine ⟨⟨?_, ?_⟩, ?_⟩ <;> simp [places, fields, LogoutResponse.fields, put32, Avoids, BHS_LEN]
  | taskMgmt r =>
    refine ⟨⟨?_, ?_⟩, ?_⟩ <;> simp [places, fields, TaskMgmtResponse.fields, put32, Avoids, BHS_LEN]
  | reject r =>
    refine ⟨⟨?_, ?_⟩, ?_⟩ <;> simp [places, fields, Reject.fields, put32, Avoids, BHS_LEN]

theorem length_bhs : (bhsOf o.fields).length = BHS_LEN := by
  have hzeros : (List.replicate BHS_LEN (0 : UInt8)).length = BHS_LEN := List.length_replicate
  rw [bhsOf, length_place, hzeros]
  rw [hzeros]
  exact o.layout_fields.1.inside

private theorem lengthField_fits :
    5 + (toBe 3 o.segment.length).length ≤ (bhsOf o.fields).length := by
  rw [o.length_bhs, length_toBe]
  decide

/-- The header as sent, with the segment's length in it. -/
theorem length_header :
    (overwrite (bhsOf o.fields) 5 (toBe 3 o.segment.length)).length = BHS_LEN := by
  rw [length_overwrite o.lengthField_fits, o.length_bhs]

theorem length_encode :
    o.encode.length = BHS_LEN + o.segment.length + pad4 o.segment.length := by
  rw [encode_eq, frame, List.length_append, List.length_append, o.length_header,
    List.length_replicate]

theorem slice_encode {pos len : ℕ} (hin : pos + len ≤ BHS_LEN) (havoid : Avoids pos len (5, 3)) :
    slice o.encode pos len = slice (bhsOf o.fields) pos len := by
  rw [encode_eq, frame, List.append_assoc, slice_append_left (by rw [o.length_header]; exact hin)]
  refine slice_overwrite_of_disjoint o.lengthField_fits ?_
  rw [length_toBe]
  exact havoid

theorem slice_field {field : ℕ × List UInt8} (h : field ∈ o.fields) :
    slice o.encode field.1 field.2.length = field.2 := by
  have hplace : (field.1, field.2.length) ∈ places o.fields := List.mem_map.2 ⟨field, h, rfl⟩
  obtain ⟨hlayout, havoid⟩ := o.layout_fields
  have hzeros : (List.replicate BHS_LEN (0 : UInt8)).length = BHS_LEN := List.length_replicate
  rw [o.slice_encode (hlayout.inside _ hplace) (havoid _ hplace).symm]
  exact slice_place_of_mem (by rw [hzeros]; exact hlayout) h

theorem slice_gap {pos len : ℕ} (hin : pos + len ≤ BHS_LEN) (hlength : Avoids pos len (5, 3))
    (h : ∀ p ∈ places o.fields, Avoids pos len p) : slice o.encode pos len = List.replicate len 0 := by
  have hzeros : (List.replicate BHS_LEN (0 : UInt8)).length = BHS_LEN := List.length_replicate
  rw [o.slice_encode hin hlength, bhsOf, slice_place_of_avoids (by
    rw [hzeros]; exact o.layout_fields.1.inside) h, slice, List.drop_replicate, List.take_replicate,
    Nat.min_eq_left (by omega)]

theorem slice_length : slice o.encode 5 3 = toBe 3 o.segment.length := by
  rw [encode_eq, frame, List.append_assoc, slice_append_left (by rw [o.length_header]; decide)]
  have hread := slice_overwrite_of_subset o.lengthField_fits (Nat.le_refl 5) (Nat.le_refl _)
  rw [Nat.sub_self, slice_all, length_toBe] at hread
  exact hread

end Outbound

end XBoot.Iscsi
