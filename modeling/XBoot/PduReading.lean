import XBoot.CommandWindow
import XBoot.DataInSequences
import XBoot.SegmentLengths
import XBoot.TextSegments
import XBoot.Transport

/-!
# What the initiator reads

The fields of every response are read back from its bytes. A session's initiator, which cuts its
stream at the announced lengths, so gets the very PDUs that the target meant.
-/

namespace XBoot.Iscsi

open ListSlices BigEndian StreamReaders Storage Numerals Utf8

def segmentAt (pdu : List UInt8) : List UInt8 := slice pdu BHS_LEN (be24 pdu 5)

def isidAt (pdu : List UInt8) (hlong : BHS_LEN ≤ pdu.length) : Isid :=
  ⟨slice pdu 8 6, length_slice (Nat.le_trans (by decide) hlong)⟩

def LoginResponse.read (pdu : List UInt8) (hlong : BHS_LEN ≤ pdu.length) : LoginResponse where
  transit := flag pdu 1 0x80
  continue_ := flag pdu 1 0x40
  csg := (byte pdu 1 >>> 2) &&& 0x3
  nsg := byte pdu 1 &&& 0x3
  versionMax := byte pdu 2
  versionActive := byte pdu 3
  isid := isidAt pdu hlong
  tsih := be16 pdu 14
  itt := be32 pdu 16
  statSn := be32 pdu 24
  expCmdSn := be32 pdu 28
  maxCmdSn := be32 pdu 32
  statusClass := byte pdu 36
  statusDetail := byte pdu 37
  text := parsePairs (segmentAt pdu)

def TextResponse.read (pdu : List UInt8) : TextResponse where
  final_ := flag pdu 1 0x80
  continue_ := flag pdu 1 0x40
  itt := be32 pdu 16
  ttt := be32 pdu 20
  statSn := be32 pdu 24
  expCmdSn := be32 pdu 28
  maxCmdSn := be32 pdu 32
  text := parsePairs (segmentAt pdu)

def ScsiResponse.read (pdu : List UInt8) : ScsiResponse where
  response := byte pdu 2
  status := byte pdu 3
  itt := be32 pdu 16
  statSn := be32 pdu 24
  expCmdSn := be32 pdu 28
  maxCmdSn := be32 pdu 32
  residual := be32 pdu 44
  sense := segmentAt pdu

def ScsiDataIn.read (pdu : List UInt8) : ScsiDataIn where
  final_ := flag pdu 1 0x80
  ack := flag pdu 1 0x40
  hasStatus := flag pdu 1 0x01
  status := byte pdu 3
  lun := be64 pdu 8
  itt := be32 pdu 16
  ttt := be32 pdu 20
  statSn := be32 pdu 24
  expCmdSn := be32 pdu 28
  maxCmdSn := be32 pdu 32
  dataSn := be32 pdu 36
  bufferOffset := be32 pdu 40
  data := segmentAt pdu

def R2t.read (pdu : List UInt8) : R2t where
  lun := be64 pdu 8
  itt := be32 pdu 16
  ttt := be32 pdu 20
  statSn := be32 pdu 24
  expCmdSn := be32 pdu 28
  maxCmdSn := be32 pdu 32
  r2tSn := be32 pdu 36
  bufferOffset := be32 pdu 40
  desiredLength := be32 pdu 44

def NopIn.read (pdu : List UInt8) : NopIn where
  lun := be64 pdu 8
  itt := be32 pdu 16
  ttt := be32 pdu 20
  statSn := be32 pdu 24
  expCmdSn := be32 pdu 28
  maxCmdSn := be32 pdu 32
  data := segmentAt pdu

def LogoutResponse.read (pdu : List UInt8) : LogoutResponse where
  response := byte pdu 2
  statSn := be32 pdu 24
  expCmdSn := be32 pdu 28
  maxCmdSn := be32 pdu 32

def TaskMgmtResponse.read (pdu : List UInt8) : TaskMgmtResponse where
  response := byte pdu 2
  itt := be32 pdu 16
  statSn := be32 pdu 24
  expCmdSn := be32 pdu 28
  maxCmdSn := be32 pdu 32

def Reject.read (pdu : List UInt8) : Reject where
  reason := byte pdu 2
  statSn := be32 pdu 24
  expCmdSn := be32 pdu 28
  maxCmdSn := be32 pdu 32
  header := segmentAt pdu

def readPdu (pdu : List UInt8) : Option Outbound :=
  if hlong : BHS_LEN ≤ pdu.length then
    if byte pdu 0 = LOGIN_RESP then some (.login (.read pdu hlong))
    else if byte pdu 0 = SCSI_RESP then some (.scsiResp (.read pdu))
    else if byte pdu 0 = DATA_IN then some (.dataIn (.read pdu))
    else if byte pdu 0 = R2T then some (.r2t (.read pdu))
    else if byte pdu 0 = NOP_IN then some (.nopIn (.read pdu))
    else if byte pdu 0 = TEXT_RESP then some (.text (.read pdu))
    else if byte pdu 0 = LOGOUT_RESP then some (.logout (.read pdu))
    else if byte pdu 0 = TASK_MGMT_RESP then some (.taskMgmt (.read pdu))
    else if byte pdu 0 = REJECT then some (.reject (.read pdu))
    else none
  else none

/-- A PDU whose texts a segment can hold, and whose login stages have two bits. -/
def Outbound.Readable : Outbound → Prop
  | .login r => r.csg < 4 ∧ r.nsg < 4 ∧ ∀ kv ∈ r.text, TextPair kv
  | .text r => ∀ kv ∈ r.text, TextPair kv
  | _ => True

theorem byte_eq (pdu : List UInt8) (off : ℕ) : byte pdu off = (slice pdu off 1).headD 0 := by
  rw [byte, slice, List.getD_eq_getElem?_getD, ← List.head?_drop]
  cases pdu.drop off <;> rfl

theorem ofNat_ofBe_toBe16 (v : UInt16) : UInt16.ofNat (ofBe (toBe 2 v.toNat)) = v := by
  rw [ofBe_toBe_of_lt v.toNat_lt, UInt16.ofNat_toNat]

theorem ofNat_ofBe_toBe32 (v : UInt32) : UInt32.ofNat (ofBe (toBe 4 v.toNat)) = v := by
  rw [ofBe_toBe_of_lt v.toNat_lt, UInt32.ofNat_toNat]

theorem ofNat_ofBe_toBe64 (v : UInt64) : UInt64.ofNat (ofBe (toBe 8 v.toNat)) = v := by
  rw [ofBe_toBe_of_lt v.toNat_lt, UInt64.ofNat_toNat]

theorem two_bits {b : UInt8} (h : b < 4) : b = 0 ∨ b = 1 ∨ b = 2 ∨ b = 3 := by
  have hlt : b.toNat < 4 := h
  have hcases : b.toNat = 0 ∨ b.toNat = 1 ∨ b.toNat = 2 ∨ b.toNat = 3 := by omega
  simp only [← UInt8.toNat_inj]
  exact hcases

theorem login_bits (transit continue_ : Bool) {csg nsg b : UInt8} (hcsg : csg < 4) (hnsg : nsg < 4)
    (hb : b = bit transit 0x80 ||| bit continue_ 0x40 ||| ((csg &&& 0x3) <<< 2) ||| (nsg &&& 0x3)) :
    (b &&& 0x80 != 0) = transit ∧ (b &&& 0x40 != 0) = continue_ ∧ (b >>> 2) &&& 0x3 = csg ∧
      b &&& 0x3 = nsg := by
  subst hb
  rcases two_bits hcsg with rfl | rfl | rfl | rfl <;>
    rcases two_bits hnsg with rfl | rfl | rfl | rfl <;>
      cases transit <;> cases continue_ <;> decide

theorem dataIn_bits (final_ ack hasStatus : Bool) {b : UInt8}
    (hb : b = bit final_ 0x80 ||| bit ack 0x40 ||| bit hasStatus 0x01) :
    (b &&& 0x80 != 0) = final_ ∧ (b &&& 0x40 != 0) = ack ∧ (b &&& 0x01 != 0) = hasStatus := by
  subst hb
  cases final_ <;> cases ack <;> cases hasStatus <;> decide

theorem text_bits (final_ continue_ : Bool) {b : UInt8}
    (hb : b = bit final_ 0x80 ||| bit continue_ 0x40) :
    (b &&& 0x80 != 0) = final_ ∧ (b &&& 0x40 != 0) = continue_ := by
  subst hb
  cases final_ <;> cases continue_ <;> decide

namespace Outbound

variable (o : Outbound)

theorem le_length_encode : BHS_LEN ≤ o.encode.length := by
  rw [length_encode]
  omega

variable {o}

theorem segmentAt_encode (h : o.segment.length < 2 ^ 24) : segmentAt o.encode = o.segment := by
  rw [segmentAt, be24_encode h, encode_eq, frame, List.append_assoc,
    slice_append_right (by rw [o.length_header]), o.length_header, Nat.sub_self,
    slice_append_left (by rw [Nat.zero_add]), slice_all]

end Outbound

theorem LoginResponse.read_encode {r : LoginResponse} (hreadable : (Outbound.login r).Readable)
    (hshort : (Outbound.login r).segment.length < 2 ^ 24) :
    .read (Outbound.login r).encode (Outbound.login r).le_length_encode = r := by
  obtain ⟨hcsg, hnsg, htext⟩ := hreadable
  obtain ⟨htransit, hcontinue, hcsg', hnsg'⟩ := login_bits r.transit r.continue_ hcsg hnsg rfl
  have hpairs : parsePairs (segmentAt (Outbound.login r).encode) = r.text := by
    rw [Outbound.segmentAt_encode hshort]
    exact parsePairs_encodePairs htext
  have hfields : ∀ f ∈ (Outbound.login r).fields, _ := fun f hf => (Outbound.login r).slice_field hf
  simp only [Outbound.fields, fields, put16, put32, List.forall_mem_cons, length_toBe,
    List.length_singleton, r.isid.2] at hfields
  simp only [read, byte_eq, flag, be16, be32, isidAt, hfields, List.headD_cons, ofNat_ofBe_toBe16,
    ofNat_ofBe_toBe32, hpairs, htransit, hcontinue, hcsg', hnsg']

theorem TextResponse.read_encode {r : TextResponse} (hreadable : (Outbound.text r).Readable)
    (hshort : (Outbound.text r).segment.length < 2 ^ 24) : .read (Outbound.text r).encode = r := by
  obtain ⟨hfinal, hcontinue⟩ := text_bits r.final_ r.continue_ rfl
  have hpairs : parsePairs (segmentAt (Outbound.text r).encode) = r.text := by
    rw [Outbound.segmentAt_encode hshort]
    exact parsePairs_encodePairs hreadable
  have hfields : ∀ f ∈ (Outbound.text r).fields, _ := fun f hf => (Outbound.text r).slice_field hf
  simp only [Outbound.fields, fields, put32, List.forall_mem_cons, length_toBe,
    List.length_singleton] at hfields
  simp only [read, byte_eq, flag, be32, hfields, List.headD_cons, ofNat_ofBe_toBe32, hpairs, hfinal,
    hcontinue]

theorem ScsiDataIn.read_encode {r : ScsiDataIn}
    (hshort : (Outbound.dataIn r).segment.length < 2 ^ 24) : .read (Outbound.dataIn r).encode = r := by
  obtain ⟨hfinal, hack, hstatus⟩ := dataIn_bits r.final_ r.ack r.hasStatus rfl
  have hsegment : segmentAt (Outbound.dataIn r).encode = r.data := Outbound.segmentAt_encode hshort
  have hfields : ∀ f ∈ (Outbound.dataIn r).fields, _ := fun f hf => (Outbound.dataIn r).slice_field hf
  simp only [Outbound.fields, fields, put32, put64, List.forall_mem_cons, length_toBe,
    List.length_singleton] at hfields
  simp only [read, byte_eq, flag, be32, be64, hfields, List.headD_cons, ofNat_ofBe_toBe32,
    ofNat_ofBe_toBe64, hsegment, hfinal, hack, hstatus]

theorem ScsiResponse.read_encode {r : ScsiResponse}
    (hshort : (Outbound.scsiResp r).segment.length < 2 ^ 24) : .read (Outbound.scsiResp r).encode = r := by
  have hsegment : segmentAt (Outbound.scsiResp r).encode = r.sense := Outbound.segmentAt_encode hshort
  have hfields : ∀ f ∈ (Outbound.scsiResp r).fields, _ := fun f hf => (Outbound.scsiResp r).slice_field hf
  simp only [Outbound.fields, fields, put32, List.forall_mem_cons, length_toBe,
    List.length_singleton] at hfields
  simp only [read, byte_eq, be32, hfields, List.headD_cons, ofNat_ofBe_toBe32, hsegment]

theorem R2t.read_encode (r : R2t) : .read (Outbound.r2t r).encode = r := by
  have hfields : ∀ f ∈ (Outbound.r2t r).fields, _ := fun f hf => (Outbound.r2t r).slice_field hf
  simp only [Outbound.fields, fields, put32, put64, List.forall_mem_cons, length_toBe,
    List.length_singleton] at hfields
  simp only [read, be32, be64, hfields, ofNat_ofBe_toBe32, ofNat_ofBe_toBe64]

theorem NopIn.read_encode {r : NopIn}
    (hshort : (Outbound.nopIn r).segment.length < 2 ^ 24) : .read (Outbound.nopIn r).encode = r := by
  have hsegment : segmentAt (Outbound.nopIn r).encode = r.data := Outbound.segmentAt_encode hshort
  have hfields : ∀ f ∈ (Outbound.nopIn r).fields, _ := fun f hf => (Outbound.nopIn r).slice_field hf
  simp only [Outbound.fields, fields, put32, put64, List.forall_mem_cons, length_toBe,
    List.length_singleton] at hfields
  simp only [read, be32, be64, hfields, ofNat_ofBe_toBe32, ofNat_ofBe_toBe64, hsegment]

theorem LogoutResponse.read_encode (r : LogoutResponse) : .read (Outbound.logout r).encode = r := by
  have hfields : ∀ f ∈ (Outbound.logout r).fields, _ := fun f hf => (Outbound.logout r).slice_field hf
  simp only [Outbound.fields, fields, put32, List.forall_mem_cons, length_toBe,
    List.length_singleton] at hfields
  simp only [read, byte_eq, be32, hfields, List.headD_cons, ofNat_ofBe_toBe32]

theorem TaskMgmtResponse.read_encode (r : TaskMgmtResponse) : .read (Outbound.taskMgmt r).encode = r := by
  have hfields : ∀ f ∈ (Outbound.taskMgmt r).fields, _ := fun f hf => (Outbound.taskMgmt r).slice_field hf
  simp only [Outbound.fields, fields, put32, List.forall_mem_cons, length_toBe,
    List.length_singleton] at hfields
  simp only [read, byte_eq, be32, hfields, List.headD_cons, ofNat_ofBe_toBe32]

theorem Reject.read_encode {r : Reject}
    (hshort : (Outbound.reject r).segment.length < 2 ^ 24) : .read (Outbound.reject r).encode = r := by
  have hsegment : segmentAt (Outbound.reject r).encode = r.header := Outbound.segmentAt_encode hshort
  have hfields : ∀ f ∈ (Outbound.reject r).fields, _ := fun f hf => (Outbound.reject r).slice_field hf
  simp only [Outbound.fields, fields, put32, List.forall_mem_cons, length_toBe,
    List.length_singleton] at hfields
  simp only [read, byte_eq, be32, hfields, List.headD_cons, ofNat_ofBe_toBe32, hsegment]

/-- Every response is read back from its bytes. -/
theorem readPdu_encode {o : Outbound} (hreadable : o.Readable) (hshort : o.segment.length < 2 ^ 24) :
    readPdu o.encode = some o := by
  rw [readPdu, dif_pos o.le_length_encode]
  have hopcode {b : UInt8} (h : (0, [b]) ∈ o.fields) : byte o.encode 0 = b := by
    have hfield : slice o.encode 0 1 = [b] := o.slice_field h
    rw [byte_eq, hfield, List.headD_cons]
  cases o with
  | login r =>
    rw [hopcode List.mem_cons_self]
    exact congrArg (fun r => some (Outbound.login r)) (LoginResponse.read_encode hreadable hshort)
  | scsiResp r =>
    rw [hopcode List.mem_cons_self]
    exact congrArg (fun r => some (Outbound.scsiResp r)) (ScsiResponse.read_encode hshort)
  | dataIn r =>
    rw [hopcode List.mem_cons_self]
    exact congrArg (fun r => some (Outbound.dataIn r)) (ScsiDataIn.read_encode hshort)
  | r2t r =>
    rw [hopcode List.mem_cons_self]
    exact congrArg (fun r => some (Outbound.r2t r)) (R2t.read_encode r)
  | nopIn r =>
    rw [hopcode List.mem_cons_self]
    exact congrArg (fun r => some (Outbound.nopIn r)) (NopIn.read_encode hshort)
  | text r =>
    rw [hopcode List.mem_cons_self]
    exact congrArg (fun r => some (Outbound.text r)) (TextResponse.read_encode hreadable hshort)
  | logout r =>
    rw [hopcode List.mem_cons_self]
    exact congrArg (fun r => some (Outbound.logout r)) (LogoutResponse.read_encode r)
  | taskMgmt r =>
    rw [hopcode List.mem_cons_self]
    exact congrArg (fun r => some (Outbound.taskMgmt r)) (TaskMgmtResponse.read_encode r)
  | reject r =>
    rw [hopcode List.mem_cons_self]
    exact congrArg (fun r => some (Outbound.reject r)) (Reject.read_encode hshort)

variable {σ τ : Type}

/-- The stages that a request names have two bits. -/
def Request.StagesFit : Request → Prop
  | .login lr => lr.csg < 4 ∧ lr.nsg < 4
  | _ => True

theorem and_three_lt (b : UInt8) : b &&& 0x3 < 4 := by
  rw [UInt8.lt_iff_toNat_lt, UInt8.toNat_and]
  exact Nat.lt_succ_of_le Nat.and_le_right

theorem decode_stagesFit {buf : List UInt8} {req : Request} {used : ℕ}
    (h : decode buf = .ok (req, used)) : req.StagesFit := by
  obtain ⟨hdr, hlen, -, -, -, -, -, rfl⟩ := decode_eq_ok.1 h
  rw [requestOf]
  split
  · exact ⟨and_three_lt _, and_three_lt _⟩
  · repeat' split
    all_goals trivial

theorem nulFree_toString (n : ℕ) : NulFree (toString n) :=
  fun _ hc => (toNat_of_mem_toString hc).1.ne'

namespace Connection

variable {tg : Targets σ τ} {w w' : σ} {c c' : Connection τ} {pdus : List Outbound}
  {bhs : List UInt8} {req : Request}

theorem textPair_replyKeys (p : SessionParams) : ∀ kv ∈ replyKeys p, TextPair kv := by
  have hyesNo (b : Bool) : NulFree (yesNo b) := by
    cases b <;> simp [yesNo, NulFree]
  have hnone : NulFree "None" := by simp [NulFree]
  have hkey {key value : String} (hne : key ≠ "") (hnul : ∀ c ∈ key.toList, c.toNat ≠ 0)
      (hequals : ∀ c ∈ key.toList, c.toNat ≠ 61) (hvalue : NulFree value) : TextPair (key, value) :=
    ⟨hne, hnul, hequals, hvalue⟩
  simp only [replyKeys, List.forall_mem_cons]
  refine ⟨hkey ?_ ?_ ?_ (nulFree_toString _), hkey ?_ ?_ ?_ (nulFree_toString _),
    hkey ?_ ?_ ?_ (hyesNo _), hkey ?_ ?_ ?_ (hyesNo _), hkey ?_ ?_ ?_ hnone,
    hkey ?_ ?_ ?_ hnone, List.forall_mem_nil _⟩
  all_goals simp

theorem textPair_targetName {iqn : String} (h : NulFree iqn) : TextPair ("TargetName", iqn) := by
  refine ⟨?_, ?_, ?_, h⟩
  all_goals simp [NulFree]

private theorem readable_of_gives {pdu : Outbound} {next : Connection τ}
    (h : Gives ([pdu], next) pdus c') (hpdu : pdu.Readable) : ∀ pdu ∈ pdus, pdu.Readable := by
  cases h
  exact List.forall_mem_singleton.2 hpdu

theorem handleLogin_readable {lr : LoginRequest} (hcsg : lr.csg < 4) (hnsg : lr.nsg < 4)
    (h : Gives (c.handleLogin tg w lr) pdus c') : ∀ pdu ∈ pdus, pdu.Readable := by
  rw [handleLogin] at h
  split at h
  · exact readable_of_gives h ⟨hcsg, hcsg, List.forall_mem_nil _⟩
  · refine readable_of_gives h ⟨hcsg, hnsg, ?_⟩
    dsimp only
    split
    · exact textPair_replyKeys _
    · exact List.forall_mem_nil _

theorem Finishes.readable {p : PendingWrite} (h : Finishes tg w c p pdus c' w') :
    ∀ pdu ∈ pdus, pdu.Readable := by
  obtain ⟨target, outcome, -, -, hgives⟩ := h.executed
  exact readable_of_gives hgives trivial

theorem Commands.readable {cmd : ScsiCommand} (h : Commands tg w c bhs cmd pdus c' w') :
    ∀ pdu ∈ pdus, pdu.Readable := by
  cases h with
  | oversized _ _ hgives => exact readable_of_gives hgives trivial
  | gathers _ _ hgives => exact readable_of_gives hgives trivial
  | completes _ _ hfinishes => exact hfinishes.readable
  | @dataIn _ _ outcome _ _ _ hgives _ =>
    obtain ⟨rs, heq, -⟩ := dataInChunks_sent c cmd outcome.data 0 0
    cases heq.symm.trans hgives
    intro pdu hmem
    obtain ⟨r, -, rfl⟩ := List.mem_map.1 hmem
    trivial
  | responds _ _ hgives => exact readable_of_gives hgives trivial

theorem Feeds.readable {d : ScsiDataOut} (h : Feeds tg w c bhs d pdus c' w') :
    ∀ pdu ∈ pdus, pdu.Readable := by
  cases h with
  | unknown _ hgives => exact readable_of_gives hgives trivial
  | outside _ _ hgives => exact readable_of_gives hgives trivial
  | more _ _ _ hgives => exact readable_of_gives hgives trivial
  | last _ _ _ hfinishes => exact hfinishes.readable

/-- Every PDU that answers a request off the wire can be read, as long as the names of the
targets are texts. -/
theorem handle_readable (hreq : req.StagesFit) (hnames : ∀ iqn ∈ tg.iqns w, NulFree iqn)
    (h : c.handle tg w req bhs = .ok (pdus, c', w')) : ∀ pdu ∈ pdus, pdu.Readable := by
  cases handle_handles h with
  | login _ hgives => exact handleLogin_readable hreq.1 hreq.2 hgives
  | misplaced _ _ hgives => exact readable_of_gives hgives trivial
  | command _ _ hcommands => exact hcommands.readable
  | unbound _ _ hgives => exact readable_of_gives hgives trivial
  | dataOut _ hfeeds => exact hfeeds.readable
  | nopOut _ hgives => exact readable_of_gives hgives trivial
  | text _ hgives =>
    refine readable_of_gives hgives fun kv hkv => ?_
    dsimp only at hkv
    split at hkv
    · obtain ⟨iqn, hiqn, rfl⟩ := List.mem_map.1 hkv
      exact textPair_targetName (hnames iqn hiqn)
    · exact absurd hkv List.not_mem_nil
  | taskMgmt _ hgives => exact readable_of_gives hgives trivial
  | logout _ hgives => exact readable_of_gives hgives trivial
  | loginAgain _ hgives => exact readable_of_gives hgives trivial
  | unsupported _ hgives => exact readable_of_gives hgives trivial

end Connection

theorem Conversation.readable {tg : Targets σ τ} {ts : List (Turn σ τ)} {c : Connection τ}
    (h : Conversation tg ts c) (hreqs : ∀ t ∈ ts, t.req.StagesFit)
    (hnames : ∀ t ∈ ts, ∀ iqn ∈ tg.iqns t.before, NulFree iqn) : ∀ pdu ∈ sent ts, pdu.Readable := by
  intro pdu hmem
  obtain ⟨t, ht, hpdu⟩ := List.mem_flatMap.1 hmem
  exact Connection.handle_readable (hreqs t ht) (hnames t ht) (h.happens t ht) pdu hpdu

theorem handleConn_decoded (tg : Targets σ τ) (w : σ) (arrivals : List (Arrival UInt8)) :
    ∀ x ∈ (handleConn tg w arrivals).1.fed, ∃ buf used, decode buf = .ok (x.1, used) := by
  intro x hx
  rcases run_parsed arrivals _ [] x hx with hx | ⟨buf, used, hparse⟩
  · exact absurd hx List.not_mem_nil
  · exact ⟨buf, used, (decodeWithHeader_eq_ok.1 hparse).1⟩

/-- However an initiator's bytes arrive, the adapter answers them turn by turn; and however the
answer arrives, cutting it at the announced lengths and reading the fields of each piece gives
the PDUs of those turns, in order, as long as their segments have a length that a header can
tell and the names of the targets are texts. -/
theorem session_read_back (tg : Targets σ τ) (w : σ) (arrivals : List (Arrival UInt8)) :
    ∃ ts failed, Conversation tg ts (handleConn tg w arrivals).1.state.1 ∧
      (handleConn tg w arrivals).1.fed = (ts.map fun t => (t.req, t.bhs)) ++ failed ∧
      failed.length ≤ 1 ∧ (handleConn tg w arrivals).1.sent = (sent ts).flatMap Outbound.encode ∧
      ((∀ pdu ∈ sent ts, pdu.segment.length < 2 ^ 24) →
        (∀ t ∈ ts, ∀ iqn ∈ tg.iqns t.before, NulFree iqn) →
        ∀ answer, NonEmpty answer → streamOf answer = (handleConn tg w arrivals).1.sent →
          (run pduFraming pduReader answer (.start ()) []).1.fed.map readPdu =
            (sent ts).map some) := by
  obtain ⟨ts, failed, hconversation, hsent, hfed, hfailed⟩ := handleConn_conversation tg w arrivals
  refine ⟨ts, failed, hconversation, hfed, hfailed, hsent, fun hshort hnames answer hne hstream => ?_⟩
  have hreqs : ∀ t ∈ ts, t.req.StagesFit := by
    intro t ht
    have hmem : (t.req, t.bhs) ∈ (handleConn tg w arrivals).1.fed := by
      rw [hfed]
      exact List.mem_append_left _ (List.mem_map_of_mem ht)
    obtain ⟨buf, used, hdecode⟩ := handleConn_decoded tg w arrivals _ hmem
    exact decode_stagesFit hdecode
  have hreadable := hconversation.readable hreqs hnames
  rw [((inStep_of_short hshort).read answer hne (hstream.trans hsent)).1, List.map_map]
  exact List.map_congr_left fun pdu hmem => readPdu_encode (hreadable pdu hmem) (hshort pdu hmem)

private theorem handleConn_login (order : List String → List String) :
    (handleConn (World.targets order) oneTarget [.bytes loginPdu]).1.fed =
      [(.login (loginTo "a" 5), loginPdu.take BHS_LEN)] ∧
    (handleConn (World.targets order) oneTarget [.bytes loginPdu]).1.state.1.stage = .fullFeature := by
  have hempty : framing.parse [] = .error .shortHeader := rfl
  have hparse : framing.parse loginPdu =
      .ok ((.login (loginTo "a" 5), loginPdu.take BHS_LEN), loginPdu.length) := by
    have hdecode : decode loginPdu = .ok (.login (loginTo "a" 5), loginPdu.length) := by decide
    exact (decodeWithHeader_eq_ok (x := (.login (loginTo "a" 5), loginPdu.take BHS_LEN))).2
      ⟨hdecode, rfl⟩
  have hget : (World.targets order).get oneTarget "a" = some 0 := by
    have hregistered : World.get oneTarget "a" = some 0 := by decide
    exact hregistered
  obtain ⟨pdus, hlogin⟩ : ∃ pdus, (.new : Connection ℕ).handle (World.targets order) oneTarget
      (.login (loginTo "a" 5)) (loginPdu.take BHS_LEN) = .ok (pdus, .loggedIn 0 5, oneTarget) :=
    Connection.handle_loginTo _ hget
  have hhandle : (handler (World.targets order)).handle (.new, oneTarget)
      (.login (loginTo "a" 5), loginPdu.take BHS_LEN) =
      .ok (pdus.flatMap Outbound.encode, .loggedIn 0 5, oneTarget) := by
    rw [handler]
    dsimp only
    rw [hlogin]
  rw [handleConn, run_one hempty rfl hparse hhandle rfl]
  exact ⟨rfl, rfl⟩

private theorem first_login_short {order : List String → List String} {w w' : World} {lr : LoginRequest}
    {bhs : List UInt8} {pdus : List Outbound} {c : Connection ℕ}
    (h : (Connection.new : Connection ℕ).handle (World.targets order) w (.login lr) bhs =
      .ok (pdus, c, w')) : ∀ pdu ∈ pdus, pdu.segment.length < 2 ^ 24 := by
  cases Connection.handle_handles h with
  | login _ hgives =>
    exact fun pdu hpdu => (login_fits (Nat.le_refl 512) (.refl _) hgives pdu hpdu).lt_field
  | misplaced _ hclosing => cases hclosing lr rfl
  | loginAgain hstage => cases hstage

/-- The answer to a login is read back, however it arrives. -/
theorem login_read_back : ∃ t : Turn World ℕ, t.req = .login (loginTo "a" 5) ∧
    t.next.stage = .fullFeature ∧ ∀ answer, NonEmpty answer → streamOf answer =
      (handleConn (World.targets fun _ => ["a"]) oneTarget [.bytes loginPdu]).1.sent →
        (run pduFraming pduReader answer (.start ()) []).1.fed.map readPdu = t.pdus.map some := by
  obtain ⟨hfed, hstage⟩ := handleConn_login fun _ => ["a"]
  obtain ⟨ts, failed, hconversation, hturns, hfailed, -, hread⟩ :=
    session_read_back (World.targets fun _ => ["a"]) oneTarget [.bytes loginPdu]
  rw [hfed] at hturns
  generalize (handleConn (World.targets fun _ => ["a"]) oneTarget [.bytes loginPdu]).1.state.1 = c
    at hconversation hstage
  cases hconversation with
  | new => cases hstage
  | @turn before t hbefore hhappens =>
    -- one request was fed, so this is the only turn
    rw [List.map_append, List.append_assoc] at hturns
    have hnone : before = [] := by
      cases before with
      | nil => rfl
      | cons first rest =>
        have hlength := congrArg List.length hturns
        simp at hlength
    subst hnone
    obtain ⟨hreq, -⟩ := List.cons_eq_cons.1 hturns
    have hrequest : t.req = .login (loginTo "a" 5) := (congrArg Prod.fst hreq).symm
    have hlogin : t.conn.handle (World.targets fun _ => ["a"]) t.before t.req t.bhs =
      .ok (t.pdus, t.next, t.after) := hhappens
    rw [hbefore.eq_new, hrequest] at hlogin
    have hshort : ∀ pdu ∈ sent ([] ++ [t]), pdu.segment.length < 2 ^ 24 := by
      rw [sent_concat, sent_nil, List.nil_append]
      exact first_login_short hlogin
    refine ⟨t, hrequest, hstage, fun answer hne hstream => ?_⟩
    have hnames : ∀ t' ∈ [] ++ [t], ∀ iqn ∈ (World.targets fun _ => ["a"]).iqns t'.before,
        NulFree iqn := by
      intro t' _ iqn hiqn ch hch
      rw [List.mem_singleton.1 hiqn] at hch
      have hall : "a".toList.all (fun ch => decide (ch.toNat ≠ 0)) = true := by decide
      exact of_decide_eq_true (List.all_eq_true.1 hall ch hch)
    have hfields := hread hshort hnames answer hne hstream
    rwa [sent_concat, sent_nil, List.nil_append] at hfields

end XBoot.Iscsi
