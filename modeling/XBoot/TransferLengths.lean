import XBoot.ScsiTarget

/-!
# How much data a command produces

The length of the data that a target returns is fixed by the unit and the CDB alone:
neither EDTL nor the CDB's allocation length bounds it.
-/

namespace XBoot.Iscsi

open ListSlices BigEndian Utf8 Storage Volume

namespace LogicalUnit

variable (lu : LogicalUnit)

/-- Whether a read of these blocks is answered with their bytes. -/
def reads (lba blocks : ℕ) : Bool :=
  match read lu lba blocks with
  | .ok (outcome, _) => outcome.status = GOOD
  | .error _ => false

def readLength (lba blocks : ℕ) : ℕ := if lu.reads lba blocks then blocks * lu.blockSize else 0

def serialLength : ℕ := (encode lu.serial).length

def inquiryLength (cdb : Cdb) : ℕ :=
  let page := byte cdb.1 2
  if flag cdb.1 1 0x01 = false then if page ≠ 0 then 0 else 36
  else if page = 0x00 then 7
  else if page = 0x80 then 4 + lu.serialLength
  else if page = 0x83 then 8 + 24 + lu.serialLength
  else 0

/-- The number of bytes that a command other than REPORT LUNS produces. -/
def dataLength (cdb : Cdb) : ℕ :=
  let op := byte cdb.1 0
  let page := byte cdb.1 2 &&& 0x3f
  let pages := if page = 0x08 ∨ page = 0x3f then 20 else 0
  if op = INQUIRY then lu.inquiryLength cdb
  else if op = READ_CAPACITY_10 then 8
  else if op = SERVICE_ACTION_IN_16 ∧ byte cdb.1 1 &&& 0x1f = SAI_READ_CAPACITY_16 then 32
  else if op = READ_10 then lu.readLength (lba32 cdb) (len16 cdb)
  else if op = READ_16 then lu.readLength (lba64 cdb) (len32_16 cdb)
  else if op = REQUEST_SENSE then 18
  else if op = MODE_SENSE_6 then 4 + pages
  else if op = MODE_SENSE_10 then 8 + pages
  else 0

end LogicalUnit

def ScsiTarget.dataLength (t : ScsiTarget) (cmd : ScsiCommand) : ℕ :=
  match lunNumber cmd.lun with
  | none => 0
  | some n => match t.luns[n]?.join with
    | none => 0
    | some lu =>
      if byte cmd.cdb.1 0 = REPORT_LUNS then
        8 + 8 * ((List.range t.luns.length).filter fun n => (t.luns[n]?.join).isSome).length
      else lu.dataLength cmd.cdb

variable {lu lu' : LogicalUnit} {outcome : ScsiOutcome}

@[simp] theorem data_check (key : UInt8) (asc : UInt8 × UInt8) :
    (ScsiOutcome.check key asc).data = [] := rfl

@[simp] theorem data_ok : ScsiOutcome.ok.data = [] := rfl

@[simp] theorem data_good (data : List UInt8) : (ScsiOutcome.good data).data = data := rfl

theorem length_inquiry (lu : LogicalUnit) (cdb : Cdb) :
    (inquiry lu cdb).data.length = lu.inquiryLength cdb := by
  have hvendor := lu.vendor.2
  have hproduct := lu.product.2
  have hrevision := lu.revision.2
  rw [inquiry, LogicalUnit.inquiryLength]
  split
  · split
    · rfl
    · simp [LogicalUnit.standardInquiry, hvendor, hproduct, hrevision]
  · split
    · rfl
    · split
      · simp [LogicalUnit.vpdUnitSerial, LogicalUnit.serialLength]
        omega
      · split
        · simp [LogicalUnit.vpdDeviceId, LogicalUnit.serialLength, hvendor, hproduct]
          omega
        · rfl

theorem length_modeSense (cdb : Cdb) :
    (modeSense cdb).data.length =
      (if byte cdb.1 0 = MODE_SENSE_10 then 8 else 4) +
        if byte cdb.1 2 &&& 0x3f = 0x08 ∨ byte cdb.1 2 &&& 0x3f = 0x3f then 20 else 0 := by
  have hpages : (if byte cdb.1 2 &&& 0x3f = 0x08 ∨ byte cdb.1 2 &&& 0x3f = 0x3f then cachingPage
      else []).length =
        if byte cdb.1 2 &&& 0x3f = 0x08 ∨ byte cdb.1 2 &&& 0x3f = 0x3f then 20 else 0 := by
    split <;> rfl
  rw [modeSense]
  split
  · rw [data_good, List.length_append, List.length_append, length_toBe, List.length_replicate, hpages]
  · rw [data_good, List.length_append, hpages]
    rfl

/-- A unit's read returns all of its blocks, or no data. -/
theorem length_read {lba blocks : ℕ} (h : read lu lba blocks = .ok (outcome, lu')) :
    outcome.data.length = lu.readLength lba blocks := by
  have hreads : lu.reads lba blocks = decide (outcome.status = GOOD) := by
    rw [LogicalUnit.reads, h]
  rw [LogicalUnit.readLength, hreads]
  rw [read] at h
  split at h
  · cases h
    rename_i hzero
    rw [hzero, Nat.zero_mul, ite_self]
    rfl
  · split at h
    · cases h
    · cases h
      rfl
    · split at h
      · cases h
      · rename_i data _ hrun
        cases h
        rw [LogicalUnit.runVolume] at hrun
        split at hrun
        · cases hrun
        · rename_i bytes _ hprogram
          cases hrun
          exact length_readAt hprogram
        · cases hrun
        · cases hrun
      · cases h
        rfl

theorem length_write {lba blocks : ℕ} {writeData : List UInt8}
    (h : write lu lba blocks writeData = .ok (outcome, lu')) : outcome.data = [] := by
  rw [write] at h
  repeat' split at h
  all_goals
    cases h
  all_goals rfl

private theorem unchanged_data {result : Outcome ScsiOutcome} {n : ℕ}
    (hresult : ∀ o, result = .ok o → o.data.length = n)
    (h : unchanged lu result = .ok (outcome, lu')) : outcome.data.length = n := by
  cases result with
  | error e => cases h
  | ok produced =>
    cases h
    exact hresult _ rfl

private theorem length_readCapacity10 {o : ScsiOutcome} (h : readCapacity10 lu = .ok o) :
    o.data.length = 8 := by
  rw [readCapacity10] at h
  split at h <;> cases h
  simp

private theorem length_readCapacity16 {o : ScsiOutcome} (h : readCapacity16 lu = .ok o) :
    o.data.length = 32 := by
  rw [readCapacity16] at h
  split at h <;> cases h
  simp

/-- The handlers of the operation codes. -/
inductive Dispatches (lu : LogicalUnit) (cmd : ScsiCommand) (writeData : List UInt8) :
    Outcome (ScsiOutcome × LogicalUnit) → Prop
  | accepted (hop : byte cmd.cdb.1 0 ∈
      [TEST_UNIT_READY, SYNC_CACHE_10, SYNC_CACHE_16, PREVENT_ALLOW, START_STOP_UNIT]) :
      Dispatches lu cmd writeData (.ok (.ok, lu))
  | inquiry (hop : byte cmd.cdb.1 0 = INQUIRY) :
      Dispatches lu cmd writeData (.ok (inquiry lu cmd.cdb, lu))
  | readCapacity10 (hop : byte cmd.cdb.1 0 = READ_CAPACITY_10) :
      Dispatches lu cmd writeData (unchanged lu (readCapacity10 lu))
  | readCapacity16 (hop : byte cmd.cdb.1 0 = SERVICE_ACTION_IN_16)
      (hservice : byte cmd.cdb.1 1 &&& 0x1f = SAI_READ_CAPACITY_16) :
      Dispatches lu cmd writeData (unchanged lu (readCapacity16 lu))
  | read10 (hop : byte cmd.cdb.1 0 = READ_10) :
      Dispatches lu cmd writeData (read lu (lba32 cmd.cdb) (len16 cmd.cdb))
  | read16 (hop : byte cmd.cdb.1 0 = READ_16) :
      Dispatches lu cmd writeData (read lu (lba64 cmd.cdb) (len32_16 cmd.cdb))
  | write10 (hop : byte cmd.cdb.1 0 = WRITE_10) :
      Dispatches lu cmd writeData (write lu (lba32 cmd.cdb) (len16 cmd.cdb) writeData)
  | write16 (hop : byte cmd.cdb.1 0 = WRITE_16) :
      Dispatches lu cmd writeData (write lu (lba64 cmd.cdb) (len32_16 cmd.cdb) writeData)
  | requestSense (hop : byte cmd.cdb.1 0 = REQUEST_SENSE) :
      Dispatches lu cmd writeData (.ok (requestSense, lu))
  | modeSense (hop : byte cmd.cdb.1 0 = MODE_SENSE_6 ∨ byte cmd.cdb.1 0 = MODE_SENSE_10) :
      Dispatches lu cmd writeData (.ok (modeSense cmd.cdb, lu))
  | unknown (hop : byte cmd.cdb.1 0 ∉ [INQUIRY, READ_CAPACITY_10, READ_10, READ_16, REQUEST_SENSE,
      MODE_SENSE_6, MODE_SENSE_10])
      (hservice : ¬ (byte cmd.cdb.1 0 = SERVICE_ACTION_IN_16 ∧
        byte cmd.cdb.1 1 &&& 0x1f = SAI_READ_CAPACITY_16)) :
      Dispatches lu cmd writeData (.ok (.check ILLEGAL_REQUEST ASC_INVALID_OPCODE, lu))

private theorem dispatches_ite {cmd : ScsiCommand} {writeData : List UInt8} {p : Prop} [Decidable p]
    {a b : Outcome (ScsiOutcome × LogicalUnit)} (ha : p → Dispatches lu cmd writeData a)
    (hb : ¬ p → Dispatches lu cmd writeData b) :
    Dispatches lu cmd writeData (if p then a else b) := by
  split
  · exact ha (by assumption)
  · exact hb (by assumption)

/-- Every command goes to the handler of its operation code. -/
theorem dispatch_dispatches (lu : LogicalUnit) (cmd : ScsiCommand) (writeData : List UInt8) :
    Dispatches lu cmd writeData (dispatch lu cmd writeData) := by
  rw [dispatch]
  refine dispatches_ite (fun h => .accepted (by simp [h])) fun _ => ?_
  refine dispatches_ite .inquiry fun hinquiry => ?_
  refine dispatches_ite .readCapacity10 fun hcapacity => ?_
  refine dispatches_ite (fun h => .readCapacity16 h.1 h.2) fun hservice => ?_
  refine dispatches_ite .read10 fun hread10 => ?_
  refine dispatches_ite .read16 fun hread16 => ?_
  refine dispatches_ite .write10 fun _ => ?_
  refine dispatches_ite .write16 fun _ => ?_
  refine dispatches_ite (fun h => .accepted (by rcases h with h | h <;> simp [h])) fun _ => ?_
  refine dispatches_ite (fun h => .accepted (by rcases h with h | h <;> simp [h])) fun _ => ?_
  refine dispatches_ite .requestSense fun hsense => ?_
  refine dispatches_ite .modeSense fun hmode => ?_
  exact .unknown (by simp [hinquiry, hcapacity, hread10, hread16, hsense, not_or.1 hmode]) hservice

theorem dispatch_inquiry {cmd : ScsiCommand} (hop : byte cmd.cdb.1 0 = INQUIRY)
    (data : List UInt8) : dispatch lu cmd data = .ok (inquiry lu cmd.cdb, lu) := by
  rw [dispatch, hop]
  rfl

theorem length_dispatch {cmd : ScsiCommand} {writeData : List UInt8}
    (h : dispatch lu cmd writeData = .ok (outcome, lu')) :
    outcome.data.length = lu.dataLength cmd.cdb := by
  have hdispatches := dispatch_dispatches lu cmd writeData
  generalize dispatch lu cmd writeData = result at h hdispatches
  rw [LogicalUnit.dataLength]
  cases hdispatches with
  | accepted hop =>
    cases h
    simp only [List.mem_cons, List.not_mem_nil, or_false] at hop
    rcases hop with hop | hop | hop | hop | hop <;> rw [hop] <;> rfl
  | inquiry hop =>
    cases h
    rw [if_pos hop]
    exact length_inquiry lu cmd.cdb
  | readCapacity10 hop =>
    rw [hop]
    exact unchanged_data (fun _ => length_readCapacity10) h
  | readCapacity16 hop hservice =>
    rw [hop, hservice]
    exact unchanged_data (fun _ => length_readCapacity16) h
  | read10 hop =>
    rw [hop]
    exact length_read h
  | read16 hop =>
    rw [hop]
    exact length_read h
  | write10 hop =>
    rw [hop, length_write h]
    rfl
  | write16 hop =>
    rw [hop, length_write h]
    rfl
  | requestSense hop =>
    cases h
    rw [hop]
    rfl
  | modeSense hop =>
    cases h
    rw [length_modeSense]
    rcases hop with hop | hop <;> rw [hop] <;> rfl
  | unknown hop hservice =>
    cases h
    simp only [List.mem_cons, List.not_mem_nil, or_false, not_or] at hop
    simp [hop, hservice]

/-- What a target returns has the length that the unit and the CDB determine. -/
theorem length_execute {t t' : ScsiTarget} {cmd : ScsiCommand} {writeData : List UInt8}
    (h : t.execute cmd writeData = .ok (outcome, t')) :
    outcome.data.length = t.dataLength cmd := by
  rw [ScsiTarget.execute] at h
  rw [ScsiTarget.dataLength]
  cases hnumber : lunNumber cmd.lun with
  | none =>
    rw [hnumber] at h
    cases h
    rfl
  | some n =>
    rw [hnumber] at h
    dsimp only at h ⊢
    cases hlu : t.luns[n]?.join with
    | none =>
      rw [hlu] at h
      cases h
      rfl
    | some lu =>
      rw [hlu] at h
      dsimp only at h ⊢
      split at h
      · rename_i hreport
        rw [if_pos hreport]
        cases h
        simp [ScsiTarget.reportLuns]
        omega
      · rename_i hreport
        rw [if_neg hreport]
        split at h
        · cases h
        · cases h
          exact length_dispatch (by assumption)

/-- An outcome is GOOD without sense data, or a CHECK CONDITION without data. -/
inductive ScsiOutcome.Shaped : ScsiOutcome → Prop
  | good (data : List UInt8) : Shaped (.good data)
  | check (key : UInt8) (asc : UInt8 × UInt8) : Shaped (.check key asc)

theorem ScsiOutcome.Shaped.status_eq (h : outcome.Shaped) (hdata : outcome.data ≠ []) :
    outcome.status = GOOD := by
  cases h with
  | good => rfl
  | check => exact absurd rfl hdata

theorem ScsiOutcome.Shaped.length_sense_le (h : outcome.Shaped) : outcome.sense.length ≤ 18 := by
  cases h with
  | good => exact Nat.zero_le _
  | check => exact Nat.le_refl _

private theorem inquiry_shaped (lu : LogicalUnit) (cdb : Cdb) : (inquiry lu cdb).Shaped := by
  rw [inquiry]
  split_ifs
  · exact .check _ _
  · exact .good _
  · exact .good _
  · exact .good _
  · exact .good _
  · exact .check _ _

private theorem modeSense_shaped (cdb : Cdb) : (modeSense cdb).Shaped := by
  rw [modeSense]
  split_ifs <;> exact .good _

/-- Every outcome that a handler gives is shaped. -/
def GivesShaped (result : Outcome (ScsiOutcome × LogicalUnit)) : Prop :=
  ∀ o lu, result = .ok (o, lu) → o.Shaped

private theorem shaped_ok {o : ScsiOutcome} (ho : o.Shaped) : GivesShaped (.ok (o, lu)) := by
  intro o' lu' h
  cases h
  exact ho

private theorem shaped_error (e : Failure) : GivesShaped (.error e) := nofun

private theorem shaped_ite {p : Prop} [Decidable p] {a b : Outcome (ScsiOutcome × LogicalUnit)}
    (ha : GivesShaped a) (hb : GivesShaped b) : GivesShaped (if p then a else b) := by
  split
  · exact ha
  · exact hb

private theorem readCapacity10_shaped (lu : LogicalUnit) :
    GivesShaped (unchanged lu (readCapacity10 lu)) := by
  rw [readCapacity10]
  split
  · exact shaped_error _
  · exact shaped_ok (.good _)

private theorem readCapacity16_shaped (lu : LogicalUnit) :
    GivesShaped (unchanged lu (readCapacity16 lu)) := by
  rw [readCapacity16]
  split
  · exact shaped_error _
  · exact shaped_ok (.good _)

private theorem read_shaped (lu : LogicalUnit) (lba blocks : ℕ) :
    GivesShaped (read lu lba blocks) := by
  refine shaped_ite (shaped_ok (.good [])) ?_
  split
  · exact shaped_error _
  · exact shaped_ok (.check _ _)
  · split
    · exact shaped_error _
    · exact shaped_ok (.good _)
    · exact shaped_ok (.check _ _)

private theorem write_shaped (lu : LogicalUnit) (lba blocks : ℕ) (writeData : List UInt8) :
    GivesShaped (write lu lba blocks writeData) := by
  refine shaped_ite (shaped_ok (.good [])) ?_
  split
  · exact shaped_error _
  · exact shaped_ok (.check _ _)
  · refine shaped_ite (shaped_ok (.check _ _)) ?_
    split
    · exact shaped_error _
    · exact shaped_ok (.good [])
    · exact shaped_ok (.check _ _)

private theorem dispatch_shaped (lu : LogicalUnit) (cmd : ScsiCommand) (writeData : List UInt8) :
    GivesShaped (dispatch lu cmd writeData) := by
  have hdispatches := dispatch_dispatches lu cmd writeData
  generalize dispatch lu cmd writeData = result at hdispatches ⊢
  cases hdispatches with
  | accepted => exact shaped_ok (.good [])
  | inquiry => exact shaped_ok (inquiry_shaped lu cmd.cdb)
  | readCapacity10 => exact readCapacity10_shaped lu
  | readCapacity16 => exact readCapacity16_shaped lu
  | read10 => exact read_shaped lu _ _
  | read16 => exact read_shaped lu _ _
  | write10 => exact write_shaped lu _ _ _
  | write16 => exact write_shaped lu _ _ _
  | requestSense => exact shaped_ok (.good _)
  | modeSense => exact shaped_ok (modeSense_shaped cmd.cdb)
  | unknown => exact shaped_ok (.check _ _)

/-- What a target returns is data or sense data. -/
theorem execute_shaped {t t' : ScsiTarget} {cmd : ScsiCommand} {writeData : List UInt8}
    (h : t.execute cmd writeData = .ok (outcome, t')) : outcome.Shaped := by
  rw [ScsiTarget.execute] at h
  split at h
  · cases h
    exact .check _ _
  · split at h
    · cases h
      exact .check _ _
    · split at h
      · cases h
        exact .good _
      · split at h
        · cases h
        · rename_i hdispatch
          cases h
          exact dispatch_shaped _ _ _ _ _ hdispatch

end XBoot.Iscsi
