import XBoot.BlockDevices

/-!
# Capacities

READ CAPACITY reports the last block of a unit and the length of its blocks. A unit of at
least one block accepts exactly the blocks up to the last one; a smaller unit reports block
0 as its last and has none.
-/

namespace XBoot.Iscsi

open ListSlices BigEndian Storage Volume

structure Capacity where
  lastLba : ℕ
  blockLength : ℕ
  deriving DecidableEq, Repr

def capacity10 (o : ScsiOutcome) : Capacity := ⟨ofBe (slice o.data 0 4), ofBe (slice o.data 4 4)⟩

def capacity16 (o : ScsiOutcome) : Capacity := ⟨ofBe (slice o.data 0 8), ofBe (slice o.data 8 4)⟩

def outOfRange : ScsiOutcome := .check ILLEGAL_REQUEST ASC_LBA_OUT_OF_RANGE

def readBytes (lu : LogicalUnit) (offset len : ℕ) : Outcome (ScsiOutcome × LogicalUnit) :=
  match lu.runVolume (readAt lu.master offset len) with
  | .error e => .error e
  | .ok (.ok data, lu') => .ok (.good data, lu')
  | .ok (.error _, lu') => .ok (.check MEDIUM_ERROR ASC_UNRECOVERED_READ_ERROR, lu')

def writeBytes (lu : LogicalUnit) (offset : ℕ) (data : List UInt8) :
    Outcome (ScsiOutcome × LogicalUnit) :=
  match lu.runVolume (writeAt lu.master offset data) with
  | .error e => .error e
  | .ok (.ok _, lu') => .ok (.ok, lu')
  | .ok (.error _, lu') => .ok (.check MEDIUM_ERROR ASC_WRITE_ERROR, lu')

namespace LogicalUnit

variable (lu : LogicalUnit)

/-- The unit answers READ CAPACITY(10) and READ CAPACITY(16) with these. -/
structure Reports (ten sixteen : Capacity) : Prop where
  ten : ∀ cmd data, byte cmd.cdb.1 0 = READ_CAPACITY_10 →
    ∃ o, dispatch lu cmd data = .ok (o, lu) ∧ o.status = GOOD ∧ capacity10 o = ten
  sixteen : ∀ cmd data, byte cmd.cdb.1 0 = SERVICE_ACTION_IN_16 →
    byte cmd.cdb.1 1 &&& 0x1f = SAI_READ_CAPACITY_16 →
    ∃ o, dispatch lu cmd data = .ok (o, lu) ∧ o.status = GOOD ∧ capacity16 o = sixteen

/-- Transfers are checked against, and placed by, the capacity that the unit reports. -/
structure Keeps (ten sixteen : Capacity) : Prop where
  block : ∀ cmd data, byte cmd.cdb.1 0 = READ_16 → len32_16 cmd.cdb = 1 →
    (dispatch lu cmd data ≠ .ok (outOfRange, lu) ↔ lba64 cmd.cdb ≤ sixteen.lastLba)
  range : ∀ cmd tr data, transferOf cmd.cdb = some tr → 0 < tr.count →
    (dispatch lu cmd data ≠ .ok (outOfRange, lu) ↔ tr.lba + tr.count ≤ sixteen.lastLba + 1)
  capped : ten.lastLba = min sixteen.lastLba 0xffffffff
  length_eq : ten.blockLength = sixteen.blockLength
  reads : ∀ lba count, 0 < count → lba + count ≤ sixteen.lastLba + 1 →
    read lu lba count = readBytes lu (lba * sixteen.blockLength) (count * sixteen.blockLength)
  writes : ∀ lba count data, 0 < count → lba + count ≤ sixteen.lastLba + 1 →
    data.length = count * sixteen.blockLength →
    write lu lba count data = writeBytes lu (lba * sixteen.blockLength) data

end LogicalUnit

variable {lu : LogicalUnit}

private theorem good_ne_check : GOOD ≠ CHECK_CONDITION := by decide

private theorem ne_outOfRange {o : ScsiOutcome} {lu' : LogicalUnit}
    (h : o.status ≠ CHECK_CONDITION ∨ o.sense ≠ outOfRange.sense) :
    (.ok (o, lu') : Outcome (ScsiOutcome × LogicalUnit)) ≠ .ok (outOfRange, lu) := by
  intro heq
  obtain rfl : o = outOfRange := congrArg Prod.fst (Except.ok.inj heq)
  exact h.elim (fun hstatus => hstatus rfl) fun hsense => hsense rfl

private theorem readBytes_ne (lu : LogicalUnit) (offset len : ℕ) :
    readBytes lu offset len ≠ .ok (outOfRange, lu) := by
  rw [readBytes]
  split
  · exact nofun
  · exact ne_outOfRange (.inl good_ne_check)
  · exact ne_outOfRange (.inr (by decide))

private theorem writeBytes_ne (lu : LogicalUnit) (offset : ℕ) (data : List UInt8) :
    writeBytes lu offset data ≠ .ok (outOfRange, lu) := by
  rw [writeBytes]
  split
  · exact nofun
  · exact ne_outOfRange (.inl good_ne_check)
  · exact ne_outOfRange (.inr (by decide))

theorem read_eq (h : 0 < lu.blockSize) {lba count : ℕ} (hcount : 0 < count) :
    read lu lba count =
      if lba + count ≤ lu.master.sizeBytes / lu.blockSize then
        readBytes lu (lba * lu.blockSize) (count * lu.blockSize)
      else .ok (outOfRange, lu) := by
  rw [read, if_neg (Nat.pos_iff_ne_zero.1 hcount), inRange_ok h]
  by_cases hrange : lba + count ≤ lu.master.sizeBytes / lu.blockSize
  · rw [if_pos hrange, decide_eq_true hrange]
    rfl
  · rw [if_neg hrange, decide_eq_false hrange]
    rfl

theorem write_eq (h : 0 < lu.blockSize) {lba count : ℕ} (hcount : 0 < count) (data : List UInt8) :
    write lu lba count data =
      if lba + count ≤ lu.master.sizeBytes / lu.blockSize then
        if data.length = count * lu.blockSize then writeBytes lu (lba * lu.blockSize) data
        else .ok (.check ILLEGAL_REQUEST ASC_INVALID_FIELD_IN_CDB, lu)
      else .ok (outOfRange, lu) := by
  rw [write, if_neg (Nat.pos_iff_ne_zero.1 hcount), inRange_ok h]
  by_cases hrange : lba + count ≤ lu.master.sizeBytes / lu.blockSize
  · rw [if_pos hrange, decide_eq_true hrange]
    by_cases hdata : data.length = count * lu.blockSize
    · rw [if_pos hdata]
      exact if_neg (not_not_intro hdata)
    · rw [if_neg hdata]
      exact if_pos hdata
  · rw [if_neg hrange, decide_eq_false hrange]
    rfl

/-- A transfer is refused for its range exactly if it ends after the whole blocks. -/
theorem transfer_in_range_iff (h : 0 < lu.blockSize) {cmd : ScsiCommand} {tr : Transfer}
    (htr : transferOf cmd.cdb = some tr) (hcount : 0 < tr.count) (data : List UInt8) :
    dispatch lu cmd data ≠ .ok (outOfRange, lu) ↔
      tr.lba + tr.count ≤ lu.master.sizeBytes / lu.blockSize := by
  rw [dispatch_transfer lu htr, read_eq h hcount, write_eq h hcount]
  by_cases hrange : tr.lba + tr.count ≤ lu.master.sizeBytes / lu.blockSize
  · refine iff_of_true ?_ hrange
    rw [if_pos hrange, if_pos hrange]
    split_ifs
    · exact writeBytes_ne lu _ _
    · exact ne_outOfRange (.inr (by decide))
    · exact readBytes_ne lu _ _
  · refine iff_of_false ?_ hrange
    rw [if_neg hrange, if_neg hrange, ite_self]
    exact not_not_intro rfl

theorem transferOf_block {cdb : Cdb} (hop : byte cdb.1 0 = READ_16) (hlen : len32_16 cdb = 1) :
    transferOf cdb = some ⟨false, lba64 cdb, 1⟩ := by
  rw [transferOf, hop, hlen]
  rfl

/-- The last block by the number of whole blocks, and the block size. -/
def LogicalUnit.capacity (lu : LogicalUnit) : Capacity :=
  ⟨lu.master.sizeBytes / lu.blockSize - 1, lu.blockSize⟩

/-- The same, as far as a 32-bit last block goes. -/
def LogicalUnit.shortCapacity (lu : LogicalUnit) : Capacity :=
  ⟨min (lu.master.sizeBytes / lu.blockSize - 1) 0xffffffff, lu.blockSize⟩

private theorem blockLength_field (lu : LogicalUnit) : ofBe (toBe 4 lu.blockSize) = lu.blockSize :=
  ofBe_toBe_of_lt lu.blockSize_lt

theorem reports_capacity (h : 0 < lu.blockSize) : lu.Reports lu.shortCapacity lu.capacity where
  ten cmd data hop := by
    refine ⟨.good (toBe 4 (min (lu.master.sizeBytes / lu.blockSize - 1) (2 ^ 32 - 1)) ++
      toBe 4 lu.blockSize), ?_, rfl, ?_⟩
    · rw [dispatch, hop, readCapacity10, totalBlocks_ok h]
      rfl
    · have hlast : min (lu.master.sizeBytes / lu.blockSize - 1) (2 ^ 32 - 1) < 256 ^ 4 := by omega
      rw [capacity10, LogicalUnit.shortCapacity]
      congr 1
      · rw [data_good, slice_append_left (by simp), slice_toBe, ofBe_toBe_of_lt hlast]
        rfl
      · rw [data_good, slice_append_self (by simp) (by simp), blockLength_field]
  sixteen cmd data hop hservice := by
    refine ⟨.good (toBe 8 (lu.master.sizeBytes / lu.blockSize - 1) ++ toBe 4 lu.blockSize ++
      List.replicate 20 0), ?_, rfl, ?_⟩
    · rw [dispatch, hop, hservice, readCapacity16, totalBlocks_ok h]
      rfl
    · have hlt := lu.master.sizeBytes_lt
      have hle := Nat.div_le_self lu.master.sizeBytes lu.blockSize
      have hlast : lu.master.sizeBytes / lu.blockSize - 1 < 256 ^ 8 := by omega
      rw [capacity16, LogicalUnit.capacity]
      congr 1
      · rw [data_good, List.append_assoc, slice_append_left (by simp), slice_toBe,
          ofBe_toBe_of_lt hlast]
      · rw [data_good, slice_append_left (by simp), slice_append_self (by simp) (by simp),
          blockLength_field]

private theorem range_iff {total n : ℕ} (htotal : 0 < total) : n ≤ total - 1 + 1 ↔ n ≤ total := by
  rw [Nat.sub_add_cancel htotal]

theorem keeps_capacity (h : 0 < lu.blockSize) (hblock : lu.blockSize ≤ lu.master.sizeBytes) :
    lu.Keeps lu.shortCapacity lu.capacity := by
  have htotal : 0 < lu.master.sizeBytes / lu.blockSize := Nat.div_pos hblock h
  constructor
  case block =>
    intro cmd data hop hlen
    rw [transfer_in_range_iff h (transferOf_block hop hlen) Nat.one_pos, ← range_iff htotal]
    exact Nat.add_le_add_iff_right
  case range =>
    intro cmd tr data htr hcount
    rw [transfer_in_range_iff h htr hcount, ← range_iff htotal]
    rfl
  case capped => rfl
  case length_eq => rfl
  case reads =>
    intro lba count hcount hrange
    rw [read_eq h hcount, if_pos ((range_iff htotal).1 hrange)]
    rfl
  case writes =>
    intro lba count data hcount hrange hdata
    rw [write_eq h hcount, if_pos ((range_iff htotal).1 hrange)]
    exact if_pos hdata

theorem not_keeps_capacity (h : 0 < lu.blockSize) (hsmall : lu.master.sizeBytes < lu.blockSize) :
    ¬ lu.Keeps lu.shortCapacity lu.capacity := by
  intro hkeeps
  have hread := hkeeps.reads 0 1 Nat.one_pos (Nat.le_add_left 1 _)
  rw [read_eq h Nat.one_pos, Nat.div_eq_of_lt hsmall, if_neg (by decide)] at hread
  exact readBytes_ne lu _ _ hread.symm

/-- The transfers of a unit keep to the capacity that it reports exactly if it has at least one
whole block. -/
theorem capacity_agrees_iff (lu : LogicalUnit) (h : 0 < lu.blockSize) :
    ∃ ten sixteen, lu.Reports ten sixteen ∧
      (lu.Keeps ten sixteen ↔ lu.blockSize ≤ lu.master.sizeBytes) := by
  refine ⟨_, _, reports_capacity h, fun hkeeps => ?_, keeps_capacity h⟩
  by_contra hsmall
  exact not_keeps_capacity h (Nat.not_le.1 hsmall) hkeeps

def oneBlockUnit : LogicalUnit := .new (blankDisk 700 (by decide))

theorem capacity_agrees_one_block : ∃ ten sixteen,
    oneBlockUnit.Reports ten sixteen ∧ oneBlockUnit.Keeps ten sixteen := by
  obtain ⟨ten, sixteen, hreports, hkeeps⟩ := capacity_agrees_iff oneBlockUnit (Nat.zero_lt_succ 511)
  have hblock : oneBlockUnit.blockSize ≤ oneBlockUnit.master.sizeBytes := by
    have hsize : oneBlockUnit.master.sizeBytes = 700 := List.length_replicate
    rw [hsize]
    decide
  exact ⟨ten, sixteen, hreports, hkeeps.2 hblock⟩

def emptyUnit : LogicalUnit := .new (blankDisk 0 (by decide))

/-- A one-block READ(16) of block 0. -/
def readBlockZero : ScsiCommand :=
  ⟨true, true, false, 0, 0, 1, 512, 1, 0,
    ⟨[0x88, 0, 0, 0, 0, 0, 0, 0, 0, 0, 0, 0, 0, 1, 0, 0], rfl⟩, []⟩

/-- A READ CAPACITY(16). -/
def readCapacity : ScsiCommand :=
  ⟨true, true, false, 0, 0, 2, 32, 2, 0,
    ⟨[0x9e, 0x10, 0, 0, 0, 0, 0, 0, 0, 0, 0, 0, 0, 32, 0, 0], rfl⟩, []⟩

/-- An empty disk reports block 0 as its last and refuses to read it. -/
theorem empty_disk_refuses_last_block :
    (∃ o, dispatch emptyUnit readCapacity [] = .ok (o, emptyUnit) ∧
      capacity16 o = ⟨lba64 readBlockZero.cdb, 512⟩) ∧
    dispatch emptyUnit readBlockZero [] = .ok (outOfRange, emptyUnit) :=
  ⟨⟨_, rfl, by decide⟩, rfl⟩

end XBoot.Iscsi
