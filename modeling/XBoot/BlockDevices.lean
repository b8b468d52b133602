import XBoot.BlockArrays
import XBoot.TransferLengths
import XBoot.VolumeFlatModel

/-!
# A target as block devices

Over masters that serve their bytes, a target behaves as one array of blocks for each of
its LUNs: READ and WRITE in range move exactly the named blocks, and nothing else changes
any of them.
-/

namespace XBoot.Iscsi

open ListSlices BigEndian Storage Volume Machines BlockArrays

abbrev Devices := List (Option (BlockDevice UInt8))

structure Transfer where
  write : Bool
  lba : ℕ
  count : ℕ
  deriving DecidableEq, Repr

def transferOf (cdb : Cdb) : Option Transfer :=
  let op := byte cdb.1 0
  if op = READ_10 then some ⟨false, lba32 cdb, len16 cdb⟩
  else if op = READ_16 then some ⟨false, lba64 cdb, len32_16 cdb⟩
  else if op = WRITE_10 then some ⟨true, lba32 cdb, len16 cdb⟩
  else if op = WRITE_16 then some ⟨true, lba64 cdb, len32_16 cdb⟩
  else none

abbrev TargetCall := ScsiCommand × List UInt8

/-- The command asks for blocks that the device at LUN `n` has. -/
structure InRange (a : Devices) (cmd : ScsiCommand) (n : ℕ) (dev : BlockDevice UInt8)
    (tr : Transfer) : Prop where
  lun : lunNumber cmd.lun = some n
  present : a[n]? = some (some dev)
  transfer : transferOf cmd.cdb = some tr
  range : tr.lba + tr.count ≤ dev.content.length

/-- A WRITE in range with as many bytes as its blocks have. -/
structure Stores (a : Devices) (call : TargetCall) (n : ℕ) (dev : BlockDevice UInt8)
    (tr : Transfer) : Prop extends InRange a call.1 n dev tr where
  isWrite : tr.write = true
  length_eq : call.2.length = tr.count * dev.blockSize

/-- The status is GOOD, or CHECK CONDITION with sense and without data. -/
structure Reported (o : ScsiOutcome) : Prop where
  status : o.status = GOOD ∨ o.status = CHECK_CONDITION
  check_iff : o.status = CHECK_CONDITION ↔ o.sense ≠ []
  no_data : o.status = CHECK_CONDITION → o.data = []

/-- What a command does to the arrays, and what it returns. -/
structure Behaves (a : Devices) (call : TargetCall) (o : ScsiOutcome) (a' : Devices) : Prop where
  stores : ∀ n dev tr, Stores a call n dev tr →
    o.status = GOOD ∧ a' = a.set n (some (dev.replace tr.lba call.2))
  reads : ∀ n dev tr, InRange a call.1 n dev tr → tr.write = false →
    o.status = GOOD ∧ o.data = dev.read tr.lba tr.count ∧ a' = a
  others : (∀ n dev tr, ¬ Stores a call n dev tr) → a' = a
  failed : o.status ≠ GOOD → a' = a
  reported : Reported o

/-- The arrays after a command: only a WRITE in range with all its bytes changes one. -/
def stored (a : Devices) (call : TargetCall) : Devices :=
  match lunNumber call.1.lun, transferOf call.1.cdb with
  | some n, some tr => match a[n]? with
    | some (some dev) =>
      if tr.write = true ∧ tr.lba + tr.count ≤ dev.content.length ∧
          call.2.length = tr.count * dev.blockSize then
        a.set n (some (dev.replace tr.lba call.2))
      else a
    | _ => a
  | _, _ => a

/-- The unit behaves as the device: a serving master under an overlay that holds the bytes. -/
structure LogicalUnit.Is (lu : LogicalUnit) (dev : BlockDevice UInt8) : Prop where
  size_pos : 0 < lu.blockSize
  holds : ∃ content flat, lu.master.Serves content ∧ Holds lu.master content lu.overlay flat ∧
    dev = .ofList lu.blockSize flat

def ScsiTarget.Is (t : ScsiTarget) (a : Devices) : Prop :=
  List.Forall₂ (Option.Rel LogicalUnit.Is) t.luns a

/-- The status of a target's outcome goes with its sense and its data. -/
theorem ScsiOutcome.Shaped.reported {o : ScsiOutcome} (h : o.Shaped) : Reported o := by
  have hne : GOOD ≠ CHECK_CONDITION := by decide
  cases h with
  | good data => exact ⟨.inl rfl, iff_of_false hne (fun h => h rfl), fun h => absurd h hne⟩
  | check key asc => exact ⟨.inr rfl, iff_of_true rfl (List.cons_ne_nil _ _), fun _ => rfl⟩

variable {lu : LogicalUnit} {dev : BlockDevice UInt8}

/-- A command that transfers blocks is executed by the handler of its direction. -/
theorem dispatch_transfer (lu : LogicalUnit) {cmd : ScsiCommand} {tr : Transfer}
    (h : transferOf cmd.cdb = some tr) (data : List UInt8) :
    dispatch lu cmd data =
      if tr.write then write lu tr.lba tr.count data else read lu tr.lba tr.count := by
  rw [transferOf] at h
  split_ifs at h with h1 h2 h3 h4 <;> cases h
  · rw [dispatch, h1]
    rfl
  · rw [dispatch, h2]
    rfl
  · rw [dispatch, h3]
    rfl
  · rw [dispatch, h4]
    rfl

theorem totalBlocks_ok (h : 0 < lu.blockSize) :
    lu.totalBlocks = .ok (lu.master.sizeBytes / lu.blockSize) := by
  rw [LogicalUnit.totalBlocks, if_neg (Nat.pos_iff_ne_zero.1 h)]

/-- The range check compares with the number of whole blocks, whatever the sum of its arguments. -/
theorem inRange_ok (h : 0 < lu.blockSize) (lba count : ℕ) :
    inRange lu lba count = .ok (decide (lba + count ≤ lu.master.sizeBytes / lu.blockSize)) := by
  rw [inRange, totalBlocks_ok h]
  by_cases hover : 2 ^ 64 ≤ lba + count
  · have hlt := lu.master.sizeBytes_lt
    have hle := Nat.div_le_self lu.master.sizeBytes lu.blockSize
    rw [if_pos hover, decide_eq_false (by omega)]
  · rw [if_neg hover]

theorem dispatch_other {cmd : ScsiCommand} (hsize : 0 < lu.blockSize)
    (h : transferOf cmd.cdb = none) (data : List UInt8) :
    ∃ o, dispatch lu cmd data = .ok (o, lu) := by
  have htotal := totalBlocks_ok hsize
  rw [transferOf] at h
  split_ifs at h with h1 h2 h3 h4
  rw [dispatch, if_neg h1, if_neg h2, if_neg h3, if_neg h4, readCapacity10, readCapacity16, htotal]
  split_ifs
  all_goals exact ⟨_, rfl⟩

/-- A fresh unit over a serving master is the device of the master's whole blocks. -/
theorem LogicalUnit.is_fresh {content : List UInt8} (hsize : 0 < lu.blockSize)
    (hs : lu.master.Serves content) (hfresh : lu.overlay = fun _ => none) :
    lu.Is (.ofList lu.blockSize content) := by
  refine ⟨hsize, content, content, hs, ?_, rfl⟩
  rw [hfresh]
  exact Holds.empty hs.length_eq

namespace LogicalUnit.Is

theorem inRange_eq (h : lu.Is dev) (lba count : ℕ) :
    inRange lu lba count = .ok (decide (lba + count ≤ dev.content.length)) := by
  obtain ⟨hsize, content, flat, hs, hholds, rfl⟩ := h
  have hlength : (BlockDevice.ofList lu.blockSize flat).content.length =
      lu.master.sizeBytes / lu.blockSize := by
    rw [BlockDevice.ofList, length_blocks, hholds.length_eq]
  rw [inRange_ok hsize, hlength]

theorem read_inside (h : lu.Is dev) {lba count : ℕ} (hrange : lba + count ≤ dev.content.length) :
    read lu lba count = .ok (.good (dev.read lba count), lu) := by
  have hin := h.inRange_eq lba count
  rw [decide_eq_true hrange] at hin
  rw [read]
  split_ifs with hzero
  · rw [hzero, BlockDevice.read, slice_zero]
    rfl
  · obtain ⟨hsize, content, flat, hs, hholds, rfl⟩ := h
    rw [BlockDevice.ofList, length_blocks] at hrange
    have hend := range_le hrange
    rw [Nat.add_mul] at hend
    have hfit : lba * lu.blockSize + count * lu.blockSize ≤ lu.master.sizeBytes :=
      hholds.length_eq ▸ hend
    have hrun := readAt_run hs hholds hfit
    rw [hin]
    simp only [LogicalUnit.runVolume, hrun, BlockDevice.read_ofList hrange]

theorem read_outside (h : lu.Is dev) {lba count : ℕ} (hrange : ¬ lba + count ≤ dev.content.length) :
    ∃ o, read lu lba count = .ok (o, lu) := by
  have hin := h.inRange_eq lba count
  rw [decide_eq_false hrange] at hin
  rw [read]
  split_ifs with hzero
  · exact ⟨_, rfl⟩
  · rw [hin]
    exact ⟨_, rfl⟩

theorem write_fits (h : lu.Is dev) {lba count : ℕ} {data : List UInt8}
    (hrange : lba + count ≤ dev.content.length) (hdata : data.length = count * dev.blockSize) :
    ∃ lu', write lu lba count data = .ok (.ok, lu') ∧ lu'.Is (dev.replace lba data) := by
  have hin := h.inRange_eq lba count
  rw [decide_eq_true hrange] at hin
  obtain ⟨hsize, content, flat, hs, hholds, rfl⟩ := h
  rw [BlockDevice.ofList, length_blocks] at hrange
  have hlen : data.length = count * lu.blockSize := hdata
  rw [← BlockDevice.ofList_overwrite hsize hrange hlen, write]
  by_cases hzero : count = 0
  · have hnil : data = [] := List.eq_nil_of_length_eq_zero (by rw [hlen, hzero, Nat.zero_mul])
    rw [if_pos hzero]
    exact ⟨lu, rfl, hsize, content, flat, hs, hholds, by rw [hnil, overwrite_nil]⟩
  · have hend := range_le hrange
    rw [Nat.add_mul] at hend
    have hfit : lba * lu.blockSize + data.length ≤ lu.master.sizeBytes := by
      rw [← hholds.length_eq, hlen]
      exact hend
    obtain ⟨ov, hrun, hholds'⟩ := writeAt_run_serves hs hholds hfit
    rw [if_neg hzero, hin]
    simp only [if_neg (not_not_intro hlen), LogicalUnit.runVolume, hrun]
    exact ⟨_, rfl, hsize, content, _, hs, hholds', rfl⟩

theorem write_misfit (h : lu.Is dev) {lba count : ℕ} {data : List UInt8}
    (hno : ¬ (lba + count ≤ dev.content.length ∧ data.length = count * dev.blockSize)) :
    ∃ o, write lu lba count data = .ok (o, lu) := by
  have hin := h.inRange_eq lba count
  have hblock : dev.blockSize = lu.blockSize := by
    obtain ⟨-, -, -, -, -, rfl⟩ := h
    rfl
  rw [write, hin]
  by_cases hzero : count = 0
  · rw [if_pos hzero]
    exact ⟨_, rfl⟩
  · rw [if_neg hzero]
    by_cases hrange : lba + count ≤ dev.content.length
    · have hlen : data.length ≠ count * lu.blockSize := fun hlen =>
        hno ⟨hrange, by rw [hlen, hblock]⟩
      rw [decide_eq_true hrange]
      simp only [if_pos hlen]
      exact ⟨_, rfl⟩
    · rw [decide_eq_false hrange]
      exact ⟨_, rfl⟩

end LogicalUnit.Is

section Steps

variable {t : ScsiTarget} {a : Devices} {call : TargetCall} {o : ScsiOutcome} {n : ℕ} {tr : Transfer}

theorem InRange.eq_of {n' : ℕ} {dev' : BlockDevice UInt8} {tr' : Transfer}
    (h : InRange a call.1 n' dev' tr') (hlun : lunNumber call.1.lun = some n)
    (hdev : a[n]? = some (some dev)) (htr : transferOf call.1.cdb = some tr) :
    n' = n ∧ dev' = dev ∧ tr' = tr := by
  obtain rfl : n' = n := Option.some.inj (h.lun.symm.trans hlun)
  have hsome : some (some dev') = some (some dev) := h.present.symm.trans hdev
  exact ⟨rfl, Option.some.inj (Option.some.inj hsome), Option.some.inj (h.transfer.symm.trans htr)⟩

theorem InRange.unique {n' : ℕ} {dev' : BlockDevice UInt8} {tr' : Transfer}
    (h : InRange a call.1 n dev tr) (h' : InRange a call.1 n' dev' tr') :
    n' = n ∧ dev' = dev ∧ tr' = tr := h'.eq_of h.lun h.present h.transfer

theorem Behaves.idle (hstores : ∀ n dev tr, ¬ Stores a call n dev tr)
    (hreads : ∀ n dev tr, InRange a call.1 n dev tr → tr.write = true) (ho : o.Shaped) :
    Behaves a call o a where
  stores n dev tr h := absurd h (hstores n dev tr)
  reads n dev tr h hw := by
    rw [hreads n dev tr h] at hw
    cases hw
  others _ := rfl
  failed _ := rfl
  reported := ho.reported

theorem Behaves.out (hout : ∀ n dev tr, ¬ InRange a call.1 n dev tr) (ho : o.Shaped) :
    Behaves a call o a :=
  .idle (fun n dev tr h => hout n dev tr h.toInRange) (fun n dev tr h => absurd h (hout n dev tr)) ho

theorem Behaves.of_read (h : InRange a call.1 n dev tr) (hw : tr.write = false) :
    Behaves a call (.good (dev.read tr.lba tr.count)) a where
  stores n' dev' tr' h' := by
    obtain ⟨-, -, rfl⟩ := h.unique h'.toInRange
    rw [h'.isWrite] at hw
    cases hw
  reads n' dev' tr' h' _ := by
    obtain ⟨-, rfl, rfl⟩ := h.unique h'
    exact ⟨rfl, rfl, rfl⟩
  others _ := rfl
  failed _ := rfl
  reported := (ScsiOutcome.Shaped.good _).reported

theorem Behaves.of_store (h : Stores a call n dev tr) :
    Behaves a call .ok (a.set n (some (dev.replace tr.lba call.2))) where
  stores n' dev' tr' h' := by
    obtain ⟨rfl, rfl, rfl⟩ := h.toInRange.unique h'.toInRange
    exact ⟨rfl, rfl⟩
  reads n' dev' tr' h' hw := by
    obtain ⟨-, -, rfl⟩ := h.toInRange.unique h'
    rw [h.isWrite] at hw
    cases hw
  others hno := absurd h (hno n dev tr)
  failed hbad := absurd rfl hbad
  reported := (ScsiOutcome.Shaped.good []).reported

theorem stored_of_stores (h : Stores a call n dev tr) :
    stored a call = a.set n (some (dev.replace tr.lba call.2)) := by
  simp only [stored, h.lun, h.transfer, h.present]
  exact if_pos ⟨h.isWrite, h.range, h.length_eq⟩

theorem stored_of_not_stores (h : ∀ n dev tr, ¬ Stores a call n dev tr) : stored a call = a := by
  rw [stored]
  split
  · split
    · split_ifs with hstores
      · exact absurd ⟨⟨‹_›, ‹_›, ‹_›, hstores.2.1⟩, hstores.1, hstores.2.2⟩ (h _ _ _)
      · rfl
    · rfl
  · rfl

/-- The arrays after a command are determined by the command. -/
theorem Behaves.after {a' : Devices} (h : Behaves a call o a') : a' = stored a call := by
  by_cases hstores : ∃ n dev tr, Stores a call n dev tr
  · obtain ⟨n, dev, tr, hs⟩ := hstores
    rw [stored_of_stores hs]
    exact (h.stores n dev tr hs).2
  · simp only [not_exists] at hstores
    rw [stored_of_not_stores hstores]
    exact h.others hstores

/-- The arrays after a run are those of the writes that were stored, in order. -/
theorem allows_after {calls : List TargetCall} {outcomes : List ScsiOutcome} {a' : Devices}
    (h : Allows Behaves a calls outcomes a') : a' = calls.foldl stored a := by
  induction h with
  | nil => rfl
  | cons hstep _ ih =>
    rw [ih, hstep.after]
    rfl

theorem transferOf_ne_reportLuns {cdb : Cdb} (h : transferOf cdb = some tr) :
    byte cdb.1 0 ≠ REPORT_LUNS := by
  intro hop
  rw [transferOf, hop] at h
  exact Option.some_ne_none tr h.symm

theorem execute_dispatch {lu' : LogicalUnit} (hlun : lunNumber call.1.lun = some n)
    (hunit : t.luns[n]? = some (some lu)) (hop : byte call.1.cdb.1 0 ≠ REPORT_LUNS)
    (hd : dispatch lu call.1 call.2 = .ok (o, lu')) :
    t.execute call.1 call.2 = .ok (o, ⟨t.luns.set n (some lu')⟩) := by
  simp only [ScsiTarget.execute, hlun, hunit, Option.join_some, if_neg hop, hd]

theorem execute_same (hlun : lunNumber call.1.lun = some n)
    (hunit : t.luns[n]? = some (some lu)) (hop : byte call.1.cdb.1 0 ≠ REPORT_LUNS)
    (hd : dispatch lu call.1 call.2 = .ok (o, lu)) : t.execute call.1 call.2 = .ok (o, t) := by
  obtain ⟨hlt, hget⟩ := List.getElem?_eq_some_iff.1 hunit
  rw [execute_dispatch hlun hunit hop hd, ← hget, List.set_getElem_self]

theorem execute_no_unit (h : ∀ n lu, lunNumber call.1.lun = some n → t.luns[n]? ≠ some (some lu)) :
    ∃ o, t.execute call.1 call.2 = .ok (o, t) := by
  refine ⟨.check ILLEGAL_REQUEST ASC_LUN_NOT_SUPPORTED, ?_⟩
  rw [ScsiTarget.execute]
  cases hlun : lunNumber call.1.lun with
  | none => rfl
  | some n =>
    rcases hunit : t.luns[n]? with _ | _ | lu
    · simp only [hunit, Option.join_none]
    · simp only [hunit, Option.join_some]
    · exact absurd hunit (h n lu hlun)

theorem execute_other (hsize : 0 < lu.blockSize) (hlun : lunNumber call.1.lun = some n)
    (hunit : t.luns[n]? = some (some lu)) (htr : transferOf call.1.cdb = none) :
    ∃ o, t.execute call.1 call.2 = .ok (o, t) := by
  by_cases hop : byte call.1.cdb.1 0 = REPORT_LUNS
  · refine ⟨t.reportLuns, ?_⟩
    simp only [ScsiTarget.execute, hlun, hunit, Option.join_some, if_pos hop]
  · obtain ⟨o, hd⟩ := dispatch_other hsize htr call.2
    exact ⟨o, execute_same hlun hunit hop hd⟩

theorem execute_read (hlun : lunNumber call.1.lun = some n) (hunit : t.luns[n]? = some (some lu))
    (hdev : a[n]? = some (some dev)) (his : lu.Is dev) (htr : transferOf call.1.cdb = some tr)
    (hw : tr.write = false) :
    ∃ o, t.execute call.1 call.2 = .ok (o, t) ∧ Behaves a call o a := by
  have hop : byte call.1.cdb.1 0 ≠ REPORT_LUNS := transferOf_ne_reportLuns htr
  have hd := dispatch_transfer lu htr call.2
  rw [hw, if_neg Bool.false_ne_true] at hd
  by_cases hrange : tr.lba + tr.count ≤ dev.content.length
  · rw [his.read_inside hrange] at hd
    exact ⟨_, execute_same hlun hunit hop hd, .of_read ⟨hlun, hdev, htr, hrange⟩ hw⟩
  · obtain ⟨o, hread⟩ := his.read_outside hrange
    have hexec := execute_same hlun hunit hop (hd.trans hread)
    have hout : ∀ n' dev' tr', ¬ InRange a call.1 n' dev' tr' := fun n' dev' tr' h' => by
      obtain ⟨rfl, rfl, rfl⟩ := h'.eq_of hlun hdev htr
      exact hrange h'.range
    exact ⟨o, hexec, .out hout (execute_shaped hexec)⟩

theorem execute_write (h : t.Is a) (hlun : lunNumber call.1.lun = some n)
    (hunit : t.luns[n]? = some (some lu)) (hdev : a[n]? = some (some dev)) (his : lu.Is dev)
    (htr : transferOf call.1.cdb = some tr) (hw : tr.write = true) :
    ∃ o t' a', t.execute call.1 call.2 = .ok (o, t') ∧ Behaves a call o a' ∧ t'.Is a' := by
  have hop : byte call.1.cdb.1 0 ≠ REPORT_LUNS := transferOf_ne_reportLuns htr
  have hd := dispatch_transfer lu htr call.2
  rw [hw, if_pos rfl] at hd
  by_cases hfits : tr.lba + tr.count ≤ dev.content.length ∧ call.2.length = tr.count * dev.blockSize
  · obtain ⟨lu', hwrite, his'⟩ := his.write_fits hfits.1 hfits.2
    exact ⟨.ok, _, _, execute_dispatch hlun hunit hop (hd.trans hwrite),
      .of_store ⟨⟨hlun, hdev, htr, hfits.1⟩, hw, hfits.2⟩, forall₂_set h (.some his') n⟩
  · obtain ⟨o, hwrite⟩ := his.write_misfit hfits
    have hexec := execute_same hlun hunit hop (hd.trans hwrite)
    refine ⟨o, t, a, hexec, .idle ?_ ?_ (execute_shaped hexec), h⟩
    · intro n' dev' tr' h'
      obtain ⟨rfl, rfl, rfl⟩ := h'.toInRange.eq_of hlun hdev htr
      exact hfits ⟨h'.range, h'.length_eq⟩
    · intro n' dev' tr' h'
      obtain ⟨-, -, rfl⟩ := h'.eq_of hlun hdev htr
      exact hw

/-- Every command keeps the target and its devices together. -/
theorem execute_refines :
    Refines ScsiTarget.Is (fun t (call : TargetCall) => t.execute call.1 call.2) Behaves := by
  intro t a call h
  by_cases hnamed : ∃ n dev, lunNumber call.1.lun = some n ∧ a[n]? = some (some dev)
  · obtain ⟨n, dev, hlun, hdev⟩ := hnamed
    have hrel := forall₂_getElem? h n
    rw [hdev] at hrel
    rcases hunit : t.luns[n]? with _ | _ | lu <;> rw [hunit] at hrel <;>
      obtain ⟨⟨his⟩⟩ := hrel
    cases htr : transferOf call.1.cdb with
    | none =>
      obtain ⟨o, hexec⟩ := execute_other his.size_pos hlun hunit htr
      have hout : ∀ n' dev' tr', ¬ InRange a call.1 n' dev' tr' := fun n' dev' tr' h' => by
        rw [h'.transfer] at htr
        cases htr
      exact ⟨o, t, a, hexec, .out hout (execute_shaped hexec), h⟩
    | some tr =>
      cases hw : tr.write with
      | false =>
        obtain ⟨o, hexec, hbehaves⟩ := execute_read hlun hunit hdev his htr hw
        exact ⟨o, t, a, hexec, hbehaves, h⟩
      | true => exact execute_write h hlun hunit hdev his htr hw
  · have hout : ∀ n' dev' tr', ¬ InRange a call.1 n' dev' tr' := fun n' dev' tr' h' =>
      hnamed ⟨n', dev', h'.lun, h'.present⟩
    have hnone : ∀ n lu, lunNumber call.1.lun = some n → t.luns[n]? ≠ some (some lu) := by
      intro n lu hlun hunit
      have hrel := forall₂_getElem? h n
      rw [hunit] at hrel
      rcases hdev : a[n]? with _ | _ | dev <;> rw [hdev] at hrel <;> obtain ⟨⟨his⟩⟩ := hrel
      exact hnamed ⟨n, dev, hlun, hdev⟩
    obtain ⟨o, hexec⟩ := execute_no_unit hnone
    exact ⟨o, t, a, hexec, .out hout (execute_shaped hexec), h⟩

end Steps

theorem execute_congr (t : ScsiTarget) {cmd cmd' : ScsiCommand} {tr : Transfer}
    (hlun : cmd.lun = cmd'.lun) (h : transferOf cmd.cdb = some tr) (h' : transferOf cmd'.cdb = some tr)
    (data : List UInt8) : t.execute cmd data = t.execute cmd' data := by
  simp only [ScsiTarget.execute, hlun, if_neg (transferOf_ne_reportLuns h),
    if_neg (transferOf_ne_reportLuns h'), dispatch_transfer _ h, dispatch_transfer _ h']

/-- A unit over a serving master whose overlay holds some bytes is a device. -/
theorem ScsiTarget.exists_is {t : ScsiTarget}
    (hsize : ∀ lu, some lu ∈ t.luns → 0 < lu.blockSize)
    (hserves : ∀ lu, some lu ∈ t.luns → ∃ content flat, lu.master.Serves content ∧
      Holds lu.master content lu.overlay flat) : ∃ a, t.Is a := by
  obtain ⟨luns⟩ := t
  dsimp only at hsize hserves
  induction luns with
  | nil => exact ⟨[], .nil⟩
  | cons unit luns ih =>
    obtain ⟨a, ha⟩ := ih (fun lu hlu => hsize lu (List.mem_cons_of_mem _ hlu))
      (fun lu hlu => hserves lu (List.mem_cons_of_mem _ hlu))
    cases unit with
    | none => exact ⟨none :: a, .cons .none ha⟩
    | some lu =>
      obtain ⟨content, flat, hs, hholds⟩ := hserves lu List.mem_cons_self
      exact ⟨some (.ofList lu.blockSize flat) :: a,
        .cons (.some ⟨hsize lu List.mem_cons_self, content, flat, hs, hholds, rfl⟩) ha⟩

/-- A target over serving masters is one array of blocks for each present LUN, over every
sequence of commands: the outcomes are those that the arrays allow, the target goes on to
be the arrays, and the 10- and 16-byte forms of a transfer do the same. -/
theorem target_is_block_arrays (t : ScsiTarget)
    (hsize : ∀ lu, some lu ∈ t.luns → 0 < lu.blockSize)
    (hserves : ∀ lu, some lu ∈ t.luns → ∃ content flat, lu.master.Serves content ∧
      Holds lu.master content lu.overlay flat) :
    ∃ a, t.Is a ∧
      (∀ calls : List TargetCall, ∃ outcomes t' a',
        runs (fun t call => t.execute call.1 call.2) t calls = .ok (outcomes, t') ∧
        Allows Behaves a calls outcomes a' ∧ t'.Is a') ∧
      ∀ (t' : ScsiTarget) (cmd cmd' : ScsiCommand) (tr : Transfer) (data : List UInt8),
        cmd.lun = cmd'.lun → transferOf cmd.cdb = some tr → transferOf cmd'.cdb = some tr →
        t'.execute cmd data = t'.execute cmd' data := by
  obtain ⟨a, ha⟩ := ScsiTarget.exists_is hsize hserves
  exact ⟨a, ha, execute_refines.runs ha, fun t' cmd cmd' tr data hlun h h' =>
    execute_congr t' hlun h h' data⟩

/-- A disk of two blocks and a tail at LUN 1; LUN 0 is absent. -/
def tailTarget : ScsiTarget :=
  ⟨[none, some (.new (blankDisk 1300 (by decide)))]⟩

/-- A WRITE(16) of block 1 at LUN 1. -/
def writeLastBlock : TargetCall :=
  (⟨true, false, true, 0, 0x0001000000000000, 1, 512, 5, 0,
    ⟨[0x8a, 0, 0, 0, 0, 0, 0, 0, 0, 1, 0, 0, 0, 1, 0, 0], rfl⟩, []⟩, List.replicate 512 7)

/-- A READ(10) of both blocks at LUN 1. -/
def readBothBlocks : TargetCall :=
  (⟨true, true, false, 0, 0x0001000000000000, 2, 1024, 6, 0,
    ⟨[0x28, 0, 0, 0, 0, 0, 0, 0, 2, 0, 0, 0, 0, 0, 0, 0], rfl⟩, []⟩, [])

theorem target_is_block_arrays_tail : ∃ a, tailTarget.Is a ∧ ∃ outcomes t' a',
    runs (fun (t : ScsiTarget) (call : TargetCall) => t.execute call.1 call.2) tailTarget
      [writeLastBlock, readBothBlocks] = .ok (outcomes, t') ∧
    Allows Behaves a [writeLastBlock, readBothBlocks] outcomes a' ∧ t'.Is a' := by
  obtain ⟨a, ha, hruns, -⟩ := target_is_block_arrays tailTarget
    (fun lu hlu => by
      obtain rfl : lu = .new (blankDisk 1300 (by decide)) := by simpa [tailTarget] using hlu
      exact Nat.zero_lt_succ 511)
    (fun lu hlu => by
      obtain rfl : lu = .new (blankDisk 1300 (by decide)) := by simpa [tailTarget] using hlu
      have hserves := blankDisk_serves 1300 (by decide)
      exact ⟨_, _, hserves, Holds.empty hserves.length_eq⟩)
  exact ⟨a, ha, hruns _⟩

end XBoot.Iscsi
