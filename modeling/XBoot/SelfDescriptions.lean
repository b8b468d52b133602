import XBoot.LunAddresses
import XBoot.TransferLengths

/-!
# Responses that state their own length

INQUIRY, MODE SENSE and REPORT LUNS return data with fields that count the bytes after
them. Each field is narrowed to its own width, so that it counts right as long as the serial
of the unit, or the list of units, is short enough.
-/

namespace XBoot.Iscsi

open ListSlices BigEndian Utf8 Storage Volume

/-- A field of a response that counts the bytes from `first` on. -/
structure LengthField where
  offset : ℕ
  width : ℕ
  first : ℕ
  deriving DecidableEq, Repr

/-- The field counts the bytes that are there. -/
def LengthField.Counts (field : LengthField) (data : List UInt8) : Prop :=
  ofBe (slice data field.offset field.width) + field.first = data.length

instance (field : LengthField) (data : List UInt8) : Decidable (field.Counts data) :=
  inferInstanceAs (Decidable (_ = _))

/-- The length fields of the response to a command: the additional length of the standard
INQUIRY data, the page length of a VPD page and the length of the one designator in page 0x83,
the mode data length, and the LUN list length. -/
def lengthFields (cdb : Cdb) : List LengthField :=
  let op := byte cdb.1 0
  if op = INQUIRY then
    if flag cdb.1 1 0x01 = false then [⟨4, 1, 5⟩]
    else if byte cdb.1 2 = 0x83 then [⟨2, 2, 4⟩, ⟨7, 1, 8⟩]
    else [⟨3, 1, 4⟩]
  else if op = MODE_SENSE_6 then [⟨0, 1, 1⟩]
  else if op = MODE_SENSE_10 then [⟨0, 2, 2⟩]
  else if op = REPORT_LUNS then [⟨0, 4, 8⟩]
  else []

/-- Every length field of a response is right. -/
def Consistent (cdb : Cdb) (data : List UInt8) : Prop := ∀ field ∈ lengthFields cdb, field.Counts data

/-- What the response describes fits its length fields: the serial in a VPD page, or the list of
units. -/
def ScsiTarget.Fits (t : ScsiTarget) (lu : LogicalUnit) (cdb : Cdb) : Prop :=
  let op := byte cdb.1 0
  if op = REPORT_LUNS then t.present.length < 2 ^ 29
  else if op = INQUIRY ∧ flag cdb.1 1 0x01 = true ∧ byte cdb.1 2 = 0x80 then lu.serialLength < 256
  else if op = INQUIRY ∧ flag cdb.1 1 0x01 = true ∧ byte cdb.1 2 = 0x83 then lu.serialLength ≤ 231
  else True

private theorem counts_iff {field : LengthField} {data : List UInt8} {n : ℕ}
    (hfield : ofBe (slice data field.offset field.width) = n % 256 ^ field.width)
    (hlength : data.length = n + field.first) : field.Counts data ↔ n < 256 ^ field.width := by
  rw [LengthField.Counts, hfield, hlength, Nat.add_right_cancel_iff]
  exact ⟨fun h => h ▸ Nat.mod_lt _ (Nat.pow_pos (by decide)), Nat.mod_eq_of_lt⟩

variable {t : ScsiTarget} {lu : LogicalUnit} {cdb : Cdb} {o : ScsiOutcome}

theorem standardInquiry_counts (lu : LogicalUnit) : (⟨4, 1, 5⟩ : LengthField).Counts lu.standardInquiry := by
  have hvendor := lu.vendor.2
  have hproduct := lu.product.2
  have hrevision := lu.revision.2
  rw [LengthField.Counts, LogicalUnit.standardInquiry]
  simp [slice, ofBe, hvendor, hproduct, hrevision]

theorem vpdUnitSerial_counts_iff (lu : LogicalUnit) :
    (⟨3, 1, 4⟩ : LengthField).Counts lu.vpdUnitSerial ↔ lu.serialLength < 256 := by
  refine counts_iff (n := lu.serialLength) ?_ ?_
  · simp [LogicalUnit.vpdUnitSerial, LogicalUnit.serialLength, slice, ofBe]
  · simp [LogicalUnit.vpdUnitSerial, LogicalUnit.serialLength]

theorem vpdDeviceId_page_counts_iff (lu : LogicalUnit) :
    (⟨2, 2, 4⟩ : LengthField).Counts lu.vpdDeviceId ↔ 28 + lu.serialLength < 65536 := by
  have hvendor := lu.vendor.2
  have hproduct := lu.product.2
  refine counts_iff (n := 28 + lu.serialLength) ?_ ?_
  · dsimp only [LogicalUnit.vpdDeviceId]
    rw [slice_append_left (by simp), slice_append_self (by rfl) (by simp), ofBe_toBe]
    simp [LogicalUnit.serialLength, hvendor, hproduct]
    omega
  · simp [LogicalUnit.vpdDeviceId, LogicalUnit.serialLength, hvendor, hproduct]
    omega

theorem vpdDeviceId_designator_counts_iff (lu : LogicalUnit) :
    (⟨7, 1, 8⟩ : LengthField).Counts lu.vpdDeviceId ↔ lu.serialLength ≤ 231 := by
  have hvendor := lu.vendor.2
  have hproduct := lu.product.2
  rw [counts_iff (n := 24 + lu.serialLength) ?_ ?_]
  · show 24 + lu.serialLength < 256 ↔ lu.serialLength ≤ 231
    omega
  · dsimp only [LogicalUnit.vpdDeviceId]
    rw [slice_append_right (by simp)]
    simp [LogicalUnit.serialLength, slice, ofBe, hvendor, hproduct]
    omega
  · simp [LogicalUnit.vpdDeviceId, LogicalUnit.serialLength, hvendor, hproduct]
    omega

theorem reportLuns_counts_iff (t : ScsiTarget) :
    (⟨0, 4, 8⟩ : LengthField).Counts t.reportLuns.data ↔ t.present.length < 2 ^ 29 := by
  rw [counts_iff (n := t.present.length * 8) ?_ ?_]
  · show t.present.length * 8 < 4294967296 ↔ _
    omega
  · rw [ScsiTarget.reportLuns, data_good, List.append_assoc, slice_append_left (by simp), slice_toBe,
      ofBe_toBe]
    rfl
  · simp [ScsiTarget.reportLuns, ScsiTarget.present]
    omega

/-- The mode data length counts what follows, with or without the caching page. -/
theorem modeSense_consistent (hop : byte cdb.1 0 = MODE_SENSE_6 ∨ byte cdb.1 0 = MODE_SENSE_10) :
    Consistent cdb (modeSense cdb).data := by
  have hpages : ∃ pages : List UInt8, pages.length ≤ 20 ∧ (if byte cdb.1 2 &&& 0x3f = 0x08 ∨
      byte cdb.1 2 &&& 0x3f = 0x3f then cachingPage else []) = pages := by
    refine ⟨_, ?_, rfl⟩
    split <;> decide
  obtain ⟨pages, hlen, hpages⟩ := hpages
  rcases hop with hop | hop
  · have hfields : lengthFields cdb = [⟨0, 1, 1⟩] := by
      rw [lengthFields, hop]
      rfl
    have hmod : (3 + pages.length) % 256 = 3 + pages.length := Nat.mod_eq_of_lt (by omega)
    rw [Consistent, hfields, List.forall_mem_singleton, modeSense, hpages, hop,
      if_neg (by decide), LengthField.Counts]
    simp [slice, ofBe, hmod]
    omega
  · have hfields : lengthFields cdb = [⟨0, 2, 2⟩] := by
      rw [lengthFields, hop]
      rfl
    have hlt : 6 + pages.length < 256 ^ 2 := by omega
    rw [Consistent, hfields, List.forall_mem_singleton, modeSense, hpages, hop, if_pos rfl,
      LengthField.Counts, data_good, List.append_assoc, slice_append_left (by simp), slice_toBe,
      ofBe_toBe_of_lt hlt]
    simp
    omega

/-- INQUIRY data states its length exactly if the serial fits the page that was asked for. -/
theorem inquiry_consistent_iff (hop : byte cdb.1 0 = INQUIRY) (hgood : (inquiry lu cdb).status = GOOD) :
    Consistent cdb (inquiry lu cdb).data ↔ t.Fits lu cdb := by
  have hreport : INQUIRY ≠ REPORT_LUNS := by decide
  have hcheck : CHECK_CONDITION ≠ GOOD := by decide
  rw [inquiry] at hgood ⊢
  rw [Consistent, lengthFields, ScsiTarget.Fits]
  simp only [hop, if_pos, if_neg hreport, true_and]
  by_cases hevpd : flag cdb.1 1 0x01 = false
  · simp only [hevpd, if_pos, Bool.false_eq_true, false_and, if_false] at hgood ⊢
    split at hgood
    · exact absurd hgood hcheck
    · rename_i hpage
      rw [if_neg hpage, List.forall_mem_singleton]
      exact iff_of_true (standardInquiry_counts lu) trivial
  · rw [Bool.not_eq_false] at hevpd
    simp only [hevpd, Bool.true_eq_false, if_false, true_and] at hgood ⊢
    by_cases hsupported : byte cdb.1 2 = 0x00
    · have hcounts : (⟨3, 1, 4⟩ : LengthField).Counts vpdSupportedPages := by decide
      rw [hsupported]
      exact (List.forall_mem_singleton).trans (iff_of_true hcounts trivial)
    · rw [if_neg hsupported] at hgood ⊢
      by_cases hserial : byte cdb.1 2 = 0x80
      · rw [hserial]
        exact (List.forall_mem_singleton).trans (vpdUnitSerial_counts_iff lu)
      · rw [if_neg hserial] at hgood ⊢
        by_cases hdevice : byte cdb.1 2 = 0x83
        · rw [if_pos hdevice, if_pos hdevice, if_neg hserial, if_pos hdevice, List.forall_mem_cons,
            List.forall_mem_singleton, data_good, vpdDeviceId_page_counts_iff,
            vpdDeviceId_designator_counts_iff]
          omega
        · rw [if_neg hdevice] at hgood
          exact absurd hgood hcheck

theorem lengthFields_eq_nil (hinquiry : byte cdb.1 0 ≠ INQUIRY) (hreport : byte cdb.1 0 ≠ REPORT_LUNS)
    (hmode : ¬ (byte cdb.1 0 = MODE_SENSE_6 ∨ byte cdb.1 0 = MODE_SENSE_10)) :
    lengthFields cdb = [] := by
  obtain ⟨hmode6, hmode10⟩ := not_or.1 hmode
  rw [lengthFields, if_neg hinquiry, if_neg hmode6, if_neg hmode10, if_neg hreport]

theorem dispatch_modeSense {cmd : ScsiCommand}
    (hop : byte cmd.cdb.1 0 = MODE_SENSE_6 ∨ byte cmd.cdb.1 0 = MODE_SENSE_10) (data : List UInt8) :
    dispatch lu cmd data = .ok (modeSense cmd.cdb, lu) := by
  rw [dispatch]
  rcases hop with hop | hop
  · rw [hop]
    rfl
  · rw [hop]
    rfl

/-- A GOOD response of the unit that is addressed states its length exactly if it fits. -/
theorem dispatch_consistent_iff {cmd : ScsiCommand} {data : List UInt8} {lu' : LogicalUnit}
    (hreport : byte cmd.cdb.1 0 ≠ REPORT_LUNS) (h : dispatch lu cmd data = .ok (o, lu'))
    (hgood : o.status = GOOD) : Consistent cmd.cdb o.data ↔ t.Fits lu cmd.cdb := by
  by_cases hinquiry : byte cmd.cdb.1 0 = INQUIRY
  · rw [dispatch_inquiry hinquiry] at h
    cases h
    exact inquiry_consistent_iff hinquiry hgood
  · have hfits : t.Fits lu cmd.cdb := by
      rw [ScsiTarget.Fits, if_neg hreport, if_neg (fun h => hinquiry h.1),
        if_neg (fun h => hinquiry h.1)]
      trivial
    refine iff_of_true ?_ hfits
    by_cases hmode : byte cmd.cdb.1 0 = MODE_SENSE_6 ∨ byte cmd.cdb.1 0 = MODE_SENSE_10
    · rw [dispatch_modeSense hmode] at h
      cases h
      exact modeSense_consistent hmode
    · rw [Consistent, lengthFields_eq_nil hinquiry hreport hmode]
      exact List.forall_mem_nil _

/-- A GOOD response states its length exactly if what it describes fits its length fields. -/
theorem execute_consistent_iff {t' : ScsiTarget} {cmd : ScsiCommand} {data : List UInt8}
    (h : t.execute cmd data = .ok (o, t')) (hgood : o.status = GOOD) :
    Consistent cmd.cdb o.data ↔ ∀ n lu, t.unitAt cmd.lun = some (n, lu) → t.Fits lu cmd.cdb := by
  rw [ScsiTarget.execute_eq] at h
  cases hunit : t.unitAt cmd.lun with
  | none =>
    rw [hunit] at h
    cases h
    exact absurd hgood (by decide)
  | some unit =>
    obtain ⟨n, lu⟩ := unit
    have hone : (∀ n' lu', some (n, lu) = some (n', lu') → t.Fits lu' cmd.cdb) ↔ t.Fits lu cmd.cdb := by
      refine ⟨fun hall => hall n lu rfl, fun hfits n' lu' heq => ?_⟩
      cases heq
      exact hfits
    rw [hone]
    rw [hunit] at h
    dsimp only at h
    by_cases hreport : byte cmd.cdb.1 0 = REPORT_LUNS
    · have hfields : lengthFields cmd.cdb = [⟨0, 4, 8⟩] := by
        rw [lengthFields, hreport]
        rfl
      rw [if_pos hreport] at h
      cases h
      rw [Consistent, hfields, List.forall_mem_singleton, ScsiTarget.Fits, if_pos hreport]
      exact reportLuns_counts_iff t
    · rw [if_neg hreport] at h
      cases hdispatch : dispatch lu cmd data with
      | error e =>
        rw [hdispatch] at h
        cases h
      | ok result =>
        rw [hdispatch] at h
        cases h
        exact dispatch_consistent_iff hreport hdispatch hgood

/-- Every self-describing response of the target is consistent. -/
def ScsiTarget.SelfDescribing (t : ScsiTarget) : Prop :=
  ∀ cmd data o t', t.execute cmd data = .ok (o, t') → o.status = GOOD → Consistent cmd.cdb o.data

private theorem unitAt_of_lt {n : ℕ} (hn : n < 256) (hlu : t.luns[n]? = some (some lu)) :
    t.unitAt (lunAddress n) = some (n, lu) := by
  rw [unitAt_lunAddress, Nat.mod_eq_of_lt hn, hlu]
  rfl

private theorem luns_of_unitAt {address : UInt64} {n : ℕ} (h : t.unitAt address = some (n, lu)) :
    n < 256 ∧ t.luns[n]? = some (some lu) := by
  rw [ScsiTarget.unitAt, lunNumber_eq] at h
  split at h
  · rename_i hlt
    obtain ⟨lu', hlu, heq⟩ := Option.map_eq_some_iff.1 h
    cases heq
    exact ⟨by omega, Option.join_eq_some_iff.1 hlu⟩
  · cases h

/-- A command for the unit at LUN `n`. -/
def commandFor (n : ℕ) (cdb : Cdb) : ScsiCommand :=
  ⟨true, true, false, 0, lunAddress n, 1, 255, 1, 0, cdb, []⟩

def inquireDevice : Cdb := ⟨[0x12, 1, 0x83, 0, 0xff, 0, 0, 0, 0, 0, 0, 0, 0, 0, 0, 0], rfl⟩

def listUnits : Cdb := ⟨[0xa0, 0, 0, 0, 0, 0, 0, 0, 0, 0xff, 0, 0, 0, 0, 0, 0], rfl⟩

private theorem fits_of_short (hserial : lu.serialLength ≤ 231) (hunits : t.present.length < 2 ^ 29)
    (cdb : Cdb) : t.Fits lu cdb := by
  rw [ScsiTarget.Fits]
  split_ifs
  · exact hunits
  · exact Nat.lt_of_le_of_lt hserial (by decide)
  · exact hserial

private theorem fits_inquireDevice : t.Fits lu inquireDevice ↔ lu.serialLength ≤ 231 := by
  rw [ScsiTarget.Fits, if_neg (by decide), if_neg (by decide), if_pos (by decide)]

private theorem fits_listUnits : t.Fits lu listUnits ↔ t.present.length < 2 ^ 29 := by
  rw [ScsiTarget.Fits, if_pos (by decide)]

private theorem execute_inquireDevice {n : ℕ} (hunit : t.unitAt (lunAddress n) = some (n, lu)) :
    t.execute (commandFor n inquireDevice) [] =
      .ok (inquiry lu inquireDevice, ⟨t.luns.set n (some lu)⟩) := by
  have hunit' : t.unitAt (commandFor n inquireDevice).lun = some (n, lu) := hunit
  have hreport : byte (commandFor n inquireDevice).cdb.1 0 ≠ REPORT_LUNS :=
    show byte inquireDevice.1 0 ≠ REPORT_LUNS by decide
  have hdispatch : dispatch lu (commandFor n inquireDevice) [] = .ok (inquiry lu inquireDevice, lu) :=
    dispatch_inquiry rfl []
  rw [ScsiTarget.execute_eq, hunit']
  simp only [if_neg hreport, hdispatch]

private theorem execute_listUnits {n : ℕ} (hunit : t.unitAt (lunAddress n) = some (n, lu)) :
    t.execute (commandFor n listUnits) [] = .ok (t.reportLuns, t) := by
  have hunit' : t.unitAt (commandFor n listUnits).lun = some (n, lu) := hunit
  rw [ScsiTarget.execute_eq, hunit']
  exact if_pos rfl

private theorem short_of_selfDescribing (h : t.SelfDescribing) {n : ℕ} (hn : n < 256)
    (hlu : t.luns[n]? = some (some lu)) : lu.serialLength ≤ 231 ∧ t.present.length < 2 ^ 29 := by
  have hunit := unitAt_of_lt hn hlu
  have hdevice := execute_inquireDevice hunit
  have hlist := execute_listUnits hunit
  have hserial := (execute_consistent_iff hdevice rfl).1 (h _ _ _ _ hdevice rfl) n lu hunit
  have hunits := (execute_consistent_iff hlist rfl).1 (h _ _ _ _ hlist rfl) n lu hunit
  exact ⟨fits_inquireDevice.1 hserial, fits_listUnits.1 hunits⟩

/-- A response states its length exactly if what it describes fits its fields: each GOOD response
if the serial or the list of units does, and all of them if each unit that a command can address
has a serial of at most 231 bytes and the list has fewer than `2 ^ 29` units. -/
theorem self_describing_iff (t : ScsiTarget) :
    (∀ cmd data o t', t.execute cmd data = .ok (o, t') → o.status = GOOD →
      (Consistent cmd.cdb o.data ↔ ∀ n lu, t.unitAt cmd.lun = some (n, lu) → t.Fits lu cmd.cdb)) ∧
    (t.SelfDescribing ↔ ∀ n lu, n < 256 → t.luns[n]? = some (some lu) →
      lu.serialLength ≤ 231 ∧ t.present.length < 2 ^ 29) := by
  refine ⟨fun cmd data o t' => execute_consistent_iff, ?_, ?_⟩
  · intro h n lu hn hlu
    exact short_of_selfDescribing h hn hlu
  · intro h cmd data o t' hexecute hgood
    rw [execute_consistent_iff hexecute hgood]
    intro n lu hunit
    obtain ⟨hn, hlu⟩ := luns_of_unitAt hunit
    obtain ⟨hserial, hunits⟩ := h n lu hn hlu
    exact fits_of_short hserial hunits cmd.cdb

theorem self_describing_one_unit : emptyDiskTarget.SelfDescribing := by
  refine (self_describing_iff emptyDiskTarget).2.2 fun n lu _ hlu => ?_
  cases n with
  | succ n => cases hlu
  | zero =>
    cases hlu
    exact ⟨by decide, by decide⟩

/-- A unit whose serial has 232 letters. -/
def longSerial : LogicalUnit :=
  (LogicalUnit.new (blankDisk 600 (by decide))).withSerial (String.ofList (List.replicate 232 'a'))

/-- The designator of 256 bytes is announced with a length of 0. -/
theorem long_serial_miscounted :
    (ScsiTarget.mk [some longSerial]).execute (commandFor 0 inquireDevice) [] =
      .ok (.good longSerial.vpdDeviceId, ⟨[some longSerial]⟩) ∧
    ¬ Consistent inquireDevice longSerial.vpdDeviceId := by
  refine ⟨rfl, fun h => ?_⟩
  have hdesignator := h ⟨7, 1, 8⟩ (by decide)
  rw [vpdDeviceId_designator_counts_iff] at hdesignator
  have hlength : longSerial.serialLength = 232 := length_encode_replicate 232 (by decide)
  omega

end XBoot.Iscsi
