import XBoot.PduEncoding
import XBoot.SessionSteps
import XBoot.TargetRegistry
import XBoot.TransferLengths

/-!
# Residuals of commands that do not write

An initiator learns from the PDU with the status how much of the expected transfer
took place. The target sends all data that the command produces, and no PDU of it ever
sets a residual flag, so the report is right exactly when the command produces the
expected length.
-/

namespace XBoot.Iscsi

open ListSlices BigEndian PlacedFields Storage

def residualOf (pdu : List UInt8) : ℕ × Bool × Bool :=
  (ofBe (slice pdu 44 4), flag pdu 1 0x02, flag pdu 1 0x04)

/-- The residual of a command that produces `produced` bytes where `edtl` are expected. -/
def owedResidual (edtl produced : ℕ) : ℕ × Bool × Bool :=
  if produced < edtl then (edtl - produced, true, false)
  else if edtl < produced then (produced - edtl, false, true)
  else (0, false, false)

def Outbound.dataInLength : Outbound → ℕ
  | .dataIn r => r.data.length
  | _ => 0

def Outbound.carriesStatus : Outbound → Bool
  | .dataIn r => r.hasStatus
  | .scsiResp _ => true
  | _ => false

/-- The PDUs carry no more data than is expected and produced, and the one with the status
reports the residual. -/
structure TransferReported (edtl produced : ℕ) (pdus : List Outbound) : Prop where
  bounded : (pdus.map Outbound.dataInLength).sum ≤ min edtl produced
  status : ∃ pdu ∈ pdus, pdu.carriesStatus = true
  residual : ∀ pdu ∈ pdus, pdu.carriesStatus = true → residualOf pdu.encode = owedResidual edtl produced

theorem owedResidual_self (n : ℕ) : owedResidual n n = (0, false, false) := by
  rw [owedResidual, if_neg (Nat.lt_irrefl n), if_neg (Nat.lt_irrefl n)]

theorem eq_of_owedResidual {edtl produced count : ℕ}
    (h : (count, false, false) = owedResidual edtl produced) : edtl = produced := by
  rw [owedResidual] at h
  split at h
  · cases h
  · split at h
    · cases h
    · omega

theorem byte_of_slice {pdu : List UInt8} {pos : ℕ} {b : UInt8} (h : slice pdu pos 1 = [b]) :
    byte pdu pos = b := by
  have hget : (slice pdu pos 1)[0]? = some b := by rw [h]; rfl
  rw [getElem?_slice, if_pos Nat.one_pos, Nat.add_zero] at hget
  rw [byte, List.getD_eq_getElem?_getD, hget]
  rfl

theorem residualOf_dataIn (r : ScsiDataIn) : residualOf (Outbound.dataIn r).encode = (0, false, false) := by
  have hgap : slice (Outbound.dataIn r).encode 44 4 = List.replicate 4 0 := by
    apply Outbound.slice_gap
    · decide
    · exact .inr (by decide)
    · simp [places, Outbound.fields, ScsiDataIn.fields, put32, put64, Avoids]
  have hmem : (1, [bit r.final_ 0x80 ||| bit r.ack 0x40 ||| bit r.hasStatus 0x01]) ∈
      (Outbound.dataIn r).fields := by
    simp [Outbound.fields, ScsiDataIn.fields]
  have hflags := byte_of_slice ((Outbound.dataIn r).slice_field hmem)
  rw [residualOf, hgap, flag, flag, hflags]
  cases r.final_ <;> cases r.ack <;> cases r.hasStatus <;> rfl

theorem residualOf_scsiResp (r : ScsiResponse) :
    residualOf (Outbound.scsiResp r).encode = (r.residual.toNat, false, false) := by
  have hcount : slice (Outbound.scsiResp r).encode 44 4 = toBe 4 r.residual.toNat := by
    have hmem : put32 44 r.residual ∈ (Outbound.scsiResp r).fields := by
      simp [Outbound.fields, ScsiResponse.fields]
    simpa [put32] using (Outbound.scsiResp r).slice_field hmem
  have hone : (1, [0x80]) ∈ (Outbound.scsiResp r).fields := by
    simp [Outbound.fields, ScsiResponse.fields]
  have hflags := byte_of_slice ((Outbound.scsiResp r).slice_field hone)
  rw [residualOf, hcount, flag, flag, hflags, ofBe_toBe_of_lt r.residual.toNat_lt]
  rfl

section Answers

variable {σ τ : Type} {tg : Targets σ τ} {w w' : σ} {c c' : Connection τ} {cmd : ScsiCommand}
  {pdus : List Outbound} {bhs : List UInt8} {outcome : ScsiOutcome}

private theorem dataInChunks_transfer (c : Connection τ) (cmd : ScsiCommand) (data : List UInt8)
    (offset : ℕ) (dataSn : UInt32) :
    ((c.dataInChunks cmd data offset dataSn).1.map Outbound.dataInLength).sum =
        data.length - offset ∧
      (∀ pdu ∈ (c.dataInChunks cmd data offset dataSn).1, ∃ r, pdu = .dataIn r) ∧
      (offset < data.length →
        ∃ pdu ∈ (c.dataInChunks cmd data offset dataSn).1, pdu.carriesStatus = true) := by
  fun_induction Connection.dataInChunks c cmd data offset dataSn with
  | case1 c offset dataSn hlt stop isLast pdu cnext rest c'' hrest ih =>
    rw [hrest] at ih
    obtain ⟨hsum, hall, hstatus⟩ := ih
    have hstop : offset ≤ stop ∧ stop ≤ data.length := by omega
    refine ⟨?_, ?_, fun _ => ?_⟩
    · have hpdu : pdu.dataInLength = stop - offset := length_slice (by omega)
      rw [List.map_cons, List.sum_cons, hpdu, hsum]
      omega
    · intro pdu' hmem
      rcases List.mem_cons.1 hmem with rfl | hmem
      · exact ⟨_, rfl⟩
      · exact hall pdu' hmem
    · by_cases hlast : stop = data.length
      · exact ⟨pdu, List.mem_cons_self, decide_eq_true hlast⟩
      · obtain ⟨pdu', hmem, hpdu'⟩ := hstatus (by omega)
        exact ⟨pdu', List.mem_cons_of_mem _ hmem, hpdu'⟩
  | case2 c offset dataSn hge =>
    have hnone : ([].map Outbound.dataInLength).sum = data.length - offset := by
      rw [List.map_nil, List.sum_nil]
      omega
    exact ⟨hnone, fun _ hmem => absurd hmem List.not_mem_nil, fun hlt => absurd hlt hge⟩

/-- A command that the target executes is answered by Data-In PDUs, or by a response that
carries what is left of EDTL. -/
theorem handle_executed {target : τ} (bhs : List UInt8) (hstage : c.stage = .fullFeature)
    (hwrite : cmd.write = false) (hbound : c.target = some target)
    (hexecute : tg.execute target cmd cmd.data w = .ok (outcome, w')) :
    c.handle tg w (.scsiCommand cmd) bhs =
      if cmd.read ∧ outcome.status = GOOD ∧ outcome.data ≠ [] then
        Connection.answer w' (c.counted.dataInChunks cmd outcome.data 0 0)
      else
        Connection.answer w' (c.counted.scsiResponse cmd.itt outcome
          (UInt32.ofNat (cmd.edtl.toNat - (UInt32.ofNat outcome.data.length).toNat))) := by
  simp only [Connection.handle, hstage]
  rw [Connection.handleFullFeature, Connection.scsiCommand, hbound]
  dsimp only
  rw [hwrite, if_neg Bool.false_ne_true, hexecute]

theorem reported_dataIn (h : (c.dataInChunks cmd outcome.data 0 0).1 = pdus)
    (hdata : outcome.data ≠ []) (edtl : ℕ) :
    TransferReported edtl outcome.data.length pdus ↔ edtl = outcome.data.length := by
  obtain ⟨hsum, hall, hstatus⟩ := dataInChunks_transfer c cmd outcome.data 0 0
  rw [h] at hsum hall hstatus
  constructor
  · intro hreported
    obtain ⟨pdu, hmem, hpdu⟩ := hreported.status
    have hresidual := hreported.residual pdu hmem hpdu
    obtain ⟨r, rfl⟩ := hall pdu hmem
    rw [residualOf_dataIn] at hresidual
    exact eq_of_owedResidual hresidual
  · rintro rfl
    refine ⟨by omega, hstatus (List.length_pos_iff.2 hdata), fun pdu hmem _ => ?_⟩
    obtain ⟨r, rfl⟩ := hall pdu hmem
    rw [residualOf_dataIn, owedResidual_self]

theorem reported_scsiResponse {itt edtl : UInt32} :
    TransferReported edtl.toNat outcome.data.length (c.scsiResponse itt outcome
        (UInt32.ofNat (edtl.toNat - (UInt32.ofNat outcome.data.length).toNat))).1 ↔
      edtl.toNat = outcome.data.length := by
  constructor
  · intro hreported
    have hresidual := hreported.residual _ (List.mem_singleton_self _) rfl
    rw [residualOf_scsiResp] at hresidual
    exact eq_of_owedResidual hresidual
  · intro heq
    have hlength : (UInt32.ofNat outcome.data.length).toNat = edtl.toNat := by
      rw [← heq, UInt32.ofNat_toNat]
    refine ⟨Nat.zero_le _, ⟨_, List.mem_singleton_self _, rfl⟩, fun pdu hmem _ => ?_⟩
    rw [List.mem_singleton.1 hmem, residualOf_scsiResp, hlength, Nat.sub_self, heq, owedResidual_self]
    rfl

theorem reported_iff_produced {target : τ} (hstage : c.stage = .fullFeature)
    (hwrite : cmd.write = false) (hbound : c.target = some target)
    (hexecute : tg.execute target cmd cmd.data w = .ok (outcome, w'))
    (h : c.handle tg w (.scsiCommand cmd) bhs = .ok (pdus, c', w')) :
    TransferReported cmd.edtl.toNat outcome.data.length pdus ↔
      cmd.edtl.toNat = outcome.data.length := by
  rw [handle_executed bhs hstage hwrite hbound hexecute] at h
  split at h
  · rename_i hdata
    cases h
    exact reported_dataIn rfl hdata.2.2 _
  · cases h
    exact reported_scsiResponse

end Answers

/-- The bound target executes the command, and the transfer is reported. -/
def TransferAnswered (order : List String → List String) (w : World) (c : Connection ℕ)
    (cmd : ScsiCommand) (bhs : List UInt8) (outcome : ScsiOutcome) : Prop :=
  ∃ pdus c' w', c.handle (World.targets order) w (.scsiCommand cmd) bhs = .ok (pdus, c', w') ∧
    TransferReported cmd.edtl.toNat outcome.data.length pdus

private theorem answered_iff_produced (order : List String → List String) {w : World}
    {c : Connection ℕ} {cmd : ScsiCommand} (bhs : List UInt8) {t : ℕ} {target target' : ScsiTarget}
    {outcome : ScsiOutcome} (hstage : c.stage = .fullFeature) (hwrite : cmd.write = false)
    (hbound : c.target = some t) (htarget : w.instances[t]? = some target)
    (hexecute : target.execute cmd cmd.data = .ok (outcome, target')) :
    TransferAnswered order w c cmd bhs outcome ↔ cmd.edtl.toNat = outcome.data.length := by
  have hworld := World.execute_of_get htarget hexecute order
  constructor
  · rintro ⟨pdus, c', w', h, hreported⟩
    have hhandle := handle_executed bhs hstage hwrite hbound hworld
    have hw : w' = { w with instances := w.instances.set t target' } := by
      rw [h] at hhandle
      split at hhandle <;> cases hhandle <;> rfl
    subst hw
    exact (reported_iff_produced hstage hwrite hbound hworld h).1 hreported
  · intro heq
    obtain ⟨pdus, c', h⟩ : ∃ pdus c', c.handle (World.targets order) w (.scsiCommand cmd) bhs =
        .ok (pdus, c', { w with instances := w.instances.set t target' }) := by
      rw [handle_executed bhs hstage hwrite hbound hworld]
      split <;> exact ⟨_, _, rfl⟩
    exact ⟨pdus, c', _, h, (reported_iff_produced hstage hwrite hbound hworld h).2 heq⟩

/-- A command without the W bit on a connection in FullFeature has its transfer reported
exactly when EDTL is the length of the data that the unit and the CDB call for. -/
theorem transfer_reported_iff (order : List String → List String) {w : World} {c : Connection ℕ}
    {cmd : ScsiCommand} (bhs : List UInt8) {t : ℕ} {target target' : ScsiTarget}
    {outcome : ScsiOutcome} (hstage : c.stage = .fullFeature) (hwrite : cmd.write = false)
    (hbound : c.target = some t) (htarget : w.instances[t]? = some target)
    (hexecute : target.execute cmd cmd.data = .ok (outcome, target')) :
    TransferAnswered order w c cmd bhs outcome ↔ cmd.edtl.toNat = target.dataLength cmd := by
  rw [answered_iff_produced order bhs hstage hwrite hbound htarget hexecute, length_execute hexecute]

/-- A standard INQUIRY for up to 255 bytes. -/
def inquire (edtl : UInt32) : ScsiCommand where
  final_ := true
  read := true
  write := false
  attr := 0
  lun := 0
  itt := 1
  edtl := edtl
  cmdSn := 5
  expStatSn := 0
  cdb := ⟨[0x12, 0, 0, 0, 255, 0, 0, 0, 0, 0, 0, 0, 0, 0, 0, 0], rfl⟩
  data := []

def oneUnit (m : BackingStore) : ScsiTarget := ⟨[some (.new m)]⟩

private theorem execute_inquire (m : BackingStore) (edtl : UInt32) :
    (oneUnit m).execute (inquire edtl) [] =
      .ok (.good (LogicalUnit.new m).standardInquiry, oneUnit m) := by
  have hnumber : lunNumber (inquire edtl).lun = some 0 := by
    have hzero : lunNumber 0 = some 0 := by decide
    exact hzero
  have hop : byte (inquire edtl).cdb.1 0 = INQUIRY := rfl
  have hinquiry : inquiry (.new m) (inquire edtl).cdb = .good (LogicalUnit.new m).standardInquiry := by
    have hvpd : flag (inquire edtl).cdb.1 1 1 = false := by
      have hflag : flag (inquire 0).cdb.1 1 1 = false := by decide
      exact hflag
    have hpage : ¬ byte (inquire edtl).cdb.1 2 ≠ 0 := fun hne => hne rfl
    rw [inquiry, if_pos hvpd, if_neg hpage]
  have hdispatch : dispatch (.new m) (inquire edtl) [] =
      .ok (.good (LogicalUnit.new m).standardInquiry, .new m) := by
    rw [dispatch_inquiry hop, hinquiry]
  rw [ScsiTarget.execute, hnumber]
  dsimp only [oneUnit, List.getElem?_cons_zero, Option.join_some]
  rw [hop, if_neg (by decide), hdispatch]
  rfl

private theorem length_standardInquiry (m : BackingStore) :
    (ScsiOutcome.good (LogicalUnit.new m).standardInquiry).data.length = 36 := rfl

theorem inquiry_of_36_reported :
    TransferAnswered id (World.empty.insert "a" (oneUnit (blankDisk 512 (by decide))))
      (.loggedIn 0 5) (inquire 36) []
      (.good (LogicalUnit.new (blankDisk 512 (by decide))).standardInquiry) := by
  have hexecute := execute_inquire (blankDisk 512 (by decide)) 36
  have hlength := length_execute hexecute
  rw [length_standardInquiry] at hlength
  exact (transfer_reported_iff id [] rfl rfl rfl rfl hexecute).2 hlength

/-- An INQUIRY for 255 bytes returns 36 of them and reports no residual. -/
theorem inquiry_of_255_not_reported :
    ¬ ∀ (w : World) (c : Connection ℕ) (cmd : ScsiCommand) (bhs : List UInt8) (t : ℕ)
      (target target' : ScsiTarget) (outcome : ScsiOutcome), c.stage = .fullFeature →
        cmd.write = false → c.target = some t → w.instances[t]? = some target →
        target.execute cmd cmd.data = .ok (outcome, target') →
          TransferAnswered id w c cmd bhs outcome := by
  intro hall
  have hexecute := execute_inquire (blankDisk 512 (by decide)) 255
  have hanswered := hall (World.empty.insert "a" (oneUnit (blankDisk 512 (by decide))))
    (.loggedIn 0 5) (inquire 255) [] 0 _ _ _ rfl rfl rfl rfl hexecute
  have hlength := (answered_iff_produced id [] rfl rfl rfl rfl hexecute).1 hanswered
  rw [length_standardInquiry] at hlength
  exact absurd hlength (by decide)

end XBoot.Iscsi
