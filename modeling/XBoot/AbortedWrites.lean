import XBoot.CommandLedger
import XBoot.SolicitedWrites

/-!
# Aborted writes

A task management request is answered with "function complete" and does nothing else. The
ledger tells which write was pending when the answer was sent, and whether it still is when
its next data arrives; the Data-Out that completes it executes it all the same.
-/

namespace XBoot.Iscsi

open RequestLedgers

variable {σ τ : Type}

def ABORT_TASK : UInt8 := 1
def ABORT_TASK_SET : UInt8 := 2
def LOGICAL_UNIT_RESET : UInt8 := 5
def TARGET_WARM_RESET : UInt8 := 6
def TARGET_COLD_RESET : UInt8 := 7

/-- The request asks for the end of the command, by its tag, with all commands of its
logical unit, or with all commands of the target. -/
def TaskMgmt.Covers (tm : TaskMgmt) (cmd : ScsiCommand) : Prop :=
  (tm.function = ABORT_TASK ∧ tm.refTaskTag = cmd.itt) ∨
    ((tm.function = ABORT_TASK_SET ∨ tm.function = LOGICAL_UNIT_RESET) ∧ tm.lun = cmd.lun) ∨
      tm.function = TARGET_WARM_RESET ∨ tm.function = TARGET_COLD_RESET

/-- The turn `t` after `before` answers "function complete" to a request that covers the
command in place `n`, which waits for data under the tag. -/
structure Turn.Aborts (before : List (Turn σ τ)) (t : Turn σ τ) (itt : UInt32) (n : ℕ)
    (cmd : ScsiCommand) : Prop where
  waits : (commandLedger before).waiting itt = some n
  command : ∃ u, before[n]? = some u ∧ u.req = .scsiCommand cmd
  covered : ∃ tm, t.req = .taskMgmt tm ∧ tm.Covers cmd
  complete : ∃ r, .taskMgmt r ∈ t.pdus ∧ r.response = 0

/-- The command was aborted, and waits for data under the tag. -/
def AbortedUnder (ts : List (Turn σ τ)) (itt : UInt32) (cmd : ScsiCommand) : Prop :=
  ∃ before t after n, ts = before ++ t :: after ∧ t.Aborts before itt n cmd ∧
    (commandLedger ts).waiting itt = some n

/-- A turn with the record of what it executes. -/
abbrev RecordedTurn (σ τ : Type) : Type := Turn (σ × List (ScsiCommand × List UInt8)) τ

/-- No Data-Out for an aborted command executes anything. -/
def AbortsHold (ts : List (RecordedTurn σ τ)) : Prop :=
  ∀ before t after d cmd, ts = before ++ t :: after → t.req = .dataOut d →
    AbortedUnder before d.itt cmd → t.after.2 = t.before.2

variable {tg : Targets σ τ} {c c' : Connection τ} {ts : List (Turn σ τ)} {cmd : ScsiCommand}
  {pdus : List Outbound} {bhs : List UInt8} {d : ScsiDataOut}
  {s s' : σ × List (ScsiCommand × List UInt8)}

namespace Connection

/-- The Data-Out fits into the buffer of a pending write and brings its bytes up to EDTL. -/
def Completes (c : Connection τ) (d : ScsiDataOut) : Prop :=
  c.stage = .fullFeature ∧ ∃ p, c.inFlight d.itt = some p ∧
    d.bufferOffset.toNat + d.data.length ≤ p.buf.length ∧
      p.cmd.edtl ≤ p.received + UInt32.ofNat d.data.length

private theorem dataOut_executes (h : c.handle (recording tg) s (.dataOut d) bhs = .ok (pdus, c', s'))
    (hcompletes : c.Completes d) :
    ∃ p buf, c.inFlight d.itt = some p ∧ s'.2 = s.2 ++ [(p.cmd, buf)] := by
  obtain ⟨hstage, p, hp, hin, hall⟩ := hcompletes
  cases handle_handles h with
  | misplaced hne => exact absurd hstage hne
  | dataOut _ hfeeds =>
    cases hfeeds with
    | unknown hnone => cases hnone.symm.trans hp
    | outside hp' hout =>
      cases hp.symm.trans hp'
      exact absurd hout (Nat.not_lt.2 hin)
    | more hp' _ hmore =>
      cases hp.symm.trans hp'
      exact absurd hmore (UInt32.not_lt.2 hall)
    | last hp' _ _ hfinishes =>
      have hrecorded := finishes_recorded hfinishes
      exact ⟨_, _, hp', hrecorded⟩

private theorem dataOut_idle (h : c.handle (recording tg) s (.dataOut d) bhs = .ok (pdus, c', s'))
    (hno : ¬ c.Completes d) : s'.2 = s.2 := by
  cases handle_handles h with
  | misplaced => rfl
  | dataOut hstage hfeeds =>
    cases hfeeds with
    | unknown => rfl
    | outside => rfl
    | more => rfl
    | last hp hin hall => exact absurd ⟨hstage, _, hp, hin, hall⟩ hno

private theorem taskMgmt_idle {tm : TaskMgmt}
    (h : c.handle (recording tg) s (.taskMgmt tm) bhs = .ok (pdus, c', s')) :
    c'.inFlight = c.inFlight ∧ s' = s ∧
      (c.stage = .fullFeature → ∃ r, pdus = [.taskMgmt r] ∧ r.itt = tm.itt ∧ r.response = 0) := by
  cases handle_handles h with
  | misplaced hstage _ hgives =>
    cases hgives
    exact ⟨rfl, rfl, fun hfull => absurd hfull hstage⟩
  | taskMgmt _ hgives =>
    cases hgives
    exact ⟨rfl, rfl, fun _ => ⟨_, rfl, rfl, rfl⟩⟩

end Connection

private theorem AbortedUnder.cmd_eq {itt : UInt32} {p : PendingWrite}
    (haborted : AbortedUnder ts itt cmd) (htracks : Tracks ts c) (hp : c.inFlight itt = some p) :
    p.cmd = cmd := by
  obtain ⟨before, t, after, n, rfl, haborts, hwaiting⟩ := haborted
  obtain ⟨u, hu, hcmd⟩ := haborts.command
  have hrel := htracks itt
  rw [hwaiting, hp] at hrel
  cases hrel with
  | some hcommand =>
    obtain ⟨u', hu', hcmd'⟩ := hcommand
    rw [List.getElem?_append_left (List.getElem?_eq_some_iff.1 hu).1] at hu'
    cases hu.symm.trans hu'
    cases hcmd.symm.trans hcmd'
    rfl

/-- In a run a task management request changes nothing, and in FullFeature it is answered
"function complete" alone; an aborted write is executed by the Data-Out that completes it, and by
no other one. -/
theorem aborted_write_executed_iff (tg : Targets σ τ) {ts : List (RecordedTurn σ τ)}
    (h : Conversation (recording tg) ts c) :
    (∀ t ∈ ts, ∀ tm, t.req = .taskMgmt tm →
      t.next.inFlight = t.conn.inFlight ∧ t.after = t.before ∧
        (t.conn.stage = .fullFeature →
          ∃ r, t.pdus = [.taskMgmt r] ∧ r.itt = tm.itt ∧ r.response = 0)) ∧
    ∀ before t after d cmd, ts = before ++ t :: after → t.req = .dataOut d →
      AbortedUnder before d.itt cmd →
        (t.conn.Completes d → ∃ buf, t.after.2 = t.before.2 ++ [(cmd, buf)]) ∧
          (¬ t.conn.Completes d → t.after.2 = t.before.2) := by
  constructor
  · intro t ht tm hreq
    have hhappens := h.happens t ht
    rw [Turn.Happens, hreq] at hhappens
    exact Connection.taskMgmt_idle hhappens
  · intro before t after d cmd hts hreq haborted
    subst hts
    obtain ⟨hbefore, hhappens⟩ := h.turn_at
    rw [Turn.Happens, hreq] at hhappens
    refine ⟨fun hcompletes => ?_, Connection.dataOut_idle hhappens⟩
    obtain ⟨p, buf, hp, hexecuted⟩ := Connection.dataOut_executes hhappens hcompletes
    exact ⟨buf, haborted.cmd_eq hbefore.tracks hp ▸ hexecuted⟩

def abortTask : TaskMgmt where
  function := ABORT_TASK
  lun := 0
  itt := 2
  refTaskTag := 1
  cmdSn := 6
  expStatSn := 0

def afterAbort : Connection ℕ := afterCommand.nextStatSn

def abortTurn (w : σ) : Turn σ ℕ where
  conn := afterCommand
  before := w
  req := .taskMgmt abortTask
  bhs := []
  pdus := (afterCommand.taskMgmt abortTask).1
  next := afterAbort
  after := w

private theorem inFlight_afterAbort : afterAbort.inFlight 1 = some (.start writeOneBlock) :=
  inFlight_afterCommand

/-- A login, a write that waits for its data, and its abort. -/
def abortTurns (w : σ) (pdus : List Outbound) : List (Turn σ ℕ) :=
  writeTurns w pdus ++ [abortTurn w]

private theorem abortTurns_conversation {tg : Targets σ ℕ} {w : σ} (hget : tg.get w "a" = some 0) :
    ∃ pdus, Conversation tg (abortTurns w pdus) afterAbort := by
  obtain ⟨pdus, hconversation⟩ := writeTurns_conversation hget
  have hthird : (abortTurn w).Happens tg := rfl
  exact ⟨pdus, hconversation.turn hthird⟩

private theorem abortTurns_abort (w : σ) (pdus : List Outbound) :
    AbortedUnder (abortTurns w pdus) 1 writeOneBlock := by
  refine ⟨writeTurns w pdus, abortTurn w, [], 1, rfl, ⟨rfl, ?_, ?_, ?_⟩, rfl⟩
  · exact ⟨writeTurn w (.loggedIn 0 5) writeOneBlock, rfl, rfl⟩
  · exact ⟨abortTask, rfl, .inl ⟨rfl, rfl⟩⟩
  · exact ⟨_, List.mem_singleton.2 rfl, rfl⟩

/-- The turn of a Data-Out after the abort. -/
def dataTurn (d : ScsiDataOut) (pdus : List Outbound) (next : Connection ℕ) (w : World)
    (executed : List (ScsiCommand × List UInt8)) : RecordedTurn World ℕ where
  conn := afterAbort
  before := (oneBlockDisk, [])
  req := .dataOut d
  bhs := []
  pdus := pdus
  next := next
  after := (w, executed)

/-- Half of the block does not execute the aborted write. -/
theorem half_block_not_executed :
    ∃ (ts : List (RecordedTurn World ℕ)) (t : RecordedTurn World ℕ),
      AbortedUnder ts 1 writeOneBlock ∧ t.req = .dataOut (halfBlock 0) ∧ t.after.2 = t.before.2 := by
  have hget : (recording (World.targets id)).get (oneBlockDisk, []) "a" = some 0 := by decide
  obtain ⟨pdus, hconversation⟩ := abortTurns_conversation hget
  have hmore : afterAbort.dataOut (recording (World.targets id)) (oneBlockDisk, []) (halfBlock 0)
      [] = _ := Connection.dataOut_more inFlight_afterAbort
    (by rw [length_oneBlock, length_halfBlock]; decide)
    (by rw [received_halfBlock]; decide)
  obtain ⟨pdus', next, hhandle⟩ : ∃ pdus' next, afterAbort.handle (recording (World.targets id))
      (oneBlockDisk, []) (.dataOut (halfBlock 0)) [] = .ok (pdus', next, oneBlockDisk, []) :=
    ⟨_, _, hmore⟩
  have hhappens : (dataTurn (halfBlock 0) pdus' next oneBlockDisk []).Happens
      (recording (World.targets id)) := hhandle
  have haborted := abortTurns_abort (oneBlockDisk, ([] : List (ScsiCommand × List UInt8))) pdus
  refine ⟨_, _, haborted, rfl, ((aborted_write_executed_iff (World.targets id)
    (hconversation.turn hhappens)).2 _ _ [] (halfBlock 0) _ rfl rfl haborted).2 fun hcompletes => ?_⟩
  obtain ⟨-, p, hp, -, hall⟩ := hcompletes
  cases inFlight_afterAbort.symm.trans hp
  rw [length_halfBlock] at hall
  exact absurd hall (by decide)

private theorem wholeBlock_executes {completed : PendingWrite}
    (hcompleted : completed = (PendingWrite.start writeOneBlock).append wholeBlock)
    (hok : (World.execute 0 completed.cmd completed.buf oneBlockDisk).isOk = true) :
    ∃ pdus next w, afterAbort.handle (recording (World.targets id)) (oneBlockDisk, [])
      (.dataOut wholeBlock) [] = .ok (pdus, next, w, [(completed.cmd, completed.buf)]) := by
  have hdataOut : ∃ pdus next w, afterAbort.dataOut (recording (World.targets id))
      (oneBlockDisk, []) wholeBlock [] = .ok (pdus, next, w, [(completed.cmd, completed.buf)]) :=
    last_recorded inFlight_afterAbort (by rw [length_oneBlock, length_wholeBlock]; decide)
      (by rw [received_wholeBlock]; decide) hcompleted rfl hok
  exact hdataOut

/-- The Data-Out that follows the abort executes the aborted write. -/
theorem aborted_write_executed :
    ¬ ∀ ts c, Conversation (recording (World.targets id)) ts c → AbortsHold ts := by
  intro hall
  have hget : (recording (World.targets id)).get (oneBlockDisk, []) "a" = some 0 := by decide
  obtain ⟨pdus, hconversation⟩ := abortTurns_conversation hget
  obtain ⟨pdus', next, w, hhandle⟩ := wholeBlock_executes rfl (by decide +kernel)
  generalize (PendingWrite.start writeOneBlock).append wholeBlock = completed at hhandle
  have hhappens : (dataTurn wholeBlock pdus' next w [(completed.cmd, completed.buf)]).Happens
      (recording (World.targets id)) := hhandle
  have hhold := hall _ _ (hconversation.turn hhappens) _ _ [] wholeBlock _ rfl rfl
    (abortTurns_abort _ pdus)
  cases hhold

end XBoot.Iscsi
