import XBoot.Session

/-!
# What a connection can do

All that handling a request can come to, as one relation with a constructor for each
way through the code, and a run of a connection from its start. The shared state
changes freely between the steps of a run.
-/

namespace XBoot.Iscsi

open ListSlices Storage

variable {σ τ : Type}

/-- A login from the security stage straight to FullFeature. -/
def loginTo (iqn : String) (cmdSn : UInt32) : LoginRequest where
  transit := true
  continue_ := false
  csg := 0
  nsg := 3
  versionMax := 0
  versionMin := 0
  isid := ⟨List.replicate 6 0, by decide⟩
  tsih := 0
  itt := 0
  cid := 0
  cmdSn := cmdSn
  expStatSn := 0
  text := [("TargetName", iqn)]

/-- The write that a command starts with its immediate data. -/
def PendingWrite.start (cmd : ScsiCommand) : PendingWrite where
  cmd := cmd
  buf := overwrite (List.replicate cmd.edtl.toNat 0) 0 cmd.data
  received := UInt32.ofNat cmd.data.length
  r2tSn := 0

def PendingWrite.append (p : PendingWrite) (d : ScsiDataOut) : PendingWrite :=
  { p with
    buf := overwrite p.buf d.bufferOffset.toNat d.data
    received := p.received + UInt32.ofNat d.data.length }

def PendingWrite.nextR2t (p : PendingWrite) : PendingWrite := { p with r2tSn := p.r2tSn + 1 }

/-- A length within a 32-bit field is kept by the conversion to its type. -/
theorem toNat_ofNat_of_le {k : ℕ} {n : UInt32} (h : k ≤ n.toNat) : (UInt32.ofNat k).toNat = k :=
  UInt32.toNat_ofNat_of_lt' (Nat.lt_of_le_of_lt h n.toNat_lt)

theorem length_start {cmd : ScsiCommand} (h : cmd.data.length ≤ cmd.edtl.toNat) :
    (PendingWrite.start cmd).buf.length = cmd.edtl.toNat := by
  rw [PendingWrite.start, length_overwrite (by simpa using h), List.length_replicate]

namespace Connection

/-- A pair of PDUs and next connection that a handler gives. -/
abbrev Gives (r : List Outbound × Connection τ) (pdus : List Outbound) (c' : Connection τ) : Prop :=
  r = (pdus, c')

/-- The assembled write `p` is executed and answered. -/
structure Finishes (tg : Targets σ τ) (w : σ) (c : Connection τ) (p : PendingWrite)
    (pdus : List Outbound) (c' : Connection τ) (w' : σ) : Prop where
  executed : ∃ target outcome, c.target = some target ∧
    tg.execute target p.cmd p.buf w = .ok (outcome, w') ∧
      Gives (c.scsiResponse p.cmd.itt outcome 0) pdus c'

inductive Commands (tg : Targets σ τ) (w : σ) (c : Connection τ) (bhs : List UInt8)
    (cmd : ScsiCommand) (pdus : List Outbound) (c' : Connection τ) : σ → Prop where
  /-- More immediate data than EDTL. -/
  | oversized (hwrite : cmd.write = true) (hover : cmd.edtl < UInt32.ofNat cmd.data.length)
      (hgives : Gives (c.reject PROTOCOL_ERROR bhs) pdus c') : Commands tg w c bhs cmd pdus c' w
  | gathers (hwrite : cmd.write = true) (hless : cmd.data.length < cmd.edtl.toNat)
      (hgives : Gives ([c.solicit cmd.itt (.start cmd)], c.setInFlight cmd.itt (some (.start cmd)))
        pdus c') : Commands tg w c bhs cmd pdus c' w
  | completes {w' : σ} (hwrite : cmd.write = true) (hall : cmd.data.length = cmd.edtl.toNat)
      (hfinishes : Finishes tg w c (.start cmd) pdus c' w') : Commands tg w c bhs cmd pdus c' w'
  | dataIn {w' : σ} {target : τ} {outcome : ScsiOutcome} (hwrite : cmd.write = false)
      (hexecute : tg.execute target cmd cmd.data w = .ok (outcome, w'))
      (hdata : cmd.read = true ∧ outcome.status = GOOD ∧ outcome.data ≠ [])
      (hgives : Gives (c.dataInChunks cmd outcome.data 0 0) pdus c')
      (htarget : c.target = some target) : Commands tg w c bhs cmd pdus c' w'
  | responds {w' : σ} {target : τ} {outcome : ScsiOutcome} {residual : UInt32}
      (hwrite : cmd.write = false) (hexecute : tg.execute target cmd cmd.data w = .ok (outcome, w'))
      (hgives : Gives (c.scsiResponse cmd.itt outcome residual) pdus c')
      (htarget : c.target = some target)
      (hnone : ¬ (cmd.read = true ∧ outcome.status = GOOD ∧ outcome.data ≠ [])) :
      Commands tg w c bhs cmd pdus c' w'

inductive Feeds (tg : Targets σ τ) (w : σ) (c : Connection τ) (bhs : List UInt8)
    (d : ScsiDataOut) (pdus : List Outbound) (c' : Connection τ) : σ → Prop where
  | unknown (hnone : c.inFlight d.itt = none) (hgives : Gives (c.reject PROTOCOL_ERROR bhs) pdus c') :
      Feeds tg w c bhs d pdus c' w
  | outside {p : PendingWrite} (hp : c.inFlight d.itt = some p)
      (hout : p.buf.length < d.bufferOffset.toNat + d.data.length)
      (hgives : Gives ((c.setInFlight d.itt none).reject PROTOCOL_ERROR bhs) pdus c') :
      Feeds tg w c bhs d pdus c' w
  | more {p : PendingWrite} (hp : c.inFlight d.itt = some p)
      (hin : d.bufferOffset.toNat + d.data.length ≤ p.buf.length)
      (hmore : (p.append d).received < p.cmd.edtl)
      (hgives : Gives ([c.solicit d.itt (p.append d).nextR2t],
        c.setInFlight d.itt (some (p.append d).nextR2t)) pdus c') :
      Feeds tg w c bhs d pdus c' w
  | last {p : PendingWrite} {w' : σ} (hp : c.inFlight d.itt = some p)
      (hin : d.bufferOffset.toNat + d.data.length ≤ p.buf.length)
      (hall : p.cmd.edtl ≤ (p.append d).received)
      (hfinishes : Finishes tg w (c.setInFlight d.itt none) (p.append d) pdus c' w') :
      Feeds tg w c bhs d pdus c' w'

/-- The ways through the handling of a request. -/
inductive Handles (tg : Targets σ τ) (w : σ) (c : Connection τ) (bhs : List UInt8)
    (pdus : List Outbound) (c' : Connection τ) : Request → σ → Prop where
  | login {lr : LoginRequest} (hstage : c.stage = .login)
      (hgives : Gives (c.handleLogin tg w lr) pdus c') : Handles tg w c bhs pdus c' (.login lr) w
  /-- A request out of its stage. -/
  | misplaced {req : Request} (hstage : c.stage ≠ .fullFeature)
      (hlogin : ∀ lr, req = .login lr → c.stage = .closing)
      (hgives : Gives ({ c with stage := .closing }.reject PROTOCOL_ERROR bhs) pdus c') :
      Handles tg w c bhs pdus c' req w
  | command {cmd : ScsiCommand} {target : τ} {w' : σ} (hstage : c.stage = .fullFeature)
      (htarget : c.target = some target) (hcommands : Commands tg w c.counted bhs cmd pdus c' w') :
      Handles tg w c bhs pdus c' (.scsiCommand cmd) w'
  | unbound {cmd : ScsiCommand} (hstage : c.stage = .fullFeature) (htarget : c.target = none)
      (hgives : Gives (c.reject PROTOCOL_ERROR bhs) pdus c') :
      Handles tg w c bhs pdus c' (.scsiCommand cmd) w
  | dataOut {d : ScsiDataOut} {w' : σ} (hstage : c.stage = .fullFeature)
      (hfeeds : Feeds tg w c bhs d pdus c' w') : Handles tg w c bhs pdus c' (.dataOut d) w'
  | nopOut {n : NopOut} (hstage : c.stage = .fullFeature) (hgives : Gives (c.nopIn n) pdus c') :
      Handles tg w c bhs pdus c' (.nopOut n) w
  | text {t : TextRequest} (hstage : c.stage = .fullFeature)
      (hgives : Gives (c.textResponse tg w t) pdus c') : Handles tg w c bhs pdus c' (.text t) w
  | taskMgmt {t : TaskMgmt} (hstage : c.stage = .fullFeature)
      (hgives : Gives (c.taskMgmt t) pdus c') : Handles tg w c bhs pdus c' (.taskMgmt t) w
  | logout {l : LogoutRequest} (hstage : c.stage = .fullFeature)
      (hgives : Gives (c.logout l) pdus c') : Handles tg w c bhs pdus c' (.logout l) w
  | loginAgain {lr : LoginRequest} (hstage : c.stage = .fullFeature)
      (hgives : Gives (c.reject PROTOCOL_ERROR bhs) pdus c') :
      Handles tg w c bhs pdus c' (.login lr) w
  | unsupported {opcode : ℕ} {itt : UInt32} (hstage : c.stage = .fullFeature)
      (hgives : Gives (c.reject COMMAND_NOT_SUPPORTED bhs) pdus c') :
      Handles tg w c bhs pdus c' (.unsupported opcode itt) w

/-- The parameters that a login negotiates. -/
def negotiated (c : Connection τ) (lr : LoginRequest) : SessionParams :=
  if operational lr then
    lr.text.foldl (fun (p : SessionParams) (kv : String × String) => p.negotiate kv.1 kv.2) c.params
  else c.params

/-- A login is accepted with the response `r`. -/
structure Accepts (c : Connection τ) (lr : LoginRequest) (r : LoginResponse) (c' : Connection τ) :
    Prop where
  statSn_eq : r.statSn = (c.sequenced lr).statSn
  expCmdSn_eq : r.expCmdSn = lr.cmdSn
  maxCmdSn_eq : r.maxCmdSn = lr.cmdSn + QUEUE_DEPTH
  itt_eq : r.itt = lr.itt
  text_eq : r.text = if operational lr then replyKeys (c.negotiated lr) else []
  stage_eq : c'.stage = if lr.transit = true ∧ lr.nsg = 3 then .fullFeature else c.stage
  params_eq : c'.params = c.negotiated lr
  keeps_target : c.target ≠ none → c'.target = c.target
  bound : lr.transit = true → lr.nsg = 3 → c'.target ≠ none
  statSn_next : c'.statSn = (c.sequenced lr).statSn + 1
  expCmdSn_next : c'.expCmdSn = lr.cmdSn
  inFlight_eq : c'.inFlight = c.inFlight

inductive Logins (c : Connection τ) (lr : LoginRequest) (pdus : List Outbound) (c' : Connection τ) :
    Prop where
  | fails (htarget : c.target = none) (hgives : Gives (loginFail (c.sequenced lr) lr) pdus c') :
      Logins c lr pdus c'
  | accepts {r : LoginResponse} (hpdus : pdus = [.login r]) (haccepts : Accepts c lr r c') :
      Logins c lr pdus c'

/-- The connections differ in their serial numbers only. -/
structure Keeps (c c' : Connection τ) : Prop where
  stage_eq : c'.stage = c.stage
  params_eq : c'.params = c.params
  target_eq : c'.target = c.target
  inFlight_eq : c'.inFlight = c.inFlight

variable {tg : Targets σ τ} {w w' : σ} {c c' : Connection τ} {pdus : List Outbound}
  {bhs : List UInt8}

private theorem answer_ok {r : List Outbound × Connection τ}
    (h : answer w r = .ok (pdus, c', w')) : Gives r pdus c' ∧ w' = w := by
  cases h
  exact ⟨rfl, rfl⟩

theorem finishWrite_finishes {p : PendingWrite} (h : c.finishWrite tg w p = .ok (pdus, c', w')) :
    Finishes tg w c p pdus c' w' := by
  rw [finishWrite] at h
  cases htarget : c.target with
  | none => rw [htarget] at h; cases h
  | some target =>
    rw [htarget] at h
    dsimp only at h
    cases hexec : tg.execute target p.cmd p.buf w with
    | error e => rw [hexec] at h; cases h
    | ok r =>
      rw [hexec] at h
      obtain ⟨hgives, rfl⟩ := answer_ok h
      exact ⟨target, r.1, htarget, hexec, hgives⟩

theorem beginWrite_commands {cmd : ScsiCommand} (hwrite : cmd.write = true)
    (h : c.beginWrite tg w cmd bhs = .ok (pdus, c', w')) : Commands tg w c bhs cmd pdus c' w' := by
  rw [beginWrite] at h
  dsimp only at h
  split at h
  · obtain ⟨hgives, rfl⟩ := answer_ok h
    exact .oversized hwrite (by assumption) hgives
  · split at h
    · cases h
    · have hle : cmd.data.length ≤ cmd.edtl.toNat := by omega
      have hlen := toNat_ofNat_of_le hle
      split at h
      · have hall : UInt32.ofNat cmd.data.length = cmd.edtl := by assumption
        exact .completes hwrite (by rw [← hlen, hall]) (finishWrite_finishes h)
      · obtain ⟨hgives, rfl⟩ := answer_ok h
        have hne : UInt32.ofNat cmd.data.length ≠ cmd.edtl := by assumption
        have hne' : cmd.data.length ≠ cmd.edtl.toNat := fun heq =>
          hne (UInt32.toNat_inj.1 (hlen.trans heq))
        exact .gathers hwrite (by omega) hgives

theorem scsiCommand_handles {cmd : ScsiCommand} (hstage : c.stage = .fullFeature)
    (h : c.scsiCommand tg w cmd bhs = .ok (pdus, c', w')) :
    Handles tg w c bhs pdus c' (.scsiCommand cmd) w' := by
  rw [scsiCommand] at h
  cases htarget : c.target with
  | none =>
    rw [htarget] at h
    obtain ⟨hgives, rfl⟩ := answer_ok h
    exact .unbound hstage htarget hgives
  | some target =>
    rw [htarget] at h
    dsimp only at h
    refine .command hstage htarget ?_
    cases hwrite : cmd.write with
    | true =>
      rw [hwrite, if_pos rfl] at h
      exact beginWrite_commands hwrite h
    | false =>
      rw [hwrite, if_neg (by decide)] at h
      cases hexec : tg.execute target cmd cmd.data w with
      | error e => rw [hexec] at h; cases h
      | ok r =>
        rw [hexec] at h
        dsimp only at h
        split at h
        · obtain ⟨hgives, rfl⟩ := answer_ok h
          exact .dataIn hwrite hexec (by assumption) hgives htarget
        · obtain ⟨hgives, rfl⟩ := answer_ok h
          exact .responds hwrite hexec hgives htarget (by assumption)

theorem takeWrite_setInFlight (c : Connection τ) (itt : UInt32) (p : PendingWrite) :
    (c.setInFlight itt (some p)).takeWrite tg w itt = (c.setInFlight itt none).finishWrite tg w p := by
  rw [takeWrite, setInFlight_inFlight, Function.update_self, setInFlight_setInFlight]

theorem dataOut_feeds {d : ScsiDataOut} (h : c.dataOut tg w d bhs = .ok (pdus, c', w')) :
    Feeds tg w c bhs d pdus c' w' := by
  rw [dataOut] at h
  cases hp : c.inFlight d.itt with
  | none =>
    rw [hp] at h
    obtain ⟨hgives, rfl⟩ := answer_ok h
    exact .unknown hp hgives
  | some p =>
    rw [hp] at h
    dsimp only at h
    split at h
    · obtain ⟨hgives, rfl⟩ := answer_ok h
      exact .outside hp (by assumption) hgives
    · have hin : d.bufferOffset.toNat + d.data.length ≤ p.buf.length := by omega
      split at h
      · obtain ⟨hgives, rfl⟩ := answer_ok h
        exact .more hp hin (by assumption) hgives
      · rw [takeWrite_setInFlight] at h
        exact .last hp hin (UInt32.not_lt.1 (by assumption)) (finishWrite_finishes h)

/-- Handling a request goes one of these ways. -/
theorem handle_handles {req : Request} (h : c.handle tg w req bhs = .ok (pdus, c', w')) :
    Handles tg w c bhs pdus c' req w' := by
  cases hstage : c.stage with
  | fullFeature =>
    simp only [handle, hstage] at h
    cases req with
    | scsiCommand cmd => exact scsiCommand_handles hstage h
    | dataOut d => exact .dataOut hstage (dataOut_feeds h)
    | nopOut n => obtain ⟨hgives, rfl⟩ := answer_ok h; exact .nopOut hstage hgives
    | text t => obtain ⟨hgives, rfl⟩ := answer_ok h; exact .text hstage hgives
    | taskMgmt t => obtain ⟨hgives, rfl⟩ := answer_ok h; exact .taskMgmt hstage hgives
    | logout l => obtain ⟨hgives, rfl⟩ := answer_ok h; exact .logout hstage hgives
    | login lr => obtain ⟨hgives, rfl⟩ := answer_ok h; exact .loginAgain hstage hgives
    | unsupported opcode itt =>
      obtain ⟨hgives, rfl⟩ := answer_ok h
      exact .unsupported hstage hgives
  | login =>
    simp only [handle, hstage] at h
    cases req with
    | login lr => obtain ⟨hgives, rfl⟩ := answer_ok h; exact .login hstage hgives
    | _ =>
      obtain ⟨hgives, rfl⟩ := answer_ok h
      exact .misplaced (by rw [hstage]; decide) nofun hgives
  | closing =>
    simp only [handle, hstage] at h
    cases req <;>
      · obtain ⟨hgives, rfl⟩ := answer_ok h
        exact .misplaced (by rw [hstage]; decide) (fun _ _ => hstage) hgives

/-- The connection after a first login straight to FullFeature. -/
def loggedIn (target : τ) (cmdSn : UInt32) : Connection τ where
  stage := .fullFeature
  params := .initial
  target := some target
  statSn := 1
  expCmdSn := cmdSn
  inFlight := fun _ => none

/-- A first login that names a registered target reaches FullFeature. -/
theorem handle_loginTo {iqn : String} {cmdSn : UInt32} {target : τ} (bhs : List UInt8)
    (h : tg.get w iqn = some target) :
    ∃ pdus, (new : Connection τ).handle tg w (.login (loginTo iqn cmdSn)) bhs =
      .ok (pdus, loggedIn target cmdSn, w) := by
  have hbind : bindTarget tg w ((new : Connection τ).sequenced (loginTo iqn cmdSn))
      (loginTo iqn cmdSn) =
        some { (new : Connection τ).sequenced (loginTo iqn cmdSn) with target := some target } := by
    simp [bindTarget, loginTo, sequenced, new, h]
  have hlogin : ((new : Connection τ).handleLogin tg w (loginTo iqn cmdSn)).2 =
      loggedIn target cmdSn := by
    rw [handleLogin, hbind]
    rfl
  refine ⟨((new : Connection τ).handleLogin tg w (loginTo iqn cmdSn)).1, ?_⟩
  rw [← hlogin]
  rfl

/-- A Data-Out that leaves bytes outstanding is answered by an R2T. -/
theorem dataOut_more {d : ScsiDataOut} {p : PendingWrite} (hp : c.inFlight d.itt = some p)
    (hin : d.bufferOffset.toNat + d.data.length ≤ p.buf.length)
    (hmore : (p.append d).received < p.cmd.edtl) :
    c.dataOut tg w d bhs = answer w ([c.solicit d.itt (p.append d).nextR2t],
      c.setInFlight d.itt (some (p.append d).nextR2t)) := by
  rw [dataOut, hp]
  dsimp only
  rw [if_neg (Nat.not_lt.2 hin)]
  exact if_pos hmore

/-- The Data-Out that completes a write executes it. -/
theorem dataOut_last {d : ScsiDataOut} {p : PendingWrite} (hp : c.inFlight d.itt = some p)
    (hin : d.bufferOffset.toNat + d.data.length ≤ p.buf.length)
    (hall : p.cmd.edtl ≤ (p.append d).received) :
    c.dataOut tg w d bhs = (c.setInFlight d.itt none).finishWrite tg w (p.append d) := by
  rw [dataOut, hp]
  dsimp only
  rw [if_neg (Nat.not_lt.2 hin), takeWrite_setInFlight]
  exact if_neg (UInt32.not_lt.2 hall)

/-- A complete write is executed on the bound target. -/
theorem finishWrite_of_execute {p : PendingWrite} {target : τ} {outcome : ScsiOutcome}
    (htarget : c.target = some target)
    (hexecute : tg.execute target p.cmd p.buf w = .ok (outcome, w')) :
    c.finishWrite tg w p = answer w' (c.scsiResponse p.cmd.itt outcome 0) := by
  rw [finishWrite, htarget]
  dsimp only
  rw [hexecute]

private theorem dataInChunks_snd_keeps (c : Connection τ) (cmd : ScsiCommand) (data : List UInt8)
    (offset : ℕ) (dataSn : UInt32) : Keeps c (c.dataInChunks cmd data offset dataSn).2 := by
  fun_induction dataInChunks c cmd data offset dataSn with
  | case1 c offset dataSn hlt stop isLast pdu cnext rest c'' hrest ih =>
    have hnext : Keeps c cnext := by
      dsimp only [cnext]
      split <;> exact ⟨rfl, rfl, rfl, rfl⟩
    rw [hrest] at ih
    exact ⟨ih.stage_eq.trans hnext.stage_eq, ih.params_eq.trans hnext.params_eq,
      ih.target_eq.trans hnext.target_eq, ih.inFlight_eq.trans hnext.inFlight_eq⟩
  | case2 => exact ⟨rfl, rfl, rfl, rfl⟩

theorem dataInChunks_keeps {cmd : ScsiCommand} {data : List UInt8}
    (h : Gives (c.dataInChunks cmd data 0 0) pdus c') : Keeps c c' := by
  have hkeeps := dataInChunks_snd_keeps c cmd data 0 0
  rwa [h] at hkeeps

/-- Binding keeps the connection, or binds it to the target registered under the name given. -/
theorem bindTarget_binds {lr : LoginRequest} (h : bindTarget tg w c lr = some c') :
    (c' = c ∧ (lr.transit = true → lr.nsg = 3 → c.target ≠ none)) ∨
      ∃ kv target, lr.text.find? (·.1 = "TargetName") = some kv ∧ tg.get w kv.2 = some target ∧
        c.target = none ∧ c' = { c with target := some target } := by
  rw [bindTarget] at h
  split at h
  · rename_i hsome
    cases h
    exact .inl ⟨rfl, fun _ _ => Option.isSome_iff_ne_none.1 hsome⟩
  · rename_i hnone
    have hunbound : c.target = none := by simpa using hnone
    split at h
    · obtain ⟨target, hget, rfl⟩ := Option.map_eq_some_iff.1 h
      exact .inr ⟨_, target, ‹_›, hget, hunbound, rfl⟩
    · split at h
      · cases h
      · rename_i hno
        cases h
        exact .inl ⟨rfl, fun htransit hnsg => absurd ⟨htransit, hnsg⟩ hno⟩

private theorem bindTarget_some {lr : LoginRequest} (h : bindTarget tg w c lr = some c') :
    ∃ target, c' = { c with target := target } ∧ (c.target ≠ none → target = c.target) ∧
      (lr.transit = true → lr.nsg = 3 → target ≠ none) := by
  rcases bindTarget_binds h with ⟨rfl, hbound⟩ | ⟨kv, target, -, -, hunbound, rfl⟩
  · exact ⟨c'.target, rfl, fun _ => rfl, hbound⟩
  · exact ⟨some target, rfl, fun hne => absurd hunbound hne, fun _ _ => nofun⟩

private theorem bindTarget_none {lr : LoginRequest} (h : bindTarget tg w c lr = none) :
    c.target = none := by
  rw [bindTarget] at h
  split at h
  · cases h
  · rename_i hnone
    simpa using hnone

/-- Handling a login goes one of these ways. -/
theorem handleLogin_logins {lr : LoginRequest} (h : Gives (c.handleLogin tg w lr) pdus c') :
    Logins c lr pdus c' := by
  rw [handleLogin] at h
  cases hbind : bindTarget tg w (c.sequenced lr) lr with
  | none =>
    rw [hbind] at h
    have hunbound : (c.sequenced lr).target = none := bindTarget_none hbind
    exact .fails hunbound h
  | some bound =>
    rw [hbind] at h
    obtain ⟨target, rfl, hkeeps, hbound⟩ := bindTarget_some hbind
    cases h
    refine .accepts rfl ⟨rfl, rfl, rfl, rfl, rfl, ?_, rfl, hkeeps, hbound, rfl, rfl, rfl⟩
    dsimp only [sequenced]
    by_cases htransit : lr.transit = true <;> by_cases hnsg : lr.nsg = 3 <;> simp [htransit, hnsg]

/-- A login keeps the pending writes, and does not reach FullFeature without a target. -/
theorem handleLogin_bound {lr : LoginRequest} (hstage : c.stage = .login)
    (h : Gives (c.handleLogin tg w lr) pdus c') :
    c'.inFlight = c.inFlight ∧ (c'.stage = .fullFeature → c'.target ≠ none) := by
  cases handleLogin_logins h with
  | fails _ hgives =>
    cases hgives
    exact ⟨rfl, nofun⟩
  | accepts _ haccepts =>
    refine ⟨haccepts.inFlight_eq, fun hfull => ?_⟩
    rw [haccepts.stage_eq, hstage] at hfull
    split at hfull
    · rename_i hgo
      exact haccepts.bound hgo.1 hgo.2
    · cases hfull

theorem Finishes.keeps {p : PendingWrite} (h : Finishes tg w c p pdus c' w') : Keeps c c' := by
  obtain ⟨target, outcome, -, -, hgives⟩ := h.executed
  cases hgives
  exact ⟨rfl, rfl, rfl, rfl⟩

/-- A command without the W bit keeps the pending writes. -/
theorem Commands.keeps {cmd : ScsiCommand} (hread : cmd.write = false)
    (h : Commands tg w c bhs cmd pdus c' w') : Keeps c c' := by
  cases h with
  | oversized hwrite => rw [hread] at hwrite; cases hwrite
  | gathers hwrite => rw [hread] at hwrite; cases hwrite
  | completes hwrite => rw [hread] at hwrite; cases hwrite
  | dataIn _ _ _ hgives => exact dataInChunks_keeps hgives
  | responds _ _ hgives => cases hgives; exact ⟨rfl, rfl, rfl, rfl⟩

/-- A request that is neither a SCSI command nor a Data-Out nor a logout keeps the pending
writes of a connection in FullFeature. -/
theorem handle_keeps {req : Request} (hstage : c.stage = .fullFeature)
    (hcommand : ∀ cmd, req ≠ .scsiCommand cmd) (hdata : ∀ d, req ≠ .dataOut d)
    (hlogout : ∀ l, req ≠ .logout l) (h : c.handle tg w req bhs = .ok (pdus, c', w')) :
    Keeps c c' := by
  cases handle_handles h with
  | login hlogin => rw [hstage] at hlogin; cases hlogin
  | misplaced hnot => exact absurd hstage hnot
  | command => exact absurd rfl (hcommand _)
  | unbound => exact absurd rfl (hcommand _)
  | dataOut => exact absurd rfl (hdata _)
  | logout => exact absurd rfl (hlogout _)
  | nopOut _ hgives => cases hgives; exact ⟨rfl, rfl, rfl, rfl⟩
  | text _ hgives => cases hgives; exact ⟨rfl, rfl, rfl, rfl⟩
  | taskMgmt _ hgives => cases hgives; exact ⟨rfl, rfl, rfl, rfl⟩
  | loginAgain _ hgives => cases hgives; exact ⟨rfl, rfl, rfl, rfl⟩
  | unsupported _ hgives => cases hgives; exact ⟨rfl, rfl, rfl, rfl⟩

end Connection

/-- The connections agree on all but the serial numbers and the pending writes. -/
structure SameSession (c c' : Connection τ) : Prop where
  stage_eq : c'.stage = c.stage
  params_eq : c'.params = c.params
  target_eq : c'.target = c.target

variable {tg : Targets σ τ} {w w' : σ} {c c' : Connection τ} {pdus : List Outbound}
  {bhs : List UInt8} {req : Request}

namespace Connection

theorem Keeps.same_session (h : Keeps c c') : SameSession c c' :=
  ⟨h.stage_eq, h.params_eq, h.target_eq⟩

theorem Commands.same_session {cmd : ScsiCommand} (h : Commands tg w c bhs cmd pdus c' w') :
    SameSession c c' := by
  cases h with
  | oversized _ _ hgives => cases hgives; exact ⟨rfl, rfl, rfl⟩
  | gathers _ _ hgives => cases hgives; exact ⟨rfl, rfl, rfl⟩
  | completes _ _ hfinishes => exact hfinishes.keeps.same_session
  | dataIn _ _ _ hgives => exact (dataInChunks_keeps hgives).same_session
  | responds _ _ hgives => cases hgives; exact ⟨rfl, rfl, rfl⟩

theorem Feeds.same_session {d : ScsiDataOut} (h : Feeds tg w c bhs d pdus c' w') :
    SameSession c c' := by
  cases h with
  | unknown _ hgives => cases hgives; exact ⟨rfl, rfl, rfl⟩
  | outside _ _ hgives => cases hgives; exact ⟨rfl, rfl, rfl⟩
  | more _ _ _ hgives => cases hgives; exact ⟨rfl, rfl, rfl⟩
  | last _ _ _ hfinishes =>
    have hkeeps := hfinishes.keeps
    exact ⟨hkeeps.stage_eq, hkeeps.params_eq, hkeeps.target_eq⟩

/-- In FullFeature a request other than a logout keeps the session. -/
theorem handle_same (hstage : c.stage = .fullFeature)
    (h : c.handle tg w req bhs = .ok (pdus, c', w')) (hlogout : ∀ l, req ≠ .logout l) :
    SameSession c c' := by
  cases handle_handles h with
  | login hlogin => rw [hstage] at hlogin; cases hlogin
  | misplaced hnot => exact absurd hstage hnot
  | command _ _ hcommands =>
    have hsame := hcommands.same_session
    exact ⟨hsame.stage_eq, hsame.params_eq, hsame.target_eq⟩
  | unbound _ _ hgives => cases hgives; exact ⟨rfl, rfl, rfl⟩
  | dataOut _ hfeeds => exact hfeeds.same_session
  | logout => exact absurd rfl (hlogout _)
  | _ hstage _ =>
    refine (handle_keeps hstage ?_ ?_ ?_ h).same_session <;> exact fun _ => nofun

end Connection

/-- The burst lengths of `p` are at most those of `q`. -/
structure SessionParams.Within (p q : SessionParams) : Prop where
  maxBurst_le : p.maxBurstLength ≤ q.maxBurstLength
  firstBurst_le : p.firstBurstLength ≤ q.firstBurstLength

theorem SessionParams.Within.refl (p : SessionParams) : p.Within p := ⟨Nat.le_refl _, Nat.le_refl _⟩

theorem SessionParams.Within.trans {p q r : SessionParams} (h : p.Within q) (h' : q.Within r) :
    p.Within r :=
  ⟨Nat.le_trans h.maxBurst_le h'.maxBurst_le, Nat.le_trans h.firstBurst_le h'.firstBurst_le⟩

/-- Negotiation does not raise a burst length. -/
theorem SessionParams.negotiate_within (p : SessionParams) (key value : String) :
    (p.negotiate key value).Within p := by
  rw [SessionParams.negotiate]
  split_ifs
  · split <;> exact ⟨Nat.le_refl _, Nat.le_refl _⟩
  · split
    · exact ⟨Nat.le_refl _, Nat.min_le_left _ _⟩
    · exact ⟨Nat.le_refl _, Nat.le_refl _⟩
  · split
    · exact ⟨Nat.min_le_left _ _, Nat.le_refl _⟩
    · exact ⟨Nat.le_refl _, Nat.le_refl _⟩
  · exact ⟨Nat.le_refl _, Nat.le_refl _⟩
  · exact ⟨Nat.le_refl _, Nat.le_refl _⟩
  · exact ⟨Nat.le_refl _, Nat.le_refl _⟩

private theorem foldl_negotiate_within (text : List (String × String)) (p : SessionParams) :
    (text.foldl (fun (p : SessionParams) kv => p.negotiate kv.1 kv.2) p).Within p := by
  induction text generalizing p with
  | nil => exact .refl p
  | cons kv text ih => exact (ih _).trans (p.negotiate_within kv.1 kv.2)

namespace Connection

theorem negotiated_within (c : Connection τ) (lr : LoginRequest) :
    (c.negotiated lr).Within c.params := by
  rw [negotiated]
  split
  · exact foldl_negotiate_within lr.text c.params
  · exact .refl _

/-- Handling a request does not raise a burst length. -/
theorem handle_within (h : c.handle tg w req bhs = .ok (pdus, c', w')) :
    c'.params.Within c.params := by
  cases handle_handles h with
  | login _ hgives =>
    cases handleLogin_logins hgives with
    | fails _ hgives => cases hgives; exact .refl _
    | accepts _ haccepts =>
      rw [haccepts.params_eq]
      exact c.negotiated_within _
  | misplaced _ _ hgives => cases hgives; exact .refl _
  | logout _ hgives => cases hgives; exact .refl _
  | _ hstage _ =>
    rw [(handle_same hstage h fun _ => nofun).params_eq]
    exact .refl _

end Connection

section Erasure

variable {σ' : Type}

/-- The targets `tg'` do what `tg` does, on a state of which `f` is the part that counts. -/
structure Targets.Erases (f : σ' → σ) (tg' : Targets σ' τ) (tg : Targets σ τ) : Prop where
  get_eq : ∀ w iqn, tg'.get w iqn = tg.get (f w) iqn
  iqns_eq : ∀ w, tg'.iqns w = tg.iqns (f w)
  execute_eq : ∀ target cmd data w, (tg'.execute target cmd data w).map (Prod.map id f) =
    tg.execute target cmd data (f w)

namespace Connection

variable {f : σ' → σ} {tg' : Targets σ' τ} {w : σ'}

/-- The part of a reply that counts. -/
def erased (f : σ' → σ) (r : Reply σ' τ) : Reply σ τ := r.map (Prod.map id (Prod.map id f))

theorem erased_answer (r : List Outbound × Connection τ) : erased f (answer w r) = answer (f w) r := rfl

theorem erased_finishWrite (h : tg'.Erases f tg) (p : PendingWrite) :
    erased f (c.finishWrite tg' w p) = c.finishWrite tg (f w) p := by
  rw [finishWrite, finishWrite]
  cases c.target with
  | none => rfl
  | some target =>
    have hexecute := h.execute_eq target p.cmd p.buf w
    dsimp only
    rw [← hexecute]
    cases tg'.execute target p.cmd p.buf w <;> rfl

theorem erased_beginWrite (h : tg'.Erases f tg) (cmd : ScsiCommand) :
    erased f (c.beginWrite tg' w cmd bhs) = c.beginWrite tg (f w) cmd bhs := by
  rw [beginWrite, beginWrite]
  dsimp only
  split
  · rfl
  · split
    · rfl
    · split
      · exact erased_finishWrite h _
      · rfl

theorem erased_dataOut (h : tg'.Erases f tg) (d : ScsiDataOut) :
    erased f (c.dataOut tg' w d bhs) = c.dataOut tg (f w) d bhs := by
  rw [dataOut, dataOut]
  cases c.inFlight d.itt with
  | none => rfl
  | some p =>
    dsimp only
    split
    · rfl
    · split
      · rfl
      · rw [takeWrite_setInFlight, takeWrite_setInFlight]
        exact erased_finishWrite h _

theorem erased_scsiCommand (h : tg'.Erases f tg) (cmd : ScsiCommand) :
    erased f (c.scsiCommand tg' w cmd bhs) = c.scsiCommand tg (f w) cmd bhs := by
  rw [scsiCommand, scsiCommand]
  cases c.target with
  | none => rfl
  | some target =>
    dsimp only
    split
    · exact erased_beginWrite h cmd
    · have hexecute := h.execute_eq target cmd cmd.data w
      rw [← hexecute]
      cases tg'.execute target cmd cmd.data w with
      | error e => rfl
      | ok r =>
        dsimp only [Except.map, Prod.map, id]
        split <;> rfl

theorem erased_handleLogin (h : tg'.Erases f tg) (lr : LoginRequest) :
    c.handleLogin tg' w lr = c.handleLogin tg (f w) lr := by
  have hbind : bindTarget tg' w (c.sequenced lr) lr = bindTarget tg (f w) (c.sequenced lr) lr := by
    simp only [bindTarget, h.get_eq]
  rw [handleLogin, handleLogin, hbind]

theorem erased_handleFullFeature (h : tg'.Erases f tg) (req : Request) :
    erased f (c.handleFullFeature tg' w req bhs) = c.handleFullFeature tg (f w) req bhs := by
  cases req with
  | scsiCommand cmd => exact erased_scsiCommand h cmd
  | dataOut d => exact erased_dataOut h d
  | text t =>
    simp only [handleFullFeature, erased_answer, textResponse, h.iqns_eq]
  | _ => rfl

/-- Handling a request does the same on the part that counts. -/
theorem erased_handle (h : tg'.Erases f tg) (req : Request) :
    erased f (c.handle tg' w req bhs) = c.handle tg (f w) req bhs := by
  cases hstage : c.stage with
  | fullFeature =>
    simp only [handle, hstage]
    exact erased_handleFullFeature h req
  | login =>
    cases req with
    | login lr => simp only [handle, hstage, erased_answer, erased_handleLogin h]
    | _ => simp only [handle, hstage, erased_answer]
  | closing => cases req <;> simp only [handle, hstage, erased_answer]

end Connection

end Erasure

end XBoot.Iscsi
