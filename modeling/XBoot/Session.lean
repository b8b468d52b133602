import XBoot.Numerals
import XBoot.ScsiTarget

/-!
# The iSCSI connection

`Connection::handle` takes one decoded request to the responses, the next connection
and the next state of what all connections share: the registry and the targets behind
it. Serial numbers, tags and the byte counter of a write are `u32` and wrap as in a
release build; a failed `expect` and an out-of-range slice are panics.
-/

namespace XBoot.Iscsi

open ListSlices Storage Numerals

/-- What a connection uses of the shared state `σ`; `τ` is a handle to a target. -/
structure Targets (σ τ : Type) where
  get : σ → String → Option τ
  iqns : σ → List String
  execute : τ → ScsiCommand → List UInt8 → σ → Outcome (ScsiOutcome × σ)

structure SessionParams where
  maxRecvDataSegmentLength : ℕ
  firstBurstLength : ℕ
  maxBurstLength : ℕ
  immediateData : Bool
  initialR2t : Bool
  deriving DecidableEq, Repr

/-- `SessionParams::default`. -/
def SessionParams.initial : SessionParams where
  maxRecvDataSegmentLength := 8192
  firstBurstLength := 65536
  maxBurstLength := 262144
  immediateData := true
  initialR2t := true

def eqIgnoreAsciiCase (a b : String) : Bool := a.toList.map Char.toLower == b.toList.map Char.toLower

/-- Fold one key-value pair into the parameters; malformed numbers are ignored. -/
def SessionParams.negotiate (p : SessionParams) (key value : String) : SessionParams :=
  if key = "MaxRecvDataSegmentLength" then match parseUnsigned 32 value with
    | some v => { p with maxRecvDataSegmentLength := v }
    | none => p
  else if key = "FirstBurstLength" then match parseUnsigned 32 value with
    | some v => { p with firstBurstLength := min p.firstBurstLength v }
    | none => p
  else if key = "MaxBurstLength" then match parseUnsigned 32 value with
    | some v => { p with maxBurstLength := min p.maxBurstLength v }
    | none => p
  else if key = "ImmediateData" then
    { p with immediateData := p.immediateData && eqIgnoreAsciiCase value "Yes" }
  else if key = "InitialR2T" then
    { p with initialR2t := p.initialR2t && eqIgnoreAsciiCase value "Yes" }
  else p

/-- How many commands beyond ExpCmdSN the initiator may queue. -/
def QUEUE_DEPTH : UInt32 := 16

def PROTOCOL_ERROR : UInt8 := 0x04
def COMMAND_NOT_SUPPORTED : UInt8 := 0x05

inductive Stage where
  | login
  | fullFeature
  | closing
  deriving DecidableEq, Repr

/-- Write data being gathered for one command until EDTL bytes have arrived. -/
structure PendingWrite where
  cmd : ScsiCommand
  buf : List UInt8
  received : UInt32
  r2tSn : UInt32

structure Connection (τ : Type) where
  stage : Stage
  params : SessionParams
  target : Option τ
  statSn : UInt32
  expCmdSn : UInt32
  inFlight : UInt32 → Option PendingWrite

/-- What handling a request comes to. -/
abbrev Reply (σ τ : Type) := Outcome (List Outbound × Connection τ × σ)

namespace Connection

variable {σ τ : Type}

def new : Connection τ where
  stage := .login
  params := .initial
  target := none
  statSn := 0
  expCmdSn := 0
  inFlight := fun _ => none

/-- A handler's result that leaves the shared state as it is. -/
def answer (w : σ) (r : List Outbound × Connection τ) : Reply σ τ := .ok (r.1, r.2, w)

/-- The end of the command window that is advertised. -/
def maxCmdSn (c : Connection τ) : UInt32 := c.expCmdSn + QUEUE_DEPTH

def nextStatSn (c : Connection τ) : Connection τ := { c with statSn := c.statSn + 1 }

def counted (c : Connection τ) : Connection τ := { c with expCmdSn := c.expCmdSn + 1 }

/-- Store or drop the write pending under a tag. -/
def setInFlight (c : Connection τ) (itt : UInt32) (p : Option PendingWrite) : Connection τ :=
  { c with inFlight := Function.update c.inFlight itt p }

theorem setInFlight_setInFlight (c : Connection τ) (itt : UInt32) (p q : Option PendingWrite) :
    (c.setInFlight itt p).setInFlight itt q = c.setInFlight itt q := by
  simp only [setInFlight, Function.update_idem]

theorem setInFlight_inFlight (c : Connection τ) (itt : UInt32) (p : Option PendingWrite) :
    (c.setInFlight itt p).inFlight = Function.update c.inFlight itt p := rfl

def reject (c : Connection τ) (reason : UInt8) (bhs : List UInt8) :
    List Outbound × Connection τ :=
  ([.reject {
      reason := reason
      statSn := c.statSn
      expCmdSn := c.expCmdSn
      maxCmdSn := c.maxCmdSn
      header := bhs.take BHS_LEN ++ List.replicate (BHS_LEN - bhs.length) 0 }],
    c.nextStatSn)

def yesNo (b : Bool) : String := if b then "Yes" else "No"

/-- Resolve the target on the first declaration of TargetName; `none` fails the login. -/
def bindTarget (tg : Targets σ τ) (w : σ) (c : Connection τ) (req : LoginRequest) :
    Option (Connection τ) :=
  if c.target.isSome then some c
  else match req.text.find? (·.1 = "TargetName") with
    | some (_, iqn) => (tg.get w iqn).map fun t => { c with target := some t }
    | none => if req.transit ∧ req.nsg = 3 then none else some c

/-- A login failure, after which the connection closes. -/
def loginFail (c : Connection τ) (req : LoginRequest) : List Outbound × Connection τ :=
  ([.login {
      transit := false
      continue_ := false
      csg := req.csg
      nsg := req.csg
      versionMax := 0
      versionActive := 0
      isid := req.isid
      tsih := req.tsih
      itt := req.itt
      statSn := c.statSn
      expCmdSn := c.expCmdSn
      maxCmdSn := c.maxCmdSn
      statusClass := 0x02
      statusDetail := 0x03
      text := [] }],
    { c with stage := .closing, statSn := c.statSn + 1 })

/-- Keys are negotiated in the operational phase, or on the way from security to
FullFeature. -/
def operational (req : LoginRequest) : Bool := req.csg = 1 || (req.csg = 0 && req.nsg = 3)

def replyKeys (p : SessionParams) : List (String × String) :=
  [("MaxBurstLength", toString p.maxBurstLength), ("FirstBurstLength", toString p.firstBurstLength),
    ("ImmediateData", yesNo p.immediateData), ("InitialR2T", yesNo p.initialR2t),
    ("HeaderDigest", "None"), ("DataDigest", "None")]

/-- The sequence numbers that a login PDU sets. -/
def sequenced (c : Connection τ) (req : LoginRequest) : Connection τ :=
  { c with
    statSn := if c.statSn = 0 then req.expStatSn else c.statSn
    expCmdSn := req.cmdSn }

def handleLogin (tg : Targets σ τ) (w : σ) (c : Connection τ) (req : LoginRequest) :
    List Outbound × Connection τ :=
  match bindTarget tg w (c.sequenced req) req with
  | none => loginFail (c.sequenced req) req
  | some c =>
    let params :=
      if operational req then
        req.text.foldl (fun (p : SessionParams) (kv : String × String) => p.negotiate kv.1 kv.2) c.params
      else c.params
    let transit := req.transit && (req.nsg = 1 || req.nsg = 3)
    ([.login {
        transit := transit
        continue_ := false
        csg := req.csg
        nsg := req.nsg
        versionMax := 0
        versionActive := 0
        isid := req.isid
        tsih := if req.tsih = 0 then 1 else req.tsih
        itt := req.itt
        statSn := c.statSn
        expCmdSn := c.expCmdSn
        maxCmdSn := c.maxCmdSn
        statusClass := 0
        statusDetail := 0
        text := if operational req then replyKeys params else [] }],
      { c with
        params := params
        stage := if transit && req.nsg = 3 then .fullFeature else c.stage
        statSn := c.statSn + 1 })

def nopIn (c : Connection τ) (n : NopOut) : List Outbound × Connection τ :=
  ([.nopIn {
      lun := n.lun
      itt := n.itt
      ttt := 0xffffffff
      statSn := c.statSn
      expCmdSn := c.expCmdSn
      maxCmdSn := c.maxCmdSn
      data := n.data }], c)

def textResponse (tg : Targets σ τ) (w : σ) (c : Connection τ) (t : TextRequest) :
    List Outbound × Connection τ :=
  ([.text {
      final_ := true
      continue_ := false
      itt := t.itt
      ttt := 0xffffffff
      statSn := c.statSn
      expCmdSn := c.expCmdSn
      maxCmdSn := c.maxCmdSn
      text := if t.text.any (·.1 = "SendTargets") then (tg.iqns w).map fun iqn => ("TargetName", iqn)
        else [] }],
    c.nextStatSn)

def taskMgmt (c : Connection τ) (t : TaskMgmt) : List Outbound × Connection τ :=
  ([.taskMgmt {
      response := 0x00
      itt := t.itt
      statSn := c.statSn
      expCmdSn := c.expCmdSn
      maxCmdSn := c.maxCmdSn }],
    c.nextStatSn)

def logout (c : Connection τ) (_ : LogoutRequest) : List Outbound × Connection τ :=
  ([.logout {
      response := 0x00
      statSn := c.statSn
      expCmdSn := c.expCmdSn
      maxCmdSn := c.maxCmdSn }],
    { c with stage := .closing, statSn := c.statSn + 1 })

def scsiResponse (c : Connection τ) (itt : UInt32) (outcome : ScsiOutcome) (residual : UInt32) :
    List Outbound × Connection τ :=
  ([.scsiResp {
      response := 0x00
      status := outcome.status
      itt := itt
      statSn := c.statSn
      expCmdSn := c.expCmdSn
      maxCmdSn := c.maxCmdSn
      residual := residual
      sense := outcome.sense }],
    c.nextStatSn)

/-- The most bytes of one Data-In PDU. -/
def segment (c : Connection τ) : ℕ := max c.params.maxRecvDataSegmentLength 512

/-- The Data-In PDUs for `data` from `offset` on, with the status on the last one. -/
def dataInChunks (c : Connection τ) (cmd : ScsiCommand) (data : List UInt8) (offset : ℕ)
    (dataSn : UInt32) : List Outbound × Connection τ :=
  if offset < data.length then
    let stop := min (offset + c.segment) data.length
    let isLast := stop = data.length
    let pdu := Outbound.dataIn {
      final_ := isLast
      ack := false
      hasStatus := isLast
      status := 0x00
      lun := cmd.lun
      itt := cmd.itt
      ttt := 0xffffffff
      statSn := c.statSn
      expCmdSn := c.expCmdSn
      maxCmdSn := c.maxCmdSn
      dataSn := dataSn
      bufferOffset := UInt32.ofNat offset
      data := slice data offset (stop - offset) }
    let c' := if isLast then c.nextStatSn else c
    let (rest, c'') := dataInChunks c' cmd data stop (dataSn + 1)
    (pdu :: rest, c'')
  else ([], c)
termination_by data.length - offset
decreasing_by
  have hseg : 512 ≤ c.segment := Nat.le_max_right _ _
  omega

/-- Run the assembled write through the target. -/
def finishWrite (tg : Targets σ τ) (w : σ) (c : Connection τ) (p : PendingWrite) : Reply σ τ :=
  match c.target with
  | none => .error .panic
  | some target => match tg.execute target p.cmd p.buf w with
    | .error e => .error e
    | .ok (outcome, w') => answer w' (c.scsiResponse p.cmd.itt outcome 0)

/-- Take the complete write out, which must be there, and run it. -/
def takeWrite (tg : Targets σ τ) (w : σ) (c : Connection τ) (itt : UInt32) : Reply σ τ :=
  match c.inFlight itt with
  | none => .error .panic
  | some pending => (c.setInFlight itt none).finishWrite tg w pending

/-- The R2T for the next burst of a pending write. -/
def solicit (c : Connection τ) (itt : UInt32) (p : PendingWrite) : Outbound :=
  .r2t {
    lun := p.cmd.lun
    itt := itt
    ttt := itt
    statSn := c.statSn
    expCmdSn := c.expCmdSn
    maxCmdSn := c.maxCmdSn
    r2tSn := p.r2tSn
    bufferOffset := p.received
    desiredLength := min (p.cmd.edtl - p.received) (UInt32.ofNat c.params.maxBurstLength) }

/-- Start a write with its immediate data; solicit the rest, or execute at once. -/
def beginWrite (tg : Targets σ τ) (w : σ) (c : Connection τ) (cmd : ScsiCommand)
    (bhs : List UInt8) : Reply σ τ :=
  let received := UInt32.ofNat cmd.data.length
  if cmd.edtl < received then answer w (c.reject PROTOCOL_ERROR bhs)
  -- the immediate data is copied to the front of a buffer of EDTL zeros
  else if cmd.edtl.toNat < cmd.data.length then .error .panic
  else
    let buf := overwrite (List.replicate cmd.edtl.toNat 0) 0 cmd.data
    let p : PendingWrite := { cmd := cmd, buf := buf, received := received, r2tSn := 0 }
    if received = cmd.edtl then c.finishWrite tg w p
    else answer w ([c.solicit cmd.itt p], c.setInFlight cmd.itt (some p))

/-- Append one Data-Out burst; when EDTL bytes have arrived, execute and respond. -/
def dataOut (tg : Targets σ τ) (w : σ) (c : Connection τ) (d : ScsiDataOut) (bhs : List UInt8) :
    Reply σ τ :=
  match c.inFlight d.itt with
  | none => answer w (c.reject PROTOCOL_ERROR bhs)
  | some p =>
    if p.buf.length < d.bufferOffset.toNat + d.data.length then
      answer w ((c.setInFlight d.itt none).reject PROTOCOL_ERROR bhs)
    else
      let p := { p with
        buf := overwrite p.buf d.bufferOffset.toNat d.data
        received := p.received + UInt32.ofNat d.data.length }
      if p.received < p.cmd.edtl then
        let p := { p with r2tSn := p.r2tSn + 1 }
        answer w ([c.solicit d.itt p], c.setInFlight d.itt (some p))
      else (c.setInFlight d.itt (some p)).takeWrite tg w d.itt

def scsiCommand (tg : Targets σ τ) (w : σ) (c : Connection τ) (cmd : ScsiCommand)
    (bhs : List UInt8) : Reply σ τ :=
  match c.target with
  | none => answer w (c.reject PROTOCOL_ERROR bhs)
  | some target =>
    let c := c.counted
    if cmd.write then c.beginWrite tg w cmd bhs
    else match tg.execute target cmd cmd.data w with
      | .error e => .error e
      | .ok (outcome, w') =>
        if cmd.read ∧ outcome.status = GOOD ∧ outcome.data ≠ [] then
          answer w' (c.dataInChunks cmd outcome.data 0 0)
        else
          -- `saturating_sub`
          answer w' (c.scsiResponse cmd.itt outcome
            (UInt32.ofNat (cmd.edtl.toNat - (UInt32.ofNat outcome.data.length).toNat)))

def handleFullFeature (tg : Targets σ τ) (w : σ) (c : Connection τ) (req : Request)
    (bhs : List UInt8) : Reply σ τ :=
  match req with
  | .scsiCommand cmd => c.scsiCommand tg w cmd bhs
  | .dataOut d => c.dataOut tg w d bhs
  | .nopOut n => answer w (c.nopIn n)
  | .text t => answer w (c.textResponse tg w t)
  | .taskMgmt t => answer w (c.taskMgmt t)
  | .logout l => answer w (c.logout l)
  | .login _ => answer w (c.reject PROTOCOL_ERROR bhs)
  | .unsupported _ _ => answer w (c.reject COMMAND_NOT_SUPPORTED bhs)

/-- Handle one decoded request; `bhs` is its raw header. -/
def handle (tg : Targets σ τ) (w : σ) (c : Connection τ) (req : Request) (bhs : List UInt8) :
    Reply σ τ :=
  match c.stage, req with
  | .login, .login lr => answer w (c.handleLogin tg w lr)
  | .fullFeature, req => c.handleFullFeature tg w req bhs
  | _, _ => answer w ({ c with stage := .closing }.reject PROTOCOL_ERROR bhs)

end Connection

end XBoot.Iscsi
