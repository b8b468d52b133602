import XBoot.TargetRegistry
import XBoot.SessionSteps

/-!
# The command window follows the initiator's numbering

The initiator numbers its requests from the CmdSN of its last login on, an immediate
request repeating the next number. The ExpCmdSN that a connection advertises is that
number as long as the requests it counts are the numbered ones: it counts every SCSI
command, immediate or not, and nothing else.
-/

namespace XBoot.Iscsi

open ListSlices BigEndian Storage

variable {σ τ : Type}

def Advertise (c : Connection τ) (pdus : List Outbound) : Prop :=
  pdus ≠ [] ∧ ∀ pdu ∈ pdus, pdu.expCmdSn = c.expCmdSn ∧ pdu.maxCmdSn = c.maxCmdSn

namespace Connection

def counts (c : Connection τ) : Request → Bool
  | .scsiCommand _ => c.stage = .fullFeature && c.target.isSome
  | _ => false

def nextExpCmdSn (c : Connection τ) : Request → UInt32
  | .login lr => if c.stage = .login then lr.cmdSn else c.expCmdSn
  | req => if c.counts req then c.expCmdSn + 1 else c.expCmdSn

theorem nextExpCmdSn_scsiCommand (c : Connection τ) (cmd : ScsiCommand) :
    c.nextExpCmdSn (.scsiCommand cmd) =
      if c.stage = .fullFeature && c.target.isSome then c.expCmdSn + 1 else c.expCmdSn := rfl

variable {tg : Targets σ τ} {w w' : σ} {c c' : Connection τ} {pdus : List Outbound}
  {bhs : List UInt8} {req : Request}

private theorem advertise_one {pdu : Outbound} (hexp : pdu.expCmdSn = c.expCmdSn)
    (hmax : pdu.maxCmdSn = c.maxCmdSn) : Advertise c [pdu] := by
  refine ⟨List.cons_ne_nil _ _, fun pdu' hmem => ?_⟩
  rw [List.mem_singleton.1 hmem]
  exact ⟨hexp, hmax⟩

private theorem maxCmdSn_congr (h : c'.expCmdSn = c.expCmdSn) : c'.maxCmdSn = c.maxCmdSn :=
  congrArg (· + QUEUE_DEPTH) h

private theorem dataInChunks_window (c : Connection τ) (cmd : ScsiCommand) (data : List UInt8)
    (offset : ℕ) (dataSn : UInt32) :
    (∀ pdu ∈ (c.dataInChunks cmd data offset dataSn).1,
        pdu.expCmdSn = c.expCmdSn ∧ pdu.maxCmdSn = c.maxCmdSn) ∧
      (c.dataInChunks cmd data offset dataSn).2.expCmdSn = c.expCmdSn := by
  fun_induction dataInChunks c cmd data offset dataSn with
  | case1 c offset dataSn hlt stop isLast pdu cnext rest c'' hrest ih =>
    have hnext : cnext.expCmdSn = c.expCmdSn := by
      dsimp only [cnext]
      split <;> rfl
    rw [hrest, hnext, maxCmdSn_congr hnext] at ih
    refine ⟨fun pdu' hmem => ?_, ih.2⟩
    cases hmem with
    | head => exact ⟨rfl, rfl⟩
    | tail _ htail => exact ih.1 pdu' htail
  | case2 => exact ⟨fun _ hmem => absurd hmem List.not_mem_nil, rfl⟩

private theorem dataInChunks_ne_nil {cmd : ScsiCommand} {data : List UInt8} (h : data ≠ []) :
    (c.dataInChunks cmd data 0 0).1 ≠ [] := by
  rw [dataInChunks, if_pos (List.length_pos_iff.2 h)]
  exact List.cons_ne_nil _ _

private theorem dataInChunks_advertises {cmd : ScsiCommand} {data : List UInt8} (hdata : data ≠ [])
    (h : Gives (c.dataInChunks cmd data 0 0) pdus c') :
    Advertise c' pdus ∧ c'.expCmdSn = c.expCmdSn := by
  obtain ⟨hall, hexp⟩ := dataInChunks_window c cmd data 0 0
  have hne : (c.dataInChunks cmd data 0 0).1 ≠ [] := dataInChunks_ne_nil hdata
  rw [h] at hall hexp hne
  refine ⟨⟨hne, ?_⟩, hexp⟩
  rw [hexp, maxCmdSn_congr hexp]
  exact hall

private theorem one_advertises {pdu : Outbound} {next : Connection τ}
    (h : Gives ([pdu], next) pdus c') (hpdu : pdu.expCmdSn = c.expCmdSn)
    (hmax : pdu.maxCmdSn = c.maxCmdSn) (hnext : next.expCmdSn = c.expCmdSn) :
    Advertise c' pdus ∧ c'.expCmdSn = c.expCmdSn := by
  cases h
  refine ⟨advertise_one ?_ ?_, hnext⟩
  · rw [hpdu, hnext]
  · rw [hmax, maxCmdSn_congr hnext]

private theorem finishes_advertises {p : PendingWrite} (h : Finishes tg w c p pdus c' w') :
    Advertise c' pdus ∧ c'.expCmdSn = c.expCmdSn := by
  obtain ⟨target, outcome, -, -, hgives⟩ := h.executed
  exact one_advertises hgives rfl rfl rfl

private theorem commands_advertise {cmd : ScsiCommand} (h : Commands tg w c bhs cmd pdus c' w') :
    Advertise c' pdus ∧ c'.expCmdSn = c.expCmdSn := by
  cases h with
  | oversized _ _ hgives => exact one_advertises hgives rfl rfl rfl
  | gathers _ _ hgives => exact one_advertises hgives rfl rfl rfl
  | completes _ _ hfinishes => exact finishes_advertises hfinishes
  | dataIn _ _ hdata hgives => exact dataInChunks_advertises hdata.2.2 hgives
  | responds _ _ hgives => exact one_advertises hgives rfl rfl rfl

private theorem feeds_advertise {d : ScsiDataOut} (h : Feeds tg w c bhs d pdus c' w') :
    Advertise c' pdus ∧ c'.expCmdSn = c.expCmdSn := by
  cases h with
  | unknown _ hgives => exact one_advertises hgives rfl rfl rfl
  | outside _ _ hgives => exact one_advertises hgives rfl rfl rfl
  | more _ _ _ hgives => exact one_advertises hgives rfl rfl rfl
  | last _ _ _ hfinishes =>
    have hdone := finishes_advertises hfinishes
    exact hdone

private theorem handleLogin_advertises {lr : LoginRequest}
    (h : Gives (c.handleLogin tg w lr) pdus c') :
    Advertise c' pdus ∧ c'.expCmdSn = lr.cmdSn := by
  cases handleLogin_logins h with
  | fails _ hgives => exact one_advertises (c := c.sequenced lr) hgives rfl rfl rfl
  | accepts hpdus haccepts =>
    have hexp := haccepts.expCmdSn_next
    subst hpdus
    refine ⟨advertise_one ?_ ?_, hexp⟩
    · rw [hexp]
      exact haccepts.expCmdSn_eq
    · rw [maxCmdSn, hexp]
      exact haccepts.maxCmdSn_eq

/-- The window after a request, and that every response advertises it. -/
theorem handle_advertises (h : c.handle tg w req bhs = .ok (pdus, c', w')) :
    Advertise c' pdus ∧ c'.expCmdSn = c.nextExpCmdSn req := by
  cases handle_handles h with
  | login hstage hgives =>
    rw [nextExpCmdSn, if_pos hstage]
    exact handleLogin_advertises hgives
  | misplaced hstage hlogin hgives =>
    have hsame := one_advertises (c := c) hgives rfl rfl rfl
    cases req with
    | login lr =>
      rw [nextExpCmdSn, if_neg (by rw [hlogin lr rfl]; decide)]
      exact hsame
    | scsiCommand cmd =>
      rw [nextExpCmdSn_scsiCommand, decide_eq_false hstage]
      exact hsame
    | _ => exact hsame
  | command hstage htarget hcommands =>
    rw [nextExpCmdSn_scsiCommand, decide_eq_true hstage, htarget]
    exact commands_advertise hcommands
  | unbound hstage htarget hgives =>
    rw [nextExpCmdSn_scsiCommand, htarget, Option.isSome_none, Bool.and_false]
    exact one_advertises hgives rfl rfl rfl
  | dataOut _ hfeeds => exact feeds_advertise hfeeds
  | loginAgain hstage hgives =>
    rw [nextExpCmdSn, if_neg (by rw [hstage]; decide)]
    exact one_advertises hgives rfl rfl rfl
  | nopOut _ hgives => exact one_advertises hgives rfl rfl rfl
  | text _ hgives => exact one_advertises hgives rfl rfl rfl
  | taskMgmt _ hgives => exact one_advertises hgives rfl rfl rfl
  | logout _ hgives => exact one_advertises hgives rfl rfl rfl
  | unsupported _ hgives => exact one_advertises hgives rfl rfl rfl

end Connection

def Request.cmdSn? : Request → Option UInt32
  | .scsiCommand r => some r.cmdSn
  | .nopOut r => some r.cmdSn
  | .text r => some r.cmdSn
  | .taskMgmt r => some r.cmdSn
  | .logout r => some r.cmdSn
  | _ => none

def immediate (pdu : List UInt8) : Bool := flag pdu 0 0x40

def numbered (pdu : List UInt8) (req : Request) : Bool := req.cmdSn?.isSome && !immediate pdu

/-- The number of the next non-immediate request, `none` before the first login. -/
def advance (next : Option UInt32) (pdu : List UInt8) : Request → Option UInt32
  | .login lr => some lr.cmdSn
  | req => if numbered pdu req then next.map (· + 1) else next

/-- One request of a run: the connection and the initiator's next number before it, and
the responses. -/
structure Moment (τ : Type) where
  before : Connection τ
  next : Option UInt32
  pdu : List UInt8
  req : Request
  pdus : List Outbound

/-- A run from a connection and the initiator's next number. The shared state at each
request is arbitrary. -/
inductive Run (tg : Targets σ τ) : Connection τ → Option UInt32 → List (Moment τ) → Prop
  | nil (c : Connection τ) (next : Option UInt32) : Run tg c next []
  | cons {c c' : Connection τ} {next : Option UInt32} {pdu : List UInt8} {req : Request} {w w' : σ}
      {pdus : List Outbound} {ms : List (Moment τ)} (hdecode : decode pdu = .ok (req, pdu.length))
      (hnumber : ∀ n sn, next = some n → req.cmdSn? = some sn → sn = n)
      (hhandle : c.handle tg w req (slice pdu 0 BHS_LEN) = .ok (pdus, c', w'))
      (rest : Run tg c' (advance next pdu req) ms) :
      Run tg c next ({ before := c, next := next, pdu := pdu, req := req, pdus := pdus } :: ms)

/-- Every response advertises the number of the initiator's next non-immediate request. -/
def Moment.Tracks (m : Moment τ) : Prop :=
  ∀ n, advance m.next m.pdu m.req = some n →
    ∀ out ∈ m.pdus, out.expCmdSn = n ∧ out.maxCmdSn = n + 16

/-- The connection counts the request just if the initiator numbers it; a login comes in
the login stage or repeats the number that the connection expects. -/
def Moment.CountedAsNumbered (m : Moment τ) : Prop :=
  match m.req with
  | .login lr => m.before.stage = .login ∨ m.before.expCmdSn = lr.cmdSn
  | req => m.next = none ∨ m.before.counts req = numbered m.pdu req

/-- In every run, every response advertises the initiator's next number. -/
def WindowTracks (tg : Targets σ τ) : Prop :=
  ∀ ms, Run tg .new none ms → ∀ m ∈ ms, m.Tracks

/-- The connection expects the initiator's next number. -/
def Synced (c : Connection τ) (next : Option UInt32) : Prop := ∀ n, next = some n → c.expCmdSn = n

variable {tg : Targets σ τ} {w w' : σ} {c c' : Connection τ} {next : Option UInt32}
  {pdus : List Outbound} {bhs pdu : List UInt8} {req : Request}

private theorem tracks_iff_synced (h : c.handle tg w req bhs = .ok (pdus, c', w')) :
    Moment.Tracks { before := c, next := next, pdu := pdu, req := req, pdus := pdus } ↔
      Synced c' (advance next pdu req) := by
  obtain ⟨hne, hall⟩ := (Connection.handle_advertises h).1
  constructor
  · intro htracks n hn
    obtain ⟨out, hout⟩ := List.exists_mem_of_ne_nil pdus hne
    exact (hall out hout).1.symm.trans (htracks n hn out hout).1
  · intro hsynced n hn out hout
    obtain ⟨hexp, hmax⟩ := hall out hout
    rw [hexp, hmax, Connection.maxCmdSn, hsynced n hn]
    exact ⟨rfl, rfl⟩

private theorem successor_ne (n : UInt32) : n + 1 ≠ n := by
  intro h
  simp at h

private theorem synced_iff_same (hsync : Synced c next) (counted taken : Bool)
    (hexp : c'.expCmdSn = if counted then c.expCmdSn + 1 else c.expCmdSn) :
    Synced c' (if taken then next.map (· + 1) else next) ↔ next = none ∨ counted = taken := by
  cases next with
  | none => simp [Synced]
  | some n =>
    have hn := hsync n rfl
    have hne := successor_ne n
    cases counted <;> cases taken <;> simp_all [Synced, eq_comm]

private theorem counted_iff_synced (hsync : Synced c next)
    (h : c.handle tg w req bhs = .ok (pdus, c', w')) :
    Moment.CountedAsNumbered { before := c, next := next, pdu := pdu, req := req, pdus := pdus } ↔
      Synced c' (advance next pdu req) := by
  have hexp := (Connection.handle_advertises h).2
  cases req with
  | login lr =>
    have hlogin : Synced c' (some lr.cmdSn) ↔ c'.expCmdSn = lr.cmdSn :=
      ⟨fun hs => hs lr.cmdSn rfl, fun he n hn => he.trans (Option.some.inj hn)⟩
    rw [Connection.nextExpCmdSn] at hexp
    rw [advance, hlogin, hexp]
    dsimp only [Moment.CountedAsNumbered]
    split <;> simp_all
  | _ => exact (synced_iff_same hsync _ _ hexp).symm

private theorem run_tracks_iff {ms : List (Moment τ)} (hrun : Run tg c next ms)
    (hsync : Synced c next) :
    (∀ m ∈ ms, m.Tracks) ↔ ∀ m ∈ ms, m.CountedAsNumbered := by
  induction hrun with
  | nil => simp
  | cons _ _ hhandle _ ih =>
    rw [List.forall_mem_cons, List.forall_mem_cons, tracks_iff_synced hhandle,
      counted_iff_synced hsync hhandle]
    exact and_congr_right fun hsync' => ih hsync'

/-- In a run of a connection from its start, every response advertises the initiator's
next number exactly when at every request both sides count alike. -/
theorem window_tracks_iff (tg : Targets σ τ) (ms : List (Moment τ)) (hrun : Run tg .new none ms) :
    (∀ m ∈ ms, m.Tracks) ↔ ∀ m ∈ ms, m.CountedAsNumbered :=
  run_tracks_iff hrun nofun

/-- A PDU with zeros in the fields not given. -/
def pduBytes (op flags : UInt8) (cmdSn : ℕ) (data : List UInt8) : List UInt8 :=
  [op, flags, 0, 0, 0] ++ toBe 3 data.length ++ List.replicate 16 0 ++ toBe 4 cmdSn ++
    List.replicate 20 0 ++ data ++ List.replicate (pad4 data.length) 0

/-- A login to the target `a` with CmdSN 5, straight to FullFeature. -/
def loginPdu : List UInt8 := pduBytes 0x43 0x83 5 (ascii "TargetName=a" ++ [0])

def oneTarget : World := World.empty.insert "a" ⟨[]⟩

def loginMoment : Moment ℕ where
  before := .new
  next := none
  pdu := loginPdu
  req := .login (loginTo "a" 5)
  pdus := (Connection.new.handleLogin (World.targets id) oneTarget (loginTo "a" 5)).1

private theorem run_from_login {ms : List (Moment ℕ)}
    (h : Run (World.targets id) (.loggedIn 0 5) (some 5) ms) :
    Run (World.targets id) .new none (loginMoment :: ms) := by
  have hhandle : Connection.new.handle (World.targets id) oneTarget (.login (loginTo "a" 5))
      (slice loginPdu 0 BHS_LEN) = .ok (loginMoment.pdus, .loggedIn 0 5, oneTarget) := rfl
  exact .cons (by decide) nofun hhandle h

/-- A TEST UNIT READY numbered 5, answered by CHECK CONDITION for want of the LUN. -/
def commandMoment : Moment ℕ where
  before := .loggedIn 0 5
  next := some 5
  pdu := pduBytes 0x01 0x80 5 []
  req := .scsiCommand ⟨true, false, false, 0, 0, 0, 0, 5, 0, ⟨List.replicate 16 0, rfl⟩, []⟩
  pdus := ((Connection.loggedIn 0 5).counted.scsiResponse 0
    (.check ILLEGAL_REQUEST ASC_LUN_NOT_SUPPORTED) 0).1

/-- The window follows the numbering over a login and a command. -/
theorem window_tracks_login_command : loginMoment.Tracks ∧ commandMoment.Tracks := by
  have hhandle : (Connection.loggedIn 0 5).handle (World.targets id) oneTarget commandMoment.req
      (slice commandMoment.pdu 0 BHS_LEN) =
        .ok (commandMoment.pdus, (Connection.loggedIn 0 5).counted.nextStatSn, oneTarget) := rfl
  have hcommand : Run (World.targets id) (.loggedIn 0 5) (some 5) [commandMoment] := by
    refine .cons (by decide) (fun n sn hn hsn => ?_) hhandle (.nil _ _)
    exact (Option.some.inj hsn).symm.trans (Option.some.inj hn)
  have hcounted : ∀ m ∈ [loginMoment, commandMoment], m.CountedAsNumbered := by
    rw [List.forall_mem_cons, List.forall_mem_singleton]
    exact ⟨.inl rfl, .inr (by decide)⟩
  have htracks := (window_tracks_iff (World.targets id) _ (run_from_login hcommand)).2 hcounted
  exact ⟨htracks _ (by simp), htracks _ (by simp)⟩

def nopMoment : Moment ℕ where
  before := .loggedIn 0 5
  next := some 5
  pdu := pduBytes 0x00 0x80 5 []
  req := .nopOut ⟨0, 0, 0, 5, 0, []⟩
  pdus := ((Connection.loggedIn 0 5).nopIn ⟨0, 0, 0, 5, 0, []⟩).1

/-- After a login and a non-immediate NOP-Out the window lags behind the initiator. -/
theorem nop_out_not_counted : ¬ WindowTracks (World.targets id) := by
  intro h
  have hhandle : (Connection.loggedIn 0 5).handle (World.targets id) oneTarget nopMoment.req
      (slice nopMoment.pdu 0 BHS_LEN) = .ok (nopMoment.pdus, .loggedIn 0 5, oneTarget) := rfl
  have hnop : Run (World.targets id) (.loggedIn 0 5) (some 5) [nopMoment] := by
    refine .cons (by decide) (fun n sn hn hsn => ?_) hhandle (.nil _ _)
    exact (Option.some.inj hsn).symm.trans (Option.some.inj hn)
  have htracks := h _ (run_from_login hnop) nopMoment (by simp)
  have hnumber := htracks 6 (by decide) _ (List.mem_singleton.2 rfl)
  have hexp : (Connection.loggedIn 0 5 : Connection ℕ).expCmdSn = 5 := rfl
  exact absurd (hexp.symm.trans hnumber.1) (by decide)

end XBoot.Iscsi
