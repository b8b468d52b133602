import XBoot.PduEncoding
import XBoot.SessionInvariant

/-!
# Initiator Task Tags

The PDUs that answer a request carry its Initiator Task Tag, so that the initiator can tell
what they answer. A Logout Response and a Reject have no such field: their bytes stay zero.
-/

namespace XBoot.Iscsi

open ListSlices BigEndian PlacedFields Storage

def Outbound.itt : Outbound → Option UInt32
  | .login r => some r.itt
  | .scsiResp r => some r.itt
  | .dataIn r => some r.itt
  | .r2t r => some r.itt
  | .nopIn r => some r.itt
  | .text r => some r.itt
  | .logout _ => none
  | .taskMgmt r => some r.itt
  | .reject _ => none

/-- The number in bytes 16 to 19 of a PDU on the wire. -/
def Outbound.wireTag (pdu : Outbound) : ℕ := ofBe (slice pdu.encode 16 4)

def Request.itt : Request → UInt32
  | .login r => r.itt
  | .text r => r.itt
  | .scsiCommand r => r.itt
  | .dataOut r => r.itt
  | .nopOut r => r.itt
  | .logout r => r.itt
  | .taskMgmt r => r.itt
  | .unsupported _ itt => itt

/-- A PDU carries the tag, or the reserved tag if it is a Reject. -/
def Outbound.Tagged (tag : UInt32) : Outbound → Prop
  | .reject r => (Outbound.reject r).wireTag = 0xffffffff
  | pdu => pdu.wireTag = tag.toNat

variable {σ τ : Type}

namespace Connection

/-- The tag that the answer to a request belongs to: for a Data-Out that of its write. -/
def answerTag (c : Connection τ) : Request → UInt32
  | .dataOut d => match c.inFlight d.itt with
    | some p => p.cmd.itt
    | none => d.itt
  | req => req.itt

/-- The requests that are rejected: those of another stage or without a handler, a write with more
immediate data than EDTL, and data for no pending write or outside of its buffer. -/
def Rejects (c : Connection τ) (req : Request) : Prop :=
  match c.stage with
  | .closing => True
  | .login => ∀ lr, req ≠ .login lr
  | .fullFeature => match req with
    | .login _ => True
    | .unsupported _ _ => True
    | .scsiCommand cmd => cmd.write = true ∧ cmd.edtl < UInt32.ofNat cmd.data.length
    | .dataOut d => ∀ p, c.inFlight d.itt = some p →
        p.buf.length < d.bufferOffset.toNat + d.data.length
    | _ => False

/-- The connection closes on a Logout with a tag other than 0. -/
def LogsOut (c : Connection τ) (req : Request) : Prop :=
  c.stage = .fullFeature ∧ ∃ l, req = .logout l ∧ l.itt ≠ 0

end Connection

/-- Every PDU of the answer carries the tag of the request. -/
def Turn.Tagged (t : Turn σ τ) : Prop := ∀ pdu ∈ t.pdus, pdu.Tagged (t.conn.answerTag t.req)

private theorem wireTag_field {pdu : Outbound} {itt : UInt32} (h : put32 16 itt ∈ pdu.fields) :
    pdu.wireTag = itt.toNat := by
  have hslice : slice pdu.encode 16 4 = toBe 4 itt.toNat := by
    simpa [put32] using pdu.slice_field h
  rw [Outbound.wireTag, hslice, ofBe_toBe_of_lt itt.toNat_lt]

private theorem wireTag_gap {pdu : Outbound} (h : ∀ p ∈ places pdu.fields, Avoids 16 4 p) :
    pdu.wireTag = 0 := by
  have hslice : slice pdu.encode 16 4 = List.replicate 4 0 :=
    pdu.slice_gap (by decide) (.inr (by decide)) h
  rw [Outbound.wireTag, hslice]
  rfl

theorem wireTag_eq (pdu : Outbound) : pdu.wireTag = (pdu.itt.map UInt32.toNat).getD 0 := by
  cases pdu with
  | login r => exact wireTag_field (by simp [Outbound.fields, LoginResponse.fields])
  | scsiResp r => exact wireTag_field (by simp [Outbound.fields, ScsiResponse.fields])
  | dataIn r => exact wireTag_field (by simp [Outbound.fields, ScsiDataIn.fields])
  | r2t r => exact wireTag_field (by simp [Outbound.fields, R2t.fields])
  | nopIn r => exact wireTag_field (by simp [Outbound.fields, NopIn.fields])
  | text r => exact wireTag_field (by simp [Outbound.fields, TextResponse.fields])
  | logout r =>
    exact wireTag_gap (by simp [places, Outbound.fields, LogoutResponse.fields, put32, Avoids])
  | taskMgmt r => exact wireTag_field (by simp [Outbound.fields, TaskMgmtResponse.fields])
  | reject r => exact wireTag_gap (by simp [places, Outbound.fields, Reject.fields, put32, Avoids])

theorem tagged_of_itt {pdu : Outbound} {tag : UInt32} (h : pdu.itt = some tag) : pdu.Tagged tag := by
  have hwire : pdu.wireTag = tag.toNat := by
    rw [wireTag_eq, h]
    rfl
  cases pdu with
  | reject r => cases h
  | _ => exact hwire

theorem not_tagged_reject (r : Reject) (tag : UInt32) : ¬ (Outbound.reject r).Tagged tag := by
  intro h
  rw [Outbound.Tagged, wireTag_eq] at h
  exact absurd h (show (0 : ℕ) ≠ 0xffffffff by decide)

theorem tagged_logout_iff (r : LogoutResponse) (tag : UInt32) :
    (Outbound.logout r).Tagged tag ↔ tag = 0 := by
  show (Outbound.logout r).wireTag = tag.toNat ↔ tag = 0
  rw [wireTag_eq, eq_comm, ← UInt32.toNat_inj]
  rfl

namespace Connection

variable {tg : Targets σ τ} {w w' : σ} {c c' : Connection τ} {pdus : List Outbound}
  {bhs : List UInt8} {req : Request}

def AllGiven (tag : UInt32) (pdus : List Outbound) : Prop := ∀ pdu ∈ pdus, pdu.itt = some tag

/-- A request is rejected, or a Logout is answered, or every PDU is given the tag. -/
inductive Answers (c : Connection τ) (req : Request) (pdus : List Outbound) : Prop
  | rejected {r : Reject} (hrejects : c.Rejects req) (hpdus : pdus = [.reject r])
  | loggedOut {l : LogoutRequest} {r : LogoutResponse} (hstage : c.stage = .fullFeature)
      (hreq : req = .logout l) (hpdus : pdus = [.logout r])
  | given (hrejects : ¬ c.Rejects req) (hlogout : ∀ l, req = .logout l → c.stage ≠ .fullFeature)
      (hpdus : AllGiven (c.answerTag req) pdus)

private theorem allGiven_one {pdu : Outbound} {tag : UInt32} {next : Connection τ}
    (h : Gives ([pdu], next) pdus c') (hpdu : pdu.itt = some tag) : AllGiven tag pdus := by
  cases h
  intro pdu' hmem
  rw [List.mem_singleton.1 hmem, hpdu]

private theorem dataInChunks_given (c : Connection τ) (cmd : ScsiCommand) (data : List UInt8)
    (offset : ℕ) (dataSn : UInt32) : AllGiven cmd.itt (c.dataInChunks cmd data offset dataSn).1 := by
  fun_induction dataInChunks c cmd data offset dataSn with
  | case1 c offset dataSn hlt stop isLast pdu cnext rest c'' hrest ih =>
    rw [hrest] at ih
    exact List.forall_mem_cons.2 ⟨rfl, ih⟩
  | case2 => exact List.forall_mem_nil _

private theorem finishes_given {p : PendingWrite} (h : Finishes tg w c p pdus c' w') :
    AllGiven p.cmd.itt pdus := by
  obtain ⟨target, outcome, -, -, hgives⟩ := h.executed
  exact allGiven_one hgives rfl

private theorem not_rejects_command {cmd : ScsiCommand} (hstage : c.stage = .fullFeature)
    (h : cmd.write = true → cmd.data.length ≤ cmd.edtl.toNat) : ¬ c.Rejects (.scsiCommand cmd) := by
  simp only [Rejects, hstage]
  rintro ⟨hwrite, hover⟩
  have hle := h hwrite
  rw [UInt32.lt_iff_toNat_lt, toNat_ofNat_of_le hle] at hover
  omega

theorem commands_answers {cmd : ScsiCommand} (hstage : c.stage = .fullFeature)
    (h : Commands tg w c.counted bhs cmd pdus c' w') : c.Answers (.scsiCommand cmd) pdus := by
  cases h with
  | oversized hwrite hover hgives =>
    cases hgives
    refine .rejected ?_ rfl
    simp only [Rejects, hstage]
    exact ⟨hwrite, hover⟩
  | gathers hwrite hless hgives =>
    exact .given (not_rejects_command hstage fun _ => hless.le) nofun (allGiven_one hgives rfl)
  | completes hwrite hall hfinishes =>
    exact .given (not_rejects_command hstage fun _ => hall.le) nofun (finishes_given hfinishes)
  | @dataIn w' target outcome hwrite hexecute hdata hgives htarget =>
    have hgiven := dataInChunks_given c.counted cmd outcome.data 0 0
    rw [hgives] at hgiven
    exact .given (not_rejects_command hstage fun h => by rw [hwrite] at h; cases h) nofun hgiven
  | responds hwrite hexecute hgives htarget hnone =>
    exact .given (not_rejects_command hstage fun h => by rw [hwrite] at h; cases h) nofun
      (allGiven_one hgives rfl)

private theorem not_rejects_data {d : ScsiDataOut} {p : PendingWrite} (hstage : c.stage = .fullFeature)
    (hp : c.inFlight d.itt = some p) (hin : d.bufferOffset.toNat + d.data.length ≤ p.buf.length) :
    ¬ c.Rejects (.dataOut d) := by
  simp only [Rejects, hstage]
  exact fun hout => absurd (hout p hp) (Nat.not_lt.2 hin)

private theorem answerTag_dataOut {d : ScsiDataOut} {p : PendingWrite}
    (hp : c.inFlight d.itt = some p) : c.answerTag (.dataOut d) = p.cmd.itt := by
  simp only [answerTag, hp]

theorem feeds_answers {d : ScsiDataOut} (hc : WellFormed c) (hstage : c.stage = .fullFeature)
    (h : Feeds tg w c bhs d pdus c' w') : c.Answers (.dataOut d) pdus := by
  cases h with
  | unknown hnone hgives =>
    cases hgives
    refine .rejected ?_ rfl
    simp only [Rejects, hstage]
    intro p hp
    rw [hnone] at hp
    cases hp
  | outside hp hout hgives =>
    cases hgives
    refine .rejected ?_ rfl
    simp only [Rejects, hstage]
    intro q hq
    cases hp.symm.trans hq
    exact hout
  | more hp hin hmore hgives =>
    refine .given (not_rejects_data hstage hp hin) nofun ?_
    rw [answerTag_dataOut hp]
    -- the R2T has the tag of the Data-Out, which is that of the write stored under it
    exact allGiven_one hgives (congrArg some (hc.pending _ _ hp).itt_eq.symm)
  | last hp hin hall hfinishes =>
    refine .given (not_rejects_data hstage hp hin) nofun ?_
    rw [answerTag_dataOut hp]
    have hgiven := finishes_given hfinishes
    exact hgiven

/-- What answers a request in a well-formed connection. -/
theorem handle_answers (hc : WellFormed c) (h : c.handle tg w req bhs = .ok (pdus, c', w')) :
    c.Answers req pdus := by
  cases handle_handles h with
  | login hstage hgives =>
    refine .given ?_ nofun ?_
    · simp only [Rejects, hstage]
      exact fun hno => hno _ rfl
    · cases handleLogin_logins hgives with
      | fails _ hgives => exact allGiven_one hgives rfl
      | accepts hpdus haccepts =>
        rw [hpdus]
        exact List.forall_mem_singleton.2 (congrArg some haccepts.itt_eq)
  | misplaced hstage hlogin hgives =>
    cases hgives
    refine .rejected ?_ rfl
    cases hs : c.stage with
    | fullFeature => exact absurd hs hstage
    | closing => simp only [Rejects, hs]
    | login =>
      simp only [Rejects, hs]
      intro lr hreq
      rw [hs] at hlogin
      cases hlogin lr hreq
  | command hstage htarget hcommands => exact commands_answers hstage hcommands
  | unbound hstage htarget _ => exact absurd htarget (hc.bound hstage)
  | dataOut hstage hfeeds => exact feeds_answers hc hstage hfeeds
  | nopOut hstage hgives =>
    refine .given ?_ nofun (allGiven_one hgives rfl)
    simp only [Rejects, hstage, not_false_eq_true]
  | text hstage hgives =>
    refine .given ?_ nofun (allGiven_one hgives rfl)
    simp only [Rejects, hstage, not_false_eq_true]
  | taskMgmt hstage hgives =>
    refine .given ?_ nofun (allGiven_one hgives rfl)
    simp only [Rejects, hstage, not_false_eq_true]
  | logout hstage hgives =>
    cases hgives
    exact .loggedOut hstage rfl rfl
  | loginAgain hstage hgives =>
    cases hgives
    refine .rejected ?_ rfl
    simp only [Rejects, hstage]
  | unsupported hstage hgives =>
    cases hgives
    refine .rejected ?_ rfl
    simp only [Rejects, hstage]

end Connection

variable {tg : Targets σ τ} {ts : List (Turn σ τ)} {t : Turn σ τ} {c : Connection τ}

/-- A turn is tagged unless the request is rejected or logs out. -/
theorem turn_tagged_iff (hc : t.conn.WellFormed) (h : t.Happens tg) :
    t.Tagged ↔ ¬ t.conn.Rejects t.req ∧ ¬ t.conn.LogsOut t.req := by
  rw [Turn.Tagged]
  cases Connection.handle_answers hc h with
  | rejected hrejects hpdus =>
    rw [hpdus, List.forall_mem_singleton]
    exact iff_of_false (not_tagged_reject _ _) fun hno => hno.1 hrejects
  | @loggedOut l r hstage hreq hpdus =>
    rw [hpdus, List.forall_mem_singleton, tagged_logout_iff, hreq]
    have hrejects : ¬ t.conn.Rejects (.logout l) := by
      simp only [Connection.Rejects, hstage, not_false_eq_true]
    constructor
    · rintro hzero
      refine ⟨hrejects, ?_⟩
      rintro ⟨-, l', hl', hne⟩
      cases hl'
      exact hne hzero
    · rintro ⟨-, hlogout⟩
      by_contra hne
      exact hlogout ⟨hstage, l, rfl, hne⟩
  | given hrejects hlogout hpdus =>
    refine iff_of_true (fun pdu hmem => tagged_of_itt (hpdus pdu hmem)) ⟨hrejects, ?_⟩
    rintro ⟨hstage, l, hreq, -⟩
    exact hlogout l hreq hstage

/-- In every run, every PDU of an answer carries the tag of its request exactly if the request is
neither rejected nor a Logout with a tag other than 0. -/
theorem answers_tagged_iff (tg : Targets σ τ) (h : Conversation tg ts c) (ht : t ∈ ts) :
    t.Tagged ↔ ¬ t.conn.Rejects t.req ∧ ¬ t.conn.LogsOut t.req := by
  obtain ⟨before, after, rfl⟩ := List.append_of_mem ht
  obtain ⟨hbefore, hhappens⟩ := h.turn_at
  exact turn_tagged_iff hbefore.wellFormed hhappens

/-- A login is answered under its tag. -/
theorem login_tagged : ∃ pdus, (loginTurn oneBlockDisk "a" pdus 0).Tagged := by
  have hget : (World.targets id).get oneBlockDisk "a" = some 0 := by decide
  obtain ⟨pdus, hlogin⟩ := login_conversation hget
  refine ⟨pdus, (answers_tagged_iff (World.targets id) hlogin (List.mem_singleton_self _)).2 ⟨?_, ?_⟩⟩
  · exact fun hno => hno _ rfl
  · rintro ⟨hstage, -⟩
    cases hstage

def logoutSeven : LogoutRequest where
  reason := 0
  itt := 7
  cid := 0
  cmdSn := 5
  expStatSn := 1

def logoutTurn : Turn World ℕ where
  conn := .loggedIn 0 5
  before := oneBlockDisk
  req := .logout logoutSeven
  bhs := []
  pdus := ((Connection.loggedIn 0 5).logout logoutSeven).1
  next := ((Connection.loggedIn 0 5).logout logoutSeven).2
  after := oneBlockDisk

/-- A Logout under tag 7 is answered under tag 0. -/
theorem logout_not_tagged :
    ¬ ∀ (ts : List (Turn World ℕ)) c, Conversation (World.targets id) ts c → ∀ t ∈ ts, t.Tagged := by
  intro hall
  have hget : (World.targets id).get oneBlockDisk "a" = some 0 := by decide
  obtain ⟨pdus, hlogin⟩ := login_conversation hget
  have hlogout : logoutTurn.Happens (World.targets id) := rfl
  have htagged := hall _ _ (hlogin.turn hlogout) logoutTurn (by simp) _ (List.mem_singleton_self _)
  rw [tagged_logout_iff] at htagged
  exact absurd htagged (by decide)

end XBoot.Iscsi
