import XBoot.SerialNumbers
import XBoot.SessionInvariant

/-!
# StatSN

Every response that carries a status takes a StatSN, and an R2T, a NOP-In or a Data-In
without status announces the next one. The login code takes a counter of 0 for one that
was not initialized yet, so a login restarts the count where it has wrapped to 0.
-/

namespace XBoot.Iscsi

open SerialNumbers

variable {σ τ : Type}

def Outbound.statSn : Outbound → UInt32
  | .login r => r.statSn
  | .scsiResp r => r.statSn
  | .dataIn r => r.statSn
  | .r2t r => r.statSn
  | .nopIn r => r.statSn
  | .text r => r.statSn
  | .logout r => r.statSn
  | .taskMgmt r => r.statSn
  | .reject r => r.statSn

/-- Whether a PDU bears a status, and takes a StatSN. -/
def Outbound.bearsStatus : Outbound → Bool
  | .dataIn r => r.hasStatus
  | .r2t _ => false
  | .nopIn _ => false
  | _ => true

/-- The StatSNs of the status-bearing PDUs go up by one modulo `2 ^ 32`, and every other
PDU carries the StatSN of the next status-bearing one. -/
abbrev StatSnsInOrder (pdus : List Outbound) : Prop :=
  InOrder Outbound.statSn Outbound.bearsStatus (· + 1) pdus

/-- PDUs that are numbered from `n` on. -/
abbrev CountsStatSns (n : UInt32) (pdus : List Outbound) (n' : UInt32) : Prop :=
  Counts Outbound.statSn Outbound.bearsStatus (· + 1) n pdus n'

namespace Connection

/-- A login finds the count at 0 and sets it to another value. -/
def Restarts (c : Connection τ) (req : Request) : Prop :=
  c.stage = .login ∧ c.statSn = 0 ∧ ∃ lr, req = .login lr ∧ lr.expStatSn ≠ 0

variable {tg : Targets σ τ} {c c' : Connection τ} {w w' : σ} {pdus : List Outbound}
  {bhs : List UInt8} {req : Request}

private theorem counts_status {pdu : Outbound} {next : Connection τ}
    (h : Gives ([pdu], next) pdus c') (hpdu : pdu.statSn = c.statSn)
    (hbears : pdu.bearsStatus = true) (hnext : next.statSn = c.statSn + 1) :
    CountsStatSns c.statSn pdus c'.statSn := by
  cases h
  refine ⟨hpdu, ?_⟩
  rw [hbears]
  exact hnext

private theorem counts_announcement {pdu : Outbound} {next : Connection τ}
    (h : Gives ([pdu], next) pdus c') (hpdu : pdu.statSn = c.statSn)
    (hbears : pdu.bearsStatus = false) (hnext : next.statSn = c.statSn) :
    CountsStatSns c.statSn pdus c'.statSn := by
  cases h
  refine ⟨hpdu, ?_⟩
  rw [hbears]
  exact hnext

private theorem dataInChunks_counts (c : Connection τ) (cmd : ScsiCommand) (data : List UInt8)
    (offset : ℕ) (dataSn : UInt32) :
    CountsStatSns c.statSn (c.dataInChunks cmd data offset dataSn).1
      (c.dataInChunks cmd data offset dataSn).2.statSn := by
  fun_induction dataInChunks c cmd data offset dataSn with
  | case1 c offset dataSn hlt stop isLast pdu cnext rest c'' hrest ih =>
    rw [hrest] at ih
    refine ⟨rfl, ?_⟩
    have hnext : cnext.statSn = if pdu.bearsStatus then c.statSn + 1 else c.statSn := by
      by_cases hlast : stop = data.length
      · have hpdu : pdu.bearsStatus = true := decide_eq_true hlast
        rw [hpdu, if_pos rfl]
        exact congrArg statSn (if_pos hlast)
      · have hpdu : pdu.bearsStatus = false := decide_eq_false hlast
        rw [hpdu]
        exact congrArg statSn (if_neg hlast)
    rw [← hnext]
    exact ih
  | case2 => exact rfl

private theorem dataIn_counts {cmd : ScsiCommand} {data : List UInt8}
    (h : Gives (c.dataInChunks cmd data 0 0) pdus c') : CountsStatSns c.statSn pdus c'.statSn := by
  have hcounts := dataInChunks_counts c cmd data 0 0
  rwa [h] at hcounts

private theorem finishes_counts {p : PendingWrite} (h : Finishes tg w c p pdus c' w') :
    CountsStatSns c.statSn pdus c'.statSn := by
  obtain ⟨target, outcome, -, -, hgives⟩ := h.executed
  exact counts_status hgives rfl rfl rfl

private theorem commands_count {cmd : ScsiCommand} (h : Commands tg w c bhs cmd pdus c' w') :
    CountsStatSns c.statSn pdus c'.statSn := by
  cases h with
  | oversized _ _ hgives => exact counts_status hgives rfl rfl rfl
  | gathers _ _ hgives => exact counts_announcement hgives rfl rfl rfl
  | completes _ _ hfinishes => exact finishes_counts hfinishes
  | dataIn _ _ _ hgives => exact dataIn_counts hgives
  | responds _ _ hgives => exact counts_status hgives rfl rfl rfl

private theorem feeds_count {d : ScsiDataOut} (h : Feeds tg w c bhs d pdus c' w') :
    CountsStatSns c.statSn pdus c'.statSn := by
  cases h with
  | unknown _ hgives => exact counts_status hgives rfl rfl rfl
  | outside _ _ hgives => exact counts_status hgives rfl rfl rfl
  | more _ _ _ hgives => exact counts_announcement hgives rfl rfl rfl
  | last _ _ _ hfinishes =>
    have hcounts := finishes_counts hfinishes
    exact hcounts

theorem handleLogin_counts {lr : LoginRequest} (h : Gives (c.handleLogin tg w lr) pdus c') :
    ∃ r, pdus = [.login r] ∧ r.statSn = (c.sequenced lr).statSn ∧
      c'.statSn = (c.sequenced lr).statSn + 1 := by
  cases handleLogin_logins h with
  | fails _ hgives => cases hgives; exact ⟨_, rfl, rfl, rfl⟩
  | accepts hpdus haccepts => exact ⟨_, hpdus, haccepts.statSn_eq, haccepts.statSn_next⟩

private theorem sequenced_statSn {lr : LoginRequest} (hstage : c.stage = .login)
    (hsteady : ¬ c.Restarts (.login lr)) : (c.sequenced lr).statSn = c.statSn := by
  rw [sequenced]
  dsimp only
  split
  · rename_i hzero
    by_contra hne
    exact hsteady ⟨hstage, hzero, lr, rfl, fun h => hne (h.trans hzero.symm)⟩
  · rfl

/-- A request that does not restart the count is answered with the next numbers. -/
theorem handle_counts (hsteady : ¬ c.Restarts req)
    (h : c.handle tg w req bhs = .ok (pdus, c', w')) : CountsStatSns c.statSn pdus c'.statSn := by
  cases handle_handles h with
  | login hstage hgives =>
    obtain ⟨r, rfl, hr, hnext⟩ := handleLogin_counts hgives
    rw [sequenced_statSn hstage hsteady] at hr hnext
    exact ⟨hr, hnext⟩
  | misplaced _ _ hgives => exact counts_status hgives rfl rfl rfl
  | command _ _ hcommands =>
    have hcounts := commands_count hcommands
    exact hcounts
  | dataOut _ hfeeds => exact feeds_count hfeeds
  | nopOut _ hgives => exact counts_announcement hgives rfl rfl rfl
  | logout _ hgives => exact counts_status hgives rfl rfl rfl
  | unbound _ _ hgives => exact counts_status hgives rfl rfl rfl
  | text _ hgives => exact counts_status hgives rfl rfl rfl
  | taskMgmt _ hgives => exact counts_status hgives rfl rfl rfl
  | loginAgain _ hgives => exact counts_status hgives rfl rfl rfl
  | unsupported _ hgives => exact counts_status hgives rfl rfl rfl

private theorem handle_counts_from (h : c.handle tg w req bhs = .ok (pdus, c', w')) :
    ∃ n, CountsStatSns n pdus c'.statSn := by
  by_cases hrestarts : c.Restarts req
  · obtain ⟨hstage, -, lr, rfl, -⟩ := hrestarts
    cases handle_handles h with
    | login _ hgives =>
      obtain ⟨r, rfl, hr, hnext⟩ := handleLogin_counts hgives
      exact ⟨_, hr, hnext⟩
    | misplaced _ hlogin =>
      rw [hlogin lr rfl] at hstage
      cases hstage
    | loginAgain hfull =>
      rw [hstage] at hfull
      cases hfull
  · exact ⟨_, handle_counts hrestarts h⟩

private theorem handle_stays_login (h : c.handle tg w req bhs = .ok (pdus, c', w'))
    (hstage : c'.stage = .login) : ∃ r, pdus = [.login r] := by
  have hmoves := (handle_advances h).moves
  rw [hstage] at hmoves
  cases handle_handles h with
  | login _ hgives =>
    obtain ⟨r, hpdus, -⟩ := handleLogin_counts hgives
    exact ⟨r, hpdus⟩
  | misplaced _ _ hgives =>
    cases hgives
    cases hstage
  | _ hfull _ =>
    rw [hfull] at hmoves
    cases hmoves

end Connection

variable {tg : Targets σ τ} {ts : List (Turn σ τ)} {t : Turn σ τ} {c : Connection τ}

private theorem conversation_counts (h : Conversation tg ts c)
    (hsteady : ∀ t ∈ ts.tail, ¬ t.conn.Restarts t.req) : ∃ n, CountsStatSns n (sent ts) c.statSn := by
  induction h with
  | new => exact ⟨0, rfl⟩
  | @turn ts t _ ht ih =>
    rw [sent_concat]
    cases ts with
    | nil => exact Connection.handle_counts_from ht
    | cons first rest =>
      rw [List.cons_append, List.tail_cons] at hsteady
      obtain ⟨n, hn⟩ := ih fun t' h' => hsteady t' (List.mem_append_left _ h')
      have hlast := hsteady t (List.mem_append_right _ (List.mem_singleton_self t))
      exact ⟨n, hn.append (Connection.handle_counts hlast ht)⟩

private theorem last_status (h : Conversation tg ts c) (hstage : c.stage = .login) (hne : ts ≠ []) :
    ∃ x, ((sent ts).filter Outbound.bearsStatus).getLast? = some x := by
  cases h with
  | new => exact absurd rfl hne
  | @turn ts t _ ht =>
    obtain ⟨r, hpdus⟩ := Connection.handle_stays_login ht hstage
    have hr : (Outbound.login r).bearsStatus = true := rfl
    exact ⟨.login r, by rw [sent_concat, hpdus, List.filter_append, List.filter_cons_of_pos hr]; simp⟩

private theorem restart_breaks_order (h : Conversation tg ts t.conn) (ht : t.Happens tg)
    (hne : ts ≠ []) {n : UInt32} (hcounts : CountsStatSns n (sent ts) t.conn.statSn)
    (horder : StatSnsInOrder (sent ts ++ t.pdus)) : ¬ t.conn.Restarts t.req := by
  rintro ⟨hstage, hzero, lr, hreq, hother⟩
  obtain ⟨x, hx⟩ := last_status h hstage hne
  have hlogin : Connection.Gives (t.conn.handleLogin tg t.before lr) t.pdus t.next := by
    rw [Turn.Happens, hreq] at ht
    simp only [Connection.handle, hstage, Connection.answer, Except.ok.injEq, Prod.mk.injEq] at ht
    exact Prod.ext ht.1 ht.2.1
  obtain ⟨r, hpdus, hr, -⟩ := Connection.handleLogin_counts hlogin
  rw [Connection.sequenced, hzero] at hr
  rw [hpdus] at horder
  have hnext := horder.next rfl hx
  rw [← hcounts.getLast? hx, hzero] at hnext
  exact hother (hr.symm.trans hnext)

/-- The StatSNs of a session are in order exactly when no login but its first request finds
the count at 0 and sets it to another value. -/
theorem stat_sns_in_order_iff (tg : Targets σ τ) (h : Conversation tg ts c) :
    StatSnsInOrder (sent ts) ↔ ∀ t ∈ ts.tail, ¬ t.conn.Restarts t.req := by
  constructor
  · intro horder
    induction h with
    | new => exact fun t hmem => absurd hmem List.not_mem_nil
    | @turn ts t hbefore ht ih =>
      rw [sent_concat] at horder
      have hsteady := ih horder.left_of_append
      cases ts with
      | nil => exact fun t hmem => absurd hmem List.not_mem_nil
      | cons first rest =>
        obtain ⟨n, hn⟩ := conversation_counts hbefore hsteady
        intro t' hmem
        rw [List.cons_append, List.tail_cons] at hmem
        rcases List.mem_append.1 hmem with hmem | hmem
        · exact hsteady t' hmem
        · rw [List.mem_singleton.1 hmem]
          exact restart_breaks_order hbefore ht (List.cons_ne_nil _ _) hn horder
  · intro hsteady
    obtain ⟨n, hn⟩ := conversation_counts h hsteady
    exact hn.inOrder

/-- A login from the security stage to the operational stage that expects `expStatSn`. -/
def loginStep (expStatSn : UInt32) : LoginRequest :=
  { loginTo "" 0 with nsg := 1, expStatSn := expStatSn, text := [] }

def stepTurn (c : Connection ℕ) (expStatSn : UInt32) : Turn World ℕ where
  conn := c
  before := .empty
  req := .login (loginStep expStatSn)
  bhs := []
  pdus := (c.handleLogin (World.targets id) .empty (loginStep expStatSn)).1
  next := (c.handleLogin (World.targets id) .empty (loginStep expStatSn)).2
  after := .empty

def twoSteps (first second : UInt32) : List (Turn World ℕ) :=
  [stepTurn .new first, stepTurn (stepTurn .new first).next second]

private theorem stepTurn_happens {c : Connection ℕ} (hstage : c.stage = .login)
    (expStatSn : UInt32) : (stepTurn c expStatSn).Happens (World.targets id) := by
  simp [Turn.Happens, stepTurn, Connection.handle, hstage, Connection.answer]

private theorem twoSteps_happen (first second : UInt32) :
    Conversation (World.targets id) (twoSteps first second)
      (stepTurn (stepTurn .new first).next second).next :=
  .turn (.turn .new (stepTurn_happens rfl first)) (stepTurn_happens rfl second)

theorem two_steps_in_order : StatSnsInOrder (sent (twoSteps 7 8)) := by
  refine (stat_sns_in_order_iff (World.targets id) (twoSteps_happen 7 8)).2 fun t ht => ?_
  rw [List.mem_singleton.1 ht]
  exact fun hrestarts => absurd hrestarts.2.1 (by decide)

/-- A first login with ExpStatSN 0xffffffff wraps the count to 0, and the second one sets it
to 5. -/
theorem second_step_restarts :
    ¬ ∀ (ts : List (Turn World ℕ)) (c : Connection ℕ), Conversation (World.targets id) ts c →
      StatSnsInOrder (sent ts) := by
  intro hall
  have horder := hall _ _ (twoSteps_happen 0xffffffff 5)
  exact absurd horder.consecutive (by decide)

end XBoot.Iscsi
