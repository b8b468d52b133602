import XBoot.GatheredWrites

/-!
# The solicitation of one write

A write whose immediate data does not reach EDTL is gathered by R2Ts, which the
initiator answers one after the other. The connection asks for the next burst after
every Data-Out, so the R2Ts stay apart exactly when each is answered by one PDU.
-/

namespace XBoot.Iscsi

open ListSlices Storage

variable {σ τ : Type}

/-- One event of the exchange for a write: data for a range of positions, or a response. -/
inductive Event where
  | arrived (offset length : ℕ)
  | sent (pdu : Outbound)

/-- The R2T asks for the byte at a position. -/
def R2t.Asks (r : R2t) (i : ℕ) : Prop :=
  r.bufferOffset.toNat ≤ i ∧ i < r.bufferOffset.toNat + r.desiredLength.toNat

/-- The event brings or asks for the byte at a position. -/
def Event.Covers : Event → ℕ → Prop
  | .arrived offset length, i => offset ≤ i ∧ i < offset + length
  | .sent (.r2t r), i => r.Asks i
  | .sent _, _ => False

def Event.r2t? : Event → Option R2t
  | .sent (.r2t r) => some r
  | _ => none

/-- The SCSI Response or the Reject of an event. -/
def Event.closing? : Event → Option Outbound
  | .sent (.scsiResp r) => some (.scsiResp r)
  | .sent (.reject r) => some (.reject r)
  | _ => none

/-- The R2Ts sent for a write of `cmd` ask for one to `maxBurst` bytes of the transfer, for no
byte that arrived or was asked for before, and are numbered from 0. -/
structure Sound (cmd : ScsiCommand) (maxBurst : ℕ) (log : List Event) : Prop where
  inside : ∀ r ∈ log.filterMap Event.r2t?, 1 ≤ r.desiredLength.toNat ∧
    r.desiredLength.toNat ≤ maxBurst ∧
      r.bufferOffset.toNat + r.desiredLength.toNat ≤ cmd.edtl.toNat
  once : log.Pairwise fun e e' => ∀ r, e' = .sent (.r2t r) → ∀ i, r.Asks i → ¬ e.Covers i
  numbered : (log.filterMap Event.r2t?).map (·.r2tSn.toNat) =
    List.range (log.filterMap Event.r2t?).length

/-- The connection and the initiator in the exchange for one write: for each R2T that is
not answered yet the next position and the bytes left, and the events so far. -/
structure Exchange (τ : Type) where
  conn : Connection τ
  outstanding : List (ℕ × ℕ)
  log : List Event

/-- The ranges that R2Ts ask the initiator for. -/
def solicited (pdus : List Outbound) : List (ℕ × ℕ) :=
  pdus.filterMap fun
    | .r2t r =>
      if r.desiredLength = 0 then none else some (r.bufferOffset.toNat, r.desiredLength.toNat)
    | _ => none

/-- A Data-Out that the initiator may send: the next bytes of the oldest R2T not answered yet. -/
structure Exchange.Answers (s : Exchange τ) (cmd : ScsiCommand) (d : ScsiDataOut) (left : ℕ)
    (rest : List (ℕ × ℕ)) : Prop where
  head : s.outstanding = (d.bufferOffset.toNat, left) :: rest
  itt_eq : d.itt = cmd.itt
  pos : 1 ≤ d.data.length
  size_le : d.data.length ≤ left

/-- What is outstanding after `size` bytes for the oldest R2T. -/
def remaining (offset size left : ℕ) (rest : List (ℕ × ℕ)) : List (ℕ × ℕ) :=
  if size = left then rest else (offset + size, left - size) :: rest

/-- A request that does not concern the write under a tag, and does not end the session. -/
def Request.unrelated (itt : UInt32) : Request → Prop
  | .scsiCommand cmd => cmd.itt ≠ itt
  | .dataOut d => d.itt ≠ itt
  | .logout _ => False
  | _ => True

/-- The exchanges for a write on a connection of any session, with the size of each
Data-Out sent and the bytes left of its R2T. The shared state at each request is
arbitrary. -/
inductive Solicits (tg : Targets σ τ) (cmd : ScsiCommand) : List (ℕ × ℕ) → Exchange τ → Prop
  | start {hist : List Request} {c c' : Connection τ} {bhs : List UInt8} {w w' : σ}
      {pdus : List Outbound} (hreached : Reached tg (fun _ _ _ => True) hist c)
      (hstage : c.stage = .fullFeature) (hwrite : cmd.write = true)
      (hless : cmd.data.length < cmd.edtl.toNat)
      (hhandle : c.handle tg w (.scsiCommand cmd) bhs = .ok (pdus, c', w')) :
      Solicits tg cmd [] {
        conn := c'
        outstanding := solicited pdus
        log := .arrived 0 cmd.data.length :: pdus.map .sent }
  | answer {sizes : List (ℕ × ℕ)} {s : Exchange τ} {d : ScsiDataOut} {left : ℕ}
      {rest : List (ℕ × ℕ)} {c' : Connection τ} {bhs : List UInt8} {w w' : σ}
      {pdus : List Outbound} (hsolicits : Solicits tg cmd sizes s)
      (hanswers : s.Answers cmd d left rest)
      (hhandle : s.conn.handle tg w (.dataOut d) bhs = .ok (pdus, c', w')) :
      Solicits tg cmd (sizes ++ [(d.data.length, left)]) {
        conn := c'
        outstanding :=
          remaining d.bufferOffset.toNat d.data.length left rest ++ solicited pdus
        log := s.log ++ .arrived d.bufferOffset.toNat d.data.length :: pdus.map .sent }
  | other {sizes : List (ℕ × ℕ)} {s : Exchange τ} {req : Request} {c' : Connection τ}
      {bhs : List UInt8} {w w' : σ} {pdus : List Outbound} (hsolicits : Solicits tg cmd sizes s)
      (hreq : req.unrelated cmd.itt)
      (hhandle : s.conn.handle tg w req bhs = .ok (pdus, c', w')) :
      Solicits tg cmd sizes { s with conn := c' }

/-- The R2Ts are sound, the initiator's next Data-Out is handled unless the execution of the
write panics, and when every R2T is answered, one SCSI Response and no Reject was sent. -/
structure Exchange.Orderly (tg : Targets σ τ) (cmd : ScsiCommand) (s : Exchange τ) : Prop where
  sound : Sound cmd s.conn.params.maxBurstLength s.log
  handled : ∀ d left rest, s.Answers cmd d left rest →
    (∀ target data w, (tg.execute target cmd data w).isOk = true) →
      ∀ w bhs, (s.conn.handle tg w (.dataOut d) bhs).isOk = true
  closed : s.outstanding = [] →
    ∃ r, r.itt = cmd.itt ∧ s.log.filterMap Event.closing? = [.scsiResp r]

/-- In every exchange for a write all is in order. -/
def WritesOrderly (tg : Targets σ τ) : Prop :=
  ∀ cmd sizes s, Solicits tg cmd sizes s → s.Orderly tg cmd

variable {tg : Targets σ τ} {w w' : σ} {c c' : Connection τ} {bhs : List UInt8}
  {pdus : List Outbound} {cmd : ScsiCommand} {d : ScsiDataOut} {req : Request} {itt : UInt32}

private theorem commands_inFlight (h : Connection.Commands tg w c bhs cmd pdus c' w')
    (hitt : cmd.itt ≠ itt) : c'.inFlight itt = c.inFlight itt := by
  cases h with
  | oversized _ _ hgives => cases hgives; rfl
  | gathers _ _ hgives => cases hgives; exact Function.update_of_ne hitt.symm _ _
  | completes _ _ hfinishes => rw [hfinishes.keeps.inFlight_eq]
  | dataIn _ _ _ hgives => rw [(Connection.dataInChunks_keeps hgives).inFlight_eq]
  | responds _ _ hgives => cases hgives; rfl

private theorem feeds_inFlight (h : Connection.Feeds tg w c bhs d pdus c' w')
    (hitt : d.itt ≠ itt) : c'.inFlight itt = c.inFlight itt := by
  cases h with
  | unknown _ hgives => cases hgives; rfl
  | outside _ _ hgives => cases hgives; exact Function.update_of_ne hitt.symm _ _
  | more _ _ _ hgives => cases hgives; exact Function.update_of_ne hitt.symm _ _
  | last _ _ _ hfinishes =>
    rw [hfinishes.keeps.inFlight_eq]
    exact Function.update_of_ne hitt.symm _ _

private theorem unrelated_inFlight (hstage : c.stage = .fullFeature) (hreq : req.unrelated itt)
    (h : c.handle tg w req bhs = .ok (pdus, c', w')) : c'.inFlight itt = c.inFlight itt := by
  cases Connection.handle_handles h with
  | login hlogin => rw [hstage] at hlogin; cases hlogin
  | misplaced hnot => exact absurd hstage hnot
  | command _ _ hcommands =>
    have hsame := commands_inFlight hcommands hreq
    exact hsame
  | unbound _ _ hgives => cases hgives; rfl
  | dataOut _ hfeeds => exact feeds_inFlight hfeeds hreq
  | logout => exact hreq.elim
  | _ hstage _ =>
    have hkeeps : Connection.Keeps c c' := by
      refine Connection.handle_keeps hstage ?_ ?_ ?_ h <;> exact fun _ => nofun
    rw [hkeeps.inFlight_eq]

private theorem unrelated_not_logout (hreq : req.unrelated itt) (l : LogoutRequest) :
    req ≠ .logout l := by
  rintro rfl
  exact hreq

/-- What holds of a connection in every session. -/
structure Usable (c : Connection τ) : Prop where
  bound : c.stage = .fullFeature → c.target ≠ none
  maxBurst_le : c.params.maxBurstLength ≤ 262144

private theorem SameSession.usable (h : SameSession c c') (hc : Usable c) : Usable c' :=
  ⟨by rw [h.stage_eq, h.target_eq]; exact hc.bound, h.params_eq ▸ hc.maxBurst_le⟩

private theorem handle_usable (hc : Usable c) (h : c.handle tg w req bhs = .ok (pdus, c', w')) :
    Usable c' := by
  refine ⟨?_, (Connection.handle_within h).maxBurst_le.trans hc.maxBurst_le⟩
  cases Connection.handle_handles h with
  | login hstage hgives => exact (Connection.handleLogin_bound hstage hgives).2
  | misplaced _ _ hgives => cases hgives; exact nofun
  | logout _ hgives => cases hgives; exact nofun
  | _ hstage _ =>
    have hsame := Connection.handle_same hstage h fun _ => nofun
    rw [hsame.stage_eq, hsame.target_eq]
    exact hc.bound

private theorem reached_usable {cond : List Request → Connection τ → Request → Prop}
    {hist : List Request} (h : Reached tg cond hist c) : Usable c := by
  induction h with
  | new => exact ⟨nofun, le_rfl⟩
  | step _ _ hhandle ih => exact handle_usable ih hhandle

variable {sizes : List (ℕ × ℕ)} {s : Exchange τ}

private theorem solicits_usable (h : Solicits tg cmd sizes s) :
    s.conn.stage = .fullFeature ∧ Usable s.conn := by
  induction h with
  | start hreached hstage _ _ hhandle =>
    have hsame := Connection.handle_same hstage hhandle fun _ => nofun
    exact ⟨hsame.stage_eq.trans hstage, hsame.usable (reached_usable hreached)⟩
  | answer _ _ hhandle ih =>
    have hsame := Connection.handle_same ih.1 hhandle fun _ => nofun
    exact ⟨hsame.stage_eq.trans ih.1, hsame.usable ih.2⟩
  | other _ hreq hhandle ih =>
    have hsame := Connection.handle_same ih.1 hhandle (unrelated_not_logout hreq)
    exact ⟨hsame.stage_eq.trans ih.1, hsame.usable ih.2⟩

variable {maxBurst : ℕ} {log : List Event} {r : R2t} {e : Event}

private theorem r2t?_eq_some (h : e = Event.sent (.r2t r)) : e.r2t? = some r := by
  rw [h]
  rfl

private theorem Sound.append (h : Sound cmd maxBurst log) (he : e.r2t? = none) :
    Sound cmd maxBurst (log ++ [e]) := by
  have hsame : (log ++ [e]).filterMap Event.r2t? = log.filterMap Event.r2t? := by
    rw [List.filterMap_append, List.filterMap_cons_none he, List.filterMap_nil, List.append_nil]
  refine ⟨hsame ▸ h.inside, List.pairwise_append.2 ⟨h.once, List.pairwise_singleton _ _, ?_⟩,
    hsame ▸ h.numbered⟩
  intro _ _ e' he' r hr
  rw [List.mem_singleton.1 he'] at hr
  cases he.symm.trans (r2t?_eq_some hr)

private theorem Sound.solicit (h : Sound cmd maxBurst log)
    (hr : 1 ≤ r.desiredLength.toNat ∧ r.desiredLength.toNat ≤ maxBurst ∧
      r.bufferOffset.toNat + r.desiredLength.toNat ≤ cmd.edtl.toNat)
    (hbelow : ∀ e ∈ log, ∀ i, e.Covers i → i < r.bufferOffset.toNat)
    (hnumber : r.r2tSn.toNat = (log.filterMap Event.r2t?).length) :
    Sound cmd maxBurst (log ++ [.sent (.r2t r)]) := by
  have hmore : (log ++ [Event.sent (.r2t r)]).filterMap Event.r2t? =
      log.filterMap Event.r2t? ++ [r] := List.filterMap_append
  refine ⟨fun r' hr' => ?_,
    List.pairwise_append.2 ⟨h.once, List.pairwise_singleton _ _, fun e he e' he' r' hr' => ?_⟩, ?_⟩
  · rw [hmore, List.mem_append, List.mem_singleton] at hr'
    rcases hr' with hr' | rfl
    · exact h.inside r' hr'
    · exact hr
  · rw [List.mem_singleton.1 he'] at hr'
    cases hr'
    intro i hi hcovers
    exact absurd (hbelow e he i hcovers) (Nat.not_lt.2 hi.1)
  · rw [hmore, List.map_append, h.numbered, List.length_append, List.length_singleton,
      List.range_succ, List.map_singleton, hnumber]

private theorem Sound.of_append {more : List Event} (h : Sound cmd maxBurst (log ++ more)) :
    Sound cmd maxBurst log := by
  have hsplit : (log ++ more).filterMap Event.r2t? =
      log.filterMap Event.r2t? ++ more.filterMap Event.r2t? := List.filterMap_append
  refine ⟨fun r hr => h.inside r ?_, (List.pairwise_append.1 h.once).1, ?_⟩
  · rw [hsplit]
    exact List.mem_append_left _ hr
  · have hnumbered := congrArg (List.take (log.filterMap Event.r2t?).length) h.numbered
    rw [hsplit, List.map_append, List.take_left' (List.length_map ..), List.length_append,
      List.take_range, Nat.min_eq_left (Nat.le_add_right _ _)] at hnumbered
    exact hnumbered

/-- The size of the next R2T for a pending write. -/
def burst (c : Connection τ) (p : PendingWrite) : ℕ :=
  min (p.cmd.edtl.toNat - p.received.toNat) c.params.maxBurstLength

/-- The write `p` of `cmd` lies pending, and up to its received bytes all of it arrived or was
asked for. -/
structure Gathering (cmd : ScsiCommand) (c : Connection τ) (p : PendingWrite) (log : List Event) :
    Prop where
  pending : c.inFlight cmd.itt = some p
  cmd_eq : p.cmd = cmd
  length_eq : p.buf.length = cmd.edtl.toNat
  received_lt : p.received.toNat < cmd.edtl.toNat
  r2tSn_le : p.r2tSn.toNat ≤ p.received.toNat
  r2tSn_eq : p.r2tSn.toNat = (log.filterMap Event.r2t?).length
  below : ∀ e ∈ log, ∀ i, e.Covers i → i < p.received.toNat
  not_closed : log.filterMap Event.closing? = []
  sound : Sound cmd c.params.maxBurstLength log

/-- The R2T `r` for the next burst of the write `p` is the only one not answered. -/
structure Waiting (cmd : ScsiCommand) (s : Exchange τ) (p : PendingWrite) (log : List Event)
    (r : R2t) : Prop where
  gathering : Gathering cmd s.conn p log
  log_eq : s.log = log ++ [.sent (.r2t r)]
  offset_eq : r.bufferOffset = p.received
  desired_eq : r.desiredLength.toNat = burst s.conn p
  number_eq : r.r2tSn = p.r2tSn
  outstanding_eq : s.outstanding = [(p.received.toNat, burst s.conn p)]

/-- All data arrived, and the write is answered. -/
structure Answered (cmd : ScsiCommand) (s : Exchange τ) : Prop where
  outstanding_eq : s.outstanding = []
  closed : ∃ r, r.itt = cmd.itt ∧ s.log.filterMap Event.closing? = [.scsiResp r]
  sound : Sound cmd s.conn.params.maxBurstLength s.log

variable {p : PendingWrite}

private theorem toNat_min (a b : UInt32) : (min a b).toNat = min a.toNat b.toNat := by
  have hmin : min a b = if a ≤ b then a else b := rfl
  rw [hmin, min_def, apply_ite UInt32.toNat]
  simp only [UInt32.le_iff_toNat_le]

private theorem burst_pos (h : Gathering cmd c p log) (hpos : 1 ≤ c.params.maxBurstLength) :
    1 ≤ burst c p := by
  have hlt := h.received_lt
  rw [burst, h.cmd_eq]
  omega

private theorem burst_inside (h : Gathering cmd c p log) :
    p.received.toNat + burst c p ≤ cmd.edtl.toNat := by
  have hlt := h.received_lt
  rw [burst, h.cmd_eq]
  omega

private theorem solicit_eq (c : Connection τ) (itt : UInt32)
    (h : p.received.toNat ≤ p.cmd.edtl.toNat) (hmax : c.params.maxBurstLength ≤ 262144) :
    ∃ r, c.solicit itt p = .r2t r ∧ r.bufferOffset = p.received ∧ r.r2tSn = p.r2tSn ∧
      r.desiredLength.toNat = burst c p := by
  refine ⟨_, rfl, rfl, rfl, ?_⟩
  dsimp only
  rw [toNat_min, UInt32.toNat_sub_of_le _ _ (UInt32.le_iff_toNat_le.2 h),
    UInt32.toNat_ofNat_of_lt' (Nat.lt_of_le_of_lt hmax (by decide)), burst]

private theorem solicited_singleton (hpos : r.desiredLength.toNat ≠ 0) :
    solicited [.r2t r] = [(r.bufferOffset.toNat, r.desiredLength.toNat)] := by
  have hne : r.desiredLength ≠ 0 := fun h => hpos (by rw [h]; rfl)
  simp [solicited, hne]

private theorem Gathering.waiting {before : Connection τ} (h : Gathering cmd c p log)
    (hparams : before.params = c.params) (hpos : 1 ≤ c.params.maxBurstLength)
    (hmax : c.params.maxBurstLength ≤ 262144) (hsent : pdus = [before.solicit itt p]) :
    ∃ r, Waiting cmd { conn := c, outstanding := solicited pdus, log := log ++ pdus.map .sent }
      p log r := by
  have hle : p.received.toNat ≤ p.cmd.edtl.toNat := h.cmd_eq ▸ h.received_lt.le
  obtain ⟨r, hr, hoffset, hnumber, hdesired⟩ := solicit_eq before itt hle (hparams ▸ hmax)
  have hburst : burst before p = burst c p := by rw [burst, hparams, burst]
  rw [hburst] at hdesired
  have hne : r.desiredLength.toNat ≠ 0 := by
    have := burst_pos h hpos
    omega
  rw [hsent, hr]
  refine ⟨r, h, rfl, hoffset, hdesired, hnumber, ?_⟩
  rw [solicited_singleton hne, hoffset, hdesired]

private theorem Waiting.sound (h : Waiting cmd s p log r) (hpos : 1 ≤ s.conn.params.maxBurstLength) :
    Sound cmd s.conn.params.maxBurstLength s.log := by
  rw [h.log_eq]
  refine h.gathering.sound.solicit ?_ ?_ ?_
  · rw [h.desired_eq, h.offset_eq]
    exact ⟨burst_pos h.gathering hpos, Nat.min_le_right _ _, burst_inside h.gathering⟩
  · rw [h.offset_eq]
    exact h.gathering.below
  · rw [h.number_eq]
    exact h.gathering.r2tSn_eq

variable {target : τ} {left : ℕ} {rest : List (ℕ × ℕ)}

private theorem start_gathering (hless : cmd.data.length < cmd.edtl.toNat) :
    Gathering cmd (c.setInFlight cmd.itt (some (.start cmd))) (.start cmd)
      [.arrived 0 cmd.data.length] := by
  have hreceived : (PendingWrite.start cmd).received.toNat = cmd.data.length :=
    toNat_ofNat_of_le hless.le
  refine ⟨Function.update_self .., rfl, length_start hless.le, by rwa [hreceived],
    Nat.zero_le _, rfl, ?_, rfl, ⟨nofun, List.pairwise_singleton _ _, rfl⟩⟩
  intro e he i hcovers
  rw [List.mem_singleton.1 he] at hcovers
  rw [hreceived]
  exact Nat.lt_of_lt_of_eq hcovers.2 (Nat.zero_add _)

private theorem start_solicits (hstage : c.stage = .fullFeature) (hc : Usable c)
    (hwrite : cmd.write = true) (hless : cmd.data.length < cmd.edtl.toNat)
    (h : c.handle tg w (.scsiCommand cmd) bhs = .ok (pdus, c', w')) :
    pdus = [c.counted.solicit cmd.itt (.start cmd)] ∧
      c' = c.counted.setInFlight cmd.itt (some (.start cmd)) := by
  cases Connection.handle_handles h with
  | misplaced hnot => exact absurd hstage hnot
  | unbound _ htarget => exact absurd htarget (hc.bound hstage)
  | command _ _ hcommands =>
    cases hcommands with
    | oversized _ hover =>
      rw [UInt32.lt_iff_toNat_lt, toNat_ofNat_of_le hless.le] at hover
      omega
    | gathers _ _ hgives => cases hgives; exact ⟨rfl, rfl⟩
    | completes _ hall => omega
    | dataIn hread => rw [hwrite] at hread; cases hread
    | responds hread => rw [hwrite] at hread; cases hread

private theorem append_received (hle : d.data.length ≤ cmd.edtl.toNat - p.received.toNat)
    (hlt : p.received.toNat < cmd.edtl.toNat) :
    (p.append d).received.toNat = p.received.toNat + d.data.length := by
  have hsize := cmd.edtl.toNat_lt
  have hsum : (p.append d).received = p.received + UInt32.ofNat d.data.length := rfl
  rw [hsum, UInt32.toNat_add, UInt32.toNat_ofNat', Nat.add_mod_mod, Nat.mod_eq_of_lt (by omega)]

private theorem waiting_feeds (hwaiting : Waiting cmd s p log r) (hstage : s.conn.stage = .fullFeature)
    (hanswers : s.Answers cmd d left rest)
    (h : s.conn.handle tg w (.dataOut d) bhs = .ok (pdus, c', w')) :
    (p.received.toNat + d.data.length < cmd.edtl.toNat ∧
      pdus = [s.conn.solicit cmd.itt (p.append d).nextR2t] ∧
        c' = s.conn.setInFlight cmd.itt (some (p.append d).nextR2t)) ∨
    (p.received.toNat + d.data.length = cmd.edtl.toNat ∧
      ∃ response, pdus = [.scsiResp response] ∧ response.itt = cmd.itt) := by
  have hgathering := hwaiting.gathering
  have hlt := hgathering.received_lt
  have hinside := burst_inside hgathering
  obtain ⟨hhead, -⟩ := List.cons.inj (hwaiting.outstanding_eq.symm.trans hanswers.head)
  obtain ⟨hoffset, hleft⟩ := Prod.mk.inj hhead
  have hsize := hanswers.size_le
  have hfits : d.data.length ≤ cmd.edtl.toNat - p.received.toNat := by omega
  have hreceived := append_received hfits hlt
  have hitt := hanswers.itt_eq
  have hpending := hgathering.pending
  have hcmd := hgathering.cmd_eq
  have hlength := hgathering.length_eq
  rw [← hitt] at hpending ⊢
  cases Connection.handle_handles h with
  | misplaced hnot => exact absurd hstage hnot
  | dataOut _ hfeeds =>
    cases hfeeds with
    | unknown hnone => cases hpending.symm.trans hnone
    | outside hp hout =>
      cases hpending.symm.trans hp
      omega
    | more hp _ hmore hgives =>
      cases hpending.symm.trans hp
      cases hgives
      rw [UInt32.lt_iff_toNat_lt, hreceived, hcmd] at hmore
      exact .inl ⟨hmore, rfl, rfl⟩
    | last hp _ hall hfinishes =>
      cases hpending.symm.trans hp
      rw [UInt32.le_iff_toNat_le, hreceived, hcmd] at hall
      obtain ⟨_, outcome, -, -, hgives⟩ := hfinishes.executed
      have htag : (p.append d).cmd.itt = d.itt := (congrArg ScsiCommand.itt hcmd).trans hitt.symm
      cases hgives
      exact .inr ⟨by omega, _, rfl, htag⟩

private theorem append_gathering (hwaiting : Waiting cmd s p log r)
    (hpos : 1 ≤ s.conn.params.maxBurstLength) (hoffset : d.bufferOffset.toNat = p.received.toNat)
    (hwhole : d.data.length = burst s.conn p)
    (hmore : p.received.toNat + d.data.length < cmd.edtl.toNat) :
    Gathering cmd (s.conn.setInFlight cmd.itt (some (p.append d).nextR2t)) (p.append d).nextR2t
      (s.log ++ [.arrived d.bufferOffset.toNat d.data.length]) := by
  have hgathering := hwaiting.gathering
  have hlt := hgathering.received_lt
  have hfits : d.data.length ≤ cmd.edtl.toNat - p.received.toNat := by omega
  have hreceived : (p.append d).nextR2t.received.toNat = p.received.toNat + d.data.length :=
    append_received hfits hlt
  have hnumber : (p.append d).nextR2t.r2tSn.toNat = p.r2tSn.toNat + 1 := by
    have hle := hgathering.r2tSn_le
    have hsize := cmd.edtl.toNat_lt
    have hnext : (p.append d).nextR2t.r2tSn = p.r2tSn + 1 := rfl
    rw [hnext, UInt32.toNat_add, Nat.mod_eq_of_lt (by rw [UInt32.toNat_one]; omega), UInt32.toNat_one]
  have hpositive := burst_pos hgathering hpos
  refine ⟨Function.update_self .., hgathering.cmd_eq, ?_, by rwa [hreceived], ?_, ?_, ?_, ?_,
    (hwaiting.sound hpos).append rfl⟩
  · rw [length_append (by rw [hgathering.length_eq]; omega), hgathering.length_eq]
  · have hle := hgathering.r2tSn_le
    rw [hnumber, hreceived]
    omega
  · rw [hnumber, hgathering.r2tSn_eq, hwaiting.log_eq]
    simp [Event.r2t?]
  · intro e he i hcovers
    rw [hwaiting.log_eq, List.append_assoc, List.mem_append] at he
    rw [hreceived]
    rcases he with he | he
    · have := hgathering.below e he i hcovers
      omega
    · rcases List.mem_cons.1 he with rfl | he
      · have hasked : i < r.bufferOffset.toNat + r.desiredLength.toNat := hcovers.2
        rw [hwaiting.offset_eq, hwaiting.desired_eq] at hasked
        omega
      · rw [List.mem_singleton.1 he] at hcovers
        rw [← hoffset]
        exact hcovers.2
  · rw [hwaiting.log_eq, List.append_assoc, List.filterMap_append, hgathering.not_closed]
    rfl

private theorem answer_whole (hwaiting : Waiting cmd s p log r)
    (hstage : s.conn.stage = .fullFeature) (hmax : s.conn.params.maxBurstLength ≤ 262144)
    (hpos : 1 ≤ s.conn.params.maxBurstLength) (hanswers : s.Answers cmd d left rest)
    (hwhole : d.data.length = left)
    (h : s.conn.handle tg w (.dataOut d) bhs = .ok (pdus, c', w')) (s' : Exchange τ)
    (hs' : s' = {
      conn := c'
      outstanding := remaining d.bufferOffset.toNat d.data.length left rest ++ solicited pdus
      log := s.log ++ .arrived d.bufferOffset.toNat d.data.length :: pdus.map .sent }) :
    (∃ p log r, Waiting cmd s' p log r) ∨ Answered cmd s' := by
  obtain ⟨hhead, hrest⟩ := List.cons.inj (hwaiting.outstanding_eq.symm.trans hanswers.head)
  obtain ⟨hoffset, hleft⟩ := Prod.mk.inj hhead
  have hnothing : remaining d.bufferOffset.toNat d.data.length left rest = [] := by
    rw [remaining, if_pos hwhole, hrest]
  rw [hnothing, List.nil_append, ← List.singleton_append, ← List.append_assoc] at hs'
  rcases waiting_feeds hwaiting hstage hanswers h with ⟨hmore, rfl, rfl⟩ | ⟨-, response, rfl, hitt⟩
  · have hgathering := append_gathering hwaiting hpos hoffset.symm (hwhole.trans hleft.symm) hmore
    obtain ⟨r', hr'⟩ := hgathering.waiting rfl hpos hmax rfl
    rw [hs']
    exact .inl ⟨_, _, r', hr'⟩
  · have hsame := Connection.handle_same hstage h fun _ => nofun
    have hsound : Sound cmd c'.params.maxBurstLength
        (s.log ++ [.arrived d.bufferOffset.toNat d.data.length] ++ [.sent (.scsiResp response)]) := by
      rw [hsame.params_eq]
      exact ((hwaiting.sound hpos).append rfl).append rfl
    rw [hs']
    refine .inr ⟨rfl, ⟨response, hitt, ?_⟩, hsound⟩
    have hopen := hwaiting.gathering.not_closed
    rw [hwaiting.log_eq]
    simp only [List.filterMap_append, hopen]
    rfl

private theorem answer_split (hwaiting : Waiting cmd s p log r)
    (hstage : s.conn.stage = .fullFeature) (hmax : s.conn.params.maxBurstLength ≤ 262144)
    (hpos : 1 ≤ s.conn.params.maxBurstLength) (hanswers : s.Answers cmd d left rest)
    (hsplit : d.data.length < left)
    (h : s.conn.handle tg w (.dataOut d) bhs = .ok (pdus, c', w')) :
    ¬ Sound cmd maxBurst (s.log ++ .arrived d.bufferOffset.toNat d.data.length ::
      pdus.map .sent) := by
  intro hsound
  obtain ⟨hhead, -⟩ := List.cons.inj (hwaiting.outstanding_eq.symm.trans hanswers.head)
  obtain ⟨-, hleft⟩ := Prod.mk.inj hhead
  have hgathering := hwaiting.gathering
  have hinside := burst_inside hgathering
  have hlt := hgathering.received_lt
  have hfits : d.data.length ≤ cmd.edtl.toNat - p.received.toNat := by omega
  have hreceived : (p.append d).nextR2t.received.toNat = p.received.toNat + d.data.length :=
    append_received hfits hlt
  have hcmd : (p.append d).nextR2t.cmd = cmd := hgathering.cmd_eq
  rcases waiting_feeds hwaiting hstage hanswers h with ⟨hmore, rfl, -⟩ | ⟨hall, -⟩
  · have hle : (p.append d).nextR2t.received.toNat ≤ (p.append d).nextR2t.cmd.edtl.toNat := by
      rw [hreceived, hcmd]
      omega
    obtain ⟨r', hr', hoffset', -, hdesired'⟩ := solicit_eq s.conn cmd.itt hle hmax
    have hnext : 1 ≤ burst s.conn (p.append d).nextR2t := by
      rw [burst, hreceived, hcmd]
      omega
    have honce := (List.pairwise_append.1 hsound.once).2.2 (.sent (.r2t r))
      (by rw [hwaiting.log_eq]; exact List.mem_append_right _ (List.mem_singleton.2 rfl))
      (.sent (s.conn.solicit cmd.itt (p.append d).nextR2t))
      (List.mem_cons_of_mem _ (List.mem_singleton.2 rfl))
    refine honce r' (by rw [hr']) (p.received.toNat + d.data.length) ⟨?_, ?_⟩ ⟨?_, ?_⟩
    · rw [hoffset', hreceived]
    · rw [hoffset', hreceived, hdesired']
      omega
    · rw [hwaiting.offset_eq]
      omega
    · rw [hwaiting.offset_eq, hwaiting.desired_eq]
      omega
  · omega

private theorem Waiting.other (h : Waiting cmd s p log r) (hsame : SameSession s.conn c')
    (hpending : c'.inFlight cmd.itt = s.conn.inFlight cmd.itt) :
    Waiting cmd { s with conn := c' } p log r := by
  have hgathering := h.gathering
  have hburst : burst s.conn p = burst c' p := by rw [burst, burst, hsame.params_eq]
  refine ⟨⟨hpending.trans hgathering.pending, hgathering.cmd_eq, hgathering.length_eq,
    hgathering.received_lt, hgathering.r2tSn_le, hgathering.r2tSn_eq, hgathering.below,
    hgathering.not_closed, hsame.params_eq ▸ hgathering.sound⟩, h.log_eq, h.offset_eq,
    h.desired_eq.trans hburst, h.number_eq, ?_⟩
  rw [h.outstanding_eq, hburst]

private theorem whole_waits (h : Solicits tg cmd sizes s)
    (hpos : 1 ≤ s.conn.params.maxBurstLength) (hwhole : ∀ x ∈ sizes, x.1 = x.2) :
    (∃ p log r, Waiting cmd s p log r) ∨ Answered cmd s := by
  induction h with
  | start hreached hstage hwrite hless hhandle =>
    have hc := reached_usable hreached
    obtain ⟨hpdus, rfl⟩ := start_solicits hstage hc hwrite hless hhandle
    obtain ⟨r, hr⟩ := (start_gathering hless).waiting rfl hpos hc.maxBurst_le hpdus
    exact .inl ⟨_, _, r, hr⟩
  | answer hsolicits hanswers hhandle ih =>
    obtain ⟨hstage, hc⟩ := solicits_usable hsolicits
    have hsame := Connection.handle_same hstage hhandle fun _ => nofun
    rw [hsame.params_eq] at hpos
    rcases ih hpos fun x hx => hwhole x (List.mem_append_left _ hx) with ⟨p, log, r, hw⟩ | hdone
    · exact answer_whole hw hstage hc.maxBurst_le hpos hanswers
        (hwhole _ (List.mem_append_right _ (List.mem_singleton.2 rfl))) hhandle _ rfl
    · cases hdone.outstanding_eq.symm.trans hanswers.head
  | other hsolicits hreq hhandle ih =>
    obtain ⟨hstage, -⟩ := solicits_usable hsolicits
    have hsame := Connection.handle_same hstage hhandle (unrelated_not_logout hreq)
    have hkept := unrelated_inFlight hstage hreq hhandle
    rw [hsame.params_eq] at hpos
    rcases ih hpos hwhole with ⟨p, log, r, hw⟩ | hdone
    · exact .inl ⟨p, log, r, hw.other hsame hkept⟩
    · exact .inr ⟨hdone.outstanding_eq, hdone.closed, hsame.params_eq ▸ hdone.sound⟩

private theorem sound_whole (h : Solicits tg cmd sizes s)
    (hsound : Sound cmd s.conn.params.maxBurstLength s.log) :
    1 ≤ s.conn.params.maxBurstLength ∧ ∀ x ∈ sizes, x.1 = x.2 := by
  induction h with
  | @start _ c _ _ _ _ _ hreached hstage hwrite hless hhandle =>
    refine ⟨?_, nofun⟩
    have hc := reached_usable hreached
    obtain ⟨rfl, rfl⟩ := start_solicits hstage hc hwrite hless hhandle
    have hlen := toNat_ofNat_of_le hless.le
    have hless' : (PendingWrite.start cmd).received.toNat ≤ cmd.edtl.toNat := hlen.trans_le hless.le
    obtain ⟨r, hr, -⟩ := solicit_eq c.counted cmd.itt hless' hc.maxBurst_le
    have hsent : r ∈ [Outbound.r2t r].filterMap fun pdu => (Event.sent pdu).r2t? :=
      List.mem_singleton.2 rfl
    have hasks := hsound.inside r (by rw [hr]; exact hsent)
    exact hasks.1.trans hasks.2.1
  | answer hsolicits hanswers hhandle ih =>
    obtain ⟨hstage, hc⟩ := solicits_usable hsolicits
    have hsame := Connection.handle_same hstage hhandle fun _ => nofun
    rw [hsame.params_eq] at hsound ⊢
    obtain ⟨hpos, hwhole⟩ := ih hsound.of_append
    refine ⟨hpos, fun x hx => ?_⟩
    rcases List.mem_append.1 hx with hx | hx
    · exact hwhole x hx
    · rw [List.mem_singleton.1 hx]
      by_contra hsplit
      have hless := Nat.lt_of_le_of_ne hanswers.size_le hsplit
      rcases whole_waits hsolicits hpos hwhole with ⟨p, log, r, hw⟩ | hdone
      · exact answer_split hw hstage hc.maxBurst_le hpos hanswers hless hhandle hsound
      · cases hdone.outstanding_eq.symm.trans hanswers.head
  | other hsolicits hreq hhandle ih =>
    obtain ⟨hstage, -⟩ := solicits_usable hsolicits
    have hsame := Connection.handle_same hstage hhandle (unrelated_not_logout hreq)
    rw [hsame.params_eq] at hsound ⊢
    exact ih hsound

private theorem waiting_handled (hwaiting : Waiting cmd s p log r)
    (hstage : s.conn.stage = .fullFeature) (hc : Usable s.conn)
    (hanswers : s.Answers cmd d left rest)
    (hexecutes : ∀ target data w, (tg.execute target cmd data w).isOk = true) (w : σ)
    (bhs : List UInt8) : (s.conn.handle tg w (.dataOut d) bhs).isOk = true := by
  have hgathering := hwaiting.gathering
  obtain ⟨hhead, -⟩ := List.cons.inj (hwaiting.outstanding_eq.symm.trans hanswers.head)
  obtain ⟨hoffset, hleft⟩ := Prod.mk.inj hhead
  have hinside := burst_inside hgathering
  have hsize := hanswers.size_le
  have hpending := hgathering.pending
  rw [← hanswers.itt_eq] at hpending
  have hin : d.bufferOffset.toNat + d.data.length ≤ p.buf.length := by
    rw [hgathering.length_eq]
    omega
  have hdataOut : s.conn.handle tg w (.dataOut d) bhs = s.conn.dataOut tg w d bhs := by
    simp only [Connection.handle, hstage, Connection.handleFullFeature]
  rw [hdataOut]
  by_cases hmore : (p.append d).received < p.cmd.edtl
  · rw [Connection.dataOut_more hpending hin hmore]
    rfl
  · rw [Connection.dataOut_last hpending hin (UInt32.not_lt.1 hmore)]
    have hbound : (s.conn.setInFlight d.itt none).target ≠ none := hc.bound hstage
    obtain ⟨target, htarget⟩ := Option.ne_none_iff_exists'.1 hbound
    have hcmd : (p.append d).cmd = cmd := hgathering.cmd_eq
    have hok := hexecutes target (p.append d).buf w
    cases hexecute : tg.execute target cmd (p.append d).buf w with
    | error e => rw [hexecute] at hok; cases hok
    | ok result =>
      rw [← hcmd] at hexecute
      rw [Connection.finishWrite_of_execute htarget hexecute]
      rfl

/-- An exchange for a write is in order exactly when the negotiated burst is not empty and
every R2T is answered by a single Data-Out. -/
theorem write_orderly_iff (tg : Targets σ τ) (cmd : ScsiCommand) (sizes : List (ℕ × ℕ))
    (s : Exchange τ) (h : Solicits tg cmd sizes s) :
    s.Orderly tg cmd ↔ 1 ≤ s.conn.params.maxBurstLength ∧ ∀ x ∈ sizes, x.1 = x.2 := by
  refine ⟨fun horderly => sound_whole h horderly.sound, fun ⟨hpos, hwhole⟩ => ?_⟩
  obtain ⟨hstage, hc⟩ := solicits_usable h
  rcases whole_waits h hpos hwhole with ⟨p, log, r, hw⟩ | hdone
  · refine ⟨hw.sound hpos, fun d left rest hanswers hexecutes => ?_, fun hnothing => ?_⟩
    · exact waiting_handled hw hstage hc hanswers hexecutes
    · cases hw.outstanding_eq.symm.trans hnothing
  · refine ⟨hdone.sound, fun d left rest hanswers => ?_, fun _ => hdone.closed⟩
    cases hdone.outstanding_eq.symm.trans hanswers.head

/-- The exchange for the block after its R2T for 512 bytes at offset 0. -/
def blockSolicited : Exchange ℕ where
  conn := afterCommand
  outstanding := [(0, 512)]
  log := [.arrived 0 0, .sent ((Connection.loggedIn 0 5).counted.solicit 1 (.start writeOneBlock))]

private theorem block_solicits : Solicits (World.targets id) writeOneBlock [] blockSolicited := by
  have hget : (World.targets id).get oneBlockDisk "a" = some 0 := by decide
  obtain ⟨_, hlogin⟩ := Connection.handle_loginTo [] hget
  have hcommand : (Connection.loggedIn 0 5).handle (World.targets id) oneBlockDisk
      (.scsiCommand writeOneBlock) [] =
        .ok ([(Connection.loggedIn 0 5).counted.solicit 1 (.start writeOneBlock)], afterCommand,
          oneBlockDisk) := rfl
  exact .start (Reached.new.step trivial hlogin) rfl rfl (by decide) hcommand

def wholeBlock : ScsiDataOut := ⟨true, 0, 1, 1, 0, 0, 0, List.replicate 512 7⟩

theorem length_wholeBlock : wholeBlock.data.length = 512 := List.length_replicate

theorem received_wholeBlock :
    ((PendingWrite.start writeOneBlock).append wholeBlock).received = 512 :=
  congrArg (fun n => (PendingWrite.start writeOneBlock).received + UInt32.ofNat n) length_wholeBlock

private theorem wholeBlock_handled {completed : PendingWrite}
    (hcompleted : completed = (PendingWrite.start writeOneBlock).append wholeBlock)
    (hok : (World.execute 0 completed.cmd completed.buf oneBlockDisk).isOk = true) :
    ∃ pdus c' w', afterCommand.handle (World.targets id) oneBlockDisk (.dataOut wholeBlock) [] =
      .ok (pdus, c', w') ∧ solicited pdus = [] := by
  have hlast : afterCommand.dataOut (World.targets id) oneBlockDisk wholeBlock [] = _ :=
    Connection.dataOut_last inFlight_afterCommand
      (by rw [length_oneBlock, length_wholeBlock]; decide) (by rw [received_wholeBlock]; decide)
  rw [← hcompleted] at hlast
  cases hexecute : World.execute 0 completed.cmd completed.buf oneBlockDisk with
  | error e => rw [hexecute] at hok; cases hok
  | ok result =>
    have htarget : (World.targets id).execute 0 completed.cmd completed.buf oneBlockDisk =
        .ok (result.1, result.2) := hexecute
    exact ⟨_, _, _, hlast.trans (Connection.finishWrite_of_execute rfl htarget), rfl⟩

/-- A block in one Data-Out is gathered in order, and answered. -/
theorem whole_block_orderly : ∃ s, Solicits (World.targets id) writeOneBlock [(512, 512)] s ∧
    s.outstanding = [] ∧ s.Orderly (World.targets id) writeOneBlock := by
  obtain ⟨pdus, c', w', hhandle, hnone⟩ := wholeBlock_handled rfl (by decide +kernel)
  have hanswers : blockSolicited.Answers writeOneBlock wholeBlock 512 [] :=
    ⟨rfl, rfl, by rw [length_wholeBlock]; decide, length_wholeBlock.le⟩
  have hsolicits := block_solicits.answer hanswers hhandle
  rw [length_wholeBlock] at hsolicits
  have hsame := Connection.handle_same rfl hhandle fun _ => nofun
  refine ⟨_, hsolicits, by rw [hnone]; rfl, ?_⟩
  refine (write_orderly_iff (World.targets id) _ _ _ hsolicits).2 ⟨?_, by simp⟩
  rw [hsame.params_eq]
  exact Nat.le_of_ble_eq_true rfl

/-- When the first half of a block has arrived, the second half is asked for again. -/
theorem split_burst_solicited_twice : ¬ WritesOrderly (World.targets id) := by
  intro h
  have hmore : afterCommand.dataOut (World.targets id) oneBlockDisk (halfBlock 0) [] = _ :=
    Connection.dataOut_more inFlight_afterCommand
      (by rw [length_oneBlock, length_halfBlock]; decide) (by rw [received_halfBlock]; decide)
  have hanswers : blockSolicited.Answers writeOneBlock (halfBlock 0) 512 [] :=
    ⟨rfl, rfl, by rw [length_halfBlock]; decide, by rw [length_halfBlock]; decide⟩
  have hhandle : ∃ pdus, afterCommand.handle (World.targets id) oneBlockDisk
      (.dataOut (halfBlock 0)) [] = .ok (pdus, afterHalf, oneBlockDisk) := ⟨_, hmore⟩
  obtain ⟨pdus, hhandle⟩ := hhandle
  have hsolicits := block_solicits.answer hanswers hhandle
  have hwhole := (sound_whole hsolicits (h _ _ _ hsolicits).sound).2 _ (List.mem_singleton.2 rfl)
  rw [length_halfBlock] at hwhole
  cases hwhole

end XBoot.Iscsi
