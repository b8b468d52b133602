import XBoot.RequestLedgers
import XBoot.SessionInvariant

/-!
# No command is lost

A ledger of the commands handled in FullFeature, with the final answers that each one got:
those sent while it was handled, and those sent for a Data-Out under its tag while it
waited. Its waiting commands are the pending writes of the connection, and a command is
lost exactly where a write starts under the tag of a pending one.
-/

namespace XBoot.Iscsi

open RequestLedgers

variable {σ τ : Type}

/-- Whether a PDU is the final answer to a command. -/
def Outbound.isTerminal : Outbound → Bool
  | .scsiResp _ => true
  | .dataIn r => r.hasStatus
  | .reject _ => true
  | _ => false

def terminals (pdus : List Outbound) : ℕ := pdus.countP (·.isTerminal)

def Turn.entry (t : Turn σ τ) : Entry UInt32 :=
  if t.conn.stage = .fullFeature then match t.req with
    | .scsiCommand cmd => .request cmd.itt (terminals t.pdus)
    | .dataOut d => .followUp d.itt (terminals t.pdus)
    | _ => .other
  else .other

def commandLedger (ts : List (Turn σ τ)) : Ledger UInt32 := ledgerOf (ts.map Turn.entry)

/-- Every command handled in FullFeature is still pending and has no final answer, or is not
waited for any more and has exactly one. -/
def NothingLost (ts : List (Turn σ τ)) (c : Connection τ) : Prop :=
  ∀ n t cmd, ts[n]? = some t → t.conn.stage = .fullFeature → t.req = .scsiCommand cmd →
    ((commandLedger ts).answered.count n = 0 ∧ (commandLedger ts).waiting cmd.itt = some n ∧
        ∃ p, c.inFlight cmd.itt = some p ∧ p.cmd = cmd) ∨
      ((commandLedger ts).answered.count n = 1 ∧ (commandLedger ts).waiting cmd.itt ≠ some n)

def Turn.Reuses (t : Turn σ τ) : Prop :=
  t.conn.stage = .fullFeature ∧ ∃ cmd, t.req = .scsiCommand cmd ∧
    t.req.startsWrite cmd.itt = true ∧ t.conn.inFlight cmd.itt ≠ none

variable {tg : Targets σ τ} {ts : List (Turn σ τ)} {t : Turn σ τ} {c c' : Connection τ} {w w' : σ}
  {pdus : List Outbound} {bhs : List UInt8} {req : Request} {cmd : ScsiCommand} {d : ScsiDataOut}

namespace Connection

inductive Books (c c' : Connection τ) : Request → ℕ → Prop
  | answered {cmd : ScsiCommand} (hstart : (Request.scsiCommand cmd).startsWrite cmd.itt = false)
      (hsame : c'.inFlight = c.inFlight) : Books c c' (.scsiCommand cmd) 1
  | started {cmd : ScsiCommand} (hstart : (Request.scsiCommand cmd).startsWrite cmd.itt = true)
      (hset : c'.inFlight = Function.update c.inFlight cmd.itt (some (.start cmd))) :
      Books c c' (.scsiCommand cmd) 0
  | stray {d : ScsiDataOut} (hnone : c.inFlight d.itt = none) (hsame : c'.inFlight = c.inFlight) :
      Books c c' (.dataOut d) 1
  | fed {d : ScsiDataOut} {p q : PendingWrite} (hp : c.inFlight d.itt = some p)
      (hcmd : q.cmd = p.cmd) (hset : c'.inFlight = Function.update c.inFlight d.itt (some q)) :
      Books c c' (.dataOut d) 0
  | ended {d : ScsiDataOut} {p : PendingWrite} (hp : c.inFlight d.itt = some p)
      (hset : c'.inFlight = Function.update c.inFlight d.itt none) : Books c c' (.dataOut d) 1
  | other {req : Request} {answers : ℕ} (hcommand : ∀ cmd, req ≠ .scsiCommand cmd)
      (hdata : ∀ d, req ≠ .dataOut d) (hsame : c'.inFlight = c.inFlight) : Books c c' req answers

private theorem terminals_dataInChunks (c : Connection τ) (cmd : ScsiCommand) (data : List UInt8)
    (offset : ℕ) (dataSn : UInt32) :
    terminals (c.dataInChunks cmd data offset dataSn).1 = if offset < data.length then 1 else 0 := by
  fun_induction dataInChunks c cmd data offset dataSn with
  | case1 c offset dataSn hlt stop isLast pdu cnext rest c'' hrest ih =>
    rw [hrest] at ih
    rw [if_pos hlt, terminals, List.countP_cons, ← terminals, ih]
    have hstop : stop ≤ data.length := Nat.min_le_right _ _
    by_cases hlast : stop = data.length
    · have hpdu : pdu.isTerminal = true := decide_eq_true hlast
      rw [hpdu, if_neg (by omega), if_pos rfl]
    · have hpdu : pdu.isTerminal = false := decide_eq_false hlast
      rw [hpdu, if_pos (by omega), if_neg (by decide)]
  | case2 c offset dataSn hge => rw [if_neg hge]; rfl

private theorem finishes_terminals {p : PendingWrite} (h : Finishes tg w c p pdus c' w') :
    terminals pdus = 1 := by
  obtain ⟨target, outcome, -, -, hgives⟩ := h.executed
  cases hgives
  rfl

private theorem startsWrite_iff :
    (Request.scsiCommand cmd).startsWrite cmd.itt = true ↔
      cmd.write = true ∧ cmd.data.length < cmd.edtl.toNat := by
  simp [Request.startsWrite]

private theorem commands_books (h : Commands tg w c.counted bhs cmd pdus c' w') :
    Books c c' (.scsiCommand cmd) (terminals pdus) := by
  cases h with
  | oversized _ hover hgives =>
    cases hgives
    exact .answered (startsWrite_of_full (full_of_oversized hover) _) rfl
  | gathers hwrite hless hgives =>
    cases hgives
    exact .started (startsWrite_iff.2 ⟨hwrite, hless⟩) rfl
  | completes _ hall hfinishes =>
    rw [finishes_terminals hfinishes]
    exact .answered (startsWrite_of_full hall.ge _) hfinishes.keeps.inFlight_eq
  | @dataIn _ _ outcome hread _ hdata hgives =>
    have hone := terminals_dataInChunks c.counted cmd outcome.data 0 0
    rw [if_pos (List.length_pos_of_ne_nil hdata.2.2), hgives] at hone
    rw [hone]
    exact .answered (startsWrite_of_read hread _) (dataInChunks_keeps hgives).inFlight_eq
  | responds hread _ hgives =>
    cases hgives
    exact .answered (startsWrite_of_read hread _) rfl

private theorem feeds_books (h : Feeds tg w c bhs d pdus c' w') :
    Books c c' (.dataOut d) (terminals pdus) := by
  cases h with
  | unknown hnone hgives => cases hgives; exact .stray hnone rfl
  | outside hp _ hgives => cases hgives; exact .ended hp rfl
  | @more p hp _ _ hgives =>
    cases hgives
    exact .fed (q := (p.append d).nextR2t) hp rfl rfl
  | last hp _ _ hfinishes =>
    rw [finishes_terminals hfinishes]
    exact .ended hp hfinishes.keeps.inFlight_eq

theorem handle_books (hc : WellFormed c) (hstage : c.stage = .fullFeature)
    (h : c.handle tg w req bhs = .ok (pdus, c', w')) : Books c c' req (terminals pdus) := by
  cases handle_handles h with
  | login hlogin => cases hstage.symm.trans hlogin
  | misplaced hne => exact absurd hstage hne
  | command _ _ hcommands => exact commands_books hcommands
  | unbound _ htarget => exact absurd htarget (hc.bound hstage)
  | dataOut _ hfeeds => exact feeds_books hfeeds
  | nopOut _ hgives => cases hgives; exact .other nofun nofun rfl
  | text _ hgives => cases hgives; exact .other nofun nofun rfl
  | taskMgmt _ hgives => cases hgives; exact .other nofun nofun rfl
  | logout _ hgives => cases hgives; exact .other nofun nofun rfl
  | loginAgain _ hgives => cases hgives; exact .other nofun nofun rfl
  | unsupported _ hgives => cases hgives; exact .other nofun nofun rfl

theorem handle_inFlight (hstage : c.stage ≠ .fullFeature)
    (h : c.handle tg w req bhs = .ok (pdus, c', w')) : c'.inFlight = c.inFlight := by
  cases handle_handles h with
  | login hlogin hgives => exact (handleLogin_bound hlogin hgives).1
  | misplaced _ _ hgives => cases hgives; rfl
  | _ hfull _ => exact absurd hfull hstage

end Connection

private theorem entry_fullFeature (hstage : t.conn.stage = .fullFeature) :
    t.entry = match t.req with
      | .scsiCommand cmd => .request cmd.itt (terminals t.pdus)
      | .dataOut d => .followUp d.itt (terminals t.pdus)
      | _ => .other := if_pos hstage

private theorem entry_other (hcommand : ∀ cmd, t.req ≠ .scsiCommand cmd)
    (hdata : ∀ d, t.req ≠ .dataOut d) : t.entry = .other := by
  rw [Turn.entry]
  split
  · cases hreq : t.req with
    | scsiCommand cmd => exact absurd hreq (hcommand cmd)
    | dataOut d => exact absurd hreq (hdata d)
    | _ => rfl
  · rfl

private theorem entry_eq_request {itt : UInt32} {answers : ℕ} (h : t.entry = .request itt answers) :
    t.conn.stage = .fullFeature ∧
      ∃ cmd, t.req = .scsiCommand cmd ∧ cmd.itt = itt ∧ terminals t.pdus = answers := by
  by_cases hstage : t.conn.stage = .fullFeature
  · rw [entry_fullFeature hstage] at h
    cases hreq : t.req <;> rw [hreq] at h <;> cases h
    exact ⟨hstage, _, rfl, rfl, rfl⟩
  · rw [Turn.entry, if_neg hstage] at h
    cases h

def CommandOf (ts : List (Turn σ τ)) (n : ℕ) (p : PendingWrite) : Prop :=
  ∃ t, ts[n]? = some t ∧ t.req = .scsiCommand p.cmd

/-- The waiting commands of the ledger are those of the pending writes. -/
def Tracks (ts : List (Turn σ τ)) (c : Connection τ) : Prop :=
  ∀ itt, Option.Rel (CommandOf ts) ((commandLedger ts).waiting itt) (c.inFlight itt)

private theorem Tracks.waiting_eq_none_iff (h : Tracks ts c) (itt : UInt32) :
    (commandLedger ts).waiting itt = none ↔ c.inFlight itt = none := by
  have hrel := h itt
  generalize (commandLedger ts).waiting itt = wait at hrel
  generalize c.inFlight itt = pending at hrel
  cases hrel <;> simp

private theorem Tracks.waiting_of_pending {itt : UInt32} {p : PendingWrite} (h : Tracks ts c)
    (hp : c.inFlight itt = some p) :
    ∃ n, (commandLedger ts).waiting itt = some n ∧ CommandOf ts n p := by
  have hrel := h itt
  rw [hp] at hrel
  generalize (commandLedger ts).waiting itt = wait at hrel
  cases hrel with
  | some hcommand => exact ⟨_, rfl, hcommand⟩

private theorem commandLedger_concat (ts : List (Turn σ τ)) (t : Turn σ τ) :
    commandLedger (ts ++ [t]) = (commandLedger ts).post ts.length t.entry := by
  rw [commandLedger, List.map_append, List.map_singleton, ledgerOf_concat, List.length_map,
    commandLedger]

private theorem CommandOf.later {n : ℕ} {p : PendingWrite} (h : CommandOf ts n p) (t : Turn σ τ) :
    CommandOf (ts ++ [t]) n p := by
  obtain ⟨t', hn, hreq⟩ := h
  exact ⟨t', by rw [List.getElem?_append_left (List.getElem?_eq_some_iff.1 hn).1, hn], hreq⟩

private theorem rel_later {a : Option ℕ} {b : Option PendingWrite}
    (h : Option.Rel (CommandOf ts) a b) (t : Turn σ τ) : Option.Rel (CommandOf (ts ++ [t])) a b := by
  cases h with
  | none => exact .none
  | some h => exact .some (h.later t)

private theorem tracks_set {l : Ledger UInt32} {itt : UInt32} {a : Option ℕ} {b : Option PendingWrite}
    {inFlight : UInt32 → Option PendingWrite}
    (h : ∀ itt, Option.Rel (CommandOf ts) (l.waiting itt) (inFlight itt))
    (hset : Option.Rel (CommandOf (ts ++ [t])) a b) (itt' : UInt32) :
    Option.Rel (CommandOf (ts ++ [t])) ((l.setWaiting itt a).waiting itt')
      (Function.update inFlight itt b itt') := by
  by_cases htag : itt' = itt
  · rw [htag, Ledger.setWaiting_self, Function.update_self]
    exact hset
  · rw [Ledger.setWaiting_of_ne htag, Function.update_of_ne htag]
    exact rel_later (h itt') t

private theorem turn_tracks (h : Tracks ts t.conn) (hc : t.conn.WellFormed) (ht : t.Happens tg) :
    Tracks (ts ++ [t]) t.next := by
  rw [Tracks, commandLedger_concat]
  by_cases hstage : t.conn.stage = .fullFeature
  · have hbooks := Connection.handle_books hc hstage ht
    have hentry := entry_fullFeature hstage
    generalize hreq : t.req = req at hbooks hentry
    generalize hanswers : terminals t.pdus = answers at hbooks hentry
    cases hbooks with
    | answered _ hsame =>
      rw [hentry, hsame]
      exact fun itt => rel_later (h itt) t
    | @started cmd _ hset =>
      rw [hentry, hset]
      exact tracks_set h (.some ⟨t, List.getElem?_concat_length, hreq⟩)
    | @stray d hnone hsame =>
      have hfree := (h.waiting_eq_none_iff d.itt).2 hnone
      rw [hentry, hsame]
      dsimp only
      rw [Ledger.post, hfree]
      exact fun itt => rel_later (h itt) t
    | @fed d p q hp hcmd hset =>
      obtain ⟨n, hwait, hcommand⟩ := h.waiting_of_pending hp
      rw [hentry, hset]
      intro itt
      by_cases htag : itt = d.itt
      · obtain ⟨t', hn, hreq'⟩ := hcommand.later t
        rw [← hcmd] at hreq'
        rw [htag, Function.update_self, Ledger.post, hwait]
        exact .some ⟨t', hn, hreq'⟩
      · rw [Function.update_of_ne htag]
        exact rel_later (h itt) t
    | @ended d p hp hset =>
      obtain ⟨n, hwait, -⟩ := h.waiting_of_pending hp
      rw [hentry, hset]
      dsimp only
      rw [Ledger.post, hwait]
      exact tracks_set h .none
    | other hcommand hdata hsame =>
      rw [entry_other (by rwa [hreq]) (by rwa [hreq]), hsame]
      exact fun itt => rel_later (h itt) t
  · rw [Turn.entry, if_neg hstage, Connection.handle_inFlight hstage ht]
    exact fun itt => rel_later (h itt) t

theorem Conversation.tracks (h : Conversation tg ts c) : Tracks ts c := by
  induction h with
  | new => exact fun _ => .none
  | turn hbefore ht ih => exact turn_tracks ih hbefore.wellFormed ht

private theorem entry_answers_le (hc : t.conn.WellFormed) (ht : t.Happens tg) :
    t.entry.answers ≤ 1 := by
  by_cases hstage : t.conn.stage = .fullFeature
  · have hbooks := Connection.handle_books hc hstage ht
    have hentry := entry_fullFeature hstage
    generalize hreq : t.req = req at hbooks hentry
    generalize hanswers : terminals t.pdus = answers at hbooks hentry
    cases hbooks with
    | other hcommand hdata =>
      rw [entry_other (by rwa [hreq]) (by rwa [hreq])]
      exact Nat.zero_le 1
    | answered => rw [hentry]; exact Nat.le_refl 1
    | started => rw [hentry]; exact Nat.zero_le 1
    | stray => rw [hentry]; exact Nat.le_refl 1
    | fed => rw [hentry]; exact Nat.zero_le 1
    | ended => rw [hentry]; exact Nat.le_refl 1
  · rw [Turn.entry, if_neg hstage]
    exact Nat.zero_le 1

private theorem displaces_iff (h : Tracks ts t.conn) (hc : t.conn.WellFormed) (ht : t.Happens tg) :
    (commandLedger ts).Displaces t.entry ↔ t.Reuses := by
  have hwaiting := fun itt => (h.waiting_eq_none_iff itt).not
  constructor
  · rintro ⟨itt, hentry, hpending⟩
    obtain ⟨hstage, cmd, hreq, rfl, hzero⟩ := entry_eq_request hentry
    have hbooks := Connection.handle_books hc hstage ht
    rw [hreq, hzero] at hbooks
    cases hbooks with
    | started hstart => exact ⟨hstage, cmd, hreq, hreq ▸ hstart, (hwaiting _).1 hpending⟩
    | other hcommand => exact absurd rfl (hcommand cmd)
  · rintro ⟨hstage, cmd, hreq, hstart, hpending⟩
    refine ⟨cmd.itt, ?_, (hwaiting _).2 hpending⟩
    have hbooks := Connection.handle_books hc hstage ht
    rw [entry_fullFeature hstage, hreq]
    rw [hreq] at hbooks hstart
    generalize terminals t.pdus = answers at hbooks
    cases hbooks with
    | started => rfl
    | answered hno => rw [hstart] at hno; cases hno
    | other hcommand => exact absurd rfl (hcommand cmd)

private theorem nothingLost_iff_allSettled (h : Tracks ts c) :
    NothingLost ts c ↔ AllSettled (ts.map Turn.entry) := by
  constructor
  · intro hlost n itt answers hn
    rw [List.getElem?_map] at hn
    obtain ⟨t, ht, hentry⟩ := Option.map_eq_some_iff.1 hn
    obtain ⟨hstage, cmd, hreq, rfl, -⟩ := entry_eq_request hentry
    rcases hlost n t cmd ht hstage hreq with ⟨hcount, hwait, -⟩ | hanswered
    · exact .inl ⟨hcount, hwait⟩
    · exact .inr hanswered
  · intro hall n t cmd ht hstage hreq
    have hn : (ts.map Turn.entry)[n]? = some (.request cmd.itt (terminals t.pdus)) := by
      rw [List.getElem?_map, ht, Option.map_some, entry_fullFeature hstage, hreq]
    rcases hall n cmd.itt _ hn with ⟨hcount, hwait⟩ | hanswered
    · refine .inl ⟨hcount, hwait, ?_⟩
      have hrel := h cmd.itt
      rw [commandLedger, hwait] at hrel
      generalize c.inFlight cmd.itt = pending at hrel
      cases hrel with
      | @some _ p hcommand =>
        obtain ⟨t', ht', hreq'⟩ := hcommand
        cases ht.symm.trans ht'
        cases hreq.symm.trans hreq'
        exact ⟨p, rfl, rfl⟩
    · exact .inr hanswered

/-- In a run no command is lost if and only if no write starts under the tag of a pending
one. -/
theorem nothing_lost_iff (tg : Targets σ τ) (h : Conversation tg ts c) :
    NothingLost ts c ↔ ∀ t ∈ ts, ¬ t.Reuses := by
  have hone : ∀ e ∈ ts.map Turn.entry, e.answers ≤ 1 := by
    intro e he
    obtain ⟨t, ht, rfl⟩ := List.mem_map.1 he
    obtain ⟨before, after, rfl⟩ := List.append_of_mem ht
    obtain ⟨hbefore, hhappens⟩ := h.turn_at
    exact entry_answers_le hbefore.wellFormed hhappens
  rw [nothingLost_iff_allSettled h.tracks, allSettled_iff hone]
  constructor
  · intro hall t ht hreuses
    obtain ⟨before, after, rfl⟩ := List.append_of_mem ht
    obtain ⟨hbefore, hhappens⟩ := h.turn_at
    refine hall (before.map Turn.entry) t.entry (after.map Turn.entry) (by simp) ?_
    exact (displaces_iff hbefore.tracks hbefore.wellFormed hhappens).2 hreuses
  · intro hall before e after heq hdisplaces
    obtain ⟨ts₁, ts₂, rfl, rfl, hrest⟩ := List.map_eq_append_iff.1 heq
    obtain ⟨t, ts₃, rfl, rfl, -⟩ := List.map_eq_cons_iff.1 hrest
    obtain ⟨hbefore, hhappens⟩ := h.turn_at
    refine hall t (by simp) ?_
    exact (displaces_iff hbefore.tracks hbefore.wellFormed hhappens).1 hdisplaces

/-- A pending write is not lost. -/
theorem pending_write_not_lost : ∃ pdus, NothingLost (writeTurns oneBlockDisk pdus) afterCommand := by
  have hget : (World.targets id).get oneBlockDisk "a" = some 0 := by decide
  obtain ⟨pdus, hconversation⟩ := writeTurns_conversation hget
  refine ⟨pdus, (nothing_lost_iff (World.targets id) hconversation).2 fun t ht hreuses => ?_⟩
  obtain ⟨-, cmd, hreq, -, hpending⟩ := hreuses
  rcases List.mem_cons.1 ht with rfl | ht
  · cases hreq
  · rw [List.mem_singleton.1 ht] at hpending
    exact hpending rfl

/-- The next command of the initiator, under the same tag. -/
def secondWrite : ScsiCommand := { writeOneBlock with cmdSn := 6 }

/-- A second write under the tag of a pending one discards it. -/
theorem second_write_discards_first :
    ¬ ∀ (ts : List (Turn World ℕ)) c, Conversation (World.targets id) ts c → NothingLost ts c := by
  intro hall
  have hget : (World.targets id).get oneBlockDisk "a" = some 0 := by decide
  obtain ⟨pdus, hconversation⟩ := writeTurns_conversation hget
  have hthird : (writeTurn oneBlockDisk afterCommand secondWrite).Happens (World.targets id) := rfl
  have hlost := hall _ _ (hconversation.turn hthird) 1 _ writeOneBlock rfl rfl rfl
  rcases hlost with ⟨-, hwaiting, -⟩ | ⟨hanswered, -⟩
  · cases hwaiting
  · cases hanswered

end XBoot.Iscsi
