import XBoot.SessionSteps

/-!
# Conversations

A conversation is a run of a connection from its start, turn by turn: a request, the PDUs
that answer it, and the connection before and after. What the connections share may
change in any way between two turns. A conversation keeps a connection well formed: in
FullFeature a target is bound, and every pending write is stored under its own tag, has a
buffer of EDTL bytes and misses some of them.
-/

namespace XBoot.Iscsi

open ListSlices Storage

variable {σ τ : Type}

/-- One request and its answer. -/
structure Turn (σ τ : Type) where
  conn : Connection τ
  before : σ
  req : Request
  bhs : List UInt8
  pdus : List Outbound
  next : Connection τ
  after : σ

def Turn.Happens (tg : Targets σ τ) (t : Turn σ τ) : Prop :=
  t.conn.handle tg t.before t.req t.bhs = .ok (t.pdus, t.next, t.after)

/-- The turns of a run from the start, and the connection after them. -/
inductive Conversation (tg : Targets σ τ) : List (Turn σ τ) → Connection τ → Prop
  | new : Conversation tg [] .new
  | turn {ts : List (Turn σ τ)} {t : Turn σ τ} (h : Conversation tg ts t.conn)
      (hturn : t.Happens tg) : Conversation tg (ts ++ [t]) t.next

def sent (ts : List (Turn σ τ)) : List Outbound := ts.flatMap (·.pdus)

variable {tg : Targets σ τ} {ts : List (Turn σ τ)} {t : Turn σ τ} {c c' : Connection τ}

@[simp] theorem sent_nil : sent ([] : List (Turn σ τ)) = [] := rfl

@[simp] theorem sent_concat (ts : List (Turn σ τ)) (t : Turn σ τ) :
    sent (ts ++ [t]) = sent ts ++ t.pdus := by
  simp [sent]

/-- What holds at the start and is kept by every turn holds in every conversation. -/
theorem Conversation.invariant {inv : Connection τ → Prop} (h : Conversation tg ts c)
    (hnew : inv .new) (hturn : ∀ t : Turn σ τ, inv t.conn → t.Happens tg → inv t.next) : inv c := by
  induction h with
  | new => exact hnew
  | turn _ ht ih => exact hturn _ ih ht

theorem Conversation.happens (h : Conversation tg ts c) : ∀ t ∈ ts, t.Happens tg := by
  induction h with
  | new => exact fun t hmem => absurd hmem List.not_mem_nil
  | @turn ts t _ ht ih =>
    intro t' hmem
    rcases List.mem_append.1 hmem with hmem | hmem
    · exact ih t' hmem
    · exact List.mem_singleton.1 hmem ▸ ht

theorem Conversation.eq_new (h : Conversation tg [] c) : c = .new := by
  generalize hts : [] = ts at h
  cases h with
  | new => rfl
  | turn => simp at hts

theorem Conversation.turn_at {before after : List (Turn σ τ)}
    (h : Conversation tg (before ++ t :: after) c) : Conversation tg before t.conn ∧ t.Happens tg := by
  generalize hts : before ++ t :: after = ts at h
  induction h generalizing after with
  | new => simp at hts
  | @turn ts t' hbefore ht ih =>
    rcases List.eq_nil_or_concat after with rfl | ⟨after, t'', rfl⟩
    · obtain ⟨rfl, hsame⟩ := List.append_inj' hts rfl
      cases hsame
      exact ⟨hbefore, ht⟩
    · rw [List.concat_eq_append, ← List.cons_append, ← List.append_assoc] at hts
      exact ih (List.append_inj' hts rfl).1

namespace Connection

/-- A pending write belongs under its tag, has a buffer of EDTL bytes, and is incomplete. -/
structure PendingUnder (itt : UInt32) (p : PendingWrite) : Prop where
  itt_eq : p.cmd.itt = itt
  length_eq : p.buf.length = p.cmd.edtl.toNat
  incomplete : p.received < p.cmd.edtl

structure WellFormed (c : Connection τ) : Prop where
  bound : c.stage = .fullFeature → c.target ≠ none
  pending : ∀ itt p, c.inFlight itt = some p → PendingUnder itt p

theorem wellFormed_new : WellFormed (new : Connection τ) := ⟨nofun, nofun⟩

theorem Keeps.wellFormed (h : Keeps c c') (hc : WellFormed c) : WellFormed c' := by
  constructor
  · rw [h.stage_eq, h.target_eq]
    exact hc.bound
  · rw [h.inFlight_eq]
    exact hc.pending

theorem WellFormed.setInFlight {itt : UInt32} {q : Option PendingWrite} (hc : WellFormed c)
    (hq : ∀ p, q = some p → PendingUnder itt p) : WellFormed (c.setInFlight itt q) := by
  refine ⟨hc.bound, fun itt' p hp => ?_⟩
  rw [setInFlight_inFlight] at hp
  by_cases htag : itt' = itt
  · rw [htag, Function.update_self] at hp
    rw [htag]
    exact hq p hp
  · rw [Function.update_of_ne htag] at hp
    exact hc.pending itt' p hp

theorem start_pendingUnder {cmd : ScsiCommand} (h : cmd.data.length < cmd.edtl.toNat) :
    PendingUnder cmd.itt (.start cmd) := by
  refine ⟨rfl, length_start h.le, ?_⟩
  rw [PendingWrite.start, UInt32.lt_iff_toNat_lt, toNat_ofNat_of_le h.le]
  exact h

theorem append_pendingUnder {p : PendingWrite} {d : ScsiDataOut} (h : PendingUnder d.itt p)
    (hin : d.bufferOffset.toNat + d.data.length ≤ p.buf.length)
    (hmore : (p.append d).received < p.cmd.edtl) : PendingUnder d.itt (p.append d).nextR2t :=
  ⟨h.itt_eq, (length_overwrite hin).trans h.length_eq, hmore⟩

variable {w w' : σ} {pdus : List Outbound} {bhs : List UInt8}

theorem Commands.wellFormed {cmd : ScsiCommand} (hc : WellFormed c)
    (h : Commands tg w c bhs cmd pdus c' w') : WellFormed c' := by
  cases h with
  | oversized _ _ hgives => cases hgives; exact ⟨hc.bound, hc.pending⟩
  | gathers _ hless hgives =>
    cases hgives
    exact hc.setInFlight fun p hp => Option.some.inj hp ▸ start_pendingUnder hless
  | completes _ _ hfinishes => exact hfinishes.keeps.wellFormed hc
  | dataIn _ _ _ hgives => exact (dataInChunks_keeps hgives).wellFormed hc
  | responds _ _ hgives => cases hgives; exact ⟨hc.bound, hc.pending⟩

theorem Feeds.wellFormed {d : ScsiDataOut} (hc : WellFormed c)
    (h : Feeds tg w c bhs d pdus c' w') : WellFormed c' := by
  cases h with
  | unknown _ hgives => cases hgives; exact ⟨hc.bound, hc.pending⟩
  | outside _ _ hgives =>
    cases hgives
    have hdropped : WellFormed (c.setInFlight d.itt none) := hc.setInFlight nofun
    exact ⟨hdropped.bound, hdropped.pending⟩
  | more hp hin hmore hgives =>
    cases hgives
    exact hc.setInFlight fun q hq =>
      Option.some.inj hq ▸ append_pendingUnder (hc.pending _ _ hp) hin hmore
  | last _ _ _ hfinishes =>
    have hdropped : WellFormed (c.setInFlight d.itt none) := hc.setInFlight nofun
    exact hfinishes.keeps.wellFormed hdropped

/-- Handling a request keeps the connection well formed. -/
theorem handle_wellFormed {req : Request} (hc : WellFormed c)
    (h : c.handle tg w req bhs = .ok (pdus, c', w')) : WellFormed c' := by
  cases handle_handles h with
  | login hstage hgives =>
    obtain ⟨hsame, hbound⟩ := handleLogin_bound hstage hgives
    exact ⟨hbound, hsame ▸ hc.pending⟩
  | misplaced _ _ hgives => cases hgives; exact ⟨nofun, hc.pending⟩
  | command _ _ hcommands =>
    have hcounted : WellFormed c.counted := ⟨hc.bound, hc.pending⟩
    exact hcommands.wellFormed hcounted
  | dataOut _ hfeeds => exact hfeeds.wellFormed hc
  | logout _ hgives => cases hgives; exact ⟨nofun, hc.pending⟩
  | unbound _ _ hgives => cases hgives; exact ⟨hc.bound, hc.pending⟩
  | nopOut _ hgives => cases hgives; exact ⟨hc.bound, hc.pending⟩
  | text _ hgives => cases hgives; exact ⟨hc.bound, hc.pending⟩
  | taskMgmt _ hgives => cases hgives; exact ⟨hc.bound, hc.pending⟩
  | loginAgain _ hgives => cases hgives; exact ⟨hc.bound, hc.pending⟩
  | unsupported _ hgives => cases hgives; exact ⟨hc.bound, hc.pending⟩

end Connection

theorem Conversation.wellFormed (h : Conversation tg ts c) : c.WellFormed :=
  h.invariant Connection.wellFormed_new fun _ hc hturn =>
    Connection.handle_wellFormed hc hturn

end XBoot.Iscsi
