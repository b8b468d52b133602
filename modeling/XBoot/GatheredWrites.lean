import XBoot.TargetRegistry
import XBoot.SessionSteps
import Mathlib.Data.Finset.Card
import Mathlib.Order.Interval.Finset.Nat

/-!
# A gathered write holds the bytes that were delivered

The data of a write arrives in pieces that the initiator places, and a counter of bytes
decides when all of it is there. As long as every accepted piece covers only positions
that nothing was delivered for yet, the counter is the number of covered positions, and
the buffer that is executed holds what was delivered last for every position.
-/

namespace XBoot.Iscsi

open ListSlices Storage

variable {σ τ : Type}

/-- The bytes delivered for a write under the tag `itt`, after one more request. -/
def deliver (itt : UInt32) (delivered : ℕ → Option UInt8) : Request → ℕ → Option UInt8
  | .dataOut d, i =>
    if d.itt = itt ∧ d.bufferOffset.toNat ≤ i ∧ i < d.bufferOffset.toNat + d.data.length then
      d.data[i - d.bufferOffset.toNat]?
    else delivered i
  | _, i => delivered i

/-- The last value delivered for each position of a write, by its immediate data or by one
of the requests since. -/
def lastDelivered (cmd : ScsiCommand) (since : List Request) : ℕ → Option UInt8 :=
  since.foldl (deliver cmd.itt) fun i => cmd.data[i]?

/-- The request starts the gathering of a write under the tag `itt`. -/
def Request.startsWrite (itt : UInt32) : Request → Bool
  | .scsiCommand cmd => cmd.write && cmd.itt == itt && decide (cmd.data.length < cmd.edtl.toNat)
  | _ => false

/-- The latest request of `hist` that starts a write under the tag of `cmd` is `cmd` itself, and
`since` came after it. -/
structure LatestStart (hist : List Request) (cmd : ScsiCommand) (since : List Request) : Prop where
  history : ∃ before, hist = before ++ .scsiCommand cmd :: since
  none_since : ∀ r ∈ since, r.startsWrite cmd.itt = false

/-- The buffer has EDTL bytes, each the last one delivered for its position. -/
structure Delivered (hist : List Request) (cmd : ScsiCommand) (buf : List UInt8) : Prop where
  length_eq : buf.length = cmd.edtl.toNat
  from_history : ∃ since, LatestStart hist cmd since ∧ ∀ i < cmd.edtl.toNat,
    ∃ v, lastDelivered cmd since i = some v ∧ buf[i]? = some v

/-- The targets with a record of the commands executed and the data passed. -/
def recording (tg : Targets σ τ) : Targets (σ × List (ScsiCommand × List UInt8)) τ where
  get w := tg.get w.1
  iqns w := tg.iqns w.1
  execute target cmd data w := match tg.execute target cmd data w.1 with
    | .error e => .error e
    | .ok (outcome, w') => .ok (outcome, w', w.2 ++ [(cmd, data)])

/-- The connections reached after a history of requests that all meet a condition. The
shared state at each request is arbitrary. -/
inductive Reached (tg : Targets σ τ) (cond : List Request → Connection τ → Request → Prop) :
    List Request → Connection τ → Prop
  | new : Reached tg cond [] .new
  | step {hist : List Request} {c c' : Connection τ} {req : Request} {bhs : List UInt8} {w w' : σ}
      {pdus : List Outbound} (hreached : Reached tg cond hist c) (hcond : cond hist c req)
      (hhandle : c.handle tg w req bhs = .ok (pdus, c', w')) : Reached tg cond (hist ++ [req]) c'

/-- A Data-Out that the connection accepts for a pending write covers only positions that
nothing was delivered for yet. -/
def FreshDataOut (hist : List Request) (c : Connection τ) (req : Request) : Prop :=
  ∀ d p since, req = .dataOut d → c.inFlight d.itt = some p →
    d.bufferOffset.toNat + d.data.length ≤ p.buf.length → LatestStart hist p.cmd since →
      ∀ i, d.bufferOffset.toNat ≤ i → i < d.bufferOffset.toNat + d.data.length →
        lastDelivered p.cmd since i = none

/-- In every run whose requests meet the condition, every write that is executed carries
what was delivered for it. -/
def WritesCarryDelivered (tg : Targets σ τ)
    (cond : List Request → Connection τ → Request → Prop) : Prop :=
  ∀ hist c req bhs w pdus c' w' executed, Reached (recording tg) cond hist c → cond hist c req →
    c.handle (recording tg) (w, []) req bhs = .ok (pdus, c', w', executed) →
      ∀ e ∈ executed, e.1.write = true → Delivered (hist ++ [req]) e.1 e.2

/-- The pending write `p` holds the bytes delivered, and counts them. -/
structure Gathers (p : PendingWrite) (delivered : ℕ → Option UInt8) : Prop where
  length_eq : p.buf.length = p.cmd.edtl.toNat
  inside {i : ℕ} : delivered i ≠ none → i < p.cmd.edtl.toNat
  buf_eq {i : ℕ} {v : UInt8} : delivered i = some v → p.buf[i]? = some v
  received_eq : p.received.toNat =
    ((Finset.range p.cmd.edtl.toNat).filter fun i => delivered i ≠ none).card

variable {p : PendingWrite} {delivered : ℕ → Option UInt8} {cmd : ScsiCommand} {d : ScsiDataOut}

private theorem start_gathers (h : cmd.data.length ≤ cmd.edtl.toNat) :
    Gathers (.start cmd) fun i => cmd.data[i]? := by
  have hsome : ∀ i, cmd.data[i]? ≠ none ↔ i < cmd.data.length := fun i => by
    rw [ne_eq, List.getElem?_eq_none_iff, Nat.not_le]
  refine ⟨length_start h, fun hi => Nat.lt_of_lt_of_le ((hsome _).1 hi) h, fun {i v} hv => ?_, ?_⟩
  · have hlt : i < cmd.data.length := (List.getElem?_eq_some_iff.1 hv).1
    rw [PendingWrite.start, getElem?_overwrite (by simpa using h), if_pos (by omega), Nat.sub_zero, hv]
  · have hcovered : (Finset.range cmd.edtl.toNat).filter (fun i => cmd.data[i]? ≠ none) =
        Finset.range cmd.data.length := by
      ext i
      rw [Finset.mem_filter, Finset.mem_range, Finset.mem_range, hsome]
      omega
    rw [PendingWrite.start]
    dsimp only
    rw [hcovered, Finset.card_range]
    exact toNat_ofNat_of_le h

private theorem deliver_dataOut (d : ScsiDataOut) (delivered : ℕ → Option UInt8) (i : ℕ) :
    deliver d.itt delivered (.dataOut d) i =
      if d.bufferOffset.toNat ≤ i ∧ i < d.bufferOffset.toNat + d.data.length then
        d.data[i - d.bufferOffset.toNat]?
      else delivered i := by
  simp only [deliver, true_and]

private theorem deliver_dataOut_ne_none {i : ℕ} :
    deliver d.itt delivered (.dataOut d) i ≠ none ↔
      i ∈ Finset.Ico d.bufferOffset.toNat (d.bufferOffset.toNat + d.data.length) ∨
        delivered i ≠ none := by
  rw [deliver_dataOut, Finset.mem_Ico]
  split
  · have hlt : i - d.bufferOffset.toNat < d.data.length := by omega
    simp [*]
  · simp [*]

private theorem card_delivered {n : ℕ} (hin : d.bufferOffset.toNat + d.data.length ≤ n)
    (hfresh : ∀ i, d.bufferOffset.toNat ≤ i → i < d.bufferOffset.toNat + d.data.length →
      delivered i = none) :
    ((Finset.range n).filter fun i => deliver d.itt delivered (.dataOut d) i ≠ none).card =
      ((Finset.range n).filter fun i => delivered i ≠ none).card + d.data.length := by
  let covered : Finset ℕ := Finset.Ico d.bufferOffset.toNat (d.bufferOffset.toNat + d.data.length)
  let before : Finset ℕ := (Finset.range n).filter fun i => delivered i ≠ none
  have hdisjoint : Disjoint before covered := by
    rw [Finset.disjoint_left]
    intro i hi hcovered
    obtain ⟨hlow, hhigh⟩ := Finset.mem_Ico.1 hcovered
    exact (Finset.mem_filter.1 hi).2 (hfresh i hlow hhigh)
  have hafter : (Finset.range n).filter
      (fun i => deliver d.itt delivered (.dataOut d) i ≠ none) = before ∪ covered := by
    ext i
    rw [Finset.mem_filter, deliver_dataOut_ne_none, Finset.mem_union, Finset.mem_filter,
      Finset.mem_range]
    constructor
    · rintro ⟨hi, hcovered | hsome⟩
      · exact .inr hcovered
      · exact .inl ⟨hi, hsome⟩
    · rintro (⟨hi, hsome⟩ | hcovered)
      · exact ⟨hi, .inr hsome⟩
      · exact ⟨Nat.lt_of_lt_of_le (Finset.mem_Ico.1 hcovered).2 hin, .inl hcovered⟩
  rw [hafter, Finset.card_union_of_disjoint hdisjoint, Nat.card_Ico, Nat.add_sub_cancel_left]

private theorem append_gathers (h : Gathers p delivered)
    (hin : d.bufferOffset.toNat + d.data.length ≤ p.buf.length)
    (hfresh : ∀ i, d.bufferOffset.toNat ≤ i → i < d.bufferOffset.toNat + d.data.length →
      delivered i = none) :
    Gathers (p.append d) (deliver d.itt delivered (.dataOut d)) := by
  have hlen := h.length_eq
  have hcard := card_delivered (hlen ▸ hin) hfresh
  have hsum : p.received.toNat + d.data.length < 2 ^ 32 := by
    have hle := Finset.card_filter_le (Finset.range p.cmd.edtl.toNat)
      fun i => deliver d.itt delivered (.dataOut d) i ≠ none
    have hlt := p.cmd.edtl.toNat_lt
    rw [hcard, ← h.received_eq, Finset.card_range] at hle
    omega
  refine ⟨?_, fun {i} hi => ?_, fun {i v} hv => ?_, ?_⟩
  · rw [PendingWrite.append, length_overwrite hin]
    exact hlen
  · rcases deliver_dataOut_ne_none.1 hi with hcovered | hi
    · exact Nat.lt_of_lt_of_le (Finset.mem_Ico.1 hcovered).2 (hlen ▸ hin)
    · exact h.inside hi
  · rw [deliver_dataOut] at hv
    rw [PendingWrite.append, getElem?_overwrite hin]
    split at hv
    · rwa [if_pos (by assumption)]
    · rw [if_neg (by assumption)]
      exact h.buf_eq hv
  · rw [PendingWrite.append]
    dsimp only
    rw [hcard, ← h.received_eq, UInt32.toNat_add, UInt32.toNat_ofNat', Nat.add_mod_mod,
      Nat.mod_eq_of_lt hsum]

private theorem gathers_complete (h : Gathers p delivered) (hall : p.cmd.edtl.toNat ≤ p.received.toNat)
    {i : ℕ} (hi : i < p.cmd.edtl.toNat) : ∃ v, delivered i = some v ∧ p.buf[i]? = some v := by
  have hcard : ((Finset.range p.cmd.edtl.toNat).filter fun i => delivered i ≠ none).card =
      (Finset.range p.cmd.edtl.toNat).card := by
    apply Nat.le_antisymm (Finset.card_filter_le _ _)
    rw [← h.received_eq, Finset.card_range]
    exact hall
  have hsome := Finset.card_filter_eq_iff.1 hcard i (Finset.mem_range.2 hi)
  obtain ⟨v, hv⟩ := Option.ne_none_iff_exists'.1 hsome
  exact ⟨v, hv, h.buf_eq hv⟩

/-- The write `p` is pending under `itt`, and holds what was delivered since it started. -/
structure Pending (hist : List Request) (itt : UInt32) (p : PendingWrite) : Prop where
  itt_eq : p.cmd.itt = itt
  write_eq : p.cmd.write = true
  gathers : ∃ since, LatestStart hist p.cmd since ∧ Gathers p (lastDelivered p.cmd since)

/-- What holds of a connection after a history of requests. -/
structure Follows (hist : List Request) (c : Connection τ) : Prop where
  bound : c.stage = .fullFeature → c.target ≠ none
  idle : c.stage = .login → ∀ itt, c.inFlight itt = none
  pending : c.stage = .fullFeature → ∀ itt p, c.inFlight itt = some p → Pending hist itt p

variable {hist : List Request} {itt : UInt32} {req : Request} {since : List Request}

private theorem LatestStart.later (h : LatestStart hist cmd since)
    (hstart : req.startsWrite cmd.itt = false) :
    LatestStart (hist ++ [req]) cmd (since ++ [req]) := by
  obtain ⟨before, hbefore⟩ := h.history
  refine ⟨⟨before, by rw [hbefore, List.append_assoc, List.cons_append]⟩, fun r hr => ?_⟩
  rcases List.mem_append.1 hr with hr | hr
  · exact h.none_since r hr
  · rw [List.mem_singleton.1 hr]
    exact hstart

private theorem lastDelivered_later (cmd : ScsiCommand) (since : List Request) (req : Request) :
    lastDelivered cmd (since ++ [req]) = deliver cmd.itt (lastDelivered cmd since) req :=
  List.foldl_concat ..

private theorem deliver_other (h : ∀ d, req = .dataOut d → d.itt ≠ itt) :
    deliver itt delivered req = delivered := by
  funext i
  cases req with
  | dataOut d => simp [deliver, h d rfl]
  | _ => rfl

private theorem Pending.keep (h : Pending hist itt p) (hstart : req.startsWrite itt = false)
    (hdata : ∀ d, req = .dataOut d → d.itt ≠ itt) : Pending (hist ++ [req]) itt p := by
  obtain ⟨since, hlatest, hgathers⟩ := h.gathers
  rw [← h.itt_eq] at hstart hdata
  refine ⟨h.itt_eq, h.write_eq, since ++ [req], hlatest.later hstart, ?_⟩
  rw [lastDelivered_later, deliver_other hdata]
  exact hgathers

private theorem start_pending (hwrite : cmd.write = true) (h : cmd.data.length ≤ cmd.edtl.toNat) :
    Pending (hist ++ [.scsiCommand cmd]) cmd.itt (.start cmd) :=
  ⟨rfl, hwrite, [], ⟨⟨hist, rfl⟩, nofun⟩, start_gathers h⟩

private theorem append_pending (h : Pending hist d.itt p)
    (hin : d.bufferOffset.toNat + d.data.length ≤ p.buf.length)
    (hfresh : ∀ since, LatestStart hist p.cmd since →
      ∀ i, d.bufferOffset.toNat ≤ i → i < d.bufferOffset.toNat + d.data.length →
        lastDelivered p.cmd since i = none) :
    Pending (hist ++ [.dataOut d]) d.itt (p.append d) := by
  obtain ⟨since, hlatest, hgathers⟩ := h.gathers
  refine ⟨h.itt_eq, h.write_eq, since ++ [.dataOut d], hlatest.later rfl, ?_⟩
  have hafter := append_gathers hgathers hin (hfresh since hlatest)
  rw [← h.itt_eq] at hafter
  rwa [← lastDelivered_later] at hafter

private theorem Pending.carries (h : Pending hist itt p)
    (hall : p.cmd.edtl.toNat ≤ p.received.toNat) : Delivered hist p.cmd p.buf := by
  obtain ⟨since, hlatest, hgathers⟩ := h.gathers
  exact ⟨hgathers.length_eq, since, hlatest, fun i hi => gathers_complete hgathers hall hi⟩

variable {tg : Targets σ τ} {c c' : Connection τ} {bhs : List UInt8} {pdus : List Outbound}
  {w w' : σ} {rec rec' : List (ScsiCommand × List UInt8)}

private theorem follows_of_keeps (h : Follows hist c) (hkeeps : Connection.Keeps c c')
    (hstart : ∀ itt, req.startsWrite itt = false)
    (hdata : ∀ d p, req = .dataOut d → c.inFlight d.itt ≠ some p) :
    Follows (hist ++ [req]) c' := by
  refine ⟨?_, ?_, ?_⟩
  · rw [hkeeps.stage_eq, hkeeps.target_eq]
    exact h.bound
  · rw [hkeeps.stage_eq, hkeeps.inFlight_eq]
    exact h.idle
  · rw [hkeeps.stage_eq, hkeeps.inFlight_eq]
    intro hstage itt p hp
    refine (h.pending hstage itt p hp).keep (hstart itt) fun d hd hitt => ?_
    exact hdata d p hd (hitt ▸ hp)

private theorem follows_closing (hclosing : c.stage = .closing) : Follows hist c := by
  refine ⟨?_, ?_, ?_⟩ <;>
    · rw [hclosing]
      exact nofun

private theorem follows_of_set {q : Option PendingWrite} (h : Follows hist c)
    (hstage : c.stage = .fullFeature) (hkeeps : Connection.Keeps (c.setInFlight itt q) c')
    (hq : ∀ p, q = some p → Pending (hist ++ [req]) itt p)
    (hstart : ∀ itt', itt' ≠ itt → req.startsWrite itt' = false)
    (hdata : ∀ itt' d, itt' ≠ itt → req = .dataOut d → d.itt ≠ itt') :
    Follows (hist ++ [req]) c' := by
  have hstage' : c'.stage = .fullFeature := hkeeps.stage_eq.trans hstage
  refine ⟨fun _ => ?_, fun hlogin => ?_, fun _ itt' p hp => ?_⟩
  · rw [hkeeps.target_eq]
    exact h.bound hstage
  · rw [hstage'] at hlogin
    cases hlogin
  · rw [hkeeps.inFlight_eq, Connection.setInFlight_inFlight] at hp
    by_cases htag : itt' = itt
    · rw [htag, Function.update_self] at hp
      rw [htag]
      exact hq p hp
    · rw [Function.update_of_ne htag] at hp
      exact (h.pending hstage itt' p hp).keep (hstart itt' htag) fun d => hdata itt' d htag

private theorem startsWrite_of_ne (h : itt ≠ cmd.itt) :
    (Request.scsiCommand cmd).startsWrite itt = false := by
  simp [Request.startsWrite, h.symm]

theorem startsWrite_of_read (h : cmd.write = false) (itt : UInt32) :
    (Request.scsiCommand cmd).startsWrite itt = false := by
  simp [Request.startsWrite, h]

theorem startsWrite_of_full (h : cmd.edtl.toNat ≤ cmd.data.length) (itt : UInt32) :
    (Request.scsiCommand cmd).startsWrite itt = false := by
  simp [Request.startsWrite, Nat.not_lt.2 h]

theorem full_of_oversized (h : cmd.edtl < UInt32.ofNat cmd.data.length) :
    cmd.edtl.toNat ≤ cmd.data.length := by
  have hlt := UInt32.lt_iff_toNat_lt.1 h
  have hmod : (UInt32.ofNat cmd.data.length).toNat ≤ cmd.data.length := by
    rw [UInt32.toNat_ofNat']
    exact Nat.mod_le _ _
  omega

private theorem commands_follow (h : Follows hist c) (hstage : c.stage = .fullFeature)
    (hcommands : Connection.Commands tg w c.counted bhs cmd pdus c' w') :
    Follows (hist ++ [.scsiCommand cmd]) c' := by
  have hcounted : Follows hist c.counted := ⟨h.bound, h.idle, h.pending⟩
  have hnodata : ∀ d p, Request.scsiCommand cmd = .dataOut d → c.counted.inFlight d.itt ≠ some p :=
    nofun
  cases hcommands with
  | oversized hwrite hover hgives =>
    cases hgives
    exact follows_of_keeps hcounted ⟨rfl, rfl, rfl, rfl⟩
      (startsWrite_of_full (full_of_oversized hover)) hnodata
  | gathers hwrite hless hgives =>
    cases hgives
    refine follows_of_set hcounted hstage ⟨rfl, rfl, rfl, rfl⟩ (fun p hp => ?_)
      (fun itt' hne => startsWrite_of_ne hne) nofun
    cases hp
    exact start_pending hwrite hless.le
  | completes hwrite hall hfinishes =>
    exact follows_of_keeps hcounted hfinishes.keeps (startsWrite_of_full hall.ge) hnodata
  | dataIn hread _ _ hgives =>
    exact follows_of_keeps hcounted (Connection.dataInChunks_keeps hgives)
      (startsWrite_of_read hread) hnodata
  | responds hread _ hgives =>
    cases hgives
    exact follows_of_keeps hcounted ⟨rfl, rfl, rfl, rfl⟩ (startsWrite_of_read hread) hnodata

private theorem feeds_follow (h : Follows hist c) (hstage : c.stage = .fullFeature)
    (hfresh : FreshDataOut hist c (.dataOut d))
    (hfeeds : Connection.Feeds tg w c bhs d pdus c' w') : Follows (hist ++ [.dataOut d]) c' := by
  have hother : ∀ itt' d', itt' ≠ d.itt → Request.dataOut d = .dataOut d' → d'.itt ≠ itt' := by
    intro itt' d' hne heq
    cases heq
    exact hne.symm
  cases hfeeds with
  | unknown hnone hgives =>
    cases hgives
    refine follows_of_keeps h ⟨rfl, rfl, rfl, rfl⟩ (fun _ => rfl) fun d' p heq => ?_
    cases heq
    rw [hnone]
    exact nofun
  | outside _ _ hgives =>
    cases hgives
    exact follows_of_set h hstage ⟨rfl, rfl, rfl, rfl⟩ nofun (fun _ _ => rfl) hother
  | more hp hin _ hgives =>
    cases hgives
    refine follows_of_set h hstage ⟨rfl, rfl, rfl, rfl⟩ (fun p' hp' => ?_) (fun _ _ => rfl) hother
    have hpending := append_pending (h.pending hstage _ _ hp) hin
      fun since => hfresh d _ since rfl hp hin
    obtain ⟨since, hlatest, hgathers⟩ := hpending.gathers
    cases hp'
    exact ⟨hpending.itt_eq, hpending.write_eq, since, hlatest,
      ⟨hgathers.length_eq, hgathers.inside, hgathers.buf_eq, hgathers.received_eq⟩⟩
  | last _ _ _ hfinishes =>
    exact follows_of_set h hstage hfinishes.keeps nofun (fun _ _ => rfl) hother

private theorem handle_follows (h : Follows hist c) (hfresh : FreshDataOut hist c req)
    (hhandle : c.handle tg w req bhs = .ok (pdus, c', w')) : Follows (hist ++ [req]) c' := by
  cases Connection.handle_handles hhandle with
  | login hstage hgives =>
    obtain ⟨hsame, hbound⟩ := Connection.handleLogin_bound hstage hgives
    have hidle : ∀ itt, c'.inFlight itt = none := fun itt => hsame ▸ h.idle hstage itt
    refine ⟨hbound, fun _ => hidle, fun _ itt p hp => ?_⟩
    rw [hidle] at hp
    cases hp
  | misplaced _ _ hgives => cases hgives; exact follows_closing rfl
  | command hstage _ hcommands => exact commands_follow h hstage hcommands
  | unbound hstage htarget => exact absurd htarget (h.bound hstage)
  | dataOut hstage hfeeds => exact feeds_follow h hstage hfresh hfeeds
  | logout _ hgives => cases hgives; exact follows_closing rfl
  | _ hstage _ =>
    refine follows_of_keeps h (Connection.handle_keeps hstage ?_ ?_ ?_ hhandle) (fun _ => rfl)
      (fun _ _ => nofun) <;>
      exact fun _ => nofun

private theorem reached_follows (h : Reached tg FreshDataOut hist c) : Follows hist c := by
  induction h with
  | new => exact ⟨nofun, fun _ _ => rfl, nofun⟩
  | step _ hfresh hhandle ih => exact handle_follows ih hfresh hhandle

private theorem recording_executes {target : τ} {cmd : ScsiCommand} {data : List UInt8}
    {outcome : ScsiOutcome} {r r' : σ × List (ScsiCommand × List UInt8)}
    (h : (recording tg).execute target cmd data r = .ok (outcome, r')) :
    r'.2 = r.2 ++ [(cmd, data)] := by
  simp only [recording] at h
  split at h
  · cases h
  · cases h
    rfl

/-- To finish a write is to execute it once. -/
theorem finishes_recorded {r r' : σ × List (ScsiCommand × List UInt8)}
    (h : Connection.Finishes (recording tg) r c p pdus c' r') :
    r'.2 = r.2 ++ [(p.cmd, p.buf)] := by
  obtain ⟨target, outcome, -, hexecute, -⟩ := h.executed
  exact recording_executes hexecute

variable {s s' : σ} {executed : List (ScsiCommand × List UInt8)} {e : ScsiCommand × List UInt8}

private theorem finishes_executes (h : Connection.Finishes (recording tg) (s, []) c p pdus c' (s', executed))
    (he : e ∈ executed) : e = (p.cmd, p.buf) := by
  obtain rfl : executed = [(p.cmd, p.buf)] := finishes_recorded h
  exact List.mem_singleton.1 he

private theorem commands_execute
    (h : Connection.Commands (recording tg) (s, []) c bhs cmd pdus c' (s', executed))
    (he : e ∈ executed) (hwrite : e.1.write = true) :
    Delivered (hist ++ [.scsiCommand cmd]) e.1 e.2 := by
  cases h with
  | oversized => cases he
  | gathers => cases he
  | completes hw hall hfinishes =>
    rw [finishes_executes hfinishes he]
    refine (start_pending hw hall.le).carries ?_
    have hreceived : (PendingWrite.start cmd).received = UInt32.ofNat cmd.edtl.toNat :=
      congrArg UInt32.ofNat hall
    rw [hreceived, UInt32.ofNat_toNat]
    exact Nat.le_refl _
  | dataIn hread hexecute =>
    obtain rfl : executed = [(cmd, cmd.data)] := recording_executes hexecute
    rw [List.mem_singleton.1 he, hread] at hwrite
    cases hwrite
  | responds hread hexecute =>
    obtain rfl : executed = [(cmd, cmd.data)] := recording_executes hexecute
    rw [List.mem_singleton.1 he, hread] at hwrite
    cases hwrite

private theorem feeds_execute (h : Follows hist c) (hstage : c.stage = .fullFeature)
    (hfresh : FreshDataOut hist c (.dataOut d))
    (hfeeds : Connection.Feeds (recording tg) (s, []) c bhs d pdus c' (s', executed))
    (he : e ∈ executed) : Delivered (hist ++ [.dataOut d]) e.1 e.2 := by
  cases hfeeds with
  | unknown => cases he
  | outside => cases he
  | more => cases he
  | last hp hin hall hfinishes =>
    rw [finishes_executes hfinishes he]
    exact (append_pending (h.pending hstage _ _ hp) hin
      fun since => hfresh d _ since rfl hp hin).carries (UInt32.le_iff_toNat_le.1 hall)

/-- A Data-Out that completes a write executes it, if the target can. -/
theorem last_recorded {target : τ} {w : σ} {completed : PendingWrite}
    (hp : c.inFlight d.itt = some p) (hin : d.bufferOffset.toNat + d.data.length ≤ p.buf.length)
    (hall : p.cmd.edtl ≤ (p.append d).received) (hcompleted : completed = p.append d)
    (hbound : c.target = some target)
    (hok : (tg.execute target completed.cmd completed.buf w).isOk = true) :
    ∃ pdus c' w', c.dataOut (recording tg) (w, []) d bhs =
      .ok (pdus, c', w', [(completed.cmd, completed.buf)]) := by
  rw [Connection.dataOut_last hp hin hall, ← hcompleted]
  cases hexecute : tg.execute target completed.cmd completed.buf w with
  | error e =>
    rw [hexecute] at hok
    cases hok
  | ok r =>
    have hrecord : (recording tg).execute target completed.cmd completed.buf (w, []) =
        .ok (r.1, r.2, [(completed.cmd, completed.buf)]) := by
      simp only [recording, hexecute, List.nil_append]
    exact ⟨_, _, _, Connection.finishWrite_of_execute hbound hrecord⟩

/-- In every run in which accepted Data-Outs cover fresh positions, an executed write
carries the last byte delivered for every position of its buffer. -/
theorem fresh_writes_carry_delivered (tg : Targets σ τ) : WritesCarryDelivered tg FreshDataOut := by
  intro hist c req bhs w pdus c' w' executed hreached hfresh hhandle e he hwrite
  have hfollows := reached_follows hreached
  cases Connection.handle_handles hhandle with
  | command _ _ hcommands => exact commands_execute hcommands he hwrite
  | dataOut hstage hfeeds => exact feeds_execute hfollows hstage hfresh hfeeds he
  | _ => cases he

/-- A position outside the immediate data and outside every Data-Out under the tag has
nothing delivered. -/
theorem lastDelivered_none {i : ℕ} (hdata : cmd.data.length ≤ i)
    (h : ∀ d, .dataOut d ∈ since → d.itt = cmd.itt →
      ¬ (d.bufferOffset.toNat ≤ i ∧ i < d.bufferOffset.toNat + d.data.length)) :
    lastDelivered cmd since i = none := by
  induction since using List.reverseRecOn with
  | nil => exact List.getElem?_eq_none hdata
  | append_singleton since req ih =>
    have hbefore := ih fun d hd => h d (List.mem_append_left _ hd)
    rw [lastDelivered_later]
    cases req with
    | dataOut d =>
      have hd := h d (List.mem_append_right _ (List.mem_singleton.2 rfl))
      simp only [deliver]
      rw [if_neg (fun hcovers => hd hcovers.1 hcovers.2)]
      exact hbefore
    | _ => exact hbefore

/-- A Data-Out is fresh if no command or Data-Out before it with its tag brought a byte for
one of its positions. -/
theorem fresh_of_disjoint
    (hcommands : ∀ cmd, .scsiCommand cmd ∈ hist → cmd.data.length ≤ d.bufferOffset.toNat)
    (hdata : ∀ d', .dataOut d' ∈ hist → d'.itt = d.itt →
      d'.bufferOffset.toNat + d'.data.length ≤ d.bufferOffset.toNat)
    (hpending : ∀ p, c.inFlight d.itt = some p → p.cmd.itt = d.itt) :
    FreshDataOut hist c (.dataOut d) := by
  intro d' p since heq hp _ hlatest i hlow _
  cases heq
  obtain ⟨before, hbefore⟩ := hlatest.history
  have hmem : ∀ r, r = .scsiCommand p.cmd ∨ r ∈ since → r ∈ hist := by
    intro r hr
    rw [hbefore]
    exact List.mem_append_right _ (List.mem_cons.2 hr)
  refine lastDelivered_none ((hcommands _ (hmem _ (.inl rfl))).trans hlow) fun d' hd' hitt => ?_
  have hend := hdata d' (hmem _ (.inr hd')) (hitt.trans (hpending p hp))
  omega

/-- A WRITE(10) of block 0 under the tag 1, without immediate data. -/
def writeOneBlock : ScsiCommand where
  final_ := true
  read := false
  write := true
  attr := 0
  lun := 0
  itt := 1
  edtl := 512
  cmdSn := 5
  expStatSn := 0
  cdb := ⟨[0x2a, 0, 0, 0, 0, 0, 0, 0, 1, 0, 0, 0, 0, 0, 0, 0], rfl⟩
  data := []

/-- A Data-Out of half a block. -/
def halfBlock (offset : UInt32) : ScsiDataOut :=
  ⟨true, 0, 1, 1, 0, 0, offset, List.replicate 256 7⟩

def oneBlockDisk : World :=
  World.empty.insert "a" ⟨[some (.new (rawFile (List.replicate 512 0) (by
    rw [List.length_replicate]
    decide)))]⟩

def halfWritten : PendingWrite := ((PendingWrite.start writeOneBlock).append (halfBlock 0)).nextR2t

def afterCommand : Connection ℕ :=
  (Connection.loggedIn 0 5).counted.setInFlight 1 (some (.start writeOneBlock))

def afterHalf : Connection ℕ := afterCommand.setInFlight 1 (some halfWritten)

theorem inFlight_afterHalf : afterHalf.inFlight 1 = some halfWritten := by
  rw [afterHalf, Connection.setInFlight_inFlight, Function.update_self]

theorem inFlight_afterCommand : afterCommand.inFlight 1 = some (.start writeOneBlock) := by
  rw [afterCommand, Connection.setInFlight_inFlight, Function.update_self]

theorem length_halfBlock (offset : UInt32) : (halfBlock offset).data.length = 256 :=
  List.length_replicate

theorem received_halfBlock (p : PendingWrite) (offset : UInt32) :
    (p.append (halfBlock offset)).received = p.received + 256 :=
  congrArg (fun n => p.received + UInt32.ofNat n) (length_halfBlock offset)

theorem length_oneBlock : (PendingWrite.start writeOneBlock).buf.length = 512 :=
  length_start (Nat.zero_le _)

theorem length_append (hin : d.bufferOffset.toNat + d.data.length ≤ p.buf.length) :
    (p.append d).nextR2t.buf.length = p.buf.length := length_overwrite hin

private theorem length_halfWritten : halfWritten.buf.length = 512 := by
  rw [halfWritten, length_append, length_oneBlock]
  rw [length_oneBlock, length_halfBlock]
  decide

private theorem received_halfWritten : halfWritten.received = 256 := by
  rw [halfWritten, PendingWrite.nextR2t]
  dsimp only
  rw [received_halfBlock]
  decide

theorem halfBlock_handled {σ : Type} (tg : Targets σ ℕ) (w : σ) : ∃ pdus,
    afterCommand.handle tg w (.dataOut (halfBlock 0)) [] = .ok (pdus, afterHalf, w) := by
  have hmore : afterCommand.dataOut tg w (halfBlock 0) [] = _ :=
    Connection.dataOut_more inFlight_afterCommand (by rw [length_oneBlock, length_halfBlock]; decide)
      (by rw [received_halfBlock]; decide)
  exact ⟨_, hmore⟩

private theorem second_executes (offset : UInt32) {completed : PendingWrite}
    (hcompleted : completed = halfWritten.append (halfBlock offset))
    (hin : offset.toNat + 256 ≤ 512)
    (hok : (World.execute 0 completed.cmd completed.buf oneBlockDisk).isOk = true) :
    ∃ pdus c' w', afterHalf.handle (recording (World.targets id)) (oneBlockDisk, [])
      (.dataOut (halfBlock offset)) [] = .ok (pdus, c', w', [(completed.cmd, completed.buf)]) := by
  have hall : halfWritten.cmd.edtl ≤ (halfWritten.append (halfBlock offset)).received := by
    rw [received_halfBlock, received_halfWritten]
    decide
  have hdataOut : ∃ pdus c' w', afterHalf.dataOut (recording (World.targets id)) (oneBlockDisk, [])
      (halfBlock offset) [] = .ok (pdus, c', w', [(completed.cmd, completed.buf)]) :=
    last_recorded inFlight_afterHalf (by rw [length_halfWritten, length_halfBlock]; exact hin) hall
      hcompleted rfl hok
  exact hdataOut

private def oneBlockHistory : List Request :=
  [.login (loginTo "a" 5), .scsiCommand writeOneBlock, .dataOut (halfBlock 0)]

private theorem half_reached (cond : List Request → Connection ℕ → Request → Prop)
    (hlogin : ∀ c, cond [] c (.login (loginTo "a" 5)))
    (hcommand : ∀ hist c, cond hist c (.scsiCommand writeOneBlock))
    (hhalf : cond [.login (loginTo "a" 5), .scsiCommand writeOneBlock] afterCommand
      (.dataOut (halfBlock 0))) :
    Reached (recording (World.targets id)) cond oneBlockHistory afterHalf := by
  have hget : (recording (World.targets id)).get (oneBlockDisk, []) "a" = some 0 := by
    decide
  obtain ⟨_, hfirst⟩ := Connection.handle_loginTo [] hget
  have hsecond : (Connection.loggedIn 0 5).handle (recording (World.targets id)) (oneBlockDisk, [])
      (.scsiCommand writeOneBlock) [] =
        .ok ([(Connection.loggedIn 0 5).counted.solicit 1 (.start writeOneBlock)], afterCommand,
          oneBlockDisk, []) := rfl
  obtain ⟨_, hthird⟩ := halfBlock_handled (recording (World.targets id)) (oneBlockDisk, [])
  exact ((Reached.new.step (hlogin _) hfirst).step (hcommand _ _) hsecond).step hhalf hthird

private theorem second_half_missing (since : List Request)
    (h : LatestStart (oneBlockHistory ++ [.dataOut (halfBlock 0)]) writeOneBlock since) :
    lastDelivered writeOneBlock since 300 = none := by
  obtain ⟨before, hbefore⟩ := h.history
  refine lastDelivered_none (Nat.zero_le _) fun d hd _ hcovers => ?_
  have hmem : Request.dataOut d ∈ oneBlockHistory ++ [.dataOut (halfBlock 0)] := by
    rw [hbefore]
    exact List.mem_append_right _ (List.mem_cons_of_mem _ hd)
  have hd' : d = halfBlock 0 := by simpa [oneBlockHistory] using hmem
  rw [hd', length_halfBlock] at hcovers
  exact absurd hcovers.2 (by decide)

/-- A block of which the first half arrives twice is executed with a second half that
nothing delivered. -/
theorem repeated_half_executed :
    ¬ WritesCarryDelivered (World.targets id) fun _ _ _ => True := by
  intro h
  obtain ⟨_, _, _, hexecutes⟩ := second_executes 0 rfl (by decide) (by decide +kernel)
  have hdelivered := h _ _ _ _ _ _ _ _ _ (half_reached _ (fun _ => trivial) (fun _ _ => trivial) trivial)
    trivial hexecutes _ (List.mem_singleton.2 rfl) rfl
  obtain ⟨since, hlatest, hall⟩ := hdelivered.from_history
  obtain ⟨v, hv, -⟩ := hall 300 (by decide)
  cases (second_half_missing since hlatest).symm.trans hv

/-- A block in two halves is executed with the last bytes delivered. -/
theorem two_halves_carry_delivered : ∃ buf,
    Delivered (oneBlockHistory ++ [.dataOut (halfBlock 256)]) writeOneBlock buf := by
  have hpending : ∀ p, afterCommand.inFlight (halfBlock 0).itt = some p → p.cmd.itt = 1 := by
    intro p hp
    cases hp.symm.trans inFlight_afterCommand
    rfl
  have hpending' : ∀ p, afterHalf.inFlight (halfBlock 256).itt = some p → p.cmd.itt = 1 := by
    intro p hp
    cases hp.symm.trans inFlight_afterHalf
    rfl
  have hfirst : FreshDataOut [.login (loginTo "a" 5), .scsiCommand writeOneBlock] afterCommand
      (.dataOut (halfBlock 0)) := by
    refine fresh_of_disjoint (fun cmd hcmd => ?_) (fun d hd => ?_) hpending
    · have hcmd' : cmd = writeOneBlock := by simpa using hcmd
      rw [hcmd']
      exact Nat.zero_le _
    · simp at hd
  have hsecond : FreshDataOut oneBlockHistory afterHalf (.dataOut (halfBlock 256)) := by
    refine fresh_of_disjoint (fun cmd hcmd => ?_) (fun d hd _ => ?_) hpending'
    · have hcmd' : cmd = writeOneBlock := by simpa [oneBlockHistory] using hcmd
      rw [hcmd']
      exact Nat.zero_le _
    · have hd' : d = halfBlock 0 := by simpa [oneBlockHistory] using hd
      rw [hd', length_halfBlock]
      decide
  obtain ⟨_, _, _, hexecutes⟩ := second_executes 256 rfl (by decide) (by decide +kernel)
  have hreached := half_reached FreshDataOut (fun _ _ _ _ => nofun)
    (fun _ _ _ _ _ => nofun) hfirst
  exact ⟨_, fresh_writes_carry_delivered (World.targets id) _ _ _ _ _ _ _ _ _ hreached hsecond
    hexecutes _ (List.mem_singleton.2 rfl) rfl⟩

end XBoot.Iscsi
