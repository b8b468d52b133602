import XBoot.TftpTurns

/-!
# How often a block is sent

A block is sent at most once more than there are retries, which bounds the packets and
the turns of a transfer. Of the ways in which a transfer gives up only one leaves an
ERROR packet: a timeout, before the last block, that finds the retries used up.
-/

namespace XBoot.Tftp

open ListSlices BigEndian

def isData (packet : List UInt8) : Bool := slice packet 0 2 = toBe 2 OP_DATA

def isError (packet : List UInt8) : Bool := slice packet 0 2 = toBe 2 OP_ERROR

/-- A transfer that ends without the acknowledgement of the last block ends with an ERROR. -/
def EndsWithError (t : Transfer) : Prop :=
  t.ending ≠ .waiting → t.ending ≠ .acknowledged →
    ∃ packet, t.packets.getLast? = some packet ∧ isError packet = true

def blockCount (data : List UInt8) (blksize : UInt16) : ℕ := data.length / blksize.toNat + 1

section

variable (toLowercase : String → String) (cfg : TftpServer) (data : List UInt8) (blksize : UInt16)

/-- Every turn that the loop takes meets a condition on it and on the loop's variables. -/
def EachTurn (meets : Progress → Turn → Prop) : Progress → List Turn → Prop
  | _, [] => True
  | p, turn :: turns => meets p turn ∧ ∀ p', goesOn toLowercase cfg data blksize p turn = some p' →
      EachTurn meets p' turns

def AtLastBlock (p : Progress) : Prop := data.length < p.current.toNat * blksize.toNat

/-- A turn that ends the transfer without an acknowledgement and without an ERROR: the
retries are used up, but not by a timeout before the last block, or a number overflows. -/
def EndsSilently (p : Progress) (turn : Turn) : Prop :=
  acks toLowercase p turn = false ∧ (2 ^ 32 ≤ p.retries + 1 ∨
    if cfg.maxRetries ≤ p.retries then AtLastBlock data blksize p ∨ turn.isTimeout = false
    else DURATION_LIMIT ≤ p.timeout * 2)

/-- What a transfer keeps to, for the turns that it is given. -/
structure KeepsToRetries (turns : List Turn) (t : Transfer) : Prop where
  each_le : ∀ k < blockCount data blksize,
    t.packets.count (packetAt data blksize.toNat k) ≤ cfg.maxRetries + 1
  total_le : t.packets.countP isData ≤ blockCount data blksize * (cfg.maxRetries + 1)
  stops : t.ending = .waiting → turns.length < blockCount data blksize * (cfg.maxRetries + 1)
  reports : EndsWithError t

/-- The packets that are left to send from a block on with so many retries spent on it. -/
def budget (k retries : ℕ) : ℕ :=
  (data.length / blksize.toNat - k) * (cfg.maxRetries + 1) + (cfg.maxRetries + 1 - retries)

/-- What the rest of a transfer keeps to when it is about to send block `k`. -/
structure KeepsToBudget (k retries length : ℕ) (t : Transfer) : Prop where
  count_before : ∀ j < k, t.packets.count (packetAt data blksize.toNat j) = 0
  count_here : t.packets.count (packetAt data blksize.toNat k) ≤ cfg.maxRetries + 1 - retries
  count_after : ∀ j ≤ data.length / blksize.toNat, k < j →
    t.packets.count (packetAt data blksize.toNat j) ≤ cfg.maxRetries + 1
  total_le : t.packets.countP isData ≤ budget cfg data blksize k retries
  stops : t.ending = .waiting → length < budget cfg data blksize k retries

structure Sends (k : ℕ) (p : Progress) : Prop where
  current_eq : p.current = UInt16.ofNat (k + 1)
  retries_le : p.retries ≤ cfg.maxRetries

/-- All that a turn spent on block `k` can lead to. -/
inductive TurnsTo (k : ℕ) (p : Progress) (turn : Turn) : Next → Prop
  | acknowledged (hack : acks toLowercase p turn = true) (hlast : k = data.length / blksize.toNat) :
      TurnsTo k p turn (.stop .acknowledged [])
  | onward {q : Progress} (hack : acks toLowercase p turn = true)
      (hmore : k < data.length / blksize.toNat) (hsends : Sends cfg (k + 1) q)
      (hretries : q.retries = 0) : TurnsTo k p turn (.loop q)
  | again {q : Progress} (hother : acks toLowercase p turn = false)
      (hheard : ¬ EndsSilently toLowercase cfg data blksize p turn) (hsends : Sends cfg k q)
      (hretries : q.retries = p.retries + 1) : TurnsTo k p turn (.loop q)
  | reports (hheard : ¬ EndsSilently toLowercase cfg data blksize p turn) :
      TurnsTo k p turn (.stop .gaveUp [timedOut])
  | silent {ending : Ending} (hsilent : EndsSilently toLowercase cfg data blksize p turn)
      (hend : ending ≠ .acknowledged ∧ ending ≠ .waiting) : TurnsTo k p turn (.stop ending [])

end

variable {toLowercase : String → String} {cfg : TftpServer} {data : List UInt8} {blksize : UInt16}
  {k : ℕ} {p : Progress} {turn : Turn} {turns : List Turn}

theorem isData_encodeData (block : UInt16) (payload : List UInt8) :
    isData (encodeData block payload) = true := by
  simp [isData, encodeData, slice, toBe]

theorem isData_timedOut : isData timedOut = false := by decide

theorem isError_timedOut : isError timedOut = true := by decide

theorem isError_encodeData (block : UInt16) (payload : List UInt8) :
    isError (encodeData block payload) = false := by
  simp [isError, encodeData, slice, toBe, OP_DATA, OP_ERROR]

theorem packetAt_ne_timedOut : packetAt data blksize.toNat k ≠ timedOut := by
  intro heq
  have hdata := isData_encodeData (UInt16.ofNat (k + 1)) (slice data (k * blksize.toNat) blksize.toNat)
  rw [← packetAt, heq, isData_timedOut] at hdata
  cases hdata

theorem atLastBlock_iff (hsize : 0 < blksize.toNat) (hwrap : k < 65535)
    (hk : k ≤ data.length / blksize.toNat) (h : Sends cfg k p) :
    AtLastBlock data blksize p ↔ k = data.length / blksize.toNat := by
  have hnumber : p.current.toNat = k + 1 := by
    rw [h.current_eq, UInt16.toNat_ofNat_of_lt' (by rw [UInt16.size]; omega)]
  rw [AtLastBlock, hnumber, ← Nat.div_lt_iff_lt_mul hsize]
  omega

private theorem acked_turnsTo (hsize : 0 < blksize.toNat) (hk : k ≤ data.length / blksize.toNat)
    (h : Sends cfg k p) (hack : acks toLowercase p turn = true) :
    TurnsTo toLowercase cfg data blksize k p turn
      (awaitBlock toLowercase cfg blksize (slice data (k * blksize.toNat) blksize.toNat) p turn) := by
  have hlast := length_block hsize hk
  rw [awaitBlock_acked hack]
  split
  · exact .acknowledged hack (hlast.1 (by assumption))
  · have hmore : k ≠ data.length / blksize.toNat := fun heq => absurd (hlast.2 heq) (by assumption)
    refine .onward hack (by omega) ⟨?_, Nat.zero_le _⟩ rfl
    rw [h.current_eq, UInt16.ofNat_add (k + 1) 1]
    rfl

private theorem unacked_turnsTo (hsize : 0 < blksize.toNat) (hwrap : k < 65535)
    (hk : k ≤ data.length / blksize.toNat)
    (h : Sends cfg k p) (hother : acks toLowercase p turn = false) :
    TurnsTo toLowercase cfg data blksize k p turn
      (awaitBlock toLowercase cfg blksize (slice data (k * blksize.toNat) blksize.toNat) p turn) := by
  have hlast := (length_block hsize hk).trans (atLastBlock_iff hsize hwrap hk h).symm
  rw [awaitBlock_unacked hother]
  generalize hparting : (if blksize.toNat ≤ (slice data (k * blksize.toNat) blksize.toNat).length ∧
    turn.isTimeout = true then [timedOut] else []) = parting
  have hbacks := backOff_backsOff cfg p parting
  generalize backOff cfg p parting = next at hbacks ⊢
  cases hbacks with
  | overflows hover => exact .silent ⟨hother, .inl hover⟩ ⟨by simp, by simp⟩
  | spent hfits hused =>
    have hreason : EndsSilently toLowercase cfg data blksize p turn ↔
        AtLastBlock data blksize p ∨ turn.isTimeout = false := by
      rw [EndsSilently, if_pos hused]
      exact ⟨fun h => h.2.resolve_left (Nat.not_le.2 hfits), fun h => ⟨hother, .inr h⟩⟩
    subst hparting
    split_ifs with hreports
    · refine .reports fun hsilent => ?_
      rcases hreason.1 hsilent with hend | hquiet
      · exact absurd (hlast.2 hend) (Nat.not_lt.2 hreports.1)
      · rw [hreports.2] at hquiet
        cases hquiet
    · refine .silent (hreason.2 ?_) ⟨by simp, by simp⟩
      by_cases hend : AtLastBlock data blksize p
      · exact .inl hend
      · refine .inr (Bool.eq_false_iff.2 fun htimeout => hreports ⟨?_, htimeout⟩)
        exact Nat.not_lt.1 fun hshort => hend (hlast.1 hshort)
  | overruns hfits hleft hlong =>
    refine .silent ⟨hother, .inr ?_⟩ ⟨by simp, by simp⟩
    rwa [if_neg (Nat.not_le.2 hleft)]
  | again hfits hleft hshort =>
    refine .again hother (fun hsilent => ?_) ⟨h.current_eq, hleft⟩ rfl
    have hreason := hsilent.2.resolve_left (Nat.not_le.2 hfits)
    rw [if_neg (Nat.not_le.2 hleft)] at hreason
    exact absurd hreason (Nat.not_le.2 hshort)

theorem turnsTo (hsize : 0 < blksize.toNat) (hwrap : k < 65535)
    (hk : k ≤ data.length / blksize.toNat) (h : Sends cfg k p) (turn : Turn) :
    TurnsTo toLowercase cfg data blksize k p turn
      (awaitBlock toLowercase cfg blksize (slice data (k * blksize.toNat) blksize.toNat) p turn) := by
  cases hack : acks toLowercase p turn with
  | true => exact acked_turnsTo hsize hk h hack
  | false => exact unacked_turnsTo hsize hwrap hk h hack

private theorem count_own (packets : List (List UInt8)) :
    (packetAt data blksize.toNat k :: packets).count (packetAt data blksize.toNat k) =
      packets.count (packetAt data blksize.toNat k) + 1 := List.count_cons_self

private theorem count_other {j : ℕ} (hj : j < 65535) (hk : k < 65535) (hne : j ≠ k)
    (packets : List (List UInt8)) :
    (packetAt data blksize.toNat k :: packets).count (packetAt data blksize.toNat j) =
      packets.count (packetAt data blksize.toNat j) :=
  List.count_cons_of_ne (packetAt_ne hk hj hne.symm)

private theorem countP_block (packets : List (List UInt8)) :
    (packetAt data blksize.toNat k :: packets).countP isData = packets.countP isData + 1 :=
  List.countP_cons_of_pos (isData_encodeData _ _)

theorem budget_pos {retries : ℕ} (hretries : retries ≤ cfg.maxRetries) :
    0 < budget cfg data blksize k retries := by
  rw [budget]
  omega

private theorem keepsToBudget_stop (hsmall : data.length / blksize.toNat < 65535)
    (hk : k ≤ data.length / blksize.toNat) (h : Sends cfg k p) {ending : Ending}
    (hend : ending ≠ .waiting) {parting : List (List UInt8)}
    (hparting : parting = [] ∨ parting = [timedOut]) (length : ℕ) :
    KeepsToBudget cfg data blksize k p.retries length
      ⟨packetAt data blksize.toNat k :: parting, ending⟩ := by
  have hretries := h.retries_le
  have hnone : ∀ j, parting.count (packetAt data blksize.toNat j) = 0 := by
    intro j
    rcases hparting with rfl | rfl
    · exact List.count_nil
    · exact (List.count_cons_of_ne packetAt_ne_timedOut.symm).trans List.count_nil
  have hdata : parting.countP isData = 0 := by
    rcases hparting with rfl | rfl
    · rfl
    · exact (List.countP_cons_of_neg (by rw [isData_timedOut]; nofun)).trans List.countP_nil
  refine ⟨fun j hj => ?_, ?_, fun j hj hafter => ?_, ?_, fun hwait => absurd hwait hend⟩
  · rw [count_other (by omega) (by omega) (by omega), hnone]
  · rw [count_own, hnone]
    omega
  · rw [count_other (by omega) (by omega) (by omega), hnone]
    omega
  · rw [countP_block, hdata]
    exact budget_pos hretries

private theorem KeepsToBudget.onward (hsmall : data.length / blksize.toNat < 65535)
    (hmore : k < data.length / blksize.toNat) {retries length : ℕ}
    (hretries : retries ≤ cfg.maxRetries) {t : Transfer}
    (h : KeepsToBudget cfg data blksize (k + 1) 0 length t) :
    KeepsToBudget cfg data blksize k retries (length + 1) (t.after (packetAt data blksize.toNat k)) := by
  have hspent : budget cfg data blksize (k + 1) 0 < budget cfg data blksize k retries := by
    have hblocks : data.length / blksize.toNat - k = data.length / blksize.toNat - (k + 1) + 1 := by
      omega
    rw [budget, budget, hblocks, Nat.succ_mul]
    omega
  refine ⟨fun j hj => ?_, ?_, fun j hj hafter => ?_, ?_, fun hwait => ?_⟩
  · exact (count_other (by omega) (by omega) (by omega) _).trans (h.count_before j (by omega))
  · refine (count_own _).le.trans ?_
    rw [h.count_before k (Nat.lt_succ_self k)]
    omega
  · refine (count_other (by omega) (by omega) (by omega) _).le.trans ?_
    rcases Nat.eq_or_lt_of_le (Nat.succ_le_of_lt hafter) with rfl | hlater
    · exact h.count_here
    · exact h.count_after j hj hlater
  · exact (countP_block _).le.trans (Nat.lt_of_le_of_lt h.total_le hspent)
  · exact Nat.lt_of_le_of_lt (h.stops hwait) hspent

private theorem KeepsToBudget.again (hsmall : data.length / blksize.toNat < 65535)
    (hk : k ≤ data.length / blksize.toNat) {retries length : ℕ}
    (hretries : retries + 1 ≤ cfg.maxRetries) {t : Transfer}
    (h : KeepsToBudget cfg data blksize k (retries + 1) length t) :
    KeepsToBudget cfg data blksize k retries (length + 1) (t.after (packetAt data blksize.toNat k)) := by
  have hspent : budget cfg data blksize k (retries + 1) < budget cfg data blksize k retries := by
    rw [budget, budget]
    omega
  refine ⟨fun j hj => ?_, ?_, fun j hj hafter => ?_, ?_, fun hwait => ?_⟩
  · exact (count_other (by omega) (by omega) (by omega) _).trans (h.count_before j hj)
  · have hhere := h.count_here
    refine (count_own _).le.trans ?_
    omega
  · exact (count_other (by omega) (by omega) (by omega) _).le.trans (h.count_after j hj hafter)
  · exact (countP_block _).le.trans (Nat.lt_of_le_of_lt h.total_le hspent)
  · exact Nat.lt_of_le_of_lt (h.stops hwait) hspent

private theorem turn_keepsToBudget (hsmall : data.length / blksize.toNat < 65535)
    (hk : k ≤ data.length / blksize.toNat) (h : Sends cfg k p) {next : Next}
    (hnext : TurnsTo toLowercase cfg data blksize k p turn next) {rest : Progress → Transfer}
    {length : ℕ} (ih : ∀ j q, j ≤ data.length / blksize.toNat → Sends cfg j q →
      KeepsToBudget cfg data blksize j q.retries length (rest q)) :
    KeepsToBudget cfg data blksize k p.retries (length + 1)
      (next.finish (packetAt data blksize.toNat k) rest) := by
  cases hnext with
  | acknowledged => exact keepsToBudget_stop hsmall hk h (by nofun) (.inl rfl) _
  | reports => exact keepsToBudget_stop hsmall hk h (by nofun) (.inr rfl) _
  | silent _ hend => exact keepsToBudget_stop hsmall hk h hend.2 (.inl rfl) _
  | @onward q _ hmore hsends hzero =>
    have hrest := ih (k + 1) q hmore hsends
    rw [hzero] at hrest
    exact hrest.onward hsmall hmore h.retries_le
  | @again q _ _ hsends hcount =>
    have hrest := ih k q hk hsends
    rw [hcount] at hrest
    exact hrest.again hsmall hk (hcount ▸ hsends.retries_le)

theorem packet_eq (h : Sends cfg k p) :
    encodeData p.current (slice data (k * blksize.toNat) blksize.toNat) =
      packetAt data blksize.toNat k := by
  rw [h.current_eq, packetAt]

theorem chunkAt_sends (hsize : 0 < blksize.toNat) (hwrap : k < 65535)
    (hk : k ≤ data.length / blksize.toNat) (h : Sends cfg k p) :
    chunkAt data blksize.toNat p.current = some (slice data (k * blksize.toNat) blksize.toNat) :=
  chunkAt_block hwrap ((Nat.le_div_iff_mul_le hsize).1 hk) h.current_eq

private theorem transferLoop_keepsToBudget (hsize : 0 < blksize.toNat)
    (hsmall : data.length / blksize.toNat < 65535) (hk : k ≤ data.length / blksize.toNat)
    (h : Sends cfg k p) (hturns : ∀ turn ∈ turns, turn ≠ .sendFails) :
    KeepsToBudget cfg data blksize k p.retries turns.length
      (transferLoop toLowercase cfg data blksize p turns) := by
  induction turns generalizing k p with
  | nil =>
    have hstop : KeepsToBudget cfg data blksize k p.retries 0
        ⟨[packetAt data blksize.toNat k], .gaveUp⟩ :=
      keepsToBudget_stop hsmall hk h (by nofun) (.inl rfl) 0
    rw [transferLoop, chunkAt_sends hsize (by omega) hk h]
    dsimp only
    rw [packet_eq h]
    exact ⟨hstop.count_before, hstop.count_here, hstop.count_after, hstop.total_le,
      fun _ => budget_pos h.retries_le⟩
  | cons turn turns ih =>
    rw [transferLoop_cons (chunkAt_sends hsize (by omega) hk h) (hturns turn List.mem_cons_self),
      packet_eq h]
    exact turn_keepsToBudget hsmall hk h (turnsTo hsize (by omega) hk h turn) fun j q hj hq =>
      ih hj hq fun t ht => hturns t (List.mem_cons_of_mem _ ht)

private theorem endsWithError_after {packet first : List UInt8} {t : Transfer}
    (h : ∃ rest, t.packets = first :: rest) : EndsWithError (t.after packet) ↔ EndsWithError t := by
  have hlast : (t.after packet).packets.getLast? = t.packets.getLast? := by
    obtain ⟨rest, hpackets⟩ := h
    rw [Transfer.after, hpackets]
    exact List.getLast?_cons_cons
  rw [EndsWithError, EndsWithError, hlast]
  rfl

/-- A transfer goes on with the block that it is sending. -/
theorem transferLoop_head (hsize : 0 < blksize.toNat) (hwrap : k < 65535)
    (hk : k ≤ data.length / blksize.toNat) (h : Sends cfg k p)
    (hturns : ∀ turn ∈ turns, turn ≠ .sendFails) :
    ∃ rest, (transferLoop toLowercase cfg data blksize p turns).packets =
      packetAt data blksize.toNat k :: rest := by
  rw [← packet_eq h]
  cases turns with
  | nil =>
    rw [transferLoop, chunkAt_sends hsize hwrap hk h]
    exact ⟨_, rfl⟩
  | cons turn turns =>
    rw [transferLoop_cons (chunkAt_sends hsize hwrap hk h) (hturns turn List.mem_cons_self)]
    cases awaitBlock toLowercase cfg blksize (slice data (k * blksize.toNat) blksize.toNat) p turn with
    | loop q => exact ⟨_, rfl⟩
    | stop ending parting => exact ⟨_, rfl⟩

private theorem not_endsSilently (cfg : TftpServer) (data : List UInt8) (blksize : UInt16)
    (hack : acks toLowercase p turn = true) : ¬ EndsSilently toLowercase cfg data blksize p turn := by
  exact fun hsilent => nomatch hack.symm.trans hsilent.1

private theorem eachTurn_rest (rest : Progress → Prop) {heard : Prop} {q : Progress} (h : heard) :
    (heard ∧ ∀ p', (Next.loop q).progress = some p' → rest p') ↔ rest q :=
  ⟨fun hall => hall.2 q rfl, fun hq => ⟨h, fun _ hp' => Option.some.inj hp' ▸ hq⟩⟩

private theorem transferLoop_endsWithError_iff (hsize : 0 < blksize.toNat)
    (hsmall : data.length / blksize.toNat < 65535) (hk : k ≤ data.length / blksize.toNat)
    (h : Sends cfg k p) (hturns : ∀ turn ∈ turns, turn ≠ .sendFails) :
    EndsWithError (transferLoop toLowercase cfg data blksize p turns) ↔
      EachTurn toLowercase cfg data blksize
        (fun p turn => ¬ EndsSilently toLowercase cfg data blksize p turn) p turns := by
  induction turns generalizing k p with
  | nil =>
    rw [transferLoop, chunkAt_sends hsize (by omega) hk h]
    exact iff_of_true (fun hwait => absurd rfl hwait) trivial
  | cons turn turns ih =>
    have hchunk := chunkAt_sends hsize (by omega) hk h
    have hsent := hturns turn List.mem_cons_self
    have hrest := fun t ht => hturns t (List.mem_cons_of_mem _ ht)
    rw [transferLoop_cons hchunk hsent, EachTurn, goesOn_eq hchunk hsent]
    have hnext : TurnsTo toLowercase cfg data blksize k p turn
        (awaitBlock toLowercase cfg blksize (slice data (k * blksize.toNat) blksize.toNat) p turn) :=
      turnsTo hsize (by omega) hk h turn
    generalize awaitBlock toLowercase cfg blksize (slice data (k * blksize.toNat) blksize.toNat) p
      turn = next at hnext
    -- the turn decides itself how the transfer ends, or leaves it to the rest
    cases hnext with
    | acknowledged hack =>
      have hheard := not_endsSilently cfg data blksize hack
      exact iff_of_true (fun _ hend => absurd rfl hend) ⟨hheard, fun _ h => by cases h⟩
    | @onward q hack hmore hsends =>
      have hheard := not_endsSilently cfg data blksize hack
      refine (endsWithError_after (transferLoop_head hsize (by omega) hmore hsends hrest)).trans ?_
      refine (ih hmore hsends hrest).trans ?_
      exact (eachTurn_rest (EachTurn toLowercase cfg data blksize _ · turns) hheard).symm
    | @again q _ hheard hsends =>
      refine (endsWithError_after (transferLoop_head hsize (by omega) hk hsends hrest)).trans ?_
      refine (ih hk hsends hrest).trans ?_
      exact (eachTurn_rest (EachTurn toLowercase cfg data blksize _ · turns) hheard).symm
    | reports hheard =>
      exact iff_of_true (fun _ _ => ⟨timedOut, rfl, isError_timedOut⟩) ⟨hheard, fun _ h => by cases h⟩
    | silent hsilent hend =>
      refine iff_of_false (fun herror => ?_) fun hheard => hheard.1 hsilent
      obtain ⟨packet, hpacket, hcode⟩ := herror hend.2 hend.1
      rw [← Option.some.inj hpacket] at hcode
      have hcode := (isError_encodeData _ _).symm.trans hcode
      cases hcode

/-- Whatever arrives, every block is sent at most once more than there are retries, and with
it the transfer comes to an end; it ends with an ERROR or the acknowledgement of the last
block exactly when no turn ends it silently. -/
theorem keeps_to_retries_iff (toLowercase : String → String) (cfg : TftpServer)
    (data : List UInt8) (blksize : UInt16) (hsize : 0 < blksize.toNat)
    (hblocks : blockCount data blksize < 65536) (turns : List Turn)
    (hturns : ∀ turn ∈ turns, turn ≠ .sendFails) :
    KeepsToRetries cfg data blksize turns (transferBlocks toLowercase cfg data blksize turns) ↔
      EachTurn toLowercase cfg data blksize
        (fun p turn => ¬ EndsSilently toLowercase cfg data blksize p turn)
        { current := 1, retries := 0, timeout := cfg.transferTimeout } turns := by
  have hsmall : data.length / blksize.toNat < 65535 := Nat.lt_of_succ_lt_succ hblocks
  have hstart : Sends cfg 0 { current := 1, retries := 0, timeout := cfg.transferTimeout } :=
    ⟨rfl, Nat.zero_le _⟩
  have hbudget : budget cfg data blksize 0 0 = blockCount data blksize * (cfg.maxRetries + 1) := by
    rw [budget, blockCount, Nat.succ_mul, Nat.sub_zero, Nat.sub_zero]
  have hkeeps : KeepsToBudget cfg data blksize 0 0 turns.length
      (transferBlocks toLowercase cfg data blksize turns) :=
    transferLoop_keepsToBudget hsize hsmall (Nat.zero_le _) hstart hturns
  rw [← transferLoop_endsWithError_iff hsize hsmall (Nat.zero_le _) hstart hturns]
  refine ⟨fun h => h.reports, fun h => ⟨fun k hk => ?_, ?_, ?_, h⟩⟩
  · rcases Nat.eq_zero_or_pos k with rfl | hpos
    · exact hkeeps.count_here
    · exact hkeeps.count_after k (Nat.le_of_lt_succ hk) hpos
  · exact hbudget ▸ hkeeps.total_le
  · exact hbudget ▸ hkeeps.stops

/-- A file of one full block whose two blocks are acknowledged. -/
theorem acknowledged_keeps_to_retries :
    KeepsToRetries TftpServer.new (List.replicate 8 7) 8 (acksFrom ⟨.v4 0, 0⟩ 0 2)
      (transferBlocks id TftpServer.new (List.replicate 8 7) 8 (acksFrom ⟨.v4 0, 0⟩ 0 2)) := by
  refine (keeps_to_retries_iff id TftpServer.new (List.replicate 8 7) 8 (by decide) (by decide)
    (acksFrom ⟨.v4 0, 0⟩ 0 2) ?_).2 ?_
  · intro turn hturn
    obtain ⟨i, -, rfl⟩ := List.mem_map.1 hturn
    nofun
  · refine ⟨not_endsSilently _ _ _ (by decide), fun q hq => ?_⟩
    have hnext : goesOn id TftpServer.new (List.replicate 8 7) 8
        { current := 1, retries := 0, timeout := TftpServer.new.transferTimeout }
        (.datagram ⟨.v4 0, 0⟩ (encodeAck 1)) =
          some { current := 2, retries := 0, timeout := TftpServer.new.transferTimeout } := rfl
    cases Option.some.inj (hnext.symm.trans hq)
    exact ⟨not_endsSilently _ _ _ (by decide), fun _ _ => trivial⟩

/-- A file of one short block that is never acknowledged: after the default five retries
the transfer ends with the block itself. -/
theorem unacknowledged_ends_silently :
    ¬ KeepsToRetries TftpServer.new [7] 8 (List.replicate 6 .timesOut)
      (transferBlocks id TftpServer.new [7] 8 (List.replicate 6 .timesOut)) := by
  intro h
  have hrun : transferBlocks id TftpServer.new [7] 8 (List.replicate 6 .timesOut) =
      ⟨List.replicate 6 (encodeData 1 [7]), .gaveUp⟩ := by decide
  have herror := h.reports
  rw [hrun] at herror
  obtain ⟨packet, hlast, hcode⟩ := herror nofun nofun
  rw [← Option.some.inj hlast] at hcode
  exact absurd hcode (by decide)

end XBoot.Tftp
