import XBoot.TftpBlocks

/-!
# A transfer, turn by turn

What a turn of the loop of `transfer_blocks` leads to depends on whether it brings the
acknowledgement of the block being sent. The loop's variables after some turns say how a
transfer goes on when more turns follow; a transfer that has ended takes no notice of them.
-/

namespace XBoot.Tftp

open ListSlices

/-- The parting ERROR packet of a transfer that gives up on a timeout. -/
def timedOut : List UInt8 := encodeError ERR_UNDEFINED "Transfer timed out"

def Turn.isTimeout : Turn → Bool
  | .timesOut => true
  | _ => false

def Transfer.afterAll (packets : List (List UInt8)) (t : Transfer) : Transfer :=
  { t with packets := packets ++ t.packets }

def Next.progress : Next → Option Progress
  | .loop p => some p
  | .stop _ _ => none

section

variable (toLowercase : String → String) (cfg : TftpServer) (data : List UInt8) (blksize : UInt16)

/-- The turn brings the acknowledgement of the block being sent. -/
def acks (p : Progress) : Turn → Bool
  | .datagram _ bytes => received toLowercase bytes = .ok (.ack p.current)
  | _ => false

/-- The wait once a block is sent. -/
def awaitBlock (chunk : List UInt8) (p : Progress) (turn : Turn) : Next :=
  if chunk.length < blksize.toNat then awaitFinalAck toLowercase cfg p turn
  else awaitAck toLowercase cfg p turn

/-- The loop's variables after one turn, if it goes on. -/
def goesOn (p : Progress) (turn : Turn) : Option Progress :=
  match chunkAt data blksize.toNat p.current with
  | none => none
  | some chunk => match turn with
    | .sendFails => none
    | turn => (awaitBlock toLowercase cfg blksize chunk p turn).progress

def progressAfter (p : Progress) (turns : List Turn) : Option Progress :=
  turns.foldlM (goesOn toLowercase cfg data blksize) p

end

variable {toLowercase : String → String} {cfg : TftpServer} {data chunk : List UInt8}
  {blksize : UInt16} {p q : Progress} {turn : Turn} {turns : List Turn}

theorem awaitBlock_acked (h : acks toLowercase p turn = true) :
    awaitBlock toLowercase cfg blksize chunk p turn =
      if chunk.length < blksize.toNat then .stop .acknowledged []
      else .loop { current := p.current + 1, retries := 0, timeout := cfg.transferTimeout } := by
  cases turn with
  | datagram source bytes =>
    have hack : received toLowercase bytes = .ok (.ack p.current) := of_decide_eq_true h
    simp [awaitBlock, awaitFinalAck, awaitAck, hack]
  | _ => cases h

/-- Whatever else comes counts as a retry; a timeout before the last block parts with an
ERROR when there is none left. -/
theorem awaitBlock_unacked (h : acks toLowercase p turn = false) :
    awaitBlock toLowercase cfg blksize chunk p turn =
      backOff cfg p
        (if blksize.toNat ≤ chunk.length ∧ turn.isTimeout = true then [timedOut] else []) := by
  cases turn with
  | datagram source bytes =>
    have hother : received toLowercase bytes ≠ .ok (.ack p.current) := of_decide_eq_false h
    have hparting : ¬ (blksize.toNat ≤ chunk.length ∧ (Turn.datagram source bytes).isTimeout = true) :=
      fun h => nomatch h.2
    rw [awaitBlock, awaitFinalAck, awaitAck, if_neg hother, if_neg hparting]
    split
    · rfl
    · split
      · rename_i block hreceived
        have hne : block ≠ p.current := fun heq => hother (hreceived.trans (by rw [heq]))
        rw [if_neg hne, ite_self]
      · rfl
  | timesOut =>
    by_cases hlast : chunk.length < blksize.toNat
    · rw [awaitBlock, if_pos hlast, if_neg (fun h => Nat.not_le.2 hlast h.1)]
      rfl
    · rw [awaitBlock, if_neg hlast, if_pos ⟨Nat.not_lt.1 hlast, rfl⟩]
      rfl
  | _ => simp [awaitBlock, awaitFinalAck, awaitAck, Turn.isTimeout]

/-- All that counting a retry can lead to. -/
inductive BacksOff (cfg : TftpServer) (p : Progress) (parting : List (List UInt8)) : Next → Prop
  | overflows (hover : 2 ^ 32 ≤ p.retries + 1) : BacksOff cfg p parting (.stop .panicked [])
  | spent (hfits : p.retries + 1 < 2 ^ 32) (hused : cfg.maxRetries ≤ p.retries) :
      BacksOff cfg p parting (.stop .gaveUp parting)
  | overruns (hfits : p.retries + 1 < 2 ^ 32) (hleft : p.retries < cfg.maxRetries)
      (hlong : DURATION_LIMIT ≤ p.timeout * 2) : BacksOff cfg p parting (.stop .panicked [])
  | again (hfits : p.retries + 1 < 2 ^ 32) (hleft : p.retries < cfg.maxRetries)
      (hshort : p.timeout * 2 < DURATION_LIMIT) : BacksOff cfg p parting
        (.loop { p with retries := p.retries + 1, timeout := p.timeout * 2 })

theorem backOff_backsOff (cfg : TftpServer) (p : Progress) (parting : List (List UInt8)) :
    BacksOff cfg p parting (backOff cfg p parting) := by
  rw [backOff]
  split_ifs with hover hused hlong
  · exact .overflows hover
  · exact .spent (Nat.not_le.1 hover) (Nat.le_of_lt_succ hused)
  · exact .overruns (Nat.not_le.1 hover) (Nat.not_lt.1 hused) hlong
  · exact .again (Nat.not_le.1 hover) (Nat.not_lt.1 hused) (Nat.not_le.1 hlong)

theorem backOff_ends {parting packets : List (List UInt8)} {ending : Ending}
    (h : backOff cfg p parting = .stop ending packets) : ending ≠ .acknowledged ∧ ending ≠ .waiting := by
  have hbacks := backOff_backsOff cfg p parting
  rw [h] at hbacks
  cases hbacks <;> simp

theorem awaitBlock_ends {parting : List (List UInt8)} {ending : Ending}
    (h : awaitBlock toLowercase cfg blksize chunk p turn = .stop ending parting) :
    ending ≠ .waiting := by
  cases hack : acks toLowercase p turn with
  | true =>
    rw [awaitBlock_acked hack] at h
    split at h
    · cases h
      nofun
    · cases h
  | false =>
    rw [awaitBlock_unacked hack] at h
    exact (backOff_ends h).2

theorem transferLoop_cons (hchunk : chunkAt data blksize.toNat p.current = some chunk)
    (hsent : turn ≠ .sendFails) :
    transferLoop toLowercase cfg data blksize p (turn :: turns) =
      (awaitBlock toLowercase cfg blksize chunk p turn).finish (encodeData p.current chunk)
        fun p' => transferLoop toLowercase cfg data blksize p' turns := by
  rw [transferLoop, hchunk]
  cases turn with
  | sendFails => exact absurd rfl hsent
  | _ => rfl

theorem goesOn_eq (hchunk : chunkAt data blksize.toNat p.current = some chunk)
    (hsent : turn ≠ .sendFails) :
    goesOn toLowercase cfg data blksize p turn =
      (awaitBlock toLowercase cfg blksize chunk p turn).progress := by
  rw [goesOn, hchunk]
  cases turn with
  | sendFails => exact absurd rfl hsent
  | _ => rfl

/-- A turn after which the loop goes on. -/
theorem goesOn_some (h : goesOn toLowercase cfg data blksize p turn = some q) :
    ∃ chunk, chunkAt data blksize.toNat p.current = some chunk ∧ turn ≠ .sendFails ∧
      awaitBlock toLowercase cfg blksize chunk p turn = .loop q := by
  cases hchunk : chunkAt data blksize.toNat p.current with
  | none =>
    rw [goesOn, hchunk] at h
    cases h
  | some chunk =>
    have hsent : turn ≠ .sendFails := by
      rintro rfl
      rw [goesOn, hchunk] at h
      cases h
    refine ⟨chunk, rfl, hsent, ?_⟩
    rw [goesOn_eq hchunk hsent] at h
    cases hnext : awaitBlock toLowercase cfg blksize chunk p turn with
    | loop p' =>
      rw [hnext] at h
      cases h
      rfl
    | stop ending parting =>
      rw [hnext] at h
      cases h

theorem progressAfter_cons :
    progressAfter toLowercase cfg data blksize p (turn :: turns) =
      (goesOn toLowercase cfg data blksize p turn).bind
        fun p' => progressAfter toLowercase cfg data blksize p' turns := rfl

/-- One packet is sent in each turn after which the loop goes on, and the rest of the
transfer follows from the variables alone. -/
theorem transferLoop_append (h : progressAfter toLowercase cfg data blksize p turns = some q) :
    ∃ sent : List (List UInt8), sent.length = turns.length ∧ ∀ rest,
      transferLoop toLowercase cfg data blksize p (turns ++ rest) =
        (transferLoop toLowercase cfg data blksize q rest).afterAll sent := by
  induction turns generalizing p with
  | nil =>
    cases h
    exact ⟨[], rfl, fun rest => rfl⟩
  | cons turn turns ih =>
    rw [progressAfter_cons] at h
    obtain ⟨p', hstep, hrest⟩ := Option.bind_eq_some_iff.1 h
    obtain ⟨chunk, hchunk, hsent, hnext⟩ := goesOn_some hstep
    obtain ⟨sent, hlength, happend⟩ := ih hrest
    refine ⟨encodeData p.current chunk :: sent, congrArg (· + 1) hlength, fun rest => ?_⟩
    rw [List.cons_append, transferLoop_cons hchunk hsent, hnext, Next.finish, happend rest]
    rfl

/-- A transfer that does not go on has ended, and takes no notice of what follows. -/
theorem transferLoop_ended (h : progressAfter toLowercase cfg data blksize p turns = none) :
    (transferLoop toLowercase cfg data blksize p turns).ending ≠ .waiting ∧ ∀ rest,
      transferLoop toLowercase cfg data blksize p (turns ++ rest) =
        transferLoop toLowercase cfg data blksize p turns := by
  induction turns generalizing p with
  | nil => cases h
  | cons turn turns ih =>
    cases hchunk : chunkAt data blksize.toNat p.current with
    | none =>
      have hpanic : ∀ turns, transferLoop toLowercase cfg data blksize p turns = ⟨[], .panicked⟩ :=
        fun turns => by rw [transferLoop, hchunk]
      exact ⟨by simp [hpanic], fun rest => by rw [hpanic, hpanic]⟩
    | some chunk =>
      by_cases hsent : turn = .sendFails
      · have hfails : ∀ turns, transferLoop toLowercase cfg data blksize p (.sendFails :: turns) =
            ⟨[], .sendError⟩ := fun turns => by rw [transferLoop, hchunk]
        rw [hsent]
        exact ⟨by simp [hfails], fun rest => by rw [List.cons_append, hfails, hfails]⟩
      · rw [progressAfter_cons, goesOn_eq hchunk hsent] at h
        rw [transferLoop_cons hchunk hsent]
        cases hnext : awaitBlock toLowercase cfg blksize chunk p turn with
        | loop p' =>
          rw [hnext] at h
          obtain ⟨hended, hsame⟩ := ih h
          refine ⟨hended, fun rest => ?_⟩
          rw [List.cons_append, transferLoop_cons hchunk hsent, hnext, Next.finish, hsame rest]
          rfl
        | stop ending parting =>
          refine ⟨awaitBlock_ends hnext, fun rest => ?_⟩
          rw [List.cons_append, transferLoop_cons hchunk hsent, hnext]
          rfl

/-- A transfer that waits has sent a packet in each turn and one since. -/
theorem transferLoop_waiting_length
    (h : (transferLoop toLowercase cfg data blksize p turns).ending = .waiting) :
    (transferLoop toLowercase cfg data blksize p turns).packets.length = turns.length + 1 := by
  cases hprogress : progressAfter toLowercase cfg data blksize p turns with
  | none => exact absurd h (transferLoop_ended hprogress).1
  | some q =>
    obtain ⟨sent, hlength, happend⟩ := transferLoop_append hprogress
    have hall := happend []
    rw [List.append_nil] at hall
    rw [hall] at h ⊢
    have hlast : (transferLoop toLowercase cfg data blksize q []).packets.length = 1 := by
      rw [transferLoop]
      rw [Transfer.afterAll, transferLoop] at h
      split
      · rename_i hnone
        rw [hnone] at h
        cases h
      · rfl
    rw [Transfer.afterAll, List.length_append, hlength, hlast]

/-- What is sent in a turn comes after what was sent before. -/
theorem transferLoop_prefix (hsent : turn ≠ .sendFails) :
    (transferLoop toLowercase cfg data blksize p turns).packets <+:
      (transferLoop toLowercase cfg data blksize p (turns ++ [turn])).packets := by
  cases hprogress : progressAfter toLowercase cfg data blksize p turns with
  | none =>
    have hsame := (transferLoop_ended hprogress).2
    simp only [hsame, List.prefix_refl]
  | some q =>
    obtain ⟨sent, -, happend⟩ := transferLoop_append hprogress
    have hall := happend []
    rw [List.append_nil] at hall
    rw [hall, happend [turn]]
    refine (List.prefix_append_right_inj sent).2 ?_
    cases hchunk : chunkAt data blksize.toNat q.current with
    | none =>
      rw [transferLoop, hchunk]
      exact List.nil_prefix
    | some chunk =>
      rw [transferLoop_cons hchunk hsent, transferLoop, hchunk]
      cases awaitBlock toLowercase cfg blksize chunk q turn with
      | loop q' => exact ⟨_, rfl⟩
      | stop ending parting => exact ⟨_, rfl⟩

theorem transferLoop_append_of_ended
    (h : (transferLoop toLowercase cfg data blksize p turns).ending ≠ .waiting) (rest : List Turn) :
    transferLoop toLowercase cfg data blksize p (turns ++ rest) =
      transferLoop toLowercase cfg data blksize p turns := by
  cases hprogress : progressAfter toLowercase cfg data blksize p turns with
  | none => exact (transferLoop_ended hprogress).2 rest
  | some q =>
    obtain ⟨sent, -, happend⟩ := transferLoop_append hprogress
    have hall := happend []
    rw [List.append_nil] at hall
    have hpanic : chunkAt data blksize.toNat q.current = none := by
      cases hchunk : chunkAt data blksize.toNat q.current with
      | none => rfl
      | some chunk =>
        rw [hall, transferLoop, hchunk] at h
        exact absurd rfl h
    have hsame : ∀ rest, transferLoop toLowercase cfg data blksize q rest = ⟨[], .panicked⟩ :=
      fun rest => by rw [transferLoop, hpanic]
    rw [happend rest, hall, hsame, hsame]

/-- The packet of the current block is that of some index. -/
theorem encodeData_chunkAt {n : ℕ} (h : chunkAt data n p.current = some chunk) :
    encodeData p.current chunk = packetAt data n (p.current.toNat - 1) := by
  rw [chunkAt] at h
  split at h
  · cases h
  · rename_i hne
    have hpos : p.current.toNat ≠ 0 := fun hzero => hne (UInt16.toNat_inj.1 hzero)
    have hnumber : UInt16.ofNat (p.current.toNat - 1 + 1) = p.current := by
      rw [Nat.sub_add_cancel (Nat.pos_of_ne_zero hpos), UInt16.ofNat_toNat]
    dsimp only at h
    split at h
    · cases h
    · rw [packetAt, hnumber, ← Option.some.inj h]
      exact congrArg _ (slice_min_length data ((p.current.toNat - 1) * n) n)

theorem backOff_parting {parting packets : List (List UInt8)} {ending : Ending}
    (h : backOff cfg p parting = .stop ending packets) : packets = [] ∨ packets = parting := by
  have hbacks := backOff_backsOff cfg p parting
  rw [h] at hbacks
  cases hbacks with
  | spent => exact .inr rfl
  | _ => exact .inl rfl

theorem awaitBlock_parting {parting : List (List UInt8)} {ending : Ending}
    (h : awaitBlock toLowercase cfg blksize chunk p turn = .stop ending parting) :
    parting = [] ∨ parting = [timedOut] := by
  cases hack : acks toLowercase p turn with
  | true =>
    rw [awaitBlock_acked hack] at h
    split at h
    · cases h
      exact .inl rfl
    · cases h
  | false =>
    rw [awaitBlock_unacked hack] at h
    rcases backOff_parting h with hnone | hparting
    · exact .inl hnone
    · rw [hparting]
      split
      · exact .inr rfl
      · exact .inl rfl

/-- A transfer sends blocks of the file, and an ERROR when it times out. -/
theorem transferLoop_packets {packet : List UInt8}
    (h : packet ∈ (transferLoop toLowercase cfg data blksize p turns).packets) :
    (∃ k, packet = packetAt data blksize.toNat k) ∨ packet = timedOut := by
  induction turns generalizing p with
  | nil =>
    rw [transferLoop] at h
    split at h
    · cases h
    · rename_i chunk hchunk
      exact .inl ⟨_, (List.mem_singleton.1 h).trans (encodeData_chunkAt hchunk)⟩
  | cons turn turns ih =>
    cases hchunk : chunkAt data blksize.toNat p.current with
    | none =>
      rw [transferLoop, hchunk] at h
      cases h
    | some chunk =>
      by_cases hsent : turn = .sendFails
      · rw [hsent, transferLoop, hchunk] at h
        cases h
      · rw [transferLoop_cons hchunk hsent] at h
        cases hnext : awaitBlock toLowercase cfg blksize chunk p turn with
        | loop p' =>
          rw [hnext] at h
          rcases List.mem_cons.1 h with rfl | hrest
          · exact .inl ⟨_, encodeData_chunkAt hchunk⟩
          · exact ih hrest
        | stop ending parting =>
          rw [hnext] at h
          rcases List.mem_cons.1 h with rfl | hrest
          · exact .inl ⟨_, encodeData_chunkAt hchunk⟩
          · rcases awaitBlock_parting hnext with rfl | rfl
            · cases hrest
            · exact .inr (List.mem_singleton.1 hrest)

end XBoot.Tftp
