import XBoot.TftpDuplicates
import XBoot.TftpOptions
import XBoot.TftpPeers
import Mathlib.Logic.Relation

/-!
# Downloads

A transfer and the client that has asked for it, over a network that loses, delays, reorders and
duplicates packets. The client puts the file together from the blocks that it hears, and acknowledges
only what it holds.
-/

namespace XBoot.Tftp

open ListSlices BigEndian Numerals Relation

/-- A client of a transfer: the block size, once the client knows it, and the payloads so far. -/
structure Download where
  blockSize : Option ℕ
  received : List (List UInt8)

namespace Download

/-- A client that has asked for no options knows the block size. -/
def start (options : List (String × String)) : Download :=
  ⟨if options = [] then some 512 else none, []⟩

/-- A payload that is not full is the last one. -/
def finished (d : Download) : Bool :=
  match d.blockSize, d.received.getLast? with
  | some n, some last => decide (last.length < n)
  | _, _ => false

/-- The block size of an acknowledgement of options, or 512. -/
def ackedSize (acked : List (String × String)) : ℕ :=
  ((acked.lookup "blksize").bind (parseUnsigned 16)).getD 512

/-- The client takes the OACK for which it waits, and then the block that comes next. -/
def receive (d : Download) (packet : List UInt8) : Download :=
  match d.blockSize with
  | none => match readOack packet with
    | some acked => { d with blockSize := some (ackedSize acked) }
    | none => d
  | some _ =>
    if isData packet = true ∧
        UInt16.ofNat (ofBe (slice packet 2 2)) = UInt16.ofNat (d.received.length + 1) ∧
        d.finished = false then
      { d with received := d.received ++ [packet.drop 4] }
    else d

/-- The numbers that the client may acknowledge: those of its blocks, and 0 for the OACK. -/
def Acknowledges (d : Download) (m : ℕ) : Prop := d.blockSize.isSome ∧ m ≤ d.received.length

end Download

/-- A server that has been through some turns, its client, and the numbers that the client has
acknowledged. What was sent may arrive at any time, or never, or again and again. -/
structure Exchange where
  turns : List Turn
  client : Download
  acked : List ℕ

namespace Exchange

section

variable (toLowercase : String → String) (cfg : TftpServer) (peer : SocketAddr) (data : List UInt8)
  (options : List (String × String))

def transfer (ex : Exchange) : Transfer := sendFile toLowercase cfg data options ex.turns

def start : Exchange := ⟨[], .start options, []⟩

inductive Step : Exchange → Exchange → Prop
  | hears {ex : Exchange} {packet : List UInt8}
      (hsent : packet ∈ (ex.transfer toLowercase cfg data options).packets) :
      Step ex { ex with client := ex.client.receive packet }
  | acknowledges {ex : Exchange} {m : ℕ} (hholds : ex.client.Acknowledges m) :
      Step ex { ex with acked := m :: ex.acked }
  | serves {ex : Exchange} {m : ℕ} (hsent : m ∈ ex.acked) :
      Step ex { ex with turns := ex.turns ++ [.datagram peer (encodeAck (UInt16.ofNat m))] }
  | receiveFails {ex : Exchange} : Step ex { ex with turns := ex.turns ++ [.receiveFails] }
  | timesOut {ex : Exchange} : Step ex { ex with turns := ex.turns ++ [.timesOut] }

/-- What any run leads to. -/
def Reaches (ex : Exchange) : Prop :=
  ReflTransGen (Step toLowercase cfg peer data options) (start options) ex

end

end Exchange

/-- A turn that brings the acknowledgement of one of these numbers, or nothing. -/
def Hears (holds : ℕ → Prop) : Turn → Prop
  | .datagram _ bytes => ∃ m, holds m ∧ bytes = encodeAck (UInt16.ofNat m)
  | .sendFails => False
  | _ => True

/-- What a turn leads to when no number above `r` is acknowledged: the server is at most one block
ahead of the acknowledgements, and done after all of them. -/
def Next.Within (cfg : TftpServer) (last r : ℕ) : Next → Prop
  | .loop q => ∃ j ≤ last, j ≤ r ∧ Sends cfg j q
  | .stop ending parting =>
    (ending = .acknowledged → last < r) ∧ (parting = [] ∨ parting = [timedOut])

/-- The packets that a client with `r` blocks may have been sent. -/
def SentUpTo (data : List UInt8) (blockSize r : ℕ) (packet : List UInt8) : Prop :=
  (∃ j ≤ r, j ≤ data.length / blockSize ∧ packet = packetAt data blockSize j) ∨ packet = timedOut

variable {toLowercase : String → String} {cfg : TftpServer} {peer : SocketAddr} {data : List UInt8}
  {options : List (String × String)} {blksize : UInt16} {p q : Progress} {turn : Turn}
  {turns : List Turn} {k r : ℕ} {holds : ℕ → Prop}

theorem Hears.ne_sendFails (h : Hears holds turn) : turn ≠ .sendFails := by
  rintro rfl
  exact h

theorem Hears.mono {holds' : ℕ → Prop} (h : Hears holds turn) (himp : ∀ m, holds m → holds' m) :
    Hears holds' turn := by
  cases turn with
  | datagram source bytes =>
    obtain ⟨m, hm, hbytes⟩ := h
    exact ⟨m, himp m hm, hbytes⟩
  | sendFails => exact h
  | receiveFails => trivial
  | timesOut => trivial

theorem ofNat_inj_of_le {a b : ℕ} (ha : a ≤ 65535) (hb : b ≤ 65535)
    (h : UInt16.ofNat a = UInt16.ofNat b) : a = b := by
  have hsame := congrArg UInt16.toNat h
  rwa [UInt16.toNat_ofNat_of_lt' (by rw [UInt16.size]; omega),
    UInt16.toNat_ofNat_of_lt' (by rw [UInt16.size]; omega)] at hsame

theorem Hears.lt_of_acks (h : Hears (· ≤ r) turn) (hr : r ≤ 65535) (hk : k < 65535)
    (hsends : Sends cfg k p) (hack : acks toLowercase p turn = true) : k < r := by
  cases turn with
  | datagram source bytes =>
    obtain ⟨m, hm, hbytes⟩ := h
    have hparse : received toLowercase bytes = .ok (.ack p.current) := of_decide_eq_true hack
    rw [hbytes, received, parse_encodeAck, hsends.current_eq] at hparse
    have hnumber : UInt16.ofNat m = UInt16.ofNat (k + 1) := by
      injection hparse with hpacket
      injection hpacket
    have heq := ofNat_inj_of_le (hm.trans hr) (by omega) hnumber
    omega
  | _ => cases hack

section

variable (hsize : 0 < blksize.toNat) (hsmall : data.length / blksize.toNat < 65535) (hr : r ≤ 65535)

include hsize hsmall hr

theorem awaitBlock_within (hk : k ≤ data.length / blksize.toNat) (hkr : k ≤ r)
    (hsends : Sends cfg k p) (hturn : Hears (· ≤ r) turn) :
    (awaitBlock toLowercase cfg blksize (slice data (k * blksize.toNat) blksize.toNat) p turn).Within
      cfg (data.length / blksize.toNat) r := by
  have hnext : TurnsTo toLowercase cfg data blksize k p turn _ :=
    turnsTo hsize (by omega) hk hsends turn
  generalize awaitBlock toLowercase cfg blksize _ p turn = next at hnext ⊢
  cases hnext with
  | acknowledged hack hlast =>
    exact ⟨fun _ => hlast ▸ hturn.lt_of_acks hr (by omega) hsends hack, .inl rfl⟩
  | @onward q hack hmore hq _ => exact ⟨k + 1, hmore, hturn.lt_of_acks hr (by omega) hsends hack, hq⟩
  | @again q _ _ hq _ => exact ⟨k, hk, hkr, hq⟩
  | reports => exact ⟨nofun, .inr rfl⟩
  | silent _ hend => exact ⟨fun hack => absurd hack hend.1, .inl rfl⟩

theorem transferLoop_within (hk : k ≤ data.length / blksize.toNat) (hkr : k ≤ r)
    (hsends : Sends cfg k p) (hturns : ∀ turn ∈ turns, Hears (· ≤ r) turn) :
    (∀ packet ∈ (transferLoop toLowercase cfg data blksize p turns).packets,
      SentUpTo data blksize.toNat r packet) ∧
    ((transferLoop toLowercase cfg data blksize p turns).ending = .acknowledged →
      data.length / blksize.toNat < r) := by
  induction turns generalizing k p with
  | nil =>
    rw [transferLoop, chunkAt_sends hsize (by omega) hk hsends]
    dsimp only
    rw [packet_eq hsends]
    exact ⟨List.forall_mem_singleton.2 (.inl ⟨k, hkr, hk, rfl⟩), Ending.noConfusion⟩
  | cons turn turns ih =>
    obtain ⟨hturn, hrest⟩ := List.forall_mem_cons.1 hturns
    have hnext : (awaitBlock toLowercase cfg blksize _ p turn).Within cfg _ r :=
      awaitBlock_within hsize hsmall hr hk hkr hsends hturn
    rw [transferLoop_cons (chunkAt_sends hsize (by omega) hk hsends) hturn.ne_sendFails,
      packet_eq hsends]
    generalize awaitBlock toLowercase cfg blksize _ p turn = next at hnext ⊢
    have hhere : SentUpTo data blksize.toNat r (packetAt data blksize.toNat k) :=
      .inl ⟨k, hkr, hk, rfl⟩
    cases next with
    | loop q =>
      obtain ⟨j, hj, hjr, hq⟩ := hnext
      obtain ⟨hpackets, hend⟩ := ih hj hjr hq hrest
      exact ⟨List.forall_mem_cons.2 ⟨hhere, hpackets⟩, hend⟩
    | stop ending parting =>
      obtain ⟨hend, hparting⟩ := hnext
      refine ⟨List.forall_mem_cons.2 ⟨hhere, ?_⟩, hend⟩
      rcases hparting with rfl | rfl
      · exact List.forall_mem_nil _
      · exact List.forall_mem_singleton.2 (.inr rfl)

theorem progressAfter_within (hk : k ≤ data.length / blksize.toNat) (hkr : k ≤ r)
    (hsends : Sends cfg k p) (hturns : ∀ turn ∈ turns, Hears (· ≤ r) turn)
    (h : progressAfter toLowercase cfg data blksize p turns = some q) :
    ∃ j ≤ data.length / blksize.toNat, j ≤ r ∧ Sends cfg j q := by
  induction turns generalizing k p with
  | nil =>
    cases h
    exact ⟨k, hk, hkr, hsends⟩
  | cons turn turns ih =>
    obtain ⟨hturn, hrest⟩ := List.forall_mem_cons.1 hturns
    rw [progressAfter_cons] at h
    obtain ⟨p', hstep, hrun⟩ := Option.bind_eq_some_iff.1 h
    have hnext : (awaitBlock toLowercase cfg blksize _ p turn).Within cfg _ r :=
      awaitBlock_within hsize hsmall hr hk hkr hsends hturn
    rw [goesOn_eq (chunkAt_sends hsize (by omega) hk hsends) hturn.ne_sendFails] at hstep
    generalize awaitBlock toLowercase cfg blksize _ p turn = next at hnext hstep
    cases next with
    | loop q' =>
      cases hstep
      obtain ⟨j, hj, hjr, hq⟩ := hnext
      exact ih hj hjr hq hrest hrun
    | stop ending parting => cases hstep

end

section

variable (hblksize : blksize = UInt16.ofNat (negotiateBlksize cfg.maxBlksize options))
  (hsize : 0 < blksize.toNat) (hsmall : data.length / blksize.toNat < 65535) (hr : r ≤ 65535)

include hblksize hsize hsmall hr

theorem sendFile_within (hturns : ∀ turn ∈ turns, Hears (· ≤ r) turn) :
    (∀ packet ∈ (sendFile toLowercase cfg data options turns).packets,
      packet = oackPacket cfg data options ∨ SentUpTo data blksize.toNat r packet) ∧
    ((sendFile toLowercase cfg data options turns).ending = .acknowledged →
      data.length / blksize.toNat < r) := by
  have hloop {turns : List Turn} (hturns : ∀ turn ∈ turns, Hears (· ≤ r) turn) :
      (∀ packet ∈ (transferBlocks toLowercase cfg data blksize turns).packets,
        SentUpTo data blksize.toNat r packet) ∧
      ((transferBlocks toLowercase cfg data blksize turns).ending = .acknowledged →
        data.length / blksize.toNat < r) :=
    transferLoop_within hsize hsmall hr (Nat.zero_le _) (Nat.zero_le _) ⟨rfl, Nat.zero_le _⟩ hturns
  unfold sendFile
  rw [← hblksize]
  split
  · obtain ⟨hpackets, hend⟩ := hloop hturns
    exact ⟨fun packet hpacket => .inr (hpackets packet hpacket), hend⟩
  · split
    · exact ⟨List.forall_mem_singleton.2 (.inl rfl), nofun⟩
    · exact ⟨nofun, nofun⟩
    · split
      · obtain ⟨hpackets, hend⟩ := hloop (List.forall_mem_cons.1 hturns).2
        exact ⟨List.forall_mem_cons.2 ⟨.inl rfl, fun packet hpacket => .inr (hpackets packet hpacket)⟩,
          hend⟩
      · exact ⟨List.forall_mem_singleton.2 (.inl rfl), nofun⟩
    · exact ⟨List.forall_mem_singleton.2 (.inl rfl), nofun⟩

/-- A server that still waits has just sent its OACK or a block, and goes on from there. -/
theorem sendFile_waits (hturns : ∀ turn ∈ turns, Hears (· ≤ r) turn)
    (hwait : (sendFile toLowercase cfg data options turns).ending = .waiting) :
    options ≠ [] ∧ turns = [] ∨
      ∃ k ≤ data.length / blksize.toNat, k ≤ r ∧ ∃ q, Sends cfg k q ∧ ∃ sent, ∀ rest,
        sendFile toLowercase cfg data options (turns ++ rest) =
          (transferLoop toLowercase cfg data blksize q rest).afterAll sent := by
  have hloop {turns : List Turn} (hturns : ∀ turn ∈ turns, Hears (· ≤ r) turn)
      (hwait : (transferBlocks toLowercase cfg data blksize turns).ending = .waiting) :
      ∃ k ≤ data.length / blksize.toNat, k ≤ r ∧ ∃ q, Sends cfg k q ∧ ∃ sent, ∀ rest,
        transferBlocks toLowercase cfg data blksize (turns ++ rest) =
          (transferLoop toLowercase cfg data blksize q rest).afterAll sent := by
    cases hprogress : progressAfter toLowercase cfg data blksize (.start cfg) turns with
    | none => exact absurd hwait (transferLoop_ended hprogress).1
    | some q =>
      obtain ⟨sent, -, happend⟩ := transferLoop_append hprogress
      obtain ⟨k, hk, hkr, hq⟩ := progressAfter_within hsize hsmall hr (Nat.zero_le _)
        (Nat.zero_le _) ⟨rfl, Nat.zero_le _⟩ hturns hprogress
      exact ⟨k, hk, hkr, q, hq, sent, happend⟩
  by_cases hopt : options = []
  · have hsame : ∀ turns, sendFile toLowercase cfg data options turns =
        transferBlocks toLowercase cfg data blksize turns := fun turns => by
      unfold sendFile
      rw [if_pos hopt, hblksize]
    simp only [hsame] at hwait ⊢
    exact .inr (hloop hturns hwait)
  · cases turns with
    | nil => exact .inl ⟨hopt, rfl⟩
    | cons turn turns =>
      by_cases hzero : acks toLowercase { current := 0, retries := 0, timeout := 0 } turn = true
      · have hsame : ∀ turns, sendFile toLowercase cfg data options (turn :: turns) =
            (transferBlocks toLowercase cfg data blksize turns).after
              (oackPacket cfg data options) := fun turns => by
          cases turn with
          | datagram source bytes =>
            unfold sendFile
            rw [if_neg hopt, hblksize]
            exact if_pos (of_decide_eq_true hzero)
          | _ => cases hzero
        rw [hsame] at hwait
        obtain ⟨k, hk, hkr, q, hq, sent, happend⟩ := hloop (List.forall_mem_cons.1 hturns).2 hwait
        refine .inr ⟨k, hk, hkr, q, hq, oackPacket cfg data options :: sent, fun rest => ?_⟩
        rw [List.cons_append, hsame, happend]
        rfl
      · unfold sendFile at hwait
        rw [if_neg hopt] at hwait
        cases turn with
        | datagram source bytes =>
          have hother : received toLowercase bytes ≠ .ok (.ack 0) := fun hack =>
            hzero (decide_eq_true hack)
          dsimp only at hwait
          rw [if_neg hother] at hwait
          cases hwait
        | _ => cases hwait

end

/-- What a client of a transfer holds: the first blocks of the file. -/
structure Holds (data : List UInt8) (options : List (String × String)) (blksize : UInt16)
    (d : Download) : Prop where
  blockSize_eq : ∀ n, d.blockSize = some n → n = blksize.toNat
  unsized : d.blockSize = none → options ≠ [] ∧ d.received = []
  received_eq : d.received = (List.range d.received.length).map fun j =>
    slice data (j * blksize.toNat) blksize.toNat
  length_le : d.received.length ≤ data.length / blksize.toNat + 1

theorem Holds.finished_iff {d : Download} (h : Holds data options blksize d)
    (hsize : 0 < blksize.toNat) (hknown : d.blockSize.isSome) :
    d.finished = true ↔ d.received.length = data.length / blksize.toNat + 1 := by
  obtain ⟨n, hn⟩ := Option.isSome_iff_exists.1 hknown
  have hle := h.length_le
  rw [Download.finished, hn, h.blockSize_eq n hn]
  cases hcount : d.received.length with
  | zero =>
    rw [List.length_eq_zero_iff.1 hcount]
    simp
  | succ k =>
    rw [h.received_eq, hcount, List.range_succ, List.map_append, List.map_singleton,
      List.getLast?_concat]
    dsimp only
    rw [decide_eq_true_eq, length_block hsize (by omega)]
    omega

theorem Holds.flatten_eq {d : Download} (h : Holds data options blksize d) :
    d.received.flatten = data.take (d.received.length * blksize.toNat) := by
  rw [h.received_eq, flatten_blocks, List.length_map, List.length_range]

theorem ackedSize_oackOptions {n : ℕ} (hn : n < 2 ^ 16) (size : ℕ) :
    Download.ackedSize (oackOptions n size options) = n := by
  have hlookup : (oackOptions n size options).lookup "blksize" = some (toString n) := rfl
  rw [Download.ackedSize, hlookup, Option.bind_some, parseUnsigned_toString hn, Option.getD_some]

theorem number_packetAt (blockSize j : ℕ) :
    UInt16.ofNat (ofBe (slice (packetAt data blockSize j) 2 2)) = UInt16.ofNat (j + 1) := by
  have hfield : slice (packetAt data blockSize j) 2 2 = toBe 2 (UInt16.ofNat (j + 1)).toNat := by
    simp [packetAt, encodeData, slice, toBe]
  rw [hfield, ofBe_toBe_of_lt (UInt16.toNat_lt _), UInt16.ofNat_toNat]

theorem payload_packetAt (blockSize j : ℕ) :
    (packetAt data blockSize j).drop 4 = slice data (j * blockSize) blockSize :=
  List.drop_left' (by simp)

theorem Download.receive_grows (d : Download) (packet : List UInt8) :
    d.received.length ≤ (d.receive packet).received.length ∧
      (d.blockSize.isSome → (d.receive packet).blockSize.isSome) := by
  unfold Download.receive
  split
  · rename_i hunknown
    rw [hunknown]
    split
    · exact ⟨Nat.le_refl _, nofun⟩
    · exact ⟨Nat.le_refl _, nofun⟩
  · split
    · exact ⟨by simp, id⟩
    · exact ⟨Nat.le_refl _, id⟩

theorem Download.Acknowledges.receive {d : Download} {m : ℕ} (h : d.Acknowledges m)
    (packet : List UInt8) : (d.receive packet).Acknowledges m := by
  obtain ⟨hlength, hknown⟩ := d.receive_grows packet
  exact ⟨hknown h.1, h.2.trans hlength⟩

/-- What a client makes of the packets that it may have been sent. -/
theorem Holds.receive {d : Download} {packet : List UInt8} (h : Holds data options blksize d)
    (hblksize : blksize = UInt16.ofNat (negotiateBlksize cfg.maxBlksize options))
    (hsize : 0 < blksize.toNat) (hsmall : data.length / blksize.toNat < 65535)
    (hsent : packet = oackPacket cfg data options ∨
      SentUpTo data blksize.toNat d.received.length packet) :
    Holds data options blksize (d.receive packet) := by
  have hle := h.length_le
  unfold Download.receive
  split
  · rcases hsent with rfl | hother
    · have hlt := negotiateBlksize_lt cfg.maxBlksize options
      rw [readOack_oackPacket]
      dsimp only
      rw [ackedSize_oackOptions hlt]
      refine ⟨fun n hn => ?_, nofun, h.received_eq, hle⟩
      rw [hblksize, UInt16.toNat_ofNat_of_lt' hlt]
      exact (Option.some.inj hn).symm
    · rw [readOack_other (hother.imp (fun ⟨j, _, _, hj⟩ => ⟨j, hj⟩) id)]
      exact h
  · rename_i hknown
    split
    · rename_i hnext
      obtain ⟨hdata, hnumber, hopen⟩ := hnext
      rcases hsent with rfl | ⟨j, hj, hlast, rfl⟩ | rfl
      · rw [isData_oackPacket] at hdata
        cases hdata
      · have hmore : d.received.length ≠ data.length / blksize.toNat + 1 := fun heq => by
          have hdone := (h.finished_iff hsize (by rw [hknown]; rfl)).2 heq
          rw [hdone] at hopen
          cases hopen
        rw [number_packetAt] at hnumber
        have heq := ofNat_inj_of_le (by omega) (by omega) hnumber
        obtain rfl : j = d.received.length := by omega
        refine ⟨h.blockSize_eq, fun hunknown => (nomatch hknown.symm.trans hunknown), ?_, ?_⟩
        · dsimp only
          rw [List.length_append, List.length_singleton, List.range_succ, List.map_append,
            ← h.received_eq, payload_packetAt]
          rfl
        · dsimp only
          rw [List.length_append, List.length_singleton]
          omega
      · rw [isData_timedOut] at hdata
        cases hdata
    · exact h

/-- A client that lacks only the next block takes it. -/
theorem Holds.receive_next {d : Download} (h : Holds data options blksize d)
    (hsize : 0 < blksize.toNat) (hknown : d.blockSize.isSome)
    (hmore : d.received.length ≤ data.length / blksize.toNat) :
    (d.receive (packetAt data blksize.toNat d.received.length)).received.length =
      d.received.length + 1 := by
  have hopen : d.finished = false := by
    rw [Bool.eq_false_iff]
    intro hdone
    have heq := (h.finished_iff hsize hknown).1 hdone
    omega
  obtain ⟨n, hn⟩ := Option.isSome_iff_exists.1 hknown
  have hnumber : UInt16.ofNat (ofBe (slice (packetAt data blksize.toNat d.received.length) 2 2)) =
      UInt16.ofNat (d.received.length + 1) := number_packetAt _ _
  rw [Download.receive, hn]
  dsimp only
  rw [if_pos ⟨isData_encodeData _ _, hnumber, hopen⟩]
  exact List.length_append

namespace Exchange

/-- The server has heard nothing but acknowledgements of what the client holds. -/
structure Agrees (data : List UInt8) (options : List (String × String)) (blksize : UInt16)
    (ex : Exchange) : Prop where
  holds : Holds data options blksize ex.client
  acked : ∀ m ∈ ex.acked, ex.client.Acknowledges m
  turns : ∀ turn ∈ ex.turns, Hears (· ≤ ex.client.received.length) turn

section

variable {ex ex' : Exchange}
  (hblksize : blksize = UInt16.ofNat (negotiateBlksize cfg.maxBlksize options))
  (hsize : 0 < blksize.toNat) (hsmall : data.length / blksize.toNat < 65535)

include hblksize hsize hsmall

theorem Step.agrees (hstep : Step toLowercase cfg peer data options ex ex')
    (h : Agrees data options blksize ex) : Agrees data options blksize ex' := by
  have hr : ex.client.received.length ≤ 65535 := h.holds.length_le.trans hsmall
  have hserve {turn : Turn} (hturn : Hears (· ≤ ex.client.received.length) turn) :
      ∀ t ∈ ex.turns ++ [turn], Hears (· ≤ ex.client.received.length) t :=
    List.forall_mem_append.2 ⟨h.turns, List.forall_mem_singleton.2 hturn⟩
  cases hstep with
  | hears hsent =>
    exact ⟨h.holds.receive hblksize hsize hsmall
        ((sendFile_within hblksize hsize hsmall hr h.turns).1 _ hsent),
      fun m hm => (h.acked m hm).receive _,
      fun turn hturn => (h.turns turn hturn).mono fun m hm =>
        hm.trans (ex.client.receive_grows _).1⟩
  | acknowledges hm => exact ⟨h.holds, List.forall_mem_cons.2 ⟨hm, h.acked⟩, h.turns⟩
  | @serves m hm => exact ⟨h.holds, h.acked, hserve ⟨m, (h.acked m hm).2, rfl⟩⟩
  | receiveFails => exact ⟨h.holds, h.acked, hserve trivial⟩
  | timesOut => exact ⟨h.holds, h.acked, hserve trivial⟩

theorem Reaches.agrees (h : Reaches toLowercase cfg peer data options ex) :
    Agrees data options blksize ex := by
  induction h with
  | refl =>
    refine ⟨⟨fun n hn => ?_, fun hunknown => ⟨fun hnone => ?_, rfl⟩, rfl, Nat.zero_le _⟩, nofun, nofun⟩
    · by_cases hnone : options = []
      · subst hnone
        cases hn
        rw [hblksize]
        rfl
      · rw [start, Download.start, if_neg hnone] at hn
        cases hn
    · rw [start, Download.start, if_pos hnone] at hunknown
      cases hunknown
  | tail _ hstep ih => exact hstep.agrees hblksize hsize hsmall ih

end

variable {ex ex' : Exchange}

/-- A client that has finished has the whole file. -/
theorem Agrees.whole (h : Agrees data options blksize ex) (hsize : 0 < blksize.toNat)
    (hdone : ex.client.finished = true) : ex.client.received.flatten = data := by
  have hknown : ex.client.blockSize.isSome := by
    rw [Download.finished] at hdone
    split at hdone
    · rename_i hknown _
      rw [hknown]
      rfl
    · cases hdone
  rw [h.holds.flatten_eq, (h.holds.finished_iff hsize hknown).1 hdone]
  exact List.take_of_length_le (Nat.lt_mul_of_div_lt (Nat.lt_succ_self _) hsize).le

/-- The size of the blocks, below the number's wrap. -/
theorem blksize_facts (hwrap : data.length < 65535 * negotiateBlksize cfg.maxBlksize options) :
    (UInt16.ofNat (negotiateBlksize cfg.maxBlksize options)).toNat =
        negotiateBlksize cfg.maxBlksize options ∧
      0 < negotiateBlksize cfg.maxBlksize options ∧
      data.length / negotiateBlksize cfg.maxBlksize options < 65535 := by
  have hpos : 0 < negotiateBlksize cfg.maxBlksize options :=
    Nat.pos_of_mul_pos_left (Nat.zero_lt_of_lt hwrap)
  exact ⟨UInt16.toNat_ofNat_of_lt' (negotiateBlksize_lt _ _), hpos, (Nat.div_lt_iff_lt_mul hpos).2 hwrap⟩

/-- However the network treats the packets, the client has the first blocks of the file, the whole
file when it has finished, and has finished when the server's transfer is acknowledged. -/
theorem download_agrees (hwrap : data.length < 65535 * negotiateBlksize cfg.maxBlksize options)
    (h : Reaches toLowercase cfg peer data options ex) :
    ex.client.received.flatten <+: data ∧
      (ex.client.finished = true → ex.client.received.flatten = data) ∧
      ((ex.transfer toLowercase cfg data options).ending = .acknowledged →
        ex.client.finished = true) := by
  obtain ⟨hnat, hpos, hsmall⟩ := blksize_facts hwrap
  rw [← hnat] at hpos hsmall
  have hagrees := h.agrees rfl hpos hsmall
  refine ⟨?_, hagrees.whole hpos, fun hend => ?_⟩
  · rw [hagrees.holds.flatten_eq]
    exact List.take_prefix _ _
  · have hlt := (sendFile_within rfl hpos hsmall (hagrees.holds.length_le.trans hsmall)
      hagrees.turns).2 hend
    have hle := hagrees.holds.length_le
    have hknown : ex.client.blockSize.isSome := by
      cases hunknown : ex.client.blockSize with
      | none =>
        rw [(hagrees.holds.unsized hunknown).2] at hlt
        cases hlt
      | some n => rfl
    exact (hagrees.holds.finished_iff hpos hknown).2 (by omega)

/-- The timer fires once, and the client puts a file of one short block together. -/
theorem repeated_block_agrees :
    Reaches id TftpServer.new ⟨.v4 0, 0⟩ [7] [] ⟨[.timesOut], ⟨some 512, [[7]]⟩, [1]⟩ ∧
      (Download.mk (some 512) [[7]]).received.flatten <+: [7] := by
  have hblock : encodeData 1 [7] ∈ (sendFile id TftpServer.new [7] [] [.timesOut]).packets :=
    List.mem_cons_self
  have hreach : Reaches id TftpServer.new ⟨.v4 0, 0⟩ [7] [] ⟨[.timesOut], ⟨some 512, [[7]]⟩, [1]⟩ :=
    ((ReflTransGen.single .timesOut).tail (.hears hblock)).tail (.acknowledges ⟨rfl, Nat.le_refl _⟩)
  exact ⟨hreach, (download_agrees (by decide) hreach).1⟩

section

variable (toLowercase cfg data options blksize)

/-- The server is sending the block with index `k`. -/
def Sending (ex : Exchange) (k : ℕ) : Prop :=
  ∃ q, Sends cfg k q ∧ ∃ sent, ∀ rest,
    sendFile toLowercase cfg data options (ex.turns ++ rest) =
      (transferLoop toLowercase cfg data blksize q rest).afterAll sent

end

section

variable (hblksize : blksize = UInt16.ofNat (negotiateBlksize cfg.maxBlksize options))
  (hsize : 0 < blksize.toNat) (hsmall : data.length / blksize.toNat < 65535)

include hblksize hsize hsmall

/-- The block that is being sent can still arrive. -/
theorem hears_block (peer : SocketAddr) (h : Agrees data options blksize ex)
    (hknown : ex.client.blockSize.isSome) (hk : k ≤ data.length / blksize.toNat)
    (hkr : k ≤ ex.client.received.length)
    (hsending : Sending toLowercase cfg data options blksize ex k) :
    ∃ ex', ReflTransGen (Step toLowercase cfg peer data options) ex ex' ∧ ex'.turns = ex.turns ∧
      Agrees data options blksize ex' ∧ ex'.client.Acknowledges (k + 1) := by
  by_cases hheld : k < ex.client.received.length
  · exact ⟨ex, .refl, rfl, h, hknown, hheld⟩
  · obtain rfl : k = ex.client.received.length := by omega
    obtain ⟨q, hq, sent, hrest⟩ := hsending
    have hflight : packetAt data blksize.toNat ex.client.received.length ∈
        (ex.transfer toLowercase cfg data options).packets := by
      have hnow := hrest []
      rw [List.append_nil] at hnow
      rw [transfer, hnow, transferLoop, chunkAt_sends hsize (by omega) hk hq]
      exact List.mem_append_right _ (List.mem_singleton.2 (packet_eq hq).symm)
    have hstep : Step toLowercase cfg peer data options ex _ := .hears hflight
    exact ⟨_, .single hstep, rfl, hstep.agrees hblksize hsize hsmall h,
      (ex.client.receive_grows _).2 hknown, (h.holds.receive_next hsize hknown hk).ge⟩

omit hblksize in
/-- The block that is being sent is acknowledged, and the next one follows if there is one. -/
theorem Sending.acknowledged (hsending : Sending toLowercase cfg data options blksize ex k)
    (hk : k ≤ data.length / blksize.toNat)
    (hturns : ex'.turns = ex.turns ++ [.datagram peer (encodeAck (UInt16.ofNat (k + 1)))]) :
    k = data.length / blksize.toNat ∧
        (ex'.transfer toLowercase cfg data options).ending = .acknowledged ∨
      k < data.length / blksize.toNat ∧ Sending toLowercase cfg data options blksize ex' (k + 1) := by
  obtain ⟨q, hq, sent, hrest⟩ := hsending
  generalize hbytes : encodeAck (UInt16.ofNat (k + 1)) = bytes at hturns
  have hack : acks toLowercase q (.datagram peer bytes) = true := by
    refine decide_eq_true ?_
    rw [← hbytes, received, parse_encodeAck, hq.current_eq]
  have hall (rest : List Turn) : sendFile toLowercase cfg data options (ex'.turns ++ rest) =
      ((awaitBlock toLowercase cfg blksize (slice data (k * blksize.toNat) blksize.toNat) q
        (.datagram peer bytes)).finish (packetAt data blksize.toNat k) fun q' =>
          transferLoop toLowercase cfg data blksize q' rest).afterAll sent := by
    rw [hturns, List.append_assoc, List.singleton_append, hrest, ← packet_eq hq]
    exact congrArg _ (transferLoop_cons (chunkAt_sends hsize (by omega) hk hq) Turn.noConfusion)
  rw [awaitBlock_acked hack] at hall
  have hlast : (slice data (k * blksize.toNat) blksize.toNat).length < blksize.toNat ↔ _ :=
    length_block hsize hk
  by_cases hend : k = data.length / blksize.toNat
  · refine .inl ⟨hend, ?_⟩
    have hnow := hall []
    rw [if_pos (hlast.2 hend), List.append_nil] at hnow
    rw [transfer, hnow]
    rfl
  · refine .inr ⟨by omega, { current := q.current + 1, retries := 0, timeout := cfg.transferTimeout },
      ⟨?_, Nat.zero_le _⟩, sent ++ [packetAt data blksize.toNat k], fun rest => ?_⟩
    · rw [hq.current_eq, UInt16.ofNat_add (k + 1) 1]
      rfl
    · rw [hall, if_neg (mt hlast.1 hend)]
      simp [Next.finish, Transfer.after, Transfer.afterAll]

/-- From a block that is being sent on, the rest of the file can still arrive. -/
theorem Sending.finishes {n : ℕ} (hn : n = data.length / blksize.toNat - k)
    (hsending : Sending toLowercase cfg data options blksize ex k)
    (h : Agrees data options blksize ex) (hknown : ex.client.blockSize.isSome)
    (hk : k ≤ data.length / blksize.toNat) (hkr : k ≤ ex.client.received.length) :
    ∃ ex', ReflTransGen (Step toLowercase cfg peer data options) ex ex' ∧
      (ex'.transfer toLowercase cfg data options).ending = .acknowledged := by
  induction n using Nat.strong_induction_on generalizing k ex with
  | _ n ih =>
    obtain ⟨ex₁, hsteps, hturns, hagrees, hholds⟩ :=
      hears_block hblksize hsize hsmall peer h hknown hk hkr hsending
    have hack : Step toLowercase cfg peer data options ex₁ _ := .acknowledges hholds
    have hserve : Step toLowercase cfg peer data options
        { ex₁ with acked := (k + 1) :: ex₁.acked } _ := .serves List.mem_cons_self
    have hserved := congrArg (· ++ [Turn.datagram peer (encodeAck (UInt16.ofNat (k + 1)))]) hturns
    rcases hsending.acknowledged hsize hsmall hk (show Exchange.turns ⟨_, ex₁.client,
      (k + 1) :: ex₁.acked⟩ = _ from hserved) with ⟨-, hend⟩ | ⟨hmore, hnext⟩
    · exact ⟨_, (hsteps.tail hack).tail hserve, hend⟩
    · have hnextAgrees := hserve.agrees hblksize hsize hsmall
        (hack.agrees hblksize hsize hsmall hagrees)
      obtain ⟨ex', hrest, hend⟩ := ih _ (by omega) rfl hnext hnextAgrees hholds.1 hmore hholds.2
      exact ⟨ex', ((hsteps.tail hack).tail hserve).trans hrest, hend⟩

end

/-- A server that waits has sent its OACK, which tells the client the block size. -/
theorem knows_size (peer : SocketAddr)
    (hblksize : blksize = UInt16.ofNat (negotiateBlksize cfg.maxBlksize options))
    (hsize : 0 < blksize.toNat) (hsmall : data.length / blksize.toNat < 65535)
    (h : Agrees data options blksize ex)
    (hwait : (ex.transfer toLowercase cfg data options).ending = .waiting) :
    ∃ ex', ReflTransGen (Step toLowercase cfg peer data options) ex ex' ∧ ex'.turns = ex.turns ∧
      Agrees data options blksize ex' ∧ ex'.client.blockSize.isSome ∧
      ex.client.received.length ≤ ex'.client.received.length := by
  cases hunknown : ex.client.blockSize with
  | some n => exact ⟨ex, .refl, rfl, h, by rw [hunknown]; rfl, Nat.le_refl _⟩
  | none =>
    have hne := (h.holds.unsized hunknown).1
    have hflight : oackPacket cfg data options ∈ (ex.transfer toLowercase cfg data options).packets := by
      rw [transfer] at hwait ⊢
      unfold sendFile at hwait ⊢
      rw [if_neg hne] at hwait ⊢
      split at hwait
      · exact List.mem_cons_self
      · cases hwait
      · split
        · exact List.mem_cons_self
        · exact List.mem_cons_self
      · cases hwait
    have hstep : Step toLowercase cfg peer data options ex _ := .hears hflight
    refine ⟨_, .single hstep, rfl, hstep.agrees hblksize hsize hsmall h, ?_,
      (ex.client.receive_grows _).1⟩
    dsimp only
    rw [Download.receive, hunknown]
    dsimp only
    rw [readOack_oackPacket]
    rfl

end Exchange

end XBoot.Tftp
