import XBoot.TftpRetries
import Mathlib.Data.List.Dedup

/-!
# Duplicated acknowledgements

A transfer and a client that acknowledges every DATA packet it receives, over a network
that delays, reorders and duplicates what is in flight. Each packet beyond the first of
its block answers a timeout or a stray acknowledgement, one of a block that the server
has left already; the latter is the Sorcerer's Apprentice syndrome.
-/

namespace XBoot.Tftp

open ListSlices BigEndian

section

variable (toLowercase : String → String) (cfg : TftpServer) (data : List UInt8) (blksize : UInt16)

def Progress.start : Progress := { current := 1, retries := 0, timeout := cfg.transferTimeout }

/-- The number of those turns that the loop takes and that are of some kind. -/
def countTurns (kind : Progress → Turn → Bool) : Progress → List Turn → ℕ
  | _, [] => 0
  | p, turn :: turns => (kind p turn).toNat +
      ((goesOn toLowercase cfg data blksize p turn).map fun p' => countTurns kind p' turns).getD 0

/-- Neither a timeout nor the acknowledgement of the block being sent. -/
def isStray (p : Progress) (turn : Turn) : Bool := !turn.isTimeout && !acks toLowercase p turn

def timeoutsFrom (p : Progress) (turns : List Turn) : ℕ :=
  countTurns toLowercase cfg data blksize (fun _ turn => turn.isTimeout) p turns

def straysFrom (p : Progress) (turns : List Turn) : ℕ :=
  countTurns toLowercase cfg data blksize (isStray toLowercase) p turns

end

def distinctBlocks (packets : List (List UInt8)) : ℕ := (packets.filter isData).dedup.length

section

variable {toLowercase : String → String} {cfg : TftpServer} {data : List UInt8} {blksize : UInt16}
  {k : ℕ} {p : Progress} {turn : Turn} {turns : List Turn}

theorem distinctBlocks_again {packets : List (List UInt8)}
    (h : packetAt data blksize.toNat k ∈ packets) :
    distinctBlocks (packetAt data blksize.toNat k :: packets) = distinctBlocks packets := by
  have hblock : isData (packetAt data blksize.toNat k) = true := isData_encodeData _ _
  rw [distinctBlocks, List.filter_cons_of_pos hblock,
    List.dedup_cons_of_mem (List.mem_filter.2 ⟨h, hblock⟩), distinctBlocks]

theorem distinctBlocks_onward {packets : List (List UInt8)}
    (h : packetAt data blksize.toNat k ∉ packets) :
    distinctBlocks (packetAt data blksize.toNat k :: packets) = distinctBlocks packets + 1 := by
  have hblock : isData (packetAt data blksize.toNat k) = true := isData_encodeData _ _
  rw [distinctBlocks, List.filter_cons_of_pos hblock,
    List.dedup_cons_of_notMem fun hmem => h (List.mem_filter.1 hmem).1, List.length_cons,
    distinctBlocks]

/-- The packets of the rest of a transfer, from the block with index `k` on, against the
timeouts and the stray turns in it. -/
structure Tally (data : List UInt8) (blksize : UInt16) (k timeouts strays : ℕ) (t : Transfer) :
    Prop where
  count_le : t.packets.countP isData ≤ distinctBlocks t.packets + timeouts + strays
  count_eq : t.ending = .waiting ∨ t.ending = .acknowledged →
    t.packets.countP isData = distinctBlocks t.packets + timeouts + strays
  blocks_le : distinctBlocks t.packets + k ≤ blockCount data blksize
  blocks_eq : t.ending = .acknowledged → distinctBlocks t.packets + k = blockCount data blksize
  unsent : ∀ j < k, packetAt data blksize.toNat j ∉ t.packets

private theorem unsent_cons (hwrap : k < 65535) {packets : List (List UInt8)}
    (h : ∀ j < k, packetAt data blksize.toNat j ∉ packets) :
    ∀ j < k, packetAt data blksize.toNat j ∉ packetAt data blksize.toNat k :: packets := by
  intro j hj hmem
  rcases List.mem_cons.1 hmem with heq | hrest
  · exact packetAt_ne (by omega) hwrap (Nat.ne_of_lt hj) heq
  · exact h j hj hrest

private theorem tally_stop (hwrap : k < 65535) (hk : k ≤ data.length / blksize.toNat)
    {ending : Ending} {timeouts strays : ℕ}
    (hcount : ending = .waiting ∨ ending = .acknowledged → timeouts + strays = 0)
    (hlast : ending = .acknowledged → k = data.length / blksize.toNat)
    {parting : List (List UInt8)} (hparting : parting = [] ∨ parting = [timedOut]) :
    Tally data blksize k timeouts strays ⟨packetAt data blksize.toNat k :: parting, ending⟩ := by
  have hdata : parting.filter isData = [] := by
    rcases hparting with rfl | rfl
    · rfl
    · exact List.filter_cons_of_neg (by rw [isData_timedOut]; nofun)
  have hblock : isData (packetAt data blksize.toNat k) = true := isData_encodeData _ _
  have hfilter : (packetAt data blksize.toNat k :: parting).filter isData =
      [packetAt data blksize.toNat k] := by
    rw [List.filter_cons_of_pos hblock, hdata]
  have hone : (packetAt data blksize.toNat k :: parting).countP isData = 1 := by
    rw [List.countP_eq_length_filter, hfilter, List.length_singleton]
  have hdistinct : distinctBlocks (packetAt data blksize.toNat k :: parting) = 1 := by
    rw [distinctBlocks, hfilter, (List.nodup_singleton _).dedup, List.length_singleton]
  refine ⟨?_, fun hend => ?_, ?_, fun hack => ?_, unsent_cons hwrap fun j _ hmem => ?_⟩
  · dsimp only
    omega
  · have hnone := hcount hend
    dsimp only
    omega
  · rw [hdistinct, blockCount]
    omega
  · have hend := hlast hack
    rw [hdistinct, blockCount]
    omega
  · rcases hparting with rfl | rfl
    · cases hmem
    · exact packetAt_ne_timedOut (List.mem_singleton.1 hmem)

private theorem Tally.onward (hwrap : k < 65535) {timeouts strays : ℕ} {t : Transfer}
    (h : Tally data blksize (k + 1) timeouts strays t) :
    Tally data blksize k timeouts strays (t.after (packetAt data blksize.toNat k)) := by
  have hdata : isData (packetAt data blksize.toNat k) = true := isData_encodeData _ _
  have hcount := List.countP_cons_of_pos (l := t.packets) hdata
  have hnew := distinctBlocks_onward (h.unsent k (Nat.lt_succ_self k))
  refine ⟨?_, fun hend => ?_, ?_, fun hend => ?_, ?_⟩
  · have hle := h.count_le
    rw [Transfer.after, hcount, hnew]
    omega
  · have heq := h.count_eq hend
    rw [Transfer.after, hcount, hnew]
    omega
  · have hle := h.blocks_le
    rw [Transfer.after, hnew]
    omega
  · have heq := h.blocks_eq hend
    rw [Transfer.after, hnew]
    omega
  · exact unsent_cons hwrap fun j hj => h.unsent j (Nat.lt_succ_of_lt hj)

private theorem Tally.again (hwrap : k < 65535) {timeouts strays timeout stray : ℕ} {t : Transfer}
    (h : Tally data blksize k timeouts strays t)
    (hhead : ∃ more, t.packets = packetAt data blksize.toNat k :: more)
    (hspent : timeout + stray = 1) :
    Tally data blksize k (timeout + timeouts) (stray + strays)
      (t.after (packetAt data blksize.toNat k)) := by
  obtain ⟨more, hpackets⟩ := hhead
  have hdata : isData (packetAt data blksize.toNat k) = true := isData_encodeData _ _
  have hcount := List.countP_cons_of_pos (l := t.packets) hdata
  have hold := distinctBlocks_again (hpackets ▸ List.mem_cons_self)
  refine ⟨?_, fun hend => ?_, ?_, fun hend => ?_, unsent_cons hwrap h.unsent⟩
  · have hle := h.count_le
    rw [Transfer.after, hcount, hold]
    omega
  · have heq := h.count_eq hend
    rw [Transfer.after, hcount, hold]
    omega
  · rw [Transfer.after, hold]
    exact h.blocks_le
  · rw [Transfer.after, hold]
    exact h.blocks_eq hend

private theorem isTimeout_of_acks (h : acks toLowercase p turn = true) : turn.isTimeout = false := by
  cases turn with
  | timesOut => cases h
  | _ => rfl

private theorem isStray_of_acks (h : acks toLowercase p turn = true) :
    isStray toLowercase p turn = false := by
  rw [isStray, h, Bool.not_true, Bool.and_false]

private theorem kinds_of_unacked (h : acks toLowercase p turn = false) :
    turn.isTimeout.toNat + (isStray toLowercase p turn).toNat = 1 := by
  rw [isStray, h, Bool.not_false, Bool.and_true]
  cases turn.isTimeout <;> rfl

private theorem turn_tally (hwrap : k < 65535) (hk : k ≤ data.length / blksize.toNat) {next : Next}
    (hnext : TurnsTo toLowercase cfg data blksize k p turn next) {rest : Progress → Transfer}
    {timeouts strays : Progress → ℕ}
    (ih : ∀ j q, j ≤ data.length / blksize.toNat → j ≤ 65535 → Sends cfg j q →
      Tally data blksize j (timeouts q) (strays q) (rest q) ∧
        (j < 65535 → ∃ more, (rest q).packets = packetAt data blksize.toNat j :: more)) :
    Tally data blksize k (turn.isTimeout.toNat + (next.progress.map timeouts).getD 0)
      ((isStray toLowercase p turn).toNat + (next.progress.map strays).getD 0)
      (next.finish (packetAt data blksize.toNat k) rest) := by
  cases hnext with
  | acknowledged hack hlast =>
    refine tally_stop hwrap hk (fun _ => ?_) (fun _ => hlast) (.inl rfl)
    rw [isTimeout_of_acks hack, isStray_of_acks hack]
    rfl
  | reports =>
    refine tally_stop hwrap hk ?_ ?_ (.inr rfl)
    · rintro (h | h) <;> cases h
    · nofun
  | silent _ hend =>
    exact tally_stop hwrap hk (fun h => absurd h (not_or.2 ⟨hend.2, hend.1⟩))
      (fun h => absurd h hend.1) (.inl rfl)
  | @onward q hack hmore hsends =>
    obtain ⟨htally, -⟩ := ih (k + 1) q hmore (by omega) hsends
    rw [isTimeout_of_acks hack, isStray_of_acks hack]
    simpa [Next.progress, Next.finish] using htally.onward hwrap
  | @again q hother _ hsends =>
    obtain ⟨htally, hhead⟩ := ih k q hk (by omega) hsends
    exact htally.again hwrap (hhead hwrap) (kinds_of_unacked hother)

private theorem wrapped_tally (hk : 65535 ≤ data.length / blksize.toNat) (h : Sends cfg 65535 p)
    (timeouts strays : ℕ) (turns : List Turn) :
    Tally data blksize 65535 timeouts strays (transferLoop toLowercase cfg data blksize p turns) := by
  have hzero : p.current = 0 := h.current_eq
  rw [transferLoop, chunkAt, if_pos hzero]
  refine ⟨Nat.zero_le _, ?_, ?_, by simp, by simp⟩
  · rintro (hend | hend) <;> cases hend
  · exact (Nat.zero_add 65535).le.trans (Nat.le_succ_of_le hk)

theorem transferLoop_tally (hsize : 0 < blksize.toNat) (hwrap : k ≤ 65535)
    (hk : k ≤ data.length / blksize.toNat) (h : Sends cfg k p)
    (hturns : ∀ turn ∈ turns, turn ≠ .sendFails) :
    Tally data blksize k (timeoutsFrom toLowercase cfg data blksize p turns)
      (straysFrom toLowercase cfg data blksize p turns)
      (transferLoop toLowercase cfg data blksize p turns) := by
  induction turns generalizing k p with
  | nil =>
    rcases Nat.eq_or_lt_of_le hwrap with rfl | hwrap
    · exact wrapped_tally hk h _ _ []
    · rw [transferLoop, chunkAt_sends hsize hwrap hk h]
      dsimp only
      rw [packet_eq h]
      refine tally_stop hwrap hk (fun _ => rfl) ?_ (.inl rfl)
      simp
  | cons turn turns ih =>
    rcases Nat.eq_or_lt_of_le hwrap with rfl | hwrap
    · exact wrapped_tally hk h _ _ _
    · have hsent := hturns turn List.mem_cons_self
      have hrest := fun t ht => hturns t (List.mem_cons_of_mem _ ht)
      have hchunk := chunkAt_sends hsize hwrap hk h
      rw [transferLoop_cons hchunk hsent, packet_eq h, timeoutsFrom, straysFrom, countTurns,
        countTurns, goesOn_eq hchunk hsent]
      exact turn_tally hwrap hk (turnsTo hsize hwrap hk h turn) fun j q hj hjwrap hq =>
        ⟨ih hjwrap hj hq hrest, fun hjlt => transferLoop_head hsize hjlt hj hq hrest⟩

end

/-- A server that has been through some turns, and what is in flight each way. -/
structure Network where
  turns : List Turn
  toClient : List (List UInt8)
  toServer : List (List UInt8)

/-- What the client answers to a packet: every DATA packet is acknowledged. -/
def reply (packet : List UInt8) : List (List UInt8) :=
  if isData packet then [encodeAck (UInt16.ofNat (ofBe (slice packet 2 2)))] else []

namespace Network

section

variable (toLowercase : String → String) (cfg : TftpServer) (data : List UInt8) (blksize : UInt16)
  (client : SocketAddr)

def transfer (net : Network) : Transfer := transferBlocks toLowercase cfg data blksize net.turns

def start : Network := ⟨[], (transferBlocks toLowercase cfg data blksize []).packets, []⟩

/-- The server goes through one more turn, and sends what comes with it. -/
def serve (net : Network) (turn : Turn) : Network :=
  { net with
    turns := net.turns ++ [turn]
    toClient := net.toClient ++
      (transferBlocks toLowercase cfg data blksize (net.turns ++ [turn])).packets.drop
        (net.transfer toLowercase cfg data blksize).packets.length }

/-- Anything in flight may arrive next, or be duplicated, and the timer of a server that
waits may fire. -/
inductive Step : Network → Network → Prop
  | receive {net : Network} (before after : List (List UInt8)) (packet : List UInt8)
      (hflight : net.toClient = before ++ packet :: after) :
      Step net { net with
        toClient := before ++ after
        toServer := net.toServer ++ reply packet }
  | acknowledge {net : Network} (before after : List (List UInt8)) (ack : List UInt8)
      (hflight : net.toServer = before ++ ack :: after)
      (hwait : (net.transfer toLowercase cfg data blksize).ending = .waiting) :
      Step net (serve toLowercase cfg data blksize { net with toServer := before ++ after }
        (.datagram client ack))
  | timeout {net : Network}
      (hwait : (net.transfer toLowercase cfg data blksize).ending = .waiting) :
      Step net (serve toLowercase cfg data blksize net .timesOut)
  | repeatData {net : Network} (packet : List UInt8) (hflight : packet ∈ net.toClient) :
      Step net { net with toClient := packet :: net.toClient }
  | repeatAck {net : Network} (ack : List UInt8) (hflight : ack ∈ net.toServer) :
      Step net { net with toServer := ack :: net.toServer }

inductive Reaches : Network → Prop
  | start : Reaches (start toLowercase cfg data blksize)
  | step {net net' : Network} (h : Reaches net)
      (hstep : Step toLowercase cfg data blksize client net net') : Reaches net'

def timeouts (net : Network) : ℕ :=
  timeoutsFrom toLowercase cfg data blksize (.start cfg) net.turns

/-- The acknowledgements that have reached the server while it was sending another block. -/
def strays (net : Network) : ℕ :=
  straysFrom toLowercase cfg data blksize (.start cfg) net.turns

end

/-- There are at most as many DATA packets as blocks and timeouts, and at most as many
repeated ones as timeouts. -/
structure FreeOfApprentice (data : List UInt8) (blksize : UInt16) (timeouts : ℕ) (t : Transfer) :
    Prop where
  total_le : t.packets.countP isData ≤ blockCount data blksize + timeouts
  repeats_le : t.packets.countP isData ≤ distinctBlocks t.packets + timeouts

variable {toLowercase : String → String} {cfg : TftpServer} {data : List UInt8} {blksize : UInt16}
  {client : SocketAddr} {net net' : Network}

/-- What is in flight comes from the packets that the server has sent, and its turns are
acknowledgements and timeouts. -/
structure Sound (toLowercase : String → String) (cfg : TftpServer) (data : List UInt8)
    (blksize : UInt16) (net : Network) : Prop where
  toClient_sent : ∀ packet ∈ net.toClient,
    packet ∈ (net.transfer toLowercase cfg data blksize).packets
  toServer_replies : ∀ ack ∈ net.toServer,
    ∃ packet ∈ (net.transfer toLowercase cfg data blksize).packets, ack ∈ reply packet
  sends : ∀ turn ∈ net.turns, turn ≠ .sendFails

private theorem serve_sound {turn : Turn} (h : Sound toLowercase cfg data blksize net)
    (hsent : turn ≠ .sendFails) :
    Sound toLowercase cfg data blksize (serve toLowercase cfg data blksize net turn) := by
  have hprefix : (net.transfer toLowercase cfg data blksize).packets <+:
      ((serve toLowercase cfg data blksize net turn).transfer toLowercase cfg data blksize).packets :=
    transferLoop_prefix hsent
  refine ⟨fun packet hpacket => ?_, fun ack hack => ?_, fun t ht => ?_⟩
  · rcases List.mem_append.1 hpacket with hold | hnew
    · exact hprefix.subset (h.toClient_sent packet hold)
    · exact List.mem_of_mem_drop hnew
  · obtain ⟨packet, hpacket, hreply⟩ := h.toServer_replies ack hack
    exact ⟨packet, hprefix.subset hpacket, hreply⟩
  · rcases List.mem_append.1 ht with hold | hnew
    · exact h.sends t hold
    · exact List.mem_singleton.1 hnew ▸ hsent

private theorem Step.sound (hstep : Step toLowercase cfg data blksize client net net')
    (h : Sound toLowercase cfg data blksize net) : Sound toLowercase cfg data blksize net' := by
  cases hstep with
  | receive before after packet hflight =>
    refine ⟨fun packet' hpacket' => h.toClient_sent packet' ?_, fun ack hack => ?_, h.sends⟩
    · rw [hflight]
      exact ((List.sublist_cons_self packet after).append_left before).subset hpacket'
    · rcases List.mem_append.1 hack with hold | hnew
      · exact h.toServer_replies ack hold
      · exact ⟨packet, h.toClient_sent packet (by rw [hflight]; simp), hnew⟩
  | acknowledge before after ack hflight =>
    refine serve_sound ⟨h.toClient_sent, fun ack' hack' => h.toServer_replies ack' ?_, h.sends⟩ nofun
    rw [hflight]
    exact ((List.sublist_cons_self ack after).append_left before).subset hack'
  | timeout => exact serve_sound h nofun
  | repeatData packet hflight =>
    refine ⟨fun packet' hpacket' => ?_, h.toServer_replies, h.sends⟩
    rcases List.mem_cons.1 hpacket' with rfl | hold
    · exact h.toClient_sent _ hflight
    · exact h.toClient_sent _ hold
  | repeatAck ack hflight =>
    refine ⟨h.toClient_sent, fun ack' hack' => ?_, h.sends⟩
    rcases List.mem_cons.1 hack' with rfl | hold
    · exact h.toServer_replies _ hflight
    · exact h.toServer_replies _ hold

theorem Reaches.sound (h : Reaches toLowercase cfg data blksize client net) :
    Sound toLowercase cfg data blksize net := by
  induction h with
  | start => exact ⟨fun _ => id, nofun, nofun⟩
  | step _ hstep ih => exact hstep.sound ih

/-- In every run the server sends no more than blocks and timeouts account for when no
acknowledgement reaches it while it is sending another block; until it gives up, it sends more
when one does. -/
theorem free_of_apprentice (toLowercase : String → String) (cfg : TftpServer)
    (data : List UInt8) (blksize : UInt16) (hsize : 0 < blksize.toNat) (client : SocketAddr)
    (net : Network) (h : Reaches toLowercase cfg data blksize client net) :
    (net.strays toLowercase cfg data blksize = 0 →
      FreeOfApprentice data blksize (net.timeouts toLowercase cfg data blksize)
        (net.transfer toLowercase cfg data blksize)) ∧
    ((net.transfer toLowercase cfg data blksize).ending = .waiting ∨
        (net.transfer toLowercase cfg data blksize).ending = .acknowledged →
      FreeOfApprentice data blksize (net.timeouts toLowercase cfg data blksize)
        (net.transfer toLowercase cfg data blksize) →
      net.strays toLowercase cfg data blksize = 0) := by
  have htally : Tally data blksize 0 (net.timeouts toLowercase cfg data blksize)
      (net.strays toLowercase cfg data blksize) (net.transfer toLowercase cfg data blksize) :=
    transferLoop_tally hsize (Nat.zero_le _) (Nat.zero_le _) ⟨rfl, Nat.zero_le _⟩ h.sound.sends
  have hle := htally.count_le
  have hblocks := htally.blocks_le
  refine ⟨fun hnone => ⟨?_, ?_⟩, fun hend hfree => ?_⟩
  · omega
  · omega
  · have heq := htally.count_eq hend
    have hrepeats := hfree.repeats_le
    omega

/-- The runs in which a client acknowledges the one full block of a file, and the network
delivers the acknowledgement once or twice. -/
def acked (times : ℕ) : Network where
  turns := List.replicate times (.datagram ⟨.v4 0, 0⟩ (encodeAck 1))
  toClient := List.replicate times (encodeData 2 [])
  toServer := List.replicate (2 - times) (encodeAck 1)

private theorem reaches_acked_once :
    Reaches id TftpServer.new (List.replicate 8 7) 8 ⟨.v4 0, 0⟩ (acked 1) := by
  have hreceived : Reaches id TftpServer.new (List.replicate 8 7) 8 ⟨.v4 0, 0⟩
      ⟨[], [], [encodeAck 1]⟩ :=
    .step .start (.receive [] [] (encodeData 1 (List.replicate 8 7)) rfl)
  exact .step (.step hreceived (.repeatAck (encodeAck 1) List.mem_cons_self))
    (.acknowledge [] [encodeAck 1] (encodeAck 1) rfl rfl)

private theorem reaches_acked_twice :
    Reaches id TftpServer.new (List.replicate 8 7) 8 ⟨.v4 0, 0⟩ (acked 2) :=
  .step reaches_acked_once (.acknowledge [] [] (encodeAck 1) rfl rfl)

theorem acked_once_free :
    FreeOfApprentice (List.replicate 8 7) 8 ((acked 1).timeouts id TftpServer.new (List.replicate 8 7) 8)
      ((acked 1).transfer id TftpServer.new (List.replicate 8 7) 8) :=
  (free_of_apprentice id TftpServer.new (List.replicate 8 7) 8 (by decide) ⟨.v4 0, 0⟩ (acked 1)
    reaches_acked_once).1 rfl

/-- No timer fires, and the duplicated acknowledgement makes the server send three packets
of a file with two blocks. -/
theorem acked_twice_not_free :
    ¬ ∀ net, Reaches id TftpServer.new (List.replicate 8 7) 8 ⟨.v4 0, 0⟩ net →
      FreeOfApprentice (List.replicate 8 7) 8 (net.timeouts id TftpServer.new (List.replicate 8 7) 8)
        (net.transfer id TftpServer.new (List.replicate 8 7) 8) := by
  intro h
  have htotal := (h (acked 2) reaches_acked_twice).total_le
  exact absurd htotal (by decide)

end Network

end XBoot.Tftp
