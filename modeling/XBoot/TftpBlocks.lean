import XBoot.TftpServer
import Mathlib.Data.List.Destutter

/-!
# Every block of a file, in order

A transfer that ends with the acknowledgement of the last block has sent the file's
blocks in order, each numbered by its place. The 16-bit block number, and with it the
position in the file, is lost after block 65535: a file with that many full blocks makes
the transfer panic.
-/

namespace XBoot.Tftp

open ListSlices

/-- The DATA packets without their repetitions, numbered from 1 modulo 65536, carry the
whole file in blocks of `blockSize` bytes and a shorter last one. -/
def CarriesFile (data : List UInt8) (blockSize : ℕ) (packets : List (List UInt8)) : Prop :=
  ∃ payloads last,
    packets.destutter (· ≠ ·) =
        (payloads ++ [last]).mapIdx (fun i payload => encodeData (UInt16.ofNat (i + 1)) payload) ∧
      (payloads ++ [last]).flatten = data ∧ (∀ payload ∈ payloads, payload.length = blockSize) ∧
      last.length < blockSize

/-- Whatever happens, the transfer does not panic, and it carries the file if the last
block is acknowledged. -/
def TransfersFile (toLowercase : String → String) (cfg : TftpServer) (data : List UInt8)
    (blksize : UInt16) : Prop :=
  ∀ turns, (transferBlocks toLowercase cfg data blksize turns).ending ≠ .panicked ∧
    ((transferBlocks toLowercase cfg data blksize turns).ending = .acknowledged →
      CarriesFile data blksize.toNat (transferBlocks toLowercase cfg data blksize turns).packets)

def packetAt (data : List UInt8) (blockSize k : ℕ) : List UInt8 :=
  encodeData (UInt16.ofNat (k + 1)) (slice data (k * blockSize) blockSize)

/-- The loop is sending the block with index `k`. -/
structure AtBlock (k : ℕ) (p : Progress) : Prop where
  current_eq : p.current = UInt16.ofNat (k + 1)
  retries_le : p.retries ≤ DEFAULT_MAX_RETRIES
  timeout_eq : p.timeout = DEFAULT_TIMEOUT * 2 ^ p.retries

/-- All that a turn spent on block `k` can lead to. -/
inductive Leads (k : ℕ) (final : Prop) : Next → Prop
  | acknowledged : final → Leads k final (.stop .acknowledged [])
  | gaveUp (parting : List (List UInt8)) : Leads k final (.stop .gaveUp parting)
  | again {p : Progress} : AtBlock k p → Leads k final (.loop p)
  | onward {p : Progress} : ¬ final → AtBlock (k + 1) p → Leads k final (.loop p)

variable (toLowercase : String → String) {data : List UInt8} {blksize : UInt16} {k : ℕ} {p : Progress}

private theorem backOff_leads (final : Prop) (h : AtBlock k p) (parting : List (List UInt8)) :
    Leads k final (backOff TftpServer.new p parting) := by
  have hretries := h.retries_le
  have hmax : TftpServer.new.maxRetries = 5 := rfl
  rw [DEFAULT_MAX_RETRIES] at hretries
  have hpow : 2 ^ (p.retries + 1) ≤ 2 ^ 6 := Nat.pow_le_pow_right (by decide) (by omega)
  have hdouble : p.timeout * 2 = DEFAULT_TIMEOUT * 2 ^ (p.retries + 1) := by
    rw [h.timeout_eq, Nat.mul_assoc, Nat.pow_succ]
  have hfits : p.timeout * 2 < DURATION_LIMIT := by
    rw [hdouble]
    exact (Nat.mul_le_mul_left DEFAULT_TIMEOUT hpow).trans_lt (by decide)
  rw [backOff, if_neg (by omega), hmax]
  split
  · exact .gaveUp parting
  · rw [if_neg (Nat.not_le.2 hfits)]
    refine .again ⟨h.current_eq, ?_, hdouble⟩
    rw [DEFAULT_MAX_RETRIES]
    dsimp only
    omega

private theorem advanced (k : ℕ) :
    AtBlock k
      { current := UInt16.ofNat (k + 1), retries := 0, timeout := TftpServer.new.transferTimeout } :=
  ⟨rfl, Nat.zero_le _, rfl⟩

private theorem awaitFinalAck_leads (h : AtBlock k p) (turn : Turn) :
    Leads k True (awaitFinalAck toLowercase TftpServer.new p turn) := by
  cases turn with
  | datagram source bytes =>
    rw [awaitFinalAck]
    split
    · exact .acknowledged trivial
    · exact backOff_leads True h []
  | _ => exact backOff_leads True h []

private theorem next_number (h : AtBlock k p) : p.current + 1 = UInt16.ofNat (k + 1 + 1) := by
  rw [h.current_eq, UInt16.ofNat_add (k + 1) 1]
  rfl

private theorem awaitAck_leads (h : AtBlock k p) (turn : Turn) :
    Leads k False (awaitAck toLowercase TftpServer.new p turn) := by
  cases turn with
  | datagram source bytes =>
    rw [awaitAck]
    split
    · rw [ite_self]
      split
      · rw [next_number h]
        exact .onward id (advanced (k + 1))
      · exact backOff_leads False h []
    · exact backOff_leads False h []
  | timesOut => exact backOff_leads False h _
  | _ => exact backOff_leads False h []

/-- The bytes of a block below the number's wrap. -/
theorem chunkAt_block (hk : k < 65535) (hstart : k * blksize.toNat ≤ data.length)
    (hcurrent : p.current = UInt16.ofNat (k + 1)) :
    chunkAt data blksize.toNat p.current = some (slice data (k * blksize.toNat) blksize.toNat) := by
  have hnumber : p.current.toNat = k + 1 := by
    rw [hcurrent, UInt16.toNat_ofNat_of_lt' (by rw [UInt16.size]; omega)]
  have hne : p.current ≠ 0 := by
    intro hzero
    rw [hzero] at hnumber
    cases hnumber
  rw [chunkAt, if_neg hne, hnumber, Nat.add_sub_cancel]
  dsimp only
  rw [if_neg (by omega)]
  exact congrArg some (slice_min_length data (k * blksize.toNat) blksize.toNat)

/-- The last block is the one that is not full. -/
theorem length_block (hsize : 0 < blksize.toNat) (hk : k ≤ data.length / blksize.toNat) :
    (slice data (k * blksize.toNat) blksize.toNat).length < blksize.toNat ↔
      k = data.length / blksize.toNat := by
  have hstart : k * blksize.toNat ≤ data.length := (Nat.le_div_iff_mul_le hsize).1 hk
  have hlen : (slice data (k * blksize.toNat) blksize.toNat).length =
      min blksize.toNat (data.length - k * blksize.toNat) := by
    rw [slice, List.length_take, List.length_drop]
  have hnext : k < data.length / blksize.toNat ↔ k * blksize.toNat + blksize.toNat ≤ data.length := by
    rw [← Nat.succ_le_iff, Nat.le_div_iff_mul_le hsize, Nat.succ_mul]
  rw [hlen]
  omega

private theorem wait_leads (hsize : 0 < blksize.toNat) (hk : k ≤ data.length / blksize.toNat)
    (h : AtBlock k p) (turn : Turn) :
    Leads k (k = data.length / blksize.toNat)
      (if (slice data (k * blksize.toNat) blksize.toNat).length < blksize.toNat then
        awaitFinalAck toLowercase TftpServer.new p turn
      else awaitAck toLowercase TftpServer.new p turn) := by
  have hlast := length_block hsize hk
  by_cases hend : k = data.length / blksize.toNat
  · rw [if_pos (hlast.2 hend), eq_true hend]
    exact awaitFinalAck_leads toLowercase h turn
  · rw [if_neg (mt hlast.1 hend), eq_false hend]
    exact awaitAck_leads toLowercase h turn

/-- Below the number's wrap the packets of two blocks differ. -/
theorem packetAt_ne {j : ℕ} (hj : j < 65535) (hk : k < 65535) (h : j ≠ k) :
    packetAt data blksize.toNat j ≠ packetAt data blksize.toNat k := by
  refine encodeData_ne _ _ fun hnumber => ?_
  have hsame := congrArg UInt16.toNat hnumber
  rw [UInt16.toNat_ofNat_of_lt' (by rw [UInt16.size]; omega),
    UInt16.toNat_ofNat_of_lt' (by rw [UInt16.size]; omega)] at hsame
  omega

/-- What the rest of a transfer comes to when it is about to send block `k`. -/
structure Completes (data : List UInt8) (blockSize k : ℕ) (t : Transfer) : Prop where
  not_panicked : t.ending ≠ .panicked
  sent : t.ending = .acknowledged → t.packets.head? = some (packetAt data blockSize k) ∧
    t.packets.destutter (· ≠ ·) =
      (List.range' k (data.length / blockSize + 1 - k)).map (packetAt data blockSize)

private theorem turn_completes (hsmall : data.length / blksize.toNat < 65535)
    (hk : k ≤ data.length / blksize.toNat) {next : Next} {rest : Progress → Transfer}
    (hnext : Leads k (k = data.length / blksize.toNat) next)
    (ih : ∀ j p, j ≤ data.length / blksize.toNat → AtBlock j p →
      Completes data blksize.toNat j (rest p)) :
    Completes data blksize.toNat k (next.finish (packetAt data blksize.toNat k) rest) := by
  cases hnext with
  | acknowledged hfinal =>
    refine ⟨nofun, fun _ => ⟨rfl, ?_⟩⟩
    have hone : data.length / blksize.toNat + 1 - k = 1 := by omega
    rw [hone]
    rfl
  | gaveUp parting => exact ⟨nofun, nofun⟩
  | @again p' h =>
    have hrest := ih k p' hk h
    refine ⟨hrest.not_panicked, fun hack => ⟨rfl, ?_⟩⟩
    obtain ⟨hhead, hsent⟩ := hrest.sent hack
    obtain ⟨packets, hpackets⟩ := List.head?_eq_some_iff.1 hhead
    have hall : (packetAt data blksize.toNat k :: (rest p').packets).destutter (· ≠ ·) =
        (rest p').packets.destutter (· ≠ ·) := by
      rw [hpackets, List.destutter_cons_cons, if_neg (fun h => h rfl), List.destutter_cons']
    exact hall.trans hsent
  | @onward p' hmore h =>
    have hrest := ih (k + 1) p' (by omega) h
    refine ⟨hrest.not_panicked, fun hack => ⟨rfl, ?_⟩⟩
    obtain ⟨hhead, hsent⟩ := hrest.sent hack
    obtain ⟨packets, hpackets⟩ := List.head?_eq_some_iff.1 hhead
    have hcount : data.length / blksize.toNat + 1 - k =
        (data.length / blksize.toNat + 1 - (k + 1)) + 1 := by omega
    have hall : (packetAt data blksize.toNat k :: (rest p').packets).destutter (· ≠ ·) =
        packetAt data blksize.toNat k :: (rest p').packets.destutter (· ≠ ·) := by
      have hne : packetAt data blksize.toNat k ≠ packetAt data blksize.toNat (k + 1) :=
        packetAt_ne (by omega) (by omega) (Nat.ne_of_lt (Nat.lt_succ_self k))
      rw [hpackets, List.destutter_cons_cons, if_pos hne, List.destutter_cons']
    rw [hcount, List.range'_succ, List.map_cons, ← hsent]
    exact hall

private theorem transferLoop_completes (hsize : 0 < blksize.toNat)
    (hsmall : data.length / blksize.toNat < 65535) (turns : List Turn)
    (hk : k ≤ data.length / blksize.toNat) (h : AtBlock k p) :
    Completes data blksize.toNat k
      (transferLoop toLowercase TftpServer.new data blksize p turns) := by
  induction turns generalizing k p with
  | nil =>
    rw [transferLoop, chunkAt_block (by omega) ((Nat.le_div_iff_mul_le hsize).1 hk) h.current_eq]
    exact ⟨nofun, nofun⟩
  | cons turn turns ih =>
    have hchunk := chunkAt_block (by omega) ((Nat.le_div_iff_mul_le hsize).1 hk) h.current_eq
    have hpacket : encodeData p.current (slice data (k * blksize.toNat) blksize.toNat) =
        packetAt data blksize.toNat k := by rw [h.current_eq, packetAt]
    have hwait := wait_leads toLowercase hsize hk h turn
    rw [transferLoop, hchunk]
    dsimp only
    rw [hpacket]
    cases turn with
    | sendFails => exact ⟨nofun, nofun⟩
    | _ => exact turn_completes hsmall hk hwait fun j p' hj h' => ih hj h'

/-- Blocks put together are the front of the data. -/
theorem flatten_blocks (data : List UInt8) (n m : ℕ) :
    ((List.range m).map fun k => slice data (k * n) n).flatten = data.take (m * n) := by
  induction m with
  | zero => simp
  | succ m ih =>
    rw [List.range_succ, List.map_append, List.flatten_append, ih, Nat.succ_mul, List.take_add]
    simp [slice]

private theorem carries_of_packets (hsize : 0 < blksize.toNat) {packets : List (List UInt8)}
    (h : packets.destutter (· ≠ ·) =
      (List.range (data.length / blksize.toNat + 1)).map (packetAt data blksize.toNat)) :
    CarriesFile data blksize.toNat packets := by
  have hsplit : (List.range (data.length / blksize.toNat)).map
        (fun k => slice data (k * blksize.toNat) blksize.toNat) ++
      [slice data (data.length / blksize.toNat * blksize.toNat) blksize.toNat] =
        (List.range (data.length / blksize.toNat + 1)).map
          fun k => slice data (k * blksize.toNat) blksize.toNat := by
    rw [List.range_succ, List.map_append]
    rfl
  refine ⟨(List.range (data.length / blksize.toNat)).map
    (fun k => slice data (k * blksize.toNat) blksize.toNat),
    slice data (data.length / blksize.toNat * blksize.toNat) blksize.toNat, ?_, ?_, ?_, ?_⟩
  · rw [hsplit, h]
    apply List.ext_getElem
    · simp
    · intro i _ _
      simp [packetAt]
  · rw [hsplit, flatten_blocks]
    exact List.take_of_length_le (Nat.lt_mul_of_div_lt (Nat.lt_succ_self _) hsize).le
  · intro payload hmem
    obtain ⟨k, hk, rfl⟩ := List.mem_map.1 hmem
    have hlt := List.mem_range.1 hk
    have hend : (k + 1) * blksize.toNat ≤ data.length := (Nat.le_div_iff_mul_le hsize).1 hlt
    rw [Nat.succ_mul] at hend
    exact length_slice hend
  · exact (length_block hsize (Nat.le_refl _)).2 rfl

private theorem transfersFile_of_small (hsize : 0 < blksize.toNat)
    (hsmall : data.length / blksize.toNat < 65535) :
    TransfersFile toLowercase TftpServer.new data blksize := by
  intro turns
  have hdone := transferLoop_completes toLowercase hsize hsmall turns
    (Nat.zero_le _) (advanced 0)
  refine ⟨hdone.not_panicked, fun hack => carries_of_packets hsize ?_⟩
  have hsent := (hdone.sent hack).2
  rwa [Nat.sub_zero, ← List.range_eq_range'] at hsent

/-- The turns in which a client acknowledges `m` blocks from index `k` on. -/
def acksFrom (client : SocketAddr) (k m : ℕ) : List Turn :=
  (List.range' k m).map fun i => .datagram client (encodeAck (UInt16.ofNat (i + 1)))

private theorem full_block_acknowledged (hk : k < 65535)
    (hfull : (k + 1) * blksize.toNat ≤ data.length) (h : AtBlock k p) (client : SocketAddr)
    (turns : List Turn) :
    ∃ p', AtBlock (k + 1) p' ∧
      transferLoop toLowercase TftpServer.new data blksize p
          (.datagram client (encodeAck (UInt16.ofNat (k + 1))) :: turns) =
        (transferLoop toLowercase TftpServer.new data blksize p' turns).after
          (packetAt data blksize.toNat k) := by
  rw [Nat.succ_mul] at hfull
  have hlen : (slice data (k * blksize.toNat) blksize.toNat).length = blksize.toNat :=
    length_slice hfull
  refine ⟨_, advanced (k + 1), ?_⟩
  rw [transferLoop, chunkAt_block hk (by omega) h.current_eq]
  dsimp only
  rw [hlen, if_neg (Nat.lt_irrefl _), awaitAck, received, parse_encodeAck, ← h.current_eq]
  dsimp only
  rw [if_pos rfl, next_number h, h.current_eq]
  rfl

private theorem panics_after_wrap (hlarge : 65535 * blksize.toNat ≤ data.length)
    (client : SocketAddr) (m : ℕ) (hm : k + m = 65535) (h : AtBlock k p) :
    (transferLoop toLowercase TftpServer.new data blksize p (acksFrom client k m)).ending =
      .panicked := by
  induction m generalizing k p with
  | zero =>
    have hzero : p.current = 0 := by
      rw [h.current_eq, show k = 65535 by omega]
      rfl
    rw [transferLoop, chunkAt, if_pos hzero]
  | succ m ih =>
    have hfull : (k + 1) * blksize.toNat ≤ data.length :=
      (Nat.mul_le_mul_right _ (by omega)).trans hlarge
    obtain ⟨p', h', hloop⟩ := full_block_acknowledged toLowercase (by omega) hfull h
      client (acksFrom client (k + 1) m)
    rw [acksFrom, List.range'_succ, List.map_cons]
    exact (congrArg Transfer.ending hloop).trans (ih (by omega) h')

/-- A transfer does what it should on every run exactly when the file has fewer than
65535 full blocks. -/
theorem transfers_file_iff (toLowercase : String → String) (data : List UInt8) (blksize : UInt16)
    (hsize : 0 < blksize.toNat) :
    TransfersFile toLowercase TftpServer.new data blksize ↔ data.length < 65535 * blksize.toNat := by
  constructor
  · intro h
    by_contra hlarge
    exact (h (acksFrom ⟨.v4 0, 0⟩ 0 65535)).1
      (panics_after_wrap toLowercase (Nat.not_lt.1 hlarge) _ 65535 rfl (advanced 0))
  · intro hsmall
    exact transfersFile_of_small toLowercase hsize ((Nat.div_lt_iff_lt_mul hsize).2 hsmall)

/-- A file of one full block. -/
theorem transfers_file_one_block :
    TransfersFile id TftpServer.new (List.replicate 8 7) 8 :=
  (transfers_file_iff id (List.replicate 8 7) 8 (by decide)).2 (by decide)

/-- A file of 65535 full blocks of 8 bytes panics when each is acknowledged in order. -/
theorem block_65536_panics :
    ¬ TransfersFile id TftpServer.new (List.replicate (65535 * 8) 0) 8 := by
  intro h
  have hlarge : 65535 * (8 : UInt16).toNat ≤ (List.replicate (65535 * 8) (0 : UInt8)).length := by
    rw [List.length_replicate]
    decide
  exact (h (acksFrom ⟨.v4 0, 0⟩ 0 65535)).1
    (panics_after_wrap id hlarge _ 65535 rfl (advanced 0))

end XBoot.Tftp
