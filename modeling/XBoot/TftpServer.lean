import XBoot.Numerals
import XBoot.TftpPacket

/-!
# The TFTP server's block transfer

`transfer_blocks` sends a file in blocks, each until it is acknowledged. A run is driven
by the list of what happens at its sends and receives, one turn of the loop each, and
yields the packets sent and how the transfer ended. Durations are in nanoseconds.
-/

namespace XBoot.Tftp

open ListSlices Numerals

/-- `Duration::from_secs(1)`. -/
def DEFAULT_TIMEOUT : ℕ := 10 ^ 9

def DEFAULT_MAX_RETRIES : ℕ := 5

def DEFAULT_MAX_BLKSIZE : ℕ := 1468

/-- A `Duration` lies below `2 ^ 64` seconds. -/
def DURATION_LIMIT : ℕ := 2 ^ 64 * 10 ^ 9

structure TftpServer where
  transferTimeout : ℕ
  maxRetries : ℕ
  maxBlksize : ℕ

def TftpServer.new : TftpServer where
  transferTimeout := DEFAULT_TIMEOUT
  maxRetries := DEFAULT_MAX_RETRIES
  maxBlksize := DEFAULT_MAX_BLKSIZE

/-- The smaller of the client's request and the server's cap, 512 without a request. -/
def negotiateBlksize (maxBlksize : ℕ) : List (String × String) → ℕ
  | [] => 512
  | (key, value) :: options =>
    if key = "blksize" then match parseUnsigned 16 value with
      | some v => if 8 ≤ v then min v maxBlksize else negotiateBlksize maxBlksize options
      | none => negotiateBlksize maxBlksize options
    else negotiateBlksize maxBlksize options

/-- The transfers that a server made by `new` starts have block sizes from 8 to 1468. -/
theorem negotiateBlksize_range (options : List (String × String)) :
    8 ≤ negotiateBlksize TftpServer.new.maxBlksize options ∧
      negotiateBlksize TftpServer.new.maxBlksize options ≤ 1468 := by
  have hcap : TftpServer.new.maxBlksize = 1468 := rfl
  induction options with
  | nil => exact ⟨by decide, by decide⟩
  | cons option options ih =>
    obtain ⟨key, value⟩ := option
    rw [negotiateBlksize]
    split
    · split
      · split
        · rw [hcap]
          omega
        · exact ih
      · exact ih
    · exact ih

inductive IpAddr where
  | v4 (bits : BitVec 32)
  | v6 (bits : BitVec 128)
  deriving DecidableEq, Repr

structure SocketAddr where
  ip : IpAddr
  port : UInt16
  deriving DecidableEq, Repr

/-- What happens at one turn of the loop: the send fails, or it succeeds and a datagram
arrives from some address, or the receive fails, or the timeout passes. -/
inductive Turn where
  | sendFails
  | datagram (source : SocketAddr) (bytes : List UInt8)
  | receiveFails
  | timesOut

/-- How a transfer stands after the given turns. -/
inductive Ending where
  /-- The last block was acknowledged. -/
  | acknowledged
  /-- The retries are used up, or the OACK is not acknowledged. -/
  | gaveUp
  | sendError
  | panicked
  /-- The last packet is sent and nothing has happened since. -/
  | waiting
  deriving DecidableEq, Repr

structure Transfer where
  packets : List (List UInt8)
  ending : Ending
  deriving DecidableEq, Repr

def Transfer.after (packet : List UInt8) (t : Transfer) : Transfer :=
  { t with packets := packet :: t.packets }

structure Progress where
  current : UInt16
  retries : ℕ
  timeout : ℕ

/-- What one turn leads to: the next turn, or an end after some parting packets. -/
inductive Next where
  | loop (progress : Progress)
  | stop (ending : Ending) (packets : List (List UInt8))

/-- The transfer that goes on with `rest`, or ends, once `packet` is sent. -/
def Next.finish (packet : List UInt8) (rest : Progress → Transfer) : Next → Transfer
  | .loop p => (rest p).after packet
  | .stop ending parting => ⟨packet :: parting, ending⟩

/-- Count a retry and double the timeout, or give up. -/
def backOff (cfg : TftpServer) (p : Progress) (parting : List (List UInt8)) : Next :=
  if 2 ^ 32 ≤ p.retries + 1 then .stop .panicked []
  else if cfg.maxRetries < p.retries + 1 then .stop .gaveUp parting
  else if DURATION_LIMIT ≤ p.timeout * 2 then .stop .panicked []
  else .loop { p with retries := p.retries + 1, timeout := p.timeout * 2 }

section

variable (toLowercase : String → String) (cfg : TftpServer)

/-- A received datagram, cut to the 64 bytes of the receive buffer. -/
def received (bytes : List UInt8) : Except ParseError Packet := parse toLowercase (bytes.take 64)

/-- The wait after the last block. -/
def awaitFinalAck (p : Progress) : Turn → Next
  | .datagram _ bytes =>
    if received toLowercase bytes = .ok (.ack p.current) then .stop .acknowledged []
    else backOff cfg p []
  | _ => backOff cfg p []

/-- The wait after any other block. -/
def awaitAck (p : Progress) : Turn → Next
  | .datagram _ bytes => match received toLowercase bytes with
    | .ok (.ack block) =>
      if block = p.current then
        -- `wrapping_add`
        .loop { current := p.current + 1, retries := 0, timeout := cfg.transferTimeout }
      else if block = p.current - 1 then backOff cfg p []
      else backOff cfg p []
    | _ => backOff cfg p []
  | .timesOut => backOff cfg p [encodeError ERR_UNDEFINED "Transfer timed out"]
  | _ => backOff cfg p []

/-- The bytes of the current block. There are none for block number 0: `current - 1`
underflows, a panic in a debug build, and in a release build it makes `start` so large
that the slice panics. -/
def chunkAt (data : List UInt8) (blockSize : ℕ) (current : UInt16) : Option (List UInt8) :=
  if current = 0 then none
  else
    let start := (current.toNat - 1) * blockSize
    let stop := min (start + blockSize) data.length
    if stop < start then none else some (slice data start (stop - start))

/-- The loop of `transfer_blocks`. -/
def transferLoop (data : List UInt8) (blksize : UInt16) (p : Progress) (turns : List Turn) :
    Transfer :=
  match chunkAt data blksize.toNat p.current with
  | none => ⟨[], .panicked⟩
  | some chunk =>
    let packet := encodeData p.current chunk
    match turns with
    | [] => ⟨[packet], .waiting⟩
    | .sendFails :: _ => ⟨[], .sendError⟩
    | turn :: rest =>
      let next :=
        if chunk.length < blksize.toNat then awaitFinalAck toLowercase cfg p turn
        else awaitAck toLowercase cfg p turn
      next.finish packet fun p' => transferLoop data blksize p' rest

def transferBlocks (data : List UInt8) (blksize : UInt16) (turns : List Turn) : Transfer :=
  transferLoop toLowercase cfg data blksize
    { current := 1, retries := 0, timeout := cfg.transferTimeout } turns

end

end XBoot.Tftp
