import XBoot.Config
import XBoot.TftpRetries

/-!
# TFTP requests

A request from the datagram on port 69 to the end of the transfer: the path checks, the
option negotiation with its OACK, and the blocks. What the operating system does with
paths and sockets is a parameter. The turns of a transfer with options begin with the
one in which the OACK is sent.
-/

namespace XBoot.Tftp

open ListSlices BigEndian Utf8 Numerals

structure Host (Path : Type) where
  join : Path → String → Path
  canonicalize : Path → Option Path
  startsWith : Path → Path → Bool
  read : Path → Option (List UInt8)
  /-- An ephemeral socket can be bound. -/
  binds : Bool

inductive Service where
  | ignored
  | unbound
  /-- By a single ERROR packet. -/
  | refused (error : List UInt8)
  | transfers (transfer : Transfer)

/-- The checks that the configuration makes of a boot file's name. -/
def isSafePath (name : String) : Bool := Boot.isSafeFilename name

section

variable {Path : Type} (host : Host Path) (root : Path) (toLowercase : String → String)
  (cfg : TftpServer)

/-- The bytes of the requested file, or the ERROR packet that refuses it. -/
def openFile (filename : String) : Except (List UInt8) (List UInt8) :=
  if isSafePath filename = false then .error (encodeError ERR_ACCESS_VIOLATION "Invalid path")
  else match host.canonicalize (host.join root filename) with
    | none => .error (encodeError ERR_FILE_NOT_FOUND "File not found")
    | some realPath => match host.canonicalize root with
      | none => .error (encodeError ERR_UNDEFINED "Server error")
      | some realRoot =>
        if host.startsWith realPath realRoot = false then
          .error (encodeError ERR_ACCESS_VIOLATION "Path traversal denied")
        else match host.read realPath with
          | none => .error (encodeError ERR_FILE_NOT_FOUND "File not found")
          | some data => .ok data

/-- The options of the OACK: the block size always, the file's size if it is asked for. -/
def oackOptions (blksize size : ℕ) (options : List (String × String)) : List (String × String) :=
  ("blksize", toString blksize) ::
    if options.any fun kv => kv.1 = "tsize" && kv.2 = "0" then [("tsize", toString size)] else []

/-- The OACK that answers a request for `data` with some options. -/
def oackPacket (data : List UInt8) (options : List (String × String)) : List UInt8 :=
  encodeOack (oackOptions (negotiateBlksize cfg.maxBlksize options) data.length options)

/-- Negotiate the options, if there are any, and transfer the file. -/
def sendFile (data : List UInt8) (options : List (String × String)) (turns : List Turn) : Transfer :=
  let blksize := UInt16.ofNat (negotiateBlksize cfg.maxBlksize options)
  let oack := oackPacket cfg data options
  if options = [] then transferBlocks toLowercase cfg data blksize turns
  else match turns with
    | [] => ⟨[oack], .waiting⟩
    | .sendFails :: _ => ⟨[], .sendError⟩
    | .datagram _ bytes :: rest =>
      if received toLowercase bytes = .ok (.ack 0) then
        (transferBlocks toLowercase cfg data blksize rest).after oack
      else ⟨[oack], .gaveUp⟩
    | _ :: _ => ⟨[oack], .gaveUp⟩

/-- Serve one request from a newly bound socket. -/
def onSocket (service : Service) : Service := if host.binds then service else .unbound

def handleRrq (filename : String) (options : List (String × String)) (turns : List Turn) : Service :=
  onSocket host <| match openFile host root filename with
    | .error packet => .refused packet
    | .ok data => .transfers (sendFile toLowercase cfg data options turns)

/-- Process one datagram of port 69; the server is read-only. -/
def handleRequest (datagram : List UInt8) (turns : List Turn) : Service :=
  match parse toLowercase datagram with
  | .error _ => .ignored
  | .ok (.rrq filename _ options) => handleRrq host root toLowercase cfg filename options turns
  | .ok (.wrq _ _) =>
    onSocket host (.refused (encodeError ERR_ACCESS_VIOLATION "Write access denied"))
  | .ok _ => .ignored

end

variable {Path : Type} {host : Host Path} {root : Path} {toLowercase : String → String}
  {cfg : TftpServer} {filename : String} {data : List UInt8} {options : List (String × String)}
  {turns : List Turn}

/-- Only files whose real path lies under the real root are read. -/
theorem openFile_inside (h : openFile host root filename = .ok data) :
    ∃ realPath realRoot, host.canonicalize root = some realRoot ∧
      host.startsWith realPath realRoot = true ∧ host.read realPath = some data := by
  rw [openFile] at h
  split at h
  · cases h
  · split at h
    · cases h
    · rename_i realPath _
      split at h
      · cases h
      · rename_i realRoot hroot
        split at h
        · cases h
        · rename_i hinside
          split at h
          · cases h
          · rename_i hread
            cases h
            exact ⟨realPath, realRoot, hroot, (Bool.not_eq_false _).mp hinside, hread⟩

theorem handleRrq_transfers {t : Transfer}
    (h : handleRrq host root toLowercase cfg filename options turns = .transfers t) :
    ∃ data, openFile host root filename = .ok data ∧
      t = sendFile toLowercase cfg data options turns := by
  rw [handleRrq, onSocket] at h
  split at h
  · split at h
    · cases h
    · rename_i data hopen
      cases h
      exact ⟨data, hopen, rfl⟩
  · cases h

/-- The boot files that a valid configuration names are not refused for their names. -/
theorem isSafePath_of_checkFilename {field : String} (h : Boot.checkFilename field filename = []) :
    isSafePath filename = true := by
  rw [Boot.checkFilename] at h
  split at h
  · cases h
  · split at h
    · cases h
    · rename_i hsafe
      exact (Bool.not_eq_false _).mp hsafe

end XBoot.Tftp
