import XBoot.BigEndian
import XBoot.Utf8

/-!
# TFTP packets

Parsing of the datagrams that the server receives and encoding of those it sends.
A position in a datagram is represented by the bytes from there on. The lower-casing
of option keys follows the Unicode tables and is a parameter.
-/

namespace XBoot.Tftp

open ListSlices BigEndian Utf8

def OP_RRQ : ℕ := 1
def OP_WRQ : ℕ := 2
def OP_DATA : ℕ := 3
def OP_ACK : ℕ := 4
def OP_ERROR : ℕ := 5
def OP_OACK : ℕ := 6

def ERR_UNDEFINED : ℕ := 0
def ERR_FILE_NOT_FOUND : ℕ := 1
def ERR_ACCESS_VIOLATION : ℕ := 2

inductive Packet where
  | rrq (filename mode : String) (options : List (String × String))
  | wrq (filename mode : String)
  | ack (block : UInt16)
  | error (code : UInt16) (message : String)
  deriving DecidableEq, Repr

inductive ParseError where
  | tooShort
  | unknownOpcode (opcode : ℕ)
  | missingNull
  | emptyField
  | badAckLength (length : ℕ)
  | badOptionValue
  deriving DecidableEq, Repr

/-- The null-terminated string at the front of `rest`, and the bytes after its terminator. -/
def readCstr (rest : List UInt8) : Except ParseError (String × List UInt8) :=
  match rest.findIdx? (· = 0) with
  | none => .error .missingNull
  | some stop =>
    let s := fromUtf8Lossy (rest.take stop)
    if s = "" then .error .emptyField else .ok (s, rest.drop (stop + 1))

theorem length_readCstr {rest after : List UInt8} {s : String}
    (h : readCstr rest = .ok (s, after)) : after.length < rest.length := by
  rw [readCstr] at h
  cases hstop : rest.findIdx? (· = 0) with
  | none => rw [hstop] at h; cases h
  | some stop =>
    obtain ⟨hlt, -⟩ := List.findIdx?_eq_some_iff_getElem.1 hstop
    rw [hstop] at h
    dsimp only at h
    split at h
    · cases h
    · cases h
      rw [List.length_drop]
      omega

/-- The option pairs of a read request; a key without a value ends them. -/
def parseOptions (toLowercase : String → String) (rest : List UInt8) :
    Except ParseError (List (String × String)) :=
  if rest = [] then .ok []
  else match _hkey : readCstr rest with
    | .error e => .error e
    | .ok (key, rest₁) =>
      if rest₁ = [] then .ok []
      else match _hvalue : readCstr rest₁ with
        | .error e => .error e
        | .ok (value, rest₂) => match parseOptions toLowercase rest₂ with
          | .error e => .error e
          | .ok options => .ok ((toLowercase key, value) :: options)
termination_by rest.length
decreasing_by exact Nat.lt_trans (length_readCstr _hvalue) (length_readCstr _hkey)

def parseRq (toLowercase : String → String) (opcode : ℕ) (tail : List UInt8) :
    Except ParseError Packet := do
  let (filename, rest) ← readCstr tail
  let (mode, rest) ← readCstr rest
  if opcode = OP_WRQ then return .wrq filename mode
  let options ← parseOptions toLowercase rest
  return .rrq filename mode options

def parseAck (tail : List UInt8) : Except ParseError Packet :=
  if tail.length ≠ 2 then .error (.badAckLength (tail.length + 2))
  else .ok (.ack (UInt16.ofNat (ofBe tail)))

def parseError (tail : List UInt8) : Except ParseError Packet :=
  if tail.length < 3 then .error .tooShort
  else .ok (.error (UInt16.ofNat (ofBe (slice tail 0 2)))
    (fromUtf8Lossy (slice tail 2 (tail.length - 1 - 2))))

def parse (toLowercase : String → String) (buf : List UInt8) : Except ParseError Packet :=
  if buf.length < 2 then .error .tooShort
  else
    let opcode := ofBe (slice buf 0 2)
    let tail := buf.drop 2
    if opcode = OP_RRQ ∨ opcode = OP_WRQ then parseRq toLowercase opcode tail
    else if opcode = OP_ACK then parseAck tail
    else if opcode = OP_ERROR then parseError tail
    else .error (.unknownOpcode opcode)

def encodeData (block : UInt16) (data : List UInt8) : List UInt8 :=
  toBe 2 OP_DATA ++ toBe 2 block.toNat ++ data

def encodeOack (options : List (String × String)) : List UInt8 :=
  toBe 2 OP_OACK ++ options.flatMap fun kv => encode kv.1 ++ [0] ++ encode kv.2 ++ [0]

def encodeError (code : ℕ) (message : String) : List UInt8 :=
  toBe 2 OP_ERROR ++ toBe 2 code ++ encode message ++ [0]

/-- The ACK packet that a client sends for a block. -/
def encodeAck (block : UInt16) : List UInt8 := toBe 2 OP_ACK ++ toBe 2 block.toNat

/-- An ACK is read back, and is short enough for the server's 64-byte buffer. -/
theorem parse_encodeAck (toLowercase : String → String) (block : UInt16) :
    parse toLowercase ((encodeAck block).take 64) = .ok (.ack block) := by
  have hlen : (encodeAck block).length = 4 := by simp [encodeAck]
  have hopcode : slice (encodeAck block) 0 2 = toBe 2 OP_ACK :=
    (slice_append_left (by simp)).trans (slice_toBe 2 OP_ACK)
  have htail : (encodeAck block).drop 2 = toBe 2 block.toNat := List.drop_left' rfl
  have hread : ofBe (toBe 2 block.toNat) = block.toNat := ofBe_toBe_of_lt block.toNat_lt
  rw [List.take_of_length_le (by rw [hlen]; decide)]
  simp [parse, hlen, hopcode, htail, parseAck, hread, ofBe_toBe, OP_ACK, OP_RRQ, OP_WRQ]

/-- Two DATA packets are the same only if their block numbers are. -/
theorem encodeData_ne {block block' : UInt16} (data data' : List UInt8) (h : block ≠ block') :
    encodeData block data ≠ encodeData block' data' := by
  intro heq
  have hnumber : toBe 2 block.toNat = toBe 2 block'.toNat := by
    have hcut := congrArg (fun packet => slice packet 2 2) heq
    simpa [encodeData, slice, toBe] using hcut
  have hread := congrArg ofBe hnumber
  rw [ofBe_toBe_of_lt block.toNat_lt, ofBe_toBe_of_lt block'.toNat_lt] at hread
  exact h (UInt16.toNat_inj.1 hread)

end XBoot.Tftp
