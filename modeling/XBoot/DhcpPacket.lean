import XBoot.BigEndian
import XBoot.PlacedFields

/-!
# DHCP packets

Parsing and encoding of BOOTP/DHCP messages. The encoder narrows an option's length to one
byte, as in a release build.
-/

namespace XBoot.Dhcp

open ListSlices BigEndian PlacedFields

def MAGIC_COOKIE : List UInt8 := [0x63, 0x82, 0x53, 0x63]

def BOOTREPLY : UInt8 := 2

def COOKIE_OFFSET : ℕ := 236

def MIN_LEN : ℕ := 240

def PAD : UInt8 := 0
def END : UInt8 := 255

/-- The hardware address field. -/
abbrev HardwareAddress := { bytes : List UInt8 // bytes.length = 16 }

structure DhcpOption where
  code : UInt8
  data : List UInt8
  deriving DecidableEq

structure DhcpMessage where
  op : UInt8
  htype : UInt8
  hlen : UInt8
  hops : UInt8
  xid : UInt32
  secs : UInt16
  flags : UInt16
  ciaddr : BitVec 32
  yiaddr : BitVec 32
  siaddr : BitVec 32
  giaddr : BitVec 32
  chaddr : HardwareAddress
  options : List DhcpOption
  deriving DecidableEq

inductive ParseError where
  | tooShort (len : ℕ)
  | badCookie
  | truncatedOption (code : UInt8)
  deriving DecidableEq, Repr

def ipv4 (octets : List UInt8) : BitVec 32 := BitVec.ofNat 32 (ofBe octets)

def octets (ip : BitVec 32) : List UInt8 := toBe 4 ip.toNat

/-- The options up to END or the end of the buffer. -/
def parseOptions : List UInt8 → Except ParseError (List DhcpOption)
  | [] => .ok []
  | code :: rest =>
    if code = PAD then parseOptions rest
    else if code = END then .ok []
    else match rest with
      | [] => .error (.truncatedOption code)
      | len :: rest =>
        if rest.length < len.toNat then .error (.truncatedOption code)
        else match parseOptions (rest.drop len.toNat) with
          | .error e => .error e
          | .ok opts => .ok (⟨code, rest.take len.toNat⟩ :: opts)
termination_by buf => buf.length
decreasing_by
  · exact Nat.lt_succ_self _
  · rw [List.length_drop]
    exact Nat.lt_of_le_of_lt (Nat.sub_le _ _) (Nat.lt_succ_of_lt (Nat.lt_succ_self _))

def byteAt (buf : List UInt8) (off : ℕ) : UInt8 := buf.getD off 0

def parse (buf : List UInt8) : Except ParseError DhcpMessage :=
  if hshort : buf.length < MIN_LEN then .error (.tooShort buf.length)
  else if slice buf COOKIE_OFFSET 4 ≠ MAGIC_COOKIE then .error .badCookie
  else match parseOptions (buf.drop MIN_LEN) with
    | .error e => .error e
    | .ok options => .ok {
        op := byteAt buf 0
        htype := byteAt buf 1
        hlen := byteAt buf 2
        hops := byteAt buf 3
        xid := UInt32.ofNat (ofBe (slice buf 4 4))
        secs := UInt16.ofNat (ofBe (slice buf 8 2))
        flags := UInt16.ofNat (ofBe (slice buf 10 2))
        ciaddr := ipv4 (slice buf 12 4)
        yiaddr := ipv4 (slice buf 16 4)
        siaddr := ipv4 (slice buf 20 4)
        giaddr := ipv4 (slice buf 24 4)
        chaddr := ⟨slice buf 28 16, length_slice (by rw [MIN_LEN] at hshort; omega)⟩
        options := options }

def DhcpOption.encode (opt : DhcpOption) : List UInt8 :=
  opt.code :: UInt8.ofNat opt.data.length :: opt.data

namespace DhcpMessage

/-- The fixed header and the cookie, in the order in which they are written. -/
def fields (msg : DhcpMessage) : List (ℕ × List UInt8) :=
  [(0, [msg.op]), (1, [msg.htype]), (2, [msg.hlen]), (3, [msg.hops]), (4, toBe 4 msg.xid.toNat),
    (8, toBe 2 msg.secs.toNat), (10, toBe 2 msg.flags.toNat), (12, octets msg.ciaddr),
    (16, octets msg.yiaddr), (20, octets msg.siaddr), (24, octets msg.giaddr),
    (28, msg.chaddr.1), (COOKIE_OFFSET, MAGIC_COOKIE)]

def header (msg : DhcpMessage) : List UInt8 := place (List.replicate MIN_LEN 0) msg.fields

/-- The wire bytes: fixed header, cookie, options and END. -/
def encode (msg : DhcpMessage) : List UInt8 :=
  msg.header ++ msg.options.flatMap DhcpOption.encode ++ [END]

end DhcpMessage

def MSG_TYPE : UInt8 := 53
def SERVER_ID : UInt8 := 54
def VENDOR_CLASS_ID : UInt8 := 60
def TFTP_SERVER_NAME : UInt8 := 66
def BOOTFILE_NAME : UInt8 := 67
def USER_CLASS : UInt8 := 77
def CLIENT_SYSTEM_ARCH : UInt8 := 93
def VENDOR_SPECIFIC : UInt8 := 43

/-- The values of option 53 that are used. -/
def DISCOVER : UInt8 := 1
def OFFER : UInt8 := 2
def REQUEST : UInt8 := 3
def ACK : UInt8 := 5

namespace DhcpMessage

def option (msg : DhcpMessage) (code : UInt8) : Option (List UInt8) :=
  (msg.options.find? (·.code = code)).map (·.data)

def messageType (msg : DhcpMessage) : Option UInt8 := (msg.option MSG_TYPE).bind List.head?

def vendorClass (msg : DhcpMessage) : Option (List UInt8) := msg.option VENDOR_CLASS_ID

def clientArch (msg : DhcpMessage) : Option UInt16 :=
  ((msg.option CLIENT_SYSTEM_ARCH).filter fun d => 2 ≤ d.length).map fun d =>
    UInt16.ofNat (ofBe (slice d 0 2))

def userClass (msg : DhcpMessage) : Option (List UInt8) := msg.option USER_CLASS

end DhcpMessage

end XBoot.Dhcp
