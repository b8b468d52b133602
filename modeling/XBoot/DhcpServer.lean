import XBoot.BootHttp
import XBoot.DhcpPacket

/-!
# The DHCP server

What the server answers to one datagram. A message that is not understood, or for which
there is no boot plan, gets no answer.
-/

namespace XBoot.Dhcp

open ListSlices BigEndian Utf8 Boot

def ARCH_BIOS_X86 : UInt16 := 0x0000
def ARCH_UEFI_X64 : UInt16 := 0x0007
def ARCH_UEFI_X64_ALT : UInt16 := 0x0009

structure OfferPlan where
  bootfile : String
  nextServer : Option (BitVec 32)
  yiaddr : BitVec 32
  deriving DecidableEq, Repr

def windows {α : Type} (n : ℕ) (xs : List α) : List (List α) :=
  (List.range (xs.length + 1 - n)).map fun i => slice xs i n

/-- The user class has `iPXE` in it. -/
def isIpxe (msg : DhcpMessage) : Bool :=
  match msg.userClass with
  | none => false
  | some uc => (windows 4 uc).any (· = ascii "iPXE")

def hexByte (b : UInt8) : String :=
  String.ofList [Nat.digitChar (b.toNat / 16), Nat.digitChar (b.toNat % 16)]

def formatMac (bytes : List UInt8) : String := ":".intercalate (bytes.map hexByte)

/-- The hardware address of a message, at most 16 bytes of its field. -/
def DhcpMessage.mac (msg : DhcpMessage) : List UInt8 := msg.chaddr.1.take (min msg.hlen.toNat 16)

/-- The server's network with a host part from the last byte of the MAC. -/
def assignIpFromMac (macBytes : List UInt8) (serverIp : BitVec 32) : Option (BitVec 32) :=
  macBytes.getLast?.map fun lastByte =>
    if lastByte < 2 ∨ lastByte = 255 then ipv4 ((octets serverIp).take 3 ++ [100 + lastByte])
    else ipv4 ((octets serverIp).take 3 ++ [lastByte])

/-- The boot plan for a request; iPXE gets the script's URL, firmware a file for its
architecture. -/
def plan (msg : DhcpMessage) (cfg : BootConfig) : Option OfferPlan :=
  match assignIpFromMac msg.mac cfg.serverIp with
  | none => none
  | some yiaddr =>
    if isIpxe msg then
      some ⟨cfg.httpScriptUrl ++ "?mac=" ++ formatMac msg.mac, none, yiaddr⟩
    else match msg.clientArch with
      | none => none
      | some arch =>
        if arch = ARCH_BIOS_X86 then some ⟨cfg.biosFilename, some cfg.serverIp, yiaddr⟩
        else if arch = ARCH_UEFI_X64 ∨ arch = ARCH_UEFI_X64_ALT then
          some ⟨cfg.uefiFilename, some cfg.serverIp, yiaddr⟩
        else none

def pxeOfferVendorOpts (serverIp : BitVec 32) : List UInt8 :=
  [6, 1, 0x0F, 8, 7, 0x00, 0x00, 1] ++ octets serverIp ++ [255]

def pxeAckVendorOpts : List UInt8 := [71, 4, 0, 0, 0, 0, 255]

inductive Role where
  | dhcp
  | proxyDhcp
  | bootServer
  deriving DecidableEq, Repr

def broadcast : BitVec 32 := BitVec.allOnes 32

def BROADCAST_FLAG : UInt16 := 0x8000

inductive SocketAddr where
  | v4 (ip : BitVec 32) (port : UInt16)
  | v6 (ip : BitVec 128) (port : UInt16) (flowinfo scopeId : UInt32)
  deriving DecidableEq, Repr

def bootOptions (plan : OfferPlan) : List DhcpOption :=
  ⟨BOOTFILE_NAME, encode plan.bootfile⟩ ::
    (plan.nextServer.map fun ns => ⟨TFTP_SERVER_NAME, encode (ipv4Text ns)⟩).toList

def leaseOptions (serverIp : BitVec 32) : List DhcpOption :=
  [⟨1, [255, 255, 255, 0]⟩, ⟨3, octets serverIp⟩, ⟨6, octets serverIp⟩, ⟨51, toBe 4 3600⟩]

def replyOptions (plan : OfferPlan) (cfg : BootConfig) (mtype : UInt8) (vendor43 : List UInt8)
    (role : Role) : List DhcpOption :=
  [⟨MSG_TYPE, [mtype]⟩] ++
    (if role = .dhcp ∨ role = .bootServer then [⟨SERVER_ID, octets cfg.serverIp⟩] else []) ++
    [⟨VENDOR_CLASS_ID, ascii "PXEClient"⟩] ++
    (if role = .proxyDhcp ∨ role = .bootServer then bootOptions plan else []) ++
    [⟨VENDOR_SPECIFIC, vendor43⟩] ++
    (if role ≠ .bootServer then leaseOptions cfg.serverIp else [])

def buildReply (req : DhcpMessage) (plan : OfferPlan) (cfg : BootConfig) (mtype : UInt8)
    (vendor43 : List UInt8) (role : Role) : DhcpMessage where
  op := BOOTREPLY
  htype := req.htype
  hlen := req.hlen
  hops := 0
  xid := req.xid
  secs := 0
  flags := req.flags
  ciaddr := 0
  yiaddr := if role = .bootServer then 0 else plan.yiaddr
  siaddr := plan.nextServer.getD 0
  giaddr := req.giaddr
  chaddr := req.chaddr
  options := replyOptions plan cfg mtype vendor43 role

def replyDest (req : DhcpMessage) (sender : SocketAddr) : SocketAddr :=
  if req.giaddr ≠ 0 then .v4 req.giaddr 67
  else if req.flags &&& BROADCAST_FLAG ≠ 0 then .v4 broadcast 68
  else sender

def isPxe (req : DhcpMessage) : Bool :=
  match req.vendorClass with
  | none => false
  | some v => (ascii "PXEClient").isPrefixOf v

/-- Handle a message on port 67, where DISCOVER and REQUEST are answered. -/
def handlePort67 (req : DhcpMessage) (cfg : BootConfig) (sender : SocketAddr) :
    Option (DhcpMessage × SocketAddr) :=
  let role := if isPxe req then Role.proxyDhcp else Role.dhcp
  match req.messageType with
  | none => none
  | some mtype =>
    if mtype = DISCOVER then
      (plan req cfg).map fun p =>
        (buildReply req p cfg OFFER (pxeOfferVendorOpts cfg.serverIp) role, replyDest req sender)
    else if mtype = REQUEST then
      (plan req cfg).map fun p =>
        (buildReply req p cfg ACK (pxeOfferVendorOpts cfg.serverIp) role, replyDest req sender)
    else none

/-- Handle a message on port 4011, where the boot server answers REQUEST only. -/
def handlePort4011 (req : DhcpMessage) (cfg : BootConfig) : Option (DhcpMessage × SocketAddr) :=
  if req.messageType ≠ some REQUEST then none
  else (plan req cfg).map fun p =>
    (buildReply req p cfg ACK pxeAckVendorOpts .bootServer, .v4 broadcast 68)

/-- The reply to one datagram and where it goes; a malformed datagram is dropped. -/
def handleDatagram (data : List UInt8) (cfg : BootConfig) (isPort67 : Bool) (sender : SocketAddr) :
    Option (DhcpMessage × SocketAddr) :=
  match parse data with
  | .error _ => none
  | .ok req => if isPort67 then handlePort67 req cfg sender else handlePort4011 req cfg

end XBoot.Dhcp
