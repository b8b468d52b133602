import XBoot.DhcpReplies
import XBoot.TftpDownloads

/-!
# The first stage of a boot

PXE firmware is offered a program for its architecture and fetches it over TFTP: the request for the
name in the reply is served, and a download that finishes has the program's bytes.
-/

namespace XBoot.Boot

open Dhcp Utf8

def programOf (boot : BootConfig) (req : DhcpMessage) : String :=
  if req.clientArch = some ARCH_BIOS_X86 then boot.biosFilename else boot.uefiFilename

/-- A name that fits a DHCP option and a TFTP request. -/
structure Nameable (name : String) : Prop where
  field : Tftp.Field name
  length_le : (encode name).length ≤ 255

/-- The operating system finds a file of this name under the root. -/
structure HostsFile {Path : Type} (host : Tftp.Host Path) (root : Path) (filename : String)
    (content : List UInt8) : Prop where
  binds : host.binds = true
  inside : ∃ realPath realRoot, host.canonicalize (host.join root filename) = some realPath ∧
    host.canonicalize root = some realRoot ∧ host.startsWith realPath realRoot = true ∧
    host.read realPath = some content

variable {boot : BootConfig} {req reply : DhcpMessage} {p : OfferPlan} {datagram : List UInt8}
  {isPort67 : Bool} {sender dest : SocketAddr}

theorem plan_firmware (hipxe : isIpxe req = false) (hplan : plan req boot = some p) :
    p.bootfile = programOf boot req ∧ p.nextServer = some boot.serverIp := by
  rw [plan] at hplan
  split at hplan
  · cases hplan
  · rw [hipxe, if_neg Bool.false_ne_true] at hplan
    rw [programOf]
    split at hplan
    · cases hplan
    · rename_i arch harch
      rw [harch]
      by_cases hbios : arch = ARCH_BIOS_X86
      · rw [if_pos hbios] at hplan
        rw [if_pos (congrArg some hbios)]
        cases hplan
        exact ⟨rfl, rfl⟩
      · rw [if_neg hbios] at hplan
        rw [if_neg fun hsome => hbios (Option.some.inj hsome)]
        split at hplan
        · cases hplan
          exact ⟨rfl, rfl⟩
        · cases hplan

/-- A reply to firmware is read back, and names the program and this server. -/
theorem reply_names_program (hbios : Nameable boot.biosFilename) (huefi : Nameable boot.uefiFilename)
    (hparse : parse datagram = .ok req) (hipxe : isIpxe req = false)
    (hrole : isPort67 = true → isPxe req = true)
    (hreply : handleDatagram datagram boot isPort67 sender = some (reply, dest)) :
    parse reply.encode = .ok reply ∧ reply.siaddr = boot.serverIp ∧
      reply.option BOOTFILE_NAME = some (encode (programOf boot req)) := by
  obtain ⟨req', hparse', hanswers⟩ := handleDatagram_answers hreply
  cases hparse.symm.trans hparse'
  obtain ⟨p, mtype, vendor, hplan, -, hvendor, rfl⟩ := hanswers.built
  obtain ⟨hname, hserver⟩ := plan_firmware hipxe hplan
  have hshort : (encode p.bootfile).length ≤ 255 := by
    rw [hname, programOf]
    split
    · exact hbios.length_le
    · exact huefi.length_le
  have hvendor : vendor.length ≤ 255 := by
    rcases hvendor with rfl | rfl
    · rw [pxeOfferVendorOpts, List.length_append, List.length_append, length_octets]
      decide
    · decide
  have hfits := (replyOptions_fits_iff p boot mtype vendor (roleOf isPort67 req) hvendor).2 (.inr hshort)
  have hrole : roleOf isPort67 req ≠ .dhcp := by
    rw [roleOf]
    split
    · rw [if_pos (hrole (by assumption))]
      exact Role.noConfusion
    · exact Role.noConfusion
  refine ⟨parse_encode hfits, ?_, ?_⟩
  · rw [buildReply, hserver]
    rfl
  · rw [← hname]
    generalize roleOf isPort67 req = role at hrole ⊢
    cases role with
    | dhcp => exact absurd rfl hrole
    | proxyDhcp => rfl
    | bootServer => rfl

section

variable {Path : Type} {host : Tftp.Host Path} {root : Path} {filename mode : String}
  {content : List UInt8} {toLowercase : String → String} {cfg : Tftp.TftpServer}
  {options : List (String × String)}

/-- A request for a file under the root is served. -/
theorem handleRequest_transfers (hfile : Tftp.Field filename) (hmode : Tftp.Field mode)
    (hoptions : ∀ kv ∈ options, Tftp.Field kv.1 ∧ Tftp.Field kv.2)
    (hsafe : isSafeFilename filename = true) (hhost : HostsFile host root filename content)
    (turns : List Tftp.Turn) :
    Tftp.handleRequest host root toLowercase cfg (Tftp.requestBytes filename mode options) turns =
      .transfers (Tftp.sendFile toLowercase cfg content (Tftp.lowered toLowercase options) turns) := by
  obtain ⟨realPath, realRoot, hpath, hroot, hunder, hread⟩ := hhost.inside
  have hparse := Tftp.parse_requestBytes_append toLowercase options hfile hmode []
  rw [List.append_nil, List.append_nil, Tftp.parseOptions_optionBytes hoptions] at hparse
  have hopen : Tftp.openFile host root filename = .ok content := by
    rw [Tftp.openFile, Tftp.isSafePath, hsafe, if_neg Bool.noConfusion, hpath]
    dsimp only
    rw [hroot]
    dsimp only
    rw [hunder, if_neg Bool.noConfusion, hread]
  rw [Tftp.handleRequest, hparse]
  dsimp only [Except.map]
  rw [Tftp.handleRrq, hopen, Tftp.onSocket, hhost.binds, if_pos rfl]

end

/-- The names of an accepted boot section stay under the root. -/
theorem isSafeFilename_programOf {isDir : String → Bool} {cfg : Config}
    (hvalid : validate isDir cfg = .ok ()) (hboot : cfg.boot = some boot) (req : DhcpMessage) :
    isSafeFilename (programOf boot req) = true := by
  rw [validate] at hvalid
  split at hvalid
  · rename_i hnone
    rw [List.isEmpty_iff, validationErrors, hboot] at hnone
    have hchecks : checkBoot isDir boot = [] := (List.append_eq_nil_iff.1 hnone).2
    simp only [checkBoot, List.append_eq_nil_iff] at hchecks
    rw [programOf]
    split
    · exact Tftp.isSafePath_of_checkFilename hchecks.1.1.2
    · exact Tftp.isSafePath_of_checkFilename hchecks.1.2
  · cases hvalid

/-- Under an accepted configuration a reply to firmware names this server and a program whose request
is served, and a download of it that finishes has the program's bytes. -/
theorem firmware_fetches_program {isDir : String → Bool} {cfg : Config}
    (hvalid : validate isDir cfg = .ok ()) (hboot : cfg.boot = some boot)
    (hbios : Nameable boot.biosFilename) (huefi : Nameable boot.uefiFilename)
    (hparse : parse datagram = .ok req) (hipxe : isIpxe req = false)
    (hrole : isPort67 = true → isPxe req = true)
    (hreply : handleDatagram datagram boot isPort67 sender = some (reply, dest))
    {Path : Type} {host : Tftp.Host Path} {root : Path} {content : List UInt8}
    (hhost : HostsFile host root (programOf boot req) content) (toLowercase : String → String)
    (tftp : Tftp.TftpServer) {mode : String} (hmode : Tftp.Field mode)
    {options : List (String × String)} (hoptions : ∀ kv ∈ options, Tftp.Field kv.1 ∧ Tftp.Field kv.2)
    (hwrap : content.length <
      65535 * Tftp.negotiateBlksize tftp.maxBlksize (Tftp.lowered toLowercase options)) :
    (parse reply.encode = .ok reply ∧ reply.siaddr = boot.serverIp ∧
      reply.option BOOTFILE_NAME = some (encode (programOf boot req))) ∧
    (∀ turns, Tftp.handleRequest host root toLowercase tftp
        (Tftp.requestBytes (programOf boot req) mode options) turns =
      .transfers (Tftp.sendFile toLowercase tftp content (Tftp.lowered toLowercase options) turns)) ∧
    ∀ peer ex, Tftp.Exchange.Reaches toLowercase tftp peer content (Tftp.lowered toLowercase options) ex →
      ex.client.finished = true → ex.client.received.flatten = content := by
  have hfield : Tftp.Field (programOf boot req) := by
    rw [programOf]
    split
    · exact hbios.field
    · exact huefi.field
  refine ⟨reply_names_program hbios huefi hparse hipxe hrole hreply, fun turns => ?_,
    fun peer ex hreach hdone => ?_⟩
  · exact handleRequest_transfers hfield hmode hoptions (isSafeFilename_programOf hvalid hboot req)
      hhost turns
  · obtain ⟨hnat, hpos, hsmall⟩ := Tftp.Exchange.blksize_facts hwrap
    rw [← hnat] at hpos hsmall
    exact (hreach.agrees rfl hpos hsmall).whole hpos hdone

def biosDiscover : DhcpMessage :=
  { ipxeDiscover with options :=
      [⟨MSG_TYPE, [DISCOVER]⟩, ⟨VENDOR_CLASS_ID, BigEndian.ascii "PXEClient"⟩,
      ⟨CLIENT_SYSTEM_ARCH, [0, 0]⟩] }

def oneProgram : Tftp.Host String where
  join root name := root ++ "/" ++ name
  canonicalize := some
  startsWith path root := root.toList.isPrefixOf path.toList
  read path := if path = "/tmp/undionly.kpxe" then some [1, 2, 3] else none
  binds := true

theorem bios_fetches_program : ∃ reply dest,
    handleDatagram biosDiscover.encode bootSection true (.v4 0 68) = some (reply, dest) ∧
      reply.option BOOTFILE_NAME = some (encode "undionly.kpxe") ∧
      ∀ turns, Tftp.handleRequest oneProgram "/tmp" id Tftp.TftpServer.new
          (Tftp.requestBytes "undionly.kpxe" "octet" []) turns =
        .transfers (Tftp.sendFile id Tftp.TftpServer.new [1, 2, 3] [] turns) := by
  have hvalid : validate (fun _ => true) twoClients = .ok () := by decide
  have hfits : ∀ o ∈ biosDiscover.options, o.Fits := by
    intro o ho
    simp only [biosDiscover, List.mem_cons, List.not_mem_nil, or_false] at ho
    rcases ho with rfl | rfl | rfl
    · exact ⟨by decide, by decide, by decide⟩
    · exact ⟨by decide, by decide, by decide⟩
    · exact ⟨by decide, by decide, by decide⟩
  have hparse : parse biosDiscover.encode = .ok biosDiscover := parse_encode hfits
  obtain ⟨reply, dest, hreply⟩ : ∃ reply dest,
      handleDatagram biosDiscover.encode bootSection true (.v4 0 68) = some (reply, dest) := by
    rw [handleDatagram, hparse]
    exact ⟨_, _, rfl⟩
  have hprogram : programOf bootSection biosDiscover = "undionly.kpxe" := by decide
  have hfield {s : String} (hne : s ≠ "") (h : s.toList.all (·.toNat ≠ 0) = true) : Tftp.Field s :=
    ⟨hne, fun c hc => of_decide_eq_true (List.all_eq_true.1 h c hc)⟩
  have hhost : HostsFile oneProgram "/tmp" (programOf bootSection biosDiscover) [1, 2, 3] := by
    rw [hprogram]
    exact ⟨rfl, _, _, rfl, rfl, by decide, by decide⟩
  have hoptions : ∀ kv ∈ ([] : List (String × String)), Tftp.Field kv.1 ∧ Tftp.Field kv.2 :=
    List.forall_mem_nil _
  obtain ⟨⟨-, -, hname⟩, hserved, -⟩ := firmware_fetches_program hvalid rfl
    ⟨hfield (by decide) (by decide), by decide⟩ ⟨hfield (by decide) (by decide), by decide⟩
    hparse (by decide) (fun _ => by decide) hreply hhost id Tftp.TftpServer.new
    (hfield (s := "octet") (by decide) (by decide)) hoptions (by decide)
  rw [hprogram] at hname hserved
  exact ⟨reply, dest, hreply, hname, hserved⟩

end XBoot.Boot
