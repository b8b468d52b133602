import XBoot.BootUrls
import XBoot.DhcpCodec
import XBoot.Numerals

/-!
# The replies of the DHCP server

A reply starts with its message type, OFFER or ACK, so that no server answers it. All of its
options fit their length bytes, except for a boot file that is too long.
-/

namespace XBoot.Dhcp

open BigEndian Boot Utf8 Numerals

def roleOf (isPort67 : Bool) (req : DhcpMessage) : Role :=
  if isPort67 = true then if isPxe req = true then .proxyDhcp else .dhcp else .bootServer

structure Answers (cfg : BootConfig) (isPort67 : Bool) (req reply : DhcpMessage) : Prop where
  built : ∃ p mtype vendor, plan req cfg = some p ∧ (mtype = OFFER ∨ mtype = ACK) ∧
    (vendor = pxeOfferVendorOpts cfg.serverIp ∨ vendor = pxeAckVendorOpts) ∧
      reply = buildReply req p cfg mtype vendor (roleOf isPort67 req)

variable {cfg : BootConfig} {isPort67 : Bool} {sender dest : SocketAddr} {data : List UInt8}
  {req reply : DhcpMessage} {p : OfferPlan}

theorem handleDatagram_answers (h : handleDatagram data cfg isPort67 sender = some (reply, dest)) :
    ∃ req, parse data = .ok req ∧ Answers cfg isPort67 req reply := by
  rw [handleDatagram] at h
  split at h
  · cases h
  · rename_i req hparse
    refine ⟨req, hparse, ?_⟩
    cases isPort67 with
    | true =>
      rw [if_pos rfl, handlePort67] at h
      split at h
      · cases h
      · split at h
        · obtain ⟨p, hplan, hreply⟩ := Option.map_eq_some_iff.1 h
          cases hreply
          exact ⟨p, OFFER, _, hplan, .inl rfl, .inl rfl, rfl⟩
        · split at h
          · obtain ⟨p, hplan, hreply⟩ := Option.map_eq_some_iff.1 h
            cases hreply
            exact ⟨p, ACK, _, hplan, .inr rfl, .inl rfl, rfl⟩
          · cases h
    | false =>
      rw [if_neg Bool.false_ne_true, handlePort4011] at h
      split at h
      · cases h
      · obtain ⟨p, hplan, hreply⟩ := Option.map_eq_some_iff.1 h
        cases hreply
        exact ⟨p, ACK, _, hplan, .inr rfl, .inr rfl, rfl⟩

theorem handleDatagram_replyType {mtype : UInt8} {opts : List DhcpOption}
    (hmtype : mtype = OFFER ∨ mtype = ACK) (hparse : parse data = .ok req)
    (hfirst : req.options = ⟨MSG_TYPE, [mtype]⟩ :: opts) :
    handleDatagram data cfg isPort67 sender = none := by
  have htype : req.messageType = some mtype := by
    rw [DhcpMessage.messageType, DhcpMessage.option, hfirst]
    rfl
  have hdiscover : mtype ≠ DISCOVER := by rcases hmtype with rfl | rfl <;> decide
  have hrequest : mtype ≠ REQUEST := by rcases hmtype with rfl | rfl <;> decide
  rw [handleDatagram, hparse]
  dsimp only
  cases isPort67 with
  | true =>
    rw [if_pos rfl, handlePort67, htype]
    exact (if_neg hdiscover).trans (if_neg hrequest)
  | false =>
    rw [if_neg Bool.false_ne_true, handlePort4011, htype]
    exact if_pos fun hsome => hrequest (Option.some.inj hsome)

theorem messageType_fits (mtype : UInt8) : DhcpOption.Fits ⟨MSG_TYPE, [mtype]⟩ :=
  ⟨show MSG_TYPE ≠ PAD by decide, show MSG_TYPE ≠ END by decide, Nat.succ_le_succ (Nat.zero_le _)⟩

/-- No server answers an encoded reply of any server, on any port. -/
theorem no_reply_storms (cfg cfg' : BootConfig) (isPort67 isPort67' : Bool) (data : List UInt8)
    (sender sender' dest : SocketAddr) (reply : DhcpMessage)
    (h : handleDatagram data cfg isPort67 sender = some (reply, dest)) :
    handleDatagram reply.encode cfg' isPort67' sender' = none := by
  obtain ⟨req, -, hanswers⟩ := handleDatagram_answers h
  obtain ⟨p, mtype, vendor, -, hmtype, -, rfl⟩ := hanswers.built
  obtain ⟨opts, hopts⟩ : ∃ opts, (buildReply req p cfg mtype vendor (roleOf isPort67 req)).options =
      ⟨MSG_TYPE, [mtype]⟩ :: opts := ⟨_, rfl⟩
  have hparse := DhcpMessage.parse_encode_eq
    (buildReply req p cfg mtype vendor (roleOf isPort67 req))
  rw [hopts, List.flatMap_cons, List.append_assoc, parseOptions_option (messageType_fits mtype)]
    at hparse
  cases hrest : parseOptions (opts.flatMap DhcpOption.encode ++ [END]) with
  | error e =>
    rw [hrest] at hparse
    rw [handleDatagram, hparse]
    rfl
  | ok rest =>
    rw [hrest] at hparse
    exact handleDatagram_replyType hmtype hparse rfl

theorem ipxeDiscover_fits : ∀ o ∈ ipxeDiscover.options, o.Fits := by
  intro o ho
  simp only [ipxeDiscover, List.mem_cons, List.not_mem_nil, or_false] at ho
  rcases ho with rfl | rfl | rfl
  · exact ⟨by decide, by decide, by decide⟩
  · exact ⟨by decide, by decide, by decide⟩
  · exact ⟨by decide, by decide, by decide⟩

/-- PXE firmware that is iPXE is offered the script's URL, whatever it is. -/
theorem handleDatagram_ipxeDiscover (cfg : BootConfig) (sender : SocketAddr) :
    ∃ p, handleDatagram ipxeDiscover.encode cfg true sender =
        some (buildReply ipxeDiscover p cfg OFFER (pxeOfferVendorOpts cfg.serverIp) .proxyDhcp,
          sender) ∧
      p.bootfile = cfg.httpScriptUrl ++ "?mac=" ++ formatMac ipxeDiscover.mac := by
  obtain ⟨p, hplan⟩ : ∃ p, plan ipxeDiscover cfg = some p := ⟨_, rfl⟩
  refine ⟨p, ?_, plan_ipxe ipxeDiscover_isIpxe hplan⟩
  have htype : ipxeDiscover.messageType = some DISCOVER := by decide
  have hpxe : isPxe ipxeDiscover = true := by decide
  rw [handleDatagram, parse_encode ipxeDiscover_fits]
  dsimp only
  rw [if_pos rfl, handlePort67, htype]
  dsimp only
  rw [if_pos rfl, hplan, if_pos hpxe]
  rfl

/-- The server's offer to iPXE is not answered. -/
theorem no_reply_storms_ipxe : ∃ reply dest,
    handleDatagram ipxeDiscover.encode bootSection true (.v4 0 68) = some (reply, dest) ∧
      handleDatagram reply.encode bootSection false (.v4 0 68) = none := by
  obtain ⟨p, hreply, -⟩ := handleDatagram_ipxeDiscover bootSection (.v4 0 68)
  exact ⟨_, _, hreply, no_reply_storms bootSection bootSection true false _ _ _ _ _ hreply⟩

theorem encode_append (s t : String) : encode (s ++ t) = encode s ++ encode t := by
  rw [encode, String.toList_append, List.flatMap_append]
  rfl

/-- An address in text has at most 15 bytes. -/
theorem length_encode_ipv4Text (ip : BitVec 32) : (encode (ipv4Text ip)).length ≤ 15 := by
  have hoctet : ∀ n : ℕ, ((toString (n % 256)).toList.flatMap String.utf8EncodeChar).length ≤ 3 :=
    fun n => length_encode_toString (by decide)
      (Nat.lt_of_lt_of_le (Nat.mod_lt n (by decide)) (by decide))
  have hdot : ".".toList.flatMap String.utf8EncodeChar = [46] := by decide
  rw [encode, ipv4Text, String.toList_intercalate]
  simp only [List.map_cons, List.map_nil, List.intercalate_cons_cons, List.intercalate_singleton,
    List.flatMap_append, List.length_append, hdot, List.length_singleton]
  have h0 := hoctet (ip.toNat / 2 ^ 24)
  have h1 := hoctet (ip.toNat / 2 ^ 16)
  have h2 := hoctet (ip.toNat / 2 ^ 8)
  have h3 := hoctet (ip.toNat / 2 ^ 0)
  omega

theorem length_intercalate_pairs {sep : Char} {parts : List (List Char)}
    (h : ∀ part ∈ parts, part.length = 2) : ([sep].intercalate parts).length = 3 * parts.length - 1 := by
  induction parts with
  | nil => rfl
  | cons part parts ih =>
    have hrest := ih fun part' hpart' => h part' (List.mem_cons_of_mem part hpart')
    have hpart := h part List.mem_cons_self
    by_cases hlast : parts = []
    · rw [hlast, List.intercalate_singleton, hpart]
      rfl
    · have hpos := List.length_pos_iff.2 hlast
      rw [List.intercalate_cons_of_ne_nil hlast, List.length_append, List.length_append, hrest, hpart,
        List.length_singleton, List.length_cons]
      omega

theorem length_encode_formatMac (bytes : List UInt8) :
    (encode (formatMac bytes)).length = 3 * bytes.length - 1 := by
  have hascii : ∀ c ∈ (formatMac bytes).toList, c.toNat < 0x80 := by
    intro c hc
    have hplain := plain_formatMac bytes c hc
    simp only [plain, Bool.and_eq_true, decide_eq_true_eq] at hplain
    exact hplain.1.1
  rw [length_encode_ascii hascii, toList_formatMac, length_intercalate_pairs, List.length_map]
  rintro part hpart
  obtain ⟨b, -, rfl⟩ := List.mem_map.1 hpart
  rfl

/-- What decides whether the boot file of a reply fits: plain DHCP replies have none, iPXE is
given the URL with its MAC, and firmware the file for its architecture. -/
def BootfileFits (cfg : BootConfig) (isPort67 : Bool) (req : DhcpMessage) : Prop :=
  (isPort67 = true ∧ isPxe req = false) ∨
    if isIpxe req = true then (encode cfg.httpScriptUrl).length + 4 + 3 * min req.hlen.toNat 16 ≤ 255
    else if req.clientArch = some ARCH_BIOS_X86 then (encode cfg.biosFilename).length ≤ 255
    else (encode cfg.uefiFilename).length ≤ 255

/-- The length of the boot file that is offered. -/
theorem plan_bootfile (hplan : plan req cfg = some p) : (encode p.bootfile).length ≤ 255 ↔
    if isIpxe req = true then (encode cfg.httpScriptUrl).length + 4 + 3 * min req.hlen.toNat 16 ≤ 255
    else if req.clientArch = some ARCH_BIOS_X86 then (encode cfg.biosFilename).length ≤ 255
    else (encode cfg.uefiFilename).length ≤ 255 := by
  rw [plan] at hplan
  split at hplan
  · cases hplan
  · rename_i yiaddr hassign
    by_cases hipxe : isIpxe req = true
    · rw [if_pos hipxe] at hplan ⊢
      cases hplan
      have hquery : (encode "?mac=").length = 5 := by decide
      have hmac : req.mac.length = min req.hlen.toNat 16 := by
        rw [DhcpMessage.mac, List.length_take, req.chaddr.2]
        omega
      have hpos : 0 < req.mac.length := by
        rw [List.length_pos_iff]
        intro hnil
        rw [assignIpFromMac, hnil] at hassign
        cases hassign
      rw [encode_append, encode_append, List.length_append, List.length_append, hquery,
        length_encode_formatMac, ← hmac]
      omega
    · rw [if_neg hipxe] at hplan ⊢
      split at hplan
      · cases hplan
      · rename_i arch harch
        rw [harch]
        by_cases hbios : arch = ARCH_BIOS_X86
        · rw [if_pos hbios] at hplan
          rw [if_pos (congrArg some hbios)]
          cases hplan
          rfl
        · rw [if_neg hbios] at hplan
          rw [if_neg fun hsome => hbios (Option.some.inj hsome)]
          split at hplan
          · cases hplan
            rfl
          · cases hplan

theorem length_octets (ip : BitVec 32) : (octets ip).length = 4 := length_toBe 4 ip.toNat

theorem fits_iff {code : UInt8} {data : List UInt8} (hcode : code ≠ PAD ∧ code ≠ END) :
    DhcpOption.Fits ⟨code, data⟩ ↔ data.length ≤ 255 :=
  ⟨fun h => h.length_le, fun h => ⟨hcode.1, hcode.2, h⟩⟩

theorem leaseOptions_fits (ip : BitVec 32) : ∀ o ∈ leaseOptions ip, o.Fits := by
  intro o ho
  simp only [leaseOptions, List.mem_cons, List.not_mem_nil, or_false] at ho
  rcases ho with rfl | rfl | rfl | rfl
  · exact ⟨by decide, by decide, by decide⟩
  · exact (fits_iff (by decide)).2 (by rw [length_octets]; decide)
  · exact (fits_iff (by decide)).2 (by rw [length_octets]; decide)
  · exact ⟨by decide, by decide, by decide⟩

theorem bootOptions_fits_iff (p : OfferPlan) :
    (∀ o ∈ bootOptions p, o.Fits) ↔ (encode p.bootfile).length ≤ 255 := by
  rw [bootOptions, List.forall_mem_cons, fits_iff (by decide)]
  refine and_iff_left fun o ho => ?_
  obtain ⟨ns, -, rfl⟩ := Option.map_eq_some_iff.1 (Option.mem_toList.1 ho)
  have hlen := length_encode_ipv4Text ns
  exact (fits_iff (by decide)).2 (Nat.le_trans hlen (by decide))

/-- The options of a reply fit when its boot file does, or is left out. -/
theorem replyOptions_fits_iff (p : OfferPlan) (cfg : BootConfig) (mtype : UInt8)
    (vendor : List UInt8) (role : Role) (hvendor : vendor.length ≤ 255) :
    (∀ o ∈ replyOptions p cfg mtype vendor role, o.Fits) ↔
      role = .dhcp ∨ (encode p.bootfile).length ≤ 255 := by
  have htype := messageType_fits mtype
  have hserver : DhcpOption.Fits ⟨SERVER_ID, octets cfg.serverIp⟩ :=
    (fits_iff (by decide)).2 (by rw [length_octets]; decide)
  have hclass : DhcpOption.Fits ⟨VENDOR_CLASS_ID, ascii "PXEClient"⟩ :=
    ⟨by decide, by decide, by decide⟩
  have hspecific : DhcpOption.Fits ⟨VENDOR_SPECIFIC, vendor⟩ := (fits_iff (by decide)).2 hvendor
  have hlease := iff_true_intro (leaseOptions_fits cfg.serverIp)
  have hboot := bootOptions_fits_iff p
  cases role <;>
    simp only [replyOptions, List.forall_mem_append, List.forall_mem_singleton, htype, hserver, hclass,
      hspecific, hboot, hlease, reduceCtorEq, or_true, true_or, or_false, false_or, if_true, if_false,
      ne_eq, not_true_eq_false, not_false_eq_true, true_and, and_true, List.not_mem_nil,
      false_imp_iff, implies_true]

/-- All options of a reply fit, and it is read back from the wire, exactly when its boot file
fits one option. -/
theorem reply_round_trips_iff (cfg : BootConfig) (isPort67 : Bool) (data : List UInt8)
    (sender dest : SocketAddr) (req reply : DhcpMessage) (hparse : parse data = .ok req)
    (h : handleDatagram data cfg isPort67 sender = some (reply, dest)) :
    ((∀ o ∈ reply.options, o.Fits) ∧ parse reply.encode = .ok reply) ↔
      BootfileFits cfg isPort67 req := by
  obtain ⟨req', hparse', hanswers⟩ := handleDatagram_answers h
  cases hparse.symm.trans hparse'
  obtain ⟨p, mtype, vendor, hplan, -, hvendor, rfl⟩ := hanswers.built
  have hshort : vendor.length ≤ 255 := by
    rcases hvendor with rfl | rfl
    · rw [pxeOfferVendorOpts, List.length_append, List.length_append, length_octets]
      decide
    · decide
  have hfits := replyOptions_fits_iff p cfg mtype vendor (roleOf isPort67 req) hshort
  have hrole : roleOf isPort67 req = .dhcp ↔ isPort67 = true ∧ isPxe req = false := by
    rw [roleOf]
    cases isPort67 <;> cases isPxe req <;> simp
  rw [hrole, plan_bootfile hplan] at hfits
  exact ⟨fun hboth => hfits.1 hboth.1, fun hboot => ⟨hfits.2 hboot, parse_encode (hfits.2 hboot)⟩⟩

theorem reply_round_trips_ipxe : ∃ reply dest,
    handleDatagram ipxeDiscover.encode bootSection true (.v4 0 68) = some (reply, dest) ∧
      (∀ o ∈ reply.options, o.Fits) ∧ parse reply.encode = .ok reply := by
  obtain ⟨p, hreply, -⟩ := handleDatagram_ipxeDiscover bootSection (.v4 0 68)
  have hfits : BootfileFits bootSection true ipxeDiscover := by
    rw [BootfileFits, if_pos ipxeDiscover_isIpxe]
    decide
  exact ⟨_, _, hreply, (reply_round_trips_iff bootSection true _ _ _ ipxeDiscover _
    (parse_encode ipxeDiscover_fits) hreply).2 hfits⟩

/-- A script URL that leaves no room for the MAC. -/
def longUrl : BootConfig :=
  { bootSection with httpScriptUrl := "http://" ++ String.ofList (List.replicate 240 'a') }

theorem checkUrl_longUrl : checkUrl longUrl.httpScriptUrl = [] := by
  have hne : longUrl.httpScriptUrl.isEmpty = false := by
    rw [String.isEmpty_eq_false_iff]
    intro hempty
    have hnil := congrArg String.toList hempty
    rw [longUrl, String.toList_append] at hnil
    exact absurd (List.append_eq_nil_iff.1 hnil).1 (by decide)
  have hprefix : "http://".toList.isPrefixOf longUrl.httpScriptUrl.toList = true := by
    rw [longUrl, String.toList_append, List.isPrefixOf_iff_prefix]
    exact List.prefix_append _ _
  rw [checkUrl, hne, hprefix]
  rfl

theorem length_longUrl : (encode longUrl.httpScriptUrl).length = 247 := by
  have hhttp : (encode "http://").length = 7 := by decide
  rw [longUrl, encode_append, List.length_append, hhttp, length_encode_replicate 240 (by decide)]

/-- The long URL is accepted, and a reply with it is not read back from the wire. -/
theorem longUrl_truncated :
    validate (fun _ => true) { twoClients with boot := some longUrl } = .ok () ∧
      ∃ reply dest,
        handleDatagram ipxeDiscover.encode longUrl true (.v4 0 68) = some (reply, dest) ∧
          (∃ o ∈ reply.options, 255 < o.data.length) ∧ parse reply.encode ≠ .ok reply := by
  obtain ⟨p, hreply, hbootfile⟩ := handleDatagram_ipxeDiscover longUrl (.v4 0 68)
  have hlong : 255 < (encode p.bootfile).length := by
    rw [hbootfile, encode_append, encode_append, List.length_append, List.length_append,
      length_encode_formatMac, length_longUrl]
    decide
  have hvalid : validate (fun _ => true) { twoClients with boot := some longUrl } = .ok () := by
    have hboot : checkBoot (fun _ => true) longUrl = [] := by
      rw [checkBoot, checkUrl_longUrl]
      decide
    have hnone : validationErrors (fun _ => true) { twoClients with boot := some longUrl } = [] := by
      rw [validationErrors, Option.map_some, hboot]
      decide
    rw [validate, hnone]
    rfl
  refine ⟨hvalid, _, _, hreply, ⟨⟨BOOTFILE_NAME, encode p.bootfile⟩, ?_, hlong⟩, fun hread => ?_⟩
  · simp [buildReply, replyOptions, bootOptions]
  · have hfits := parse_fits hread ⟨BOOTFILE_NAME, encode p.bootfile⟩
      (by simp [buildReply, replyOptions, bootOptions])
    exact Nat.not_le.2 hlong hfits.length_le

end XBoot.Dhcp
