import XBoot.BootTargets
import XBoot.DataInSequences
import XBoot.DhcpReplies
import XBoot.IpxeTexts
import XBoot.TargetInstances

/-!
# Booting over the network

A machine without a disk asks for an address, fetches the script that it is offered, and logs in to
the target that the script names. Whatever other machines do at the same time, what it reads from
its LUNs are the disks that the configuration gives it. The machine's iPXE is a parameter, which
reads texts as its documentation says.
-/

namespace XBoot.Boot

open BigEndian Dhcp Iscsi ListSlices Machines BlockArrays Numerals Storage Utf8

def offeredBootfile (reply : List UInt8) : Option String :=
  match parse reply with
  | .error _ => none
  | .ok msg => (msg.option BOOTFILE_NAME).map fromUtf8Lossy

/-- A discover of iPXE whose options all fit. -/
structure Discovers (msg : DhcpMessage) : Prop where
  fits : ∀ o ∈ msg.options, o.Fits
  discover : msg.messageType = some DISCOVER
  pxe : isPxe msg = true
  ipxe : isIpxe msg = true
  hlen : msg.hlen = 6

/-- The boot section names the script of this server, by its address and HTTP port, and the port of
iSCSI. -/
structure Reachable (boot : BootConfig) : Prop where
  url : ∃ port : Option UInt16, port.getD 80 = boot.httpPort ∧
    boot.httpScriptUrl = "http://" ++ ipv4Text boot.serverIp ++ portText port ++ "/boot.ipxe"
  port : boot.iscsiPort = 3260

variable {boot : BootConfig} {msg : DhcpMessage}

theorem mac_of_hlen (h : msg.hlen = 6) : msg.mac = msg.chaddr.1.take 6 := by
  rw [DhcpMessage.mac, h]
  rfl

def bootUrl (boot : BootConfig) (msg : DhcpMessage) : String :=
  boot.httpScriptUrl ++ "?mac=" ++ formatMac msg.mac

theorem Reachable.length_le (h : Reachable boot) : (encode boot.httpScriptUrl).length + 22 ≤ 255 := by
  obtain ⟨port, -, hurl⟩ := h.url
  have hip := length_encode_ipv4Text boot.serverIp
  have hport : (encode (portText port)).length ≤ 6 := by
    cases port with
    | none => decide
    | some port =>
      have hdigits : (encode (toString port.toNat)).length ≤ 5 :=
        length_encode_toString (by decide) (Nat.lt_of_lt_of_le port.toNat_lt (by decide))
      have hcolon : (encode ":").length = 1 := by decide
      rw [portText, encode_append, List.length_append]
      omega
  have hscheme : (encode "http://").length = 7 := by decide
  have hpath : (encode "/boot.ipxe").length = 10 := by decide
  rw [hurl]
  simp only [encode_append, List.length_append]
  omega

theorem offer_names_url (h : Discovers msg) (hboot : Reachable boot) (sender : SocketAddr) :
    ∃ reply dest, handleDatagram msg.encode boot true sender = some (reply, dest) ∧
      offeredBootfile reply.encode = some (bootUrl boot msg) := by
  obtain ⟨p, hplan⟩ : ∃ p, plan msg boot = some p := by
    have hlast : msg.mac.getLast?.isSome := by
      rw [mac_of_hlen h.hlen, List.getLast?_isSome]
      intro hnil
      have hlen := congrArg List.length hnil
      rw [List.length_take, msg.chaddr.2] at hlen
      cases hlen
    obtain ⟨last, hlast⟩ := Option.isSome_iff_exists.1 hlast
    rw [plan, assignIpFromMac, hlast]
    exact ⟨_, if_pos h.ipxe⟩
  have hurl : p.bootfile = bootUrl boot msg := plan_ipxe h.ipxe hplan
  refine ⟨buildReply msg p boot OFFER (pxeOfferVendorOpts boot.serverIp) .proxyDhcp,
    replyDest msg sender, ?_, ?_⟩
  · rw [handleDatagram, parse_encode h.fits]
    dsimp only
    rw [if_pos rfl, handlePort67, h.discover]
    dsimp only
    rw [if_pos rfl, hplan, if_pos h.pxe]
    rfl
  · have hshort : (encode p.bootfile).length ≤ 255 := by
      rw [plan_bootfile hplan, if_pos h.ipxe, h.hlen]
      exact hboot.length_le
    have hvendor : (pxeOfferVendorOpts boot.serverIp).length ≤ 255 := by
      rw [pxeOfferVendorOpts, List.length_append, List.length_append, length_octets]
      decide
    have hfits := (replyOptions_fits_iff p boot OFFER (pxeOfferVendorOpts boot.serverIp) .proxyDhcp
      hvendor).2 (.inr hshort)
    rw [offeredBootfile, parse_encode hfits]
    have hoption : (buildReply msg p boot OFFER (pxeOfferVendorOpts boot.serverIp) .proxyDhcp).option
        BOOTFILE_NAME = some (encode p.bootfile) := rfl
    simp only [hoption, Option.map_some, fromUtf8Lossy_encode, hurl]

theorem standsForItself_of_mem_formatMac {bytes : List UInt8} {c : Char}
    (h : c ∈ (formatMac bytes).toList) : standsForItself c = true := by
  rcases mem_formatMac h with rfl | ⟨n, hn, rfl⟩
  · decide
  · exact (show ∀ n < 16, standsForItself (Nat.digitChar n) = true by decide) n hn

/-- iPXE fetches the URL of an offer from this server, as the client's request for its script. -/
theorem fetch_bootUrl {ipxe : Ipxe} (hipxe : ipxe.Documented) (hboot : Reachable boot)
    (msg : DhcpMessage) : ipxe.fetch (bootUrl boot msg) =
      some ⟨ipv4Text boot.serverIp, boot.httpPort.toNat, bootRequest (formatMac msg.mac)⟩ := by
  obtain ⟨port, hport, hurl⟩ := hboot.url
  have hpath : UrlPath "/boot.ipxe" := by
    refine ⟨by decide, fun c hc => ?_⟩
    have hall : "/boot.ipxe".toList.all (fun c => c = '/' || standsForItself c) = true := by decide
    simpa using List.all_eq_true.1 hall c hc
  have hquery : UrlQuery ("mac=" ++ formatMac msg.mac) := by
    intro c hc
    rw [String.toList_append] at hc
    rcases List.mem_append.1 hc with hc | hc
    · have hall : "mac=".toList.all (fun c => c = '=' || standsForItself c) = true := by decide
      simpa using List.all_eq_true.1 hall c hc
    · exact .inr (standsForItself_of_mem_formatMac hc)
  have hsplit : bootUrl boot msg =
      urlOf boot.serverIp port "/boot.ipxe" ("mac=" ++ formatMac msg.mac) := by
    have hmark : "?mac=" = "?" ++ "mac=" := rfl
    rw [bootUrl, hurl, urlOf, hmark]
    simp only [String.append_assoc]
  have hnumber : (port.map UInt16.toNat).getD 80 = boot.httpPort.toNat := by
    rw [← hport]
    cases port <;> rfl
  rw [hsplit, hipxe.fetch_url _ _ _ _ hpath hquery, hnumber]
  rfl

/-- The disk with this id serves the content. -/
structure Provides (openBacking : String → Except IoError BackingStore) (cfg : Config) (id : String)
    (content : List UInt8) : Prop where
  disk : ∃ disk ∈ cfg.disks, disk.id = id ∧ ∃ store, openBacking disk.backing = .ok store ∧
    store.Serves content

def devicesOf (contents : List (List UInt8)) : Devices :=
  contents.map fun content => some (.ofList 512 content)

variable {isDir : String → Bool} {openBacking : String → Except IoError BackingStore} {cfg : Config}
  {manager : ClientManager} {order : List String → List String} {history : History} {s : Server}

theorem Stored.serves {id : String} {kind : DiskType} {store : BackingStore} {content : List UInt8}
    (h : Stored openBacking cfg manager id kind store) (hprovides : Provides openBacking cfg id content) :
    store.Serves content := by
  obtain ⟨disk, -, -, -, hone, hopen⟩ := h.disk
  obtain ⟨other, hother, hid, store', hopen', hserves⟩ := hprovides.disk
  rw [hone other hother hid, hopen] at hopen'
  cases hopen'
  exact hserves

/-- A boot's target is the devices of the client's disks. -/
theorem bootTarget_pristine (hcfg : cfg.RefersToDisks)
    (hnew : ClientManager.new openBacking cfg = .ok manager) {mac : String} {client : ClientConfig}
    (hresolve : manager.resolve mac = some client) {contents : List (List UInt8)}
    (hcontents : List.Forall₂ (Provides openBacking cfg) (client.systemDiskId :: client.gameDiskIds)
      contents) : Pristine (bootTarget manager client) (devicesOf contents) := by
  have hrefers := resolve_refers hcfg hnew hresolve
  obtain ⟨system, hsystem⟩ := stored_of_ref hcfg hnew (.inl rfl) hrefers.system
  have hgames := fun g hg => stored_of_ref hcfg hnew (.inr rfl) (hrefers.games g hg)
  have : Nonempty BackingStore := ⟨system⟩
  choose! store hstore using hgames
  have hluns := bootTarget_luns hsystem.found fun id hid => (hstore id hid).found
  rcases hcontents with _ | ⟨hfirst, hrest⟩
  rw [Pristine, hluns, devicesOf, List.map_cons]
  refine .cons (.some ⟨_, hsystem.serves hfirst, rfl⟩) ?_
  rw [List.forall₂_map_left_iff, List.forall₂_map_right_iff]
  have hboth := (List.forall₂_and_left _ _).2 ⟨hstore, hrest⟩
  exact hboth.imp fun id content hpair => .some ⟨content, hpair.1.serves hpair.2, rfl⟩

/-- A connection reads the devices of its instance under the writes of all connections to it. -/
theorem instance_reads (h : Matches manager history s) {k p : ℕ} {target : ScsiTarget} {a : Devices}
    (hinserted : inserted p history = some target) (hunwritten : Unwritten target)
    (hpristine : Pristine target a) (hbound : (s.conns k).target = some p)
    (hstage : (s.conns k).stage = .fullFeature) {cmd : ScsiCommand} (hread : cmd.read = true)
    (hwrite : cmd.write = false) {n : ℕ} {dev : BlockDevice UInt8} {tr : Transfer}
    (hin : InRange ((shared p history).foldl stored a) cmd n dev tr) (htr : tr.write = false)
    (hne : dev.read tr.lba tr.count ≠ []) (hlt : (dev.read tr.lba tr.count).length < 2 ^ 32)
    (bhs : List UInt8) : ∃ rs c' w',
      (s.conns k).handle (World.targets order) s.world (.scsiCommand cmd) bhs =
        .ok (rs.map .dataIn, c', w') ∧
      InSequence (max 512 (s.conns k).params.maxRecvDataSegmentLength) (dev.read tr.lba tr.count) rs := by
  obtain ⟨outcomes, t, hreplay, hget⟩ := h.replayed p target hinserted
  obtain ⟨outcomes', t', a', hreplay', hallows, his⟩ :=
    execute_refines.runs (pristine_is hunwritten hpristine) (shared p history)
  cases hreplay.symm.trans hreplay'
  obtain ⟨outcome, t'', a'', hexec, hbehaves, -⟩ := execute_refines t a' (cmd, cmd.data) his
  rw [allows_after hallows] at hbehaves
  obtain ⟨hgood, hdata, -⟩ := hbehaves.reads n dev tr hin htr
  have hexecute := World.execute_of_get hget hexec order
  obtain ⟨rs, heq, hsent⟩ := dataInChunks_sent (s.conns k).counted cmd outcome.data 0 0
  have hsegment : (s.conns k).counted.segment = max 512 (s.conns k).params.maxRecvDataSegmentLength :=
    Nat.max_comm _ _
  rw [hsegment, hdata] at hsent
  have hhandle := handle_executed bhs hstage hwrite hbound hexecute
  rw [if_pos ⟨hread, hgood, hdata ▸ hne⟩, heq] at hhandle
  exact ⟨rs, _, _, hhandle, hsent.inSequence hlt⟩

/-- However the run goes on after boot number `p`, which is the latest one of the IQN: a connection
that is new can log in to it. -/
def Admits (cfg : Config) (manager : ClientManager) (order : List String → List String) (iqn : String)
    (p : ℕ) : Prop :=
  ∀ history s, Runs cfg manager order history s → LatestBoot iqn p history →
    ∀ k cmdSn, s.conns k = .new → ∃ pdus,
      (s.conns k).handle (World.targets order) s.world (.login (loginTo iqn cmdSn)) [] =
        .ok (pdus, .loggedIn p cmdSn, s.world)

/-- However the run goes on: a READ of a connection that logged in to boot number `p` is answered by
the blocks of the devices, under the writes of all connections that logged in to it. -/
def Reads (cfg : Config) (manager : ClientManager) (order : List String → List String) (p : ℕ)
    (a : Devices) (history : History) : Prop :=
  ∀ more s, Runs cfg manager order (more ++ history) s → ∀ k, LoggedInAfter k p (more ++ history) →
    (s.conns k).stage = .fullFeature → ∀ cmd n dev tr bhs, cmd.read = true → cmd.write = false →
      InRange ((shared p (more ++ history)).foldl stored a) cmd n dev tr → tr.write = false →
        dev.read tr.lba tr.count ≠ [] → (dev.read tr.lba tr.count).length < 2 ^ 32 →
          ∃ rs c' w', (s.conns k).handle (World.targets order) s.world (.scsiCommand cmd) bhs =
              .ok (rs.map .dataIn, c', w') ∧
            InSequence (max 512 (s.conns k).params.maxRecvDataSegmentLength)
              (dev.read tr.lba tr.count) rs

theorem inserted_append {p : ℕ} {target : ScsiTarget} (h : inserted p history = some target)
    (more : History) : inserted p (more ++ history) = some target := by
  induction more with
  | nil => exact h
  | cons entry more ih =>
    cases entry with
    | boots iqn target' => rw [List.cons_append, inserted, if_neg (Nat.ne_of_gt (inserted_lt ih)), ih]
    | logsIn => exact ih
    | executes => exact ih

theorem admits (cfg : Config) (manager : ClientManager) (order : List String → List String)
    (iqn : String) (p : ℕ) : Admits cfg manager order iqn p := by
  intro history s hruns hlatest k cmdSn hnew
  have hget : (World.targets order).get s.world iqn = some p :=
    (hruns.sound.get_eq iqn).trans (lastBoot_eq_some_iff.2 hlatest)
  rw [hnew]
  exact Connection.handle_loginTo [] hget

theorem reads_of_inserted {p : ℕ} {target : ScsiTarget} {a : Devices}
    (hinserted : inserted p history = some target) (hunwritten : Unwritten target)
    (hpristine : Pristine target a) : Reads cfg manager order p a history := by
  intro more s hruns k hlogged hstage cmd n dev tr bhs hread hwrite hin htr hne hlt
  have hsound := hruns.sound
  have honce : Once (more ++ history) := fun k iqn rest hsuffix =>
    hsound.accounted (.logsIn k iqn) rest hsuffix
  have hbound : (s.conns k).target = some p :=
    (hsound.target_eq k).trans ((session_eq_some_iff honce).2 hlogged)
  exact instance_reads hsound.toMatches (inserted_append hinserted more) hunwritten hpristine hbound
    hstage hread hwrite hin htr hne hlt bhs

/-- The name of a client's target is a word when the client's own name can be part of one. -/
theorem word_clientIqn {c : Client}
    (hname : ∀ name, c.name = some name → ∀ ch ∈ name.toList, standsForItself ch = true)
    {bytes : List UInt8} (hmac : toLowercase c.mac = formatMac bytes) :
    Word (clientIqn c.resolved) := by
  have hsuffix : ∀ ch ∈ (c.resolved.name.getD c.resolved.mac).toList, standsForItself ch = true := by
    cases hclient : c.name with
    | some name =>
      have hresolved : c.resolved.name = some name := hclient
      rw [hresolved]
      exact hname name hclient
    | none =>
      have hresolved : c.resolved.name = none := hclient
      have hlower : c.resolved.mac = formatMac bytes := hmac
      rw [hresolved, hlower]
      exact fun ch hch => standsForItself_of_mem_formatMac hch
  have hauthority : Word "iqn.2026-06.dev.xboot:" := by decide
  exact hauthority.append hsuffix

theorem commands_generate {ipxe : Ipxe} (hipxe : ipxe.Documented) {name : String} (h : Word name)
    (ip : BitVec 32) : ipxe.commands (BootScript.generate name (ipv4Text ip)) =
      [["set", "initiator-iqn", name], ["sanboot", sanUri ip name]] := by
  have hset : Word "set" := by decide
  have hkey : Word "initiator-iqn" := by decide
  have hsanboot : Word "sanboot" := by decide
  rw [generate_eq]
  apply hipxe.commands_script
  intro words hwords
  rcases List.mem_cons.1 hwords with rfl | hwords
  · exact ⟨List.cons_ne_nil _ _, List.forall_mem_cons.2 ⟨hset, List.forall_mem_cons.2 ⟨hkey,
      List.forall_mem_singleton.2 h⟩⟩⟩
  · rw [List.mem_singleton.1 hwords]
    exact ⟨List.cons_ne_nil _ _, List.forall_mem_cons.2 ⟨hsanboot,
      List.forall_mem_singleton.2 (word_sanUri h ip)⟩⟩

/-- From any state of the server, a client of the configuration boots: the offer to its hardware
address names the URL of its script on this server, the script boots from LUN 0 of a new target on
this server, a connection can log in to it until the next boot of its name, and what it reads are
the blocks of the client's disks under what was written to them since. -/
theorem client_boots_its_disks {ipxe : Ipxe} (hipxe : ipxe.Documented)
    (hvalid : validate isDir cfg = .ok ()) (hnew : ClientManager.new openBacking cfg = .ok manager)
    (hboot : cfg.boot = some boot) (hreach : Reachable boot)
    (hdistinct : cfg.clients.Pairwise fun c c' => eqIgnoreAsciiCase c.mac c'.mac = false) {c : Client}
    (hc : c ∈ cfg.clients)
    (hname : ∀ name, c.name = some name → ∀ ch ∈ name.toList, standsForItself ch = true)
    (hmsg : Discovers msg) (hdenotes : Denotes c.mac (msg.chaddr.1.take 6))
    {contents : List (List UInt8)}
    (hcontents : List.Forall₂ (Provides openBacking cfg) (c.system :: c.games) contents)
    (hruns : Runs cfg manager order history s) (sender : SocketAddr) :
    ∃ reply dest url request response uri iqn target,
      handleDatagram msg.encode boot true sender = some (reply, dest) ∧
      offeredBootfile reply.encode = some url ∧
      ipxe.fetch url = some ⟨ipv4Text boot.serverIp, boot.httpPort.toNat, request⟩ ∧
      handle cfg manager s.world request = .ok (response, s.world.insert iqn target) ∧
      ipxe.commands response.body = [["set", "initiator-iqn", iqn], ["sanboot", uri]] ∧
      ipxe.target uri = some ⟨ipv4Text boot.serverIp, boot.iscsiPort.toNat, 0, iqn⟩ ∧
      Runs cfg manager order (.boots iqn target :: history) ⟨s.world.insert iqn target, s.conns⟩ ∧
      Admits cfg manager order iqn (boots history) ∧
      Reads cfg manager order (boots history) (devicesOf contents) (.boots iqn target :: history) := by
  have hne : msg.chaddr.1.take 6 ≠ [] := by
    intro hnil
    have hlen := congrArg List.length hnil
    rw [List.length_take, msg.chaddr.2] at hlen
    cases hlen
  have hmac : toLowercase c.mac = formatMac msg.mac := by
    rw [mac_of_hlen hmsg.hlen]
    exact (denotes_iff (validate_macs hvalid c hc) hne).1 hdenotes
  have hresolve : manager.resolve (formatMac msg.mac) = some c.resolved := by
    rw [resolve_eq hnew, toLowercase_formatMac, ← hmac, entry_of_mem hvalid hdistinct hc]
    rfl
  obtain ⟨reply, dest, hreply, hurl⟩ := offer_names_url hmsg hreach sender
  have hparam := mac_bootRequest (plain_formatMac msg.mac)
  have hhandle := handle_boots s.world rfl rfl hparam hresolve hboot
  have hiqn := word_clientIqn hname hmac
  have hport : boot.iscsiPort.toNat = 3260 := by
    rw [hreach.port]
    rfl
  refine ⟨reply, dest, _, _, _, sanUri boot.serverIp (clientIqn c.resolved), _, _, hreply, hurl,
    fetch_bootUrl hipxe hreach msg, hhandle, ?_, ?_, hruns.booted hhandle,
    admits cfg manager order _ _, ?_⟩
  · exact commands_generate hipxe hiqn boot.serverIp
  · rw [hport]
    exact hipxe.target_uri _ _ hiqn
  · have hinserted : inserted (boots history) (.boots (clientIqn c.resolved)
        (bootTarget manager c.resolved) :: history) = some (bootTarget manager c.resolved) := if_pos rfl
    exact reads_of_inserted hinserted (bootTarget_unwritten manager c.resolved)
      (bootTarget_pristine (validate_disks hvalid) hnew hresolve hcontents)

theorem first_client_boots : ∃ manager, ClientManager.new blankImages twoClients = .ok manager ∧
    ∃ reply dest url request response uri iqn target,
      handleDatagram ipxeDiscover.encode bootSection true (.v4 0 68) = some (reply, dest) ∧
      offeredBootfile reply.encode = some url ∧
      plainIpxe.fetch url = some ⟨ipv4Text bootSection.serverIp, 80, request⟩ ∧
      handle twoClients manager World.empty request = .ok (response, World.empty.insert iqn target) ∧
      plainIpxe.commands response.body = [["set", "initiator-iqn", iqn], ["sanboot", uri]] ∧
      plainIpxe.target uri = some ⟨ipv4Text bootSection.serverIp, 3260, 0, iqn⟩ ∧
      Reads twoClients manager id 0 (devicesOf [List.replicate 4096 0]) [.boots iqn target] := by
  obtain ⟨manager, hnew⟩ : ∃ manager, ClientManager.new blankImages twoClients = .ok manager := ⟨_, rfl⟩
  have hvalid : validate (fun _ => true) twoClients = .ok () := by decide
  have hdistinct : twoClients.clients.Pairwise fun c c' => eqIgnoreAsciiCase c.mac c'.mac = false := by
    decide
  have hreach : Reachable bootSection := ⟨⟨none, rfl, by decide⟩, rfl⟩
  have hdiscovers : Discovers ipxeDiscover :=
    ⟨ipxeDiscover_fits, by decide, by decide, ipxeDiscover_isIpxe, rfl⟩
  have hname : ∀ name, some "pc-01" = some name → ∀ ch ∈ name.toList, standsForItself ch = true := by
    rintro name ⟨⟩
    exact List.all_eq_true.1 (show "pc-01".toList.all standsForItself = true by decide)
  have hprovides : Provides blankImages twoClients "img" (List.replicate 4096 0) :=
    ⟨⟨_, List.mem_cons_self, rfl, _, rfl, blankDisk_serves 4096 (by decide)⟩⟩
  obtain ⟨reply, dest, url, request, response, uri, iqn, target, hreply, hurl, hfetch, hhandle, hscript,
      huri, -, -, hreads⟩ :=
    client_boots_its_disks plainIpxe_documented hvalid hnew rfl hreach hdistinct List.mem_cons_self
      hname hdiscovers (by decide) (.cons hprovides .nil)
      (show Runs twoClients manager id [] .start from .start) (.v4 0 68)
  exact ⟨manager, hnew, reply, dest, url, request, response, uri, iqn, target, hreply, hurl, hfetch,
    hhandle, hscript, huri, hreads⟩

end XBoot.Boot
