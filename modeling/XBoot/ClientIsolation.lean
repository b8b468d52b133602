import XBoot.BootHttp
import Mathlib.Data.List.Pairwise

/-!
# Isolation of the clients

Boot requests and the commands of iSCSI connections act on one registry. A client's
target is its own exactly when no two clients, known or unknown, are given one IQN.
-/

namespace XBoot.Boot

open Utf8 Iscsi Storage KeyedTables

structure Registration where
  mac : String
  iqn : String
  place : ℕ

/-- What the server reaches from an empty registry, with the boots so far. -/
inductive Serves (cfg : Config) (manager : ClientManager) : List Registration → World → Prop
  | start : Serves cfg manager [] World.empty
  | refused {log : List Registration} {w : World} {req : HttpRequest} {response : HttpResponse}
      (hserves : Serves cfg manager log w) (hhandle : handle cfg manager w req = .ok (response, w)) :
      Serves cfg manager log w
  | booted {log : List Registration} {w : World} {req : HttpRequest} {response : HttpResponse}
      {mac iqn : String} {target : ScsiTarget} (hserves : Serves cfg manager log w) (hmac : req.mac = some mac)
      (hhandle : handle cfg manager w req = .ok (response, w.insert iqn target)) :
      Serves cfg manager (log ++ [⟨mac, iqn, w.instances.length⟩]) (w.insert iqn target)
  | command {log : List Registration} {w w' : World} {t : ℕ} {cmd : ScsiCommand} {data : List UInt8}
      {outcome : ScsiOutcome} (hserves : Serves cfg manager log w)
      (hexecute : World.execute t cmd data w = .ok (outcome, w')) : Serves cfg manager log w'

/-- The IQNs of different clients differ, the target under a client's IQN was registered for
that client, and no other client logs in to it. -/
structure Isolated (log : List Registration) (w : World) : Prop where
  apart : ∀ a ∈ log, ∀ b ∈ log, toLowercase a.mac ≠ toLowercase b.mac → a.iqn ≠ b.iqn
  own : ∀ a ∈ log, ∃ b ∈ log, toLowercase b.mac = toLowercase a.mac ∧ w.get a.iqn = some b.place
  unshared : ∀ a ∈ log, ∀ b ∈ log, toLowercase a.mac ≠ toLowercase b.mac →
    w.get a.iqn ≠ w.get b.iqn

def Client.suffix (c : Client) : String := c.name.getD (toLowercase c.mac)

/-- Every known MAC has a suffix of its own, and unknown MACs are refused. -/
structure Config.SuffixesApart (cfg : Config) : Prop where
  no_defaults : cfg.clientDefaults = none
  apart : ∀ key key' c c', cfg.entry key = some c → cfg.entry key' = some c' → key ≠ key' →
    c.suffix ≠ c'.suffix

/-- Every accepted configuration isolates the clients in every run of the server. -/
def BootsIsolated (isDir : String → Bool) (openBacking : String → Except IoError BackingStore) :
    Prop :=
  ∀ cfg manager, validate isDir cfg = .ok () → ClientManager.new openBacking cfg = .ok manager →
    ∀ log w, Serves cfg manager log w → Isolated log w

variable {isDir : String → Bool} {openBacking : String → Except IoError BackingStore}
  {cfg : Config} {manager : ClientManager} {log : List Registration} {w w' : World}

/-- Every handled request is one of the steps. -/
theorem Serves.request {req : HttpRequest} {response : HttpResponse}
    (hserves : Serves cfg manager log w) (h : handle cfg manager w req = .ok (response, w')) :
    ∃ more, Serves cfg manager (log ++ more) w' := by
  cases handle_handles h with
  | refuses => exact ⟨[], by rw [List.append_nil]; exact hserves.refused h⟩
  | boots hmac => exact ⟨_, hserves.booted hmac h⟩

structure Registration.Resolved (cfg : Config) (manager : ClientManager) (a : Registration) : Prop where
  has_boot : cfg.boot ≠ none
  resolved : ∃ client, manager.resolve a.mac = some client ∧ a.iqn = clientIqn client

structure Follows (cfg : Config) (manager : ClientManager) (log : List Registration) (w : World) : Prop where
  resolved : ∀ a ∈ log, a.Resolved cfg manager
  latest : ∀ a ∈ log, ∃ b ∈ log, b.iqn = a.iqn ∧ w.get a.iqn = some b.place
  place_lt : ∀ a ∈ log, a.place < w.instances.length
  distinct : log.Pairwise fun a b => a.place ≠ b.place

theorem insert_ne (w : World) (iqn : String) (target : ScsiTarget) :
    w.insert iqn target ≠ w := by
  intro h
  have hlen := World.length_insert w iqn target
  rw [h] at hlen
  omega

private theorem insert_iqn {iqn iqn' : String} {target target' : ScsiTarget}
    (h : w.insert iqn target = w.insert iqn' target') : iqn = iqn' := by
  have hregistry := congrArg World.registry h
  exact (Prod.mk.inj (List.cons.inj hregistry).1).1

private theorem booted_resolved {req : HttpRequest} {response : HttpResponse} {mac iqn : String}
    {target : ScsiTarget} (hmac : req.mac = some mac)
    (h : handle cfg manager w req = .ok (response, w.insert iqn target)) :
    cfg.boot ≠ none ∧ ∃ client, manager.resolve mac = some client ∧ iqn = clientIqn client := by
  generalize hw' : w.insert iqn target = w' at h
  cases handle_handles h with
  | refuses => exact absurd hw' (insert_ne w iqn target)
  | boots hmac' hresolve hboot =>
    cases hmac.symm.trans hmac'
    refine ⟨by rw [hboot]; exact nofun, _, hresolve, insert_iqn hw'⟩

private theorem booted_follows {a : Registration} {target : ScsiTarget} (h : Follows cfg manager log w)
    (hresolved : a.Resolved cfg manager) (hplace : a.place = w.instances.length) :
    Follows cfg manager (log ++ [a]) (w.insert a.iqn target) := by
  refine ⟨fun b hb => ?_, fun b hb => ?_, fun b hb => ?_, ?_⟩
  · rcases List.mem_append.1 hb with hb | hb
    · exact h.resolved b hb
    · rw [List.mem_singleton.1 hb]
      exact hresolved
  · by_cases hiqn : b.iqn = a.iqn
    · refine ⟨a, List.mem_append_right _ (List.mem_singleton.2 rfl), hiqn.symm, ?_⟩
      rw [hiqn, World.get_insert_self, hplace]
    · rcases List.mem_append.1 hb with hb | hb
      · obtain ⟨b', hb', hsame, hget⟩ := h.latest b hb
        refine ⟨b', List.mem_append_left _ hb', hsame, ?_⟩
        rw [World.get_insert_of_ne w target hiqn, hget]
      · exact absurd (congrArg Registration.iqn (List.mem_singleton.1 hb)) hiqn
  · rw [World.length_insert]
    rcases List.mem_append.1 hb with hb | hb
    · exact Nat.lt_succ_of_lt (h.place_lt b hb)
    · rw [List.mem_singleton.1 hb, hplace]
      exact Nat.lt_succ_self _
  · refine List.pairwise_append.2 ⟨h.distinct, List.pairwise_singleton _ _, fun b hb c hc => ?_⟩
    rw [List.mem_singleton.1 hc, hplace]
    exact Nat.ne_of_lt (h.place_lt b hb)

private theorem serves_follows (h : Serves cfg manager log w) : Follows cfg manager log w := by
  induction h with
  | start => exact ⟨nofun, nofun, nofun, List.Pairwise.nil⟩
  | refused _ _ ih => exact ih
  | booted _ hmac hhandle ih =>
    obtain ⟨hboot, hresolved⟩ := booted_resolved hmac hhandle
    exact booted_follows ih ⟨hboot, hresolved⟩ rfl
  | command _ hexecute ih =>
    obtain ⟨hregistry, hlen⟩ := World.execute_keeps hexecute
    refine ⟨ih.resolved, fun a ha => ?_, fun a ha => hlen.symm ▸ ih.place_lt a ha, ih.distinct⟩
    rw [World.get, hregistry]
    exact ih.latest a ha

private theorem Follows.place_inj (h : Follows cfg manager log w) {a b : Registration} (ha : a ∈ log)
    (hb : b ∈ log) (hplace : a.place = b.place) : a = b := by
  by_contra hne
  have hsymm : Std.Symm fun a b : Registration => a.place ≠ b.place := ⟨fun _ _ h => h.symm⟩
  exact h.distinct.forall ha hb hne hplace

private theorem Follows.isolated (h : Follows cfg manager log w)
    (hapart : ∀ a ∈ log, ∀ b ∈ log, toLowercase a.mac ≠ toLowercase b.mac → a.iqn ≠ b.iqn) :
    Isolated log w := by
  have hown : ∀ a ∈ log, ∃ b ∈ log, toLowercase b.mac = toLowercase a.mac ∧
      w.get a.iqn = some b.place := by
    intro a ha
    obtain ⟨b, hb, hiqn, hget⟩ := h.latest a ha
    refine ⟨b, hb, ?_, hget⟩
    by_contra hmac
    exact hapart b hb a ha hmac hiqn
  refine ⟨hapart, hown, fun a ha b hb hmac hget => ?_⟩
  obtain ⟨a', ha', hmaca, hgeta⟩ := hown a ha
  obtain ⟨b', hb', hmacb, hgetb⟩ := hown b hb
  have hplace : a'.place = b'.place := by
    rw [hgeta, hgetb] at hget
    exact Option.some.inj hget
  rw [h.place_inj ha' hb' hplace] at hmaca
  exact hmac (hmaca.symm.trans hmacb)

private theorem resolve_entry (hnew : ClientManager.new openBacking cfg = .ok manager)
    (hdefaults : cfg.clientDefaults = none) {mac : String} {client : ClientConfig}
    (h : manager.resolve mac = some client) :
    ∃ c, cfg.entry (toLowercase mac) = some c ∧ client = c.resolved := by
  rw [resolve_eq hnew, hdefaults, Option.map_none, Option.or_none] at h
  obtain ⟨c, hentry, hclient⟩ := Option.map_eq_some_iff.1 h
  exact ⟨c, hentry, hclient.symm⟩

private theorem clientIqn_inj {c c' : Client} (h : clientIqn c.resolved = clientIqn c'.resolved) :
    c.suffix = c'.suffix := String.append_right_inj _ |>.1 h

private theorem isolated_of_apart (hnew : ClientManager.new openBacking cfg = .ok manager)
    (hapart : cfg.SuffixesApart) (h : Serves cfg manager log w) : Isolated log w := by
  have hfollows := serves_follows h
  refine hfollows.isolated fun a ha b hb hmac hiqn => ?_
  obtain ⟨ca, hca, hiqna⟩ := (hfollows.resolved a ha).resolved
  obtain ⟨cb, hcb, hiqnb⟩ := (hfollows.resolved b hb).resolved
  obtain ⟨ea, hea, rfl⟩ := resolve_entry hnew hapart.no_defaults hca
  obtain ⟨eb, heb, rfl⟩ := resolve_entry hnew hapart.no_defaults hcb
  refine hapart.apart _ _ ea eb hea heb hmac (clientIqn_inj ?_)
  rw [← hiqna, ← hiqnb, hiqn]

private theorem isolated_of_no_boot (hboot : cfg.boot = none) (h : Serves cfg manager log w) :
    Isolated log w := by
  have hnone : ∀ a, a ∉ log := fun a ha => ((serves_follows h).resolved a ha).has_boot hboot
  exact ⟨fun a ha => absurd ha (hnone a), fun a ha => absurd ha (hnone a),
    fun a ha => absurd ha (hnone a)⟩

private theorem two_boots {mac mac' : String} {client client' : ClientConfig} {boot : BootConfig}
    (hboot : cfg.boot = some boot) (hplain : ∀ c ∈ mac.toList, plain c = true)
    (hplain' : ∀ c ∈ mac'.toList, plain c = true) (hresolve : manager.resolve mac = some client)
    (hresolve' : manager.resolve mac' = some client') (hiqn : clientIqn client = clientIqn client')
    (hne : toLowercase mac ≠ toLowercase mac') :
    ∃ log w, Serves cfg manager log w ∧ ¬ Isolated log w := by
  have hfirst := Serves.start.booted (mac_bootRequest hplain)
    (handle_bootRequest World.empty (mac_bootRequest hplain) hresolve hboot)
  have hboth := hfirst.booted (mac_bootRequest hplain')
    (handle_bootRequest _ (mac_bootRequest hplain') hresolve' hboot)
  refine ⟨_, _, hboth, fun hisolated => ?_⟩
  exact hisolated.apart _ (List.mem_append_left _ (List.mem_singleton.2 rfl)) _
    (List.mem_append_right _ (List.mem_singleton.2 rfl)) hne hiqn

theorem mac_char_lt {c : Char} (h : c = ':' ∨ isAsciiHexdigit c = true) : c.toNat < 128 := by
  rcases h with rfl | h
  · decide
  · simp only [isAsciiHexdigit, Bool.or_eq_true, Bool.and_eq_true, decide_eq_true_eq] at h
    rcases h with (h | h) | h
    · exact Nat.lt_of_le_of_lt h.2 (by decide)
    · exact Nat.lt_of_le_of_lt h.2 (by decide)
    · exact Nat.lt_of_le_of_lt h.2 (by decide)

private theorem mac_chars : ∀ n < 128, (Char.ofNat n = ':' ∨ isAsciiHexdigit (Char.ofNat n) = true) →
    plain (Char.ofNat n) = true ∧ lowerChar (Char.ofNat n) ≠ 'z' := by
  decide

private theorem mac_char {c : Char} (h : c = ':' ∨ isAsciiHexdigit c = true) :
    plain c = true ∧ lowerChar c ≠ 'z' := by
  have hc := mac_chars c.toNat (mac_char_lt h)
  rw [Char.ofNat_toNat] at hc
  exact hc h

private theorem entry_z (hvalid : validate isDir cfg = .ok ()) {key : String} (hz : 'z' ∈ key.toList) :
    cfg.entry key = none := by
  cases hentry : cfg.entry key with
  | none => rfl
  | some c =>
    obtain ⟨hmem, rfl⟩ := entry_eq_some hentry
    rw [toLowercase, String.toList_ofList] at hz
    obtain ⟨d, hd, hlower⟩ := List.mem_map.1 hz
    exact absurd hlower (mac_char (isValidMac_chars (validate_macs hvalid c hmem) hd)).2

private theorem two_unknown (hvalid : validate isDir cfg = .ok ())
    (hnew : ClientManager.new openBacking cfg = .ok manager) {boot : BootConfig}
    (hboot : cfg.boot = some boot) {d : ClientDefaults} (hd : cfg.clientDefaults = some d) :
    ∃ log w, Serves cfg manager log w ∧ ¬ Isolated log w := by
  have hresolve : ∀ mac, 'z' ∈ (toLowercase mac).toList → manager.resolve mac = some d.resolved := by
    intro mac hz
    rw [resolve_eq hnew, entry_z hvalid hz, hd]
    rfl
  exact two_boots hboot (List.all_eq_true.1 (by decide)) (List.all_eq_true.1 (by decide))
    (hresolve "z" (by decide)) (hresolve "zz" (by decide)) rfl (by decide)

private theorem two_known (hvalid : validate isDir cfg = .ok ())
    (hnew : ClientManager.new openBacking cfg = .ok manager) {boot : BootConfig}
    (hboot : cfg.boot = some boot) {key key' : String} {c c' : Client}
    (hc : cfg.entry key = some c) (hc' : cfg.entry key' = some c') (hne : key ≠ key')
    (hsuffix : c.suffix = c'.suffix) : ∃ log w, Serves cfg manager log w ∧ ¬ Isolated log w := by
  have hplain : ∀ {key c}, cfg.entry key = some c → ∀ d ∈ c.mac.toList, plain d = true :=
    fun hentry d hd => (mac_char (isValidMac_chars (validate_macs hvalid _ (entry_eq_some hentry).1) hd)).1
  have hresolve : ∀ {key c}, cfg.entry key = some c → manager.resolve c.mac = some c.resolved := by
    intro key c hentry
    rw [resolve_eq hnew, (entry_eq_some hentry).2, hentry]
    rfl
  have hiqn : clientIqn c.resolved = clientIqn c'.resolved :=
    congrArg ("iqn.2026-06.dev.xboot:" ++ ·) hsuffix
  refine two_boots hboot (hplain hc) (hplain hc') (hresolve hc) (hresolve hc') hiqn ?_
  rw [(entry_eq_some hc).2, (entry_eq_some hc').2]
  exact hne

/-- An accepted configuration isolates the clients in every run exactly when it has no boot
section, or no defaults and suffixes of their own for all known MACs. -/
theorem boots_isolated_iff (isDir : String → Bool)
    (openBacking : String → Except IoError BackingStore) (cfg : Config) (manager : ClientManager)
    (hvalid : validate isDir cfg = .ok ()) (hnew : ClientManager.new openBacking cfg = .ok manager) :
    (∀ log w, Serves cfg manager log w → Isolated log w) ↔ cfg.boot = none ∨ cfg.SuffixesApart := by
  constructor
  · intro h
    cases hboot : cfg.boot with
    | none => exact .inl rfl
    | some boot =>
      have hall : ¬ ∃ log w, Serves cfg manager log w ∧ ¬ Isolated log w :=
        fun ⟨log, w, hserves, hnot⟩ => hnot (h log w hserves)
      refine .inr ⟨?_, fun key key' c c' hc hc' hne hsuffix => ?_⟩
      · cases hd : cfg.clientDefaults with
        | none => rfl
        | some d => exact absurd (two_unknown hvalid hnew hboot hd) hall
      · exact hall (two_known hvalid hnew hboot hc hc' hne hsuffix)
  · rintro (hboot | hapart) log w hserves
    · exact isolated_of_no_boot hboot hserves
    · exact isolated_of_apart hnew hapart hserves

def oneDisk : List Disk := [⟨"img", .image, "img.raw"⟩, ⟨"wb", .writeback, "wb"⟩]

def bootSection : BootConfig where
  serverIp := 0xC0A8010A
  httpPort := 80
  iscsiPort := 3260
  tftpRoot := "/tmp"
  biosFilename := "undionly.kpxe"
  uefiFilename := "ipxe.efi"
  httpScriptUrl := "http://192.168.1.10/boot.ipxe"

def twoClients : Config where
  disks := oneDisk
  clients := [⟨"AA:BB:CC:DD:EE:01", some "pc-01", "img", [], "wb"⟩,
    ⟨"aa:bb:cc:dd:ee:02", none, "img", [], "wb"⟩]
  clientDefaults := none
  boot := some bootSection

def defaultsOnly : Config where
  disks := oneDisk
  clients := []
  clientDefaults := some ⟨"img", [], "wb"⟩
  boot := some bootSection

private theorem suffixes_apart_of {cfg : Config} (hdefaults : cfg.clientDefaults = none)
    (h : ∀ c ∈ cfg.clients, ∀ c' ∈ cfg.clients, toLowercase c.mac ≠ toLowercase c'.mac →
      c.suffix ≠ c'.suffix) : cfg.SuffixesApart := by
  refine ⟨hdefaults, fun key key' c c' hc hc' hne => ?_⟩
  obtain ⟨hmem, rfl⟩ := entry_eq_some hc
  obtain ⟨hmem', rfl⟩ := entry_eq_some hc'
  exact h c hmem c' hmem' hne

def blankImages : String → Except IoError BackingStore :=
  fun _ => .ok (blankDisk 4096 (by decide))

/-- Two clients with IQNs of their own are isolated. -/
theorem two_clients_isolated : ∃ manager, ClientManager.new blankImages twoClients = .ok manager ∧
    ∀ log w, Serves twoClients manager log w → Isolated log w := by
  obtain ⟨manager, hnew⟩ : ∃ manager, ClientManager.new blankImages twoClients = .ok manager :=
    ⟨_, rfl⟩
  have hvalid : validate (fun _ => true) twoClients = .ok () := by decide
  have hapart : twoClients.SuffixesApart := suffixes_apart_of rfl (by decide)
  exact ⟨manager, hnew, (boots_isolated_iff _ _ _ _ hvalid hnew).2 (.inr hapart)⟩

/-- Two unknown MACs are given one IQN. -/
theorem unknown_clients_share_iqn : ¬ BootsIsolated (fun _ => true) blankImages := by
  intro h
  obtain ⟨manager, hnew⟩ : ∃ manager, ClientManager.new blankImages defaultsOnly = .ok manager :=
    ⟨_, rfl⟩
  have hvalid : validate (fun _ => true) defaultsOnly = .ok () := by decide
  have hresolve : ∀ mac, manager.resolve mac = some (ClientDefaults.resolved ⟨"img", [], "wb"⟩) :=
    fun mac => resolve_eq hnew mac
  have hplain : ∀ mac ∈ ["52:54:00:00:00:01", "52:54:00:00:00:02"], mac.toList.all plain = true := by
    decide
  have hboot : defaultsOnly.boot = some bootSection := rfl
  obtain ⟨log, w, hserves, hnot⟩ := two_boots hboot
    (List.all_eq_true.1 (hplain "52:54:00:00:00:01" (by simp)))
    (List.all_eq_true.1 (hplain "52:54:00:00:00:02" (by simp))) (hresolve _) (hresolve _) rfl
    (by decide)
  exact hnot (h defaultsOnly manager hvalid hnew log w hserves)

end XBoot.Boot
