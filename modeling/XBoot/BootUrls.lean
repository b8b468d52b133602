import XBoot.ClientLookup
import XBoot.DhcpServer

/-!
# The client's MAC on its way

The DHCP server writes the hardware address into the script's URL, and the boot-script
server reads it from the query and looks it up among MACs that are written in any letter
case. Both speak of the same client.
-/

namespace XBoot.Dhcp

open Boot Iscsi KeyedTables Storage Utf8

def hexDigits (b : UInt8) : List Char :=
  [Nat.digitChar (b.toNat / 16), Nat.digitChar (b.toNat % 16)]

def hexDigitValue (c : Char) : Option ℕ :=
  if '0' ≤ c ∧ c ≤ '9' then some (c.toNat - '0'.toNat)
  else if 'A' ≤ c ∧ c ≤ 'F' then some (c.toNat - 'A'.toNat + 10)
  else if 'a' ≤ c ∧ c ≤ 'f' then some (c.toNat - 'a'.toNat + 10)
  else none

def octetValue : List Char → Option UInt8
  | [hi, lo] => match hexDigitValue hi, hexDigitValue lo with
    | some h, some l => some (UInt8.ofNat (16 * h + l))
    | _, _ => none
  | _ => none

/-- A MAC text denotes these bytes. -/
def Denotes (mac : String) (bytes : List UInt8) : Prop :=
  (mac.toList.splitOn ':').map octetValue = bytes.map some

instance (mac : String) (bytes : List UInt8) : Decidable (Denotes mac bytes) :=
  inferInstanceAs (Decidable (_ = _))

private theorem digit_table : ∀ n < 16, plain (Nat.digitChar n) = true ∧
    lowerChar (Nat.digitChar n) = Nat.digitChar n ∧ Nat.digitChar n ≠ ':' := by
  decide

private theorem digitChar_inj : ∀ m < 16, ∀ n < 16, Nat.digitChar m = Nat.digitChar n → m = n := by
  decide

private theorem hexdigit_table : ∀ n < 128, isAsciiHexdigit (Char.ofNat n) = true →
    ∃ v < 16, hexDigitValue (Char.ofNat n) = some v ∧
      lowerChar (Char.ofNat n) = Nat.digitChar v := by
  decide

theorem hexdigit_value {c : Char} (h : isAsciiHexdigit c = true) :
    ∃ v < 16, hexDigitValue c = some v ∧ lowerChar c = Nat.digitChar v := by
  have hc := hexdigit_table c.toNat (mac_char_lt (.inr h))
  rw [Char.ofNat_toNat] at hc
  exact hc h

/-- Two hex digits denote a byte when they are its digits in some letter case. -/
theorem octetValue_eq_some {octet : List Char} (hlen : octet.length = 2)
    (hhex : octet.all isAsciiHexdigit = true) (b : UInt8) :
    octetValue octet = some b ↔ octet.map lowerChar = hexDigits b := by
  obtain ⟨hi, lo, rfl⟩ := List.length_eq_two.1 hlen
  simp only [List.all_cons, List.all_nil, Bool.and_true, Bool.and_eq_true] at hhex
  obtain ⟨h, hh, hhi, hhilow⟩ := hexdigit_value hhex.1
  obtain ⟨l, hl, hlo, hlolow⟩ := hexdigit_value hhex.2
  have hb : b.toNat < 256 := b.toNat_lt
  have hvalue : octetValue [hi, lo] = some (UInt8.ofNat (16 * h + l)) := by
    simp only [octetValue, hhi, hlo]
  have hbyte : UInt8.ofNat (16 * h + l) = b ↔ 16 * h + l = b.toNat := by
    rw [← UInt8.toNat_inj, UInt8.toNat_ofNat_of_lt' (show 16 * h + l < 256 by omega)]
  rw [hvalue, Option.some.injEq, hbyte, List.map_cons, List.map_singleton, hhilow, hlolow, hexDigits,
    List.cons.injEq, List.cons.injEq]
  constructor
  · intro hsum
    have hdiv : b.toNat / 16 = h := by omega
    have hmod : b.toNat % 16 = l := by omega
    exact ⟨by rw [hdiv], by rw [hmod], rfl⟩
  · rintro ⟨hdiv, hmod, -⟩
    have hhigh := digitChar_inj h hh (b.toNat / 16) (by omega) hdiv
    have hlow := digitChar_inj l hl (b.toNat % 16) (by omega) hmod
    omega

theorem mem_intercalate {α : Type} {sep x : α} {parts : List (List α)}
    (h : x ∈ [sep].intercalate parts) : x = sep ∨ ∃ part ∈ parts, x ∈ part := by
  induction parts with
  | nil => cases h
  | cons part parts ih =>
    by_cases hlast : parts = []
    · rw [hlast, List.intercalate_singleton] at h
      exact .inr ⟨part, List.mem_cons_self, h⟩
    · rw [List.intercalate_cons_of_ne_nil hlast, List.mem_append, List.mem_append,
        List.mem_singleton] at h
      rcases h with (hpart | hsep) | hrest
      · exact .inr ⟨part, List.mem_cons_self, hpart⟩
      · exact .inl hsep
      · rcases ih hrest with hsep | ⟨part', hpart', hmem⟩
        · exact .inl hsep
        · exact .inr ⟨part', List.mem_cons_of_mem _ hpart', hmem⟩

theorem map_intercalate {α : Type} (f : α → α) {sep : α} (hsep : f sep = sep)
    (parts : List (List α)) :
    ([sep].intercalate parts).map f = [sep].intercalate (parts.map (·.map f)) := by
  induction parts with
  | nil => rfl
  | cons part parts ih =>
    by_cases hlast : parts = []
    · rw [hlast, List.intercalate_singleton, List.map_singleton, List.intercalate_singleton]
    · have hmore : parts.map (·.map f) ≠ [] := fun hnil => hlast (List.map_eq_nil_iff.1 hnil)
      rw [List.intercalate_cons_of_ne_nil hlast, List.map_cons,
        List.intercalate_cons_of_ne_nil hmore, List.map_append, List.map_append, ih,
        List.map_singleton, hsep]

theorem toList_formatMac (bytes : List UInt8) :
    (formatMac bytes).toList = [':'].intercalate (bytes.map hexDigits) := by
  have hdigits : String.toList ∘ hexByte = hexDigits := by
    funext b
    exact String.toList_ofList
  rw [formatMac, String.toList_intercalate, List.map_map, hdigits]
  rfl

theorem mem_formatMac {bytes : List UInt8} {c : Char} (h : c ∈ (formatMac bytes).toList) :
    c = ':' ∨ ∃ n < 16, c = Nat.digitChar n := by
  rw [toList_formatMac] at h
  refine (mem_intercalate h).imp_right ?_
  rintro ⟨part, hpart, hc⟩
  obtain ⟨b, -, rfl⟩ := List.mem_map.1 hpart
  have hb : b.toNat < 256 := b.toNat_lt
  simp only [hexDigits, List.mem_cons, List.not_mem_nil, or_false] at hc
  rcases hc with hc | hc
  · exact ⟨b.toNat / 16, by omega, hc⟩
  · exact ⟨b.toNat % 16, by omega, hc⟩

theorem plain_formatMac (bytes : List UInt8) : ∀ c ∈ (formatMac bytes).toList, plain c = true := by
  intro c hc
  rcases mem_formatMac hc with rfl | ⟨n, hn, rfl⟩
  · decide
  · exact (digit_table n hn).1

theorem toLowercase_formatMac (bytes : List UInt8) :
    toLowercase (formatMac bytes) = formatMac bytes := by
  have hlower : (formatMac bytes).toList.map lowerChar = (formatMac bytes).toList.map id := by
    refine List.map_congr_left fun c hc => ?_
    rcases mem_formatMac hc with rfl | ⟨n, hn, rfl⟩
    · decide
    · exact (digit_table n hn).2.1
  rw [toLowercase, hlower, List.map_id, String.ofList_toList]

theorem splitOn_formatMac {bytes : List UInt8} (hne : bytes ≠ []) :
    (formatMac bytes).toList.splitOn ':' = bytes.map hexDigits := by
  rw [toList_formatMac]
  refine List.splitOn_intercalate ':' (fun part hpart hmem => ?_) (by simpa using hne)
  obtain ⟨b, -, rfl⟩ := List.mem_map.1 hpart
  have hb : b.toNat < 256 := b.toNat_lt
  simp only [hexDigits, List.mem_cons, List.not_mem_nil, or_false] at hmem
  rcases hmem with hc | hc
  · exact (digit_table (b.toNat / 16) (by omega)).2.2 hc.symm
  · exact (digit_table (b.toNat % 16) (by omega)).2.2 hc.symm

theorem isValidMac_octets {mac : String} (h : isValidMac mac = true) :
    ∀ octet ∈ mac.toList.splitOn ':', octet.length = 2 ∧ octet.all isAsciiHexdigit = true := by
  simp only [isValidMac, Bool.and_eq_true, decide_eq_true_eq] at h
  intro octet hoctet
  have hall := List.all_eq_true.1 h.2 octet hoctet
  rw [Bool.and_eq_true, decide_eq_true_eq, Utf8.encode, String.toList_ofList] at hall
  refine ⟨?_, hall.2⟩
  have hascii : octet.flatMap String.utf8EncodeChar = octet.flatMap fun c => [UInt8.ofNat c.toNat] := by
    refine List.flatMap_congr fun c hc => ?_
    exact utf8EncodeChar_ascii (mac_char_lt (.inr (List.all_eq_true.1 hall.2 c hc)))
  rw [hascii, ← List.map_eq_flatMap, List.length_map] at hall
  exact hall.1

private theorem map_eq_some_iff {α β γ : Type} {f : α → Option β} {g : α → γ} {h : β → γ}
    {xs : List α} (hfg : ∀ x ∈ xs, ∀ y, f x = some y ↔ g x = h y) (ys : List β) :
    xs.map f = ys.map some ↔ xs.map g = ys.map h := by
  induction xs generalizing ys with
  | nil => cases ys <;> simp
  | cons x xs ih =>
    cases ys with
    | nil => simp
    | cons y ys =>
      rw [List.map_cons, List.map_cons, List.map_cons, List.map_cons, List.cons.injEq,
        List.cons.injEq, hfg x List.mem_cons_self y,
        ih (fun x' hx' => hfg x' (List.mem_cons_of_mem x hx')) ys]

/-- A well-formed MAC denotes the bytes whose formatted MAC is its lower case. -/
theorem denotes_iff {mac : String} (hmac : isValidMac mac = true) {bytes : List UInt8}
    (hne : bytes ≠ []) : Denotes mac bytes ↔ toLowercase mac = formatMac bytes := by
  have hoctets := isValidMac_octets hmac
  have hcolon : lowerChar ':' = ':' := by decide
  have hlower : (toLowercase mac).toList =
      [':'].intercalate ((mac.toList.splitOn ':').map (·.map lowerChar)) := by
    rw [toLowercase, String.toList_ofList, ← map_intercalate lowerChar hcolon,
      List.intercalate_splitOn]
  rw [Denotes, map_eq_some_iff fun octet hoctet =>
    octetValue_eq_some (hoctets octet hoctet).1 (hoctets octet hoctet).2]
  constructor
  · intro h
    rw [← String.toList_inj, hlower, h, toList_formatMac]
  · intro h
    rw [← splitOn_formatMac hne, ← h, hlower]
    refine (List.splitOn_intercalate ':' (fun part hpart hmem => ?_) (by simp)).symm
    obtain ⟨octet, hoctet, rfl⟩ := List.mem_map.1 hpart
    obtain ⟨c, hc, hlow⟩ := List.mem_map.1 hmem
    obtain ⟨v, hv, -, hdigit⟩ := hexdigit_value (List.all_eq_true.1 (hoctets octet hoctet).2 c hc)
    exact (digit_table v hv).2.2 (hdigit.symm.trans hlow)

/-- The query of a URL, the text after its first question mark. -/
def queryOf (url : String) : String :=
  String.ofList ((url.toList.dropWhile fun c => c ≠ '?').drop 1)

theorem queryOf_append {url query : String} (h : '?' ∉ url.toList) :
    queryOf (url ++ "?" ++ query) = query := by
  have hskip : ∀ c ∈ url.toList, decide (c ≠ '?') = true := by
    intro c hc
    exact decide_eq_true fun heq => h (heq ▸ hc)
  have hdrop : ((url ++ "?" ++ query).toList.dropWhile fun c => c ≠ '?') = '?' :: query.toList := by
    rw [String.toList_append, String.toList_append, List.append_assoc,
      List.dropWhile_append_of_pos hskip]
    exact List.dropWhile_cons_of_neg (by decide)
  rw [queryOf, hdrop, List.drop_succ_cons, List.drop_zero, String.ofList_toList]

variable {isDir : String → Bool} {openBacking : String → Except IoError BackingStore}
  {cfg : Config} {manager : ClientManager} {boot : BootConfig} {msg : DhcpMessage} {p : OfferPlan}

/-- An offer to iPXE is the script's URL with the client's MAC. -/
theorem plan_ipxe (hipxe : isIpxe msg = true) (hplan : plan msg boot = some p) :
    p.bootfile = boot.httpScriptUrl ++ "?mac=" ++ formatMac msg.mac := by
  rw [plan] at hplan
  split at hplan
  · cases hplan
  · rw [if_pos hipxe] at hplan
    cases hplan
    rfl

theorem parseMacParam_plan (hurl : '?' ∉ boot.httpScriptUrl.toList) (hipxe : isIpxe msg = true)
    (hplan : plan msg boot = some p) :
    parseMacParam (queryOf p.bootfile) = some (formatMac msg.mac) := by
  have hsplit : boot.httpScriptUrl ++ "?mac=" ++ formatMac msg.mac =
      boot.httpScriptUrl ++ "?" ++ ("mac=" ++ formatMac msg.mac) := by
    rw [String.append_assoc, String.append_assoc]
    rfl
  rw [plan_ipxe hipxe hplan, hsplit, queryOf_append hurl]
  exact mac_bootRequest (plain_formatMac msg.mac)

/-- With MACs of their own, every entry counts for its key. -/
theorem entry_of_mem (hvalid : validate isDir cfg = .ok ())
    (hdistinct : cfg.clients.Pairwise fun c c' => eqIgnoreAsciiCase c.mac c'.mac = false) {c : Client}
    (hc : c ∈ cfg.clients) : cfg.entry (toLowercase c.mac) = some c := by
  cases hentry : cfg.entry (toLowercase c.mac) with
  | none => exact absurd rfl (lastWith_eq_none_iff.1 hentry c hc)
  | some e =>
    obtain ⟨he, hkey⟩ := entry_eq_some hentry
    by_contra hne
    have hsymm : Std.Symm fun c c' : Client => eqIgnoreAsciiCase c.mac c'.mac = false :=
      ⟨fun _ _ h => beq_eq_false_iff_ne.2 (beq_eq_false_iff_ne.1 h).symm⟩
    have hapart := hdistinct.forall he hc fun heq => hne (congrArg some heq)
    rw [(toLowercase_eq_iff (validate_macs hvalid c hc)).1 hkey] at hapart
    cases hapart

/-- For every accepted configuration with MACs of their own and a plain URL, and every offer
to iPXE: the MAC in the offered URL finds the entry that denotes the hardware address, or the
defaults when there is none. -/
theorem boot_url_agrees (isDir : String → Bool)
    (openBacking : String → Except IoError BackingStore) (cfg : Config) (manager : ClientManager)
    (hvalid : validate isDir cfg = .ok ()) (hnew : ClientManager.new openBacking cfg = .ok manager)
    (hdistinct : cfg.clients.Pairwise fun c c' => eqIgnoreAsciiCase c.mac c'.mac = false)
    (boot : BootConfig) (hurl : '?' ∉ boot.httpScriptUrl.toList)
    (msg : DhcpMessage) (hhlen : msg.hlen = 6) (hipxe : isIpxe msg = true) (p : OfferPlan)
    (hplan : plan msg boot = some p) :
    ∃ mac, parseMacParam (queryOf p.bootfile) = some mac ∧
      (∀ c ∈ cfg.clients, Denotes c.mac (msg.chaddr.1.take 6) →
        manager.resolve mac = some c.resolved) ∧
      ((∀ c ∈ cfg.clients, ¬ Denotes c.mac (msg.chaddr.1.take 6)) →
        manager.resolve mac = cfg.clientDefaults.map ClientDefaults.resolved) := by
  have hmac : msg.mac = msg.chaddr.1.take 6 := by
    rw [DhcpMessage.mac, hhlen]
    rfl
  have hne : msg.chaddr.1.take 6 ≠ [] := by
    intro hnil
    have hlen := congrArg List.length hnil
    rw [List.length_take, msg.chaddr.2] at hlen
    cases hlen
  refine ⟨formatMac msg.mac, parseMacParam_plan hurl hipxe hplan, fun c hc hdenotes => ?_,
    fun hnone => ?_⟩
  · have hkey := (denotes_iff (validate_macs hvalid c hc) hne).1 hdenotes
    rw [resolve_eq hnew, toLowercase_formatMac, hmac, ← hkey, entry_of_mem hvalid hdistinct hc]
    rfl
  · have hentry : cfg.entry (formatMac msg.mac) = none := by
      refine lastWith_eq_none_iff.2 fun c hc hkey => hnone c hc ?_
      rw [denotes_iff (validate_macs hvalid c hc) hne, hkey, hmac]
    rw [resolve_eq hnew, toLowercase_formatMac, hentry]
    rfl

def ipxeDiscover : DhcpMessage where
  op := 1
  htype := 1
  hlen := 6
  hops := 0
  xid := 0x1234
  secs := 0
  flags := 0
  ciaddr := 0
  yiaddr := 0
  siaddr := 0
  giaddr := 0
  chaddr := ⟨[0xAA, 0xBB, 0xCC, 0xDD, 0xEE, 0x01] ++ List.replicate 10 0, by decide⟩
  options := [⟨MSG_TYPE, [DISCOVER]⟩, ⟨VENDOR_CLASS_ID, BigEndian.ascii "PXEClient"⟩,
    ⟨USER_CLASS, BigEndian.ascii "iPXE"⟩]

theorem ipxeDiscover_isIpxe : isIpxe ipxeDiscover = true := by decide

theorem boot_url_agrees_two_clients : ∃ manager p, ClientManager.new blankImages twoClients =
      .ok manager ∧ plan ipxeDiscover bootSection = some p ∧
      ∃ mac, parseMacParam (queryOf p.bootfile) = some mac ∧
        (manager.resolve mac).map (·.name) = some (some "pc-01") := by
  obtain ⟨manager, hnew⟩ : ∃ manager, ClientManager.new blankImages twoClients = .ok manager :=
    ⟨_, rfl⟩
  have hvalid : validate (fun _ => true) twoClients = .ok () := by decide
  have hdistinct : twoClients.clients.Pairwise fun c c' => eqIgnoreAsciiCase c.mac c'.mac = false := by
    decide
  obtain ⟨p, hplan⟩ : ∃ p, plan ipxeDiscover bootSection = some p := ⟨_, rfl⟩
  obtain ⟨mac, hmac, hfinds, -⟩ := boot_url_agrees _ _ _ _ hvalid hnew hdistinct bootSection
    (by decide) ipxeDiscover rfl ipxeDiscover_isIpxe p hplan
  refine ⟨manager, p, hnew, hplan, mac, hmac, ?_⟩
  rw [hfinds ⟨"AA:BB:CC:DD:EE:01", some "pc-01", "img", [], "wb"⟩ List.mem_cons_self (by decide)]
  rfl

end XBoot.Dhcp
