import XBoot.ClientIsolation

/-!
# Looking up a client by its MAC

The manager's table is keyed by MACs in lower case. Validation compares them as they are
written, so entries that differ in letter case only are accepted, and the last one wins.
-/

namespace XBoot.Boot

open Iscsi KeyedTables Storage

private theorem lowerChar_table : ∀ n < 128,
    lowerChar (Char.ofNat n) = (Char.ofNat n).toLower ∧ (Char.ofNat n).toLower.toNat < 128 := by
  decide

private theorem lowerChar_ascii {c : Char} (h : c.toNat < 128) :
    lowerChar c = c.toLower ∧ c.toLower.toNat < 128 := by
  have hc := lowerChar_table c.toNat h
  rwa [Char.ofNat_toNat] at hc

private theorem toLower_of_le {c : Char} (h : 128 ≤ c.toNat) : c.toLower = c := by
  have hnot : ¬ (c.val ≥ 'A'.val ∧ c.val ≤ 'Z'.val) := by
    rintro ⟨-, hle⟩
    have hz : c.toNat ≤ 90 := hle
    omega
  exact dif_neg hnot

private theorem le_lowerChar {c : Char} (h : 128 ≤ c.toNat) : 128 ≤ (lowerChar c).toNat := by
  rw [lowerChar]
  split
  · rename_i hupper
    rcases hupper with hupper | hupper
    · have hz : c.toNat ≤ 90 := hupper.2
      omega
    · have hvalid : (c.toNat + 32).isValidChar := .inl (by omega)
      rw [Char.ofNat, dif_pos hvalid]
      have hto : (Char.ofNatAux (c.toNat + 32) hvalid).toNat = c.toNat + 32 := rfl
      omega
  · exact h

theorem lowerChar_eq_iff {c d : Char} (hd : d.toNat < 128) : lowerChar c = d ↔ c.toLower = d := by
  by_cases hc : c.toNat < 128
  · rw [(lowerChar_ascii hc).1]
  · have hlow := le_lowerChar (Nat.not_lt.1 hc)
    rw [toLower_of_le (Nat.not_lt.1 hc)]
    refine iff_of_false (fun h => ?_) fun h => ?_
    · rw [h] at hlow
      omega
    · rw [h] at hc
      exact hc hd

private theorem map_lowerChar_eq_iff {cs ds : List Char} (hds : ∀ d ∈ ds, d.toNat < 128) :
    cs.map lowerChar = ds ↔ cs.map Char.toLower = ds := by
  induction cs generalizing ds with
  | nil => rfl
  | cons c cs ih =>
    cases ds with
    | nil => exact iff_of_false nofun nofun
    | cons d ds =>
      rw [List.map_cons, List.map_cons, List.cons.injEq, List.cons.injEq,
        lowerChar_eq_iff (hds d List.mem_cons_self),
        ih fun d' hd' => hds d' (List.mem_cons_of_mem d hd')]

/-- A table key is the one of a well-formed MAC when they agree ignoring case. -/
theorem toLowercase_eq_iff {s mac : String} (hmac : isValidMac mac = true) :
    toLowercase s = toLowercase mac ↔ eqIgnoreAsciiCase s mac = true := by
  have hascii : ∀ c ∈ mac.toList, c.toNat < 128 := fun c hc => mac_char_lt (isValidMac_chars hmac hc)
  have hlower : mac.toList.map lowerChar = mac.toList.map Char.toLower :=
    List.map_congr_left fun c hc => (lowerChar_ascii (hascii c hc)).1
  rw [toLowercase, toLowercase, String.ofList_inj, hlower, eqIgnoreAsciiCase, beq_iff_eq]
  refine map_lowerChar_eq_iff fun d hd => ?_
  obtain ⟨c, hc, rfl⟩ := List.mem_map.1 hd
  exact (lowerChar_ascii (hascii c hc)).2

structure ClientConfig.Of (r : ClientConfig) (c : Client) : Prop where
  name_eq : r.name = c.name
  system_eq : r.systemDiskId = c.system
  games_eq : r.gameDiskIds = c.games
  writeback_eq : r.writebackDiskId = c.writeback

structure Client.SameProfile (c c' : Client) : Prop where
  name_eq : c.name = c'.name
  system_eq : c.system = c'.system
  games_eq : c.games = c'.games
  writeback_eq : c.writeback = c'.writeback

def FindsEntries (cfg : Config) (manager : ClientManager) : Prop :=
  ∀ c ∈ cfg.clients, ∀ mac, eqIgnoreAsciiCase mac c.mac = true →
    ∃ r, manager.resolve mac = some r ∧ r.Of c

def FindsDefaults (cfg : Config) (manager : ClientManager) : Prop :=
  ∀ mac, (∀ c ∈ cfg.clients, eqIgnoreAsciiCase mac c.mac = false) →
    manager.resolve mac = cfg.clientDefaults.map ClientDefaults.resolved

variable {isDir : String → Bool} {openBacking : String → Except IoError BackingStore}
  {cfg : Config} {manager : ClientManager}

theorem ClientConfig.Of.same {r : ClientConfig} {c c' : Client} (h : r.Of c) (h' : r.Of c') :
    c.SameProfile c' :=
  ⟨h.name_eq.symm.trans h'.name_eq, h.system_eq.symm.trans h'.system_eq,
    h.games_eq.symm.trans h'.games_eq, h.writeback_eq.symm.trans h'.writeback_eq⟩

/-- An entry is found when it agrees with the last entry of its MAC. -/
theorem resolve_entry_of (hvalid : validate isDir cfg = .ok ())
    (hnew : ClientManager.new openBacking cfg = .ok manager) {c : Client} (hc : c ∈ cfg.clients)
    {mac : String} (hmac : eqIgnoreAsciiCase mac c.mac = true) :
    ∃ e ∈ cfg.clients, eqIgnoreAsciiCase c.mac e.mac = true ∧
      manager.resolve mac = some e.resolved := by
  have hkey : toLowercase mac = toLowercase c.mac :=
    (toLowercase_eq_iff (validate_macs hvalid c hc)).2 hmac
  cases hentry : cfg.entry (toLowercase mac) with
  | none => exact absurd hkey.symm (lastWith_eq_none_iff.1 hentry c hc)
  | some e =>
    obtain ⟨he, hlower⟩ := entry_eq_some hentry
    refine ⟨e, he, ?_, ?_⟩
    · rw [← toLowercase_eq_iff (validate_macs hvalid e he), ← hkey, hlower]
    · rw [resolve_eq hnew, hentry]
      rfl

theorem finds_defaults (hvalid : validate isDir cfg = .ok ())
    (hnew : ClientManager.new openBacking cfg = .ok manager) : FindsDefaults cfg manager := by
  intro mac hnone
  have hentry : cfg.entry (toLowercase mac) = none := by
    refine lastWith_eq_none_iff.2 fun c hc hkey => ?_
    have hmac := (toLowercase_eq_iff (validate_macs hvalid c hc)).1 hkey.symm
    rw [hnone c hc] at hmac
    cases hmac
  rw [resolve_eq hnew, hentry]
  rfl

theorem eqIgnoreAsciiCase_refl (s : String) : eqIgnoreAsciiCase s s = true := beq_self_eq_true _

/-- In an accepted configuration lookups find every entry, and the defaults for all other
MACs, exactly when entries whose MACs differ in letter case only have one profile. -/
theorem lookups_find_iff (isDir : String → Bool)
    (openBacking : String → Except IoError BackingStore) (cfg : Config) (manager : ClientManager)
    (hvalid : validate isDir cfg = .ok ()) (hnew : ClientManager.new openBacking cfg = .ok manager) :
    (FindsEntries cfg manager ∧ FindsDefaults cfg manager) ↔
      ∀ c ∈ cfg.clients, ∀ c' ∈ cfg.clients, eqIgnoreAsciiCase c.mac c'.mac = true →
        c.SameProfile c' := by
  constructor
  · rintro ⟨hentries, -⟩ c hc c' hc' hmac
    obtain ⟨r, hr, hof⟩ := hentries c hc c.mac (eqIgnoreAsciiCase_refl c.mac)
    obtain ⟨r', hr', hof'⟩ := hentries c' hc' c.mac hmac
    cases hr.symm.trans hr'
    exact hof.same hof'
  · intro hsame
    refine ⟨fun c hc mac hmac => ?_, finds_defaults hvalid hnew⟩
    obtain ⟨e, he, hce, hresolve⟩ := resolve_entry_of hvalid hnew hc hmac
    have hprofile := hsame c hc e he hce
    exact ⟨e.resolved, hresolve, hprofile.name_eq.symm, hprofile.system_eq.symm,
      hprofile.games_eq.symm, hprofile.writeback_eq.symm⟩

theorem two_clients_found : ∃ manager, ClientManager.new blankImages twoClients = .ok manager ∧
    FindsEntries twoClients manager ∧ FindsDefaults twoClients manager := by
  obtain ⟨manager, hnew⟩ : ∃ manager, ClientManager.new blankImages twoClients = .ok manager :=
    ⟨_, rfl⟩
  have hvalid : validate (fun _ => true) twoClients = .ok () := by decide
  refine ⟨manager, hnew, (lookups_find_iff _ _ _ _ hvalid hnew).2 ?_⟩
  intro c hc c' hc' hmac
  simp only [twoClients, List.mem_cons, List.not_mem_nil, or_false] at hc hc'
  rcases hc with rfl | rfl <;> rcases hc' with rfl | rfl
  · exact ⟨rfl, rfl, rfl, rfl⟩
  · exact absurd hmac (by decide)
  · exact absurd hmac (by decide)
  · exact ⟨rfl, rfl, rfl, rfl⟩

/-- Two entries for one MAC, written in different letter case. -/
def oneMacTwice : Config where
  disks := oneDisk
  clients := [⟨"AA:BB:CC:DD:EE:01", some "pc-01", "img", [], "wb"⟩,
    ⟨"aa:bb:cc:dd:ee:01", some "pc-02", "img", [], "wb"⟩]
  clientDefaults := none
  boot := some bootSection

/-- Such a configuration is accepted, and the first entry's MAC finds the second entry. -/
theorem oneMacTwice_finds_other : validate (fun _ => true) oneMacTwice = .ok () ∧
    ∃ manager, ClientManager.new blankImages oneMacTwice = .ok manager ∧
      (manager.resolve "AA:BB:CC:DD:EE:01").map (·.name) = some (some "pc-02") := by
  obtain ⟨manager, hnew⟩ : ∃ manager, ClientManager.new blankImages oneMacTwice = .ok manager :=
    ⟨_, rfl⟩
  refine ⟨by decide, manager, hnew, ?_⟩
  rw [resolve_eq hnew]
  decide

end XBoot.Boot
