import XBoot.ClientIsolation
import Mathlib.Data.List.Nodup

/-!
# The target of a boot

Validation makes every reference of a profile a disk of its type, the manager opens every
image and game, and so a boot finds all its stores: the system disk is LUN 0 and the games
follow in their order.
-/

namespace XBoot.Boot

open Iscsi Storage

variable {isDir : String → Bool} {openBacking : String → Except IoError BackingStore}
  {cfg : Config} {manager : ClientManager}

theorem indexDisks_concat (disks : List Disk) (disk : Disk) :
    indexDisks (disks ++ [disk]) =
      (if ((indexDisks disks).2 disk.id).isSome then
          (indexDisks disks).1 ++ [.duplicateDiskId disk.id]
        else (indexDisks disks).1,
        Function.update (indexDisks disks).2 disk.id (some disk)) := by
  rw [indexDisks, List.foldl_append]
  rfl

theorem indexDisks_index {disks : List Disk} (h : (indexDisks disks).1 = []) :
    (∀ id disk, (indexDisks disks).2 id = some disk ↔ disk ∈ disks ∧ disk.id = id) ∧
      (disks.map Disk.id).Nodup := by
  induction disks using List.reverseRecOn with
  | nil => exact ⟨fun id disk => iff_of_false nofun nofun, List.nodup_nil⟩
  | append_singleton disks disk ih =>
    rw [indexDisks_concat] at h
    dsimp only at h
    split at h
    · exact absurd h (by simp)
    · rename_i hfresh
      obtain ⟨hindex, hnodup⟩ := ih h
      have hnew : ∀ other ∈ disks, other.id ≠ disk.id := by
        intro other hother hid
        rw [(hindex disk.id other).2 ⟨hother, hid⟩] at hfresh
        exact hfresh rfl
      constructor
      · intro id found
        rw [indexDisks_concat]
        dsimp only
        rw [Function.update_apply, List.mem_append, List.mem_singleton]
        by_cases hid : id = disk.id
        · rw [if_pos hid, Option.some.injEq]
          constructor
          · rintro rfl
            exact ⟨.inr rfl, hid.symm⟩
          · rintro ⟨hmem | rfl, hfound⟩
            · exact absurd (hfound.trans hid) (hnew found hmem)
            · rfl
        · rw [if_neg hid, hindex]
          refine and_congr_left fun hfound => ⟨.inl, fun hmem => hmem.resolve_right ?_⟩
          rintro rfl
          exact hid hfound.symm
      · rw [List.map_append, List.map_singleton, List.nodup_append]
        refine ⟨hnodup, List.nodup_singleton _, fun id hmem id' hid' => ?_⟩
        obtain ⟨other, hother, rfl⟩ := List.mem_map.1 hmem
        rw [List.mem_singleton.1 hid']
        exact hnew other hother

theorem checkRef_eq_nil {byId : String → Option Disk} {reference context : String}
    {expected : DiskType} : checkRef byId reference expected context = [] ↔
      ∃ disk, byId reference = some disk ∧ disk.diskType = expected := by
  rw [checkRef]
  cases byId reference with
  | none => simp
  | some disk => simp

/-- The references of a profile are right. -/
structure RefersTo (byId : String → Option Disk) (system : String) (games : List String)
    (writeback : String) : Prop where
  system : ∃ disk, byId system = some disk ∧ disk.diskType = .image
  games : ∀ g ∈ games, ∃ disk, byId g = some disk ∧ disk.diskType = .game
  writeback : ∃ disk, byId writeback = some disk ∧ disk.diskType = .writeback

theorem checkProfile_eq_nil {byId : String → Option Disk} {system writeback who : String}
    {games : List String} : checkProfile byId system games writeback who = [] ↔
      RefersTo byId system games writeback := by
  rw [checkProfile, List.append_eq_nil_iff, List.append_eq_nil_iff, List.flatMap_eq_nil_iff,
    checkRef_eq_nil, checkRef_eq_nil]
  simp only [checkRef_eq_nil]
  exact ⟨fun ⟨⟨hsystem, hgames⟩, hwriteback⟩ => ⟨hsystem, hgames, hwriteback⟩,
    fun h => ⟨⟨h.system, h.games⟩, h.writeback⟩⟩

private theorem checkClients_profiles {byId : String → Option Disk} {seenMacs : List String}
    {clients : List Client} (h : checkClients byId seenMacs clients = []) :
    ∀ c ∈ clients, RefersTo byId c.system c.games c.writeback := by
  induction clients generalizing seenMacs with
  | nil => exact nofun
  | cons c clients ih =>
    rw [checkClients] at h
    split at h
    · cases h
    · split at h
      · cases h
      · obtain ⟨hprofile, hrest⟩ := List.append_eq_nil_iff.1 h
        intro c' hc'
        rcases List.mem_cons.1 hc' with rfl | hc'
        · exact checkProfile_eq_nil.1 hprofile
        · exact ih hrest c' hc'

structure Config.RefersToDisks (cfg : Config) : Prop where
  no_duplicates : (indexDisks cfg.disks).1 = []
  clients : ∀ c ∈ cfg.clients, RefersTo (indexDisks cfg.disks).2 c.system c.games c.writeback
  defaults : ∀ d, cfg.clientDefaults = some d →
    RefersTo (indexDisks cfg.disks).2 d.system d.games d.writeback

theorem validate_disks (h : validate isDir cfg = .ok ()) : cfg.RefersToDisks := by
  rw [validate] at h
  split at h
  · rename_i hnone
    rw [List.isEmpty_iff, validationErrors] at hnone
    simp only [List.append_eq_nil_iff] at hnone
    obtain ⟨⟨⟨hdisks, hclients⟩, hdefaults⟩, -⟩ := hnone
    refine ⟨hdisks, checkClients_profiles hclients, fun d hd => ?_⟩
    rw [hd] at hdefaults
    exact checkProfile_eq_nil.1 hdefaults
  · cases h

abbrev Disk.Opened (d : Disk) : Prop := d.diskType = .image ∨ d.diskType = .game

theorem openStores_ok {disks : List Disk} (stores : String → Option BackingStore)
    (hopen : ∀ d ∈ disks, d.Opened → ∃ store, openBacking d.backing = .ok store) :
    ∃ stores', openStores openBacking disks stores = .ok stores' := by
  induction disks generalizing stores with
  | nil => exact ⟨stores, rfl⟩
  | cons d disks ih =>
    have hrest := fun d' hd' => hopen d' (List.mem_cons_of_mem d hd')
    rw [openStores]
    split
    · rename_i hopened
      obtain ⟨store, hstore⟩ := hopen d List.mem_cons_self hopened
      rw [hstore]
      exact ih _ hrest
    · exact ih _ hrest

theorem openStores_other {disks : List Disk} {stores stores' : String → Option BackingStore}
    (h : openStores openBacking disks stores = .ok stores') {id : String}
    (hid : id ∉ disks.map Disk.id) : stores' id = stores id := by
  induction disks generalizing stores with
  | nil =>
    cases h
    rfl
  | cons d disks ih =>
    rw [List.map_cons, List.mem_cons, not_or] at hid
    rw [openStores] at h
    split at h
    · split at h
      · cases h
      · rw [ih h hid.2, Function.update_of_ne hid.1]
    · exact ih h hid.2

theorem openStores_mem {disks : List Disk} {stores stores' : String → Option BackingStore}
    (hnodup : (disks.map Disk.id).Nodup) (h : openStores openBacking disks stores = .ok stores') :
    ∀ d ∈ disks, d.Opened → ∃ store, openBacking d.backing = .ok store ∧ stores' d.id = some store := by
  induction disks generalizing stores with
  | nil => exact nofun
  | cons d disks ih =>
    rw [List.map_cons, List.nodup_cons] at hnodup
    rw [openStores] at h
    intro d' hd' hopened
    rcases List.mem_cons.1 hd' with rfl | hd'
    · rw [if_pos hopened] at h
      split at h
      · cases h
      · rename_i store hstore
        refine ⟨store, hstore, ?_⟩
        rw [openStores_other h hnodup.1, Function.update_self]
    · split at h
      · split at h
        · cases h
        · exact ih hnodup.2 h d' hd' hopened
      · exact ih hnodup.2 h d' hd' hopened

/-- LUN `n` of a target has a fresh overlay over the store of the one disk with an id. -/
structure OverDisk (openBacking : String → Except IoError BackingStore) (cfg : Config)
    (target : ScsiTarget) (n : ℕ) (id : String) (kind : DiskType) : Prop where
  backed : ∃ disk ∈ cfg.disks, disk.id = id ∧ disk.diskType = kind ∧
    (∀ other ∈ cfg.disks, other.id = id → other = disk) ∧
    ∃ store lun, openBacking disk.backing = .ok store ∧ target.luns[n]? = some (some lun) ∧
      lun.master = store ∧ lun.overlay = fun _ => none

structure Stored (openBacking : String → Except IoError BackingStore) (cfg : Config)
    (manager : ClientManager) (id : String) (kind : DiskType) (store : BackingStore) : Prop where
  found : manager.getStore id = some store
  disk : ∃ disk ∈ cfg.disks, disk.id = id ∧ disk.diskType = kind ∧
    (∀ other ∈ cfg.disks, other.id = id → other = disk) ∧ openBacking disk.backing = .ok store

theorem Stored.backed {id : String} {kind : DiskType} {store : BackingStore} {target : ScsiTarget}
    {n : ℕ} {lun : LogicalUnit} (h : Stored openBacking cfg manager id kind store)
    (hlun : target.luns[n]? = some (some lun)) (hmaster : lun.master = store)
    (hfresh : lun.overlay = fun _ => none) : OverDisk openBacking cfg target n id kind := by
  obtain ⟨disk, hdisk, hid, hkind, hone, hopen⟩ := h.disk
  exact ⟨disk, hdisk, hid, hkind, hone, store, lun, hopen, hlun, hmaster, hfresh⟩

/-- A right reference to a master has its store in the manager. -/
theorem stored_of_ref (hcfg : cfg.RefersToDisks)
    (hnew : ClientManager.new openBacking cfg = .ok manager) {id : String} {kind : DiskType}
    (hkind : kind = .image ∨ kind = .game)
    (href : ∃ disk, (indexDisks cfg.disks).2 id = some disk ∧ disk.diskType = kind) :
    ∃ store, Stored openBacking cfg manager id kind store := by
  obtain ⟨hindex, hnodup⟩ := indexDisks_index hcfg.no_duplicates
  obtain ⟨disk, hfound, htype⟩ := href
  obtain ⟨hdisk, hid⟩ := (hindex id disk).1 hfound
  rw [ClientManager.new] at hnew
  split at hnew
  · cases hnew
  · rename_i stores hstores
    cases hnew
    have hopened : disk.Opened := by
      rw [Disk.Opened, htype]
      exact hkind
    obtain ⟨store, hopen, hstore⟩ := openStores_mem hnodup hstores disk hdisk hopened
    refine ⟨store, hid ▸ hstore, disk, hdisk, hid, htype, fun other hother hother_id => ?_, hopen⟩
    have hsame := (hindex id other).2 ⟨hother, hother_id⟩
    rw [hfound] at hsame
    exact (Option.some.inj hsame).symm

theorem resolve_refers (hcfg : cfg.RefersToDisks)
    (hnew : ClientManager.new openBacking cfg = .ok manager) {mac : String} {client : ClientConfig}
    (h : manager.resolve mac = some client) : RefersTo (indexDisks cfg.disks).2
      client.systemDiskId client.gameDiskIds client.writebackDiskId := by
  rw [resolve_eq hnew, Option.or_eq_some_iff] at h
  rcases h with hentry | ⟨-, hdefaults⟩
  · obtain ⟨c, hc, rfl⟩ := Option.map_eq_some_iff.1 hentry
    exact hcfg.clients c (entry_eq_some hc).1
  · obtain ⟨d, hd, rfl⟩ := Option.map_eq_some_iff.1 hdefaults
    exact hcfg.defaults d hd

/-- The LUNs of a target whose stores are all there. -/
theorem bootTarget_luns {client : ClientConfig} {system : BackingStore}
    {store : String → BackingStore} (hsystem : manager.getStore client.systemDiskId = some system)
    (hgames : ∀ id ∈ client.gameDiskIds, manager.getStore id = some (store id)) :
    (bootTarget manager client).luns =
      some ((LogicalUnit.new system).withSerial (clientIqn client)) ::
        client.gameDiskIds.map fun id => some (LogicalUnit.new (store id)) := by
  have hall : client.gameDiskIds.filterMap (fun id =>
      (manager.getStore id).map fun store => some (LogicalUnit.new store)) =
        client.gameDiskIds.map fun id => some (LogicalUnit.new (store id)) := by
    rw [← List.filterMap_eq_map]
    refine List.filterMap_congr fun id hid => ?_
    rw [hgames id hid]
    rfl
  rw [bootTarget, hsystem, hall]
  rfl

/-- For every accepted configuration whose backings open, a boot of any MAC that resolves
registers a target with the system disk as LUN 0 and the games behind it in their order. -/
theorem boot_target_luns (isDir : String → Bool)
    (openBacking : String → Except IoError BackingStore) (cfg : Config)
    (hvalid : validate isDir cfg = .ok ())
    (hopen : ∀ d ∈ cfg.disks, d.Opened → ∃ store, openBacking d.backing = .ok store) :
    ∃ manager, ClientManager.new openBacking cfg = .ok manager ∧
      ∀ mac client, manager.resolve mac = some client → ∀ w req boot, req.method = "GET" →
        req.path = "/boot.ipxe" → req.mac = some mac → cfg.boot = some boot →
          ∃ response target, handle cfg manager w req =
              .ok (response, w.insert (clientIqn client) target) ∧
            target.luns.length = 1 + client.gameDiskIds.length ∧
            OverDisk openBacking cfg target 0 client.systemDiskId .image ∧
            ∀ i id, client.gameDiskIds[i]? = some id →
              OverDisk openBacking cfg target (i + 1) id .game := by
  have hcfg := validate_disks hvalid
  obtain ⟨stores, hstores⟩ := openStores_ok (fun _ => none) hopen
  obtain ⟨manager, hnew⟩ : ∃ manager, ClientManager.new openBacking cfg = .ok manager := by
    rw [ClientManager.new, hstores]
    exact ⟨_, rfl⟩
  refine ⟨manager, hnew, fun mac client hresolve w req boot hget hpath hmac hboot => ?_⟩
  have hrefers := resolve_refers hcfg hnew hresolve
  obtain ⟨system, hsystem⟩ := stored_of_ref hcfg hnew (.inl rfl) hrefers.system
  have hgames := fun g hg => stored_of_ref hcfg hnew (.inr rfl) (hrefers.games g hg)
  have : Nonempty BackingStore := ⟨system⟩
  choose! store hstore using hgames
  have hluns := bootTarget_luns hsystem.found fun id hid => (hstore id hid).found
  refine ⟨_, _, handle_boots w hget hpath hmac hresolve hboot, ?_, ?_, fun i id hid => ?_⟩
  · rw [hluns, List.length_cons, List.length_map, Nat.add_comm]
  · exact hsystem.backed (by rw [hluns]; rfl) rfl rfl
  · have hlun : (bootTarget manager client).luns[i + 1]? =
        some (some (LogicalUnit.new (store id))) := by
      rw [hluns, List.getElem?_cons_succ, List.getElem?_map, hid]
      rfl
    exact (hstore id (List.mem_of_getElem? hid)).backed hlun rfl rfl

/-- A client with two games, listed in another order than their disks. -/
def twoGames : Config where
  disks := ⟨"go", .game, "go.raw"⟩ :: ⟨"chess", .game, "chess.raw"⟩ :: oneDisk
  clients := [⟨"AA:BB:CC:DD:EE:01", some "pc-01", "img", ["chess", "go"], "wb"⟩]
  clientDefaults := none
  boot := some bootSection

theorem boot_target_luns_two_games : ∃ manager, ClientManager.new blankImages twoGames =
      .ok manager ∧
    ∃ response target, handle twoGames manager World.empty (bootRequest "AA:BB:CC:DD:EE:01") =
      .ok (response, World.empty.insert "iqn.2026-06.dev.xboot:pc-01" target) ∧
      target.luns.length = 3 ∧ OverDisk blankImages twoGames target 0 "img" .image ∧
      OverDisk blankImages twoGames target 1 "chess" .game ∧
      OverDisk blankImages twoGames target 2 "go" .game := by
  have hvalid : validate (fun _ => true) twoGames = .ok () := by decide
  obtain ⟨manager, hnew, hboots⟩ := boot_target_luns _ blankImages twoGames hvalid
    fun _ _ _ => ⟨_, rfl⟩
  have hplain : "AA:BB:CC:DD:EE:01".toList.all plain = true := by decide
  have hmac := mac_bootRequest (List.all_eq_true.1 hplain)
  have hresolve : manager.resolve "AA:BB:CC:DD:EE:01" =
      some ⟨"aa:bb:cc:dd:ee:01", some "pc-01", "img", ["chess", "go"], "wb"⟩ := by
    rw [resolve_eq hnew]
    decide
  obtain ⟨response, target, hhandle, hlength, hsystem, hgames⟩ :=
    hboots _ _ hresolve World.empty _ _ rfl rfl hmac rfl
  exact ⟨manager, hnew, response, target, hhandle, hlength, hsystem, hgames 0 _ rfl,
    hgames 1 _ rfl⟩

end XBoot.Boot
