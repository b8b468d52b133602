import XBoot.Config
import XBoot.BackingStore

/-!
# The client manager

Which client profile a MAC address stands for, and the opened read-only images. Opening
an image reads the host's files, and is a parameter.
-/

namespace XBoot.Boot

open KeyedTables Storage

/-- `char::to_lowercase` up to U+00FF, which all characters of a request's MAC are. -/
def lowerChar (c : Char) : Char :=
  if ('A' ≤ c ∧ c ≤ 'Z') ∨ (0xC0 ≤ c.toNat ∧ c.toNat ≤ 0xDE ∧ c.toNat ≠ 0xD7) then
    Char.ofNat (c.toNat + 32)
  else c

def toLowercase (s : String) : String := String.ofList (s.toList.map lowerChar)

/-- Resolved configuration for one client. -/
structure ClientConfig where
  mac : String
  name : Option String
  systemDiskId : String
  gameDiskIds : List String
  writebackDiskId : String
  deriving DecidableEq, Repr

inductive BuildError where
  | openBacking (path : String) (source : IoError)
  deriving DecidableEq, Repr

structure ClientManager where
  clients : String → Option ClientConfig
  defaults : Option ClientConfig
  stores : String → Option BackingStore

def Client.resolved (c : Client) : ClientConfig where
  mac := toLowercase c.mac
  name := c.name
  systemDiskId := c.system
  gameDiskIds := c.games
  writebackDiskId := c.writeback

/-- The profile of clients without an entry; it has no MAC of its own. -/
def ClientDefaults.resolved (d : ClientDefaults) : ClientConfig where
  mac := ""
  name := none
  systemDiskId := d.system
  gameDiskIds := d.games
  writebackDiskId := d.writeback

/-- Open the images and games; the writeback disks are not opened. -/
def openStores (openBacking : String → Except IoError BackingStore) :
    List Disk → (String → Option BackingStore) → Except BuildError (String → Option BackingStore)
  | [], stores => .ok stores
  | disk :: disks, stores =>
    if disk.diskType = .image ∨ disk.diskType = .game then
      match openBacking disk.backing with
      | .error source => .error (.openBacking disk.backing source)
      | .ok store => openStores openBacking disks (Function.update stores disk.id (some store))
    else openStores openBacking disks stores

namespace ClientManager

def new (openBacking : String → Except IoError BackingStore) (cfg : Config) :
    Except BuildError ClientManager :=
  match openStores openBacking cfg.disks fun _ => none with
  | .error e => .error e
  | .ok stores => .ok {
      clients := insertAll (fun c => toLowercase c.mac) Client.resolved cfg.clients
      defaults := cfg.clientDefaults.map ClientDefaults.resolved
      stores := stores }

/-- The profile for a MAC: its entry, or the defaults. -/
def resolve (m : ClientManager) (mac : String) : Option ClientConfig :=
  (m.clients (toLowercase mac)).or m.defaults

def getStore (m : ClientManager) (diskId : String) : Option BackingStore := m.stores diskId

end ClientManager

def Config.entry (cfg : Config) (key : String) : Option Client :=
  lastWith (fun c => toLowercase c.mac) cfg.clients key

variable {openBacking : String → Except IoError BackingStore} {cfg : Config}
  {manager : ClientManager}

/-- Resolving a MAC in terms of the configuration. -/
theorem resolve_eq (h : ClientManager.new openBacking cfg = .ok manager) (mac : String) :
    manager.resolve mac = ((cfg.entry (toLowercase mac)).map Client.resolved).or
      (cfg.clientDefaults.map ClientDefaults.resolved) := by
  rw [ClientManager.new] at h
  split at h
  · cases h
  · cases h
    dsimp only [ClientManager.resolve]
    rw [insertAll_eq, Config.entry]

/-- The entry for a key is one of the clients, and its MAC is the key. -/
theorem entry_eq_some {key : String} {c : Client} (h : cfg.entry key = some c) :
    c ∈ cfg.clients ∧ toLowercase c.mac = key := lastWith_eq_some h

end XBoot.Boot
