import XBoot.KeyedTables
import XBoot.Utf8

/-!
# The configuration and its validation

The parts of the configuration that validation and the boot path read. The check that
`tftp_root` is a directory asks the file system, which is a parameter.
-/

namespace XBoot.Boot

open Utf8

inductive DiskType where
  | image
  | game
  | writeback
  deriving DecidableEq, Repr

structure Disk where
  id : String
  diskType : DiskType
  backing : String
  deriving DecidableEq, Repr

structure Client where
  mac : String
  name : Option String
  system : String
  games : List String
  writeback : String
  deriving DecidableEq, Repr

structure ClientDefaults where
  system : String
  games : List String
  writeback : String
  deriving DecidableEq, Repr

structure BootConfig where
  serverIp : BitVec 32
  httpPort : UInt16
  iscsiPort : UInt16
  tftpRoot : String
  biosFilename : String
  uefiFilename : String
  httpScriptUrl : String
  deriving DecidableEq, Repr

structure Config where
  disks : List Disk
  clients : List Client
  clientDefaults : Option ClientDefaults
  boot : Option BootConfig
  deriving DecidableEq, Repr

inductive ValidationError where
  | duplicateDiskId (id : String)
  | unknownDisk (reference context : String)
  | wrongDiskType (id : String) (expected actual : DiskType) (context : String)
  | invalidMac (mac : String)
  | duplicateMac (mac : String)
  | httpPortZero
  | iscsiPortZero
  | invalidHttpUrl (url : String)
  | emptyBootField (field : String)
  | tftpRootNotDirectory (path : String)
  | bootFileOutsideRoot (field value : String)
  deriving DecidableEq, Repr

def isAsciiHexdigit (c : Char) : Bool :=
  ('0' ≤ c && c ≤ '9') || ('A' ≤ c && c ≤ 'F') || ('a' ≤ c && c ≤ 'f')

def isValidMac (s : String) : Bool :=
  let octets := s.toList.splitOn ':'
  octets.length = 6 &&
    octets.all fun o => (encode (String.ofList o)).length = 2 && o.all isAsciiHexdigit

/-- The disks by id, and an error for each id that occurs again. -/
def indexDisks (disks : List Disk) : List ValidationError × (String → Option Disk) :=
  disks.foldl (fun (errors, byId) disk =>
      (if (byId disk.id).isSome then errors ++ [.duplicateDiskId disk.id] else errors,
        Function.update byId disk.id (some disk)))
    ([], fun _ => none)

def checkRef (byId : String → Option Disk) (reference : String) (expected : DiskType)
    (context : String) : List ValidationError :=
  match byId reference with
  | none => [.unknownDisk reference context]
  | some disk =>
    if disk.diskType ≠ expected then [.wrongDiskType disk.id expected disk.diskType context] else []

def checkProfile (byId : String → Option Disk) (system : String) (games : List String)
    (writeback who : String) : List ValidationError :=
  checkRef byId system .image (who ++ ".system") ++
    games.flatMap (fun g => checkRef byId g .game (who ++ ".games")) ++
    checkRef byId writeback .writeback (who ++ ".writeback")

/-- Check the clients in turn; `seenMacs` are the valid MACs before. -/
def checkClients (byId : String → Option Disk) : List String → List Client → List ValidationError
  | _, [] => []
  | seenMacs, c :: clients =>
    let profile := checkProfile byId c.system c.games c.writeback
      ("client '" ++ c.name.getD c.mac ++ "'")
    if isValidMac c.mac = false then .invalidMac c.mac :: profile ++ checkClients byId seenMacs clients
    else if c.mac ∈ seenMacs then
      .duplicateMac c.mac :: profile ++ checkClients byId seenMacs clients
    else profile ++ checkClients byId (c.mac :: seenMacs) clients

def backslash : Char := Char.ofNat 92

/-- Absolute paths, drive letters and `.` or `..` components are refused. -/
def isSafeFilename (name : String) : Bool :=
  if name.isEmpty then false
  else if name.toList.head? = some '/' || name.toList.head? = some backslash then false
  else if (encode name)[1]? = some 58 then false
  else (name.toList.splitOnP fun c => c = '/' || c = backslash).all fun component =>
    component ≠ ['.', '.'] && component ≠ ['.']

def checkFilename (field value : String) : List ValidationError :=
  if value.isEmpty then [.emptyBootField field]
  else if isSafeFilename value = false then [.bootFileOutsideRoot field value]
  else []

def checkUrl (url : String) : List ValidationError :=
  if url.isEmpty then [.emptyBootField "http_script_url"]
  else if "http://".toList.isPrefixOf url.toList || "https://".toList.isPrefixOf url.toList then []
  else [.invalidHttpUrl url]

def checkBoot (isDir : String → Bool) (boot : BootConfig) : List ValidationError :=
  (if boot.httpPort = 0 then [.httpPortZero] else []) ++
    (if boot.iscsiPort = 0 then [.iscsiPortZero] else []) ++
    (if isDir boot.tftpRoot then [] else [.tftpRootNotDirectory boot.tftpRoot]) ++
    checkFilename "bios_filename" boot.biosFilename ++
    checkFilename "uefi_filename" boot.uefiFilename ++
    checkUrl boot.httpScriptUrl

def checkDefaults (byId : String → Option Disk) : Option ClientDefaults → List ValidationError
  | none => []
  | some d => checkProfile byId d.system d.games d.writeback "client_defaults"

/-- Everything that is wrong with a configuration, in the order it is found. -/
def validationErrors (isDir : String → Bool) (cfg : Config) : List ValidationError :=
  (indexDisks cfg.disks).1 ++ checkClients (indexDisks cfg.disks).2 [] cfg.clients ++
    checkDefaults (indexDisks cfg.disks).2 cfg.clientDefaults ++
      (cfg.boot.map (checkBoot isDir)).getD []

/-- Referential integrity, disk types and MAC formats. -/
def validate (isDir : String → Bool) (cfg : Config) : Except (List ValidationError) Unit :=
  if (validationErrors isDir cfg).isEmpty then .ok () else .error (validationErrors isDir cfg)

variable {byId : String → Option Disk} {isDir : String → Bool} {cfg : Config}

private theorem checkClients_macs {seenMacs : List String} {clients : List Client}
    (h : checkClients byId seenMacs clients = []) : ∀ c ∈ clients, isValidMac c.mac = true := by
  induction clients generalizing seenMacs with
  | nil => exact nofun
  | cons c clients ih =>
    rw [checkClients] at h
    split at h
    · cases h
    · have hvalid : isValidMac c.mac = true := Bool.not_eq_false _ ▸ ‹_›
      split at h
      · cases h
      · have hrest := ih (List.append_eq_nil_iff.1 h).2
        intro c' hc'
        rcases List.mem_cons.1 hc' with rfl | hc'
        · exact hvalid
        · exact hrest c' hc'

/-- The MACs of an accepted configuration are well formed. -/
theorem validate_macs (h : validate isDir cfg = .ok ()) : ∀ c ∈ cfg.clients, isValidMac c.mac = true := by
  rw [validate] at h
  split at h
  · rename_i hnone
    rw [List.isEmpty_iff, validationErrors] at hnone
    simp only [List.append_eq_nil_iff] at hnone
    exact checkClients_macs hnone.1.1.2
  · cases h

private theorem mem_splitOn {sep c : Char} {cs : List Char} (hc : c ∈ cs) (hsep : c ≠ sep) :
    ∃ part ∈ cs.splitOn sep, c ∈ part := by
  induction cs with
  | nil => cases hc
  | cons d cs ih =>
    rw [List.splitOn_cons_eq_if_modifyHead]
    obtain ⟨first, rest, hsplit⟩ := List.exists_cons_of_ne_nil (List.splitOn_ne_nil sep cs)
    rw [hsplit] at ih ⊢
    rcases List.mem_cons.1 hc with rfl | hc
    · rw [if_neg (by simpa using hsep)]
      exact ⟨c :: first, List.mem_cons_self .., List.mem_cons_self ..⟩
    · obtain ⟨part, hpart, hmem⟩ := ih hc
      split
      · exact ⟨part, List.mem_cons_of_mem _ hpart, hmem⟩
      · rcases List.mem_cons.1 hpart with rfl | hpart
        · exact ⟨d :: part, List.mem_cons_self .., List.mem_cons_of_mem _ hmem⟩
        · exact ⟨part, List.mem_cons_of_mem _ hpart, hmem⟩

/-- A well-formed MAC has hex digits and colons only. -/
theorem isValidMac_chars {s : String} (h : isValidMac s = true) {c : Char} (hc : c ∈ s.toList) :
    c = ':' ∨ isAsciiHexdigit c = true := by
  by_cases hsep : c = ':'
  · exact .inl hsep
  · obtain ⟨octet, hoctet, hmem⟩ := mem_splitOn hc hsep
    simp only [isValidMac, Bool.and_eq_true, List.all_eq_true] at h
    exact .inr ((h.2 octet hoctet).2 c hmem)

end XBoot.Boot
