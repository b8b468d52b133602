import XBoot.ClientManager
import XBoot.TargetRegistry

/-!
# The boot-script server

One HTTP request to `/boot.ipxe` resolves the MAC of its query, registers a new target
for the client, and answers with the iPXE script that boots from it.
-/

namespace XBoot.Boot

open Utf8 Iscsi Storage

structure HttpRequest where
  method : String
  path : String
  query : Option String
  deriving DecidableEq, Repr

structure HttpResponse where
  status : ℕ
  contentType : Option String
  body : String
  deriving DecidableEq, Repr

def notFound : HttpResponse := ⟨404, none, "Not Found"⟩

def badRequest (msg : String) : HttpResponse := ⟨400, none, msg⟩

def hexVal (b : UInt8) : Option UInt8 :=
  if 48 ≤ b ∧ b ≤ 57 then some (b - 48)
  else if 65 ≤ b ∧ b ≤ 70 then some (b - 65 + 10)
  else if 97 ≤ b ∧ b ≤ 102 then some (b - 97 + 10)
  else none

/-- The value of the two hex digits after a `%`. -/
def escaped (b hi lo : UInt8) : Option UInt8 :=
  if b = 37 then match hexVal hi, hexVal lo with
    | some hi, some lo => some (hi <<< 4 ||| lo)
    | _, _ => none
  else none

def byteChar (b : UInt8) : Char := Char.ofNat b.toNat

def decodePercent : List UInt8 → List Char
  | [] => []
  | b :: hi :: lo :: rest => match escaped b hi lo with
    | some v => byteChar v :: decodePercent rest
    | none => byteChar b :: decodePercent (hi :: lo :: rest)
  | b :: rest => byteChar b :: decodePercent rest

/-- The value of the first `mac=` pair. -/
def parseMacParam (query : String) : Option String :=
  (query.toList.splitOn '&').findSome? fun pair =>
    if "mac=".toList.isPrefixOf pair then
      some (String.ofList (decodePercent (encode (String.ofList (pair.drop 4)))))
    else none

def HttpRequest.mac (req : HttpRequest) : Option String := req.query.bind parseMacParam

/-- A client's IQN ends with its name, or its MAC when it has none. -/
def clientIqn (client : ClientConfig) : String :=
  "iqn.2026-06.dev.xboot:" ++ client.name.getD client.mac

def ipv4Text (ip : BitVec 32) : String :=
  ".".intercalate ([24, 16, 8, 0].map fun shift => toString (ip.toNat / 2 ^ shift % 256))

namespace BootScript

def generate (iqn serverIp : String) : String :=
  "#!ipxe\nset initiator-iqn " ++ iqn ++ "\nsanboot iscsi:" ++ serverIp ++ "::::" ++ iqn ++ "\n"

end BootScript

/-- LUN 0 is the system disk and the games follow, each over a fresh overlay. -/
def bootTarget (manager : ClientManager) (client : ClientConfig) : ScsiTarget where
  luns :=
    ((manager.getStore client.systemDiskId).map fun store =>
      some ((LogicalUnit.new store).withSerial (clientIqn client))).toList ++
    client.gameDiskIds.filterMap fun gameId =>
      (manager.getStore gameId).map fun store => some (LogicalUnit.new store)

/-- Handle one HTTP request. -/
def handle (cfg : Config) (manager : ClientManager) (w : World) (req : HttpRequest) :
    Outcome (HttpResponse × World) :=
  if req.method ≠ "GET" ∨ req.path ≠ "/boot.ipxe" then .ok (notFound, w)
  else match req.mac with
    | none => .ok (badRequest "Missing 'mac' parameter", w)
    | some mac => match manager.resolve mac with
      | none => .ok (notFound, w)
      | some client => match cfg.boot with
        | none => .error .panic
        | some boot =>
          .ok (⟨200, some "text/plain",
              BootScript.generate (clientIqn client) (ipv4Text boot.serverIp)⟩,
            w.insert (clientIqn client) (bootTarget manager client))

/-- The ways through the handling of a request. -/
inductive Handles (cfg : Config) (manager : ClientManager) (w : World) (req : HttpRequest) :
    HttpResponse → World → Prop where
  | refuses {response : HttpResponse} (hstatus : response.status ≠ 200) :
      Handles cfg manager w req response w
  | boots {mac : String} {client : ClientConfig} {boot : BootConfig} (hmac : req.mac = some mac)
      (hresolve : manager.resolve mac = some client) (hboot : cfg.boot = some boot) :
      Handles cfg manager w req
        ⟨200, some "text/plain", BootScript.generate (clientIqn client) (ipv4Text boot.serverIp)⟩
        (w.insert (clientIqn client) (bootTarget manager client))

variable {cfg : Config} {manager : ClientManager} {w w' : World} {req : HttpRequest}
  {response : HttpResponse}

theorem handle_handles (h : handle cfg manager w req = .ok (response, w')) :
    Handles cfg manager w req response w' := by
  rw [handle] at h
  split at h
  · cases h
    exact .refuses (by decide)
  · split at h
    · cases h
      exact .refuses (by decide)
    · split at h
      · cases h
        exact .refuses (by decide)
      · split at h
        · cases h
        · cases h
          exact .boots ‹_› ‹_› ‹_›

/-- A client that asks for its script gets it, and a new target. -/
theorem handle_boots {mac : String} {client : ClientConfig} {boot : BootConfig} (w : World)
    (hget : req.method = "GET") (hpath : req.path = "/boot.ipxe") (hmac : req.mac = some mac)
    (hresolve : manager.resolve mac = some client) (hboot : cfg.boot = some boot) :
    handle cfg manager w req =
      .ok (⟨200, some "text/plain", BootScript.generate (clientIqn client) (ipv4Text boot.serverIp)⟩,
        w.insert (clientIqn client) (bootTarget manager client)) := by
  have hscript : ¬ (req.method ≠ "GET" ∨ req.path ≠ "/boot.ipxe") := by
    simp [hget, hpath]
  rw [handle, if_neg hscript, hmac]
  dsimp only
  rw [hresolve]
  dsimp only
  rw [hboot]

def bootRequest (mac : String) : HttpRequest := ⟨"GET", "/boot.ipxe", some ("mac=" ++ mac)⟩

/-- A resolved client gets its script and a new target. -/
theorem handle_bootRequest {text mac : String} {client : ClientConfig} {boot : BootConfig} (w : World)
    (hmac : (bootRequest text).mac = some mac) (hresolve : manager.resolve mac = some client)
    (hboot : cfg.boot = some boot) :
    handle cfg manager w (bootRequest text) =
      .ok (⟨200, some "text/plain", BootScript.generate (clientIqn client) (ipv4Text boot.serverIp)⟩,
        w.insert (clientIqn client) (bootTarget manager client)) :=
  handle_boots w rfl rfl hmac hresolve hboot

/-- A character that stands for itself in a query. -/
def plain (c : Char) : Bool := c.toNat < 0x80 && c ≠ '%' && c ≠ '&'

private theorem decodePercent_cons {b : UInt8} (hb : b ≠ 37) (rest : List UInt8) :
    decodePercent (b :: rest) = byteChar b :: decodePercent rest := by
  rcases rest with _ | ⟨hi, _ | ⟨lo, rest⟩⟩
  · rfl
  · rfl
  · have hnone : escaped b hi lo = none := by rw [escaped, if_neg hb]
    rw [decodePercent, hnone]

private theorem byteChar_ascii {c : Char} (h : c.toNat < 0x80) :
    byteChar (UInt8.ofNat c.toNat) = c := by
  rw [byteChar, UInt8.toNat_ofNat_of_lt' (Nat.lt_of_lt_of_le h (by decide)), Char.ofNat_toNat]

private theorem decodePercent_plain {cs : List Char} (h : ∀ c ∈ cs, plain c = true) :
    decodePercent (cs.flatMap String.utf8EncodeChar) = cs := by
  induction cs with
  | nil => rfl
  | cons c cs ih =>
    have hc := h c (List.mem_cons_self ..)
    simp only [plain, Bool.and_eq_true, decide_eq_true_eq] at hc
    obtain ⟨⟨hascii, hpercent⟩, -⟩ := hc
    have hb : UInt8.ofNat c.toNat ≠ 37 := by
      intro heq
      apply hpercent
      rw [← byteChar_ascii hascii, heq]
      rfl
    rw [List.flatMap_cons, utf8EncodeChar_ascii hascii, List.singleton_append,
      decodePercent_cons hb, byteChar_ascii hascii, ih fun c' hc' => h c' (List.mem_cons_of_mem _ hc')]

/-- A MAC of plain characters is read from the query as it is. -/
theorem mac_bootRequest {mac : String} (h : ∀ c ∈ mac.toList, plain c = true) :
    (bootRequest mac).mac = some mac := by
  have hquery : ("mac=" ++ mac).toList = 'm' :: 'a' :: 'c' :: '=' :: mac.toList :=
    String.toList_append
  have hno : '&' ∉ ("mac=" ++ mac).toList := by
    rw [hquery]
    intro hmem
    simp only [List.mem_cons] at hmem
    rcases hmem with hc | hc | hc | hc | hc
    · cases hc
    · cases hc
    · cases hc
    · cases hc
    · exact absurd (h _ hc) (by decide)
  have hdecode : decodePercent (encode mac) = mac.toList := decodePercent_plain h
  have hparse : parseMacParam ("mac=" ++ mac) = some mac := by
    rw [parseMacParam, List.splitOn_eq_singleton hno, hquery]
    have hstart : "mac=".toList.isPrefixOf ('m' :: 'a' :: 'c' :: '=' :: mac.toList) = true := rfl
    simp only [List.findSome?_cons, hstart, if_true, List.drop_succ_cons, List.drop_zero,
      String.ofList_toList, hdecode]
  exact hparse

end XBoot.Boot
