import XBoot.PduFraming
import XBoot.Residuals
import XBoot.SessionInvariant

/-!
# The length of data segments

An initiator declares the longest data segment that it takes. The read data of a command is
cut at the declaration, and the texts of a login, sense data and echoed headers are short,
but ping data is echoed and the list of targets sent in one segment, whatever their length;
and a declaration counts for the target only where a login negotiates.
-/

namespace XBoot.Iscsi

open ListSlices Storage Numerals

variable {σ τ : Type}

/-- The keys that a request brings. -/
def Request.keys : Request → List (String × String)
  | .login r => r.text
  | .text r => r.text
  | _ => []

/-- The longest segment that the initiator takes after it declared one more key. -/
def declare (length : ℕ) (kv : String × String) : ℕ :=
  if kv.1 = "MaxRecvDataSegmentLength" then (parseUnsigned 32 kv.2).getD length else length

/-- The last declaration, or the default. -/
def declared (reqs : List Request) : ℕ := (reqs.flatMap Request.keys).foldl declare 8192

/-- The longest segment that may be sent after the turns. -/
def limit (ts : List (Turn σ τ)) : ℕ := max (declared (ts.map (·.req))) 512

/-- A segment of the length is within the limit, and its header can tell its length. -/
structure SegmentFits (limit length : ℕ) : Prop where
  le_limit : length ≤ limit
  lt_field : length < 2 ^ 24

/-- Every PDU of the run has a segment that fits when it is sent. -/
def SegmentsFit (ts : List (Turn σ τ)) : Prop :=
  ∀ before t after, ts = before ++ t :: after →
    ∀ pdu ∈ t.pdus, SegmentFits (limit (before ++ [t])) pdu.segment.length

/-- The length of the list of targets as it is sent: each name in a pair with the key. -/
def listingLength (iqns : List String) : ℕ := (iqns.map fun iqn => 12 + (Utf8.encode iqn).length).sum

/-- What a request in FullFeature makes the target send in one segment fits: ping data, the
list of targets, and read data of which a PDU carries at most as much as the target believes
the initiator takes. -/
def AsksWithin (order : List String → List String) (lim : ℕ) (w : World) (c : Connection ℕ) :
    Request → Prop
  | .nopOut n => SegmentFits lim n.data.length
  | .text r => r.text.any (·.1 = "SendTargets") = true →
    SegmentFits lim (listingLength (order (w.registry.map (·.1))))
  | .scsiCommand cmd => cmd.read = true → cmd.write = false → ∀ i target, c.target = some i →
    w.instances[i]? = some target → SegmentFits lim (min c.segment (target.dataLength cmd))
  | _ => True

variable {length length' lim : ℕ}

theorem SegmentFits.mono (h : SegmentFits lim length) (hle : length' ≤ length) :
    SegmentFits lim length' :=
  ⟨hle.trans h.le_limit, Nat.lt_of_le_of_lt hle h.lt_field⟩

theorem segmentFits_of_le (h : length ≤ 512) (hlim : 512 ≤ lim) : SegmentFits lim length :=
  ⟨h.trans hlim, Nat.lt_of_le_of_lt h (by decide)⟩

theorem limit_ge (ts : List (Turn σ τ)) : 512 ≤ limit ts := Nat.le_max_right _ _

private theorem length_encode_yesNo (b : Bool) : (Utf8.encode (Connection.yesNo b)).length ≤ 3 := by
  cases b <;> decide

theorem encodePairs_cons (kv : String × String) (rest : List (String × String)) :
    (encodePairs (kv :: rest)).length =
      (Utf8.encode kv.1).length + (Utf8.encode kv.2).length + 2 + (encodePairs rest).length := by
  simp only [encodePairs, List.flatMap_cons, List.length_append, List.length_singleton]
  omega

/-- The keys that a login answers make a short text. -/
theorem length_replyKeys {p : SessionParams} (h : p.Within .initial) :
    (encodePairs (Connection.replyKeys p)).length ≤ 512 := by
  have hmax : (Utf8.encode (toString p.maxBurstLength)).length ≤ 10 :=
    length_encode_toString (by decide) (Nat.lt_of_le_of_lt h.maxBurst_le (by decide))
  have hfirst : (Utf8.encode (toString p.firstBurstLength)).length ≤ 10 :=
    length_encode_toString (by decide) (Nat.lt_of_le_of_lt h.firstBurst_le (by decide))
  have himmediate := length_encode_yesNo p.immediateData
  have hinitial := length_encode_yesNo p.initialR2t
  have hkeys : (Utf8.encode "MaxBurstLength").length + (Utf8.encode "FirstBurstLength").length +
      (Utf8.encode "ImmediateData").length + (Utf8.encode "InitialR2T").length +
      (Utf8.encode "HeaderDigest").length + (Utf8.encode "DataDigest").length +
      (Utf8.encode "None").length + (Utf8.encode "None").length = 83 := by decide
  simp only [Connection.replyKeys, encodePairs_cons]
  have hnil : (encodePairs []).length = 0 := rfl
  omega

theorem length_targetNames (iqns : List String) :
    (encodePairs (iqns.map fun iqn => ("TargetName", iqn))).length = listingLength iqns := by
  induction iqns with
  | nil => rfl
  | cons iqn rest ih =>
    have hkey : (Utf8.encode "TargetName").length = 10 := by decide
    rw [List.map_cons, encodePairs_cons, ih, hkey, listingLength, listingLength, List.map_cons,
      List.sum_cons]
    dsimp only
    omega

private theorem dataInChunks_segments (c : Connection τ) (cmd : ScsiCommand) (data : List UInt8)
    (offset : ℕ) (dataSn : UInt32) :
    (∀ pdu ∈ (c.dataInChunks cmd data offset dataSn).1,
      pdu.segment.length ≤ min c.segment (data.length - offset)) ∧
    (offset < data.length → ∃ pdu ∈ (c.dataInChunks cmd data offset dataSn).1,
      pdu.segment.length = min c.segment (data.length - offset)) := by
  fun_induction Connection.dataInChunks c cmd data offset dataSn with
  | case1 c offset dataSn hlt stop isLast pdu cnext rest c'' hrest ih =>
    rw [hrest] at ih
    have hpdu : pdu.segment.length = min c.segment (data.length - offset) := by
      have hslice : pdu.segment.length = stop - offset := length_slice (by omega)
      omega
    have hnext : cnext.segment = c.segment := by
      dsimp only [cnext]
      split <;> rfl
    refine ⟨fun pdu' hmem => ?_, fun _ => ⟨pdu, List.mem_cons_self, hpdu⟩⟩
    rcases List.mem_cons.1 hmem with rfl | hmem
    · exact hpdu.le
    · have hle := ih.1 pdu' hmem
      rw [hnext] at hle
      omega
  | case2 c offset dataSn hge =>
    exact ⟨fun _ hmem => absurd hmem List.not_mem_nil, fun hlt => absurd hlt hge⟩

private theorem dataIn_fits_iff {c c' : Connection τ} {cmd : ScsiCommand} {data : List UInt8}
    {pdus : List Outbound} (hdata : data ≠ [])
    (h : Connection.Gives (c.dataInChunks cmd data 0 0) pdus c') :
    (∀ pdu ∈ pdus, SegmentFits lim pdu.segment.length) ↔
      SegmentFits lim (min c.segment data.length) := by
  obtain ⟨hall, hfirst⟩ := dataInChunks_segments c cmd data 0 0
  rw [h] at hall hfirst
  constructor
  · intro hfits
    obtain ⟨pdu, hmem, hlength⟩ := hfirst (List.length_pos_iff.2 hdata)
    have hpdu := hfits pdu hmem
    rw [hlength] at hpdu
    exact hpdu
  · exact fun hfits pdu hmem => hfits.mono (hall pdu hmem)

variable {order : List String → List String} {w w' : World} {c c' : Connection ℕ}
  {pdus : List Outbound} {bhs : List UInt8} {cmd : ScsiCommand} {d : ScsiDataOut} {req : Request}

private theorem fits_of_gives {pdu : Outbound} {next : Connection ℕ} (hlim : 512 ≤ lim)
    (h : Connection.Gives ([pdu], next) pdus c') (hpdu : pdu.segment.length ≤ 512) :
    ∀ pdu ∈ pdus, SegmentFits lim pdu.segment.length := by
  cases h
  intro pdu' hmem
  rw [List.mem_singleton.1 hmem]
  exact segmentFits_of_le hpdu hlim

private theorem length_reject_header (bhs : List UInt8) :
    (bhs.take BHS_LEN ++ List.replicate (BHS_LEN - bhs.length) (0 : UInt8)).length ≤ 512 := by
  rw [List.length_append, List.length_take, List.length_replicate, BHS_LEN]
  omega

private theorem execute_target {i : ℕ} {data : List UInt8} {outcome : ScsiOutcome}
    (h : (World.targets order).execute i cmd data w = .ok (outcome, w')) :
    ∃ target target', w.instances[i]? = some target ∧
      target.execute cmd data = .ok (outcome, target') := by
  simp only [World.targets, World.execute] at h
  split at h
  · cases h
  · split at h
    · cases h
    · rename_i target htarget _ _ target' hexecute
      cases h
      exact ⟨target, target', htarget, hexecute⟩

private theorem length_sense_le {i : ℕ} {data : List UInt8} {outcome : ScsiOutcome}
    (h : (World.targets order).execute i cmd data w = .ok (outcome, w')) :
    outcome.sense.length ≤ 512 := by
  obtain ⟨target, target', -, hexecute⟩ := execute_target h
  exact (execute_shaped hexecute).length_sense_le.trans (by decide)

private theorem finishes_fit {p : PendingWrite} (hlim : 512 ≤ lim)
    (h : Connection.Finishes (World.targets order) w c p pdus c' w') :
    ∀ pdu ∈ pdus, SegmentFits lim pdu.segment.length := by
  obtain ⟨target, outcome, -, hexecute, hgives⟩ := h.executed
  exact fits_of_gives hlim hgives (length_sense_le hexecute)

private theorem commands_fit_iff (hlim : 512 ≤ lim)
    (h : Connection.Commands (World.targets order) w c.counted bhs cmd pdus c' w') :
    (∀ pdu ∈ pdus, SegmentFits lim pdu.segment.length) ↔
      AsksWithin order lim w c (.scsiCommand cmd) := by
  have hwrites : cmd.write = true → AsksWithin order lim w c (.scsiCommand cmd) := by
    intro hwrite _ hread
    rw [hwrite] at hread
    cases hread
  cases h with
  | oversized hwrite _ hgives =>
    exact iff_of_true (fits_of_gives hlim hgives (length_reject_header bhs)) (hwrites hwrite)
  | gathers hwrite _ hgives =>
    exact iff_of_true (fits_of_gives hlim hgives (Nat.zero_le _)) (hwrites hwrite)
  | completes hwrite _ hfinishes =>
    exact iff_of_true (finishes_fit hlim hfinishes) (hwrites hwrite)
  | dataIn hwrite hexecute hdata hgives hbound =>
    obtain ⟨target, target', htarget, hrun⟩ := execute_target hexecute
    rw [dataIn_fits_iff hdata.2.2 hgives, length_execute hrun]
    constructor
    · intro hfits _ _ i target'' hi htarget''
      cases hbound.symm.trans hi
      cases htarget.symm.trans htarget''
      exact hfits
    · exact fun hasks => hasks hdata.1 hwrite _ target hbound htarget
  | responds hwrite hexecute hgives hbound hnone =>
    refine iff_of_true (fits_of_gives hlim hgives (length_sense_le hexecute)) ?_
    intro hread _ i target'' hi htarget''
    obtain ⟨target, target', htarget, hrun⟩ := execute_target hexecute
    cases hbound.symm.trans hi
    have hsame : target = target'' := Option.some.inj (htarget.symm.trans htarget'')
    rw [← hsame]
    have hempty : target.dataLength cmd = 0 := by
      rw [← length_execute hrun, List.length_eq_zero_iff]
      by_contra hdata
      exact hnone ⟨hread, (execute_shaped hrun).status_eq hdata, hdata⟩
    rw [hempty, Nat.min_zero]
    exact segmentFits_of_le (Nat.zero_le _) hlim

private theorem feeds_fit (hlim : 512 ≤ lim)
    (h : Connection.Feeds (World.targets order) w c bhs d pdus c' w') :
    ∀ pdu ∈ pdus, SegmentFits lim pdu.segment.length := by
  cases h with
  | unknown _ hgives => exact fits_of_gives hlim hgives (length_reject_header bhs)
  | outside _ _ hgives => exact fits_of_gives hlim hgives (length_reject_header bhs)
  | more _ _ _ hgives => exact fits_of_gives hlim hgives (Nat.zero_le _)
  | last _ _ _ hfinishes => exact finishes_fit hlim hfinishes

theorem login_fits {lr : LoginRequest} (hlim : 512 ≤ lim)
    (hparams : c.params.Within .initial)
    (h : Connection.Gives (c.handleLogin (World.targets order) w lr) pdus c') :
    ∀ pdu ∈ pdus, SegmentFits lim pdu.segment.length := by
  cases Connection.handleLogin_logins h with
  | fails _ hgives => exact fits_of_gives hlim hgives (Nat.zero_le _)
  | @accepts r hpdus haccepts =>
    have htext : (encodePairs r.text).length ≤ 512 := by
      rw [haccepts.text_eq]
      split
      · exact length_replyKeys ((c.negotiated_within lr).trans hparams)
      · exact Nat.zero_le _
    rw [hpdus]
    intro pdu hmem
    rw [List.mem_singleton.1 hmem]
    exact segmentFits_of_le htext hlim

private theorem listing_fits_iff (hlim : 512 ≤ lim) (asked : Bool) (iqns : List String) :
    (asked = true → SegmentFits lim (listingLength iqns)) ↔
      SegmentFits lim (encodePairs (if asked then iqns.map fun iqn => ("TargetName", iqn) else
        [])).length := by
  cases asked with
  | true =>
    rw [if_pos rfl, length_targetNames]
    exact forall_prop_of_true rfl
  | false => exact iff_of_true (fun h => by cases h) (segmentFits_of_le (Nat.zero_le _) hlim)

private theorem handle_fits_iff (hlim : 512 ≤ lim) (hparams : c.params.Within .initial)
    (hbound : c.WellFormed) (h : c.handle (World.targets order) w req bhs = .ok (pdus, c', w')) :
    (∀ pdu ∈ pdus, SegmentFits lim pdu.segment.length) ↔
      (c.stage = .fullFeature → AsksWithin order lim w c req) := by
  cases Connection.handle_handles h with
  | login hstage hgives =>
    refine iff_of_true (login_fits hlim hparams hgives) fun hfull => ?_
    cases hstage.symm.trans hfull
  | misplaced hstage _ hgives =>
    exact iff_of_true (fits_of_gives hlim hgives (length_reject_header bhs))
      fun hfull => absurd hfull hstage
  | command hstage _ hcommands =>
    rw [commands_fit_iff hlim hcommands]
    exact ⟨fun hasks _ => hasks, fun hasks => hasks hstage⟩
  | unbound hstage htarget => exact absurd htarget (hbound.bound hstage)
  | dataOut _ hfeeds => exact iff_of_true (feeds_fit hlim hfeeds) fun _ => trivial
  | nopOut hstage hgives =>
    cases hgives
    constructor
    · exact fun hfits _ => hfits _ (List.mem_singleton_self _)
    · intro hasks pdu hmem
      rw [List.mem_singleton.1 hmem]
      exact hasks hstage
  | @text r hstage hgives =>
    cases hgives
    have htext := listing_fits_iff hlim (r.text.any (·.1 = "SendTargets"))
      (order (w.registry.map (·.1)))
    constructor
    · exact fun hfits _ => htext.2 (hfits _ (List.mem_singleton_self _))
    · intro hasks pdu hmem
      rw [List.mem_singleton.1 hmem]
      exact htext.1 (hasks hstage)
  | taskMgmt _ hgives =>
    exact iff_of_true (fits_of_gives hlim hgives (Nat.zero_le _)) fun _ => trivial
  | logout _ hgives =>
    exact iff_of_true (fits_of_gives hlim hgives (Nat.zero_le _)) fun _ => trivial
  | loginAgain _ hgives =>
    exact iff_of_true (fits_of_gives hlim hgives (length_reject_header bhs)) fun _ => trivial
  | unsupported _ hgives =>
    exact iff_of_true (fits_of_gives hlim hgives (length_reject_header bhs)) fun _ => trivial

theorem Conversation.params_within {tg : Targets σ τ} {ts : List (Turn σ τ)} {c : Connection τ}
    (h : Conversation tg ts c) : c.params.Within .initial := by
  induction h with
  | new => exact SessionParams.Within.refl _
  | turn _ hturn ih => exact (Connection.handle_within hturn).trans ih

/-- A run's segments fit and keep a reader in step if and only if every request in FullFeature
asks for no more in one segment than the initiator takes at that time. -/
theorem segments_fit_iff (order : List String → List String) {ts : List (Turn World ℕ)}
    (h : Conversation (World.targets order) ts c) :
    (SegmentsFit ts ∧ InStep (sent ts)) ↔
      ∀ before t after, ts = before ++ t :: after → t.conn.stage = .fullFeature →
        AsksWithin order (limit (before ++ [t])) t.before t.conn t.req := by
  have hturn : ∀ before t after, ts = before ++ t :: after →
      ((∀ pdu ∈ t.pdus, SegmentFits (limit (before ++ [t])) pdu.segment.length) ↔
        (t.conn.stage = .fullFeature →
          AsksWithin order (limit (before ++ [t])) t.before t.conn t.req)) := by
    intro before t after hts
    subst hts
    obtain ⟨hbefore, hhappens⟩ := h.turn_at
    exact handle_fits_iff (limit_ge _) hbefore.params_within hbefore.wellFormed hhappens
  constructor
  · rintro ⟨hfits, -⟩ before t after hts
    exact (hturn before t after hts).1 (hfits before t after hts)
  · intro hasks
    have hfits : SegmentsFit ts := fun before t after hts =>
      (hturn before t after hts).2 (hasks before t after hts)
    refine ⟨hfits, inStep_of_short fun pdu hmem => ?_⟩
    obtain ⟨t, ht, hpdu⟩ := List.mem_flatMap.1 hmem
    obtain ⟨before, after, hts⟩ := List.append_of_mem ht
    exact (hfits before t after hts pdu hpdu).lt_field

def ping (data : List UInt8) : NopOut where
  lun := 0
  itt := 2
  ttt := 0xffffffff
  cmdSn := 5
  expStatSn := 0
  data := data

def pingTurn (data : List UInt8) : Turn World ℕ where
  conn := .loggedIn 0 5
  before := oneBlockDisk
  req := .nopOut (ping data)
  bhs := []
  pdus := ((Connection.loggedIn 0 5).nopIn (ping data)).1
  next := .loggedIn 0 5
  after := oneBlockDisk

private theorem ping_conversation (data : List UInt8) : ∃ pdus,
    Conversation (World.targets id) [loginTurn oneBlockDisk "a" pdus 0, pingTurn data]
      (.loggedIn 0 5) := by
  have hget : (World.targets id).get oneBlockDisk "a" = some 0 := by decide
  obtain ⟨pdus, hlogin⟩ := login_conversation hget
  have hping : (pingTurn data).Happens (World.targets id) := rfl
  exact ⟨pdus, hlogin.turn hping⟩

theorem short_ping_fits : ∃ pdus,
    SegmentsFit [loginTurn oneBlockDisk "a" pdus 0, pingTurn [1, 2, 3]] ∧
      InStep (sent [loginTurn oneBlockDisk "a" pdus 0, pingTurn [1, 2, 3]]) := by
  obtain ⟨pdus, hconversation⟩ := ping_conversation [1, 2, 3]
  refine ⟨pdus, (segments_fit_iff id hconversation).2 fun before t after hts hstage => ?_⟩
  have hmem : t ∈ before ++ t :: after := by simp
  rw [← hts] at hmem
  rcases List.mem_cons.1 hmem with rfl | hmem
  · cases hstage
  · rw [List.mem_singleton.1 hmem]
    exact segmentFits_of_le (by decide) (limit_ge _)

/-- A ping of 8193 bytes is echoed to an initiator that takes 8192. -/
theorem long_ping_does_not_fit :
    ¬ ∀ (ts : List (Turn World ℕ)) c, Conversation (World.targets id) ts c →
      SegmentsFit ts ∧ InStep (sent ts) := by
  intro hall
  have hlength : (List.replicate 8193 (0 : UInt8)).length = 8193 := List.length_replicate
  generalize List.replicate 8193 (0 : UInt8) = data at hlength
  obtain ⟨pdus, hconversation⟩ := ping_conversation data
  have hfits := (hall _ _ hconversation).1 [loginTurn oneBlockDisk "a" pdus 0] (pingTurn data) []
    rfl _ (List.mem_singleton_self _)
  have hlimit : limit ([loginTurn oneBlockDisk "a" pdus 0] ++ [pingTurn data]) = 8192 := rfl
  have hle : data.length ≤ 8192 := hlimit ▸ hfits.le_limit
  omega

end XBoot.Iscsi
