import XBoot.TftpFields
import XBoot.TftpRequests

/-!
# The options of a transfer

A client reads the OACK as the server reads a request's options. The block size that it
finds there is the one in which the file comes, but the server also acknowledges a block
size that nobody asked for.
-/

namespace XBoot.Tftp

open ListSlices BigEndian Utf8 Numerals

/-- Text that a null-terminated field holds as it is. -/
structure Plain (s : String) : Prop where
  ne : s ≠ ""
  chars : ∀ c ∈ s.toList, 0 < c.toNat ∧ c.toNat < 0x80

/-- The options that an OACK acknowledges. -/
def readOack (packet : List UInt8) : Option (List (String × String)) :=
  if slice packet 0 2 = toBe 2 OP_OACK then (parseOptions id (packet.drop 2)).toOption else none

/-- The block size that an OACK acknowledges, and 512 without one. -/
def ackedBlksize (packets : List (List UInt8)) : ℕ :=
  (((packets.findSome? readOack).bind fun acked => acked.lookup "blksize").bind
    (parseUnsigned 16)).getD 512

/-- The block size that a request asks for: its first one of at least 8. -/
def requestedBlksize (options : List (String × String)) : Option ℕ :=
  options.findSome? fun kv =>
    if kv.1 = "blksize" then (parseUnsigned 16 kv.2).filter (8 ≤ ·) else none

/-- What a client may expect of the packets that answer its request. -/
structure Honours (cap : ℕ) (data : List UInt8) (options : List (String × String))
    (packets : List (List UInt8)) : Prop where
  requested : ∀ packet ∈ packets, ∀ acked, readOack packet = some acked →
    acked ≠ [] ∧ ∀ kv ∈ acked, ∃ value, (kv.1, value) ∈ options
  sized : ∀ packet ∈ packets, ∀ acked, readOack packet = some acked →
    ∀ value, ("blksize", value) ∈ acked → ∃ b r, parseUnsigned 16 value = some b ∧
      requestedBlksize options = some r ∧ b ≤ r ∧ 8 ≤ b ∧ b ≤ cap
  blocks : ∀ packet ∈ packets, isData packet = true →
    ∃ k, packet = packetAt data (ackedBlksize packets) k

variable {toLowercase : String → String} {cfg : TftpServer} {data : List UInt8}
  {options : List (String × String)} {s : String}

theorem Plain.field (h : Plain s) : Field s :=
  ⟨h.ne, fun c hc => Nat.ne_of_gt (h.chars c hc).1⟩

theorem readOack_encodeOack (h : ∀ kv ∈ options, Plain kv.1 ∧ Plain kv.2) :
    readOack (encodeOack options) = some options := by
  have hopcode : slice (encodeOack options) 0 2 = toBe 2 OP_OACK :=
    (slice_append_left (by simp)).trans (slice_toBe 2 OP_OACK)
  have hfields : ∀ kv ∈ options, Field kv.1 ∧ Field kv.2 :=
    fun kv hkv => ⟨(h kv hkv).1.field, (h kv hkv).2.field⟩
  have hsame : lowered id options = options := List.map_id options
  rw [readOack, if_pos hopcode, drop_encodeOack, parseOptions_optionBytes hfields, hsame]
  rfl

theorem plain_toString (n : ℕ) : Plain (toString n) := by
  refine ⟨fun hempty => ?_, fun c hc => toNat_of_mem_toString hc⟩
  have hlist := toList_toString n
  rw [hempty] at hlist
  exact Nat.toDigits_ne_nil hlist.symm

private theorem plain_of_all {s : String} (hne : s ≠ "")
    (h : s.toList.all (fun c => 0 < c.toNat && c.toNat < 0x80) = true) : Plain s := by
  refine ⟨hne, fun c hc => ?_⟩
  have hboth := List.all_eq_true.1 h c hc
  rw [Bool.and_eq_true, decide_eq_true_eq, decide_eq_true_eq] at hboth
  exact hboth

private theorem blksize_ne_tsize : "blksize" ≠ "tsize" := by decide

private theorem plain_oackOptions (blksize size : ℕ) (options : List (String × String)) :
    ∀ kv ∈ oackOptions blksize size options, Plain kv.1 ∧ Plain kv.2 := by
  have hblksize : Plain "blksize" := plain_of_all (by decide) (by decide)
  have htsize : Plain "tsize" := plain_of_all (by decide) (by decide)
  intro kv hkv
  rw [oackOptions] at hkv
  rcases List.mem_cons.1 hkv with rfl | hsize
  · exact ⟨hblksize, plain_toString blksize⟩
  · split at hsize
    · cases List.mem_singleton.1 hsize
      exact ⟨htsize, plain_toString size⟩
    · cases hsize

theorem readOack_oackPacket :
    readOack (oackPacket cfg data options) =
      some (oackOptions (negotiateBlksize cfg.maxBlksize options) data.length options) :=
  readOack_encodeOack (plain_oackOptions _ _ _)

/-- Neither a block nor an ERROR is read as an OACK. -/
theorem readOack_other {packet : List UInt8} {blockSize : ℕ}
    (h : (∃ k, packet = packetAt data blockSize k) ∨ packet = timedOut) : readOack packet = none := by
  rw [readOack, if_neg]
  rcases h with ⟨k, rfl⟩ | rfl
  · simp [packetAt, encodeData, slice, toBe, OP_DATA, OP_OACK]
  · decide

theorem requestedBlksize_eq_some {r : ℕ} (h : requestedBlksize options = some r) :
    ∃ asked, ("blksize", asked) ∈ options ∧ parseUnsigned 16 asked = some r ∧ 8 ≤ r := by
  obtain ⟨⟨key, asked⟩, hmem, hkv⟩ := List.exists_of_findSome?_eq_some h
  rw [Option.ite_none_right_eq_some, Option.filter_eq_some_iff, decide_eq_true_eq] at hkv
  obtain ⟨rfl, hparse, hr⟩ := hkv
  exact ⟨asked, hmem, hparse, hr⟩

theorem requestedBlksize_ne_none_iff : requestedBlksize options ≠ none ↔
    ∃ asked r, ("blksize", asked) ∈ options ∧ parseUnsigned 16 asked = some r ∧ 8 ≤ r := by
  constructor
  · intro h
    obtain ⟨r, hr⟩ := Option.ne_none_iff_exists'.1 h
    obtain ⟨asked, hasked⟩ := requestedBlksize_eq_some hr
    exact ⟨asked, r, hasked⟩
  · rintro ⟨asked, r, hmem, hparse, hr⟩ hnone
    have hasked := List.findSome?_eq_none_iff.1 hnone _ hmem
    rw [if_pos rfl, hparse, Option.filter_some, if_pos (decide_eq_true hr)] at hasked
    cases hasked

/-- The negotiated block size is the requested one up to the cap, or 512. -/
theorem negotiateBlksize_eq (cap : ℕ) (options : List (String × String)) :
    negotiateBlksize cap options = ((requestedBlksize options).map (min · cap)).getD 512 := by
  induction options with
  | nil => rfl
  | cons kv options ih =>
    obtain ⟨key, value⟩ := kv
    have hcons : requestedBlksize ((key, value) :: options) =
        ((if key = "blksize" then (parseUnsigned 16 value).filter (8 ≤ ·) else none).or
          (requestedBlksize options)) := by
      rw [requestedBlksize, List.findSome?_cons]
      dsimp only
      split
      · rename_i hsome
        rw [hsome, Option.some_or]
      · rename_i hnone
        rw [hnone, Option.none_or]
        rfl
    rw [negotiateBlksize, ih, hcons]
    by_cases hkey : key = "blksize"
    · rw [if_pos hkey, if_pos hkey]
      cases hparse : parseUnsigned 16 value with
      | none => rfl
      | some v =>
        dsimp only
        rw [Option.filter_some]
        by_cases hv : 8 ≤ v
        · rw [if_pos hv, if_pos (decide_eq_true hv)]
          rfl
        · rw [if_neg hv, if_neg (by simpa using hv), Option.none_or]
    · rw [if_neg hkey, if_neg hkey]
      rfl

theorem negotiateBlksize_lt (cap : ℕ) (options : List (String × String)) :
    negotiateBlksize cap options < 2 ^ 16 := by
  rw [negotiateBlksize_eq]
  cases hrequested : requestedBlksize options with
  | none =>
    have hdefault : 512 < 2 ^ 16 := by decide
    exact hdefault
  | some r =>
    obtain ⟨asked, -, hparse, -⟩ := requestedBlksize_eq_some hrequested
    exact Nat.lt_of_le_of_lt (Nat.min_le_left _ _) (parseUnsigned_lt hparse)

theorem isData_oackPacket : isData (oackPacket cfg data options) = false := by
  simp [isData, oackPacket, encodeOack, slice, toBe, OP_DATA, OP_OACK]

private theorem sendFile_packets (hne : options ≠ []) (turns : List Turn) :
    (sendFile toLowercase cfg data options turns).packets = [] ∨
      ∃ blocks, (sendFile toLowercase cfg data options turns).packets =
          oackPacket cfg data options :: blocks ∧ ∀ packet ∈ blocks,
        (∃ k, packet = packetAt data (negotiateBlksize cfg.maxBlksize options) k) ∨
          packet = timedOut := by
  have hsize : (UInt16.ofNat (negotiateBlksize cfg.maxBlksize options)).toNat =
      negotiateBlksize cfg.maxBlksize options :=
    UInt16.toNat_ofNat_of_lt' (negotiateBlksize_lt _ _)
  unfold sendFile
  rw [if_neg hne]
  split
  · exact .inr ⟨[], rfl, nofun⟩
  · exact .inl rfl
  · split
    · refine .inr ⟨_, rfl, fun packet hpacket => ?_⟩
      rw [← hsize]
      exact transferLoop_packets hpacket
    · exact .inr ⟨[], rfl, nofun⟩
  · exact .inr ⟨[], rfl, nofun⟩

private theorem ackedBlksize_oack (blocks : List (List UInt8)) :
    ackedBlksize (oackPacket cfg data options :: blocks) =
      negotiateBlksize cfg.maxBlksize options := by
  have hlookup : (oackOptions (negotiateBlksize cfg.maxBlksize options) data.length options).lookup
      "blksize" = some (toString (negotiateBlksize cfg.maxBlksize options)) := rfl
  rw [ackedBlksize, List.findSome?_cons, readOack_oackPacket]
  dsimp only [Option.bind_some]
  rw [hlookup, Option.bind_some, parseUnsigned_toString (negotiateBlksize_lt _ _), Option.getD_some]

private theorem mem_oackOptions {blksize size : ℕ} {kv : String × String}
    (h : kv ∈ oackOptions blksize size options) : kv = ("blksize", toString blksize) ∨
      kv = ("tsize", toString size) ∧ ∃ value, ("tsize", value) ∈ options := by
  rw [oackOptions] at h
  rcases List.mem_cons.1 h with rfl | hsize
  · exact .inl rfl
  · split at hsize
    · rename_i htsize
      obtain ⟨⟨key, value⟩, hmem, hkey⟩ := List.any_eq_true.1 htsize
      rw [Bool.and_eq_true, decide_eq_true_eq] at hkey
      obtain ⟨rfl, -⟩ := hkey
      exact .inr ⟨List.mem_singleton.1 hsize, value, hmem⟩
    · cases hsize

private theorem block_of_isData {packet : List UInt8} {blockSize : ℕ}
    (h : (∃ k, packet = packetAt data blockSize k) ∨ packet = timedOut)
    (hdata : isData packet = true) : ∃ k, packet = packetAt data blockSize k := by
  rcases h with hblock | rfl
  · exact hblock
  · rw [isData_timedOut] at hdata
    cases hdata

private theorem honours_without_oack {packets : List (List UInt8)} {cap : ℕ}
    (h : ∀ packet ∈ packets, (∃ k, packet = packetAt data 512 k) ∨ packet = timedOut) :
    Honours cap data options packets := by
  have hnone : ∀ packet ∈ packets, readOack packet = none := fun packet hpacket =>
    readOack_other (h packet hpacket)
  have hsize : ackedBlksize packets = 512 := by
    rw [ackedBlksize, List.findSome?_eq_none_iff.2 hnone]
    rfl
  refine ⟨fun packet hpacket acked hread => ?_, fun packet hpacket acked hread => ?_,
    fun packet hpacket hdata => ?_⟩
  · exact nomatch (hnone packet hpacket).symm.trans hread
  · exact nomatch (hnone packet hpacket).symm.trans hread
  · rw [hsize]
    exact block_of_isData (h packet hpacket) hdata

private theorem honours_with_oack {blocks : List (List UInt8)} {r : ℕ}
    (hcap : 8 ≤ cfg.maxBlksize) (hrequested : requestedBlksize options = some r)
    (h : ∀ packet ∈ blocks,
      (∃ k, packet = packetAt data (negotiateBlksize cfg.maxBlksize options) k) ∨ packet = timedOut) :
    Honours cfg.maxBlksize data options (oackPacket cfg data options :: blocks) := by
  obtain ⟨asked, hasked, -, hr⟩ := requestedBlksize_eq_some hrequested
  -- the OACK is the only packet that is read as one
  have honly : ∀ packet ∈ oackPacket cfg data options :: blocks, ∀ acked,
      readOack packet = some acked →
        acked = oackOptions (negotiateBlksize cfg.maxBlksize options) data.length options := by
    intro packet hpacket acked hread
    rcases List.mem_cons.1 hpacket with rfl | hblock
    · exact Option.some.inj (hread.symm.trans readOack_oackPacket)
    · exact nomatch (readOack_other (h packet hblock)).symm.trans hread
  refine ⟨fun packet hpacket acked hread => ?_, fun packet hpacket acked hread value hvalue => ?_,
    fun packet hpacket hdata => ?_⟩
  · rw [honly packet hpacket acked hread]
    refine ⟨List.cons_ne_nil _ _, fun kv hkv => ?_⟩
    rcases mem_oackOptions hkv with rfl | ⟨rfl, hsize⟩
    · exact ⟨asked, hasked⟩
    · exact hsize
  · rw [honly packet hpacket acked hread] at hvalue
    rcases mem_oackOptions hvalue with heq | ⟨heq, -⟩
    · cases heq
      have hnegotiated : negotiateBlksize cfg.maxBlksize options = min r cfg.maxBlksize := by
        rw [negotiateBlksize_eq, hrequested]
        rfl
      refine ⟨_, r, parseUnsigned_toString (negotiateBlksize_lt _ _), hrequested, ?_⟩
      rw [hnegotiated]
      exact ⟨Nat.min_le_left _ _, Nat.le_min.2 ⟨hr, hcap⟩, Nat.min_le_right _ _⟩
    · exact absurd (congrArg Prod.fst heq) blksize_ne_tsize
  · rw [ackedBlksize_oack]
    rcases List.mem_cons.1 hpacket with rfl | hblock
    · rw [isData_oackPacket] at hdata
      cases hdata
    · exact block_of_isData (h packet hblock) hdata

/-- The answer to a request is what the client may expect on every run exactly when there
are no options or a block size of at least 8 is asked for. -/
theorem honours_options_iff (toLowercase : String → String) (cfg : TftpServer)
    (data : List UInt8) (options : List (String × String)) :
    (∀ turns, Honours cfg.maxBlksize data options
      (sendFile toLowercase cfg data options turns).packets) ↔
      options = [] ∨ 8 ≤ cfg.maxBlksize ∧ ∃ asked r, ("blksize", asked) ∈ options ∧
        parseUnsigned 16 asked = some r ∧ 8 ≤ r := by
  rw [← requestedBlksize_ne_none_iff]
  constructor
  · intro h
    by_cases hne : options = []
    · exact .inl hne
    · have hown := h []
      unfold sendFile at hown
      rw [if_neg hne] at hown
      obtain ⟨b, r, -, hrequested, -, hmin, hcap⟩ := hown.sized _ List.mem_cons_self _
        readOack_oackPacket _ List.mem_cons_self
      exact .inr ⟨hmin.trans hcap, hrequested ▸ Option.some_ne_none r⟩
  · rintro (rfl | ⟨hcap, hasked⟩) turns
    · have hsize : (UInt16.ofNat (negotiateBlksize cfg.maxBlksize [])).toNat = 512 := by
        rw [negotiateBlksize]
        rfl
      unfold sendFile
      rw [if_pos rfl]
      refine honours_without_oack fun packet hpacket => ?_
      rw [← hsize]
      exact transferLoop_packets hpacket
    · obtain ⟨r, hrequested⟩ := Option.ne_none_iff_exists'.1 hasked
      obtain ⟨asked, hmem, -⟩ := requestedBlksize_eq_some hrequested
      have hne : options ≠ [] := List.ne_nil_of_mem hmem
      rcases sendFile_packets hne turns with hnone | ⟨blocks, hpackets, hblocks⟩
      · rw [hnone]
        exact ⟨by simp, by simp, by simp⟩
      · rw [hpackets]
        exact honours_with_oack hcap hrequested hblocks

/-- A client that asks for the file's size alone is told a block size. -/
theorem size_request_not_honoured :
    ¬ ∀ turns, Honours TftpServer.new.maxBlksize [7] [("tsize", "0")]
      (sendFile id TftpServer.new [7] [("tsize", "0")] turns).packets := by
  intro h
  obtain ⟨-, hrequested⟩ := (h []).requested _ List.mem_cons_self _ readOack_oackPacket
  obtain ⟨value, hvalue⟩ := hrequested _ List.mem_cons_self
  exact absurd (congrArg Prod.fst (List.mem_singleton.1 hvalue)) blksize_ne_tsize

end XBoot.Tftp
