import XBoot.TftpPacket

/-!
# The fields of a request

A read request with the options of an OACK is parsed as its filename, its mode and these
options with lower-cased keys; a key without a value at the end is ignored.
-/

namespace XBoot.Tftp

open ListSlices BigEndian Utf8

/-- Text that a null-terminated field can hold. -/
structure Field (s : String) : Prop where
  ne : s ≠ ""
  nulFree : NulFree s

/-- The null-terminated keys and values of options. -/
def optionBytes (options : List (String × String)) : List UInt8 :=
  options.flatMap fun kv => encode kv.1 ++ [0] ++ encode kv.2 ++ [0]

theorem drop_encodeOack (options : List (String × String)) :
    (encodeOack options).drop 2 = optionBytes options := List.drop_left' rfl

/-- The datagram of a read request whose options are encoded as in an OACK. -/
def requestBytes (filename mode : String) (options : List (String × String)) : List UInt8 :=
  [0, 1] ++ encode filename ++ [0] ++ encode mode ++ [0] ++ (encodeOack options).drop 2

def lowered (toLowercase : String → String) (options : List (String × String)) :
    List (String × String) := options.map fun kv => (toLowercase kv.1, kv.2)

variable {toLowercase : String → String} {options : List (String × String)} {s filename mode : String}
  {rest after : List UInt8}

theorem readCstr_bytes {bs : List UInt8} (hne : bs ≠ []) (hzero : 0 ∉ bs) :
    readCstr (bs ++ [0] ++ rest) = .ok (fromUtf8Lossy bs, rest) := by
  have hnone : bs.findIdx? (· = 0) = none := by
    rw [List.findIdx?_eq_none_iff]
    intro b hb
    exact decide_eq_false fun heq => hzero (heq ▸ hb)
  have hstop : (bs ++ [0] ++ rest).findIdx? (· = 0) = some bs.length := by
    rw [List.append_assoc, List.findIdx?_append, hnone, Option.none_or]
    simp [List.findIdx?_cons]
  have htake : (bs ++ [0] ++ rest).take bs.length = bs := by
    rw [List.append_assoc]
    exact List.take_left' rfl
  have hdrop : (bs ++ [0] ++ rest).drop (bs.length + 1) = rest := List.drop_left' (by simp)
  rw [readCstr, hstop]
  dsimp only
  rw [htake, if_neg (fromUtf8Lossy_ne_empty hne), hdrop]

theorem readCstr_encode (h : Field s) : readCstr (encode s ++ [0] ++ rest) = .ok (s, rest) := by
  rw [readCstr_bytes (encode_ne_nil h.ne) h.nulFree.zero_not_mem, fromUtf8Lossy_encode]

theorem parseOptions_nil : parseOptions toLowercase [] = .ok [] := by
  rw [parseOptions, if_pos rfl]

/-- A pair at the front is the first of the options. -/
theorem parseOptions_pair {key value : String} (hrest : rest ≠ []) (hmiddle : after ≠ [])
    {more : List UInt8} (hkey : readCstr rest = .ok (key, after))
    (hvalue : readCstr after = .ok (value, more)) :
    parseOptions toLowercase rest =
      (parseOptions toLowercase more).map ((toLowercase key, value) :: ·) := by
  rw [parseOptions, if_neg hrest]
  split
  · rename_i hread
    rw [hkey] at hread
    cases hread
  · rename_i hread
    rw [hkey] at hread
    cases hread
    rw [if_neg hmiddle]
    split
    · rename_i hread
      rw [hvalue] at hread
      cases hread
    · rename_i hread
      rw [hvalue] at hread
      cases hread
      cases parseOptions toLowercase more <;> rfl

theorem parseOptions_lone {key : String} (hrest : rest ≠ []) (hkey : readCstr rest = .ok (key, [])) :
    parseOptions toLowercase rest = .ok [] := by
  rw [parseOptions, if_neg hrest]
  split
  · rename_i hread
    rw [hkey] at hread
    cases hread
  · rename_i hread
    rw [hkey] at hread
    cases hread
    rw [if_pos rfl]

theorem parseOptions_append (toLowercase : String → String)
    (h : ∀ kv ∈ options, Field kv.1 ∧ Field kv.2) (rest : List UInt8) :
    parseOptions toLowercase (optionBytes options ++ rest) =
      (parseOptions toLowercase rest).map (lowered toLowercase options ++ ·) := by
  induction options with
  | nil => cases hrest : parseOptions toLowercase rest <;> simp [optionBytes, lowered, hrest, Except.map]
  | cons kv options ih =>
    obtain ⟨hkey, hvalue⟩ := h kv List.mem_cons_self
    have hbytes : optionBytes (kv :: options) ++ rest =
        encode kv.1 ++ [0] ++ (encode kv.2 ++ [0] ++ (optionBytes options ++ rest)) := by
      simp only [optionBytes, List.flatMap_cons, List.append_assoc]
    rw [hbytes, parseOptions_pair (by simp) (by simp) (readCstr_encode hkey) (readCstr_encode hvalue),
      ih fun kv' hkv' => h kv' (List.mem_cons_of_mem _ hkv')]
    cases parseOptions toLowercase rest <;> rfl

theorem parseOptions_optionBytes (h : ∀ kv ∈ options, Field kv.1 ∧ Field kv.2) :
    parseOptions toLowercase (optionBytes options) = .ok (lowered toLowercase options) := by
  have happend := parseOptions_append toLowercase h []
  rw [List.append_nil, parseOptions_nil] at happend
  rw [happend, Except.map, List.append_nil]

/-- A request is parsed field by field; what follows its options is left to their parser. -/
theorem parse_requestBytes_append (toLowercase : String → String) (options : List (String × String))
    (hfile : Field filename) (hmode : Field mode) (rest : List UInt8) :
    parse toLowercase (requestBytes filename mode options ++ rest) =
      (parseOptions toLowercase (optionBytes options ++ rest)).map (.rrq filename mode) := by
  have hbytes : requestBytes filename mode options ++ rest = [0, 1] ++
      (encode filename ++ [0] ++ (encode mode ++ [0] ++ (optionBytes options ++ rest))) := by
    simp only [requestBytes, drop_encodeOack, List.append_assoc]
  have hopcode (tail : List UInt8) : ofBe (slice ([0, 1] ++ tail) 0 2) = OP_RRQ := by
    rw [slice_append_left (by decide)]
    decide
  rw [hbytes, parse, if_neg (by simp), hopcode, List.drop_left' (by rfl)]
  refine (if_pos (.inl rfl)).trans ?_
  rw [parseRq, readCstr_encode hfile]
  simp only [bind, Except.bind]
  rw [readCstr_encode hmode]
  simp only
  rw [if_neg (by decide)]
  cases parseOptions toLowercase (optionBytes options ++ rest) <;> rfl

/-- A read request is parsed as what it was made from; a lone key behind its options changes
nothing. -/
theorem parse_read_request (toLowercase : String → String) (hfile : Field filename)
    (hmode : Field mode) (hoptions : ∀ kv ∈ options, Field kv.1 ∧ Field kv.2) :
    parse toLowercase (requestBytes filename mode options) =
        .ok (.rrq filename mode (lowered toLowercase options)) ∧
      ∀ key : List UInt8, key ≠ [] → 0 ∉ key →
        parse toLowercase (requestBytes filename mode options ++ (key ++ [0])) =
          .ok (.rrq filename mode (lowered toLowercase options)) := by
  refine ⟨?_, fun key hne hzero => ?_⟩
  · have hparse := parse_requestBytes_append toLowercase options hfile hmode []
    rw [List.append_nil, List.append_nil, parseOptions_optionBytes hoptions] at hparse
    exact hparse
  · have hlone : parseOptions toLowercase (key ++ [0]) = .ok [] := by
      have hkey : readCstr (key ++ [0] ++ []) = _ := readCstr_bytes hne hzero
      rw [List.append_nil] at hkey
      exact parseOptions_lone (by simp) hkey
    rw [parse_requestBytes_append toLowercase options hfile hmode, parseOptions_append _ hoptions, hlone]
    simp [Except.map]

def lowerAscii (s : String) : String := String.ofList (s.toList.map Char.toLower)

/-- A request for a Cyrillic file name with one option and a key that has no value. -/
theorem parse_cyrillic_request :
    parse lowerAscii (requestBytes "образ.img" "octet" [("BLKSIZE", "1428")] ++ ([116] ++ [0])) =
      .ok (.rrq "образ.img" "octet" [("blksize", "1428")]) := by
  have hfields : ∀ s ∈ ["образ.img", "octet", "BLKSIZE", "1428"],
      s ≠ "" ∧ ∀ c ∈ s.toList, c.toNat ≠ 0 := by simp
  have hfield {s : String} (hs : s ∈ ["образ.img", "octet", "BLKSIZE", "1428"]) : Field s :=
    ⟨(hfields s hs).1, (hfields s hs).2⟩
  have hfile : Field "образ.img" := hfield (by simp)
  have hmode : Field "octet" := hfield (by simp)
  have hoptions : ∀ kv ∈ [("BLKSIZE", "1428")], Field kv.1 ∧ Field kv.2 := by
    intro kv hkv
    obtain rfl : kv = _ := List.mem_singleton.1 hkv
    exact ⟨hfield (by simp), hfield (by simp)⟩
  have hlowered : lowered lowerAscii [("BLKSIZE", "1428")] = [("blksize", "1428")] := by decide
  have hparse := (parse_read_request lowerAscii hfile hmode hoptions).2 [116] (by simp) (by decide)
  rw [hparse, hlowered]

end XBoot.Tftp
