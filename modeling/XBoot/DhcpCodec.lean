import XBoot.DhcpPacket

/-!
# The DHCP codec

The options area is a list of pads and whole options. Parsing reads such a list back, in
front of whatever follows it, and fails exactly at an option that is cut off.
-/

namespace XBoot.Dhcp

open ListSlices BigEndian PlacedFields

/-- The option has a code of its own, and its length fits its byte. -/
structure DhcpOption.Fits (o : DhcpOption) : Prop where
  not_pad : o.code ≠ PAD
  not_end : o.code ≠ END
  length_le : o.data.length ≤ 255

/-- A list of pads and whole options, and the options in it. -/
inductive Reads : List UInt8 → List DhcpOption → Prop
  | nil : Reads [] []
  | pad {bs : List UInt8} {opts : List DhcpOption} (h : Reads bs opts) : Reads (PAD :: bs) opts
  | option {o : DhcpOption} {bs : List UInt8} {opts : List DhcpOption} (hfits : o.Fits)
      (h : Reads bs opts) : Reads (o.encode ++ bs) (o :: opts)

/-- The bytes start with an option that has no length, or less data than its length. -/
inductive CutOff (code : UInt8) : List UInt8 → Prop
  | noLength (hpad : code ≠ PAD) (hend : code ≠ END) : CutOff code [code]
  | noData {len : UInt8} {data : List UInt8} (hpad : code ≠ PAD) (hend : code ≠ END)
      (hshort : data.length < len.toNat) : CutOff code (code :: len :: data)

variable {o : DhcpOption} {opts : List DhcpOption} {pre rest buf : List UInt8} {code : UInt8}

theorem parseOptions_nil : parseOptions [] = .ok [] := by rw [parseOptions]

theorem parseOptions_pad (rest : List UInt8) : parseOptions (PAD :: rest) = parseOptions rest := by
  rw [parseOptions.eq_def]
  exact if_pos rfl

theorem parseOptions_end (rest : List UInt8) : parseOptions (END :: rest) = .ok [] := by
  rw [parseOptions.eq_def]
  exact (if_neg (by decide)).trans (if_pos rfl)

theorem parseOptions_option (hfits : o.Fits) (rest : List UInt8) :
    parseOptions (o.encode ++ rest) = (parseOptions rest).map (o :: ·) := by
  have hlen : (UInt8.ofNat o.data.length).toNat = o.data.length :=
    UInt8.toNat_ofNat_of_lt' (Nat.lt_succ_of_le hfits.length_le)
  have hwhole : ¬ (o.data ++ rest).length < o.data.length := by
    rw [List.length_append]
    omega
  rw [DhcpOption.encode, List.cons_append, List.cons_append, parseOptions, if_neg hfits.not_pad,
    if_neg hfits.not_end, hlen, if_neg hwhole, List.drop_left, List.take_left]
  cases parseOptions rest <;> rfl

theorem parseOptions_cutOff (h : CutOff code rest) :
    parseOptions rest = .error (.truncatedOption code) := by
  cases h with
  | noLength hpad hend => rw [parseOptions, if_neg hpad, if_neg hend]
  | noData hpad hend hshort =>
    rw [parseOptions, if_neg hpad, if_neg hend]
    exact if_pos hshort

theorem Reads.parseOptions_append (h : Reads pre opts) (rest : List UInt8) :
    parseOptions (pre ++ rest) = (parseOptions rest).map (opts ++ ·) := by
  induction h with
  | nil =>
    rw [List.nil_append]
    cases parseOptions rest <;> rfl
  | pad _ ih => rw [List.cons_append, parseOptions_pad, ih]
  | option hfits _ ih =>
    rw [List.append_assoc, parseOptions_option hfits, ih]
    cases parseOptions rest <;> rfl

theorem Reads.fits (h : Reads pre opts) : ∀ o ∈ opts, o.Fits := by
  induction h with
  | nil => exact fun _ hmem => absurd hmem List.not_mem_nil
  | pad _ ih => exact ih
  | option hfits _ ih =>
    intro o ho
    rcases List.mem_cons.1 ho with rfl | ho
    · exact hfits
    · exact ih o ho

theorem reads_encode (h : ∀ o ∈ opts, o.Fits) : Reads (opts.flatMap DhcpOption.encode) opts := by
  induction opts with
  | nil => exact .nil
  | cons o opts ih =>
    rw [List.flatMap_cons]
    exact .option (h o List.mem_cons_self) (ih fun o' ho' => h o' (List.mem_cons_of_mem o ho'))

theorem split_option {len : UInt8} (hpad : code ≠ PAD) (hend : code ≠ END)
    (hwhole : ¬ rest.length < len.toNat) :
    DhcpOption.Fits ⟨code, rest.take len.toNat⟩ ∧
      code :: len :: rest =
        DhcpOption.encode ⟨code, rest.take len.toNat⟩ ++ rest.drop len.toNat := by
  have hlen : (rest.take len.toNat).length = len.toNat :=
    List.length_take_of_le (Nat.not_lt.1 hwhole)
  constructor
  · refine ⟨hpad, hend, ?_⟩
    rw [hlen]
    exact Nat.le_of_lt_succ len.toNat_lt
  · rw [DhcpOption.encode, hlen, UInt8.ofNat_toNat, List.cons_append, List.cons_append,
      List.take_append_drop]

/-- What may stand behind the options. -/
inductive Stops : List UInt8 → Prop
  | nil : Stops []
  | atEnd (rest : List UInt8) : Stops (END :: rest)
  | cutOff {code : UInt8} {rest : List UInt8} (h : CutOff code rest) : Stops rest

/-- Every buffer is a list of pads and whole options up to its end, END or an option that is
cut off. -/
theorem reads_stops (buf : List UInt8) :
    ∃ pre opts rest, buf = pre ++ rest ∧ Reads pre opts ∧ Stops rest := by
  fun_induction parseOptions buf with
  | case1 => exact ⟨[], [], [], rfl, .nil, .nil⟩
  | case2 rest ih =>
    obtain ⟨pre, opts, stop, rfl, hreads, hstops⟩ := ih
    exact ⟨PAD :: pre, opts, stop, rfl, hreads.pad, hstops⟩
  | case3 rest => exact ⟨[], [], END :: rest, rfl, .nil, .atEnd rest⟩
  | case4 code hpad hend => exact ⟨[], [], [code], rfl, .nil, .cutOff (.noLength hpad hend)⟩
  | case5 code hpad hend len rest hshort =>
    exact ⟨[], [], code :: len :: rest, rfl, .nil, .cutOff (.noData hpad hend hshort)⟩
  | case6 code hpad hend len rest hwhole _ _ ih =>
    obtain ⟨hfits, hsplit⟩ := split_option hpad hend hwhole
    obtain ⟨pre, opts, stop, hrest, hreads, hstops⟩ := ih
    exact ⟨_, _, stop, by rw [hsplit, hrest, List.append_assoc], .option hfits hreads, hstops⟩
  | case7 code hpad hend len rest hwhole _ _ ih =>
    obtain ⟨hfits, hsplit⟩ := split_option hpad hend hwhole
    obtain ⟨pre, opts, stop, hrest, hreads, hstops⟩ := ih
    exact ⟨_, _, stop, by rw [hsplit, hrest, List.append_assoc], .option hfits hreads, hstops⟩

theorem parseOptions_fits (h : parseOptions buf = .ok opts) : ∀ o ∈ opts, o.Fits := by
  obtain ⟨pre, opts', rest, rfl, hreads, hstops⟩ := reads_stops buf
  rw [hreads.parseOptions_append] at h
  cases hstops with
  | nil =>
    rw [parseOptions_nil, Except.map, List.append_nil] at h
    cases h
    exact hreads.fits
  | atEnd rest =>
    rw [parseOptions_end, Except.map, List.append_nil] at h
    cases h
    exact hreads.fits
  | cutOff hcut =>
    rw [parseOptions_cutOff hcut] at h
    cases h

/-- The options area has an option that is cut off, with pads and whole options before it. -/
def Truncated (area : List UInt8) : Prop :=
  ∃ pre opts code rest, area = pre ++ rest ∧ Reads pre opts ∧ CutOff code rest

/-- Parsing the options fails exactly at an option that is cut off. -/
theorem parseOptions_fails_iff : (∃ e, parseOptions buf = .error e) ↔ Truncated buf := by
  constructor
  · rintro ⟨e, h⟩
    obtain ⟨pre, opts', rest, rfl, hreads, hstops⟩ := reads_stops buf
    rw [hreads.parseOptions_append] at h
    cases hstops with
    | nil =>
      rw [parseOptions_nil] at h
      cases h
    | atEnd rest =>
      rw [parseOptions_end] at h
      cases h
    | cutOff hcut => exact ⟨pre, opts', _, rest, rfl, hreads, hcut⟩
  · rintro ⟨pre, opts, code, rest, rfl, hreads, hcut⟩
    exact ⟨.truncatedOption code, by rw [hreads.parseOptions_append, parseOptions_cutOff hcut]; rfl⟩

namespace DhcpMessage

variable (msg : DhcpMessage)

theorem layout_fields : Layout MIN_LEN (places msg.fields) := by
  have hchaddr := msg.chaddr.2
  constructor <;>
    simp [places, fields, octets, hchaddr, Avoids, MIN_LEN, COOKIE_OFFSET, MAGIC_COOKIE]

theorem length_header : msg.header.length = MIN_LEN := by
  have hzeros : (List.replicate MIN_LEN (0 : UInt8)).length = MIN_LEN := List.length_replicate
  rw [header, length_place (by rw [hzeros]; exact msg.layout_fields.inside), hzeros]

theorem length_encode : MIN_LEN ≤ msg.encode.length := by
  rw [encode, List.append_assoc, List.length_append, length_header]
  exact Nat.le_add_right _ _

theorem drop_encode : msg.encode.drop MIN_LEN = msg.options.flatMap DhcpOption.encode ++ [END] := by
  rw [encode, List.append_assoc, List.drop_left' msg.length_header]

/-- Every field of the header is read back from the wire. -/
theorem slice_field {field : ℕ × List UInt8} (h : field ∈ msg.fields) :
    slice msg.encode field.1 field.2.length = field.2 := by
  have hzeros : (List.replicate MIN_LEN (0 : UInt8)).length = MIN_LEN := List.length_replicate
  have hin : field.1 + field.2.length ≤ msg.header.length := by
    rw [length_header]
    exact msg.layout_fields.inside _ (List.mem_map.2 ⟨field, h, rfl⟩)
  rw [encode, List.append_assoc, slice_append_left hin, header,
    slice_place_of_mem (by rw [hzeros]; exact msg.layout_fields) h]

theorem byteAt_of_slice {buf : List UInt8} {off : ℕ} {b : UInt8} (h : slice buf off 1 = [b]) :
    byteAt buf off = b := by
  have hget := congrArg (·[0]?) h
  rw [getElem?_slice, if_pos Nat.zero_lt_one] at hget
  rw [byteAt, List.getD_eq_getElem?_getD]
  simpa using congrArg (·.getD 0) hget

theorem ipv4_octets (ip : BitVec 32) : ipv4 (octets ip) = ip := by
  rw [ipv4, octets, ofBe_toBe_of_lt ip.isLt, BitVec.ofNat_toNat, BitVec.setWidth_eq]

theorem read32 (n : UInt32) : UInt32.ofNat (ofBe (toBe 4 n.toNat)) = n := by
  have hlt : n.toNat < 256 ^ 4 := n.toNat_lt
  rw [ofBe_toBe_of_lt hlt, UInt32.ofNat_toNat]

theorem read16 (n : UInt16) : UInt16.ofNat (ofBe (toBe 2 n.toNat)) = n := by
  have hlt : n.toNat < 256 ^ 2 := n.toNat_lt
  rw [ofBe_toBe_of_lt hlt, UInt16.ofNat_toNat]

/-- Parsing an encoded message reads its header back, and parses its options area. -/
theorem parse_encode_eq (msg : DhcpMessage) : parse msg.encode =
    (parseOptions (msg.options.flatMap DhcpOption.encode ++ [END])).map fun options =>
      { msg with options := options } := by
  have hbyte : ∀ off b, (off, [b]) ∈ msg.fields → byteAt msg.encode off = b :=
    fun off b hmem => byteAt_of_slice (msg.slice_field hmem)
  have hslice : ∀ off n v, (off, toBe n v) ∈ msg.fields → slice msg.encode off n = toBe n v := by
    intro off n v hmem
    have hread := msg.slice_field hmem
    rwa [length_toBe] at hread
  have hip : ∀ off ip, (off, octets ip) ∈ msg.fields → ipv4 (slice msg.encode off 4) = ip := by
    intro off ip hmem
    rw [hslice off 4 ip.toNat hmem]
    exact ipv4_octets ip
  have hchaddr := msg.slice_field (show (28, msg.chaddr.1) ∈ msg.fields by simp [fields])
  have hcookie := msg.slice_field (show (COOKIE_OFFSET, MAGIC_COOKIE) ∈ msg.fields by simp [fields])
  dsimp only at hchaddr hcookie
  rw [msg.chaddr.2] at hchaddr
  have hlong : ¬ msg.encode.length < MIN_LEN := Nat.not_lt.2 msg.length_encode
  have hgood : ¬ slice msg.encode COOKIE_OFFSET 4 ≠ MAGIC_COOKIE := fun hbad => hbad hcookie
  rw [parse, dif_neg hlong, if_neg hgood, drop_encode]
  cases parseOptions (msg.options.flatMap DhcpOption.encode ++ [END]) with
  | error e => rfl
  | ok options =>
    simp only [hbyte 0 msg.op (by simp [fields]), hbyte 1 msg.htype (by simp [fields]),
      hbyte 2 msg.hlen (by simp [fields]), hbyte 3 msg.hops (by simp [fields]),
      hslice 4 4 msg.xid.toNat (by simp [fields]), hslice 8 2 msg.secs.toNat (by simp [fields]),
      hslice 10 2 msg.flags.toNat (by simp [fields]),
      hip 12 msg.ciaddr (by simp [fields]), hip 16 msg.yiaddr (by simp [fields]),
      hip 20 msg.siaddr (by simp [fields]), hip 24 msg.giaddr (by simp [fields]), hchaddr, read32,
      read16]
    rfl

end DhcpMessage

/-- An encoded message is read back when all its options fit. -/
theorem parse_encode {msg : DhcpMessage} (h : ∀ o ∈ msg.options, o.Fits) :
    parse msg.encode = .ok msg := by
  rw [msg.parse_encode_eq, (reads_encode h).parseOptions_append, parseOptions_end]
  simp only [Except.map, List.append_nil]

theorem parse_eq_ok {buf : List UInt8} {msg : DhcpMessage} (h : parse buf = .ok msg) :
    parseOptions (buf.drop MIN_LEN) = .ok msg.options := by
  rw [parse] at h
  split at h
  · cases h
  · split at h
    · cases h
    · split at h
      · cases h
      · cases h
        assumption

theorem parse_fits {buf : List UInt8} {msg : DhcpMessage} (h : parse buf = .ok msg) :
    ∀ o ∈ msg.options, o.Fits := parseOptions_fits (parse_eq_ok h)

theorem parse_fails_iff {buf : List UInt8} : (∃ e, parse buf = .error e) ↔
    buf.length < MIN_LEN ∨ slice buf COOKIE_OFFSET 4 ≠ MAGIC_COOKIE ∨
      Truncated (buf.drop MIN_LEN) := by
  rw [parse]
  by_cases hshort : buf.length < MIN_LEN
  · simp [hshort]
  · by_cases hcookie : slice buf COOKIE_OFFSET 4 ≠ MAGIC_COOKIE
    · simp [hshort, hcookie]
    · rw [dif_neg hshort, if_neg hcookie, ← parseOptions_fails_iff]
      cases hoptions : parseOptions (buf.drop MIN_LEN) with
      | error e => simp
      | ok options => simp [hshort, Decidable.not_not.1 hcookie]

/-- The codec is lossless, on messages whose options fit and on parsed datagrams, and a
datagram is refused exactly when it is short, has another cookie, or an option is cut off. -/
theorem codec_lossless :
    (∀ msg : DhcpMessage, (∀ o ∈ msg.options, o.Fits) → parse msg.encode = .ok msg) ∧
      (∀ buf msg, parse buf = .ok msg → parse msg.encode = .ok msg) ∧
      ∀ buf, (∃ e, parse buf = .error e) ↔ buf.length < MIN_LEN ∨
        slice buf COOKIE_OFFSET 4 ≠ MAGIC_COOKIE ∨ Truncated (buf.drop MIN_LEN) :=
  ⟨fun _ => parse_encode, fun _ _ h => parse_encode (parse_fits h), fun _ => parse_fails_iff⟩

end XBoot.Dhcp
