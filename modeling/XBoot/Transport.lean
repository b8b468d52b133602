import XBoot.StreamReaders
import XBoot.PduEncoding
import XBoot.SessionInvariant

/-!
# The TCP adapter

The adapter decodes every complete PDU in its buffer, hands it to the connection with its
raw header, sends the responses and takes the PDU off the buffer; then it reads again. It
stops when the connection closes, at a framing error and at the end of the stream. Errors of
the socket are left out; a time-out of a read only sends the adapter to its buffer again.
-/

namespace XBoot.Iscsi

open ListSlices Storage StreamReaders

variable {σ τ : Type} {tg : Targets σ τ} {buf more : List UInt8} {req : Request} {used : ℕ}
  {e : PduError}

/-- Whether the adapter reads on after the error. -/
def PduError.isShort : PduError → Bool
  | .shortHeader => true
  | .shortData => true
  | _ => false

theorem decode_used (h : decode buf = .ok (req, used)) : BHS_LEN ≤ used ∧ used ≤ buf.length := by
  obtain ⟨hdr, hlen, -, -, -, hused, hcomplete, -⟩ := decode_eq_ok.1 h
  exact ⟨by omega, hcomplete⟩

theorem decode_append (more : List UInt8) (h : decode buf = .ok (req, used)) :
    decode (buf ++ more) = .ok (req, used) := by
  obtain ⟨hdr, hlen, hhdr, hahs, hsegment, hused, hcomplete, hreq⟩ := decode_eq_ok.1 h
  refine decode_eq_ok.2 ⟨hdr, hlen, ?_, hahs, hsegment, hused, ?_, ?_⟩
  · rw [slice_append_left (by omega), hhdr]
  · rw [List.length_append]
    exact Nat.le_add_right_of_le hcomplete
  · rw [slice_append_left (by omega), hreq]

/-- A structural error stays when bytes are appended. -/
theorem decode_error_append (more : List UInt8) (h : decode buf = .error e)
    (hshort : e.isShort = false) : decode (buf ++ more) = .error e := by
  by_cases hlong : BHS_LEN ≤ buf.length
  · have hlen : (slice buf 0 BHS_LEN).length = BHS_LEN := length_slice (by omega)
    have hlong' : BHS_LEN ≤ (buf ++ more).length := by
      rw [List.length_append]
      exact Nat.le_add_right_of_le hlong
    rw [decode_long hlen hlong rfl] at h
    rw [decode_long hlen hlong' (slice_append_left (by omega))]
    split at h
    · rename_i hahs
      rw [if_pos hahs, h]
    · rename_i hahs
      split at h
      · rename_i hsegment
        rw [if_neg hahs, if_pos hsegment, h]
      · split at h
        · cases h
          cases hshort
        · cases h
  · rw [decode, dif_pos (Nat.not_le.1 hlong)] at h
    cases h
    cases hshort

/-- Decode one PDU, with its raw header. -/
def decodeWithHeader (buf : List UInt8) : Except PduError ((Request × List UInt8) × ℕ) :=
  match decode buf with
  | .error e => .error e
  | .ok (req, used) => .ok ((req, buf.take BHS_LEN), used)

theorem decodeWithHeader_eq_ok {x : Request × List UInt8} :
    decodeWithHeader buf = .ok (x, used) ↔
      decode buf = .ok (x.1, used) ∧ x.2 = buf.take BHS_LEN := by
  rw [decodeWithHeader]
  cases decode buf with
  | error e => simp
  | ok r => grind

theorem decodeWithHeader_eq_error : decodeWithHeader buf = .error e ↔ decode buf = .error e := by
  rw [decodeWithHeader]
  cases decode buf with
  | error e => simp
  | ok r => simp

def framing : Framing UInt8 (Request × List UInt8) PduError where
  parse := decodeWithHeader
  curable := PduError.isShort
  used_pos h := Nat.lt_of_lt_of_le (by decide) (decode_used (decodeWithHeader_eq_ok.1 h).1).1
  used_le h := (decode_used (decodeWithHeader_eq_ok.1 h).1).2
  parse_append more h := by
    obtain ⟨hdecode, hheader⟩ := decodeWithHeader_eq_ok.1 h
    obtain ⟨hlong, hcomplete⟩ := decode_used hdecode
    refine decodeWithHeader_eq_ok.2 ⟨decode_append more hdecode, ?_⟩
    rw [List.take_append_of_le_length (Nat.le_trans hlong hcomplete), hheader]
  fatal_append more h hshort :=
    decodeWithHeader_eq_error.2 (decode_error_append more (decodeWithHeader_eq_error.1 h) hshort)

/-- The connection and the state it shares with others answer a PDU with bytes. -/
def handler (tg : Targets σ τ) :
    Handler (Request × List UInt8) UInt8 Failure (Connection τ × σ) where
  handle s pdu := match s.1.handle tg s.2 pdu.1 pdu.2 with
    | .error e => .error e
    | .ok (responses, s') => .ok (responses.flatMap Outbound.encode, s')
  closing s := s.1.stage = .closing

/-- Drive one connection over what arrives. -/
def handleConn (tg : Targets σ τ) (w : σ) (arrivals : List (Arrival UInt8)) :
    Progress (Request × List UInt8) UInt8 (Connection τ × σ) × Stop PduError Failure :=
  run framing (handler tg) arrivals (.start (.new, w)) []

/-- However a stream is cut into reads, the connection is fed the same PDUs, sends the same
bytes and stops at the same point; what was decoded, and structural errors, are not changed
by bytes that follow. -/
theorem framing_independent (tg : Targets σ τ) (w : σ) {as bs : List (Arrival UInt8)}
    (ha : NonEmpty as) (hb : NonEmpty bs) (hstream : streamOf as = streamOf bs) :
    handleConn tg w as = handleConn tg w bs ∧
      (∀ buf more req used, decode buf = .ok (req, used) →
        decode (buf ++ more) = .ok (req, used)) ∧
      ∀ buf more e, e = .unexpectedAhs ∨ e = .dataSegmentTooLong → decode buf = .error e →
        decode (buf ++ more) = .error e := by
  refine ⟨run_congr ha hb hstream _, fun buf more req used h => decode_append more h, ?_⟩
  rintro buf more e (rfl | rfl) h
  · exact decode_error_append more h rfl
  · exact decode_error_append more h rfl

/-- A NOP-Out in two reads and in one. -/
theorem framing_independent_nop_out :
    handleConn (World.targets id) World.empty
        [.bytes (List.replicate 20 0), .silence, .bytes (List.replicate 28 0)] =
      handleConn (World.targets id) World.empty [.bytes (List.replicate 48 0)] := by
  have hpieces : NonEmpty
      [.bytes (List.replicate 20 (0 : UInt8)), .silence, .bytes (List.replicate 28 0)] := by
    intro xs hxs
    simp only [List.mem_cons, Arrival.bytes.injEq, reduceCtorEq, List.not_mem_nil, or_false,
      false_or] at hxs
    rcases hxs with rfl | rfl <;> simp
  have hwhole : NonEmpty [.bytes (List.replicate 48 (0 : UInt8))] := by
    intro xs hxs
    rw [List.mem_singleton, Arrival.bytes.injEq] at hxs
    subst hxs
    simp
  exact (framing_independent (World.targets id) World.empty hpieces hwhole rfl).1

/-- What the adapter fed to the connection and sent is a conversation. -/
private def Converses (tg : Targets σ τ)
    (p : Progress (Request × List UInt8) UInt8 (Connection τ × σ)) : Prop :=
  ∃ ts, Conversation tg ts p.state.1 ∧ p.sent = (sent ts).flatMap Outbound.encode ∧
    p.fed = ts.map fun t => (t.req, t.bhs)

/-- The adapter takes the connection through a conversation with the PDUs it decodes, the
last one apart if its handling panics, and sends the PDUs of the conversation. -/
theorem handleConn_conversation (tg : Targets σ τ) (w : σ) (arrivals : List (Arrival UInt8)) :
    ∃ ts failed, Conversation tg ts (handleConn tg w arrivals).1.state.1 ∧
      (handleConn tg w arrivals).1.sent = (sent ts).flatMap Outbound.encode ∧
      (handleConn tg w arrivals).1.fed = (ts.map fun t => (t.req, t.bhs)) ++ failed ∧
      failed.length ≤ 1 := by
  let post := fun p : Progress (Request × List UInt8) UInt8 (Connection τ × σ) =>
    ∃ ts failed, Conversation tg ts p.state.1 ∧ p.sent = (sent ts).flatMap Outbound.encode ∧
      p.fed = (ts.map fun t => (t.req, t.bhs)) ++ failed ∧ failed.length ≤ 1
  have hpost : ∀ p, Converses tg p → post p := by
    rintro p ⟨ts, hconversation, hsent, hfed⟩
    exact ⟨ts, [], hconversation, hsent, by rw [hfed, List.append_nil], Nat.zero_le 1⟩
  refine run_invariant (Converses tg) post hpost ?_ ?_ ⟨[], .new, rfl, rfl⟩
    arrivals []
  · rintro p ⟨req, bhs⟩ used out s ⟨ts, hconversation, hsent, hfed⟩ hhandle
    rw [handler] at hhandle
    dsimp only at hhandle
    split at hhandle
    · cases hhandle
    · rename_i responses next hresponses
      have hturn : (Turn.mk p.state.1 p.state.2 req bhs responses next.1 next.2).Happens tg :=
        hresponses
      cases hhandle
      refine ⟨_, hconversation.turn hturn, ?_, ?_⟩
      · rw [sent_concat, List.flatMap_append, ← hsent]
        rfl
      · rw [List.map_append, ← hfed]
        rfl
  · rintro p x e ⟨ts, hconversation, hsent, hfed⟩ -
    exact ⟨ts, [x], hconversation, hsent, by rw [← hfed]; rfl, Nat.le_refl 1⟩

end XBoot.Iscsi
