import XBoot.StreamReaders
import XBoot.PduEncoding

/-!
# Reading the target's PDUs back

An initiator cuts the stream it receives at the lengths that the headers announce. It stays
in step as long as every data segment is shorter than `2 ^ 24` bytes.
-/

namespace XBoot.Iscsi

open ListSlices BigEndian StreamReaders

/-- The length that a header announces for its PDU. -/
def announced (hdr : List UInt8) : ℕ := BHS_LEN + be24 hdr 5 + pad4 (be24 hdr 5)

/-- Cut one PDU off the front of the buffer by the length in its header. -/
def cutPdu (buf : List UInt8) : Except PduError (List UInt8 × ℕ) :=
  if buf.length < BHS_LEN then .error .shortHeader
  else if buf.length < announced buf then .error .shortData
  else .ok (buf.take (announced buf), announced buf)

theorem announced_append {buf : List UInt8} (more : List UInt8) (h : BHS_LEN ≤ buf.length) :
    announced (buf ++ more) = announced buf := by
  have hbound : 5 + 3 ≤ buf.length := Nat.le_trans (by decide) h
  rw [announced, announced, be24, be24, slice_append_left hbound]

theorem cutPdu_eq_ok {buf pdu : List UInt8} {used : ℕ} :
    cutPdu buf = .ok (pdu, used) ↔
      BHS_LEN ≤ buf.length ∧ used = announced buf ∧ used ≤ buf.length ∧ pdu = buf.take used := by
  rw [cutPdu]
  constructor
  · intro h
    split at h
    · cases h
    · split at h
      · cases h
      · rename_i hlong hcomplete
        cases h
        exact ⟨Nat.not_lt.1 hlong, rfl, Nat.not_lt.1 hcomplete, rfl⟩
  · rintro ⟨hlong, rfl, hcomplete, rfl⟩
    rw [if_neg (Nat.not_lt.2 hlong), if_neg (Nat.not_lt.2 hcomplete)]

def pduFraming : Framing UInt8 (List UInt8) PduError where
  parse := cutPdu
  curable _ := true
  used_pos h := by
    obtain ⟨-, rfl, -, -⟩ := cutPdu_eq_ok.1 h
    have hheader : 0 < BHS_LEN := by decide
    rw [announced]
    omega
  used_le h := (cutPdu_eq_ok.1 h).2.2.1
  parse_append more h := by
    obtain ⟨hlong, rfl, hcomplete, rfl⟩ := cutPdu_eq_ok.1 h
    refine cutPdu_eq_ok.2 ⟨?_, (announced_append more hlong).symm, ?_, ?_⟩
    · rw [List.length_append]
      exact Nat.le_add_right_of_le hlong
    · rw [List.length_append]
      exact Nat.le_add_right_of_le hcomplete
    · rw [List.take_append_of_le_length hcomplete]
  fatal_append _ _ hfatal := by cases hfatal

/-- A reader that only takes the PDUs in. -/
def pduReader : Handler (List UInt8) UInt8 Empty Unit where
  handle s _ := .ok ([], s)
  closing _ := false

/-- The lengths in the headers are those of the segments and of the PDUs, and a reader gets
the PDUs back from their bytes, however these arrive. -/
structure InStep (pdus : List Outbound) : Prop where
  field : ∀ pdu ∈ pdus, be24 pdu.encode 5 = pdu.segment.length
  total : ∀ pdu ∈ pdus, pdu.encode.length =
    BHS_LEN + pdu.segment.length + pad4 pdu.segment.length
  read : ∀ arrivals, NonEmpty arrivals → streamOf arrivals = pdus.flatMap Outbound.encode →
    (run pduFraming pduReader arrivals (.start ()) []).1.fed = pdus.map Outbound.encode ∧
      (run pduFraming pduReader arrivals (.start ()) []).1.consumed = (streamOf arrivals).length

theorem be24_encode {o : Outbound} (h : o.segment.length < 2 ^ 24) :
    be24 o.encode 5 = o.segment.length := by
  rw [be24, o.slice_length]
  exact ofBe_toBe_of_lt h

private theorem cutPdu_encode {o : Outbound} (h : o.segment.length < 2 ^ 24) :
    cutPdu o.encode = .ok (o.encode, o.encode.length) := by
  have hlength := o.length_encode
  refine cutPdu_eq_ok.2 ⟨by omega, ?_, Nat.le_refl _, List.take_length.symm⟩
  rw [announced, be24_encode h, hlength]

private theorem drain_encoded {pdus : List Outbound} (h : ∀ pdu ∈ pdus, pdu.segment.length < 2 ^ 24)
    (p : Progress (List UInt8) UInt8 Unit) :
    (drain pduFraming pduReader p (pdus.flatMap Outbound.encode)).1.fed =
        p.fed ++ pdus.map Outbound.encode ∧
      (drain pduFraming pduReader p (pdus.flatMap Outbound.encode)).1.consumed =
        p.consumed + (pdus.flatMap Outbound.encode).length := by
  induction pdus generalizing p with
  | nil =>
    have hempty : pduFraming.parse [] = .error .shortHeader := rfl
    rw [List.flatMap_nil, drain_error hempty, List.map_nil, List.append_nil]
    exact ⟨rfl, rfl⟩
  | cons o rest ih =>
    have hfirst : pduFraming.parse (o.encode ++ rest.flatMap Outbound.encode) =
        .ok (o.encode, o.encode.length) :=
      pduFraming.parse_append _ (cutPdu_encode (h o List.mem_cons_self))
    obtain ⟨hfed, hconsumed⟩ := ih (fun pdu hmem => h pdu (List.mem_cons_of_mem _ hmem))
      ((p.feed o.encode).finish [] o.encode.length ())
    rw [List.flatMap_cons, drain_ok hfirst, List.drop_left, List.map_cons, List.length_append]
    constructor
    · refine Eq.trans hfed ?_
      rw [List.append_cons]
      rfl
    · refine Eq.trans hconsumed ?_
      rw [← Nat.add_assoc]
      rfl

/-- PDUs with short segments keep their reader in step. -/
theorem inStep_of_short {pdus : List Outbound} (h : ∀ pdu ∈ pdus, pdu.segment.length < 2 ^ 24) :
    InStep pdus := by
  refine ⟨fun pdu hmem => be24_encode (h pdu hmem), fun pdu _ => pdu.length_encode, ?_⟩
  intro arrivals hne hstream
  rw [run_eq_drain arrivals hne, List.nil_append, hstream]
  obtain ⟨hfed, hconsumed⟩ := drain_encoded h (.start ())
  refine ⟨hfed, Eq.trans hconsumed ?_⟩
  exact Nat.zero_add _

end XBoot.Iscsi
