import XBoot.PduEncoding

/-!
# Text segments

Pairs of a text segment are read back as they were encoded, and what is read of any bytes
is a list of such pairs.
-/

namespace XBoot.Iscsi

open Utf8

/-- A pair that a text segment can hold. -/
structure TextPair (kv : String × String) : Prop where
  key_ne : kv.1 ≠ ""
  key_nulFree : NulFree kv.1
  key_no_equals : ∀ c ∈ kv.1.toList, c.toNat ≠ 61
  value_nulFree : NulFree kv.2

/-- The pair of one chunk; malformed chunks have none. -/
def pairOf (chunk : List UInt8) : Option (String × String) :=
  match chunk.findIdx? (· = 61) with
  | none => none
  | some eq =>
    if eq = 0 then none
    else some (fromUtf8Lossy (chunk.take eq), fromUtf8Lossy (chunk.drop (eq + 1)))

theorem parsePairs_eq (data : List UInt8) : parsePairs data = (data.splitOn 0).filterMap pairOf := rfl

private theorem not_mem_of_mem_splitOn {α : Type} [BEq α] [LawfulBEq α] {sep : α} {xs chunk : List α}
    (h : chunk ∈ xs.splitOn sep) : sep ∉ chunk := by
  induction xs generalizing chunk with
  | nil =>
    rw [List.splitOn_nil, List.mem_singleton] at h
    simp [h]
  | cons x xs ih =>
    rw [List.splitOn_cons_eq_if_modifyHead] at h
    split at h
    · rcases List.mem_cons.1 h with rfl | h
      · simp
      · exact ih h
    · rename_i hx
      obtain ⟨first, rest, hsplit⟩ := List.exists_cons_of_ne_nil (List.splitOn_ne_nil sep xs)
      rw [hsplit, List.modifyHead_cons] at h
      rcases List.mem_cons.1 h with rfl | h
      · intro hmem
        rcases List.mem_cons.1 hmem with rfl | hmem
        · exact hx (beq_self_eq_true _)
        · exact ih (hsplit ▸ List.mem_cons_self) hmem
      · exact ih (hsplit ▸ List.mem_cons_of_mem _ h)

/-- A pair is what its own chunk is read as. -/
theorem pairOf_encode {kv : String × String} (h : TextPair kv) :
    pairOf (encode kv.1 ++ 61 :: encode kv.2) = some kv := by
  have hequals : (encode kv.1).findIdx? (· = 61) = none := by
    rw [List.findIdx?_eq_none_iff]
    intro b hb
    apply decide_eq_false
    rintro rfl
    obtain ⟨c, hc, heq⟩ := (mem_encode (by decide)).1 hb
    exact h.key_no_equals c hc heq
  have hindex : (encode kv.1 ++ 61 :: encode kv.2).findIdx? (· = 61) = some (encode kv.1).length := by
    rw [List.findIdx?_append, hequals, Option.none_or, List.findIdx?_cons]
    simp
  have hkey : (encode kv.1).length ≠ 0 := fun hzero =>
    encode_ne_nil h.key_ne (List.length_eq_zero_iff.1 hzero)
  have hdrop : (encode kv.1 ++ 61 :: encode kv.2).drop ((encode kv.1).length + 1) = encode kv.2 := by
    rw [← List.drop_drop, List.drop_left]
    rfl
  rw [pairOf, hindex]
  simp only [if_neg hkey]
  rw [List.take_left, hdrop, fromUtf8Lossy_encode, fromUtf8Lossy_encode]

/-- What a chunk is read as can be held by a text segment. -/
theorem textPair_of_pairOf {chunk : List UInt8} {kv : String × String} (hzero : 0 ∉ chunk)
    (h : pairOf chunk = some kv) : TextPair kv := by
  rw [pairOf] at h
  cases hindex : chunk.findIdx? (· = 61) with
  | none =>
    rw [hindex] at h
    cases h
  | some eq =>
    obtain ⟨hlt, -, hbefore⟩ := List.findIdx?_eq_some_iff_getElem.1 hindex
    rw [hindex] at h
    simp only at h
    split at h
    · cases h
    · rename_i hpos
      cases h
      have htake : chunk.take eq ≠ [] := by
        intro hnil
        have hlen := congrArg List.length hnil
        rw [List.length_take, List.length_nil] at hlen
        omega
      refine ⟨fromUtf8Lossy_ne_empty htake,
        nulFree_fromUtf8Lossy fun hmem => hzero (List.mem_of_mem_take hmem), ?_,
        nulFree_fromUtf8Lossy fun hmem => hzero (List.mem_of_mem_drop hmem)⟩
      intro c hc heq
      obtain ⟨b, hb, hbyte⟩ := mem_fromUtf8Lossy hc (by rw [heq]; decide)
      rw [heq] at hbyte
      obtain ⟨i, hi, hget⟩ := List.mem_take_iff_getElem.1 hb
      have hfirst := hbefore i (by omega)
      rw [hget] at hfirst
      exact hfirst (decide_eq_true (UInt8.toNat_inj.1 hbyte : b = 61))

/-- Pairs of a text segment are read back. -/
theorem parsePairs_encodePairs {pairs : List (String × String)} (h : ∀ kv ∈ pairs, TextPair kv) :
    parsePairs (encodePairs pairs) = pairs := by
  induction pairs with
  | nil => rfl
  | cons kv pairs ih =>
    have hkv := h kv List.mem_cons_self
    have hbytes : encodePairs (kv :: pairs) =
        (encode kv.1 ++ 61 :: encode kv.2) ++ 0 :: encodePairs pairs := by
      simp only [encodePairs, List.flatMap_cons, List.append_assoc, List.nil_append,
        List.cons_append]
    have hchunk : 0 ∉ encode kv.1 ++ 61 :: encode kv.2 := by
      rw [List.mem_append, List.mem_cons]
      rintro (hkey | hequals | hvalue)
      · exact hkv.key_nulFree.zero_not_mem hkey
      · exact absurd hequals (by decide)
      · exact hkv.value_nulFree.zero_not_mem hvalue
    rw [parsePairs_eq, hbytes, List.splitOn_append_cons_self_of_not_mem hchunk,
      List.filterMap_cons_some (pairOf_encode hkv), ← parsePairs_eq,
      ih fun kv' hkv' => h kv' (List.mem_cons_of_mem _ hkv')]

theorem textPair_of_parsePairs {data : List UInt8} {kv : String × String} (h : kv ∈ parsePairs data) :
    TextPair kv := by
  rw [parsePairs_eq] at h
  obtain ⟨chunk, hchunk, hpair⟩ := List.mem_filterMap.1 h
  exact textPair_of_pairOf (not_mem_of_mem_splitOn hchunk) hpair

/-- Encoded pairs are read back, and so is whatever was read of any bytes. -/
theorem pairs_round_trip :
    (∀ pairs : List (String × String), (∀ kv ∈ pairs, TextPair kv) →
      parsePairs (encodePairs pairs) = pairs) ∧
    ∀ data, parsePairs (encodePairs (parsePairs data)) = parsePairs data :=
  ⟨fun _ => parsePairs_encodePairs, fun _ => parsePairs_encodePairs fun _ => textPair_of_parsePairs⟩

/-- A value with an equals sign and characters beyond ASCII. -/
theorem pairs_round_trip_unicode :
    parsePairs (encodePairs [("HeaderDigest", "None"), ("é", "a=€")]) =
      [("HeaderDigest", "None"), ("é", "a=€")] := by
  apply pairs_round_trip.1
  intro kv hkv
  have hall : ∀ kv ∈ [("HeaderDigest", "None"), ("é", "a=€")], kv.1 ≠ "" ∧
      (∀ c ∈ kv.1.toList, c.toNat ≠ 0) ∧ (∀ c ∈ kv.1.toList, c.toNat ≠ 61) ∧
      ∀ c ∈ kv.2.toList, c.toNat ≠ 0 := by simp
  obtain ⟨hne, hnul, hequals, hvalue⟩ := hall kv hkv
  exact ⟨hne, hnul, hequals, hvalue⟩

end XBoot.Iscsi
