import XBoot.BackingStore
import XBoot.BigEndian

/-!
# The two headers of a VHDX

A VHDX has two copies of its header. The newer one says whether a log must be replayed
before the image may be read; replay is not supported, so such an image is refused.
-/

namespace XBoot.VhdxFile

open ListSlices BigEndian Storage

def ofLe (bs : List UInt8) : ℕ := ofBe bs.reverse

def crcBit (crc : UInt32) : UInt32 := (crc >>> 1) ^^^ (0x82F63B78 &&& (0 - (crc &&& 1)))

def crcByte (crc : UInt32) (byte : UInt8) : UInt32 := Nat.repeat crcBit 8 (crc ^^^ byte.toUInt32)

/-- CRC-32C (Castagnoli). -/
def crc32c (data : List UInt8) : UInt32 := ~~~ data.foldl crcByte 0xFFFFFFFF

example : crc32c (ascii "123456789") = 0xE3069283 := by decide +kernel

structure VhdxHeader where
  sequence : ℕ
  deriving DecidableEq, Repr

/-- One header; `tmp` of the source is the header with its own CRC field set to zero. -/
def parseOneHeader (h : List UInt8) : Outcome VhdxHeader :=
  if h.length < 4096 ∨ slice h 0 4 ≠ ascii "head" then
    .error (invalidData "VHDX header signature mismatch")
  else if (crc32c (overwrite (h.take 4096) 4 [0, 0, 0, 0])).toNat ≠ ofLe (slice h 4 4) then
    .error (invalidData "VHDX header CRC mismatch")
  else if ofLe (slice h 66 2) ≠ 1 then .error (invalidData "unsupported VHDX header version")
  else if (slice h 48 16).any (· ≠ 0) then
    .error (invalidData "VHDX has a non-empty log (dirty image)")
  else .ok { sequence := ofLe (slice h 8 8) }

/-- Choose the valid header with the greatest sequence number. -/
def parseBestHeader (h1 h2 : List UInt8) : Outcome VhdxHeader :=
  match (parseOneHeader h1).toOption, (parseOneHeader h2).toOption with
  | some a, some b => .ok (if b.sequence ≤ a.sequence then a else b)
  | some a, none => .ok a
  | none, some b => .ok b
  | none, none => .error (invalidData "no valid VHDX header")

/-- The copy has the signature, its CRC and the version. -/
structure ValidCopy (h : List UInt8) : Prop where
  length_le : 4096 ≤ h.length
  signature : slice h 0 4 = ascii "head"
  crc : (crc32c (overwrite (h.take 4096) 4 [0, 0, 0, 0])).toNat = ofLe (slice h 4 4)
  version : ofLe (slice h 66 2) = 1

/-- The log GUID is all-zero. -/
def CleanLog (h : List UInt8) : Prop := ∀ b ∈ slice h 48 16, b = 0

def sequenceOf (h : List UInt8) : ℕ := ofLe (slice h 8 8)

/-- The copy is valid, and no valid copy is newer. -/
structure Current (h1 h2 h : List UInt8) : Prop where
  mem : h = h1 ∨ h = h2
  valid : ValidCopy h
  newest : ∀ h', h' = h1 ∨ h' = h2 → ValidCopy h' → sequenceOf h' ≤ sequenceOf h

/-- The header check lets an image pass only if its current header is clean. -/
def PassesOnlyClean (h1 h2 : List UInt8) : Prop :=
  (∃ header, parseBestHeader h1 h2 = .ok header) → ∀ h, Current h1 h2 h → CleanLog h

/-- A valid clean copy stands beside a valid dirty one that is not older. -/
structure Outdated (clean dirty : List UInt8) : Prop where
  clean_valid : ValidCopy clean
  clean_log : CleanLog clean
  dirty_valid : ValidCopy dirty
  dirty_log : ¬ CleanLog dirty
  not_older : sequenceOf clean ≤ sequenceOf dirty

variable {h h1 h2 : List UInt8} {header : VhdxHeader}

/-- A header is parsed when it is valid and clean. -/
theorem parseOneHeader_ok :
    parseOneHeader h = .ok header ↔ ValidCopy h ∧ CleanLog h ∧ header.sequence = sequenceOf h := by
  have hclean : (slice h 48 16).any (· ≠ 0) = true ↔ ¬ CleanLog h := by
    simp [CleanLog]
  rw [parseOneHeader]
  constructor
  · intro hok
    split at hok
    · cases hok
    · rename_i hsignature
      rw [not_or, not_not, Nat.not_lt] at hsignature
      split at hok
      · cases hok
      · rename_i hcrc
        split at hok
        · cases hok
        · rename_i hversion
          split at hok
          · cases hok
          · rename_i hlog
            cases hok
            rw [hclean, not_not] at hlog
            exact ⟨⟨hsignature.1, hsignature.2, not_not.1 hcrc, not_not.1 hversion⟩, hlog, rfl⟩
  · rintro ⟨hvalid, hlog, hsequence⟩
    have hsignature : ¬ (h.length < 4096 ∨ slice h 0 4 ≠ ascii "head") := by
      rw [not_or, Nat.not_lt, not_not]
      exact ⟨hvalid.length_le, hvalid.signature⟩
    rw [if_neg hsignature, if_neg (not_not.2 hvalid.crc), if_neg (not_not.2 hvalid.version),
      if_neg (by rw [hclean, not_not]; exact hlog)]
    cases header
    rw [sequenceOf] at hsequence
    rw [← hsequence]

private theorem toOption_isSome : ((parseOneHeader h).toOption).isSome ↔ ValidCopy h ∧ CleanLog h := by
  cases hparse : parseOneHeader h with
  | error e =>
    refine ⟨nofun, fun ⟨hvalid, hlog⟩ => ?_⟩
    have hok : parseOneHeader h = .ok ⟨sequenceOf h⟩ := parseOneHeader_ok.2 ⟨hvalid, hlog, rfl⟩
    rw [hparse] at hok
    cases hok
  | ok header =>
    obtain ⟨hvalid, hlog, -⟩ := parseOneHeader_ok.1 hparse
    exact ⟨fun _ => ⟨hvalid, hlog⟩, fun _ => rfl⟩

/-- The check passes when one of the copies is valid and clean. -/
theorem parseBestHeader_passes : (∃ header, parseBestHeader h1 h2 = .ok header) ↔
    (ValidCopy h1 ∧ CleanLog h1) ∨ (ValidCopy h2 ∧ CleanLog h2) := by
  rw [← toOption_isSome, ← toOption_isSome, parseBestHeader]
  cases (parseOneHeader h1).toOption <;> cases (parseOneHeader h2).toOption <;> simp

/-- The check lets only clean images pass exactly when no clean copy hides a dirty one that
is as new. -/
theorem passes_only_clean_iff (h1 h2 : List UInt8) :
    PassesOnlyClean h1 h2 ↔ ¬ Outdated h1 h2 ∧ ¬ Outdated h2 h1 := by
  rw [PassesOnlyClean, parseBestHeader_passes]
  constructor
  · intro hclean
    refine ⟨fun hout => ?_, fun hout => ?_⟩
    · refine hout.dirty_log (hclean (.inl ⟨hout.clean_valid, hout.clean_log⟩) h2 ?_)
      refine ⟨.inr rfl, hout.dirty_valid, fun h' hmem _ => ?_⟩
      rcases hmem with rfl | rfl
      · exact hout.not_older
      · exact Nat.le_refl _
    · refine hout.dirty_log (hclean (.inr ⟨hout.clean_valid, hout.clean_log⟩) h1 ?_)
      refine ⟨.inl rfl, hout.dirty_valid, fun h' hmem _ => ?_⟩
      rcases hmem with rfl | rfl
      · exact Nat.le_refl _
      · exact hout.not_older
  · rintro ⟨hfirst, hsecond⟩ hpasses h hcurrent
    by_contra hdirty
    rcases hpasses with ⟨hvalid, hlog⟩ | ⟨hvalid, hlog⟩
    · rcases hcurrent.mem with rfl | rfl
      · exact hdirty hlog
      · exact hfirst ⟨hvalid, hlog, hcurrent.valid, hdirty, hcurrent.newest _ (.inl rfl) hvalid⟩
    · rcases hcurrent.mem with rfl | rfl
      · exact hsecond ⟨hvalid, hlog, hcurrent.valid, hdirty, hcurrent.newest _ (.inr rfl) hvalid⟩
      · exact hdirty hlog

/-- A record with its CRC in bytes 4 to 8, computed while they are zero. -/
def sealed (body : List UInt8) : List UInt8 := overwrite body 4 (toLe 4 (crc32c body).toNat)

section Sealed

variable {body : List UInt8} (hbody : 8 ≤ body.length)
include hbody

private theorem crc_inside : 4 + (toLe 4 (crc32c body).toNat).length ≤ body.length := by
  rw [length_toLe]
  exact hbody

theorem length_sealed : (sealed body).length = body.length := length_overwrite (crc_inside hbody)

theorem slice_sealed {o n : ℕ} (h : o + n ≤ 4 ∨ 8 ≤ o) : slice (sealed body) o n = slice body o n := by
  apply slice_overwrite_of_disjoint (crc_inside hbody)
  rwa [length_toLe]

/-- Without its CRC, a record is its body again. -/
theorem overwrite_sealed (hzero : slice body 4 4 = [0, 0, 0, 0]) :
    overwrite (sealed body) 4 [0, 0, 0, 0] = body := by
  rw [sealed, overwrite_again (crc_inside hbody) (length_toLe 4 _), ← hzero,
    overwrite_slice_self hbody]

theorem ofLe_sealed : ofLe (slice (sealed body) 4 4) = (crc32c body).toNat := by
  have hlt := (crc32c body).toNat_lt
  have hall := slice_all (toLe 4 (crc32c body).toNat)
  rw [length_toLe] at hall
  rw [sealed, slice_overwrite_of_subset (crc_inside hbody) (Nat.le_refl _)
    (Nat.le_of_eq (congrArg (4 + ·) (length_toLe 4 _).symm)), Nat.sub_self, hall, ofLe, toLe,
    List.reverse_reverse, ofBe_toBe_of_lt (by omega)]

end Sealed

/-- A header without its CRC; `log` is the first byte of the log GUID. -/
def headerBody (sequence : ℕ) (log : UInt8) : List UInt8 :=
  ascii "head" ++ [0, 0, 0, 0] ++ toLe 8 sequence ++ List.replicate 32 0 ++
    (log :: List.replicate 15 0) ++ [0, 0, 1, 0] ++ List.replicate 4028 0

def headerCopy (sequence : ℕ) (log : UInt8) : List UInt8 :=
  overwrite (headerBody sequence log) 4 (toLe 4 (crc32c (headerBody sequence log)).toNat)

private theorem length_headerBody (sequence : ℕ) (log : UInt8) :
    (headerBody sequence log).length = 4096 := by
  have hhead : (ascii "head").length = 4 := rfl
  simp only [headerBody, List.length_append, List.length_cons, List.length_nil,
    List.length_replicate, length_toLe, hhead]

private theorem headerBody_long (sequence : ℕ) (log : UInt8) :
    8 ≤ (headerBody sequence log).length := by
  rw [length_headerBody]
  decide

theorem length_headerCopy (sequence : ℕ) (log : UInt8) :
    (headerCopy sequence log).length = 4096 :=
  (length_sealed (headerBody_long sequence log)).trans (length_headerBody sequence log)

private theorem slice_headerCopy (sequence : ℕ) (log : UInt8) {o n : ℕ} (h : o + n ≤ 4 ∨ 8 ≤ o) :
    slice (headerCopy sequence log) o n = slice (headerBody sequence log) o n :=
  slice_sealed (headerBody_long sequence log) h

theorem headerCopy_valid (sequence : ℕ) (log : UInt8) : ValidCopy (headerCopy sequence log) := by
  refine ⟨Nat.le_of_eq (length_headerCopy sequence log).symm, ?_, ?_, ?_⟩
  · rw [slice_headerCopy sequence log (.inl (by decide))]
    rfl
  · have hall : (headerCopy sequence log).take 4096 = sealed (headerBody sequence log) := by
      rw [← length_headerCopy sequence log, List.take_length]
      rfl
    rw [hall, overwrite_sealed (headerBody_long sequence log) rfl]
    exact (ofLe_sealed (headerBody_long sequence log)).symm
  · rw [slice_headerCopy sequence log (.inr (by decide))]
    rfl

private theorem sequenceOf_headerCopy (sequence : ℕ) (log : UInt8) :
    sequenceOf (headerCopy sequence log) = sequence % 2 ^ 64 := by
  have hfield : slice (headerBody sequence log) 8 8 = toLe 8 sequence := by
    have hall := slice_all (toLe 8 sequence)
    rwa [length_toLe] at hall
  have hpow : 256 ^ 8 = 2 ^ 64 := by decide
  rw [sequenceOf, slice_headerCopy sequence log (.inr (by decide)), hfield, ofLe, toLe,
    List.reverse_reverse, ofBe_toBe, hpow]

theorem cleanLog_headerCopy (sequence : ℕ) (log : UInt8) :
    CleanLog (headerCopy sequence log) ↔ log = 0 := by
  rw [CleanLog, slice_headerCopy sequence log (.inr (by decide))]
  have hlog : slice (headerBody sequence log) 48 16 = log :: List.replicate 15 0 := rfl
  rw [hlog]
  simp

/-- After a crash, the older clean copy lets the dirty image pass. -/
theorem older_clean_copy_passes : ¬ ∀ h1 h2, PassesOnlyClean h1 h2 := by
  intro h
  have hpasses : ∃ header, parseBestHeader (headerCopy 1 0) (headerCopy 2 1) = .ok header :=
    parseBestHeader_passes.2 (.inl ⟨headerCopy_valid 1 0, (cleanLog_headerCopy 1 0).2 rfl⟩)
  have hcurrent : Current (headerCopy 1 0) (headerCopy 2 1) (headerCopy 2 1) := by
    refine ⟨.inr rfl, headerCopy_valid 2 1, fun h' hmem _ => ?_⟩
    rcases hmem with rfl | rfl
    · rw [sequenceOf_headerCopy, sequenceOf_headerCopy]
      decide
    · exact Nat.le_refl _
  have hclean := (cleanLog_headerCopy 2 1).1 (h _ _ hpasses _ hcurrent)
  exact absurd hclean (by decide)

end XBoot.VhdxFile
