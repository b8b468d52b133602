import XBoot.BlockArrays
import XBoot.ScsiTarget
import Mathlib.Data.List.Nodup

/-!
# LUN addresses

A command names a unit by an 8-byte address, and REPORT LUNS lists one address for each
unit. An address is decoded from two of its bytes and a LUN is listed by its low byte, so
that the two agree on the addresses without other bytes and on LUNs that fit one byte.
-/

namespace XBoot.Iscsi

open ListSlices BigEndian Storage Volume BlockArrays

namespace ScsiTarget

variable (t : ScsiTarget)

def unitAt (address : UInt64) : Option (ℕ × LogicalUnit) :=
  (lunNumber address).bind fun n => t.luns[n]?.join.map fun lu => (n, lu)

def Present (n : ℕ) : Prop := t.luns[n]?.join.isSome = true

def present : List ℕ := (List.range t.luns.length).filter fun n => t.luns[n]?.join.isSome

def listed : List UInt64 :=
  (blocks 8 (t.reportLuns.data.drop 8)).map fun entry => UInt64.ofNat (ofBe entry)

/-- The address names a unit exactly if it is listed. -/
def Agrees (address : UInt64) : Prop := (t.unitAt address).isSome = true ↔ address ∈ t.listed

/-- The address listed at place `k` is listed once and names the unit at LUN `n`. -/
def ListsOnce (k n : ℕ) : Prop :=
  ∃ address lu, t.listed[k]? = some address ∧ t.listed.count address = 1 ∧
    t.unitAt address = some (n, lu)

/-- A command is executed by the unit that its address names. -/
theorem execute_eq (cmd : ScsiCommand) (writeData : List UInt8) :
    t.execute cmd writeData = match t.unitAt cmd.lun with
      | none => .ok (.check ILLEGAL_REQUEST ASC_LUN_NOT_SUPPORTED, t)
      | some (n, lu) =>
        if byte cmd.cdb.1 0 = REPORT_LUNS then .ok (t.reportLuns, t)
        else match dispatch lu cmd writeData with
          | .error e => .error e
          | .ok (outcome, lu') => .ok (outcome, ⟨t.luns.set n (some lu')⟩) := by
  rw [execute, unitAt]
  cases lunNumber cmd.lun with
  | none => rfl
  | some n =>
    simp only [Option.bind_some]
    cases t.luns[n]?.join <;> rfl

end ScsiTarget

variable {t : ScsiTarget}

def lunAddress (n : ℕ) : UInt64 := UInt64.ofNat (n % 256 * 2 ^ 48)

@[simp] theorem toNat_lunAddress (n : ℕ) : (lunAddress n).toNat = n % 256 * 2 ^ 48 := by
  have hlt : n % 256 * 2 ^ 48 < 2 ^ 64 := by omega
  exact UInt64.toNat_ofNat_of_lt' hlt

theorem lunAddress_inj {m n : ℕ} : lunAddress m = lunAddress n ↔ m % 256 = n % 256 := by
  rw [← UInt64.toNat_inj, toNat_lunAddress, toNat_lunAddress]
  omega

theorem lunNumber_eq (address : UInt64) :
    lunNumber address =
      if address.toNat < 2 ^ 56 then some (address.toNat / 2 ^ 48) else none := by
  have hhigh : (address >>> 56).toNat = address.toNat / 2 ^ 56 := by
    simp [Nat.shiftRight_eq_div_pow]
  have hnumber : ((address >>> 48) &&& 0xff).toNat = address.toNat / 2 ^ 48 % 256 := by
    simp [Nat.shiftRight_eq_div_pow, Nat.and_two_pow_sub_one_eq_mod _ 8]
  rw [lunNumber, hnumber]
  by_cases h : address.toNat < 2 ^ 56
  · have hzero : address >>> 56 = 0 := by
      rw [← UInt64.toNat_inj, hhigh, Nat.div_eq_of_lt h]
      rfl
    have hlt : address.toNat / 2 ^ 48 < 256 := by omega
    rw [if_pos h, if_neg (fun hne => hne hzero), Nat.mod_eq_of_lt hlt]
  · have hne : address >>> 56 ≠ 0 := by
      rw [Ne, ← UInt64.toNat_inj, hhigh]
      have hpos : 0 < address.toNat / 2 ^ 56 := Nat.div_pos (Nat.not_lt.1 h) (by decide)
      exact Nat.pos_iff_ne_zero.1 hpos
    rw [if_neg h, if_pos hne]

theorem unitAt_isSome_iff (address : UInt64) :
    (t.unitAt address).isSome = true ↔
      address.toNat < 2 ^ 56 ∧ t.Present (address.toNat / 2 ^ 48) := by
  rw [ScsiTarget.unitAt, lunNumber_eq, ScsiTarget.Present]
  by_cases h : address.toNat < 2 ^ 56
  · rw [if_pos h, Option.bind_some, Option.isSome_map]
    exact (and_iff_right h).symm
  · rw [if_neg h]
    exact iff_of_false Bool.false_ne_true fun hboth => h hboth.1

theorem unitAt_lunAddress (t : ScsiTarget) (n : ℕ) :
    t.unitAt (lunAddress n) = t.luns[n % 256]?.join.map fun lu => (n % 256, lu) := by
  have hlt : n % 256 * 2 ^ 48 < 2 ^ 56 := by omega
  rw [ScsiTarget.unitAt, lunNumber_eq, toNat_lunAddress, if_pos hlt,
    Nat.mul_div_cancel _ (by decide), Option.bind_some]

theorem mem_present {n : ℕ} : n ∈ t.present ↔ t.Present n := by
  rw [ScsiTarget.present, List.mem_filter, List.mem_range, ScsiTarget.Present]
  refine ⟨fun h => h.2, fun h => ⟨?_, h⟩⟩
  by_contra hout
  rw [List.getElem?_eq_none (Nat.not_lt.1 hout)] at h
  cases h

theorem nodup_present (t : ScsiTarget) : t.present.Nodup := List.nodup_range.filter _

private theorem ofBe_entry (n : ℕ) : ofBe [0, UInt8.ofNat n, 0, 0, 0, 0, 0, 0] = n % 256 * 2 ^ 48 := by
  simp [ofBe]

theorem listed_eq (t : ScsiTarget) : t.listed = t.present.map lunAddress := by
  have hblocks : blocks 8 (t.reportLuns.data.drop 8) =
      t.present.map fun n => [0, UInt8.ofNat n, 0, 0, 0, 0, 0, 0] := by
    have hdata : t.reportLuns.data.drop 8 =
        (t.present.map fun n => [0, UInt8.ofNat n, 0, 0, 0, 0, 0, 0]).flatten := by
      rw [← List.flatMap_def]
      exact List.drop_left' (by simp)
    rw [hdata]
    apply blocks_flatten (by decide)
    intro entry h
    obtain ⟨n, -, rfl⟩ := List.mem_map.1 h
    rfl
  rw [ScsiTarget.listed, hblocks, List.map_map]
  apply List.map_congr_left
  intro n _
  rw [Function.comp_apply, ofBe_entry, lunAddress]

theorem mem_listed {address : UInt64} :
    address ∈ t.listed ↔ ∃ n, t.Present n ∧ address.toNat = n % 256 * 2 ^ 48 := by
  rw [listed_eq, List.mem_map]
  apply exists_congr
  intro n
  rw [mem_present, ← UInt64.toNat_inj, toNat_lunAddress, eq_comm]

private theorem count_map_eq_one_iff {α β : Type} [DecidableEq α] [BEq β] [LawfulBEq β] {f : α → β}
    {xs : List α} (hnodup : xs.Nodup) {n : α} (hn : n ∈ xs) :
    (xs.map f).count (f n) = 1 ↔ ∀ m ∈ xs, f m = f n → m = n := by
  rw [List.count, List.countP_map]
  constructor
  · intro h m hm hmn
    rw [List.countP_eq_length_filter, List.length_eq_one_iff] at h
    obtain ⟨a, ha⟩ := h
    have hn' : n ∈ xs.filter ((· == f n) ∘ f) := List.mem_filter.2 ⟨hn, by simp⟩
    have hm' : m ∈ xs.filter ((· == f n) ∘ f) := List.mem_filter.2 ⟨hm, by simp [hmn]⟩
    rw [ha, List.mem_singleton] at hn' hm'
    rw [hn', hm']
  · intro h
    have hsame : xs.countP ((· == f n) ∘ f) = xs.count n := by
      apply List.countP_congr
      intro m hm
      simp only [Function.comp_apply, beq_iff_eq]
      exact ⟨h m hm, fun hmn => by rw [hmn]⟩
    rw [hsame, List.count_eq_one_of_mem hnodup hn]

theorem count_listed_eq_one_iff {n : ℕ} (hn : t.Present n) :
    t.listed.count (lunAddress n) = 1 ↔ ∀ m, t.Present m → m % 256 = n % 256 → m = n := by
  rw [listed_eq, count_map_eq_one_iff (nodup_present t) (mem_present.2 hn)]
  apply forall_congr'
  intro m
  rw [mem_present, lunAddress_inj]

theorem listsOnce_iff {k n : ℕ} (hk : t.present[k]? = some n) :
    t.ListsOnce k n ↔ t.listed.count (lunAddress n) = 1 ∧
      ∃ lu, t.unitAt (lunAddress n) = some (n, lu) := by
  have hplace : t.listed[k]? = some (lunAddress n) := by
    rw [listed_eq, List.getElem?_map, hk]
    rfl
  constructor
  · rintro ⟨address, lu, haddress, hcount, hunit⟩
    obtain rfl : lunAddress n = address := Option.some.inj (hplace.symm.trans haddress)
    exact ⟨hcount, lu, hunit⟩
  · rintro ⟨hcount, lu, hunit⟩
    exact ⟨_, lu, hplace, hcount, hunit⟩

theorem lunAddress_names_iff {n : ℕ} (hn : t.Present n) :
    (∃ lu, t.unitAt (lunAddress n) = some (n, lu)) ↔ n < 256 := by
  rw [unitAt_lunAddress]
  constructor
  · rintro ⟨lu, h⟩
    obtain ⟨lu', -, h⟩ := Option.map_eq_some_iff.1 h
    have hmod : n % 256 = n := congrArg Prod.fst h
    omega
  · intro h
    obtain ⟨lu, hlu⟩ := Option.isSome_iff_exists.1 hn
    refine ⟨lu, ?_⟩
    rw [Nat.mod_eq_of_lt h, hlu]
    rfl

/-- The address has no byte beside the two of a LUN, or its LUN has no unit; and a LUN that is
listed under the address by its low byte has a unit at that byte. -/
structure ScsiTarget.Exact (t : ScsiTarget) (address : UInt64) : Prop where
  low : address.toNat % 2 ^ 48 = 0 ∨ 2 ^ 56 ≤ address.toNat ∨ ¬ t.Present (address.toNat / 2 ^ 48)
  narrow : ∀ n, t.Present n → address.toNat = n % 256 * 2 ^ 48 → t.Present (n % 256)

theorem agrees_iff (t : ScsiTarget) (address : UInt64) : t.Agrees address ↔ t.Exact address := by
  rw [ScsiTarget.Agrees, unitAt_isSome_iff, mem_listed]
  constructor
  · intro h
    refine ⟨?_, fun n hn haddress => ?_⟩
    · by_contra hlow
      obtain ⟨hlow, hhigh⟩ := not_or.1 hlow
      obtain ⟨hhigh, hpresent⟩ := not_or.1 hhigh
      obtain ⟨n, -, haddress⟩ := h.1 ⟨Nat.not_le.1 hhigh, not_not.1 hpresent⟩
      omega
    · have hpresent := (h.2 ⟨n, hn, haddress⟩).2
      rwa [haddress, Nat.mul_div_cancel _ (by decide)] at hpresent
  · rintro ⟨hlow, hnarrow⟩
    constructor
    · rintro ⟨hlt, hpresent⟩
      refine ⟨_, hpresent, ?_⟩
      have hzero : address.toNat % 2 ^ 48 = 0 :=
        hlow.resolve_right fun h => h.elim (Nat.not_le.2 hlt) fun h => h hpresent
      omega
    · rintro ⟨n, hn, haddress⟩
      have hpresent := hnarrow n hn haddress
      refine ⟨by omega, ?_⟩
      rwa [haddress, Nat.mul_div_cancel _ (by decide)]

/-- An address names a unit exactly if it is listed, unless it has further bytes beside the LUN
of a unit or is listed for a LUN that does not fit its byte; and a unit is listed once under an
address that names it if its LUN fits one byte that no other LUN has. -/
theorem lun_addresses_agree_iff (t : ScsiTarget) :
    (∀ address, t.Agrees address ↔ t.Exact address) ∧
      ∀ k n, t.present[k]? = some n →
        (t.ListsOnce k n ↔ n < 256 ∧ ∀ m, t.Present m → m % 256 = n % 256 → m = n) := by
  refine ⟨agrees_iff t, fun k n hk => ?_⟩
  have hn : t.Present n := mem_present.1 (List.mem_of_getElem? hk)
  rw [listsOnce_iff hk, count_listed_eq_one_iff hn, lunAddress_names_iff hn, and_comm]

def emptyDiskTarget : ScsiTarget := ⟨[some (.new (rawFile [] (by decide)))]⟩

theorem lun_addresses_agree_one_unit : emptyDiskTarget.ListsOnce 0 0 :=
  ((lun_addresses_agree_iff emptyDiskTarget).2 0 0 rfl).2
    ⟨by decide, fun m hm _ => by
      cases m with
      | zero => rfl
      | succ m => cases hm⟩

/-- An address with a last byte of one names LUN 0 and is not listed. -/
theorem further_byte_not_listed :
    (emptyDiskTarget.unitAt 1).isSome = true ∧ (1 : UInt64) ∉ emptyDiskTarget.listed := by
  refine ⟨rfl, ?_⟩
  rw [mem_listed]
  rintro ⟨n, -, h⟩
  have hone : 1 = n % 256 * 2 ^ 48 := h
  omega

end XBoot.Iscsi
