import XBoot.BlockDevices
import XBoot.Residuals
import Mathlib.Algebra.Order.BigOperators.Group.List

/-!
# The data of a read

The data of a read is sent as a sequence of Data-In PDUs: each carries the next segment of
it, with its offset and its number, and the last one the status.
-/

namespace XBoot.Iscsi

open BigEndian BlockArrays ListSlices Storage

/-- The PDUs carry the data in order, numbered from 0, with the status on the last. -/
structure InSequence (limit : ℕ) (data : List UInt8) (rs : List ScsiDataIn) : Prop where
  payload : rs.flatMap (·.data) = data
  bufferOffset : ∀ (i : ℕ) (r : ScsiDataIn), rs[i]? = some r →
    r.bufferOffset.toNat = ((rs.take i).map (·.data.length)).sum
  dataSn : ∀ (i : ℕ) (r : ScsiDataIn), rs[i]? = some r → r.dataSn.toNat = i
  length : ∀ r ∈ rs, 1 ≤ r.data.length ∧ r.data.length ≤ limit
  final_iff : ∀ (i : ℕ) (r : ScsiDataIn), rs[i]? = some r → (r.final_ = true ↔ i + 1 = rs.length)
  status_iff : ∀ (i : ℕ) (r : ScsiDataIn), rs[i]? = some r → (r.hasStatus = true ↔ i + 1 = rs.length)

/-- The PDUs for the data from `offset` on, numbered from `dataSn` on. -/
structure SentFrom (limit : ℕ) (data : List UInt8) (offset : ℕ) (dataSn : UInt32)
    (rs : List ScsiDataIn) : Prop where
  payload : rs.flatMap (·.data) = data.drop offset
  bufferOffset : ∀ (i : ℕ) (r : ScsiDataIn), rs[i]? = some r →
    r.bufferOffset = UInt32.ofNat (offset + ((rs.take i).map (·.data.length)).sum)
  dataSn : ∀ (i : ℕ) (r : ScsiDataIn), rs[i]? = some r → r.dataSn = dataSn + UInt32.ofNat i
  length : ∀ r ∈ rs, 1 ≤ r.data.length ∧ r.data.length ≤ limit
  final_iff : ∀ (i : ℕ) (r : ScsiDataIn), rs[i]? = some r → (r.final_ = true ↔ i + 1 = rs.length)
  status_iff : ∀ (i : ℕ) (r : ScsiDataIn), rs[i]? = some r → (r.hasStatus = true ↔ i + 1 = rs.length)

/-- The PDU for the data from `offset` to `stop`. -/
structure Carries (data : List UInt8) (offset stop : ℕ) (dataSn : UInt32) (r : ScsiDataIn) :
    Prop where
  data_eq : r.data = slice data offset (stop - offset)
  bufferOffset : r.bufferOffset = UInt32.ofNat offset
  dataSn : r.dataSn = dataSn
  final_iff : r.final_ = true ↔ stop = data.length
  status_iff : r.hasStatus = true ↔ stop = data.length

private theorem each_cons {α : Type} {P : ℕ → α → Prop} {x : α} {xs : List α} (hx : P 0 x)
    (hxs : ∀ i y, xs[i]? = some y → P (i + 1) y) : ∀ i y, (x :: xs)[i]? = some y → P i y := by
  intro i y hy
  cases i with
  | zero =>
    cases hy
    exact hx
  | succ i => exact hxs i y hy

namespace SentFrom

variable {limit : ℕ} {data : List UInt8} {offset : ℕ} {dataSn : UInt32} {rs : List ScsiDataIn}

theorem nil (h : data.length ≤ offset) : SentFrom limit data offset dataSn [] where
  payload := (List.drop_eq_nil_of_le h).symm
  bufferOffset _ _ h := by cases h
  dataSn _ _ h := by cases h
  length _ h := absurd h List.not_mem_nil
  final_iff _ _ h := by cases h
  status_iff _ _ h := by cases h

theorem eq_nil_iff (h : SentFrom limit data offset dataSn rs) (hle : offset ≤ data.length) :
    rs = [] ↔ offset = data.length := by
  have hpayload := h.payload
  constructor
  · rintro rfl
    have hdrop := List.drop_eq_nil_iff.1 hpayload.symm
    omega
  · intro hend
    cases rs with
    | nil => rfl
    | cons r rs =>
      have hpos := (h.length r List.mem_cons_self).1
      rw [hend, List.drop_length, List.flatMap_cons] at hpayload
      rw [(List.append_eq_nil_iff.1 hpayload).1] at hpos
      exact absurd hpos (by decide)

theorem cons {r : ScsiDataIn} {stop : ℕ} (h : SentFrom limit data stop (dataSn + 1) rs)
    (hlt : offset < stop) (hle : stop ≤ data.length) (hlimit : stop - offset ≤ limit)
    (hr : Carries data offset stop dataSn r) : SentFrom limit data offset dataSn (r :: rs) := by
  have hlength : r.data.length = stop - offset := by
    rw [hr.data_eq]
    exact length_slice (by omega)
  have hempty : stop = data.length ↔ 0 + 1 = (r :: rs).length := by
    rw [← h.eq_nil_iff hle, List.length_cons, ← List.length_eq_zero_iff]
    omega
  constructor
  case payload =>
    have hjoin := List.take_append_drop (stop - offset) (data.drop offset)
    rw [List.drop_drop, Nat.add_sub_of_le (Nat.le_of_lt hlt)] at hjoin
    rw [List.flatMap_cons, h.payload, hr.data_eq, slice, hjoin]
  case bufferOffset =>
    refine each_cons hr.bufferOffset fun i r' hi => ?_
    rw [h.bufferOffset i r' hi, List.take_succ_cons, List.map_cons, List.sum_cons, hlength]
    congr 1
    omega
  case dataSn =>
    refine each_cons (hr.dataSn.trans (UInt32.add_zero dataSn).symm) fun i r' hi => ?_
    rw [h.dataSn i r' hi, UInt32.ofNat_add, UInt32.add_assoc, UInt32.add_comm (UInt32.ofNat i)]
    rfl
  case length =>
    intro r' hmem
    rcases List.mem_cons.1 hmem with rfl | hmem
    · omega
    · exact h.length r' hmem
  case final_iff =>
    refine each_cons (hr.final_iff.trans hempty) fun i r' hi => ?_
    simpa using h.final_iff i r' hi
  case status_iff =>
    refine each_cons (hr.status_iff.trans hempty) fun i r' hi => ?_
    simpa using h.status_iff i r' hi

/-- From the start of data that 32 bits count, no offset and no number wraps. -/
theorem inSequence (h : SentFrom limit data 0 0 rs) (hlt : data.length < 2 ^ 32) :
    InSequence limit data rs := by
  have hpayload : rs.flatMap (·.data) = data := h.payload
  have hsum : (rs.map (·.data.length)).sum = data.length := by
    rw [← hpayload, List.length_flatMap]
  have hcount : (rs.map (·.data.length)).length ≤ (rs.map (·.data.length)).sum := by
    apply List.length_le_sum_of_one_le
    intro n hn
    obtain ⟨r, hr, rfl⟩ := List.mem_map.1 hn
    exact (h.length r hr).1
  rw [List.length_map] at hcount
  refine ⟨hpayload, fun i r hi => ?_, fun i r hi => ?_, h.length, h.final_iff, h.status_iff⟩
  · have hsplit := List.sum_take_add_sum_drop (rs.map (·.data.length)) i
    have hfits : ((rs.map (·.data.length)).take i).sum < 2 ^ 32 := by omega
    rw [h.bufferOffset i r hi, Nat.zero_add, List.map_take]
    exact UInt32.toNat_ofNat_of_lt' hfits
  · have hi' : i < rs.length := (List.getElem?_eq_some_iff.1 hi).1
    have hfits : i < 2 ^ 32 := by omega
    rw [h.dataSn i r hi, UInt32.zero_add]
    exact UInt32.toNat_ofNat_of_lt' hfits

end SentFrom

variable {σ τ : Type}

/-- What is sent from an offset on, and the StatSN that it takes if anything is sent. -/
theorem dataInChunks_sent (c : Connection τ) (cmd : ScsiCommand) (data : List UInt8) (offset : ℕ)
    (dataSn : UInt32) : ∃ rs : List ScsiDataIn,
      c.dataInChunks cmd data offset dataSn =
        (rs.map .dataIn, if offset < data.length then c.nextStatSn else c) ∧
      SentFrom c.segment data offset dataSn rs := by
  fun_induction Connection.dataInChunks c cmd data offset dataSn with
  | case1 c offset dataSn hlt stop isLast pdu cnext rest c'' hrest ih =>
    obtain ⟨rs, heq, hsent⟩ := ih
    obtain ⟨rfl, rfl⟩ := Prod.mk.inj (hrest.symm.trans heq)
    have hseg : 512 ≤ c.segment := Nat.le_max_right _ _
    have hnext : cnext.segment = c.segment := by
      dsimp only [cnext]
      split <;> rfl
    rw [hnext] at hsent
    obtain ⟨r, hpdu, hr⟩ : ∃ r, pdu = .dataIn r ∧ Carries data offset stop dataSn r :=
      ⟨_, rfl, rfl, rfl, rfl, decide_eq_true_iff, decide_eq_true_iff⟩
    refine ⟨r :: rs, ?_, hsent.cons (by omega) (by omega) (by omega) hr⟩
    -- the StatSN is taken by the last PDU, after which nothing is sent
    have hconn : (if stop < data.length then cnext.nextStatSn else cnext) = c.nextStatSn := by
      by_cases hlast : isLast
      · have hcnext : cnext = c.nextStatSn := dif_pos hlast
        rw [if_neg (by omega), hcnext]
      · have hcnext : cnext = c := dif_neg hlast
        rw [if_pos (by omega), hcnext]
    rw [hpdu, hconn, if_pos hlt, List.map_cons]
  | case2 c offset dataSn hge =>
    refine ⟨[], ?_, .nil (Nat.not_lt.1 hge)⟩
    rw [if_neg hge]
    rfl

/-- A read on a connection in FullFeature whose target produces data, as many bytes as 32 bits
count, is answered by the data in sequence, in segments of at most MaxRecvDataSegmentLength or 512
bytes, and takes one StatSN. -/
theorem read_sends_sequence (tg : Targets σ τ) {w w' : σ} {c : Connection τ} {cmd : ScsiCommand}
    (bhs : List UInt8) {target : τ} {outcome : ScsiOutcome} (hstage : c.stage = .fullFeature)
    (hbound : c.target = some target) (hread : cmd.read = true) (hwrite : cmd.write = false)
    (hexecute : tg.execute target cmd cmd.data w = .ok (outcome, w'))
    (hgood : outcome.status = GOOD) (hdata : outcome.data ≠ [])
    (hlt : outcome.data.length < 2 ^ 32) :
    ∃ rs c', c.handle tg w (.scsiCommand cmd) bhs = .ok (rs.map .dataIn, c', w') ∧
      InSequence (max 512 c.params.maxRecvDataSegmentLength) outcome.data rs ∧
      c'.statSn = c.statSn + 1 := by
  obtain ⟨rs, heq, hsent⟩ := dataInChunks_sent c.counted cmd outcome.data 0 0
  have hsegment : c.counted.segment = max 512 c.params.maxRecvDataSegmentLength := Nat.max_comm _ _
  rw [hsegment] at hsent
  refine ⟨rs, c.counted.nextStatSn, ?_, hsent.inSequence hlt, rfl⟩
  rw [handle_executed bhs hstage hwrite hbound hexecute, if_pos ⟨hread, hgood, hdata⟩, heq,
    if_pos (List.length_pos_iff.2 hdata)]
  rfl

def fourBlocks : List UInt8 := (List.range 2048).map UInt8.ofNat

theorem length_fourBlocks : fourBlocks.length = 2048 := by
  rw [fourBlocks, List.length_map, List.length_range]

def fourBlockDisk : BackingStore := rawFile fourBlocks (by
  rw [length_fourBlocks]
  decide)

/-- A READ(10) of blocks 1 to 3. -/
def readThreeBlocks : ScsiCommand :=
  ⟨true, true, false, 0, 0, 2, 1536, 5, 0,
    ⟨[0x28, 0, 0, 0, 0, 1, 0, 0, 3, 0, 0, 0, 0, 0, 0, 0], rfl⟩, []⟩

/-- A session of an initiator that takes 512 bytes in a PDU. -/
def oneBlockSession : Connection ℕ :=
  { Connection.loggedIn 0 5 with
    params := { SessionParams.initial with maxRecvDataSegmentLength := 512 } }

private theorem execute_readThreeBlocks :
    (oneUnit fourBlockDisk).execute readThreeBlocks readThreeBlocks.data =
      .ok (.good (slice fourBlocks 512 1536), oneUnit fourBlockDisk) := by
  have hunit : (oneUnit fourBlockDisk).luns[0]? = some (some (.new fourBlockDisk)) := rfl
  have hlun : lunNumber ((readThreeBlocks, []) : ScsiCommand × List UInt8).1.lun = some 0 := by decide
  have htransfer : transferOf readThreeBlocks.cdb = some ⟨false, 1, 3⟩ := by decide
  have hop : byte readThreeBlocks.cdb.1 0 ≠ REPORT_LUNS := by decide
  have his : (LogicalUnit.new fourBlockDisk).Is (.ofList 512 fourBlocks) :=
    LogicalUnit.is_fresh (Nat.zero_lt_succ 511) (rawFile_serves _ _) rfl
  have hlength : (BlockDevice.ofList 512 fourBlocks).content.length = 4 := by
    rw [BlockDevice.ofList, length_blocks, length_fourBlocks]
  have hend : 1 + 3 = fourBlocks.length / 512 := by rw [length_fourBlocks]
  have hdispatch := dispatch_transfer (.new fourBlockDisk) htransfer readThreeBlocks.data
  rw [if_neg Bool.false_ne_true, his.read_inside (Nat.le_of_eq hlength.symm),
    BlockDevice.read_ofList (Nat.le_of_eq hend)] at hdispatch
  have hrun := execute_same hlun hunit hop hdispatch
  exact hrun

theorem three_blocks_in_sequence : ∃ rs c',
    oneBlockSession.handle (World.targets id) (World.empty.insert "a" (oneUnit fourBlockDisk))
      (.scsiCommand readThreeBlocks) [] =
      .ok (rs.map .dataIn, c', World.empty.insert "a" (oneUnit fourBlockDisk)) ∧
    InSequence 512 (slice fourBlocks 512 1536) rs ∧ 3 ≤ rs.length ∧
    c'.statSn = oneBlockSession.statSn + 1 := by
  have hexecute : (World.targets id).execute 0 readThreeBlocks readThreeBlocks.data
      (World.empty.insert "a" (oneUnit fourBlockDisk)) =
      .ok (.good (slice fourBlocks 512 1536), World.empty.insert "a" (oneUnit fourBlockDisk)) :=
    World.execute_of_get rfl execute_readThreeBlocks id
  have hlength : (slice fourBlocks 512 1536).length = 1536 :=
    length_slice (by rw [length_fourBlocks])
  generalize slice fourBlocks 512 1536 = data at hexecute hlength ⊢
  have hne : data ≠ [] := by
    rintro rfl
    cases hlength
  have hlt : data.length < 2 ^ 32 := by
    rw [hlength]
    decide
  obtain ⟨rs, c', hhandle, hsequence, hstat⟩ := read_sends_sequence (World.targets id)
    (c := oneBlockSession) [] rfl rfl rfl rfl hexecute rfl hne hlt
  refine ⟨rs, c', hhandle, hsequence, ?_, hstat⟩
  have hsum : (rs.map (·.data.length)).sum = 1536 := by
    have hpayload : rs.flatMap (·.data) = data := hsequence.payload
    rw [← List.length_flatMap, hpayload, hlength]
  have hbound := List.sum_le_card_nsmul (rs.map (·.data.length)) 512 fun n hn => by
    obtain ⟨r, hr, rfl⟩ := List.mem_map.1 hn
    exact (hsequence.length r hr).2
  rw [hsum, List.length_map, Nat.nsmul_eq_mul] at hbound
  omega

end XBoot.Iscsi
