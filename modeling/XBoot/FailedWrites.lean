import XBoot.Capacities
import XBoot.VolumeFlatModel

/-!
# A write that fails

A write stores its blocks one at a time and may fail on a block that it covers in part and
that the overlay does not hold, when the master cannot be read. It leaves what it stored
before: a prefix of the write that ends at a block boundary. All other blocks of the overlay
stay as they are. A WRITE reports such a failure as MEDIUM ERROR.
-/

namespace XBoot.Volume

open ListSlices Storage Resumptions

/-- The byte of a volume at a position: from the overlay if it holds the block, or else from the
master with bytes `content`. -/
def shown (content : List UInt8) (ov : RamOverlay) (pos : ℕ) : Option UInt8 :=
  match ov (pos / BLOCK) with
  | some block => block[pos % BLOCK]?
  | none => content[pos]?

/-- Every stored block has its block's length. -/
def Sized (m : BackingStore) (ov : RamOverlay) : Prop :=
  ∀ blk data, ov blk = some data → data.length = min BLOCK (m.sizeBytes - blk * BLOCK)

/-- The positions of a range of `len` bytes from `offset` on. -/
def Within (offset len pos : ℕ) : Prop := offset ≤ pos ∧ pos < offset + len

instance (offset len pos : ℕ) : Decidable (Within offset len pos) :=
  inferInstanceAs (Decidable (_ ∧ _))

/-- The volume over `ov'` differs from the one over `ov` by `bytes` from `offset` on: blocks without
a byte of this range have the source that they had, and stored blocks keep their lengths. -/
structure Wrote (m : BackingStore) (offset : ℕ) (bytes : List UInt8) (ov ov' : RamOverlay) : Prop where
  others : ∀ blk, (∀ pos, Within offset bytes.length pos → pos / BLOCK ≠ blk) → ov' blk = ov blk
  sized : Sized m ov → Sized m ov'
  shown_eq : ∀ content, m.Shows content → ∀ pos < m.sizeBytes, shown content ov' pos =
    if Within offset bytes.length pos then bytes[pos - offset]? else shown content ov pos

variable {m : BackingStore} {ov ov' ov'' : RamOverlay}

theorem shown_some {content : List UInt8} {pos : ℕ} {block : List UInt8}
    (h : ov (pos / BLOCK) = some block) : shown content ov pos = block[pos % BLOCK]? := by
  rw [shown, h]

theorem shown_none {content : List UInt8} {pos : ℕ} (h : ov (pos / BLOCK) = none) :
    shown content ov pos = content[pos]? := by
  rw [shown, h]

theorem shown_writeBlock {content block : List UInt8} {blk pos : ℕ} (h : pos / BLOCK = blk) :
    shown content (writeBlock ov blk block) pos = block[pos % BLOCK]? := by
  apply shown_some
  rw [h, writeBlock, Function.update_self]

theorem shown_writeBlock_of_ne {content block : List UInt8} {blk pos : ℕ} (h : pos / BLOCK ≠ blk) :
    shown content (writeBlock ov blk block) pos = shown content ov pos := by
  have hkept : writeBlock ov blk block (pos / BLOCK) = ov (pos / BLOCK) :=
    Function.update_of_ne h _ _
  rw [shown, shown, hkept]

theorem Sized.writeBlock {block : List UInt8} {blk : ℕ} (h : Sized m ov)
    (hlength : block.length = min BLOCK (m.sizeBytes - blk * BLOCK)) :
    Sized m (writeBlock ov blk block) := by
  intro blk' data hdata
  by_cases heq : blk' = blk
  · rw [heq, Volume.writeBlock, Function.update_self] at hdata
    cases hdata
    rw [heq, hlength]
  · rw [Volume.writeBlock, Function.update_of_ne heq] at hdata
    exact h blk' data hdata

private theorem block_iff (pos blk : ℕ) :
    pos / BLOCK = blk ↔ blk * BLOCK ≤ pos ∧ pos < blk * BLOCK + BLOCK := by
  rw [BLOCK]
  omega

namespace Wrote

theorem nil (m : BackingStore) (offset : ℕ) (ov : RamOverlay) : Wrote m offset [] ov ov where
  others _ _ := rfl
  sized h := h
  shown_eq content _ pos _ := by
    have hno : ¬ Within offset ([] : List UInt8).length pos := by
      rintro ⟨hle, hlt⟩
      rw [List.length_nil] at hlt
      omega
    rw [if_neg hno]

/-- Two writes, one after the other. -/
theorem append {offset : ℕ} {xs ys : List UInt8} (h : Wrote m offset xs ov ov')
    (h' : Wrote m (offset + xs.length) ys ov' ov'') : Wrote m offset (xs ++ ys) ov ov'' := by
  have hsplit : ∀ pos, Within offset (xs ++ ys).length pos ↔
      Within offset xs.length pos ∨ Within (offset + xs.length) ys.length pos := by
    intro pos
    simp only [Within, List.length_append]
    omega
  constructor
  case others =>
    intro blk hblk
    rw [h'.others blk fun pos hpos => hblk pos ((hsplit pos).2 (.inr hpos)),
      h.others blk fun pos hpos => hblk pos ((hsplit pos).2 (.inl hpos))]
  case sized => exact fun hsized => h'.sized (h.sized hsized)
  case shown_eq =>
    intro content hs pos hpos
    rw [h'.shown_eq content hs pos hpos, h.shown_eq content hs pos hpos]
    by_cases hsecond : Within (offset + xs.length) ys.length pos
    · rw [if_pos hsecond, if_pos ((hsplit pos).2 (.inr hsecond)),
        List.getElem?_append_right (by have := hsecond.1; omega), Nat.sub_sub]
    · rw [if_neg hsecond]
      by_cases hfirst : Within offset xs.length pos
      · rw [if_pos hfirst, if_pos ((hsplit pos).2 (.inl hfirst)),
          List.getElem?_append_left (by have := hfirst; simp only [Within] at this; omega)]
      · rw [if_neg hfirst, if_neg fun h => ((hsplit pos).1 h).elim hfirst hsecond]

theorem block {pos remaining blk within blen take : ℕ} {src old : List UInt8}
    (hr : Round m.sizeBytes pos remaining blk within blen take) (hsrc : src.length = take)
    (hold : old.length = blen)
    (hsame : ∀ content, m.Shows content → ∀ i < blen, ¬ Within within take i →
      old[i]? = shown content ov (blk * BLOCK + i)) :
    Wrote m pos src ov (writeBlock ov blk (overwrite old within src)) := by
  have hposition := hr.position
  have hinside := hr.take_inside
  have hblen : blen ≤ BLOCK := hr.blen_eq ▸ Nat.min_le_left _ _
  have htake := hr.take_pos
  have hrange : ∀ p, Within pos src.length p → p / BLOCK = blk := by
    rintro p ⟨hle, hlt⟩
    rw [block_iff]
    omega
  constructor
  case others =>
    intro blk' hblk'
    have hpos : Within pos src.length pos := ⟨Nat.le_refl _, by omega⟩
    have hne : blk' ≠ blk := fun heq => hblk' pos hpos ((hrange pos hpos).trans heq.symm)
    exact Function.update_of_ne hne _ _
  case sized =>
    exact fun hsized => hsized.writeBlock (by rw [length_overwrite (by omega), hold, hr.blen_eq])
  case shown_eq =>
    intro content hs p hp
    by_cases hblk : p / BLOCK = blk
    · have hplace : blk * BLOCK + p % BLOCK = p := hblk ▸ Nat.div_add_mod' p BLOCK
      have hmod := Nat.mod_lt p (show 0 < BLOCK by decide)
      have hwithin : Within pos src.length p ↔ Within within take (p % BLOCK) := by
        simp only [Within]
        omega
      rw [shown_writeBlock hblk, getElem?_overwrite (by omega)]
      by_cases hin : Within pos src.length p
      · obtain ⟨hle, hlt⟩ := hwithin.1 hin
        rw [if_pos ⟨hle, by omega⟩, if_pos hin]
        congr 1
        omega
      · have hout : ¬ Within within take (p % BLOCK) := fun h => hin (hwithin.2 h)
        have hlt : p % BLOCK < blen := by
          rw [hr.blen_eq]
          omega
        rw [if_neg fun h => hout ⟨h.1, by omega⟩, if_neg hin, hsame content hs _ hlt hout, hplace]
    · rw [if_neg fun h => hblk (hrange p h), shown_writeBlock_of_ne hblk]

end Wrote

private theorem old_shown {pos remaining blk within blen take i : ℕ} {old content : List UInt8}
    (hr : Round m.sizeBytes pos remaining blk within blen take) (hs : m.Shows content)
    (hi : i < blen)
    (hsource : ov blk = some old ∨ ov blk = none ∧ m.readAt (blk * BLOCK) blen = .ok old) :
    old[i]? = shown content ov (blk * BLOCK + i) := by
  have hblen : blen ≤ BLOCK := hr.blen_eq ▸ Nat.min_le_left _ _
  have hblk : (blk * BLOCK + i) / BLOCK = blk := by
    rw [block_iff]
    omega
  have hmod : (blk * BLOCK + i) % BLOCK = i := by
    have hdiv := Nat.div_add_mod' (blk * BLOCK + i) BLOCK
    rw [hblk] at hdiv
    omega
  rcases hsource with hstored | ⟨hnone, hread⟩
  · rw [shown_some (hblk.symm ▸ hstored), hmod]
  · rw [shown_none (hblk.symm ▸ hnone), hs.readAt_eq hr.block_le hread, getElem?_slice, if_pos hi]

/-- A round that goes on has stored its piece, and one that fails has stored nothing. -/
theorem writePiece_wrote {pos remaining blk within blen take : ℕ} {src : List UInt8}
    {next : VolumeProgram Unit} {r : Outcome Unit}
    (hr : Round m.sizeBytes pos remaining blk within blen take) (hsrc : src.length = take)
    (h : (writePiece blk within blen take src next).run (effects m) ov = .ok (r, ov')) :
    (∃ ov₁, Wrote m pos src ov ov₁ ∧ next.run (effects m) ov₁ = .ok (r, ov')) ∨
      ∃ e, r = .error e ∧ ov' = ov ∧ MasterFails m e := by
  have hinside := hr.take_inside
  rw [writePiece] at h
  split at h
  · rename_i hfull
    -- a block that is covered whole is stored as it is
    have hzero : within = 0 := by omega
    have hover : overwrite src within src = src := by rw [hzero, overwrite_all rfl]
    rw [Program.run_call rfl, ← hover] at h
    refine .inl ⟨_, .block hr hsrc (hsrc.trans hfull) fun content _ i hi hout => ?_, h⟩
    exact absurd ⟨by omega, by omega⟩ hout
  · cases hread : readBlock ov blk blen with
    | error e => simp [Program.run, effects, hread] at h
    | ok found =>
      have hstep : effects m (.readBlock blk blen) ov = .ok (found, ov) := by simp [effects, hread]
      rw [Program.run_call hstep] at h
      cases found with
      | some old =>
        obtain ⟨hstored, hlength⟩ := readBlock_ok hread
        have hold := hlength old rfl
        exact .inl ⟨_, .block hr hsrc hold fun content hs i hi _ => old_shown hr hs hi (.inl hstored), h⟩
      | none =>
        have hnone := (readBlock_ok hread).1
        rw [Program.run_call rfl] at h
        cases hmaster : m.readAt (blk * BLOCK) blen with
        | error e =>
          rw [hmaster] at h
          cases h
          exact .inr ⟨e, rfl, rfl, _, _, hr.block_le, hmaster⟩
        | ok old =>
          rw [hmaster] at h
          exact .inl ⟨_, .block hr hsrc (m.length_readAt hmaster) fun content hs i hi _ =>
            old_shown hr hs hi (.inr ⟨hnone, hmaster⟩), h⟩

/-- The write loop stores a prefix of what is left to write: all of it, or, when a master read
fails, nothing or up to a block boundary. -/
theorem writeLoop_wrote (buf : List UInt8) {fuel pos done : ℕ} {r : Outcome Unit}
    (hfuel : buf.length ≤ done + fuel) (hdone : done ≤ buf.length)
    (hrange : pos + (buf.length - done) ≤ m.sizeBytes)
    (h : (writeLoop m buf fuel pos done).run (effects m) ov = .ok (r, ov')) :
    ∃ n, Stops m pos (buf.length - done) n r ∧ Wrote m pos (slice buf done n) ov ov' := by
  induction fuel generalizing pos done ov with
  | zero =>
    rw [writeLoop_done (by omega)] at h
    cases h
    exact ⟨0, .inl ⟨rfl, by omega⟩, by simpa using Wrote.nil m pos ov'⟩
  | succ fuel ih =>
    rcases Nat.lt_or_ge done buf.length with hlt | hge
    · have hr := round_of_range (by omega : 0 < buf.length - done) hrange
      set take := min (min BLOCK (m.sizeBytes - pos / BLOCK * BLOCK) - pos % BLOCK)
        (buf.length - done) with htake
      have htp := hr.take_pos
      have htl := hr.take_le
      have hsrc : (slice buf done take).length = take := length_slice (by omega)
      rw [writeLoop_round hlt rfl rfl htake hr] at h
      rcases writePiece_wrote hr hsrc h with ⟨ov₁, hpiece, hrest⟩ | ⟨e, rfl, rfl, he⟩
      · obtain ⟨n, hstop, hwrote⟩ := ih (by omega) (by omega) (by omega) hrest
        refine ⟨take + n, ?_, ?_⟩
        · rw [show buf.length - (done + take) = buf.length - done - take by omega] at hstop
          exact hstop.later htl hr.ends_block
        · rw [← hsrc] at hwrote
          have hboth := hpiece.append hwrote
          rwa [hsrc, slice_append_slice] at hboth
      · exact ⟨0, .inr ⟨e, rfl, he, by omega, .inl rfl⟩, by simpa using Wrote.nil m pos ov'⟩
    · rw [writeLoop_done hge] at h
      cases h
      exact ⟨0, .inl ⟨rfl, by omega⟩, by simpa using Wrote.nil m pos ov'⟩

theorem writeAt_wrote {offset : ℕ} {buf : List UInt8} {r : Outcome Unit}
    (hrange : offset + buf.length ≤ m.sizeBytes)
    (h : (writeAt m offset buf).run (effects m) ov = .ok (r, ov')) :
    ∃ n, Stops m offset buf.length n r ∧ Wrote m offset (buf.take n) ov ov' := by
  rw [writeAt, checkBounds_ok hrange] at h
  simpa [slice] using writeLoop_wrote buf (by simp) (Nat.zero_le _) (by simpa using hrange) h

/-- An in-range write that fails changes the volume by a prefix of its data, shorter than the whole
and empty or up to a block boundary. -/
theorem failed_write_leaves_prefix (m : BackingStore) {ov ov' : RamOverlay} {offset : ℕ}
    {buf : List UInt8} {e : Failure} (hrange : offset + buf.length ≤ m.sizeBytes)
    (h : (writeAt m offset buf).run (effects m) ov = .ok (.error e, ov')) :
    ∃ n < buf.length, (n = 0 ∨ (offset + n) % BLOCK = 0) ∧ Wrote m offset (buf.take n) ov ov' := by
  obtain ⟨n, hstop, hwrote⟩ := writeAt_wrote hrange h
  rcases hstop with ⟨hok, -⟩ | ⟨e', -, -, hlt, hend⟩
  · cases hok
  · exact ⟨n, hlt, hend, hwrote⟩

def unreadableDisk : BackingStore where
  sizeBytes := 4098
  readAt _ _ := .error (.io .unexpectedEof)
  sizeBytes_lt := by decide
  length_readAt h := by cases h

def firstBlock : RamOverlay := fun blk => if blk = 0 then some (List.replicate 4096 0) else none

/-- Two bytes across the end of the first block: the first of them is stored. -/
theorem write_across_blocks_leaves_prefix : ∃ n < 2, (n = 0 ∨ (4095 + n) % BLOCK = 0) ∧
    Wrote unreadableDisk 4095 (([1, 2] : List UInt8).take n) firstBlock
      (writeBlock firstBlock 0 (overwrite (List.replicate 4096 0) 4095 [1])) := by
  have hfails : (writeAt unreadableDisk 4095 [1, 2]).run (effects unreadableDisk) firstBlock =
      .ok (.error (.io .unexpectedEof),
        writeBlock firstBlock 0 (overwrite (List.replicate 4096 0) 4095 [1])) := by
    simp [writeAt, writeLoop, writePiece, checkBounds, blockLen, Program.run, effects, readBlock,
      writeBlock, slice, BLOCK, unreadableDisk, firstBlock, -List.reduceReplicate]
  exact failed_write_leaves_prefix unreadableDisk (by decide) hfails

end XBoot.Volume

namespace XBoot.Iscsi

open Storage Volume BlockArrays

private theorem runVolume_failed {lu lu' : LogicalUnit} {α : Type} {program : VolumeProgram α}
    {e : IoError} (h : lu.runVolume program = .ok (.error e, lu')) :
    program.run (effects lu.master) lu.overlay = .ok (.error (.io e), lu'.overlay) := by
  rw [LogicalUnit.runVolume] at h
  split at h
  · cases h
  · cases h
  · rename_i hrun
    cases h
    exact hrun
  · cases h

/-- A WRITE that ends with MEDIUM ERROR has stored a prefix of its data up to a block boundary of
the overlay, or nothing. -/
theorem write_error_leaves_prefix {lu lu' : LogicalUnit} {lba count : ℕ} {data : List UInt8}
    (hsize : 0 < lu.blockSize)
    (h : write lu lba count data = .ok (.check MEDIUM_ERROR ASC_WRITE_ERROR, lu')) :
    ∃ n < data.length, (n = 0 ∨ (lba * lu.blockSize + n) % BLOCK = 0) ∧
      Wrote lu.master (lba * lu.blockSize) (data.take n) lu.overlay lu'.overlay := by
  rcases Nat.eq_zero_or_pos count with rfl | hcount
  · rw [write, if_pos rfl] at h
    have hstatus : GOOD = CHECK_CONDITION := congrArg (·.1.status) (Except.ok.inj h)
    exact absurd hstatus (by decide)
  · rw [write_eq hsize hcount] at h
    split at h
    · rename_i hrange
      split at h
      · rename_i hdata
        rw [writeBytes] at h
        split at h
        · cases h
        · have hstatus : GOOD = CHECK_CONDITION := congrArg (·.1.status) (Except.ok.inj h)
          exact absurd hstatus (by decide)
        · rename_i hrun
          cases h
          have hend := range_le hrange
          rw [Nat.add_mul, ← hdata] at hend
          obtain ⟨n, hstop, hwrote⟩ := writeAt_wrote hend (runVolume_failed hrun)
          rcases hstop with ⟨hok, -⟩ | ⟨-, -, -, hlt, hboundary⟩
          · cases hok
          · exact ⟨n, hlt, hboundary, hwrote⟩
      · have hsense : (ScsiOutcome.check ILLEGAL_REQUEST ASC_INVALID_FIELD_IN_CDB).sense =
            (ScsiOutcome.check MEDIUM_ERROR ASC_WRITE_ERROR).sense :=
          congrArg (·.1.sense) (Except.ok.inj h)
        exact absurd hsense (by decide)
    · have hsense : outOfRange.sense = (ScsiOutcome.check MEDIUM_ERROR ASC_WRITE_ERROR).sense :=
        congrArg (·.1.sense) (Except.ok.inj h)
      exact absurd hsense (by decide)

end XBoot.Iscsi
