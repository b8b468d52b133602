import XBoot.BackingStore
import XBoot.Resumptions
import Mathlib.Logic.Function.Basic

/-!
# A client's virtual disk: a read-only master under a copy-on-write overlay

`Volume::read_at` and `Volume::write_at` are programs over the atomic steps they take:
`RamOverlay::read_block`, `write_block` and `reset`, each under the overlay's lock, and
positioned reads of the master. The overlay panics when a block is read into a buffer
whose length differs from the stored one, and so does the model.
-/

namespace XBoot.Volume

open ListSlices Storage Resumptions

/-- COW block size in bytes. -/
def BLOCK : ℕ := 4096

/-- The blocks stored by a `RamOverlay`. -/
abbrev RamOverlay := ℕ → Option (List UInt8)

inductive Op where
  | readBlock (blk len : ℕ)
  | writeBlock (blk : ℕ) (data : List UInt8)
  | reset
  | readMaster (offset len : ℕ)

def Answer : Op → Type
  | .readBlock _ _ => Option (List UInt8)
  | .writeBlock _ _ => Unit
  | .reset => Unit
  | .readMaster _ _ => Outcome (List UInt8)

/-- `RamOverlay::read_block` into a buffer of length `len`. -/
def readBlock (ov : RamOverlay) (blk len : ℕ) : Outcome (Option (List UInt8)) :=
  match ov blk with
  | none => .ok none
  | some data => if data.length = len then .ok (some data) else .error .panic

def writeBlock (ov : RamOverlay) (blk : ℕ) (data : List UInt8) : RamOverlay :=
  Function.update ov blk (some data)

/-- The atomic steps of a volume over the master `m`. -/
def effects (m : BackingStore) : Effects Op Answer RamOverlay Failure
  | .readBlock blk len, ov => match readBlock ov blk len with
    | .ok r => .ok (r, ov)
    | .error e => .error e
  | .writeBlock blk data, ov => .ok ((), writeBlock ov blk data)
  | .reset, _ => .ok ((), fun _ => none)
  | .readMaster offset len, ov => .ok (m.readAt offset len, ov)

abbrev VolumeProgram (α : Type) := Program Op Answer (Outcome α)

/-- Length of block `blk`; `none` when the `u64` subtraction underflows. -/
def blockLen (m : BackingStore) (blk : ℕ) : Option ℕ :=
  if m.sizeBytes < blk * BLOCK then none else some (min BLOCK (m.sizeBytes - blk * BLOCK))

/-- Reject ranges that overflow or run past the end of the volume. -/
def checkBounds (m : BackingStore) (offset len : ℕ) : Outcome Unit :=
  if 2 ^ 64 ≤ offset + len then .error (invalidData "range overflows u64")
  else if m.sizeBytes < offset + len then
    .error (invalidData s!"out of range: {offset + len} > {m.sizeBytes}")
  else .ok ()

/-- The piece of a block that a round of `read_at` takes, from the overlay or else from
the master. -/
def readPiece {α : Type} (blk within blen take : ℕ) (next : List UInt8 → VolumeProgram α) :
    VolumeProgram α :=
  .call (.readBlock blk blen) fun
    | some block => next (slice block within take)
    | none => .call (.readMaster (blk * BLOCK + within) take) fun
      | .ok dst => next dst
      | .error e => .done (.error e)

/-- The loop of `read_at`: `buf` holds the bytes already done. -/
def readLoop (m : BackingStore) (len : ℕ) : ℕ → ℕ → List UInt8 → VolumeProgram (List UInt8)
  | 0, _, buf => .done (if len ≤ buf.length then .ok buf else .error .hang)
  | fuel + 1, pos, buf =>
    if len ≤ buf.length then .done (.ok buf)
    else
      match blockLen m (pos / BLOCK) with
      | none => .done (.error .panic)
      | some blen =>
        if blen < pos % BLOCK then .done (.error .panic)
        else
          let take := min (blen - pos % BLOCK) (len - buf.length)
          readPiece (pos / BLOCK) (pos % BLOCK) blen take fun dst =>
            readLoop m len fuel (pos + take) (buf ++ dst)

/-- `Volume::read_at` of `len` bytes. -/
def readAt (m : BackingStore) (offset len : ℕ) : VolumeProgram (List UInt8) :=
  match checkBounds m offset len with
  | .error e => .done (.error e)
  | .ok _ => readLoop m len len offset []

/-- How a round of `write_at` stores `src` into a block: a full block goes straight to the
overlay, a partial one is read, overwritten and stored whole. -/
def writePiece (blk within blen take : ℕ) (src : List UInt8) (next : VolumeProgram Unit) :
    VolumeProgram Unit :=
  if take = blen then .call (.writeBlock blk src) fun _ => next
  else
    .call (.readBlock blk blen) fun
      | some block => .call (.writeBlock blk (overwrite block within src)) fun _ => next
      | none => .call (.readMaster (blk * BLOCK) blen) fun
        | .ok block => .call (.writeBlock blk (overwrite block within src)) fun _ => next
        | .error e => .done (.error e)

/-- The loop of `write_at`: the first `done` bytes of `buf` are written. -/
def writeLoop (m : BackingStore) (buf : List UInt8) : ℕ → ℕ → ℕ → VolumeProgram Unit
  | 0, _, done => .done (if buf.length ≤ done then .ok () else .error .hang)
  | fuel + 1, pos, done =>
    if buf.length ≤ done then .done (.ok ())
    else
      match blockLen m (pos / BLOCK) with
      | none => .done (.error .panic)
      | some blen =>
        if blen < pos % BLOCK then .done (.error .panic)
        else
          let take := min (blen - pos % BLOCK) (buf.length - done)
          writePiece (pos / BLOCK) (pos % BLOCK) blen take (slice buf done take)
            (writeLoop m buf fuel (pos + take) (done + take))

/-- `Volume::write_at` of the bytes `buf`. -/
def writeAt (m : BackingStore) (offset : ℕ) (buf : List UInt8) : VolumeProgram Unit :=
  match checkBounds m offset buf.length with
  | .error e => .done (.error e)
  | .ok _ => writeLoop m buf buf.length offset 0

/-- `Volume::reset`. -/
def reset : VolumeProgram Unit := .call .reset fun _ => .done (.ok ())

theorem checkBounds_ok {m : BackingStore} {offset len : ℕ} (h : offset + len ≤ m.sizeBytes) :
    checkBounds m offset len = .ok () := by
  have hlt := m.sizeBytes_lt
  rw [checkBounds, if_neg (by omega), if_neg (by omega)]

/-- The block of an in-range position: where the position lies in it, and how much of
the remaining range a round takes. -/
structure Round (size pos remaining blk within blen take : ℕ) : Prop where
  position : blk * BLOCK + within = pos
  within_lt : within < blen
  blen_eq : blen = min BLOCK (size - blk * BLOCK)
  block_le : blk * BLOCK + blen ≤ size
  take_pos : 0 < take
  take_le : take ≤ remaining
  take_inside : within + take ≤ blen
  boundary : take < remaining → within + take = BLOCK

theorem round_of_range {size pos remaining : ℕ} (hrem : 0 < remaining)
    (h : pos + remaining ≤ size) :
    Round size pos remaining (pos / BLOCK) (pos % BLOCK) (min BLOCK (size - pos / BLOCK * BLOCK))
      (min (min BLOCK (size - pos / BLOCK * BLOCK) - pos % BLOCK) remaining) := by
  have hdiv : pos / BLOCK * BLOCK + pos % BLOCK = pos := Nat.div_add_mod' pos BLOCK
  have hmod : pos % BLOCK < BLOCK := Nat.mod_lt pos (by decide)
  exact ⟨hdiv, by omega, rfl, by omega, by omega, by omega, by omega, by omega⟩

/-- A round that is not the last one ends with its block. -/
theorem Round.ends_block {size pos remaining blk within blen take : ℕ}
    (h : Round size pos remaining blk within blen take) (hlt : take < remaining) :
    (pos + take) % BLOCK = 0 := by
  have hposition := h.position
  have hboundary := h.boundary hlt
  have hend : pos + take = (blk + 1) * BLOCK := by
    rw [Nat.add_mul, Nat.one_mul]
    omega
  rw [hend]
  exact Nat.mul_mod_left _ _

theorem blockLen_of_round {m : BackingStore} {pos remaining blk within blen take : ℕ}
    (h : Round m.sizeBytes pos remaining blk within blen take) : blockLen m blk = some blen := by
  have hb := h.block_le
  rw [blockLen, if_neg (by omega), ← h.blen_eq]

/-- A block is read back as it is stored, at its length. -/
theorem readBlock_ok {ov : RamOverlay} {blk len : ℕ} {found : Option (List UInt8)}
    (h : readBlock ov blk len = .ok found) :
    ov blk = found ∧ ∀ block, found = some block → block.length = len := by
  rw [readBlock] at h
  cases hb : ov blk with
  | none =>
    rw [hb] at h
    cases h
    exact ⟨rfl, nofun⟩
  | some data =>
    rw [hb] at h
    dsimp only at h
    split at h
    · rename_i hlen
      cases h
      exact ⟨rfl, fun block heq => Option.some.inj heq ▸ hlen⟩
    · cases h

private theorem readPiece_length {m : BackingStore} {ov ov' : RamOverlay} {len blk within blen take : ℕ}
    {bytes : List UInt8} {next : List UInt8 → VolumeProgram (List UInt8)}
    (htake : within + take ≤ blen)
    (hnext : ∀ dst ov, dst.length = take → (next dst).run (effects m) ov = .ok (.ok bytes, ov') →
      bytes.length = len)
    (h : (readPiece blk within blen take next).run (effects m) ov = .ok (.ok bytes, ov')) :
    bytes.length = len := by
  cases hread : readBlock ov blk blen with
  | error e => simp [readPiece, Program.run, effects, hread] at h
  | ok found =>
    have hstep : effects m (.readBlock blk blen) ov = .ok (found, ov) := by simp [effects, hread]
    rw [readPiece, Program.run_call hstep] at h
    cases found with
    | some block =>
      have hlen : block.length = blen := (readBlock_ok hread).2 block rfl
      exact hnext _ _ (length_slice (by omega)) h
    | none =>
      rw [Program.run_call rfl] at h
      cases hmaster : m.readAt (blk * BLOCK + within) take with
      | error e =>
        rw [hmaster] at h
        cases h
      | ok dst =>
        rw [hmaster] at h
        exact hnext _ _ (m.length_readAt hmaster) h

private theorem readLoop_length {m : BackingStore} {len fuel pos : ℕ} {buf bytes : List UInt8}
    {ov ov' : RamOverlay} (hbuf : buf.length ≤ len)
    (h : (readLoop m len fuel pos buf).run (effects m) ov = .ok (.ok bytes, ov')) :
    bytes.length = len := by
  induction fuel generalizing pos buf ov with
  | zero =>
    rw [readLoop] at h
    split at h
    · cases h
      omega
    · cases h
  | succ fuel ih =>
    rw [readLoop] at h
    split at h
    · cases h
      omega
    · cases hlen : blockLen m (pos / BLOCK) with
      | none =>
        rw [hlen] at h
        cases h
      | some blen =>
        rw [hlen] at h
        dsimp only at h
        split at h
        · cases h
        · refine readPiece_length (by omega) (fun dst ov hdst hrun => ?_) h
          exact ih (by rw [List.length_append]; omega) hrun

/-- A read that succeeds returns as many bytes as were asked for. -/
theorem length_readAt {m : BackingStore} {offset len : ℕ} {bytes : List UInt8} {ov ov' : RamOverlay}
    (h : (readAt m offset len).run (effects m) ov = .ok (.ok bytes, ov')) : bytes.length = len := by
  rw [readAt] at h
  split at h
  · cases h
  · exact readLoop_length (Nat.zero_le _) h

/-- The overlay `ov` over a master with bytes `content` holds the bytes `flat`: a stored
block has its block's length and bytes, an absent one is unchanged from the master. -/
structure Holds (m : BackingStore) (content : List UInt8) (ov : RamOverlay)
    (flat : List UInt8) : Prop where
  length_eq : flat.length = m.sizeBytes
  stored {blk : ℕ} {data : List UInt8} : ov blk = some data → blk * BLOCK < m.sizeBytes ∧
    data = slice flat (blk * BLOCK) (min BLOCK (m.sizeBytes - blk * BLOCK))
  absent {blk : ℕ} : ov blk = none →
    slice flat (blk * BLOCK) (min BLOCK (m.sizeBytes - blk * BLOCK)) =
      slice content (blk * BLOCK) (min BLOCK (m.sizeBytes - blk * BLOCK))

variable {m : BackingStore} {content : List UInt8} {ov : RamOverlay} {flat : List UInt8}

/-- An empty overlay holds the master. -/
theorem Holds.empty (h : content.length = m.sizeBytes) :
    Holds m content (fun _ => none) content where
  length_eq := h
  stored hb := by cases hb
  absent _ := rfl

theorem Holds.readBlock_some (h : Holds m content ov flat) {blk : ℕ} {data : List UInt8}
    (hb : ov blk = some data) :
    readBlock ov blk (min BLOCK (m.sizeBytes - blk * BLOCK)) =
      .ok (some (slice flat (blk * BLOCK) (min BLOCK (m.sizeBytes - blk * BLOCK)))) := by
  obtain ⟨hlt, hdata⟩ := h.stored hb
  have hlen : data.length = min BLOCK (m.sizeBytes - blk * BLOCK) := by
    rw [hdata, length_slice (by have := h.length_eq; omega)]
  rw [readBlock, hb, ← hdata]
  exact if_pos hlen

theorem Holds.readBlock_none {blk len : ℕ} (hb : ov blk = none) :
    readBlock ov blk len = .ok none := by
  rw [readBlock, hb]

/-- A piece of an absent block shows the master. -/
theorem Holds.slice_absent (h : Holds m content ov flat) {blk within n : ℕ}
    (hb : ov blk = none) (hn : within + n ≤ min BLOCK (m.sizeBytes - blk * BLOCK)) :
    slice flat (blk * BLOCK + within) n = slice content (blk * BLOCK + within) n := by
  rw [← slice_slice flat _ _ _ _ hn, h.absent hb, slice_slice content _ _ _ _ hn]

/-- Storing a block overwrites its bytes of the disk. -/
theorem Holds.writeBlock (h : Holds m content ov flat) {blk : ℕ} {data : List UInt8}
    (hblk : blk * BLOCK < m.sizeBytes)
    (hdata : data.length = min BLOCK (m.sizeBytes - blk * BLOCK)) :
    Holds m content (writeBlock ov blk data) (overwrite flat (blk * BLOCK) data) := by
  have hlen := h.length_eq
  have hfit : blk * BLOCK + data.length ≤ flat.length := by omega
  have hother : ∀ blk', blk' ≠ blk →
      slice (overwrite flat (blk * BLOCK) data) (blk' * BLOCK)
          (min BLOCK (m.sizeBytes - blk' * BLOCK)) =
        slice flat (blk' * BLOCK) (min BLOCK (m.sizeBytes - blk' * BLOCK)) := by
    intro blk' hne
    refine slice_overwrite_of_disjoint hfit ?_
    rcases Nat.lt_or_gt_of_ne hne with hlt | hgt
    · have hmul : (blk' + 1) * BLOCK ≤ blk * BLOCK := Nat.mul_le_mul_right _ hlt
      rw [Nat.add_mul, Nat.one_mul] at hmul
      exact .inl (by omega)
    · have hmul : (blk + 1) * BLOCK ≤ blk' * BLOCK := Nat.mul_le_mul_right _ hgt
      rw [Nat.add_mul, Nat.one_mul] at hmul
      exact .inr (by omega)
  have hsame : slice (overwrite flat (blk * BLOCK) data) (blk * BLOCK)
      (min BLOCK (m.sizeBytes - blk * BLOCK)) = data := by
    rw [slice_overwrite_of_subset hfit (Nat.le_refl _) (by omega), Nat.sub_self, ← hdata, slice_all]
  refine ⟨by rw [length_overwrite hfit]; exact hlen, ?_, ?_⟩
  · intro blk' data' hb
    by_cases hne : blk' = blk
    · subst hne
      rw [Volume.writeBlock, Function.update_self] at hb
      cases hb
      exact ⟨hblk, hsame.symm⟩
    · rw [Volume.writeBlock, Function.update_of_ne hne] at hb
      rw [hother blk' hne]
      exact h.stored hb
  · intro blk' hb
    by_cases hne : blk' = blk
    · subst hne
      rw [Volume.writeBlock, Function.update_self] at hb
      cases hb
    · rw [Volume.writeBlock, Function.update_of_ne hne] at hb
      rw [hother blk' hne]
      exact h.absent hb

end XBoot.Volume
