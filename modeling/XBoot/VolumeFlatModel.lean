import XBoot.Volume
import XBoot.Machines

/-!
# The volume is a flat byte array

Run alone, `read_at` returns the slice of the array the volume holds and `write_at`
overwrites it, unless a read of the master fails; a failed write leaves a prefix of
the write that ends at a block boundary. Over a master whose in-range reads succeed
the volume is therefore the flat array, over every sequence of calls.
-/

namespace XBoot.Volume

open ListSlices Storage Resumptions Machines

variable {m : BackingStore} {content : List UInt8} {ov : RamOverlay} {flat : List UInt8}

/-- Some in-range read of the master fails with `e`. -/
def MasterFails (m : BackingStore) (e : Failure) : Prop :=
  ∃ offset len, offset + len ≤ m.sizeBytes ∧ m.readAt offset len = .error e

theorem not_masterFails (h : m.Serves content) (e : Failure) : ¬ MasterFails m e := by
  rintro ⟨offset, len, hr, he⟩
  rw [h.readAt_eq hr] at he
  cases he

private theorem readLoop_done {len fuel pos : ℕ} {buf : List UInt8} (h : len ≤ buf.length) :
    readLoop m len fuel pos buf = .done (.ok buf) := by
  cases fuel <;> simp [readLoop, h]

private theorem readLoop_round {len fuel pos blk within blen take : ℕ} {buf : List UInt8}
    (hlt : buf.length < len) (hblk : blk = pos / BLOCK) (hwithin : within = pos % BLOCK)
    (htake : take = min (blen - within) (len - buf.length))
    (hr : Round m.sizeBytes pos (len - buf.length) blk within blen take) :
    readLoop m len (fuel + 1) pos buf = readPiece blk within blen take fun dst =>
      readLoop m len fuel (pos + take) (buf ++ dst) := by
  have hb := blockLen_of_round hr
  have hw := hr.within_lt
  subst hblk hwithin htake
  rw [readLoop, if_neg (by omega), hb]
  exact if_neg (by omega)

/-- A round's piece is the slice of the array, unless the master fails. -/
theorem readPiece_reaches {α : Type} (hs : m.Shows content) (h : Holds m content ov flat)
    {pos remaining blk within blen take : ℕ}
    (hr : Round m.sizeBytes pos remaining blk within blen take)
    (next : List UInt8 → VolumeProgram α) :
    Reaches (effects m) (readPiece blk within blen take next) ov (next (slice flat pos take)) ov ∨
      ∃ e, MasterFails m e ∧
        Reaches (effects m) (readPiece blk within blen take next) ov (.done (.error e)) ov := by
  have hin := hr.take_inside
  have hfit := hr.block_le
  rw [readPiece, ← hr.position]
  cases hb : ov blk with
  | some data =>
    have he : effects m (.readBlock blk blen) ov =
        .ok (some (slice flat (blk * BLOCK) blen), ov) := by
      simp only [effects, hr.blen_eq, h.readBlock_some hb]
    rw [← slice_slice _ _ _ _ _ hin]
    exact .inl (.step he (.refl _ _))
  | none =>
    have he : effects m (.readBlock blk blen) ov = .ok (none, ov) := by
      simp only [effects, Holds.readBlock_none hb]
    have hm : effects m (.readMaster (blk * BLOCK + within) take) ov =
        .ok (m.readAt (blk * BLOCK + within) take, ov) := rfl
    have hflat : slice flat (blk * BLOCK + within) take = slice content (blk * BLOCK + within) take :=
      h.slice_absent hb (by rw [← hr.blen_eq]; exact hin)
    cases hread : m.readAt (blk * BLOCK + within) take with
    | ok dst =>
      rw [hread] at hm
      rw [hflat, ← hs.readAt_eq (by omega) hread]
      exact .inl (.step he (.step hm (.refl _ _)))
    | error e =>
      rw [hread] at hm
      exact .inr ⟨e, ⟨_, _, by omega, hread⟩, .step he (.step hm (.refl _ _))⟩

/-- The read loop appends the slice it is asked for, or stops at a failing master read. -/
theorem readLoop_run (hs : m.Shows content) (h : Holds m content ov flat)
    (len fuel pos : ℕ) (buf : List UInt8) (hfuel : len ≤ buf.length + fuel)
    (hbuf : buf.length ≤ len) (hrange : pos + (len - buf.length) ≤ m.sizeBytes) :
    (readLoop m len fuel pos buf).run (effects m) ov =
        .ok (.ok (buf ++ slice flat pos (len - buf.length)), ov) ∨
      ∃ e, MasterFails m e ∧ (readLoop m len fuel pos buf).run (effects m) ov = .ok (.error e, ov) := by
  induction fuel generalizing pos buf with
  | zero =>
    have hz : len - buf.length = 0 := by omega
    rw [readLoop_done (by omega), hz, slice_zero, List.append_nil]
    exact .inl rfl
  | succ fuel ih =>
    rcases Nat.lt_or_ge buf.length len with hlt | hge
    · have hr := round_of_range (by omega : 0 < len - buf.length) hrange
      set take := min (min BLOCK (m.sizeBytes - pos / BLOCK * BLOCK) - pos % BLOCK)
        (len - buf.length) with htake
      have htp := hr.take_pos
      have htl := hr.take_le
      have hlen := h.length_eq
      have hnext : (buf ++ slice flat pos take).length = buf.length + take := by
        rw [List.length_append, length_slice (by omega)]
      rw [readLoop_round hlt rfl rfl htake hr]
      rcases readPiece_reaches hs h hr fun dst => readLoop m len fuel (pos + take) (buf ++ dst) with
        hpiece | ⟨e, he, hfail⟩
      · have hrest := ih (pos + take) (buf ++ slice flat pos take) (by omega) (by omega) (by omega)
        rw [hnext, List.append_assoc, slice_append_slice,
          show take + (len - (buf.length + take)) = len - buf.length by omega] at hrest
        rwa [hpiece.run_eq]
      · exact .inr ⟨e, he, hfail.run_eq⟩
    · have hz : len - buf.length = 0 := by omega
      rw [readLoop_done (by omega), hz, slice_zero, List.append_nil]
      exact .inl rfl

/-- An in-range read over a serving master returns the slice and changes nothing. -/
theorem readAt_run (hs : m.Serves content) (h : Holds m content ov flat) {offset len : ℕ}
    (hr : offset + len ≤ m.sizeBytes) :
    (readAt m offset len).run (effects m) ov = .ok (.ok (slice flat offset len), ov) := by
  rw [readAt, checkBounds_ok hr]
  rcases readLoop_run hs.shows h len len offset [] (by simp) (by simp) (by simpa using hr) with
    hrun | ⟨e, he, -⟩
  · simpa using hrun
  · exact absurd he (not_masterFails hs e)

theorem writeLoop_done {buf : List UInt8} {fuel pos done : ℕ} (h : buf.length ≤ done) :
    writeLoop m buf fuel pos done = .done (.ok ()) := by
  cases fuel <;> simp [writeLoop, h]

theorem writeLoop_round {buf : List UInt8} {fuel pos done blk within blen take : ℕ}
    (hlt : done < buf.length) (hblk : blk = pos / BLOCK) (hwithin : within = pos % BLOCK)
    (htake : take = min (blen - within) (buf.length - done))
    (hr : Round m.sizeBytes pos (buf.length - done) blk within blen take) :
    writeLoop m buf (fuel + 1) pos done =
      writePiece blk within blen take (slice buf done take)
        (writeLoop m buf fuel (pos + take) (done + take)) := by
  have hb := blockLen_of_round hr
  have hw := hr.within_lt
  subst hblk hwithin htake
  rw [writeLoop, if_neg (by omega), hb]
  exact if_neg (by omega)

/-- How far the write loop gets: to the end, or, when a master read fails, to a block
boundary or nowhere. -/
def Stops (m : BackingStore) (pos remaining n : ℕ) (r : Outcome Unit) : Prop :=
  (r = .ok () ∧ n = remaining) ∨
    ∃ e, r = .error e ∧ MasterFails m e ∧ n < remaining ∧ (n = 0 ∨ (pos + n) % BLOCK = 0)

theorem Stops.later {pos remaining take n : ℕ} {r : Outcome Unit} (htake : take ≤ remaining)
    (hb : take < remaining → (pos + take) % BLOCK = 0)
    (h : Stops m (pos + take) (remaining - take) n r) : Stops m pos remaining (take + n) r := by
  rcases h with ⟨hr, hn⟩ | ⟨e, hr, he, hn, hz⟩
  · exact .inl ⟨hr, by omega⟩
  · refine .inr ⟨e, hr, he, by omega, .inr ?_⟩
    rcases hz with rfl | hz
    · exact hb (by omega)
    · rwa [← Nat.add_assoc]

/-- A round comes to store its block with the piece put in, unless the master fails. -/
theorem writePiece_prepares (hs : m.Shows content) (h : Holds m content ov flat)
    {pos remaining blk within blen take : ℕ} {src : List UInt8}
    (hr : Round m.sizeBytes pos remaining blk within blen take) (hsrc : src.length = take)
    (next : VolumeProgram Unit) :
    Reaches (effects m) (writePiece blk within blen take src next) ov
        (.call (.writeBlock blk (overwrite (slice flat (blk * BLOCK) blen) within src)) fun _ => next)
        ov ∨
      ∃ e, MasterFails m e ∧
        Reaches (effects m) (writePiece blk within blen take src next) ov (.done (.error e)) ov := by
  have hin := hr.take_inside
  have hfit := hr.block_le
  have hlen := h.length_eq
  rw [writePiece]
  by_cases hfull : take = blen
  · have hzero : within = 0 := by omega
    have hover : overwrite (slice flat (blk * BLOCK) blen) within src = src := by
      rw [hzero, overwrite_all]
      rw [hsrc, length_slice (by omega), hfull]
    rw [if_pos hfull, hover]
    exact .inl (.refl _ _)
  · rw [if_neg hfull]
    cases hb : ov blk with
    | some data =>
      have he : effects m (.readBlock blk blen) ov =
          .ok (some (slice flat (blk * BLOCK) blen), ov) := by
        simp only [effects, hr.blen_eq, h.readBlock_some hb]
      exact .inl (.step he (.refl _ _))
    | none =>
      have he : effects m (.readBlock blk blen) ov = .ok (none, ov) := by
        simp only [effects, Holds.readBlock_none hb]
      have hm : effects m (.readMaster (blk * BLOCK) blen) ov =
          .ok (m.readAt (blk * BLOCK) blen, ov) := rfl
      cases hread : m.readAt (blk * BLOCK) blen with
      | ok block =>
        have hblock : block = slice flat (blk * BLOCK) blen := by
          rw [hs.readAt_eq (by omega) hread, hr.blen_eq, h.absent hb]
        rw [hread, hblock] at hm
        exact .inl (.step he (.step hm (.refl _ _)))
      | error e =>
        rw [hread] at hm
        exact .inr ⟨e, ⟨_, _, by omega, hread⟩, .step he (.step hm (.refl _ _))⟩

/-- A round's block with its piece put in has the block's length and puts the piece into
the array. -/
theorem Round.store {pos remaining blk within blen take : ℕ} {src : List UInt8}
    (hr : Round m.sizeBytes pos remaining blk within blen take) (hsrc : src.length = take)
    (hlen : flat.length = m.sizeBytes) :
    (overwrite (slice flat (blk * BLOCK) blen) within src).length =
        min BLOCK (m.sizeBytes - blk * BLOCK) ∧
      overwrite flat (blk * BLOCK) (overwrite (slice flat (blk * BLOCK) blen) within src) =
        overwrite flat pos src := by
  have hin := hr.take_inside
  have hfit := hr.block_le
  have hblock : (slice flat (blk * BLOCK) blen).length = blen := length_slice (by omega)
  constructor
  · rw [length_overwrite (by omega), hblock, hr.blen_eq]
  · rw [overwrite_overwrite_slice (by omega) (by omega), hr.position]

/-- A round stores its piece into the array, unless the master fails. -/
theorem writePiece_reaches (hs : m.Shows content) (h : Holds m content ov flat)
    {pos remaining blk within blen take : ℕ} {src : List UInt8}
    (hr : Round m.sizeBytes pos remaining blk within blen take) (hsrc : src.length = take)
    (next : VolumeProgram Unit) :
    (∃ ov', Reaches (effects m) (writePiece blk within blen take src next) ov next ov' ∧
        Holds m content ov' (overwrite flat pos src)) ∨
      ∃ e, MasterFails m e ∧
        Reaches (effects m) (writePiece blk within blen take src next) ov (.done (.error e)) ov := by
  have hw := hr.within_lt
  have hfit := hr.block_le
  obtain ⟨hlen, hstore⟩ := hr.store hsrc h.length_eq
  rcases writePiece_prepares hs h hr hsrc next with hprep | hfail
  · have hstored := h.writeBlock (by omega) hlen
    rw [hstore] at hstored
    exact .inl ⟨_, hprep.trans (.step rfl (.refl _ _)), hstored⟩
  · exact .inr hfail

/-- The write loop overwrites the array by a prefix of what is left to write. -/
theorem writeLoop_run (hs : m.Shows content) (h : Holds m content ov flat) (buf : List UInt8)
    (fuel pos done : ℕ) (hfuel : buf.length ≤ done + fuel) (hdone : done ≤ buf.length)
    (hrange : pos + (buf.length - done) ≤ m.sizeBytes) :
    ∃ r ov' n, (writeLoop m buf fuel pos done).run (effects m) ov = .ok (r, ov') ∧
      Stops m pos (buf.length - done) n r ∧
      Holds m content ov' (overwrite flat pos (slice buf done n)) := by
  induction fuel generalizing pos done ov flat with
  | zero =>
    rw [writeLoop_done (by omega)]
    exact ⟨.ok (), ov, 0, rfl, .inl ⟨rfl, by omega⟩, by simpa using h⟩
  | succ fuel ih =>
    rcases Nat.lt_or_ge done buf.length with hlt | hge
    · have hr := round_of_range (by omega : 0 < buf.length - done) hrange
      set take := min (min BLOCK (m.sizeBytes - pos / BLOCK * BLOCK) - pos % BLOCK)
        (buf.length - done) with htake
      have hposition := hr.position
      have htp := hr.take_pos
      have htl := hr.take_le
      have hlen := h.length_eq
      have hsrc : (slice buf done take).length = take := length_slice (by omega)
      rw [writeLoop_round hlt rfl rfl htake hr]
      rcases writePiece_reaches hs h hr hsrc (writeLoop m buf fuel (pos + take) (done + take)) with
        ⟨ov₁, hpiece, hw⟩ | ⟨e, he, hfail⟩
      · obtain ⟨r, ov', n, hrun, hstop, hh⟩ := ih hw (pos + take) (done + take) (by omega)
          (by omega) (by omega)
        have hn : n ≤ buf.length - (done + take) := by
          rcases hstop with ⟨-, hn⟩ | ⟨-, -, -, hn, -⟩ <;> omega
        refine ⟨r, ov', take + n, by rw [hpiece.run_eq, hrun], ?_, ?_⟩
        · rw [show buf.length - (done + take) = buf.length - done - take by omega] at hstop
          exact hstop.later htl hr.ends_block
        · rwa [overwrite_slice_slice (by omega) (by omega)] at hh
      · refine ⟨.error e, ov, 0, hfail.run_eq, .inr ⟨e, rfl, he, by omega, .inl rfl⟩, ?_⟩
        simpa using h
    · rw [writeLoop_done hge]
      exact ⟨.ok (), ov, 0, rfl, .inl ⟨rfl, by omega⟩, by simpa using h⟩

theorem writeLoop_run_serves (hs : m.Serves content) (h : Holds m content ov flat)
    (buf : List UInt8) (fuel pos done : ℕ) (hfuel : buf.length ≤ done + fuel)
    (hdone : done ≤ buf.length) (hrange : pos + (buf.length - done) ≤ m.sizeBytes) :
    ∃ ov', (writeLoop m buf fuel pos done).run (effects m) ov = .ok (.ok (), ov') ∧
      Holds m content ov' (overwrite flat pos (slice buf done (buf.length - done))) := by
  obtain ⟨r, ov', n, hrun, hstop, hh⟩ := writeLoop_run hs.shows h buf fuel pos done hfuel hdone hrange
  rcases hstop with ⟨rfl, rfl⟩ | ⟨e, -, he, -⟩
  · exact ⟨ov', hrun, hh⟩
  · exact absurd he (not_masterFails hs e)

theorem writeAt_run (hs : m.Shows content) (h : Holds m content ov flat) {offset : ℕ}
    {buf : List UInt8} (hr : offset + buf.length ≤ m.sizeBytes) :
    ∃ r ov' n, (writeAt m offset buf).run (effects m) ov = .ok (r, ov') ∧
      Stops m offset buf.length n r ∧ Holds m content ov' (overwrite flat offset (buf.take n)) := by
  rw [writeAt, checkBounds_ok hr]
  simpa [slice] using writeLoop_run hs h buf buf.length offset 0 (by simp) (by simp) (by simpa using hr)

/-- An in-range write over a serving master returns `Ok`. -/
theorem writeAt_run_serves (hs : m.Serves content) (h : Holds m content ov flat) {offset : ℕ}
    {buf : List UInt8} (hr : offset + buf.length ≤ m.sizeBytes) :
    ∃ ov', (writeAt m offset buf).run (effects m) ov = .ok (.ok (), ov') ∧
      Holds m content ov' (overwrite flat offset buf) := by
  obtain ⟨r, ov', n, hrun, hstop, hh⟩ := writeAt_run hs.shows h hr
  rcases hstop with ⟨rfl, rfl⟩ | ⟨e, -, he, -⟩
  · rw [List.take_length] at hh
    exact ⟨ov', hrun, hh⟩
  · exact absurd he (not_masterFails hs e)

inductive Call where
  | readAt (offset len : ℕ)
  | writeAt (offset : ℕ) (buf : List UInt8)
  | reset

/-- What a call returns to its caller. -/
inductive Reply where
  | bytes (result : Except IoError (List UInt8))
  | written (result : Except IoError Unit)
  | emptied
  deriving DecidableEq

/-- The return of a program that was run alone; a panic or an endless loop is no return. -/
def returned {α : Type} (reply : Except IoError α → Reply) :
    Except Failure (Outcome α × RamOverlay) → Outcome (Reply × RamOverlay)
  | .error e => .error e
  | .ok (.ok a, ov) => .ok (reply (.ok a), ov)
  | .ok (.error (.io e), ov) => .ok (reply (.error e), ov)
  | .ok (.error e, _) => .error e

/-- One call of the volume over the master `m`. -/
def call (m : BackingStore) (ov : RamOverlay) : Call → Outcome (Reply × RamOverlay)
  | .readAt offset len => returned .bytes ((readAt m offset len).run (effects m) ov)
  | .writeAt offset buf => returned .written ((writeAt m offset buf).run (effects m) ov)
  | .reset => returned (fun _ => .emptied) (reset.run (effects m) ov)

def rangeError (size offset len : ℕ) : IoError :=
  if 2 ^ 64 ≤ offset + len then .invalidData "range overflows u64"
  else .invalidData s!"out of range: {offset + len} > {size}"

/-- The same call on a flat array `flat` initialised from `content`. -/
def flatCall (content flat : List UInt8) : Call → Reply × List UInt8
  | .readAt offset len =>
    if offset + len ≤ flat.length then (.bytes (.ok (slice flat offset len)), flat)
    else (.bytes (.error (rangeError flat.length offset len)), flat)
  | .writeAt offset buf =>
    if offset + buf.length ≤ flat.length then (.written (.ok ()), overwrite flat offset buf)
    else (.written (.error (rangeError flat.length offset buf.length)), flat)
  | .reset => (.emptied, content)

theorem checkBounds_rangeError {offset len : ℕ} (h : m.sizeBytes < offset + len) :
    checkBounds m offset len = .error (.io (rangeError m.sizeBytes offset len)) := by
  by_cases ho : 2 ^ 64 ≤ offset + len
  · rw [checkBounds, rangeError, if_pos ho, if_pos ho, invalidData]
  · rw [checkBounds, rangeError, if_neg ho, if_neg ho, if_pos h, invalidData]

/-- A call of the volume is the call of the flat array it holds. -/
theorem call_simulates (hs : m.Serves content) :
    Simulates (Holds m content) (call m) (flatCall content) := by
  intro ov flat c h
  have hlen := h.length_eq
  cases c with
  | readAt offset len =>
    by_cases hr : offset + len ≤ m.sizeBytes
    · have hrun := readAt_run hs h hr
      simp only [call, flatCall, hlen, if_pos hr, hrun, returned]
      exact ⟨ov, rfl, h⟩
    · have hb : readAt m offset len = .done (.error (.io (rangeError m.sizeBytes offset len))) := by
        rw [readAt, checkBounds_rangeError (by omega)]
      simp only [call, flatCall, hlen, if_neg hr, hb, Program.run, returned]
      exact ⟨ov, rfl, h⟩
  | writeAt offset buf =>
    by_cases hr : offset + buf.length ≤ m.sizeBytes
    · obtain ⟨ov', hrun, hh⟩ := writeAt_run_serves hs h hr
      simp only [call, flatCall, hlen, if_pos hr, hrun, returned]
      exact ⟨ov', rfl, hh⟩
    · have hb : writeAt m offset buf =
          .done (.error (.io (rangeError m.sizeBytes offset buf.length))) := by
        rw [writeAt, checkBounds_rangeError (by omega)]
      simp only [call, flatCall, hlen, if_neg hr, hb, Program.run, returned]
      exact ⟨ov, rfl, h⟩
  | reset => exact ⟨fun _ => none, rfl, Holds.empty hs.length_eq⟩

/-- A volume over an empty overlay answers every sequence of calls as the flat array
initialised from its master does, and never panics. -/
theorem volume_matches_flat_model (hs : m.Serves content) (calls : List Call) :
    ∃ ov, runs (call m) (fun _ => none) calls = .ok ((outputs (flatCall content) content calls).1, ov) ∧
      Holds m content ov (outputs (flatCall content) content calls).2 :=
  (call_simulates hs).runs (Holds.empty hs.length_eq) calls

/-- A one-block disk with a short tail, written over its end and read back. -/
theorem volume_matches_flat_model_tail :
    ∃ ov, runs (call (rawFile [7, 7, 7] (by decide))) (fun _ => none)
      [.writeAt 1 [9], .writeAt 2 [8, 8], .readAt 0 3, .reset, .readAt 0 3] =
      .ok ([.written (.ok ()), .written (.error (.invalidData "out of range: 4 > 3")),
        .bytes (.ok [7, 9, 7]), .emptied, .bytes (.ok [7, 7, 7])], ov) := by
  obtain ⟨ov, hrun, -⟩ := volume_matches_flat_model (rawFile_serves [7, 7, 7] (by decide))
    [.writeAt 1 [9], .writeAt 2 [8, 8], .readAt 0 3, .reset, .readAt 0 3]
  exact ⟨ov, hrun⟩

end XBoot.Volume
