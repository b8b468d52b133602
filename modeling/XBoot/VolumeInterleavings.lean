import XBoot.VolumeFlatModel

/-!
# Two writers of one volume

Two `write_at` calls to disjoint ranges interleave at their overlay steps. A partial
block is read in one step and stored whole in a later one, so a call can put back old
bytes of the other. No interleaving loses a byte exactly when no call changes a byte
of a block that the other one's range touches.
-/

namespace XBoot.Volume

open ListSlices Storage Resumptions

variable {m : BackingStore} {content : List UInt8} {ov : RamOverlay} {flat : List UInt8}

/-- The range touches the block of position `i`. -/
def Touches (offset len i : ℕ) : Prop :=
  ∃ p, offset ≤ p ∧ p < offset + len ∧ p / BLOCK = i / BLOCK

/-- Writing `buf` at `offset` gives position `i` another byte. -/
def Changes (flat : List UInt8) (offset : ℕ) (buf : List UInt8) (i : ℕ) : Prop :=
  (overwrite flat offset buf)[i]? ≠ flat[i]?

/-- No call changes a byte of a block that the other one's range touches. -/
def Undisturbed (flat : List UInt8) (o₁ : ℕ) (b₁ : List UInt8) (o₂ : ℕ) (b₂ : List UInt8) : Prop :=
  (∀ i, Changes flat o₁ b₁ i → ¬ Touches o₂ b₂.length i) ∧
    ∀ i, Changes flat o₂ b₂ i → ¬ Touches o₁ b₁.length i

/-- Every in-range read of the volume returns the bytes of `flat`, or fails with the master. -/
def ReadsBack (m : BackingStore) (ov : RamOverlay) (flat : List UInt8) : Prop :=
  ∀ offset len, offset + len ≤ m.sizeBytes →
    (readAt m offset len).run (effects m) ov = .ok (.ok (slice flat offset len), ov) ∨
      ∃ e, MasterFails m e ∧ (readAt m offset len).run (effects m) ov = .ok (.error e, ov)

/-- However two calls interleave, after both return `Ok` the volume reads back both ranges
as written and everything else unchanged. -/
def NoLostUpdate (m : BackingStore) (ov : RamOverlay) (flat : List UInt8) (o₁ : ℕ)
    (b₁ : List UInt8) (o₂ : ℕ) (b₂ : List UInt8) : Prop :=
  ∀ ov', Interleaves (effects m) (writeAt m o₁ b₁) (writeAt m o₂ b₂) ov (.ok ()) (.ok ()) ov' →
    ReadsBack m ov' (overwrite (overwrite flat o₁ b₁) o₂ b₂)

theorem changes_iff {offset : ℕ} {buf : List UInt8} (h : offset + buf.length ≤ flat.length) (i : ℕ) :
    Changes flat offset buf i ↔
      (offset ≤ i ∧ i < offset + buf.length) ∧ buf[i - offset]? ≠ flat[i]? := by
  rw [Changes, getElem?_overwrite h]
  split
  · rename_i hi
    exact ⟨fun hne => ⟨hi, hne⟩, fun hne => hne.2⟩
  · rename_i hi
    exact ⟨fun hne => absurd rfl hne, fun hne => absurd hne.1 hi⟩

theorem Holds.readsBack (hs : m.Shows content) (h : Holds m content ov flat) :
    ReadsBack m ov flat := by
  intro offset len hr
  rw [readAt, checkBounds_ok hr]
  simpa using readLoop_run hs h len len offset [] (by simp) (by simp) (by simpa using hr)

def Shown (m : BackingStore) (content : List UInt8) (ov : RamOverlay) (f : ℕ → Option UInt8) : Prop :=
  ∃ flat, Holds m content ov flat ∧ f = fun i => flat[i]?

/-- A write call ends well with the bytes `final` on its region. -/
def EndsWith (region : ℕ → Prop) (final : List UInt8) (r : Outcome Unit)
    (view : ℕ → Option UInt8) : Prop :=
  r = .ok () → ∀ i, region i → view i = final[i]?

section Writer

variable {region written : ℕ → Prop} {final : List UInt8}

private theorem writeBlock_confined {cur src : List UInt8}
    {pos remaining blk within blen take : ℕ} {next : VolumeProgram Unit}
    (hr : Round m.sizeBytes pos remaining blk within blen take) (hsrc : src.length = take)
    (hlen : cur.length = m.sizeBytes)
    (hregion : ∀ i, blk * BLOCK ≤ i → i < blk * BLOCK + blen → region i)
    (hwritten : ∀ i, Changes cur pos src i → written i)
    (hnext : Confined (Shown m content) (effects m) region written (EndsWith region final) next
      (fun i => (overwrite cur pos src)[i]?)) :
    Confined (Shown m content) (effects m) region written (EndsWith region final)
      (.call (.writeBlock blk (overwrite (slice cur (blk * BLOCK) blen) within src)) fun _ => next)
      (fun i => cur[i]?) := by
  have hin := hr.take_inside
  have hwithin := hr.within_lt
  have hfit := hr.block_le
  have hposition := hr.position
  rintro s f r s' ⟨flat', hflat, rfl⟩ hview heff
  cases heff
  have hlen' := hflat.length_eq
  obtain ⟨hl, hput⟩ := hr.store hsrc hlen'
  have hafter := hflat.writeBlock (by omega) hl
  rw [hput, slice_congr fun i hi hn => hview i (hregion i hi hn)] at hafter
  have hfit' : pos + src.length ≤ flat'.length := by omega
  have hfit'' : pos + src.length ≤ cur.length := by omega
  refine ⟨_, _, ⟨_, hafter, rfl⟩, fun i hi => ?_, fun i hi => ?_, hnext⟩
  · by_cases hp : pos ≤ i ∧ i < pos + src.length
    · have hsame : (overwrite cur pos src)[i]? = cur[i]? := by
        by_contra hne
        exact hi (hwritten i hne)
      rw [getElem?_overwrite hfit'', if_pos hp] at hsame
      simp only [getElem?_overwrite hfit', if_pos hp, hsame]
      exact (hview i (hregion i (by omega) (by omega))).symm
    · simp only [getElem?_overwrite hfit', if_neg hp]
  · simp only [getElem?_overwrite hfit', getElem?_overwrite hfit'', hview i hi]

/-- A round of a writer whose region contains the block and whose written positions are
those that the piece changes. -/
theorem writePiece_confined (hs : m.Shows content) {cur src : List UInt8}
    {pos remaining blk within blen take : ℕ} {next : VolumeProgram Unit}
    (hr : Round m.sizeBytes pos remaining blk within blen take) (hsrc : src.length = take)
    (hlen : cur.length = m.sizeBytes)
    (hregion : ∀ i, blk * BLOCK ≤ i → i < blk * BLOCK + blen → region i)
    (hwritten : ∀ i, Changes cur pos src i → written i)
    (hnext : Confined (Shown m content) (effects m) region written (EndsWith region final) next
      (fun i => (overwrite cur pos src)[i]?)) :
    Confined (Shown m content) (effects m) region written (EndsWith region final)
      (writePiece blk within blen take src next) (fun i => cur[i]?) := by
  have hin := hr.take_inside
  have hfit := hr.block_le
  have hstore := writeBlock_confined hr hsrc hlen hregion hwritten hnext
  rw [writePiece]
  by_cases hfull : take = blen
  · have hzero : within = 0 := by omega
    have hover : overwrite (slice cur (blk * BLOCK) blen) within src = src := by
      rw [hzero, overwrite_all]
      rw [hsrc, length_slice (by omega), hfull]
    rw [if_pos hfull]
    rwa [hover] at hstore
  · rw [if_neg hfull]
    rintro s f r s' ⟨flat', hflat, rfl⟩ hview heff
    have hblock : slice flat' (blk * BLOCK) blen = slice cur (blk * BLOCK) blen :=
      slice_congr fun i hi hn => hview i (hregion i hi hn)
    cases hb : s blk with
    | some data =>
      have he : effects m (.readBlock blk blen) s =
          .ok (some (slice cur (blk * BLOCK) blen), s) := by
        simp only [effects, hr.blen_eq, hflat.readBlock_some hb]
        rw [← hr.blen_eq, hblock]
      rw [he] at heff
      cases heff
      exact ⟨_, _, ⟨flat', hflat, rfl⟩, fun _ _ => rfl, hview, hstore⟩
    | none =>
      have he : effects m (.readBlock blk blen) s = .ok (none, s) := by
        simp only [effects, Holds.readBlock_none hb]
      rw [he] at heff
      cases heff
      refine ⟨_, _, ⟨flat', hflat, rfl⟩, fun _ _ => rfl, hview, ?_⟩
      -- the master shows the block even if the other call stores it meanwhile
      rintro s₂ f₂ r₂ s₂' hshown₂ hview₂ heff₂
      cases heff₂
      refine ⟨f₂, _, hshown₂, fun _ _ => rfl, hview₂, ?_⟩
      cases hread : m.readAt (blk * BLOCK) blen with
      | ok block =>
        have hmaster : block = slice cur (blk * BLOCK) blen := by
          rw [hs.readAt_eq (by omega) hread, ← hblock, hr.blen_eq, hflat.absent hb]
        rw [hmaster]
        exact hstore
      | error e => exact fun h => by cases h

private theorem changes_piece {cur buf : List UInt8} {pos done take n i : ℕ}
    (hbuf : done + take + n ≤ buf.length) (hcur : pos + take + n ≤ cur.length)
    (h : Changes cur pos (slice buf done take) i) : Changes cur pos (slice buf done (take + n)) i := by
  have htake : (slice buf done take).length = take := length_slice (by omega)
  have hall : (slice buf done (take + n)).length = take + n := length_slice (by omega)
  rw [changes_iff (by omega)] at h
  refine (changes_iff (by omega) i).2 ⟨by omega, ?_⟩
  rw [getElem?_slice, if_pos (by omega)] at h
  rw [getElem?_slice, if_pos (by omega)]
  exact h.2

private theorem changes_rest {cur buf : List UInt8} {pos done take n i : ℕ}
    (hbuf : done + take + n ≤ buf.length) (hcur : pos + take + n ≤ cur.length)
    (h : Changes (overwrite cur pos (slice buf done take)) (pos + take) (slice buf (done + take) n) i) :
    Changes cur pos (slice buf done (take + n)) i := by
  have htake : (slice buf done take).length = take := length_slice (by omega)
  have hrest : (slice buf (done + take) n).length = n := length_slice (by omega)
  have hall : (slice buf done (take + n)).length = take + n := length_slice (by omega)
  have hpiece : (overwrite cur pos (slice buf done take)).length = cur.length :=
    length_overwrite (by omega)
  rw [changes_iff (by omega)] at h
  refine (changes_iff (by omega) i).2 ⟨by omega, ?_⟩
  rw [getElem?_slice, if_pos (by omega), getElem?_overwrite (by omega), if_neg (by omega)] at h
  have hindex : done + (i - pos) = done + take + (i - (pos + take)) := by omega
  rw [getElem?_slice, if_pos (by omega), hindex]
  exact h.2

private theorem writeLoop_confined_done {buf cur : List UInt8} {fuel pos done : ℕ}
    (hge : buf.length ≤ done)
    (hfinal : final = overwrite cur pos (slice buf done (buf.length - done))) :
    Confined (Shown m content) (effects m) region written (EndsWith region final)
      (writeLoop m buf fuel pos done) (fun i => cur[i]?) := by
  have hz : buf.length - done = 0 := by omega
  rw [writeLoop_done hge, hfinal, hz, slice_zero, overwrite_nil]
  exact fun _ _ _ => rfl

/-- The write loop keeps to the blocks of its range and changes only what its data changes. -/
theorem writeLoop_confined (hs : m.Shows content) (buf : List UInt8) (fuel pos done : ℕ)
    (cur : List UInt8) (hlen : cur.length = m.sizeBytes) (hfuel : buf.length ≤ done + fuel)
    (hdone : done ≤ buf.length) (hrange : pos + (buf.length - done) ≤ m.sizeBytes)
    (hregion : ∀ i, i < m.sizeBytes → Touches pos (buf.length - done) i → region i)
    (hwritten : ∀ i, Changes cur pos (slice buf done (buf.length - done)) i → written i)
    (hfinal : final = overwrite cur pos (slice buf done (buf.length - done))) :
    Confined (Shown m content) (effects m) region written (EndsWith region final)
      (writeLoop m buf fuel pos done) (fun i => cur[i]?) := by
  induction fuel generalizing pos done cur with
  | zero => exact writeLoop_confined_done (by omega) hfinal
  | succ fuel ih =>
    rcases Nat.lt_or_ge done buf.length with hlt | hge
    · have hr := round_of_range (by omega : 0 < buf.length - done) hrange
      set take := min (min BLOCK (m.sizeBytes - pos / BLOCK * BLOCK) - pos % BLOCK)
        (buf.length - done) with htake
      rw [writeLoop_round hlt rfl rfl htake hr]
      -- what follows uses of `take` only what the round says
      clear_value take
      clear htake
      have htp := hr.take_pos
      have htl := hr.take_le
      have hsrc : (slice buf done take).length = take := length_slice (by omega)
      have hpiece : (overwrite cur pos (slice buf done take)).length = m.sizeBytes := by
        rw [length_overwrite (by omega), hlen]
      have hall : buf.length - done = take + (buf.length - (done + take)) := by omega
      rw [hall] at hwritten hfinal
      refine writePiece_confined hs hr hsrc hlen (fun i hi hn => ?_)
        (fun i hc => hwritten i (changes_piece (by omega) (by omega) hc))
        (ih (pos + take) (done + take) _ hpiece (by omega) (by omega) (by omega) ?_
          (fun i hc => hwritten i (changes_rest (by omega) (by omega) hc))
          (by rw [hfinal, overwrite_slice_slice (by omega) (by omega)]))
      · have hsame : i / BLOCK = pos / BLOCK :=
          Nat.div_eq_of_lt_le hi (by rw [Nat.add_mul, Nat.one_mul]; omega)
        exact hregion i (by omega) ⟨pos, by omega, by omega, hsame.symm⟩
      · rintro i hi ⟨p, hp, hpn, hpi⟩
        exact hregion i hi ⟨p, by omega, by omega, hpi⟩
    · exact writeLoop_confined_done hge hfinal

end Writer

/-- The region of a call: the in-range positions of the blocks it touches. -/
def regionOf (m : BackingStore) (offset len i : ℕ) : Prop :=
  i < m.sizeBytes ∧ Touches offset len i

theorem writeAt_confined (hs : m.Shows content) (hlen : flat.length = m.sizeBytes) {offset : ℕ}
    {buf : List UInt8} (hr : offset + buf.length ≤ m.sizeBytes) :
    Confined (Shown m content) (effects m) (regionOf m offset buf.length) (Changes flat offset buf)
      (EndsWith (regionOf m offset buf.length) (overwrite flat offset buf)) (writeAt m offset buf)
      (fun i => flat[i]?) := by
  rw [writeAt, checkBounds_ok hr]
  refine writeLoop_confined hs buf buf.length offset 0 flat hlen (by simp) (by simp)
    (by simpa using hr) ?_ ?_ (by simp)
  · exact fun i hi ht => ⟨hi, by simpa using ht⟩
  · exact fun i hc => by simpa using hc

private theorem touches_self {offset len i : ℕ} (h : offset ≤ i) (h' : i < offset + len) :
    Touches offset len i := ⟨i, h, h', rfl⟩

/-- Calls that do not disturb each other lose no update. -/
theorem noLostUpdate_of_undisturbed (hs : m.Shows content) (h : Holds m content ov flat)
    {o₁ o₂ : ℕ} {b₁ b₂ : List UInt8} (h₁ : o₁ + b₁.length ≤ m.sizeBytes)
    (h₂ : o₂ + b₂.length ≤ m.sizeBytes) (hu : Undisturbed flat o₁ b₁ o₂ b₂) :
    NoLostUpdate m ov flat o₁ b₁ o₂ b₂ := by
  intro ov' hrun
  have hlen := h.length_eq
  obtain ⟨g, final₁, final₂, ⟨flat', hflat', rfl⟩, hkeep, hv₁, he₁, hv₂, he₂⟩ :=
    hrun.of_confined (writeAt_confined hs hlen h₁) (writeAt_confined hs hlen h₂)
      (fun i hc hr => hu.1 i hc hr.2) (fun i hc hr => hu.2 i hc hr.2) ⟨flat, h, rfl⟩
      (fun _ _ => rfl) (fun _ _ => rfl)
  suffices hflat : flat' = overwrite (overwrite flat o₁ b₁) o₂ b₂ by
    rw [← hflat]
    exact hflat'.readsBack hs
  have hone : (overwrite flat o₁ b₁).length = flat.length := length_overwrite (by omega)
  apply List.ext_getElem?
  intro i
  rw [getElem?_overwrite (by omega), getElem?_overwrite (by omega)]
  split
  · rename_i hi
    have hregion : regionOf m o₂ b₂.length i := ⟨by omega, touches_self hi.1 hi.2⟩
    refine (hv₂ i hregion).trans ?_
    rw [he₂ rfl i hregion, getElem?_overwrite (by omega), if_pos hi]
  · rename_i hi₂
    split
    · rename_i hi
      have hregion : regionOf m o₁ b₁.length i := ⟨by omega, touches_self hi.1 hi.2⟩
      refine (hv₁ i hregion).trans ?_
      rw [he₁ rfl i hregion, getElem?_overwrite (by omega), if_pos hi]
    · rename_i hi₁
      refine hkeep i ?_ ?_
      · rw [changes_iff (by omega)]
        exact fun hc => hi₁ hc.1
      · rw [changes_iff (by omega)]
        exact fun hc => hi₂ hc.1

private theorem stale_byte {flat' src : List UInt8} {size pos remaining blk within blen take i : ℕ}
    (hr : Round size pos remaining blk within blen take) (hsrc : src.length = take)
    (hlen : flat.length = size) (hlen' : flat'.length = size) (hi : i < size) (hblk : i / BLOCK = blk)
    (hout : i < pos ∨ pos + take ≤ i) :
    (overwrite flat' (blk * BLOCK) (overwrite (slice flat (blk * BLOCK) blen) within src))[i]? =
      flat[i]? := by
  have hposition := hr.position
  have hin := hr.take_inside
  have hblen := hr.blen_eq
  have hmod := Nat.div_add_mod' i BLOCK
  have hlt := Nat.mod_lt i (show 0 < BLOCK by decide)
  rw [hblk] at hmod
  have hslice : (slice flat (blk * BLOCK) blen).length = blen := length_slice (by omega)
  have hwhole : (overwrite (slice flat (blk * BLOCK) blen) within src).length = blen := by
    rw [length_overwrite (by omega), hslice]
  rw [getElem?_overwrite (by omega), if_pos (by omega), getElem?_overwrite (by omega),
    if_neg (by omega), getElem?_slice, if_pos (by omega)]
  congr 1
  omega

/-- While the loop has read the block of position `i` but not stored it, a whole program `p`
may run; its byte at `i` is then put back to the old one. -/
theorem writeLoop_stale (hs : m.Serves content) {p : VolumeProgram Unit}
    (hp : ∀ ov flat, Holds m content ov flat → ∃ ov' flat',
      p.run (effects m) ov = .ok (.ok (), ov') ∧ Holds m content ov' flat')
    (h : Holds m content ov flat) (buf : List UInt8) (fuel pos done i : ℕ)
    (hfuel : buf.length ≤ done + fuel) (hdone : done ≤ buf.length)
    (hrange : pos + (buf.length - done) ≤ m.sizeBytes) (hsize : i < m.sizeBytes)
    (htouch : Touches pos (buf.length - done) i)
    (hout : i < pos ∨ pos + (buf.length - done) ≤ i) :
    ∃ ov' flat', Interleaves (effects m) p (writeLoop m buf fuel pos done) ov (.ok ()) (.ok ()) ov' ∧
      Holds m content ov' flat' ∧ flat'[i]? = flat[i]? := by
  induction fuel generalizing pos done ov flat with
  | zero =>
    obtain ⟨x, hx, hx', -⟩ := htouch
    omega
  | succ fuel ih =>
    obtain ⟨x, hx, hx', hxi⟩ := htouch
    have hr := round_of_range (by omega : 0 < buf.length - done) hrange
    set take := min (min BLOCK (m.sizeBytes - pos / BLOCK * BLOCK) - pos % BLOCK)
      (buf.length - done) with htake
    rw [writeLoop_round (by omega) rfl rfl htake hr]
    clear_value take
    clear htake
    have hposition := hr.position
    have htp := hr.take_pos
    have htl := hr.take_le
    have hlen := h.length_eq
    have hsrc : (slice buf done take).length = take := length_slice (by omega)
    by_cases hblk : i / BLOCK = pos / BLOCK
    · -- the block is read, `p` runs, and the block is stored with its old byte at `i`
      rcases writePiece_prepares hs.shows h hr hsrc
        (writeLoop m buf fuel (pos + take) (done + take)) with hprep | ⟨e, he, -⟩
      · obtain ⟨ov₁, flat₁, hrun, hflat₁⟩ := hp ov flat h
        obtain ⟨hdata, -⟩ := hr.store hsrc hlen
        have hstored := hflat₁.writeBlock (by omega) hdata
        obtain ⟨ov₂, hrest, hflat₂⟩ := writeLoop_run_serves hs hstored buf fuel (pos + take)
          (done + take) (by omega) (by omega) (by omega)
        refine ⟨ov₂, _, .right_first hprep (.left_first (.of_run hrun)
          (.right rfl (.right_first (.of_run hrest) (.done _ _ _)))), hflat₂, ?_⟩
        have htail : (slice buf (done + take) (buf.length - (done + take))).length =
            buf.length - (done + take) := length_slice (by omega)
        have hfit := hstored.length_eq
        rw [getElem?_overwrite (by omega), if_neg (by omega)]
        exact stale_byte hr hsrc hlen hflat₁.length_eq hsize hblk (by omega)
      · exact absurd he (not_masterFails hs e)
    · -- rounds before the block of `i` run alone
      rcases writePiece_reaches hs.shows h hr hsrc
        (writeLoop m buf fuel (pos + take) (done + take)) with ⟨ov₁, hpiece, hflat₁⟩ | ⟨e, he, -⟩
      · have hlater : pos + take ≤ x := by
          by_contra hearly
          refine hblk (hxi.symm.trans ?_)
          have hin := hr.take_inside
          exact Nat.div_eq_of_lt_le (by omega) (by rw [Nat.add_mul, Nat.one_mul]; omega)
        obtain ⟨ov', flat', hint, hflat', hi⟩ := ih hflat₁ (pos + take) (done + take) (by omega)
          (by omega) (by omega) ⟨x, hlater, by omega, hxi⟩ (by omega)
        refine ⟨ov', flat', .right_first hpiece hint, hflat', ?_⟩
        rw [hi, getElem?_overwrite (by omega), if_neg (by omega)]
      · exact absurd he (not_masterFails hs e)

/-- A byte that one call changes in a block the other touches can be lost. -/
theorem lost_update (hs : m.Serves content) (h : Holds m content ov flat)
    {o₁ o₂ i : ℕ} {b₁ b₂ : List UInt8} (h₁ : o₁ + b₁.length ≤ m.sizeBytes)
    (h₂ : o₂ + b₂.length ≤ m.sizeBytes)
    (hdisj : o₁ + b₁.length ≤ o₂ ∨ o₂ + b₂.length ≤ o₁) (hc : Changes flat o₁ b₁ i)
    (ht : Touches o₂ b₂.length i) :
    ∃ ov' flat', Interleaves (effects m) (writeAt m o₁ b₁) (writeAt m o₂ b₂) ov (.ok ()) (.ok ()) ov' ∧
      Holds m content ov' flat' ∧ flat'[i]? = flat[i]? := by
  have hlen := h.length_eq
  have hi := ((changes_iff (by omega) i).1 hc).1
  have hbound : writeAt m o₂ b₂ = writeLoop m b₂ b₂.length o₂ 0 := by
    rw [writeAt, checkBounds_ok h₂]
  rw [hbound]
  refine writeLoop_stale hs ?_ h b₂ b₂.length o₂ 0 i (by simp) (by simp) (by simpa using h₂)
    (by omega) (by simpa using ht) (by omega)
  intro ov₁ flat₁ hflat₁
  obtain ⟨ov₂, hrun, hflat₂⟩ := writeAt_run_serves hs hflat₁ h₁
  exact ⟨ov₂, _, hrun, hflat₂⟩

private theorem not_readsBack (hs : m.Serves content) {flat' expected : List UInt8}
    (h : Holds m content ov flat') (i : ℕ) (hi : i < m.sizeBytes) (hne : flat'[i]? ≠ expected[i]?) :
    ¬ ReadsBack m ov expected := by
  intro hread
  rcases hread i 1 (by omega) with hread | ⟨e, he, -⟩
  · rw [readAt_run hs h (by omega)] at hread
    have hslice : slice flat' i 1 = slice expected i 1 := by
      simpa using hread
    have hbyte : (slice flat' i 1)[0]? = (slice expected i 1)[0]? := by rw [hslice]
    simp only [getElem?_slice, Nat.zero_lt_one, if_true, Nat.add_zero] at hbyte
    exact hne hbyte
  · exact not_masterFails hs e he

theorem undisturbed_of_noLostUpdate (hs : m.Serves content) (h : Holds m content ov flat)
    {o₁ o₂ : ℕ} {b₁ b₂ : List UInt8} (h₁ : o₁ + b₁.length ≤ m.sizeBytes)
    (h₂ : o₂ + b₂.length ≤ m.sizeBytes) (hdisj : o₁ + b₁.length ≤ o₂ ∨ o₂ + b₂.length ≤ o₁)
    (hno : NoLostUpdate m ov flat o₁ b₁ o₂ b₂) : Undisturbed flat o₁ b₁ o₂ b₂ := by
  have hlen := h.length_eq
  have hfit₁ : o₁ + b₁.length ≤ flat.length := by omega
  have hfit₂ : o₂ + b₂.length ≤ flat.length := by omega
  have hboth : o₂ + b₂.length ≤ (overwrite flat o₁ b₁).length := by
    rw [length_overwrite hfit₁]
    exact hfit₂
  constructor
  · intro i hc ht
    have hi := ((changes_iff hfit₁ i).1 hc).1
    obtain ⟨ov', flat', hrun, hflat', hold⟩ := lost_update hs h h₁ h₂ hdisj hc ht
    refine not_readsBack hs hflat' i (by omega) ?_ (hno ov' hrun)
    rw [hold, getElem?_overwrite hboth, if_neg (by omega)]
    exact fun heq => hc heq.symm
  · intro i hc ht
    have hi := ((changes_iff hfit₂ i).1 hc).1
    obtain ⟨ov', flat', hrun, hflat', hold⟩ := lost_update hs h h₂ h₁ hdisj.symm hc ht
    refine not_readsBack hs hflat' i (by omega) ?_ (hno ov' hrun.symm)
    rw [hold, getElem?_overwrite hboth, if_pos hi]
    rw [Changes, getElem?_overwrite hfit₂, if_pos hi] at hc
    exact fun heq => hc heq.symm

/-- Two disjoint writes that do not disturb each other lose no update, over every master
that shows fixed bytes; over one whose reads succeed, only these lose none. -/
theorem no_lost_update_iff_undisturbed (hs : m.Shows content) (h : Holds m content ov flat)
    {o₁ o₂ : ℕ} {b₁ b₂ : List UInt8} (h₁ : o₁ + b₁.length ≤ m.sizeBytes)
    (h₂ : o₂ + b₂.length ≤ m.sizeBytes) (hdisj : o₁ + b₁.length ≤ o₂ ∨ o₂ + b₂.length ≤ o₁) :
    (Undisturbed flat o₁ b₁ o₂ b₂ → NoLostUpdate m ov flat o₁ b₁ o₂ b₂) ∧
      (m.Serves content → NoLostUpdate m ov flat o₁ b₁ o₂ b₂ → Undisturbed flat o₁ b₁ o₂ b₂) :=
  ⟨noLostUpdate_of_undisturbed hs h h₁ h₂,
    fun hserves hno => undisturbed_of_noLostUpdate hserves h h₁ h₂ hdisj hno⟩

/-- Writes into two blocks of a blank disk lose nothing. -/
theorem no_lost_update_two_blocks :
    NoLostUpdate (blankDisk 8192 (by decide)) (fun _ => none) (List.replicate 8192 0)
      0 (List.replicate 512 1) 4096 (List.replicate 512 2) := by
  have hserves := blankDisk_serves 8192 (by decide)
  have hlen := hserves.length_eq
  rw [List.length_replicate] at hlen
  refine (no_lost_update_iff_undisturbed hserves.shows (Holds.empty hserves.length_eq)
    (by rw [← hlen, List.length_replicate]; decide) (by rw [← hlen, List.length_replicate]; decide)
    (.inl (by rw [List.length_replicate]; decide))).1 ⟨?_, ?_⟩
  · rintro i hc ⟨p, hp, hp', hpi⟩
    have hi := ((changes_iff (by simp only [List.length_replicate]; decide) i).1 hc).1
    simp only [List.length_replicate, BLOCK] at hi hp' hpi
    omega
  · rintro i hc ⟨p, hp, hp', hpi⟩
    have hi := ((changes_iff (by simp only [List.length_replicate]; decide) i).1 hc).1
    simp only [List.length_replicate, BLOCK] at hi hp' hpi
    omega

/-- Of writes to two neighbouring sectors of one block the first can be lost. -/
theorem neighbouring_sectors_lose_update :
    ¬ NoLostUpdate (blankDisk 4096 (by decide)) (fun _ => none) (List.replicate 4096 0)
      0 (List.replicate 512 1) 512 (List.replicate 512 2) := by
  have hserves := blankDisk_serves 4096 (by decide)
  have hlen := hserves.length_eq
  rw [List.length_replicate] at hlen
  intro hno
  have hu := undisturbed_of_noLostUpdate hserves (Holds.empty hserves.length_eq)
    (by rw [← hlen, List.length_replicate]; decide) (by rw [← hlen, List.length_replicate]; decide)
    (.inl (Nat.le_of_eq (by rw [List.length_replicate]))) hno
  refine hu.1 0 ?_ ⟨512, by decide, by rw [List.length_replicate]; decide, by decide⟩
  rw [changes_iff (by simp only [List.length_replicate]; decide)]
  simp only [List.length_replicate, List.getElem?_replicate]
  decide

end XBoot.Volume
