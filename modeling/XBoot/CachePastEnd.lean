import XBoot.CacheReads

/-!
# Which reads a cached store answers as the store under it does

`CachedStore::read_at` has no range check of its own: it asks the master for whole
blocks, cut at the end. A read that starts past the end underflows, and one that runs
past the end from a readable block goes on for ever, taking no bytes.
-/

namespace XBoot.Cache

open ListSlices Storage Resumptions LruCaches Volume

/-- A store whose reads return, with an error when they leave the image. -/
structure Returns (m : BackingStore) : Prop where
  beyond {offset len : ℕ} : m.sizeBytes < offset + len → ∃ e, m.readAt offset len = .error (.io e)
  fails {offset len : ℕ} {f : Failure} : m.readAt offset len = .error f → ∃ e, f = .io e

theorem rawFile_returns (file : List UInt8) (h : file.length < 2 ^ 64) :
    Returns (rawFile file h) where
  beyond {offset len} hlt := by
    obtain ⟨msg, herror⟩ := checkReadRange_error hlt
    exact ⟨.invalidData msg, by simp only [rawFile] at herror ⊢; rw [herror, invalidData]⟩
  fails {offset len f} hf := by
    simp only [rawFile, checkReadRange, readExactAt] at hf
    split at hf
    · rename_i hrange
      cases hf
      split at hrange
      · cases hrange
        exact ⟨_, rfl⟩
      · split at hrange
        · cases hrange
          exact ⟨_, rfl⟩
        · cases hrange
    · split at hf
      · cases hf
      · split at hf
        · cases hf
        · cases hf
          exact ⟨_, rfl⟩

/-- The whole of block `blk` can be read. -/
def Readable (m : BackingStore) (blk : ℕ) : Prop :=
  (m.readAt (blk * BLOCK) (blockBytes m blk)).isOk

/-- The blocks that a read of `len` bytes at `offset` asks for, if none of them fails; one
of them may begin at the end of the image. -/
def Touches (m : BackingStore) (offset len blk : ℕ) : Prop :=
  offset / BLOCK ≤ blk ∧ blk * BLOCK < offset + len ∧ blk * BLOCK ≤ m.sizeBytes

/-- A read of no bytes agrees when the store accepts it; any other one when it does not
start past the end and the store reads the range exactly if it reads the touched blocks. -/
def Agrees (m : BackingStore) (offset len : ℕ) : Prop :=
  (len = 0 ∧ (m.readAt offset 0).isOk) ∨
  (0 < len ∧ offset ≤ m.sizeBytes ∧
    ((m.readAt offset len).isOk ↔ ∀ blk, Touches m offset len blk → Readable m blk))

/-- With enough rounds the read returns, neither aborted nor stuck, and it returns `Ok`
exactly when the store under the cache does. -/
def Faithful {L : Lru ℕ (List UInt8)} (m : BackingStore) (budget : ℕ) (s : CacheState L)
    (offset len : ℕ) : Prop :=
  ∃ fuel r s', (readLoop m budget len fuel offset []).run (effects L m budget) s = .ok (r, s') ∧
    r ≠ .error .panic ∧ r ≠ .error .hang ∧ (r.isOk ↔ (m.readAt offset len).isOk)

variable {m : BackingStore} {len fuel pos : ℕ} {buf : List UInt8}

/-- How far a round goes from `pos`. -/
private def advance (m : BackingStore) (pos rem : ℕ) : ℕ :=
  min (blockBytes m (pos / BLOCK) - pos % BLOCK) rem

private theorem advance_le (rem : ℕ) (hpos : pos ≤ m.sizeBytes) :
    pos + advance m pos rem ≤ m.sizeBytes ∧ advance m pos rem ≤ rem := by
  have hdiv : pos / BLOCK * BLOCK + pos % BLOCK = pos := Nat.div_add_mod' pos BLOCK
  have hmod : pos % BLOCK < BLOCK := Nat.mod_lt pos (by decide)
  rw [advance, blockBytes]
  omega

private theorem advance_pos {rem : ℕ} (hpos : pos < m.sizeBytes) (hrem : 0 < rem) :
    0 < advance m pos rem := by
  have hdiv : pos / BLOCK * BLOCK + pos % BLOCK = pos := Nat.div_add_mod' pos BLOCK
  have hmod : pos % BLOCK < BLOCK := Nat.mod_lt pos (by decide)
  rw [advance, blockBytes]
  omega

private theorem Touches.of_step {rem blk : ℕ} (hpos : pos ≤ m.sizeBytes)
    (h : Touches m (pos + advance m pos rem) (rem - advance m pos rem) blk) : Touches m pos rem blk := by
  obtain ⟨hfirst, hlast, hsize⟩ := h
  have hle := (advance_le rem hpos).2
  exact ⟨Nat.le_trans (Nat.div_le_div_right (Nat.le_add_right _ _)) hfirst, by omega, hsize⟩

private theorem Touches.step {rem blk : ℕ} (hpos : pos ≤ m.sizeBytes)
    (h : Touches m pos rem blk) (hblk : blk ≠ pos / BLOCK) :
    Touches m (pos + advance m pos rem) (rem - advance m pos rem) blk ∧ 0 < rem - advance m pos rem := by
  obtain ⟨hfirst, hlast, hsize⟩ := h
  have hdiv : pos / BLOCK * BLOCK + pos % BLOCK = pos := Nat.div_add_mod' pos BLOCK
  have hmod : pos % BLOCK < BLOCK := Nat.mod_lt pos (by decide)
  have hnext : (pos / BLOCK + 1) * BLOCK ≤ blk * BLOCK := Nat.mul_le_mul_right _ (by omega)
  rw [Nat.add_mul, Nat.one_mul] at hnext
  have hle := (advance_le rem hpos).2
  have hreach : pos + advance m pos rem ≤ blk * BLOCK := by
    rw [advance, blockBytes]
    omega
  exact ⟨⟨Nat.div_le_of_le_mul (by rw [Nat.mul_comm]; exact hreach), by omega, hsize⟩, by omega⟩

private theorem first_touched {rem : ℕ} (hpos : pos ≤ m.sizeBytes) (hrem : 0 < rem) :
    Touches m pos rem (pos / BLOCK) := by
  have hdiv : pos / BLOCK * BLOCK ≤ pos := Nat.div_mul_le_self pos BLOCK
  exact ⟨Nat.le_refl _, by omega, by omega⟩

private theorem blockwise_round (fuel : ℕ) (hpos : pos ≤ m.sizeBytes) (hbuf : buf.length < len) :
    (¬ Readable m (pos / BLOCK) ∧ ∃ e, m.readAt (pos / BLOCK * BLOCK) (blockBytes m (pos / BLOCK)) =
      .error e ∧ blockwise m len (fuel + 1) pos buf = .error e) ∨
    (Readable m (pos / BLOCK) ∧ ∃ dst, dst.length = advance m pos (len - buf.length) ∧
      blockwise m len (fuel + 1) pos buf =
        blockwise m len fuel (pos + advance m pos (len - buf.length)) (buf ++ dst)) := by
  have hdiv : pos / BLOCK * BLOCK + pos % BLOCK = pos := Nat.div_add_mod' pos BLOCK
  have hmod : pos % BLOCK < BLOCK := Nat.mod_lt pos (by decide)
  have hlen : blockLen m (pos / BLOCK) = some (blockBytes m (pos / BLOCK)) := by
    rw [blockLen, if_neg (by omega), blockBytes]
  have hwithin : ¬ blockBytes m (pos / BLOCK) < pos % BLOCK := by
    rw [blockBytes]
    omega
  rw [blockwise, if_neg (by omega), hlen, Readable]
  simp only [if_neg hwithin]
  cases hread : m.readAt (pos / BLOCK * BLOCK) (blockBytes m (pos / BLOCK)) with
  | error e => exact .inl ⟨Bool.false_ne_true, e, rfl, rfl⟩
  | ok full =>
    refine .inr ⟨rfl, _, ?_, rfl⟩
    have hfull := m.length_readAt hread
    exact length_slice (by omega)

/-- A read that starts past the end never returns bytes or an error. -/
theorem blockwise_past_end (fuel : ℕ) (buf : List UInt8) (hpos : m.sizeBytes < pos)
    (hbuf : buf.length < len) :
    blockwise m len fuel pos buf = .error .hang ∨ blockwise m len fuel pos buf = .error .panic := by
  cases fuel with
  | zero => exact .inl (if_neg (by omega))
  | succ fuel =>
    right
    have hdiv : pos / BLOCK * BLOCK + pos % BLOCK = pos := Nat.div_add_mod' pos BLOCK
    rw [blockwise, if_neg (by omega)]
    cases hlen : blockLen m (pos / BLOCK) with
    | none => rfl
    | some blen =>
      obtain ⟨hle, rfl⟩ := blockLen_some hlen
      refine if_pos ?_
      rw [blockBytes]
      omega

/-- A read of readable blocks inside the image succeeds. -/
theorem blockwise_inside (fuel : ℕ) (buf : List UInt8)
    (hrange : pos + (len - buf.length) ≤ m.sizeBytes)
    (hblocks : ∀ blk, Touches m pos (len - buf.length) blk → Readable m blk) :
    (fuel < len - buf.length ∧ blockwise m len fuel pos buf = .error .hang) ∨
      ∃ out, blockwise m len fuel pos buf = .ok out := by
  induction fuel generalizing pos buf with
  | zero =>
    by_cases hdone : len ≤ buf.length
    · exact .inr ⟨buf, if_pos hdone⟩
    · exact .inl ⟨by omega, if_neg hdone⟩
  | succ fuel ih =>
    by_cases hdone : len ≤ buf.length
    · exact .inr ⟨buf, if_pos hdone⟩
    · have hbuf := Nat.lt_of_not_le hdone
      have hpos : pos ≤ m.sizeBytes := by omega
      have hinside : pos < m.sizeBytes := by omega
      have hprogress := advance_pos hinside (Nat.sub_pos_of_lt hbuf)
      have hstep := advance_le (len - buf.length) hpos
      obtain ⟨hfail, -⟩ | ⟨-, dst, hdst, hround⟩ :=
        blockwise_round fuel hpos hbuf
      · exact absurd (hblocks _ (first_touched hpos (by omega))) hfail
      · have hrest : len - (buf ++ dst).length = len - buf.length - advance m pos (len - buf.length) := by
          rw [List.length_append, hdst]
          omega
        rw [hround]
        have hih := @ih (pos + advance m pos (len - buf.length)) (buf ++ dst)
          (by rw [hrest]; omega) (by rw [hrest]; exact fun blk h => hblocks blk (h.of_step hpos))
        rw [hrest] at hih
        exact hih.imp_left fun h => ⟨by omega, h.2⟩

/-- A read of readable blocks that runs past the end of the image never returns. -/
theorem blockwise_over_end (hpos : pos ≤ m.sizeBytes)
    (hover : m.sizeBytes < pos + (len - buf.length))
    (hblocks : ∀ blk, Touches m pos (len - buf.length) blk → Readable m blk) :
    blockwise m len fuel pos buf = .error .hang := by
  induction fuel generalizing pos buf with
  | zero => exact if_neg (by omega)
  | succ fuel ih =>
    have hbuf : buf.length < len := by omega
    have hstep := advance_le (len - buf.length) hpos
    obtain ⟨hfail, -⟩ | ⟨-, dst, hdst, hround⟩ :=
      blockwise_round fuel hpos hbuf
    · exact absurd (hblocks _ (first_touched hpos (by omega))) hfail
    · have hrest : len - (buf ++ dst).length = len - buf.length - advance m pos (len - buf.length) := by
        rw [List.length_append, hdst]
        omega
      rw [hround]
      apply ih hstep.1
      · rw [hrest]
        omega
      · rw [hrest]
        exact fun blk h => hblocks blk (h.of_step hpos)

/-- A read that touches a block that cannot be read fails with the error of such a block. -/
theorem blockwise_fails (fuel : ℕ) (buf : List UInt8) (hm : Returns m) (hpos : pos ≤ m.sizeBytes)
    {blk : ℕ} (hrem : 0 < len - buf.length) (htouch : Touches m pos (len - buf.length) blk)
    (hblk : ¬ Readable m blk) :
    (fuel < len - buf.length ∧ blockwise m len fuel pos buf = .error .hang) ∨
      ∃ e, blockwise m len fuel pos buf = .error (.io e) := by
  induction fuel generalizing pos buf with
  | zero => exact .inl ⟨hrem, if_neg (by omega)⟩
  | succ fuel ih =>
    have hbuf : buf.length < len := by omega
    obtain ⟨-, e, hread, hround⟩ | ⟨hfirst, dst, hdst, hround⟩ :=
      blockwise_round fuel hpos hbuf
    · obtain ⟨e, rfl⟩ := hm.fails hread
      exact .inr ⟨e, hround⟩
    · have hne : blk ≠ pos / BLOCK := fun heq => hblk (heq ▸ hfirst)
      obtain ⟨htouch', hrem'⟩ := htouch.step hpos hne
      have hstep := advance_le (len - buf.length) hpos
      have hrest : len - (buf ++ dst).length = len - buf.length - advance m pos (len - buf.length) := by
        rw [List.length_append, hdst]
        omega
      rw [hround]
      have hih := @ih (pos + advance m pos (len - buf.length)) (buf ++ dst) hstep.1
        (by rw [hrest]; exact hrem') (by rw [hrest]; exact htouch')
      rw [hrest] at hih
      have hbefore : pos < blk * BLOCK :=
        (Nat.div_lt_iff_lt_mul (by decide)).1 (Nat.lt_of_le_of_ne htouch.1 hne.symm)
      have hprogress := advance_pos (m := m) (Nat.lt_of_lt_of_le hbefore htouch.2.2) hrem
      exact hih.imp_left fun h => ⟨by omega, h.2⟩

variable {L : Lru ℕ (List UInt8)} {budget offset : ℕ} {s : CacheState L}

theorem faithful_iff_blockwise (hs : Sound m budget s) :
    Faithful m budget s offset len ↔ ∃ fuel, blockwise m len fuel offset [] ≠ .error .panic ∧
      blockwise m len fuel offset [] ≠ .error .hang ∧
      ((blockwise m len fuel offset []).isOk ↔ (m.readAt offset len).isOk) := by
  constructor
  · rintro ⟨fuel, r, s', hrun, hends⟩
    obtain ⟨a, t, hrun', rfl, -⟩ := (readLoop_safe m budget len fuel offset []).run hs
    cases hrun.symm.trans hrun'
    exact ⟨fuel, hends⟩
  · rintro ⟨fuel, hends⟩
    obtain ⟨a, t, hrun, rfl, -⟩ := (readLoop_safe m budget len fuel offset []).run hs
    exact ⟨fuel, _, t, hrun, hends⟩

theorem not_faithful_past_end (hs : Sound m budget s) (hoffset : m.sizeBytes < offset)
    (hlen : 0 < len) : ¬ Faithful m budget s offset len := by
  rw [faithful_iff_blockwise hs]
  rintro ⟨fuel, hpanic, hhang, -⟩
  rcases blockwise_past_end fuel [] hoffset hlen with h | h
  · exact hhang h
  · exact hpanic h

theorem not_faithful_over_end (hs : Sound m budget s) (hoffset : offset ≤ m.sizeBytes)
    (hover : m.sizeBytes < offset + len)
    (hblocks : ∀ blk, Touches m offset len blk → Readable m blk) :
    ¬ Faithful m budget s offset len := by
  rw [faithful_iff_blockwise hs]
  rintro ⟨fuel, -, hhang, -⟩
  exact hhang (blockwise_over_end hoffset hover hblocks)

theorem faithful_nil (hs : Sound m budget s) :
    Faithful m budget s offset 0 ↔ (m.readAt offset 0).isOk := by
  have hdone : ∀ fuel, blockwise m 0 fuel offset [] = .ok [] := by
    intro fuel
    cases fuel <;> rfl
  rw [faithful_iff_blockwise hs]
  constructor
  · rintro ⟨fuel, -, -, hok⟩
    exact hok.1 (by rw [hdone]; rfl)
  · intro hok
    exact ⟨0, nofun, nofun, ⟨fun _ => hok, fun _ => rfl⟩⟩

theorem faithful_inside (hs : Sound m budget s) (hrange : offset + len ≤ m.sizeBytes)
    (hblocks : ∀ blk, Touches m offset len blk → Readable m blk) :
    Faithful m budget s offset len ↔ (m.readAt offset len).isOk := by
  have hreturns : ∀ fuel, (fuel < len ∧ blockwise m len fuel offset [] = .error .hang) ∨
      ∃ out, blockwise m len fuel offset [] = .ok out :=
    fun fuel => blockwise_inside fuel [] hrange hblocks
  rw [faithful_iff_blockwise hs]
  constructor
  · rintro ⟨fuel, -, hhang, hok⟩
    rcases hreturns fuel with ⟨-, h⟩ | ⟨out, h⟩
    · exact absurd h hhang
    · exact hok.1 (by rw [h]; rfl)
  · intro hok
    rcases hreturns len with ⟨hlt, -⟩ | ⟨out, h⟩
    · exact absurd hlt (Nat.lt_irrefl _)
    · refine ⟨len, ?_⟩
      rw [h]
      exact ⟨nofun, nofun, fun _ => hok, fun _ => rfl⟩

theorem faithful_of_unreadable (hm : Returns m) (hs : Sound m budget s)
    (hoffset : offset ≤ m.sizeBytes) (hlen : 0 < len) {blk : ℕ} (htouch : Touches m offset len blk)
    (hblk : ¬ Readable m blk) :
    Faithful m budget s offset len ↔ ¬ (m.readAt offset len).isOk := by
  have hreturns : ∀ fuel, (fuel < len ∧ blockwise m len fuel offset [] = .error .hang) ∨
      ∃ e, blockwise m len fuel offset [] = .error (.io e) :=
    fun fuel => blockwise_fails fuel [] hm hoffset hlen htouch hblk
  rw [faithful_iff_blockwise hs]
  constructor
  · rintro ⟨fuel, -, hhang, hok⟩ hinner
    rcases hreturns fuel with ⟨-, h⟩ | ⟨e, h⟩
    · exact hhang h
    · have herror := hok.2 hinner
      rw [h] at herror
      exact Bool.false_ne_true herror
  · intro hinner
    rcases hreturns len with ⟨hlt, -⟩ | ⟨e, h⟩
    · exact absurd hlt (Nat.lt_irrefl _)
    · refine ⟨len, ?_⟩
      rw [h]
      exact ⟨nofun, nofun, fun h => absurd h Bool.false_ne_true, fun h => absurd h hinner⟩

theorem Touches.readable {content : List UInt8} (hc : m.Serves content) {blk : ℕ}
    (h : Touches m offset len blk) : Readable m blk := by
  have hinside : blk * BLOCK + blockBytes m blk ≤ m.sizeBytes := by
    have hfirst := h.2.2
    rw [blockBytes]
    omega
  have hread := hc.readAt_eq hinside
  rw [Readable, hread]
  rfl

theorem agrees_iff_in_range {content : List UInt8} (hm : Returns m) (hc : m.Serves content) :
    Agrees m offset len ↔ offset + len ≤ m.sizeBytes := by
  have hblocks : ∀ blk, Touches m offset len blk → Readable m blk := fun blk h => h.readable hc
  have hok : ∀ n, (m.readAt offset n).isOk ↔ offset + n ≤ m.sizeBytes := by
    intro n
    rcases Nat.lt_or_ge m.sizeBytes (offset + n) with hover | hrange
    · obtain ⟨e, he⟩ := hm.beyond hover
      rw [he]
      exact ⟨fun h => absurd h Bool.false_ne_true, fun h => by omega⟩
    · rw [hc.readAt_eq hrange]
      exact ⟨fun _ => hrange, fun _ => rfl⟩
  rw [Agrees, iff_true_right hblocks, hok, hok]
  omega

/-- After any reads, the cached store answers a read as its master does exactly when the
master's answer and the blocks the read touches agree. -/
theorem faithful_iff_agrees (hm : Returns m) {calls : List (ReadCall × CacheProgram)}
    (h : Serving (effects L m budget) (ReadCall.program m budget) (fun _ => True)
      (CacheState.new L) calls s) (offset len : ℕ) :
    Faithful m budget s offset len ↔ Agrees m offset len := by
  have hprogram : ∀ c : ReadCall, True → Safe (effects L m budget) (Sound m budget)
      (· = blockwise m c.len c.len c.offset []) (c.program m budget) :=
    fun c _ => readLoop_safe m budget c.len c.len c.offset []
  have hs : Sound m budget s := (h.safe (sound_new m budget) hprogram).1
  rw [Agrees]
  rcases Nat.eq_zero_or_pos len with rfl | hlen
  · rw [faithful_nil hs]
    exact ⟨fun hok => .inl ⟨rfl, hok⟩, fun hag => hag.elim (·.2) fun h => absurd h.1 (Nat.lt_irrefl _)⟩
  · have hpos : (len = 0 ∧ (m.readAt offset 0).isOk) ↔ False :=
      ⟨fun h => absurd h.1 (by omega), False.elim⟩
    rw [hpos, false_or, and_iff_right hlen]
    rcases Nat.lt_or_ge m.sizeBytes offset with hpast | hoffset
    · exact ⟨fun hf => absurd hf (not_faithful_past_end hs hpast hlen), fun h => by omega⟩
    · rw [and_iff_right hoffset]
      by_cases hblocks : ∀ blk, Touches m offset len blk → Readable m blk
      · rw [iff_true_right hblocks]
        rcases Nat.lt_or_ge m.sizeBytes (offset + len) with hover | hrange
        · obtain ⟨e, he⟩ := hm.beyond hover
          refine ⟨fun hf => absurd hf (not_faithful_over_end hs hoffset hover hblocks), fun hok => ?_⟩
          rw [he] at hok
          exact absurd hok Bool.false_ne_true
        · exact faithful_inside hs hrange hblocks
      · rw [iff_false_right hblocks]
        push Not at hblocks
        obtain ⟨blk, htouch, hblk⟩ := hblocks
        exact faithful_of_unreadable hm hs hoffset hlen htouch hblk

theorem first_byte_faithful :
    Faithful (blankDisk 4096 (by decide)) 4096 (CacheState.new (listLru ℕ (List UInt8))) 0 1 := by
  have hm : Returns (blankDisk 4096 (by decide)) := rawFile_returns _ _
  have hsize : (blankDisk 4096 (by decide)).sizeBytes = 4096 := List.length_replicate
  have hagrees : Agrees (blankDisk 4096 (by decide)) 0 1 :=
    (agrees_iff_in_range hm (blankDisk_serves 4096 (by decide))).2 (by rw [hsize]; decide)
  exact (faithful_iff_agrees hm .idle 0 1).2 hagrees

/-- A read at the end of a one-block image goes on for ever. -/
theorem read_at_end_not_faithful :
    ¬ ∀ m : BackingStore, Returns m → ∀ budget offset len : ℕ,
      Faithful m budget (CacheState.new (listLru ℕ (List UInt8))) offset len := by
  intro hall
  have hsize : (blankDisk 4096 (by decide)).sizeBytes = 4096 := List.length_replicate
  refine not_faithful_over_end (sound_new _ 4096) (Nat.le_of_eq hsize.symm)
    (by rw [hsize]; decide) ?_ (hall _ (rawFile_returns _ _) 4096 4096 1)
  exact fun blk htouch => htouch.readable (blankDisk_serves 4096 (by decide))

end XBoot.Cache
