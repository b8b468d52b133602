import XBoot.CachedStore

/-!
# What the readers of a shared block cache return

The cache never shows: every read returns what the same loop returns when it reads each
block from the master, whatever the other readers do between two of its steps. The
invariant is that every cached block is the master's, and that the byte count is what the
blocks hold and within the budget.
-/

namespace XBoot.Cache

open ListSlices Storage Resumptions LruCaches Volume

def blockBytes (m : BackingStore) (blk : ℕ) : ℕ := min BLOCK (m.sizeBytes - blk * BLOCK)

theorem sum_blockBytes (m : BackingStore) (n : ℕ) :
    ∑ blk ∈ Finset.range n, blockBytes m blk = min (n * BLOCK) m.sizeBytes := by
  induction n with
  | zero => simp
  | succ n ih =>
    rw [Finset.sum_range_succ, ih, blockBytes, Nat.add_mul, Nat.one_mul]
    omega

/-- Distinct blocks of the master have no more bytes than the master. -/
theorem total_le {m : BackingStore} {entries : List (ℕ × List UInt8)} (hkeys : KeysNodup entries)
    (hlen : ∀ e ∈ entries, e.2.length = blockBytes m e.1) : total entries ≤ m.sizeBytes := by
  have hmap : entries.map (·.2.length) = (entries.map (·.1)).map (blockBytes m) := by
    rw [List.map_map]
    exact List.map_congr_left hlen
  obtain ⟨n, hn⟩ := (entries.map (·.1)).toFinset.exists_nat_subset_range
  calc total entries = ((entries.map (·.1)).map (blockBytes m)).sum := by rw [total, hmap]
    _ = ∑ blk ∈ (entries.map (·.1)).toFinset, blockBytes m blk := (List.sum_toFinset _ hkeys).symm
    _ ≤ ∑ blk ∈ Finset.range n, blockBytes m blk := Finset.sum_le_sum_of_subset hn
    _ = min (n * BLOCK) m.sizeBytes := sum_blockBytes m n
    _ ≤ m.sizeBytes := Nat.min_le_right _ _

/-- Block `blk` of the master begins inside it and reads as `v`. -/
def IsBlock (m : BackingStore) (blk : ℕ) (v : List UInt8) : Prop :=
  blk * BLOCK ≤ m.sizeBytes ∧ m.readAt (blk * BLOCK) (blockBytes m blk) = .ok v

theorem IsBlock.length {m : BackingStore} {blk : ℕ} {v : List UInt8} (h : IsBlock m blk v) :
    v.length = blockBytes m blk :=
  m.length_readAt h.2

variable {L : Lru ℕ (List UInt8)} {m : BackingStore} {budget : ℕ}

structure Sound (m : BackingStore) (budget : ℕ) (s : CacheState L) : Prop where
  accounted : s.lru.Accounted
  within : s.lru.currentBytes ≤ budget
  blocks : ∀ e ∈ L.entries s.lru.cache, IsBlock m e.1 e.2

theorem sound_new (m : BackingStore) (budget : ℕ) : Sound m budget (CacheState.new L) := by
  have hempty : L.entries (CacheState.new L).lru.cache = [] := L.entries_empty
  refine ⟨⟨?_, ?_⟩, Nat.zero_le _, ?_⟩ <;> rw [hempty]
  · exact List.nodup_nil
  · exact total_nil.symm
  · nofun

theorem lookup_sound {s : CacheState L} {blk within take : ℕ} (hs : Sound m budget s)
    (htake : within + take ≤ blockBytes m blk) :
    ∃ found s', s.lookup blk within take = .ok (found, s') ∧ Sound m budget s' ∧
      ∀ dst, found = some dst → ∃ v, IsBlock m blk v ∧ dst = slice v within take := by
  have hfound := L.get_fst s.lru.cache blk
  have hentries := L.get_snd s.lru.cache blk
  have hblock : ∀ v, lookup (L.entries s.lru.cache) blk = some v → IsBlock m blk v :=
    fun v hv => hs.blocks (blk, v) (lookup_eq_some hv)
  rw [CacheState.lookup]
  generalize L.get s.lru.cache blk = result at hfound hentries
  obtain ⟨found, cache⟩ := result
  simp only at hfound hentries
  have hperm : (L.entries cache).Perm (L.entries s.lru.cache) := by
    rw [hentries]
    exact perm_promote hs.accounted.keys blk
  have hsound : Sound m budget { s with lru.cache := cache } :=
    ⟨⟨hs.accounted.keys.perm hperm, by rw [hs.accounted.bytes, total_perm hperm]⟩, hs.within,
      fun e he => hs.blocks e (hperm.mem_iff.1 he)⟩
  cases found with
  | none => exact ⟨none, _, rfl, hsound, fun dst hdst => absurd hdst.symm (Option.some_ne_none dst)⟩
  | some v =>
    have hv := hblock v hfound.symm
    have hlen := hv.length
    exact ⟨some (slice v within take), _, if_neg (by omega), hsound,
      fun dst hdst => ⟨v, hv, (Option.some.inj hdst).symm⟩⟩

theorem insert_sound {s : CacheState L} {blk : ℕ} {data : List UInt8} (hs : Sound m budget s)
    (hdata : IsBlock m blk data) :
    ∃ s', effects L m budget (.insert blk data) s = .ok ((), s') ∧ Sound m budget s' := by
  have hblocks : ∀ e ∈ (blk, data) :: without (L.entries s.lru.cache) blk, IsBlock m e.1 e.2 := by
    intro e he
    rcases List.mem_cons.1 he with rfl | he
    · exact hdata
    · exact hs.blocks e (List.mem_of_mem_filter he)
  have hfit := total_le (hs.accounted.keys.insert blk data) fun e he => (hblocks e he).length
  obtain ⟨lru, hinsert, haccounted, hwithin, hfront⟩ := insert_spec budget hs.accounted
    (Nat.lt_of_le_of_lt hfit m.sizeBytes_lt)
  refine ⟨{ s with lru }, by simp only [effects, hinsert], haccounted, hwithin, fun e he => ?_⟩
  exact hblocks e (hfront.subset he)

/-- The loop of `read_at` when every block is read from the master. -/
def blockwise (m : BackingStore) (len : ℕ) : ℕ → ℕ → List UInt8 → Outcome (List UInt8)
  | 0, _, buf => if len ≤ buf.length then .ok buf else .error .hang
  | fuel + 1, pos, buf =>
    if len ≤ buf.length then .ok buf
    else
      match blockLen m (pos / BLOCK) with
      | none => .error .panic
      | some blen =>
        if blen < pos % BLOCK then .error .panic
        else
          let take := min (blen - pos % BLOCK) (len - buf.length)
          match m.readAt (pos / BLOCK * BLOCK) blen with
          | .error e => .error e
          | .ok full => blockwise m len fuel (pos + take) (buf ++ slice full (pos % BLOCK) take)

theorem blockLen_some {blk blen : ℕ} (h : blockLen m blk = some blen) :
    blk * BLOCK ≤ m.sizeBytes ∧ blen = blockBytes m blk := by
  rw [blockLen] at h
  split at h
  · cases h
  · cases h
    exact ⟨by omega, rfl⟩

private theorem readPiece_safe {blk within blen take : ℕ} {next : List UInt8 → CacheProgram}
    {rest : List UInt8 → Outcome (List UInt8)} (hblen : blockLen m blk = some blen)
    (htake : within + take ≤ blen)
    (hnext : ∀ dst, Safe (effects L m budget) (Sound m budget) (· = rest dst) (next dst)) :
    Safe (effects L m budget) (Sound m budget)
      (· = match m.readAt (blk * BLOCK) blen with
        | .error e => .error e
        | .ok full => rest (slice full within take))
      (readPiece budget blk within blen take next) := by
  obtain ⟨hle, rfl⟩ := blockLen_some hblen
  intro s hs
  obtain ⟨found, s', hlookup, hs', hfound⟩ := lookup_sound hs htake
  refine ⟨found, s', hlookup, hs', ?_⟩
  cases found with
  | some dst =>
    obtain ⟨v, hv, rfl⟩ := hfound dst rfl
    rw [hv.2]
    intro t ht
    exact ⟨(), _, rfl, ⟨ht.accounted, ht.within, ht.blocks⟩, hnext _⟩
  | none =>
    intro t ht
    refine ⟨(), _, rfl, ⟨ht.accounted, ht.within, ht.blocks⟩, fun u hu => ?_⟩
    refine ⟨m.readAt (blk * BLOCK) (blockBytes m blk), u, rfl, hu, ?_⟩
    cases hread : m.readAt (blk * BLOCK) (blockBytes m blk) with
    | error e => exact rfl
    | ok full =>
      by_cases hfits : blockBytes m blk ≤ budget
      · simp only [if_pos hfits]
        intro w hw
        obtain ⟨w', hinsert, hw'⟩ := insert_sound hw ⟨hle, hread⟩
        exact ⟨(), w', hinsert, hw', hnext _⟩
      · simp only [if_neg hfits]
        exact hnext _

/-- A read returns what it returns without a cache, whatever happens between its steps. -/
theorem readLoop_safe (m : BackingStore) (budget len fuel pos : ℕ) (buf : List UInt8) :
    Safe (effects L m budget) (Sound m budget) (· = blockwise m len fuel pos buf)
      (readLoop m budget len fuel pos buf) := by
  induction fuel generalizing pos buf with
  | zero => exact rfl
  | succ fuel ih =>
    rw [readLoop, blockwise]
    by_cases hdone : len ≤ buf.length
    · rw [if_pos hdone, if_pos hdone]
      exact rfl
    · rw [if_neg hdone, if_neg hdone]
      cases hblen : blockLen m (pos / BLOCK) with
      | none => exact rfl
      | some blen =>
        by_cases hwithin : blen < pos % BLOCK
        · simp only [if_pos hwithin]
          exact rfl
        · simp only [if_neg hwithin]
          exact readPiece_safe hblen (by omega) fun dst => ih _ _

/-- The blocks of the master make up the range. -/
theorem blockwise_eq_append {content : List UInt8} (hm : m.Serves content) {len fuel pos : ℕ}
    {buf : List UInt8} (hfuel : len ≤ buf.length + fuel)
    (hrange : pos + (len - buf.length) ≤ m.sizeBytes) :
    blockwise m len fuel pos buf = .ok (buf ++ slice content pos (len - buf.length)) := by
  induction fuel generalizing pos buf with
  | zero =>
    rw [blockwise, if_pos (by omega), show len - buf.length = 0 by omega, slice_zero,
      List.append_nil]
  | succ fuel ih =>
    by_cases hdone : len ≤ buf.length
    · rw [blockwise, if_pos hdone, show len - buf.length = 0 by omega, slice_zero, List.append_nil]
    · have hround := round_of_range (by omega) hrange
      have hlen := blockLen_of_round hround
      obtain ⟨hposition, hwithin, hblen, hle, htake, hremaining, hinside, -⟩ := hround
      set blen := min BLOCK (m.sizeBytes - pos / BLOCK * BLOCK)
      set take := min (blen - pos % BLOCK) (len - buf.length) with htakeEq
      have hpiece : slice (slice content (pos / BLOCK * BLOCK) blen) (pos % BLOCK) take =
          slice content pos take := by
        rw [slice_slice _ _ _ _ _ hinside, hposition]
      have hpieceLen : (slice content pos take).length = take :=
        length_slice (by have := hm.length_eq; omega)
      have hrest := @ih (pos + take) (buf ++ slice content pos take)
        (by rw [List.length_append, hpieceLen]; omega)
        (by rw [List.length_append, hpieceLen]; omega)
      rw [blockwise, if_neg hdone, hlen]
      simp only [if_neg (Nat.not_lt_of_lt hwithin), hm.readAt_eq hle, ← htakeEq]
      rw [hpiece, hrest, List.length_append, hpieceLen, List.append_assoc, slice_append_slice,
        show take + (len - (buf.length + take)) = len - buf.length by omega]

structure ReadCall where
  offset : ℕ
  len : ℕ
  deriving DecidableEq, Repr

def ReadCall.InRange (m : BackingStore) (c : ReadCall) : Prop := c.offset + c.len ≤ m.sizeBytes

def ReadCall.program (m : BackingStore) (budget : ℕ) (c : ReadCall) : CacheProgram :=
  readAt m budget c.offset c.len

theorem program_safe {content : List UInt8} (hm : m.Serves content) {c : ReadCall}
    (hc : c.InRange m) :
    Safe (effects L m budget) (Sound m budget) (· = .ok (slice content c.offset c.len))
      (c.program m budget) := by
  have hsafe := readLoop_safe (L := L) m budget c.len c.len c.offset []
  rwa [blockwise_eq_append hm (by simp) hc] at hsafe

/-- Any number of readers under any schedule: the cache holds blocks of the master within
the budget, no step of a reader panics, and every reader gets the bytes of the master. -/
theorem readers_get_master_bytes {content : List UInt8} (hm : m.Serves content)
    {calls : List (ReadCall × CacheProgram)} {s : CacheState L}
    (h : Serving (effects L m budget) (ReadCall.program m budget) (ReadCall.InRange m)
      (CacheState.new L) calls s) :
    (∀ e ∈ L.entries s.lru.cache, e.1 * BLOCK ≤ m.sizeBytes ∧
      e.2 = slice content (e.1 * BLOCK) (min BLOCK (m.sizeBytes - e.1 * BLOCK)) ∧
      e.2.length = min BLOCK (m.sizeBytes - e.1 * BLOCK)) ∧
    s.lru.currentBytes = total (L.entries s.lru.cache) ∧ s.lru.currentBytes ≤ budget ∧
    (∀ c ∈ calls, ∀ op next, c.2 = .call op next → ∃ r s', effects L m budget op s = .ok (r, s')) ∧
    (∀ c ∈ calls, ∀ r, c.2 = .done r → r = .ok (slice content c.1.offset c.1.len)) ∧
    ∀ c ∈ calls, ∃ s', c.2.run (effects L m budget) s =
      .ok (.ok (slice content c.1.offset c.1.len), s') := by
  obtain ⟨hsound, hcalls⟩ := h.safe (sound_new m budget) fun c hc => program_safe hm hc
  refine ⟨fun e he => ?_, hsound.accounted.bytes, hsound.within, fun c hc op next hop => ?_,
    fun c hc r hr => ?_, fun c hc => ?_⟩
  · have hblock := hsound.blocks e he
    have hinside : e.1 * BLOCK + blockBytes m e.1 ≤ m.sizeBytes := by
      have hfirst := hblock.1
      rw [blockBytes]
      omega
    have hread := hm.readAt_eq hinside
    exact ⟨hblock.1, Except.ok.inj (hblock.2.symm.trans hread), hblock.length⟩
  · have hsafe := hcalls c hc
    rw [hop] at hsafe
    obtain ⟨r, s', hstep, -⟩ := hsafe s hsound
    exact ⟨r, s', hstep⟩
  · have hsafe := hcalls c hc
    rw [hr] at hsafe
    exact hsafe
  · obtain ⟨r, s', hrun, rfl, -⟩ := (hcalls c hc).run hsound
    exact ⟨s', hrun⟩

/-- A disk of ten bytes, which are one short block. -/
def tenBytes : BackingStore := rawFile [0, 1, 2, 3, 4, 5, 6, 7, 8, 9] (by decide)

/-- Two readers look the block up before either of them has cached it, and cache it one after the
other; both get the bytes that they asked for. -/
theorem two_readers_get_short_block :
    ∃ (calls : List (ReadCall × CacheProgram)) (s : CacheState (listLru ℕ (List UInt8))),
      Serving (effects (listLru ℕ (List UInt8)) tenBytes 16) (ReadCall.program tenBytes 16)
        (ReadCall.InRange tenBytes) (CacheState.new (listLru ℕ (List UInt8))) calls s ∧
      calls.map (·.1) = [⟨0, 10⟩, ⟨4, 5⟩] ∧ s.misses = 2 ∧ s.lru.currentBytes = 10 ∧
      ∀ c ∈ calls, ∃ s', c.2.run (effects (listLru ℕ (List UInt8)) tenBytes 16) s =
        .ok (.ok (slice [0, 1, 2, 3, 4, 5, 6, 7, 8, 9] c.1.offset c.1.len), s') := by
  have hfirst : (ReadCall.mk 0 10).InRange tenBytes := Nat.le_refl 10
  have hsecond : (ReadCall.mk 4 5).InRange tenBytes := Nat.le_succ 9
  have hstarted : Serving (effects (listLru ℕ (List UInt8)) tenBytes 16)
      (ReadCall.program tenBytes 16) (ReadCall.InRange tenBytes)
      (CacheState.new (listLru ℕ (List UInt8))) _ _ :=
    (Serving.idle.start hfirst).start hsecond
  have hlookup := (hstarted.turn (i := 0) rfl rfl).turn (i := 1) rfl rfl
  have hmiss := (hlookup.turn (i := 0) rfl rfl).turn (i := 1) rfl rfl
  have hread := (hmiss.turn (i := 1) rfl rfl).turn (i := 0) rfl rfl
  have hinsert := (hread.turn (i := 0) rfl rfl).turn (i := 1) rfl rfl
  obtain ⟨-, -, -, -, -, hall⟩ := readers_get_master_bytes (rawFile_serves _ _) hinsert
  exact ⟨_, _, hinsert, rfl, rfl, rfl, hall⟩

end XBoot.Cache
