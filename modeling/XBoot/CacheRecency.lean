import XBoot.CacheReads
import XBoot.SequentialCalls

/-!
# Which blocks a sequential reader finds cached

Reads that follow one another touch one block after the other, and between two touches the
cached blocks are the ones touched last, as many as fit the budget. A block that exceeds the
budget, or that the master fails to read, is never cached.
-/

namespace XBoot.Cache

open ListSlices Storage Resumptions LruCaches Volume

variable {L : Lru ℕ (List UInt8)} {m : BackingStore} {budget : ℕ}

def cached (s : CacheState L) : List ℕ := (L.entries s.lru.cache).map (·.1)

def cacheable (m : BackingStore) (budget blk : ℕ) : Bool :=
  blockBytes m blk ≤ budget && (m.readAt (blk * BLOCK) (blockBytes m blk)).isOk

/-- A touch of a block begins with its lookup. -/
def touchOf : Op → Option ℕ
  | .lookup blk _ _ => some blk
  | _ => none

def touched (past : List (Op × CacheState L)) : List ℕ := past.filterMap fun step => touchOf step.1

/-- The touches that found their block cached. -/
def hitTouches (past : List (Op × CacheState L)) : List ℕ :=
  past.filterMap fun step => (touchOf step.1).filter fun blk => blk ∈ cached step.2

def missTouches (past : List (Op × CacheState L)) : List ℕ :=
  past.filterMap fun step => (touchOf step.1).filter fun blk => blk ∉ cached step.2

def BetweenTouches (p : CacheProgram) : Prop :=
  ∀ op next, p = .call op next → (touchOf op).isSome

/-- The cached blocks are those touched last, and the counters count the touches. -/
structure Recent (m : BackingStore) (budget : ℕ) (past : List (Op × CacheState L))
    (s : CacheState L) : Prop where
  keys : ∃ k, cached s = (recent ((touched past).filter (cacheable m budget))).take k
  last : ∀ blk, (touched past).getLast? = some blk → cacheable m budget blk = true → blk ∈ cached s
  hits : s.hits = UInt64.ofNat (hitTouches past).length
  misses : s.misses = UInt64.ofNat (missTouches past).length
  counted : s.hits + s.misses = UInt64.ofNat (touched past).length

/-- A step takes nothing out of the cache, or it is an insertion behind which the blocks go
that were touched the longest time ago, while the budget is exceeded. -/
inductive EvictsOldest (m : BackingStore) (budget : ℕ) (past : List (Op × CacheState L))
    (s s' : CacheState L) : Op → Prop where
  | keeps {op : Op} (h : (L.entries s'.lru.cache).Perm (L.entries s.lru.cache)) :
      EvictsOldest m budget past s s' op
  | inserts {blk : ℕ} {data : List UInt8}
      (hrecent : blk :: (cached s).filter (· ≠ blk) <+:
        recent ((touched past).filter (cacheable m budget)))
      (hevicts : Evicts budget ((blk, data) :: without (L.entries s.lru.cache) blk)
        (L.entries s'.lru.cache)) : EvictsOldest m budget past s s' (.insert blk data)

/-- How far a touch has come. -/
inductive Phase where
  | between
  | found
  | missed (blk : ℕ)
  | reading (blk : ℕ)
  | inserting (blk : ℕ) (data : List UInt8)

def allowed (m : BackingStore) : Phase → Op → Prop
  | .between, .lookup blk within take => within + take ≤ blockBytes m blk
  | .found, .hit => True
  | .missed _, .miss => True
  | .reading blk, .readInner offset len =>
    offset = blk * BLOCK ∧ len = blockBytes m blk ∧ blk * BLOCK ≤ m.sizeBytes
  | .inserting blk data, .insert blk' data' => blk' = blk ∧ data' = data
  | _, _ => False

def after (m : BackingStore) (budget : ℕ) (phase : Phase) (op : Op) (r : Answer op) : Phase :=
  match phase, op, r with
  | _, .lookup _ _ _, some _ => .found
  | _, .lookup blk _ _, none => .missed blk
  | .missed blk, .miss, _ => .reading blk
  | .reading blk, .readInner _ _, .ok full =>
    if blockBytes m blk ≤ budget then .inserting blk full else .between
  | _, _, _ => .between

variable {past : List (Op × CacheState L)} {s s' : CacheState L} {op : Op} {blk : ℕ}

@[simp] theorem touched_append (past : List (Op × CacheState L)) (op : Op) (s : CacheState L) :
    touched (past ++ [(op, s)]) = touched past ++ (touchOf op).toList := by
  simp only [touched, List.filterMap_append, List.filterMap_cons, List.filterMap_nil]
  cases touchOf op <;> rfl

/-- Every touch finds its block cached or does not. -/
theorem length_touches (past : List (Op × CacheState L)) :
    (hitTouches past).length + (missTouches past).length = (touched past).length := by
  induction past with
  | nil => rfl
  | cons step past ih =>
    rw [hitTouches, missTouches, touched] at ih ⊢
    cases htouch : touchOf step.1 with
    | none => simpa [htouch] using ih
    | some blk =>
      by_cases hmem : blk ∈ cached step.2
      · simp only [List.filterMap_cons, htouch, Option.filter_some, decide_eq_true hmem,
          decide_eq_false (not_not.2 hmem), if_true, Bool.false_eq_true, if_false, List.length_cons]
        omega
      · simp only [List.filterMap_cons, htouch, Option.filter_some, decide_eq_false hmem,
          decide_eq_true hmem, if_true, Bool.false_eq_true, if_false, List.length_cons]
        omega

/-- The cached blocks are the last of the touched ones, down to the last one. -/
structure Settled (m : BackingStore) (budget : ℕ) (past : List (Op × CacheState L))
    (s : CacheState L) : Prop where
  keys : cached s <+: recent ((touched past).filter (cacheable m budget))
  last : ∀ blk, (touched past).getLast? = some blk → cacheable m budget blk = true → blk ∈ cached s

/-- The last touch is that of `blk`, and the cached blocks are those from before it. -/
def Awaiting (m : BackingStore) (budget blk : ℕ) (past : List (Op × CacheState L))
    (s : CacheState L) : Prop :=
  ∃ earlier, touched past = earlier ++ [blk] ∧
    cached s <+: recent (earlier.filter (cacheable m budget))

structure Tally (past : List (Op × CacheState L)) (s : CacheState L) (hits misses : UInt64) :
    Prop where
  hits : s.hits + hits = UInt64.ofNat (hitTouches past).length
  misses : s.misses + misses = UInt64.ofNat (missTouches past).length

def Holds (m : BackingStore) (budget : ℕ) (phase : Phase) (past : List (Op × CacheState L))
    (s : CacheState L) : Prop :=
  Sound m budget s ∧ match phase with
    | .between => Settled m budget past s ∧ Tally past s 0 0
    | .found => Settled m budget past s ∧ Tally past s 1 0
    | .missed blk => Awaiting m budget blk past s ∧ Tally past s 0 1
    | .reading blk => Awaiting m budget blk past s ∧ Tally past s 0 0
    | .inserting blk data => Awaiting m budget blk past s ∧ Tally past s 0 0 ∧
      IsBlock m blk data ∧ blockBytes m blk ≤ budget

@[simp] theorem hitTouches_append (past : List (Op × CacheState L)) (op : Op) (s : CacheState L) :
    hitTouches (past ++ [(op, s)]) =
      hitTouches past ++ ((touchOf op).filter fun blk => blk ∈ cached s).toList := by
  simp only [hitTouches, List.filterMap_append, List.filterMap_cons, List.filterMap_nil]
  cases (touchOf op).filter fun blk => decide (blk ∈ cached s) <;> rfl

@[simp] theorem missTouches_append (past : List (Op × CacheState L)) (op : Op) (s : CacheState L) :
    missTouches (past ++ [(op, s)]) =
      missTouches past ++ ((touchOf op).filter fun blk => blk ∉ cached s).toList := by
  simp only [missTouches, List.filterMap_append, List.filterMap_cons, List.filterMap_nil]
  cases (touchOf op).filter fun blk => decide (blk ∉ cached s) <;> rfl

theorem lookup_cached {within take : ℕ} {found : Option (List UInt8)}
    (h : s.lookup blk within take = .ok (found, s')) :
    (found.isSome ↔ blk ∈ cached s) ∧ L.entries s'.lru.cache = promote (L.entries s.lru.cache) blk ∧
      s'.hits = s.hits ∧ s'.misses = s.misses := by
  have hfound := L.get_fst s.lru.cache blk
  have hentries := L.get_snd s.lru.cache blk
  rw [cached, ← lookup_isSome, ← hfound]
  rw [CacheState.lookup] at h
  generalize L.get s.lru.cache blk = result at h hentries
  obtain ⟨block, cache⟩ := result
  cases block with
  | none =>
    cases h
    exact ⟨Iff.rfl, hentries, rfl, rfl⟩
  | some block =>
    simp only at h
    split at h
    · cases h
    · cases h
      exact ⟨by simp, hentries, rfl, rfl⟩

theorem IsBlock.cacheable {data : List UInt8} (h : IsBlock m blk data)
    (hfits : blockBytes m blk ≤ budget) : cacheable m budget blk = true := by
  rw [Cache.cacheable, h.2, Bool.and_eq_true, decide_eq_true_eq]
  exact ⟨hfits, rfl⟩

theorem Sound.cacheable (hs : Sound m budget s) (h : blk ∈ cached s) :
    cacheable m budget blk = true := by
  obtain ⟨⟨blk', v⟩, hmem, heq⟩ := List.mem_map.1 h
  simp only at heq
  subst heq
  have hblock := hs.blocks _ hmem
  have hle : v.length ≤ total (L.entries s.lru.cache) :=
    List.single_le_sum (by simp) _ (List.mem_map.2 ⟨_, hmem, rfl⟩)
  have hbytes := hs.accounted.bytes
  have hwithin := hs.within
  have hlength : v.length = blockBytes m blk' := hblock.length
  exact hblock.cacheable (by simp only; omega)

private theorem lookup_holds {within take : ℕ} {found : Option (List UInt8)}
    (htake : within + take ≤ blockBytes m blk) (hs : Holds m budget .between past s)
    (h : s.lookup blk within take = .ok (found, s')) :
    Holds m budget (if found.isSome then .found else .missed blk)
      (past ++ [(.lookup blk within take, s)]) s' := by
  obtain ⟨hsound, hsettled, htally⟩ := hs
  obtain ⟨hfound, hentries, hhits, hmisses⟩ := lookup_cached h
  obtain ⟨found', s'', hlookup, hsound', -⟩ := lookup_sound hsound htake
  cases h.symm.trans hlookup
  refine ⟨hsound', ?_⟩
  have htouches : touched (past ++ [(.lookup blk within take, s)]) = touched past ++ [blk] := by
    simp [touchOf]
  by_cases hmem : blk ∈ cached s
  · have hkept := hsound.cacheable hmem
    have hkeys : cached s' = blk :: (cached s).filter (· ≠ blk) := by
      rw [cached, hentries, keys_promote hmem]
      rfl
    rw [if_pos (hfound.2 hmem)]
    refine ⟨⟨?_, fun blk' hlast _ => ?_⟩, ⟨?_, ?_⟩⟩
    · rw [htouches, List.filter_append, List.filter_cons_of_pos hkept, List.filter_nil,
        recent_append, hkeys, List.cons_prefix_cons]
      exact ⟨rfl, hsettled.keys.filter _⟩
    · rw [htouches, List.getLast?_concat, Option.some_inj] at hlast
      rw [hkeys, ← hlast]
      exact List.mem_cons_self
    · have hcount := htally.hits
      simp only [touchOf, hitTouches_append, Option.filter_some, hmem, decide_true, if_true,
        Option.toList_some, List.length_append, List.length_singleton, UInt64.ofNat_add, hhits]
      rw [← hcount, UInt64.add_zero]
      rfl
    · have hcount := htally.misses
      simpa [touchOf, Option.filter_some, hmem, hmisses] using hcount
  · rw [if_neg fun hsome => hmem (hfound.1 hsome)]
    refine ⟨⟨touched past, htouches, ?_⟩, ⟨?_, ?_⟩⟩
    · have hnone : lookup (L.entries s.lru.cache) blk = none := by
        rwa [← Option.not_isSome_iff_eq_none, lookup_isSome]
      rw [cached, hentries, promote, hnone]
      exact hsettled.keys
    · have hcount := htally.hits
      simpa [touchOf, Option.filter_some, hmem, hhits] using hcount
    · have hcount := htally.misses
      simp only [touchOf, missTouches_append, Option.filter_some, hmem, not_false_eq_true,
        decide_true, if_true, Option.toList_some, List.length_append, List.length_singleton,
        UInt64.ofNat_add, hmisses]
      rw [← hcount, UInt64.add_zero]
      rfl

private theorem Awaiting.settled (h : Awaiting m budget blk past s)
    (hnot : cacheable m budget blk ≠ true) : Settled m budget past s := by
  obtain ⟨earlier, htouched, hkeys⟩ := h
  refine ⟨?_, fun blk' hlast hkept => ?_⟩
  · rwa [htouched, List.filter_append, List.filter_cons_of_neg hnot, List.filter_nil, List.append_nil]
  · rw [htouched, List.getLast?_concat, Option.some_inj] at hlast
    rw [← hlast] at hkept
    exact absurd hkept hnot

private theorem Awaiting.recent (h : Awaiting m budget blk past s)
    (hkept : cacheable m budget blk = true) :
    blk :: (cached s).filter (· ≠ blk) <+: recent ((touched past).filter (cacheable m budget)) := by
  obtain ⟨earlier, htouched, hkeys⟩ := h
  rw [htouched, List.filter_append, List.filter_cons_of_pos hkept, List.filter_nil, recent_append,
    List.cons_prefix_cons]
  exact ⟨rfl, hkeys.filter _⟩

private theorem insert_settled {data : List UInt8} (hsound : Sound m budget s)
    (hwait : Awaiting m budget blk past s) (hblock : IsBlock m blk data)
    (hfits : blockBytes m blk ≤ budget)
    (h : effects L m budget (.insert blk data) s = .ok ((), s')) :
    Sound m budget s' ∧ Settled m budget past s' ∧ s'.hits = s.hits ∧ s'.misses = s.misses ∧
      Evicts budget ((blk, data) :: without (L.entries s.lru.cache) blk) (L.entries s'.lru.cache) := by
  have hkept := hblock.cacheable hfits
  obtain ⟨s'', hinsert, hsound'⟩ := insert_sound hsound hblock
  cases h.symm.trans hinsert
  have hblocks : ∀ e ∈ (blk, data) :: without (L.entries s.lru.cache) blk, IsBlock m e.1 e.2 := by
    intro e he
    rcases List.mem_cons.1 he with rfl | he
    · exact hblock
    · exact hsound.blocks e (List.mem_of_mem_filter he)
  have hsize := total_le (hsound.accounted.keys.insert blk data) fun e he => (hblocks e he).length
  obtain ⟨lru, hlru, -, hevicts⟩ := insert_evicts budget hsound.accounted
    (Nat.lt_of_le_of_lt hsize m.sizeBytes_lt)
  simp only [effects, hlru] at h
  cases h
  have hkeys : cached ({ s with lru } : CacheState L) <+: blk :: (cached s).filter (· ≠ blk) := by
    rw [cached, cached, ← keys_without]
    exact hevicts.isPrefix.map _
  refine ⟨hsound', ⟨hkeys.trans (hwait.recent hkept), fun blk' hlast _ => ?_⟩, rfl, rfl, hevicts⟩
  obtain ⟨earlier, htouched, -⟩ := hwait
  rw [htouched, List.getLast?_concat, Option.some_inj] at hlast
  rw [← hlast]
  exact List.mem_map.2 ⟨_, hevicts.head_mem rfl (by rw [hblock.length]; exact hfits), rfl⟩

/-! A step that touches no block is no part of the history. -/

private theorem Settled.append (h : Settled m budget past s) (hop : touchOf op = none)
    (u : CacheState L) : Settled m budget (past ++ [(op, u)]) s where
  keys := by simpa [hop] using h.keys
  last := by simpa [hop] using h.last

private theorem Awaiting.append (h : Awaiting m budget blk past s) (hop : touchOf op = none)
    (u : CacheState L) : Awaiting m budget blk (past ++ [(op, u)]) s := by
  simpa [Awaiting, hop] using h

private theorem Tally.append {hits misses : UInt64} (h : Tally past s hits misses)
    (hop : touchOf op = none) (u : CacheState L) : Tally (past ++ [(op, u)]) s hits misses where
  hits := by simpa [hop] using h.hits
  misses := by simpa [hop] using h.misses

private theorem holds_step {phase : Phase} {r : Answer op} (hs : Holds m budget phase past s)
    (hop : allowed m phase op) (h : effects L m budget op s = .ok (r, s')) :
    Holds m budget (after m budget phase op r) (past ++ [(op, s)]) s' := by
  match phase, op with
  | .between, .lookup blk within take =>
    have hnext := lookup_holds hop hs h
    cases r with
    | none => exact hnext
    | some dst => exact hnext
  | .found, .hit =>
    obtain ⟨hsound, hsettled, htally⟩ := hs
    cases h
    have hsettled' := hsettled.append (rfl : touchOf .hit = none) s
    have htally' := htally.append (rfl : touchOf .hit = none) s
    exact ⟨⟨hsound.accounted, hsound.within, hsound.blocks⟩, ⟨hsettled'.keys, hsettled'.last⟩,
      ⟨(UInt64.add_zero _).trans htally'.hits, htally'.misses⟩⟩
  | .missed blk, .miss =>
    obtain ⟨hsound, hwait, htally⟩ := hs
    cases h
    have htally' := htally.append (rfl : touchOf .miss = none) s
    exact ⟨⟨hsound.accounted, hsound.within, hsound.blocks⟩, hwait.append (rfl : touchOf .miss = none) s,
      ⟨htally'.hits, (UInt64.add_zero _).trans htally'.misses⟩⟩
  | .reading blk, .readInner offset len =>
    obtain ⟨hsound, hwait, htally⟩ := hs
    obtain ⟨rfl, rfl, hle⟩ := hop
    have hop : touchOf (.readInner (blk * BLOCK) (blockBytes m blk)) = none := rfl
    have hwait' := hwait.append hop s
    have htally' := htally.append hop s
    cases hread : m.readAt (blk * BLOCK) (blockBytes m blk) with
    | error e =>
      rw [effects, hread] at h
      cases h
      refine ⟨hsound, hwait'.settled ?_, htally'⟩
      simp [cacheable, hread, Except.isOk, Except.toBool]
    | ok full =>
      rw [effects, hread] at h
      cases h
      rw [after]
      by_cases hfits : blockBytes m blk ≤ budget
      · rw [if_pos hfits]
        exact ⟨hsound, hwait', htally', ⟨hle, hread⟩, hfits⟩
      · rw [if_neg hfits]
        refine ⟨hsound, hwait'.settled ?_, htally'⟩
        simp [cacheable, hfits]
  | .inserting blk data, .insert blk' data' =>
    obtain ⟨hsound, hwait, htally, hblock, hfits⟩ := hs
    obtain ⟨rfl, rfl⟩ := hop
    obtain ⟨hsound', hsettled, hhits, hmisses, -⟩ := insert_settled hsound hwait hblock hfits h
    have hop : touchOf (.insert blk' data') = none := rfl
    have htally' := htally.append hop s
    exact ⟨hsound', hsettled.append hop s,
      ⟨by rw [hhits]; exact htally'.hits, by rw [hmisses]; exact htally'.misses⟩⟩

private theorem readPiece_follows {within blen take : ℕ} {next : List UInt8 → CacheProgram}
    (hblen : blockLen m blk = some blen) (htake : within + take ≤ blen)
    (hnext : ∀ dst, Follows (allowed m) (after m budget) .between (next dst) .between) :
    Follows (allowed m) (after m budget) .between (readPiece budget blk within blen take next)
      .between := by
  obtain ⟨hle, rfl⟩ := blockLen_some hblen
  refine ⟨htake, fun found => ?_⟩
  cases found with
  | some dst => exact ⟨trivial, fun _ => hnext dst⟩
  | none =>
    refine ⟨trivial, fun _ => ⟨⟨rfl, rfl, hle⟩, fun full => ?_⟩⟩
    cases full with
    | error e => exact rfl
    | ok full =>
      have hafter : after m budget (.reading blk) (.readInner (blk * BLOCK) (blockBytes m blk))
          (.ok full) = if blockBytes m blk ≤ budget then .inserting blk full else .between := rfl
      change Follows _ _ _ _ (after m budget (.reading blk) (.readInner _ _) (.ok full))
      rw [hafter]
      by_cases hfits : blockBytes m blk ≤ budget
      · simp only [if_pos hfits]
        exact ⟨⟨rfl, rfl⟩, fun _ => hnext _⟩
      · simp only [if_neg hfits]
        exact hnext _

theorem readLoop_follows (m : BackingStore) (budget len fuel pos : ℕ) (buf : List UInt8) :
    Follows (allowed m) (after m budget) .between (readLoop m budget len fuel pos buf) .between := by
  induction fuel generalizing pos buf with
  | zero => exact rfl
  | succ fuel ih =>
    rw [readLoop]
    by_cases hdone : len ≤ buf.length
    · rw [if_pos hdone]
      exact rfl
    · rw [if_neg hdone]
      cases hblen : blockLen m (pos / BLOCK) with
      | none => exact rfl
      | some blen =>
        by_cases hwithin : blen < pos % BLOCK
        · simp only [if_pos hwithin]
          exact rfl
        · simp only [if_neg hwithin]
          exact readPiece_follows hblen (by omega) fun dst => ih _ _

theorem holds_new (m : BackingStore) (budget : ℕ) :
    Holds m budget .between [] (CacheState.new L) := by
  have hempty : cached (CacheState.new L) = [] := by
    rw [cached, CacheState.new, L.entries_empty]
    rfl
  refine ⟨sound_new m budget, ⟨?_, fun blk hlast => ?_⟩, ⟨rfl, rfl⟩⟩
  · rw [hempty]
    exact List.nil_prefix
  · cases hlast

variable {p : CacheProgram}

/-- The reads that one caller makes, one after the other, from a new cache on. -/
abbrev Reads (m : BackingStore) (budget : ℕ) (past : List (Op × CacheState L)) (p : CacheProgram)
    (s : CacheState L) : Prop :=
  Performed (effects L m budget) (ReadCall.program m budget) (ReadCall.InRange m)
    (CacheState.new L) past p s

theorem Reads.holds (h : Reads m budget past p s) :
    ∃ phase, Follows (allowed m) (after m budget) .between p phase ∧ Holds m budget phase past s :=
  h.phase (holds_new m budget) (fun c _ => readLoop_follows m budget c.len c.len c.offset [])
    fun _ _ _ _ _ _ hs hop hstep => holds_step hs hop hstep

theorem Reads.recent (h : Reads m budget past p s) (hbetween : BetweenTouches p) :
    Recent m budget past s := by
  obtain ⟨phase, hfollows, hsound, hphase⟩ := h.holds
  have hrest : phase = .between := by
    cases p with
    | done a => exact hfollows
    | call op next =>
      have htouch := hbetween op next rfl
      have hallowed := hfollows.1
      cases op <;> cases phase <;> simp_all [touchOf, allowed]
  subst hrest
  obtain ⟨hsettled, htally⟩ := hphase
  have hhits := (UInt64.add_zero _).symm.trans htally.hits
  have hmisses := (UInt64.add_zero _).symm.trans htally.misses
  refine ⟨⟨_, List.prefix_iff_eq_take.1 hsettled.keys⟩, hsettled.last, hhits, hmisses, ?_⟩
  rw [hhits, hmisses, ← UInt64.ofNat_add, length_touches]

/-- No step evicts any other block than the one touched the longest time ago. -/
theorem Reads.evictsOldest {next : Answer op → CacheProgram} {r : Answer op}
    (h : Reads m budget past (.call op next) s) (hstep : effects L m budget op s = .ok (r, s')) :
    EvictsOldest m budget past s s' op := by
  obtain ⟨phase, ⟨hallowed, -⟩, hsound, hphase⟩ := h.holds
  match phase, op with
  | .between, .lookup blk within take =>
    obtain ⟨-, hentries, -⟩ := lookup_cached hstep
    exact .keeps (by rw [hentries]; exact perm_promote hsound.accounted.keys blk)
  | .found, .hit =>
    cases hstep
    exact .keeps (List.Perm.refl _)
  | .missed blk, .miss =>
    cases hstep
    exact .keeps (List.Perm.refl _)
  | .reading blk, .readInner offset len =>
    cases hstep
    exact .keeps (List.Perm.refl _)
  | .inserting blk data, .insert blk' data' =>
    obtain ⟨rfl, rfl⟩ := hallowed
    obtain ⟨hwait, -, hblock, hfits⟩ := hphase
    obtain ⟨-, -, -, -, hevicts⟩ := insert_settled hsound hwait hblock hfits hstep
    exact .inserts (hwait.recent (hblock.cacheable hfits)) hevicts

/-- At every point between two touches of any sequence of reads, the cached blocks are those
touched last, the last one among them, and every touch has been counted as what it was; each
touch began at such a point, and no step evicted any other block than the one touched the
longest time ago. -/
theorem reads_keep_recent_blocks (m : BackingStore) (budget : ℕ) (past : List (Op × CacheState L))
    (p : CacheProgram) (s : CacheState L) (h : Reads m budget past p s) :
    (BetweenTouches p → Recent m budget past s) ∧
      ∀ before op u later, past = before ++ (op, u) :: later →
        ((touchOf op).isSome → Recent m budget before u) ∧
        ∃ r u', effects L m budget op u = .ok (r, u') ∧ EvictsOldest m budget before u u' op := by
  refine ⟨h.recent, fun before op u later heq => ?_⟩
  obtain ⟨next, r, u', hearlier, hstep⟩ := h.earlier heq
  refine ⟨fun htouch => Reads.recent hearlier fun op' next' heq' => ?_, r, u', hstep,
    Reads.evictsOldest hearlier hstep⟩
  cases heq'
  exact htouch

/-- One block is touched twice, by two reads of one byte. -/
theorem reads_keep_recent_blocks_twice :
    ∃ (past : List (Op × CacheState (listLru ℕ (List UInt8)))) (p : CacheProgram)
      (s : CacheState (listLru ℕ (List UInt8))),
      Reads (blankDisk 2 (by decide)) 2 past p s ∧ touched past = [0, 0] ∧ s.hits = 1 ∧
        Recent (blankDisk 2 (by decide)) 2 past s := by
  have hfirst : (ReadCall.mk 0 1).InRange (blankDisk 2 (by decide)) := Nat.le_succ 1
  have hsecond : (ReadCall.mk 1 1).InRange (blankDisk 2 (by decide)) := Nat.le_refl 2
  have hnew : Reads (blankDisk 2 (by decide)) 2 [] (.done (.ok []))
      (CacheState.new (listLru ℕ (List UInt8))) := .idle _
  have hlookup : Reads (blankDisk 2 (by decide)) 2 [] (.call (.lookup 0 0 1) _)
      (CacheState.new (listLru ℕ (List UInt8))) := hnew.call hfirst
  have hmiss := hlookup.step (r := none) rfl
  have hread := hmiss.step rfl
  have hinsert := hread.step rfl
  have hdone : Reads (blankDisk 2 (by decide)) 2 _ (.done (.ok [0])) _ := hinsert.step rfl
  have hagain : Reads (blankDisk 2 (by decide)) 2 _ (.call (.lookup 0 1 1) _) _ := hdone.call hsecond
  have hhit := hagain.step (r := some [0]) rfl
  have hend : Reads (blankDisk 2 (by decide)) 2 _ (.done (.ok [0])) _ := hhit.step rfl
  refine ⟨_, _, _, hend, rfl, rfl, (reads_keep_recent_blocks _ _ _ _ _ hend).1 ?_⟩
  intro op next hcall
  cases hcall

end XBoot.Cache
