import XBoot.Volume
import XBoot.LruCaches
import XBoot.ProgramPools
import Mathlib.Algebra.BigOperators.Group.List.Basic
import Mathlib.Algebra.Order.BigOperators.Group.Finset

/-!
# The shared block cache over a read-only master

`CachedStore::read_at` is a program over the atomic steps it takes: the locked lookup and
copy, the locked insertion with its evictions, the two counters, and reads of the master,
which happen with the lock released. The cache itself is any cache with recency.
-/

namespace XBoot.Cache

open ListSlices Storage Resumptions LruCaches Volume

def total (entries : List (ℕ × List UInt8)) : ℕ := (entries.map (·.2.length)).sum

/-- Cache contents plus byte accounting, guarded together by one lock. -/
structure LruState (L : Lru ℕ (List UInt8)) where
  cache : L.Cache
  currentBytes : ℕ

/-- What all readers of a `CachedStore` share. -/
structure CacheState (L : Lru ℕ (List UInt8)) where
  lru : LruState L
  hits : UInt64
  misses : UInt64

variable {L : Lru ℕ (List UInt8)}

def CacheState.new (L : Lru ℕ (List UInt8)) : CacheState L := ⟨⟨L.empty, 0⟩, 0, 0⟩

/-- The eviction loop of `insert`. -/
def LruState.evict (budget : ℕ) : ℕ → LruState L → Outcome (LruState L)
  | 0, s => if s.currentBytes ≤ budget then .ok s else .error .hang
  | fuel + 1, s =>
    if s.currentBytes ≤ budget then .ok s
    else match L.popLru s.cache with
      | (some (_, v), cache) =>
        if s.currentBytes < v.length then .error .panic
        else LruState.evict budget fuel ⟨cache, s.currentBytes - v.length⟩
      | (none, cache) => .ok ⟨cache, s.currentBytes⟩

def freed : Option (List UInt8) → ℕ
  | some old => old.length
  | none => 0

/-- `LruState::insert`: the fuel is the number of entries, each round evicts one. -/
def LruState.insert (s : LruState L) (blk : ℕ) (data : List UInt8) (budget : ℕ) :
    Outcome (LruState L) :=
  let (old, cache) := L.put s.cache blk data
  if s.currentBytes < freed old then .error .panic
  else if 2 ^ 64 ≤ s.currentBytes - freed old + data.length then .error .panic
  else LruState.evict budget (L.entries cache).length
    ⟨cache, s.currentBytes - freed old + data.length⟩

inductive Op where
  | lookup (blk within take : ℕ)
  | hit
  | miss
  | readInner (offset len : ℕ)
  | insert (blk : ℕ) (data : List UInt8)

def Answer : Op → Type
  | .lookup _ _ _ => Option (List UInt8)
  | .hit => Unit
  | .miss => Unit
  | .readInner _ _ => Outcome (List UInt8)
  | .insert _ _ => Unit

/-- The locked lookup: a hit promotes the block and copies the piece asked for. -/
def CacheState.lookup (s : CacheState L) (blk within take : ℕ) :
    Outcome (Option (List UInt8) × CacheState L) :=
  let (found, cache) := L.get s.lru.cache blk
  let s' := { s with lru.cache := cache }
  match found with
  | none => .ok (none, s')
  | some block =>
    if block.length < within + take then .error .panic
    else .ok (some (slice block within take), s')

/-- The atomic steps of the readers of the master `m`. -/
def effects (L : Lru ℕ (List UInt8)) (m : BackingStore) (budget : ℕ) :
    Effects Op Answer (CacheState L) Failure
  | .lookup blk within take, s => s.lookup blk within take
  | .hit, s => .ok ((), { s with hits := s.hits + 1 })
  | .miss, s => .ok ((), { s with misses := s.misses + 1 })
  | .readInner offset len, s => .ok (m.readAt offset len, s)
  | .insert blk data, s => match s.lru.insert blk data budget with
    | .ok lru => .ok ((), { s with lru })
    | .error e => .error e

abbrev CacheProgram := Program Op Answer (Outcome (List UInt8))

/-- The piece of a block that a round of `read_at` takes: from the cache, or else from a
read of the full block, which is cached when it fits the budget. -/
def readPiece (budget blk within blen take : ℕ) (next : List UInt8 → CacheProgram) : CacheProgram :=
  .call (.lookup blk within take) fun
    | some dst => .call .hit fun _ => next dst
    | none => .call .miss fun _ => .call (.readInner (blk * BLOCK) blen) fun
      | .error e => .done (.error e)
      | .ok full =>
        if blen ≤ budget then .call (.insert blk full) fun _ => next (slice full within take)
        else next (slice full within take)

/-- The loop of `read_at`: `buf` holds the bytes already done. -/
def readLoop (m : BackingStore) (budget len : ℕ) : ℕ → ℕ → List UInt8 → CacheProgram
  | 0, _, buf => .done (if len ≤ buf.length then .ok buf else .error .hang)
  | fuel + 1, pos, buf =>
    if len ≤ buf.length then .done (.ok buf)
    else
      match blockLen m (pos / BLOCK) with
      | none => .done (.error .panic)
      | some blen =>
        if blen < pos % BLOCK then .done (.error .panic)
        else
          let take := min (blen - pos % BLOCK) (len - buf.length)
          readPiece budget (pos / BLOCK) (pos % BLOCK) blen take fun dst =>
            readLoop m budget len fuel (pos + take) (buf ++ dst)

/-- `CachedStore::read_at` of `len` bytes. -/
def readAt (m : BackingStore) (budget offset len : ℕ) : CacheProgram :=
  readLoop m budget len len offset []

@[simp] theorem total_nil : total [] = 0 := rfl

@[simp] theorem total_cons (k : ℕ) (v : List UInt8) (entries : List (ℕ × List UInt8)) :
    total ((k, v) :: entries) = v.length + total entries := by
  simp [total]

theorem total_append (front back : List (ℕ × List UInt8)) :
    total (front ++ back) = total front + total back := by
  simp [total]

theorem total_perm {entries entries' : List (ℕ × List UInt8)} (h : entries.Perm entries') :
    total entries = total entries' :=
  (h.map _).sum_eq

theorem total_without {entries : List (ℕ × List UInt8)} (h : KeysNodup entries) (k : ℕ) :
    total entries = freed (lookup entries k) + total (without entries k) := by
  cases hv : lookup entries k with
  | none => rw [lookup_eq_none hv, freed, Nat.zero_add]
  | some v => rw [total_perm (perm_without h hv), total_cons, freed]

structure LruState.Accounted (s : LruState L) : Prop where
  keys : KeysNodup (L.entries s.cache)
  bytes : s.currentBytes = total (L.entries s.cache)

private theorem evict_round {s : LruState L} {budget : ℕ} (fuel : ℕ) (hs : s.Accounted)
    (hover : budget < s.currentBytes) :
    ∃ s' : LruState L, LruState.evict budget (fuel + 1) s = LruState.evict budget fuel s' ∧
      s'.Accounted ∧ L.entries s'.cache = (L.entries s.cache).dropLast ∧
      (L.entries s.cache).length = (L.entries s'.cache).length + 1 := by
  have hne : L.entries s.cache ≠ [] := by
    intro hnil
    have hbytes := hs.bytes
    rw [hnil, total_nil] at hbytes
    omega
  obtain ⟨⟨k, v⟩, hlast⟩ : ∃ entry, (L.entries s.cache).getLast hne = entry := ⟨_, rfl⟩
  have hsplit : L.entries s.cache = (L.entries s.cache).dropLast ++ [(k, v)] := by
    rw [← hlast, List.dropLast_append_getLast]
  have hbytes : s.currentBytes = total (L.entries s.cache).dropLast + v.length := by
    rw [hs.bytes, hsplit, total_append]
    simp
  have hpop : (L.popLru s.cache).1 = some (k, v) := by
    rw [L.popLru_fst, List.getLast?_eq_some_getLast hne, hlast]
  refine ⟨⟨(L.popLru s.cache).2, s.currentBytes - v.length⟩, ?_, ⟨?_, ?_⟩, L.popLru_snd _, ?_⟩
  · rw [LruState.evict, if_neg (by omega)]
    generalize L.popLru s.cache = popped at hpop
    obtain ⟨found, cache⟩ := popped
    simp only at hpop
    subst hpop
    exact if_neg (by omega)
  · rw [L.popLru_snd]
    exact hs.keys.sublist ((List.dropLast_sublist _).map _)
  · rw [L.popLru_snd]
    simp only
    omega
  · rw [L.popLru_snd, hsplit]
    simp

/-- Entries go from the back, one at a time, each because the rest and it exceed the budget. -/
inductive Evicts (budget : ℕ) :
    List (ℕ × List UInt8) → List (ℕ × List UInt8) → Prop where
  | done {entries : List (ℕ × List UInt8)} (hfits : total entries ≤ budget) :
      Evicts budget entries entries
  | pop {front kept : List (ℕ × List UInt8)} {last : ℕ × List UInt8}
      (hover : budget < total (front ++ [last])) (hrest : Evicts budget front kept) :
      Evicts budget (front ++ [last]) kept

namespace Evicts

variable {budget : ℕ} {entries kept : List (ℕ × List UInt8)}

theorem total_le (h : Evicts budget entries kept) : total kept ≤ budget := by
  induction h with
  | done hfits => exact hfits
  | pop _ _ ih => exact ih

theorem isPrefix (h : Evicts budget entries kept) : kept <+: entries := by
  induction h with
  | done => exact List.prefix_rfl
  | pop _ _ ih => exact ih.trans (List.prefix_append _ _)

/-- The first entry stays when it fits the budget. -/
theorem head_mem {first : ℕ × List UInt8} {rest : List (ℕ × List UInt8)}
    (h : Evicts budget entries kept) (heq : entries = first :: rest)
    (hfits : first.2.length ≤ budget) : first ∈ kept := by
  induction h generalizing rest with
  | done => simp [heq]
  | @pop front kept last hover _ ih =>
    cases front with
    | nil =>
      rw [List.nil_append] at heq
      obtain ⟨rfl, -⟩ := List.cons.inj heq
      simp only [List.nil_append, total, List.map_cons, List.map_nil, List.sum_cons, List.sum_nil]
        at hover
      omega
    | cons entry front =>
      obtain ⟨rfl, -⟩ := List.cons.inj heq
      exact ih rfl

end Evicts

theorem evict_evicts {s : LruState L} {budget fuel : ℕ} (hs : s.Accounted)
    (hfuel : (L.entries s.cache).length ≤ fuel) :
    ∃ s' : LruState L, LruState.evict budget fuel s = .ok s' ∧ s'.Accounted ∧
      Evicts budget (L.entries s.cache) (L.entries s'.cache) := by
  induction fuel generalizing s with
  | zero =>
    have hnil : L.entries s.cache = [] := List.length_eq_zero_iff.1 (by omega)
    have hzero : s.currentBytes = 0 := by rw [hs.bytes, hnil, total_nil]
    exact ⟨s, if_pos (by omega), hs, .done (by rw [← hs.bytes]; omega)⟩
  | succ fuel ih =>
    rcases Nat.lt_or_ge budget s.currentBytes with hover | hle
    · obtain ⟨s', hround, hs', hentries, hlength⟩ := evict_round fuel hs hover
      obtain ⟨t, hrun, ht, hevicts⟩ := ih hs' (by omega)
      have hne : L.entries s.cache ≠ [] := by
        intro hnil
        rw [hnil, List.length_nil] at hlength
        omega
      have hsplit := List.dropLast_append_getLast hne
      refine ⟨t, by rw [hround, hrun], ht, ?_⟩
      rw [← hsplit, ← hentries]
      exact .pop (by rw [hentries, hsplit, ← hs.bytes]; exact hover) hevicts
    · exact ⟨s, by rw [LruState.evict, if_pos hle], hs, .done (by rw [← hs.bytes]; exact hle)⟩

theorem insert_evicts {s : LruState L} {blk : ℕ} {data : List UInt8} (budget : ℕ) (hs : s.Accounted)
    (hfit : total ((blk, data) :: without (L.entries s.cache) blk) < 2 ^ 64) :
    ∃ s' : LruState L, s.insert blk data budget = .ok s' ∧ s'.Accounted ∧
      Evicts budget ((blk, data) :: without (L.entries s.cache) blk) (L.entries s'.cache) := by
  have hold := L.put_fst s.cache blk data
  have hentries := L.put_snd s.cache blk data
  have hsplit := total_without hs.keys blk
  rw [← hs.bytes, ← hold] at hsplit
  rw [total_cons] at hfit
  rw [LruState.insert]
  generalize L.put s.cache blk data = result at hold hentries hsplit
  obtain ⟨old, cache⟩ := result
  simp only at hold hentries hsplit ⊢
  have hs' : LruState.Accounted (⟨cache, s.currentBytes - freed old + data.length⟩ : LruState L) := by
    constructor
    · rw [hentries]
      exact hs.keys.insert blk data
    · rw [hentries, total_cons]
      simp only
      omega
  rw [if_neg (by omega), if_neg (by omega), ← hentries]
  exact evict_evicts hs' (Nat.le_refl _)

/-- An insertion keeps the accounts and the budget, whatever was cached under the key. -/
theorem insert_spec {s : LruState L} {blk : ℕ} {data : List UInt8} (budget : ℕ) (hs : s.Accounted)
    (hfit : total ((blk, data) :: without (L.entries s.cache) blk) < 2 ^ 64) :
    ∃ s' : LruState L, s.insert blk data budget = .ok s' ∧ s'.Accounted ∧
      s'.currentBytes ≤ budget ∧
      L.entries s'.cache <+: (blk, data) :: without (L.entries s.cache) blk := by
  obtain ⟨s', hinsert, hs', hevicts⟩ := insert_evicts budget hs hfit
  exact ⟨s', hinsert, hs', by rw [hs'.bytes]; exact hevicts.total_le, hevicts.isPrefix⟩

end XBoot.Cache
