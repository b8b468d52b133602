import Mathlib.Data.List.Dedup
import Mathlib.Data.List.Nodup
import Mathlib.Tactic.Common

/-!
# Least-recently-used caches

What a cache must do that is used as a map with recency: it shows its entries, the most
recently used one first; a lookup and an insertion move an entry to the front, and the
last entry is the one to evict.
-/

namespace XBoot.LruCaches

variable {κ α : Type} [DecidableEq κ]

def lookup (entries : List (κ × α)) (k : κ) : Option α :=
  (entries.find? fun entry => entry.1 = k).map (·.2)

def without (entries : List (κ × α)) (k : κ) : List (κ × α) :=
  entries.filter fun entry => entry.1 ≠ k

/-- The entries after a use of `k`. -/
def promote (entries : List (κ × α)) (k : κ) : List (κ × α) :=
  match lookup entries k with
  | none => entries
  | some v => (k, v) :: without entries k

/-- A cache with recency, by its entries. -/
structure Lru (κ α : Type) [DecidableEq κ] where
  Cache : Type
  entries : Cache → List (κ × α)
  empty : Cache
  get : Cache → κ → Option α × Cache
  put : Cache → κ → α → Option α × Cache
  popLru : Cache → Option (κ × α) × Cache
  entries_empty : entries empty = []
  get_fst (c : Cache) (k : κ) : (get c k).1 = lookup (entries c) k
  get_snd (c : Cache) (k : κ) : entries (get c k).2 = promote (entries c) k
  put_fst (c : Cache) (k : κ) (v : α) : (put c k v).1 = lookup (entries c) k
  put_snd (c : Cache) (k : κ) (v : α) : entries (put c k v).2 = (k, v) :: without (entries c) k
  popLru_fst (c : Cache) : (popLru c).1 = (entries c).getLast?
  popLru_snd (c : Cache) : entries (popLru c).2 = (entries c).dropLast

/-- The cache that is the list of its entries. -/
def listLru (κ α : Type) [DecidableEq κ] : Lru κ α where
  Cache := List (κ × α)
  entries := id
  empty := []
  get c k := (lookup c k, promote c k)
  put c k v := (lookup c k, (k, v) :: without c k)
  popLru c := (c.getLast?, c.dropLast)
  entries_empty := rfl
  get_fst _ _ := rfl
  get_snd _ _ := rfl
  put_fst _ _ _ := rfl
  put_snd _ _ _ := rfl
  popLru_fst _ := rfl
  popLru_snd _ := rfl

/-- No key has two entries. -/
def KeysNodup (entries : List (κ × α)) : Prop := (entries.map (·.1)).Nodup

variable {entries : List (κ × α)} {k : κ} {v : α}

theorem lookup_eq_some (h : lookup entries k = some v) : (k, v) ∈ entries := by
  obtain ⟨⟨k', v'⟩, hfind, rfl⟩ := Option.map_eq_some_iff.1 h
  have hkey := List.find?_some hfind
  simp only [decide_eq_true_eq] at hkey
  exact hkey ▸ List.mem_of_find?_eq_some hfind

theorem lookup_eq_none (h : lookup entries k = none) : without entries k = entries := by
  rw [without, List.filter_eq_self]
  intro entry hentry
  rw [lookup, Option.map_eq_none_iff, List.find?_eq_none] at h
  simpa using h entry hentry

theorem not_mem_without (entries : List (κ × α)) (k : κ) : k ∉ (without entries k).map (·.1) := by
  simp [without]

theorem KeysNodup.without (h : KeysNodup entries) (k : κ) : KeysNodup (without entries k) :=
  h.sublist (List.filter_sublist.map _)

theorem KeysNodup.insert (h : KeysNodup entries) (k : κ) (v : α) :
    KeysNodup ((k, v) :: LruCaches.without entries k) :=
  List.nodup_cons.2 ⟨not_mem_without entries k, h.without k⟩

theorem perm_without (h : KeysNodup entries) (hv : lookup entries k = some v) :
    entries.Perm ((k, v) :: without entries k) := by
  induction entries with
  | nil => cases hv
  | cons entry entries ih =>
    obtain ⟨k', v'⟩ := entry
    obtain ⟨hnot, hrest⟩ := List.nodup_cons.1 h
    by_cases hk : k' = k
    · subst hk
      have hv' : v' = v := by simpa [lookup] using hv
      subst hv'
      have hnone : without entries k' = entries := by
        rw [without, List.filter_eq_self]
        intro entry hentry
        have hne : entry.1 ≠ k' := fun heq => hnot (List.mem_map.2 ⟨entry, hentry, heq⟩)
        simpa using hne
      have hfilter : without ((k', v') :: entries) k' = entries := by
        rw [← hnone]
        simp [without]
      rw [hfilter]
    · have hrest' : lookup entries k = some v := by simpa [lookup, hk] using hv
      have hperm := (ih hrest hrest').cons (k', v')
      have hfilter : without ((k', v') :: entries) k = (k', v') :: without entries k := by
        simp [without, hk]
      rw [hfilter]
      exact hperm.trans (List.Perm.swap ..)

theorem perm_promote (h : KeysNodup entries) (k : κ) : (promote entries k).Perm entries := by
  rw [promote]
  cases hv : lookup entries k with
  | none => exact List.Perm.refl _
  | some v => exact (perm_without h hv).symm

omit [DecidableEq κ] in
theorem KeysNodup.perm {entries' : List (κ × α)} (h : KeysNodup entries)
    (hperm : entries'.Perm entries) : KeysNodup entries' :=
  (hperm.map _).nodup_iff.2 h

/-- The distinct keys of a history of uses, the one used last in front. -/
def recent (uses : List κ) : List κ := uses.dedup.reverse

private theorem dedup_append_singleton (uses : List κ) (k : κ) :
    (uses ++ [k]).dedup = uses.dedup.filter (· ≠ k) ++ [k] := by
  induction uses with
  | nil => simp
  | cons k' uses ih =>
    by_cases hk : k' = k
    · subst hk
      have hfilter : (k' :: uses).dedup.filter (· ≠ k') = uses.dedup.filter (· ≠ k') := by
        rw [List.dedup_cons]
        split <;> simp
      rw [List.cons_append, List.dedup_cons_of_mem (by simp), ih, hfilter]
    · by_cases hmem : k' ∈ uses
      · rw [List.cons_append, List.dedup_cons_of_mem (by simp [hmem]), ih,
          List.dedup_cons_of_mem hmem]
      · rw [List.cons_append, List.dedup_cons_of_notMem (by simp [hmem, hk]), ih,
          List.dedup_cons_of_notMem hmem]
        simp [hk]

theorem recent_append (uses : List κ) (k : κ) :
    recent (uses ++ [k]) = k :: (recent uses).filter (· ≠ k) := by
  rw [recent, dedup_append_singleton, List.reverse_append, recent, List.filter_reverse]
  rfl

theorem keys_without (entries : List (κ × α)) (k : κ) :
    (without entries k).map (·.1) = (entries.map (·.1)).filter (· ≠ k) := by
  rw [without, List.filter_map]
  rfl

theorem lookup_isSome : (lookup entries k).isSome ↔ k ∈ entries.map (·.1) := by
  simp [lookup]

theorem keys_promote (h : k ∈ entries.map (·.1)) :
    (promote entries k).map (·.1) = k :: (entries.map (·.1)).filter (· ≠ k) := by
  obtain ⟨v, hv⟩ := Option.isSome_iff_exists.1 (lookup_isSome.2 h)
  rw [promote, hv, List.map_cons, keys_without]

end XBoot.LruCaches
