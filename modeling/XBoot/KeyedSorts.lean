import Mathlib.Data.List.Sort

/-!
# Stable sorts by a key

Equal keys keep the order in which their elements came. The sorted list does not depend
on that order exactly when no two elements have the same key.
-/

namespace XBoot.KeyedSorts

variable {α : Type} {key : α → ℕ} {xs ys : List α} {a b : α}

def sortByKey (key : α → ℕ) (xs : List α) : List α := xs.insertionSort fun a b => key a ≤ key b

instance total_by (key : α → ℕ) : Std.Total fun a b => key a ≤ key b := ⟨fun _ _ => Nat.le_total _ _⟩

instance isTrans_by (key : α → ℕ) : IsTrans α fun a b => key a ≤ key b := ⟨fun _ _ _ => Nat.le_trans⟩

theorem sortByKey_perm (key : α → ℕ) (xs : List α) : (sortByKey key xs).Perm xs :=
  List.perm_insertionSort _ xs

theorem sortByKey_sorted (key : α → ℕ) (xs : List α) :
    (sortByKey key xs).Pairwise fun a b => key a ≤ key b := List.pairwise_insertionSort _ xs

theorem sortByKey_congr (h : xs.Perm ys) (hkey : ∀ a ∈ xs, ∀ b ∈ xs, key a = key b → a = b) :
    sortByKey key xs = sortByKey key ys := by
  have hperm : (sortByKey key xs).Perm (sortByKey key ys) :=
    (sortByKey_perm key xs).trans (h.trans (sortByKey_perm key ys).symm)
  refine List.Perm.eq_of_pairwise (fun a b ha hb hle hge => ?_) (sortByKey_sorted key xs)
    (sortByKey_sorted key ys) hperm
  exact hkey a ((sortByKey_perm key xs).mem_iff.1 ha) b
    (h.mem_iff.2 ((sortByKey_perm key ys).mem_iff.1 hb)) (Nat.le_antisymm hle hge)

theorem sortByKey_pair (hkey : key a ≤ key b) (h : [a, b].Sublist xs) :
    [a, b].Sublist (sortByKey key xs) := List.pair_sublist_insertionSort hkey h

theorem not_both_orders (hnodup : xs.Nodup) (h : [a, b].Sublist xs) : ¬ [b, a].Sublist xs := by
  induction xs with
  | nil => cases h
  | cons x xs ih =>
    obtain ⟨hx, hrest⟩ := List.nodup_cons.1 hnodup
    intro h'
    cases h with
    | cons _ h =>
      cases h' with
      | cons _ h' => exact ih hrest h h'
      | cons_cons _ h' => exact hx (h.subset (by simp))
    | cons_cons _ h =>
      cases h' with
      | cons _ h' => exact hx (h'.subset (by simp))
      | cons_cons _ h' => exact hx (h.subset (by simp))

end XBoot.KeyedSorts
