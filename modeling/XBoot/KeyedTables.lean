import Mathlib.Data.List.Induction
import Mathlib.Logic.Function.Basic

/-!
# Tables filled by insertion

A table maps each key to what was inserted under it last.
-/

namespace XBoot.KeyedTables

variable {ι κ α : Type} [DecidableEq κ]

/-- The table after the insertion of every item in turn. -/
def insertAll (key : ι → κ) (value : ι → α) (items : List ι) : κ → Option α :=
  items.foldl (fun table item => Function.update table (key item) (some (value item))) fun _ => none

/-- The last item with a key. -/
def lastWith (key : ι → κ) (items : List ι) (k : κ) : Option ι :=
  (items.filter fun item => key item = k).getLast?

theorem lastWith_append_singleton (key : ι → κ) (items : List ι) (item : ι) (k : κ) :
    lastWith key (items ++ [item]) k = if key item = k then some item else lastWith key items k := by
  by_cases h : key item = k <;> simp [lastWith, List.filter_append, h]

theorem lastWith_eq_some {key : ι → κ} {items : List ι} {k : κ} {item : ι}
    (h : lastWith key items k = some item) : item ∈ items ∧ key item = k := by
  have hmem := List.mem_of_getLast? h
  simpa using hmem

theorem lastWith_eq_none_iff {key : ι → κ} {items : List ι} {k : κ} :
    lastWith key items k = none ↔ ∀ item ∈ items, key item ≠ k := by
  simp [lastWith]

/-- A table holds the last item inserted under each key. -/
theorem insertAll_eq (key : ι → κ) (value : ι → α) (items : List ι) (k : κ) :
    insertAll key value items k = (lastWith key items k).map value := by
  induction items using List.reverseRecOn with
  | nil => rfl
  | append_singleton items item ih =>
    have hlast : insertAll key value (items ++ [item]) =
        Function.update (insertAll key value items) (key item) (some (value item)) :=
      by rw [insertAll, List.foldl_append]; rfl
    rw [hlast, lastWith_append_singleton, Function.update_apply, ih]
    by_cases h : key item = k
    · rw [if_pos h.symm, if_pos h]
      rfl
    · rw [if_neg (Ne.symm h), if_neg h]

end XBoot.KeyedTables
