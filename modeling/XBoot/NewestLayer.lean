import Mathlib.Data.List.Basic
import Mathlib.Tactic.Common

/-!
# The newest layer with a property

Layers are listed oldest first, so the newest one with a property is the last such
element of the list. A search that goes through the layers newest first finds it.
-/

namespace XBoot.NewestLayer

variable {α β : Type}

/-- The last element of `layers`, listed oldest first, that satisfies `P`. -/
def newest (P : α → Bool) (layers : List α) : Option α := (layers.filter P).getLast?

theorem newest_eq_find? (P : α → Bool) (layers : List α) :
    newest P layers = layers.reverse.find? P := by
  rw [newest, List.getLast?_eq_head?_reverse, ← List.filter_reverse, List.head?_filter]

theorem newest_eq_none {P : α → Bool} {layers : List α} :
    newest P layers = none ↔ ∀ layer ∈ layers, P layer = false := by
  rw [newest_eq_find?, List.find?_eq_none]
  simp

/-- The newest layer has the property and no later one has. -/
theorem newest_eq_some {P : α → Bool} {layers : List α} {layer : α} :
    newest P layers = some layer ↔
      P layer = true ∧ ∃ older newer, layers = older ++ layer :: newer ∧
        ∀ later ∈ newer, P later = false := by
  rw [newest_eq_find?, List.find?_eq_some_iff_append]
  constructor
  · rintro ⟨hP, newer, older, heq, hnone⟩
    refine ⟨hP, older.reverse, newer.reverse, ?_, fun later hl => ?_⟩
    · simpa using congrArg List.reverse heq
    · simpa using hnone later (List.mem_reverse.1 hl)
  · rintro ⟨hP, older, newer, rfl, hnone⟩
    refine ⟨hP, newer.reverse, older.reverse, by simp, fun later hl => ?_⟩
    simpa using hnone later (List.mem_reverse.1 hl)

/-- Searching newest first for a layer that offers something finds the newest one that does. -/
theorem findSome?_reverse (offer : α → Option β) (layers : List α) :
    (layers.reverse.findSome? fun layer => (offer layer).map (layer, ·)) =
      (newest (fun layer => (offer layer).isSome) layers).bind
        fun layer => (offer layer).map (layer, ·) := by
  rw [newest_eq_find?]
  induction layers.reverse with
  | nil => rfl
  | cons layer rest ih =>
    rw [List.findSome?_cons, List.find?_cons]
    cases h : offer layer with
    | none => simpa [h] using ih
    | some b => simp [h]

end XBoot.NewestLayer
