import Mathlib.Data.List.Chain

/-!
# Serial numbers in a stream

Every item of a stream shows a number, and some items take it: the next item then shows
its successor. A counter that works this way makes the taking items consecutive, and
every other item announces the number that the next taking item shows.
-/

namespace XBoot.SerialNumbers

variable {α ν : Type} (number : α → ν) (takes : α → Bool) (succ : ν → ν)

/-- The items are numbered from `n` on, and `n'` is the number after them. -/
def Counts : ν → List α → ν → Prop
  | n, [], n' => n' = n
  | n, x :: xs, n' => number x = n ∧ Counts (if takes x then succ n else n) xs n'

/-- The items that take a number are consecutive, and the other ones announce it. -/
structure InOrder (xs : List α) : Prop where
  consecutive : ((xs.filter takes).map number).IsChain fun a b => b = succ a
  announced : ∀ front x back y, xs = front ++ x :: back → takes x = false →
    back.find? takes = some y → number x = number y

variable {number takes succ} {n n' n'' : ν} {xs ys : List α} {x y : α}

theorem Counts.append (h : Counts number takes succ n xs n')
    (h' : Counts number takes succ n' ys n'') : Counts number takes succ n (xs ++ ys) n'' := by
  induction xs generalizing n with
  | nil =>
    subst h
    exact h'
  | cons x xs ih => exact ⟨h.1, ih h.2⟩

/-- The counter passes any item of the stream. -/
theorem Counts.split {front back : List α}
    (h : Counts number takes succ n (front ++ x :: back) n') :
    ∃ m, Counts number takes succ m (x :: back) n' := by
  induction front generalizing n with
  | nil => exact ⟨n, h⟩
  | cons _ _ ih => exact ih h.2

/-- The first item to take a number takes the one counted from. -/
theorem Counts.find? (h : Counts number takes succ n xs n') (hy : xs.find? takes = some y) :
    number y = n := by
  induction xs with
  | nil => cases hy
  | cons x xs ih =>
    cases hx : takes x with
    | true =>
      rw [List.find?_cons_of_pos hx] at hy
      cases hy
      exact h.1
    | false =>
      rw [List.find?_cons_of_neg (by simp [hx])] at hy
      have hrest := h.2
      rw [hx] at hrest
      exact ih hrest hy

theorem Counts.consecutive (h : Counts number takes succ n xs n') :
    ((xs.filter takes).map number).IsChain fun a b => b = succ a := by
  induction xs generalizing n with
  | nil => exact List.isChain_nil
  | cons x xs ih =>
    cases hx : takes x with
    | true =>
      have hrest := h.2
      rw [hx, if_pos rfl] at hrest
      rw [List.filter_cons_of_pos hx, List.map_cons]
      refine List.isChain_cons.2 ⟨fun b hb => ?_, ih hrest⟩
      rw [List.head?_map, List.head?_filter] at hb
      obtain ⟨y, hy, rfl⟩ := Option.map_eq_some_iff.1 hb
      rw [hrest.find? hy, h.1]
    | false =>
      rw [List.filter_cons_of_neg (by simp [hx])]
      exact ih h.2

/-- A counted stream is in order. -/
theorem Counts.inOrder (h : Counts number takes succ n xs n') : InOrder number takes succ xs := by
  refine ⟨h.consecutive, fun front x back y hxs hx hy => ?_⟩
  subst hxs
  obtain ⟨m, hm⟩ := h.split
  have hrest := hm.2
  rw [hx] at hrest
  rw [hm.1]
  exact (hrest.find? hy).symm

/-- Items that take no number leave the counter as it is. -/
theorem Counts.idle (h : Counts number takes succ n xs n') (hnone : xs.filter takes = []) :
    n' = n := by
  induction xs with
  | nil => exact h
  | cons x xs ih =>
    have hx : takes x = false := by
      simpa using List.filter_eq_nil_iff.1 hnone x List.mem_cons_self
    have hrest := h.2
    rw [hx] at hrest
    rw [List.filter_cons_of_neg (by simp [hx])] at hnone
    exact ih hrest hnone

/-- After the last item that takes a number comes its successor. -/
theorem Counts.getLast? (h : Counts number takes succ n xs n')
    (hx : (xs.filter takes).getLast? = some x) : n' = succ (number x) := by
  induction xs generalizing n with
  | nil => cases hx
  | cons y ys ih =>
    cases hrest : (ys.filter takes).getLast? with
    | some z =>
      have hz : ((y :: ys).filter takes).getLast? = some z := by
        rw [List.filter_cons]
        split
        · rw [List.getLast?_cons, hrest, Option.getD_some]
        · exact hrest
      rw [hx] at hz
      cases hz
      exact ih h.2 hrest
    | none =>
      have hnone : ys.filter takes = [] := List.getLast?_eq_none_iff.1 hrest
      cases hy : takes y with
      | true =>
        rw [List.filter_cons_of_pos hy, hnone] at hx
        have hys := h.2
        rw [hy, if_pos rfl] at hys
        rw [← Option.some.inj hx, hys.idle hnone]
        exact congrArg succ h.1.symm
      | false =>
        rw [List.filter_cons_of_neg (by simp [hy]), hnone] at hx
        cases hx

theorem InOrder.left_of_append (h : InOrder number takes succ (xs ++ ys)) :
    InOrder number takes succ xs := by
  constructor
  · have hchain := h.consecutive
    rw [List.filter_append, List.map_append] at hchain
    exact hchain.left_of_append
  · intro front x back y hxs hx hy
    apply h.announced front x (back ++ ys) y _ hx
    · rw [List.find?_append, hy, Option.some_or]
    · rw [hxs, List.append_assoc, List.cons_append]

/-- The next item to take a number takes the successor of the last one. -/
theorem InOrder.next (h : InOrder number takes succ (xs ++ [y])) (hy : takes y = true)
    (hx : (xs.filter takes).getLast? = some x) : number y = succ (number x) := by
  have hchain := h.consecutive
  rw [List.filter_append, List.map_append, List.filter_cons_of_pos hy] at hchain
  refine (List.isChain_append.1 hchain).2.2 (number x) ?_ (number y) rfl
  rw [List.getLast?_map, hx]
  rfl

end XBoot.SerialNumbers
