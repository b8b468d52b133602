import XBoot.ListSlices

/-!
# Records made by placing fields

Fields are written one after the other into a list, each at its own position. When they
lie inside the list and do not overlap, every field is read back from its place, and a
range that no field covers is what it was.
-/

namespace XBoot.PlacedFields

open ListSlices

variable {α : Type}

def place (base : List α) (fields : List (ℕ × List α)) : List α :=
  fields.foldl (fun record field => overwrite record field.1 field.2) base

/-- The range of `len` positions from `pos` on does not meet the field. -/
def Avoids (pos len : ℕ) (field : ℕ × ℕ) : Prop := pos + len ≤ field.1 ∨ field.1 + field.2 ≤ pos

/-- The positions and lengths of fields that lie inside a record and do not overlap. -/
structure Layout (size : ℕ) (places : List (ℕ × ℕ)) : Prop where
  inside : ∀ p ∈ places, p.1 + p.2 ≤ size
  apart : places.Pairwise fun p q => Avoids p.1 p.2 q

/-- Where the fields go. -/
def places (fields : List (ℕ × List α)) : List (ℕ × ℕ) := fields.map fun f => (f.1, f.2.length)

variable {base : List α} {fields : List (ℕ × List α)} {pos len : ℕ}

theorem length_place (h : ∀ p ∈ places fields, p.1 + p.2 ≤ base.length) :
    (place base fields).length = base.length := by
  induction fields generalizing base with
  | nil => rfl
  | cons field fields ih =>
    have hfirst : field.1 + field.2.length ≤ base.length := h _ List.mem_cons_self
    have hlen := length_overwrite hfirst
    have hrest := @ih (overwrite base field.1 field.2)
      (by rw [hlen]; exact fun p hp => h p (List.mem_cons_of_mem _ hp))
    exact hrest.trans hlen

theorem slice_place_of_avoids (h : ∀ p ∈ places fields, p.1 + p.2 ≤ base.length)
    (havoid : ∀ p ∈ places fields, Avoids pos len p) :
    slice (place base fields) pos len = slice base pos len := by
  induction fields generalizing base with
  | nil => rfl
  | cons field fields ih =>
    have hfirst : field.1 + field.2.length ≤ base.length := h _ List.mem_cons_self
    have hlen := length_overwrite hfirst
    have hrest := @ih (overwrite base field.1 field.2)
      (by rw [hlen]; exact fun p hp => h p (List.mem_cons_of_mem _ hp))
      (fun p hp => havoid p (List.mem_cons_of_mem _ hp))
    exact hrest.trans (slice_overwrite_of_disjoint hfirst (havoid _ List.mem_cons_self))

theorem slice_place_of_mem (h : Layout base.length (places fields)) {field : ℕ × List α}
    (hmem : field ∈ fields) : slice (place base fields) field.1 field.2.length = field.2 := by
  induction fields generalizing base with
  | nil => cases hmem
  | cons first fields ih =>
    have hfirst : first.1 + first.2.length ≤ base.length := h.inside _ List.mem_cons_self
    have hlen := length_overwrite hfirst
    have hinside : ∀ p ∈ places fields, p.1 + p.2 ≤ (overwrite base first.1 first.2).length := by
      rw [hlen]
      exact fun p hp => h.inside p (List.mem_cons_of_mem _ hp)
    obtain ⟨havoid, hapart⟩ := List.pairwise_cons.1 h.apart
    rcases List.mem_cons.1 hmem with rfl | hmem
    · have hkept := slice_place_of_avoids hinside havoid
      have hwritten := slice_overwrite_of_subset hfirst (Nat.le_refl field.1) (Nat.le_refl _)
      rw [Nat.sub_self, slice_all] at hwritten
      exact hkept.trans hwritten
    · exact ih ⟨hinside, hapart⟩ hmem

end XBoot.PlacedFields
