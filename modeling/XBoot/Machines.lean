import Mathlib.Tactic.Common

/-!
# Deterministic machines with outputs, and simulation

A machine answers every input with an output and a next state, or aborts. A run
feeds it a list of inputs. When each step of an abstract machine that never aborts
is matched by the concrete one, the runs have the same outputs.
-/

namespace XBoot.Machines

variable {σ τ ι ω ε : Type}

/-- The outputs and the final state of a machine over a list of inputs. -/
def runs (step : σ → ι → Except ε (ω × σ)) : σ → List ι → Except ε (List ω × σ)
  | s, [] => .ok ([], s)
  | s, i :: is => match step s i with
    | .error e => .error e
    | .ok (o, s') => match runs step s' is with
      | .error e => .error e
      | .ok (os, t) => .ok (o :: os, t)

theorem runs_concat {step : σ → ι → Except ε (ω × σ)} {s s' t : σ} {is : List ι} {os : List ω} {i : ι}
    {o : ω} (h : runs step s is = .ok (os, s')) (hstep : step s' i = .ok (o, t)) :
    runs step s (is ++ [i]) = .ok (os ++ [o], t) := by
  induction is generalizing s os with
  | nil =>
    cases h
    simp only [List.nil_append, runs, hstep]
  | cons j is ih =>
    rw [runs] at h
    split at h
    · cases h
    · rename_i o₁ s₁ hfirst
      split at h
      · cases h
      · rename_i os₁ s₂ hrest
        cases h
        simp only [List.cons_append, runs, hfirst, ih hrest]

/-- The run of a machine that never aborts. -/
def outputs (step : σ → ι → ω × σ) : σ → List ι → List ω × σ
  | s, [] => ([], s)
  | s, i :: is => ((step s i).1 :: (outputs step (step s i).2 is).1, (outputs step (step s i).2 is).2)

/-- Every step of the abstract machine is a step of the concrete one with the same
output, and the relation is kept. -/
def Simulates (R : σ → τ → Prop) (step : σ → ι → Except ε (ω × σ)) (spec : τ → ι → ω × τ) : Prop :=
  ∀ s t i, R s t → ∃ s', step s i = .ok ((spec t i).1, s') ∧ R s' (spec t i).2

/-- A step simulation carries over to runs. -/
theorem Simulates.runs {R : σ → τ → Prop} {step : σ → ι → Except ε (ω × σ)}
    {spec : τ → ι → ω × τ} (h : Simulates R step spec) {s : σ} {t : τ} (hR : R s t)
    (is : List ι) :
    ∃ s', Machines.runs step s is = .ok ((outputs spec t is).1, s') ∧ R s' (outputs spec t is).2 := by
  induction is generalizing s t with
  | nil => exact ⟨s, rfl, hR⟩
  | cons i is ih =>
    obtain ⟨s₁, hs, hR₁⟩ := h s t i hR
    obtain ⟨s₂, hr, hR₂⟩ := ih hR₁
    exact ⟨s₂, by simp only [Machines.runs, hs, hr, outputs], hR₂⟩

/-- The runs that a specification of single steps allows. -/
inductive Allows (rel : τ → ι → ω → τ → Prop) : τ → List ι → List ω → τ → Prop
  | nil (t : τ) : Allows rel t [] [] t
  | cons {t t' t'' : τ} {i : ι} {o : ω} {is : List ι} {os : List ω} (hstep : rel t i o t')
      (hrest : Allows rel t' is os t'') : Allows rel t (i :: is) (o :: os) t''

/-- Every step of the machine is one that the specification allows, and the relation is kept. -/
def Refines (R : σ → τ → Prop) (step : σ → ι → Except ε (ω × σ)) (rel : τ → ι → ω → τ → Prop) :
    Prop :=
  ∀ s t i, R s t → ∃ o s' t', step s i = .ok (o, s') ∧ rel t i o t' ∧ R s' t'

/-- A step refinement carries over to runs. -/
theorem Refines.runs {R : σ → τ → Prop} {step : σ → ι → Except ε (ω × σ)}
    {rel : τ → ι → ω → τ → Prop} (h : Refines R step rel) {s : σ} {t : τ} (hR : R s t)
    (is : List ι) :
    ∃ os s' t', Machines.runs step s is = .ok (os, s') ∧ Allows rel t is os t' ∧ R s' t' := by
  induction is generalizing s t with
  | nil => exact ⟨[], s, t, rfl, .nil t, hR⟩
  | cons i is ih =>
    obtain ⟨o, s₁, t₁, hs, hrel, hR₁⟩ := h s t i hR
    obtain ⟨os, s₂, t₂, hr, hallows, hR₂⟩ := ih hR₁
    exact ⟨o :: os, s₂, t₂, by simp only [Machines.runs, hs, hr], .cons hrel hallows, hR₂⟩

end XBoot.Machines
