import XBoot.Resumptions
import Mathlib.Data.List.Basic

/-!
# Any number of programs on one state

Calls are started at any time and take turns, one atomic operation each. When every
program keeps a common invariant of the state, whatever the others do in between, then
so does every run of the pool.
-/

namespace XBoot.Resumptions

variable {Op : Type} {Answer : Op → Type} {α κ σ ε : Type}

/-- From every state with the invariant, each operation of the program succeeds and keeps
the invariant, and its result is as wanted. -/
def Safe (effects : Effects Op Answer σ ε) (inv : σ → Prop) (wanted : α → Prop) :
    Program Op Answer α → Prop
  | .done a => wanted a
  | .call op next => ∀ s, inv s →
      ∃ r s', effects op s = .ok (r, s') ∧ inv s' ∧ Safe effects inv wanted (next r)

/-- The calls started so far, each with what is left of its program, and the shared state. -/
inductive Serving (effects : Effects Op Answer σ ε) (program : κ → Program Op Answer α)
    (admitted : κ → Prop) (initial : σ) : List (κ × Program Op Answer α) → σ → Prop
  | idle : Serving effects program admitted initial [] initial
  | start {calls : List (κ × Program Op Answer α)} {s : σ} {k : κ}
      (h : Serving effects program admitted initial calls s) (hk : admitted k) :
      Serving effects program admitted initial (calls ++ [(k, program k)]) s
  | turn {calls : List (κ × Program Op Answer α)} {s s' : σ} {i : ℕ} {k : κ} {op : Op}
      {next : Answer op → Program Op Answer α} {r : Answer op}
      (h : Serving effects program admitted initial calls s)
      (hcall : calls[i]? = some (k, .call op next)) (hstep : effects op s = .ok (r, s')) :
      Serving effects program admitted initial (calls.set i (k, next r)) s'

variable {effects : Effects Op Answer σ ε} {inv : σ → Prop} {wanted : α → Prop}

/-- A safe program that goes on alone returns what is wanted. -/
theorem Safe.run {p : Program Op Answer α} {s : σ} (h : Safe effects inv wanted p) (hs : inv s) :
    ∃ a s', p.run effects s = .ok (a, s') ∧ wanted a ∧ inv s' := by
  induction p generalizing s with
  | done a => exact ⟨a, s, rfl, h, hs⟩
  | call op next ih =>
    obtain ⟨r, s', hstep, hs', hnext⟩ := h s hs
    obtain ⟨a, t, hrun, ha, ht⟩ := ih r hnext hs'
    exact ⟨a, t, by rw [Program.run_call hstep, hrun], ha, ht⟩

variable {program : κ → Program Op Answer α} {admitted : κ → Prop} {initial : σ}
  {result : κ → α → Prop}

/-- The invariant and the safety of all calls hold in every run of the pool. -/
theorem Serving.safe {calls : List (κ × Program Op Answer α)} {s : σ}
    (hinitial : inv initial) (hprogram : ∀ k, admitted k → Safe effects inv (result k) (program k))
    (h : Serving effects program admitted initial calls s) :
    inv s ∧ ∀ c ∈ calls, Safe effects inv (result c.1) c.2 := by
  induction h with
  | idle => exact ⟨hinitial, nofun⟩
  | @start calls s k _ hk ih =>
    refine ⟨ih.1, fun c hc => ?_⟩
    rcases List.mem_append.1 hc with hc | hc
    · exact ih.2 c hc
    · rw [List.mem_singleton.1 hc]
      exact hprogram k hk
  | @turn calls s s' i k op next r _ hcall hstep ih =>
    obtain ⟨r', t, heffect, ht, hnext⟩ := ih.2 _ (List.mem_of_getElem? hcall) s ih.1
    cases hstep.symm.trans heffect
    refine ⟨ht, fun c hc => ?_⟩
    rcases List.mem_or_eq_of_mem_set hc with hc | rfl
    · exact ih.2 c hc
    · exact hnext

end XBoot.Resumptions
