import Mathlib.Tactic.Common

/-!
# Programs of atomic operations and their interleavings

A program performs atomic operations on a shared state and goes on with their
answers. Run alone it is a state transformer that may abort; two programs over one
state interleave operation by operation. A program relies on a region of what the
state shows and writes a region of it; two programs that write nothing the other
relies on keep their own results in every interleaving.
-/

namespace XBoot.Resumptions

inductive Program (Op : Type) (Answer : Op → Type) (α : Type) where
  | done (result : α)
  | call (op : Op) (next : Answer op → Program Op Answer α)

abbrev Effects (Op : Type) (Answer : Op → Type) (σ ε : Type) :=
  (op : Op) → σ → Except ε (Answer op × σ)

variable {Op : Type} {Answer : Op → Type} {α β σ ε : Type}

def Program.run (effects : Effects Op Answer σ ε) : Program Op Answer α → σ → Except ε (α × σ)
  | .done a, s => .ok (a, s)
  | .call op next, s => match effects op s with
    | .ok (r, s') => (next r).run effects s'
    | .error e => .error e

variable {effects : Effects Op Answer σ ε}

theorem Program.run_call {op : Op} {next : Answer op → Program Op Answer α} {s s' : σ}
    {r : Answer op} (h : effects op s = .ok (r, s')) :
    (Program.call op next).run effects s = (next r).run effects s' := by
  simp only [run, h]

/-- `p` in state `s` becomes `p'` in state `s'` by operations of its own. -/
inductive Reaches (effects : Effects Op Answer σ ε) :
    Program Op Answer α → σ → Program Op Answer α → σ → Prop where
  | refl (p : Program Op Answer α) (s : σ) : Reaches effects p s p s
  | step {op : Op} {next : Answer op → Program Op Answer α} {p : Program Op Answer α}
      {s s' t : σ} {r : Answer op} (first : effects op s = .ok (r, s'))
      (rest : Reaches effects (next r) s' p t) : Reaches effects (.call op next) s p t

namespace Reaches

theorem trans {p p' p'' : Program Op Answer α} {s s' s'' : σ} (h : Reaches effects p s p' s')
    (h' : Reaches effects p' s' p'' s'') : Reaches effects p s p'' s'' := by
  induction h with
  | refl => exact h'
  | step first _ ih => exact .step first (ih h')

/-- Own operations do not change the outcome of a run. -/
theorem run_eq {p p' : Program Op Answer α} {s s' : σ} (h : Reaches effects p s p' s') :
    p.run effects s = p'.run effects s' := by
  induction h with
  | refl => rfl
  | step first _ ih => rw [Program.run_call first, ih]

/-- A run that ends reaches its result. -/
theorem of_run {p : Program Op Answer α} {s t : σ} {a : α} (h : p.run effects s = .ok (a, t)) :
    Reaches effects p s (.done a) t := by
  induction p generalizing s with
  | done b => cases h; exact .refl _ _
  | call op next ih =>
    cases he : effects op s with
    | error e => simp only [Program.run, he] at h; cases h
    | ok result =>
      rw [Program.run_call he] at h
      exact .step he (ih _ h)

end Reaches

/-- Two programs interleave on a shared state until both have their result. -/
inductive Interleaves (effects : Effects Op Answer σ ε) :
    Program Op Answer α → Program Op Answer β → σ → α → β → σ → Prop where
  | done (a : α) (b : β) (s : σ) : Interleaves effects (.done a) (.done b) s a b s
  | left {op : Op} {next : Answer op → Program Op Answer α} {q : Program Op Answer β}
      {s s' t : σ} {r : Answer op} {a : α} {b : β} (step : effects op s = .ok (r, s'))
      (rest : Interleaves effects (next r) q s' a b t) : Interleaves effects (.call op next) q s a b t
  | right {op : Op} {p : Program Op Answer α} {next : Answer op → Program Op Answer β}
      {s s' t : σ} {r : Answer op} {a : α} {b : β} (step : effects op s = .ok (r, s'))
      (rest : Interleaves effects p (next r) s' a b t) : Interleaves effects p (.call op next) s a b t

namespace Interleaves

/-- The interleaving is symmetric in the two programs. -/
theorem symm {p : Program Op Answer α} {q : Program Op Answer β} {s t : σ} {a : α} {b : β}
    (h : Interleaves effects p q s a b t) : Interleaves effects q p s b a t := by
  induction h with
  | done a b u => exact .done b a u
  | left step _ ih => exact .right step ih
  | right step _ ih => exact .left step ih

/-- The left program may go ahead while the right one waits. -/
theorem left_first {p p' : Program Op Answer α} {q : Program Op Answer β} {s s' t : σ} {a : α}
    {b : β} (h : Reaches effects p s p' s') (rest : Interleaves effects p' q s' a b t) :
    Interleaves effects p q s a b t := by
  induction h with
  | refl => exact rest
  | step first _ ih => exact .left first (ih rest)

/-- The right program may go ahead while the left one waits. -/
theorem right_first {p : Program Op Answer α} {q q' : Program Op Answer β} {s s' t : σ} {a : α}
    {b : β} (h : Reaches effects q s q' s') (rest : Interleaves effects p q' s' a b t) :
    Interleaves effects p q s a b t :=
  (left_first h rest.symm).symm

end Interleaves

section Regions

variable {ι V : Type} (Shown : σ → (ι → V) → Prop)

/-- A program that sees `view` on `region`: from every state that shows `view` there, each of
its operations changes only `written` positions and goes on with a new view, and it ends
with a view that `post` allows. -/
def Confined (effects : Effects Op Answer σ ε) (region written : ι → Prop)
    (post : α → (ι → V) → Prop) : Program Op Answer α → (ι → V) → Prop
  | .done a, view => post a view
  | .call op next, view => ∀ s f r s', Shown s f → (∀ i, region i → f i = view i) →
      effects op s = .ok (r, s') →
      ∃ f' view', Shown s' f' ∧ (∀ i, ¬ written i → f' i = f i) ∧
        (∀ i, region i → f' i = view' i) ∧
        Confined effects region written post (next r) view'

variable {Shown} {region written region' written' : ι → Prop}

/-- Programs that write nothing the other relies on reach the ends they reach alone. -/
theorem Interleaves.of_confined {post : α → (ι → V) → Prop} {post' : β → (ι → V) → Prop}
    {p : Program Op Answer α} {q : Program Op Answer β} {s t : σ} {a : α} {b : β}
    {f view view' : ι → V} (h : Interleaves effects p q s a b t)
    (hp : Confined Shown effects region written post p view)
    (hq : Confined Shown effects region' written' post' q view')
    (hpq : ∀ i, written i → ¬ region' i) (hqp : ∀ i, written' i → ¬ region i)
    (hf : Shown s f) (hview : ∀ i, region i → f i = view i)
    (hview' : ∀ i, region' i → f i = view' i) :
    ∃ g final final', Shown t g ∧ (∀ i, ¬ written i → ¬ written' i → g i = f i) ∧
      (∀ i, region i → g i = final i) ∧ post a final ∧
      (∀ i, region' i → g i = final' i) ∧ post' b final' := by
  induction h generalizing f view view' with
  | done a b s => exact ⟨f, view, view', hf, fun _ _ _ => rfl, hview, hp, hview', hq⟩
  | left step rest ih =>
    obtain ⟨g, next, hg, hw, hr, hnext⟩ := hp _ _ _ _ hf hview step
    have hother : ∀ i, region' i → g i = view' i := by
      intro i hi
      rw [hw i fun hwi => hpq i hwi hi, hview' i hi]
    obtain ⟨k, final, final', hk, hkeep, hends⟩ := ih hnext hq hg hr hother
    exact ⟨k, final, final', hk, fun i h₁ h₂ => by rw [hkeep i h₁ h₂, hw i h₁], hends⟩
  | right step rest ih =>
    obtain ⟨g, next, hg, hw, hr, hnext⟩ := hq _ _ _ _ hf hview' step
    have hother : ∀ i, region i → g i = view i := by
      intro i hi
      rw [hw i fun hwi => hqp i hwi hi, hview i hi]
    obtain ⟨k, final, final', hk, hkeep, hends⟩ := ih hp hnext hg hother hr
    exact ⟨k, final, final', hk, fun i h₁ h₂ => by rw [hkeep i h₁ h₂, hw i h₂], hends⟩

end Regions

end XBoot.Resumptions
