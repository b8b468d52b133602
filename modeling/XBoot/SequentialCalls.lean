import XBoot.ProgramPools

/-!
# Calls made one after the other

Each operation of the calls is recorded with the state it is performed in. A protocol says
which operations a program may perform in a phase and which phase an answer leads to; what
holds in the phases holds at every point of every sequence of calls that follow it.
-/

namespace XBoot.Resumptions

variable {Op : Type} {Answer : Op → Type} {α κ σ ε φ : Type}

inductive Performed (effects : Effects Op Answer σ ε) (program : κ → Program Op Answer α)
    (admitted : κ → Prop) (initial : σ) : List (Op × σ) → Program Op Answer α → σ → Prop
  | idle (a : α) : Performed effects program admitted initial [] (.done a) initial
  | call {past : List (Op × σ)} {a : α} {s : σ} {k : κ}
      (h : Performed effects program admitted initial past (.done a) s) (hk : admitted k) :
      Performed effects program admitted initial past (program k) s
  | step {past : List (Op × σ)} {op : Op} {next : Answer op → Program Op Answer α} {s s' : σ}
      {r : Answer op} (h : Performed effects program admitted initial past (.call op next) s)
      (hstep : effects op s = .ok (r, s')) :
      Performed effects program admitted initial (past ++ [(op, s)]) (next r) s'

/-- Every operation of the program is allowed in its phase, and the program ends at `rest`. -/
def Follows (allowed : φ → Op → Prop) (after : φ → (op : Op) → Answer op → φ) (rest : φ) :
    Program Op Answer α → φ → Prop
  | .done _, phase => phase = rest
  | .call op next, phase =>
    allowed phase op ∧ ∀ r, Follows allowed after rest (next r) (after phase op r)

variable {effects : Effects Op Answer σ ε} {program : κ → Program Op Answer α}
  {admitted : κ → Prop} {initial : σ} {past : List (Op × σ)} {p : Program Op Answer α} {s : σ}

namespace Performed

/-- Each recorded operation was the next one of a call at an earlier point. -/
theorem earlier (h : Performed effects program admitted initial past p s)
    {before later : List (Op × σ)} {op : Op} {u : σ} (heq : past = before ++ (op, u) :: later) :
    ∃ next r u', Performed effects program admitted initial before (.call op next) u ∧
      effects op u = .ok (r, u') := by
  induction h generalizing later with
  | idle => simp at heq
  | call _ _ ih => exact ih heq
  | @step past op' next s s' r h hstep ih =>
    rcases List.eq_nil_or_concat later with rfl | ⟨front, last, rfl⟩
    · obtain ⟨rfl, hlast⟩ := List.append_inj' heq rfl
      cases hlast
      exact ⟨next, r, s', h, hstep⟩
    · rw [List.concat_eq_append, ← List.cons_append, ← List.append_assoc] at heq
      exact ih (List.append_inj' heq rfl).1

/-- What a protocol keeps from phase to phase holds at every point. -/
theorem phase {allowed : φ → Op → Prop} {after : φ → (op : Op) → Answer op → φ} {rest : φ}
    {holds : φ → List (Op × σ) → σ → Prop}
    (h : Performed effects program admitted initial past p s) (hinitial : holds rest [] initial)
    (hprogram : ∀ k, admitted k → Follows allowed after rest (program k) rest)
    (hkeeps : ∀ phase past s op r s', holds phase past s → allowed phase op →
      effects op s = .ok (r, s') → holds (after phase op r) (past ++ [(op, s)]) s') :
    ∃ phase, Follows allowed after rest p phase ∧ holds phase past s := by
  induction h with
  | idle a => exact ⟨rest, rfl, hinitial⟩
  | call _ hk ih =>
    obtain ⟨phase, hphase, hs⟩ := ih
    cases hphase
    exact ⟨rest, hprogram _ hk, hs⟩
  | step _ hstep ih =>
    obtain ⟨phase, ⟨hallowed, hnext⟩, hs⟩ := ih
    exact ⟨_, hnext _, hkeeps _ _ _ _ _ _ hs hallowed hstep⟩

end Performed

end XBoot.Resumptions
