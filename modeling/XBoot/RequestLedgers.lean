import Mathlib.Data.List.Induction
import Mathlib.Logic.Function.Basic

/-!
# Ledgers of tagged requests

A request comes under a tag that its sender chooses. It gets its final answer at once, or
waits under the tag for a follow-up that brings the answer. The sender may use a tag again
at any time, so a ledger tells the requests apart by their places in the log. A request is
lost exactly where another one starts to wait under the same tag.
-/

namespace XBoot.RequestLedgers

inductive Entry (κ : Type) where
  | request (tag : κ) (answers : ℕ)
  | followUp (tag : κ) (answers : ℕ)
  | other

def Entry.answers {κ : Type} : Entry κ → ℕ
  | .request _ answers => answers
  | .followUp _ answers => answers
  | .other => 0

structure Ledger (κ : Type) where
  /-- The request that waits under each tag. -/
  waiting : κ → Option ℕ
  /-- The request that each final answer is for. -/
  answered : List ℕ

variable {κ : Type} {log : List (Entry κ)} {l : Ledger κ} {e : Entry κ} {tag tag' : κ} {n m : ℕ}

namespace Ledger

def empty : Ledger κ := ⟨fun _ => none, []⟩

def answer (l : Ledger κ) (n answers : ℕ) : Ledger κ :=
  { l with answered := l.answered ++ List.replicate answers n }

/-- The request in place `n` with the tag `tag` waits without an answer, or has exactly one. -/
def Settled (l : Ledger κ) (n : ℕ) (tag : κ) : Prop :=
  l.answered.count n = 0 ∧ l.waiting tag = some n ∨
    l.answered.count n = 1 ∧ l.waiting tag ≠ some n

/-- The entry starts to wait under a tag that another request waits under. -/
def Displaces (l : Ledger κ) (e : Entry κ) : Prop :=
  ∃ tag, e = .request tag 0 ∧ l.waiting tag ≠ none

theorem count_answer (l : Ledger κ) (n m answers : ℕ) :
    (l.answer n answers).answered.count m =
      l.answered.count m + if n = m then answers else 0 := by
  simp [answer, List.count_append, List.count_replicate]

theorem settled_answer_of_ne (hne : m ≠ n) (answers : ℕ) :
    (l.answer m answers).Settled n tag ↔ l.Settled n tag := by
  rw [Settled, Settled, count_answer, if_neg hne, Nat.add_zero]
  rfl

theorem settled_answer (hcount : l.answered.count n = 0) (hfree : l.waiting tag ≠ some n) :
    (l.answer n 1).Settled n tag := by
  refine .inr ⟨?_, hfree⟩
  rw [count_answer, if_pos rfl, hcount]

variable [DecidableEq κ]

def setWaiting (l : Ledger κ) (tag : κ) (n : Option ℕ) : Ledger κ :=
  { l with waiting := Function.update l.waiting tag n }

@[simp] theorem setWaiting_self (l : Ledger κ) (tag : κ) (n : Option ℕ) :
    (l.setWaiting tag n).waiting tag = n := Function.update_self _ _ _

theorem setWaiting_of_ne (h : tag' ≠ tag) (l : Ledger κ) (n : Option ℕ) :
    (l.setWaiting tag n).waiting tag' = l.waiting tag' := Function.update_of_ne h _ _

/-- A request without an answer waits; the answers to a follow-up are for the request that
waits under its tag. -/
def post (l : Ledger κ) (n : ℕ) : Entry κ → Ledger κ
  | .request tag 0 => l.setWaiting tag (some n)
  | .request _ (answers + 1) => l.answer n (answers + 1)
  | .followUp _ 0 => l
  | .followUp tag (answers + 1) => match l.waiting tag with
    | none => l
    | some m => (l.setWaiting tag none).answer m (answers + 1)
  | .other => l

end Ledger

/-- Who waits is a request of the log under that tag and has no answer, and answers are for
entries of the log only. -/
structure Sound (log : List (Entry κ)) (l : Ledger κ) : Prop where
  waits : ∀ tag n, l.waiting tag = some n → log[n]? = some (.request tag 0)
  unanswered : ∀ tag n, l.waiting tag = some n → l.answered.count n = 0
  answered_lt : ∀ n ∈ l.answered, n < log.length

theorem Sound.waiting_lt (h : Sound log l) (hn : l.waiting tag = some n) : n < log.length :=
  (List.getElem?_eq_some_iff.1 (h.waits tag n hn)).1

theorem Sound.tag_unique (h : Sound log l) (hn : l.waiting tag = some n)
    (hn' : l.waiting tag' = some n) : tag = tag' := by
  have hsame := (h.waits tag n hn).symm.trans (h.waits tag' n hn')
  cases hsame
  rfl

theorem Sound.count_new (h : Sound log l) : l.answered.count log.length = 0 :=
  List.count_eq_zero_of_not_mem fun hmem => Nat.lt_irrefl _ (h.answered_lt _ hmem)

theorem Sound.new_not_waiting (h : Sound log l) (tag : κ) : l.waiting tag ≠ some log.length :=
  fun hn => Nat.lt_irrefl _ (h.waiting_lt hn)

private theorem Sound.later (h : Sound log l) (e : Entry κ) : Sound (log ++ [e]) l := by
  constructor
  · intro tag n hn
    rw [List.getElem?_append_left (h.waiting_lt hn)]
    exact h.waits tag n hn
  · exact h.unanswered
  · intro n hn
    rw [List.length_append]
    exact Nat.lt_add_right _ (h.answered_lt n hn)

private theorem Sound.answer (h : Sound log l) (hm : m < log.length)
    (hfree : ∀ tag, l.waiting tag ≠ some m) (answers : ℕ) : Sound log (l.answer m answers) := by
  constructor
  · exact h.waits
  · intro tag n hn
    have hne : m ≠ n := fun heq => hfree tag (heq ▸ hn)
    rw [Ledger.count_answer, if_neg hne]
    exact h.unanswered tag n hn
  · intro n hn
    rcases List.mem_append.1 hn with hn | hn
    · exact h.answered_lt n hn
    · rw [(List.mem_replicate.1 hn).2]
      exact hm

variable [DecidableEq κ]

private theorem Sound.wait (h : Sound log l) (tag : κ) :
    Sound (log ++ [.request tag 0]) (l.setWaiting tag (some log.length)) := by
  constructor
  · intro tag' n hn
    by_cases htag : tag' = tag
    · rw [htag, Ledger.setWaiting_self] at hn
      cases hn
      rw [htag, List.getElem?_concat_length]
    · rw [Ledger.setWaiting_of_ne htag] at hn
      exact (h.later _).waits tag' n hn
  · intro tag' n hn
    by_cases htag : tag' = tag
    · rw [htag, Ledger.setWaiting_self] at hn
      cases hn
      exact h.count_new
    · rw [Ledger.setWaiting_of_ne htag] at hn
      exact h.unanswered tag' n hn
  · exact (h.later _).answered_lt

private theorem Sound.release (h : Sound log l) (tag : κ) : Sound log (l.setWaiting tag none) := by
  have hsub : ∀ tag' n, (l.setWaiting tag none).waiting tag' = some n → l.waiting tag' = some n := by
    intro tag' n hn
    by_cases htag : tag' = tag
    · rw [htag, Ledger.setWaiting_self] at hn
      cases hn
    · rwa [Ledger.setWaiting_of_ne htag] at hn
  exact ⟨fun tag' n hn => h.waits tag' n (hsub tag' n hn),
    fun tag' n hn => h.unanswered tag' n (hsub tag' n hn), h.answered_lt⟩

private theorem Sound.released (h : Sound log l) (hm : l.waiting tag = some m) (tag' : κ) :
    (l.setWaiting tag none).waiting tag' ≠ some m := by
  by_cases htag : tag' = tag
  · rw [htag, Ledger.setWaiting_self]
    nofun
  · rw [Ledger.setWaiting_of_ne htag]
    exact fun hm' => htag (h.tag_unique hm' hm)

private theorem post_sound (h : Sound log l) (e : Entry κ) :
    Sound (log ++ [e]) (l.post log.length e) := by
  cases e with
  | other => exact h.later _
  | request tag answers =>
    cases answers with
    | zero => exact h.wait tag
    | succ answers =>
      exact (h.later _).answer (by simp) (fun tag' => h.new_not_waiting tag') _
  | followUp tag answers =>
    cases answers with
    | zero => exact h.later _
    | succ answers =>
      rw [Ledger.post]
      cases hm : l.waiting tag with
      | none => exact h.later _
      | some m =>
        exact ((h.later _).release tag).answer ((h.later _).waiting_lt hm) (h.released hm) _

def ledgerOf (log : List (Entry κ)) : Ledger κ :=
  log.zipIdx.foldl (fun l e => l.post e.2 e.1) .empty

theorem ledgerOf_concat (log : List (Entry κ)) (e : Entry κ) :
    ledgerOf (log ++ [e]) = (ledgerOf log).post log.length e := by
  simp [ledgerOf, List.zipIdx_append]

theorem ledgerOf_sound (log : List (Entry κ)) : Sound log (ledgerOf log) := by
  induction log using List.reverseRecOn with
  | nil => exact ⟨nofun, nofun, fun n hn => absurd hn List.not_mem_nil⟩
  | append_singleton log e ih =>
    rw [ledgerOf_concat]
    exact post_sound ih e

def AllSettled (log : List (Entry κ)) : Prop :=
  ∀ n tag answers, log[n]? = some (.request tag answers) → (ledgerOf log).Settled n tag

private theorem settled_wait (h : Sound log l) (hn : n < log.length) :
    (l.setWaiting tag (some log.length)).Settled n tag' ↔
      l.Settled n tag' ∧ ¬ (tag' = tag ∧ l.waiting tag = some n) := by
  have hne : some log.length ≠ some n := fun heq => Nat.ne_of_gt hn (Option.some.inj heq)
  have hcount : (l.setWaiting tag (some log.length)).answered = l.answered := rfl
  by_cases htag : tag' = tag
  · subst htag
    have hwaits := h.unanswered tag' n
    rw [Ledger.Settled, Ledger.Settled, Ledger.setWaiting_self, hcount]
    grind
  · rw [Ledger.Settled, Ledger.Settled, Ledger.setWaiting_of_ne htag, hcount]
    grind

private theorem settled_release_of_ne (hne : l.waiting tag ≠ some n) :
    (l.setWaiting tag none).Settled n tag' ↔ l.Settled n tag' := by
  by_cases htag : tag' = tag
  · subst htag
    rw [Ledger.Settled, Ledger.Settled, Ledger.setWaiting_self]
    have hcount : (l.setWaiting tag' none).answered = l.answered := rfl
    rw [hcount]
    grind
  · rw [Ledger.Settled, Ledger.Settled, Ledger.setWaiting_of_ne htag]
    rfl

private theorem settled_post (h : Sound log l) (hone : e.answers ≤ 1)
    {answers : ℕ} (hn : log[n]? = some (.request tag answers)) :
    (l.post log.length e).Settled n tag ↔
      l.Settled n tag ∧ ¬ (e = .request tag 0 ∧ l.waiting tag = some n) := by
  have hlt : n < log.length := (List.getElem?_eq_some_iff.1 hn).1
  have hkeeps : (∀ tag, e ≠ .request tag 0) →
      (l.Settled n tag ↔ l.Settled n tag ∧ ¬ (e = .request tag 0 ∧ l.waiting tag = some n)) :=
    fun he => (and_iff_left fun hboth => he tag hboth.1).symm
  cases e with
  | other => exact hkeeps nofun
  | request tag' answers' =>
    cases answers' with
    | zero =>
      rw [Ledger.post, settled_wait h hlt]
      grind
    | succ answers' =>
      rw [← hkeeps nofun]
      exact Ledger.settled_answer_of_ne (Nat.ne_of_gt hlt) _
  | followUp tag' answers' =>
    rw [← hkeeps nofun]
    cases answers' with
    | zero => exact Iff.rfl
    | succ answers' =>
      have hsingle : answers' = 0 := by simpa [Entry.answers] using hone
      subst hsingle
      rw [Ledger.post]
      cases hm : l.waiting tag' with
      | none => exact Iff.rfl
      | some m =>
        by_cases hne : m = n
        · -- the request that was waited for
          subst hne
          have hsame : tag' = tag := by
            have hentry := (h.waits tag' m hm).symm.trans hn
            cases hentry
            rfl
          subst hsame
          have hcount := h.unanswered tag' m hm
          exact iff_of_true (Ledger.settled_answer hcount (h.released hm tag')) (.inl ⟨hcount, hm⟩)
        · rw [Ledger.settled_answer_of_ne hne]
          exact settled_release_of_ne fun hn' => hne (Option.some.inj (hm.symm.trans hn'))

private theorem settled_new (h : Sound log l) {answers : ℕ} (hone : answers ≤ 1) :
    (l.post log.length (.request tag answers)).Settled log.length tag := by
  cases answers with
  | zero => exact .inl ⟨h.count_new, Ledger.setWaiting_self _ _ _⟩
  | succ answers =>
    have hsingle : answers = 0 := by omega
    subst hsingle
    exact Ledger.settled_answer h.count_new (h.new_not_waiting tag)

private theorem allSettled_concat (log : List (Entry κ)) (hone : e.answers ≤ 1) :
    AllSettled (log ++ [e]) ↔ AllSettled log ∧ ¬ (ledgerOf log).Displaces e := by
  have hsound := ledgerOf_sound log
  rw [AllSettled, ledgerOf_concat]
  constructor
  · intro h
    have hold : ∀ n tag answers, log[n]? = some (.request tag answers) →
        (ledgerOf log).Settled n tag ∧
          ¬ (e = .request tag 0 ∧ (ledgerOf log).waiting tag = some n) := by
      intro n tag answers hn
      refine (settled_post hsound hone hn).1 (h n tag answers ?_)
      rw [List.getElem?_append_left (List.getElem?_eq_some_iff.1 hn).1]
      exact hn
    refine ⟨fun n tag answers hn => (hold n tag answers hn).1, ?_⟩
    rintro ⟨tag, he, hwaiting⟩
    obtain ⟨n, hn⟩ := Option.ne_none_iff_exists'.1 hwaiting
    exact (hold n tag 0 (hsound.waits tag n hn)).2 ⟨he, hn⟩
  · rintro ⟨hall, hfree⟩ n tag answers hn
    by_cases hlt : n < log.length
    · rw [List.getElem?_append_left hlt] at hn
      refine (settled_post hsound hone hn).2 ⟨hall n tag answers hn, fun hboth => ?_⟩
      exact hfree ⟨tag, hboth.1, by rw [hboth.2]; nofun⟩
    · have hbound := (List.getElem?_eq_some_iff.1 hn).1
      rw [List.length_append, List.length_singleton] at hbound
      have heq : n = log.length := by omega
      subst heq
      rw [List.getElem?_concat_length] at hn
      cases hn
      exact settled_new hsound hone

/-- Where no entry brings more than one answer, every request is settled if and only if none
is displaced. -/
theorem allSettled_iff (hone : ∀ e ∈ log, e.answers ≤ 1) :
    AllSettled log ↔
      ∀ before e after, log = before ++ e :: after → ¬ (ledgerOf before).Displaces e := by
  induction log using List.reverseRecOn with
  | nil =>
    refine iff_of_true (fun n tag answers hn => by cases hn) fun before e after heq => ?_
    cases before <;> cases heq
  | append_singleton log e ih =>
    rw [allSettled_concat log (hone e (by simp)), ih fun e he => hone e (List.mem_append_left _ he)]
    constructor
    · rintro ⟨hall, hlast⟩ before e' after heq
      rcases List.eq_nil_or_concat after with rfl | ⟨after, e'', rfl⟩
      · obtain ⟨rfl, hsame⟩ := List.append_inj' heq rfl
        cases hsame
        exact hlast
      · rw [List.concat_eq_append, ← List.cons_append, ← List.append_assoc] at heq
        exact hall before e' after (List.append_inj' heq rfl).1
    · intro hall
      refine ⟨fun before e' after heq => hall before e' (after ++ [e]) ?_, hall log e [] rfl⟩
      rw [heq, List.append_assoc]
      rfl

end XBoot.RequestLedgers
