import Mathlib.Data.List.Basic
import Mathlib.Tactic.Common

/-!
# Reading frames off a stream

A reader parses frames off the front of a buffer and handles them in turn; when the buffer
holds no complete frame, it appends what arrives next. Where frames and fatal errors stay
what they are when bytes are appended, the course of a reader does not depend on the way in
which the stream is cut into arrivals.
-/

namespace XBoot.StreamReaders

/-- A parser of frames at the front of a buffer, with the length that a frame takes. -/
structure Framing (α β ε : Type) where
  parse : List α → Except ε (β × ℕ)
  /-- Whether more input may cure the error. -/
  curable : ε → Bool
  used_pos : ∀ {buf x used}, parse buf = .ok (x, used) → 0 < used
  used_le : ∀ {buf x used}, parse buf = .ok (x, used) → used ≤ buf.length
  parse_append : ∀ {buf x used} more, parse buf = .ok (x, used) → parse (buf ++ more) = .ok (x, used)
  fatal_append : ∀ {buf e} more, parse buf = .error e → curable e = false →
    parse (buf ++ more) = .error e

/-- The handling of frames, with the states in which the reader closes. -/
structure Handler (β γ φ S : Type) where
  handle : S → β → Except φ (List γ × S)
  closing : S → Bool

/-- Where a reader stops. -/
inductive Stop (ε φ : Type) where
  | closing
  | fatal (e : ε)
  | failed (e : φ)
  /-- More input is needed. -/
  | starved
  /-- The stream has ended. -/
  | ended
  deriving DecidableEq

/-- What a reader has done so far. -/
structure Progress (β γ S : Type) where
  fed : List β
  sent : List γ
  consumed : ℕ
  state : S

/-- What a reader waits for: a read, or a wait without one. -/
inductive Arrival (α : Type) where
  | bytes (xs : List α)
  | silence

variable {α β γ ε φ S : Type}

def Arrival.payload : Arrival α → List α
  | .bytes xs => xs
  | .silence => []

def streamOf (arrivals : List (Arrival α)) : List α := arrivals.flatMap Arrival.payload

/-- No read is empty, as the one at the end of a stream. -/
def NonEmpty (arrivals : List (Arrival α)) : Prop := ∀ xs, .bytes xs ∈ arrivals → xs ≠ []

namespace Progress

def start (s : S) : Progress β γ S := ⟨[], [], 0, s⟩

def feed (p : Progress β γ S) (x : β) : Progress β γ S := { p with fed := p.fed ++ [x] }

/-- The frame is handled and taken off the buffer. -/
def finish (p : Progress β γ S) (out : List γ) (used : ℕ) (s : S) : Progress β γ S :=
  { p with sent := p.sent ++ out, consumed := p.consumed + used, state := s }

end Progress

variable (f : Framing α β ε) (h : Handler β γ φ S)

/-- Handle the complete frames in the buffer, and keep the rest. -/
def drain (p : Progress β γ S) (buf : List α) : Progress β γ S × Stop ε φ × List α :=
  match _hparse : f.parse buf with
  | .ok (x, used) => match h.handle p.state x with
    | .error e => (p.feed x, .failed e, buf)
    | .ok (out, s) =>
      if h.closing s then ((p.feed x).finish out used s, .closing, buf.drop used)
      else drain ((p.feed x).finish out used s) (buf.drop used)
  | .error e => (p, if f.curable e then .starved else .fatal e, buf)
termination_by buf.length
decreasing_by
  rw [List.length_drop]
  exact Nat.sub_lt (Nat.lt_of_lt_of_le (f.used_pos _hparse) (f.used_le _hparse)) (f.used_pos _hparse)

/-- Read until the reader stops or nothing more arrives. -/
def run : List (Arrival α) → Progress β γ S → List α → Progress β γ S × Stop ε φ
  | [], p, buf => ((drain f h p buf).1, (drain f h p buf).2.1)
  | a :: rest, p, buf => match drain f h p buf with
    | (p', .starved, buf') => match a with
      | .silence => run rest p' buf'
      | .bytes [] => (p', .ended)
      | .bytes (x :: xs) => run rest p' (buf' ++ x :: xs)
    | (p', stop, _) => (p', stop)

variable {f h} {p p' : Progress β γ S} {buf buf' more : List α} {x : β} {used : ℕ} {out : List γ}
  {s : S} {e : ε} {e' : φ} {stop : Stop ε φ}

theorem drain_error (hparse : f.parse buf = .error e) :
    drain f h p buf = (p, if f.curable e then .starved else .fatal e, buf) := by
  rw [drain]
  split
  · rename_i hok
    cases hparse.symm.trans hok
  · rename_i hok
    cases hparse.symm.trans hok
    rfl

theorem drain_ok (hparse : f.parse buf = .ok (x, used)) :
    drain f h p buf = match h.handle p.state x with
      | .error e => (p.feed x, .failed e, buf)
      | .ok (out, s) =>
        if h.closing s then ((p.feed x).finish out used s, .closing, buf.drop used)
        else drain f h ((p.feed x).finish out used s) (buf.drop used) := by
  rw [drain]
  split
  · rename_i hok
    cases hparse.symm.trans hok
    rfl
  · rename_i hok
    cases hparse.symm.trans hok

/-- A frame that arrives in one piece, and is followed by none. -/
theorem run_one (hempty : f.parse [] = .error e) (hcurable : f.curable e = true)
    (hparse : f.parse buf = .ok (x, buf.length)) (hhandle : h.handle p.state x = .ok (out, s))
    (hopen : h.closing s = false) :
    run f h [.bytes buf] p [] = ((p.feed x).finish out buf.length s, .starved) := by
  have hdrain (p : Progress β γ S) : drain f h p [] = (p, .starved, []) := by
    rw [drain_error hempty, if_pos hcurable]
  cases buf with
  | nil => cases hempty.symm.trans hparse
  | cons y ys =>
    rw [run, hdrain]
    dsimp only
    rw [List.nil_append, run, drain_ok hparse, hhandle]
    dsimp only
    rw [hopen, if_neg Bool.false_ne_true, List.drop_length, hdrain]

/-- What every handled frame keeps holds where a reader stops; `post` is what is left of it
when a frame fails. -/
theorem drain_invariant (inv post : Progress β γ S → Prop) (hpost : ∀ p, inv p → post p)
    (hstep : ∀ p x used out s, inv p → h.handle p.state x = .ok (out, s) →
      inv ((p.feed x).finish out used s))
    (hfail : ∀ p x e, inv p → h.handle p.state x = .error e → post (p.feed x)) (hp : inv p)
    (buf : List α) :
    post (drain f h p buf).1 ∧ ((drain f h p buf).2.1 = .starved → inv (drain f h p buf).1) := by
  induction hlen : buf.length using Nat.strongRecOn generalizing p buf with
  | ind n ih =>
    subst hlen
    cases hparse : f.parse buf with
    | error e =>
      rw [drain_error hparse]
      exact ⟨hpost p hp, fun _ => hp⟩
    | ok r =>
      obtain ⟨x, used⟩ := r
      rw [drain_ok hparse]
      cases hhandle : h.handle p.state x with
      | error e => exact ⟨hfail p x e hp hhandle, nofun⟩
      | ok r =>
        obtain ⟨out, s⟩ := r
        have hnext := hstep p x used out s hp hhandle
        dsimp only
        split
        · exact ⟨hpost _ hnext, nofun⟩
        · have hshorter : (buf.drop used).length < buf.length := by
            have hpos := f.used_pos hparse
            have hle := f.used_le hparse
            rw [List.length_drop]
            omega
          exact ih _ hshorter hnext _ rfl

theorem run_invariant (inv post : Progress β γ S → Prop) (hpost : ∀ p, inv p → post p)
    (hstep : ∀ p x used out s, inv p → h.handle p.state x = .ok (out, s) →
      inv ((p.feed x).finish out used s))
    (hfail : ∀ p x e, inv p → h.handle p.state x = .error e → post (p.feed x)) (hp : inv p)
    (arrivals : List (Arrival α)) (buf : List α) : post (run f h arrivals p buf).1 := by
  induction arrivals generalizing p buf with
  | nil => exact (drain_invariant inv post hpost hstep hfail hp buf).1
  | cons a rest ih =>
    obtain ⟨hstop, hgo⟩ := drain_invariant (f := f) inv post hpost hstep hfail hp buf
    rw [run]
    generalize drain f h p buf = d at hstop hgo
    obtain ⟨p', stop, buf'⟩ := d
    cases stop with
    | starved =>
      cases a with
      | silence => exact ih (hgo rfl) buf'
      | bytes xs =>
        cases xs with
        | nil => exact hstop
        | cons x xs => exact ih (hgo rfl) _
    | _ => exact hstop

/-- A reader that needs more input goes on as if the input had been there, and another one
stops where it stops. -/
theorem drain_append (p : Progress β γ S) (buf more : List α) :
    drain f h p (buf ++ more) = match drain f h p buf with
      | (p', .starved, buf') => drain f h p' (buf' ++ more)
      | (p', stop, buf') => (p', stop, buf' ++ more) := by
  induction hlen : buf.length using Nat.strongRecOn generalizing p buf with
  | ind n ih =>
    subst hlen
    cases hparse : f.parse buf with
    | error e =>
      rw [drain_error hparse]
      cases hcurable : f.curable e with
      | true => rfl
      | false =>
        rw [drain_error (f.fatal_append more hparse hcurable), hcurable]
        rfl
    | ok r =>
      obtain ⟨x, used⟩ := r
      have hle := f.used_le hparse
      rw [drain_ok hparse, drain_ok (f.parse_append more hparse)]
      cases hhandle : h.handle p.state x with
      | error e => rfl
      | ok r =>
        obtain ⟨out, s⟩ := r
        dsimp only
        rw [List.drop_append_of_le_length hle]
        cases hclosing : h.closing s with
        | true => rfl
        | false =>
          have hshorter : (buf.drop used).length < buf.length := by
            have hpos := f.used_pos hparse
            rw [List.length_drop]
            omega
          exact ih _ hshorter _ _ rfl

/-- What arrives in pieces is handled as if it had been there at once. -/
theorem run_eq_drain (arrivals : List (Arrival α)) (hne : NonEmpty arrivals)
    (p : Progress β γ S) (buf : List α) :
    run f h arrivals p buf = ((drain f h p (buf ++ streamOf arrivals)).1,
      (drain f h p (buf ++ streamOf arrivals)).2.1) := by
  induction arrivals generalizing p buf with
  | nil => rw [streamOf, List.flatMap_nil, List.append_nil]; rfl
  | cons a rest ih =>
    have hrest : NonEmpty rest := fun xs hxs => hne xs (List.mem_cons_of_mem _ hxs)
    have hstream : streamOf (a :: rest) = a.payload ++ streamOf rest := List.flatMap_cons
    rw [hstream, drain_append p buf, run]
    generalize drain f h p buf = d
    obtain ⟨p', stop, buf'⟩ := d
    cases stop with
    | starved =>
      cases a with
      | silence => exact ih hrest p' buf'
      | bytes xs =>
        cases xs with
        | nil => exact absurd rfl (hne [] List.mem_cons_self)
        | cons x xs =>
          have hgo := ih hrest p' (buf' ++ x :: xs)
          rw [List.append_assoc] at hgo
          exact hgo
    | _ => rfl

/-- The course of a reader depends on the stream alone. -/
theorem run_congr {as bs : List (Arrival α)} (ha : NonEmpty as) (hb : NonEmpty bs)
    (hstream : streamOf as = streamOf bs) (p : Progress β γ S) :
    run f h as p [] = run f h bs p [] := by
  rw [run_eq_drain as ha, run_eq_drain bs hb, hstream]

/-- Every frame that a reader takes in was parsed off a buffer. -/
theorem drain_parsed (p : Progress β γ S) (buf : List α) :
    ∀ x ∈ (drain f h p buf).1.fed, x ∈ p.fed ∨ ∃ buf used, f.parse buf = .ok (x, used) := by
  induction hlen : buf.length using Nat.strongRecOn generalizing p buf with
  | ind n ih =>
    subst hlen
    cases hparse : f.parse buf with
    | error e =>
      rw [drain_error hparse]
      exact fun x hx => .inl hx
    | ok r =>
      obtain ⟨x, used⟩ := r
      have hfed : ∀ y ∈ (p.feed x).fed, y ∈ p.fed ∨ ∃ buf used, f.parse buf = .ok (y, used) := by
        intro y hy
        rcases List.mem_append.1 hy with hy | hy
        · exact .inl hy
        · rw [List.mem_singleton.1 hy]
          exact .inr ⟨buf, used, hparse⟩
      rw [drain_ok hparse]
      cases hhandle : h.handle p.state x with
      | error e => exact hfed
      | ok r =>
        dsimp only
        split
        · exact hfed
        · have hshorter : (buf.drop used).length < buf.length := by
            have hpos := f.used_pos hparse
            have hle := f.used_le hparse
            rw [List.length_drop]
            omega
          intro y hy
          rcases ih _ hshorter _ _ rfl y hy with hy | hy
          · exact hfed y hy
          · exact .inr hy

theorem run_parsed (arrivals : List (Arrival α)) (p : Progress β γ S) (buf : List α) :
    ∀ x ∈ (run f h arrivals p buf).1.fed, x ∈ p.fed ∨ ∃ buf used, f.parse buf = .ok (x, used) := by
  induction arrivals generalizing p buf with
  | nil => exact drain_parsed p buf
  | cons a rest ih =>
    have hdrained := drain_parsed (f := f) (h := h) p buf
    rw [run]
    generalize drain f h p buf = d at hdrained
    obtain ⟨p', stop, buf'⟩ := d
    have hrest (buf : List α) : ∀ x ∈ (run f h rest p' buf).1.fed,
        x ∈ p.fed ∨ ∃ buf used, f.parse buf = .ok (x, used) := by
      intro x hx
      rcases ih p' buf x hx with hx | hx
      · exact hdrained x hx
      · exact .inr hx
    cases stop with
    | starved =>
      cases a with
      | silence => exact hrest buf'
      | bytes xs =>
        cases xs with
        | nil => exact hdrained
        | cons x xs => exact hrest _
    | _ => exact hdrained

end XBoot.StreamReaders
