import XBoot.LoginKeys
import XBoot.PduEncoding
import Mathlib.Data.List.TakeWhile

/-!
# Login texts in pieces

A login text may come in several PDUs, all but the last with the C bit set. Each of them is
parsed, negotiated and answered on its own. The session that they come to is the one of the
whole text only when the cuts do not change what the text says.
-/

namespace XBoot.Iscsi

open Numerals

variable {σ τ : Type}

def firstTarget (text : List (String × String)) : Option String :=
  (text.find? (·.1 = "TargetName")).map (·.2)

def namedTarget (tg : Targets σ τ) (w : σ) (text : List (String × String)) : Option τ :=
  (firstTarget text).bind (tg.get w)

theorem firstTarget_append (text more : List (String × String)) :
    firstTarget (text ++ more) = (firstTarget text).or (firstTarget more) := by
  simp [firstTarget, List.find?_append, Option.map_or]

/-- An unbound session is refused a text that names a target in vain, or none on the way to
FullFeature. -/
def Refused (tg : Targets σ τ) (w : σ) (target : Option τ) (text : List (String × String))
    (enters : Prop) : Prop :=
  target = none ∧ namedTarget tg w text = none ∧ (firstTarget text ≠ none ∨ enters)

instance (tg : Targets σ τ) (w : σ) (target : Option τ) (text : List (String × String))
    (enters : Prop) [Decidable enters] : Decidable (Refused tg w target text enters) :=
  decidable_of_iff (target.isNone = true ∧ (namedTarget tg w text).isNone = true ∧
    ((firstTarget text).isSome = true ∨ enters)) (by
      rw [Option.isNone_iff_eq_none, Option.isNone_iff_eq_none, Option.isSome_iff_ne_none]
      rfl)

namespace LoginRequest

abbrev Enters (lr : LoginRequest) : Prop := lr.transit = true ∧ lr.nsg = 3

def offers (lr : LoginRequest) : List (String × String) :=
  if Connection.operational lr = true then lr.text else []

def carrying (lr : LoginRequest) (bytes : List UInt8) : LoginRequest :=
  { lr with continue_ := false, text := parsePairs bytes }

end LoginRequest

structure Piece where
  pdu : LoginRequest
  bytes : List UInt8

/-- The PDU of a piece that is not the last one. -/
def Piece.continued (p : Piece) (csg : UInt8) : LoginRequest :=
  { p.pdu with transit := false, continue_ := true, csg := csg, text := parsePairs p.bytes }

/-- The parts of a connection that a login is about. -/
structure Ends (c : Connection τ) (stage : Stage) (target : Option τ) (params : SessionParams) :
    Prop where
  stage_eq : c.stage = stage
  target_eq : c.target = target
  params_eq : c.params = params

variable {tg : Targets σ τ} {w : σ} (bhs : List UInt8) {c : Connection τ} {lr : LoginRequest}

namespace Connection

def afterLogin (tg : Targets σ τ) (w : σ) (bhs : List UInt8) (c : Connection τ)
    (lr : LoginRequest) : Connection τ :=
  match c.handle tg w (.login lr) bhs with
  | .ok (_, next, _) => next
  | .error _ => c

def afterLogins (tg : Targets σ τ) (w : σ) (bhs : List UInt8) (c : Connection τ)
    (lrs : List LoginRequest) : Connection τ := lrs.foldl (afterLogin tg w bhs) c

theorem afterLogin_login (hstage : c.stage = .login) :
    c.afterLogin tg w bhs lr = (c.handleLogin tg w lr).2 := by
  simp only [afterLogin, handle, hstage, answer]

theorem afterLogin_closing (hstage : c.stage = .closing) :
    Ends (c.afterLogin tg w bhs lr) .closing c.target c.params := by
  simp only [afterLogin, handle, hstage, answer]
  exact ⟨rfl, rfl, rfl⟩

theorem afterLogins_closing {lrs : List LoginRequest} (hstage : c.stage = .closing) :
    Ends (c.afterLogins tg w bhs lrs) .closing c.target c.params := by
  induction lrs generalizing c with
  | nil => exact ⟨hstage, rfl, rfl⟩
  | cons lr lrs ih =>
    have hstep : Ends (c.afterLogin tg w bhs lr) .closing c.target c.params :=
      afterLogin_closing bhs hstage
    have hrest := ih hstep.stage_eq
    rwa [hstep.target_eq, hstep.params_eq] at hrest

theorem bindTarget_refused (h : Refused tg w c.target lr.text lr.Enters) :
    bindTarget tg w c lr = none := by
  obtain ⟨hunbound, hnamed, hwhy⟩ := h
  rw [bindTarget, hunbound, Option.isSome_none, if_neg Bool.false_ne_true]
  rw [namedTarget, firstTarget] at hnamed
  rw [firstTarget] at hwhy
  cases hfind : lr.text.find? (·.1 = "TargetName") with
  | none =>
    rw [hfind] at hwhy
    exact if_pos (hwhy.resolve_left fun h => h rfl)
  | some kv =>
    rw [hfind] at hnamed
    exact Option.map_eq_none_iff.2 hnamed

theorem bindTarget_accepted (h : ¬ Refused tg w c.target lr.text lr.Enters) :
    bindTarget tg w c lr = some { c with target := c.target.or (namedTarget tg w lr.text) } := by
  rw [bindTarget]
  cases hbound : c.target with
  | some target =>
    rw [if_pos Option.isSome_some, Option.some_or, ← hbound]
  | none =>
    rw [Option.isSome_none, if_neg Bool.false_ne_true, Option.none_or]
    simp only [Refused, namedTarget, firstTarget, hbound, true_and] at h ⊢
    cases hfind : lr.text.find? (·.1 = "TargetName") with
    | none =>
      rw [hfind] at h
      simp only [Option.map_none, Option.bind_none, ne_eq, not_true_eq_false, false_or,
        true_and] at h ⊢
      rw [if_neg h, ← hbound]
    | some kv =>
      rw [hfind] at h
      simp only [Option.map_some, Option.bind_some, ne_eq, reduceCtorEq, not_false_eq_true,
        true_or, and_true] at h ⊢
      obtain ⟨target, htarget⟩ := Option.ne_none_iff_exists'.1 h
      rw [htarget, Option.map_some]

theorem afterLogin_refused (hstage : c.stage = .login)
    (h : Refused tg w c.target lr.text lr.Enters) :
    Ends (c.afterLogin tg w bhs lr) .closing none c.params := by
  have hbind : bindTarget tg w (c.sequenced lr) lr = none := bindTarget_refused h
  rw [afterLogin_login bhs hstage, handleLogin, hbind]
  exact ⟨rfl, h.1, rfl⟩

theorem afterLogin_accepted (hstage : c.stage = .login)
    (h : ¬ Refused tg w c.target lr.text lr.Enters) :
    Ends (c.afterLogin tg w bhs lr) (if lr.Enters then .fullFeature else .login)
      (c.target.or (namedTarget tg w lr.text)) (c.params.negotiateAll lr.offers) := by
  have hbind : bindTarget tg w (c.sequenced lr) lr = _ := bindTarget_accepted h
  rw [afterLogin_login bhs hstage, handleLogin, hbind]
  refine ⟨?_, rfl, ?_⟩
  · dsimp only [sequenced]
    by_cases htransit : lr.transit = true <;> by_cases hnsg : lr.nsg = 3 <;>
      simp [LoginRequest.Enters, htransit, hnsg, hstage]
  · dsimp only [LoginRequest.offers, sequenced]
    split <;> rfl

def texts (lrs : List LoginRequest) : List (String × String) := lrs.flatMap (·.text)

def allOffers (lrs : List LoginRequest) : List (String × String) := lrs.flatMap (·.offers)

/-- The logins before the first one that names a target. -/
def unnamed (lrs : List LoginRequest) : List LoginRequest :=
  lrs.takeWhile fun lr => (firstTarget lr.text).isNone

variable {lrs : List LoginRequest}

theorem texts_cons : texts (lr :: lrs) = lr.text ++ texts lrs := List.flatMap_cons

theorem allOffers_cons : allOffers (lr :: lrs) = lr.offers ++ allOffers lrs := List.flatMap_cons

theorem refused_false {target : Option τ} {text : List (String × String)} :
    Refused tg w target text False ↔
      target = none ∧ namedTarget tg w text = none ∧ firstTarget text ≠ none := by
  rw [Refused, or_false]

theorem or_namedTarget_append {target : Option τ} {text : List (String × String)}
    (more : List (String × String)) (h : ¬ Refused tg w target text False) :
    target.or (namedTarget tg w (text ++ more)) =
      (target.or (namedTarget tg w text)).or (namedTarget tg w more) := by
  cases target with
  | some target => rfl
  | none =>
    simp only [Option.none_or]
    rw [namedTarget, firstTarget_append]
    cases hfirst : firstTarget text with
    | none => rw [namedTarget, hfirst, Option.bind_none, Option.none_or, Option.none_or, namedTarget]
    | some iqn =>
      have hnamed : namedTarget tg w text ≠ none := fun hnone =>
        h (refused_false.2 ⟨rfl, hnone, by rw [hfirst]; exact Option.some_ne_none iqn⟩)
      obtain ⟨bound, hbound⟩ := Option.ne_none_iff_exists'.1 hnamed
      rw [hbound, Option.some_or, Option.some_or, ← hbound, namedTarget, hfirst]

/-- What follows a text that is not refused is judged by the target bound so far. -/
theorem refused_append {target : Option τ} {text more : List (String × String)} {enters : Prop}
    (h : ¬ Refused tg w target text False) :
    Refused tg w target (text ++ more) enters ↔
      Refused tg w (target.or (namedTarget tg w text)) more enters := by
  have hor := or_namedTarget_append more h
  cases target with
  | some target => simp [Refused]
  | none =>
    simp only [Option.none_or] at hor ⊢
    rw [Refused, Refused, hor, Option.or_eq_none_iff, firstTarget_append, ne_eq,
      Option.or_eq_none_iff]
    have hfirst : namedTarget tg w text = none → firstTarget text = none := by
      intro hnone
      by_contra hsome
      exact h (refused_false.2 ⟨rfl, hnone, hsome⟩)
    constructor
    · rintro ⟨-, ⟨hnamed, hmore⟩, hwhy⟩
      exact ⟨hnamed, hmore, hwhy.imp_left fun hnot hnone => hnot ⟨hfirst hnamed, hnone⟩⟩
    · rintro ⟨hnamed, hmore, hwhy⟩
      exact ⟨rfl, ⟨hnamed, hmore⟩, hwhy.imp_left fun hnot hboth => hnot hboth.2⟩

theorem refused_append_of {target : Option τ} {text : List (String × String)}
    (more : List (String × String)) (enters : Prop) (h : Refused tg w target text False) :
    Refused tg w target (text ++ more) enters := by
  obtain ⟨hunbound, hnamed, hfirst⟩ := refused_false.1 h
  obtain ⟨iqn, hiqn⟩ := Option.ne_none_iff_exists'.1 hfirst
  rw [namedTarget, hiqn] at hnamed
  rw [Refused, namedTarget, firstTarget_append, hiqn]
  exact ⟨hunbound, hnamed, .inl (Option.some_ne_none iqn)⟩

theorem refused_of_stays {target : Option τ} (hstays : lr.transit = false) :
    Refused tg w target lr.text lr.Enters ↔ Refused tg w target lr.text False := by
  simp [Refused, LoginRequest.Enters, hstays]

theorem afterLogin_continued (hstage : c.stage = .login) (hstays : lr.transit = false)
    (h : ¬ Refused tg w c.target lr.text False) :
    Ends (c.afterLogin tg w bhs lr) .login (c.target.or (namedTarget tg w lr.text))
      (c.params.negotiateAll lr.offers) := by
  have hstep := afterLogin_accepted bhs hstage (mt (refused_of_stays hstays).1 h)
  rwa [if_neg fun hEnters => Bool.false_ne_true (hstays.symm.trans hEnters.1)] at hstep

/-- Continued logins whose texts name no target in vain. -/
theorem afterLogins_accepted (hstage : c.stage = .login) (hstay : ∀ lr ∈ lrs, lr.transit = false)
    (h : ¬ Refused tg w c.target (texts lrs) False) :
    Ends (c.afterLogins tg w bhs lrs) .login (c.target.or (namedTarget tg w (texts lrs)))
      (c.params.negotiateAll (allOffers lrs)) := by
  induction lrs generalizing c with
  | nil => exact ⟨hstage, (Option.or_none).symm, rfl⟩
  | cons lr lrs ih =>
    have hhere : ¬ Refused tg w c.target lr.text False := by
      intro hrefused
      rw [texts_cons] at h
      exact h (refused_append_of _ _ hrefused)
    have hstep := afterLogin_continued bhs hstage (hstay lr List.mem_cons_self) hhere
    rw [texts_cons, refused_append hhere, ← hstep.target_eq] at h
    have hrest := ih hstep.stage_eq (fun lr' hmem => hstay lr' (List.mem_cons_of_mem _ hmem)) h
    rwa [hstep.target_eq, hstep.params_eq, ← or_namedTarget_append _ hhere, ← texts_cons,
      ← SessionParams.negotiateAll_append, ← allOffers_cons] at hrest

/-- Continued logins of which one names a target in vain close the connection. -/
theorem afterLogins_refused (hstage : c.stage = .login) (hstay : ∀ lr ∈ lrs, lr.transit = false)
    (h : Refused tg w c.target (texts lrs) False) :
    Ends (c.afterLogins tg w bhs lrs) .closing none
      (c.params.negotiateAll (allOffers (unnamed lrs))) := by
  induction lrs generalizing c with
  | nil => exact absurd rfl (refused_false.1 h).2.2
  | cons lr lrs ih =>
    have hstays : lr.transit = false := hstay lr List.mem_cons_self
    by_cases hhere : Refused tg w c.target lr.text False
    · have hstep := afterLogin_refused bhs hstage ((refused_of_stays hstays).2 hhere)
      have hrest : Ends ((c.afterLogin tg w bhs lr).afterLogins tg w bhs lrs) .closing _ _ :=
        afterLogins_closing bhs hstep.stage_eq
      rw [hstep.target_eq, hstep.params_eq] at hrest
      have hnamed : unnamed (lr :: lrs) = [] := by
        rw [unnamed, List.takeWhile_cons_of_neg]
        rw [Option.isNone_iff_eq_none]
        exact (refused_false.1 hhere).2.2
      rw [hnamed]
      exact hrest
    · have hstep := afterLogin_continued bhs hstage hstays hhere
      have hunbound : c.target = none := h.1
      rw [texts_cons, refused_append hhere] at h
      have hnone : firstTarget lr.text = none := by
        by_contra hsome
        rw [hunbound, Option.none_or] at h
        exact hhere (refused_false.2 ⟨hunbound, h.1, hsome⟩)
      rw [← hstep.target_eq] at h
      have hrest := ih hstep.stage_eq (fun lr' hmem => hstay lr' (List.mem_cons_of_mem _ hmem)) h
      have hunnamed : unnamed (lr :: lrs) = lr :: unnamed lrs := by
        rw [unnamed, List.takeWhile_cons_of_pos]
        · rfl
        · rw [hnone]
          rfl
      rwa [hstep.params_eq, ← SessionParams.negotiateAll_append, ← allOffers_cons, ← hunnamed]
        at hrest

theorem unnamed_eq_self (h : firstTarget (texts lrs) = none) : unnamed lrs = lrs := by
  refine List.takeWhile_eq_self_iff.2 fun lr hmem => ?_
  obtain ⟨before, after, rfl⟩ := List.append_of_mem hmem
  rw [texts, List.flatMap_append, List.flatMap_cons, firstTarget_append, Option.or_eq_none_iff,
    firstTarget_append, Option.or_eq_none_iff] at h
  rw [h.2.1]
  rfl

variable {last : LoginRequest}

theorem afterLogins_concat : c.afterLogins tg w bhs (lrs ++ [last]) =
    (c.afterLogins tg w bhs lrs).afterLogin tg w bhs last := by
  rw [afterLogins, List.foldl_append]
  rfl

/-- Pieces that are refused together close the connection. -/
theorem pieces_refused (hstage : c.stage = .login) (hstay : ∀ lr ∈ lrs, lr.transit = false)
    (h : Refused tg w c.target (texts lrs ++ last.text) last.Enters) :
    Ends (c.afterLogins tg w bhs (lrs ++ [last])) .closing none
      (c.params.negotiateAll (allOffers (unnamed lrs))) := by
  rw [afterLogins_concat]
  by_cases hearly : Refused tg w c.target (texts lrs) False
  · have hbefore := afterLogins_refused bhs hstage hstay hearly
    have hlast : Ends ((c.afterLogins tg w bhs lrs).afterLogin tg w bhs last) .closing _ _ :=
      afterLogin_closing bhs hbefore.stage_eq
    rwa [hbefore.target_eq, hbefore.params_eq] at hlast
  · have hbefore := afterLogins_accepted bhs hstage hstay hearly
    have hunbound : c.target = none := h.1
    rw [refused_append hearly, ← hbefore.target_eq] at h
    have hlast := afterLogin_refused bhs hbefore.stage_eq h
    have hnone : firstTarget (texts lrs) = none := by
      by_contra hsome
      rw [hbefore.target_eq, hunbound, Option.none_or] at h
      exact hearly (refused_false.2 ⟨hunbound, h.1, hsome⟩)
    rw [unnamed_eq_self hnone]
    rwa [hbefore.params_eq] at hlast

/-- Any other pieces come to their target and their offers. -/
theorem pieces_accepted (hstage : c.stage = .login) (hstay : ∀ lr ∈ lrs, lr.transit = false)
    (h : ¬ Refused tg w c.target (texts lrs ++ last.text) last.Enters) :
    Ends (c.afterLogins tg w bhs (lrs ++ [last])) (if last.Enters then .fullFeature else .login)
      (c.target.or (namedTarget tg w (texts lrs ++ last.text)))
      (c.params.negotiateAll (allOffers (lrs ++ [last]))) := by
  have hearly : ¬ Refused tg w c.target (texts lrs) False :=
    mt (refused_append_of last.text last.Enters) h
  have hbefore := afterLogins_accepted bhs hstage hstay hearly
  rw [refused_append hearly, ← hbefore.target_eq] at h
  have hlast := afterLogin_accepted bhs hbefore.stage_eq h
  rw [hbefore.target_eq, hbefore.params_eq, ← or_namedTarget_append _ hearly,
    ← SessionParams.negotiateAll_append] at hlast
  rw [afterLogins_concat, allOffers, List.flatMap_append, List.flatMap_singleton]
  exact hlast

/-- The pieces name the same target as the whole text, or both name none that is there, and
they offer the same for each key. -/
structure SaysTheSame (tg : Targets σ τ) (w : σ) (c : Connection τ) (lrs : List LoginRequest)
    (last whole : LoginRequest) : Prop where
  target : c.target = none →
    namedTarget tg w (texts lrs ++ last.text) = namedTarget tg w whole.text ∧
      (whole.Enters ∨ (firstTarget (texts lrs ++ last.text) = none ↔ firstTarget whole.text = none))
  keys : ¬ Refused tg w c.target whole.text whole.Enters →
    c.params.Matching (allOffers (lrs ++ [last])) whole.offers
  /-- Where the whole text is refused, nothing may have been negotiated before. -/
  refused : Refused tg w c.target whole.text whole.Enters →
    c.params.Matching (allOffers (unnamed lrs)) []

theorem namedTarget_none_of {text : List (String × String)} (h : firstTarget text = none) :
    namedTarget tg w text = none := by
  rw [namedTarget, h, Option.bind_none]

theorem refused_congr {target : Option τ} {text more : List (String × String)} {enters : Prop}
    (h : target = none → namedTarget tg w text = namedTarget tg w more ∧
      (enters ∨ (firstTarget text = none ↔ firstTarget more = none))) :
    Refused tg w target text enters ↔ Refused tg w target more enters := by
  rw [Refused, Refused]
  refine and_congr_right fun hunbound => ?_
  obtain ⟨hnamed, halike⟩ := h hunbound
  rw [hnamed]
  refine and_congr_right fun _ => ?_
  rcases halike with henters | hfirst
  · simp [henters]
  · rw [ne_eq, ne_eq, hfirst]

theorem alike_of_refused {text more : List (String × String)} {enters : Prop}
    (hrefused : Refused tg w none text enters ↔ Refused tg w none more enters)
    (hnamed : namedTarget tg w text = namedTarget tg w more) :
    enters ∨ (firstTarget text = none ↔ firstTarget more = none) := by
  by_cases henters : enters
  · exact .inl henters
  refine .inr ?_
  simp only [Refused, henters, or_false, true_and, ← hnamed] at hrefused
  by_cases hnone : namedTarget tg w text = none
  · simpa [hnone, not_iff_not] using hrefused
  · have hmore : namedTarget tg w more ≠ none := hnamed ▸ hnone
    exact iff_of_false (mt namedTarget_none_of hnone) (mt namedTarget_none_of hmore)

theorem matching_iff {p : SessionParams} {offers more : List (String × String)} :
    p.negotiateAll offers = p.negotiateAll more ↔ p.Matching offers more := by
  rw [SessionParams.negotiateAll_eq, SessionParams.negotiateAll_eq, SessionParams.combined_eq_iff]

section Whole

variable {whole : LoginRequest}

theorem SaysTheSame.refused_iff (h : SaysTheSame tg w c lrs last whole)
    (henters : last.Enters ↔ whole.Enters) :
    Refused tg w c.target (texts lrs ++ last.text) last.Enters ↔
      Refused tg w c.target whole.text whole.Enters := by
  rw [← refused_congr h.target, Refused, Refused, henters]

/-- Pieces that come to the session of the whole are refused like it. -/
theorem refused_iff_of_sameSession (hstage : c.stage = .login)
    (hstay : ∀ lr ∈ lrs, lr.transit = false)
    (h : SameSession (c.afterLogin tg w bhs whole) (c.afterLogins tg w bhs (lrs ++ [last]))) :
    Refused tg w c.target (texts lrs ++ last.text) last.Enters ↔
      Refused tg w c.target whole.text whole.Enters := by
  have hclosing := h.stage_eq
  by_cases hwhole : Refused tg w c.target whole.text whole.Enters <;>
    by_cases hpieces : Refused tg w c.target (texts lrs ++ last.text) last.Enters
  · exact iff_of_true hpieces hwhole
  · rw [(afterLogin_refused bhs hstage hwhole).stage_eq,
      (pieces_accepted bhs hstage hstay hpieces).stage_eq] at hclosing
    split at hclosing <;> cases hclosing
  · rw [(afterLogin_accepted bhs hstage hwhole).stage_eq,
      (pieces_refused bhs hstage hstay hpieces).stage_eq] at hclosing
    split at hclosing <;> cases hclosing
  · exact iff_of_false hpieces hwhole

/-- Where both are refused, nothing may have been negotiated before. -/
theorem sameSession_iff_of_refused (hstage : c.stage = .login)
    (hstay : ∀ lr ∈ lrs, lr.transit = false) (henters : last.Enters ↔ whole.Enters)
    (hpieces : Refused tg w c.target (texts lrs ++ last.text) last.Enters)
    (hwhole : Refused tg w c.target whole.text whole.Enters) :
    SameSession (c.afterLogin tg w bhs whole) (c.afterLogins tg w bhs (lrs ++ [last])) ↔
      SaysTheSame tg w c lrs last whole := by
  have hw := afterLogin_refused bhs hstage hwhole
  have hp := pieces_refused bhs hstage hstay hpieces
  constructor
  · intro hsame
    have hnamed : namedTarget tg w (texts lrs ++ last.text) = namedTarget tg w whole.text :=
      hpieces.2.1.trans hwhole.2.1.symm
    have halike : Refused tg w none (texts lrs ++ last.text) whole.Enters ↔
        Refused tg w none whole.text whole.Enters := by
      have hpieces' : Refused tg w c.target (texts lrs ++ last.text) whole.Enters := by
        rwa [Refused, ← henters]
      rw [← hwhole.1]
      exact iff_of_true hpieces' hwhole
    have hparams := hsame.params_eq
    rw [hp.params_eq, hw.params_eq] at hparams
    exact ⟨fun _ => ⟨hnamed, alike_of_refused halike hnamed⟩, fun hnot => absurd hwhole hnot,
      fun _ => matching_iff.1 hparams⟩
  · intro hmatch
    refine ⟨hp.stage_eq.trans hw.stage_eq.symm, ?_, hp.target_eq.trans hw.target_eq.symm⟩
    rw [hp.params_eq, hw.params_eq]
    exact matching_iff.2 (hmatch.refused hwhole)

/-- Where neither is refused, the targets and the offers count. -/
theorem sameSession_iff_of_accepted (hstage : c.stage = .login)
    (hstay : ∀ lr ∈ lrs, lr.transit = false) (henters : last.Enters ↔ whole.Enters)
    (hpieces : ¬ Refused tg w c.target (texts lrs ++ last.text) last.Enters)
    (hwhole : ¬ Refused tg w c.target whole.text whole.Enters) :
    SameSession (c.afterLogin tg w bhs whole) (c.afterLogins tg w bhs (lrs ++ [last])) ↔
      SaysTheSame tg w c lrs last whole := by
  have hw := afterLogin_accepted bhs hstage hwhole
  have hp := pieces_accepted bhs hstage hstay hpieces
  constructor
  · intro hsame
    refine ⟨fun hunbound => ?_, fun _ => ?_, fun hrefused => absurd hrefused hwhole⟩
    · have hnamed := hsame.target_eq
      rw [hp.target_eq, hw.target_eq, hunbound, Option.none_or, Option.none_or] at hnamed
      rw [hunbound] at hwhole hpieces
      have hneither : ¬ Refused tg w none (texts lrs ++ last.text) whole.Enters := by
        rwa [Refused, ← henters]
      exact ⟨hnamed, alike_of_refused (iff_of_false hneither hwhole) hnamed⟩
    · have hparams := hsame.params_eq
      rw [hp.params_eq, hw.params_eq] at hparams
      exact matching_iff.1 hparams
  · intro hmatch
    refine ⟨?_, ?_, ?_⟩
    · rw [hp.stage_eq, hw.stage_eq]
      simp only [henters]
    · rw [hp.params_eq, hw.params_eq]
      exact matching_iff.2 (hmatch.keys hwhole)
    · rw [hp.target_eq, hw.target_eq]
      cases hbound : c.target with
      | some target => rfl
      | none => rw [(hmatch.target hbound).1]

theorem sameSession_iff (hstage : c.stage = .login) (hstay : ∀ lr ∈ lrs, lr.transit = false)
    (henters : last.Enters ↔ whole.Enters) :
    SameSession (c.afterLogin tg w bhs whole) (c.afterLogins tg w bhs (lrs ++ [last])) ↔
      SaysTheSame tg w c lrs last whole := by
  by_cases hboth : Refused tg w c.target (texts lrs ++ last.text) last.Enters ↔
      Refused tg w c.target whole.text whole.Enters
  · by_cases hwhole : Refused tg w c.target whole.text whole.Enters
    · exact sameSession_iff_of_refused bhs hstage hstay henters (hboth.2 hwhole) hwhole
    · exact sameSession_iff_of_accepted bhs hstage hstay henters (mt hboth.1 hwhole) hwhole
  · exact iff_of_false (fun hsame => hboth (refused_iff_of_sameSession bhs hstage hstay hsame))
      fun hmatch => hboth (hmatch.refused_iff henters)

end Whole

/-- For every text and every way of cutting it: the connection after the continued PDUs is the
one after a PDU with the whole text exactly when the pieces say the same, parsed one by one. -/
theorem continued_login_iff (tg : Targets σ τ) (w : σ) (bhs : List UInt8) (c : Connection τ)
    (hstage : c.stage = .login) (login : LoginRequest) (cut : List Piece) (rest : List UInt8) :
    SameSession (c.afterLogin tg w bhs (login.carrying (cut.flatMap (·.bytes) ++ rest)))
        (c.afterLogins tg w bhs (cut.map (·.continued login.csg) ++ [login.carrying rest])) ↔
      SaysTheSame tg w c (cut.map (·.continued login.csg)) (login.carrying rest)
        (login.carrying (cut.flatMap (·.bytes) ++ rest)) := by
  refine sameSession_iff bhs hstage (fun lr hmem => ?_) Iff.rfl
  obtain ⟨p, -, rfl⟩ := List.mem_map.1 hmem
  rfl

/-- The text that names the target of the disk. -/
def nameText : List UInt8 := encodePairs [("TargetName", "a")]

theorem continued_login_iff_whole_key :
    SameSession
      ((Connection.new : Connection ℕ).afterLogin (World.targets id) oneBlockDisk []
        ((loginTo "a" 5).carrying nameText))
      ((Connection.new : Connection ℕ).afterLogins (World.targets id) oneBlockDisk []
        [Piece.continued ⟨loginTo "a" 5, nameText⟩ 0, (loginTo "a" 5).carrying []]) := by
  refine (continued_login_iff (World.targets id) oneBlockDisk [] .new rfl (loginTo "a" 5)
    [⟨loginTo "a" 5, nameText⟩] []).2 ⟨fun _ => by decide, fun _ => ?_, fun hrefused => ?_⟩
  · refine matching_iff.1 ?_
    decide
  · exact absurd hrefused (by decide)

/-- A cut within the key of the target's name loses the name, and the login fails. -/
theorem cut_name_fails :
    ((Connection.new : Connection ℕ).afterLogin (World.targets id) oneBlockDisk []
        ((loginTo "a" 5).carrying nameText)).stage = .fullFeature ∧
      ((Connection.new : Connection ℕ).afterLogins (World.targets id) oneBlockDisk []
        [Piece.continued ⟨loginTo "a" 5, nameText.take 6⟩ 0,
          (loginTo "a" 5).carrying (nameText.drop 6)]).stage = .closing := by
  decide

end Connection

end XBoot.Iscsi
