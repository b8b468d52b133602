import XBoot.SessionInvariant
import Mathlib.Data.List.Induction
import Mathlib.Order.Bounds.Basic

/-!
# What a login negotiates

The keys that a run of logins brings are combined key by key: the least of the burst
lengths, the last declaration of the longest segment, and a flag that stays set while every
value is `Yes`. Only logins of the operational stage, or straight from the security stage to
FullFeature, negotiate; what they answer is what the data path uses afterwards.
-/

namespace XBoot.Iscsi

open Numerals

variable {σ τ : Type}

def numbers (key : String) (offers : List (String × String)) : List ℕ :=
  offers.filterMap fun kv => if kv.1 = key then parseUnsigned 32 kv.2 else none

def values (key : String) (offers : List (String × String)) : List String :=
  offers.filterMap fun kv => if kv.1 = key then some kv.2 else none

def isYes (value : String) : Bool := eqIgnoreAsciiCase value "Yes"

def isNo (value : String) : Bool := eqIgnoreAsciiCase value "No"

def SessionParams.negotiateAll (p : SessionParams) (offers : List (String × String)) :
    SessionParams :=
  offers.foldl (fun p kv => p.negotiate kv.1 kv.2) p

theorem numbers_append (key : String) (offers more : List (String × String)) :
    numbers key (offers ++ more) = numbers key offers ++ numbers key more := List.filterMap_append

theorem values_append (key : String) (offers more : List (String × String)) :
    values key (offers ++ more) = values key offers ++ values key more := List.filterMap_append

theorem numbers_singleton (key : String) (kv : String × String) :
    numbers key [kv] = if kv.1 = key then (parseUnsigned 32 kv.2).toList else [] := by
  by_cases hkey : kv.1 = key
  · cases hparse : parseUnsigned 32 kv.2 <;> simp [numbers, hkey, hparse]
  · simp [numbers, hkey]

theorem values_singleton (key : String) (kv : String × String) :
    values key [kv] = if kv.1 = key then [kv.2] else [] := by
  by_cases hkey : kv.1 = key <;> simp [values, hkey]

namespace SessionParams

@[simp] theorem negotiateAll_nil (p : SessionParams) : p.negotiateAll [] = p := rfl

theorem negotiateAll_append (p : SessionParams) (offers more : List (String × String)) :
    p.negotiateAll (offers ++ more) = (p.negotiateAll offers).negotiateAll more :=
  List.foldl_append

/-- The parameters in terms of the values offered for each key. -/
def combined (p : SessionParams) (offers : List (String × String)) : SessionParams where
  maxRecvDataSegmentLength :=
    (numbers "MaxRecvDataSegmentLength" offers).getLast?.getD p.maxRecvDataSegmentLength
  firstBurstLength := (numbers "FirstBurstLength" offers).foldl min p.firstBurstLength
  maxBurstLength := (numbers "MaxBurstLength" offers).foldl min p.maxBurstLength
  immediateData := p.immediateData && (values "ImmediateData" offers).all isYes
  initialR2t := p.initialR2t && (values "InitialR2T" offers).all isYes

theorem combined_concat (p : SessionParams) (offers : List (String × String))
    (kv : String × String) :
    p.combined (offers ++ [kv]) = (p.combined offers).negotiate kv.1 kv.2 := by
  obtain ⟨key, value⟩ := kv
  simp only [combined, numbers_append, values_append, numbers_singleton, values_singleton]
  by_cases hrecv : key = "MaxRecvDataSegmentLength"
  · subst hrecv
    cases hparse : parseUnsigned 32 value <;> simp [negotiate, hparse]
  by_cases hfirst : key = "FirstBurstLength"
  · subst hfirst
    cases hparse : parseUnsigned 32 value <;> simp [negotiate, hparse]
  by_cases hmax : key = "MaxBurstLength"
  · subst hmax
    cases hparse : parseUnsigned 32 value <;> simp [negotiate, hparse]
  by_cases himmediate : key = "ImmediateData"
  · subst himmediate
    simp [negotiate, isYes, Bool.and_assoc]
  by_cases hr2t : key = "InitialR2T"
  · subst hr2t
    simp [negotiate, isYes, Bool.and_assoc]
  simp [negotiate, hrecv, hfirst, hmax, himmediate, hr2t]

theorem negotiateAll_eq (p : SessionParams) (offers : List (String × String)) :
    p.negotiateAll offers = p.combined offers := by
  induction offers using List.reverseRecOn with
  | nil => simp [combined, numbers, values]
  | append_singleton offers kv ih =>
    rw [negotiateAll_append, ih, combined_concat]
    rfl

end SessionParams

/-- The login of a turn that negotiates: accepted, and in the operational stage. -/
def Turn.operationalLogin (t : Turn σ τ) : Option LoginRequest :=
  match t.req with
  | .login lr =>
    if t.conn.stage = .login ∧ t.next.stage ≠ .closing ∧ Connection.operational lr = true
      then some lr else none
  | _ => none

def Turn.offers (t : Turn σ τ) : List (String × String) := (t.operationalLogin.map (·.text)).getD []

def offered (ts : List (Turn σ τ)) : List (String × String) := ts.flatMap Turn.offers

variable {tg : Targets σ τ} {ts : List (Turn σ τ)} {t : Turn σ τ} {c c' : Connection τ} {w w' : σ}
  {pdus : List Outbound} {bhs : List UInt8}

theorem offered_concat (ts : List (Turn σ τ)) (t : Turn σ τ) :
    offered (ts ++ [t]) = offered ts ++ t.offers := by
  simp [offered]

namespace Connection

theorem Accepts.not_closing {lr : LoginRequest} {r : LoginResponse} (h : Accepts c lr r c')
    (hstage : c.stage = .login) : c'.stage ≠ .closing := by
  rw [h.stage_eq, hstage]
  split <;> decide

theorem negotiated_eq (c : Connection τ) (lr : LoginRequest) :
    c.negotiated lr = if operational lr = true then c.params.negotiateAll lr.text else c.params := rfl

/-- What an accepted operational login answers and leaves. -/
theorem handle_operational {lr : LoginRequest} (hstage : c.stage = .login)
    (h : c.handle tg w (.login lr) bhs = .ok (pdus, c', w')) (hopen : c'.stage ≠ .closing)
    (hoperational : operational lr = true) :
    ∃ r, pdus = [.login r] ∧ r.text = replyKeys c'.params ∧
      c'.params = c.params.negotiateAll lr.text := by
  cases handle_handles h with
  | login _ hgives =>
    cases handleLogin_logins hgives with
    | fails _ hfails =>
      cases hfails
      exact absurd rfl hopen
    | accepts hpdus haccepts =>
      have hparams := haccepts.params_eq
      have htext := haccepts.text_eq
      rw [if_pos hoperational, ← hparams] at htext
      rw [negotiated_eq, if_pos hoperational] at hparams
      exact ⟨_, hpdus, htext, hparams⟩
  | misplaced _ hclosing =>
    rw [hclosing lr rfl] at hstage
    cases hstage
  | loginAgain hfull =>
    rw [hfull] at hstage
    cases hstage

/-- A request that is no accepted operational login keeps the parameters. -/
theorem handle_params_kept {req : Request} (h : c.handle tg w req bhs = .ok (pdus, c', w'))
    (hno : ∀ lr, req = .login lr → c.stage = .login → c'.stage ≠ .closing →
      ¬ operational lr = true) : c'.params = c.params := by
  cases handle_handles h with
  | @login lr hstage hgives =>
    cases handleLogin_logins hgives with
    | fails _ hfails =>
      cases hfails
      rfl
    | accepts _ haccepts =>
      have hparams := haccepts.params_eq
      rwa [negotiated_eq, if_neg (hno lr rfl hstage (haccepts.not_closing hstage))] at hparams
  | misplaced _ _ hgives => cases hgives; rfl
  | logout _ hgives => cases hgives; rfl
  | _ hstage _ => exact (handle_same hstage h fun _ => nofun).params_eq

end Connection

theorem Turn.operationalLogin_eq_some {lr : LoginRequest} :
    t.operationalLogin = some lr ↔ t.req = .login lr ∧ t.conn.stage = .login ∧
      t.next.stage ≠ .closing ∧ Connection.operational lr = true := by
  rw [operationalLogin]
  split
  · rename_i lr' hreq
    rw [hreq, Option.ite_none_right_eq_some, Option.some.injEq, Request.login.injEq]
    constructor
    · rintro ⟨hwhen, rfl⟩
      exact ⟨rfl, hwhen⟩
    · rintro ⟨rfl, hwhen⟩
      exact ⟨hwhen, rfl⟩
  · rename_i hreq
    exact ⟨nofun, fun h => absurd h.1 (hreq lr)⟩

/-- A turn negotiates the keys of its operational login. -/
theorem Turn.Happens.params_eq (h : t.Happens tg) :
    t.next.params = t.conn.params.negotiateAll t.offers := by
  rw [offers]
  cases hlogin : t.operationalLogin with
  | none =>
    refine Connection.handle_params_kept h fun lr hreq hstage hopen hoperational => ?_
    rw [operationalLogin_eq_some.2 ⟨hreq, hstage, hopen, hoperational⟩] at hlogin
    cases hlogin
  | some lr =>
    obtain ⟨hreq, hstage, hopen, hoperational⟩ := operationalLogin_eq_some.1 hlogin
    rw [Happens, hreq] at h
    obtain ⟨-, -, -, hparams⟩ := Connection.handle_operational hstage h hopen hoperational
    exact hparams

/-- The parameters of a connection are what its run has negotiated. -/
theorem Conversation.params_eq (h : Conversation tg ts c) :
    c.params = SessionParams.initial.negotiateAll (offered ts) := by
  induction h with
  | new => rfl
  | turn _ ht ih => rw [ht.params_eq, ih, offered_concat, SessionParams.negotiateAll_append]

/-- The parameters that a list of offers comes to, starting from ours. -/
structure SessionParams.NegotiatedBy (offers : List (String × String)) (p : SessionParams) :
    Prop where
  maxBurst : IsLeast {n | n ∈ 262144 :: numbers "MaxBurstLength" offers} p.maxBurstLength
  firstBurst : IsLeast {n | n ∈ 65536 :: numbers "FirstBurstLength" offers} p.firstBurstLength
  immediateData : p.immediateData = true ↔ ∀ v ∈ values "ImmediateData" offers, isYes v = true
  initialR2t : (∀ v ∈ values "InitialR2T" offers, isYes v = true) → p.initialR2t = true
  /-- The last declaration stands. -/
  maxRecv : p.maxRecvDataSegmentLength =
    (numbers "MaxRecvDataSegmentLength" offers).getLast?.getD 8192
  ordered : p.firstBurstLength ≤ p.maxBurstLength ↔
    ∀ n ∈ numbers "MaxBurstLength" offers, ∃ f ∈ 65536 :: numbers "FirstBurstLength" offers, f ≤ n

theorem foldl_min_isLeast (ours : ℕ) (theirs : List ℕ) :
    IsLeast {n | n ∈ ours :: theirs} (theirs.foldl min ours) := by
  have hmin : (ours :: theirs).min? = some (theirs.foldl min ours) := List.min?_cons'
  obtain ⟨hmem, hle⟩ := List.min?_eq_some_iff.1 hmin
  exact ⟨hmem, fun n hn => hle n hn⟩

theorem isLeast_le_iff {s t : Set ℕ} {a b : ℕ} (ha : IsLeast s a) (hb : IsLeast t b) :
    a ≤ b ↔ ∀ n ∈ t, ∃ m ∈ s, m ≤ n := by
  constructor
  · exact fun hab n hn => ⟨a, ha.1, hab.trans (hb.2 hn)⟩
  · intro h
    obtain ⟨m, hm, hle⟩ := h b hb.1
    exact (ha.2 hm).trans hle

theorem SessionParams.combined_negotiatedBy (offers : List (String × String)) :
    (SessionParams.initial.combined offers).NegotiatedBy offers := by
  have hmax := foldl_min_isLeast 262144 (numbers "MaxBurstLength" offers)
  have hfirst := foldl_min_isLeast 65536 (numbers "FirstBurstLength" offers)
  refine ⟨hmax, hfirst, ?_, ?_, rfl, ?_⟩
  · simp [combined, initial]
  · simp [combined, initial]
  · refine (isLeast_le_iff hfirst hmax).trans ⟨fun h n hn => ?_, fun h n hn => ?_⟩
    · exact h n (List.mem_cons_of_mem _ hn)
    · rcases List.mem_cons.1 hn with rfl | hn
      · exact ⟨65536, List.mem_cons_self, by decide⟩
      · exact h n hn

/-- Two lists of offers that come to the same, starting from the parameters `p`. -/
structure SessionParams.Matching (p : SessionParams) (offers more : List (String × String)) :
    Prop where
  maxRecv : (numbers "MaxRecvDataSegmentLength" offers).getLast?.getD p.maxRecvDataSegmentLength =
    (numbers "MaxRecvDataSegmentLength" more).getLast?.getD p.maxRecvDataSegmentLength
  firstBurst : lowerBounds {n | n ∈ p.firstBurstLength :: numbers "FirstBurstLength" offers} =
    lowerBounds {n | n ∈ p.firstBurstLength :: numbers "FirstBurstLength" more}
  maxBurst : lowerBounds {n | n ∈ p.maxBurstLength :: numbers "MaxBurstLength" offers} =
    lowerBounds {n | n ∈ p.maxBurstLength :: numbers "MaxBurstLength" more}
  immediateData : p.immediateData = true →
    ((∀ v ∈ values "ImmediateData" offers, isYes v = true) ↔
      ∀ v ∈ values "ImmediateData" more, isYes v = true)
  initialR2t : p.initialR2t = true →
    ((∀ v ∈ values "InitialR2T" offers, isYes v = true) ↔
      ∀ v ∈ values "InitialR2T" more, isYes v = true)

theorem foldl_min_eq_iff (ours : ℕ) (theirs more : List ℕ) :
    theirs.foldl min ours = more.foldl min ours ↔
      lowerBounds {n | n ∈ ours :: theirs} = lowerBounds {n | n ∈ ours :: more} := by
  rw [(foldl_min_isLeast ours theirs).lowerBounds_eq, (foldl_min_isLeast ours more).lowerBounds_eq,
    Set.Iic_inj]

theorem and_all_eq_iff (ours : Bool) (theirs more : List String) :
    (ours && theirs.all isYes) = (ours && more.all isYes) ↔
      (ours = true → ((∀ v ∈ theirs, isYes v = true) ↔ ∀ v ∈ more, isYes v = true)) := by
  cases ours with
  | false => simp
  | true =>
    rw [Bool.true_and, Bool.true_and, Bool.eq_iff_iff, List.all_eq_true, List.all_eq_true]
    simp

theorem SessionParams.combined_eq_iff (p : SessionParams) (offers more : List (String × String)) :
    p.combined offers = p.combined more ↔ p.Matching offers more := by
  constructor
  · intro h
    have hfirst := congrArg firstBurstLength h
    have hmax := congrArg maxBurstLength h
    have himmediate := congrArg SessionParams.immediateData h
    have hr2t := congrArg SessionParams.initialR2t h
    exact ⟨congrArg maxRecvDataSegmentLength h, (foldl_min_eq_iff _ _ _).1 hfirst,
      (foldl_min_eq_iff _ _ _).1 hmax, (and_all_eq_iff _ _ _).1 himmediate,
      (and_all_eq_iff _ _ _).1 hr2t⟩
  · intro h
    rw [combined, combined, h.maxRecv, (foldl_min_eq_iff _ _ _).2 h.firstBurst,
      (foldl_min_eq_iff _ _ _).2 h.maxBurst, (and_all_eq_iff _ _ _).2 h.immediateData,
      (and_all_eq_iff _ _ _).2 h.initialR2t]

theorem offered_quiet {before after : List (Turn σ τ)}
    (hquiet : ∀ t' ∈ after, t'.operationalLogin = none) :
    offered (before ++ t :: after) = offered (before ++ [t]) := by
  have hafter : after.flatMap Turn.offers = [] := by
    rw [List.flatMap_eq_nil_iff]
    intro t' ht'
    rw [Turn.offers, hquiet t' ht']
    rfl
  simp [offered, hafter]

theorem Conversation.params_quiet {before after : List (Turn σ τ)}
    (h : Conversation tg (before ++ t :: after) c)
    (hquiet : ∀ t' ∈ after, t'.operationalLogin = none) : c.params = t.next.params := by
  obtain ⟨hbefore, ht⟩ := h.turn_at
  have hnext : Conversation tg (before ++ [t]) t.next := .turn hbefore ht
  rw [h.params_eq, hnext.params_eq, offered_quiet hquiet]

/-- In every run the parameters are what the offers of its operational logins come to, and
the last of these logins has answered the parameters that all later requests use. -/
theorem login_negotiates (tg : Targets σ τ) (h : Conversation tg ts c) :
    c.params.NegotiatedBy (offered ts) ∧
      ∀ before t after, ts = before ++ t :: after → t.operationalLogin ≠ none →
        (∀ t' ∈ after, t'.operationalLogin = none) →
          ∃ r, t.pdus = [.login r] ∧ r.text = Connection.replyKeys c.params ∧
            ∀ t' ∈ after, t'.conn.params = c.params := by
  constructor
  · rw [h.params_eq, SessionParams.negotiateAll_eq]
    exact SessionParams.combined_negotiatedBy _
  · rintro before t after rfl hlogin hquiet
    have hparams := h.params_quiet hquiet
    obtain ⟨lr, hlr⟩ := Option.ne_none_iff_exists'.1 hlogin
    obtain ⟨hreq, hstage, hopen, hoperational⟩ := Turn.operationalLogin_eq_some.1 hlr
    have ht := h.turn_at.2
    rw [Turn.Happens, hreq] at ht
    obtain ⟨r, hpdus, htext, -⟩ := Connection.handle_operational hstage ht hopen hoperational
    refine ⟨r, hpdus, htext.trans (by rw [hparams]), fun t' ht' => ?_⟩
    obtain ⟨quiet, rest, rfl⟩ := List.append_of_mem ht'
    have hsplit : Conversation tg ((before ++ t :: quiet) ++ t' :: rest) c := by
      simpa using h
    rw [hparams]
    exact hsplit.turn_at.1.params_quiet fun t'' ht'' => hquiet t'' (List.mem_append_left _ ht'')

/-- A login that offers a short burst, a word for ImmediateData and no initial R2T. -/
def mixedLogin : LoginRequest :=
  { loginTo "a" 5 with
    text := [("TargetName", "a"), ("MaxBurstLength", "512"), ("ImmediateData", "maybe"),
      ("InitialR2T", "No")] }

def answered (c : Connection ℕ) (lr : LoginRequest) : Turn World ℕ where
  conn := c
  before := oneBlockDisk
  req := .login lr
  bhs := []
  pdus := (c.handleLogin (World.targets id) oneBlockDisk lr).1
  next := (c.handleLogin (World.targets id) oneBlockDisk lr).2
  after := oneBlockDisk

/-- A login that stays in the operational stage, with two declarations and a malformed number. -/
def burstLogin : LoginRequest :=
  { loginTo "a" 5 with
    transit := false
    csg := 1
    nsg := 1
    text := [("TargetName", "a"), ("MaxRecvDataSegmentLength", "4096"), ("MaxBurstLength", "8192"),
      ("FirstBurstLength", "1024"), ("ImmediateData", "yes"), ("MaxBurstLength", "many"),
      ("MaxRecvDataSegmentLength", "65536")] }

/-- Two logins negotiate, and the second one answers what both come to. -/
theorem login_negotiates_twice :
    (answered (answered .new burstLogin).next mixedLogin).next.params.NegotiatedBy
        (burstLogin.text ++ mixedLogin.text) ∧
      ∃ r, (answered (answered .new burstLogin).next mixedLogin).pdus = [.login r] ∧
        r.text = Connection.replyKeys (answered (answered .new burstLogin).next mixedLogin).next.params := by
  have hfirst : (answered .new burstLogin).Happens (World.targets id) := rfl
  have hsecond : (answered (answered .new burstLogin).next mixedLogin).Happens (World.targets id) :=
    rfl
  have hconversation := Conversation.turn (.turn .new hfirst) hsecond
  obtain ⟨hparams, hecho⟩ := login_negotiates (World.targets id) hconversation
  obtain ⟨r, hpdus, htext, -⟩ := hecho _ _ [] rfl (by decide) (List.forall_mem_nil _)
  exact ⟨hparams, r, hpdus, htext⟩

/-- The first burst may be longer than any burst; InitialR2T is not the disjunction of both
sides; a malformed ImmediateData counts as No. -/
theorem mixedLogin_negotiates : ∃ pdus next,
    (Connection.new : Connection ℕ).handle (World.targets id) oneBlockDisk (.login mixedLogin) [] =
      .ok (pdus, next, oneBlockDisk) ∧ next.stage = .fullFeature ∧
      next.params.maxBurstLength < next.params.firstBurstLength ∧
      next.params.initialR2t ≠ (SessionParams.initial.initialR2t || isYes "No") ∧
      next.params.immediateData = false ∧ isYes "maybe" = false ∧ isNo "maybe" = false := by
  refine ⟨_, _, rfl, ?_⟩
  decide

end XBoot.Iscsi
