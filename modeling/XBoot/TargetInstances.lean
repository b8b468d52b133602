import XBoot.BlockDevices
import XBoot.ClientIsolation
import XBoot.SessionSteps

/-!
# Which target instance a connection sees

Boot requests, logins and commands act on one registry in any order, on any number of
connections. A login captures the instance that the latest boot of its IQN inserted, and
keeps it; what a command sees are the masters of that instance under the writes executed
through the connections that captured the same one.
-/

namespace XBoot.Boot

open Iscsi Storage Machines BlockArrays

/-- The shared state, and all connections by number; one that was not used yet is new. -/
structure Server where
  world : World
  conns : ℕ → Connection ℕ

def Server.start : Server := ⟨World.empty, fun _ => .new⟩

/-- What happens to the targets: an insertion, a login that captures an instance, and a
command executed with its outcome. -/
inductive Entry where
  | boots (iqn : String) (target : ScsiTarget)
  | logsIn (conn : ℕ) (iqn : String)
  | executes (conn : ℕ) (call : TargetCall) (outcome : ScsiOutcome)

/-- The entries of a run, the latest one first. -/
abbrev History := List Entry

/-- The targets with a record of what connection `k` executes. -/
def observing (k : ℕ) (tg : Targets World ℕ) : Targets (World × History) ℕ where
  get w := tg.get w.1
  iqns w := tg.iqns w.1
  execute p cmd data w := match tg.execute p cmd data w.1 with
    | .error e => .error e
    | .ok (outcome, w') => .ok (outcome, w', .executes k (cmd, data) outcome :: w.2)

/-- The entry of a login request that binds the connection to the target it names. -/
def loginEntry (k : ℕ) (c c' : Connection ℕ) : Request → History
  | .login lr =>
    if c.target.isNone && c'.target.isSome then
      ((lr.text.find? (·.1 = "TargetName")).map fun kv => Entry.logsIn k kv.2).toList
    else []
  | _ => []

/-- The runs of the server; `order` is the hash map's order of its keys. -/
inductive Runs (cfg : Config) (manager : ClientManager) (order : List String → List String) :
    History → Server → Prop
  | start : Runs cfg manager order [] .start
  | refused {history : History} {s : Server} {req : HttpRequest} {response : HttpResponse}
      (hruns : Runs cfg manager order history s)
      (hhandle : handle cfg manager s.world req = .ok (response, s.world)) :
      Runs cfg manager order history s
  | booted {history : History} {s : Server} {req : HttpRequest} {response : HttpResponse}
      {iqn : String} {target : ScsiTarget} (hruns : Runs cfg manager order history s)
      (hhandle : handle cfg manager s.world req = .ok (response, s.world.insert iqn target)) :
      Runs cfg manager order (.boots iqn target :: history) ⟨s.world.insert iqn target, s.conns⟩
  | handled {history history' : History} {s : Server} {k : ℕ} {req : Request} {bhs : List UInt8}
      {pdus : List Outbound} {c' : Connection ℕ} {w' : World}
      (hruns : Runs cfg manager order history s)
      (hhandle : (s.conns k).handle (observing k (World.targets order)) (s.world, history) req bhs =
        .ok (pdus, c', w', history')) :
      Runs cfg manager order (loginEntry k (s.conns k) c' req ++ history')
        ⟨w', Function.update s.conns k c'⟩

/-- How many targets were inserted; they are numbered from 0 on. -/
def boots : History → ℕ
  | [] => 0
  | .boots _ _ :: history => boots history + 1
  | _ :: history => boots history

/-- The number of the latest insertion under an IQN. -/
def lastBoot (iqn : String) : History → Option ℕ
  | [] => none
  | .boots iqn' _ :: history => if iqn' = iqn then some (boots history) else lastBoot iqn history
  | _ :: history => lastBoot iqn history

def session (k : ℕ) : History → Option ℕ
  | [] => none
  | .logsIn k' iqn :: history => if k' = k then lastBoot iqn history else session k history
  | _ :: history => session k history

def inserted (p : ℕ) : History → Option ScsiTarget
  | [] => none
  | .boots _ target :: history => if boots history = p then some target else inserted p history
  | _ :: history => inserted p history

/-- The commands executed through connections bound to instance `p`, in order. -/
def shared (p : ℕ) : History → List TargetCall
  | [] => []
  | .executes k call _ :: history =>
    if session k history = some p then shared p history ++ [call] else shared p history
  | _ :: history => shared p history

/-- Insertion number `p` is the latest one under the IQN. -/
def LatestBoot (iqn : String) (p : ℕ) (history : History) : Prop :=
  ∃ between target before, history = between ++ .boots iqn target :: before ∧ boots before = p ∧
    ∀ target', Entry.boots iqn target' ∉ between

/-- Connection `k` logged in to an IQN between insertion number `p` under it and the next one. -/
def LoggedInAfter (k p : ℕ) (history : History) : Prop :=
  ∃ after iqn before, history = after ++ .logsIn k iqn :: before ∧ LatestBoot iqn p before

/-- The arrays of the target are the blocks of its masters. -/
def Pristine (target : ScsiTarget) (a : Devices) : Prop :=
  List.Forall₂ (Option.Rel fun (lu : LogicalUnit) dev => ∃ content, lu.master.Serves content ∧
    dev = .ofList lu.blockSize content) target.luns a

/-- The target is one that a boot of some client builds. -/
def Built (manager : ClientManager) (target : ScsiTarget) : Prop :=
  ∃ client, target = bootTarget manager client

/-- The outcome of a command is that of the target of the connection's instance, as it was
built, after the commands of all connections bound to it; over serving masters it is that of
the masters under the writes among them. -/
def Explained (manager : ClientManager) (history : History) (k : ℕ) (call : TargetCall)
    (outcome : ScsiOutcome) : Prop :=
  ∃ p target outcomes t t', session k history = some p ∧ inserted p history = some target ∧
    Built manager target ∧
    runs (fun (t : ScsiTarget) (call : TargetCall) => t.execute call.1 call.2) target
      (shared p history) = .ok (outcomes, t) ∧
    t.execute call.1 call.2 = .ok (outcome, t') ∧
    ∀ a, Pristine target a → ∃ a', Behaves ((shared p history).foldl stored a) call outcome a'

section Steps

variable {tg : Targets World ℕ} {k : ℕ} {c c' : Connection ℕ} {w w' : World} {pdus : List Outbound}
  {bhs : List UInt8} {req : Request} {history history' : History}

/-- What a request on connection `k` adds to the history. -/
inductive Acts (tg : Targets World ℕ) (k : ℕ) (c c' : Connection ℕ) (w : World) (history : History) :
    World → History → Prop
  | idle (htarget : c'.target = c.target) : Acts tg k c c' w history w history
  | logsIn {iqn : String} {p : ℕ} (hget : tg.get w iqn = some p) (hnone : c.target = none)
      (htarget : c'.target = some p) : Acts tg k c c' w history w (.logsIn k iqn :: history)
  | executes {p : ℕ} {call : TargetCall} {outcome : ScsiOutcome} {w' : World}
      (hbound : c.target = some p) (htarget : c'.target = c.target)
      (hexecute : tg.execute p call.1 call.2 w = .ok (outcome, w')) :
      Acts tg k c c' w history w' (.executes k call outcome :: history)

theorem loginEntry_of_same (k : ℕ) (req : Request) (h : c'.target = c.target) :
    loginEntry k c c' req = [] := by
  cases req with
  | login lr =>
    rw [loginEntry, h]
    cases c.target <;> rfl
  | _ => rfl

theorem idle_acts (h : c'.target = c.target) :
    Acts tg k c c' w history w (loginEntry k c c' req ++ history) := by
  rw [loginEntry_of_same k req h]
  exact .idle h

theorem Acts.of_target {d : Connection ℕ} (h : Acts tg k d c' w history w' history')
    (hsame : d.target = c.target) : Acts tg k c c' w history w' history' := by
  cases h with
  | idle htarget => exact .idle (htarget.trans hsame)
  | logsIn hget hnone htarget => exact .logsIn hget (hsame.symm.trans hnone) htarget
  | executes hbound htarget hexecute =>
    exact .executes (hsame.symm.trans hbound) (htarget.trans hsame) hexecute

theorem Acts.grows (h : Acts tg k c c' w history w' history') :
    ∃ more, history' = more ++ history := by
  cases h with
  | idle => exact ⟨[], rfl⟩
  | logsIn => exact ⟨[_], rfl⟩
  | executes => exact ⟨[_], rfl⟩

theorem observing_erases (k : ℕ) (tg : Targets World ℕ) : (observing k tg).Erases Prod.fst tg where
  get_eq _ _ := rfl
  iqns_eq _ := rfl
  execute_eq p cmd data w := by
    simp only [observing]
    cases tg.execute p cmd data w.1 <;> rfl

theorem observing_execute {p : ℕ} {cmd : ScsiCommand} {data : List UInt8} {outcome : ScsiOutcome}
    (h : (observing k tg).execute p cmd data (w, history) = .ok (outcome, w', history')) :
    tg.execute p cmd data w = .ok (outcome, w') ∧
      history' = .executes k (cmd, data) outcome :: history := by
  simp only [observing] at h
  split at h
  · cases h
  · cases h
    exact ⟨‹_›, rfl⟩

theorem finishes_acts {p : PendingWrite}
    (h : Connection.Finishes (observing k tg) (w, history) c p pdus c' (w', history')) :
    Acts tg k c c' w history w' history' := by
  obtain ⟨target, outcome, htarget, hexecute, -⟩ := h.executed
  obtain ⟨hexec, rfl⟩ := observing_execute hexecute
  exact .executes htarget h.keeps.target_eq hexec

theorem commands_acts {cmd : ScsiCommand}
    (h : Connection.Commands (observing k tg) (w, history) c bhs cmd pdus c' (w', history')) :
    Acts tg k c c' w history w' history' := by
  have htarget := h.same_session.target_eq
  cases h with
  | oversized => exact .idle htarget
  | gathers => exact .idle htarget
  | completes _ _ hfinishes => exact finishes_acts hfinishes
  | dataIn _ hexecute _ _ hbound =>
    obtain ⟨hexec, rfl⟩ := observing_execute hexecute
    exact .executes hbound htarget hexec
  | responds _ hexecute _ hbound =>
    obtain ⟨hexec, rfl⟩ := observing_execute hexecute
    exact .executes hbound htarget hexec

theorem feeds_acts {d : ScsiDataOut}
    (h : Connection.Feeds (observing k tg) (w, history) c bhs d pdus c' (w', history')) :
    Acts tg k c c' w history w' history' := by
  have htarget := h.same_session.target_eq
  cases h with
  | unknown => exact .idle htarget
  | outside => exact .idle htarget
  | more => exact .idle htarget
  | last _ _ _ hfinishes => exact (finishes_acts hfinishes).of_target rfl

/-- A login keeps the target, or binds the one registered under the name it gives. -/
theorem handleLogin_binds {lr : LoginRequest}
    (h : Connection.Gives (c.handleLogin tg w lr) pdus c') :
    c'.target = c.target ∨ ∃ kv p, lr.text.find? (·.1 = "TargetName") = some kv ∧
      tg.get w kv.2 = some p ∧ c.target = none ∧ c'.target = some p := by
  rw [Connection.handleLogin] at h
  cases hbind : Connection.bindTarget tg w (c.sequenced lr) lr with
  | none =>
    rw [hbind] at h
    cases h
    exact .inl rfl
  | some bound =>
    rw [hbind] at h
    cases h
    rcases Connection.bindTarget_binds hbind with ⟨rfl, -⟩ | ⟨kv, p, hfind, hget, hnone, rfl⟩
    · exact .inl rfl
    · exact .inr ⟨kv, p, hfind, hget, hnone, rfl⟩

theorem login_acts {lr : LoginRequest} (h : Connection.Gives (c.handleLogin tg w lr) pdus c') :
    Acts tg k c c' w history w (loginEntry k c c' (.login lr) ++ history) := by
  rcases handleLogin_binds h with hsame | ⟨kv, p, hfind, hget, hnone, hbound⟩
  · rw [loginEntry_of_same k _ hsame]
    exact .idle hsame
  · have hentry : loginEntry k c c' (.login lr) = [.logsIn k kv.2] := by
      simp only [loginEntry, hnone, hbound, hfind]
      rfl
    rw [hentry]
    exact .logsIn hget hnone hbound

/-- Handling a request adds at most one entry. -/
theorem handle_acts
    (h : c.handle (observing k tg) (w, history) req bhs = .ok (pdus, c', w', history')) :
    Acts tg k c c' w history w' (loginEntry k c c' req ++ history') := by
  cases Connection.handle_handles h with
  | login _ hgives =>
    have hlogin : Connection.Gives (c.handleLogin tg w _) pdus c' := hgives
    exact login_acts hlogin
  | misplaced _ _ hgives => cases hgives; exact idle_acts rfl
  | command _ _ hcommands => exact (commands_acts hcommands).of_target rfl
  | dataOut _ hfeeds => exact feeds_acts hfeeds
  | unbound _ _ hgives => cases hgives; exact idle_acts rfl
  | nopOut _ hgives => cases hgives; exact idle_acts rfl
  | text _ hgives => cases hgives; exact idle_acts rfl
  | taskMgmt _ hgives => cases hgives; exact idle_acts rfl
  | logout _ hgives => cases hgives; exact idle_acts rfl
  | loginAgain _ hgives => cases hgives; exact idle_acts rfl
  | unsupported _ hgives => cases hgives; exact idle_acts rfl

end Steps

section Histories

variable {k p : ℕ} {iqn : String} {target : ScsiTarget} {history : History}

theorem lastBoot_lt (h : lastBoot iqn history = some p) : p < boots history := by
  induction history with
  | nil => cases h
  | cons entry history ih =>
    cases entry with
    | boots iqn' target =>
      rw [lastBoot] at h
      rw [boots]
      split at h
      · cases h
        exact Nat.lt_succ_self _
      · exact Nat.lt_succ_of_lt (ih h)
    | logsIn => exact ih h
    | executes => exact ih h

theorem session_lt (h : session k history = some p) : p < boots history := by
  induction history with
  | nil => cases h
  | cons entry history ih =>
    cases entry with
    | boots => exact Nat.lt_succ_of_lt (ih h)
    | logsIn k' iqn =>
      rw [session] at h
      split at h
      · exact lastBoot_lt h
      · exact ih h
    | executes => exact ih h

theorem inserted_lt (h : inserted p history = some target) : p < boots history := by
  induction history with
  | nil => cases h
  | cons entry history ih =>
    cases entry with
    | boots iqn' target =>
      rw [inserted] at h
      rw [boots]
      split at h
      · exact Nat.lt_succ_of_le (by omega)
      · exact Nat.lt_succ_of_lt (ih h)
    | logsIn => exact ih h
    | executes => exact ih h

theorem exists_inserted (h : p < boots history) : ∃ target, inserted p history = some target := by
  induction history with
  | nil => cases h
  | cons entry history ih =>
    cases entry with
    | boots iqn target =>
      rw [inserted]
      split
      · exact ⟨target, rfl⟩
      · rw [boots] at h
        exact ih (by omega)
    | logsIn => exact ih h
    | executes => exact ih h

theorem shared_of_ge (h : boots history ≤ p) : shared p history = [] := by
  induction history with
  | nil => rfl
  | cons entry history ih =>
    cases entry with
    | boots => exact ih (Nat.le_of_succ_le h)
    | logsIn => exact ih h
    | executes k call outcome =>
      have hnot : session k history ≠ some p := fun hsession =>
        Nat.not_lt.2 h (session_lt hsession)
      rw [shared, if_neg hnot]
      exact ih h

theorem latestBoot_boots : LatestBoot iqn p (.boots iqn target :: history) ↔ boots history = p := by
  constructor
  · rintro ⟨between, target', before, heq, hp, hno⟩
    cases between with
    | nil => rwa [(List.cons.inj heq).2]
    | cons entry between =>
      rw [← (List.cons.inj heq).1] at hno
      exact absurd List.mem_cons_self (hno target)
  · intro hp
    exact ⟨[], target, history, rfl, hp, fun _ => List.not_mem_nil⟩

/-- An entry other than an insertion under the IQN leaves the latest one. -/
theorem latestBoot_cons {entry : Entry} (hne : ∀ target, entry ≠ .boots iqn target) :
    LatestBoot iqn p (entry :: history) ↔ LatestBoot iqn p history := by
  constructor
  · rintro ⟨between, target, before, heq, hp, hno⟩
    cases between with
    | nil => exact absurd (List.cons.inj heq).1 (hne target)
    | cons _ between =>
      exact ⟨between, target, before, (List.cons.inj heq).2, hp, fun target' hmem =>
        hno target' (List.mem_cons_of_mem _ hmem)⟩
  · rintro ⟨between, target, before, rfl, hp, hno⟩
    refine ⟨entry :: between, target, before, rfl, hp, fun target' hmem => ?_⟩
    rcases List.mem_cons.1 hmem with heq | hmem
    · exact hne target' heq.symm
    · exact hno target' hmem

theorem lastBoot_eq_some_iff : lastBoot iqn history = some p ↔ LatestBoot iqn p history := by
  induction history with
  | nil =>
    refine iff_of_false nofun ?_
    rintro ⟨between, target, before, heq, -⟩
    exact List.append_ne_nil_of_right_ne_nil between (List.cons_ne_nil _ _) heq.symm
  | cons entry history ih =>
    cases entry with
    | boots iqn' target =>
      rw [lastBoot]
      split
      · rename_i hiqn
        subst hiqn
        rw [latestBoot_boots, Option.some.injEq]
      · rename_i hiqn
        rw [latestBoot_cons fun _ heq => hiqn (Entry.boots.inj heq).1, ih]
    | logsIn k iqn' =>
      have hne : ∀ target, Entry.logsIn k iqn' ≠ .boots iqn target := nofun
      exact ih.trans (latestBoot_cons hne).symm
    | executes k call outcome =>
      have hne : ∀ target, Entry.executes k call outcome ≠ .boots iqn target := nofun
      exact ih.trans (latestBoot_cons hne).symm

/-- Every connection logs in once. -/
def Once (history : History) : Prop :=
  ∀ k iqn rest, .logsIn k iqn :: rest <:+ history → session k rest = none

theorem loggedInAfter_of_session (h : session k history = some p) : LoggedInAfter k p history := by
  induction history with
  | nil => cases h
  | cons entry history ih =>
    have hlater : session k history = some p → LoggedInAfter k p (entry :: history) := by
      intro h
      obtain ⟨after, iqn, before, rfl, hlatest⟩ := ih h
      exact ⟨entry :: after, iqn, before, rfl, hlatest⟩
    cases entry with
    | boots => exact hlater h
    | executes => exact hlater h
    | logsIn k' iqn =>
      rw [session] at h
      split at h
      · rename_i hk
        exact ⟨[], iqn, history, by rw [hk]; rfl, lastBoot_eq_some_iff.1 h⟩
      · exact hlater h

/-- The login of a connection decides its instance for the rest of the run. -/
theorem session_of_login {after before : History} (hlatest : LatestBoot iqn p before)
    (honce : Once (after ++ .logsIn k iqn :: before)) :
    session k (after ++ .logsIn k iqn :: before) = some p := by
  induction after with
  | nil =>
    rw [List.nil_append, session, if_pos rfl]
    exact lastBoot_eq_some_iff.2 hlatest
  | cons entry after ih =>
    have hrest := ih fun k iqn rest hsuffix => honce k iqn rest (hsuffix.trans (List.suffix_cons _ _))
    cases entry with
    | boots => exact hrest
    | executes => exact hrest
    | logsIn k' iqn' =>
      rw [List.cons_append, session]
      split
      · rename_i hk
        -- a second login of the connection
        have hnone := honce k' iqn' _ (List.suffix_refl _)
        rw [hk] at hnone
        cases hrest.symm.trans hnone
      · exact hrest

/-- The captured instance is the one of the insertion before the login. -/
theorem session_eq_some_iff (honce : Once history) :
    session k history = some p ↔ LoggedInAfter k p history := by
  constructor
  · exact loggedInAfter_of_session
  · rintro ⟨after, iqn, before, rfl, hlatest⟩
    exact session_of_login hlatest honce

/-- What holds of an instance that no connection has logged in to: its insertion is the latest
one under its IQN, no connection is bound to it, and nothing was executed on it. -/
structure Untouched (p : ℕ) (iqn : String) (target : ScsiTarget) (history : History) : Prop where
  lt : p < boots history
  latest : ∀ iqn', lastBoot iqn' history = some p ↔ iqn' = iqn
  unbound : ∀ k, session k history ≠ some p
  inserted_eq : inserted p history = some target
  shared_eq : shared p history = []

theorem untouched_boots (iqn : String) (target : ScsiTarget) (history : History) :
    Untouched (boots history) iqn target (.boots iqn target :: history) where
  lt := Nat.lt_succ_self _
  latest iqn' := by
    rw [lastBoot]
    constructor
    · intro h
      split at h
      · exact Eq.symm ‹_›
      · exact absurd (lastBoot_lt h) (Nat.lt_irrefl _)
    · rintro rfl
      exact if_pos rfl
  unbound k h := by
    have hlt : boots history < boots history := session_lt (k := k) h
    exact Nat.lt_irrefl _ hlt
  inserted_eq := if_pos rfl
  shared_eq := by
    have hnone : shared (boots history) history = [] := shared_of_ge (Nat.le_refl _)
    exact hnone

/-- An instance stays untouched until a login to its IQN or the next insertion under it. -/
theorem untouched_append (target : ScsiTarget) {between before : History}
    (hboots : ∀ target', Entry.boots iqn target' ∉ between) (hlogins : ∀ k, Entry.logsIn k iqn ∉ between) :
    Untouched (boots before) iqn target (between ++ .boots iqn target :: before) := by
  induction between with
  | nil => exact untouched_boots iqn target before
  | cons entry between ih =>
    obtain ⟨hlt, hlatest, hunbound, hinserted, hshared⟩ := ih
      (fun target' hmem => hboots target' (List.mem_cons_of_mem _ hmem))
      (fun k hmem => hlogins k (List.mem_cons_of_mem _ hmem))
    cases entry with
    | boots iqn' target' =>
      have hne : iqn' ≠ iqn := fun heq => hboots target' (heq ▸ List.mem_cons_self)
      refine ⟨Nat.lt_succ_of_lt hlt, fun iqn'' => ?_, hunbound, ?_, hshared⟩
      · rw [List.cons_append, lastBoot]
        split
        · rename_i heq
          exact iff_of_false (fun h => Nat.ne_of_gt hlt (Option.some.inj h)) fun h => hne (heq.trans h)
        · exact hlatest iqn''
      · rw [List.cons_append, inserted, if_neg (Nat.ne_of_gt hlt)]
        exact hinserted
    | logsIn k iqn' =>
      have hne : iqn' ≠ iqn := fun heq => hlogins k (heq ▸ List.mem_cons_self)
      refine ⟨hlt, hlatest, fun k' h => ?_, hinserted, hshared⟩
      rw [List.cons_append, session] at h
      split at h
      · exact hne ((hlatest iqn').1 h)
      · exact hunbound k' h
    | executes k call outcome =>
      refine ⟨hlt, hlatest, hunbound, hinserted, ?_⟩
      rw [List.cons_append, shared, if_neg (hunbound k)]
      exact hshared

end Histories

/-- The state of the server is what the history says. -/
structure Matches (manager : ClientManager) (history : History) (s : Server) : Prop where
  length_eq : s.world.instances.length = boots history
  get_eq : ∀ iqn, s.world.get iqn = lastBoot iqn history
  target_eq : ∀ k, (s.conns k).target = session k history
  built : ∀ p target, inserted p history = some target → Built manager target
  replayed : ∀ p target, inserted p history = some target → ∃ outcomes t,
    runs (fun (t : ScsiTarget) (call : TargetCall) => t.execute call.1 call.2) target
      (shared p history) = .ok (outcomes, t) ∧ s.world.instances[p]? = some t

/-- What the history before an entry has to say for it. -/
def Accounted (manager : ClientManager) (history : History) : Entry → Prop
  | .boots _ _ => True
  | .logsIn k _ => session k history = none
  | .executes k call outcome => Explained manager history k call outcome

/-- The history says the state, and accounts for every entry. -/
structure Sound (manager : ClientManager) (history : History) (s : Server) : Prop
    extends Matches manager history s where
  accounted : ∀ entry rest, entry :: rest <:+ history → Accounted manager rest entry

section Servers

variable {cfg : Config} {manager : ClientManager} {order : List String → List String}
  {history history' : History} {s : Server} {k p : ℕ} {c' : Connection ℕ} {w' : World}

theorem matches_start : Matches manager [] .start where
  length_eq := rfl
  get_eq _ := rfl
  target_eq _ := rfl
  built _ _ h := by cases h
  replayed _ _ h := by cases h

theorem Matches.booted (h : Matches manager history s) (iqn : String) {target : ScsiTarget}
    (hbuilt : Built manager target) :
    Matches manager (.boots iqn target :: history) ⟨s.world.insert iqn target, s.conns⟩ where
  length_eq := by rw [World.length_insert, h.length_eq, boots]
  get_eq iqn' := by
    rw [lastBoot]
    split
    · rename_i heq
      rw [← heq, World.get_insert_self, h.length_eq]
    · rename_i hne
      rw [World.get_insert_of_ne _ _ (Ne.symm hne), h.get_eq]
  target_eq k := h.target_eq k
  built p target' hp := by
    rw [inserted] at hp
    split at hp
    · cases hp
      exact hbuilt
    · exact h.built p target' hp
  replayed p target' hp := by
    rw [inserted] at hp
    split at hp
    · rename_i heq
      cases hp
      have hnone : shared p history = [] := shared_of_ge (Nat.le_of_eq heq)
      have hboots : shared p (.boots iqn target :: history) = shared p history := rfl
      refine ⟨[], target, by rw [hboots, hnone]; rfl, ?_⟩
      rw [World.insert, List.getElem?_append_right (by rw [h.length_eq, heq]), h.length_eq, heq,
        Nat.sub_self]
      rfl
    · obtain ⟨outcomes, t, hruns, hget⟩ := h.replayed p target' hp
      refine ⟨outcomes, t, hruns, ?_⟩
      rw [World.insert, List.getElem?_append_left (by rw [h.length_eq]; exact inserted_lt hp), hget]

theorem target_update (conns : ℕ → Connection ℕ) (htarget : c'.target = (conns k).target) (k' : ℕ) :
    (Function.update conns k c' k').target = (conns k').target := by
  by_cases hk : k' = k
  · rw [hk, Function.update_self, htarget]
  · rw [Function.update_of_ne hk]

theorem Matches.logged_in (h : Matches manager history s) {iqn : String} (hget : s.world.get iqn = some p)
    (htarget : c'.target = some p) :
    Matches manager (.logsIn k iqn :: history) ⟨s.world, Function.update s.conns k c'⟩ where
  length_eq := h.length_eq
  get_eq := h.get_eq
  target_eq k' := by
    rw [session]
    dsimp only
    split
    · rename_i heq
      rw [← heq, Function.update_self, htarget, ← h.get_eq, hget]
    · rename_i hne
      rw [Function.update_of_ne (Ne.symm hne), h.target_eq]
  built := h.built
  replayed := h.replayed

theorem Matches.executed (h : Matches manager history s) {call : TargetCall} {outcome : ScsiOutcome}
    (hbound : (s.conns k).target = some p) (htarget : c'.target = (s.conns k).target)
    (hexecute : World.execute p call.1 call.2 s.world = .ok (outcome, w')) :
    Matches manager (.executes k call outcome :: history) ⟨w', Function.update s.conns k c'⟩ := by
  obtain ⟨t, t', hplace, hexec, rfl⟩ := World.execute_ok hexecute
  have hsession : session k history = some p := by rw [← h.target_eq, hbound]
  refine ⟨List.length_set.trans h.length_eq, h.get_eq, fun k' => ?_, h.built, fun q target hq => ?_⟩
  · exact (target_update s.conns htarget k').trans (h.target_eq k')
  · obtain ⟨outcomes, t₁, hruns, hget⟩ := h.replayed q target hq
    rw [shared, hsession]
    by_cases hpq : p = q
    · subst hpq
      obtain rfl : t₁ = t := Option.some.inj (hget.symm.trans hplace)
      have hlt := (List.getElem?_eq_some_iff.1 hplace).1
      rw [if_pos rfl, List.getElem?_set_self hlt]
      exact ⟨_, t', runs_concat hruns hexec, rfl⟩
    · rw [if_neg fun heq => hpq (Option.some.inj heq), List.getElem?_set_ne hpq]
      exact ⟨outcomes, t₁, hruns, hget⟩

theorem Matches.acts (h : Matches manager history s)
    (hacts : Acts (World.targets order) k (s.conns k) c' s.world history w' history') :
    Matches manager history' ⟨w', Function.update s.conns k c'⟩ := by
  cases hacts with
  | idle htarget =>
    exact ⟨h.length_eq, h.get_eq, fun k' => (target_update s.conns htarget k').trans (h.target_eq k'),
      h.built, h.replayed⟩
  | logsIn hget _ htarget => exact h.logged_in hget htarget
  | executes hbound htarget hexecute => exact h.executed hbound htarget hexecute

/-- Every unit has blocks, and none was written. -/
def Unwritten (target : ScsiTarget) : Prop :=
  ∀ lu, some lu ∈ target.luns → 0 < lu.blockSize ∧ lu.overlay = fun _ => none

theorem bootTarget_unwritten (manager : ClientManager) (client : ClientConfig) :
    Unwritten (bootTarget manager client) := by
  intro lu hlu
  rcases List.mem_append.1 hlu with hlu | hlu
  · obtain ⟨store, -, hstore⟩ := Option.map_eq_some_iff.1 (Option.mem_toList.1 hlu)
    cases hstore
    exact ⟨Nat.zero_lt_succ 511, rfl⟩
  · obtain ⟨id, -, hid⟩ := List.mem_filterMap.1 hlu
    obtain ⟨store, -, hstore⟩ := Option.map_eq_some_iff.1 hid
    cases hstore
    exact ⟨Nat.zero_lt_succ 511, rfl⟩

/-- A target that was not written is the arrays of its masters. -/
theorem pristine_is {target : ScsiTarget} {a : Devices} (hunwritten : Unwritten target)
    (h : Pristine target a) : target.Is a := by
  obtain ⟨luns⟩ := target
  rw [Pristine] at h
  rw [ScsiTarget.Is]
  dsimp only at h ⊢
  induction h with
  | nil => exact .nil
  | @cons unit dev luns a hunit _ ih =>
    refine .cons ?_ (ih fun lu hlu => hunwritten lu (List.mem_cons_of_mem _ hlu))
    cases hunit with
    | none => exact .none
    | @some lu dev hmaster =>
      obtain ⟨content, hserves, rfl⟩ := hmaster
      obtain ⟨hsize, hoverlay⟩ := hunwritten lu List.mem_cons_self
      exact .some (LogicalUnit.is_fresh hsize hserves hoverlay)

/-- A command is explained by the history before it. -/
theorem Matches.explains (h : Matches manager history s) {call : TargetCall} {outcome : ScsiOutcome}
    (hbound : (s.conns k).target = some p)
    (hexecute : World.execute p call.1 call.2 s.world = .ok (outcome, w')) :
    Explained manager history k call outcome := by
  obtain ⟨t, t', hplace, hexec, -⟩ := World.execute_ok hexecute
  have hlt : p < boots history := h.length_eq ▸ (List.getElem?_eq_some_iff.1 hplace).1
  obtain ⟨target, htarget⟩ := exists_inserted hlt
  obtain ⟨outcomes, t₁, hruns, hget⟩ := h.replayed p target htarget
  obtain rfl : t₁ = t := Option.some.inj (hget.symm.trans hplace)
  have hbuilt := h.built p target htarget
  refine ⟨p, target, outcomes, t₁, t', by rw [← h.target_eq, hbound], htarget, hbuilt, hruns, hexec,
    fun a ha => ?_⟩
  obtain ⟨client, rfl⟩ := hbuilt
  obtain ⟨outcomes', t₂, a₂, hruns', hallows, his⟩ :=
    execute_refines.runs (pristine_is (bootTarget_unwritten manager client) ha) (shared p history)
  cases hruns.symm.trans hruns'
  obtain ⟨outcome', t₃, a₃, hexec', hbehaves, -⟩ := execute_refines t₁ a₂ call his
  cases hexec.symm.trans hexec'
  exact ⟨a₃, allows_after hallows ▸ hbehaves⟩

/-- One more entry that the history accounts for. -/
theorem Sound.step {entry : Entry} {s' : Server} (h : Sound manager history s)
    (hmatches : Matches manager (entry :: history) s') (hentry : Accounted manager history entry) :
    Sound manager (entry :: history) s' := by
  refine ⟨hmatches, fun entry' rest hsuffix => ?_⟩
  rcases List.suffix_cons_iff.1 hsuffix with heq | hsuffix
  · cases heq
    exact hentry
  · exact h.accounted entry' rest hsuffix

theorem Sound.acts (h : Sound manager history s)
    (hacts : Acts (World.targets order) k (s.conns k) c' s.world history w' history') :
    Sound manager history' ⟨w', Function.update s.conns k c'⟩ := by
  have hmatches := h.toMatches.acts hacts
  cases hacts with
  | idle => exact ⟨hmatches, h.accounted⟩
  | logsIn _ hnone _ => exact h.step hmatches ((h.target_eq k).symm.trans hnone)
  | executes hbound _ hexecute => exact h.step hmatches (h.explains hbound hexecute)

theorem booted_target {w : World} {req : HttpRequest} {response : HttpResponse} {iqn : String}
    {target : ScsiTarget} (h : handle cfg manager w req = .ok (response, w.insert iqn target)) :
    Built manager target := by
  generalize hw' : w.insert iqn target = w' at h
  cases handle_handles h with
  | refuses => exact absurd hw' (insert_ne w iqn target)
  | @boots _ client _ _ _ =>
    have hinstances := List.append_cancel_left (congrArg World.instances hw')
    exact ⟨client, (List.cons.inj hinstances).1⟩

theorem Runs.sound (h : Runs cfg manager order history s) : Sound manager history s := by
  induction h with
  | start =>
    refine ⟨matches_start, fun entry rest hsuffix => ?_⟩
    cases List.suffix_nil.1 hsuffix
  | refused _ _ ih => exact ih
  | booted _ hhandle ih => exact ih.step (ih.toMatches.booted _ (booted_target hhandle)) trivial
  | handled _ hhandle ih => exact ih.acts (handle_acts hhandle)

/-- Every handled HTTP request is a step of the run. -/
theorem Runs.request (hruns : Runs cfg manager order history s) {req : HttpRequest}
    {response : HttpResponse} (h : handle cfg manager s.world req = .ok (response, w')) :
    ∃ more, Runs cfg manager order (more ++ history) ⟨w', s.conns⟩ := by
  cases handle_handles h with
  | refuses => exact ⟨[], hruns.refused h⟩
  | boots => exact ⟨[_], hruns.booted h⟩

/-- Every request on a connection is a step of the run. -/
theorem Runs.handles (hruns : Runs cfg manager order history s) {req : Request} {bhs : List UInt8}
    {pdus : List Outbound}
    (h : (s.conns k).handle (World.targets order) s.world req bhs = .ok (pdus, c', w')) :
    ∃ more, Runs cfg manager order (more ++ history) ⟨w', Function.update s.conns k c'⟩ := by
  have hsame : Connection.erased Prod.fst ((s.conns k).handle (observing k (World.targets order))
      (s.world, history) req bhs) = .ok (pdus, c', w') :=
    (Connection.erased_handle (observing_erases k _) req).trans h
  cases hobserved : (s.conns k).handle (observing k (World.targets order)) (s.world, history) req bhs with
  | error e =>
    rw [hobserved] at hsame
    cases hsame
  | ok r =>
    rw [hobserved] at hsame
    obtain ⟨pdus', c₁, w₁, history'⟩ := r
    cases hsame
    obtain ⟨more, hmore⟩ := (handle_acts hobserved).grows
    have hstep := hruns.handled hobserved
    rw [hmore] at hstep
    exact ⟨more, hstep⟩

theorem boot_keeps {req : HttpRequest} {response : HttpResponse} (hmatches : Matches manager history s)
    (h : handle cfg manager s.world req = .ok (response, w')) (hbound : (s.conns k).target = some p) :
    ∃ t, s.world.instances[p]? = some t ∧ w'.instances[p]? = some t := by
  have hlt : p < s.world.instances.length := by
    rw [hmatches.length_eq]
    exact session_lt ((hmatches.target_eq k).symm.trans hbound)
  refine ⟨_, List.getElem?_eq_getElem hlt, ?_⟩
  cases handle_handles h with
  | refuses => exact List.getElem?_eq_getElem hlt
  | boots =>
    rw [World.insert, List.getElem?_append_left hlt]
    exact List.getElem?_eq_getElem hlt

/-- The first login to an IQN after a boot is bound to the target of that boot as it was built. -/
theorem first_login {iqn : String} {target : ScsiTarget} {between before : History}
    (h : Matches manager (.logsIn k iqn :: (between ++ .boots iqn target :: before)) s)
    (hboots : ∀ target', Entry.boots iqn target' ∉ between) (hlogins : ∀ k, Entry.logsIn k iqn ∉ between) :
    ∃ p, (s.conns k).target = some p ∧ s.world.instances[p]? = some target ∧ Built manager target := by
  have huntouched : Untouched (boots before) iqn target (between ++ .boots iqn target :: before) :=
    untouched_append target hboots hlogins
  obtain ⟨outcomes, t, hruns, hget⟩ := h.replayed (boots before) target huntouched.inserted_eq
  have hshared : shared (boots before) (.logsIn k iqn :: (between ++ .boots iqn target :: before)) = [] :=
    huntouched.shared_eq
  rw [hshared] at hruns
  cases hruns
  refine ⟨boots before, ?_, hget, h.built _ _ huntouched.inserted_eq⟩
  rw [h.target_eq, session, if_pos rfl]
  exact (huntouched.latest iqn).2 rfl

/-- In every run of boots, logins and commands, a connection is bound to the instance that was
the latest under its IQN when it logged in. Each command sees that instance's masters under
the writes executed before it, in order, through the connections bound to the same one; a
boot changes no instance that a connection holds, and the first login after it holds the
target as it was built. -/
theorem connections_see_their_instance (h : Runs cfg manager order history s) :
    (∀ k, (s.conns k).target = session k history) ∧
      (∀ k p, session k history = some p ↔ LoggedInAfter k p history) ∧
      (∀ k call outcome rest, .executes k call outcome :: rest <:+ history →
        Explained manager rest k call outcome) ∧
      (∀ req response w' k p, handle cfg manager s.world req = .ok (response, w') →
        (s.conns k).target = some p →
          ∃ t, s.world.instances[p]? = some t ∧ w'.instances[p]? = some t) ∧
      ∀ k iqn target between before,
        history = .logsIn k iqn :: (between ++ .boots iqn target :: before) →
        (∀ target', Entry.boots iqn target' ∉ between) → (∀ k', Entry.logsIn k' iqn ∉ between) →
          ∃ p, (s.conns k).target = some p ∧ s.world.instances[p]? = some target ∧
            Built manager target := by
  have hsound := h.sound
  have honce : Once history := fun k iqn rest hsuffix => hsound.accounted (.logsIn k iqn) rest hsuffix
  refine ⟨hsound.target_eq, fun k p => session_eq_some_iff honce, fun k call outcome rest hsuffix =>
    hsound.accounted (.executes k call outcome) rest hsuffix, ?_, ?_⟩
  · intro req response w' k p hhandle hbound
    exact boot_keeps hsound.toMatches hhandle hbound
  · rintro k iqn target between before rfl hboots hlogins
    exact first_login hsound.toMatches hboots hlogins

/-- A first login to a registered IQN is a step of the run. -/
theorem Runs.login (hruns : Runs cfg manager order history s) {iqn : String} (cmdSn : UInt32)
    (hnew : s.conns k = .new) (hget : s.world.get iqn = some p) :
    Runs cfg manager order (.logsIn k iqn :: history)
      ⟨s.world, Function.update s.conns k (.loggedIn p cmdSn)⟩ := by
  have hregistered : (observing k (World.targets order)).get (s.world, history) iqn = some p := hget
  obtain ⟨pdus, hlogin⟩ : ∃ pdus, (Connection.new : Connection ℕ).handle
      (observing k (World.targets order)) (s.world, history) (.login (loginTo iqn cmdSn)) [] =
        .ok (pdus, .loggedIn p cmdSn, s.world, history) := Connection.handle_loginTo [] hregistered
  have hentry : loginEntry k .new (.loggedIn p cmdSn) (.login (loginTo iqn cmdSn)) = [.logsIn k iqn] :=
    rfl
  rw [← hnew] at hlogin hentry
  have hstep := hruns.handled hlogin
  rwa [hentry] at hstep

end Servers

/-- After a reboot the connection from before it keeps its instance, and the next one has the
new instance. -/
theorem connections_see_their_instance_two_boots : ∃ manager history s,
    ClientManager.new blankImages twoClients = .ok manager ∧
    Runs twoClients manager id history s ∧ (s.conns 0).target = some 0 ∧
    (s.conns 1).target = some 1 := by
  obtain ⟨manager, hnew⟩ : ∃ manager, ClientManager.new blankImages twoClients = .ok manager :=
    ⟨_, rfl⟩
  have hplain : "AA:BB:CC:DD:EE:01".toList.all plain = true := by decide
  have hmac := mac_bootRequest (List.all_eq_true.1 hplain)
  obtain ⟨client, hresolve⟩ : ∃ client, manager.resolve "AA:BB:CC:DD:EE:01" = some client := by
    refine ⟨⟨"aa:bb:cc:dd:ee:01", some "pc-01", "img", [], "wb"⟩, ?_⟩
    rw [resolve_eq hnew]
    decide
  have hboot : twoClients.boot = some bootSection := rfl
  have hfirst : Runs twoClients manager id _ _ :=
    Runs.start.booted (handle_bootRequest World.empty hmac hresolve hboot)
  have hlogin := hfirst.login (k := 0) 5 rfl (World.get_insert_self _ _ _)
  have hsecond := hlogin.booted (handle_bootRequest _ hmac hresolve hboot)
  have hboth := hsecond.login (k := 1) 5 rfl (World.get_insert_self _ _ _)
  obtain ⟨htargets, -⟩ := connections_see_their_instance hboth
  refine ⟨manager, _, _, hnew, hboth, (htargets 0).trans ?_, (htargets 1).trans ?_⟩
  · simp only [session, lastBoot, boots, one_ne_zero, if_true, if_false]
  · simp only [session, lastBoot, boots, if_true]

end XBoot.Boot
