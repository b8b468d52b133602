import XBoot.Conversations
import XBoot.GatheredWrites

/-!
# The invariant of a session

A session goes through its stages in one direction, keeps the target it is bound to, and
calls the target in FullFeature only. In a well-formed connection no panic of the
session itself is reachable: where a request with a data segment of `u32` length aborts,
the target's execution of a command does.
-/

namespace XBoot.Iscsi

open ListSlices Storage

variable {σ τ : Type} {tg : Targets σ τ} {c c' : Connection τ} {w w' : σ} {pdus : List Outbound}
  {bhs : List UInt8} {req : Request}

/-- The data segment of a SCSI command has a `u32` length. -/
def Request.Fits : Request → Prop
  | .scsiCommand cmd => cmd.data.length < 2 ^ 32
  | _ => True

/-- Requests off the wire fit. -/
theorem decode_fits {buf : List UInt8} {used : ℕ} (h : decode buf = .ok (req, used)) : req.Fits := by
  obtain ⟨hdr, hlen, -, -, hsegment, rfl, hcomplete, rfl⟩ := decode_eq_ok.1 h
  generalize hdata : slice buf BHS_LEN (be24 hdr 5) = data
  have hlength : data.length = be24 hdr 5 := hdata ▸ length_slice (by omega)
  have hfits : data.length < 2 ^ 32 := Nat.lt_of_le_of_lt (hlength ▸ hsegment) (by decide)
  rw [requestOf]
  split
  · trivial
  · split
    · trivial
    · split
      · exact hfits
      · repeat' split
        all_goals trivial

/-- The moves of a session's stage; a stage may also stay. -/
inductive Stage.Moves : Stage → Stage → Prop
  | stay (s : Stage) : Moves s s
  | enter : Moves .login .fullFeature
  | failLogin : Moves .login .closing
  | close : Moves .fullFeature .closing

namespace Connection

/-- The stage moves forward, and a bound target stays. -/
structure Advances (c c' : Connection τ) : Prop where
  moves : Stage.Moves c.stage c'.stage
  keeps : ∀ target, c.target = some target → c'.target = some target

theorem handleLogin_advances {lr : LoginRequest} (hstage : c.stage = .login)
    (h : Gives (c.handleLogin tg w lr) pdus c') : Advances c c' := by
  cases handleLogin_logins h with
  | fails _ hgives =>
    cases hgives
    exact ⟨hstage ▸ .failLogin, fun _ => id⟩
  | accepts _ haccepts =>
    refine ⟨?_, fun target htarget => ?_⟩
    · rw [haccepts.stage_eq, hstage]
      split
      · exact .enter
      · exact .stay _
    · rw [haccepts.keeps_target (by rw [htarget]; nofun), htarget]

private theorem advances_of_same (h : SameSession c c') : Advances c c' :=
  ⟨h.stage_eq ▸ .stay _, fun _ => h.target_eq ▸ id⟩

/-- Handling a request moves the stage forward and keeps the target. -/
theorem handle_advances (h : c.handle tg w req bhs = .ok (pdus, c', w')) : Advances c c' := by
  cases handle_handles h with
  | login hstage hgives => exact handleLogin_advances hstage hgives
  | misplaced hstage _ hgives =>
    cases hgives
    refine ⟨?_, fun _ => id⟩
    cases hc : c.stage with
    | login => exact .failLogin
    | fullFeature => exact absurd hc hstage
    | closing => exact .stay _
  | logout hstage hgives =>
    cases hgives
    exact ⟨hstage ▸ .close, fun _ => id⟩
  | _ hstage _ => exact advances_of_same (handle_same hstage h fun _ => nofun)

theorem handle_untouched (hstage : c.stage ≠ .fullFeature)
    (h : c.handle tg w req bhs = .ok (pdus, c', w')) : w' = w := by
  cases handle_handles h with
  | login => rfl
  | misplaced => rfl
  | command hfull => exact absurd hfull hstage
  | dataOut hfull => exact absurd hfull hstage
  | _ => rfl

/-- The bound target aborts the execution of some command. -/
def TargetAborts (tg : Targets σ τ) (w : σ) (c : Connection τ) (e : Failure) : Prop :=
  ∃ target cmd data, c.target = some target ∧ tg.execute target cmd data w = .error e

theorem finishWrite_aborts {p : PendingWrite} {e : Failure} (hbound : c.target ≠ none)
    (h : c.finishWrite tg w p = .error e) : TargetAborts tg w c e := by
  rw [finishWrite] at h
  cases htarget : c.target with
  | none => exact absurd htarget hbound
  | some target =>
    rw [htarget] at h
    dsimp only at h
    cases hexecute : tg.execute target p.cmd p.buf w with
    | error e' =>
      rw [hexecute] at h
      cases h
      exact ⟨target, p.cmd, p.buf, htarget, hexecute⟩
    | ok r =>
      rw [hexecute] at h
      cases h

theorem beginWrite_aborts {cmd : ScsiCommand} {e : Failure} (hbound : c.target ≠ none)
    (hfits : cmd.data.length < 2 ^ 32) (h : c.beginWrite tg w cmd bhs = .error e) :
    TargetAborts tg w c e := by
  have hlength : (UInt32.ofNat cmd.data.length).toNat = cmd.data.length :=
    UInt32.toNat_ofNat_of_lt' hfits
  rw [beginWrite] at h
  dsimp only at h
  split at h
  · cases h
  · rename_i hle
    rw [UInt32.lt_iff_toNat_lt, hlength] at hle
    rw [if_neg hle] at h
    split at h
    · exact finishWrite_aborts hbound h
    · cases h

theorem dataOut_aborts {d : ScsiDataOut} {e : Failure} (hbound : c.target ≠ none)
    (h : c.dataOut tg w d bhs = .error e) : TargetAborts tg w c e := by
  rw [dataOut] at h
  cases hp : c.inFlight d.itt with
  | none =>
    rw [hp] at h
    cases h
  | some p =>
    rw [hp] at h
    dsimp only at h
    split at h
    · cases h
    · split at h
      · cases h
      · rw [takeWrite_setInFlight] at h
        have hdropped : (c.setInFlight d.itt none).target ≠ none := hbound
        have haborts := finishWrite_aborts hdropped h
        exact haborts

theorem scsiCommand_aborts {cmd : ScsiCommand} {e : Failure} (hfits : cmd.data.length < 2 ^ 32)
    (h : c.scsiCommand tg w cmd bhs = .error e) : TargetAborts tg w c e := by
  rw [scsiCommand] at h
  cases htarget : c.target with
  | none =>
    rw [htarget] at h
    cases h
  | some target =>
    rw [htarget] at h
    dsimp only at h
    split at h
    · have hbound : c.counted.target ≠ none := by
        rw [counted, htarget]
        exact Option.some_ne_none target
      have haborts := beginWrite_aborts hbound hfits h
      exact haborts
    · cases hexecute : tg.execute target cmd cmd.data w with
      | error e' =>
        rw [hexecute] at h
        cases h
        exact ⟨target, cmd, cmd.data, htarget, hexecute⟩
      | ok r =>
        rw [hexecute] at h
        dsimp only at h
        split at h <;> cases h

theorem handle_aborts {e : Failure} (hc : WellFormed c) (hfits : req.Fits)
    (h : c.handle tg w req bhs = .error e) : c.stage = .fullFeature ∧ TargetAborts tg w c e := by
  cases hstage : c.stage with
  | login => cases req <;> simp [handle, hstage, answer] at h
  | closing => cases req <;> simp [handle, hstage, answer] at h
  | fullFeature =>
    refine ⟨rfl, ?_⟩
    simp only [handle, hstage] at h
    cases req with
    | scsiCommand cmd => exact scsiCommand_aborts hfits h
    | dataOut d => exact dataOut_aborts (hc.bound hstage) h
    | _ => cases h

end Connection

/-- A reachable connection is well formed, and no request moves its stage back, changes its
target, reaches a target outside FullFeature or panics on its own. -/
theorem session_invariant (tg : Targets σ τ) {ts : List (Turn σ τ)} (h : Conversation tg ts c) :
    c.WellFormed ∧ (∀ t ∈ ts, t.conn.Advances t.next) ∧
      (∀ w req bhs pdus c' w' executed,
        c.handle (recording tg) (w, []) req bhs = .ok (pdus, c', w', executed) →
          executed ≠ [] → c.stage = .fullFeature) ∧
      ∀ w req bhs e, req.Fits → c.handle tg w req bhs = .error e →
        c.stage = .fullFeature ∧ c.TargetAborts tg w e := by
  refine ⟨h.wellFormed, ?_, ?_, ?_⟩
  · exact fun t ht => Connection.handle_advances (h.happens t ht)
  · intro w req bhs pdus c' w' executed hhandle hexecuted
    by_contra hstage
    have hsame := Connection.handle_untouched hstage hhandle
    exact hexecuted (congrArg Prod.snd hsame)
  · exact fun w req bhs e hfits hhandle => Connection.handle_aborts h.wellFormed hfits hhandle

/-- The turn of a first login that names a registered target. -/
def loginTurn (w : σ) (iqn : String) (pdus : List Outbound) (target : ℕ) : Turn σ ℕ where
  conn := .new
  before := w
  req := .login (loginTo iqn 5)
  bhs := []
  pdus := pdus
  next := .loggedIn target 5
  after := w

theorem login_conversation {tg : Targets σ ℕ} {w : σ} (hget : tg.get w "a" = some 0) :
    ∃ pdus, Conversation tg [loginTurn w "a" pdus 0] (.loggedIn 0 5) := by
  obtain ⟨pdus, hlogin⟩ : ∃ pdus, (Connection.new : Connection ℕ).handle tg w
      (.login (loginTo "a" 5)) [] = .ok (pdus, .loggedIn 0 5, w) :=
    Connection.handle_loginTo [] hget
  have hturn : (loginTurn w "a" pdus 0).Happens tg := hlogin
  exact ⟨pdus, .turn .new hturn⟩

/-- The turn of a write without data. -/
def writeTurn (w : σ) (c : Connection ℕ) (cmd : ScsiCommand) : Turn σ ℕ where
  conn := c
  before := w
  req := .scsiCommand cmd
  bhs := []
  pdus := [c.counted.solicit cmd.itt (.start cmd)]
  next := c.counted.setInFlight cmd.itt (some (.start cmd))
  after := w

/-- A login and a write that waits for its data. -/
def writeTurns (w : σ) (pdus : List Outbound) : List (Turn σ ℕ) :=
  [loginTurn w "a" pdus 0, writeTurn w (.loggedIn 0 5) writeOneBlock]

theorem writeTurns_conversation {tg : Targets σ ℕ} {w : σ} (hget : tg.get w "a" = some 0) :
    ∃ pdus, Conversation tg (writeTurns w pdus) afterCommand := by
  obtain ⟨pdus, hlogin⟩ := login_conversation hget
  have hwrite : (writeTurn w (.loggedIn 0 5) writeOneBlock).Happens tg := rfl
  exact ⟨pdus, hlogin.turn hwrite⟩

/-- The turn of a logout while half of a block is missing. -/
def closingTurn (w : σ) : Turn σ ℕ where
  conn := afterHalf
  before := w
  req := .logout ⟨0, 2, 0, 6, 2⟩
  bhs := []
  pdus := (afterHalf.logout ⟨0, 2, 0, 6, 2⟩).1
  next := (afterHalf.logout ⟨0, 2, 0, 6, 2⟩).2
  after := w

theorem closed_with_pending_write : ∃ (ts : List (Turn World ℕ)) (c : Connection ℕ),
    Conversation (World.targets id) ts c ∧ c.stage = .closing ∧ c.inFlight 1 = some halfWritten ∧
      c.WellFormed ∧ ∀ t ∈ ts, t.conn.Advances t.next := by
  have hget : (World.targets id).get oneBlockDisk "a" = some 0 := by decide
  obtain ⟨_, hcommand⟩ := writeTurns_conversation hget
  obtain ⟨pdus, hhalf⟩ := halfBlock_handled (World.targets id) oneBlockDisk
  have hdata : Turn.Happens (World.targets id)
      ⟨afterCommand, oneBlockDisk, .dataOut (halfBlock 0), [], pdus, afterHalf, oneBlockDisk⟩ := hhalf
  have hlogout : (closingTurn oneBlockDisk).Happens (World.targets id) := rfl
  have hclosed := (hcommand.turn hdata).turn hlogout
  obtain ⟨hwell, hadvances, -⟩ := session_invariant (World.targets id) hclosed
  exact ⟨_, _, hclosed, rfl, inFlight_afterHalf, hwell, hadvances⟩

end XBoot.Iscsi
