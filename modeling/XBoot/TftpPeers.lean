import XBoot.TftpRequests

/-!
# Datagrams from strangers

A transfer answers one client, but takes whatever datagram reaches its socket for that
client's answer. Every datagram from another address that arrives while the transfer
waits changes what the client is sent or how the transfer ends.
-/

namespace XBoot.Tftp

/-- A datagram that does not come from the client. -/
def Turn.foreign (client : SocketAddr) : Turn → Bool
  | .datagram source _ => source ≠ client
  | _ => false

/-- The turns without the datagrams of others. -/
def own (client : SocketAddr) (turns : List Turn) : List Turn :=
  turns.filter fun turn => !turn.foreign client

/-- The datagrams of others make no difference to a transfer. -/
def BoundToPeer (toLowercase : String → String) (cfg : TftpServer) (client : SocketAddr)
    (data : List UInt8) (options : List (String × String)) : Prop :=
  ∀ turns turns', own client turns = own client turns' →
    sendFile toLowercase cfg data options turns = sendFile toLowercase cfg data options turns'

variable {toLowercase : String → String} {cfg : TftpServer} {client : SocketAddr}
  {data : List UInt8} {options : List (String × String)} {turns : List Turn}

/-- A transfer that waits has sent a packet in each turn and one since. -/
theorem sendFile_waiting_length
    (h : (sendFile toLowercase cfg data options turns).ending = .waiting) :
    (sendFile toLowercase cfg data options turns).packets.length = turns.length + 1 := by
  unfold sendFile at h ⊢
  split
  · rw [if_pos (by assumption)] at h
    exact transferLoop_waiting_length h
  · rw [if_neg (by assumption)] at h
    cases turns with
    | nil => rfl
    | cons turn rest =>
      cases turn with
      | datagram source bytes =>
        dsimp only at h ⊢
        split
        · rw [if_pos (by assumption)] at h
          exact congrArg (· + 1) (transferLoop_waiting_length h)
        · rw [if_neg (by assumption)] at h
          cases h
      | _ => cases h

/-- A transfer that has ended takes no notice of what follows. -/
theorem sendFile_append_of_ended
    (h : (sendFile toLowercase cfg data options turns).ending ≠ .waiting) (rest : List Turn) :
    sendFile toLowercase cfg data options (turns ++ rest) =
      sendFile toLowercase cfg data options turns := by
  unfold sendFile at h ⊢
  split
  · rw [if_pos (by assumption)] at h
    exact transferLoop_append_of_ended h rest
  · rw [if_neg (by assumption)] at h
    cases turns with
    | nil => exact absurd rfl h
    | cons turn turns =>
      cases turn with
      | datagram source bytes =>
        dsimp only [List.cons_append] at h ⊢
        split
        · rw [if_pos (by assumption)] at h
          exact congrArg _ (transferLoop_append_of_ended h rest)
        · rfl
      | _ => rfl

theorem sendFile_concat_ne
    (h : (sendFile toLowercase cfg data options turns).ending = .waiting) (turn : Turn) :
    sendFile toLowercase cfg data options (turns ++ [turn]) ≠
      sendFile toLowercase cfg data options turns := by
  intro hsame
  have hmore := sendFile_waiting_length (hsame ▸ h)
  rw [hsame, sendFile_waiting_length h, List.length_append, List.length_singleton] at hmore
  omega

theorem own_concat (client : SocketAddr) (turns : List Turn) (turn : Turn) :
    own client (turns ++ [turn]) = own client turns ++ own client [turn] := List.filter_append _ _

private theorem sendFile_own {seen : List Turn} (hseen : seen <+: turns)
    (h : ∀ before turn after, turns = before ++ turn :: after → turn.foreign client = true →
      (sendFile toLowercase cfg data options before).ending ≠ .waiting) :
    sendFile toLowercase cfg data options seen =
        sendFile toLowercase cfg data options (own client seen) ∧
      ((sendFile toLowercase cfg data options seen).ending = .waiting → own client seen = seen) := by
  induction seen using List.reverseRecOn with
  | nil => exact ⟨rfl, fun _ => rfl⟩
  | append_singleton seen turn ih =>
    obtain ⟨hsame, hown⟩ := ih ((List.prefix_append seen [turn]).trans hseen)
    by_cases hwait : (sendFile toLowercase cfg data options seen).ending = .waiting
    · obtain ⟨after, rfl⟩ := hseen
      have hlocal : turn.foreign client = false := by
        refine Bool.eq_false_iff.2 fun hforeign => h seen turn after ?_ hforeign hwait
        rw [List.append_assoc, List.singleton_append]
      have hkept : own client (seen ++ [turn]) = seen ++ [turn] := by
        rw [own_concat, hown hwait, own, List.filter_singleton, hlocal]
        rfl
      rw [hkept]
      exact ⟨rfl, fun _ => rfl⟩
    · have hstays := sendFile_append_of_ended hwait [turn]
      rw [hsame] at hwait
      rw [hstays, own_concat, sendFile_append_of_ended hwait]
      refine ⟨hsame, fun hstill => absurd hstill ?_⟩
      rwa [hsame]

/-- The datagrams of others make no difference at any point of a run exactly when each of
them arrives after the transfer's end. -/
theorem bound_to_peer_iff (toLowercase : String → String) (cfg : TftpServer)
    (client : SocketAddr) (data : List UInt8) (options : List (String × String))
    (turns : List Turn) :
    (∀ seen, seen <+: turns → sendFile toLowercase cfg data options seen =
      sendFile toLowercase cfg data options (own client seen)) ↔
      ∀ before turn after, turns = before ++ turn :: after → turn.foreign client = true →
        (sendFile toLowercase cfg data options before).ending ≠ .waiting := by
  constructor
  · rintro h before turn after rfl hforeign hwait
    have hbefore := h before (List.prefix_append _ _)
    have hseen := h (before ++ [turn]) ⟨after, by simp⟩
    have hdropped : own client [turn] = [] := by
      rw [own, List.filter_singleton, hforeign]
      rfl
    rw [own_concat, hdropped, List.append_nil, ← hbefore] at hseen
    exact sendFile_concat_ne hwait turn hseen
  · exact fun h seen hseen => (sendFile_own hseen h).1

/-- An empty datagram from elsewhere makes the server repeat the first block. -/
theorem stranger_disturbs_transfer :
    ¬ BoundToPeer id TftpServer.new ⟨.v4 0, 1⟩ [7] [] := by
  intro h
  have hwait : (sendFile id TftpServer.new [7] [] []).ending = .waiting := rfl
  exact sendFile_concat_ne hwait (.datagram ⟨.v4 0, 2⟩ []) (h _ _ rfl)

end XBoot.Tftp
