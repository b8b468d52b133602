import XBoot.DhcpReplies

/-!
# Offered addresses

A client's address is in the server's network, and its host part comes from the last byte of the
hardware address. Another host part stands in for a reserved byte; a client that ends in it
gets the same address.
-/

namespace XBoot.Dhcp

open BigEndian Boot

def hostAddress (serverIp : BitVec 32) (host : UInt8) : BitVec 32 :=
  ipv4 ((octets serverIp).take 3 ++ [host])

def lastOctet (ip : BitVec 32) : UInt8 := (octets ip).getD 3 0

theorem hostAddress_lastOctet (ip : BitVec 32) : hostAddress ip (lastOctet ip) = ip := by
  have hsplit : (octets ip).take 3 ++ [lastOctet ip] = octets ip := rfl
  rw [hostAddress, hsplit, DhcpMessage.ipv4_octets]

theorem hostAddress_inj {ip : BitVec 32} {host host' : UInt8} :
    hostAddress ip host = hostAddress ip host' ↔ host = host' := by
  constructor
  · intro h
    have hbyte (host : UInt8) : (hostAddress ip host).toNat % 256 = host.toNat := by
      have hlt := host.toNat_lt
      rw [hostAddress, ipv4, BitVec.toNat_ofNat, ofBe_concat]
      omega
    apply UInt8.toNat_inj.1
    rw [← hbyte host, h, hbyte host']
  · rintro rfl
    rfl

def hostPart (lastByte : UInt8) : UInt8 :=
  if lastByte < 2 ∨ lastByte = 255 then 100 + lastByte else lastByte

/-- Reserved bytes, with the host parts that stand in for them. -/
def standIns : List (UInt8 × UInt8) := [(0, 100), (1, 101), (255, 99)]

/-- A hardware address that ends in `b` leads to this host part. -/
def Takes (b host : UInt8) : Prop := (b, host) ∈ standIns ∨ b = host ∧ ∀ s ∈ standIns, s.1 ≠ b

/-- One byte stands in for the other. -/
def Clash (b b' : UInt8) : Prop := (b, b') ∈ standIns ∨ (b', b) ∈ standIns

theorem forall_standIns {P : UInt8 × UInt8 → Prop} :
    (∀ s ∈ standIns, P s) ↔ P (0, 100) ∧ P (1, 101) ∧ P (255, 99) := by
  simp [standIns]

theorem hostPart_standIn : ∀ s ∈ standIns, hostPart s.1 = s.2 :=
  forall_standIns.2 ⟨by decide, by decide, by decide⟩

theorem hostPart_of_free {b : UInt8} (h : ∀ s ∈ standIns, s.1 ≠ b) : hostPart b = b := by
  obtain ⟨hzero, hone, hlast⟩ := forall_standIns.1 h
  rw [hostPart, if_neg]
  grind

theorem reserved_or_free (b : UInt8) :
    (∃ s ∈ standIns, s.1 = b) ∨ ∀ s ∈ standIns, s.1 ≠ b := by
  by_cases h : ∃ s ∈ standIns, s.1 = b
  · exact .inl h
  · exact .inr fun s hs heq => h ⟨s, hs, heq⟩

theorem hostPart_eq_iff {b host : UInt8} : hostPart b = host ↔ Takes b host := by
  constructor
  · rintro rfl
    obtain ⟨s, hs, rfl⟩ | hfree := reserved_or_free b
    · left
      rw [hostPart_standIn s hs]
      exact hs
    · exact .inr ⟨(hostPart_of_free hfree).symm, hfree⟩
  · rintro (hs | ⟨rfl, hfree⟩)
    · exact hostPart_standIn (b, host) hs
    · exact hostPart_of_free hfree

/-- Different bytes have the same host part exactly when one stands in for the other. -/
theorem hostPart_eq_hostPart {b b' : UInt8} (hne : b ≠ b') :
    hostPart b = hostPart b' ↔ Clash b b' := by
  -- No byte stands in for two others, and none that stands in is reserved.
  have hone : ∀ s ∈ standIns, ∀ t ∈ standIns, s.2 = t.2 → s.1 = t.1 := by
    simp only [forall_standIns]
    decide
  have hfree : ∀ s ∈ standIns, ∀ t ∈ standIns, t.1 ≠ s.2 := by
    simp only [forall_standIns]
    decide
  constructor
  · intro h
    obtain ⟨s, hs, rfl⟩ | hb := reserved_or_free b
    · rw [hostPart_standIn s hs] at h
      obtain ⟨t, ht, rfl⟩ | hb' := reserved_or_free b'
      · rw [hostPart_standIn t ht] at h
        exact absurd (hone s hs t ht h) hne
      · rw [hostPart_of_free hb'] at h
        exact .inl (h ▸ hs)
    · rw [hostPart_of_free hb] at h
      obtain ⟨t, ht, rfl⟩ | hb' := reserved_or_free b'
      · rw [hostPart_standIn t ht] at h
        exact .inr (h ▸ ht)
      · rw [hostPart_of_free hb'] at h
        exact absurd h hne
  · rintro (hs | hs)
    · rw [hostPart_standIn (b, b') hs, hostPart_of_free (hfree (b, b') hs)]
    · rw [hostPart_standIn (b', b) hs, hostPart_of_free (hfree (b', b) hs)]

theorem hostPart_ne (b : UInt8) : hostPart b ≠ 0 ∧ hostPart b ≠ 255 := by
  obtain ⟨s, hs, rfl⟩ | hfree := reserved_or_free b
  · have hstandIns : ∀ s ∈ standIns, s.2 ≠ 0 ∧ s.2 ≠ 255 :=
      forall_standIns.2 ⟨by decide, by decide, by decide⟩
    rw [hostPart_standIn s hs]
    exact hstandIns s hs
  · rw [hostPart_of_free hfree]
    obtain ⟨hzero, -, hlast⟩ := forall_standIns.1 hfree
    exact ⟨hzero.symm, hlast.symm⟩

variable {cfg : BootConfig} {msg msg' : DhcpMessage} {p p' : OfferPlan}

/-- The host part of an offer comes from the hardware address. -/
theorem plan_yiaddr (hplan : plan msg cfg = some p) :
    ∃ b, msg.mac.getLast? = some b ∧ p.yiaddr = hostAddress cfg.serverIp (hostPart b) := by
  have hassign : assignIpFromMac msg.mac cfg.serverIp = some p.yiaddr := by
    rw [plan] at hplan
    split at hplan
    · cases hplan
    · rename_i yiaddr hassign
      rw [hassign]
      split at hplan
      · cases hplan
        rfl
      · split at hplan
        · cases hplan
        · split at hplan
          · cases hplan
            rfl
          · split at hplan
            · cases hplan
              rfl
            · cases hplan
  obtain ⟨b, hb, hyiaddr⟩ := Option.map_eq_some_iff.1 hassign
  refine ⟨b, hb, ?_⟩
  rw [← hyiaddr, hostAddress, hostPart]
  split
  · rfl
  · rfl

theorem Answers.yiaddr_eq {isPort67 : Bool} {req reply : DhcpMessage}
    (h : Answers cfg isPort67 req reply) : ∃ p, plan req cfg = some p ∧
      reply.yiaddr = if isPort67 = true then p.yiaddr else 0 := by
  obtain ⟨p, mtype, vendor, hplan, -, -, rfl⟩ := h.built
  refine ⟨p, hplan, ?_⟩
  rw [buildReply, roleOf]
  cases isPort67 with
  | false => rfl
  | true => cases isPxe req <;> rfl

structure FreeHost (serverIp ip : BitVec 32) : Prop where
  ne_server : ip ≠ serverIp
  ne_network : ip ≠ hostAddress serverIp 0
  ne_broadcast : ip ≠ hostAddress serverIp 255

/-- Clients whose hardware addresses end in different bytes are offered different addresses, and
each is free. -/
structure GoodOffers (cfg : BootConfig) (msg msg' : DhcpMessage) (p p' : OfferPlan) : Prop where
  apart : msg.mac.getLast? ≠ msg'.mac.getLast? → p.yiaddr ≠ p'.yiaddr
  free : FreeHost cfg.serverIp p.yiaddr
  free' : FreeHost cfg.serverIp p'.yiaddr

/-- The last bytes do not clash, and neither leads to the server's own host part. -/
def KeepApart (serverIp : BitVec 32) (mac mac' : List UInt8) : Prop :=
  ∀ b ∈ mac.getLast?, ∀ b' ∈ mac'.getLast?,
    ¬ Clash b b' ∧ ¬ Takes b (lastOctet serverIp) ∧ ¬ Takes b' (lastOctet serverIp)

theorem freeHost_iff {serverIp : BitVec 32} {b : UInt8} :
    FreeHost serverIp (hostAddress serverIp (hostPart b)) ↔ ¬ Takes b (lastOctet serverIp) := by
  have hserver : hostAddress serverIp (hostPart b) = serverIp ↔ Takes b (lastOctet serverIp) := by
    conv_lhs => rhs; rw [← hostAddress_lastOctet serverIp]
    rw [hostAddress_inj, hostPart_eq_iff]
  rw [← hserver]
  constructor
  · exact FreeHost.ne_server
  · intro h
    exact ⟨h, fun heq => (hostPart_ne b).1 (hostAddress_inj.1 heq),
      fun heq => (hostPart_ne b).2 (hostAddress_inj.1 heq)⟩

theorem Clash.ne {b b' : UInt8} (h : Clash b b') : b ≠ b' := by
  have hapart : ∀ s ∈ standIns, s.1 ≠ s.2 := forall_standIns.2 ⟨by decide, by decide, by decide⟩
  rintro rfl
  rcases h with hs | hs
  · exact hapart (b, b) hs rfl
  · exact hapart (b, b) hs rfl

/-- Two offers are good exactly when the last bytes of the hardware addresses keep apart. -/
theorem offers_good_iff (hplan : plan msg cfg = some p) (hplan' : plan msg' cfg = some p') :
    GoodOffers cfg msg msg' p p' ↔ KeepApart cfg.serverIp msg.mac msg'.mac := by
  obtain ⟨b, hb, hyiaddr⟩ := plan_yiaddr hplan
  obtain ⟨b', hb', hyiaddr'⟩ := plan_yiaddr hplan'
  have hsame : p.yiaddr = p'.yiaddr ↔ hostPart b = hostPart b' := by
    rw [hyiaddr, hyiaddr', hostAddress_inj]
  have hfree : FreeHost cfg.serverIp p.yiaddr ↔ ¬ Takes b (lastOctet cfg.serverIp) := by
    rw [hyiaddr, freeHost_iff]
  have hfree' : FreeHost cfg.serverIp p'.yiaddr ↔ ¬ Takes b' (lastOctet cfg.serverIp) := by
    rw [hyiaddr', freeHost_iff]
  constructor
  · intro hgood c hc c' hc'
    obtain rfl : b = c := Option.some.inj (hb.symm.trans hc)
    obtain rfl : b' = c' := Option.some.inj (hb'.symm.trans hc')
    refine ⟨fun hclash => ?_, hfree.1 hgood.free, hfree'.1 hgood.free'⟩
    refine hgood.apart ?_ (hsame.2 ((hostPart_eq_hostPart hclash.ne).2 hclash))
    rw [hb, hb']
    exact fun heq => hclash.ne (Option.some.inj heq)
  · intro hkeep
    obtain ⟨hclash, hserver, hserver'⟩ := hkeep b hb b' hb'
    refine ⟨fun hne heq => ?_, hfree.2 hserver, hfree'.2 hserver'⟩
    refine hclash ((hostPart_eq_hostPart fun hbytes => hne ?_).1 (hsame.1 heq))
    rw [hb, hb', hbytes]

def ipxeOn (lastByte : UInt8) : DhcpMessage :=
  { ipxeDiscover with
    chaddr := ⟨[0xAA, 0xBB, 0xCC, 0xDD, 0xEE, lastByte] ++ List.replicate 10 0, rfl⟩ }

theorem offers_good_two_cards : ∃ p p', plan (ipxeOn 2) bootSection = some p ∧
    plan (ipxeOn 3) bootSection = some p' ∧
      GoodOffers bootSection (ipxeOn 2) (ipxeOn 3) p p' := by
  obtain ⟨p, hplan⟩ : ∃ p, plan (ipxeOn 2) bootSection = some p := ⟨_, rfl⟩
  obtain ⟨p', hplan'⟩ : ∃ p', plan (ipxeOn 3) bootSection = some p' := ⟨_, rfl⟩
  have hapart : KeepApart bootSection.serverIp (ipxeOn 2).mac (ipxeOn 3).mac := by
    have hlast : (ipxeOn 2).mac.getLast? = some 2 := by decide
    have hlast' : (ipxeOn 3).mac.getLast? = some 3 := by decide
    have hserver : lastOctet bootSection.serverIp = 10 := by decide
    intro b hb b' hb'
    obtain rfl := Option.some.inj (hlast.symm.trans hb)
    obtain rfl := Option.some.inj (hlast'.symm.trans hb')
    rw [hserver]
    simp [Clash, Takes, standIns]
  exact ⟨p, p', hplan, hplan', (offers_good_iff hplan hplan').2 hapart⟩

/-- Cards that end in `01` and `65` are offered one address, and one that ends in `0a` the
server's. -/
theorem offers_collide : ∃ p p' p'', plan (ipxeOn 0x01) bootSection = some p ∧
    plan (ipxeOn 0x65) bootSection = some p' ∧ plan (ipxeOn 0x0A) bootSection = some p'' ∧
      (ipxeOn 0x01).mac.getLast? ≠ (ipxeOn 0x65).mac.getLast? ∧ p.yiaddr = p'.yiaddr ∧
        p''.yiaddr = bootSection.serverIp :=
  ⟨_, _, _, rfl, rfl, rfl, by decide, by decide, by decide⟩

end XBoot.Dhcp
