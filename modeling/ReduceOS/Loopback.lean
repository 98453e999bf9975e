import ReduceOS.NetworkStack
import Mathlib.Tactic.FinCases

/-!
Sending over the loopback device. A packet to the address of the device goes through the layers,
is handled within the call that sends it, and reaches the handler of its protocol as it was sent.
-/
namespace ReduceOS.Loopback

open Inet NetworkStack

/-- What handlers from elsewhere do not: `icmp_handle` has one protocol, a handler does not send
on what it was called with, and the loopback address stays where it is in the cache. -/
structure Registered (env : Environment) : Prop where
  icmp_only : ∀ protocol, env.protocols protocol = some .icmp → protocol = protocolIcmp
  keeps : ∀ id packet s, s.arp loopbackAddress = some loopbackNic.mac →
    (env.other id packet s).2.arp loopbackAddress = some loopbackNic.mac
  once : ∀ id protocol packet s, env.protocols protocol = some (.other id) →
    ∃ more, (env.other id packet s).2.calls = s.calls ++ more ∧
      ∀ c ∈ more, c.protocol = protocol → c.packet.drop ipv4Size ≠ packet.drop ipv4Size

/-- A call with a packet of the loopback device to itself that has this protocol and payload. -/
def Delivers (protocol : Byte) (payload : List Byte) (c : Call) : Prop :=
  c.protocol = protocol ∧ c.packet.drop ipv4Size = payload ∧
    ofList c.packet (fun _ => 0) 9 = protocol ∧
    load32 (ofList c.packet fun _ => 0) 12 = loopbackNic.ipv4Address ∧
    load32 (ofList c.packet fun _ => 0) 16 = loopbackAddress

instance (protocol : Byte) (payload : List Byte) :
    DecidablePred (Delivers protocol payload) :=
  fun _ => inferInstanceAs (Decidable (_ ∧ _))

def frame (type : BitVec 16) (dest : Mac) (payload : List Byte) : List Byte :=
  dest.bytes ++ loopbackNic.mac.bytes ++ bytes16 (htons type) ++ payload

section Fields

variable (rest : ℕ → Byte) (type : BitVec 16) (dest : Mac)

theorem ethernetSend_eq (write : List Byte → Net → Option Net) (payload : List Byte) (s : Net) :
    ethernetSend write loopbackNic payload type dest s = write (frame type dest payload) s := rfl

@[simp] theorem frame_length (payload : List Byte) :
    (frame type dest payload).length = ethernetSize + payload.length := by
  simp [frame, Mac.bytes, bytes16, ethernetSize]
  omega

@[simp] theorem loadMac_frame (payload : List Byte) :
    loadMac (ofList (frame type dest payload) rest) 0 = dest := by
  funext i
  fin_cases i <;> rfl

@[simp] theorem load16_frame (payload : List Byte) :
    load16 (ofList (frame type dest payload) rest) 12 = htons type := join16 _

theorem loadBytes_frame (payload : List Byte) :
    loadBytes (ofList (frame type dest payload) rest) ethernetSize payload.length = payload :=
  loadBytes_ofList (dest.bytes ++ loopbackNic.mac.bytes ++ bytes16 (htons type)) payload rest

section Arp

variable (p : ArpPacket)

theorem ptype_frame : load16 (ofList (frame type dest p.bytes) rest) (ethernetSize + 2) =
    htons ipv4PacketType := join16 _

theorem oper_frame : load16 (ofList (frame type dest p.bytes) rest) (ethernetSize + 6) =
    htons p.oper := join16 _

theorem sha_frame : loadMac (ofList (frame type dest p.bytes) rest) (ethernetSize + 8) =
    p.sha := by
  funext i
  fin_cases i <;> rfl

theorem spa_frame : load32 (ofList (frame type dest p.bytes) rest) (ethernetSize + 14) =
    p.spa := join32 _

theorem tpa_frame : load32 (ofList (frame type dest p.bytes) rest) (ethernetSize + 24) =
    p.tpa := join32 _

end Arp

section Ipv4

variable (h : Ipv4Header) (payload : List Byte)

theorem length_frame : load16 (ofList (frame type dest (h.bytes ++ payload)) rest)
    (ethernetSize + 2) = h.length := join16 _

theorem protocol_frame : ofList (frame type dest (h.bytes ++ payload)) rest (ethernetSize + 9) =
    h.protocol := rfl

theorem srcAddr_frame : load32 (ofList (frame type dest (h.bytes ++ payload)) rest)
    (ethernetSize + 12) = h.srcAddr := join32 _

theorem srcAddr_packet : load32 (ofList (h.bytes ++ payload) rest) 12 = h.srcAddr := join32 _

theorem destAddr_packet : load32 (ofList (h.bytes ++ payload) rest) 16 = h.destAddr := join32 _

theorem length_packet : load16 (ofList (h.bytes ++ payload) rest) 2 = h.length := join16 _

/-- Behind the two headers of a frame stands the payload. -/
theorem payload_frame (b : Byte) : ofList (frame type dest (h.bytes ++ b :: payload)) rest
    (ethernetSize + 20) = b := rfl

theorem bytes_length : h.bytes.length = ipv4Size := rfl

end Ipv4

end Fields

section Resolve

variable (env : Environment) (n : ℕ) (s : Net)

def cached : Net := arpAddEntry s loopbackAddress loopbackNic.mac

@[simp] theorem cached_arp : (cached s).arp loopbackAddress = some loopbackNic.mac := by
  simp [cached, arpAddEntry]

@[simp] theorem cached_calls : (cached s).calls = s.calls := rfl

variable {s} in
theorem cached_of_some (hcache : s.arp loopbackAddress = some loopbackNic.mac) :
    cached s = s := by
  simp [cached, arpAddEntry, ← hcache]

theorem cached_cached : cached (cached s) = cached s := cached_of_some (cached_arp s)

/-- A frame to the device or to all is given to the handler of ARP. -/
theorem handle_arp (write : List Byte → Net → Option Net) (p : ArpPacket) (dest : Mac)
    (hdest : dest = loopbackNic.mac ∨ dest = broadcastMac) (rest : ℕ → Byte) :
    (ethernetHandle env write loopbackNic (ofList (frame arpPacketType dest p.bytes) rest)
      (BitVec.ofNat 64 (frame arpPacketType dest p.bytes).length)).run =
    (arpHandlePacket write loopbackNic (ofList (frame arpPacketType dest p.bytes) rest)
      ethernetSize).run := by
  have hlength : BitVec.ofNat 64 (frame arpPacketType dest p.bytes).length ≠ 0 := by
    have hbytes : p.bytes.length = 28 := rfl
    simp [hbytes, ethernetSize]
  have haddressed : Addressed loopbackNic (ofList (frame arpPacketType dest p.bytes) rest) := by
    simpa [Addressed] using hdest
  simp only [ethernetHandle, hlength, haddressed, load16_frame, ntohs_htons, if_true, if_false]

theorem write_reply (p : ArpPacket) (hoper : p.oper ≠ arpOperationRequest)
    (hsha : p.sha = loopbackNic.mac) (hspa : p.spa = loopbackAddress) :
    loopbackWrite env (n + 1) (frame arpPacketType loopbackNic.mac p.bytes) s =
      some (cached s) := by
  simp only [loopbackWrite]
  rw [handle_arp env _ p _ (.inl rfl)]
  simp [arpHandlePacket, ptype_frame, oper_frame, hoper, sha_frame, spa_frame, hsha, hspa, cached]

theorem arpRequest_eq :
    arpRequest (loopbackWrite env (n + 2)) loopbackNic loopbackAddress s = some (0, cached s) := by
  have haddress : loopbackNic.ipv4Address = loopbackAddress := rfl
  have hreplied := write_reply env n (cached s)
    ⟨arpOperationReply, loopbackNic.mac, loopbackAddress, loopbackNic.mac, loopbackAddress⟩
    (by simp [arpOperationReply, arpOperationRequest]) rfl rfl
  simp only [arpRequest, ethernetSend_eq]
  rw [loopbackWrite, handle_arp env _ _ _ (.inr rfl)]
  simp only [arpHandlePacket, ptype_frame, oper_frame, sha_frame, spa_frame, tpa_frame,
    ntohs_htons, haddress, if_true, arpReply, ethernetSend_eq]
  rw [← cached, hreplied, cached_cached]
  simp

theorem arpSearch_eq :
    arpSearch (loopbackWrite env (n + 2)) loopbackNic loopbackAddress s = some (0, cached s) := by
  simp [arpSearch, arpRequest_eq]

end Resolve

section Packet

variable (env : Environment) (n : ℕ) (s : Net) (h : Ipv4Header) (payload : List Byte)

structure Sendable (h : Ipv4Header) (payload : List Byte) : Prop where
  length : (ntohs h.length).toNat = ipv4Size + payload.length
  dest : h.destAddr = loopbackAddress

variable {h payload} in
/-- Once the address is in the cache, a packet is written as it is. -/
theorem sendPacket_cached (write : List Byte → Net → Option Net) (hsend : Sendable h payload)
    (rest : ℕ → Byte) (hcache : s.arp loopbackAddress = some loopbackNic.mac) :
    ipv4SendPacket write loopbackNic (ofList (h.bytes ++ payload) rest) s =
      (write (frame ipv4PacketType loopbackNic.mac (h.bytes ++ payload)) s).map (0, ·) := by
  have hwhole : loadBytes (ofList (h.bytes ++ payload) rest) 0 (ipv4Size + payload.length) =
      h.bytes ++ payload := by
    have hread := loadBytes_ofList [] (h.bytes ++ payload) rest
    simpa [bytes_length] using hread
  cases hwritten : write (frame ipv4PacketType loopbackNic.mac (h.bytes ++ payload)) s <;>
    simp [ipv4SendPacket, destAddr_packet, hsend.dest, hcache, length_packet, hsend.length,
      hwhole, ethernetSend_eq, hwritten]

variable {h payload} in
theorem sendPacket_eq (hsend : Sendable h payload) (rest : ℕ → Byte)
    (hcache : s.arp loopbackAddress = none ∨ s.arp loopbackAddress = some loopbackNic.mac) :
    ipv4SendPacket (loopbackWrite env (n + 2)) loopbackNic (ofList (h.bytes ++ payload) rest) s =
      (loopbackWrite env (n + 2) (frame ipv4PacketType loopbackNic.mac (h.bytes ++ payload))
        (cached s)).map (0, ·) := by
  rw [← sendPacket_cached (cached s) _ hsend rest (cached_arp s)]
  rcases hcache with hnone | hsome
  · simp [ipv4SendPacket, destAddr_packet, hsend.dest, hnone, arpSearch_eq]
  · rw [cached_of_some hsome]

variable {h payload} in
/-- The frame of a packet is given to the handler of IPv4. -/
theorem write_packet (hfits : ipv4Size + payload.length ≤ 65535) :
    loopbackWrite env (n + 1) (frame ipv4PacketType loopbackNic.mac (h.bytes ++ payload)) s =
      ((ipv4Handle env (loopbackWrite env n) loopbackNic
        (ofList (frame ipv4PacketType loopbackNic.mac (h.bytes ++ payload))
          (env.beyond (frame ipv4PacketType loopbackNic.mac (h.bytes ++ payload)))) ethernetSize
        (BitVec.ofNat 64 (ipv4Size + payload.length))).run s).map Prod.snd := by
  have hlength : (frame ipv4PacketType loopbackNic.mac (h.bytes ++ payload)).length =
      ethernetSize + (ipv4Size + payload.length) := by
    simp [bytes_length]
  have hnonzero : BitVec.ofNat 64 (ethernetSize + (ipv4Size + payload.length)) ≠ 0 := by
    intro hzero
    have hnat := congrArg BitVec.toNat hzero
    simp [ethernetSize] at hnat
    omega
  have hrest : BitVec.ofNat 64 (ethernetSize + (ipv4Size + payload.length)) -
      BitVec.ofNat 64 ethernetSize = BitVec.ofNat 64 (ipv4Size + payload.length) := by
    rw [BitVec.ofNat_add, BitVec.add_comm, BitVec.add_sub_cancel]
  have htypes : ipv4PacketType ≠ arpPacketType := by decide
  have haddressed (rest : ℕ → Byte) : Addressed loopbackNic
      (ofList (frame ipv4PacketType loopbackNic.mac (h.bytes ++ payload)) rest) := by
    simp [Addressed]
  simp only [loopbackWrite, ethernetHandle, hlength, hnonzero, haddressed, load16_frame,
    ntohs_htons, htypes, hrest, if_true, if_false]

/-- The bytes of the packet that the handler of IPv4 is given. -/
theorem loadBytes_packet (hfits : ipv4Size + payload.length ≤ 65535) (rest : ℕ → Byte) :
    loadBytes (ofList (frame ipv4PacketType loopbackNic.mac (h.bytes ++ payload)) rest)
      ethernetSize (BitVec.ofNat 64 (ipv4Size + payload.length)).toNat = h.bytes ++ payload := by
  have hlength : (BitVec.ofNat 64 (ipv4Size + payload.length)).toNat =
      (h.bytes ++ payload).length := by
    simp [bytes_length]
    omega
  rw [hlength, loadBytes_frame]

def called (c : Call) (s : Net) : Net := { s with calls := s.calls ++ [c] }

variable {h payload} in
theorem write_other (hfits : ipv4Size + payload.length ≤ 65535) {id : ℕ}
    (hprotocol : env.protocols h.protocol = some (.other id)) :
    loopbackWrite env (n + 1) (frame ipv4PacketType loopbackNic.mac (h.bytes ++ payload)) s =
      some (env.other id (h.bytes ++ payload)
        (called ⟨h.protocol, h.bytes ++ payload⟩ s)).2 := by
  rw [write_packet env n s hfits]
  simp only [ipv4Handle, protocol_frame, hprotocol, loadBytes_packet h payload hfits, called,
    Option.map_some]

variable {h payload} in
theorem write_icmp (hfits : ipv4Size + payload.length ≤ 65535)
    (hprotocol : env.protocols h.protocol = some .icmp) :
    loopbackWrite env (n + 1) (frame ipv4PacketType loopbackNic.mac (h.bytes ++ payload)) s =
      ((icmpHandle env (loopbackWrite env n) loopbackNic
        (ofList (frame ipv4PacketType loopbackNic.mac (h.bytes ++ payload))
          (env.beyond (frame ipv4PacketType loopbackNic.mac (h.bytes ++ payload)))) ethernetSize
        (h.bytes ++ payload)).run (called ⟨h.protocol, h.bytes ++ payload⟩ s)).map Prod.snd := by
  rw [write_packet env n s hfits]
  simp only [ipv4Handle, protocol_frame, hprotocol, loadBytes_packet h payload hfits, called]

theorem drop_packet : (h.bytes ++ payload).drop ipv4Size = payload := by
  rw [← bytes_length h, List.drop_left]

theorem take_packet (icmp : List Byte) (len : ℕ) :
    (h.bytes ++ icmp).take (ipv4Size + len) = h.bytes ++ icmp.take len := by
  rw [← bytes_length h, List.take_length_add_append]

/-- An echo reply as a packet: a header of its own, and as many bytes as were received. -/
theorem icmpResponse_split (mem : ℕ → Byte) (base len : ℕ)
    (hlength : (ntohs (load16 mem (base + 2))).toNat = ipv4Size + len) :
    ∃ (reply : Ipv4Header) (tail : List Byte), icmpResponse mem base = reply.bytes ++ tail ∧
      reply.length = load16 mem (base + 2) ∧ reply.protocol = protocolIcmp ∧
      reply.destAddr = load32 mem (base + 12) ∧ tail.length = len ∧
      ∀ b rest, tail = b :: rest → b = echoReply := by
  simp only [icmpResponse, hlength, take_packet]
  refine ⟨_, _, rfl, rfl, rfl, rfl, ?_, ?_⟩
  · simp [bytes16, ipv4Size]
    omega
  · intro b rest htail
    cases len with
    | zero => simp at htail
    | succ len =>
      simp only [List.cons_append, List.take_succ_cons, List.cons.injEq] at htail
      exact htail.1.symm

theorem icmpHandle_quiet (mem : ℕ → Byte) (packet : List Byte)
    (hquiet : ¬ (mem (ethernetSize + 20) = echoRequest ∧ mem (ethernetSize + 21) = 0)) :
    ∃ t, (∀ write, (icmpHandle env write loopbackNic mem ethernetSize packet).run s =
      some (0, t)) ∧ t.arp = s.arp ∧ t.calls = s.calls := by
  by_cases hreply : mem (ethernetSize + 20) = echoReply ∧ mem (ethernetSize + 21) = 0
  · refine ⟨{ s with pingPacket := some packet }, fun write => ?_, rfl, rfl⟩
    simp only [icmpHandle, if_neg hquiet, if_pos hreply]
  · refine ⟨s, fun write => ?_, rfl, rfl⟩
    simp only [icmpHandle, if_neg hquiet, if_neg hreply]

theorem write_quiet (hfits : ipv4Size + payload.length ≤ 65535)
    (hprotocol : env.protocols h.protocol = some .icmp) (mem : ℕ → Byte)
    (hmem : mem = ofList (frame ipv4PacketType loopbackNic.mac (h.bytes ++ payload))
      (env.beyond (frame ipv4PacketType loopbackNic.mac (h.bytes ++ payload))))
    (hquiet : ¬ (mem (ethernetSize + 20) = echoRequest ∧ mem (ethernetSize + 21) = 0)) :
    ∃ t, (∀ n, loopbackWrite env (n + 1)
      (frame ipv4PacketType loopbackNic.mac (h.bytes ++ payload)) s = some t) ∧
      t.arp = s.arp ∧ t.calls = s.calls ++ [⟨h.protocol, h.bytes ++ payload⟩] := by
  obtain ⟨t, hrun, harp, hcalls⟩ := icmpHandle_quiet env
    (called ⟨h.protocol, h.bytes ++ payload⟩ s) mem (h.bytes ++ payload) hquiet
  refine ⟨t, fun n => ?_, harp, hcalls⟩
  rw [write_icmp env n s hfits hprotocol, ← hmem, hrun]
  simp

variable {h payload} in
/-- A packet to the handler of ICMP: if it is answered, the answer is handled within the call. -/
theorem write_answered (henv : Registered env) (hsend : Sendable h payload)
    (hfits : ipv4Size + payload.length ≤ 65535) (hprotocol : env.protocols h.protocol = some .icmp)
    (hsrc : h.srcAddr = loopbackAddress) (hnonempty : payload ≠ [])
    (hcache : s.arp loopbackAddress = some loopbackNic.mac) :
    ∃ t more, (∀ n, loopbackWrite env (n + 2)
      (frame ipv4PacketType loopbackNic.mac (h.bytes ++ payload)) s = some t) ∧
      t.arp = s.arp ∧ t.calls = s.calls ++ ⟨h.protocol, h.bytes ++ payload⟩ :: more ∧
      ∀ c ∈ more, c.packet.drop ipv4Size ≠ payload := by
  obtain ⟨b, rest, rfl⟩ := List.exists_cons_of_ne_nil hnonempty
  obtain ⟨mem, hmem⟩ : ∃ mem, mem = ofList
      (frame ipv4PacketType loopbackNic.mac (h.bytes ++ b :: rest))
      (env.beyond (frame ipv4PacketType loopbackNic.mac (h.bytes ++ b :: rest))) := ⟨_, rfl⟩
  by_cases hrequest : mem (ethernetSize + 20) = echoRequest ∧ mem (ethernetSize + 21) = 0
  · have htype : b = echoRequest := by
      rw [← hrequest.1, hmem, payload_frame]
    obtain ⟨reply, tail, hreply, hlength, hicmp, hdest, htail, hfirst⟩ :=
      icmpResponse_split mem ethernetSize (b :: rest).length (by
        rw [hmem, length_frame]
        exact hsend.length)
    obtain ⟨b', rest', rfl⟩ : ∃ b' rest', tail = b' :: rest' :=
      List.exists_cons_of_length_eq_add_one htail
    have hecho : b' = echoReply := hfirst b' rest' rfl
    have hsendReply : Sendable reply (b' :: rest') := by
      refine ⟨?_, ?_⟩
      · rw [hlength, hmem, length_frame, hsend.length, htail]
      · rw [hdest, hmem, srcAddr_frame, hsrc]
    have hone : h.protocol = protocolIcmp := henv.icmp_only h.protocol hprotocol
    obtain ⟨t, hwrite, harp, hcalls⟩ := write_quiet env
      (called ⟨h.protocol, h.bytes ++ b :: rest⟩ s) reply (b' :: rest')
      (by omega) (by rw [hicmp, ← hone]; exact hprotocol) _ rfl (by
        rw [payload_frame, hecho]
        exact fun hboth => absurd hboth.1 (by decide))
    refine ⟨t, [⟨reply.protocol, reply.bytes ++ b' :: rest'⟩], fun n => ?_, harp, ?_, ?_⟩
    · have hanswer := sendPacket_cached (called ⟨h.protocol, h.bytes ++ b :: rest⟩ s)
        (loopbackWrite env (n + 1)) hsendReply (env.beyond (icmpResponse mem ethernetSize)) hcache
      rw [write_icmp env (n + 1) s hfits hprotocol, ← hmem]
      simp only [icmpHandle, if_pos hrequest, hreply] at hanswer ⊢
      simp [hanswer, hwrite]
    · rw [hcalls, called]
      simp
    · have hdiffer : echoReply ≠ echoRequest := by decide
      simp [drop_packet, hecho, htype, hdiffer]
  · obtain ⟨t, hwrite, harp, hcalls⟩ := 
      write_quiet env s h (b :: rest) hfits hprotocol mem hmem hrequest
    exact ⟨t, [], fun n => hwrite (n + 1), harp, by simpa using hcalls, by simp⟩

variable {h payload} in
/-- A packet of the device to itself delivers what is behind its header. -/
theorem delivers_packet (hsrc : h.srcAddr = loopbackAddress)
    (hdest : h.destAddr = loopbackAddress) :
    Delivers h.protocol payload ⟨h.protocol, h.bytes ++ payload⟩ :=
  ⟨rfl, drop_packet h payload, rfl, (srcAddr_packet _ h payload).trans hsrc,
    (destAddr_packet _ h payload).trans hdest⟩

end Packet

section Send

variable (env : Environment) (protocol : Byte) (payload : List Byte) (s : Net)

theorem ipv4Packet_split (hfits : ipv4Size + payload.length ≤ 65535) :
    ∃ h : Ipv4Header, ipv4Packet loopbackNic loopbackAddress protocol payload =
      h.bytes ++ payload ∧ h.protocol = protocol ∧ h.srcAddr = loopbackAddress ∧
      Sendable h payload := by
  refine ⟨_, rfl, rfl, rfl, ?_, rfl⟩
  simp only [ntohs_htons, BitVec.toNat_ofNat]
  omega

/-- A call that is the first of new ones is the only one that delivers its packet, if those behind
it have other payloads. -/
theorem count_delivers {c : Call} {more : List Call} (hc : Delivers protocol payload c)
    (hmore : ∀ c ∈ more, c.protocol = protocol → c.packet.drop ipv4Size ≠ payload) :
    (c :: more).countP (Delivers protocol payload) = 1 := by
  have hnone : more.countP (Delivers protocol payload) = 0 := by
    simp only [List.countP_eq_zero, decide_eq_true_eq]
    intro c hc hdelivers
    exact hmore c hc hdelivers.1 hdelivers.2.1
  rw [List.countP_cons_of_pos (by simpa using hc), hnone]

/-- Over the loopback device every packet reaches the handler of its protocol once, as it was
sent, and the address of the device is in the cache then. -/
theorem loopback_delivers (henv : Registered env) (hprotocol : env.protocols protocol ≠ none)
    (hnonempty : payload ≠ []) (hfits : ipv4Size + payload.length ≤ 65535)
    (hcache : s.arp loopbackAddress = none ∨ s.arp loopbackAddress = some loopbackNic.mac) :
    ∃ t new, (∀ n ≥ 2, ipv4Send env (loopbackWrite env n) loopbackNic loopbackAddress protocol
        payload s = some (0, t)) ∧
      t.calls = s.calls ++ new ∧ new.countP (Delivers protocol payload) = 1 ∧
      t.arp loopbackAddress = some loopbackNic.mac := by
  obtain ⟨h, hpacket, rfl, hsrc, hsend⟩ := ipv4Packet_split protocol payload hfits
  have hdelivers : Delivers h.protocol payload ⟨h.protocol, h.bytes ++ payload⟩ :=
    delivers_packet hsrc hsend.dest
  have hsent (n : ℕ) := sendPacket_eq env n s hsend (env.beyond (h.bytes ++ payload)) hcache
  cases hhandler : env.protocols h.protocol with
  | none => contradiction
  | some handler =>
    cases handler with
    | icmp =>
      obtain ⟨t, more, hwrite, harp, hcalls, hmore⟩ := write_answered env (cached s) henv hsend
        hfits hhandler hsrc hnonempty (cached_arp s)
      refine ⟨t, _, fun n hn => ?_, hcalls, ?_, ?_⟩
      · obtain ⟨n, rfl⟩ := Nat.exists_eq_add_of_le' hn
        simp only [ipv4Send, hnonempty, if_false, hpacket, hsent, hwrite, Option.map_some]
      · exact count_delivers _ _ hdelivers fun c hc _ => hmore c hc
      · rw [harp, cached_arp]
    | other id =>
      let before := called ⟨h.protocol, h.bytes ++ payload⟩ (cached s)
      obtain ⟨more, hcalls, hmore⟩ := henv.once id h.protocol (h.bytes ++ payload) before hhandler
      refine ⟨(env.other id (h.bytes ++ payload) before).2,
        ⟨h.protocol, h.bytes ++ payload⟩ :: more, fun n hn => ?_, ?_, ?_, ?_⟩
      · obtain ⟨n, rfl⟩ := Nat.exists_eq_add_of_le' hn
        simp only [ipv4Send, hnonempty, if_false, hpacket, hsent,
          write_other env (n + 1) (cached s) hfits hhandler, Option.map_some, before]
      · have hbefore : before.calls = s.calls ++ [⟨h.protocol, h.bytes ++ payload⟩] := rfl
        rw [hcalls, hbefore]
        simp
      · refine count_delivers _ _ hdelivers fun c hc hsame => ?_
        have hother := hmore c hc hsame
        rwa [drop_packet] at hother
      · exact henv.keeps _ _ _ (cached_arp s)

def listening : Environment :=
  ⟨fun protocol =>
    if protocol = protocolIcmp then some .icmp else if protocol = 17 then some (.other 0) else none,
    fun _ _ s => (0, s), fun _ _ => 0⟩

theorem listening_registered : Registered listening := by
  refine ⟨fun protocol hicmp => ?_, fun id packet s hcached => hcached,
    fun id protocol packet s _ => ⟨[], by simp [listening], by simp⟩⟩
  by_contra hother
  simp [listening, hother] at hicmp

/-- An echo request that the device sends to itself, with nothing in the cache. -/
theorem loopback_delivers_request :
    ∃ t new, (∀ n ≥ 2, ipv4Send listening (loopbackWrite listening n) loopbackNic loopbackAddress
        protocolIcmp [8, 0, 0, 0, 0, 1, 0, 1] ⟨fun _ => none, [], none⟩ = some (0, t)) ∧
      t.calls = [] ++ new ∧
      new.countP (Delivers protocolIcmp [8, 0, 0, 0, 0, 1, 0, 1]) = 1 ∧
      t.arp loopbackAddress = some loopbackNic.mac :=
  loopback_delivers listening protocolIcmp [8, 0, 0, 0, 0, 1, 0, 1] ⟨fun _ => none, [], none⟩
    listening_registered (by simp [listening]) (by simp) (by simp [ipv4Size]) (.inl rfl)

end Send

end ReduceOS.Loopback
