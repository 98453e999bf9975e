import ReduceOS.Machine
import ReduceOS.Inet
import Mathlib.Data.Fintype.Basic
import Mathlib.Logic.Function.Basic

/-!
The network stack: Ethernet, ARP, IPv4 and ICMP, and the loopback device. Handling a frame is
told apart into what is read of the frame and what is computed from its size, which depend on
the frame alone, and what it does to the ARP cache and the handlers.
-/
namespace ReduceOS.NetworkStack

open Machine Inet

abbrev Mac := Fin 6 → Byte

def Mac.bytes (mac : Mac) : List Byte := List.ofFn mac

def loadMac (mem : ℕ → Byte) (offset : ℕ) : Mac := fun i => mem (offset + i)

structure Nic where
  mac : Mac
  ipv4Address : BitVec 32

/-- A call of the handler of a protocol, with the bytes of its packet. -/
structure Call where
  protocol : Byte
  packet : List Byte
  deriving DecidableEq

/-- The MAC addresses in `arp_map`, the calls of protocol handlers so far, and `ping_packet`. -/
structure Net where
  arp : BitVec 32 → Option Mac
  calls : List Call
  pingPacket : Option (List Byte)

/-- What is read of a frame (offset and number of bytes), the lengths that are computed as
differences, and the echo replies that are sent. -/
structure Trace where
  reads : List (ℕ × ℕ)
  lengths : List (ℕ × ℕ)
  replies : List (List Byte)

def Trace.fields (base : ℕ) (fields : List (ℕ × ℕ)) : Trace :=
  ⟨fields.map fun f => (base + f.1, f.2), [], []⟩

instance : Append Trace :=
  ⟨fun t t' => ⟨t.reads ++ t'.reads, t.lengths ++ t'.lengths, t.replies ++ t'.replies⟩⟩

/-- What comes of handling a packet: `none` where a function does not return. -/
structure Handled where
  trace : Trace
  run : Net → Option (CInt × Net)

inductive Protocol
  | icmp
  | other (id : ℕ)
  deriving DecidableEq

/-- `ipv4_handler_hashmap`, what the handlers from elsewhere do with a packet, and what stands in
memory behind the bytes of a packet. -/
structure Environment where
  protocols : Byte → Option Protocol
  other : ℕ → List Byte → Net → CInt × Net
  beyond : List Byte → ℕ → Byte

section Source

def arpPacketType : BitVec 16 := 0x0806

def ipv4PacketType : BitVec 16 := 0x0800

def arpHtypeEthernet : BitVec 16 := 1

def arpOperationRequest : BitVec 16 := 1

def arpOperationReply : BitVec 16 := 2

def protocolIcmp : Byte := 1

def defaultTtl : Byte := 64

def echoReply : Byte := 0

def echoRequest : Byte := 8

def broadcastMac : Mac := fun _ => 0xFF

def ethernetSize : ℕ := 14

def ipv4Size : ℕ := 20

/-- The fields of an `arp_packet_t` that differ from packet to packet. -/
structure ArpPacket where
  oper : BitVec 16
  sha : Mac
  spa : BitVec 32
  tha : Mac
  tpa : BitVec 32

def ArpPacket.bytes (p : ArpPacket) : List Byte :=
  bytes16 (htons arpHtypeEthernet) ++ bytes16 (htons ipv4PacketType) ++ [6, 4] ++
    bytes16 (htons p.oper) ++ p.sha.bytes ++ bytes32 p.spa ++ p.tha.bytes ++ bytes32 p.tpa

/-- The header of an `ipv4_packet_t`, with its words as they are in memory. `dscp` and `ecn` are
the six low and the two high bits of one byte. -/
structure Ipv4Header where
  versionihl : Byte
  dscpEcn : Byte
  length : BitVec 16
  id : BitVec 16
  offset : BitVec 16
  ttl : Byte
  protocol : Byte
  checksum : BitVec 16
  srcAddr : BitVec 32
  destAddr : BitVec 32

def Ipv4Header.bytes (h : Ipv4Header) : List Byte :=
  [h.versionihl, h.dscpEcn] ++ bytes16 h.length ++ bytes16 h.id ++ bytes16 h.offset ++
    [h.ttl, h.protocol] ++ bytes16 h.checksum ++ bytes32 h.srcAddr ++ bytes32 h.destAddr

def ipv4Checksum (packet : ℕ → Byte) : BitVec 16 :=
  let sum := (List.range 10).foldl (fun (sum : BitVec 32) i =>
    let sum := sum + (ntohs (load16 packet (2 * i))).setWidth 32
    if sum > 0xFFFF then (sum >>> 16) + (sum &&& 0xFFFF) else sum) 0
  ((~~~ (sum &&& 0xFFFF)) &&& 0xFFFF).setWidth 16

def icmpChecksum (payload : ℕ → Byte) (len : BitVec 64) : BitVec 16 :=
  let checksum := (List.range (len.toNat / 2)).foldl (fun (checksum : BitVec 32) i =>
    checksum + (ntohs (load16 payload (2 * i))).setWidth 32) 0
  let checksum :=
    if checksum > 0xFFFF then (checksum >>> 16) + (checksum &&& 0xFFFF) else checksum
  ((~~~ (checksum &&& 0xFFFF)) &&& 0xFFFF).setWidth 16

variable (env : Environment) (write : List Byte → Net → Option Net) (nic : Nic)

/-- `ethernet_send`, which gives the frame to the `write` of the NIC. -/
def ethernetSend (payload : List Byte) (type : BitVec 16) (destMac : Mac) : Net → Option Net :=
  write (destMac.bytes ++ nic.mac.bytes ++ bytes16 (htons type) ++ payload)

def arpAddEntry (s : Net) (address : BitVec 32) (mac : Mac) : Net :=
  { s with arp := Function.update s.arp address (some mac) }

def arpRequest (address : BitVec 32) (s : Net) : Option (CInt × Net) := do
  let packet : ArpPacket := ⟨arpOperationRequest, nic.mac, nic.ipv4Address, fun _ => 0, address⟩
  let s ← ethernetSend write nic packet.bytes arpPacketType broadcastMac s
  some (0, s)

/-- The loop of `arp_search`, in which nothing but time goes by. -/
def waitForEntry (s : Net) (address : BitVec 32) : ℕ → CInt
  | 0 => 1
  | n + 1 => if (s.arp address).isSome then 0 else waitForEntry s address n

def arpSearch (address : BitVec 32) (s : Net) : Option (CInt × Net) := do
  let (r, s) ← arpRequest write nic address s
  if r ≠ 0 then some (1, s)
  else if (s.arp address).isNone then some (waitForEntry s address 39, s)
  else some (0, s)

def arpReply (sha : Mac) (spa : BitVec 32) (s : Net) : Option Net :=
  let resp : ArpPacket := ⟨arpOperationReply, nic.mac, nic.ipv4Address, sha, spa⟩
  ethernetSend write nic resp.bytes arpPacketType sha s

def arpHandlePacket (mem : ℕ → Byte) (base : ℕ) : Handled :=
  let logged := Trace.fields base [(0, 2), (2, 2), (6, 2), (4, 1), (5, 1)]
  let sha := loadMac mem (base + 8)
  let spa := load32 mem (base + 14)
  let tpa := load32 mem (base + 24)
  if ntohs (load16 mem (base + 2)) = ipv4PacketType then
    if ntohs (load16 mem (base + 6)) = arpOperationRequest then
      { trace := logged ++ Trace.fields base [(14, 4), (8, 6), (24, 4)]
        run := fun s =>
          let s := arpAddEntry s spa sha
          if nic.ipv4Address ≠ 0 ∧ tpa = nic.ipv4Address then do
            let s ← arpReply write nic sha spa s
            some (0, s)
          else some (0, s) }
    else
      { trace := logged ++ Trace.fields base [(14, 4), (8, 6)]
        run := fun s => some (0, arpAddEntry s spa sha) }
  else { trace := logged, run := fun s => some (0, s) }

def ipv4SendPacket (packet : ℕ → Byte) (s : Net) : Option (CInt × Net) := do
  let dest := load32 packet 16
  let (r, s) ← if (s.arp dest).isNone then arpSearch write nic dest s else some (0, s)
  if r ≠ 0 then some (1, s)
  else
    match s.arp dest with
    | none => some (1, s)
    | some mac =>
      let length := (ntohs (load16 packet 2)).toNat
      let s ← ethernetSend write nic (loadBytes packet 0 length) ipv4PacketType mac s
      some (0, s)

def ipv4Packet (dest : BitVec 32) (protocol : Byte) (frame : List Byte) : List Byte :=
  let header : Ipv4Header :=
    { versionihl := 0x45
      dscpEcn := 0
      length := htons (BitVec.ofNat 16 (ipv4Size + frame.length))
      id := htons 0
      offset := if protocol = protocolIcmp then htons 0x4000 else htons 0
      ttl := defaultTtl
      protocol := protocol
      checksum := 0
      srcAddr := nic.ipv4Address
      destAddr := dest }
  let checksum := htons (ipv4Checksum (ofList header.bytes fun _ => 0))
  { header with checksum := checksum }.bytes ++ frame

def ipv4Send (dest : BitVec 32) (protocol : Byte) (frame : List Byte) (s : Net) :
    Option (CInt × Net) :=
  if frame = [] then some (0, s)
  else
    let packet := ipv4Packet nic dest protocol frame
    ipv4SendPacket write nic (ofList packet (env.beyond packet)) s

/-- The answer of `icmp_handle` to the packet at `base`: the received bytes with new fields. -/
def icmpResponse (mem : ℕ → Byte) (base : ℕ) : List Byte :=
  let length := load16 mem (base + 2)
  let header : Ipv4Header :=
    { versionihl := 0x45
      dscpEcn := mem (base + 1) &&& 0xC0
      length := length
      id := load16 mem (base + 4)
      offset := htons 0x4000
      ttl := 64
      protocol := 1
      checksum := 0
      srcAddr := load32 mem (base + 16)
      destAddr := load32 mem (base + 12) }
  let checksum := htons (ipv4Checksum (ofList header.bytes fun _ => 0))
  let rest := loadBytes mem (base + 24) ((ntohs length).toNat - 24)
  let icmp (checksum : BitVec 16) := [echoReply, 0] ++ bytes16 checksum ++ rest
  let icmpLength := (ntohs length).setWidth 64 - BitVec.ofNat 64 ipv4Size
  ({ header with checksum := checksum }.bytes ++
    icmp (htons (icmpChecksum (ofList (icmp 0) fun _ => 0) icmpLength))).take (ntohs length).toNat

def icmpHandle (mem : ℕ → Byte) (base : ℕ) (packet : List Byte) : Handled :=
  let logged := Trace.fields base [(20, 1), (21, 1)]
  if mem (base + 20) = echoRequest ∧ mem (base + 21) = 0 then
    let length := (ntohs (load16 mem (base + 2))).toNat
    let resp := icmpResponse mem base
    { trace := logged ++ Trace.fields base [(12, 4), (24, 4), (8, 1), (2, 2), (0, length), (16, 4),
          (4, 2)] ++ ⟨[], [(length, ipv4Size)], [resp]⟩
      run := fun s => do
        let (_, s) ← ipv4SendPacket write nic (ofList resp (env.beyond resp)) s
        some (0, s) }
  else if mem (base + 20) = echoReply ∧ mem (base + 21) = 0 then
    { trace := logged, run := fun s => some (0, { s with pingPacket := some packet }) }
  else { trace := logged, run := fun s => some (0, s) }

def ipv4Handle (mem : ℕ → Byte) (base : ℕ) (size : BitVec 64) : Handled :=
  let logged := Trace.fields base [(16, 4), (12, 4), (9, 1), (8, 1), (2, 2)]
  let protocol := mem (base + 9)
  let packet := loadBytes mem base size.toNat
  let called (s : Net) : Net := { s with calls := s.calls ++ [⟨protocol, packet⟩] }
  match env.protocols protocol with
  | none => { trace := logged, run := fun s => some (0, s) }
  | some .icmp =>
    let handled := icmpHandle env write nic mem base packet
    { trace := logged ++ handled.trace, run := fun s => handled.run (called s) }
  | some (.other id) => { trace := logged, run := fun s => some (env.other id packet (called s)) }

def Addressed (mem : ℕ → Byte) : Prop :=
  loadMac mem 0 = nic.mac ∨ loadMac mem 0 = broadcastMac

instance (mem : ℕ → Byte) : Decidable (Addressed nic mem) := inferInstanceAs (Decidable (_ ∨ _))

def ethernetHandle (mem : ℕ → Byte) (size : BitVec 64) : Handled :=
  let logged := Trace.fields 0 [(12, 2), (0, 6), (6, 6)]
  let nothing : Handled := { trace := logged, run := fun s => some (0, s) }
  if size = 0 then nothing
  else if Addressed nic mem then
    let ethertype := ntohs (load16 mem 12)
    let rest := size - BitVec.ofNat 64 ethernetSize
    let computed : Trace := ⟨[], [(size.toNat, ethernetSize)], []⟩
    if ethertype = arpPacketType then
      let handled := arpHandlePacket write nic mem ethernetSize
      { trace := logged ++ computed ++ handled.trace, run := handled.run }
    else if ethertype = ipv4PacketType then
      let handled := ipv4Handle env write nic mem ethernetSize rest
      { trace := logged ++ computed ++ handled.trace, run := handled.run }
    else nothing
  else nothing

def loopbackAddress : BitVec 32 := htonl 0x7F000001

def loopbackNic : Nic := ⟨fun _ => 0, loopbackAddress⟩

/-- `loopback_write`, with at most `n` frames one inside the other. -/
def loopbackWrite : ℕ → List Byte → Net → Option Net
  | 0, _, _ => none
  | n + 1, buffer, s =>
    ((ethernetHandle env (loopbackWrite n) loopbackNic (ofList buffer (env.beyond buffer))
      (BitVec.ofNat 64 buffer.length)).run s).map Prod.snd

end Source

end ReduceOS.NetworkStack
