import ReduceOS.NetworkStack

/-!
Which received frames are handled within their bounds. The headers are read before anything is
compared with the size of the frame, and an echo request is answered with as many bytes as its
length field says.
-/
namespace ReduceOS.FrameBounds

open Inet NetworkStack

def Below (n : ℕ) (read : ℕ × ℕ) : Prop := ∀ k < read.2, read.1 + k < n

variable {n : ℕ}

theorem below_iff (offset count : ℕ) :
    Below n (offset, count) ↔ count = 0 ∨ offset + count ≤ n := by
  unfold Below
  constructor
  · intro h
    rcases Nat.eq_zero_or_pos count with hzero | hpos
    · exact .inl hzero
    · right
      have hlast := h (count - 1) (by simpa using hpos)
      simp only at hlast
      omega
  · intro h k hk
    simp only at hk ⊢
    omega

variable (env : Environment) (write : List Byte → Net → Option Net) (nic : Nic)

/-- Handling a frame of some size, with other memory behind it, keeps to the frame: only its
bytes are read, no length underflows, an echo reply has the received bytes behind its new headers,
and whatever stands behind the frame the replies are the same. -/
structure Confined (mem : ℕ → Byte) (size : BitVec 64) : Prop where
  reads : ∀ r ∈ (ethernetHandle env write nic mem size).trace.reads, Below size.toNat r
  lengths : ∀ l ∈ (ethernetHandle env write nic mem size).trace.lengths, l.2 ≤ l.1
  replies : ∀ reply ∈ (ethernetHandle env write nic mem size).trace.replies,
    ∀ i, 24 ≤ i → ∀ hi : i < reply.length,
      ethernetSize + i < size.toNat ∧ reply[i] = mem (ethernetSize + i)
  sealed : ∀ mem', (∀ o < size.toNat, mem' o = mem o) →
    (ethernetHandle env write nic mem' size).trace.replies =
      (ethernetHandle env write nic mem size).trace.replies

section Conditions

variable (mem : ℕ → Byte) (n : ℕ)

def FitsArp : Prop :=
  22 ≤ n ∧ (ntohs (load16 mem 16) = ipv4PacketType →
    32 ≤ n ∧ (ntohs (load16 mem 20) = arpOperationRequest → 42 ≤ n))

def FitsIcmp : Prop :=
  36 ≤ n ∧ (mem 34 = echoRequest ∧ mem 35 = 0 →
    42 ≤ n ∧ ipv4Size ≤ (ntohs (load16 mem 16)).toNat ∧
      ethernetSize + (ntohs (load16 mem 16)).toNat ≤ n)

def FitsIpv4 : Prop := 34 ≤ n ∧ (env.protocols (mem 23) = some .icmp → FitsIcmp mem n)

/-- The frame holds the Ethernet header, and if it is for the NIC what its type asks for. -/
def Fits : Prop :=
  ethernetSize ≤ n ∧ (Addressed nic mem →
    (ntohs (load16 mem 12) = arpPacketType → FitsArp mem n) ∧
      (ntohs (load16 mem 12) = ipv4PacketType → FitsIpv4 env mem n))

end Conditions

section Traces

def Clean (n : ℕ) (t : Trace) : Prop :=
  (∀ r ∈ t.reads, Below n r) ∧ ∀ l ∈ t.lengths, l.2 ≤ l.1

@[simp] theorem append_reads (t t' : Trace) : (t ++ t').reads = t.reads ++ t'.reads := rfl

@[simp] theorem append_lengths (t t' : Trace) : (t ++ t').lengths = t.lengths ++ t'.lengths := rfl

@[simp] theorem append_replies (t t' : Trace) : (t ++ t').replies = t.replies ++ t'.replies := rfl

@[simp] theorem fields_replies (base : ℕ) (fields : List (ℕ × ℕ)) :
    (Trace.fields base fields).replies = [] := rfl

@[simp] theorem clean_append (t t' : Trace) : Clean n (t ++ t') ↔ Clean n t ∧ Clean n t' := by
  simp only [Clean, append_reads, append_lengths, List.forall_mem_append]
  tauto

@[simp] theorem clean_fields (base : ℕ) (fields : List (ℕ × ℕ)) :
    Clean n (Trace.fields base fields) ↔ ∀ f ∈ fields, f.2 = 0 ∨ base + f.1 + f.2 ≤ n := by
  simp only [Clean, Trace.fields, List.forall_mem_map, below_iff]
  simp

@[simp] theorem clean_lengths (l : ℕ × ℕ) (replies : List (List Byte)) :
    Clean n ⟨[], [l], replies⟩ ↔ l.2 ≤ l.1 := by
  simp [Clean]

end Traces

section Arp

variable (mem : ℕ → Byte)

theorem arp_clean_iff :
    Clean n (arpHandlePacket write nic mem ethernetSize).trace ↔ FitsArp mem n := by
  by_cases htype : ntohs (load16 mem 16) = ipv4PacketType
  · by_cases hoper : ntohs (load16 mem 20) = arpOperationRequest
    · simp [arpHandlePacket, FitsArp, ethernetSize, htype, hoper]
      omega
    · simp [arpHandlePacket, FitsArp, ethernetSize, htype, hoper]
      omega
  · simp [arpHandlePacket, FitsArp, ethernetSize, htype]
    omega

theorem arp_replies :
    (arpHandlePacket write nic mem ethernetSize).trace.replies = [] := by
  unfold arpHandlePacket
  dsimp only
  split_ifs <;> simp

end Arp

section Icmp

variable (mem : ℕ → Byte) (packet : List Byte)

theorem reply_ne_request : echoReply ≠ echoRequest := by decide

theorem icmp_clean_iff :
    Clean n (icmpHandle env write nic mem ethernetSize packet).trace ↔ FitsIcmp mem n := by
  by_cases hrequest : mem 34 = echoRequest ∧ mem 35 = 0#8
  · simp [icmpHandle, FitsIcmp, ethernetSize, ipv4Size, hrequest]
    omega
  · by_cases hreply : mem 34 = echoReply ∧ mem 35 = 0#8
    · simp [icmpHandle, FitsIcmp, ethernetSize, hreply, reply_ne_request]
      omega
    · simp [icmpHandle, FitsIcmp, ethernetSize, hrequest, hreply]
      omega

theorem icmp_replies :
    (icmpHandle env write nic mem ethernetSize packet).trace.replies =
      if mem 34 = echoRequest ∧ mem 35 = 0 then [icmpResponse mem ethernetSize] else [] := by
  by_cases hrequest : mem 34 = echoRequest ∧ mem 35 = 0#8
  · simp [icmpHandle, ethernetSize, hrequest]
  · by_cases hreply : mem 34 = echoReply ∧ mem 35 = 0#8
    · simp [icmpHandle, ethernetSize, hreply, reply_ne_request]
    · simp [icmpHandle, ethernetSize, hrequest, hreply]

theorem ipv4Header_length (h : Ipv4Header) : h.bytes.length = ipv4Size := rfl

/-- Behind the new headers an answer has the received bytes. -/
theorem getElem_icmpResponse (base i : ℕ) (hi : i < (icmpResponse mem base).length)
    (hheader : 24 ≤ i) :
    i < (ntohs (load16 mem (base + 2))).toNat ∧ (icmpResponse mem base)[i] = mem (base + i) := by
  have hlt : i < (ntohs (load16 mem (base + 2))).toNat := by
    simp only [icmpResponse, List.length_take] at hi
    omega
  refine ⟨hlt, ?_⟩
  obtain ⟨j, rfl⟩ := Nat.exists_eq_add_of_le hheader
  have hrest : j < (ntohs (load16 mem (base + 2))).toNat - 24 := by omega
  simp only [icmpResponse, List.getElem_take]
  rw [List.getElem_append_right (by simp [ipv4Header_length, ipv4Size]; omega)]
  have hindex : 24 + j - 20 = j + 4 := by omega
  simp [ipv4Header_length, ipv4Size, bytes16, hindex, Nat.add_assoc]

/-- An answer is made of the bytes of the packet that it answers. -/
theorem icmpResponse_congr {mem mem' : ℕ → Byte} {base : ℕ} (hsame : ∀ o < n, mem' o = mem o)
    (hfixed : base + 20 ≤ n) (hlength : base + (ntohs (load16 mem (base + 2))).toNat ≤ n) :
    icmpResponse mem' base = icmpResponse mem base := by
  have hmem : ∀ k < 20, mem' (base + k) = mem (base + k) := fun k hk => hsame _ (by omega)
  have hword : load16 mem' (base + 2) = load16 mem (base + 2) := by
    simp only [load16, Nat.add_assoc]
    simp [hmem]
  have hid : load16 mem' (base + 4) = load16 mem (base + 4) := by
    simp only [load16, Nat.add_assoc]
    simp [hmem]
  have hsrc : load32 mem' (base + 12) = load32 mem (base + 12) := by
    simp only [load32, Nat.add_assoc]
    simp [hmem]
  have hdest : load32 mem' (base + 16) = load32 mem (base + 16) := by
    simp only [load32, Nat.add_assoc]
    simp [hmem]
  have hrest : loadBytes mem' (base + 24) ((ntohs (load16 mem (base + 2))).toNat - 24) =
      loadBytes mem (base + 24) ((ntohs (load16 mem (base + 2))).toNat - 24) :=
    loadBytes_congr fun k hk => hsame _ (by omega)
  simp only [icmpResponse, hword, hid, hsrc, hdest, hrest, hmem 1 (by omega)]

end Icmp

section Frame

variable (mem : ℕ → Byte) (size : BitVec 64)

theorem ipv4_clean_iff :
    Clean n (ipv4Handle env write nic mem ethernetSize size).trace ↔ FitsIpv4 env mem n := by
  have hprotocol : env.protocols (mem (ethernetSize + 9)) = env.protocols (mem 23) := rfl
  unfold ipv4Handle FitsIpv4
  simp only [hprotocol]
  cases env.protocols (mem 23) with
  | none =>
    simp [ethernetSize]
    omega
  | some protocol =>
    cases protocol with
    | icmp =>
      simp only [clean_append, icmp_clean_iff, clean_fields]
      simp [ethernetSize]
      omega
    | other id =>
      simp [ethernetSize]
      omega

def headerTrace : Trace := Trace.fields 0 [(12, 2), (0, 6), (6, 6)]

def packetTrace (size : BitVec 64) : Trace := ⟨[], [(size.toNat, ethernetSize)], []⟩

variable {mem size} in
theorem trace_of_arp (hsize : size ≠ 0) (haddressed : Addressed nic mem)
    (htype : ntohs (load16 mem 12) = arpPacketType) :
    (ethernetHandle env write nic mem size).trace =
      headerTrace ++ packetTrace size ++ (arpHandlePacket write nic mem ethernetSize).trace := by
  simp only [ethernetHandle, hsize, haddressed, htype, if_true, if_false, headerTrace, packetTrace]

variable {mem size} in
theorem trace_of_ipv4 (hsize : size ≠ 0) (haddressed : Addressed nic mem)
    (htype : ntohs (load16 mem 12) = ipv4PacketType) :
    (ethernetHandle env write nic mem size).trace =
      headerTrace ++ packetTrace size ++
        (ipv4Handle env write nic mem ethernetSize
          (size - BitVec.ofNat 64 ethernetSize)).trace := by
  have harp : ipv4PacketType ≠ arpPacketType := by decide
  simp only [ethernetHandle, hsize, haddressed, htype, harp, if_true, if_false, headerTrace,
    packetTrace]

variable {mem size} in
theorem trace_of_ignored (h : size = 0 ∨ ¬ Addressed nic mem ∨
      ntohs (load16 mem 12) ≠ arpPacketType ∧ ntohs (load16 mem 12) ≠ ipv4PacketType) :
    (ethernetHandle env write nic mem size).trace = headerTrace := by
  unfold ethernetHandle headerTrace
  dsimp only
  split_ifs with hzero haddressed harp hipv4
  · simp
  · simp_all
  · simp_all
  · simp
  · simp

@[simp] theorem clean_headerTrace : Clean n headerTrace ↔ ethernetSize ≤ n := by
  simp [headerTrace, ethernetSize]
  omega

@[simp] theorem clean_packetTrace :
    Clean n (packetTrace size) ↔ ethernetSize ≤ size.toNat := by
  simp [packetTrace]

theorem clean_iff_fits :
    Clean size.toNat (ethernetHandle env write nic mem size).trace ↔
      Fits env nic mem size.toNat := by
  have htypes : arpPacketType ≠ ipv4PacketType := by decide
  by_cases hzero : size = 0
  · rw [trace_of_ignored env write nic (.inl hzero), hzero]
    simp [Fits, ethernetSize]
  · by_cases haddressed : Addressed nic mem
    · by_cases harp : ntohs (load16 mem 12) = arpPacketType
      · rw [trace_of_arp env write nic hzero haddressed harp]
        simp [Fits, haddressed, harp, htypes, arp_clean_iff]
      · by_cases hipv4 : ntohs (load16 mem 12) = ipv4PacketType
        · rw [trace_of_ipv4 env write nic hzero haddressed hipv4]
          simp [Fits, haddressed, hipv4, htypes.symm, ipv4_clean_iff]
        · rw [trace_of_ignored env write nic (.inr (.inr ⟨harp, hipv4⟩))]
          simp [Fits, harp, hipv4]
    · rw [trace_of_ignored env write nic (.inr (.inl haddressed))]
      simp [Fits, haddressed]

def Asks : Prop :=
  Addressed nic mem ∧ ntohs (load16 mem 12) = ipv4PacketType ∧
    env.protocols (mem 23) = some .icmp ∧ mem 34 = echoRequest ∧ mem 35 = 0

instance : Decidable (Asks env nic mem) := inferInstanceAs (Decidable (_ ∧ _))

theorem ipv4_replies :
    (ipv4Handle env write nic mem ethernetSize size).trace.replies =
      if env.protocols (mem 23) = some .icmp ∧ mem 34 = echoRequest ∧ mem 35 = 0 then
        [icmpResponse mem ethernetSize] else [] := by
  have hprotocol : env.protocols (mem (ethernetSize + 9)) = env.protocols (mem 23) := rfl
  unfold ipv4Handle
  simp only [hprotocol]
  cases env.protocols (mem 23) with
  | none => simp
  | some protocol =>
    cases protocol with
    | icmp => simp [icmp_replies]
    | other id => simp

theorem replies_eq :
    (ethernetHandle env write nic mem size).trace.replies =
      if size ≠ 0 ∧ Asks env nic mem then [icmpResponse mem ethernetSize] else [] := by
  have htypes : arpPacketType ≠ ipv4PacketType := by decide
  have hheader : headerTrace.replies = [] := rfl
  have hpacket : (packetTrace size).replies = [] := rfl
  by_cases hzero : size = 0
  · rw [trace_of_ignored env write nic (.inl hzero)]
    simp [hzero, hheader]
  · by_cases haddressed : Addressed nic mem
    · by_cases harp : ntohs (load16 mem 12) = arpPacketType
      · rw [trace_of_arp env write nic hzero haddressed harp]
        simp [Asks, harp, htypes, hheader, hpacket, arp_replies]
      · by_cases hipv4 : ntohs (load16 mem 12) = ipv4PacketType
        · rw [trace_of_ipv4 env write nic hzero haddressed hipv4]
          simp only [append_replies, hheader, hpacket, ipv4_replies, List.nil_append]
          simp only [Asks, haddressed, hipv4, ne_eq, hzero, not_false_iff, true_and]
        · rw [trace_of_ignored env write nic (.inr (.inr ⟨harp, hipv4⟩))]
          simp [Asks, hipv4, hheader]
    · rw [trace_of_ignored env write nic (.inr (.inl haddressed))]
      simp [Asks, haddressed, hheader]

variable {mem} in
theorem asks_congr {mem' : ℕ → Byte} (hfits : Fits env nic mem n)
    (hsame : ∀ o < n, mem' o = mem o) : Asks env nic mem' ↔ Asks env nic mem := by
  obtain ⟨hsize, hpacket⟩ := hfits
  unfold ethernetSize at hsize
  have hmac : loadMac mem' 0 = loadMac mem 0 := by
    funext i
    exact hsame _ (by omega)
  have haddressed : Addressed nic mem' ↔ Addressed nic mem := by
    simp only [Addressed, hmac]
  have htype : load16 mem' 12 = load16 mem 12 := by
    simp only [load16, hsame 12 (by omega), hsame 13 (by omega), Nat.reduceAdd]
  simp only [Asks, haddressed, htype]
  refine and_congr_right fun haddr => and_congr_right fun hipv4 => ?_
  obtain ⟨hheader, hicmp⟩ := (hpacket haddr).2 hipv4
  rw [hsame 23 (by omega)]
  refine and_congr_right fun hprotocol => ?_
  have hfields := (hicmp hprotocol).1
  rw [hsame 34 (by omega), hsame 35 (by omega)]

variable {mem} in
/-- A frame that holds what is read of it and asks for a reply holds all that is copied. -/
theorem fits_of_asks (hfits : Fits env nic mem n) (hasks : Asks env nic mem) :
    ethernetSize + ipv4Size ≤ n ∧ ethernetSize + (ntohs (load16 mem 16)).toNat ≤ n := by
  obtain ⟨haddressed, hipv4, hprotocol, hrequest⟩ := hasks
  obtain ⟨hheader, hicmp⟩ := (hfits.2 haddressed).2 hipv4
  exact ⟨hheader, ((hicmp hprotocol).2 hrequest).2.2⟩

/-- A frame is handled within its bounds if and only if it holds what is read of it. -/
theorem confined_iff_fits :
    Confined env write nic mem size ↔ Fits env nic mem size.toNat := by
  constructor
  · intro h
    exact (clean_iff_fits env write nic mem size).mp ⟨h.reads, h.lengths⟩
  · intro hfits
    have hclean := (clean_iff_fits env write nic mem size).mpr hfits
    refine ⟨hclean.1, hclean.2, ?_, ?_⟩
    · intro reply hreply i hheader hi
      rw [replies_eq] at hreply
      split_ifs at hreply with hasks
      · simp only [List.mem_singleton] at hreply
        subst hreply
        obtain ⟨hbelow, hbyte⟩ := getElem_icmpResponse mem ethernetSize i hi hheader
        have hlt : i < (ntohs (load16 mem 16)).toNat := hbelow
        have hlength := (fits_of_asks env nic hfits hasks.2).2
        exact ⟨by omega, hbyte⟩
      · simp at hreply
    · intro mem' hsame
      simp only [replies_eq, asks_congr env nic hfits hsame]
      split_ifs with hasks
      · obtain ⟨hfixed, hlength⟩ := fits_of_asks env nic hfits hasks.2
        rw [icmpResponse_congr hsame hfixed hlength]
      · simp

/-- An echo request to all in a frame of 42 bytes, with the length field of its IPv4 header at
100. -/
def longRequest : List Byte :=
  broadcastMac.bytes ++ [2, 0, 0, 0, 0, 1] ++ [0x08, 0x00] ++
    [0x45, 0, 0, 100, 0, 0, 0x40, 0, 64, 1, 0, 0, 10, 0, 2, 2, 10, 0, 2, 15] ++
    [8, 0, 0, 0, 0, 1, 0, 1]

def pinged : Environment :=
  ⟨fun protocol => if protocol = protocolIcmp then some .icmp else none,
    fun _ _ s => (0, s), fun _ _ => 0x5E⟩

/-- The reply to the long request has what stands in memory behind it. -/
theorem long_request_discloses :
    longRequest.length = 42 ∧
      ¬ Confined pinged (fun _ s => some s) loopbackNic
        (ofList longRequest (pinged.beyond longRequest)) 42 := by
  refine ⟨by decide, fun h => ?_⟩
  have hasks : Asks pinged loopbackNic (ofList longRequest (pinged.beyond longRequest)) := by
    decide
  have hreplied := h.replies (icmpResponse (ofList longRequest (pinged.beyond longRequest))
    ethernetSize) (by rw [replies_eq]; simp [hasks])
  have hlength : 28 < (icmpResponse (ofList longRequest (pinged.beyond longRequest))
      ethernetSize).length := by
    decide +kernel
  have hbeyond := (hreplied 28 (by omega) hlength).1
  simp [ethernetSize] at hbeyond

end Frame

end ReduceOS.FrameBounds
