import ReduceOS.Halting
import ReduceOS.UsbTransfer

/-!
How the kernel reads the configuration of a USB device. It asks for the configuration descriptor
to learn the length of everything, asks again for that many bytes, and goes through the
descriptors in them. The lengths that it goes by are the device's.
-/
namespace ReduceOS.UsbConfiguration

open Machine Halting UsbTransfer

abbrev Bytes := ℕ → BitVec 8

def word (m : Bytes) (offset : ℕ) : ℕ := (m offset).toNat + 256 * (m (offset + 1)).toNat

structure ConfigurationDescriptor where
  bLength : BitVec 8
  bDescriptorType : BitVec 8
  wTotalLength : ℕ
  bNumInterfaces : BitVec 8
  bConfigurationValue : BitVec 8
  iConfiguration : BitVec 8
  bmAttributes : BitVec 8
  bMaxPower : BitVec 8
deriving DecidableEq

structure InterfaceDescriptor where
  bLength : BitVec 8
  bDescriptorType : BitVec 8
  bInterfaceNumber : BitVec 8
  bAlternateSetting : BitVec 8
  bNumEndpoints : BitVec 8
  bInterfaceClass : BitVec 8
  bInterfaceSubClass : BitVec 8
  bInterfaceProtocol : BitVec 8
  iInterface : BitVec 8
deriving DecidableEq

structure EndpointDescriptor where
  bLength : BitVec 8
  bDescriptorType : BitVec 8
  bEndpointAddress : BitVec 8
  bmAttributes : BitVec 8
  wMaxPacketSize : ℕ
  bInterval : BitVec 8
deriving DecidableEq

def descIntf : BitVec 8 := 0x04

def descEndp : BitVec 8 := 0x05

def sizeofConfiguration : ℕ := 10

def sizeofInterface : ℕ := 9

def sizeofEndpoint : ℕ := 8

def readConfiguration (m : Bytes) : ConfigurationDescriptor :=
  ⟨m 0, m 1, word m 2, m 4, m 5, m 6, m 7, m 8⟩

def readInterface (m : Bytes) (b : ℕ) : InterfaceDescriptor :=
  ⟨m b, m (b + 1), m (b + 2), m (b + 3), m (b + 4), m (b + 5), m (b + 6), m (b + 7), m (b + 8)⟩

def readEndpoint (m : Bytes) (b : ℕ) : EndpointDescriptor :=
  ⟨m b, m (b + 1), m (b + 2), m (b + 3), word m (b + 4), m (b + 6)⟩

/-- `USBInterface_t`, with its endpoint list. -/
structure Interface where
  desc : InterfaceDescriptor
  endpoints : List EndpointDescriptor
deriving DecidableEq

/-- `USBConfiguration_t`, with its interface list. -/
structure Configuration where
  index : CInt
  desc : ConfigurationDescriptor
  interfaces : List Interface
deriving DecidableEq

abbrev Read := ℕ × ℕ

structure EndpointLoop where
  buffer : ℕ
  endpoints : List EndpointDescriptor
  reads : List Read

def endpointLoop (m : Bytes) : ℕ → EndpointLoop → EndpointLoop
  | 0, s => s
  | n + 1, s =>
    endpointLoop m n
      { buffer := s.buffer + (readEndpoint m s.buffer).bLength.toNat
        endpoints := s.endpoints ++ [readEndpoint m s.buffer]
        reads := s.reads ++ [(s.buffer, sizeofEndpoint)] }

/-- Where the loop over the descriptors is, as an offset from `config_full`. -/
structure Loop where
  buffer : ℕ
  interfaces : List Interface
  reads : List Read
  /-- The `break` at a descriptor of another type. -/
  broken : Bool

def turn (m : Bytes) (s : Loop) : Loop :=
  let reads := s.reads ++ [(s.buffer + 1, 1)]
  if m (s.buffer + 1) = descIntf then
    let desc := readInterface m s.buffer
    let inner := endpointLoop m (desc.bNumEndpoints.toNat + 1)
      ⟨s.buffer + desc.bLength.toNat, [], reads ++ [(s.buffer, sizeofInterface)]⟩
    ⟨inner.buffer, s.interfaces ++ [⟨desc, inner.endpoints⟩], inner.reads, false⟩
  else if m (s.buffer + 1) = descEndp then
    ⟨s.buffer + (m s.buffer).toNat, s.interfaces, reads ++ [(s.buffer, 1)], false⟩
  else ⟨s.buffer, s.interfaces, reads, true⟩

def step (m : Bytes) (bufferEnd : ℕ) (s : Loop) : Loop :=
  if s.broken ∨ bufferEnd ≤ s.buffer then s else turn m s

def result (bufferEnd : ℕ) (s : Loop) : Option Loop :=
  if s.broken ∨ bufferEnd ≤ s.buffer then some s else none

/-- What the device does with the two requests: their status, and what lies at the buffers after
them. -/
structure Responses where
  first : CInt
  configTemp : Bytes
  second : CInt
  configFull : Bytes

def Responses.allocated (r : Responses) : ℕ := word r.configTemp 2

def Responses.start (r : Responses) : Loop :=
  ⟨(r.configFull 0).toNat, [], [(0, sizeofConfiguration), (0, 1), (2, 2)], false⟩

def Responses.bufferEnd (r : Responses) : ℕ := word r.configFull 2

/-- `usb_getConfigurationFromIndex` returns this pointer to a configuration, or `NULL`, having
read these bytes of the buffer. -/
def GetConfigurationFromIndex (r : Responses) (index : CInt)
    (returned : Option Configuration × List Read) : Prop :=
  if r.first ≠ success ∨ r.second ≠ success then returned = (none, [])
  else ∃ s, Returns (step r.configFull r.bufferEnd) (result r.bufferEnd) r.start s ∧
    returned = (some ⟨index, readConfiguration r.configFull, s.interfaces⟩, s.reads)

section Turns

variable {m : Bytes} {bufferEnd n : ℕ} {s t : Loop}

theorem step_stays (m : Bytes) (bufferEnd : ℕ) :
    Stays (step m bufferEnd) (result bufferEnd) := by
  intro s hsome
  unfold result at hsome
  split_ifs at hsome with hover
  · exact if_pos hover
  · simp at hsome

theorem result_eq_none_iff :
    result bufferEnd s = none ↔ s.broken = false ∧ s.buffer < bufferEnd := by
  unfold result
  split_ifs with hover
  · simp only [false_iff, not_and, Nat.not_lt]
    intro hrun
    exact hover.resolve_left (by simp [hrun])
  · simpa using hover

theorem step_eq_turn (h : result bufferEnd s = none) : step m bufferEnd s = turn m s := by
  unfold result at h
  split_ifs at h with hover
  exact if_neg hover

/-- What the loop returns is the state that it comes to. -/
theorem reaches_of_returns (h : Returns (step m bufferEnd) (result bufferEnd) s t) :
    Reaches (step m bufferEnd) s t := by
  obtain ⟨k, hk⟩ := h
  refine ⟨k, ?_⟩
  unfold result at hk
  split_ifs at hk
  exact Option.some.inj hk

def endpointOffset (m : Bytes) (b : ℕ) : ℕ → ℕ
  | 0 => b
  | k + 1 => endpointOffset m b k + (m (endpointOffset m b k)).toNat

theorem endpointOffset_succ (m : Bytes) (b k : ℕ) :
    endpointOffset m (b + (m b).toNat) k = endpointOffset m b (k + 1) := by
  induction k with
  | zero => rfl
  | succ k ih =>
    rw [endpointOffset, ih]
    rfl

theorem endpointOffset_le (m : Bytes) (b k : ℕ) : b ≤ endpointOffset m b k := by
  induction k with
  | zero => exact Nat.le_refl b
  | succ k ih => exact Nat.le_trans ih (Nat.le_add_right _ _)

/-- What the loop over `n` endpoints does. -/
theorem endpointLoop_eq (m : Bytes) (n : ℕ) (e : EndpointLoop) :
    endpointLoop m n e =
      ⟨endpointOffset m e.buffer n,
        e.endpoints ++ (List.range n).map fun k => readEndpoint m (endpointOffset m e.buffer k),
        e.reads ++ (List.range n).map fun k => (endpointOffset m e.buffer k, sizeofEndpoint)⟩ := by
  induction n generalizing e with
  | zero => simp [endpointLoop, endpointOffset]
  | succ n ih =>
    have hlength : (readEndpoint m e.buffer).bLength = m e.buffer := rfl
    rw [endpointLoop, ih]
    simp only [hlength, endpointOffset_succ, List.range_succ_eq_map, List.map_cons, List.map_map,
      List.append_assoc, List.singleton_append]
    rfl

/-- The bytes of the descriptor at `b` that are read lie in the buffer of `size` bytes. -/
structure ItemFits (m : Bytes) (size b : ℕ) : Prop where
  header : b + 2 ≤ size
  interface : m (b + 1) = descIntf → b + sizeofInterface ≤ size ∧ ∀ k ≤ (m (b + 4)).toNat,
    endpointOffset m (b + (m b).toNat) k + sizeofEndpoint ≤ size

structure ItemAdvances (m : Bytes) (b : ℕ) : Prop where
  interface : m (b + 1) = descIntf →
    b < endpointOffset m (b + (m b).toNat) ((m (b + 4)).toNat + 1)
  endpoint : m (b + 1) = descEndp → m b ≠ 0

def ReadsInside (size : ℕ) (reads : List Read) : Prop := ∀ r ∈ reads, r.1 + r.2 ≤ size

theorem turn_interface (h : m (s.buffer + 1) = descIntf) :
    turn m s =
      ⟨endpointOffset m (s.buffer + (m s.buffer).toNat) ((m (s.buffer + 4)).toNat + 1),
        s.interfaces ++ [⟨readInterface m s.buffer,
          (List.range ((m (s.buffer + 4)).toNat + 1)).map fun k =>
            readEndpoint m (endpointOffset m (s.buffer + (m s.buffer).toNat) k)⟩],
        s.reads ++ [(s.buffer + 1, 1)] ++ [(s.buffer, sizeofInterface)] ++
          (List.range ((m (s.buffer + 4)).toNat + 1)).map fun k =>
            (endpointOffset m (s.buffer + (m s.buffer).toNat) k, sizeofEndpoint),
        false⟩ := by
  have hlength : (readInterface m s.buffer).bLength = m s.buffer := rfl
  have hcount : (readInterface m s.buffer).bNumEndpoints = m (s.buffer + 4) := rfl
  unfold turn
  rw [if_pos h]
  simp only [endpointLoop_eq, hlength, hcount, List.nil_append]

theorem turn_endpoint (h : m (s.buffer + 1) = descEndp) :
    turn m s = ⟨s.buffer + (m s.buffer).toNat, s.interfaces,
      s.reads ++ [(s.buffer + 1, 1)] ++ [(s.buffer, 1)], false⟩ := by
  have hne : ¬ m (s.buffer + 1) = descIntf := by
    rw [h]
    decide
  unfold turn
  rw [if_neg hne, if_pos h]

theorem turn_other (hintf : m (s.buffer + 1) ≠ descIntf) (hendp : m (s.buffer + 1) ≠ descEndp) :
    turn m s = ⟨s.buffer, s.interfaces, s.reads ++ [(s.buffer + 1, 1)], true⟩ := by
  unfold turn
  rw [if_neg hintf, if_neg hendp]

theorem readsInside_append {size : ℕ} (xs ys : List Read) :
    ReadsInside size (xs ++ ys) ↔ ReadsInside size xs ∧ ReadsInside size ys := by
  simp only [ReadsInside, List.forall_mem_append]

theorem readsInside_singleton {size offset n : ℕ} :
    ReadsInside size [(offset, n)] ↔ offset + n ≤ size := by
  simp only [ReadsInside, List.forall_mem_singleton]

theorem turn_inside_iff {size : ℕ} :
    ReadsInside size (turn m s).reads ↔ ReadsInside size s.reads ∧ ItemFits m size s.buffer := by
  by_cases hintf : m (s.buffer + 1) = descIntf
  · have hinner : ReadsInside size ((List.range ((m (s.buffer + 4)).toNat + 1)).map fun k =>
        (endpointOffset m (s.buffer + (m s.buffer).toNat) k, sizeofEndpoint)) ↔
        ∀ k ≤ (m (s.buffer + 4)).toNat,
          endpointOffset m (s.buffer + (m s.buffer).toNat) k + sizeofEndpoint ≤ size := by
      simp only [ReadsInside, List.forall_mem_map, List.mem_range, Nat.lt_succ_iff]
    rw [turn_interface hintf]
    simp only [readsInside_append, readsInside_singleton, hinner]
    constructor
    · rintro ⟨⟨⟨hreads, hheader⟩, hdesc⟩, hendpoints⟩
      exact ⟨hreads, hheader, fun _ => ⟨hdesc, hendpoints⟩⟩
    · rintro ⟨hreads, hheader, hitem⟩
      exact ⟨⟨⟨hreads, hheader⟩, (hitem hintf).1⟩, (hitem hintf).2⟩
  · have hfits : ItemFits m size s.buffer ↔ s.buffer + 2 ≤ size :=
      ⟨ItemFits.header, fun h => ⟨h, fun h' => absurd h' hintf⟩⟩
    rw [hfits]
    by_cases hendp : m (s.buffer + 1) = descEndp
    · rw [turn_endpoint hendp]
      simp only [readsInside_append, readsInside_singleton, and_assoc]
      refine and_congr_right fun _ => ?_
      omega
    · rw [turn_other hintf hendp]
      simp only [readsInside_append, readsInside_singleton]

theorem turn_advances_iff :
    ((turn m s).broken = true ∨ s.buffer < (turn m s).buffer) ↔ ItemAdvances m s.buffer := by
  by_cases hintf : m (s.buffer + 1) = descIntf
  · have hendp : m (s.buffer + 1) ≠ descEndp := by
      rw [hintf]
      decide
    rw [turn_interface hintf]
    simp only [Bool.false_eq_true, false_or]
    exact ⟨fun h => ⟨fun _ => h, fun h' => absurd h' hendp⟩, fun h => h.interface hintf⟩
  · by_cases hendp : m (s.buffer + 1) = descEndp
    · have hzero : m s.buffer ≠ 0 ↔ 0 < (m s.buffer).toNat := by
        rw [Nat.pos_iff_ne_zero, ne_eq, ne_eq, ← BitVec.toNat_inj]
        rfl
      rw [turn_endpoint hendp]
      simp only [Bool.false_eq_true, false_or, Nat.lt_add_right_iff_pos, ← hzero]
      exact ⟨fun h => ⟨fun h' => absurd h' hintf, fun _ => h⟩, fun h => h.endpoint hendp⟩
    · rw [turn_other hintf hendp]
      simp only [true_or, true_iff]
      exact ⟨fun h => absurd h hintf, fun h => absurd h hendp⟩

theorem buffer_le_turn (m : Bytes) (s : Loop) : s.buffer ≤ (turn m s).buffer := by
  by_cases hintf : m (s.buffer + 1) = descIntf
  · rw [turn_interface hintf]
    exact Nat.le_trans (Nat.le_add_right _ _) (endpointOffset_le _ _ _)
  · by_cases hendp : m (s.buffer + 1) = descEndp
    · rw [turn_endpoint hendp]
      exact Nat.le_add_right _ _
    · have hsame : (turn m s).buffer = s.buffer := by rw [turn_other hintf hendp]
      omega

theorem turn_grows (m : Bytes) (s : Loop) :
    s.interfaces <+: (turn m s).interfaces ∧ s.reads <+: (turn m s).reads := by
  by_cases hintf : m (s.buffer + 1) = descIntf
  · rw [turn_interface hintf]
    refine ⟨List.prefix_append _ _, ?_⟩
    simp only [List.append_assoc]
    exact List.prefix_append _ _
  · by_cases hendp : m (s.buffer + 1) = descEndp
    · rw [turn_endpoint hendp]
      refine ⟨List.prefix_refl _, ?_⟩
      simp only [List.append_assoc]
      exact List.prefix_append _ _
    · rw [turn_other hintf hendp]
      exact ⟨List.prefix_refl _, List.prefix_append _ _⟩

theorem grows_of_reaches (h : Reaches (step m bufferEnd) s t) :
    s.interfaces <+: t.interfaces ∧ s.reads <+: t.reads := by
  refine h.induct (P := fun u => s.interfaces <+: u.interfaces ∧ s.reads <+: u.reads)
    ⟨List.prefix_refl _, List.prefix_refl _⟩ fun u _ hu => ?_
  cases hresult : result bufferEnd u with
  | some r =>
    rw [step_stays m bufferEnd u (by simp [hresult])]
    exact hu
  | none =>
    have hturn := turn_grows m u
    rw [step_eq_turn hresult]
    exact ⟨hu.1.trans hturn.1, hu.2.trans hturn.2⟩

/-- Where a turn neither goes on nor breaks off, the loop does not end. -/
theorem not_returns_of_stuck (hresult : result bufferEnd s = none)
    (hstuck : ¬ ItemAdvances m s.buffer) :
    ¬ Returns (step m bufferEnd) (result bufferEnd) s t := by
  have hsame : ∀ u, Reaches (step m bufferEnd) s u → u.broken = false ∧ u.buffer = s.buffer := by
    intro u hu
    refine hu.induct (P := fun u => u.broken = false ∧ u.buffer = s.buffer)
      ⟨(result_eq_none_iff.mp hresult).1, rfl⟩ fun v _ hv => ?_
    have hnone : result bufferEnd v = none := by
      rw [result_eq_none_iff, hv.2]
      exact ⟨hv.1, (result_eq_none_iff.mp hresult).2⟩
    have hnot := mt turn_advances_iff.mp (hv.2 ▸ hstuck)
    rw [not_or, Bool.not_eq_true, Nat.not_lt] at hnot
    have hle := buffer_le_turn m v
    rw [step_eq_turn hnone]
    exact ⟨hnot.1, by omega⟩
  intro hreturns
  have hlast := hsame t (reaches_of_returns hreturns)
  obtain ⟨k, hk⟩ := hreturns
  have hnone : result bufferEnd ((step m bufferEnd)^[k] s) = none := by
    have hat := hsame _ ⟨k, rfl⟩
    rw [result_eq_none_iff, hat.2]
    exact ⟨hat.1, (result_eq_none_iff.mp hresult).2⟩
  rw [hnone] at hk
  cases hk

end Turns

section Robust

variable {r : Responses} {index : CInt}

/-- The function returns, and has read nothing outside of the buffer that it allocated. -/
def Robust (r : Responses) (index : CInt) : Prop :=
  ∃ returned, GetConfigurationFromIndex r index returned ∧
    ReadsInside r.allocated returned.2

/-- The buffer holds the configuration descriptor and each descriptor that the loop comes to, as
far as it is read, and each of those leads further on. -/
structure Sound (r : Responses) : Prop where
  configuration : sizeofConfiguration ≤ r.allocated
  items : ∀ s, Reaches (step r.configFull r.bufferEnd) r.start s →
    result r.bufferEnd s = none →
      ItemFits r.configFull r.allocated s.buffer ∧ ItemAdvances r.configFull s.buffer

theorem start_inside_iff (r : Responses) :
    ReadsInside r.allocated r.start.reads ↔ sizeofConfiguration ≤ r.allocated := by
  unfold ReadsInside Responses.start sizeofConfiguration
  simp only [List.forall_mem_cons]
  constructor
  · exact fun h => by omega
  · exact fun h => ⟨by omega, by omega, by omega, List.forall_mem_nil _⟩

theorem sound_of_returns {s : Loop}
    (hreturns : Returns (step r.configFull r.bufferEnd) (result r.bufferEnd) r.start s)
    (hinside : ReadsInside r.allocated s.reads) : Sound r := by
  have hstay := step_stays r.configFull r.bufferEnd
  have hbefore : ∀ u, Reaches (step r.configFull r.bufferEnd) u s →
      ReadsInside r.allocated u.reads :=
    fun u hu read hread => hinside read ((grows_of_reaches hu).2.subset hread)
  refine ⟨(start_inside_iff r).mp (hbefore _ (reaches_of_returns hreturns)), fun u hu hnone => ?_⟩
  have hrest := hstay.returns_of_reaches hu hreturns
  have hnext := hstay.returns_of_reaches hu.next hreturns
  constructor
  · have hreads := hbefore _ (reaches_of_returns hnext)
    rw [step_eq_turn hnone] at hreads
    exact (turn_inside_iff.mp hreads).2
  · by_contra hstuck
    exact not_returns_of_stuck hnone hstuck hrest

theorem Sound.returns (h : Sound r) :
    ∃ s, Returns (step r.configFull r.bufferEnd) (result r.bufferEnd) r.start s ∧
      ReadsInside r.allocated s.reads := by
  have hend : ∃ s, Returns (step r.configFull r.bufferEnd) (result r.bufferEnd) r.start s := by
    refine returns_of_decreasing (fun s => if s.broken then 0 else r.bufferEnd - s.buffer) ?_
    intro s hs hnone
    obtain ⟨hrun, hlt⟩ := result_eq_none_iff.mp hnone
    have hadvance := turn_advances_iff.mpr (h.items s hs hnone).2
    rw [step_eq_turn hnone, hrun]
    cases hbroken : (turn r.configFull s).broken with
    | true =>
      simp only [if_true, Bool.false_eq_true, if_false]
      omega
    | false =>
      have hmore := hadvance.resolve_left (by simp [hbroken])
      simp only [Bool.false_eq_true, if_false]
      omega
  obtain ⟨s, hs⟩ := hend
  refine ⟨s, hs, ?_⟩
  refine (reaches_of_returns hs).induct (P := fun s => ReadsInside r.allocated s.reads)
    ((start_inside_iff r).mpr h.configuration) fun u hu hreads => ?_
  cases hresult : result r.bufferEnd u with
  | some v =>
    rw [step_stays r.configFull r.bufferEnd u (by simp [hresult])]
    exact hreads
  | none =>
    rw [step_eq_turn hresult]
    exact turn_inside_iff.mpr ⟨hreads, (h.items u hu hresult).1⟩

def sends (bytes : List (BitVec 8)) : Responses :=
  ⟨success, fun i => bytes.getD i 0, success, fun i => bytes.getD i 0⟩

/-- Whatever the device sends, the function ends and stays in its buffer if and only if a request
fails or the descriptors that the loop comes to lie in the buffer and lead on. -/
theorem robust_iff (r : Responses) (index : CInt) :
    Robust r index ↔ r.first ≠ success ∨ r.second ≠ success ∨ Sound r := by
  rw [← or_assoc]
  unfold Robust GetConfigurationFromIndex
  by_cases hfailed : r.first ≠ success ∨ r.second ≠ success
  · simp only [hfailed, if_true, true_or, iff_true]
    exact ⟨_, rfl, List.forall_mem_nil _⟩
  · simp only [hfailed, if_false, false_or]
    constructor
    · rintro ⟨returned, ⟨s, hs, rfl⟩, hinside⟩
      exact sound_of_returns hs hinside
    · intro hsound
      obtain ⟨s, hs, hinside⟩ := hsound.returns
      exact ⟨_, ⟨s, hs, rfl⟩, hinside⟩

/-- Behind the configuration descriptor lies an endpoint descriptor of length 0. -/
theorem zero_length_loops :
    ¬ Robust (sends [9, 2, 11, 0, 0, 1, 0, 0x80, 50, 0, 5]) 0 := by
  rintro ⟨returned, hreturned, -⟩
  obtain ⟨s, hs, -⟩ := hreturned
  refine not_returns_of_stuck (by decide) (fun hadvances => ?_) hs
  exact hadvances.endpoint (by decide) (by decide)

end Robust

section WellFormed

def bytesOf (l : List (BitVec 8)) : Bytes := fun i => l.getD i 0

structure IsDescriptor (type : BitVec 8) (bytes : List (BitVec 8)) : Prop where
  length : (bytesOf bytes 0).toNat = bytes.length
  type : bytesOf bytes 1 = type

structure EndpointBytes where
  bytes : List (BitVec 8)
  isEndpoint : IsDescriptor descEndp bytes
  seven_le : 7 ≤ bytes.length

structure InterfaceBytes where
  bytes : List (BitVec 8)
  endpoints : List EndpointBytes
  isInterface : IsDescriptor descIntf bytes
  nine_le : 9 ≤ bytes.length
  count : (bytesOf bytes 4).toNat = endpoints.length

def InterfaceBytes.all (i : InterfaceBytes) : List (BitVec 8) :=
  i.bytes ++ i.endpoints.flatMap EndpointBytes.bytes

structure DescriptorSet where
  configuration : List (BitVec 8)
  interfaces : List InterfaceBytes
  isConfiguration : IsDescriptor 0x02 configuration
  nine_le : 9 ≤ configuration.length
  total : word (bytesOf configuration) 2 =
    (configuration ++ interfaces.flatMap InterfaceBytes.all).length

def DescriptorSet.all (d : DescriptorSet) : List (BitVec 8) :=
  d.configuration ++ d.interfaces.flatMap InterfaceBytes.all

def DescriptorSet.described (d : DescriptorSet) : List Interface :=
  d.interfaces.map fun i =>
    ⟨readInterface (bytesOf i.bytes) 0, i.endpoints.map fun e => readEndpoint (bytesOf e.bytes) 0⟩

structure Answers (r : Responses) (d : DescriptorSet) : Prop where
  first : r.first = success
  second : r.second = success
  configTemp : ∀ i < min sizeofConfiguration d.all.length, r.configTemp i = bytesOf d.all i
  configFull : ∀ i < d.all.length, r.configFull i = bytesOf d.all i

def ParsedRight (r : Responses) (d : DescriptorSet) (index : CInt) : Prop :=
  ∃ config reads, GetConfigurationFromIndex r index (some config, reads) ∧
    config.interfaces = d.described

variable {r : Responses} {d : DescriptorSet} {i : InterfaceBytes} {rest : List InterfaceBytes}

theorem bytesOf_append_left {xs ys : List (BitVec 8)} {k : ℕ} (hk : k < xs.length) :
    bytesOf (xs ++ ys) k = bytesOf xs k := by
  simp [bytesOf, List.getD_eq_getElem?_getD, List.getElem?_append_left hk]

theorem bytesOf_append_right (xs ys : List (BitVec 8)) (k : ℕ) :
    bytesOf (xs ++ ys) (xs.length + k) = bytesOf ys k := by
  simp [bytesOf, List.getD_eq_getElem?_getD, List.getElem?_append_right]

theorem DescriptorSet.all_length (d : DescriptorSet) :
    d.all.length = d.configuration.length + (d.interfaces.flatMap InterfaceBytes.all).length :=
  List.length_append

/-- The loop begins behind the configuration descriptor and ends behind the set. -/
theorem Answers.bounds (h : Answers r d) :
    r.start.buffer = d.configuration.length ∧ r.bufferEnd = d.all.length := by
  have hnine := d.nine_le
  have hlength := d.all_length
  have hread : ∀ k < 9, r.configFull k = bytesOf d.configuration k := by
    intro k hk
    rw [h.configFull k (by omega)]
    exact bytesOf_append_left (by omega)
  refine ⟨?_, ?_⟩
  · change (r.configFull 0).toNat = _
    rw [hread 0 (by omega), d.isConfiguration.length]
  · rw [Responses.bufferEnd, word, hread 2 (by omega), hread (2 + 1) (by omega)]
    exact d.total

/-- The bytes behind the configuration descriptor are those of the first interface. -/
theorem Answers.first_interface (h : Answers r d) (hd : d.interfaces = i :: rest) {k : ℕ}
    (hk : k < i.bytes.length) :
    r.configFull (d.configuration.length + k) = bytesOf i.bytes k := by
  have hall : d.all = d.configuration ++ (i.bytes ++
      (i.endpoints.flatMap EndpointBytes.bytes ++ rest.flatMap InterfaceBytes.all)) := by
    simp [DescriptorSet.all, hd, InterfaceBytes.all]
  have hlt : d.configuration.length + k < d.all.length := by
    rw [hall]
    simp only [List.length_append]
    omega
  rw [h.configFull _ hlt, hall, bytesOf_append_right, bytesOf_append_left hk]

/-- The first turn takes one endpoint more than the interface has. -/
theorem Answers.first_turn (h : Answers r d) (hd : d.interfaces = i :: rest) :
    ∃ first, (turn r.configFull r.start).interfaces = [first] ∧
      first.endpoints.length = i.endpoints.length + 1 := by
  have hnine := i.nine_le
  have hbuffer := h.bounds.1
  have hread : ∀ k < 9, r.configFull (r.start.buffer + k) = bytesOf i.bytes k := by
    intro k hk
    rw [hbuffer]
    exact h.first_interface hd (by omega)
  have htype : r.configFull (r.start.buffer + 1) = descIntf := by
    rw [hread 1 (by omega), i.isInterface.type]
  have hcount : (r.configFull (r.start.buffer + 4)).toNat = i.endpoints.length := by
    rw [hread 4 (by omega), i.count]
  rw [turn_interface htype]
  exact ⟨_, rfl, by simp [hcount]⟩

/-- A set is read right if and only if it has no interface. -/
theorem parsedRight_iff (h : Answers r d) (index : CInt) :
    ParsedRight r d index ↔ d.interfaces = [] := by
  obtain ⟨hbuffer, hend⟩ := h.bounds
  have hlength := d.all_length
  have hok : ¬ (r.first ≠ success ∨ r.second ≠ success) := by simp [h.first, h.second]
  unfold ParsedRight GetConfigurationFromIndex
  simp only [if_neg hok]
  constructor
  · rintro ⟨config, reads, ⟨s, hs, heq⟩, hright⟩
    cases hd : d.interfaces with
    | nil => rfl
    | cons i rest =>
      have hnine := i.nine_le
      have hmore : d.configuration.length < d.all.length := by
        rw [hlength, hd]
        simp only [List.flatMap_cons, List.length_append, InterfaceBytes.all]
        omega
      have hnone : result r.bufferEnd r.start = none :=
        result_eq_none_iff.mpr ⟨rfl, by omega⟩
      obtain ⟨first, hfirst, hcount⟩ := h.first_turn hd
      have hnext := (step_stays r.configFull r.bufferEnd).returns_of_reaches
        (Reaches.refl _ r.start).next hs
      have hgrows := (grows_of_reaches (reaches_of_returns hnext)).1
      rw [step_eq_turn hnone, hfirst] at hgrows
      obtain ⟨more, hmore⟩ := hgrows
      have hsame : config.interfaces = s.interfaces := by
        have := (Prod.mk.inj heq).1
        rw [Option.some.inj this]
      rw [hsame, ← hmore, DescriptorSet.described, hd] at hright
      have hhead := (List.cons.inj hright).1
      rw [hhead] at hcount
      simp at hcount
  · intro hd
    have hdone : r.bufferEnd ≤ r.start.buffer := by
      rw [hbuffer, hend, hlength, hd]
      simp
    refine ⟨_, _, ⟨r.start, ⟨0, if_pos (Or.inr hdone)⟩, rfl⟩, ?_⟩
    rw [DescriptorSet.described, hd]
    rfl

def keyboard : DescriptorSet where
  configuration := [9, 2, 25, 0, 1, 1, 0, 0xA0, 50]
  interfaces :=
    [{ bytes := [9, 4, 0, 0, 1, 3, 1, 1, 0]
       endpoints := [⟨[7, 5, 0x81, 3, 8, 0, 10], ⟨by decide, by decide⟩, by decide⟩]
       isInterface := ⟨by decide, by decide⟩
       nine_le := by decide
       count := by decide }]
  isConfiguration := ⟨by decide, by decide⟩
  nine_le := by decide
  total := by decide

theorem keyboard_answers : Answers (sends keyboard.all) keyboard :=
  ⟨rfl, rfl, fun _ _ => rfl, fun _ _ => rfl⟩

theorem parsedRight_keyboard : ParsedRight (sends keyboard.all) keyboard 0 ↔
    keyboard.interfaces = [] :=
  parsedRight_iff keyboard_answers 0

/-- The memory behind the descriptors is taken for a second endpoint of the keyboard. -/
theorem keyboard_second_endpoint :
    (∀ config reads, GetConfigurationFromIndex (sends keyboard.all) 0 (some config, reads) →
      config.interfaces.map (fun i => i.endpoints.map EndpointDescriptor.bEndpointAddress) =
        [[0x81, 0]]) ∧ ¬ ParsedRight (sends keyboard.all) keyboard 0 := by
  have hall : ∀ config reads,
      GetConfigurationFromIndex (sends keyboard.all) 0 (some config, reads) →
        config.interfaces.map (fun i => i.endpoints.map EndpointDescriptor.bEndpointAddress) =
          [[0x81, 0]] := by
    rintro config reads ⟨s, hs, heq⟩
    obtain rfl := Option.some.inj (Prod.mk.inj heq).1
    have hreturns : Returns (step (sends keyboard.all).configFull (sends keyboard.all).bufferEnd)
        (result (sends keyboard.all).bufferEnd) (sends keyboard.all).start
        (turn (sends keyboard.all).configFull (sends keyboard.all).start) := ⟨1, rfl⟩
    obtain rfl := (step_stays _ _).returns_unique hreturns hs
    decide
  refine ⟨hall, ?_⟩
  rintro ⟨config, reads, hreturned, hright⟩
  have htwo := hall config reads hreturned
  rw [hright] at htwo
  exact absurd htwo (by decide)

end WellFormed

end ReduceOS.UsbConfiguration
