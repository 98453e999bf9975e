import ReduceOS.Machine
import ReduceOS.RingIndex
import Mathlib.Tactic.SplitIfs

/-!
The transmit ring of the E1000 driver. The driver puts a packet into the slot at the tail and
moves the tail; the NIC transmits from the head and stops where head and tail meet. The driver
never looks at the status of a slot, nor at the size of a packet.
-/
namespace ReduceOS.TransmitRing

open Machine RingIndex

abbrev Byte := BitVec 8

def numTxDesc : ℕ := 512

abbrev Slot := Fin numTxDesc

/-- The pages of the slots: their virtual addresses `tx_virt` and the page tables. A page is
mapped to a page and no two slots share one. -/
structure Buffers where
  txVirt : Slot → Addr
  translate : Addr → Addr
  linear : ∀ i, ∀ k < pageSize,
    translate (txVirt i + BitVec.ofNat 64 k) = translate (txVirt i) + BitVec.ofNat 64 k
  disjoint : ∀ i j, i ≠ j → ∀ k < pageSize, ∀ l < pageSize,
    translate (txVirt i) + BitVec.ofNat 64 k ≠ translate (txVirt j) + BitVec.ofNat 64 l

/-- `e1000_tx_desc_t`, without the fields that nothing sets. -/
structure TxDesc where
  addr : Addr
  length : BitVec 16
  cmd : Byte
  status : Byte

structure Rewrite where
  slot : Slot
  size : ℕ
  free : Bool

/-- Physical memory, the descriptors, the driver's index, the registers for tail and head and the
packet of the call that holds the lock. Beside them stand the slots that were ever handed to the
NIC, the writes to slots, the packets accepted and those transmitted. -/
structure State where
  mem : Addr → Byte
  txDescs : Slot → TxDesc
  txCurrent : Slot
  tail : Slot
  head : Slot
  filling : Option (List Byte)
  used : Slot → Bool
  rewrites : List Rewrite
  accepted : List (List Byte)
  transmitted : List (List Byte)

section Source

def statusDone : Byte := 1

def cmdEop : Byte := 1

def cmdIfcs : Byte := 2

def cmdRs : Byte := 8

def cmdRps : Byte := 16

def TxDesc.done (d : TxDesc) : Bool := d.status &&& statusDone ≠ 0

variable (b : Buffers)

def txinit (mem : Addr → Byte) : State where
  mem := mem
  txDescs := fun i => ⟨b.translate (b.txVirt i), 0, cmdEop, 0⟩
  txCurrent := ⟨0, by decide⟩
  tail := ⟨0, by decide⟩
  head := ⟨0, by decide⟩
  filling := none
  used := fun _ => false
  rewrites := []
  accepted := []
  transmitted := []

def memcpy (translate : Addr → Addr) (mem : Addr → Byte) (dest : Addr) :
    List Byte → Addr → Byte
  | [] => mem
  | byte :: bytes => memcpy translate (Function.update mem (translate dest) byte) (dest + 1) bytes

/-- `e1000_write` up to where the descriptor is filled. Another call waits for the lock. -/
def writeSlot (s : State) (packet : List Byte) (buffer : Addr) : State :=
  if buffer = null ∨ packet = [] then s
  else if s.filling.isSome then s
  else
    let d := s.txDescs s.txCurrent
    { s with
      mem := memcpy b.translate s.mem (b.txVirt s.txCurrent) packet
      txDescs := Function.update s.txDescs s.txCurrent
        { d with
          length := BitVec.ofNat 16 packet.length
          cmd := cmdEop ||| cmdIfcs ||| cmdRs ||| cmdRps
          status := 0 }
      filling := some packet
      rewrites := ⟨s.txCurrent, packet.length, !s.used s.txCurrent || d.done⟩ :: s.rewrites }

/-- The rest of `e1000_write`: the tail is moved and the lock is released. -/
def advanceTail (s : State) : State :=
  match s.filling with
  | none => s
  | some packet =>
    { s with
      txCurrent := next s.txCurrent
      tail := next s.txCurrent
      filling := none
      used := Function.update s.used s.txCurrent true
      accepted := s.accepted ++ [packet] }

end Source

def frame (s : State) (i : Slot) : List Byte :=
  (List.range (s.txDescs i).length.toNat).map fun k =>
      s.mem ((s.txDescs i).addr + BitVec.ofNat 64 k)

def complete (s : State) : State :=
  if s.head = s.tail then s
  else
    let d := s.txDescs s.head
    { s with
      txDescs := Function.update s.txDescs s.head { d with status := d.status ||| statusDone }
      head := next s.head
      transmitted := s.transmitted ++ [frame s s.head] }

inductive Action
  | writeSlot (packet : List Byte) (buffer : Addr)
  | advanceTail
  | complete

variable (b : Buffers)

def step (s : State) : Action → State
  | .writeSlot packet buffer => writeSlot b s packet buffer
  | .advanceTail => advanceTail s
  | .complete => complete s

def State.outstanding (s : State) : ℕ := distance s.head s.tail

/-- Every packet that was accepted is transmitted once and in order, or it stands in the ring, and
slots are written only where that is safe. -/
structure Safe (s : State) : Prop where
  stream : s.accepted = s.transmitted ++ pending (frame s) s.head s.tail
  rewrites : ∀ r ∈ s.rewrites, r.free = true ∧ r.size ≤ pageSize

/-- A packet fits into a page, and when it is handed to the NIC a slot is left beside it. -/
def Meets (s : State) : Action → Prop
  | .writeSlot packet buffer =>
    buffer = null ∨ packet = [] ∨ s.filling.isSome ∨ packet.length ≤ pageSize
  | .advanceTail => s.filling = none ∨ s.outstanding + 1 < numTxDesc
  | .complete => True

def states (s : State) : List Action → List State
  | [] => [s]
  | a :: actions => s :: states (step b s a) actions

def AllMeet (s : State) : List Action → Prop
  | [] => True
  | a :: actions => Meets s a ∧ AllMeet (step b s a) actions

/-- What holds beside `Safe` as long as all actions meet the condition. -/
structure Consistent (s : State) : Prop where
  tail : s.tail = s.txCurrent
  addr : ∀ i, (s.txDescs i).addr = b.translate (b.txVirt i)
  length : ∀ i, (s.txDescs i).length.toNat ≤ pageSize
  filling : ∀ packet, s.filling = some packet → frame s s.tail = packet
  done : ∀ i, s.used i = true → (s.filling.isSome ∧ i = s.tail) ∨
    distance s.head i < s.outstanding ∨ (s.txDescs i).done = true

section Memory

variable (translate : Addr → Addr)

theorem add_ofNat_succ (a : Addr) (k : ℕ) :
    a + BitVec.ofNat 64 (k + 1) = a + 1 + BitVec.ofNat 64 k := by
  simp only [BitVec.ofNat_add]
  bv_omega

theorem memcpy_of_ne (mem : Addr → Byte) (dest a : Addr) (bytes : List Byte)
    (h : ∀ k < bytes.length, translate (dest + BitVec.ofNat 64 k) ≠ a) :
    memcpy translate mem dest bytes a = mem a := by
  induction bytes generalizing mem dest with
  | nil => rfl
  | cons byte bytes ih =>
    have hfirst : translate dest ≠ a := by simpa using h 0 (by simp)
    have hrest : ∀ k < bytes.length, translate (dest + 1 + BitVec.ofNat 64 k) ≠ a := by
      intro k hk
      rw [← add_ofNat_succ]
      exact h (k + 1) (by simpa using hk)
    rw [memcpy, ih _ _ hrest, Function.update_of_ne (Ne.symm hfirst)]

/-- Every byte is where it was copied to, when no two go to one address. -/
theorem memcpy_get (mem : Addr → Byte) (dest : Addr) (bytes : List Byte)
    (hinj : ∀ k < bytes.length, ∀ l < bytes.length, k ≠ l →
      translate (dest + BitVec.ofNat 64 k) ≠ translate (dest + BitVec.ofNat 64 l))
    (k : ℕ) (hk : k < bytes.length) :
    memcpy translate mem dest bytes (translate (dest + BitVec.ofNat 64 k)) = bytes[k] := by
  induction bytes generalizing mem dest k with
  | nil => simp at hk
  | cons byte bytes ih =>
    cases k with
    | zero =>
      have hlater : ∀ l < bytes.length, translate (dest + 1 + BitVec.ofNat 64 l) ≠
          translate (dest + BitVec.ofNat 64 0) := by
        intro l hl
        rw [← add_ofNat_succ]
        exact hinj (l + 1) (by simpa using hl) 0 (by simp) (by omega)
      rw [memcpy, memcpy_of_ne translate _ _ _ _ hlater]
      simp
    | succ k =>
      rw [memcpy, add_ofNat_succ]
      refine ih _ _ ?_ k (by simpa using hk)
      intro l hl m hm hne
      rw [← add_ofNat_succ, ← add_ofNat_succ]
      exact hinj (l + 1) (by simpa using hl) (m + 1) (by simpa using hm) (by omega)

end Memory

/-- The page of a slot after a packet was copied into it. -/
theorem memcpy_slot (mem : Addr → Byte) (i : Slot) (packet : List Byte)
    (hsize : packet.length ≤ pageSize) (k : ℕ) (hk : k < packet.length) :
    memcpy b.translate mem (b.txVirt i) packet (b.translate (b.txVirt i) + BitVec.ofNat 64 k) =
      packet[k] := by
  have hinj : ∀ k < packet.length, ∀ l < packet.length, k ≠ l →
      b.translate (b.txVirt i + BitVec.ofNat 64 k) ≠
        b.translate (b.txVirt i + BitVec.ofNat 64 l) := by
    intro k hk l hl hne
    rw [b.linear i k (by omega), b.linear i l (by omega)]
    unfold pageSize at hsize
    bv_omega
  rw [← b.linear i k (by omega)]
  exact memcpy_get b.translate mem (b.txVirt i) packet hinj k hk

theorem memcpy_other (mem : Addr → Byte) (i j : Slot) (packet : List Byte)
    (hsize : packet.length ≤ pageSize) (hne : j ≠ i) (k : ℕ) (hk : k < pageSize) :
    memcpy b.translate mem (b.txVirt i) packet (b.translate (b.txVirt j) + BitVec.ofNat 64 k) =
      mem (b.translate (b.txVirt j) + BitVec.ofNat 64 k) := by
  apply memcpy_of_ne
  intro l hl
  rw [b.linear i l (by omega)]
  exact b.disjoint i j (Ne.symm hne) l (by omega) k hk

/-- What the NIC would transmit after a packet was put into a slot. -/
theorem frame_writeSlot {s : State} (hs : Consistent b s) (packet : List Byte) (buffer : Addr)
    (hbuffer : buffer ≠ null) (hpacket : packet ≠ []) (hfree : s.filling = none)
    (hsize : packet.length ≤ pageSize) :
    frame (writeSlot b s packet buffer) = Function.update (frame s) s.txCurrent packet := by
  funext i
  by_cases heq : i = s.txCurrent
  · subst heq
    have hlength : packet.length % 2 ^ 16 = packet.length := by
      unfold pageSize at hsize
      omega
    simp only [frame, writeSlot, hbuffer, hpacket, hfree, or_self, if_false, Option.isSome_none,
      Bool.false_eq_true, Function.update_self, BitVec.toNat_ofNat, hlength, hs.addr]
    apply List.ext_getElem
    · simp
    · intro k hk hk'
      simpa using memcpy_slot b s.mem s.txCurrent packet hsize k hk'
  · simp only [frame, writeSlot, hbuffer, hpacket, hfree, or_self, if_false, Option.isSome_none,
      Bool.false_eq_true, Function.update_of_ne heq, hs.addr]
    apply List.map_congr_left
    intro k hk
    have hlength := hs.length i
    exact memcpy_other b s.mem s.txCurrent i packet hsize heq k
      (by have hbelow := List.mem_range.mp hk; omega)

theorem initial_consistent (mem : Addr → Byte) : Consistent b (txinit b mem) :=
  ⟨rfl, fun _ => rfl, fun _ => Nat.zero_le _, by simp [txinit], by simp [txinit]⟩

theorem initial_safe (mem : Addr → Byte) : Safe (txinit b mem) :=
  ⟨by simp [txinit], fun _ h => nomatch h⟩

/-- The slot at the tail is not among those that the NIC has still to transmit. -/
theorem free_of_consistent {s : State} (hs : Consistent b s) (hfree : s.filling = none) :
    (!s.used s.txCurrent || (s.txDescs s.txCurrent).done) = true := by
  cases hused : s.used s.txCurrent with
  | false => rfl
  | true =>
    rcases hs.done _ hused with ⟨hbusy, -⟩ | hpending | hdone
    · simp [hfree] at hbusy
    · simp [State.outstanding, hs.tail] at hpending
    · simp [hdone]

/-- A write to a slot is safe exactly when the packet fits into the page. -/
theorem writeSlot_safe_iff (s : State) (packet : List Byte) (buffer : Addr)
    (hc : Consistent b s) (hs : Safe s) :
    Safe (writeSlot b s packet buffer) ↔ Meets s (.writeSlot packet buffer) := by
  simp only [Meets]
  by_cases hnothing : buffer = null ∨ packet = []
  · have hsame : writeSlot b s packet buffer = s := by simp [writeSlot, hnothing]
    rw [hsame]
    exact ⟨fun _ => by tauto, fun _ => hs⟩
  by_cases hbusy : s.filling.isSome
  · have hsame : writeSlot b s packet buffer = s := by simp [writeSlot, hbusy]
    rw [hsame]
    exact ⟨fun _ => by tauto, fun _ => hs⟩
  obtain ⟨hbuffer, hpacket⟩ := not_or.mp hnothing
  have hfree : s.filling = none := by simpa using hbusy
  have hrewrites : (writeSlot b s packet buffer).rewrites = ⟨s.txCurrent, packet.length,
      !s.used s.txCurrent || (s.txDescs s.txCurrent).done⟩ :: s.rewrites := by
    simp [writeSlot, hbuffer, hpacket, hfree]
  constructor
  · intro hafter
    have hlast := hafter.rewrites _ (by rw [hrewrites]; exact List.mem_cons_self)
    exact .inr (.inr (.inr hlast.2))
  · intro hmeets
    have hsize : packet.length ≤ pageSize := by simpa [hbuffer, hpacket, hfree] using hmeets
    refine ⟨?_, ?_⟩
    · rw [frame_writeSlot b hc packet buffer hbuffer hpacket hfree hsize]
      have hring : pending (Function.update (frame s) s.txCurrent packet) s.head s.tail =
          pending (frame s) s.head s.tail :=
        segment_update (frame s) s.head s.txCurrent packet _ (by simp [hc.tail])
      simpa [writeSlot, hbuffer, hpacket, hfree, hring] using hs.stream
    · intro r hr
      rw [hrewrites] at hr
      rcases List.mem_cons.mp hr with rfl | hold
      · exact ⟨free_of_consistent b hc hfree, hsize⟩
      · exact hs.rewrites r hold

/-- A packet is in the ring exactly when a slot is left beside it. -/
theorem advanceTail_safe_iff (s : State) (hc : Consistent b s) (hs : Safe s) :
    Safe (advanceTail s) ↔ Meets s .advanceTail := by
  simp only [Meets]
  cases hfilling : s.filling with
  | none => simpa [advanceTail, hfilling] using hs
  | some packet =>
    have hframe := hc.filling packet hfilling
    have hsame : frame (advanceTail s) = frame s := by
      funext i
      simp [frame, advanceTail, hfilling]
    have hstream := hs.stream
    simp only [reduceCtorEq, false_or]
    constructor
    · intro hafter
      by_contra hfull
      have hlt := distance_lt s.head s.tail
      have hlast : distance s.head s.tail + 1 = numTxDesc := by
        unfold State.outstanding at hfull
        omega
      have hlost := congrArg List.length hafter.stream
      have hmeet := next_eq_of_full s.head s.tail hlast
      simp only [hsame] at hlost
      simp only [advanceTail, hfilling, ← hc.tail, hmeet, hstream, pending_self] at hlost
      simp at hlost
    · intro hroom
      have hpush := pending_push (frame s) s.head s.tail packet hroom
      have hslot : Function.update (frame s) s.tail packet = frame s := by
        rw [← hframe, Function.update_eq_self]
      rw [hslot] at hpush
      refine ⟨?_, ?_⟩
      · rw [hsame]
        simp [advanceTail, hfilling, ← hc.tail, hpush, hstream]
      · simpa [advanceTail, hfilling] using hs.rewrites

theorem frame_complete (s : State) : frame (complete s) = frame s := by
  funext i
  unfold complete
  split_ifs with hidle
  · rfl
  · by_cases heq : i = s.head
    · simp [frame, heq]
    · simp [frame, Function.update_of_ne heq]

/-- The NIC transmits the packet that was accepted before the others. -/
theorem complete_safe (s : State) (hs : Safe s) : Safe (complete s) := by
  have hsame := frame_complete s
  by_cases hidle : s.head = s.tail
  · simpa [complete, hidle] using hs
  · have hpop := pending_pop (frame s) s.head s.tail hidle
    refine ⟨?_, ?_⟩
    · rw [hsame]
      simp [complete, hidle, hs.stream, hpop]
    · simpa [complete, hidle] using hs.rewrites

theorem step_safe_iff (s : State) (a : Action) (hc : Consistent b s) (hs : Safe s) :
    Safe (step b s a) ↔ Meets s a := by
  cases a with
  | writeSlot packet buffer => exact writeSlot_safe_iff b s packet buffer hc hs
  | advanceTail => exact advanceTail_safe_iff b s hc hs
  | complete => exact iff_of_true (complete_safe s hs) trivial

theorem writeSlot_consistent (s : State) (packet : List Byte) (buffer : Addr)
    (hc : Consistent b s) (hm : Meets s (.writeSlot packet buffer)) :
    Consistent b (writeSlot b s packet buffer) := by
  by_cases hnothing : buffer = null ∨ packet = []
  · simpa [writeSlot, hnothing] using hc
  by_cases hbusy : s.filling.isSome
  · simpa [writeSlot, hbusy] using hc
  obtain ⟨hbuffer, hpacket⟩ := not_or.mp hnothing
  have hfree : s.filling = none := by simpa using hbusy
  have hsize : packet.length ≤ pageSize := by simpa [Meets, hbuffer, hpacket, hfree] using hm
  have hframe := frame_writeSlot b hc packet buffer hbuffer hpacket hfree hsize
  refine ⟨?_, ?_, ?_, ?_, ?_⟩
  · simpa [writeSlot, hbuffer, hpacket, hfree] using hc.tail
  · intro i
    by_cases heq : i = s.txCurrent
    · simpa [writeSlot, hbuffer, hpacket, hfree, heq] using hc.addr s.txCurrent
    · simpa [writeSlot, hbuffer, hpacket, hfree, heq] using hc.addr i
  · intro i
    by_cases heq : i = s.txCurrent
    · have hmod := Nat.mod_le packet.length (2 ^ 16)
      simp only [writeSlot, hbuffer, hpacket, hfree, or_self, if_false, Option.isSome_none,
        Bool.false_eq_true, heq, Function.update_self, BitVec.toNat_ofNat]
      omega
    · simpa [writeSlot, hbuffer, hpacket, hfree, heq] using hc.length i
  · intro packet' hfilling
    have hsame : packet' = packet := by
      simpa [writeSlot, hbuffer, hpacket, hfree, eq_comm] using hfilling
    rw [hframe]
    simp [writeSlot, hbuffer, hpacket, hfree, hc.tail, hsame]
  · intro i hused
    by_cases heq : i = s.txCurrent
    · left
      simp [writeSlot, hbuffer, hpacket, hfree, heq, hc.tail]
    · right
      have hold : s.used i = true := by simpa [writeSlot, hbuffer, hpacket, hfree] using hused
      rcases hc.done i hold with ⟨hbusy', -⟩ | hrest
      · simp [hfree] at hbusy'
      · simpa [writeSlot, hbuffer, hpacket, hfree, heq, State.outstanding] using hrest

theorem advanceTail_consistent (s : State) (hc : Consistent b s) (hm : Meets s .advanceTail) :
    Consistent b (advanceTail s) := by
  cases hfilling : s.filling with
  | none => simpa [advanceTail, hfilling] using hc
  | some packet =>
    have hroom : distance s.head s.tail + 1 < numTxDesc := by
      simpa [Meets, hfilling, State.outstanding] using hm
    have hstep := distance_next_right s.head s.tail hroom
    refine ⟨?_, ?_, ?_, ?_, ?_⟩
    · simp [advanceTail, hfilling]
    · simpa [advanceTail, hfilling] using hc.addr
    · simpa [advanceTail, hfilling] using hc.length
    · simp [advanceTail, hfilling]
    · intro i hused
      right
      simp only [advanceTail, hfilling, State.outstanding, ← hc.tail] at hused ⊢
      rw [hstep]
      by_cases heq : i = s.tail
      · left
        simp [heq]
      · have hold : s.used i = true := by simpa [heq] using hused
        rcases hc.done i hold with ⟨-, hlast⟩ | hpending | hdone
        · exact absurd hlast heq
        · left
          unfold State.outstanding at hpending
          omega
        · exact .inr hdone

theorem done_or (d : TxDesc) : ({ d with status := d.status ||| statusDone } : TxDesc).done := by
  have hbit : (d.status ||| statusDone) &&& statusDone = statusDone := by
    ext i hi
    simp only [BitVec.getElem_and, BitVec.getElem_or]
    grind
  unfold TxDesc.done
  rw [hbit]
  decide

theorem complete_consistent (s : State) (hc : Consistent b s) : Consistent b (complete s) := by
  have hframe := frame_complete s
  by_cases hidle : s.head = s.tail
  · simpa [complete, hidle] using hc
  have hlast := distance_next_left s.head s.tail hidle
  refine ⟨?_, ?_, ?_, ?_, ?_⟩
  · simpa [complete, hidle] using hc.tail
  · intro i
    by_cases heq : i = s.head
    · simpa [complete, hidle, heq] using hc.addr s.head
    · simpa [complete, hidle, heq] using hc.addr i
  · intro i
    by_cases heq : i = s.head
    · simpa [complete, hidle, heq] using hc.length s.head
    · simpa [complete, hidle, heq] using hc.length i
  · intro packet hfilling
    rw [hframe]
    simpa [complete, hidle] using hc.filling packet (by simpa [complete, hidle] using hfilling)
  · intro i hused
    have hold : s.used i = true := by simpa [complete, hidle] using hused
    simp only [complete, hidle, if_false, State.outstanding]
    by_cases heq : i = s.head
    · right
      right
      simpa [heq] using done_or (s.txDescs s.head)
    · have hfirst := distance_next_left s.head i (Ne.symm heq)
      rcases hc.done i hold with hbusy | hpending | hdone
      · exact .inl hbusy
      · right
        left
        unfold State.outstanding at hpending
        omega
      · right
        right
        simpa [Function.update_of_ne heq] using hdone

theorem step_consistent (s : State) (a : Action) (hc : Consistent b s) (hm : Meets s a) :
    Consistent b (step b s a) := by
  cases a with
  | writeSlot packet buffer => exact writeSlot_consistent b s packet buffer hc hm
  | advanceTail => exact advanceTail_consistent b s hc hm
  | complete => exact complete_consistent b s hc

theorem safe_iff_allMeet (s : State) (actions : List Action) (hc : Consistent b s) (hs : Safe s) :
    (∀ s' ∈ states b s actions, Safe s') ↔ AllMeet b s actions := by
  induction actions generalizing s with
  | nil => simpa [states, AllMeet] using hs
  | cons a actions ih =>
    have hstep := step_safe_iff b s a hc hs
    have hfirst : step b s a ∈ states b (step b s a) actions := by cases actions <;> simp [states]
    simp only [states, AllMeet, List.forall_mem_cons]
    constructor
    · rintro ⟨-, hlater⟩
      have hnext := hlater _ hfirst
      have hmeets := hstep.mp hnext
      exact ⟨hmeets, (ih _ (step_consistent b s a hc hmeets) hnext).mp hlater⟩
    · rintro ⟨hmeets, hlater⟩
      have hnext := hstep.mpr hmeets
      exact ⟨hs, (ih _ (step_consistent b s a hc hmeets) hnext).mpr hlater⟩

/-- Over every run of writes and of the NIC, whatever was in memory: the ring is safe in every
state exactly when every packet fits into a page and finds a slot beside it. -/
theorem ring_safe_iff (mem : Addr → Byte) (actions : List Action) :
    (∀ s ∈ states b (txinit b mem) actions, Safe s) ↔ AllMeet b (txinit b mem) actions :=
  safe_iff_allMeet b (txinit b mem) actions (initial_consistent b mem) (initial_safe b mem)

def consecutive : Buffers where
  txVirt := fun i => BitVec.ofNat 64 (i.val * pageSize)
  translate := id
  linear := fun _ _ _ => rfl
  disjoint := by
    intro i j hne k hk l hl
    have hi := i.isLt
    have hj := j.isLt
    have hval : i.val ≠ j.val := fun h => hne (Fin.ext h)
    unfold pageSize numTxDesc at *
    simp only [id]
    bv_omega

/-- A packet of 4097 bytes is copied over the end of the page. -/
theorem long_packet_leaves_page :
    ¬ ∀ (b : Buffers) (mem : Addr → Byte) (actions : List Action),
      ∀ s ∈ states b (txinit b mem) actions, Safe s := by
  intro h
  obtain ⟨packet, hlength⟩ : ∃ packet : List Byte, packet.length = 4097 :=
    ⟨List.replicate 4097 0, List.length_replicate⟩
  have hpacket : packet ≠ [] := by
    rintro rfl
    simp at hlength
  have hsafe := (h consecutive (fun _ => 0) [.writeSlot packet 1]
    (writeSlot consecutive (txinit consecutive fun _ => 0) packet 1)
    (by simp [states, step])).rewrites ⟨⟨0, by decide⟩, packet.length, true⟩
    (by simp [writeSlot, txinit, null, hpacket])
  simp [pageSize, hlength] at hsafe

end ReduceOS.TransmitRing
