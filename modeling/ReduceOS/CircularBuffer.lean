import ReduceOS.KeyboardStream
import Mathlib.Algebra.Order.Group.Nat
import Mathlib.Data.Nat.Find
import Mathlib.Algebra.GroupWithZero.Nat

/-!
The circular buffer with its indices as they are, two `int`s beside a size of type `size_t`. An
index goes back to the start when it has come to the size, or when it overflows before that; so a
buffer acts as a ring of as many positions as there are indices up to then, which are fewer than
its size where this is more than 2^31.
-/
namespace ReduceOS.CircularBuffer

open Machine RingIndex
open KeyboardStream (Byte circbufRead_enough circbufRead_short circbufWrite_room circbufWrite_full
  contents_length)

section Source

/-- `circbuf_t`, without its name and its lock. -/
structure Circbuf where
  buffer : BitVec 64 → Byte
  bufferSize : BitVec 64
  head : CInt
  tail : CInt

def offset (i : CInt) : BitVec 64 := i.signExtend 64

/-- `circbuf_create`, in memory with anything in it behind the buffer. -/
def circbufCreate (size : BitVec 64) (memory : BitVec 64 → Byte) : Circbuf :=
  ⟨fun k => if k < size then 0 else memory k, size, 0, 0⟩

def advance (size : BitVec 64) (i : CInt) : CInt :=
  let i := i + 1
  if offset i ≥ size then 0 else i

def readLoop (c : Circbuf) : ℕ → CInt × List Byte × Circbuf
  | 0 => (0, [], c)
  | size + 1 =>
    if c.tail = c.head then (1, [], c)
    else
      let (ret, bytes, c') := readLoop { c with tail := advance c.bufferSize c.tail } size
      (ret, c.buffer (offset c.tail) :: bytes, c')

/-- `circbuf_read`: what it returns, the bytes it stores and the buffer after it. -/
def circbufRead (c : Circbuf) (size : ℕ) (buffer : Addr) : CInt × List Byte × Circbuf :=
  if buffer = null then (1, [], c) else readLoop c size

def Circbuf.put (c : Circbuf) (byte : Byte) : Circbuf :=
  { c with
    buffer := Function.update c.buffer (offset c.head) byte
    head := advance c.bufferSize c.head }

def circbufWrite (c : Circbuf) (bytes : List Byte) (buffer : Addr) : CInt × Circbuf :=
  if buffer = null then (1, c) else (0, bytes.foldl Circbuf.put c)

end Source

inductive Call
  | write (bytes : List Byte) (buffer : Addr)
  | read (size : ℕ) (buffer : Addr)

def Call.written : Call → List Byte
  | .write bytes buffer => if buffer = null then [] else bytes
  | .read _ _ => []

def Call.asked : Call → ℕ
  | .write _ _ => 0
  | .read size buffer => if buffer = null then 0 else size

def Circbuf.step (c : Circbuf) : Call → List Byte × Circbuf
  | .write bytes buffer => ([], (circbufWrite c bytes buffer).2)
  | .read size buffer => (circbufRead c size buffer).2

def Circbuf.run (c : Circbuf) : List Call → List Byte × Circbuf
  | [] => ([], c)
  | call :: calls =>
    let (bytes, c) := c.step call
    let (bytes', c) := c.run calls
    (bytes ++ bytes', c)

/-- No write makes more bytes unread than one less than the size, and no read asks for more than
are unread. -/
def Allowed (size : ℕ) (unread : ℕ) : List Call → Prop
  | [] => True
  | call :: calls => unread + call.written.length ≤ size - 1 ∧ call.asked ≤ unread ∧
      Allowed size (unread + call.written.length - call.asked) calls

def written (calls : List Call) : List Byte := calls.flatMap Call.written

def asked (calls : List Call) : ℕ := (calls.map Call.asked).sum

/-- A buffer holds bytes: a read of as many takes them and leaves it empty. -/
def Circbuf.Holds (c : Circbuf) (bytes : List Byte) : Prop :=
  ∃ c', readLoop c bytes.length = (0, bytes, c') ∧ c'.tail = c'.head

/-- Over every allowed sequence of calls on a new buffer, the bytes read are the first of those
written and the buffer holds the others. -/
def Fifo (size : BitVec 64) : Prop :=
  ∀ memory calls, Allowed size.toNat 0 calls →
    ((circbufCreate size memory).run calls).1 = (written calls).take (asked calls) ∧
      ((circbufCreate size memory).run calls).2.Holds ((written calls).drop (asked calls))

theorem written_of_ne {bytes : List Byte} {buffer : Addr} (h : buffer ≠ null) :
    (Call.write bytes buffer).written = bytes := if_neg h

theorem asked_of_ne {size : ℕ} {buffer : Addr} (h : buffer ≠ null) :
    (Call.read size buffer).asked = size := if_neg h

section Positions

variable {size : BitVec 64} {k : ℕ}

/-- The index `-1` is behind every buffer. -/
theorem exists_turn (size : BitVec 64) : ∃ k, 0 < k ∧ size ≤ offset (BitVec.ofNat 32 k) := by
  refine ⟨2 ^ 32 - 1, by decide, ?_⟩
  have hall : (offset (BitVec.ofNat 32 (2 ^ 32 - 1))).toNat = 2 ^ 64 - 1 := by decide
  rw [BitVec.le_def, hall]
  omega

def positions (size : BitVec 64) : ℕ := Nat.find (exists_turn size)

theorem positions_pos (size : BitVec 64) : 0 < positions size :=
  (Nat.find_spec (exists_turn size)).1

theorem positions_le (hk : 0 < k) (h : size ≤ offset (BitVec.ofNat 32 k)) : positions size ≤ k :=
  Nat.find_min' (exists_turn size) ⟨hk, h⟩

theorem positions_lt (size : BitVec 64) : positions size < 2 ^ 32 := by
  have hall : (offset (BitVec.ofNat 32 (2 ^ 32 - 1))).toNat = 2 ^ 64 - 1 := by decide
  have hle : positions size ≤ 2 ^ 32 - 1 := by
    refine positions_le (by decide) ?_
    rw [BitVec.le_def, hall]
    omega
  omega

theorem offset_toNat (hk : k < 2 ^ 32) :
    (offset (BitVec.ofNat 32 k)).toNat = if k < 2 ^ 31 then k else 2 ^ 64 - 2 ^ 32 + k := by
  have hmsb : (BitVec.ofNat 32 k).msb = decide (2 ^ 31 ≤ k) := by
    rw [BitVec.msb_eq_decide, BitVec.toNat_ofNat, Nat.mod_eq_of_lt hk]
  rw [offset, BitVec.toNat_signExtend, hmsb, BitVec.toNat_setWidth, BitVec.toNat_ofNat,
    Nat.mod_eq_of_lt hk]
  split_ifs <;> simp_all <;> omega

/-- There are as many positions as the size says exactly up to 2^31. -/
theorem positions_eq_iff (hsize : 0 < size.toNat) :
    positions size = size.toNat ↔ size.toNat ≤ 2 ^ 31 := by
  have hlt := positions_lt size
  obtain ⟨-, hturn⟩ := Nat.find_spec (exists_turn size)
  rw [BitVec.le_def] at hturn
  change size.toNat ≤ (offset (BitVec.ofNat 32 (positions size))).toNat at hturn
  rw [offset_toNat hlt] at hturn
  constructor
  · intro heq
    by_contra hlarge
    have hhalf : positions size ≤ 2 ^ 31 := by
      refine positions_le (by decide) ?_
      rw [BitVec.le_def, offset_toNat (by decide)]
      split_ifs <;> omega
    omega
  · intro hle
    have hupper : positions size ≤ size.toNat := by
      refine positions_le hsize ?_
      rw [BitVec.le_def, offset_toNat (by omega)]
      split_ifs <;> omega
    split_ifs at hturn <;> omega

theorem positions_lt_size (hsize : 2 ^ 31 < size.toNat) : positions size < size.toNat := by
  have hne : positions size ≠ size.toNat := by
    rw [ne_eq, positions_eq_iff (by omega)]
    omega
  have hlt := positions_lt size
  by_cases hmiddle : size.toNat ≤ 2 ^ 64 - 2 ^ 31
  · have hhalf : positions size ≤ 2 ^ 31 := by
      refine positions_le (by decide) ?_
      rw [BitVec.le_def, offset_toNat (by decide)]
      split_ifs <;> omega
    omega
  · omega

def indexOf (i : Fin (positions size)) : CInt := BitVec.ofNat 32 i.val

theorem indexOf_injective : Function.Injective (@indexOf size) := by
  intro i j h
  have hlt := positions_lt size
  have hval := congrArg BitVec.toNat h
  simp only [indexOf, BitVec.toNat_ofNat] at hval
  rw [Nat.mod_eq_of_lt (by omega), Nat.mod_eq_of_lt (by omega)] at hval
  exact Fin.ext hval

theorem offset_injective {i j : CInt} (h : offset i = offset j) : i = j := by
  have hint := congrArg BitVec.toInt h
  rw [offset, offset, BitVec.toInt_signExtend_of_le (by decide),
    BitVec.toInt_signExtend_of_le (by decide)] at hint
  exact BitVec.toInt_inj.mp hint

theorem advance_indexOf (i : Fin (positions size)) :
    advance size (indexOf i) = indexOf (next i) := by
  have hsucc : indexOf i + 1 = BitVec.ofNat 32 (i.val + 1) := by
    rw [indexOf, BitVec.ofNat_add]
    rfl
  have hnext := next_val i
  unfold advance
  dsimp only
  rw [hsucc, indexOf, hnext]
  by_cases hlast : i.val + 1 < positions size
  · have hbelow : ¬ size ≤ offset (BitVec.ofNat 32 (i.val + 1)) :=
      fun hturn => Nat.find_min (exists_turn size) hlast ⟨Nat.succ_pos _, hturn⟩
    rw [if_neg hbelow, if_pos hlast]
  · have hturn : size ≤ offset (BitVec.ofNat 32 (positions size)) :=
      (Nat.find_spec (exists_turn size)).2
    have hval : i.val + 1 = positions size := by omega
    rw [hval, if_pos hturn, if_neg (Nat.lt_irrefl _)]
    rfl

end Positions

section Ring

variable {size : BitVec 64} {c : Circbuf} {r : KeyboardStream.Circbuf (positions size)}

structure Models (c : Circbuf) (r : KeyboardStream.Circbuf (positions size)) : Prop where
  bufferSize : c.bufferSize = size
  head : c.head = indexOf r.head
  tail : c.tail = indexOf r.tail
  buffer : ∀ i, c.buffer (offset (indexOf i)) = r.buffer i

theorem Models.tail_eq_head_iff (h : Models c r) : c.tail = c.head ↔ r.tail = r.head := by
  rw [h.tail, h.head, indexOf_injective.eq_iff]

theorem Models.next (h : Models c r) :
    Models { c with tail := advance c.bufferSize c.tail }
      { r with tail := RingIndex.next r.tail } :=
  ⟨h.bufferSize, h.head, by rw [h.bufferSize, h.tail, advance_indexOf], h.buffer⟩

theorem Models.readLoop (h : Models c r) (n : ℕ) :
    (readLoop c n).1 = (KeyboardStream.circbufRead r n).1 ∧
      (CircularBuffer.readLoop c n).2.1 = (KeyboardStream.circbufRead r n).2.1 ∧
      Models (CircularBuffer.readLoop c n).2.2 (KeyboardStream.circbufRead r n).2.2 := by
  induction n generalizing c r with
  | zero => exact ⟨rfl, rfl, h⟩
  | succ n ih =>
    rw [CircularBuffer.readLoop, KeyboardStream.circbufRead]
    by_cases heq : c.tail = c.head
    · rw [if_pos heq, if_pos (h.tail_eq_head_iff.mp heq)]
      exact ⟨rfl, rfl, h⟩
    · rw [if_neg heq, if_neg (mt h.tail_eq_head_iff.mpr heq)]
      obtain ⟨hret, hbytes, hmodels⟩ := ih h.next
      refine ⟨hret, ?_, hmodels⟩
      change _ :: _ = _ :: _
      rw [hbytes, h.tail, h.buffer]

theorem Models.put (h : Models c r) (byte : Byte) : Models (c.put byte) (r.put byte) where
  bufferSize := h.bufferSize
  head := by
    change advance c.bufferSize c.head = _
    rw [h.bufferSize, h.head, advance_indexOf]
    rfl
  tail := h.tail
  buffer i := by
    simp only [Circbuf.put, KeyboardStream.Circbuf.put, Function.update_apply, h.head]
    by_cases hi : i = r.head
    · rw [hi, if_pos rfl, if_pos rfl]
    · rw [if_neg (fun heq => hi (indexOf_injective (offset_injective heq))), if_neg hi, h.buffer]

theorem Models.write (h : Models c r) (bytes : List Byte) :
    Models (bytes.foldl Circbuf.put c) (KeyboardStream.circbufWrite r bytes).2 := by
  unfold KeyboardStream.circbufWrite
  induction bytes generalizing c r with
  | nil => exact h
  | cons byte bytes ih => exact ih (h.put byte)

theorem Models.holds (h : Models c r) : c.Holds r.contents := by
  obtain ⟨hret, hbytes, hmodels⟩ := h.readLoop r.unread
  obtain ⟨r', hread, hrest⟩ := circbufRead_enough r r.unread (Nat.le_refl _)
  rw [hread] at hret hbytes hmodels
  simp only [← contents_length r, List.take_length] at hbytes
  rw [contents_length] at hbytes
  refine ⟨(CircularBuffer.readLoop c r.unread).2.2, ?_, ?_⟩
  · rw [contents_length]
    exact Prod.ext hret (Prod.ext hbytes rfl)
  · have hempty := congrArg List.length hrest
    rw [contents_length, List.length_drop, contents_length, Nat.sub_self] at hempty
    exact hmodels.tail_eq_head_iff.mpr ((distance_eq_zero_iff _ _).mp hempty)

theorem exists_models_create (size : BitVec 64) (memory : BitVec 64 → Byte) :
    ∃ r : KeyboardStream.Circbuf (positions size),
      Models (circbufCreate size memory) r ∧ r.contents = [] := by
  let start : Fin (positions size) := ⟨0, positions_pos size⟩
  refine ⟨⟨fun i => (circbufCreate size memory).buffer (offset (indexOf i)), start, start⟩,
    ⟨rfl, rfl, rfl, fun _ => rfl⟩, ?_⟩
  exact pending_self _ _

end Ring

section Runs

variable {size : BitVec 64} {c : Circbuf} {r : KeyboardStream.Circbuf (positions size)}

/-- One allowed call: it returns the first of the unread bytes, and the others stay, with those
that are written behind them. -/
theorem Models.step (h : Models c r) (call : Call)
    (hroom : r.unread + call.written.length < positions size) (hasked : call.asked ≤ r.unread) :
    (c.step call).1 = r.contents.take call.asked ∧
      ∃ r' : KeyboardStream.Circbuf (positions size), Models (c.step call).2 r' ∧
        r'.contents = (r.contents ++ call.written).drop call.asked := by
  cases call with
  | write bytes buffer =>
    simp only [Circbuf.step, circbufWrite, Call.written, Call.asked] at hroom ⊢
    by_cases hnull : buffer = null
    · rw [if_pos hnull, if_pos hnull]
      exact ⟨rfl, r, h, by simp⟩
    · rw [if_neg hnull] at hroom
      rw [if_neg hnull, if_neg hnull]
      exact ⟨rfl, _, h.write bytes, circbufWrite_room r bytes hroom⟩
  | read n buffer =>
    simp only [Circbuf.step, CircularBuffer.circbufRead, Call.written, Call.asked] at hasked ⊢
    by_cases hnull : buffer = null
    · rw [if_pos hnull, if_pos hnull]
      exact ⟨rfl, r, h, by simp⟩
    · rw [if_neg hnull] at hasked
      rw [if_neg hnull, if_neg hnull]
      obtain ⟨-, hbytes, hmodels⟩ := h.readLoop n
      obtain ⟨r', hread, hrest⟩ := circbufRead_enough r n hasked
      rw [hread] at hbytes hmodels
      exact ⟨hbytes, r', hmodels, by rw [hrest, List.append_nil]⟩

/-- Runs, by induction: what a step leaves is what the rest of the run starts from. -/
theorem Models.run (h : Models c r) (hpositions : positions size = size.toNat)
    {calls : List Call} (hcalls : Allowed size.toNat r.unread calls) :
    (c.run calls).1 = (r.contents ++ written calls).take (asked calls) ∧
      (c.run calls).2.Holds ((r.contents ++ written calls).drop (asked calls)) := by
  induction calls generalizing c r with
  | nil => exact ⟨rfl, by simpa [written, asked, Circbuf.run] using h.holds⟩
  | cons call calls ih =>
    obtain ⟨hroom, hasked, hrest⟩ := hcalls
    have hpos := positions_pos size
    obtain ⟨hbytes, r', h', hcontents⟩ := h.step call (by omega) hasked
    have hunread : r'.unread = r.unread + call.written.length - call.asked := by
      rw [← contents_length, hcontents, List.length_drop, List.length_append, contents_length]
    rw [← hunread] at hrest
    obtain ⟨hrun, hholds⟩ := ih h' hrest
    have hle : call.asked ≤ r.contents.length := by rwa [contents_length]
    have hwritten : written (call :: calls) = call.written ++ written calls := rfl
    have hsum : asked (call :: calls) = call.asked + asked calls := rfl
    have hsplit : r.contents ++ written (call :: calls) =
        r.contents.take call.asked ++ (r'.contents ++ written calls) := by
      rw [hwritten, hcontents, ← List.append_assoc, ← List.append_assoc,
        List.drop_append_of_le_length hle, ← List.append_assoc, List.take_append_drop]
    have hlength : (r.contents.take call.asked).length = call.asked :=
      List.length_take_of_le hle
    rw [hsplit, hsum]
    generalize r.contents.take call.asked = first at hbytes hlength
    rw [← hlength]
    constructor
    · rw [List.take_length_add_append, ← hrun, ← hbytes]
      rfl
    · rw [List.drop_length_add_append]
      exact hholds

end Runs

/-- A buffer of more than 2^31 bytes looks empty when as many are in it as there are indices. -/
theorem not_fifo_of_large {size : BitVec 64} (hsize : 2 ^ 31 < size.toNat) : ¬ Fifo size := by
  intro h
  obtain ⟨r, hmodels, hempty⟩ := exists_models_create size fun _ => 0
  have hpos := positions_pos size
  have hlt := positions_lt_size hsize
  have hunread : r.unread = 0 := by rw [← contents_length, hempty, List.length_nil]
  let bytes : List Byte := List.replicate (positions size) 0
  have hlength : bytes.length = positions size := List.length_replicate
  have hwritten : Call.written (.write bytes 1) = bytes := written_of_ne (by decide)
  have hasked : Call.asked (.read 1 1) = 1 := asked_of_ne (by decide)
  have hallowed : Allowed size.toNat 0 [.write bytes 1, .read 1 1] := by
    refine ⟨?_, Nat.zero_le _, ?_, ?_, trivial⟩
    · rw [hwritten]
      omega
    · change 0 + (Call.written (.write bytes 1)).length - 0 + 0 ≤ _
      rw [hwritten]
      omega
    · rw [hasked, hwritten]
      change 1 ≤ 0 + bytes.length - 0
      omega
  have hfirst := (h (fun _ => 0) _ hallowed).1
  have hfull := circbufWrite_full r bytes (List.ne_nil_of_length_pos (by omega)) (by omega)
  obtain ⟨-, hread, -⟩ := (hmodels.write bytes).readLoop 1
  have hnone : (KeyboardStream.circbufRead (KeyboardStream.circbufWrite r bytes).2 1).2.1 = [] := by
    rw [KeyboardStream.circbufRead, if_pos ((distance_eq_zero_iff _ _).mp hfull)]
  have hrun : ((circbufCreate size fun _ => 0).run [.write bytes 1, .read 1 1]).1 = [] := by
    change [] ++ ((readLoop _ 1).2.1 ++ []) = []
    rw [List.nil_append, List.append_nil]
    exact hread.trans hnone
  have hall : written [.write bytes 1, .read 1 1] = bytes := by
    change Call.written (.write bytes 1) ++ ([] ++ []) = _
    rw [hwritten, List.append_nil, List.append_nil]
  have hone : asked [.write bytes 1, .read 1 1] = 1 := hasked
  rw [hrun, hall, hone] at hfirst
  have hcount := congrArg List.length hfirst
  rw [List.length_nil, List.length_take, hlength] at hcount
  omega

/-- A buffer of at least two bytes is a queue exactly up to 2^31 of them. -/
theorem fifo_iff {size : BitVec 64} (hsize : 2 ≤ size) : Fifo size ↔ size.toNat ≤ 2 ^ 31 := by
  constructor
  · intro h
    by_contra hlarge
    exact not_fifo_of_large (by omega) h
  · intro hle memory calls hcalls
    have htwo : 2 ≤ size.toNat := hsize
    obtain ⟨r, hmodels, hempty⟩ := exists_models_create size memory
    have hunread : r.unread = 0 := by rw [← contents_length, hempty, List.length_nil]
    rw [← hunread] at hcalls
    have hrun := hmodels.run ((positions_eq_iff (by omega)).mpr hle) hcalls
    rwa [hempty, List.nil_append] at hrun

/-- The buffer of the keyboard. -/
theorem fifo_of_keyboard : Fifo 0x1000 := (fifo_iff (by decide)).mpr (by decide)

/-- A buffer of one byte more than 2^31. -/
theorem not_fifo_above : ¬ Fifo 0x80000001 := not_fifo_of_large (by decide)

end ReduceOS.CircularBuffer
