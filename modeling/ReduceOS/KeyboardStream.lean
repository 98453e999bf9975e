import ReduceOS.Machine
import ReduceOS.RingIndex
import Mathlib.Tactic.SplitIfs

/-!
The stream of key events. The keyboard driver writes each event to a circular buffer,
and the devices `keyboard` and `stdin` read the buffer. Writing never looks whether an event
is still unread, and a read that finds too few bytes has taken those there were.
-/
namespace ReduceOS.KeyboardStream

open Machine RingIndex

abbrev Byte := BitVec 8

section Source

/-- `circbuf_t`: `buffer_size` is the number of positions. -/
structure Circbuf (size : ℕ) where
  buffer : Fin size → Byte
  head : Fin size
  tail : Fin size

variable {n : ℕ}

/-- `circbuf_read`: what it returns, the bytes it stores and the buffer after it. -/
def circbufRead (c : Circbuf n) : ℕ → CInt × List Byte × Circbuf n
  | 0 => (0, [], c)
  | size + 1 =>
    if c.tail = c.head then (1, [], c)
    else
      let (ret, bytes, c') := circbufRead { c with tail := next c.tail } size
      (ret, c.buffer c.tail :: bytes, c')

def Circbuf.put (c : Circbuf n) (byte : Byte) : Circbuf n :=
  { c with buffer := Function.update c.buffer c.head byte, head := next c.head }

def circbufWrite (c : Circbuf n) (bytes : List Byte) : CInt × Circbuf n :=
  (0, bytes.foldl Circbuf.put c)

def keyEventSize : ℕ := 8

/-- The bytes of a `key_event_t`; nothing is stored in the three bytes behind the scancode. -/
def keyEvent (eventType : CInt) (scancode : Byte) (padding : BitVec 24) : List Byte :=
  [eventType.extractLsb' 0 8, eventType.extractLsb' 8 8, eventType.extractLsb' 16 8,
    eventType.extractLsb' 24 8, scancode, padding.extractLsb' 0 8, padding.extractLsb' 8 8,
    padding.extractLsb' 16 8]

def eventTypeOf (event : List Byte) : CInt :=
  event.getD 3 0 ++ event.getD 2 0 ++ event.getD 1 0 ++ event.getD 0 0

def scancodeOf (event : List Byte) : Byte := event.getD 4 0

def eventKeyPress : CInt := 1

inductive Device
  | keyboard
  | stdin
  deriving DecidableEq

/-- A call of `keyboard_read` for so many bytes, or of `stdin_read` with so many characters
still to come. -/
inductive Call
  | keyboard (size : ℕ)
  | stdin (left : ℕ)
  deriving DecidableEq

/-- A successful `circbuf_read`: the bytes it took and those that the caller of the device gets
for them. -/
structure Delivery where
  reader : ℕ
  device : Device
  bytes : List Byte
  stored : List Byte

/-- The buffer and the calls that have not returned, and beside them the bytes of the events
that were sent and the reads that succeeded. -/
structure State where
  buf : Circbuf (keyEventSize * 512)
  calls : ℕ → Option Call
  sent : List Byte
  delivered : List Delivery

def initial : State :=
  ⟨⟨fun _ => 0, ⟨0, by decide⟩, ⟨0, by decide⟩⟩, fun _ => none, [], []⟩

def sendKeyboardEvent (s : State) (eventType : CInt) (scancode : Byte) (padding : BitVec 24) :
    CInt × State :=
  let event := keyEvent eventType scancode padding
  (0, { s with buf := (circbufWrite s.buf event).2, sent := s.sent ++ event })

/-- The checks of `keyboard_read`; where they fail it returns 0 at once. -/
def keyboardRead (s : State) (reader size : ℕ) (buffer : Addr) : State :=
  if size = 0 ∨ buffer = null then s
  else if size % keyEventSize ≠ 0 then s
  else { s with calls := Function.update s.calls reader (some (.keyboard size)) }

def stdinRead (s : State) (reader size : ℕ) (buffer : Addr) : State :=
  if size = 0 ∨ buffer = null then s
  else { s with calls := Function.update s.calls reader (some (.stdin size)) }

/-- The next `circbuf_read` of `keyboard_read`. It is made anew for all the bytes when it fails. -/
def keyboardAttempt (s : State) (reader size : ℕ) : State :=
  let (ret, bytes, buf) := circbufRead s.buf size
  if ret ≠ 0 then { s with buf }
  else
    { s with
      buf
      calls := Function.update s.calls reader none
      delivered := s.delivered ++ [⟨reader, .keyboard, bytes, bytes⟩] }

/-- The next `circbuf_read` of `stdin_read`. Only the scancode of a key press is stored. -/
def stdinAttempt (s : State) (reader left : ℕ) : State :=
  let (ret, bytes, buf) := circbufRead s.buf keyEventSize
  if ret ≠ 0 then { s with buf }
  else if eventTypeOf bytes ≠ eventKeyPress then
    { s with buf, delivered := s.delivered ++ [⟨reader, .stdin, bytes, []⟩] }
  else
    { s with
      buf
      calls := Function.update s.calls reader (if left = 1 then none else some (.stdin (left - 1)))
      delivered := s.delivered ++ [⟨reader, .stdin, bytes, [scancodeOf bytes]⟩] }

inductive Action
  | send (eventType : CInt) (scancode : Byte) (padding : BitVec 24)
  | keyboardRead (reader size : ℕ) (buffer : Addr)
  | stdinRead (reader size : ℕ) (buffer : Addr)
  | attempt (reader : ℕ)

/-- `circbuf_read` and `circbuf_write` hold the lock of the buffer, so that calls of them come
one after the other. A reader calls once more whenever its last call failed. -/
def step (s : State) : Action → State
  | .send eventType scancode padding => (sendKeyboardEvent s eventType scancode padding).2
  | .keyboardRead reader size buffer =>
    if s.calls reader = none then keyboardRead s reader size buffer else s
  | .stdinRead reader size buffer =>
    if s.calls reader = none then stdinRead s reader size buffer else s
  | .attempt reader =>
    match s.calls reader with
    | none => s
    | some (.keyboard size) => keyboardAttempt s reader size
    | some (.stdin left) => stdinAttempt s reader left

end Source

variable {n : ℕ}

def Circbuf.unread (c : Circbuf n) : ℕ := distance c.tail c.head

def Circbuf.contents (c : Circbuf n) : List Byte := pending c.buffer c.tail c.head

@[simp] theorem contents_length (c : Circbuf n) : c.contents.length = c.unread :=
  pending_length ..

theorem unread_lt (c : Circbuf n) : c.unread < n := distance_lt ..

theorem contents_eq_nil {c : Circbuf n} (h : c.unread = 0) : c.contents = [] :=
  List.length_eq_zero_iff.mp (by simpa using h)

theorem contents_cons {c : Circbuf n} (h : c.tail ≠ c.head) :
    c.contents = c.buffer c.tail :: Circbuf.contents { c with tail := next c.tail } :=
  pending_pop c.buffer c.tail c.head h

theorem unread_succ {c : Circbuf n} (h : c.tail ≠ c.head) :
    c.unread = Circbuf.unread { c with tail := next c.tail } + 1 :=
  distance_next_left c.tail c.head h

/-- With enough bytes unread, a read takes the first of them. -/
theorem circbufRead_enough (c : Circbuf n) (size : ℕ) (h : size ≤ c.unread) :
    ∃ c', circbufRead c size = (0, c.contents.take size, c') ∧
      c'.contents = c.contents.drop size := by
  induction size generalizing c with
  | zero => exact ⟨c, by simp [circbufRead], by simp⟩
  | succ size ih =>
    have hne : c.tail ≠ c.head := by
      intro heq
      simp [Circbuf.unread, heq] at h
    have hcount := unread_succ hne
    obtain ⟨c', hread, hrest⟩ := ih { c with tail := next c.tail } (by omega)
    refine ⟨c', ?_, ?_⟩
    · simp [circbufRead, hne, hread, contents_cons hne]
    · simp [hrest, contents_cons hne]

/-- With too few bytes unread, a read fails and none of them is left. -/
theorem circbufRead_short (c : Circbuf n) (size : ℕ) (h : c.unread < size) :
    ∃ bytes c', circbufRead c size = (1, bytes, c') ∧ c'.unread = 0 := by
  induction size generalizing c with
  | zero => omega
  | succ size ih =>
    by_cases heq : c.tail = c.head
    · exact ⟨[], c, by simp [circbufRead, heq], by simp [Circbuf.unread, heq]⟩
    · have hcount := unread_succ heq
      obtain ⟨bytes, c', hread, hempty⟩ := ih { c with tail := next c.tail } (by omega)
      exact ⟨c.buffer c.tail :: bytes, c', by simp [circbufRead, heq, hread], hempty⟩

/-- A byte for which there is room comes behind the unread ones. -/
theorem contents_put (c : Circbuf n) (byte : Byte) (h : c.unread + 1 < n) :
    (c.put byte).contents = c.contents ++ [byte] :=
  pending_push c.buffer c.tail c.head byte h

theorem unread_put (c : Circbuf n) (byte : Byte) (h : c.unread + 1 < n) :
    (c.put byte).unread = c.unread + 1 :=
  distance_next_right c.tail c.head h

/-- The byte that fills the buffer makes it look empty. -/
theorem unread_put_of_full (c : Circbuf n) (byte : Byte) (h : c.unread + 1 = n) :
    (c.put byte).unread = 0 := by
  have hfull := next_eq_of_full c.tail c.head h
  simp [Circbuf.unread, Circbuf.put, hfull]

theorem circbufWrite_room (c : Circbuf n) (bytes : List Byte) (h : c.unread + bytes.length < n) :
    (circbufWrite c bytes).2.contents = c.contents ++ bytes := by
  unfold circbufWrite
  induction bytes generalizing c with
  | nil => simp
  | cons byte bytes ih =>
    simp only [List.length_cons] at h
    have hput := unread_put c byte (by omega)
    have hrest := ih (c.put byte) (by omega)
    simp only [List.foldl_cons] at hrest ⊢
    rw [hrest, contents_put c byte (by omega)]
    simp

theorem circbufWrite_full (c : Circbuf n) (bytes : List Byte) (hne : bytes ≠ [])
    (h : c.unread + bytes.length = n) : (circbufWrite c bytes).2.unread = 0 := by
  unfold circbufWrite
  induction bytes generalizing c with
  | nil => contradiction
  | cons byte bytes ih =>
    simp only [List.length_cons] at h
    by_cases hlast : bytes = []
    · subst hlast
      exact unread_put_of_full c byte (by simpa using h)
    · have hpos := List.length_pos_iff.mpr hlast
      have hput := unread_put c byte (by omega)
      exact ih (c.put byte) hlast (by omega)

@[simp] theorem keyEvent_length (eventType : CInt) (scancode : Byte) (padding : BitVec 24) :
    (keyEvent eventType scancode padding).length = keyEventSize := rfl

/-- What the caller of a device gets for an event: all of it from the keyboard, the scancode of
a key press from `stdin`. -/
def Delivery.Faithful (d : Delivery) : Prop :=
  match d.device with
  | .keyboard => d.stored = d.bytes
  | .stdin =>
    d.stored = if eventTypeOf d.bytes = eventKeyPress then [scancodeOf d.bytes] else []

/-- Every byte that was sent is delivered once and in order, or it is still unread. -/
structure Intact (s : State) : Prop where
  stream : s.sent = s.delivered.flatMap Delivery.bytes ++ s.buf.contents
  faithful : ∀ d ∈ s.delivered, d.Faithful

/-- Whole events are unread, and `keyboard_read` asks for whole events. -/
structure Aligned (s : State) : Prop where
  unread : s.buf.unread % keyEventSize = 0
  size : ∀ reader size, s.calls reader = some (.keyboard size) → size % keyEventSize = 0

/-- An event is sent when there is room for it, and `keyboard_read` looks for its events when
they are all there or none is. -/
def Meets (s : State) : Action → Prop
  | .send .. => s.buf.unread + keyEventSize < keyEventSize * 512
  | .attempt reader =>
    match s.calls reader with
    | some (.keyboard size) => s.buf.unread = 0 ∨ size ≤ s.buf.unread
    | _ => True
  | _ => True

def states (s : State) : List Action → List State
  | [] => [s]
  | a :: actions => s :: states (step s a) actions

def AllMeet (s : State) : List Action → Prop
  | [] => True
  | a :: actions => Meets s a ∧ AllMeet (step s a) actions

theorem initial_aligned : Aligned initial := ⟨rfl, fun _ _ h => nomatch h⟩

theorem initial_intact : Intact initial := ⟨rfl, fun _ h => nomatch h⟩

theorem circbufRead_aligned (c : Circbuf n) (size : ℕ) (hc : c.unread % keyEventSize = 0)
    (hsize : size % keyEventSize = 0) :
    (circbufRead c size).2.2.unread % keyEventSize = 0 := by
  rcases Nat.lt_or_ge c.unread size with hshort | henough
  · obtain ⟨bytes, c', hread, hempty⟩ := circbufRead_short c size hshort
    simp [hread, hempty]
  · obtain ⟨c', hread, hrest⟩ := circbufRead_enough c size henough
    have hlength := congrArg List.length hrest
    simp only [contents_length, List.length_drop] at hlength
    simp only [hread, hlength]
    unfold keyEventSize at *
    omega

theorem send_aligned (s : State) (eventType : CInt) (scancode : Byte) (padding : BitVec 24)
    (hs : Aligned s) : Aligned (sendKeyboardEvent s eventType scancode padding).2 := by
  refine ⟨?_, hs.size⟩
  have hlength := keyEvent_length eventType scancode padding
  have hunread := hs.unread
  have hlt := unread_lt s.buf
  change (circbufWrite s.buf (keyEvent eventType scancode padding)).2.unread % keyEventSize = 0
  by_cases hroom : s.buf.unread + keyEventSize < keyEventSize * 512
  · have hwrite := congrArg List.length
      (circbufWrite_room s.buf (keyEvent eventType scancode padding) (by omega))
    simp only [contents_length, List.length_append, hlength] at hwrite
    unfold keyEventSize at *
    omega
  · have hfull := circbufWrite_full s.buf (keyEvent eventType scancode padding) (by simp [keyEvent])
      (by unfold keyEventSize at *; omega)
    simp [hfull]

theorem keyboardRead_aligned (s : State) (reader size : ℕ) (buffer : Addr) (hs : Aligned s) :
    Aligned (keyboardRead s reader size buffer) := by
  unfold keyboardRead
  split_ifs with hnone hsize
  · exact hs
  · exact hs
  · refine ⟨hs.unread, ?_⟩
    intro other size' hcall
    by_cases heq : other = reader
    · simp only [heq, Function.update_self, Option.some.injEq, Call.keyboard.injEq] at hcall
      simpa [← hcall] using hsize
    · exact hs.size other size' (by simpa [heq] using hcall)

/-- A call other than of the keyboard does not change what the calls of the keyboard ask for. -/
theorem Aligned.updateCall {s : State} (hs : Aligned s) (reader : ℕ) (call : Option Call)
    (hcall : ∀ size, call ≠ some (.keyboard size)) (buf : Circbuf (keyEventSize * 512))
    (hbuf : buf.unread % keyEventSize = 0) (sent : List Byte) (delivered : List Delivery) :
    Aligned ⟨buf, Function.update s.calls reader call, sent, delivered⟩ := by
  refine ⟨hbuf, ?_⟩
  intro other size h
  by_cases heq : other = reader
  · simp only [heq, Function.update_self] at h
    exact absurd h (hcall size)
  · exact hs.size other size (by simpa [heq] using h)

theorem stdinRead_aligned (s : State) (reader size : ℕ) (buffer : Addr) (hs : Aligned s) :
    Aligned (stdinRead s reader size buffer) := by
  unfold stdinRead
  split_ifs
  · exact hs
  · exact hs.updateCall reader _ (by simp) s.buf hs.unread s.sent s.delivered

theorem keyboardAttempt_aligned (s : State) (reader size : ℕ) (hs : Aligned s)
    (hsize : size % keyEventSize = 0) : Aligned (keyboardAttempt s reader size) := by
  have hbuf := circbufRead_aligned s.buf size hs.unread hsize
  unfold keyboardAttempt
  dsimp only
  split_ifs
  · exact ⟨hbuf, hs.size⟩
  · exact hs.updateCall reader none (by simp) _ hbuf s.sent _

theorem stdinAttempt_aligned (s : State) (reader left : ℕ) (hs : Aligned s) :
    Aligned (stdinAttempt s reader left) := by
  have hbuf := circbufRead_aligned s.buf keyEventSize hs.unread rfl
  unfold stdinAttempt
  dsimp only
  split_ifs with hfailed hpress hlast
  · exact ⟨hbuf, hs.size⟩
  · exact ⟨hbuf, hs.size⟩
  · exact hs.updateCall reader none (by simp) _ hbuf s.sent _
  · exact hs.updateCall reader _ (by simp) _ hbuf s.sent _

theorem step_aligned (s : State) (a : Action) (hs : Aligned s) : Aligned (step s a) := by
  cases a with
  | send eventType scancode padding => exact send_aligned s eventType scancode padding hs
  | keyboardRead reader size buffer =>
    simp only [step]
    split_ifs
    · exact keyboardRead_aligned s reader size buffer hs
    · exact hs
  | stdinRead reader size buffer =>
    simp only [step]
    split_ifs
    · exact stdinRead_aligned s reader size buffer hs
    · exact hs
  | attempt reader =>
    simp only [step]
    split
    · exact hs
    · next size hcall => exact keyboardAttempt_aligned s reader size hs (hs.size reader size hcall)
    · exact stdinAttempt_aligned s reader _ hs

/-- An event that was sent is unread behind the others exactly when there was room for it. -/
theorem send_intact_iff (s : State) (eventType : CInt) (scancode : Byte) (padding : BitVec 24)
    (ha : Aligned s) (hi : Intact s) :
    Intact (sendKeyboardEvent s eventType scancode padding).2 ↔
      s.buf.unread + keyEventSize < keyEventSize * 512 := by
  have hlength := keyEvent_length eventType scancode padding
  have hstream := congrArg List.length hi.stream
  simp only [List.length_append, contents_length] at hstream
  constructor
  · intro hafter
    by_contra hroom
    have hunread := ha.unread
    have hlt := unread_lt s.buf
    have hfull := circbufWrite_full s.buf (keyEvent eventType scancode padding)
      (by simp [keyEvent]) (by unfold keyEventSize at *; omega)
    have hlost := congrArg List.length hafter.stream
    simp only [sendKeyboardEvent, List.length_append, contents_length, hfull, hlength] at hlost
    unfold keyEventSize at *
    omega
  · intro hroom
    refine ⟨?_, hi.faithful⟩
    have hwrite := circbufWrite_room s.buf (keyEvent eventType scancode padding) (by omega)
    simp only [sendKeyboardEvent, hwrite, hi.stream, List.append_assoc]

theorem short_intact_iff (s : State) (size : ℕ) (hi : Intact s) (hshort : s.buf.unread < size) :
    Intact { s with buf := (circbufRead s.buf size).2.2 } ↔ s.buf.unread = 0 := by
  obtain ⟨bytes, c', hread, hempty⟩ := circbufRead_short s.buf size hshort
  have hstream := hi.stream
  constructor
  · intro hafter
    have hlost := hafter.stream
    simp only [hread, contents_eq_nil hempty, hstream] at hlost
    have hlength := congrArg List.length hlost
    simpa using hlength
  · intro hnone
    refine ⟨?_, hi.faithful⟩
    simp only [hread, contents_eq_nil hempty]
    simpa [contents_eq_nil hnone] using hstream

/-- A read that succeeds delivers the oldest of the unread bytes. -/
theorem Intact.deliver {s : State} (hi : Intact s) (d : Delivery)
    (c' : Circbuf (keyEventSize * 512))
    (calls : ℕ → Option Call) (hd : d.Faithful) (hbytes : d.bytes ++ c'.contents = s.buf.contents) :
    Intact ⟨c', calls, s.sent, s.delivered ++ [d]⟩ := by
  refine ⟨?_, ?_⟩
  · simp [hi.stream, ← hbytes]
  · intro d' hd'
    rcases List.mem_append.mp hd' with hold | hnew
    · exact hi.faithful d' hold
    · simpa [List.mem_singleton.mp hnew] using hd

theorem keyboardAttempt_intact_iff (s : State) (reader size : ℕ) (hi : Intact s) :
    Intact (keyboardAttempt s reader size) ↔ s.buf.unread = 0 ∨ size ≤ s.buf.unread := by
  rcases Nat.lt_or_ge s.buf.unread size with hshort | henough
  · have hiff := short_intact_iff s size hi hshort
    obtain ⟨bytes, c', hread, -⟩ := circbufRead_short s.buf size hshort
    simp only [hread] at hiff
    simp only [keyboardAttempt, hread]
    simpa [Nat.not_le.mpr hshort] using hiff
  · obtain ⟨c', hread, hrest⟩ := circbufRead_enough s.buf size henough
    have hafter := hi.deliver ⟨reader, .keyboard, s.buf.contents.take size,
      s.buf.contents.take size⟩ c' (Function.update s.calls reader none) rfl (by simp [hrest])
    simpa [keyboardAttempt, hread, henough] using hafter

theorem stdinAttempt_intact (s : State) (reader left : ℕ) (ha : Aligned s) (hi : Intact s) :
    Intact (stdinAttempt s reader left) := by
  rcases Nat.lt_or_ge s.buf.unread keyEventSize with hshort | henough
  · have hnone : s.buf.unread = 0 := by
      have hunread := ha.unread
      unfold keyEventSize at *
      omega
    have hiff := short_intact_iff s keyEventSize hi hshort
    obtain ⟨bytes, c', hread, -⟩ := circbufRead_short s.buf keyEventSize hshort
    simp only [hread] at hiff
    simpa [stdinAttempt, hread] using hiff.mpr hnone
  · obtain ⟨c', hread, hrest⟩ := circbufRead_enough s.buf keyEventSize henough
    simp only [stdinAttempt, hread]
    split_ifs with hfailed hpress hlast
    · contradiction
    · exact hi.deliver ⟨reader, .stdin, _, []⟩ c' s.calls (by simp [Delivery.Faithful, hpress])
        (by simp [hrest])
    · exact hi.deliver ⟨reader, .stdin, _, _⟩ c' _ (by simp_all [Delivery.Faithful])
        (by simp [hrest])
    · exact hi.deliver ⟨reader, .stdin, _, _⟩ c' _ (by simp_all [Delivery.Faithful])
        (by simp [hrest])

/-- The stream stays intact in exactly the steps that meet the condition. -/
theorem step_intact_iff (s : State) (a : Action) (ha : Aligned s) (hi : Intact s) :
    Intact (step s a) ↔ Meets s a := by
  cases a with
  | send eventType scancode padding => exact send_intact_iff s eventType scancode padding ha hi
  | keyboardRead reader size buffer =>
    simp only [step, keyboardRead, Meets, iff_true]
    split_ifs <;> exact ⟨hi.stream, hi.faithful⟩
  | stdinRead reader size buffer =>
    simp only [step, stdinRead, Meets, iff_true]
    split_ifs <;> exact ⟨hi.stream, hi.faithful⟩
  | attempt reader =>
    simp only [step, Meets]
    cases hcall : s.calls reader with
    | none => simpa using hi
    | some call =>
      cases call with
      | keyboard size => exact keyboardAttempt_intact_iff s reader size hi
      | stdin left => simpa using stdinAttempt_intact s reader left ha hi

theorem intact_iff_allMeet (s : State) (actions : List Action) (ha : Aligned s) (hi : Intact s) :
    (∀ s' ∈ states s actions, Intact s') ↔ AllMeet s actions := by
  induction actions generalizing s with
  | nil => simpa [states, AllMeet] using hi
  | cons a actions ih =>
    have hstep := step_intact_iff s a ha hi
    have hfirst : step s a ∈ states (step s a) actions := by cases actions <;> simp [states]
    simp only [states, AllMeet, List.forall_mem_cons]
    constructor
    · rintro ⟨-, hlater⟩
      have hmeets := hlater _ hfirst
      exact ⟨hstep.mp hmeets, (ih _ (step_aligned s a ha) hmeets).mp hlater⟩
    · rintro ⟨hmeets, hlater⟩
      have hnext := hstep.mpr hmeets
      exact ⟨hi, (ih _ (step_aligned s a ha) hnext).mpr hlater⟩

/-- Over every run from the empty buffer, whatever the order of events and reads: the stream is
intact in every state exactly when every action meets the condition. -/
theorem stream_intact_iff (actions : List Action) :
    (∀ s ∈ states initial actions, Intact s) ↔ AllMeet initial actions :=
  intact_iff_allMeet initial actions initial_aligned initial_intact

/-- A read of two events that comes when there is one takes that one away. -/
theorem short_read_loses_event : ¬ ∀ actions, ∀ s ∈ states initial actions, Intact s := by
  intro h
  have hlost := (h [.send eventKeyPress 0x61 0, .keyboardRead 0 16 1, .attempt 0]
    (step (step (step initial (.send eventKeyPress 0x61 0)) (.keyboardRead 0 16 1)) (.attempt 0))
    (by simp [states])).stream
  have hlength := congrArg List.length hlost
  revert hlength
  decide +kernel

end ReduceOS.KeyboardStream
