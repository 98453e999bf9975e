import ReduceOS.CircularBuffer
import ReduceOS.LockedSections

/-!
A circular buffer between any number of threads. `circbuf_read` and `circbuf_write` hold the lock of
the buffer over their loops, so however the threads interleave each call sees the buffer as the
calls before it left it, and the bytes go through in the order of the calls.
-/
namespace ReduceOS.SharedBuffer

open Machine CircularBuffer LockedSections TraceRefinement
open KeyboardStream (Byte contents_length)

/-- Where a call is in its loop: at the test, or behind each of the stores of a round. -/
inductive At
  | read (n : ℕ) (out : List Byte)
  | copy (n : ℕ) (out : List Byte)
  | tailUp (n : ℕ) (out : List Byte)
  | tailWrap (n : ℕ) (out : List Byte)
  | write (bytes : List Byte)
  | headUp (bytes : List Byte)
  | headWrap (bytes : List Byte)

abbrev Answer := CInt × List Byte

def pointer : Call → Addr
  | .write _ buffer | .read _ buffer => buffer

def before (call : Call) (_ : Circbuf) : Option Answer :=
  if pointer call = null then some (1, []) else none

def enter : Call → At
  | .write bytes _ => .write bytes
  | .read size _ => .read size []

def step (l : At) (c : Circbuf) : (At × Circbuf) ⊕ Answer :=
  match l with
  | .read 0 out => .inr (0, out)
  | .read (n + 1) out => if c.tail = c.head then .inr (1, out) else .inl (.copy n out, c)
  | .copy n out => .inl (.tailUp n (out ++ [c.buffer (offset c.tail)]), c)
  | .tailUp n out => .inl (.tailWrap n out, { c with tail := c.tail + 1 })
  | .tailWrap n out =>
    .inl (.read n out, if offset c.tail ≥ c.bufferSize then { c with tail := 0 } else c)
  | .write [] => .inr (0, [])
  | .write (byte :: bytes) =>
    .inl (.headUp bytes, { c with buffer := Function.update c.buffer (offset c.head) byte })
  | .headUp bytes => .inl (.headWrap bytes, { c with head := c.head + 1 })
  | .headWrap bytes =>
    .inl (.write bytes, if offset c.head ≥ c.bufferSize then { c with head := 0 } else c)

def body : Body Call At Answer Circbuf := ⟨before, enter, step⟩

def answer (c : Circbuf) : Call → Answer × Circbuf
  | .write bytes buffer =>
    let (ret, c') := circbufWrite c bytes buffer
    ((ret, []), c')
  | .read size buffer =>
    let (ret, out, c') := circbufRead c size buffer
    ((ret, out), c')

section Loops

variable {c c' : Circbuf} {n : ℕ} {out bytes : List Byte} {r : Answer}

theorem tail_round (n : ℕ) (out : List Byte) (c : Circbuf) :
    body.Runs (.tailUp n out) c r c' ↔
      body.Runs (.read n out) { c with tail := advance c.bufferSize c.tail } r c' := by
  rw [Body.runs_next (show body.step (.tailUp n out) c = _ from rfl),
    Body.runs_next (show body.step (.tailWrap n out) _ = _ from rfl)]
  unfold advance
  dsimp only
  split_ifs <;> exact Iff.rfl

theorem head_round (bytes : List Byte) (c : Circbuf) :
    body.Runs (.headUp bytes) c r c' ↔
      body.Runs (.write bytes) { c with head := advance c.bufferSize c.head } r c' := by
  rw [Body.runs_next (show body.step (.headUp bytes) c = _ from rfl),
    Body.runs_next (show body.step (.headWrap bytes) _ = _ from rfl)]
  unfold advance
  dsimp only
  split_ifs <;> exact Iff.rfl

/-- The loop of `circbuf_read`, undisturbed. -/
theorem runs_read : body.Runs (.read n out) c r c' ↔
    r = ((readLoop c n).1, out ++ (readLoop c n).2.1) ∧ c' = (readLoop c n).2.2 := by
  induction n generalizing c out with
  | zero =>
    rw [Body.runs_last (show body.step (.read 0 out) c = _ from rfl), readLoop, List.append_nil]
  | succ n ih =>
    rw [readLoop]
    by_cases hempty : c.tail = c.head
    · have hstep : body.step (.read (n + 1) out) c = .inr (1, out) := if_pos hempty
      rw [Body.runs_last hstep, if_pos hempty, List.append_nil]
    · have hstep : body.step (.read (n + 1) out) c = .inl (.copy n out, c) := if_neg hempty
      rw [Body.runs_next hstep, Body.runs_next (show body.step (.copy n out) c = _ from rfl),
        tail_round, ih, if_neg hempty, List.append_assoc]
      rfl

/-- The loop of `circbuf_write`, undisturbed. -/
theorem runs_write : body.Runs (.write bytes) c r c' ↔
    r = (0, []) ∧ c' = bytes.foldl Circbuf.put c := by
  induction bytes generalizing c with
  | nil => rw [Body.runs_last (show body.step (.write []) c = _ from rfl), List.foldl_nil]
  | cons byte bytes ih =>
    rw [Body.runs_next (show body.step (.write (byte :: bytes)) c = _ from rfl), head_round, ih,
      List.foldl_cons]
    rfl

end Loops

def Sequential {ι : Type*} (c : Circbuf) (k : ι × Call) (r : Answer) (c' : Circbuf) : Prop :=
  (r, c') = answer c k.2

def callsOf {ι : Type*} (tr : List ((ι × Call) × Answer)) : List Call := tr.map fun a => a.1.2

/-- The bytes that the calls of a trace have stored for their callers. -/
def bytesOf {ι : Type*} (tr : List ((ι × Call) × Answer)) : List Byte := tr.flatMap fun a => a.2.2

section Threads

variable {ι : Type*} {c m : Circbuf} {tr : List ((ι × Call) × Answer)}

theorem answer_write (c : Circbuf) (bytes : List Byte) (buffer : Addr) :
    answer c (.write bytes buffer) =
      (((circbufWrite c bytes buffer).1, []), (circbufWrite c bytes buffer).2) := rfl

theorem answer_read (c : Circbuf) (size : ℕ) (buffer : Addr) :
    answer c (.read size buffer) = (((circbufRead c size buffer).1,
      (circbufRead c size buffer).2.1), (circbufRead c size buffer).2.2) := rfl

theorem answer_null {call : Call} (h : pointer call = null) (c : Circbuf) :
    answer c call = ((1, []), c) := by
  cases call with
  | write bytes buffer =>
    have hnull : buffer = null := h
    rw [answer_write, circbufWrite, if_pos hnull]
  | read size buffer =>
    have hnull : buffer = null := h
    rw [answer_read, circbufRead, if_pos hnull]

theorem answer_of_runs {call : Call} {r : Answer} {c' : Circbuf} (h : pointer call ≠ null)
    (hruns : body.Runs (enter call) c r c') : (r, c') = answer c call := by
  cases call with
  | write bytes buffer =>
    have hne : buffer ≠ null := h
    obtain ⟨rfl, rfl⟩ := runs_write.mp hruns
    rw [answer_write, circbufWrite, if_neg hne]
  | read size buffer =>
    have hne : buffer ≠ null := h
    obtain ⟨rfl, rfl⟩ := runs_read.mp hruns
    rw [answer_read, circbufRead, if_neg hne, List.nil_append]

theorem sequential_of_atomic {k : ι × Call} {r : Answer} {c' : Circbuf}
    (hatomic : body.Atomic (fun _ => True) c k r c') : Sequential c k r c' := by
  rcases hatomic with ⟨⟨t, -, hpassed⟩, hruns⟩ | ⟨rfl, t, -, hanswered⟩
  · refine answer_of_runs (fun hnull => ?_) hruns
    exact absurd ((if_pos hnull).symm.trans hpassed) (Option.some_ne_none _)
  · by_cases hnull : pointer k.2 = null
    · obtain rfl := Option.some.inj ((if_pos hnull).symm.trans hanswered)
      exact (answer_null hnull c').symm
    · exact absurd ((if_neg hnull).symm.trans hanswered).symm (Option.some_ne_none r)

theorem run_append (calls calls' : List Call) (c : Circbuf) : c.run (calls ++ calls') =
    ((c.run calls).1 ++ ((c.run calls).2.run calls').1, ((c.run calls).2.run calls').2) := by
  induction calls generalizing c with
  | nil => rfl
  | cons call calls ih =>
    simp only [List.cons_append, Circbuf.run]
    rw [ih, List.append_assoc]

theorem step_eq (c : Circbuf) (call : Call) :
    c.step call = ((answer c call).1.2, (answer c call).2) := by
  cases call with
  | write bytes buffer => rfl
  | read size buffer => rfl

/-- The bytes that a sequence of calls stores are those of a run of the buffer. -/
theorem run_eq (hrun : Run Sequential c tr m) : c.run (callsOf tr) = (bytesOf tr, m) := by
  induction hrun with
  | start => rfl
  | @call tr d e k r _ hstep ih =>
    obtain ⟨i, call⟩ := k
    have hcall : d.step call = (r.2, e) := by
      have hanswer : (r, e) = answer d call := hstep
      rw [step_eq, ← hanswer]
    unfold callsOf bytesOf at *
    rw [List.map_append, List.flatMap_append, run_append, ih]
    simp [Circbuf.run, hcall]

end Threads

section Exec

variable {ι : Type*} [DecidableEq ι] {c : Circbuf} {tr : List ((ι × Call) × Answer)}
  {d : Config ι Call At Circbuf}

def sampleTrace : List ((Bool × Call) × Answer) :=
  [((true, .write [7] 1), (0, [])), ((false, .read 1 1), (0, [7]))]

theorem exec_sample : ∃ d, Exec body (quiet (circbufCreate 4 fun _ => 0)) sampleTrace d := by
  have hcalls := (Exec.start (B := body) (c := quiet (circbufCreate 4 fun _ => 0))).step
    (.call (i := true) (k := .write [7] 1) rfl rfl)
    |>.step (.call (i := false) (k := .read 1 1) rfl rfl)
    |>.step (.acquire (i := true) rfl rfl) |>.step (.spin (i := false) rfl rfl)
    |>.step (.work (i := true) rfl rfl) |>.step (.work (i := true) rfl rfl)
    |>.step (.work (i := true) rfl rfl) |>.step (.release (i := true) rfl rfl)
    |>.step (.acquire (i := false) rfl rfl)
    |>.step (.work (i := false) rfl rfl) |>.step (.work (i := false) rfl rfl)
    |>.step (.work (i := false) rfl rfl) |>.step (.work (i := false) rfl rfl)
    |>.step (.release (i := false) rfl rfl)
  exact ⟨_, hcalls⟩

/-- However the calls of any number of threads interleave, the answers are those of the same calls
one after the other, and the buffer is as these leave it whenever nobody has the lock. -/
theorem calls_sequential (hexec : Exec body (quiet c) tr d) :
    ∃ m, Run Sequential c tr m ∧ (d.locked = false → d.shared = m) := by
  obtain ⟨m, hrun, hstands⟩ := hexec.refines (P := fun _ => True)
      (fun _ _ _ _ _ _ => trivial) trivial
  refine ⟨m, hrun.mono fun _ _ _ _ => sequential_of_atomic, fun hfree => ?_⟩
  cases hstands with
  | free _ hshared => exact hshared
  | held hlocked => exact absurd hlocked (by rw [hfree]; exact Bool.false_ne_true)

theorem sample_sequential : ∃ d, Exec body (quiet (circbufCreate 4 fun _ => 0)) sampleTrace d ∧
    ∃ m, Run Sequential (circbufCreate 4 fun _ => 0) sampleTrace m ∧
      (d.locked = false → d.shared = m) := by
  obtain ⟨d, hexec⟩ := exec_sample
  exact ⟨d, hexec, calls_sequential hexec⟩

/-- The bytes go through a buffer of at most 2^31 bytes in the order of the calls: those read are
the first of those written, and the others are in the buffer whenever nobody has the lock. -/
theorem bytes_in_order {size : BitVec 64} (hpos : 0 < size.toNat) (hsize : size.toNat ≤ 2 ^ 31)
    {memory : BitVec 64 → Byte} (hexec : Exec body (quiet (circbufCreate size memory)) tr d)
    (hallowed : Allowed size.toNat 0 (callsOf tr)) :
    bytesOf tr = (written (callsOf tr)).take (asked (callsOf tr)) ∧
      (d.locked = false →
        d.shared.Holds ((written (callsOf tr)).drop (asked (callsOf tr)))) := by
  obtain ⟨m, hrun, hfree⟩ := calls_sequential hexec
  obtain ⟨r, hmodels, hempty⟩ := exists_models_create size memory
  have hunread : r.unread = 0 := by rw [← contents_length, hempty, List.length_nil]
  rw [← hunread] at hallowed
  obtain ⟨hbytes, hholds⟩ := hmodels.run ((positions_eq_iff hpos).mpr hsize) hallowed
  rw [run_eq hrun, hempty, List.nil_append] at hbytes hholds
  refine ⟨hbytes, fun hunlocked => ?_⟩
  rw [hfree hunlocked]
  exact hholds

theorem sample_in_order : ∃ d, Exec body (quiet (circbufCreate 4 fun _ => 0)) sampleTrace d ∧
    bytesOf sampleTrace = (written (callsOf sampleTrace)).take (asked (callsOf sampleTrace)) ∧
      (d.locked = false → d.shared.Holds
        ((written (callsOf sampleTrace)).drop (asked (callsOf sampleTrace)))) := by
  obtain ⟨d, hexec⟩ := exec_sample
  have hallowed : Allowed (4 : BitVec 64).toNat 0 (callsOf sampleTrace) :=
    ⟨by decide, by decide, by decide, by decide, trivial⟩
  exact ⟨d, hexec, bytes_in_order (by decide) (by decide) hexec hallowed⟩

/-- Every loop ends, so a thread that waits for the lock can always still get its answer. -/
theorem call_answered {i : ι} {k : Call} (hexec : Exec body (quiet c) tr d)
    (hi : d.phase i = .waits k) : ∃ tr' r e, Exec body d (tr' ++ [((i, k), r)]) e := by
  refine hexec.answered (fun k c => ?_) hi
  cases k with
  | write bytes buffer => exact ⟨_, _, runs_write.mpr ⟨rfl, rfl⟩⟩
  | read size buffer => exact ⟨_, _, runs_read.mpr ⟨rfl, rfl⟩⟩

theorem sample_answered : ∃ d : Config Bool Call At Circbuf,
    Exec body (quiet (circbufCreate 4 fun _ => 0)) [] d ∧
      ∃ tr' r e, Exec body d (tr' ++ [((true, .write [7] 1), r)]) e := by
  have hexec : Exec body (quiet (circbufCreate 4 fun _ => 0))
      ([] ++ (none : Option ((Bool × Call) × Answer)).toList) _ :=
    Exec.start.step (.call (i := true) (k := .write [7] 1) rfl rfl)
  exact ⟨_, hexec, call_answered hexec rfl⟩

end Exec

end ReduceOS.SharedBuffer
