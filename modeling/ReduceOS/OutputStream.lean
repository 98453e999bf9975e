import ReduceOS.BoundedScan
import ReduceOS.Machine

/-!
Files of the C library that are written to. Bytes are kept in a buffer until it is full, a line
ends or it is flushed. What was written and what is in the buffer are together what was given,
in order.
-/
namespace ReduceOS.OutputStream

open Machine BoundedScan

abbrev Bytes := List (BitVec 8)

inductive Event
  | write (fd : CInt) (bytes : Bytes)
  | lseek (fd : CInt) (offset : BitVec 64) (whence : CInt)

/-- What a file does not decide: the contents of new memory, and what `lseek` returns, after what
was asked so far. -/
structure Environment where
  malloc : List Event → (n : ℕ) → Vector (BitVec 8) n
  lseek : List Event → CInt

section Source

def writeBufferSize : BitVec 64 := 8192

def eof : CInt := -1

/-- What `FILE` has for output. `wbuf` is `none` for `NULL`. -/
structure File where
  fd : CInt
  wbuf : Option Bytes
  wbuflen : BitVec 64
  wbufsz : BitVec 64

structure State where
  file : File
  log : List Event

def fopen (fd : CInt) : File := ⟨fd, none, 0, 0⟩

def stdout : File := ⟨1, some (List.replicate writeBufferSize.toNat 0), 0, writeBufferSize⟩

def stderr : File := ⟨2, none, 0, 0⟩

def fflush (s : State) : Option (CInt × State) :=
  match s.file.wbuf with
  | none => some (eof, s)
  | some buffer =>
    if s.file.wbuflen ≠ 0 then
      -- `write` reads what is behind the buffer if there are more bytes than in it
      if buffer.length < s.file.wbuflen.toNat then none
      else
        let bytes := buffer.take s.file.wbuflen.toNat
        some (0, { file := { s.file with wbuflen := 0 }
                   log := s.log ++ [.write s.file.fd bytes] })
    else some (0, s)

def writeByte (s : State) (c : BitVec 8) : Option State := do
  let buffer ← s.file.wbuf
  let buffer ← store buffer s.file.wbuflen.toNat c
  let file := { s.file with wbuf := some buffer, wbuflen := s.file.wbuflen + 1 }
  let s := { s with file := file }
  if s.file.wbuflen ≥ s.file.wbufsz ∨ c = 10 then (fflush s).map Prod.snd else some s

def fileioWriteBytes (e : Environment) (s : State) (buf : Bytes) : Option (BitVec 64 × State) := do
  let file := if s.file.wbuf.isNone then
      { s.file with wbuf := some (e.malloc s.log writeBufferSize.toNat).toList,
                    wbufsz := writeBufferSize }
    else s.file
  let s ← buf.foldlM writeByte { s with file := file }
  some (BitVec.ofNat 64 buf.length, s)

/-- The loop of `fwrite`, with the number of objects that are left. -/
def fwriteObjects (e : Environment) (size : BitVec 64) :
    ℕ → BitVec 64 → Bytes → State → Option (BitVec 64 × State)
  | 0, i, _, s => some (i, s)
  | left + 1, i, p, s => do
    if p.length < size.toNat then none
    else
      let (r, s) ← fileioWriteBytes e s (p.take size.toNat)
      let p := p.drop r.toNat
      if r < size then some (i, s) else fwriteObjects e size left (i + 1) p s

def fwrite (e : Environment) (ptr : Bytes) (size nmemb : BitVec 64) (s : State) :
    Option (BitVec 64 × State) :=
  if size = 0 ∨ nmemb = 0 then some (0, s) else fwriteObjects e size nmemb.toNat 0 ptr s

def fseek (e : Environment) (s : State) (offset : BitVec 64) (whence : CInt) :
    Option (CInt × State) :=
  let flushed := if s.file.wbuflen ≠ 0 then (fflush s).map Prod.snd else some s
  flushed.map fun s =>
    let returnValue := e.lseek s.log
    let s := { s with log := s.log ++ [.lseek s.file.fd offset whence] }
    (if returnValue.toInt < 0 then -1 else 0, s)

end Source

/-- A call on a file. What is given to `fwrite` are as many objects of its size as it says. -/
inductive Call
  | fwrite (ptr : Bytes) (size nmemb : BitVec 64) (objects : ptr.length = size.toNat * nmemb.toNat)
  | fflush
  | fseek (offset : BitVec 64) (whence : CInt)

def Call.bytes : Call → Bytes
  | .fwrite ptr _ _ _ => ptr
  | .fflush => []
  | .fseek _ _ => []

def Call.Empties : Call → Prop
  | .fwrite ptr _ _ _ => ptr.getLast? = some 10
  | .fflush => True
  | .fseek _ _ => True

def call (e : Environment) (s : State) : Call → Option State
  | .fwrite ptr size nmemb _ => (fwrite e ptr size nmemb s).map Prod.snd
  | .fflush => (fflush s).map Prod.snd
  | .fseek offset whence => (fseek e s offset whence).map Prod.snd

def run (e : Environment) (file : File) (calls : List Call) : Option State :=
  calls.foldlM (call e) ⟨file, []⟩

inductive Opened : File → Prop
  | fopen (fd : CInt) : Opened (fopen fd)
  | stdout : Opened stdout
  | stderr : Opened stderr

def Event.bytes : Event → Bytes
  | .write _ bytes => bytes
  | .lseek _ _ _ => []

def written (log : List Event) : Bytes := log.flatMap Event.bytes

def File.pending (file : File) : Bytes := (file.wbuf.getD []).take file.wbuflen.toNat

structure Keeps (s : State) (stream : Bytes) : Prop where
  kept : written s.log ++ s.file.pending = stream
  room : s.file.wbuf ≠ none → s.file.wbuflen < s.file.wbufsz
  unused : s.file.wbuf = none → s.file.wbuflen = 0 ∧ s.file.wbufsz = 0
  size : ∀ buffer, s.file.wbuf = some buffer → buffer.length = s.file.wbufsz.toNat
  newline : stream.getLast? = some 10 → s.file.wbuflen = 0

section Steps

variable {e : Environment} {s t : State} {stream p : Bytes} {size : BitVec 64}

theorem written_append (log log' : List Event) :
    written (log ++ log') = written log ++ written log' := List.flatMap_append

theorem opened_keeps {file : File} (h : Opened file) : Keeps ⟨file, []⟩ [] := by
  cases h with
  | fopen fd => exact ⟨rfl, fun h => absurd rfl h, fun _ => ⟨rfl, rfl⟩, by simp [fopen], by simp⟩
  | stdout =>
    refine ⟨rfl, fun _ => by decide, fun h => by simp [stdout] at h, ?_, by simp⟩
    rintro buffer ⟨⟩
    exact List.length_replicate
  | stderr => exact ⟨rfl, fun h => absurd rfl h, fun _ => ⟨rfl, rfl⟩, by simp [stderr], by simp⟩

structure Full (s : State) (stream : Bytes) : Prop where
  kept : written s.log ++ s.file.pending = stream
  buffer : ∃ buffer, s.file.wbuf = some buffer ∧ buffer.length = s.file.wbufsz.toNat ∧
    s.file.wbuflen ≤ s.file.wbufsz ∧ 0 < s.file.wbufsz

theorem Full.fflush (h : Full s stream) : ∃ r t, fflush s = some (r, t) ∧ Keeps t stream ∧
    t.file.wbuflen = 0 ∧ t.file.wbuf = s.file.wbuf := by
  obtain ⟨buffer, hbuffer, hsize, hle, hpos⟩ := h.buffer
  have hroom : ¬ buffer.length < s.file.wbuflen.toNat := by
    rw [hsize]
    exact Nat.not_lt_of_le hle
  rw [OutputStream.fflush, hbuffer]
  by_cases hsome : s.file.wbuflen ≠ 0
  · have hkept : written (s.log ++ [.write s.file.fd (buffer.take s.file.wbuflen.toNat)]) =
        stream := by
      rw [written_append, ← h.kept, File.pending, hbuffer]
      simp [written, Event.bytes]
    simp only [if_pos hsome, if_neg hroom]
    refine ⟨_, _, rfl, ⟨?_, fun _ => hpos, ?_, ?_, fun _ => rfl⟩, rfl, hbuffer⟩
    · simp [File.pending, hkept]
    · intro hnone
      rw [hbuffer] at hnone
      exact absurd hnone (by simp)
    · intro buffer' hbuffer'
      obtain rfl := Option.some.inj (hbuffer.symm.trans hbuffer')
      exact hsize
  · have hzero := not_not.mp hsome
    simp only [if_neg hsome]
    refine ⟨_, _, rfl, ⟨h.kept, fun _ => ?_, ?_, ?_, fun _ => hzero⟩, hzero, hbuffer⟩
    · rw [hzero]
      exact hpos
    · intro hnone
      rw [hbuffer] at hnone
      exact absurd hnone (by simp)
    · intro buffer' hbuffer'
      obtain rfl := Option.some.inj (hbuffer.symm.trans hbuffer')
      exact hsize

theorem Keeps.full (h : Keeps s stream) (hwbuf : s.file.wbuf ≠ none) : Full s stream := by
  obtain ⟨buffer, hbuffer⟩ := Option.ne_none_iff_exists'.mp hwbuf
  have hroom := h.room hwbuf
  refine ⟨h.kept, buffer, hbuffer, h.size buffer hbuffer, BitVec.le_of_lt hroom, ?_⟩
  exact Nat.lt_of_le_of_lt (Nat.zero_le _) hroom

theorem Keeps.fflush (h : Keeps s stream) :
    ∃ r t, fflush s = some (r, t) ∧ Keeps t stream ∧ t.file.wbuflen = 0 := by
  by_cases hwbuf : s.file.wbuf = none
  · refine ⟨eof, s, ?_, h, (h.unused hwbuf).1⟩
    rw [OutputStream.fflush, hwbuf]
  · obtain ⟨r, t, hflush, hkeeps, hempty, -⟩ := (h.full hwbuf).fflush
    exact ⟨r, t, hflush, hkeeps, hempty⟩

/-- One byte is stored inside of the buffer, and it is flushed before it is full. -/
theorem Keeps.writeByte (h : Keeps s stream) (hwbuf : s.file.wbuf ≠ none) (c : BitVec 8) :
    ∃ t, writeByte s c = some t ∧ Keeps t (stream ++ [c]) ∧ t.file.wbuf ≠ none := by
  obtain ⟨buffer, hbuffer⟩ := Option.ne_none_iff_exists'.mp hwbuf
  have hroom : s.file.wbuflen.toNat < s.file.wbufsz.toNat := h.room hwbuf
  have hsize := h.size buffer hbuffer
  have hstore : store buffer s.file.wbuflen.toNat c =
      some (buffer.set s.file.wbuflen.toNat c) := if_pos (hsize ▸ hroom)
  have hlen : (s.file.wbuflen + 1).toNat = s.file.wbuflen.toNat + 1 := by
    have hlt := s.file.wbufsz.isLt
    rw [BitVec.toNat_add]
    exact Nat.mod_eq_of_lt (by simp; omega)
  let u : State := { s with
    file := { s.file with
      wbuf := some (buffer.set s.file.wbuflen.toNat c), wbuflen := s.file.wbuflen + 1 } }
  have hpending : u.file.pending = s.file.pending ++ [c] := by
    have hlt : s.file.wbuflen.toNat < buffer.length := hsize ▸ hroom
    change (buffer.set s.file.wbuflen.toNat c).take (s.file.wbuflen + 1).toNat = _
    rw [hlen, File.pending, hbuffer, Option.getD_some, List.take_add_one,
        List.take_set_of_le (Nat.le_refl _)]
    simp [hlt]
  have hkept : written u.log ++ u.file.pending = stream ++ [c] := by
    rw [hpending, ← List.append_assoc]
    exact congrArg (· ++ [c]) h.kept
  have hle : u.file.wbuflen ≤ u.file.wbufsz := by
    change (s.file.wbuflen + 1).toNat ≤ s.file.wbufsz.toNat
    omega
  have hpos : 0 < u.file.wbufsz := Nat.lt_of_le_of_lt (Nat.zero_le _) hroom
  have hlength : (buffer.set s.file.wbuflen.toNat c).length = u.file.wbufsz.toNat := by
    rw [List.length_set]
    exact hsize
  have hfull : Full u (stream ++ [c]) := ⟨hkept, _, rfl, hlength, hle, hpos⟩
  have hstep : OutputStream.writeByte s c = if u.file.wbuflen ≥ u.file.wbufsz ∨ c = 10 then
      (OutputStream.fflush u).map Prod.snd else some u := by
    rw [OutputStream.writeByte, hbuffer]
    simp only [Option.bind_eq_bind, Option.bind_some, hstore]
    rfl
  rw [hstep]
  by_cases hflush : u.file.wbuflen ≥ u.file.wbufsz ∨ c = 10
  · obtain ⟨r, t, hcall, hkeeps, -, hsame⟩ := hfull.fflush
    rw [if_pos hflush, hcall]
    refine ⟨t, rfl, hkeeps, ?_⟩
    rw [hsame]
    exact Option.some_ne_none _
  · obtain ⟨hless, hother⟩ := not_or.mp hflush
    rw [if_neg hflush]
    refine ⟨u, rfl, ⟨hkept, fun _ => BitVec.not_le.mp hless, ?_, ?_, ?_⟩, Option.some_ne_none _⟩
    · intro hnone
      exact absurd hnone (Option.some_ne_none _)
    · rintro buffer' ⟨⟩
      exact hlength
    · intro hlast
      rw [List.getLast?_concat] at hlast
      exact absurd (Option.some.inj hlast) hother

theorem Keeps.writeBytes (h : Keeps s stream) (hwbuf : s.file.wbuf ≠ none) (buf : Bytes) :
    ∃ t, buf.foldlM OutputStream.writeByte s = some t ∧ Keeps t (stream ++ buf) ∧
      t.file.wbuf ≠ none := by
  induction buf generalizing s stream with
  | nil => exact ⟨s, rfl, by rwa [List.append_nil], hwbuf⟩
  | cons c buf ih =>
    obtain ⟨u, hbyte, hkeeps, hwbuf'⟩ := h.writeByte hwbuf c
    obtain ⟨t, hrest, hkeeps', hwbuf''⟩ := ih hkeeps hwbuf'
    refine ⟨t, ?_, ?_, hwbuf''⟩
    · rw [List.foldlM_cons, hbyte]
      exact hrest
    · rwa [List.append_assoc] at hkeeps'

theorem Keeps.fileioWriteBytes (e : Environment) (h : Keeps s stream) (buf : Bytes) :
    ∃ t, fileioWriteBytes e s buf = some (BitVec.ofNat 64 buf.length, t) ∧
      Keeps t (stream ++ buf) := by
  by_cases hwbuf : s.file.wbuf = none
  · obtain ⟨hlen, hsz⟩ := h.unused hwbuf
    let u : State := { s with
      file := { s.file with
        wbuf := some (e.malloc s.log writeBufferSize.toNat).toList, wbufsz := writeBufferSize } }
    have hpending : u.file.pending = s.file.pending := by
      simp [File.pending, u, hlen]
    have hkeeps : Keeps u stream := by
      refine ⟨?_, fun _ => ?_, fun hnone => absurd hnone (Option.some_ne_none _), ?_, h.newline⟩
      · rw [hpending]
        exact h.kept
      · change s.file.wbuflen < writeBufferSize
        rw [hlen]
        decide
      · rintro buffer ⟨⟩
        exact Vector.length_toList
    obtain ⟨t, hwrite, hkeeps', -⟩ := hkeeps.writeBytes (Option.some_ne_none _) buf
    refine ⟨t, ?_, hkeeps'⟩
    rw [OutputStream.fileioWriteBytes, if_pos (Option.isNone_iff_eq_none.mpr hwbuf), hwrite]
    rfl
  · obtain ⟨t, hwrite, hkeeps, -⟩ := h.writeBytes hwbuf buf
    have hsome : ¬ s.file.wbuf.isNone = true := fun h => hwbuf (Option.isNone_iff_eq_none.mp h)
    refine ⟨t, ?_, hkeeps⟩
    rw [OutputStream.fileioWriteBytes, if_neg hsome, hwrite]
    rfl

/-- Objects are written one after the other, and all of them. -/
theorem Keeps.fwriteObjects (e : Environment) (h : Keeps s stream) {left : ℕ}
    (hp : p.length = size.toNat * left) (i : BitVec 64) :
    ∃ t, fwriteObjects e size left i p s = some (i + BitVec.ofNat 64 left, t) ∧
      Keeps t (stream ++ p) := by
  induction left generalizing s stream p i with
  | zero =>
    obtain rfl := List.length_eq_zero_iff.mp hp
    refine ⟨s, ?_, by rwa [List.append_nil]⟩
    rw [OutputStream.fwriteObjects]
    simp
  | succ left ih =>
    have hsplit : p.length = size.toNat + size.toNat * left := by
      rw [hp, Nat.mul_succ, Nat.add_comm]
    have hlength : (p.take size.toNat).length = size.toNat := by
      rw [List.length_take]
      omega
    have hr : BitVec.ofNat 64 size.toNat = size := by
      rw [BitVec.ofNat_toNat, BitVec.setWidth_eq]
    have hrest : (p.drop size.toNat).length = size.toNat * left := by
      rw [List.length_drop]
      omega
    obtain ⟨u, hobject, hkeeps⟩ := h.fileioWriteBytes e (p.take size.toNat)
    obtain ⟨t, hobjects, hkeeps'⟩ := ih hkeeps hrest (i + 1)
    rw [List.append_assoc, List.take_append_drop] at hkeeps'
    refine ⟨t, ?_, hkeeps'⟩
    rw [OutputStream.fwriteObjects, if_neg (by omega), hobject, hlength, hr]
    simp only [Option.bind_eq_bind, Option.bind_some, BitVec.lt_irrefl, if_false, hobjects]
    rw [BitVec.add_assoc, Nat.add_comm left 1, BitVec.ofNat_add]
    rfl

/-- What is given to `fwrite` is kept, and it returns the number of objects. -/
theorem Keeps.fwrite (e : Environment) (h : Keeps s stream) {nmemb : BitVec 64}
    (hp : p.length = size.toNat * nmemb.toNat) :
    ∃ t, fwrite e p size nmemb s = some (if size = 0 then 0 else nmemb, t) ∧
      Keeps t (stream ++ p) := by
  by_cases hzero : size = 0 ∨ nmemb = 0
  · have hnone : p = [] := by
      apply List.length_eq_zero_iff.mp
      rw [hp]
      obtain rfl | rfl := hzero
      · exact Nat.zero_mul _
      · exact Nat.mul_zero _
    refine ⟨s, ?_, by rwa [hnone, List.append_nil]⟩
    rw [OutputStream.fwrite, if_pos hzero]
    obtain rfl | rfl := hzero
    · rw [if_pos rfl]
    · rw [ite_self]
  · obtain ⟨t, hobjects, hkeeps⟩ := h.fwriteObjects e hp 0
    refine ⟨t, ?_, hkeeps⟩
    rw [OutputStream.fwrite, if_neg hzero, hobjects, if_neg (not_or.mp hzero).1]
    simp

theorem Keeps.fseek (e : Environment) (h : Keeps s stream) (offset : BitVec 64) (whence : CInt) :
    ∃ r t, fseek e s offset whence = some (r, t) ∧ Keeps t stream ∧ t.file.wbuflen = 0 := by
  obtain ⟨t, hflush, hkeeps, hempty⟩ : ∃ t,
      (if s.file.wbuflen ≠ 0 then (OutputStream.fflush s).map Prod.snd else some s) = some t ∧
        Keeps t stream ∧ t.file.wbuflen = 0 := by
    by_cases hsome : s.file.wbuflen ≠ 0
    · obtain ⟨r, t, hflush, hkeeps, hempty⟩ := h.fflush
      exact ⟨t, by rw [if_pos hsome, hflush]; rfl, hkeeps, hempty⟩
    · exact ⟨s, if_neg hsome, h, not_not.mp hsome⟩
  have hkept : written (t.log ++ [.lseek t.file.fd offset whence]) = written t.log := by
    rw [written_append]
    exact List.append_nil _
  refine ⟨if (e.lseek t.log).toInt < 0 then -1 else 0,
    { t with log := t.log ++ [.lseek t.file.fd offset whence] }, ?_,
    ⟨by rw [hkept]; exact hkeeps.kept, hkeeps.room, hkeeps.unused, hkeeps.size, hkeeps.newline⟩,
    hempty⟩
  rw [OutputStream.fseek, hflush]
  rfl

end Steps

section Runs

variable {e : Environment} {s : State} {stream : Bytes}

/-- What a call gives is kept, and nothing is kept back after some calls. -/
theorem Keeps.call (e : Environment) (h : Keeps s stream) (c : Call) :
    ∃ t, call e s c = some t ∧ Keeps t (stream ++ c.bytes) ∧ (c.Empties → t.file.wbuflen = 0) := by
  cases c with
  | fwrite ptr size nmemb objects =>
    obtain ⟨t, hwrite, hkeeps⟩ := h.fwrite e objects
    refine ⟨t, ?_, hkeeps, fun hlast => hkeeps.newline ?_⟩
    · rw [OutputStream.call, hwrite]
      rfl
    · have hlast' : ptr.getLast? = some 10 := hlast
      change (stream ++ ptr).getLast? = some 10
      rw [List.getLast?_append, hlast']
      rfl
  | fflush =>
    obtain ⟨r, t, hflush, hkeeps, hempty⟩ := h.fflush
    refine ⟨t, ?_, by rwa [Call.bytes, List.append_nil], fun _ => hempty⟩
    rw [OutputStream.call, hflush]
    rfl
  | fseek offset whence =>
    obtain ⟨r, t, hseek, hkeeps, hempty⟩ := h.fseek e offset whence
    refine ⟨t, ?_, by rwa [Call.bytes, List.append_nil], fun _ => hempty⟩
    rw [OutputStream.call, hseek]
    rfl

theorem Keeps.calls (e : Environment) (h : Keeps s stream) (calls : List Call) :
    ∃ t, calls.foldlM (OutputStream.call e) s = some t ∧
      Keeps t (stream ++ calls.flatMap Call.bytes) := by
  induction calls generalizing s stream with
  | nil => exact ⟨s, rfl, by rwa [List.flatMap_nil, List.append_nil]⟩
  | cons c calls ih =>
    obtain ⟨u, hcall, hkeeps, -⟩ := h.call e c
    obtain ⟨t, hrest, hkeeps'⟩ := ih hkeeps
    refine ⟨t, ?_, ?_⟩
    · rw [List.foldlM_cons, hcall]
      exact hrest
    · rwa [List.append_assoc] at hkeeps'

/-- What calls on a file leave: all that was given in order, written or in the buffer, which has
room for a byte more if there is one, and is empty after some calls. -/
theorem stream_kept (e : Environment) {file : File} (hfile : Opened file) (calls : List Call) :
    ∃ t, run e file calls = some t ∧
      written t.log ++ t.file.pending = calls.flatMap Call.bytes ∧
      (∀ front c, calls = front ++ [c] → c.Empties → t.file.wbuflen = 0) ∧
      (t.file.wbuf = none ∧ t.file.wbuflen = 0 ∧ t.file.wbufsz = 0 ∨
        ∃ buffer, t.file.wbuf = some buffer ∧ buffer.length = t.file.wbufsz.toNat ∧
          t.file.wbuflen < t.file.wbufsz) := by
  obtain ⟨t, hrun, hkeeps⟩ := (opened_keeps hfile).calls e calls
  refine ⟨t, hrun, hkeeps.kept, ?_, ?_⟩
  · rintro front c rfl hempties
    obtain ⟨u, hfront, hkeeps'⟩ := (opened_keeps hfile).calls e front
    obtain ⟨t', hcall, -, hempty⟩ := hkeeps'.call e c
    have hlast : run e file (front ++ [c]) = some t' := by
      rw [run, List.foldlM_append, hfront]
      simp only [Option.bind_eq_bind, Option.bind_some, List.foldlM_cons, List.foldlM_nil, hcall]
      rfl
    obtain rfl := Option.some.inj (hrun.symm.trans hlast)
    exact hempty hempties
  · by_cases hwbuf : t.file.wbuf = none
    · exact Or.inl ⟨hwbuf, hkeeps.unused hwbuf⟩
    · obtain ⟨buffer, hbuffer⟩ := Option.ne_none_iff_exists'.mp hwbuf
      exact Or.inr ⟨buffer, hbuffer, hkeeps.size buffer hbuffer, hkeeps.room hwbuf⟩

def zeros : Environment := ⟨fun _ n => .replicate n 0, fun _ => 0⟩

/-- A line is written when it ends. -/
theorem line_written : ∃ t, run zeros (fopen 3) [.fwrite [97, 10] 1 2 rfl] = some t ∧
    written t.log ++ t.file.pending = [97, 10] ∧ t.file.wbuflen = 0 := by
  obtain ⟨t, hrun, hkept, hempty, -⟩ := stream_kept zeros (.fopen 3) [.fwrite [97, 10] 1 2 rfl]
  exact ⟨t, hrun, hkept, hempty [] _ rfl rfl⟩

/-- A file that was flushed before anything was given to it has no buffer yet. -/
theorem unused_file_has_no_room : ¬ ∀ e file calls t, Opened file →
    run e file calls = some t → t.file.wbuflen < t.file.wbufsz := by
  intro h
  have hroom := h zeros (fopen 3) [.fflush] ⟨fopen 3, []⟩ (.fopen 3) rfl
  exact absurd hroom (by decide)

end Runs

end ReduceOS.OutputStream
