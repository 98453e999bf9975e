import ReduceOS.FdTable

/-!
The offset of a file descriptor under `sys_read`, `sys_write` and `sys_lseek`, over files whose
callbacks are arbitrary. Beside the descriptor a ledger is kept of where the last `sys_lseek` went
and of the bytes that the callbacks have transferred since; an offset is a number of 64 bits, and
is compared with the ledger as one. What a callback returns is added to the offset whether it
counts bytes or is an error.
-/
namespace ReduceOS.FileOffset

open Machine FdTable

/-- The callbacks of a node and its `length`, over all that they reach: the node, its device and
the buffer of the caller. Each gets an offset and a size and returns an `ssize_t`. -/
structure File (σ : Type*) where
  read : Option (σ → BitVec 64 → BitVec 64 → σ × BitVec 64)
  write : Option (σ → BitVec 64 → BitVec 64 → σ × BitVec 64)
  length : σ → BitVec 64

structure State (σ : Type*) where
  table : FdTable.State
  device : σ

structure Result (σ : Type*) where
  state : State σ
  ret : BitVec 64
  given : Option (BitVec 64)

inductive Call
  | read (count : BitVec 64)
  | write (count : BitVec 64)
  | lseek (offset : BitVec 64) (whence : CInt)

section Source

variable {σ : Type*} (file : File σ)

/-- What `fs_read` and `fs_write` do with a callback of the node. -/
def viaNode (callback : Option (σ → BitVec 64 → BitVec 64 → σ × BitVec 64)) (node : Addr)
    (device : σ) (offset size : BitVec 64) : σ × BitVec 64 :=
  if node = null then (device, 0)
  else match callback with
    | some callback => callback device offset size
    | none => (device, 0)

def fsRead (node : Addr) (device : σ) (offset size : BitVec 64) : σ × BitVec 64 :=
  viaNode file.read node device offset size

def fsWrite (node : Addr) (device : σ) (offset size : BitVec 64) : σ × BitVec 64 :=
  viaNode file.write node device offset size

variable (fd : CInt) (s : State σ)

def sysRead (count : BitVec 64) : Result σ :=
  if fdValidate s.table fd = false then ⟨s, -ebadf, none⟩
  else
    let procFd := fdOf s.table fd
    let (device, i) := fsRead file procFd.node s.device procFd.offset count
    ⟨⟨(FdTable.sysRead s.table fd i).1, device⟩, (FdTable.sysRead s.table fd i).2,
      some procFd.offset⟩

def sysWrite (count : BitVec 64) : Result σ :=
  if fd = 1 then ⟨s, count, none⟩
  else if fdValidate s.table fd = false then ⟨s, -ebadf, none⟩
  else
    let procFd := fdOf s.table fd
    let (device, i) := fsWrite file procFd.node s.device procFd.offset count
    ⟨⟨(FdTable.sysWrite s.table fd count i).1, device⟩, (FdTable.sysWrite s.table fd count i).2,
      some procFd.offset⟩

def sysLseek (offset : BitVec 64) (whence : CInt) : Result σ :=
  let (table, ret) := FdTable.sysLseek s.table fd (file.length s.device) offset whence
  ⟨⟨table, s.device⟩, ret, none⟩

def step : Call → Result σ
  | .read count => sysRead file fd s count
  | .write count => sysWrite file fd s count
  | .lseek offset whence => sysLseek file fd s offset whence

end Source

section Accounting

variable {σ : Type*} (file : File σ) (fd : CInt)

/-- Where the last `sys_lseek` went, and the bytes transferred since. -/
structure Ledger where
  target : BitVec 64
  moved : ℕ

def Ledger.position (l : Ledger) : BitVec 64 := l.target + BitVec.ofNat 64 l.moved

def State.offset (s : State σ) : BitVec 64 := (fdOf s.table fd).offset

def seekTarget (length position offset : BitVec 64) (whence : CInt) : Option (BitVec 64) :=
  if whence = 0 then some offset
  else if whence = 1 then some (position + offset)
  else if whence = 2 then some (length + offset)
  else none

def transferred (s : State σ) : Call → BitVec 64
  | .read count =>
    if fdValidate s.table fd = false then 0
    else (fsRead file (fdOf s.table fd).node s.device (s.offset fd) count).2
  | .write count =>
    if fd = 1 ∨ fdValidate s.table fd = false then 0
    else (fsWrite file (fdOf s.table fd).node s.device (s.offset fd) count).2
  | .lseek _ _ => 0

def Ledger.enter (l : Ledger) (s : State σ) (ret : BitVec 64) : Call → Ledger
  | .lseek offset whence =>
    if ret.toInt < 0 then l
    else match seekTarget (file.length s.device) l.position offset whence with
      | some target => ⟨target, 0⟩
      | none => l
  | call => { l with moved := l.moved + (transferred file fd s call).toInt.toNat }

/-- A call goes by the ledger: with an error the offset stays, and a callback is given the offset
where the ledger is. -/
def Sound (l : Ledger) (s : State σ) (r : Result σ) : Prop :=
  (r.ret.toInt < 0 → r.state.offset fd = s.offset fd) ∧ ∀ offset ∈ r.given, offset = l.position

/-- Every call of a sequence goes by the ledger, and the offset is always where the ledger is. -/
def Accounted (l : Ledger) (s : State σ) : List Call → Prop
  | [] => s.offset fd = l.position
  | call :: calls =>
    s.offset fd = l.position ∧ Sound fd l s (step file fd s call) ∧
      Accounted (l.enter file fd s (step file fd s call).ret call) (step file fd s call).state calls

/-- The callback returns no error, and a seek goes to an offset that is no negative `off_t`, or
to where the descriptor is. -/
def Meets (s : State σ) : Call → Prop
  | .lseek offset whence =>
    fdValidate s.table fd = true →
      ∀ target ∈ seekTarget (file.length s.device) (s.offset fd) offset whence,
        0 ≤ target.toInt ∨ target = s.offset fd
  | call => 0 ≤ (transferred file fd s call).toInt

def AllMeet (s : State σ) : List Call → Prop
  | [] => True
  | call :: calls => Meets file fd s call ∧ AllMeet (step file fd s call).state calls

end Accounting

section Steps

variable {σ : Type*} {file : File σ} {fd : CInt} {s : State σ} {l : Ledger}

@[simp] theorem fdOf_setFd (t : FdTable.State) (d : Fd) (wild : Bool) :
    fdOf { t.setFd (t.fds (index fd)) d with wild := wild } fd = d := by
  simp [fdOf, FdTable.State.setFd]

theorem add_eq_self_iff (a i : BitVec 64) : a + i = a ↔ i = 0 := by
  constructor
  · intro h
    calc i = a + i - a := by rw [BitVec.add_comm, BitVec.add_sub_cancel]
      _ = 0 := by rw [h, BitVec.sub_self]; rfl
  · rintro rfl
    exact BitVec.add_zero a

theorem ofNat_toInt_toNat {i : BitVec 64} (hi : 0 ≤ i.toInt) :
    BitVec.ofNat 64 i.toInt.toNat = i := by
  have hmsb : i.msb = false := by
    rw [BitVec.msb_eq_toInt]
    exact decide_eq_false (by omega)
  rw [BitVec.toInt_eq_toNat_of_msb hmsb, Int.toNat_natCast, BitVec.ofNat_toNat, BitVec.setWidth_eq]

/-- The offset moves by what the callback returns, whatever that is. -/
theorem offset_sysRead (count : BitVec 64) :
    (sysRead file fd s count).state.offset fd =
      s.offset fd + transferred file fd s (.read count) := by
  unfold sysRead transferred
  by_cases h : fdValidate s.table fd = false
  · simp [h]
  · simp [h, FdTable.sysRead, onFd, State.offset]

theorem offset_sysWrite (count : BitVec 64) :
    (sysWrite file fd s count).state.offset fd =
      s.offset fd + transferred file fd s (.write count) := by
  unfold sysWrite transferred
  by_cases h1 : fd = 1#32
  · simp [h1]
  · by_cases h : fdValidate s.table fd = false
    · simp [h, h1]
    · simp [h, h1, FdTable.sysWrite, onFd, State.offset]

/-- An error that a transfer returns is the callback's, or the callback was not called. -/
theorem ret_sysRead (count : BitVec 64) :
    ((sysRead file fd s count).ret = transferred file fd s (.read count) ∨
      transferred file fd s (.read count) = 0) ∧
    ((transferred file fd s (.read count)).toInt < 0 →
      (sysRead file fd s count).ret = transferred file fd s (.read count)) := by
  unfold sysRead transferred
  by_cases h : fdValidate s.table fd = false
  · simp [h]
  · simp [h, FdTable.sysRead, onFd, State.offset]

theorem ret_sysWrite (count : BitVec 64) :
    ((sysWrite file fd s count).ret = transferred file fd s (.write count) ∨
      transferred file fd s (.write count) = 0) ∧
    ((transferred file fd s (.write count)).toInt < 0 →
      (sysWrite file fd s count).ret = transferred file fd s (.write count)) := by
  unfold sysWrite transferred
  by_cases h1 : fd = 1#32
  · simp [h1]
  · by_cases h : fdValidate s.table fd = false
    · simp [h, h1]
    · simp [h, h1, FdTable.sysWrite, onFd, State.offset]

theorem given_step (call : Call) :
    ∀ offset ∈ (step file fd s call).given, offset = s.offset fd := by
  intro offset hoffset
  cases call with
  | read count =>
    simp only [step, sysRead] at hoffset
    split at hoffset <;> simp_all [State.offset]
  | write count =>
    simp only [step, sysWrite] at hoffset
    split_ifs at hoffset <;> simp_all [State.offset]
  | lseek offset' whence => simp [step, sysLseek] at hoffset

/-- A transfer from where the ledger is: sound exactly when the callback returns no error, and the
ledger then follows. -/
theorem sound_transfer_iff {call : Call} (hpos : s.offset fd = l.position)
    (hoffset : (step file fd s call).state.offset fd = s.offset fd + transferred file fd s call)
    (hret : ((step file fd s call).ret = transferred file fd s call ∨
        transferred file fd s call = 0) ∧
      ((transferred file fd s call).toInt < 0 →
        (step file fd s call).ret = transferred file fd s call)) :
    Sound fd l s (step file fd s call) ↔ 0 ≤ (transferred file fd s call).toInt := by
  unfold Sound
  rw [hoffset, add_eq_self_iff]
  constructor
  · rintro ⟨hstay, -⟩
    by_contra hneg
    have hlt : (transferred file fd s call).toInt < 0 := by omega
    rw [hstay (by rw [hret.2 hlt]; exact hlt)] at hlt
    exact absurd hlt (by decide)
  · refine fun hnonneg => ⟨fun hneg => hret.1.resolve_left fun heq => ?_, ?_⟩
    · rw [heq] at hneg
      omega
    · rw [← hpos]
      exact given_step call

theorem position_transfer {i : BitVec 64} (hi : 0 ≤ i.toInt) :
    ({ l with moved := l.moved + i.toInt.toNat } : Ledger).position = l.position + i := by
  unfold Ledger.position
  rw [BitVec.ofNat_add, ofNat_toInt_toNat hi, BitVec.add_assoc]

/-- Where a seek leaves the descriptor, and what it returns. -/
theorem sysLseek_cases (file : File σ) (fd : CInt) (s : State σ) (offset : BitVec 64)
    (whence : CInt) :
    (fdValidate s.table fd = false ∧ sysLseek file fd s offset whence = ⟨s, -ebadf, none⟩) ∨
    (fdValidate s.table fd = true ∧
      seekTarget (file.length s.device) (s.offset fd) offset whence = none ∧
      (sysLseek file fd s offset whence).state.offset fd = s.offset fd ∧
      (sysLseek file fd s offset whence).ret = -einval) ∨
    (fdValidate s.table fd = true ∧
      ∃ target, seekTarget (file.length s.device) (s.offset fd) offset whence = some target ∧
        (sysLseek file fd s offset whence).state.offset fd = target ∧
        (sysLseek file fd s offset whence).ret = target) := by
  unfold sysLseek FdTable.sysLseek onFd seekTarget
  cases h : fdValidate s.table fd with
  | false => simp
  | true =>
    by_cases h0 : whence = 0#32
    · simp [h0, State.offset]
    · by_cases h1 : whence = 1#32
      · simp [h1, State.offset]
      · by_cases h2 : whence = 2#32
        · simp [h2, State.offset]
        · simp [h0, h1, h2, State.offset]

theorem sound_lseek_iff (offset : BitVec 64) (whence : CInt) :
    Sound fd l s (sysLseek file fd s offset whence) ↔ Meets file fd s (.lseek offset whence) := by
  have hgiven : ∀ given ∈ (sysLseek file fd s offset whence).given, given = l.position := by
    simp [sysLseek]
  unfold Sound Meets
  rw [and_iff_left hgiven]
  rcases sysLseek_cases file fd s offset whence with
    ⟨hv, heq⟩ | ⟨hv, hnone, hoffset, -⟩ | ⟨hv, target, hsome, hoffset, hret⟩
  · simp [hv, heq]
  · simp [hnone, hoffset]
  · simp only [hv, hsome, hoffset, hret, Option.mem_def, Option.some.injEq, forall_eq',
      forall_const]
    rw [← Int.not_lt, imp_iff_not_or]

theorem position_lseek (hpos : s.offset fd = l.position) {offset : BitVec 64} {whence : CInt}
    (hmeets : Meets file fd s (.lseek offset whence)) :
    (sysLseek file fd s offset whence).state.offset fd = (l.enter file fd s
      (sysLseek file fd s offset whence).ret (.lseek offset whence)).position := by
  dsimp only [Ledger.enter]
  rcases sysLseek_cases file fd s offset whence with
    ⟨hv, heq⟩ | ⟨hv, hnone, hoffset, hret⟩ | ⟨hv, target, hsome, hoffset, hret⟩
  · rw [heq]
    exact hpos
  · rw [hoffset, hret]
    exact hpos
  · rw [hoffset, hret, ← hpos, hsome]
    by_cases hneg : target.toInt < 0
    · rw [if_pos hneg, ← hpos]
      exact (hmeets hv target hsome).resolve_left (by omega)
    · rw [if_neg hneg]
      exact (BitVec.add_zero target).symm

/-- A call goes by the ledger exactly when it meets the condition, and the two agree after it. -/
theorem step_sound_iff (file : File σ) (hpos : s.offset fd = l.position) (call : Call) :
    (Sound fd l s (step file fd s call) ↔ Meets file fd s call) ∧
    (Meets file fd s call → (step file fd s call).state.offset fd =
      (l.enter file fd s (step file fd s call).ret call).position) := by
  cases call with
  | read count =>
    refine ⟨sound_transfer_iff hpos (offset_sysRead count) (ret_sysRead count), fun hmeets => ?_⟩
    exact ((offset_sysRead count).trans (by rw [hpos])).trans (position_transfer hmeets).symm
  | write count =>
    refine ⟨sound_transfer_iff hpos (offset_sysWrite count) (ret_sysWrite count), fun hmeets => ?_⟩
    exact ((offset_sysWrite count).trans (by rw [hpos])).trans (position_transfer hmeets).symm
  | lseek offset whence =>
    exact ⟨sound_lseek_iff offset whence, fun hmeets => position_lseek hpos hmeets⟩

theorem accounted_iff_of_position (calls : List Call) (hpos : s.offset fd = l.position) :
    Accounted file fd l s calls ↔ AllMeet file fd s calls := by
  induction calls generalizing s l with
  | nil => simp [Accounted, AllMeet, hpos]
  | cons call calls ih =>
    obtain ⟨hsound, hnext⟩ := step_sound_iff file hpos call
    unfold Accounted AllMeet
    rw [and_iff_right hpos, hsound]
    exact and_congr_right fun hmeets => ih (hnext hmeets)

end Steps

/-- From any descriptor, taken as it is, a sequence of reads, writes and seeks goes by its ledger
exactly when no callback returns an error and no seek goes to a negative offset. -/
theorem accounted_iff {σ : Type*} (file : File σ) (fd : CInt) (s : State σ) (calls : List Call) :
    Accounted file fd ⟨s.offset fd, 0⟩ s calls ↔ AllMeet file fd s calls :=
  accounted_iff_of_position calls (BitVec.add_zero _).symm

section Failing

/-- A file of 100 bytes on a device that fails with `-EIO` where the descriptor is at 64. -/
def failing : File Unit where
  read := some fun _ offset size => ((), if offset = 64 then -5 else size)
  write := none
  length := fun _ => 100

def openFile : State Unit :=
  ⟨(fdAdd (FdTable.initial (fun _ => null) fun _ => ⟨0, null, 0⟩) 0x1000 0x2000 fun _ => null), ()⟩

/-- After 64 bytes a read fails, and the next one is given byte 59; and a seek to -5 returns what a
caller takes for an error, with the offset there. -/
theorem failed_read_moves_offset :
    ¬ Accounted failing 0 ⟨openFile.offset 0, 0⟩ openFile [.read 64, .read 16, .read 16] ∧
    ((step failing 0 (step failing 0 (step failing 0 openFile (.read 64)).state (.read 16)).state
      (.read 16)).given = some 59) ∧
    ¬ Accounted failing 0 ⟨openFile.offset 0, 0⟩ openFile [.lseek (-5) 0] := by
  refine ⟨fun h => ?_, by decide, fun h => ?_⟩
  · exact absurd (h.2.2.2.1.1 (by decide)) (by decide)
  · exact absurd (h.2.1.1 (by decide)) (by decide)

end Failing

end ReduceOS.FileOffset
