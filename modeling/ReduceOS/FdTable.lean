import ReduceOS.Machine
import Mathlib.Logic.Function.Basic
import Mathlib.Data.List.Basic
import Mathlib.Tactic.SplitIfs

/-!
The file descriptors of a process: `fd_add`, `fd_remove` and the system calls that take a
descriptor. The table grows by reallocation, which leaves the entries behind the old ones as
they are found; `FD_VALIDATE` looks one entry too far, and `fd_remove` does nothing. Beside
the table, the descriptors that were handed out and not closed since are kept, and those
that were closed.
-/
namespace ReduceOS.FdTable

open Machine

structure Fd where
  fdNumber : CInt
  node : Addr
  offset : BitVec 64

/-- `fd_table_t` with the entries at `fds` and the memory behind them, the descriptors in memory,
the descriptors open and closed as the caller sees them, each with its node, the nodes that
were closed with their descriptor, and whether a call has followed an entry that is not one. -/
structure State where
  fds : ℕ → Addr
  amount : ℕ
  total : ℕ
  objects : Addr → Fd
  opened : List (CInt × Addr)
  closed : List (CInt × Addr)
  nodesClosed : List Addr
  wild : Bool

section Source

def ebadf : BitVec 64 := 9

def einval : BitVec 64 := 22

def enoent : CInt := 2

def eexist : CInt := 17

def enotdir : CInt := 20

def erofs : CInt := 30

def oCreat : CInt := 0x100

def oExcl : CInt := 0x200

def oAppend : CInt := 0x2000

def oDirectory : CInt := 0x200000

def index (fd : CInt) : ℕ := (fd.signExtend 64).toNat

def fdValidate (s : State) (fd : CInt) : Bool :=
  decide (index fd ≤ s.amount) && decide (s.fds (index fd) ≠ null)

def entryRead (s : State) (fd : CInt) : Option ℕ :=
  if index fd ≤ s.amount then some (index fd) else none

def fdOf (s : State) (fd : CInt) : Fd := s.objects (s.fds (index fd))

def State.setFd (s : State) (p : Addr) (fd : Fd) : State :=
  { s with objects := Function.update s.objects p fd }

def grow (s : State) (fresh : ℕ → Addr) : State :=
  if s.total ≤ s.amount then
    { s with total := s.total + 8, fds := fun i => if i < s.total then s.fds i else fresh i }
  else s

def fdAdd (s : State) (node newFd : Addr) (fresh : ℕ → Addr) : State :=
  let s := grow s fresh
  let s := s.setFd newFd ⟨BitVec.ofNat 32 s.amount, node, 0⟩
  { s with fds := Function.update s.fds s.amount newFd, amount := s.amount + 1 }

def fdRemove (s : State) (_fd : CInt) : State := s

/-- `sys_open`, once the path is looked up: `node` is what was found there. -/
def sysOpen (s : State) (node : Addr) (directory : Bool) (length : BitVec 64) (flags : CInt)
    (newFd : Addr) (fresh : ℕ → Addr) : State × CInt :=
  if node ≠ null ∧ flags &&& oCreat ≠ 0 ∧ flags &&& oExcl ≠ 0 then (s, -eexist)
  else if node = null ∧ flags &&& oCreat ≠ 0 then (s, -erofs)
  else if node ≠ null ∧ directory = false ∧ flags &&& oDirectory ≠ 0 then (s, -enotdir)
  else if node = null then (s, -enoent)
  else
    let s := fdAdd s node newFd fresh
    let s := if flags &&& oAppend ≠ 0 then
      s.setFd newFd { s.objects newFd with offset := length } else s
    (s, (s.objects newFd).fdNumber)

def onFd (s : State) (fd : CInt) (call : Fd → Fd × BitVec 64) : State × BitVec 64 :=
  if fdValidate s fd = false then (s, -ebadf)
  else
    let (d, ret) := call (fdOf s fd)
    ({ s.setFd (s.fds (index fd)) d with wild := s.wild || decide (s.amount ≤ index fd) }, ret)

def sysRead (s : State) (fd : CInt) (i : BitVec 64) : State × BitVec 64 :=
  onFd s fd fun d => ({ d with offset := d.offset + i }, i)

/-- `sys_write`, where `fs_write` returns `i`; descriptor 1 is the terminal. -/
def sysWrite (s : State) (fd : CInt) (count i : BitVec 64) : State × BitVec 64 :=
  if fd = 1 then (s, count)
  else onFd s fd fun d => ({ d with offset := d.offset + i }, i)

def sysFstat (s : State) (fd : CInt) : State × BitVec 64 := onFd s fd fun d => (d, 0)

def sysIoctl (s : State) (fd : CInt) (result : BitVec 64) : State × BitVec 64 :=
  onFd s fd fun d => (d, result)

def sysLseek (s : State) (fd : CInt) (length offset : BitVec 64) (whence : CInt) :
    State × BitVec 64 :=
  onFd s fd fun d =>
    if whence = 0 then ({ d with offset := offset }, offset)
    else if whence = 1 then ({ d with offset := d.offset + offset }, d.offset + offset)
    else if whence = 2 then ({ d with offset := length + offset }, length + offset)
    else (d, -einval)

def sysClose (s : State) (fd : CInt) : State × CInt :=
  if fdValidate s fd = false then (s, -9) else (fdRemove s fd, 0)

end Source

inductive Event
  | open (node : Addr) (directory : Bool) (length : BitVec 64) (flags : CInt) (newFd : Addr)
    (fresh : ℕ → Addr)
  | close (fd : CInt)
  | read (fd : CInt) (i : BitVec 64)
  | write (fd : CInt) (count i : BitVec 64)
  | fstat (fd : CInt)
  | ioctl (fd : CInt) (result : BitVec 64)
  | lseek (fd : CInt) (length offset : BitVec 64) (whence : CInt)

/-- A call, and what its caller makes of the descriptor that it returned or closed. -/
def State.step (s : State) : Event → State
  | .open node directory length flags newFd fresh =>
    let (s', fd) := sysOpen s node directory length flags newFd fresh
    if fd.toInt < 0 then s' else { s' with opened := (fd, node) :: s'.opened }
  | .close fd =>
    let (s', ret) := sysClose s fd
    if ret = 0 then
      { s' with
        opened := s'.opened.filter (·.1 ≠ fd)
        closed := s'.opened.filter (·.1 = fd) ++ s'.closed }
    else s'
  | .read fd i => (sysRead s fd i).1
  | .write fd count i => (sysWrite s fd count i).1
  | .fstat fd => (sysFstat s fd).1
  | .ioctl fd result => (sysIoctl s fd result).1
  | .lseek fd length offset whence => (sysLseek s fd length offset whence).1

def State.run (s : State) (events : List Event) : State := events.foldl State.step s

/-- The table of a new process, `PROCESS_FD_BASE_AMOUNT` entries long and cleared. -/
def initial (memory : ℕ → Addr) (objects : Addr → Fd) : State :=
  ⟨fun i => if i < 8 then null else memory i, 0, 8, objects, [], [], [], false⟩

/-- The entry behind the last descriptor is in the table and `NULL`. -/
def NullBehind (s : State) : Prop := s.amount < s.total ∧ s.fds s.amount = null

/-- A call does not name the entry behind the last descriptor, unless that is `NULL`. -/
def Names (s : State) (fd : CInt) : Prop := index fd ≠ s.amount ∨ NullBehind s

/-- `kmalloc` returns a descriptor that is not in use, the numbers of descriptors fit an `int`,
and the entry behind the last one is not used as one. -/
def Meets (s : State) : Event → Prop
  | .open _ _ _ _ newFd _ =>
    newFd ≠ null ∧ (∀ i < s.amount, s.fds i ≠ newFd) ∧ s.amount + 1 < 2 ^ 31
  | .close fd => Names s fd
  | .read fd _ => Names s fd
  | .write fd _ _ => Names s fd
  | .fstat fd => Names s fd
  | .ioctl fd _ => Names s fd
  | .lseek fd _ _ _ => Names s fd

def AllMeet (s : State) : List Event → Prop
  | [] => True
  | e :: events => Meets s e ∧ AllMeet (s.step e) events

/-- The descriptors that validate are those that are open, each of them is in the table and is
what was opened, nothing outside the table is read, the nodes of closed descriptors were closed,
once each, and no call has gone through anything but a descriptor. -/
structure Good (s : State) : Prop where
  valid : ∀ fd, fdValidate s fd = true ↔ ∃ node, (fd, node) ∈ s.opened
  entry : ∀ fd, fdValidate s fd = true →
    index fd < s.total ∧ (fdOf s fd).fdNumber = fd ∧ (fd, (fdOf s fd).node) ∈ s.opened
  inside : ∀ fd i, entryRead s fd = some i → i < s.total
  once : s.nodesClosed.Perm (s.closed.map (·.2))
  tame : s.wild = false

section Numbers

variable {fd : CInt} {i : ℕ}

theorem toInt_ofNat_of_lt (hi : i < 2 ^ 31) : (BitVec.ofNat 32 i).toInt = i := by
  rw [BitVec.toInt_eq_toNat_of_lt] <;> rw [BitVec.toNat_ofNat] <;> omega

theorem index_ofNat (hi : i < 2 ^ 31) : index (BitVec.ofNat 32 i) = i := by
  have hmsb : (BitVec.ofNat 32 i).msb = false := by
    rw [BitVec.msb_eq_false_iff_two_mul_lt, BitVec.toNat_ofNat]
    omega
  unfold index
  rw [BitVec.signExtend_eq_setWidth_of_msb_false hmsb, BitVec.toNat_setWidth, BitVec.toNat_ofNat]
  omega

theorem eq_ofNat_of_index (h : index fd = i) : fd = BitVec.ofNat 32 i := by
  have hback : (fd.signExtend 64).setWidth 32 = fd := by
    apply BitVec.eq_of_getLsbD_eq
    intro j hj
    rw [BitVec.getLsbD_setWidth, BitVec.getLsbD_signExtend]
    have hj' : j < 64 := by omega
    simp [hj, hj']
  rw [← hback, ← h, index]
  apply BitVec.eq_of_toNat_eq
  rw [BitVec.toNat_setWidth, BitVec.toNat_ofNat]

end Numbers

def descriptor (s : State) (i : ℕ) : CInt × Addr :=
  (BitVec.ofNat 32 i, (s.objects (s.fds i)).node)

structure Inv (s : State) : Prop where
  count : s.amount < 2 ^ 31
  room : s.amount ≤ s.total
  large : 8 ≤ s.total
  grown : 8 < s.total → 8 < s.amount
  entries : ∀ i < s.amount, s.fds i ≠ null ∧ (s.objects (s.fds i)).fdNumber = BitVec.ofNat 32 i
  apart : ∀ i < s.amount, ∀ j < s.amount, s.fds i = s.fds j → i = j
  handed : ∀ d, (d ∈ s.opened ∨ d ∈ s.closed) ↔ ∃ i < s.amount, d = descriptor s i
  base : s.total ≤ 8 → ∀ i, s.amount ≤ i → i < s.total → s.fds i = null
  none_closed : s.nodesClosed = []
  tame : s.wild = false

section Steps

variable {s : State} {fd : CInt}

theorem inv_initial (memory : ℕ → Addr) (objects : Addr → Fd) : Inv (initial memory objects) := by
  refine ⟨by simp [initial], by simp [initial], by simp [initial], by simp [initial], ?_, ?_, ?_,
      fun _ i _ hi => ?_, rfl, rfl⟩
  · intro i hi
    exact absurd hi (Nat.not_lt_zero i)
  · intro i hi
    exact absurd hi (Nat.not_lt_zero i)
  · intro d
    simp [initial]
  · simp only [initial] at hi ⊢
    rw [if_pos hi]

/-- What validates is an entry of the table, or the one behind the last descriptor. -/
theorem Inv.validate_iff (h : Inv s) :
    fdValidate s fd = true ↔
      index fd < s.amount ∨ (index fd = s.amount ∧ s.fds s.amount ≠ null) := by
  unfold fdValidate
  rw [Bool.and_eq_true, decide_eq_true_eq, decide_eq_true_eq]
  constructor
  · rintro ⟨hle, hne⟩
    rcases Nat.lt_or_eq_of_le hle with hlt | heq
    · exact Or.inl hlt
    · exact Or.inr ⟨heq, heq ▸ hne⟩
  · rintro (hlt | ⟨heq, hne⟩)
    · exact ⟨Nat.le_of_lt hlt, (h.entries _ hlt).1⟩
    · exact ⟨Nat.le_of_eq heq, heq ▸ hne⟩

theorem Inv.lt_of_validate (h : Inv s) (hnames : Names s fd) (hvalid : fdValidate s fd = true) :
    index fd < s.amount := by
  rcases h.validate_iff.mp hvalid with hlt | ⟨heq, hne⟩
  · exact hlt
  · exact absurd (hnames.resolve_left (not_ne_iff.mpr heq)).2 hne

/-- A call on a descriptor that leaves its number and node as they are. -/
theorem Inv.onFd (h : Inv s) (hnames : Names s fd) {call : Fd → Fd × BitVec 64}
    (hcall : ∀ d, (call d).1.fdNumber = d.fdNumber ∧ (call d).1.node = d.node) :
    Inv (onFd s fd call).1 := by
  unfold FdTable.onFd
  split_ifs with hvalid
  · exact h
  · have hlt := h.lt_of_validate hnames (by simpa using hvalid)
    have hsame : ∀ p,
        (Function.update s.objects (s.fds (index fd)) (call (fdOf s fd)).1 p).fdNumber =
        (s.objects p).fdNumber ∧
        (Function.update s.objects (s.fds (index fd)) (call (fdOf s fd)).1 p).node =
          (s.objects p).node := by
      intro p
      rw [Function.update_apply]
      split_ifs with hp
      · rw [hp]
        exact hcall _
      · exact ⟨rfl, rfl⟩
    refine ⟨h.count, h.room, h.large, h.grown, fun i hi => ⟨(h.entries i hi).1, ?_⟩, h.apart,
        fun d => ?_, h.base,
      h.none_closed, ?_⟩
    · rw [← (h.entries i hi).2]
      exact (hsame _).1
    · refine (h.handed d).trans (exists_congr fun i => and_congr_right fun _ => ?_)
      unfold descriptor
      rw [← (hsame (s.fds i)).2]
      rfl
    · have htame := h.tame
      simp [htame, hlt]

theorem Inv.close (h : Inv s) (fd : CInt) : Inv (s.step (.close fd)) := by
  unfold State.step sysClose fdRemove
  dsimp only
  split_ifs with hvalid hret hret
  · exact absurd hret (by simp)
  · exact h
  · refine ⟨h.count, h.room, h.large, h.grown, h.entries, h.apart, fun d => ?_, h.base,
        h.none_closed, h.tame⟩
    refine Iff.trans ?_ (h.handed d)
    simp only [List.mem_append, List.mem_filter, decide_eq_true_eq]
    by_cases hd : d.1 = fd
    · simp [hd]
    · simp [hd]
  · exact absurd rfl hret

structure Added (s s' : State) (node newFd : Addr) : Prop where
  amount : s'.amount = s.amount + 1
  total : (s.amount < s.total ∧ s'.total = s.total) ∨
    (s.total ≤ s.amount ∧ s'.total = s.total + 8)
  old : ∀ i, i ≠ s.amount → i < s.total → s'.fds i = s.fds i
  new : s'.fds s.amount = newFd
  objects : ∀ p ≠ newFd, s'.objects p = s.objects p
  number : (s'.objects newFd).fdNumber = BitVec.ofNat 32 s.amount
  node : (s'.objects newFd).node = node
  rest : s'.opened = s.opened ∧ s'.closed = s.closed ∧ s'.nodesClosed = s.nodesClosed ∧
    s'.wild = s.wild

theorem fdAdd_added (s : State) (node newFd : Addr) (fresh : ℕ → Addr) :
    Added s (fdAdd s node newFd fresh) node newFd := by
  unfold fdAdd grow
  by_cases hfull : s.total ≤ s.amount
  · simp only [if_pos hfull, State.setFd]
    refine ⟨rfl, Or.inr ⟨hfull, rfl⟩, fun i hne hlt => ?_, by simp, fun p hp => ?_, by simp,
      by simp, rfl, rfl, rfl, rfl⟩
    · simp [hne, hlt]
    · simp [hp]
  · simp only [if_neg hfull, State.setFd]
    refine ⟨rfl, Or.inl ⟨by omega, rfl⟩, fun i hne hlt => ?_, by simp, fun p hp => ?_, by simp,
      by simp, rfl, rfl, rfl, rfl⟩
    · simp [hne]
    · simp [hp]

/-- The offset of the new descriptor makes no difference. -/
theorem Added.setOffset {s' : State} {node newFd : Addr} (h : Added s s' node newFd)
    (offset : BitVec 64) :
    Added s (s'.setFd newFd { s'.objects newFd with offset := offset }) node newFd := by
  refine ⟨h.amount, h.total, h.old, h.new, fun p hp => ?_, ?_, ?_, h.rest⟩
  · rw [← h.objects p hp]
    simp [State.setFd, hp]
  · simpa [State.setFd] using h.number
  · simpa [State.setFd] using h.node

theorem Inv.added {s' : State} {node newFd : Addr} (h : Inv s) (hadd : Added s s' node newFd)
    (hnull : newFd ≠ null) (hfresh : ∀ i < s.amount, s.fds i ≠ newFd)
    (hcount : s.amount + 1 < 2 ^ 31) :
    Inv { s' with opened := (BitVec.ofNat 32 s.amount, node) :: s'.opened } := by
  obtain ⟨hopened, hclosed, hnodes, hwild⟩ := hadd.rest
  have hroom := h.room
  have hold : ∀ i < s.amount, s'.fds i = s.fds i ∧ s'.objects (s'.fds i) = s.objects (s.fds i) := by
    intro i hi
    have hfds := hadd.old i (by omega) (by omega)
    exact ⟨hfds, by rw [hfds, hadd.objects _ (hfresh i hi)]⟩
  have hcases : ∀ i < s.amount + 1, i < s.amount ∨ i = s.amount := fun i hi => by omega
  refine ⟨?_, ?_, ?_, ?_, ?_, ?_, ?_, ?_, ?_, ?_⟩ <;> dsimp only
  · rw [hadd.amount]
    exact hcount
  · rw [hadd.amount]
    rcases hadd.total with ⟨hlt, heq⟩ | ⟨-, heq⟩ <;> omega
  · have hlarge := h.large
    rcases hadd.total with ⟨-, heq⟩ | ⟨-, heq⟩ <;> omega
  · have hlarge := h.large
    have hgrown := h.grown
    rw [hadd.amount]
    rcases hadd.total with ⟨-, heq⟩ | ⟨hfull, heq⟩ <;> omega
  · intro i hi
    rw [hadd.amount] at hi
    rcases hcases i hi with hlt | rfl
    · rw [(hold i hlt).2, (hold i hlt).1]
      exact h.entries i hlt
    · rw [hadd.new]
      exact ⟨hnull, hadd.number⟩
  · intro i hi j hj heq
    rw [hadd.amount] at hi hj
    rcases hcases i hi with hi | rfl <;> rcases hcases j hj with hj | rfl
    · rw [(hold i hi).1, (hold j hj).1] at heq
      exact h.apart i hi j hj heq
    · rw [(hold i hi).1, hadd.new] at heq
      exact absurd heq (hfresh i hi)
    · rw [(hold j hj).1, hadd.new] at heq
      exact absurd heq.symm (hfresh j hj)
    · rfl
  · intro d
    have hdesc : ∀ i < s.amount, descriptor s' i = descriptor s i := by
      intro i hi
      simp only [descriptor, (hold i hi).2]
    have hlast : descriptor s' s.amount = (BitVec.ofNat 32 s.amount, node) := by
      simp only [descriptor, hadd.new, hadd.node]
    have hgoal : (d ∈ (BitVec.ofNat 32 s.amount, node) :: s'.opened ∨ d ∈ s'.closed) ↔
        d = (BitVec.ofNat 32 s.amount, node) ∨ (d ∈ s.opened ∨ d ∈ s.closed) := by
      rw [hopened, hclosed, List.mem_cons, or_assoc]
    refine hgoal.trans ?_
    rw [h.handed, hadd.amount]
    constructor
    · rintro (rfl | ⟨i, hi, rfl⟩)
      · exact ⟨s.amount, by omega, hlast.symm⟩
      · exact ⟨i, by omega, (hdesc i hi).symm⟩
    · rintro ⟨i, hi, hd⟩
      rcases hcases i hi with hlt | rfl
      · exact Or.inr ⟨i, hlt, hd.trans (hdesc i hlt)⟩
      · exact Or.inl (hd.trans hlast)
  · intro htotal i hi hlt
    have hlarge := h.large
    rw [hadd.amount] at hi
    rcases hadd.total with ⟨-, heq⟩ | ⟨-, heq⟩
    · rw [heq] at htotal hlt
      rw [hadd.old i (by omega) hlt]
      exact h.base htotal i (by omega) hlt
    · omega
  · rw [hnodes, h.none_closed]
  · rw [hwild, h.tame]

/-- `sys_open` returns an error and leaves the table alone, or adds a descriptor to it. -/
theorem sysOpen_cases (s : State) (node : Addr) (directory : Bool) (length : BitVec 64)
    (flags : CInt) (newFd : Addr) (fresh : ℕ → Addr) :
    (∃ err, sysOpen s node directory length flags newFd fresh = (s, err) ∧ err.toInt < 0) ∨
      ∃ s', sysOpen s node directory length flags newFd fresh = (s', BitVec.ofNat 32 s.amount) ∧
        Added s s' node newFd := by
  have hadded := fdAdd_added s node newFd fresh
  unfold sysOpen
  split_ifs with hexcl hcreat hdir hnone happend
  · exact Or.inl ⟨_, rfl, by decide⟩
  · exact Or.inl ⟨_, rfl, by decide⟩
  · exact Or.inl ⟨_, rfl, by decide⟩
  · exact Or.inl ⟨_, rfl, by decide⟩
  · have hfinal := hadded.setOffset length
    exact Or.inr ⟨_, Prod.ext rfl hfinal.number, hfinal⟩
  · exact Or.inr ⟨_, Prod.ext rfl hadded.number, hadded⟩

theorem Inv.open (h : Inv s) {node newFd : Addr} {directory : Bool} {length : BitVec 64}
    {flags : CInt} {fresh : ℕ → Addr}
    (hmeets : Meets s (.open node directory length flags newFd fresh)) :
    Inv (s.step (.open node directory length flags newFd fresh)) := by
  obtain ⟨hnull, hfresh, hcount⟩ := hmeets
  rcases sysOpen_cases s node directory length flags newFd fresh with
    ⟨err, heq, herr⟩ | ⟨s', heq, hadded⟩
  · simp only [State.step, heq, if_pos herr]
    exact h
  · have hpos : ¬ (BitVec.ofNat 32 s.amount).toInt < 0 := by
      rw [toInt_ofNat_of_lt (by omega)]
      omega
    simp only [State.step, heq, if_neg hpos]
    exact h.added hadded hnull hfresh hcount

theorem Inv.step (h : Inv s) {e : Event} (he : Meets s e) : Inv (s.step e) := by
  cases e with
  | «open» node directory length flags newFd fresh => exact h.open he
  | close fd => exact h.close fd
  | read fd i => exact h.onFd he fun d => ⟨rfl, rfl⟩
  | write fd count i =>
    change Inv (sysWrite s fd count i).1
    unfold sysWrite
    split_ifs
    · exact h
    · exact h.onFd he fun d => ⟨rfl, rfl⟩
  | fstat fd => exact h.onFd he fun d => ⟨rfl, rfl⟩
  | ioctl fd result => exact h.onFd he fun d => ⟨rfl, rfl⟩
  | lseek fd length offset whence =>
    refine h.onFd he fun d => ?_
    split_ifs <;> exact ⟨rfl, rfl⟩

theorem Inv.run (h : Inv s) {events : List Event} (hmeet : AllMeet s events) :
    Inv (s.run events) := by
  induction events generalizing s with
  | nil => exact h
  | cons e events ih => exact ih (h.step hmeet.1) hmeet.2

theorem Inv.good (h : Inv s) (hclosed : s.closed = []) (hbehind : NullBehind s) : Good s := by
  have hvalid : ∀ fd, fdValidate s fd = true ↔ index fd < s.amount := by
    intro fd
    rw [h.validate_iff]
    exact or_iff_left fun hamount => hamount.2 hbehind.2
  have hopened : ∀ d, d ∈ s.opened ↔ ∃ i < s.amount, d = descriptor s i := by
    intro d
    rw [← h.handed, hclosed]
    simp
  have hentry : ∀ fd, index fd < s.amount → (fd, (fdOf s fd).node) = descriptor s (index fd) := by
    intro fd hlt
    exact Prod.ext (eq_ofNat_of_index rfl) rfl
  have hroom := h.room
  refine ⟨fun fd => ?_, fun fd hfd => ?_, fun fd i hi => ?_, by simp [h.none_closed, hclosed],
    h.tame⟩
  · rw [hvalid]
    constructor
    · intro hlt
      exact ⟨_, (hopened _).mpr ⟨index fd, hlt, hentry fd hlt⟩⟩
    · rintro ⟨node, hmem⟩
      obtain ⟨i, hi, hd⟩ := (hopened _).mp hmem
      have hfd : fd = BitVec.ofNat 32 i := congrArg Prod.fst hd
      have hcount := h.count
      rw [hfd, index_ofNat (by omega)]
      exact hi
  · rw [hvalid] at hfd
    refine ⟨by omega, ?_, (hopened _).mpr ⟨index fd, hfd, hentry fd hfd⟩⟩
    exact (h.entries _ hfd).2.trans (eq_ofNat_of_index rfl).symm
  · unfold entryRead at hi
    split_ifs at hi with hle
    have hbound := hbehind.1
    have heq := Option.some.inj hi
    omega

theorem Inv.good_iff (h : Inv s) : Good s ↔ s.closed = [] ∧ NullBehind s := by
  refine ⟨fun hgood => ⟨?_, ?_, ?_⟩, fun hs => h.good hs.1 hs.2⟩
  · have hperm := hgood.once
    rw [h.none_closed, List.nil_perm] at hperm
    exact List.map_eq_nil_iff.mp hperm
  · -- the descriptor whose number is the number of descriptors
    refine hgood.inside (BitVec.ofNat 32 s.amount) s.amount ?_
    unfold entryRead
    rw [index_ofNat h.count, if_pos (Nat.le_refl _)]
  · by_contra hne
    have hvalid : fdValidate s (BitVec.ofNat 32 s.amount) = true := by
      rw [h.validate_iff, index_ofNat h.count]
      exact Or.inr ⟨rfl, hne⟩
    obtain ⟨node, hmem⟩ := (hgood.valid _).mp hvalid
    obtain ⟨i, hi, hd⟩ := (h.handed _).mp (Or.inl hmem)
    have hcount := h.count
    have hsame : BitVec.ofNat 32 s.amount = BitVec.ofNat 32 i := congrArg Prod.fst hd
    have hindex := congrArg index hsame
    rw [index_ofNat hcount, index_ofNat (by omega)] at hindex
    omega

/-- With fewer than eight descriptors, the table is the one that was cleared. -/
theorem Inv.nullBehind (h : Inv s) (hfew : s.amount < 8) : NullBehind s := by
  have hlarge := h.large
  have hgrown := h.grown
  exact ⟨by omega, h.base (by omega) _ (Nat.le_refl _) (by omega)⟩

end Steps

/-- Where a run of calls comes to that do not go through the entry behind the last descriptor, the
descriptors are as they should be exactly when none has been closed and that entry is in the table
and `NULL`, as it is while there are fewer than eight of them. -/
theorem descriptors_of_run {memory : ℕ → Addr} {objects : Addr → Fd} {events : List Event}
    (hmeet : AllMeet (initial memory objects) events) :
    (Good ((initial memory objects).run events) ↔
      ((initial memory objects).run events).closed = [] ∧
        NullBehind ((initial memory objects).run events)) ∧
    (((initial memory objects).run events).amount < 8 →
      NullBehind ((initial memory objects).run events)) := by
  have h := (inv_initial memory objects).run hmeet
  exact ⟨h.good_iff, h.nullBehind⟩

def newTable : State := initial (fun _ => null) fun _ => ⟨0, null, 0⟩

/-- One file is opened, read and sought in. -/
theorem descriptors_of_one_file :
    Good (newTable.run [.open 0x1000 false 100 0 0x2000 fun _ => null, .read 0 16,
      .lseek 0 100 0 0, .read (-1) 16]) := by
  have hmeet : AllMeet newTable [.open 0x1000 false 100 0 0x2000 fun _ => null, .read 0 16,
      .lseek 0 100 0 0, .read (-1) 16] := by
    refine ⟨⟨by decide, fun i hi => absurd hi (Nat.not_lt_zero i), by decide⟩, Or.inl ?_,
      Or.inl ?_, Or.inl ?_, trivial⟩ <;> decide
  obtain ⟨hgood, hfew⟩ := descriptors_of_run hmeet
  exact hgood.mpr ⟨by decide, hfew (by decide)⟩

/-- A file is opened and closed: its descriptor still validates, and its node is not closed. And
with eight files open, the descriptor of a ninth is looked for past the end of the table. -/
theorem closed_descriptor_validates :
    (newTable.run [.open 0x1000 false 100 0 0x2000 fun _ => null, .close 0]).opened = [] ∧
    fdValidate (newTable.run [.open 0x1000 false 100 0 0x2000 fun _ => null, .close 0]) 0 = true ∧
    ¬ Good (newTable.run [.open 0x1000 false 100 0 0x2000 fun _ => null, .close 0]) ∧
    ((newTable.run ((List.range 8).map fun i =>
      .open 0x1000 false 100 0 (BitVec.ofNat 64 (0x2000 + 32 * i)) fun _ => null)).total = 8 ∧
    entryRead (newTable.run ((List.range 8).map fun i =>
      .open 0x1000 false 100 0 (BitVec.ofNat 64 (0x2000 + 32 * i)) fun _ => null)) 8 = some 8) := by
  have hopened :
      (newTable.run [.open 0x1000 false 100 0 0x2000 fun _ => null, .close 0]).opened = [] := by
    decide
  have hvalid : fdValidate
      (newTable.run [.open 0x1000 false 100 0 0x2000 fun _ => null, .close 0]) 0 = true := by decide
  refine ⟨hopened, hvalid, fun hgood => ?_, by decide +kernel, by decide +kernel⟩
  obtain ⟨node, hnode⟩ := (hgood.valid 0).mp hvalid
  rw [hopened] at hnode
  exact absurd hnode List.not_mem_nil

end ReduceOS.FdTable
