import ReduceOS.UserHeap
import ReduceOS.WellBuilt

/-!
`sbrk` and `brk` of libpolyhedron over the system call. libc keeps the break in
`curbrk` and asks for it when it has none; the kernel refuses a break below
`heap_base` by answering with the one it has, which is not below what was asked for, so
libc takes the refusal for a success.
-/
namespace ReduceOS.LibcBreak

open Machine Page Physical Outcome UserAccess UserHeap PmmAllocator WellBuilt

variable {P : Type} (A : Allocator P)

structure Caller (P : Type) where
  curbrk : Addr
  errno : CInt
  process : Process
  state : State P

def syscallBrk (c : Caller P) (addr : Addr) : Except Panic (Addr × Caller P) := do
  let (ret, process, s) ← sysBrk A c.state c.process addr
  return (ret, { c with process := process, state := s })

/-- The first lines of `brk`: `curbrk` is asked for if there is none. -/
def fetchBreak (c : Caller P) : Except Panic (Caller P) :=
  if c.curbrk = 0 then do
    let (ret, c) ← syscallBrk A c 0
    return { c with curbrk := ret }
  else .ok c

def brk (c : Caller P) (addr : Addr) : Except Panic (CInt × Caller P) := do
  let c ← fetchBreak A c
  let (newbrk, c) ← syscallBrk A c addr
  if newbrk < addr then return (-1, { c with errno := enomem })
  else return (0, { c with curbrk := newbrk })

def outOfRange (curbrk increment : Addr) : Bool :=
  (BitVec.slt 0 increment && decide (curbrk + increment < curbrk)) ||
    (BitVec.slt increment 0 && decide (curbrk < -increment))

def sbrkFrom (c : Caller P) (increment : Addr) : Except Panic (Addr × Caller P) :=
  if outOfRange c.curbrk increment then .ok (-1, { c with errno := enomem })
  else do
    let (ret, c') ← brk A c (c.curbrk + increment)
    if BitVec.slt ret 0 then return (-1, c') else return (c.curbrk, c')

def sbrk (c : Caller P) (increment : Addr) : Except Panic (Addr × Caller P) :=
  if c.curbrk = 0 then do
    let (ret, c) ← brk A c 0
    if BitVec.slt ret 0 then return (-1, c) else sbrkFrom A c increment
  else sbrkFrom A c increment

inductive Called : Caller P → Caller P → Prop
  | brk {c c' : Caller P} {addr : Addr} {ret : CInt} (hcall : brk A c addr = .ok (ret, c')) :
      Called c c'
  | sbrk {c c' : Caller P} {increment ret : Addr} (hcall : sbrk A c increment = .ok (ret, c')) :
      Called c c'

/-- What `sbrk` promises: the break moved and the old one is returned, or nothing
happened and the answer is `(void*)-1`. -/
def SbrkRight (c : Caller P) (increment ret : Addr) (c' : Caller P) : Prop :=
  c'.process.heap = c.process.heap + increment ∧ ret = c.process.heap ∨
    c'.process.heap ≠ c.process.heap + increment ∧ ret = -1 ∧ c'.process = c.process ∧
      c'.state = c.state

/-- The increment keeps the break at or above `heap_base` or is refused by libc itself, and
asking for the break does not set it to zero. A break at the last address is its own
`(void*)-1`. -/
def Movable (c : Caller P) (increment : Addr) : Prop :=
  (BitVec.slt increment 0 = true →
    c.process.heap < -increment ∨ c.process.heapBase ≤ c.process.heap + increment ∨
      c.process.heap = -1) ∧
  (c.process.heapBase = 0 → c.curbrk = 0 → c.process.heap = 0)

section Kernel

variable {A} {c c' : Caller P} {addr increment ret : Addr}

def answer (process : Process) : Addr := if process.heapBase = 0 then 0 else process.heap

def synced (c : Caller P) : Caller P :=
  if c.curbrk = 0 then
    { c with curbrk := answer c.process, process := { c.process with heap := answer c.process } }
  else c

theorem syscallBrk_zero (c : Caller P) : syscallBrk A c 0 =
    .ok (answer c.process, { c with process := { c.process with heap := answer c.process } }) := by
  unfold syscallBrk sysBrk answer
  by_cases hbase : c.process.heapBase = 0
  · have hnot : ¬ (0 : Addr) < c.process.heapBase := by rw [hbase]; decide
    rw [if_neg hnot, if_pos hbase]
    split_ifs
    · rfl
    · rfl
  · have hlt : (0 : Addr) < c.process.heapBase := by
      rw [BitVec.lt_def]
      have : c.process.heapBase.toNat ≠ 0 := fun h => hbase (BitVec.eq_of_toNat_eq h)
      change 0 < c.process.heapBase.toNat
      omega
    rw [if_pos hlt, if_neg hbase]
    rfl

theorem fetchBreak_eq (c : Caller P) : fetchBreak A c = .ok (synced c) := by
  unfold fetchBreak synced
  split_ifs
  · rw [syscallBrk_zero]
    rfl
  · rfl

theorem answer_answer (process : Process) :
    answer { process with heap := answer process } = answer process := by
  unfold answer
  split_ifs <;> rfl

theorem brk_zero (hzero : c.curbrk = 0) : brk A c 0 = .ok (0, synced c) := by
  unfold brk
  rw [fetchBreak_eq]
  change (syscallBrk A (synced c) 0 >>= _) = _
  rw [syscallBrk_zero]
  have hnot : ∀ x : Addr, ¬ x < 0 := by
    intro x
    rw [BitVec.lt_def]
    exact Nat.not_lt_zero _
  simp only [bind, Except.bind, synced, hzero, if_true, answer_answer, hnot, if_false]
  rfl

/-- The kernel sets the break, or answers with the one it has. -/
theorem syscallBrk_spec (hcall : syscallBrk A c addr = .ok (ret, c')) :
    c'.curbrk = c.curbrk ∧ c'.process.heapBase = c.process.heapBase ∧
      (if addr < c.process.heapBase then
        ret = c.process.heap ∧ c'.process = c.process ∧ c'.state = c.state
      else ret = addr ∧ c'.process.heap = addr) := by
  unfold syscallBrk sysBrk at hcall
  split_ifs at hcall ⊢ with hbase hshrink
  · obtain ⟨rfl, rfl⟩ := Prod.mk.inj (Except.ok.inj hcall)
    exact ⟨rfl, rfl, rfl, rfl, rfl⟩
  · cases hfree : memFree A c.state c.process.dir addr (c.process.heap - addr) with
    | error e => rw [hfree] at hcall; contradiction
    | ok s =>
      rw [hfree] at hcall
      obtain ⟨rfl, rfl⟩ := Prod.mk.inj (Except.ok.inj hcall)
      exact ⟨rfl, rfl, rfl, rfl⟩
  · obtain ⟨rfl, rfl⟩ := Prod.mk.inj (Except.ok.inj hcall)
    exact ⟨rfl, rfl, rfl, rfl⟩

end Kernel

structure Known (c : Caller P) : Prop where
  agrees : c.curbrk = 0 ∨ c.curbrk = c.process.heap
  ordered : c.process.heapBase.toNat ≤ c.process.heap.toNat

section Calls

variable {A} {c c' : Caller P} {addr increment : Addr}

theorem synced_heapBase (c : Caller P) : (synced c).process.heapBase = c.process.heapBase := by
  unfold synced
  split_ifs <;> rfl

theorem synced_state (c : Caller P) : (synced c).state = c.state := by
  unfold synced
  split_ifs <;> rfl

theorem synced_curbrk (hk : Known c) : (synced c).curbrk = (synced c).process.heap := by
  unfold synced
  split_ifs with hzero
  · rfl
  · exact hk.agrees.resolve_left hzero

/-- Asking for the break leaves the process alone, unless its heap starts at zero. -/
theorem synced_process (hkeep : c.process.heapBase = 0 → c.curbrk = 0 → c.process.heap = 0) :
    (synced c).process = c.process := by
  unfold synced
  split_ifs with hzero
  · unfold answer
    split_ifs with hbase
    · rw [← hkeep hbase hzero]
    · rfl
  · rfl

theorem synced_known (hk : Known c) : Known (synced c) := by
  refine ⟨Or.inr (synced_curbrk hk), ?_⟩
  unfold synced
  split_ifs
  · unfold answer
    split_ifs with hbase
    · rw [hbase]
    · exact hk.ordered
  · exact hk.ordered

theorem synced_synced (c : Caller P) : synced (synced c) = synced c := by
  by_cases hzero : c.curbrk = 0
  · have hs : synced c = { c with
        curbrk := answer c.process
        process := { c.process with heap := answer c.process } } := if_pos hzero
    rw [hs]
    unfold synced
    split_ifs
    · simp only [answer_answer]
    · rfl
  · have hs : synced c = c := if_neg hzero
    rw [hs, hs]

/-- `brk` never fails: what the kernel answers is at least what was asked for. -/
theorem brk_spec (hk : Known c) {ret : CInt} (hcall : brk A c addr = .ok (ret, c')) :
    ret = 0 ∧ Known c' ∧ c'.curbrk = c'.process.heap ∧
      (if addr < c.process.heapBase then
        c'.process = (synced c).process ∧ c'.state = c.state
      else c'.process.heap = addr) := by
  unfold brk at hcall
  rw [fetchBreak_eq] at hcall
  obtain ⟨⟨newbrk, c₁⟩, hsys, hrest⟩ := bind_eq_ok (show
      syscallBrk A (synced c) addr >>= _ = _ from hcall)
  obtain ⟨hcur, hbase, hset⟩ := syscallBrk_spec hsys
  rw [synced_heapBase] at hset hbase
  have hordered := (synced_known hk).ordered
  rw [synced_heapBase] at hordered
  by_cases hlow : addr < c.process.heapBase
  · rw [if_pos hlow] at hset ⊢
    obtain ⟨rfl, hprocess, hstate⟩ := hset
    have hnot : ¬ (synced c).process.heap < addr := by
      rw [BitVec.lt_def] at hlow ⊢
      omega
    simp only [if_neg hnot] at hrest
    obtain ⟨rfl, rfl⟩ := Prod.mk.inj (Except.ok.inj hrest)
    refine ⟨rfl, ⟨Or.inr ?_, ?_⟩, ?_, hprocess, hstate.trans (synced_state c)⟩
    · exact congrArg Process.heap hprocess.symm
    · change c₁.process.heapBase.toNat ≤ c₁.process.heap.toNat
      rw [hbase, hprocess]
      exact hordered
    · exact congrArg Process.heap hprocess.symm
  · rw [if_neg hlow] at hset ⊢
    obtain ⟨rfl, hheap⟩ := hset
    have hnot : ¬ newbrk < newbrk := by
      rw [BitVec.lt_def]
      omega
    simp only [if_neg hnot] at hrest
    obtain ⟨rfl, rfl⟩ := Prod.mk.inj (Except.ok.inj hrest)
    refine ⟨rfl, ⟨Or.inr hheap.symm, ?_⟩, hheap.symm, hheap⟩
    change c₁.process.heapBase.toNat ≤ c₁.process.heap.toNat
    rw [hbase, hheap]
    rw [BitVec.lt_def] at hlow
    omega

/-- `sbrk` is `sbrkFrom` at a caller that knows the break. -/
theorem sbrk_eq (c : Caller P) : sbrk A c increment = sbrkFrom A (synced c) increment := by
  unfold sbrk
  by_cases hzero : c.curbrk = 0
  · rw [if_pos hzero, brk_zero hzero]
    rfl
  · rw [if_neg hzero, show synced c = c from if_neg hzero]

/-- What a call of `sbrk` does: libc refuses and nothing happens, or the kernel is asked and
the old break is returned whatever it answers. -/
theorem sbrk_spec (hk : Known c) {ret : Addr} (hcall : sbrk A c increment = .ok (ret, c')) :
    Known c' ∧ c'.curbrk = c'.process.heap ∧
      (if outOfRange (synced c).process.heap increment then
        ret = -1 ∧ c'.process = (synced c).process ∧ c'.state = c.state
      else ret = (synced c).process.heap ∧
        (if (synced c).process.heap + increment < c.process.heapBase then
          c'.process = (synced c).process ∧ c'.state = c.state
        else c'.process.heap = (synced c).process.heap + increment)) := by
  have hd := synced_known hk
  have hcur := synced_curbrk hk
  rw [sbrk_eq, sbrkFrom] at hcall
  by_cases hrange : outOfRange (synced c).process.heap increment
  · rw [if_pos hrange]
    rw [if_pos (hcur ▸ hrange)] at hcall
    obtain ⟨rfl, rfl⟩ := Prod.mk.inj (Except.ok.inj hcall)
    exact ⟨⟨Or.inr hcur, hd.ordered⟩, hcur, rfl, rfl, synced_state c⟩
  · rw [if_neg hrange]
    rw [if_neg (hcur ▸ hrange), hcur] at hcall
    obtain ⟨⟨ret', c₁⟩, hbrk, hrest⟩ := bind_eq_ok hcall
    obtain ⟨rfl, hk', hcur', hmove⟩ := brk_spec hd hbrk
    obtain ⟨rfl, rfl⟩ := Prod.mk.inj (Except.ok.inj hrest)
    rw [synced_heapBase, synced_synced, synced_state] at hmove
    exact ⟨hk', hcur', rfl, hmove⟩

theorem known_of_called (hk : Known c) (h : Called A c c') :
    Known c' ∧ c'.curbrk = c'.process.heap := by
  cases h with
  | brk hcall => exact ⟨(brk_spec hk hcall).2.1, (brk_spec hk hcall).2.2.1⟩
  | sbrk hcall => exact ⟨(sbrk_spec hk hcall).1, (sbrk_spec hk hcall).2.1⟩

/-- libc refuses no increment of zero, and a negative one only if the break is too small. -/
theorem outOfRange_cases {curbrk : Addr} (hrange : outOfRange curbrk increment) :
    increment ≠ 0 ∧ (BitVec.slt increment 0 = true → curbrk < -increment) := by
  unfold outOfRange at hrange
  simp only [Bool.or_eq_true, Bool.and_eq_true, decide_eq_true_eq] at hrange
  rcases hrange with ⟨hpos, -⟩ | ⟨hneg, hlt⟩
  · refine ⟨fun h => ?_, fun hneg => ?_⟩
    · rw [h] at hpos
      exact absurd hpos (by decide)
    · rw [BitVec.slt_iff_toInt_lt] at hpos hneg
      omega
  · refine ⟨fun h => ?_, fun _ => hlt⟩
    rw [h] at hneg
    exact absurd hneg (by decide)

/-- An increment that libc does not refuse and that takes the break down is negative. -/
theorem negative_of_lt {curbrk : Addr} (hrange : ¬ outOfRange curbrk increment)
    (hlt : curbrk + increment < curbrk) : BitVec.slt increment 0 = true := by
  unfold outOfRange at hrange
  simp only [Bool.or_eq_true, Bool.and_eq_true, decide_eq_true_eq, not_or, not_and] at hrange
  by_contra hneg
  have hpos : ¬ BitVec.slt 0 increment = true := fun hpos => hrange.1 hpos hlt
  rw [BitVec.slt_iff_toInt_lt] at hpos hneg
  have hzero : increment = 0#64 :=
    BitVec.eq_of_toInt_eq (le_antisymm (not_lt.mp hpos) (not_lt.mp hneg))
  rw [hzero, BitVec.add_zero, BitVec.lt_def] at hlt
  omega

/-- Asking for a break whose heap starts at zero puts it back there. -/
theorem synced_heap_zero (hbase : c.process.heapBase = 0) (hzero : c.curbrk = 0) :
    (synced c).process.heap = 0 := by
  unfold synced answer
  rw [if_pos hzero, if_pos hbase]

theorem sbrkRight_iff (hk : Known c) {ret : Addr} (hcall : sbrk A c increment = .ok (ret, c')) :
    SbrkRight c increment ret c' ↔ Movable c increment := by
  obtain ⟨-, -, hspec⟩ := sbrk_spec hk hcall
  by_cases hkeep : c.process.heapBase = 0 → c.curbrk = 0 → c.process.heap = 0
  · rw [synced_process hkeep] at hspec
    by_cases hrange : outOfRange c.process.heap increment
    · rw [if_pos hrange] at hspec
      obtain ⟨rfl, hprocess, hstate⟩ := hspec
      obtain ⟨hne, hneg⟩ := outOfRange_cases hrange
      have hmoves : c'.process.heap ≠ c.process.heap + increment := by
        rw [hprocess]
        intro h
        exact hne (by simpa using h.symm)
      exact iff_of_true (Or.inr ⟨hmoves, rfl, hprocess, hstate⟩)
        ⟨fun h => Or.inl (hneg h), hkeep⟩
    · rw [if_neg hrange] at hspec
      obtain ⟨rfl, hmove⟩ := hspec
      by_cases hlow : c.process.heap + increment < c.process.heapBase
      · rw [if_pos hlow] at hmove
        obtain ⟨hprocess, hstate⟩ := hmove
        have hdown : c.process.heap + increment < c.process.heap := by
          have := hk.ordered
          rw [BitVec.lt_def] at hlow ⊢
          omega
        have hneg := negative_of_lt hrange hdown
        have hstays : c'.process.heap ≠ c.process.heap + increment := by
          rw [hprocess]
          intro h
          rw [← h, BitVec.lt_def] at hdown
          omega
        constructor
        · rintro (⟨h, -⟩ | ⟨-, h, -⟩)
          · exact absurd h hstays
          · exact ⟨fun _ => Or.inr (Or.inr h), hkeep⟩
        · rintro ⟨h, -⟩
          rcases h hneg with h | h | h
          · refine absurd ?_ hrange
            unfold outOfRange
            rw [hneg, decide_eq_true h, Bool.and_self, Bool.or_true]
          · rw [BitVec.lt_def] at hlow
            rw [BitVec.le_def] at h
            omega
          · exact Or.inr ⟨hstays, h, hprocess, hstate⟩
      · rw [if_neg hlow] at hmove
        refine iff_of_true (Or.inl ⟨hmove, rfl⟩) ⟨fun _ => Or.inr (Or.inl ?_), hkeep⟩
        rw [BitVec.lt_def] at hlow
        rw [BitVec.le_def]
        omega
  · refine iff_of_false (fun hright => ?_) fun h => hkeep h.2
    simp only [Classical.not_imp] at hkeep
    obtain ⟨hbase, hzero, hheap⟩ := hkeep
    have hsynced := synced_heap_zero hbase hzero
    rw [hsynced] at hspec
    by_cases hrange : outOfRange 0 increment
    · rw [if_pos hrange] at hspec
      obtain ⟨rfl, hprocess, -⟩ := hspec
      rcases hright with ⟨hmoved, hold⟩ | ⟨-, -, hsame, -⟩
      · rw [hprocess, hsynced, ← hold] at hmoved
        have hone : increment = 1 := by
          rw [BitVec.add_comm] at hmoved
          exact (BitVec.sub_eq_iff_eq_add.mpr hmoved).symm
        rw [hone] at hrange
        exact absurd hrange (by decide)
      · rw [hsame] at hprocess
        rw [← hprocess] at hsynced
        exact hheap hsynced
    · rw [if_neg hrange] at hspec
      obtain ⟨rfl, -⟩ := hspec
      rcases hright with ⟨-, hold⟩ | ⟨-, hret, -⟩
      · exact hheap hold.symm
      · exact absurd hret (by decide)

/-- A run of calls keeps libc's record of the break. -/
theorem known_of_run (hk : Known c) (hrun : Relation.ReflTransGen (Called A) c c') : Known c' := by
  induction hrun with
  | refl => exact hk
  | tail _ hlast ih => exact (known_of_called ih hlast).1

end Calls

variable {A}

/-- After any calls by a process whose libc starts without a break, the next call leaves
libc and the kernel with one break, and `sbrk` answers as it should exactly when the increment
is `Movable`. -/
theorem breaks_agree_and_sbrkRight_iff {c₀ c : Caller P} (hfresh : c₀.curbrk = 0)
    (hordered : c₀.process.heapBase.toNat ≤ c₀.process.heap.toNat)
    (hrun : Relation.ReflTransGen (Called A) c₀ c) :
    (∀ c', Called A c c' → c'.curbrk = c'.process.heap) ∧
      ∀ increment ret c', sbrk A c increment = .ok (ret, c') →
        (SbrkRight c increment ret c' ↔ Movable c increment) := by
  have hk : Known c := known_of_run ⟨Or.inl hfresh, hordered⟩ hrun
  exact ⟨fun c' hcall => (known_of_called hk hcall).2,
    fun increment ret c' hcall => sbrkRight_iff hk hcall⟩

def freshCaller : Caller Pmm.State where
  curbrk := 0
  errno := 0
  process := ⟨1, 0x401000, 0x401000⟩
  state := onePage 5 smallPmm

/-- A first `sbrk(0x2000)`, after which `sbrk(-0x1000)` is right and `sbrk(-0x3000)` is not. -/
theorem breaks_agree_after_growing :
    ∃ c, Relation.ReflTransGen (Called pmm) freshCaller c ∧ c.process.heap = 0x403000 ∧
      ((∀ c', Called pmm c c' → c'.curbrk = c'.process.heap) ∧
        ∀ increment ret c', sbrk pmm c increment = .ok (ret, c') →
          (SbrkRight c increment ret c' ↔ Movable c increment)) ∧
      Movable c (-0x1000) ∧ ¬ Movable c (-0x3000) := by
  have hcall : sbrk pmm freshCaller 0x2000 = .ok (0x401000,
      { freshCaller with curbrk := 0x403000, process := ⟨1, 0x401000, 0x403000⟩ }) := rfl
  have hrun : Relation.ReflTransGen (Called pmm) freshCaller
      { freshCaller with curbrk := 0x403000, process := ⟨1, 0x401000, 0x403000⟩ } :=
    Relation.ReflTransGen.single (Called.sbrk hcall)
  refine ⟨_, hrun, rfl, breaks_agree_and_sbrkRight_iff rfl (by decide) hrun, ?_, ?_⟩
  · exact ⟨fun _ => Or.inr (Or.inl (by decide)), fun h => absurd h (by decide)⟩
  · rintro ⟨h, -⟩
    exact absurd (h (by decide)) (by decide)

/-- `sbrk(-0x1000)` of a fresh heap: the kernel keeps the break, libc returns the old one. -/
theorem sbrk_below_heap_base :
    ∃ c', sbrk pmm freshCaller (-0x1000) = .ok (0x401000, c') ∧ c'.process.heap = 0x401000 ∧
      c'.process.heap ≠ freshCaller.process.heap + (-0x1000) ∧
      ¬ SbrkRight freshCaller (-0x1000) 0x401000 c' := by
  refine ⟨{ freshCaller with curbrk := 0x401000 }, rfl, rfl, by decide, ?_⟩
  rintro (⟨h, -⟩ | ⟨-, h, -⟩)
  · exact absurd h (by decide)
  · exact absurd h (by decide)

end ReduceOS.LibcBreak
