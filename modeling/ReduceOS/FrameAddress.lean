import ReduceOS.FrameSearch
import Mathlib.Data.BitVec

/-!
From frame numbers to addresses and back. A block's address is the `int` product of its frame
number and the block size; what is freed is the frame whose number an `int` holds after the
division. The allocations are those of mem/pmm.c with the searches as their loops run.
-/
namespace ReduceOS.FrameAddress

open Machine Pmm FrameSearch

section Source

variable (s : State)

def allocateBlock (k : ℕ) : Option (Except Panic (Addr × State)) :=
  if s.maxBlocks - s.usedBlocks ≤ 0 then some (.error .outOfMemory)
  else do
    let frame ← FrameSearch.findFirstFrame s k
    if frame = -enomem then some (.error .outOfMemory)
    else some (.ok (blockAddress frame,
      { setFrame s frame with usedBlocks := s.usedBlocks + 1 }))

/-- `pmm_allocateBlocks`; a run that is found is of fewer than 2^32 frames, so the loop that marks
them ends. -/
def allocateBlocks (blocks : BitVec 64) (k : ℕ) : Option (Except Panic (Addr × State)) :=
  if blocks = 0 then some (.error .badArgument)
  else if s.maxBlocks - s.usedBlocks ≤ blocks then some (.error .outOfMemory)
  else do
    let frame ← FrameSearch.findFirstFrames s blocks k
    if frame = -enomem then some (.error .outOfMemory)
    else some (.ok (blockAddress frame,
      { setFrames s frame blocks.toNat with usedBlocks := s.usedBlocks + blocks }))

end Source

def ClearsExactly (s s' : State) (f n : ℕ) : Prop :=
  s'.nframes = s.nframes ∧ ∀ g, used s' g = (used s g && decide (¬ (f ≤ g ∧ g < f + n)))

def Exact (a : Addr) (f : ℕ) : Prop :=
  a.toNat = f * 4096 ∧ ∀ s, ClearsExactly s (freeBlock s a) f 1

def ExactRun (a : Addr) (f : ℕ) (n : BitVec 64) : Prop :=
  a.toNat = f * 4096 ∧ ∀ s, ClearsExactly s (freeBlocks s a n) f n.toNat

section Addresses

variable {s s' : State} {f : ℕ} {n : BitVec 64} {a : Addr}

/-- The product is the address of the frame below 2 GiB, and of no frame above that the search
comes to. -/
theorem blockAddress_exact_iff (hf : f < 2 ^ 37) :
    (blockAddress (BitVec.ofNat 32 f)).toNat = f * 4096 ↔ f < 2 ^ 19 := by
  refine ⟨fun h => ?_, blockAddress_ofNat f⟩
  have hproduct : (BitVec.ofNat 32 f * BitVec.ofNat 32 blockSize).toNat = f * 4096 % 2 ^ 32 := by
    simp only [BitVec.toNat_mul, BitVec.toNat_ofNat, blockSize]
    omega
  rw [blockAddress, BitVec.toNat_signExtend, BitVec.toNat_setWidth, hproduct] at h
  by_cases hmsb : (BitVec.ofNat 32 f * BitVec.ofNat 32 blockSize).msb = true
  · rw [if_pos hmsb] at h
    omega
  · rw [if_neg hmsb] at h
    rw [Bool.not_eq_true, BitVec.msb_eq_false_iff_two_mul_lt, hproduct] at hmsb
    omega

theorem freeBlock_clears (s : State) (ha : a.toNat = f * 4096) (hf : f < 2 ^ 31) :
    ClearsExactly s (freeBlock s a) f 1 := by
  have halign : a % BitVec.ofNat 64 blockSize = 0 := by
    apply BitVec.eq_of_toNat_eq
    rw [BitVec.toNat_umod, ha]
    exact Nat.mul_mod_left f 4096
  unfold freeBlock
  rw [if_neg (not_not.mpr halign), frame_of_block a f ha]
  refine ⟨rfl, fun g => (used_clearFrame s f g hf).trans ?_⟩
  congr 1
  exact decide_eq_decide.mpr (by omega)

theorem freeBlocks_clears (s : State) (ha : a.toNat = f * 4096) (hn : n ≠ 0)
    (hf : f + n.toNat ≤ 2 ^ 31) : ClearsExactly s (freeBlocks s a n) f n.toNat := by
  unfold freeBlocks
  rw [if_neg hn, frame_of_block a f ha]
  refine ⟨clearFrames_nframes s _ _, fun g => (used_clearFrames s f n.toNat g hf).trans ?_⟩
  congr 1
  exact decide_eq_decide.mpr (by rw [Finset.mem_Ico])

/-- No `int` is the number of a frame from 2^31 on. -/
theorem wordOf_lt (frame : CInt) : wordOf frame < (2 ^ 26 : ℕ) := by
  have hle : frame.toInt ≤ 2 ^ 31 - 1 := by
    have := frame.toInt_lt
    omega
  calc wordOf frame ≤ Int.tdiv (2 ^ 31 - 1) 32 := Int.tdiv_le_tdiv (by decide) hle
    _ < (2 ^ 26 : ℕ) := by decide

theorem clearFrames_wide (s : State) (frame : CInt) (count : ℕ) :
    (clearFrames s frame count).frames (2 ^ 26 : ℕ) = s.frames (2 ^ 26 : ℕ) := by
  induction count with
  | zero => rfl
  | succ count ih =>
    have hne := (wordOf_lt (frame + BitVec.ofNat 32 count)).ne'
    rw [clearFrames_succ, ← ih]
    exact Function.update_of_ne hne _ _

def full : State := ⟨fun _ => -1, 0, 0, 0⟩

theorem used_full (g : ℕ) : used full g = true := by
  have hbits : ∀ bit < 32, (-1 : BitVec 64).getLsbD bit = true := by decide
  exact hbits (g % 32) (Nat.mod_lt g (by decide))

theorem exact_iff (hf : f < 2 ^ 37) : Exact (blockAddress (BitVec.ofNat 32 f)) f ↔ f < 2 ^ 19 := by
  constructor
  · exact fun h => (blockAddress_exact_iff hf).mp h.1
  · intro hlt
    have ha := (blockAddress_exact_iff hf).mpr hlt
    exact ⟨ha, fun s => freeBlock_clears s ha (by omega)⟩

theorem exactRun_iff (hn : n ≠ 0) (hf : f < 2 ^ 37) :
    ExactRun (blockAddress (BitVec.ofNat 32 f)) f n ↔ f < 2 ^ 19 ∧ f + n.toNat ≤ 2 ^ 31 := by
  constructor
  · rintro ⟨ha, hclears⟩
    have hlt := (blockAddress_exact_iff hf).mp ha
    refine ⟨hlt, ?_⟩
    by_contra hwide
    have hfree := (hclears full).2 (2 ^ 31)
    rw [decide_eq_false (by omega), Bool.and_false, freeBlocks, if_neg hn,
      frame_of_block _ f ha] at hfree
    have hsame := clearFrames_wide full (BitVec.ofNat 32 f) n.toNat
    have hused := used_full (2 ^ 31)
    unfold used at hfree hused
    rw [show (2 ^ 31 / 32 : ℕ) = 2 ^ 26 by decide] at hfree hused
    rw [show (2 ^ 31 % 32 : ℕ) = 0 by decide] at hfree hused
    dsimp only at hfree
    rw [hsame, hused] at hfree
    contradiction
  · rintro ⟨hlt, hle⟩
    have ha := (blockAddress_exact_iff hf).mpr hlt
    exact ⟨ha, fun s => freeBlocks_clears s ha hn hle⟩

/-- With room by the counters, what the search finds is allocated. -/
theorem allocateBlock_of_found {k : ℕ} {frame : CInt}
    (hroom : ¬ s.maxBlocks - s.usedBlocks ≤ 0)
    (hfound : FrameSearch.findFirstFrame s k = some frame) (hframe : frame ≠ -enomem) :
    allocateBlock s k = some (.ok (blockAddress frame,
      { setFrame s frame with usedBlocks := s.usedBlocks + 1 })) := by
  rw [allocateBlock, if_neg hroom, hfound, Option.bind_eq_bind, Option.bind_some, if_neg hframe]

theorem allocateBlocks_of_found {k : ℕ} {frame : CInt} (hn : n ≠ 0)
    (hroom : ¬ s.maxBlocks - s.usedBlocks ≤ n)
    (hfound : FrameSearch.findFirstFrames s n k = some frame) (hframe : frame ≠ -enomem) :
    allocateBlocks s n k = some (.ok (blockAddress frame,
      { setFrames s frame n.toNat with usedBlocks := s.usedBlocks + n })) := by
  rw [allocateBlocks, if_neg hn, if_neg hroom, hfound, Option.bind_eq_bind, Option.bind_some,
    if_neg hframe]

/-- Where 32 bits count the words, this is the allocation of the allocator. -/
theorem allocateBlock_eq (hwords : indexBit s.nframes.toNat < 2 ^ 32) :
    ∃ k, allocateBlock s k = some (Pmm.allocateBlock s) := by
  obtain ⟨k, hk⟩ := findFirstFrame_eq hwords
  refine ⟨k, ?_⟩
  unfold allocateBlock Pmm.allocateBlock
  rw [hk, Option.bind_eq_bind, Option.bind_some]
  dsimp only
  split_ifs <;> rfl

theorem allocateBlocks_eq (hwords : indexBit s.nframes.toNat < 2 ^ 32)
    (hn : n.toNat < 2 ^ 32) : ∃ k, allocateBlocks s n k = some (Pmm.allocateBlocks s n) := by
  obtain ⟨k, hk⟩ := findFirstFrames_eq (n := n) hwords hn
  refine ⟨k, ?_⟩
  unfold allocateBlocks Pmm.allocateBlocks
  rw [hk, Option.bind_eq_bind, Option.bind_some]
  dsimp only
  split_ifs <;> rfl

/-- The frame of a block that was allocated is the first at which the search stops. -/
theorem frame_of_allocateBlock {k : ℕ} (h : allocateBlock s k = some (.ok (a, s'))) :
    ∃ f, First s (fun _ => some true) f ∧ a = blockAddress (BitVec.ofNat 32 f) := by
  unfold allocateBlock at h
  split_ifs at h
  · simp at h
  obtain ⟨frame, hsearch, hframe⟩ := Option.bind_eq_some_iff.mp h
  split_ifs at hframe with hnone
  · simp at hframe
  obtain ⟨rfl, -⟩ := Prod.mk.inj (Except.ok.inj (Option.some.inj hframe))
  rcases findFirstFrame_iff.mp ⟨k, hsearch⟩ with ⟨f, hfirst, rfl⟩ | ⟨-, hreport⟩
  · exact ⟨f, hfirst, rfl⟩
  · exact absurd hreport hnone

theorem frame_of_allocateBlocks {k : ℕ} (h : allocateBlocks s n k = some (.ok (a, s'))) :
    n ≠ 0 ∧ ∃ f, First s (answer s n) f ∧ a = blockAddress (BitVec.ofNat 32 f) := by
  unfold allocateBlocks at h
  split_ifs at h with hzero
  · simp at h
  · simp at h
  obtain ⟨frame, hsearch, hframe⟩ := Option.bind_eq_some_iff.mp h
  split_ifs at hframe with hnone
  · simp at hframe
  obtain ⟨rfl, -⟩ := Prod.mk.inj (Except.ok.inj (Option.some.inj hframe))
  rcases (findFirstFrames_iff hzero).mp ⟨k, hsearch⟩ with ⟨f, hfirst, rfl⟩ | ⟨-, hreport⟩
  · exact ⟨hzero, f, hfirst, rfl⟩
  · exact absurd hreport hnone

end Addresses

/-- Whatever is allocated is the first frame, or the first run, at which the search stops. Its
address is exact, and frees it, if and only if it is below 2 GiB, and the run ends at or below
8 TiB. -/
theorem block_addresses_iff (s : State) :
    (∀ k a s', allocateBlock s k = some (.ok (a, s')) →
      ∃ f, First s (fun _ => some true) f ∧ (Exact a f ↔ f < 2 ^ 19)) ∧
    (∀ n k a s', allocateBlocks s n k = some (.ok (a, s')) →
      ∃ f, First s (answer s n) f ∧
        (ExactRun a f n ↔ f < 2 ^ 19 ∧ f + n.toNat ≤ 2 ^ 31)) := by
  constructor
  · intro k a s' h
    obtain ⟨f, hfirst, rfl⟩ := frame_of_allocateBlock h
    exact ⟨f, hfirst, exact_iff hfirst.2.1⟩
  · intro n k a s' h
    obtain ⟨hn, f, hfirst, rfl⟩ := frame_of_allocateBlocks h
    exact ⟨f, hfirst, exactRun_iff hn hfirst.2.1⟩

def lowMemory : State := ⟨fun i => if i = 0 then 0xFF000000 else 0, 64, 8, 64⟩

theorem block_addresses_low :
    (∃ a s' f, allocateBlock lowMemory 3 = some (.ok (a, s')) ∧
      (Exact a f ↔ f < 2 ^ 19)) ∧
    ∃ a s' f, allocateBlocks lowMemory 30 40 = some (.ok (a, s')) ∧
      (ExactRun a f 30 ↔ f < 2 ^ 19 ∧ f + 30 ≤ 2 ^ 31) := by
  have hone : ∃ a s', allocateBlock lowMemory 3 = some (.ok (a, s')) := ⟨_, _, rfl⟩
  have hrun : ∃ a s', allocateBlocks lowMemory 30 40 = some (.ok (a, s')) := ⟨_, _, rfl⟩
  obtain ⟨a, s', hcall⟩ := hone
  obtain ⟨b, t, hcalls⟩ := hrun
  obtain ⟨f, -, hf⟩ := (block_addresses_iff lowMemory).1 3 a s' hcall
  obtain ⟨g, -, hg⟩ := (block_addresses_iff lowMemory).2 30 40 b t hcalls
  exact ⟨⟨a, s', f, hcall, hf⟩, b, t, g, hcalls, hg⟩

section Failing

/-- A machine of a little more than 2 GiB, of which the first 2 GiB are used. -/
def upperHalf : State :=
  ⟨fun i => if i < 2 ^ 14 then 0xFFFFFFFF#64 else 0, 2 ^ 19 + 32, 2 ^ 19, 2 ^ 19 + 32⟩

theorem first_upperHalf : First upperHalf (fun _ => some true) (2 ^ 19) := by
  refine ⟨by decide, by decide, ⟨by decide, rfl⟩, fun h hh haccept => ?_⟩
  have hlow : ((h / 32 : ℕ) : ℤ) < 2 ^ 14 := by omega
  refine absurd haccept (not_accepts_of_full ?_)
  simp only [upperHalf, hlow, if_true]

/-- The block behind the first 2 GiB is returned as 0xFFFFFFFF80000000, and freeing that address
frees no frame. -/
theorem block_above_two_gib :
    ∃ k a s', allocateBlock upperHalf k = some (.ok (a, s')) ∧
      First upperHalf (fun _ => some true) (2 ^ 19) ∧ a = 0xFFFFFFFF80000000 ∧
      ¬ Exact a (2 ^ 19) ∧ used (freeBlock s' a) (2 ^ 19) = true := by
  obtain ⟨k, hk⟩ := findFirstFrame_iff.mpr (Or.inl ⟨_, first_upperHalf, rfl⟩)
  have hcall := allocateBlock_of_found (by decide) hk (by decide)
  refine ⟨k, _, _, hcall, first_upperHalf, by decide, fun h => ?_, by decide⟩
  exact absurd h.1 (by decide)

end Failing

end ReduceOS.FrameAddress
