import ReduceOS.Machine
import Mathlib.Data.Finset.Card
import Mathlib.Order.Interval.Finset.Nat
import Mathlib.Tactic.Ring

/-!
The physical memory manager of mem/pmm.c, a bitmap frame allocator. Each bitmap
word is 64 bits wide but carries 32 frames, and the masks are built from the
signed `int` value `1 << bit`, so the mask of bit 31 covers the whole upper half
of its word. Used frames are read off the low half only.
-/
namespace ReduceOS.Pmm

open Machine

/-- The globals of pmm.c. `frames` is indexed as the C array is, so that an index
before the bitmap is a read of whatever memory lies there. -/
structure State where
  frames : Int → BitVec 64
  nframes : BitVec 64
  usedBlocks : BitVec 64
  maxBlocks : BitVec 64

def blockSize : ℕ := 4096

def indexBit (a : ℕ) : ℕ := a / (8 * 4)

/-- `1 << bit` has type `int` and is sign-extended when it meets a 64-bit word. -/
def frameMask (bit : ℕ) : BitVec 64 := ((1#32) <<< bit).signExtend 64

def clearMask (bit : ℕ) : BitVec 64 := (~~~((1#32) <<< bit)).signExtend 64

def wordOf (frame : CInt) : Int := frame.toInt.tdiv 32

/-- A negative remainder would make the shift undefined; it is read as zero. -/
def bitOf (frame : CInt) : ℕ := (frame.toInt.tmod 32).toNat

def State.setWord (s : State) (i : Int) (w : BitVec 64) : State :=
  { s with frames := Function.update s.frames i w }

def setFrame (s : State) (frame : CInt) : State :=
  s.setWord (wordOf frame) (s.frames (wordOf frame) ||| frameMask (bitOf frame))

def clearFrame (s : State) (frame : CInt) : State :=
  s.setWord (wordOf frame) (s.frames (wordOf frame) &&& clearMask (bitOf frame))

def testFrame (s : State) (frame : CInt) : CInt :=
  (s.frames (wordOf frame) &&& frameMask (bitOf frame)).setWidth 32

def freeBit (s : State) (i : ℕ) : Option ℕ :=
  if s.frames i = 0xFFFFFFFF#64 then none
  else (List.range 32).find? (fun bit => s.frames i &&& frameMask bit = 0)

/-- The loop of `pmm_findFirstFrame`, with the frame number not yet narrowed. -/
def scanFrame (s : State) : Option ℕ :=
  (List.range (indexBit s.nframes.toNat)).findSome? fun i =>
    (freeBit s i).map fun bit => i * 4 * 8 + bit

def findFirstFrame (s : State) : CInt :=
  match scanFrame s with
  | some frame => BitVec.ofNat 32 frame
  | none => -enomem

/-- The inner loop of `pmm_findFirstFrames`: count free frames from `start` on and
answer as soon as `n` have been counted. -/
def checkRun (s : State) (start n : ℕ) : List ℕ → ℕ → Bool
  | [], _ => false
  | check :: rest, freeBits =>
      let freeBits :=
        if testFrame s (BitVec.ofNat 32 (start + check)) = 0 then freeBits + 1 else freeBits
      if freeBits = n then true else checkRun s start n rest freeBits

/-- The nested loops of `pmm_findFirstFrames` for two or more frames. -/
def scanRun (s : State) (n : ℕ) : Option ℕ :=
  (List.range (indexBit s.nframes.toNat)).findSome? fun i : ℕ =>
    if s.frames i = 0xFFFFFFFF#64 then none
    else (List.range 32).findSome? fun bit =>
      if s.frames i &&& frameMask bit = 0 ∧ checkRun s (i * 32 + bit) n (List.range n) 0 = true
      then some (i * 4 * 8 + bit) else none

/-- The frame number `pmm_findFirstFrames` stops at, not yet narrowed. -/
def scanFrames (s : State) (n : ℕ) : Option ℕ :=
  if n = 0 then some 0 else if n = 1 then scanFrame s else scanRun s n

def findFirstFrames (s : State) (n : BitVec 64) : CInt :=
  match scanFrames s n.toNat with
  | some frame => BitVec.ofNat 32 frame
  | none => -enomem

def setFrames (s : State) (frame : CInt) (count : ℕ) : State :=
  (List.range count).foldl (fun t i => setFrame t (frame + BitVec.ofNat 32 i)) s

def clearFrames (s : State) (frame : CInt) (count : ℕ) : State :=
  (List.range count).foldl (fun t i => clearFrame t (frame + BitVec.ofNat 32 i)) s

/-- The block address is the `int` product `frame * PMM_BLOCK_SIZE`, sign-extended. -/
def blockAddress (frame : CInt) : Addr := (frame * BitVec.ofNat 32 blockSize).signExtend 64

/-- The free-block guard compares unsigned values, so it only catches equality. -/
def allocateBlock (s : State) : Except Panic (Addr × State) :=
  if s.maxBlocks - s.usedBlocks ≤ 0 then .error .outOfMemory
  else
    let frame := findFirstFrame s
    if frame = -enomem then .error .outOfMemory
    else .ok (blockAddress frame, { setFrame s frame with usedBlocks := s.usedBlocks + 1 })

def freeBlock (s : State) (block : Addr) : State :=
  if block % BitVec.ofNat 64 blockSize ≠ 0 then s
  else
    let frame := (block / BitVec.ofNat 64 blockSize).setWidth 32
    { clearFrame s frame with usedBlocks := s.usedBlocks - 1 }

def allocateBlocks (s : State) (blocks : BitVec 64) : Except Panic (Addr × State) :=
  if blocks = 0 then .error .badArgument
  else if s.maxBlocks - s.usedBlocks ≤ blocks then .error .outOfMemory
  else
    let frame := findFirstFrames s blocks
    if frame = -enomem then .error .outOfMemory
    else .ok (blockAddress frame,
      { setFrames s frame blocks.toNat with usedBlocks := s.usedBlocks + blocks })

def freeBlocks (s : State) (base : Addr) (blocks : BitVec 64) : State :=
  if blocks = 0 then s
  else
    let frame := (base / BitVec.ofNat 64 blockSize).setWidth 32
    { clearFrames s frame blocks.toNat with usedBlocks := s.usedBlocks - blocks }

def used (s : State) (f : ℕ) : Bool := (s.frames (f / 32 : ℕ)).getLsbD (f % 32)

theorem getLsbD_frameMask (bit j : ℕ) (hj : j < 32) :
    (frameMask bit).getLsbD j = decide (j = bit) := by
  unfold frameMask
  rw [BitVec.getLsbD_signExtend]
  have hj' : j < 64 := by omega
  simp only [hj', decide_true, Bool.true_and, hj, if_true, BitVec.getLsbD_shiftLeft,
    BitVec.getLsbD_one]
  by_cases h : j = bit
  · subst j
    simp
  · by_cases hlt : j < bit
    · simp [hlt, h]
    · have : j - bit ≠ 0 := by omega
      simp [this, h]

theorem getLsbD_clearMask (bit j : ℕ) (hj : j < 32) :
    (clearMask bit).getLsbD j = decide (j ≠ bit) := by
  unfold clearMask
  rw [BitVec.getLsbD_signExtend]
  have hj' : j < 64 := by omega
  have hm := getLsbD_frameMask bit j hj
  unfold frameMask at hm
  rw [BitVec.getLsbD_signExtend] at hm
  simp only [hj', decide_true, Bool.true_and, hj, if_true, BitVec.getLsbD_not] at hm ⊢
  rw [hm]
  simp

private theorem toInt_ofNat (f : ℕ) (hf : f < 2 ^ 31) : (BitVec.ofNat 32 f).toInt = f := by
  rw [BitVec.toInt_eq_toNat_of_lt]
  · simp only [BitVec.toNat_ofNat]
    omega
  · simp only [BitVec.toNat_ofNat]
    omega

theorem wordOf_ofNat (f : ℕ) (hf : f < 2 ^ 31) : wordOf (BitVec.ofNat 32 f) = (f / 32 : ℕ) := by
  unfold wordOf
  rw [toInt_ofNat f hf]
  rfl

theorem bitOf_ofNat (f : ℕ) (hf : f < 2 ^ 31) : bitOf (BitVec.ofNat 32 f) = f % 32 := by
  unfold bitOf
  rw [toInt_ofNat f hf]
  rfl

theorem used_setFrame (s : State) (f g : ℕ) (hf : f < 2 ^ 31) :
    used (setFrame s (BitVec.ofNat 32 f)) g = (used s g || decide (g = f)) := by
  unfold used setFrame State.setWord
  rw [wordOf_ofNat f hf, bitOf_ofNat f hf]
  by_cases hw : g / 32 = f / 32
  · simp only [hw, Function.update_self, BitVec.getLsbD_or]
    rw [getLsbD_frameMask _ _ (by omega)]
    congr 1
    apply decide_eq_decide.mpr
    omega
  · have hne : ((g / 32 : ℕ) : Int) ≠ (f / 32 : ℕ) := by omega
    have hgf : g ≠ f := fun h => hw (by rw [h])
    dsimp only
    rw [Function.update_of_ne hne]
    simp [hgf]

theorem used_clearFrame (s : State) (f g : ℕ) (hf : f < 2 ^ 31) :
    used (clearFrame s (BitVec.ofNat 32 f)) g = (used s g && decide (g ≠ f)) := by
  unfold used clearFrame State.setWord
  rw [wordOf_ofNat f hf, bitOf_ofNat f hf]
  by_cases hw : g / 32 = f / 32
  · simp only [hw, Function.update_self, BitVec.getLsbD_and]
    rw [getLsbD_clearMask _ _ (by omega)]
    congr 1
    apply decide_eq_decide.mpr
    omega
  · have hne : ((g / 32 : ℕ) : Int) ≠ (f / 32 : ℕ) := by omega
    have hgf : g ≠ f := fun h => hw (by rw [h])
    dsimp only
    rw [Function.update_of_ne hne]
    simp [hgf]

/-- A zero conjunction with a mask means the masked frame bit is clear; for bit
31 it also asks for a clear upper half, which never makes the answer wrong. -/
theorem getLsbD_of_and_mask_eq_zero (w : BitVec 64) (bit : ℕ) (hb : bit < 32)
    (h : w &&& frameMask bit = 0) : w.getLsbD bit = false := by
  have hbit := congrArg (fun v => BitVec.getLsbD v bit) h
  simpa [BitVec.getLsbD_and, getLsbD_frameMask bit bit hb] using hbit

theorem used_of_testFrame_eq_zero (s : State) (f : ℕ) (hf : f < 2 ^ 31)
    (h : testFrame s (BitVec.ofNat 32 f) = 0) : used s f = false := by
  unfold testFrame at h
  rw [wordOf_ofNat f hf, bitOf_ofNat f hf] at h
  have hbit := congrArg (fun v => BitVec.getLsbD v (f % 32)) h
  have hlt : f % 32 < 32 := by omega
  simpa [used, BitVec.getLsbD_setWidth, BitVec.getLsbD_and, hlt,
    getLsbD_frameMask (f % 32) (f % 32) hlt] using hbit

theorem freeBit_eq_some (s : State) (i bit : ℕ) (h : freeBit s i = some bit) :
    bit < 32 ∧ used s (i * 32 + bit) = false := by
  unfold freeBit at h
  split at h
  · contradiction
  · have hmem := List.mem_of_find?_eq_some h
    have hzero := List.find?_some h
    have hb : bit < 32 := List.mem_range.mp hmem
    refine ⟨hb, ?_⟩
    have hdiv : (i * 32 + bit) / 32 = i := by omega
    have hmod : (i * 32 + bit) % 32 = bit := by omega
    unfold used
    rw [hdiv, hmod]
    exact getLsbD_of_and_mask_eq_zero _ bit hb (of_decide_eq_true hzero)

/-- The scan stops at a free frame below `nframes`. -/
theorem scanFrame_eq_some (s : State) (f : ℕ) (h : scanFrame s = some f) :
    f < s.nframes.toNat ∧ used s f = false := by
  obtain ⟨i, hi, hfree⟩ := List.exists_of_findSome?_eq_some h
  have hword : i < s.nframes.toNat / 32 := List.mem_range.mp hi
  obtain ⟨bit, hbit, heq⟩ := Option.map_eq_some_iff.mp hfree
  obtain ⟨hb, hused⟩ := freeBit_eq_some s i bit hbit
  have hf : i * 32 + bit = f := by rw [← heq]; ring
  subst hf
  exact ⟨by omega, hused⟩

/-- Too few remaining checks cannot reach the wanted count. -/
private theorem checkRun_short (s : State) (start n : ℕ) (l : List ℕ) (k : ℕ)
    (h : k + l.length < n) : checkRun s start n l k = false := by
  induction l generalizing k with
  | nil => rfl
  | cons check rest ih =>
    simp only [List.length_cons] at h
    unfold checkRun
    by_cases hfree : testFrame s (BitVec.ofNat 32 (start + check)) = 0
    · have hk : k + 1 ≠ n := by omega
      simp only [hfree, if_true, hk, if_false]
      exact ih (k + 1) (by omega)
    · have hk : k ≠ n := by omega
      simp only [hfree, hk, if_false]
      exact ih k (by omega)

/-- With just enough checks left, success means every check found a free frame. -/
private theorem checkRun_tight (s : State) (start n : ℕ) (l : List ℕ) (k : ℕ)
    (hlen : k + l.length = n) (h : checkRun s start n l k = true) :
    ∀ check ∈ l, testFrame s (BitVec.ofNat 32 (start + check)) = 0 := by
  induction l generalizing k with
  | nil => simp
  | cons check rest ih =>
    simp only [List.length_cons] at hlen
    unfold checkRun at h
    by_cases hfree : testFrame s (BitVec.ofNat 32 (start + check)) = 0
    · intro c hc
      rcases List.mem_cons.mp hc with rfl | hrest
      · exact hfree
      · simp only [hfree, if_true] at h
        split_ifs at h with hn
        · have : rest = [] := List.length_eq_zero_iff.mp (by omega)
          simp [this] at hrest
        · exact ih (k + 1) (by omega) h c hrest
    · simp only [hfree, if_false] at h
      split_ifs at h with hn
      · omega
      · rw [checkRun_short s start n rest k (by omega)] at h
        contradiction

/-- A run found for `n` frames is free throughout, as far as frame numbers fit an `int`. -/
theorem scanFrames_eq_some (s : State) (n f : ℕ) (h : scanFrames s n = some f)
    (hbound : f + n ≤ 2 ^ 31) : ∀ i < n, used s (f + i) = false := by
  intro i hi
  unfold scanFrames at h
  split_ifs at h with h0 h1
  · omega
  · have hi0 : i = 0 := by omega
    subst hi0
    simpa using (scanFrame_eq_some s f h).2
  · obtain ⟨w, -, hw⟩ := List.exists_of_findSome?_eq_some h
    split_ifs at hw
    obtain ⟨bit, -, hbit⟩ := List.exists_of_findSome?_eq_some hw
    split_ifs at hbit with hcond
    have hf : w * 32 + bit = f := by
      rw [← Option.some.inj hbit]
      ring
    have htest := checkRun_tight s (w * 32 + bit) n (List.range n) 0 (by simp) hcond.2 i
      (List.mem_range.mpr hi)
    rw [hf] at htest
    exact used_of_testFrame_eq_zero s (f + i) (by omega) htest

theorem blockAddress_ofNat (f : ℕ) (hf : f < 2 ^ 19) :
    (blockAddress (BitVec.ofNat 32 f)).toNat = f * 4096 := by
  unfold blockAddress blockSize
  rw [BitVec.toNat_signExtend]
  have hmul : (BitVec.ofNat 32 f * BitVec.ofNat 32 4096).toNat = f * 4096 := by
    simp only [BitVec.toNat_mul, BitVec.toNat_ofNat]
    omega
  have hmsb : (BitVec.ofNat 32 f * BitVec.ofNat 32 4096).msb = false := by
    rw [BitVec.msb_eq_false_iff_two_mul_lt, hmul]
    omega
  simp only [BitVec.toNat_setWidth, hmul, hmsb, Bool.false_eq_true, if_false]
  omega

/-- `s'` is `s` with exactly the frames of `r`, all of them free before, marked used. -/
structure Takes (s s' : State) (r : Finset ℕ) : Prop where
  free_before : ∀ f ∈ r, used s f = false
  used_after : ∀ f, used s' f = (used s f || decide (f ∈ r))

/-- `s'` is `s` with exactly the frames of `r`, all of them used before, marked free. -/
structure Clears (s s' : State) (r : Finset ℕ) : Prop where
  used_before : ∀ f ∈ r, used s f = true
  used_after : ∀ f, used s' f = (used s f && decide (f ∉ r))

def usedSet (s : State) : Finset ℕ :=
  (Finset.range s.nframes.toNat).filter fun f => used s f = true

def Counted (s : State) : Prop := s.usedBlocks.toNat = (usedSet s).card

instance (s : State) : Decidable (Counted s) :=
  inferInstanceAs (Decidable (s.usedBlocks.toNat = (usedSet s).card))

theorem usedSet_card_le (s : State) : (usedSet s).card ≤ s.nframes.toNat := by
  unfold usedSet
  simpa using Finset.card_filter_le (Finset.range s.nframes.toNat) (fun f => used s f = true)

theorem Takes.counted {s s' : State} {r : Finset ℕ} (h : Takes s s' r) (n : BitVec 64)
    (hcard : r.card = n.toNat) (hr : ∀ f ∈ r, f < s.nframes.toNat)
    (hn : s'.nframes = s.nframes) (hu : s'.usedBlocks = s.usedBlocks + n)
    (hs : Counted s) : Counted s' := by
  have heq : usedSet s' = usedSet s ∪ r := by
    ext f
    simp only [usedSet, Finset.mem_filter, Finset.mem_range, Finset.mem_union, hn, h.used_after,
      Bool.or_eq_true, decide_eq_true_eq]
    constructor
    · rintro ⟨hlt, hf | hf⟩
      · exact Or.inl ⟨hlt, hf⟩
      · exact Or.inr hf
    · rintro (⟨hlt, hf⟩ | hf)
      · exact ⟨hlt, Or.inl hf⟩
      · exact ⟨hr f hf, Or.inr hf⟩
  have hdisj : Disjoint (usedSet s) r := by
    rw [Finset.disjoint_left]
    intro f hf hfr
    have hused := (Finset.mem_filter.mp hf).2
    rw [h.free_before f hfr] at hused
    contradiction
  have hle := usedSet_card_le s'
  have hlt := s'.nframes.isLt
  unfold Counted at hs ⊢
  rw [heq, Finset.card_union_of_disjoint hdisj] at hle ⊢
  rw [hu, BitVec.toNat_add, hs, hcard]
  exact Nat.mod_eq_of_lt (by omega)

theorem Clears.counted {s s' : State} {r : Finset ℕ} (h : Clears s s' r) (n : BitVec 64)
    (hcard : r.card = n.toNat) (hr : ∀ f ∈ r, f < s.nframes.toNat)
    (hn : s'.nframes = s.nframes) (hu : s'.usedBlocks = s.usedBlocks - n)
    (hs : Counted s) : Counted s' := by
  have heq : usedSet s' = usedSet s \ r := by
    ext f
    simp only [usedSet, Finset.mem_filter, Finset.mem_range, Finset.mem_sdiff, hn, h.used_after,
      Bool.and_eq_true, decide_eq_true_eq, and_assoc]
  have hsub : r ⊆ usedSet s := by
    intro f hf
    exact Finset.mem_filter.mpr ⟨Finset.mem_range.mpr (hr f hf), h.used_before f hf⟩
  have hle := Finset.card_le_card hsub
  unfold Counted at hs ⊢
  rw [heq, Finset.card_sdiff_of_subset hsub, hu, BitVec.toNat_sub_of_le, hs, hcard]
  rw [BitVec.le_def]
  omega

theorem setFrames_succ (s : State) (frame : CInt) (n : ℕ) :
    setFrames s frame (n + 1) = setFrame (setFrames s frame n) (frame + BitVec.ofNat 32 n) := by
  simp [setFrames, List.range_succ]

theorem clearFrames_succ (s : State) (frame : CInt) (n : ℕ) :
    clearFrames s frame (n + 1) =
      clearFrame (clearFrames s frame n) (frame + BitVec.ofNat 32 n) := by
  simp [clearFrames, List.range_succ]

theorem setFrames_nframes (s : State) (frame : CInt) (n : ℕ) :
    (setFrames s frame n).nframes = s.nframes := by
  induction n with
  | zero => rfl
  | succ n ih => rw [setFrames_succ]; exact ih

theorem clearFrames_nframes (s : State) (frame : CInt) (n : ℕ) :
    (clearFrames s frame n).nframes = s.nframes := by
  induction n with
  | zero => rfl
  | succ n ih => rw [clearFrames_succ]; exact ih

theorem used_setFrames (s : State) (f n g : ℕ) (hf : f + n ≤ 2 ^ 31) :
    used (setFrames s (BitVec.ofNat 32 f) n) g =
      (used s g || decide (g ∈ Finset.Ico f (f + n))) := by
  induction n with
  | zero => simp [setFrames]
  | succ n ih =>
    rw [setFrames_succ, ← BitVec.ofNat_add, used_setFrame _ _ _ (by omega), ih (by omega),
      Bool.or_assoc, ← Bool.decide_or]
    congr 1
    apply decide_eq_decide.mpr
    simp only [Finset.mem_Ico]
    omega

theorem used_clearFrames (s : State) (f n g : ℕ) (hf : f + n ≤ 2 ^ 31) :
    used (clearFrames s (BitVec.ofNat 32 f) n) g =
      (used s g && decide (g ∉ Finset.Ico f (f + n))) := by
  induction n with
  | zero => simp [clearFrames]
  | succ n ih =>
    rw [clearFrames_succ, ← BitVec.ofNat_add, used_clearFrame _ _ _ (by omega), ih (by omega),
      Bool.and_assoc, ← Bool.decide_and]
    congr 1
    apply decide_eq_decide.mpr
    simp only [Finset.mem_Ico]
    omega

/-- What a successful `pmm_allocateBlock` did, for a frame number whose block
address is representable. -/
theorem allocateBlock_spec (s s' : State) (a : Addr) (h : allocateBlock s = .ok (a, s'))
    (hlow : ∀ f, scanFrame s = some f → f < 2 ^ 19) :
    ∃ f, f < s.nframes.toNat ∧ f < 2 ^ 19 ∧ a.toNat = f * 4096 ∧
      Takes s s' (Finset.Ico f (f + 1)) ∧
      s'.nframes = s.nframes ∧ s'.usedBlocks = s.usedBlocks + 1 := by
  unfold allocateBlock at h
  split_ifs at h with hfull
  cases hscan : scanFrame s with
  | none => simp [findFirstFrame, hscan] at h
  | some f =>
    obtain ⟨hin, hfree⟩ := scanFrame_eq_some s f hscan
    have hf := hlow f hscan
    simp only [findFirstFrame, hscan] at h
    split_ifs at h
    obtain ⟨rfl, rfl⟩ := Prod.mk.inj (Except.ok.inj h)
    refine ⟨f, hin, hf, blockAddress_ofNat f hf, ⟨?_, ?_⟩, rfl, rfl⟩
    · intro g hg
      have : g = f := by simpa using hg
      rw [this]
      exact hfree
    · intro g
      refine (used_setFrame s f g (by omega)).trans ?_
      simp

/-- What a successful `pmm_allocateBlocks` did, with the frame numbers representable. -/
theorem allocateBlocks_spec (s s' : State) (n : BitVec 64) (a : Addr)
    (h : allocateBlocks s n = .ok (a, s'))
    (hlow : ∀ f, scanFrames s n.toNat = some f → f + n.toNat ≤ 2 ^ 19) :
    ∃ f, f + n.toNat ≤ 2 ^ 19 ∧ a.toNat = f * 4096 ∧
      Takes s s' (Finset.Ico f (f + n.toNat)) ∧
      s'.nframes = s.nframes ∧ s'.usedBlocks = s.usedBlocks + n := by
  unfold allocateBlocks at h
  split_ifs at h with hzero hfull
  have hpos : 0 < n.toNat := by
    rw [Nat.pos_iff_ne_zero]
    intro h0
    exact hzero (BitVec.eq_of_toNat_eq h0)
  cases hscan : scanFrames s n.toNat with
  | none => simp [findFirstFrames, hscan] at h
  | some f =>
    have hf := hlow f hscan
    simp only [findFirstFrames, hscan] at h
    split_ifs at h
    obtain ⟨rfl, rfl⟩ := Prod.mk.inj (Except.ok.inj h)
    refine ⟨f, hf, blockAddress_ofNat f (by omega), ⟨?_, ?_⟩, ?_, rfl⟩
    · intro g hg
      have hg' := Finset.mem_Ico.mp hg
      have hfree := scanFrames_eq_some s n.toNat f hscan (by omega) (g - f) (by omega)
      rwa [show f + (g - f) = g by omega] at hfree
    · intro g
      exact used_setFrames s f n.toNat g (by omega)
    · exact setFrames_nframes s _ _

theorem frame_of_block (a : Addr) (f : ℕ) (ha : a.toNat = f * 4096) :
    (a / BitVec.ofNat 64 blockSize).setWidth 32 = BitVec.ofNat 32 f := by
  apply BitVec.eq_of_toNat_eq
  simp only [BitVec.toNat_setWidth, BitVec.toNat_udiv, BitVec.toNat_ofNat, blockSize, ha]
  rw [show 4096 % 2 ^ 64 = 4096 from rfl]
  omega

theorem freeBlock_spec (s : State) (a : Addr) (f : ℕ) (ha : a.toNat = f * 4096)
    (hf : f < 2 ^ 19) (hused : used s f = true) :
    Clears s (freeBlock s a) (Finset.Ico f (f + 1)) ∧
      (freeBlock s a).nframes = s.nframes ∧
      (freeBlock s a).usedBlocks = s.usedBlocks - 1 := by
  have halign : a % BitVec.ofNat 64 blockSize = 0 := by
    apply BitVec.eq_of_toNat_eq
    simp only [BitVec.toNat_umod, BitVec.toNat_ofNat, blockSize, ha]
    rw [show 4096 % 2 ^ 64 = 4096 from rfl, Nat.mul_mod_left]
    rfl
  unfold freeBlock
  simp only [halign, ne_eq, not_true_eq_false, if_false, frame_of_block a f ha]
  refine ⟨⟨?_, ?_⟩, by rfl, by trivial⟩
  · intro g hg
    have : g = f := by simpa using hg
    rw [this]
    exact hused
  · intro g
    refine (used_clearFrame s f g (by omega)).trans ?_
    simp

theorem freeBlocks_spec (s : State) (a : Addr) (n : BitVec 64) (f : ℕ)
    (ha : a.toNat = f * 4096) (hf : f + n.toNat ≤ 2 ^ 19)
    (hused : ∀ g ∈ Finset.Ico f (f + n.toNat), used s g = true) (hn : n ≠ 0) :
    Clears s (freeBlocks s a n) (Finset.Ico f (f + n.toNat)) ∧
      (freeBlocks s a n).nframes = s.nframes ∧
      (freeBlocks s a n).usedBlocks = s.usedBlocks - n := by
  have hpos : 0 < n.toNat := by
    rw [Nat.pos_iff_ne_zero]
    intro h0
    exact hn (BitVec.eq_of_toNat_eq h0)
  unfold freeBlocks
  simp only [hn, if_false, frame_of_block a f ha]
  refine ⟨⟨hused, ?_⟩, ?_, by trivial⟩
  · intro g
    exact used_clearFrames s f n.toNat g (by omega)
  · exact clearFrames_nframes s _ _

/-- The allocator together with the frames handed out and not yet given back. -/
structure Config where
  pmm : State
  held : Finset ℕ

inductive Event
  | allocated (base : Addr) (blocks : ℕ)
  | freed (base : Addr) (blocks : ℕ)

def framesOf (base : Addr) (blocks : ℕ) : Finset ℕ :=
  Finset.Ico (base.toNat / 4096) (base.toNat / 4096 + blocks)

/-- One call. Allocations keep to frame numbers below 2^19 and to runs inside the
bitmap; a free names blocks that are all still held. -/
inductive Step : Config → Event → Config → Prop
  | allocateBlock {c : Config} {a : Addr} {s' : State}
      (h : Pmm.allocateBlock c.pmm = .ok (a, s'))
      (hlow : ∀ f, scanFrame c.pmm = some f → f < 2 ^ 19) :
      Step c (.allocated a 1) ⟨s', c.held ∪ framesOf a 1⟩
  | allocateBlocks {c : Config} {a : Addr} {s' : State} (n : BitVec 64)
      (h : Pmm.allocateBlocks c.pmm n = .ok (a, s'))
      (hlow : ∀ f, scanFrames c.pmm n.toNat = some f → f + n.toNat ≤ 2 ^ 19)
      (hin : a.toNat / 4096 + n.toNat ≤ c.pmm.nframes.toNat) :
      Step c (.allocated a n.toNat) ⟨s', c.held ∪ framesOf a n.toNat⟩
  | freeBlock {c : Config} (a : Addr) (halign : a.toNat % 4096 = 0)
      (hheld : framesOf a 1 ⊆ c.held) :
      Step c (.freed a 1) ⟨Pmm.freeBlock c.pmm a, c.held \ framesOf a 1⟩
  | freeBlocks {c : Config} (a : Addr) (n : BitVec 64) (halign : a.toNat % 4096 = 0)
      (hheld : framesOf a n.toNat ⊆ c.held) :
      Step c (.freed a n.toNat) ⟨Pmm.freeBlocks c.pmm a n, c.held \ framesOf a n.toNat⟩

inductive Reach (c₀ : Config) : Config → Prop
  | refl : Reach c₀ c₀
  | tail {c c' : Config} {e : Event} : Reach c₀ c → Step c e c' → Reach c₀ c'

def Event.Effect : Event → State → State → Prop
  | .allocated base blocks, s, s' => Takes s s' (framesOf base blocks)
  | .freed base blocks, s, s' => Clears s s' (framesOf base blocks)

/-- Invariant of every run: the counter is exact and held frames are used, inside
the bitmap and below 2^19. -/
structure Consistent (c : Config) : Prop where
  counted : Counted c.pmm
  held_used : ∀ f ∈ c.held, used c.pmm f = true
  held_lt : ∀ f ∈ c.held, f < c.pmm.nframes.toNat ∧ f < 2 ^ 19

private theorem framesOf_eq (a : Addr) (f n : ℕ) (ha : a.toNat = f * 4096) :
    framesOf a n = Finset.Ico f (f + n) := by
  unfold framesOf
  rw [ha, Nat.mul_div_cancel f (by decide)]

private theorem Consistent.take {c : Config} (hc : Consistent c) {s' : State} {r : Finset ℕ}
    (n : BitVec 64) (ht : Takes c.pmm s' r) (hcard : r.card = n.toNat)
    (hr : ∀ f ∈ r, f < c.pmm.nframes.toNat ∧ f < 2 ^ 19)
    (hn : s'.nframes = c.pmm.nframes) (hu : s'.usedBlocks = c.pmm.usedBlocks + n) :
    Consistent ⟨s', c.held ∪ r⟩ where
  counted := ht.counted n hcard (fun f hf => (hr f hf).1) hn hu hc.counted
  held_used := by
    intro f hf
    rw [ht.used_after]
    rcases Finset.mem_union.mp hf with hold | hnew
    · simp [hc.held_used f hold]
    · simp [hnew]
  held_lt := by
    intro f hf
    change f < s'.nframes.toNat ∧ f < 2 ^ 19
    rw [hn]
    rcases Finset.mem_union.mp hf with hold | hnew
    · exact hc.held_lt f hold
    · exact hr f hnew

private theorem Consistent.clear {c : Config} (hc : Consistent c) {s' : State} {r : Finset ℕ}
    (n : BitVec 64) (ht : Clears c.pmm s' r) (hcard : r.card = n.toNat) (hr : r ⊆ c.held)
    (hn : s'.nframes = c.pmm.nframes) (hu : s'.usedBlocks = c.pmm.usedBlocks - n) :
    Consistent ⟨s', c.held \ r⟩ where
  counted := ht.counted n hcard (fun f hf => (hc.held_lt f (hr hf)).1) hn hu hc.counted
  held_used := by
    intro f hf
    obtain ⟨hold, hnot⟩ := Finset.mem_sdiff.mp hf
    rw [ht.used_after]
    simp [hc.held_used f hold, hnot]
  held_lt := by
    intro f hf
    change f < s'.nframes.toNat ∧ f < 2 ^ 19
    rw [hn]
    exact hc.held_lt f (Finset.mem_sdiff.mp hf).1

/-- One call changes exactly the frames it names and keeps the invariant. -/
theorem step_exact {c c' : Config} {e : Event} (h : Step c e c') (hc : Consistent c) :
    Consistent c' ∧ e.Effect c.pmm c'.pmm := by
  cases h with
  | @allocateBlock a s' h hlow =>
    obtain ⟨f, hin, hf, ha, htake, hn, hu⟩ := allocateBlock_spec c.pmm s' a h hlow
    have hframes := framesOf_eq a f 1 ha
    simp only [Event.Effect, hframes]
    refine ⟨hc.take 1 htake (by simp) ?_ hn hu, htake⟩
    intro g hg
    have : g = f := by simpa using hg
    omega
  | @allocateBlocks a s' n h hlow hin =>
    obtain ⟨f, hf, ha, htake, hn, hu⟩ := allocateBlocks_spec c.pmm s' n a h hlow
    have hframes := framesOf_eq a f n.toNat ha
    rw [ha, Nat.mul_div_cancel f (by decide)] at hin
    simp only [Event.Effect, hframes]
    refine ⟨hc.take n htake (by simp) ?_ hn hu, htake⟩
    intro g hg
    have := Finset.mem_Ico.mp hg
    omega
  | freeBlock a halign hheld =>
    have ha : a.toNat = a.toNat / 4096 * 4096 := by omega
    have hmem : a.toNat / 4096 ∈ c.held := hheld (by simp [framesOf])
    obtain ⟨hclear, hn, hu⟩ := freeBlock_spec c.pmm a _ ha (hc.held_lt _ hmem).2
      (hc.held_used _ hmem)
    exact ⟨hc.clear 1 hclear (by simp [framesOf]) hheld hn hu, hclear⟩
  | freeBlocks a n halign hheld =>
    by_cases hzero : n = 0
    · subst hzero
      have hempty : framesOf a (0 : BitVec 64).toNat = ∅ := by simp [framesOf]
      simp only [Event.Effect, hempty, Finset.sdiff_empty]
      exact ⟨hc, ⟨by simp, by simp [freeBlocks]⟩⟩
    · have ha : a.toNat = a.toNat / 4096 * 4096 := by omega
      have hpos : n.toNat ≠ 0 := fun h0 => hzero (BitVec.eq_of_toNat_eq h0)
      have hlast : a.toNat / 4096 + (n.toNat - 1) ∈ c.held :=
        hheld (by simp only [framesOf, Finset.mem_Ico]; omega)
      have hlt := (hc.held_lt _ hlast).2
      obtain ⟨hclear, hn, hu⟩ := freeBlocks_spec c.pmm a n _ ha (by omega)
        (fun g hg => hc.held_used g (hheld hg)) hzero
      exact ⟨hc.clear n hclear (by simp [framesOf]) hheld hn hu, hclear⟩

theorem reach_consistent {c₀ c : Config} (h : Reach c₀ c) (h₀ : Consistent c₀) :
    Consistent c := by
  induction h with
  | refl => exact h₀
  | tail _ hstep ih => exact (step_exact hstep ih).1

theorem initial_consistent (s : State) (h : Counted s) : Consistent ⟨s, ∅⟩ where
  counted := h
  held_used := by simp
  held_lt := by simp

/-- From any bitmap whose counter is exact, every call of every sequence of
allocations and frees hands out only free frames, changes exactly the frames it
names, and keeps the counter equal to the number of used frames. -/
theorem allocation_safe (s : State) (hs : Counted s) {c c' : Config} {e : Event}
    (hreach : Reach ⟨s, ∅⟩ c) (hstep : Step c e c') :
    Counted c.pmm ∧ e.Effect c.pmm c'.pmm ∧ Counted c'.pmm := by
  have hc := reach_consistent hreach (initial_consistent s hs)
  obtain ⟨hc', heffect⟩ := step_exact hstep hc
  exact ⟨hc.counted, heffect, hc'.counted⟩

def freeBitmap : State := ⟨fun _ => 0, 64, 0, 64⟩

def ranOut : State := { setFrames freeBitmap 0 31 with usedBlocks := 31 }

def wordOut : State := { setFrame ranOut 31 with usedBlocks := 32 }

def holed : State := freeBlocks wordOut 0x1000 2

def refilled : State := { setFrames holed 1 2 with usedBlocks := 32 }

/-- A run of 31 frames and the frame behind it are taken, two are given back and taken again, and
the last frame of the word is given back. -/
theorem allocation_safe_refilled :
    allocateBlocks freeBitmap 31 = .ok (0, ranOut) ∧
      allocateBlock ranOut = .ok (0x1F000, wordOut) ∧
      allocateBlocks holed 2 = .ok (0x1000, refilled) ∧
      Takes holed refilled (framesOf 0x1000 2) ∧
      Clears refilled (freeBlock refilled 0x1F000) (framesOf 0x1F000 1) ∧
      Counted (freeBlock refilled 0x1F000) := by
  have hfree : Counted freeBitmap := by decide +kernel
  have hrun : scanFrames freeBitmap 31 = some 0 := by decide +kernel
  have hblock : scanFrame ranOut = some 31 := by decide +kernel
  have hhole : scanFrames holed 2 = some 1 := by decide +kernel
  have htaken : allocateBlocks freeBitmap 31 = .ok (0, ranOut) := by
    rw [allocateBlocks, show findFirstFrames freeBitmap 31 = 0 by decide +kernel]
    rfl
  have hbehind : allocateBlock ranOut = .ok (0x1F000, wordOut) := by
    rw [allocateBlock, show findFirstFrame ranOut = 31 by decide +kernel]
    rfl
  have hagain : allocateBlocks holed 2 = .ok (0x1000, refilled) := by
    rw [allocateBlocks, show findFirstFrames holed 2 = 1 by decide +kernel]
    rfl
  have hfirst : Step ⟨freeBitmap, ∅⟩ (.allocated 0 31) _ := .allocateBlocks 31 htaken
    (fun f hf => by obtain rfl := Option.some.inj (hrun.symm.trans hf); decide) (by decide)
  have hsecond : Step _ (.allocated 0x1F000 1) _ := .allocateBlock
    (c := ⟨ranOut, ∅ ∪ framesOf 0 31⟩) hbehind
    fun f hf => by obtain rfl := Option.some.inj (hblock.symm.trans hf); decide
  have hthird : Step _ (.freed 0x1000 2) _ := .freeBlocks
    (c := ⟨wordOut, ∅ ∪ framesOf 0 31 ∪ framesOf 0x1F000 1⟩) 0x1000 2 (by decide) (by decide)
  have hfourth : Step _ (.allocated 0x1000 2) _ := .allocateBlocks
    (c := ⟨holed, (∅ ∪ framesOf 0 31 ∪ framesOf 0x1F000 1) \ framesOf 0x1000 2⟩) 2 hagain
    (fun f hf => by obtain rfl := Option.some.inj (hhole.symm.trans hf); decide) (by decide)
  have hreach := ((Reach.refl.tail hfirst).tail hsecond).tail hthird
  have htakes := allocation_safe freeBitmap hfree hreach hfourth
  have hclears := allocation_safe freeBitmap hfree (hreach.tail hfourth)
    (.freeBlock 0x1F000 (by decide) (by decide))
  exact ⟨htaken, hbehind, hagain, htakes.2.1, hclears.2.1, hclears.2.2⟩

end ReduceOS.Pmm
