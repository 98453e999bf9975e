import ReduceOS.MemoryMap
import ReduceOS.Overlay

/-!
Which memory maps are marked conservatively. Each region that is marked or freed is a layer over
the frames; the last one over a frame decides, and where there is none the bitmap still holds what
`pmm_init` left there.
-/
namespace ReduceOS.MemoryMarking

open Machine Inet Multiboot MemoryMap Pmm Physical Overlay

section Init

/-- The bitmap's bit of a frame behind `pmm_init`: the bytes that it sets have only their low
halves set, and they are one for every eight frames where the bitmap has one for every four. -/
def setAtFirst (bitmap : ℤ → BitVec 64) (nframes : BitVec 64) (f : ℕ) : Bool :=
  if 8 * (f / 32) + f % 32 / 8 < (nframes / 8).toNat then decide (f % 8 < 4)
  else (bitmap (f / 32 : ℕ)).getLsbD (f % 32)

theorem wordByte_memset (bitmap : ℤ → BitVec 64) (c : Byte) (n i k : ℕ) (hk : k < 8) :
    wordByte (memset bitmap c n (i : ℤ)) k =
      if 8 * i + k < n then c else wordByte (bitmap i) k := by
  induction n with
  | zero => simp [memset]
  | succ n ih =>
    unfold memset
    by_cases hi : i = n / 8
    · subst hi
      rw [Function.update_self]
      by_cases hbyte : k = n % 8
      · have hlt : 8 * (n / 8) + k < n + 1 := by omega
        rw [if_pos hlt, hbyte, wordByte_setWordByte _ _ _ (by omega)]
      · have hiff : 8 * (n / 8) + k < n + 1 ↔ 8 * (n / 8) + k < n := by omega
        simp only [wordByte_setWordByte_ne _ _ _ _ hbyte, ih, hiff]
    · have hne : (i : ℤ) ≠ (n / 8 : ℕ) := by omega
      have hiff : 8 * i + k < n + 1 ↔ 8 * i + k < n := by omega
      rw [Function.update_of_ne hne, ih]
      simp only [hiff]

theorem getLsbD_wordByte (w : BitVec 64) (j : ℕ) :
    (wordByte w (j / 8)).getLsbD (j % 8) = w.getLsbD j := by
  have hlt : j % 8 < 8 := by omega
  have hj : 8 * (j / 8) + j % 8 = j := by omega
  simp only [wordByte, BitVec.getLsbD_extractLsb', hlt, hj, decide_true, Bool.true_and]

theorem used_init {memSize : BitVec 64} {bitmap : ℤ → BitVec 64} {s : State}
    (hinit : pmmInit memSize (some bitmap) = .returned s) (f : ℕ) :
    used s f = setAtFirst bitmap s.nframes f := by
  unfold pmmInit at hinit
  split_ifs at hinit
  obtain rfl := Ending.returned.inj hinit
  have hbyte : ∀ k < 8, (0xF : BitVec 8).getLsbD k = decide (k < 4) := by decide
  have hmod : f % 32 % 8 = f % 8 := by omega
  unfold used setAtFirst
  rw [← getLsbD_wordByte, wordByte_memset _ _ _ _ _ (by omega)]
  split_ifs
  · rw [hmod, hbyte _ (by omega)]
  · rw [getLsbD_wordByte]

end Init

section Regions

structure Region where
  mark : Bool
  base : Addr
  size : BitVec 64

def Region.apply (s : State) (r : Region) : State :=
  if r.mark then deinitializeRegion s r.base r.size else initializeRegion s r.base r.size

/-- The bit that is set or cleared for a frame number is that of the frame `f`. -/
def hits (frame : CInt) (f : ℕ) : Bool :=
  decide (wordOf frame = (f / 32 : ℕ) ∧ bitOf frame = f % 32)

/-- One of the blocks that are counted for a region is the frame `f`. -/
def Region.covers (f : ℕ) (r : Region) : Bool :=
  (List.range (blocks r.size)).any fun i => hits (align r.base + BitVec.ofNat 32 i) f

/-- Where the frame numbers fit an `int`, a region covers as many frames from its first one on as
it has blocks. -/
theorem covers_iff {r : Region} {a : ℕ} (halign : align r.base = BitVec.ofNat 32 a)
    (hfit : a + blocks r.size ≤ 2 ^ 31) (f : ℕ) :
    r.covers f = true ↔ a ≤ f ∧ f < a + blocks r.size := by
  have hhits : ∀ i < blocks r.size, hits (align r.base + BitVec.ofNat 32 i) f = true ↔
      f = a + i := by
    intro i hi
    rw [halign, ← BitVec.ofNat_add, hits, wordOf_ofNat _ (by omega), bitOf_ofNat _ (by omega)]
    simp only [decide_eq_true_eq]
    omega
  simp only [Region.covers, List.any_eq_true, List.mem_range]
  constructor
  · rintro ⟨i, hi, hf⟩
    have hf := (hhits i hi).mp hf
    omega
  · intro ⟨hle, hlt⟩
    refine ⟨f - a, by omega, (hhits _ (by omega)).mpr (by omega)⟩

variable (s : State) (f : ℕ)

theorem used_setFrame_hits (frame : CInt) :
    used (setFrame s frame) f = (used s f || hits frame f) := by
  unfold used setFrame State.setWord hits
  by_cases hword : wordOf frame = (f / 32 : ℕ)
  · simp only [hword, Function.update_self, BitVec.getLsbD_or, true_and]
    rw [getLsbD_frameMask _ _ (by omega)]
    simp only [eq_comm]
  · have hne : ((f / 32 : ℕ) : ℤ) ≠ wordOf frame := fun h => hword h.symm
    simp only [Function.update_of_ne hne, hword, false_and, decide_false, Bool.or_false]

theorem used_clearFrame_hits (frame : CInt) :
    used (clearFrame s frame) f = (used s f && !hits frame f) := by
  unfold used clearFrame State.setWord hits
  by_cases hword : wordOf frame = (f / 32 : ℕ)
  · simp only [hword, Function.update_self, BitVec.getLsbD_and, true_and]
    rw [getLsbD_clearMask _ _ (by omega), ← decide_not]
    simp only [ne_eq, eq_comm]
  · have hne : ((f / 32 : ℕ) : ℤ) ≠ wordOf frame := fun h => hword h.symm
    simp only [Function.update_of_ne hne, hword, false_and, decide_false, Bool.not_false,
      Bool.and_true]

theorem used_setFrames_hits (frame : CInt) (n : ℕ) : used (setFrames s frame n) f =
    (used s f || (List.range n).any fun i => hits (frame + BitVec.ofNat 32 i) f) := by
  induction n with
  | zero => simp [setFrames]
  | succ n ih =>
    rw [setFrames_succ, used_setFrame_hits, ih, List.range_succ, List.any_append, Bool.or_assoc]
    simp

theorem used_clearFrames_hits (frame : CInt) (n : ℕ) : used (clearFrames s frame n) f =
    (used s f && !(List.range n).any fun i => hits (frame + BitVec.ofNat 32 i) f) := by
  induction n with
  | zero => simp [clearFrames]
  | succ n ih =>
    rw [clearFrames_succ, used_clearFrame_hits, ih, List.range_succ, List.any_append,
      Bool.and_assoc]
    simp

theorem blocks_zero : blocks 0 = 0 := by decide

theorem deinitializeRegion_eq (base : Addr) (size : BitVec 64) :
    deinitializeRegion s base size = { setFrames s (align base) (blocks size) with
      usedBlocks := s.usedBlocks + BitVec.ofNat 64 (blocks size) } := by
  unfold deinitializeRegion
  split_ifs with hsize
  · subst hsize
    rw [blocks_zero]
    simp [setFrames]
  · rfl

theorem initializeRegion_eq (base : Addr) (size : BitVec 64) :
    initializeRegion s base size = { clearFrames s (align base) (blocks size) with
      usedBlocks := s.usedBlocks - BitVec.ofNat 64 (blocks size) } := by
  unfold initializeRegion
  split_ifs with hsize
  · subst hsize
    rw [blocks_zero]
    simp [clearFrames]
  · rfl

theorem used_apply (r : Region) :
    used (Region.apply s r) f = if r.covers f then r.mark else used s f := by
  obtain ⟨mark, base, size⟩ := r
  cases mark with
  | true =>
    have hset := used_setFrames_hits s f (align base) (blocks size)
    simp only [Region.apply, if_true, deinitializeRegion_eq]
    refine hset.trans ?_
    cases hcovers : Region.covers f ⟨true, base, size⟩ <;>
      simp only [Region.covers] at hcovers <;> simp [hcovers]
  | false =>
    have hclear := used_clearFrames_hits s f (align base) (blocks size)
    simp only [Region.apply, Bool.false_eq_true, if_false, initializeRegion_eq]
    refine hclear.trans ?_
    cases hcovers : Region.covers f ⟨false, base, size⟩ <;>
      simp only [Region.covers] at hcovers <;> simp [hcovers]

@[simp] theorem nframes_apply (r : Region) : (Region.apply s r).nframes = s.nframes := by
  unfold Region.apply
  split_ifs
  · rw [deinitializeRegion_eq]
    exact setFrames_nframes s _ _
  · rw [initializeRegion_eq]
    exact clearFrames_nframes s _ _

def blockSum (mark : Bool) (regions : List Region) : ℕ :=
  ((regions.filter (·.mark = mark)).map fun r => blocks r.size).sum

theorem nframes_foldl (regions : List Region) :
    (regions.foldl Region.apply s).nframes = s.nframes := by
  induction regions generalizing s with
  | nil => rfl
  | cons r regions ih => rw [List.foldl_cons, ih, nframes_apply]

theorem blockSum_cons (mark : Bool) (r : Region) (regions : List Region) :
    blockSum mark (r :: regions) =
      (if r.mark = mark then blocks r.size else 0) + blockSum mark regions := by
  by_cases hmark : r.mark = mark <;> simp [blockSum, hmark]

theorem usedBlocks_foldl (regions : List Region) :
    (regions.foldl Region.apply s).usedBlocks =
      s.usedBlocks + BitVec.ofNat 64 (blockSum true regions) -
        BitVec.ofNat 64 (blockSum false regions) := by
  induction regions generalizing s with
  | nil => simp [blockSum]
  | cons r regions ih =>
    obtain ⟨mark, base, size⟩ := r
    rw [List.foldl_cons, ih, blockSum_cons, blockSum_cons, BitVec.ofNat_add, BitVec.ofNat_add]
    cases mark with
    | true =>
      simp only [Region.apply, if_true, deinitializeRegion_eq, Bool.true_eq_false, if_false]
      grind
    | false =>
      simp only [Region.apply, if_true, initializeRegion_eq, Bool.false_eq_true, if_false]
      grind

/-- What the used bit of a frame is once all regions are marked or freed. -/
theorem used_foldl (regions : List Region) : used (regions.foldl Region.apply s) f =
    seen (Region.covers f) Region.mark regions (used s f) :=
  view_foldl (Region.covers f) Region.mark Region.apply (fun s => used s f)
    (fun s r => used_apply s f r) regions s

end Regions

section Entries

variable (mem : ℕ → Byte) (memSize : BitVec 64)

def unavailableRegion (d : Descriptor) : Option Region :=
  if d.address > 0x100000 ∧ d.address + d.length < memSize then some ⟨true, d.address, d.length⟩
  else none

def entryRegion (isMb2 : Bool) (d : Descriptor) : Option Region :=
  if d.type = 0 ∧ (isMb2 → d.length ≠ 0 ∧ d.address + d.length - 1 > 0) then
    some ⟨false, d.address, d.length⟩
  else unavailableRegion memSize d

def entryRegions (isMb2 : Bool) (entries : List Descriptor) : List Region :=
  entries.filterMap (entryRegion memSize isMb2)

def lowRegion : Region := ⟨true, 0, 0x100000⟩

def kernelRegion (highestAddress : BitVec 64) : Region :=
  ⟨true, 0x100000, highestAddress - 0x100000⟩

theorem genericType_eq_zero (type : BitVec 32) : genericType type = 0 ↔ type = 1 := by
  unfold genericType
  split_ifs <;> simp_all

theorem entryRegions_cons (isMb2 : Bool) (d : Descriptor) (entries : List Descriptor) :
    entryRegions memSize isMb2 (d :: entries) =
      (entryRegion memSize isMb2 d).toList ++ entryRegions memSize isMb2 entries := by
  unfold entryRegions
  cases hregion : entryRegion memSize isMb2 d <;> simp [hregion]

theorem entry_eq (isMb2 : Bool) (s : State) (addr : Addr) (len : BitVec 64) (type : BitVec 32) :
    (if type = 1 ∧ (isMb2 → len ≠ 0 ∧ addr + len - 1 > 0) then initializeRegion s addr len
      else markUnavailable memSize s addr len) =
      (entryRegion memSize isMb2 ⟨addr, len, genericType type⟩).toList.foldl Region.apply s := by
  unfold entryRegion
  simp only [genericType_eq_zero]
  split_ifs
  · simp [Region.apply]
  · unfold markUnavailable unavailableRegion
    split_ifs <;> simp [Region.apply]

theorem markEntries2_eq (entrySize : BitVec 32) (stop n ptr : ℕ) (s : State) :
    markEntries2 mem memSize entrySize stop n ptr s =
      (mmapEntries mem entrySize stop n ptr).map fun entries =>
        (entryRegions memSize true entries).foldl Region.apply s := by
  induction n generalizing ptr s with
  | zero => rfl
  | succ n ih =>
    unfold markEntries2 mmapEntries
    split_ifs with hlt
    · have hentry := entry_eq memSize true s (load64 mem ptr) (load64 mem (ptr + 8))
        (load32 mem (ptr + 16))
      simp only [forall_const] at hentry
      simp only [hentry, ih, Option.map_map, Function.comp_def, entryRegions_cons,
        List.foldl_append]
    · simp [entryRegions]

theorem markEntries1_eq (stop n mmap : ℕ) (s : State) :
    markEntries1 mem memSize stop n mmap s =
      (mmapEntries1 mem stop n mmap).map fun entries =>
        (entryRegions memSize false entries).foldl Region.apply s := by
  induction n generalizing mmap s with
  | zero => rfl
  | succ n ih =>
    rw [markEntries1, mmapEntries1]
    by_cases hlt : mmap < stop
    · have hentry := entry_eq memSize false s (load64 mem (mmap + 4)) (load64 mem (mmap + 12))
        (load32 mem (mmap + 20))
      simp only [Bool.false_eq_true, false_implies, and_true] at hentry
      simp only [hlt, if_true, hentry, ih, Option.map_map, Function.comp_def, entryRegions_cons,
        List.foldl_append]
    · simp [hlt, entryRegions]

structure Mapped (isMb2 : Bool) (n storedBootinfo : ℕ) (entries : List Descriptor) : Prop where
  stored : storedBootinfo ≠ 0
  sized : memSize ≠ 0
  map : memoryMap mem isMb2 n storedBootinfo = some entries

variable {mem memSize} {isMb2 : Bool} {n storedBootinfo : ℕ} {entries : List Descriptor}

theorem markEntries_eq (h : memoryMap mem isMb2 n storedBootinfo = some entries) (s : State) :
    markEntries mem memSize isMb2 n storedBootinfo s =
      some (.returned ((entryRegions memSize isMb2 entries).foldl Region.apply s)) := by
  cases isMb2 with
  | true =>
    simp only [memoryMap, if_true, Option.bind_eq_bind, Option.bind_eq_some_iff] at h
    obtain ⟨tag, htag, h⟩ := h
    cases tag with
    | none => contradiction
    | some mmap =>
      dsimp only at h
      simp [markEntries, htag, markEntries2_eq, h]
  | false =>
    simp only [memoryMap, Bool.false_eq_true, if_false] at h
    simp only [markEntries, Bool.false_eq_true, if_false, markEntries1_eq, h]
    rfl

def regions (memSize : BitVec 64) (isMb2 : Bool) (highestAddress : BitVec 64)
    (entries : List Descriptor) : List Region :=
  entryRegions memSize isMb2 entries ++ [lowRegion] ++ [kernelRegion highestAddress]

theorem initMemory_eq (h : Mapped mem memSize isMb2 n storedBootinfo entries)
    (bitmap : ℤ → BitVec 64) (highestAddress : BitVec 64) :
    ∃ s, pmmInit memSize (some bitmap) = .returned s ∧
      initMemory mem memSize isMb2 n storedBootinfo (some bitmap) highestAddress =
        some (.returned ((regions memSize isMb2 highestAddress entries).foldl Region.apply s)) := by
  refine ⟨_, if_neg h.sized, ?_⟩
  simp only [initMemory, pmmInit, if_neg h.sized, archMarkMemory, if_neg h.stored,
    markEntries_eq h.map, regions, List.foldl_append]
  rfl

end Entries

section Conservative

def Meets (f : ℕ) (base size : ℕ) : Prop := ∃ x, base ≤ x ∧ x < base + size ∧ x / blockSize = f

/-- A frame has a byte of the kernel image or of an entry that is not available. -/
def Taken (highestAddress : BitVec 64) (entries : List Descriptor) (f : ℕ) : Prop :=
  Meets f 0x100000 (highestAddress.toNat - 0x100000) ∨
    ∃ d ∈ entries, d.type ≠ 0 ∧ Meets f d.address.toNat d.length.toNat

/-- None of the frames that must not be given out is free, and the used frames are counted. -/
structure Conservative (highestAddress : BitVec 64) (entries : List Descriptor) (s : State) :
    Prop where
  low : ∀ f < s.nframes.toNat, Meets f 0 0x100000 → used s f = true
  taken : ∀ f < s.nframes.toNat, Taken highestAddress entries f → used s f = true
  counted : Counted s

variable (memSize : BitVec 64) (isMb2 : Bool) (highestAddress : BitVec 64)
  (entries : List Descriptor) (bitmap : ℤ → BitVec 64)

def frameCount : BitVec 64 := memSize / BitVec.ofNat 64 blockSize

/-- A frame is a block of the first MiB or of the kernel, or the last entry of the map with a
region over it is not available, or there is none and its bit was set before. -/
def marked (f : ℕ) : Bool :=
  lowRegion.covers f || (kernelRegion highestAddress).covers f ||
    seen (Region.covers f) Region.mark (entryRegions memSize isMb2 entries)
      (setAtFirst bitmap (frameCount memSize) f)

/-- The blocks of available entries, counted for each of them, are as many as the frames that are
not marked, and the blocks of all regions that are. -/
def Balanced : Prop :=
  BitVec.ofNat 64 (blockSum false (entryRegions memSize isMb2 entries)) =
    BitVec.ofNat 64 (((Finset.range (frameCount memSize).toNat).filter fun f =>
        marked memSize isMb2 highestAddress entries bitmap f = false).card +
      blockSum true (entryRegions memSize isMb2 entries) + 256 +
      blocks (highestAddress - 0x100000))

variable {memSize isMb2 highestAddress entries bitmap} {s : State}

theorem counts_of_init (hinit : pmmInit memSize (some bitmap) = .returned s) :
    s.nframes = frameCount memSize ∧ s.usedBlocks = frameCount memSize := by
  unfold pmmInit at hinit
  split_ifs at hinit
  obtain rfl := Ending.returned.inj hinit
  exact ⟨rfl, rfl⟩

theorem blocks_low : blocks 0x100000 = 256 := by decide

theorem covers_low {f : ℕ} (hlow : Meets f 0 0x100000) : lowRegion.covers f = true := by
  obtain ⟨x, -, hx, rfl⟩ := hlow
  have hf : x / blockSize < 256 := by
    unfold blockSize
    omega
  have halign : align lowRegion.base = BitVec.ofNat 32 0 := by decide
  have hblocks : blocks lowRegion.size = 256 := blocks_low
  exact (covers_iff halign (by omega) _).mpr ⟨Nat.zero_le _, by omega⟩

theorem used_marked (hinit : pmmInit memSize (some bitmap) = .returned s) (f : ℕ) :
    used ((regions memSize isMb2 highestAddress entries).foldl Region.apply s) f =
      marked memSize isMb2 highestAddress entries bitmap f := by
  rw [used_foldl, regions, seen_concat, seen_concat, used_init hinit, (counts_of_init hinit).1,
    marked]
  cases lowRegion.covers f <;> cases hkernel : (kernelRegion highestAddress).covers f <;>
    simp [lowRegion, kernelRegion]

theorem blockSum_append (mark : Bool) (before after : List Region) :
    blockSum mark (before ++ after) = blockSum mark before + blockSum mark after := by
  simp [blockSum]

theorem blockSum_singleton (r : Region) (hmark : r.mark = true) :
    blockSum true [r] = blocks r.size ∧ blockSum false [r] = 0 := by
  simp [blockSum, hmark]

/-- A counter of all frames less the freed blocks and with the marked ones is that of the used
frames if and only if the freed blocks are as many as the unused frames and the marked blocks. -/
theorem counter_eq_iff {total : BitVec 64} {used unused marks frees : ℕ}
    (hsplit : used + unused = total.toNat) :
    (total + BitVec.ofNat 64 marks - BitVec.ofNat 64 frees).toNat = used ↔
      BitVec.ofNat 64 frees = BitVec.ofNat 64 (unused + marks) := by
  have htotal : total = BitVec.ofNat 64 used + BitVec.ofNat 64 unused := by
    rw [← BitVec.ofNat_add, hsplit, BitVec.ofNat_toNat, BitVec.setWidth_eq]
  have hused : (BitVec.ofNat 64 used).toNat = used := by
    have hlt := total.isLt
    rw [BitVec.toNat_ofNat, Nat.mod_eq_of_lt (by omega)]
  have hcounter : (total + BitVec.ofNat 64 marks - BitVec.ofNat 64 frees).toNat = used ↔
      total + BitVec.ofNat 64 marks - BitVec.ofNat 64 frees = BitVec.ofNat 64 used := by
    rw [← BitVec.toNat_inj, hused]
  rw [hcounter, htotal, BitVec.ofNat_add]
  constructor <;> intro h <;> grind

theorem counted_iff (hinit : pmmInit memSize (some bitmap) = .returned s) :
    Counted ((regions memSize isMb2 highestAddress entries).foldl Region.apply s) ↔
      Balanced memSize isMb2 highestAddress entries bitmap := by
  have hnframes := (counts_of_init hinit).1
  have husedBlocks := (counts_of_init hinit).2
  have hsplit := Finset.card_filter_add_card_filter_not
      (s := Finset.range (frameCount memSize).toNat)
    fun f => marked memSize isMb2 highestAddress entries bitmap f = true
  simp only [Finset.card_range, Bool.not_eq_true] at hsplit
  unfold Counted usedSet Balanced
  simp only [used_marked hinit]
  simp only [nframes_foldl, hnframes, usedBlocks_foldl, husedBlocks, regions, blockSum_append,
    blockSum_singleton lowRegion rfl, blockSum_singleton (kernelRegion highestAddress) rfl]
  simp only [lowRegion, kernelRegion, blocks_low, Nat.add_zero]
  simp only [counter_eq_iff hsplit, Nat.add_assoc]

/-- A memory map is marked conservatively if and only if each of its frames that must not be given
out has a region over it that marks it behind all that free it, and the freed blocks are as many as
those marked and left. -/
theorem marked_conservatively_iff {mem : ℕ → Byte} {n storedBootinfo : ℕ}
    (h : Mapped mem memSize isMb2 n storedBootinfo entries) :
    (∃ s, initMemory mem memSize isMb2 n storedBootinfo (some bitmap) highestAddress =
        some (.returned s) ∧ Conservative highestAddress entries s) ↔
      (∀ f < (frameCount memSize).toNat, Taken highestAddress entries f →
          marked memSize isMb2 highestAddress entries bitmap f = true) ∧
        Balanced memSize isMb2 highestAddress entries bitmap := by
  obtain ⟨s, hinit, hrun⟩ := initMemory_eq h bitmap highestAddress
  have hnframes := (counts_of_init hinit).1
  rw [hrun, ← counted_iff hinit]
  simp only [Option.some.injEq, Ending.returned.injEq, exists_eq_left']
  constructor
  · intro hconservative
    refine ⟨fun f hf htaken => ?_, hconservative.counted⟩
    rw [← used_marked hinit]
    apply hconservative.taken f _ htaken
    rwa [nframes_foldl, hnframes]
  · rintro ⟨htaken, hcounted⟩
    refine ⟨fun f hf hlow => ?_, fun f hf hmeets => ?_, hcounted⟩
    · rw [used_marked hinit, marked, covers_low hlow, Bool.true_or, Bool.true_or]
    · rw [nframes_foldl, hnframes] at hf
      rw [used_marked hinit]
      exact htaken f hf hmeets

def mapBytes (entries : List (BitVec 32 × BitVec 32 × BitVec 32)) : List Byte :=
  List.replicate 8 0 ++ bytes32 6 ++ bytes32 (BitVec.ofNat 32 (16 + 24 * entries.length)) ++
    bytes32 24 ++ bytes32 0 ++ entries.flatMap fun e =>
      bytes32 e.1 ++ bytes32 0 ++ bytes32 e.2.1 ++ bytes32 0 ++ bytes32 e.2.2 ++ bytes32 0

def mapMemory (entries : List (BitVec 32 × BitVec 32 × BitVec 32)) : ℕ → Byte :=
  ofList (mapBytes entries) fun _ => 0

/-- A memory of 2 MiB that is available, with a kernel that takes what is above the first. -/
theorem marked_conservatively_two_mebibytes :
    ∃ s, initMemory (mapMemory [(0, 0x200000, 1)]) 0x200000 true 2 8 (some fun _ => 0) 0x200000 =
      some (.returned s) ∧ Conservative 0x200000 [⟨0, 0x200000, 0⟩] s := by
  have hcount : (frameCount 0x200000).toNat = 512 := by decide
  have hmarked : ∀ f < 512,
      marked 0x200000 true 0x200000 [⟨0, 0x200000, 0⟩] (fun _ => 0) f = true := by
    intro f hf
    have hlow : lowRegion.covers f = true ↔ 0 ≤ f ∧ f < 0 + 256 :=
      covers_iff (by decide) (by decide) f
    have hkernel : (kernelRegion 0x200000).covers f = true ↔ 256 ≤ f ∧ f < 256 + 256 :=
      covers_iff (by decide) (by decide) f
    rw [marked, Bool.or_eq_true, Bool.or_eq_true, hlow, hkernel]
    omega
  refine (marked_conservatively_iff ⟨by decide, by decide, by decide +kernel⟩).mpr ⟨?_, ?_⟩
  · intro f hf _
    exact hmarked f (by omega)
  · have hnone : (Finset.range 512).filter (fun f =>
        marked 0x200000 true 0x200000 [⟨0, 0x200000, 0⟩] (fun _ => 0) f = false) = ∅ := by
      apply Finset.filter_false_of_mem
      intro f hf
      rw [hmarked f (Finset.mem_range.mp hf)]
      decide
    rw [Balanced, hcount, hnone]
    decide +kernel

/-- An available entry, one that is not and ends inside a frame, and an available one behind it. -/
def unalignedMap : List Descriptor :=
  [⟨0, 0x280800, 0⟩, ⟨0x280800, 0x1000, 1⟩, ⟨0x281800, 0x7e800, 0⟩]

def unalignedMemory : ℕ → Byte :=
  mapMemory [(0, 0x280800, 1), (0x280800, 0x1000, 2), (0x281800, 0x7e800, 1)]

/-- The frame in which the second entry ends is free. -/
theorem unaligned_entry_freed :
    Mapped unalignedMemory 0x2fffff true 4 8 unalignedMap ∧
      ¬ ∃ s, initMemory unalignedMemory 0x2fffff true 4 8 (some fun _ => 0) 0x200000 =
          some (.returned s) ∧ Conservative 0x200000 unalignedMap s := by
  have hmapped : Mapped unalignedMemory 0x2fffff true 4 8 unalignedMap :=
    ⟨by decide, by decide, by decide +kernel⟩
  refine ⟨hmapped, ?_⟩
  rintro ⟨s, hrun, hconservative⟩
  obtain ⟨start, hinit, hstart⟩ := initMemory_eq hmapped (fun _ => 0) 0x200000
  rw [hstart, Option.some.injEq, Ending.returned.injEq] at hrun
  subst hrun
  have hmeets : Taken 0x200000 unalignedMap 0x281 :=
    .inr ⟨⟨0x280800, 0x1000, 1⟩, by decide, by decide, 0x281000, by decide, by decide, by decide⟩
  have hused := hconservative.taken 0x281
    (by rw [nframes_foldl, (counts_of_init hinit).1]; decide) hmeets
  rw [used_marked hinit] at hused
  exact absurd hused (by decide +kernel)

end Conservative

end ReduceOS.MemoryMarking
