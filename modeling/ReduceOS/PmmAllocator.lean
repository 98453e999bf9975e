import ReduceOS.FrameSearch
import ReduceOS.Paging
import Mathlib.Data.Set.Card

/-!
The bitmap allocator behind the memory code. While it finds a frame below 2 GiB the block
address it computes is exact, and it meets the laws the memory code relies on. Without the
frames above, it does the same for as many blocks as there are such frames.
-/
namespace ReduceOS.PmmAllocator

open Machine Page Physical Outcome

def usedFrames (p : Pmm.State) : Set FrameNo := {f | Pmm.used p f.toNat = true}

def Fits (p : Pmm.State) : Prop := p.nframes.toNat ≤ 2 ^ 19

def FindsLow (p : Pmm.State) : Prop := ∀ f, Pmm.scanFrame p = some f → f < 2 ^ 19

theorem Fits.findsLow {p : Pmm.State} (hp : Fits p) : FindsLow p := fun f hscan =>
  Nat.lt_of_lt_of_le (Pmm.scanFrame_eq_some p f hscan).1 hp

theorem allocateBlock_meets (p : Pmm.State) (hp : FindsLow p) :
    Meets Oom (Pmm.allocateBlock p) fun r =>
      ∃ f : FrameNo, r.1 = frameAddr f ∧ f.toNat < 2 ^ 19 ∧ f ∉ usedFrames p ∧
        r.2.nframes = p.nframes ∧ usedFrames r.2 = insert f (usedFrames p) ∧
        r.2.usedBlocks = p.usedBlocks + 1 := by
  cases hcall : Pmm.allocateBlock p with
  | error e =>
    simp only [Pmm.allocateBlock] at hcall
    split_ifs at hcall
    · exact (Except.error.inj hcall).symm
    · exact (Except.error.inj hcall).symm
  | ok r =>
    obtain ⟨a, p'⟩ := r
    obtain ⟨f, -, hf, ha, htakes, hn, hcount⟩ := Pmm.allocateBlock_spec p p' a hcall hp
    have hnat : (BitVec.ofNat 28 f).toNat = f := by
      rw [BitVec.toNat_ofNat]
      omega
    refine ⟨BitVec.ofNat 28 f, ?_, by omega, ?_, hn, ?_, hcount⟩
    · apply BitVec.eq_of_toNat_eq
      rw [frameAddr_toNat, hnat]
      exact ha
    · simp only [usedFrames, Set.mem_ofPred_eq, hnat]
      simp [htakes.free_before f (by simp)]
    · ext g
      simp only [usedFrames, Set.mem_ofPred_eq, Set.mem_insert_iff, htakes.used_after,
          Bool.or_eq_true,
        decide_eq_true_eq, Finset.mem_Ico]
      have hg : g = BitVec.ofNat 28 f ↔ g.toNat = f := by
        rw [BitVec.toNat_eq, hnat]
      rw [hg]
      constructor
      · rintro (h | h)
        · exact Or.inr h
        · exact Or.inl (by omega)
      · rintro (h | h)
        · exact Or.inr (by omega)
        · exact Or.inl h

theorem freeBlock_meets (p : Pmm.State) (f : FrameNo) (hused : f ∈ usedFrames p)
    (hf : f.toNat < 2 ^ 19) :
    (Pmm.freeBlock p (frameAddr f)).nframes = p.nframes ∧
      usedFrames (Pmm.freeBlock p (frameAddr f)) = usedFrames p \ {f} ∧
      (Pmm.freeBlock p (frameAddr f)).usedBlocks = p.usedBlocks - 1 := by
  obtain ⟨hclears, hn, hcount⟩ := Pmm.freeBlock_spec p (frameAddr f) f.toNat (frameAddr_toNat f)
      hf hused
  refine ⟨hn, ?_, hcount⟩
  ext g
  simp only [usedFrames, Set.mem_ofPred_eq, Set.mem_sdiff, Set.mem_singleton_iff,
      hclears.used_after,
    Bool.and_eq_true, decide_eq_true_eq, Finset.mem_Ico]
  rw [BitVec.toNat_eq]
  constructor
  · rintro ⟨h, hne⟩
    exact ⟨h, by omega⟩
  · rintro ⟨h, hne⟩
    exact ⟨h, by omega⟩

def pmm : Allocator Pmm.State := ⟨Pmm.allocateBlock, Pmm.freeBlock⟩

@[simp] theorem pmm_allocateBlock : pmm.allocateBlock = Pmm.allocateBlock := rfl

def bitmap : LawfulAllocator Pmm.State where
  allocateBlock := Pmm.allocateBlock
  freeBlock := Pmm.freeBlock
  valid := Fits
  used := usedFrames
  allocate_spec p hp := by
    refine meets_mono (allocateBlock_meets p hp.findsLow) ?_
    rintro r ⟨f, haddr, hf, hfree, hn, hused, -⟩
    exact ⟨f, haddr, hf, hfree, by rwa [Fits, hn], hused⟩
  free_spec p f hp hused hf := by
    obtain ⟨hn, hset, -⟩ := freeBlock_meets p f hused hf
    exact ⟨by rwa [Fits, hn], hset⟩

instance : Finite FrameNo := Finite.of_injective BitVec.toFin fun _ _ => BitVec.eq_of_toFin_eq

noncomputable def drift (p : Pmm.State) : BitVec 64 :=
  p.usedBlocks - BitVec.ofNat 64 (usedFrames p).ncard

def lowPmm : Allocator Pmm.State where
  allocateBlock p :=
    if (Pmm.scanFrame p).all (· < 2 ^ 19) then Pmm.allocateBlock p else .error .outOfMemory
  freeBlock := Pmm.freeBlock

theorem findsLow_iff (p : Pmm.State) :
    (Pmm.scanFrame p).all (· < 2 ^ 19) = true ↔ FindsLow p := by
  rw [FindsLow, Option.all_eq_true]
  simp only [decide_eq_true_eq]

noncomputable def watched (d : BitVec 64) : LawfulAllocator Pmm.State where
  toAllocator := lowPmm
  valid p := drift p = d
  used := usedFrames
  allocate_spec p hp := by
    change Meets Oom (if _ then _ else _) _
    split_ifs with hlow
    · refine meets_mono (allocateBlock_meets p ((findsLow_iff p).mp hlow)) ?_
      rintro r ⟨f, haddr, hf, hfree, -, hused, hcount⟩
      refine ⟨f, haddr, hf, hfree, ?_, hused⟩
      unfold drift at hp ⊢
      rw [hused, Set.ncard_insert_of_notMem hfree, hcount, ← hp, BitVec.ofNat_add]
      bv_omega
    · exact rfl
  free_spec p f hp hused hf := by
    obtain ⟨-, hset, hcount⟩ := freeBlock_meets p f hused hf
    refine ⟨?_, hset⟩
    have hcard := Set.ncard_sdiff_singleton_add_one hused
    change drift (Pmm.freeBlock p (frameAddr f)) = d
    unfold drift at hp ⊢
    rw [hset, hcount, ← hp, ← hcard, BitVec.ofNat_add]
    bv_omega

section Supply

variable {p : Pmm.State} {f : ℕ}

def lowFree (p : Pmm.State) : Finset ℕ :=
  (Finset.range (32 * Pmm.indexBit p.nframes.toNat)).filter fun f =>
    f < 2 ^ 19 ∧ FrameSearch.accepts p f

/-- How many blocks the guard of the allocator leaves. -/
def room (p : Pmm.State) : ℕ := (p.maxBlocks - p.usedBlocks).toNat

/-- `p'` is `p` without the frame below 2 GiB that was found first. -/
structure TookLow (p : Pmm.State) (f : ℕ) (p' : Pmm.State) : Prop where
  found : f ∈ lowFree p
  lowFree : lowFree p' = (lowFree p).erase f
  room : room p = room p' + 1
  nframes : p'.nframes = p.nframes
  high : ∀ g, 2 ^ 19 ≤ g → (FrameSearch.accepts p' g ↔ FrameSearch.accepts p g)

theorem tookLow (hf : f ∈ lowFree p) (hroom : p.maxBlocks - p.usedBlocks ≠ 0) :
    TookLow p f { Pmm.setFrame p (BitVec.ofNat 32 f) with usedBlocks := p.usedBlocks + 1 } := by
  have hlow := (Finset.mem_filter.mp hf).2.1
  have hother : ∀ g, g ≠ f → (FrameSearch.accepts { Pmm.setFrame p (BitVec.ofNat 32 f) with
      usedBlocks := p.usedBlocks + 1 } g ↔ FrameSearch.accepts p g) :=
    fun g hne => FrameSearch.accepts_setFrame (by omega) hne
  have hself : ¬ FrameSearch.accepts { Pmm.setFrame p (BitVec.ofNat 32 f) with
      usedBlocks := p.usedBlocks + 1 } f := by
    refine FrameSearch.not_accepts_of_used ?_
    refine (Pmm.used_setFrame p f f (by omega)).trans ?_
    simp
  refine ⟨hf, ?_, ?_, rfl, fun g hg => hother g (by omega)⟩
  · ext g
    rw [Finset.mem_erase, lowFree, lowFree, Finset.mem_filter, Finset.mem_filter]
    by_cases hg : g = f
    · subst hg
      exact ⟨fun h => absurd h.2.2 hself, fun h => absurd rfl h.1⟩
    · simp only [hg, ne_eq, not_false_eq_true, true_and, hother g hg]
      rfl
  · change (p.maxBlocks - p.usedBlocks).toNat = (p.maxBlocks - (p.usedBlocks + 1)).toNat + 1
    bv_omega

theorem lowFree_of_none (hscan : Pmm.scanFrame p = none) : lowFree p = ∅ := by
  refine Finset.filter_eq_empty_iff.mpr fun g hg haccepts => ?_
  exact (FrameSearch.scanFrame_first p).2 hscan g (Finset.mem_range.mp hg) haccepts.2

theorem lowFree_of_high (hscan : Pmm.scanFrame p = some f) (hhigh : 2 ^ 19 ≤ f) :
    lowFree p = ∅ := by
  refine Finset.filter_eq_empty_iff.mpr fun g _ haccepts => ?_
  exact ((FrameSearch.scanFrame_first p).1 f hscan).2.2 g (by omega) haccepts.2

theorem allocateBlock_of_found (hroom : room p ≠ 0) (hscan : Pmm.scanFrame p = some f)
    (hnumber : BitVec.ofNat 32 f ≠ -enomem) :
    Pmm.allocateBlock p = .ok (Pmm.blockAddress (BitVec.ofNat 32 f),
      { Pmm.setFrame p (BitVec.ofNat 32 f) with usedBlocks := p.usedBlocks + 1 }) := by
  have hguard : ¬ p.maxBlocks - p.usedBlocks ≤ 0 := by
    unfold room at hroom
    bv_omega
  rw [Pmm.allocateBlock, if_neg hguard]
  simp only [Pmm.findFirstFrame, hscan, hnumber, if_false]

/-- What a call comes to, with and without the frames above 2 GiB: memory has run out, a frame below
is taken, or the first one found lies above. -/
theorem allocateBlock_cases (p : Pmm.State) :
    (Pmm.allocateBlock p = .error .outOfMemory ∧ lowPmm.allocateBlock p = .error .outOfMemory ∧
      (room p = 0 ∨ Pmm.scanFrame p = none)) ∨
    (∃ f r, Pmm.allocateBlock p = .ok r ∧ lowPmm.allocateBlock p = .ok r ∧ TookLow p f r.2) ∨
    (lowPmm.allocateBlock p = .error .outOfMemory ∧ room p ≠ 0 ∧
      ∃ f, Pmm.scanFrame p = some f ∧ 2 ^ 19 ≤ f) := by
  have hlow : lowPmm.allocateBlock p =
      if (Pmm.scanFrame p).all (· < 2 ^ 19) then Pmm.allocateBlock p
      else .error .outOfMemory := rfl
  by_cases hroom : p.maxBlocks - p.usedBlocks = 0
  · have hnone : Pmm.allocateBlock p = .error .outOfMemory := by
      rw [Pmm.allocateBlock, hroom]
      rfl
    refine Or.inl ⟨hnone, by rw [hlow, hnone, ite_self], Or.inl ?_⟩
    rw [room, hroom]
    rfl
  have hroom' : room p ≠ 0 := by
    unfold room
    bv_omega
  cases hscan : Pmm.scanFrame p with
  | none =>
    have hnone : Pmm.allocateBlock p = .error .outOfMemory := by
      simp [Pmm.allocateBlock, Pmm.findFirstFrame, hscan]
    exact Or.inl ⟨hnone, by rw [hlow, hnone, ite_self], Or.inr rfl⟩
  | some f =>
    rw [hscan, Option.all_some] at hlow
    by_cases hf : f < 2 ^ 19
    · obtain ⟨hrange, haccepts, -⟩ := (FrameSearch.scanFrame_first p).1 f hscan
      have hmem : f ∈ lowFree p :=
        Finset.mem_filter.mpr ⟨Finset.mem_range.mpr hrange, hf, haccepts⟩
      have hnumber : BitVec.ofNat 32 f ≠ -enomem := by
        rw [Ne, FrameSearch.ofNat_eq_enomem_iff]
        omega
      have hblock := allocateBlock_of_found hroom' hscan hnumber
      rw [if_pos (decide_eq_true hf), hblock] at hlow
      exact Or.inr (Or.inl ⟨f, _, hblock, hlow, tookLow hmem hroom⟩)
    · rw [if_neg (by simpa using hf)] at hlow
      exact Or.inr (Or.inr ⟨hlow, hroom', f, rfl, by omega⟩)

/-- On a machine of at most 4 GiB a block above 2 GiB has an address outside the physical map. -/
theorem allocateBlock_high (hroom : room p ≠ 0) (hscan : Pmm.scanFrame p = some f)
    (hhigh : 2 ^ 19 ≤ f) (hsmall : p.nframes.toNat ≤ 2 ^ 20) :
    ∃ r, Pmm.allocateBlock p = .ok r ∧ physFrame (memRemapPhys r.1) = .error .pageFault := by
  have hf := (Pmm.scanFrame_eq_some p f hscan).1
  have hnumber : BitVec.ofNat 32 f ≠ -enomem := by
    rw [Ne, FrameSearch.ofNat_eq_enomem_iff]
    omega
  refine ⟨_, allocateBlock_of_found hroom hscan hnumber, physFrame_of_msb _ ?_⟩
  rw [BitVec.msb_eq_true_iff_two_mul_ge, BitVec.toNat_mul, BitVec.toNat_ofNat, BitVec.toNat_ofNat,
    Pmm.blockSize]
  omega

end Supply

end ReduceOS.PmmAllocator
