import ReduceOS.FrameAddress
import ReduceOS.Page

/-!
The size of the array `mem_pageReferences` against the frames that index it. `mem_init` gives it
as many bytes as the bitmap of the frames has, which is one for every four frames.
-/
namespace ReduceOS.ReferenceBounds

open Machine Pmm FrameSearch FrameAddress

section Source

variable (memSize : BitVec 64)

/-- `frame_bytes`; the macro `PMM_INDEX_BIT` divides what stands before it by 32. -/
def frameBytes : BitVec 64 := Page.alignPage ((memSize >>> 12) * 8 / 32)

def refcountBytes : BitVec 64 :=
  if frameBytes memSize &&& 0xFFF ≠ 0 then Page.alignPage (frameBytes memSize)
  else frameBytes memSize

/-- The bytes that `mem_sbrk` adds to the heap: its argument is an `int`, and with a negative one
it frees. -/
def sbrkBytes (b : CInt) : ℕ := b.toInt.toNat

def arrayBytes : ℕ := sbrkBytes ((refcountBytes memSize).setWidth 32)

end Source

/-- A frame of the machine that the allocator hands out, alone or in a run, with the address that
its page is set to. -/
inductive HandsOut (s : State) : ℕ → Addr → Prop
  | block {k : ℕ} {a : Addr} {s' : State} {f : ℕ}
      (hcall : FrameAddress.allocateBlock s k = some (.ok (a, s')))
      (hfirst : First s (fun _ => some true) f) : HandsOut s f a
  | blocks {n : BitVec 64} {k : ℕ} {a : Addr} {s' : State} {f i : ℕ}
      (hcall : FrameAddress.allocateBlocks s n k = some (.ok (a, s')))
      (hfirst : First s (answer s n) f) (hi : i < n.toNat) (hin : f + i < s.nframes.toNat) :
      HandsOut s (f + i) (a + BitVec.ofNat 64 (4096 * i))

/-- The frames that are handed out, and the indices of the pages that are set to them, are below
the length of the array. -/
def Covered (memSize : BitVec 64) : Prop :=
  ∀ s f a e, s.nframes = memSize / BitVec.ofNat 64 blockSize → HandsOut s f a →
    f < arrayBytes memSize ∧ (Page.setFrame e a).address.toNat < arrayBytes memSize

section Sizes

variable {memSize : BitVec 64} {nframes : ℕ}

theorem refcountBytes_toNat (memSize : BitVec 64) :
    (refcountBytes memSize).toNat = 4096 * (memSize.toNat / 4096 / 16384 + 1) := by
  have hframe : (frameBytes memSize).toNat = 4096 * (memSize.toNat / 4096 / 16384 + 1) := by
    have hlt := memSize.isLt
    have hdiv : ((memSize >>> 12) * 8 / 32).toNat = memSize.toNat / 4096 * 8 / 32 := by
      simp only [BitVec.toNat_udiv, BitVec.toNat_mul, BitVec.toNat_ushiftRight,
        Nat.shiftRight_eq_div_pow]
      rw [show (8 : BitVec 64).toNat = 8 from rfl, show (32 : BitVec 64).toNat = 32 from rfl]
      omega
    rw [frameBytes, Page.alignPage, Page.toNat_and_not_fff, BitVec.toNat_add, hdiv]
    rw [show (0x1000#64).toNat = 4096 from rfl]
    omega
  have haligned : frameBytes memSize &&& 0xFFF = 0 := by
    apply BitVec.eq_of_toNat_eq
    rw [BitVec.toNat_and, hframe]
    change _ &&& (2 ^ 12 - 1) = 0
    rw [Nat.and_two_pow_sub_one_eq_mod]
    omega
  rw [refcountBytes, if_neg (not_not.mpr haligned), hframe]

theorem nframes_toNat (memSize : BitVec 64) :
    (memSize / BitVec.ofNat 64 blockSize).toNat = memSize.toNat / 4096 := by
  rw [BitVec.toNat_udiv]
  rfl

theorem arrayBytes_le (memSize : BitVec 64) :
    arrayBytes memSize ≤ 4096 * (memSize.toNat / 4096 / 16384 + 1) ∧
      arrayBytes memSize < 2 ^ 31 := by
  have hsize := refcountBytes_toNat memSize
  have hlt := ((refcountBytes memSize).setWidth 32).toInt_lt
  unfold arrayBytes sbrkBytes
  refine ⟨?_, by omega⟩
  rw [BitVec.toInt_eq_toNat_cond, BitVec.toNat_setWidth]
  split_ifs <;> omega

theorem arrayBytes_of_le (hsmall : memSize.toNat / 4096 ≤ 4096) : arrayBytes memSize = 4096 := by
  have hsize : refcountBytes memSize = 4096 := by
    apply BitVec.eq_of_toNat_eq
    rw [refcountBytes_toNat]
    change 4096 * (memSize.toNat / 4096 / 16384 + 1) = 4096
    omega
  rw [arrayBytes, hsize]
  rfl

end Sizes

section Handed

variable {s : State} {f : ℕ} {a : Addr}

def twoFree (nframes : BitVec 64) (f : ℕ) : State :=
  clearFrames ⟨fun _ => 0xFFFFFFFF, nframes, 0, nframes⟩ (BitVec.ofNat 32 f) 2

theorem clearFrames_toNat_lt (s : State) (hs : ∀ i, (s.frames i).toNat < 2 ^ 32) (frame : CInt)
    (n : ℕ) (i : ℤ) : ((clearFrames s frame n).frames i).toNat < 2 ^ 32 := by
  induction n with
  | zero => exact hs i
  | succ n ih =>
    rw [clearFrames_succ]
    unfold clearFrame State.setWord
    dsimp only
    by_cases hword : i = wordOf (frame + BitVec.ofNat 32 n)
    · subst hword
      rw [Function.update_self, BitVec.toNat_and]
      exact Nat.lt_of_le_of_lt Nat.and_le_left ih
    · rw [Function.update_of_ne hword]
      exact ih

theorem accepts_twoFree {nframes : BitVec 64} (hf : f + 2 ≤ 2 ^ 31) (g : ℕ) :
    (accepts (twoFree nframes f) g ↔ f ≤ g ∧ g < f + 2) ∧
      (used (twoFree nframes f) g = false ↔ f ≤ g ∧ g < f + 2) := by
  have hword : ∀ i, ((twoFree nframes f).frames i).toNat < 2 ^ 32 :=
    clearFrames_toNat_lt _ (fun _ => (by decide : (0xFFFFFFFF#64).toNat < 2 ^ 32)) _ _
  have hfull : used ⟨fun _ => 0xFFFFFFFF, nframes, 0, nframes⟩ g = true := by
    have hbits : ∀ bit < 32, (0xFFFFFFFF : BitVec 64).getLsbD bit = true := by decide
    exact hbits _ (Nat.mod_lt g (by decide))
  have hused : used (twoFree nframes f) g = false ↔ f ≤ g ∧ g < f + 2 := by
    rw [twoFree, used_clearFrames _ _ _ _ hf, hfull, Bool.true_and, decide_eq_false_iff_not,
      not_not, Finset.mem_Ico]
  refine ⟨?_, hused⟩
  rw [accepts_iff, hused, and_iff_left fun _ => hword _]

/-- A run of two can be handed out from any frame of a whole word on. -/
theorem handsOut_twoFree (nframes : BitVec 64) (hword : f < 32 * indexBit nframes.toNat)
    (hf : f + 2 ≤ 2 ^ 31) (hin : f + 1 < nframes.toNat) (hlarge : 2 < nframes.toNat) :
    (twoFree nframes f).nframes = nframes ∧
      ∃ a, HandsOut (twoFree nframes f) (f + 1) a := by
  have hnframes : (twoFree nframes f).nframes = nframes := clearFrames_nframes _ _ _
  have hfirst : First (twoFree nframes f) (answer (twoFree nframes f) 2) f := by
    refine ⟨by rwa [hnframes], by omega, ⟨?_, ?_⟩, fun h hh haccept => ?_⟩
    · exact (accepts_twoFree hf f).1.mpr ⟨Nat.le_refl f, by omega⟩
    · rw [answer_eq_true_iff (by decide) hf]
      exact congrArg some (decide_eq_true fun j hj =>
        (accepts_twoFree hf (f + j)).2.mpr ⟨by omega, Nat.add_lt_add_left hj f⟩)
    · have := (accepts_twoFree hf h).1.mp haccept
      omega
  obtain ⟨k, hk⟩ := (findFirstFrames_iff (by decide)).mpr (Or.inl ⟨f, hfirst, rfl⟩)
  have hall : nframes - 0 = nframes := BitVec.sub_zero nframes
  have hroom : ¬ nframes - 0 ≤ 2 := by
    rw [hall, BitVec.le_def]
    exact Nat.not_le.mpr hlarge
  have hreport : BitVec.ofNat 32 f ≠ -enomem := by
    rw [Ne, ofNat_eq_enomem_iff]
    omega
  have hcall := allocateBlocks_of_found (s := twoFree nframes f) (by decide) hroom hk hreport
  exact ⟨hnframes, _, .blocks hcall hfirst (i := 1) (by decide) (by rwa [hnframes])⟩

/-- Below 2 GiB a frame that is handed out is one of the machine, and is what its page is set
to. -/
theorem HandsOut.address (h : HandsOut s f a) (hsmall : s.nframes.toNat ≤ 2 ^ 19)
    (e : Page.Entry) :
    f < s.nframes.toNat ∧ (Page.setFrame e a).address.toNat = f := by
  have haddress : ∀ {f : ℕ} {a : Addr}, f < 2 ^ 19 → a.toNat = f * 4096 →
      (Page.setFrame e a).address.toNat = f := by
    intro f a hf ha
    change ((a >>> 12).setWidth 28).toNat = f
    rw [BitVec.toNat_setWidth, BitVec.toNat_ushiftRight, ha, Nat.shiftRight_eq_div_pow]
    omega
  cases h with
  | block hcall hfirst =>
    obtain ⟨g, hfirst', rfl⟩ := frame_of_allocateBlock hcall
    obtain rfl := hfirst.unique hfirst'
    have hlt := hfirst.used_eq_false.1
    exact ⟨hlt, haddress (by omega) (blockAddress_ofNat _ (by omega))⟩
  | @blocks n k a s' f i hcall hfirst hi hin =>
    obtain ⟨-, g, hfirst', rfl⟩ := frame_of_allocateBlocks hcall
    obtain rfl := hfirst.unique hfirst'
    refine ⟨hin, haddress (by omega) ?_⟩
    rw [BitVec.toNat_add, blockAddress_ofNat _ (by omega), BitVec.toNat_ofNat]
    omega

end Handed

/-- The array covers the frames that are handed out if and only if there are at most 4096 of
them, which is 16 MiB. -/
theorem covered_iff (memSize : BitVec 64) : Covered memSize ↔ memSize.toNat < 4097 * 4096 := by
  constructor
  · intro hcovered
    by_contra hlarge
    obtain ⟨hle, hint⟩ := arrayBytes_le memSize
    have hnframes := nframes_toNat memSize
    obtain ⟨hsame, a, hout⟩ := handsOut_twoFree (memSize / BitVec.ofNat 64 blockSize)
      (f := max (arrayBytes memSize) 1 - 1) (by unfold indexBit; omega) (by omega) (by omega)
      (by omega)
    have hlt := (hcovered _ _ a Page.Entry.zero hsame hout).1
    omega
  · intro hsmall s f a e hs hout
    have hnframes := nframes_toNat memSize
    rw [← hs] at hnframes
    obtain ⟨hlt, haddress⟩ := hout.address (by omega) e
    rw [haddress, arrayBytes_of_le (by omega)]
    omega

section Failing

def lowerUsed : State := ⟨fun i => if i < 384 then 0xFFFFFFFF#64 else 0, 32768, 12288, 32768⟩

theorem first_lowerUsed : First lowerUsed (fun _ => some true) 12288 := by
  refine ⟨by decide, by decide, ⟨by decide, rfl⟩, fun h hh haccept => ?_⟩
  have hlow : ((h / 32 : ℕ) : ℤ) < 384 := by omega
  refine absurd haccept (not_accepts_of_full ?_)
  simp only [lowerUsed, hlow, if_true]

/-- The array has 12288 bytes there, and the next frame that is handed out is frame 12288. -/
theorem frame_behind_array :
    arrayBytes 0x8000000 = 12288 ∧ HandsOut lowerUsed 12288 0x3000000 ∧ ¬ Covered 0x8000000 := by
  have hbytes : arrayBytes 0x8000000 = 12288 := by decide
  obtain ⟨k, hk⟩ := findFirstFrame_iff.mpr (Or.inl ⟨_, first_lowerUsed, rfl⟩)
  have hout : HandsOut lowerUsed 12288 0x3000000 :=
    .block (allocateBlock_of_found (by decide) hk (by decide)) first_lowerUsed
  refine ⟨hbytes, hout, fun hcovered => ?_⟩
  have hlt := (hcovered lowerUsed 12288 0x3000000 Page.Entry.zero (by decide) hout).1
  rw [hbytes] at hlt
  omega

end Failing

end ReduceOS.ReferenceBounds
