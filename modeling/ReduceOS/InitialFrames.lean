import ReduceOS.FrameSearch
import ReduceOS.MemoryMarking

/-!
The frames after `pmm_init`. All of them should be in use until memory is declared available; the
fill sets four bits of each byte, and one byte for every eight frames.
-/
namespace ReduceOS.InitialFrames

open Machine Multiboot MemoryMap MemoryMarking Pmm Overlay

/-- All frames are in use and counted, and a frame that is free after regions have been declared
available or not is one of a region that was declared available. -/
structure AllUsed (s : State) : Prop where
  tests : ∀ f < s.nframes.toNat, testFrame s (BitVec.ofNat 32 f) ≠ 0
  counted : Counted s
  declared : ∀ regions : List Region, ∀ f < s.nframes.toNat,
    used (regions.foldl Region.apply s) f = false →
      ∃ r ∈ regions, r.mark = false ∧ r.covers f = true

section Layers

variable {α β : Type*} {covers : β → Bool} {value : β → α} {layers : List β} {under : α}

/-- What is seen is what is under the layers, or the value of one of them that covers the place. -/
theorem seen_eq_under_or (covers : β → Bool) (value : β → α) (layers : List β) (under : α) :
    seen covers value layers under = under ∨
      ∃ r ∈ layers, covers r = true ∧ value r = seen covers value layers under := by
  unfold seen
  cases htop : top covers layers with
  | none => exact Or.inl rfl
  | some r =>
    refine Or.inr ⟨r, ?_, List.find?_some htop, rfl⟩
    exact List.mem_reverse.mp (List.mem_of_find?_eq_some htop)

end Layers

variable {memsize : BitVec 64} {bitmap : ℤ → BitVec 64} {s : State}

/-- With all frames in use, their number is the counter's. -/
theorem counted_of_used (hinit : pmmInit memsize (some bitmap) = .returned s)
    (hused : ∀ f < s.nframes.toNat, used s f = true) : Counted s := by
  obtain ⟨hnframes, hcount⟩ := counts_of_init hinit
  have hall : usedSet s = Finset.range s.nframes.toNat :=
    Finset.filter_true_of_mem fun f hf => hused f (Finset.mem_range.mp hf)
  rw [Counted, hall, Finset.card_range, hcount, hnframes]

theorem declared_of_used (hused : ∀ f < s.nframes.toNat, used s f = true)
    (regions : List Region) {f : ℕ} (hf : f < s.nframes.toNat)
    (hfree : used (regions.foldl Region.apply s) f = false) :
    ∃ r ∈ regions, r.mark = false ∧ r.covers f = true := by
  rw [used_foldl, hused f hf] at hfree
  rcases seen_eq_under_or (Region.covers f) Region.mark regions true with
    hunder | ⟨r, hr, hcovers, hmark⟩
  · rw [hunder] at hfree
    contradiction
  · exact ⟨r, hr, hmark.trans hfree, hcovers⟩

/-- The fifth frame is free as soon as there is a byte to fill. -/
theorem fifth_frame_free (hinit : pmmInit memsize (some bitmap) = .returned s)
    (hfill : 8 ≤ s.nframes.toNat) : used s 4 = false := by
  have hbyte : 8 * (4 / 32) + 4 % 32 / 8 < (s.nframes / 8).toNat := by
    rw [BitVec.toNat_udiv]
    exact Nat.div_pos hfill (by decide)
  rw [used_init hinit, setAtFirst, if_pos hbyte]
  rfl

/-- With fewer than eight frames nothing is filled, and the bitmap stays what it was. -/
theorem used_unfilled (hinit : pmmInit memsize (some bitmap) = .returned s)
    (hnofill : s.nframes.toNat < 8) {f : ℕ} (hf : f < s.nframes.toNat) :
    used s f = (bitmap 0).getLsbD f := by
  have hzero : (s.nframes / 8).toNat = 0 := by
    rw [BitVec.toNat_udiv]
    exact Nat.div_eq_of_lt hnofill
  rw [used_init hinit, setAtFirst, if_neg (by omega), Nat.mod_eq_of_lt (by omega),
    Nat.div_eq_of_lt (by omega)]
  rfl

theorem allUsed_iff (hinit : pmmInit memsize (some bitmap) = .returned s) :
    AllUsed s ↔ s.nframes.toNat < 8 ∧ ∀ f < s.nframes.toNat, (bitmap 0).getLsbD f = true := by
  constructor
  · intro h
    have hsmall : s.nframes.toNat < 8 := by
      by_contra hlarge
      have hfree := fifth_frame_free hinit (by omega)
      exact h.tests 4 (by omega) ((FrameSearch.testFrame_eq_zero_iff (by decide)).mpr hfree)
    refine ⟨hsmall, fun f hf => ?_⟩
    rw [← used_unfilled hinit hsmall hf]
    by_contra hfree
    exact h.tests f hf ((FrameSearch.testFrame_eq_zero_iff (by omega)).mpr
      (Bool.eq_false_iff.mpr hfree))
  · rintro ⟨hsmall, hbits⟩
    have hused : ∀ f < s.nframes.toNat, used s f = true := fun f hf => by
      rw [used_unfilled hinit hsmall hf]
      exact hbits f hf
    refine ⟨fun f hf htest => ?_, counted_of_used hinit hused,
      fun regions f hf hfree => declared_of_used hused regions hf hfree⟩
    have hfree := (FrameSearch.testFrame_eq_zero_iff (by omega)).mp htest
    rw [hused f hf] at hfree
    contradiction

/-- All frames are in use after `pmm_init` if and only if there are fewer than eight of them and
the bitmap had their bits set before. -/
theorem initial_frames_used_iff (hsize : 4096 ≤ memsize.toNat) :
    (∃ s, pmmInit memsize (some bitmap) = .returned s ∧ AllUsed s) ↔
      memsize.toNat < 8 * 4096 ∧ ∀ f < memsize.toNat / 4096, (bitmap 0).getLsbD f = true := by
  have hne : memsize ≠ 0 := by
    rintro rfl
    exact absurd hsize (by decide)
  obtain ⟨s, hinit⟩ : ∃ s, pmmInit memsize (some bitmap) = .returned s := by
    simp only [pmmInit, if_neg hne, Ending.returned.injEq, exists_eq']
  have hnframes : s.nframes.toNat = memsize.toNat / 4096 := by
    rw [(counts_of_init hinit).1, frameCount, BitVec.toNat_udiv]
    rfl
  have hcount : s.nframes.toNat < 8 ↔ memsize.toNat < 8 * 4096 := by
    rw [hnframes]
    omega
  rw [← hcount, ← hnframes, ← allUsed_iff hinit, hinit]
  simp only [Ending.returned.injEq, exists_eq_left']

/-- Seven frames, whose bits were set before. -/
theorem initial_frames_used_seven :
    ∃ s, pmmInit 0x7000 (some fun _ => 0x7F) = .returned s ∧ AllUsed s := by
  exact (initial_frames_used_iff (by decide)).mpr ⟨by decide, by decide⟩

/-- Sixty-four frames over memory that is zero: the fifth is free, and when one page at 0x30000
is declared available, the fifth frame is allocated. -/
theorem undeclared_frame_allocated :
    ∃ s, pmmInit 0x40000 (some fun _ => 0) = .returned s ∧ ¬ AllUsed s ∧
      (allocateBlock (initializeRegion s 0x30000 0x1000)).toOption.map (·.1) = some 0x4000 := by
  refine ⟨_, rfl, fun h => ?_, by decide +kernel⟩
  exact h.tests 4 (by decide) (by decide +kernel)

end ReduceOS.InitialFrames
