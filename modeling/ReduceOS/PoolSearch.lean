import ReduceOS.ChunkPool
import ReduceOS.FrameSearch

/-!
The searches of a chunk pool with the widths of their counters, and what becomes of a request
when they find nothing. They are those of the physical memory manager on another bitmap, which is
read here as one of that kind. A number bounds the rounds of each loop.
-/
namespace ReduceOS.PoolSearch

open Machine ChunkPool
open Pmm (indexBit frameMask wordOf bitOf)

section Source

variable (p : Pool)

/-- The loop over the bits of a word. `enough` is what is asked of the chunks from a free one on. -/
def bitLoop (enough : CInt → Option Bool) (i : BitVec 32) : List ℕ → Option (Option (BitVec 32))
  | [] => some none
  | bit :: bits =>
    if p.bitmap i.toNat &&& 1#32 <<< bit = 0 then do
      if ← enough (i * 32 + BitVec.ofNat 32 bit) then
        some (some (i * 4 * 8 + BitVec.ofNat 32 bit))
      else bitLoop enough i bits
    else bitLoop enough i bits

def wordLoop (enough : CInt → Option Bool) : ℕ → BitVec 32 → Option (BitVec 32)
  | 0, _ => none
  | k + 1, i =>
    if i.toNat < indexBit p.chunks then
      if p.bitmap i.toNat = 0xFFFFFFFF#32 then wordLoop enough k (i + 1)
      else do
        match ← bitLoop p enough i (List.range 32) with
        | some frame => some frame
        | none => wordLoop enough k (i + 1)
    else some (-enomem)

def findFirstFrame (k : ℕ) : Option (BitVec 32) := wordLoop p (fun _ => some true) k 0

def checkLoop (n : BitVec 64) (start : CInt) : ℕ → BitVec 32 → BitVec 32 → Option Bool
  | 0, _, _ => none
  | k + 1, check, freeBits =>
    if check.toNat < n.toNat then
      let freeBits := if testFrame p (start + check) = 0 then freeBits + 1 else freeBits
      if freeBits.toNat = n.toNat then some true else checkLoop n start k (check + 1) freeBits
    else some false

def findFirstFrames (n : BitVec 64) (k : ℕ) : Option CInt :=
  if n = 0 then some 0
  else if n = 1 then findFirstFrame p k
  else wordLoop p (fun start => checkLoop p n start k 0 0) k 0

def allocateChunk (k : ℕ) : Option (Addr × Pool) :=
  if p.allocated - p.used < p.chunkSize then some (null, p)
  else do
    let frame ← findFirstFrame p k
    if frame = -enomem then some (null, p)
    else some (chunkAddress p frame, { setFrame p frame with used := p.used + p.chunkSize })

/-- `pool_allocateChunks`. More chunks than 32 bits count are never found, so that the loop that
marks them has no more than these. -/
def allocateChunks (chunks : BitVec 64) (k : ℕ) : Option (Addr × Pool) :=
  if chunks = 0 then some (null, p)
  else if chunks = 1 then allocateChunk p k
  else if p.allocated - p.used < p.chunkSize * chunks then some (null, p)
  else do
    let frame ← findFirstFrames p chunks k
    if frame = -enomem then some (null, p)
    else some (chunkAddress p frame,
      { setFrames p frame chunks.toNat with used := p.used + p.chunkSize * chunks })

end Source

def frames (p : Pool) : Pmm.State :=
  ⟨fun i => (p.bitmap i).setWidth 64, p.allocated / p.chunkSize, 0, 0⟩

section Frames

variable {p : Pool} {enough : CInt → Option Bool} {n : BitVec 64} {r : BitVec 32}

/-- A mask of the manager takes no more out of such a word than the mask of the pool. -/
theorem setWidth_and_frameMask (w : BitVec 32) (bit : ℕ) :
    w.setWidth 64 &&& frameMask bit = (w &&& 1#32 <<< bit).setWidth 64 := by
  apply BitVec.eq_of_getLsbD_eq
  intro j hj
  unfold frameMask
  rw [BitVec.getLsbD_and, BitVec.getLsbD_setWidth, BitVec.getLsbD_setWidth,
    BitVec.getLsbD_and, BitVec.getLsbD_signExtend]
  by_cases hlow : j < 32
  · simp [hj, hlow]
  · have hclear : w.getLsbD j = false := BitVec.getLsbD_of_ge w j (by omega)
    simp [hclear]

theorem setWidth_eq_zero_iff (w : BitVec 32) : w.setWidth 64 = 0 ↔ w = 0 := by
  rw [← BitVec.toNat_inj, ← BitVec.toNat_inj, BitVec.toNat_setWidth]
  have hlt := w.isLt
  rw [Nat.mod_eq_of_lt (by omega)]
  rfl

theorem testFrame_frames (frame : CInt) : Pmm.testFrame (frames p) frame = testFrame p frame := by
  unfold Pmm.testFrame testFrame
  rw [show (frames p).frames (wordOf frame) = (p.bitmap (wordOf frame)).setWidth 64 from rfl,
    setWidth_and_frameMask]
  simp

theorem used_frames (f : ℕ) : Pmm.used (frames p) f = marked p f := by
  unfold Pmm.used marked Bitmap.test frames
  rw [BitVec.getLsbD_setWidth]
  have hbit : f % 32 < 64 := by omega
  simp [hbit]

theorem bitLoop_frames (i : BitVec 32) (bits : List ℕ) :
    bitLoop p enough i bits = FrameSearch.bitLoop (frames p) enough i bits := by
  induction bits with
  | nil => rfl
  | cons bit bits ih =>
    have hword : (frames p).frames (i.toNat : ℕ) &&& frameMask bit = 0 ↔
        p.bitmap i.toNat &&& 1#32 <<< bit = 0 := by
      rw [show (frames p).frames (i.toNat : ℕ) = (p.bitmap i.toNat).setWidth 64 from rfl,
        setWidth_and_frameMask, setWidth_eq_zero_iff]
    rw [bitLoop, FrameSearch.bitLoop, ih]
    exact if_congr hword.symm rfl rfl

theorem wordLoop_frames (k : ℕ) (i : BitVec 32) :
    wordLoop p enough k i = FrameSearch.wordLoop (frames p) enough k i := by
  induction k generalizing i with
  | zero => rfl
  | succ k ih =>
    have hfull : (frames p).frames (i.toNat : ℕ) = 0xFFFFFFFF#64 ↔
        p.bitmap i.toNat = 0xFFFFFFFF#32 := by
      rw [show (frames p).frames (i.toNat : ℕ) = (p.bitmap i.toNat).setWidth 64 from rfl,
        ← BitVec.toNat_inj, ← BitVec.toNat_inj, BitVec.toNat_setWidth]
      have hlt := (p.bitmap i.toNat).isLt
      rw [Nat.mod_eq_of_lt (by omega)]
      rfl
    rw [wordLoop, FrameSearch.wordLoop, ih, bitLoop_frames]
    exact if_congr Iff.rfl (if_congr hfull.symm rfl rfl) rfl

theorem checkLoop_frames (start : CInt) (k : ℕ) (check freeBits : BitVec 32) :
    checkLoop p n start k check freeBits =
      FrameSearch.checkLoop (frames p) n start k check freeBits := by
  induction k generalizing check freeBits with
  | zero => rfl
  | succ k ih =>
    rw [checkLoop, FrameSearch.checkLoop, testFrame_frames]
    simp only [ih]

theorem findFirstFrames_frames (k : ℕ) :
    findFirstFrames p n k = FrameSearch.findFirstFrames (frames p) n k := by
  unfold findFirstFrames FrameSearch.findFirstFrames findFirstFrame FrameSearch.findFirstFrame
  simp only [wordLoop_frames, checkLoop_frames]

end Frames

/-- The search for `n` chunks does not go on behind this one: it is free, and the run from it is
taken for a free one, or is never counted to its end. -/
def Starts (p : Pool) (n : BitVec 64) (f : ℕ) : Prop :=
  marked p f = false ∧ (n = 1 ∨ 2 ^ 32 ≤ n.toNat ∨
    ∀ c < n.toNat, testFrame p (BitVec.ofNat 32 f + BitVec.ofNat 32 c) = 0)

def HasRun (p : Pool) (n : ℕ) : Prop := ∃ f, f + n ≤ p.chunks ∧ RunAt p n f

/-- A request is not turned away: there is space by the books, the whole words of the bitmap have a
chunk at which the search stops, or are too many for its counter, and the number of the chunk that
is found is not the one that stands for an error, nor its address `NULL`. -/
def Served (p : Pool) (n : BitVec 64) : Prop :=
  p.chunkSize * n ≤ p.allocated - p.used ∧
    (2 ^ 32 ≤ indexBit p.chunks ∨ ∃ f < 32 * indexBit p.chunks, Starts p n f) ∧
    ∀ f < 32 * indexBit p.chunks, f < 2 ^ 37 → n.toNat < 2 ^ 32 → Starts p n f →
      (∀ g < f, ¬ Starts p n g) →
      f % 2 ^ 32 ≠ 2 ^ 32 - 12 ∧ chunkAddress p (BitVec.ofNat 32 f) ≠ null

def NullOnlyIfFull (p : Pool) (n : BitVec 64) : Prop :=
  ∀ k p', allocateChunks p n k = some (null, p') → ¬ HasRun p n.toNat

section Requests

variable {p : Pool} {n : BitVec 64} {f : ℕ}

theorem accepts_frames (f : ℕ) : FrameSearch.accepts (frames p) f ↔ marked p f = false := by
  rw [FrameSearch.accepts_iff, used_frames]
  refine and_iff_left fun _ => ?_
  rw [show (frames p).frames (f / 32 : ℕ) = (p.bitmap (f / 32 : ℕ)).setWidth 64 from rfl,
    BitVec.toNat_setWidth]
  have hlt := (p.bitmap (f / 32 : ℕ)).isLt
  omega

theorem answer_cases (n : BitVec 64) (f : ℕ) :
    (FrameSearch.answer (frames p) n (BitVec.ofNat 32 f) = some true ∧ n.toNat < 2 ^ 32 ∧
        (marked p f = false → Starts p n f)) ∨
      (FrameSearch.answer (frames p) n (BitVec.ofNat 32 f) = none ∧ 2 ^ 32 ≤ n.toNat ∧
        (marked p f = false → Starts p n f)) ∨
      (FrameSearch.answer (frames p) n (BitVec.ofNat 32 f) = some false ∧ ¬ Starts p n f) := by
  unfold FrameSearch.answer
  simp only [testFrame_frames]
  by_cases hone : n = 1
  · subst hone
    exact Or.inl ⟨rfl, by decide, fun hfree => ⟨hfree, Or.inl rfl⟩⟩
  · rw [if_neg hone]
    by_cases hsmall : n.toNat < 2 ^ 32
    · rw [if_pos hsmall]
      by_cases hrun : ∀ c < n.toNat, testFrame p (BitVec.ofNat 32 f + BitVec.ofNat 32 c) = 0
      · exact Or.inl ⟨by rw [decide_eq_true hrun], hsmall,
          fun hfree => ⟨hfree, Or.inr (Or.inr hrun)⟩⟩
      · refine Or.inr (Or.inr ⟨by rw [decide_eq_false hrun], ?_⟩)
        rintro ⟨-, h | h | h⟩
        · exact hone h
        · omega
        · exact hrun h
    · rw [if_neg hsmall]
      exact Or.inr (Or.inl ⟨rfl, Nat.not_lt.mp hsmall, fun hfree =>
        ⟨hfree, Or.inr (Or.inl (Nat.not_lt.mp hsmall))⟩⟩)

theorem passes_iff (f : ℕ) :
    FrameSearch.Passes (frames p) (FrameSearch.answer (frames p) n) f ↔ ¬ Starts p n f := by
  unfold FrameSearch.Passes
  rw [accepts_frames]
  rcases answer_cases (p := p) n f with ⟨hanswer, -, hfree⟩ | ⟨hanswer, -, hfree⟩ | ⟨hanswer, hnot⟩
  · rw [hanswer]
    exact ⟨fun h hstart => absurd (h hstart.1) (by simp), fun h hmark => absurd (hfree hmark) h⟩
  · rw [hanswer]
    exact ⟨fun h hstart => absurd (h hstart.1) (by simp), fun h hmark => absurd (hfree hmark) h⟩
  · exact iff_of_true (fun _ => hanswer) hnot

theorem stops_iff (f : ℕ) :
    FrameSearch.Stops (frames p) (FrameSearch.answer (frames p) n) f ↔
      Starts p n f ∧ n.toNat < 2 ^ 32 := by
  unfold FrameSearch.Stops
  rw [accepts_frames]
  rcases answer_cases (p := p) n f with ⟨hanswer, hsmall, hfree⟩ | ⟨hanswer, hwide, -⟩ |
    ⟨hanswer, hnot⟩
  · exact ⟨fun h => ⟨hfree h.1, hsmall⟩, fun h => ⟨h.1.1, hanswer⟩⟩
  · rw [hanswer]
    exact iff_of_false (by simp) fun h => absurd h.2 (Nat.not_lt.mpr hwide)
  · rw [hanswer]
    exact iff_of_false (by simp) fun h => hnot h.1

theorem allocateChunks_eq (hn : n ≠ 0) (k : ℕ) : ∃ taken : CInt → Pool,
    allocateChunks p n k =
      if p.allocated - p.used < p.chunkSize * n then some (null, p)
      else (findFirstFrames p n k).bind fun frame =>
        if frame = -enomem then some (null, p) else some (chunkAddress p frame, taken frame) := by
  unfold allocateChunks
  rw [if_neg hn]
  by_cases hone : n = 1
  · subst hone
    refine ⟨fun frame => { setFrame p frame with used := p.used + p.chunkSize }, ?_⟩
    have hone : p.chunkSize * 1 = p.chunkSize := BitVec.mul_one _
    rw [if_pos rfl, hone]
    rfl
  · refine ⟨fun frame =>
      { setFrames p frame n.toNat with used := p.used + p.chunkSize * n }, ?_⟩
    rw [if_neg hone]
    rfl

/-- When `NULL` is returned. -/
theorem returns_null_iff (hn : n ≠ 0) :
    (∃ k p', allocateChunks p n k = some (null, p')) ↔
      p.allocated - p.used < p.chunkSize * n ∨ ∃ frame, (∃ k, findFirstFrames p n k = some frame) ∧
        (frame = -enomem ∨ chunkAddress p frame = null) := by
  constructor
  · rintro ⟨k, p', hrun⟩
    obtain ⟨taken, heq⟩ := allocateChunks_eq (p := p) hn k
    rw [heq] at hrun
    split_ifs at hrun with hspace
    · exact Or.inl hspace
    · obtain ⟨frame, hframe, hret⟩ := Option.bind_eq_some_iff.mp hrun
      refine Or.inr ⟨frame, ⟨k, hframe⟩, ?_⟩
      split_ifs at hret with hfound
      · exact Or.inl hfound
      · exact Or.inr (Prod.mk.inj (Option.some.inj hret)).1
  · rintro (hspace | ⟨frame, ⟨k, hframe⟩, hnull⟩)
    · obtain ⟨taken, heq⟩ := allocateChunks_eq (p := p) hn 0
      exact ⟨0, p, by rw [heq, if_pos hspace]⟩
    · obtain ⟨taken, heq⟩ := allocateChunks_eq (p := p) hn k
      rw [hframe, Option.bind_some] at heq
      refine ⟨k, if p.allocated - p.used < p.chunkSize * n then p
        else if frame = -enomem then p else taken frame, ?_⟩
      rw [heq]
      split_ifs with hspace hfound
      · rfl
      · rfl
      · rw [hnull.resolve_left hfound]

theorem served_iff (hn : n ≠ 0) :
    Served p n ↔ ¬ ∃ k p', allocateChunks p n k = some (null, p') := by
  have hchunks : (frames p).nframes.toNat = p.chunks := rfl
  rw [returns_null_iff hn, not_or, BitVec.not_lt, Served]
  refine and_congr_right fun _ => ?_
  simp only [findFirstFrames_frames, FrameSearch.findFirstFrames_iff hn]
  unfold FrameSearch.Outcome FrameSearch.Exhausted FrameSearch.First
  simp only [passes_iff, stops_iff, hchunks]
  constructor
  · rintro ⟨hsome, hfirst⟩ ⟨frame, ⟨g, ⟨hg, hwide, ⟨hstart, hsmall⟩, hbefore⟩, rfl⟩ | ⟨hall, rfl⟩,
      hnull⟩
    · obtain ⟨hnumber, haddress⟩ := hfirst g hg hwide hsmall hstart hbefore
      exact hnull.elim (fun h => hnumber (FrameSearch.ofNat_eq_enomem_iff.mp h)) haddress
    · rcases hsome with hmany | ⟨f, hf, hstart⟩
      · omega
      · exact hall.2 f hf hstart
  · intro hnot
    refine ⟨?_, fun f hf hwide hsmall hstart hbefore => ⟨fun hnumber => ?_, fun hnull => ?_⟩⟩
    · by_contra hnone
      rw [not_or, not_exists] at hnone
      exact hnot ⟨-enomem, Or.inr ⟨⟨by omega, fun g hg hstart => hnone.2 g ⟨hg, hstart⟩⟩, rfl⟩,
        Or.inl rfl⟩
    · exact hnot ⟨_, Or.inl ⟨f, ⟨hf, hwide, ⟨hstart, hsmall⟩, hbefore⟩, rfl⟩,
        Or.inl (FrameSearch.ofNat_eq_enomem_iff.mpr hnumber)⟩
    · exact hnot ⟨_, Or.inl ⟨f, ⟨hf, hwide, ⟨hstart, hsmall⟩, hbefore⟩, rfl⟩, Or.inr hnull⟩

/-- For every pool, whatever its number of chunks, and every number of them that is asked for. -/
theorem nullOnlyIfFull_iff (hn : n ≠ 0) :
    NullOnlyIfFull p n ↔ ¬ HasRun p n.toNat ∨ Served p n := by
  rw [served_iff hn]
  unfold NullOnlyIfFull
  constructor
  · intro h
    by_cases hnull : ∃ k p', allocateChunks p n k = some (null, p')
    · obtain ⟨k, p', hrun⟩ := hnull
      exact Or.inl (h k p' hrun)
    · exact Or.inr hnull
  · rintro (hnone | hserved) k p' hrun
    · exact hnone
    · exact absurd ⟨k, p', hrun⟩ hserved

end Requests

section Agreement

variable {p : Pool} {n : BitVec 64} {enough : ℕ → Bool}

/-- What the scan of the pool's own model does not accept is no start. -/
theorem not_starts_of_not_accepted {g : ℕ}
    (hiff : ∀ f, Starts p n f ↔ marked p f = false ∧ enough f = true)
    (h : decide (p.bitmap (g / 32 : ℕ) = 0xFFFFFFFF) = false →
      (decide (p.bitmap (g / 32 : ℕ) &&& 1#32 <<< (g % 32) = 0) &&
        enough (g / 32 * 32 + g % 32)) = false) : ¬ Starts p n g := by
  intro hstart
  obtain ⟨hfree, henough⟩ := (hiff g).mp hstart
  have hbit : g % 32 < 32 := Nat.mod_lt g (by decide)
  have hback : g / 32 * 32 + g % 32 = g := Nat.div_add_mod' g 32
  unfold marked Bitmap.test at hfree
  have hfull : p.bitmap (g / 32 : ℕ) ≠ 0xFFFFFFFF := by
    intro hfull
    have hall : ∀ bit < 32, (0xFFFFFFFF : BitVec 32).getLsbD bit = true := by decide
    rw [hfull, hall _ hbit] at hfree
    contradiction
  have hnot := h (decide_eq_false hfull)
  rw [hback, henough, Bool.and_true, decide_eq_false_iff_not,
    Bitmap.and_mask_eq_zero_iff hbit] at hnot
  exact hnot hfree

theorem findFrame_outcome (hwords : indexBit p.chunks < 2 ^ 32) (hn : n.toNat < 2 ^ 32)
    (hiff : ∀ f, Starts p n f ↔ marked p f = false ∧ enough f = true) :
    FrameSearch.Outcome (frames p) (FrameSearch.answer (frames p) n) (findFrame p enough) := by
  unfold findFrame
  dsimp only
  cases hscan : Bitmap.scan 32 (p.chunks / 32) (fun i => decide (p.bitmap i = 0xFFFFFFFF))
    fun i bit => decide (p.bitmap i &&& 1#32 <<< bit = 0) && enough (i * 32 + bit) with
  | none =>
    refine Or.inr ⟨⟨hwords, fun g hg => (passes_iff g).mpr ?_⟩, rfl⟩
    have hword : g < 32 * (p.chunks / 32) := hg
    exact not_starts_of_not_accepted hiff
      (Bitmap.scan_eq_none hscan (g / 32) (g % 32) (by omega) (by omega))
  | some found =>
    obtain ⟨i, bit⟩ := found
    obtain ⟨hi, hbit, haccept, -, hbefore⟩ := Bitmap.scan_eq_some hscan
    have hnumber : i * 4 * 8 + bit = i * 32 + bit := by omega
    have hdiv : (i * 32 + bit) / 32 = i := by omega
    have hmod : (i * 32 + bit) % 32 = bit := by omega
    have hlt : i * 32 + bit < 32 * (p.chunks / 32) := by omega
    have hwords' : p.chunks / 32 < 2 ^ 32 := hwords
    rw [Bool.and_eq_true, decide_eq_true_eq, Bitmap.and_mask_eq_zero_iff hbit] at haccept
    have hstart : Starts p n (i * 32 + bit) := by
      rw [hiff, marked, Bitmap.test, hdiv, hmod]
      exact haccept
    refine Or.inl ⟨i * 32 + bit, ⟨hlt, by omega, (stops_iff _).mpr ⟨hstart, hn⟩, fun g hg => ?_⟩,
      congrArg (BitVec.ofNat 32) hnumber⟩
    exact (passes_iff g).mpr (not_starts_of_not_accepted hiff fun hfull =>
      hbefore (g / 32) (g % 32) (by omega) hfull (by omega))

/-- Where 32 bits count the words and the chunks, the pool's own model finds what the loops
find. -/
theorem findFirstFrames_eq (hwords : indexBit p.chunks < 2 ^ 32) (h0 : n ≠ 0)
    (hn : n.toNat < 2 ^ 32) :
    ∃ k, findFirstFrames p n k = some (if n = 1 then ChunkPool.findFirstFrame p
      else ChunkPool.findFirstFrames p n.toNat) := by
  simp only [findFirstFrames_frames, FrameSearch.findFirstFrames_iff h0]
  split_ifs with h1
  · refine findFrame_outcome hwords hn fun f => ?_
    simp [Starts, h1]
  · refine findFrame_outcome hwords hn fun f => and_congr_right fun _ => ?_
    have hpos : n.toNat ≠ 0 := fun h => h0 (BitVec.eq_of_toNat_eq h)
    have hne : List.range n.toNat ≠ [] := by simpa using hpos
    rw [Bitmap.countTo_eq_true_iff (by simp) hne]
    simp only [List.mem_range, decide_eq_true_eq]
    exact ⟨fun h => (h.resolve_left h1).resolve_left (Nat.not_le.mpr hn), fun h =>
        Or.inr (Or.inr h)⟩

/-- So does a request: it returns the same address. -/
theorem allocateChunks_address (hwords : indexBit p.chunks < 2 ^ 32) (hn : n.toNat < 2 ^ 32) :
    ∃ k p', allocateChunks p n k = some ((ChunkPool.allocateChunks p n).1, p') := by
  by_cases h0 : n = 0
  · exact ⟨0, p, by simp [allocateChunks, ChunkPool.allocateChunks, h0]⟩
  · obtain ⟨k, hfound⟩ := findFirstFrames_eq hwords h0 hn
    obtain ⟨taken, heq⟩ := allocateChunks_eq (p := p) h0 k
    rw [hfound, Option.bind_some] at heq
    unfold ChunkPool.allocateChunks ChunkPool.allocateChunk
    rw [if_neg h0]
    refine ⟨k, if p.allocated - p.used < p.chunkSize * n then p
      else if (if n = 1 then ChunkPool.findFirstFrame p else ChunkPool.findFirstFrames p n.toNat) =
        -enomem then p else taken (if n = 1 then ChunkPool.findFirstFrame p
          else ChunkPool.findFirstFrames p n.toNat), ?_⟩
    rw [heq]
    by_cases h1 : n = 1
    · subst h1
      have hone : p.chunkSize * 1 = p.chunkSize := BitVec.mul_one _
      simp only [if_true, hone]
      split_ifs <;> rfl
    · simp only [if_neg h1]
      split_ifs <;> rfl

end Agreement

section Pools

def newPool (size : BitVec 64) : Pool :=
  ⟨cleared (fun _ => 0) (size / 4096).toNat, 4096, 0x100000, size, 0, []⟩

theorem newPool_created (size : BitVec 64) (h : size % 4096 = 0) :
    poolCreate (fun _ => 0) 4096 size 0x100000 = .ok (newPool size) := by
  rw [poolCreate, if_neg (not_not.mpr h)]
  rfl

/-- In a pool of 64 chunks, the first two of them are found. -/
theorem nullOnlyIfFull_iff_new : NullOnlyIfFull (newPool 0x40000) 2 := by
  have hfree : Starts (newPool 0x40000) 2 0 :=
    ⟨by decide +kernel, Or.inr (Or.inr (by decide +kernel))⟩
  have haddress : ∀ f < 64, f % 2 ^ 32 ≠ 2 ^ 32 - 12 ∧
      chunkAddress (newPool 0x40000) (BitVec.ofNat 32 f) ≠ null := by decide +kernel
  refine (nullOnlyIfFull_iff (by decide)).mpr (Or.inr ⟨by decide, Or.inr ⟨0, by decide, hfree⟩, ?_⟩)
  exact fun f hf _ _ _ _ => haddress f hf

/-- A new pool of sixteen chunks has no whole word of 32, and gives none out. -/
theorem small_pool_gives_null :
    poolCreate (fun _ => 0) 4096 0x10000 0x100000 = .ok (newPool 0x10000) ∧
      HasRun (newPool 0x10000) 1 ∧
      allocateChunks (newPool 0x10000) 1 1 = some (null, newPool 0x10000) ∧
      ¬ NullOnlyIfFull (newPool 0x10000) 1 := by
  have hrun : HasRun (newPool 0x10000) 1 := by
    refine ⟨0, by decide, fun g _ hg => ?_⟩
    obtain rfl : g = 0 := by omega
    decide +kernel
  have hnull : allocateChunks (newPool 0x10000) 1 1 = some (null, newPool 0x10000) := rfl
  exact ⟨newPool_created 0x10000 (by decide), hrun, hnull, fun h => h 1 _ hnull hrun⟩

end Pools

end ReduceOS.PoolSearch
