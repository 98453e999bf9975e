import ReduceOS.Bitmap
import ReduceOS.Pmm
import Mathlib.Data.List.Perm.Basic

/-!
The chunk pools of misc/pool.c: a bitmap of chunks like that of the physical memory
manager. Only whole words of 32 chunks are searched for the start of a run, but the run
itself is not held to the end of the pool. The bitmap has a byte for each chunk.
-/
namespace ReduceOS.ChunkPool

open Machine
open Pmm (wordOf bitOf wordOf_ofNat bitOf_ofNat)

/-- `pool_t`, and the bitmap words that were accessed so far. -/
structure Pool where
  bitmap : ℤ → BitVec 32
  chunkSize : BitVec 64
  startingAddr : Addr
  allocated : BitVec 64
  used : BitVec 64
  accessed : List ℤ

def Pool.chunks (p : Pool) : ℕ := (p.allocated / p.chunkSize).toNat

def InBitmap (bytes : ℕ) (i : ℤ) : Prop := 0 ≤ i ∧ 4 * i + 4 ≤ bytes

instance (bytes : ℕ) (i : ℤ) : Decidable (InBitmap bytes i) :=
  inferInstanceAs (Decidable (_ ∧ _))

section Source

def cleared (memory : ℤ → BitVec 32) (bytes : ℕ) (i : ℤ) : BitVec 32 :=
  if 0 ≤ i then memory i &&& (BitVec.allOnes 32 <<< (8 * (bytes - 4 * i.toNat))) else memory i

/-- `pool_create`, for the address that it is given or allocates. -/
def poolCreate (memory : ℤ → BitVec 32) (chunkSize size : BitVec 64) (addr : Addr) :
    Except Panic Pool :=
  if size % chunkSize ≠ 0 then .error .badArgument
  else .ok
    { bitmap := cleared memory (size / chunkSize).toNat
      chunkSize := chunkSize
      startingAddr := addr
      allocated := size
      used := 0
      accessed := [] }

def Pool.access (p : Pool) (words : List ℤ) : Pool := { p with accessed := words ++ p.accessed }

def setFrame (p : Pool) (frame : CInt) : Pool :=
  { p with
    bitmap := Bitmap.set p.bitmap (wordOf frame) (bitOf frame)
    accessed := wordOf frame :: p.accessed }

def clearFrame (p : Pool) (frame : CInt) : Pool :=
  { p with
    bitmap := Bitmap.clear p.bitmap (wordOf frame) (bitOf frame)
    accessed := wordOf frame :: p.accessed }

def testFrame (p : Pool) (frame : CInt) : BitVec 32 :=
  p.bitmap (wordOf frame) &&& 1#32 <<< bitOf frame

def findFrame (p : Pool) (enough : ℕ → Bool) : CInt :=
  let found := Bitmap.scan 32 (p.chunks / 32) (fun i => decide (p.bitmap i = 0xFFFFFFFF))
    fun i bit => decide (p.bitmap i &&& 1#32 <<< bit = 0) && enough (i * 32 + bit)
  match found with
  | some (i, bit) => BitVec.ofNat 32 (i * 4 * 8 + bit)
  | none => -enomem

def findFirstFrame (p : Pool) : CInt := findFrame p fun _ => true

def scanned (p : Pool) : List ℤ := (List.range (p.chunks / 32)).map fun i : ℕ => (i : ℤ)

/-- `pool_findFirstFrames` for two frames or more; the count `check` has 32 bits, which `n` fits. -/
def findFirstFrames (p : Pool) (n : ℕ) : CInt :=
  findFrame p fun startingBit => Bitmap.countTo
    (fun check => decide (testFrame p (BitVec.ofNat 32 startingBit + BitVec.ofNat 32 check) = 0))
    n (List.range n) 0

def counted (p : Pool) (n : ℕ) : List ℤ :=
  (List.range (p.chunks / 32)).flatMap fun i => (List.range 32).flatMap fun bit =>
    (List.range n).map fun check =>
      wordOf (BitVec.ofNat 32 (i * 32 + bit) + BitVec.ofNat 32 check)

def chunkAddress (p : Pool) (frame : CInt) : Addr :=
  frame.signExtend 64 * p.chunkSize + p.startingAddr

def setFrames (p : Pool) (frame : CInt) (n : ℕ) : Pool :=
  (List.range n).foldl (fun p i => setFrame p (frame + BitVec.ofNat 32 i)) p

def clearFrames (p : Pool) (frame : CInt) (n : ℕ) : Pool :=
  (List.range n).foldl (fun p i => clearFrame p (frame + BitVec.ofNat 32 i)) p

def allocateChunk (p : Pool) : Addr × Pool :=
  if p.allocated - p.used < p.chunkSize then (null, p)
  else
    let frame := findFirstFrame p
    let p := p.access (scanned p)
    if frame = -enomem then (null, p)
    else (chunkAddress p frame, { setFrame p frame with used := p.used + p.chunkSize })

def allocateChunks (p : Pool) (chunks : BitVec 64) : Addr × Pool :=
  if chunks = 0 then (null, p)
  else if chunks = 1 then allocateChunk p
  else if p.allocated - p.used < p.chunkSize * chunks then (null, p)
  else
    let frame := findFirstFrames p chunks.toNat
    let p := (p.access (scanned p)).access (counted p chunks.toNat)
    if frame = -enomem then (null, p)
    else (chunkAddress p frame,
      { setFrames p frame chunks.toNat with used := p.used + p.chunkSize * chunks })

def BadChunk (p : Pool) (chunk : Addr) : Prop :=
  chunk < p.startingAddr ∨ p.allocated + p.startingAddr < chunk ∨
    (chunk - p.startingAddr) % p.chunkSize ≠ 0

instance (p : Pool) (chunk : Addr) : Decidable (BadChunk p chunk) :=
  inferInstanceAs (Decidable (_ ∨ _ ∨ _))

def chunkFrame (p : Pool) (chunk : Addr) : CInt :=
  if chunk - p.startingAddr = 0 then 0
  else ((chunk - p.startingAddr) / p.chunkSize).setWidth 32

def freeChunk (p : Pool) (chunk : Addr) : Pool :=
  if BadChunk p chunk then p
  else { clearFrame p (chunkFrame p chunk) with used := p.used - p.chunkSize }

def freeChunks (p : Pool) (chunkStart : Addr) (chunks : BitVec 64) : Pool :=
  if chunks = 0 ∨ chunkStart = null then p
  else if BadChunk p chunkStart then p
  else { clearFrames p (chunkFrame p chunkStart) chunks.toNat with
    used := p.used - chunks * p.chunkSize }

end Source

def marked (p : Pool) (f : ℕ) : Bool := Bitmap.test p.bitmap (f / 32 : ℕ) (f % 32)

def markedCount (p : Pool) : ℕ := ((Finset.range p.chunks).filter fun f => marked p f).card

/-- A pool as `pool_create` makes it, with few enough chunks for an `int` and in a place where
it has room. -/
structure Shape (p : Pool) : Prop where
  chunkSize_pos : 0 < p.chunkSize.toNat
  allocated_eq : p.allocated.toNat = p.chunkSize.toNat * p.chunks
  chunks_lt : p.chunks < 2 ^ 30
  room : p.startingAddr.toNat + p.allocated.toNat ≤ 2 ^ 64

structure SameChunks (p p' : Pool) : Prop where
  chunkSize : p'.chunkSize = p.chunkSize
  startingAddr : p'.startingAddr = p.startingAddr
  allocated : p'.allocated = p.allocated

namespace SameChunks

variable {p p' p'' : Pool}

theorem rfl' : SameChunks p p := ⟨rfl, rfl, rfl⟩

theorem trans (h : SameChunks p p') (h' : SameChunks p' p'') : SameChunks p p'' :=
  ⟨h'.chunkSize.trans h.chunkSize, h'.startingAddr.trans h.startingAddr,
    h'.allocated.trans h.allocated⟩

theorem chunks (h : SameChunks p p') : p'.chunks = p.chunks := by
  simp [Pool.chunks, h.chunkSize, h.allocated]

theorem shape (h : SameChunks p p') (hp : Shape p) : Shape p' := by
  obtain ⟨hpos, heq, hlt, hroom⟩ := hp
  exact ⟨by rwa [h.chunkSize], by rwa [h.chunkSize, h.allocated, h.chunks], by rwa [h.chunks],
    by rwa [h.startingAddr, h.allocated]⟩

theorem chunkAddress (h : SameChunks p p') (frame : CInt) :
    chunkAddress p' frame = chunkAddress p frame := by
  simp [ChunkPool.chunkAddress, h.chunkSize, h.startingAddr]

end SameChunks

section Frames

variable {p : Pool} {f n : ℕ}

theorem testFrame_eq_zero_iff (p : Pool) (hf : f < 2 ^ 31) :
    testFrame p (BitVec.ofNat 32 f) = 0 ↔ marked p f = false := by
  unfold testFrame marked
  rw [wordOf_ofNat f hf, bitOf_ofNat f hf]
  exact Bitmap.and_mask_eq_zero_iff (Nat.mod_lt f (by decide))

def rangeWords (f n : ℕ) : Set ℤ := {w | ∃ g, f ≤ g ∧ g < f + n ∧ w = (g / 32 : ℕ)}

structure Marks (p p' : Pool) (f n : ℕ) (value : Bool) : Prop where
  same : SameChunks p p'
  used : p'.used = p.used
  marked : ∀ g, marked p' g = if f ≤ g ∧ g < f + n then value else marked p g
  accessed : ∀ w ∈ p'.accessed, w ∈ p.accessed ∨ w ∈ rangeWords f n

theorem setFrame_marks (p : Pool) (hf : f < 2 ^ 31) :
    Marks p (setFrame p (BitVec.ofNat 32 f)) f 1 true := by
  refine ⟨⟨rfl, rfl, rfl⟩, rfl, fun g => ?_, fun w hw => ?_⟩
  · unfold ChunkPool.marked setFrame
    rw [wordOf_ofNat f hf, bitOf_ofNat f hf, Bitmap.test_set _ (Nat.mod_lt g (by decide))]
    by_cases hg : g = f
    · simp [hg]
    · have hne : ¬ ((g / 32 : ℕ) = ((f / 32 : ℕ) : ℤ) ∧ g % 32 = f % 32) := by omega
      rw [if_neg (by omega), decide_eq_false hne, Bool.or_false]
  · rcases List.mem_cons.mp hw with rfl | hw
    · exact Or.inr ⟨f, by omega, by omega, wordOf_ofNat f hf⟩
    · exact Or.inl hw

theorem clearFrame_marks (p : Pool) (hf : f < 2 ^ 31) :
    Marks p (clearFrame p (BitVec.ofNat 32 f)) f 1 false := by
  refine ⟨⟨rfl, rfl, rfl⟩, rfl, fun g => ?_, fun w hw => ?_⟩
  · unfold ChunkPool.marked clearFrame
    rw [wordOf_ofNat f hf, bitOf_ofNat f hf, Bitmap.test_clear _ (Nat.mod_lt g (by decide))]
    by_cases hg : g = f
    · simp [hg]
    · have hne : ¬ ((g / 32 : ℕ) = ((f / 32 : ℕ) : ℤ) ∧ g % 32 = f % 32) := by omega
      rw [if_neg (by omega), decide_eq_false hne, Bool.not_false, Bool.and_true]
  · rcases List.mem_cons.mp hw with rfl | hw
    · exact Or.inr ⟨f, by omega, by omega, wordOf_ofNat f hf⟩
    · exact Or.inl hw

theorem marks_foldl {one : Pool → CInt → Pool} {value : Bool}
    (hone : ∀ q f, f < 2 ^ 31 → Marks q (one q (BitVec.ofNat 32 f)) f 1 value) (p : Pool)
    (hf : f + n ≤ 2 ^ 31) :
    Marks p ((List.range n).foldl (fun p i => one p (BitVec.ofNat 32 f + BitVec.ofNat 32 i)) p)
      f n value := by
  induction n with
  | zero =>
    refine ⟨SameChunks.rfl', rfl, fun g => ?_, fun w hw => Or.inl hw⟩
    rw [if_neg (by omega)]
    rfl
  | succ n ih =>
    have hbefore := ih (by omega)
    have hlast := hone ((List.range n).foldl
      (fun p i => one p (BitVec.ofNat 32 f + BitVec.ofNat 32 i)) p) (f + n) (by omega)
    rw [List.range_succ, List.foldl_append, List.foldl_cons, List.foldl_nil, ← BitVec.ofNat_add]
    refine ⟨hbefore.same.trans hlast.same, hlast.used.trans hbefore.used, fun g => ?_,
      fun w hw => ?_⟩
    · rw [hlast.marked, hbefore.marked]
      split_ifs <;> first | rfl | omega
    · rcases hlast.accessed w hw with hold | ⟨g, hfg, hgn, rfl⟩
      · rcases hbefore.accessed w hold with hold | ⟨g, hfg, hgn, rfl⟩
        · exact Or.inl hold
        · exact Or.inr ⟨g, hfg, by omega, rfl⟩
      · exact Or.inr ⟨g, by omega, by omega, rfl⟩

theorem setFrames_marks (p : Pool) (hf : f + n ≤ 2 ^ 31) :
    Marks p (setFrames p (BitVec.ofNat 32 f) n) f n true :=
  marks_foldl (fun q _ => setFrame_marks q) p hf

theorem clearFrames_marks (p : Pool) (hf : f + n ≤ 2 ^ 31) :
    Marks p (clearFrames p (BitVec.ofNat 32 f) n) f n false :=
  marks_foldl (fun q _ => clearFrame_marks q) p hf

end Frames

section Search

variable {p : Pool} {enough : ℕ → Bool}

/-- What is found is the first free frame that has enough after it. -/
theorem findFrame_spec (h : findFrame p enough ≠ -enomem) :
    ∃ f, findFrame p enough = BitVec.ofNat 32 f ∧ f < 32 * (p.chunks / 32) ∧
      marked p f = false ∧ enough f = true ∧
      ∀ g < f, marked p g = false → enough g = false := by
  unfold findFrame at *
  dsimp only at *
  cases hscan : Bitmap.scan 32 (p.chunks / 32) (fun i => decide (p.bitmap i = 0xFFFFFFFF))
    (fun i bit => decide (p.bitmap i &&& 1#32 <<< bit = 0) && enough (i * 32 + bit)) with
  | none =>
    rw [hscan] at h
    exact absurd rfl h
  | some found =>
    obtain ⟨i, bit⟩ := found
    obtain ⟨hi, hbit, haccept, -, hfirst⟩ := Bitmap.scan_eq_some hscan
    rw [Bool.and_eq_true, decide_eq_true_eq, Bitmap.and_mask_eq_zero_iff hbit] at haccept
    have hframe : i * 4 * 8 + bit = i * 32 + bit := by omega
    have hdiv : (i * 32 + bit) / 32 = i := by omega
    have hmod : (i * 32 + bit) % 32 = bit := by omega
    refine ⟨i * 32 + bit, by simp only [hframe], by omega, ?_, haccept.2, fun g hg hfree => ?_⟩
    · unfold marked Bitmap.test
      rw [hdiv, hmod]
      exact haccept.1
    · have hgbit : g % 32 < 32 := Nat.mod_lt g (by decide)
      unfold marked Bitmap.test at hfree
      have hnotfull : decide (p.bitmap ((g / 32 : ℕ) : ℤ) = 0xFFFFFFFF) = false := by
        rw [decide_eq_false_iff_not]
        intro hfull
        rw [hfull] at hfree
        have hall : (0xFFFFFFFF : BitVec 32) = BitVec.allOnes 32 := by decide
        rw [hall, BitVec.getLsbD_allOnes, decide_eq_true hgbit] at hfree
        exact absurd hfree (by decide)
      have hnot := hfirst (g / 32) (g % 32) hgbit hnotfull (by omega)
      rw [Bool.and_eq_false_iff, decide_eq_false_iff_not, Bitmap.and_mask_eq_zero_iff hgbit] at hnot
      have hback : g / 32 * 32 + g % 32 = g := by omega
      rw [hback] at hnot
      exact hnot.resolve_left fun hmask => hmask hfree

end Search

structure Valid (p : Pool) : Prop where
  shape : Shape p
  counted : p.used.toNat = p.chunkSize.toNat * markedCount p
  accessed : ∀ w ∈ p.accessed, InBitmap p.chunks w

structure Idle (p p' : Pool) : Prop where
  same : SameChunks p p'
  bitmap : p'.bitmap = p.bitmap
  used : p'.used = p.used
  accessed : ∀ w ∈ p'.accessed, w ∈ p.accessed ∨ InBitmap p.chunks w

structure Takes (p p' : Pool) (f n : ℕ) : Prop where
  same : SameChunks p p'
  pos : 1 ≤ n
  inside : f + n ≤ p.chunks
  large : 32 ≤ p.chunks
  free : ∀ g, f ≤ g → g < f + n → marked p g = false
  marked : ∀ g, marked p' g = if f ≤ g ∧ g < f + n then true else marked p g
  used : p'.used = p.used + p.chunkSize * BitVec.ofNat 64 n
  accessed : ∀ w ∈ p'.accessed, w ∈ p.accessed ∨ InBitmap p.chunks w

/-- `n` used chunks from `f` on are given back. -/
structure Gives (p p' : Pool) (f n : ℕ) : Prop where
  same : SameChunks p p'
  inside : f + n ≤ p.chunks
  busy : ∀ g, f ≤ g → g < f + n → marked p g = true
  marked : ∀ g, marked p' g = if f ≤ g ∧ g < f + n then false else marked p g
  used : p'.used = p.used - p.chunkSize * BitVec.ofNat 64 n
  accessed : ∀ w ∈ p'.accessed, w ∈ p.accessed ∨ InBitmap p.chunks w

section Books

variable {p p' : Pool} {f n : ℕ}

theorem markedCount_le (p : Pool) : markedCount p ≤ p.chunks := by
  have hle := Finset.card_filter_le (Finset.range p.chunks) fun f => marked p f
  rwa [Finset.card_range] at hle

theorem accessed_of_step (hp : Valid p) (hsame : SameChunks p p')
    (h : ∀ w ∈ p'.accessed, w ∈ p.accessed ∨ InBitmap p.chunks w) :
    ∀ w ∈ p'.accessed, InBitmap p'.chunks w := by
  intro w hw
  rw [hsame.chunks]
  exact (h w hw).elim (hp.accessed w) id

theorem Idle.valid (h : Idle p p') (hp : Valid p) : Valid p' := by
  refine ⟨h.same.shape hp.shape, ?_, accessed_of_step hp h.same h.accessed⟩
  have hcount : markedCount p' = markedCount p := by
    unfold markedCount marked
    rw [h.same.chunks, h.bitmap]
  rw [h.used, h.same.chunkSize, hcount, hp.counted]

/-- The chunks marked once a range of them has been marked. -/
theorem filter_marked_union (hsame : SameChunks p p') (hinside : f + n ≤ p.chunks)
    (hmarked : ∀ g, marked p' g = if f ≤ g ∧ g < f + n then true else marked p g) :
    (Finset.range p'.chunks).filter (fun g => marked p' g) =
      (Finset.range p.chunks).filter (fun g => marked p g) ∪ Finset.Ico f (f + n) := by
  ext g
  simp only [Finset.mem_filter, Finset.mem_range, Finset.mem_union, Finset.mem_Ico, hsame.chunks,
    hmarked]
  split_ifs with hg
  · simp only [hg, and_true, or_true, iff_true]
    omega
  · simp only [hg, or_false]

theorem Takes.markedCount (h : Takes p p' f n) : markedCount p' = ChunkPool.markedCount p + n := by
  unfold ChunkPool.markedCount
  rw [filter_marked_union h.same h.inside h.marked, Finset.card_union_of_disjoint, Nat.card_Ico,
    Nat.add_sub_cancel_left]
  rw [Finset.disjoint_right]
  intro g hg hmem
  rw [Finset.mem_Ico] at hg
  rw [Finset.mem_filter, h.free g hg.1 hg.2] at hmem
  exact absurd hmem.2 (by decide)

theorem Gives.markedCount (h : Gives p p' f n) : ChunkPool.markedCount p = markedCount p' + n := by
  have hback : ∀ g, ChunkPool.marked p g =
      if f ≤ g ∧ g < f + n then true else ChunkPool.marked p' g := by
    intro g
    rw [h.marked]
    split_ifs with hg
    · exact h.busy g hg.1 hg.2
    · rfl
  have hsame : SameChunks p' p :=
    ⟨h.same.chunkSize.symm, h.same.startingAddr.symm, h.same.allocated.symm⟩
  unfold ChunkPool.markedCount
  rw [filter_marked_union hsame (by rw [h.same.chunks]; exact h.inside) hback,
    Finset.card_union_of_disjoint, Nat.card_Ico, Nat.add_sub_cancel_left]
  rw [Finset.disjoint_right]
  intro g hg hmem
  rw [Finset.mem_Ico] at hg
  rw [Finset.mem_filter, h.marked, if_pos hg] at hmem
  exact absurd hmem.2 (by decide)

/-- The bytes of some of the chunks, which a word holds. -/
theorem toNat_size (hp : Shape p) (hn : n ≤ p.chunks) :
    (p.chunkSize * BitVec.ofNat 64 n).toNat = p.chunkSize.toNat * n := by
  have hle : p.chunkSize.toNat * n ≤ p.chunkSize.toNat * p.chunks := Nat.mul_le_mul_left _ hn
  have hlt := p.allocated.isLt
  have hchunks := hp.chunks_lt
  rw [hp.allocated_eq] at hlt
  rw [BitVec.toNat_mul, BitVec.toNat_ofNat, Nat.mod_eq_of_lt (by omega : n < 2 ^ 64)]
  exact Nat.mod_eq_of_lt (by omega)

theorem Takes.valid (h : Takes p p' f n) (hp : Valid p) : Valid p' := by
  refine ⟨h.same.shape hp.shape, ?_, accessed_of_step hp h.same h.accessed⟩
  have hn : n ≤ p.chunks := by
    have hinside := h.inside
    omega
  have hcount := h.markedCount
  have hle := markedCount_le p'
  have hlt := p.allocated.isLt
  rw [h.same.chunks] at hle
  have hbytes : p.chunkSize.toNat * ChunkPool.markedCount p' ≤ p.chunkSize.toNat * p.chunks :=
    Nat.mul_le_mul_left _ hle
  rw [← hp.shape.allocated_eq, hcount, Nat.mul_add] at hbytes
  rw [h.used, BitVec.toNat_add, toNat_size hp.shape hn, hp.counted, h.same.chunkSize, hcount,
    Nat.mul_add]
  exact Nat.mod_eq_of_lt (by omega)

theorem Gives.valid (h : Gives p p' f n) (hp : Valid p) : Valid p' := by
  refine ⟨h.same.shape hp.shape, ?_, accessed_of_step hp h.same h.accessed⟩
  have hn : n ≤ p.chunks := by
    have hinside := h.inside
    omega
  have hused := hp.counted
  have hsize := toNat_size hp.shape hn
  rw [h.markedCount, Nat.mul_add] at hused
  have hle : p.chunkSize * BitVec.ofNat 64 n ≤ p.used := by
    rw [BitVec.le_def, hsize, hused]
    omega
  rw [h.used, BitVec.toNat_sub_of_le hle, hsize, hused, h.same.chunkSize]
  omega

end Books

def RunAt (p : Pool) (n b : ℕ) : Prop := ∀ g, b ≤ g → g < b + n → marked p g = false

/-- When a request for two chunks or more is safe. It is, if it is refused for want of space; if
there is such a run in the pool that starts in a whole word of it, which is then found first; or
if no run that starts there goes on past the end of the pool. -/
def EndsInside (p : Pool) (n : BitVec 64) : Prop :=
  p.chunkSize.toNat * n.toNat < 2 ^ 64 ∧
    (p.allocated - p.used < p.chunkSize * n ∨
      (∃ b < 32 * (p.chunks / 32), b + n.toNat ≤ p.chunks ∧ RunAt p n.toNat b) ∨
      ∀ b < 32 * (p.chunks / 32), p.chunks < b + n.toNat →
        ∃ g, b ≤ g ∧ g < p.chunks ∧ marked p g = true)

section Calls

variable {p : Pool} {f n : ℕ}

theorem inBitmap_of_lt {chunks g : ℕ} (h : 32 ≤ chunks) (hg : g < 2 * chunks) :
    InBitmap chunks (g / 32 : ℕ) := by
  unfold InBitmap
  omega

theorem inBitmap_of_scanned {w : ℤ} (hw : w ∈ scanned p) : InBitmap p.chunks w := by
  obtain ⟨i, hi, rfl⟩ := List.mem_map.mp hw
  rw [List.mem_range] at hi
  unfold InBitmap
  omega

theorem inBitmap_of_counted (hp : Shape p) (hn : n ≤ p.chunks) {w : ℤ} (hw : w ∈ counted p n) :
    InBitmap p.chunks w := by
  have hlt := hp.chunks_lt
  simp only [counted, List.mem_flatMap, List.mem_map, List.mem_range] at hw
  obtain ⟨i, hi, bit, hbit, check, hcheck, rfl⟩ := hw
  rw [← BitVec.ofNat_add, wordOf_ofNat _ (by omega)]
  exact inBitmap_of_lt (by omega) (by omega)

theorem inBitmap_of_rangeWords (h : 32 ≤ p.chunks) (hn : f + n ≤ p.chunks) {w : ℤ}
    (hw : w ∈ rangeWords f n) : InBitmap p.chunks w := by
  obtain ⟨g, -, hg, rfl⟩ := hw
  exact inBitmap_of_lt h (by omega)

/-- A range of frames is marked after the bitmap was read, and its bytes are counted. -/
theorem takes_of_marks {p₁ p₂ : Pool} {words : List ℤ} (hp₁ : p₁ = p.access words)
    (hwords : ∀ w ∈ words, InBitmap p.chunks w) (h : Marks p₁ p₂ f n true) (hn : 1 ≤ n)
    (hinside : f + n ≤ p.chunks) (hlarge : 32 ≤ p.chunks) (hfree : RunAt p n f) :
    Takes p { p₂ with used := p₁.used + p₁.chunkSize * BitVec.ofNat 64 n } f n := by
  subst hp₁
  refine ⟨⟨h.same.chunkSize, h.same.startingAddr, h.same.allocated⟩, hn, hinside, hlarge, hfree,
    h.marked, rfl, fun w hw => ?_⟩
  rcases h.accessed w hw with hold | hnew
  · exact (List.mem_append.mp hold).symm.imp id (hwords w)
  · exact Or.inr (inBitmap_of_rangeWords hlarge hinside hnew)

theorem idle_access {words : List ℤ} (hwords : ∀ w ∈ words, InBitmap p.chunks w) :
    Idle p (p.access words) :=
  ⟨⟨rfl, rfl, rfl⟩, rfl, rfl, fun w hw => (List.mem_append.mp hw).symm.imp id (hwords w)⟩

theorem Idle.refl (p : Pool) : Idle p p := ⟨⟨rfl, rfl, rfl⟩, rfl, rfl, fun _ => Or.inl⟩

theorem allocateChunk_cases (hp : Valid p) :
    ((allocateChunk p).1 = null ∧ Idle p (allocateChunk p).2) ∨
      ∃ f, (allocateChunk p).1 = chunkAddress p (BitVec.ofNat 32 f) ∧
        Takes p (allocateChunk p).2 f 1 := by
  unfold allocateChunk
  dsimp only
  split_ifs with hspace hfound
  · exact Or.inl ⟨rfl, Idle.refl p⟩
  · exact Or.inl ⟨rfl, idle_access fun w => inBitmap_of_scanned⟩
  · obtain ⟨f, hframe, hlt, hfree, -, -⟩ := findFrame_spec hfound
    have hbound := hp.shape.chunks_lt
    have hframe' : findFirstFrame p = BitVec.ofNat 32 f := hframe
    rw [hframe']
    refine Or.inr ⟨f, rfl, ?_⟩
    have hrun : RunAt p 1 f := by
      intro g hfg hg
      obtain rfl : g = f := by omega
      exact hfree
    have htakes := takes_of_marks rfl (fun w => inBitmap_of_scanned)
      (setFrame_marks (p.access (scanned p)) (by omega : f < 2 ^ 31)) (Nat.le_refl 1)
      (by omega) (by omega) hrun
    simpa using htakes

/-- The loop that counts finds a run, as far as frame numbers fit an `int`. -/
theorem enough_iff (hn : 0 < n) (hf : f + n ≤ 2 ^ 31) :
    Bitmap.countTo (fun check => decide
      (testFrame p (BitVec.ofNat 32 f + BitVec.ofNat 32 check) = 0)) n (List.range n) 0 = true ↔
      RunAt p n f := by
  have hne : List.range n ≠ [] := by simpa using (by omega : n ≠ 0)
  rw [Bitmap.countTo_eq_true_iff (by simp) hne]
  constructor
  · intro h g hfg hg
    obtain ⟨c, rfl⟩ := Nat.exists_eq_add_of_le hfg
    have hc := h c (List.mem_range.mpr (by omega))
    rwa [← BitVec.ofNat_add, decide_eq_true_eq, testFrame_eq_zero_iff p (by omega)] at hc
  · intro h c hc
    rw [List.mem_range] at hc
    rw [← BitVec.ofNat_add, decide_eq_true_eq, testFrame_eq_zero_iff p (by omega)]
    exact h (f + c) (by omega) (by omega)

/-- A request that passes the check of the space asks for no more chunks than there are. -/
theorem le_chunks_of_space (hp : Valid p) {n : BitVec 64}
    (hwrap : p.chunkSize.toNat * n.toNat < 2 ^ 64)
    (hspace : ¬ p.allocated - p.used < p.chunkSize * n) : n.toNat ≤ p.chunks := by
  have hused : p.used ≤ p.allocated := by
    rw [BitVec.le_def, hp.counted, hp.shape.allocated_eq]
    exact Nat.mul_le_mul_left _ (markedCount_le p)
  rw [BitVec.lt_def, BitVec.toNat_sub_of_le hused, BitVec.toNat_mul, Nat.mod_eq_of_lt hwrap,
    hp.shape.allocated_eq] at hspace
  have hle : p.chunkSize.toNat * n.toNat ≤ p.chunkSize.toNat * p.chunks := by omega
  exact Nat.le_of_mul_le_mul_left hle hp.shape.chunkSize_pos

theorem allocateChunks_cases (hp : Valid p) {n : BitVec 64}
    (hn : n.toNat ≤ 1 ∨ EndsInside p n) :
    ((allocateChunks p n).1 = null ∧ Idle p (allocateChunks p n).2) ∨
      ∃ f, (allocateChunks p n).1 = chunkAddress p (BitVec.ofNat 32 f) ∧
        Takes p (allocateChunks p n).2 f n.toNat := by
  unfold allocateChunks
  split_ifs with hzero hone hspace
  · exact Or.inl ⟨rfl, Idle.refl p⟩
  · rw [hone]
    exact allocateChunk_cases hp
  · exact Or.inl ⟨rfl, Idle.refl p⟩
  · have hmany : ¬ n.toNat ≤ 1 := by
      intro hle
      have hcases : n.toNat = 0 ∨ n.toNat = 1 := by omega
      rcases hcases with h | h
      · exact hzero (BitVec.eq_of_toNat_eq h)
      · exact hone (BitVec.eq_of_toNat_eq h)
    obtain ⟨hwrap, hends⟩ := hn.resolve_left hmany
    have hle := le_chunks_of_space hp hwrap hspace
    have hbound := hp.shape.chunks_lt
    have hwords : ∀ w ∈ counted p n.toNat ++ scanned p, InBitmap p.chunks w := by
      intro w hw
      rcases List.mem_append.mp hw with hw | hw
      · exact inBitmap_of_counted hp.shape hle hw
      · exact inBitmap_of_scanned hw
    have haccess : (p.access (scanned p)).access (counted p n.toNat) =
        p.access (counted p n.toNat ++ scanned p) := by
      simp [Pool.access]
    dsimp only
    rw [haccess]
    split_ifs with hfound
    · exact Or.inl ⟨rfl, idle_access hwords⟩
    · obtain ⟨f, hframe, hlt, -, henough, hfirst⟩ := findFrame_spec hfound
      have hframe' : findFirstFrames p n.toNat = BitVec.ofNat 32 f := hframe
      rw [enough_iff (by omega) (by omega)] at henough
      have hinside : f + n.toNat ≤ p.chunks := by
        rcases hends with hrefused | ⟨b, hb, hbn, hrun⟩ | hnone
        · exact absurd hrefused hspace
        · -- a run inside the pool is accepted, so that the first one is not after it
          have hfb : f ≤ b := by
            by_contra hbf
            have hnot := hfirst b (by omega) (hrun b (by omega) (by omega))
            rw [Bool.eq_false_iff, ne_eq, enough_iff (by omega) (by omega)] at hnot
            exact hnot hrun
          omega
        · by_contra hout
          obtain ⟨g, hfg, hg, hmarked⟩ := hnone f hlt (by omega)
          rw [henough g hfg (by omega)] at hmarked
          exact absurd hmarked (by decide)
      rw [hframe']
      refine Or.inr ⟨f, rfl, ?_⟩
      have htakes := takes_of_marks rfl hwords
        (setFrames_marks (p.access (counted p n.toNat ++ scanned p))
          (by omega : f + n.toNat ≤ 2 ^ 31)) (by omega) hinside (by omega) henough
      simpa using htakes

end Calls

/-- A range of chunks in use: its address, its number of chunks, and its first frame. -/
structure Held (p : Pool) (range : Addr × ℕ) (f : ℕ) : Prop where
  address : range.1 = chunkAddress p (BitVec.ofNat 32 f)
  pos : 1 ≤ range.2
  inside : f + range.2 ≤ p.chunks
  large : 32 ≤ p.chunks
  busy : ∀ g, f ≤ g → g < f + range.2 → marked p g = true

section Frees

variable {p p' : Pool} {f : ℕ} {range : Addr × ℕ}

theorem chunkAddress_toNat (hp : Shape p) (hf : f < p.chunks) :
    (chunkAddress p (BitVec.ofNat 32 f)).toNat = p.startingAddr.toNat + p.chunkSize.toNat * f := by
  have hbound := hp.chunks_lt
  have hroom := hp.room
  have hpos := hp.chunkSize_pos
  have hlt : p.chunkSize.toNat * f < p.chunkSize.toNat * p.chunks :=
    Nat.mul_lt_mul_of_pos_left hf hpos
  rw [hp.allocated_eq] at hroom
  unfold chunkAddress
  rw [BitVec.toNat_add, BitVec.toNat_mul, toNat_signExtend_ofNat (by omega), Nat.mul_comm f,
    Nat.mod_eq_of_lt (by omega : p.chunkSize.toNat * f < 2 ^ 64), Nat.mod_eq_of_lt (by omega)]
  omega

theorem Held.frame_lt (h : Held p range f) : f < p.chunks := by
  have hinside := h.inside
  have hpos := h.pos
  omega

theorem Held.toNat (h : Held p range f) (hp : Shape p) :
    range.1.toNat = p.startingAddr.toNat + p.chunkSize.toNat * f := by
  rw [h.address, chunkAddress_toNat hp h.frame_lt]

theorem chunkFrame_of_held (hp : Shape p) (h : Held p range f) :
    chunkFrame p range.1 = BitVec.ofNat 32 f := by
  have haddr := h.toNat hp
  have hbound := hp.chunks_lt
  have hflt := h.frame_lt
  have hle : p.startingAddr ≤ range.1 := by
    rw [BitVec.le_def, haddr]
    omega
  have hsub : (range.1 - p.startingAddr).toNat = p.chunkSize.toNat * f := by
    rw [BitVec.toNat_sub_of_le hle, haddr]
    omega
  unfold chunkFrame
  split_ifs with hzero
  · have hf : p.chunkSize.toNat * f = 0 := by
      rw [← hsub, hzero]
      rfl
    have hpos := hp.chunkSize_pos
    obtain rfl : f = 0 := by
      rcases Nat.mul_eq_zero.mp hf with h0 | h0 <;> omega
    rfl
  · apply BitVec.eq_of_toNat_eq
    rw [BitVec.toNat_setWidth, BitVec.toNat_udiv, hsub, Nat.mul_div_cancel_left f hp.chunkSize_pos,
      BitVec.toNat_ofNat]

/-- A range of frames is cleared and its bytes are no longer counted. -/
theorem gives_of_marks (hheld : Held p range f) (h : Marks p p' f range.2 false) :
    Gives p { p' with used := p.used - p.chunkSize * BitVec.ofNat 64 range.2 } f range.2 := by
  refine ⟨⟨h.same.chunkSize, h.same.startingAddr, h.same.allocated⟩, hheld.inside, hheld.busy,
    h.marked, rfl, fun w hw => ?_⟩
  exact (h.accessed w hw).imp id (inBitmap_of_rangeWords hheld.large hheld.inside)

theorem freeChunk_cases (hp : Valid p) {chunk : Addr} (hheld : Held p (chunk, 1) f) :
    Idle p (freeChunk p chunk) ∨ Gives p (freeChunk p chunk) f 1 := by
  have hbound := hp.shape.chunks_lt
  have hflt := hheld.frame_lt
  have hframe := chunkFrame_of_held hp.shape hheld
  unfold freeChunk
  split_ifs
  · exact Or.inl (Idle.refl p)
  · have hgives := gives_of_marks hheld (clearFrame_marks p (by omega : f < 2 ^ 31))
    rw [hframe]
    exact Or.inr (by simpa using hgives)

theorem freeChunks_cases (hp : Valid p) {chunk : Addr} {n : BitVec 64}
    (hheld : Held p (chunk, n.toNat) f) :
    Idle p (freeChunks p chunk n) ∨ Gives p (freeChunks p chunk n) f n.toNat := by
  have hbound := hp.shape.chunks_lt
  have hinside : f + n.toNat ≤ p.chunks := hheld.inside
  have hframe := chunkFrame_of_held hp.shape hheld
  unfold freeChunks
  split_ifs
  · exact Or.inl (Idle.refl p)
  · exact Or.inl (Idle.refl p)
  · have hgives := gives_of_marks hheld (clearFrames_marks p (by omega : f + n.toNat ≤ 2 ^ 31))
    rw [hframe, BitVec.mul_comm]
    exact Or.inr (by simpa using hgives)

end Frees

section Run

/-- The pool and the ranges handed out of it that have not been freed. -/
structure State where
  pool : Pool
  live : List (Addr × ℕ)

inductive Event
  | allocateChunk
  | allocateChunks (n : BitVec 64)
  | freeChunk (chunk : Addr)
  | freeChunks (chunk : Addr) (n : BitVec 64)

def State.hand (s : State) (result : Addr × Pool) (n : ℕ) : State :=
  ⟨result.2, if result.1 = null then s.live else (result.1, n) :: s.live⟩

def State.step (s : State) : Event → State
  | .allocateChunk => s.hand (ChunkPool.allocateChunk s.pool) 1
  | .allocateChunks n => s.hand (ChunkPool.allocateChunks s.pool n) n.toNat
  | .freeChunk chunk => ⟨ChunkPool.freeChunk s.pool chunk, s.live.erase (chunk, 1)⟩
  | .freeChunks chunk n => ⟨ChunkPool.freeChunks s.pool chunk n, s.live.erase (chunk, n.toNat)⟩

def State.run (s : State) (events : List Event) : State := events.foldl State.step s

def Matching (s : State) : Event → Prop
  | .freeChunk chunk => (chunk, 1) ∈ s.live
  | .freeChunks chunk n => (chunk, n.toNat) ∈ s.live
  | _ => True

def StaysInside (s : State) : Event → Prop
  | .allocateChunks n => n.toNat ≤ 1 ∨ EndsInside s.pool n
  | _ => True

def AllMeet (s : State) : List Event → Prop
  | [] => True
  | e :: events => Matching s e ∧ StaysInside s e ∧ AllMeet (s.step e) events

def Apart (chunkSize : ℕ) (r r' : Addr × ℕ) : Prop :=
  r.1.toNat + chunkSize * r.2 ≤ r'.1.toNat ∨ r'.1.toNat + chunkSize * r'.2 ≤ r.1.toNat

structure Safe (s : State) : Prop where
  apart : s.live.Pairwise (Apart s.pool.chunkSize.toNat)
  inside : ∀ r ∈ s.live, s.pool.startingAddr.toNat ≤ r.1.toNat ∧
    r.1.toNat + s.pool.chunkSize.toNat * r.2 ≤
      s.pool.startingAddr.toNat + s.pool.allocated.toNat
  counted : s.pool.used.toNat = s.pool.chunkSize.toNat * markedCount s.pool
  accessed : ∀ w ∈ s.pool.accessed, InBitmap s.pool.chunks w

structure Inv (s : State) : Prop where
  valid : Valid s.pool
  held : ∀ r ∈ s.live, ∃ f, Held s.pool r f
  apart : s.live.Pairwise (Apart s.pool.chunkSize.toNat)

variable {s : State} {p p' : Pool} {f n : ℕ}

theorem Inv.safe (h : Inv s) : Safe s := by
  refine ⟨h.apart, fun r hr => ?_, h.valid.counted, h.valid.accessed⟩
  obtain ⟨f, hf⟩ := h.held r hr
  have haddr := hf.toNat h.valid.shape
  have hle : s.pool.chunkSize.toNat * (f + r.2) ≤ s.pool.chunkSize.toNat * s.pool.chunks :=
    Nat.mul_le_mul_left _ hf.inside
  rw [Nat.mul_add] at hle
  rw [haddr, h.valid.shape.allocated_eq]
  omega

/-- Ranges that do not meet have frames that do not. -/
theorem apart_iff (hp : Shape p) {r r' : Addr × ℕ} {f' : ℕ} (h : Held p r f) (h' : Held p r' f') :
    Apart p.chunkSize.toNat r r' ↔ f + r.2 ≤ f' ∨ f' + r'.2 ≤ f := by
  have hpos := hp.chunkSize_pos
  unfold Apart
  rw [h.toNat hp, h'.toNat hp, Nat.add_assoc, Nat.add_assoc, ← Nat.mul_add, ← Nat.mul_add,
    Nat.add_le_add_iff_left, Nat.add_le_add_iff_left, Nat.mul_le_mul_left_iff hpos,
    Nat.mul_le_mul_left_iff hpos]

theorem Held.of_same {r : Addr × ℕ} (h : Held p r f) (hsame : SameChunks p p')
    (hbusy : ∀ g, f ≤ g → g < f + r.2 → marked p' g = true) : Held p' r f := by
  refine ⟨by rw [h.address, hsame.chunkAddress], h.pos, ?_, ?_, hbusy⟩
  · rw [hsame.chunks]
    exact h.inside
  · rw [hsame.chunks]
    exact h.large

theorem Inv.idle (h : Inv s) (hidle : Idle s.pool p') {live : List (Addr × ℕ)}
    (hsub : live.Sublist s.live) : Inv ⟨p', live⟩ := by
  refine ⟨hidle.valid h.valid, fun r hr => ?_, ?_⟩
  · obtain ⟨f, hf⟩ := h.held r (hsub.subset hr)
    refine ⟨f, hf.of_same hidle.same fun g hfg hg => ?_⟩
    rw [← hf.busy g hfg hg]
    simp only [marked, hidle.bitmap]
  · rw [hidle.same.chunkSize]
    exact h.apart.sublist hsub

theorem Inv.takes (h : Inv s) (htakes : Takes s.pool p' f n) {a : Addr}
    (ha : a = chunkAddress s.pool (BitVec.ofNat 32 f)) : Inv ⟨p', (a, n) :: s.live⟩ := by
  have hold : ∀ r ∈ s.live, ∃ f', Held s.pool r f' ∧ Held p' r f' := by
    intro r hr
    obtain ⟨f', hf'⟩ := h.held r hr
    refine ⟨f', hf', hf'.of_same htakes.same fun g hfg hg => ?_⟩
    rw [htakes.marked, hf'.busy g hfg hg]
    split_ifs <;> rfl
  have hnew : Held p' (a, n) f := by
    refine ⟨by rw [htakes.same.chunkAddress, ha], htakes.pos, ?_, ?_, fun g hfg hg => ?_⟩
    · rw [htakes.same.chunks]
      exact htakes.inside
    · rw [htakes.same.chunks]
      exact htakes.large
    · rw [htakes.marked, if_pos ⟨hfg, hg⟩]
  have hvalid := htakes.valid h.valid
  refine ⟨hvalid, ?_, ?_⟩
  · intro r hr
    rcases List.mem_cons.mp hr with rfl | hr
    · exact ⟨f, hnew⟩
    · obtain ⟨f', -, hf'⟩ := hold r hr
      exact ⟨f', hf'⟩
  · rw [List.pairwise_cons]
    refine ⟨fun r hr => ?_, htakes.same.chunkSize ▸ h.apart⟩
    obtain ⟨f', hwas, hf'⟩ := hold r hr
    rw [apart_iff hvalid.shape hnew hf']
    by_contra hmeet
    have hpos := hwas.pos
    have hpos' := htakes.pos
    have hfree := htakes.free (max f f') (by omega) (by omega)
    have hbusy := hwas.busy (max f f') (by omega) (by omega)
    rw [hfree] at hbusy
    exact absurd hbusy (by decide)

theorem Inv.gives (h : Inv s) {r : Addr × ℕ} (hr : r ∈ s.live) (hheld : Held s.pool r f)
    (hgives : Gives s.pool p' f r.2) : Inv ⟨p', s.live.erase r⟩ := by
  have hapart : ∀ r' ∈ s.live.erase r, Apart s.pool.chunkSize.toNat r r' := by
    have hperm := List.perm_cons_erase hr
    have hall := (hperm.pairwise_iff (fun {x y} hxy => Or.symm hxy)).mp h.apart
    exact (List.pairwise_cons.mp hall).1
  have hvalid := hgives.valid h.valid
  refine ⟨hvalid, fun r' hr' => ?_, ?_⟩
  · obtain ⟨f', hf'⟩ := h.held r' (List.mem_of_mem_erase hr')
    have hdisj := (apart_iff h.valid.shape hheld hf').mp (hapart r' hr')
    refine ⟨f', hf'.of_same hgives.same fun g hfg hg => ?_⟩
    rw [hgives.marked, if_neg (by omega), hf'.busy g hfg hg]
  · rw [hgives.same.chunkSize]
    exact h.apart.sublist List.erase_sublist

theorem Inv.hand {n : ℕ} {result : Addr × Pool} (h : Inv s)
    (hcases : (result.1 = null ∧ Idle s.pool result.2) ∨
      ∃ f, result.1 = chunkAddress s.pool (BitVec.ofNat 32 f) ∧ Takes s.pool result.2 f n) :
    Inv (s.hand result n) := by
  unfold State.hand
  rcases hcases with ⟨hnull, hidle⟩ | ⟨f, haddr, htakes⟩
  · rw [if_pos hnull]
    exact h.idle hidle (List.Sublist.refl _)
  · have hinv := h.takes htakes haddr
    split_ifs
    · -- a pool at address 0 hands out its first chunk as `NULL`
      exact ⟨hinv.valid, fun r hr => hinv.held r (List.mem_cons_of_mem _ hr), hinv.apart.of_cons⟩
    · exact hinv

theorem Inv.step (h : Inv s) {e : Event} (hmatch : Matching s e) (hstays : StaysInside s e) :
    Inv (s.step e) := by
  cases e with
  | allocateChunk => exact h.hand (allocateChunk_cases h.valid)
  | allocateChunks n => exact h.hand (allocateChunks_cases h.valid hstays)
  | freeChunk chunk =>
    obtain ⟨f, hf⟩ := h.held _ hmatch
    rcases freeChunk_cases h.valid hf with hidle | hgives
    · exact h.idle hidle List.erase_sublist
    · exact h.gives hmatch hf hgives
  | freeChunks chunk n =>
    obtain ⟨f, hf⟩ := h.held _ hmatch
    rcases freeChunks_cases h.valid hf with hidle | hgives
    · exact h.idle hidle List.erase_sublist
    · exact h.gives hmatch hf hgives

theorem Inv.run (h : Inv s) {events : List Event} (hmeet : AllMeet s events) :
    Inv (s.run events) := by
  induction events generalizing s with
  | nil => exact h
  | cons e events ih => exact ih (h.step hmeet.1 hmeet.2.1) hmeet.2.2

theorem cleared_marked {memory : ℤ → BitVec 32} {bytes g : ℕ} (hg : g < bytes) :
    Bitmap.test (cleared memory bytes) (g / 32 : ℕ) (g % 32) = false := by
  have hnat : (0 : ℤ) ≤ (g / 32 : ℕ) := by omega
  have hbit : g % 32 < 8 * (bytes - 4 * (g / 32)) := by omega
  unfold Bitmap.test cleared
  rw [if_pos hnat, Int.toNat_natCast, BitVec.getLsbD_and, BitVec.getLsbD_shiftLeft]
  simp [hbit]

theorem inv_create {memory : ℤ → BitVec 32} {chunkSize size : BitVec 64} {addr : Addr}
    (hcreate : poolCreate memory chunkSize size addr = .ok p) (hpos : 0 < chunkSize)
    (hchunks : (size / chunkSize).toNat < 2 ^ 30) (hroom : addr.toNat + size.toNat ≤ 2 ^ 64) :
    Inv ⟨p, []⟩ := by
  unfold poolCreate at hcreate
  split_ifs at hcreate with hmod
  obtain rfl := Except.ok.inj hcreate
  have hdivides : size.toNat % chunkSize.toNat = 0 := by
    rw [← BitVec.toNat_umod, not_ne_iff.mp hmod]
    rfl
  have hsize : size.toNat = chunkSize.toNat * (size / chunkSize).toNat := by
    rw [BitVec.toNat_udiv]
    have hdm := Nat.div_add_mod size.toNat chunkSize.toNat
    omega
  refine ⟨⟨⟨hpos, hsize, hchunks, hroom⟩, ?_, fun w hw => absurd hw List.not_mem_nil⟩,
    fun r hr => absurd hr List.not_mem_nil, List.Pairwise.nil⟩
  unfold markedCount
  rw [Finset.filter_false_of_mem]
  · rfl
  · intro g hg
    rw [Finset.mem_range] at hg
    exact Bool.eq_false_iff.mp (cleared_marked hg)

/-- Every run of matching calls in which no request takes a run of chunks past the end of the
pool: the ranges in use do not meet and lie in the pool, the bytes in use are those of the chunks
marked, and the bitmap is accessed within its bounds. -/
theorem pool_safe {memory : ℤ → BitVec 32} {chunkSize size : BitVec 64} {addr : Addr}
    (hcreate : poolCreate memory chunkSize size addr = .ok p) (hpos : 0 < chunkSize)
    (hchunks : (size / chunkSize).toNat < 2 ^ 30) (hroom : addr.toNat + size.toNat ≤ 2 ^ 64)
    {events : List Event} (hmeet : AllMeet ⟨p, []⟩ events) :
    Safe (State.run ⟨p, []⟩ events) :=
  ((inv_create hcreate hpos hchunks hroom).run hmeet).safe

def smallPool : Pool :=
  ⟨cleared (fun _ => BitVec.allOnes 32) 32, 0x1000, 0x100000, 0x20000, 0, []⟩

/-- One chunk, and two more. -/
theorem pool_safe_of_small :
    Safe (State.run ⟨smallPool, []⟩ [.allocateChunk, .allocateChunks 2]) := by
  have hcreate : poolCreate (fun _ => BitVec.allOnes 32) 0x1000 0x20000 0x100000 = .ok smallPool :=
    rfl
  refine pool_safe hcreate (by decide) (by decide) (by decide)
    ⟨trivial, trivial, trivial, ?_, trivial⟩
  refine Or.inr ⟨by decide, Or.inr (Or.inl ⟨1, by decide, by decide, fun g hlo hhi => ?_⟩)⟩
  have hcases : g = 1 ∨ g = 2 := by
    have hlt : g < 1 + 2 := hhi
    omega
  rcases hcases with rfl | rfl <;> decide +kernel

/-- Chunks 0 and 31 of 32 are free, and a request for two is given the last chunk and one past the
end. -/
theorem two_chunks_past_the_end :
    (0x100000, 1) ∈ (State.run ⟨smallPool, []⟩ [.allocateChunk, .allocateChunks 30]).live ∧
    (0x11F000, 2) ∈ (State.run ⟨smallPool, []⟩
      [.allocateChunk, .allocateChunks 30, .freeChunk 0x100000, .allocateChunks 2]).live ∧
    ¬ Safe (State.run ⟨smallPool, []⟩
      [.allocateChunk, .allocateChunks 30, .freeChunk 0x100000, .allocateChunks 2]) := by
  have hgiven : (0x11F000, 2) ∈ (State.run ⟨smallPool, []⟩
      [.allocateChunk, .allocateChunks 30, .freeChunk 0x100000, .allocateChunks 2]).live := by
    decide +kernel
  refine ⟨by decide +kernel, hgiven, fun h => ?_⟩
  have hend := (h.inside _ hgiven).2
  revert hend
  decide +kernel

end Run

end ReduceOS.ChunkPool
