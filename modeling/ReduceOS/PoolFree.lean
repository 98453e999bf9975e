import ReduceOS.PoolSearch

/-!
What becomes of the chunks that are given back to a pool. The two functions refuse an address
that is misaligned, below the pool or past its end, and nothing else: the address of the end
itself, a run that goes past it and chunks that are free are accepted, and the number of bytes
in use goes down with each of them.
-/
namespace ReduceOS.PoolFree

open Machine ChunkPool

section Source

def clearLoop (frame : CInt) (chunks : BitVec 64) : ℕ → BitVec 32 → Pool → Option Pool
  | 0, _, _ => none
  | k + 1, i, p =>
    if i.toNat < chunks.toNat then clearLoop frame chunks k (i + 1) (clearFrame p (frame + i))
    else some p

def freeChunks (p : Pool) (chunkStart : Addr) (chunks : BitVec 64) (k : ℕ) : Option Pool :=
  if chunks = 0 ∨ chunkStart = null then some p
  else if BadChunk p chunkStart then some p
  else do
    let q ← clearLoop (chunkFrame p chunkStart) chunks k 0 p
    some { q with used := q.used - chunks * q.chunkSize }

end Source

inductive Call
  | freeChunk (chunk : Addr)
  | freeChunks (chunkStart : Addr) (chunks : BitVec 64)

def perform (p : Pool) (k : ℕ) : Call → Option Pool
  | .freeChunk chunk => some (freeChunk p chunk)
  | .freeChunks chunkStart chunks => freeChunks p chunkStart chunks k

/-- The call returns, with the bitmap and the number of used bytes as they were. -/
def Unchanged (p : Pool) (call : Call) : Prop :=
  ∃ k q, perform p k call = some q ∧ q.bitmap = p.bitmap ∧ q.used = p.used

def Denotes (p : Pool) (chunk : Addr) (n : ℕ) : Prop :=
  0 < n ∧ ∃ f, chunk.toNat = p.startingAddr.toNat + p.chunkSize.toNat * f ∧ f + n ≤ p.chunks ∧
    ∀ g, f ≤ g → g < f + n → marked p g = true

def Call.Denotes (p : Pool) : Call → Prop
  | .freeChunk chunk => PoolFree.Denotes p chunk 1
  | .freeChunks chunkStart chunks => PoolFree.Denotes p chunkStart chunks.toNat

/-- All bits that would be cleared are clear, and the bytes that would be taken off are a multiple
of 2^64. -/
def InVain (p : Pool) (chunkStart : Addr) (chunks : BitVec 64) : Prop :=
  chunks.toNat < 2 ^ 32 ∧ chunks * p.chunkSize = 0 ∧
    ∀ i < chunks.toNat, testFrame p (chunkFrame p chunkStart + BitVec.ofNat 32 i) = 0

def Call.Refused (p : Pool) : Call → Prop
  | .freeChunk chunk => BadChunk p chunk
  | .freeChunks chunkStart chunks => chunks = 0 ∨ chunkStart = null ∨ BadChunk p chunkStart ∨
      InVain p chunkStart chunks

section Clear

variable {p q : Pool} {frame : CInt} {n : ℕ} {chunks : BitVec 64}

theorem clearFrames_succ (p : Pool) (frame : CInt) (n : ℕ) :
    clearFrames p frame (n + 1) =
      clearFrame (clearFrames p frame n) (frame + BitVec.ofNat 32 n) := by
  unfold clearFrames
  rw [List.range_succ, List.foldl_append]
  rfl

theorem clearFrame_bitmap_eq_iff (p : Pool) (frame : CInt) :
    (clearFrame p frame).bitmap = p.bitmap ↔ testFrame p frame = 0 :=
  Bitmap.clear_eq_self_iff _ _ _

theorem testFrame_clearFrame (p : Pool) (frame : CInt) :
    testFrame (clearFrame p frame) frame = 0 :=
  Bitmap.clear_and_mask _ _ _

theorem testFrame_clearFrame_of_zero {other : CInt} (h : testFrame p other = 0) :
    testFrame (clearFrame p frame) other = 0 :=
  Bitmap.clear_and_eq_zero _ _ _ _ h

theorem testFrame_congr (h : q.bitmap = p.bitmap) (frame : CInt) :
    testFrame q frame = testFrame p frame := by
  unfold testFrame
  rw [h]

theorem testFrame_clearFrames {i : ℕ} (hi : i < n) :
    testFrame (clearFrames p frame n) (frame + BitVec.ofNat 32 i) = 0 := by
  induction n with
  | zero => exact absurd hi (Nat.not_lt_zero i)
  | succ n ih =>
    rw [clearFrames_succ]
    rcases Nat.lt_succ_iff_lt_or_eq.mp hi with hlt | rfl
    · exact testFrame_clearFrame_of_zero (ih hlt)
    · exact testFrame_clearFrame _ _

/-- Nothing is changed by clearing what is clear, and only by that. -/
theorem clearFrames_bitmap_eq_iff :
    (clearFrames p frame n).bitmap = p.bitmap ↔
      ∀ i < n, testFrame p (frame + BitVec.ofNat 32 i) = 0 := by
  constructor
  · intro h i hi
    rw [← testFrame_congr h]
    exact testFrame_clearFrames hi
  · intro h
    induction n with
    | zero => rfl
    | succ n ih =>
      have hbefore := ih fun i hi => h i (Nat.lt_succ_of_lt hi)
      rw [clearFrames_succ, ← hbefore]
      refine (clearFrame_bitmap_eq_iff _ _).mpr ?_
      rw [testFrame_congr hbefore]
      exact h n (Nat.lt_succ_self n)

theorem clearFrames_fields (p : Pool) (frame : CInt) (n : ℕ) :
    (clearFrames p frame n).used = p.used ∧ (clearFrames p frame n).chunkSize = p.chunkSize := by
  induction n with
  | zero => exact ⟨rfl, rfl⟩
  | succ n ih =>
    rw [clearFrames_succ]
    exact ih

/-- The loop clears chunk after chunk, as many as 32 bits count. -/
theorem clearLoop_eq (hn : chunks.toNat < 2 ^ 32) (k : ℕ) {c : ℕ} (hc : c ≤ chunks.toNat) :
    (∀ q, clearLoop frame chunks k (BitVec.ofNat 32 c) (clearFrames p frame c) = some q →
      q = clearFrames p frame chunks.toNat) ∧
    (chunks.toNat - c < k →
      clearLoop frame chunks k (BitVec.ofNat 32 c) (clearFrames p frame c) =
        some (clearFrames p frame chunks.toNat)) := by
  induction k generalizing c with
  | zero => simp [clearLoop]
  | succ k ih =>
    have hcount : (BitVec.ofNat 32 c).toNat = c := by
      rw [BitVec.toNat_ofNat, Nat.mod_eq_of_lt (by omega)]
    have hnext : BitVec.ofNat 32 c + 1 = BitVec.ofNat 32 (c + 1) := (BitVec.ofNat_add c 1).symm
    rw [clearLoop, hcount, hnext, ← clearFrames_succ]
    split_ifs with hmore
    · obtain ⟨hsound, htotal⟩ := ih (c := c + 1) (by omega)
      exact ⟨hsound, fun hk => htotal (by omega)⟩
    · obtain rfl : c = chunks.toNat := by omega
      exact ⟨fun q hq => (Option.some.inj hq).symm, fun _ => rfl⟩

/-- More chunks than that are never cleared to the end. -/
theorem clearLoop_wide (hn : 2 ^ 32 ≤ chunks.toNat) (k : ℕ) (i : BitVec 32) (p : Pool) :
    clearLoop frame chunks k i p = none := by
  induction k generalizing i p with
  | zero => rfl
  | succ k ih =>
    have hi := i.isLt
    rw [clearLoop, if_pos (by omega)]
    exact ih _ _

theorem freeChunks_eq (hn : chunks.toNat < 2 ^ 32) (chunkStart : Addr) :
    ∃ k, freeChunks p chunkStart chunks k = some (ChunkPool.freeChunks p chunkStart chunks) := by
  refine ⟨chunks.toNat + 1, ?_⟩
  have hloop := (@clearLoop_eq p (chunkFrame p chunkStart) _ hn (chunks.toNat + 1)
    _ (Nat.zero_le _)).2 (by omega)
  obtain ⟨hused, hsize⟩ := clearFrames_fields p (chunkFrame p chunkStart) chunks.toNat
  unfold freeChunks ChunkPool.freeChunks
  split_ifs
  · rfl
  · rfl
  · change (clearLoop (chunkFrame p chunkStart) chunks _ (BitVec.ofNat 32 0)
      (clearFrames p (chunkFrame p chunkStart) 0)).bind _ = _
    rw [hloop, Option.bind_some, hused, ← hsize]

end Clear

section Frees

variable {p : Pool} {chunk chunkStart : Addr} {chunks : BitVec 64}

theorem sub_eq_self_iff (x y : BitVec 64) : x - y = x ↔ y = 0 := by
  constructor
  · intro h
    bv_omega
  · rintro rfl
    exact BitVec.sub_zero x

theorem unchanged_freeChunk_iff (hsize : p.chunkSize ≠ 0) :
    Unchanged p (.freeChunk chunk) ↔ BadChunk p chunk := by
  change (∃ k q, some (freeChunk p chunk) = some q ∧ _) ↔ _
  unfold freeChunk
  split_ifs with hbad
  · exact iff_of_true ⟨0, p, rfl, rfl, rfl⟩ hbad
  · refine iff_of_false ?_ hbad
    rintro ⟨k, q, hq, -, hused⟩
    cases hq
    exact hsize ((sub_eq_self_iff _ _).mp hused)

theorem unchanged_freeChunks_iff :
    Unchanged p (.freeChunks chunkStart chunks) ↔
      (Call.freeChunks chunkStart chunks).Refused p := by
  change (∃ k q, freeChunks p chunkStart chunks k = some q ∧ _) ↔ chunks = 0 ∨ chunkStart = null ∨
    BadChunk p chunkStart ∨ InVain p chunkStart chunks
  by_cases hnone : chunks = 0 ∨ chunkStart = null
  · refine iff_of_true ⟨0, p, by rw [freeChunks, if_pos hnone], rfl, rfl⟩ ?_
    exact hnone.imp id Or.inl
  · obtain ⟨hzero, hnull⟩ := not_or.mp hnone
    rw [or_iff_right hzero, or_iff_right hnull]
    by_cases hbad : BadChunk p chunkStart
    · exact iff_of_true ⟨0, p, by rw [freeChunks, if_neg hnone, if_pos hbad], rfl, rfl⟩
        (Or.inl hbad)
    · rw [or_iff_right hbad]
      unfold InVain
      by_cases hn : chunks.toNat < 2 ^ 32
      · obtain ⟨hused, hsize⟩ := clearFrames_fields p (chunkFrame p chunkStart) chunks.toNat
        have hloop := fun k => @clearLoop_eq p (chunkFrame p chunkStart) _ hn k _
          (Nat.zero_le _)
        constructor
        · rintro ⟨k, q, hq, hbitmap, hbytes⟩
          rw [freeChunks, if_neg hnone, if_neg hbad] at hq
          obtain ⟨q', hq', hq⟩ := Option.bind_eq_some_iff.mp hq
          obtain rfl := (hloop k).1 q' hq'
          cases hq
          dsimp only at hbitmap hbytes
          rw [hused, hsize] at hbytes
          exact ⟨hn, (sub_eq_self_iff _ _).mp hbytes, clearFrames_bitmap_eq_iff.mp hbitmap⟩
        · rintro ⟨-, hbytes, hclear⟩
          obtain ⟨k, hk⟩ := freeChunks_eq (p := p) hn chunkStart
          refine ⟨k, _, hk, ?_, ?_⟩
          · rw [ChunkPool.freeChunks, if_neg hnone, if_neg hbad]
            exact clearFrames_bitmap_eq_iff.mpr hclear
          · rw [ChunkPool.freeChunks, if_neg hnone, if_neg hbad]
            exact (sub_eq_self_iff _ _).mpr hbytes
      · refine iff_of_false ?_ fun h => hn h.1
        rintro ⟨k, q, hq, -, -⟩
        rw [freeChunks, if_neg hnone, if_neg hbad] at hq
        change (clearLoop _ chunks k 0 p).bind _ = _ at hq
        rw [clearLoop_wide (by omega), Option.bind_none] at hq
        contradiction

/-- Every pool, address and number of chunks: a call that names no chunks in use changes nothing if
and only if the address is one that is refused. -/
theorem bad_frees_iff (hsize : p.chunkSize ≠ 0) (call : Call) :
    (¬ call.Denotes p → Unchanged p call) ↔ call.Denotes p ∨ call.Refused p := by
  have hunchanged : Unchanged p call ↔ call.Refused p := by
    cases call with
    | freeChunk chunk => exact unchanged_freeChunk_iff hsize
    | freeChunks chunkStart chunks => exact unchanged_freeChunks_iff
  rw [hunchanged]
  exact ⟨fun h => or_iff_not_imp_left.mpr h, fun h => or_iff_not_imp_left.mp h⟩

end Frees

section Pools

open PoolSearch (newPool newPool_created)

/-- An address in the middle of a chunk is refused, although the run from it is in use. -/
theorem bad_frees_iff_misaligned :
    Unchanged (setFrames (newPool 0x20000) 0 4) (.freeChunks 0x100010 2) :=
  (bad_frees_iff (by decide) (.freeChunks 0x100010 2)).mpr
    (Or.inr (Or.inr (Or.inr (Or.inl (by decide))))) (by
      rintro ⟨-, f, haddr, -⟩
      change 0x100010 = 0x100000 + 4096 * f at haddr
      omega)

/-- The end of a new pool is accepted: what is in use becomes less than nothing. -/
theorem freeChunk_accepts_end :
    poolCreate (fun _ => 0) 4096 0x20000 0x100000 = .ok (newPool 0x20000) ∧
      ¬ (Call.freeChunk 0x120000).Denotes (newPool 0x20000) ∧
      (freeChunk (newPool 0x20000) 0x120000).used = -4096 ∧
      ¬ (¬ (Call.freeChunk 0x120000).Denotes (newPool 0x20000) →
        Unchanged (newPool 0x20000) (.freeChunk 0x120000)) := by
  have hused : (freeChunk (newPool 0x20000) 0x120000).used = -4096 := by decide
  have hend : ¬ (Call.freeChunk 0x120000).Denotes (newPool 0x20000) := by
    rintro ⟨-, f, haddr, hin, -⟩
    change 0x120000 = 0x100000 + 4096 * f at haddr
    change f + 1 ≤ 32 at hin
    omega
  refine ⟨newPool_created 0x20000 (by decide), hend, hused, fun h => ?_⟩
  obtain ⟨k, q, hq, -, hkept⟩ := h hend
  cases hq
  rw [hused] at hkept
  exact absurd hkept (by decide)

end Pools

end ReduceOS.PoolFree
