import ReduceOS.ChunkPool

/-!
A chunk pool with its books: the chunks that were taken out of it and those that were given
back. The books are right when what was taken is what was given back and what is still held.
-/
namespace ReduceOS.ChunkLedger

open Machine
open ChunkPool (Pool SameChunks Held Inv chunkAddress)

structure Ledger where
  state : ChunkPool.State
  taken : List Addr
  returned : List Addr

/-- `pool_allocateChunk`, where a caller that gets no chunk panics. -/
def Ledger.take (l : Ledger) : Except Panic (Addr × Ledger) :=
  let chunk := (ChunkPool.allocateChunk l.state.pool).1
  if chunk = null then .error .outOfMemory
  else .ok (chunk, ⟨l.state.step .allocateChunk, chunk :: l.taken, l.returned⟩)

def Ledger.give (l : Ledger) (chunk : Addr) : Ledger :=
  ⟨l.state.step (.freeChunk chunk), l.taken, chunk :: l.returned⟩

def Ledger.giveAll (l : Ledger) (chunks : List Addr) : Ledger := chunks.foldl Ledger.give l

def IsChunk (p : Pool) (chunk : Addr) : Prop :=
  ∃ f < p.chunks, chunk = chunkAddress p (BitVec.ofNat 32 f)

/-- The chunks of the pool `p` that are held are those in use, and what was taken was given back
or is held. -/
structure Books (p : Pool) (l : Ledger) (held : List Addr) : Prop where
  same : SameChunks p l.state.pool
  inv : Inv l.state
  live : l.state.live.Perm (held.map fun chunk => (chunk, 1))
  balanced : l.taken.Perm (l.returned ++ held)

variable {p : Pool} {l : Ledger} {held : List Addr} {chunk : Addr}

theorem Books.isChunk (h : Books p l held) (hc : chunk ∈ held) : IsChunk p chunk := by
  have hlive : (chunk, 1) ∈ l.state.live := h.live.mem_iff.mpr (List.mem_map_of_mem hc)
  obtain ⟨f, hf⟩ := h.inv.held _ hlive
  refine ⟨f, ?_, ?_⟩
  · simpa [h.same.chunks] using hf.frame_lt
  · simpa [h.same.chunkAddress] using hf.address

theorem Books.nodup (h : Books p l held) : held.Nodup := by
  have hpos := h.inv.valid.shape.chunkSize_pos
  have hlive : l.state.live.Nodup := by
    refine h.inv.apart.imp_of_mem ?_
    intro r r' hr _ hapart heq
    obtain ⟨f, hf⟩ := h.inv.held r hr
    have hsize := Nat.mul_pos hpos hf.pos
    subst heq
    unfold ChunkPool.Apart at hapart
    omega
  exact (h.live.nodup_iff.mp hlive).of_map _

theorem Books.take {l' : Ledger} (h : Books p l held) (htake : l.take = .ok (chunk, l')) :
    Books p l' (chunk :: held) := by
  unfold Ledger.take at htake
  dsimp only at htake
  split_ifs at htake with hnull
  obtain ⟨rfl, rfl⟩ := Prod.mk.inj (Except.ok.inj htake)
  refine ⟨?_, @Inv.step _ h.inv .allocateChunk trivial trivial, ?_, ?_⟩
  · rcases ChunkPool.allocateChunk_cases h.inv.valid with ⟨-, hidle⟩ | ⟨f, -, htakes⟩
    · exact h.same.trans hidle.same
    · exact h.same.trans htakes.same
  · simpa [ChunkPool.State.step, ChunkPool.State.hand, hnull] using
      h.live.cons ((ChunkPool.allocateChunk l.state.pool).1, 1)
  · exact (h.balanced.cons _).trans List.perm_middle.symm

def Ledger.free (l : Ledger) : ℕ := l.state.pool.chunks - ChunkPool.markedCount l.state.pool

theorem exists_unmarked {p : Pool} (h : ChunkPool.markedCount p ≠ p.chunks) :
    ∃ f < p.chunks, ChunkPool.marked p f = false := by
  by_contra hnone
  have hall : ∀ f ∈ Finset.range p.chunks, ChunkPool.marked p f = true := by
    intro f hf
    by_contra hfree
    exact hnone ⟨f, Finset.mem_range.mp hf, Bool.eq_false_iff.mpr hfree⟩
  apply h
  rw [ChunkPool.markedCount, Finset.filter_true_of_mem hall, Finset.card_range]

/-- Where the bitmap has whole words, a chunk that is not marked is found. -/
theorem findFirstFrame_of_unmarked {p : Pool} {f : ℕ} (hbound : p.chunks < 2 ^ 30)
    (hwords : p.chunks % 32 = 0) (hf : f < p.chunks) (hfree : ChunkPool.marked p f = false) :
    ChunkPool.findFirstFrame p ≠ -enomem := by
  have hbit : f % 32 < 32 := Nat.mod_lt f (by decide)
  unfold ChunkPool.findFirstFrame ChunkPool.findFrame
  cases hscan : Bitmap.scan 32 (p.chunks / 32) (fun i => decide (p.bitmap i = 0xFFFFFFFF))
    fun i bit => decide (p.bitmap i &&& 1#32 <<< bit = 0) && true with
  | none =>
    unfold ChunkPool.marked Bitmap.test at hfree
    have hnotfull : decide (p.bitmap ((f / 32 : ℕ) : ℤ) = 0xFFFFFFFF) = false := by
      rw [decide_eq_false_iff_not]
      intro hfull
      have hall : (0xFFFFFFFF : BitVec 32) = BitVec.allOnes 32 := by decide
      rw [hfull, hall, BitVec.getLsbD_allOnes, decide_eq_true hbit] at hfree
      contradiction
    have hnot := Bitmap.scan_eq_none hscan (f / 32) (f % 32) (by omega) hbit hnotfull
    rw [Bool.and_true, decide_eq_false_iff_not, Bitmap.and_mask_eq_zero_iff hbit] at hnot
    exact absurd hfree hnot
  | some found =>
    obtain ⟨i, bit⟩ := found
    obtain ⟨hi, hlt, -⟩ := Bitmap.scan_eq_some hscan
    intro heq
    have hnat := congrArg BitVec.toNat heq
    have henomem : (-enomem : CInt).toNat = 2 ^ 32 - 12 := by decide
    simp only [BitVec.toNat_ofNat, henomem] at hnat
    omega

/-- A pool in a place of its own, with whole words in its bitmap, gives a chunk unless all are
marked. -/
theorem allocateChunk_eq_null_iff {p : Pool} (hp : ChunkPool.Valid p) (hplace : p.startingAddr ≠ 0)
    (hwords : p.chunks % 32 = 0) :
    (ChunkPool.allocateChunk p).1 = null ↔ ChunkPool.markedCount p = p.chunks := by
  have hpos := hp.shape.chunkSize_pos
  have hle := ChunkPool.markedCount_le p
  have hused : p.used ≤ p.allocated := by
    rw [BitVec.le_def, hp.counted, hp.shape.allocated_eq]
    exact Nat.mul_le_mul_left _ hle
  have hleft : (p.allocated - p.used).toNat =
      p.chunkSize.toNat * (p.chunks - ChunkPool.markedCount p) := by
    rw [BitVec.toNat_sub_of_le hused, hp.counted, hp.shape.allocated_eq, Nat.mul_sub]
  constructor
  · intro hnull
    by_contra hcount
    obtain ⟨f, hf, hfree⟩ := exists_unmarked hcount
    have hspace : ¬p.allocated - p.used < p.chunkSize := by
      rw [BitVec.lt_def, hleft, Nat.not_lt]
      exact Nat.le_mul_of_pos_right _ (by omega)
    have hfound := findFirstFrame_of_unmarked hp.shape.chunks_lt hwords hf hfree
    obtain ⟨g, hg, hlt, -⟩ := ChunkPool.findFrame_spec hfound
    have haddr := ChunkPool.chunkAddress_toNat hp.shape (f := g) (by omega)
    have hframe : ChunkPool.findFirstFrame p = BitVec.ofNat 32 g := hg
    have hzero : ChunkPool.chunkAddress p (ChunkPool.findFirstFrame p) = null := by
      simp only [ChunkPool.allocateChunk, hspace, hfound, if_false] at hnull
      exact hnull
    rw [← hframe, hzero] at haddr
    apply hplace
    apply BitVec.eq_of_toNat_eq
    have hnat : null.toNat = 0 := rfl
    simp
    omega
  · intro hcount
    have hspace : p.allocated - p.used < p.chunkSize := by
      rw [BitVec.lt_def, hleft, hcount, Nat.sub_self, Nat.mul_zero]
      exact hpos
    simp [ChunkPool.allocateChunk, hspace]

theorem Books.take_iff (h : Books p l held) (hplace : p.startingAddr ≠ 0)
    (hwords : p.chunks % 32 = 0) : (∃ r, l.take = .ok r) ↔ 0 < l.free := by
  have hle := ChunkPool.markedCount_le l.state.pool
  have hnull := allocateChunk_eq_null_iff h.inv.valid (h.same.startingAddr ▸ hplace)
    (h.same.chunks ▸ hwords)
  rw [Ledger.free, Nat.sub_pos_iff_lt, Nat.lt_iff_le_and_ne]
  by_cases hfull : (ChunkPool.allocateChunk l.state.pool).1 = null
  · simp [Ledger.take, hfull, hnull.mp hfull]
  · have hne : ChunkPool.markedCount l.state.pool ≠ l.state.pool.chunks := fun hcount =>
      hfull (hnull.mpr hcount)
    simp [Ledger.take, hfull, hle, hne]

theorem Books.take_free {l' : Ledger} (h : Books p l held) (htake : l.take = .ok (chunk, l')) :
    l'.free = l.free - 1 := by
  unfold Ledger.take at htake
  dsimp only at htake
  split_ifs at htake with hnull
  obtain ⟨rfl, rfl⟩ := Prod.mk.inj (Except.ok.inj htake)
  rcases ChunkPool.allocateChunk_cases h.inv.valid with ⟨heq, -⟩ | ⟨f, -, htakes⟩
  · exact absurd heq hnull
  · have hcount := htakes.markedCount
    have hchunks := htakes.same.chunks
    simp only [Ledger.free, ChunkPool.State.step, ChunkPool.State.hand, hnull, if_false]
    omega

theorem Books.give (h : Books p l (chunk :: held)) : Books p (l.give chunk) held := by
  have hlive : (chunk, 1) ∈ l.state.live := h.live.mem_iff.mpr (by simp)
  refine ⟨?_, @Inv.step _ h.inv (.freeChunk chunk) hlive trivial, ?_, ?_⟩
  · obtain ⟨f, hf⟩ := h.inv.held _ hlive
    rcases ChunkPool.freeChunk_cases h.inv.valid hf with hidle | hgives
    · exact h.same.trans hidle.same
    · exact h.same.trans hgives.same
  · simpa [Ledger.give, ChunkPool.State.step] using h.live.erase (chunk, 1)
  · simpa [Ledger.give] using h.balanced.trans List.perm_middle

theorem Books.perm {held' : List Addr} (h : Books p l held) (hperm : held.Perm held') :
    Books p l held' :=
  ⟨h.same, h.inv, h.live.trans (hperm.map _), h.balanced.trans (hperm.append_left _)⟩

theorem Books.giveAll {chunks : List Addr} (h : Books p l (chunks ++ held)) :
    Books p (l.giveAll chunks) held := by
  induction chunks generalizing l with
  | nil => exact h
  | cons chunk chunks ih => exact ih h.give

theorem Ledger.take_entries {l' : Ledger} (htake : l.take = .ok (chunk, l')) :
    l'.taken = chunk :: l.taken ∧ l'.returned = l.returned := by
  unfold Ledger.take at htake
  dsimp only at htake
  split_ifs at htake with hnull
  obtain ⟨rfl, rfl⟩ := Prod.mk.inj (Except.ok.inj htake)
  exact ⟨rfl, rfl⟩

@[simp] theorem Ledger.giveAll_taken (l : Ledger) (chunks : List Addr) :
    (l.giveAll chunks).taken = l.taken := by
  induction chunks generalizing l with
  | nil => rfl
  | cons chunk chunks ih => exact ih (l.give chunk)

@[simp] theorem Ledger.giveAll_returned (l : Ledger) (chunks : List Addr) :
    (l.giveAll chunks).returned = chunks.reverse ++ l.returned := by
  induction chunks generalizing l with
  | nil => rfl
  | cons chunk chunks ih =>
    rw [List.reverse_cons, List.append_assoc]
    exact ih (l.give chunk)

/-- The books of a pool from which nothing was taken. -/
theorem Books.empty (hinv : Inv ⟨p, []⟩) : Books p ⟨⟨p, []⟩, [], []⟩ [] :=
  ⟨.rfl', hinv, .refl _, .refl _⟩

def newPool (chunkSize n : BitVec 64) (bitmap : ℤ → BitVec 32) (start : Addr) : Pool :=
  ⟨ChunkPool.cleared bitmap (n * chunkSize / chunkSize).toNat, chunkSize, start, n * chunkSize, 0,
    []⟩

theorem poolCreate_newPool (chunkSize n : BitVec 64) (bitmap : ℤ → BitVec 32) (start : Addr)
    (hmod : n * chunkSize % chunkSize = 0) :
    ChunkPool.poolCreate bitmap chunkSize (n * chunkSize) start =
      .ok (newPool chunkSize n bitmap start) := by
  simp [ChunkPool.poolCreate, hmod, newPool]

section NewPool

variable {chunkSize n : BitVec 64} {bitmap : ℤ → BitVec 32} {start c : Addr}

theorem Books.newPool (hmod : n * chunkSize % chunkSize = 0) (hpos : 0 < chunkSize)
    (hcount : (n * chunkSize / chunkSize).toNat = n.toNat) (hsmall : n.toNat < 2 ^ 30)
    (hroom : start.toNat + (n * chunkSize).toNat ≤ 2 ^ 64) :
    Books (newPool chunkSize n bitmap start)
      ⟨⟨ChunkLedger.newPool chunkSize n bitmap start, []⟩, [], []⟩ [] := by
  have hcreate := poolCreate_newPool chunkSize n bitmap start hmod
  exact .empty (ChunkPool.inv_create hcreate hpos (hcount ▸ hsmall) hroom)

/-- The chunks of a new pool lie one after the other. -/
theorem isChunk_toNat (hmod : n * chunkSize % chunkSize = 0) (hpos : 0 < chunkSize)
    (hcount : (n * chunkSize / chunkSize).toNat = n.toNat) (hsmall : n.toNat < 2 ^ 30)
    (hroom : start.toNat + (n * chunkSize).toNat ≤ 2 ^ 64)
    (hc : IsChunk (newPool chunkSize n bitmap start) c) :
    ∃ f < n.toNat, c.toNat = start.toNat + chunkSize.toNat * f := by
  obtain ⟨f, hf, rfl⟩ := hc
  have hbooks := @Books.newPool chunkSize n bitmap start hmod hpos hcount hsmall hroom
  have hchunks : (ChunkLedger.newPool chunkSize n bitmap start).chunks = n.toNat := hcount
  exact ⟨f, hchunks ▸ hf, ChunkPool.chunkAddress_toNat hbooks.inv.valid.shape hf⟩

end NewPool

/-- The physical addresses of the chunks of a pool, as `mem_getPhysicalAddress` gives them.
Different chunks are at different multiples of `2 ^ k` below 4 GiB. -/
structure Physical (p : Pool) (k : ℕ) where
  address : Addr → Addr
  aligned : ∀ c, IsChunk p c → (address c).toNat % 2 ^ k = 0
  below : ∀ c, IsChunk p c → (address c).toNat < 2 ^ 32
  distinct : ∀ c c', IsChunk p c → IsChunk p c' → address c = address c' → c = c'

section Physical

variable {k : ℕ} (m : Physical p k) {b : Addr}

def chunksOf (p : Pool) : List Addr :=
  (List.range p.chunks).map fun f => chunkAddress p (BitVec.ofNat 32 f)

def Physical.link (a : Addr) : BitVec 32 := (m.address a >>> k).setWidth 32

def Physical.chunkAt (address : Addr) : Option Addr :=
  (chunksOf p).find? fun c => m.address c = address

theorem mem_chunksOf_iff : b ∈ chunksOf p ↔ IsChunk p b := by
  simp [chunksOf, IsChunk, eq_comm]

theorem Physical.chunkAt_address (hb : IsChunk p b) : m.chunkAt (m.address b) = some b := by
  obtain ⟨c, hc⟩ : ∃ c, m.chunkAt (m.address b) = some c := Option.isSome_iff_exists.mp
    (List.find?_isSome.mpr ⟨b, mem_chunksOf_iff.mpr hb, by simp⟩)
  have hsame := List.find?_some hc
  have hchunk := mem_chunksOf_iff.mp (List.mem_of_find?_eq_some hc)
  rw [hc, m.distinct c b hchunk hb (by simpa using hsame)]

theorem Physical.link_shift (hk : k ≤ 32) (hb : IsChunk p b) :
    ((m.link b).setWidth (32 - k)).setWidth 64 <<< k = m.address b := by
  have haligned := m.aligned b hb
  have hbelow := m.below b hb
  obtain ⟨y, hy⟩ := Nat.dvd_of_mod_eq_zero haligned
  have hpow : 2 ^ 32 = 2 ^ k * 2 ^ (32 - k) := by
    rw [← Nat.pow_add]
    congr 1
    omega
  have hpos : 0 < 2 ^ k := Nat.two_pow_pos k
  have hlt : y < 2 ^ (32 - k) := by
    rw [hy, hpow] at hbelow
    exact Nat.lt_of_mul_lt_mul_left hbelow
  have hsmall : 2 ^ (32 - k) ≤ 2 ^ 32 := Nat.pow_le_pow_right (by decide) (by omega)
  apply BitVec.eq_of_toNat_eq
  simp only [Physical.link, BitVec.toNat_shiftLeft, BitVec.toNat_setWidth,
    BitVec.toNat_ushiftRight, Nat.shiftRight_eq_div_pow, Nat.shiftLeft_eq, hy,
    Nat.mul_div_cancel_left y hpos]
  rw [Nat.mod_eq_of_lt (show y < 2 ^ 32 by omega), Nat.mod_eq_of_lt hlt,
    Nat.mod_eq_of_lt (show y < 2 ^ 64 by omega), Nat.mul_comm, Nat.mod_eq_of_lt (by omega)]

end Physical

end ReduceOS.ChunkLedger
