import ReduceOS.LiballocHeap

/-!
`malloc` of liballoc. It looks for a gap from the best bet on and then from the first major on, so
it asks for new pages only when no major has a gap with the room, and it takes the first such gap of
the major it comes to.
-/
namespace ReduceOS.LiballocMalloc

open Machine Liballoc LiballocHeap LinkedSequence Packing

structure LawfulHooks (σ : Type) extends Hooks σ where
  holds : σ → List (ℕ × ℕ) → Prop
  holds_perm : ∀ p l l', List.Perm l l' → holds p l → holds p l'
  alloc_spec : ∀ p l n a p', holds p l → 0 < n → n < 2 ^ 20 → alloc p n = some (a, p') →
    a = 0 ∧ holds p' l ∨ a ≠ 0 ∧ a + n * pageSize ≤ 2 ^ 64 ∧
      (∀ r ∈ l, r.1 + r.2 * pageSize ≤ a ∨ a + n * pageSize ≤ r.1) ∧ holds p' ((a, n) :: l)
  free_spec : ∀ p l a n p', holds p ((a, n) :: l) → free p a n = some p' → holds p' l

structure Heap {σ : Type} (L : LawfulHooks σ) (s : State σ) (h : List Chunk) : Prop
    extends HeapAt s h where
  full : ∀ c ∈ h, c.blocks ≠ []
  pages : L.holds s.pages (h.map Chunk.run)

/-- A request that the 32-bit sizes of liballoc have room for, with its headers and a page. -/
def Request (reqSize : ℕ) : Prop := reqSize + 4208 ≤ 2 ^ 32

variable {σ : Type} {L : LawfulHooks σ} {s s' : State σ} {c d : Chunk} {b : Block}
  {h l r : List Chunk} {xs ys : List Block} {size reqSize k n bestSize p : ℕ} {startedBet : Bool}

theorem adjusted_of_request (hreq : Request reqSize) : adjusted reqSize = reqSize + 32 := by
  unfold Request at hreq
  unfold adjusted word64 alignment alignInfo
  omega

theorem pagesFor_spec (hsize : size + 4176 ≤ 2 ^ 32) :
    0 < pagesFor size ∧ pagesFor size * pageSize < 2 ^ 32 ∧
      majorBytes + (size + minorBytes) ≤ pagesFor size * pageSize := by
  have hst : word32 (word32 (word32 size + majorBytes) + minorBytes) = size + 80 := by
    unfold word32 majorBytes minorBytes
    omega
  unfold pagesFor
  dsimp only
  rw [hst]
  unfold pageSize pageCount majorBytes minorBytes
  split_ifs <;> omega

attribute [local irreducible] pagesFor

def freshMajor (size : ℕ) : Major :=
  ⟨0, 0, pagesFor size, word32 (pagesFor size * pageSize), majorBytes, 0⟩

def freshChunk (a size : ℕ) : Chunk := ⟨a, pagesFor size, []⟩

@[simp]
theorem freshChunk_start (a size : ℕ) : (freshChunk a size).start = a := rfl

@[simp]
theorem freshChunk_blocks (a size : ℕ) : (freshChunk a size).blocks = [] := rfl

@[simp]
theorem freshChunk_base (a size : ℕ) : (freshChunk a size).base = a + majorBytes := rfl

@[simp]
theorem freshChunk_stop (a size : ℕ) :
    (freshChunk a size).stop = a + pagesFor size * pageSize := rfl

theorem freshChunk_fits (hsize : size + 4176 ≤ 2 ^ 32) (a : ℕ) :
    (freshChunk a size).Fits (size + minorBytes) := by
  obtain ⟨-, -, hroom⟩ := pagesFor_spec hsize
  refine ⟨[], [], rfl, ?_⟩
  rw [endOf_nil, headStart_nil, freshChunk_base, freshChunk_stop]
  omega

section Free

theorem free_eq (hat : ChunkAt s c) : sub32 (s.majors c.start).size (s.majors c.start).usage =
    c.pages * pageSize - (majorBytes + taken Block.start Block.stop c.blocks) := by
  have hfull := hat.packed.taken_le
  have hsize := hat.size_lt
  unfold Chunk.base Chunk.stop at hfull
  rw [hat.size, hat.usage]
  exact sub32_of_le (by omega) hsize

/-- A major that has less free than is asked for has no gap with the room either. -/
theorem not_fits_of_free (hat : ChunkAt s c) (hneed : size + minorBytes < 2 ^ 64)
    (hlt : sub32 (s.majors c.start).size (s.majors c.start).usage < word64 (size + minorBytes)) :
    ¬ c.Fits (size + minorBytes) := by
  intro hfits
  have hroom := hat.packed.taken_add_le hfits
  rw [free_eq hat, word64_of_lt hneed] at hlt
  unfold Chunk.base Chunk.stop at hroom
  omega

end Free

section Fields

/-- The heap does not depend on what the hooks work on, nor on the counts of warnings. -/
theorem heapAt_congr (hat : HeapAt s h) (hmajors : s'.majors = s.majors)
    (hminors : s'.minors = s.minors) (hbytes : s'.bytes = s.bytes)
    (hroot : s'.memRoot = s.memRoot) (hbest : s'.bestBet = 0 ∨ s'.bestBet ∈ starts h)
    (hallocated : s'.allocated = s.allocated) (hinuse : s'.inuse = s.inuse) : HeapAt s' h where
  majors := by
    rw [hmajors]
    exact hat.majors
  root := hroot.trans hat.root
  best := hbest
  chunks c hc := (hat.chunks c hc).congr
    ⟨fun a _ _ => by rw [hmajors]; exact ⟨rfl, rfl, rfl, rfl⟩, fun a _ _ => by rw [hminors],
      fun a _ _ => by rw [hbytes]⟩
  apart := hat.apart
  allocated := hallocated.trans hat.allocated
  inuse := hinuse.trans hat.inuse

end Fields

section NewMajor

variable {a : ℕ} {pages : σ}

/-- A run of pages that no major of the heap has a page of. -/
structure Fresh (h : List Chunk) (a size : ℕ) : Prop where
  ne_zero : a ≠ 0
  stop_le : a + pagesFor size * pageSize ≤ 2 ^ 64
  apart : ∀ c ∈ h, c.Apart (freshChunk a size)

theorem fresh_of_hook (hheap : L.holds s.pages (h.map Chunk.run)) (hsize : size + 4176 ≤ 2 ^ 32)
    (halloc : L.alloc s.pages (pagesFor size) = some (a, pages)) (ha : a ≠ 0) :
    Fresh h a size ∧ L.holds pages ((freshChunk a size).run :: h.map Chunk.run) := by
  obtain ⟨hpos, hlt, -⟩ := pagesFor_spec hsize
  have hpages : pagesFor size < 2 ^ 20 := by
    unfold pageSize at hlt
    omega
  rcases L.alloc_spec _ _ _ _ _ hheap hpos hpages halloc with ⟨rfl, -⟩ | ⟨-, hstop, hapart, hholds⟩
  · exact absurd rfl ha
  · refine ⟨⟨ha, hstop, fun c hc => ?_⟩, hholds⟩
    have hrun := hapart c.run (List.mem_map_of_mem hc)
    unfold Chunk.run at hrun
    unfold Chunk.Apart
    rw [freshChunk_start, freshChunk_stop]
    exact hrun

theorem allocateNewPage_eq (halloc : L.alloc s.pages (pagesFor size) = some (a, pages)) :
    allocateNewPage L.toHooks s size =
      if a = 0 then some (0, { s with pages := pages, warningCount := s.warningCount + 1 })
      else some (a, { s with
        majors := Function.update s.majors a (freshMajor size)
        allocated := word64 (s.allocated + word32 (pagesFor size * pageSize))
        pages := pages }) := by
  unfold allocateNewPage
  dsimp only [bind, Option.bind]
  rw [halloc]
  dsimp only
  split_ifs <;> rfl

theorem allocateNewPage_none (halloc : L.alloc s.pages (pagesFor size) = none) :
    allocateNewPage L.toHooks s size = none := by
  unfold allocateNewPage
  dsimp only [bind, Option.bind]
  rw [halloc]

/-- The new major is in memory, and the others still are. -/
theorem chunks_fresh (hchunks : ∀ c ∈ h, ChunkAt s c) (hfresh : Fresh h a size)
    (hsize : size + 4176 ≤ 2 ^ 32) (hmajor : (s'.majors a).pages = pagesFor size ∧
      (s'.majors a).size = word32 (pagesFor size * pageSize) ∧
      (s'.majors a).usage = majorBytes ∧ (s'.majors a).first = 0)
    (hothers : ∀ x, x ≠ a → (s'.majors x).pages = (s.majors x).pages ∧
      (s'.majors x).size = (s.majors x).size ∧ (s'.majors x).usage = (s.majors x).usage ∧
      (s'.majors x).first = (s.majors x).first)
    (hminors : s'.minors = s.minors) (hbytes : s'.bytes = s.bytes) :
    ∀ c ∈ h ++ [freshChunk a size], ChunkAt s' c := by
  obtain ⟨hpos, hlt, hroom⟩ := pagesFor_spec hsize
  intro c hc
  rcases List.mem_append.mp hc with hc | hc
  · have hat := hchunks c hc
    have hapart := hfresh.apart c hc
    have hrun : 0 < pagesFor size * pageSize := Nat.mul_pos hpos (by decide)
    refine hat.congr ⟨fun x hlo hhi => hothers x ?_, fun x _ _ => by rw [hminors],
      fun x _ _ => by rw [hbytes]⟩
    unfold Chunk.Apart at hapart
    rw [freshChunk_start, freshChunk_stop] at hapart
    omega
  · rw [List.mem_singleton.mp hc]
    obtain ⟨hpages, hmsize, husage, hfirst⟩ := hmajor
    rw [word32_of_lt hlt] at hmsize
    refine ⟨Nat.pos_of_ne_zero hfresh.ne_zero, ?_, hlt, hpages, hmsize, husage, hfirst,
      Linked.nil, ?_, List.forall_mem_nil _⟩
    · rw [freshChunk_stop]
      exact hfresh.stop_le
    · rw [freshChunk_stop, freshChunk_base, freshChunk_blocks]
      unfold Packed
      omega

theorem totalSize_fresh (a size : ℕ) (h : List Chunk) :
    totalSize (h ++ [freshChunk a size]) = totalSize h + pagesFor size * pageSize := by
  simp [totalSize, freshChunk]

theorem totalInuse_fresh (a size : ℕ) (h : List Chunk) :
    totalInuse (h ++ [freshChunk a size]) = totalInuse h := by
  simp [totalInuse, freshChunk, blocksSize]

theorem appendMajor_spec (hat : HeapAt s (l ++ [c])) (hfresh : Fresh (l ++ [c]) a size)
    (hsize : size + 4176 ≤ 2 ^ 32)
    (halloc : L.alloc s.pages (pagesFor size) = some (a, pages)) :
    ∃ s', appendMajor L.toHooks s c.start size = some (a, s') ∧
      HeapAt s' (l ++ [c] ++ [freshChunk a size]) ∧ s'.bytes = s.bytes ∧ s'.pages = pages := by
  obtain ⟨hpos, hlt, hroom⟩ := pagesFor_spec hsize
  have hc : c ∈ l ++ [c] := List.mem_append_right l List.mem_cons_self
  have hne : ∀ d ∈ l ++ [c], d.start ≠ a := by
    intro d hd
    have hdat := hat.chunks d hd
    have hapart := hfresh.apart d hd
    have hbase := hdat.base_le
    unfold Chunk.Apart at hapart
    rw [freshChunk_start, freshChunk_stop] at hapart
    have hrun : 0 < pagesFor size * pageSize := Nat.mul_pos hpos (by decide)
    unfold Chunk.base majorBytes at hbase
    omega
  have hnotin : a ∉ starts (l ++ [c]) := by
    intro hmem
    obtain ⟨d, hd, heq⟩ := List.mem_map.mp hmem
    exact hne d hd heq
  have hlast : lastOr 0 (starts (l ++ [c])) = c.start := by simp [starts]
  have hstarts : starts (l ++ [c] ++ [freshChunk a size]) = starts (l ++ [c]) ++ a :: [] := by
    simp [starts, freshChunk]
  have hca := hne c hc
  unfold appendMajor
  rw [allocateNewPage_eq halloc, if_neg hfresh.ne_zero]
  dsimp only [bind, Option.bind]
  rw [if_neg hfresh.ne_zero]
  refine ⟨_, rfl, ⟨?_, ?_, ?_, ?_, ?_, ?_, ?_⟩, rfl, rfl⟩
  · rw [hstarts]
    have hlinked : Linked 0 (fun x => (s.majors x).next) (fun x => (s.majors x).prev)
        (starts (l ++ [c]) ++ []) := by
      rw [List.append_nil]
      exact hat.majors
    refine hlinked.insert (by rwa [List.append_nil]) hfresh.ne_zero ?_ ?_ (fun x hx => ?_)
      (fun x hx => ?_)
    · simp [State.setMajor, Function.update_apply, hca.symm, freshMajor]
    · rw [hlast]
      simp [State.setMajor]
    · rw [List.append_nil] at hx
      have hxa : x ≠ a := ne_of_mem_of_not_mem hx hnotin
      rw [hlast]
      by_cases hxc : x = c.start
      · subst hxc
        simp [State.setMajor, hxa]
      · simp [State.setMajor, hxa, hxc]
    · rw [List.append_nil] at hx
      have hxa : x ≠ a := ne_of_mem_of_not_mem hx hnotin
      have hx0 : x ≠ 0 := ne_of_mem_of_not_mem hx hat.majors.nonnull
      by_cases hxc : x = c.start
      · subst hxc
        simp [State.setMajor, hxa, hx0]
      · simp [State.setMajor, hxa, hxc, hx0]
  · rw [hstarts, headOr_append (by simp [starts])]
    exact hat.root
  · rw [hstarts]
    rcases hat.best with hbest | hbest
    · exact Or.inl hbest
    · exact Or.inr (List.mem_append_left _ hbest)
  · refine chunks_fresh hat.chunks hfresh hsize ?_ (fun x hx => ?_) rfl rfl
    · simp [State.setMajor, Function.update_apply, hca.symm, freshMajor]
    · by_cases hxc : x = c.start
      · subst hxc
        simp [State.setMajor, hx]
      · simp [State.setMajor, hx, hxc]
  · refine List.pairwise_append.mpr ⟨hat.apart, List.pairwise_singleton _ _, fun d hd e he => ?_⟩
    rw [List.mem_singleton.mp he]
    exact hfresh.apart d hd
  · rw [totalSize_fresh]
    change word64 (s.allocated + word32 (pagesFor size * pageSize)) = _
    rw [hat.allocated, word32_of_lt hlt]
    exact Nat.mod_add_mod _ _ _
  · rw [totalInuse_fresh]
    exact hat.inuse

end NewMajor

section Results

variable (L)

def withInfo (bytes : ℕ → BitVec 8) (b : Block) : ℕ → BitVec 8 :=
  Function.update bytes (b.payload - alignInfo)
      (BitVec.ofNat 8 (b.payload - (b.start + minorBytes)))

structure PlacedIn (s : State σ) (h : List Chunk) (size reqSize p : ℕ) (s' : State σ)
    (l : List Chunk) (c : Chunk) (r : List Chunk) (xs ys : List Block) (b : Block) : Prop where
  split : h = l ++ c :: r
  first : IsFirstFit Block.start Block.stop c.base c.stop (size + minorBytes) xs ys
  gap : Gap c xs ys b
  start : b.start = endOf Block.stop c.base xs
  size : b.size = size
  reqSize : b.reqSize = reqSize
  pointer : p = b.payload
  heap : HeapAt s' (l ++ c.put xs ys b :: r)
  bytes : s'.bytes = withInfo s.bytes b
  pages : s'.pages = s.pages

def newBlock (a size reqSize : ℕ) : Block := ⟨a + majorBytes, size, reqSize⟩

structure PlacedNew (s : State σ) (h : List Chunk) (size reqSize p : ℕ) (s' : State σ) (a : ℕ) :
    Prop where
  hook : L.alloc s.pages (pagesFor size) = some (a, s'.pages)
  fresh : Fresh h a size
  pointer : p = (newBlock a size reqSize).payload
  heap : HeapAt s' (h ++ [(freshChunk a size).put [] [] (newBlock a size reqSize)])
  bytes : s'.bytes = withInfo s.bytes (newBlock a size reqSize)

structure NoPages (s : State σ) (h : List Chunk) (size p : ℕ) (s' : State σ) : Prop where
  hook : L.alloc s.pages (pagesFor size) = some (0, s'.pages)
  pointer : p = 0
  heap : HeapAt s' h
  bytes : s'.bytes = s.bytes

/-- What a search comes to. It asks the hook only if no gap has the room. -/
def Searched (s : State σ) (h : List Chunk) (size reqSize : ℕ) : Option (ℕ × State σ) → Prop
  | some (p, s') =>
    (∃ l c r xs ys b, PlacedIn s h size reqSize p s' l c r xs ys b) ∨
      (∀ c ∈ h, ¬ c.Fits (size + minorBytes)) ∧
        ((∃ a, PlacedNew L s h size reqSize p s' a) ∨ NoPages L s h size p s')
  | none => (∀ c ∈ h, ¬ c.Fits (size + minorBytes)) ∧ L.alloc s.pages (pagesFor size) = none

end Results

section Kept

variable {a : ℕ}

theorem PlacedIn.heap_kept (hin : PlacedIn s h size reqSize p s' l c r xs ys b)
    (hheap : Heap L s h) : Heap L s' (l ++ c.put xs ys b :: r) := by
  have hsplit := hin.split
  subst hsplit
  refine ⟨hin.heap, fun d hd => ?_, ?_⟩
  · rcases List.mem_append.mp hd with hd | hd
    · exact hheap.full d (List.mem_append_left _ hd)
    · rcases List.mem_cons.mp hd with rfl | hd
      · exact List.append_ne_nil_of_right_ne_nil xs (List.cons_ne_nil b ys)
      · exact hheap.full d (List.mem_append_right l (List.mem_cons_of_mem c hd))
  · have hruns : (l ++ c.put xs ys b :: r).map Chunk.run = (l ++ c :: r).map Chunk.run := by
      simp [Chunk.run, Chunk.put]
    rw [hruns, hin.pages]
    exact hheap.pages

theorem PlacedNew.heap_kept (hnew : PlacedNew L s h size reqSize p s' a) (hheap : Heap L s h)
    (hsize : size + 4176 ≤ 2 ^ 32) :
    Heap L s' (h ++ [(freshChunk a size).put [] [] (newBlock a size reqSize)]) := by
  refine ⟨hnew.heap, fun d hd => ?_, ?_⟩
  · rcases List.mem_append.mp hd with hd | hd
    · exact hheap.full d hd
    · rw [List.mem_singleton.mp hd]
      exact List.cons_ne_nil _ _
  · obtain ⟨-, hholds⟩ := fresh_of_hook hheap.pages hsize hnew.hook hnew.fresh.ne_zero
    refine L.holds_perm _ _ _ ?_ hholds
    rw [List.map_append]
    exact (List.perm_append_singleton _ _).symm

theorem NoPages.heap_kept (hno : NoPages L s h size p s') (hheap : Heap L s h)
    (hsize : size + 4176 ≤ 2 ^ 32) : Heap L s' h := by
  obtain ⟨hpos, hlt, -⟩ := pagesFor_spec hsize
  have hpages : pagesFor size < 2 ^ 20 := by
    unfold pageSize at hlt
    omega
  refine ⟨hno.heap, hheap.full, ?_⟩
  rcases L.alloc_spec _ _ _ _ _ hheap.pages hpos hpages hno.hook with ⟨-, hholds⟩ | ⟨hne, -⟩
  · exact hholds
  · exact absurd rfl hne

end Kept

section Search

structure Ready (h : List Chunk) (size reqSize k : ℕ) : Prop where
  room : reqSize + 32 ≤ size
  size : size + 4176 ≤ 2 ^ 32
  rounds : ∀ c ∈ h, c.blocks.length < k
  full : ∀ c ∈ h, c.blocks ≠ []

/-- Where the bytes and the pages are those of another state, so are the results. -/
theorem Searched.congr {s₀ : State σ} (hbytes : s.bytes = s₀.bytes) (hpages : s.pages = s₀.pages)
    {res : Option (ℕ × State σ)} (hs : Searched L s h size reqSize res) :
    Searched L s₀ h size reqSize res := by
  cases res with
  | none => exact ⟨hs.1, hpages ▸ hs.2⟩
  | some res =>
    obtain ⟨p, s'⟩ := res
    rcases hs with ⟨l, c, r, xs, ys, b, hin⟩ | ⟨hnot, ⟨a, hnew⟩ | hno⟩
    · exact Or.inl ⟨l, c, r, xs, ys, b, ⟨hin.split, hin.first, hin.gap, hin.start, hin.size,
        hin.reqSize, hin.pointer, hin.heap, hbytes ▸ hin.bytes, hin.pages.trans hpages⟩⟩
    · exact Or.inr ⟨hnot, Or.inl ⟨a, ⟨hpages ▸ hnew.hook, hnew.fresh, hnew.pointer, hnew.heap,
        hbytes ▸ hnew.bytes⟩⟩⟩
    · exact Or.inr ⟨hnot, Or.inr ⟨hpages ▸ hno.hook, hno.pointer, hno.heap, hno.bytes.trans hbytes⟩⟩

/-- The best bet is remembered, and nothing else changes. -/
theorem turn_remembers (hat : HeapAt s h) (hc : c ∈ h) (L : LawfulHooks σ)
    (k size reqSize bestSize : ℕ) (startedBet : Bool) : ∃ s₁ bestSize',
    turn L.toHooks s k size reqSize startedBet bestSize c.start =
      tryMajor L.toHooks s₁ k size reqSize startedBet bestSize' c.start ∧
    HeapAt s₁ h ∧ s₁.bytes = s.bytes ∧ s₁.pages = s.pages := by
  unfold turn
  dsimp only
  split_ifs
  · exact ⟨_, _, rfl, heapAt_congr hat rfl rfl rfl rfl (Or.inr (mem_starts hc)) rfl rfl, rfl, rfl⟩
  · exact ⟨s, bestSize, rfl, hat, rfl, rfl⟩

/-- A search that found a place in a major of the heap. -/
theorem placedIn_of_found {p : ℕ} {s' : State σ} (hat : HeapAt s (l ++ c :: r))
    (hfound : Found s c size reqSize (some (p, s'))) :
    ∃ xs ys b, PlacedIn s (l ++ c :: r) size reqSize p s' l c r xs ys b := by
  obtain ⟨xs, ys, b, hfirst, hgap, hstart, hsize, hreq, hp, hins⟩ := hfound
  exact ⟨xs, ys, b, rfl, hfirst, hgap, hstart, hsize, hreq, hp, hins.heapAt hgap hat, hins.bytes,
    hins.pages⟩

theorem fits_of_found {p : ℕ} {s' : State σ} (hfound : Found s c size reqSize (some (p, s'))) :
    c.Fits (size + minorBytes) := by
  obtain ⟨xs, ys, b, hfirst, hgap, -⟩ := hfound
  unfold Chunk.Fits
  rw [hgap.blocks]
  exact hfirst.fits

theorem searchMajor_fits (hat : ChunkAt s c) (hk : c.blocks.length < k)
    (hroom : reqSize + 32 ≤ size) (hsize : size + 4176 ≤ 2 ^ 32)
    (hfits : c.Fits (size + minorBytes)) (L : LawfulHooks σ) (startedBet : Bool)
    (bestSize : ℕ) : ∃ p s',
      searchMajor L.toHooks s k size reqSize startedBet bestSize c.start =
        some (.returns p s') ∧ Found s c size reqSize (some (p, s')) := by
  obtain ⟨res, hplace, hfound⟩ := placeIn_spec hat hk hroom (by omega) (fun _ => hfits)
  unfold searchMajor
  dsimp only [bind, Option.bind]
  rw [hplace]
  cases res with
  | none => exact absurd hfits hfound
  | some res => exact ⟨res.1, res.2, rfl, hfound⟩

theorem searchMajor_not_fits (hat : ChunkAt s c) (hk : c.blocks.length < k)
    (hroom : reqSize + 32 ≤ size) (hsize : size + 4176 ≤ 2 ^ 32) (hfull : c.blocks ≠ [])
    (hnot : ¬ c.Fits (size + minorBytes)) :
    searchMajor L.toHooks s k size reqSize startedBet bestSize c.start =
      ensureNext L.toHooks s size startedBet bestSize c.start := by
  obtain ⟨res, hplace, hfound⟩ := placeIn_spec hat hk hroom (by omega)
    (fun hempty => absurd hempty hfull)
  unfold searchMajor
  dsimp only [bind, Option.bind]
  rw [hplace]
  cases res with
  | none => rfl
  | some res => exact absurd (fits_of_found hfound) hnot

theorem tryMajor_fits (hroom : reqSize + 32 ≤ size) (hsize : size + 4176 ≤ 2 ^ 32)
    (hk : c.blocks.length < k) (hat : HeapAt s (l ++ c :: r))
    (hfits : c.Fits (size + minorBytes)) (L : LawfulHooks σ) (startedBet : Bool)
    (bestSize : ℕ) : ∃ p s',
      tryMajor L.toHooks s k size reqSize startedBet bestSize c.start = some (.returns p s') ∧
      ∃ xs ys b, PlacedIn s (l ++ c :: r) size reqSize p s' l c r xs ys b := by
  have hcat := hat.chunks c (List.mem_append_right l List.mem_cons_self)
  have hneed : size + minorBytes < 2 ^ 64 := by
    unfold minorBytes
    omega
  have henough : ¬ sub32 (s.majors c.start).size (s.majors c.start).usage <
      word64 (size + minorBytes) := fun hlt => not_fits_of_free hcat hneed hlt hfits
  obtain ⟨p, s', hsearch, hfound⟩ := searchMajor_fits hcat hk hroom hsize hfits L startedBet
    bestSize
  unfold tryMajor
  dsimp only
  rw [if_neg henough]
  exact ⟨p, s', hsearch, placedIn_of_found hat hfound⟩

/-- A major without such a gap that is not the last one. -/
theorem tryMajor_next (hr : Ready (l ++ c :: d :: r) size reqSize k)
    (hat : HeapAt s (l ++ c :: d :: r)) (hnot : ¬ c.Fits (size + minorBytes))
    (L : LawfulHooks σ) (startedBet : Bool) (bestSize : ℕ) :
    tryMajor L.toHooks s k size reqSize startedBet bestSize c.start =
      some (.goesOn d.start startedBet bestSize s) := by
  have hc : c ∈ l ++ c :: d :: r := List.mem_append_right l List.mem_cons_self
  have hnext : (s.majors c.start).next = d.start := hat.next_eq
  have hd : d.start ≠ 0 := hat.start_ne_zero
    (List.mem_append_right l (List.mem_cons_of_mem c List.mem_cons_self))
  unfold tryMajor
  dsimp only
  rw [hnext, if_pos hd]
  split_ifs
  · rfl
  · rw [searchMajor_not_fits (hat.chunks c hc) (hr.rounds c hc) hr.room hr.size (hr.full c hc) hnot]
    unfold ensureNext
    dsimp only
    rw [hnext, if_neg hd]

/-- The last major after the search started at the best bet. -/
theorem tryMajor_restart (hr : Ready (l ++ [c]) size reqSize k)
    (hat : HeapAt s (l ++ [c])) (hnot : ¬ c.Fits (size + minorBytes)) (L : LawfulHooks σ)
    (bestSize : ℕ) : tryMajor L.toHooks s k size reqSize true bestSize c.start =
      some (.goesOn s.memRoot false bestSize s) := by
  have hc : c ∈ l ++ [c] := List.mem_append_right l List.mem_cons_self
  have hnext : (s.majors c.start).next = 0 := hat.next_eq
  unfold tryMajor
  dsimp only
  rw [hnext, if_neg (Decidable.not_not.mpr rfl), if_pos rfl]
  split_ifs
  · rfl
  · rw [searchMajor_not_fits (hat.chunks c hc) (hr.rounds c hc) hr.room hr.size (hr.full c hc) hnot]
    unfold ensureNext
    dsimp only
    rw [hnext, if_pos rfl, if_pos rfl]

/-- A place in the major that was put behind the others. -/
theorem placedNew_of_placedIn {a p : ℕ} {pages : σ} {s₁ s' : State σ} {xs ys : List Block}
    (hfresh : Fresh h a size) (halloc : L.alloc s.pages (pagesFor size) = some (a, pages))
    (hbytes : s₁.bytes = s.bytes) (hpages : s₁.pages = pages)
    (hin : PlacedIn s₁ (h ++ [freshChunk a size]) size reqSize p s' h (freshChunk a size) [] xs ys
      b) : PlacedNew L s h size reqSize p s' a := by
  have hblocks := hin.gap.blocks
  rw [freshChunk_blocks] at hblocks
  obtain ⟨rfl, rfl⟩ := List.append_eq_nil_iff.mp hblocks.symm
  have hb : b = newBlock a size reqSize := by
    obtain ⟨start, bsize, breq⟩ := b
    have hstart : start = a + majorBytes := hin.start
    have hsize : bsize = size := hin.size
    have hreq : breq = reqSize := hin.reqSize
    rw [hstart, hsize, hreq]
    rfl
  refine ⟨?_, hfresh, hb ▸ hin.pointer, hb ▸ hin.heap, ?_⟩
  · rw [hin.pages, hpages]
    exact halloc
  · rw [hin.bytes, hbytes, hb]

theorem turn_fresh {a : ℕ} (hroom : reqSize + 32 ≤ size) (hsize : size + 4176 ≤ 2 ^ 32)
    (hk : 0 < k) (hat : HeapAt s (h ++ [freshChunk a size])) (L : LawfulHooks σ)
    (startedBet : Bool) (bestSize : ℕ) : ∃ p s',
      turn L.toHooks s k size reqSize startedBet bestSize a = some (.returns p s') ∧
      ∃ xs ys b, PlacedIn s (h ++ [freshChunk a size]) size reqSize p s' h (freshChunk a size) []
        xs ys b := by
  have hc : freshChunk a size ∈ h ++ [freshChunk a size] :=
    List.mem_append_right h List.mem_cons_self
  obtain ⟨s₁, bestSize', hturn, hat₁, hbytes, hpages⟩ :=
    turn_remembers hat hc L k size reqSize bestSize startedBet
  obtain ⟨p, s', htry, xs, ys, b, hin⟩ := tryMajor_fits (c := freshChunk a size) (r := []) hroom
    hsize hk hat₁ (freshChunk_fits hsize a) L startedBet bestSize'
  refine ⟨p, s', hturn.trans htry, xs, ys, b, ⟨rfl, hin.first, hin.gap, hin.start, hin.size,
    hin.reqSize, hin.pointer, hin.heap, ?_, hin.pages.trans hpages⟩⟩
  rw [hin.bytes, hbytes]

theorem appendMajor_none (halloc : L.alloc s.pages (pagesFor size) = none) (maj : ℕ) :
    appendMajor L.toHooks s maj size = none := by
  unfold appendMajor
  rw [allocateNewPage_none halloc]
  rfl

/-- Without pages the last major stays the last one. -/
theorem appendMajor_zero {pages : σ} (hat : HeapAt s (l ++ [c]))
    (halloc : L.alloc s.pages (pagesFor size) = some (0, pages)) :
    ∃ s', appendMajor L.toHooks s c.start size = some (0, s') ∧
      NoPages L s (l ++ [c]) size 0 s' := by
  have hnext : (s.majors c.start).next = 0 := hat.next_eq
  have hsame : Function.update s.majors c.start { s.majors c.start with next := 0 } = s.majors := by
    rw [← hnext]
    exact Function.update_eq_self _ _
  unfold appendMajor
  rw [allocateNewPage_eq halloc, if_pos rfl]
  exact ⟨_, rfl, halloc, rfl, heapAt_congr hat hsame rfl rfl rfl hat.best rfl rfl, rfl⟩

/-- The last major in a search that has been through all others. -/
theorem tryMajor_last (hr : Ready (l ++ [c]) size reqSize k) (hpages : L.holds s.pages
      ((l ++ [c]).map Chunk.run))
    (hat : HeapAt s (l ++ [c])) (hnot : ¬ c.Fits (size + minorBytes)) (bestSize : ℕ) :
    (tryMajor L.toHooks s k size reqSize false bestSize c.start = none ∧
        L.alloc s.pages (pagesFor size) = none) ∨
      (∃ s', tryMajor L.toHooks s k size reqSize false bestSize c.start = some (.returns 0 s') ∧
        NoPages L s (l ++ [c]) size 0 s') ∨
      (∃ p s' a, tryMajor L.toHooks s k size reqSize false bestSize c.start =
        some (.returns p s') ∧ PlacedNew L s (l ++ [c]) size reqSize p s' a) ∨
      ∃ a s₁ pages, tryMajor L.toHooks s k size reqSize false bestSize c.start =
          some (.goesOn a false bestSize s₁) ∧ Fresh (l ++ [c]) a size ∧
        L.alloc s.pages (pagesFor size) = some (a, pages) ∧ s₁.bytes = s.bytes ∧
        s₁.pages = pages ∧ HeapAt s₁ (l ++ [c] ++ [freshChunk a size]) := by
  have hc : c ∈ l ++ [c] := List.mem_append_right l List.mem_cons_self
  have hcat := hat.chunks c hc
  have hnext : (s.majors c.start).next = 0 := hat.next_eq
  have hensure : searchMajor L.toHooks s k size reqSize false bestSize c.start =
      ensureNext L.toHooks s size false bestSize c.start :=
    searchMajor_not_fits hcat (hr.rounds c hc) hr.room hr.size (hr.full c hc) hnot
  unfold tryMajor
  dsimp only
  rw [hnext, if_neg (Decidable.not_not.mpr rfl), if_neg Bool.false_ne_true, hensure]
  unfold ensureNext
  dsimp only [bind, Option.bind]
  rw [hnext, if_pos rfl, if_neg Bool.false_ne_true]
  cases halloc : L.alloc s.pages (pagesFor size) with
  | none =>
    rw [appendMajor_none halloc]
    refine Or.inl ⟨?_, rfl⟩
    split_ifs <;> rfl
  | some res =>
    obtain ⟨a, pages⟩ := res
    right
    by_cases ha : a = 0
    · subst ha
      obtain ⟨s', happend, hno⟩ := appendMajor_zero hat halloc
      rw [happend]
      refine Or.inl ⟨s', ?_, hno⟩
      split_ifs <;> rfl
    · obtain ⟨hfresh, hholds⟩ := fresh_of_hook hpages hr.size halloc ha
      obtain ⟨s₁, happend, hat₁, hbytes, hpages₁⟩ := appendMajor_spec hat hfresh hr.size halloc
      rw [happend]
      dsimp only
      rw [if_neg ha, if_neg ha]
      right
      split_ifs with hlt
      · -- CASE 1 falls through to the new major
        have hnew : freshChunk a size ∈ l ++ [c] ++ [freshChunk a size] :=
          List.mem_append_right _ List.mem_cons_self
        obtain ⟨p, s', hsearch, hfound⟩ := searchMajor_fits (hat₁.chunks _ hnew)
          (Nat.zero_lt_of_lt (hr.rounds c hc)) hr.room hr.size (freshChunk_fits hr.size a) L false
          bestSize
        obtain ⟨xs, ys, b, hin⟩ := placedIn_of_found (r := []) hat₁ hfound
        exact Or.inl ⟨p, s', a, hsearch, placedNew_of_placedIn hfresh halloc hbytes hpages₁ hin⟩
      · exact Or.inr ⟨a, s₁, pages, rfl, hfresh, rfl, hbytes, hpages₁, hat₁⟩

theorem majorLoop_returns {maj p : ℕ} {s' : State σ} (hmaj : maj ≠ 0)
    (hturn : turn L.toHooks s k size reqSize startedBet bestSize maj = some (.returns p s')) :
    majorLoop L.toHooks k size reqSize (n + 1) maj startedBet bestSize s = some (p, s') := by
  rw [majorLoop, if_neg hmaj, hturn]
  rfl

theorem majorLoop_goesOn {maj maj' bestSize' : ℕ} {startedBet' : Bool} {s' : State σ}
    (hmaj : maj ≠ 0) (hturn : turn L.toHooks s k size reqSize startedBet bestSize maj =
      some (.goesOn maj' startedBet' bestSize' s')) :
    majorLoop L.toHooks k size reqSize (n + 1) maj startedBet bestSize s =
      majorLoop L.toHooks k size reqSize n maj' startedBet' bestSize' s' := by
  rw [majorLoop, if_neg hmaj, hturn]
  rfl

theorem majorLoop_none {maj : ℕ} (hmaj : maj ≠ 0)
    (hturn : turn L.toHooks s k size reqSize startedBet bestSize maj = none) :
    majorLoop L.toHooks k size reqSize (n + 1) maj startedBet bestSize s = none := by
  rw [majorLoop, if_neg hmaj, hturn]
  rfl

theorem not_fits_concat (hpast : ∀ d ∈ l, ¬ d.Fits n) (hc : ¬ c.Fits n) :
    ∀ d ∈ l ++ [c], ¬ d.Fits n := by
  intro d hd
  rcases List.mem_append.mp hd with hd | hd
  · exact hpast d hd
  · rwa [List.mem_singleton.mp hd]

/-- The loop comes to a major that has a gap with the room. -/
theorem majorLoop_fits (hr : Ready (l ++ c :: r) size reqSize k) (hat : HeapAt s (l ++ c :: r))
    (hfits : c.Fits (size + minorBytes)) : Searched L s (l ++ c :: r) size reqSize
      (majorLoop L.toHooks k size reqSize (n + 1) c.start startedBet bestSize s) := by
  have hc : c ∈ l ++ c :: r := List.mem_append_right l List.mem_cons_self
  obtain ⟨s₁, bestSize', hturn, hat₁, hbytes, hpages₁⟩ :=
    turn_remembers hat hc L k size reqSize bestSize startedBet
  obtain ⟨p, s', htry, xs, ys, b, hin⟩ := tryMajor_fits hr.room hr.size (hr.rounds c hc) hat₁ hfits
    L startedBet bestSize'
  refine Searched.congr hbytes hpages₁ ?_
  rw [majorLoop_returns (HeapAt.start_ne_zero hat hc) (hturn.trans htry)]
  exact Or.inl ⟨l, c, r, xs, ys, b, hin⟩

/-- The loop goes on from a major that has none to the next one. -/
theorem majorLoop_next (hr : Ready (l ++ c :: d :: r) size reqSize k)
    (hat : HeapAt s (l ++ c :: d :: r)) (hnot : ¬ c.Fits (size + minorBytes))
    (L : LawfulHooks σ) (n bestSize : ℕ) (startedBet : Bool) :
    ∃ s₁ bestSize', majorLoop L.toHooks k size reqSize (n + 1) c.start startedBet bestSize s =
      majorLoop L.toHooks k size reqSize n d.start startedBet bestSize' s₁ ∧
      HeapAt s₁ (l ++ c :: d :: r) ∧ s₁.bytes = s.bytes ∧ s₁.pages = s.pages := by
  have hc : c ∈ l ++ c :: d :: r := List.mem_append_right l List.mem_cons_self
  obtain ⟨s₁, bestSize', hturn, hat₁, hbytes, hpages₁⟩ :=
    turn_remembers hat hc L k size reqSize bestSize startedBet
  have htry := tryMajor_next hr hat₁ hnot L startedBet bestSize'
  exact ⟨s₁, bestSize', majorLoop_goesOn (HeapAt.start_ne_zero hat hc) (hturn.trans htry), hat₁,
    hbytes, hpages₁⟩

/-- The loop from a major on, when no major in front of it has a gap with the room. -/
theorem majorLoop_scan (hr : Ready (l ++ c :: r) size reqSize k)
    (hat : HeapAt s (l ++ c :: r)) (hpages : L.holds s.pages ((l ++ c :: r).map Chunk.run))
    (hpast : ∀ d ∈ l, ¬ d.Fits (size + minorBytes)) (hn : r.length + 2 ≤ n) :
    Searched L s (l ++ c :: r) size reqSize
      (majorLoop L.toHooks k size reqSize n c.start false bestSize s) := by
  induction r generalizing l c s bestSize n with
  | nil =>
    have hn' : 2 ≤ n := hn
    obtain ⟨n, rfl⟩ := Nat.exists_eq_add_of_le' hn'
    by_cases hfits : c.Fits (size + minorBytes)
    · exact majorLoop_fits hr hat hfits
    have hc : c ∈ l ++ [c] := List.mem_append_right l List.mem_cons_self
    have hnull := HeapAt.start_ne_zero hat hc
    have hnone := not_fits_concat hpast hfits
    obtain ⟨s₁, bestSize', hturn, hat₁, hbytes, hpages₁⟩ :=
      turn_remembers hat hc L k size reqSize bestSize false
    refine Searched.congr hbytes hpages₁ ?_
    rcases tryMajor_last hr (hpages₁ ▸ hpages) hat₁ hfits bestSize' with
      ⟨htry, halloc⟩ | ⟨s', htry, hno⟩ | ⟨p, s', a, htry, hnew⟩ |
      ⟨a, s₂, pages, htry, hfresh, halloc, hbytes₂, hpages₂, hat₂⟩
    · rw [majorLoop_none hnull (hturn.trans htry)]
      exact ⟨hnone, halloc⟩
    · rw [majorLoop_returns hnull (hturn.trans htry)]
      exact Or.inr ⟨hnone, Or.inr hno⟩
    · rw [majorLoop_returns hnull (hturn.trans htry)]
      exact Or.inr ⟨hnone, Or.inl ⟨a, hnew⟩⟩
    · obtain ⟨p, s', hturn', xs, ys, b, hin⟩ := turn_fresh hr.room hr.size
        (Nat.zero_lt_of_lt (hr.rounds c hc)) hat₂ L false bestSize'
      rw [majorLoop_goesOn hnull (hturn.trans htry), majorLoop_returns hfresh.ne_zero hturn']
      exact Or.inr ⟨hnone, Or.inl ⟨a, placedNew_of_placedIn hfresh halloc hbytes₂ hpages₂ hin⟩⟩
  | cons d r ih =>
    rw [List.length_cons] at hn
    obtain ⟨n, rfl⟩ := Nat.exists_eq_succ_of_ne_zero (show n ≠ 0 by omega)
    by_cases hfits : c.Fits (size + minorBytes)
    · exact majorLoop_fits hr hat hfits
    obtain ⟨s₁, bestSize', hloop, hat₁, hbytes, hpages₁⟩ := majorLoop_next hr hat hfits L n
      bestSize false
    have hsplit : l ++ c :: d :: r = (l ++ [c]) ++ d :: r := by simp
    refine Searched.congr hbytes hpages₁ ?_
    rw [hloop]
    rw [hsplit] at hr hat₁ hpages ⊢
    exact ih hr hat₁ (hpages₁ ▸ hpages) (not_fits_concat hpast hfits) (by omega)

/-- The loop from the best bet on: at the last major it starts again with the first one. -/
theorem majorLoop_bet (hr : Ready (l ++ c :: r) size reqSize k)
    (hat : HeapAt s (l ++ c :: r)) (hpages : L.holds s.pages ((l ++ c :: r).map Chunk.run))
    (hn : r.length + (l ++ c :: r).length + 2 ≤ n) :
    Searched L s (l ++ c :: r) size reqSize
      (majorLoop L.toHooks k size reqSize n c.start true bestSize s) := by
  induction r generalizing l c s bestSize n with
  | nil =>
    obtain ⟨n, rfl⟩ := Nat.exists_eq_succ_of_ne_zero (show n ≠ 0 by omega)
    by_cases hfits : c.Fits (size + minorBytes)
    · exact majorLoop_fits hr hat hfits
    have hc : c ∈ l ++ [c] := List.mem_append_right l List.mem_cons_self
    obtain ⟨s₁, bestSize', hturn, hat₁, hbytes, hpages₁⟩ :=
      turn_remembers hat hc L k size reqSize bestSize true
    have htry := tryMajor_restart hr hat₁ hfits L bestSize'
    refine Searched.congr hbytes hpages₁ ?_
    rw [majorLoop_goesOn (HeapAt.start_ne_zero hat hc) (hturn.trans htry), hat₁.root]
    rw [← hpages₁] at hpages
    obtain ⟨d, r, hdr⟩ := List.exists_cons_of_ne_nil (List.ne_nil_of_mem hc)
    rw [hdr] at hr hat₁ hpages hn ⊢
    rw [List.length_cons] at hn
    exact majorLoop_scan (l := []) hr hat₁ hpages (List.forall_mem_nil _) (by omega)
  | cons d r ih =>
    rw [List.length_cons] at hn
    obtain ⟨n, rfl⟩ := Nat.exists_eq_succ_of_ne_zero (show n ≠ 0 by omega)
    by_cases hfits : c.Fits (size + minorBytes)
    · exact majorLoop_fits hr hat hfits
    obtain ⟨s₁, bestSize', hloop, hat₁, hbytes, hpages₁⟩ := majorLoop_next hr hat hfits L n
      bestSize true
    have hsplit : l ++ c :: d :: r = (l ++ [c]) ++ d :: r := by simp
    refine Searched.congr hbytes hpages₁ ?_
    rw [hloop]
    rw [hsplit] at hr hat₁ hpages hn ⊢
    exact ih hr hat₁ (hpages₁ ▸ hpages) (by omega)

theorem search_spec (hr : Ready h size reqSize k) (hat : HeapAt s h)
    (hpages : L.holds s.pages (h.map Chunk.run)) (hne : h ≠ []) (hk : 2 * h.length + 2 ≤ k) :
    Searched L s h size reqSize (search L.toHooks s k size reqSize) := by
  unfold search
  dsimp only
  generalize (if s.bestBet ≠ 0 then _ else 0) = bestSize
  split_ifs with hbest
  · obtain ⟨c, hc, hstart⟩ := List.mem_map.mp (hat.best.resolve_left hbest.1)
    obtain ⟨l, r, rfl⟩ := List.append_of_mem hc
    rw [← hstart]
    refine majorLoop_bet hr hat hpages ?_
    simp only [List.length_append, List.length_cons] at hk ⊢
    omega
  · obtain ⟨c, r, rfl⟩ := List.exists_cons_of_ne_nil hne
    rw [hat.root]
    refine majorLoop_scan (l := []) hr hat hpages (List.forall_mem_nil _) ?_
    simp only [List.length_cons] at hk
    omega

end Search

section Malloc

/-- The heap has no major yet: the first one is made. -/
theorem heapAt_first {a : ℕ} (pages : σ) (hat : HeapAt s []) (hfresh : Fresh [] a size)
    (hsize : size + 4176 ≤ 2 ^ 32) :
    HeapAt { s with
      majors := Function.update s.majors a (freshMajor size)
      allocated := word64 (s.allocated + word32 (pagesFor size * pageSize))
      pages := pages
      memRoot := a } [freshChunk a size] where
  majors := by
    refine ⟨List.nodup_singleton a, ?_, ⟨?_, trivial⟩, ⟨?_, trivial⟩⟩
    · simpa [starts] using hfresh.ne_zero.symm
    · simp [freshMajor]
    · simp [freshMajor]
  root := rfl
  best := Or.inl (hat.best.resolve_right (by simp [starts]))
  chunks := by
    refine chunks_fresh (h := []) hat.chunks hfresh hsize ?_ (fun x hx => ?_) rfl rfl
    · simp [freshMajor]
    · simp [hx]
  apart := List.pairwise_singleton _ _
  allocated := by
    obtain ⟨-, hlt, -⟩ := pagesFor_spec hsize
    have hzero := hat.allocated
    have hfirst := totalSize_fresh a size []
    rw [List.nil_append] at hfirst
    rw [word32_of_lt hlt, hzero, hfirst]
    exact Nat.mod_add_mod _ _ _
  inuse := hat.inuse

/-- `malloc` up to the first search. -/
theorem mallocSized_spec (hheap : Heap L s h) (hroom : reqSize + 32 ≤ size)
    (hsize : size + 4176 ≤ 2 ^ 32) (hrounds : ∀ c ∈ h, c.blocks.length < k)
    (hk : 2 * h.length + 4 ≤ k) :
    Searched L s h size reqSize (mallocSized L.toHooks s k size reqSize) := by
  have hat := hheap.toHeapAt
  unfold mallocSized ensureRoot
  cases h with
  | nil =>
    have hroot : s.memRoot = 0 := hat.root
    rw [if_pos hroot]
    cases halloc : L.alloc s.pages (pagesFor size) with
    | none =>
      rw [allocateNewPage_none halloc]
      exact ⟨List.forall_mem_nil _, halloc⟩
    | some res =>
      obtain ⟨a, pages⟩ := res
      rw [allocateNewPage_eq halloc]
      by_cases ha : a = 0
      · subst ha
        refine Or.inr ⟨List.forall_mem_nil _, Or.inr ⟨halloc, rfl, ?_, rfl⟩⟩
        exact heapAt_congr hat rfl rfl rfl hroot.symm hat.best rfl rfl
      · obtain ⟨hfresh, hholds⟩ := fresh_of_hook hheap.pages hsize halloc ha
        have hat₁ := heapAt_first pages hat hfresh hsize
        rw [if_neg ha]
        dsimp only [bind, Option.bind, pure]
        rw [if_neg ha]
        have hbest : s.bestBet = 0 := hat.best.resolve_right List.not_mem_nil
        unfold search
        dsimp only
        rw [if_neg (fun hbet => hbet.1 hbest), if_neg (Decidable.not_not.mpr hbest)]
        obtain ⟨k, rfl⟩ := Nat.exists_eq_succ_of_ne_zero (show k ≠ 0 by omega)
        obtain ⟨p, s', hturn, xs, ys, b, hin⟩ := turn_fresh (h := []) hroom hsize
          (Nat.succ_pos k) hat₁ L false 0
        rw [majorLoop_returns ha hturn]
        refine Or.inr ⟨List.forall_mem_nil _, Or.inl ⟨a, ?_⟩⟩
        exact placedNew_of_placedIn (s := s) (h := []) hfresh halloc (by rfl) (by rfl) hin
  | cons c r =>
    have hroot : s.memRoot ≠ 0 := by
      rw [hat.root]
      exact HeapAt.start_ne_zero hat List.mem_cons_self
    rw [if_neg hroot]
    dsimp only [bind, Option.bind]
    rw [if_neg hroot]
    exact search_spec ⟨hroom, hsize, hrounds, hheap.full⟩ hat hheap.pages (List.cons_ne_nil c r)
      (by omega)

def Rounds (h : List Chunk) (k : ℕ) : Prop :=
  (∀ c ∈ h, c.blocks.length < k) ∧ 2 * h.length + 4 ≤ k

theorem malloc_spec (hheap : Heap L s h) (hreq : Request reqSize) (hk : Rounds h k) :
    Searched L s h (reqSize + 32) reqSize (malloc L.toHooks s k reqSize) := by
  have hadjusted := adjusted_of_request hreq
  unfold malloc
  rw [hadjusted, if_neg (by omega)]
  refine mallocSized_spec hheap (Nat.le_refl _) ?_ hk.1 hk.2
  unfold Request at hreq
  omega

end Malloc

end ReduceOS.LiballocMalloc
