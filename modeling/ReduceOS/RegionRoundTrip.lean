import ReduceOS.PoolFree
import ReduceOS.RegionFree

/-!
The regions of mem/regions.c that are taken and given back: DMA buffers and drivers. To take one
costs chunks of a pool, frames and page entries. To give it back frees the chunks only: whoever
got a region has used more frames for good, and its pages stay mapped. A number bounds the rounds of
the searches in the pool.
-/
namespace ReduceOS.RegionRoundTrip

open Machine Page Physical Paging Outcome TableTree PageMap MapAddress UserHeap PointerCheck
  RegionAllocation RegionFree
open ChunkPool (Pool Shape chunkAddress chunkAddress_toNat)

def memDriverRegion : Addr := 0xFFFFFFFF00000000
def memDriverRegionSize : Addr := 0x80000000
def memDmaRegion : Addr := 0xA0000000
def memDmaRegionSize : Addr := 0x50000000

/-- The memory, `dma_pool` and `driver_pool`, which are `NULL` before `mem_regionsInitialize`. -/
structure State (P : Type) where
  kernel : Kernel P
  dmaPool : Option Pool
  driverPool : Option Pool

section Source

variable {P : Type}

def finished {α : Type} (c : Option α) : Except Stop α := c.elim (.error .forever) .ok

/-- `mem_regionsInitialize`, for what the memory of the two bitmaps holds before. -/
def memRegionsInitialize (memory memory' : ℤ → BitVec 32) (s : State P) : Except Panic (State P) :=
  do
    let dma ← ChunkPool.poolCreate memory 4096 memDmaRegionSize memDmaRegion
    let driver ← ChunkPool.poolCreate memory' 4096 memDriverRegionSize memDriverRegion
    return { s with dmaPool := some dma, driverPool := some driver }

def alignSize (size : Addr) : Addr := if size % 0x1000#64 ≠ 0 then alignPage size else size

def allocateRegion (pool : Option Pool) (back : Addr → Addr → Kernel P → Except Stop (Kernel P))
    (kernel : Kernel P) (size : Addr) (rounds : ℕ) : Except Stop (Addr × Option Pool × Kernel P) :=
  if size = 0 then .ok (0, pool, kernel)
  else
    match pool with
    | none => .ok (0, none, kernel)
    | some p => do
      let size := alignSize size
      let (virt, p) ← finished (PoolSearch.allocateChunks p (size / 0x1000#64) rounds)
      if virt = 0 then .error (.panic .outOfMemory)
      else do
        let kernel ← back virt size kernel
        return (virt, some p, kernel)

def freeRegion (pool : Option Pool) (base size : Addr) (rounds : ℕ) : Except Stop (Option Pool) :=
  if base = 0 then .ok pool
  else
    let chunks := alignSize size / 0x1000#64
    match pool with
    | none => if chunks = 0 then .ok none else .error (.panic .pageFault)
    | some p => (finished (PoolFree.freeChunks p base chunks rounds)).map some

variable (A : RunAllocator P) (dir : FrameNo)

def dmaFlags : CInt := 0x12

def mapRun (virt size : Addr) (k : Kernel P) : Except Stop (Kernel P) := do
  let (phys, pmm) ← lift (A.allocateBlocks k.state.pmm (size / 0x1000#64))
  let s ← lift <| (pageLoop 0 size).foldlM
    (fun s i => memMapAddress A.toAllocator s dir (phys + i) (virt + i) dmaFlags)
    { k.state with pmm := pmm }
  return { k with state := s }

/-- The address that `mem_allocate` returns for a driver is not looked at. -/
def mapFrames (virt size : Addr) (k : Kernel P) : Except Stop (Kernel P) :=
  (memAllocate A k dir virt size memAllocCritical memPageKernel).map Prod.snd

def memAllocateDMA (s : State P) (size : Addr) (rounds : ℕ) : Except Stop (Addr × State P) :=
  (allocateRegion s.dmaPool (mapRun A dir) s.kernel size rounds).map fun (virt, pool, kernel) =>
    (virt, { s with dmaPool := pool, kernel := kernel })

def memFreeDMA (s : State P) (base size : Addr) (rounds : ℕ) : Except Stop (State P) :=
  (freeRegion s.dmaPool base size rounds).map fun pool => { s with dmaPool := pool }

def memMapDriver (s : State P) (size : Addr) (rounds : ℕ) : Except Stop (Addr × State P) :=
  (allocateRegion s.driverPool (mapFrames A dir) s.kernel size rounds).map
    fun (virt, pool, kernel) => (virt, { s with driverPool := pool, kernel := kernel })

def memUnmapDriver (s : State P) (base size : Addr) (rounds : ℕ) : Except Stop (State P) :=
  (freeRegion s.driverPool base size rounds).map fun pool => { s with driverPool := pool }

end Source

inductive Region
  | dma
  | driver

namespace Region

variable {P : Type}

def pool (s : State P) : Region → Option Pool
  | .dma => s.dmaPool
  | .driver => s.driverPool

def allocate (A : RunAllocator P) (dir : FrameNo) :
    Region → State P → Addr → ℕ → Except Stop (Addr × State P)
  | .dma => memAllocateDMA A dir
  | .driver => memMapDriver A dir

def free : Region → State P → Addr → Addr → ℕ → Except Stop (State P)
  | .dma => memFreeDMA
  | .driver => memUnmapDriver

end Region

structure Restored {P : Type} (L : LawfulRunAllocator P) (dir : FrameNo) (region : Region)
    (base size : Addr) (s s' : State P) : Prop where
  pool : (region.pool s').map (fun p => (p.bitmap, p.used)) =
    (region.pool s).map fun p => (p.bitmap, p.used)
  used : L.used s'.kernel.state.pmm = L.used s.kernel.state.pmm
  absent : base ≠ 0 → ∀ i ∈ regionPages base (alignSize size),
    ∀ e, pageAt s'.kernel.state.phys dir i = some e → e.present = false

def RoundTrips {P : Type} (L : LawfulRunAllocator P) (dir : FrameNo) (region : Region) (s : State P)
    (size : Addr) : Prop :=
  ∃ rounds base s₁ s₂, region.allocate L.toRunAllocator dir s size rounds = .ok (base, s₁) ∧
    region.free s₁ base size rounds = .ok s₂ ∧ Restored L dir region base size s s₂

/-- The pool of the drivers lies where `mem_regionsInitialize` put it, and has no more chunks in
use than it has. -/
structure InPlace (p : Pool) : Prop where
  chunkSize : p.chunkSize = 4096
  startingAddr : p.startingAddr = memDriverRegion
  allocated : p.allocated = memDriverRegionSize
  used : p.used ≤ p.allocated

section Sizes

variable {p p' : Pool} {size virt n : Addr} {rounds : ℕ}

theorem alignSize_toNat (size : Addr) : (alignSize size).toNat % 4096 = 0 := by
  have hlt := size.isLt
  unfold alignSize
  split_ifs with hpart
  · rw [alignPage, toNat_and_not_fff]
    omega
  · rw [not_not, BitVec.toNat_eq, BitVec.toNat_umod] at hpart
    exact hpart

theorem toNat_pages (size : Addr) :
    (alignSize size).toNat = 4096 * (alignSize size / 0x1000#64).toNat := by
  have hwhole := alignSize_toNat size
  rw [BitVec.toNat_udiv, show (0x1000#64).toNat = 4096 from rfl]
  omega

theorem InPlace.shape (hp : InPlace p) : Shape p ∧ p.chunks = 2 ^ 19 := by
  have hchunks : p.chunks = 2 ^ 19 := by
    rw [Pool.chunks, hp.chunkSize, hp.allocated]
    decide
  refine ⟨⟨?_, ?_, ?_, ?_⟩, hchunks⟩
  · rw [hp.chunkSize]
    decide
  · rw [hp.chunkSize, hp.allocated, hchunks]
    decide
  · rw [hchunks]
    decide
  · rw [hp.startingAddr, hp.allocated]
    decide

theorem inPlace_created {memory : ℤ → BitVec 32}
    (h : ChunkPool.poolCreate memory 4096 memDriverRegionSize memDriverRegion = .ok p) :
    InPlace p := by
  rw [ChunkPool.poolCreate, if_neg (by decide)] at h
  obtain rfl := Except.ok.inj h
  exact ⟨rfl, rfl, rfl, BitVec.le_def.mpr (Nat.zero_le _)⟩

/-- The chunks that are found are below the end of the address space. -/
theorem InPlace.found (hp : InPlace p) (hn : n.toNat < 2 ^ 52)
    (h : PoolSearch.allocateChunks p n rounds = some (virt, p')) (hvirt : virt ≠ 0) :
    n ≠ 0 ∧ virt.toNat % 4096 = 0 ∧ virt.toNat + 4096 * n.toNat < 2 ^ 64 := by
  have hzero : n ≠ 0 := by
    rintro rfl
    exact hvirt (Prod.mk.inj (Option.some.inj h)).1.symm
  obtain ⟨taken, heq⟩ := PoolSearch.allocateChunks_eq (p := p) hzero rounds
  rw [heq] at h
  split_ifs at h with hspace
  · exact absurd (Prod.mk.inj (Option.some.inj h)).1.symm hvirt
  obtain ⟨frame, hframe, h⟩ := Option.bind_eq_some_iff.mp h
  split_ifs at h with hfound
  · exact absurd (Prod.mk.inj (Option.some.inj h)).1.symm hvirt
  obtain ⟨rfl, -⟩ := Prod.mk.inj (Option.some.inj h)
  obtain ⟨hshape, hchunks⟩ := hp.shape
  have hlast : n.toNat ≤ 2 ^ 19 := by
    have hle := BitVec.le_def.mp (BitVec.not_lt.mp hspace)
    rw [BitVec.toNat_sub_of_le hp.used, BitVec.toNat_mul, hp.chunkSize, hp.allocated,
      show (4096 : Addr).toNat = 4096 from rfl,
      show memDriverRegionSize.toNat = 2 ^ 31 from rfl] at hle
    omega
  have houtcome := (FrameSearch.findFirstFrames_iff hzero).mp
    ⟨rounds, (PoolSearch.findFirstFrames_frames rounds).symm.trans hframe⟩
  rcases houtcome with ⟨g, ⟨hg, -⟩, rfl⟩ | ⟨-, hnone⟩
  · have hg : g < 32 * (p.chunks / 32) := hg
    have haddr := chunkAddress_toNat hshape (f := g) (by omega)
    rw [hp.startingAddr, hp.chunkSize, show (4096 : Addr).toNat = 4096 from rfl,
      show memDriverRegion.toNat = 2 ^ 64 - 2 ^ 32 from rfl] at haddr
    rw [haddr]
    exact ⟨hzero, by omega, by omega⟩
  · exact absurd hnone hfound

theorem regionPages_ne_nil (hvirt : virt.toNat % 4096 = 0) (hsize : size.toNat % 4096 = 0)
    (hpos : size ≠ 0) (hend : virt.toNat + size.toNat < 2 ^ 64) : regionPages virt size ≠ [] := by
  have hfirst := first_toNat (show virt.toNat = virt.toNat + 0 from rfl) hvirt (by decide)
  have hactual := sizeActual_toNat virt size
  have hne : 0 < size.toNat := Nat.pos_of_ne_zero fun h => hpos (BitVec.eq_of_toNat_eq h)
  unfold regionPages pageLoop
  rw [ne_eq, visited_eq_nil (by decide), not_not, BitVec.lt_def, BitVec.toNat_add, hfirst, hactual]
  omega

end Sizes

section Frames

variable {P : Type} {L : LawfulRunAllocator P} {dir : FrameNo} {s s' : Physical.State P}
  {k k' : Kernel P} {phys virt size : Addr} {flags : CInt}

/-- A page that is mapped to a given frame takes frames for tables only. -/
theorem memMapAddress_grown (ht : Tables L.toLawfulAllocator (under dir) s)
    (hfree : has (memPageNoalloc ||| flags.signExtend 64) memPageFree = false) :
    Meets Any (memMapAddress L.toAllocator s dir phys virt flags) fun s' =>
      Grown L.toLawfulAllocator dir s s' := by
  unfold memMapAddress
  cases hvirt : isCanonical virt with
  | false => exact Grown.refl ht
  | true =>
    refine meets_bind (memGetPage_grown ht hvirt) ?_
    rintro ⟨o, s₁⟩ ⟨hgrown, hres⟩
    cases o with
    | none => exact hgrown
    | some pg =>
      obtain ⟨-, t, rfl, hat⟩ := hres
      refine meets_bind (memAllocatePage_grown hgrown.tables hat _ hfree) ?_
      rintro s₂ ⟨hgrown₂, hat₂, -⟩
      exact (hgrown.trans hgrown₂).trans
        (Grown.leaf hgrown₂.tables hat₂ _ _ hgrown₂.tables.valid subset_rfl)

theorem mapLoop_grown (ht : Tables L.toLawfulAllocator (under dir) s) (l : List Addr) :
    Meets Any (l.foldlM
      (fun s i => memMapAddress L.toAllocator s dir (phys + i) (virt + i) dmaFlags) s) fun s' =>
      Grown L.toLawfulAllocator dir s s' := by
  refine meets_foldlM (fun _ s' => Grown L.toLawfulAllocator dir s s') l s (Grown.refl ht) ?_
  intro _ i _ s₁ _ hgrown
  exact meets_mono (memMapAddress_grown hgrown.tables (by decide)) fun _ h => hgrown.trans h

theorem mapRun_more (ht : Tables L.toLawfulAllocator (under dir) k.state)
    (h : mapRun L.toRunAllocator dir virt size k = .ok k') :
    L.used k.state.pmm ⊂ L.used k'.state.pmm := by
  obtain ⟨⟨phys, pmm⟩, hrun, h⟩ := bind_eq_ok h
  obtain ⟨s', hloop, h⟩ := bind_eq_ok h
  obtain rfl := Except.ok.inj h
  obtain ⟨-, hvalid, hmore⟩ := L.runs_spec _ _ _ ht.valid (lift_eq_ok hrun)
  have ht₁ : Tables L.toLawfulAllocator (under dir) { k.state with pmm := pmm } :=
    ⟨hvalid, ht.tree, fun g hg => hmore.subset (ht.inUse g hg)⟩
  exact hmore.trans_subset (meets_of_eq_ok (mapLoop_grown ht₁ _) (lift_eq_ok hloop)).used

/-- Every page of a driver gets a frame of its own. -/
theorem mapFrames_more (ht : Tables L.toLawfulAllocator (under dir) k.state)
    (hsize : size ≠ 0) (hpages : regionPages virt size ≠ [])
    (h : mapFrames L.toRunAllocator dir virt size k = .ok k') :
    L.used k.state.pmm ⊂ L.used k'.state.pmm := by
  unfold mapFrames at h
  cases hcall : memAllocate L.toRunAllocator k dir virt size memAllocCritical memPageKernel with
  | error e => rw [hcall] at h; contradiction
  | ok res =>
    obtain ⟨r, k₁⟩ := res
    rw [hcall] at h
    obtain rfl : k₁ = k' := Except.ok.inj h
    rcases memAllocate_cases hcall with ⟨-, -, hfailed⟩ | ⟨-, contig, pmm, done, hran, hdone⟩
    · exact absurd (hfailed hsize).2 (by decide)
    obtain rfl : done = true := by
      by_contra hstopped
      exact absurd (hdone (by simpa using hstopped)) (by decide)
    obtain ⟨-, -, -, hsame⟩ := takeRun_spec ht hran.frames
    obtain rfl := hsame (by decide)
    have hloop := hran.loop
    have hbase : k.base virt memAllocCritical = virt := if_neg (by decide)
    rw [hbase] at hloop
    obtain ⟨i, l, hcons⟩ := List.exists_cons_of_ne_nil hpages
    rw [hcons] at hloop
    have hsets := @mapAt_sets P L dir memAllocCritical memPageKernel (by decide)
      (virt &&& ~~~0xFFF#64) contig
    have hcanon : isCanonical i = true :=
      ((meets_of_eq_ok (mapPages_grown hsets ht _) hloop).2.mp rfl i List.mem_cons_self).1
    have hlarge : ¬ OnLarge k.state.phys dir i := by
      intro hlarge
      rw [mapPages_large hlarge] at hloop
      exact Bool.false_ne_true (congrArg Prod.fst (Except.ok.inj hloop))
    have hgrants : Grants memAllocCritical (pageBits memAllocCritical memPageKernel) :=
      ⟨by decide, by decide⟩
    have hmore := meets_of_eq_ok (mapPages_more hsets hgrants ht hcanon hlarge l) hloop
    exact hmore

end Frames

section RoundTrip

variable {P : Type} {L : LawfulRunAllocator P} {dir : FrameNo} {region : Region} {s s' : State P}
  {back : Addr → Addr → Kernel P → Except Stop (Kernel P)} {pool : Option Pool}
  {k k' : Kernel P} {p : Pool} {base virt size : Addr} {rounds : ℕ}

theorem finished_eq_ok {α : Type} {c : Option α} {x : α} (h : finished c = .ok x) : c = some x := by
  cases c with
  | some y => exact congrArg some (Except.ok.inj h)
  | none => contradiction

theorem allocateRegion_eq_ok (hsize : size ≠ 0)
    (h : allocateRegion (some p) back k size rounds = .ok (virt, pool, k')) :
    ∃ p', PoolSearch.allocateChunks p (alignSize size / 0x1000#64) rounds = some (virt, p') ∧
      virt ≠ 0 ∧ back virt (alignSize size) k = .ok k' := by
  rw [allocateRegion, if_neg hsize] at h
  obtain ⟨⟨virt', p'⟩, hchunks, h⟩ := bind_eq_ok h
  dsimp only at h
  split_ifs at h with hnull
  obtain ⟨k₁, hback, h⟩ := bind_eq_ok h
  obtain ⟨rfl, hrest⟩ := Prod.mk.inj (Except.ok.inj h)
  obtain ⟨-, rfl⟩ := Prod.mk.inj hrest
  exact ⟨p', finished_eq_ok hchunks, hnull, hback⟩

theorem map_eq_ok {ε α β : Type} {c : Except ε α} {f : α → β} {y : β} (h : c.map f = .ok y) :
    ∃ x, c = .ok x ∧ f x = y := by
  cases c with
  | error e => contradiction
  | ok x => exact ⟨x, rfl, Except.ok.inj h⟩

theorem allocate_more (ht : Tables L.toLawfulAllocator (under dir) s.kernel.state)
    (hplace : ∀ p, s.driverPool = some p → InPlace p) (hsize : size ≠ 0)
    (hpool : region.pool s = some p)
    (h : region.allocate L.toRunAllocator dir s size rounds = .ok (base, s')) :
    L.used s.kernel.state.pmm ⊂ L.used s'.kernel.state.pmm := by
  cases region with
  | dma =>
    obtain ⟨⟨virt, pool, k'⟩, hcall, hs'⟩ := map_eq_ok h
    obtain ⟨rfl, rfl⟩ := Prod.mk.inj hs'
    rw [show s.dmaPool = some p from hpool] at hcall
    obtain ⟨p', -, -, hback⟩ := allocateRegion_eq_ok hsize hcall
    exact mapRun_more ht hback
  | driver =>
    obtain ⟨⟨virt, pool, k'⟩, hcall, hs'⟩ := map_eq_ok h
    obtain ⟨rfl, rfl⟩ := Prod.mk.inj hs'
    rw [show s.driverPool = some p from hpool] at hcall
    obtain ⟨p', hchunks, hvirt, hback⟩ := allocateRegion_eq_ok hsize hcall
    have hpages := toNat_pages size
    have hlt := (alignSize size).isLt
    obtain ⟨hsome, hwhole, hend⟩ := (hplace p hpool).found (by omega) hchunks hvirt
    have hpos : alignSize size ≠ 0 := by
      intro hzero
      rw [hzero] at hsome
      exact hsome (by decide)
    exact mapFrames_more ht hpos
      (regionPages_ne_nil hwhole (alignSize_toNat size) hpos (by omega)) hback

theorem free_kernel (h : region.free s base size rounds = .ok s') : s'.kernel = s.kernel := by
  cases region with
  | dma =>
    obtain ⟨pool, -, rfl⟩ := map_eq_ok h
    rfl
  | driver =>
    obtain ⟨pool, -, rfl⟩ := map_eq_ok h
    rfl

theorem allocate_none (h : size = 0 ∨ region.pool s = none) :
    region.allocate L.toRunAllocator dir s size rounds = .ok (0, s) := by
  have hnone : ∀ back pool, size = 0 ∨ pool = none →
      allocateRegion pool back s.kernel size rounds = .ok (0, pool, s.kernel) := by
    rintro back pool (rfl | rfl)
    · rfl
    · rw [allocateRegion]
      split_ifs <;> rfl
  cases region with
  | dma =>
    change (allocateRegion _ _ _ _ _).map _ = _
    rw [hnone _ s.dmaPool h]
    rfl
  | driver =>
    change (allocateRegion _ _ _ _ _).map _ = _
    rw [hnone _ s.driverPool h]
    rfl

theorem free_null : region.free s 0 size rounds = .ok s := by
  cases region <;> rfl

theorem not_roundTrips (ht : Tables L.toLawfulAllocator (under dir) s.kernel.state)
    (hplace : ∀ p, s.driverPool = some p → InPlace p) (hsize : size ≠ 0)
    (hpool : region.pool s = some p) : ¬ RoundTrips L dir region s size := by
  rintro ⟨rounds, base, s₁, s₂, htake, hgive, hrestored⟩
  have hmore := allocate_more ht hplace hsize hpool htake
  have hused := hrestored.used
  rw [free_kernel hgive] at hused
  exact hmore.ne hused.symm

/-- Whatever its size, a region goes round exactly if none is taken: the size is zero, or there is
no pool. -/
theorem roundTrips_iff (ht : Tables L.toLawfulAllocator (under dir) s.kernel.state)
    (hplace : ∀ p, s.driverPool = some p → InPlace p) (region : Region) (size : Addr) :
    RoundTrips L dir region s size ↔ size = 0 ∨ region.pool s = none := by
  constructor
  · intro hround
    by_contra htaken
    obtain ⟨hsize, hpool⟩ := not_or.mp htaken
    obtain ⟨p, hpool⟩ := Option.ne_none_iff_exists'.mp hpool
    exact not_roundTrips ht hplace hsize hpool hround
  · intro hnone
    exact ⟨0, 0, s, s, allocate_none hnone, free_null, rfl, rfl, fun h => absurd rfl h⟩

end RoundTrip

section Pages

def emptyPool (size start : Addr) : Pool :=
  ⟨ChunkPool.cleared (fun _ => 0) (size / 4096).toNat, 4096, start, size, 0, []⟩

def readyKernel : State Pmm.State :=
  ⟨emptyKernel, some (emptyPool memDmaRegionSize memDmaRegion),
    some (emptyPool memDriverRegionSize memDriverRegion)⟩

example :
    memRegionsInitialize (fun _ => 0) (fun _ => 0) ⟨emptyKernel, none, none⟩ = .ok readyKernel :=
  rfl

theorem readyKernel_inPlace : ∀ p, readyKernel.driverPool = some p → InPlace p := by
  intro p hp
  obtain rfl := Option.some.inj hp
  exact @inPlace_created _ (fun _ => 0) rfl

/-- No bytes of a driver. -/
theorem roundTrips_iff_empty : RoundTrips pmmRuns 1 .driver readyKernel 0 :=
  (roundTrips_iff emptyDirectory_tables readyKernel_inPlace .driver 0).mpr (Or.inl rfl)

private def onePageTrip (region : Region) : Except Stop (Addr × Option Bool) := do
  let (base, s) ← region.allocate pmmRuns.toRunAllocator 1 readyKernel 0x1000 2
  let s ← region.free s base 0x1000 2
  return (base, (pageAt s.kernel.state.phys 1 base).map Entry.present)

private theorem onePageTrip_eq {region : Region} {base : Addr}
    (hrun : onePageTrip region = .ok (base, some true)) :
    ∃ s₁ s₂, region.allocate pmmRuns.toRunAllocator 1 readyKernel 0x1000 2 = .ok (base, s₁) ∧
      region.free s₁ base 0x1000 2 = .ok s₂ ∧
      ∃ e, pageAt s₂.kernel.state.phys 1 base = some e ∧ e.present = true := by
  obtain ⟨⟨base', s₁⟩, htake, hrun⟩ := bind_eq_ok hrun
  obtain ⟨s₂, hgive, hrun⟩ := bind_eq_ok hrun
  obtain ⟨rfl, hpage⟩ := Prod.mk.inj (Except.ok.inj hrun)
  exact ⟨s₁, s₂, htake, hgive, Option.map_eq_some_iff.mp hpage⟩

private theorem onePage_not_restored (region : Region) :
    ¬ RoundTrips pmmRuns 1 region readyKernel 0x1000 := by
  obtain ⟨p, hpool⟩ : ∃ p, region.pool readyKernel = some p := by
    cases region <;> exact ⟨_, rfl⟩
  exact not_roundTrips emptyDirectory_tables readyKernel_inPlace (by decide) hpool

/-- A buffer and a driver of one page each are still mapped after they were given back. -/
theorem given_back_still_mapped :
    Tables pmmRuns.toLawfulAllocator (under 1) readyKernel.kernel.state ∧
      (∃ s₁ s₂, memAllocateDMA pmmRuns.toRunAllocator 1 readyKernel 0x1000 2 =
          .ok (0xA0000000, s₁) ∧ memFreeDMA s₁ 0xA0000000 0x1000 2 = .ok s₂ ∧
        ∃ e, pageAt s₂.kernel.state.phys 1 0xA0000000 = some e ∧ e.present = true) ∧
      (∃ s₁ s₂, memMapDriver pmmRuns.toRunAllocator 1 readyKernel 0x1000 2 =
          .ok (0xFFFFFFFF00000000, s₁) ∧ memUnmapDriver s₁ 0xFFFFFFFF00000000 0x1000 2 = .ok s₂ ∧
        ∃ e, pageAt s₂.kernel.state.phys 1 0xFFFFFFFF00000000 = some e ∧ e.present = true) ∧
      ¬ RoundTrips pmmRuns 1 .dma readyKernel 0x1000 ∧
      ¬ RoundTrips pmmRuns 1 .driver readyKernel 0x1000 := by
  refine ⟨emptyDirectory_tables, ?_, ?_, onePage_not_restored .dma, onePage_not_restored .driver⟩
  · exact onePageTrip_eq (show onePageTrip .dma = .ok (0xA0000000, some true) by decide +kernel)
  · exact onePageTrip_eq
      (show onePageTrip .driver = .ok (0xFFFFFFFF00000000, some true) by decide +kernel)

end Pages

end ReduceOS.RegionRoundTrip
