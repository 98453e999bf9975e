import ReduceOS.LiballocCalls
import ReduceOS.LibcHeap

/-!
Runs of liballoc. Its callers keep to the blocks that they have and to requests that 32 bits have
room for; then liballoc is a store of separate blocks for them in every run, never touches what they
keep in a block, and has given back all of its pages when they have given back all blocks.
-/
namespace ReduceOS.LiballocRuns

open Machine Liballoc LiballocHeap LiballocMalloc LiballocFree LiballocCalls BlockStore
  TraceRefinement Packing LibcBreak LibcHeap PmmAllocator

variable {σ : Type} {L : LawfulHooks σ}

structure Served (σ : Type) where
  state : State σ
  live : ℕ → Option ℕ

def Calls (H : Hooks σ) (u : Served σ) (c : Call (BitVec 8)) (r : ℕ) (u' : Served σ) : Prop :=
  Legal u.live c ∧ Returns H u.state c r u'.state ∧ u'.live = told u.live c r

structure Booted (s : State σ) : Prop where
  memRoot : s.memRoot = 0
  bestBet : s.bestBet = 0
  allocated : s.allocated = 0
  inuse : s.inuse = 0

def start (s : State σ) : Served σ := ⟨s, fun _ => none⟩

/-- A store of blocks as its callers see it: they are aligned, and below the end of memory. -/
abbrev Blocks := BlockStore.Step 16 (2 ^ 64) (0 : BitVec 8)

structure Shows (L : LawfulHooks σ) (u : Served σ) (m : Store (BitVec 8)) : Prop where
  serves : ∃ h, Serves L u.state h m
  sizes : sizes m = u.live
  placed : Placed 16 (2 ^ 64) m

variable {s : State σ} {u v : Served σ} {m : Store (BitVec 8)} {tr : List (Call (BitVec 8) × ℕ)}

theorem shows_start (hboot : Booted s) (hpages : L.holds s.pages []) :
    Shows L (start s) (fun _ => none) where
  serves := by
    refine ⟨[], ⟨⟨⟨LinkedSequence.Linked.nil, hboot.memRoot, Or.inl hboot.bestBet,
      List.forall_mem_nil _, List.Pairwise.nil, hboot.allocated, hboot.inuse⟩,
      List.forall_mem_nil _, hpages⟩, fun p c => ⟨fun h => ?_, ?_⟩⟩⟩
    · exact absurd h.symm (Option.some_ne_none c)
    · rintro ⟨b, hb, -⟩
      exact absurd hb List.not_mem_nil
  sizes := rfl
  placed := Placed.empty

theorem shows_simulates : Simulates (Shows L) (Calls L.toHooks) Blocks := by
  rintro u m c r u' ⟨⟨h, hs⟩, hsizes, hplaced⟩ ⟨hlegal, ⟨k, hstep⟩, htold⟩
  obtain ⟨k', hk, hrounds⟩ := exists_rounds h k
  rw [← hsizes] at hlegal htold
  obtain ⟨h', m', hblocks, hs'⟩ := step_serves hs hlegal hrounds (step_mono hk hstep)
  exact ⟨m', hblocks, ⟨h', hs'⟩, (hblocks.sizes_eq hplaced).trans htold.symm,
      hblocks.placed hplaced⟩

theorem shows_of_run (hboot : Booted s) (hpages : L.holds s.pages [])
    (hrun : Run (Calls L.toHooks) (start s) tr u) :
    ∃ m, Run Blocks (fun _ => none) tr m ∧ Shows L u m :=
  shows_simulates.run (shows_start hboot hpages) hrun

section Sample

def blank : State (Caller Pmm.State) where
  majors _ := ⟨0, 0, 0, 0, 0, 0⟩
  minors _ := ⟨0, 0, 0, 0, 0, 0⟩
  bytes _ := 0
  memRoot := 0
  bestBet := 0
  allocated := 0
  inuse := 0
  warningCount := 0
  errorCount := 0
  possibleOverruns := 0
  pages := freshCaller

theorem booted_blank : Booted blank := ⟨rfl, rfl, rfl, rfl⟩

theorem holds_blank : (libcHooks pmm).holds blank.pages [] :=
  ⟨⟨Or.inl rfl, by decide⟩, by decide, List.forall_mem_nil _, List.forall_mem_nil _⟩

def sample : List (Call (BitVec 8) × ℕ) := [(.malloc 24, 0x401060), (.store 0x401060 5 7, 0)]

theorem sample_steps : ∃ s₁ s₂ s₃, step (libcHooks pmm).toHooks 3 blank (.malloc 24) =
      some (0x401060, s₁) ∧
    step (libcHooks pmm).toHooks 3 s₁ (.store 0x401060 5 7) = some (0, s₂) ∧
    step (libcHooks pmm).toHooks 3 s₂ (.calloc 2 4) = some (0x4010c0, s₃) :=
  ⟨_, _, _, rfl, rfl, rfl⟩

theorem run_sample : ∃ u v, Run (Calls (libcHooks pmm).toHooks) (start blank) sample u ∧
    u.live 0x401060 = some 24 ∧
    Run (Calls (libcHooks pmm).toHooks) u [(.calloc 2 4, 0x4010c0)] v := by
  obtain ⟨s₁, s₂, s₃, h₁, h₂, h₃⟩ := sample_steps
  let u₁ : Served (Caller Pmm.State) := ⟨s₁, Function.update (fun _ => none) 0x401060 (some 24)⟩
  let u₃ : Served (Caller Pmm.State) := ⟨s₃, Function.update u₁.live 0x4010c0 (some 8)⟩
  have hmalloc : Calls (libcHooks pmm).toHooks (start blank) (.malloc 24) 0x401060 u₁ := by
    refine ⟨?_, ⟨3, h₁⟩, rfl⟩
    change 24 + 4208 ≤ 2 ^ 32
    decide
  have hstore : Calls (libcHooks pmm).toHooks u₁ (.store 0x401060 5 7) 0 ⟨s₂, u₁.live⟩ :=
    ⟨⟨24, rfl, by decide⟩, ⟨3, h₂⟩, rfl⟩
  have hcalloc : Calls (libcHooks pmm).toHooks ⟨s₂, u₁.live⟩ (.calloc 2 4) 0x4010c0 u₃ := by
    refine ⟨?_, ⟨3, h₃⟩, rfl⟩
    change 2 * 4 < 2 ^ 31
    decide
  exact ⟨_, u₃, (Run.start.call hmalloc).call hstore, rfl, Run.start.call hcalloc⟩

end Sample

/-- Whatever is seen of a run of liballoc can be seen of a store of separate blocks, with the
contents that are in memory. -/
theorem liballoc_refines_blocks (hboot : Booted s) (hpages : L.holds s.pages [])
    (hrun : Run (Calls L.toHooks) (start s) tr u) :
    ∃ m, Run Blocks (fun _ => none) tr m ∧ BlockStore.sizes m = u.live ∧
      ∀ p c, m p = some c → c = load u.state.bytes p c.length := by
  obtain ⟨m, hblocks, ⟨h, hs⟩, hsizes, -⟩ := shows_of_run hboot hpages hrun
  refine ⟨m, hblocks, hsizes, fun p c hp => ?_⟩
  obtain ⟨b, -, rfl, rfl⟩ := (hs.contents p c).mp hp
  rw [length_load]

theorem blank_refines_blocks : ∃ u, Run (Calls (libcHooks pmm).toHooks) (start blank) sample u ∧
    ∃ m, Run Blocks (fun _ => none) sample m ∧ BlockStore.sizes m = u.live ∧
      ∀ p c, m p = some c → c = load u.state.bytes p c.length := by
  obtain ⟨u, -, hrun, -⟩ := run_sample
  exact ⟨u, hrun, liballoc_refines_blocks booted_blank holds_blank hrun⟩

/-- Every legal call that could come next returns, unless the hook has no pages for it. -/
theorem calls_return (haccepts : Accepts L) (hboot : Booted s) (hpages : L.holds s.pages [])
    (hrun : Run (Calls L.toHooks) (start s) tr u) {c : Call (BitVec 8)}
    (hlegal : Legal u.live c) :
    (∃ r s', Returns L.toHooks u.state c r s') ∨ Unserved L u.state c := by
  obtain ⟨m, -, ⟨h, hs⟩, hsizes, -⟩ := shows_of_run hboot hpages hrun
  rw [← hsizes] at hlegal
  exact step_returns haccepts hs hlegal

theorem calls_return_libc : ∃ u, Run (Calls (libcHooks pmm).toHooks) (start blank) sample u ∧
    ((∃ r s', Returns (libcHooks pmm).toHooks u.state (.free 0x401060) r s') ∨
      Unserved (libcHooks pmm) u.state (.free 0x401060)) := by
  obtain ⟨u, -, hrun, hlive, -⟩ := run_sample
  have haccepts : Accepts (libcHooks pmm) := fun _ _ _ _ _ => rfl
  refine ⟨u, hrun, calls_return haccepts booted_blank holds_blank hrun (Or.inr ?_)⟩
  rw [hlive]
  rfl

/-- A block that the calls of a run are not about keeps its size and its bytes. -/
theorem bytes_kept (hboot : Booted s) (hpages : L.holds s.pages [])
    (hrun : Run (Calls L.toHooks) (start s) tr u) {p n : ℕ} (hp : u.live p = some n)
    {later : List (Call (BitVec 8) × ℕ)} (hlater : Run (Calls L.toHooks) u later v)
    (hnot : ∀ c ∈ later, c.1.target ≠ some p) :
    v.live p = some n ∧ load v.state.bytes p n = load u.state.bytes p n := by
  obtain ⟨m, -, hshows⟩ := shows_of_run hboot hpages hrun
  have hvalue : ∀ {w : Served σ} {m' : Store (BitVec 8)}, Shows L w m' → ∀ c, m' p = some c →
      w.live p = some c.length ∧ c = load w.state.bytes p c.length := by
    rintro w m' ⟨⟨h, hs⟩, hsizes, -⟩ c hc
    obtain ⟨b, -, rfl, rfl⟩ := (hs.contents p c).mp hc
    rw [length_load, ← hsizes]
    unfold BlockStore.sizes
    rw [hc, Option.map_some, length_load]
    exact ⟨rfl, rfl⟩
  obtain ⟨contents, hcontents⟩ : ∃ c, m p = some c := by
    rw [← hshows.sizes] at hp
    unfold BlockStore.sizes at hp
    obtain ⟨c, hc, -⟩ := Option.map_eq_some_iff.mp hp
    exact ⟨c, hc⟩
  have hend : ∃ m', Shows L v m' ∧ m' p = some contents := by
    induction hlater with
    | start => exact ⟨m, hshows, hcontents⟩
    | call _ hstep ih =>
      obtain ⟨m₁, hshows₁, hm₁⟩ := ih fun c hc => hnot c (List.mem_append_left _ hc)
      obtain ⟨m₂, hstep₂, hshows₂⟩ := shows_simulates _ _ _ _ _ hshows₁ hstep
      refine ⟨m₂, hshows₂, hstep₂.kept hm₁ ?_⟩
      exact hnot _ (List.mem_append_right _ List.mem_cons_self)
  obtain ⟨m', hshows', hm'⟩ := hend
  obtain ⟨hlive, hload⟩ := hvalue hshows _ hcontents
  obtain ⟨hlive', hload'⟩ := hvalue hshows' _ hm'
  have hn : n = contents.length := Option.some.inj (hp.symm.trans hlive)
  rw [hn]
  exact ⟨hlive', hload'.symm.trans hload⟩

theorem bytes_kept_sample : ∃ u v, Run (Calls (libcHooks pmm).toHooks) (start blank) sample u ∧
    Run (Calls (libcHooks pmm).toHooks) u [(.calloc 2 4, 0x4010c0)] v ∧
    (v.live 0x401060 = some 24 ∧
      load v.state.bytes 0x401060 24 = load u.state.bytes 0x401060 24) := by
  obtain ⟨u, v, hrun, hlive, hlater⟩ := run_sample
  refine ⟨u, v, hrun, hlater, bytes_kept booted_blank holds_blank hrun hlive hlater ?_⟩
  intro c hc
  rw [List.mem_singleton.mp hc]
  exact (Option.some_ne_none _).symm

/-- The bytes of a block lie in the run of pages of one of the majors, behind its minor and apart
from all that liballoc keeps there: the majors, the minors and the bytes behind the minors. -/
structure Clear (h : List Chunk) (p n : ℕ) : Prop where
  inside : ∃ c ∈ h, c.base ≤ p ∧ p + n ≤ c.stop
  majors : ∀ c ∈ h, p + n ≤ c.start ∨ c.start + majorBytes ≤ p
  minors : ∀ b ∈ blocksOf h, p + n ≤ b.start ∨ b.start + minorBytes ≤ p
  infos : ∀ b ∈ blocksOf h, p + n ≤ b.payload - alignInfo ∨ b.payload - alignInfo < p

theorem clear_block {h : List Chunk} {b : Block} (hat : HeapAt s h) (hb : b ∈ blocksOf h) :
    Clear h b.payload b.reqSize := by
  have hbounds := block_bounds hat hb
  obtain ⟨c, hc, hbc⟩ := exists_chunk hb
  have hcat := hat.chunks c hc
  obtain ⟨hlo, hhi⟩ := hcat.bounds hbc
  have hbase := hlo
  unfold Chunk.base at hbase
  unfold alignInfo minorBytes at hbounds
  refine ⟨⟨c, hc, by omega, by omega⟩, fun d hd => ?_, fun b' hb' => ?_, fun b' hb' => ?_⟩
  · by_cases hcd : c = d
    · subst hcd
      exact Or.inr (by omega)
    · have hsymm : Std.Symm Chunk.Apart := ⟨fun _ _ hapart => Or.symm hapart⟩
      have hapart := hat.apart.forall hc hd hcd
      have hdbase := (hat.chunks d hd).base_le
      unfold Chunk.Apart at hapart
      unfold Chunk.base at hdbase
      omega
  · by_cases hbb : b = b'
    · subst hbb
      exact Or.inr (by unfold minorBytes; omega)
    · have hapart := blocks_apart hat hb hb' hbb
      unfold Block.Apart Block.stop at hapart
      unfold Block.stop at hbounds
      omega
  · by_cases hbb : b = b'
    · subst hbb
      exact Or.inr (by unfold alignInfo; omega)
    · have hapart := blocks_apart hat hb hb' hbb
      have hbounds' := block_bounds hat hb'
      unfold Block.Apart at hapart
      unfold alignInfo minorBytes at hbounds'
      unfold alignInfo
      omega

/-- In every run each block lies clear of what liballoc keeps in memory, its pointer is aligned, and
the counters are the sums of what is allocated and in use. -/
theorem blocks_clear (hboot : Booted s) (hpages : L.holds s.pages [])
    (hrun : Run (Calls L.toHooks) (start s) tr u) :
    ∃ h, HeapAt u.state h ∧ L.holds u.state.pages (h.map Chunk.run) ∧
      ∀ p n, u.live p = some n → p % 16 = 0 ∧ Clear h p n := by
  obtain ⟨m, -, ⟨h, hs⟩, hsizes, -⟩ := shows_of_run hboot hpages hrun
  refine ⟨h, hs.toHeapAt, hs.pages, fun p n hp => ?_⟩
  rw [← hsizes] at hp
  obtain ⟨b, hb, rfl, hcontents⟩ := exists_block hs (by rw [hp]; rfl)
  have hn : b.reqSize = n := by
    unfold BlockStore.sizes at hp
    rw [hcontents] at hp
    simpa using hp
  rw [← hn]
  exact ⟨(block_bounds hs.toHeapAt hb).2.2.2.1, clear_block hs.toHeapAt hb⟩

theorem blocks_clear_sample : ∃ u, Run (Calls (libcHooks pmm).toHooks) (start blank) sample u ∧
    ∃ h, HeapAt u.state h ∧ (libcHooks pmm).holds u.state.pages (h.map Chunk.run) ∧
      ∀ p n, u.live p = some n → p % 16 = 0 ∧ Clear h p n := by
  obtain ⟨u, -, hrun, -⟩ := run_sample
  exact ⟨u, hrun, blocks_clear booted_blank holds_blank hrun⟩

/-- When its callers have given back all blocks, liballoc has given back all pages, and its counters
are zero again. -/
theorem all_returned (hboot : Booted s) (hpages : L.holds s.pages [])
    (hrun : Run (Calls L.toHooks) (start s) tr u) (hnone : ∀ p, u.live p = none) :
    Booted u.state ∧ L.holds u.state.pages [] := by
  obtain ⟨m, -, ⟨h, hs⟩, hsizes, -⟩ := shows_of_run hboot hpages hrun
  have hempty : h = [] := by
    cases h with
    | nil => rfl
    | cons c r =>
      obtain ⟨b, bs, hblocks⟩ := List.exists_cons_of_ne_nil (hs.full c List.mem_cons_self)
      have hb : b ∈ blocksOf (c :: r) := by
        refine List.mem_flatMap.mpr ⟨c, List.mem_cons_self, ?_⟩
        rw [hblocks]
        exact List.mem_cons_self
      have hlive := hnone b.payload
      rw [← hsizes] at hlive
      unfold BlockStore.sizes at hlive
      rw [hs.lookup hb] at hlive
      exact absurd hlive (Option.some_ne_none _)
  subst hempty
  exact ⟨⟨hs.root, hs.best.resolve_right List.not_mem_nil, hs.allocated, hs.inuse⟩, hs.pages⟩

theorem all_returned_sample : ∃ u,
    Run (Calls (libcHooks pmm).toHooks) (start blank) [(.malloc 24, 0x401060), (.free 0x401060, 0)]
      u ∧ (Booted u.state ∧ (libcHooks pmm).holds u.state.pages []) := by
  obtain ⟨s₁, s₂, h₁, h₂⟩ : ∃ s₁ s₂,
      step (libcHooks pmm).toHooks 3 blank (.malloc 24) = some (0x401060, s₁) ∧
      step (libcHooks pmm).toHooks 3 s₁ (.free 0x401060) = some (0, s₂) := ⟨_, _, rfl, rfl⟩
  let live : ℕ → Option ℕ := Function.update (fun _ => none) 0x401060 (some 24)
  have hmalloc : Calls (libcHooks pmm).toHooks (start blank) (.malloc 24) 0x401060 ⟨s₁, live⟩ := by
    refine ⟨?_, ⟨3, h₁⟩, rfl⟩
    change 24 + 4208 ≤ 2 ^ 32
    decide
  have hfree : Calls (libcHooks pmm).toHooks ⟨s₁, live⟩ (.free 0x401060) 0
      ⟨s₂, Function.update live 0x401060 none⟩ := ⟨Or.inr rfl, ⟨3, h₂⟩, rfl⟩
  have hrun := (Run.start.call hmalloc).call hfree
  refine ⟨_, hrun, all_returned booted_blank holds_blank hrun fun p => ?_⟩
  by_cases hp : p = 0x401060
  · rw [hp]
    rfl
  · simp [live, hp]

/-- `malloc` takes the first gap with the room in one of the majors, and asks the hook for pages
only if no major has such a gap; it has no block only if the hook has no pages. -/
theorem malloc_places (hboot : Booted s) (hpages : L.holds s.pages [])
    (hrun : Run (Calls L.toHooks) (start s) tr u) {n r : ℕ} {s' : State σ} (hreq : Request n)
    (hret : Returns L.toHooks u.state (.malloc n) r s') :
    ∃ h, HeapAt u.state h ∧ Searched L u.state h (n + 32) n (some (r, s')) := by
  obtain ⟨m, -, ⟨h, hs⟩, -, -⟩ := shows_of_run hboot hpages hrun
  obtain ⟨k, hstep⟩ := hret
  obtain ⟨k', hk, hrounds⟩ := exists_rounds h k
  have hsearch := malloc_spec hs.toHeap hreq hrounds
  have hmalloc : Liballoc.malloc L.toHooks u.state k' n = some (r, s') := step_mono hk hstep
  rw [hmalloc] at hsearch
  exact ⟨h, hs.toHeapAt, hsearch⟩

theorem malloc_places_blank : ∃ s' h, HeapAt blank h ∧
    Searched (libcHooks pmm) blank h (24 + 32) 24 (some (0x401060, s')) := by
  obtain ⟨s₁, -, -, h₁, -⟩ := sample_steps
  have hreq : Request 24 := by
    change 24 + 4208 ≤ 2 ^ 32
    decide
  exact ⟨s₁, malloc_places booted_blank holds_blank Run.start hreq ⟨3, h₁⟩⟩

section Libc

variable {P : Type} {A : Physical.Allocator P} {s : State (Caller P)} {u : Served (Caller P)}

/-- In libpolyhedron all blocks lie between `heap_base` and the break, where the page fault handler
puts a page under them. -/
theorem libc_blocks_in_heap (hboot : Booted s) (hpages : InHeap s.pages [])
    (hrun : Run (Calls (libcHooks A).toHooks) (start s) tr u) {p n : ℕ}
    (hp : u.live p = some n) :
    u.state.pages.process.heapBase.toNat ≤ p ∧ p + n ≤ u.state.pages.process.heap.toNat := by
  obtain ⟨h, -, hin, hblocks⟩ := blocks_clear (L := libcHooks A) hboot hpages hrun
  obtain ⟨c, hc, hlo, hhi⟩ := (hblocks p n hp).2.inside
  have habove := hin.above c.run (List.mem_map_of_mem hc)
  have hbelow := hin.below c.run (List.mem_map_of_mem hc)
  unfold Chunk.base at hlo
  unfold Chunk.stop at hhi
  unfold Chunk.run at habove hbelow
  dsimp only at habove hbelow
  omega

theorem libc_blocks_in_heap_sample :
    ∃ u, Run (Calls (libcHooks pmm).toHooks) (start blank) sample u ∧
      (u.state.pages.process.heapBase.toNat ≤ 0x401060 ∧
        0x401060 + 24 ≤ u.state.pages.process.heap.toNat) := by
  obtain ⟨u, -, hrun, hlive, -⟩ := run_sample
  exact ⟨u, hrun, libc_blocks_in_heap booted_blank holds_blank hrun hlive⟩

end Libc

end ReduceOS.LiballocRuns
