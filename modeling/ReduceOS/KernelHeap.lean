import ReduceOS.LiballocRuns
import ReduceOS.RegionFree

/-!
The hooks of liballoc in the kernel. `liballoc_alloc` looks for free pages by itself, from the page
behind the last run it gave out or at the start of the last run it got back, and maps them;
`liballoc_free` unmaps them. What liballoc hands out has frames of its own under it.
-/
namespace ReduceOS.KernelHeap

open Machine Page Physical Paging Outcome TableTree PageMap MapAddress UserHeap PointerCheck
  CopyOnWrite KernelMappings AddressAliases RegionAllocation RegionFree LiballocMalloc


/-- Memory, `mem_kernelHeap` and `liballoc_first_free_page`. -/
structure Caller (P : Type) where
  state : State P
  kernelHeap : Addr
  firstFreePage : Addr

section Source

variable {P : Type} (A : Allocator P) (dir : FrameNo)

/-- Whether `liballoc_alloc` passes over a page: it is present, with a frame. -/
def occupied (s : State P) : Option Slot → Bool
  | some pg => (State.entry s pg).present && (State.entry s pg).address != 0
  | none => false

/-- The search of `liballoc_alloc`. It is over once it has found `n` pages in a row, if there are
any; the rounds are bounded here only. -/
def findPages (n : ℕ) : ℕ → Addr → ℕ → Addr → State P → Except Panic (Option (Addr × State P))
  | 0, _, _, _, _ => .ok none
  | rounds + 1, search, foundPages, start, s => do
    let (pg, s) ← memGetPage A s dir search memDefault
    if occupied s pg then findPages n rounds (search + 0x1000#64) 0 0 s
    else
      let foundPages := foundPages + 1
      let start := if start = 0 then search else start
      if n ≤ foundPages then return some (start, s)
      else findPages n rounds (search + 0x1000#64) foundPages start s

def mapPage (s : State P) (i : Addr) : Except Panic (State P) := do
  let (pg, s) ← memGetPage A s dir i memCreate
  memAllocatePage A s pg memPageKernel

def unmapPage (s : State P) (i : Addr) : Except Panic (State P) := do
  let (pg, s) ← memGetPage A s dir i memDefault
  match pg with
  | some pg => memFreePage A s pg
  | none => return s

def runPages (start : Addr) (n : ℕ) : List Addr :=
  (List.range n).map fun k => start + BitVec.ofNat 64 (k * pageSize)

def searchRounds : ℕ := 2 ^ 52

/-- `liballoc_alloc`; no answer is a panic, or a search without end. -/
def liballocAlloc (c : Caller P) (n : ℕ) : Option (Addr × Caller P) :=
  let first := if c.firstFreePage = 0 then c.kernelHeap else c.firstFreePage
  match findPages A dir n searchRounds first 0 0 c.state with
  | .ok (some (start, s)) =>
    match (runPages start n).foldlM (mapPage A dir) s with
    | .ok s => some (start,
        { state := s
          firstFreePage := start + BitVec.ofNat 64 (n * pageSize)
          kernelHeap := start + BitVec.ofNat 64 ((n + 1) * pageSize) })
    | .error _ => none
  | .ok none => none
  | .error _ => none

def liballocFree (c : Caller P) (ptr : Addr) (n : ℕ) : Option (Caller P) :=
  match (runPages ptr n).foldlM (unmapPage A dir) c.state with
  | .ok s => some { c with state := s, firstFreePage := ptr }
  | .error _ => none

end Source

def memHeapRegion : Addr := 0xFFFFFF0000000000

section Pages

variable {P : Type} {L : LawfulAllocator P} {dir : FrameNo} {s₀ s s' : State P} {S T : Set Addr}
  {i j : Addr} {n : ℕ}

structure HeapPage (i : Addr) : Prop where
  aligned : i.toNat % pageSize = 0
  above : memHeapRegion.toNat ≤ i.toNat
  below : i.toNat < physmemMapRegion.toNat

theorem heapRegion_toNat : memHeapRegion.toNat = 2 ^ 64 - 2 ^ 40 := rfl

theorem physmemMap_toNat : physmemMapRegion.toNat = 2 ^ 64 - 2 ^ 39 := rfl

theorem HeapPage.accepted (hi : HeapPage i) : Accepted i := by
  refine ⟨hi.aligned, (isCanonical_iff i).mpr (Or.inr ?_)⟩
  have habove := hi.above
  rw [heapRegion_toNat] at habove
  omega

theorem HeapPage.position_ne (hi : HeapPage i) (hj : HeapPage j) (hne : j ≠ i) :
    position j ≠ position i := by
  intro heq
  have hindices : path i = path j ∧ pagetblIndex i = pagetblIndex j :=
    (List.append_inj' heq.symm rfl).imp id fun h => (List.cons.inj h).1
  have hmod := (hi.accepted.indices_iff hj.accepted).mp hindices
  have hi' := hi.above
  have hj' := hj.above
  rw [heapRegion_toNat] at hi' hj'
  have hi'' := i.isLt
  have hj'' := j.isLt
  exact hne (BitVec.eq_of_toNat_eq (by omega))

/-- The pages of `S` are present, closed to user code, and have frames of their own that were not
used in `s₀`; the heap has no large pages. -/
structure Backed (L : LawfulAllocator P) (dir : FrameNo) (s₀ : State P) (S : Set Addr)
    (s : State P) : Prop where
  frames : ∃ fr, Mapped L dir s₀ fr S s
  shown : ∀ i ∈ S, ∃ e, pageAt s.phys dir i = some e ∧ e.present = true ∧ e.usermode = false
  heap : ∀ i ∈ S, HeapPage i
  small : ∀ i, HeapPage i → Small s.phys dir (path i)

/-- A new table leaves the page entries that there are. -/
theorem Added.pageAt_eq {g h : FrameNo} {k : Fin 512} {p : List (Fin 512)} {e : Entry}
    (ht : Tables L (under dir) s) (hadd : Added L s s' g k h)
    (habs : (s.phys g k).present = false) (hg : tableAt kNext s.phys dir p = some g)
    (hlen : p.length < 3) (hi : pageAt s.phys dir i = some e) : pageAt s'.phys dir i = some e := by
  have hshape := Tables.shape ht
  have hgrow := Added.grow hshape hadd habs
  obtain ⟨t, hat, rfl⟩ := Option.map_eq_some_iff.mp hi
  have htg : t ≠ g := by
    rintro rfl
    have hsame := congrArg List.length (Tables.position_eq ht hat hg)
    simp [path] at hsame
    omega
  have hth : t ≠ h := by
    rintro rfl
    exact hadd.fresh (hshape.inUse _ _ hat)
  simp only [pageAt, entryAt, hgrow.keep hat, Option.map_some, hadd.others t _ hth (Or.inl htg)]

/-- The walk of `mem_getPage` leaves the page entries that there are. -/
theorem memGetPage_keeps (ht : Tables L (under dir) s) (hj : isCanonical j = true) :
    Meets Any (memGetPage L.toAllocator s dir j memCreate) fun res =>
      ∀ pg, res.1 = some pg → ∀ i e, pageAt s.phys dir i = some e →
        pageAt res.2.phys dir i = some e := by
  let J : State P → Prop := fun s₁ => Tables L (under dir) s₁ ∧
    ∀ i e, pageAt s.phys dir i = some e → pageAt s₁.phys dir i = some e
  refine meets_mono (memGetPage_rule (J := J) (E := fun _ => True) hj ⟨ht, fun _ _ h => h⟩ ?_) ?_
  · rintro s₁ q k g ⟨ht₁, hkept⟩ - hlen hg
    refine meets_mono (descend_added (Tables.shape ht₁) hg hlen) ?_
    rintro ⟨o, s₂⟩ hres
    cases o with
    | none => exact trivial
    | some h =>
      obtain ⟨hat, rfl | ⟨habs, h', hadd⟩⟩ := hres
      · exact ⟨hat, ht₁, hkept⟩
      · exact ⟨hat, Tables.added ht₁ hadd habs, fun i e hi =>
          Added.pageAt_eq ht₁ hadd habs hg hlen (hkept i e hi)⟩
  · rintro ⟨o, s'⟩ hres
    cases o with
    | none => exact fun _ h => absurd h.symm (Option.some_ne_none _)
    | some pg =>
      obtain ⟨t, rfl, -, -, hkept⟩ := hres
      exact fun _ _ => hkept

theorem Backed.map (hb : Backed L dir s₀ S s) (hi : HeapPage i) (hnot : i ∉ S)
    (hcall : mapPage L.toAllocator dir s i = .ok s') : Backed L dir s₀ (insert i S) s' := by
  obtain ⟨fr, hm⟩ := hb.frames
  have hcanon := hi.accepted.canonical
  obtain ⟨⟨o, s₁⟩, hget, hset⟩ := bind_eq_ok hcall
  obtain ⟨hgrown, hres⟩ := meets_of_eq_ok (memGetPage_grown hm.tree hcanon) hget
  cases o with
  | none => exact absurd (hb.small i hi) hres.1
  | some pg =>
    obtain ⟨-, t, rfl, hat⟩ := hres
    have hkept := meets_of_eq_ok (memGetPage_keeps hm.tree hcanon) hget _ rfl
    obtain ⟨hm₁, -⟩ := meets_of_eq_ok (memGetPage_mapped hm hcanon) hget _ rfl
    have hfree : has memPageKernel memPageFree = false := by decide
    have hno : has memPageKernel memPageNoalloc = false := by decide
    have hapart : ∀ j ∈ S, position j ≠ position i := fun j hj =>
      hi.position_ne (hb.heap j hj) fun heq => hnot (heq ▸ hj)
    have hframes := meets_of_eq_ok (hm₁.map hat hapart hfree hno) hset
    have hgrown' := (meets_of_eq_ok (memAllocatePage_grown hm₁.tree hat _ hfree) hset).1
    obtain ⟨f, pmm, -, -, -, -, rfl⟩ :=
      meets_of_eq_ok (memAllocatePage_fresh L hm₁.tree.valid _ hfree hno) hset
    obtain ⟨-, hself, hothers⟩ := pageAt_setEntry hm₁.tree hat
      (configure { s₁.phys t (pagetblIndex i) with address := f } memPageKernel)
    refine ⟨hframes, ?_, ?_, fun j hj => ?_⟩
    · rintro j (rfl | hj)
      · exact ⟨_, hself, rfl, rfl⟩
      · obtain ⟨e, he, hbits⟩ := hb.shown j hj
        exact ⟨e, (hothers j (hapart j hj)).trans (hkept j e he), hbits⟩
    · rintro j (rfl | hj)
      · exact hi
      · exact hb.heap j hj
    · exact ((hgrown.trans hgrown').sizes.small (by simp [path])).mpr (hb.small j hj)

theorem unmapPage_eq {A : Allocator P} (s : State P) (i : Addr) :
    unmapPage A dir s i = freeAt A dir s i := by
  unfold unmapPage freeAt
  cases memGetPage A s dir i memDefault with
  | error e => rfl
  | ok res =>
    obtain ⟨o, s'⟩ := res
    cases o with
    | none => rfl
    | some pg =>
      have hflag : has memPageFree memPageFree = true := by decide
      change memFreePage A s' pg = memAllocatePage A s' (some pg) memPageFree
      simp only [memAllocatePage, hflag, if_true]

/-- Unmapping a page that nothing refers to leaves the size bits above the page entries. -/
theorem freeAt_sizes {t : FrameNo} (ht : Tables L (under dir) s)
    (hat : tableAt kNext s.phys dir (path i) = some t) (hcanon : isCanonical i = true)
    (hzero : s.refs (s.phys t (pagetblIndex i)).address = 0)
    (hcall : freeAt L.toAllocator dir s i = .ok s') : SameSizes dir s.phys s'.phys := by
  unfold freeAt at hcall
  rw [memGetPage_of_clear hcanon (clear_of_walk hat), hat] at hcall
  change memAllocatePage L.toAllocator s (some (t, pagetblIndex i)) memPageFree = _ at hcall
  have hflag : has memPageFree memPageFree = true := by decide
  simp only [memAllocatePage, hflag, if_true] at hcall
  rw [memFreePage_uncounted s (t, pagetblIndex i) hzero, releasePage_eq] at hcall
  obtain rfl := Except.ok.inj hcall
  exact (Grown.leaf ht hat _ _ ht.valid subset_rfl).sizes

theorem Backed.unmap (hb : Backed L dir s₀ S s) (hrefs : ∀ f ∉ L.used s₀.pmm, s₀.refs f = 0)
    (hi : i ∈ S) : ∃ s', unmapPage L.toAllocator dir s i = .ok s' ∧
      Backed L dir s₀ (S \ {i}) s' := by
  obtain ⟨fr, hm⟩ := hb.frames
  have hpage := hb.heap i hi
  have hcanon := hpage.accepted.canonical
  have hapart : ∀ j ∈ S, j ≠ i → position j ≠ position i := fun j hj hne =>
    hpage.position_ne (hb.heap j hj) hne
  obtain ⟨s', hcall, hm', -, hothers⟩ := hm.free hrefs hi hcanon hapart
  obtain ⟨e, hshown, haddress⟩ := Option.map_eq_some_iff.mp (hm.shown i hi)
  obtain ⟨t, hat, rfl⟩ := Option.map_eq_some_iff.mp hshown
  have hzero : s.refs (s.phys t (pagetblIndex i)).address = 0 := by
    rw [haddress, hm.refs]
    exact hrefs _ (hm.fresh i hi)
  have hsizes := freeAt_sizes hm.tree hat hcanon hzero hcall
  refine ⟨s', (unmapPage_eq s i).trans hcall, ⟨fr, hm'⟩, ?_, fun j hj => hb.heap j hj.1,
    fun j hj => (hsizes.small (by simp [path])).mpr (hb.small j hj)⟩
  rintro j ⟨hj, hne⟩
  obtain ⟨e, he, hbits⟩ := hb.shown j hj
  exact ⟨e, (hothers j (hapart j hj hne)).trans he, hbits⟩

/-- The loop of `liballoc_alloc` over a run. -/
theorem Backed.mapRun {l : List Addr} (hb : Backed L dir s₀ S s) (hnodup : l.Nodup)
    (hl : ∀ i ∈ l, HeapPage i ∧ i ∉ S) (hcall : l.foldlM (mapPage L.toAllocator dir) s = .ok s') :
    Backed L dir s₀ (S ∪ {i | i ∈ l}) s' := by
  induction l generalizing s S with
  | nil =>
    obtain rfl := Except.ok.inj hcall
    simpa using hb
  | cons i l ih =>
    obtain ⟨hnot, hnodup⟩ := List.nodup_cons.mp hnodup
    obtain ⟨hi, hiS⟩ := hl i List.mem_cons_self
    rw [List.foldlM_cons] at hcall
    obtain ⟨s₁, hmap, hrest⟩ := bind_eq_ok hcall
    have hb' := ih (hb.map hi hiS hmap) hnodup (fun j hj =>
      ⟨(hl j (List.mem_cons_of_mem i hj)).1, by
        rintro (rfl | hj')
        · exact hnot hj
        · exact (hl j (List.mem_cons_of_mem i hj)).2 hj'⟩) hrest
    have hset : S ∪ {j | j ∈ i :: l} = insert i S ∪ {j | j ∈ l} := by
      ext j
      simp only [Set.mem_union, Set.mem_ofPred_eq, List.mem_cons, Set.mem_insert_iff]
      tauto
    rwa [hset]

/-- The loop of `liballoc_free` over a run. -/
theorem Backed.unmapRun {l : List Addr} (hb : Backed L dir s₀ S s)
    (hrefs : ∀ f ∉ L.used s₀.pmm, s₀.refs f = 0) (hnodup : l.Nodup) (hl : ∀ i ∈ l, i ∈ S) :
    ∃ s', l.foldlM (unmapPage L.toAllocator dir) s = .ok s' ∧
      Backed L dir s₀ (S \ {i | i ∈ l}) s' := by
  induction l generalizing s S with
  | nil => exact ⟨s, rfl, by simpa using hb⟩
  | cons i l ih =>
    obtain ⟨hnot, hnodup⟩ := List.nodup_cons.mp hnodup
    obtain ⟨s₁, hcall, hb₁⟩ := hb.unmap hrefs (hl i List.mem_cons_self)
    obtain ⟨s', hrest, hb'⟩ := ih hb₁ hnodup fun j hj =>
      ⟨hl j (List.mem_cons_of_mem i hj), fun heq => hnot (Set.mem_singleton_iff.mp heq ▸ hj)⟩
    have hset : S \ {j | j ∈ i :: l} = (S \ {i}) \ {j | j ∈ l} := by
      ext j
      simp only [Set.mem_sdiff, Set.mem_ofPred_eq, List.mem_cons, Set.mem_singleton_iff]
      tauto
    refine ⟨s', ?_, hset ▸ hb'⟩
    rw [List.foldlM_cons, hcall]
    exact hrest

/-- Pages of the heap that are in use are passed over. -/
theorem Backed.occupied {pg : Option Slot} (hb : Backed L dir s₀ S s)
    (hzero : 0 ∈ L.used s₀.pmm) (hi : i ∈ S)
    (hget : memGetPage L.toAllocator s dir i memDefault = .ok (pg, s')) :
    KernelHeap.occupied s' pg = true := by
  obtain ⟨fr, hm⟩ := hb.frames
  obtain ⟨e, hshown, hpres, -⟩ := hb.shown i hi
  have haddress := hm.shown i hi
  rw [hshown, Option.map_some, Option.some.injEq] at haddress
  obtain ⟨t, hat, rfl⟩ := Option.map_eq_some_iff.mp hshown
  rw [memGetPage_of_clear (hb.heap i hi).accepted.canonical (clear_of_walk hat), hat] at hget
  obtain ⟨rfl, rfl⟩ := Prod.mk.inj (Except.ok.inj hget)
  have hne : fr i ≠ 0 := fun heq => hm.fresh i hi (heq ▸ hzero)
  change ((s.phys t (pagetblIndex i)).present && (s.phys t (pagetblIndex i)).address != 0) = true
  rw [hpres, haddress, Bool.true_and, bne_iff_ne]
  exact hne

end Pages

section Search

variable {P : Type} {A : Allocator P} {dir : FrameNo} {s s' : State P} {n rounds foundPages : ℕ}
  {search start a : Addr}

def Free (A : Allocator P) (dir : FrameNo) (s : State P) (i : Addr) : Prop :=
  ∃ pg, memGetPage A s dir i memDefault = .ok (pg, s) ∧ occupied s pg = false

/-- What the search has found so far: the pages before the one it looks at. The page at address 0,
which it comes to at the end of memory, is no start to it. -/
def Found (A : Allocator P) (dir : FrameNo) (s : State P) (search : Addr) (foundPages : ℕ)
    (start : Addr) : Prop :=
  (start = 0 ∧ foundPages = 0) ∨ (start = 0 ∧ search = 0x1000#64) ∨ start = 0x1000#64 ∨
    start ≠ 0 ∧ start.toNat % pageSize = 0 ∧
      search = start + BitVec.ofNat 64 (foundPages * pageSize) ∧
        ∀ k < foundPages, Free A dir s (start + BitVec.ofNat 64 (k * pageSize))

theorem Found.next (hfound : Found A dir s search foundPages start)
    (halign : search.toNat % pageSize = 0) (hfree : Free A dir s search) :
    Found A dir s (search + 0x1000#64) (foundPages + 1) (if start = 0 then search else start) := by
  rcases hfound with ⟨rfl, rfl⟩ | ⟨rfl, rfl⟩ | rfl | ⟨hne, hstart, rfl, hpages⟩
  · rw [if_pos rfl]
    by_cases hsearch : search = 0
    · subst hsearch
      exact Or.inr (Or.inl ⟨rfl, rfl⟩)
    · refine Or.inr (Or.inr (Or.inr ⟨hsearch, halign, rfl, fun k hk => ?_⟩))
      obtain rfl : k = 0 := by omega
      simpa using hfree
  · exact Or.inr (Or.inr (Or.inl rfl))
  · exact Or.inr (Or.inr (Or.inl rfl))
  · rw [if_neg hne]
    refine Or.inr (Or.inr (Or.inr ⟨hne, hstart, ?_, fun k hk => ?_⟩))
    · rw [Nat.add_one_mul, BitVec.ofNat_add, BitVec.add_assoc]
      rfl
    · rcases Nat.lt_succ_iff_lt_or_eq.mp hk with hk | rfl
      · exact hpages k hk
      · exact hfree

/-- The search answers with `n` pages in a row that are free. -/
theorem findPages_spec (hfound : Found A dir s search foundPages start)
    (halign : search.toNat % pageSize = 0)
    (hcall : findPages A dir n rounds search foundPages start s = .ok (some (a, s'))) :
    s' = s ∧ (a = 0 ∨ a = 0x1000#64 ∨ a.toNat % pageSize = 0 ∧
      ∀ k < n, Free A dir s (a + BitVec.ofNat 64 (k * pageSize))) := by
  induction rounds generalizing search foundPages start with
  | zero => exact absurd (Except.ok.inj hcall).symm (Option.some_ne_none _)
  | succ rounds ih =>
    rw [findPages] at hcall
    obtain ⟨⟨pg, s₁⟩, hget, hrest⟩ := bind_eq_ok hcall
    obtain rfl := memGetPage_unchanged hget
    have halign' : (search + 0x1000#64).toNat % pageSize = 0 := by
      rw [BitVec.toNat_add]
      unfold pageSize at halign ⊢
      simp only [BitVec.toNat_ofNat]
      omega
    dsimp only at hrest
    by_cases hocc : occupied s₁ pg = true
    · rw [if_pos hocc] at hrest
      exact ih (Or.inl ⟨rfl, rfl⟩) halign' hrest
    · rw [if_neg hocc] at hrest
      have hnext := hfound.next halign ⟨pg, hget, by simpa using hocc⟩
      generalize (if start = 0 then search else start) = start' at hrest hnext
      by_cases hn : n ≤ foundPages + 1
      · rw [if_pos hn] at hrest
        obtain ⟨rfl, rfl⟩ := Prod.mk.inj (Option.some.inj (Except.ok.inj hrest))
        refine ⟨rfl, ?_⟩
        rcases hnext with ⟨-, h⟩ | ⟨h, -⟩ | h | ⟨-, h, -, hpages⟩
        · exact absurd h (Nat.succ_ne_zero _)
        · exact Or.inl h
        · exact Or.inr (Or.inl h)
        · exact Or.inr (Or.inr ⟨h, fun k hk => hpages k (by omega)⟩)
      · rw [if_neg hn] at hrest
        exact ih hnext halign' hrest

end Search

section Runs

variable {P : Type} {L : LawfulAllocator P} {dir : FrameNo} {s₀ : State P} {c c' : Caller P}
  {l l' : List (ℕ × ℕ)} {r : ℕ × ℕ} {start i : Addr} {n a : ℕ}

def pagesOf (l : List (ℕ × ℕ)) : Set Addr :=
  {i | i.toNat % pageSize = 0 ∧ ∃ r ∈ l, r.1 ≤ i.toNat ∧ i.toNat < r.1 + r.2 * pageSize}

structure HeapRun (r : ℕ × ℕ) : Prop where
  aligned : r.1 % pageSize = 0
  above : memHeapRegion.toNat ≤ r.1
  below : r.1 + r.2 * pageSize ≤ physmemMapRegion.toNat
  nonempty : 0 < r.2

theorem toNat_runPage {k : ℕ} (hrun : HeapRun (start.toNat, n)) (hk : k < n) :
    (start + BitVec.ofNat 64 (k * pageSize)).toNat = start.toNat + k * pageSize := by
  have hbelow := hrun.below
  rw [physmemMap_toNat] at hbelow
  unfold pageSize at hbelow ⊢
  dsimp only at hbelow
  rw [BitVec.toNat_add, BitVec.toNat_ofNat]
  omega

theorem mem_runPages (hrun : HeapRun (start.toNat, n)) :
    i ∈ runPages start n ↔ i ∈ pagesOf [(start.toNat, n)] := by
  have halign := hrun.aligned
  unfold runPages pagesOf
  simp only [List.mem_map, List.mem_range, List.mem_singleton, exists_eq_left, Set.mem_ofPred_eq]
  constructor
  · rintro ⟨k, hk, rfl⟩
    rw [toNat_runPage hrun hk]
    unfold pageSize at halign ⊢
    dsimp only at halign
    omega
  · rintro ⟨hi, hlow, hhigh⟩
    have hk : (i.toNat - start.toNat) / pageSize < n := by
      unfold pageSize at halign hi hhigh ⊢
      dsimp only at halign
      omega
    refine ⟨_, hk, BitVec.eq_of_toNat_eq ?_⟩
    rw [toNat_runPage hrun hk]
    unfold pageSize at halign hi ⊢
    dsimp only at halign
    omega

theorem nodup_runPages (hrun : HeapRun (start.toNat, n)) : (runPages start n).Nodup := by
  refine List.Nodup.map_on (fun k hk m hm heq => ?_) List.nodup_range
  have hsame := congrArg BitVec.toNat heq
  rw [toNat_runPage hrun (List.mem_range.mp hk), toNat_runPage hrun (List.mem_range.mp hm)] at hsame
  unfold pageSize at hsame
  omega

theorem HeapRun.heapPage (hrun : HeapRun r) (hi : i ∈ pagesOf [r]) : HeapPage i := by
  obtain ⟨halign, t, ht, hlow, hhigh⟩ := hi
  obtain rfl := List.mem_singleton.mp ht
  exact ⟨halign, hrun.above.trans hlow, hhigh.trans_le hrun.below⟩

def Apart (r t : ℕ × ℕ) : Prop := r.1 + r.2 * pageSize ≤ t.1 ∨ t.1 + t.2 * pageSize ≤ r.1

/-- Between two calls of liballoc: the pages of its runs are mapped, and these lie apart from one
another in the heap. -/
structure Holds (L : LawfulAllocator P) (dir : FrameNo) (s₀ : State P) (c : Caller P)
    (l : List (ℕ × ℕ)) : Prop where
  backed : Backed L dir s₀ (pagesOf l) c.state
  inside : ∀ r ∈ l, HeapRun r
  apart : l.Pairwise Apart
  heapAligned : c.kernelHeap.toNat % pageSize = 0
  firstAligned : c.firstFreePage.toNat % pageSize = 0

theorem pagesOf_cons (r : ℕ × ℕ) (l : List (ℕ × ℕ)) :
    pagesOf (r :: l) = pagesOf l ∪ pagesOf [r] := by
  ext i
  simp only [pagesOf, List.mem_cons, List.not_mem_nil, or_false, exists_eq_or_imp, exists_eq_left,
    Set.mem_union, Set.mem_ofPred_eq]
  rw [← and_or_left, or_comm]

theorem pagesOf_mono (hr : r ∈ l) : pagesOf [r] ⊆ pagesOf l := by
  rintro i ⟨halign, t, ht, hi⟩
  obtain rfl := List.mem_singleton.mp ht
  exact ⟨halign, t, hr, hi⟩

theorem apart_of_pages {t : ℕ × ℕ} (hr : HeapRun r) (ht : HeapRun t)
    (hout : ∀ i ∈ pagesOf [t], i ∉ pagesOf [r]) : Apart r t := by
  by_contra hover
  unfold Apart at hover
  obtain ⟨hr₀, hr₁, hr₂, hr₃⟩ := hr
  obtain ⟨ht₀, ht₁, ht₂, ht₃⟩ := ht
  rw [physmemMap_toNat] at hr₂ ht₂
  have hi : (BitVec.ofNat 64 (max r.1 t.1)).toNat = max r.1 t.1 := by
    rw [BitVec.toNat_ofNat]
    omega
  have halign : (BitVec.ofNat 64 (max r.1 t.1)).toNat % pageSize = 0 := by
    rw [hi]
    rcases Nat.le_total r.1 t.1 with h | h
    · rwa [max_eq_right h]
    · rwa [max_eq_left h]
  have hpos : 0 < pageSize := by decide
  have hr₄ := Nat.mul_pos hr₃ hpos
  have ht₄ := Nat.mul_pos ht₃ hpos
  refine hout (BitVec.ofNat 64 (max r.1 t.1)) ⟨halign, t, List.mem_singleton_self t, ?_⟩
    ⟨halign, r, List.mem_singleton_self r, ?_⟩
  · rw [hi]
    omega
  · rw [hi]
    omega

theorem Holds.perm (hh : Holds L dir s₀ c l) (hperm : l.Perm l') : Holds L dir s₀ c l' := by
  have hsame : pagesOf l' = pagesOf l := by
    ext i
    simp only [pagesOf, Set.mem_ofPred_eq, hperm.mem_iff]
  refine ⟨hsame ▸ hh.backed, fun r hr => hh.inside r (hperm.mem_iff.mpr hr), ?_, hh.heapAligned,
    hh.firstAligned⟩
  exact (hperm.pairwise_iff fun h => Or.symm h).mp hh.apart

/-- An answer of `liballoc_alloc` within the heap is a run apart from the others, mapped. -/
theorem Holds.alloc (hh : Holds L dir s₀ c l) (hzero : 0 ∈ L.used s₀.pmm)
    (hn : 0 < n) (habove : memHeapRegion.toNat ≤ start.toNat)
    (hbelow : start.toNat + n * pageSize ≤ physmemMapRegion.toNat)
    (hcall : liballocAlloc L.toAllocator dir c n = some (start, c')) :
    (∀ r ∈ l, Apart r (start.toNat, n)) ∧ Holds L dir s₀ c' ((start.toNat, n) :: l) := by
  unfold liballocAlloc at hcall
  dsimp only at hcall
  have hfirst : (if c.firstFreePage = 0 then c.kernelHeap else c.firstFreePage).toNat % pageSize
      = 0 := by
    split_ifs
    · exact hh.heapAligned
    · exact hh.firstAligned
  match hfind : findPages L.toAllocator dir n searchRounds
      (if c.firstFreePage = 0 then c.kernelHeap else c.firstFreePage) 0 0 c.state with
  | .error e => rw [hfind] at hcall; exact absurd hcall nofun
  | .ok none => rw [hfind] at hcall; exact absurd hcall nofun
  | .ok (some (first, s)) =>
    rw [hfind] at hcall
    dsimp only at hcall
    match hmap : (runPages first n).foldlM (mapPage L.toAllocator dir) s with
    | .error e => rw [hmap] at hcall; exact absurd hcall nofun
    | .ok s' =>
      rw [hmap] at hcall
      obtain ⟨rfl, rfl⟩ := Prod.mk.inj (Option.some.inj hcall)
      obtain ⟨rfl, rfl | rfl | ⟨halign, hfree⟩⟩ := findPages_spec (Or.inl ⟨rfl, rfl⟩) hfirst hfind
      · exact absurd habove (by decide)
      · exact absurd habove (by decide)
      have hrun : HeapRun (first.toNat, n) := ⟨halign, habove, hbelow, hn⟩
      rw [physmemMap_toNat] at hbelow
      have hout : ∀ i ∈ pagesOf [(first.toNat, n)], i ∉ pagesOf l := by
        intro i hi hin
        obtain ⟨k, hk, rfl⟩ := List.mem_map.mp ((mem_runPages hrun).mpr hi)
        obtain ⟨pg, hget, hnot⟩ := hfree k (List.mem_range.mp hk)
        exact Bool.false_ne_true (hnot.symm.trans (hh.backed.occupied hzero hin hget))
      have hbacked := hh.backed.mapRun (nodup_runPages hrun) (fun i hi =>
        ⟨hrun.heapPage ((mem_runPages hrun).mp hi), hout i ((mem_runPages hrun).mp hi)⟩) hmap
      have hset : pagesOf l ∪ {i | i ∈ runPages first n} = pagesOf ((first.toNat, n) :: l) := by
        rw [pagesOf_cons]
        congr 1
        exact Set.ext fun i => mem_runPages hrun
      have hapart : ∀ r ∈ l, Apart r (first.toNat, n) := fun r hr =>
        apart_of_pages (hh.inside r hr) hrun fun i hi hir => hout i hi (pagesOf_mono hr hir)
      refine ⟨hapart, hset ▸ hbacked, ?_, ?_, ?_, ?_⟩
      · rintro r hr
        rcases List.mem_cons.mp hr with rfl | hr
        · exact hrun
        · exact hh.inside r hr
      · exact List.pairwise_cons.mpr ⟨fun r hr => (hapart r hr).symm, hh.apart⟩
      · rw [BitVec.toNat_add, BitVec.toNat_ofNat]
        unfold pageSize at halign hbelow ⊢
        omega
      · rw [BitVec.toNat_add, BitVec.toNat_ofNat]
        unfold pageSize at halign hbelow ⊢
        omega

/-- `liballoc_free` unmaps the run that it gets back. -/
theorem Holds.free (hh : Holds L dir s₀ c ((a, n) :: l))
    (hrefs : ∀ f ∉ L.used s₀.pmm, s₀.refs f = 0) :
    ∃ c', liballocFree L.toAllocator dir c (BitVec.ofNat 64 a) n = some c' ∧
      Holds L dir s₀ c' l := by
  have hrun := hh.inside _ List.mem_cons_self
  have hbelow := hrun.below
  rw [physmemMap_toNat] at hbelow
  have ha : (BitVec.ofNat 64 a).toNat = a := by
    rw [BitVec.toNat_ofNat]
    dsimp only at hbelow
    omega
  have hrun' : HeapRun ((BitVec.ofNat 64 a).toNat, n) := by rwa [ha]
  have hmem : ∀ i, i ∈ runPages (BitVec.ofNat 64 a) n ↔ i ∈ pagesOf [(a, n)] := fun i => by
    rw [mem_runPages hrun', ha]
  obtain ⟨s', hcall, hbacked⟩ := hh.backed.unmapRun hrefs (nodup_runPages hrun') fun i hi =>
    pagesOf_mono List.mem_cons_self ((hmem i).mp hi)
  obtain ⟨hapart, hrest⟩ := List.pairwise_cons.mp hh.apart
  have hset : pagesOf ((a, n) :: l) \ {i | i ∈ runPages (BitVec.ofNat 64 a) n} = pagesOf l := by
    rw [pagesOf_cons]
    ext i
    simp only [Set.mem_sdiff, Set.mem_union, Set.mem_ofPred_eq, hmem]
    refine ⟨fun ⟨h, hnot⟩ => h.resolve_right hnot, fun h => ⟨Or.inl h, ?_⟩⟩
    rintro ⟨-, t, ht, hlow, hhigh⟩
    obtain rfl := List.mem_singleton.mp ht
    obtain ⟨-, r, hr, hlow', hhigh'⟩ := h
    have := hapart r hr
    unfold Apart at this
    dsimp only at this hlow hhigh
    omega
  refine ⟨{ c with state := s', firstFreePage := BitVec.ofNat 64 a }, ?_, hset ▸ hbacked,
    fun r hr => hh.inside r (List.mem_cons_of_mem _ hr), hrest, hh.heapAligned, ?_⟩
  · simp only [liballocFree, hcall]
  · rw [ha]
    exact hrun.aligned

end Runs

section Blocks

open LiballocRuns LiballocHeap BlockStore TraceRefinement

variable {P : Type} {L : LawfulAllocator P} {dir : FrameNo} {s₀ : State P}
  {s : Liballoc.State (Caller P)} {u : Served (Caller P)} {tr : List (Call (BitVec 8) × ℕ)}
  {x : ℕ}

def Live (u : Served (Caller P)) (x : ℕ) : Prop := ∃ p n, u.live p = some n ∧ p ≤ x ∧ x < p + n

end Blocks

end ReduceOS.KernelHeap
