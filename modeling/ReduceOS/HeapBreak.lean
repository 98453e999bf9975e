import ReduceOS.PointerCheck
import ReduceOS.References

/-!
The break of the heap over whole runs of a process that moves it, faults pages in and writes to
them. A break that shrinks frees from the page that it lies in on, as many pages as the bytes
between it and the old one, whether they were ever mapped or not.
-/
namespace ReduceOS.HeapBreak

open Machine Page Physical Paging AddressSpace Outcome TableTree PageMap Sharing SharedPages Views
  Clone Destroy UserAccess UserHeap CopyOnWrite HeapPages WellBuilt Isolation References
  PointerCheck

variable {P : Type}

/-- The machine, the process, and the bytes that user code wrote to the heap and that no call
released. -/
structure Heap (P : Type) where
  state : State P
  process : Process
  bytes : Addr → Option (BitVec 8)

/-- A call, a fault, or a write to a page that is mapped. Reads are not steps: they change
nothing, or fault first. -/
inductive Op
  | brk (addr : Addr)
  | fault (a : Addr)
  | write (a : Addr) (b : BitVec 8)

def writable (s : State P) (process : Process) (a : Addr) : Option Slot :=
  (userEntry s.phys process.dir a).filter fun x => (State.entry s x).rw

def Heap.step (A : Allocator P) (c : Heap P) : Op → Except Panic (Option (Heap P))
  | .brk addr => do
    let (_, process, s) ← sysBrk A c.state c.process addr
    return some ⟨s, process, fun a => if a < process.heap then c.bytes a else none⟩
  | .fault a => do
    let (again, s) ← memPageFault A c.state c.process a
    return if again then some { c with state := s } else none
  | .write a b =>
    match writable c.state c.process a with
    | none => .ok none
    | some x =>
      .ok (some { c with
        state := poke c.state x a b
        bytes := Function.update c.bytes a (some b) })

def Op.Inside (c : Heap P) : Op → Prop
  | .brk _ => True
  | .fault a =>
    isUser a = true ∧ inHeap c.process a = true ∧ writable c.state c.process a = none
  | .write a _ => isUser a = true ∧ inHeap c.process a = true

def Step (A : Allocator P) (allowed : Heap P → Op → Prop) (c c' : Heap P) : Prop :=
  ∃ op, allowed c op ∧ c.step A op = .ok (some c')

def Run (A : Allocator P) (allowed : Heap P → Op → Prop) : Heap P → Heap P → Prop :=
  Relation.ReflTransGen (Step A allowed)

def Kept (c : Heap P) : Prop :=
  ∀ a b, a < c.process.heap → c.bytes a = some b → load c.state.phys c.process.dir a = some b

def frameOf (s : State P) (dir : FrameNo) (a : Addr) : Option FrameNo :=
  (userEntry s.phys dir a).map fun x => (State.entry s x).address

def framesAbove (c : Heap P) (addr : Addr) : Set FrameNo :=
  {f | ∃ i : Addr, i.toNat % 4096 = 0 ∧ addr ≤ i ∧ i < c.process.heap ∧
    frameOf c.state c.process.dir i = some f}

/-- A shrink returns, and gives back these frames and no others. -/
def ReturnsAbove (L : LawfulAllocator P) (c : Heap P) (addr : Addr) : Prop :=
  ∃ c', c.step L.toAllocator (.brk addr) = .ok (some c') ∧
    L.used c'.state.pmm = L.used c.state.pmm \ framesAbove c addr

def freedPages (process : Process) (addr : Addr) : List Addr :=
  if isCanonical addr = false ∨ addr = 0 then [] else freeRange addr (process.heap - addr)

/-- A shrink stays in the user half; each page that it goes through and that has a table lies
above the new break as a whole, is mapped and is not shared; and no other page that does is
mapped. -/
structure Releases (c : Heap P) (addr : Addr) : Prop where
  half : isCanonical addr = true → addr ≠ 0 →
    addr.toNat / 4096 * 4096 + (c.process.heap.toNat - addr.toNat) ≤ 2 ^ 47
  freed : ∀ i ∈ freedPages c.process addr, ∀ x,
    pageEntry c.state.phys c.process.dir i = some x →
      addr ≤ i ∧ (State.entry c.state x).present = true ∧ (State.entry c.state x).usermode = true ∧
        (c.state.refs (State.entry c.state x).address).toNat ≤ 1
  left : ∀ i : Addr, i.toNat % 4096 = 0 → addr ≤ i → i < c.process.heap →
    i ∉ freedPages c.process addr → userEntry c.state.phys c.process.dir i = none

/-- A shrink is one of those, and no fault is on a page that waits for a copy but is closed to user
code. -/
def Op.Allowed (c : Heap P) : Op → Prop
  | .brk addr => c.process.heapBase ≤ addr → addr < c.process.heap → Releases c addr
  | .fault a => (Op.fault a).Inside c ∧ ∀ x, pageEntry c.state.phys c.process.dir a = some x →
      (State.entry c.state x).cow = true → (State.entry c.state x).present = true →
      (State.entry c.state x).usermode = true
  | .write a b => (Op.write a b).Inside c

section Free

variable {L : LawfulAllocator P} {Y : Layout} {live : Set FrameNo} {s s' : State P}
  {dir : FrameNo} {a b : Addr} {l : List Addr}

theorem page_of_position (ha : isUser a = true) (hb : isUser b = true)
    (h : position a = position b) : a.toNat / 4096 = b.toNat / 4096 := by
  have ha : a.toNat < 2 ^ 47 := of_decide_eq_true ha
  have hb : b.toNat < 2 ^ 47 := of_decide_eq_true hb
  simp only [position, path, List.cons_append, List.nil_append, List.cons.injEq, and_true,
    ← Fin.val_inj, pml4Index, pdptIndex, pagedirIndex, pagetblIndex, tableIndex_val] at h
  omega

theorem frameOf_congr (hentry : pageEntry s'.phys dir a = pageEntry s.phys dir a)
    (hsame : ∀ x, pageEntry s.phys dir a = some x → State.entry s' x = State.entry s x) :
    frameOf s' dir a = frameOf s dir a := by
  unfold frameOf userEntry
  rw [hentry]
  split_ifs
  · cases hx : pageEntry s.phys dir a with
    | none => rfl
    | some x =>
      have hx' : s'.phys x.1 x.2 = s.phys x.1 x.2 := hsame x hx
      simp only [Option.filter_some, State.entry, hx']
      split_ifs <;> simp [hx']
  · rfl

/-- The pages of `l` have been freed: their frames are returned, and no other page shows anything
else. -/
structure Freed (L : LawfulAllocator P) (Y : Layout) (live : Set FrameNo) (dir : FrameNo)
    (l : List Addr) (s s' : State P) : Prop where
  wf : Wf L Y (lower live) s'
  used : L.used s'.pmm = L.used s.pmm \ {f | ∃ i ∈ l, frameOf s dir i = some f}
  others : ∀ r q, (lower live).carrier r q → q.length = 4 →
    (¬ ∃ i ∈ l, (pageEntry s.phys dir i).isSome ∧ r = dir ∧ q = position i) →
    view s'.phys r q = view s.phys r q

/-- One turn of the loop of `mem_free`. -/
theorem freeAt_freed (hw : Wf L Y (lower live) s) (hdir : dir ∈ live) (ha : isUser a = true)
    (hun : UnsharedPage s dir a) :
    ∃ s', freeAt L.toAllocator dir s a = .ok s' ∧ FreedAt L Y live dir a s s' ∧
      Freed L Y live dir [a] s s' := by
  have hpos := carrier_position hdir ha
  obtain ⟨s', hcall, hat⟩ := meets_never (freeAt_spec hw hdir ha hun)
  refine ⟨s', hcall, hat, ?_⟩
  unfold freeAt at hcall
  rw [memGetPage_user hw ha hpos] at hcall
  cases hx : pageEntry s.phys dir a with
  | none =>
    rw [hx] at hcall
    obtain rfl : s = s' := Except.ok.inj hcall
    have hnone : frameOf s dir a = none := by simp [frameOf, userEntry, hx]
    exact ⟨hw, by simp [hnone], fun _ _ _ _ _ => rfl⟩
  | some x =>
    obtain ⟨hpage, hlast⟩ := pageAt_of_pageEntry hw hdir ha hx
    obtain ⟨g, j⟩ := x
    obtain rfl : j = pagetblIndex a := hlast
    obtain ⟨hpres, huser, hrefs⟩ := hun _ hx
    have hcontent : content (s.phys g (pagetblIndex a)) =
        some ((s.phys g (pagetblIndex a)).address, (s.phys g (pagetblIndex a)).rw) :=
      content_eq_some.mpr ⟨hpres, huser, rfl, rfl⟩
    obtain ⟨s₁, hfree, hdropped, hphys, hpmm, -⟩ := memFreePage_unshared hw hpage hcontent hrefs
    rw [hx] at hcall
    obtain rfl : s₁ = s' := Except.ok.inj (hfree.symm.trans hcall)
    have hheld : Held (holding (lower live) s.phys) (s.phys g (pagetblIndex a)).address :=
      ⟨(g, pagetblIndex a), _, by rw [hpage.holding_eq, hcontent]⟩
    have hframe : frameOf s dir a = some (s.phys g (pagetblIndex a)).address := by
      have hentry : userEntry s.phys (Process.mk dir 0 0).dir a = some (g, pagetblIndex a) :=
        userEntry_of_page hw hdir ha hpage hcontent
      unfold frameOf
      rw [hentry]
      rfl
    refine ⟨hat.wf, ?_, fun r q hq hlen hne => ?_⟩
    · rw [hpmm, (L.free_spec s.pmm _ hw.valid ((hw.used _).mpr (.inr (.inr hheld)))
        ((hw.held _ hheld).1.resolve_left (Set.notMem_empty _))).2]
      simp [hframe, eq_comm]
    · refine (removed_page hw (noPins Y _) hpage hdropped hphys).keep.view ⟨hq, ?_⟩ hlen
      rintro ⟨rfl, hpre⟩
      refine hne ⟨a, List.mem_singleton_self a, by rw [hx]; rfl, rfl, ?_⟩
      exact (hpre.eq_of_length (by rw [hlen]; simp [path])).symm

/-- A page that another turn freed shows the frame it showed. -/
theorem frameOf_freedAt (hat : FreedAt L Y live dir a s s') (hb : isUser b = true)
    (hne : position b ≠ position a) : frameOf s' dir b = frameOf s dir b :=
  frameOf_congr (hat.entries b hb) (hat.others b hb hne)

/-- The loop of `mem_free`. -/
theorem freeLoop_freed (hdir : dir ∈ live) (l : List Addr) (hw : Wf L Y (lower live) s)
    (huser : ∀ i ∈ l, isUser i = true) (hpair : l.Pairwise fun i j => position j ≠ position i)
    (hun : ∀ i ∈ l, UnsharedPage s dir i) :
    ∃ s', l.foldlM (freeAt L.toAllocator dir) s = .ok s' ∧ Freed L Y live dir l s s' := by
  induction l generalizing s with
  | nil => exact ⟨s, rfl, hw, by simp, fun _ _ _ _ _ => rfl⟩
  | cons i l ih =>
    obtain ⟨hhead, htail⟩ := List.pairwise_cons.mp hpair
    have hmem : ∀ j ∈ l, j ∈ i :: l := fun j hj => List.mem_cons_of_mem i hj
    have hi := huser i List.mem_cons_self
    obtain ⟨s₁, hfirst, hat, hfreed⟩ := freeAt_freed hw hdir hi (hun i List.mem_cons_self)
    obtain ⟨s', hcall, hw', hused, hothers⟩ := ih hat.wf (fun j hj => huser j (hmem j hj)) htail
      fun j hj => hat.unshared j (huser j (hmem j hj)) (hhead j hj) (hun j (hmem j hj))
    rw [List.foldlM_cons, hfirst]
    refine ⟨s', hcall, hw', ?_, ?_⟩
    · have hset : {f | ∃ j ∈ l, frameOf s₁ dir j = some f} =
          {f | ∃ j ∈ l, frameOf s dir j = some f} :=
        Set.ext fun f => exists_congr fun j => and_congr_right fun hj => by
          rw [frameOf_freedAt hat (huser j (hmem j hj)) (hhead j hj)]
      rw [hused, hfreed.used, hset, Set.sdiff_sdiff]
      congr 1
      ext f
      simp [or_and_right, exists_or]
    · intro r q hq hlen hne
      rw [hothers r q hq hlen, hfreed.others r q hq hlen]
      · rintro ⟨j, hj, h⟩
        obtain rfl := List.mem_singleton.mp hj
        exact hne ⟨j, List.mem_cons_self, h⟩
      · rintro ⟨j, hj, hpage, h⟩
        rw [hat.entries j (huser j (hmem j hj))] at hpage
        exact hne ⟨j, hmem j hj, hpage, h⟩

end Free

section Shrink

variable {L : LawfulAllocator P} {Y : Layout} {live : Set FrameNo} {c : Heap P} {addr i : Addr}

/-- The pages that a shrink goes through start in the page of the new break and stay below the
old one. -/
theorem freedPages_spec (hlt : addr < c.process.heap) (hr : Releases c addr)
    (hi : i ∈ freedPages c.process addr) :
    i.toNat % 4096 = 0 ∧ i < c.process.heap ∧ isUser i = true := by
  unfold freedPages at hi
  split_ifs at hi with hskip
  · exact absurd hi List.not_mem_nil
  obtain ⟨hcanon, hzero⟩ := not_or.mp hskip
  have hhalf := hr.half (by simpa using hcanon) hzero
  rw [BitVec.lt_def] at hlt
  have hstart := toNat_and_not_fff addr
  have hsize : (c.process.heap - addr).toNat = c.process.heap.toNat - addr.toNat :=
    BitVec.toNat_sub_of_le hlt.le
  have hend : ((addr &&& ~~~0xFFF#64) + (c.process.heap - addr)).toNat =
      addr.toNat / 4096 * 4096 + (c.process.heap.toNat - addr.toNat) := by
    rw [BitVec.toNat_add, hstart, hsize]
    omega
  obtain ⟨k, hk, hbelow⟩ := visited_below (m := (c.process.heap.toNat - addr.toNat) / 4096 + 1)
    (by omega) (by omega) hi
  exact ⟨by omega, by rw [BitVec.lt_def]; omega, decide_eq_true (by omega)⟩

/-- `mem_free` over the pages of a shrink that `Releases` allows. -/
theorem memFree_freed (hw : Wf L Y (lower live) c.state) (hdir : c.process.dir ∈ live)
    (hlt : addr < c.process.heap) (hr : Releases c addr) :
    ∃ s', memFree L.toAllocator c.state c.process.dir addr (c.process.heap - addr) = .ok s' ∧
      Freed L Y live c.process.dir (freedPages c.process addr) c.state s' := by
  have hsize : c.process.heap - addr ≠ 0 := by
    intro hzero
    have hnat := congrArg BitVec.toNat hzero
    rw [BitVec.lt_def] at hlt
    rw [BitVec.toNat_sub_of_le hlt.le, show (0 : Addr).toNat = 0 from rfl] at hnat
    omega
  have huser : ∀ i ∈ freedPages c.process addr, isUser i = true := fun i hi =>
    (freedPages_spec hlt hr hi).2.2
  have hun : ∀ i ∈ freedPages c.process addr, UnsharedPage c.state c.process.dir i :=
    fun i hi x hx => (hr.freed i hi x hx).2
  unfold freedPages at *
  by_cases hskip : isCanonical addr = false ∨ addr = 0
  · rw [if_pos hskip]
    refine ⟨c.state, ?_, hw, by simp, fun _ _ _ _ _ => rfl⟩
    rcases hskip with hcanon | hzero
    · simp [memFree, hcanon]
    · simp [memFree, hzero]
  · rw [if_neg hskip] at huser hun ⊢
    obtain ⟨hcanon, hzero⟩ := not_or.mp hskip
    obtain ⟨s', hcall, hfreed⟩ :=
      freeLoop_freed hdir _ hw huser (pairwise_visited _ _ _ huser).1 hun
    refine ⟨s', ?_, hfreed⟩
    rw [memFree, if_neg (by simpa using hcanon), if_neg (not_or.mpr ⟨hzero, hsize⟩)]
    exact hcall

/-- A shrink that `Releases` allows returns the frames it should, and what lies below the new
break stays. -/
theorem sysBrk_shrink (hw : Wf L Y (lower live) c.state) (hdir : c.process.dir ∈ live)
    (hbase : c.process.heapBase ≤ addr) (hlt : addr < c.process.heap) (hr : Releases c addr) :
    ∃ s', sysBrk L.toAllocator c.state c.process addr =
        .ok (addr, { c.process with heap := addr }, s') ∧
      Wf L Y (lower live) s' ∧ L.used s'.pmm = L.used c.state.pmm \ framesAbove c addr ∧
      ∀ a < addr, load s'.phys c.process.dir a = load c.state.phys c.process.dir a := by
  obtain ⟨s', hcall, hw', hused, hothers⟩ := memFree_freed hw hdir hlt hr
  refine ⟨s', ?_, hw', ?_, fun a ha => ?_⟩
  · have hbase : ¬ addr < c.process.heapBase := BitVec.not_lt.mpr hbase
    simp only [sysBrk, hbase, hlt, if_false, if_true, hcall]
    rfl
  · rw [hused]
    congr 1
    ext f
    constructor
    · rintro ⟨i, hi, hf⟩
      obtain ⟨hpage, hbelow, -⟩ := freedPages_spec hlt hr hi
      cases hx : pageEntry c.state.phys c.process.dir i with
      | none => simp [frameOf, userEntry, hx] at hf
      | some x => exact ⟨i, hpage, (hr.freed i hi x hx).1, hbelow, hf⟩
    · rintro ⟨i, hpage, hle, hbelow, hf⟩
      refine ⟨i, ?_, hf⟩
      by_contra hnot
      rw [frameOf, hr.left i hpage hle hbelow hnot] at hf
      exact absurd hf.symm (Option.some_ne_none f)
  · refine load_congr hw hw' hdir hdir fun hu => ?_
    apply hothers _ _ (carrier_position hdir hu) (position_length a)
    rintro ⟨i, hi, hpage, -, heq⟩
    obtain ⟨hstart, -, hiu⟩ := freedPages_spec hlt hr hi
    obtain ⟨x, hx⟩ := Option.isSome_iff_exists.mp hpage
    have hle := (hr.freed i hi x hx).1
    have hsame := page_of_position hu hiu heq
    rw [BitVec.lt_def] at ha
    rw [BitVec.le_def] at hle
    omega

end Shrink

section Access

variable {L : LawfulAllocator P} {Y : Layout} {live : Set FrameNo} {s : State P}
  {process : Process} {a : Addr}

/-- A page that user code may read but not write to is read-only. -/
theorem rw_of_not_writable (ha : isUser a = true) (hnot : writable s process a = none) {x : Slot}
    (hx : pageEntry s.phys process.dir a = some x) (hpres : (State.entry s x).present = true)
    (huser : (State.entry s x).usermode = true) : (State.entry s x).rw = false := by
  have hentry : userEntry s.phys process.dir a = some x := by
    rw [userEntry, if_pos ha, hx, Option.filter_some, if_pos]
    exact Bool.and_eq_true_iff.mpr ⟨hpres, huser⟩
  rw [writable, hentry, Option.filter_some] at hnot
  simpa using hnot

/-- A write to a page that is writable changes that byte. -/
theorem load_poke (hw : Wf L Y (lower live) s) (hdir : process.dir ∈ live) {x : Slot}
    (hx : writable s process a = some x) (b : BitVec 8) :
    Wf L Y (lower live) (poke s x a b) ∧ ∀ a', load (poke s x a b).phys process.dir a' =
      if a' = a then some b else load s.phys process.dir a' := by
  obtain ⟨hentry, hrw⟩ := Option.filter_eq_some_iff.mp hx
  have hopen : (userEntry s.phys process.dir a).isSome := by rw [hentry]; rfl
  have ha : isUser a = true := by
    by_contra hno
    simp [userEntry, hno] at hopen
  rcases userEntry_cases hw hdir ha with ⟨g, f, w, hpage, hcontent, huser⟩ | ⟨hnone, -⟩
  · obtain rfl : (g, pagetblIndex a) = x := Option.some.inj (huser.symm.trans hentry)
    obtain ⟨-, -, -, rfl⟩ := content_eq_some.mp hcontent
    rw [show (s.phys g (pagetblIndex a)).rw = true from hrw] at hcontent
    obtain ⟨hwf, hothers, hown⟩ := poke_spec hw hpage hcontent a b
    have hstored : Stored L Y live process.dir a b s (poke s (g, pagetblIndex a) a b) :=
      ⟨hwf, hothers, hown⟩
    refine ⟨hwf, fun a' => ?_⟩
    rw [Stored.load_eq hw hopen hdir hstored hdir]
    simp
  · rw [hnone] at hentry
    exact absurd hentry.symm (Option.some_ne_none x)

end Access

section Run

variable {L : LawfulAllocator P} {Y : Layout} {live : Set FrameNo} {c c' : Heap P} {s : State P}
  {process : Process}

structure Inv (L : LawfulAllocator P) (Y : Layout) (live : Set FrameNo) (c : Heap P) : Prop where
  wf : Wf L Y (lower live) c.state
  live : c.process.dir ∈ live
  bytes : ∀ a b, c.bytes a = some b →
    a < c.process.heap ∧ load c.state.phys c.process.dir a = some b

/-- A call that keeps what lies below the new break. -/
theorem Inv.released (hi : Inv L Y live c) {heap : Addr} (hw : Wf L Y (lower live) s)
    (hload : ∀ a < heap, load s.phys c.process.dir a = load c.state.phys c.process.dir a) :
    Inv L Y live ⟨s, { c.process with heap := heap },
      fun a => if a < heap then c.bytes a else none⟩ := by
  refine ⟨hw, hi.live, fun a b hb => ?_⟩
  dsimp only at hb ⊢
  split_ifs at hb with hlt
  exact ⟨hlt, (hload a hlt).trans (hi.bytes a b hb).2⟩

theorem Inv.brk (hi : Inv L Y live c) {addr : Addr} (hallowed : Op.Allowed c (.brk addr))
    (hcall : c.step L.toAllocator (.brk addr) = .ok (some c')) : Inv L Y live c' := by
  by_cases hbase : addr < c.process.heapBase
  · simp only [Heap.step, sysBrk, hbase, if_true] at hcall
    obtain rfl := Option.some.inj (Except.ok.inj hcall)
    exact hi.released hi.wf fun _ _ => rfl
  by_cases hlt : addr < c.process.heap
  · obtain ⟨s', hbrk, hw', -, hload⟩ :=
      sysBrk_shrink hi.wf hi.live (BitVec.not_lt.mp hbase) hlt
        (hallowed (BitVec.not_lt.mp hbase) hlt)
    simp only [Heap.step, hbrk] at hcall
    obtain rfl := Option.some.inj (Except.ok.inj hcall)
    exact hi.released hw' hload
  · simp only [Heap.step, sysBrk, hbase, hlt, if_false] at hcall
    obtain rfl := Option.some.inj (Except.ok.inj hcall)
    exact hi.released hi.wf fun _ _ => rfl

theorem Inv.step (hi : Inv L Y live c) (hstale : ¬ Y.stale)
    (hstep : Step L.toAllocator Op.Allowed c c') : Inv L Y live c' := by
  obtain ⟨op, hallowed, hcall⟩ := hstep
  cases op with
  | brk addr => exact hi.brk hallowed hcall
  | fault a =>
    obtain ⟨⟨ha, -, hnot⟩, hcow⟩ := hallowed
    have hfault := memPageFault_retains hi.wf hstale hi.live ha fun x hx hpres =>
      ⟨rw_of_not_writable ha hnot hx hpres, fun h => hcow x hx h hpres⟩
    cases hres : memPageFault L.toAllocator c.state c.process a with
    | error e =>
      simp only [Heap.step, hres] at hcall
      contradiction
    | ok res =>
      obtain ⟨again, s'⟩ := res
      have hkeep := meets_of_eq_ok hfault hres
      simp only [Heap.step, hres] at hcall
      cases again with
      | false => exact absurd (Except.ok.inj hcall).symm (Option.some_ne_none c')
      | true =>
        obtain rfl := Option.some.inj (Except.ok.inj hcall)
        exact ⟨hkeep.wf, hi.live, fun a b hb =>
          ⟨(hi.bytes a b hb).1, hkeep.load hi.wf hi.live (hi.bytes a b hb).2⟩⟩
  | write a b =>
    obtain ⟨-, hin⟩ := hallowed
    cases hx : writable c.state c.process a with
    | none => simp [Heap.step, hx] at hcall
    | some x =>
      simp only [Heap.step, hx] at hcall
      obtain rfl := Option.some.inj (Except.ok.inj hcall)
      obtain ⟨hwf, hload⟩ := load_poke hi.wf hi.live hx b
      refine ⟨hwf, hi.live, fun a' b' hb => ?_⟩
      dsimp only at hb ⊢
      rw [hload]
      rw [Function.update_apply] at hb
      split_ifs at hb ⊢ with heq
      · exact ⟨heq ▸ of_decide_eq_true (Bool.and_eq_true_iff.mp hin).2, hb⟩
      · exact hi.bytes a' b' hb

theorem Inv.run (hi : Inv L Y live c) (hstale : ¬ Y.stale)
    (h : Run L.toAllocator Op.Allowed c c') : Inv L Y live c' := by
  induction h with
  | refl => exact hi
  | tail _ hstep ih => exact ih.step hstale hstep

theorem Inv.returnsAbove (hi : Inv L Y live c) {addr : Addr} (hbase : c.process.heapBase ≤ addr)
    (hlt : addr < c.process.heap) (hr : Releases c addr) : ReturnsAbove L c addr := by
  obtain ⟨s', hbrk, -, hused, -⟩ := sysBrk_shrink hi.wf hi.live hbase hlt hr
  exact ⟨_, by simp only [Heap.step, hbrk]; rfl, hused⟩

/-- In every run whose shrinks meet `Releases`, each byte below the break that was written and not
released holds its value, and such a shrink returns the frames of the pages above the new break. -/
theorem bytes_kept_of_run (hv : L.valid s.pmm) (hb : Built (L.used s.pmm) live s)
    (hc : Counted live s) (hlow : Low live s.phys) (hunsized : Unsized live s.phys)
    (hdir : process.dir ∈ live)
    (h : Run L.toAllocator Op.Allowed ⟨s, process, fun _ => none⟩ c) :
    Kept c ∧ ∀ addr, c.process.heapBase ≤ addr → addr < c.process.heap → Releases c addr →
      ReturnsAbove L c addr := by
  let Y : Layout := ⟨spare L s live, spare L s live, Set.univ, False, le_refl _⟩
  have hw : Wf L Y (lower live) s :=
    wf_of_layout rfl (fun _ hf hU => absurd hf hU) (fun _ _ _ _ => Set.mem_univ _)
      (fun _ => hunsized) hv hb hc hlow
  have hstart : Inv L Y live ⟨s, process, fun _ => none⟩ :=
    ⟨hw, hdir, fun _ _ hbad => absurd hbad.symm (Option.some_ne_none _)⟩
  have hi := hstart.run id h
  exact ⟨fun a b _ hb => (hi.bytes a b hb).2, fun addr => hi.returnsAbove⟩

end Run

section OnePage

open PmmAllocator

private def pageHeap (heap : Addr) : Heap Pmm.State :=
  ⟨onePage 5 smallPmm, ⟨1, 0x400000, heap⟩, fun _ => none⟩

private def pageWritten (heap : Addr) : Heap Pmm.State where
  state := poke (onePage 5 smallPmm) (4, 0) 0x400000 7
  process := ⟨1, 0x400000, heap⟩
  bytes := Function.update (fun _ => none) 0x400000 (some 7)

private theorem step_write (heap : Addr) :
    (pageHeap heap).step pmm (.write 0x400000 7) = .ok (some (pageWritten heap)) := by
  have hx : writable (onePage 5 smallPmm) ⟨1, 0x400000, heap⟩ 0x400000 = some (4, 0) := by
    change ((userEntry (onePage 5 smallPmm).phys 1 0x400000).filter fun x =>
      (State.entry (onePage 5 smallPmm) x).rw) = some (4, 0)
    decide +kernel
  simp only [Heap.step, pageHeap, hx]
  rfl

private def secondPage : Except Panic (Bool × Option Slot × Bool × Bool × ℕ) := do
  let (again, s) ← memPageFault pmm (pageWritten 0x402000).state ⟨1, 0x400000, 0x402000⟩ 0x401000
  let e := State.entry s (4, 1)
  return (again, pageEntry s.phys 1 0x401000, e.present, e.usermode, (s.refs e.address).toNat)

theorem bytes_kept_of_run_page :
    ∃ c, Run pmm Op.Allowed ⟨onePage 5 smallPmm, ⟨1, 0x400000, 0x402000⟩, fun _ => none⟩ c ∧
      c.bytes 0x400000 = some 7 ∧ Kept c ∧ ReturnsAbove bitmap c 0x401000 := by
  have hrun : secondPage = .ok (true, some (4, 1), true, true, 0) := by decide +kernel
  unfold secondPage at hrun
  cases hfault : memPageFault pmm (pageWritten 0x402000).state ⟨1, 0x400000, 0x402000⟩ 0x401000 with
  | error e => rw [hfault] at hrun; contradiction
  | ok res =>
    obtain ⟨again, s⟩ := res
    rw [hfault] at hrun
    simp only [bind, Except.bind] at hrun
    obtain ⟨rfl, hentry, hpres, huser, hrefs⟩ : again = true ∧
        pageEntry s.phys 1 0x401000 = some (4, 1) ∧ (State.entry s (4, 1)).present = true ∧
        (State.entry s (4, 1)).usermode = true ∧
        (s.refs (State.entry s (4, 1)).address).toNat = 0 := by
      simpa using Except.ok.inj hrun
    let c : Heap Pmm.State := { pageWritten 0x402000 with state := s }
    have hwrite : Step pmm Op.Allowed (pageHeap 0x402000) (pageWritten 0x402000) := by
      refine ⟨.write 0x400000 7, ?_, step_write 0x402000⟩
      exact show isUser 0x400000 = true ∧ _ from ⟨by decide, by decide⟩
    have hstep : Step pmm Op.Allowed (pageWritten 0x402000) c := by
      refine ⟨.fault 0x401000, ⟨⟨by decide, by decide, by decide +kernel⟩, ?_⟩, ?_⟩
      · intro x hx hcow
        have hplain : ((pageEntry (pageWritten 0x402000).state.phys 1 0x401000).map fun x =>
            (State.entry (pageWritten 0x402000).state x).cow) = some false := by decide +kernel
        rw [show pageEntry (pageWritten 0x402000).state.phys 1 0x401000 = some x from hx] at hplain
        exact absurd (hcow.symm.trans (Option.some.inj hplain)) (by decide)
      · simp only [Heap.step]
        rw [show memPageFault pmm (pageWritten 0x402000).state (pageWritten 0x402000).process
          0x401000 = .ok (true, s) from hfault]
        rfl
    have hreach : Run pmm Op.Allowed (pageHeap 0x402000) c :=
      (Relation.ReflTransGen.single hwrite).tail hstep
    have hpages : freedPages c.process 0x401000 = [0x401000] := by
      change freedPages ⟨1, 0x400000, 0x402000⟩ 0x401000 = _
      decide +kernel
    have hreleases : Releases c 0x401000 := by
      refine ⟨fun _ _ => ?_, ?_, ?_⟩
      · change 0x401000 / 4096 * 4096 + (0x402000 - 0x401000) ≤ 2 ^ 47
        norm_num
      · intro i hi x hx
        rw [hpages, List.mem_singleton] at hi
        obtain rfl := hi
        obtain rfl : (4, 1) = x := Option.some.inj (hentry.symm.trans hx)
        exact ⟨BitVec.le_refl _, hpres, huser, hrefs.le.trans (by decide)⟩
      · intro i hpage hle hlt hnot
        rw [hpages, List.mem_singleton] at hnot
        refine absurd (BitVec.eq_of_toNat_eq ?_) hnot
        have hle : 0x401000 ≤ i.toNat := hle
        have hlt : i.toNat < 0x402000 := hlt
        change i.toNat = 0x401000
        omega
    have hfits : bitmap.valid (onePage 5 smallPmm).pmm :=
      show smallPmm.nframes.toNat ≤ 2 ^ 19 by decide
    obtain ⟨hkept, hreturns⟩ := bytes_kept_of_run hfits
      (onePage_built (by decide) (by decide) (by decide)) onePage_allPrivate.counted
      (onePage_low (by decide)) onePage_unsized (Set.mem_singleton _) hreach
    exact ⟨c, hreach, rfl, hkept, hreturns _ (show (0x400000 : Addr) ≤ 0x401000 by decide)
      (show (0x401000 : Addr) < 0x402000 by decide) hreleases⟩

private def halfShrunk : Except Panic (Addr × Option (BitVec 8)) := do
  let (_, process, s) ← sysBrk pmm (pageWritten 0x401000).state ⟨1, 0x400000, 0x401000⟩ 0x400800
  return (process.heap, load s.phys process.dir 0x400000)

/-- A shrink into the middle of a page takes the whole page. -/
theorem shrink_loses_byte :
    bitmap.valid (onePage 5 smallPmm).pmm ∧
      Built (bitmap.used smallPmm) {1} (onePage 5 smallPmm) ∧
      Counted {1} (onePage 5 smallPmm) ∧ Low {1} (onePage 5 smallPmm).phys ∧
      Unsized {1} (onePage 5 smallPmm).phys ∧
      ∃ c, Run pmm Op.Inside ⟨onePage 5 smallPmm, ⟨1, 0x400000, 0x401000⟩, fun _ => none⟩ c ∧
        c.process.heap = 0x400800 ∧ c.bytes 0x400000 = some 7 ∧
          load c.state.phys c.process.dir 0x400000 = none ∧ ¬ Kept c := by
  refine ⟨show smallPmm.nframes.toNat ≤ 2 ^ 19 by decide,
    onePage_built (by decide) (by decide) (by decide), onePage_allPrivate.counted,
    onePage_low (by decide), onePage_unsized, ?_⟩
  have hrun : halfShrunk = .ok (0x400800, none) := by decide +kernel
  unfold halfShrunk at hrun
  cases hcall : sysBrk pmm (pageWritten 0x401000).state ⟨1, 0x400000, 0x401000⟩ 0x400800 with
  | error e => rw [hcall] at hrun; contradiction
  | ok res =>
    obtain ⟨new, process, s⟩ := res
    rw [hcall] at hrun
    obtain ⟨hheap, hload⟩ := Prod.mk.inj (Except.ok.inj hrun)
    let c : Heap Pmm.State :=
      ⟨s, process, fun a => if a < process.heap then (pageWritten 0x401000).bytes a else none⟩
    have hwrite : Step pmm Op.Inside (pageHeap 0x401000) (pageWritten 0x401000) := by
      refine ⟨.write 0x400000 7, ?_, step_write 0x401000⟩
      exact show isUser 0x400000 = true ∧ _ from ⟨by decide, by decide⟩
    have hshrink : Step pmm Op.Inside (pageWritten 0x401000) c := by
      refine ⟨.brk 0x400800, trivial, ?_⟩
      simp only [Heap.step]
      rw [show sysBrk pmm (pageWritten 0x401000).state (pageWritten 0x401000).process 0x400800 =
        .ok (new, process, s) from hcall]
      rfl
    have hbelow : (0x400000 : Addr) < process.heap := by
      rw [show process.heap = 0x400800 from hheap]
      decide
    have hbyte : c.bytes 0x400000 = some 7 := if_pos hbelow
    refine ⟨c, (Relation.ReflTransGen.single hwrite).tail hshrink, hheap, hbyte, hload, ?_⟩
    intro hkept
    exact absurd (hload.symm.trans (hkept 0x400000 7 hbelow hbyte)).symm (Option.some_ne_none 7)

end OnePage

end ReduceOS.HeapBreak
