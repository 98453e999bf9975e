import ReduceOS.Physical

/-!
Page lookup and page setup of arch/x86_64/mem.c: the four-level walk of
`mem_getPage`, the bits set by `mem_allocatePage`, the reference counts of shared
frames, and the functions built on them. A `page_t *` into the physical map is the
frame and index it points at.
-/
namespace ReduceOS.Paging

open Machine Page Physical Outcome

abbrev Slot := FrameNo × Fin 512

def memDefault : BitVec 64 := 0x00
def memCreate : BitVec 64 := 0x01
def memPageKernel : BitVec 64 := 0x02
def memPageReadonly : BitVec 64 := 0x04
def memPageWritethrough : BitVec 64 := 0x08
def memPageNotCacheable : BitVec 64 := 0x10
def memPageNotPresent : BitVec 64 := 0x20
def memPageNoalloc : BitVec 64 := 0x40
def memPageFree : BitVec 64 := 0x80
def memPageWriteCombine : BitVec 64 := 0x200

def has (flags bit : BitVec 64) : Bool := flags &&& bit != 0

/-- The guard `!flags & MEM_CREATE` negates first, so it asks whether `flags` is zero. -/
def lookupOnly (flags : BitVec 64) : Bool := (if flags = 0 then 1 else 0) &&& memCreate != 0

variable {P : Type}

namespace State

def entry (s : State P) (pg : Slot) : Entry := s.phys pg.1 pg.2

def setSlot (s : State P) (pg : Slot) (e : Entry) : State P := s.setEntry pg.1 pg.2 e

end State

open State

/-- `mem_incrementPageReference`: the new count, or 0 for a page that is not present
or whose count is saturated. -/
def memIncrementPageReference (s : State P) (pg : Slot) : BitVec 8 × State P :=
  if !(entry s pg).present then (0, s)
  else
    let idx := (entry s pg).address
    if s.refs idx = 255 then (0, s)
    else (s.refs idx + 1, s.setRefs idx (s.refs idx + 1))

/-- `mem_decrementPageReference` panics when there is no reference to drop. -/
def memDecrementPageReference (s : State P) (pg : Slot) : Except Panic (BitVec 8 × State P) :=
  if !(entry s pg).present then .ok (0, s)
  else
    let idx := (entry s pg).address
    if s.refs idx = 0 then .error .memoryManagement
    else .ok (s.refs idx - 1, s.setRefs idx (s.refs idx - 1))

theorem memIncrementPageReference_max (s : State P) (pg : Slot)
    (hpres : (entry s pg).present = true) (hmax : s.refs (entry s pg).address = 255) :
    memIncrementPageReference s pg = (0, s) := by
  unfold memIncrementPageReference
  rw [hpres, if_neg (by simp), if_pos hmax]

theorem memIncrementPageReference_succ (s : State P) (pg : Slot)
    (hpres : (entry s pg).present = true) (hmax : s.refs (entry s pg).address ≠ 255) :
    memIncrementPageReference s pg =
      (s.refs (entry s pg).address + 1,
        s.setRefs (entry s pg).address (s.refs (entry s pg).address + 1)) := by
  unfold memIncrementPageReference
  rw [hpres, if_neg (by simp), if_neg hmax]

theorem memDecrementPageReference_present (s : State P) (pg : Slot)
    (hpres : (entry s pg).present = true) (hrefs : s.refs (entry s pg).address ≠ 0) :
    memDecrementPageReference s pg =
      .ok (s.refs (entry s pg).address - 1,
        s.setRefs (entry s pg).address (s.refs (entry s pg).address - 1)) := by
  unfold memDecrementPageReference
  rw [hpres, if_neg (by simp), if_neg hrefs]

theorem memDecrementPageReference_absent (s : State P) (pg : Slot)
    (hpres : (entry s pg).present = false) : memDecrementPageReference s pg = .ok (0, s) := by
  unfold memDecrementPageReference
  rw [hpres, if_pos (by simp)]

variable (A : Allocator P)

def allocateFrame (s : State P) : Except Panic (Addr × FrameNo × State P) := do
  let (block, pmm) ← A.allocateBlock s.pmm
  let frame ← physFrame (memRemapPhys block)
  return (block, frame, { s with pmm := pmm })

/-- `s'` is `s` after the allocator gave out frame `h`. -/
structure Took (L : LawfulAllocator P) (s : State P) (h : FrameNo) (s' : State P) : Prop where
  low : h.toNat < 2 ^ 19
  fresh : h ∉ L.used s.pmm
  valid : L.valid s'.pmm
  used : L.used s'.pmm = insert h (L.used s.pmm)
  phys : s'.phys = s.phys
  refs : s'.refs = s.refs

theorem allocateFrame_spec (L : LawfulAllocator P) {s : State P} (hv : L.valid s.pmm) :
    Meets Oom (allocateFrame L.toAllocator s) fun x =>
      x.1 = frameAddr x.2.1 ∧ Took L s x.2.1 x.2.2 := by
  unfold allocateFrame
  refine meets_bind (L.allocate_spec s.pmm hv) ?_
  rintro ⟨block, pmm⟩ ⟨f, hblock, hlow, hfresh, hvalid, hused⟩
  obtain rfl : block = frameAddr f := hblock
  change Meets Oom (physFrame (memRemapPhys (frameAddr f)) >>= _) _
  rw [physFrame_memRemapPhys f (by omega)]
  exact ⟨rfl, hlow, hfresh, hvalid, hused, rfl, rfl⟩

theorem allocateFrame_of_block (L : LawfulAllocator P) {s : State P} (hv : L.valid s.pmm)
    {r : Addr × P} (hblock : L.allocateBlock s.pmm = .ok r) :
    ∃ f, r.1 = frameAddr f ∧ Took L s f { s with pmm := r.2 } ∧
      allocateFrame L.toAllocator s = .ok (r.1, f, { s with pmm := r.2 }) := by
  obtain ⟨f, haddr, hlow, hfresh, hvalid, hused⟩ :=
    meets_of_eq_ok (L.allocate_spec s.pmm hv) hblock
  refine ⟨f, haddr, ⟨hlow, hfresh, hvalid, hused, rfl, rfl⟩, ?_⟩
  unfold allocateFrame
  rw [hblock]
  change physFrame (memRemapPhys r.1) >>= _ = _
  rw [haddr, physFrame_memRemapPhys f (by omega)]
  rfl

def freeFrame (s : State P) (block : Addr) : State P :=
  { s with pmm := A.freeBlock s.pmm block }

/-- The part of `mem_getPage` shared by its three upper levels: a missing table is
created unless this is only a lookup. -/
def ensureTable (s : State P) (pg : Slot) (flags : BitVec 64) :
    Except Panic (Option (State P)) :=
  if (entry s pg).present then .ok (some s)
  else if lookupOnly flags then .ok none
  else do
    let (block, frame, s) ← allocateFrame A s
    let s := s.setFrame frame zeroFrame
    let e := { entry s pg with present := true, rw := true, usermode := true }
    return some (setSlot s pg (Page.setFrame e block))

def descend (s : State P) (pg : Slot) (flags : BitVec 64) (testSize : Bool) :
    Except Panic (Option FrameNo × State P) := do
  match ← ensureTable A s pg flags with
  | none => return (none, s)
  | some s =>
    if testSize && (entry s pg).size then return (none, s)
    else
      let frame ← physFrame (memRemapPhys (getFrame (entry s pg)))
      return (some frame, s)

def memGetPage (s : State P) (dir : FrameNo) (address : Addr) (flags : BitVec 64) :
    Except Panic (Option Slot × State P) :=
  if !isCanonical address then .ok (none, s)
  else do
    let addr := if address % 0x1000#64 ≠ 0 then alignPageDestructive address else address
    match ← descend A s (dir, pml4Index addr) flags false with
    | (none, s) => return (none, s)
    | (some pdpt, s) =>
      match ← descend A s (pdpt, pdptIndex addr) flags true with
      | (none, s) => return (none, s)
      | (some pd, s) =>
        match ← descend A s (pd, pagedirIndex addr) flags true with
        | (none, s) => return (none, s)
        | (some table, s) => return (some (table, pagetblIndex addr), s)

/-- What `mem_freePage` does once nothing else refers to the page. -/
def releasePage (s : State P) (pg : Slot) : State P :=
  let s := setSlot s pg { entry s pg with present := false, rw := false, usermode := false }
  let s := freeFrame A s (getFrame (entry s pg))
  setSlot s pg (Page.setFrame (entry s pg) 0)

def memFreePage (s : State P) (pg : Slot) : Except Panic (State P) :=
  if s.refs (entry s pg).address ≠ 0 then do
    let (still, s) ← memDecrementPageReference s pg
    -- the page keeps its entry while the frame has other references
    if still ≠ 0 then return s else return releasePage A s pg
  else return releasePage A s pg

section FreePage

variable {A} {s : State P} {pg : Slot}

theorem memFreePage_uncounted (s : State P) (pg : Slot) (hrefs : s.refs (entry s pg).address = 0) :
    memFreePage A s pg = .ok (releasePage A s pg) := by
  unfold memFreePage
  rw [if_neg (not_not.mpr hrefs)]
  rfl

theorem memFreePage_absent (hpres : (entry s pg).present = false) :
    memFreePage A s pg = .ok (releasePage A s pg) := by
  by_cases hrefs : s.refs (entry s pg).address = 0
  · exact memFreePage_uncounted s pg hrefs
  · unfold memFreePage
    rw [if_pos hrefs, memDecrementPageReference_absent s pg hpres]
    rfl

theorem memFreePage_last (s : State P) (pg : Slot) (hpres : (entry s pg).present = true)
    (hrefs : s.refs (entry s pg).address = 1) :
    memFreePage A s pg = .ok (releasePage A (s.setRefs (entry s pg).address 0) pg) := by
  have hne : s.refs (entry s pg).address ≠ 0 := by simp [hrefs]
  unfold memFreePage
  rw [if_pos hne, memDecrementPageReference_present s pg hpres hne, hrefs]
  rfl

/-- The early return: the count drops and the page stays mapped. -/
theorem memFreePage_shared (hpres : (entry s pg).present = true)
    (hne : s.refs (entry s pg).address ≠ 0) (hrefs : s.refs (entry s pg).address ≠ 1) :
    memFreePage A s pg =
      .ok (s.setRefs (entry s pg).address (s.refs (entry s pg).address - 1)) := by
  have hstill : s.refs (entry s pg).address - 1 ≠ 0 := by
    intro h
    exact hrefs (by bv_omega)
  unfold memFreePage
  rw [if_pos hne, memDecrementPageReference_present s pg hpres hne]
  exact if_pos hstill

end FreePage

def releasedEntry (e : Entry) : Entry :=
  { e with present := false, rw := false, usermode := false, address := 0 }

theorem releasePage_eq (s : State P) (pg : Slot) :
    releasePage A s pg =
      freeFrame A (setSlot s pg (releasedEntry (entry s pg))) (getFrame (entry s pg)) := by
  have hself : ∀ e, (s.setEntry pg.1 pg.2 e).phys pg.1 pg.2 = e :=
    State.setEntry_phys_self s pg.1 pg.2
  simp only [releasePage, freeFrame, setSlot, entry, hself]
  simp [State.setEntry, releasedEntry, Page.setFrame, getFrame]

def configure (e : Entry) (flags : BitVec 64) : Entry :=
  let e :=
    { e with
      present := !has flags memPageNotPresent
      rw := !has flags memPageReadonly
      usermode := !has flags memPageKernel
      writethrough := has flags memPageWritethrough
      cacheDisable := has flags memPageNotCacheable }
  if has flags memPageWriteCombine then
    { e with size := true, cacheDisable := true, writethrough := false }
  else e

def memAllocatePage (s : State P) (page : Option Slot) (flags : BitVec 64) :
    Except Panic (State P) :=
  match page with
  | none => .ok s
  | some pg =>
    if has flags memPageFree then memFreePage A s pg
    else do
      let s ←
        if has flags memPageNoalloc then .ok s
        else do
          let (block, pmm) ← A.allocateBlock s.pmm
          let s := { s with pmm := pmm }
          .ok (setSlot s pg (Page.setFrame (entry s pg) block))
      return setSlot s pg (configure (entry s pg) flags)

def MapsFresh (L : LawfulAllocator P) (s : State P) (pg : Slot) (flags : BitVec 64) (s' : State P) :
    Prop :=
  ∃ f pmm, f.toNat < 2 ^ 19 ∧ f ∉ L.used s.pmm ∧ L.valid pmm ∧
    L.used pmm = insert f (L.used s.pmm) ∧
    s' = setSlot { s with pmm := pmm } pg (configure { entry s pg with address := f } flags)

theorem memAllocatePage_fresh (L : LawfulAllocator P) {s : State P} (hv : L.valid s.pmm) (pg : Slot)
    {flags : BitVec 64} (hfree : has flags memPageFree = false)
    (hno : has flags memPageNoalloc = false) :
    Meets Oom (memAllocatePage L.toAllocator s (some pg) flags) (MapsFresh L s pg flags) := by
  rw [memAllocatePage]
  simp only [hfree, hno, Bool.false_eq_true, if_false]
  refine meets_bind (L.allocate_spec s.pmm hv) ?_
  rintro ⟨block, pmm⟩ ⟨f, hblock, hlow, hfresh, hvalid, hused⟩
  obtain rfl : block = frameAddr f := hblock
  refine ⟨f, pmm, hlow, hfresh, hvalid, hused, ?_⟩
  simp only [setSlot, entry, State.setEntry_phys_self, setFrame_frameAddr,
    State.setEntry_setEntry]

def memMapAddress (s : State P) (dir : FrameNo) (phys virt : Addr) (flags : CInt) :
    Except Panic (State P) :=
  if !isCanonical virt then .ok s
  else do
    match ← memGetPage A s dir virt memCreate with
    | (none, s) => return s
    | (some pg, s) =>
      let s ← memAllocatePage A s (some pg) (memPageNoalloc ||| flags.signExtend 64)
      return setSlot s pg (Page.setFrame (entry s pg) phys)

def memGetPhysicalAddress (s : State P) (dir : FrameNo) (virtaddr : Addr) :
    Except Panic (Addr × State P) :=
  if !isCanonical virtaddr then .ok (0, s)
  else do
    let offset := virtaddr &&& 0xFFF#64
    let virtaddr := virtaddr &&& ~~~0xFFF#64
    match ← memGetPage A s dir virtaddr memDefault with
    | (none, s) => return (0, s)
    | (some pg, s) => return (getFrame (entry s pg) + offset, s)

end ReduceOS.Paging
