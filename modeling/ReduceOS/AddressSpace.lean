import ReduceOS.Paging

/-!
Address spaces of arch/x86_64/mem.c: copy-on-write resolution, `mem_clone` and
`mem_destroyVAS`. The nested loops of the last two differ only in what they do at
the innermost level, so a table level is one loop with the next level as its body;
only the lower half of the top table is walked, and its upper half is copied.
-/
namespace ReduceOS.AddressSpace

open Machine Page Physical Paging Outcome State

variable {P : Type} (A : Allocator P)

def memCreateVAS (s : State P) : Except Panic (FrameNo × State P) := do
  let (_, frame, s) ← allocateFrame A s
  return (frame, s.setFrame frame zeroFrame)

def copyFrame (s : State P) (pg : Slot) : Except Panic (Addr × State P) := do
  let (block, frame, s) ← allocateFrame A s
  let source ← physFrame (memRemapPhys (getFrame (entry s pg)))
  return (block, s.setFrame frame (s.phys source))

def memCopyOnWrite (s : State P) (pg : Slot) : Except Panic (State P) :=
  if !(entry s pg).cow then .ok s
  else do
    let (refs, s) ← memDecrementPageReference s pg
    if refs = 0 then return setSlot s pg { entry s pg with rw := true, cow := false }
    else do
      let (block, s) ← copyFrame A s pg
      return setSlot s pg { Page.setFrame (entry s pg) block with cow := false, rw := true }

/-- The branches of `mem_copyUserPage` that give the destination a frame of its own. -/
def copyPage (s : State P) (src dest : Slot) : Except Panic (State P) := do
  let (block, s) ← copyFrame A s src
  return setSlot s dest { Page.setFrame (entry s src) block with cow := false, rw := true }

def memCopyUserPage (s : State P) (src dest : Slot) (forceNoCow : Bool) :
    Except Panic (State P) :=
  if forceNoCow then copyPage A s src dest
  else if (entry s src).rw then
    if s.refs (entry s src).address ≠ 0 then .error .memoryManagement
    else
      let s := s.setRefs (entry s src).address 2
      let s := setSlot s src { entry s src with rw := false, cow := true }
      .ok (setSlot s dest { entry s src with cow := true })
  else
    let (refs, s) := memIncrementPageReference s src
    if refs = 0 then copyPage A s src dest else .ok (setSlot s dest (entry s src))

def clonePage (address : Addr) (s : State P) (src dest : Slot) : Except Panic (State P) :=
  if !(entry s src).present then .ok s
  else if (entry s src).usermode then
    memCopyUserPage A s src dest (decide (usermodeStackRegion ≤ address))
  else .ok (setSlot s dest (entry s src))

/-- The body of the three table loops of `mem_clone`: a fresh table under a raw copy of
the entry, then the loop over the tables' entries. -/
def cloneEntry (loop : State P → FrameNo → FrameNo → Except Panic (State P)) (s : State P)
    (src dest : Slot) : Except Panic (State P) :=
  if !(entry s src).present then .ok s
  else do
    let (block, frame, s) ← allocateFrame A s
    let s := s.setFrame frame zeroFrame
    let s := setSlot s dest (Page.setFrame (entry s src) block)
    let table ← physFrame (memRemapPhys (getFrame (entry s src)))
    loop s table frame

/-- The part of an address that index `i` makes up, `n` levels above the pages. -/
def indexBits (n : ℕ) (i : Fin 512) : Addr := BitVec.ofNat 64 i.val <<< (9 * n + 12)

@[irreducible] def allIndices : List (Fin 512) := List.finRange 512

theorem mem_allIndices (i : Fin 512) : i ∈ allIndices := by
  unfold allIndices
  exact List.mem_finRange i

theorem nodup_allIndices : allIndices.Nodup := by
  unfold allIndices
  exact List.nodup_finRange 512

def cloneTable : ℕ → Addr → State P → FrameNo → FrameNo → Except Panic (State P)
  | 0, address, s, src, dest =>
    allIndices.foldlM (fun s i =>
      clonePage A (address ||| indexBits 0 i) s (src, i) (dest, i)) s
  | n + 1, address, s, src, dest =>
    allIndices.foldlM (fun s i =>
      cloneEntry A (cloneTable n (address ||| indexBits (n + 1) i)) s (src, i) (dest, i)) s

def lowerHalf : List (Fin 512) := allIndices.filter fun i => i.val < 256

theorem mem_lowerHalf {i : Fin 512} : i ∈ lowerHalf ↔ i.val < 256 := by
  simp [lowerHalf, mem_allIndices]

theorem nodup_lowerHalf : lowerHalf.Nodup := nodup_allIndices.filter _

def memClone (s : State P) (dir : FrameNo) : Except Panic (FrameNo × State P) := do
  let (dest, s) ← memCreateVAS A s
  let s := s.setFrame dest fun i => if i.val < 256 then s.phys dest i else s.phys dir i
  let s ← lowerHalf.foldlM (fun s i =>
    cloneEntry A (cloneTable A 2 (indexBits 3 i)) s (dir, i) (dest, i)) s
  return (dest, s)

def destroyPage (s : State P) (pg : Slot) : Except Panic (State P) :=
  if (entry s pg).usermode && (entry s pg).present then
    if (entry s pg).rw then memFreePage A s pg
    else do
      let (refs, s) ← memDecrementPageReference s pg
      if refs = 0 then return freeFrame A s (getFrame (entry s pg)) else return s
  else .ok s

/-- The body of the three table loops of `mem_destroyVAS`. The shift of the address
field is the one of `MEM_GET_FRAME`. -/
def destroyEntry (loop : State P → FrameNo → Except Panic (State P)) (s : State P)
    (pg : Slot) : Except Panic (State P) :=
  if !(entry s pg).present then .ok s
  else do
    let table ← physFrame (memRemapPhys (getFrame (entry s pg)))
    let s ← loop s table
    let s := setSlot s pg { entry s pg with present := false }
    return freeFrame A s (getFrame (entry s pg))

def destroyTable : ℕ → State P → FrameNo → Except Panic (State P)
  | 0, s, table => allIndices.foldlM (fun s i => destroyPage A s (table, i)) s
  | n + 1, s, table =>
    allIndices.foldlM (fun s i => destroyEntry A (destroyTable n) s (table, i)) s

/-- `mem_destroyVAS`; the directory is given by its address in the physical map. -/
def memDestroyVAS (s : State P) (vas : FrameNo) : Except Panic (State P) := do
  let s ← lowerHalf.foldlM (fun s i => destroyEntry A (destroyTable A 2) s (vas, i)) s
  return freeFrame A s (memRemapPhys (frameAddr vas) &&& ~~~physmemMapRegion)

end ReduceOS.AddressSpace
