import ReduceOS.AddressSpace
import ReduceOS.PageMap

/-!
Loads and stores of user code, and the user-mode branch of `mem_pageFault`. The
processor walks the tables by their address fields; a store to a page that is not
writable faults, and is tried once more after the handler returns. Permission bits
of the upper levels only take accesses away and are not looked at. Translation
caches are flushed by the code after every change and are left out.
-/
namespace ReduceOS.UserAccess

open Machine Page Physical Paging AddressSpace TableTree PageMap

def hNext (d : ℕ) (e : Entry) : Option FrameNo := if follow d e then some e.address else none

def isUser (a : Addr) : Bool := decide (a.toNat < 2 ^ 47)

def pageOffset (a : Addr) : Fin 4096 := ⟨a.toNat % 4096, Nat.mod_lt _ (by decide)⟩

def pageEntry (mem : FrameNo → Frame) (dir : FrameNo) (a : Addr) : Option Slot :=
  (tableAt hNext mem dir (path a)).map fun t => (t, pagetblIndex a)

def userEntry (mem : FrameNo → Frame) (dir : FrameNo) (a : Addr) : Option Slot :=
  if isUser a then
    (pageEntry mem dir a).filter fun x => (mem x.1 x.2).present && (mem x.1 x.2).usermode
  else none

def load (mem : FrameNo → Frame) (dir : FrameNo) (a : Addr) : Option (BitVec 8) :=
  (userEntry mem dir a).map fun x => (mem (mem x.1 x.2).address).byte (pageOffset a)

variable {P : Type} (A : Allocator P)

def poke (s : State P) (x : Slot) (a : Addr) (b : BitVec 8) : State P :=
  s.setFrame (State.entry s x).address
    ((s.phys (State.entry s x).address).setByte (pageOffset a) b)

/-- The fields of `process_t` the fault handler reads. -/
structure Process where
  dir : FrameNo
  heapBase : Addr
  heap : Addr

/-- The lazy heap: a page between `heap_base` and `heap` is mapped on first use. -/
def mapHeapPage (s : State P) (process : Process) (address : Addr) : Except Panic (State P) := do
  let (pg, s) ← memGetPage A s process.dir address memCreate
  memAllocatePage A s pg memDefault

def inHeap (process : Process) (address : Addr) : Bool :=
  decide (process.heapBase ≤ address) && decide (address < process.heap)

/-- `mem_pageFault` for a fault taken in user mode. The Boolean says whether the access
is tried again; otherwise the process is shut down. -/
def memPageFault (s : State P) (process : Process) (cr2 : Addr) :
    Except Panic (Bool × State P) := do
  let (pg, s) ← memGetPage A s process.dir cr2 memDefault
  match pg.filter fun pg => (State.entry s pg).cow with
  | some pg => return (true, ← memCopyOnWrite A s pg)
  | none =>
    if inHeap process cr2 then return (true, ← mapHeapPage A s process cr2)
    else return (false, s)

/-- A user-mode store: `none` when the process does not get to make it. -/
def store (s : State P) (process : Process) (a : Addr) (b : BitVec 8) :
    Except Panic (Option (State P)) :=
  match (userEntry s.phys process.dir a).filter fun x => (State.entry s x).rw with
  | some x => .ok (some (poke s x a b))
  | none => do
    let (again, s) ← memPageFault A s process a
    match (userEntry s.phys process.dir a).filter fun x => (State.entry s x).rw with
    | some x => return if again then some (poke s x a b) else none
    | none => return none

end ReduceOS.UserAccess
