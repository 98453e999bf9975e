import ReduceOS.UserAccess

/-!
System calls that take addresses from user code: `sys_brk` with the frees it issues,
and the checks made on user pointers. `mem_validate` looks at the user bit of the page
entry and not at whether the page is present; a pointer that fails is mapped if it lies
below the break, and stops the kernel otherwise. Loops over pages step from their
start, aligned or not, and count in 64 bits.
-/
namespace ReduceOS.UserHeap

open Machine Page Physical Paging AddressSpace UserAccess

variable {P : Type} (A : Allocator P)

/-- The first `n` values `i` takes in `for (i = start; i < limit; i += PAGE_SIZE)`. -/
def visited : ℕ → Addr → Addr → List Addr
  | 0, _, _ => []
  | n + 1, i, limit => if i < limit then i :: visited n (i + 0x1000) limit else []

def pageLoop (start limit : Addr) : List Addr := visited (2 ^ 52) start limit

/-- The body of the loop of `mem_free`; a missing page is only reported. -/
def freeAt (dir : FrameNo) (s : State P) (i : Addr) : Except Panic (State P) := do
  let (pg, s) ← memGetPage A s dir i memDefault
  memAllocatePage A s pg memPageFree

def memFree (s : State P) (dir : FrameNo) (start size : Addr) : Except Panic (State P) :=
  if !isCanonical start then .ok s
  else if start = 0 ∨ size = 0 then .ok s
  else
    let start := start &&& ~~~0xFFF#64
    (pageLoop start (start + size)).foldlM (freeAt A dir) s

/-- `sys_brk` returns the new break, or the old one when it refuses. -/
def sysBrk (s : State P) (process : Process) (addr : Addr) :
    Except Panic (Addr × Process × State P) :=
  if addr < process.heapBase then .ok (process.heap, process, s)
  else if addr < process.heap then do
    let s ← memFree A s process.dir addr (process.heap - addr)
    return (addr, { process with heap := addr }, s)
  else .ok (addr, { process with heap := addr }, s)

def ptrUser : BitVec 32 := 0x01

def ptrReadonly : BitVec 32 := 0x02

def ptrStrict : BitVec 32 := 0x04

def hasPtr (flags bit : BitVec 32) : Bool := flags &&& bit != 0

def validFor (e : Entry) (flags : BitVec 32) : Bool :=
  if hasPtr flags ptrStrict then
    !(hasPtr flags ptrUser && !e.usermode) && !(hasPtr flags ptrReadonly && e.rw)
  else
    !(e.usermode && !hasPtr flags ptrUser) && !(!e.rw && !hasPtr flags ptrReadonly)

theorem validFor_user (e : Entry) : validFor e (ptrUser ||| ptrStrict) = e.usermode := by
  unfold validFor
  generalize e.usermode = usermode
  generalize e.rw = rw
  revert usermode rw
  decide

def memValidate (s : State P) (dir : FrameNo) (ptr : Addr) (flags : BitVec 32) :
    Except Panic (Bool × State P) := do
  match ← memGetPage A s dir ptr memDefault with
  | (none, s) => return (false, s)
  | (some pg, s) => return (validFor (State.entry s pg) flags, s)

/-- `syscall_pointerValidateFailed` returns only if it could map the page. -/
def syscallPointerValidateFailed (s : State P) (process : Process) (ptr : Addr) :
    Except Panic (State P) :=
  if inHeap process ptr then mapHeapPage A s process ptr else .error .badArgument

def syscallValidatePtr (process : Process) (s : State P) (ptr : Addr) : Except Panic (State P) := do
  let (valid, s) ← memValidate A s process.dir ptr (ptrUser ||| ptrStrict)
  if valid then return s else syscallPointerValidateFailed A s process ptr

def syscallValidatePtrSize (s : State P) (process : Process) (ptr size : Addr) :
    Except Panic (State P) :=
  (pageLoop ptr (ptr + size)).foldlM (syscallValidatePtr A process) s

/-- A byte that kernel code stores through a user pointer. `CR0.WP` is never set, so the
write bit of the page does not count; a page that is not there stops the kernel. Large
pages, which only the kernel half has, are not walked here. -/
def kernelStore (dir : FrameNo) (s : State P) (w : Addr × BitVec 8) : Except Panic (State P) :=
  match (pageEntry s.phys dir w.1).filter fun x => (State.entry s x).present with
  | some x => .ok (poke s x w.1 w.2)
  | none => .error .pageFault

def bufferWrites (buffer : Addr) (data : List (BitVec 8)) : List (Addr × BitVec 8) :=
  data.zipIdx.map fun b => (buffer + BitVec.ofNat 64 b.2, b.1)

/-- `sys_read`: `file` is what `fs_read` finds at the descriptor's offset, or nothing for a
bad descriptor; at most `count` bytes of it are read. -/
def sysRead (s : State P) (process : Process) (file : Option (List (BitVec 8)))
    (buffer count : Addr) : Except Panic (State P) := do
  let s ← syscallValidatePtrSize A s process buffer count
  match file with
  | none => return s
  | some data =>
    (bufferWrites buffer (data.take count.toNat)).foldlM (kernelStore process.dir) s

end ReduceOS.UserHeap
