import ReduceOS.ElfRelocation
import ReduceOS.UserHeap
import Mathlib.Data.List.GetD

/-!
Executables. A file is read into a buffer in kernel memory, and the loader goes through the program
headers that it finds there: for each segment it maps pages, copies bytes of the buffer and clears
the rest. No address is checked, so a segment may be put over the buffer, and every field is read
again from memory whenever the code looks at it. Beside what the loader does stands the plan that
the headers of a buffer describe, as a list of operations.
-/
namespace ReduceOS.ElfImage

open Machine Inet ElfRelocation Page Physical Paging TableTree UserAccess UserHeap

section Source

def elfmag : List Byte := [0x7F, 0x45, 0x4C, 0x46]

def elfclass64 : Byte := 2

def elfdata2lsb : Byte := 1

def evCurrent : Byte := 1

def emX8664 : BitVec 16 := 62

def etRel : BitVec 16 := 1

def etExec : BitVec 16 := 2

def ptNull : BitVec 32 := 0

def ptLoad : BitVec 32 := 1

/-- The kinds of files that `elf_check` looks for. -/
inductive ElfKind
  | exec
  | reloc
  | any
  deriving DecidableEq

/-- Memory from the buffer of a file on, by the offset from its first byte: the file, and whatever
kernel memory lies around it. -/
abbrev Buffer := Memory

variable (buf : Buffer)

def eType : BitVec 16 := load16 (view buf 16) 0

def eMachine : BitVec 16 := load16 (view buf 18) 0

def eEntry : Addr := load64 (view buf 24) 0

def ePhoff : BitVec 64 := load64 (view buf 32) 0

def ePhentsize : BitVec 16 := load16 (view buf 54) 0

def ePhnum : BitVec 16 := load16 (view buf 56) 0

def elfCheckSupported : Bool :=
  decide (loadBytes (view buf 0) 0 4 = elfmag) && decide (buf 4 = elfclass64) &&
    decide (buf 5 = elfdata2lsb) && decide (eMachine buf = emX8664) &&
    decide (buf 6 = evCurrent) && (decide (eType buf = etRel) || decide (eType buf = etExec))

/-- A program header, without the fields that nothing reads. -/
structure Phdr where
  type : BitVec 32
  offset : BitVec 64
  vaddr : Addr
  filesz : BitVec 64
  memsz : BitVec 64
  deriving DecidableEq

/-- `ELF_PHDR` with an `int` for an index, so that the offset into the table is one too. -/
def elfPhdr (i : ℕ) : Addr :=
  ePhoff buf + ((ePhentsize buf).setWidth 32 * BitVec.ofNat 32 i).signExtend 64

def elfPhdrWide (i : ℕ) : Addr := ePhoff buf + (ePhentsize buf).setWidth 64 * BitVec.ofNat 64 i

def readPhdr (a : Addr) : Phdr where
  type := load32 (view buf a) 0
  offset := load64 (view buf a) 8
  vaddr := load64 (view buf a) 16
  filesz := load64 (view buf a) 32
  memsz := load64 (view buf a) 40

/-- What the loader does: it reads bytes of the buffer, maps the page of an address, copies bytes of
the buffer to an address, or clears memory. -/
inductive Op
  | read (offset : Addr) (size : ℕ)
  | mapPage (v : Addr)
  | copy (dest offset n : Addr)
  | clear (dest n : Addr)
  deriving DecidableEq

def segmentPages (ph : Phdr) : List Addr := (pageLoop 0 ph.memsz).map fun i => i + ph.vaddr

def segmentOps (ph : Phdr) : List Op :=
  (segmentPages ph).map .mapPage ++ .copy ph.vaddr ph.offset ph.filesz ::
    if ph.filesz < ph.memsz then [.clear (ph.vaddr + ph.filesz) (ph.memsz - ph.filesz)] else []

/-- The plan of the headers of a buffer from header `i` on, with `n` headers left, and what is
returned in the end. Of a header that is no segment only the type is read. -/
def headerOps : ℕ → ℕ → List Op × CInt
  | 0, _ => ([], 0)
  | n + 1, i =>
    let ph := readPhdr buf (elfPhdr buf i)
    let read := Op.read (elfPhdr buf i) 4
    if ph.type = ptNull then
      let rest := headerOps n (i + 1)
      (read :: rest.1, rest.2)
    else if ph.type = ptLoad then
      let rest := headerOps n (i + 1)
      (read :: .read (elfPhdr buf i + 8) 40 :: (segmentOps ph ++ rest.1), rest.2)
    else ([read], elfFail.setWidth 32)

def executableOps : List Op × CInt := headerOps buf (ePhnum buf).toNat 0

structure File where
  content : List Byte
  length : Addr
  fits : content.length ≤ length.toNat

def File.read (file : File) (size : ℕ) : List Byte := file.content.take size

def bufferOf (bytes : List Byte) : Buffer := fun a => bytes.getD a.toNat 0

/-- `elf_check`; nothing behind the 64 bytes of the file header is looked at. -/
def elfCheck (file : File) (type : ElfKind) : Bool :=
  let ehdrtmp := bufferOf (file.read 64)
  decide ((file.read 64).length = 64) && elfCheckSupported ehdrtmp &&
    !(decide (type = .exec) && decide (eType ehdrtmp ≠ etExec)) &&
    !(decide (type = .reloc) && decide (eType ehdrtmp ≠ etRel))

def fileBuffer (file : File) : Buffer := bufferOf (file.read file.length.toNat)

end Source

section Perform

variable {P : Type}

def walkable (a : Addr) : Bool := decide (a.toNat < 2 ^ 47) || decide (2 ^ 64 - 2 ^ 47 ≤ a.toNat)

/-- The frame that an entry for a large page has behind an address, `n` levels above the pages. -/
def largeFrame (n : ℕ) (e : Entry) (a : Addr) : Option FrameNo :=
  if e.present && e.size then some (e.address + BitVec.ofNat _ (a.toNat / 2 ^ 12 % 2 ^ (9 * n)))
  else none

def kernelFrame (mem : FrameNo → Frame) (dir : FrameNo) (a : Addr) : Option FrameNo :=
  if !walkable a then none
  else
    match pageEntry mem dir a with
    | some x => if (mem x.1 x.2).present then some (mem x.1 x.2).address else none
    | none =>
      match tableAt hNext mem dir [pml4Index a, pdptIndex a],
        tableAt hNext mem dir [pml4Index a] with
      | some pd, _ => largeFrame 1 (mem pd (pagedirIndex a)) a
      | none, some pdpt => largeFrame 2 (mem pdpt (pdptIndex a)) a
      | none, none => none

def storeByte (dir : FrameNo) (s : State P) (a : Addr) (b : Byte) : Except Panic (State P) :=
  match kernelFrame s.phys dir a with
  | some f => .ok (s.setFrame f ((s.phys f).setByte (pageOffset a) b))
  | none => .error .pageFault

def loadByte (dir : FrameNo) (s : State P) (a : Addr) : Except Panic Byte :=
  match kernelFrame s.phys dir a with
  | some f => .ok ((s.phys f).byte (pageOffset a))
  | none => .error .pageFault

/-- The loops of `memcpy`: words of eight bytes, one of four, and single bytes. -/
def chunks (n : ℕ) : List (ℕ × ℕ) :=
  (List.range (n / 8)).map (fun j => (8 * j, 8)) ++
    ((if 4 ≤ n % 8 then [(n / 8 * 8, 4)] else []) ++
      (List.range' (n / 4 * 4) (n % 4)).map fun j => (j, 1))

def copyChunk (dir : FrameNo) (dest src : Addr) (s : State P) (chunk : ℕ × ℕ) :
    Except Panic (State P) := do
  let bytes ← (List.range' chunk.1 chunk.2).mapM fun k => loadByte dir s (src + BitVec.ofNat 64 k)
  ((List.range' chunk.1 chunk.2).zip bytes).foldlM
    (fun s x => storeByte dir s (dest + BitVec.ofNat 64 x.1) x.2) s

def memcpy (dir : FrameNo) (dest src n : Addr) (s : State P) : Except Panic (State P) :=
  (chunks n.toNat).foldlM (copyChunk dir dest src) s

def memset (dir : FrameNo) (dest : Addr) (b : Byte) (n : Addr) (s : State P) :
    Except Panic (State P) :=
  (List.range n.toNat).foldlM (fun s k => storeByte dir s (dest + BitVec.ofNat 64 k) b) s

def mapPage (A : Allocator P) (dir : FrameNo) (v : Addr) (s : State P) :
    Except Panic (State P) := do
  let (pg, s) ← memGetPage A s dir v memCreate
  memAllocatePage A s pg memDefault

/-- An operation of a plan, with the bytes of the buffer that it was made for. -/
def perform (A : Allocator P) (dir : FrameNo) (buf : Buffer) (s : State P) :
    Op → Except Panic (State P)
  | .read _ _ => .ok s
  | .mapPage v => mapPage A dir v s
  | .copy dest offset n =>
    (List.range n.toNat).foldlM (fun s k =>
      storeByte dir s (dest + BitVec.ofNat 64 k) (buf (offset + BitVec.ofNat 64 k))) s
  | .clear dest n => memset dir dest 0 n s

def performAll (A : Allocator P) (dir : FrameNo) (buf : Buffer) (ops : List Op) (s : State P) :
    Except Panic (State P) :=
  ops.foldlM (perform A dir buf) s

end Perform

def Loader (P α : Type) : Type := State P → List Op × Except Panic (α × State P)

namespace Loader

variable {P α β : Type}

instance : Monad (Loader P) where
  pure a s := ([], .ok (a, s))
  bind m f s :=
    match m s with
    | (ops, .ok (a, s)) => (ops ++ (f a s).1, (f a s).2)
    | (ops, .error e) => (ops, .error e)

def act (op : Op) (body : State P → Except Panic (State P)) : Loader P Unit := fun s =>
  ([op], (body s).map fun s => ((), s))

def look (f : State P → α) : Loader P α := fun s => ([], .ok (f s, s))

end Loader

section Load

open Loader

variable {P : Type} (A : Allocator P) (dir : FrameNo) (fbuf : Addr)

def kernelByte (mem : FrameNo → Frame) (dir : FrameNo) (a : Addr) : Byte :=
  (kernelFrame mem dir a).elim 0 fun f => (mem f).byte (pageOffset a)

def bufferAt (s : State P) : Buffer := fun offset => kernelByte s.phys dir (fbuf + offset)

def touch (offset : Addr) (n : ℕ) (s : State P) : Except Panic (State P) :=
  if (List.range n).all fun k =>
      (kernelFrame s.phys dir (fbuf + (offset + BitVec.ofNat 64 k))).isSome then .ok s
  else .error .pageFault

def read (offset : Addr) (n : ℕ) : Loader P Unit := act (.read offset n) (touch dir fbuf offset n)

def phdrAt (phdr : Addr) : Loader P Phdr := look fun s => readPhdr (bufferAt dir fbuf s) phdr

/-- The loop over the pages of a segment, from `i` on. -/
def mapPages (phdr : Addr) : ℕ → Addr → Loader P Unit
  | 0, _ => pure ()
  | n + 1, i => do
    let ph ← phdrAt dir fbuf phdr
    if i < ph.memsz then
      act (.mapPage (i + ph.vaddr)) (mapPage A dir (i + ph.vaddr))
      mapPages phdr n (i + 0x1000)
    else return ()

def copySegment (phdr : Addr) : Loader P Unit := do
  let ph ← phdrAt dir fbuf phdr
  act (.copy ph.vaddr ph.offset ph.filesz) (memcpy dir ph.vaddr (fbuf + ph.offset) ph.filesz)

def clearSegment (phdr : Addr) : Loader P Unit := do
  let ph ← phdrAt dir fbuf phdr
  if ph.filesz < ph.memsz then
    act (.clear (ph.vaddr + ph.filesz) (ph.memsz - ph.filesz))
      (memset dir (ph.vaddr + ph.filesz) 0 (ph.memsz - ph.filesz))
  else return ()

/-- The case `PT_LOAD`; the log line reads all fields that the code uses. -/
def loadSegment (phdr : Addr) : Loader P Unit := do
  read dir fbuf (phdr + 8) 40
  mapPages A dir fbuf phdr (2 ^ 52) 0
  copySegment dir fbuf phdr
  clearSegment dir fbuf phdr

/-- The body of the loop of `elf_loadExecutable`, and whether the loop goes on. -/
def loadHeader (phdr : Addr) : Loader P Bool := do
  read dir fbuf phdr 4
  let ph ← phdrAt dir fbuf phdr
  if ph.type = ptNull then return true
  else if ph.type = ptLoad then do
    loadSegment A dir fbuf phdr
    return true
  else return false

/-- A turn of the loop at header `i`, with the turns behind it. -/
def loadTurn (i : ℕ) (rest : Loader P CInt) : Loader P CInt := do
  let buf ← look (bufferAt dir fbuf)
  if i < (ePhnum buf).toNat then
    if ← loadHeader A dir fbuf (elfPhdr buf i) then rest else return (elfFail.setWidth 32)
  else return 0

/-- The loop from header `i` on; `e_phnum` is less than `i + n`. -/
def loadHeaders : ℕ → ℕ → Loader P CInt
  | 0, _ => pure 0
  | n + 1, i => loadTurn A dir fbuf i (loadHeaders n (i + 1))

def elfLoadExecutable : Loader P CInt :=
  if fbuf = 0 then pure (elfFail.setWidth 32) else loadHeaders A dir fbuf (2 ^ 16) 0

/-- What becomes of a relocatable file is a parameter. -/
def elfLoadBuffer (elfLoadRelocatable : Addr → Loader P CInt) : Loader P (Option Addr) := do
  read dir fbuf 0 64
  let buf ← look (bufferAt dir fbuf)
  if !elfCheckSupported buf then return none
  else do
    let res ← if eType buf = etRel then elfLoadRelocatable fbuf else elfLoadExecutable A dir fbuf
    return (if res = 0 then some fbuf else none)

/-- `elf_load` for user code. What `kmalloc`, `memset` and `fs_read` leave behind when the file is
read, the address of the buffer and the memory, is a parameter. -/
def elfLoad (elfLoadRelocatable : Addr → Loader P CInt)
    (readFile : State P → Except Panic (Addr × State P)) (file : File) : Loader P (Option Addr) :=
  fun s =>
    if !elfCheck file .any then ([], .ok (none, s))
    else
      match readFile s with
      | .error e => ([], .error e)
      | .ok (fbuf, s) =>
        if (file.read file.length.toNat).length ≠ file.length.toNat then ([], .ok (none, s))
        else elfLoadBuffer A dir fbuf elfLoadRelocatable s

/-- `elf_getHeapLocation` of a supported executable, before the alignment: the loop from header `i`
on. -/
def highestEnd (s : State P) : ℕ → ℕ → Addr → Except Panic Addr
  | 0, _, heapBase => .ok heapBase
  | n + 1, i, heapBase => do
    let buf := bufferAt dir fbuf s
    let _ ← touch dir fbuf (elfPhdrWide buf i + 16) 8 s
    let _ ← touch dir fbuf (elfPhdrWide buf i + 40) 8 s
    let ph := readPhdr buf (elfPhdrWide buf i)
    highestEnd s n (i + 1)
      (if heapBase < ph.vaddr + ph.memsz then ph.vaddr + ph.memsz else heapBase)

def elfGetHeapLocation (s : State P) : Except Panic Addr :=
  if fbuf = 0 then .ok 0
  else do
    let _ ← touch dir fbuf 0 64 s
    let buf := bufferAt dir fbuf s
    if !elfCheckSupported buf then return 0
    else if eType buf = etRel then return 0
    else if eType buf = etExec then
      let heapBase ← highestEnd dir fbuf s (ePhnum buf).toNat 0 0
      return alignPage heapBase
    else return 0

def elfGetEntrypoint (s : State P) : Except Panic Addr :=
  if fbuf = 0 then .ok 0
  else do
    let _ ← touch dir fbuf 0 64 s
    let buf := bufferAt dir fbuf s
    return (if eType buf ≠ etExec then 0 else eEntry buf)

end Load

def GoesOn (buf : Buffer) (i : ℕ) : Prop :=
  (readPhdr buf (elfPhdr buf i)).type = ptNull ∨ (readPhdr buf (elfPhdr buf i)).type = ptLoad

/-- The file can be read whole, and its program headers are all of the two types that are known. -/
def Loadable (file : File) : Prop :=
  file.content.length = file.length.toNat ∧
    ∀ i < (ePhnum (fileBuffer file)).toNat, GoesOn (fileBuffer file) i

section Plans

variable {buf buf' : Buffer} {file : File} {a : Addr} {m : ℕ}

/-- What holds of all headers that are left, told from the first one. -/
theorem forall_headers_succ {p : ℕ → Prop} {n i : ℕ} :
    (∀ k < n + 1, p (i + k)) ↔ p i ∧ ∀ k < n, p (i + 1 + k) := by
  rw [Nat.forall_lt_succ_left]
  exact and_congr_right fun _ => forall₂_congr fun k _ => by
    rw [show i + (k + 1) = i + 1 + k by omega]

/-- The loop ends well exactly when no header stops it. -/
theorem headerOps_eq_zero_iff (n i : ℕ) :
    (headerOps buf n i).2 = 0 ↔ ∀ k < n, GoesOn buf (i + k) := by
  induction n generalizing i with
  | zero => simp [headerOps]
  | succ n ih =>
    rw [forall_headers_succ, ← ih (i + 1), headerOps]
    by_cases hnull : (readPhdr buf (elfPhdr buf i)).type = ptNull
    · rw [if_pos hnull]
      exact ⟨fun h => ⟨Or.inl hnull, h⟩, fun h => h.2⟩
    rw [if_neg hnull]
    by_cases hload : (readPhdr buf (elfPhdr buf i)).type = ptLoad
    · rw [if_pos hload]
      exact ⟨fun h => ⟨Or.inr hload, h⟩, fun h => h.2⟩
    · rw [if_neg hload]
      exact ⟨fun h => absurd (show elfFail.setWidth 32 = 0#32 from h) (by decide),
        fun h => absurd h.1 (not_or.mpr ⟨hnull, hload⟩)⟩

theorem bufferOf_take {content : List Byte} (ha : a.toNat < m) :
    bufferOf (content.take m) a = content.getD a.toNat 0 := by
  rw [bufferOf, List.getD_eq_getElem?_getD, List.getD_eq_getElem?_getD, List.getElem?_take,
    if_pos ha]

theorem fileBuffer_eq (ha : a.toNat < file.length.toNat) :
    fileBuffer file a = file.content.getD a.toNat 0 := bufferOf_take ha

theorem eType_congr (h : ∀ a : Addr, a.toNat < 64 → buf a = buf' a) : eType buf = eType buf' := by
  unfold eType Inet.load16 view
  rw [h _ (by decide), h _ (by decide)]

theorem elfCheckSupported_congr (h : ∀ a : Addr, a.toNat < 64 → buf a = buf' a) :
    elfCheckSupported buf = elfCheckSupported buf' := by
  have hmachine : eMachine buf = eMachine buf' := by
    unfold eMachine Inet.load16 view
    rw [h _ (by decide), h _ (by decide)]
  have hmag : Inet.loadBytes (view buf 0) 0 4 = Inet.loadBytes (view buf' 0) 0 4 := by
    refine loadBytes_congr fun k hk => h _ ?_
    rw [BitVec.ofNat_eq_ofNat, BitVec.zero_add, BitVec.toNat_ofNat]
    omega
  unfold elfCheckSupported
  rw [hmag, hmachine, eType_congr h, h 4 (by decide), h 5 (by decide), h 6 (by decide)]

/-- A file that passes as an executable has the header of one. -/
theorem elfCheck_executable (hexec : elfCheck file .exec = true) :
    64 ≤ file.length.toNat ∧ elfCheckSupported (fileBuffer file) = true ∧
      eType (fileBuffer file) = etExec ∧ elfCheck file .any = true := by
  simp only [elfCheck, Bool.and_eq_true, decide_eq_true_eq, Bool.not_eq_true'] at hexec
  obtain ⟨⟨⟨hheader, hsupported⟩, htype⟩, -⟩ := hexec
  have hlong : 64 ≤ file.length.toNat := by
    have hfits := file.fits
    rw [File.read, List.length_take] at hheader
    omega
  have hsame : ∀ a : Addr, a.toNat < 64 → bufferOf (file.read 64) a = fileBuffer file a :=
    fun a ha => (bufferOf_take ha).trans (fileBuffer_eq (by omega)).symm
  refine ⟨hlong, ?_, ?_, ?_⟩
  · rw [← elfCheckSupported_congr hsame]
    exact hsupported
  · rw [← eType_congr hsame]
    simpa using htype
  · simp only [elfCheck, hheader, hsupported]
    rfl

end Plans

section Runs

open Loader

variable {P α β : Type} {A : Allocator P} {dir : FrameNo} {file : File} {fbuf : Addr}
  {s₀ s : State P} {elfLoadRelocatable : Addr → Loader P CInt}
  {readFile : State P → Except Panic (Addr × State P)}

@[simp] theorem pure_run (a : α) (s : State P) : (pure a : Loader P α) s = ([], .ok (a, s)) := rfl

theorem bind_ok {m : Loader P α} {f : α → Loader P β} {ops : List Op} {a : α} {s' : State P}
    (h : m s = (ops, .ok (a, s'))) : (m >>= f) s = (ops ++ (f a s').1, (f a s').2) := by
  change (match m s with
    | (ops, .ok (a, s)) => (ops ++ (f a s).1, (f a s).2)
    | (ops, .error e) => (ops, .error e)) = _
  rw [h]

theorem bind_error {m : Loader P α} {f : α → Loader P β} {ops : List Op} {e : Panic}
    (h : m s = (ops, .error e)) : (m >>= f) s = (ops, .error e) := by
  change (match m s with
    | (ops, .ok (a, s)) => (ops ++ (f a s).1, (f a s).2)
    | (ops, .error e) => (ops, .error e)) = _
  rw [h]

@[simp] theorem look_bind (g : State P → α) (f : α → Loader P β) (s : State P) :
    (look g >>= f) s = f (g s) s := by
  rw [bind_ok (m := look g) rfl, List.nil_append]

theorem bind_eq_ok {m : Loader P α} {f : α → Loader P β} {b : β} {s' : State P}
    (h : ((m >>= f) s).2 = .ok (b, s')) :
    ∃ a s₁, (m s).2 = .ok (a, s₁) ∧ (f a s₁).2 = .ok (b, s') := by
  rcases hm : m s with ⟨ops, r⟩
  cases r with
  | error e =>
    rw [bind_error hm] at h
    contradiction
  | ok res =>
    obtain ⟨a, s₁⟩ := res
    rw [bind_ok hm] at h
    exact ⟨a, s₁, rfl, h⟩

theorem elfLoad_short (hshort : file.content.length ≠ file.length.toNat)
    (hcheck : elfCheck file .any = true) (hread : readFile s₀ = .ok (fbuf, s)) :
    elfLoad A dir elfLoadRelocatable readFile file s₀ = ([], .ok (none, s)) := by
  have hlength : (file.read file.length.toNat).length ≠ file.length.toNat := by
    rw [File.read, List.length_take]
    have := file.fits
    omega
  rw [elfLoad, hcheck, if_neg (by simp), hread]
  exact if_pos hlength

/-- A file that can be read whole is loaded from its buffer. -/
theorem elfLoad_full (hfull : file.content.length = file.length.toNat)
    (hcheck : elfCheck file .any = true) (hread : readFile s₀ = .ok (fbuf, s)) :
    elfLoad A dir elfLoadRelocatable readFile file s₀ =
      elfLoadBuffer A dir fbuf elfLoadRelocatable s := by
  rw [elfLoad, hcheck, if_neg (by simp), hread]
  exact if_neg (by simp [File.read, hfull])

end Runs

end ReduceOS.ElfImage
