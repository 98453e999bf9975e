import ReduceOS.Machine
import ReduceOS.Inet

/-!
Relocation of drivers. Memory is a function from addresses to bytes, which holds the file with its
headers as well as what the relocations write, so every field is read when the source reads it.
The loops of `elf_loadRelocatable` are steps of a machine.
-/
namespace ReduceOS.ElfRelocation

open Machine Inet

abbrev Memory := Addr → Byte

def view (mem : Memory) (a : Addr) : ℕ → Byte := fun k => mem (a + BitVec.ofNat 64 k)

def store32 (mem : Memory) (a : Addr) (w : BitVec 32) : Memory := fun b =>
  if (b - a).toNat < 4 then ofList (bytes32 w) (fun _ => 0) (b - a).toNat else mem b

def store64 (mem : Memory) (a : Addr) (w : BitVec 64) : Memory :=
  store32 (store32 mem a (w.setWidth 32)) (a + 4) ((w >>> 32).setWidth 32)

def clear (mem : Memory) (a : Addr) (n : BitVec 64) : Memory := fun b =>
  if b - a < n then 0 else mem b

/-- Where the file is, the arguments of the load, and what it calls: `ksym_resolve` with the
characters of a name, and the two allocators. -/
structure Environment where
  ehdr : Addr
  flags : CInt
  ksymResolve : (ℕ → Byte) → Addr
  mapDriver : Memory → BitVec 64 → Addr
  kmalloc : Memory → BitVec 64 → Addr

section Source

def elfKernel : CInt := 0

def elfDriver : CInt := 2

def elfFail : Addr := 1

def shnUndef : BitVec 16 := 0

def shnAbs : BitVec 16 := 0xfff1

def shtRela : BitVec 32 := 4

def shtNobits : BitVec 32 := 8

def shtRel : BitVec 32 := 9

def shfAlloc : BitVec 64 := 2

def stbWeak : Byte := 2

def rNone : BitVec 64 := 0

def r64 : BitVec 64 := 1

def rPc32 : BitVec 64 := 2

def rPlt32 : BitVec 64 := 4

def r32 : BitVec 64 := 10

variable (env : Environment) (mem : Memory)

def eShoff : BitVec 64 := load64 (view mem env.ehdr) 40

def eShnum : BitVec 16 := load16 (view mem env.ehdr) 60

def elfSection (idx : BitVec 64) : Addr := env.ehdr + eShoff env mem + 64 * idx

def shType (sec : Addr) : BitVec 32 := load32 (view mem sec) 4

def shFlags (sec : Addr) : BitVec 64 := load64 (view mem sec) 8

def shOffset (sec : Addr) : BitVec 64 := load64 (view mem sec) 24

def shSize (sec : Addr) : BitVec 64 := load64 (view mem sec) 32

def shLink (sec : Addr) : BitVec 32 := load32 (view mem sec) 40

def shInfo (sec : Addr) : BitVec 32 := load32 (view mem sec) 44

def shEntsize (sec : Addr) : BitVec 64 := load64 (view mem sec) 56

def stBind (symbol : Addr) : Byte := view mem symbol 4 >>> 4

def stShndx (symbol : Addr) : BitVec 16 := load16 (view mem symbol) 6

def stValue (symbol : Addr) : BitVec 64 := load64 (view mem symbol) 8

def stName (symbol : Addr) : BitVec 32 := load32 (view mem symbol) 0

def symbolAt (symtab : Addr) (idx : BitVec 64) : Addr :=
  env.ehdr + shOffset mem symtab + 24 * idx

def symbolName (symtab symbol : Addr) : Addr :=
  env.ehdr + shOffset mem (elfSection env mem ((shLink mem symtab).setWidth 64)) +
    (stName mem symbol).setWidth 64

/-- `elf_getSymbolAddress`, `none` where it divides by an entry size of 0. -/
def elfGetSymbolAddress (table : CInt) (idx : BitVec 64) : Option Addr :=
  if table = 0 ∨ idx = 0 ∨ elfDriver.slt env.flags then some elfFail
  else
    let symtab := elfSection env mem (table.signExtend 64)
    if shEntsize mem symtab = 0 then none
    else if shSize mem symtab / shEntsize mem symtab ≤ idx then some elfFail
    else
      let symbol := symbolAt env mem symtab idx
      if stShndx mem symbol = shnUndef then
        if env.flags ≠ elfKernel ∧ env.flags ≠ elfDriver then some elfFail
        else
          let addr := env.ksymResolve (view mem (symbolName env mem symtab symbol))
          if addr = null then
            if stBind mem symbol &&& stbWeak ≠ 0 then some 0 else some elfFail
          else some addr
      else if stShndx mem symbol = shnAbs then some (stValue mem symbol)
      else
        let target := elfSection env mem ((stShndx mem symbol).setWidth 64)
        some (env.ehdr + stValue mem symbol + shOffset mem target)

def referenceOf (reltab : Addr) (rOffset : BitVec 64) : Addr :=
  env.ehdr + shOffset mem (elfSection env mem ((shInfo mem reltab).setWidth 64)) + rOffset

/-- What a relocation of a type writes, `none` for the types that are not supported. -/
def relocated (type : BitVec 64) (reference symval addend : Addr) : Option Memory :=
  if type = rNone then some mem
  else if type = r64 then some (store64 mem reference (symval + addend))
  else if type = r32 then some (store32 mem reference ((symval + addend).setWidth 32))
  else if type = rPlt32 then none
  else if type = rPc32 then some (store32 mem reference ((symval + addend - reference).setWidth 32))
  else none

def relocateWith (reltab : Addr) (rOffset rInfo addend : BitVec 64) : Option (Addr × Memory) := do
  let symval ←
    if rInfo >>> 32 ≠ 0 then elfGetSymbolAddress env mem (shLink mem reltab) (rInfo >>> 32)
    else some 0
  if rInfo >>> 32 ≠ 0 ∧ symval = elfFail then some (-1, mem)
  else
    match relocated mem (rInfo &&& 0xffffffff) (referenceOf env mem reltab rOffset) symval
        addend with
    | none => some (elfFail, mem)
    | some mem' => some (symval, mem')

/-- `elf_relocateSymbol`, with the addend from where the relocation applies. -/
def elfRelocateSymbol (rel reltab : Addr) : Option (Addr × Memory) :=
  let rOffset := load64 (view mem rel) 0
  relocateWith env mem reltab rOffset (load64 (view mem rel) 8)
    (load64 (view mem (referenceOf env mem reltab rOffset)) 0)

/-- `elf_relocateSymbolAddend`, with the addend of the entry as an `int`. -/
def elfRelocateSymbolAddend (rel reltab : Addr) : Option (Addr × Memory) :=
  relocateWith env mem reltab (load64 (view mem rel) 0) (load64 (view mem rel) 8)
    (((load64 (view mem rel) 16).setWidth 32).signExtend 64)

/-- Where `elf_loadRelocatable` is: at a section of the first or the second loop, or at an entry
of a section. It ends by returning, or at a division by 0. -/
inductive Position
  | prepare (i : BitVec 32)
  | scan (i : BitVec 32)
  | entry (i : BitVec 32) (rela : Bool) (idx : BitVec 32)
  | returned (r : CInt)
  | divided
  deriving DecidableEq

structure Load where
  shdr : Addr
  mem : Memory
  position : Position

def NeedsMemory (sec : Addr) : Prop :=
  shFlags mem sec &&& shfAlloc ≠ 0 ∧ shSize mem sec ≠ 0 ∧ shType mem sec = shtNobits

instance (sec : Addr) : Decidable (NeedsMemory mem sec) :=
  inferInstanceAs (Decidable (_ ∧ _ ∧ _))

def prepareSection (sec : Addr) : Memory :=
  if NeedsMemory mem sec then
    let size := shSize mem sec
    let addr := if env.flags = elfDriver then env.mapDriver mem size else env.kmalloc mem size
    let mem := store64 (clear mem addr size) (sec + 16) addr
    store64 mem (sec + 24) (addr - env.ehdr)
  else store64 mem (sec + 16) (env.ehdr + shOffset mem sec)

def entryAt (sec : Addr) (rela : Bool) (idx : BitVec 32) : Addr :=
  env.ehdr + shOffset mem sec + (if rela then 24 else 16) * idx.setWidth 64

def relocateEntry (sec : Addr) (rela : Bool) (idx : BitVec 32) : Option (Addr × Memory) :=
  if rela then elfRelocateSymbolAddend env mem (entryAt env mem sec rela idx) sec
  else elfRelocateSymbol env mem (entryAt env mem sec rela idx) sec

def Load.shdrAt (s : Load) (i : BitVec 32) : Addr := s.shdr + 64 * i.setWidth 64

def step (s : Load) : Load :=
  match s.position with
  | .prepare i =>
    if i < (eShnum env s.mem).setWidth 32 then
      { s with mem := prepareSection env s.mem (s.shdrAt i), position := .prepare (i + 1) }
    else { s with position := .scan 0 }
  | .scan i =>
    if i < (eShnum env s.mem).setWidth 32 then
      if shType s.mem (s.shdrAt i) = shtRel then { s with position := .entry i false 0 }
      else if shType s.mem (s.shdrAt i) = shtRela then { s with position := .entry i true 0 }
      else { s with position := .scan (i + 1) }
    else { s with position := .returned 0 }
  | .entry i rela idx =>
    let sec := s.shdrAt i
    if shEntsize s.mem sec = 0 then { s with position := .divided }
    else if idx.setWidth 64 < shSize s.mem sec / shEntsize s.mem sec then
      match relocateEntry env s.mem sec rela idx with
      | none => { s with position := .divided }
      | some (result, mem) =>
        if result = elfFail then { s with mem := mem, position := .returned (-1) }
        else { s with mem := mem, position := .entry i rela (idx + 1) }
    else { s with position := .scan (i + 1) }
  | .returned _ => s
  | .divided => s

def elfLoadRelocatable : Load :=
  if env.ehdr = null ∨ elfDriver.slt env.flags then ⟨0, mem, .returned (-1)⟩
  else ⟨elfSection env mem 0, mem, .prepare 0⟩

end Source

end ReduceOS.ElfRelocation
