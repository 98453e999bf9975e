import ReduceOS.Inet

/-!
The parsers of the two boot protocols. Memory is a function from addresses to bytes, and what
`arch_relocate_structure` returns is the bytes that it copies, with zeros behind them. A number
bounds the rounds of every loop, and a parser that does not end within it gives `none`.
-/
namespace ReduceOS.Multiboot

open Inet

inductive Ending (α : Type)
  | returned (value : α)
  | panicked (text : String)

/-- What a `generic_module_desc_t` says: the buffer of the command line, the bytes at `mod_start`
and the distance of `mod_end` from there. -/
structure Module where
  cmdline : List Byte
  start : List Byte
  size : BitVec 32

/-- A `generic_mmap_desc_t` without its link. -/
structure Descriptor where
  address : BitVec 64
  length : BitVec 64
  type : BitVec 32
  deriving DecidableEq

structure Framebuffer where
  addr : BitVec 64
  pitch : BitVec 32
  width : BitVec 32
  height : BitVec 32
  bpp : Byte

/-- A `generic_parameters_t`, as far as a parser writes it: `modules` is `none` where `module_start`
is not written, and `mmap` has the descriptors that are filled in. The link of the last module is
not written, and that of the last descriptor only where `mmapEnded` says so. -/
structure Parameters where
  kernelCmdline : Option (List Byte)
  bootloaderName : Option (List Byte)
  modules : Option (List Module)
  framebuffer : Option Framebuffer
  mmap : List Descriptor
  mmapEnded : Bool
  memSize : BitVec 64

/-- What the blocks of `kmalloc` held where a parser may leave them unwritten: `module_start`, the
link of the last module, the first descriptor and the link of the last one. -/
structure Held where
  moduleStart : BitVec 64
  moduleNext : BitVec 64
  mmapFirst : Descriptor
  mmapNext : BitVec 64

def Held.zeros : Held := ⟨0, 0, ⟨0, 0, 0⟩, 0⟩

/-- The modules that are found from `module_start` on, if the list is one of the parser. -/
def Parameters.moduleList (held : Held) (p : Parameters) : Option (List Module) :=
  match p.modules with
  | none => if held.moduleStart = 0 then some [] else none
  | some modules => if held.moduleNext = 0 then some modules else none

/-- The descriptors that are found from `mmap_start` on: the first is there before any entry. -/
def Parameters.mmapList (held : Held) (p : Parameters) : Option (List Descriptor) :=
  if p.mmapEnded ∨ held.mmapNext = 0 then
    some (if p.mmap = [] then [held.mmapFirst] else p.mmap)
  else none

def chars (buffer : List Byte) : List Byte := buffer.takeWhile (· ≠ 0)

def Module.contents (m : Module) : List Byte :=
  loadBytes (ofList m.start fun _ => 0) 0 m.size.toNat

section Source

def tagTypeCmdline : BitVec 32 := 1

def tagTypeBootLoaderName : BitVec 32 := 2

def tagTypeModule : BitVec 32 := 3

def tagTypeBasicMeminfo : BitVec 32 := 4

def tagTypeMmap : BitVec 32 := 6

def tagTypeFramebuffer : BitVec 32 := 8

def genericType (type : BitVec 32) : BitVec 32 :=
  if type = 1 then 0 else if type = 3 then 2 else if type = 4 then 3 else if type = 5 then 4 else 1

variable (mem : ℕ → Byte)

def strlen : ℕ → ℕ → Option ℕ
  | 0, _ => none
  | n + 1, s => if mem s = 0 then some 0 else (strlen n (s + 1)).map (· + 1)

def relocateStructure (structurePtr size : ℕ) : List Byte := loadBytes mem structurePtr size

def relocateString (n s : ℕ) : Option (List Byte) :=
  (strlen mem n s).map (relocateStructure mem s)

/-- `s[strlen(s) - 1] = 0`, which for an empty string is in front of the buffer. -/
def cutLast (buffer : List Byte) : List Byte :=
  if chars buffer = [] then buffer else buffer.set ((chars buffer).length - 1) 0

def skipPadding (start : ℕ) : ℕ := (start + 7) / 8 * 8

def findTagFrom (type : BitVec 32) : ℕ → ℕ → Option (Option ℕ)
  | 0, _ => none
  | n + 1, tag =>
    if load32 mem tag = 0 then some none
    else if load32 mem tag = type then some (some tag)
    else findTagFrom type n (skipPadding (tag + (load32 mem (tag + 4)).toNat))

def multiboot2FindTag (n header : ℕ) (type : BitVec 32) : Option (Option ℕ) :=
  findTagFrom mem type n (skipPadding header)

def mmapEntries (entrySize : BitVec 32) (stop : ℕ) : ℕ → ℕ → Option (List Descriptor)
  | 0, _ => none
  | n + 1, mmap =>
    if mmap < stop then
      (mmapEntries entrySize stop n (mmap + entrySize.toNat)).map
        (⟨load64 mem mmap, load64 mem (mmap + 8), genericType (load32 mem (mmap + 16))⟩ :: ·)
    else some []

def relocateModule (n modTag : ℕ) : Option Module := do
  let cmdline ← relocateString mem n (modTag + 16)
  let modStart := load32 mem (modTag + 8)
  let modEnd := load32 mem (modTag + 12)
  some ⟨cutLast cmdline, relocateStructure mem modStart.toNat (modEnd - modStart).toNat,
    modEnd - modStart⟩

def moduleLoop : ℕ → ℕ → Option (List Module)
  | 0, _ => none
  | n + 1, modTag => do
    let m ← relocateModule mem n modTag
    match ← multiboot2FindTag mem n modTag tagTypeModule with
    | none => some [m]
    | some nextTag => (moduleLoop n nextTag).map (m :: ·)

def modulesFrom (n : ℕ) (modTag : Option ℕ) : Option (Option (List Module)) :=
  match modTag with
  | none => some none
  | some modTag => (moduleLoop mem n modTag).map some

def tagString (n : ℕ) (tag : Option ℕ) : Option (List Byte) :=
  match tag with
  | none => some [0]
  | some tag => do
    let length ← strlen mem n (tag + 8)
    if length > 0 then some (cutLast (relocateStructure mem (tag + 8) length)) else some [0]

def memoryMapText : String :=
  "*** The kernel requires a memory map to startup properly. " ++
    "A memory map was not found in the Multiboot structure.\n"

def basicMeminfoText : String :=
  "*** The kernel requires a Multiboot2 tag that was not provided (BASIC_MEMINFO)\n"

def earlyMemoryMapText : String := "*** Kernel requires a memory map to boot\n"

def framebufferOf (tag : ℕ) : Framebuffer :=
  ⟨load64 mem (tag + 8), load32 mem (tag + 16), load32 mem (tag + 20), load32 mem (tag + 24),
    mem (tag + 28)⟩

def archParseMultiboot2 (n bootinfo : ℕ) : Option (Ending Parameters) := do
  let find := multiboot2FindTag mem n (bootinfo + 8)
  match ← find tagTypeMmap with
  | none => some (.panicked memoryMapText)
  | some mmapTag => do
    let entries ← mmapEntries mem (load32 mem (mmapTag + 8))
      (mmapTag + (load32 mem (mmapTag + 4)).toNat) n (mmapTag + 16)
    match ← find tagTypeBasicMeminfo with
    | none => some (.panicked basicMeminfoText)
    | some meminfoTag => do
      let modules ← modulesFrom mem n (← find tagTypeModule)
      let fbTag ← find tagTypeFramebuffer
      let cmdline ← find tagTypeCmdline
      let bootldr ← find tagTypeBootLoaderName
      let kernelCmdline ← tagString mem n cmdline
      let bootloaderName ← tagString mem n bootldr
      some (.returned
        { kernelCmdline := some kernelCmdline
          bootloaderName := some bootloaderName
          modules := modules
          framebuffer := fbTag.map (framebufferOf mem)
          mmap := entries
          mmapEnded := false
          memSize := (load32 mem (meminfoTag + 8) + load32 mem (meminfoTag + 12)).setWidth 64 })

def highestAddress (entrySize : BitVec 32) (stop : ℕ) : ℕ → ℕ → BitVec 64 → Option (BitVec 64)
  | 0, _, _ => none
  | n + 1, ptr, highest =>
    if ptr < stop then
      let addr := load64 mem ptr
      let len := load64 mem (ptr + 8)
      let highest := if load32 mem (ptr + 16) = 1 ∧ len ≠ 0 ∧ addr + len - 1 > highest then
        addr + len - 1 else highest
      highestAddress entrySize stop n (ptr + entrySize.toNat) highest
    else some highest

def kernelEndLoop : ℕ → Option ℕ → BitVec 64 → Option (BitVec 64)
  | 0, _, _ => none
  | _ + 1, none, kernelEnd => some kernelEnd
  | n + 1, some modTag, kernelEnd => do
    let modEnd := (load32 mem (modTag + 12)).setWidth 64
    let kernelEnd := if modEnd > kernelEnd then modEnd else kernelEnd
    kernelEndLoop n (← multiboot2FindTag mem n modTag tagTypeModule) kernelEnd

/-- `arch_parse_multiboot2_early`, with the address of `__kernel_end`: the memory size and the
highest kernel address. -/
def archParseMultiboot2Early (kernelEnd : BitVec 64) (n bootinfo : ℕ) :
    Option (Ending (BitVec 64 × BitVec 64)) := do
  match ← multiboot2FindTag mem n (bootinfo + 8) tagTypeMmap with
  | none => some (.panicked earlyMemoryMapText)
  | some mmap => do
    let highest ← highestAddress mem (load32 mem (mmap + 8))
      (mmap + (load32 mem (mmap + 4)).toNat) n (mmap + 16) 0
    let modTag ← multiboot2FindTag mem n (bootinfo + 8) tagTypeModule
    let kernelEnd ← kernelEndLoop mem n modTag kernelEnd
    some (.returned (highest, kernelEnd))

def copiedString (n s : ℕ) : Option (Option (List Byte)) := do
  let length ← strlen mem n s
  if length > 0 then
    let buffer := relocateStructure mem s (length + 1)
    some (some (buffer.set (chars buffer).length 0))
  else some none

/-- The module of a `multiboot1_mod_t`, before its command line is terminated. -/
def relocateModule1 (n module : ℕ) : Option Module := do
  let modStart := load32 mem module
  let modEnd := load32 mem (module + 4)
  let cmdline ← relocateString mem n (load32 mem (module + 8)).toNat
  some ⟨cmdline, relocateStructure mem modStart.toNat
    (modEnd.setWidth 64 - modStart.setWidth 64).toNat, modEnd - modStart⟩

def moduleLoop1 (n : ℕ) : ℕ → ℕ → Option (List Module)
  | 0, _ => some []
  | left + 1, module => do
    let m ← relocateModule1 mem n module
    (moduleLoop1 n left (module + 16)).map ({ m with cmdline := cutLast m.cmdline } :: ·)

def modules1 (n modsAddr : ℕ) : ℕ → Option (Option (List Module))
  | 0 => some none
  | left + 1 => do
    let first ← relocateModule1 mem n modsAddr
    (moduleLoop1 mem n left (modsAddr + 16)).map fun rest => some (first :: rest)

def mmapEntries1 (stop : ℕ) : ℕ → ℕ → Option (List Descriptor)
  | 0, _ => none
  | n + 1, mmap =>
    if mmap < stop then
      (mmapEntries1 stop n (mmap + (load32 mem mmap).toNat + 4)).map
        (⟨load64 mem (mmap + 4), load64 mem (mmap + 12), genericType (load32 mem (mmap + 20))⟩ :: ·)
    else some []

def archParseMultiboot1 (n bootinfo : ℕ) : Option (Ending Parameters) := do
  let kernelCmdline ← copiedString mem n (load32 mem (bootinfo + 16)).toNat
  let bootloaderName ← copiedString mem n (load32 mem (bootinfo + 64)).toNat
  let modules ← modules1 mem n (load32 mem (bootinfo + 24)).toNat
    (load32 mem (bootinfo + 20)).toNat
  if load32 mem bootinfo &&& 0x040 = 0 then some (.panicked memoryMapText)
  else do
    let mmapAddr := load32 mem (bootinfo + 48)
    let entries ← mmapEntries1 mem (mmapAddr + load32 mem (bootinfo + 44)).toNat n mmapAddr.toNat
    some (.returned
      { kernelCmdline := kernelCmdline
        bootloaderName := bootloaderName
        modules := modules
        framebuffer := some ⟨load64 mem (bootinfo + 88), load32 mem (bootinfo + 96),
          load32 mem (bootinfo + 100), load32 mem (bootinfo + 104), mem (bootinfo + 108)⟩
        mmap := entries
        mmapEnded := true
        memSize := (load32 mem (bootinfo + 8) + load32 mem (bootinfo + 4)).setWidth 64 })

end Source

end ReduceOS.Multiboot
