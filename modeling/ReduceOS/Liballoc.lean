import Mathlib.Logic.Function.Basic
import ReduceOS.Machine

/-!
liballoc, the allocator behind `kmalloc` and behind `malloc` of libpolyhedron. It gets runs of
pages from two hooks, starts each of them with a header, the major, and puts the blocks of its
callers behind it, each under a header of its own, the minor. A pointer is a number here, and 0 is
`NULL`; a number bounds the rounds of each loop.
-/
namespace ReduceOS.Liballoc

open Machine

structure Major where
  prev : ℕ
  next : ℕ
  pages : ℕ
  size : ℕ
  usage : ℕ
  first : ℕ

@[ext]
structure Minor where
  prev : ℕ
  next : ℕ
  block : ℕ
  magic : BitVec 32
  size : ℕ
  reqSize : ℕ

def liballocMagic : BitVec 32 := 0xc001c0de

def liballocDead : BitVec 32 := 0xdeaddead

def majorBytes : ℕ := 40

def minorBytes : ℕ := 40

def alignment : ℕ := 16

def alignInfo : ℕ := 16

def pageCount : ℕ := 16

def word32 (n : ℕ) : ℕ := n % 2 ^ 32

def word64 (n : ℕ) : ℕ := n % 2 ^ 64

def sub32 (a b : ℕ) : ℕ := word32 (a + (2 ^ 32 - word32 b))

def sub64 (a b : ℕ) : ℕ := word64 (a + (2 ^ 64 - word64 b))

/-- `liballoc_alloc` and `liballoc_free`. A call that does not return has no result. -/
structure Hooks (σ : Type) where
  alloc : σ → ℕ → Option (ℕ × σ)
  free : σ → ℕ → ℕ → Option σ

/-- The headers in memory, the bytes outside of them, the globals and what the hooks work on. -/
structure State (σ : Type) where
  majors : ℕ → Major
  minors : ℕ → Minor
  bytes : ℕ → BitVec 8
  /-- `l_memRoot` -/
  memRoot : ℕ
  /-- `l_bestBet` -/
  bestBet : ℕ
  /-- `l_allocated` -/
  allocated : ℕ
  /-- `l_inuse` -/
  inuse : ℕ
  warningCount : ℕ
  errorCount : ℕ
  possibleOverruns : ℕ
  pages : σ

variable {σ : Type} (H : Hooks σ) (s : State σ)

namespace State

def setMajor (maj : ℕ) (m : Major) : State σ := { s with majors := Function.update s.majors maj m }

def setMinor (min : ℕ) (m : Minor) : State σ := { s with minors := Function.update s.minors min m }

def setByte (a : ℕ) (b : BitVec 8) : State σ := { s with bytes := Function.update s.bytes a b }

end State

def align (ptr : ℕ) : ℕ × State σ :=
  let ptr := ptr + alignInfo
  let diff := if ptr % alignment ≠ 0 then alignment - ptr % alignment else 0
  let ptr := ptr + diff
  (ptr, s.setByte (ptr - alignInfo) (BitVec.ofNat 8 (diff + alignInfo)))

def unalign (ptr : ℕ) : ℕ :=
  let diff := ((s.bytes (ptr - alignInfo)).signExtend 64).toNat
  if diff < alignment + alignInfo then ptr - diff else ptr

/-- The number of pages in a major with room for some bytes, as `allocate_new_page` comes to it. -/
def pagesFor (size : ℕ) : ℕ :=
  let st := word32 (word32 (word32 size + majorBytes) + minorBytes)
  let st := if st % pageSize = 0 then st / pageSize else st / pageSize + 1
  if st < pageCount then pageCount else st

def allocateNewPage (size : ℕ) : Option (ℕ × State σ) := do
  let st := pagesFor size
  let (maj, pages) ← H.alloc s.pages st
  let s := { s with pages := pages }
  if maj = 0 then return (0, { s with warningCount := s.warningCount + 1 })
  else
    let s := s.setMajor maj ⟨0, 0, st, word32 (st * pageSize), majorBytes, 0⟩
    return (maj, { s with allocated := word64 (s.allocated + word32 (st * pageSize)) })

section Place

variable (maj size reqSize : ℕ)

def newMinor (prev next block size reqSize : ℕ) : Minor :=
  ⟨prev, next, block, liballocMagic, word32 size, word32 reqSize⟩

def handOut (min : ℕ) : ℕ × State σ :=
  let m := s.majors maj
  let s := s.setMajor maj { m with usage := word32 (m.usage + (size + minorBytes)) }
  align { s with inuse := word64 (s.inuse + size) } (min + minorBytes)

def placeFirst : ℕ × State σ :=
  let first := maj + majorBytes
  let s := s.setMajor maj { s.majors maj with first := first }
  let s := s.setMinor first (newMinor 0 0 maj size reqSize)
  handOut s maj size first

def placeFront : ℕ × State σ :=
  let old := (s.majors maj).first
  let first := maj + majorBytes
  let s := s.setMinor old { s.minors old with prev := first }
  let s := s.setMajor maj { s.majors maj with first := first }
  let s := s.setMinor first (newMinor 0 old maj size reqSize)
  handOut s maj size first

def placeAfter (min : ℕ) : ℕ × State σ :=
  let m := s.minors min
  let new := min + minorBytes + m.size
  let s := s.setMinor new (newMinor min m.next maj size reqSize)
  let s := if m.next ≠ 0 then s.setMinor m.next { s.minors m.next with prev := new } else s
  let s := s.setMinor min { s.minors min with next := new }
  handOut s maj size new

def gapAfter (min : ℕ) : ℕ :=
  let m := s.minors min
  let limit := if m.next = 0 then maj + (s.majors maj).size else m.next
  sub64 (sub64 (sub64 limit min) minorBytes) m.size

def fitLoop : ℕ → ℕ → Option (Option (ℕ × State σ))
  | 0, _ => none
  | k + 1, min =>
    if min = 0 then some none
    else if word64 (size + minorBytes) ≤ gapAfter s maj min then
      some (some (placeAfter s maj size reqSize min))
    else fitLoop k (s.minors min).next

def placeIn (k : ℕ) : Option (Option (ℕ × State σ)) :=
  let first := (s.majors maj).first
  if first = 0 then some (some (placeFirst s maj size reqSize))
  else if word64 (size + minorBytes) ≤ sub64 (sub64 first maj) majorBytes then
    some (some (placeFront s maj size reqSize))
  else fitLoop s maj size reqSize k first

end Place

inductive Turn (σ : Type)
  | returns (p : ℕ) (s : State σ)
  | goesOn (maj : ℕ) (startedBet : Bool) (bestSize : ℕ) (s : State σ)

def appendMajor (maj size : ℕ) : Option (ℕ × State σ) := do
  let (new, s) ← allocateNewPage H s size
  let s := s.setMajor maj { s.majors maj with next := new }
  if new = 0 then return (0, s)
  else return (new, s.setMajor new { s.majors new with prev := maj })

section Loop

variable (k size reqSize : ℕ) (startedBet : Bool) (bestSize : ℕ)

def ensureNext (maj : ℕ) : Option (Turn σ) :=
  let next := (s.majors maj).next
  if next = 0 then
    if startedBet then some (.goesOn s.memRoot false bestSize s)
    else do
      let (new, s) ← appendMajor H s maj size
      if new = 0 then return .returns 0 s else return .goesOn new startedBet bestSize s
  else some (.goesOn next startedBet bestSize s)

def searchMajor (maj : ℕ) : Option (Turn σ) := do
  match ← placeIn s maj size reqSize k with
  | some (p, s) => return .returns p s
  | none => ensureNext H s size startedBet bestSize maj

def tryMajor (maj : ℕ) : Option (Turn σ) :=
  let m := s.majors maj
  if sub32 m.size m.usage < word64 (size + minorBytes) then
    if m.next ≠ 0 then some (.goesOn m.next startedBet bestSize s)
    else if startedBet then some (.goesOn s.memRoot false bestSize s)
    else do
      let (new, s) ← appendMajor H s maj size
      if new = 0 then return .returns 0 s
      else searchMajor H s k size reqSize startedBet bestSize new
  else searchMajor H s k size reqSize startedBet bestSize maj

def turn (maj : ℕ) : Option (Turn σ) :=
  let diff := sub32 (s.majors maj).size (s.majors maj).usage
  if bestSize < diff then
    tryMajor H { s with bestBet := maj } k size reqSize startedBet diff maj
  else tryMajor H s k size reqSize startedBet bestSize maj

end Loop

def majorLoop (k size reqSize : ℕ) : ℕ → ℕ → Bool → ℕ → State σ → Option (ℕ × State σ)
  | 0, _, _, _, _ => none
  | n + 1, maj, startedBet, bestSize, s =>
    if maj = 0 then some (0, s)
    else do
      match ← turn H s k size reqSize startedBet bestSize maj with
      | .returns p s => return (p, s)
      | .goesOn maj startedBet bestSize s =>
        majorLoop k size reqSize n maj startedBet bestSize s

def ensureRoot (size : ℕ) : Option (State σ) :=
  if s.memRoot = 0 then do
    let (maj, s) ← allocateNewPage H s size
    return { s with memRoot := maj }
  else some s

def search (k size reqSize : ℕ) : Option (ℕ × State σ) :=
  let best := s.majors s.bestBet
  let bestSize := if s.bestBet ≠ 0 then sub32 best.size best.usage else 0
  if s.bestBet ≠ 0 ∧ word64 (size + minorBytes) < bestSize then
    majorLoop H k size reqSize k s.bestBet true bestSize s
  else majorLoop H k size reqSize k s.memRoot false bestSize s

def mallocSized (k size reqSize : ℕ) : Option (ℕ × State σ) := do
  let s ← ensureRoot H s size
  if s.memRoot = 0 then return (0, s) else search H s k size reqSize

def adjusted (reqSize : ℕ) : ℕ := word64 (reqSize + (alignment + alignInfo))

def malloc (k reqSize : ℕ) : Option (ℕ × State σ) :=
  if adjusted reqSize = 0 then
    mallocSized H { s with warningCount := s.warningCount + 1 } k (adjusted 1) 1
  else mallocSized H s k (adjusted reqSize) reqSize

def overrun (m : BitVec 32) : Bool :=
  m &&& 0xFFFFFF == liballocMagic &&& 0xFFFFFF || m &&& 0xFFFF == liballocMagic &&& 0xFFFF ||
    m &&& 0xFF == liballocMagic &&& 0xFF

def complain (m : BitVec 32) : State σ :=
  { s with
    errorCount := s.errorCount + 1
    possibleOverruns := if overrun m then s.possibleOverruns + 1 else s.possibleOverruns }

def minorOf (ptr : ℕ) : ℕ := sub64 (unalign s ptr) minorBytes

def unlinkMinor (min : ℕ) : State σ :=
  let m := s.minors min
  let s := { s with inuse := sub64 s.inuse m.size }
  let maj := s.majors m.block
  let s := s.setMajor m.block { maj with usage := sub32 maj.usage (m.size + minorBytes) }
  let s := s.setMinor min { m with magic := liballocDead }
  let s := if m.next ≠ 0 then s.setMinor m.next { s.minors m.next with prev := m.prev } else s
  if m.prev ≠ 0 then s.setMinor m.prev { s.minors m.prev with next := m.next }
  else s.setMajor m.block { s.majors m.block with first := m.next }

def releaseMajor (maj : ℕ) : Option (State σ) := do
  let m := s.majors maj
  let s := { s with
    memRoot := if s.memRoot = maj then m.next else s.memRoot
    bestBet := if s.bestBet = maj then 0 else s.bestBet }
  let s := if m.prev ≠ 0 then s.setMajor m.prev { s.majors m.prev with next := m.next } else s
  let s := if m.next ≠ 0 then s.setMajor m.next { s.majors m.next with prev := m.prev } else s
  let s := { s with allocated := sub64 s.allocated m.size }
  let pages ← H.free s.pages maj m.pages
  return { s with pages := pages }

def freeInt (m : Major) : ℤ := (BitVec.ofNat 32 (sub32 m.size m.usage)).toInt

def improveBet (maj : ℕ) : State σ :=
  if s.bestBet ≠ 0 ∧ freeInt (s.majors s.bestBet) < freeInt (s.majors maj) then
    { s with bestBet := maj }
  else s

def free (ptr : ℕ) : Option (State σ) :=
  if ptr = 0 then some { s with warningCount := s.warningCount + 1 }
  else
    let min := minorOf s ptr
    let m := s.minors min
    if m.magic ≠ liballocMagic then some (complain s m.magic)
    else
      let s := unlinkMinor s min
      if (s.majors m.block).first = 0 then releaseMajor H s m.block
      else some (improveBet s m.block)

section Bytes

variable (bytes : ℕ → BitVec 8)

def liballocMemset (p : ℕ) (c : BitVec 8) : ℕ → ℕ → BitVec 8
  | 0 => bytes
  | n + 1 => Function.update (liballocMemset p c n) (p + n) c

def copyBytes (bytes : ℕ → BitVec 8) (dest src : ℕ) : ℕ → ℕ → BitVec 8
  | 0 => bytes
  | n + 1 => copyBytes (Function.update bytes dest (bytes src)) (dest + 1) (src + 1) n

def copyWord (dest src : ℕ) (a : ℕ) : BitVec 8 :=
  if dest ≤ a ∧ a < dest + 4 then bytes (src + (a - dest)) else bytes a

def liballocMemcpy (bytes : ℕ → BitVec 8) (dest src : ℕ) : ℕ → ℕ → BitVec 8
  | n + 4 => liballocMemcpy (copyWord bytes dest src) (dest + 4) (src + 4) n
  | n => copyBytes bytes dest src n

end Bytes

/-- `calloc`. The counter of `liballoc_memset` has 32 bits and never gets to a number beyond them;
a store at `NULL` is a fault. -/
def calloc (k nobj size : ℕ) : Option (ℕ × State σ) := do
  let realSize := ((BitVec.ofNat 32 (nobj * size)).signExtend 64).toNat
  let (p, s) ← malloc H s k realSize
  if 2 ^ 32 ≤ realSize ∨ p = 0 ∧ realSize ≠ 0 then none
  else return (p, { s with bytes := liballocMemset s.bytes p 0 realSize })

/-- `realloc` of a block that is too small: a new one, and the contents of the old one. -/
def moveBlock (k p size realSize : ℕ) : Option (ℕ × State σ) := do
  let (ptr, s) ← malloc H s k size
  if ptr = 0 ∧ realSize ≠ 0 then none
  else
    let s ← free H { s with bytes := liballocMemcpy s.bytes ptr p realSize } p
    return (ptr, s)

def realloc (k p size : ℕ) : Option (ℕ × State σ) :=
  if size = 0 then (free H s p).map fun s => (0, s)
  else if p = 0 then malloc H s k size
  else
    let min := minorOf s p
    let m := s.minors min
    if m.magic ≠ liballocMagic then some (0, complain s m.magic)
    else if size ≤ m.reqSize then some (p, s.setMinor min { m with reqSize := word32 size })
    else moveBlock H s k p size m.reqSize

end ReduceOS.Liballoc
