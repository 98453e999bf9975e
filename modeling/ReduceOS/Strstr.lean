import Mathlib.Data.Int.Notation
import Mathlib.Data.Nat.Notation
import Mathlib.Logic.Function.Basic
import Mathlib.Order.Lattice

/-!
`strstr` of libpolyhedron. Short strings are looked for with a window of two to four characters,
longer ones with the two-way algorithm: it compares the right part of the needle first, forwards,
and the left part then, and remembers how much of a periodic needle it has matched already. Memory
is read from a pointer on, and a number bounds the rounds of the loops that run along a string.
-/
namespace ReduceOS.Strstr

abbrev Memory := ℕ → BitVec 8

section Memchr

def alignment : ℕ := 8

def ones : BitVec 64 := 0x0101010101010101

def highs : BitVec 64 := 0x8080808080808080

def hasZero (x : BitVec 64) : Bool := (x - ones) &&& ~~~x &&& highs != 0

def loadWord (s : Memory) (i : ℕ) : BitVec 64 :=
  BitVec.ofNat 64 ((List.range 8).foldr (fun q w => (s (i + q)).toNat + 256 * w) 0)

/-- The loop up to the first aligned address. The string is at address `a`. -/
def memchrHead (a : ℕ) (s : Memory) (c : BitVec 8) : ℕ → ℕ → ℕ × ℕ
  | i, 0 => (i, 0)
  | i, n + 1 =>
      if (a + i) % alignment ≠ 0 ∧ s i ≠ c then memchrHead a s c (i + 1) n else (i, n + 1)

def memchrWords (s : Memory) (k : BitVec 64) : ℕ → ℕ → ℕ → ℕ × ℕ
  | 0, i, n => (i, n)
  | rounds + 1, i, n =>
      if alignment ≤ n ∧ hasZero (loadWord s i ^^^ k) = false then
        memchrWords s k rounds (i + alignment) (n - alignment)
      else (i, n)

def memchrTail (s : Memory) (c : BitVec 8) : ℕ → ℕ → ℕ × ℕ
  | i, 0 => (i, 0)
  | i, n + 1 => if s i ≠ c then memchrTail s c (i + 1) n else (i, n + 1)

def memchr (a : ℕ) (s : Memory) (c : BitVec 8) (n : ℕ) : Option ℕ :=
  let (i, n) := memchrHead a s c 0 n
  let (i, n) :=
    if n ≠ 0 ∧ s i ≠ c then
      let (i, n) := memchrWords s (ones * c.setWidth 64) n i n
      memchrTail s c i n
    else (i, n)
  if n ≠ 0 then some i else none

end Memchr

section Short

/-- The loop of `strstr_2b`, `strstr_3b` and `strstr_4b`: `hw` are the characters up to `*h`. -/
def roll {w : ℕ} (next : BitVec w → BitVec 8 → BitVec w) (back : ℕ) (nw : BitVec w) (h : Memory) :
    ℕ → ℕ → BitVec w → Option (Option ℕ)
  | 0, _, _ => none
  | rounds + 1, i, hw =>
      if h i ≠ 0 ∧ hw ≠ nw then roll next back nw h rounds (i + 1) (next hw (h (i + 1)))
      else some (if h i ≠ 0 then some (i - back) else none)

def window2b (s : Memory) : BitVec 16 := (s 0).setWidth 16 <<< 8 ||| (s 1).setWidth 16

def strstr2b (h n : Memory) (rounds : ℕ) : Option (Option ℕ) :=
  roll (fun hw c => hw <<< 8 ||| c.setWidth 16) 1 (window2b n) h rounds 1 (window2b h)

def window3b (s : Memory) : BitVec 32 :=
  (s 0).setWidth 32 <<< 24 ||| (s 1).setWidth 32 <<< 16 ||| (s 2).setWidth 32 <<< 8

def strstr3b (h n : Memory) (rounds : ℕ) : Option (Option ℕ) :=
  roll (fun hw c => (hw ||| c.setWidth 32) <<< 8) 2 (window3b n) h rounds 2 (window3b h)

def window4b (s : Memory) : BitVec 32 :=
  (s 0).setWidth 32 <<< 24 ||| (s 1).setWidth 32 <<< 16 ||| (s 2).setWidth 32 <<< 8 |||
    (s 3).setWidth 32

def strstr4b (h n : Memory) (rounds : ℕ) : Option (Option ℕ) :=
  roll (fun hw c => hw <<< 8 ||| c.setWidth 32) 3 (window4b n) h rounds 3 (window4b h)

end Short

section TwoWay

structure ByteTables where
  byteset : BitVec 8 → Bool
  shift : BitVec 8 → ℕ

def fillTables (h n : Memory) : ℕ → ℕ → ByteTables → Option (ℕ × ByteTables)
  | 0, _, _ => none
  | rounds + 1, l, t =>
      if n l ≠ 0 ∧ h l ≠ 0 then
        fillTables h n rounds (l + 1)
          { byteset := Function.update t.byteset (n l) true
            shift := Function.update t.shift (n l) (l + 1) }
      else some (l, t)

/-- The loop for a maximal suffix, by one of the two orders; `i` is `ip + 1`, as `ip` starts at -1.
The answer is `ip + 1` and `p`. -/
def maximalSuffix (greater : BitVec 8 → BitVec 8 → Bool) (n : Memory) (l : ℕ) :
    ℕ → ℕ → ℕ → ℕ → ℕ → ℕ × ℕ
  | 0, i, _, _, p => (i, p)
  | rounds + 1, i, jp, k, p =>
      if jp + k < l then
        if n (i + k - 1) = n (jp + k) then
          if k = p then maximalSuffix greater n l rounds i (jp + p) 1 p
          else maximalSuffix greater n l rounds i jp (k + 1) p
        else if greater (n (i + k - 1)) (n (jp + k)) then
          maximalSuffix greater n l rounds i (jp + k) 1 (jp + k + 1 - i)
        else maximalSuffix greater n l rounds (jp + 1) (jp + 1) 1 1
      else (i, p)

def suffixRounds (l : ℕ) : ℕ := 3 * l

/-- `ms + 1` and the period of the suffix from there: of the two maximal suffixes the shorter
one. -/
def splitNeedle (n : Memory) (l : ℕ) : ℕ × ℕ :=
  let (ms, p0) := maximalSuffix (fun a b => b < a) n l (suffixRounds l) 0 0 1 1
  let (ip, p) := maximalSuffix (fun a b => a < b) n l (suffixRounds l) 0 0 1 1
  if ms < ip then (ip, p) else (ms, p0)

def memcmpFrom (a b : Memory) : ℕ → ℕ → ℤ
  | _, 0 => 0
  | i, n + 1 => if a i < b i then -1 else if b i < a i then 1 else memcmpFrom a b (i + 1) n

def memcmp (a b : Memory) (n : ℕ) : ℤ := memcmpFrom a b 0 n

/-- What the search loop does not change: the length of the needle, its tables, `ms + 1`, `p` and
`mem0`. -/
structure Needle where
  l : ℕ
  tables : ByteTables
  split : ℕ
  p : ℕ
  mem0 : ℕ

def needle (n : Memory) (l : ℕ) (tables : ByteTables) : Needle :=
  let (split, p) := splitNeedle n l
  if memcmp n (fun q => n (p + q)) split ≠ 0 then
    { l, tables, split, p := max (split - 1) (l - split) + 1, mem0 := 0 }
  else { l, tables, split, p, mem0 := l - p }

def matchRight (h n : Memory) : ℕ → ℕ → ℕ
  | 0, k => k
  | rounds + 1, k => if n k ≠ 0 ∧ n k = h k then matchRight h n rounds (k + 1) else k

def matchLeft (h n : Memory) (mem : ℕ) : ℕ → ℕ
  | 0 => 0
  | k + 1 => if mem < k + 1 ∧ n k = h k then matchLeft h n mem k else k + 1

/-- The update of the pointer to the end of the haystack; `none` if the haystack ends too early. -/
def extendEnd (a : ℕ) (h : Memory) (l pos z : ℕ) : Option ℕ :=
  if z - pos < l then
    let grow := l ||| 63
    match memchr (a + z) (fun q => h (z + q)) 0 grow with
    | some i => if z + i - pos < l then none else some (z + i)
    | none => some (z + grow)
  else some z

inductive Turn
  | goOn (pos mem : ℕ)
  | found

def searchTurn (h n : Memory) (x : Needle) (pos mem : ℕ) : Turn :=
  let c := h (pos + (x.l - 1))
  if x.tables.byteset c then
    let k := x.l - x.tables.shift c
    if k ≠ 0 then
      if x.mem0 ≠ 0 ∧ mem ≠ 0 ∧ k < x.p then .goOn (pos + (x.l - x.p)) 0 else .goOn (pos + k) 0
    else
      let k := matchRight (fun q => h (pos + q)) n x.l (max x.split mem)
      if n k ≠ 0 then .goOn (pos + (k + 1 - x.split)) 0
      else if matchLeft (fun q => h (pos + q)) n mem x.split ≤ mem then .found
      else .goOn (pos + x.p) x.mem0
  else .goOn (pos + x.l) 0

def searchLoop (a : ℕ) (h n : Memory) (x : Needle) : ℕ → ℕ → ℕ → ℕ → Option (Option ℕ)
  | 0, _, _, _ => none
  | rounds + 1, pos, mem, z =>
      match extendEnd a h x.l pos z with
      | none => some none
      | some z =>
          match searchTurn h n x pos mem with
          | .found => some (some pos)
          | .goOn pos mem => searchLoop a h n x rounds pos mem z

def strstrTwoway (a : ℕ) (h n : Memory) (rounds : ℕ) : Option (Option ℕ) :=
  (fillTables h n rounds 0 { byteset := fun _ => false, shift := fun _ => 0 }).bind
      fun (l, tables) =>
  if n l ≠ 0 then some none else searchLoop a h n (needle n l tables) rounds 0 0 0

end TwoWay

def strchrFrom (s : Memory) (c : BitVec 8) : ℕ → ℕ → Option (Option ℕ)
  | 0, _ => none
  | rounds + 1, i =>
      if s i ≠ 0 then if s i = c then some (some i) else strchrFrom s c rounds (i + 1)
      else some none

/-- The end of `strstr`, from the first character of the needle on. -/
def strstrFrom (a : ℕ) (h n : Memory) (rounds : ℕ) : Option (Option ℕ) :=
  if n 1 = 0 then some (some 0)
  else if h 1 = 0 then some none
  else if n 2 = 0 then strstr2b h n rounds
  else if h 2 = 0 then some none
  else if n 3 = 0 then strstr3b h n rounds
  else if h 3 = 0 then some none
  else if n 4 = 0 then strstr4b h n rounds
  else strstrTwoway a h n rounds

/-- `strstr`: where the needle is in the haystack, which is at address `a`. -/
def strstr (a : ℕ) (h n : Memory) (rounds : ℕ) : Option (Option ℕ) :=
  if n 0 = 0 then some (some 0)
  else
    (strchrFrom h (n 0) rounds 0).bind fun found =>
    match found with
    | none => some none
    | some i => (strstrFrom (a + i) (fun q => h (i + q)) n rounds).map (Option.map (i + ·))

end ReduceOS.Strstr
