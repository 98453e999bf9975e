import Mathlib.Data.List.Basic
import Mathlib.Tactic.IntervalCases

/-!
Words in memory and in the byte order of the network. Memory is a function from offsets to
bytes, and a word lies in it with its lowest byte first.
-/
namespace ReduceOS.Inet

abbrev Byte := BitVec 8

section Source

def htons (hostshort : BitVec 16) : BitVec 16 :=
  ((hostshort &&& 0xFF) <<< 8) ||| ((hostshort &&& 0xFF00) >>> 8)

def ntohs (netshort : BitVec 16) : BitVec 16 := htons netshort

def htonl (hostlong : BitVec 32) : BitVec 32 :=
  ((hostlong &&& 0xFF) <<< 24) ||| ((hostlong &&& 0xFF00) <<< 8) |||
    ((hostlong &&& 0xFF0000) >>> 8) ||| ((hostlong &&& 0xFF000000) >>> 24)

end Source

def load16 (mem : ℕ → Byte) (offset : ℕ) : BitVec 16 := mem (offset + 1) ++ mem offset

def load32 (mem : ℕ → Byte) (offset : ℕ) : BitVec 32 :=
  mem (offset + 3) ++ mem (offset + 2) ++ mem (offset + 1) ++ mem offset

def load64 (mem : ℕ → Byte) (offset : ℕ) : BitVec 64 := load32 mem (offset + 4) ++ load32 mem offset

def loadBytes (mem : ℕ → Byte) (offset n : ℕ) : List Byte :=
  (List.range n).map fun k => mem (offset + k)

def bytes16 (w : BitVec 16) : List Byte := [w.extractLsb' 0 8, w.extractLsb' 8 8]

def bytes32 (w : BitVec 32) : List Byte :=
  [w.extractLsb' 0 8, w.extractLsb' 8 8, w.extractLsb' 16 8, w.extractLsb' 24 8]

def ofList (bytes : List Byte) (rest : ℕ → Byte) (offset : ℕ) : Byte :=
  bytes.getD offset (rest offset)

theorem htons_htons (w : BitVec 16) : htons (htons w) = w := by
  ext i hi
  interval_cases i <;> simp [htons]

@[simp] theorem ntohs_htons (w : BitVec 16) : ntohs (htons w) = w := htons_htons w

theorem join16 (w : BitVec 16) : w.extractLsb' 8 8 ++ w.extractLsb' 0 8 = w := by
  ext i hi
  simp only [BitVec.getElem_append, BitVec.getElem_extractLsb']
  grind

theorem join16_swapped (w : BitVec 16) : w.extractLsb' 0 8 ++ w.extractLsb' 8 8 = htons w := by
  ext i hi
  simp only [BitVec.getElem_append, BitVec.getElem_extractLsb']
  interval_cases i <;> simp [htons]

theorem ntohs_append (a b : Byte) : ntohs (b ++ a) = a ++ b := by
  have hlow : (b ++ a).extractLsb' 0 8 = a := BitVec.extractLsb'_append_eq_right
  have hhigh : (b ++ a).extractLsb' 8 8 = b := BitVec.extractLsb'_append_eq_left
  rw [ntohs, ← join16_swapped, hlow, hhigh]

theorem toNat_append_bytes (a b : Byte) : (a ++ b).toNat = 256 * a.toNat + b.toNat := by
  rw [BitVec.toNat_append, ← Nat.shiftLeft_add_eq_or_of_lt b.isLt, Nat.shiftLeft_eq]
  omega

/-- A word of the network has its highest byte first. -/
theorem ntohs_load16 (mem : ℕ → Byte) (k : ℕ) :
    (ntohs (load16 mem k)).toNat = 256 * (mem k).toNat + (mem (k + 1)).toNat := by
  rw [load16, ntohs_append, toNat_append_bytes]

theorem join32 (w : BitVec 32) : w.extractLsb' 24 8 ++ w.extractLsb' 16 8 ++
    w.extractLsb' 8 8 ++ w.extractLsb' 0 8 = w := by
  ext i hi
  simp only [BitVec.getElem_append, BitVec.getElem_extractLsb']
  grind

@[simp] theorem loadBytes_length (mem : ℕ → Byte) (offset n : ℕ) :
    (loadBytes mem offset n).length = n := by
  simp [loadBytes]

@[simp] theorem getElem_loadBytes (mem : ℕ → Byte) (offset n i : ℕ)
    (hi : i < (loadBytes mem offset n).length) :
    (loadBytes mem offset n)[i] = mem (offset + i) := by
  simp [loadBytes]

theorem loadBytes_add (mem : ℕ → Byte) (offset n m : ℕ) :
    loadBytes mem offset (n + m) = loadBytes mem offset n ++ loadBytes mem (offset + n) m := by
  unfold loadBytes
  rw [List.range_add, List.map_append, List.map_map]
  simp only [Function.comp_def, Nat.add_assoc]

theorem loadBytes_congr {mem mem' : ℕ → Byte} {offset n : ℕ}
    (h : ∀ k < n, mem (offset + k) = mem' (offset + k)) :
    loadBytes mem offset n = loadBytes mem' offset n :=
  List.map_congr_left fun k hk => h k (List.mem_range.mp hk)

theorem load32_congr {f g : ℕ → Byte} {k l : ℕ} (h : ∀ i < 4, f (k + i) = g (l + i)) :
    load32 f k = load32 g l := by
  have h0 := h 0 (by decide)
  rw [Nat.add_zero, Nat.add_zero] at h0
  rw [load32, load32, h0, h 1 (by decide), h 2 (by decide), h 3 (by decide)]

theorem load64_congr {f g : ℕ → Byte} {k l : ℕ} (h : ∀ i < 8, f (k + i) = g (l + i)) :
    load64 f k = load64 g l := by
  have hlow : load32 f k = load32 g l := load32_congr fun i hi => h i (by omega)
  have hhigh : load32 f (k + 4) = load32 g (l + 4) := load32_congr fun i hi => by
    rw [Nat.add_assoc, Nat.add_assoc]
    exact h (4 + i) (by omega)
  rw [load64, load64, hlow, hhigh]

theorem ofList_append (before bytes : List Byte) (rest : ℕ → Byte) (k : ℕ) :
    ofList (before ++ bytes) rest (before.length + k) =
      ofList bytes (fun i => rest (before.length + i)) k := by
  have hright : (before ++ bytes)[before.length + k]? = bytes[k]? := by
    rw [List.getElem?_append_right (by omega), Nat.add_sub_cancel_left]
  simp [ofList, List.getD_eq_getElem?_getD, hright]

/-- A list is read back from the memory it was put in. -/
theorem loadBytes_ofList (before bytes : List Byte) (rest : ℕ → Byte) :
    loadBytes (ofList (before ++ bytes) rest) before.length bytes.length = bytes := by
  apply List.ext_getElem
  · simp
  · intro i hi hi'
    simp only [getElem_loadBytes, ofList_append]
    simp [ofList, List.getD_eq_getElem?_getD, hi']

end ReduceOS.Inet
