import ReduceOS.MemoryMove
import ReduceOS.CString

/-!
`strncpy`, which does not look for the terminator: it copies as many bytes as it is told, and those
behind a short string are of whatever comes next in memory. Names are copied with it into
directory entries, network interfaces and the buffers of processes.
-/
namespace ReduceOS.StringCopy

open Machine AddressRange MemoryMove
open CString (Chars)

structure Trace where
  mem : Memory
  reads : List Addr
  writes : List Addr

section Source

def Trace.copy (t : Trace) (destination source : Addr) : Trace where
  mem := store t.mem destination (t.mem source)
  reads := t.reads ++ [source]
  writes := t.writes ++ [destination]

def strncpyLoop (mem : Memory) (destination source : Addr) : ℕ → Trace
  | 0 => ⟨mem, [], []⟩
  | i + 1 =>
    (strncpyLoop mem destination source i).copy (destination + BitVec.ofNat 64 i)
      (source + BitVec.ofNat 64 i)

def strncpy (mem : Memory) (destination source : Addr) (length : BitVec 64) : Trace :=
  strncpyLoop mem destination source length.toNat

def strlen (mem : Memory) : ℕ → Addr → Option ℕ
  | 0, _ => none
  | fuel + 1, str => if mem str = 0 then some 0 else (strlen mem fuel (str + 1)).map (· + 1)

end Source

structure StringAt (mem : Memory) (source : Addr) (s : Chars) : Prop where
  fits : source.toNat + (s.length + 1) ≤ 2 ^ 64
  nonzero : 0 ∉ s
  bytes : ∀ i ≤ s.length, mem (source + BitVec.ofNat 64 i) = s.getD i 0

def Apart (r : Range 64) (source : Addr) (s : Chars) : Prop :=
  ∀ i ≤ s.length, ¬ r.Has (source + BitVec.ofNat 64 i)

/-- The range holds the characters of the string and then zeros, and nothing but the string was
read. -/
structure Named (t : Trace) (source : Addr) (s : Chars) (r : Range 64) : Prop where
  copied : ∀ i < r.size, t.mem (r.place i) = s.getD i 0
  inside : ∀ a ∈ t.reads, ∃ i ≤ s.length, a = source + BitVec.ofNat 64 i

/-- The bytes of the range, and no others, are written, one after the other. -/
structure Copies (mem : Memory) (t : Trace) (source : Addr) (s : Chars) (r : Range 64) : Prop
    extends Named t source s r where
  writes : t.writes = (List.range r.size).map r.place
  kept : ∀ a, ¬ r.Has a → t.mem a = mem a

section Loop

variable {mem : Memory} {source : Addr} {s : Chars} {r : Range 64} {n : ℕ}

theorem strncpyLoop_reads (mem : Memory) (destination source : Addr) (n : ℕ) :
    (strncpyLoop mem destination source n).reads =
      (List.range n).map fun i => source + BitVec.ofNat 64 i := by
  induction n with
  | zero => rfl
  | succ n ih =>
    rw [List.range_succ, List.map_append, ← ih]
    rfl

theorem strncpyLoop_writes (mem : Memory) (r : Range 64) (source : Addr) (n : ℕ) :
    (strncpyLoop mem r.base source n).writes = (List.range n).map r.place := by
  induction n with
  | zero => rfl
  | succ n ih =>
    rw [List.range_succ, List.map_append, ← ih]
    rfl

theorem strncpyLoop_of_not_has (hn : n ≤ r.size) {a : Addr} (ha : ¬ r.Has a) :
    (strncpyLoop mem r.base source n).mem a = mem a := by
  induction n with
  | zero => rfl
  | succ n ih => exact (update_of_not_has (r := r) hn ha).trans (ih (by omega))

/-- As long as it has not come beyond the terminator, the loop copies the string. -/
theorem strncpyLoop_place (hs : StringAt mem source s) (hapart : Apart r source s)
    (hn : n ≤ r.size) (hle : n ≤ s.length + 1) {i : ℕ} (hi : i < r.size) :
    (strncpyLoop mem r.base source n).mem (r.place i) =
      if i < n then s.getD i 0 else mem (r.place i) := by
  induction n with
  | zero => simp [strncpyLoop]
  | succ n ih =>
    have hbyte : (strncpyLoop mem r.base source n).mem (source + BitVec.ofNat 64 n) =
        s.getD n 0 := by
      rw [strncpyLoop_of_not_has (by omega) (hapart n (by omega)), hs.bytes n (by omega)]
    have hstore : (strncpyLoop mem r.base source (n + 1)).mem =
        Function.update (strncpyLoop mem r.base source n).mem (r.place n) (s.getD n 0) := by
      rw [← hbyte]
      rfl
    rw [hstore, update_place hn hi, ih (by omega) (by omega)]
    by_cases heq : i = n
    · rw [heq, if_pos rfl, if_pos (Nat.lt_succ_self n)]
    · have hless : i < n ↔ i < n + 1 := by omega
      rw [if_neg heq, if_congr hless rfl rfl]

/-- The terminator and what is in front of it is all that may be copied. -/
theorem size_le_of_inside (hn : n < 2 ^ 64)
    (h : ∀ a ∈ (List.range n).map (fun i => source + BitVec.ofNat 64 i),
      ∃ i ≤ s.length, a = source + BitVec.ofNat 64 i) : n ≤ s.length + 1 := by
  by_contra hlong
  have hmem : s.length + 1 ∈ List.range n := List.mem_range.mpr (by omega)
  obtain ⟨i, hi, heq⟩ := h _ (List.mem_map_of_mem hmem)
  rw [BitVec.add_right_inj] at heq
  have hnat := congrArg BitVec.toNat heq
  rw [BitVec.toNat_ofNat, BitVec.toNat_ofNat, Nat.mod_eq_of_lt (by omega),
    Nat.mod_eq_of_lt (by omega)] at hnat
  omega

theorem strncpy_copies (hs : StringAt mem source s) (hapart : Apart r source s)
    (length : BitVec 64) (hsize : r.size = length.toNat) (hle : r.size ≤ s.length + 1) :
    Copies mem (strncpy mem r.base source length) source s r := by
  rw [strncpy, ← hsize]
  refine ⟨⟨fun i hi => ?_, fun a ha => ?_⟩, strncpyLoop_writes mem r source r.size, fun a ha => ?_⟩
  · rw [strncpyLoop_place hs hapart (Nat.le_refl _) hle hi, if_pos hi]
  · rw [strncpyLoop_reads] at ha
    obtain ⟨i, hi, rfl⟩ := List.mem_map.mp ha
    have hlt := List.mem_range.mp hi
    exact ⟨i, by omega, rfl⟩
  · exact strncpyLoop_of_not_has (Nat.le_refl _) ha

end Loop

section Names

section Source

def storeAll (mem : Memory) (destination : Addr) : Chars → Memory
  | [] => store mem destination 0
  | c :: s => storeAll (store mem destination c) (destination + 1) s

/-- The loop of `vfs_fakeNodeReaddir` over the children, with the names of these. -/
def findChild (index : BitVec 64) : List Addr → BitVec 64 → Option (BitVec 64 × Addr)
  | [], _ => none
  | name :: children, i =>
    let i := i + 1
    if i = index then some (i, name) else findChild index children i

def setIno (mem : Memory) (dent : Addr) (i : BitVec 64) : Memory :=
  let mem := store mem dent (i.setWidth 8)
  let mem := store mem (dent + 1) ((i >>> 8).setWidth 8)
  let mem := store mem (dent + 2) ((i >>> 16).setWidth 8)
  store mem (dent + 3) ((i >>> 24).setWidth 8)

/-- `vfs_fakeNodeReaddir`, with the entry that it allocates and the names of the children, and with
what `strncpy` reads and writes. -/
def vfsFakeNodeReaddir (mem : Memory) (dent : Addr) (children : List Addr) (index : BitVec 64) :
    Option Trace :=
  if index < 2 then
    let mem := memset mem dent 0 260
    let mem := storeAll mem (dent + 4) (if index = 0 then [46] else [46, 46])
    some ⟨setIno mem dent index, [], []⟩
  else
    (findChild (index - 2) children 0).map fun (i, name) =>
      let mem := memset mem dent 0 260
      let t := strncpy mem (dent + 4) name 256
      { t with mem := setIno t.mem dent i }

def nicCreate (mem : Memory) (nic name : Addr) : Trace :=
  strncpy (memset mem nic 0 176) nic name 128

/-- `sys_getcwd`, with the number of bytes that `strlen` may look at. -/
def sysGetcwd (mem : Memory) (fuel : ℕ) (wdPath buffer : Addr) (size : BitVec 64) :
    Option (BitVec 64 × Trace) :=
  if size = 0 ∨ buffer = null then some (0, ⟨mem, [], []⟩)
  else
    (strlen mem fuel wdPath).map fun wdLen =>
      let wdLen := BitVec.ofNat 64 wdLen
      (size, strncpy mem buffer wdPath (if wdLen > size then size else wdLen))

end Source

structure Dirent where
  base : Addr
  fits : base.toNat + 260 ≤ 2 ^ 64

def Dirent.range (d : Dirent) : Range 64 := ⟨d.base, 260, d.fits⟩

theorem Dirent.toNat_name (d : Dirent) : (d.base + 4).toNat = d.base.toNat + 4 := by
  have hfits := d.fits
  rw [BitVec.toNat_add]
  exact Nat.mod_eq_of_lt (Nat.lt_of_lt_of_le (by simp) hfits)

def Dirent.name (d : Dirent) : Range 64 where
  base := d.base + 4
  size := 256
  fits := by
    have hfits := d.fits
    rw [d.toNat_name]
    omega

structure Nic where
  base : Addr
  fits : base.toNat + 176 ≤ 2 ^ 64

def Nic.range (n : Nic) : Range 64 := ⟨n.base, 176, n.fits⟩

def Nic.name (n : Nic) : Range 64 := ⟨n.base, 128, by have hfits := n.fits; omega⟩

variable {mem : Memory} {source : Addr} {s : Chars} {r r' : Range 64}

theorem Apart.mono (h : Apart r source s) (hsub : ∀ a, r'.Has a → r.Has a) : Apart r' source s :=
  fun i hi ha => h i hi (hsub _ ha)

/-- A `memset` of other memory leaves a string as it is. -/
theorem StringAt.memset (hs : StringAt mem source s) (h : Apart r source s)
    {size : BitVec 64} (hsize : size.toNat = r.size) :
    StringAt (memset mem r.base 0 size) source s := by
  refine ⟨hs.fits, hs.nonzero, fun i hi => ?_⟩
  rw [MemoryMove.memset, memsetLoop_of_not_has 0 mem hsize.le (h i hi)]
  exact hs.bytes i hi

theorem Dirent.has_name (d : Dirent) {a : Addr} (h : d.name.Has a) : d.range.Has a := by
  have hbase := d.toNat_name
  obtain ⟨hlow, hhigh⟩ := h
  simp only [Dirent.name, Dirent.range, Range.Has] at hlow hhigh ⊢
  omega

theorem Nic.has_name (n : Nic) {a : Addr} (h : n.name.Has a) : n.range.Has a := by
  obtain ⟨hlow, hhigh⟩ := h
  simp only [Nic.name, Nic.range, Range.Has] at hlow hhigh ⊢
  omega

theorem setIno_of_has (d : Dirent) (i : BitVec 64) {a : Addr} (h : d.name.Has a) :
    setIno mem d.base i a = mem a := by
  have hbase := d.toNat_name
  have hne : ∀ k < 4, a ≠ d.base + BitVec.ofNat 64 k := by
    rintro k hk rfl
    have hplace := Range.toNat_place (r := d.range) (i := k) (by simp only [Dirent.range]; omega)
    obtain ⟨hlow, -⟩ := h
    simp only [Dirent.name, Dirent.range, Range.place] at hlow hplace
    omega
  have hzero : a ≠ d.base := fun heq => hne 0 (by omega) (heq.trans (BitVec.add_zero _).symm)
  have hother : ∀ (mem : Memory) (b : Addr) (c : BitVec 8), a ≠ b → store mem b c a = mem a :=
    fun mem b c hab => by rw [store, Function.update_of_ne hab]
  exact (hother _ _ _ (hne 3 (by omega))).trans ((hother _ _ _ (hne 2 (by omega))).trans
    ((hother _ _ _ (hne 1 (by omega))).trans (hother _ _ _ hzero)))

/-- The name of an entry that is found is right exactly if it is that long. -/
theorem readdir_named_iff (hs : StringAt mem source s) (d : Dirent) (h : Apart d.range source s)
    {children : List Addr} {index i : BitVec 64} (hindex : ¬ index < 2)
    (hfind : findChild (index - 2) children 0 = some (i, source)) :
    ∃ t, vfsFakeNodeReaddir mem d.base children index = some t ∧
      (Named t source s d.name ↔ 255 ≤ s.length) := by
  let cleared := memset mem d.base 0 260
  let t := strncpy cleared (d.base + 4) source 256
  refine ⟨{ t with mem := setIno t.mem d.base i }, ?_, ?_⟩
  · rw [vfsFakeNodeReaddir, if_neg hindex, hfind]
    rfl
  · have hname : Apart d.name source s := h.mono fun a ha => d.has_name ha
    have hcleared : StringAt cleared source s := hs.memset h rfl
    constructor
    · intro hnamed
      have hreads : t.reads = (List.range 256).map fun i => source + BitVec.ofNat 64 i :=
        strncpyLoop_reads cleared (d.base + 4) source 256
      exact Nat.le_of_succ_le_succ (size_le_of_inside (by decide : 256 < 2 ^ 64)
        fun a ha => hnamed.inside a (hreads ▸ ha))
    · intro hlong
      have hroom : d.name.size ≤ s.length + 1 := Nat.succ_le_succ hlong
      have hcopies : Copies cleared t source s d.name :=
        strncpy_copies hcleared hname 256 rfl hroom
      refine ⟨fun j hj => ?_, hcopies.inside⟩
      have hsame : setIno t.mem d.base i (d.name.place j) = t.mem (d.name.place j) :=
        setIno_of_has d i (Range.has_place hj)
      rw [← hcopies.copied j hj, ← hsame]

/-- The name of a network interface is right exactly if it is that long. -/
theorem nic_named_iff (hs : StringAt mem source s) (n : Nic) (h : Apart n.range source s) :
    Named (nicCreate mem n.base source) source s n.name ↔ 127 ≤ s.length := by
  have hname : Apart n.name source s := h.mono fun a ha => n.has_name ha
  have hcleared : StringAt (memset mem n.base 0 176) source s := hs.memset h rfl
  constructor
  · intro hnamed
    have hreads := strncpyLoop_reads (memset mem n.base 0 176) n.base source 128
    exact Nat.le_of_succ_le_succ (size_le_of_inside (by decide : 128 < 2 ^ 64)
      fun a ha => hnamed.inside a (hreads ▸ ha))
  · intro hlong
    have hroom : n.name.size ≤ s.length + 1 := Nat.succ_le_succ hlong
    exact (strncpy_copies hcleared hname 128 rfl hroom).toNamed

theorem strlen_eq (hs : StringAt mem source s) {fuel k : ℕ} (hk : k ≤ s.length)
    (hfuel : s.length - k < fuel) :
    strlen mem fuel (source + BitVec.ofNat 64 k) = some (s.length - k) := by
  induction fuel generalizing k with
  | zero => omega
  | succ fuel ih =>
    have hbyte := hs.bytes k hk
    rw [strlen, hbyte]
    by_cases hend : k = s.length
    · have hterminator : s.getD s.length 0 = 0 := by simp
      rw [hend, hterminator, if_pos rfl, Nat.sub_self]
    · have hless : k < s.length := by omega
      have hne : s.getD k 0 ≠ 0 := by
        have hget : s.getD k 0 = s[k] := by simp [hless]
        rw [hget]
        exact fun heq => hs.nonzero (heq ▸ List.getElem_mem hless)
      have hnext : source + BitVec.ofNat 64 k + 1 = source + BitVec.ofNat 64 (k + 1) := by
        rw [BitVec.ofNat_add, ← BitVec.add_assoc]
        rfl
      rw [if_neg hne, hnext, ih hless (by omega), Option.map_some]
      congr 1
      omega

/-- The working directory is copied without its terminator, and cut off where it is too long. -/
theorem getcwd_copies (hs : StringAt mem source s) {buffer : Range 64} {size : BitVec 64}
    (hbuffer : buffer.base ≠ null) (hsize : size ≠ 0)
    (hlength : buffer.size = min s.length size.toNat) (h : Apart buffer source s) {fuel : ℕ}
    (hfuel : s.length < fuel) : ∃ t, sysGetcwd mem fuel source buffer.base size = some (size, t) ∧
      Copies mem t source s buffer := by
  have hstrlen := strlen_eq hs (Nat.zero_le s.length) hfuel
  have hzero : source + BitVec.ofNat 64 0 = source := BitVec.add_zero source
  rw [hzero, Nat.sub_zero] at hstrlen
  have hfits := hs.fits
  have hnat : (BitVec.ofNat 64 s.length).toNat = s.length := by
    rw [BitVec.toNat_ofNat, Nat.mod_eq_of_lt (by omega)]
  let wdLen := BitVec.ofNat 64 s.length
  have hmin : (if wdLen > size then size else wdLen).toNat = buffer.size := by
    rw [hlength]
    by_cases hcut : wdLen > size
    · have hless : size.toNat < s.length := by rwa [gt_iff_lt, BitVec.lt_def, hnat] at hcut
      rw [if_pos hcut, Nat.min_eq_right hless.le]
    · have hle : s.length ≤ size.toNat := by
        rw [gt_iff_lt, BitVec.lt_def, hnat] at hcut
        exact Nat.le_of_not_lt hcut
      rw [if_neg hcut, hnat, Nat.min_eq_left hle]
  refine ⟨strncpy mem buffer.base source (if wdLen > size then size else wdLen), ?_,
    strncpy_copies hs h _ hmin.symm ?_⟩
  · rw [sysGetcwd, if_neg (not_or.mpr ⟨hsize, hbuffer⟩), hstrlen]
    rfl
  · rw [hlength]
    omega

theorem copies_iff (hs : StringAt mem source s) (r : Range 64) (length : BitVec 64)
    (hsize : r.size = length.toNat) (h : Apart r source s) :
    Copies mem (strncpy mem r.base source length) source s r ↔ length.toNat ≤ s.length + 1 := by
  constructor
  · intro hcopies
    have hreads := strncpyLoop_reads mem r.base source length.toNat
    exact size_le_of_inside length.isLt fun a ha => hcopies.inside a (hreads ▸ ha)
  · intro hle
    exact strncpy_copies hs h length hsize (hsize ▸ hle)

/-- Where a string is copied with `strncpy`: exactly the copies that end with its terminator or in
front of it are right. Those of the working directory always do. -/
theorem string_copy_iff (hs : StringAt mem source s) :
    (∀ (r : Range 64) (length : BitVec 64), r.size = length.toNat → Apart r source s →
      (Copies mem (strncpy mem r.base source length) source s r ↔
        length.toNat ≤ s.length + 1)) ∧
    (∀ (d : Dirent) (children : List Addr) (index i : BitVec 64), Apart d.range source s →
      ¬ index < 2 → findChild (index - 2) children 0 = some (i, source) →
        ∃ t, vfsFakeNodeReaddir mem d.base children index = some t ∧
          (Named t source s d.name ↔ 255 ≤ s.length)) ∧
    (∀ n : Nic, Apart n.range source s →
      (Named (nicCreate mem n.base source) source s n.name ↔ 127 ≤ s.length)) ∧
    ∀ (buffer : Range 64) (size : BitVec 64) (fuel : ℕ), buffer.base ≠ null → size ≠ 0 →
      buffer.size = min s.length size.toNat → Apart buffer source s → s.length < fuel →
        ∃ t, sysGetcwd mem fuel source buffer.base size = some (size, t) ∧
          Copies mem t source s buffer := by
  refine ⟨copies_iff hs, ?_, nic_named_iff hs, ?_⟩
  · intro d children index i h hindex hfind
    exact readdir_named_iff hs d h hindex hfind
  · intro buffer size fuel hbuffer hsize hlength h hfuel
    exact getcwd_copies hs hbuffer hsize hlength h hfuel

def sample (a : Addr) : BitVec 8 :=
  if a = 0x1000 then 97 else if a = 0x1001 then 98 else if a = 0x1003 then 88 else 0

theorem sample_string : StringAt sample 0x1000 [97, 98] :=
  ⟨by decide, by decide, by decide⟩

def elsewhere : Range 64 := ⟨0x2000, 4, by decide⟩

theorem elsewhere_apart : Apart elsewhere 0x1000 [97, 98] := by
  unfold Apart
  decide

def longName : Chars := List.replicate 255 97

def named (a : Addr) : BitVec 8 := if 0x1000 ≤ a.toNat ∧ a.toNat < 0x10FF then 97 else 0

theorem toNat_longName {i : ℕ} (hi : i ≤ 255) :
    (0x1000 + BitVec.ofNat 64 i : Addr).toNat = 0x1000 + i := by
  rw [BitVec.toNat_add, BitVec.toNat_ofNat, Nat.add_mod_mod]
  exact Nat.mod_eq_of_lt (Nat.lt_of_le_of_lt (Nat.add_le_add_left hi _) (by decide))

theorem length_longName : longName.length = 255 := List.length_replicate

theorem longName_string : StringAt named 0x1000 longName := by
  refine ⟨by rw [length_longName]; decide, ?_, fun i hi => ?_⟩
  · exact fun h => absurd (List.eq_of_mem_replicate h) (by decide)
  rw [length_longName] at hi
  simp only [named, toNat_longName hi, longName, List.getD_eq_getElem?_getD,
    List.getElem?_replicate]
  split_ifs <;> first | rfl | omega

theorem longName_apart {r : Range 64} (h : 0x1100 ≤ r.base.toNat) : Apart r 0x1000 longName := by
  intro i hi hhas
  rw [length_longName] at hi
  have hbase := hhas.1
  rw [toNat_longName hi] at hbase
  omega

/-- Copied with its terminator, into a directory entry, into a network interface and as the working
directory, the name of 255 characters is copied rightly. -/
theorem longName_copied :
    Copies named (strncpy named 0x2000 0x1000 256) 0x1000 longName ⟨0x2000, 256, by decide⟩ ∧
      (∃ t, vfsFakeNodeReaddir named 0x3000 [0x9000, 0x1000] 4 = some t ∧
        Named t 0x1000 longName (Dirent.mk 0x3000 (by decide)).name) ∧
      Named (nicCreate named 0x4000 0x1000) 0x1000 longName (Nic.mk 0x4000 (by decide)).name ∧
      ∃ t, sysGetcwd named 256 0x1000 0x5000 256 = some (256, t) ∧
        Copies named t 0x1000 longName ⟨0x5000, 255, by decide⟩ := by
  have hall := string_copy_iff longName_string
  rw [length_longName] at hall
  refine ⟨?_, ?_, ?_, ?_⟩
  · exact (hall.1 ⟨0x2000, 256, by decide⟩ 256 rfl (longName_apart (by decide))).mpr (by decide)
  · have happart : Apart (Dirent.mk 0x3000 (by decide)).range 0x1000 longName :=
      longName_apart (by decide)
    have hchild : findChild (4 - 2) [0x9000, 0x1000] 0 = some (2, 0x1000) := by decide
    have hentry := hall.2.1 ⟨0x3000, by decide⟩ [0x9000, 0x1000] 4 2 happart (by decide) hchild
    exact hentry.imp fun t ht => ⟨ht.1, ht.2.mpr (by decide)⟩
  · exact (hall.2.2.1 ⟨0x4000, by decide⟩ (longName_apart (by decide))).mpr (by decide)
  · exact hall.2.2.2 ⟨0x5000, 255, by decide⟩ 256 256 (by decide) (by decide) (by decide)
      (longName_apart (by decide)) (by decide)

/-- The fourth byte of a copy of `ab` is the `X`. -/
theorem neighbour_copied : ¬ ∀ mem source s (r : Range 64) length, StringAt mem source s →
    r.size = length.toNat → Apart r source s →
      Copies mem (strncpy mem r.base source length) source s r := by
  intro h
  have hcopies := h sample 0x1000 [97, 98] elsewhere 4 sample_string rfl elsewhere_apart
  exact absurd (hcopies.copied 3 (by decide)) (by decide)

end Names

end ReduceOS.StringCopy
