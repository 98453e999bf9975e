import ReduceOS.UstarHeader
import ReduceOS.UstarScan

/-!
Well-formed archives: the headers of the members, each with its data behind it in whole blocks,
and a block without the magic at the end. The loops of the filesystem come from each header to the
next one.
-/
namespace ReduceOS.UstarArchive

open Machine CString Numerals Ramdev Ustar UstarHeader UstarScan
open MountTree (slash)

structure Member where
  name : Chars
  size : ℕ
  type : BitVec 8

def blocks (size : ℕ) : ℕ := (size + 511) / 512 * 512

def Member.next (m : Member) (o : ℕ) : ℕ := o + 512 + blocks m.size

structure HeaderOf (header : Chars) (m : Member) : Prop where
  name : Holds header 0 100 m.name
  short : m.name.length < 100
  namePrefix : Holds header 345 155 []
  size : HoldsOctal header 124 12 m.size
  type : Ustar.type header = m.type
  magic : (header.drop 257).take 5 = magic

def content (a : Archive) (o n : ℕ) : Chars :=
  (List.range n).map fun i => a.memory (a.dev.dev + BitVec.ofNat 64 (o + i))

def WellFormed (a : Archive) : ℕ → List Member → Prop
  | o, [] => o + 512 ≤ a.dev.length.toNat ∧ ((content a o 500).drop 257).take 5 ≠ magic
  | o, m :: members =>
    HeaderOf (content a o 500) m ∧ m.next o ≤ a.dev.length.toNat ∧
      WellFormed a (m.next o) members

def endOf (o : ℕ) (members : List Member) : ℕ := members.foldl (fun o m => m.next o) o

theorem strncmp_magic_iff {header : Chars} :
    strncmp (header.drop 257) magic 5 = 0 ↔ (header.drop 257).take 5 = magic := by
  rw [strncmp, if_neg (by decide), strncmpLoop_prefix_iff (by decide) rfl,
    List.prefix_iff_eq_take]
  exact eq_comm

section Fields

variable {header : Chars}

theorem HeaderOf.append {m : Member} (h : HeaderOf header m) (hlength : header.length = 500)
    (beyond : Chars) : HeaderOf (header ++ beyond) m where
  name := h.name.append (by omega) beyond
  short := h.short
  namePrefix := h.namePrefix.append (by omega) beyond
  size := h.size.append (by omega) beyond
  type := by
    have hdrop : header.drop 156 ≠ [] := by
      rw [Ne, List.drop_eq_nil_iff]
      omega
    rw [← h.type, Ustar.type, Ustar.type, List.drop_append_of_le_length (by omega), deref, deref]
    cases hrest : header.drop 156 with
    | nil => exact absurd hrest hdrop
    | cons c rest => rfl
  magic := by
    rw [← h.magic, List.drop_append_of_le_length (by omega), List.take_append_of_le_length]
    rw [List.length_drop]
    omega

variable {m : Member}

/-- A header is told by what its fields begin with. -/
theorem headerOf_of_fields {digits : Chars} (hname : m.name ++ [0] <+: header)
    (h0 : 0 ∉ m.name) (hshort : m.name.length < 100) (hbegins : [0] <+: header.drop 345)
    (hsize : digits ++ [0] <+: header.drop 124) (hne : digits ≠ []) (hlength : digits.length < 12)
    (hdigits : digits.all fun c => Octal c) (hvalue : value 8 digits = m.size)
    (htype : Ustar.type header = m.type) (hmagic : (header.drop 257).take 5 = Ustar.magic) :
    HeaderOf header m where
  name := by
    obtain ⟨rest, hrest⟩ := hname
    exact ⟨h0, hshort.le, 0 :: rest, by simp [← hrest], fun _ => rfl⟩
  short := hshort
  namePrefix := by
    obtain ⟨rest, hrest⟩ := hbegins
    exact ⟨by simp, by simp, 0 :: rest, by simp [← hrest], fun _ => rfl⟩
  size := by
    obtain ⟨rest, hrest⟩ := hsize
    refine ⟨digits, 0, rest, by simp [← hrest], hne, hlength, ?_, .inl rfl, hvalue⟩
    simpa using hdigits
  type := htype
  magic := hmagic

theorem HeaderOf.name_eq (h : HeaderOf header m) : Ustar.name header = m.name :=
  h.name.cstring_eq h.short

theorem HeaderOf.namePrefix_eq (h : HeaderOf header m) : Ustar.namePrefix header = [] :=
  h.namePrefix.cstring_eq (by decide)

theorem HeaderOf.filename_eq (h : HeaderOf header m) : filename header = stripSlash m.name := by
  have hshort := h.short
  unfold filename snprintf
  rw [h.namePrefix_eq, h.name_eq, List.nil_append, List.take_of_length_le (by omega)]

theorem HeaderOf.pathFilename_eq (h : HeaderOf header m) : pathFilename header = m.name := by
  have hshort := h.short
  unfold pathFilename strncat
  rw [h.namePrefix_eq, h.name_eq, List.take_nil, List.nil_append, List.nil_append,
    List.take_of_length_le (by omega)]

end Fields

section Layout

variable {a : Archive} {o : ℕ} {m : Member} {members : List Member}

theorem length_content (a : Archive) (o n : ℕ) : (content a o n).length = n := by
  simp [content]

/-- The header that is read where a block of the device is. -/
theorem tarfsGetUstar_eq (ho : o + 512 ≤ a.dev.length.toNat) :
    tarfsGetUstar a (BitVec.ofNat 64 o) =
      if ((content a o 500).drop 257).take 5 = magic then
        some (content a o 500 ++ a.beyond (BitVec.ofNat 64 o))
      else none := by
  have hlt := a.dev.length.isLt
  have hoffset : (BitVec.ofNat 64 o).toNat = o := by
    rw [BitVec.toNat_ofNat, Nat.mod_eq_of_lt (by omega)]
  have hle : BitVec.ofNat 64 o ≤ a.dev.length := by
    rw [BitVec.le_def, hoffset]
    omega
  have hclamp : (clampSize a.dev.length (BitVec.ofNat 64 o) (BitVec.ofNat 64 headerSize)).toNat =
      500 := by
    have hsize : (BitVec.ofNat 64 headerSize).toNat = 500 := rfl
    rw [@clampSize_toNat a.dev _ _ hle, hoffset, hsize, if_pos (by omega)]
    omega
  have hread : ramdevRead a.dev (BitVec.ofNat 64 o) (BitVec.ofNat 64 headerSize) a.buffer =
      (clampSize a.dev.length (BitVec.ofNat 64 o) (BitVec.ofNat 64 headerSize),
        some ⟨a.buffer, a.dev.dev + BitVec.ofNat 64 o,
          clampSize a.dev.length (BitVec.ofNat 64 o) (BitVec.ofNat 64 headerSize)⟩) := by
    unfold ramdevRead ramdevCopy
    rw [if_neg, if_neg (BitVec.not_lt.mpr hle)]
    exact not_or.mpr ⟨by decide, a.allocated⟩
  unfold tarfsGetUstar
  rw [hread]
  generalize clampSize a.dev.length (BitVec.ofNat 64 o) (BitVec.ofNat 64 headerSize) = size at *
  have hne : size ≠ 0 := by
    rintro rfl
    exact absurd hclamp (by decide)
  have hbytes : a.bytes ⟨a.buffer, a.dev.dev + BitVec.ofNat 64 o, size⟩ = content a o 500 := by
    unfold Archive.bytes content
    rw [hclamp]
    refine List.map_congr_left fun i _ => ?_
    rw [BitVec.add_assoc, BitVec.ofNat_add]
  simp only [hne, if_false, Option.toList_some, List.flatMap_singleton, hbytes, length_content,
    headerSize, Nat.sub_self, List.replicate_zero, List.append_nil, strncmp_magic_iff]

theorem WellFormed.header (h : WellFormed a o (m :: members)) :
    ∃ header, tarfsGetUstar a (BitVec.ofNat 64 o) = some header ∧ HeaderOf header m ∧
      nextIno header (BitVec.ofNat 64 o) = BitVec.ofNat 64 (m.next o) := by
  obtain ⟨hheader, hfits, -⟩ := h
  have hlt := a.dev.length.isLt
  unfold Member.next blocks at hfits
  have happend := hheader.append (length_content a o 500) (a.beyond (BitVec.ofNat 64 o))
  refine ⟨_, by rw [tarfsGetUstar_eq (by omega), if_pos hheader.magic], happend, ?_⟩
  have hsize := happend.size.strtoull_eq (by decide)
  have hpadded : padded m.size = blocks m.size := by
    unfold padded blocks
    rw [if_neg (by omega)]
  refine BitVec.eq_of_toNat_eq ?_
  have hstrtoull : (strtoull (Ustar.size (content a o 500 ++ a.beyond (BitVec.ofNat 64 o)))
      8).toNat =
      m.size := hsize
  rw [nextIno_toNat, hstrtoull, hpadded, BitVec.toNat_ofNat, BitVec.toNat_ofNat]
  unfold Member.next
  omega

theorem WellFormed.none (h : WellFormed a o []) : tarfsGetUstar a (BitVec.ofNat 64 o) = none := by
  rw [tarfsGetUstar_eq h.1, if_neg h.2]

theorem WellFormed.tail (h : WellFormed a o (m :: members)) :
    WellFormed a (m.next o) members := h.2.2

theorem WellFormed.lt (h : WellFormed a o members) : o + 512 ≤ a.dev.length.toNat := by
  cases members with
  | nil => exact h.1
  | cons m members =>
    have hfits := h.2.1
    unfold Member.next at hfits
    omega

/-- The members behind some others are well formed from their end on. -/
theorem WellFormed.behind {before : List Member} (h : WellFormed a o (before ++ members)) :
    WellFormed a (endOf o before) members := by
  induction before generalizing o with
  | nil => exact h
  | cons m before ih => exact ih h.tail

end Layout

section Blocks

variable {bytes front rest name digits : Chars} {type : BitVec 8} {size o n : ℕ}

theorem content_archiveOf (h : o + n ≤ bytes.length) (hlt : bytes.length < 2 ^ 64) :
    content (archiveOf bytes) o n = (bytes.drop o).take n := by
  refine List.ext_getElem (by simp [content]; omega) fun i hi _ => ?_
  have hi : i < n := by simpa [content] using hi
  have haddr : (0 + BitVec.ofNat 64 (o + i)).toNat = o + i := by
    simp
    omega
  simp only [content, archiveOf, List.getElem_map, List.getElem_range, List.getElem_take,
    List.getElem_drop]
  rw [haddr, List.getD_eq_getElem?_getD, List.getElem?_eq_getElem (by omega), Option.getD_some]

theorem block_eq (hname : name.length ≤ 124) (hdigits : digits.length ≤ 32) :
    block name digits type = name ++ (List.replicate (124 - name.length) 0 ++ (digits ++
      (List.replicate (32 - digits.length) 0 ++ (type :: (List.replicate 100 0 ++ (magic ++
        List.replicate 250 0)))))) := by
  have hpad : 156 - (name.length + (124 - name.length + digits.length)) = 32 - digits.length := by
    omega
  have hend : 512 - (name.length + (124 - name.length + (digits.length +
      (32 - digits.length + (100 + magic.length + 1))))) = 250 := by
    simp [magic]
    omega
  simp only [block, pad, List.append_assoc, List.cons_append, List.length_append,
    List.length_replicate, List.length_cons, hpad, hend]

theorem length_magic : magic.length = 5 := rfl

theorem length_pad {str : Chars} (h : str.length ≤ n) : (pad n str).length = n := by
  rw [pad, List.length_append, List.length_replicate]
  omega

theorem length_block (hname : name.length ≤ 124) (hdigits : digits.length ≤ 32) :
    (block name digits type).length = 512 := by
  simp only [block_eq hname hdigits, List.length_append, List.length_replicate, List.length_cons,
    length_magic]
  omega

theorem prefix_zeros {l rest : Chars} {k : ℕ} (hk : 0 < k) :
    l ++ [0] <+: l ++ (List.replicate k 0 ++ rest) := by
  obtain ⟨m, rfl⟩ := Nat.exists_eq_add_of_lt hk
  rw [List.prefix_append_right_inj, Nat.zero_add, List.replicate_succ]
  exact List.prefix_append [0] _

/-- A block is the header of the member that it names. -/
theorem headerOf_block (h0 : 0 ∉ name) (hshort : name.length < 100) (hne : digits ≠ [])
    (hlength : digits.length < 12) (hdigits : digits.all fun c => Octal c) :
    HeaderOf ((block name digits type).take 500) ⟨name, value 8 digits, type⟩ := by
  have hblock := @block_eq name digits type (by omega) (by omega)
  have hdrop : ∀ (front rest : Chars) (k : ℕ), block name digits type = front ++ rest →
      front.length = k → ((block name digits type).take 500).drop k = rest.take (500 - k) := by
    intro front rest k heq hk
    rw [List.drop_take, heq, List.drop_left' hk]
  have hsize := hdrop (name ++ List.replicate (124 - name.length) 0)
    _ 124 (by rw [hblock, List.append_assoc]) (by simp; omega)
  have htype := hdrop (name ++ (List.replicate (124 - name.length) 0 ++ (digits ++
    List.replicate (32 - digits.length) 0))) (type :: (List.replicate 100 0 ++ (magic ++
      List.replicate 250 0))) 156 (by rw [hblock]; simp only [List.append_assoc]) (by simp; omega)
  have hmagic := hdrop (name ++ (List.replicate (124 - name.length) 0 ++ (digits ++
    (List.replicate (32 - digits.length) 0 ++ (type :: List.replicate 100 0)))))
    (magic ++ List.replicate 250 0) 257
    (by rw [hblock]; simp only [List.append_assoc, List.cons_append])
    (by simp only [List.length_append, List.length_replicate, List.length_cons]; omega)
  have hlast := hdrop (name ++ (List.replicate (124 - name.length) 0 ++ (digits ++
    (List.replicate (32 - digits.length) 0 ++ (type :: (List.replicate 100 0 ++ (magic ++
      List.replicate 83 0))))))) (List.replicate 167 0) 345
    (by
      rw [hblock, show 250 = 83 + 167 from rfl, List.replicate_add]
      simp only [List.append_assoc, List.cons_append])
    (by
      simp only [List.length_append, List.length_replicate, List.length_cons, length_magic]
      omega)
  refine headerOf_of_fields ?_ h0 hshort ?_ ?_ hne hlength hdigits rfl ?_ ?_
  · rw [List.prefix_take_iff, hblock]
    exact ⟨prefix_zeros (by omega), by simp; omega⟩
  · rw [hlast, List.take_replicate]
    exact ⟨List.replicate 154 0, rfl⟩
  · rw [hsize, List.prefix_take_iff]
    exact ⟨prefix_zeros (by omega), by simp; omega⟩
  · rw [Ustar.type, htype]
    rfl
  · rw [hmagic]
    rfl

theorem headerOf_archiveOf (hbytes : bytes = front ++ (block name digits type ++ rest))
    (ho : front.length = o) (hlt : bytes.length < 2 ^ 64) (h0 : 0 ∉ name)
    (hshort : name.length < 100) (hne : digits ≠ []) (hlength : digits.length < 12)
    (hdigits : digits.all fun c => Octal c) (hvalue : value 8 digits = size) :
    HeaderOf (content (archiveOf bytes) o 500) ⟨name, size, type⟩ := by
  have hblock := @length_block name digits type (by omega) (by omega)
  have hroom : o + 500 ≤ bytes.length := by
    rw [hbytes, List.length_append, List.length_append, hblock, ho]
    omega
  rw [content_archiveOf hroom hlt, hbytes, List.drop_left' ho,
    List.take_append_of_le_length (by omega), ← hvalue]
  exact headerOf_block h0 hshort hne hlength hdigits

end Blocks

end ReduceOS.UstarArchive
