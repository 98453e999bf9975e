import ReduceOS.MountTree
import Mathlib.Algebra.Order.BigOperators.Group.List
import Mathlib.Tactic.Ring

/-!
`vfs_canonicalizePath` of fs/vfs.c, with the blocks of memory that it writes its strings to. A path
is right if and only if its components do not all cancel, or there are none but dots; and what is
written to the working string fits only if that is a copy of the addition.
-/
namespace ReduceOS.Canonicalize

open CString MountTree

/-- A block that `kmalloc` returns: its size, the string in it, and the indices that were written,
in their order. -/
structure Block where
  size : ℕ
  string : Chars
  written : List ℕ

def dot : BitVec 8 := 46

section Source

def kmalloc (size : ℕ) : Block := ⟨size, [], []⟩

def Block.clear (b : Block) : Block :=
  { b with string := [], written := b.written ++ List.range b.size }

/-- `sprintf` of a string to a block; the terminator is written as well. -/
def Block.sprintf (b : Block) (str : Chars) : Block :=
  { b with string := str, written := b.written ++ List.range (str.length + 1) }

def strdup (str : Chars) : Block := (kmalloc (str.length + 1)).sprintf str

def Block.tokenize (b : Block) : Block :=
  let ends := overwritten slash (b.string.length + 1) (some b.string) none
  { b with written := b.written ++ ends.map (fun rest => b.string.length - rest.length) }

/-- The raw path. `before` is the character in front of `cwd`, which is read if that is empty. -/
def workingString (before : BitVec 8) (cwd addition : Chars) : Block :=
  if deref addition = slash then strdup addition
  else if cwd.getLast?.getD before = slash then
    (kmalloc (cwd.length + addition.length)).sprintf (cwd ++ addition)
  else (kmalloc (cwd.length + addition.length + 1)).sprintf (cwd ++ slash :: addition)

/-- What the loop does with a token: the list of the components and `path_size`, which is not
taken back by `list_pop`. -/
def canonicalizeToken (s : List Chars × ℕ) (pch : Chars) : List Chars × ℕ :=
  if strcmp pch [dot, dot] = 0 then (s.1.dropLast, s.2)
  else if strcmp pch [dot] = 0 then s
  else if deref pch ≠ 0 then (s.1 ++ [pch], s.2 + (pch.length + 1))
  else s

/-- The output path, to which the components are appended one after another: each `sprintf` writes
over what is there already with the same characters. -/
def outputString (list : List Chars) (pathSize : ℕ) : Block :=
  if pathSize = 0 then strdup [slash]
  else list.foldl (fun output value => output.sprintf (output.string ++ slash :: value))
    (kmalloc (pathSize + 1)).clear

/-- `vfs_canonicalizePath`: the working string and the output path. -/
def vfsCanonicalizePath (before : BitVec 8) (cwd addition : Chars) : Block × Block :=
  let working := workingString before cwd addition
  let pchs := tokens slash (working.string.length + 1) (some working.string) none
  let (list, pathSize) := pchs.foldl canonicalizeToken ([], 0)
  (working.tokenize, outputString list pathSize)

end Source

section Reference

def parts (path : Chars) : List Chars := path.splitOn slash

def normalizePart (stack : List Chars) (part : Chars) : List Chars :=
  if part = [] ∨ part = [dot] then stack
  else if part = [dot, dot] then stack.dropLast
  else stack ++ [part]

def allParts (cwd addition : Chars) : List Chars :=
  if deref addition = slash then parts addition else parts cwd ++ parts addition

def normalize (cwd addition : Chars) : Chars :=
  pathOf ((allParts cwd addition).foldl normalizePart [])

def Block.Confined (b : Block) : Prop := ∀ i ∈ b.written, i < b.size

end Reference

variable {before : BitVec 8} {cwd addition : Chars}

section Paths

theorem components_working (hcwd : deref cwd = slash) :
    components slash (workingString before cwd addition).string =
      (allParts cwd addition).filter (· ≠ []) := by
  unfold workingString allParts
  split_ifs with habsolute hlast
  · rfl
  · have hne : cwd ≠ [] := by
      rintro rfl
      exact absurd hcwd (by decide)
    rw [List.getLast?_eq_getLast_of_ne_nil hne, Option.getD_some] at hlast
    obtain ⟨init, rfl⟩ : ∃ init, cwd = init ++ [slash] :=
      ⟨cwd.dropLast, by rw [← hlast, List.dropLast_append_getLast hne]⟩
    have hcwd : components slash (init ++ [slash]) = components slash init := by
      rw [components_append_sep, components_nil, List.append_nil]
    change components slash (init ++ [slash] ++ addition) = _
    rw [List.append_assoc, List.singleton_append, components_append_sep, List.filter_append,
      ← hcwd]
    rfl
  · change components slash (cwd ++ slash :: addition) = _
    rw [components_append_sep, List.filter_append]
    rfl

theorem zero_notMem_working (hcwd : 0 ∉ cwd) (haddition : 0 ∉ addition) :
    0 ∉ (workingString before cwd addition).string := by
  have hslash : (0 : BitVec 8) ≠ slash := by decide
  unfold workingString
  split_ifs
  · exact haddition
  · exact fun h => (List.mem_append.mp h).elim hcwd haddition
  · simp only [Block.sprintf, List.mem_append, List.mem_cons, not_or]
    exact ⟨hcwd, hslash, haddition⟩

theorem foldl_normalizePart_filter (parts stack : List Chars) :
    (parts.filter (· ≠ [])).foldl normalizePart stack = parts.foldl normalizePart stack := by
  induction parts generalizing stack with
  | nil => rfl
  | cons part parts ih =>
    by_cases hpart : part = []
    · simpa [hpart, normalizePart] using ih stack
    · simpa [hpart] using ih (normalizePart stack part)

def pushed (pchs : List Chars) : List Chars := pchs.filter fun pch => pch ≠ [dot] ∧ pch ≠ [dot, dot]

theorem canonicalizeToken_eq (s : List Chars × ℕ) {pch : Chars} (hne : pch ≠ []) (h0 : 0 ∉ pch) :
    canonicalizeToken s pch =
      (normalizePart s.1 pch, s.2 + (join slash (pushed [pch])).length) := by
  have hup : strcmp pch [dot, dot] = 0 ↔ pch = [dot, dot] := strcmp_eq_zero_iff h0 (by decide)
  have hself : strcmp pch [dot] = 0 ↔ pch = [dot] := strcmp_eq_zero_iff h0 (by decide)
  have hderef : deref pch ≠ 0#8 := by simpa using deref_append_ne_zero hne h0 []
  unfold canonicalizeToken normalizePart pushed
  simp only [hup, hself, hne]
  by_cases h2 : pch = [dot, dot]
  · simp [h2]
  · by_cases h1 : pch = [dot] <;> simp [h1, h2, hderef]

theorem foldl_canonicalizeToken {pchs : List Chars} (hpchs : ∀ pch ∈ pchs, pch ≠ [] ∧ 0 ∉ pch)
    (s : List Chars × ℕ) : pchs.foldl canonicalizeToken s =
      (pchs.foldl normalizePart s.1, s.2 + (join slash (pushed pchs)).length) := by
  induction pchs generalizing s with
  | nil => rfl
  | cons pch pchs ih =>
    obtain ⟨hne, h0⟩ := hpchs pch List.mem_cons_self
    have hpushed : pushed (pch :: pchs) = pushed [pch] ++ pushed pchs := by
      rw [pushed, pushed, pushed, ← List.filter_append, List.singleton_append]
    rw [List.foldl_cons, ih fun q hq => hpchs q (List.mem_cons_of_mem _ hq),
      canonicalizeToken_eq s hne h0, hpushed]
    simp only [List.foldl_cons, join, List.flatMap_append, List.length_append, Nat.add_assoc]

theorem join_append (before after : List Chars) :
    join slash (before ++ after) = join slash before ++ join slash after :=
  List.flatMap_append

theorem pushed_cons (pch : Chars) (pchs : List Chars) :
    pushed (pch :: pchs) = pushed [pch] ++ pushed pchs := by
  rw [pushed, pushed, pushed, ← List.filter_append, List.singleton_append]

/-- What a part leaves is no longer than what was there and what is appended. -/
theorem length_normalizePart (stack : List Chars) (part : Chars) :
    (join slash (normalizePart stack part)).length ≤
      (join slash stack).length + (join slash (pushed [part])).length := by
  unfold normalizePart
  split_ifs with hself hup
  · omega
  · obtain ⟨last, hlast⟩ := List.dropLast_prefix stack
    have hlength := congrArg (fun l => (join slash l).length) hlast
    simp only [join_append, List.length_append] at hlength
    omega
  · rw [not_or] at hself
    simp [join_append, pushed, hself, hup]

theorem length_foldl_normalizePart (pchs stack : List Chars) :
    (join slash (pchs.foldl normalizePart stack)).length ≤
      (join slash stack).length + (join slash (pushed pchs)).length := by
  induction pchs generalizing stack with
  | nil => simp [pushed]
  | cons pch pchs ih =>
    have hpart := length_normalizePart stack pch
    have hrest := ih (normalizePart stack pch)
    rw [List.foldl_cons, pushed_cons, join_append, List.length_append]
    omega

theorem join_eq_nil (parts : List Chars) : join slash parts = [] ↔ parts = [] := by
  cases parts <;> simp

/-- What the path is made of is dots, if nothing is appended. -/
theorem foldl_normalizePart_dots {pchs : List Chars} (hpushed : pushed pchs = []) :
    pchs.foldl normalizePart [] = [] := by
  have hlength := length_foldl_normalizePart pchs []
  rw [hpushed] at hlength
  simpa [join_eq_nil] using hlength

/-- What the loop makes of the components of the raw path. -/
theorem canonicalize_eq (hcwd0 : 0 ∉ cwd) (haddition0 : 0 ∉ addition) {pchs : List Chars}
    (hpchs : components slash (workingString before cwd addition).string = pchs) :
    vfsCanonicalizePath before cwd addition =
      ((workingString before cwd addition).tokenize,
        outputString (pchs.foldl normalizePart []) (join slash (pushed pchs)).length) := by
  have h0 := @zero_notMem_working before _ _ hcwd0 haddition0
  have hstrings : ∀ pch ∈ pchs, pch ≠ [] ∧ 0 ∉ pch := by
    rw [← hpchs]
    intro pch hpch
    obtain ⟨hne, -, hmem⟩ := mem_components hpch
    exact ⟨hne, fun h => h0 (hmem 0 h)⟩
  have hlength := length_components_le slash (workingString before cwd addition).string
  unfold vfsCanonicalizePath
  dsimp only
  rw [tokens_eq (by decide) _ h0 (by omega) rfl, hpchs, foldl_canonicalizeToken hstrings,
    Nat.zero_add]

end Paths

section Output

/-- The strings that are appended one after another. -/
theorem foldl_sprintf (list : List Chars) (b : Block) :
    (list.foldl (fun output value => output.sprintf (output.string ++ slash :: value)) b).string =
        b.string ++ join slash list ∧
      (list.foldl (fun output value => output.sprintf (output.string ++ slash :: value)) b).size =
        b.size := by
  induction list generalizing b with
  | nil => simp
  | cons value list ih =>
    rw [List.foldl_cons]
    obtain ⟨hstring, hsize⟩ := ih (b.sprintf (b.string ++ slash :: value))
    rw [hstring, hsize]
    simp [Block.sprintf]

theorem outputString_string (list : List Chars) (pathSize : ℕ) :
    (outputString list pathSize).string =
      if pathSize = 0 then [slash] else join slash list := by
  unfold outputString
  split_ifs
  · rfl
  · rw [(foldl_sprintf _ _).1]
    rfl

theorem Block.Confined.sprintf {b : Block} (h : b.Confined) {str : Chars}
    (hfits : str.length < b.size) : (b.sprintf str).Confined := by
  intro i hi
  rcases List.mem_append.mp hi with hbefore | hnow
  · exact h i hbefore
  · have hlt := List.mem_range.mp hnow
    change i < b.size
    omega

theorem confined_strdup (str : Chars) : (strdup str).Confined := by
  have hempty : (kmalloc (str.length + 1)).Confined := by simp [Block.Confined, kmalloc]
  exact hempty.sprintf (Nat.lt_succ_self _)

/-- The strings fit that are appended, if there is room for them all. -/
theorem confined_foldl_sprintf (list : List Chars) {b : Block} (h : b.Confined)
    (hfits : b.string.length + (join slash list).length < b.size) :
    (list.foldl (fun output value => output.sprintf (output.string ++ slash :: value))
        b).Confined := by
  induction list generalizing b with
  | nil => exact h
  | cons value list ih =>
    simp only [join_cons, List.length_cons, List.length_append] at hfits
    refine ih (h.sprintf ?_) ?_ <;>
      simp only [Block.sprintf, List.length_append, List.length_cons] <;> omega

theorem confined_outputString {list : List Chars} {pathSize : ℕ}
    (hfits : (join slash list).length ≤ pathSize) : (outputString list pathSize).Confined := by
  unfold outputString
  split_ifs
  · exact confined_strdup _
  · apply confined_foldl_sprintf
    · simp [Block.Confined, Block.clear, kmalloc]
    · simp only [Block.clear, kmalloc, List.length_nil]
      omega

/-- The separators that are overwritten are inside the string. -/
theorem confined_tokenize {b : Block} (h0 : 0 ∉ b.string) (hfits : b.string.length ≤ b.size) :
    b.tokenize.Confined ↔ b.Confined := by
  have hends : ∀ rest ∈ overwritten slash (b.string.length + 1) (some b.string) none,
      b.string.length - rest.length < b.size := by
    intro rest hrest
    obtain ⟨hne, hsuffix⟩ := overwritten_suffix h0 rfl rest hrest
    have hpos := List.length_pos_iff.mpr hne
    have hle := hsuffix.length_le
    omega
  constructor
  · exact fun h i hi => h i (List.mem_append_left _ hi)
  · intro h i hi
    rcases List.mem_append.mp hi with hbefore | hend
    · exact h i hbefore
    · obtain ⟨rest, hrest, rfl⟩ := List.mem_map.mp hend
      exact hends rest hrest

/-- Both branches that put two strings together leave out the terminator. -/
theorem confined_workingString_iff :
    (workingString before cwd addition).Confined ↔ deref addition = slash := by
  unfold workingString
  split_ifs with habsolute hlast
  · exact iff_of_true (confined_strdup _) habsolute
  · refine iff_of_false (fun h => ?_) habsolute
    have hterminator := h (cwd.length + addition.length) (by simp [Block.sprintf, kmalloc])
    simp [Block.sprintf, kmalloc] at hterminator
  · refine iff_of_false (fun h => ?_) habsolute
    have hterminator := h (cwd.length + addition.length + 1)
      (by simp [Block.sprintf, kmalloc, Nat.add_assoc])
    simp [Block.sprintf, kmalloc] at hterminator

theorem length_workingString :
    (workingString before cwd addition).string.length ≤
      (workingString before cwd addition).size := by
  unfold workingString
  split_ifs <;> simp [Block.sprintf, kmalloc, strdup, Nat.add_assoc]

end Output

/-- A path is normalized if and only if it has a component that is left, or it is made of nothing
but dots. -/
theorem canonical_iff (hcwd : deref cwd = slash) (hcwd0 : 0 ∉ cwd) (haddition0 : 0 ∉ addition) :
    (vfsCanonicalizePath before cwd addition).2.string = normalize cwd addition ↔
      (allParts cwd addition).foldl normalizePart [] ≠ [] ∨
        ∀ part ∈ allParts cwd addition, part = [] ∨ part = [dot] ∨ part = [dot, dot] := by
  have hdots : pushed ((allParts cwd addition).filter (· ≠ [])) = [] ↔
      ∀ part ∈ allParts cwd addition, part = [] ∨ part = [dot] ∨ part = [dot, dot] := by
    simp only [pushed, List.filter_eq_nil_iff, List.mem_filter]
    refine forall_congr' fun part => ?_
    by_cases hpart : part = [] <;> simp [hpart]
    grind
  rw [canonicalize_eq hcwd0 haddition0 (components_working hcwd), outputString_string, ← hdots,
    normalize, pathOf, ← foldl_normalizePart_filter (allParts cwd addition)]
  generalize (allParts cwd addition).filter (· ≠ []) = pchs
  simp only [List.length_eq_zero_iff, join_eq_nil]
  by_cases hpushed : pushed pchs = []
  · simp [hpushed, foldl_normalizePart_dots hpushed]
  · simp only [hpushed, if_false, or_false]
    split_ifs with hnil <;> simp [hnil]

/-- The parts of a directory and an addition to it cancel in part. -/
theorem canonical_sibling :
    (vfsCanonicalizePath 0 [slash, 97] [dot, dot, slash, 98]).2.string =
      normalize [slash, 97] [dot, dot, slash, 98] :=
  (canonical_iff (by decide) (by decide) (by decide)).mpr (.inl (by decide))

/-- A directory that is left again: the path is empty. -/
theorem cancelled_path_empty :
    (vfsCanonicalizePath 0 [slash] [97, slash, dot, dot]).2.string = [] ∧
      normalize [slash] [97, slash, dot, dot] = [slash] := by decide

/-- Everything that is written is in its block if and only if the addition is absolute. -/
theorem blocks_confined_iff (hcwd0 : 0 ∉ cwd) (haddition0 : 0 ∉ addition) :
    (vfsCanonicalizePath before cwd addition).1.Confined ∧
      (vfsCanonicalizePath before cwd addition).2.Confined ↔ deref addition = slash := by
  have h0 := @zero_notMem_working before _ _ hcwd0 haddition0
  have hlength := length_foldl_normalizePart
    (components slash (workingString before cwd addition).string) []
  rw [canonicalize_eq hcwd0 haddition0 rfl, confined_tokenize h0 length_workingString,
    confined_workingString_iff]
  refine and_iff_left (confined_outputString ?_)
  simpa using hlength

theorem blocks_confined_absolute :
    (vfsCanonicalizePath 0 [slash] [slash, 97]).1.Confined ∧
      (vfsCanonicalizePath 0 [slash] [slash, 97]).2.Confined :=
  (blocks_confined_iff (by decide) (by decide)).mpr (by decide)

/-- The terminator of `/` and `a` is written behind a block of two bytes. -/
theorem terminator_outside :
    ¬ (vfsCanonicalizePath 0 [slash] [97]).1.Confined := by
  intro h
  exact absurd (h 2 (by decide)) (by decide)

end ReduceOS.Canonicalize
