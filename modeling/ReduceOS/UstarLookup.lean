import ReduceOS.UstarArchive

/-!
Lookup in a well-formed archive. The scan finds the first member with the name that is looked for,
which is the name of the directory and the path in one; that is their join unless the name of the
directory has no slash at its end.
-/
namespace ReduceOS.UstarLookup

open Machine CString Halting Ustar UstarHeader UstarScan UstarArchive
open MountTree (slash)

def firstMatch (search : Chars) : ℕ → List Member → Option (ℕ × Member)
  | _, [] => none
  | o, m :: members =>
    if stripSlash m.name = search then some (o, m) else firstMatch search (m.next o) members

def joined (dir : Member) (path : Chars) : Chars :=
  if dir.name = [slash] then path else stripSlash dir.name ++ slash :: path

/-- What the names in a directory begin with, as the source has it. -/
def searched (dir : Member) : Chars := if dir.name = [slash] then [] else dir.name

def Answers : Option (ℕ × Member) → Option TarNode → Prop
  | none, none => True
  | some (o, m), some node =>
    node.length.toNat = m.size ∧ node.flags = typeFlags m.type ∧ node.inode.toNat = o
  | _, _ => False

/-- A lookup in a directory returns a node for the first member from the directory on that has the
joined path. -/
def FindsFirst (a : Archive) (o : ℕ) (dir : Member) (after : List Member) (path : Chars) : Prop :=
  ∃ result, TarfsFinddir a (BitVec.ofNat 64 o) path result ∧
    Answers (firstMatch (joined dir path) o (dir :: after)) result

section Scan

variable {a : Archive} {o : ℕ} {m : Member} {members : List Member} {header search : Chars}

theorem zero_notMem_stripSlash {str : Chars} (h0 : 0 ∉ str) : 0 ∉ stripSlash str := by
  unfold stripSlash
  split_ifs
  · exact fun h => h0 (List.mem_of_mem_dropLast h)
  · exact h0

theorem answers_of_header (h : HeaderOf header m) (ho : o < 2 ^ 64) :
    Answers (some (o, m)) (some (tarfsUstarToNode header (BitVec.ofNat 64 o))) := by
  refine ⟨h.size.strtoull_eq (by decide), ?_, ?_⟩
  · rw [← h.type]
    rfl
  · exact Nat.mod_eq_of_lt ho

theorem finddir_returns (hwf : WellFormed a o members) (h0 : 0 ∉ search) :
    ∃ result, Returns (finddirStep a search) (finddirResult a search) (BitVec.ofNat 64 o) result ∧
      Answers (firstMatch search o members) result := by
  induction members generalizing o with
  | nil => exact ⟨none, ⟨0, by simp [finddirResult, hwf.none]⟩, trivial⟩
  | cons m members ih =>
    obtain ⟨header, hheader, hof, hnext⟩ := hwf.header
    have hlt := hwf.lt
    have hmax := a.dev.length.isLt
    have hcompare : strcmp (filename header) search = 0 ↔ stripSlash m.name = search := by
      rw [hof.filename_eq]
      exact strcmp_eq_zero_iff (zero_notMem_stripSlash hof.name.proper) h0
    rw [firstMatch]
    by_cases hmatch : stripSlash m.name = search
    · rw [if_pos hmatch]
      refine ⟨_, ⟨0, ?_⟩, answers_of_header hof (by omega)⟩
      simp [finddirResult, hheader, hcompare.mpr hmatch]
    · rw [if_neg hmatch]
      obtain ⟨result, hreturns, hanswers⟩ := ih hwf.tail
      refine ⟨result, ?_, hanswers⟩
      have hstep : finddirStep a search (BitVec.ofNat 64 o) = BitVec.ofNat 64 (m.next o) := by
        simp only [finddirStep, hheader]
        rw [if_neg (mt hcompare.mp hmatch), hnext]
      exact Reaches.returns ⟨1, hstep⟩ hreturns

/-- The scan has one result, which is that of the first match. -/
theorem answers_of_returns (hwf : WellFormed a o members) (h0 : 0 ∉ search)
    {result : Option TarNode}
    (h : Returns (finddirStep a search) (finddirResult a search) (BitVec.ofNat 64 o) result) :
    Answers (firstMatch search o members) result := by
  obtain ⟨result', hreturns, hanswers⟩ := finddir_returns hwf h0
  rwa [(finddir_stays a search).returns_unique h hreturns]

end Scan

section First

variable {s t : Chars} {o p : ℕ} {m n : Member} {members : List Member}

theorem firstMatch_le (h : firstMatch s o members = some (p, m)) : o ≤ p := by
  induction members generalizing o with
  | nil => cases h
  | cons k members ih =>
    rw [firstMatch] at h
    split_ifs at h
    · obtain ⟨rfl, rfl⟩ := Prod.mk.inj (Option.some.inj h)
      exact Nat.le_refl o
    · have hle := ih h
      unfold Member.next at hle
      omega

theorem firstMatch_inj (hs : firstMatch s o members = some (p, m))
    (ht : firstMatch t o members = some (p, n)) : s = t := by
  induction members generalizing o with
  | nil => cases hs
  | cons k members ih =>
    rw [firstMatch] at hs ht
    split_ifs at hs ht with hsmatch htmatch htmatch
    · exact hsmatch.symm.trans htmatch
    · obtain ⟨rfl, rfl⟩ := Prod.mk.inj (Option.some.inj hs)
      have hle := firstMatch_le ht
      unfold Member.next at hle
      omega
    · obtain ⟨rfl, rfl⟩ := Prod.mk.inj (Option.some.inj ht)
      have hle := firstMatch_le hs
      unfold Member.next at hle
      omega
    · exact ih hs ht

theorem firstMatch_eq_none_iff :
    firstMatch s o members = none ↔ ∀ m ∈ members, stripSlash m.name ≠ s := by
  induction members generalizing o with
  | nil => simp [firstMatch]
  | cons m members ih =>
    rw [firstMatch, List.forall_mem_cons]
    split_ifs with hmatch
    · simp [hmatch]
    · simp [hmatch, ih]

theorem Answers.offset {first : Option (ℕ × Member)} {result : Option TarNode}
    (h : Answers first result) :
    first.map Prod.fst = result.map fun node => node.inode.toNat := by
  cases first with
  | none =>
    cases result with
    | none => rfl
    | some node => exact h.elim
  | some found =>
    cases result with
    | none => exact h.elim
    | some node => exact congrArg some h.2.2.symm

/-- Two names have the same answer if and only if they are the same, or neither has a match. -/
theorem answers_iff {result : Option TarNode} (hs : Answers (firstMatch s o members) result) :
    Answers (firstMatch t o members) result ↔
      s = t ∨ (∀ m ∈ members, stripSlash m.name ≠ s ∧ stripSlash m.name ≠ t) := by
  constructor
  · intro ht
    have hoffset := hs.offset.trans ht.offset.symm
    cases hfirst : firstMatch s o members with
    | none =>
      rw [hfirst, Option.map_none, eq_comm, Option.map_eq_none_iff] at hoffset
      rw [firstMatch_eq_none_iff] at hfirst hoffset
      exact .inr fun m hm => ⟨hfirst m hm, hoffset m hm⟩
    | some found =>
      obtain ⟨p, m⟩ := found
      rw [hfirst, Option.map_some, eq_comm, Option.map_eq_some_iff] at hoffset
      obtain ⟨⟨p', n⟩, hsecond, hp⟩ := hoffset
      obtain rfl : p' = p := hp
      exact .inl (firstMatch_inj hfirst hsecond)
  · rintro (rfl | hnone)
    · exact hs
    · rw [firstMatch_eq_none_iff.mpr fun m hm => (hnone m hm).1] at hs
      rwa [firstMatch_eq_none_iff.mpr fun m hm => (hnone m hm).2]

end First

section Directory

variable {a : Archive} {o : ℕ} {dir : Member} {before after : List Member}
  {header path : Chars}

theorem searchDirectory_eq (h : HeaderOf header dir) : searchDirectory header = searched dir := by
  have hcompare : strcmp dir.name [slash] = 0 ↔ dir.name = [slash] :=
    strcmp_eq_zero_iff h.name.proper (by decide)
  have hshort := h.short
  unfold searchDirectory searched strncat
  rw [h.name_eq, h.namePrefix_eq]
  by_cases hroot : dir.name = [slash]
  · rw [if_neg (not_ne_iff.mpr (hcompare.mpr hroot)), if_pos hroot]
  · rw [if_pos (mt hcompare.mp hroot), if_neg hroot, List.take_nil, List.nil_append,
      List.nil_append, List.take_of_length_le (by omega)]

theorem zero_notMem_search (h : HeaderOf header dir) (h0 : 0 ∉ path) :
    0 ∉ searched dir ++ path := by
  unfold searched
  split_ifs
  · simpa using h0
  · exact fun hmem => (List.mem_append.mp hmem).elim h.name.proper h0

/-- A slash at the end of a name is taken off, if there is something in front of it. -/
theorem stripSlash_concat {str : Chars} (hne : str ≠ []) : stripSlash (str ++ [slash]) = str := by
  have hpos := List.length_pos_iff.mpr hne
  unfold stripSlash
  rw [if_pos ⟨by simp, by simpa using hpos⟩]
  simp

theorem stripSlash_of_getLast {str : Chars} (hlast : str.getLast? ≠ some slash) :
    stripSlash str = str := by
  rw [stripSlash, if_neg fun h => hlast h.1]

/-- The source joins a directory and a name right if the directory ends in a slash. -/
theorem searched_eq_joined_iff (dir : Member) (path : Chars) :
    searched dir ++ path = joined dir path ↔
      dir.name = [slash] ∨ dir.name.getLast? = some slash := by
  unfold searched joined
  by_cases hroot : dir.name = [slash]
  · simp [hroot]
  · simp only [hroot, if_false, false_or]
    by_cases hlast : dir.name.getLast? = some slash
    · obtain ⟨str, hstr⟩ := List.getLast?_eq_some_iff.mp hlast
      have hne : str ≠ [] := by
        rintro rfl
        exact hroot hstr
      rw [hstr, stripSlash_concat hne]
      simp
    · rw [stripSlash_of_getLast hlast]
      simp [hlast]

theorem findsFirst_iff (hwf : WellFormed a o (dir :: after)) (htype : dir.type = ustarDirectory)
    (h0 : 0 ∉ path) : FindsFirst a o dir after path ↔
      (searched dir ++ path).length < 256 ∧
        (dir.name = [slash] ∨ dir.name.getLast? = some slash ∨
          ∀ m ∈ dir :: after, stripSlash m.name ≠ dir.name ++ path ∧
            stripSlash m.name ≠ stripSlash dir.name ++ slash :: path) := by
  obtain ⟨header, hheader, hof, -⟩ := hwf.header
  have hdirectory : Ustar.type header = ustarDirectory := hof.type.trans htype
  have hsearch0 := zero_notMem_search hof h0
  have hanswers : ∀ result, Returns (finddirStep a (searched dir ++ path))
      (finddirResult a (searched dir ++ path)) (BitVec.ofNat 64 o) result →
      (Answers (firstMatch (joined dir path) o (dir :: after)) result ↔
        dir.name = [slash] ∨ dir.name.getLast? = some slash ∨
          ∀ m ∈ dir :: after, stripSlash m.name ≠ dir.name ++ path ∧
            stripSlash m.name ≠ stripSlash dir.name ++ slash :: path) := by
    intro result hreturns
    rw [answers_iff (answers_of_returns hwf hsearch0 hreturns), searched_eq_joined_iff, or_assoc]
    by_cases hroot : dir.name = [slash]
    · simp [hroot]
    · simp [searched, joined, hroot]
  unfold FindsFirst
  simp only [tarfsFinddir_iff hheader hdirectory, searchDirectory_eq hof]
  constructor
  · rintro ⟨result, ⟨hfits, hreturns⟩, hresult⟩
    exact ⟨hfits, (hanswers result hreturns).mp hresult⟩
  · rintro ⟨hfits, hcondition⟩
    obtain ⟨result, hreturns, -⟩ := finddir_returns hwf hsearch0
    exact ⟨result, ⟨hfits, hreturns⟩, (hanswers result hreturns).mpr hcondition⟩

/-- The lookup in a directory of an archive. -/
theorem finds_first_iff (hwf : WellFormed a 0 (before ++ dir :: after))
    (htype : dir.type = ustarDirectory) (h0 : 0 ∉ path) :
    FindsFirst a (endOf 0 before) dir after path ↔
      (searched dir ++ path).length < 256 ∧
        (dir.name = [slash] ∨ dir.name.getLast? = some slash ∨
          ∀ m ∈ dir :: after, stripSlash m.name ≠ dir.name ++ path ∧
            stripSlash m.name ≠ stripSlash dir.name ++ slash :: path) :=
  findsFirst_iff hwf.behind htype h0

end Directory

section Sample

/-- The directory `d`, stored without a slash, with a file `x` in it. -/
def plainDirectory : Archive :=
  archiveOf (block [47] [48] 53 ++ block [100] [48] 53 ++ block [100, 47, 120] [48] 48 ++
      pad 512 [])

theorem wellFormed_plainDirectory : WellFormed plainDirectory 0
    ([⟨[47], 0, 53⟩] ++ ⟨[100], 0, 53⟩ :: [⟨[100, 47, 120], 0, 48⟩]) := by
  have hlt : (block [47] [48] 53 ++ block [100] [48] 53 ++ block [100, 47, 120] [48] 48 ++
      pad 512 []).length < 2 ^ 64 := by
    simp (disch := decide) only [List.length_append, length_block, length_pad]
    decide
  have hroot : HeaderOf (content plainDirectory 0 500) ⟨[47], 0, 53⟩ :=
    @headerOf_archiveOf _ [] _ _ [48] _ _ _ (by simp only [List.append_assoc, List.nil_append]; rfl)
      rfl hlt (by decide) (by decide) (by decide) (by decide) (by decide) rfl
  have hdirectory : HeaderOf (content plainDirectory 512 500) ⟨[100], 0, 53⟩ :=
    @headerOf_archiveOf _ (block [47] [48] 53) _ _ [48] _ _ _
      (by simp only [List.append_assoc]; rfl) (length_block (by decide) (by decide)) hlt
      (by decide) (by decide) (by decide) (by decide) (by decide) rfl
  have hfile : HeaderOf (content plainDirectory 1024 500) ⟨[100, 47, 120], 0, 48⟩ :=
    @headerOf_archiveOf _ (block [47] [48] 53 ++ block [100] [48] 53) _ _ [48] _ _ _
      (by simp only [List.append_assoc]; rfl)
      (by simp (disch := decide) only [List.length_append, length_block]) hlt
      (by decide) (by decide) (by decide) (by decide) (by decide) rfl
  have hdev : plainDirectory.dev.length.toNat = 2048 := by decide +kernel
  exact ⟨hroot, by rw [hdev]; decide, hdirectory, by rw [hdev]; decide, hfile,
    by rw [hdev]; decide, by rw [hdev]; decide, by decide +kernel⟩

/-- In the root, `d` is found. -/
theorem finds_first_in_root :
    FindsFirst plainDirectory 0 ⟨[47], 0, 53⟩ [⟨[100], 0, 53⟩, ⟨[100, 47, 120], 0, 48⟩] [100] :=
  (@finds_first_iff plainDirectory ⟨[47], 0, 53⟩ [] _ _ wellFormed_plainDirectory rfl
    (by decide)).mpr ⟨by decide, .inl rfl⟩

/-- In `d`, `x` is not: the name that is looked for is `dx`. -/
theorem file_in_plain_directory_not_found :
    WellFormed plainDirectory 0
      ([⟨[47], 0, 53⟩] ++ ⟨[100], 0, 53⟩ :: [⟨[100, 47, 120], 0, 48⟩]) ∧
    ¬ FindsFirst plainDirectory (endOf 0 [⟨[47], 0, 53⟩]) ⟨[100], 0, 53⟩ [⟨[100, 47, 120], 0, 48⟩]
      [120] := by
  refine ⟨wellFormed_plainDirectory, ?_⟩
  rw [findsFirst_iff wellFormed_plainDirectory.behind rfl (by decide)]
  rintro ⟨-, hroot | hslash | hnone⟩
  · exact absurd hroot (by decide)
  · exact absurd hslash (by decide)
  · exact (hnone ⟨[100, 47, 120], 0, 48⟩ (by simp)).2 (by decide)

end Sample

end ReduceOS.UstarLookup
