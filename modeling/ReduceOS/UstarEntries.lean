import ReduceOS.UstarLookup

/-!
The listing of a directory in a well-formed archive. A directory lists the members behind it whose
names begin with its own one, each under the last part of its name; one without a slash in its
name, such as the root, lists all members without a slash. It agrees with lookup if these entries
are the names that lookup finds.
-/
namespace ReduceOS.UstarEntries

open Machine CString Halting Ustar UstarHeader UstarScan UstarArchive UstarLookup
open MountTree (slash)

/-- What the loop of `tarfs_readdir` comes to from the file `i` on. -/
def scanned (p : Chars) (index : CInt) : ℕ → ℕ → List Member → Entry
  | _, _, [] => .null
  | o, i, m :: members =>
    if Listed p m.name then
      if BitVec.ofNat 32 i = index then
        match entryName p m.name with
        | none => .undefined
        | some name => .found ⟨(BitVec.ofNat 64 o).setWidth 32, name⟩
      else if i + 1 = 2 ^ 31 then .undefined
      else scanned p index (m.next o) (i + 1) members
    else scanned p index (m.next o) i members

def listing (p : Chars) (members : List Member) : List Member :=
  members.filter fun m => Listed p m.name

/-- The names that are read one after another until there are no more. -/
structure Lists (a : Archive) (inode : BitVec 64) (names : List Chars) : Prop where
  found : ∀ i name, names[i]? = some name →
    ∃ ino, TarfsReaddir a inode (BitVec.ofNat 64 (i + 2)) (.found ⟨ino, name⟩)
  null : TarfsReaddir a inode (BitVec.ofNat 64 (names.length + 2)) .null

/-- The names that are listed are the names that are found and have no slash, each once. -/
def Agrees (a : Archive) (inode : BitVec 64) : Prop :=
  ∃ names, Lists a inode names ∧ names.Nodup ∧ ∀ name, 0 ∉ name →
    (name ∈ names ↔ slash ∉ name ∧ ∃ node, TarfsFinddir a inode name (some node))

section Run

variable {a : Archive} {o i t : ℕ} {p : Chars} {index : CInt} {dir : Member}
  {members after : List Member}

theorem readdir_returns (hwf : WellFormed a o members) (hi : i ≠ 0) :
    Returns (readdirStep a p index) (readdirResult a p index) ⟨BitVec.ofNat 64 o, i⟩
      (scanned p index o i members) := by
  induction members generalizing o i with
  | nil => exact ⟨0, by simp [readdirResult, hwf.none, scanned]⟩
  | cons m members ih =>
    obtain ⟨header, hheader, hof, hnext⟩ := hwf.header
    have hshort := hof.short
    have hfits : Fits m.name := by
      unfold Fits
      omega
    rw [scanned]
    by_cases hlisted : Listed p m.name
    · by_cases hindex : BitVec.ofNat 32 i = index
      · refine ⟨0, ?_⟩
        simp only [Function.iterate_zero, id, readdirResult, hheader, hi, hof.pathFilename_eq,
          hfits, hlisted, hindex, not_true_eq_false, if_true, if_false]
        cases entryName p m.name <;> rfl
      · by_cases hmany : i + 1 = 2 ^ 31
        · refine ⟨0, ?_⟩
          simp only [Function.iterate_zero, id, readdirResult, hheader, hi, hof.pathFilename_eq,
            hfits, hlisted, hindex, hmany, not_true_eq_false, if_true, if_false]
        · rw [if_pos hlisted, if_neg hindex, if_neg hmany]
          have hstep : readdirStep a p index ⟨BitVec.ofNat 64 o, i⟩ =
              ⟨BitVec.ofNat 64 (m.next o), i + 1⟩ := by
            simp only [readdirStep, hheader, hi, hof.pathFilename_eq, hfits, hlisted, hindex, hmany,
              or_self, not_true_eq_false, if_true, if_false, hnext]
          exact Reaches.returns ⟨1, hstep⟩ (ih hwf.tail (Nat.succ_ne_zero i))
    · rw [if_neg hlisted]
      have hstep : readdirStep a p index ⟨BitVec.ofNat 64 o, i⟩ =
          ⟨BitVec.ofNat 64 (m.next o), i⟩ := by
        simp only [readdirStep, hheader, hi, hof.pathFilename_eq, hfits, hlisted,
          not_true_eq_false, if_false, hnext]
      exact Reaches.returns ⟨1, hstep⟩ (ih hwf.tail hi)

theorem tarfsReaddir_iff (hwf : WellFormed a o (dir :: after)) (ht : t ≠ 0) (hlt : t + 1 < 2 ^ 64)
    {entry : Entry} : TarfsReaddir a (BitVec.ofNat 64 o) (BitVec.ofNat 64 (t + 1)) entry ↔
      entry = scanned (searched dir) (BitVec.ofNat 32 t) (dir.next o) 1 after := by
  obtain ⟨header, hheader, hof, hnext⟩ := hwf.header
  have htoNat : (BitVec.ofNat 64 (t + 1)).toNat = t + 1 := by
    rw [BitVec.toNat_ofNat, Nat.mod_eq_of_lt hlt]
  have hlarge : ¬ BitVec.ofNat 64 (t + 1) < 2 := by
    have htwo : (2 : BitVec 64).toNat = 2 := rfl
    rw [BitVec.lt_def, htoNat, htwo]
    omega
  have hindex : (BitVec.ofNat 64 (t + 1) - 1).setWidth 32 = BitVec.ofNat 32 t := by
    refine BitVec.eq_of_toNat_eq ?_
    have hone : (1 : BitVec 64) ≤ BitVec.ofNat 64 (t + 1) := by
      rw [BitVec.le_def, htoNat]
      exact Nat.le_add_left 1 t
    rw [BitVec.toNat_setWidth, BitVec.toNat_sub_of_le hone, htoNat, BitVec.toNat_ofNat]
    rfl
  have hstep : readdirStep a (searched dir) (BitVec.ofNat 32 t) ⟨BitVec.ofNat 64 o, 0⟩ =
      ⟨BitVec.ofNat 64 (dir.next o), 1⟩ := by
    simp only [readdirStep, hheader, if_true, hnext]
  have hreach : Reaches (readdirStep a (searched dir) (BitVec.ofNat 32 t)) ⟨BitVec.ofNat 64 o, 0⟩
      ⟨BitVec.ofNat 64 (dir.next o), 1⟩ := ⟨1, hstep⟩
  have hreturns := hreach.returns
    (@readdir_returns a _ 1 (searched dir) (BitVec.ofNat 32 t) after hwf.tail (by decide))
  unfold TarfsReaddir
  simp only [hlarge, if_false, hheader, searchDirectory_eq hof, hindex]
  constructor
  · exact fun h => (readdir_stays a _ _).returns_unique h hreturns
  · rintro rfl
    exact hreturns

/-- Below the limit of an `int`, a file is found if there are so many, and has the name of its
entry. -/
theorem scanned_found_iff (hit : i ≤ t) (ht : t < 2 ^ 31) (name : Chars) :
    (∃ ino, scanned p (BitVec.ofNat 32 t) o i members = .found ⟨ino, name⟩) ↔
      ((listing p members)[t - i]?).bind (fun m => entryName p m.name) = some name := by
  induction members generalizing o i with
  | nil => simp [scanned, listing]
  | cons m members ih =>
    unfold listing at ih ⊢
    rw [scanned, List.filter_cons]
    by_cases hlisted : Listed p m.name
    · simp only [hlisted, if_true, decide_true]
      by_cases heq : i = t
      · subst heq
        cases hentry : entryName p m.name <;> simp [hentry]
      · have hindex : BitVec.ofNat 32 i ≠ BitVec.ofNat 32 t := by
          rw [Ne, ← BitVec.toNat_inj, BitVec.toNat_ofNat, BitVec.toNat_ofNat]
          omega
        have hsub : t - i = t - (i + 1) + 1 := by omega
        rw [if_neg hindex, if_neg (by omega), ih (by omega), hsub, List.getElem?_cons_succ]
    · simp only [hlisted, if_false, decide_false]
      exact ih hit

theorem scanned_null_iff (hit : i ≤ t) (ht : t < 2 ^ 31) :
    scanned p (BitVec.ofNat 32 t) o i members = .null ↔ (listing p members).length ≤ t - i := by
  induction members generalizing o i with
  | nil => simp [scanned, listing]
  | cons m members ih =>
    unfold listing at ih ⊢
    rw [scanned, List.filter_cons]
    by_cases hlisted : Listed p m.name
    · simp only [hlisted, if_true, decide_true, List.length_cons]
      by_cases heq : i = t
      · subst heq
        cases hentry : entryName p m.name <;> simp
      · have hindex : BitVec.ofNat 32 i ≠ BitVec.ofNat 32 t := by
          rw [Ne, ← BitVec.toNat_inj, BitVec.toNat_ofNat, BitVec.toNat_ofNat]
          omega
        rw [if_neg hindex, if_neg (by omega), ih (by omega)]
        omega
    · simp only [hlisted, if_false, decide_false]
      exact ih hit

/-- At the limit nothing is found, and the listing ends only if it is shorter. -/
theorem scanned_limit (hi : i < 2 ^ 31) :
    (∀ entry, scanned p (BitVec.ofNat 32 (2 ^ 31)) o i members ≠ .found entry) ∧
      (scanned p (BitVec.ofNat 32 (2 ^ 31)) o i members = .null →
        i + (listing p members).length < 2 ^ 31) := by
  induction members generalizing o i with
  | nil => simpa [scanned, listing] using hi
  | cons m members ih =>
    unfold listing at ih ⊢
    rw [scanned, List.filter_cons]
    by_cases hlisted : Listed p m.name
    · have hindex : BitVec.ofNat 32 i ≠ BitVec.ofNat 32 (2 ^ 31) := by
        rw [Ne, ← BitVec.toNat_inj, BitVec.toNat_ofNat, BitVec.toNat_ofNat]
        omega
      simp only [hlisted, if_true, decide_true, List.length_cons, hindex, if_false]
      by_cases hmany : i + 1 = 2 ^ 31
      · simp [hmany]
      · rw [if_neg hmany]
        obtain ⟨hfound, hnull⟩ := @ih (m.next o) (i + 1) (by omega)
        exact ⟨hfound, fun h => by have := hnull h; omega⟩
    · simp only [hlisted, if_false, decide_false]
      exact ih hi

/-- The call for the file `i` is one of the loop for the file behind the directory's own entry. -/
theorem readdir_iff (hwf : WellFormed a o (dir :: after)) (hi : i < 2 ^ 31) {entry : Entry} :
    TarfsReaddir a (BitVec.ofNat 64 o) (BitVec.ofNat 64 (i + 2)) entry ↔
      entry = scanned (searched dir) (BitVec.ofNat 32 (i + 1)) (dir.next o) 1 after :=
  tarfsReaddir_iff hwf (Nat.succ_ne_zero i) (by omega)

theorem readdir_found_iff (hwf : WellFormed a o (dir :: after)) (hi : i + 1 < 2 ^ 31)
    (name : Chars) :
    (∃ ino, TarfsReaddir a (BitVec.ofNat 64 o) (BitVec.ofNat 64 (i + 2)) (.found ⟨ino, name⟩)) ↔
      ((listing (searched dir) after)[i]?).bind (fun m => entryName (searched dir) m.name) =
        some name := by
  simp only [readdir_iff hwf (Nat.lt_of_succ_lt hi), @eq_comm Entry (.found _)]
  exact scanned_found_iff (Nat.le_add_left 1 i) hi name

theorem readdir_null_iff (hwf : WellFormed a o (dir :: after)) (hi : i + 1 < 2 ^ 31) :
    TarfsReaddir a (BitVec.ofNat 64 o) (BitVec.ofNat 64 (i + 2)) .null ↔
      (listing (searched dir) after).length ≤ i := by
  rw [readdir_iff hwf (Nat.lt_of_succ_lt hi), eq_comm]
  exact scanned_null_iff (Nat.le_add_left 1 i) hi

/-- The names that are listed are entries of the listing, as long as they can be counted. -/
theorem Lists.entry {names : List Chars} (h : Lists a (BitVec.ofNat 64 o) names)
    (hwf : WellFormed a o (dir :: after)) (hi : i < names.length) (hmany : i + 1 < 2 ^ 31) :
    ∃ m, (listing (searched dir) after)[i]? = some m ∧
      entryName (searched dir) m.name = some names[i] := by
  have hfound := (readdir_found_iff hwf hmany _).mp (h.found i _ (List.getElem?_eq_getElem hi))
  exact Option.bind_eq_some_iff.mp hfound

theorem Lists.length_lt {names : List Chars} (h : Lists a (BitVec.ofNat 64 o) names)
    (hwf : WellFormed a o (dir :: after)) : names.length + 1 < 2 ^ 31 := by
  obtain ⟨hfound, hnull⟩ := @scanned_limit (dir.next o) 1 (searched dir) after (by decide)
  by_contra hmany
  by_cases hlong : 2 ^ 31 - 1 < names.length
  · obtain ⟨ino, hino⟩ := h.found _ _ (List.getElem?_eq_getElem hlong)
    exact hfound _ ((readdir_iff hwf (by omega)).mp hino).symm
  · have hlength : names.length = 2 ^ 31 - 1 := by omega
    have hend := (readdir_iff hwf (by omega)).mp h.null
    rw [hlength] at hend
    have hfew := hnull hend.symm
    obtain ⟨m, hm, -⟩ := h.entry hwf (by omega : 2 ^ 31 - 2 < names.length) (by omega)
    obtain ⟨hlast, -⟩ := List.getElem?_eq_some_iff.mp hm
    omega

/-- What is listed, if the files can be counted, are the entries of the listing. -/
theorem lists_iff (hwf : WellFormed a o (dir :: after)) {names : List Chars} :
    Lists a (BitVec.ofNat 64 o) names ↔ (listing (searched dir) after).length + 1 < 2 ^ 31 ∧
      (listing (searched dir) after).map (fun m => entryName (searched dir) m.name) =
        names.map some := by
  constructor
  · intro h
    have hcount := h.length_lt hwf
    have hend := (readdir_null_iff hwf hcount).mp h.null
    refine ⟨by omega, List.ext_getElem? fun i => ?_⟩
    rw [List.getElem?_map, List.getElem?_map]
    by_cases hi : i < names.length
    · obtain ⟨m, hm, hentry⟩ := h.entry hwf hi (by omega)
      rw [hm, List.getElem?_eq_getElem hi, Option.map_some, Option.map_some, hentry]
    · rw [List.getElem?_eq_none (by omega), List.getElem?_eq_none (by omega)]
      rfl
  · rintro ⟨hcount, heq⟩
    have hlength := congrArg List.length heq
    rw [List.length_map, List.length_map] at hlength
    refine ⟨fun i name hname => ?_, (readdir_null_iff hwf (by omega)).mpr hlength.le⟩
    obtain ⟨hi, -⟩ := List.getElem?_eq_some_iff.mp hname
    have hith := congrArg (fun l => l[i]?) heq
    simp only [List.getElem?_map, hname, Option.map_some] at hith
    obtain ⟨m, hm, hentry⟩ := Option.map_eq_some_iff.mp hith
    rw [readdir_found_iff hwf (by omega), hm]
    exact hentry

end Run

def unslash (name : Chars) : Chars :=
  if name.getLast? = some slash then name.dropLast else name

def Child (dir : Member) (after : List Member) (name : Chars) : Prop :=
  slash ∉ name ∧ ∃ m ∈ dir :: after, stripSlash m.name = searched dir ++ name

structure Exact (dir : Member) (after : List Member) (names : List Chars) : Prop where
  entries : (listing (searched dir) after).map (fun m => entryName (searched dir) m.name) =
    names.map some
  distinct : names.Nodup
  children : ∀ name, name ∈ names ↔ Child dir after name

section Names

variable {a : Archive} {o : ℕ} {dir m : Member} {after members : List Member}
  {p q name str : Chars}

theorem unslash_eq_iff :
    unslash str = q ↔ str = q ∧ q.getLast? ≠ some slash ∨ str = q ++ [slash] := by
  unfold unslash
  constructor
  · split_ifs with hlast
    · rintro rfl
      obtain ⟨rest, rfl⟩ := List.getLast?_eq_some_iff.mp hlast
      simp
    · rintro rfl
      exact .inl ⟨rfl, hlast⟩
  · rintro (⟨rfl, hlast⟩ | rfl)
    · rw [if_neg hlast]
    · simp

theorem stripSlash_eq_iff : stripSlash str = q ↔
    str = q ∧ (q.getLast? ≠ some slash ∨ q = [slash]) ∨ str = q ++ [slash] ∧ q ≠ [] := by
  unfold stripSlash
  constructor
  · split_ifs with hlast
    · rintro rfl
      obtain ⟨rest, rfl⟩ := List.getLast?_eq_some_iff.mp hlast.1
      have hlong := hlast.2
      rw [List.length_append, List.length_singleton] at hlong
      have hpos : 0 < rest.length := by omega
      exact .inr (by simpa using List.length_pos_iff.mp hpos)
    · rintro rfl
      refine .inl ⟨rfl, ?_⟩
      by_cases hslash : str.getLast? = some slash
      · obtain ⟨rest, rfl⟩ := List.getLast?_eq_some_iff.mp hslash
        right
        cases rest with
        | nil => rfl
        | cons c rest => exact absurd ⟨hslash, by simp⟩ hlast
      · exact .inl hslash
  · rintro (⟨rfl, hlast | rfl⟩ | ⟨rfl, hne⟩)
    · rw [if_neg fun h => hlast h.1]
    · rfl
    · exact stripSlash_concat hne

theorem getLast?_ne_of_notMem (h : slash ∉ str) : str.getLast? ≠ some slash :=
  fun hlast => h (List.mem_of_getLast? hlast)

theorem proper_of_mem (hwf : WellFormed a o members) (hm : m ∈ members) :
    0 ∉ m.name ∧ m.name.length < 100 := by
  induction members generalizing o with
  | nil => cases hm
  | cons k members ih =>
    rcases List.mem_cons.mp hm with rfl | hrest
    · exact ⟨hwf.1.name.proper, hwf.1.short⟩
    · exact ih hwf.tail hrest

theorem entryName_of_notMem (h : slash ∉ p) (hne : str ≠ []) :
    entryName p str = some (unslash str) := by
  unfold entryName
  rw [if_neg hne]
  exact if_pos (List.count_eq_zero.mpr h)

theorem entryName_of_mem (h : slash ∈ p) (hne : str ≠ []) :
    entryName p str = (strrchr (unslash str) slash).map List.tail := by
  unfold entryName
  rw [if_neg hne]
  exact if_neg fun hcount => List.count_eq_zero.mp hcount h

theorem mem_of_entryName {c : BitVec 8} (h : entryName p str = some name) (hc : c ∈ name) :
    c ∈ str := by
  have hne : str ≠ [] := by
    rintro rfl
    cases h
  have hsub : ∀ d ∈ unslash str, d ∈ str := by
    intro d hd
    unfold unslash at hd
    split_ifs at hd
    · exact List.mem_of_mem_dropLast hd
    · exact hd
  by_cases hslash : slash ∈ p
  · rw [entryName_of_mem hslash hne] at h
    by_cases hin : slash ∈ unslash str
    · obtain ⟨before, after, heq, hafter⟩ := exists_last hin
      rw [heq, strrchr_append before hafter] at h
      obtain rfl : after = name := Option.some.inj h
      refine hsub c ?_
      simp [heq, hc]
    · rw [strrchr_eq_none_iff.mpr hin] at h
      cases h
  · rw [entryName_of_notMem hslash hne] at h
    exact hsub c (Option.some.inj h ▸ hc)

/-- A lookup in a directory finds a node if and only if there is a member with the name. -/
theorem finds_iff (hwf : WellFormed a o (dir :: after)) (htype : dir.type = ustarDirectory)
    (h0 : 0 ∉ name) : (∃ node, TarfsFinddir a (BitVec.ofNat 64 o) name (some node)) ↔
      ∃ m ∈ dir :: after, stripSlash m.name = searched dir ++ name := by
  obtain ⟨header, hheader, hof, -⟩ := hwf.header
  have hsearch0 := zero_notMem_search hof h0
  simp only [tarfsFinddir_iff hheader (hof.type.trans htype), searchDirectory_eq hof]
  obtain ⟨result, hreturns, hanswers⟩ := finddir_returns hwf hsearch0
  constructor
  · rintro ⟨node, -, hnode⟩
    have hfirst := answers_of_returns hwf hsearch0 hnode
    by_contra hnone
    simp only [not_exists, not_and] at hnone
    rw [firstMatch_eq_none_iff.mpr hnone] at hfirst
    exact hfirst
  · rintro ⟨m, hm, heq⟩
    have hfits : (searched dir ++ name).length < 256 := by
      have hshort := (proper_of_mem hwf hm).2
      have hle : (stripSlash m.name).length ≤ m.name.length := by
        unfold stripSlash
        split_ifs <;> simp
      rw [← heq]
      omega
    cases result with
    | some node => exact ⟨node, hfits, hreturns⟩
    | none =>
      exfalso
      cases hfirst : firstMatch (searched dir ++ name) o (dir :: after) with
      | none => exact firstMatch_eq_none_iff.mp hfirst m hm heq
      | some found =>
        rw [hfirst] at hanswers
        exact hanswers

/-- The listing agrees with lookup if the entries are the children. -/
theorem agrees_iff_entries (hwf : WellFormed a o (dir :: after))
    (htype : dir.type = ustarDirectory) : Agrees a (BitVec.ofNat 64 o) ↔
      (listing (searched dir) after).length + 1 < 2 ^ 31 ∧ ∃ names, Exact dir after names := by
  have hchild0 : ∀ name, Child dir after name → 0 ∉ name := by
    rintro name ⟨-, m, hm, heq⟩ h0
    refine zero_notMem_stripSlash (proper_of_mem hwf hm).1 ?_
    rw [heq]
    exact List.mem_append_right _ h0
  have hchild : ∀ name, 0 ∉ name → ((slash ∉ name ∧
      ∃ node, TarfsFinddir a (BitVec.ofNat 64 o) name (some node)) ↔ Child dir after name) := by
    intro name h0
    rw [finds_iff hwf htype h0]
    rfl
  unfold Agrees
  simp only [lists_iff hwf]
  constructor
  · rintro ⟨names, ⟨hcount, heq⟩, hnodup, hagree⟩
    refine ⟨hcount, names, ⟨heq, hnodup, fun name => ?_⟩⟩
    by_cases h0 : 0 ∈ name
    · refine iff_of_false (fun hname => ?_) fun h => hchild0 name h h0
      have hmem : some name ∈ names.map some := List.mem_map_of_mem hname
      rw [← heq, List.mem_map] at hmem
      obtain ⟨m, hm, hentry⟩ := hmem
      have hm' : m ∈ dir :: after := List.mem_cons_of_mem dir (List.mem_filter.mp hm).1
      exact (proper_of_mem hwf hm').1 (mem_of_entryName hentry h0)
    · rw [hagree name h0, hchild name h0]
  · rintro ⟨hcount, names, hexact⟩
    refine ⟨names, ⟨hcount, hexact.entries⟩, hexact.distinct, fun name h0 => ?_⟩
    rw [hexact.children name, hchild name h0]

theorem Exact.mem_iff {names : List Chars} (h : Exact dir after names) : name ∈ names ↔
    ∃ m ∈ listing (searched dir) after, entryName (searched dir) m.name = some name := by
  have hmem : some name ∈ names.map some ↔ name ∈ names := by simp
  rw [← hmem, ← h.entries, List.mem_map]

theorem Exact.inj {names : List Chars} (h : Exact dir after names) {n : Member}
    (hm : m ∈ listing (searched dir) after) (hn : n ∈ listing (searched dir) after)
    (heq : entryName (searched dir) m.name = entryName (searched dir) n.name) : m = n := by
  have hmap : ((listing (searched dir) after).map
      fun m => entryName (searched dir) m.name).Nodup := by
    rw [h.entries]
    exact h.distinct.map fun _ _ hsome => Option.some.inj hsome
  exact List.inj_on_of_nodup_map hmap hm hn heq

theorem Exact.entry {names : List Chars} (h : Exact dir after names)
    (hm : m ∈ listing (searched dir) after) :
    ∃ name ∈ names, entryName (searched dir) m.name = some name := by
  have hmem := List.mem_map_of_mem (f := fun m => entryName (searched dir) m.name) hm
  rw [h.entries, List.mem_map] at hmem
  obtain ⟨name, hname, heq⟩ := hmem
  exact ⟨name, hname, heq.symm⟩

theorem Exact.names_eq {names : List Chars} (h : Exact dir after names) {f : Member → Chars}
    (hf : ∀ m ∈ listing (searched dir) after, entryName (searched dir) m.name = some (f m)) :
    names = (listing (searched dir) after).map f := by
  refine List.map_injective_iff.mpr (fun _ _ hsome => Option.some.inj hsome) ?_
  rw [← h.entries, List.map_map]
  exact List.map_congr_left hf

end Names

end ReduceOS.UstarEntries
