import ReduceOS.UstarEntries

/-!
Where the listing of a directory agrees with lookup. Lookup compares a whole name and the listing
only its beginning, and a name ends in a slash or not: what the names behind a directory have to
be for both to agree is told apart for the root, a directory with a slash at its end, and one
without.
-/
namespace ReduceOS.UstarListing

open Machine CString Ustar UstarHeader UstarScan UstarArchive UstarLookup UstarEntries
open MountTree (slash)

/-- The part of a name behind that of the directory, without a slash at its end. -/
def part (p name : Chars) : Chars := unslash (name.drop p.length)

local instance instLawfulBEqChar : LawfulBEq (BitVec 8) := inferInstance

def plain (members : List Member) : List Member := members.filter fun m => slash ∉ m.name

def beginning (p : Chars) (members : List Member) : List Member :=
  members.filter fun m => p <+: m.name

/-- The listing of the root is right: no name is empty or there twice, and for every directory in
it there is a member with its name and no slash. -/
structure Flat (members : List Member) : Prop where
  few : (plain members).length + 1 < 2 ^ 31
  named : ∀ m ∈ members, m.name ≠ []
  distinct : ((plain members).map Member.name).Nodup
  doubled : ∀ name, name ≠ [] → slash ∉ name → (∃ m ∈ members, m.name = name ++ [slash]) →
    ∃ m ∈ members, m.name = name

structure Nested (p : Chars) (members : List Member) : Prop where
  few : (beginning p members).length + 1 < 2 ^ 31
  direct : ∀ m ∈ beginning p members, m.name ≠ p ∧ slash ∉ part p m.name
  distinct : ((beginning p members).map fun m => part p m.name).Nodup

/-- The listing of a directory without a slash at its end is right: its own name is looked up by
the empty one, and the one member that is listed has no other. -/
def Lone (p : Chars) (members : List Member) : Prop :=
  slash ∈ p ∧ ∃ m, beginning p members = [m] ∧ [slash, slash] <:+ m.name

def Unambiguous (dir : Member) (after : List Member) : Prop :=
  if dir.name = [slash] then Flat after
  else if dir.name.getLast? = some slash then Nested dir.name after
  else Lone dir.name after

section Condition

variable {dir m : Member} {after members : List Member} {p u v w name str : Chars}

theorem listing_eq_plain (h : slash ∉ p) : listing p members = plain members := by
  refine List.filter_congr fun m _ => ?_
  simp [Listed, List.count_eq_zero.mpr h, strchr_eq_none_iff]

theorem listing_eq_beginning (h : slash ∈ p) : listing p members = beginning p members := by
  refine List.filter_congr fun m _ => ?_
  have hcount : p.count slash ≠ 0 := fun hzero => List.count_eq_zero.mp hzero h
  simp [Listed, hcount, strstr_eq_self_iff]

theorem unslash_of_notMem (h : slash ∉ str) : unslash str = str :=
  unslash_eq_iff.mpr (.inl ⟨rfl, getLast?_ne_of_notMem h⟩)

theorem unslash_append (p : Chars) (hne : w ≠ []) : unslash (p ++ w) = p ++ unslash w := by
  unfold unslash
  rw [List.getLast?_append_of_ne_nil p hne]
  split_ifs
  · exact List.dropLast_append_of_ne_nil hne
  · rfl

@[simp] theorem part_append (p w : Chars) : part p (p ++ w) = unslash w := by
  simp [part]

theorem mem_beginning : m ∈ beginning p members ↔ m ∈ members ∧ ∃ w, m.name = p ++ w := by
  rw [beginning, List.mem_filter, decide_eq_true_iff]
  refine and_congr_right fun _ => exists_congr fun w => eq_comm

/-- The entry of a member that is in a directory directly begins behind the last slash of the
name of the directory. -/
theorem entryName_of_direct (hp : p = u ++ slash :: v) (hv : slash ∉ v)
    (hm : m ∈ beginning p members) (hother : m.name ≠ p) (hdirect : slash ∉ part p m.name) :
    entryName p m.name = some (v ++ part p m.name) := by
  obtain ⟨-, w, hw⟩ := mem_beginning.mp hm
  have hne : w ≠ [] := by simpa [hw] using hother
  rw [hw, part_append] at hdirect ⊢
  have hmem : slash ∉ v ++ unslash w := by
    rw [List.mem_append, not_or]
    exact ⟨hv, hdirect⟩
  rw [entryName_of_mem (by simp [hp]) (by simp [hne]), unslash_append _ hne, hp,
    List.append_assoc, List.cons_append, strrchr_append u hmem]
  rfl

/-- An entry is empty if the name ends in two slashes. -/
theorem entryName_eq_nil_iff (h : slash ∈ p) :
    entryName p str = some [] ↔ [slash, slash] <:+ str := by
  constructor
  · intro hentry
    have hne : str ≠ [] := by
      rintro rfl
      cases hentry
    rw [entryName_of_mem h hne] at hentry
    by_cases hin : slash ∈ unslash str
    · obtain ⟨before, rest, heq, hrest⟩ := exists_last hin
      rw [heq, strrchr_append before hrest] at hentry
      obtain rfl : rest = [] := Option.some.inj hentry
      rcases unslash_eq_iff.mp heq with ⟨-, hlast⟩ | hstr
      · simp at hlast
      · exact ⟨before, by simp [hstr]⟩
    · rw [strrchr_eq_none_iff.mpr hin] at hentry
      cases hentry
  · rintro ⟨before, rfl⟩
    have hstrip : unslash (before ++ [slash, slash]) = before ++ [slash] :=
      unslash_eq_iff.mpr (.inr (by simp))
    rw [entryName_of_mem h (by simp), hstrip, strrchr_append before (by simp)]
    rfl

theorem child_root_iff (hroot : dir.name = [slash]) : Child dir after name ↔
    slash ∉ name ∧ ∃ m ∈ after, m.name = name ∨ m.name = name ++ [slash] ∧ name ≠ [] := by
  refine and_congr_right fun hname => ?_
  have hlast := getLast?_ne_of_notMem hname
  have hne : name ≠ [slash] := by
    rintro rfl
    simp at hname
  simp only [searched, hroot, if_true, List.nil_append, stripSlash_eq_iff, List.mem_cons,
    exists_eq_or_imp, ne_eq, hlast, not_false_eq_true, true_or, and_true]
  refine or_iff_right ?_
  rintro (heq | ⟨heq, hnil⟩)
  · exact hne heq.symm
  · exact hnil (by simpa using heq)

/-- The children of a directory are the parts behind its name. -/
theorem child_nested_iff (hroot : dir.name ≠ [slash]) (hlast : dir.name.getLast? = some slash) :
    Child dir after name ↔ slash ∉ name ∧
      ∃ m ∈ beginning dir.name after, m.name ≠ dir.name ∧ part dir.name m.name = name := by
  refine and_congr_right fun hname => ?_
  rw [searched, if_neg hroot]
  constructor
  · rintro ⟨m, hm, heq⟩
    have hcases : ∃ w, m.name = dir.name ++ w ∧ w ≠ [] ∧ unslash w = name := by
      rcases stripSlash_eq_iff.mp heq with ⟨hm, hend⟩ | ⟨hm, -⟩
      · refine ⟨name, hm, ?_, unslash_of_notMem hname⟩
        rintro rfl
        rw [List.append_nil] at hend
        exact hend.elim (fun h => h hlast) hroot
      · exact ⟨name ++ [slash], by rw [hm, List.append_assoc], by simp,
          unslash_eq_iff.mpr (.inr rfl)⟩
    obtain ⟨w, hw, hne, hpart⟩ := hcases
    have hother : m.name ≠ dir.name := by simpa [hw] using hne
    have hafter : m ∈ after := by
      refine (List.mem_cons.mp hm).resolve_left ?_
      rintro rfl
      exact hother rfl
    exact ⟨m, mem_beginning.mpr ⟨hafter, w, hw⟩, hother, by rw [hw, part_append, hpart]⟩
  · rintro ⟨m, hm, hother, hpart⟩
    obtain ⟨hafter, w, hw⟩ := mem_beginning.mp hm
    rw [hw, part_append] at hpart
    have hne : w ≠ [] := by simpa [hw] using hother
    refine ⟨m, List.mem_cons_of_mem dir hafter, stripSlash_eq_iff.mpr ?_⟩
    rcases unslash_eq_iff.mp hpart with ⟨rfl, hend⟩ | rfl
    · exact .inl ⟨hw, .inl (by rwa [List.getLast?_append_of_ne_nil _ hne])⟩
    · refine .inr ⟨by rw [hw, List.append_assoc], ?_⟩
      intro hnil
      simp [(List.append_eq_nil_iff.mp hnil).1] at hlast

/-- A directory without a slash at its end has itself as a child, under the empty name. -/
theorem child_lone_iff (hlast : dir.name.getLast? ≠ some slash) : Child dir after name ↔
    slash ∉ name ∧ (name = [] ∨
      ∃ m ∈ beginning dir.name after, part dir.name m.name = name) := by
  refine and_congr_right fun hname => ?_
  have hroot : dir.name ≠ [slash] := by
    intro h
    simp [h] at hlast
  rw [searched, if_neg hroot]
  constructor
  · rintro ⟨m, hm, heq⟩
    rw [or_iff_not_imp_left]
    intro hne
    have hcases : ∃ w, m.name = dir.name ++ w ∧ unslash w = name := by
      rcases stripSlash_eq_iff.mp heq with ⟨hm, -⟩ | ⟨hm, -⟩
      · exact ⟨name, hm, unslash_of_notMem hname⟩
      · exact ⟨name ++ [slash], by rw [hm, List.append_assoc], unslash_eq_iff.mpr (.inr rfl)⟩
    obtain ⟨w, hw, hpart⟩ := hcases
    have hafter : m ∈ after := by
      refine (List.mem_cons.mp hm).resolve_left ?_
      rintro rfl
      obtain rfl : w = [] := by simpa using hw
      exact hne hpart.symm
    exact ⟨m, mem_beginning.mpr ⟨hafter, w, hw⟩, by rw [hw, part_append, hpart]⟩
  · rintro (rfl | ⟨m, hm, hpart⟩)
    · refine ⟨dir, List.mem_cons_self, ?_⟩
      rw [List.append_nil]
      exact stripSlash_of_getLast hlast
    · obtain ⟨hafter, w, hw⟩ := mem_beginning.mp hm
      rw [hw, part_append] at hpart
      by_cases hempty : dir.name ++ name = []
      · refine ⟨dir, List.mem_cons_self, ?_⟩
        rw [hempty, (List.append_eq_nil_iff.mp hempty).1]
        rfl
      · refine ⟨m, List.mem_cons_of_mem dir hafter, stripSlash_eq_iff.mpr ?_⟩
        rcases unslash_eq_iff.mp hpart with ⟨rfl, hend⟩ | rfl
        · refine .inl ⟨hw, .inl ?_⟩
          cases w with
          | nil => rwa [List.append_nil]
          | cons c w => rwa [List.getLast?_append_of_ne_nil _ (by simp)]
        · exact .inr ⟨by rw [hw, List.append_assoc], hempty⟩

theorem exact_root_iff (hroot : dir.name = [slash]) : (∃ names, Exact dir after names) ↔
    (∀ m ∈ after, m.name ≠ []) ∧ ((plain after).map Member.name).Nodup ∧
      ∀ name, name ≠ [] → slash ∉ name → (∃ m ∈ after, m.name = name ++ [slash]) →
        ∃ m ∈ after, m.name = name := by
  have hsearched : searched dir = [] := if_pos hroot
  have hlisting : listing (searched dir) after = plain after :=
    listing_eq_plain (by simp [hsearched])
  have hplain : ∀ m, m ∈ plain after ↔ m ∈ after ∧ slash ∉ m.name := by simp [plain]
  have hentry : ∀ m ∈ plain after, m.name ≠ [] →
      entryName (searched dir) m.name = some m.name := by
    intro m hm hne
    rw [entryName_of_notMem (by simp [hsearched]) hne,
      unslash_of_notMem ((hplain m).mp hm).2]
  constructor
  · rintro ⟨names, h⟩
    have hnamed : ∀ m ∈ after, m.name ≠ [] := by
      intro m hm hnil
      have hlisted : m ∈ listing (searched dir) after := by
        rw [hlisting, hplain]
        exact ⟨hm, by simp [hnil]⟩
      obtain ⟨name, -, hsome⟩ := h.entry hlisted
      rw [hnil] at hsome
      cases hsome
    have hnames := h.names_eq fun m hm =>
      hentry m (hlisting ▸ hm) (hnamed m (List.mem_of_mem_filter hm))
    rw [hlisting] at hnames
    refine ⟨hnamed, hnames ▸ h.distinct, ?_⟩
    rintro name hne hslash ⟨m, hm, hname⟩
    have hchild := (child_root_iff hroot).mpr ⟨hslash, m, hm, .inr ⟨hname, hne⟩⟩
    rw [← h.children, hnames, List.mem_map] at hchild
    obtain ⟨n, hn, rfl⟩ := hchild
    exact ⟨n, ((hplain n).mp hn).1, rfl⟩
  · rintro ⟨hnamed, hdistinct, hdoubled⟩
    refine ⟨(plain after).map Member.name, ⟨?_, hdistinct, fun name => ?_⟩⟩
    · rw [hlisting, List.map_map]
      exact List.map_congr_left fun m hm => hentry m hm (hnamed m ((hplain m).mp hm).1)
    · simp only [child_root_iff hroot, List.mem_map, hplain]
      constructor
      · rintro ⟨m, ⟨hm, hslash⟩, rfl⟩
        exact ⟨hslash, m, hm, .inl rfl⟩
      · rintro ⟨hslash, m, hm, rfl | ⟨hname, hne⟩⟩
        · exact ⟨m, ⟨hm, hslash⟩, rfl⟩
        · obtain ⟨n, hn, rfl⟩ := hdoubled name hne hslash ⟨m, hm, hname⟩
          exact ⟨n, ⟨hn, hslash⟩, rfl⟩

theorem exact_nested_iff (hroot : dir.name ≠ [slash]) (hlast : dir.name.getLast? = some slash) :
    (∃ names, Exact dir after names) ↔
      (∀ m ∈ beginning dir.name after, m.name ≠ dir.name ∧ slash ∉ part dir.name m.name) ∧
        ((beginning dir.name after).map fun m => part dir.name m.name).Nodup := by
  have hsearched : searched dir = dir.name := if_neg hroot
  have hlisting : listing (searched dir) after = beginning dir.name after := by
    rw [hsearched]
    exact listing_eq_beginning (List.mem_of_getLast? hlast)
  have hentry : ∀ m ∈ beginning dir.name after, m.name ≠ dir.name →
      slash ∉ part dir.name m.name →
      entryName (searched dir) m.name = some (part dir.name m.name) := by
    intro m hm hother hdirect
    obtain ⟨u, hu⟩ := List.getLast?_eq_some_iff.mp hlast
    rw [hsearched]
    exact entryName_of_direct hu (by simp) hm hother hdirect
  constructor
  · rintro ⟨names, h⟩
    have hdirect : ∀ m ∈ beginning dir.name after,
        m.name ≠ dir.name ∧ slash ∉ part dir.name m.name := by
      intro m hm
      obtain ⟨name, hname, hsome⟩ := h.entry (hlisting.symm ▸ hm)
      rw [h.children, child_nested_iff hroot hlast] at hname
      obtain ⟨hslash, n, hn, hother, rfl⟩ := hname
      obtain rfl : m = n := h.inj (hlisting.symm ▸ hm) (hlisting.symm ▸ hn)
        (hsome.trans (hentry n hn hother hslash).symm)
      exact ⟨hother, hslash⟩
    have hnames := h.names_eq fun m hm =>
      hentry m (hlisting ▸ hm) (hdirect m (hlisting ▸ hm)).1 (hdirect m (hlisting ▸ hm)).2
    rw [hlisting] at hnames
    exact ⟨hdirect, hnames ▸ h.distinct⟩
  · rintro ⟨hdirect, hdistinct⟩
    refine ⟨_, ⟨?_, hdistinct, fun name => ?_⟩⟩
    · rw [hlisting, List.map_map]
      exact List.map_congr_left fun m hm => hentry m hm (hdirect m hm).1 (hdirect m hm).2
    · rw [child_nested_iff hroot hlast, List.mem_map]
      constructor
      · rintro ⟨m, hm, rfl⟩
        exact ⟨(hdirect m hm).2, m, hm, (hdirect m hm).1, rfl⟩
      · rintro ⟨-, m, hm, -, heq⟩
        exact ⟨m, hm, heq⟩

/-- Names that are all followed by longer ones are empty. -/
theorem eq_nil_of_longer {names : List Chars} (hv : v ≠ [])
    (h : ∀ name ∈ names, name ≠ [] → v ++ name ∈ names) : ∀ name ∈ names, name = [] := by
  intro name hname
  by_contra hne
  have hlong : ∀ k, ∃ longer ∈ names, longer ≠ [] ∧ k ≤ longer.length := by
    intro k
    induction k with
    | zero => exact ⟨name, hname, hne, Nat.zero_le _⟩
    | succ k ih =>
      obtain ⟨longer, hmem, hnil, hk⟩ := ih
      have hpos := List.length_pos_iff.mpr hv
      refine ⟨v ++ longer, h longer hmem hnil, by simp [hnil], ?_⟩
      rw [List.length_append]
      omega
  obtain ⟨longer, hmem, -, hk⟩ := hlong (names.flatten.length + 1)
  have hle := (List.sublist_flatten_of_mem hmem).length_le
  omega

theorem not_exact_of_notMem (hroot : dir.name ≠ [slash]) (hslash : slash ∉ dir.name)
    (names : List Chars) : ¬ Exact dir after names := by
  have hsearched : searched dir = dir.name := if_neg hroot
  intro h
  have hempty : Child dir after [] :=
    (child_lone_iff (getLast?_ne_of_notMem hslash)).mpr ⟨by simp, .inl rfl⟩
  obtain ⟨m, hm, hsome⟩ := h.mem_iff.mp ((h.children []).mpr hempty)
  rw [hsearched, listing_eq_plain hslash, plain, List.mem_filter, decide_eq_true_iff] at hm
  have hne : m.name ≠ [] := by
    intro hnil
    rw [hnil] at hsome
    cases hsome
  rw [hsearched, entryName_of_notMem hslash hne, unslash_of_notMem hm.2] at hsome
  exact hne (Option.some.inj hsome)

theorem exact_lone_iff (hlast : dir.name.getLast? ≠ some slash) (hslash : slash ∈ dir.name) :
    (∃ names, Exact dir after names) ↔
      ∃ m, beginning dir.name after = [m] ∧ [slash, slash] <:+ m.name := by
  have hroot : dir.name ≠ [slash] := by
    intro h
    simp [h] at hlast
  have hsearched : searched dir = dir.name := if_neg hroot
  have hempty : Child dir after [] := (child_lone_iff hlast).mpr ⟨by simp, .inl rfl⟩
  have hlisting : listing (searched dir) after = beginning dir.name after := by
    rw [hsearched]
    exact listing_eq_beginning hslash
  obtain ⟨u, v, hsplit, hv⟩ := exists_last hslash
  have hvne : v ≠ [] := by
    rintro rfl
    simp [hsplit] at hlast
  have hentry : ∀ m ∈ beginning dir.name after, slash ∉ part dir.name m.name →
      part dir.name m.name ≠ [] →
      entryName (searched dir) m.name = some (v ++ part dir.name m.name) := by
    intro m hm hdirect hne
    have hother : m.name ≠ dir.name := by
      intro heq
      rw [heq] at hne
      simp [part, unslash] at hne
    rw [hsearched]
    exact entryName_of_direct hsplit hv hm hother hdirect
  constructor
  · rintro ⟨names, h⟩
    have hnil : ∀ name ∈ names, name = [] := by
      refine eq_nil_of_longer hvne fun name hname hne => ?_
      rw [h.children, child_lone_iff hlast] at hname
      obtain ⟨hdirect, hnil | ⟨m, hm, rfl⟩⟩ := hname
      · exact absurd hnil hne
      · exact h.mem_iff.mpr ⟨m, hlisting.symm ▸ hm, hentry m hm hdirect hne⟩
    have hnames : names = [[]] := by
      have hpos := List.length_pos_of_mem ((h.children []).mpr hempty)
      have hcount := List.nodup_iff_count_le_one.mp h.distinct []
      have hreplicate := List.eq_replicate_of_mem hnil
      rw [hreplicate, List.count_replicate_self] at hcount
      have hone : names.length = 1 := by omega
      rw [hreplicate, hone]
      rfl
    have hentries := h.entries
    rw [hnames, hlisting] at hentries
    obtain ⟨m, hm, hsome⟩ := List.map_eq_singleton_iff.mp hentries
    rw [hsearched, entryName_eq_nil_iff hslash] at hsome
    exact ⟨m, hm, hsome⟩
  · rintro ⟨m, hm, htail⟩
    have hsome : entryName (searched dir) m.name = some [] := by
      rwa [hsearched, entryName_eq_nil_iff hslash]
    refine ⟨[[]], ⟨?_, by simp, fun name => ?_⟩⟩
    · rw [hlisting, hm, List.map_singleton, hsome]
      rfl
    · rw [List.mem_singleton]
      constructor
      · rintro rfl
        exact hempty
      · intro hchild
        obtain ⟨hdirect, hnil | ⟨n, hn, rfl⟩⟩ := (child_lone_iff hlast).mp hchild
        · exact hnil
        · by_contra hne
          have hlonger := hentry n hn hdirect hne
          rw [hm, List.mem_singleton] at hn
          rw [hn, hsome, Option.some_inj] at hlonger
          exact hvne (List.append_eq_nil_iff.mp hlonger.symm).1

end Condition

section Directory

variable {a : Archive} {o : ℕ} {dir : Member} {before after : List Member}

theorem agrees_iff (hwf : WellFormed a o (dir :: after)) (htype : dir.type = ustarDirectory) :
    Agrees a (BitVec.ofNat 64 o) ↔ Unambiguous dir after := by
  rw [agrees_iff_entries hwf htype, Unambiguous]
  by_cases hroot : dir.name = [slash]
  · have hsearched : searched dir = [] := if_pos hroot
    rw [if_pos hroot, exact_root_iff hroot, hsearched, listing_eq_plain (by simp)]
    exact ⟨fun ⟨hfew, hnamed, hdistinct, hdoubled⟩ => ⟨hfew, hnamed, hdistinct, hdoubled⟩,
      fun h => ⟨h.few, h.named, h.distinct, h.doubled⟩⟩
  · have hsearched : searched dir = dir.name := if_neg hroot
    rw [if_neg hroot]
    by_cases hlast : dir.name.getLast? = some slash
    · rw [if_pos hlast, exact_nested_iff hroot hlast, hsearched,
        listing_eq_beginning (List.mem_of_getLast? hlast)]
      exact ⟨fun ⟨hfew, hdirect, hdistinct⟩ => ⟨hfew, hdirect, hdistinct⟩,
        fun h => ⟨h.few, h.direct, h.distinct⟩⟩
    · rw [if_neg hlast, Lone]
      by_cases hslash : slash ∈ dir.name
      · rw [exact_lone_iff hlast hslash, hsearched, listing_eq_beginning hslash,
            and_iff_right hslash]
        refine and_iff_right_of_imp ?_
        rintro ⟨m, hm, -⟩
        simp [hm]
      · refine iff_of_false ?_ fun h => hslash h.1
        rintro ⟨-, names, h⟩
        exact not_exact_of_notMem hroot hslash names h

/-- The listing of a directory of an archive. -/
theorem listing_agrees_iff (hwf : WellFormed a 0 (before ++ dir :: after))
    (htype : dir.type = ustarDirectory) :
    Agrees a (BitVec.ofNat 64 (endOf 0 before)) ↔ Unambiguous dir after :=
  agrees_iff hwf.behind htype

end Directory

section Sample

/-- The members of the root of `plainDirectory` are listed: there is `d`. -/
theorem listing_agrees_in_root : Agrees plainDirectory (BitVec.ofNat 64 (endOf 0 [])) := by
  refine (@listing_agrees_iff plainDirectory ⟨[47], 0, 53⟩ [] _ wellFormed_plainDirectory
    rfl).mpr ?_
  exact
    { few := by decide
      named := by decide
      distinct := by decide
      doubled := by
        rintro name - - ⟨m, hm, hname⟩
        have hlast : m.name.getLast? = some slash := by simp [hname]
        have hnone : ∀ n ∈ ([⟨[100], 0, 53⟩, ⟨[100, 47, 120], 0, 48⟩] : List Member),
            n.name.getLast? ≠ some slash := by decide
        exact absurd hlast (hnone m hm) }

def slashDirectory : Archive :=
  archiveOf (block [47] [48] 53 ++ block [100, 47] [48] 53 ++ pad 512 [])

/-- It is not listed, and found. -/
theorem directory_not_listed :
    WellFormed slashDirectory 0 ([] ++ ⟨[47], 0, 53⟩ :: [⟨[100, 47], 0, 53⟩]) ∧
      ¬ Agrees slashDirectory (BitVec.ofNat 64 (endOf 0 [])) := by
  have hlt : (block [47] [48] 53 ++ block [100, 47] [48] 53 ++ pad 512 []).length < 2 ^ 64 := by
    simp (disch := decide) only [List.length_append, length_block, length_pad]
    decide
  have hroot : HeaderOf (content slashDirectory 0 500) ⟨[47], 0, 53⟩ :=
    @headerOf_archiveOf _ [] _ _ [48] _ _ _ (by simp only [List.append_assoc, List.nil_append]; rfl)
      rfl hlt (by decide) (by decide) (by decide) (by decide) (by decide) rfl
  have hdirectory : HeaderOf (content slashDirectory 512 500) ⟨[100, 47], 0, 53⟩ :=
    @headerOf_archiveOf _ (block [47] [48] 53) _ _ [48] _ _ _
      (by simp only [List.append_assoc]; rfl) (length_block (by decide) (by decide)) hlt
      (by decide) (by decide) (by decide) (by decide) (by decide) rfl
  have hdev : slashDirectory.dev.length.toNat = 1536 := by decide +kernel
  have hwf : WellFormed slashDirectory 0 ([] ++ ⟨[47], 0, 53⟩ :: [⟨[100, 47], 0, 53⟩]) :=
    ⟨hroot, by rw [hdev]; decide, hdirectory, by rw [hdev]; decide, by rw [hdev]; decide,
      by decide +kernel⟩
  refine ⟨hwf, fun h => ?_⟩
  have hflat : Flat [⟨[100, 47], 0, 53⟩] := (agrees_iff hwf rfl).mp h
  obtain ⟨m, hm, hname⟩ :=
    hflat.doubled [100] (by decide) (by decide) ⟨_, List.mem_singleton_self _, rfl⟩
  rw [List.mem_singleton] at hm
  rw [hm] at hname
  cases hname

end Sample

end ReduceOS.UstarListing
