import ReduceOS.Multiboot
import Mathlib.Algebra.Order.Group.Nat
import Mathlib.Data.Nat.Basic

/-!
Which information blocks of the second boot protocol are parsed to the end. The search for the
next tag of a type starts at the tag that it is given, so that a module tag is its own successor.
-/
namespace ReduceOS.BootTags

open Inet Multiboot

structure Tag where
  address : ℕ
  type : BitVec 32
  size : BitVec 32

variable (mem : ℕ → Byte)

def TagsAt : ℕ → List Tag → Prop
  | start, [] => load32 mem start = 0
  | start, t :: tags => t.address = start ∧ t.type = load32 mem start ∧ t.type ≠ 0 ∧
      t.size = load32 mem (start + 4) ∧ TagsAt (skipPadding (start + t.size.toNat)) tags

instance decidableTagsAt : ∀ start tags, Decidable (TagsAt mem start tags)
  | start, [] => inferInstanceAs (Decidable (load32 mem start = 0))
  | start, t :: tags =>
    have := decidableTagsAt (skipPadding (start + t.size.toNat)) tags
    inferInstanceAs (Decidable (_ ∧ _ ∧ _ ∧ _ ∧ _))

structure WellFormed (bootinfo : ℕ) (tags : List Tag) : Prop where
  aligned : 8 ∣ bootinfo
  linked : TagsAt mem (bootinfo + 8) tags
  strings : ∀ t ∈ tags, t.type = tagTypeCmdline ∨ t.type = tagTypeBootLoaderName →
    ∃ k, k + 8 < t.size.toNat ∧ mem (t.address + 8 + k) = 0

def firstOf (type : BitVec 32) (tags : List Tag) : Option ℕ :=
  (tags.find? (·.type = type)).map (·.address)

def Describes (t : Tag) (m : Module) : Prop :=
  loadBytes mem (t.address + 16) ((chars m.cmdline).length + 1) = chars m.cmdline ++ [0] ∧
    m.contents = loadBytes mem (load32 mem (t.address + 8)).toNat
      (load32 mem (t.address + 12) - load32 mem (t.address + 8)).toNat

/-- Both parsers return, and the modules that are found then are those of the tags. -/
structure Complete (held : Held) (kernelEnd : BitVec 64) (bootinfo : ℕ) (tags : List Tag) :
    Prop where
  parsed : ∃ n parameters modules,
    archParseMultiboot2 mem n bootinfo = some (.returned parameters) ∧
    parameters.moduleList held = some modules ∧
    List.Forall₂ (Describes mem) (tags.filter (·.type = tagTypeModule)) modules
  early : ∃ n found, archParseMultiboot2Early mem kernelEnd n bootinfo = some (.returned found)

section Search

theorem dvd_skipPadding (a : ℕ) : 8 ∣ skipPadding a := by
  unfold skipPadding
  omega

theorem skipPadding_of_dvd {a : ℕ} (h : 8 ∣ a) : skipPadding a = a := by
  unfold skipPadding
  omega

variable {mem} {start a n : ℕ} {tags : List Tag} {type : BitVec 32}

theorem TagsAt.aligned (h : TagsAt mem start tags) (hstart : 8 ∣ start) :
    ∀ t ∈ tags, 8 ∣ t.address := by
  induction tags generalizing start with
  | nil => simp
  | cons t tags ih =>
    obtain ⟨rfl, -, -, -, hrest⟩ := h
    simp only [List.mem_cons, forall_eq_or_imp]
    exact ⟨hstart, ih hrest (dvd_skipPadding _)⟩

theorem TagsAt.fields (h : TagsAt mem start tags) : ∀ t ∈ tags,
    t.type = load32 mem t.address ∧ t.type ≠ 0 ∧ t.size = load32 mem (t.address + 4) := by
  induction tags generalizing start with
  | nil => simp
  | cons t tags ih =>
    obtain ⟨rfl, htype, hne, hsize, hrest⟩ := h
    simp only [List.mem_cons, forall_eq_or_imp]
    exact ⟨⟨htype, hne, hsize⟩, ih hrest⟩

theorem exists_of_firstOf (h : firstOf type tags = some a) :
    ∃ t ∈ tags, t.type = type ∧ t.address = a := by
  obtain ⟨t, hfind, haddress⟩ := Option.map_eq_some_iff.mp h
  exact ⟨t, List.mem_of_find?_eq_some hfind, by simpa using List.find?_some hfind, haddress⟩

theorem firstOf_eq_none : firstOf type tags = none ↔ tags.filter (·.type = type) = [] := by
  simp [firstOf, List.filter_eq_nil_iff]

/-- A search that ends gives the first tag of the type. -/
theorem findTagFrom_eq (h : TagsAt mem start tags) {r : Option ℕ}
    (hfound : findTagFrom mem type n start = some r) : r = firstOf type tags := by
  induction n generalizing start tags with
  | zero => simp [findTagFrom] at hfound
  | succ n ih =>
    cases tags with
    | nil =>
      simp only [TagsAt] at h
      simp [findTagFrom, h] at hfound
      simp [← hfound, firstOf]
    | cons t tags =>
      obtain ⟨rfl, htype, hne, hsize, hrest⟩ := h
      rw [findTagFrom, ← htype, if_neg hne] at hfound
      by_cases hsame : t.type = type
      · simp [hsame] at hfound
        simp [← hfound, firstOf, hsame]
      · rw [if_neg hsame, ← hsize] at hfound
        simpa [firstOf, hsame] using ih hrest hfound

theorem findTagFrom_total (h : TagsAt mem start tags) (hn : tags.length < n) :
    findTagFrom mem type n start = some (firstOf type tags) := by
  induction tags generalizing start n with
  | nil =>
    obtain ⟨n, rfl⟩ := Nat.exists_eq_add_one_of_ne_zero (by omega : n ≠ 0)
    simp only [TagsAt] at h
    simp [findTagFrom, h, firstOf]
  | cons t tags ih =>
    obtain ⟨n, rfl⟩ := Nat.exists_eq_add_one_of_ne_zero (by omega : n ≠ 0)
    obtain ⟨rfl, htype, hne, hsize, hrest⟩ := h
    rw [findTagFrom, ← htype, if_neg hne]
    by_cases hsame : t.type = type
    · simp [firstOf, hsame]
    · rw [if_neg hsame, ← hsize, ih hrest (by simpa using hn)]
      simp [firstOf, hsame]

/-- A search from a tag of the type itself does not go on. -/
theorem find_self (ha : 8 ∣ a) (htype : load32 mem a = type) (hne : type ≠ 0) :
    multiboot2FindTag mem (n + 1) a type = some (some a) := by
  rw [multiboot2FindTag, skipPadding_of_dvd ha, findTagFrom, htype, if_neg hne, if_pos rfl]

end Search

section Loops

variable {mem} {a : ℕ}

/-- The loop over the modules does not end once it is entered. -/
theorem moduleLoop_none (ha : 8 ∣ a) (htype : load32 mem a = tagTypeModule) (n : ℕ) :
    moduleLoop mem n a = none := by
  induction n with
  | zero => simp [moduleLoop]
  | succ n ih =>
    cases n with
    | zero => simp [moduleLoop, multiboot2FindTag, findTagFrom]
    | succ n =>
      have hself : multiboot2FindTag mem (n + 1) a tagTypeModule = some (some a) :=
        find_self ha htype (by decide)
      rw [moduleLoop, hself]
      simp [ih]

theorem kernelEndLoop_none (ha : 8 ∣ a) (htype : load32 mem a = tagTypeModule) (n : ℕ)
    (kernelEnd : BitVec 64) : kernelEndLoop mem n (some a) kernelEnd = none := by
  induction n generalizing kernelEnd with
  | zero => simp [kernelEndLoop]
  | succ n ih =>
    cases n with
    | zero => simp [kernelEndLoop, multiboot2FindTag, findTagFrom]
    | succ n =>
      have hself : multiboot2FindTag mem (n + 1) a tagTypeModule = some (some a) :=
        find_self ha htype (by decide)
      rw [kernelEndLoop, hself]
      simp [ih]

variable {entrySize : BitVec 32} {stop start : ℕ}

/-- Entries of size 0 are gone over for ever. -/
theorem highestAddress_none (hsize : entrySize = 0) (hstart : start < stop) (n : ℕ)
    (highest : BitVec 64) : highestAddress mem entrySize stop n start highest = none := by
  induction n generalizing highest with
  | zero => simp [highestAddress]
  | succ n ih =>
    have hstay : start + entrySize.toNat = start := by simp [hsize]
    simp only [highestAddress, hstart, if_true, hstay, ih]

theorem entrySize_pos (hsteps : entrySize ≠ 0 ∨ stop ≤ start) (hlt : start < stop) :
    0 < entrySize.toNat := by
  rcases hsteps with hne | hle
  · rw [← BitVec.toNat_ne_iff_ne] at hne
    simpa [Nat.pos_iff_ne_zero] using hne
  · omega

variable (mem) in
theorem highestAddress_total (hsteps : entrySize ≠ 0 ∨ stop ≤ start) {n : ℕ}
    (hn : stop - start < n) (highest : BitVec 64) :
    ∃ r, highestAddress mem entrySize stop n start highest = some r := by
  induction n generalizing start highest with
  | zero => omega
  | succ n ih =>
    by_cases hlt : start < stop
    · have hpos := entrySize_pos hsteps hlt
      simp only [highestAddress, hlt, if_true]
      exact ih (hsteps.imp_right (by omega)) (by omega) _
    · simp [highestAddress, hlt]

variable (mem) in
theorem mmapEntries_total (hsteps : entrySize ≠ 0 ∨ stop ≤ start) {n : ℕ}
    (hn : stop - start < n) : ∃ r, mmapEntries mem entrySize stop n start = some r := by
  induction n generalizing start with
  | zero => omega
  | succ n ih =>
    by_cases hlt : start < stop
    · have hpos := entrySize_pos hsteps hlt
      have hrest : entrySize ≠ 0 ∨ stop ≤ start + entrySize.toNat := hsteps.imp_right (by omega)
      obtain ⟨r, hr⟩ := ih hrest (by omega)
      simp [mmapEntries, hlt, hr]
    · simp [mmapEntries, hlt]

theorem strlen_total {k s n : ℕ} (hzero : mem (s + k) = 0) (hn : k < n) :
    ∃ r, strlen mem n s = some r := by
  induction n generalizing s k with
  | zero => omega
  | succ n ih =>
    by_cases hend : mem s = 0
    · exact ⟨0, by simp [strlen, hend]⟩
    · cases k with
      | zero => contradiction
      | succ k =>
        obtain ⟨r, hr⟩ := ih (s := s + 1) (k := k) (by rwa [Nat.add_right_comm, Nat.add_assoc])
          (by omega)
        exact ⟨r + 1, by simp only [strlen, hend, if_false, hr, Option.map_some]⟩

end Loops

section Parsers

variable {mem} {bootinfo n : ℕ} {tags : List Tag} {type : BitVec 32}

theorem WellFormed.find_eq (h : WellFormed mem bootinfo tags) {r : Option ℕ}
    (hfound : multiboot2FindTag mem n (bootinfo + 8) type = some r) : r = firstOf type tags := by
  have haligned := h.aligned
  rw [multiboot2FindTag, skipPadding_of_dvd (by omega)] at hfound
  exact findTagFrom_eq h.linked hfound

theorem WellFormed.find_total (h : WellFormed mem bootinfo tags) (hn : tags.length < n) :
    multiboot2FindTag mem n (bootinfo + 8) type = some (firstOf type tags) := by
  have haligned := h.aligned
  rw [multiboot2FindTag, skipPadding_of_dvd (by omega), findTagFrom_total h.linked hn]

/-- The first module tag is one where the loops over the modules stay. -/
theorem WellFormed.of_firstOf (h : WellFormed mem bootinfo tags) {a : ℕ}
    (hfirst : firstOf type tags = some a) : 8 ∣ a ∧ load32 mem a = type := by
  obtain ⟨t, ht, rfl, rfl⟩ := exists_of_firstOf hfirst
  have haligned := h.aligned
  exact ⟨h.linked.aligned (by omega) t ht, (h.linked.fields t ht).1.symm⟩

theorem WellFormed.tagString_total (h : WellFormed mem bootinfo tags) (hn : 2 ^ 32 ≤ n)
    (htype : type = tagTypeCmdline ∨ type = tagTypeBootLoaderName) :
    ∃ s, tagString mem n (firstOf type tags) = some s := by
  cases hfirst : firstOf type tags with
  | none => exact ⟨[0], by simp [tagString]⟩
  | some a =>
    obtain ⟨t, ht, rfl, rfl⟩ := exists_of_firstOf hfirst
    obtain ⟨k, hk, hzero⟩ := h.strings t ht htype
    obtain ⟨length, hlength⟩ := strlen_total (n := n) hzero (by omega)
    by_cases hpos : length > 0
    · exact ⟨cutLast (relocateStructure mem (t.address + 8) length), by
        simp [tagString, hlength, hpos]⟩
    · exact ⟨[0], by simp [tagString, hlength, hpos]⟩

variable (mem tags) in
/-- There are a memory map, whose entries have a size, and the basic memory information, and there
is no module, also not in what the block of the parameters held. -/
def Ends (held : Held) : Prop :=
  (∃ mmapTag, firstOf tagTypeMmap tags = some mmapTag ∧
      (load32 mem (mmapTag + 8) ≠ 0 ∨ (load32 mem (mmapTag + 4)).toNat ≤ 16)) ∧
    firstOf tagTypeBasicMeminfo tags ≠ none ∧ firstOf tagTypeModule tags = none ∧
    held.moduleStart = 0

/-- If the early parser returns, it has a memory map to go over and no module to look for. -/
theorem mmap_of_early (h : WellFormed mem bootinfo tags) {kernelEnd : BitVec 64}
    {found : BitVec 64 × BitVec 64}
    (hearly : archParseMultiboot2Early mem kernelEnd n bootinfo = some (.returned found)) :
    firstOf tagTypeModule tags = none ∧ ∃ mmapTag, firstOf tagTypeMmap tags = some mmapTag ∧
      (load32 mem (mmapTag + 8) ≠ 0 ∨ (load32 mem (mmapTag + 4)).toNat ≤ 16) := by
  obtain ⟨found, hfound, hearly⟩ := Option.bind_eq_some_iff.mp hearly
  cases hmmap : firstOf tagTypeMmap tags with
  | none =>
    obtain rfl := (h.find_eq hfound).trans hmmap
    simp at hearly
  | some mmapTag =>
    obtain rfl := (h.find_eq hfound).trans hmmap
    obtain ⟨highest, hhighest, hearly⟩ := Option.bind_eq_some_iff.mp hearly
    obtain ⟨modTag, hmodTag, hearly⟩ := Option.bind_eq_some_iff.mp hearly
    obtain ⟨modEnd, hmodEnd, -⟩ := Option.bind_eq_some_iff.mp hearly
    obtain rfl := h.find_eq hmodTag
    refine ⟨?_, mmapTag, rfl, ?_⟩
    · cases hfirst : firstOf tagTypeModule tags with
      | none => rfl
      | some a =>
        obtain ⟨ha, htype⟩ := h.of_firstOf hfirst
        rw [hfirst, kernelEndLoop_none ha htype] at hmodEnd
        contradiction
    · by_contra hstuck
      simp only [not_or, not_not, not_le] at hstuck
      rw [highestAddress_none hstuck.1 (by omega)] at hhighest
      contradiction

/-- If the parser returns, it has the basic memory information, and without a module tag it does
not write the list of modules. -/
theorem meminfo_of_parsed (h : WellFormed mem bootinfo tags) {parameters : Parameters}
    (hparsed : archParseMultiboot2 mem n bootinfo = some (.returned parameters)) :
    firstOf tagTypeBasicMeminfo tags ≠ none ∧
      (firstOf tagTypeModule tags = none → parameters.modules = none) := by
  obtain ⟨mmapTag, -, hparsed⟩ := Option.bind_eq_some_iff.mp hparsed
  cases mmapTag with
  | none => simp at hparsed
  | some mmapTag =>
    obtain ⟨entries, -, hparsed⟩ := Option.bind_eq_some_iff.mp hparsed
    obtain ⟨meminfoTag, hmeminfo, hparsed⟩ := Option.bind_eq_some_iff.mp hparsed
    obtain rfl := h.find_eq hmeminfo
    cases hfirst : firstOf tagTypeBasicMeminfo tags with
    | none =>
      simp [hfirst] at hparsed
    | some meminfoTag =>
      rw [hfirst] at hparsed
      obtain ⟨modTag, hmodTag, hparsed⟩ := Option.bind_eq_some_iff.mp hparsed
      obtain ⟨modules, hmodules, hparsed⟩ := Option.bind_eq_some_iff.mp hparsed
      obtain ⟨fbTag, -, hparsed⟩ := Option.bind_eq_some_iff.mp hparsed
      obtain ⟨cmdline, -, hparsed⟩ := Option.bind_eq_some_iff.mp hparsed
      obtain ⟨bootldr, -, hparsed⟩ := Option.bind_eq_some_iff.mp hparsed
      obtain ⟨kernelCmdline, -, hparsed⟩ := Option.bind_eq_some_iff.mp hparsed
      obtain ⟨bootloaderName, -, hparsed⟩ := Option.bind_eq_some_iff.mp hparsed
      simp only [Option.some.injEq, Ending.returned.injEq] at hparsed
      subst hparsed
      refine ⟨by simp, fun hnone => ?_⟩
      rw [h.find_eq hmodTag, hnone] at hmodules
      exact (Option.some.inj hmodules).symm

theorem ends_of_complete (h : WellFormed mem bootinfo tags) {held : Held} {kernelEnd : BitVec 64}
    (hcomplete : Complete mem held kernelEnd bootinfo tags) : Ends mem tags held := by
  obtain ⟨n, parameters, modules, hparsed, hlist, -⟩ := hcomplete.parsed
  obtain ⟨m, found, hearly⟩ := hcomplete.early
  obtain ⟨hmodule, hmmap⟩ := mmap_of_early h hearly
  obtain ⟨hmeminfo, hunwritten⟩ := meminfo_of_parsed h hparsed
  simp [Parameters.moduleList, hunwritten hmodule] at hlist
  exact ⟨hmmap, hmeminfo, hmodule, hlist.1⟩

theorem early_of_ends (h : WellFormed mem bootinfo tags) {held : Held} (hends : Ends mem tags held)
    (hn : tags.length < n) (hbytes : 2 ^ 32 ≤ n) (kernelEnd : BitVec 64) :
    ∃ found, archParseMultiboot2Early mem kernelEnd n bootinfo = some (.returned found) := by
  obtain ⟨⟨mmapTag, hmmap, hsteps⟩, -, hmodule, -⟩ := hends
  obtain ⟨n, rfl⟩ := Nat.exists_eq_add_one_of_ne_zero (by omega : n ≠ 0)
  have hpast : load32 mem (mmapTag + 8) ≠ 0 ∨
      mmapTag + (load32 mem (mmapTag + 4)).toNat ≤ mmapTag + 16 := hsteps.imp_right (by omega)
  have hrounds : mmapTag + (load32 mem (mmapTag + 4)).toNat - (mmapTag + 16) < n + 1 := by omega
  obtain ⟨highest, hhighest⟩ := highestAddress_total mem hpast hrounds 0
  refine ⟨(highest, kernelEnd), ?_⟩
  unfold archParseMultiboot2Early
  rw [h.find_total hn, h.find_total hn, hmmap]
  simp only [Option.bind_eq_bind, Option.bind_some, hhighest, hmodule, kernelEndLoop]

theorem parsed_of_ends (h : WellFormed mem bootinfo tags) {held : Held}
    (hends : Ends mem tags held) (hn : tags.length < n) (hbytes : 2 ^ 32 ≤ n) :
    ∃ parameters, archParseMultiboot2 mem n bootinfo = some (.returned parameters) ∧
      parameters.modules = none := by
  obtain ⟨⟨mmapTag, hmmap, hsteps⟩, hmeminfo, hmodule, -⟩ := hends
  obtain ⟨meminfoTag, hmeminfo⟩ := Option.ne_none_iff_exists'.mp hmeminfo
  have hpast : load32 mem (mmapTag + 8) ≠ 0 ∨
      mmapTag + (load32 mem (mmapTag + 4)).toNat ≤ mmapTag + 16 := hsteps.imp_right (by omega)
  have hrounds : mmapTag + (load32 mem (mmapTag + 4)).toNat - (mmapTag + 16) < n := by omega
  obtain ⟨entries, hentries⟩ := mmapEntries_total mem hpast hrounds
  obtain ⟨cmdline, hcmdline⟩ := h.tagString_total (n := n) hbytes (.inl rfl)
  obtain ⟨bootldr, hbootldr⟩ := h.tagString_total (n := n) hbytes (.inr rfl)
  unfold archParseMultiboot2
  simp only [h.find_total hn, hmmap, hmeminfo, hmodule, hentries, modulesFrom, hcmdline, hbootldr,
    Option.bind_eq_bind, Option.bind_some]
  exact ⟨_, rfl, rfl⟩

/-- The parsers of the second protocol return with all modules if and only if there are none, also
not in the memory that the parameters get, and the tags that the parsers need are there. -/
theorem complete_iff_ends (h : WellFormed mem bootinfo tags) (held : Held)
    (kernelEnd : BitVec 64) : Complete mem held kernelEnd bootinfo tags ↔ Ends mem tags held := by
  refine ⟨ends_of_complete h, fun hends => ?_⟩
  obtain ⟨n, hn, hbytes⟩ : ∃ n, tags.length < n ∧ 2 ^ 32 ≤ n :=
    ⟨tags.length + 2 ^ 32, by omega, by omega⟩
  obtain ⟨parameters, hparsed, hunwritten⟩ := parsed_of_ends h hends hn hbytes
  obtain ⟨found, hearly⟩ := early_of_ends h hends hn hbytes kernelEnd
  refine ⟨⟨n, parameters, [], hparsed, ?_, ?_⟩, n, found, hearly⟩
  · simp [Parameters.moduleList, hunwritten, hends.2.2.2]
  · rw [firstOf_eq_none.mp hends.2.2.1]
    exact .nil

end Parsers

section Blocks

def mapped : List Byte :=
  bytes32 96 ++ bytes32 0 ++
    (bytes32 6 ++ bytes32 40 ++ bytes32 24 ++ bytes32 0) ++
    (bytes32 0x100000 ++ bytes32 0 ++ bytes32 0x1000 ++ bytes32 0 ++ bytes32 1 ++ bytes32 0) ++
    (bytes32 4 ++ bytes32 16 ++ bytes32 640 ++ bytes32 1024)

def mappedTags : List Tag := [⟨8, 6, 40⟩, ⟨48, 4, 16⟩]

/-- A block without modules, where the memory that the parameters get has no module either. -/
theorem mapped_complete :
    Complete (ofList mapped fun _ => 0) ⟨0, 7, ⟨7, 7, 7⟩, 7⟩ 0 0 mappedTags := by
  have hblock : WellFormed (ofList mapped fun _ => 0) 0 mappedTags :=
    ⟨by decide, by decide +kernel, by simp [mappedTags, tagTypeCmdline, tagTypeBootLoaderName]⟩
  refine (complete_iff_ends hblock _ 0).mpr ⟨⟨8, by decide, .inl ?_⟩, by decide, by decide, rfl⟩
  decide +kernel

def withModule : List Byte :=
  mapped ++ (bytes32 3 ++ bytes32 18 ++ bytes32 0x200 ++ bytes32 0x201 ++ [97, 0])

def withModuleTags : List Tag := mappedTags ++ [⟨64, 3, 18⟩]

/-- A module is enough for the parsers not to return, whatever the memory of the parameters held. -/
theorem module_never_parsed :
    WellFormed (ofList withModule fun _ => 0) 0 withModuleTags ∧
      ∀ held, ¬ Complete (ofList withModule fun _ => 0) held 0 0 withModuleTags := by
  have hblock : WellFormed (ofList withModule fun _ => 0) 0 withModuleTags :=
    ⟨by decide, by decide +kernel,
      by simp [withModuleTags, mappedTags, tagTypeCmdline, tagTypeBootLoaderName]⟩
  refine ⟨hblock, fun held hcomplete => ?_⟩
  have hmodule := (ends_of_complete hblock hcomplete).2.2.1
  contradiction

end Blocks

end ReduceOS.BootTags
