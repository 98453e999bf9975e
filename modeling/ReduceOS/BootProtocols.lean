import ReduceOS.BootTags
import Mathlib.Data.List.Forall2

/-!
The two boot protocols with the same content. An encoding is any memory that holds the content in
the layout of the protocol, and a parser shows the content if its parameters hold the same strings,
modules and memory map.
-/
namespace ReduceOS.BootProtocols

open Inet Multiboot BootTags

structure BootModule where
  cmdline : List Byte
  contents : List Byte

structure Region where
  address : BitVec 64
  length : BitVec 64
  type : BitVec 32

structure BootContent where
  cmdline : List Byte
  bootloader : List Byte
  modules : List BootModule
  memoryMap : List Region

def StringAt (mem : ℕ → Byte) : ℕ → List Byte → Prop
  | s, [] => mem s = 0
  | s, c :: string => mem s = c ∧ c ≠ 0 ∧ StringAt mem (s + 1) string

instance decidableStringAt (mem : ℕ → Byte) : ∀ s string, Decidable (StringAt mem s string)
  | s, [] => inferInstanceAs (Decidable (mem s = 0))
  | s, _ :: string =>
    have := decidableStringAt mem (s + 1) string
    inferInstanceAs (Decidable (_ ∧ _ ∧ _))

def Region.descriptor (r : Region) : Descriptor := ⟨r.address, r.length, genericType r.type⟩

def ContentsAt (mem : ℕ → Byte) (modStart modEnd : BitVec 32) (contents : List Byte) : Prop :=
  modStart ≤ modEnd ∧ contents = loadBytes mem modStart.toNat (modEnd - modStart).toNat

section First

variable (mem : ℕ → Byte)

def Entries1 (stop : ℕ) : ℕ → List Region → Prop
  | mmap, [] => mmap = stop
  | mmap, r :: regions => mmap < stop ∧ r.address = load64 mem (mmap + 4) ∧
      r.length = load64 mem (mmap + 12) ∧ r.type = load32 mem (mmap + 20) ∧
      Entries1 stop (mmap + (load32 mem mmap).toNat + 4) regions

instance decidableEntries1 (stop : ℕ) :
    ∀ mmap regions, Decidable (Entries1 mem stop mmap regions)
  | mmap, [] => inferInstanceAs (Decidable (mmap = stop))
  | mmap, _ :: regions =>
    have := decidableEntries1 stop (mmap + (load32 mem mmap).toNat + 4) regions
    inferInstanceAs (Decidable (_ ∧ _ ∧ _ ∧ _ ∧ _))

structure Encoded1 (bootinfo : ℕ) (c : BootContent) : Prop where
  flags : load32 mem bootinfo &&& 0x040 ≠ 0
  cmdline : StringAt mem (load32 mem (bootinfo + 16)).toNat c.cmdline
  bootloader : StringAt mem (load32 mem (bootinfo + 64)).toNat c.bootloader
  count : (load32 mem (bootinfo + 20)).toNat = c.modules.length
  modules : ∀ i, ∀ hi : i < c.modules.length,
    let module := (load32 mem (bootinfo + 24)).toNat + 16 * i
    StringAt mem (load32 mem (module + 8)).toNat c.modules[i].cmdline ∧
      ContentsAt mem (load32 mem module) (load32 mem (module + 4)) c.modules[i].contents
  memoryMap : Entries1 mem (load32 mem (bootinfo + 48) + load32 mem (bootinfo + 44)).toNat
    (load32 mem (bootinfo + 48)).toNat c.memoryMap

end First

section Second

variable (mem : ℕ → Byte)

def Entries2 (entrySize : BitVec 32) (stop : ℕ) : ℕ → List Region → Prop
  | mmap, [] => mmap = stop
  | mmap, r :: regions => mmap < stop ∧ r.address = load64 mem mmap ∧
      r.length = load64 mem (mmap + 8) ∧ r.type = load32 mem (mmap + 16) ∧
      Entries2 entrySize stop (mmap + entrySize.toNat) regions

instance decidableEntries2 (entrySize : BitVec 32) (stop : ℕ) :
    ∀ mmap regions, Decidable (Entries2 mem entrySize stop mmap regions)
  | mmap, [] => inferInstanceAs (Decidable (mmap = stop))
  | mmap, _ :: regions =>
    have := decidableEntries2 entrySize stop (mmap + entrySize.toNat) regions
    inferInstanceAs (Decidable (_ ∧ _ ∧ _ ∧ _ ∧ _))

structure Encoded2 (bootinfo : ℕ) (tags : List Tag) (c : BootContent) : Prop where
  block : WellFormed mem bootinfo tags
  cmdline : ∃ a, firstOf tagTypeCmdline tags = some a ∧ StringAt mem (a + 8) c.cmdline
  bootloader : ∃ a, firstOf tagTypeBootLoaderName tags = some a ∧ StringAt mem (a + 8) c.bootloader
  modules : List.Forall₂ (fun (t : Tag) m => StringAt mem (t.address + 16) m.cmdline ∧
      ContentsAt mem (load32 mem (t.address + 8)) (load32 mem (t.address + 12)) m.contents)
    (tags.filter (·.type = tagTypeModule)) c.modules
  meminfo : firstOf tagTypeBasicMeminfo tags ≠ none
  memoryMap : ∃ a, firstOf tagTypeMmap tags = some a ∧
    Entries2 mem (load32 mem (a + 8)) (a + (load32 mem (a + 4)).toNat) (a + 16) c.memoryMap

end Second

section Agreement

/-- The string that a pointer to a buffer stands for, and what the null pointer stands for. -/
def text (null : Option (List Byte)) : Option (List Byte) → Option (List Byte)
  | none => null
  | some buffer => some (chars buffer)

structure Shows (null : Option (List Byte)) (p : Parameters) (c : BootContent) : Prop where
  cmdline : text null p.kernelCmdline = some c.cmdline
  bootloader : text null p.bootloaderName = some c.bootloader
  modules : (p.moduleList .zeros).map (·.map fun m => ⟨chars m.cmdline, m.contents⟩) =
    some c.modules
  memoryMap : p.mmapList .zeros = some (c.memoryMap.map Region.descriptor)

def Parses (null : Option (List Byte)) (parser : ℕ → Option (Ending Parameters))
    (c : BootContent) : Prop :=
  ∃ n p, parser n = some (.returned p) ∧ Shows null p c

end Agreement

section Strings

variable {mem : ℕ → Byte} {s n : ℕ} {string : List Byte}

theorem chars_append (h : 0 ∉ string) (rest : List Byte) :
    chars (string ++ rest) = string ++ chars rest := by
  refine List.takeWhile_append_of_pos fun b hb => ?_
  simpa using fun heq : b = 0 => h (heq ▸ hb)

theorem chars_eq_self (h : 0 ∉ string) : chars string = string := by
  simpa [chars] using chars_append h []

theorem loadBytes_succ (n : ℕ) : loadBytes mem s (n + 1) = mem s :: loadBytes mem (s + 1) n := by
  simp [loadBytes, List.range_succ_eq_map, Nat.add_comm, Nat.add_left_comm]

theorem StringAt.zero_notMem (h : StringAt mem s string) : 0 ∉ string := by
  induction string generalizing s with
  | nil => simp
  | cons c string ih =>
    obtain ⟨-, hne, hrest⟩ := h
    exact List.not_mem_cons_of_ne_of_not_mem hne.symm (ih hrest)

theorem StringAt.relocate (h : StringAt mem s string) :
    relocateStructure mem s string.length = string := by
  induction string generalizing s with
  | nil => simp [relocateStructure, loadBytes]
  | cons c string ih =>
    obtain ⟨rfl, -, hrest⟩ := h
    rw [relocateStructure, List.length_cons, loadBytes_succ]
    exact congrArg _ (ih hrest)

theorem StringAt.strlen_total (h : StringAt mem s string) (hn : string.length < n) :
    strlen mem n s = some string.length := by
  induction string generalizing s n with
  | nil =>
    obtain ⟨n, rfl⟩ := Nat.exists_eq_add_one_of_ne_zero (by omega : n ≠ 0)
    simp only [StringAt] at h
    simp [strlen, h]
  | cons c string ih =>
    obtain ⟨n, rfl⟩ := Nat.exists_eq_add_one_of_ne_zero (by omega : n ≠ 0)
    obtain ⟨rfl, hne, hrest⟩ := h
    rw [strlen, if_neg hne, ih hrest (by simpa using hn)]
    simp

theorem StringAt.strlen_eq (h : StringAt mem s string) {k : ℕ} (hk : strlen mem n s = some k) :
    k = string.length := by
  induction string generalizing s n k with
  | nil =>
    cases n with
    | zero => simp [strlen] at hk
    | succ n =>
      simp only [StringAt] at h
      simpa [strlen, h, eq_comm] using hk
  | cons c string ih =>
    cases n with
    | zero => simp [strlen] at hk
    | succ n =>
      obtain ⟨rfl, hne, hrest⟩ := h
      rw [strlen, if_neg hne] at hk
      obtain ⟨rest, hlength, rfl⟩ := Option.map_eq_some_iff.mp hk
      simp [ih hrest hlength]

theorem chars_cutLast (h : 0 ∉ string) : chars (cutLast string) = string.dropLast := by
  rcases List.eq_nil_or_concat' string with rfl | ⟨before, last, rfl⟩
  · simp [cutLast, chars]
  · have hbefore : 0 ∉ before := by
      simp only [List.mem_append, not_or] at h
      exact h.1
    have hset : (before ++ [last]).set before.length 0 = before ++ [0] := by simp
    rw [cutLast, chars_eq_self h, if_neg (by simp), List.length_append, List.length_singleton,
      Nat.add_sub_cancel, hset, chars_append hbefore, List.dropLast_concat]
    simp [chars]

end Strings

section MemoryMap

variable {mem : ℕ → Byte} {entrySize : BitVec 32} {stop mmap n : ℕ} {regions : List Region}

theorem mmapEntries_of_encoded (h : Entries2 mem entrySize stop mmap regions)
    (hn : regions.length < n) :
    mmapEntries mem entrySize stop n mmap = some (regions.map Region.descriptor) := by
  induction regions generalizing mmap n with
  | nil =>
    obtain ⟨n, rfl⟩ := Nat.exists_eq_add_one_of_ne_zero (by omega : n ≠ 0)
    simp only [Entries2] at h
    simp [mmapEntries, h]
  | cons r regions ih =>
    obtain ⟨n, rfl⟩ := Nat.exists_eq_add_one_of_ne_zero (by omega : n ≠ 0)
    obtain ⟨hlt, haddress, hlength, htype, hrest⟩ := h
    rw [mmapEntries, if_pos hlt, ih hrest (by simpa using hn)]
    simp [Region.descriptor, haddress, hlength, htype]

theorem encoded_of_mmapEntries (h : Entries2 mem entrySize stop mmap regions)
    {entries : List Descriptor}
    (hentries : mmapEntries mem entrySize stop n mmap = some entries) :
    entries = regions.map Region.descriptor := by
  induction regions generalizing mmap n entries with
  | nil =>
    cases n with
    | zero => simp [mmapEntries] at hentries
    | succ n =>
      simp only [Entries2] at h
      simpa [mmapEntries, h, eq_comm] using hentries
  | cons r regions ih =>
    cases n with
    | zero => simp [mmapEntries] at hentries
    | succ n =>
      obtain ⟨hlt, haddress, hlength, htype, hrest⟩ := h
      rw [mmapEntries, if_pos hlt] at hentries
      obtain ⟨more, hmore, rfl⟩ := Option.map_eq_some_iff.mp hentries
      simp [Region.descriptor, haddress, hlength, htype, ih hrest hmore]

theorem mmapEntries1_of_encoded (h : Entries1 mem stop mmap regions) (hn : regions.length < n) :
    mmapEntries1 mem stop n mmap = some (regions.map Region.descriptor) := by
  induction regions generalizing mmap n with
  | nil =>
    obtain ⟨n, rfl⟩ := Nat.exists_eq_add_one_of_ne_zero (by omega : n ≠ 0)
    simp only [Entries1] at h
    simp [mmapEntries1, h]
  | cons r regions ih =>
    obtain ⟨n, rfl⟩ := Nat.exists_eq_add_one_of_ne_zero (by omega : n ≠ 0)
    obtain ⟨hlt, haddress, hlength, htype, hrest⟩ := h
    rw [mmapEntries1, if_pos hlt, ih hrest (by simpa using hn)]
    simp [Region.descriptor, haddress, hlength, htype]

/-- The descriptors hold a memory map if and only if it has an entry. -/
theorem mmapList_eq_iff {p : Parameters} (h : p.mmap = regions.map Region.descriptor) :
    p.mmapList .zeros = some (regions.map Region.descriptor) ↔ regions ≠ [] := by
  cases regions <;> simp [Parameters.mmapList, Held.zeros, h]

end MemoryMap

section Parsers

variable {mem mem1 mem2 : ℕ → Byte} {bootinfo bootinfo1 bootinfo2 n : ℕ} {tags : List Tag}
variable {c : BootContent} {null : Option (List Byte)} {p : Parameters}

/-- A string tag comes out right only if its string is empty. -/
theorem tagString_eq_iff {a : ℕ} {string buffer : List Byte} (h : StringAt mem (a + 8) string)
    (hbuffer : tagString mem n (some a) = some buffer) :
    chars buffer = string ↔ string = [] := by
  obtain ⟨length, hlength, hbuffer⟩ := Option.bind_eq_some_iff.mp hbuffer
  obtain rfl := h.strlen_eq hlength
  rw [h.relocate] at hbuffer
  rcases List.eq_nil_or_concat' string with rfl | ⟨before, last, rfl⟩
  · simp at hbuffer
    simp [← hbuffer, chars]
  · simp only [List.length_append, List.length_singleton, gt_iff_lt, Nat.zero_lt_succ, if_true,
      Option.some.injEq] at hbuffer
    simp [← hbuffer, chars_cutLast h.zero_notMem]

theorem tagString_nil {a : ℕ} (h : StringAt mem (a + 8) []) (hn : 0 < n) :
    tagString mem n (some a) = some [0] := by
  simp [tagString, h.strlen_total hn]

variable (null) in
theorem parsed2_fields (h : Encoded2 mem bootinfo tags c)
    (hparsed : archParseMultiboot2 mem n bootinfo = some (.returned p)) :
    c.modules = [] ∧ p.modules = none ∧
      (text null p.kernelCmdline = some c.cmdline ↔ c.cmdline = []) ∧
      (text null p.bootloaderName = some c.bootloader ↔ c.bootloader = []) ∧
      (p.mmapList .zeros = some (c.memoryMap.map Region.descriptor) ↔ c.memoryMap ≠ []) := by
  obtain ⟨mmapTag, hmmap, hmap⟩ := h.memoryMap
  obtain ⟨cmdlineTag, hcmdline, hcmdlineAt⟩ := h.cmdline
  obtain ⟨bootldrTag, hbootldr, hbootldrAt⟩ := h.bootloader
  obtain ⟨meminfoTag, hmeminfo⟩ := Option.ne_none_iff_exists'.mp h.meminfo
  obtain ⟨found, hfound, hparsed⟩ := Option.bind_eq_some_iff.mp hparsed
  obtain rfl := (h.block.find_eq hfound).trans hmmap
  obtain ⟨entries, hentries, hparsed⟩ := Option.bind_eq_some_iff.mp hparsed
  obtain ⟨found, hfound, hparsed⟩ := Option.bind_eq_some_iff.mp hparsed
  obtain rfl := (h.block.find_eq hfound).trans hmeminfo
  obtain ⟨modTag, hmodTag, hparsed⟩ := Option.bind_eq_some_iff.mp hparsed
  obtain rfl := h.block.find_eq hmodTag
  obtain ⟨modules, hmodules, hparsed⟩ := Option.bind_eq_some_iff.mp hparsed
  obtain ⟨fbTag, -, hparsed⟩ := Option.bind_eq_some_iff.mp hparsed
  obtain ⟨found, hfound, hparsed⟩ := Option.bind_eq_some_iff.mp hparsed
  obtain rfl := (h.block.find_eq hfound).trans hcmdline
  obtain ⟨found, hfound, hparsed⟩ := Option.bind_eq_some_iff.mp hparsed
  obtain rfl := (h.block.find_eq hfound).trans hbootldr
  obtain ⟨kernelCmdline, hkernel, hparsed⟩ := Option.bind_eq_some_iff.mp hparsed
  obtain ⟨bootloaderName, hname, hparsed⟩ := Option.bind_eq_some_iff.mp hparsed
  simp only [Option.some.injEq, Ending.returned.injEq] at hparsed
  subst hparsed
  have hnone : firstOf tagTypeModule tags = none := by
    cases hfirst : firstOf tagTypeModule tags with
    | none => rfl
    | some a =>
      obtain ⟨ha, htype⟩ := h.block.of_firstOf hfirst
      simp [hfirst, modulesFrom, moduleLoop_none ha htype] at hmodules
  have hempty : modules = none := by simpa [hnone, modulesFrom, eq_comm] using hmodules
  have hencoded := h.modules
  rw [firstOf_eq_none.mp hnone, List.forall₂_nil_left_iff] at hencoded
  refine ⟨hencoded, hempty, ?_, ?_, ?_⟩
  · simpa [text] using tagString_eq_iff hcmdlineAt hkernel
  · simpa [text] using tagString_eq_iff hbootldrAt hname
  · exact mmapList_eq_iff (encoded_of_mmapEntries hmap hentries)

def Plain (c : BootContent) : Prop :=
  c.cmdline = [] ∧ c.bootloader = [] ∧ c.modules = [] ∧ c.memoryMap ≠ []

theorem plain_of_parses2 (h : Encoded2 mem bootinfo tags c)
    (hparses : Parses null (archParseMultiboot2 mem · bootinfo) c) : Plain c := by
  obtain ⟨n, p, hparsed, hshows⟩ := hparses
  obtain ⟨hmodules, -, hcmdline, hbootloader, hmap⟩ := parsed2_fields null h hparsed
  exact ⟨hcmdline.mp hshows.cmdline, hbootloader.mp hshows.bootloader, hmodules,
    hmap.mp hshows.memoryMap⟩

theorem parses2_of_plain (h : Encoded2 mem bootinfo tags c) (hplain : Plain c) :
    Parses null (archParseMultiboot2 mem · bootinfo) c := by
  obtain ⟨hcmdline, hbootloader, hmodules, hmapped⟩ := hplain
  obtain ⟨mmapTag, hmmap, hmap⟩ := h.memoryMap
  obtain ⟨cmdlineTag, hcmdlineTag, hcmdlineAt⟩ := h.cmdline
  obtain ⟨bootldrTag, hbootldrTag, hbootldrAt⟩ := h.bootloader
  obtain ⟨meminfoTag, hmeminfo⟩ := Option.ne_none_iff_exists'.mp h.meminfo
  have hnone : firstOf tagTypeModule tags = none := by
    have hencoded := h.modules
    rw [hmodules, List.forall₂_nil_right_iff] at hencoded
    exact firstOf_eq_none.mpr hencoded
  obtain ⟨n, hn, hentries⟩ : ∃ n, tags.length < n ∧ c.memoryMap.length < n :=
    ⟨tags.length + c.memoryMap.length + 1, by omega, by omega⟩
  rw [hcmdline] at hcmdlineAt
  rw [hbootloader] at hbootldrAt
  have hparsed : ∃ p, archParseMultiboot2 mem n bootinfo = some (.returned p) := by
    unfold archParseMultiboot2
    simp only [h.block.find_total hn, hmmap, hmeminfo, hnone, hcmdlineTag, hbootldrTag,
      mmapEntries_of_encoded hmap hentries, tagString_nil hcmdlineAt (by omega : 0 < n),
      tagString_nil hbootldrAt (by omega : 0 < n), modulesFrom, Option.bind_eq_bind,
      Option.bind_some]
    exact ⟨_, rfl⟩
  obtain ⟨p, hparsed⟩ := hparsed
  obtain ⟨-, hempty, hkernel, hname, hmmaps⟩ := parsed2_fields null h hparsed
  refine ⟨n, p, hparsed, hkernel.mpr hcmdline, hname.mpr hbootloader, ?_, hmmaps.mpr hmapped⟩
  simp [Parameters.moduleList, hempty, hmodules, Held.zeros]

/-- The first parser gives the null pointer for an empty string. -/
theorem copiedString_nil {s : ℕ} (h : StringAt mem s []) (hn : 0 < n) :
    copiedString mem n s = some none := by
  simp [copiedString, h.strlen_total hn]

theorem parses1_of_plain (h : Encoded1 mem bootinfo c) (hplain : Plain c) :
    Parses (some []) (archParseMultiboot1 mem · bootinfo) c := by
  obtain ⟨hcmdline, hbootloader, hmodules, hmapped⟩ := hplain
  have hcmdlineAt := h.cmdline
  have hbootldrAt := h.bootloader
  have hcount := h.count
  rw [hcmdline] at hcmdlineAt
  rw [hbootloader] at hbootldrAt
  rw [hmodules, List.length_nil] at hcount
  have hpos : 0 < c.memoryMap.length + 1 := by omega
  have hparsed : ∃ p, archParseMultiboot1 mem (c.memoryMap.length + 1) bootinfo =
      some (.returned p) ∧ p.kernelCmdline = none ∧ p.bootloaderName = none ∧ p.modules = none ∧
        p.mmap = c.memoryMap.map Region.descriptor := by
    unfold archParseMultiboot1
    simp only [copiedString_nil hcmdlineAt hpos, copiedString_nil hbootldrAt hpos, hcount,
      modules1, h.flags, mmapEntries1_of_encoded h.memoryMap (Nat.lt_succ_self _), if_false,
      Option.bind_eq_bind, Option.bind_some]
    exact ⟨_, rfl, rfl, rfl, rfl, rfl⟩
  obtain ⟨p, hparsed, hkernel, hname, hempty, hmmap⟩ := hparsed
  refine ⟨_, p, hparsed, ?_, ?_, ?_, ?_⟩
  · rw [hkernel, hcmdline, text]
  · rw [hname, hbootloader, text]
  · simp [Parameters.moduleList, hempty, hmodules, Held.zeros]
  · exact (mmapList_eq_iff hmmap).mpr hmapped

/-- The first parser does not give an empty command line as a string. -/
theorem not_parses1 (h : Encoded1 mem bootinfo c) (hcmdline : c.cmdline = []) :
    ¬ Parses none (archParseMultiboot1 mem · bootinfo) c := by
  rintro ⟨n, p, hparsed, hshows⟩
  have hcmdlineAt := h.cmdline
  rw [hcmdline] at hcmdlineAt
  obtain ⟨kernelCmdline, hkernel, hparsed⟩ := Option.bind_eq_some_iff.mp hparsed
  obtain ⟨length, hlength, hkernel⟩ := Option.bind_eq_some_iff.mp hkernel
  obtain rfl := hcmdlineAt.strlen_eq hlength
  simp only [List.length_nil, gt_iff_lt, Nat.lt_irrefl, if_false, Option.some.injEq] at hkernel
  subst hkernel
  obtain ⟨bootloaderName, -, hparsed⟩ := Option.bind_eq_some_iff.mp hparsed
  obtain ⟨modules, -, hparsed⟩ := Option.bind_eq_some_iff.mp hparsed
  rw [if_neg h.flags] at hparsed
  obtain ⟨entries, -, hparsed⟩ := Option.bind_eq_some_iff.mp hparsed
  simp only [Option.some.injEq, Ending.returned.injEq] at hparsed
  have hshown := hshows.cmdline
  rw [← hparsed] at hshown
  contradiction

/-- The parsers agree with each other and with the content if and only if all of it but the
memory map is empty, and then only if the null pointer is taken for the empty string. -/
theorem parsers_agree_iff (h1 : Encoded1 mem1 bootinfo1 c) (h2 : Encoded2 mem2 bootinfo2 tags c) :
    ¬ (Parses none (archParseMultiboot1 mem1 · bootinfo1) c ∧
        Parses none (archParseMultiboot2 mem2 · bootinfo2) c) ∧
      (Parses (some []) (archParseMultiboot1 mem1 · bootinfo1) c ∧
          Parses (some []) (archParseMultiboot2 mem2 · bootinfo2) c ↔
        c.cmdline = [] ∧ c.bootloader = [] ∧ c.modules = [] ∧ c.memoryMap ≠ []) := by
  refine ⟨fun hboth => ?_, fun hboth => ?_, fun hplain => ?_⟩
  · exact not_parses1 h1 (plain_of_parses2 h2 hboth.2).1 hboth.1
  · exact plain_of_parses2 h2 hboth.2
  · exact ⟨parses1_of_plain h1 hplain, parses2_of_plain h2 hplain⟩

end Parsers

section Contents

def booted (cmdline : List Byte) : BootContent := ⟨cmdline, [], [], [⟨0x100000, 0x1000, 1⟩]⟩

/-- The content in the layout of the first protocol, from address 0 on. -/
def layout1 (cmdline : List Byte) : List Byte :=
  bytes32 0x40 ++ bytes32 640 ++ bytes32 1024 ++ bytes32 0 ++ bytes32 137 ++
    List.replicate 24 0 ++ bytes32 24 ++ bytes32 112 ++ List.replicate 12 0 ++ bytes32 136 ++
    List.replicate 44 0 ++ (bytes32 20 ++ bytes32 0x100000 ++ bytes32 0 ++ bytes32 0x1000 ++
    bytes32 0 ++ bytes32 1) ++ [0] ++ cmdline ++ [0]

def layout2 (cmdline : List Byte) : List Byte :=
  mapped ++ (bytes32 2 ++ bytes32 9 ++ List.replicate 8 0) ++
    (bytes32 1 ++ bytes32 (BitVec.ofNat 32 (cmdline.length + 9)) ++ cmdline ++ [0])

def layoutTags (cmdline : List Byte) : List Tag :=
  mappedTags ++ [⟨64, 2, 9⟩, ⟨80, 1, BitVec.ofNat 32 (cmdline.length + 9)⟩]

theorem encoded1_empty : Encoded1 (ofList (layout1 []) fun _ => 0) 0 (booted []) :=
  ⟨by decide +kernel, by decide +kernel, by decide +kernel, by decide +kernel,
    fun i hi => absurd hi (by simp [booted]), by decide +kernel⟩

theorem encoded2_empty :
    Encoded2 (ofList (layout2 []) fun _ => 0) 0 (layoutTags []) (booted []) := by
  refine ⟨⟨by decide, by decide +kernel, ?_⟩, ⟨80, by decide, by decide +kernel⟩,
    ⟨64, by decide, by decide +kernel⟩, .nil, by decide, 8, by decide, by decide +kernel⟩
  simp only [layoutTags, mappedTags, List.cons_append, List.nil_append, List.forall_mem_cons]
  exact ⟨by simp [tagTypeCmdline, tagTypeBootLoaderName],
    by simp [tagTypeCmdline, tagTypeBootLoaderName], fun _ => ⟨0, by decide, by decide +kernel⟩,
    fun _ => ⟨0, by decide, by decide +kernel⟩, by simp⟩

theorem parsers_agree_empty :
    ¬ (Parses none (archParseMultiboot1 (ofList (layout1 []) fun _ => 0) · 0) (booted []) ∧
        Parses none (archParseMultiboot2 (ofList (layout2 []) fun _ => 0) · 0) (booted [])) ∧
      Parses (some []) (archParseMultiboot1 (ofList (layout1 []) fun _ => 0) · 0) (booted []) ∧
        Parses (some []) (archParseMultiboot2 (ofList (layout2 []) fun _ => 0) · 0)
            (booted []) := by
  obtain ⟨hnever, hagree⟩ := parsers_agree_iff encoded1_empty encoded2_empty
  exact ⟨hnever, hagree.mpr ⟨rfl, rfl, rfl, by simp [booted]⟩⟩

/-- With the command line "ab" the second parser has "a". -/
theorem command_line_cut :
    Encoded1 (ofList (layout1 [97, 98]) fun _ => 0) 0 (booted [97, 98]) ∧
      Encoded2 (ofList (layout2 [97, 98]) fun _ => 0) 0 (layoutTags [97, 98]) (booted [97, 98]) ∧
      ∀ null, ¬ Parses null (archParseMultiboot2 (ofList (layout2 [97, 98]) fun _ => 0) · 0)
        (booted [97, 98]) := by
  have hencoded : Encoded2 (ofList (layout2 [97, 98]) fun _ => 0) 0 (layoutTags [97, 98])
      (booted [97, 98]) := by
    refine ⟨⟨by decide, by decide +kernel, ?_⟩, ⟨80, by decide, by decide +kernel⟩,
      ⟨64, by decide, by decide +kernel⟩, .nil, by decide, 8, by decide, by decide +kernel⟩
    simp only [layoutTags, mappedTags, List.cons_append, List.nil_append, List.forall_mem_cons]
    exact ⟨by simp [tagTypeCmdline, tagTypeBootLoaderName],
      by simp [tagTypeCmdline, tagTypeBootLoaderName], fun _ => ⟨0, by decide, by decide +kernel⟩,
      fun _ => ⟨2, by decide, by decide +kernel⟩, by simp⟩
  refine ⟨⟨by decide +kernel, by decide +kernel, by decide +kernel, by decide +kernel,
    fun i hi => absurd hi (by simp [booted]), by decide +kernel⟩, hencoded, fun null hparses => ?_⟩
  have hplain := plain_of_parses2 hencoded hparses
  simp [Plain, booted] at hplain

end Contents

end ReduceOS.BootProtocols
