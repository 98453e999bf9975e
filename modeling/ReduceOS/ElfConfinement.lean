import ReduceOS.ElfPlan

/-!
Loading an executable is confined to the file and to user pages exactly when the program headers
that its loop gets to are well formed. The loader checks none of them.
-/
namespace ReduceOS.ElfConfinement

open Machine Inet Page Physical Paging Outcome TableTree PageMap MapAddress UserAccess
  UserHeap CopyOnWrite References PointerCheck KernelMappings ElfImage ElfBounds ElfPlan
open ElfRelocation hiding entryAt

variable {P : Type}

/-- The headers that the loop gets to are sound, if the whole file can be read. -/
def WellFormed (s : State P) (dir : FrameNo) (file : File) : Prop :=
  file.content.length = file.length.toNat →
    SoundHeaders s dir file.length.toNat (fileBuffer file)

/-- A run of `elf_load` that has the file in its buffer in `s` reads the file only and works on user
pages only. No mapping and no frame of the kernel has changed when it is over, and malformed headers
make it fail. -/
structure Confined (L : LawfulAllocator P) (dir : FrameNo) (s : State P) (file : File)
    (run : List Op × Except Panic (Option Addr × State P)) : Prop where
  inside : ∀ op ∈ run.1, Inside (UserAddress s dir) file.length.toNat op
  mappings : ∀ res s', run.2 = .ok (res, s') → Kept dir s s'
  memory : ∀ res s', run.2 = .ok (res, s') →
    ∀ f, KernelFrame L dir (KernelPosition s.phys dir) s f → s'.phys f = s.phys f
  malformed : ¬ WellFormed s dir file → ∃ s', run.2 = .ok (none, s')

section Result

variable {L : LawfulAllocator P} {dir : FrameNo} {s₀ s : State P} {fbuf : Addr} {file : File}
  {readFile : State P → Except Panic (Addr × State P)}

theorem confines_refl (ho : Owns L dir (KernelPosition s.phys dir) s)
    (hp : Plain (KernelPosition s.phys dir) dir s) : Confines L dir s s :=
  ⟨⟨ho, fun _ _ _ _ _ _ => rfl⟩, hp, fun _ hf => ⟨hf, rfl⟩⟩

/-- The plan stays inside its bounds exactly when the headers are sound. -/
theorem filePlan_inside_iff (hexec : elfCheck file .exec = true)
    (hlength : file.length.toNat ≤ 2 ^ 63) (fbuf : Addr) :
    (∀ op ∈ (filePlan file fbuf).1, Inside (UserAddress s dir) file.length.toNat op) ↔
      SoundHeaders s dir file.length.toNat (fileBuffer file) := by
  have hheader : Inside (UserAddress s dir) file.length.toNat (.read 0 64) :=
    (read_inside_iff _ (by omega) (by decide)).mpr
      (by simpa using (elfCheck_executable hexec).1)
  rw [filePlan, List.forall_mem_cons, and_iff_right hheader, executableOps,
    headerOps_inside_iff hlength]
  simp only [Nat.zero_add]
  exact ⟨fun h i hi => h i hi.1 hi.2, fun h k hk hall => h k ⟨hk, hall⟩⟩

/-- A file with sound headers is loaded by the plan. -/
theorem elfLoad_eq (elfLoadRelocatable : Addr → Loader P CInt)
    (hread : readFile s₀ = .ok (fbuf, s)) (hb : Buffered L dir s fbuf file)
    (hs : Confines L dir s s) (hexec : elfCheck file .exec = true)
    (hfull : file.content.length = file.length.toNat)
    (hsound : SoundHeaders s dir file.length.toNat (fileBuffer file)) :
    (elfLoad L.toAllocator dir elfLoadRelocatable readFile file s₀).2 =
        (performAll L.toAllocator dir (fileBuffer file) (filePlan file fbuf).1 s).map
          (fun s' => ((filePlan file fbuf).2, s')) ∧
      ∀ res s', (elfLoad L.toAllocator dir elfLoadRelocatable readFile file s₀).2 =
        .ok (res, s') → (elfLoad L.toAllocator dir elfLoadRelocatable readFile file s₀).1 =
          (filePlan file fbuf).1 ∧ Confines L dir s s' := by
  have hrun := elfLoad_follows elfLoadRelocatable hread hb hs hexec hfull
  have hinside := (filePlan_inside_iff hexec hb.length_le fbuf).mpr hsound
  refine ⟨hrun.result hinside, fun res s' hres => ⟨hrun.whole hinside _ hres, ?_⟩⟩
  rw [hrun.result hinside] at hres
  cases hperform : performAll L.toAllocator dir (fileBuffer file) (filePlan file fbuf).1 s with
  | error e =>
    rw [hperform] at hres
    contradiction
  | ok t =>
    rw [hperform] at hres
    obtain ⟨-, rfl⟩ := Prod.mk.inj (Except.ok.inj hres)
    exact hs.performed hinside hperform

end Result

section HeapPage

open WellBuilt PmmAllocator

def frameOf (bytes : List Byte) : Frame := fun i =>
  Entry.ofData (load64 (fun k => bytes.getD k 0) (8 * i.val))

/-- A directory in frame 1 whose only page is one of the kernel heap, at 0xFFFFFF0000000000 in
frame 5, with some bytes. -/
def heapPage (bytes : List Byte) : State Pmm.State := kernelHeap.setFrame 5 (frameOf bytes)

theorem wordByte_load64 (mem : ℕ → Byte) (n : ℕ) {j : ℕ} (hj : j < 8) :
    wordByte (load64 mem n) j = mem (n + j) := by
  apply BitVec.eq_of_getLsbD_eq
  intro i hi
  simp only [wordByte, load64, load32, BitVec.getLsbD_extractLsb', BitVec.getLsbD_append]
  interval_cases j <;> interval_cases i <;> rfl

theorem byte_frameOf (bytes : List Byte) (o : Fin 4096) :
    (frameOf bytes).byte o = bytes.getD o.val 0 := by
  rw [Frame.byte, frameOf, Entry.data_ofData, wordByte_load64 _ _ (Nat.mod_lt _ (by decide)),
    Nat.div_add_mod]

variable {bytes : List Byte} {p : List (Fin 512)} {g : FrameNo}

theorem heapPage_tableAt (h : tableAt kNext (heapPage bytes).phys 1 p = some g) :
    p = [] ∧ g = 1 ∨ p = [510] ∧ g = 2 ∨ p = [510, 0] ∧ g = 3 ∨ p = [510, 0, 0] ∧ g = 4 := by
  have hstep : ∀ (d : ℕ) (f : FrameNo) (e : Entry) (k i : Fin 512) (q : List (Fin 512)),
      (heapPage bytes).phys f = Function.update zeroFrame k e →
      walk kNext (heapPage bytes).phys d f (i :: q) = some g →
      i = k ∧
        (kNext d e).bind (fun h => walk kNext (heapPage bytes).phys (d + 1) h q) = some g := by
    intro d f e k i q hf hq
    rw [walk_cons, hf] at hq
    by_cases hik : i = k
    · rw [hik, Function.update_self] at hq
      exact ⟨hik, hq⟩
    · rw [Function.update_of_ne hik, show zeroFrame i = Entry.zero from rfl, kNext,
        follow_zero] at hq
      contradiction
  unfold tableAt at h
  rcases p with _ | ⟨i, p⟩
  · exact Or.inl ⟨rfl, (Option.some.inj h).symm⟩
  obtain ⟨rfl, h₁⟩ := hstep 0 1 (openEntry 2) 510 i p rfl h
  have h₁ : walk kNext (heapPage bytes).phys 1 2 p = some g := h₁
  rcases p with _ | ⟨j, p⟩
  · exact Or.inr (Or.inl ⟨rfl, (Option.some.inj h₁).symm⟩)
  obtain ⟨rfl, h₂⟩ := hstep 1 2 (openEntry 3) 0 j p rfl h₁
  have h₂ : walk kNext (heapPage bytes).phys 2 3 p = some g := h₂
  rcases p with _ | ⟨k, p⟩
  · exact Or.inr (Or.inr (Or.inl ⟨rfl, (Option.some.inj h₂).symm⟩))
  obtain ⟨rfl, h₃⟩ := hstep 2 3 (openEntry 4) 0 k p rfl h₂
  have h₃ : walk kNext (heapPage bytes).phys 3 4 p = some g := h₃
  rcases p with _ | ⟨l, p⟩
  · exact Or.inr (Or.inr (Or.inr ⟨rfl, (Option.some.inj h₃).symm⟩))
  obtain ⟨-, hbad⟩ := hstep 3 4 { openEntry 5 with usermode := false } 0 l p rfl h₃
  contradiction

theorem heapPage_table : tableAt kNext (heapPage bytes).phys 1 [510, 0, 0] = some 4 := by
  have hrow : ∀ f f' : FrameNo, ∀ i d, (heapPage bytes).phys f i = openEntry f' →
      kNext d (openEntry f') = some f' → ∀ p, walk kNext (heapPage bytes).phys d f (i :: p) =
        walk kNext (heapPage bytes).phys (d + 1) f' p := by
    intro f f' i d hentry hnext p
    rw [walk_cons, hentry, hnext]
    rfl
  rw [tableAt, hrow 1 2 510 0 rfl (by decide), hrow 2 3 0 1 rfl (by decide),
    hrow 3 4 0 2 rfl (by decide)]
  rfl

theorem heapPage_isTable (hg : IsTable (under 1) kNext (heapPage bytes).phys g) :
    g = 1 ∨ g = 2 ∨ g = 3 ∨ g = 4 := by
  obtain ⟨r, p, hD, hat⟩ := hg
  obtain rfl : r = 1 := hD.1
  rcases heapPage_tableAt hat with ⟨-, rfl⟩ | ⟨-, rfl⟩ | ⟨-, rfl⟩ | ⟨-, rfl⟩ <;> simp

theorem heapPage_tables : Tables bitmap (under 1) (heapPage bytes) := by
  refine ⟨show smallPmm.nframes.toNat ≤ 2 ^ 19 by decide, ?_, ?_⟩
  · intro r p r' p' g hp hp' hg hg'
    obtain rfl : r = 1 := hp.1
    obtain rfl : r' = 1 := hp'.1
    rcases heapPage_tableAt hg with ⟨rfl, rfl⟩ | ⟨rfl, rfl⟩ | ⟨rfl, rfl⟩ | ⟨rfl, rfl⟩ <;>
      rcases heapPage_tableAt hg' with ⟨rfl, h⟩ | ⟨rfl, h⟩ | ⟨rfl, h⟩ | ⟨rfl, h⟩ <;>
      first | exact ⟨rfl, rfl⟩ | exact absurd h (by decide)
  · intro g hg
    change Pmm.used smallPmm g.toNat = true
    rcases heapPage_isTable hg with rfl | rfl | rfl | rfl <;> decide

/-- What is not the kernel's has no entry on its way. -/
theorem heapPage_entry {q : List (Fin 512)} {i : Fin 512} {e : Entry}
    (hq : ¬ KernelPosition (heapPage bytes).phys 1 q) (hpre : p ++ [i] <+: q)
    (hentry : entryAt (heapPage bytes).phys 1 p i = some e) : e = Entry.zero := by
  obtain ⟨t, ht, rfl⟩ := Option.map_eq_some_iff.mp hentry
  have hhead : ∀ j l, p ++ [i] = j :: l → j ≠ 510 := by
    rintro j l hp rfl
    rw [hp] at hpre
    obtain ⟨r, rfl⟩ := hpre
    exact hq (Or.inl ⟨510, rfl, by decide⟩)
  rcases heapPage_tableAt ht with ⟨rfl, rfl⟩ | ⟨rfl, rfl⟩ | ⟨rfl, rfl⟩ | ⟨rfl, rfl⟩
  · exact Function.update_of_ne (hhead i [] rfl) (openEntry 2) zeroFrame
  · exact absurd rfl (hhead 510 [i] rfl)
  · exact absurd rfl (hhead 510 [0, i] rfl)
  · exact absurd rfl (hhead 510 [0, 0, i] rfl)

theorem heapPage_userSlot {x : Slot} :
    ¬ UserSlot (KernelPosition (heapPage bytes).phys 1) 1 (heapPage bytes) x := by
  rintro ⟨p, -, huser, ht, hpres⟩
  have hzero : State.entry (heapPage bytes) x = Entry.zero := by
    refine heapPage_entry huser (List.prefix_refl _) ?_
    rw [entryAt, ht]
    rfl
  rw [hzero] at hpres
  exact absurd hpres Bool.false_ne_true

theorem heapPage_owns : Owns bitmap 1 (KernelPosition (heapPage bytes).phys 1) (heapPage bytes) :=
  ⟨heapPage_tables, fun _ hx => absurd hx heapPage_userSlot,
    fun _ _ hx => absurd hx heapPage_userSlot⟩

theorem heapPage_plain :
    Plain (KernelPosition (heapPage bytes).phys 1) 1 (heapPage bytes) := by
  intro q _ hq p i e hpre _ hentry
  rw [heapPage_entry hq hpre hentry]
  exact ⟨rfl, fun hbad => absurd hbad (by decide)⟩

theorem heapPage_userAddress {a : Addr} (ha : isUser a = true) :
    UserAddress (heapPage bytes) 1 a := by
  have hlow : a.toNat < 2 ^ 47 := of_decide_eq_true ha
  have hhead : (pml4Index a).val < 256 := by
    rw [pml4Index, tableIndex_val]
    omega
  refine ⟨ha, ?_⟩
  rintro (⟨i, hi, hhigh⟩ | ⟨p, i, e, ⟨r, hpre⟩, hentry, hpres, -⟩)
  · obtain rfl : pml4Index a = i := Option.some.inj hi
    omega
  · obtain ⟨t, ht, rfl⟩ := Option.map_eq_some_iff.mp hentry
    have hfirst : (p ++ [i]).head? = some (pml4Index a) := by
      have hsame := congrArg List.head? hpre
      rwa [List.head?_append_of_ne_nil _ (by simp)] at hsame
    have hne : pml4Index a ≠ 510 := fun h => by
      rw [h] at hhead
      exact absurd hhead (by decide)
    rcases heapPage_tableAt ht with ⟨rfl, rfl⟩ | ⟨rfl, rfl⟩ | ⟨rfl, rfl⟩ | ⟨rfl, rfl⟩
    · obtain rfl : i = pml4Index a := Option.some.inj hfirst
      have hzero : (heapPage bytes).phys 1 (pml4Index a) = Entry.zero :=
        Function.update_of_ne hne _ zeroFrame
      rw [hzero] at hpres
      exact absurd hpres Bool.false_ne_true
    · exact hne (Option.some.inj hfirst).symm
    · exact hne (Option.some.inj hfirst).symm
    · exact hne (Option.some.inj hfirst).symm

/-- A file of a page or less is held by the page of the heap. -/
theorem heapPage_buffered {file : File} (hlength : file.length.toNat ≤ 4096) :
    Buffered bitmap 1 (heapPage file.content) 0xFFFFFF0000000000 file := by
  have hbase : (0xFFFFFF0000000000 : Addr).toNat = 0xFFFFFF0000000000 := rfl
  have hto : ∀ k < file.length.toNat,
      ((0xFFFFFF0000000000 : Addr) + BitVec.ofNat 64 k).toNat = 0xFFFFFF0000000000 + k :=
    fun k hk => toNat_add_ofNat (by omega)
  have hposition : ∀ k < file.length.toNat,
      position ((0xFFFFFF0000000000 : Addr) + BitVec.ofNat 64 k) = [510, 0, 0, 0] := by
    intro k hk
    have hpage : position ((0xFFFFFF0000000000 : Addr) + BitVec.ofNat 64 k) =
        position (0xFFFFFF0000000000 : Addr) :=
      position_of_page (by rw [hto k hk]; omega)
    exact hpage.trans (by decide)
  have hplain : ∀ k < file.length.toNat, PlainAt 1 (heapPage file.content)
      (position ((0xFFFFFF0000000000 : Addr) + BitVec.ofNat 64 k)) := by
    intro k hk p i e hpre hlen hentry
    rw [hposition k hk] at hpre
    obtain ⟨t, ht, rfl⟩ := Option.map_eq_some_iff.mp hentry
    rcases heapPage_tableAt ht with ⟨rfl, rfl⟩ | ⟨rfl, rfl⟩ | ⟨rfl, rfl⟩ | ⟨rfl, rfl⟩
    · obtain rfl : i = 510 := (List.cons_prefix_cons.mp hpre).1
      exact ⟨rfl, fun _ => show (2 : FrameNo).toNat < 2 ^ 19 by decide⟩
    · obtain rfl : i = 0 := (List.cons_prefix_cons.mp (List.cons_prefix_cons.mp hpre).2).1
      exact ⟨rfl, fun _ => show (3 : FrameNo).toNat < 2 ^ 19 by decide⟩
    · obtain rfl : i = 0 := (List.cons_prefix_cons.mp
        (List.cons_prefix_cons.mp (List.cons_prefix_cons.mp hpre).2).2).1
      exact ⟨rfl, fun _ => show (4 : FrameNo).toNat < 2 ^ 19 by decide⟩
    · exact absurd hlen (by decide)
  have hframe : ∀ k < file.length.toNat, kernelFrame (heapPage file.content).phys 1
      ((0xFFFFFF0000000000 : Addr) + BitVec.ofNat 64 k) = some 5 := by
    intro k hk
    have hw : walkable ((0xFFFFFF0000000000 : Addr) + BitVec.ofNat 64 k) = true := by
      rw [walkable, Bool.or_eq_true, hto k hk]
      exact Or.inr (decide_eq_true (by omega))
    obtain ⟨hpath, hlast⟩ : path ((0xFFFFFF0000000000 : Addr) + BitVec.ofNat 64 k) = [510, 0, 0] ∧
        [pagetblIndex ((0xFFFFFF0000000000 : Addr) + BitVec.ofNat 64 k)] = [0] :=
      List.append_inj' (hposition k hk) rfl
    rw [kernelFrame_eq (hplain k hk) hw, hpath, List.singleton_inj.mp hlast, entryAt,
      heapPage_table]
    rfl
  refine ⟨by decide, by omega, fun k hk => ⟨5, hframe k hk, ?_⟩, hplain, fun k hk f hf => ?_⟩
  · have hoffset : (pageOffset ((0xFFFFFF0000000000 : Addr) + BitVec.ofNat 64 k)).val = k := by
      change ((0xFFFFFF0000000000 : Addr) + BitVec.ofNat 64 k).toNat % 4096 = k
      rw [hto k hk]
      omega
    exact (byte_frameOf _ _).trans (by rw [hoffset])
  · obtain rfl : 5 = f := Option.some.inj ((hframe k hk).symm.trans hf)
    refine ⟨show Pmm.used smallPmm 5 = true by decide, fun hbad => ?_,
      fun x hx => absurd hx heapPage_userSlot⟩
    rcases heapPage_isTable hbad with h | h | h | h <;> exact absurd h (by decide)

end HeapPage

section OneHeader

open WellBuilt PmmAllocator
open InitialStack (bytes64)

def ehdr (entry : Addr) (phnum : BitVec 16) : List Byte :=
  elfmag ++ [2, 1, 1, 0] ++ bytes64 0 ++ [2, 0, 62, 0, 1, 0, 0, 0] ++ bytes64 entry ++
    bytes64 64 ++ bytes64 0 ++ [0, 0, 0, 0, 64, 0, 56, 0] ++ bytes16 phnum ++ [64, 0, 0, 0, 0, 0]

def phdr (type : BitVec 32) (offset vaddr filesz memsz : Addr) : List Byte :=
  bytes32 type ++ [7, 0, 0, 0] ++ bytes64 offset ++ bytes64 vaddr ++ bytes64 vaddr ++
    bytes64 filesz ++ bytes64 memsz ++ bytes64 4096

def oneHeader (type : BitVec 32) (vaddr memsz : Addr) : File where
  content := ehdr vaddr 1 ++ phdr type 0 vaddr 4 memsz
  length := 120
  fits := le_rfl

def readToHeap (file : File) (s : State Pmm.State) : Except Panic (Addr × State Pmm.State) :=
  .ok (0xFFFFFF0000000000, s.setFrame 5 (frameOf file.content))

def loadFromHeap (file : File) : List Op × Except Panic (Option Addr × State Pmm.State) :=
  elfLoad pmm 1 (fun _ => pure 0) (readToHeap file) file kernelHeap

theorem oneHeader_wellFormed {s : State P} {dir : FrameNo}
    (hpages : ∀ a : Addr, isUser a = true → UserAddress s dir a) :
    WellFormed s dir (oneHeader ptLoad 0x400000 8) := by
  rintro - i ⟨hi, -⟩
  have hone : (ePhnum (fileBuffer (oneHeader ptLoad 0x400000 8))).toNat = 1 := by
    decide +kernel
  have hphdr : elfPhdr (fileBuffer (oneHeader ptLoad 0x400000 8)) 0 = 64 := by
    decide +kernel
  have hread : readPhdr (fileBuffer (oneHeader ptLoad 0x400000 8)) 64 =
      ⟨1, 0, 0x400000, 4, 8⟩ := by
    decide +kernel
  obtain rfl : i = 0 := by omega
  refine ⟨by rw [hphdr]; decide, fun _ => by rw [hphdr]; decide, fun _ => ?_⟩
  rw [hphdr, hread]
  refine ⟨Or.inr (by decide), Or.inr (by decide), fun a _ ha => (hpages a ?_).2⟩
  have ha : a.toNat < 0x400000 + 8 := ha
  exact decide_eq_true (by omega)

end OneHeader

end ReduceOS.ElfConfinement
