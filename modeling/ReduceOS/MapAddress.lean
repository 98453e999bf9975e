import ReduceOS.PageMap
import ReduceOS.PmmAllocator

/-!
`mem_mapAddress` as an update of the finite map from pages to entries. Distinct
sign-extended page addresses differ in one of the four indices, so the entry written
belongs to one page only; reading the address back is exact for physical addresses
below 2 GiB and wrong above.
-/
namespace ReduceOS.MapAddress

open Machine Page Physical Paging Outcome TableTree PageMap

def PageAddress (v : Addr) : Prop :=
  v.toNat % 4096 = 0 ∧ (v.toNat < 2 ^ 47 ∨ 2 ^ 64 - 2 ^ 47 ≤ v.toNat)

theorem PageAddress.canonical {v : Addr} (hv : PageAddress v) : isCanonical v = true := by
  rw [isCanonical_iff]
  have := hv.2
  omega

theorem PageAddress.eq_of_indices {v w : Addr} (hv : PageAddress v) (hw : PageAddress w)
    (hpath : path v = path w) (hlast : pagetblIndex v = pagetblIndex w) : v = w := by
  simp only [path, List.cons.injEq, and_true, pml4Index, pdptIndex, pagedirIndex, pagetblIndex,
    Fin.ext_iff, tableIndex_val] at hpath hlast
  obtain ⟨h39, h30, h21⟩ := hpath
  obtain ⟨hv0, hv1⟩ := hv
  obtain ⟨hw0, hw1⟩ := hw
  apply BitVec.eq_of_toNat_eq
  norm_num at h39 h30 h21 hlast hv1 hw1
  omega

theorem add_offset_toNat {v : Addr} (hv : v.toNat % 4096 = 0) {o : ℕ} (ho : o < 4096) :
    (v + BitVec.ofNat 64 o).toNat = v.toNat + o := by
  have hlt := v.isLt
  rw [BitVec.toNat_add, BitVec.toNat_ofNat]
  omega

theorem and_fff (v : Addr) : (v &&& 0xFFF#64).toNat = v.toNat % 4096 := by
  rw [BitVec.toNat_and]
  exact Nat.and_two_pow_sub_one_eq_mod _ 12

variable {P : Type}

section Entries

variable {A : Allocator P} {s : State P} {pg : Slot}

/-- Freeing always returns, and writes no entry but its own. -/
theorem memFreePage_ok (s : State P) (pg : Slot) :
    ∃ s' e, memFreePage A s pg = .ok s' ∧ s'.phys = (State.setSlot s pg e).phys := by
  have hrelease : ∀ s₁ : State P, s₁.phys = s.phys →
      (releasePage A s₁ pg).phys =
        (State.setSlot s pg (releasedEntry (State.entry s pg))).phys := by
    intro s₁ hphys
    rw [releasePage_eq]
    simp only [freeFrame, State.setSlot, State.entry, State.setEntry, hphys]
  have hkeep : ∀ s₁ : State P, s₁.phys = s.phys →
      s₁.phys = (State.setSlot s pg (State.entry s pg)).phys := by
    intro s₁ hphys
    rw [hphys]
    exact (congrArg State.phys (State.setEntry_entry s pg.1 pg.2)).symm
  by_cases hzero : s.refs (State.entry s pg).address = 0
  · exact ⟨_, _, memFreePage_uncounted s pg hzero, hrelease s rfl⟩
  · cases hpres : (State.entry s pg).present with
    | false => exact ⟨_, _, memFreePage_absent hpres, hrelease s rfl⟩
    | true =>
      by_cases hone : s.refs (State.entry s pg).address = 1
      · exact ⟨_, _, memFreePage_last s pg hpres hone, hrelease _ rfl⟩
      · exact ⟨_, _, memFreePage_shared hpres hzero hone, hkeep _ rfl⟩

theorem memAllocatePage_noalloc (s : State P) (pg : Slot) {flags : BitVec 64}
    (hflags : has flags memPageNoalloc = true) :
    ∃ s' e, memAllocatePage A s (some pg) flags = .ok s' ∧
      s'.phys = (State.setSlot s pg e).phys := by
  unfold memAllocatePage
  by_cases hfree : has flags memPageFree = true
  · simp only [hfree, if_true]
    exact memFreePage_ok s pg
  · simp only [hfree, hflags, if_true]
    exact ⟨_, _, rfl, rfl⟩

theorem has_noalloc (flags : BitVec 64) : has (memPageNoalloc ||| flags) memPageNoalloc = true := by
  have hbit : ((memPageNoalloc ||| flags) &&& memPageNoalloc) = memPageNoalloc := by
    unfold memPageNoalloc
    ext i hi
    simp only [BitVec.getElem_and, BitVec.getElem_or]
    cases (0x40#64)[i] <;> simp
  unfold has
  rw [hbit]
  decide

end Entries

def under (dir : FrameNo) : Domain FrameNo (Fin 512) where
  carrier r p := r = dir ∧ p.length ≤ 4
  closed r p q h := ⟨h.1, by have := h.2; rw [List.length_append] at this; omega⟩

/-- The directory in `s'` is that of `s` with `v` mapped to `phys`, as seen through
lookups. -/
structure UpdatesOnly (A : Allocator P) (s s' : State P) (dir : FrameNo) (v phys : Addr) :
    Prop where
  mapped : ∀ o < 4096, memGetPhysicalAddress A s' dir (v + BitVec.ofNat 64 o) =
    .ok (phys + BitVec.ofNat 64 o, s')
  kept : ∀ w, PageAddress w → w ≠ v → ∀ pg,
    memGetPage A s dir w memDefault = .ok (some pg, s) →
      memGetPage A s' dir w memDefault = .ok (some pg, s') ∧
        State.entry s' pg = State.entry s pg
  absent : ∀ w, PageAddress w → w ≠ v → memGetPage A s dir w memDefault = .ok (none, s) →
    memGetPage A s' dir w memDefault = .ok (none, s') ∨
      ∃ pg, memGetPage A s' dir w memDefault = .ok (some pg, s') ∧
        State.entry s' pg = Entry.zero
  lookups : ∀ w page s₁, memGetPage A s dir w memDefault = .ok (page, s₁) → s₁ = s

variable {s s' : State P} {dir : FrameNo} {v phys : Addr}

/-- A lookup that returned followed only entries inside the physical map. -/
theorem clear_of_memGetPage {A : Allocator P} {w : Addr} (hw : isCanonical w = true)
    {page : Option Slot} (h : memGetPage A s dir w memDefault = .ok (page, s)) :
    Clear s.phys 0 dir (path w) ∧
      page = (tableAt kNext s.phys dir (path w)).map fun t => (t, pagetblIndex w) := by
  rw [memGetPage_lookup dir w hw] at h
  cases hl : lookup s.phys 0 dir (path w) with
  | error x => rw [hl] at h; contradiction
  | ok t =>
    have hclear := clear_of_lookup hl
    rw [lookup_of_clear hclear] at hl h
    exact ⟨hclear, (congrArg Prod.fst (Except.ok.inj h)).symm⟩

theorem memGetPage_of_clear {A : Allocator P} {w : Addr} (hw : isCanonical w = true)
    (hclear : Clear s.phys 0 dir (path w)) :
    memGetPage A s dir w memDefault =
      .ok ((tableAt kNext s.phys dir (path w)).map fun t => (t, pagetblIndex w), s) := by
  rw [memGetPage_lookup dir w hw, lookup_of_clear hclear]
  rfl

section Spec

variable {L : LawfulAllocator P}

theorem memMapAddress_spec (phys : Addr) (ht : Tables L (under dir) s) (hv : isCanonical v = true)
    (hclear : Clear s.phys 0 dir (path v)) (hsmall : Small s.phys dir (path v)) (flags : CInt) :
    Meets Oom (memMapAddress L.toAllocator s dir phys v flags) fun s' =>
      ∃ s₁ t e, Tables L (under dir) s₁ ∧ Extends (under dir) s.phys s₁.phys ∧
        tableAt kNext s₁.phys dir (path v) = some t ∧
        s'.phys = (s₁.setEntry t (pagetblIndex v) e).phys ∧
        e.address = (phys >>> 12).setWidth 28 := by
  unfold memMapAddress
  rw [hv, if_neg (by simp)]
  refine meets_bind (memGetPage_create ht hv ⟨rfl, by simp [path]⟩ hclear hsmall) ?_
  rintro ⟨_, s₁⟩ ⟨t, rfl, ht₁, hext, hat, -⟩
  obtain ⟨s₂, e₂, hok, hphys₂⟩ := memAllocatePage_noalloc (A := L.toAllocator) s₁
    (t, pagetblIndex v) (has_noalloc (flags.signExtend 64))
  change Meets Oom (memAllocatePage L.toAllocator s₁ (some (t, pagetblIndex v))
    (memPageNoalloc ||| flags.signExtend 64) >>= _) _
  rw [hok]
  refine ⟨s₁, t, Page.setFrame (State.entry s₂ (t, pagetblIndex v)) phys, ht₁, hext, hat, ?_, rfl⟩
  simp [State.setSlot, State.setEntry, hphys₂]

/-- Reading back an address written with `MEM_SET_FRAME`. -/
theorem getFrame_eq_iff {e : Entry} (he : e.address = (phys >>> 12).setWidth 28)
    (halign : phys.toNat % 4096 = 0) (hlt : phys.toNat < 2 ^ 40) :
    getFrame e = phys ↔ phys.toNat < 2 ^ 31 := by
  have haddr : e.address.toNat * 4096 = phys.toNat := by
    rw [he, BitVec.toNat_setWidth, BitVec.toNat_ushiftRight, Nat.shiftRight_eq_div_pow]
    omega
  constructor
  · intro heq
    by_contra hge
    apply getFrame_ne_of_le e (by omega)
    rw [heq, haddr]
  · intro hlow
    rw [getFrame_of_lt e (by omega)]
    apply BitVec.eq_of_toNat_eq
    rw [frameAddr_toNat, haddr]

/-- The address `mem_getPhysicalAddress` computes inside a page. -/
theorem memGetPhysicalAddress_offset {A : Allocator P} {pg : Slot} (hv : PageAddress v)
    (hpg : memGetPage A s dir v memDefault = .ok (some pg, s)) {o : ℕ} (ho : o < 4096) :
    memGetPhysicalAddress A s dir (v + BitVec.ofNat 64 o) =
      .ok (getFrame (State.entry s pg) + BitVec.ofNat 64 o, s) := by
  have hsum := add_offset_toNat hv.1 ho
  have hcanon : isCanonical (v + BitVec.ofNat 64 o) = true := by
    rw [isCanonical_iff, hsum]
    have := hv.2
    omega
  have hbase : (v + BitVec.ofNat 64 o) &&& ~~~0xFFF#64 = v := by
    apply BitVec.eq_of_toNat_eq
    rw [toNat_and_not_fff, hsum]
    have := hv.1
    omega
  have hoffset : (v + BitVec.ofNat 64 o) &&& 0xFFF#64 = BitVec.ofNat 64 o := by
    apply BitVec.eq_of_toNat_eq
    rw [and_fff, hsum, BitVec.toNat_ofNat]
    have := hv.1
    omega
  unfold memGetPhysicalAddress
  simp only [hcanon, hbase, hoffset, hpg]
  rfl

/-- Mapping `v` changes the entry of `v` and of no other page. -/
theorem updatesOnly_iff (phys : Addr) {s₁ : State P} {t : FrameNo} {e : Entry} (hv : PageAddress v)
    (hclear : Clear s.phys 0 dir (path v)) (ht₁ : Tables L (under dir) s₁)
    (hext : Extends (under dir) s.phys s₁.phys)
    (hat : tableAt kNext s₁.phys dir (path v) = some t)
    (hphys : s'.phys = (s₁.setEntry t (pagetblIndex v) e).phys) :
    UpdatesOnly L.toAllocator s s' dir v phys ↔ getFrame e = phys := by
  have hD : ∀ w, (under dir).carrier dir (path w) := fun w => ⟨rfl, by simp [path]⟩
  have hD' : ∀ w, (under dir).carrier dir (path w ++ [pagetblIndex w]) :=
    fun w => ⟨rfl, by simp [path]⟩
  have c : EntryChange (under dir) kNext s₁.phys s'.phys dir (path v) t (pagetblIndex v) := by
    refine ⟨ht₁.tree, hD v, hat, ?_⟩
    intro g j _ hoff
    rw [hphys]
    rcases hoff with hoff | hoff
    · rw [State.setEntry_phys_frame_ne _ _ _ hoff]
    · rw [State.setEntry_phys_index_ne _ _ _ _ hoff]
  obtain ⟨hsame, hclear'⟩ := leaf_change c rfl
  have hfind : ∀ w, isCanonical w = true → Clear s.phys 0 dir (path w) →
      memGetPage L.toAllocator s' dir w memDefault =
        .ok ((tableAt kNext s₁.phys dir (path w)).map fun t => (t, pagetblIndex w), s') := by
    intro w hw hc
    rw [memGetPage_of_clear hw (hclear' dir (path w) (hD w) (by simp [path])
      (hext.clear (hD w) hc)), hsame dir (path w) (hD w)]
  have hother : ∀ w g, PageAddress w → w ≠ v → tableAt kNext s₁.phys dir (path w) = some g →
      s'.phys g (pagetblIndex w) = s₁.phys g (pagetblIndex w) := by
    intro w g hw hne hg
    apply c.agree g _ ⟨dir, path w, hD w, hg⟩
    by_contra hnot
    obtain ⟨rfl, hidx⟩ := not_or.mp hnot |>.imp not_not.mp not_not.mp
    obtain ⟨-, hpath⟩ := ht₁.tree dir (path w) dir (path v) g (hD w) (hD v) hg hat
    exact hne (hw.eq_of_indices hv hpath hidx)
  have hself : memGetPage L.toAllocator s' dir v memDefault =
      .ok (some (t, pagetblIndex v), s') := by
    rw [hfind v hv.canonical hclear, hat]
    rfl
  have hentry : State.entry s' (t, pagetblIndex v) = e := by
    unfold State.entry
    rw [hphys, State.setEntry_phys_self]
  constructor
  · intro hup
    have h0 := hup.mapped 0 (by decide)
    rw [memGetPhysicalAddress_offset hv hself (by decide), hentry] at h0
    simpa using congrArg Prod.fst (Except.ok.inj h0)
  · intro hframe
    refine ⟨?_, ?_, ?_, fun w page s₁ h => memGetPage_unchanged h⟩
    · intro o ho
      rw [memGetPhysicalAddress_offset hv hself ho, hentry, hframe]
    · intro w hw hne pg hpg
      obtain ⟨hc, hpage⟩ := clear_of_memGetPage hw.canonical hpg
      cases hg : tableAt kNext s.phys dir (path w) with
      | none =>
        rw [hg] at hpage
        exact absurd hpage (Option.some_ne_none _)
      | some g =>
        rw [hg] at hpage
        obtain rfl := Option.some.inj hpage
        have hg₁ := hext.table dir (path w) g (hD w) hg
        refine ⟨by rw [hfind w hw.canonical hc, hg₁]; rfl, ?_⟩
        change s'.phys g (pagetblIndex w) = s.phys g (pagetblIndex w)
        rw [hother w g hw hne hg₁]
        rcases hext.entry dir (path w) (pagetblIndex w) g (hD' w) hg₁ with
          ⟨-, heq⟩ | ⟨hnone, -⟩ | ⟨h, hh⟩
        · exact heq
        · exact absurd (hg.symm.trans hnone) (Option.some_ne_none _)
        · exact absurd (hh.symm.trans (kNext_leaf (by simp [path]) _)) (Option.some_ne_none _)
    · intro w hw hne hpg
      obtain ⟨hc, hpage⟩ := clear_of_memGetPage hw.canonical hpg
      rw [hfind w hw.canonical hc]
      cases hg₁ : tableAt kNext s₁.phys dir (path w) with
      | none => exact Or.inl rfl
      | some g =>
        refine Or.inr ⟨(g, pagetblIndex w), rfl, ?_⟩
        change s'.phys g (pagetblIndex w) = Entry.zero
        rw [hother w g hw hne hg₁]
        rcases hext.entry dir (path w) (pagetblIndex w) g (hD' w) hg₁ with
          ⟨hg, -⟩ | ⟨-, hz⟩ | ⟨h, hh⟩
        · rw [hg] at hpage
          exact absurd hpage.symm (Option.some_ne_none _)
        · exact hz
        · exact absurd (hh.symm.trans (kNext_leaf (by simp [path]) _)) (Option.some_ne_none _)

/-- Unless memory runs out, `mem_mapAddress` updates the map at `v` alone exactly when
the physical address lies below 2 GiB and no table on the way to `v` sends the kernel
outside its physical map. -/
theorem memMapAddress_updatesOnly_iff (ht : Tables L (under dir) s)
    (hsmall : Small s.phys dir (path v)) (hv : PageAddress v)
    (halign : phys.toNat % 4096 = 0) (hlt : phys.toNat < 2 ^ 40) (flags : CInt) :
    memMapAddress L.toAllocator s dir phys v flags = .error .outOfMemory ∨
      ((∃ s', memMapAddress L.toAllocator s dir phys v flags = .ok s' ∧
          UpdatesOnly L.toAllocator s s' dir v phys) ↔
        phys.toNat < 2 ^ 31 ∧ Clear s.phys 0 dir (path v)) := by
  by_cases hclear : Clear s.phys 0 dir (path v)
  · have hspec := memMapAddress_spec phys ht hv.canonical hclear hsmall flags
    cases hcall : memMapAddress L.toAllocator s dir phys v flags with
    | error x =>
      rw [hcall] at hspec
      exact Or.inl (congrArg Except.error hspec)
    | ok s' =>
      rw [hcall] at hspec
      obtain ⟨s₁, t, e, ht₁, hext, hat, hphys, he⟩ := hspec
      have hiff := (updatesOnly_iff phys hv hclear ht₁ hext hat hphys).trans
        (getFrame_eq_iff he halign hlt)
      right
      constructor
      · rintro ⟨_, hok, hup⟩
        obtain rfl := Except.ok.inj hok
        exact ⟨hiff.mp hup, hclear⟩
      · rintro ⟨hlow, -⟩
        exact ⟨s', rfl, hiff.mpr hlow⟩
  · right
    constructor
    · rintro ⟨s', hok, -⟩
      cases hl : lookup s.phys 0 dir (path v) with
      | ok t => exact absurd (clear_of_lookup hl) hclear
      | error x =>
        unfold memMapAddress at hok
        rw [hv.canonical, memGetPage_fault hv.canonical hl] at hok
        exact absurd hok (by simp [bind, Except.bind])
    · rintro ⟨-, hc⟩
      exact absurd hc hclear

end Spec

section Blank

/-- A machine of 32 frames with frame 1 holding an empty directory. -/
def emptyDirectory : State Pmm.State :=
  ⟨fun _ => zeroFrame, fun _ => 0, ⟨fun i => if i = 0 then 3 else 0, 32, 2, 32⟩⟩

theorem emptyDirectory_tableAt {r g : FrameNo} {p : List (Fin 512)}
    (h : tableAt kNext emptyDirectory.phys r p = some g) : p = [] ∧ g = r := by
  cases p with
  | nil => exact ⟨rfl, (Option.some.inj h).symm⟩
  | cons i p =>
    have hzero : emptyDirectory.phys r i = Entry.zero := rfl
    rw [tableAt, walk_cons, hzero, kNext_zero] at h
    exact absurd h.symm (Option.some_ne_none _)

theorem emptyDirectory_tables :
    Tables PmmAllocator.bitmap (under 1) emptyDirectory := by
  refine ⟨show (32#64).toNat ≤ 2 ^ 19 by decide, ?_, ?_⟩
  · intro r p r' p' g hp hp' hg hg'
    obtain ⟨rfl, rfl⟩ := emptyDirectory_tableAt hg
    obtain ⟨rfl, rfl⟩ := emptyDirectory_tableAt hg'
    exact ⟨rfl, rfl⟩
  · rintro g ⟨r, p, hp, hg⟩
    obtain ⟨rfl, rfl⟩ := emptyDirectory_tableAt hg
    obtain rfl := hp.1
    change Pmm.used emptyDirectory.pmm 1 = true
    decide

theorem emptyDirectory_small (p : List (Fin 512)) : Small emptyDirectory.phys 1 p := by
  intro q i _ g _ _
  rfl

theorem memMapAddress_updatesOnly_first_page :
    memMapAddress PmmAllocator.pmm emptyDirectory 1 0x1000 0x400000 0 =
        .error .outOfMemory ∨
      ((∃ s', memMapAddress PmmAllocator.pmm emptyDirectory 1 0x1000 0x400000 0 =
            .ok s' ∧
          UpdatesOnly PmmAllocator.pmm emptyDirectory s' 1 0x400000 0x1000) ↔
        (0x1000 : Addr).toNat < 2 ^ 31 ∧ Clear emptyDirectory.phys 0 1 (path 0x400000)) :=
  memMapAddress_updatesOnly_iff emptyDirectory_tables (emptyDirectory_small _)
    (by unfold PageAddress; decide) (by decide) (by decide) 0

private theorem reads_back :
    (memMapAddress PmmAllocator.pmm emptyDirectory 1 0x80000000 0x400000 0 >>=
      fun s' => (memGetPhysicalAddress PmmAllocator.pmm s' 1 0x400000).map
        Prod.fst) = .ok 0xFFFFFFFF80000000 := by
  decide +kernel

/-- Mapping the page at 2 GiB succeeds and reads back as another address. -/
theorem memMapAddress_two_gib_lost :
    Tables PmmAllocator.bitmap (under 1) emptyDirectory ∧
      Small emptyDirectory.phys 1 (path 0x400000) ∧ PageAddress 0x400000 ∧
      ∃ s', memMapAddress PmmAllocator.pmm emptyDirectory 1 0x80000000 0x400000 0 =
          .ok s' ∧
        ¬ UpdatesOnly PmmAllocator.pmm emptyDirectory s' 1 0x400000 0x80000000 := by
  refine ⟨emptyDirectory_tables, emptyDirectory_small _, by unfold PageAddress; decide, ?_⟩
  have hread := reads_back
  cases hcall : memMapAddress PmmAllocator.pmm emptyDirectory 1 0x80000000
      0x400000 0 with
  | error x =>
    rw [hcall] at hread
    exact absurd hread (by simp [bind, Except.bind])
  | ok s' =>
    rw [hcall] at hread
    refine ⟨s', rfl, fun hup => ?_⟩
    have h0 := hup.mapped 0 (by decide)
    change (memGetPhysicalAddress PmmAllocator.pmm s' 1 0x400000).map Prod.fst =
      .ok 0xFFFFFFFF80000000 at hread
    rw [show (0x400000 : Addr) + BitVec.ofNat 64 0 = 0x400000 from by decide] at h0
    rw [h0] at hread
    exact absurd (show (0x80000000 : Addr) + BitVec.ofNat 64 0 = 0xFFFFFFFF80000000 from
      Except.ok.inj hread) (by decide)

end Blank

end ReduceOS.MapAddress
