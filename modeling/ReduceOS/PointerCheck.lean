import ReduceOS.MapAddress
import ReduceOS.UserHeap

/-!
What the check of a user buffer establishes. `SYSCALL_VALIDATE_PTR_SIZE` looks at one
address per page, from the start of the buffer on: an address that passes stays open
to user code while the others are checked, and pages mapped on the way are added
under tables that led nowhere. The last page of a buffer is looked at only if the
steps happen to land in it, and none is looked at if the end of the buffer wraps.
-/
namespace ReduceOS.PointerCheck

open Machine Page Physical Paging Outcome TableTree PageMap MapAddress UserAccess UserHeap

variable {P : Type}

section Passing

variable (A : Allocator P)

def ValidAt (s : State P) (dir : FrameNo) (a : Addr) : Prop :=
  memValidate A s dir a (ptrUser ||| ptrStrict) = .ok (true, s)

/-- The check of `a` passes: it is valid, or a page has been mapped for it. -/
def CheckPasses (process : Process) (s : State P) (a : Addr) (s' : State P) : Prop :=
  syscallValidatePtr A process s a = .ok s' ∧
    (ValidAt A s process.dir a ∨
      ∃ pg s₁, memGetPage A s process.dir a memCreate = .ok (some pg, s₁))

def RangePasses (process : Process) : List Addr → State P → State P → Prop
  | [], s, s' => s' = s
  | a :: l, s, s' => ∃ s₁, CheckPasses A process s a s₁ ∧ RangePasses process l s₁ s'

def PtrSizePasses (s : State P) (process : Process) (ptr size : Addr) (s' : State P) : Prop :=
  RangePasses A process (pageLoop ptr (ptr + size)) s s'

/-- The buffer does not wrap and user code may use all of it. -/
structure Complete (s : State P) (dir : FrameNo) (ptr size : Addr) : Prop where
  noWrap : ptr.toNat + size.toNat < 2 ^ 64
  valid : ∀ a : Addr, ptr.toNat ≤ a.toNat → a.toNat < ptr.toNat + size.toNat → ValidAt A s dir a

variable {A}

end Passing

section Walks

variable {L : LawfulAllocator P} {s s' : State P} {dir g t : FrameNo} {p : List (Fin 512)}
  {i : Fin 512} {a : Addr}

def Open (mem : FrameNo → Frame) (dir : FrameNo) (a : Addr) : Prop :=
  isCanonical a = true ∧
    ∃ t, tableAt kNext mem dir (path a) = some t ∧ (mem t (pagetblIndex a)).usermode = true

/-- A walk that reached its table met nothing outside the physical map. -/
theorem clear_of_walk (hwalk : tableAt kNext s.phys dir p = some t) : Clear s.phys 0 dir p := by
  rintro q i ⟨q', rfl⟩ f hf -
  have hstep : walk kNext s.phys 0 dir (q ++ [i] ++ q') = some t := hwalk
  obtain ⟨f', hf'⟩ := walk_of_prefix hstep
  rw [walk_concat, hf] at hf'
  exact ⟨f', hf'⟩

theorem validAt_iff {A : Allocator P} : ValidAt A s dir a ↔ Open s.phys dir a := by
  unfold ValidAt memValidate
  constructor
  · intro h
    have hcanon : isCanonical a = true := by
      by_contra hnot
      rw [memGetPage, if_pos (by simpa using hnot)] at h
      exact absurd (congrArg Prod.fst (Except.ok.inj h)) Bool.false_ne_true
    refine ⟨hcanon, ?_⟩
    cases hfind : memGetPage A s dir a memDefault with
    | error e => rw [hfind] at h; contradiction
    | ok res =>
      obtain ⟨page, s₁⟩ := res
      obtain rfl := memGetPage_unchanged hfind
      obtain ⟨-, hpage⟩ := clear_of_memGetPage hcanon hfind
      rw [hfind] at h
      cases htable : tableAt kNext s₁.phys dir (path a) with
      | none =>
        rw [hpage, htable] at h
        exact absurd (congrArg Prod.fst (Except.ok.inj h)) Bool.false_ne_true
      | some t =>
        rw [hpage, htable] at h
        have hvalid := congrArg Prod.fst (Except.ok.inj h)
        rw [validFor_user] at hvalid
        exact ⟨t, rfl, hvalid⟩
  · rintro ⟨hcanon, t, ht, huser⟩
    rw [memGetPage_of_clear hcanon (clear_of_walk ht), ht]
    change Except.ok (validFor (s.phys t (pagetblIndex a)) _, s) = _
    rw [validFor_user, huser]

/-- The tables of `dir` are in use, and none of them is a table of two depths. -/
structure Shape (L : LawfulAllocator P) (dir : FrameNo) (s : State P) : Prop where
  valid : L.valid s.pmm
  inUse : ∀ p g, tableAt kNext s.phys dir p = some g → g ∈ L.used s.pmm
  layered : Layered kNext s.phys dir

structure Keeps (L : LawfulAllocator P) (dir : FrameNo) (s s' : State P) : Prop where
  shape : Shape L dir s'
  stays : ∀ a, Open s.phys dir a → Open s'.phys dir a

theorem Keeps.refl (h : Shape L dir s) : Keeps L dir s s := ⟨h, fun _ => id⟩

theorem Keeps.trans {s'' : State P} (h : Keeps L dir s s') (h' : Keeps L dir s' s'') :
    Keeps L dir s s'' := ⟨h'.shape, fun a ha => h'.stays a (h.stays a ha)⟩

/-- Any stop is tolerated here: the checks only matter where they return. -/
abbrev Any : Panic → Prop := fun _ => True

theorem kNext_absent (d : ℕ) {e : Entry} (h : e.present = false) : kNext d e = none := by
  apply kNext_of_not_follow
  simp [follow, h]

theorem Added.grow {h : FrameNo} (hs : Shape L dir s) (hadd : Added L s s' g i h)
    (habs : (s.phys g i).present = false) : Grow kNext s.phys s'.phys dir g i h where
  fresh p hp := hadd.fresh (hs.inUse p h hp)
  old d := kNext_absent d habs
  new d f hf := by
    rw [hadd.written] at hf
    have hphys := (physFrame_of_kNext hf).2
    rw [getFrame_of_lt _ hadd.low,
      physFrame_memRemapPhys _ (Nat.lt_trans hadd.low (by decide))] at hphys
    exact (Except.ok.inj hphys).symm
  blank d j := by rw [hadd.blank, kNext_zero]
  agree := hadd.others

theorem Added.keeps {h : FrameNo} (hs : Shape L dir s) (hadd : Added L s s' g i h)
    (habs : (s.phys g i).present = false) : Keeps L dir s s' := by
  have hgrow := Added.grow hs hadd habs
  refine ⟨⟨hadd.valid, ?_, hgrow.layered hs.layered⟩, ?_⟩
  · intro p f hf
    rw [hadd.used]
    rcases hgrow.back hf with hold | ⟨rfl, -⟩
    · exact Set.mem_insert_of_mem _ (hs.inUse p f hold)
    · exact Set.mem_insert _ _
  · rintro a ⟨hcanon, t, ht, huser⟩
    refine ⟨hcanon, t, hgrow.keep ht, ?_⟩
    have hne : t ≠ h := fun heq => hgrow.fresh _ (heq ▸ ht)
    by_cases hsame : t = g ∧ pagetblIndex a = i
    · obtain ⟨rfl, hi⟩ := hsame
      rw [hi, hadd.written]
    · rw [hadd.others t _ hne (by tauto), huser]

def AddedOrSame (L : LawfulAllocator P) (s : State P) (g : FrameNo) (i : Fin 512)
    (s' : State P) : Prop :=
  s' = s ∨ (s.phys g i).present = false ∧ ∃ h, Added L s s' g i h

/-- One level of a walk that adds tables, over any tables of this shape. -/
theorem descend_added (hs : Shape L dir s) (hg : tableAt kNext s.phys dir p = some g)
    (hlen : p.length < 3) :
    Meets Any (descend L.toAllocator s (g, i) memCreate (decide (p.length ≠ 0)))
      (WalkPost (AddedOrSame L s g i) (AddedOrSame L s g i) dir (p ++ [i])) := by
  have hwalk : walk kNext s.phys 0 dir p = some g := hg
  cases hpres : (s.phys g i).present with
  | true =>
    rw [descend_present hpres _ hlen]
    cases hl : lookup s.phys p.length g [i] with
    | error e => exact trivial
    | ok o =>
      cases o with
      | none => exact Or.inl rfl
      | some h =>
        refine ⟨?_, Or.inl rfl⟩
        have hstep := lookup_of_clear (clear_of_lookup hl)
        rw [hl, walk_cons] at hstep
        change tableAt kNext s.phys dir (p ++ [i]) = some h
        rw [tableAt, walk_concat, hwalk]
        simpa using (Except.ok.inj hstep).symm
  | false =>
    refine meets_mono (meets_weaken (descend_absent hs.valid (hs.inUse p g hg) hpres _)
      fun _ _ => trivial) ?_
    rintro ⟨o, s₂⟩ ⟨h, hadd, hres⟩
    have hres : o = _ := hres
    split at hres
    · subst hres
      exact Or.inr ⟨hpres, h, hadd⟩
    · rename_i hsize
      subst hres
      refine ⟨?_, Or.inr ⟨hpres, h, hadd⟩⟩
      change tableAt kNext s₂.phys dir (p ++ [i]) = some h
      rw [tableAt, walk_concat, show walk kNext s₂.phys 0 dir p = some g from
        (Added.grow hs hadd hpres).keep hg, Option.bind_some, hadd.written]
      apply kNext_link (by simpa using hlen) _ rfl hadd.low
      intro hd
      rw [Nat.zero_add] at hd
      by_contra hbad
      apply hsize
      rw [Bool.and_eq_true, decide_eq_true_eq]
      exact ⟨hd, by simpa using hbad⟩

/-- A walk that adds tables keeps whatever adding one table on its way keeps. -/
theorem memGetPage_added {J : State P → Prop} (hs : J s) (ha : isCanonical a = true)
    (hshape : ∀ s, J s → Shape L dir s)
    (hadd : ∀ s s' p i g h, J s → p ++ [i] <+: path a → p.length < 3 →
      tableAt kNext s.phys dir p = some g → (s.phys g i).present = false → Added L s s' g i h →
      J s') :
    Meets Any (memGetPage L.toAllocator s dir a memCreate) fun res =>
      J res.2 ∧ ∀ pg, res.1 = some pg →
        ∃ t, pg = (t, pagetblIndex a) ∧ tableAt kNext res.2.phys dir (path a) = some t := by
  refine meets_mono (memGetPage_rule (J := J) (E := J) ha hs ?_) ?_
  · intro s₁ q i g hs₁ hpre hlen hg
    have hstep : ∀ s₂, AddedOrSame L s₁ g i s₂ → J s₂ := by
      rintro s₂ (rfl | ⟨habs, h, hh⟩)
      · exact hs₁
      · exact hadd s₁ s₂ q i g h hs₁ hpre hlen hg habs hh
    refine meets_mono (descend_added (hshape s₁ hs₁) hg hlen) ?_
    rintro ⟨o, s₂⟩ hres
    cases o with
    | none => exact hstep s₂ hres
    | some h => exact ⟨hres.1, hstep s₂ hres.2⟩
  · rintro ⟨o, s'⟩ hres
    cases o with
    | none => exact ⟨hres, fun _ h => absurd h.symm (Option.some_ne_none _)⟩
    | some pg =>
      obtain ⟨t, rfl, hat, hJ⟩ := hres
      exact ⟨hJ, fun _ h => ⟨t, (Option.some.inj h).symm, hat⟩⟩

/-- `mem_getPage` with `MEM_CREATE`. -/
theorem memGetPage_keeps (hs : Shape L dir s) (ha : isCanonical a = true) :
    Meets Any (memGetPage L.toAllocator s dir a memCreate) fun res =>
      Keeps L dir s res.2 ∧ ∀ pg, res.1 = some pg →
        ∃ t, pg = (t, pagetblIndex a) ∧ tableAt kNext res.2.phys dir (path a) = some t := by
  apply memGetPage_added (Keeps.refl hs) ha fun _ hk => hk.shape
  intro s₁ s₂ q i g h hk _ _ _ habs hadd
  exact hk.trans (Added.keeps hk.shape hadd habs)

theorem leaf_walk (hl : Layered kNext s.phys dir) (hlen : p.length = 3)
    (ht : tableAt kNext s.phys dir p = some t) (j : Fin 512) (e : Entry) (q : List (Fin 512)) :
    tableAt kNext (s.setEntry t j e).phys dir q = tableAt kNext s.phys dir q := by
  apply walk_congr
  intro q' i hq f hf
  by_cases hsame : f = t ∧ i = j
  · obtain ⟨rfl, rfl⟩ := hsame
    have hdepth : q'.length = 3 := (hl q' p f hf ht).trans hlen
    rw [kNext_leaf (by omega), kNext_leaf (by omega)]
  · rcases not_and_or.mp hsame with hne | hne
    · rw [State.setEntry_phys_frame_ne _ _ _ hne]
    · rw [State.setEntry_phys_index_ne _ _ _ _ hne]

theorem leaf_stays (hl : Layered kNext s.phys dir) (hlen : p.length = 3)
    (ht : tableAt kNext s.phys dir p = some t) {j : Fin 512} {e : Entry} (he : e.usermode = true)
    {b : Addr} (hb : Open s.phys dir b) : Open (s.setEntry t j e).phys dir b := by
  obtain ⟨hcanon, f, hf, huser⟩ := hb
  refine ⟨hcanon, f, (leaf_walk hl hlen ht j e _).trans hf, ?_⟩
  by_cases hsame : f = t ∧ pagetblIndex b = j
  · obtain ⟨rfl, hj⟩ := hsame
    rw [hj, State.setEntry_phys_self, he]
  · rcases not_and_or.mp hsame with hne | hne
    · rw [State.setEntry_phys_frame_ne _ _ _ hne, huser]
    · rw [State.setEntry_phys_index_ne _ _ _ _ hne, huser]

theorem memAllocatePage_keeps (hs : Shape L dir s) (ha : isCanonical a = true)
    (ht : tableAt kNext s.phys dir (path a) = some t) :
    Meets Any (memAllocatePage L.toAllocator s (some (t, pagetblIndex a)) memDefault) fun s' =>
      Keeps L dir s s' ∧ Open s'.phys dir a := by
  refine meets_mono (meets_weaken (memAllocatePage_fresh L hs.valid (t, pagetblIndex a)
    (by decide) (by decide)) fun _ _ => trivial) ?_
  rintro s' ⟨f, pmm, -, -, hvalid, hused, rfl⟩
  let e : Entry := configure { s.phys t (pagetblIndex a) with address := f } memDefault
  let s₁ : State P := { s with pmm := pmm }
  change Keeps L dir s (s₁.setEntry t (pagetblIndex a) e) ∧
    Open (s₁.setEntry t (pagetblIndex a) e).phys dir a
  have hlen : (path a).length = 3 := by simp [path]
  have hwalk := leaf_walk (s := s₁) hs.layered hlen ht (pagetblIndex a) e
  have huser : e.usermode = true := by simp [e, configure, has, memDefault]
  refine ⟨⟨⟨hvalid, ?_, ?_⟩, ?_⟩, ha, t, (hwalk _).trans ht, ?_⟩
  · intro q g hg
    rw [hwalk] at hg
    change g ∈ L.used pmm
    rw [hused]
    exact Set.mem_insert_of_mem _ (hs.inUse q g hg)
  · intro q q' g hq hq'
    rw [hwalk] at hq hq'
    exact hs.layered q q' g hq hq'
  · exact fun b hb => leaf_stays (s := s₁) hs.layered hlen ht huser hb
  · rw [State.setEntry_phys_self, huser]

/-- An address that passes is open afterwards, with all that was open before. -/
theorem CheckPasses.spec {process : Process} (hs : Shape L process.dir s)
    (h : CheckPasses L.toAllocator process s a s') :
    Keeps L process.dir s s' ∧ Open s'.phys process.dir a := by
  obtain ⟨hcall, hpass⟩ := h
  by_cases hvalid : ValidAt L.toAllocator s process.dir a
  · rw [syscallValidatePtr, hvalid] at hcall
    obtain rfl : s = s' := Except.ok.inj hcall
    exact ⟨Keeps.refl hs, validAt_iff.mp hvalid⟩
  · obtain ⟨pg, s₁, hpage⟩ := hpass.resolve_left hvalid
    have ha : isCanonical a = true := by
      by_contra hnot
      rw [memGetPage, if_pos (by simpa using hnot)] at hpage
      exact absurd (congrArg Prod.fst (Except.ok.inj hpage)).symm (Option.some_ne_none _)
    obtain ⟨hkeep₁, hat⟩ := meets_of_eq_ok (memGetPage_keeps hs ha) hpage
    obtain ⟨t, rfl, ht⟩ := hat pg rfl
    have hmap : mapHeapPage L.toAllocator s process a = .ok s' := by
      cases hcheck : memValidate L.toAllocator s process.dir a (ptrUser ||| ptrStrict) with
      | error e => rw [syscallValidatePtr, hcheck] at hcall; contradiction
      | ok res =>
        obtain ⟨valid, s₂⟩ := res
        obtain rfl : s₂ = s := by
          unfold memValidate at hcheck
          cases hfind : memGetPage L.toAllocator s process.dir a memDefault with
          | error e => rw [hfind] at hcheck; contradiction
          | ok res =>
            obtain ⟨page, s₃⟩ := res
            obtain rfl := memGetPage_unchanged hfind
            rw [hfind] at hcheck
            cases page <;> exact (congrArg Prod.snd (Except.ok.inj hcheck)).symm
        rw [syscallValidatePtr, hcheck] at hcall
        cases valid with
        | true => exact absurd hcheck hvalid
        | false =>
          change syscallPointerValidateFailed _ s₂ process a = .ok s' at hcall
          unfold syscallPointerValidateFailed at hcall
          split at hcall
          · exact hcall
          · contradiction
    unfold mapHeapPage at hmap
    rw [hpage] at hmap
    obtain ⟨hkeep₂, hopen⟩ := meets_of_eq_ok (memAllocatePage_keeps hkeep₁.shape ha ht) hmap
    exact ⟨hkeep₁.trans hkeep₂, hopen⟩

/-- Every address of a range that passes is open in the end. -/
theorem RangePasses.spec {process : Process} {l : List Addr} (hs : Shape L process.dir s)
    (h : RangePasses L.toAllocator process l s s') :
    Keeps L process.dir s s' ∧ ∀ b ∈ l, Open s'.phys process.dir b := by
  induction l generalizing s with
  | nil =>
    obtain rfl : s' = s := h
    exact ⟨Keeps.refl hs, by simp⟩
  | cons b l ih =>
    obtain ⟨s₁, hcheck, hrest⟩ := h
    obtain ⟨hkeep₁, hopen⟩ := hcheck.spec hs
    obtain ⟨hkeep₂, hall⟩ := ih hkeep₁.shape hrest
    refine ⟨hkeep₁.trans hkeep₂, ?_⟩
    intro c hc
    rcases List.mem_cons.mp hc with rfl | hc
    · exact hkeep₂.stays c hopen
    · exact hall c hc

end Walks

section Steps

variable {ptr size start limit v a b : Addr} {n k : ℕ}

def stepAt (start : Addr) (k : ℕ) : Addr := start + BitVec.ofNat 64 (4096 * k)

theorem stepAt_succ (start : Addr) (k : ℕ) : stepAt start (k + 1) = stepAt (start + 0x1000) k := by
  unfold stepAt
  rw [Nat.mul_add, BitVec.ofNat_add, BitVec.add_comm (BitVec.ofNat 64 (4096 * k)), BitVec.add_assoc]
  rfl

theorem stepAt_toNat (start : Addr) (k : ℕ) :
    (stepAt start k).toNat = (start.toNat + 4096 * k) % 2 ^ 64 := by
  unfold stepAt
  rw [BitVec.toNat_add, BitVec.toNat_ofNat, Nat.add_mod_mod]

/-- The loop gets as far as all addresses before lie below its limit. -/
theorem stepAt_mem_visited (hk : k < n) (hall : ∀ j ≤ k, (stepAt start j).toNat < limit.toNat) :
    stepAt start k ∈ visited n start limit := by
  induction n generalizing start k with
  | zero => omega
  | succ n ih =>
    have hzero := hall 0 (by omega)
    have hlt : start < limit := by
      rw [BitVec.lt_def]
      simpa [stepAt] using hzero
    rw [visited, if_pos hlt]
    cases k with
    | zero => simp [stepAt]
    | succ k =>
      rw [stepAt_succ]
      refine List.mem_cons_of_mem _ (ih (by omega) ?_)
      intro j hj
      rw [← stepAt_succ]
      exact hall (j + 1) (by omega)

/-- A loop that does not wrap looks at nothing else. -/
theorem visited_below {m : ℕ} (hm : start.toNat + 4096 * m < 2 ^ 64)
    (hlimit : limit.toNat ≤ start.toNat + 4096 * m) (hv : v ∈ visited n start limit) :
    ∃ k, v.toNat = start.toNat + 4096 * k ∧ v.toNat < limit.toNat := by
  induction n generalizing start m with
  | zero => simp [visited] at hv
  | succ n ih =>
    rw [visited] at hv
    split at hv
    · rename_i hlt
      rw [BitVec.lt_def] at hlt
      rcases List.mem_cons.mp hv with rfl | hv
      · exact ⟨0, by omega, hlt⟩
      · have hnext : (start + 0x1000).toNat = start.toNat + 4096 := by
          rw [BitVec.toNat_add, show (0x1000 : Addr).toNat = 4096 from rfl]
          omega
        obtain ⟨k, hk, hlt'⟩ := ih (m := m - 1) (by omega) (by omega) hv
        exact ⟨k + 1, by omega, hlt'⟩
    · simp at hv

theorem indices_of_page (h : a.toNat / 4096 = b.toNat / 4096) :
    path a = path b ∧ pagetblIndex a = pagetblIndex b := by
  have hindex : ∀ m, tableIndex (12 + m) a = tableIndex (12 + m) b := by
    intro m
    apply Fin.ext
    rw [tableIndex_val, tableIndex_val, Nat.pow_add, ← Nat.div_div_eq_div_mul,
      ← Nat.div_div_eq_div_mul, show 2 ^ 12 = 4096 from rfl, h]
  refine ⟨?_, hindex 0⟩
  unfold path pml4Index pdptIndex pagedirIndex
  rw [hindex 27, hindex 18, hindex 9]

theorem Open.page {mem : FrameNo → Frame} {dir : FrameNo} (ha : Open mem dir a)
    (h : a.toNat / 4096 = b.toNat / 4096) : Open mem dir b := by
  obtain ⟨hcanon, t, ht, huser⟩ := ha
  obtain ⟨hpath, hlast⟩ := indices_of_page h
  rw [isCanonical_iff] at hcanon
  refine ⟨?_, t, hpath ▸ ht, hlast ▸ huser⟩
  rw [isCanonical_iff]
  omega

def lastStep (ptr size : Addr) : ℕ := ptr.toNat + 4096 * ((size.toNat - 1) / 4096)

def ReachesLastPage (ptr size : Addr) : Prop :=
  ptr.toNat % 4096 + (size.toNat - 1) % 4096 < 4096

def InOneHalf (ptr size : Addr) : Prop :=
  lastStep ptr size < 2 ^ 48 ∨ 2 ^ 64 - 2 ^ 48 ≤ ptr.toNat ∧ lastStep ptr size + 4096 < 2 ^ 64

theorem end_toNat (hwrap : ptr.toNat + size.toNat < 2 ^ 64) :
    (ptr + size).toNat = ptr.toNat + size.toNat := by
  rw [BitVec.toNat_add]
  omega

/-- A loop that leaves its half looks at an address that is not canonical. -/
theorem visits_noncanonical (hsize : size.toNat ≠ 0) (hwrap : ptr.toNat + size.toNat < 2 ^ 64)
    (hhalf : ¬ InOneHalf ptr size) :
    ∃ v ∈ pageLoop ptr (ptr + size), isCanonical v = false := by
  have hlast : lastStep ptr size < ptr.toNat + size.toNat := by
    unfold lastStep
    omega
  have hstep : ∀ k, k < 2 ^ 52 → (∀ j ≤ k, (stepAt ptr j).toNat < ptr.toNat + size.toNat) →
      2 ^ 48 ≤ (stepAt ptr k).toNat → (stepAt ptr k).toNat < 2 ^ 64 - 2 ^ 48 →
      ∃ v ∈ pageLoop ptr (ptr + size), isCanonical v = false := by
    intro k hk hall hlow hhigh
    refine ⟨stepAt ptr k, stepAt_mem_visited hk (by rwa [end_toNat hwrap]), ?_⟩
    rw [← Bool.not_eq_true, isCanonical_iff]
    omega
  have hptr := ptr.isLt
  unfold InOneHalf at hhalf
  unfold lastStep at hhalf hlast
  rw [not_or, not_and_or] at hhalf
  by_cases hlow : ptr.toNat < 2 ^ 64 - 2 ^ 48
  · -- the first step at or above 2^48
    let k := if ptr.toNat < 2 ^ 48 then (2 ^ 48 - ptr.toNat + 4095) / 4096 else 0
    have hk : 2 ^ 48 ≤ ptr.toNat + 4096 * k ∧ (ptr.toNat + 4096 * k = ptr.toNat ∨
        ptr.toNat + 4096 * k < 2 ^ 48 + 4096) := by
      unfold k
      split <;> omega
    have hkK : k ≤ (size.toNat - 1) / 4096 := by
      unfold k
      split <;> omega
    have hval : ∀ j ≤ k, (stepAt ptr j).toNat = ptr.toNat + 4096 * j := by
      intro j hj
      rw [stepAt_toNat]
      omega
    refine hstep k (by omega) (fun j hj => by rw [hval j hj]; omega) ?_ ?_
    · rw [hval k le_rfl]
      omega
    · rw [hval k le_rfl]
      omega
  · -- the loop wraps and climbs through the low half
    have hend : 2 ^ 64 ≤ ptr.toNat + 4096 * ((size.toNat - 1) / 4096) + 4096 := by omega
    let k := (2 ^ 64 - ptr.toNat + 4095) / 4096 + 2 ^ 36
    have hk : 2 ^ 64 + 2 ^ 48 ≤ ptr.toNat + 4096 * k ∧
        ptr.toNat + 4096 * k < 2 ^ 64 + 2 ^ 48 + 4096 := by
      unfold k
      omega
    refine hstep k (by omega) ?_ ?_ ?_
    · intro j hj
      rw [stepAt_toNat]
      omega
    · rw [stepAt_toNat]
      omega
    · rw [stepAt_toNat]
      omega

end Steps

section Hall

def passage (f : FrameNo) : Entry :=
  { Entry.zero with present := true, rw := true, usermode := true, address := f }

def kernelPage : Entry := { passage 8 with usermode := false }

def atHole (hole : Option Addr) (index : Addr → Fin 512) (i : Fin 512) : Bool :=
  decide (hole.map index = some i)

/-- Four tables that lead every address to an open page, and three more on the way to the
page of `hole`, which is a kernel page. -/
def hall (hole : Option Addr) (f : FrameNo) (i : Fin 512) : Entry :=
  if f = 1 then passage (if atHole hole pml4Index i then 5 else 2)
  else if f = 2 then passage 3
  else if f = 3 then passage 4
  else if f = 4 then passage 0
  else if f = 5 then passage (if atHole hole pdptIndex i then 6 else 3)
  else if f = 6 then passage (if atHole hole pagedirIndex i then 7 else 4)
  else if f = 7 then if atHole hole pagetblIndex i then kernelPage else passage 0
  else Entry.zero

def hallDepth (f : FrameNo) : Option ℕ :=
  if f = 1 then some 0
  else if f = 2 ∨ f = 5 then some 1
  else if f = 3 ∨ f = 6 then some 2
  else if f = 4 ∨ f = 7 then some 3
  else none

variable {hole : Option Addr} {a : Addr}

theorem kNext_passage {d : ℕ} (hd : d < 3) {f : FrameNo} (hf : f.toNat < 2 ^ 19) :
    kNext d (passage f) = some f := kNext_link hd (fun _ => rfl) rfl hf

theorem hall_step {d : ℕ} {f g : FrameNo} {i : Fin 512} (hf : hallDepth f = some d)
    (hnext : kNext d (hall hole f i) = some g) : hallDepth g = some (d + 1) := by
  have hd : d < 3 := by
    have hfollow := (physFrame_of_kNext hnext).1
    simp only [follow, Bool.and_eq_true, decide_eq_true_eq] at hfollow
    exact hfollow.1.1
  unfold hallDepth at hf
  split_ifs at hf with h1 h2 h3 h4
  · obtain rfl : (0 : ℕ) = d := Option.some.inj hf
    subst h1
    cases hat : atHole hole pml4Index i <;>
      (rw [hall, if_pos rfl, hat, kNext_passage hd (by decide)] at hnext
       rw [← Option.some.inj hnext]
       rfl)
  · obtain rfl : (1 : ℕ) = d := Option.some.inj hf
    rcases h2 with rfl | rfl
    · rw [hall, if_neg h1, if_pos rfl, kNext_passage hd (by decide)] at hnext
      rw [← Option.some.inj hnext]
      rfl
    · cases hat : atHole hole pdptIndex i <;>
        (simp only [hall, hat, BitVec.reduceEq, if_true, if_false, Bool.false_eq_true] at hnext
         rw [kNext_passage hd (by decide)] at hnext
         rw [← Option.some.inj hnext]
         rfl)
  · obtain rfl : (2 : ℕ) = d := Option.some.inj hf
    rcases h3 with rfl | rfl
    · simp only [hall, BitVec.reduceEq, if_true, if_false] at hnext
      rw [kNext_passage hd (by decide)] at hnext
      rw [← Option.some.inj hnext]
      rfl
    · cases hat : atHole hole pagedirIndex i <;>
        (simp only [hall, hat, BitVec.reduceEq, if_true, if_false, Bool.false_eq_true] at hnext
         rw [kNext_passage hd (by decide)] at hnext
         rw [← Option.some.inj hnext]
         rfl)
  · have := Option.some.inj hf
    omega

theorem hall_walk {d : ℕ} {f g : FrameNo} {p : List (Fin 512)} (hf : hallDepth f = some d)
    (hg : walk kNext (hall hole) d f p = some g) : hallDepth g = some (d + p.length) := by
  induction p generalizing d f with
  | nil =>
    obtain rfl : f = g := Option.some.inj hg
    exact hf
  | cons i p ih =>
    rw [walk_cons] at hg
    obtain ⟨f', hnext, hg⟩ := Option.bind_eq_some_iff.mp hg
    have hrest := ih (hall_step hf hnext) hg
    rw [List.length_cons, hrest]
    congr 1
    omega

def hallPmm : Pmm.State := ⟨fun i => if i = 0 then 0x1FF else 0, 64, 9, 64⟩

def hallState (hole : Option Addr) : State Pmm.State := ⟨hall hole, fun _ => 0, hallPmm⟩

theorem hallState_shape (hole : Option Addr) : Shape PmmAllocator.bitmap 1 (hallState hole) := by
  have hdepth : ∀ p g, tableAt kNext (hall hole) 1 p = some g → hallDepth g = some p.length :=
    fun p g hg => (hall_walk rfl hg).trans (by rw [Nat.zero_add])
  refine ⟨show hallPmm.nframes.toNat ≤ 2 ^ 19 by decide, ?_, ?_⟩
  · intro p g hg
    have hrank := hdepth p g hg
    change Pmm.used hallPmm g.toNat = true
    unfold hallDepth at hrank
    split_ifs at hrank with h1 h2 h3 h4
    · subst h1
      decide
    · rcases h2 with rfl | rfl <;> decide
    · rcases h3 with rfl | rfl <;> decide
    · rcases h4 with rfl | rfl <;> decide
  · intro p q g hp hq
    exact Option.some.inj ((hdepth p g hp).symm.trans (hdepth q g hq))

theorem hall_tableAt (a : Addr) :
    tableAt kNext (hall hole) 1 (path a) =
      some (if atHole hole pml4Index (pml4Index a) && atHole hole pdptIndex (pdptIndex a) &&
        atHole hole pagedirIndex (pagedirIndex a) then 7 else 4) := by
  simp only [tableAt, path, walk_cons, walk_nil]
  cases h4 : atHole hole pml4Index (pml4Index a) <;>
    cases h3 : atHole hole pdptIndex (pdptIndex a) <;>
      cases h2 : atHole hole pagedirIndex (pagedirIndex a) <;>
        simp [hall, h4, h3, h2, kNext_passage]

theorem hall_open (ha : isCanonical a = true)
    (hne : ∀ b, hole = some b → ¬ (path a = path b ∧ pagetblIndex a = pagetblIndex b)) :
    Open (hall hole) 1 a := by
  refine ⟨ha, _, hall_tableAt a, ?_⟩
  split
  · rename_i hat
    simp only [Bool.and_eq_true, atHole, decide_eq_true_eq] at hat
    obtain ⟨⟨h4, h3⟩, h2⟩ := hat
    obtain ⟨b, hb, hb4⟩ := Option.map_eq_some_iff.mp h4
    subst hb
    have hlast : atHole (some b) pagetblIndex (pagetblIndex a) = false := by
      simp only [atHole, Option.map_some, Option.some.injEq, decide_eq_false_iff_not]
      intro h1
      apply hne b rfl
      refine ⟨?_, h1.symm⟩
      simp only [Option.map_some, Option.some.injEq] at h3 h2
      simp only [path, hb4, h3, h2]
    simp only [hall, hlast, BitVec.reduceEq, if_true, if_false, Bool.false_eq_true]
    rfl
  · simp only [hall, BitVec.reduceEq, if_true, if_false]
    rfl

theorem hall_closed (b : Addr) : ¬ Open (hall (some b)) 1 b := by
  rintro ⟨-, t, ht, huser⟩
  rw [hall_tableAt] at ht
  simp only [atHole, Option.map_some, decide_true, Bool.and_self, if_true] at ht
  obtain rfl := Option.some.inj ht
  simp [hall, atHole, kernelPage] at huser

/-- Where all addresses looked at are open nothing is mapped and the check passes. -/
theorem rangePasses_of_open {A : Allocator P} {s : State P} {process : Process} {l : List Addr}
    (hall : ∀ a ∈ l, Open s.phys process.dir a) : RangePasses A process l s s := by
  induction l with
  | nil => rfl
  | cons a l ih =>
    have hvalid : ValidAt A s process.dir a := validAt_iff.mpr (hall a (List.mem_cons_self ..))
    refine ⟨s, ⟨?_, Or.inl hvalid⟩, ih fun b hb => hall b (List.mem_cons_of_mem _ hb)⟩
    rw [syscallValidatePtr, hvalid]
    rfl

end Hall

/-- A buffer that passes is complete, if it does not wrap and its last page is looked at. -/
theorem complete_of_passes {L : LawfulAllocator P} {s s' : State P} {process : Process}
    {ptr size : Addr} (hs : Shape L process.dir s)
    (hpass : PtrSizePasses L.toAllocator s process ptr size s')
    (hwrap : ptr.toNat + size.toNat < 2 ^ 64) (hlast : ReachesLastPage ptr size) :
    Complete L.toAllocator s' process.dir ptr size := by
  refine ⟨hwrap, ?_⟩
  intro a hlow hhigh
  rw [validAt_iff]
  obtain ⟨-, hall⟩ := RangePasses.spec hs hpass
  unfold ReachesLastPage at hlast
  let k := a.toNat / 4096 - ptr.toNat / 4096
  have hk : k ≤ (size.toNat - 1) / 4096 := by
    unfold k
    omega
  have hval : ∀ j ≤ k, (stepAt ptr j).toNat = ptr.toNat + 4096 * j := by
    intro j hj
    rw [stepAt_toNat]
    omega
  have hmem : stepAt ptr k ∈ pageLoop ptr (ptr + size) := by
    apply stepAt_mem_visited
    · have := size.isLt
      omega
    · intro j hj
      rw [end_toNat hwrap, hval j hj]
      omega
  apply (hall _ hmem).page
  rw [hval k le_rfl]
  unfold k
  omega

/-- Where the last page is not looked at, it may be a kernel page. -/
theorem passes_incomplete {ptr size : Addr} (hwrap : ptr.toNat + size.toNat < 2 ^ 64)
    (hlast : ¬ ReachesLastPage ptr size) (hhalf : InOneHalf ptr size) :
    ∃ hole, PtrSizePasses PmmAllocator.pmm (hallState hole) ⟨1, 0, 0⟩ ptr size (hallState hole) ∧
      ¬ Complete PmmAllocator.pmm (hallState hole) 1 ptr size := by
  unfold ReachesLastPage at hlast
  let l : Addr := BitVec.ofNat 64 (ptr.toNat + size.toNat - 1)
  have hl : l.toNat = ptr.toNat + size.toNat - 1 := by
    unfold l
    rw [BitVec.toNat_ofNat]
    omega
  have hfail : ∀ hole, ¬ Open (hall hole) 1 l →
      ¬ Complete PmmAllocator.pmm (hallState hole) 1 ptr size := by
    intro hole hclosed hcomplete
    exact hclosed (validAt_iff.mp (hcomplete.valid l (by omega) (by omega)))
  have hvisited : ∀ v ∈ pageLoop ptr (ptr + size), isCanonical v = true ∧
      v.toNat / 4096 < l.toNat / 4096 ∧ (v.toNat < 2 ^ 48 ∨ 2 ^ 64 - 2 ^ 48 ≤ ptr.toNat) ∧
      ptr.toNat ≤ v.toNat := by
    intro v hv
    unfold InOneHalf lastStep at hhalf
    obtain ⟨k, hk, hlt⟩ := visited_below (m := (size.toNat - 1) / 4096 + 1) (by omega)
      (by rw [end_toNat hwrap]; omega) hv
    rw [end_toNat hwrap] at hlt
    rw [isCanonical_iff]
    omega
  cases hcanon : isCanonical l with
  | false =>
    refine ⟨none, ?_, hfail none fun hopen => Bool.false_ne_true (hcanon.symm.trans hopen.1)⟩
    apply rangePasses_of_open
    intro v hv
    exact hall_open (hvisited v hv).1 fun _ h => absurd h.symm (Option.some_ne_none _)
  | true =>
    refine ⟨some l, ?_, hfail _ (hall_closed l)⟩
    apply rangePasses_of_open
    intro v hv
    obtain ⟨hv, hpage, hside, hle⟩ := hvisited v hv
    refine hall_open hv ?_
    rintro b hb ⟨hpath, hlast⟩
    obtain rfl := Option.some.inj hb
    rw [isCanonical_iff] at hcanon
    simp only [path, List.cons.injEq, and_true, pml4Index, pdptIndex, pagedirIndex, pagetblIndex,
      Fin.ext_iff, tableIndex_val] at hpath hlast
    obtain ⟨h39, h30, h21⟩ := hpath
    unfold InOneHalf lastStep at hhalf
    norm_num at h39 h30 h21 hlast hcanon hside hhalf
    omega

/-- The check of a user buffer is complete exactly for the buffers that do not wrap and
whose last page it steps on; those that leave their half never pass. -/
theorem ptrSizeCheck_complete_iff (ptr size : Addr) :
    (∀ (s s' : State Pmm.State) (process : Process),
      Shape PmmAllocator.bitmap process.dir s →
      PtrSizePasses PmmAllocator.pmm s process ptr size s' →
      Complete PmmAllocator.pmm s' process.dir ptr size) ↔
    size = 0 ∨ ptr.toNat + size.toNat < 2 ^ 64 ∧
      (ReachesLastPage ptr size ∨ ¬ InOneHalf ptr size) := by
  have hptr := ptr.isLt
  constructor
  · intro h
    by_cases hzero : size = 0
    · exact Or.inl hzero
    by_cases hwrap : ptr.toNat + size.toNat < 2 ^ 64
    · refine Or.inr ⟨hwrap, ?_⟩
      by_contra hnot
      rw [not_or, not_not] at hnot
      obtain ⟨hole, hpass, hfail⟩ := passes_incomplete hwrap hnot.1 hnot.2
      exact hfail (h _ _ ⟨1, 0, 0⟩ (hallState_shape hole) hpass)
    · -- the loop ends before its first step
      have hnone : pageLoop ptr (ptr + size) = [] := by
        have hge : ¬ ptr < ptr + size := by
          rw [BitVec.lt_def, BitVec.toNat_add]
          have := size.isLt
          omega
        change visited (2 ^ 52 - 1 + 1) _ _ = []
        rw [visited, if_neg hge]
      have hpass : PtrSizePasses PmmAllocator.pmm (hallState none) ⟨1, 0, 0⟩ ptr size
          (hallState none) := by
        rw [PtrSizePasses, hnone]
        rfl
      exact absurd (h _ _ ⟨1, 0, 0⟩ (hallState_shape none) hpass).noWrap hwrap
  · intro hcond s s' process hs hpass
    rcases hcond with rfl | ⟨hwrap, hcond⟩
    · refine ⟨by simpa using hptr, fun a hlow hhigh => ?_⟩
      simp only [BitVec.ofNat_eq_ofNat, BitVec.toNat_zero, Nat.add_zero] at hhigh
      omega
    · by_cases hsize : size.toNat = 0
      · refine ⟨hwrap, fun a hlow hhigh => ?_⟩
        omega
      rcases hcond with hlast | hhalf
      · exact complete_of_passes hs hpass hwrap hlast
      · obtain ⟨v, hv, hcanon⟩ := visits_noncanonical hsize hwrap hhalf
        obtain ⟨-, hall⟩ := RangePasses.spec (L := PmmAllocator.bitmap) hs hpass
        exact absurd (hcanon.symm.trans (hall v hv).1) Bool.false_ne_true

/-- Two bytes across a page boundary: the check looks at the first page only, and the
kernel writes the second byte into a page of its own. -/
theorem sysRead_writes_kernel_page :
    Shape PmmAllocator.bitmap 1 (hallState (some 0x401000)) ∧
      PtrSizePasses PmmAllocator.pmm (hallState (some 0x401000)) ⟨1, 0, 0⟩ 0x400FFF 2
        (hallState (some 0x401000)) ∧
      ¬ Complete PmmAllocator.pmm (hallState (some 0x401000)) 1 0x400FFF 2 ∧
      ((hallState (some 0x401000)).phys 8).byte 0 = 0 ∧
      (sysRead PmmAllocator.pmm (hallState (some 0x401000)) ⟨1, 0, 0⟩ (some [1, 2]) 0x400FFF
        2).toOption.map (fun s => (s.phys 8).byte 0) = some 2 := by
  refine ⟨hallState_shape _, ?_, ?_, by decide +kernel, by decide +kernel⟩
  · have hsteps : pageLoop 0x400FFF (0x400FFF + 2) = [0x400FFF] := by decide +kernel
    rw [PtrSizePasses, hsteps]
    apply rangePasses_of_open
    intro v hv
    obtain rfl : v = 0x400FFF := by simpa using hv
    refine hall_open (by decide) ?_
    intro b hb
    obtain rfl := Option.some.inj hb
    decide
  · intro hcomplete
    exact hall_closed 0x401000 (validAt_iff.mp (hcomplete.valid 0x401000 (by decide) (by decide)))

end ReduceOS.PointerCheck
