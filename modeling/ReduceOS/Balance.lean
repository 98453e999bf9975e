import ReduceOS.Isolation

/-!
Cloning an address space and destroying the clone. Every table and every copied page
of the clone goes back to the allocator and every shared page loses one reference, so
the used frames are the ones from before, the counter included, and the original keeps
its mappings. Some of its pages may be left read-only, waiting for a copy that the
next write finds unnecessary. That holds while the clone takes frames below 2 GiB only: what it
takes is read off the directory, and what the allocator has is counted there.
-/
namespace ReduceOS.Balance

open Machine Page Physical Paging AddressSpace Outcome TableTree PageMap Sharing SharedPages Views
  CloneTasks Clone Destroy UserAccess CopyOnWrite WellBuilt Isolation PmmAllocator

variable {P : Type}

def destroyClone (A : Allocator P) (s : State P) (dir : FrameNo) : Except Panic (State P) := do
  let (vas, s) ← memClone A s dir
  memDestroyVAS A s vas

def translation (mem : FrameNo → Frame) (dir : FrameNo) (a : Addr) : Option (FrameNo × Bool) :=
  ((pageEntry mem dir a).filter fun x => (mem x.1 x.2).present).map fun x =>
    ((mem x.1 x.2).address, (mem x.1 x.2).usermode)

def Elsewhere (used live : Set FrameNo) (mem : FrameNo → Frame) (f : FrameNo) : Prop :=
  f ∈ used ∧ ¬ IsTable (lower live) hNext mem f ∧ ∀ x, UserPte live mem x →
      (mem x.1 x.2).address ≠ f

structure Balanced (live : Set FrameNo) (s s' : State Pmm.State) : Prop where
  frames : usedFrames s'.pmm = usedFrames s.pmm
  counter : s'.pmm.usedBlocks = s.pmm.usedBlocks
  translations : ∀ dir ∈ live, ∀ a, isUser a = true →
    translation s'.phys dir a = translation s.phys dir a
  loads : ∀ dir ∈ live, ∀ a, load s'.phys dir a = load s.phys dir a
  upper : ∀ dir ∈ live, ∀ i : Fin 512, 256 ≤ i.val → s'.phys dir i = s.phys dir i
  elsewhere : ∀ f, Elsewhere (usedFrames s.pmm) live s.phys f → s'.phys f = s.phys f

section Spec

variable {L : LawfulAllocator P} {A : Allocator P} {S : P → List Task → Prop} {Y : Layout}
  {Z : Set Slot} {live F : Set FrameNo} {s s' : State P} {dir : FrameNo} {a : Addr}

theorem destroyClone_spec (hS : Supplied L A S F (fun _ => False) Oom)
    (hfree : ∀ s vas, memDestroyVAS A s vas = memDestroyVAS L.toAllocator s vas)
    (hw : Formed L Y F (lower live) s) (hZ : Pins Y (lower live) Z) (hdir : dir ∈ live)
    (hF : ∀ f ∈ F, Held (holding (lower live) s.phys) f) (ha : Ahead S (cloneTasks s.phys dir) s) :
    Meets Oom (destroyClone A s dir) fun s' =>
      Formed L Y F (lower live) s' ∧ Keep Z (lower live) s.phys s'.phys := by
  obtain ⟨hsame, hclone⟩ :=
    (memClone_runs hS hw hZ hdir ha).resolve_left fun hbad => hbad.choose_spec.1
  unfold destroyClone
  rw [hsame]
  refine meets_bind hclone ?_
  rintro ⟨vas, s₁⟩ ⟨⟨hfresh, hw₁, hkeep₁, -⟩, -⟩
  have hvas : vas ∉ live := fun hbad =>
    hfresh ((hw.used vas).mpr (Or.inr (Or.inl ⟨vas, [], ⟨hbad, by simp, by simp⟩, rfl⟩)))
  have hZ₁ : Pins Y (lower (insert vas live)) Z := by
    intro x hx
    refine (hZ x hx).imp id fun hroot => ⟨⟨Or.inr hroot.1.1, hroot.1.2⟩, fun hbad => hroot.2 ?_⟩
    exact ⟨hroot.1.1, hbad.2⟩
  have hguarded : Guarded (lower live) (lower (insert vas live)) F vas s₁.phys :=
    ⟨fun q hq => hvas hq.1, fun r q hq => ⟨Or.inr hq.1, hq.2⟩,
      fun f hf => (hkeep₁.held_iff f).mpr (hF f hf)⟩
  have hdestroy := memDestroyVAS_guarded hw₁ hZ₁ (Set.mem_insert vas live) hguarded
  rw [Set.insert_sdiff_self_of_notMem hvas] at hdestroy
  cases hcall : memDestroyVAS L.toAllocator s₁ vas with
  | error e =>
    rw [hcall] at hdestroy
    exact hdestroy.elim
  | ok s₂ =>
    rw [hcall] at hdestroy
    have hdestroy : Removed L Y F Z (lower live) s₁ s₂ := hdestroy
    change Meets Oom (memDestroyVAS A s₁ vas) _
    rw [hfree, hcall]
    exact ⟨hdestroy.1, hkeep₁.trans hdestroy.2⟩

/-- A clone that cannot be made without a bad frame faults. -/
theorem destroyClone_stops (hS : Supplied L A S F (· = .pageFault) fun _ => False)
    (hdone : ∀ p, ¬ S p []) (hw : Formed L Y F (lower live) s) (hZ : Pins Y (lower live) Z)
    (hdir : dir ∈ live) (ha : Ahead S (cloneTasks s.phys dir) s) :
    destroyClone A s dir = .error .pageFault := by
  rcases memClone_runs hS hw hZ hdir ha with ⟨e, rfl, hcall⟩ | ⟨-, hclone⟩
  · rw [destroyClone, hcall]
    rfl
  · cases hcall : memClone L.toAllocator s dir with
    | error e =>
      rw [hcall] at hclone
      exact hclone.elim
    | ok res =>
      rw [hcall] at hclone
      exact absurd hclone.2 (hdone _)

theorem used_of_keep (hw : Formed L Y F (lower live) s) (hw' : Formed L Y F (lower live) s')
    (hkeep : Keep Z (lower live) s.phys s'.phys) : L.used s'.pmm = L.used s.pmm := by
  have htable := isTable_congr fun r p hp => hkeep.tableAt hp
  ext f
  rw [hw.used, hw'.used, htable, hkeep.held_iff]

theorem translation_of_keep (hw : Formed L Y F (lower live) s)
    (hw' : Formed L Y F (lower live) s') (hkeep : Keep Z (lower live) s.phys s'.phys)
    (hdir : dir ∈ live) (ha : isUser a = true) :
    translation s'.phys dir a = translation s.phys dir a := by
  have hpos := carrier_position hdir ha
  have hpath := (lower live).closed dir (path a) [pagetblIndex a] hpos
  have hwalk : tableAt hNext s'.phys dir (path a) = tableAt hNext s.phys dir (path a) := by
    rw [hardware_tableAt hw' hpath (by simp [path]), hardware_tableAt hw hpath (by simp [path]),
      hkeep.tableAt hpath]
  unfold translation pageEntry
  rw [hwalk]
  cases hg : tableAt hNext s.phys dir (path a) with
  | none => rfl
  | some g =>
    rw [hardware_tableAt hw hpath (by simp [path])] at hg
    have hsame := hkeep.entries dir (path a) (pagetblIndex a) g hpos hg
    simp only [Option.map_some, Option.filter_some, hsame.present_eq]
    split_ifs
    · simp [hsame.address_eq, hsame.usermode_eq]
    · rfl

end Spec

section Supply

variable {p p' : Pmm.State} {f : ℕ} {t : Task} {tasks : List Task} {F : Set FrameNo}

/-- What these tasks take before memory runs out lies below 2 GiB, and so do the pages copied. -/
structure Supplies (p : Pmm.State) (tasks : List Task) : Prop where
  frames : tasks.length ≤ (lowFree p).card ∨ room p ≤ (lowFree p).card ∨
    ∀ f < 32 * Pmm.indexBit p.nframes.toNat, FrameSearch.accepts p f → f < 2 ^ 19
  pages : ∀ address f, .page address f ∈ tasks.take (min (lowFree p).card (room p)) →
    f.toNat < 2 ^ 19

theorem supplies_nil (p : Pmm.State) : Supplies p [] :=
  ⟨Or.inl (Nat.zero_le _), by simp⟩

theorem supplies_of_exhausted (h : room p = 0 ∨ Pmm.scanFrame p = none) : Supplies p tasks := by
  rcases h with hroom | hscan
  · exact ⟨Or.inr (Or.inl (by omega)), by simp [hroom]⟩
  · refine ⟨Or.inr (Or.inr fun f hf haccepts => ?_), by simp [lowFree_of_none hscan]⟩
    exact absurd haccepts ((FrameSearch.scanFrame_first p).2 hscan f hf)

theorem not_supplies_of_high (hroom : room p ≠ 0) (hscan : Pmm.scanFrame p = some f)
    (hhigh : 2 ^ 19 ≤ f) : ¬ Supplies p (t :: tasks) := by
  obtain ⟨hf, haccepts, -⟩ := (FrameSearch.scanFrame_first p).1 f hscan
  rintro ⟨hframes, -⟩
  rw [lowFree_of_high hscan hhigh, Finset.card_empty] at hframes
  rcases hframes with h | h | h
  · simp at h
  · omega
  · exact absurd (h f hf haccepts) (by omega)

/-- One task taken from the frames below 2 GiB. -/
theorem supplies_cons (h : TookLow p f p') : Supplies p (t :: tasks) ↔
    (∀ address g, t = .page address g → g.toNat < 2 ^ 19) ∧ Supplies p' tasks := by
  have hcard : (lowFree p).card = (lowFree p').card + 1 := by
    rw [h.lowFree, Finset.card_erase_add_one h.found]
  have hhigh : (∀ g < 32 * Pmm.indexBit p.nframes.toNat, FrameSearch.accepts p g → g < 2 ^ 19) ↔
      ∀ g < 32 * Pmm.indexBit p'.nframes.toNat, FrameSearch.accepts p' g → g < 2 ^ 19 := by
    rw [h.nframes]
    refine forall₂_congr fun g _ => ?_
    by_cases hg : 2 ^ 19 ≤ g
    · rw [h.high g hg]
    · exact iff_of_true (fun _ => by omega) fun _ => by omega
  have htake : (t :: tasks).take (min (lowFree p).card (room p)) =
      t :: tasks.take (min (lowFree p').card (room p')) := by
    rw [hcard, h.room, Nat.add_min_add_right, List.take_succ_cons]
  constructor
  · rintro ⟨hframes, hpages⟩
    rw [htake] at hpages
    refine ⟨fun address g ht => hpages address g (ht ▸ List.mem_cons_self), ?_,
      fun address g hg => hpages address g (List.mem_cons_of_mem _ hg)⟩
    rw [hcard, h.room, hhigh, List.length_cons, Nat.add_le_add_iff_right,
      Nat.add_le_add_iff_right] at hframes
    exact hframes
  · rintro ⟨hnear, hframes, hpages⟩
    refine ⟨?_, fun address g hg => ?_⟩
    · rw [hcard, h.room, hhigh, List.length_cons, Nat.add_le_add_iff_right,
        Nat.add_le_add_iff_right]
      exact hframes
    · rw [htake, List.mem_cons] at hg
      exact hg.elim (fun ht => hnear address g ht.symm) (hpages address g)

theorem allocateFrame_congr {A B : Allocator P} {s : State P}
    (h : A.allocateBlock s.pmm = B.allocateBlock s.pmm) :
    allocateFrame A s = allocateFrame B s := by
  rw [allocateFrame, allocateFrame, h]

theorem supplied_pmm (d : BitVec 64) (hF : ∀ f ∈ F, 2 ^ 19 ≤ f.toNat) :
    Supplied (watched d) pmm Supplies F (fun _ => False) Oom := by
  refine ⟨fun s t tasks hv hs => ?_⟩
  rcases allocateBlock_cases s.pmm with ⟨hcall, hlow, -⟩ | ⟨f, r, hcall, hlow, htook⟩ |
    ⟨-, hroom, f, hscan, hhigh⟩
  · refine Or.inr ⟨allocateFrame_congr (hcall.trans hlow.symm), ?_⟩
    rw [allocateFrame, show (watched d).allocateBlock s.pmm = _ from hlow]
    rfl
  · obtain ⟨g, haddr, htaken, hframe⟩ := allocateFrame_of_block (watched d) hv hlow
    obtain ⟨hnear, hrest⟩ := (supplies_cons htook).mp hs
    refine Or.inr ⟨allocateFrame_congr (hcall.trans hlow.symm), ?_⟩
    rw [hframe]
    refine ⟨haddr, htaken, Or.inl ⟨hrest, fun address g ht hg => ?_⟩⟩
    exact Nat.not_le.mpr (hnear address g ht) (hF g hg)
  · exact absurd hs (not_supplies_of_high hroom hscan hhigh)

theorem faulting_pmm (d : BitVec 64) (hF : ∀ f ∈ F, 2 ^ 19 ≤ f.toNat) :
    Supplied (watched d) pmm (fun p tasks => p.nframes.toNat ≤ 2 ^ 20 ∧
      (∀ address f, .page address f ∈ tasks → f.toNat < 2 ^ 20) ∧ ¬ Supplies p tasks) F
      (· = .pageFault) fun _ => False := by
  refine ⟨?_⟩
  rintro s t tasks hv ⟨hsmall, hpages, hno⟩
  rcases allocateBlock_cases s.pmm with ⟨-, -, hnone⟩ | ⟨f, r, hcall, hlow, htook⟩ |
    ⟨-, hroom, f, hscan, hhigh⟩
  · exact absurd (supplies_of_exhausted hnone) hno
  · obtain ⟨g, haddr, htaken, hframe⟩ := allocateFrame_of_block (watched d) hv hlow
    refine Or.inr ⟨allocateFrame_congr (hcall.trans hlow.symm), ?_⟩
    rw [hframe]
    refine ⟨haddr, htaken, ?_⟩
    by_cases hnear : ∀ address f, t = .page address f → f.toNat < 2 ^ 19
    · refine Or.inl ⟨⟨htook.nframes ▸ hsmall, ?_, fun hrest => ?_⟩, ?_⟩
      · exact fun address f hf => hpages address f (List.mem_cons_of_mem _ hf)
      · exact hno ((supplies_cons htook).mpr ⟨hnear, hrest⟩)
      · exact fun address f ht hf => Nat.not_le.mpr (hnear address f ht) (hF f hf)
    · push Not at hnear
      obtain ⟨address, f, rfl, hhigh⟩ := hnear
      exact Or.inr ⟨address, f, rfl, rfl,
        unmapped_of_high hhigh (hpages address f List.mem_cons_self)⟩
  · obtain ⟨r, hcall, hfault⟩ := allocateBlock_high hroom hscan hhigh hsmall
    refine Or.inl ⟨_, rfl, ?_⟩
    rw [allocateFrame, pmm_allocateBlock, hcall]
    change physFrame (memRemapPhys r.1) >>= _ = _
    rw [hfault]
    rfl

end Supply

section Bitmap

variable {live : Set FrameNo} {s : State Pmm.State} {dir : FrameNo}

private def untouched (Y : Layout) (live : Set FrameNo) : Set Slot :=
  {x | x.1 ∈ Y.reserved ∨ (x.1 ∈ live ∧ 256 ≤ x.2.val)}

private theorem pins_untouched (Y : Layout) (live : Set FrameNo) :
    Pins Y (lower live) (untouched Y live) := by
  rintro x (hx | ⟨hx, hi⟩)
  · exact Or.inl hx
  · refine Or.inr ⟨⟨hx, by simp, by simp⟩, fun hbad => ?_⟩
    have := hbad.2.2 x.2 (by simp)
    omega

private theorem reserved_of_elsewhere {L : LawfulAllocator P} {s : State P}
    (hb : Built (L.used s.pmm) live s) (hlow : TablesLow live s.phys) {f : FrameNo}
    (hf : Elsewhere (L.used s.pmm) live s.phys f) : f ∈ (startLayout L s live).reserved := by
  obtain ⟨hused, htable, hpage⟩ := hf
  refine ⟨hused, fun hbad => htable ((isTable_iff hb hlow f).mp hbad), ?_⟩
  rintro ⟨x, w, hx⟩
  obtain ⟨hpte, haddr, -⟩ := (holding_iff hb hlow).mp hx
  exact hpage x hpte haddr

/-- Where there are frames below 2 GiB for what a clone takes before memory runs out, and it
copies no page that lies above, destroying it undoes it. On a machine of at most 4 GiB that is the
only case. -/
theorem destroyClone_balanced (hb : Built (usedFrames s.pmm) live s) (hc : Counted live s)
    (hlow : TablesLow live s.phys) (hdir : dir ∈ live) :
    (Supplies s.pmm (taken s.refs (cloneTasks s.phys dir)) →
      Meets Oom (destroyClone pmm s dir) (Balanced live s)) ∧
    (s.pmm.nframes.toNat ≤ 2 ^ 20 →
      (∀ address f, .page address f ∈ taken s.refs (cloneTasks s.phys dir) → f.toNat < 2 ^ 20) →
      Meets Oom (destroyClone pmm s dir) (Balanced live s) →
      Supplies s.pmm (taken s.refs (cloneTasks s.phys dir))) := by
  let L := watched (drift s.pmm)
  let Y := startLayout L s live
  let F : Set FrameNo := {f | Held (holding (lower live) s.phys) f ∧ 2 ^ 19 ≤ f.toNat}
  have hw : Formed L Y F (lower live) s := by
    refine formed_of_layout rfl (fun _ hf hU => absurd hf hU) (fun _ _ _ _ => Set.mem_univ _)
      (fun hno => absurd trivial hno) rfl hb hc hlow fun x hx => ?_
    refine (Nat.lt_or_ge _ _).symm.imp_left fun hhigh => ⟨⟨x, (s.phys x.1 x.2).rw, ?_⟩, hhigh⟩
    exact (holding_iff (L := L) hb hlow).mpr ⟨hx, rfl, rfl⟩
  have hF : ∀ f ∈ F, 2 ^ 19 ≤ f.toNat := fun f hf => hf.2
  have hZ := pins_untouched Y live
  refine ⟨fun hsupplies => ?_, fun hsmall hpages hbalanced => ?_⟩
  rotate_left
  · by_contra hno
    have hstops := destroyClone_stops (faulting_pmm (drift s.pmm) hF)
      (fun p hp => hp.2.2 (supplies_nil p)) hw hZ hdir ⟨hsmall, hpages, hno⟩
    rw [hstops] at hbalanced
    have hoom : Panic.pageFault = Panic.outOfMemory := hbalanced
    contradiction
  have hspec := destroyClone_spec (supplied_pmm (drift s.pmm) hF) (fun _ _ => rfl) hw hZ hdir
    (fun f hf => hf.1) hsupplies
  refine meets_mono hspec ?_
  rintro s' ⟨hw', hkeep⟩
  have hframes : usedFrames s'.pmm = usedFrames s.pmm := used_of_keep hw hw' hkeep
  refine ⟨hframes, ?_, ?_, ?_, ?_, ?_⟩
  · have hdrift : drift s'.pmm = drift s.pmm := hw'.valid
    unfold drift at hdrift
    rw [hframes] at hdrift
    bv_omega
  · exact fun dir hdir a ha => translation_of_keep hw hw' hkeep hdir ha
  · intro dir hdir a
    exact load_congr hw hw' hdir hdir fun ha =>
      hkeep.view (carrier_position hdir ha) (position_length a)
  · exact fun dir hdir i hi => hkeep.pinned (dir, i) (Or.inr ⟨hdir, hi⟩)
  · intro f hf
    funext i
    exact hkeep.pinned (f, i) (Or.inl (reserved_of_elsewhere (L := L) hb hlow hf))

theorem tasks_of_only {mem : FrameNo → Frame} {g : FrameNo} {k : Fin 512} {e : Entry}
    (hg : mem g = Function.update zeroFrame k e) (n : ℕ) (address : Fin 512 → Addr)
    {l : List (Fin 512)} (hnodup : l.Nodup) (hk : k ∈ l) :
    (l.flatMap fun i => entryTasks mem n (address i) (g, i)) =
      entryTasks mem n (address k) (g, k) := by
  obtain ⟨before, after, rfl⟩ := List.append_of_mem hk
  have hempty : ∀ i ≠ k, entryTasks mem n (address i) (g, i) = [] := by
    intro i hi
    apply entryTasks_of_absent
    rw [hg, Function.update_of_ne hi]
    rfl
  obtain ⟨-, hafter, hdisjoint⟩ := List.nodup_append.mp hnodup
  rw [List.flatMap_append, List.flatMap_cons, List.flatMap_eq_nil_iff.mpr,
    List.flatMap_eq_nil_iff.mpr, List.nil_append, List.append_nil]
  · rintro i hi
    exact hempty i fun heq => (List.nodup_cons.mp hafter).1 (heq ▸ hi)
  · rintro i hi
    exact hempty i (hdisjoint i hi k List.mem_cons_self)

theorem onePage_tasks (frame : FrameNo) (p : Pmm.State) :
    cloneTasks (onePage frame p).phys 1 =
      [.table, .table, .table, .table, .page 0x400000 frame] := by
  have hnext : ∀ (n : ℕ) (g h : FrameNo) (k : Fin 512) (a : Addr),
      (onePage frame p).phys g = Function.update zeroFrame k (openEntry h) →
      entryTasks (onePage frame p).phys (n + 1) a (g, k) =
        .table :: tableTasks (onePage frame p).phys n a h := by
    intro n g h k a hg
    have hentry : (onePage frame p).phys g k = openEntry h := by rw [hg, Function.update_self]
    rw [entryTasks_of_present a (by rw [hentry]; rfl), hentry]
    rfl
  have hall := nodup_allIndices
  rw [cloneTasks, tasks_of_only (e := openEntry 2) rfl 3 _ nodup_lowerHalf
      (mem_lowerHalf.mpr (by decide : (0 : Fin 512).val < 256)),
    hnext 2 1 2 0 _ rfl, tableTasks, tasks_of_only (e := openEntry 3) rfl 2 _ hall
      (mem_allIndices 0),
    hnext 1 2 3 0 _ rfl, tableTasks, tasks_of_only (e := openEntry 4) rfl 1 _ hall
      (mem_allIndices 2),
    hnext 0 3 4 2 _ rfl, tableTasks, tasks_of_only (e := openEntry frame) rfl 0 _ hall
      (mem_allIndices 0)]
  rfl

theorem onePage_taken (frame : FrameNo) (p : Pmm.State) :
    taken (onePage frame p).refs (cloneTasks (onePage frame p).phys 1) =
      [.table, .table, .table, .table] := by
  rw [onePage_tasks]
  rfl

/-- More than 4 GiB, with the page in frame 5 or far up, and a small machine. -/
theorem destroyClone_balanced_one_page :
    Meets Oom (destroyClone pmm (onePage 5 largePmm) 1) (Balanced {1} (onePage 5 largePmm)) ∧
      Meets Oom (destroyClone pmm (onePage 0x100005 largePmm) 1)
        (Balanced {1} (onePage 0x100005 largePmm)) ∧
      (Supplies smallPmm [.table, .table, .table, .table] ↔
        Meets Oom (destroyClone pmm (onePage 5 smallPmm) 1)
          (Balanced {1} (onePage 5 smallPmm))) := by
  have hfour : Supplies largePmm [.table, .table, .table, .table] := by
    refine ⟨Or.inl (Finset.card_le_card (?_ : ({6, 7, 8, 9} : Finset ℕ) ⊆ _)), ?_⟩
    · intro f hf
      simp only [Finset.mem_insert, Finset.mem_singleton] at hf
      rcases hf with rfl | rfl | rfl | rfl <;>
        exact Finset.mem_filter.mpr ⟨Finset.mem_range.mpr (by decide), by decide, by decide⟩
    · intro address f hf
      simpa using List.mem_of_mem_take hf
  have htables : ∀ k ∈ [1, 2, 3, 4], Pmm.used largePmm k = true := by decide
  have hnear : Pmm.used largePmm (5 : FrameNo).toNat = true := by decide
  have hfar : Pmm.used largePmm (0x100005 : FrameNo).toNat = true := by decide
  have hlow : ∀ frame p, TablesLow {1} (onePage frame p).phys := by
    intro frame p f hf
    have := (onePage_isTable hf).2
    omega
  have hstart : Built (usedFrames smallPmm) {1} (onePage 5 smallPmm) :=
    onePage_built (by decide) (by decide) (by decide)
  have hsmall := destroyClone_balanced (s := onePage 5 smallPmm) hstart
    onePage_allPrivate.counted (hlow 5 smallPmm) (Set.mem_singleton _)
  rw [onePage_taken] at hsmall
  refine and_assoc.mp ⟨?_, hsmall.1, hsmall.2 (by decide : 64 ≤ 2 ^ 20) (by simp)⟩
  generalize largePmm = p at hfour htables hnear hfar ⊢
  have hsupplies : ∀ frame, Supplies (onePage frame p).pmm
      (taken (onePage frame p).refs (cloneTasks (onePage frame p).phys 1)) := by
    intro frame
    rwa [onePage_taken]
  have hbuilt : ∀ frame : FrameNo, Pmm.used p frame.toNat = true → 4 < frame.toNat →
      Built (usedFrames (onePage frame p).pmm) {1} (onePage frame p) :=
    fun frame hused hlt => onePage_built htables hused hlt
  exact ⟨(destroyClone_balanced (hbuilt 5 hnear (by decide)) onePage_allPrivate.counted (hlow _ p)
      (Set.mem_singleton _)).1 (hsupplies _),
    (destroyClone_balanced (hbuilt 0x100005 hfar (by decide)) onePage_allPrivate.counted (hlow _ p)
      (Set.mem_singleton _)).1 (hsupplies _)⟩

/-- Slightly more than 2 GiB, of which the lower 2 GiB are in use. -/
def lowerHalfUsed : Pmm.State :=
  ⟨fun i => if 0 ≤ i ∧ i < 0x4000 then 0xFFFFFFFF else 0, 0x80020, 0x80000, 0x80020⟩

private theorem scanFrame_lowerHalfUsed : Pmm.scanFrame lowerHalfUsed = some 0x80000 := by
  have hfull : ∀ i ∈ List.range 0x4000,
      ((Pmm.freeBit lowerHalfUsed i).map fun bit => i * 4 * 8 + bit) = none := by
    intro i hi
    have hlt := List.mem_range.mp hi
    have hword : lowerHalfUsed.frames i = 0xFFFFFFFF#64 := by
      have hrange : (0 : Int) ≤ i ∧ (i : Int) < 0x4000 := by omega
      simp only [lowerHalfUsed, hrange, and_self, if_true]
      rfl
    rw [Pmm.freeBit, if_pos hword]
    rfl
  unfold Pmm.scanFrame
  rw [show Pmm.indexBit lowerHalfUsed.nframes.toNat = 0x4000 + 1 from by decide, List.range_succ,
    List.findSome?_append, List.findSome?_eq_none_iff.mpr hfull]
  decide

private theorem allocateBlock_lowerHalfUsed :
    ∃ p, Pmm.allocateBlock lowerHalfUsed = .ok (0xFFFFFFFF80000000, p) := by
  have hroom : ¬ lowerHalfUsed.maxBlocks - lowerHalfUsed.usedBlocks ≤ 0 := by decide
  have hframe : Pmm.findFirstFrame lowerHalfUsed = 0x80000 := by
    rw [Pmm.findFirstFrame, scanFrame_lowerHalfUsed]
    rfl
  have haddr : Pmm.blockAddress 0x80000 = 0xFFFFFFFF80000000 := by decide
  rw [Pmm.allocateBlock, if_neg hroom, hframe, if_neg (by decide), haddr]
  exact ⟨_, rfl⟩

/-- A block that the physical map does not reach stops the clone at once. -/
private theorem destroyClone_fault {A : Allocator P} {s : State P} {block : Addr} {p : P}
    {e : Panic}
    (hblock : A.allocateBlock s.pmm = .ok (block, p))
    (hphys : physFrame (memRemapPhys block) = .error e) (dir : FrameNo) :
    destroyClone A s dir = .error e := by
  simp only [destroyClone, memClone, memCreateVAS, allocateFrame, hblock, bind, Except.bind, hphys]

/-- The first block above 2 GiB has a wrong address, and clearing it faults. -/
theorem clone_faults_above_two_gib :
    Built (usedFrames lowerHalfUsed) {1} (onePage 5 lowerHalfUsed) ∧
      Counted {1} (onePage 5 lowerHalfUsed) ∧
      destroyClone pmm (onePage 5 lowerHalfUsed) 1 = .error .pageFault ∧
      ¬ Meets Oom (destroyClone pmm (onePage 5 lowerHalfUsed) 1)
        (Balanced {1} (onePage 5 lowerHalfUsed)) := by
  have hfault : destroyClone pmm (onePage 5 lowerHalfUsed) 1 = .error .pageFault := by
    obtain ⟨p, hblock⟩ := allocateBlock_lowerHalfUsed
    have hcall : pmm.allocateBlock (onePage 5 lowerHalfUsed).pmm =
        .ok (0xFFFFFFFF80000000, p) := by
      rw [pmm_allocateBlock, onePage_pmm, hblock]
    exact destroyClone_fault hcall (by decide) 1
  refine ⟨onePage_built (by decide) (by decide) (by decide), onePage_allPrivate.counted, hfault, ?_⟩
  rw [hfault, meets_error]
  decide

end Bitmap

end ReduceOS.Balance
