import ReduceOS.PointerCheck
import ReduceOS.References

/-!
The kernel's part of an address space while its process moves the break, faults and
passes pointers. The break is taken as it is given, and a page below it is mapped on
demand whatever it held before, so a break above kernel pages hands them to user code.
While the break stays clear of them, every entry written lies on the way to a user page
or is one, the frames of user pages are never those of tables, and no kernel entry
changes.
-/
namespace ReduceOS.KernelMappings

open Machine Page Physical Paging AddressSpace Outcome TableTree PageMap MapAddress UserAccess
  UserHeap CopyOnWrite References PointerCheck

variable {P : Type} {L : LawfulAllocator P} {s₀ s s' : State P} {dir g t h : FrameNo}
  {p q q' : List (Fin 512)} {i j : Fin 512}

def entryAt (mem : FrameNo → Frame) (dir : FrameNo) (p : List (Fin 512)) (i : Fin 512) :
    Option Entry :=
  (tableAt kNext mem dir p).map fun t => mem t i

/-- A page of the upper half, or one with an entry on its way that is present and closed
to user code. -/
def KernelPosition (mem : FrameNo → Frame) (dir : FrameNo) (q : List (Fin 512)) : Prop :=
  (∃ i ∈ q.head?, 256 ≤ i.val) ∨
    ∃ p i e, p ++ [i] <+: q ∧ entryAt mem dir p i = some e ∧ e.present = true ∧ e.usermode = false

/-- All entries on the way to the kernel's pages are as they were in `s₀`. -/
def Kept (dir : FrameNo) (s₀ s : State P) : Prop :=
  ∀ q, q.length = 4 → KernelPosition s₀.phys dir q → ∀ p i, p ++ [i] <+: q →
    entryAt s.phys dir p i = entryAt s₀.phys dir p i

def UserSlot (K : List (Fin 512) → Prop) (dir : FrameNo) (s : State P) (x : Slot) : Prop :=
  ∃ p, p.length = 3 ∧ ¬ K (p ++ [x.2]) ∧ tableAt kNext s.phys dir p = some x.1 ∧
    (State.entry s x).present = true

/-- The tables of `dir` form a tree, and every user page has a frame of its own that is not
a table. -/
structure Owns (L : LawfulAllocator P) (dir : FrameNo) (K : List (Fin 512) → Prop)
    (s : State P) : Prop where
  tables : Tables L (under dir) s
  owned : ∀ x, UserSlot K dir s x → (State.entry s x).address.toNat < 2 ^ 19 ∧
    (State.entry s x).address ∈ L.used s.pmm ∧
    ¬ IsTable (under dir) kNext s.phys (State.entry s x).address
  distinct : ∀ x y, UserSlot K dir s x → UserSlot K dir s y →
    (State.entry s x).address = (State.entry s y).address → x = y

section Walks

theorem walk_kNext_length {mem : FrameNo → Frame} {d : ℕ} {f : FrameNo}
    (hwalk : walk kNext mem d f p = some g) (hd : d ≤ 3) : d + p.length ≤ 3 := by
  induction p generalizing d f with
  | nil => simpa using hd
  | cons i p ih =>
    rw [walk_cons] at hwalk
    obtain ⟨f', hnext, hrest⟩ := Option.bind_eq_some_iff.mp hwalk
    have hlt : d < 3 := by
      by_contra hge
      rw [kNext_leaf (by omega)] at hnext
      contradiction
    have := ih hrest hlt
    rw [List.length_cons]
    omega

theorem carrier_of_tableAt {mem : FrameNo → Frame} (ht : tableAt kNext mem dir p = some g) :
    (under dir).carrier dir p := by
  have := walk_kNext_length ht (by decide)
  exact ⟨rfl, by omega⟩

/-- A table of the directory is at one position only. -/
theorem Tables.position_eq (ht : Tables L (under dir) s) (hp : tableAt kNext s.phys dir p = some g)
    (hq : tableAt kNext s.phys dir q = some g) : p = q :=
  (ht.tree dir p dir q g (carrier_of_tableAt hp) (carrier_of_tableAt hq) hp hq).2

theorem Tables.shape (ht : Tables L (under dir) s) : Shape L dir s where
  valid := ht.valid
  inUse p g hp := ht.inUse g ⟨dir, p, carrier_of_tableAt hp, hp⟩
  layered _ _ _ hp hq := congrArg List.length (Tables.position_eq ht hp hq)

/-- A table put under an entry that was absent leaves the tables a tree. -/
theorem Tables.added (ht : Tables L (under dir) s) (hadd : Added L s s' g i h)
    (habs : (s.phys g i).present = false) : Tables L (under dir) s' := by
  have hshape := Tables.shape ht
  have hgrow := Added.grow hshape hadd habs
  refine ⟨hadd.valid, hgrow.tree (fun _ _ hD => hD.1) ht.tree, ?_⟩
  rintro f ⟨r, q, hD, hf⟩
  obtain rfl : r = dir := hD.1
  exact (Added.keeps hshape hadd habs).shape.inUse q f hf

variable {K : List (Fin 512) → Prop}

theorem Owns.position_eq (ho : Owns L dir K s) (hp : tableAt kNext s.phys dir p = some g)
    (hq : tableAt kNext s.phys dir q = some g) : p = q := Tables.position_eq ho.tables hp hq

theorem Owns.inUse (ho : Owns L dir K s) (hp : tableAt kNext s.phys dir p = some g) :
    g ∈ L.used s.pmm := (Tables.shape ho.tables).inUse p g hp

theorem Owns.shape (ho : Owns L dir K s) : Shape L dir s := Tables.shape ho.tables

end Walks

section Grown

/-- An absent entry on the way to a user page is on the way to no kernel page. -/
theorem not_kernel_through {e : Entry} (hq : p ++ [i] <+: q) (hq' : p ++ [i] <+: q')
    (huser : ¬ KernelPosition s₀.phys dir q) (hentry : entryAt s₀.phys dir p i = some e)
    (habs : e.present = false) : ¬ KernelPosition s₀.phys dir q' := by
  rintro (⟨k, hk, hhigh⟩ | ⟨p', i', e', hpre, hentry', hpres, hclosed⟩)
  · apply huser
    left
    refine ⟨k, ?_, hhigh⟩
    obtain ⟨r, rfl⟩ := hq
    obtain ⟨r', rfl⟩ := hq'
    cases p <;> simpa using hk
  · rcases List.prefix_or_prefix_of_prefix hpre hq' with hle | hle
    · exact huser (Or.inr ⟨p', i', e', hle.trans hq, hentry', hpres, hclosed⟩)
    · -- a longer way goes through the absent entry
      rcases List.prefix_concat_iff.mp hle with heq | hle
      · obtain ⟨rfl, rfl⟩ : p = p' ∧ i = i' := by simpa using List.append_inj' heq rfl
        rw [hentry'] at hentry
        obtain rfl := Option.some.inj hentry
        exact absurd (hpres.symm.trans habs) (by decide)
      · obtain ⟨t', ht', -⟩ := Option.map_eq_some_iff.mp hentry'
        obtain ⟨r, rfl⟩ := hle
        obtain ⟨t, ht, rfl⟩ := Option.map_eq_some_iff.mp hentry
        have hnone := tableAt_none_of_next ht (kNext_absent p.length habs) r
        rw [hnone] at ht'
        contradiction

variable (ho : Owns L dir (KernelPosition s₀.phys dir) s) (hk : Kept dir s₀ s)

theorem Added.userSlot {K : List (Fin 512) → Prop} (ho : Owns L dir K s) (hadd : Added L s s' g i h)
    (habs : (s.phys g i).present = false) (hg : tableAt kNext s.phys dir p = some g)
    (hlen : p.length < 3) {x : Slot} (hx : UserSlot K dir s' x) :
    UserSlot K dir s x ∧ State.entry s' x = State.entry s x := by
  obtain ⟨p', hlen', huser, ht, hpres⟩ := hx
  rcases (Added.grow ho.shape hadd habs).back ht with hold | ⟨heq, -⟩
  · have hne : x.1 ≠ g := by
      rintro rfl
      have := congrArg List.length (ho.position_eq hold hg)
      omega
    have hsame : State.entry s' x = State.entry s x :=
      hadd.others x.1 x.2 (fun heq => hadd.fresh (heq ▸ ho.inUse hold)) (Or.inl hne)
    rw [hsame] at hpres
    exact ⟨⟨p', hlen', huser, hold, hpres⟩, hsame⟩
  · have hzero : State.entry s' x = Entry.zero := by
      rw [State.entry, heq]
      exact hadd.blank x.2
    rw [hzero] at hpres
    contradiction

include ho in
/-- A table put under an entry that was absent holds no pages yet. -/
theorem Owns.added (hadd : Added L s s' g i h) (habs : (s.phys g i).present = false)
    (hg : tableAt kNext s.phys dir p = some g) (hlen : p.length < 3) :
    Owns L dir (KernelPosition s₀.phys dir) s' := by
  have hgrow := Added.grow ho.shape hadd habs
  refine ⟨Tables.added ho.tables hadd habs, ?_, ?_⟩
  · intro x hx
    obtain ⟨hx, hsame⟩ := Added.userSlot ho hadd habs hg hlen hx
    obtain ⟨hlow, hused, hnot⟩ := ho.owned x hx
    rw [hsame, hadd.used]
    refine ⟨hlow, Set.mem_insert_of_mem _ hused, ?_⟩
    rintro ⟨r, q, hD, hf⟩
    obtain rfl : r = dir := hD.1
    rcases hgrow.back hf with hold | ⟨heq, -⟩
    · exact hnot ⟨r, q, hD, hold⟩
    · exact hadd.fresh (heq ▸ hused)
  · intro x y hx hy heq
    obtain ⟨hx, hsx⟩ := Added.userSlot ho hadd habs hg hlen hx
    obtain ⟨hy, hsy⟩ := Added.userSlot ho hadd habs hg hlen hy
    rw [hsx, hsy] at heq
    exact ho.distinct x y hx hy heq

include ho hk in
theorem Kept.added (hadd : Added L s s' g i h) (habs : (s.phys g i).present = false)
    (hg : tableAt kNext s.phys dir p = some g) (hq : p ++ [i] <+: q)
    (huser : ¬ KernelPosition s₀.phys dir q) : Kept dir s₀ s' := by
  have hgrow := Added.grow ho.shape hadd habs
  intro q' hlen hkernel p' i' hpre
  have hoff : ¬ p ++ [i] <+: q' := by
    intro hthrough
    have hentry : entryAt s₀.phys dir p i = some (s.phys g i) := by
      rw [← hk q' hlen hkernel p i hthrough, entryAt, hg]
      rfl
    exact not_kernel_through hq hthrough huser hentry habs hkernel
  rw [← hk q' hlen hkernel p' i' hpre]
  unfold entryAt
  cases ht : tableAt kNext s.phys dir p' with
  | none =>
    cases ht' : tableAt kNext s'.phys dir p' with
    | none => rfl
    | some f =>
      exfalso
      rcases hgrow.back ht' with hold | ⟨-, r, rfl, hr⟩
      · rw [ht] at hold
        contradiction
      · obtain rfl := ho.position_eq hr hg
        exact hoff ((List.prefix_append _ _).trans hpre)
  | some f =>
    rw [hgrow.keep ht]
    have hne : f ≠ g ∨ i' ≠ i := by
      by_contra hboth
      rw [not_or, not_not, not_not] at hboth
      obtain ⟨rfl, rfl⟩ := hboth
      obtain rfl := ho.position_eq ht hg
      exact hoff hpre
    simp only [Option.map_some]
    rw [hadd.others f i' (fun heq => hadd.fresh (heq ▸ ho.inUse ht)) hne]

end Grown

/-- `s'` is `s` with entry `i` of the page table `t` rewritten: it keeps its frame or gets
one that was free, and only the frame it had may have been given back. -/
structure LeafChange (L : LawfulAllocator P) (s s' : State P) (t : FrameNo) (i : Fin 512) :
    Prop where
  valid : L.valid s'.pmm
  others : ∀ g j, g ∈ L.used s.pmm → g ≠ t ∨ j ≠ i → s'.phys g j = s.phys g j
  used : ∀ g ∈ L.used s.pmm, g ∈ L.used s'.pmm ∨
    (s.phys t i).present = true ∧ g = (s.phys t i).address
  entry : (s'.phys t i).present = true → (s'.phys t i).address.toNat < 2 ^ 19 ∧
    (s'.phys t i).address ∈ L.used s'.pmm ∧ ((s'.phys t i).address ∉ L.used s.pmm ∨
      (s.phys t i).present = true ∧ (s'.phys t i).address = (s.phys t i).address)

section Leaf

variable {K : List (Fin 512) → Prop}

theorem LeafChange.tableAt (hc : LeafChange L s s' t i) (ho : Owns L dir K s)
    (ht : tableAt kNext s.phys dir p = some t) (hlen : p.length = 3) (q : List (Fin 512)) :
    TableTree.tableAt kNext s'.phys dir q = TableTree.tableAt kNext s.phys dir q := by
  apply walk_congr
  intro q' j _ f hf
  by_cases hsame : f = t ∧ j = i
  · obtain ⟨rfl, rfl⟩ := hsame
    obtain rfl := ho.position_eq hf ht
    rw [kNext_leaf (by omega), kNext_leaf (by omega)]
  · rw [hc.others f j (ho.inUse hf) (by tauto)]

theorem LeafChange.isTable (hc : LeafChange L s s' t i) (ho : Owns L dir K s)
    (ht : TableTree.tableAt kNext s.phys dir p = some t) (hlen : p.length = 3)
    (hg : IsTable (under dir) kNext s'.phys g) : IsTable (under dir) kNext s.phys g := by
  obtain ⟨r, q, hD, hq⟩ := hg
  obtain rfl : r = dir := hD.1
  exact ⟨r, q, hD, (hc.tableAt ho ht hlen q).symm.trans hq⟩

theorem LeafChange.userSlot (hc : LeafChange L s s' t i) (ho : Owns L dir K s)
    (ht : TableTree.tableAt kNext s.phys dir p = some t) (hlen : p.length = 3) {x : Slot}
    (hne : x ≠ (t, i)) (hx : UserSlot K dir s' x) :
    UserSlot K dir s x ∧ State.entry s' x = State.entry s x := by
  obtain ⟨p', hlen', huser', ht', hpres⟩ := hx
  rw [hc.tableAt ho ht hlen] at ht'
  have hoff : x.1 ≠ t ∨ x.2 ≠ i := by
    by_contra hboth
    rw [not_or, not_not, not_not] at hboth
    exact hne (Prod.ext hboth.1 hboth.2)
  have hsame : State.entry s' x = State.entry s x := hc.others x.1 x.2 (ho.inUse ht') hoff
  rw [hsame] at hpres
  exact ⟨⟨p', hlen', huser', ht', hpres⟩, hsame⟩

theorem Owns.leaf (ho : Owns L dir K s) (hc : LeafChange L s s' t i)
    (ht : tableAt kNext s.phys dir p = some t) (hlen : p.length = 3) (huser : ¬ K (p ++ [i])) :
    Owns L dir K s' := by
  have hwalk := hc.tableAt ho ht hlen
  have hself : (s.phys t i).present = true → UserSlot K dir s (t, i) :=
    fun hpres => ⟨p, hlen, huser, ht, hpres⟩
  have hback := fun x hne => hc.userSlot (x := x) ho ht hlen hne
  have hframe : ∀ y, UserSlot K dir s y → (s'.phys t i).present = true →
      (s'.phys t i).address = (State.entry s y).address → y = (t, i) := by
    intro y hy hpres heq
    rcases (hc.entry hpres).2.2 with hfresh | ⟨hold, haddr⟩
    · rw [heq] at hfresh
      exact absurd (ho.owned y hy).2.1 hfresh
    · exact ho.distinct y (t, i) hy (hself hold) (heq.symm.trans haddr)
  refine ⟨⟨hc.valid, ?_, ?_⟩, ?_, ?_⟩
  · apply ho.tables.tree.of_eq
    intro r q hD
    obtain rfl : r = dir := hD.1
    exact hwalk q
  · intro g hg
    have hg := hc.isTable ho ht hlen hg
    rcases hc.used g (ho.tables.inUse g hg) with hused | ⟨hpres, rfl⟩
    · exact hused
    · exact absurd hg (ho.owned _ (hself hpres)).2.2
  · intro x hx
    by_cases hne : x = (t, i)
    · subst hne
      obtain ⟨-, -, -, -, hpres⟩ := hx
      obtain ⟨hlow, hused, hframe⟩ := hc.entry hpres
      refine ⟨hlow, hused, fun hbad => ?_⟩
      have hbad := hc.isTable ho ht hlen hbad
      rcases hframe with hfresh | ⟨hold, haddr⟩
      · exact hfresh (ho.tables.inUse _ hbad)
      · rw [State.entry, haddr] at hbad
        exact (ho.owned _ (hself hold)).2.2 hbad
    · obtain ⟨hx, hsame⟩ := hback x hne hx
      obtain ⟨hlow, hused, hnot⟩ := ho.owned x hx
      rw [hsame]
      refine ⟨hlow, ?_, fun hbad => hnot (hc.isTable ho ht hlen hbad)⟩
      rcases hc.used _ hused with hused' | ⟨hpres, haddr⟩
      · exact hused'
      · exact absurd (ho.distinct x (t, i) hx (hself hpres) haddr) hne
  · intro x y hx hy heq
    by_cases hnx : x = (t, i)
    · by_cases hny : y = (t, i)
      · rw [hnx, hny]
      · obtain ⟨hy, hsame⟩ := hback y hny hy
        subst hnx
        obtain ⟨-, -, -, -, hpres⟩ := hx
        rw [hsame] at heq
        exact absurd (hframe y hy hpres heq) hny
    · obtain ⟨hx, hsx⟩ := hback x hnx hx
      by_cases hny : y = (t, i)
      · subst hny
        obtain ⟨-, -, -, -, hpres⟩ := hy
        rw [hsx] at heq
        exact absurd (hframe x hx hpres heq.symm) hnx
      · obtain ⟨hy, hsy⟩ := hback y hny hy
        rw [hsx, hsy] at heq
        exact ho.distinct x y hx hy heq

theorem Kept.leaf (hk : Kept dir s₀ s) (ho : Owns L dir K s) (hc : LeafChange L s s' t i)
    (ht : tableAt kNext s.phys dir p = some t) (hlen : p.length = 3)
    (huser : ¬ KernelPosition s₀.phys dir (p ++ [i])) : Kept dir s₀ s' := by
  intro q' hlen' hkernel p' i' hpre
  rw [← hk q' hlen' hkernel p' i' hpre]
  unfold entryAt
  rw [hc.tableAt ho ht hlen]
  cases ht' : tableAt kNext s.phys dir p' with
  | none => rfl
  | some f =>
    simp only [Option.map_some]
    rw [hc.others f i' (ho.inUse ht')]
    by_contra hboth
    rw [not_or, not_not, not_not] at hboth
    obtain ⟨rfl, rfl⟩ := hboth
    obtain rfl := ho.position_eq ht' ht
    have heq : p' ++ [i'] = q' := hpre.eq_of_length (by simp [hlen, hlen'])
    rw [heq] at huser
    exact huser hkernel

end Leaf

structure Safe (L : LawfulAllocator P) (dir : FrameNo) (s₀ s : State P) : Prop where
  owns : Owns L dir (KernelPosition s₀.phys dir) s
  kept : Kept dir s₀ s

section Operations

variable {a : Addr}

theorem Safe.leaf (hs : Safe L dir s₀ s) (hc : LeafChange L s s' t (pagetblIndex a))
    (ht : tableAt kNext s.phys dir (path a) = some t)
    (huser : ¬ KernelPosition s₀.phys dir (position a)) : Safe L dir s₀ s' :=
  ⟨hs.owns.leaf hc ht (by simp [path]) huser, hs.kept.leaf hs.owns hc ht (by simp [path]) huser⟩

/-- A frame and entry that agree with `s` off the slot make a leaf change. -/
theorem leafChange_same (hs : Owns L dir (KernelPosition s₀.phys dir) s)
    (ht : tableAt kNext s.phys dir (path a) = some t)
    (huser : ¬ KernelPosition s₀.phys dir (position a)) {e : Entry}
    (hpres : e.present = (s.phys t (pagetblIndex a)).present)
    (haddr : e.address = (s.phys t (pagetblIndex a)).address)
    (hphys : s'.phys = (s.setEntry t (pagetblIndex a) e).phys) (hpmm : s'.pmm = s.pmm) :
    LeafChange L s s' t (pagetblIndex a) := by
  refine ⟨by rw [hpmm]; exact hs.tables.valid, ?_, ?_, ?_⟩
  · intro g j _ hoff
    rw [hphys]
    rcases hoff with hoff | hoff
    · rw [State.setEntry_phys_frame_ne _ _ _ hoff]
    · rw [State.setEntry_phys_index_ne _ _ _ _ hoff]
  · intro g hg
    rw [hpmm]
    exact Or.inl hg
  · rw [hphys, State.setEntry_phys_self, hpmm, hpres, haddr]
    intro hp
    obtain ⟨hlow, hused, -⟩ := hs.owned (t, pagetblIndex a) ⟨path a, by simp [path], huser, ht, hp⟩
    exact ⟨hlow, hused, Or.inr ⟨hp, rfl⟩⟩

/-- A page entry given a frame the allocator hands out, whose contents may change. -/
theorem leafChange_fresh {f : FrameNo} {e : Entry} {c : Frame} {j : Fin 512}
    (hused : t ∈ L.used s.pmm) (hlow : f.toNat < 2 ^ 19) (hfresh : f ∉ L.used s.pmm)
    (hvalid : L.valid s'.pmm) (hset : L.used s'.pmm = insert f (L.used s.pmm))
    (haddr : e.address = f) (hphys : s'.phys = ((s.setFrame f c).setEntry t j e).phys) :
    LeafChange L s s' t j := by
  have hne : t ≠ f := fun heq => hfresh (heq ▸ hused)
  refine ⟨hvalid, ?_, ?_, ?_⟩
  · intro g k hg hoff
    have hgf : g ≠ f := fun heq => hfresh (heq ▸ hg)
    rw [hphys]
    rcases hoff with hoff | hoff
    · rw [State.setEntry_phys_frame_ne _ _ _ hoff, State.setFrame_phys_ne _ _ hgf]
    · rw [State.setEntry_phys_index_ne _ _ _ _ hoff, State.setFrame_phys_ne _ _ hgf]
  · intro g hg
    rw [hset]
    exact Or.inl (Set.mem_insert_of_mem _ hg)
  · rw [hphys, State.setEntry_phys_self, haddr, hset]
    exact fun _ => ⟨hlow, Set.mem_insert _ _, Or.inl hfresh⟩

/-- `mem_getPage` with `MEM_CREATE` at a user page. -/
theorem memGetPage_safe (hs : Safe L dir s₀ s) (ha : isCanonical a = true)
    (huser : ¬ KernelPosition s₀.phys dir (position a)) :
    Meets Any (memGetPage L.toAllocator s dir a memCreate) fun res => Safe L dir s₀ res.2 ∧
      ∀ pg, res.1 = some pg →
        ∃ t, pg = (t, pagetblIndex a) ∧ tableAt kNext res.2.phys dir (path a) = some t := by
  apply memGetPage_added hs ha fun _ hs => hs.owns.shape
  intro s₁ s₂ q i g h hs₁ hpre hlen hg habs hadd
  exact ⟨hs₁.owns.added hadd habs hg hlen, hs₁.kept.added hs₁.owns hadd habs hg
    (hpre.trans (List.prefix_append _ _)) huser⟩

/-- Giving a page a frame of its own opens it to user code. -/
theorem memAllocatePage_change {K : List (Fin 512) → Prop} (ho : Owns L dir K s)
    (ht : tableAt kNext s.phys dir p = some t) :
    Meets Oom (memAllocatePage L.toAllocator s (some (t, i)) memDefault) fun s' =>
      LeafChange L s s' t i ∧ (s'.phys t i).present = true ∧ (s'.phys t i).usermode = true := by
  refine meets_mono (memAllocatePage_fresh L ho.tables.valid (t, i) (by decide) (by decide)) ?_
  rintro s' ⟨f, pmm, hlow, hfresh, hvalid, hused, rfl⟩
  refine ⟨?_, ?_, ?_⟩
  · refine leafChange_fresh (f := f) (c := s.phys f) (ho.inUse ht) hlow hfresh hvalid hused
      (e := configure { s.phys t i with address := f } memDefault) rfl ?_
    rw [show s.setFrame f (s.phys f) = s by simp [State.setFrame]]
    rfl
  · rw [State.setSlot, State.setEntry_phys_self]
    rfl
  · rw [State.setSlot, State.setEntry_phys_self]
    rfl

theorem memAllocatePage_safe (hs : Safe L dir s₀ s)
    (ht : tableAt kNext s.phys dir (path a) = some t)
    (huser : ¬ KernelPosition s₀.phys dir (position a)) :
    Meets Any (memAllocatePage L.toAllocator s (some (t, pagetblIndex a)) memDefault)
      (Safe L dir s₀) :=
  meets_mono (meets_weaken (memAllocatePage_change hs.owns ht) fun _ _ => trivial)
    fun _ hc => hs.leaf hc.1 ht huser

/-- `mem_freePage` of a page that is there. -/
theorem memFreePage_safe (hs : Safe L dir s₀ s)
    (ht : tableAt kNext s.phys dir (path a) = some t)
    (huser : ¬ KernelPosition s₀.phys dir (position a))
    (hpres : (s.phys t (pagetblIndex a)).present = true) :
    ∃ s', memFreePage L.toAllocator s (t, pagetblIndex a) = .ok s' ∧
      LeafChange L s s' t (pagetblIndex a) := by
  obtain ⟨hlow, hused, -⟩ := hs.owns.owned (t, pagetblIndex a)
    ⟨path a, by simp [path], huser, ht, hpres⟩
  have hrelease : ∀ s₁ : State P, s₁.phys = s.phys → s₁.pmm = s.pmm →
      LeafChange L s (releasePage L.toAllocator s₁ (t, pagetblIndex a)) t (pagetblIndex a) := by
    intro s₁ hphys hpmm
    have hentry : State.entry s₁ (t, pagetblIndex a) = State.entry s (t, pagetblIndex a) := by
      rw [State.entry, hphys]
      rfl
    rw [releasePage_eq, hentry, getFrame_of_lt _ hlow]
    obtain ⟨hvalid, hset⟩ := L.free_spec s.pmm _ hs.owns.tables.valid hused hlow
    refine ⟨?_, ?_, ?_, ?_⟩
    · change L.valid (L.freeBlock s₁.pmm _)
      rwa [hpmm]
    · intro g j _ hoff
      change (s₁.setEntry t (pagetblIndex a) _).phys g j = _
      rcases hoff with hoff | hoff
      · rw [State.setEntry_phys_frame_ne _ _ _ hoff, hphys]
      · rw [State.setEntry_phys_index_ne _ _ _ _ hoff, hphys]
    · intro g hg
      change g ∈ L.used (L.freeBlock s₁.pmm _) ∨ _
      rw [hpmm, hset]
      by_cases heq : g = (s.phys t (pagetblIndex a)).address
      · exact Or.inr ⟨hpres, heq⟩
      · exact Or.inl ⟨hg, heq⟩
    · intro hbad
      change ((s₁.setEntry t (pagetblIndex a) _).phys t (pagetblIndex a)).present = true at hbad
      rw [State.setEntry_phys_self] at hbad
      contradiction
  by_cases hzero : s.refs (State.entry s (t, pagetblIndex a)).address = 0
  · exact ⟨_, memFreePage_uncounted s _ hzero, hrelease s rfl rfl⟩
  · by_cases hone : s.refs (State.entry s (t, pagetblIndex a)).address = 1
    · exact ⟨_, memFreePage_last s _ hpres hone, hrelease _ rfl rfl⟩
    · -- shared: the entry stays
      refine ⟨_, memFreePage_shared hpres hzero hone, ?_⟩
      exact leafChange_same hs.owns ht huser (e := s.phys t (pagetblIndex a)) rfl rfl
        (congrArg State.phys (State.setEntry_entry s t (pagetblIndex a))).symm rfl

/-- `mem_copyOnWrite` of a user page. -/
theorem memCopyOnWrite_safe (hs : Safe L dir s₀ s)
    (ht : tableAt kNext s.phys dir (path a) = some t)
    (huser : ¬ KernelPosition s₀.phys dir (position a)) :
    Meets Any (memCopyOnWrite L.toAllocator s (t, pagetblIndex a)) (Safe L dir s₀) := by
  unfold memCopyOnWrite
  split_ifs
  · exact hs
  · -- the count is all that the decrement changes
    have hdec : Meets Any (memDecrementPageReference s (t, pagetblIndex a)) fun res =>
        res.2.phys = s.phys ∧ res.2.pmm = s.pmm := by
      unfold memDecrementPageReference
      simp only
      split_ifs
      · exact ⟨rfl, rfl⟩
      · exact trivial
      · exact ⟨rfl, rfl⟩
    refine meets_bind hdec ?_
    rintro ⟨refs, s₁⟩ ⟨hphys, hpmm⟩
    replace hphys : s₁.phys = s.phys := hphys
    replace hpmm : s₁.pmm = s.pmm := hpmm
    have hentry : State.entry s₁ (t, pagetblIndex a) = s.phys t (pagetblIndex a) :=
      congrFun (congrFun hphys t) _
    change Meets Any (if refs = 0 then _ else _) _
    split_ifs
    · refine hs.leaf (leafChange_same hs.owns ht huser
        (e := { s.phys t (pagetblIndex a) with rw := true, cow := false }) rfl rfl ?_ hpmm) ht huser
      simp only [State.setSlot, State.setEntry, hentry, hphys]
    · unfold copyFrame
      have hvalid : L.valid s₁.pmm := by
        rw [hpmm]
        exact hs.owns.tables.valid
      refine meets_bind (Q := fun res => ∃ f fr, res.1 = frameAddr f ∧ f.toNat < 2 ^ 19 ∧
        f ∉ L.used s.pmm ∧ L.valid res.2.pmm ∧ L.used res.2.pmm = insert f (L.used s.pmm) ∧
        res.2.phys = (s.setFrame f fr).phys) ?_ ?_
      · refine meets_bind (meets_weaken (allocateFrame_spec L hvalid) fun _ _ => trivial) ?_
        rintro ⟨block, f, s₂⟩ ⟨hblock, htook⟩
        have hphys₂ : s₂.phys = s.phys := htook.phys.trans hphys
        have hfresh := htook.fresh
        have hused := htook.used
        rw [hpmm] at hfresh hused
        refine meets_bind (Q := fun _ => True) (by cases physFrame _ <;> trivial) ?_
        intro source _
        refine ⟨f, s₂.phys source, hblock, htook.low, hfresh, htook.valid, hused, ?_⟩
        simp only [State.setFrame, hphys₂]
      · rintro ⟨block, s₂⟩ ⟨f, fr, hblock, hlow, hfresh, hvalid₂, hused, hphys₂⟩
        obtain rfl : block = frameAddr f := hblock
        replace hphys₂ : s₂.phys = (s.setFrame f fr).phys := hphys₂
        refine hs.leaf (leafChange_fresh (f := f) (c := fr) (hs.owns.inUse ht) hlow hfresh hvalid₂
          hused (e := { State.entry s₂ (t, pagetblIndex a) with
            address := f, cow := false, rw := true }) rfl ?_) ht huser
        simp only [State.setSlot, State.setEntry, setFrame_frameAddr, hphys₂]

end Operations

def Touched (s : State P) (dir : FrameNo) (a : Addr) : Prop :=
  ∀ t, tableAt kNext s.phys dir (path a) = some t → (s.phys t (pagetblIndex a)).present = true

structure HeapClear (s₀ : State P) (process : Process) : Prop where
  half : process.heap.toNat ≤ 2 ^ 47
  pages : ∀ a, process.heapBase.toNat ≤ a.toNat → a.toNat < process.heap.toNat →
    ¬ KernelPosition s₀.phys process.dir (position a)

def NoPending (dir : FrameNo) (s : State P) : Prop :=
  ∀ p i e, KernelPosition s.phys dir (p ++ [i]) → p.length = 3 →
    entryAt s.phys dir p i = some e → e.cow = false

section Calls

variable {process : Process} {a b : Addr} {l : List Addr}

theorem position_of_page (h : a.toNat / 4096 = b.toNat / 4096) : position a = position b := by
  obtain ⟨hpath, hlast⟩ := indices_of_page h
  rw [position, position, hpath, hlast]

/-- `mem_freePage` in the loop of `mem_free`. -/
theorem freeAt_safe (hs : Safe L dir s₀ s) (huser : ¬ KernelPosition s₀.phys dir (position a))
    (htouched : Touched s dir a) :
    Meets Any (freeAt L.toAllocator dir s a) fun s' => Safe L dir s₀ s' ∧
      ∀ b, position b ≠ position a → Touched s dir b → Touched s' dir b := by
  unfold freeAt
  cases hfind : memGetPage L.toAllocator s dir a memDefault with
  | error e => exact trivial
  | ok res =>
    obtain ⟨page, s₁⟩ := res
    obtain rfl := memGetPage_unchanged hfind
    cases hcanon : isCanonical a with
    | false =>
      rw [memGetPage, hcanon] at hfind
      obtain rfl : none = page := congrArg Prod.fst (Except.ok.inj hfind)
      exact ⟨hs, fun _ _ => id⟩
    | true =>
      obtain ⟨-, rfl⟩ := clear_of_memGetPage hcanon hfind
      cases ht : tableAt kNext s₁.phys dir (path a) with
      | none => exact ⟨hs, fun _ _ => id⟩
      | some t =>
        obtain ⟨s', hcall, hc⟩ := memFreePage_safe hs ht huser (htouched t ht)
        change Meets Any (memAllocatePage L.toAllocator s₁ (some (t, pagetblIndex a)) memPageFree) _
        rw [memAllocatePage]
        simp only [show has memPageFree memPageFree = true from by decide, if_true, hcall]
        refine ⟨hs.leaf hc ht huser, ?_⟩
        intro b hne htb f hf
        rw [hc.tableAt hs.owns ht (by simp [path])] at hf
        rw [hc.others f _ (hs.owns.inUse hf)]
        · exact htb f hf
        · by_contra hboth
          rw [not_or, not_not, not_not] at hboth
          obtain ⟨rfl, hlast⟩ := hboth
          apply hne
          rw [position, position, hs.owns.position_eq hf ht, hlast]

theorem freeLoop_safe (hs : Safe L dir s₀ s)
    (huser : ∀ a ∈ l, ¬ KernelPosition s₀.phys dir (position a))
    (hpair : l.Pairwise fun a b => position b ≠ position a) (htouched : ∀ a ∈ l, Touched s dir a) :
    Meets Any (l.foldlM (freeAt L.toAllocator dir) s) (Safe L dir s₀) := by
  induction l generalizing s with
  | nil => exact hs
  | cons a l ih =>
    obtain ⟨hhead, htail⟩ := List.pairwise_cons.mp hpair
    rw [List.foldlM_cons]
    refine meets_bind (freeAt_safe hs (huser a List.mem_cons_self)
      (htouched a List.mem_cons_self)) ?_
    rintro s₁ ⟨hs₁, hkeep⟩
    apply ih hs₁ (fun b hb => huser b (List.mem_cons_of_mem a hb)) htail
    intro b hb
    exact hkeep b (hhead b hb) (htouched b (List.mem_cons_of_mem a hb))

/-- Every page a shrinking break frees has an address of the old heap. -/
theorem freeRange_heap {addr : Addr} (hheap : process.heap.toNat ≤ 2 ^ 47)
    (hlow : process.heapBase.toNat ≤ addr.toNat) (hlt : addr.toNat < process.heap.toNat) :
    ∀ i ∈ freeRange addr (process.heap - addr), isUser i = true ∧
      ∃ b : Addr, process.heapBase.toNat ≤ b.toNat ∧ b.toNat < process.heap.toNat ∧
        position i = position b := by
  intro i hi
  have hstart := toNat_and_not_fff addr
  have hsize : (process.heap - addr).toNat = process.heap.toNat - addr.toNat :=
    BitVec.toNat_sub_of_le (by rw [BitVec.le_def]; omega)
  have hend : (addr &&& ~~~0xFFF#64) + (process.heap - addr) =
      BitVec.ofNat 64 (addr.toNat / 4096 * 4096 + (process.heap.toNat - addr.toNat)) := by
    apply BitVec.eq_of_toNat_eq
    rw [BitVec.toNat_add, hstart, hsize, BitVec.toNat_ofNat]
  unfold freeRange at hi
  obtain ⟨k, hk, hbelow⟩ := visited_below (m := 2 ^ 47) (by rw [hstart]; omega) (by
    rw [hend, BitVec.toNat_ofNat, hstart]
    omega) hi
  rw [hend, BitVec.toNat_ofNat] at hbelow
  rw [hstart] at hk
  refine ⟨decide_eq_true (by omega), ?_⟩
  by_cases hfirst : i.toNat < addr.toNat
  · exact ⟨addr, hlow, hlt, position_of_page (by omega)⟩
  · exact ⟨i, by omega, by omega, rfl⟩

/-- The break moves: pages of the old heap are freed, if they were mapped. -/
theorem sysBrk_safe {addr : Addr} (hs : Safe L process.dir s₀ s) (hheap : HeapClear s₀ process)
    (hclear : process.heapBase.toNat ≤ addr.toNat → HeapClear s₀ { process with heap := addr })
    (htouched : process.heapBase.toNat ≤ addr.toNat → addr.toNat < process.heap.toNat →
      ∀ i ∈ freeRange addr (process.heap - addr), Touched s process.dir i) :
    Meets Any (sysBrk L.toAllocator s process addr) fun res =>
      Safe L process.dir s₀ res.2.2 ∧ HeapClear s₀ res.2.1 ∧ res.2.1.dir = process.dir := by
  unfold sysBrk
  split_ifs with hbase hshrink
  · exact ⟨hs, hheap, rfl⟩
  · rw [BitVec.lt_def] at hbase hshrink
    have hlow : process.heapBase.toNat ≤ addr.toNat := by omega
    have hrange := freeRange_heap hheap.half hlow hshrink
    refine meets_bind (Q := Safe L process.dir s₀) ?_ ?_
    · unfold memFree
      split_ifs
      · exact hs
      · exact hs
      · refine freeLoop_safe hs ?_ (pairwise_visited _ _ _ fun i hi => (hrange i hi).1).1
          (htouched hlow hshrink)
        intro i hi
        obtain ⟨-, b, hblow, hbhigh, hpos⟩ := hrange i hi
        rw [hpos]
        exact hheap.pages b hblow hbhigh
    · exact fun s' hs' => ⟨hs', hclear hlow, rfl⟩
  · rw [BitVec.lt_def] at hbase
    exact ⟨hs, hclear (by omega), rfl⟩

theorem mapHeapPage_safe (hs : Safe L process.dir s₀ s) (hheap : HeapClear s₀ process)
    (ha : inHeap process a = true) :
    Meets Any (mapHeapPage L.toAllocator s process a) (Safe L process.dir s₀) := by
  rw [inHeap, Bool.and_eq_true, decide_eq_true_eq, decide_eq_true_eq, BitVec.le_def,
    BitVec.lt_def] at ha
  have huser := hheap.pages a ha.1 ha.2
  have hcanon : isCanonical a = true := by
    rw [isCanonical_iff]
    have := hheap.half
    omega
  unfold mapHeapPage
  refine meets_bind (memGetPage_safe hs hcanon huser) ?_
  rintro ⟨page, s₁⟩ ⟨hs₁, hat⟩
  cases page with
  | none => exact hs₁
  | some pg =>
    obtain ⟨t, rfl, ht⟩ := hat pg rfl
    exact memAllocatePage_safe hs₁ ht huser

theorem memPageFault_safe (hs : Safe L process.dir s₀ s) (hheap : HeapClear s₀ process)
    (hpend : NoPending process.dir s₀) (cr2 : Addr) :
    Meets Any (memPageFault L.toAllocator s process cr2) fun res =>
      Safe L process.dir s₀ res.2 := by
  have hlazy : Meets Any (if inHeap process cr2 then do
        let s ← mapHeapPage L.toAllocator s process cr2
        return (true, s)
      else return (false, s)) fun res : Bool × State P => Safe L process.dir s₀ res.2 := by
    split_ifs with hin
    · exact meets_bind (mapHeapPage_safe hs hheap hin) fun _ hs' => hs'
    · exact hs
  unfold memPageFault
  cases hfind : memGetPage L.toAllocator s process.dir cr2 memDefault with
  | error e => exact trivial
  | ok res =>
    obtain ⟨page, s₁⟩ := res
    obtain rfl := memGetPage_unchanged hfind
    simp only [bind, Except.bind]
    cases hcow : page.filter fun pg => (State.entry s₁ pg).cow with
    | none => exact hlazy
    | some pg =>
      obtain ⟨rfl, hpg⟩ := Option.filter_eq_some_iff.mp hcow
      have hcanon : isCanonical cr2 = true := by
        by_contra hnot
        rw [memGetPage, if_pos (by simpa using hnot)] at hfind
        exact absurd (congrArg Prod.fst (Except.ok.inj hfind)).symm (Option.some_ne_none _)
      obtain ⟨-, hpage⟩ := clear_of_memGetPage hcanon hfind
      obtain ⟨t, ht, rfl⟩ := Option.map_eq_some_iff.mp hpage.symm
      refine meets_bind (memCopyOnWrite_safe hs ht ?_) fun _ hs' => hs'
      intro hkernel
      have hentry : entryAt s₀.phys process.dir (path cr2) (pagetblIndex cr2) =
          some (s₁.phys t (pagetblIndex cr2)) := by
        rw [← hs.kept (position cr2) (position_length cr2) hkernel _ _ (List.prefix_refl _),
          entryAt, ht]
        rfl
      have hfalse := hpend _ _ _ hkernel (by simp [path]) hentry
      exact absurd (hpg.symm.trans hfalse) (by decide)

theorem syscallValidatePtr_safe (hs : Safe L process.dir s₀ s) (hheap : HeapClear s₀ process)
    (ptr : Addr) :
    Meets Any (syscallValidatePtr L.toAllocator process s ptr) (Safe L process.dir s₀) := by
  unfold syscallValidatePtr
  refine meets_bind (Q := fun res => res.2 = s) ?_ ?_
  · unfold memValidate
    cases hfind : memGetPage L.toAllocator s process.dir ptr memDefault with
    | error e => exact trivial
    | ok res =>
      obtain ⟨page, s₁⟩ := res
      obtain rfl := memGetPage_unchanged hfind
      cases page <;> rfl
  · rintro ⟨valid, s₁⟩ rfl
    cases valid with
    | true => exact hs
    | false =>
      change Meets Any (syscallPointerValidateFailed _ s₁ process ptr) _
      unfold syscallPointerValidateFailed
      split_ifs with hin
      · exact mapHeapPage_safe hs hheap hin
      · exact trivial

end Calls

inductive Request
  | brk (addr : Addr)
  | fault (cr2 : Addr)
  | pointer (ptr : Addr)
  | buffer (ptr size : Addr)

abbrev Running (P : Type) := Process × State P

def serve (A : Allocator P) : Request → Running P → Except Panic (Running P)
  | .brk addr, (process, s) => do
    let (_, process, s) ← sysBrk A s process addr
    return (process, s)
  | .fault cr2, (process, s) => do
    let (_, s) ← memPageFault A s process cr2
    return (process, s)
  | .pointer ptr, (process, s) => do
    let s ← syscallValidatePtr A process s ptr
    return (process, s)
  | .buffer ptr size, (process, s) => do
    let s ← syscallValidatePtrSize A s process ptr size
    return (process, s)

def Served (A : Allocator P) (ok : Request → Running P → Prop) : Running P → Running P → Prop :=
  Relation.ReflTransGen fun c c' => ∃ r, ok r c ∧ serve A r c = .ok c'

/-- The break moves over user pages only, and what it gives back has been mapped. -/
def Allowed (s₀ : State P) : Request → Running P → Prop
  | .brk addr, (process, s) => process.heapBase.toNat ≤ addr.toNat →
    HeapClear s₀ { process with heap := addr } ∧ (addr.toNat < process.heap.toNat →
      ∀ i ∈ freeRange addr (process.heap - addr), Touched s process.dir i)
  | _, _ => True

section Run

variable {process : Process} {c c' : Running P}

theorem serve_safe (hs : Safe L c.1.dir s₀ c.2) (hheap : HeapClear s₀ c.1)
    (hpend : NoPending c.1.dir s₀) (r : Request) (hr : Allowed s₀ r c) :
    Meets Any (serve L.toAllocator r c) fun c' =>
      Safe L c'.1.dir s₀ c'.2 ∧ HeapClear s₀ c'.1 ∧ c'.1.dir = c.1.dir := by
  obtain ⟨process, s⟩ := c
  cases r with
  | brk addr =>
    refine meets_bind (sysBrk_safe hs hheap (fun hlow => (hr hlow).1) fun hlow => (hr hlow).2) ?_
    rintro ⟨_, process', s'⟩ ⟨hs', hheap', hdir⟩
    refine ⟨?_, hheap', hdir⟩
    change Safe L process'.dir s₀ s'
    rw [show process'.dir = process.dir from hdir]
    exact hs'
  | fault cr2 =>
    exact meets_bind (memPageFault_safe hs hheap hpend cr2) fun _ hs' => ⟨hs', hheap, rfl⟩
  | pointer ptr =>
    exact meets_bind (syscallValidatePtr_safe hs hheap ptr) fun _ hs' => ⟨hs', hheap, rfl⟩
  | buffer ptr size =>
    refine meets_bind (Q := Safe L process.dir s₀) ?_ fun _ hs' => ⟨hs', hheap, rfl⟩
    unfold syscallValidatePtrSize
    exact meets_foldlM (fun _ => Safe L process.dir s₀) _ s hs
      fun _ ptr _ _ _ hs' => syscallValidatePtr_safe hs' hheap ptr

/-- While the break moves over user pages only, no entry on the way to a kernel page
changes, whatever user code asks for. -/
theorem kernelKept_of_served (ho : Owns L process.dir (KernelPosition s.phys process.dir) s)
    (hpend : NoPending process.dir s) (hheap : HeapClear s process)
    (hrun : Served L.toAllocator (Allowed s) (process, s) c) : Kept process.dir s c.2 := by
  suffices h : Safe L c.1.dir s c.2 ∧ HeapClear s c.1 ∧ c.1.dir = process.dir by
    obtain ⟨hs, -, hdir⟩ := h
    rw [← hdir]
    exact hs.kept
  induction hrun with
  | refl => exact ⟨⟨ho, fun _ _ _ _ _ _ => rfl⟩, hheap, rfl⟩
  | tail _ hstep ih =>
    obtain ⟨r, hr, hcall⟩ := hstep
    obtain ⟨hs, hheap', hdir⟩ := ih
    rw [← hdir] at hpend
    obtain ⟨hs', hheap'', hdir'⟩ := meets_of_eq_ok (serve_safe hs hheap' hpend r hr) hcall
    exact ⟨hs', hheap'', hdir'.trans hdir⟩

end Run

section OnePage

open WellBuilt PmmAllocator

theorem kNext_eq_hNext (d : ℕ) {e : Entry} (h : e.address.toNat < 2 ^ 19) :
    kNext d e = hNext d e := by
  unfold kNext hNext
  split_ifs
  · rw [getFrame_of_lt e h, physFrame_memRemapPhys _ (Nat.lt_trans h (by decide))]
    rfl
  · rfl

theorem onePage_address {frame : FrameNo} {pmm : Pmm.State} (hlow : frame.toNat < 2 ^ 19)
    (f : FrameNo) (i : Fin 512) : ((onePage frame pmm).phys f i).address.toNat < 2 ^ 19 := by
  have hupdate : ∀ (k : Fin 512) (e : Entry), e.address.toNat < 2 ^ 19 →
      (Function.update zeroFrame k e i).address.toNat < 2 ^ 19 := by
    intro k e he
    by_cases hik : i = k
    · rw [hik, Function.update_self]
      exact he
    · rw [Function.update_of_ne hik]
      exact show (0 : FrameNo).toNat < 2 ^ 19 by decide
  simp only [onePage]
  split_ifs
  · exact hupdate _ _ (by decide)
  · exact hupdate _ _ (by decide)
  · exact hupdate _ _ (by decide)
  · exact hupdate _ _ hlow
  · exact hupdate _ _ (by decide)
  · exact show (0 : FrameNo).toNat < 2 ^ 19 by decide

theorem onePage_kernel_tableAt {frame : FrameNo} {pmm : Pmm.State} (hlow : frame.toNat < 2 ^ 19)
    (p : List (Fin 512)) :
    tableAt kNext (onePage frame pmm).phys 1 p = tableAt hNext (onePage frame pmm).phys 1 p :=
  walk_congr 0 1 p fun _ _ _ _ _ => kNext_eq_hNext _ (onePage_address hlow _ _)

/-- The only present page entry of the directory is the user page at 0x400000. -/
theorem onePage_userSlot {K : List (Fin 512) → Prop} {pmm : Pmm.State} {x : Slot}
    (hx : UserSlot K 1 (onePage 5 pmm) x) : x = (4, 0) := by
  obtain ⟨p, hlen, -, ht, hpres⟩ := hx
  rw [onePage_kernel_tableAt (by decide)] at ht
  rcases onePage_tableAt ht with ⟨rfl, -⟩ | ⟨rfl, -⟩ | ⟨rfl, -⟩ | ⟨rfl, hx1⟩
  · simp at hlen
  · simp at hlen
  · simp at hlen
  · by_contra hne
    have hx2 : x.2 ≠ 0 := fun h => hne (Prod.ext hx1 h)
    rw [State.entry, hx1, show (onePage 5 pmm).phys 4 = Function.update zeroFrame 0 (openEntry 5)
      from rfl, Function.update_of_ne hx2] at hpres
    exact absurd hpres Bool.false_ne_true

theorem onePage_owns (K : List (Fin 512) → Prop) : Owns bitmap 1 K (onePage 5 smallPmm) := by
  have htable : ∀ g, IsTable (under 1) kNext (onePage 5 smallPmm).phys g →
      g = 1 ∨ g = 2 ∨ g = 3 ∨ g = 4 := by
    rintro g ⟨r, p, hD, hg⟩
    obtain rfl : r = 1 := hD.1
    rw [onePage_kernel_tableAt (by decide)] at hg
    rcases onePage_tableAt hg with ⟨-, rfl⟩ | ⟨-, rfl⟩ | ⟨-, rfl⟩ | ⟨-, rfl⟩ <;> simp
  refine ⟨⟨show smallPmm.nframes.toNat ≤ 2 ^ 19 by decide, ?_, ?_⟩, ?_, ?_⟩
  · intro r p r' p' g hp hp' hg hg'
    obtain rfl : r = 1 := hp.1
    obtain rfl : r' = 1 := hp'.1
    rw [onePage_kernel_tableAt (by decide)] at hg hg'
    rcases onePage_tableAt hg with ⟨rfl, rfl⟩ | ⟨rfl, rfl⟩ | ⟨rfl, rfl⟩ | ⟨rfl, rfl⟩ <;>
      rcases onePage_tableAt hg' with ⟨rfl, h⟩ | ⟨rfl, h⟩ | ⟨rfl, h⟩ | ⟨rfl, h⟩ <;>
      first | exact ⟨rfl, rfl⟩ | exact absurd h (by decide)
  · intro g hg
    change Pmm.used smallPmm g.toNat = true
    rcases htable g hg with rfl | rfl | rfl | rfl <;> decide
  · intro x hx
    obtain rfl := onePage_userSlot hx
    refine ⟨by decide, show Pmm.used smallPmm 5 = true by decide, fun hbad => ?_⟩
    rcases htable _ hbad with h | h | h | h <;> exact absurd h (by decide)
  · intro x y hx hy _
    rw [onePage_userSlot hx, onePage_userSlot hy]

/-- All its entries are open, so only the upper half is the kernel's. -/
theorem onePage_kernelPosition {q : List (Fin 512)}
    (hq : KernelPosition (onePage 5 smallPmm).phys 1 q) : ∃ i ∈ q.head?, 256 ≤ i.val := by
  rcases hq with hhigh | ⟨p, i, e, -, hentry, hpres, hclosed⟩
  · exact hhigh
  · exfalso
    obtain ⟨t, ht, rfl⟩ := Option.map_eq_some_iff.mp hentry
    have hopen : ∀ (f f' : FrameNo) (k : Fin 512),
        (onePage 5 smallPmm).phys f = Function.update zeroFrame k (openEntry f') →
        ((onePage 5 smallPmm).phys f i).present = true →
        ((onePage 5 smallPmm).phys f i).usermode = true := by
      intro f f' k hf
      rw [hf]
      by_cases hik : i = k
      · rw [hik, Function.update_self]
        exact fun _ => rfl
      · rw [Function.update_of_ne hik]
        exact fun h => absurd h Bool.false_ne_true
    rw [onePage_kernel_tableAt (by decide)] at ht
    have huser : ((onePage 5 smallPmm).phys t i).usermode = true := by
      rcases onePage_tableAt ht with ⟨-, rfl⟩ | ⟨-, rfl⟩ | ⟨-, rfl⟩ | ⟨-, rfl⟩
      · exact hopen 1 2 0 rfl hpres
      · exact hopen 2 3 0 rfl hpres
      · exact hopen 3 4 2 rfl hpres
      · exact hopen 4 5 0 rfl hpres
    rw [huser] at hclosed
    contradiction

theorem onePage_noPending : NoPending 1 (onePage 5 smallPmm) := by
  intro p i e hkernel hlen hentry
  obtain ⟨t, ht, -⟩ := Option.map_eq_some_iff.mp hentry
  rw [onePage_kernel_tableAt (by decide)] at ht
  obtain ⟨k, hk, hhigh⟩ := onePage_kernelPosition hkernel
  rcases onePage_tableAt ht with ⟨rfl, -⟩ | ⟨rfl, -⟩ | ⟨rfl, -⟩ | ⟨rfl, -⟩
  · simp at hlen
  · simp at hlen
  · simp at hlen
  · obtain rfl : k = 0 := by simpa using hk.symm
    exact absurd hhigh (by decide)

theorem onePage_heapClear {heapBase heap : Addr} (hheap : heap.toNat ≤ 2 ^ 39) :
    HeapClear (onePage 5 smallPmm) ⟨1, heapBase, heap⟩ := by
  refine ⟨show heap.toNat ≤ 2 ^ 47 by omega, ?_⟩
  intro a _ ha hkernel
  obtain ⟨k, hk, hhigh⟩ := onePage_kernelPosition hkernel
  obtain rfl : k = pml4Index a := by simpa [position, path] using hk.symm
  rw [pml4Index, tableIndex_val] at hhigh
  replace ha : a.toNat < heap.toNat := ha
  omega

/-- The heap grows by a page and user code touches it. -/
theorem kernelKept_of_served_touch :
    ∃ s, Served pmm (Allowed (onePage 5 smallPmm))
        (⟨1, 0x401000, 0x401000⟩, onePage 5 smallPmm) (⟨1, 0x401000, 0x402000⟩, s) ∧
      (userEntry s.phys 1 0x401000).isSome = true ∧ Kept 1 (onePage 5 smallPmm) s := by
  have hgrow : Served pmm (Allowed (onePage 5 smallPmm))
      (⟨1, 0x401000, 0x401000⟩, onePage 5 smallPmm)
      (⟨1, 0x401000, 0x402000⟩, onePage 5 smallPmm) := by
    refine Relation.ReflTransGen.single
      ⟨.brk 0x402000, fun _ => ⟨onePage_heapClear (by decide), ?_⟩, rfl⟩
    exact fun hlt => absurd hlt (by decide)
  have hfault : ((memPageFault pmm (onePage 5 smallPmm) ⟨1, 0x401000, 0x402000⟩
      0x401000).toOption.map
      fun res => (userEntry res.2.phys 1 0x401000).isSome) = some true := by decide +kernel
  cases hcall : memPageFault pmm (onePage 5 smallPmm) ⟨1, 0x401000, 0x402000⟩ 0x401000 with
  | error e => rw [hcall] at hfault; contradiction
  | ok res =>
    obtain ⟨again, s⟩ := res
    rw [hcall] at hfault
    have hrun := hgrow.tail ⟨.fault 0x401000, trivial, (by
      simp only [serve, hcall]
      rfl : serve pmm (.fault 0x401000) _ = .ok (⟨1, 0x401000, 0x402000⟩, s))⟩
    exact ⟨s, hrun, Option.some.inj hfault, kernelKept_of_served (L := bitmap) (onePage_owns _)
      onePage_noPending (onePage_heapClear (by decide)) hrun⟩

/-- A directory in frame 1 with one page of the kernel heap, at 0xFFFFFF0000000000 in frame 5. -/
def kernelHeap : State Pmm.State where
  phys f :=
    if f = 1 then Function.update zeroFrame 510 (openEntry 2)
    else if f = 2 then Function.update zeroFrame 0 (openEntry 3)
    else if f = 3 then Function.update zeroFrame 0 (openEntry 4)
    else if f = 4 then Function.update zeroFrame 0 { openEntry 5 with usermode := false }
    else zeroFrame
  refs _ := 0
  pmm := smallPmm

/-- A break above the kernel heap and a fault below it: the page of the kernel heap is
replaced by a user page. -/
theorem brk_opens_kernel_heap :
    ∃ c, Served pmm (fun _ _ => True) (⟨1, 0x400000, 0x400000⟩, kernelHeap) c ∧
      (entryAt kernelHeap.phys 1 [510, 0, 0] 0).map (fun e => (e.usermode, e.address)) =
        some (false, 5) ∧
      (entryAt c.2.phys 1 [510, 0, 0] 0).map (fun e => (e.usermode, e.address)) = some (true, 6) ∧
      ¬ Kept 1 kernelHeap c.2 := by
  have hbefore : (entryAt kernelHeap.phys 1 [510, 0, 0] 0).map (fun e => (e.usermode, e.address)) =
      some (false, 5) := by decide +kernel
  have hfault : ((memPageFault pmm kernelHeap ⟨1, 0x400000, 0xFFFFFF0000001000⟩
      0xFFFFFF0000000000).toOption.map fun res =>
        (entryAt res.2.phys 1 [510, 0, 0] 0).map fun e => (e.usermode, e.address)) =
      some (some (true, 6)) := by decide +kernel
  cases hcall : memPageFault pmm kernelHeap ⟨1, 0x400000, 0xFFFFFF0000001000⟩
      0xFFFFFF0000000000 with
  | error e => rw [hcall] at hfault; contradiction
  | ok res =>
    obtain ⟨again, s⟩ := res
    rw [hcall] at hfault
    have hafter : (entryAt s.phys 1 [510, 0, 0] 0).map (fun e => (e.usermode, e.address)) =
        some (true, 6) := Option.some.inj hfault
    refine ⟨(⟨1, 0x400000, 0xFFFFFF0000001000⟩, s), ?_, hbefore, hafter, fun hkept => ?_⟩
    · refine Relation.ReflTransGen.head ⟨.brk 0xFFFFFF0000001000, trivial, rfl⟩
        (Relation.ReflTransGen.single ⟨.fault 0xFFFFFF0000000000, trivial, ?_⟩)
      simp only [serve]
      rw [hcall]
      rfl
    · have hsame : entryAt s.phys 1 [510, 0, 0] 0 = entryAt kernelHeap.phys 1 [510, 0, 0] 0 :=
        hkept [510, 0, 0, 0] rfl (Or.inl ⟨510, rfl, by decide⟩) [510, 0, 0] 0 (List.prefix_refl _)
      rw [hsame, hbefore] at hafter
      exact absurd hafter (by decide)

end OnePage

end ReduceOS.KernelMappings
