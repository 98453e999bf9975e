import ReduceOS.RegionAllocation

/-!
Freeing what was allocated. `mem_free` starts at the same page as `mem_allocate`, but goes through
as many pages as its size has from there, not as many as the region touches; and it takes its size
off the kernel heap, not what the allocation put on. The two calls are inverse to each other where
the start does not push the region into one more page and, for the heap, where nothing is rounded.
-/
namespace ReduceOS.RegionFree

open Machine Page Physical Paging Outcome TableTree PageMap MapAddress PointerCheck CopyOnWrite
  KernelMappings AddressAliases RegionAllocation
open UserHeap (visited pageLoop freeAt)

section Pages

variable {start size limit i : Addr} {n k : ℕ}

def Agree (start size : Addr) : Prop :=
  (start.toNat % 4096 + size.toNat + 4095) / 4096 = (size.toNat + 4095) / 4096

structure Covers (l : List Addr) (first n : ℕ) : Prop where
  nodup : l.Nodup
  mem : ∀ i : Addr, i ∈ l ↔ i.toNat % 4096 = 0 ∧ first ≤ i.toNat ∧ i.toNat < first + 4096 * n

theorem visited_eq (hfit : start.toNat + 4096 * n < 2 ^ 64)
    (hlimit : limit.toNat ≤ start.toNat + 4096 * n)
    (hlast : start.toNat + 4096 * n < limit.toNat + 4096) (hn : n ≤ k) :
    visited k start limit = (List.range n).map (stepAt start) := by
  induction n generalizing start k with
  | zero =>
    cases k with
    | zero => rfl
    | succ k =>
      rw [visited, if_neg (by rw [BitVec.lt_def]; omega)]
      rfl
  | succ n ih =>
    obtain ⟨k, rfl⟩ : ∃ k', k = k' + 1 := ⟨k - 1, by omega⟩
    have hnext : (start + 0x1000).toNat = start.toNat + 4096 := by
      rw [BitVec.toNat_add, show (0x1000 : Addr).toNat = 4096 from rfl]
      omega
    rw [visited, if_pos (by rw [BitVec.lt_def]; omega),
      ih (by omega) (by omega) (by omega) (by omega), List.range_succ_eq_map, List.map_cons,
      List.map_map]
    refine congrArg₂ List.cons (BitVec.add_zero start).symm ?_
    exact List.map_congr_left fun j _ => (stepAt_succ start j).symm

theorem pageLoop_eq (hfit : start.toNat + 4096 * n < 2 ^ 64)
    (hlimit : limit.toNat ≤ start.toNat + 4096 * n)
    (hlast : start.toNat + 4096 * n < limit.toNat + 4096) :
    pageLoop start limit = (List.range n).map (stepAt start) := by
  have hn : n ≤ 2 ^ 52 := by omega
  unfold pageLoop
  generalize 2 ^ 52 = k at hn ⊢
  exact visited_eq hfit hlimit hlast hn

theorem covers_pageLoop (halign : start.toNat % 4096 = 0) (hn : start.toNat + 4096 * n < 2 ^ 64)
    (hlimit : limit.toNat ≤ start.toNat + 4096 * n)
    (hlast : start.toNat + 4096 * n < limit.toNat + 4096) :
    Covers (pageLoop start limit) start.toNat n := by
  have hstep : ∀ k < n, (stepAt start k).toNat = start.toNat + 4096 * k := by
    intro k hk
    rw [stepAt_toNat]
    omega
  rw [pageLoop_eq hn hlimit hlast]
  constructor
  · refine List.Nodup.map_on (fun j hj k hk heq => ?_) List.nodup_range
    have hnat := congrArg BitVec.toNat heq
    rw [hstep j (List.mem_range.mp hj), hstep k (List.mem_range.mp hk)] at hnat
    omega
  · intro i
    rw [List.mem_map]
    constructor
    · rintro ⟨k, hk, rfl⟩
      have hk := List.mem_range.mp hk
      rw [hstep k hk]
      omega
    · rintro ⟨hpage, hle, hlt⟩
      refine ⟨(i.toNat - start.toNat) / 4096, List.mem_range.mpr (by omega), ?_⟩
      apply BitVec.eq_of_toNat_eq
      rw [hstep _ (by omega)]
      omega

theorem sizeActual_toNat (start size : Addr) : (sizeActual start size).toNat =
    ((size.toNat + start.toNat % 4096) % 2 ^ 64 + 4095) / 4096 * 4096 % 2 ^ 64 := by
  have hsum : (size + (start &&& 0xFFF#64)).toNat =
      (size.toNat + start.toNat % 4096) % 2 ^ 64 := by
    rw [BitVec.toNat_add, and_fff]
  unfold sizeActual
  generalize size + (start &&& 0xFFF#64) = sum at hsum ⊢
  have hlt := sum.isLt
  have hrem : sum &&& 0xFFF#64 = 0 ↔ sum.toNat % 4096 = 0 := by
    rw [BitVec.toNat_eq, and_fff]
    rfl
  rw [← hsum]
  by_cases hzero : sum &&& 0xFFF#64 = 0
  · rw [if_neg (not_not.mpr hzero)]
    have := hrem.mp hzero
    omega
  · rw [if_pos hzero, alignPage, toNat_and_not_fff, BitVec.toNat_add,
      show (0x1000#64).toNat = 4096 from rfl]
    have := mt hrem.mpr hzero
    omega

variable {a o : ℕ}

theorem split_start (start : Addr) : ∃ a o, start.toNat = a + o ∧ a % 4096 = 0 ∧ o < 4096 :=
  ⟨start.toNat / 4096 * 4096, start.toNat % 4096, by omega, by omega, by omega⟩

theorem first_toNat (hstart : start.toNat = a + o) (ha : a % 4096 = 0) (ho : o < 4096) :
    (start &&& ~~~0xFFF#64).toNat = a := by
  rw [toNat_and_not_fff]
  omega

/-- A region that has pages ends below the end of the address space, or is as large as that. -/
theorem limits_cases (hstart : start.toNat = a + o) (ha : a % 4096 = 0) (ho : o < 4096)
    (hsize : size ≠ 0) (hpages : regionPages start size ≠ []) :
    (a + (size.toNat + o + 4095) / 4096 * 4096 < 2 ^ 64 ∧
      ((start &&& ~~~0xFFF#64) + sizeActual start size).toNat =
        a + (size.toNat + o + 4095) / 4096 * 4096 ∧
      (sizeActual start size).toNat = (size.toNat + o + 4095) / 4096 * 4096 ∧
      ((start &&& ~~~0xFFF#64) + size).toNat = a + size.toNat) ∨
    (2 ^ 64 < size.toNat + o ∧ a + 4096 < 2 ^ 64 ∧
      ((start &&& ~~~0xFFF#64) + sizeActual start size).toNat = a + 4096 ∧
      (a = 0 ∧ ((start &&& ~~~0xFFF#64) + size).toNat = size.toNat ∨
        ((start &&& ~~~0xFFF#64) + size).toNat < a)) := by
  have hfirst := first_toNat hstart ha ho
  have hactual := sizeActual_toNat start size
  have hlimit := BitVec.toNat_add (start &&& ~~~0xFFF#64) (sizeActual start size)
  have hlimit' := BitVec.toNat_add (start &&& ~~~0xFFF#64) size
  have hlt : (start &&& ~~~0xFFF#64) < (start &&& ~~~0xFFF#64) + sizeActual start size := by
    by_contra hnot
    exact hpages ((visited_eq_nil (by decide)).mpr hnot)
  have hpos : 0 < size.toNat := by
    rw [Nat.pos_iff_ne_zero]
    exact fun h => hsize (BitVec.eq_of_toNat_eq h)
  have hbound := size.isLt
  have hmod : start.toNat % 4096 = o := by omega
  rw [BitVec.lt_def] at hlt
  rw [hfirst] at hlimit hlimit' hlt
  rw [hmod] at hactual
  by_cases hwrap : size.toNat + o < 2 ^ 64
  · rw [Nat.mod_eq_of_lt hwrap] at hactual
    left
    omega
  · rw [show (size.toNat + o) % 2 ^ 64 = size.toNat + o - 2 ^ 64 by omega] at hactual
    right
    omega

/-- The pages of a region, and those that freeing it goes through. -/
theorem pages_cover (hsize : size ≠ 0) (hpages : regionPages start size ≠ [])
    (hends : ¬ endless (start &&& ~~~0xFFF#64) ((start &&& ~~~0xFFF#64) + size)) :
    ∃ a n m, m ≤ n ∧ a % 4096 = 0 ∧ a + 4096 * n < 2 ^ 64 ∧
      Covers (regionPages start size) a n ∧ Covers (freedPages start size) a m ∧
      (m = n ↔ Agree start size) := by
  obtain ⟨a, o, hstart, ha, ho⟩ := split_start start
  have hfirst := first_toNat hstart ha ho
  have hmod : start.toNat % 4096 = o := by omega
  unfold Agree
  rw [hmod]
  rcases limits_cases hstart ha ho hsize hpages with
    ⟨hfit, hlimit, -, hlimit'⟩ | ⟨hlarge, hfit, hlimit, hwrap⟩
  · refine ⟨a, (size.toNat + o + 4095) / 4096, (size.toNat + 4095) / 4096, by omega, ha, by omega,
      ?_, ?_, ?_⟩
    · rw [← hfirst]
      apply covers_pageLoop <;> omega
    · rw [← hfirst]
      apply covers_pageLoop <;> omega
    · omega
  · refine ⟨a, 1, 0, by omega, ha, by omega, ?_, ?_, ?_⟩
    · rw [← hfirst]
      apply covers_pageLoop <;> omega
    · have hnil : freedPages start size = [] := by
        refine (visited_eq_nil (by decide)).mpr fun hlt => ?_
        rcases hwrap with ⟨rfl, hlimit'⟩ | hbelow
        · refine hends ⟨hlt, ?_⟩
          rw [BitVec.lt_def, hlimit', show (0xFFFFFFFFFFFFF000#64).toNat = 2 ^ 64 - 4096 from rfl]
          omega
        · rw [BitVec.lt_def, hfirst] at hlt
          omega
      rw [hnil]
      exact ⟨List.nodup_nil, fun i => by simp⟩
    · omega

/-- Where the numbers of pages agree, the loop of `mem_free` ends. -/
theorem ends_of_agree (hsize : size ≠ 0) (hpages : regionPages start size ≠ [])
    (hagree : Agree start size) :
    ¬ endless (start &&& ~~~0xFFF#64) ((start &&& ~~~0xFFF#64) + size) := by
  obtain ⟨a, o, hstart, ha, ho⟩ := split_start start
  unfold Agree at hagree
  rintro ⟨-, hlast⟩
  rw [BitVec.lt_def, show (0xFFFFFFFFFFFFF000#64).toNat = 2 ^ 64 - 4096 from rfl] at hlast
  rcases limits_cases hstart ha ho hsize hpages with ⟨hfit, -, -, hlimit'⟩ | ⟨hlarge, -⟩
  · omega
  · have := size.isLt
    omega

/-- Where they agree, nothing is rounded exactly for whole pages. -/
theorem sizeActual_eq_iff (hsize : size ≠ 0) (hpages : regionPages start size ≠ [])
    (hagree : Agree start size) : sizeActual start size = size ↔ size.toNat % 4096 = 0 := by
  obtain ⟨a, o, hstart, ha, ho⟩ := split_start start
  unfold Agree at hagree
  rw [BitVec.toNat_eq]
  rcases limits_cases hstart ha ho hsize hpages with ⟨-, -, hactual, -⟩ | ⟨hlarge, -⟩
  · omega
  · have := size.isLt
    omega

end Pages

section Invariant

variable {P : Type} {L : LawfulAllocator P} {s₀ s s' : State P} {dir g h t f : FrameNo}
  {p : List (Fin 512)} {i j : Addr} {fr : Addr → FrameNo} {S : Set Addr}

def pageAt (mem : FrameNo → Frame) (dir : FrameNo) (i : Addr) : Option Entry :=
  entryAt mem dir (path i) (pagetblIndex i)

def tables (dir : FrameNo) (mem : FrameNo → Frame) : Set FrameNo :=
  {g | IsTable (under dir) kNext mem g}

/-- Since `s₀` the pages of `S` have got the frames `fr`, and tables may have been added; no other
frames are used. -/
structure Mapped (L : LawfulAllocator P) (dir : FrameNo) (s₀ : State P) (fr : Addr → FrameNo)
    (S : Set Addr) (s : State P) : Prop where
  tree : Tables L (under dir) s
  refs : s.refs = s₀.refs
  shown : ∀ i ∈ S, (pageAt s.phys dir i).map Entry.address = some (fr i)
  low : ∀ i ∈ S, (fr i).toNat < 2 ^ 19
  fresh : ∀ i ∈ S, fr i ∉ L.used s₀.pmm
  leaf : ∀ i ∈ S, fr i ∉ tables dir s.phys
  distinct : Set.InjOn fr S
  used : L.used s.pmm = L.used s₀.pmm ∪ tables dir s.phys ∪ fr '' S

theorem Mapped.start (fr : Addr → FrameNo) (ht : Tables L (under dir) s₀) :
    Mapped L dir s₀ fr ∅ s₀ where
  tree := ht
  refs := rfl
  shown _ hi := absurd hi (Set.notMem_empty _)
  low _ hi := absurd hi (Set.notMem_empty _)
  fresh _ hi := absurd hi (Set.notMem_empty _)
  leaf _ hi := absurd hi (Set.notMem_empty _)
  distinct := Set.injOn_empty fr
  used := by
    rw [Set.image_empty, Set.union_empty, Set.union_eq_left.mpr]
    exact ht.inUse

theorem Mapped.mem_used (hm : Mapped L dir s₀ fr S s) (hi : i ∈ S) : fr i ∈ L.used s.pmm := by
  rw [hm.used]
  exact Or.inr ⟨i, hi, rfl⟩

theorem Mapped.added {k : Fin 512} (hm : Mapped L dir s₀ fr S s) (hadd : Added L s s' g k h)
    (habs : (s.phys g k).present = false) (hg : tableAt kNext s.phys dir p = some g)
    (hlen : p.length < 3) {h' : FrameNo} (hat : tableAt kNext s'.phys dir (p ++ [k]) = some h') :
    Mapped L dir s₀ fr S s' := by
  have hshape := Tables.shape hm.tree
  have hgrow := Added.grow hshape hadd habs
  have hlink : tableAt kNext s'.phys dir (p ++ [k]) = some h := by
    have hnext := hat
    rw [tableAt, walk_concat, show walk kNext s'.phys 0 dir p = some g from hgrow.keep hg,
      Option.bind_some] at hnext
    rw [hat, hgrow.new _ _ hnext]
  have htables : tables dir s'.phys = insert h (tables dir s.phys) := by
    ext f
    constructor
    · rintro ⟨r, q, hq, hf⟩
      obtain rfl : r = dir := hq.1
      exact (hgrow.back hf).symm.imp (·.1) fun hold => ⟨r, q, hq, hold⟩
    · rintro (rfl | ⟨r, q, hq, hf⟩)
      · exact ⟨dir, p ++ [k], carrier_of_tableAt hlink, hlink⟩
      · obtain rfl : r = dir := hq.1
        exact ⟨r, q, hq, hgrow.keep hf⟩
  refine ⟨Tables.added hm.tree hadd habs, hadd.refs.trans hm.refs, ?_, hm.low, hm.fresh, ?_,
    hm.distinct, ?_⟩
  · intro i hi
    rw [← hm.shown i hi]
    obtain ⟨e, hpage, -⟩ := Option.map_eq_some_iff.mp (hm.shown i hi)
    obtain ⟨t, ht, -⟩ := Option.map_eq_some_iff.mp hpage
    have htg : t ≠ g := by
      rintro rfl
      have hsame := congrArg List.length (Tables.position_eq hm.tree ht hg)
      simp [path] at hsame
      omega
    have hth : t ≠ h := by
      rintro rfl
      exact hadd.fresh (hshape.inUse _ _ ht)
    simp only [pageAt, entryAt, ht, hgrow.keep ht, Option.map_some,
      hadd.others t _ hth (Or.inl htg)]
  · rintro i hi hf
    rw [htables] at hf
    rcases hf with heq | hf
    · exact hadd.fresh (heq ▸ hm.mem_used hi)
    · exact hm.leaf i hi hf
  · rw [hadd.used, hm.used, htables]
    ext f
    simp only [Set.mem_insert_iff, Set.mem_union]
    tauto

/-- The walk of `mem_getPage`. -/
theorem memGetPage_mapped (hm : Mapped L dir s₀ fr S s) (hi : isCanonical i = true) :
    Meets Any (memGetPage L.toAllocator s dir i memCreate) fun res =>
      ∀ pg, res.1 = some pg → Mapped L dir s₀ fr S res.2 ∧
        ∃ t, pg = (t, pagetblIndex i) ∧ tableAt kNext res.2.phys dir (path i) = some t := by
  refine meets_mono (memGetPage_rule (J := Mapped L dir s₀ fr S) (E := fun _ => True) hi hm ?_) ?_
  · intro s₁ q k g hm₁ _ hlen hg
    refine meets_mono (descend_added (Tables.shape hm₁.tree) hg hlen) ?_
    rintro ⟨o, s₂⟩ hres
    cases o with
    | none => exact trivial
    | some h =>
      obtain ⟨hat, rfl | ⟨habs, h', hadd⟩⟩ := hres
      · exact ⟨hat, hm₁⟩
      · exact ⟨hat, hm₁.added hadd habs hg hlen hat⟩
  · rintro ⟨o, s'⟩ hres
    cases o with
    | none => exact fun _ h => absurd h.symm (Option.some_ne_none _)
    | some pg =>
      obtain ⟨t, rfl, hat, hm'⟩ := hres
      exact fun _ h => ⟨hm', t, (Option.some.inj h).symm, hat⟩

/-- Writing the entry of one page changes what that page shows. -/
theorem pageAt_setEntry (ht : Tables L (under dir) s)
    (hat : tableAt kNext s.phys dir (path i) = some t) (e : Entry) :
    (∀ q, tableAt kNext (s.setEntry t (pagetblIndex i) e).phys dir q = tableAt kNext s.phys dir q) ∧
      pageAt (s.setEntry t (pagetblIndex i) e).phys dir i = some e ∧
      ∀ j, position j ≠ position i →
        pageAt (s.setEntry t (pagetblIndex i) e).phys dir j = pageAt s.phys dir j := by
  have hwalk := leaf_walk (Tables.shape ht).layered (by simp [path]) hat (pagetblIndex i) e
  refine ⟨hwalk, ?_, fun j hne => ?_⟩
  · rw [pageAt, entryAt, hwalk, hat, Option.map_some, State.setEntry_phys_self]
  · rw [pageAt, entryAt, hwalk, pageAt, entryAt]
    cases hj : tableAt kNext s.phys dir (path j) with
    | none => rfl
    | some t' =>
      refine congrArg some ?_
      by_cases htt : t' = t
      · subst htt
        refine State.setEntry_phys_index_ne _ _ _ _ fun hidx => hne ?_
        rw [position, position, Tables.position_eq ht hj hat, hidx]
      · exact congrFun (State.setEntry_phys_frame_ne _ _ _ htt) _

theorem Mapped.map {pageFlags : BitVec 64} (hm : Mapped L dir s₀ fr S s)
    (hat : tableAt kNext s.phys dir (path i) = some t)
    (hapart : ∀ j ∈ S, position j ≠ position i)
    (hfree : has pageFlags memPageFree = false) (hno : has pageFlags memPageNoalloc = false) :
    Meets Any (memAllocatePage L.toAllocator s (some (t, pagetblIndex i)) pageFlags) fun s' =>
      ∃ fr', Mapped L dir s₀ fr' (insert i S) s' := by
  refine meets_mono (meets_weaken (memAllocatePage_fresh L hm.tree.valid _ hfree hno)
    fun _ _ => trivial) ?_
  rintro s' ⟨f, pmm, hlow, hfresh, hvalid, hused, rfl⟩
  let e : Entry := configure { s.phys t (pagetblIndex i) with address := f } pageFlags
  have haddress : e.address = f := by
    change (configure _ _).address = f
    unfold configure
    split_ifs <;> rfl
  obtain ⟨hwalk, hself, hothers⟩ := pageAt_setEntry hm.tree hat e
  have htables : tables dir (s.setEntry t (pagetblIndex i) e).phys = tables dir s.phys :=
    Set.ext fun _ => isTable_of_walks hwalk
  have hne : ∀ j ∈ S, j ≠ i := fun j hj heq => hapart j hj (congrArg position heq)
  have hupdate : ∀ j ∈ S, Function.update fr i f j = fr j := fun j hj =>
    Function.update_of_ne (hne j hj) f fr
  have htable : f ∉ tables dir s.phys := fun hf => hfresh (hm.tree.inUse f hf)
  refine ⟨Function.update fr i f, ⟨hvalid, tree_of_walks hwalk hm.tree.tree, ?_⟩, hm.refs,
    ?_, ?_, ?_, ?_, ?_, ?_⟩
  · intro g hg
    change g ∈ L.used pmm
    rw [hused]
    exact Or.inr (hm.tree.inUse g (htables.subset hg))
  · rintro j (rfl | hj)
    · rw [Function.update_self]
      exact (congrArg (Option.map Entry.address) hself).trans (congrArg some haddress)
    · rw [hupdate j hj]
      exact (congrArg (Option.map Entry.address) (hothers j (hapart j hj))).trans (hm.shown j hj)
  · rintro j (rfl | hj)
    · rwa [Function.update_self]
    · rw [hupdate j hj]
      exact hm.low j hj
  · rintro j (rfl | hj)
    · rw [Function.update_self]
      intro hf
      apply hfresh
      rw [hm.used]
      exact Or.inl (Or.inl hf)
    · rw [hupdate j hj]
      exact hm.fresh j hj
  · rintro j (rfl | hj) hf
    · rw [Function.update_self] at hf
      exact htable (htables.subset hf)
    · rw [hupdate j hj] at hf
      exact hm.leaf j hj (htables.subset hf)
  · have hnew : ∀ j ∈ S, fr j ≠ f := fun j hj heq => hfresh (heq ▸ hm.mem_used hj)
    rintro a (rfl | ha) b (rfl | hb) heq
    · rfl
    · rw [Function.update_self, hupdate b hb] at heq
      exact absurd heq.symm (hnew b hb)
    · rw [Function.update_self, hupdate a ha] at heq
      exact absurd heq (hnew a ha)
    · rw [hupdate a ha, hupdate b hb] at heq
      exact hm.distinct ha hb heq
  · change L.used pmm = L.used s₀.pmm ∪ tables dir (s.setEntry t (pagetblIndex i) e).phys ∪ _
    have himage : Function.update fr i f '' S = fr '' S := Set.image_congr hupdate
    rw [hused, hm.used, htables, Set.image_insert_eq, Function.update_self, himage,
      Set.union_insert]

/-- A page that a call of `mem_free` goes through loses its frame. -/
theorem Mapped.free (hm : Mapped L dir s₀ fr S s) (hrefs : ∀ f ∉ L.used s₀.pmm, s₀.refs f = 0)
    (hi : i ∈ S) (hcanon : isCanonical i = true)
    (hapart : ∀ j ∈ S, j ≠ i → position j ≠ position i) :
    ∃ s', freeAt L.toAllocator dir s i = .ok s' ∧ Mapped L dir s₀ fr (S \ {i}) s' ∧
      (∃ e, pageAt s'.phys dir i = some e ∧ e.present = false) ∧
      ∀ j, position j ≠ position i → pageAt s'.phys dir j = pageAt s.phys dir j := by
  obtain ⟨e, hpage, haddress⟩ := Option.map_eq_some_iff.mp (hm.shown i hi)
  obtain ⟨t, hat, rfl⟩ := Option.map_eq_some_iff.mp hpage
  have hzero : s.refs (State.entry s (t, pagetblIndex i)).address = 0 := by
    change s.refs (s.phys t (pagetblIndex i)).address = 0
    rw [haddress, hm.refs]
    exact hrefs _ (hm.fresh i hi)
  have hframe : getFrame (State.entry s (t, pagetblIndex i)) = frameAddr (fr i) := by
    change getFrame (s.phys t (pagetblIndex i)) = _
    rw [getFrame_of_lt _ (by rw [haddress]; exact hm.low i hi), haddress]
  let e := releasedEntry (s.phys t (pagetblIndex i))
  obtain ⟨hwalk, hself, hothers⟩ := pageAt_setEntry hm.tree hat e
  have htables : tables dir (s.setEntry t (pagetblIndex i) e).phys = tables dir s.phys :=
    Set.ext fun _ => isTable_of_walks hwalk
  obtain ⟨hvalid, hused⟩ := L.free_spec s.pmm (fr i) hm.tree.valid (hm.mem_used hi) (hm.low i hi)
  have hcall : freeAt L.toAllocator dir s i =
      .ok (freeFrame L.toAllocator (s.setEntry t (pagetblIndex i) e) (frameAddr (fr i))) := by
    unfold freeAt
    rw [memGetPage_of_clear hcanon (clear_of_walk hat), hat]
    change memAllocatePage L.toAllocator s (some (t, pagetblIndex i)) memPageFree = _
    have hflag : has memPageFree memPageFree = true := by decide
    simp only [memAllocatePage, hflag, if_true]
    rw [memFreePage_uncounted s _ hzero, releasePage_eq, hframe]
    rfl
  refine ⟨_, hcall, ?_, ⟨e, hself, rfl⟩, hothers⟩
  refine ⟨⟨hvalid, tree_of_walks hwalk hm.tree.tree, ?_⟩, hm.refs, ?_, fun j hj => hm.low j hj.1,
    fun j hj => hm.fresh j hj.1, ?_, hm.distinct.mono Set.sdiff_subset, ?_⟩
  · intro g hg
    change g ∈ L.used (L.freeBlock s.pmm (frameAddr (fr i)))
    have hg := htables.subset hg
    rw [hused]
    exact ⟨hm.tree.inUse g hg, fun heq => hm.leaf i hi (heq ▸ hg)⟩
  · rintro j ⟨hj, hne⟩
    exact (congrArg (Option.map Entry.address) (hothers j (hapart j hj hne))).trans (hm.shown j hj)
  · exact fun j hj hf => hm.leaf j hj.1 (htables.subset hf)
  · change L.used (L.freeBlock s.pmm (frameAddr (fr i))) =
      L.used s₀.pmm ∪ tables dir (s.setEntry t (pagetblIndex i) e).phys ∪ _
    have hold : fr i ∉ L.used s₀.pmm ∪ tables dir s.phys := by
      rintro (hf | hf)
      · exact hm.fresh i hi hf
      · exact hm.leaf i hi hf
    have himage : fr '' (S \ {i}) = fr '' S \ {fr i} := by
      ext f
      constructor
      · rintro ⟨j, ⟨hj, hne⟩, rfl⟩
        exact ⟨⟨j, hj, rfl⟩, fun heq => hne (hm.distinct hj hi heq)⟩
      · rintro ⟨⟨j, hj, rfl⟩, hne⟩
        exact ⟨j, ⟨hj, fun heq => hne (congrArg fr heq)⟩, rfl⟩
    rw [hused, hm.used, htables, himage, Set.union_sdiff_distrib, Set.sdiff_singleton_eq_self hold]

end Invariant

section Loops

variable {P : Type} {L : LawfulRunAllocator P} {s₀ s : State P} {dir : FrameNo}
  {fr : Addr → FrameNo} {S : Set Addr} {l : List Addr} {first contig flags pageFlags : Addr}

/-- The loop of `mem_allocate`, when it gets through. -/
theorem mapPages_mapped (hgrants : Grants flags pageFlags)
    (hfree : has pageFlags memPageFree = false) (l : List Addr)
    (hm : Mapped L.toLawfulAllocator dir s₀ fr S s) (hcanon : ∀ i ∈ l, isCanonical i = true)
    (hpair : l.Pairwise fun i j => position i ≠ position j)
    (hapart : ∀ i ∈ l, ∀ j ∈ S, position j ≠ position i) :
    Meets Any (mapPages L.toRunAllocator (mapAt L.toRunAllocator first contig flags pageFlags) dir l
      s) fun res => res.1 = true →
        ∃ fr', Mapped L.toLawfulAllocator dir s₀ fr' (S ∪ {i | i ∈ l}) res.2 := by
  induction l generalizing s fr S with
  | nil => exact fun _ => ⟨fr, by simpa using hm⟩
  | cons i l ih =>
    obtain ⟨hhead, htail⟩ := List.pairwise_cons.mp hpair
    refine meets_bind (memGetPage_mapped hm (hcanon i List.mem_cons_self)) ?_
    rintro ⟨o, s₁⟩ hres
    cases o with
    | none => exact fun h => absurd h Bool.false_ne_true
    | some pg =>
      obtain ⟨hm₁, t, rfl, hat⟩ := hres pg rfl
      have hsetup : mapAt L.toRunAllocator first contig flags pageFlags s₁ (t, pagetblIndex i) i =
          memAllocatePage L.toAllocator s₁ (some (t, pagetblIndex i)) pageFlags := by
        rw [mapAt, hgrants.1, if_neg Bool.false_ne_true]
      refine meets_bind (r := mapAt _ _ _ _ _ _ _ _) (hsetup ▸ hm₁.map hat
        (hapart i List.mem_cons_self) hfree hgrants.2) ?_
      rintro s₂ ⟨fr', hm₂⟩
      refine meets_mono (ih hm₂ (fun j hj => hcanon j (List.mem_cons_of_mem i hj)) htail ?_) ?_
      · rintro j hj c (rfl | hc)
        · exact hhead j hj
        · exact hapart j (List.mem_cons_of_mem i hj) c hc
      · rintro ⟨done, s'⟩ hdone htrue
        obtain ⟨fr', hm'⟩ := hdone htrue
        refine ⟨fr', ?_⟩
        have hset : S ∪ {j | j ∈ i :: l} = insert i S ∪ {j | j ∈ l} := by
          ext j
          simp only [Set.mem_union, Set.mem_ofPred_eq, List.mem_cons, Set.mem_insert_iff]
          tauto
        rwa [hset]

/-- The loop of `mem_free`, over pages that were mapped. -/
theorem freeLoop_mapped {L : LawfulAllocator P} (hrefs : ∀ f ∉ L.used s₀.pmm, s₀.refs f = 0)
    (l : List Addr) (hm : Mapped L dir s₀ fr S s) (hsub : ∀ i ∈ l, i ∈ S) (hnodup : l.Nodup)
    (hcanon : ∀ i ∈ S, isCanonical i = true)
    (hinj : ∀ i ∈ S, ∀ j ∈ S, j ≠ i → position j ≠ position i) :
    ∃ s', l.foldlM (freeAt L.toAllocator dir) s = .ok s' ∧
      Mapped L dir s₀ fr (S \ {i | i ∈ l}) s' ∧
      (∀ i ∈ l, ∃ e, pageAt s'.phys dir i = some e ∧ e.present = false) ∧
      ∀ j, (∀ i ∈ l, position j ≠ position i) → pageAt s'.phys dir j = pageAt s.phys dir j := by
  induction l generalizing s S with
  | nil => exact ⟨s, rfl, by simpa using hm, by simp, fun _ _ => rfl⟩
  | cons i l ih =>
    obtain ⟨hnot, hnodup⟩ := List.nodup_cons.mp hnodup
    have hi := hsub i List.mem_cons_self
    have hne : ∀ j ∈ l, j ≠ i := fun j hj heq => hnot (heq ▸ hj)
    obtain ⟨s₁, hcall, hm₁, ⟨e, hpage, habs⟩, hothers⟩ :=
      hm.free hrefs hi (hcanon i hi) (hinj i hi)
    obtain ⟨s', hrest, hm', hgone, hkept⟩ := ih hm₁
      (fun j hj => ⟨hsub j (List.mem_cons_of_mem i hj), hne j hj⟩) hnodup
      (fun j hj => hcanon j hj.1) (fun j hj c hc => hinj j hj.1 c hc.1)
    have hset : S \ {j | j ∈ i :: l} = (S \ {i}) \ {j | j ∈ l} := by
      ext j
      simp only [Set.mem_sdiff, Set.mem_ofPred_eq, List.mem_cons, Set.mem_singleton_iff]
      tauto
    refine ⟨s', ?_, hset ▸ hm', ?_, ?_⟩
    · rw [List.foldlM_cons, hcall]
      exact hrest
    · rintro j hj
      rcases List.mem_cons.mp hj with rfl | hj
      · refine ⟨e, (hkept j fun c hc => ?_).trans hpage, habs⟩
        exact hinj c (hsub c (List.mem_cons_of_mem j hc)) j hi (hne c hc).symm
      · exact hgone j hj
    · intro j hj
      rw [hkept j fun c hc => hj c (List.mem_cons_of_mem i hc), hothers j (hj i List.mem_cons_self)]

/-- The pages of a range without gaps that can all be created have entries of their own. -/
theorem Covers.apart {a n : ℕ} (hl : Covers l a n) (hcanon : ∀ i ∈ l, isCanonical i = true) :
    ∀ i ∈ l, ∀ j ∈ l, j ≠ i → position j ≠ position i := by
  have hlt : ∀ i ∈ l, ∀ j ∈ l, i.toNat < j.toNat → position j ≠ position i := by
    intro i hi j hj hlt heq
    obtain ⟨hi0, hlow, -⟩ := (hl.mem i).mp hi
    obtain ⟨hj0, -, hhigh⟩ := (hl.mem j).mp hj
    have hindices : path i = path j ∧ pagetblIndex i = pagetblIndex j :=
      (List.append_inj' heq.symm rfl).imp id fun h => (List.cons.inj h).1
    have hmod := (Accepted.indices_iff ⟨hi0, hcanon i hi⟩ ⟨hj0, hcanon j hj⟩).mp hindices
    have hci := (isCanonical_iff i).mp (hcanon i hi)
    have hcj := (isCanonical_iff j).mp (hcanon j hj)
    have hbound := j.isLt
    have hmid : (0x1000000000000 : Addr) ∈ l := by
      rw [hl.mem, show (0x1000000000000 : Addr).toNat = 2 ^ 48 from rfl]
      norm_num at hmod hci hcj hbound ⊢
      omega
    exact absurd (hcanon _ hmid) (by decide)
  intro i hi j hj hne
  rcases Nat.lt_or_gt_of_ne fun h => hne (BitVec.eq_of_toNat_eq h) with h | h
  · exact (hlt j hj i hi h).symm
  · exact hlt i hi j hj h

end Loops

section RoundTrip

variable {P : Type} {L : LawfulRunAllocator P} {dir : FrameNo} {k k₁ k₂ : Kernel P}
  {p start size flags pageFlags : Addr}

/-- What was allocated is given back: of the frames that the allocation took only page tables are
left, no page of the region is present, and the heap ends where it did. -/
structure Inverted (L : LawfulRunAllocator P) (dir : FrameNo) (flags : Addr) (pages : List Addr)
    (k k₂ : Kernel P) : Prop where
  used : L.used k₂.state.pmm = L.used k.state.pmm ∪ tables dir k₂.state.phys
  absent : ∀ i ∈ pages, ∀ e, pageAt k₂.state.phys dir i = some e → e.present = false
  heap : has flags memAllocHeap = true → k₂.heap = k.heap

theorem memFree_eq {A : Allocator P} (hcanon : isCanonical start = true) (hstart : start ≠ 0)
    (hsize : size ≠ 0) (hlock : has flags memAllocHeap = true → k.locked = false) :
    memFree A k dir start size flags =
      if endless (start &&& ~~~0xFFF#64) ((start &&& ~~~0xFFF#64) + size) then .error .forever
      else (lift ((freedPages start size).foldlM (freeAt A dir) k.state)).map fun s =>
        { state := s, heap := if has flags memAllocHeap then k.heap - size else k.heap,
          locked := k.locked } := by
  unfold memFree Kernel.acquire
  rw [hcanon, if_neg (by decide), if_neg (not_or.mpr ⟨hstart, hsize⟩)]
  cases hheap : has flags memAllocHeap with
  | false =>
    simp only [Bool.false_eq_true, if_false]
    change (if _ then _ else _) = _
    split_ifs
    · rfl
    · cases (freedPages start size).foldlM (freeAt A dir) k.state <;> rfl
  | true =>
    simp only [if_true, hlock hheap, Bool.false_eq_true, if_false]
    change (if _ then _ else _) = _
    split_ifs
    · rfl
    · cases (freedPages start size).foldlM (freeAt A dir) k.state <;> rfl

/-- What a successful call without `MEM_ALLOC_CONTIGUOUS` has done. -/
theorem memAllocate_mapped (ht : Tables L.toLawfulAllocator (under dir) k.state) (hsize : size ≠ 0)
    (hcontig : has flags memAllocContiguous = false) (hfree : has pageFlags memPageFree = false)
    (hno : has pageFlags memPageNoalloc = false)
    (hcall : memAllocate L.toRunAllocator k dir start size flags pageFlags = .ok (p, k₁))
    (hp : p ≠ 0) :
    p = k.base start flags ∧ k₁.locked = k.locked ∧
      (has flags memAllocHeap = true → k.locked = false) ∧
      k₁.heap = (if has flags memAllocHeap then k.heap + sizeActual p size else k.heap) ∧
      (∀ i ∈ regionPages p size, isCanonical i = true) ∧
      ∀ a n, Covers (regionPages p size) a n →
        ∃ fr, Mapped L.toLawfulAllocator dir k.state fr {i | i ∈ regionPages p size} k₁.state := by
  rcases memAllocate_cases hcall with ⟨-, -, hzero⟩ | ⟨-, contig, pmm, done, hran, -⟩
  · exact absurd (hzero hsize).1 hp
  obtain ⟨-, -, -, hsame⟩ := takeRun_spec ht hran.frames
  obtain rfl := hsame hcontig
  cases done with
  | false => exact absurd (hran.stopped rfl).1 hp
  | true =>
    obtain ⟨rfl, hlocked, hheap⟩ := hran.through rfl
    have hall := (meets_of_eq_ok (mapPages_grown (mapAt_sets hfree _ _) ht _) hran.loop).2.mp rfl
    have hcanon : ∀ i ∈ regionPages (k.base start flags) size, isCanonical i = true :=
      fun i hi => (hall i hi).1
    refine ⟨rfl, hlocked, hran.unlocked, hheap, hcanon, fun a n hcover => ?_⟩
    have hapart := hcover.apart hcanon
    have hpair := hcover.nodup.pairwise_of_forall_ne fun i hi j hj hne => hapart j hj i hi hne
    have hgrants : Grants flags (pageBits flags pageFlags) :=
      ⟨hcontig, (pageBits_has (by decide)).trans hno⟩
    have hmapped := meets_of_eq_ok (mapPages_mapped hgrants ((pageBits_has (by decide)).trans hfree)
      _ (Mapped.start (fun _ => 0) ht) hcanon hpair fun i _ j hj => absurd hj id) hran.loop
    obtain ⟨fr, hm⟩ := hmapped rfl
    rw [Set.empty_union] at hm
    exact ⟨fr, hm⟩

/-- `mem_free` inverts a successful `mem_allocate` of at least one page exactly if the region has as
many pages as its size alone and, for the heap, the size is one of whole pages. -/
theorem memFree_inverts_iff (ht : Tables L.toLawfulAllocator (under dir) k.state)
    (hrefs : ∀ f ∉ L.used k.state.pmm, k.state.refs f = 0) (hsize : size ≠ 0)
    (hflags : flags = memDefault ∨ flags = memAllocHeap)
    (hfree : has pageFlags memPageFree = false) (hno : has pageFlags memPageNoalloc = false)
    (hcall : memAllocate L.toRunAllocator k dir start size flags pageFlags = .ok (p, k₁))
    (hp : p ≠ 0) (hpages : regionPages (k.base start flags) size ≠ []) :
    (∃ k₂, memFree L.toAllocator k₁ dir p size flags = .ok k₂ ∧
      Inverted L dir flags (regionPages (k.base start flags) size) k k₂) ↔
    Agree (k.base start flags) size ∧ (flags = memAllocHeap → size.toNat % 4096 = 0) := by
  have hcontig : has flags memAllocContiguous = false := by
    rcases hflags with rfl | rfl <;> decide
  have hheapflag : has flags memAllocHeap = true ↔ flags = memAllocHeap := by
    rcases hflags with rfl | rfl <;> decide
  obtain ⟨rfl, hlocked, hunlocked, hheap, hcanon, hmapped⟩ :=
    memAllocate_mapped ht hsize hcontig hfree hno hcall hp
  generalize k.base start flags = p at *
  have hpcanon : isCanonical p = true := by
    obtain ⟨i, l, hcons⟩ := List.exists_cons_of_ne_nil hpages
    rw [← canonical_align, ← head_visited hcons]
    exact hcanon i (hcons ▸ List.mem_cons_self)
  rw [memFree_eq hpcanon hp hsize fun h => hlocked.trans (hunlocked h)]
  by_cases hends : endless (p &&& ~~~0xFFF#64) ((p &&& ~~~0xFFF#64) + size)
  · rw [if_pos hends]
    exact ⟨fun ⟨_, h, _⟩ => by contradiction, fun h =>
        absurd hends (ends_of_agree hsize hpages h.1)⟩
  rw [if_neg hends]
  obtain ⟨a, n, m, hle, ha, hfit, hregion, hfreed, hagree⟩ := pages_cover hsize hpages hends
  obtain ⟨fr, hm⟩ := hmapped a n hregion
  have hsub : ∀ i ∈ freedPages p size, i ∈ regionPages p size := by
    intro i hi
    rw [hfreed.mem] at hi
    rw [hregion.mem]
    omega
  obtain ⟨s', hloop, hm', hgone, -⟩ :=
    freeLoop_mapped hrefs _ hm hsub hfreed.nodup hcanon (hregion.apart hcanon)
  rw [hloop]
  constructor
  · rintro ⟨k₂, hk₂, hinv⟩
    obtain rfl := Except.ok.inj hk₂
    have heq : m = n := by
      by_contra hne
      have hlast : (BitVec.ofNat 64 (a + 4096 * m)).toNat = a + 4096 * m := by
        rw [BitVec.toNat_ofNat]
        omega
      have hmem : BitVec.ofNat 64 (a + 4096 * m) ∈
          {i | i ∈ regionPages p size} \ {i | i ∈ freedPages p size} := by
        change _ ∈ regionPages p size ∧ _ ∉ freedPages p size
        rw [hregion.mem, hfreed.mem, hlast]
        omega
      have hused := hm'.mem_used hmem
      rw [show L.used s'.pmm = _ from hinv.used] at hused
      rcases hused with hused | htable
      · exact hm'.fresh _ hmem hused
      · exact hm'.leaf _ hmem htable
    have hagree := hagree.mp heq
    refine ⟨hagree, fun hflag => (sizeActual_eq_iff hsize hpages hagree).mp ?_⟩
    have hflag := hheapflag.mpr hflag
    have hback := hinv.heap hflag
    simp only [hheap, hflag, if_true] at hback
    bv_omega
  · rintro ⟨hagree', hwhole⟩
    have heq := hagree.mpr hagree'
    have hsame : ∀ i ∈ regionPages p size, i ∈ freedPages p size := by
      intro i hi
      rw [hregion.mem] at hi
      rwa [hfreed.mem, heq]
    refine ⟨_, rfl, ⟨?_, ?_, ?_⟩⟩
    · have hnone : {i | i ∈ regionPages p size} \ {i | i ∈ freedPages p size} = ∅ :=
        Set.sdiff_eq_empty.mpr hsame
      have hused := hm'.used
      rwa [hnone, Set.image_empty, Set.union_empty] at hused
    · intro i hi e hpage
      obtain ⟨e', hpage', habs⟩ := hgone i (hsame i hi)
      obtain rfl := Option.some.inj (hpage'.symm.trans hpage)
      exact habs
    · intro hflag
      have hwhole := (sizeActual_eq_iff hsize hpages hagree').mpr (hwhole (hheapflag.mp hflag))
      simp only [hheap, hflag, if_true, hwhole]
      exact BitVec.add_sub_cancel _ _

private theorem page_allocated :
    (memAllocate pmmRuns.toRunAllocator emptyKernel 1 0x400000 0x1000 memDefault 0).map Prod.fst =
      .ok 0x400000 := by
  decide +kernel

/-- One page at 4 MiB. -/
theorem memFree_inverts_page :
    ∃ k₁ k₂, memAllocate pmmRuns.toRunAllocator emptyKernel 1 0x400000 0x1000 memDefault 0 =
        .ok (0x400000, k₁) ∧
      memFree pmmRuns.toAllocator k₁ 1 0x400000 0x1000 memDefault = .ok k₂ ∧
      Inverted pmmRuns 1 memDefault (regionPages 0x400000 0x1000) emptyKernel k₂ := by
  have hrun := page_allocated
  cases hcall : memAllocate pmmRuns.toRunAllocator emptyKernel 1 0x400000 0x1000 memDefault 0 with
  | error e => rw [hcall] at hrun; contradiction
  | ok res =>
    obtain ⟨p, k₁⟩ := res
    rw [hcall] at hrun
    obtain rfl : p = 0x400000 := Except.ok.inj hrun
    have hagree : Agree (emptyKernel.base 0x400000 memDefault) 0x1000 := by
      unfold Agree
      decide
    obtain ⟨k₂, hfree, hinv⟩ := (memFree_inverts_iff emptyDirectory_tables (fun _ _ => rfl)
      (by decide) (Or.inl rfl) (by decide) (by decide) hcall (by decide) (by decide +kernel)).mpr
        ⟨hagree, fun h => absurd h (by decide)⟩
    exact ⟨k₁, k₂, rfl, hfree, hinv⟩

private def roundTrip (start size flags page : Addr) : Except Stop (Addr × Addr × Option Bool) := do
  let (p, k) ← memAllocate pmmRuns.toRunAllocator emptyKernel 1 start size flags 0
  let k ← memFree pmmRuns.toAllocator k 1 p size flags
  return (p, k.heap, (pageAt k.state.phys 1 page).map Entry.present)

private theorem roundTrip_eq {start size flags page : Addr} {p heap : Addr} {b : Bool}
    (hrun : roundTrip start size flags page = .ok (p, heap, some b)) :
    ∃ k₁ k₂, memAllocate pmmRuns.toRunAllocator emptyKernel 1 start size flags 0 = .ok (p, k₁) ∧
      memFree pmmRuns.toAllocator k₁ 1 p size flags = .ok k₂ ∧ k₂.heap = heap ∧
      ∃ e, pageAt k₂.state.phys 1 page = some e ∧ e.present = b := by
  obtain ⟨⟨p', k₁⟩, halloc, hrun⟩ := bind_eq_ok hrun
  obtain ⟨k₂, hfree, hrun⟩ := bind_eq_ok hrun
  obtain ⟨rfl, hrest⟩ := Prod.mk.inj (Except.ok.inj hrun)
  obtain ⟨hheap, hpage⟩ := Prod.mk.inj hrest
  exact ⟨k₁, k₂, halloc, hfree, hheap, Option.map_eq_some_iff.mp hpage⟩

/-- A page from the middle of one on leaves the second of its pages mapped, and 16 bytes of heap
take a page of addresses and give back 16. -/
theorem memFree_leaves_page :
    Tables pmmRuns.toLawfulAllocator (under 1) emptyKernel.state ∧
      (∀ i, pageAt emptyKernel.state.phys 1 i = none) ∧
      (∃ k₁ k₂, memAllocate pmmRuns.toRunAllocator emptyKernel 1 0x400800 0x1000 memDefault 0 =
          .ok (0x400800, k₁) ∧
        memFree pmmRuns.toAllocator k₁ 1 0x400800 0x1000 memDefault = .ok k₂ ∧
        ¬ Inverted pmmRuns 1 memDefault (regionPages 0x400800 0x1000) emptyKernel k₂) ∧
      ∃ k₁ k₂, memAllocate pmmRuns.toRunAllocator emptyKernel 1 0 0x10 memAllocHeap 0 =
          .ok (0xFFFFFF0000000000, k₁) ∧
        memFree pmmRuns.toAllocator k₁ 1 0xFFFFFF0000000000 0x10 memAllocHeap = .ok k₂ ∧
        k₂.heap = 0xFFFFFF0000000FF0 ∧
        ¬ Inverted pmmRuns 1 memAllocHeap (regionPages 0xFFFFFF0000000000 0x10) emptyKernel k₂ := by
  refine ⟨emptyDirectory_tables, fun i => ?_, ?_, ?_⟩
  · have hzero : emptyKernel.state.phys 1 (pml4Index i) = Entry.zero := rfl
    rw [pageAt, entryAt, path, tableAt, walk_cons, hzero, kNext_zero]
    rfl
  · obtain ⟨k₁, k₂, halloc, hfree, -, e, hpage, hpres⟩ := roundTrip_eq
      (show roundTrip 0x400800 0x1000 memDefault 0x401000 =
        .ok (0x400800, 0xFFFFFF0000000000, some true) by decide +kernel)
    refine ⟨k₁, k₂, halloc, hfree, fun hinv => ?_⟩
    have habs := hinv.absent 0x401000 (by decide +kernel) e hpage
    exact absurd (habs.symm.trans hpres) (by decide)
  · obtain ⟨k₁, k₂, halloc, hfree, hheap, -⟩ := roundTrip_eq
      (show roundTrip 0 0x10 memAllocHeap 0xFFFFFF0000000000 =
        .ok (0xFFFFFF0000000000, 0xFFFFFF0000000FF0, some false) by decide +kernel)
    refine ⟨k₁, k₂, halloc, hfree, hheap, fun hinv => ?_⟩
    have hback := hinv.heap (by decide)
    rw [hheap] at hback
    exact absurd hback (by decide)

end RoundTrip

end ReduceOS.RegionFree
