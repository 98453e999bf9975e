import ReduceOS.CloneTasks

/-!
`mem_clone` over well-formed memory. Each page is shared, copied because it lies in
the stack region, or copied because its count is saturated; each table gets a fresh
twin. Every step keeps the invariant and what all address spaces show, and in the end
the new directory shows what the old one shows. An allocator that does the same for the
frames that are taken makes the same clone.
-/
namespace ReduceOS.Clone

open Machine Page Physical Paging AddressSpace Outcome TableTree PageMap Sharing SharedPages Views
  CloneTasks

variable {P : Type} {L : LawfulAllocator P} {Y : Layout} {D : Domain FrameNo (Fin 512)}
  {Z : Set Slot} {s s' : State P} {r g h : FrameNo} {p q : List (Fin 512)} {i j : Fin 512}
  {F : Set FrameNo} {A : Allocator P} {S : P → List Task → Prop} {tasks : List Task}
  {bad tol : Panic → Prop}

section Took

variable {f : FrameNo}

theorem fresh_of_took (hw : Formed L Y F D s) (ht : Took L s f s') :
    f ∉ Y.reserved ∧ ¬ IsTable D kNext s.phys f ∧ ¬ Held (holding D s.phys) f ∧ s.refs f = 0 := by
  have hfresh := ht.fresh
  rw [hw.used, not_or, not_or] at hfresh
  refine ⟨hfresh.1, hfresh.2.1, hfresh.2.2, ?_⟩
  by_contra hrefs
  have hne : (s.refs f).toNat ≠ 0 := fun hz => hrefs (BitVec.eq_of_toNat_eq hz)
  have hcard := hw.exact.count f (fun hU => hfresh.1 (Y.uncounted_reserved hU)) hne
  have hempty : holders (holding D s.phys) f = ∅ := by
    ext x
    simp only [mem_holders, Set.mem_empty_iff_false, iff_false]
    rintro ⟨w, hx⟩
    exact hfresh.2.2 ⟨x, w, hx⟩
  rw [hempty, Set.ncard_empty] at hcard
  exact hne hcard.symm

end Took

/-- A copy of the page at `pg`, in a frame of its own. -/
theorem copyFrame_runs (hS : Supplied L A S F bad tol) (hv : L.valid s.pmm) (pg : Slot)
    (hlow : (State.entry s pg).address ∈ F ∨ (State.entry s pg).address.toNat < 2 ^ 19)
    {address : Addr} (hs : S s.pmm (.page address (State.entry s pg).address :: tasks)) :
    Runs bad tol (copyFrame A s pg) (copyFrame L.toAllocator s pg) fun res =>
      ∃ f s₁, res.1 = frameAddr f ∧ Took L s f s₁ ∧
        res.2 = s₁.setFrame f (s.phys (State.entry s pg).address) ∧ S s₁.pmm tasks := by
  unfold copyFrame
  refine runs_bind (hS.allocate s _ _ hv hs) ?_
  rintro ⟨block, f, s₁⟩ ⟨hblock, htook, hnext⟩
  obtain rfl : block = frameAddr f := hblock
  have hentry : State.entry s₁ pg = State.entry s pg := by
    unfold State.entry
    rw [htook.phys]
  rcases hnext with ⟨hs₁, hnear⟩ | ⟨_, _, heq, hbad, hunmapped⟩
  · have hlow := hlow.resolve_left (hnear _ _ rfl)
    apply runs_refl
    change Meets tol (physFrame (memRemapPhys (getFrame (State.entry s₁ pg))) >>= _) _
    rw [hentry, getFrame_of_lt _ hlow, physFrame_memRemapPhys _ (by omega)]
    refine ⟨f, s₁, rfl, htook, ?_, hs₁⟩
    change s₁.setFrame f (s₁.phys _) = _
    rw [htook.phys]
  · obtain ⟨-, rfl⟩ := Task.page.inj heq
    refine Or.inl ⟨_, hbad, ?_⟩
    change physFrame (memRemapPhys (getFrame (State.entry s₁ pg))) >>= _ = _
    rw [hentry, hunmapped _ rfl]
    rfl

theorem copyFrame_spec (hv : L.valid s.pmm) (pg : Slot)
    (hlow : (State.entry s pg).address.toNat < 2 ^ 19) :
    Meets Oom (copyFrame L.toAllocator s pg) fun res =>
      ∃ f s₁, res.1 = frameAddr f ∧ Took L s f s₁ ∧
        res.2 = s₁.setFrame f (s.phys (State.entry s pg).address) := by
  have hcopy := @copyFrame_runs P L s ∅ _ _ [] _ _ (supplied_self L) hv pg (Or.inr hlow) 0 trivial
  refine meets_mono (hcopy.resolve_left fun hbad => hbad.choose_spec.1).2 ?_
  rintro res ⟨f, s₁, hblock, htook, hres, -⟩
  exact ⟨f, s₁, hblock, htook, hres⟩

section Page

theorem setEntry_phys_slot_ne (s : State P) (e : Entry) {x : Slot} (hx : x ≠ (g, j)) :
    (s.setEntry g j e).phys x.1 x.2 = s.phys x.1 x.2 := by
  by_cases hg : x.1 = g
  · apply State.setEntry_phys_index_ne
    intro hj
    exact hx (Prod.ext hg hj)
  · rw [State.setEntry_phys_frame_ne _ _ _ hg]

variable {e : Entry} {f : FrameNo}

/-- Setting one page entry, as the lemmas of `EntryChange` read it. -/
theorem change_of_setEntry (s' : State P) (hw : Formed L Y F D s) (hp : D.carrier r (p ++ [j]))
    (hg : tableAt kNext s.phys r p = some g) (hphys : s'.phys = (s.setEntry g j e).phys) :
    EntryChange D kNext s.phys s'.phys r p g j := by
  refine ⟨hw.tree, D.closed r p [j] hp, hg, ?_⟩
  intro g' k _ hoff
  rw [hphys]
  rcases hoff with hoff | hoff
  · rw [State.setEntry_phys_frame_ne _ _ _ hoff]
  · rw [State.setEntry_phys_index_ne _ _ _ _ hoff]

/-- Tables are not mapped, so writing an entry of one leaves the rest. -/
theorem frames_of_setEntry (hw : Formed L Y F D s) (hZ : Pins Y D Z) (hp : D.carrier r (p ++ [j]))
    (hg : tableAt kNext s.phys r p = some g) (hphys : s'.phys = (s.setEntry g j e).phys) :
    (∀ f, Held (holding D s.phys) f → s'.phys f = s.phys f) ∧
      ∀ x ∈ Z, s'.phys x.1 x.2 = s.phys x.1 x.2 := by
  constructor
  · intro f hf
    rw [hphys, State.setEntry_phys_frame_ne]
    rintro rfl
    exact hw.not_table_of_held hf ⟨r, p, D.closed r p [j] hp, hg⟩
  · intro x hx
    rw [hphys, setEntry_phys_slot_ne _ _ (hZ.ne_entry hw hx hp hg)]

/-- Mapping a fresh private copy of `data` at a page. -/
theorem install (s' : State P) (data : Frame) (hw : Formed L Y F D s) (hZ : Pins Y D Z)
    (hlen : p.length = 3) (hp : D.carrier r (p ++ [j]))
    (hg : tableAt kNext s.phys r p = some g) {s₁ : State P} (htook : Took L s f s₁)
    (hcontent : content e = some (f, true))
    (hphys : s'.phys = ((s.setFrame f data).setEntry g j e).phys) (hpmm : s'.pmm = s₁.pmm)
    (hexact : Exact Y.uncounted
      (Function.update (holding D s.phys) (g, j) (some (f, true))) fun f => (s'.refs f).toNat)
    (hheld : ∀ f', Held (Function.update (holding D s.phys) (g, j) (some (f, true))) f' ↔
      f' = f ∨ Held (holding D s.phys) f') :
    Formed L Y F D s' ∧ Keep Z (D.without r (p ++ [j])) s.phys s'.phys ∧
      view s'.phys r (p ++ [j]) = some data := by
  obtain ⟨hres, htable, hnot, -⟩ := fresh_of_took hw htook
  have hgt : IsTable D kNext s.phys g := ⟨r, p, D.closed r p [j] hp, hg⟩
  have hgf : g ≠ f := fun heq => htable (heq ▸ hgt)
  have hother : ∀ f', f' ≠ f → f' ≠ g → s'.phys f' = s.phys f' := by
    intro f' hf hg'
    rw [hphys, State.setEntry_phys_frame_ne _ _ _ hg', State.setFrame_phys_ne _ _ hf]
  have c : EntryChange D kNext s.phys s'.phys r p g j := by
    refine ⟨hw.tree, D.closed r p [j] hp, hg, ?_⟩
    intro g' k hg' hoff
    have hg'f : g' ≠ f := fun heq => htable (heq ▸ hg')
    rw [hphys]
    rcases hoff with hoff | hoff
    · rw [State.setEntry_phys_frame_ne _ _ _ hoff, State.setFrame_phys_ne _ _ hg'f]
    · rw [State.setEntry_phys_index_ne _ _ _ _ hoff, State.setFrame_phys_ne _ _ hg'f]
  have hself : s'.phys g j = e := by rw [hphys, State.setEntry_phys_self]
  obtain ⟨-, -, -, hrw⟩ := content_eq_some.mp hcontent
  refine ⟨?_, ?_, ?_⟩
  · apply hw.leaf c hlen hp (by rw [hpmm]; exact htook.valid)
    · intro _ _ hro
      rw [hself, hrw] at hro
      contradiction
    · intro _ hker
      rw [hself, (content_eq_some.mp hcontent).2.1] at hker
      contradiction
    · rwa [hself, hcontent]
    · intro f'
      rw [hself, hcontent, hheld, hpmm, htook.used, Set.mem_insert_iff, hw.used]
      tauto
    · intro f' hf'
      rw [hself, hcontent, hheld] at hf'
      rcases hf' with rfl | hf'
      · exact ⟨Or.inr htook.low, hres, htable⟩
      · exact ⟨(hw.held f' hf').1, (hw.held f' hf').2, hw.not_table_of_held hf'⟩
  · apply Keep.of_change c
    · intro f' hf'
      apply hother f'
      · rintro rfl
        exact hnot hf'
      · rintro rfl
        exact hw.not_table_of_held hf' hgt
    · intro x hx
      rw [hphys, setEntry_phys_slot_ne _ _ (hZ.ne_entry hw hx hp hg),
        State.setFrame_phys_ne _ _ (hZ.ne_fresh hw hx htook.fresh)]
  · rw [view_of_table c.self, hself, hcontent]
    change some (s'.phys f) = some data
    rw [hphys, State.setEntry_phys_frame_ne _ _ _ hgf.symm, State.setFrame_phys_self]

end Page

instance : Finite Slot :=
  Finite.of_injective (fun x : Slot => (x.1.toFin, x.2)) fun x y hxy => by
    have := Prod.ext_iff.mp hxy
    exact Prod.ext (BitVec.eq_of_toFin_eq this.1) this.2

structure PageAt (D : Domain FrameNo (Fin 512)) (mem : FrameNo → Frame) (r : FrameNo)
    (p : List (Fin 512)) (j : Fin 512) (g : FrameNo) : Prop where
  carrier : D.carrier r (p ++ [j])
  length : p.length = 3
  table : tableAt kNext mem r p = some g

namespace PageAt

variable {mem : FrameNo → Frame}

theorem slot (h : PageAt D mem r p j g) : PageSlot D mem (g, j) :=
  ⟨r, p, h.carrier, h.length, h.table⟩

theorem isTable (h : PageAt D mem r p j g) : IsTable D kNext mem g := h.slot.isTable

theorem holding_eq (h : PageAt D mem r p j g) : holding D mem (g, j) = content (mem g j) :=
  holding_of_pageSlot h.slot

end PageAt

section Steps

variable {f : FrameNo} {w : Bool} {r' : FrameNo} {p' : List (Fin 512)} {j' : Fin 512}

theorem copyPage_runs (hS : Supplied L A S F bad tol) (hw : Formed L Y F D s) (hZ : Pins Y D Z)
    (hsrc : PageAt D s.phys r p j g) (hcontent : content (s.phys g j) = some (f, w))
    (hdest : PageAt D s.phys r' p' j' h) (hempty : content (s.phys h j') = none)
    {address : Addr} (hs : S s.pmm (.page address f :: tasks)) :
    Runs bad tol (copyPage A s (g, j) (h, j')) (copyPage L.toAllocator s (g, j) (h, j')) fun s' =>
      (Formed L Y F D s' ∧ Keep Z (D.without r' (p' ++ [j'])) s.phys s'.phys ∧
        view s'.phys r' (p' ++ [j']) = some (s.phys f)) ∧ S s'.pmm tasks ∧ s'.refs = s.refs := by
  obtain ⟨hpres, huser, rfl, -⟩ := content_eq_some.mp hcontent
  have hheld : Held (holding D s.phys) (s.phys g j).address :=
    ⟨(g, j), w, by rw [hsrc.holding_eq, hcontent]⟩
  unfold copyPage
  refine runs_bind (copyFrame_runs hS hw.valid (g, j) (hw.held _ hheld).1 hs) ?_
  rintro ⟨block, s₂⟩ ⟨f', s₁, hblock, htook, hs₂, hs₁⟩
  obtain rfl : block = frameAddr f' := hblock
  obtain rfl : s₂ = s₁.setFrame f' (s.phys (s.phys g j).address) := hs₂
  obtain ⟨hres, htable, hnot, hzero⟩ := fresh_of_took hw htook
  have hgf : g ≠ f' := fun heq => htable (heq ▸ hsrc.isTable)
  have hentry : State.entry (s₁.setFrame f' (s.phys (s.phys g j).address)) (g, j) = s.phys g j := by
    unfold State.entry
    rw [State.setFrame_phys_ne _ _ hgf, htook.phys]
  have hslot : holding D s.phys (h, j') = none := by rw [hdest.holding_eq, hempty]
  apply runs_refl
  simp only [hentry, setFrame_frameAddr]
  refine ⟨?_, hs₁, htook.refs⟩
  refine install _ _ hw hZ hdest.length hdest.carrier hdest.table htook
    (e := { s.phys g j with address := f', cow := false, rw := true }) ?_ ?_ rfl ?_ ?_
  · exact content_eq_some.mpr ⟨hpres, huser, rfl, rfl⟩
  · simp only [State.setSlot, State.setEntry, State.setFrame, htook.phys]
  · simp only [State.setSlot, State.setEntry_refs, State.setFrame_refs, htook.refs]
    refine hw.exact.put hslot ?_ (by simp [hzero]) fun hU => hres (Y.uncounted_reserved hU)
    intro y w' hy
    exact hnot ⟨y, w', hy⟩
  · intro f''
    exact held_put hslot

/-- Setting a page entry while the same frames stay mapped. -/
theorem setPage (s' : State P) (hw : Formed L Y F D s) (hZ : Pins Y D Z)
    (hx : PageAt D s.phys r p j g) {e : Entry}
    (hphys : s'.phys = (s.setEntry g j e).phys) (hpmm : s'.pmm = s.pmm)
    (hpending : e.present = true → e.usermode = true → e.rw = false → e.cow = true)
    (hkernel : e.present = true → e.usermode = false → e.address ∈ Y.kernel)
    (hexact : Exact Y.uncounted (Function.update (holding D s.phys) (g, j) (content e))
      fun f => (s'.refs f).toNat)
    (hheld : ∀ f', Held (Function.update (holding D s.phys) (g, j) (content e)) f' ↔
      Held (holding D s.phys) f') :
    Formed L Y F D s' ∧ Keep Z (D.without r (p ++ [j])) s.phys s'.phys ∧
      (SameMapping (s.phys g j) e → Keep Z D s.phys s'.phys) := by
  have c := change_of_setEntry s' hw hx.carrier hx.table hphys
  have hself : s'.phys g j = e := by rw [hphys, State.setEntry_phys_self]
  obtain ⟨hframes, hreserved⟩ := frames_of_setEntry hw hZ hx.carrier hx.table hphys
  refine ⟨?_, Keep.of_change c hframes hreserved,
    fun hsame => Keep.of_permission c (by rwa [hself]) hframes hreserved⟩
  apply hw.leaf c hx.length hx.carrier (by rw [hpmm]; exact hw.valid)
  · rwa [hself]
  · rwa [hself]
  · rwa [hself]
  · intro f'
    rw [hself, hheld, hpmm]
    exact hw.used f'
  · intro f' hf'
    rw [hself, hheld] at hf'
    exact ⟨(hw.held f' hf').1, (hw.held f' hf').2, hw.not_table_of_held hf'⟩

theorem toNat_setRefs (s : State P) (f : FrameNo) (n : BitVec 8) :
    (fun f' => ((s.setRefs f n).refs f').toNat) =
      Function.update (fun f' => (s.refs f').toNat) f n.toNat := by
  funext f'
  by_cases hf : f' = f
  · subst hf
    simp [State.setRefs]
  · simp [State.setRefs, hf]

/-- A writable page becomes read-only, its frame counted once. -/
theorem demote_page (hw : Formed L Y F D s) (hZ : Pins Y D Z) (hx : PageAt D s.phys r p j g)
    (hcontent : content (s.phys g j) = some (f, true)) :
    let s' := (s.setRefs f 1).setEntry g j { s.phys g j with rw := false, cow := true }
    Formed L Y F D s' ∧ Keep Z D s.phys s'.phys := by
  obtain ⟨hpres, huser, rfl, -⟩ := content_eq_some.mp hcontent
  have hold : holding D s.phys (g, j) = some ((s.phys g j).address, true) := by
    rw [hx.holding_eq, hcontent]
  have hnew : content { s.phys g j with rw := false, cow := true } =
      some ((s.phys g j).address, false) := content_eq_some.mpr ⟨hpres, huser, rfl, rfl⟩
  obtain ⟨hw', -, hkeep⟩ := setPage
    ((s.setRefs (s.phys g j).address 1).setEntry g j { s.phys g j with rw := false, cow := true })
    hw hZ hx rfl rfl
    (fun _ _ _ => rfl) (fun _ hker => absurd (huser.symm.trans hker) (by simp))
    (by
      rw [hnew, State.setEntry_refs, toNat_setRefs]
      exact hw.exact.demote hold)
    (fun f' => by rw [hnew, held_reput hold])
  exact ⟨hw', hkeep rfl⟩

theorem addRef_page (hw : Formed L Y F D s) (hZ : Pins Y D Z) (hx : PageAt D s.phys r p j g)
    (hcontent : content (s.phys g j) = some (f, false)) (hdest : PageAt D s.phys r' p' j' h)
    (hempty : content (s.phys h j') = none) {n : BitVec 8} (hn : n.toNat = (s.refs f).toNat + 1) :
    let s' := (s.setRefs f n).setEntry h j' (s.phys g j)
    Formed L Y F D s' ∧ Keep Z (D.without r' (p' ++ [j'])) s.phys s'.phys ∧
      view s'.phys r' (p' ++ [j']) = some (s.phys f) := by
  obtain ⟨hpres, huser, rfl, hro⟩ := content_eq_some.mp hcontent
  have hold : holding D s.phys (g, j) = some ((s.phys g j).address, false) := by
    rw [hx.holding_eq, hcontent]
  have hslot : holding D s.phys (h, j') = none := by rw [hdest.holding_eq, hempty]
  obtain ⟨hw', hkeep, -⟩ := setPage
    ((s.setRefs (s.phys g j).address n).setEntry h j' (s.phys g j)) hw hZ hdest rfl rfl
    (hw.pending (g, j) hx.slot) (fun _ hker => absurd (huser.symm.trans hker) (by simp))
    (by
      rw [hcontent, State.setEntry_refs, toNat_setRefs, hn]
      exact hw.exact.addRef hold hslot)
    (fun f' => by
      rw [hcontent, held_put hslot]
      exact or_iff_right_of_imp fun heq => ⟨(g, j), false, heq ▸ hold⟩)
  refine ⟨hw', hkeep, ?_⟩
  have c := change_of_setEntry ((s.setRefs (s.phys g j).address n).setEntry h j'
    (s.phys g j)) hw hdest.carrier hdest.table rfl
  have hself : ((s.setRefs (s.phys g j).address n).setEntry h j' (s.phys g j)).phys h j' =
      s.phys g j := State.setEntry_phys_self _ _ _ _
  rw [view_of_table c.self, hself, hcontent]
  have hheld : Held (holding D s.phys) (s.phys g j).address := ⟨(g, j), false, hold⟩
  exact congrArg some ((frames_of_setEntry hw hZ hdest.carrier hdest.table rfl).1 _ hheld)

/-- Keeping the entries keeps page positions in place. -/
theorem PageAt.keep {mem mem' : FrameNo → Frame}
    (hx : PageAt D mem r p j g) (hk : Keep Z D mem mem') : PageAt D mem' r p j g :=
  ⟨hx.carrier, hx.length, by rw [hk.tableAt (D.closed r p [j] hx.carrier), hx.table]⟩

/-- A writable page and an empty one come to share the frame. -/
theorem share_page (hw : Formed L Y F D s) (hZ : Pins Y D Z) (hx : PageAt D s.phys r p j g)
    (hcontent : content (s.phys g j) = some (f, true)) (hdest : PageAt D s.phys r' p' j' h)
    (hempty : content (s.phys h j') = none) (hne : (h, j') ≠ (g, j)) :
    let e := { s.phys g j with rw := false, cow := true }
    let s' := ((s.setRefs f 2).setEntry g j e).setEntry h j' e
    Formed L Y F D s' ∧ Keep Z (D.without r' (p' ++ [j'])) s.phys s'.phys ∧
      view s'.phys r' (p' ++ [j']) = some (s.phys f) := by
  intro e s'
  obtain ⟨hpres, huser, rfl, -⟩ := content_eq_some.mp hcontent
  obtain ⟨hw₁, hkeep₁⟩ := demote_page hw hZ hx hcontent
  let s₁ := (s.setRefs (s.phys g j).address 1).setEntry g j e
  have hself : s₁.phys g j = e := State.setEntry_phys_self _ _ _ _
  have hdest₁ : s₁.phys h j' = s.phys h j' := by
    by_cases hhg : h = g
    · apply State.setEntry_phys_index_ne
      rintro rfl
      exact hne (Prod.ext hhg rfl)
    · exact congrFun (State.setEntry_phys_frame_ne _ _ _ hhg) j'
  have hcontent₁ : content (s₁.phys g j) = some ((s.phys g j).address, false) := by
    rw [hself]
    exact content_eq_some.mpr ⟨hpres, huser, rfl, rfl⟩
  have hrefs₁ : s₁.refs (s.phys g j).address = 1 := by
    simp [s₁, State.setRefs]
  obtain ⟨hw₂, hkeep₂, hview⟩ := addRef_page hw₁ hZ (hx.keep hkeep₁) hcontent₁ (hdest.keep hkeep₁)
    (by rw [hdest₁, hempty]) (n := 2) (by rw [hrefs₁]; rfl)
  have hs' : (s₁.setRefs (s.phys g j).address 2).setEntry h j' (s₁.phys g j) = s' := by
    rw [hself]
    simp [s', s₁, State.setEntry, State.setRefs]
  rw [hs'] at hw₂ hkeep₂ hview
  refine ⟨hw₂, (hkeep₁.mono (without_le D _ _)).trans hkeep₂, ?_⟩
  rw [hview]
  exact congrArg some (hkeep₁.frames _ ⟨(g, j), true, by rw [hx.holding_eq, hcontent]⟩)

theorem raw_copy (hw : Formed L Y F D s) (hZ : Pins Y D Z) (hx : PageAt D s.phys r p j g)
    (hpres : (s.phys g j).present = true) (hker : (s.phys g j).usermode = false)
    (hdest : PageAt D s.phys r' p' j' h) (hempty : content (s.phys h j') = none) :
    let s' := s.setEntry h j' (s.phys g j)
    Formed L Y F D s' ∧ Keep Z (D.without r' (p' ++ [j'])) s.phys s'.phys ∧
      view s'.phys r' (p' ++ [j']) = none := by
  have hnone : content (s.phys g j) = none := by simp [content, hker]
  have hslot : holding D s.phys (h, j') = none := by rw [hdest.holding_eq, hempty]
  have hsame : Function.update (holding D s.phys) (h, j') (content (s.phys g j)) =
      holding D s.phys := by
    rw [hnone, ← hslot, Function.update_eq_self]
  obtain ⟨hw', hkeep, -⟩ := setPage (s.setEntry h j' (s.phys g j)) hw hZ hdest rfl rfl
    (fun _ huser => absurd (hker.symm.trans huser) (by simp))
    (fun _ _ => hw.kernel (g, j) hx.slot hpres hker)
    (by rw [hsame]; exact hw.exact) (fun f' => by rw [hsame])
  refine ⟨hw', hkeep, ?_⟩
  have c := change_of_setEntry (s.setEntry h j' (s.phys g j)) hw hdest.carrier hdest.table rfl
  rw [view_of_table c.self, State.setEntry_phys_self, hnone]
  rfl

/-- `mem_copyUserPage` gives the destination the contents of the source, whichever way
it goes. -/
theorem memCopyUserPage_runs (hS : Supplied L A S F bad tol) (hw : Formed L Y F D s)
    (hZ : Pins Y D Z) (hx : PageAt D s.phys r p j g) (hcontent : content (s.phys g j) = some (f, w))
    (hdest : PageAt D s.phys r' p' j' h) (hempty : content (s.phys h j') = none)
    (hne : (h, j') ≠ (g, j)) {address : Addr} (ha : Ahead S (.page address f :: tasks) s) :
    Runs bad tol (memCopyUserPage A s (g, j) (h, j') (decide (usermodeStackRegion ≤ address)))
      (memCopyUserPage L.toAllocator s (g, j) (h, j') (decide (usermodeStackRegion ≤ address)))
      fun s' => (Formed L Y F D s' ∧ Keep Z (D.without r' (p' ++ [j'])) s.phys s'.phys ∧
        view s'.phys r' (p' ++ [j']) = some (s.phys f)) ∧ Ahead S tasks s' := by
  obtain ⟨hpres, huser, rfl, rfl⟩ := content_eq_some.mp hcontent
  have hold : holding D s.phys (g, j) = some ((s.phys g j).address, (s.phys g j).rw) := by
    rw [hx.holding_eq, hcontent]
  have hcopy : usermodeStackRegion ≤ address ∨ s.refs (s.phys g j).address = 255 →
      Runs bad tol (copyPage A s (g, j) (h, j')) (copyPage L.toAllocator s (g, j) (h, j')) fun s' =>
        (Formed L Y F D s' ∧ Keep Z (D.without r' (p' ++ [j'])) s.phys s'.phys ∧
          view s'.phys r' (p' ++ [j']) = some (s.phys (s.phys g j).address)) ∧
            Ahead S tasks s' := by
    intro hcopied
    refine runs_mono (copyPage_runs hS hw hZ hx hcontent hdest hempty (ha.copied hcopied)) ?_
    rintro s' ⟨hspec, hs', hrefs⟩
    refine ⟨hspec, ?_⟩
    rwa [Ahead, hrefs]
  unfold memCopyUserPage
  by_cases hforce : usermodeStackRegion ≤ address
  · simp only [hforce, decide_true, if_true]
    exact hcopy (Or.inl hforce)
  simp only [hforce, decide_false, Bool.false_eq_true, if_false]
  cases hrw : (s.phys g j).rw with
  | true =>
    rw [hrw] at hold hcontent
    have hzero : s.refs (s.phys g j).address = 0 :=
      BitVec.eq_of_toNat_eq (hw.exact.exclusive _ _ hold).1
    have hshare := share_page hw hZ hx hcontent hdest hempty hne
    simp only [State.entry, hrw, hzero, ne_eq, not_true_eq_false, if_true, if_false]
    apply runs_refl
    simp only [State.setSlot, State.setEntry_phys_self, State.setRefs_phys, meets_ok]
    refine ⟨hshare, ha.shared (not_or.mpr ⟨hforce, ?_⟩) rfl ?_⟩
    · rw [hzero]
      decide
    · rw [if_pos hzero]
      rfl
  | false =>
    rw [hrw] at hcontent hold
    have hread : (State.entry s (g, j)).rw = false := hrw
    simp only [hread, Bool.false_eq_true, if_false]
    by_cases hmax : s.refs (s.phys g j).address = 255
    · simp only [memIncrementPageReference_max s (g, j) hpres hmax, if_true]
      exact hcopy (Or.inr hmax)
    · have hsucc : (s.refs (s.phys g j).address + 1).toNat =
          (s.refs (s.phys g j).address).toNat + 1 := by bv_omega
      have hne0 : s.refs (s.phys g j).address + 1 ≠ 0 := by
        intro hz
        rw [hz] at hsucc
        simp at hsucc
      have hold0 : s.refs (s.phys g j).address ≠ 0 := fun hz =>
        hw.exact.shared _ _ hold (by rw [hz]; rfl)
      simp only [memIncrementPageReference_succ s (g, j) hpres hmax, State.entry, hne0, if_false]
      apply runs_refl
      rw [meets_ok]
      refine ⟨addRef_page hw hZ hx hcontent hdest hempty hsucc,
        ha.shared (not_or.mpr ⟨hforce, hmax⟩) rfl ?_⟩
      rw [if_neg hold0]
      rfl

end Steps

section Loop

variable {src dst : FrameNo}

/-- What one run of a loop body of `mem_clone` achieves at entry `i` of the tables at
`p`: the new directory shows there what the old one shows. -/
structure Copied (L : LawfulAllocator P) (Y : Layout) (F : Set FrameNo) (Z : Set Slot)
    (D : Domain FrameNo (Fin 512)) (src dst : FrameNo) (p : List (Fin 512))
    (s s' : State P) : Prop where
  wf : Formed L Y F D s'
  keep : Keep Z (D.without dst p) s.phys s'.phys
  views : ∀ q, D.carrier dst q → q.length = 4 → p <+: q →
    view s'.phys dst q = view s.phys src q

structure Twins (D : Domain FrameNo (Fin 512)) (mem : FrameNo → Frame) (src dst : FrameNo)
    (p : List (Fin 512)) (g h : FrameNo) : Prop where
  ne : src ≠ dst
  same : ∀ q, D.carrier src q ↔ D.carrier dst q
  source : tableAt kNext mem src p = some g
  dest : tableAt kNext mem dst p = some h

theorem Twins.full {mem : FrameNo → Frame} (ht : Twins D mem src dst p g h) (hfull : Full D dst) :
    Full D src := fun q i hq hne hlen =>
  (ht.same _).mpr (hfull q i ((ht.same q).mp hq) hne hlen)

theorem clonePage_runs (hS : Supplied L A S F bad tol) (hw : Formed L Y F D s) (hZ : Pins Y D Z)
    (htwins : Twins D s.phys src dst p g h) (hlen : p.length = 3) (hp : D.carrier dst (p ++ [i]))
    (hblank : (s.phys h i).present = false) {address : Addr}
    (ha : Ahead S (entryTasks s.phys 0 address (g, i) ++ tasks) s) :
    Runs bad tol (clonePage A address s (g, i) (h, i))
      (clonePage L.toAllocator address s (g, i) (h, i)) fun s' =>
        Copied L Y F Z D src dst (p ++ [i]) s s' ∧ Ahead S tasks s' := by
  have hx : PageAt D s.phys src p i g := ⟨(htwins.same _).mpr hp, hlen, htwins.source⟩
  have hdest : PageAt D s.phys dst p i h := ⟨hp, hlen, htwins.dest⟩
  have hempty := content_of_absent hblank
  have hne : (h, i) ≠ (g, i) := by
    intro heq
    obtain rfl : h = g := congrArg Prod.fst heq
    exact htwins.ne (hw.tree src p dst p h (D.closed src p [i] hx.carrier)
      (D.closed dst p [i] hp) htwins.source htwins.dest).1
  have hviews : ∀ s' : State P, view s'.phys dst (p ++ [i]) = view s.phys src (p ++ [i]) →
      ∀ q, D.carrier dst q → q.length = 4 → p ++ [i] <+: q →
        view s'.phys dst q = view s.phys src q := by
    intro s' hv q _ hq hpre
    obtain rfl := hpre.eq_of_length (by simp [hlen, hq])
    exact hv
  unfold clonePage
  cases hpres : (s.phys g i).present with
  | false =>
    have habsent : (!(State.entry s (g, i)).present) = true := by simp [State.entry, hpres]
    rw [if_pos habsent, if_pos habsent]
    rw [entryTasks_of_absent address hpres, List.nil_append] at ha
    refine runs_refl ⟨⟨hw, Keep.refl _ _ _, hviews s ?_⟩, ha⟩
    have hnone := content_of_absent hpres
    rw [view_of_table htwins.dest, view_of_table htwins.source, hempty, hnone]
  | true =>
    have hpresent : ¬ (!(State.entry s (g, i)).present) = true := by simp [State.entry, hpres]
    rw [if_neg hpresent, if_neg hpresent]
    cases huser : (s.phys g i).usermode with
    | true =>
      have hcontent : content (s.phys g i) = some ((s.phys g i).address, (s.phys g i).rw) :=
        content_eq_some.mpr ⟨hpres, huser, rfl, rfl⟩
      rw [entryTasks, if_pos (by rw [hpres, huser]; rfl), List.singleton_append] at ha
      rw [if_pos (show (State.entry s (g, i)).usermode = true from huser),
        if_pos (show (State.entry s (g, i)).usermode = true from huser)]
      refine runs_mono (memCopyUserPage_runs hS hw hZ hx hcontent hdest hempty hne ha) ?_
      rintro s' ⟨⟨hw', hkeep, hview⟩, ha'⟩
      refine ⟨⟨hw', hkeep, hviews s' ?_⟩, ha'⟩
      rw [hview, view_of_table htwins.source, hcontent]
      rfl
    | false =>
      have hcontent : content (s.phys g i) = none := by simp [content, huser]
      have hkernel : ¬ (State.entry s (g, i)).usermode = true := by simp [State.entry, huser]
      rw [entryTasks, if_neg (by rw [huser, Bool.and_false]; decide), List.nil_append] at ha
      rw [if_neg hkernel, if_neg hkernel]
      obtain ⟨hw', hkeep, hview⟩ := raw_copy hw hZ hx hpres huser hdest hempty
      refine runs_refl ⟨⟨hw', hkeep, hviews _ ?_⟩, ha⟩
      rw [show State.setSlot s (h, i) (State.entry s (g, i)) = s.setEntry h i (s.phys g i) from rfl,
        hview, view_of_table htwins.source, hcontent]
      rfl

/-- What the loop over a table of `mem_clone` achieves. -/
structure Cloned (L : LawfulAllocator P) (Y : Layout) (F : Set FrameNo) (Z : Set Slot)
    (D : Domain FrameNo (Fin 512)) (src dst : FrameNo) (p : List (Fin 512))
    (s s' : State P) : Prop where
  wf : Formed L Y F D s'
  keep : Keep Z (D.below dst p) s.phys s'.phys
  views : ∀ q, D.carrier dst q → q.length = 4 → p <+: q →
    view s'.phys dst q = view s.phys src q

theorem without_le_below (D : Domain FrameNo (Fin 512)) (r : FrameNo) (p : List (Fin 512)) :
    ∀ r' q, (D.without r p).carrier r' q → (D.below r p).carrier r' q :=
  fun _ _ h => ⟨h.1, fun i hbad => h.2 ⟨hbad.1, (List.prefix_append p [i]).trans hbad.2⟩⟩

/-- A fresh table under a raw copy of the source entry. -/
theorem link_twin (hw : Formed L Y F D s) (hZ : Pins Y D Z) (htwins : Twins D s.phys src dst p g h)
    (hlen : p.length < 3) (hp : D.carrier dst (p ++ [i])) (hblank : (s.phys h i).present = false)
    (hpres : (s.phys g i).present = true) {f : FrameNo} {s₁ : State P} (htook : Took L s f s₁) :
    let s' := (s₁.setFrame f zeroFrame).setEntry h i { s.phys g i with address := f }
    Formed L Y F D s' ∧ Keep Z (D.without dst (p ++ [i])) s.phys s'.phys ∧
      Twins D s'.phys src dst (p ++ [i]) (s.phys g i).address f ∧
      s'.phys g i = s.phys g i ∧ ∀ k, s'.phys f k = Entry.zero := by
  intro s'
  obtain ⟨hres, htable, hnot, -⟩ := fresh_of_took hw htook
  have hsp : D.carrier src (p ++ [i]) := (htwins.same _).mpr hp
  have hgt : IsTable D kNext s.phys g := ⟨src, p, D.closed src p [i] hsp, htwins.source⟩
  have hht : IsTable D kNext s.phys h := ⟨dst, p, D.closed dst p [i] hp, htwins.dest⟩
  have hgh : g ≠ h := by
    rintro rfl
    exact htwins.ne (hw.tree src p dst p g (D.closed src p [i] hsp) (D.closed dst p [i] hp)
      htwins.source htwins.dest).1
  have hhf : h ≠ f := fun heq => htable (heq ▸ hht)
  have hgf : g ≠ f := fun heq => htable (heq ▸ hgt)
  have hsource := hw.linked src p i g hsp hlen htwins.source hpres
  have hnext : kNext p.length { s.phys g i with address := f } = some f := by
    refine kNext_link hlen (fun hne => ?_) hpres htook.low
    have hfollow := (physFrame_of_kNext hsource).1
    simpa [follow, hne] using (Bool.and_eq_true_iff.mp hfollow).2
  obtain ⟨hself, hzero, hagree⟩ :=
    link_agree s₁ hhf i { s.phys g i with address := f }
  have hother : ∀ f', f' ≠ f → f' ≠ h → s'.phys f' = s.phys f' := by
    intro f' hf hh
    funext k
    rw [hagree f' k hf (Or.inl hh), htook.phys]
  have hnew : NewTable D s.phys s'.phys dst p i h f := by
    apply link_newTable hw.tree hp htwins.dest _ _ (by rw [hself, hnext]) hzero
    · intro g' k hg' hoff
      rw [hagree g' k hg' hoff, htook.phys]
    · apply kNext_of_not_follow
      simp [follow, hblank]
    · rintro g' hg' rfl
      exact htable hg'
  have hkeep : Keep Z (D.without dst (p ++ [i])) s.phys s'.phys := by
    apply Keep.of_change hnew.change
    · intro f' hf'
      apply hother f'
      · rintro rfl
        exact hnot hf'
      · rintro rfl
        exact hw.not_table_of_held hf' hht
    · intro x hx
      rw [setEntry_phys_slot_ne _ _ (hZ.ne_entry hw hx hp htwins.dest),
        State.setFrame_phys_ne _ _ (hZ.ne_fresh hw hx htook.fresh), htook.phys]
  refine ⟨?_, hkeep, ⟨htwins.ne, htwins.same, ?_, hnew.linked⟩, ?_, hzero⟩
  · exact hw.newTable hnew hp (by rw [hself, hnext]) htook.low htook.fresh htook.valid htook.used
      htook.refs hlen
  · have hD : (D.without dst (p ++ [i])).carrier src (p ++ [i]) :=
      ⟨hsp, fun hbad => htwins.ne hbad.1⟩
    rw [hkeep.tableAt hD, tableAt, walk_concat,
      show walk kNext s.phys 0 src p = some g from htwins.source]
    simpa using hsource
  · rw [hother g hgf hgh]

theorem cloneEntry_runs (hS : Supplied L A S F bad tol) (hw : Formed L Y F D s) (hZ : Pins Y D Z)
    (hfull : Full D dst) (htwins : Twins D s.phys src dst p g h) {n : ℕ}
    (hlen : p.length + (n + 1) = 3) (hp : D.carrier dst (p ++ [i]))
    (hblank : (s.phys h i).present = false) {address : Addr}
    (ha : Ahead S (entryTasks s.phys (n + 1) address (g, i) ++ tasks) s)
    {loop loop' : State P → FrameNo → FrameNo → Except Panic (State P)}
    (hloop : ∀ t g' h', Formed L Y F D t → Twins D t.phys src dst (p ++ [i]) g' h' →
      (∀ k, t.phys h' k = Entry.zero) → Ahead S (tableTasks t.phys n address g' ++ tasks) t →
      Runs bad tol (loop t g' h') (loop' t g' h') fun t' =>
        Cloned L Y F Z D src dst (p ++ [i]) t t' ∧ Ahead S tasks t') :
    Runs bad tol (cloneEntry A loop s (g, i) (h, i))
      (cloneEntry L.toAllocator loop' s (g, i) (h, i)) fun s' =>
        Copied L Y F Z D src dst (p ++ [i]) s s' ∧ Ahead S tasks s' := by
  have hnone : ∀ e : Entry, e.present = false → kNext p.length e = none := by
    intro e he
    apply kNext_of_not_follow
    simp [follow, he]
  unfold cloneEntry
  cases hpres : (s.phys g i).present with
  | false =>
    have habsent : (!(State.entry s (g, i)).present) = true := by simp [State.entry, hpres]
    rw [if_pos habsent, if_pos habsent]
    rw [entryTasks_of_absent address hpres, List.nil_append] at ha
    refine runs_refl ⟨⟨hw, Keep.refl _ _ _, ?_⟩, ha⟩
    intro q _ _ hpre
    rw [view_none_below hpre htwins.dest (hnone _ hblank) (content_of_absent hblank),
      view_none_below hpre htwins.source (hnone _ hpres) (content_of_absent hpres)]
  | true =>
    have hpresent : ¬ (!(State.entry s (g, i)).present) = true := by simp [State.entry, hpres]
    rw [if_neg hpresent, if_neg hpresent]
    rw [entryTasks_of_present address hpres, List.cons_append] at ha
    refine runs_bind (hS.allocate s _ _ hw.valid ha) ?_
    rintro ⟨block, f, s₁⟩ ⟨hblock, htook, hnext⟩
    have hs₁ := (hnext.resolve_right (by simp)).1
    obtain rfl : block = frameAddr f := hblock
    have htook : Took L s f s₁ := htook
    have hgf : g ≠ f := by
      rintro rfl
      exact (fresh_of_took hw htook).2.1 ⟨src, p, D.closed src p [i] ((htwins.same _).mpr hp),
        htwins.source⟩
    obtain ⟨hw₂, hkeep, htwins₂, hsrc, hzero⟩ :=
      link_twin hw hZ htwins (by omega) hp hblank hpres htook
    have hstate : State.setSlot (s₁.setFrame f zeroFrame) (h, i) (Page.setFrame
        (State.entry (s₁.setFrame f zeroFrame) (g, i)) (frameAddr f)) =
        (s₁.setFrame f zeroFrame).setEntry h i { s.phys g i with address := f } := by
      simp only [State.setSlot, State.entry, setFrame_frameAddr,
        State.setFrame_phys_ne _ _ hgf, htook.phys]
    have hsp := (htwins.same _).mpr hp
    have hsource := hw.linked src p i g hsp (by omega) htwins.source hpres
    have hother : ∀ q, D.carrier src q → (D.without dst (p ++ [i])).carrier src q :=
      fun q hq => ⟨hq, fun hbad => htwins.ne hbad.1⟩
    have hat : tableAt kNext s.phys src (p ++ [i]) = some (s.phys g i).address := by
      rw [tableAt, walk_concat, show walk kNext s.phys 0 src p = some g from htwins.source]
      simpa using hsource
    have htasks := tableTasks_keep hw hkeep hother (htwins.full hfull)
      (by simp; omega : (p ++ [i]).length + n = 3) hsp (by simp) hat address
    rw [← htasks, ← htook.refs] at hs₁
    simp only [hstate]
    rw [show State.entry ((s₁.setFrame f zeroFrame).setEntry h i { s.phys g i with address := f })
      (g, i) = s.phys g i from hsrc, (physFrame_of_kNext hsource).2]
    refine runs_mono (hloop _ _ _ hw₂ htwins₂ hzero hs₁) ?_
    rintro s' ⟨hcl, hrest⟩
    refine ⟨⟨hcl.wf, hkeep.trans (hcl.keep.mono (without_le_below D dst _)), ?_⟩, hrest⟩
    intro q hq hq4 hpre
    rw [hcl.views q hq hq4 hpre]
    exact hkeep.view (hother q ((htwins.same q).mpr hq)) hq4

/-- A loop over the entries `l` of the tables at `p`. -/
theorem clone_loop (body body' : State P → Fin 512 → Except Panic (State P))
    (hw : Formed L Y F D s) (hfull : Full D dst) (htwins : Twins D s.phys src dst p g h) {n : ℕ}
    (hlen : p.length + n = 3) (address : Fin 512 → Addr)
    {l : List (Fin 512)} (hnodup : l.Nodup) (hl : ∀ i ∈ l, D.carrier dst (p ++ [i]))
    (hblank : ∀ i ∈ l, (s.phys h i).present = false)
    (ha : Ahead S ((l.flatMap fun i => entryTasks s.phys n (address i) (g, i)) ++ tasks) s)
    (hbody : ∀ t rest, ∀ i ∈ l, Formed L Y F D t → Twins D t.phys src dst p g h →
      (t.phys h i).present = false →
      Ahead S (entryTasks t.phys n (address i) (g, i) ++ rest) t →
      Runs bad tol (body t i) (body' t i) fun t' =>
        Copied L Y F Z D src dst (p ++ [i]) t t' ∧ Ahead S rest t') :
    Runs bad tol (l.foldlM body s) (l.foldlM body' s) fun s' =>
      (Formed L Y F D s' ∧ Keep Z (D.withoutEntries dst p l) s.phys s'.phys ∧
        ∀ i ∈ l, ∀ q, D.carrier dst q → q.length = 4 → p ++ [i] <+: q →
          view s'.phys dst q = view s.phys src q) ∧ Ahead S tasks s' := by
  apply runs_foldlM fun pre post t =>
    (Formed L Y F D t ∧ Keep Z (D.withoutEntries dst p pre) s.phys t.phys ∧
      ∀ i ∈ pre, ∀ q, D.carrier dst q → q.length = 4 → p ++ [i] <+: q →
        view t.phys dst q = view s.phys src q) ∧
      Ahead S ((post.flatMap fun i => entryTasks s.phys n (address i) (g, i)) ++ tasks) t
  · refine ⟨⟨hw, Keep.refl _ _ _, ?_⟩, ha⟩
    intro i hi
    exact absurd hi List.not_mem_nil
  rintro pre a post t rfl ⟨⟨hwt, hkeep, hviews⟩, hat⟩
  have hmem : a ∈ pre ++ a :: post := by simp
  have hafresh : ∀ i ∈ pre, i ≠ a := by
    rintro i hi rfl
    exact (List.nodup_append.mp hnodup).2.2 i hi i (by simp) rfl
  have hDp : D.carrier dst p := D.closed dst p [a] (hl a hmem)
  have hsrc : ∀ q, D.carrier src q → (D.withoutEntries dst p pre).carrier src q :=
    fun q hq => ⟨hq, fun i _ hbad => htwins.ne hbad.1⟩
  have hunvisited : (D.withoutEntries dst p pre).carrier dst (p ++ [a]) := by
    refine ⟨hl a hmem, fun i hi hbad => hafresh i hi ?_⟩
    have := hbad.2.eq_of_length (by simp)
    simpa using this
  have htwins' : Twins D t.phys src dst p g h := by
    refine ⟨htwins.ne, htwins.same, ?_, ?_⟩
    · rw [hkeep.tableAt (hsrc p ((htwins.same p).mpr hDp)), htwins.source]
    · rw [hkeep.tableAt ((D.withoutEntries dst p pre).closed dst p [a] hunvisited), htwins.dest]
  have hblank' : (t.phys h a).present = false := by
    rw [(hkeep.entries dst p a h hunvisited htwins.dest).present_eq]
    exact hblank a hmem
  have htasks := entryTasks_keep hw hkeep hsrc (htwins.full hfull) hlen
    ((htwins.same _).mpr (hl a hmem)) htwins.source (address a)
  rw [List.flatMap_cons, List.append_assoc, ← htasks] at hat
  refine runs_mono (hbody t _ a hmem hwt htwins' hblank' hat) ?_
  rintro t' ⟨hc, hrest⟩
  have hkeep' : Keep Z (D.withoutEntries dst p (pre ++ [a])) s.phys t'.phys := by
    rw [Domain.withoutEntries_concat]
    refine Keep.trans (hkeep.mono (without_le _ dst (p ++ [a]))) (hc.keep.mono ?_)
    exact fun r q hq => ⟨hq.1.1, hq.2⟩
  refine ⟨⟨hc.wf, hkeep', ?_⟩, hrest⟩
  intro i hi q hq hq4 hpre
  rcases List.mem_append.mp hi with hi | hi
  · rw [← hviews i hi q hq hq4 hpre]
    apply hc.keep.view ⟨hq, fun hbad => hafresh i hi ?_⟩ hq4
    have h1 := List.prefix_or_prefix_of_prefix hpre hbad.2
    have : p ++ [i] = p ++ [a] := by
      rcases h1 with h1 | h1
      · exact h1.eq_of_length (by simp)
      · exact (h1.eq_of_length (by simp)).symm
    simpa using this
  · obtain rfl : i = a := by simpa using hi
    rw [hc.views q hq hq4 hpre]
    exact hkeep.view (hsrc q ((htwins.same q).mpr hq)) hq4

theorem cloned_of_loop (hlen : p.length < 4) (hs' : Formed L Y F D s' ∧
    Keep Z (D.withoutEntries dst p allIndices) s.phys s'.phys ∧
      ∀ i ∈ allIndices, ∀ q, D.carrier dst q → q.length = 4 → p ++ [i] <+: q →
        view s'.phys dst q = view s.phys src q) : Cloned L Y F Z D src dst p s s' := by
  obtain ⟨hw, hkeep, hviews⟩ := hs'
  refine ⟨hw, hkeep.mono fun r q hq => ⟨hq.1, fun i _ => hq.2 i⟩, ?_⟩
  rintro q hq hq4 ⟨q', rfl⟩
  cases q' with
  | nil =>
    rw [List.append_nil] at hq4
    omega
  | cons i q' => exact hviews i (mem_allIndices i) _ hq hq4 ⟨q', by simp⟩

theorem cloneTable_runs (hS : Supplied L A S F bad tol) (hZ : Pins Y D Z) (hfull : Full D dst)
    (n : ℕ) (address : Addr) {p : List (Fin 512)} (hlen : p.length + n = 3) (hp : D.carrier dst p)
    (hp0 : p ≠ []) {s : State P} {g h : FrameNo} (hw : Formed L Y F D s)
    (htwins : Twins D s.phys src dst p g h) (hblank : ∀ k, s.phys h k = Entry.zero)
    {tasks : List Task} (ha : Ahead S (tableTasks s.phys n address g ++ tasks) s) :
    Runs bad tol (cloneTable A n address s g h) (cloneTable L.toAllocator n address s g h) fun s' =>
      Cloned L Y F Z D src dst p s s' ∧ Ahead S tasks s' := by
  have hl : ∀ i ∈ allIndices, D.carrier dst (p ++ [i]) := fun i _ => hfull p i hp hp0 (by omega)
  have habsent : ∀ i ∈ allIndices, (s.phys h i).present = false := fun i _ => by rw [hblank]; rfl
  induction n generalizing address p s g h tasks with
  | zero =>
    rw [cloneTable, cloneTable]
    have hloop := clone_loop (Z := Z) _ _ hw hfull htwins hlen (fun i => address ||| indexBits 0 i)
      nodup_allIndices hl habsent ha
      fun t rest i hi hwt ht hb hat => clonePage_runs hS hwt hZ ht hlen (hl i hi) hb hat
    exact runs_mono hloop fun s' hs' => ⟨cloned_of_loop (by omega) hs'.1, hs'.2⟩
  | succ n ih =>
    rw [cloneTable, cloneTable]
    have hloop := clone_loop (Z := Z) _ _ hw hfull htwins hlen
      (fun i => address ||| indexBits (n + 1) i) nodup_allIndices hl habsent ha
      fun t rest i hi hwt ht hb hat => cloneEntry_runs hS hwt hZ hfull ht hlen (hl i hi) hb hat
        fun t' g' h' hwt' ht' hb' hat' => ih _ (by simp; omega) (hl i hi) (by simp) hwt' ht' hb'
          hat' (fun k _ => hfull _ k (hl i hi) (by simp) (by simp; omega))
          (fun k _ => by rw [hb']; rfl)
    exact runs_mono hloop fun s' hs' => ⟨cloned_of_loop (by omega) hs'.1, hs'.2⟩

end Loop

section Memclone

variable {live : Set FrameNo}

theorem lower_full (r : FrameNo) : Full (lower live) r := by
  rintro q i ⟨hr, -, hhead⟩ hne hlen
  refine ⟨hr, by simp; omega, ?_⟩
  cases q with
  | nil => exact absurd rfl hne
  | cons k q => simpa using hhead

theorem memClone_runs (hS : Supplied L A S F bad tol) (hw : Formed L Y F (lower live) s)
    (hZ : Pins Y (lower live) Z) {dir : FrameNo} (hdir : dir ∈ live)
    (ha : Ahead S (cloneTasks s.phys dir) s) :
    Runs bad tol (memClone A s dir) (memClone L.toAllocator s dir) fun res =>
      (res.1 ∉ L.used s.pmm ∧ Formed L Y F (lower (insert res.1 live)) res.2 ∧
        Keep Z (lower live) s.phys res.2.phys ∧
        ∀ q, (lower live).carrier dir q → q.length = 4 →
          view res.2.phys res.1 q = view s.phys dir q) ∧ S res.2.pmm [] := by
  unfold memClone memCreateVAS
  rw [bind_assoc, bind_assoc]
  refine runs_bind (hS.allocate s _ _ hw.valid ha) ?_
  rintro ⟨block, dst, s₁⟩ ⟨-, htook, hnext⟩
  have hs₁ := (hnext.resolve_right (by simp)).1
  have htook : Took L s dst s₁ := htook
  obtain ⟨hres, htable, hnot, -⟩ := fresh_of_took hw htook
  have hdirTable : IsTable (lower live) kNext s.phys dir :=
    ⟨dir, [], ⟨hdir, by simp, by simp⟩, rfl⟩
  have hne : dir ≠ dst := fun heq => htable (heq ▸ hdirTable)
  simp only [pure_bind]
  let s₂ := (s₁.setFrame dst zeroFrame).setFrame dst fun i =>
    if i.val < 256 then (s₁.setFrame dst zeroFrame).phys dst i
    else (s₁.setFrame dst zeroFrame).phys dir i
  have hother : ∀ f, f ≠ dst → s₂.phys f = s.phys f := by
    intro f hf
    rw [State.setFrame_phys_ne _ _ hf, State.setFrame_phys_ne _ _ hf, htook.phys]
  have hblank : ∀ i : Fin 512, i.val < 256 → s₂.phys dst i = Entry.zero := by
    intro i hi
    change (State.setFrame _ dst _).phys dst i = _
    rw [State.setFrame_phys_self, if_pos hi, State.setFrame_phys_self]
    rfl
  have hw₂ : Formed L Y F (lower (insert dst live)) s₂ :=
    hw.newRoot htook.low htook.fresh htook.valid htook.used htook.refs hother hblank
  have hkeep₂ : Keep Z (lower live) s.phys s₂.phys := by
    refine ⟨?_, ?_, ?_⟩
    · intro r p j g hp hg
      rw [hother g]
      · exact SameMapping.refl _
      · rintro rfl
        exact htable ⟨r, p, (lower live).closed r p [j] hp, hg⟩
    · intro f hf
      exact hother f fun heq => hnot (heq ▸ hf)
    · intro x hx
      rw [hother x.1 (hZ.ne_fresh hw hx htook.fresh)]
  have hZ' : Pins Y (lower (insert dst live)) Z := by
    intro x hx
    refine (hZ x hx).imp id fun hroot => ⟨⟨Or.inr hroot.1.1, hroot.1.2⟩, fun hbad => hroot.2 ?_⟩
    exact ⟨hroot.1.1, hbad.2⟩
  have hdstLive : dst ∉ live := fun hbad => htable ⟨dst, [], ⟨hbad, by simp, by simp⟩, rfl⟩
  have htwins : Twins (lower (insert dst live)) s₂.phys dir dst [] dir dst := by
    refine ⟨hne, fun q => ?_, rfl, rfl⟩
    constructor
    · rintro ⟨-, hq⟩
      exact ⟨Or.inl rfl, hq⟩
    · rintro ⟨-, hq⟩
      exact ⟨Or.inr hdir, hq⟩
  have hcarrier : ∀ i ∈ lowerHalf, (lower (insert dst live)).carrier dst ([] ++ [i]) := by
    intro i hi
    exact ⟨Or.inl rfl, by simp, by simpa using mem_lowerHalf.mp hi⟩
  have htasks : (lowerHalf.flatMap fun i => entryTasks s₂.phys 3 (indexBits 3 i) (dir, i)) =
      lowerHalf.flatMap fun i => entryTasks s.phys 3 (indexBits 3 i) (dir, i) :=
    List.flatMap_congr fun i hi => entryTasks_keep (p := []) hw hkeep₂ (fun _ hq => hq)
      (lower_full dir) rfl ⟨hdir, by simp, by simpa using mem_lowerHalf.mp hi⟩ rfl _
  have ha₂ : Ahead S ((lowerHalf.flatMap fun i =>
      entryTasks s₂.phys 3 (indexBits 3 i) (dir, i)) ++ []) s₂ := by
    rw [htasks, List.append_nil, Ahead]
    rwa [← htook.refs] at hs₁
  have hloop : Runs bad tol _ _ _ := clone_loop (Z := Z) (l := lowerHalf)
    (fun s i => cloneEntry A (cloneTable A 2 (indexBits 3 i)) s (dir, i) (dst, i))
    (fun s i => cloneEntry L.toAllocator (cloneTable L.toAllocator 2 (indexBits 3 i)) s
      (dir, i) (dst, i))
    hw₂ (lower_full dst) htwins rfl (indexBits 3) nodup_lowerHalf hcarrier
    (fun i hi => by rw [hblank i (mem_lowerHalf.mp hi)]; rfl) ha₂ ?_
  · refine runs_bind hloop ?_
    rintro s' ⟨⟨hw', hkeep', hviews⟩, hdone⟩
    refine runs_refl ⟨⟨htook.fresh, hw', hkeep₂.trans (hkeep'.mono ?_), ?_⟩, hdone⟩
    · intro r q hq
      refine ⟨⟨Or.inr hq.1, hq.2⟩, ?_⟩
      rintro i - ⟨rfl, -⟩
      exact hdstLive hq.1
    · intro q hq hq4
      cases q with
      | nil => simp at hq4
      | cons i q =>
        have hi : i ∈ lowerHalf := mem_lowerHalf.mpr (hq.2.2 i (by simp))
        rw [hviews i hi (i :: q) ⟨Or.inl rfl, hq.2⟩ hq4 ⟨q, rfl⟩]
        exact hkeep₂.view hq hq4
  · intro t rest i hi hwt ht hb hat
    refine cloneEntry_runs hS hwt hZ' (lower_full dst) ht rfl (hcarrier i hi) hb hat ?_
    intro t' g' h' hwt' ht' hb' hat'
    exact cloneTable_runs hS hZ' (lower_full dst) 2 _ (by simp) (hcarrier i hi) (by simp) hwt' ht'
      hb' hat'

/-- `mem_clone` makes a directory that shows what the old one shows, and leaves all
others as they were. -/
theorem memClone_spec (hw : Wf L Y (lower live) s) (hZ : Pins Y (lower live) Z) {dir : FrameNo}
    (hdir : dir ∈ live) :
    Meets Oom (memClone L.toAllocator s dir) fun res =>
      res.1 ∉ L.used s.pmm ∧ Wf L Y (lower (insert res.1 live)) res.2 ∧
        Keep Z (lower live) s.phys res.2.phys ∧
        ∀ q, (lower live).carrier dir q → q.length = 4 →
          view res.2.phys res.1 q = view s.phys dir q := by
  have hclone := memClone_runs (supplied_self L) hw hZ hdir trivial
  exact meets_mono (hclone.resolve_left fun hbad => hbad.choose_spec.1).2 fun _ hres => hres.1

end Memclone

end ReduceOS.Clone
