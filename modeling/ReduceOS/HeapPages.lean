import ReduceOS.CopyOnWrite
import ReduceOS.UserHeap

/-!
The lazy heap over well-formed memory. A page below the break is mapped on first use,
by the fault handler or by the check of a user pointer: missing tables are added blank
and the page gets a frame of its own, with whatever the frame holds. No other page of
any address space changes.
-/
namespace ReduceOS.HeapPages

open Machine Page Physical Paging AddressSpace Outcome TableTree PageMap Sharing SharedPages Views
  Clone UserAccess UserHeap CopyOnWrite

variable {P : Type} {L : LawfulAllocator P} {Y : Layout} {D : Domain FrameNo (Fin 512)}
  {s s' : State P} {r g h f : FrameNo} {p q : List (Fin 512)} {i j : Fin 512}

def SameViews (D : Domain FrameNo (Fin 512)) (mem mem' : FrameNo → Frame) : Prop :=
  ∀ r q, D.carrier r q → q.length = 4 → view mem' r q = view mem r q

/-- Linking a blank table keeps memory well-formed, and nothing new is seen. -/
theorem linked_wf (hw : Wf L Y D s) (hl : Linked L D s s' r p i g h)
    (hp : D.carrier r (p ++ [i])) (hlen : p.length < 3) (hold : kNext p.length (s.phys g i) = none)
    (hempty : content (s.phys g i) = none) :
    Wf L Y D s' ∧ SameViews D s.phys s'.phys := by
  have hfresh : ¬ IsTable D kNext s.phys h ∧ ¬ Held (holding D s.phys) h := by
    have := hl.fresh
    rw [hw.used] at this
    tauto
  have hgt : IsTable D kNext s.phys g := ⟨r, p, D.closed r p [i] hp, hl.new.change.cell⟩
  refine ⟨hw.newTable hl.new hp hl.entry hl.low hl.fresh hl.valid hl.used hl.refs hlen, ?_⟩
  have hkeep : Keep ∅ (D.without r (p ++ [i])) s.phys s'.phys := by
    apply Keep.of_change hl.new.change
    · intro f hf
      funext k
      apply hl.others f k
      · rintro rfl
        exact hfresh.2 hf
      · left
        rintro rfl
        exact hw.not_table_of_held hf hgt
    · exact fun x hx => absurd hx (Set.notMem_empty x)
  intro r' q hq hlen4
  by_cases hin : r' = r ∧ p ++ [i] <+: q
  · obtain ⟨rfl, hpre⟩ := hin
    rw [view_none_below hpre hl.new.change.cell hold hempty]
    obtain ⟨q', rfl⟩ := hpre
    cases q' with
    | nil =>
      simp only [List.append_nil, List.length_append, List.length_cons, List.length_nil] at hlen4
      omega
    | cons k q' =>
      have hzero := hl.new.blank k
      refine view_none_below (p := p ++ [i]) (i := k) ⟨q', by simp⟩ hl.new.linked ?_ ?_
      · rw [hzero, kNext_zero]
      · rw [hzero, content_zero]
  · exact hkeep.view ⟨hq, hin⟩ hlen4

theorem descend_wf (hw : Wf L Y D s) (hstale : ¬ Y.stale) (hp : D.carrier r (p ++ [i]))
    (hlen : p.length < 3) (hg : tableAt kNext s.phys r p = some g) :
    Meets Oom (descend L.toAllocator s (g, i) memCreate (decide (p.length ≠ 0))) fun res =>
      ∃ h, res.1 = some h ∧ tableAt kNext res.2.phys r (p ++ [i]) = some h ∧
        Wf L Y D res.2 ∧ SameViews D s.phys res.2.phys := by
  have hsound := hw.sound r p i g hp hlen hg
  cases hpres : (s.phys g i).present with
  | true =>
    refine meets_mono (descend_create hw.tables hp hlen hg (hsound.small hstale)
      fun _ => ⟨_, hsound.link hpres⟩) ?_
    rintro ⟨_, s₁⟩ ⟨h, rfl, hat, rfl | hl⟩
    · exact ⟨h, rfl, hat, hw, fun _ _ _ _ => rfl⟩
    · -- an entry that led somewhere is not replaced
      exfalso
      have hold := hl.new.extension.table r (p ++ [i]) (s.phys g i).address hp (by
        rw [tableAt, walk_concat, show walk kNext s.phys 0 r p = some g from hg]
        simpa using hsound.link hpres)
      have heq : h = (s.phys g i).address := Option.some.inj (hat.symm.trans hold)
      apply hl.fresh
      rw [hw.used]
      refine Or.inr (Or.inl ⟨r, p ++ [i], hp, ?_⟩)
      rw [heq, tableAt, walk_concat, show walk kNext s.phys 0 r p = some g from hg]
      simpa using hsound.link hpres
  | false =>
    have hnone : kNext p.length (s.phys g i) = none := by
      apply kNext_of_not_follow
      simp [follow, hpres]
    refine meets_mono (descend_create hw.tables hp hlen hg (hsound.small hstale) ?_) ?_
    · intro hfollow
      simp [follow, hpres] at hfollow
    · rintro ⟨_, s₁⟩ ⟨h, rfl, hat, rfl | hl⟩
      · exact ⟨h, rfl, hat, hw, fun _ _ _ _ => rfl⟩
      · obtain ⟨hw₁, hviews⟩ := linked_wf hw hl hp hlen hnone (content_of_absent hpres)
        exact ⟨h, rfl, hat, hw₁, hviews⟩

/-- `mem_getPage` with `MEM_CREATE` over well-formed memory. -/
theorem memGetPage_wf (hw : Wf L Y D s) (hstale : ¬ Y.stale) {dir : FrameNo} {v : Addr}
    (hv : isCanonical v = true) (hD : D.carrier dir (path v)) :
    Meets Oom (memGetPage L.toAllocator s dir v memCreate) fun res =>
      ∃ t, res.1 = some (t, pagetblIndex v) ∧ tableAt kNext res.2.phys dir (path v) = some t ∧
        Wf L Y D res.2 ∧ SameViews D s.phys res.2.phys := by
  refine meets_mono (memGetPage_rule (E := fun _ => False)
    (J := fun s₁ => Wf L Y D s₁ ∧ SameViews D s.phys s₁.phys) hv ⟨hw, fun _ _ _ _ => rfl⟩ ?_) ?_
  · rintro s₁ q i g ⟨hw₁, hviews₁⟩ ⟨q', hq'⟩ hlen hg
    have hDq : D.carrier dir (q ++ [i]) := D.closed dir (q ++ [i]) q' (by rwa [hq'])
    refine meets_mono (descend_wf hw₁ hstale hDq hlen hg) ?_
    rintro ⟨_, s₂⟩ ⟨h, rfl, hat, hw₂, hviews₂⟩
    refine ⟨hat, hw₂, ?_⟩
    intro r q hq hlen
    rw [hviews₂ r q hq hlen, hviews₁ r q hq hlen]
  · rintro ⟨o, s'⟩ hres
    cases o with
    | none => exact hres.elim
    | some pg =>
      obtain ⟨t, rfl, hat, hw', hviews⟩ := hres
      exact ⟨t, rfl, hat, hw', hviews⟩

section Map

variable {live : Set FrameNo} {process : Process} {a : Addr}

structure MappedAt (L : LawfulAllocator P) (Y : Layout) (live : Set FrameNo) (dir : FrameNo)
    (a : Addr) (s s' : State P) : Prop where
  wf : Wf L Y (lower live) s'
  others : ∀ r q, (lower live).carrier r q → q.length = 4 → ¬ (r = dir ∧ q = position a) →
    view s'.phys r q = view s.phys r q

theorem memAllocatePage_default (hw : Wf L Y D s) (hx : PageAt D s.phys r p j g)
    (hempty : content (s.phys g j) = none) :
    Meets Oom (memAllocatePage L.toAllocator s (some (g, j)) memDefault) fun s' =>
      Wf L Y D s' ∧ Keep ∅ (D.without r (p ++ [j])) s.phys s'.phys := by
  have hslot : holding D s.phys (g, j) = none := by rw [hx.holding_eq, hempty]
  refine meets_mono (memAllocatePage_fresh L hw.valid (g, j) (by decide) (by decide)) ?_
  rintro s' ⟨f, pmm, hlow, hfree, hvalid, hused, rfl⟩
  let s₁ : State P := { s with pmm := pmm }
  have htook : Took L s f s₁ := ⟨hlow, hfree, hvalid, hused, rfl, rfl⟩
  obtain ⟨hres, -, hnot, hzero⟩ := fresh_of_took hw htook
  let e : Entry := configure { s.phys g j with address := f } memDefault
  let s' := s₁.setEntry g j e
  change Wf L Y D s' ∧ Keep ∅ _ _ s'.phys
  have hself : s.setFrame f (s.phys f) = s := by
    simp [State.setFrame]
  obtain ⟨hw', hkeep, -⟩ := install s' (s.phys f) hw (fun _ hx => absurd hx (Set.notMem_empty _))
    hx.length hx.carrier hx.table htook (e := e) rfl (by rw [hself]; rfl) rfl
    (hw.exact.put hslot (fun y w hy => hnot ⟨y, w, hy⟩) (by rw [hzero]; rfl)
      fun hU => hres (Y.uncounted_reserved hU))
    (fun f' => held_put hslot)
  exact ⟨hw', hkeep⟩

theorem mapHeapPage_spec (hw : Wf L Y (lower live) s) (hstale : ¬ Y.stale)
    (hdir : process.dir ∈ live) (ha : isUser a = true)
    (hempty : view s.phys process.dir (position a) = none) :
    Meets Oom (mapHeapPage L.toAllocator s process a) (MappedAt L Y live process.dir a s) := by
  have hpos := carrier_position hdir ha
  unfold mapHeapPage
  refine meets_bind (memGetPage_wf hw hstale (canonical_of_user ha)
    ((lower live).closed process.dir (path a) [pagetblIndex a] hpos)) ?_
  rintro ⟨_, s₁⟩ ⟨t, rfl, hat, hw₁, hviews⟩
  have hx : PageAt (lower live) s₁.phys process.dir (path a) (pagetblIndex a) t :=
    ⟨hpos, by simp [path], hat⟩
  have hcontent : content (s₁.phys t (pagetblIndex a)) = none := by
    have hview := hviews process.dir (position a) hpos (position_length a)
    rw [hempty, position, view_of_table hat] at hview
    exact Option.map_eq_none_iff.mp hview
  refine meets_mono (memAllocatePage_default hw₁ hx hcontent) ?_
  rintro s' ⟨hw', hkeep⟩
  refine ⟨hw', ?_⟩
  intro r q hq hlen hne
  rw [← hviews r q hq hlen]
  refine hkeep.view ⟨hq, ?_⟩ hlen
  rintro ⟨rfl, hpre⟩
  exact hne ⟨rfl, (hpre.eq_of_length (by rw [hlen]; simp [path])).symm⟩

end Map

end ReduceOS.HeapPages
