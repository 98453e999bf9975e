import ReduceOS.Clone

/-!
`mem_destroyVAS` over well-formed memory. The loops take positions out of the domain
one by one: a page gives up its share of the frame, a table is returned once nothing
is left below it, and in the end the directory itself is gone. All other address
spaces are kept.
-/
namespace ReduceOS.Destroy

open Machine Page Physical Paging AddressSpace Outcome TableTree PageMap Sharing SharedPages Views
  Clone

variable {P : Type} {L : LawfulAllocator P} {Y : Layout} {D : Domain FrameNo (Fin 512)}
  {Z : Set Slot} {s s' : State P} {r g h f : FrameNo} {p q : List (Fin 512)} {i j : Fin 512}
  {F : Set FrameNo} {W : Domain FrameNo (Fin 512)} {mem mem' : FrameNo → Frame}

/-- The accounts after slot `x` has let go of its frame. -/
structure Dropped (L : LawfulAllocator P) (Y : Layout) (D : Domain FrameNo (Fin 512))
    (s : State P) (x : Slot) (s' : State P) : Prop where
  valid : L.valid s'.pmm
  exact : Exact Y.uncounted (Function.update (holding D s.phys) x none)
    fun f => (s'.refs f).toNat
  used : ∀ f, f ∈ L.used s'.pmm ↔ f ∈ Y.reserved ∨ IsTable D kNext s.phys f ∨
    Held (Function.update (holding D s.phys) x none) f

section Drop

/-- Returning a mapped frame that only `x` maps. -/
private theorem used_of_free (hw : Formed L Y F D s) (hf : f ∉ F) {x : Slot} {w : Bool}
    (hx : holding D s.phys x = some (f, w))
    (halone : ∀ y w', holding D s.phys y = some (f, w') → y = x)
    (hpmm : s'.pmm = L.freeBlock s.pmm (frameAddr f)) :
    L.valid s'.pmm ∧ ∀ f', f' ∈ L.used s'.pmm ↔ f' ∈ Y.reserved ∨ IsTable D kNext s.phys f' ∨
      Held (Function.update (holding D s.phys) x none) f' := by
  have hheld : Held (holding D s.phys) f := ⟨x, w, hx⟩
  obtain ⟨hlow, hres⟩ := hw.held f hheld
  obtain ⟨hvalid, hused⟩ := L.free_spec s.pmm f hw.valid
    ((hw.used f).mpr (Or.inr (Or.inr hheld))) (hlow.resolve_left hf)
  rw [hpmm]
  refine ⟨hvalid, fun f' => ?_⟩
  rw [hused, Set.mem_sdiff, Set.mem_singleton_iff, hw.used, held_drop hx halone]
  have htable : IsTable D kNext s.phys f' → f' ≠ f := fun ht heq =>
    hw.not_table_of_held hheld (heq ▸ ht)
  have hres' : f' ∈ Y.reserved → f' ≠ f := fun hr heq => hres (heq ▸ hr)
  tauto

theorem dropped_private (hw : Formed L Y F D s) (hf : f ∉ F) (hx : PageAt D s.phys r p j g)
    (hcontent : content (s.phys g j) = some (f, true)) (hrefs : s'.refs = s.refs)
    (hpmm : s'.pmm = L.freeBlock s.pmm (frameAddr f)) : Dropped L Y D s (g, j) s' := by
  have hold : holding D s.phys (g, j) = some (f, true) := by rw [hx.holding_eq, hcontent]
  obtain ⟨hvalid, hused⟩ := used_of_free hw hf hold (hw.exact.exclusive _ _ hold).2 hpmm
  refine ⟨hvalid, ?_, hused⟩
  rw [hrefs]
  exact hw.exact.drop hold

theorem dropped_last (hw : Formed L Y F D s) (hf : f ∉ F) (hx : PageAt D s.phys r p j g)
    (hcontent : content (s.phys g j) = some (f, false)) (hone : s.refs f = 1)
    (hrefs : s'.refs = (s.setRefs f 0).refs)
    (hpmm : s'.pmm = L.freeBlock s.pmm (frameAddr f)) : Dropped L Y D s (g, j) s' := by
  have hold : holding D s.phys (g, j) = some (f, false) := by rw [hx.holding_eq, hcontent]
  have hone' : (s.refs f).toNat = 1 := by rw [hone]; rfl
  obtain ⟨hvalid, hused⟩ := used_of_free hw hf hold
    (fun y w hy => hw.exact.last_holder hold hone' hy) hpmm
  refine ⟨hvalid, ?_, hused⟩
  rw [hrefs, toNat_setRefs]
  have hdrop := hw.exact.dropRef hold
  rwa [hone'] at hdrop

theorem dropped_shared (hw : Formed L Y F D s) (hx : PageAt D s.phys r p j g)
    (hcontent : content (s.phys g j) = some (f, false)) (hone : s.refs f ≠ 1)
    (hrefs : s'.refs = (s.setRefs f (s.refs f - 1)).refs) (hpmm : s'.pmm = s.pmm) :
    Dropped L Y D s (g, j) s' := by
  have hold : holding D s.phys (g, j) = some (f, false) := by rw [hx.holding_eq, hcontent]
  have hne := hw.exact.shared _ _ hold
  have hone' : (s.refs f).toNat ≠ 1 := fun h => hone (BitVec.eq_of_toNat_eq h)
  obtain ⟨y, hyx, hy⟩ := hw.exact.other_holder hold hone'
  have hsub : (s.refs f - 1).toNat = (s.refs f).toNat - 1 := by bv_omega
  refine ⟨by rw [hpmm]; exact hw.valid, ?_, ?_⟩
  · rw [hrefs, toNat_setRefs, hsub]
    exact hw.exact.dropRef hold
  · intro f'
    rw [hpmm, hw.used, held_update_other hold hyx hy]
    simp

end Drop

/-- What one run of a loop body of `mem_destroyVAS` achieves at position `p`. -/
structure Removed (L : LawfulAllocator P) (Y : Layout) (F : Set FrameNo) (Z : Set Slot)
    (E : Domain FrameNo (Fin 512)) (s s' : State P) : Prop where
  wf : Formed L Y F E s'
  keep : Keep Z E s.phys s'.phys

/-- The address spaces of `W`, of which `r` is none, map all frames of `F`. -/
structure Guarded (W D : Domain FrameNo (Fin 512)) (F : Set FrameNo) (r : FrameNo)
    (mem : FrameNo → Frame) : Prop where
  away : ∀ q, ¬ W.carrier r q
  within : ∀ r' q, W.carrier r' q → D.carrier r' q
  held : ∀ f ∈ F, Held (holding W mem) f

namespace Guarded

theorem keep (h : Guarded W D F r mem) (hk : Keep Z D mem mem') : Guarded W D F r mem' :=
  ⟨h.away, h.within, fun f hf => ((hk.mono h.within).held_iff f).mpr (h.held f hf)⟩

theorem withoutEntries (h : Guarded W D F r mem) (p l : List (Fin 512)) :
    Guarded W (D.withoutEntries r p l) F r mem := by
  refine ⟨h.away, fun r' q hq => ⟨h.within r' q hq, ?_⟩, h.held⟩
  rintro i - ⟨rfl, -⟩
  exact h.away q hq

/-- A frame of `F` has another holder. -/
theorem other (h : Guarded W D F r mem) (htree : Tree D kNext mem) (hx : PageAt D mem r p j g)
    (hf : f ∈ F) : ∃ y w, y ≠ (g, j) ∧ holding D mem y = some (f, w) := by
  obtain ⟨y, w, hy⟩ := h.held f hf
  obtain ⟨⟨r', q, hq, hlen, hg⟩, hcontent⟩ := holding_eq_some.mp hy
  have hq' := h.within r' _ hq
  refine ⟨y, w, ?_, holding_eq_some.mpr ⟨⟨r', q, hq', hlen, hg⟩, hcontent⟩⟩
  rintro rfl
  obtain ⟨rfl, -⟩ := htree r' q r p g (D.closed r' q [j] hq') (D.closed r p [j] hx.carrier) hg
    hx.table
  exact h.away _ hq

end Guarded

abbrev Never : Panic → Prop := fun _ => False

theorem meets_never {α : Type} {res : Except Panic α} {Q : α → Prop} (h : Meets Never res Q) :
    ∃ a, res = .ok a ∧ Q a := by
  cases res with
  | error e => exact h.elim
  | ok a => exact ⟨a, rfl, h⟩

/-- Letting go of a page's frame, whatever becomes of its entry. -/
theorem removed_page (hw : Formed L Y F D s) (hZ : Pins Y D Z) (hx : PageAt D s.phys r p j g)
    (hd : Dropped L Y D s (g, j) s') {e : Entry} (hphys : s'.phys = (s.setEntry g j e).phys) :
    Removed L Y F Z (D.without r (p ++ [j])) s s' := by
  have c := change_of_setEntry s' hw hx.carrier hx.table hphys
  obtain ⟨hframes, hpinned⟩ := frames_of_setEntry hw hZ hx.carrier hx.table hphys
  refine ⟨hw.dropPage hx.carrier hx.length hx.table ?_ hd.valid hd.exact hd.used,
    Keep.of_change c hframes hpinned⟩
  intro r' q k g' hq hg'
  apply c.agree g' k ⟨r', q, D.closed r' q [k] hq.1, hg'⟩
  by_contra hnot
  obtain ⟨rfl, rfl⟩ := not_or.mp hnot |>.imp not_not.mp not_not.mp
  obtain ⟨rfl, rfl⟩ := hw.tree r' q r p g' (D.closed r' q [k] hq.1) (D.closed r p [k] hx.carrier)
    hg' hx.table
  exact hq.2 ⟨rfl, List.prefix_rfl⟩

theorem destroyPage_spec (hw : Formed L Y F D s) (hZ : Pins Y D Z) (hG : Guarded W D F r s.phys)
    (hx : PageAt D s.phys r p j g) :
    Meets Never (destroyPage L.toAllocator s (g, j))
      (Removed L Y F Z (D.without r (p ++ [j])) s) := by
  have hself : s.setEntry g j (s.phys g j) = s := State.setEntry_entry s g j
  unfold destroyPage
  cases huser : (s.phys g j).usermode && (s.phys g j).present with
  | false =>
    rw [if_neg (show ¬ ((State.entry s (g, j)).usermode && (State.entry s (g, j)).present) = true by
      simpa [State.entry] using huser)]
    refine ⟨hw.dropAbsent hx.table (kNext_leaf (by have := hx.length; omega) _) ?_, Keep.refl _ _ _⟩
    unfold content
    rw [Bool.and_comm, huser]
    rfl
  | true =>
    rw [if_pos (show ((State.entry s (g, j)).usermode && (State.entry s (g, j)).present) = true from
      huser)]
    obtain ⟨huser, hpres⟩ := Bool.and_eq_true_iff.mp huser
    have hcontent : content (s.phys g j) = some ((s.phys g j).address, (s.phys g j).rw) :=
      content_eq_some.mpr ⟨hpres, huser, rfl, rfl⟩
    have hold : holding D s.phys (g, j) = some ((s.phys g j).address, (s.phys g j).rw) := by
      rw [hx.holding_eq, hcontent]
    have hlow := (hw.held _ ⟨(g, j), _, hold⟩).1
    have hother := fun hf => hG.other hw.tree hx (f := (s.phys g j).address) hf
    cases hrw : (s.phys g j).rw with
    | true =>
      rw [hrw] at hcontent hold
      have hzero : s.refs (s.phys g j).address = 0 :=
        BitVec.eq_of_toNat_eq (hw.exact.exclusive _ _ hold).1
      have hfar : (s.phys g j).address ∉ F := by
        intro hf
        obtain ⟨y, w, hne, hy⟩ := hother hf
        exact hne ((hw.exact.exclusive _ _ hold).2 y w hy)
      rw [if_pos (show (State.entry s (g, j)).rw = true from hrw),
        memFreePage_uncounted s (g, j) hzero, releasePage_eq]
      refine removed_page hw hZ hx (dropped_private hw hfar hx hcontent rfl ?_) rfl
      change L.freeBlock s.pmm (getFrame (s.phys g j)) = _
      rw [getFrame_of_lt _ (hlow.resolve_left hfar)]
    | false =>
      rw [hrw] at hcontent hold
      have hne : s.refs (s.phys g j).address ≠ 0 := by
        intro hz
        exact hw.exact.shared _ _ hold (by rw [hz]; rfl)
      rw [if_neg (show ¬ (State.entry s (g, j)).rw = true by simp [State.entry, hrw]),
        memDecrementPageReference_present s (g, j) hpres hne]
      change Meets Never (if s.refs (s.phys g j).address - 1 = 0 then _ else _) _
      by_cases hone : s.refs (s.phys g j).address = 1
      · have hfar : (s.phys g j).address ∉ F := by
          intro hf
          obtain ⟨y, w, hne', hy⟩ := hother hf
          exact hne' (hw.exact.last_holder hold (by rw [hone]; rfl) hy)
        rw [if_pos (by rw [hone]; rfl), show s.refs (State.entry s (g, j)).address = 1 from hone]
        refine removed_page hw hZ hx (dropped_last hw hfar hx hcontent hone rfl ?_)
          (congrArg State.phys hself).symm
        change L.freeBlock s.pmm (getFrame (s.phys g j)) = _
        rw [getFrame_of_lt _ (hlow.resolve_left hfar)]
      · rw [if_neg (by bv_omega)]
        exact removed_page hw hZ hx (dropped_shared hw hx hcontent hone rfl rfl)
          (congrArg State.phys hself).symm

section Loop

def Whole (D : Domain FrameNo (Fin 512)) (r : FrameNo) (p : List (Fin 512)) : Prop :=
  ∀ q, p.length + q.length ≤ 4 → D.carrier r (p ++ q)

/-- A loop over the entries `l` of the table at `p`. -/
theorem destroy_loop (hw : Formed L Y F D s) (hZ : Pins Y D Z) (hG : Guarded W D F r s.phys)
    (hp : D.carrier r p)
    (hg : tableAt kNext s.phys r p = some g) {l : List (Fin 512)} (hnodup : l.Nodup)
    (hl : ∀ i ∈ l, Whole D r (p ++ [i]))
    {body : State P → Fin 512 → Except Panic (State P)}
    (hbody : ∀ (E : Domain FrameNo (Fin 512)) t i, Formed L Y F E t → Pins Y E Z →
      Guarded W E F r t.phys → E.carrier r p → tableAt kNext t.phys r p = some g →
      Whole E r (p ++ [i]) →
      Meets Never (body t i) (Removed L Y F Z (E.without r (p ++ [i])) t)) :
    Meets Never (l.foldlM body s) (Removed L Y F Z (D.withoutEntries r p l) s) := by
  apply meets_foldlM fun pre t => Removed L Y F Z (D.withoutEntries r p pre) s t
  · rw [Domain.withoutEntries_nil]
    exact ⟨hw, Keep.refl _ _ _⟩
  rintro pre a post t rfl ⟨hwt, hkeep⟩
  have hafresh : ∀ i ∈ pre, i ≠ a := by
    rintro i hi rfl
    exact (List.nodup_append.mp hnodup).2.2 i hi i (by simp) rfl
  have hEp : (D.withoutEntries r p pre).carrier r p := by
    refine ⟨hp, fun i _ hbad => ?_⟩
    have := hbad.2.length_le
    simp at this
  have hwhole : Whole (D.withoutEntries r p pre) r (p ++ [a]) := by
    intro q hq
    refine ⟨hl a (by simp) q hq, fun i hi hbad => hafresh i hi ?_⟩
    have hpre : p ++ [i] <+: p ++ [a] := by
      refine List.prefix_of_prefix_length_le hbad.2 ?_ (by simp)
      exact List.prefix_append _ _
    simpa using hpre.eq_of_length (by simp)
  refine meets_mono (hbody _ t a hwt (hZ.withoutEntries r p pre)
    ((hG.withoutEntries p pre).keep hkeep) hEp (by rw [hkeep.tableAt hEp, hg]) hwhole) ?_
  rintro t' ⟨hwt', hkeep'⟩
  rw [Domain.withoutEntries_concat]
  exact ⟨hwt', (hkeep.mono (without_le _ r _)).trans hkeep'⟩

theorem withoutEntries_all (D : Domain FrameNo (Fin 512)) (r : FrameNo) (p : List (Fin 512)) :
    D.withoutEntries r p allIndices = D.below r p := by
  apply Domain.ext
  intro r' q
  exact ⟨fun h => ⟨h.1, fun i => h.2 i (mem_allIndices i)⟩, fun h => ⟨h.1, fun i _ => h.2 i⟩⟩

theorem destroyEntry_spec (hw : Formed L Y F D s) (hZ : Pins Y D Z)
    (hg : tableAt kNext s.phys r p = some g) (hlen : p.length < 3) (hwhole : Whole D r (p ++ [i]))
    {loop : State P → FrameNo → Except Panic (State P)}
    (hloop : ∀ h, tableAt kNext s.phys r (p ++ [i]) = some h →
      Meets Never (loop s h) (Removed L Y F Z (D.below r (p ++ [i])) s)) :
    Meets Never (destroyEntry L.toAllocator loop s (g, i))
      (Removed L Y F Z (D.without r (p ++ [i])) s) := by
  have hp : D.carrier r (p ++ [i]) := by simpa using hwhole [] (by simp; omega)
  unfold destroyEntry
  cases hpres : (s.phys g i).present with
  | false =>
    rw [if_pos (show (!(State.entry s (g, i)).present) = true by simp [State.entry, hpres])]
    refine ⟨hw.dropAbsent hg ?_ (content_of_absent hpres), Keep.refl _ _ _⟩
    apply kNext_of_not_follow
    simp [follow, hpres]
  | true =>
    rw [if_neg (show ¬ (!(State.entry s (g, i)).present) = true by simp [State.entry, hpres])]
    have hlinked := hw.linked r p i g hp hlen hg hpres
    have hat : tableAt kNext s.phys r (p ++ [i]) = some (s.phys g i).address := by
      rw [tableAt, walk_concat, show walk kNext s.phys 0 r p = some g from hg]
      simpa using hlinked
    rw [show State.entry s (g, i) = s.phys g i from rfl, (physFrame_of_kNext hlinked).2]
    change Meets Never (loop s (s.phys g i).address >>= _) _
    refine meets_bind (hloop _ hat) ?_
    rintro t ⟨hwt, hkeep⟩
    have hEp : (D.below r (p ++ [i])).carrier r (p ++ [i]) := by
      refine ⟨hp, fun k hbad => ?_⟩
      have := hbad.2.length_le
      simp at this
    have hgt : tableAt kNext t.phys r p = some g := by
      rw [hkeep.tableAt ((D.below r (p ++ [i])).closed r p [i] hEp), hg]
    have haddr : (t.phys g i).address = (s.phys g i).address :=
      (hkeep.entries r p i g hEp hg).address_eq
    have hht : tableAt kNext t.phys r (p ++ [i]) = some (t.phys g i).address := by
      rw [hkeep.tableAt hEp, hat, haddr]
    have htable : IsTable (D.below r (p ++ [i])) kNext t.phys (t.phys g i).address :=
      ⟨r, p ++ [i], hEp, hht⟩
    have hlow := (hwt.table _ htable).1
    obtain ⟨hvalid, hused⟩ := L.free_spec t.pmm _ hwt.valid
      ((hwt.used _).mpr (Or.inr (Or.inl htable))) hlow
    let e : Entry := { t.phys g i with present := false }
    let t' := freeFrame L.toAllocator (t.setEntry g i e) (getFrame (t.phys g i))
    have ht' : freeFrame L.toAllocator (State.setSlot t (g, i)
        { State.entry t (g, i) with present := false })
        (getFrame (State.entry (State.setSlot t (g, i)
          { State.entry t (g, i) with present := false }) (g, i))) = t' := by
      simp only [State.setSlot, State.entry, State.setEntry_phys_self, t', e]
      rfl
    change Removed L Y F Z (D.without r (p ++ [i])) s (freeFrame L.toAllocator _ _)
    rw [ht', ← Domain.below_without]
    have hphys : t'.phys = (t.setEntry g i e).phys := rfl
    have c := change_of_setEntry t' hwt hEp hgt hphys
    obtain ⟨hframes, hpinned⟩ := frames_of_setEntry hwt (hZ.below r _) hEp hgt hphys
    have hkeep' : Keep Z ((D.below r (p ++ [i])).without r (p ++ [i])) t.phys t'.phys :=
      Keep.of_change c hframes hpinned
    refine ⟨?_, (hkeep.mono (without_le _ r _)).trans hkeep'⟩
    refine hwt.dropTable hEp (by simp; omega) ?_ hht ?_ ?_ rfl ?_
    · rintro k q ⟨-, hbad⟩
      exact hbad k ⟨rfl, List.prefix_append _ _⟩
    · intro r' q k g' hq hg'
      apply c.agree g' k ⟨r', q, Domain.closed _ r' q [k] hq.1, hg'⟩
      by_contra hnot
      obtain ⟨rfl, rfl⟩ := not_or.mp hnot |>.imp not_not.mp not_not.mp
      obtain ⟨rfl, rfl⟩ := hwt.tree r' q r p g' (Domain.closed _ r' q [k] hq.1) c.position hg' hgt
      exact hq.2 ⟨rfl, List.prefix_rfl⟩
    · change L.valid (L.freeBlock t.pmm (getFrame (t.phys g i)))
      rwa [getFrame_of_lt _ hlow]
    · change L.used (L.freeBlock t.pmm (getFrame (t.phys g i))) = _
      rwa [getFrame_of_lt _ hlow]

theorem destroyTable_spec (n : ℕ) {D : Domain FrameNo (Fin 512)} {p : List (Fin 512)}
    {s : State P} {g : FrameNo} (hw : Formed L Y F D s) (hZ : Pins Y D Z)
    (hG : Guarded W D F r s.phys) (hlen : p.length + n = 3) (hwhole : Whole D r p)
    (hg : tableAt kNext s.phys r p = some g) :
    Meets Never (destroyTable L.toAllocator n s g) (Removed L Y F Z (D.below r p) s) := by
  have hp : D.carrier r p := by simpa using hwhole [] (by simp; omega)
  have hl : ∀ i ∈ allIndices, Whole D r (p ++ [i]) := by
    intro i _ q hq
    rw [List.append_assoc]
    apply hwhole
    simp only [List.length_append, List.length_cons, List.length_nil] at hq ⊢
    omega
  rw [← withoutEntries_all]
  induction n generalizing D p s g with
  | zero =>
    rw [destroyTable]
    refine destroy_loop hw hZ hG hp hg nodup_allIndices hl ?_
    intro E t i hwt hZt hGt _ hgt hwh
    refine destroyPage_spec hwt hZt hGt ⟨?_, hlen, hgt⟩
    simpa using hwh [] (by simp; omega)
  | succ n ih =>
    rw [destroyTable]
    refine destroy_loop hw hZ hG hp hg nodup_allIndices hl ?_
    intro E t i hwt hZt hGt _ hgt hwh
    refine destroyEntry_spec hwt hZt hgt (by omega) hwh ?_
    intro h' hh'
    rw [← withoutEntries_all]
    refine ih hwt hZt hGt (by simp; omega) hwh hh' ?_ ?_
    · simpa using hwh [] (by simp; omega)
    · intro k _ q hq
      rw [List.append_assoc]
      apply hwh
      simp only [List.length_append, List.length_cons, List.length_nil] at hq ⊢
      omega

end Loop

/-- `mem_destroyVAS` never panics, takes the directory away and keeps all others. -/
theorem memDestroyVAS_guarded {live : Set FrameNo} (hw : Formed L Y F (lower live) s)
    (hZ : Pins Y (lower live) Z) {vas : FrameNo} (hvas : vas ∈ live)
    (hG : Guarded W (lower live) F vas s.phys) :
    Meets Never (memDestroyVAS L.toAllocator s vas)
      (Removed L Y F Z (lower (live \ {vas})) s) := by
  have hroot : (lower live).carrier vas [] := ⟨hvas, by simp, by simp⟩
  have hwhole : ∀ i ∈ lowerHalf, Whole (lower live) vas ([] ++ [i]) := by
    intro i hi q hq
    refine ⟨hvas, ?_, by simpa using mem_lowerHalf.mp hi⟩
    rw [List.length_append]
    exact hq
  unfold memDestroyVAS
  have hloop : Meets Never (lowerHalf.foldlM (fun s i =>
      destroyEntry L.toAllocator (destroyTable L.toAllocator 2) s (vas, i)) s)
      (Removed L Y F Z ((lower live).withoutEntries vas [] lowerHalf) s) := by
    refine destroy_loop hw hZ hG hroot rfl nodup_lowerHalf hwhole ?_
    intro E t i hwt hZt hGt _ hgt hwh
    refine destroyEntry_spec hwt hZt hgt (by simp) hwh ?_
    intro h' hh'
    exact destroyTable_spec 2 hwt hZt hGt (by simp) hwh hh'
  refine meets_bind hloop ?_
  rintro t ⟨hwt, hkeep⟩
  have hE : ((lower live).withoutEntries vas [] lowerHalf).without vas [] =
      lower (live \ {vas}) := by
    apply Domain.ext
    intro r q
    constructor
    · rintro ⟨⟨⟨hr, hq⟩, -⟩, hne⟩
      exact ⟨⟨hr, fun heq => hne ⟨heq, List.nil_prefix⟩⟩, hq⟩
    · rintro ⟨⟨hr, hne⟩, hq⟩
      exact ⟨⟨⟨hr, hq⟩, fun i _ hbad => hne hbad.1⟩, fun hbad => hne hbad.1⟩
  have hEroot : ((lower live).withoutEntries vas [] lowerHalf).carrier vas [] := by
    refine ⟨hroot, fun i _ hbad => ?_⟩
    simpa using List.prefix_nil.mp hbad.2
  have htable : IsTable ((lower live).withoutEntries vas [] lowerHalf) kNext t.phys vas :=
    ⟨vas, [], hEroot, rfl⟩
  have hlow := (hwt.table vas htable).1
  obtain ⟨hvalid, hused⟩ := L.free_spec t.pmm vas hwt.valid
    ((hwt.used vas).mpr (Or.inr (Or.inl htable))) hlow
  have haddr : memRemapPhys (frameAddr vas) &&& ~~~physmemMapRegion = frameAddr vas := by
    apply memRemapPhys_and_not
    rw [frameAddr_toNat]
    omega
  change Removed L Y F Z (lower (live \ {vas})) s (freeFrame L.toAllocator t _)
  rw [haddr, ← hE]
  refine ⟨?_, hkeep.mono (without_le _ vas _)⟩
  refine hwt.dropTable hEroot (by simp) ?_ rfl (fun _ _ _ _ _ _ => rfl) hvalid rfl hused
  rintro i q ⟨hq, hbad⟩
  refine hbad i (mem_lowerHalf.mpr ?_) ⟨rfl, List.prefix_append _ _⟩
  exact hq.2.2 i (by simp)

theorem guarded_empty (D : Domain FrameNo (Fin 512)) (r : FrameNo) (mem : FrameNo → Frame) :
    Guarded (D.without r []) D ∅ r mem :=
  ⟨fun _ hq => hq.2 ⟨rfl, List.nil_prefix⟩, without_le D r [], fun _ hf => hf.elim⟩

theorem memDestroyVAS_spec {live : Set FrameNo} (hw : Wf L Y (lower live) s)
    (hZ : Pins Y (lower live) Z) {vas : FrameNo} (hvas : vas ∈ live) :
    Meets Never (memDestroyVAS L.toAllocator s vas)
      (Removed L Y ∅ Z (lower (live \ {vas})) s) :=
  memDestroyVAS_guarded hw hZ hvas (guarded_empty _ _ _)

end ReduceOS.Destroy
