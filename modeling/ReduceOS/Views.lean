import ReduceOS.SharedPages

/-!
What an address space shows its owner: at each page position the contents of the
frame mapped there, if the page is open to user code. Kernel operations may change
how a page is mapped, but `Keep` says that the positions of a domain go on mapping
the same frames with the same contents.
-/
namespace ReduceOS.Views

open Machine Page Physical Paging TableTree PageMap Sharing SharedPages

def entryAt (mem : FrameNo → Frame) (r : FrameNo) (q : List (Fin 512)) : Option Entry :=
  q.getLast?.bind fun j => (tableAt kNext mem r q.dropLast).map fun g => mem g j

def view (mem : FrameNo → Frame) (r : FrameNo) (q : List (Fin 512)) : Option Frame :=
  (entryAt mem r q).bind fun e => (content e).map fun c => mem c.1

variable {D E : Domain FrameNo (Fin 512)} {mem mem' mem'' : FrameNo → Frame} {r g h : FrameNo}
  {p q : List (Fin 512)} {i j : Fin 512} {f : FrameNo} {Z : Set Slot}

theorem entryAt_concat (mem : FrameNo → Frame) (r : FrameNo) (p : List (Fin 512)) (j : Fin 512) :
    entryAt mem r (p ++ [j]) = (tableAt kNext mem r p).map fun g => mem g j := by
  simp [entryAt]

theorem entryAt_of_table (hg : tableAt kNext mem r p = some g) (j : Fin 512) :
    entryAt mem r (p ++ [j]) = some (mem g j) := by
  rw [entryAt_concat, hg]
  rfl

theorem view_of_table (hg : tableAt kNext mem r p = some g) (j : Fin 512) :
    view mem r (p ++ [j]) = (content (mem g j)).map fun c => mem c.1 := by
  rw [view, entryAt_of_table hg]
  rfl

theorem view_of_no_table (hg : tableAt kNext mem r p = none) (j : Fin 512) :
    view mem r (p ++ [j]) = none := by
  rw [view, entryAt_concat, hg]
  rfl

/-- Nothing is seen below an entry that leads nowhere. -/
theorem view_none_below (hpq : p ++ [i] <+: q)
    (hg : tableAt kNext mem r p = some g) (hnext : kNext p.length (mem g i) = none)
    (hcontent : content (mem g i) = none) : view mem r q = none := by
  obtain ⟨q', rfl⟩ := hpq
  rcases List.eq_nil_or_concat' q' with rfl | ⟨q'', k, rfl⟩
  · rw [List.append_nil, view_of_table hg, hcontent]
    rfl
  · rw [← List.append_assoc]
    exact view_of_no_table (tableAt_none_of_next hg hnext q'') k

def SameMapping (e e' : Entry) : Prop := e' = { e with rw := e'.rw, cow := e'.cow }

theorem SameMapping.refl (e : Entry) : SameMapping e e := rfl

theorem SameMapping.trans {e e' e'' : Entry} (h : SameMapping e e') (h' : SameMapping e' e'') :
    SameMapping e e'' := by
  unfold SameMapping at h h' ⊢
  rw [h', h]

theorem SameMapping.kNext_eq {e e' : Entry} (h : SameMapping e e') (d : ℕ) :
    kNext d e' = kNext d e := by
  rw [h]
  rfl

theorem SameMapping.present_eq {e e' : Entry} (h : SameMapping e e') :
    e'.present = e.present := by
  rw [h]

theorem SameMapping.usermode_eq {e e' : Entry} (h : SameMapping e e') :
    e'.usermode = e.usermode := by
  rw [h]

theorem SameMapping.address_eq {e e' : Entry} (h : SameMapping e e') :
    e'.address = e.address := by
  rw [h]

theorem SameMapping.frame_eq {e e' : Entry} (h : SameMapping e e') :
    (content e').map Prod.fst = (content e).map Prod.fst := by
  unfold content
  rw [h.present_eq, h.usermode_eq, h.address_eq]
  split_ifs <;> rfl

/-- The positions of `E` map the frames they mapped, these frames keep their contents,
and the words of `Z` are untouched. -/
structure Keep (Z : Set Slot) (E : Domain FrameNo (Fin 512)) (mem mem' : FrameNo → Frame) :
    Prop where
  entries : ∀ r p j g, E.carrier r (p ++ [j]) → tableAt kNext mem r p = some g →
    SameMapping (mem g j) (mem' g j)
  frames : ∀ f, Held (holding E mem) f → mem' f = mem f
  pinned : ∀ x ∈ Z, mem' x.1 x.2 = mem x.1 x.2

namespace Keep

theorem tableAt (hk : Keep Z E mem mem') (hp : E.carrier r p) :
    TableTree.tableAt kNext mem' r p = TableTree.tableAt kNext mem r p :=
  Agree.tableAt (fun r p i g hp hg => (hk.entries r p i g hp hg).kNext_eq p.length) hp

theorem refl (Z : Set Slot) (E : Domain FrameNo (Fin 512)) (mem : FrameNo → Frame) :
    Keep Z E mem mem :=
  ⟨fun _ _ _ _ _ _ => SameMapping.refl _, fun _ _ => rfl, fun _ _ => rfl⟩

theorem held_iff (hk : Keep Z E mem mem') (f : FrameNo) :
    Held (holding E mem') f ↔ Held (holding E mem) f := by
  have hslot : ∀ x, PageSlot E mem' x ↔ PageSlot E mem x :=
    pageSlot_congr fun r p hp => hk.tableAt hp
  have hframe : ∀ x, PageSlot E mem x →
      (content (mem' x.1 x.2)).map Prod.fst = (content (mem x.1 x.2)).map Prod.fst := by
    rintro x ⟨r, p, hp, -, hg⟩
    exact (hk.entries r p x.2 x.1 hp hg).frame_eq
  have key : ∀ x, PageSlot E mem x → ∀ e, (∃ w, content e = some (f, w)) ↔
      (content e).map Prod.fst = some f := by
    intro x _ e
    rw [Option.map_eq_some_iff]
    constructor
    · rintro ⟨w, hw⟩
      exact ⟨(f, w), hw, rfl⟩
    · rintro ⟨⟨f', w⟩, hw, rfl⟩
      exact ⟨w, hw⟩
  constructor
  · rintro ⟨x, w, hx⟩
    obtain ⟨hx, hc⟩ := holding_eq_some.mp hx
    have hx := (hslot x).mp hx
    obtain ⟨w', hw'⟩ := (key x hx _).mpr ((hframe x hx).symm.trans ((key x hx _).mp ⟨w, hc⟩))
    exact ⟨x, w', holding_eq_some.mpr ⟨hx, hw'⟩⟩
  · rintro ⟨x, w, hx⟩
    obtain ⟨hx, hc⟩ := holding_eq_some.mp hx
    obtain ⟨w', hw'⟩ := (key x hx _).mpr ((hframe x hx).trans ((key x hx _).mp ⟨w, hc⟩))
    exact ⟨x, w', holding_eq_some.mpr ⟨(hslot x).mpr hx, hw'⟩⟩

theorem trans (hk : Keep Z E mem mem') (hk' : Keep Z E mem' mem'') : Keep Z E mem mem'' := by
  refine ⟨?_, ?_, ?_⟩
  · intro r p j g hp hg
    have hg' : TableTree.tableAt kNext mem' r p = some g := by
      rw [hk.tableAt (E.closed r p [j] hp), hg]
    exact (hk.entries r p j g hp hg).trans (hk'.entries r p j g hp hg')
  · intro f hf
    rw [hk'.frames f ((hk.held_iff f).mpr hf), hk.frames f hf]
  · intro x hx
    rw [hk'.pinned x hx, hk.pinned x hx]

theorem mono (hk : Keep Z D mem mem') (hED : ∀ r p, E.carrier r p → D.carrier r p) :
    Keep Z E mem mem' :=
  ⟨fun r p j g hp hg => hk.entries r p j g (hED _ _ hp) hg,
    fun f hf => hk.frames f (held_mono hED hf), hk.pinned⟩

theorem view (hk : Keep Z E mem mem') (hq : E.carrier r q) (hlen : q.length = 4) :
    view mem' r q = view mem r q := by
  rcases List.eq_nil_or_concat' q with rfl | ⟨p, j, rfl⟩
  · simp at hlen
  · have hlen : p.length = 3 := by simpa using hlen
    have hsame := hk.tableAt (E.closed r p [j] hq)
    cases hg : TableTree.tableAt kNext mem r p with
    | none => rw [view_of_no_table hg, view_of_no_table (hsame.trans hg)]
    | some g =>
      rw [view_of_table hg, view_of_table (hsame.trans hg)]
      have hmap := hk.entries r p j g hq hg
      cases hc : content (mem g j) with
      | none =>
        have := hmap.frame_eq
        rw [hc] at this
        rw [Option.map_eq_none_iff.mp this]
        rfl
      | some c =>
        obtain ⟨f, w⟩ := c
        have hheld : Held (holding E mem) f :=
          ⟨(g, j), w, holding_eq_some.mpr ⟨⟨r, p, hq, hlen, hg⟩, hc⟩⟩
        have hfst := hmap.frame_eq
        rw [hc] at hfst
        obtain ⟨⟨f', w'⟩, hc', hf'⟩ := Option.map_eq_some_iff.mp hfst
        obtain rfl : f' = f := hf'
        rw [hc']
        exact congrArg some (hk.frames f' hheld)

theorem of_change (c : EntryChange D kNext mem mem' r p g i)
    (hframes : ∀ f, Held (holding D mem) f → mem' f = mem f)
    (hZ : ∀ x ∈ Z, mem' x.1 x.2 = mem x.1 x.2) :
    Keep Z (D.without r (p ++ [i])) mem mem' := by
  refine ⟨?_, fun f hf => hframes f (held_mono (without_le D r _) hf), hZ⟩
  intro r' q j g' hq hg'
  have hDq := D.closed r' q [j] hq.1
  rw [c.agree g' j ⟨r', q, hDq, hg'⟩]
  · exact SameMapping.refl _
  · by_contra hnot
    obtain ⟨rfl, rfl⟩ := not_or.mp hnot |>.imp not_not.mp not_not.mp
    obtain ⟨rfl, rfl⟩ := c.tree r' q r p g' hDq c.position hg' c.cell
    exact hq.2 ⟨rfl, List.prefix_rfl⟩

/-- Changing the permissions of one entry keeps every position. -/
theorem of_permission (c : EntryChange D kNext mem mem' r p g i)
    (hsame : SameMapping (mem g i) (mem' g i))
    (hframes : ∀ f, Held (holding D mem) f → mem' f = mem f)
    (hZ : ∀ x ∈ Z, mem' x.1 x.2 = mem x.1 x.2) :
    Keep Z D mem mem' := by
  refine ⟨?_, hframes, hZ⟩
  intro r' q j g' hq hg'
  by_cases heq : g' = g ∧ j = i
  · obtain ⟨rfl, rfl⟩ := heq
    exact hsame
  · rw [c.agree g' j ⟨r', q, D.closed r' q [j] hq, hg'⟩ (by tauto)]
    exact SameMapping.refl _

end Keep

def Pins (Y : Layout) (D : Domain FrameNo (Fin 512)) (Z : Set Slot) : Prop :=
  ∀ x ∈ Z, x.1 ∈ Y.reserved ∨ (D.carrier x.1 [] ∧ ¬ D.carrier x.1 [x.2])

namespace Pins

variable {P : Type} {L : LawfulAllocator P} {Y : Layout} {F : Set FrameNo} {s : State P} {x : Slot}

theorem ne_fresh (hZ : Pins Y D Z) (hw : Formed L Y F D s) (hx : x ∈ Z) (hf : f ∉ L.used s.pmm) :
    x.1 ≠ f := by
  rintro rfl
  rw [hw.used] at hf
  rcases hZ x hx with hres | ⟨hroot, -⟩
  · exact hf (Or.inl hres)
  · exact hf (Or.inr (Or.inl ⟨x.1, [], hroot, rfl⟩))

theorem ne_entry (hZ : Pins Y D Z) (hw : Formed L Y F D s) (hx : x ∈ Z)
    (hp : D.carrier r (p ++ [i])) (hg : tableAt kNext s.phys r p = some g) : x ≠ (g, i) := by
  rintro rfl
  have hDp := D.closed r p [i] hp
  rcases hZ _ hx with hres | ⟨hroot, hoff⟩
  · exact (hw.table g ⟨r, p, hDp, hg⟩).2.1 hres
  · obtain ⟨rfl, rfl⟩ := hw.tree r p g [] g hDp hroot hg rfl
    exact hoff hp

theorem withoutEntries (hZ : Pins Y D Z) (r : FrameNo) (p l : List (Fin 512)) :
    Pins Y (D.withoutEntries r p l) Z := by
  intro x hx
  refine (hZ x hx).imp id fun hroot => ⟨⟨hroot.1, ?_⟩, fun hbad => hroot.2 hbad.1⟩
  rintro i - ⟨-, hpre⟩
  simpa using List.prefix_nil.mp hpre

theorem below (hZ : Pins Y D Z) (r : FrameNo) (p : List (Fin 512)) :
    Pins Y (D.below r p) Z := by
  intro x hx
  refine (hZ x hx).imp id fun hroot => ⟨⟨hroot.1, ?_⟩, fun hbad => hroot.2 hbad.1⟩
  rintro i ⟨-, hpre⟩
  simpa using List.prefix_nil.mp hpre

end Pins

end ReduceOS.Views
