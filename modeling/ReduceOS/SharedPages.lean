import ReduceOS.AddressSpace
import ReduceOS.PageMap
import ReduceOS.Sharing

/-!
The pages of all address spaces and the frames they share. The page entries reached
from the live directories are the slots of a sharing scheme, and `Wf` is the state of
the memory code between two operations: the tables form a tree, the reference counts
are exact, and the allocator's used frames are the tables, the mapped frames and a
fixed reserve. Each lemma here is one small step of the code seen through `Wf`.
-/
namespace ReduceOS.SharedPages

open Machine Page Physical Paging Outcome TableTree PageMap Sharing

def content (e : Entry) : Option (FrameNo × Bool) :=
  if e.present && e.usermode then some (e.address, e.rw) else none

theorem content_eq_some {e : Entry} {f : FrameNo} {w : Bool} :
    content e = some (f, w) ↔
      e.present = true ∧ e.usermode = true ∧ e.address = f ∧ e.rw = w := by
  unfold content
  split_ifs with h
  · obtain ⟨hpres, huser⟩ := Bool.and_eq_true_iff.mp h
    simp [hpres, huser]
  · simp only [Bool.and_eq_true] at h
    constructor
    · intro hbad
      contradiction
    · rintro ⟨hpres, huser, -⟩
      exact absurd ⟨hpres, huser⟩ h

@[simp] theorem content_zero : content Entry.zero = none := rfl

theorem content_of_absent {e : Entry} (h : e.present = false) : content e = none := by
  simp [content, h]

def PageSlot (D : Domain FrameNo (Fin 512)) (mem : FrameNo → Frame) (x : Slot) : Prop :=
  ∃ r p, D.carrier r (p ++ [x.2]) ∧ p.length = 3 ∧ tableAt kNext mem r p = some x.1

open Classical in
noncomputable def holding (D : Domain FrameNo (Fin 512)) (mem : FrameNo → Frame) :
    Holding Slot FrameNo :=
  fun x => if PageSlot D mem x then content (mem x.1 x.2) else none

variable {D : Domain FrameNo (Fin 512)} {mem mem' : FrameNo → Frame} {r g h : FrameNo}
  {p : List (Fin 512)} {i j : Fin 512} {x : Slot} {f : FrameNo} {w : Bool}

theorem holding_of_pageSlot (hx : PageSlot D mem x) : holding D mem x = content (mem x.1 x.2) :=
  if_pos hx

theorem holding_of_not_pageSlot (hx : ¬ PageSlot D mem x) : holding D mem x = none :=
  if_neg hx

theorem holding_eq_some :
    holding D mem x = some (f, w) ↔ PageSlot D mem x ∧ content (mem x.1 x.2) = some (f, w) := by
  unfold holding
  split_ifs with hx
  · simp [hx]
  · simp [hx]

theorem PageSlot.isTable (hx : PageSlot D mem x) : IsTable D kNext mem x.1 := by
  obtain ⟨r, p, hp, -, hg⟩ := hx
  exact ⟨r, p, D.closed r p [x.2] hp, hg⟩

/-- Page slots only depend on where the walks lead. -/
theorem pageSlot_congr
    (hsame : ∀ r p, D.carrier r p → tableAt kNext mem' r p = tableAt kNext mem r p) (x : Slot) :
    PageSlot D mem' x ↔ PageSlot D mem x := by
  constructor
  · rintro ⟨r, p, hp, hlen, hg⟩
    exact ⟨r, p, hp, hlen, by rwa [hsame r p (D.closed r p [x.2] hp)] at hg⟩
  · rintro ⟨r, p, hp, hlen, hg⟩
    exact ⟨r, p, hp, hlen, by rwa [hsame r p (D.closed r p [x.2] hp)]⟩

theorem isTable_congr
    (hsame : ∀ r p, D.carrier r p → tableAt kNext mem' r p = tableAt kNext mem r p)
    (f : FrameNo) : IsTable D kNext mem' f ↔ IsTable D kNext mem f := by
  constructor
  · rintro ⟨r, p, hp, hf⟩
    exact ⟨r, p, hp, by rwa [hsame r p hp] at hf⟩
  · rintro ⟨r, p, hp, hf⟩
    exact ⟨r, p, hp, by rwa [hsame r p hp]⟩

/-- Writing one page entry updates what that slot holds. -/
theorem holding_leaf (c : EntryChange D kNext mem mem' r p g j) (hlen : p.length = 3)
    (hp : D.carrier r (p ++ [j])) :
    holding D mem' = Function.update (holding D mem) (g, j) (content (mem' g j)) := by
  have hsame := (leaf_change c hlen).1
  funext x
  by_cases hx : x = (g, j)
  · subst hx
    rw [Function.update_self, holding_of_pageSlot]
    exact (pageSlot_congr hsame _).mpr ⟨r, p, hp, hlen, c.cell⟩
  · rw [Function.update_of_ne hx]
    by_cases hslot : PageSlot D mem x
    · rw [holding_of_pageSlot hslot, holding_of_pageSlot ((pageSlot_congr hsame x).mpr hslot),
        c.agree x.1 x.2 hslot.isTable]
      by_contra hnot
      obtain ⟨h1, h2⟩ := not_or.mp hnot |>.imp not_not.mp not_not.mp
      exact hx (Prod.ext h1 h2)
    · rw [holding_of_not_pageSlot hslot,
        holding_of_not_pageSlot fun hbad => hslot ((pageSlot_congr hsame x).mp hbad)]

theorem holding_newTable (hnew : NewTable D mem mem' r p i g h)
    (hfresh : ¬ IsTable D kNext mem h) : holding D mem' = holding D mem := by
  funext x
  by_cases hx : PageSlot D mem' x
  · rw [holding_of_pageSlot hx]
    obtain ⟨r', q, hq, hlen, hg⟩ := id hx
    rcases hnew.extension.entry r' q x.2 x.1 hq hg with ⟨hg', heq⟩ | ⟨hnone, hzero⟩ | ⟨h', hh'⟩
    · rw [holding_of_pageSlot ⟨r', q, hq, hlen, hg'⟩, heq]
    · rw [hzero, content_zero]
      rw [holding_of_not_pageSlot]
      intro hold
      rcases hnew.tables hx.isTable with hh | hh
      · exact hfresh (hh ▸ hold.isTable)
      · -- the slot was there before, but at another position
        obtain ⟨r'', q', hq', hlen', hg'⟩ := hold
        have hg'' := hnew.extension.table r'' q' x.1 (D.closed r'' q' [x.2] hq') hg'
        obtain ⟨rfl, rfl⟩ := hnew.tree r' q r'' q' x.1 (D.closed r' q [x.2] hq)
          (D.closed r'' q' [x.2] hq') hg hg''
        exact absurd (hg'.symm.trans hnone) (Option.some_ne_none _)
    · exact absurd (hh'.symm.trans (kNext_leaf (by omega) _)) (Option.some_ne_none _)
  · rw [holding_of_not_pageSlot hx, holding_of_not_pageSlot]
    rintro ⟨r', q, hq, hlen, hg⟩
    exact hx ⟨r', q, hq, hlen, hnew.extension.table r' q x.1 (D.closed r' q [x.2] hq) hg⟩

/-- `mem'` reads the same as `mem` at every entry of the domain. -/
def SameEntries (E : Domain FrameNo (Fin 512)) (mem mem' : FrameNo → Frame) : Prop :=
  ∀ r p i g, E.carrier r (p ++ [i]) → tableAt kNext mem r p = some g → mem' g i = mem g i

theorem SameEntries.tableAt (hs : SameEntries D mem mem') (hp : D.carrier r p) :
    TableTree.tableAt kNext mem' r p = TableTree.tableAt kNext mem r p :=
  Agree.tableAt (fun r p i g hp hg => by rw [hs r p i g hp hg]) hp

theorem holding_sameEntries (hs : SameEntries D mem mem') : holding D mem' = holding D mem := by
  funext x
  have hiff := pageSlot_congr (fun r p hp => hs.tableAt hp) x
  by_cases hslot : PageSlot D mem x
  · rw [holding_of_pageSlot hslot, holding_of_pageSlot (hiff.mpr hslot)]
    obtain ⟨r, p, hp, -, hg⟩ := hslot
    rw [hs r p x.2 x.1 hp hg]
  · rw [holding_of_not_pageSlot hslot,
      holding_of_not_pageSlot fun hbad => hslot (hiff.mp hbad)]

section Shrink

variable {E : Domain FrameNo (Fin 512)}

theorem PageSlot.mono (hED : ∀ r p, E.carrier r p → D.carrier r p) (hx : PageSlot E mem x) :
    PageSlot D mem x := by
  obtain ⟨r, p, hp, hlen, hg⟩ := hx
  exact ⟨r, p, hED _ _ hp, hlen, hg⟩

theorem isTable_mono (hED : ∀ r p, E.carrier r p → D.carrier r p)
    (hf : IsTable E kNext mem f) : IsTable D kNext mem f := by
  obtain ⟨r, p, hp, hf⟩ := hf
  exact ⟨r, p, hED _ _ hp, hf⟩

theorem held_mono (hED : ∀ r p, E.carrier r p → D.carrier r p)
    (hf : Held (holding E mem) f) : Held (holding D mem) f := by
  obtain ⟨x, w, hx⟩ := hf
  obtain ⟨hslot, hcontent⟩ := holding_eq_some.mp hx
  exact ⟨x, w, holding_eq_some.mpr ⟨hslot.mono hED, hcontent⟩⟩

theorem without_le (D : Domain FrameNo (Fin 512)) (r : FrameNo) (p : List (Fin 512)) :
    ∀ r' q, (D.without r p).carrier r' q → D.carrier r' q := fun _ _ h => h.1

/-- Taking a page position out of the domain empties its slot. -/
theorem holding_without_page (htree : Tree D kNext mem) (hp : D.carrier r (p ++ [j]))
    (hlen : p.length = 3) (hg : tableAt kNext mem r p = some g) :
    holding (D.without r (p ++ [j])) mem = Function.update (holding D mem) (g, j) none := by
  funext x
  by_cases hx : x = (g, j)
  · subst hx
    rw [Function.update_self, holding_of_not_pageSlot]
    rintro ⟨r', q, hq, -, hg'⟩
    obtain ⟨rfl, rfl⟩ := htree r' q r p g (D.closed r' q [j] hq.1) (D.closed r p [j] hp) hg' hg
    exact hq.2 ⟨rfl, List.prefix_rfl⟩
  · rw [Function.update_of_ne hx]
    have hiff : PageSlot (D.without r (p ++ [j])) mem x ↔ PageSlot D mem x := by
      refine ⟨PageSlot.mono (without_le D r _), ?_⟩
      rintro ⟨r', q, hq, hq3, hg'⟩
      refine ⟨r', q, ⟨hq, ?_⟩, hq3, hg'⟩
      rintro ⟨rfl, hpre⟩
      have heq : p ++ [j] = q ++ [x.2] := hpre.eq_of_length (by simp [hlen, hq3])
      obtain ⟨rfl, hj⟩ := List.append_inj heq (by omega)
      rw [hg] at hg'
      apply hx
      ext1
      · exact (Option.some.inj hg').symm
      · simpa using hj.symm
    by_cases hslot : PageSlot D mem x
    · rw [holding_of_pageSlot hslot, holding_of_pageSlot (hiff.mpr hslot)]
    · rw [holding_of_not_pageSlot hslot,
        holding_of_not_pageSlot fun hbad => hslot (hiff.mp hbad)]

theorem isTable_without_page (hlen : p.length = 3) (hg : tableAt kNext mem r p = some g) :
    IsTable (D.without r (p ++ [j])) kNext mem f ↔ IsTable D kNext mem f := by
  refine ⟨isTable_mono (without_le D r _), ?_⟩
  rintro ⟨r', q, hq, hf⟩
  refine ⟨r', q, ⟨hq, ?_⟩, hf⟩
  rintro ⟨rfl, q', rfl⟩
  have := tableAt_none_of_next hg (i := j) (kNext_leaf (by omega) _) q'
  exact absurd (hf.symm.trans this) (Option.some_ne_none _)

/-- With nothing left below it, taking a table out empties no slot. -/
theorem holding_without_table (mem : FrameNo → Frame) (hlen : p.length ≤ 3)
    (hbare : ∀ i q, ¬ D.carrier r (p ++ [i] ++ q)) :
    holding (D.without r p) mem = holding D mem := by
  funext x
  have hiff : PageSlot (D.without r p) mem x ↔ PageSlot D mem x := by
    refine ⟨PageSlot.mono (without_le D r _), ?_⟩
    rintro ⟨r', q, hq, hq3, hg'⟩
    refine ⟨r', q, ⟨hq, ?_⟩, hq3, hg'⟩
    rintro ⟨rfl, q', hpre⟩
    cases q' with
    | nil =>
      have := congrArg List.length hpre
      simp only [List.append_nil, List.length_append, List.length_cons, List.length_nil] at this
      omega
    | cons k q' => exact hbare k q' (by rw [← hpre] at hq; simpa using hq)
  by_cases hslot : PageSlot D mem x
  · rw [holding_of_pageSlot hslot, holding_of_pageSlot (hiff.mpr hslot)]
  · rw [holding_of_not_pageSlot hslot,
      holding_of_not_pageSlot fun hbad => hslot (hiff.mp hbad)]

theorem isTable_without_table (htree : Tree D kNext mem) (hp : D.carrier r p)
    (hbare : ∀ i q, ¬ D.carrier r (p ++ [i] ++ q)) (hh : tableAt kNext mem r p = some h) :
    IsTable (D.without r p) kNext mem f ↔ IsTable D kNext mem f ∧ f ≠ h := by
  constructor
  · intro hf
    refine ⟨isTable_mono (without_le D r _) hf, ?_⟩
    rintro rfl
    obtain ⟨r', q, hq, hf⟩ := hf
    obtain ⟨rfl, rfl⟩ := htree r' q r p f hq.1 hp hf hh
    exact hq.2 ⟨rfl, List.prefix_rfl⟩
  · rintro ⟨⟨r', q, hq, hf⟩, hne⟩
    refine ⟨r', q, ⟨hq, ?_⟩, hf⟩
    rintro ⟨rfl, q', rfl⟩
    cases q' with
    | nil =>
      rw [List.append_nil, hh] at hf
      exact hne (Option.some.inj hf).symm
    | cons k q' => exact hbare k q' (by simpa using hq)

end Shrink

structure Layout where
  /-- in use for anything else -/
  reserved : Set FrameNo
  /-- reserved frames whose reference count is not looked at -/
  uncounted : Set FrameNo
  /-- frames that entries closed to user code may map -/
  kernel : Set FrameNo
  /-- whether absent table entries may have their size bit set -/
  stale : Prop
  uncounted_reserved : uncounted ⊆ reserved

/-- An entry of depth `d`: if present it leads to the table it names. -/
structure SoundEntry (Y : Layout) (d : ℕ) (e : Entry) : Prop where
  link : e.present = true → kNext d e = some e.address
  small : ¬ Y.stale → d ≠ 0 → e.size = false

theorem soundEntry_zero (Y : Layout) (d : ℕ) : SoundEntry Y d Entry.zero :=
  ⟨fun hpres => absurd hpres Bool.false_ne_true, fun _ _ => rfl⟩

theorem soundEntry_of_kNext (Y : Layout) {d : ℕ} {e : Entry} (h : kNext d e = some e.address) :
    SoundEntry Y d e := by
  refine ⟨fun _ => h, fun _ hd => ?_⟩
  have hfollow := (physFrame_of_kNext h).1
  simpa [follow, hd] using (Bool.and_eq_true_iff.mp hfollow).2

section Formed

variable {P : Type} (L : LawfulAllocator P) (Y : Layout) (F : Set FrameNo)

/-- The memory code between two steps, over the positions of `D`. The frames of `F` may lie at any
height. -/
structure Formed (D : Domain FrameNo (Fin 512)) (s : State P) : Prop where
  valid : L.valid s.pmm
  tree : Tree D kNext s.phys
  sound : ∀ r p i g, D.carrier r (p ++ [i]) → p.length < 3 → tableAt kNext s.phys r p = some g →
    SoundEntry Y p.length (s.phys g i)
  pending : ∀ x, PageSlot D s.phys x → (s.phys x.1 x.2).present = true →
    (s.phys x.1 x.2).usermode = true → (s.phys x.1 x.2).rw = false → (s.phys x.1 x.2).cow = true
  kernel : ∀ x, PageSlot D s.phys x → (s.phys x.1 x.2).present = true →
    (s.phys x.1 x.2).usermode = false → (s.phys x.1 x.2).address ∈ Y.kernel
  exact : Exact Y.uncounted (holding D s.phys) fun f => (s.refs f).toNat
  used : ∀ f, f ∈ L.used s.pmm ↔
    f ∈ Y.reserved ∨ IsTable D kNext s.phys f ∨ Held (holding D s.phys) f
  table : ∀ f, IsTable D kNext s.phys f →
    f.toNat < 2 ^ 19 ∧ f ∉ Y.reserved ∧ ¬ Held (holding D s.phys) f
  held : ∀ f, Held (holding D s.phys) f → (f ∈ F ∨ f.toNat < 2 ^ 19) ∧ f ∉ Y.reserved

abbrev Wf (D : Domain FrameNo (Fin 512)) (s : State P) : Prop := Formed L Y ∅ D s

variable {L Y F} {s s' : State P}

namespace Formed

theorem linked (hw : Formed L Y F D s) (r : FrameNo) (p : List (Fin 512)) (i : Fin 512)
    (g : FrameNo) (hp : D.carrier r (p ++ [i])) (hlen : p.length < 3)
    (hg : tableAt kNext s.phys r p = some g) (hpres : (s.phys g i).present = true) :
    kNext p.length (s.phys g i) = some (s.phys g i).address :=
  (hw.sound r p i g hp hlen hg).link hpres

theorem tables (hw : Formed L Y F D s) : Tables L D s :=
  ⟨hw.valid, hw.tree, fun g hg => (hw.used g).mpr (Or.inr (Or.inl hg))⟩

theorem not_table_of_held (hw : Formed L Y F D s) (hf : Held (holding D s.phys) f) :
    ¬ IsTable D kNext s.phys f := fun ht => (hw.table f ht).2.2 hf

theorem leaf (hw : Formed L Y F D s) (c : EntryChange D kNext s.phys s'.phys r p g j)
    (hlen : p.length = 3) (hp : D.carrier r (p ++ [j])) (hvalid : L.valid s'.pmm)
    (hpending : (s'.phys g j).present = true → (s'.phys g j).usermode = true →
      (s'.phys g j).rw = false → (s'.phys g j).cow = true)
    (hkernel : (s'.phys g j).present = true → (s'.phys g j).usermode = false →
      (s'.phys g j).address ∈ Y.kernel)
    (hexact : Exact Y.uncounted
      (Function.update (holding D s.phys) (g, j) (content (s'.phys g j)))
      fun f => (s'.refs f).toNat)
    (hused : ∀ f, f ∈ L.used s'.pmm ↔ f ∈ Y.reserved ∨ IsTable D kNext s.phys f ∨
      Held (Function.update (holding D s.phys) (g, j) (content (s'.phys g j))) f)
    (hheld : ∀ f, Held (Function.update (holding D s.phys) (g, j) (content (s'.phys g j))) f →
      (f ∈ F ∨ f.toNat < 2 ^ 19) ∧ f ∉ Y.reserved ∧ ¬ IsTable D kNext s.phys f) :
    Formed L Y F D s' := by
  have hsame := (leaf_change c hlen).1
  have hhold := holding_leaf c hlen hp
  have htable := isTable_congr hsame
  have hslot := pageSlot_congr hsame
  have hentry : ∀ x, PageSlot D s.phys x → x ≠ (g, j) → s'.phys x.1 x.2 = s.phys x.1 x.2 := by
    intro x hx hne
    apply c.agree x.1 x.2 hx.isTable
    by_contra hnot
    obtain ⟨h1, h2⟩ := not_or.mp hnot |>.imp not_not.mp not_not.mp
    exact hne (Prod.ext h1 h2)
  refine ⟨hvalid, Tree.of_eq hw.tree hsame, ?_, ?_, ?_, by rwa [hhold], ?_, ?_, ?_⟩
  · intro r' q i g' hq hlt hg'
    rw [hsame r' q (D.closed r' q [i] hq)] at hg'
    have hne : g' ≠ g := by
      rintro rfl
      obtain ⟨-, rfl⟩ := hw.tree r' q r p g' (D.closed r' q [i] hq) c.position hg' c.cell
      omega
    rw [c.agree g' i ⟨r', q, D.closed r' q [i] hq, hg'⟩ (Or.inl hne)]
    exact hw.sound r' q i g' hq hlt hg'
  · intro x hx
    by_cases hne : x = (g, j)
    · subst hne
      exact hpending
    · rw [hentry x ((hslot x).mp hx) hne]
      exact hw.pending x ((hslot x).mp hx)
  · intro x hx
    by_cases hne : x = (g, j)
    · subst hne
      exact hkernel
    · rw [hentry x ((hslot x).mp hx) hne]
      exact hw.kernel x ((hslot x).mp hx)
  · intro f
    rw [hused, hhold, htable]
  · intro f hf
    rw [htable] at hf
    refine ⟨(hw.table f hf).1, (hw.table f hf).2.1, ?_⟩
    rw [hhold]
    intro hbad
    exact (hheld f hbad).2.2 hf
  · intro f hf
    rw [hhold] at hf
    exact ⟨(hheld f hf).1, (hheld f hf).2.1⟩

theorem newTable (hw : Formed L Y F D s) (hnew : NewTable D s.phys s'.phys r p i g h)
    (hp : D.carrier r (p ++ [i]))
    (hlink : kNext p.length (s'.phys g i) = some (s'.phys g i).address)
    (hlow : h.toNat < 2 ^ 19) (hfresh : h ∉ L.used s.pmm) (hvalid : L.valid s'.pmm)
    (hused : L.used s'.pmm = insert h (L.used s.pmm)) (hrefs : s'.refs = s.refs)
    (hlen : p.length < 3) : Formed L Y F D s' := by
  have hnot : h ∉ Y.reserved ∧ ¬ IsTable D kNext s.phys h ∧ ¬ Held (holding D s.phys) h := by
    rw [hw.used] at hfresh
    tauto
  have hhold := holding_newTable hnew hnot.2.1
  have htable : ∀ f, IsTable D kNext s'.phys f ↔ f = h ∨ IsTable D kNext s.phys f := by
    intro f
    refine ⟨hnew.tables, ?_⟩
    rintro (rfl | ⟨r', q, hq, hf⟩)
    · exact ⟨r, p ++ [i], hp, hnew.linked⟩
    · exact ⟨r', q, hq, hnew.extension.table r' q f hq hf⟩
  have hentry : ∀ r' q k g', D.carrier r' (q ++ [k]) → tableAt kNext s'.phys r' q = some g' →
      s'.phys g' k = Entry.zero ∨ (g' = g ∧ k = i ∧ q.length = p.length) ∨
        (tableAt kNext s.phys r' q = some g' ∧ s'.phys g' k = s.phys g' k) := by
    intro r' q k g' hq hg'
    rcases hnew.back r' q g' (D.closed r' q [k] hq) hg' with rfl | hold
    · exact Or.inl (hnew.blank k)
    · by_cases hsame : g' = g ∧ k = i
      · obtain ⟨rfl, rfl⟩ := hsame
        obtain ⟨-, rfl⟩ := hw.tree r' q r p g' (D.closed r' q [k] hq) hnew.change.position hold
          hnew.change.cell
        exact Or.inr (Or.inl ⟨rfl, rfl, rfl⟩)
      · exact Or.inr (Or.inr ⟨hold,
          hnew.change.agree g' k ⟨r', q, D.closed r' q [k] hq, hold⟩ (by tauto)⟩)
  have hpage : ∀ x, PageSlot D s'.phys x → s'.phys x.1 x.2 = Entry.zero ∨
      (PageSlot D s.phys x ∧ s'.phys x.1 x.2 = s.phys x.1 x.2) := by
    rintro x ⟨r', q, hq, hq3, hg'⟩
    rcases hentry r' q x.2 x.1 hq hg' with hz | ⟨-, -, hbad⟩ | ⟨hold, heq⟩
    · exact Or.inl hz
    · omega
    · exact Or.inr ⟨⟨r', q, hq, hq3, hold⟩, heq⟩
  refine ⟨hvalid, hnew.tree, ?_, ?_, ?_, by rw [hhold, hrefs]; exact hw.exact, ?_, ?_, ?_⟩
  · intro r' q k g' hq hlt hg'
    rcases hentry r' q k g' hq hg' with hz | ⟨rfl, rfl, hqp⟩ | ⟨hold, heq⟩
    · rw [hz]
      exact soundEntry_zero Y _
    · rw [hqp]
      exact soundEntry_of_kNext Y hlink
    · rw [heq]
      exact hw.sound r' q k g' hq hlt hold
  · intro x hx
    rcases hpage x hx with hz | ⟨hold, heq⟩
    · rw [hz]
      exact fun hpres => absurd hpres Bool.false_ne_true
    · rw [heq]
      exact hw.pending x hold
  · intro x hx
    rcases hpage x hx with hz | ⟨hold, heq⟩
    · rw [hz]
      exact fun hpres => absurd hpres Bool.false_ne_true
    · rw [heq]
      exact hw.kernel x hold
  · intro f
    rw [hused, Set.mem_insert_iff, hw.used, hhold, htable]
    tauto
  · intro f hf
    rw [hhold]
    rcases (htable f).mp hf with rfl | hf
    · exact ⟨hlow, hnot.1, hnot.2.2⟩
    · exact hw.table f hf
  · intro f hf
    rw [hhold] at hf
    exact hw.held f hf

/-- Taking positions out of the domain, while the entries of the others stay. -/
private theorem shrink {E : Domain FrameNo (Fin 512)} (hw : Formed L Y F D s)
    (hED : ∀ r p, E.carrier r p → D.carrier r p) (hs : SameEntries E s.phys s'.phys)
    (hvalid : L.valid s'.pmm)
    (hexact : Exact Y.uncounted (holding E s.phys) fun f => (s'.refs f).toNat)
    (hused : ∀ f, f ∈ L.used s'.pmm ↔
      f ∈ Y.reserved ∨ IsTable E kNext s.phys f ∨ Held (holding E s.phys) f) :
    Formed L Y F E s' := by
  have hsame : ∀ r p, E.carrier r p → tableAt kNext s'.phys r p = tableAt kNext s.phys r p :=
    fun r p hp => hs.tableAt hp
  have hhold := holding_sameEntries hs
  have htable := isTable_congr hsame
  have hslot := pageSlot_congr hsame
  have hentry : ∀ x, PageSlot E s.phys x → s'.phys x.1 x.2 = s.phys x.1 x.2 := by
    rintro x ⟨r, p, hp, -, hg⟩
    exact hs r p x.2 x.1 hp hg
  refine ⟨hvalid, ?_, ?_, ?_, ?_, by rwa [hhold], ?_, ?_, ?_⟩
  · intro r p r' p' g hp hp' hg hg'
    rw [hsame r p hp] at hg
    rw [hsame r' p' hp'] at hg'
    exact hw.tree r p r' p' g (hED r p hp) (hED r' p' hp') hg hg'
  · intro r q i g hq hlt hg
    rw [hsame r q (E.closed r q [i] hq)] at hg
    rw [hs r q i g hq hg]
    exact hw.sound r q i g (hED _ _ hq) hlt hg
  · intro x hx
    rw [hentry x ((hslot x).mp hx)]
    exact hw.pending x (((hslot x).mp hx).mono hED)
  · intro x hx
    rw [hentry x ((hslot x).mp hx)]
    exact hw.kernel x (((hslot x).mp hx).mono hED)
  · intro f
    rw [hused, hhold, htable]
  · intro f hf
    obtain ⟨hlow, hres, hheld⟩ := hw.table f (isTable_mono hED ((htable f).mp hf))
    rw [hhold]
    exact ⟨hlow, hres, fun hbad => hheld (held_mono hED hbad)⟩
  · intro f hf
    rw [hhold] at hf
    exact hw.held f (held_mono hED hf)

theorem sameEntries (hw : Formed L Y F D s) (hs : SameEntries D s.phys s'.phys)
    (hrefs : s'.refs = s.refs) (hpmm : s'.pmm = s.pmm) : Formed L Y F D s' := by
  apply hw.shrink (fun _ _ hp => hp) hs
  · rw [hpmm]
    exact hw.valid
  · rw [hrefs]
    exact hw.exact
  · rw [hpmm]
    exact hw.used

/-- A page leaves the domain, whatever its entry becomes. -/
theorem dropPage (hw : Formed L Y F D s) (hp : D.carrier r (p ++ [j])) (hlen : p.length = 3)
    (hg : tableAt kNext s.phys r p = some g)
    (hs : SameEntries (D.without r (p ++ [j])) s.phys s'.phys) (hvalid : L.valid s'.pmm)
    (hexact : Exact Y.uncounted (Function.update (holding D s.phys) (g, j) none)
      fun f => (s'.refs f).toNat)
    (hused : ∀ f, f ∈ L.used s'.pmm ↔ f ∈ Y.reserved ∨ IsTable D kNext s.phys f ∨
      Held (Function.update (holding D s.phys) (g, j) none) f) :
    Formed L Y F (D.without r (p ++ [j])) s' := by
  have hhold := holding_without_page hw.tree hp hlen hg
  apply hw.shrink (without_le D r _) hs hvalid
  · rwa [hhold]
  · intro f
    rw [hused, hhold, isTable_without_page hlen hg]

/-- An entry that leads nowhere and maps nothing leaves the domain unnoticed. -/
theorem dropAbsent (hw : Formed L Y F D s) (hg : tableAt kNext s.phys r p = some g)
    (hnone : kNext p.length (s.phys g i) = none) (hcontent : content (s.phys g i) = none) :
    Formed L Y F (D.without r (p ++ [i])) s := by
  have htable : ∀ f, IsTable (D.without r (p ++ [i])) kNext s.phys f ↔
      IsTable D kNext s.phys f := by
    intro f
    refine ⟨isTable_mono (without_le D r _), ?_⟩
    rintro ⟨r', q, hq, hf⟩
    refine ⟨r', q, ⟨hq, ?_⟩, hf⟩
    rintro ⟨rfl, q', rfl⟩
    exact absurd (hf.symm.trans (tableAt_none_of_next hg hnone q')) (Option.some_ne_none _)
  have hhold : holding (D.without r (p ++ [i])) s.phys = holding D s.phys := by
    funext x
    by_cases hx : PageSlot D s.phys x
    · by_cases hx' : PageSlot (D.without r (p ++ [i])) s.phys x
      · rw [holding_of_pageSlot hx, holding_of_pageSlot hx']
      · -- the slot is the absent entry itself
        rw [holding_of_pageSlot hx, holding_of_not_pageSlot hx']
        obtain ⟨r', q, hq, hlen, hg'⟩ := hx
        by_cases hoff : r' = r ∧ p ++ [i] <+: q ++ [x.2]
        · obtain ⟨rfl, q', hpre⟩ := hoff
          rcases List.eq_nil_or_concat' q' with rfl | ⟨q'', k, rfl⟩
          · rw [List.append_nil] at hpre
            obtain ⟨rfl, hk⟩ := List.append_inj' hpre rfl
            rw [hg] at hg'
            rw [← Option.some.inj hg', ← (List.singleton_inj.mp hk), hcontent]
          · rw [← List.append_assoc] at hpre
            obtain ⟨rfl, -⟩ := List.append_inj' hpre rfl
            exact absurd (hg'.symm.trans (tableAt_none_of_next hg hnone q''))
              (Option.some_ne_none _)
        · exact absurd ⟨r', q, ⟨hq, hoff⟩, hlen, hg'⟩ hx'
    · rw [holding_of_not_pageSlot hx,
        holding_of_not_pageSlot fun hbad => hx (hbad.mono (without_le D r _))]
  apply hw.shrink (without_le D r _) (fun _ _ _ _ _ _ => rfl) hw.valid
  · rw [hhold]
    exact hw.exact
  · intro f
    rw [hw.used, hhold, htable]

theorem dropTable (hw : Formed L Y F D s) (hp : D.carrier r p) (hlen : p.length ≤ 3)
    (hbare : ∀ i q, ¬ D.carrier r (p ++ [i] ++ q)) (hh : tableAt kNext s.phys r p = some h)
    (hs : SameEntries (D.without r p) s.phys s'.phys) (hvalid : L.valid s'.pmm)
    (hrefs : s'.refs = s.refs) (hused : L.used s'.pmm = L.used s.pmm \ {h}) :
    Formed L Y F (D.without r p) s' := by
  have hhold := holding_without_table s.phys hlen hbare
  have htable : IsTable D kNext s.phys h := ⟨r, p, hp, hh⟩
  apply hw.shrink (without_le D r _) hs hvalid
  · rw [hhold, hrefs]
    exact hw.exact
  · intro f
    rw [hused, Set.mem_sdiff, Set.mem_singleton_iff, hw.used, hhold,
      isTable_without_table hw.tree hp hbare hh]
    obtain ⟨-, hres, hheld⟩ := hw.table h htable
    constructor
    · rintro ⟨hf | hf | hf, hne⟩
      · exact Or.inl hf
      · exact Or.inr (Or.inl ⟨hf, hne⟩)
      · exact Or.inr (Or.inr hf)
    · rintro (hf | ⟨hf, hne⟩ | hf)
      · exact ⟨Or.inl hf, fun heq => hres (heq ▸ hf)⟩
      · exact ⟨Or.inr (Or.inl hf), hne⟩
      · exact ⟨Or.inr (Or.inr hf), fun heq => hheld (heq ▸ hf)⟩

end Formed

theorem lower_closed (live : Set FrameNo) (r : FrameNo) (p q : List (Fin 512))
    (h : r ∈ live ∧ (p ++ q).length ≤ 4 ∧ ∀ i ∈ (p ++ q).head?, i.val < 256) :
    r ∈ live ∧ p.length ≤ 4 ∧ ∀ i ∈ p.head?, i.val < 256 := by
  refine ⟨h.1, ?_, ?_⟩
  · have := h.2.1
    rw [List.length_append] at this
    omega
  · intro i hi
    apply h.2.2 i
    cases p with
    | nil => simp at hi
    | cons k p => simpa using hi

def lower (live : Set FrameNo) : Domain FrameNo (Fin 512) where
  carrier r p := r ∈ live ∧ p.length ≤ 4 ∧ ∀ i ∈ p.head?, i.val < 256
  closed := lower_closed live

/-- A fresh directory whose lower half is blank joins the live ones. -/
theorem Formed.newRoot {live : Set FrameNo} (hw : Formed L Y F (lower live) s)
    (hlow : h.toNat < 2 ^ 19) (hfresh : h ∉ L.used s.pmm) (hvalid : L.valid s'.pmm)
    (hused : L.used s'.pmm = insert h (L.used s.pmm)) (hrefs : s'.refs = s.refs)
    (hother : ∀ f, f ≠ h → s'.phys f = s.phys f)
    (hblank : ∀ i : Fin 512, i.val < 256 → s'.phys h i = Entry.zero) :
    Formed L Y F (lower (insert h live)) s' := by
  have hnot : h ∉ Y.reserved ∧ ¬ IsTable (lower live) kNext s.phys h ∧
      ¬ Held (holding (lower live) s.phys) h := by
    rw [hw.used] at hfresh
    tauto
  have hlive : h ∉ live := fun hbad => hnot.2.1 ⟨h, [], ⟨hbad, by simp, by simp⟩, rfl⟩
  have hs : SameEntries (lower live) s.phys s'.phys := by
    intro r p i g hp hg
    rw [hother g]
    rintro rfl
    exact hnot.2.1 ⟨r, p, (lower live).closed r p [i] hp, hg⟩
  have hcases : ∀ r p g, (lower (insert h live)).carrier r p → tableAt kNext s'.phys r p = some g →
      (r = h ∧ p = [] ∧ g = h) ∨
          ((lower live).carrier r p ∧ tableAt kNext s.phys r p = some g) := by
    rintro r p g ⟨hr, hp⟩ hg
    rcases hr with rfl | hr
    · cases p with
      | nil => exact Or.inl ⟨rfl, rfl, (Option.some.inj hg).symm⟩
      | cons i p =>
        rw [tableAt, walk_cons, hblank i (hp.2 i (by simp)), kNext_zero] at hg
        exact absurd hg.symm (Option.some_ne_none _)
    · exact Or.inr ⟨⟨hr, hp⟩, (hs.tableAt ⟨hr, hp⟩).symm.trans hg⟩
  have hslot : ∀ x, PageSlot (lower (insert h live)) s'.phys x ↔
      PageSlot (lower live) s.phys x := by
    intro x
    constructor
    · rintro ⟨r, p, hp, hlen, hg⟩
      rcases hcases r p x.1 ((lower _).closed r p [x.2] hp) hg with ⟨-, rfl, -⟩ | ⟨hc, hg⟩
      · simp at hlen
      · exact ⟨r, p, ⟨hc.1, hp.2⟩, hlen, hg⟩
    · rintro ⟨r, p, hp, hlen, hg⟩
      exact ⟨r, p, ⟨Or.inr hp.1, hp.2⟩, hlen,
        (hs.tableAt ((lower live).closed r p [x.2] hp)).trans hg⟩
  have hentry : ∀ x, PageSlot (lower live) s.phys x → s'.phys x.1 x.2 = s.phys x.1 x.2 := by
    rintro x ⟨r, p, hp, -, hg⟩
    exact hs r p x.2 x.1 hp hg
  have hhold : holding (lower (insert h live)) s'.phys = holding (lower live) s.phys := by
    funext x
    by_cases hx : PageSlot (lower live) s.phys x
    · rw [holding_of_pageSlot hx, holding_of_pageSlot ((hslot x).mpr hx), hentry x hx]
    · rw [holding_of_not_pageSlot hx,
        holding_of_not_pageSlot fun hbad => hx ((hslot x).mp hbad)]
  have htable : ∀ f, IsTable (lower (insert h live)) kNext s'.phys f ↔
      f = h ∨ IsTable (lower live) kNext s.phys f := by
    intro f
    constructor
    · rintro ⟨r, p, hp, hf⟩
      rcases hcases r p f hp hf with ⟨-, -, rfl⟩ | ⟨hc, hf⟩
      · exact Or.inl rfl
      · exact Or.inr ⟨r, p, hc, hf⟩
    · rintro (rfl | ⟨r, p, hp, hf⟩)
      · exact ⟨f, [], ⟨Or.inl rfl, by simp, by simp⟩, rfl⟩
      · exact ⟨r, p, ⟨Or.inr hp.1, hp.2⟩, (hs.tableAt hp).trans hf⟩
  refine ⟨hvalid, ?_, ?_, ?_, ?_, by rw [hhold, hrefs]; exact hw.exact, ?_, ?_, ?_⟩
  · intro r p r' p' g hp hp' hg hg'
    rcases hcases r p g hp hg with ⟨rfl, rfl, rfl⟩ | ⟨hc, hg⟩
    · rcases hcases r' p' g hp' hg' with ⟨rfl, rfl, -⟩ | ⟨hc', hg'⟩
      · exact ⟨rfl, rfl⟩
      · exact absurd ⟨r', p', hc', hg'⟩ hnot.2.1
    · rcases hcases r' p' g hp' hg' with ⟨-, -, rfl⟩ | ⟨hc', hg'⟩
      · exact absurd ⟨r, p, hc, hg⟩ hnot.2.1
      · exact hw.tree r p r' p' g hc hc' hg hg'
  · intro r p i g hp hlt hg
    rcases hcases r p g ((lower _).closed r p [i] hp) hg with ⟨-, rfl, rfl⟩ | ⟨hc, hg⟩
    · rw [hblank i (hp.2.2 i (by simp))]
      exact soundEntry_zero Y _
    · have hp' : (lower live).carrier r (p ++ [i]) := ⟨hc.1, hp.2⟩
      rw [hs r p i g hp' hg]
      exact hw.sound r p i g hp' hlt hg
  · intro x hx
    rw [hentry x ((hslot x).mp hx)]
    exact hw.pending x ((hslot x).mp hx)
  · intro x hx
    rw [hentry x ((hslot x).mp hx)]
    exact hw.kernel x ((hslot x).mp hx)
  · intro f
    rw [hused, Set.mem_insert_iff, hw.used, hhold, htable]
    tauto
  · intro f hf
    rw [hhold]
    rcases (htable f).mp hf with rfl | hf
    · exact ⟨hlow, hnot.1, hnot.2.2⟩
    · exact hw.table f hf
  · intro f hf
    rw [hhold] at hf
    exact hw.held f hf

end Formed

end ReduceOS.SharedPages
