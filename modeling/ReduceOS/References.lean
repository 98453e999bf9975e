import ReduceOS.HeapPages
import ReduceOS.Isolation
import ReduceOS.UserHeap

/-!
Reference counts over runs that also free pages. `mem_freePage` drops a reference but
leaves a page mapped while its frame has others, so its caller keeps reading, and later
destroying, a page it no longer counts for. As long as only unshared pages are freed,
every count is the number of pages mapping the frame, a freed page is gone, and no
mapped frame goes back to the allocator.
-/
namespace ReduceOS.References

open Machine Page Physical Paging AddressSpace Outcome TableTree PageMap Sharing SharedPages Views
  Clone Destroy UserAccess UserHeap CopyOnWrite HeapPages WellBuilt Isolation

variable {P : Type}

section Free

variable {L : LawfulAllocator P} {Y : Layout} {D : Domain FrameNo (Fin 512)} {s s' : State P}
  {r g f : FrameNo} {p : List (Fin 512)} {j : Fin 512} {w : Bool}

structure Released (L : LawfulAllocator P) (Y : Layout) (D : Domain FrameNo (Fin 512))
    (s : State P) (g : FrameNo) (j : Fin 512) (s' : State P) : Prop where
  wf : Wf L Y D s'
  gone : (s'.phys g j).present = false
  walks : ∀ r p, D.carrier r p → tableAt kNext s'.phys r p = tableAt kNext s.phys r p
  others : ∀ x, PageSlot D s.phys x → x ≠ (g, j) → s'.phys x.1 x.2 = s.phys x.1 x.2
  refs : ∀ x f w, x ≠ (g, j) → holding D s.phys x = some (f, w) → s'.refs f = s.refs f

theorem released_of_dropped (hw : Wf L Y D s) (hx : PageAt D s.phys r p j g)
    (hd : Dropped L Y D s (g, j) s')
    (hphys : s'.phys = (s.setEntry g j (releasedEntry (s.phys g j))).phys)
    (hrefs : ∀ x f w, x ≠ (g, j) → holding D s.phys x = some (f, w) → s'.refs f = s.refs f) :
    Released L Y D s g j s' := by
  have c := change_of_setEntry s' hw hx.carrier hx.table hphys
  have hself : s'.phys g j = releasedEntry (s.phys g j) := by
    rw [hphys, State.setEntry_phys_self]
  have hgone : (s'.phys g j).present = false := by
    rw [hself]
    rfl
  have hnone : content (s'.phys g j) = none := content_of_absent hgone
  have hheld : ∀ f, Held (Function.update (holding D s.phys) (g, j) none) f →
      Held (holding D s.phys) f := by
    rintro f ⟨y, w, hy⟩
    by_cases hyx : y = (g, j)
    · rw [hyx, Function.update_self] at hy
      exact absurd hy.symm (Option.some_ne_none _)
    · rw [Function.update_of_ne hyx] at hy
      exact ⟨y, w, hy⟩
  refine ⟨?_, hgone, (leaf_change c hx.length).1, ?_, hrefs⟩
  · refine hw.leaf c hx.length hx.carrier hd.valid ?_ ?_ (by rw [hnone]; exact hd.exact)
      (by rw [hnone]; exact hd.used) ?_
    · intro hbad
      rw [hgone] at hbad
      contradiction
    · intro hbad
      rw [hgone] at hbad
      contradiction
    · intro f hf
      rw [hnone] at hf
      exact ⟨(hw.held f (hheld f hf)).1, (hw.held f (hheld f hf)).2,
        hw.not_table_of_held (hheld f hf)⟩
  · intro x hslot hne
    rw [hphys, setEntry_phys_slot_ne _ _ hne]

/-- `mem_freePage` on a page whose frame nobody else maps returns the frame. -/
theorem memFreePage_unshared (hw : Wf L Y D s) (hx : PageAt D s.phys r p j g)
    (hcontent : content (s.phys g j) = some (f, w)) (hrefs : (s.refs f).toNat ≤ 1) :
    ∃ s', memFreePage L.toAllocator s (g, j) = .ok s' ∧ Dropped L Y D s (g, j) s' ∧
      s'.phys = (s.setEntry g j (releasedEntry (s.phys g j))).phys ∧
      s'.pmm = L.freeBlock s.pmm (frameAddr f) ∧
      ∀ x f' w', x ≠ (g, j) → holding D s.phys x = some (f', w') → s'.refs f' = s.refs f' := by
  obtain ⟨hpres, huser, rfl, rfl⟩ := content_eq_some.mp hcontent
  have hold : holding D s.phys (g, j) = some ((s.phys g j).address, (s.phys g j).rw) := by
    rw [hx.holding_eq, hcontent]
  have hlow := (hw.held _ ⟨(g, j), _, hold⟩).1.resolve_left (Set.notMem_empty _)
  have hframe := getFrame_of_lt (s.phys g j) hlow
  cases hrw : (s.phys g j).rw with
  | true =>
    rw [hrw] at hcontent hold
    have hzero : s.refs (s.phys g j).address = 0 :=
      BitVec.eq_of_toNat_eq (hw.exact.exclusive _ _ hold).1
    have hpmm : L.freeBlock s.pmm (getFrame (s.phys g j)) =
        L.freeBlock s.pmm (frameAddr (s.phys g j).address) := by rw [hframe]
    rw [memFreePage_uncounted s (g, j) hzero, releasePage_eq]
    exact ⟨_, rfl, dropped_private hw (Set.notMem_empty _) hx hcontent rfl hpmm, rfl, hpmm,
      fun _ _ _ _ _ => rfl⟩
  | false =>
    rw [hrw] at hcontent hold
    have hne := hw.exact.shared _ _ hold
    have hone : s.refs (s.phys g j).address = 1 := BitVec.eq_of_toNat_eq (by
      change (s.refs (s.phys g j).address).toNat = 1
      omega)
    have hone' : (s.refs (s.phys g j).address).toNat = 1 := by rw [hone]; rfl
    have hpmm : L.freeBlock s.pmm (getFrame (s.phys g j)) =
        L.freeBlock s.pmm (frameAddr (s.phys g j).address) := by rw [hframe]
    rw [memFreePage_last s (g, j) hpres hone, releasePage_eq]
    refine ⟨_, rfl, dropped_last hw (Set.notMem_empty _) hx hcontent hone rfl hpmm, rfl, hpmm, ?_⟩
    intro y f w hy hf
    have hne' : f ≠ (s.phys g j).address := by
      rintro rfl
      exact hy (hw.exact.last_holder hold hone' hf)
    exact Function.update_of_ne hne' _ _

theorem memFreePage_spec (hw : Wf L Y D s) (hx : PageAt D s.phys r p j g)
    (hcontent : content (s.phys g j) = some (f, w)) (hrefs : (s.refs f).toNat ≤ 1) :
    Meets Never (memFreePage L.toAllocator s (g, j)) (Released L Y D s g j) := by
  obtain ⟨s', hcall, hdropped, hphys, -, hrefs'⟩ := memFreePage_unshared hw hx hcontent hrefs
  rw [hcall]
  exact released_of_dropped hw hx hdropped hphys hrefs'

end Free

/-- The page at `a`, if its table is there, is a page of user code. -/
def UserPage (s : State P) (dir : FrameNo) (a : Addr) : Prop :=
  ∀ x, pageEntry s.phys dir a = some x →
    (State.entry s x).present = true ∧ (State.entry s x).usermode = true

def UnsharedPage (s : State P) (dir : FrameNo) (a : Addr) : Prop :=
  ∀ x, pageEntry s.phys dir a = some x →
    (State.entry s x).present = true ∧ (State.entry s x).usermode = true ∧
      (s.refs (State.entry s x).address).toNat ≤ 1

section FreeRange

variable {L : LawfulAllocator P} {Y : Layout} {live : Set FrameNo} {s s' : State P}
  {dir g : FrameNo} {a b : Addr}

theorem pageEntry_ne (hw : Wf L Y (lower live) s) (hdir : dir ∈ live) (ha : isUser a = true)
    (hb : isUser b = true) (hne : position b ≠ position a) {x : Slot}
    (hx : pageEntry s.phys dir a = some x) : pageEntry s.phys dir b ≠ some x := by
  intro hbx
  have hposa := carrier_position hdir ha
  have hposb := carrier_position hdir hb
  rw [pageEntry_user hw hposa] at hx
  rw [pageEntry_user hw hposb] at hbx
  obtain ⟨t, ht, rfl⟩ := Option.map_eq_some_iff.mp hx
  obtain ⟨t', ht', heq⟩ := Option.map_eq_some_iff.mp hbx
  obtain ⟨rfl, hlast⟩ := Prod.mk.inj heq
  have hpath := (hw.tree dir (path b) dir (path a) t'
    ((lower live).closed dir (path b) [pagetblIndex b] hposb)
    ((lower live).closed dir (path a) [pagetblIndex a] hposa) ht' ht).2
  exact hne (by rw [position, position, hpath, hlast])

theorem pageAt_of_pageEntry (hw : Wf L Y (lower live) s) (hdir : dir ∈ live)
    (ha : isUser a = true) {x : Slot} (hx : pageEntry s.phys dir a = some x) :
    PageAt (lower live) s.phys dir (path a) (pagetblIndex a) x.1 ∧ x.2 = pagetblIndex a := by
  have hpos := carrier_position hdir ha
  rw [pageEntry_user hw hpos] at hx
  obtain ⟨t, ht, rfl⟩ := Option.map_eq_some_iff.mp hx
  exact ⟨⟨hpos, by simp [path], ht⟩, rfl⟩

structure FreedAt (L : LawfulAllocator P) (Y : Layout) (live : Set FrameNo) (dir : FrameNo)
    (a : Addr) (s s' : State P) : Prop where
  wf : Wf L Y (lower live) s'
  entries : ∀ b, isUser b = true → pageEntry s'.phys dir b = pageEntry s.phys dir b
  gone : ∀ x, pageEntry s'.phys dir a = some x → (State.entry s' x).present = false
  others : ∀ b, isUser b = true → position b ≠ position a → ∀ x, pageEntry s.phys dir b = some x →
    State.entry s' x = State.entry s x
  unshared : ∀ b, isUser b = true → position b ≠ position a → UnsharedPage s dir b →
    UnsharedPage s' dir b

theorem freedAt_of_released (hw : Wf L Y (lower live) s) (hdir : dir ∈ live)
    (ha : isUser a = true) {x : Slot} (hx : pageEntry s.phys dir a = some x)
    (hr : Released L Y (lower live) s x.1 x.2 s') : FreedAt L Y live dir a s s' := by
  have hentries : ∀ b, isUser b = true → pageEntry s'.phys dir b = pageEntry s.phys dir b := by
    intro b hb
    have hpos := carrier_position hdir hb
    rw [pageEntry_user hr.wf hpos, pageEntry_user hw hpos,
      hr.walks dir (path b) ((lower live).closed dir (path b) [pagetblIndex b] hpos)]
  have hslot : ∀ b, isUser b = true → position b ≠ position a → ∀ y,
      pageEntry s.phys dir b = some y → PageSlot (lower live) s.phys y ∧ y ≠ (x.1, x.2) := by
    intro b hb hne y hy
    obtain ⟨hat, hlast⟩ := pageAt_of_pageEntry hw hdir hb hy
    refine ⟨⟨dir, path b, by rw [hlast]; exact hat.carrier, hat.length, hat.table⟩, ?_⟩
    rintro rfl
    exact pageEntry_ne hw hdir ha hb hne hx hy
  refine ⟨hr.wf, hentries, ?_, ?_, ?_⟩
  · intro y hy
    rw [hentries a ha, hx] at hy
    obtain rfl := Option.some.inj hy
    exact hr.gone
  · intro b hb hne y hy
    exact hr.others y (hslot b hb hne y hy).1 (hslot b hb hne y hy).2
  · intro b hb hne hun y hy
    rw [hentries b hb] at hy
    obtain ⟨hpage, hyx⟩ := hslot b hb hne y hy
    obtain ⟨hpres, huser, hrefs⟩ := hun y hy
    have hold : holding (lower live) s.phys y =
        some ((State.entry s y).address, (State.entry s y).rw) :=
      holding_eq_some.mpr ⟨hpage, content_eq_some.mpr ⟨hpres, huser, rfl, rfl⟩⟩
    rw [show State.entry s' y = State.entry s y from hr.others y hpage hyx]
    exact ⟨hpres, huser, by rwa [hr.refs y _ _ hyx hold]⟩

/-- The body of the loop of `mem_free`. -/
theorem freeAt_spec (hw : Wf L Y (lower live) s) (hdir : dir ∈ live) (ha : isUser a = true)
    (hun : UnsharedPage s dir a) :
    Meets Never (freeAt L.toAllocator dir s a) (FreedAt L Y live dir a s) := by
  unfold freeAt
  rw [memGetPage_user hw ha (carrier_position hdir ha)]
  cases hx : pageEntry s.phys dir a with
  | none =>
    refine ⟨hw, fun _ _ => rfl, ?_, fun _ _ _ _ _ => rfl, fun _ _ _ => id⟩
    intro x hx'
    rw [hx] at hx'
    exact absurd hx'.symm (Option.some_ne_none _)
  | some x =>
    obtain ⟨hat, hlast⟩ := pageAt_of_pageEntry hw hdir ha hx
    obtain ⟨hpres, huser, hrefs⟩ := hun x hx
    rw [State.entry, hlast] at hpres huser hrefs
    have hfree := memFreePage_spec hw hat (content_eq_some.mpr ⟨hpres, huser, rfl, rfl⟩) hrefs
    change Meets Never (memAllocatePage L.toAllocator s (some x) memPageFree) _
    rw [memAllocatePage]
    simp only [show has memPageFree memPageFree = true from by decide, if_true]
    rw [show x = (x.1, pagetblIndex a) from Prod.ext rfl hlast]
    refine meets_mono hfree fun s' hr => ?_
    rw [← hlast] at hr
    exact freedAt_of_released hw hdir ha hx hr

structure FreedAll (L : LawfulAllocator P) (Y : Layout) (live : Set FrameNo) (dir : FrameNo)
    (l : List Addr) (s s' : State P) : Prop where
  wf : Wf L Y (lower live) s'
  entries : ∀ b, isUser b = true → pageEntry s'.phys dir b = pageEntry s.phys dir b
  gone : ∀ a ∈ l, ∀ x, pageEntry s'.phys dir a = some x → (State.entry s' x).present = false
  others : ∀ b, isUser b = true → (∀ a ∈ l, position b ≠ position a) → ∀ x,
    pageEntry s.phys dir b = some x → State.entry s' x = State.entry s x

theorem freeLoop_spec (hdir : dir ∈ live) (l : List Addr) (hw : Wf L Y (lower live) s)
    (huser : ∀ a ∈ l, isUser a = true) (hpair : l.Pairwise fun a b => position b ≠ position a)
    (hun : ∀ a ∈ l, UnsharedPage s dir a) :
    Meets Never (l.foldlM (freeAt L.toAllocator dir) s) (FreedAll L Y live dir l s) := by
  induction l generalizing s with
  | nil =>
    exact ⟨hw, fun _ _ => rfl, fun a ha => absurd ha List.not_mem_nil, fun _ _ _ _ _ => rfl⟩
  | cons a l ih =>
    obtain ⟨hhead, htail⟩ := List.pairwise_cons.mp hpair
    have ha := huser a List.mem_cons_self
    have hl : ∀ b ∈ l, isUser b = true := fun b hb => huser b (List.mem_cons_of_mem a hb)
    rw [List.foldlM_cons]
    refine meets_bind (freeAt_spec hw hdir ha (hun a List.mem_cons_self)) ?_
    intro s₁ hfirst
    refine meets_mono (ih hfirst.wf hl htail fun b hb =>
      hfirst.unshared b (hl b hb) (hhead b hb) (hun b (List.mem_cons_of_mem a hb))) ?_
    intro s₂ hrest
    refine ⟨hrest.wf, fun b hb => (hrest.entries b hb).trans (hfirst.entries b hb), ?_, ?_⟩
    · intro b hb x hx
      rcases List.mem_cons.mp hb with rfl | hb
      · rw [hrest.entries b ha] at hx
        rw [hrest.others b ha (fun c hc => (hhead c hc).symm) x hx]
        exact hfirst.gone x hx
      · exact hrest.gone b hb x hx
    · intro b hb hne x hx
      rw [hrest.others b hb (fun c hc => hne c (List.mem_cons_of_mem a hc)) x
        (by rw [hfirst.entries b hb, hx])]
      exact hfirst.others b hb (hne a List.mem_cons_self) x hx

/-- A loop over user pages visits each of them once. -/
theorem pairwise_visited (n : ℕ) (start limit : Addr)
    (huser : ∀ i ∈ visited n start limit, isUser i = true) :
    (visited n start limit).Pairwise (fun a b => position b ≠ position a) ∧
      ∀ i ∈ visited n start limit, start.toNat ≤ i.toNat := by
  induction n generalizing start with
  | zero => exact ⟨List.Pairwise.nil, fun i hi => absurd hi List.not_mem_nil⟩
  | succ n ih =>
    rw [visited] at huser ⊢
    split_ifs at huser ⊢ with hlt
    · have hstart : start.toNat < 2 ^ 47 := of_decide_eq_true (huser start List.mem_cons_self)
      have hnext : (start + 0x1000).toNat = start.toNat + 4096 := by
        rw [BitVec.toNat_add]
        exact Nat.mod_eq_of_lt (by simp; omega)
      obtain ⟨hpair, hge⟩ := ih (start + 0x1000) fun i hi => huser i (List.mem_cons_of_mem start hi)
      rw [hnext] at hge
      refine ⟨List.pairwise_cons.mpr ⟨?_, hpair⟩, ?_⟩
      · intro i hi hpos
        have hi' : i.toNat < 2 ^ 47 := of_decide_eq_true (huser i (List.mem_cons_of_mem start hi))
        have hle := hge i hi
        simp only [position, path, List.cons_append, List.nil_append, List.cons.injEq, and_true,
          ← Fin.val_inj, pml4Index, pdptIndex, pagedirIndex, pagetblIndex, tableIndex_val] at hpos
        omega
      · intro i hi
        rcases List.mem_cons.mp hi with rfl | hi
        · exact le_refl _
        · exact Nat.le_of_add_right_le (hge i hi)
    · exact ⟨List.Pairwise.nil, fun i hi => absurd hi List.not_mem_nil⟩

def freeRange (start size : Addr) : List Addr :=
  pageLoop (start &&& ~~~0xFFF#64) ((start &&& ~~~0xFFF#64) + size)

/-- `mem_free` over unshared user pages. -/
theorem memFree_spec (hw : Wf L Y (lower live) s) (hdir : dir ∈ live) (start size : Addr)
    (huser : ∀ i ∈ freeRange start size, isUser i = true)
    (hun : ∀ i ∈ freeRange start size, UnsharedPage s dir i) :
    Meets Never (memFree L.toAllocator s dir start size) fun s' =>
      Wf L Y (lower live) s' ∧ (isCanonical start = true → start ≠ 0 → size ≠ 0 →
        FreedAll L Y live dir (freeRange start size) s s') := by
  unfold memFree
  split_ifs with hcanon hzero
  · refine ⟨hw, fun hc => ?_⟩
    rw [hc] at hcanon
    contradiction
  · exact ⟨hw, fun _ hstart hsize => absurd hzero (not_or.mpr ⟨hstart, hsize⟩)⟩
  · refine meets_mono (freeLoop_spec hdir (freeRange start size) hw huser
      (pairwise_visited _ _ _ huser).1 hun) ?_
    exact fun s' hfreed => ⟨hfreed.wf, fun _ _ _ => hfreed⟩

end FreeRange

section Fault

variable {L : LawfulAllocator P} {Y : Layout} {live : Set FrameNo} {s : State P} {a : Addr}
  {process : Process}

/-- A fault on a page that waits for its copy. The bit also survives a free, and then
the handler finds a page that is not present. -/
theorem memPageFault_cow (hw : Wf L Y (lower live) s) (hdir : process.dir ∈ live)
    (ha : isUser a = true) {x : Slot} (hx : pageEntry s.phys process.dir a = some x)
    (hcow : (State.entry s x).cow = true)
    (hro : (State.entry s x).present = true →
      (State.entry s x).usermode = true ∧ (State.entry s x).rw = false) :
    Meets Oom (memPageFault L.toAllocator s process a) fun res =>
      Wf L Y (lower live) res.2 ∧ SameViews (lower live) s.phys res.2.phys := by
  obtain ⟨hat, hlast⟩ := pageAt_of_pageEntry hw hdir ha hx
  obtain ⟨g, j⟩ := x
  obtain rfl : j = pagetblIndex a := hlast
  change (s.phys g (pagetblIndex a)).cow = true at hcow
  change (s.phys g (pagetblIndex a)).present = true →
    (s.phys g (pagetblIndex a)).usermode = true ∧ (s.phys g (pagetblIndex a)).rw = false at hro
  rw [memPageFault_shared hw ha hat hcow]
  have hcopy : Meets Oom (memCopyOnWrite L.toAllocator s (g, pagetblIndex a))
      fun s' => Wf L Y (lower live) s' ∧ SameViews (lower live) s.phys s'.phys := by
    cases hpres : (s.phys g (pagetblIndex a)).present with
    | true =>
      obtain ⟨huser, hrw⟩ := hro hpres
      have hspec := memCopyOnWrite_spec hw (noPins Y _) hat
        (content_eq_some.mpr ⟨hpres, huser, rfl, hrw⟩)
      refine meets_mono hspec fun s' hs' => ⟨hs'.wf, fun r q hq hlen => ?_⟩
      by_cases hself : r = process.dir ∧ q = position a
      · obtain ⟨rfl, rfl⟩ := hself
        exact hs'.view
      · refine hs'.keep.view ⟨hq, ?_⟩ hlen
        rintro ⟨rfl, hpre⟩
        exact hself ⟨rfl, (hpre.eq_of_length (by rw [hlen]; simp [path])).symm⟩
    | false =>
      have hnone : content (s.phys g (pagetblIndex a)) = none := content_of_absent hpres
      let e : Entry := { s.phys g (pagetblIndex a) with rw := true, cow := false }
      have hempty : holding (lower live) s.phys (g, pagetblIndex a) = none := by
        rw [hat.holding_eq, hnone]
      have hsame : Function.update (holding (lower live) s.phys) (g, pagetblIndex a) (content e) =
          holding (lower live) s.phys := by
        rw [show content e = none from content_of_absent hpres, ← hempty,
          Function.update_eq_self]
      have hset := setPage (s.setEntry g (pagetblIndex a) e) hw (noPins Y _) hat
        (e := e) rfl rfl (fun hbad => absurd (hpres.symm.trans hbad) Bool.false_ne_true)
        (fun hbad => absurd (hpres.symm.trans hbad) Bool.false_ne_true)
        (by rw [hsame]; exact hw.exact) (fun f => by rw [hsame])
      unfold memCopyOnWrite
      rw [if_neg (show ¬ (!(State.entry s (g, pagetblIndex a)).cow) = true by
        simp [State.entry, hcow]), memDecrementPageReference_absent s (g, pagetblIndex a) hpres]
      exact ⟨hset.1, fun r q hq hlen => (hset.2.2 rfl).view hq hlen⟩
  cases hcall : memCopyOnWrite L.toAllocator s (g, pagetblIndex a) with
  | error e =>
    rw [hcall] at hcopy
    exact hcopy
  | ok s' =>
    rw [hcall] at hcopy
    exact hcopy

structure Retains (L : LawfulAllocator P) (Y : Layout) (live : Set FrameNo) (s s' : State P) :
    Prop where
  wf : Wf L Y (lower live) s'
  views : ∀ r q, (lower live).carrier r q → q.length = 4 → view s.phys r q ≠ none →
    view s'.phys r q = view s.phys r q

theorem Retains.load {s' : State P} {dir : FrameNo} {b : BitVec 8} (h : Retains L Y live s s')
    (hw : Wf L Y (lower live) s) (hdir : dir ∈ live) (hload : load s.phys dir a = some b) :
    load s'.phys dir a = some b := by
  rw [← hload]
  refine load_congr hw h.wf hdir hdir fun hu => ?_
  apply h.views _ _ (carrier_position hdir hu) (position_length a)
  intro hnone
  rw [CopyOnWrite.load_eq hw hdir hu, hnone] at hload
  exact absurd hload.symm (Option.some_ne_none b)

/-- A page fault taken in user mode, on a page that user code may not write. It maps a page or
makes a copy, and takes nothing away. -/
theorem memPageFault_retains (hw : Wf L Y (lower live) s) (hstale : ¬ Y.stale)
    (hdir : process.dir ∈ live) (ha : isUser a = true)
    (hfault : ∀ x, pageEntry s.phys process.dir a = some x → (State.entry s x).present = true →
      ((State.entry s x).usermode = true → (State.entry s x).rw = false) ∧
        ((State.entry s x).cow = true → (State.entry s x).usermode = true)) :
    Meets Oom (memPageFault L.toAllocator s process a) fun res => Retains L Y live s res.2 := by
  have hpos := carrier_position hdir ha
  have hlazy : view s.phys process.dir (position a) = none →
      Meets Oom (if inHeap process a then do
          let s ← mapHeapPage L.toAllocator s process a
          return (true, s)
        else return (false, s)) fun res : Bool × State P => Retains L Y live s res.2 := by
    intro hview
    split_ifs
    · refine meets_bind (mapHeapPage_spec hw hstale hdir ha hview) fun s' hs' => ?_
      refine ⟨hs'.wf, fun r q hq hlen hsome => hs'.others r q hq hlen ?_⟩
      rintro ⟨rfl, rfl⟩
      exact hsome hview
    · exact ⟨hw, fun _ _ _ _ _ => rfl⟩
  have hfind := memGetPage_user hw ha hpos
  cases hx : pageEntry s.phys process.dir a with
  | none =>
    rw [hx] at hfind
    unfold memPageFault
    rw [hfind]
    refine hlazy ?_
    rw [pageEntry_user hw hpos, Option.map_eq_none_iff] at hx
    exact view_of_no_table hx _
  | some x =>
    cases hcow : (State.entry s x).cow with
    | true =>
      refine meets_mono (memPageFault_cow hw hdir ha hx hcow fun hpres => ?_) ?_
      · obtain ⟨hro, huser⟩ := hfault x hx hpres
        exact ⟨huser hcow, hro (huser hcow)⟩
      · rintro res ⟨hw', hviews⟩
        exact ⟨hw', fun r q hq hlen _ => hviews r q hq hlen⟩
    | false =>
      rw [hx] at hfind
      unfold memPageFault
      rw [hfind]
      simp only [bind, Except.bind, Option.filter_some, hcow, Bool.false_eq_true, if_false]
      refine hlazy ?_
      obtain ⟨hat, hlast⟩ := pageAt_of_pageEntry hw hdir ha hx
      have hnone : content (s.phys x.1 x.2) = none := by
        cases hc : content (s.phys x.1 x.2) with
        | none => rfl
        | some c =>
          obtain ⟨f, w⟩ := c
          obtain ⟨hpres, huser, -, hrw⟩ := content_eq_some.mp hc
          have hro := (hfault x hx hpres).1 huser
          have hslot : PageSlot (lower live) s.phys x :=
            ⟨process.dir, path a, by rw [hlast]; exact hat.carrier, hat.length, hat.table⟩
          exact absurd ((hw.pending x hslot hpres huser hro).symm.trans hcow) (by decide)
      rw [hlast] at hnone
      rw [position, view_of_table hat.table, hnone]
      rfl

end Fault

structure Spaces (P : Type) where
  state : State P
  live : Set FrameNo

/-- One operation on one address space. A page may be freed when `free` allows it. -/
inductive Step (A : Allocator P) (free : State P → FrameNo → Addr → Prop) :
    Spaces P → Spaces P → Prop
  | clone {c : Spaces P} {dir new : FrameNo} {s : State P} (hdir : dir ∈ c.live)
      (hcall : memClone A c.state dir = .ok (new, s)) : Step A free c ⟨s, insert new c.live⟩
  | fault {c : Spaces P} {process : Process} {a : Addr} {x : Slot} {again : Bool} {s : State P}
      (hdir : process.dir ∈ c.live) (ha : isUser a = true)
      (hx : pageEntry c.state.phys process.dir a = some x)
      (hcow : (State.entry c.state x).cow = true)
      (hro : (State.entry c.state x).present = true →
        (State.entry c.state x).usermode = true ∧ (State.entry c.state x).rw = false)
      (hcall : memPageFault A c.state process a = .ok (again, s)) : Step A free c ⟨s, c.live⟩
  | freePage {c : Spaces P} {dir : FrameNo} {a : Addr} {x : Slot} {s : State P}
      (hdir : dir ∈ c.live) (ha : isUser a = true)
      (hx : pageEntry c.state.phys dir a = some x) (hfree : free c.state dir a)
      (hcall : memFreePage A c.state x = .ok s) : Step A free c ⟨s, c.live⟩
  | free {c : Spaces P} {dir : FrameNo} {start size : Addr} {s : State P} (hdir : dir ∈ c.live)
      (huser : ∀ i ∈ freeRange start size, isUser i = true)
      (hfree : ∀ i ∈ freeRange start size, free c.state dir i)
      (hcall : memFree A c.state dir start size = .ok s) : Step A free c ⟨s, c.live⟩
  | destroy {c : Spaces P} {dir : FrameNo} {s : State P} (hdir : dir ∈ c.live)
      (hcall : memDestroyVAS A c.state dir = .ok s) : Step A free c ⟨s, c.live \ {dir}⟩

def Reach (A : Allocator P) (free : State P → FrameNo → Addr → Prop) :
    Spaces P → Spaces P → Prop := Relation.ReflTransGen (Step A free)

def Pte (live : Set FrameNo) (mem : FrameNo → Frame) (x : Slot) : Prop :=
  ∃ r p, (lower live).carrier r (p ++ [x.2]) ∧ p.length = 3 ∧ tableAt hNext mem r p = some x.1 ∧
    (mem x.1 x.2).present = true

/-- Counts are the numbers of mappings, mapped frames are in use, and a page that `free`
allows to be freed is gone afterwards. -/
structure Accounted (L : LawfulAllocator P) (free : State P → FrameNo → Addr → Prop)
    (c : Spaces P) : Prop where
  counts : ∀ f, c.state.refs f ≠ 0 →
    (mappers c.live c.state.phys f).ncard = (c.state.refs f).toNat
  mapped : ∀ x, Pte c.live c.state.phys x → (State.entry c.state x).address ∈ L.used c.state.pmm
  freed : ∀ dir ∈ c.live, ∀ a, isUser a = true → ∀ x, pageEntry c.state.phys dir a = some x →
    free c.state dir a → ∃ s, memFreePage L.toAllocator c.state x = .ok s ∧
      (State.entry s x).present = false
  freedAll : ∀ dir ∈ c.live, ∀ start size, isCanonical start = true → start ≠ 0 → size ≠ 0 →
    (∀ i ∈ freeRange start size, isUser i = true ∧ free c.state dir i) →
    ∃ s, memFree L.toAllocator c.state dir start size = .ok s ∧
      ∀ i ∈ freeRange start size, ∀ x, pageEntry s.phys dir i = some x →
        (State.entry s x).present = false

/-- Address spaces with private user pages only, before anything is shared. Pages closed
to user code map frames that belong to nobody. -/
structure Fresh (used live : Set FrameNo) (s : State P) : Prop where
  built : Built used live s
  allPrivate : AllPrivate live s
  refs : ∀ f, s.refs f = 0
  kernel : ∀ x, Pte live s.phys x → (s.phys x.1 x.2).usermode = false →
    (s.phys x.1 x.2).address ∈ used ∧ ¬ IsTable (lower live) hNext s.phys (s.phys x.1 x.2).address ∧
      ∀ y, UserPte live s.phys y → (s.phys y.1 y.2).address ≠ (s.phys x.1 x.2).address

section Run

variable {L : LawfulAllocator P} {Y : Layout} {c c' : Spaces P} {s : State P} {live : Set FrameNo}

def Strict (Y : Layout) : Prop := Y.uncounted = ∅ ∧ Y.kernel = Y.reserved

theorem wf_step (hw : Wf L Y (lower c.live) c.state)
    (hstep : Step L.toAllocator UnsharedPage c c') : Wf L Y (lower c'.live) c'.state := by
  cases hstep with
  | clone hdir hcall => exact (meets_of_eq_ok (memClone_spec hw (noPins Y _) hdir) hcall).2.1
  | fault hdir ha hx hcow hro hcall =>
    exact (meets_of_eq_ok (memPageFault_cow hw hdir ha hx hcow hro) hcall).1
  | @freePage dir a x s hdir ha hx hfree hcall =>
    obtain ⟨hat, hlast⟩ := pageAt_of_pageEntry hw hdir ha hx
    obtain ⟨hpres, huser, hrefs⟩ := hfree x hx
    obtain ⟨g, j⟩ := x
    obtain rfl : j = pagetblIndex a := hlast
    have hspec := memFreePage_spec hw hat (content_eq_some.mpr ⟨hpres, huser, rfl, rfl⟩) hrefs
    exact (meets_of_eq_ok hspec hcall).wf
  | free hdir huser hfree hcall =>
    exact (meets_of_eq_ok (memFree_spec hw hdir _ _ huser hfree) hcall).1
  | destroy hdir hcall => exact (meets_of_eq_ok (memDestroyVAS_spec hw (noPins Y _) hdir) hcall).wf

theorem wf_reach (hw : Wf L Y (lower c.live) c.state)
    (h : Reach L.toAllocator UnsharedPage c c') : Wf L Y (lower c'.live) c'.state := by
  induction h with
  | refl => exact hw
  | tail _ hstep ih => exact wf_step ih hstep

theorem pte_iff (hw : Wf L Y (lower live) s) (x : Slot) :
    Pte live s.phys x ↔ PageSlot (lower live) s.phys x ∧ (s.phys x.1 x.2).present = true := by
  constructor
  · rintro ⟨r, p, hp, hlen, hg, hpres⟩
    rw [hardware_tableAt hw ((lower live).closed r p [x.2] hp) hlen.le] at hg
    exact ⟨⟨r, p, hp, hlen, hg⟩, hpres⟩
  · rintro ⟨⟨r, p, hp, hlen, hg⟩, hpres⟩
    refine ⟨r, p, hp, hlen, ?_, hpres⟩
    rwa [hardware_tableAt hw ((lower live).closed r p [x.2] hp) hlen.le]

theorem mappers_eq (hw : Wf L Y (lower live) s) (f : FrameNo) :
    mappers live s.phys f = holders (holding (lower live) s.phys) f := by
  ext x
  have hpte := pte_iff hw x
  constructor
  · rintro ⟨⟨r, p, hp, hlen, hg, hpres, huser⟩, haddr⟩
    have hslot := (hpte.mp ⟨r, p, hp, hlen, hg, hpres⟩).1
    exact ⟨_, holding_eq_some.mpr ⟨hslot, content_eq_some.mpr ⟨hpres, huser, haddr, rfl⟩⟩⟩
  · rintro ⟨w, hx⟩
    obtain ⟨hslot, hc⟩ := holding_eq_some.mp hx
    obtain ⟨hpres, huser, haddr, -⟩ := content_eq_some.mp hc
    obtain ⟨r, p, hp, hlen, hg, -⟩ := hpte.mpr ⟨hslot, hpres⟩
    exact ⟨⟨r, p, hp, hlen, hg, hpres, huser⟩, haddr⟩

theorem accounted_of_wf (hw : Wf L Y (lower c.live) c.state) (hY : Strict Y) :
    Accounted L UnsharedPage c := by
  refine ⟨?_, ?_, ?_, ?_⟩
  · intro f hne
    rw [mappers_eq hw]
    apply hw.exact.count f (by rw [hY.1]; exact Set.notMem_empty f)
    exact fun hz => hne (BitVec.eq_of_toNat_eq hz)
  · intro x hx
    obtain ⟨hslot, hpres⟩ := (pte_iff hw x).mp hx
    rw [hw.used]
    cases huser : (c.state.phys x.1 x.2).usermode with
    | false =>
      left
      rw [← hY.2]
      exact hw.kernel x hslot hpres huser
    | true =>
      refine Or.inr (Or.inr ⟨x, (c.state.phys x.1 x.2).rw, ?_⟩)
      exact holding_eq_some.mpr ⟨hslot, content_eq_some.mpr ⟨hpres, huser, rfl, rfl⟩⟩
  · intro dir hdir a ha x hx hfree
    obtain ⟨hat, hlast⟩ := pageAt_of_pageEntry hw hdir ha hx
    obtain ⟨hpres, huser, hrefs⟩ := hfree x hx
    obtain ⟨g, j⟩ := x
    obtain rfl : j = pagetblIndex a := hlast
    have hspec := memFreePage_spec hw hat (content_eq_some.mpr ⟨hpres, huser, rfl, rfl⟩) hrefs
    obtain ⟨s, hcall, hreleased⟩ := meets_never hspec
    exact ⟨s, hcall, hreleased.gone⟩
  · intro dir hdir start size hcanon hstart hsize hall
    have hspec := memFree_spec hw hdir start size (fun i hi => (hall i hi).1)
      fun i hi => (hall i hi).2
    obtain ⟨s, hcall, -, hfreed⟩ := meets_never hspec
    exact ⟨s, hcall, (hfreed hcanon hstart hsize).gone⟩

/-- In every run that frees only unshared pages, the counts are exact, freed pages are
gone, and no mapped frame is returned. -/
theorem accounted_of_reach (hv : L.valid s.pmm) (hs : Fresh (L.used s.pmm) live s)
    (hlow : Low live s.phys) (h : Reach L.toAllocator UnsharedPage ⟨s, live⟩ c) :
    Accounted L UnsharedPage c := by
  let Y : Layout := ⟨spare L s live, ∅, spare L s live, True, Set.empty_subset _⟩
  have hw : Wf L Y (lower live) s := by
    refine wf_of_layout rfl (fun f _ _ => hs.refs f) ?_ (fun hno => absurd trivial hno) hv
      hs.built hs.allPrivate.counted hlow
    rintro x ⟨r, p, hp, hlen, hg⟩ hpres huser
    rw [kernel_tableAt hs.built hlow.1 ((lower live).closed r p [x.2] hp)] at hg
    obtain ⟨hused, htable, hpages⟩ := hs.kernel x ⟨r, p, hp, hlen, hg, hpres⟩ huser
    refine ⟨hused, fun hbad => htable ((isTable_iff hs.built hlow.1 _).mp hbad), ?_⟩
    rintro ⟨y, w, hy⟩
    obtain ⟨hpte, haddr, -⟩ := (holding_iff hs.built hlow.1).mp hy
    exact hpages y hpte haddr
  exact accounted_of_wf (wf_reach hw h) ⟨rfl, rfl⟩

end Run

section OnePage

open PmmAllocator

theorem onePage_fresh : Fresh (bitmap.used smallPmm) {1} (onePage 5 smallPmm) := by
  refine ⟨onePage_built (by decide) (by decide) (by decide), onePage_allPrivate, fun _ => rfl, ?_⟩
  rintro x ⟨r, p, hp, hlen, hg, hpres⟩ huser
  obtain rfl : r = 1 := hp.1
  exfalso
  rcases onePage_tableAt hg with ⟨rfl, -⟩ | ⟨rfl, -⟩ | ⟨rfl, -⟩ | ⟨-, hx⟩
  · simp at hlen
  · simp at hlen
  · simp at hlen
  · rw [hx, show (onePage 5 smallPmm).phys 4 = Function.update zeroFrame 0 (openEntry 5) from rfl]
      at hpres huser
    by_cases h0 : x.2 = 0
    · rw [h0, Function.update_self] at huser
      exact Bool.false_ne_true huser.symm
    · rw [Function.update_of_ne h0] at hpres
      exact Bool.false_ne_true hpres

private def cloneThenFree : Except Panic (FrameNo × Bool × BitVec 8) := do
  let (new, s) ← memClone pmm (onePage 5 smallPmm) 1
  let s' ← memFreePage pmm s (4, 0)
  return (new, (State.entry s' (4, 0)).present, s'.refs 5)

private def cloneEntryOf : Except Panic (Option Slot × Bool × Bool) := do
  let (_, s) ← memClone pmm (onePage 5 smallPmm) 1
  return (pageEntry s.phys 1 0x400000, (State.entry s (4, 0)).present,
    (State.entry s (4, 0)).usermode)

private def childFreesPage (s : State Pmm.State) : Bool :=
  decide (pageEntry s.phys 6 0x400000 = some (9, 0)) && (State.entry s (9, 0)).cow &&
    (State.entry s (9, 0)).usermode && !(State.entry s (9, 0)).rw &&
    holds (memPageFault pmm s ⟨6, 0, 0⟩ 0x400000) fun r =>
      decide (pageEntry r.2.phys 6 0x400000 = some (9, 0)) && (State.entry r.2 (9, 0)).present &&
        (State.entry r.2 (9, 0)).usermode &&
        decide ((r.2.refs (State.entry r.2 (9, 0)).address).toNat ≤ 1) &&
        holds (memFreePage pmm r.2 (9, 0)) fun s =>
          decide (pageEntry s.phys 6 0x400000 = some (9, 0)) && !(State.entry s (9, 0)).present

/-- A clone gets a copy of the page by a page fault, and frees it. -/
theorem accounted_of_reach_freed :
    ∃ c, Reach pmm UnsharedPage ⟨onePage 5 smallPmm, {1}⟩ c ∧ 6 ∈ c.live ∧
      pageEntry c.state.phys 6 0x400000 = some (9, 0) ∧
      (State.entry c.state (9, 0)).present = false ∧ Accounted bitmap UnsharedPage c := by
  obtain ⟨⟨new, s⟩, hclone, hrest⟩ := ok_of_holds (r := memClone pmm (onePage 5 smallPmm) 1)
    (P := fun r => decide (r.1 = 6) && childFreesPage r.2) (by decide +kernel)
  simp only [childFreesPage, Bool.and_eq_true, decide_eq_true_eq, Bool.not_eq_true'] at hrest
  obtain ⟨rfl, ⟨⟨⟨hentry, hcow⟩, huser⟩, hro⟩, hrest⟩ := hrest
  obtain ⟨⟨again, s₁⟩, hfault, hrest⟩ := ok_of_holds hrest
  simp only [Bool.and_eq_true, decide_eq_true_eq] at hrest
  obtain ⟨⟨⟨⟨hentry₁, hpresent₁⟩, huser₁⟩, hrefs⟩, hrest⟩ := hrest
  obtain ⟨s₂, hfree, hgone⟩ := ok_of_holds hrest
  simp only [Bool.and_eq_true, decide_eq_true_eq, Bool.not_eq_true'] at hgone
  have hread : (State.entry s (9, 0)).present = true →
      (State.entry s (9, 0)).usermode = true ∧ (State.entry s (9, 0)).rw = false := by
    intro _
    exact ⟨huser, hro⟩
  have hunshared : UnsharedPage s₁ 6 0x400000 := by
    intro x hx
    obtain rfl := Option.some.inj (hentry₁.symm.trans hx)
    exact ⟨hpresent₁, huser₁, hrefs⟩
  have hcloned : Step pmm UnsharedPage ⟨onePage 5 smallPmm, {1}⟩ ⟨s, {6, 1}⟩ :=
    .clone (Set.mem_singleton _) hclone
  have hcopied : Step pmm UnsharedPage ⟨s, {6, 1}⟩ ⟨s₁, {6, 1}⟩ :=
    .fault (Set.mem_insert _ _) (by decide) hentry hcow hread hfault
  have hfreed : Step pmm UnsharedPage ⟨s₁, {6, 1}⟩ ⟨s₂, {6, 1}⟩ :=
    .freePage (Set.mem_insert _ _) (by decide) hentry₁ hunshared hfree
  have hreach := ((Relation.ReflTransGen.single hcloned).tail hcopied).tail hfreed
  have hfits : bitmap.valid (onePage 5 smallPmm).pmm :=
    show smallPmm.nframes.toNat ≤ 2 ^ 19 by decide
  exact ⟨_, hreach, Set.mem_insert _ _, hgone.1, hgone.2,
    accounted_of_reach hfits onePage_fresh (onePage_low (by decide)) hreach⟩

/-- After a clone, `mem_freePage` on the parent's page leaves it present. -/
theorem freed_page_stays_present :
    Fresh (bitmap.used smallPmm) {1} (onePage 5 smallPmm) ∧
      ∃ c, Reach pmm UserPage ⟨onePage 5 smallPmm, {1}⟩ c ∧ 1 ∈ c.live ∧
        pageEntry c.state.phys 1 0x400000 = some (4, 0) ∧ UserPage c.state 1 0x400000 ∧
        (∃ s, memFreePage pmm c.state (4, 0) = .ok s ∧ (State.entry s (4, 0)).present = true) ∧
        ¬ Accounted bitmap UserPage c := by
  refine ⟨onePage_fresh, ?_⟩
  have hrun : cloneThenFree = .ok (6, true, 1) := by decide +kernel
  have hentry : cloneEntryOf = .ok (some (4, 0), true, true) := by decide +kernel
  unfold cloneThenFree at hrun
  unfold cloneEntryOf at hentry
  cases hcall : memClone pmm (onePage 5 smallPmm) 1 with
  | error e => rw [hcall] at hrun; contradiction
  | ok res =>
    obtain ⟨new, s⟩ := res
    rw [hcall] at hrun hentry
    simp only [bind, Except.bind] at hrun
    obtain ⟨hx, hflags⟩ := Prod.mk.inj (Except.ok.inj hentry)
    cases hfree : memFreePage pmm s (4, 0) with
    | error e => rw [hfree] at hrun; contradiction
    | ok s' =>
      rw [hfree] at hrun
      obtain ⟨-, hpres, -⟩ : new = 6 ∧ (State.entry s' (4, 0)).present = true ∧ s'.refs 5 = 1 := by
        simpa using Except.ok.inj hrun
      have hpage : UserPage s 1 0x400000 := by
        intro y hy
        obtain rfl := Option.some.inj (hx.symm.trans hy)
        exact Prod.mk.inj hflags
      have hstep : Step pmm UserPage ⟨onePage 5 smallPmm, {1}⟩ ⟨s, {new, 1}⟩ :=
        .clone (Set.mem_singleton _) hcall
      refine ⟨_, Relation.ReflTransGen.single hstep, Set.mem_insert_of_mem _ rfl, hx, hpage,
        ⟨s', hfree, hpres⟩, fun hacc => ?_⟩
      obtain ⟨s'', hfree', hgone⟩ := hacc.freed 1 (Set.mem_insert_of_mem _ rfl) 0x400000 (by decide)
        (4, 0) hx hpage
      obtain rfl := Except.ok.inj (hfree.symm.trans hfree')
      rw [hpres] at hgone
      contradiction

end OnePage

end ReduceOS.References
