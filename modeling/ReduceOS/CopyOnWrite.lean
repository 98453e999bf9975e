import ReduceOS.Clone
import ReduceOS.UserAccess

/-!
User accesses over well-formed memory. The processor and the kernel walk the same
tables there, a store faults only on a shared page, and `mem_copyOnWrite` gives the
writer a frame of its own before the byte is stored. No other page is affected.
-/
namespace ReduceOS.CopyOnWrite

open Machine Page Physical Paging AddressSpace Outcome TableTree PageMap Sharing SharedPages Views
  Clone UserAccess

variable {P : Type} {L : LawfulAllocator P} {Y : Layout} {D : Domain FrameNo (Fin 512)}
  {Z : Set Slot} {s s' : State P} {r g f : FrameNo} {p q : List (Fin 512)} {i j : Fin 512}
  {F : Set FrameNo}

/-- Every entry the kernel follows leads where the processor goes. -/
theorem hardware_tableAt (hw : Formed L Y F D s) (hp : D.carrier r p) (hlen : p.length ≤ 3) :
    tableAt hNext s.phys r p = tableAt kNext s.phys r p := by
  apply walk_congr
  rintro q i ⟨q', rfl⟩ g hg
  have hq : q.length < 3 := by
    simp only [List.length_append, List.length_cons] at hlen
    omega
  rw [Nat.zero_add]
  cases hpres : (s.phys g i).present with
  | false =>
    have hfollow : follow q.length (s.phys g i) = false := by simp [follow, hpres]
    rw [hNext, hfollow, kNext_of_not_follow hfollow]
    rfl
  | true =>
    have hlinked := hw.linked r q i g (D.closed r (q ++ [i]) q' hp) hq hg hpres
    rw [hNext, (physFrame_of_kNext hlinked).1, hlinked]
    rfl

theorem clear_of_wf (hw : Formed L Y F D s) (hp : D.carrier r p) : Clear s.phys 0 r p := by
  rintro q i ⟨q', rfl⟩ g hg hfollow
  rw [Nat.zero_add] at hfollow ⊢
  simp only [follow, Bool.and_eq_true, decide_eq_true_eq] at hfollow
  exact ⟨_, hw.linked r q i g (D.closed r (q ++ [i]) q' hp) hfollow.1.1 hg hfollow.1.2⟩

section Address

variable {live : Set FrameNo} {dir : FrameNo} {a : Addr}

def position (a : Addr) : List (Fin 512) := path a ++ [pagetblIndex a]

theorem position_length (a : Addr) : (position a).length = 4 := by simp [position, path]

theorem carrier_position (hdir : dir ∈ live) (ha : isUser a = true) :
    (lower live).carrier dir (position a) := by
  refine ⟨hdir, by rw [position_length], ?_⟩
  have ha : a.toNat < 2 ^ 47 := of_decide_eq_true ha
  intro i hi
  obtain rfl : pml4Index a = i := by simpa [position, path] using hi
  rw [pml4Index, tableIndex_val]
  omega

theorem canonical_of_user (ha : isUser a = true) : isCanonical a = true := by
  rw [isCanonical_iff]
  have ha : a.toNat < 2 ^ 47 := of_decide_eq_true ha
  omega

/-- A user address is a page that user code may read, or shows nothing. -/
theorem userEntry_cases (hw : Formed L Y F (lower live) s) (hdir : dir ∈ live)
    (ha : isUser a = true) :
    (∃ g f w, PageAt (lower live) s.phys dir (path a) (pagetblIndex a) g ∧
        content (s.phys g (pagetblIndex a)) = some (f, w) ∧
        userEntry s.phys dir a = some (g, pagetblIndex a)) ∨
      userEntry s.phys dir a = none ∧ view s.phys dir (position a) = none := by
  have hpos := carrier_position hdir ha
  have hhard := hardware_tableAt hw ((lower live).closed dir (path a) [pagetblIndex a] hpos)
    (by simp [path])
  unfold userEntry pageEntry
  rw [ha, if_pos rfl, hhard]
  cases hg : tableAt kNext s.phys dir (path a) with
  | none => exact Or.inr ⟨rfl, view_of_no_table hg _⟩
  | some g =>
    have hx : PageAt (lower live) s.phys dir (path a) (pagetblIndex a) g :=
      ⟨hpos, by simp [path], hg⟩
    cases hc : content (s.phys g (pagetblIndex a)) with
    | none =>
      right
      have huser : ((s.phys g (pagetblIndex a)).present &&
          (s.phys g (pagetblIndex a)).usermode) = false := by
        by_contra hne
        rw [Bool.not_eq_false] at hne
        simp [content, hne] at hc
      refine ⟨?_, by rw [position, view_of_table hg, hc]; rfl⟩
      simp only [Option.map_some, Option.filter_some, huser]
      rfl
    | some c =>
      obtain ⟨f, w⟩ := c
      left
      obtain ⟨hpres, huser, -, -⟩ := content_eq_some.mp hc
      refine ⟨g, f, w, hx, hc, ?_⟩
      simp [Option.filter_some, hpres, huser]

/-- A load reads a byte of what the address space shows. -/
theorem load_eq (hw : Formed L Y F (lower live) s) (hdir : dir ∈ live) (ha : isUser a = true) :
    load s.phys dir a =
      (view s.phys dir (position a)).map fun fr => fr.byte (pageOffset a) := by
  unfold load
  rcases userEntry_cases hw hdir ha with ⟨g, f, w, hx, hc, huser⟩ | ⟨hnone, hview⟩
  · rw [huser, position, view_of_table hx.table, hc]
    obtain ⟨-, -, rfl, -⟩ := content_eq_some.mp hc
    rfl
  · rw [hnone, hview]
    rfl

end Address

/-- The page at `p`, `j` has been made private: it is writable and shows what it
showed. -/
structure Unshared (L : LawfulAllocator P) (Y : Layout) (Z : Set Slot)
    (D : Domain FrameNo (Fin 512)) (r : FrameNo) (p : List (Fin 512)) (j : Fin 512) (g : FrameNo)
    (s s' : State P) : Prop where
  wf : Wf L Y D s'
  keep : Keep Z (D.without r (p ++ [j])) s.phys s'.phys
  page : PageAt D s'.phys r p j g
  writable : ∃ f, content (s'.phys g j) = some (f, true)
  view : view s'.phys r (p ++ [j]) = view s.phys r (p ++ [j])

/-- `mem_copyOnWrite` makes a shared page private. -/
theorem memCopyOnWrite_spec (hw : Wf L Y D s) (hZ : Pins Y D Z) (hx : PageAt D s.phys r p j g)
    (hcontent : content (s.phys g j) = some (f, false)) :
    Meets Oom (memCopyOnWrite L.toAllocator s (g, j)) (Unshared L Y Z D r p j g s) := by
  obtain ⟨hpres, huser, rfl, hro⟩ := content_eq_some.mp hcontent
  have hold : holding D s.phys (g, j) = some ((s.phys g j).address, false) := by
    rw [hx.holding_eq, hcontent]
  have hcow := hw.pending (g, j) hx.slot hpres huser hro
  have hne : s.refs (s.phys g j).address ≠ 0 := by
    intro hz
    exact hw.exact.shared _ _ hold (by rw [hz]; rfl)
  have hview : view s.phys r (p ++ [j]) = some (s.phys (s.phys g j).address) := by
    rw [view_of_table hx.table, hcontent]
    rfl
  unfold memCopyOnWrite
  rw [if_neg (show ¬ (!(State.entry s (g, j)).cow) = true by simp [State.entry, hcow]),
    memDecrementPageReference_present s (g, j) hpres hne]
  change Meets Oom (if s.refs (s.phys g j).address - 1 = 0 then _ else _) _
  by_cases hone : s.refs (s.phys g j).address = 1
  · -- the last sharer keeps the frame
    rw [if_pos (by rw [hone]; rfl), show s.refs (State.entry s (g, j)).address = 1 from hone]
    let e : Entry := { s.phys g j with rw := true, cow := false }
    let s' := (s.setRefs (s.phys g j).address 0).setEntry g j e
    have hone' : (s.refs (s.phys g j).address).toNat = 1 := by rw [hone]; rfl
    have hnew : content e = some ((s.phys g j).address, true) :=
      content_eq_some.mpr ⟨hpres, huser, rfl, rfl⟩
    obtain ⟨hw', -, hkeep⟩ := setPage s' hw hZ hx (e := e) rfl rfl
      (fun _ _ hbad => absurd hbad (by simp [e]))
      (fun _ hker => absurd (huser.symm.trans hker) (by simp))
      (by
        rw [hnew, State.setEntry_refs, toNat_setRefs]
        exact hw.exact.promote hold hone')
      (fun f' => by rw [hnew, held_reput hold])
    have hkeep := hkeep rfl
    have hself : s'.phys g j = e := State.setEntry_phys_self _ _ _ _
    have hres : Unshared L Y Z D r p j g s s' :=
      ⟨hw', hkeep.mono (without_le D r _), hx.keep hkeep, ⟨_, by rw [hself, hnew]⟩,
        hkeep.view hx.carrier (by simp [hx.length])⟩
    exact hres
  · rw [if_neg (by bv_omega)]
    let s₁ := s.setRefs (s.phys g j).address (s.refs (s.phys g j).address - 1)
    have hlow := (hw.held _ ⟨(g, j), false, hold⟩).1.resolve_left (Set.notMem_empty _)
    refine meets_bind (copyFrame_spec (s := s₁) hw.valid (g, j) hlow) ?_
    rintro ⟨block, s₃⟩ ⟨f', s₂, hblock, htook₁, hs₃⟩
    obtain rfl : block = frameAddr f' := hblock
    obtain rfl : s₃ = s₂.setFrame f' (s.phys (s.phys g j).address) := hs₃
    have htook : Took L s f' { s₂ with refs := s.refs } :=
      ⟨htook₁.low, htook₁.fresh, htook₁.valid, htook₁.used, htook₁.phys, rfl⟩
    obtain ⟨hres, htable, hnot, hzero⟩ := fresh_of_took hw htook
    have hgf : g ≠ f' := fun heq => htable (heq ▸ hx.isTable)
    have hs₂ : s₂.phys = s.phys := htook₁.phys
    have hentry : State.entry (s₂.setFrame f' (s.phys (s.phys g j).address)) (g, j) =
        s.phys g j := by
      unfold State.entry
      rw [State.setFrame_phys_ne _ _ hgf, hs₂]
    let e : Entry := { s.phys g j with address := f', cow := false, rw := true }
    have hnew : content e = some (f', true) := content_eq_some.mpr ⟨hpres, huser, rfl, rfl⟩
    let s' := (s₂.setFrame f' (s.phys (s.phys g j).address)).setEntry g j e
    have hstate : State.setSlot (s₂.setFrame f' (s.phys (s.phys g j).address)) (g, j)
        { Page.setFrame (State.entry (s₂.setFrame f' (s.phys (s.phys g j).address)) (g, j))
            (frameAddr f') with cow := false, rw := true } = s' := by
      rw [hentry, setFrame_frameAddr]
      rfl
    have hne' : (s.refs (s.phys g j).address).toNat ≠ 1 :=
      fun h => hone (BitVec.eq_of_toNat_eq h)
    obtain ⟨y, hyx, hy⟩ := hw.exact.other_holder hold hne'
    have hsub : (s.refs (s.phys g j).address - 1).toNat =
        (s.refs (s.phys g j).address).toNat - 1 := by bv_omega
    have hrefs' : s'.refs = s₁.refs := htook₁.refs
    have hexact : Exact Y.uncounted
        (Function.update (holding D s.phys) (g, j) (some (f', true)))
        fun f => (s'.refs f).toNat := by
      rw [hrefs', toNat_setRefs, hsub, ← Function.update_idem]
      refine (hw.exact.dropRef hold).put (Function.update_self _ _ _) ?_ ?_ ?_
      · intro z w hz
        by_cases hzx : z = (g, j)
        · rw [hzx, Function.update_self] at hz
          contradiction
        · rw [Function.update_of_ne hzx] at hz
          exact hnot ⟨z, w, hz⟩
      · rw [Function.update_of_ne, hzero]
        · rfl
        · rintro rfl
          exact hnot ⟨(g, j), false, hold⟩
      · exact fun hU => hres (Y.uncounted_reserved hU)
    obtain ⟨hw', hkeep, hshow⟩ := install s' (s.phys (s.phys g j).address) hw hZ
      hx.length hx.carrier hx.table htook hnew
          (by simp only [s', State.setEntry, State.setFrame, hs₂]) rfl hexact (by
        intro f''
        rw [held_update_other hold hyx hy]
        refine or_congr_left ⟨?_, ?_⟩
        · rintro ⟨w, hw⟩
          exact (congrArg Prod.fst (Option.some.inj hw)).symm
        · rintro rfl
          exact ⟨true, rfl⟩)
    change Unshared L Y Z D r p j g s (State.setSlot _ _ _)
    rw [hstate]
    have hself : s'.phys g j = e := State.setEntry_phys_self _ _ _ _
    refine ⟨hw', hkeep, ⟨hx.carrier, hx.length, ?_⟩, ⟨f', by rw [hself, hnew]⟩, ?_⟩
    · rw [hkeep.tableAt, hx.table]
      refine ⟨D.closed r p [j] hx.carrier, ?_⟩
      rintro ⟨-, hbad⟩
      have := hbad.length_le
      simp at this
    · rw [hshow, hview]

/-- A store to a user page is not seen in any table. -/
theorem poke_sameEntries (hw : Wf L Y D s) (hx : PageAt D s.phys r p j g) {w : Bool}
    (hcontent : content (s.phys g j) = some (f, w)) (a : Addr) (b : BitVec 8) :
    SameEntries D s.phys (poke s (g, j) a b).phys := by
  obtain ⟨-, -, rfl, -⟩ := content_eq_some.mp hcontent
  have hheld : Held (holding D s.phys) (s.phys g j).address :=
    ⟨(g, j), w, by rw [hx.holding_eq, hcontent]⟩
  intro r' q i g' hq hg'
  have hne : g' ≠ (s.phys g j).address := by
    rintro rfl
    exact hw.not_table_of_held hheld ⟨r', q, D.closed r' q [i] hq, hg'⟩
  exact congrFun (State.setFrame_phys_ne _ _ hne) i

/-- A store through a writable page changes that page and no other. -/
theorem poke_spec (hw : Wf L Y D s) (hx : PageAt D s.phys r p j g)
    (hcontent : content (s.phys g j) = some (f, true)) (a : Addr) (b : BitVec 8) :
    Wf L Y D (poke s (g, j) a b) ∧
      (∀ r' q, D.carrier r' q → q.length = 4 → ¬ (r' = r ∧ q = p ++ [j]) →
        view (poke s (g, j) a b).phys r' q = view s.phys r' q) ∧
      view (poke s (g, j) a b).phys r (p ++ [j]) =
        (view s.phys r (p ++ [j])).map fun fr => fr.setByte (pageOffset a) b := by
  obtain ⟨hpres, huser, rfl, -⟩ := content_eq_some.mp hcontent
  have hold : holding D s.phys (g, j) = some ((s.phys g j).address, true) := by
    rw [hx.holding_eq, hcontent]
  have hheld : Held (holding D s.phys) (s.phys g j).address := ⟨(g, j), true, hold⟩
  have hother : ∀ f, f ≠ (s.phys g j).address → (poke s (g, j) a b).phys f = s.phys f :=
    fun f hf => State.setFrame_phys_ne _ _ hf
  have hs := poke_sameEntries hw hx hcontent a b
  refine ⟨hw.sameEntries hs rfl rfl, ?_, ?_⟩
  · intro r' q hq hlen hne
    rcases List.eq_nil_or_concat' q with rfl | ⟨q, k, rfl⟩
    · simp at hlen
    have hlen : q.length = 3 := by simpa using hlen
    have hsame := hs.tableAt (D.closed r' q [k] hq)
    cases hg' : tableAt kNext s.phys r' q with
    | none => rw [view_of_no_table hg', view_of_no_table (hsame.trans hg')]
    | some g' =>
      have hx' : PageAt D s.phys r' q k g' := ⟨hq, hlen, hg'⟩
      rw [view_of_table hg', view_of_table (hsame.trans hg'), hs r' q k g' hq hg']
      cases hc : content (s.phys g' k) with
      | none => rfl
      | some c =>
        obtain ⟨f', w⟩ := c
        have hf' : f' ≠ (s.phys g j).address := by
          rintro rfl
          have heq := (hw.exact.exclusive _ _ hold).2 (g', k) w (by rw [hx'.holding_eq, hc])
          obtain ⟨rfl, rfl⟩ := Prod.mk.inj heq
          obtain ⟨rfl, rfl⟩ := hw.tree r' q r p g' (D.closed r' q [k] hq)
            (D.closed r p [k] hx.carrier) hg' hx.table
          exact hne ⟨rfl, rfl⟩
        exact congrArg some (hother f' hf')
  · have hsame := hs.tableAt (D.closed r p [j] hx.carrier)
    rw [view_of_table hx.table, view_of_table (hsame.trans hx.table),
      hs r p j g hx.carrier hx.table, hcontent]
    exact congrArg some (State.setFrame_phys_self _ _ _)

section Store

variable {live : Set FrameNo} {process : Process} {a : Addr}

/-- The pages of `live` after a store by `dir` at `a`. -/
structure Stored (L : LawfulAllocator P) (Y : Layout) (live : Set FrameNo) (dir : FrameNo)
    (a : Addr) (b : BitVec 8) (s s' : State P) : Prop where
  wf : Wf L Y (lower live) s'
  others : ∀ r q, (lower live).carrier r q → q.length = 4 → ¬ (r = dir ∧ q = position a) →
    view s'.phys r q = view s.phys r q
  own : view s'.phys dir (position a) =
    (view s.phys dir (position a)).map fun fr => fr.setByte (pageOffset a) b

theorem userEntry_of_page (hw : Wf L Y (lower live) s) (hdir : process.dir ∈ live)
    (ha : isUser a = true)
    (hx : PageAt (lower live) s.phys process.dir (path a) (pagetblIndex a) g) {w : Bool}
    (hcontent : content (s.phys g (pagetblIndex a)) = some (f, w)) :
    userEntry s.phys process.dir a = some (g, pagetblIndex a) := by
  rcases userEntry_cases hw hdir ha with ⟨g', f', w', hx', -, huser⟩ | ⟨-, hview⟩
  · rw [huser, Option.some.inj (hx.table.symm.trans hx'.table)]
  · rw [position, view_of_table hx.table, hcontent] at hview
    exact absurd hview (Option.some_ne_none _)

theorem pageEntry_user (hw : Wf L Y (lower live) s) {dir : FrameNo}
    (hpos : (lower live).carrier dir (position a)) :
    pageEntry s.phys dir a = (tableAt kNext s.phys dir (path a)).map fun t =>
        (t, pagetblIndex a) := by
  rw [pageEntry, hardware_tableAt hw ((lower live).closed dir (path a) [pagetblIndex a] hpos)
    (by simp [path])]

/-- Looking a user address up finds what the processor finds. -/
theorem memGetPage_user (hw : Wf L Y (lower live) s) (ha : isUser a = true) {dir : FrameNo}
    (hpos : (lower live).carrier dir (position a)) :
    memGetPage L.toAllocator s dir a memDefault = .ok (pageEntry s.phys dir a, s) := by
  rw [memGetPage_lookup _ _ (canonical_of_user ha), lookup_of_clear (clear_of_wf hw
    ((lower live).closed dir (path a) [pagetblIndex a] hpos)), pageEntry_user hw hpos]
  rfl

theorem memPageFault_shared (hw : Wf L Y (lower live) s) (ha : isUser a = true)
    (hx : PageAt (lower live) s.phys process.dir (path a) (pagetblIndex a) g)
    (hcow : (s.phys g (pagetblIndex a)).cow = true) :
    memPageFault L.toAllocator s process a =
      (memCopyOnWrite L.toAllocator s (g, pagetblIndex a)).map fun s => (true, s) := by
  have hfind := memGetPage_user hw ha hx.carrier
  rw [pageEntry_user hw hx.carrier, hx.table, Option.map_some] at hfind
  unfold memPageFault
  rw [hfind]
  have hfilter : (some (g, pagetblIndex a)).filter (fun pg => (State.entry s pg).cow) =
      some (g, pagetblIndex a) := by
    simp [Option.filter_some, State.entry, hcow]
  simp only [bind, Except.bind, hfilter]
  rfl

/-- A store by user code to a page it can read either runs out of memory or changes
that one byte of that one address space. -/
theorem store_spec (hw : Wf L Y (lower live) s) (hdir : process.dir ∈ live)
    (hopen : (userEntry s.phys process.dir a).isSome) (b : BitVec 8) :
    Meets Oom (store L.toAllocator s process a b) fun res =>
      ∃ s', res = some s' ∧ Stored L Y live process.dir a b s s' := by
  have ha : isUser a = true := by
    unfold userEntry at hopen
    split at hopen
    · assumption
    · simp at hopen
  rcases userEntry_cases hw hdir ha with ⟨g, f, w, hx, hcontent, huser⟩ | ⟨hnone, -⟩
  swap
  · rw [hnone] at hopen
    simp at hopen
  have hpoke : ∀ t : State P, Wf L Y (lower live) t →
      PageAt (lower live) t.phys process.dir (path a) (pagetblIndex a) g →
      (∃ f, content (t.phys g (pagetblIndex a)) = some (f, true)) →
      ((userEntry t.phys process.dir a).filter fun x => (State.entry t x).rw) =
        some (g, pagetblIndex a) ∧
        Stored L Y live process.dir a b t (poke t (g, pagetblIndex a) a b) := by
    rintro t hwt hxt ⟨f', hc⟩
    obtain ⟨hwt', hothers, hown⟩ := poke_spec hwt hxt hc a b
    refine ⟨?_, hwt', hothers, hown⟩
    rw [userEntry_of_page hwt hdir ha hxt hc]
    simp [Option.filter_some, State.entry, (content_eq_some.mp hc).2.2.2]
  obtain ⟨hpres, hmode, rfl, rfl⟩ := content_eq_some.mp hcontent
  unfold store
  cases hrw : (s.phys g (pagetblIndex a)).rw with
  | true =>
    rw [hrw] at hcontent
    obtain ⟨hfilter, hstored⟩ := hpoke s hw hx ⟨_, hcontent⟩
    rw [hfilter]
    exact ⟨_, rfl, hstored⟩
  | false =>
    rw [hrw] at hcontent
    have hfilter : ((userEntry s.phys process.dir a).filter fun x => (State.entry s x).rw) =
        none := by
      rw [huser]
      simp [Option.filter_some, State.entry, hrw]
    have hcow := hw.pending (g, pagetblIndex a) hx.slot hpres hmode hrw
    rw [hfilter]
    simp only [memPageFault_shared hw ha hx hcow]
    have hcopy := memCopyOnWrite_spec (Z := ∅) hw (fun x hx => absurd hx (by simp)) hx hcontent
    cases hcall : memCopyOnWrite L.toAllocator s (g, pagetblIndex a) with
    | error e =>
      rw [hcall] at hcopy
      exact hcopy
    | ok t =>
      rw [hcall] at hcopy
      have hcopy : Unshared L Y ∅ (lower live) process.dir (path a) (pagetblIndex a) g s t := hcopy
      obtain ⟨hfilter', hstored⟩ := hpoke t hcopy.wf hcopy.page hcopy.writable
      dsimp only [bind, Except.bind, Except.map]
      rw [hfilter']
      refine ⟨_, rfl, hstored.wf, ?_, ?_⟩
      · intro r q hq hlen hne
        rw [hstored.others r q hq hlen hne]
        refine hcopy.keep.view ⟨hq, ?_⟩ hlen
        rintro ⟨rfl, hpre⟩
        exact hne ⟨rfl, (hpre.eq_of_length (by rw [hlen]; simp [path])).symm⟩
      · rw [hstored.own]
        exact congrArg _ hcopy.view

end Store

end ReduceOS.CopyOnWrite
