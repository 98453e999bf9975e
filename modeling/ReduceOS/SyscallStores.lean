import ReduceOS.References
import ReduceOS.HeapPages

/-!
Stores that system calls make into user memory. The kernel writes through user
pointers without the page fault that would break a pending copy, so a shared page is
changed for all its sharers. Where the calling process has no copy pending, the page
is its own, and no other process sees a change.
-/
namespace ReduceOS.SyscallStores

open Machine Page Physical Paging AddressSpace Outcome TableTree PageMap Sharing SharedPages Views
  Clone Destroy UserAccess UserHeap CopyOnWrite HeapPages WellBuilt Isolation References

variable {P : Type}

/-- The pointer check lets the page of `a` pass, and the page is there. -/
def AcceptedPage (s : State P) (dir : FrameNo) (a : Addr) : Prop :=
  (userEntry s.phys dir a).isSome

def SettledPage (s : State P) (dir : FrameNo) (a : Addr) : Prop :=
  ∃ x, userEntry s.phys dir a = some x ∧ (State.entry s x).cow = false

section Spec

variable {L : LawfulAllocator P} {Y : Layout} {live : Set FrameNo} {s s' : State P}
  {process : Process} {dir other : FrameNo} {a : Addr} {b : BitVec 8}

/-- Memory stays well-formed and no directory but `dir` shows a change. -/
structure OthersKept (L : LawfulAllocator P) (Y : Layout) (live : Set FrameNo) (dir : FrameNo)
    (s s' : State P) : Prop where
  wf : Wf L Y (lower live) s'
  views : ∀ r q, (lower live).carrier r q → q.length = 4 → r ≠ dir →
    view s'.phys r q = view s.phys r q

theorem OthersKept.refl (hw : Wf L Y (lower live) s) (dir : FrameNo) :
    OthersKept L Y live dir s s := ⟨hw, fun _ _ _ _ _ => rfl⟩

theorem OthersKept.trans {s'' : State P} (h : OthersKept L Y live dir s s')
    (h' : OthersKept L Y live dir s' s'') : OthersKept L Y live dir s s'' := by
  refine ⟨h'.wf, fun r q hq hlen hne => ?_⟩
  rw [h'.views r q hq hlen hne, h.views r q hq hlen hne]

theorem OthersKept.load_eq (h : OthersKept L Y live dir s s') (hw : Wf L Y (lower live) s)
    (hother : other ∈ live) (hne : other ≠ dir) (a : Addr) :
    load s'.phys other a = load s.phys other a :=
  load_congr hw h.wf hother hother fun ha =>
    h.views other (position a) (carrier_position hother ha) (position_length a) hne

/-- The page of a settled address belongs to its process alone. -/
theorem settled_page (hw : Wf L Y (lower live) s) (hdir : dir ∈ live) (hs : SettledPage s dir a) :
    ∃ g f, PageAt (lower live) s.phys dir (path a) (pagetblIndex a) g ∧
      content (s.phys g (pagetblIndex a)) = some (f, true) ∧
      pageEntry s.phys dir a = some (g, pagetblIndex a) := by
  obtain ⟨x, hx, hcow⟩ := hs
  have ha : isUser a = true := by
    by_contra hno
    simp [userEntry, hno] at hx
  rcases userEntry_cases hw hdir ha with ⟨g, f, w, hat, hc, huser⟩ | ⟨hnone, -⟩
  · obtain rfl := Option.some.inj (huser.symm.trans hx)
    refine ⟨g, f, hat, ?_, ?_⟩
    · obtain ⟨hpres, hmode, haddr, hrw⟩ := content_eq_some.mp hc
      cases hw' : w with
      | true => rw [hc, hw']
      | false =>
        have hpend := hw.pending (g, pagetblIndex a) hat.slot hpres hmode (hrw.trans hw')
        exact absurd (hpend.symm.trans hcow) (by decide)
    · rw [pageEntry_user hw hat.carrier, hat.table]
      rfl
  · rw [hnone] at hx
    exact absurd hx.symm (Option.some_ne_none _)

/-- A kernel store to a settled page stays in its address space. -/
theorem kernelStore_spec (hw : Wf L Y (lower live) s) (hdir : dir ∈ live)
    (hs : SettledPage s dir a) :
    ∃ s', kernelStore dir s (a, b) = .ok s' ∧ OthersKept L Y live dir s s' ∧
      ∀ a', SettledPage s dir a' → SettledPage s' dir a' := by
  obtain ⟨g, f, hat, hc, hentry⟩ := settled_page hw hdir hs
  have hpres := (content_eq_some.mp hc).1
  obtain ⟨hw', hothers, -⟩ := poke_spec hw hat hc a b
  have hsame := poke_sameEntries hw hat hc a b
  refine ⟨poke s (g, pagetblIndex a) a b, ?_, ⟨hw', ?_⟩, ?_⟩
  · simp [kernelStore, hentry, Option.filter_some, State.entry, hpres]
  · exact fun r q hq hlen hne => hothers r q hq hlen fun hbad => hne hbad.1
  · rintro a' ⟨x, hx, hcow⟩
    have ha' : isUser a' = true := by
      by_contra hno
      simp [userEntry, hno] at hx
    have hpos := carrier_position hdir ha'
    have hpath := (lower live).closed dir (path a') [pagetblIndex a'] hpos
    have hpage : pageEntry (poke s (g, pagetblIndex a) a b).phys dir a' =
        pageEntry s.phys dir a' := by
      rw [pageEntry_user hw' hpos, pageEntry_user hw hpos, hsame.tableAt hpath]
    have hfound : ∀ y, pageEntry s.phys dir a' = some y →
        (poke s (g, pagetblIndex a) a b).phys y.1 y.2 = s.phys y.1 y.2 := by
      intro y hy
      rw [pageEntry_user hw hpos] at hy
      obtain ⟨t, ht, rfl⟩ := Option.map_eq_some_iff.mp hy
      exact hsame dir (path a') (pagetblIndex a') t hpos ht
    simp only [userEntry, ha', if_true] at hx
    have hy := (Option.filter_eq_some_iff.mp hx).1
    refine ⟨x, ?_, ?_⟩
    · simp only [userEntry, ha', if_true, hpage]
      rw [← hx, hy]
      simp only [Option.filter_some, hfound x hy]
    · rw [State.entry, hfound x hy]
      exact hcow

/-- `SYSCALL_VALIDATE_PTR` finds the page open to user code, or maps a page below the
break. -/
theorem syscallValidatePtr_spec (hw : Wf L Y (lower live) s) (hstale : ¬ Y.stale)
    (hdir : process.dir ∈ live) (hheap : process.heap.toNat ≤ 2 ^ 47) {ptr : Addr}
    (hcall : syscallValidatePtr L.toAllocator process s ptr = .ok s') :
    OthersKept L Y live process.dir s s' := by
  unfold syscallValidatePtr memValidate at hcall
  cases hfind : memGetPage L.toAllocator s process.dir ptr memDefault with
  | error e => rw [hfind] at hcall; contradiction
  | ok res =>
    obtain ⟨page, s₁⟩ := res
    obtain rfl := memGetPage_unchanged hfind
    rw [hfind] at hcall
    have hmap : (∀ x, page = some x → (State.entry s₁ x).usermode = false) →
        syscallPointerValidateFailed L.toAllocator s₁ process ptr = .ok s' →
        OthersKept L Y live process.dir s₁ s' := by
      intro hclosed hmap
      unfold syscallPointerValidateFailed at hmap
      split_ifs at hmap with hin
      have hlt : ptr < process.heap := of_decide_eq_true (Bool.and_eq_true_iff.mp hin).2
      have ha : isUser ptr = true := by
        apply decide_eq_true
        exact Nat.lt_of_lt_of_le (BitVec.lt_def.mp hlt) hheap
      have hpos := carrier_position hdir ha
      rw [memGetPage_user hw ha hpos] at hfind
      have hpage : pageEntry s₁.phys process.dir ptr = page :=
        congrArg Prod.fst (Except.ok.inj hfind)
      have hview : view s₁.phys process.dir (position ptr) = none := by
        rw [pageEntry_user hw hpos] at hpage
        cases ht : tableAt kNext s₁.phys process.dir (path ptr) with
        | none => exact view_of_no_table ht _
        | some t =>
          rw [ht] at hpage
          have huser := hclosed (t, pagetblIndex ptr) hpage.symm
          rw [State.entry] at huser
          rw [position, view_of_table ht, content, huser, Bool.and_false]
          rfl
      obtain ⟨hw', hothers⟩ := meets_of_eq_ok (mapHeapPage_spec hw hstale hdir ha hview) hmap
      exact ⟨hw', fun r q hq hlen hne => hothers r q hq hlen fun hbad => hne hbad.1⟩
    cases hpage : page with
    | none =>
      rw [hpage] at hcall
      exact hmap (fun x hx => by
        rw [hpage] at hx; exact absurd hx.symm (Option.some_ne_none _)) hcall
    | some x =>
      rw [hpage] at hcall
      have hcall : (if validFor (State.entry s₁ x) (ptrUser ||| ptrStrict) = true then .ok s₁
        else syscallPointerValidateFailed L.toAllocator s₁ process ptr) = Except.ok s' := hcall
      rw [validFor_user] at hcall
      split_ifs at hcall with huser
      · obtain rfl := Except.ok.inj hcall
        exact OthersKept.refl hw _
      · refine hmap ?_ hcall
        intro y hy
        rw [hpage] at hy
        rw [← Option.some.inj hy]
        exact Bool.not_eq_true _ ▸ huser

/-- The loop of `SYSCALL_VALIDATE_PTR_SIZE`. -/
theorem syscallValidatePtrs_spec (hstale : ¬ Y.stale) (hdir : process.dir ∈ live)
    (hheap : process.heap.toNat ≤ 2 ^ 47) (l : List Addr) (hw : Wf L Y (lower live) s)
    (hcall : l.foldlM (syscallValidatePtr L.toAllocator process) s = .ok s') :
    OthersKept L Y live process.dir s s' := by
  induction l generalizing s with
  | nil =>
    obtain rfl := Except.ok.inj hcall
    exact OthersKept.refl hw _
  | cons ptr l ih =>
    rw [List.foldlM_cons] at hcall
    cases hfirst : syscallValidatePtr L.toAllocator process s ptr with
    | error e => rw [hfirst] at hcall; contradiction
    | ok s₁ =>
      rw [hfirst] at hcall
      have hkept := syscallValidatePtr_spec hw hstale hdir hheap hfirst
      exact hkept.trans (ih hkept.wf hcall)

theorem kernelStores_spec (hdir : dir ∈ live) (l : List (Addr × BitVec 8))
    (hw : Wf L Y (lower live) s) (hs : ∀ w ∈ l, SettledPage s dir w.1) :
    ∃ s', l.foldlM (kernelStore dir) s = .ok s' ∧ OthersKept L Y live dir s s' := by
  induction l generalizing s with
  | nil => exact ⟨s, rfl, OthersKept.refl hw dir⟩
  | cons w l ih =>
    obtain ⟨s₁, hfirst, hkept, hsettled⟩ :=
      kernelStore_spec (b := w.2) hw hdir (hs w List.mem_cons_self)
    obtain ⟨s', hrest, hkept'⟩ := ih hkept.wf fun v hv =>
      hsettled v.1 (hs v (List.mem_cons_of_mem w hv))
    refine ⟨s', ?_, hkept.trans hkept'⟩
    rw [List.foldlM_cons, show kernelStore dir s w = .ok s₁ from hfirst]
    exact hrest

def readWrites (file : Option (List (BitVec 8))) (buffer count : Addr) :
    List (Addr × BitVec 8) :=
  bufferWrites buffer ((file.getD []).take count.toNat)

/-- `sys_read` into settled pages. -/
theorem sysRead_spec (hw : Wf L Y (lower live) s) (hstale : ¬ Y.stale)
    (hdir : process.dir ∈ live) (hheap : process.heap.toNat ≤ 2 ^ 47)
    {file : Option (List (BitVec 8))} {buffer count : Addr}
    (hs : ∀ s₁, syscallValidatePtrSize L.toAllocator s process buffer count = .ok s₁ →
      ∀ w ∈ readWrites file buffer count, SettledPage s₁ process.dir w.1)
    (hcall : sysRead L.toAllocator s process file buffer count = .ok s') :
    OthersKept L Y live process.dir s s' := by
  unfold sysRead at hcall
  cases hcheck : syscallValidatePtrSize L.toAllocator s process buffer count with
  | error e => rw [hcheck] at hcall; contradiction
  | ok s₁ =>
    rw [hcheck] at hcall
    have hkept := syscallValidatePtrs_spec hstale hdir hheap _ hw hcheck
    cases file with
    | none =>
      obtain rfl := Except.ok.inj hcall
      exact hkept
    | some data =>
      obtain ⟨s₂, hstores, hkept'⟩ := kernelStores_spec hdir _ hkept.wf (hs s₁ hcheck)
      obtain rfl := Except.ok.inj (hstores.symm.trans hcall)
      exact hkept.trans hkept'

end Spec

/-- One action of one process. A system call is its checks and its stores; the kernel
stores where `ok` allows it, and `sys_brk` frees unshared pages only. -/
inductive Action (A : Allocator P) (ok : State P → FrameNo → Addr → Prop) :
    Spaces P → Spaces P → Prop
  | fork {c : Spaces P} {dir new : FrameNo} {s : State P} (hdir : dir ∈ c.live)
      (hcall : memClone A c.state dir = .ok (new, s)) : Action A ok c ⟨s, insert new c.live⟩
  | write {c : Spaces P} {process : Process} {a : Addr} {b : BitVec 8} {s : State P}
      (hdir : process.dir ∈ c.live) (hopen : (userEntry c.state.phys process.dir a).isSome)
      (hcall : store A c.state process a b = .ok (some s)) : Action A ok c ⟨s, c.live⟩
  | fault {c : Spaces P} {process : Process} {a : Addr} {again : Bool} {s : State P}
      (hdir : process.dir ∈ c.live) (ha : isUser a = true)
      (hfault : ∀ x, pageEntry c.state.phys process.dir a = some x →
        (State.entry c.state x).present = true →
        ((State.entry c.state x).usermode = true → (State.entry c.state x).rw = false) ∧
          ((State.entry c.state x).cow = true → (State.entry c.state x).usermode = true))
      (hcall : memPageFault A c.state process a = .ok (again, s)) : Action A ok c ⟨s, c.live⟩
  | check {c : Spaces P} {process : Process} {ptr : Addr} {s : State P}
      (hdir : process.dir ∈ c.live) (hheap : process.heap.toNat ≤ 2 ^ 47)
      (hcall : syscallValidatePtr A process c.state ptr = .ok s) : Action A ok c ⟨s, c.live⟩
  | kernelWrite {c : Spaces P} {dir : FrameNo} {a : Addr} {b : BitVec 8} {s : State P}
      (hdir : dir ∈ c.live) (hok : ok c.state dir a)
      (hcall : kernelStore dir c.state (a, b) = .ok s) : Action A ok c ⟨s, c.live⟩
  | shrink {c : Spaces P} {dir : FrameNo} {start size : Addr} {s : State P} (hdir : dir ∈ c.live)
      (huser : ∀ i ∈ freeRange start size, isUser i = true)
      (hfree : ∀ i ∈ freeRange start size, UnsharedPage c.state dir i)
      (hcall : memFree A c.state dir start size = .ok s) : Action A ok c ⟨s, c.live⟩
  | exit {c : Spaces P} {dir : FrameNo} {s : State P} (hdir : dir ∈ c.live)
      (hcall : memDestroyVAS A c.state dir = .ok s) : Action A ok c ⟨s, c.live \ {dir}⟩

def Actions (A : Allocator P) (ok : State P → FrameNo → Addr → Prop) :
    Spaces P → Spaces P → Prop := Relation.ReflTransGen (Action A ok)

/-- Pages the kernel may store to are the caller's own, and neither a single store nor a
whole `sys_read` changes what another process reads. -/
structure CallsIsolated (A : Allocator P) (ok : State P → FrameNo → Addr → Prop)
    (c : Spaces P) : Prop where
  broken : ∀ dir ∈ c.live, ∀ a, ok c.state dir a → ∃ x, pageEntry c.state.phys dir a = some x ∧
    (State.entry c.state x).rw = true ∧
    mappers c.live c.state.phys (State.entry c.state x).address = {x}
  stores : ∀ dir ∈ c.live, ∀ a b s, ok c.state dir a → kernelStore dir c.state (a, b) = .ok s →
    ∀ other ∈ c.live, other ≠ dir → ∀ a', load s.phys other a' = load c.state.phys other a'
  reads : ∀ process : Process, process.dir ∈ c.live → process.heap.toNat ≤ 2 ^ 47 →
    ∀ file buffer count s, sysRead A c.state process file buffer count = .ok s →
    (∀ s₁, syscallValidatePtrSize A c.state process buffer count = .ok s₁ →
      ∀ w ∈ readWrites file buffer count, ok s₁ process.dir w.1) →
    ∀ other ∈ c.live, other ≠ process.dir → ∀ a, load s.phys other a = load c.state.phys other a

section Run

variable {L : LawfulAllocator P} {Y : Layout} {c c' : Spaces P} {s : State P} {live : Set FrameNo}

theorem wf_action (hw : Wf L Y (lower c.live) c.state) (hstale : ¬ Y.stale)
    (h : Action L.toAllocator SettledPage c c') : Wf L Y (lower c'.live) c'.state := by
  cases h with
  | fork hdir hcall => exact (meets_of_eq_ok (memClone_spec hw (noPins Y _) hdir) hcall).2.1
  | write hdir hopen hcall =>
    obtain ⟨s, hs, hstored⟩ := meets_of_eq_ok (store_spec hw hdir hopen _) hcall
    obtain rfl := Option.some.inj hs
    exact hstored.wf
  | fault hdir ha hfault hcall =>
    exact (meets_of_eq_ok (memPageFault_retains hw hstale hdir ha hfault) hcall).wf
  | check hdir hheap hcall => exact (syscallValidatePtr_spec hw hstale hdir hheap hcall).wf
  | kernelWrite hdir hok hcall =>
    obtain ⟨s, hs, hkept, -⟩ := kernelStore_spec hw hdir hok
    obtain rfl := Except.ok.inj (hs.symm.trans hcall)
    exact hkept.wf
  | shrink hdir huser hfree hcall =>
    exact (meets_of_eq_ok (memFree_spec hw hdir _ _ huser hfree) hcall).1
  | exit hdir hcall => exact (meets_of_eq_ok (memDestroyVAS_spec hw (noPins Y _) hdir) hcall).wf

theorem wf_actions (hw : Wf L Y (lower c.live) c.state) (hstale : ¬ Y.stale)
    (h : Actions L.toAllocator SettledPage c c') : Wf L Y (lower c'.live) c'.state := by
  induction h with
  | refl => exact hw
  | tail _ hstep ih => exact wf_action ih hstale hstep

theorem callsIsolated_of_wf (hw : Wf L Y (lower c.live) c.state) (hstale : ¬ Y.stale) :
    CallsIsolated L.toAllocator SettledPage c := by
  refine ⟨?_, ?_, ?_⟩
  · intro dir hdir a hs
    obtain ⟨g, f, hat, hc, hentry⟩ := settled_page hw hdir hs
    have hold : holding (lower c.live) c.state.phys (g, pagetblIndex a) = some (f, true) := by
      rw [hat.holding_eq, hc]
    obtain ⟨-, -, haddr, hrw⟩ := content_eq_some.mp hc
    refine ⟨_, hentry, hrw, ?_⟩
    rw [State.entry, haddr, mappers_eq hw]
    ext y
    constructor
    · rintro ⟨w, hy⟩
      exact (hw.exact.exclusive _ _ hold).2 y w hy
    · rintro rfl
      exact ⟨true, hold⟩
  · intro dir hdir a b s hs hcall other hother hne a'
    obtain ⟨s', hs', hkept, -⟩ := kernelStore_spec (b := b) hw hdir hs
    obtain rfl := Except.ok.inj (hs'.symm.trans hcall)
    exact hkept.load_eq hw hother hne a'
  · intro process hdir hheap file buffer count s hcall hs other hother hne a
    exact (sysRead_spec hw hstale hdir hheap hs hcall).load_eq hw hother hne a

/-- In every run in which the kernel stores to settled pages only, its stores stay in
the address space of the caller. -/
theorem callsIsolated_of_actions (hv : L.valid s.pmm) (hb : Built (L.used s.pmm) live s)
    (hc : Counted live s) (hsized : Unsized live s.phys) (hlow : Low live s.phys)
    (h : Actions L.toAllocator SettledPage ⟨s, live⟩ c) :
    CallsIsolated L.toAllocator SettledPage c := by
  let Y : Layout := ⟨spare L s live, spare L s live, Set.univ, False, le_refl _⟩
  have hw : Wf L Y (lower live) s :=
    wf_of_layout rfl (fun _ hf hU => absurd hf hU) (fun _ _ _ _ => Set.mem_univ _)
      (fun _ => hsized) hv hb hc hlow
  exact callsIsolated_of_wf (wf_actions hw not_false h) not_false

end Run

section OnePage

open PmmAllocator

/-- A clone of the only directory reads the byte 9 into the shared page: the clone, whether
the page is accepted, and the byte its parent reads before and after. -/
private def cloneThenRead :
    Except Panic (FrameNo × Bool × Option (BitVec 8) × Option (BitVec 8)) := do
  let (new, s) ← memClone pmm (onePage 5 smallPmm) 1
  let s₁ ← syscallValidatePtrSize pmm s ⟨new, 0, 0⟩ 0x400000 1
  let s' ← sysRead pmm s ⟨new, 0, 0⟩ (some [9]) 0x400000 1
  return (new, (userEntry s₁.phys new 0x400000).isSome, load s.phys 1 0x400000,
    load s'.phys 1 0x400000)

private theorem reach_cloneThenRead (ok : State Pmm.State → FrameNo → Addr → Prop) :
    ∃ s, Actions pmm ok ⟨onePage 5 smallPmm, {1}⟩ ⟨s, {6, 1}⟩ ∧
      (∀ s₁, syscallValidatePtrSize pmm s ⟨6, 0, 0⟩ 0x400000 1 = .ok s₁ →
        AcceptedPage s₁ 6 0x400000) ∧
      load s.phys 1 0x400000 = some 0 ∧
      ∃ s', sysRead pmm s ⟨6, 0, 0⟩ (some [9]) 0x400000 1 = .ok s' ∧
        load s'.phys 1 0x400000 = some 9 := by
  have hrun : cloneThenRead = .ok (6, true, some 0, some 9) := by decide +kernel
  unfold cloneThenRead at hrun
  cases hclone : memClone pmm (onePage 5 smallPmm) 1 with
  | error e => rw [hclone] at hrun; contradiction
  | ok res =>
    obtain ⟨new, s⟩ := res
    rw [hclone] at hrun
    simp only [bind, Except.bind] at hrun
    cases hcheck : syscallValidatePtrSize pmm s ⟨new, 0, 0⟩ 0x400000 1 with
    | error e => rw [hcheck] at hrun; contradiction
    | ok s₁ =>
      rw [hcheck] at hrun
      cases hread : sysRead pmm s ⟨new, 0, 0⟩ (some [9]) 0x400000 1 with
      | error e => rw [hread] at hrun; contradiction
      | ok s' =>
        rw [hread] at hrun
        obtain ⟨rfl, hrest⟩ := Prod.mk.inj (Except.ok.inj hrun)
        obtain ⟨hopen, hrest⟩ := Prod.mk.inj hrest
        obtain ⟨hbefore, hafter⟩ := Prod.mk.inj hrest
        refine ⟨s, Relation.ReflTransGen.single (.fork (Set.mem_singleton _) hclone), ?_, hbefore,
          s', hread, hafter⟩
        intro s₂ hcheck'
        obtain rfl := Except.ok.inj (hcheck.symm.trans hcheck')
        exact hopen

/-- What the bytes at the page are for the child and for its parent after two calls of `sys_read`
behind a page fault of the child. -/
private def childReads (s : State Pmm.State) : Bool :=
  decide (pageEntry s.phys 6 0x400000 = some (9, 0)) && (State.entry s (9, 0)).usermode &&
    !(State.entry s (9, 0)).rw &&
    holds (memPageFault pmm s ⟨6, 0, 0⟩ 0x400000) fun r =>
      decide (userEntry r.2.phys 6 0x400000 = some (9, 0)) && !(State.entry r.2 (9, 0)).cow &&
        holds (kernelStore 6 r.2 (0x400000, 9)) fun s =>
          decide (load s.phys 6 0x400000 = some 9) && decide (load s.phys 1 0x400000 = some 0) &&
            holds (sysRead pmm s ⟨6, 0, 0⟩ (some [7]) 0x400000 1) fun s =>
              decide (load s.phys 6 0x400000 = some 7) && decide (load s.phys 1 0x400000 = some 0)

/-- After a fork the child gets a copy of the page by a fault, and what is read into it is not seen
by the parent. -/
theorem callsIsolated_of_actions_read :
    ∃ c, Actions pmm SettledPage ⟨onePage 5 smallPmm, {1}⟩ c ∧ 6 ∈ c.live ∧
      load c.state.phys 6 0x400000 = some 9 ∧ load c.state.phys 1 0x400000 = some 0 ∧
      (∃ s, sysRead pmm c.state ⟨6, 0, 0⟩ (some [7]) 0x400000 1 = .ok s ∧
        load s.phys 6 0x400000 = some 7 ∧ load s.phys 1 0x400000 = some 0) ∧
      CallsIsolated pmm SettledPage c := by
  obtain ⟨⟨new, s⟩, hclone, hrest⟩ := ok_of_holds (r := memClone pmm (onePage 5 smallPmm) 1)
    (P := fun r => decide (r.1 = 6) && childReads r.2) (by decide +kernel)
  simp only [childReads, Bool.and_eq_true, decide_eq_true_eq, Bool.not_eq_true'] at hrest
  obtain ⟨rfl, ⟨⟨hentry, huser⟩, hro⟩, hrest⟩ := hrest
  obtain ⟨⟨again, s₁⟩, hfault, hrest⟩ := ok_of_holds hrest
  simp only [Bool.and_eq_true, decide_eq_true_eq, Bool.not_eq_true'] at hrest
  obtain ⟨⟨hopen, hcow⟩, hrest⟩ := hrest
  obtain ⟨s₂, hstore, hrest⟩ := ok_of_holds hrest
  simp only [Bool.and_eq_true, decide_eq_true_eq] at hrest
  obtain ⟨⟨hchild, hparent⟩, hrest⟩ := hrest
  obtain ⟨s₃, hread, hseen⟩ := ok_of_holds hrest
  simp only [Bool.and_eq_true, decide_eq_true_eq] at hseen
  have hforked : Action pmm SettledPage ⟨onePage 5 smallPmm, {1}⟩ ⟨s, {6, 1}⟩ :=
    .fork (Set.mem_singleton _) hclone
  have hcopied : Action pmm SettledPage ⟨s, {6, 1}⟩ ⟨s₁, {6, 1}⟩ := by
    refine .fault (Set.mem_insert _ _) (by decide) ?_ hfault
    intro x hx _
    obtain rfl := Option.some.inj (hentry.symm.trans hx)
    exact ⟨fun _ => hro, fun _ => huser⟩
  have hwritten : Action pmm SettledPage ⟨s₁, {6, 1}⟩ ⟨s₂, {6, 1}⟩ :=
    .kernelWrite (Set.mem_insert _ _) ⟨_, hopen, hcow⟩ hstore
  have hreach := ((Relation.ReflTransGen.single hforked).tail hcopied).tail hwritten
  have hfits : bitmap.valid (onePage 5 smallPmm).pmm :=
    show smallPmm.nframes.toNat ≤ 2 ^ 19 by decide
  exact ⟨_, hreach, Set.mem_insert _ _, hchild, hparent, ⟨s₃, hread, hseen⟩,
    callsIsolated_of_actions hfits (onePage_built (by decide) (by decide) (by decide))
      onePage_allPrivate.counted onePage_unsized (onePage_low (by decide)) hreach⟩

/-- A `sys_read` into a page still shared after a fork changes the parent's page. -/
theorem sysRead_changes_parent :
    ∃ c, Actions pmm AcceptedPage ⟨onePage 5 smallPmm, {1}⟩ c ∧ 1 ∈ c.live ∧ 6 ∈ c.live ∧
      load c.state.phys 1 0x400000 = some 0 ∧
      (∃ s, sysRead pmm c.state ⟨6, 0, 0⟩ (some [9]) 0x400000 1 = .ok s ∧
        load s.phys 1 0x400000 = some 9) ∧
      ¬ CallsIsolated pmm AcceptedPage c := by
  obtain ⟨s, hreach, hopen, hbefore, s', hread, hafter⟩ := reach_cloneThenRead AcceptedPage
  have hone : (1 : FrameNo) ∈ ({6, 1} : Set FrameNo) := Or.inr rfl
  have hsix : (6 : FrameNo) ∈ ({6, 1} : Set FrameNo) := Or.inl rfl
  refine ⟨_, hreach, hone, hsix, hbefore, ⟨s', hread, hafter⟩, fun hiso => ?_⟩
  have hwrites : readWrites (some [9]) 0x400000 1 = [((0x400000 : Addr), (9 : BitVec 8))] := by
    decide
  have hsame := hiso.reads ⟨6, 0, 0⟩ hsix (by decide) (some [9]) 0x400000 1 s' hread (by
    intro s₁ hcheck w hw
    rw [hwrites] at hw
    rw [List.mem_singleton.mp hw]
    exact hopen s₁ hcheck) 1 hone (by decide) 0x400000
  rw [hafter, hbefore] at hsame
  exact absurd hsame (by decide)

end OnePage

end ReduceOS.SyscallStores
