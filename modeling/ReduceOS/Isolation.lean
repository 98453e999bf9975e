import ReduceOS.WellBuilt
import Mathlib.Logic.Relation

/-!
Copy-on-write isolation over whole runs. A run interleaves clones, stores and
destructions of any number of address spaces; beside it runs a model in which every
address space simply owns its bytes, a clone copies them and a store changes one.
As long as all frames lie below 2 GiB, every load agrees with that model.
-/
namespace ReduceOS.Isolation

open Machine Page Physical Paging AddressSpace Outcome TableTree PageMap Sharing SharedPages Views
  Clone Destroy UserAccess CopyOnWrite WellBuilt

variable {P : Type}

/-- The machine, the live directories, and for each of them the bytes its owner expects
to read. -/
structure Config (P : Type) where
  state : State P
  live : Set FrameNo
  bytes : FrameNo → Addr → Option (BitVec 8)

/-- One operation on one address space. Loads change nothing and are not steps. -/
inductive Step (A : Allocator P) : Config P → Config P → Prop
  | clone {c : Config P} {dir new : FrameNo} {s : State P} (hdir : dir ∈ c.live)
      (hcall : memClone A c.state dir = .ok (new, s)) :
      Step A c ⟨s, insert new c.live, Function.update c.bytes new (c.bytes dir)⟩
  | write {c : Config P} {process : Process} {a : Addr} {b : BitVec 8} {s : State P}
      (hdir : process.dir ∈ c.live) (hopen : (userEntry c.state.phys process.dir a).isSome)
      (hcall : store A c.state process a b = .ok (some s)) :
      Step A c ⟨s, c.live, Function.update c.bytes process.dir
        (Function.update (c.bytes process.dir) a (some b))⟩
  | destroy {c : Config P} {dir : FrameNo} {s : State P} (hdir : dir ∈ c.live)
      (hcall : memDestroyVAS A c.state dir = .ok s) :
      Step A c ⟨s, c.live \ {dir}, c.bytes⟩

def Reach (A : Allocator P) : Config P → Config P → Prop := Relation.ReflTransGen (Step A)

/-- Every load returns what its owner expects, and no operation stops the kernel unless
memory runs out. -/
structure Isolated (A : Allocator P) (c : Config P) : Prop where
  reads : ∀ dir ∈ c.live, ∀ a, load c.state.phys dir a = c.bytes dir a
  clones : ∀ dir ∈ c.live, Meets Oom (memClone A c.state dir) fun _ => True
  writes : ∀ process : Process, process.dir ∈ c.live → ∀ a b,
    (userEntry c.state.phys process.dir a).isSome →
    Meets Oom (store A c.state process a b) fun res => res.isSome
  destroys : ∀ dir ∈ c.live, ∃ s, memDestroyVAS A c.state dir = .ok s

section Run

variable {L : LawfulAllocator P} {Y : Layout} {c c' : Config P} {s s' : State P}
  {live : Set FrameNo} {dir : FrameNo} {a a' : Addr}

theorem user_addr_ext (ha : isUser a = true) (ha' : isUser a' = true)
    (hpos : position a' = position a) (hoff : pageOffset a' = pageOffset a) : a' = a := by
  have ha : a.toNat < 2 ^ 47 := of_decide_eq_true ha
  have ha' : a'.toNat < 2 ^ 47 := of_decide_eq_true ha'
  have hoff : a'.toNat % 4096 = a.toNat % 4096 := congrArg Fin.val hoff
  simp only [position, path, List.cons_append, List.nil_append, List.cons.injEq, and_true,
    ← Fin.val_inj, pml4Index, pdptIndex, pagedirIndex, pagetblIndex, tableIndex_val] at hpos
  apply BitVec.eq_of_toNat_eq
  omega

theorem load_eq_none (ha : isUser a = false) : load s.phys dir a = none := by
  simp [load, userEntry, ha]

theorem load_congr {dir' : FrameNo} {live' F : Set FrameNo} (hw : Formed L Y F (lower live) s)
    (hw' : Formed L Y F (lower live') s') (hdir : dir ∈ live) (hdir' : dir' ∈ live')
    (hview : isUser a = true → view s'.phys dir' (position a) = view s.phys dir (position a)) :
    load s'.phys dir' a = load s.phys dir a := by
  cases ha : isUser a with
  | false => rw [load_eq_none ha, load_eq_none ha]
  | true => rw [load_eq hw hdir ha, load_eq hw' hdir' ha, hview ha]

theorem Stored.load_eq (hw : Wf L Y (lower live) s) {process : Process} {b : BitVec 8}
    (hopen : (userEntry s.phys process.dir a).isSome) (hp : process.dir ∈ live)
    (hs : Stored L Y live process.dir a b s s') (hdir : dir ∈ live) (a' : Addr) :
    load s'.phys dir a' =
      if dir = process.dir ∧ a' = a then some b else load s.phys dir a' := by
  have ha : isUser a = true := by
    by_contra hno
    simp [userEntry, hno] at hopen
  by_cases hsame : dir = process.dir ∧ position a' = position a
  swap
  · rw [if_neg (fun h => hsame ⟨h.1, by rw [h.2]⟩)]
    refine load_congr hw hs.wf hdir hdir fun ha' => ?_
    refine hs.others dir _ (carrier_position hdir ha') (position_length a') hsame
  obtain ⟨rfl, hpos⟩ := hsame
  cases ha' : isUser a' with
  | false =>
    rw [load_eq_none ha', load_eq_none ha', if_neg]
    rintro ⟨-, rfl⟩
    rw [ha] at ha'
    contradiction
  | true =>
    rw [CopyOnWrite.load_eq hs.wf hdir ha', CopyOnWrite.load_eq hw hdir ha', hpos, hs.own,
      Option.map_map]
    have hsome : ∃ fr, view s.phys process.dir (position a) = some fr := by
      rcases userEntry_cases hw hp ha with ⟨g, f, w, hx, hc, -⟩ | ⟨hnone, -⟩
      · exact ⟨_, by rw [position, view_of_table hx.table, hc]; rfl⟩
      · rw [hnone] at hopen
        simp at hopen
    obtain ⟨fr, hfr⟩ := hsome
    rw [hfr]
    simp only [Option.map_some, Function.comp_apply, Frame.byte_setByte, true_and]
    by_cases heq : a' = a
    · subst heq
      simp
    · rw [if_neg heq, if_neg fun hoff => heq (user_addr_ext ha ha' hpos hoff)]

def Inv (L : LawfulAllocator P) (Y : Layout) (c : Config P) : Prop :=
  Wf L Y (lower c.live) c.state ∧ ∀ dir ∈ c.live, ∀ a, load c.state.phys dir a = c.bytes dir a

theorem noPins (Y : Layout) (D : Domain FrameNo (Fin 512)) : Pins Y D ∅ :=
  fun _ hx => absurd hx (Set.notMem_empty _)

theorem Inv.step (hi : Inv L Y c) (hstep : Step L.toAllocator c c') : Inv L Y c' := by
  obtain ⟨hw, hreads⟩ := hi
  cases hstep with
  | @clone dir new s hdir hcall =>
    obtain ⟨hfresh, hw', hkeep, hviews⟩ := meets_of_eq_ok
      (memClone_spec hw (noPins Y _) hdir) hcall
    have hnew : new ∉ c.live := fun hbad =>
      hfresh ((hw.used new).mpr (Or.inr (Or.inl ⟨new, [], ⟨hbad, by simp, by simp⟩, rfl⟩)))
    refine ⟨hw', ?_⟩
    dsimp only
    rintro d (rfl | hd) a
    · rw [Function.update_self, ← hreads dir hdir a]
      exact load_congr hw hw' hdir (Set.mem_insert _ _) fun ha =>
        hviews _ (carrier_position hdir ha) (position_length a)
    · have hne : d ≠ new := fun heq => hnew (heq ▸ hd)
      rw [Function.update_of_ne hne, ← hreads d hd a]
      exact load_congr hw hw' hd (Set.mem_insert_of_mem _ hd) fun ha =>
        hkeep.view (carrier_position hd ha) (position_length a)
  | @write process a b s hdir hopen hcall =>
    obtain ⟨t, ht, hstored⟩ := meets_of_eq_ok (store_spec hw hdir hopen b) hcall
    obtain rfl := Option.some.inj ht
    refine ⟨hstored.wf, ?_⟩
    dsimp only
    intro d hd a'
    rw [Stored.load_eq hw hopen hdir hstored hd a', hreads d hd a']
    by_cases hd' : d = process.dir
    · subst hd'
      rw [Function.update_self, Function.update_apply]
      simp
    · rw [Function.update_of_ne hd', if_neg fun h => hd' h.1]
  | @destroy dir s hdir hcall =>
    obtain ⟨hw', hkeep⟩ := meets_of_eq_ok (memDestroyVAS_spec hw (noPins Y _) hdir) hcall
    refine ⟨hw', ?_⟩
    intro d hd a
    rw [← hreads d hd.1 a]
    refine load_congr hw hw' hd.1 hd fun ha => ?_
    exact hkeep.view (carrier_position hd ha) (position_length a)

theorem Inv.reach (hi : Inv L Y c) (h : Reach L.toAllocator c c') : Inv L Y c' := by
  induction h with
  | refl => exact hi
  | tail _ hstep ih => exact ih.step hstep

theorem Inv.isolated (hi : Inv L Y c) : Isolated L.toAllocator c := by
  obtain ⟨hw, hreads⟩ := hi
  refine ⟨hreads, ?_, ?_, ?_⟩
  · intro dir hdir
    exact meets_mono (memClone_spec hw (noPins Y _) hdir) fun _ _ => trivial
  · intro process hdir a b hopen
    refine meets_mono (store_spec hw hdir hopen b) ?_
    rintro _ ⟨s', rfl, -⟩
    rfl
  · intro dir hdir
    have hspec := memDestroyVAS_spec hw (noPins Y _) hdir
    cases hcall : memDestroyVAS L.toAllocator c.state dir with
    | ok s => exact ⟨s, rfl⟩
    | error e =>
      rw [hcall] at hspec
      exact hspec.elim

/-- From private pages below 2 GiB, every state of every run is isolated. -/
theorem isolated_of_reach (hv : L.valid s.pmm) (hb : Built (L.used s.pmm) live s)
    (hp : AllPrivate live s) (hlow : Low live s.phys)
    (h : Reach L.toAllocator ⟨s, live, load s.phys⟩ c) : Isolated L.toAllocator c := by
  have hinv : Inv L (startLayout L s live) ⟨s, live, load s.phys⟩ :=
    ⟨wf_of_counted hv hb hp.counted hlow, fun _ _ _ => rfl⟩
  exact (hinv.reach h).isolated

end Run

section OnePage

/-- The directory and the byte seen at 0x400001 after a clone of the only directory has
written at 0x400000. -/
private def cloneThenWrite (frame : FrameNo) (pmm : Pmm.State) :
    Except Panic (FrameNo × Bool × Option (Option (BitVec 8))) := do
  let (new, s) ← memClone PmmAllocator.pmm (onePage frame pmm) 1
  let res ← store PmmAllocator.pmm s ⟨new, 0, 0⟩ 0x400000 9
  return (new, (userEntry s.phys new 0x400000).isSome, res.map fun s' => load s'.phys new 0x400001)

private theorem reach_cloneThenWrite {frame new : FrameNo} {pmm : Pmm.State}
    {byte : Option (BitVec 8)} (h : cloneThenWrite frame pmm = .ok (new, true, some byte)) :
    ∃ c, Reach PmmAllocator.pmm ⟨onePage frame pmm, {1}, load (onePage frame pmm).phys⟩ c ∧
      new ∈ c.live ∧ load c.state.phys new 0x400001 = byte ∧
      c.bytes new 0x400001 = load (onePage frame pmm).phys 1 0x400001 := by
  unfold cloneThenWrite at h
  cases hclone : memClone PmmAllocator.pmm (onePage frame pmm) 1 with
  | error e => rw [hclone] at h; contradiction
  | ok res =>
    obtain ⟨new', s⟩ := res
    rw [hclone] at h
    simp only [bind, Except.bind] at h
    cases hstore : store PmmAllocator.pmm s ⟨new', 0, 0⟩ 0x400000 9 with
    | error e => rw [hstore] at h; contradiction
    | ok res =>
      rw [hstore] at h
      obtain ⟨rfl, hres⟩ := Prod.mk.inj (Except.ok.inj h)
      obtain ⟨hopen, hres⟩ := Prod.mk.inj hres
      obtain ⟨s', rfl, hload⟩ := Option.map_eq_some_iff.mp hres
      let bytes := load (onePage frame pmm).phys
      let c₁ : Config Pmm.State := ⟨s, {new', 1}, Function.update bytes new' (bytes 1)⟩
      have hstep₁ : Step PmmAllocator.pmm ⟨onePage frame pmm, {1}, bytes⟩ c₁ :=
        .clone (Set.mem_singleton _) hclone
      have hstep₂ := Step.write (c := c₁) (Set.mem_insert _ _) hopen hstore
      refine ⟨_, (Relation.ReflTransGen.single hstep₁).tail hstep₂, Set.mem_insert _ _, hload, ?_⟩
      simp [c₁, bytes]

theorem isolated_of_reach_clone_write :
    ∃ c, Reach PmmAllocator.pmm ⟨onePage 5 smallPmm, {1}, load (onePage 5 smallPmm).phys⟩ c ∧
      6 ∈ c.live ∧ Isolated PmmAllocator.pmm c := by
  have hrun : cloneThenWrite 5 smallPmm = .ok (6, true, some (some 7)) := by decide +kernel
  obtain ⟨c, hreach, hlive, -⟩ := reach_cloneThenWrite hrun
  refine ⟨c, hreach, hlive, ?_⟩
  have hvalid : PmmAllocator.bitmap.valid (onePage 5 smallPmm).pmm :=
    show smallPmm.nframes.toNat ≤ 2 ^ 19 by decide
  exact isolated_of_reach hvalid (onePage_built (by decide) (by decide) (by decide))
    onePage_allPrivate (onePage_low (by decide)) hreach

/-- With the page above 4 GiB the copy is made from another frame: the clone reads 0
where the page held 7. -/
theorem clone_reads_wrong_frame :
    Built (PmmAllocator.bitmap.used largePmm) {1} (onePage 0x100005 largePmm) ∧
      AllPrivate {1} (onePage 0x100005 largePmm) ∧
      ∃ c, Reach PmmAllocator.pmm
          ⟨onePage 0x100005 largePmm, {1}, load (onePage 0x100005 largePmm).phys⟩ c ∧
        6 ∈ c.live ∧ load c.state.phys 6 0x400001 = some 0 ∧ c.bytes 6 0x400001 = some 7 ∧
        ¬ Isolated PmmAllocator.pmm c := by
  refine ⟨onePage_built (by decide) (by decide) (by decide), onePage_allPrivate, ?_⟩
  have hrun : cloneThenWrite 0x100005 largePmm = .ok (6, true, some (some 0)) := by
    decide +kernel
  obtain ⟨c, hreach, hlive, hload, hbytes⟩ := reach_cloneThenWrite hrun
  have hseven : load (onePage 0x100005 largePmm).phys 1 0x400001 = some 7 := by decide +kernel
  refine ⟨c, hreach, hlive, hload, hbytes.trans hseven, fun hiso => ?_⟩
  have hsame := hiso.reads 6 hlive 0x400001
  rw [hload, hbytes, hseven] at hsame
  exact absurd hsame (by decide)

end OnePage

end ReduceOS.Isolation
