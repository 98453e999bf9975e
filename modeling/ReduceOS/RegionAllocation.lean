import ReduceOS.AddressAliases
import Mathlib.Order.CompletePartialOrder

/-!
`mem_allocate` and `mem_free`: regions of pages, from a given address or from the top of the
kernel heap. The start of a region is rounded down and its size up; a region that runs past the
end of the address space has no pages. An allocation that meets a page it cannot map stops there:
it takes nothing back, and a heap allocation leaves the lock held.
-/
namespace ReduceOS.RegionAllocation

open Machine Page Physical Paging Outcome TableTree PageMap MapAddress UserHeap PointerCheck
  CopyOnWrite KernelMappings

inductive Stop
  | panic (e : Panic)
  | forever
  deriving DecidableEq

def lift {α : Type} : Except Panic α → Except Stop α := Except.mapError Stop.panic

/-- Memory, `mem_kernelHeap` and `heap_lock`. -/
structure Kernel (P : Type) where
  state : State P
  heap : Addr
  locked : Bool

structure RunAllocator (P : Type) extends Allocator P where
  allocateBlocks : P → BitVec 64 → Except Panic (Addr × P)

structure LawfulRunAllocator (P : Type) extends LawfulAllocator P, RunAllocator P where
  runs_spec : ∀ p n r, valid p → allocateBlocks p n = .ok r →
    n ≠ 0 ∧ valid r.2 ∧ used p ⊂ used r.2

def memAllocContiguous : BitVec 64 := 0x01
def memAllocFragile : BitVec 64 := 0x02
def memAllocHeap : BitVec 64 := 0x04
def memAllocCritical : BitVec 64 := 0x08

/-- `size_actual` of `mem_allocate`; `MEM_ALIGN_PAGE` is not used where it would add a page. -/
def sizeActual (start size : Addr) : Addr :=
  let size := size + (start &&& 0xFFF#64)
  if size &&& 0xFFF#64 ≠ 0 then alignPage size else size

/-- The pages that `mem_allocate` goes through. Start and size are aligned, so the loop ends. -/
def regionPages (start size : Addr) : List Addr :=
  let first := start &&& ~~~0xFFF#64
  pageLoop first (first + sizeActual start size)

section Source

variable {P : Type} (A : RunAllocator P)

namespace Kernel

/-- The first address of a region: a heap region starts at the top of the heap. -/
def base (k : Kernel P) (start flags : Addr) : Addr :=
  if has flags memAllocHeap then k.heap else start

def acquire (k : Kernel P) (flags : Addr) : Except Stop (Kernel P) :=
  if has flags memAllocHeap then
    if k.locked then .error .forever else .ok { k with locked := true }
  else .ok k

end Kernel

def pageBits (flags pageFlags : Addr) : Addr :=
  if has flags memAllocHeap then pageFlags ||| memPageKernel else pageFlags

/-- The loop of `MEM_ALLOC_FRAGILE`: whether there is a page already. -/
def anyPage (dir : FrameNo) : List Addr → State P → Except Panic (Bool × State P)
  | [], s => .ok (false, s)
  | i :: l, s => do
    let (pg, s) ← memGetPage A.toAllocator s dir i memDefault
    if pg.isSome then return (true, s) else anyPage dir l s

def checkFragile (dir : FrameNo) (flags : Addr) (pages : List Addr) (s : State P) :
    Except Panic (Bool × State P) :=
  if has flags memAllocFragile then anyPage A dir pages s else .ok (false, s)

def takeRun (flags size : Addr) (pmm : P) : Except Panic (Addr × P) :=
  if has flags memAllocContiguous then A.allocateBlocks pmm (size / 0x1000#64) else .ok (0, pmm)

/-- What the loop of `mem_allocate` does with the page entry it got. -/
def mapAt (first contig flags pageFlags : Addr) (s : State P) (pg : Slot) (i : Addr) :
    Except Panic (State P) :=
  if has flags memAllocContiguous then do
    let s ← memAllocatePage A.toAllocator s (some pg) (pageFlags ||| memPageNoalloc)
    return State.setSlot s pg (Page.setFrame (State.entry s pg) (contig + (i - first)))
  else memAllocatePage A.toAllocator s (some pg) pageFlags

def mapPages (setup : State P → Slot → Addr → Except Panic (State P)) (dir : FrameNo) :
    List Addr → State P → Except Panic (Bool × State P)
  | [], s => .ok (true, s)
  | i :: l, s => do
    match ← memGetPage A.toAllocator s dir i memCreate with
    | (none, s) => return (false, s)
    | (some pg, s) => do
      let s ← setup s pg i
      mapPages setup dir l s

def failed (k : Kernel P) (flags : Addr) : Except Stop (Addr × Kernel P) :=
  if has flags memAllocCritical then .error (.panic .memoryManagement) else .ok (0, k)

def memAllocate (k : Kernel P) (dir : FrameNo) (start size flags pageFlags : Addr) :
    Except Stop (Addr × Kernel P) :=
  if size = 0 then .ok (start, k)
  else if !isCanonical start then failed k flags
  else if start = 0 ∧ !has flags memAllocHeap then failed k flags
  else do
    let start := k.base start flags
    let first := start &&& ~~~0xFFF#64
    let pages := regionPages start size
    let (found, s) ← lift (checkFragile A dir flags pages k.state)
    let k := { k with state := s }
    if found then failed k flags
    else do
      let k ← k.acquire flags
      let (contig, pmm) ← lift (takeRun A flags (sizeActual start size) k.state.pmm)
      let (done, s) ← lift (mapPages A (mapAt A first contig flags (pageBits flags pageFlags)) dir
        pages { k.state with pmm := pmm })
      let k := { k with state := s }
      if !done then failed k flags
      else if has flags memAllocHeap then
        return (start, { k with heap := k.heap + sizeActual start size, locked := false })
      else return (start, k)

/-- The loop of `mem_free` never ends when its limit lies in the last page: the counter starts over
before it gets there. -/
def endless (first limit : Addr) : Prop := first < limit ∧ 0xFFFFFFFFFFFFF000#64 < limit

instance (first limit : Addr) : Decidable (endless first limit) :=
  inferInstanceAs (Decidable (_ ∧ _))

/-- The pages that `mem_free` goes through: the size is neither rounded nor moved. -/
def freedPages (start size : Addr) : List Addr :=
  let first := start &&& ~~~0xFFF#64
  pageLoop first (first + size)

def memFree (A : Allocator P) (k : Kernel P) (dir : FrameNo) (start size flags : Addr) :
    Except Stop (Kernel P) :=
  if !isCanonical start then .ok k
  else if start = 0 ∨ size = 0 then .ok k
  else do
    let first := start &&& ~~~0xFFF#64
    let k ← k.acquire flags
    if endless first (first + size) then .error .forever
    else do
      let s ← lift ((freedPages start size).foldlM (freeAt A dir) k.state)
      if has flags memAllocHeap then
        return { state := s, heap := k.heap - size, locked := false }
      else return { k with state := s }

end Source

section Sizes

variable {P : Type} {L : LawfulAllocator P} {s s' s'' : State P} {dir g t h : FrameNo}
  {p q : List (Fin 512)} {i j : Fin 512} {a : Addr}

def Sized (mem : FrameNo → Frame) (dir : FrameNo) (q : List (Fin 512)) (i : Fin 512) : Prop :=
  ∃ g, tableAt kNext mem dir q = some g ∧ (mem g i).size = true

def SameSizes (dir : FrameNo) (mem mem' : FrameNo → Frame) : Prop :=
  ∀ q i, q.length < 3 → (Sized mem' dir q i ↔ Sized mem dir q i)

def OnLarge (mem : FrameNo → Frame) (dir : FrameNo) (a : Addr) : Prop :=
  ∃ q i g, q ++ [i] <+: path a ∧ q.length ≠ 0 ∧ tableAt kNext mem dir q = some g ∧
    (mem g i).size = true ∧ (mem g i).present = true

def Mappable (mem : FrameNo → Frame) (dir : FrameNo) (a : Addr) : Prop :=
  isCanonical a = true ∧ Small mem dir (path a)

theorem small_iff {mem : FrameNo → Frame} : Small mem dir p ↔
    ∀ q i, q ++ [i] <+: p → q.length ≠ 0 → ¬ Sized mem dir q i := by
  constructor
  · rintro hs q i hq hne ⟨g, hg, hsize⟩
    rw [hs q i hq g hg hne] at hsize
    contradiction
  · intro hs q i hq g hg hne
    by_contra hsize
    exact hs q i hq hne ⟨g, hg, by simpa using hsize⟩

theorem SameSizes.small (h : SameSizes dir s.phys s'.phys) (hp : p.length ≤ 3) :
    Small s'.phys dir p ↔ Small s.phys dir p := by
  rw [small_iff, small_iff]
  refine forall₂_congr fun q i => forall_congr' fun hq => forall_congr' fun _ => not_congr ?_
  have hlen := hq.length_le
  rw [List.length_append, List.length_singleton] at hlen
  exact h q i (by omega)

theorem SameSizes.trans (h : SameSizes dir s.phys s'.phys) (h' : SameSizes dir s'.phys s''.phys) :
    SameSizes dir s.phys s''.phys :=
  fun q i hq => (h' q i hq).trans (h q i hq)

/-- A walk that reached its table met no large page. -/
theorem small_of_walk {mem : FrameNo → Frame} (ht : tableAt kNext mem dir p = some t) :
    Small mem dir p := by
  rintro q i ⟨q', rfl⟩ g hg hne
  obtain ⟨f, hf⟩ := walk_of_prefix ht
  rw [walk_concat, show walk kNext mem 0 dir q = some g from hg, Option.bind_some,
    Nat.zero_add] at hf
  have hfollow := (physFrame_of_kNext hf).1
  simpa [follow, hne] using (Bool.and_eq_true_iff.mp hfollow).2

structure Grown (L : LawfulAllocator P) (dir : FrameNo) (s s' : State P) : Prop where
  tables : Tables L (under dir) s'
  sizes : SameSizes dir s.phys s'.phys
  used : L.used s.pmm ⊆ L.used s'.pmm

theorem Grown.refl (ht : Tables L (under dir) s) : Grown L dir s s :=
  ⟨ht, fun _ _ _ => Iff.rfl, subset_rfl⟩

theorem Grown.trans (h : Grown L dir s s') (h' : Grown L dir s' s'') : Grown L dir s s'' :=
  ⟨h'.tables, h.sizes.trans h'.sizes, h.used.trans h'.used⟩

theorem Added.grown (ht : Tables L (under dir) s) (hadd : Added L s s' g i h)
    (habs : (s.phys g i).present = false) :
    Grown L dir s s' ∧ L.used s.pmm ⊂ L.used s'.pmm := by
  have hshape := Tables.shape ht
  have hgrow := Added.grow hshape hadd habs
  have hused : L.used s.pmm ⊂ L.used s'.pmm := by
    rw [hadd.used]
    exact Set.ssubset_insert hadd.fresh
  refine ⟨⟨Tables.added ht hadd habs, ?_, hused.subset⟩, hused⟩
  have hsame : ∀ f j, f ∈ L.used s.pmm → (s'.phys f j).size = (s.phys f j).size := by
    intro f j hf
    by_cases heq : f = g ∧ j = i
    · obtain ⟨rfl, rfl⟩ := heq
      rw [hadd.written]
    · rw [hadd.others f j (fun hfh => hadd.fresh (hfh ▸ hf)) (by tauto)]
  intro q j hq
  constructor
  · rintro ⟨f, hf, hsize⟩
    rcases hgrow.back hf with hold | ⟨rfl, -⟩
    · exact ⟨f, hold, by rwa [← hsame f j (hshape.inUse q f hold)]⟩
    · rw [hadd.blank] at hsize
      contradiction
  · rintro ⟨f, hf, hsize⟩
    exact ⟨f, hgrow.keep hf, by rwa [hsame f j (hshape.inUse q f hf)]⟩

/-- Directories with the same walks have the same tables, at the same positions. -/
theorem isTable_of_walks {mem mem' : FrameNo → Frame}
    (hwalk : ∀ q, tableAt kNext mem' dir q = tableAt kNext mem dir q) :
    IsTable (under dir) kNext mem' g ↔ IsTable (under dir) kNext mem g := by
  constructor
  · rintro ⟨r, q, hq, hg⟩
    obtain rfl : r = dir := hq.1
    exact ⟨r, q, hq, (hwalk q).symm.trans hg⟩
  · rintro ⟨r, q, hq, hg⟩
    obtain rfl : r = dir := hq.1
    exact ⟨r, q, hq, (hwalk q).trans hg⟩

theorem tree_of_walks {mem mem' : FrameNo → Frame}
    (hwalk : ∀ q, tableAt kNext mem' dir q = tableAt kNext mem dir q)
    (ht : Tree (under dir) kNext mem) : Tree (under dir) kNext mem' := by
  intro r q r' q' g hq hq' hg hg'
  obtain rfl : r = dir := hq.1
  obtain rfl : r' = r := hq'.1
  exact ht r' q r' q' g hq hq' ((hwalk q).symm.trans hg) ((hwalk q').symm.trans hg')

theorem Grown.leaf (ht : Tables L (under dir) s) (hat : tableAt kNext s.phys dir (path a) = some t)
    (j : Fin 512) (e : Entry) {pmm : P} (hvalid : L.valid pmm)
    (hused : L.used s.pmm ⊆ L.used pmm) :
    Grown L dir s (State.setSlot { s with pmm := pmm } (t, j) e) := by
  have hwalk := leaf_walk (Tables.shape ht).layered (by simp [path]) hat j e
  refine ⟨⟨hvalid, tree_of_walks hwalk ht.tree, ?_⟩, ?_, hused⟩
  · exact fun g hg => hused (ht.inUse g ((isTable_of_walks hwalk).mp hg))
  · intro q i hq
    have hrow : ∀ g, tableAt kNext s.phys dir q = some g →
        (s.setEntry t j e).phys g i = s.phys g i := by
      intro g hg
      apply congrFun
      apply State.setEntry_phys_frame_ne
      rintro rfl
      rw [Tables.position_eq ht hg hat] at hq
      simp [path] at hq
    constructor
    · rintro ⟨g, hg, hsize⟩
      have hg : tableAt kNext s.phys dir q = some g := (hwalk q).symm.trans hg
      exact ⟨g, hg, by rwa [← hrow g hg]⟩
    · rintro ⟨g, hg, hsize⟩
      exact ⟨g, (hwalk q).trans hg, (congrArg Entry.size (hrow g hg)).trans hsize⟩

end Sizes

section Walk

variable {P : Type} {L : LawfulAllocator P} {s s' : State P} {dir g t : FrameNo}
  {p : List (Fin 512)} {i : Fin 512} {a : Addr}

/-- A level of the walk ends it at a size bit, and adds a table first if the entry is absent. -/
theorem descend_none (ht : Tables L (under dir) s) (hg : tableAt kNext s.phys dir p = some g)
    (hlen : p.length < 3)
    (hcall : descend L.toAllocator s (g, i) memCreate (decide (p.length ≠ 0)) = .ok (none, s')) :
    p.length ≠ 0 ∧ (s.phys g i).size = true ∧
      ((s.phys g i).present = true ∧ s' = s ∨ L.used s.pmm ⊂ L.used s'.pmm) := by
  cases hpres : (s.phys g i).present with
  | true =>
    rw [descend_present hpres _ hlen, lookup] at hcall
    cases hfollow : follow p.length (s.phys g i) with
    | true =>
      rw [hfollow, if_pos rfl] at hcall
      cases hnext : kNext p.length (s.phys g i) with
      | none => rw [hnext] at hcall; contradiction
      | some f =>
        rw [hnext] at hcall
        exact absurd (congrArg Prod.fst (Except.ok.inj hcall)) (Option.some_ne_none _)
    | false =>
      rw [hfollow, if_neg Bool.false_ne_true] at hcall
      have hend : p.length ≠ 0 ∧ (s.phys g i).size = true := by
        simpa [follow, hlen, hpres] using hfollow
      exact ⟨hend.1, hend.2, Or.inl ⟨rfl, (congrArg Prod.snd (Except.ok.inj hcall)).symm⟩⟩
  | false =>
    have hused := (Tables.shape ht).inUse p g hg
    obtain ⟨h, hadd, hres⟩ := meets_of_eq_ok (descend_absent ht.valid hused hpres _) hcall
    have hend : (decide (p.length ≠ 0) && (s.phys g i).size) = true := by
      by_contra hnot
      rw [if_neg hnot] at hres
      exact absurd hres.symm (Option.some_ne_none _)
    rw [Bool.and_eq_true, decide_eq_true_eq] at hend
    exact ⟨hend.1, hend.2, Or.inr (Added.grown ht hadd hpres).2⟩

/-- `mem_getPage` with `MEM_CREATE` finds an entry exactly for the pages that can be created; where
it finds none it has taken a frame, unless it stopped at a large page. -/
theorem memGetPage_grown (ht : Tables L (under dir) s) (ha : isCanonical a = true) :
    Meets Any (memGetPage L.toAllocator s dir a memCreate) fun res =>
      Grown L dir s res.2 ∧
      match res.1 with
      | some pg => Small s.phys dir (path a) ∧
        ∃ t, pg = (t, pagetblIndex a) ∧ tableAt kNext res.2.phys dir (path a) = some t
      | none => ¬ Small s.phys dir (path a) ∧
        (OnLarge s.phys dir a ∨ L.used s.pmm ⊂ L.used res.2.pmm) := by
  let J : State P → Prop := fun s₁ =>
    Grown L dir s s₁ ∧ (s₁ = s ∨ L.used s.pmm ⊂ L.used s₁.pmm)
  let E : State P → Prop := fun s₁ => Grown L dir s s₁ ∧ ¬ Small s.phys dir (path a) ∧
    (OnLarge s.phys dir a ∨ L.used s.pmm ⊂ L.used s₁.pmm)
  have hadded : ∀ s₁ s₂ g i, J s₁ → AddedOrSame L s₁ g i s₂ → J s₂ := by
    rintro s₁ s₂ g i hs (rfl | ⟨habs, h, hadd⟩)
    · exact hs
    · obtain ⟨hgrown, hmore⟩ := Added.grown hs.1.tables hadd habs
      exact ⟨hs.1.trans hgrown, Or.inr (hs.1.used.trans_ssubset hmore)⟩
  refine meets_mono (memGetPage_rule (J := J) (E := E) ha ⟨Grown.refl ht, Or.inl rfl⟩ ?_) ?_
  · intro s₁ q i g hs₁ hpre hlen hg
    have hlevel := descend_added (i := i) (Tables.shape hs₁.1.tables) hg hlen
    cases hcall : descend L.toAllocator s₁ (g, i) memCreate (decide (q.length ≠ 0)) with
    | error e => exact trivial
    | ok res =>
      obtain ⟨o, s₂⟩ := res
      rw [hcall] at hlevel
      cases o with
      | some h => exact ⟨hlevel.1, hadded _ _ _ _ hs₁ hlevel.2⟩
      | none =>
        obtain ⟨hgrown, -⟩ := hadded _ _ _ _ hs₁ hlevel
        obtain ⟨hne, hsize, hend⟩ := descend_none hs₁.1.tables hg hlen hcall
        refine ⟨hgrown, ?_, ?_⟩
        · rw [small_iff]
          intro hsmall
          exact hsmall q i hpre hne ((hs₁.1.sizes q i hlen).mp ⟨g, hg, hsize⟩)
        · rcases hend with ⟨hpres, rfl⟩ | hmore
          · rcases hs₁.2 with rfl | hmore
            · exact Or.inl ⟨q, i, g, hpre, hne, hg, hsize, hpres⟩
            · exact Or.inr hmore
          · exact Or.inr (hs₁.1.used.trans_ssubset hmore)
  · rintro ⟨o, s'⟩ hres
    cases o with
    | none => exact ⟨hres.1, hres.2⟩
    | some pg =>
      obtain ⟨t, rfl, hat, hgrown, -⟩ := hres
      exact ⟨hgrown, (hgrown.sizes.small (by simp [path])).mp (small_of_walk hat), t, rfl, hat⟩

theorem descend_walk {A : Allocator P} (hg : tableAt kNext s.phys dir p = some g)
    (ht : tableAt kNext s.phys dir (p ++ [i]) = some t) (hlen : p.length < 3) (flags : BitVec 64) :
    descend A s (g, i) flags (decide (p.length ≠ 0)) = .ok (some t, s) := by
  have hnext := ht
  rw [tableAt, walk_concat, show walk kNext s.phys 0 dir p = some g from hg, Option.bind_some,
    Nat.zero_add] at hnext
  have hfollow := (physFrame_of_kNext hnext).1
  have hpres : (s.phys g i).present = true := by
    simp only [follow, Bool.and_eq_true] at hfollow
    exact hfollow.1.2
  rw [descend_present hpres _ hlen, lookup, if_pos hfollow, hnext]
  rfl

/-- A walk that ends at a large page has added nothing. -/
theorem memGetPage_large {A : Allocator P} (hl : OnLarge s.phys dir a) (flags : BitVec 64) :
    memGetPage A s dir a flags = .ok (none, s) := by
  by_cases ha : isCanonical a = true
  swap
  · rw [memGetPage, if_pos (by simpa using ha)]
  obtain ⟨q, i, g, hpre, hne, hg, hsize, hpres⟩ := hl
  have hnot : follow q.length (s.phys g i) = false := by simp [follow, hne, hsize]
  have hend : ∀ p j, p ++ [j] <+: path a → ∀ f, tableAt kNext s.phys dir p = some f →
      p ++ [j] <+: q ∨ p = q ∧ j = i := by
    intro p j hp f hf
    rcases List.prefix_or_prefix_of_prefix hp hpre with hle | hle
    · rcases List.prefix_concat_iff.mp hle with heq | hle
      · exact Or.inr (by simpa using List.append_inj' heq rfl)
      · exact Or.inl hle
    · rcases List.prefix_concat_iff.mp hle with heq | ⟨r, rfl⟩
      · exact Or.inr (by simpa using (List.append_inj' heq rfl).imp Eq.symm (Eq.symm ·))
      · obtain ⟨f', hf'⟩ := walk_of_prefix hf
        rw [walk_concat, show walk kNext s.phys 0 dir q = some g from hg, Option.bind_some,
          Nat.zero_add] at hf'
        rw [(physFrame_of_kNext hf').1] at hnot
        contradiction
  have hcall : Meets (fun _ => False) (memGetPage A s dir a flags) fun res =>
      match res.1 with
      | some pg => ∃ t, pg = (t, pagetblIndex a) ∧
        tableAt kNext res.2.phys dir (path a) = some t ∧ res.2 = s
      | none => res.2 = s := by
    refine memGetPage_rule (J := (· = s)) (E := (· = s)) ha rfl ?_
    intro s₁ p j f hs hp hlen hf
    subst hs
    rcases hend p j hp f hf with ⟨r, rfl⟩ | ⟨rfl, rfl⟩
    · obtain ⟨h, hh⟩ := walk_of_prefix hg
      rw [descend_walk hf hh hlen]
      exact ⟨hh, rfl⟩
    · obtain rfl := Option.some.inj (hg.symm.trans hf)
      rw [descend_present hpres _ hlen, lookup, hnot, if_neg Bool.false_ne_true]
      rfl
  cases hres : memGetPage A s dir a flags with
  | error e => rw [hres] at hcall; exact hcall.elim
  | ok res =>
    obtain ⟨o, s'⟩ := res
    rw [hres] at hcall
    cases o with
    | none => exact congrArg (fun s => Except.ok (none, s)) hcall
    | some pg =>
      obtain ⟨t, -, hat, rfl⟩ := hcall
      rw [small_of_walk hat q i hpre g hg hne] at hsize
      contradiction

end Walk

section Map

variable {P : Type} {L : LawfulRunAllocator P} {s s' : State P} {dir t : FrameNo} {a : Addr}
  {first contig flags pageFlags : Addr} {l : List Addr}

/-- Setting up a page entry takes a frame, unless it is told not to. -/
theorem memAllocatePage_grown {L : LawfulAllocator P} (ht : Tables L (under dir) s)
    (hat : tableAt kNext s.phys dir (path a) = some t) (j : Fin 512) {pageFlags : BitVec 64}
    (hfree : has pageFlags memPageFree = false) :
    Meets Any (memAllocatePage L.toAllocator s (some (t, j)) pageFlags) fun s' =>
      Grown L dir s s' ∧ tableAt kNext s'.phys dir (path a) = some t ∧
        (has pageFlags memPageNoalloc = false → L.used s.pmm ⊂ L.used s'.pmm) := by
  have hwalk := leaf_walk (Tables.shape ht).layered (by simp [path]) hat j
  cases hno : has pageFlags memPageNoalloc with
  | false =>
    refine meets_mono (meets_weaken (memAllocatePage_fresh L ht.valid (t, j) hfree hno)
      fun _ _ => trivial) ?_
    rintro s' ⟨f, pmm, -, hfresh, hvalid, hused, rfl⟩
    have hmore : L.used s.pmm ⊂ L.used pmm := by
      rw [hused]
      exact Set.ssubset_insert hfresh
    exact ⟨Grown.leaf ht hat j _ hvalid hmore.subset, (hwalk _ _).trans hat, fun _ => hmore⟩
  | true =>
    unfold memAllocatePage
    simp only [hfree, hno, Bool.false_eq_true, if_false, if_true]
    exact ⟨Grown.leaf ht hat j _ ht.valid subset_rfl, (hwalk _ _).trans hat,
      fun h => absurd h (by decide)⟩

theorem has_or (x y bit : BitVec 64) : has (x ||| y) bit = (has x bit || has y bit) := by
  have hsplit : (x ||| y) &&& bit = (x &&& bit) ||| (y &&& bit) := by
    ext i hi
    simp [Bool.and_or_distrib_right]
  have hzero : (x &&& bit) ||| (y &&& bit) = 0 ↔ x &&& bit = 0 ∧ y &&& bit = 0 :=
    BitVec.or_eq_zero_iff
  unfold has
  rw [hsplit, Bool.eq_iff_iff]
  simp only [bne_iff_ne, Bool.or_eq_true, ne_eq]
  tauto

def Grants (flags pageFlags : Addr) : Prop :=
  has flags memAllocContiguous = false ∧ has pageFlags memPageNoalloc = false

theorem mapAt_grown (ht : Tables L.toLawfulAllocator (under dir) s)
    (hat : tableAt kNext s.phys dir (path a) = some t) (hfree : has pageFlags memPageFree = false) :
    Meets Any (mapAt L.toRunAllocator first contig flags pageFlags s (t, pagetblIndex a) a)
      fun s' => Grown L.toLawfulAllocator dir s s' ∧
        (Grants flags pageFlags → L.used s.pmm ⊂ L.used s'.pmm) := by
  unfold mapAt
  cases hcontig : has flags memAllocContiguous with
  | false =>
    refine meets_mono (memAllocatePage_grown ht hat _ hfree) ?_
    rintro s' ⟨hgrown, -, hmore⟩
    exact ⟨hgrown, fun hgrants => hmore hgrants.2⟩
  | true =>
    have hfree' : has (pageFlags ||| memPageNoalloc) memPageFree = false := by
      rw [has_or, hfree]
      decide
    refine meets_bind (memAllocatePage_grown ht hat _ hfree') ?_
    rintro s₁ ⟨hgrown, hat₁, -⟩
    refine ⟨hgrown.trans (Grown.leaf hgrown.tables hat₁ _ _ hgrown.tables.valid subset_rfl), ?_⟩
    rintro ⟨hnot, -⟩
    rw [hcontig] at hnot
    contradiction

variable (setup : State P → Slot → Addr → Except Panic (State P))

def Sets (L : LawfulRunAllocator P) (dir : FrameNo)
    (setup : State P → Slot → Addr → Except Panic (State P)) (more : Prop) : Prop :=
  ∀ s i t, Tables L.toLawfulAllocator (under dir) s → tableAt kNext s.phys dir (path i) = some t →
    Meets Any (setup s (t, pagetblIndex i) i) fun s' =>
      Grown L.toLawfulAllocator dir s s' ∧ (more → L.used s.pmm ⊂ L.used s'.pmm)

variable {setup} {more : Prop}

/-- The loop gets through exactly when every page can be created. -/
theorem mapPages_grown (hsets : Sets L dir setup more)
    (ht : Tables L.toLawfulAllocator (under dir) s) (l : List Addr) :
    Meets Any (mapPages L.toRunAllocator setup dir l s) fun res =>
      Grown L.toLawfulAllocator dir s res.2 ∧
        (res.1 = true ↔ ∀ i ∈ l, Mappable s.phys dir i) := by
  induction l generalizing s with
  | nil => exact ⟨Grown.refl ht, by simp⟩
  | cons i l ih =>
    cases hi : isCanonical i with
    | false =>
      unfold mapPages memGetPage
      simp only [hi, Bool.not_false, if_true]
      exact ⟨Grown.refl ht, by simp [Mappable, hi]⟩
    | true =>
      refine meets_bind (memGetPage_grown ht hi) ?_
      rintro ⟨o, s₁⟩ ⟨hgrown, hres⟩
      cases o with
      | none => exact ⟨hgrown, by simpa [Mappable, hi] using fun h => absurd h hres.1⟩
      | some pg =>
        obtain ⟨hsmall, t, rfl, hat⟩ := hres
        refine meets_bind (hsets s₁ i t hgrown.tables hat) ?_
        rintro s₂ ⟨hgrown₂, -⟩
        have hgrown₂ := hgrown.trans hgrown₂
        refine meets_mono (ih hgrown₂.tables) ?_
        rintro ⟨done, s'⟩ ⟨hgrown', hdone⟩
        refine ⟨hgrown₂.trans hgrown', hdone.trans ?_⟩
        have hsame : ∀ j, Mappable s₂.phys dir j ↔ Mappable s.phys dir j := fun j =>
          and_congr_right fun _ => hgrown₂.sizes.small (by simp [path])
        simp only [hsame, List.forall_mem_cons]
        exact (and_iff_right ⟨hi, hsmall⟩).symm

/-- A loop that stops has taken a frame, unless it stopped at the first page without one. -/
theorem mapPages_more (hsets : Sets L dir setup more) (hmore : more)
    (ht : Tables L.toLawfulAllocator (under dir) s) {i : Addr} (hi : isCanonical i = true)
    (hnot : ¬ OnLarge s.phys dir i) (l : List Addr) :
    Meets Any (mapPages L.toRunAllocator setup dir (i :: l) s) fun res =>
      L.used s.pmm ⊂ L.used res.2.pmm := by
  refine meets_bind (memGetPage_grown ht hi) ?_
  rintro ⟨o, s₁⟩ ⟨hgrown, hres⟩
  cases o with
  | none => exact hres.2.resolve_left hnot
  | some pg =>
    obtain ⟨-, t, rfl, hat⟩ := hres
    refine meets_bind (hsets s₁ i t hgrown.tables hat) ?_
    rintro s₂ ⟨hgrown₂, hmore₂⟩
    refine meets_mono (mapPages_grown hsets hgrown₂.tables l) ?_
    rintro ⟨done, s'⟩ ⟨hgrown', -⟩
    exact (hgrown.used.trans_ssubset (hmore₂ hmore)).trans_subset hgrown'.used

theorem mapPages_large {A : RunAllocator P} {i : Addr} (hl : OnLarge s.phys dir i)
    (l : List Addr) : mapPages A setup dir (i :: l) s = .ok (false, s) := by
  rw [mapPages, memGetPage_large hl]
  rfl

end Map

section Call

variable {P : Type} {L : LawfulRunAllocator P} {s s' : State P} {dir : FrameNo}
  {k k' : Kernel P} {r start size flags pageFlags : Addr} {l : List Addr}

def HasEntry (mem : FrameNo → Frame) (dir : FrameNo) (a : Addr) : Prop :=
  isCanonical a = true ∧ ∃ t, tableAt kNext mem dir (path a) = some t

def Refused (k : Kernel P) (dir : FrameNo) (start size flags : Addr) : Prop :=
  size = 0 ∨ isCanonical start = false ∨ start = 0 ∧ has flags memAllocHeap = false ∨
    has flags memAllocFragile = true ∧
      ∃ i ∈ regionPages (k.base start flags) size, HasEntry k.state.phys dir i

theorem anyPage_spec {A : RunAllocator P} (l : List Addr) {found : Bool}
    (hcall : anyPage A dir l s = .ok (found, s')) :
    s' = s ∧ (found = true ↔ ∃ i ∈ l, HasEntry s.phys dir i) := by
  induction l with
  | nil =>
    obtain ⟨rfl, rfl⟩ := Prod.mk.inj (Except.ok.inj hcall)
    simp
  | cons i l ih =>
    obtain ⟨⟨pg, s₁⟩, hfind, hrest⟩ := bind_eq_ok hcall
    obtain rfl := memGetPage_unchanged hfind
    have hpage : pg.isSome = true ↔ HasEntry s₁.phys dir i := by
      cases hi : isCanonical i with
      | false =>
        rw [memGetPage, hi] at hfind
        obtain ⟨rfl, -⟩ := Prod.mk.inj (Except.ok.inj hfind)
        simp [HasEntry, hi]
      | true =>
        rw [(clear_of_memGetPage hi hfind).2]
        simp [HasEntry, hi, Option.isSome_iff_exists]
    rw [List.exists_mem_cons_iff, ← hpage]
    change (if pg.isSome then pure (true, s₁) else anyPage A dir l s₁) = .ok (found, s') at hrest
    by_cases hsome : pg.isSome = true
    · rw [if_pos hsome] at hrest
      obtain ⟨rfl, rfl⟩ := Prod.mk.inj (Except.ok.inj hrest)
      simp [hsome]
    · rw [if_neg hsome] at hrest
      obtain ⟨hsame, hiff⟩ := ih hrest
      exact ⟨hsame, by rw [hiff]; tauto⟩

theorem lift_eq_ok {α : Type} {c : Except Panic α} {x : α} (h : lift c = .ok x) : c = .ok x := by
  cases c with
  | ok y => exact congrArg Except.ok (Except.ok.inj h)
  | error e => contradiction

theorem pageBits_has {bit : BitVec 64} (hkernel : has memPageKernel bit = false) :
    has (pageBits flags pageFlags) bit = has pageFlags bit := by
  unfold pageBits
  split_ifs
  · rw [has_or, hkernel, Bool.or_false]
  · rfl

theorem checkFragile_spec {A : RunAllocator P} {found : Bool}
    (hcall : checkFragile A dir flags l s = .ok (found, s')) :
    s' = s ∧
      (found = true ↔ has flags memAllocFragile = true ∧ ∃ i ∈ l, HasEntry s.phys dir i) := by
  unfold checkFragile at hcall
  split_ifs at hcall with hfragile
  · obtain ⟨hsame, hiff⟩ := anyPage_spec _ hcall
    exact ⟨hsame, hiff.trans (and_iff_right hfragile).symm⟩
  · obtain ⟨rfl, rfl⟩ := Prod.mk.inj (Except.ok.inj hcall)
    exact ⟨rfl, by simp [hfragile]⟩

theorem acquire_eq_ok (h : k.acquire flags = .ok k') :
    (has flags memAllocHeap = true → k.locked = false) ∧
      k' = { k with locked := has flags memAllocHeap || k.locked } := by
  unfold Kernel.acquire at h
  cases hheap : has flags memAllocHeap with
  | false =>
    rw [hheap, if_neg Bool.false_ne_true] at h
    exact ⟨fun h => absurd h (by decide), (Except.ok.inj h).symm⟩
  | true =>
    rw [hheap, if_pos rfl] at h
    split_ifs at h with hlocked
    exact ⟨fun _ => by simpa using hlocked, (Except.ok.inj h).symm⟩

structure Ran (L : LawfulRunAllocator P) (k : Kernel P) (dir : FrameNo)
    (start size flags pageFlags r : Addr) (k' : Kernel P) (contig : Addr) (pmm : P) (done : Bool) :
    Prop where
  frames : takeRun L.toRunAllocator flags (sizeActual (k.base start flags) size) k.state.pmm =
    .ok (contig, pmm)
  unlocked : has flags memAllocHeap = true → k.locked = false
  loop : mapPages L.toRunAllocator
      (mapAt L.toRunAllocator (k.base start flags &&& ~~~0xFFF#64) contig flags
        (pageBits flags pageFlags)) dir (regionPages (k.base start flags) size)
      { k.state with pmm := pmm } = .ok (done, k'.state)
  stopped : done = false →
    r = 0 ∧ k'.heap = k.heap ∧ k'.locked = (has flags memAllocHeap || k.locked)
  through : done = true → r = k.base start flags ∧ k'.locked = k.locked ∧
    k'.heap = if has flags memAllocHeap then
      k.heap + sizeActual (k.base start flags) size else k.heap

theorem failed_eq_ok {k₁ : Kernel P} (h : failed k₁ flags = .ok (r, k')) :
    r = 0 ∧ k' = k₁ ∧ has flags memAllocCritical = false := by
  unfold failed at h
  split_ifs at h with hcrit
  obtain ⟨rfl, rfl⟩ := Prod.mk.inj (Except.ok.inj h)
  exact ⟨rfl, rfl, by simpa using hcrit⟩

/-- The ways a call can return. A critical one does not fail. -/
theorem memAllocate_cases
    (hcall : memAllocate L.toRunAllocator k dir start size flags pageFlags = .ok (r, k')) :
    Refused k dir start size flags ∧ k' = k ∧
        (size ≠ 0 → r = 0 ∧ has flags memAllocCritical = false) ∨
      ¬ Refused k dir start size flags ∧
        ∃ contig pmm done, Ran L k dir start size flags pageFlags r k' contig pmm done ∧
          (done = false → has flags memAllocCritical = false) := by
  unfold memAllocate at hcall
  by_cases hsize : size = 0
  · rw [if_pos hsize] at hcall
    exact Or.inl ⟨Or.inl hsize, (congrArg Prod.snd (Except.ok.inj hcall)).symm,
      fun h => absurd hsize h⟩
  rw [if_neg hsize] at hcall
  by_cases hcanon : isCanonical start = true
  swap
  · rw [if_pos (by simpa using hcanon)] at hcall
    obtain ⟨rfl, rfl, hcrit⟩ := failed_eq_ok hcall
    exact Or.inl ⟨Or.inr (Or.inl (by simpa using hcanon)), rfl, fun _ => ⟨rfl, hcrit⟩⟩
  rw [if_neg (by simpa using hcanon)] at hcall
  by_cases hzero : start = 0 ∧ (!has flags memAllocHeap) = true
  · rw [if_pos hzero] at hcall
    obtain ⟨rfl, rfl, hcrit⟩ := failed_eq_ok hcall
    exact Or.inl ⟨Or.inr (Or.inr (Or.inl (by simpa using hzero))), rfl, fun _ => ⟨rfl, hcrit⟩⟩
  rw [if_neg hzero] at hcall
  obtain ⟨⟨found, s₁⟩, hfound, hcall⟩ := bind_eq_ok hcall
  obtain ⟨rfl, hiff⟩ := checkFragile_spec (lift_eq_ok hfound)
  by_cases hf : found = true
  · simp only [hf, if_true] at hcall
    obtain ⟨rfl, rfl, hcrit⟩ := failed_eq_ok hcall
    exact Or.inl ⟨Or.inr (Or.inr (Or.inr (hiff.mp hf))), rfl, fun _ => ⟨rfl, hcrit⟩⟩
  simp only [hf] at hcall
  have hnot : ¬ Refused k dir start size flags := by
    rintro (h | h | h | h)
    · exact hsize h
    · rw [hcanon] at h
      contradiction
    · exact hzero (by simpa using h)
    · exact hf (hiff.mpr h)
  obtain ⟨k₁, hlock, hcall⟩ := bind_eq_ok hcall
  obtain ⟨⟨contig, pmm⟩, hframes, hcall⟩ := bind_eq_ok hcall
  obtain ⟨⟨done, s₂⟩, hloop, hcall⟩ := bind_eq_ok hcall
  obtain ⟨hunlocked, rfl⟩ := acquire_eq_ok hlock
  refine Or.inr ⟨hnot, contig, pmm, done, ?_⟩
  have hframes := lift_eq_ok hframes
  have hloop := lift_eq_ok hloop
  cases done with
  | false =>
    simp only [Bool.not_false, if_true] at hcall
    obtain ⟨rfl, rfl, hcrit⟩ := failed_eq_ok hcall
    exact ⟨⟨hframes, hunlocked, hloop, fun _ => ⟨rfl, rfl, rfl⟩, fun h => absurd h (by decide)⟩,
      fun _ => hcrit⟩
  | true =>
    simp only [Bool.not_true, Bool.false_eq_true, if_false] at hcall
    split_ifs at hcall with hheap
    · obtain ⟨rfl, rfl⟩ := Prod.mk.inj (Except.ok.inj hcall)
      exact ⟨⟨hframes, hunlocked, hloop, fun h => absurd h (by decide),
        fun _ => ⟨rfl, (hunlocked hheap).symm, (if_pos hheap).symm⟩⟩, fun h => absurd h (by decide)⟩
    · obtain ⟨rfl, rfl⟩ := Prod.mk.inj (Except.ok.inj hcall)
      exact ⟨⟨hframes, hunlocked, hloop, fun h => absurd h (by decide),
        fun _ => ⟨rfl, by simp [hheap], (if_neg hheap).symm⟩⟩, fun h => absurd h (by decide)⟩

end Call

section Failure

variable {P : Type} {L : LawfulRunAllocator P} {dir : FrameNo} {k k' : Kernel P}
  {r start size flags pageFlags : Addr}

def translation (mem : FrameNo → Frame) : ℕ → FrameNo → List (Fin 512) → Option (ℕ × Entry)
  | _, _, [] => none
  | d, f, i :: p =>
    if !(mem f i).present then none
    else if p = [] ∨ d ≠ 0 ∧ (mem f i).size = true then some (d, mem f i)
    else translation mem (d + 1) (mem f i).address p

structure Unchanged (L : LawfulRunAllocator P) (k k' : Kernel P) : Prop where
  used : L.used k'.state.pmm = L.used k.state.pmm
  translations : ∀ dir a, translation k'.state.phys 0 dir (position a) =
    translation k.state.phys 0 dir (position a)
  heap : k'.heap = k.heap
  locked : k'.locked = k.locked

/-- The call is refused at the start; or all of its pages can be created, and they are not those of
a heap at 0x0; or the first of them lies in a large page, and nothing was taken before. -/
def Harmless (k : Kernel P) (dir : FrameNo) (start size flags : Addr) : Prop :=
  Refused k dir start size flags ∨
  ((∀ i ∈ regionPages (k.base start flags) size, Mappable k.state.phys dir i) ∧
    (has flags memAllocHeap = true → k.heap = 0 → regionPages 0 size = [])) ∨
  has flags memAllocHeap = false ∧ has flags memAllocContiguous = false ∧
    ∃ i ∈ (regionPages start size).head?, OnLarge k.state.phys dir i

/-- The call takes something: the lock, a run of frames, or a frame for each page. -/
def Takes (flags pageFlags : Addr) : Prop :=
  has flags memAllocHeap = true ∨ has flags memAllocContiguous = true ∨
    has pageFlags memPageNoalloc = false

theorem Unchanged.refl (k : Kernel P) : Unchanged L k k := ⟨rfl, fun _ _ => rfl, rfl, rfl⟩

theorem head_visited {n : ℕ} {i j limit : Addr} {l : List Addr} (h : visited n i limit = j :: l) :
    j = i := by
  cases n with
  | zero => contradiction
  | succ n =>
    rw [visited] at h
    split_ifs at h
    exact (List.cons.inj h).1.symm

theorem visited_eq_nil {n : ℕ} (hn : 0 < n) {i limit : Addr} :
    visited n i limit = [] ↔ ¬ i < limit := by
  obtain ⟨m, rfl⟩ := Nat.exists_eq_add_of_lt hn
  rw [Nat.zero_add, visited]
  split_ifs with hlt
  · simp [hlt]
  · simp [hlt]

theorem canonical_align (a : Addr) : isCanonical (a &&& ~~~0xFFF#64) = isCanonical a := by
  rw [Bool.eq_iff_iff, isCanonical_iff, isCanonical_iff, toNat_and_not_fff]
  have := a.isLt
  omega

theorem regionPages_zero : regionPages 0 size = [] ↔ sizeActual 0 size = 0 := by
  have hfirst : (0 : Addr) &&& ~~~0xFFF#64 = 0 := by decide
  unfold regionPages pageLoop
  rw [hfirst, visited_eq_nil (by decide), show (0 : Addr) + sizeActual 0 size = sizeActual 0 size
    from BitVec.zero_add _, BitVec.lt_def, BitVec.toNat_eq]
  change ¬ 0 < _ ↔ _ = 0
  omega

theorem takeRun_spec {s : State P} (ht : Tables L.toLawfulAllocator (under dir) s) {contig : Addr}
    {pmm : P} (hcall : takeRun L.toRunAllocator flags size s.pmm = .ok (contig, pmm)) :
    Tables L.toLawfulAllocator (under dir) { s with pmm := pmm } ∧
      L.used s.pmm ⊆ L.used pmm ∧
      (has flags memAllocContiguous = true → size / 0x1000#64 ≠ 0 ∧ L.used s.pmm ⊂ L.used pmm) ∧
      (has flags memAllocContiguous = false → pmm = s.pmm) := by
  unfold takeRun at hcall
  split_ifs at hcall with hcontig
  · obtain ⟨hne, hvalid, hmore⟩ := L.runs_spec s.pmm _ _ ht.valid hcall
    exact ⟨⟨hvalid, ht.tree, fun g hg => hmore.subset (ht.inUse g hg)⟩, hmore.subset,
      fun _ => ⟨hne, hmore⟩, fun h => absurd (hcontig.symm.trans h) (by decide)⟩
  · obtain ⟨-, rfl⟩ := Prod.mk.inj (Except.ok.inj hcall)
    exact ⟨ht, subset_rfl, fun h => absurd h hcontig, fun _ => rfl⟩

theorem mapAt_sets (hfree : has pageFlags memPageFree = false) (first contig : Addr) :
    Sets L dir (mapAt L.toRunAllocator first contig flags (pageBits flags pageFlags))
      (Grants flags (pageBits flags pageFlags)) :=
  fun _ _ _ ht hat => mapAt_grown ht hat ((pageBits_has (by decide)).trans hfree)

/-- A call that got through returns 0x0 for a heap that lies there only. -/
theorem Ran.through_unchanged {contig : Addr} {pmm : P}
    (ht : Tables L.toLawfulAllocator (under dir) k.state)
    (hran : Ran L k dir start size flags pageFlags r k' contig pmm true)
    (hnot : ¬ Refused k dir start size flags) :
    (r = 0 → Unchanged L k k') ↔
      (has flags memAllocHeap = true → k.heap = 0 → regionPages 0 size = []) := by
  obtain ⟨hr, hlocked, hheap⟩ := hran.through rfl
  constructor
  · intro hunchanged hflag hzero
    have hbase : k.base start flags = 0 := (if_pos hflag).trans hzero
    have hsame := (hunchanged (hr.trans hbase)).heap
    rw [hheap, if_pos hflag, hbase, hzero] at hsame
    exact regionPages_zero.mpr ((BitVec.zero_add _).symm.trans hsame)
  · intro hnil hzero
    have hbase : k.base start flags = 0 := hr.symm.trans hzero
    cases hflag : has flags memAllocHeap with
    | false =>
      have hstart : start = 0 := by
        rw [← hbase, Kernel.base, hflag, if_neg Bool.false_ne_true]
      exact absurd (Or.inr (Or.inr (Or.inl ⟨hstart, hflag⟩))) hnot
    | true =>
      have hheap0 : k.heap = 0 := by rw [← hbase, Kernel.base, hflag, if_pos rfl]
      have hnil := hnil hflag hheap0
      have hsize := regionPages_zero.mp hnil
      obtain ⟨-, -, hrun, hsame⟩ := takeRun_spec ht hran.frames
      have hloop := hran.loop
      rw [hbase, hnil] at hloop
      cases hcontig : has flags memAllocContiguous with
      | false =>
        obtain rfl := hsame hcontig
        have hstate : k'.state = k.state := (congrArg Prod.snd (Except.ok.inj hloop)).symm
        refine ⟨by rw [hstate], fun _ _ => by rw [hstate], ?_, hlocked⟩
        rw [hheap, hflag, if_pos rfl, hbase, hsize]
        exact BitVec.add_zero _
      | true =>
        rw [hbase, hsize] at hrun
        exact absurd (by decide) (hrun hcontig).1

/-- A call that stopped at a page has left no trace if it had not taken anything and this is the
first page, in a large one. -/
theorem Ran.stopped_unchanged {contig : Addr} {pmm : P}
    (ht : Tables L.toLawfulAllocator (under dir) k.state)
    (hfree : has pageFlags memPageFree = false)
    (hran : Ran L k dir start size flags pageFlags r k' contig pmm false)
    (hnot : ¬ Refused k dir start size flags) :
    (has flags memAllocHeap = false ∧ has flags memAllocContiguous = false ∧
      (∃ i ∈ (regionPages start size).head?, OnLarge k.state.phys dir i) → Unchanged L k k') ∧
    (Takes flags pageFlags → Unchanged L k k' → has flags memAllocHeap = false ∧
      has flags memAllocContiguous = false ∧
      ∃ i ∈ (regionPages start size).head?, OnLarge k.state.phys dir i) := by
  obtain ⟨-, hheap, hlocked⟩ := hran.stopped rfl
  obtain ⟨ht₁, -, hrun, hsame⟩ := takeRun_spec ht hran.frames
  obtain ⟨hgrown, hdone⟩ :=
    meets_of_eq_ok (mapPages_grown (mapAt_sets hfree _ _) ht₁ _) hran.loop
  have hloop := hran.loop
  constructor
  · rintro ⟨hflag, hcontig, i, hi, hlarge⟩
    have hbase : k.base start flags = start := by
      rw [Kernel.base, hflag, if_neg Bool.false_ne_true]
    obtain rfl := hsame hcontig
    obtain ⟨l, hpages⟩ := List.head?_eq_some_iff.mp hi
    rw [hbase, hpages, mapPages_large hlarge] at hloop
    have hstate : k'.state = k.state := (congrArg Prod.snd (Except.ok.inj hloop)).symm
    refine ⟨by rw [hstate], fun _ _ => by rw [hstate], hheap, ?_⟩
    rw [hlocked, hflag, Bool.false_or]
  · intro htakes hunchanged
    have hflag : has flags memAllocHeap = false := by
      by_contra htrue
      rw [Bool.not_eq_false] at htrue
      have hsame := hunchanged.locked
      rw [hlocked, htrue, hran.unlocked htrue] at hsame
      contradiction
    have hcontig : has flags memAllocContiguous = false := by
      by_contra htrue
      have hmore := (hrun (by simpa using htrue)).2.trans_subset hgrown.used
      exact hmore.ne hunchanged.used.symm
    have hbase : k.base start flags = start := by
      rw [Kernel.base, hflag, if_neg Bool.false_ne_true]
    obtain rfl := hsame hcontig
    refine ⟨hflag, hcontig, ?_⟩
    rw [hbase] at hloop hdone
    cases hpages : regionPages start size with
    | nil =>
      rw [hpages] at hdone
      exact absurd (hdone.mpr fun _ hi => absurd hi List.not_mem_nil) Bool.false_ne_true
    | cons i l =>
      refine ⟨i, rfl, ?_⟩
      by_contra hsmall
      have hi : isCanonical i = true := by
        rw [head_visited hpages, canonical_align]
        by_contra hbad
        exact hnot (Or.inr (Or.inl (by simpa using hbad)))
      have hgrants : Grants flags (pageBits flags pageFlags) := by
        refine ⟨hcontig, (pageBits_has (by decide)).trans ?_⟩
        rcases htakes with h | h | h
        · exact absurd (h.symm.trans hflag) (by decide)
        · exact absurd (h.symm.trans hcontig) (by decide)
        · exact h
      rw [hpages] at hloop
      have hmore := meets_of_eq_ok
        (mapPages_more (mapAt_sets hfree _ _) hgrants ht₁ hi hsmall l) hloop
      exact hmore.ne hunchanged.used.symm

/-- A call that returned 0x0 has left no trace exactly if it was refused at the start, or if its
first page lies in a large one and it had not taken the lock or a run of frames. -/
theorem memAllocate_unchanged_iff (ht : Tables L.toLawfulAllocator (under dir) k.state)
    (hfree : has pageFlags memPageFree = false)
    (hcall : memAllocate L.toRunAllocator k dir start size flags pageFlags = .ok (r, k')) :
    (Harmless k dir start size flags → r = 0 → Unchanged L k k') ∧
      (Takes flags pageFlags → (r = 0 → Unchanged L k k') → Harmless k dir start size flags) := by
  rcases memAllocate_cases hcall with ⟨hrefused, rfl, -⟩ | ⟨hnot, contig, pmm, done, hran, -⟩
  · exact ⟨fun _ _ => Unchanged.refl k', fun _ _ => Or.inl hrefused⟩
  obtain ⟨ht₁, -⟩ := takeRun_spec ht hran.frames
  obtain ⟨-, hdone⟩ := meets_of_eq_ok (mapPages_grown (mapAt_sets hfree _ _) ht₁ _) hran.loop
  cases done with
  | true =>
    have hall := hdone.mp rfl
    have hiff := hran.through_unchanged ht hnot
    constructor
    · rintro (h | h | ⟨hflag, -, i, hi, hlarge⟩)
      · exact absurd h hnot
      · exact hiff.mpr h.2
      · exact hiff.mpr fun h => absurd (h.symm.trans hflag) (by decide)
    · exact fun _ h => Or.inr (Or.inl ⟨hall, hiff.mp h⟩)
  | false =>
    obtain ⟨hleave, htrace⟩ := hran.stopped_unchanged ht hfree hnot
    constructor
    · rintro (h | h | h) -
      · exact absurd h hnot
      · exact absurd (hdone.mpr h.1) Bool.false_ne_true
      · exact hleave h
    · exact fun htakes h => Or.inr (Or.inr (htrace htakes (h (hran.stopped rfl).1)))

end Failure

section Bitmap

open Pmm PmmAllocator

variable {p : Pmm.State} {n f g : ℕ}

/-- A search that answers names a free frame first. -/
theorem scanFrames_first (hn : n ≠ 0) (h : scanFrames p n = some f) :
    f < p.nframes.toNat ∧ Pmm.used p f = false := by
  rw [scanFrames, if_neg hn] at h
  split_ifs at h with h1
  · exact scanFrame_eq_some p f h
  · obtain ⟨w, hword, hw⟩ := List.exists_of_findSome?_eq_some h
    have hword : w < p.nframes.toNat / 32 := List.mem_range.mp hword
    split_ifs at hw
    obtain ⟨bit, hbit, hw⟩ := List.exists_of_findSome?_eq_some hw
    have hb : bit < 32 := List.mem_range.mp hbit
    split_ifs at hw with hcond
    have hf : w * 32 + bit = f := by
      rw [← Option.some.inj hw]
      ring
    refine ⟨by omega, ?_⟩
    unfold Pmm.used
    rw [show f / 32 = w by omega, show f % 32 = bit by omega]
    exact getLsbD_of_and_mask_eq_zero _ bit hb hcond.1

/-- Setting frames clears none, whatever their numbers. -/
theorem used_setFrame_mono (frame : CInt) (h : Pmm.used p g = true) :
    Pmm.used (Pmm.setFrame p frame) g = true := by
  unfold Pmm.used Pmm.setFrame State.setWord at *
  by_cases hw : ((g / 32 : ℕ) : ℤ) = wordOf frame
  · rw [hw] at h ⊢
    dsimp only
    rw [Function.update_self, BitVec.getLsbD_or, h, Bool.true_or]
  · exact (congrArg (BitVec.getLsbD · (g % 32)) (Function.update_of_ne hw _ _)).trans h

theorem used_setFrames_mono (frame : CInt) (n : ℕ) (h : Pmm.used p g = true) :
    Pmm.used (setFrames p frame n) g = true := by
  induction n with
  | zero => exact h
  | succ n ih =>
    rw [setFrames_succ]
    exact used_setFrame_mono _ ih

theorem used_setFrames_first (hn : n ≠ 0) (hf : f < 2 ^ 31) :
    Pmm.used (setFrames p (BitVec.ofNat 32 f) n) f = true := by
  induction n with
  | zero => contradiction
  | succ n ih =>
    rw [setFrames_succ]
    cases n with
    | zero =>
      change Pmm.used (Pmm.setFrame p (BitVec.ofNat 32 f + 0#32)) f = true
      rw [BitVec.add_zero, used_setFrame p f f hf]
      simp
    | succ n => exact used_setFrame_mono _ (ih (Nat.succ_ne_zero n))

theorem allocateBlocks_runs (p : Pmm.State) (k : BitVec 64) (r : Addr × Pmm.State)
    (hvalid : bitmap.valid p) (hcall : Pmm.allocateBlocks p k = .ok r) :
    k ≠ 0 ∧ bitmap.valid r.2 ∧ bitmap.used p < bitmap.used r.2 := by
  obtain ⟨a, p'⟩ := r
  have hp : p.nframes.toNat ≤ 2 ^ 19 := hvalid
  unfold Pmm.allocateBlocks at hcall
  split_ifs at hcall with hzero
  cases hscan : scanFrames p k.toNat with
  | none => simp [findFirstFrames, hscan] at hcall
  | some f =>
    have hn : k.toNat ≠ 0 := fun h => hzero (BitVec.eq_of_toNat_eq h)
    obtain ⟨hf, hfree⟩ := scanFrames_first hn hscan
    simp only [findFirstFrames, hscan] at hcall
    split_ifs at hcall
    obtain ⟨-, rfl⟩ := Prod.mk.inj (Except.ok.inj hcall)
    refine ⟨hzero, (congrArg BitVec.toNat (setFrames_nframes p _ _)).trans_le hp, ?_⟩
    have hfirst := used_setFrames_first (p := p) hn (show f < 2 ^ 31 by omega)
    have hnat : (BitVec.ofNat 28 f).toNat = f := by
      rw [BitVec.toNat_ofNat]
      omega
    refine Set.ssubset_iff_of_subset (fun g hg => used_setFrames_mono _ _ hg) |>.mpr
      ⟨BitVec.ofNat 28 f, ?_, ?_⟩
    · change Pmm.used (setFrames p _ _) _ = true
      rwa [hnat]
    · change ¬ Pmm.used p _ = true
      rw [hnat, hfree]
      decide

def pmmRuns : LawfulRunAllocator Pmm.State :=
  { bitmap with
    allocateBlocks := Pmm.allocateBlocks
    runs_spec := allocateBlocks_runs }

def emptyKernel : Kernel Pmm.State := ⟨emptyDirectory, 0xFFFFFF0000000000, false⟩

private theorem two_pages :
    (memAllocate pmmRuns.toRunAllocator emptyKernel 1 0xFFFFFFFFF000 0x2000 0 0).map
      (fun x => (x.1, Pmm.used x.2.state.pmm 2)) = .ok (0, true) := by
  decide +kernel

/-- Two pages at the end of the lower half: the second cannot be created, and the call returns 0x0
with the first one mapped. -/
theorem memAllocate_keeps_first_page :
    Tables pmmRuns.toLawfulAllocator (under 1) emptyKernel.state ∧
      has 0 memAllocCritical = false ∧ has 0 memPageFree = false ∧
      ∃ k', memAllocate pmmRuns.toRunAllocator emptyKernel 1 0xFFFFFFFFF000 0x2000 0 0 =
          .ok (0, k') ∧ ¬ Unchanged pmmRuns emptyKernel k' := by
  refine ⟨emptyDirectory_tables, by decide, by decide, ?_⟩
  have hrun := two_pages
  cases hcall : memAllocate pmmRuns.toRunAllocator emptyKernel 1 0xFFFFFFFFF000 0x2000 0 0 with
  | error e => rw [hcall] at hrun; contradiction
  | ok res =>
    obtain ⟨r, k'⟩ := res
    rw [hcall] at hrun
    obtain ⟨rfl, hused⟩ := Prod.mk.inj (Except.ok.inj hrun)
    refine ⟨k', rfl, fun hunchanged => ?_⟩
    have hmem : (2 : FrameNo) ∈ pmmRuns.used emptyKernel.state.pmm := by
      rw [← hunchanged.used]
      exact hused
    exact absurd (show Pmm.used emptyDirectory.pmm 2 = true from hmem) (by decide)

theorem memAllocate_unchanged_two_pages :
    ∃ k', memAllocate pmmRuns.toRunAllocator emptyKernel 1 0xFFFFFFFFF000 0x2000 0 0 =
        .ok (0, k') ∧
      (Harmless emptyKernel 1 0xFFFFFFFFF000 0x2000 0 → (0 : Addr) = 0 →
        Unchanged pmmRuns emptyKernel k') ∧
      (Takes 0 0 → ((0 : Addr) = 0 → Unchanged pmmRuns emptyKernel k') →
        Harmless emptyKernel 1 0xFFFFFFFFF000 0x2000 0) := by
  have hrun := two_pages
  cases hcall : memAllocate pmmRuns.toRunAllocator emptyKernel 1 0xFFFFFFFFF000 0x2000 0 0 with
  | error e => rw [hcall] at hrun; contradiction
  | ok res =>
    obtain ⟨r, k'⟩ := res
    rw [hcall] at hrun
    obtain ⟨rfl, -⟩ := Prod.mk.inj (Except.ok.inj hrun)
    exact ⟨k', rfl, memAllocate_unchanged_iff emptyDirectory_tables (by decide) hcall⟩

end Bitmap

end ReduceOS.RegionAllocation
