import ReduceOS.Views

/-!
What a clone has to make, read off the directory before the call: a table for each present entry
of the upper levels, and the pages open to user code, in the order in which the loops come to them.
With the reference counts from before the call that says which of them take a frame.
-/
namespace ReduceOS.CloneTasks

open Machine Page Physical Paging AddressSpace Outcome TableTree PageMap Sharing SharedPages Views

inductive Task where
  | table
  | page (address : Addr) (frame : FrameNo)

/-- The tasks of an entry, `n` levels above the pages. -/
def entryTasks (mem : FrameNo → Frame) : ℕ → Addr → Slot → List Task
  | 0, address, pg =>
    if (mem pg.1 pg.2).present && (mem pg.1 pg.2).usermode then
      [.page address (mem pg.1 pg.2).address]
    else []
  | n + 1, address, pg =>
    if (mem pg.1 pg.2).present then
      .table :: allIndices.flatMap fun i =>
        entryTasks mem n (address ||| indexBits n i) ((mem pg.1 pg.2).address, i)
    else []

def tableTasks (mem : FrameNo → Frame) (n : ℕ) (address : Addr) (table : FrameNo) : List Task :=
  allIndices.flatMap fun i => entryTasks mem n (address ||| indexBits n i) (table, i)

def cloneTasks (mem : FrameNo → Frame) (dir : FrameNo) : List Task :=
  .table :: lowerHalf.flatMap fun i => entryTasks mem 3 (indexBits 3 i) (dir, i)

/-- The tasks that take a frame: the tables, and the pages that are copied, in the stack region or
because their frame has all the references it can have by then. -/
def taken : (FrameNo → BitVec 8) → List Task → List Task
  | _, [] => []
  | refs, .table :: tasks => .table :: taken refs tasks
  | refs, .page address f :: tasks =>
    if usermodeStackRegion ≤ address ∨ refs f = 255 then .page address f :: taken refs tasks
    else taken (Function.update refs f (if refs f = 0 then 2 else refs f + 1)) tasks

section Tasks

variable {P : Type} {L : LawfulAllocator P} {Y : Layout} {F : Set FrameNo}
  {D E : Domain FrameNo (Fin 512)} {Z : Set Slot} {s : State P} {mem : FrameNo → Frame}
  {r g : FrameNo} {p : List (Fin 512)} {i : Fin 512} {n : ℕ} {address : Addr}

def Full (D : Domain FrameNo (Fin 512)) (r : FrameNo) : Prop :=
  ∀ q i, D.carrier r q → q ≠ [] → q.length < 4 → D.carrier r (q ++ [i])

theorem entryTasks_of_present (address : Addr) (hpres : (mem g i).present = true) :
    entryTasks mem (n + 1) address (g, i) =
      .table :: tableTasks mem n address (mem g i).address := if_pos hpres

theorem entryTasks_of_absent (address : Addr) (hpres : (mem g i).present = false) :
    entryTasks mem n address (g, i) = [] := by
  cases n <;> simp [entryTasks, hpres]

/-- The tasks stay what they are while the same tables and frames are mapped. -/
theorem entryTasks_keep (hw : Formed L Y F D s) (hk : Keep Z E s.phys mem)
    (hDE : ∀ q, D.carrier r q → E.carrier r q) (hfull : Full D r) (hlen : p.length + n = 3)
    (hp : D.carrier r (p ++ [i])) (hg : tableAt kNext s.phys r p = some g) (address : Addr) :
    entryTasks mem n address (g, i) = entryTasks s.phys n address (g, i) := by
  have hsame := hk.entries r p i g (hDE _ hp) hg
  induction n generalizing p g i address with
  | zero =>
    rw [entryTasks, entryTasks, hsame.present_eq, hsame.usermode_eq, hsame.address_eq]
  | succ n ih =>
    cases hpres : (s.phys g i).present with
    | false =>
      rw [entryTasks_of_absent address (hsame.present_eq.trans hpres),
        entryTasks_of_absent address hpres]
    | true =>
      rw [entryTasks_of_present address (hsame.present_eq.trans hpres),
        entryTasks_of_present address hpres, hsame.address_eq, tableTasks, tableTasks]
      congr 1
      have hnext : tableAt kNext s.phys r (p ++ [i]) = some (s.phys g i).address := by
        rw [tableAt, walk_concat, show walk kNext s.phys 0 r p = some g from hg]
        simpa using hw.linked r p i g hp (by omega) hg hpres
      refine List.flatMap_congr fun j _ => ?_
      have hj : D.carrier r (p ++ [i] ++ [j]) := hfull _ j hp (by simp) (by simp; omega)
      exact ih (by simp; omega) hj hnext _ (hk.entries r _ j _ (hDE _ hj) hnext)

theorem tableTasks_keep (hw : Formed L Y F D s) (hk : Keep Z E s.phys mem)
    (hDE : ∀ q, D.carrier r q → E.carrier r q) (hfull : Full D r) (hlen : p.length + n = 3)
    (hp : D.carrier r p) (hne : p ≠ []) (hg : tableAt kNext s.phys r p = some g)
    (address : Addr) : tableTasks mem n address g = tableTasks s.phys n address g :=
  List.flatMap_congr fun i _ =>
    entryTasks_keep hw hk hDE hfull hlen (hfull p i hp hne (by omega)) hg _

end Tasks

section Supply

variable {P : Type} {L : LawfulAllocator P} {S : P → List Task → Prop} {s s' : State P}
  {tasks : List Task} {address : Addr} {f : FrameNo}

/-- The address that the kernel makes of the frame lies outside the map of physical memory. -/
def Unmapped (f : FrameNo) : Prop :=
  ∀ e : Entry, e.address = f → physFrame (memRemapPhys (getFrame e)) = .error .pageFault

theorem unmapped_of_high (hhigh : 2 ^ 19 ≤ f.toNat) (hsmall : f.toNat < 2 ^ 20) : Unmapped f := by
  rintro e rfl
  apply physFrame_of_msb
  rw [BitVec.msb_eq_true_iff_two_mul_ge, BitVec.toNat_shiftLeft, BitVec.toNat_setWidth,
    Nat.shiftLeft_eq]
  omega

/-- While `S` holds of what is still to be done, `A` gives out the frames that `L` gives out, or
stops in a bad way. A page that is then copied is in no frame of `F`, or copying it stops so. -/
structure Supplied (L : LawfulAllocator P) (A : Allocator P) (S : P → List Task → Prop)
    (F : Set FrameNo) (bad tol : Panic → Prop) : Prop where
  allocate : ∀ s t tasks, L.valid s.pmm → S s.pmm (t :: tasks) →
    Runs bad tol (allocateFrame A s) (allocateFrame L.toAllocator s) fun x =>
      x.1 = frameAddr x.2.1 ∧ Took L s x.2.1 x.2.2 ∧
        (S x.2.2.pmm tasks ∧ (∀ address f, t = .page address f → f ∉ F) ∨
          ∃ address f, t = .page address f ∧ bad .pageFault ∧ Unmapped f)

theorem supplied_self (L : LawfulAllocator P) :
    Supplied L L.toAllocator (fun _ _ => True) ∅ (fun _ => False) Oom := by
  refine ⟨fun s t tasks hv _ => runs_refl (meets_mono (allocateFrame_spec L hv) ?_)⟩
  exact fun x hx => ⟨hx.1, hx.2, Or.inl ⟨trivial, fun _ f _ => Set.notMem_empty f⟩⟩

def Ahead (S : P → List Task → Prop) (tasks : List Task) (s : State P) : Prop :=
  S s.pmm (taken s.refs tasks)

theorem Ahead.copied (h : Ahead S (.page address f :: tasks) s)
    (hcopied : usermodeStackRegion ≤ address ∨ s.refs f = 255) :
    S s.pmm (.page address f :: taken s.refs tasks) := by
  rwa [Ahead, taken, if_pos hcopied] at h

theorem Ahead.shared (h : Ahead S (.page address f :: tasks) s)
    (hshared : ¬ (usermodeStackRegion ≤ address ∨ s.refs f = 255)) (hpmm : s'.pmm = s.pmm)
    (hrefs : s'.refs = Function.update s.refs f (if s.refs f = 0 then 2 else s.refs f + 1)) :
    Ahead S tasks s' := by
  rw [Ahead, taken, if_neg hshared, ← hrefs] at h
  rwa [Ahead, hpmm]

end Supply

end ReduceOS.CloneTasks
