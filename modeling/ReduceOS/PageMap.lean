import ReduceOS.Paging
import ReduceOS.TableTree

/-!
The four-level page table as a finite map. Tables are named by the directory and
the indices leading to them; as long as they form a tree, `mem_getPage` reads and
extends that tree, and setting an entry at one page leaves the entries of all other
pages alone. The map is exact only below 2 GiB, because `MEM_GET_FRAME` shifts in
32 bits.
-/
namespace ReduceOS.PageMap

open Machine Page Physical Paging Outcome TableTree

def follow (d : ℕ) (e : Entry) : Bool := decide (d < 3) && e.present && !(decide (d ≠ 0) && e.size)

def kNext (d : ℕ) (e : Entry) : Option FrameNo :=
  if follow d e then (physFrame (memRemapPhys (getFrame e))).toOption else none

def path (x : Addr) : List (Fin 512) := [pml4Index x, pdptIndex x, pagedirIndex x]

variable {mem mem' : FrameNo → Frame} {d : ℕ} {f g h r dir : FrameNo} {p q : List (Fin 512)}
  {i : Fin 512} {e : Entry}

@[simp] theorem follow_zero (d : ℕ) : follow d Entry.zero = false := by simp [follow, Entry.zero]

theorem kNext_of_not_follow (h : follow d e = false) : kNext d e = none := by
  simp [kNext, h]

@[simp] theorem kNext_zero (d : ℕ) : kNext d Entry.zero = none :=
  kNext_of_not_follow (follow_zero d)

theorem kNext_leaf (hd : 3 ≤ d) (e : Entry) : kNext d e = none := by
  apply kNext_of_not_follow
  simp [follow, Nat.not_lt.mpr hd]

theorem physFrame_of_kNext (hnext : kNext d e = some g) :
    follow d e = true ∧ physFrame (memRemapPhys (getFrame e)) = .ok g := by
  unfold kNext at hnext
  split at hnext
  · rename_i hfollow
    refine ⟨hfollow, ?_⟩
    cases hphys : physFrame (memRemapPhys (getFrame e)) with
    | ok g' => rw [hphys] at hnext; exact congrArg Except.ok (Option.some.inj hnext)
    | error x => rw [hphys] at hnext; contradiction
  · contradiction

theorem physFrame_of_kNext_none (hfollow : follow d e = true) (hnext : kNext d e = none) :
    physFrame (memRemapPhys (getFrame e)) = .error .pageFault := by
  simp only [kNext, hfollow, if_true] at hnext
  unfold physFrame at hnext ⊢
  split at hnext
  · contradiction
  · rename_i hout
    rw [if_neg hout]

def lookup (mem : FrameNo → Frame) : ℕ → FrameNo → List (Fin 512) → Except Panic (Option FrameNo)
  | _, f, [] => .ok (some f)
  | d, f, i :: p =>
    if follow d (mem f i) then
      match kNext d (mem f i) with
      | some g => lookup mem (d + 1) g p
      | none => .error .pageFault
    else .ok none

def Clear (mem : FrameNo → Frame) (d : ℕ) (f : FrameNo) (p : List (Fin 512)) : Prop :=
  ∀ q i, q ++ [i] <+: p → ∀ g, walk kNext mem d f q = some g →
    follow (d + q.length) (mem g i) = true → ∃ h, kNext (d + q.length) (mem g i) = some h

theorem lookup_of_clear (hc : Clear mem d f p) : lookup mem d f p = .ok (walk kNext mem d f p) := by
  induction p generalizing d f with
  | nil => rfl
  | cons i p ih =>
    unfold lookup
    rw [walk_cons]
    cases hfollow : follow d (mem f i) with
    | false => simp [kNext_of_not_follow hfollow]
    | true =>
      obtain ⟨g, hg⟩ := hc [] i (by simp) f rfl (by simpa using hfollow)
      simp only [List.length_nil, Nat.add_zero] at hg
      simp only [if_true, hg, Option.bind_some]
      apply ih
      intro q j hq g' hg' hfol
      have hwalk : walk kNext mem d f (i :: q) = some g' := by
        rw [walk_cons, hg]
        exact hg'
      have hlen : d + (i :: q).length = d + 1 + q.length := by
        simp only [List.length_cons]
        omega
      have := hc (i :: q) j (by simpa using hq) g' hwalk
      rw [hlen] at this
      exact this hfol

theorem clear_of_lookup {t : Option FrameNo} (hl : lookup mem d f p = .ok t) :
    Clear mem d f p := by
  induction p generalizing d f with
  | nil =>
    rintro q i ⟨q', hq'⟩
    simp at hq'
  | cons i p ih =>
    unfold lookup at hl
    intro q j hq g hg hfol
    cases q with
    | nil =>
      obtain rfl : j = i := by simpa using hq
      obtain rfl : f = g := by simpa using hg
      simp only [List.length_nil, Nat.add_zero] at hfol ⊢
      rw [if_pos hfol] at hl
      cases hnext : kNext d (mem f j) with
      | none => rw [hnext] at hl; contradiction
      | some g => exact ⟨g, rfl⟩
    | cons k q =>
      obtain ⟨rfl, hpre⟩ : k = i ∧ q ++ [j] <+: p := by simpa using hq
      rw [walk_cons] at hg
      obtain ⟨g₁, hg₁, hg⟩ := Option.bind_eq_some_iff.mp hg
      rw [if_pos (physFrame_of_kNext hg₁).1, hg₁] at hl
      have hlen : d + (k :: q).length = d + 1 + q.length := by
        simp only [List.length_cons]
        omega
      rw [hlen] at hfol ⊢
      exact ih hl q j hpre g hg hfol

theorem lookup_cons (mem : FrameNo → Frame) (d : ℕ) (f : FrameNo) (i : Fin 512)
    (p : List (Fin 512)) :
    lookup mem d f (i :: p) = (lookup mem d f [i]).bind fun t =>
      match t with
      | some g => lookup mem (d + 1) g p
      | none => .ok none := by
  rw [lookup, lookup]
  cases follow d (mem f i) with
  | false => rfl
  | true => cases kNext d (mem f i) <;> rfl

theorem tableIndex_align (x : Addr) (k : ℕ) (hk : 12 ≤ k) :
    tableIndex k (alignPageDestructive x) = tableIndex k x := by
  apply Fin.ext
  rw [tableIndex_val, tableIndex_val, alignPageDestructive, toNat_and_not_fff]
  obtain ⟨m, rfl⟩ := Nat.exists_eq_add_of_le hk
  rw [Nat.pow_add, ← Nat.div_div_eq_div_mul, ← Nat.div_div_eq_div_mul,
    Nat.mul_div_cancel _ (by decide)]

/-- The address `mem_getPage` takes its indices from. -/
theorem indices_aligned (x : Addr) :
    let addr := if x % 0x1000#64 ≠ 0 then alignPageDestructive x else x
    path addr = path x ∧ pagetblIndex addr = pagetblIndex x := by
  by_cases h : x % 0x1000#64 = 0
  · simp [h]
  · simp only [ne_eq, h, not_false_eq_true, if_true]
    unfold path pml4Index pdptIndex pagedirIndex pagetblIndex
    rw [tableIndex_align x _ (by decide), tableIndex_align x _ (by decide),
      tableIndex_align x _ (by decide), tableIndex_align x _ (by decide)]
    exact ⟨rfl, rfl⟩

section Lookup

variable {P : Type} {A : Allocator P} {s : State P}

/-- A lookup takes one step of the walk and touches nothing. -/
theorem descend_lookup (d : ℕ) (hd : d < 3) :
    descend A s (g, i) memDefault (decide (d ≠ 0)) =
      (lookup s.phys d g [i]).map fun t => (t, s) := by
  unfold lookup
  unfold descend ensureTable State.entry
  cases hpres : (s.phys g i).present with
  | false =>
    have hfollow : follow d (s.phys g i) = false := by simp [follow, hpres]
    simp only [hfollow, Bool.false_eq_true, if_false]
    rfl
  | true =>
    simp only [if_true]
    cases hsize : decide (d ≠ 0) && (s.phys g i).size with
    | true =>
      have hfollow : follow d (s.phys g i) = false := by
        simp only [follow, hpres, hsize, Bool.not_true, Bool.and_false]
      simp only [hfollow, Bool.false_eq_true, if_false]
      change (if (decide (d ≠ 0) && (s.phys g i).size) = true then _ else _) = _
      rw [if_pos hsize]
      rfl
    | false =>
      have hfollow : follow d (s.phys g i) = true := by
        simp only [follow, hd, hpres, hsize, decide_true, Bool.not_false, Bool.and_true]
      simp only [hfollow, if_true]
      change (if (decide (d ≠ 0) && (s.phys g i).size) = true then _ else _) = _
      rw [if_neg (by rw [hsize]; exact Bool.false_ne_true)]
      cases hnext : kNext d (s.phys g i) with
      | none =>
        rw [physFrame_of_kNext_none hfollow hnext]
        rfl
      | some h =>
        rw [(physFrame_of_kNext hnext).2]
        rfl

/-- Where an entry is present the flags do not matter. -/
theorem descend_present (hpres : (s.phys g i).present = true) (flags : BitVec 64) (hd : d < 3) :
    descend A s (g, i) flags (decide (d ≠ 0)) =
      (lookup s.phys d g [i]).map fun t => (t, s) := by
  rw [← descend_lookup (A := A) d hd]
  unfold descend ensureTable
  rw [if_pos (show (State.entry s (g, i)).present = true from hpres),
    if_pos (show (State.entry s (g, i)).present = true from hpres)]

/-- `mem_getPage` with `MEM_DEFAULT` is the walk of a lookup; the state is untouched. -/
theorem memGetPage_lookup (dir : FrameNo) (w : Addr) (hw : isCanonical w = true) :
    memGetPage A s dir w memDefault =
      (lookup s.phys 0 dir (path w)).map fun t => (t.map fun t => (t, pagetblIndex w), s) := by
  obtain ⟨hpath, hlast⟩ := indices_aligned w
  unfold memGetPage
  simp only [hw, Bool.not_true, Bool.false_eq_true, if_false]
  generalize (if w % 0x1000#64 ≠ 0 then alignPageDestructive w else w) = addr at hpath hlast ⊢
  rw [← hpath, ← hlast, path, lookup_cons, show (false : Bool) = decide (0 ≠ 0) from rfl,
    descend_lookup 0 (by decide)]
  have hsecond : ∀ g i, descend A s (g, i) memDefault true =
      (lookup s.phys 1 g [i]).map fun t => (t, s) := fun _ _ => descend_lookup 1 (by decide)
  have hthird : ∀ g i, descend A s (g, i) memDefault true =
      (lookup s.phys 2 g [i]).map fun t => (t, s) := fun _ _ => descend_lookup 2 (by decide)
  cases lookup s.phys 0 dir [pml4Index addr] with
  | error x => rfl
  | ok t =>
    cases t with
    | none => rfl
    | some pdpt =>
      dsimp only [bind, Except.bind, Except.map]
      rw [lookup_cons, hsecond]
      cases lookup s.phys 1 pdpt [pdptIndex addr] with
      | error x => rfl
      | ok t =>
        cases t with
        | none => rfl
        | some pd =>
          dsimp only [bind, Except.bind, Except.map]
          rw [hthird]
          cases lookup s.phys 2 pd [pagedirIndex addr] with
          | error x => rfl
          | ok t => cases t <;> rfl

/-- A level of a walk ends in the table at `p` with `J`, or early with `E`. -/
def WalkPost (J E : State P → Prop) (dir : FrameNo) (p : List (Fin 512))
    (res : Option FrameNo × State P) : Prop :=
  match res.1 with
  | some h => tableAt kNext res.2.phys dir p = some h ∧ J res.2
  | none => E res.2

/-- The walk of `mem_getPage` as a rule: `J` holds on the way, `E` where the walk ends. -/
theorem memGetPage_rule {J E : State P → Prop} {tol : Panic → Prop} {flags : BitVec 64}
    {a : Addr} (ha : isCanonical a = true) (hJ : J s)
    (hlevel : ∀ s p i g, J s → p ++ [i] <+: path a → p.length < 3 →
      tableAt kNext s.phys dir p = some g →
      Meets tol (descend A s (g, i) flags (decide (p.length ≠ 0))) (WalkPost J E dir (p ++ [i]))) :
    Meets tol (memGetPage A s dir a flags) fun res =>
      match res.1 with
      | some pg => ∃ t, pg = (t, pagetblIndex a) ∧ tableAt kNext res.2.phys dir (path a) = some t ∧
        J res.2
      | none => E res.2 := by
  obtain ⟨hpath, hlast⟩ := indices_aligned a
  unfold memGetPage
  simp only [ha, Bool.not_true, Bool.false_eq_true, if_false]
  generalize (if a % 0x1000#64 ≠ 0 then alignPageDestructive a else a) = addr at hpath hlast ⊢
  rw [← hpath] at hlevel ⊢
  rw [← hlast]
  refine meets_bind (hlevel s [] _ dir hJ ⟨[_, _], rfl⟩ (by decide) rfl) ?_
  rintro ⟨o₁, s₁⟩ h₁
  cases o₁ with
  | none => exact h₁
  | some pdpt =>
    refine meets_bind (hlevel s₁ [_] _ pdpt h₁.2 ⟨[_], rfl⟩ (by simp) h₁.1) ?_
    rintro ⟨o₂, s₂⟩ h₂
    cases o₂ with
    | none => exact h₂
    | some pd =>
      refine meets_bind (hlevel s₂ [_, _] _ pd h₂.2 ⟨[], rfl⟩ (by simp) h₂.1) ?_
      rintro ⟨o₃, s₃⟩ h₃
      cases o₃ with
      | none => exact h₃
      | some table => exact ⟨table, rfl, h₃.1, h₃.2⟩

theorem memGetPage_unchanged {w : Addr} {page : Option Slot} {s₁ : State P}
    (h : memGetPage A s dir w memDefault = .ok (page, s₁)) : s₁ = s := by
  cases hw : isCanonical w with
  | false =>
    unfold memGetPage at h
    rw [hw] at h
    exact (congrArg Prod.snd (Except.ok.inj h)).symm
  | true =>
    rw [memGetPage_lookup dir w hw] at h
    cases hl : lookup s.phys 0 dir (path w) with
    | error x => rw [hl] at h; contradiction
    | ok t =>
      rw [hl] at h
      exact (congrArg Prod.snd (Except.ok.inj h)).symm

end Lookup

structure Extends (D : Domain FrameNo (Fin 512)) (mem mem' : FrameNo → Frame) : Prop where
  table : ∀ r p g, D.carrier r p → tableAt kNext mem r p = some g →
    tableAt kNext mem' r p = some g
  entry : ∀ r p j g, D.carrier r (p ++ [j]) → tableAt kNext mem' r p = some g →
    (tableAt kNext mem r p = some g ∧ mem' g j = mem g j) ∨
      (tableAt kNext mem r p = none ∧ mem' g j = Entry.zero) ∨
      ∃ h, kNext p.length (mem' g j) = some h

variable {D : Domain FrameNo (Fin 512)}

namespace Extends

theorem refl (mem : FrameNo → Frame) : Extends D mem mem :=
  ⟨fun _ _ _ _ h => h, fun _ _ _ _ _ h => Or.inl ⟨h, rfl⟩⟩

theorem trans {mem'' : FrameNo → Frame} (h₁ : Extends D mem mem') (h₂ : Extends D mem' mem'') :
    Extends D mem mem'' := by
  refine ⟨fun r p g hp hg => h₂.table r p g hp (h₁.table r p g hp hg), ?_⟩
  intro r p j g hp hg
  rcases h₂.entry r p j g hp hg with ⟨hg', heq⟩ | ⟨hnone, hzero⟩ | hlink
  · rw [heq]
    exact h₁.entry r p j g hp hg'
  · refine Or.inr (Or.inl ⟨?_, hzero⟩)
    cases hold : tableAt kNext mem r p with
    | none => rfl
    | some f =>
      rw [h₁.table r p f (D.closed r p [j] hp) hold] at hnone
      contradiction
  · exact Or.inr (Or.inr hlink)

/-- A condition on the entries of a walk survives if blank and linking entries meet it. -/
theorem along {φ : ℕ → Entry → Prop} (h : Extends D mem mem') (hzero : ∀ d, φ d Entry.zero)
    (hlink : ∀ d e g, kNext d e = some g → φ d e) (hp : D.carrier r p)
    (hφ : ∀ q i, q ++ [i] <+: p → ∀ g, tableAt kNext mem r q = some g → φ q.length (mem g i)) :
    ∀ q i, q ++ [i] <+: p → ∀ g, tableAt kNext mem' r q = some g → φ q.length (mem' g i) := by
  rintro q i ⟨q', rfl⟩ g hg
  rcases h.entry r q i g (D.closed r (q ++ [i]) q' hp) hg with ⟨hg', heq⟩ | ⟨-, heq⟩ | ⟨h', hnext⟩
  · rw [heq]
    exact hφ q i ⟨q', rfl⟩ g hg'
  · rw [heq]
    exact hzero _
  · exact hlink _ _ _ hnext

theorem clear (h : Extends D mem mem') (hp : D.carrier r p) (hc : Clear mem 0 r p) :
    Clear mem' 0 r p := by
  have key := h.along (φ := fun d e => follow d e = true → ∃ g, kNext d e = some g)
    (fun d hd => by simp at hd) (fun d e g hg _ => ⟨g, hg⟩) hp
    (fun q i hq g hg => by simpa using hc q i hq g hg)
  intro q i hq g hg
  simpa using key q i hq g hg

end Extends

def Small (mem : FrameNo → Frame) (r : FrameNo) (p : List (Fin 512)) : Prop :=
  ∀ q i, q ++ [i] <+: p → ∀ g, tableAt kNext mem r q = some g →
    q.length ≠ 0 → (mem g i).size = false

theorem Extends.small (h : Extends D mem mem') (hp : D.carrier r p) (hs : Small mem r p) :
    Small mem' r p := by
  apply h.along (φ := fun d e => d ≠ 0 → e.size = false) (fun d _ => rfl) _ hp hs
  intro d e g hnext hd
  have hfollow := (physFrame_of_kNext hnext).1
  simpa [follow, hd] using (Bool.and_eq_true_iff.mp hfollow).2

/-- Writing a page entry changes no walk and makes none fault. -/
theorem leaf_change {D : Domain FrameNo (Fin 512)} {mem mem' : FrameNo → Frame} {r t : FrameNo}
    {p : List (Fin 512)} {j : Fin 512} (c : EntryChange D kNext mem mem' r p t j)
    (hp : p.length = 3) :
    (∀ r' q, D.carrier r' q → tableAt kNext mem' r' q = tableAt kNext mem r' q) ∧
      ∀ r' q, D.carrier r' q → q.length ≤ 3 → Clear mem 0 r' q → Clear mem' 0 r' q := by
  have hsame : ∀ r' q, D.carrier r' q → tableAt kNext mem' r' q = tableAt kNext mem r' q := by
    intro r' q hq
    apply c.same _ hq
    rw [kNext_leaf (by omega), kNext_leaf (by omega)]
  refine ⟨hsame, ?_⟩
  rintro r' _ hq hlen hclear q i ⟨q', rfl⟩ g hg
  have hDq : D.carrier r' q := D.closed r' q ([i] ++ q') (by simpa using hq)
  have hg' : tableAt kNext mem r' q = some g := (hsame r' q hDq).symm.trans hg
  have hgt : g ≠ t := by
    rintro rfl
    obtain ⟨-, rfl⟩ := c.tree r' q r p g hDq c.position hg' c.cell
    simp only [List.length_append, List.length_cons] at hlen
    omega
  rw [c.agree g i ⟨r', q, hDq, hg'⟩ (Or.inl hgt)]
  exact hclear q i ⟨q', rfl⟩ g hg'

section Create

variable {P : Type} (L : LawfulAllocator P)

/-- The tables at the positions of `D` form a tree, and the allocator knows they are
in use. -/
structure Tables (D : Domain FrameNo (Fin 512)) (s : State P) : Prop where
  valid : L.valid s.pmm
  tree : Tree D kNext s.phys
  inUse : ∀ g, IsTable D kNext s.phys g → g ∈ L.used s.pmm

variable {L} {s s' : State P}

theorem kNext_link (hd : d < 3) (hsize : d ≠ 0 → e.size = false) (hpres : e.present = true)
    (haddr : e.address.toNat < 2 ^ 19) : kNext d e = some e.address := by
  have hfollow : follow d e = true := by
    by_cases hd0 : d = 0
    · simp [follow, hd0, hpres]
    · simp [follow, hd, hpres, hsize hd0]
  unfold kNext
  rw [if_pos hfollow, getFrame_of_lt e haddr, physFrame_memRemapPhys _ (by omega)]
  rfl

/-- `mem'` is `mem` with the blank table `h` linked under entry `i` of table `g`. -/
structure NewTable (D : Domain FrameNo (Fin 512)) (mem mem' : FrameNo → Frame) (r : FrameNo)
    (p : List (Fin 512)) (i : Fin 512) (g h : FrameNo) : Prop where
  change : EntryChange D kNext mem mem' r p g i
  tree : Tree D kNext mem'
  extension : Extends D mem mem'
  linked : tableAt kNext mem' r (p ++ [i]) = some h
  blank : ∀ j, mem' h j = Entry.zero
  back : ∀ r' q f, D.carrier r' q → tableAt kNext mem' r' q = some f →
    f = h ∨ tableAt kNext mem r' q = some f

theorem NewTable.tables (hnew : NewTable D mem mem' r p i g h)
    (hf : IsTable D kNext mem' f) : f = h ∨ IsTable D kNext mem f := by
  obtain ⟨r', q, hq, hf⟩ := hf
  exact (hnew.back r' q f hq hf).imp id fun hf => ⟨r', q, hq, hf⟩

/-- Linking a fresh blank table into an entry that led nowhere. -/
theorem link_newTable (htree : Tree D kNext mem) (hp : D.carrier r (p ++ [i]))
    (hg : tableAt kNext mem r p = some g) (hold : kNext p.length (mem g i) = none)
    (hne : ∀ g', IsTable D kNext mem g' → g' ≠ h) (hnext : kNext p.length (mem' g i) = some h)
    (hblank : ∀ j, mem' h j = Entry.zero)
    (hagree : ∀ g' j, g' ≠ h → g' ≠ g ∨ j ≠ i → mem' g' j = mem g' j) :
    NewTable D mem mem' r p i g h := by
  have hDp : D.carrier r p := D.closed r p [i] hp
  have c : EntryChange D kNext mem mem' r p g i :=
    ⟨htree, hDp, hg, fun g' j hg' hoff => hagree g' j (hne g' hg') hoff⟩
  have hblank' : ∀ d j, kNext d (mem' h j) = none := fun d j => by rw [hblank, kNext_zero]
  have hback := fun r' q f hq hf =>
    c.link_back hnext hold hblank' (r := r') (p := q) (f := f) hq hf
  have hnone : tableAt kNext mem r (p ++ [i]) = none := by
    simpa using tableAt_none_of_next hg hold []
  refine ⟨c, c.tree_link hnext hold hblank' fun hh => hne h hh rfl, ⟨?_, ?_⟩, c.linked hnext,
    hblank, ?_⟩
  · intro r' q f hq hf
    rw [c.link_off hnext hold hblank' hq, hf]
    rintro ⟨rfl, rfl⟩
    exact absurd (hf.symm.trans hnone) (Option.some_ne_none _)
  · intro r' q j f hq hf
    rcases hback r' q f (D.closed r' q [j] hq) hf with ⟨rfl, rfl, rfl⟩ | hf
    · exact Or.inr (Or.inl ⟨hnone, hblank j⟩)
    · by_cases hsame : f = g ∧ j = i
      · obtain ⟨rfl, rfl⟩ := hsame
        obtain ⟨-, rfl⟩ := htree r' q r p f (D.closed r' q [j] hq) hDp hf hg
        exact Or.inr (Or.inr ⟨h, hnext⟩)
      · exact Or.inl ⟨hf, c.agree f j ⟨r', q, D.closed r' q [j] hq, hf⟩ (by tauto)⟩
  · intro r' q f hq hf
    exact (hback r' q f hq hf).imp (fun heq => heq.2.2) id

/-- The state after `setFrame` and `setEntry`, as `link_newTable` reads it. -/
theorem link_agree (s : State P) {g h : FrameNo} (hgh : g ≠ h) (i : Fin 512) (e : Entry) :
    ((s.setFrame h zeroFrame).setEntry g i e).phys g i = e ∧
      (∀ j, ((s.setFrame h zeroFrame).setEntry g i e).phys h j = Entry.zero) ∧
      ∀ g' j, g' ≠ h → g' ≠ g ∨ j ≠ i →
        ((s.setFrame h zeroFrame).setEntry g i e).phys g' j = s.phys g' j := by
  refine ⟨State.setEntry_phys_self _ _ _ _, ?_, ?_⟩
  · intro j
    rw [State.setEntry_phys_frame_ne _ _ _ hgh.symm, State.setFrame_phys_self]
    rfl
  · intro g' j hg' hoff
    rcases hoff with hoff | hoff
    · rw [State.setEntry_phys_frame_ne _ _ _ hoff, State.setFrame_phys_ne _ _ hg']
    · rw [State.setEntry_phys_index_ne _ _ _ _ hoff, State.setFrame_phys_ne _ _ hg']

private theorem lookupOnly_create : lookupOnly memCreate = false := by decide

/-- `s'` is `s` with a blank table from the allocator put under entry `i` of table `g`. -/
structure Added (L : LawfulAllocator P) (s s' : State P) (g : FrameNo) (i : Fin 512)
    (h : FrameNo) : Prop where
  low : h.toNat < 2 ^ 19
  fresh : h ∉ L.used s.pmm
  valid : L.valid s'.pmm
  used : L.used s'.pmm = insert h (L.used s.pmm)
  refs : s'.refs = s.refs
  written : s'.phys g i =
    { s.phys g i with present := true, rw := true, usermode := true, address := h }
  blank : ∀ j, s'.phys h j = Entry.zero
  others : ∀ g' j, g' ≠ h → g' ≠ g ∨ j ≠ i → s'.phys g' j = s.phys g' j

/-- With `MEM_CREATE` a level that is absent gets a fresh blank table; a size bit left in
the absent entry ends the walk all the same. -/
theorem descend_absent (hv : L.valid s.pmm) (hg : g ∈ L.used s.pmm)
    (habs : (s.phys g i).present = false) (testSize : Bool) :
    Meets Oom (descend L.toAllocator s (g, i) memCreate testSize) fun res =>
      ∃ h, Added L s res.2 g i h ∧
        res.1 = if testSize && (s.phys g i).size then none else some h := by
  unfold descend ensureTable
  rw [if_neg (show ¬ (State.entry s (g, i)).present = true by simp [State.entry, habs]),
    lookupOnly_create, if_neg Bool.false_ne_true, bind_assoc]
  refine meets_bind (allocateFrame_spec L hv) ?_
  rintro ⟨block, h, s₁⟩ ⟨hblock, htook⟩
  obtain rfl : block = frameAddr h := hblock
  have hgh : g ≠ h := by
    rintro rfl
    exact htook.fresh hg
  have hkeep : (s₁.setFrame h zeroFrame).phys g i = s.phys g i := by
    rw [State.setFrame_phys_ne _ _ hgh, htook.phys]
  let e : Entry := { s.phys g i with present := true, rw := true, usermode := true, address := h }
  let s₂ := (s₁.setFrame h zeroFrame).setEntry g i e
  obtain ⟨hself, hblank, hagree⟩ := link_agree s₁ hgh i e
  have hadded : Added L s s₂ g i h := by
    refine ⟨htook.low, htook.fresh, htook.valid, htook.used, htook.refs, hself, hblank, ?_⟩
    intro g' j hg' hoff
    rw [hagree g' j hg' hoff, htook.phys]
  have hentry : State.setSlot (s₁.setFrame h zeroFrame) (g, i) (Page.setFrame
      { State.entry (s₁.setFrame h zeroFrame) (g, i) with
        present := true, rw := true, usermode := true } (frameAddr h)) = s₂ := by
    simp only [State.setSlot, State.entry, setFrame_frameAddr, hkeep, s₂, e]
  simp only [pure_bind]
  rw [hentry, show State.entry s₂ (g, i) = e from hself,
    show e.size = (s.phys g i).size from rfl]
  by_cases hsize : (testSize && (s.phys g i).size) = true
  · rw [if_pos hsize]
    exact ⟨h, hadded, (if_pos hsize).symm⟩
  · have hlow : h.toNat < 2 ^ 24 := Nat.lt_trans htook.low (by decide)
    rw [if_neg hsize, getFrame_of_lt e htook.low, physFrame_memRemapPhys _ hlow]
    exact ⟨h, hadded, (if_neg hsize).symm⟩

structure Linked (L : LawfulAllocator P) (D : Domain FrameNo (Fin 512)) (s s' : State P)
    (r : FrameNo) (p : List (Fin 512)) (i : Fin 512) (g h : FrameNo) : Prop
    extends Added L s s' g i h where
  new : NewTable D s.phys s'.phys r p i g h
  entry : kNext p.length (s'.phys g i) = some (s'.phys g i).address

theorem Linked.tables (hl : Linked L D s s' r p i g h) (ht : Tables L D s) : Tables L D s' := by
  refine ⟨hl.valid, hl.new.tree, fun f hf => ?_⟩
  rw [hl.used]
  rcases hl.new.tables hf with rfl | hf
  · exact Set.mem_insert _ _
  · exact Set.mem_insert_of_mem _ (ht.inUse f hf)

/-- With `MEM_CREATE` a level is followed, or gets a fresh blank table. -/
theorem descend_create (ht : Tables L D s) (hp : D.carrier r (p ++ [i])) (hd : p.length < 3)
    (hg : tableAt kNext s.phys r p = some g)
    (hsize : p.length ≠ 0 → (s.phys g i).size = false)
    (hclear : follow p.length (s.phys g i) = true → ∃ h, kNext p.length (s.phys g i) = some h) :
    Meets Oom (descend L.toAllocator s (g, i) memCreate (decide (p.length ≠ 0))) fun res =>
      ∃ h, res.1 = some h ∧ tableAt kNext res.2.phys r (p ++ [i]) = some h ∧
        (res.2 = s ∨ Linked L D s res.2 r p i g h) := by
  have hnotsize : ¬ (decide (p.length ≠ 0) && (s.phys g i).size) = true := by
    intro hboth
    rw [Bool.and_eq_true, decide_eq_true_eq] at hboth
    exact Bool.false_ne_true ((hsize hboth.1).symm.trans hboth.2)
  cases hpres : (s.phys g i).present with
  | true =>
    have hfollow : follow p.length (s.phys g i) = true := by
      by_cases h0 : p.length = 0
      · simp [follow, h0, hpres]
      · simp [follow, hd, hpres, hsize h0]
    obtain ⟨h, hh⟩ := hclear hfollow
    rw [descend_present hpres _ hd, lookup, if_pos hfollow, hh]
    refine ⟨h, rfl, ?_, Or.inl rfl⟩
    rw [tableAt, walk_concat, show walk kNext s.phys 0 r p = some g from hg]
    simpa using hh
  | false =>
    have hused : g ∈ L.used s.pmm := ht.inUse g ⟨r, p, D.closed r p [i] hp, hg⟩
    refine meets_mono (descend_absent ht.valid hused hpres _) ?_
    rintro ⟨_, s₂⟩ ⟨h, hadded, hres⟩
    rw [if_neg hnotsize] at hres
    have hnext : kNext p.length (s₂.phys g i) = some h := by
      rw [hadded.written]
      exact kNext_link hd hsize rfl hadded.low
    have hnew : NewTable D s.phys s₂.phys r p i g h := by
      apply link_newTable ht.tree hp hg _ _ hnext hadded.blank hadded.others
      · apply kNext_of_not_follow
        simp [follow, hpres]
      · rintro g' hg' rfl
        exact hadded.fresh (ht.inUse g' hg')
    refine ⟨h, hres, hnew.linked, Or.inr ⟨hadded, hnew, ?_⟩⟩
    rw [hnext, hadded.written]

/-- `mem_getPage` with `MEM_CREATE` reaches the entry of `v`, adding blank tables. -/
theorem memGetPage_create (ht : Tables L D s) {v : Addr} (hv : isCanonical v = true)
    (hD : D.carrier dir (path v)) (hclear : Clear s.phys 0 dir (path v))
    (hsmall : Small s.phys dir (path v)) :
    Meets Oom (memGetPage L.toAllocator s dir v memCreate) fun res =>
      ∃ t, res.1 = some (t, pagetblIndex v) ∧ Tables L D res.2 ∧ Extends D s.phys res.2.phys ∧
        tableAt kNext res.2.phys dir (path v) = some t ∧ res.2.refs = s.refs := by
  refine meets_mono (memGetPage_rule (E := fun _ => False)
    (J := fun s₁ => Tables L D s₁ ∧ Extends D s.phys s₁.phys ∧ s₁.refs = s.refs) hv
    ⟨ht, Extends.refl _, rfl⟩ ?_) ?_
  · rintro s₁ q i g ⟨ht₁, hext, hrefs⟩ hpre hlen hg
    have hc := hext.clear hD hclear q i hpre g hg
    rw [Nat.zero_add] at hc
    obtain ⟨q', hq'⟩ := id hpre
    have hDq : D.carrier dir (q ++ [i]) := D.closed dir _ q' (by rwa [hq'])
    refine meets_mono (descend_create ht₁ hDq hlen hg (hext.small hD hsmall q i hpre g hg) hc) ?_
    rintro ⟨_, s₂⟩ ⟨h, rfl, hat, rfl | hl⟩
    · exact ⟨hat, ht₁, hext, hrefs⟩
    · exact ⟨hat, hl.tables ht₁, hext.trans hl.new.extension, hl.refs.trans hrefs⟩
  · rintro ⟨o, s'⟩ hres
    cases o with
    | none => exact hres.elim
    | some pg =>
      obtain ⟨t, rfl, hat, ht', hext, hrefs⟩ := hres
      exact ⟨t, rfl, ht', hext, hat, hrefs⟩

end Create

/-- Where a lookup faults, so does a walk that would create tables. -/
theorem memGetPage_fault {P : Type} {A : Allocator P} {s : State P} {v : Addr}
    (hv : isCanonical v = true) {x : Panic} (hx : lookup s.phys 0 dir (path v) = .error x)
    (flags : BitVec 64) : memGetPage A s dir v flags = .error x := by
  have level : ∀ (d : ℕ) (g : FrameNo) (i : Fin 512), d < 3 →
      lookup s.phys d g [i] ≠ .ok none →
      descend A s (g, i) flags (decide (d ≠ 0)) = (lookup s.phys d g [i]).map fun t => (t, s) := by
    intro d g i hd hne
    apply descend_present _ flags hd
    by_contra hnot
    apply hne
    rw [lookup, if_neg]
    intro hfollow
    simp only [follow, Bool.and_eq_true] at hfollow
    exact hnot hfollow.1.2
  obtain ⟨hpath, hlast⟩ := indices_aligned v
  unfold memGetPage
  simp only [hv, Bool.not_true, Bool.false_eq_true, if_false]
  generalize (if v % 0x1000#64 ≠ 0 then alignPageDestructive v else v) = addr at hpath hlast ⊢
  rw [← hpath, path, lookup_cons] at hx
  have h0 := level 0 dir (pml4Index addr) (by decide)
  cases hl0 : lookup s.phys 0 dir [pml4Index addr] with
  | error y =>
    rw [hl0] at hx h0
    rw [show (false : Bool) = decide (0 ≠ 0) from rfl, h0 (by simp)]
    exact congrArg Except.error (Except.error.inj hx)
  | ok t =>
    cases t with
    | none => rw [hl0] at hx; contradiction
    | some pdpt =>
      rw [hl0] at hx h0
      rw [show (false : Bool) = decide (0 ≠ 0) from rfl, h0 (by simp)]
      change lookup s.phys 1 pdpt [pdptIndex addr, pagedirIndex addr] = .error x at hx
      rw [lookup_cons] at hx
      have h1 := level 1 pdpt (pdptIndex addr) (by decide)
      change (descend A s (pdpt, pdptIndex addr) flags (decide (1 ≠ 0)) >>= _) = _
      cases hl1 : lookup s.phys 1 pdpt [pdptIndex addr] with
      | error y =>
        rw [hl1] at hx h1
        rw [h1 (by simp)]
        exact congrArg Except.error (Except.error.inj hx)
      | ok t =>
        cases t with
        | none => rw [hl1] at hx; contradiction
        | some pd =>
          rw [hl1] at hx h1
          rw [h1 (by simp)]
          change lookup s.phys 2 pd [pagedirIndex addr] = .error x at hx
          change (descend A s (pd, pagedirIndex addr) flags (decide (2 ≠ 0)) >>= _) = _
          rw [level 2 pd (pagedirIndex addr) (by decide) (by simp [hx]), hx]
          rfl

end ReduceOS.PageMap
