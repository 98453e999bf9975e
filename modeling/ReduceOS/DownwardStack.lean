import Mathlib.Data.List.Pairwise
import Mathlib.Data.BitVec
import Mathlib.Tactic.Ring

/-!
Stacks that grow towards lower addresses. Memory is a function from words to cells. What is
pushed lies in adjacent cells below what was pushed before, and as long as all of it
together does not go round the address space, a push changes nothing above it.
-/
namespace ReduceOS.DownwardStack

variable {w : ℕ} {β : Type}

def Holds (mem : BitVec w → β) : BitVec w → List β → Prop
  | _, [] => True
  | a, b :: l => mem a = b ∧ Holds mem (a + 1) l

def store (mem : BitVec w → β) (a : BitVec w) (l : List β) : BitVec w → β :=
  fun b => (l[(b - a).toNat]?).getD (mem b)

structure Stack (w : ℕ) (β : Type) where
  mem : BitVec w → β
  sp : BitVec w

def Stack.push (t : Stack w β) (l : List β) : Stack w β where
  mem := store t.mem (t.sp - BitVec.ofNat w l.length) l
  sp := t.sp - BitVec.ofNat w l.length

/-- Objects with their addresses lie one behind the other, from `a` up to `top`. -/
def Stacked (mem : BitVec w → β) (top : BitVec w) : BitVec w → List (BitVec w × List β) → Prop
  | a, [] => a = top
  | a, (o, l) :: objects =>
    o = a ∧ Holds mem a l ∧ Stacked mem top (a + BitVec.ofNat w l.length) objects

def size (objects : List (BitVec w × List β)) : ℕ := (objects.map fun o => o.2.length).sum

/-- The stack holds the objects below `top`, and the rest of memory is as it was. -/
structure Pushed (mem : BitVec w → β) (top : BitVec w) (t : Stack w β)
    (objects : List (BitVec w × List β)) : Prop where
  stacked : Stacked t.mem top t.sp objects
  kept : ∀ b, size objects ≤ (b - t.sp).toNat → t.mem b = mem b

section Holds

variable {mem mem' : BitVec w → β} {a : BitVec w} {l l' : List β}

theorem add_succ (a : BitVec w) (k : ℕ) :
    a + BitVec.ofNat w (k + 1) = a + 1 + BitVec.ofNat w k := by
  rw [Nat.add_comm, BitVec.ofNat_add, BitVec.add_assoc]
  rfl

theorem holds_append : Holds mem a (l ++ l') ↔
    Holds mem a l ∧ Holds mem (a + BitVec.ofNat w l.length) l' := by
  induction l generalizing a with
  | nil => simp [Holds]
  | cons b l ih =>
    rw [List.cons_append, Holds, Holds, ih, List.length_cons, add_succ, and_assoc]

theorem Holds.get {b : β} {i : ℕ} (h : Holds mem a l) (hi : l[i]? = some b) :
    mem (a + BitVec.ofNat w i) = b := by
  induction l generalizing a i with
  | nil => simp at hi
  | cons c l ih =>
    cases i with
    | zero =>
      rw [List.getElem?_cons_zero] at hi
      obtain rfl := Option.some.inj hi
      simpa using h.1
    | succ i =>
      rw [List.getElem?_cons_succ] at hi
      rw [add_succ]
      exact ih h.2 hi

theorem holds_of_get (h : ∀ i b, l[i]? = some b → mem (a + BitVec.ofNat w i) = b) :
    Holds mem a l := by
  induction l generalizing a with
  | nil => trivial
  | cons b l ih =>
    refine ⟨by simpa using h 0 b rfl, ih fun i c hi => ?_⟩
    rw [← add_succ]
    exact h (i + 1) c hi

theorem Holds.congr (h : Holds mem a l)
    (heq : ∀ k < l.length, mem' (a + BitVec.ofNat w k) = mem (a + BitVec.ofNat w k)) :
    Holds mem' a l := by
  apply holds_of_get
  intro i b hi
  have hlt : i < l.length := by
    by_contra hge
    rw [List.getElem?_eq_none (by omega)] at hi
    contradiction
  rw [heq i hlt, h.get hi]

/-- In a list of pieces of one length each piece is found by its number. -/
theorem Holds.piece {α : Type} {f : α → List β} {n : ℕ} (hf : ∀ x, (f x).length = n)
    {xs : List α} {rest : List β} (h : Holds mem a (xs.flatMap f ++ rest)) {i : ℕ} {x : α}
    (hi : xs[i]? = some x) : Holds mem (a + BitVec.ofNat w (n * i)) (f x) := by
  induction xs generalizing a i with
  | nil => simp at hi
  | cons y xs ih =>
    rw [List.flatMap_cons, List.append_assoc, holds_append, hf] at h
    cases i with
    | zero =>
      rw [List.getElem?_cons_zero] at hi
      obtain rfl := Option.some.inj hi
      simpa using h.1
    | succ i =>
      rw [List.getElem?_cons_succ] at hi
      have := ih h.2 hi
      rwa [BitVec.add_assoc, ← BitVec.ofNat_add, Nat.add_comm, ← Nat.mul_succ] at this

theorem sub_toNat {n k : ℕ} (h : n + k < 2 ^ w) :
    (a + BitVec.ofNat w k - (a - BitVec.ofNat w n)).toNat = n + k := by
  have heq : a + BitVec.ofNat w k - (a - BitVec.ofNat w n) = BitVec.ofNat w (n + k) := by
    rw [BitVec.ofNat_add]
    ring
  rw [heq, BitVec.toNat_ofNat, Nat.mod_eq_of_lt h]

/-- Storing a list below `a` puts it there and leaves what is above. -/
theorem holds_store (l : List β) (hl : l.length ≤ 2 ^ w) : Holds (store mem a l) a l := by
  apply holds_of_get
  intro i b hi
  have hlt : i < l.length := (List.getElem?_eq_some_iff.mp hi).1
  have hoffset : (a + BitVec.ofNat w i - a).toNat = i := by
    have heq : a + BitVec.ofNat w i - a = BitVec.ofNat w i := by ring
    rw [heq, BitVec.toNat_ofNat, Nat.mod_eq_of_lt (by omega)]
  rw [store, hoffset, hi, Option.getD_some]

theorem store_above {k : ℕ} (h : l.length + k < 2 ^ w) :
    store mem (a - BitVec.ofNat w l.length) l (a + BitVec.ofNat w k) =
      mem (a + BitVec.ofNat w k) := by
  rw [store, sub_toNat h, List.getElem?_eq_none (by omega), Option.getD_none]

end Holds

section Stacked

variable {mem : BitVec w → β} {top a : BitVec w} {objects : List (BitVec w × List β)}
  {l l' : List β}

theorem size_cons (o : BitVec w × List β) (objects : List (BitVec w × List β)) :
    size (o :: objects) = o.2.length + size objects := by
  simp [size]

theorem size_append (objects others : List (BitVec w × List β)) :
    size (objects ++ others) = size objects + size others := by
  simp [size]

theorem Stacked.congr {mem' : BitVec w → β} (h : Stacked mem top a objects)
    (heq : ∀ k < size objects, mem' (a + BitVec.ofNat w k) = mem (a + BitVec.ofNat w k)) :
    Stacked mem' top a objects := by
  induction objects generalizing a with
  | nil => exact h
  | cons o objects ih =>
    obtain ⟨ho, hl, hrest⟩ := h
    rw [size_cons] at heq
    refine ⟨ho, hl.congr fun k hk => heq k (by omega), ih hrest fun k hk => ?_⟩
    rw [BitVec.add_assoc, ← BitVec.ofNat_add]
    exact heq _ (by omega)

section Pushed

variable {t : Stack w β}

theorem pushed_nil : Pushed t.mem t.sp t [] := ⟨rfl, fun _ _ => rfl⟩

theorem Pushed.empty (h : Pushed mem top t objects) : Pushed mem top t ((t.sp, []) :: objects) := by
  refine ⟨⟨rfl, trivial, ?_⟩, fun b hb => h.kept b (by simpa [size] using hb)⟩
  simpa using h.stacked

theorem Pushed.merge {o p : BitVec w} (h : Pushed mem top t ((o, l) :: (p, l') :: objects)) :
    Pushed mem top t ((o, l ++ l') :: objects) := by
  obtain ⟨⟨rfl, hl, -, hl', hrest⟩, hkept⟩ := h
  refine ⟨⟨rfl, holds_append.mpr ⟨hl, hl'⟩, ?_⟩, fun b hb => hkept b ?_⟩
  · rwa [List.length_append, BitVec.ofNat_add, ← BitVec.add_assoc]
  · simpa [size, Nat.add_assoc] using hb

theorem Pushed.push (h : Pushed mem top t objects) (hfits : l.length + size objects ≤ 2 ^ w) :
    Pushed mem top (t.push l) (((t.push l).sp, l) :: objects) := by
  have hback : (t.push l).sp + BitVec.ofNat w l.length = t.sp := BitVec.sub_add_cancel _ _
  refine ⟨⟨rfl, holds_store l (by omega), ?_⟩, fun b hb => ?_⟩
  · rw [hback]
    exact h.stacked.congr fun k hk => store_above (by omega)
  · replace hb : l.length + size objects ≤ (b - (t.push l).sp).toNat := by
      rwa [size_cons] at hb
    have hstore : (t.push l).mem b = t.mem b := by
      change ((l[(b - (t.push l).sp).toNat]?).getD (t.mem b)) = _
      rw [List.getElem?_eq_none (by omega), Option.getD_none]
    rw [hstore]
    apply h.kept
    have hlen : (BitVec.ofNat w l.length).toNat = l.length := by
      rw [BitVec.toNat_ofNat, Nat.mod_eq_of_lt]
      have := (b - (t.push l).sp).isLt
      omega
    have hsub : b - t.sp = b - (t.push l).sp - BitVec.ofNat w l.length := by
      rw [← hback]
      ring
    rw [hsub, BitVec.toNat_sub_of_le (by rw [BitVec.le_def, hlen]; omega), hlen]
    omega

end Pushed

theorem Stacked.holds (h : Stacked mem top a objects) {o : BitVec w × List β} (ho : o ∈ objects) :
    Holds mem o.1 o.2 := by
  induction objects generalizing a with
  | nil => exact absurd ho List.not_mem_nil
  | cons p objects ih =>
    obtain ⟨hp, hl, hrest⟩ := h
    rcases List.mem_cons.mp ho with rfl | ho
    · rwa [hp]
    · exact ih hrest ho

/-- Where the objects are, if they do not go round the address space. -/
theorem Stacked.bounds (h : Stacked mem top a objects) (hfits : size objects ≤ top.toNat) :
    a.toNat + size objects = top.toNat ∧
      ∀ o ∈ objects, a.toNat ≤ o.1.toNat ∧ o.1.toNat + o.2.length ≤ top.toNat := by
  induction objects generalizing a with
  | nil =>
    obtain rfl : a = top := h
    exact ⟨rfl, fun o ho => absurd ho List.not_mem_nil⟩
  | cons o objects ih =>
    obtain ⟨ho, -, hrest⟩ := h
    rw [size_cons] at hfits ⊢
    obtain ⟨htop, hall⟩ := ih hrest (by omega)
    have hlen : (BitVec.ofNat w o.2.length).toNat = o.2.length := by
      rw [BitVec.toNat_ofNat, Nat.mod_eq_of_lt (by have := top.isLt; omega)]
    have hback : a = a + BitVec.ofNat w o.2.length - BitVec.ofNat w o.2.length := by ring
    have hnext : a.toNat = (a + BitVec.ofNat w o.2.length).toNat - o.2.length := by
      conv_lhs => rw [hback]
      rw [BitVec.toNat_sub_of_le (by rw [BitVec.le_def, hlen]; omega), hlen]
    refine ⟨by omega, fun p hp => ?_⟩
    rcases List.mem_cons.mp hp with rfl | hp
    · rw [ho]
      omega
    · have := hall p hp
      omega

theorem Stacked.apart (h : Stacked mem top a objects) (hfits : size objects ≤ top.toNat) :
    objects.Pairwise fun o p => o.1.toNat + o.2.length ≤ p.1.toNat := by
  induction objects generalizing a with
  | nil => exact List.Pairwise.nil
  | cons o objects ih =>
    have hbounds := h.bounds hfits
    obtain ⟨ho, -, hrest⟩ := h
    rw [size_cons] at hfits hbounds
    have hrest' := hrest.bounds (by omega)
    refine List.pairwise_cons.mpr ⟨fun p hp => ?_, ih hrest (by omega)⟩
    have := hrest'.2 p hp
    rw [ho]
    omega

end Stacked

end ReduceOS.DownwardStack
