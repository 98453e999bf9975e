import Mathlib.Data.List.Infix
import Mathlib.Data.List.Induction

/-!
Trees whose nodes are found by keys: each node has at most one child for a key. A node is
reached from the root along a list of keys; a new leaf is reached along one more list and
changes nothing else. Going down a list as far as possible ends at its longest prefix that
leads somewhere.
-/
namespace ReduceOS.Trie

variable {N K : Type}

def walk (child : N → K → Option N) : N → List K → Option N
  | n, [] => some n
  | n, k :: path => (child n k).bind fun m => walk child m path

def descend (child : N → K → Option N) : N → List K → List K × N
  | n, [] => ([], n)
  | n, k :: path =>
    match child n k with
    | none => ([], n)
    | some m => (k :: (descend child m path).1, (descend child m path).2)

def Distinct (child : N → K → Option N) (root : N) : Prop :=
  ∀ p q n, walk child root p = some n → walk child root q = some n → p = q

section Walk

variable {child : N → K → Option N} {root n m : N} {p q : List K} {k : K}

theorem walk_append (n : N) (p q : List K) :
    walk child n (p ++ q) = (walk child n p).bind fun m => walk child m q := by
  induction p generalizing n with
  | nil => rfl
  | cons k p ih =>
    simp only [List.cons_append, walk]
    cases child n k with
    | none => rfl
    | some m => exact ih m

theorem walk_concat (n : N) (p : List K) (k : K) :
    walk child n (p ++ [k]) = (walk child n p).bind fun m => child m k := by
  rw [walk_append]
  refine congrArg _ (funext fun m => ?_)
  simp only [walk]
  cases child m k <;> rfl

/-- What is on the way to a node can be reached as well. -/
theorem exists_walk_of_prefix (hpq : p <+: q) (hq : walk child root q = some n) :
    ∃ m, walk child root p = some m := by
  obtain ⟨rest, rfl⟩ := hpq
  rw [walk_append, Option.bind_eq_some_iff] at hq
  obtain ⟨m, hm, -⟩ := hq
  exact ⟨m, hm⟩

theorem descend_prefix (n : N) (path : List K) : (descend child n path).1 <+: path := by
  induction path generalizing n with
  | nil => exact List.nil_prefix
  | cons k path ih =>
    rw [descend]
    cases child n k with
    | none => exact List.nil_prefix
    | some m => exact List.prefix_cons_inj k |>.mpr (ih m)

theorem walk_descend (n : N) (path : List K) :
    walk child n (descend child n path).1 = some (descend child n path).2 := by
  induction path generalizing n with
  | nil => rfl
  | cons k path ih =>
    rw [descend]
    cases hchild : child n k with
    | none => rfl
    | some m =>
      simp only [walk, hchild, Option.bind_some]
      exact ih m

theorem prefix_descend {path : List K} (hq : q <+: path) (hn : walk child root q = some n) :
    q <+: (descend child root path).1 := by
  induction path generalizing root q with
  | nil => rwa [List.prefix_nil.mp hq] at *
  | cons k path ih =>
    cases q with
    | nil => exact List.nil_prefix
    | cons k' q =>
      obtain ⟨rfl, hrest⟩ := List.cons_prefix_cons.mp hq
      rw [walk, Option.bind_eq_some_iff] at hn
      obtain ⟨m, hm, hn⟩ := hn
      simp only [descend, hm]
      exact List.cons_prefix_cons.mpr ⟨rfl, ih hrest hn⟩

end Walk

section Growth

variable {child child' : N → K → Option N} {root m n : N} {p q : List K} {k : K}

/-- A new leaf `n` is the child of `m` for the key `k`. -/
structure Grown (child child' : N → K → Option N) (root m : N) (k : K) (n : N) : Prop where
  free : child m k = none
  new : child' m k = some n
  leaf : ∀ j, child' n j = none
  other : ∀ q l j, walk child root q = some l → (l ≠ m ∨ j ≠ k) → child' l j = child l j

theorem Grown.walk_eq [DecidableEq K] (h : Grown child child' root m k n) (hd : Distinct child root)
    (hm : walk child root p = some m) (q : List K) :
    walk child' root q = if q = p ++ [k] then some n else walk child root q := by
  induction q using List.reverseRecOn with
  | nil => simp [walk]
  | append_singleton q j ih =>
    rw [walk_concat, ih, walk_concat]
    by_cases hq : q = p ++ [k]
    · -- below the new leaf there is nothing, and was nothing
      have hne : q ++ [j] ≠ p ++ [k] := by
        intro heq
        have hlen := congrArg List.length heq
        simp [hq] at hlen
      rw [if_pos hq, if_neg hne, hq, walk_concat, hm, Option.bind_some, Option.bind_some, h.free,
        Option.bind_none]
      exact h.leaf j
    · rw [if_neg hq]
      cases hl : walk child root q with
      | none =>
        have hqp : q ≠ p := by
          rintro rfl
          rw [hm] at hl
          cases hl
        have hne : q ++ [j] ≠ p ++ [k] := fun heq => hqp (List.append_inj_left' heq rfl)
        rw [if_neg hne, Option.bind_none, Option.bind_none]
      | some l =>
        rw [Option.bind_some, Option.bind_some]
        split_ifs with heq
        · obtain ⟨rfl, hkey⟩ := List.append_inj' heq rfl
          obtain rfl := List.singleton_inj.mp hkey
          rw [hm] at hl
          obtain rfl := Option.some.inj hl
          exact h.new
        · refine h.other q l j hl (or_iff_not_imp_left.mpr fun hlm hjk => heq ?_)
          rw [hd q p m (not_ne_iff.mp hlm ▸ hl) hm, hjk]

theorem Grown.distinct [DecidableEq K] (h : Grown child child' root m k n)
    (hd : Distinct child root)
    (hm : walk child root p = some m) (hn : ∀ q, walk child root q ≠ some n) :
    Distinct child' root := by
  intro q r l hq hr
  rw [h.walk_eq hd hm] at hq hr
  split_ifs at hq hr with h₁ h₂ h₂
  · exact h₁.trans h₂.symm
  · exact absurd (hq ▸ hr) (hn r)
  · exact absurd (hr ▸ hq) (hn q)
  · exact hd q r l hq hr

end Growth

end ReduceOS.Trie
