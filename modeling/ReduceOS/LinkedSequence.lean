import Mathlib.Data.List.Nodup
import Mathlib.Logic.Relation

/-!
Sequences kept by links in both directions. A sequence of cells is linked when following
one link from its first cell goes through all of it and ends in `null`, and following the
other link goes through it backwards. What a list of this kind needs is a cell put at the
end and a cell taken out from anywhere, given what the two links are afterwards.
-/
namespace ReduceOS.LinkedSequence

variable {α : Type} {null n : α} {next prev next' prev' : α → α} {l xs ys : List α}

def headOr (null : α) (l : List α) : α := l.head?.getD null

def lastOr (null : α) (l : List α) : α := headOr null l.reverse

@[simp]
theorem headOr_nil : headOr null [] = null := rfl

@[simp]
theorem headOr_cons (a : α) (l : List α) : headOr null (a :: l) = a := rfl

@[simp]
theorem lastOr_nil : lastOr null [] = null := rfl

@[simp]
theorem lastOr_concat (a : α) (l : List α) : lastOr null (l ++ [a]) = a := by
  simp [lastOr]

@[simp]
theorem lastOr_singleton (a : α) : lastOr null [a] = a := rfl

@[simp]
theorem lastOr_cons_cons (a b : α) (l : List α) :
    lastOr null (a :: b :: l) = lastOr null (b :: l) := by
  obtain ⟨l', c, hl⟩ := List.eq_nil_or_concat (b :: l) |>.resolve_left (List.cons_ne_nil b l)
  rw [List.concat_eq_append] at hl
  rw [hl, ← List.cons_append, lastOr_concat, lastOr_concat]

theorem lastOr_cons (a : α) (l : List α) : lastOr null (a :: l) = lastOr a l := by
  cases l with
  | nil => rfl
  | cons b l =>
    rw [lastOr_cons_cons]
    simp [lastOr, headOr]

theorem headOr_append (h : xs ≠ []) : headOr null (xs ++ ys) = headOr null xs := by
  cases xs with
  | nil => exact absurd rfl h
  | cons a xs => rfl

theorem lastOr_append (h : ys ≠ []) : lastOr null (xs ++ ys) = lastOr null ys := by
  unfold lastOr
  rw [List.reverse_append, headOr_append (by simpa using h)]

theorem headOr_concat_append (a : α) : headOr null (xs ++ [a] ++ ys) = headOr null (xs ++ [a]) :=
  headOr_append (List.append_ne_nil_of_right_ne_nil xs (List.cons_ne_nil a []))

theorem lastOr_append_cons (a : α) : lastOr null (xs ++ a :: ys) = lastOr null (a :: ys) :=
  lastOr_append (List.cons_ne_nil a ys)

theorem lastOr_reverse (l : List α) : lastOr null l.reverse = headOr null l := by
  simp [lastOr]

theorem headOr_mem (h : l ≠ []) : headOr null l ∈ l := by
  cases l with
  | nil => exact absurd rfl h
  | cons a l => simp

theorem lastOr_mem (h : l ≠ []) : lastOr null l ∈ l := by
  have hmem : headOr null l.reverse ∈ l.reverse := headOr_mem (List.reverse_ne_nil_iff.mpr h)
  exact List.mem_reverse.mp hmem

theorem headOr_eq_null_iff (h : null ∉ l) : headOr null l = null ↔ l = [] := by
  constructor
  · intro hnull
    by_contra hne
    exact h (hnull ▸ headOr_mem hne)
  · rintro rfl
    rfl

theorem lastOr_eq_null_iff (h : null ∉ l) : lastOr null l = null ↔ l = [] := by
  unfold lastOr
  rw [headOr_eq_null_iff (by simpa using h), List.reverse_eq_nil_iff]

/-- Each cell points to the next one, and the last one to `null`. -/
def Follows (null : α) (next : α → α) : List α → Prop
  | [] => True
  | a :: l => next a = headOr null l ∧ Follows null next l

theorem Follows.congr (h : Follows null next l) (heq : ∀ a ∈ l, next' a = next a) :
    Follows null next' l := by
  induction l with
  | nil => trivial
  | cons a l ih =>
    refine ⟨?_, ih h.2 fun b hb => heq b (List.mem_cons_of_mem a hb)⟩
    rw [heq a List.mem_cons_self, h.1]

theorem Follows.unique (h : Follows null next l) (h' : Follows null next ys) (hl : null ∉ l)
    (hys : null ∉ ys) (hhead : headOr null l = headOr null ys) : l = ys := by
  induction l generalizing ys with
  | nil => exact ((headOr_eq_null_iff hys).mp hhead.symm).symm
  | cons a l ih =>
    rw [List.mem_cons, not_or] at hl
    cases ys with
    | nil => exact absurd hhead.symm hl.1
    | cons b ys =>
      rw [List.mem_cons, not_or] at hys
      have hab : a = b := hhead
      subst hab
      rw [ih h.2 h'.2 hl.2 hys.2 (h.1.symm.trans h'.1)]

/-- The cells that its first one leads to are its own. -/
theorem Follows.mem_iff_reaches (h : Follows null next l) (hnull : null ∉ l) :
    n ∈ l ↔ n ≠ null ∧
      Relation.ReflTransGen (fun a b => a ≠ null ∧ next a = b) (headOr null l) n := by
  induction l with
  | nil =>
    rw [headOr_nil]
    refine ⟨fun hn => absurd hn List.not_mem_nil, fun ⟨hn, hreach⟩ => ?_⟩
    rcases hreach.cases_head with heq | ⟨b, hb, -⟩
    · exact absurd heq.symm hn
    · exact absurd rfl hb.1
  | cons a l ih =>
    rw [List.mem_cons, not_or] at hnull
    rw [headOr_cons]
    constructor
    · intro hn
      refine ⟨ne_of_mem_of_not_mem hn (by simpa using hnull), ?_⟩
      rcases List.mem_cons.mp hn with rfl | hn
      · exact Relation.ReflTransGen.refl
      · exact Relation.ReflTransGen.head ⟨Ne.symm hnull.1, h.1⟩ ((ih h.2 hnull.2).mp hn).2
    · rintro ⟨hn, hreach⟩
      rcases hreach.cases_head with rfl | ⟨b, hb, hreach⟩
      · exact List.mem_cons_self
      · rw [← hb.2, h.1] at hreach
        exact List.mem_cons_of_mem a ((ih h.2 hnull.2).mpr ⟨hn, hreach⟩)

theorem Follows.at_split (h : Follows null next (xs ++ n :: ys)) : next n = headOr null ys := by
  induction xs with
  | nil => exact h.1
  | cons x xs ih => exact ih h.2

/-- The link of the cell before it is the only one that a cell put in changes. -/
theorem Follows.insert [DecidableEq α] (h : Follows null next (xs ++ ys)) (hnd : (xs ++ ys).Nodup)
    (hnull : null ∉ xs ++ ys) (hn : next' n = headOr null ys)
    (heq : ∀ a ∈ xs ++ ys, next' a = if a = lastOr null xs then n else next a) :
    Follows null next' (xs ++ n :: ys) := by
  induction xs with
  | nil =>
    refine ⟨hn, h.congr fun a ha => ?_⟩
    have hne : a ≠ null := ne_of_mem_of_not_mem ha hnull
    rw [heq a ha, lastOr_nil, if_neg hne]
  | cons x xs ih =>
    rw [List.cons_append, List.nodup_cons] at hnd
    rw [List.cons_append, List.mem_cons, not_or] at hnull
    have hx := heq x List.mem_cons_self
    cases xs with
    | nil =>
      rw [lastOr_singleton, if_pos rfl] at hx
      refine ⟨hx, hn, h.2.congr fun a ha => ?_⟩
      have hne : a ≠ x := ne_of_mem_of_not_mem ha hnd.1
      rw [heq a (List.mem_cons_of_mem x ha), lastOr_singleton, if_neg hne]
    | cons y xs =>
      have hne : x ≠ lastOr null (x :: y :: xs) := by
        rw [lastOr_cons_cons]
        intro hlast
        exact hnd.1 (List.mem_append_left _ (hlast ▸ lastOr_mem (List.cons_ne_nil y xs)))
      refine ⟨?_, ih h.2 hnd.2 hnull.2 fun a ha => ?_⟩
      · rw [hx, if_neg hne, h.1]
        rfl
      · rw [heq a (List.mem_cons_of_mem x ha), lastOr_cons_cons]

theorem Follows.concat [DecidableEq α] (h : Follows null next l) (hnd : l.Nodup) (hnull : null ∉ l)
    (hn : next' n = null) (heq : ∀ a ∈ l, next' a = if a = lastOr null l then n else next a) :
    Follows null next' (l ++ [n]) := by
  have hl : l ++ [] = l := List.append_nil l
  exact Follows.insert (by rwa [hl]) (by rwa [hl]) (by rwa [hl]) hn (by rwa [hl])

/-- The link of the cell before it is the only one that a cell taken out changes. -/
theorem Follows.erase [DecidableEq α] (h : Follows null next (xs ++ n :: ys))
    (hnd : (xs ++ n :: ys).Nodup) (hnull : null ∉ xs ++ n :: ys)
    (heq : ∀ a ∈ xs ++ ys, next' a = if a = lastOr null xs then headOr null ys else next a) :
    Follows null next' (xs ++ ys) := by
  induction xs with
  | nil =>
    refine h.2.congr fun a ha => ?_
    have hne : a ≠ null := by
      rintro rfl
      exact hnull (List.mem_cons_of_mem n ha)
    rw [heq a ha, lastOr_nil, if_neg hne]
  | cons x xs ih =>
    rw [List.cons_append, List.nodup_cons] at hnd
    rw [List.cons_append, List.mem_cons, not_or] at hnull
    have hx := heq x List.mem_cons_self
    cases xs with
    | nil =>
      rw [lastOr_singleton, if_pos rfl] at hx
      refine ⟨hx, h.2.2.congr fun a ha => ?_⟩
      have hne : a ≠ x := by
        rintro rfl
        exact hnd.1 (List.mem_cons_of_mem n ha)
      rw [heq a (List.mem_cons_of_mem x ha), lastOr_singleton, if_neg hne]
    | cons y xs =>
      have hne : x ≠ lastOr null (x :: y :: xs) := by
        rw [lastOr_cons_cons]
        intro hlast
        exact hnd.1 (List.mem_append_left _ (hlast ▸ lastOr_mem (List.cons_ne_nil y xs)))
      refine ⟨?_, ih h.2 hnd.2 hnull.2 fun a ha => ?_⟩
      · rw [hx, if_neg hne, h.1]
        rfl
      · rw [heq a (List.mem_cons_of_mem x ha), lastOr_cons_cons]

structure Linked (null : α) (next prev : α → α) (l : List α) : Prop where
  nodup : l.Nodup
  nonnull : null ∉ l
  forward : Follows null next l
  backward : Follows null prev l.reverse

section Linked

theorem Linked.nil : Linked null next prev [] :=
  ⟨List.nodup_nil, List.not_mem_nil, trivial, trivial⟩

theorem Linked.congr (h : Linked null next prev l)
    (heq : ∀ a ∈ l, next' a = next a ∧ prev' a = prev a) : Linked null next' prev' l where
  nodup := h.nodup
  nonnull := h.nonnull
  forward := h.forward.congr fun a ha => (heq a ha).1
  backward := h.backward.congr fun a ha => (heq a (List.mem_reverse.mp ha)).2

theorem Linked.next_at (h : Linked null next prev (xs ++ n :: ys)) : next n = headOr null ys :=
  h.forward.at_split

theorem Linked.prev_at (h : Linked null next prev (xs ++ n :: ys)) : prev n = lastOr null xs := by
  have hback := h.backward
  rw [List.reverse_append, List.reverse_cons, List.append_assoc, List.singleton_append] at hback
  exact hback.at_split

theorem Linked.insert [DecidableEq α] (h : Linked null next prev (xs ++ ys)) (hn : n ∉ xs ++ ys)
    (hnull : n ≠ null) (hnextn : next' n = headOr null ys) (hprevn : prev' n = lastOr null xs)
    (hnext : ∀ a ∈ xs ++ ys, next' a = if a = lastOr null xs then n else next a)
    (hprev : ∀ a ∈ xs ++ ys, prev' a = if a = headOr null ys then n else prev a) :
    Linked null next' prev' (xs ++ n :: ys) where
  nodup := List.nodup_middle.mpr (List.nodup_cons.mpr ⟨hn, h.nodup⟩)
  nonnull := by
    rw [List.perm_middle.mem_iff, List.mem_cons, not_or]
    exact ⟨hnull.symm, h.nonnull⟩
  forward := h.forward.insert h.nodup h.nonnull hnextn hnext
  backward := by
    have hback := h.backward
    have hnd := List.nodup_reverse.mpr h.nodup
    have hnonnull := mt List.mem_reverse.mp h.nonnull
    rw [List.reverse_append] at hback hnd hnonnull
    have hrev : (xs ++ n :: ys).reverse = ys.reverse ++ n :: xs.reverse := by simp
    rw [hrev]
    refine hback.insert hnd hnonnull hprevn fun a ha => ?_
    rw [lastOr_reverse]
    exact hprev a (by simpa [or_comm] using ha)

theorem Linked.erase [DecidableEq α] (h : Linked null next prev (xs ++ n :: ys))
    (hnext : ∀ a ∈ xs ++ ys, next' a = if a = lastOr null xs then headOr null ys else next a)
    (hprev : ∀ a ∈ xs ++ ys, prev' a = if a = headOr null ys then lastOr null xs else prev a) :
    Linked null next' prev' (xs ++ ys) where
  nodup := h.nodup.sublist (List.sublist_append_right [n] ys |>.append_left xs)
  nonnull hmem := h.nonnull ((List.sublist_append_right [n] ys |>.append_left xs).subset hmem)
  forward := h.forward.erase h.nodup h.nonnull hnext
  backward := by
    have hrev : (xs ++ n :: ys).reverse = ys.reverse ++ n :: xs.reverse := by simp
    have hback := h.backward
    have hnd := List.nodup_reverse.mpr h.nodup
    have hnonnull := mt List.mem_reverse.mp h.nonnull
    rw [hrev] at hback hnd hnonnull
    rw [List.reverse_append]
    refine hback.erase hnd hnonnull fun a ha => ?_
    rw [lastOr_reverse, hprev a (by simpa [or_comm] using ha)]
    rfl

theorem Linked.prev_next (h : Linked null next prev l) (hn : n ∈ l) (hnext : next n ≠ null) :
    prev (next n) = n := by
  obtain ⟨xs, ys, rfl⟩ := List.append_of_mem hn
  have hhead := h.next_at
  cases ys with
  | nil => exact absurd hhead hnext
  | cons b ys =>
    rw [headOr_cons] at hhead
    have hsplit : xs ++ n :: b :: ys = (xs ++ [n]) ++ b :: ys := by simp
    rw [hsplit] at h
    rw [hhead, h.prev_at, lastOr_concat]

theorem Linked.prev_head (h : Linked null next prev l) (hne : l ≠ []) :
    prev (headOr null l) = null := by
  cases l with
  | nil => exact absurd rfl hne
  | cons a l =>
    have hsplit : Linked null next prev ([] ++ a :: l) := h
    exact hsplit.prev_at

theorem Linked.next_last (h : Linked null next prev l) (hne : l ≠ []) :
    next (lastOr null l) = null := by
  obtain ⟨xs, a, rfl⟩ := List.eq_nil_or_concat l |>.resolve_left hne
  rw [List.concat_eq_append] at h ⊢
  rw [lastOr_concat]
  exact h.next_at

end Linked

end ReduceOS.LinkedSequence
