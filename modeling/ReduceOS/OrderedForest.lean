import Mathlib.Data.List.Nodup
import Mathlib.Data.List.Count
import Mathlib.Data.List.Perm.Basic

/-!
Ordered trees with labels, as the rows of siblings that they are made of: each label has what is
below it and the siblings after it. A subtree may be put at the end of what is below some labels,
and labels may be taken out with all that is below them; of both it is said what labels there are
afterwards and what each has below it.
-/
namespace ReduceOS.OrderedForest

variable {α : Type}

inductive Forest (α : Type)
  | nil
  | cons (a : α) (below after : Forest α)

namespace Forest

def labels : Forest α → List α
  | nil => []
  | cons a below after => a :: (labels below ++ labels after)

def tops : Forest α → List α
  | nil => []
  | cons a _ after => a :: tops after

def entries : Forest α → List (α × Forest α)
  | nil => []
  | cons a below after => (a, below) :: (entries below ++ entries after)

def deep : Forest α → ℕ
  | nil => 0
  | cons _ below after => (labels below).length + deep after

def tree (a : α) (b : Forest α) : Forest α := cons a b nil

def snoc (f : Forest α) (a : α) (sub : Forest α) : Forest α :=
  match f with
  | nil => cons a sub nil
  | cons b below after => cons b below (snoc after a sub)

def attach (p : α → Bool) (a : α) (sub : Forest α) : Forest α → Forest α
  | nil => nil
  | cons b below after =>
    cons b (if p b then (attach p a sub below).snoc a sub else attach p a sub below)
      (attach p a sub after)

def erase (p : α → Bool) : Forest α → Forest α
  | nil => nil
  | cons b below after => if p b then erase p after else cons b (erase p below) (erase p after)

variable {f b sub : Forest α} {a x : α} {p : α → Bool} {e : α × Forest α}

theorem map_fst_entries (f : Forest α) : f.entries.map Prod.fst = f.labels := by
  induction f with
  | nil => rfl
  | cons a below after ihb iha => simp [entries, labels, ihb, iha]

theorem labels_tree (a : α) (b : Forest α) : (tree a b).labels = a :: b.labels := by
  rw [tree, labels, labels, List.append_nil]

theorem entries_tree (a : α) (b : Forest α) : (tree a b).entries = (a, b) :: b.entries := by
  rw [tree, entries, entries, List.append_nil]

theorem mem_labels_tree (a : α) (b : Forest α) : a ∈ (tree a b).labels := by
  rw [labels_tree]
  exact List.mem_cons_self

theorem mem_entries_tree (a : α) (b : Forest α) : (a, b) ∈ (tree a b).entries := by
  rw [entries_tree]
  exact List.mem_cons_self

theorem mem_labels_of_mem_entries (h : (a, b) ∈ f.entries) : a ∈ f.labels := by
  rw [← map_fst_entries]
  exact List.mem_map_of_mem h

theorem exists_entry (h : a ∈ f.labels) : ∃ b, (a, b) ∈ f.entries := by
  rw [← map_fst_entries] at h
  obtain ⟨e, he, rfl⟩ := List.mem_map.mp h
  exact ⟨e.2, he⟩

theorem entry_unique (h : f.labels.Nodup) {b' : Forest α} (hb : (a, b) ∈ f.entries)
    (hb' : (a, b') ∈ f.entries) : b = b' := by
  rw [← map_fst_entries] at h
  exact (Prod.mk.inj (List.inj_on_of_nodup_map h hb hb' rfl)).2

theorem tops_sublist_labels (f : Forest α) : f.tops.Sublist f.labels := by
  induction f with
  | nil => exact List.Sublist.refl []
  | cons a below after _ iha =>
    rw [tops, labels]
    exact (iha.trans (List.sublist_append_right _ _)).cons_cons a

theorem tops_subset_labels (f : Forest α) : f.tops ⊆ f.labels := f.tops_sublist_labels.subset

theorem length_labels (f : Forest α) : f.labels.length = f.tops.length + f.deep := by
  induction f with
  | nil => rfl
  | cons a below after _ iha =>
    rw [labels, tops, deep, List.length_cons, List.length_append, List.length_cons, iha]
    omega

theorem entries_subset (h : (a, b) ∈ f.entries) : b.entries ⊆ f.entries := by
  induction f with
  | nil => exact absurd h List.not_mem_nil
  | cons x below after ihb iha =>
    rw [entries, List.mem_cons, List.mem_append] at h
    intro e he
    rw [entries]
    refine List.mem_cons_of_mem _ (List.mem_append.mpr ?_)
    rcases h with h | h | h
    · obtain ⟨-, rfl⟩ := Prod.mk.inj h
      exact Or.inl he
    · exact Or.inl (ihb h he)
    · exact Or.inr (iha h he)

/-- A label and all below it come one after the other. -/
theorem sublist_labels (h : (a, b) ∈ f.entries) : (tree a b).labels.Sublist f.labels := by
  rw [labels_tree]
  induction f with
  | nil => exact absurd h List.not_mem_nil
  | cons x below after ihb iha =>
    rw [entries, List.mem_cons, List.mem_append] at h
    rw [labels]
    rcases h with h | h | h
    · obtain ⟨rfl, rfl⟩ := Prod.mk.inj h
      exact (List.sublist_append_left _ _).cons_cons a
    · exact ((ihb h).trans (List.sublist_append_left _ _)).cons x
    · exact ((iha h).trans (List.sublist_append_right _ _)).cons x

theorem below_sublist_labels (h : (a, b) ∈ f.entries) : b.labels.Sublist f.labels := by
  have htree := sublist_labels h
  rw [labels_tree] at htree
  exact (List.sublist_cons_self a b.labels).trans htree

theorem labels_subset (h : (a, b) ∈ f.entries) : b.labels ⊆ f.labels :=
  (below_sublist_labels h).subset

theorem entries_tree_subset (h : (a, b) ∈ f.entries) : (tree a b).entries ⊆ f.entries := by
  rw [entries_tree]
  exact List.cons_subset.mpr ⟨h, entries_subset h⟩

theorem tops_subset_below {x : α} {y : Forest α} (h : (x, y) ∈ (tree a b).entries) :
    y.tops ⊆ b.labels := by
  rw [entries_tree] at h
  rcases List.mem_cons.mp h with heq | hbelow
  · obtain ⟨rfl, rfl⟩ := Prod.mk.inj heq
    exact y.tops_subset_labels
  · exact List.Subset.trans y.tops_subset_labels (labels_subset hbelow)

/-- A label is in the first row or in the one below another label. -/
theorem mem_row (h : a ∈ f.labels) : a ∈ f.tops ∨ ∃ e ∈ f.entries, a ∈ e.2.tops := by
  induction f with
  | nil => exact absurd h List.not_mem_nil
  | cons x below after ihb iha =>
    rw [labels, List.mem_cons, List.mem_append] at h
    rw [tops, entries, List.mem_cons]
    rcases h with rfl | h | h
    · exact Or.inl (Or.inl rfl)
    · right
      rcases ihb h with htop | ⟨e, he, hae⟩
      · exact ⟨(x, below), List.mem_cons_self, htop⟩
      · exact ⟨e, List.mem_cons_of_mem _ (List.mem_append_left _ he), hae⟩
    · rcases iha h with htop | ⟨e, he, hae⟩
      · exact Or.inl (Or.inr htop)
      · exact Or.inr ⟨e, List.mem_cons_of_mem _ (List.mem_append_right _ he), hae⟩

section Attach

theorem tops_snoc (f : Forest α) (a : α) (sub : Forest α) :
    (f.snoc a sub).tops = f.tops ++ [a] := by
  induction f with
  | nil => rfl
  | cons x below after _ iha => rw [snoc, tops, iha, tops, List.cons_append]

theorem labels_snoc (f : Forest α) (a : α) (sub : Forest α) :
    (f.snoc a sub).labels = f.labels ++ a :: sub.labels := by
  induction f with
  | nil => simp [snoc, labels]
  | cons x below after _ iha => simp [snoc, labels, iha]

theorem entries_snoc (f : Forest α) (a : α) (sub : Forest α) :
    (f.snoc a sub).entries = f.entries ++ (a, sub) :: sub.entries := by
  induction f with
  | nil => simp [snoc, entries]
  | cons x below after _ iha => simp [snoc, entries, iha]

theorem tops_attach (p : α → Bool) (a : α) (sub f : Forest α) :
    (attach p a sub f).tops = f.tops := by
  induction f with
  | nil => rfl
  | cons x below after _ iha => rw [attach, tops, iha, tops]

def grown (p : α → Bool) (a : α) (sub : Forest α) (x : α) (b : Forest α) : Forest α :=
  if p x then (attach p a sub b).snoc a sub else attach p a sub b

theorem attach_tree (x : α) (b : Forest α) :
    attach p a sub (tree x b) = tree x (grown p a sub x b) := rfl

theorem tops_grown (x : α) (b : Forest α) :
    (grown p a sub x b).tops = b.tops ++ if p x then [a] else [] := by
  unfold grown
  split_ifs
  · rw [tops_snoc, tops_attach]
  · rw [tops_attach, List.append_nil]

theorem mem_entries_attach (h : e ∈ (attach p a sub f).entries) :
    e ∈ (tree a sub).entries ∨ ∃ x b, (x, b) ∈ f.entries ∧ e = (x, grown p a sub x b) := by
  induction f with
  | nil => exact absurd h List.not_mem_nil
  | cons x below after ihb iha =>
    have hbelow : e ∈ (attach p a sub below).entries →
        e ∈ (tree a sub).entries ∨
          ∃ y b, (y, b) ∈ (cons x below after).entries ∧ e = (y, grown p a sub y b) := fun he => by
      rcases ihb he with hnew | ⟨y, b, hy, rfl⟩
      · exact Or.inl hnew
      · exact Or.inr ⟨y, b, List.mem_cons_of_mem _ (List.mem_append_left _ hy), rfl⟩
    rw [attach, entries, List.mem_cons, List.mem_append] at h
    rcases h with rfl | h | h
    · exact Or.inr ⟨x, below, List.mem_cons_self, rfl⟩
    · split_ifs at h
      · rw [entries_snoc, List.mem_append, ← entries_tree] at h
        exact h.elim hbelow Or.inl
      · exact hbelow h
    · rcases iha h with hnew | ⟨y, b, hy, rfl⟩
      · exact Or.inl hnew
      · exact Or.inr ⟨y, b, List.mem_cons_of_mem _ (List.mem_append_right _ hy), rfl⟩

theorem count_attach [DecidableEq α] (x : α) :
    (attach p a sub f).labels.count x =
      f.labels.count x + f.labels.countP p * (tree a sub).labels.count x := by
  induction f with
  | nil => simp [attach, labels]
  | cons y below after ihb iha =>
    have hrow : (if p y then (attach p a sub below).snoc a sub
        else attach p a sub below).labels.count x = below.labels.count x +
          (below.labels.countP p + if p y then 1 else 0) * (tree a sub).labels.count x := by
      split_ifs
      · rw [labels_snoc, ← labels_tree, List.count_append, ihb, Nat.add_mul, Nat.one_mul,
          Nat.add_assoc]
      · rw [ihb, Nat.add_zero]
    rw [attach, labels, labels, List.count_cons, List.count_cons, List.count_append,
      List.count_append, List.countP_cons, List.countP_append, iha, hrow, Nat.add_mul, Nat.add_mul,
      Nat.add_mul]
    omega

/-- With one label chosen, the labels of the subtree join those of the forest. -/
theorem labels_attach [DecidableEq α] (h : f.labels.countP p = 1) :
    (attach p a sub f).labels.Perm (f.labels ++ (tree a sub).labels) := by
  rw [List.perm_iff_count]
  intro x
  rw [count_attach, h, Nat.one_mul, List.count_append]

end Attach

section Erase

theorem erase_eq_self (h : f.labels.countP p = 0) : erase p f = f := by
  induction f with
  | nil => rfl
  | cons x below after ihb iha =>
    rw [labels, List.countP_cons, List.countP_append] at h
    have hx : ¬ p x = true := fun hx => by simp [hx] at h
    rw [erase, if_neg hx, ihb (by omega), iha (by omega)]

theorem erase_tree (h : p a = false) (b : Forest α) : erase p (tree a b) = tree a (erase p b) := by
  rw [tree, erase, if_neg (Bool.eq_false_iff.mp h)]
  rfl

theorem tops_erase (p : α → Bool) (f : Forest α) : (erase p f).tops = f.tops.filter (!p ·) := by
  induction f with
  | nil => rfl
  | cons x below after _ iha =>
    rw [erase, tops, List.filter_cons]
    by_cases hx : p x = true
    · simp [hx, iha]
    · simp [hx, iha, tops]

theorem mem_entries_erase (h : e ∈ (erase p f).entries) :
    ∃ x b, (x, b) ∈ f.entries ∧ p x = false ∧ e = (x, erase p b) := by
  induction f with
  | nil => exact absurd h List.not_mem_nil
  | cons x below after ihb iha =>
    have hafter : e ∈ (erase p after).entries →
        ∃ y b, (y, b) ∈ (cons x below after).entries ∧ p y = false ∧ e = (y, erase p b) := by
      intro he
      obtain ⟨y, b, hy, hpy, rfl⟩ := iha he
      exact ⟨y, b, List.mem_cons_of_mem _ (List.mem_append_right _ hy), hpy, rfl⟩
    rw [erase] at h
    split_ifs at h with hx
    · exact hafter h
    · rw [entries, List.mem_cons, List.mem_append] at h
      rcases h with rfl | h | h
      · exact ⟨x, below, List.mem_cons_self, Bool.eq_false_iff.mpr hx, rfl⟩
      · obtain ⟨y, b, hy, hpy, rfl⟩ := ihb h
        exact ⟨y, b, List.mem_cons_of_mem _ (List.mem_append_left _ hy), hpy, rfl⟩
      · exact hafter h

/-- With one label chosen, it is gone, and so is what is below it. -/
theorem labels_erase (h : f.labels.countP p = 1) (hp : p a = true) (hab : (a, b) ∈ f.entries) :
    f.labels.Perm ((erase p f).labels ++ (tree a b).labels) := by
  rw [labels_tree]
  induction f with
  | nil => exact absurd hab List.not_mem_nil
  | cons x below after ihb iha =>
    have hpos : ∀ {g : Forest α}, (a, b) ∈ g.entries → 0 < g.labels.countP p := fun hg =>
      List.countP_pos_iff.mpr ⟨a, mem_labels_of_mem_entries hg, hp⟩
    rw [labels, List.countP_cons, List.countP_append] at h
    rw [entries, List.mem_cons, List.mem_append] at hab
    rw [erase, labels]
    rcases hab with hab | hab | hab
    · obtain ⟨rfl, rfl⟩ := Prod.mk.inj hab
      rw [if_pos hp] at h ⊢
      rw [erase_eq_self (by omega)]
      exact (List.perm_append_comm : (a :: b.labels ++ after.labels).Perm _)
    · have hbelow := hpos hab
      have hx : ¬ p x = true := fun hx => by rw [if_pos hx] at h; omega
      rw [if_neg hx] at h ⊢
      rw [labels, erase_eq_self (by omega : after.labels.countP p = 0)]
      have hmoved : ((erase p below).labels ++ a :: b.labels ++ after.labels).Perm
          ((erase p below).labels ++ after.labels ++ a :: b.labels) := by
        rw [List.append_assoc, List.append_assoc]
        exact List.perm_append_comm.append_left _
      exact (((ihb (by omega) hab).append_right _).trans hmoved).cons x
    · have hafter := hpos hab
      have hx : ¬ p x = true := fun hx => by rw [if_pos hx] at h; omega
      rw [if_neg hx] at h ⊢
      rw [labels, erase_eq_self (by omega : below.labels.countP p = 0), List.cons_append,
        List.append_assoc]
      exact ((iha (by omega) hab).append_left _).cons x

end Erase

end Forest

end ReduceOS.OrderedForest
