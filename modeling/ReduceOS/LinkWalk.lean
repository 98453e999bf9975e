import Mathlib.Data.List.Nodup

/-!
Walks along links as a device makes them. At each cell the device stops, goes on to another
cell, or is lost where a link leads to no cell. The cells that a walk visits are told from the
links of the cells one after the other, also after a cell was put at the end or taken out.
-/
namespace ReduceOS.LinkWalk

variable {α : Type*}

inductive Hop (α : Type*)
  | stop
  | to (a : α)
  | lost

/-- The cells visited from a cell on, if there are at most `n` of them. -/
def walk (hop : α → Hop α) : ℕ → α → Option (List α)
  | 0, _ => none
  | n + 1, a =>
    match hop a with
    | .stop => some [a]
    | .to b => (walk hop n b).map (a :: ·)
    | .lost => none

def Visits (hop : α → Hop α) : List α → Prop
  | [] => False
  | [a] => hop a = .stop
  | a :: b :: l => hop a = .to b ∧ Visits hop (b :: l)

variable {hop hop' : α → Hop α}

theorem Visits.walk {a : α} {l : List α} (h : Visits hop (a :: l)) {n : ℕ} (hn : l.length < n) :
    walk hop n a = some (a :: l) := by
  induction l generalizing a n with
  | nil =>
    obtain ⟨n, rfl⟩ := Nat.exists_eq_succ_of_ne_zero (Nat.ne_of_gt hn)
    have hstop : hop a = .stop := h
    simp [LinkWalk.walk, hstop]
  | cons b l ih =>
    obtain ⟨n, rfl⟩ := Nat.exists_eq_succ_of_ne_zero (Nat.ne_of_gt (Nat.zero_lt_of_lt hn))
    have hrest := ih h.2 (Nat.lt_of_succ_lt_succ hn)
    simp [LinkWalk.walk, h.1, hrest]

theorem Visits.congr {l : List α} (h : Visits hop l) (heq : ∀ a ∈ l, hop' a = hop a) :
    Visits hop' l := by
  induction l with
  | nil => exact h
  | cons a l ih =>
    have hfirst := heq a List.mem_cons_self
    cases l with
    | nil => exact hfirst.trans h
    | cons b l => exact ⟨hfirst.trans h.1, ih h.2 fun c hc => heq c (List.mem_cons_of_mem a hc)⟩

theorem Visits.suffix {l r : List α} {a : α} (h : Visits hop (l ++ a :: r)) :
    Visits hop (a :: r) := by
  induction l with
  | nil => exact h
  | cons c l ih =>
    cases l with
    | nil => exact ih h.2
    | cons d l => exact ih h.2

theorem Visits.replace {l r r' : List α} {a : α} (h : Visits hop (l ++ a :: r))
    (hnew : Visits hop' (a :: r')) (heq : ∀ c ∈ l, hop' c = hop c) :
    Visits hop' (l ++ a :: r') := by
  induction l with
  | nil => exact hnew
  | cons c l ih =>
    have hfirst := heq c List.mem_cons_self
    have hothers : ∀ d ∈ l, hop' d = hop d := fun d hd => heq d (List.mem_cons_of_mem c hd)
    cases l with
    | nil => exact ⟨hfirst.trans h.1, ih h.2 hothers⟩
    | cons d l => exact ⟨hfirst.trans h.1, ih h.2 hothers⟩

/-- A cell is put at the end when the last cell leads to it. -/
theorem Visits.concat {l : List α} {a b : α} (h : Visits hop (l ++ [a])) (hlast : hop' a = .to b)
    (hnew : hop' b = .stop) (heq : ∀ c ∈ l, hop' c = hop c) : Visits hop' (l ++ [a, b]) :=
  h.replace ⟨hlast, hnew⟩ heq

/-- The last cell is taken out when the walk stops before it. -/
theorem Visits.dropLast {l : List α} {a b : α} (h : Visits hop (l ++ [a, b]))
    (hlast : hop' a = .stop) (heq : ∀ c ∈ l, hop' c = hop c) : Visits hop' (l ++ [a]) :=
  h.replace hlast heq

/-- Any other cell is taken out when the cell before it leads to the one behind it. -/
theorem Visits.erase {l r : List α} {a b c : α} (h : Visits hop (l ++ a :: b :: c :: r))
    (hlink : hop' a = .to c) (hleft : ∀ d ∈ l, hop' d = hop d)
    (hright : ∀ d ∈ c :: r, hop' d = hop d) : Visits hop' (l ++ a :: c :: r) := by
  have hrest : Visits hop (c :: r) := h.suffix.2.2
  exact h.replace ⟨hlink, hrest.congr hright⟩ hleft

/-- The list around a member that is not its first one. -/
theorem split_tail [DecidableEq α] {l : List α} {n : α} (hnd : l.Nodup) (hmem : n ∈ l.tail) :
    ∃ xs prev ys, l = xs ++ prev :: n :: ys ∧ l.takeWhile (· ≠ n) = xs ++ [prev] ∧
      (l.dropWhile (· ≠ n)).tail = ys := by
  obtain ⟨as, ys, htail⟩ := List.append_of_mem hmem
  cases l with
  | nil => simp at hmem
  | cons a l =>
    simp only [List.tail_cons] at htail
    subst htail
    have hbefore : n ∉ a :: as := by
      intro hin
      rw [← List.cons_append] at hnd
      exact (List.nodup_append.mp hnd).2.2 n hin n List.mem_cons_self rfl
    obtain ⟨xs, prev, hsplit⟩ := (List.eq_nil_or_concat (a :: as)).resolve_left
      (List.cons_ne_nil a as)
    have hall : ∀ b ∈ a :: as, decide (b ≠ n) = true := by
      intro b hb
      have hne : b ≠ n := by
        rintro rfl
        exact hbefore hb
      simp [hne]
    refine ⟨xs, prev, ys, ?_, ?_, ?_⟩
    · rw [← List.cons_append, hsplit]
      simp
    · rw [← List.cons_append, List.takeWhile_append_of_pos hall, hsplit]
      simp
    · rw [← List.cons_append, List.dropWhile_append_of_pos hall]
      simp

end ReduceOS.LinkWalk
