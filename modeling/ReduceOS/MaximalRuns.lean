import Mathlib.Data.List.Basic
import Mathlib.Data.List.TakeWhile
import Mathlib.Tactic.SplitIfs

/-!
The maximal runs of a list between separators: what stands between two of them, or one of them
and an end of the list, and is not empty. A list has just one list of its runs with the places
that they begin at, which is found by going through it once.
-/
namespace ReduceOS.MaximalRuns

section Definitions

variable {α : Type}

def IsRun (p : α → Prop) (l : List α) (i : ℕ) (word : List α) : Prop :=
  ∃ before after, l = before ++ word ++ after ∧ before.length = i ∧ word ≠ [] ∧
    (∀ c ∈ word, ¬ p c) ∧ (∀ c ∈ before.getLast?, p c) ∧ ∀ c ∈ after.head?, p c

def Lists (p : α → Prop) (l : List α) (runs : List (ℕ × List α)) : Prop :=
  runs.Pairwise (fun r r' => r.1 < r'.1) ∧ ∀ i word, (i, word) ∈ runs ↔ IsRun p l i word

inductive Runs (p : α → Prop) : ℕ → List α → List (ℕ × List α) → Prop
  | nil {i : ℕ} : Runs p i [] []
  | separator {i : ℕ} {c : α} {l : List α} {runs : List (ℕ × List α)} (hc : p c)
      (h : Runs p (i + 1) l runs) : Runs p i (c :: l) runs
  | word {i : ℕ} {word l : List α} {runs : List (ℕ × List α)} (hne : word ≠ [])
      (hword : ∀ c ∈ word, ¬ p c) (hl : ∀ c ∈ l.head?, p c)
      (h : Runs p (i + word.length) l runs) : Runs p i (word ++ l) ((i, word) :: runs)

end Definitions

section Results

variable {α : Type} {p : α → Prop} {l word word' before after : List α} {c : α} {i j : ℕ}
  {runs : List (ℕ × List α)}

theorem exists_runs (p : α → Prop) (i : ℕ) (l : List α) : ∃ runs, Runs p i l runs := by
  classical
  induction hlength : l.length using Nat.strongRecOn generalizing l i with
  | _ length ih =>
    subst hlength
    cases l with
    | nil => exact ⟨[], .nil⟩
    | cons c l =>
      by_cases hc : p c
      · obtain ⟨runs, h⟩ := ih l.length (by simp) (i + 1) l rfl
        exact ⟨runs, .separator hc h⟩
      · -- the run that begins here, and the rest
        have hsplit := List.takeWhile_append_dropWhile (p := fun d => decide (¬ p d)) (l := c :: l)
        have hcons : (c :: l).takeWhile (fun d => decide (¬ p d)) =
            c :: l.takeWhile fun d => decide (¬ p d) :=
          List.takeWhile_cons_of_pos (by simpa using hc)
        have hword : ∀ d ∈ (c :: l).takeWhile (fun d => decide (¬ p d)), ¬ p d := by
          intro d hd
          simpa using List.mem_takeWhile_imp hd
        have hrest : ∀ d ∈ ((c :: l).dropWhile fun d => decide (¬ p d)).head?, p d := by
          intro d hd
          by_contra hpd
          have hhead := List.head?_dropWhile_not (fun d => decide (¬ p d)) (c :: l)
          rw [Option.mem_def.mp hd] at hhead
          simp [hpd] at hhead
        have hlt : ((c :: l).dropWhile fun d => decide (¬ p d)).length < (c :: l).length := by
          have hlength := congrArg List.length hsplit
          rw [List.length_append, hcons, List.length_cons] at hlength
          omega
        obtain ⟨runs, h⟩ := ih _ hlt (i + ((c :: l).takeWhile fun d => decide (¬ p d)).length) _ rfl
        refine ⟨_, hsplit ▸ Runs.word ?_ hword hrest h⟩
        rw [hcons]
        exact List.cons_ne_nil _ _

theorem isRun_cons (hc : p c) : IsRun p (c :: l) i word ↔ ∃ j, i = j + 1 ∧ IsRun p l j word := by
  constructor
  · rintro ⟨before, after, heq, rfl, hne, hword, hbefore, hafter⟩
    cases before with
    | nil =>
      obtain ⟨d, word, rfl⟩ := List.exists_cons_of_ne_nil hne
      obtain ⟨rfl, -⟩ := List.cons.inj heq
      exact absurd hc (hword c List.mem_cons_self)
    | cons d before =>
      rw [List.cons_append, List.cons_append] at heq
      obtain ⟨rfl, hrest⟩ := List.cons.inj heq
      refine ⟨before.length, by simp, before, after, hrest, rfl, hne, hword, ?_, hafter⟩
      intro e he
      refine hbefore e ?_
      cases before with
      | nil => exact absurd he (by simp)
      | cons f before => rwa [List.getLast?_cons_cons]
  · rintro ⟨j, rfl, before, after, rfl, rfl, hne, hword, hbefore, hafter⟩
    refine ⟨c :: before, after, rfl, by simp, hne, hword, ?_, hafter⟩
    cases before with
    | nil =>
      intro e he
      simp only [List.getLast?_singleton, Option.mem_some_iff] at he
      rwa [← he]
    | cons f before => rwa [List.getLast?_cons_cons]

/-- A run at the beginning of a list is all that there is up to a separator. -/
theorem run_unique (hword : ∀ c ∈ word, ¬ p c) (hword' : ∀ c ∈ word', ¬ p c)
    (hl : ∀ c ∈ l.head?, p c) (hafter : ∀ c ∈ after.head?, p c)
    (heq : word ++ l = word' ++ after) : word = word' := by
  induction word generalizing word' with
  | nil =>
    cases word' with
    | nil => rfl
    | cons c word' =>
      rw [List.nil_append, List.cons_append] at heq
      have hc : p c := hl c (by simp [heq])
      exact absurd hc (hword' c List.mem_cons_self)
  | cons c word ih =>
    cases word' with
    | nil =>
      rw [List.nil_append, List.cons_append] at heq
      have hc : p c := hafter c (by simp [← heq])
      exact absurd hc (hword c List.mem_cons_self)
    | cons d word' =>
      rw [List.cons_append, List.cons_append] at heq
      obtain ⟨rfl, hrest⟩ := List.cons.inj heq
      rw [ih (fun e he => hword e (List.mem_cons_of_mem _ he))
        (fun e he => hword' e (List.mem_cons_of_mem _ he)) hrest]

theorem isRun_append (hne : word ≠ []) (hword : ∀ c ∈ word, ¬ p c) (hl : ∀ c ∈ l.head?, p c) :
    IsRun p (word ++ l) i word' ↔
      (i = 0 ∧ word' = word) ∨ ∃ j, i = word.length + j ∧ IsRun p l j word' := by
  constructor
  · rintro ⟨before, after, heq, rfl, hne', hword', hbefore, hafter⟩
    rcases before.eq_nil_or_concat with rfl | ⟨front, c, rfl⟩
    · rw [List.nil_append] at heq
      exact .inl ⟨rfl, (run_unique hword hword' hl hafter heq).symm⟩
    · rw [List.concat_eq_append] at heq hbefore ⊢
      have hc : p c := hbefore c (by simp)
      rw [List.append_assoc, List.append_eq_append_iff] at heq
      rcases heq with ⟨t, hfront, rfl⟩ | ⟨t, rfl, -⟩
      · refine .inr ⟨t.length, by rw [hfront, List.length_append], t, after, by simp, rfl, hne',
          hword', ?_, hafter⟩
        intro d hd
        refine hbefore d ?_
        rw [hfront, List.getLast?_append, Option.mem_def.mp hd]
        rfl
      · exact absurd hc (hword c (by simp))
  · rintro (⟨rfl, rfl⟩ | ⟨j, rfl, before, after, rfl, rfl, hne', hword', hbefore, hafter⟩)
    · exact ⟨[], l, rfl, rfl, hne, hword, by simp, hl⟩
    · refine ⟨word ++ before, after, by simp, by simp, hne', hword', ?_, hafter⟩
      cases before with
      | nil =>
        obtain ⟨d, word', rfl⟩ := List.exists_cons_of_ne_nil hne'
        exact absurd (hl d (by simp)) (hword' d List.mem_cons_self)
      | cons d before =>
        intro e he
        refine hbefore e ?_
        rwa [List.getLast?_append_of_ne_nil _ (List.cons_ne_nil d before)] at he

theorem not_isRun_nil : ¬ IsRun p [] i word := by
  rintro ⟨before, after, heq, -, hne, -⟩
  exact hne (by simpa using (List.append_eq_nil_iff.mp (List.append_eq_nil_iff.mp heq.symm).1).2)

/-- What is found in one go is the list of the runs. -/
theorem Runs.mem_iff (h : Runs p i l runs) (j : ℕ) (word : List α) :
    (j, word) ∈ runs ↔ ∃ k, j = i + k ∧ IsRun p l k word := by
  induction h with
  | nil => simp [not_isRun_nil]
  | @separator i c l runs hc h ih =>
    rw [ih]
    constructor
    · rintro ⟨k, rfl, hrun⟩
      exact ⟨k + 1, by omega, (isRun_cons hc).mpr ⟨k, rfl, hrun⟩⟩
    · rintro ⟨k, rfl, hrun⟩
      obtain ⟨k, rfl, hrest⟩ := (isRun_cons hc).mp hrun
      exact ⟨k, by omega, hrest⟩
  | @word i w l runs hne hword hl h ih =>
    rw [List.mem_cons, ih, Prod.mk.injEq]
    simp only [isRun_append hne hword hl]
    constructor
    · rintro (⟨rfl, rfl⟩ | ⟨k, rfl, hrun⟩)
      · exact ⟨0, rfl, .inl ⟨rfl, rfl⟩⟩
      · exact ⟨w.length + k, by omega, .inr ⟨k, rfl, hrun⟩⟩
    · rintro ⟨k, rfl, ⟨rfl, rfl⟩ | ⟨k, rfl, hrun⟩⟩
      · exact .inl ⟨rfl, rfl⟩
      · exact .inr ⟨k, by omega, hrun⟩

theorem Runs.le_of_mem (h : Runs p i l runs) {run : ℕ × List α} (hrun : run ∈ runs) :
    i ≤ run.1 := by
  obtain ⟨k, hk, -⟩ := (h.mem_iff run.1 run.2).mp hrun
  omega

theorem Runs.lists (h : Runs p 0 l runs) : Lists p l runs := by
  refine ⟨?_, fun i word => by simp [h.mem_iff]⟩
  generalize 0 = i at h
  induction h with
  | nil => exact List.Pairwise.nil
  | separator hc h ih => exact ih
  | @word i w l runs hne hword hl h ih =>
    refine List.pairwise_cons.mpr ⟨fun run hrun => ?_, ih⟩
    have hle := h.le_of_mem hrun
    have hpos := List.length_pos_iff.mpr hne
    omega

theorem Lists.unique {runs' : List (ℕ × List α)} (h : Lists p l runs) (h' : Lists p l runs') :
    runs = runs' := by
  have hsort : ∀ {runs : List (ℕ × List α)}, runs.Pairwise (fun r r' => r.1 < r'.1) →
      runs.Nodup := fun h => h.imp fun {a b} hlt heq => absurd hlt (by rw [heq]; exact lt_irrefl _)
  have hperm : runs.Perm runs' := (List.perm_ext_iff_of_nodup (hsort h.1) (hsort h'.1)).mpr
    fun r => (h.2 r.1 r.2).trans (h'.2 r.1 r.2).symm
  exact hperm.eq_of_pairwise (fun a b _ _ hab hba => absurd hab (Nat.lt_asymm hba)) h.1 h'.1

theorem Lists.toRuns (h : Lists p l runs) : Runs p 0 l runs := by
  obtain ⟨runs', h'⟩ := exists_runs p 0 l
  rwa [h.unique h'.lists]

theorem Runs.length_le_aux (h : Runs p i l runs) : 2 * runs.length ≤ l.length + 1 ∧
    ((∀ c ∈ l.head?, p c) → 2 * runs.length ≤ l.length) := by
  induction h with
  | nil => simp
  | separator hc h ih =>
    rw [List.length_cons]
    exact ⟨by omega, fun _ => ih.1⟩
  | @word i w l runs hne hword hl h ih =>
    have hpos := List.length_pos_iff.mpr hne
    have hrest := ih.2 hl
    rw [List.length_append, List.length_cons]
    refine ⟨by omega, fun hhead => ?_⟩
    obtain ⟨d, w, rfl⟩ := List.exists_cons_of_ne_nil hne
    exact absurd (hhead d (by simp)) (hword d List.mem_cons_self)

/-- There are no more runs than have room with a separator behind each but the last. -/
theorem Runs.length_le (h : Runs p i l runs) : 2 * runs.length ≤ l.length + 1 :=
  h.length_le_aux.1

end Results

end ReduceOS.MaximalRuns
