import Mathlib.Data.Finset.Card
import Mathlib.Data.List.Nodup

/-!
Trees of linked nodes: every node has a list of children and a parent pointer. In a
linked tree each node is reached from the root along exactly one sequence of child
positions. New leaves may be linked in and leaves may be taken out.
-/
namespace ReduceOS.LinkedTree

variable {N : Type}

def follow (children : N → List N) : N → List ℕ → Option N
  | n, [] => some n
  | n, i :: path => (children n)[i]?.bind fun c => follow children c path

/-- Children and parents fit together, and going up never comes round. -/
structure Linked (live : Finset N) (children : N → List N) (parent : N → N) (root : N) : Prop where
  root_mem : root ∈ live
  parent_mem : ∀ n ∈ live, n ≠ root → parent n ∈ live ∧ n ∈ children (parent n)
  child_mem : ∀ m ∈ live, ∀ c ∈ children m, c ∈ live ∧ c ≠ root ∧ parent c = m
  nodup : ∀ m ∈ live, (children m).Nodup
  ranked : ∃ rank : N → ℕ, ∀ n ∈ live, n ≠ root → rank (parent n) < rank n

section Paths

variable {live : Finset N} {children : N → List N} {parent : N → N} {root : N}

theorem follow_concat (n : N) (path : List ℕ) (i : ℕ) :
    follow children n (path ++ [i]) =
      (follow children n path).bind fun m => (children m)[i]? := by
  induction path generalizing n with
  | nil =>
    simp only [List.nil_append, follow, Option.bind_some]
    cases (children n)[i]? <;> rfl
  | cons j path ih =>
    simp only [List.cons_append, follow]
    cases (children n)[j]? with
    | none => rfl
    | some c => exact ih c

theorem follow_mem (h : Linked live children parent root) {path : List ℕ} {n : N}
    (hn : follow children root path = some n) : n ∈ live := by
  induction path using List.reverseRecOn generalizing n with
  | nil => exact Option.some.inj hn ▸ h.root_mem
  | append_singleton path i ih =>
    rw [follow_concat, Option.bind_eq_some_iff] at hn
    obtain ⟨m, hm, hi⟩ := hn
    exact (h.child_mem m (ih hm) n (List.mem_of_getElem? hi)).1

theorem exists_follow (h : Linked live children parent root) {n : N} (hn : n ∈ live) :
    ∃ path, follow children root path = some n := by
  obtain ⟨rank, hrank⟩ := h.ranked
  induction hr : rank n using Nat.strong_induction_on generalizing n with
  | _ r ih =>
    by_cases hroot : n = root
    · exact ⟨[], congrArg some hroot.symm⟩
    · obtain ⟨hparent, hchild⟩ := h.parent_mem n hn hroot
      obtain ⟨path, hpath⟩ := ih _ (hr ▸ hrank n hn hroot) hparent rfl
      obtain ⟨i, hi⟩ := List.getElem?_of_mem hchild
      refine ⟨path ++ [i], ?_⟩
      rw [follow_concat, hpath, Option.bind_some, hi]

/-- Two ways down to one node are one: the last step comes from its parent, at the only
position the node has there. -/
theorem follow_injective (h : Linked live children parent root) {p q : List ℕ} {n : N}
    (hp : follow children root p = some n) (hq : follow children root q = some n) : p = q := by
  induction p using List.reverseRecOn generalizing q n with
  | nil =>
    have hn : n = root := (Option.some.inj hp).symm
    rcases List.eq_nil_or_concat q with rfl | ⟨q, j, rfl⟩
    · rfl
    · rw [List.concat_eq_append, follow_concat, Option.bind_eq_some_iff] at hq
      obtain ⟨m, hm, hj⟩ := hq
      exact absurd hn (h.child_mem m (follow_mem h hm) n (List.mem_of_getElem? hj)).2.1
  | append_singleton p i ih =>
    rw [follow_concat, Option.bind_eq_some_iff] at hp
    obtain ⟨m, hm, hi⟩ := hp
    have hup := h.child_mem m (follow_mem h hm) n (List.mem_of_getElem? hi)
    rcases List.eq_nil_or_concat q with rfl | ⟨q, j, rfl⟩
    · exact absurd (Option.some.inj hq).symm hup.2.1
    · rw [List.concat_eq_append, follow_concat, Option.bind_eq_some_iff] at hq
      obtain ⟨m', hm', hj⟩ := hq
      have hup' := h.child_mem m' (follow_mem h hm') n (List.mem_of_getElem? hj)
      have hmm : m' = m := hup'.2.2.symm.trans hup.2.2
      subst hmm
      obtain ⟨hi', hin⟩ := List.getElem?_eq_some_iff.mp hi
      obtain ⟨hj', hjn⟩ := List.getElem?_eq_some_iff.mp hj
      have hij : i = j :=
        (List.Nodup.getElem_inj_iff (h.nodup m' (follow_mem h hm'))).mp (hin.trans hjn.symm)
      rw [ih hm hm', hij, List.concat_eq_append]

theorem existsUnique_follow (h : Linked live children parent root) {n : N} (hn : n ∈ live) :
    ∃! path, follow children root path = some n := by
  obtain ⟨path, hpath⟩ := exists_follow h hn
  exact ⟨path, hpath, fun q hq => follow_injective h hq hpath⟩

theorem Linked.single (hchildren : children root = []) :
    Linked {root} children parent root where
  root_mem := Finset.mem_singleton_self root
  parent_mem n hn hroot := absurd (Finset.mem_singleton.mp hn) hroot
  child_mem m hm c hc := by
    rw [Finset.mem_singleton.mp hm, hchildren] at hc
    exact absurd hc List.not_mem_nil
  nodup m hm := by
    rw [Finset.mem_singleton.mp hm, hchildren]
    exact List.nodup_nil
  ranked := ⟨fun _ => 0, fun n hn hroot => absurd (Finset.mem_singleton.mp hn) hroot⟩

end Paths

section Changes

variable [DecidableEq N] {live : Finset N} {children children' : N → List N}
  {parent parent' : N → N} {root m n : N}

/-- Link a new leaf in below `m`. -/
theorem Linked.insertLeaf (h : Linked live children parent root) (hm : m ∈ live) (hn : n ∉ live)
    (hleaf : children' n = []) (hm' : children' m = children m ++ [n])
    (hothers : ∀ k ∈ live, k ≠ m → children' k = children k)
    (hup : parent' n = m) (hups : ∀ k ∈ live, parent' k = parent k) :
    Linked (insert n live) children' parent' root := by
  have hne : ∀ k ∈ live, k ≠ n := fun k hk hkn => hn (hkn ▸ hk)
  have hgrows : ∀ k ∈ live, ∀ c ∈ children' k, c ∈ children k ∨ c = n ∧ k = m := by
    intro k hk c hc
    by_cases hkm : k = m
    · subst hkm
      rw [hm', List.mem_append, List.mem_singleton] at hc
      exact hc.imp id fun h => ⟨h, rfl⟩
    · rw [hothers k hk hkm] at hc
      exact Or.inl hc
  have hkeeps : ∀ k ∈ live, ∀ c ∈ children k, c ∈ children' k := by
    intro k hk c hc
    by_cases hkm : k = m
    · subst hkm
      rw [hm']
      exact List.mem_append_left _ hc
    · rwa [hothers k hk hkm]
  refine ⟨Finset.mem_insert_of_mem h.root_mem, ?_, ?_, ?_, ?_⟩
  · intro k hk hroot
    rcases Finset.mem_insert.mp hk with rfl | hk
    · rw [hup, hm']
      exact ⟨Finset.mem_insert_of_mem hm, List.mem_append_right _ (List.mem_singleton_self _)⟩
    · obtain ⟨hparent, hchild⟩ := h.parent_mem k hk hroot
      rw [hups k hk]
      exact ⟨Finset.mem_insert_of_mem hparent, hkeeps _ hparent k hchild⟩
  · intro k hk c hc
    rcases Finset.mem_insert.mp hk with rfl | hk
    · rw [hleaf] at hc
      exact absurd hc List.not_mem_nil
    · rcases hgrows k hk c hc with hold | ⟨rfl, rfl⟩
      · obtain ⟨hlive, hroot, hparent⟩ := h.child_mem k hk c hold
        exact ⟨Finset.mem_insert_of_mem hlive, hroot, (hups c hlive).trans hparent⟩
      · exact ⟨Finset.mem_insert_self _ _, (hne _ h.root_mem).symm, hup⟩
  · intro k hk
    rcases Finset.mem_insert.mp hk with rfl | hk
    · rw [hleaf]
      exact List.nodup_nil
    · by_cases hkm : k = m
      · subst hkm
        rw [hm']
        have hnot : n ∉ children k := fun hc => hn (h.child_mem k hk n hc).1
        exact (h.nodup k hk).append (List.nodup_singleton n)
          (List.disjoint_singleton.mpr hnot)
      · rw [hothers k hk hkm]
        exact h.nodup k hk
  · obtain ⟨rank, hrank⟩ := h.ranked
    refine ⟨Function.update rank n (rank m + 1), fun k hk hroot => ?_⟩
    rcases Finset.mem_insert.mp hk with rfl | hk
    · rw [hup, Function.update_self, Function.update_of_ne (hne m hm)]
      exact Nat.lt_succ_self _
    · rw [hups k hk, Function.update_of_ne (hne k hk),
        Function.update_of_ne (hne _ (h.parent_mem k hk hroot).1)]
      exact hrank k hk hroot

theorem Linked.eraseLeaf (h : Linked live children parent root) (hn : n ∈ live) (hroot : n ≠ root)
    (hleaf : children n = []) (hm' : children' (parent n) = (children (parent n)).erase n)
    (hothers : ∀ k ∈ live, k ≠ n → k ≠ parent n → children' k = children k)
    (hups : ∀ k ∈ live, k ≠ n → parent' k = parent k) :
    Linked (live.erase n) children' parent' root := by
  have hshrinks : ∀ k ∈ live, k ≠ n → ∀ c, c ∈ children' k ↔ c ∈ children k ∧ c ≠ n := by
    intro k hk hkn c
    by_cases hkm : k = parent n
    · rw [hkm, hm', (h.nodup _ (h.parent_mem n hn hroot).1).mem_erase_iff, and_comm]
    · rw [hothers k hk hkn hkm]
      refine ⟨fun hc => ⟨hc, fun hcn => hkm ?_⟩, And.left⟩
      rw [hcn] at hc
      exact (h.child_mem k hk n hc).2.2.symm
  refine ⟨Finset.mem_erase.mpr ⟨hroot.symm, h.root_mem⟩, ?_, ?_, ?_, ?_⟩
  · intro k hk hkroot
    obtain ⟨hkn, hk⟩ := Finset.mem_erase.mp hk
    obtain ⟨hparent, hchild⟩ := h.parent_mem k hk hkroot
    have hpn : parent k ≠ n := by
      intro hpn
      rw [hpn, hleaf] at hchild
      exact List.not_mem_nil hchild
    rw [hups k hk hkn]
    exact ⟨Finset.mem_erase.mpr ⟨hpn, hparent⟩, (hshrinks _ hparent hpn k).mpr ⟨hchild, hkn⟩⟩
  · intro k hk c hc
    obtain ⟨hkn, hk⟩ := Finset.mem_erase.mp hk
    obtain ⟨hold, hcn⟩ := (hshrinks k hk hkn c).mp hc
    obtain ⟨hlive, hcroot, hparent⟩ := h.child_mem k hk c hold
    exact ⟨Finset.mem_erase.mpr ⟨hcn, hlive⟩, hcroot, (hups c hlive hcn).trans hparent⟩
  · intro k hk
    obtain ⟨hkn, hk⟩ := Finset.mem_erase.mp hk
    by_cases hkm : k = parent n
    · rw [hkm, hm']
      exact (h.nodup _ (h.parent_mem n hn hroot).1).erase n
    · rw [hothers k hk hkn hkm]
      exact h.nodup k hk
  · obtain ⟨rank, hrank⟩ := h.ranked
    refine ⟨rank, fun k hk hkroot => ?_⟩
    obtain ⟨hkn, hk⟩ := Finset.mem_erase.mp hk
    rw [hups k hk hkn]
    exact hrank k hk hkroot

end Changes

end ReduceOS.LinkedTree
