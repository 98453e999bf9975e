import ReduceOS.ProcessTree

/-!
What is left of the process tree when processes with children are destroyed. Their children's
nodes point up to a node that is no longer there, all but the first have fallen out of the
tree, and a later node may get the memory of that parent. The lists of children of the nodes
that are there still hold nodes that are there, each once and below its own parent.
-/
namespace ReduceOS.Orphans

open ProcessTree

/-- The part of `ProcessTree.Good` that any `process_destroy` keeps. -/
structure Sound (s : State) : Prop where
  process_ne : 0 ∉ s.processes
  node_ne : 0 ∉ s.liveNodes
  owned : ∀ p ∈ s.processes, (s.process p).node ≠ 0 →
    (s.process p).node ∈ s.liveNodes ∧ (s.node (s.process p).node).value = p
  owner : ∀ n ∈ s.liveNodes, (s.node n).value ∈ s.processes ∧ (s.process (s.node n).value).node = n
  child : ∀ m ∈ s.liveNodes, ∀ n ∈ (s.node m).children, n ∈ s.liveNodes ∧ (s.node n).parent = m
  nodup : ∀ m ∈ s.liveNodes, (s.node m).children.Nodup

theorem sound_of_good {s : State} (h : Good s) : Sound s where
  process_ne := h.process_ne
  node_ne := h.node_ne
  owned := h.owned
  owner := h.owner
  child m hm n hn := by
    obtain ⟨hlive, -, hparent⟩ := (h.linked_of_mem hm).1.child_mem m hm n hn
    exact ⟨hlive, hparent⟩
  nodup m hm := (h.linked_of_mem hm).1.nodup m hm

theorem Sound.owns {s : State} (h : Sound s) : Owns s :=
  ⟨h.process_ne, h.node_ne, h.owned, h.owner⟩

section Adding

variable {s : State} {parent p n : Ptr} {flags : BitVec 32}

theorem leafAdded_sound (h : Sound s) (hfresh : Fresh s p n) (hparent : parent ∈ s.processes)
    (hnode : (s.process parent).node ≠ 0) {s' : State} (ha : LeafAdded s parent p n s') :
    Sound s' := by
  obtain ⟨hprocess, hnodes, howned, howner⟩ := LeafAdded.owns h.owns hfresh ha
  obtain ⟨-, -, -, hn⟩ := hfresh
  have hmlive := (h.owned parent hparent hnode).1
  refine ⟨hprocess, hnodes, howned, howner, ?_, ?_⟩
  · intro k hk c hc
    have hold : ∀ c ∈ (s.node k).children, k ∈ s.liveNodes →
        c ∈ s'.liveNodes ∧ (s'.node c).parent = k := by
      intro c hc hk
      obtain ⟨hclive, hcparent⟩ := h.child k hk c hc
      rw [ha.live_eq, (ha.node_old c hclive).2]
      exact ⟨Finset.mem_insert_of_mem hclive, hcparent⟩
    rw [ha.live_eq, Finset.mem_insert] at hk
    rcases hk with rfl | hk
    · rw [ha.node_new] at hc
      exact absurd hc List.not_mem_nil
    · by_cases hkm : k = (s.process parent).node
      · subst hkm
        rw [ha.node_above, List.mem_append, List.mem_singleton] at hc
        rcases hc with hc | rfl
        · exact hold c hc hk
        · rw [ha.live_eq, ha.node_new]
          exact ⟨Finset.mem_insert_self _ _, rfl⟩
      · rw [ha.children_old k hk hkm] at hc
        exact hold c hc hk
  · intro k hk
    rw [ha.live_eq, Finset.mem_insert] at hk
    rcases hk with rfl | hk
    · rw [ha.node_new]
      exact List.nodup_nil
    · by_cases hkm : k = (s.process parent).node
      · subst hkm
        have hnew : n ∉ (s.node (s.process parent).node).children :=
          fun hmem => hn (h.child _ hk n hmem).1
        rw [ha.node_above]
        exact (h.nodup _ hk).append (List.nodup_singleton n) (List.disjoint_singleton.mpr hnew)
      · rw [ha.children_old k hk hkm]
        exact h.nodup k hk

theorem processCreateStructure_sound (h : Sound s) (hfresh : Fresh s p n)
    (hparent : parent ∈ s.processes) : Sound (processCreateStructure s parent p n flags) := by
  by_cases hnode : (s.process parent).node = 0
  · have hold : ∀ q ∈ s.processes, q ≠ p := fun q hq => ne_of_mem_of_not_mem hq hfresh.2.1
    rw [processCreateStructure_unlinked hfresh (Or.inr ⟨hparent, hnode⟩)]
    refine ⟨?_, h.node_ne, ?_, ?_, h.child, h.nodup⟩
    · rw [Finset.mem_insert]
      exact not_or.mpr ⟨hfresh.1.symm, h.process_ne⟩
    · intro q hq hqnode
      rcases Finset.mem_insert.mp hq with rfl | hq
      · simp at hqnode
      · simp only [Function.update_of_ne (hold q hq)] at hqnode ⊢
        exact h.owned q hq hqnode
    · intro k hk
      obtain ⟨hmem, hback⟩ := h.owner k hk
      refine ⟨Finset.mem_insert_of_mem hmem, ?_⟩
      simp only [Function.update_of_ne (hold _ hmem)]
      exact hback
  · have h0 : parent ≠ 0 := fun he => h.process_ne (he ▸ hparent)
    exact leafAdded_sound h hfresh hparent hnode
      (processCreateStructure_leafAdded hfresh hparent h0 (h.owned parent hparent hnode).1 hnode)

theorem markStopped_sound (h : Sound s) (p : Ptr) : Sound (markStopped s p) := by
  refine ⟨h.process_ne, h.node_ne, ?_, ?_, h.child, h.nodup⟩
  · intro q hq
    rw [markStopped_node]
    exact h.owned q hq
  · intro n hn
    rw [markStopped_node]
    exact h.owner n hn

theorem setProcess_sound (h : Sound s) (hp : p ∉ s.processes) (process : Process) :
    Sound (setProcess s p process) := by
  obtain ⟨hprocess, hnodes, howned, howner⟩ := h.owns.setProcess hp process
  exact ⟨hprocess, hnodes, howned, howner, h.child, h.nodup⟩

end Adding

section Destroying

variable {s : State} {p n : Ptr}

@[simp] theorem setNode_value (s : State) (n k : Ptr) (node : TreeNode) :
    ((setNode s n node).node k).value = if k = n then node.value else (s.node k).value := by
  unfold setNode
  dsimp only
  rw [Function.update_apply, apply_ite TreeNode.value]

@[simp] theorem setNode_children (s : State) (n k : Ptr) (node : TreeNode) :
    ((setNode s n node).node k).children =
      if k = n then node.children else (s.node k).children := by
  unfold setNode
  dsimp only
  rw [Function.update_apply, apply_ite TreeNode.children]

@[simp] theorem setNode_parent (s : State) (n k : Ptr) (node : TreeNode) :
    ((setNode s n node).node k).parent = if k = n then node.parent else (s.node k).parent := by
  unfold setNode
  dsimp only
  rw [Function.update_apply, apply_ite TreeNode.parent]

@[simp] theorem reparentChildren_liveNodes (s : State) (parent : Ptr) (children : List Ptr) :
    (reparentChildren s parent children).liveNodes = s.liveNodes := by
  cases children <;> rfl

@[simp] theorem reparentChildren_value (s : State) (parent k : Ptr) (children : List Ptr) :
    ((reparentChildren s parent children).node k).value = (s.node k).value := by
  cases children with
  | nil => rfl
  | cons c rest => grind [reparentChildren, setNode_value]

theorem reparentChildren_children (s : State) (parent k : Ptr) (children : List Ptr) :
    ((reparentChildren s parent children).node k).children =
      if k = parent then (s.node k).children ++ children.head?.toList
      else (s.node k).children := by
  cases children with
  | nil => simp [reparentChildren]
  | cons c rest => grind [reparentChildren, setNode_children]

theorem reparentChildren_parent (s : State) (parent k : Ptr) (children : List Ptr) :
    ((reparentChildren s parent children).node k).parent =
      if children.head? = some k then parent else (s.node k).parent := by
  cases children with
  | nil => simp [reparentChildren]
  | cons c rest => grind [reparentChildren, setNode_parent]

theorem treeRemove_erase_liveNodes (s : State) (n : Ptr) :
    (treeRemove s n).liveNodes.erase n = s.liveNodes.erase n := by
  unfold treeRemove
  dsimp only
  split_ifs
  · rfl
  · simp [treeRemoveReparent, setNode]

theorem treeRemove_value (s : State) (n k : Ptr) :
    ((treeRemove s n).node k).value = (s.node k).value := by
  by_cases h0 : (s.node n).parent = 0
  · simp only [treeRemove, if_pos h0]
  · simp only [treeRemove, if_neg h0, treeRemoveReparent, reparentChildren_value, setNode_value]
    split_ifs with hk
    · rw [hk]
    · rfl

/-- The first child moves up and the node is gone from above; all other lists stay. -/
theorem treeRemove_children {k : Ptr} (hk : k ≠ n) (hk0 : k ≠ 0) :
    ((treeRemove s n).node k).children =
      if k = (s.node n).parent then
        (s.node k).children.erase n ++ (s.node n).children.head?.toList
      else (s.node k).children := by
  by_cases h0 : (s.node n).parent = 0
  · rw [if_neg fun hkm => hk0 (hkm.trans h0)]
    simp only [treeRemove, if_pos h0]
  · simp only [treeRemove, if_neg h0, treeRemoveReparent, reparentChildren_children,
      setNode_children]
    by_cases hkm : k = (s.node n).parent
    · have hnm : n ≠ (s.node n).parent := fun he => hk (hkm.trans he.symm)
      simp only [if_pos hkm, if_neg hnm]
      rw [hkm]
    · simp only [if_neg hkm]

/-- The parent of a node is as it was, or the node was below the removed one and moved up. -/
theorem treeRemove_parent (h : Sound s) (hn : n ∈ s.liveNodes) (k : Ptr) :
    ((treeRemove s n).node k).parent = (s.node k).parent ∨
      (s.node k).parent = n ∧ ((treeRemove s n).node k).parent = (s.node n).parent := by
  by_cases h0 : (s.node n).parent = 0
  · exact Or.inl (by simp only [treeRemove, if_pos h0])
  · simp only [treeRemove, if_neg h0, treeRemoveReparent, reparentChildren_parent, setNode_parent,
      setNode_children]
    have hkeep : (if k = (s.node n).parent then (s.node (s.node n).parent).parent
        else (s.node k).parent) = (s.node k).parent := by
      split_ifs with hk
      · rw [hk]
      · rfl
    rw [hkeep]
    split_ifs with hloop hfirst hfirst
    · have hmem := List.mem_of_mem_erase (List.mem_of_mem_head? hfirst)
      rw [← hloop] at hmem
      exact Or.inr ⟨(h.child n hn k hmem).2, rfl⟩
    · exact Or.inl rfl
    · exact Or.inr ⟨(h.child n hn k (List.mem_of_mem_head? hfirst)).2, rfl⟩
    · exact Or.inl rfl

/-- The node that moves up is below its new parent. -/
theorem treeRemove_parent_first (h0 : (s.node n).parent ≠ 0) (hloop : (s.node n).parent ≠ n)
    {c : Ptr} (hfirst : (s.node n).children.head? = some c) :
    ((treeRemove s n).node c).parent = (s.node n).parent := by
  simp only [treeRemove, if_neg h0, treeRemoveReparent, reparentChildren_parent, setNode_children,
    if_neg hloop.symm, if_pos hfirst]

/-- What a live node other than the destroyed one has below it is there and points back. -/
theorem treeRemove_child (h : Sound s) (hn : n ∈ s.liveNodes) {m c : Ptr} (hm : m ∈ s.liveNodes)
    (hmn : m ≠ n) (hc : c ∈ ((treeRemove s n).node m).children) :
    c ∈ s.liveNodes.erase n ∧ ((treeRemove s n).node c).parent = m := by
  have hm0 : m ≠ 0 := fun he => h.node_ne (he ▸ hm)
  rw [treeRemove_children hmn hm0] at hc
  have hold : c ∈ (s.node m).children → c ≠ n →
      c ∈ s.liveNodes.erase n ∧ ((treeRemove s n).node c).parent = m := by
    intro hc hcn
    obtain ⟨hclive, hcparent⟩ := h.child m hm c hc
    refine ⟨Finset.mem_erase.mpr ⟨hcn, hclive⟩, ?_⟩
    rcases treeRemove_parent h hn c with hsame | ⟨hbelow, -⟩
    · exact hsame.trans hcparent
    · exact absurd (hcparent.symm.trans hbelow) hmn
  split_ifs at hc with hparent
  · rcases List.mem_append.mp hc with hc | hc
    · rw [(h.nodup m hm).mem_erase_iff] at hc
      exact hold hc.2 hc.1
    · have hfirst := Option.mem_toList.mp hc
      have hloop : (s.node n).parent ≠ n := fun he => hmn (hparent.trans he)
      obtain ⟨hclive, hcparent⟩ := h.child n hn c (List.mem_of_mem_head? hfirst)
      refine ⟨Finset.mem_erase.mpr ⟨fun hcn => ?_, hclive⟩, ?_⟩
      · rw [hcn] at hcparent
        exact hloop hcparent
      · rw [treeRemove_parent_first (hparent ▸ hm0) hloop hfirst, hparent]
  · exact hold hc fun hcn => hparent ((h.child m hm c hc).2 ▸ hcn ▸ rfl)

theorem treeRemove_nodup (h : Sound s) (hn : n ∈ s.liveNodes) {m : Ptr} (hm : m ∈ s.liveNodes)
    (hmn : m ≠ n) : ((treeRemove s n).node m).children.Nodup := by
  have hm0 : m ≠ 0 := fun he => h.node_ne (he ▸ hm)
  rw [treeRemove_children hmn hm0]
  split_ifs with hparent
  · refine ((h.nodup m hm).erase n).append ?_ ?_
    · cases (s.node n).children.head? with
      | none => exact List.nodup_nil
      | some c => exact List.nodup_singleton c
    · intro c hold hc
      have hbelow := (h.child n hn c (List.mem_of_mem_head? (Option.mem_toList.mp hc))).2
      exact hmn ((h.child m hm c (List.mem_of_mem_erase hold)).2.symm.trans hbelow)
  · exact h.nodup m hm

/-- Whoever is destroyed, the lists of what is left stay sound. -/
theorem processDestroy_sound (h : Sound s) (hp : p ∈ s.processes)
    (hstopped : isStopped s p = true) : Sound (processDestroy s p) := by
  have hp0 : p ≠ 0 := fun h0 => h.process_ne (h0 ▸ hp)
  have hruns := destroy_runs hp0 hstopped
  by_cases hnode : (s.process p).node = 0
  · rw [processDestroy_nodeless hp0 hstopped hnode]
    obtain ⟨hprocess, hnodes, howned, howner⟩ := h.owns.forget hnode
    exact ⟨hprocess, hnodes, howned, howner, h.child, h.nodup⟩
  · obtain ⟨hn, hvalue⟩ := h.owned p hp hnode
    have hs' : processDestroy s p =
        { treeRemove s (s.process p).node with
          processes := s.processes.erase p
          liveNodes := s.liveNodes.erase (s.process p).node } := by
      refine (if_neg hruns).trans ?_
      simp only [if_pos hnode, treeRemove_processes, treeRemove_erase_liveNodes]
    rw [hs']
    refine ⟨fun h0 => h.process_ne (Finset.mem_of_mem_erase h0),
      fun h0 => h.node_ne (Finset.mem_of_mem_erase h0), ?_, ?_, ?_, ?_⟩
    · intro q hq hqnode
      simp only [treeRemove_process] at hqnode ⊢
      rw [Finset.mem_erase] at hq
      obtain ⟨hqlive, hqvalue⟩ := h.owned q hq.2 hqnode
      rw [treeRemove_value]
      refine ⟨Finset.mem_erase.mpr ⟨fun he => hq.1 ?_, hqlive⟩, hqvalue⟩
      rw [← hqvalue, he, hvalue]
    · intro k hk
      rw [Finset.mem_erase] at hk
      obtain ⟨hmem, hback⟩ := h.owner k hk.2
      simp only [treeRemove_value, treeRemove_process]
      refine ⟨Finset.mem_erase.mpr ⟨fun he => hk.1 ?_, hmem⟩, hback⟩
      rw [← hback, he]
    · intro m hm c hc
      rw [Finset.mem_erase] at hm
      exact treeRemove_child h hn hm.2 hm.1 hc
    · intro m hm
      rw [Finset.mem_erase] at hm
      exact treeRemove_nodup h hn hm.2 hm.1

end Destroying

end ReduceOS.Orphans
