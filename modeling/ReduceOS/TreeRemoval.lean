import ReduceOS.KernelTree

/-!
`tree_remove`, which takes a node out of a tree and hands its children to its parent. The loop over
the children goes on from the link that the append has just written, so it ends after the first.
-/
namespace ReduceOS.TreeRemoval

open Machine LinkedSequence OrderedForest KernelTree
open KernelList (Describes listAppendNode listAppendNode_nodes listAppendNode_lists listDelete
  listDelete_lists listFind)

section Source

def reparent (m : Memory) (parent child : Addr) : Memory :=
  let m := { m with cells := m.cells.setNode child ({ · with owner := (m.node parent).children }) }
  let m := m.setNode (m.cells.nodes child).value ({ · with parent := parent })
  { m with cells := listAppendNode m.cells (m.node parent).children child }

def reparentFrom (parent : Addr) : ℕ → Memory → Addr → Option Memory
  | 0, _, _ => none
  | fuel + 1, m, child =>
    if child = null then some m
    else
      let m := reparent m parent child
      reparentFrom parent fuel m (m.cells.nodes child).next

def treeRemoveReparent (fuel : ℕ) (s : State) (parent node : Addr) : Option State := do
  let list := (s.mem.node parent).children
  let n ← listFind fuel s.mem.cells list node
  let m := if n ≠ null then { s.mem with cells := listDelete s.mem.cells list n } else s.mem
  let children := m.cells.lists (m.node node).children
  let m ← if children.length ≠ 0 then reparentFrom parent fuel m children.head else some m
  some ⟨m, s.tree⟩

def treeRemove (fuel : ℕ) (s : State) (node : Addr) : Option State :=
  let parent := (s.mem.node node).parent
  if parent = null then some s
  else treeRemoveReparent fuel ⟨s.mem, ⟨s.tree.nodes - 1, s.tree.root⟩⟩ parent node

end Source

structure Hangs (s : State) (n : Addr) (row kids : List Addr) (cell : Addr) : Prop where
  siblings : Describes s.mem.cells (s.mem.node (s.mem.node n).parent).children row
  children : Describes s.mem.cells (s.mem.node n).children kids
  mem : cell ∈ row
  value : (s.mem.cells.nodes cell).value = n

structure Moved (s s' : State) (n : Addr) (row kids : List Addr) (cell : Addr) : Prop where
  siblings : Describes s'.mem.cells (s'.mem.node (s.mem.node n).parent).children
    (row.erase cell ++ kids)
  value : ∀ q, (s'.mem.cells.nodes q).value = (s.mem.cells.nodes q).value
  children : ∀ k ∈ kids, s'.mem.node (s.mem.cells.nodes k).value =
    { s.mem.node (s.mem.cells.nodes k).value with parent := (s.mem.node n).parent }
  node : ∀ q ≠ n, (∀ k ∈ kids, (s.mem.cells.nodes k).value ≠ q) → s'.mem.node q = s.mem.node q
  lists : ∀ q ≠ (s.mem.node (s.mem.node n).parent).children, q ≠ (s.mem.node n).children →
    s'.mem.cells.lists q = s.mem.cells.lists q
  cells : ∀ q ∉ row ++ kids, s'.mem.cells.nodes q = s.mem.cells.nodes q
  tree : s'.tree = ⟨s.tree.nodes - 1, s.tree.root⟩

def LosesNothing (s s' : State) (n : Addr) : Prop :=
  ∃ row kids cell, Hangs s n row kids cell ∧ Moved s s' n row kids cell

section Loop

variable {m : Memory} {a c d : Label} {row : List Label} {parent child cell : Addr} {fuel : ℕ}

theorem setNode_self {s : KernelList.State} {f : KernelList.Node → KernelList.Node}
    (h : f (s.nodes cell) = s.nodes cell) : s.setNode cell f = s := by
  rw [KernelList.State.setNode, h, Function.update_eq_self]

theorem listAppendNode_owner (s : KernelList.State) (list node : Addr) :
    listAppendNode (s.setNode node ({ · with owner := list })) list node =
      listAppendNode s list node := by
  simp [listAppendNode, KernelList.State.setNode]

/-- A child that the loop gets to is inserted like a new one. -/
theorem reparent_eq_insert (h : Row m a row) {node : Addr}
    (hvalue : (m.cells.nodes cell).value = node) :
    reparent m a.node cell = m.insert a.node node cell := by
  have hset : ((m.cells.setNode cell ({ · with owner := (m.node a.node).children })).nodes
      cell).value = node := by
    rw [KernelList.setNode_nodes, if_pos rfl, hvalue]
  have hsame : m.cells.setNode cell ({ · with value := node }) = m.cells :=
    setNode_self (by rw [← hvalue])
  have hlist : ((m.setNode node ({ · with parent := a.node })).node a.node).children = a.list :=
    (insert_children m a.node node cell a.node).trans h.children
  calc reparent m a.node cell
      = ⟨listAppendNode (m.cells.setNode cell ({ · with owner := (m.node a.node).children }))
          ((m.setNode node ({ · with parent := a.node })).node a.node).children cell,
          (m.setNode node ({ · with parent := a.node })).node⟩ := by
        unfold reparent
        simp only [hset]
        rfl
    _ = ⟨listAppendNode m.cells a.list cell,
          (m.setNode node ({ · with parent := a.node })).node⟩ := by
        rw [hlist, h.children, listAppendNode_owner]
    _ = m.insert a.node node cell := by
        rw [Memory.insert, hlist, KernelList.listAppend]
        change _ = Memory.mk
          (listAppendNode (m.cells.setNode cell ({ · with value := node })) _ _) _
        rw [hsame]

theorem reparent_next (h : Row m a row) (hcell : c.cell ∉ row.map Label.cell)
    (hnull : c.cell ≠ null) :
    ((m.insert a.node c.node c.cell).cells.nodes c.cell).next = null := by
  have hne := h.cell_ne_tail hcell hnull c.node
  rw [h.insert_cells, KernelList.listAppend, listAppendNode_nodes hne, if_pos rfl]

theorem insert_value (h : Row m a row) (hcell : c.cell ∉ row.map Label.cell)
    (hnull : c.cell ≠ null) {q : Addr} (hq : q ≠ c.cell) :
    ((m.insert a.node c.node c.cell).cells.nodes q).value = (m.cells.nodes q).value := by
  have hne := h.cell_ne_tail hcell hnull c.node
  rw [h.insert_cells, KernelList.listAppend, listAppendNode_nodes hne, if_neg hq,
    KernelList.setNode_nodes, if_neg hq]
  split_ifs <;> rfl

end Loop

structure Place (s : State) (root : Label) (below : Forest Label) (a d : Label)
    (b bd : Forest Label) : Prop where
  fits : Fits s root below
  parent : (a, b) ∈ (Forest.tree root below).entries
  child : d ∈ b.tops
  own : (d, bd) ∈ (Forest.tree root below).entries

def unlinked (s : State) (a d : Label) : Memory :=
  { s.mem with cells := listDelete s.mem.cells a.list d.cell }

def rest (b : Forest Label) (d : Label) : List Label :=
  b.tops.filter fun x => !decide (x.node = d.node)

section Removal

variable {s : State} {root a c d : Label} {below b bd : Forest Label} {cs : List Label} {fuel : ℕ}

theorem Place.row (h : Place s root below a d b bd) : Row s.mem a b.tops :=
  h.fits.represents.rows h.parent

theorem Place.kids (h : Place s root below a d b bd) : Row s.mem d bd.tops :=
  h.fits.represents.rows h.own

theorem Place.ne (h : Place s root below a d b bd) : d.node ≠ a.node := by
  have hd : d.node ∈ b.labels.map Label.node := List.mem_map_of_mem (b.tops_subset_labels h.child)
  exact ne_of_mem_of_not_mem hd (h.fits.represents.subtree h.parent).root_notMem

theorem Place.list_ne (h : Place s root below a d b bd) : d.list ≠ a.list :=
  h.fits.represents.list_ne_of_ne (Forest.mem_labels_of_mem_entries h.own)
    (Forest.mem_labels_of_mem_entries h.parent) h.ne

theorem Place.row_unlinked (h : Place s root below a d b bd) : Row (unlinked s a d) a (rest b d) :=
  h.row.delete (h.fits.represents.row_nodup h.parent) h.child

theorem Place.kids_unlinked (h : Place s root below a d b bd) : Row (unlinked s a d) d bd.tops :=
  h.fits.represents.delete_row h.parent h.child h.own h.ne

theorem rest_subset (b : Forest Label) (d : Label) : rest b d ⊆ b.tops := List.filter_sublist.subset

/-- The list nodes of the children are not on the list of the parent's. -/
theorem Place.cell_notMem (h : Place s root below a d b bd) (hc : c ∈ bd.tops) :
    c.cell ∉ (rest b d).map Label.cell := fun hmem =>
  h.kids.cell_notMem h.row h.list_ne hc (List.map_subset _ (rest_subset b d) hmem)

/-- What `tree_remove` comes down to. -/
theorem Place.treeRemove_eq (h : Place s root below a d b bd) (hfuel : 2 ^ 64 ≤ fuel) :
    treeRemove fuel s d.node = (if bd.tops = [] then some (unlinked s a d)
      else reparentFrom a.node fuel (unlinked s a d) (headOr null (bd.tops.map Label.cell))).map
        fun m => ⟨m, ⟨s.tree.nodes - 1, s.tree.root⟩⟩ := by
  have ha : a.node ≠ null :=
    h.fits.represents.node_ne a (Forest.mem_labels_of_mem_entries h.parent)
  have hcell : d.cell ≠ null :=
    ne_of_mem_of_not_mem (List.mem_map_of_mem h.child) h.row.describes.links.nonnull
  have hfind := h.row.find (h.fits.represents.row_nodup h.parent) h.child hfuel
  have hlength : ((unlinked s a d).cells.lists d.list).length = 0 ↔ bd.tops = [] := by
    rw [← BitVec.toNat_inj, h.kids_unlinked.describes.length, List.length_map]
    exact List.length_eq_zero_iff
  have hchildren := h.kids_unlinked.children
  simp only [treeRemove, h.row.parent d h.child, if_neg ha, treeRemoveReparent, h.row.children,
    hfind, Option.bind_eq_bind, Option.bind_some, if_pos hcell]
  change (if ((unlinked s a d).cells.lists ((unlinked s a d).node d.node).children).length ≠ 0 then
    (reparentFrom a.node fuel (unlinked s a d)
      ((unlinked s a d).cells.lists ((unlinked s a d).node d.node).children).head).bind _
    else some (State.mk (unlinked s a d) _)) = _
  rw [hchildren, h.kids_unlinked.describes.head]
  by_cases hnil : bd.tops = []
  · rw [if_neg (not_not.mpr (hlength.mpr hnil)), if_pos hnil]
    rfl
  · rw [if_pos (mt hlength.mp hnil), if_neg hnil, Option.map_eq_bind]
    rfl

theorem Place.remove_leaf (h : Place s root below a d b bd) (hnil : bd.tops = [])
    (hfuel : 2 ^ 64 ≤ fuel) :
    treeRemove fuel s d.node = some ⟨unlinked s a d, ⟨s.tree.nodes - 1, s.tree.root⟩⟩ := by
  rw [h.treeRemove_eq hfuel, if_pos hnil]
  rfl

/-- The loop sees one child: the link that it goes on from is the end of the other list. -/
theorem Place.remove_first (h : Place s root below a d b bd) (hcons : bd.tops = c :: cs)
    (hfuel : 2 ^ 64 ≤ fuel) :
    treeRemove fuel s d.node = some ⟨(unlinked s a d).insert a.node c.node c.cell,
      ⟨s.tree.nodes - 1, s.tree.root⟩⟩ := by
  have hc : c ∈ bd.tops := hcons ▸ List.mem_cons_self
  have hnull : c.cell ≠ null :=
    ne_of_mem_of_not_mem (List.mem_map_of_mem hc) h.kids.describes.links.nonnull
  obtain ⟨fuel, rfl⟩ := Nat.exists_eq_add_of_le' (Nat.le_trans (by decide : 2 ≤ 2 ^ 64) hfuel)
  rw [h.treeRemove_eq hfuel, if_neg (hcons ▸ List.cons_ne_nil c cs), hcons, List.map_cons,
    headOr_cons, reparentFrom, if_neg hnull]
  dsimp only
  rw [reparent_eq_insert h.row_unlinked (h.kids_unlinked.value c hc),
    reparent_next h.row_unlinked (h.cell_notMem hc) hnull, reparentFrom, if_pos rfl]
  rfl

theorem Place.hangs (h : Place s root below a d b bd) :
    Hangs s d.node (b.tops.map Label.cell) (bd.tops.map Label.cell) d.cell := by
  refine ⟨?_, h.kids.children ▸ h.kids.describes, List.mem_map_of_mem h.child,
    h.row.value d h.child⟩
  rw [h.row.parent d h.child, h.row.children]
  exact h.row.describes

theorem Place.rest_cells (h : Place s root below a d b bd) :
    (rest b d).map Label.cell = (b.tops.map Label.cell).erase d.cell := by
  have hnodes := h.fits.represents.row_nodup h.parent
  have hcells := h.row.describes.links.nodup
  obtain ⟨xs, ys, hsplit⟩ := List.append_of_mem h.child
  unfold rest
  rw [hsplit] at hnodes hcells ⊢
  rw [List.map_append, List.map_cons] at hcells
  have hxs : d.cell ∉ xs.map Label.cell := fun hmem =>
    (List.nodup_append.mp hcells).2.2 _ hmem _ List.mem_cons_self rfl
  rw [filter_node hnodes, List.map_append, List.map_append, List.map_cons,
    List.erase_append_right _ hxs, List.erase_cons_head]

theorem Place.unlinked_nodes (h : Place s root below a d b bd) {q : Addr}
    (hq : q ∉ b.tops.map Label.cell) : (unlinked s a d).cells.nodes q = s.mem.cells.nodes q := by
  have hdescribes := h.row.describes
  obtain ⟨xs, ys, hsplit⟩ := List.append_of_mem (List.mem_map_of_mem (f := Label.cell) h.child)
  rw [hsplit] at hdescribes hq
  exact hdescribes.delete_frame hq

theorem unlinked_lists {q : Addr} (hq : q ≠ a.list) :
    (unlinked s a d).cells.lists q = s.mem.cells.lists q := by
  rw [unlinked, listDelete_lists, if_neg hq]

theorem Place.moved_leaf (h : Place s root below a d b bd) :
    Moved s ⟨unlinked s a d, ⟨s.tree.nodes - 1, s.tree.root⟩⟩ d.node (b.tops.map Label.cell) []
      d.cell where
  siblings := by
    rw [h.row.parent d h.child, List.append_nil, ← h.rest_cells]
    exact h.row_unlinked.children ▸ h.row_unlinked.describes
  value := h.row.delete_value h.child
  children k hk := absurd hk List.not_mem_nil
  node q _ _ := rfl
  lists q hq _ := by
    rw [h.row.parent d h.child, h.row.children] at hq
    exact unlinked_lists hq
  cells q hq := h.unlinked_nodes (by rwa [List.append_nil] at hq)
  tree := rfl

theorem Place.moved_first (h : Place s root below a d b bd) (hone : bd.tops = [c]) :
    Moved s ⟨(unlinked s a d).insert a.node c.node c.cell, ⟨s.tree.nodes - 1, s.tree.root⟩⟩ d.node
      (b.tops.map Label.cell) [c.cell] d.cell := by
  have hc : c ∈ bd.tops := hone ▸ List.mem_cons_self
  have hnull : c.cell ≠ null :=
    ne_of_mem_of_not_mem (List.mem_map_of_mem hc) h.kids.describes.links.nonnull
  have hcell := h.cell_notMem hc
  have hnode : ∀ x ∈ rest b d, x.node ≠ c.node := fun x hx heq =>
    h.ne ((h.kids.parent c hc).symm.trans (heq ▸ h.row.parent x (rest_subset b d hx)))
  have hvalue : (s.mem.cells.nodes c.cell).value = c.node := h.kids.value c hc
  have hinsert := h.row_unlinked.insert hcell hnull hnode
  refine ⟨?_, fun q => ?_, fun k hk => ?_, fun q _ hq => ?_, fun q hq _ => ?_, fun q hq => ?_, rfl⟩
  · rw [h.row.parent d h.child, ← h.rest_cells, ← List.map_singleton, ← List.map_append]
    exact hinsert.children ▸ hinsert.describes
  · by_cases hq : q = c.cell
    · rw [hq, hinsert.value c (List.mem_append_right _ List.mem_cons_self), hvalue]
    · rw [insert_value h.row_unlinked hcell hnull hq]
      exact h.row.delete_value h.child q
  · obtain rfl := List.mem_singleton.mp hk
    rw [hvalue, h.row.parent d h.child, insert_node, if_pos rfl]
    rfl
  · have hqc := hq c.cell List.mem_cons_self
    rw [hvalue] at hqc
    rw [insert_node, if_neg hqc.symm]
    rfl
  · rw [h.row.parent d h.child, h.row.children] at hq
    rw [h.row_unlinked.insert_lists _ _ hq]
    exact unlinked_lists hq
  · rw [List.mem_append, not_or, List.mem_singleton] at hq
    rw [h.row_unlinked.insert_frame hcell hnull ?_ hq.2]
    · exact h.unlinked_nodes hq.1
    · exact fun hmem => hq.1 (List.map_subset _ (rest_subset b d) hmem)

theorem Place.not_losesNothing {c' : Label} (h : Place s root below a d b bd)
    (htwo : bd.tops = c :: c' :: cs) :
    ¬ LosesNothing s ⟨(unlinked s a d).insert a.node c.node c.cell,
      ⟨s.tree.nodes - 1, s.tree.root⟩⟩ d.node := by
  rintro ⟨row, kids, cell, hhangs, hmoved⟩
  have hkids : kids = bd.tops.map Label.cell := by
    have hd := hhangs.children
    have hd' := h.hangs.children
    exact hd.links.forward.unique hd'.links.forward hd.links.nonnull hd'.links.nonnull
      (hd.head.symm.trans hd'.head)
  have hc' : c' ∈ bd.tops := htwo ▸ List.mem_cons_of_mem c List.mem_cons_self
  have hvalue : (s.mem.cells.nodes c'.cell).value = c'.node := h.kids.value c' hc'
  have hnodes := h.fits.represents.row_nodup h.own
  rw [htwo, List.map_cons, List.nodup_cons] at hnodes
  have hne : c'.node ≠ c.node := fun heq => hnodes.1 (heq ▸ List.mem_cons_self)
  have hparent := congrArg TreeNode.parent
    (hmoved.children c'.cell (hkids ▸ List.mem_map_of_mem hc'))
  rw [hvalue, h.row.parent d h.child, insert_node, if_neg hne] at hparent
  exact h.ne ((h.kids.parent c' hc').symm.trans hparent)

theorem Place.losesNothing_iff (h : Place s root below a d b bd) (hfuel : 2 ^ 64 ≤ fuel) :
    ∃ s', treeRemove fuel s d.node = some s' ∧
      (LosesNothing s s' d.node ↔ bd.tops.length ≤ 1) := by
  match htops : bd.tops with
  | [] =>
    have hmoved := h.moved_leaf
    have hhangs := h.hangs
    rw [htops, List.map_nil] at hhangs
    exact ⟨_, h.remove_leaf htops hfuel, iff_of_true ⟨_, _, _, hhangs, hmoved⟩ (Nat.zero_le 1)⟩
  | [c] =>
    have hmoved := h.moved_first htops
    have hhangs := h.hangs
    rw [htops, List.map_singleton] at hhangs
    exact ⟨_, h.remove_first htops hfuel, iff_of_true ⟨_, _, _, hhangs, hmoved⟩ (Nat.le_refl 1)⟩
  | c :: c' :: cs =>
    exact ⟨_, h.remove_first htops hfuel, iff_of_false (h.not_losesNothing htops) (by simp)⟩

/-- A node of a tree that is not its root is below another one. -/
theorem exists_place (h : Fits s root below) {n : Addr} (hn : s.Reached n) (hne : n ≠ s.tree.root) :
    ∃ a d b bd, Place s root below a d b bd ∧ d.node = n := by
  obtain ⟨d, bd, hbd, rfl⟩ := h.exists_entry hn
  rcases Forest.mem_row (Forest.mem_labels_of_mem_entries hbd) with htop | ⟨e, he, hd⟩
  · obtain rfl : d = root := List.mem_singleton.mp htop
    exact absurd h.rooted.symm hne
  · exact ⟨e.1, d, e.2, bd, ⟨h, he, hd, hbd⟩, rfl⟩

/-- A node is taken out of a tree with nothing lost exactly if it has at most one child. -/
theorem tree_remove_loses_nothing_iff (h : s.Sound) {n : Addr} (hn : s.Reached n)
    (hne : n ≠ s.tree.root) (hfuel : 2 ^ 64 ≤ fuel) :
    ∃ s', treeRemove fuel s n = some s' ∧
      (LosesNothing s s' n ↔ (s.mem.cells.lists (s.mem.node n).children).length.toNat ≤ 1) := by
  obtain ⟨root, below, hfits⟩ := h.resolve_left fun hempty => hn.1 (congrArg Tree.root hempty)
  obtain ⟨a, d, b, bd, hplace, rfl⟩ := exists_place hfits hn hne
  rw [hplace.kids.children, hplace.kids.describes.length, List.length_map]
  exact hplace.losesNothing_iff hfuel

end Removal

def family : State :=
  { mem :=
      { cells :=
          { nodes := fun p =>
              if p = 22 then ⟨2, 0, 0, 11⟩
              else if p = 23 then ⟨3, 24, 0, 12⟩
              else if p = 24 then ⟨4, 0, 23, 12⟩
              else ⟨5, 0, 0, 13⟩
            lists := fun p =>
              if p = 11 then ⟨22, 22, 1⟩
              else if p = 12 then ⟨23, 24, 2⟩
              else if p = 13 then ⟨25, 25, 1⟩
              else ⟨0, 0, 0⟩ }
        node := fun p =>
          if p = 1 then ⟨7, 11, 0⟩
          else if p = 2 then ⟨8, 12, 1⟩
          else if p = 3 then ⟨9, 13, 2⟩
          else if p = 4 then ⟨10, 14, 2⟩
          else ⟨11, 15, 3⟩ }
    tree := ⟨5, 1⟩ }

def familyTree : Forest Label :=
  .cons ⟨22, 2, 12⟩ (.cons ⟨23, 3, 13⟩ (.cons ⟨25, 5, 15⟩ .nil .nil)
    (.cons ⟨24, 4, 14⟩ .nil .nil)) .nil

theorem fits_family : Fits family ⟨0, 1, 11⟩ familyTree := by
  refine ⟨⟨fun {a b} he => ?_, by decide, by decide, by decide, by decide⟩, rfl, rfl, rfl⟩
  simp only [Forest.entries_tree, familyTree, Forest.entries, List.append_nil, List.nil_append,
    List.cons_append, List.mem_cons, List.not_mem_nil, or_false, Prod.mk.injEq] at he
  rcases he with ⟨rfl, rfl⟩ | ⟨rfl, rfl⟩ | ⟨rfl, rfl⟩ | ⟨rfl, rfl⟩ | ⟨rfl, rfl⟩
  · refine ⟨rfl, ⟨rfl, rfl, rfl, ⟨by decide, by decide, ⟨rfl, trivial⟩, rfl, trivial⟩, ?_⟩,
      ?_, ?_⟩ <;> simp [Forest.tops, family]
  · refine ⟨rfl, ⟨rfl, rfl, rfl, ⟨by decide, by decide, ⟨rfl, rfl, trivial⟩, rfl, rfl, trivial⟩,
      ?_⟩, ?_, ?_⟩ <;> simp [Forest.tops, family]
  · refine ⟨rfl, ⟨rfl, rfl, rfl, ⟨by decide, by decide, ⟨rfl, trivial⟩, rfl, trivial⟩, ?_⟩,
      ?_, ?_⟩ <;> simp [Forest.tops, family]
  · refine ⟨rfl, ⟨rfl, rfl, rfl, Linked.nil, ?_⟩, ?_, ?_⟩ <;> simp [Forest.tops]
  · refine ⟨rfl, ⟨rfl, rfl, rfl, Linked.nil, ?_⟩, ?_, ?_⟩ <;> simp [Forest.tops]

/-- The node with one child: the child is handed to the parent. -/
theorem tree_remove_loses_nothing_only_child :
    ∃ s', treeRemove (2 ^ 64) family 3 = some s' ∧ LosesNothing family s' 3 := by
  have hreached : family.Reached 3 := fits_family.reached.mpr (by decide)
  obtain ⟨s', hcall, hiff⟩ := tree_remove_loses_nothing_iff (Or.inr ⟨_, _, fits_family⟩) hreached
    (by decide) (Nat.le_refl _)
  exact ⟨s', hcall, hiff.mpr (by decide)⟩

/-- The node with two children: the second is lost. -/
theorem second_child_lost :
    family.Sound ∧ family.Reached 2 ∧ family.tree.root ≠ 2 ∧
      ∃ s', treeRemove (2 ^ 64) family 2 = some s' ∧ ¬ LosesNothing family s' 2 := by
  have hplace : Place family ⟨0, 1, 11⟩ familyTree ⟨0, 1, 11⟩ ⟨22, 2, 12⟩ familyTree
      (.cons ⟨23, 3, 13⟩ (.cons ⟨25, 5, 15⟩ .nil .nil) (.cons ⟨24, 4, 14⟩ .nil .nil)) :=
    ⟨fits_family, Forest.mem_entries_tree _ _, List.mem_cons_self,
      List.mem_cons_of_mem _ List.mem_cons_self⟩
  obtain ⟨s', hcall, hiff⟩ := hplace.losesNothing_iff (Nat.le_refl _)
  exact ⟨Or.inr ⟨_, _, fits_family⟩, fits_family.reached.mpr (by decide), by decide, s', hcall,
    fun hall => absurd (hiff.mp hall) (by decide)⟩

end ReduceOS.TreeRemoval
