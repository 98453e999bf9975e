import ReduceOS.KernelList
import ReduceOS.OrderedForest
import Mathlib.Data.Set.Card

/-!
The trees of `tree.c` in memory: tree nodes, each with a list of its children. What a tree is for is
kept beside it as a forest, which every call changes as it changes the memory; the memory of the
kernel outside of the tree may change between the calls.
-/
namespace ReduceOS.KernelTree

open Machine LinkedSequence KernelList OrderedForest

structure TreeNode where
  value : Addr
  children : Addr
  parent : Addr

structure Memory where
  cells : KernelList.State
  node : Addr → TreeNode

structure Tree where
  nodes : BitVec 64
  root : Addr

structure State where
  mem : Memory
  tree : Tree

section Source

def Memory.setNode (m : Memory) (p : Addr) (f : TreeNode → TreeNode) : Memory :=
  { m with node := Function.update m.node p (f (m.node p)) }

def treeCreate (m : Memory) : State := ⟨m, ⟨0, null⟩⟩

/-- `tree_create_node`, with the addresses that `kmalloc` returns. -/
def treeCreateNode (m : Memory) (value node list : Addr) : Memory :=
  ⟨listCreate m.cells list, Function.update m.node node ⟨value, list, null⟩⟩

def treeSetParent (s : State) (value node list : Addr) : State :=
  ⟨treeCreateNode s.mem value node list, ⟨1, node⟩⟩

/-- The loop of `tree_count_children`, with its call for each child written out. -/
def countFrom (m : Memory) : ℕ → Addr → Option (BitVec 64)
  | 0, _ => none
  | fuel + 1, child =>
    if child = null then some 0
    else do
      let node := (m.cells.nodes child).value
      let below ←
        if node = null ∨ (m.node node).children = null then some 0
        else do
          let list := m.cells.lists (m.node node).children
          let deeper ← countFrom m fuel list.head
          some (list.length + deeper)
      let rest ← countFrom m fuel (m.cells.nodes child).next
      some (below + rest)

def treeCountChildren (fuel : ℕ) (m : Memory) (node : Addr) : Option (BitVec 64) :=
  if node = null ∨ (m.node node).children = null then some 0
  else do
    let list := m.cells.lists (m.node node).children
    let deeper ← countFrom m fuel list.head
    some (list.length + deeper)

/-- `tree_insert_child_node`: the node gets its parent and a place among its children. -/
def Memory.insert (m : Memory) (parent node cell : Addr) : Memory :=
  let m := m.setNode node ({ · with parent := parent })
  { m with cells := listAppend m.cells (m.node parent).children node cell }

def treeInsertChildNode (fuel : ℕ) (s : State) (parent node cell : Addr) : Option State := do
  let below ← treeCountChildren fuel s.mem node
  some ⟨s.mem.insert parent node cell, ⟨s.tree.nodes + 1 + below, s.tree.root⟩⟩

def treeInsertChild (fuel : ℕ) (s : State) (parent value node list cell : Addr) : Option State :=
  treeInsertChildNode fuel ⟨treeCreateNode s.mem value node list, s.tree⟩ parent node cell

/-- The loop of `tree_node_free`, with its call for each child written out: the nodes that it
frees, in order. -/
def freeFrom (m : Memory) : ℕ → Addr → Option (List Addr)
  | 0, _ => none
  | fuel + 1, child =>
    if child = null then some []
    else do
      let node := (m.cells.nodes child).value
      let below ←
        if node = null then some []
        else do
          let freed ← freeFrom m fuel (m.cells.lists (m.node node).children).head
          some (freed ++ [node])
      let rest ← freeFrom m fuel (m.cells.nodes child).next
      some (below ++ rest)

def treeNodeFree (fuel : ℕ) (m : Memory) (node : Addr) : Option (List Addr) :=
  if node = null then some []
  else do
    let freed ← freeFrom m fuel (m.cells.lists (m.node node).children).head
    some (freed ++ [node])

def treeDelete (fuel : ℕ) (s : State) (node : Addr) : Option (State × List Addr) :=
  let parent := (s.mem.node node).parent
  if parent = null then
    if node = s.tree.root then do
      let freed ← treeNodeFree fuel s.mem node
      some (⟨s.mem, ⟨0, null⟩⟩, freed)
    else some (s, [])
  else do
    let below ← treeCountChildren fuel s.mem node
    let list := (s.mem.node parent).children
    let cell ← listFind fuel s.mem.cells list node
    if cell = null then none
    else do
      let m := { s.mem with cells := listDelete s.mem.cells list cell }
      let freed ← treeNodeFree fuel m node
      some (⟨m, ⟨s.tree.nodes - 1 - below, s.tree.root⟩⟩, freed)

/-- The loop of `tree_find_node`, with its call for each child written out. -/
def findFrom (m : Memory) (comparator : Addr → Addr → Bool) (search : Addr) :
    ℕ → Addr → Option Addr
  | 0, _ => none
  | fuel + 1, child =>
    if child = null then some null
    else do
      let node := (m.cells.nodes child).value
      let found ←
        if comparator (m.node node).value search then some node
        else findFrom m comparator search fuel (m.cells.lists (m.node node).children).head
      if found ≠ null then some found
      else findFrom m comparator search fuel (m.cells.nodes child).next

def treeFindNode (fuel : ℕ) (m : Memory) (node : Addr) (search : Addr)
    (comparator : Addr → Addr → Bool) : Option Addr :=
  if comparator (m.node node).value search then some node
  else findFrom m comparator search fuel (m.cells.lists (m.node node).children).head

def treeFind (fuel : ℕ) (s : State) (value : Addr) (comparator : Addr → Addr → Bool) :
    Option Addr :=
  treeFindNode fuel s.mem s.tree.root value comparator

end Source

structure Label where
  cell : Addr
  node : Addr
  list : Addr
  deriving DecidableEq

structure Row (m : Memory) (a : Label) (row : List Label) : Prop where
  children : (m.node a.node).children = a.list
  describes : Describes m.cells a.list (row.map Label.cell)
  value : ∀ c ∈ row, (m.cells.nodes c.cell).value = c.node
  parent : ∀ c ∈ row, (m.node c.node).parent = a.node

structure Represents (m : Memory) (f : Forest Label) : Prop where
  rows : ∀ {a b}, (a, b) ∈ f.entries → Row m a b.tops
  nodes : (f.labels.map Label.node).Nodup
  lists : (f.labels.map Label.list).Nodup
  node_ne : ∀ a ∈ f.labels, a.node ≠ null
  list_ne : ∀ a ∈ f.labels, a.list ≠ null

section Walks

variable {m : Memory} {a : Label} {b f : Forest Label} {row : List Label} {fuel : ℕ}

theorem Represents.below (h : Represents m f) (hab : (a, b) ∈ f.entries) : Represents m b where
  rows he := h.rows (Forest.entries_subset hab he)
  nodes := ((Forest.below_sublist_labels hab).map Label.node).nodup h.nodes
  lists := ((Forest.below_sublist_labels hab).map Label.list).nodup h.lists
  node_ne x hx := h.node_ne x (Forest.labels_subset hab hx)
  list_ne x hx := h.list_ne x (Forest.labels_subset hab hx)

theorem Represents.length_lt (h : Represents m f) : f.labels.length < 2 ^ 64 := by
  have hnull : null ∉ f.labels.map Label.node := fun hmem => by
    obtain ⟨a, ha, hnode⟩ := List.mem_map.mp hmem
    exact h.node_ne a ha hnode
  have hlt := length_lt_of_nodup h.nodes hnull
  rwa [List.length_map] at hlt

theorem Row.length (h : Row m a row) :
    (m.cells.lists a.list).length = BitVec.ofNat 64 row.length := by
  have hlength := h.describes.length
  rw [List.length_map] at hlength
  rw [← hlength, BitVec.ofNat_toNat, BitVec.setWidth_eq]

structure Linked (m : Memory) (f : Forest Label) : Prop where
  rows : ∀ {a b}, (a, b) ∈ f.entries → Row m a b.tops
  follows : Follows null (fun n => (m.cells.nodes n).next) (f.tops.map Label.cell)
  cell_ne : null ∉ f.tops.map Label.cell
  value : ∀ c ∈ f.tops, (m.cells.nodes c.cell).value = c.node
  node_ne : ∀ a ∈ f.labels, a.node ≠ null
  list_ne : ∀ a ∈ f.labels, a.list ≠ null

theorem Represents.linked (h : Represents m f) (hab : (a, b) ∈ f.entries) : Linked m b where
  rows he := h.rows (Forest.entries_subset hab he)
  follows := (h.rows hab).describes.links.forward
  cell_ne := (h.rows hab).describes.links.nonnull
  value := (h.rows hab).value
  node_ne x hx := h.node_ne x (Forest.labels_subset hab hx)
  list_ne x hx := h.list_ne x (Forest.labels_subset hab hx)

/-- The parts of a row: its first list node, what is below it and the rest. -/
theorem Linked.cons {below after : Forest Label} (h : Linked m (.cons a below after)) :
    a.cell ≠ null ∧ (m.cells.nodes a.cell).value = a.node ∧ a.node ≠ null ∧ a.list ≠ null ∧
      Row m a below.tops ∧ (m.cells.nodes a.cell).next = headOr null (after.tops.map Label.cell) ∧
      Linked m below ∧ Linked m after := by
  have hrow : Row m a below.tops := h.rows List.mem_cons_self
  have hcell := h.cell_ne
  rw [Forest.tops, List.map_cons, List.mem_cons, not_or] at hcell
  refine ⟨Ne.symm hcell.1, h.value a List.mem_cons_self, h.node_ne a List.mem_cons_self,
    h.list_ne a List.mem_cons_self, hrow, h.follows.1, ?_, ?_⟩
  · exact ⟨fun he => h.rows (List.mem_cons_of_mem _ (List.mem_append_left _ he)),
      hrow.describes.links.forward, hrow.describes.links.nonnull, hrow.value,
      fun x hx => h.node_ne x (List.mem_cons_of_mem _ (List.mem_append_left _ hx)),
      fun x hx => h.list_ne x (List.mem_cons_of_mem _ (List.mem_append_left _ hx))⟩
  · exact ⟨fun he => h.rows (List.mem_cons_of_mem _ (List.mem_append_right _ he)), h.follows.2,
      hcell.2, fun c hc => h.value c (List.mem_cons_of_mem a hc),
      fun x hx => h.node_ne x (List.mem_cons_of_mem _ (List.mem_append_right _ hx)),
      fun x hx => h.list_ne x (List.mem_cons_of_mem _ (List.mem_append_right _ hx))⟩

theorem countFrom_eq (h : Linked m f) (hfuel : f.labels.length < fuel) :
    countFrom m fuel (headOr null (f.tops.map Label.cell)) = some (BitVec.ofNat 64 f.deep) := by
  induction f generalizing fuel with
  | nil =>
    obtain ⟨fuel, rfl⟩ := Nat.exists_eq_add_one_of_ne_zero (by omega : fuel ≠ 0)
    simp [countFrom, Forest.tops, Forest.deep]
  | cons a below after ihb iha =>
    obtain ⟨fuel, rfl⟩ := Nat.exists_eq_add_one_of_ne_zero (by omega : fuel ≠ 0)
    obtain ⟨hcell, hvalue, hnode, hlist, hrow, hnext, hbelow, hafter⟩ := h.cons
    rw [Forest.labels, List.length_cons, List.length_append] at hfuel
    have hb := ihb hbelow (by omega : below.labels.length < fuel)
    have ha := iha hafter (by omega : after.labels.length < fuel)
    have hsome : ¬ (a.node = null ∨ a.list = null) := not_or.mpr ⟨hnode, hlist⟩
    rw [Forest.tops, List.map_cons, headOr_cons, countFrom, if_neg hcell]
    simp only [hvalue, hrow.children, if_neg hsome, hrow.describes.head, hb, hnext, ha, hrow.length,
      Option.bind_eq_bind, Option.bind_some]
    rw [Forest.deep, Forest.length_labels, BitVec.ofNat_add, BitVec.ofNat_add]

/-- `tree_count_children` gives the number of nodes below one. -/
theorem Represents.count (h : Represents m f) (hab : (a, b) ∈ f.entries) (hfuel : 2 ^ 64 ≤ fuel) :
    treeCountChildren fuel m a.node = some (BitVec.ofNat 64 b.labels.length) := by
  have hrow := h.rows hab
  have ha := Forest.mem_labels_of_mem_entries hab
  have hsome : ¬ (a.node = null ∨ a.list = null) :=
    not_or.mpr ⟨h.node_ne a ha, h.list_ne a ha⟩
  have hdeep := countFrom_eq (h.linked hab) ((h.below hab).length_lt.trans_le hfuel)
  rw [treeCountChildren, hrow.children, if_neg hsome]
  simp only [hrow.describes.head, hrow.length, hdeep, Option.bind_eq_bind, Option.bind_some]
  rw [Forest.length_labels, BitVec.ofNat_add]

def postorder : Forest Label → List Addr
  | .nil => []
  | .cons a below after => postorder below ++ [a.node] ++ postorder after

theorem freeFrom_eq (h : Linked m f) (hfuel : f.labels.length < fuel) :
    freeFrom m fuel (headOr null (f.tops.map Label.cell)) = some (postorder f) := by
  induction f generalizing fuel with
  | nil =>
    obtain ⟨fuel, rfl⟩ := Nat.exists_eq_add_one_of_ne_zero (by omega : fuel ≠ 0)
    simp [freeFrom, Forest.tops, postorder]
  | cons a below after ihb iha =>
    obtain ⟨fuel, rfl⟩ := Nat.exists_eq_add_one_of_ne_zero (by omega : fuel ≠ 0)
    obtain ⟨hcell, hvalue, hnode, hlist, hrow, hnext, hbelow, hafter⟩ := h.cons
    rw [Forest.labels, List.length_cons, List.length_append] at hfuel
    have hb := ihb hbelow (by omega : below.labels.length < fuel)
    have ha := iha hafter (by omega : after.labels.length < fuel)
    rw [Forest.tops, List.map_cons, headOr_cons, freeFrom, if_neg hcell]
    simp only [hvalue, if_neg hnode, hrow.children, hrow.describes.head, hb, hnext, ha,
      Option.bind_eq_bind, Option.bind_some]
    rfl

theorem Represents.free (h : Represents m f) (hab : (a, b) ∈ f.entries) (hfuel : 2 ^ 64 ≤ fuel) :
    treeNodeFree fuel m a.node = some (postorder b ++ [a.node]) := by
  have hrow := h.rows hab
  have hfree := freeFrom_eq (h.linked hab) ((h.below hab).length_lt.trans_le hfuel)
  rw [treeNodeFree, if_neg (h.node_ne a (Forest.mem_labels_of_mem_entries hab))]
  simp only [hrow.children, hrow.describes.head, hfree, Option.bind_eq_bind, Option.bind_some]

variable {comparator : Addr → Addr → Bool} {search : Addr}

theorem findFrom_eq (h : Linked m f) (hfuel : f.labels.length < fuel) :
    findFrom m comparator search fuel (headOr null (f.tops.map Label.cell)) =
      some (((f.labels.find? fun a => comparator (m.node a.node).value search).map
        Label.node).getD null) := by
  induction f generalizing fuel with
  | nil =>
    obtain ⟨fuel, rfl⟩ := Nat.exists_eq_add_one_of_ne_zero (by omega : fuel ≠ 0)
    simp [findFrom, Forest.tops, Forest.labels]
  | cons a below after ihb iha =>
    obtain ⟨fuel, rfl⟩ := Nat.exists_eq_add_one_of_ne_zero (by omega : fuel ≠ 0)
    obtain ⟨hcell, hvalue, hnode, hlist, hrow, hnext, hbelow, hafter⟩ := h.cons
    rw [Forest.labels, List.length_cons, List.length_append] at hfuel
    have hb := ihb hbelow (by omega : below.labels.length < fuel)
    have ha := iha hafter (by omega : after.labels.length < fuel)
    rw [Forest.tops, List.map_cons, headOr_cons, findFrom, if_neg hcell, Forest.labels,
      List.find?_cons]
    simp only [hvalue, hrow.children, hrow.describes.head, hb, hnext, ha, Option.bind_eq_bind]
    cases hmatch : comparator (m.node a.node).value search with
    | true => simp [hnode]
    | false =>
      rw [List.find?_append]
      cases hfound : below.labels.find? fun a => comparator (m.node a.node).value search with
      | none => simp
      | some x =>
        have hx := hbelow.node_ne x (List.mem_of_find?_eq_some hfound)
        simp [hx]

/-- `tree_find_node` gives the first node that matches. -/
theorem Represents.find (h : Represents m f) (hab : (a, b) ∈ f.entries) (hfuel : 2 ^ 64 ≤ fuel) :
    treeFindNode fuel m a.node search comparator =
      some ((((a :: b.labels).find? fun a => comparator (m.node a.node).value search).map
        Label.node).getD null) := by
  have hrow := h.rows hab
  rw [treeFindNode, hrow.children, hrow.describes.head,
    findFrom_eq (h.linked hab) ((h.below hab).length_lt.trans_le hfuel), List.find?_cons]
  cases comparator (m.node a.node).value search <;> simp

end Walks

section Changes

variable {m m' : Memory} {a c d x y : Label} {b f sub : Forest Label} {row row' : List Label}

theorem Row.congr (h : Row m a row)
    (hchildren : (m'.node a.node).children = (m.node a.node).children)
    (hlist : m'.cells.lists a.list = m.cells.lists a.list)
    (hcells : ∀ c ∈ row, m'.cells.nodes c.cell = m.cells.nodes c.cell)
    (hparent : ∀ c ∈ row, (m'.node c.node).parent = (m.node c.node).parent) : Row m' a row where
  children := hchildren.trans h.children
  describes := by
    refine h.describes.congr hlist fun n hn => ?_
    obtain ⟨c, hc, rfl⟩ := List.mem_map.mp hn
    exact hcells c hc
  value c hc := by rw [hcells c hc, h.value c hc]
  parent c hc := by rw [hparent c hc, h.parent c hc]

theorem Row.cell_notMem (h : Row m a row) (h' : Row m x row') (hne : a.list ≠ x.list)
    (hc : c ∈ row) : c.cell ∉ row'.map Label.cell := fun hmem =>
  hne ((h.describes.owner _ (List.mem_map_of_mem hc)).symm.trans (h'.describes.owner _ hmem))

/-- Labels put together from two parts have no duplicates if neither has and they share none. -/
theorem nodup_map_iff {g : Label → Addr} {l l₁ l₂ : List Label} (hperm : l.Perm (l₁ ++ l₂)) :
    (l.map g).Nodup ↔
      (l₁.map g).Nodup ∧ (l₂.map g).Nodup ∧ ∀ x ∈ l₁, ∀ y ∈ l₂, g x ≠ g y := by
  rw [(hperm.map g).nodup_iff, List.map_append, List.nodup_append]
  simp only [List.forall_mem_map]

theorem Represents.eq_of_node (h : Represents m f) (hx : x ∈ f.labels) (hy : y ∈ f.labels)
    (hnode : x.node = y.node) : x = y :=
  List.inj_on_of_nodup_map h.nodes hx hy hnode

theorem Represents.list_ne_of_ne (h : Represents m f) (hx : x ∈ f.labels) (hy : y ∈ f.labels)
    (hne : x.node ≠ y.node) : x.list ≠ y.list := fun hlist =>
  hne (congrArg Label.node (List.inj_on_of_nodup_map h.lists hx hy hlist))

theorem Represents.entry_eq (h : Represents m f) {b' : Forest Label} (hx : (x, b) ∈ f.entries)
    (hy : (y, b') ∈ f.entries) (hnode : x.node = y.node) : x = y ∧ b = b' := by
  have hxy := h.eq_of_node (Forest.mem_labels_of_mem_entries hx)
    (Forest.mem_labels_of_mem_entries hy) hnode
  subst hxy
  exact ⟨rfl, Forest.entry_unique h.nodes.of_map hx hy⟩

theorem Represents.entry_below (h : Represents m f) (hab : (a, b) ∈ f.entries) (hd : d ∈ b.tops)
    {bd : Forest Label} (hbd : (d, bd) ∈ f.entries) : (d, bd) ∈ b.entries := by
  obtain ⟨bd', hbd'⟩ := Forest.exists_entry (b.tops_subset_labels hd)
  obtain ⟨-, rfl⟩ := h.entry_eq hbd (Forest.entries_subset hab hbd') rfl
  exact hbd'

theorem Represents.countP_node (h : Represents m f) (hx : x ∈ f.labels) :
    f.labels.countP (·.node = x.node) = 1 := by
  have hcount := List.count_eq_one_of_mem h.nodes (List.mem_map_of_mem hx)
  rwa [List.count, List.countP_map] at hcount

theorem Represents.row_nodup (h : Represents m f) (hab : (a, b) ∈ f.entries) :
    (b.tops.map Label.node).Nodup :=
  (b.tops_sublist_labels.map Label.node).nodup (h.below hab).nodes

theorem Represents.subtree (h : Represents m f) (hab : (a, b) ∈ f.entries) :
    Represents m (.tree a b) := by
  have hlabels := Forest.sublist_labels hab
  exact ⟨fun he => h.rows (Forest.entries_tree_subset hab he),
    (hlabels.map Label.node).nodup h.nodes, (hlabels.map Label.list).nodup h.lists,
    fun x hx => h.node_ne x (hlabels.subset hx), fun x hx => h.list_ne x (hlabels.subset hx)⟩

theorem Represents.root_notMem (h : Represents m (.tree a b)) :
    a.node ∉ b.labels.map Label.node := by
  have hnodes := h.nodes
  rw [Forest.labels_tree, List.map_cons, List.nodup_cons] at hnodes
  exact hnodes.1

theorem insert_node (m : Memory) (parent node cell q : Addr) :
    (m.insert parent node cell).node q =
      if q = node then { m.node node with parent := parent } else m.node q := by
  simp [Memory.insert, Memory.setNode, Function.update_apply]

theorem insert_children (m : Memory) (parent node cell q : Addr) :
    ((m.insert parent node cell).node q).children = (m.node q).children := by
  rw [insert_node]
  split_ifs with hq
  · rw [hq]
  · rfl

theorem Row.insert_cells (h : Row m a row) (node cell : Addr) :
    (m.insert a.node node cell).cells = listAppend m.cells a.list node cell := by
  have hchildren : ((m.setNode node ({ · with parent := a.node })).node a.node).children =
      a.list := (insert_children m a.node node cell a.node).trans h.children
  rw [Memory.insert, hchildren]
  rfl

/-- Before its new node is appended, a row still has its list. -/
theorem Row.describes_setNode (h : Row m a row) (hcell : c.cell ∉ row.map Label.cell) (v : Addr) :
    Describes (m.cells.setNode c.cell ({ · with value := v })) a.list (row.map Label.cell) :=
  h.describes.congr rfl fun n hn => by rw [setNode_nodes, if_neg (ne_of_mem_of_not_mem hn hcell)]

theorem Row.cell_ne_tail (h : Row m a row) (hcell : c.cell ∉ row.map Label.cell)
    (hnull : c.cell ≠ null) (v : Addr) :
    c.cell ≠ ((m.cells.setNode c.cell ({ · with value := v })).lists a.list).tail := by
  rw [(h.describes_setNode hcell v).tail]
  exact ne_lastOr hcell hnull

theorem Row.insert_frame (h : Row m a row) (hcell : c.cell ∉ row.map Label.cell)
    (hnull : c.cell ≠ null) {q : Addr} (hq : q ∉ row.map Label.cell) (hne : q ≠ c.cell) :
    (m.insert a.node c.node c.cell).cells.nodes q = m.cells.nodes q := by
  rw [h.insert_cells, listAppend,
    (h.describes_setNode hcell c.node).append_frame hcell hnull hq hne, setNode_nodes, if_neg hne]

theorem Row.insert_lists (h : Row m a row) (node cell : Addr) {q : Addr} (hq : q ≠ a.list) :
    (m.insert a.node node cell).cells.lists q = m.cells.lists q := by
  rw [h.insert_cells, listAppend, listAppendNode_lists, if_neg hq, setNode_lists]

theorem Row.insert (h : Row m a row) (hcell : c.cell ∉ row.map Label.cell) (hnull : c.cell ≠ null)
    (hnode : ∀ x ∈ row, x.node ≠ c.node) :
    Row (m.insert a.node c.node c.cell) a (row ++ [c]) := by
  have hdescribes := (h.describes_setNode hcell c.node).append hcell hnull
  have hne := h.cell_ne_tail hcell hnull c.node
  refine ⟨(insert_children m _ _ _ _).trans h.children, ?_, fun x hx => ?_, fun x hx => ?_⟩
  · rw [h.insert_cells, List.map_append]
    exact hdescribes
  · rcases List.mem_append.mp hx with hx | hx
    · have hmem : x.cell ∈ row.map Label.cell := List.mem_map_of_mem hx
      rw [h.insert_cells, listAppend, listAppendNode_nodes hne,
        if_neg (ne_of_mem_of_not_mem hmem hcell), setNode_nodes,
        if_neg (ne_of_mem_of_not_mem hmem hcell)]
      split_ifs <;> exact h.value x hx
    · obtain rfl := List.mem_singleton.mp hx
      rw [h.insert_cells, listAppend, listAppendNode_nodes hne, if_pos rfl, setNode_nodes,
        if_pos rfl]
  · rw [insert_node]
    rcases List.mem_append.mp hx with hx | hx
    · rw [if_neg (hnode x hx)]
      exact h.parent x hx
    · obtain rfl := List.mem_singleton.mp hx
      rw [if_pos rfl]

/-- The rows that do not get the new list node are as they were. -/
theorem Row.insert_other (h : Row m a row) (hcell : c.cell ∉ row.map Label.cell)
    (hnull : c.cell ≠ null) (hx : Row m x row') (hne : x.list ≠ a.list)
    (hcells : c.cell ∉ row'.map Label.cell) (hnodes : ∀ z ∈ row', z.node ≠ c.node) :
    Row (m.insert a.node c.node c.cell) x row' := by
  refine hx.congr (insert_children m _ _ _ _) (h.insert_lists _ _ hne) (fun z hz => ?_)
    fun z hz => ?_
  · have hz' : z.cell ∈ row'.map Label.cell := List.mem_map_of_mem hz
    exact h.insert_frame hcell hnull (hx.cell_notMem h hne hz) (ne_of_mem_of_not_mem hz' hcells)
  · rw [insert_node, if_neg (hnodes z hz)]

theorem Represents.insert (h : Represents m f) (hsub : Represents m (.tree c sub))
    (hab : (a, b) ∈ f.entries)
    (hnodes : ∀ x ∈ f.labels, ∀ y ∈ (Forest.tree c sub).labels, x.node ≠ y.node)
    (hlists : ∀ x ∈ f.labels, ∀ y ∈ (Forest.tree c sub).labels, x.list ≠ y.list)
    (hnull : c.cell ≠ null)
    (hcell : ∀ e ∈ f.entries ++ (Forest.tree c sub).entries, c.cell ∉ e.2.tops.map Label.cell) :
    Represents (m.insert a.node c.node c.cell) (Forest.attach (·.node = a.node) c sub f) := by
  have ha := Forest.mem_labels_of_mem_entries hab
  have hrow := h.rows hab
  have hfresh := hcell (a, b) (List.mem_append_left _ hab)
  have hperm : (Forest.attach (·.node = a.node) c sub f).labels.Perm
      (f.labels ++ (Forest.tree c sub).labels) := Forest.labels_attach (h.countP_node ha)
  refine ⟨fun {x y} he => ?_, ?_, ?_, fun x hx => ?_, fun x hx => ?_⟩
  · rcases Forest.mem_entries_attach he with hnew | ⟨z, b', hz, heq⟩
    · have hx := Forest.mem_labels_of_mem_entries hnew
      refine hrow.insert_other hfresh hnull (hsub.rows hnew) (hlists a ha x hx).symm
        (hcell _ (List.mem_append_right _ hnew)) fun z hz => ?_
      have hz : z.node ∈ sub.labels.map Label.node :=
        List.mem_map_of_mem (Forest.tops_subset_below hnew hz)
      exact ne_of_mem_of_not_mem hz hsub.root_notMem
    · obtain ⟨rfl, rfl⟩ := Prod.mk.inj heq
      have hx := Forest.mem_labels_of_mem_entries hz
      have hparents : ∀ w ∈ b'.tops, w.node ≠ c.node := fun w hw =>
        hnodes w (Forest.labels_subset hz (b'.tops_subset_labels hw)) c
          (Forest.mem_labels_tree c sub)
      rw [Forest.tops_grown]
      by_cases hxa : x.node = a.node
      · obtain ⟨rfl, rfl⟩ := h.entry_eq hz hab hxa
        rw [decide_eq_true hxa, if_pos rfl]
        exact hrow.insert hfresh hnull hparents
      · rw [decide_eq_false hxa, if_neg Bool.false_ne_true, List.append_nil]
        exact hrow.insert_other hfresh hnull (h.rows hz) (h.list_ne_of_ne hx ha hxa)
          (hcell _ (List.mem_append_left _ hz)) hparents
  · exact (nodup_map_iff hperm).mpr ⟨h.nodes, hsub.nodes, hnodes⟩
  · exact (nodup_map_iff hperm).mpr ⟨h.lists, hsub.lists, hlists⟩
  · rcases List.mem_append.mp (hperm.mem_iff.mp hx) with hx | hx
    · exact h.node_ne x hx
    · exact hsub.node_ne x hx
  · rcases List.mem_append.mp (hperm.mem_iff.mp hx) with hx | hx
    · exact h.list_ne x hx
    · exact hsub.list_ne x hx

/-- `list_find` gives the list node that a child hangs on. -/
theorem Row.find (h : Row m a row) (hnd : (row.map Label.node).Nodup) (hd : d ∈ row) {fuel : ℕ}
    (hfuel : 2 ^ 64 ≤ fuel) : listFind fuel m.cells a.list d.node = some d.cell := by
  obtain ⟨xs, ys, rfl⟩ := List.append_of_mem hd
  have hxs : ∀ x ∈ xs, (m.cells.nodes x.cell).value ≠ d.node := by
    intro x hx hvalue
    rw [h.value x (List.mem_append_left _ hx)] at hvalue
    rw [List.map_append, List.nodup_append] at hnd
    exact hnd.2.2 _ (List.mem_map_of_mem hx) _ List.mem_cons_self hvalue
  rw [h.describes.find hfuel, List.map_append, List.find?_append, List.find?_eq_none.mpr]
  · simp [h.value d hd]
  · simpa using hxs

theorem filter_node {xs ys : List Label} (hnd : ((xs ++ d :: ys).map Label.node).Nodup) :
    (xs ++ d :: ys).filter (fun x => !decide (x.node = d.node)) = xs ++ ys := by
  rw [List.map_append, List.map_cons] at hnd
  obtain ⟨-, hcons, hdisj⟩ := List.nodup_append.mp hnd
  have hxs : ∀ x ∈ xs, x.node ≠ d.node := fun x hx =>
    hdisj _ (List.mem_map_of_mem hx) _ List.mem_cons_self
  have hys : ∀ y ∈ ys, y.node ≠ d.node := fun y hy =>
    ne_of_mem_of_not_mem (List.mem_map_of_mem hy) (List.nodup_cons.mp hcons).1
  rw [List.filter_append, List.filter_cons_of_neg (by simp), List.filter_eq_self.mpr,
    List.filter_eq_self.mpr]
  · simpa using hys
  · simpa using hxs

theorem Row.delete_value (h : Row m a row) (hd : d ∈ row) (q : Addr) :
    ((listDelete m.cells a.list d.cell).nodes q).value = (m.cells.nodes q).value := by
  obtain ⟨xs, ys, rfl⟩ := List.append_of_mem hd
  have hdescribes := h.describes
  rw [List.map_append, List.map_cons] at hdescribes
  rw [listDelete_nodes hdescribes.next_ne]
  by_cases hq : q = d.cell
  · rw [if_pos hq, hq]
  · rw [if_neg hq]

theorem Row.delete (h : Row m a row) (hnd : (row.map Label.node).Nodup) (hd : d ∈ row) :
    Row { m with cells := listDelete m.cells a.list d.cell } a
      (row.filter fun x => !decide (x.node = d.node)) := by
  have hold : row.filter (fun x => !decide (x.node = d.node)) ⊆ row := List.filter_sublist.subset
  refine ⟨h.children, ?_, fun x hx => ?_, fun x hx => h.parent x (hold hx)⟩
  · obtain ⟨xs, ys, rfl⟩ := List.append_of_mem hd
    have hdescribes := h.describes
    rw [List.map_append, List.map_cons] at hdescribes
    rw [filter_node hnd, List.map_append]
    exact hdescribes.delete
  · rw [h.delete_value hd, h.value x (hold hx)]

/-- The rows that the node is not in are as they were. -/
theorem Represents.delete_row (h : Represents m f) (hab : (a, b) ∈ f.entries) (hd : d ∈ b.tops)
    {b' : Forest Label} (hx : (x, b') ∈ f.entries) (hne : x.node ≠ a.node) :
    Row { m with cells := listDelete m.cells a.list d.cell } x b'.tops := by
  have hlist := h.list_ne_of_ne (Forest.mem_labels_of_mem_entries hx)
    (Forest.mem_labels_of_mem_entries hab) hne
  have hdescribes := (h.rows hab).describes
  obtain ⟨xs, ys, hsplit⟩ := List.append_of_mem (List.mem_map_of_mem (f := Label.cell) hd)
  rw [hsplit] at hdescribes
  refine (h.rows hx).congr rfl ?_ (fun z hz => ?_) fun _ _ => rfl
  · rw [listDelete_lists, if_neg hlist]
  · have hmem := (h.rows hx).cell_notMem (h.rows hab) hlist hz
    exact hdescribes.delete_frame (hsplit ▸ hmem)

/-- A node is taken out of a row, with all that is below it. -/
theorem Represents.delete (h : Represents m f) (hab : (a, b) ∈ f.entries) (hd : d ∈ b.tops) :
    Represents { m with cells := listDelete m.cells a.list d.cell }
      (Forest.erase (·.node = d.node) f) := by
  have ha := Forest.mem_labels_of_mem_entries hab
  have hrow := h.rows hab
  have hdf : d ∈ f.labels := Forest.labels_subset hab (b.tops_subset_labels hd)
  obtain ⟨bd, hbd⟩ := Forest.exists_entry hdf
  have hperm : f.labels.Perm
      ((Forest.erase (·.node = d.node) f).labels ++ (Forest.tree d bd).labels) :=
    Forest.labels_erase (h.countP_node hdf) (decide_eq_true rfl) hbd
  have hold : (Forest.erase (·.node = d.node) f).labels ⊆ f.labels := fun x hx =>
    hperm.mem_iff.mpr (List.mem_append_left _ hx)
  refine ⟨fun {x y} he => ?_, ?_, ?_, fun x hx => h.node_ne x (hold hx),
    fun x hx => h.list_ne x (hold hx)⟩
  · obtain ⟨z, b', hz, hzd, heq⟩ := Forest.mem_entries_erase he
    obtain ⟨rfl, rfl⟩ := Prod.mk.inj heq
    rw [Forest.tops_erase]
    by_cases hxa : x.node = a.node
    · obtain ⟨rfl, rfl⟩ := h.entry_eq hz hab hxa
      exact hrow.delete (h.row_nodup hab) hd
    · have hself : b'.tops.filter (fun w => !decide (w.node = d.node)) = b'.tops := by
        refine List.filter_eq_self.mpr fun w hw => ?_
        have hwd : w.node ≠ d.node := fun heq =>
          hxa (((h.rows hz).parent w hw).symm.trans (heq ▸ hrow.parent d hd))
        simpa using hwd
      rw [hself]
      exact h.delete_row hab hd hz hxa
  · exact ((nodup_map_iff hperm).mp h.nodes).1
  · exact ((nodup_map_iff hperm).mp h.lists).1

/-- What is below the node stays in memory until it is freed. -/
theorem Represents.delete_subtree (h : Represents m f) (hab : (a, b) ∈ f.entries) (hd : d ∈ b.tops)
    {bd : Forest Label} (hbd : (d, bd) ∈ f.entries) :
    Represents { m with cells := listDelete m.cells a.list d.cell } (.tree d bd) := by
  have hsub := h.subtree hbd
  have hroot := (h.subtree hab).root_notMem
  have hbd' := h.entry_below hab hd hbd
  refine ⟨fun {x b'} he => ?_, hsub.nodes, hsub.lists, hsub.node_ne, hsub.list_ne⟩
  rw [Forest.entries_tree] at he
  have hin : (x, b') ∈ b.entries := (List.mem_cons.mp he).elim (· ▸ hbd')
    fun hbelow => Forest.entries_subset hbd' hbelow
  have hx := List.mem_map_of_mem (f := Label.node) (Forest.mem_labels_of_mem_entries hin)
  exact h.delete_row hab hd (Forest.entries_subset hab hin) (ne_of_mem_of_not_mem hx hroot)

end Changes

def OnList (s : KernelList.State) (list cell : Addr) : Prop :=
  cell ≠ null ∧
    Relation.ReflTransGen (fun a b => a ≠ null ∧ (s.nodes a).next = b) (s.lists list).head cell

def Memory.Child (m : Memory) (n child : Addr) : Prop :=
  ∃ cell, OnList m.cells (m.node n).children cell ∧ (m.cells.nodes cell).value = child

def State.Reached (s : State) (n : Addr) : Prop :=
  s.tree.root ≠ null ∧ Relation.ReflTransGen s.mem.Child s.tree.root n

inductive Memory.DepthFirst (m : Memory) : Addr → List Addr → Prop
  | nil : m.DepthFirst null []
  | cons {cell : Addr} {below after : List Addr} (hcell : cell ≠ null)
      (hbelow : m.DepthFirst
        (m.cells.lists (m.node (m.cells.nodes cell).value).children).head below)
      (hafter : m.DepthFirst (m.cells.nodes cell).next after) :
      m.DepthFirst cell ((m.cells.nodes cell).value :: (below ++ after))

section Reached

variable {m : Memory} {a : Label} {b f : Forest Label} {row : List Label} {n : Addr}

theorem Row.onList (h : Row m a row) (cell : Addr) :
    OnList m.cells a.list cell ↔ cell ∈ row.map Label.cell := by
  rw [OnList, h.describes.head]
  exact (h.describes.links.forward.mem_iff_reaches h.describes.links.nonnull).symm

theorem Row.child (h : Row m a row) : m.Child a.node n ↔ ∃ c ∈ row, c.node = n := by
  rw [Memory.Child, h.children]
  constructor
  · rintro ⟨cell, hcell, rfl⟩
    obtain ⟨c, hc, rfl⟩ := List.mem_map.mp ((h.onList cell).mp hcell)
    exact ⟨c, hc, (h.value c hc).symm⟩
  · rintro ⟨c, hc, rfl⟩
    exact ⟨c.cell, (h.onList c.cell).mpr (List.mem_map_of_mem hc), h.value c hc⟩

/-- The nodes of a forest are below those of its first row. -/
theorem exists_top (hrows : ∀ {a b}, (a, b) ∈ f.entries → Row m a b.tops) {x : Label}
    (hx : x ∈ f.labels) : ∃ c ∈ f.tops, Relation.ReflTransGen m.Child c.node x.node := by
  induction f with
  | nil => exact absurd hx List.not_mem_nil
  | cons a below after ihb iha =>
    rw [Forest.labels, List.mem_cons, List.mem_append] at hx
    rcases hx with rfl | hx | hx
    · exact ⟨x, List.mem_cons_self, .refl⟩
    · obtain ⟨c, hc, hreach⟩ :=
        ihb (fun he => hrows (List.mem_cons_of_mem _ (List.mem_append_left _ he))) hx
      have hchild := (hrows List.mem_cons_self).child.mpr ⟨c, hc, rfl⟩
      exact ⟨a, List.mem_cons_self, hreach.head hchild⟩
    · obtain ⟨c, hc, hreach⟩ :=
        iha (fun he => hrows (List.mem_cons_of_mem _ (List.mem_append_right _ he))) hx
      exact ⟨c, List.mem_cons_of_mem a hc, hreach⟩

/-- What is below a node in memory is what is below it in the forest. -/
theorem Represents.descendant (h : Represents m f) (hab : (a, b) ∈ f.entries) :
    Relation.TransGen m.Child a.node n ↔ n ∈ b.labels.map Label.node := by
  constructor
  · intro hreach
    induction hreach with
    | single hchild =>
      obtain ⟨c, hc, rfl⟩ := (h.rows hab).child.mp hchild
      exact List.mem_map_of_mem (b.tops_subset_labels hc)
    | tail _ hchild ih =>
      obtain ⟨y, hy, rfl⟩ := List.mem_map.mp ih
      obtain ⟨b', hyb⟩ := Forest.exists_entry hy
      obtain ⟨c, hc, rfl⟩ := (h.rows (Forest.entries_subset hab hyb)).child.mp hchild
      exact List.mem_map_of_mem (Forest.labels_subset hyb (b'.tops_subset_labels hc))
  · intro hn
    obtain ⟨x, hx, rfl⟩ := List.mem_map.mp hn
    obtain ⟨c, hc, hreach⟩ := exists_top (fun he => h.rows (Forest.entries_subset hab he)) hx
    exact Relation.TransGen.head' ((h.rows hab).child.mpr ⟨c, hc, rfl⟩) hreach

theorem Linked.depthFirst (h : Linked m f) :
    m.DepthFirst (headOr null (f.tops.map Label.cell)) (f.labels.map Label.node) := by
  induction f with
  | nil => exact .nil
  | cons a below after ihb iha =>
    obtain ⟨hcell, hvalue, hnode, hlist, hrow, hnext, hbelow, hafter⟩ := h.cons
    have hb := ihb hbelow
    have ha := iha hafter
    rw [← hrow.describes.head, ← hrow.children, ← hvalue] at hb
    rw [← hnext] at ha
    rw [Forest.tops, List.map_cons, headOr_cons, Forest.labels, List.map_cons, List.map_append,
      ← hvalue]
    exact .cons hcell hb ha

end Reached

/-- What a tree in memory is for: its root with the rows below it, and the number of nodes. -/
structure Fits (s : State) (root : Label) (below : Forest Label) : Prop where
  represents : Represents s.mem (.tree root below)
  rooted : s.tree.root = root.node
  counted : s.tree.nodes = BitVec.ofNat 64 (below.labels.length + 1)
  top : (s.mem.node root.node).parent = null

section Steps

variable {s : State} {root a c d : Label} {below b sub : Forest Label} {fuel : ℕ}

/-- A node that `tree_create_node` has made. -/
theorem represents_create (m : Memory) (value cell : Addr) {node list : Addr} (hnode : node ≠ null)
    (hlist : list ≠ null) :
    Represents (treeCreateNode m value node list) (.tree ⟨cell, node, list⟩ .nil) := by
  have hlabels : (Forest.tree (⟨cell, node, list⟩ : Label) .nil).labels =
      [⟨cell, node, list⟩] := rfl
  have hlists : (treeCreateNode m value node list).cells.lists list = ⟨null, null, 0⟩ := by
    simp [treeCreateNode, listCreate]
  refine ⟨fun {x b} he => ?_, ?_, ?_, fun x hx => ?_, fun x hx => ?_⟩
  · obtain ⟨rfl, rfl⟩ := Prod.mk.inj (List.mem_singleton.mp he)
    refine ⟨by simp [treeCreateNode], ⟨?_, ?_, ?_, Linked.nil, ?_⟩, ?_, ?_⟩
    · rw [hlists]
      rfl
    · rw [hlists]
      rfl
    · rw [hlists]
      rfl
    · exact fun n hn => absurd hn List.not_mem_nil
    · exact fun c hc => absurd hc List.not_mem_nil
    · exact fun c hc => absurd hc List.not_mem_nil
  · rw [hlabels]
    exact List.nodup_singleton _
  · rw [hlabels]
    exact List.nodup_singleton _
  · rwa [List.mem_singleton.mp hx]
  · rwa [List.mem_singleton.mp hx]

theorem fits_setParent (s : State) (value cell : Addr) {node list : Addr} (hnode : node ≠ null)
    (hlist : list ≠ null) : Fits (treeSetParent s value node list) ⟨cell, node, list⟩ .nil where
  represents := represents_create s.mem value cell hnode hlist
  rooted := rfl
  counted := rfl
  top := by simp [treeSetParent, treeCreateNode]

/-- What the memory shows when a subtree has been put into it. -/
theorem Fits.inserted (h : Fits s root below) (hsub : Represents s.mem (.tree c sub))
    (hab : (a, b) ∈ (Forest.tree root below).entries)
    (hnodes : ∀ x ∈ (Forest.tree root below).labels, ∀ y ∈ (Forest.tree c sub).labels,
      x.node ≠ y.node)
    (hlists : ∀ x ∈ (Forest.tree root below).labels, ∀ y ∈ (Forest.tree c sub).labels,
      x.list ≠ y.list)
    (hnull : c.cell ≠ null)
    (hcell : ∀ e ∈ (Forest.tree root below).entries ++ (Forest.tree c sub).entries,
      c.cell ∉ e.2.tops.map Label.cell) :
    Fits ⟨s.mem.insert a.node c.node c.cell,
      ⟨s.tree.nodes + 1 + BitVec.ofNat 64 sub.labels.length, s.tree.root⟩⟩ root
      (Forest.grown (·.node = a.node) c sub root below) := by
  have hperm : (Forest.tree root (.grown (·.node = a.node) c sub root below)).labels.Perm
      ((Forest.tree root below).labels ++ (Forest.tree c sub).labels) := by
    rw [← Forest.attach_tree]
    exact Forest.labels_attach
      (h.represents.countP_node (Forest.mem_labels_of_mem_entries hab))
  have hlength : (Forest.grown (·.node = a.node) c sub root below).labels.length =
      below.labels.length + (sub.labels.length + 1) := by
    simpa [Forest.labels_tree, Nat.add_right_comm _ 1] using hperm.length_eq
  refine ⟨h.represents.insert hsub hab hnodes hlists hnull hcell, h.rooted, ?_, ?_⟩
  · have hsum : below.labels.length + (sub.labels.length + 1) + 1 =
        below.labels.length + 1 + 1 + sub.labels.length := by omega
    rw [hlength, hsum, BitVec.ofNat_add, BitVec.ofNat_add, ← h.counted]
    rfl
  · rw [insert_node, if_neg (hnodes root (Forest.mem_labels_tree root below) c
      (Forest.mem_labels_tree c sub))]
    exact h.top

theorem Fits.erase_eq (h : Fits s root below) (hab : (a, b) ∈ (Forest.tree root below).entries)
    (hd : d ∈ b.tops) : Forest.erase (·.node = d.node) (.tree root below) =
      .tree root (Forest.erase (·.node = d.node) below) := by
  have hparent : (s.mem.node d.node).parent = a.node := (h.represents.rows hab).parent d hd
  have ha : a.node ≠ null := h.represents.node_ne a (Forest.mem_labels_of_mem_entries hab)
  have hroot : root.node ≠ d.node := fun heq => ha (hparent.symm.trans (heq ▸ h.top))
  exact Forest.erase_tree (p := (·.node = d.node)) (decide_eq_false hroot) below

theorem Fits.erase_labels (h : Fits s root below) (hab : (a, b) ∈ (Forest.tree root below).entries)
    (hd : d ∈ b.tops) {bd : Forest Label} (hbd : (d, bd) ∈ (Forest.tree root below).entries) :
    (Forest.tree root below).labels.Perm
      ((Forest.tree root (Forest.erase (·.node = d.node) below)).labels ++
        (Forest.tree d bd).labels) := by
  rw [← h.erase_eq hab hd]
  exact Forest.labels_erase (h.represents.countP_node (Forest.mem_labels_of_mem_entries hbd))
    (decide_eq_true rfl) hbd

/-- What the memory shows when a node has been taken out of it. -/
theorem Fits.deleted (h : Fits s root below) (hab : (a, b) ∈ (Forest.tree root below).entries)
    (hd : d ∈ b.tops) {bd : Forest Label} (hbd : (d, bd) ∈ (Forest.tree root below).entries) :
    Fits ⟨{ s.mem with cells := listDelete s.mem.cells a.list d.cell },
      ⟨s.tree.nodes - 1 - BitVec.ofNat 64 bd.labels.length, s.tree.root⟩⟩ root
      (Forest.erase (·.node = d.node) below) := by
  have hlength : below.labels.length =
      (Forest.erase (·.node = d.node) below).labels.length + (bd.labels.length + 1) := by
    simpa [Forest.labels_tree, ← Nat.add_assoc] using (h.erase_labels hab hd hbd).length_eq
  refine ⟨h.erase_eq hab hd ▸ h.represents.delete hab hd, h.rooted, ?_, h.top⟩
  have hsum : (Forest.erase (·.node = d.node) below).labels.length + (bd.labels.length + 1) + 1 =
      (Forest.erase (·.node = d.node) below).labels.length + 1 + bd.labels.length + 1 := by omega
  have hnodes := h.counted
  rw [hlength, hsum, BitVec.ofNat_add, BitVec.ofNat_add] at hnodes
  change s.tree.nodes - 1#64 - _ = _
  rw [hnodes, BitVec.add_sub_cancel, BitVec.add_sub_cancel]

theorem Fits.delete (h : Fits s root below) (hab : (a, b) ∈ (Forest.tree root below).entries)
    (hd : d ∈ b.tops) {bd : Forest Label} (hbd : (d, bd) ∈ (Forest.tree root below).entries)
    (hfuel : 2 ^ 64 ≤ fuel) :
    ∃ s', treeDelete fuel s d.node = some (s', postorder bd ++ [d.node]) ∧
      Fits s' root (Forest.erase (·.node = d.node) below) := by
  have hrow := h.represents.rows hab
  have ha : a.node ≠ null := h.represents.node_ne a (Forest.mem_labels_of_mem_entries hab)
  have hcell : d.cell ≠ null :=
    ne_of_mem_of_not_mem (List.mem_map_of_mem hd) hrow.describes.links.nonnull
  have hcount := h.represents.count hbd hfuel
  have hfind := hrow.find (h.represents.row_nodup hab) hd hfuel
  have hfree := (h.represents.delete_subtree hab hd hbd).free (Forest.mem_entries_tree d bd) hfuel
  refine ⟨_, ?_, h.deleted hab hd hbd⟩
  simp only [treeDelete, hrow.parent d hd, if_neg ha, hcount, hrow.children, hfind, if_neg hcell,
    hfree, Option.bind_eq_bind, Option.bind_some]

theorem Fits.delete_root (h : Fits s root below) (hfuel : 2 ^ 64 ≤ fuel) :
    treeDelete fuel s root.node =
      some (⟨s.mem, ⟨0, null⟩⟩, postorder below ++ [root.node]) := by
  have hfree := h.represents.free List.mem_cons_self hfuel
  simp only [treeDelete, h.top, if_pos, h.rooted, hfree, Option.bind_eq_bind, Option.bind_some]

/-- The nodes of a tree are those that its root leads to. -/
theorem Fits.reached (h : Fits s root below) {n : Addr} :
    s.Reached n ↔ n ∈ (Forest.tree root below).labels.map Label.node := by
  have hroot := Forest.mem_entries_tree root below
  have hnull : root.node ≠ null := h.represents.node_ne root List.mem_cons_self
  rw [State.Reached, h.rooted, Relation.reflTransGen_iff_eq_or_transGen,
    h.represents.descendant hroot, Forest.labels_tree, List.map_cons,
    List.mem_cons]
  exact and_iff_right hnull

theorem Fits.reached_node (h : Fits s root below) {x : Label}
    (hx : x ∈ (Forest.tree root below).labels) : s.Reached x.node :=
  h.reached.mpr (List.mem_map_of_mem hx)

theorem Fits.exists_entry (h : Fits s root below) {n : Addr} (hn : s.Reached n) :
    ∃ a b, (a, b) ∈ (Forest.tree root below).entries ∧ a.node = n := by
  obtain ⟨a, ha, rfl⟩ := List.mem_map.mp (h.reached.mp hn)
  obtain ⟨b, hab⟩ := Forest.exists_entry ha
  exact ⟨a, b, hab, rfl⟩

end Steps

/-- Of the memory of a tree, only the values of its nodes are for others to change. -/
structure Undisturbed (s : State) (m : Memory) : Prop where
  node : ∀ n, s.Reached n → (m.node n).children = (s.mem.node n).children ∧
    (m.node n).parent = (s.mem.node n).parent
  list : ∀ n, s.Reached n →
    m.cells.lists (s.mem.node n).children = s.mem.cells.lists (s.mem.node n).children
  cell : ∀ n, s.Reached n → ∀ cell, OnList s.mem.cells (s.mem.node n).children cell →
    m.cells.nodes cell = s.mem.cells.nodes cell

structure Detached (s : State) (c : Label) (sub : Forest Label) : Prop where
  represents : Represents s.mem (.tree c sub)
  node : ∀ x ∈ (Forest.tree c sub).labels, ¬ s.Reached x.node
  list : ∀ x ∈ (Forest.tree c sub).labels, ∀ n, s.Reached n → (s.mem.node n).children ≠ x.list
  cell_ne : c.cell ≠ null
  cell : ∀ n, s.Reached n → ¬ OnList s.mem.cells (s.mem.node n).children c.cell
  cell_below : ∀ x ∈ (Forest.tree c sub).labels, ¬ OnList s.mem.cells x.list c.cell

/-- The calls, with the addresses that `kmalloc` returns in them. -/
inductive Call
  | setParent (value node list : Addr)
  | insertChild (parent value node list cell : Addr)
  | insertChildNode (parent node cell : Addr)
  | delete (node : Addr)

/-- What is new is not in use in the tree, and the nodes that a call is for are in it. -/
def State.Allowed (s : State) : Call → Prop
  | .setParent _ node list => node ≠ null ∧ list ≠ null
  | .insertChild parent _ node list cell =>
    s.Reached parent ∧ node ≠ null ∧ ¬ s.Reached node ∧ list ≠ null ∧
      (∀ n, s.Reached n → (s.mem.node n).children ≠ list) ∧ cell ≠ null ∧
      ∀ n, s.Reached n → ¬ OnList s.mem.cells (s.mem.node n).children cell
  | .insertChildNode parent node cell =>
    s.Reached parent ∧ ∃ list sub, Detached s ⟨cell, node, list⟩ sub
  | .delete node => s.Reached node ∨ node ≠ null ∧ (s.mem.node node).parent = null

def State.call (fuel : ℕ) (s : State) : Call → Option State
  | .setParent value node list => some (treeSetParent s value node list)
  | .insertChild parent value node list cell =>
    treeInsertChild fuel s parent value node list cell
  | .insertChildNode parent node cell => treeInsertChildNode fuel s parent node cell
  | .delete node => (treeDelete fuel s node).map Prod.fst

inductive Run (fuel : ℕ) : State → Prop
  | create (m : Memory) : Run fuel (treeCreate m)
  | disturb {s : State} {m : Memory} (h : Run fuel s) (hm : Undisturbed s m) :
    Run fuel ⟨m, s.tree⟩
  | call {s s' : State} {c : Call} (h : Run fuel s) (hc : s.Allowed c)
    (hcall : s.call fuel c = some s') : Run fuel s'

def State.Sound (s : State) : Prop := s.tree = ⟨0, null⟩ ∨ ∃ root below, Fits s root below

section Runs

variable {s s' : State} {m : Memory} {root c : Label} {below sub : Forest Label} {fuel : ℕ}

theorem Fits.disturb (h : Fits s root below) (hm : Undisturbed s m) :
    Fits ⟨m, s.tree⟩ root below where
  represents := by
    refine ⟨fun {a b} hab => ?_, h.represents.nodes, h.represents.lists, h.represents.node_ne,
      h.represents.list_ne⟩
    have hrow := h.represents.rows hab
    have ha := h.reached_node (Forest.mem_labels_of_mem_entries hab)
    have hlist := hm.list _ ha
    have hcell := hm.cell _ ha
    rw [hrow.children] at hlist hcell
    refine hrow.congr (hm.node _ ha).1 hlist (fun c hc => hcell _ ?_) fun c hc => ?_
    · exact (hrow.onList c.cell).mpr (List.mem_map_of_mem hc)
    · have hlabel := Forest.labels_subset hab (b.tops_subset_labels hc)
      exact (hm.node _ (h.reached_node hlabel)).2
  rooted := h.rooted
  counted := h.counted
  top := (hm.node _ (h.reached_node List.mem_cons_self)).2.trans h.top

theorem State.Sound.disturb (h : s.Sound) (hm : Undisturbed s m) : State.Sound ⟨m, s.tree⟩ := by
  rcases h with hempty | ⟨root, below, hfits⟩
  · exact Or.inl hempty
  · exact Or.inr ⟨root, below, hfits.disturb hm⟩

theorem Fits.insert_detached (h : Fits s root below) {parent : Addr} (hparent : s.Reached parent)
    (hsub : Detached s c sub) (hfuel : 2 ^ 64 ≤ fuel) :
    ∃ s' below', treeInsertChildNode fuel s parent c.node c.cell = some s' ∧
      Fits s' root below' := by
  obtain ⟨a, b, hab, rfl⟩ := h.exists_entry hparent
  have hnodes : ∀ x ∈ (Forest.tree root below).labels, ∀ y ∈ (Forest.tree c sub).labels,
      x.node ≠ y.node := fun x hx y hy heq => hsub.node y hy (heq ▸ h.reached_node hx)
  have hlists : ∀ x ∈ (Forest.tree root below).labels, ∀ y ∈ (Forest.tree c sub).labels,
      x.list ≠ y.list := by
    intro x hx y hy heq
    obtain ⟨b', hxb⟩ := Forest.exists_entry hx
    exact hsub.list y hy _ (h.reached_node hx) ((h.represents.rows hxb).children.trans heq)
  have hcell : ∀ e ∈ (Forest.tree root below).entries ++ (Forest.tree c sub).entries,
      c.cell ∉ e.2.tops.map Label.cell := by
    rintro ⟨x, b'⟩ he hmem
    rcases List.mem_append.mp he with he | he
    · have hrow := h.represents.rows he
      refine hsub.cell _ (h.reached_node (Forest.mem_labels_of_mem_entries he)) ?_
      rw [hrow.children]
      exact (hrow.onList c.cell).mpr hmem
    · have hrow := hsub.represents.rows he
      exact hsub.cell_below x (Forest.mem_labels_of_mem_entries he)
        ((hrow.onList c.cell).mpr hmem)
  have hcount := hsub.represents.count (Forest.mem_entries_tree c sub) hfuel
  refine ⟨_, _, ?_, h.inserted hsub.represents hab hnodes hlists hsub.cell_ne hcell⟩
  rw [treeInsertChildNode, hcount]
  rfl

/-- Making a node does not disturb a tree that it is not in. -/
theorem undisturbed_create (value : Addr) {node list : Addr} (hnode : ¬ s.Reached node)
    (hlist : ∀ n, s.Reached n → (s.mem.node n).children ≠ list) :
    Undisturbed s (treeCreateNode s.mem value node list) where
  node n hn := by
    have hne : n ≠ node := fun heq => hnode (heq ▸ hn)
    simp [treeCreateNode, hne]
  list n hn := by simp [treeCreateNode, listCreate, hlist n hn]
  cell n hn cell _ := rfl

theorem Undisturbed.onList (hm : Undisturbed s m) {n : Addr} (hn : s.Reached n)
    (h : Fits s root below) (cell : Addr) :
    OnList m.cells (m.node n).children cell ↔
      OnList s.mem.cells (s.mem.node n).children cell := by
  obtain ⟨a, b, hab, rfl⟩ := h.exists_entry hn
  have hrow := h.represents.rows hab
  have hrow' := (h.disturb hm).represents.rows hab
  rw [hrow.children, hrow'.children, hrow.onList, hrow'.onList]

theorem Fits.insert_child (h : Fits s root below) {parent value node list cell : Addr}
    (hc : s.Allowed (.insertChild parent value node list cell)) (hfuel : 2 ^ 64 ≤ fuel) :
    ∃ s' below', treeInsertChild fuel s parent value node list cell = some s' ∧
      Fits s' root below' := by
  obtain ⟨hparent, hnull, hnode, hlnull, hlist, hcnull, hcell⟩ := hc
  have hm := undisturbed_create value hnode hlist
  have hcreated := represents_create s.mem value cell hnull hlnull
  have h' := h.disturb hm
  have hsame : ∀ n, (State.mk (treeCreateNode s.mem value node list) s.tree).Reached n ↔
      s.Reached n := fun n => h'.reached.trans h.reached.symm
  have hlabels : ∀ x ∈ (Forest.tree (⟨cell, node, list⟩ : Label) .nil).labels,
      x = ⟨cell, node, list⟩ := fun x hx => List.mem_singleton.mp hx
  refine h'.insert_detached ((hsame parent).mpr hparent) ⟨hcreated, fun x hx hn => ?_,
    fun x hx n hn => ?_, hcnull, fun n hn hon => ?_, fun x hx hon => ?_⟩ hfuel
  · rw [hlabels x hx] at hn
    exact hnode ((hsame node).mp hn)
  · rw [hlabels x hx]
    rw [hsame] at hn
    rw [(hm.node n hn).1]
    exact hlist n hn
  · rw [hsame] at hn
    exact hcell n hn ((hm.onList hn h cell).mp hon)
  · rw [hlabels x hx] at hon
    have hempty := (hcreated.rows (Forest.mem_entries_tree _ _)).onList cell
    exact List.not_mem_nil (hempty.mp hon)

theorem Fits.delete_reached (h : Fits s root below) {node : Addr} (hn : s.Reached node)
    (hfuel : 2 ^ 64 ≤ fuel) :
    ∃ s' freed, treeDelete fuel s node = some (s', freed) ∧ s'.Sound := by
  obtain ⟨d, bd, hbd, rfl⟩ := h.exists_entry hn
  rcases Forest.mem_row (Forest.mem_labels_of_mem_entries hbd) with htop | ⟨e, he, hd⟩
  · obtain rfl : d = root := List.mem_singleton.mp htop
    exact ⟨_, _, h.delete_root hfuel, Or.inl rfl⟩
  · obtain ⟨s', hcall, hfits⟩ := h.delete he hd hbd hfuel
    exact ⟨s', _, hcall, Or.inr ⟨root, _, hfits⟩⟩

/-- The call returns, and what it leaves is a tree again. -/
theorem State.Sound.call (h : s.Sound) {op : Call} (hop : s.Allowed op) (hfuel : 2 ^ 64 ≤ fuel) :
    ∃ s', s.call fuel op = some s' ∧ s'.Sound := by
  have hsome : ∀ {n}, s.Reached n → ∃ root below, Fits s root below := fun hn =>
    h.resolve_left fun hempty => hn.1 (congrArg Tree.root hempty)
  cases op with
  | setParent value node list =>
    exact ⟨_, rfl, Or.inr ⟨⟨null, node, list⟩, .nil, fits_setParent s value null hop.1 hop.2⟩⟩
  | insertChild parent value node list cell =>
    obtain ⟨root, below, hfits⟩ := hsome hop.1
    obtain ⟨s', below', hcall, hfits'⟩ := hfits.insert_child hop hfuel
    exact ⟨s', hcall, Or.inr ⟨root, below', hfits'⟩⟩
  | insertChildNode parent node cell =>
    obtain ⟨hparent, list, sub, hsub⟩ := hop
    obtain ⟨root, below, hfits⟩ := hsome hparent
    obtain ⟨s', below', hcall, hfits'⟩ := hfits.insert_detached hparent hsub hfuel
    exact ⟨s', hcall, Or.inr ⟨root, below', hfits'⟩⟩
  | delete node =>
    have hreached : s.Reached node → ∃ s', s.call fuel (.delete node) = some s' ∧ s'.Sound := by
      intro hn
      obtain ⟨root, below, hfits⟩ := hsome hn
      obtain ⟨s', freed, hcall, hsound⟩ := hfits.delete_reached hn hfuel
      exact ⟨s', by rw [State.call, hcall]; rfl, hsound⟩
    rcases hop with hn | ⟨hnull, hparent⟩
    · exact hreached hn
    · by_cases hroot : node = s.tree.root
      · subst hroot
        exact hreached ⟨hnull, .refl⟩
      · refine ⟨s, ?_, h⟩
        rw [State.call, treeDelete, if_pos hparent, if_neg hroot]
        rfl

theorem Run.sound (h : Run fuel s) (hfuel : 2 ^ 64 ≤ fuel) : s.Sound := by
  induction h with
  | create m => exact Or.inl rfl
  | disturb _ hm ih => exact ih.disturb hm
  | call _ hc hcall ih =>
    obtain ⟨s', hcall', hsound⟩ := ih.call hc hfuel
    obtain rfl : _ = s' := Option.some.inj (hcall.symm.trans hcall')
    exact hsound

end Runs

section Counts

variable {s : State} {root : Label} {below : Forest Label} {fuel : ℕ} {n : Addr}

theorem ncard_of_nodup {α : Type} [DecidableEq α] {p : Set α} {l : List α} (hnd : l.Nodup)
    (hmem : ∀ a, a ∈ p ↔ a ∈ l) : p.ncard = l.length := by
  have hset : p = (l.toFinset : Set α) := Set.ext fun a => by simp [hmem a]
  rw [hset, Set.ncard_coe_finset, List.toFinset_card_of_nodup hnd]

structure Consistent (fuel : ℕ) (s : State) : Prop where
  nodes : s.tree.nodes.toNat = {n | s.Reached n}.ncard
  empty : s.tree.root = null → s.tree.nodes = 0
  count : ∀ n, s.Reached n → ∃ count, treeCountChildren fuel s.mem n = some count ∧
    count.toNat = {x | Relation.TransGen s.mem.Child n x}.ncard
  once : ∀ n, s.Reached n → n ≠ s.tree.root →
    s.Reached (s.mem.node n).parent ∧
      ∃ row, Describes s.mem.cells (s.mem.node (s.mem.node n).parent).children row ∧
        (row.map fun cell => (s.mem.cells.nodes cell).value).count n = 1
  find : s.tree.root ≠ null →
    ∃ order, s.mem.DepthFirst (s.mem.cells.lists (s.mem.node s.tree.root).children).head order ∧
      (s.tree.root :: order).Nodup ∧ (∀ n, n ∈ s.tree.root :: order ↔ s.Reached n) ∧
      ∀ value comparator, ∃ found, treeFind fuel s value comparator = some found ∧
        found = ((s.tree.root :: order).find?
          fun n => comparator (s.mem.node n).value value).getD null ∧
        (found = null ↔ ∀ n, s.Reached n → comparator (s.mem.node n).value value = false)

theorem consistent_empty (m : Memory) : Consistent fuel ⟨m, ⟨0, null⟩⟩ := by
  have hnone : ∀ n, ¬ (State.mk m ⟨0, null⟩).Reached n := fun n hn => hn.1 rfl
  refine ⟨?_, fun _ => rfl, fun n hn => absurd hn (hnone n), fun n hn => absurd hn (hnone n),
    fun hroot => absurd rfl hroot⟩
  have hset : {n | (State.mk m ⟨0, null⟩).Reached n} = ∅ := Set.eq_empty_of_forall_notMem hnone
  rw [hset, Set.ncard_empty]
  rfl

theorem Fits.nodes_eq (h : Fits s root below) : s.tree.nodes.toNat = {n | s.Reached n}.ncard := by
  have hlt := h.represents.length_lt
  have hcard : {n | s.Reached n}.ncard = ((Forest.tree root below).labels.map Label.node).length :=
    ncard_of_nodup h.represents.nodes fun n => h.reached
  rw [hcard, h.counted, List.length_map, Forest.labels_tree, List.length_cons, BitVec.toNat_ofNat]
  rw [Forest.labels_tree, List.length_cons] at hlt
  exact Nat.mod_eq_of_lt hlt

theorem Fits.count_eq (h : Fits s root below) (hn : s.Reached n) (hfuel : 2 ^ 64 ≤ fuel) :
    ∃ count, treeCountChildren fuel s.mem n = some count ∧
      count.toNat = {x | Relation.TransGen s.mem.Child n x}.ncard := by
  obtain ⟨a, b, hab, rfl⟩ := h.exists_entry hn
  have hbelow := h.represents.below hab
  have hcard : {x | Relation.TransGen s.mem.Child a.node x}.ncard =
      (b.labels.map Label.node).length :=
    ncard_of_nodup hbelow.nodes fun x => h.represents.descendant hab
  refine ⟨_, h.represents.count hab hfuel, ?_⟩
  rw [hcard, List.length_map, BitVec.toNat_ofNat, Nat.mod_eq_of_lt hbelow.length_lt]

theorem Fits.once (h : Fits s root below) (hn : s.Reached n) (hne : n ≠ s.tree.root) :
    s.Reached (s.mem.node n).parent ∧
      ∃ row, Describes s.mem.cells (s.mem.node (s.mem.node n).parent).children row ∧
        (row.map fun cell => (s.mem.cells.nodes cell).value).count n = 1 := by
  obtain ⟨d, bd, hbd, rfl⟩ := h.exists_entry hn
  rcases Forest.mem_row (Forest.mem_labels_of_mem_entries hbd) with htop | ⟨e, he, hd⟩
  · obtain rfl : d = root := List.mem_singleton.mp htop
    exact absurd h.rooted.symm hne
  · have hrow := h.represents.rows he
    have hvalues : (e.2.tops.map Label.cell).map (fun cell => (s.mem.cells.nodes cell).value) =
        e.2.tops.map Label.node := by
      rw [List.map_map]
      exact List.map_congr_left hrow.value
    rw [hrow.parent d hd, hrow.children]
    refine ⟨h.reached_node (Forest.mem_labels_of_mem_entries he), _, hrow.describes, ?_⟩
    rw [hvalues]
    exact List.count_eq_one_of_mem (h.represents.row_nodup he) (List.mem_map_of_mem hd)

theorem Fits.find_eq (h : Fits s root below) (hfuel : 2 ^ 64 ≤ fuel) :
    ∃ order, s.mem.DepthFirst (s.mem.cells.lists (s.mem.node s.tree.root).children).head order ∧
      (s.tree.root :: order).Nodup ∧ (∀ n, n ∈ s.tree.root :: order ↔ s.Reached n) ∧
      ∀ value comparator, ∃ found, treeFind fuel s value comparator = some found ∧
        found = ((s.tree.root :: order).find?
          fun n => comparator (s.mem.node n).value value).getD null ∧
        (found = null ↔ ∀ n, s.Reached n → comparator (s.mem.node n).value value = false) := by
  have hentry := Forest.mem_entries_tree root below
  have hrow := h.represents.rows hentry
  have horder : (Forest.tree root below).labels.map Label.node =
      s.tree.root :: below.labels.map Label.node := by
    rw [Forest.labels_tree, List.map_cons, h.rooted]
  have hmem : ∀ n, n ∈ s.tree.root :: below.labels.map Label.node ↔ s.Reached n := fun n => by
    rw [h.reached, horder]
  refine ⟨below.labels.map Label.node, ?_, horder ▸ h.represents.nodes, hmem,
    fun value comparator => ⟨_, ?_, rfl, ?_⟩⟩
  · rw [h.rooted, hrow.children, hrow.describes.head]
    exact (h.represents.linked hentry).depthFirst
  · rw [treeFind, h.rooted, h.represents.find hentry hfuel, ← h.rooted, ← horder,
      Forest.labels_tree, List.find?_map]
    rfl
  · cases hfound : (s.tree.root :: below.labels.map Label.node).find?
        fun n => comparator (s.mem.node n).value value with
    | none =>
      refine iff_of_true rfl fun n hn => ?_
      have hn := List.find?_eq_none.mp hfound n ((hmem n).mpr hn)
      exact Bool.eq_false_iff.mpr hn
    | some n =>
      have hn := (hmem n).mp (List.mem_of_find?_eq_some hfound)
      have hnull : n ≠ null := by
        obtain ⟨a, b, hab, rfl⟩ := h.exists_entry hn
        exact h.represents.node_ne a (Forest.mem_labels_of_mem_entries hab)
      have hmatch : comparator (s.mem.node n).value value = true := by
        simpa using List.find?_some hfound
      exact iff_of_false hnull fun hall => Bool.false_ne_true ((hall n hn).symm.trans hmatch)

theorem Fits.consistent (h : Fits s root below) (hfuel : 2 ^ 64 ≤ fuel) : Consistent fuel s where
  nodes := h.nodes_eq
  empty hroot := absurd (h.rooted.symm.trans hroot)
    (h.represents.node_ne root (Forest.mem_labels_tree root below))
  count _ hn := h.count_eq hn hfuel
  once _ hn hne := h.once hn hne
  find _ := h.find_eq hfuel

/-- However a tree has grown and shrunk, its count is the number of the nodes that its root leads
to, every node has its one place, and the walks see each of them; and the next call returns. -/
theorem tree_calls_keep_counts (h : Run fuel s) (hfuel : 2 ^ 64 ≤ fuel) :
    Consistent fuel s ∧ ∀ c, s.Allowed c → ∃ s', s.call fuel c = some s' := by
  have hsound := h.sound hfuel
  refine ⟨?_, fun c hc => ?_⟩
  · rcases hsound with hempty | ⟨root, below, hfits⟩
    · obtain ⟨m, t⟩ := s
      obtain rfl : t = ⟨0, null⟩ := hempty
      exact consistent_empty m
    · exact hfits.consistent hfuel
  · obtain ⟨s', hcall, -⟩ := hsound.call hc hfuel
    exact ⟨s', hcall⟩

def zeroed : Memory := ⟨KernelList.zeroed, fun _ => ⟨0, 0, 0⟩⟩

/-- A root with one child. -/
theorem tree_calls_keep_counts_two :
    ∃ s, (treeSetParent (treeCreate zeroed) 7 16 32).call (2 ^ 64) (.insertChild 16 8 48 64 80) =
      some s ∧ Consistent (2 ^ 64) s := by
  have hfits : Fits (treeSetParent (treeCreate zeroed) 7 16 32) ⟨0, 16, 32⟩ .nil :=
    fits_setParent _ 7 0 (by decide) (by decide)
  have hrun : Run (2 ^ 64) (treeSetParent (treeCreate zeroed) 7 16 32) :=
    (Run.create zeroed).call (c := .setParent 7 16 32) ⟨by decide, by decide⟩ rfl
  have hreached : ∀ n, (treeSetParent (treeCreate zeroed) 7 16 32).Reached n ↔ n = 16 := fun n => by
    rw [hfits.reached]
    exact List.mem_singleton
  have hempty := (hfits.represents.rows (Forest.mem_entries_tree _ _)).onList 80
  have hallowed : (treeSetParent (treeCreate zeroed) 7 16 32).Allowed
      (.insertChild 16 8 48 64 80) := by
    refine ⟨(hreached 16).mpr rfl, by decide, ?_, by decide, fun n hn => ?_, by decide,
      fun n hn hon => ?_⟩
    · rw [hreached]
      decide
    · rw [(hreached n).mp hn]
      decide
    · rw [(hreached n).mp hn] at hon
      exact List.not_mem_nil (hempty.mp hon)
  obtain ⟨s, hcall⟩ := (tree_calls_keep_counts hrun (Nat.le_refl _)).2 _ hallowed
  exact ⟨s, hcall, (tree_calls_keep_counts (hrun.call hallowed hcall) (Nat.le_refl _)).1⟩

end Counts

end ReduceOS.KernelTree
