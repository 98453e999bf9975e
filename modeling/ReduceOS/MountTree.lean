import ReduceOS.CString
import ReduceOS.Trie
import Mathlib.Data.List.Find
import Mathlib.Data.List.Nodup
import Mathlib.Logic.Function.Basic
import Mathlib.Tactic.SplitIfs

/-!
The tree of mountpoints. `vfs_mount` makes the tree nodes along a path, with a false directory in
each, and puts a node at its end; `vfs_getMountpoint` goes down the tree along a path as far as
it can, and counts the characters on the way in an `int`. The root has no node until one is mounted
there. A false directory has a name of 256 characters at most, which is not checked.
-/
namespace ReduceOS.MountTree

open Machine CString

def slash : BitVec 8 := 47

def vfsDirectory : BitVec 64 := 0x02

/-- `vfs_tree_node_t`; the type of the filesystem is never read. -/
structure VfsTreeNode where
  name : Chars
  node : Addr

/-- `tree_node_t`. Every node has a value of its own, which is kept in it. -/
structure TreeNode where
  value : VfsTreeNode
  children : List Addr
  parent : Addr

/-- What `vfs_createFakeNode` sets of an `fs_node_t`. -/
structure FsNode where
  name : Chars
  dev : Addr
  flags : BitVec 64

/-- The tree nodes and the filesystem nodes in memory, and `vfs_tree`. -/
structure State where
  node : Addr → TreeNode
  fsNode : Addr → FsNode
  root : Addr
  nodes : BitVec 64

def State.setNode (s : State) (n : Addr) (t : TreeNode) : State :=
  { s with node := Function.update s.node n t }

def State.name (s : State) (n : Addr) : Chars := (s.node n).value.name

section Source

def treeCreateNode (s : State) (n : Addr) (value : VfsTreeNode) : State :=
  s.setNode n ⟨value, [], null⟩

/-- `tree_insert_child_node` of a new node, which has no children to count. -/
def treeInsertChildNode (s : State) (parent n : Addr) : State :=
  let s := { s with nodes := s.nodes + 1 }
  let s := s.setNode n { s.node n with parent := parent }
  s.setNode parent { s.node parent with children := (s.node parent).children ++ [n] }

def treeInsertChild (s : State) (parent n : Addr) (value : VfsTreeNode) : State :=
  treeInsertChildNode (treeCreateNode s n value) parent n

def State.setFsNode (s : State) (n node : Addr) : State :=
  s.setNode n { s.node n with value := { (s.node n).value with node := node } }

def vfsInit (node : Addr → TreeNode) (fsNode : Addr → FsNode) (root : Addr) : State :=
  ⟨Function.update node root ⟨⟨[slash], null⟩, [], null⟩, fsNode, root, 1⟩

/-- `vfs_createFakeNode`, in the memory at `fakenode`; the result is `none` if `strcpy` writes past
the name. -/
def vfsCreateFakeNode (s : State) (fakenode : Addr) (name : Chars) (tnode : Addr) : Option State :=
  if name.length < 256 then
    some { s with fsNode := Function.update s.fsNode fakenode ⟨name, tnode, vfsDirectory⟩ }
  else none

def findChild (s : State) (n : Addr) (pch : Chars) : Option Addr :=
  (s.node n).children.find? fun child => strcmp (s.name child) pch = 0

/-- What `vfs_mount` does for a part of the path that is not found. -/
def newNode (s : State) (parent n fakenode : Addr) (pch : Chars) : Option State := do
  -- `newnode->node` is set once the node is in the tree
  let s := treeInsertChild s parent n ⟨pch, null⟩
  let s ← vfsCreateFakeNode s fakenode pch n
  some (s.setFsNode n fakenode)

/-- The loop of `vfs_mount`, with the memory that `kmalloc` returns for a tree node and for a
false directory. -/
def mountLoop : List Chars → List (Addr × Addr) → State → Addr → Option (State × Addr)
  | [], _, s, parent => some (s, parent)
  | pch :: path, memory, s, parent =>
    match findChild s parent pch with
    | some child => mountLoop path memory s child
    | none =>
      match memory with
      | [] => none
      | (n, fakenode) :: memory => do
        let s ← newNode s parent n fakenode pch
        mountLoop path memory s n

def vfsMount (s : State) (node : Addr) (path : Chars) (memory : List (Addr × Addr)) :
    Option (State × Addr) :=
  if node = null then some (s, null)
  else if deref path ≠ slash then some (s, null)
  else if path.length = 1 then some (s.setFsNode s.root node, s.root)
  else do
    let (s, parent) ← mountLoop (tokens slash (path.length + 1) (some path) none) memory s s.root
    some (s.setFsNode parent node, parent)

/-- The loop of `vfs_getMountpoint`: the last node and the depth of the remainder. -/
def lookupLoop (s : State) : List Chars → Addr → CInt → Addr × CInt
  | [], last, depth => (last, depth)
  | pch :: path, last, depth =>
    match findChild s last pch with
    | none => (last, depth)
    | some child => lookupLoop s path child (depth + BitVec.ofNat 32 (pch.length + 1))

/-- `vfs_getMountpoint`: the node, and where in the path the remainder begins. -/
def vfsGetMountpoint (s : State) (path : Chars) : Addr × BitVec 64 :=
  let (last, depth) := lookupLoop s (tokens slash (path.length + 1) (some path) none) s.root 0
  ((s.node last).value.node, depth.signExtend 64)

end Source

/-- A part of a path: not empty, and without a separator or a terminator in it. -/
def Component (c : Chars) : Prop := c ≠ [] ∧ 0 ∉ c ∧ slash ∉ c

instance (c : Chars) : Decidable (Component c) := inferInstanceAs (Decidable (_ ∧ _ ∧ _))

def pathOf (path : List Chars) : Chars := if path = [] then [slash] else join slash path

structure Mount where
  node : Addr
  path : List Chars
  memory : List (Addr × Addr)

def State.run (s : State) (mounts : List Mount) : Option State :=
  mounts.foldlM (fun s m => (vfsMount s m.node (pathOf m.path) m.memory).map Prod.fst) s

inductive At (s : State) : List Chars → Addr → Prop
  | root : At s [] s.root
  | child {path : List Chars} {n c : Addr} (hn : At s path n) (hc : c ∈ (s.node n).children) :
      At s (path ++ [s.name c]) c

/-- `kmalloc` returns enough memory, none of it in use, and the parts of the path are names. -/
structure Meets (s : State) (m : Mount) : Prop where
  components : ∀ c ∈ m.path, Component c ∧ c.length < 256
  enough : m.path.length ≤ m.memory.length
  nodes : (m.memory.map Prod.fst).Nodup
  fakes : (m.memory.map Prod.snd).Nodup
  unused : ∀ n ∈ m.memory.map Prod.fst, ∀ path, ¬ At s path n
  free : ∀ fake ∈ m.memory.map Prod.snd, fake ≠ null ∧
    ∀ path n, At s path n → (s.node n).value.node ≠ fake

def AllMeet (s : State) : List Mount → Prop
  | [] => True
  | m :: mounts => Meets s m ∧
    ∀ s' ∈ (vfsMount s m.node (pathOf m.path) m.memory).map Prod.fst, AllMeet s' mounts

def history (mounts : List Mount) : List (List Chars × Addr) :=
  ((mounts.filter fun m => m.node ≠ null).map fun m => (m.path, m.node)).reverse

def latest (h : List (List Chars × Addr)) (path : List Chars) : Option Addr :=
  (h.find? fun m => m.1 = path).map Prod.snd

def Present (h : List (List Chars × Addr)) (path : List Chars) : Prop :=
  path = [] ∨ ∃ m ∈ h, path <+: m.1

def Placeholder (s : State) (path : List Chars) (a : Addr) : Prop :=
  a ≠ null ∧ (s.fsNode a).flags = vfsDirectory ∧ path.getLast? = some (s.fsNode a).name ∧
    At s path (s.fsNode a).dev

/-- What was mounted at a path last, or else a placeholder, or else, at the root, `NULL`. -/
def Stored (s : State) (h : List (List Chars × Addr)) (path : List Chars) (a : Addr) : Prop :=
  latest h path = some a ∨
    (latest h path = none ∧ (Placeholder s path a ∨ (path = [] ∧ a = null)))

/-- The longest prefix of a path that has been mounted, or is on the way to a mount. -/
structure Longest (h : List (List Chars × Addr)) (path p : List Chars) : Prop where
  isPrefix : p <+: path
  present : Present h p
  longest : ∀ q, q <+: path → Present h q → q <+: p

/-- There is one node for every prefix of what has been mounted, and siblings differ by name. -/
structure Shape (s : State) (h : List (List Chars × Addr)) : Prop where
  one : ∀ path, Present h path → ∃! n, At s path n
  present : ∀ path n, At s path n → Present h path
  apart : ∀ path path' n, At s path n → At s path' n → path = path'
  siblings : ∀ path n, At s path n → ((s.node n).children.map s.name).Nodup

/-- The remainder of a path behind a prefix begins where the prefix ends, unless the prefix is too
long for an `int`. -/
def Remainder (path p : List Chars) (offset : BitVec 64) : Prop :=
  join slash p <+: pathOf path ∧
    ((join slash p).length < 2 ^ 31 → offset.toNat = (join slash p).length)

/-- `vfs_getMountpoint` finds what is stored at the longest prefix of a path. -/
def Found (s : State) (h : List (List Chars × Addr)) (path : List Chars) : Prop :=
  ∃ p, Longest h path p ∧ Stored s h p (vfsGetMountpoint s (pathOf path)).1 ∧
    Remainder path p (vfsGetMountpoint s (pathOf path)).2

/-- What is mounted is found along every path below it, until that meets a deeper mount. -/
def FoundBelow (s : State) (h : List (List Chars × Addr)) (path rest : List Chars) : Prop :=
  ∀ node, latest h path = some node → (∀ c, rest.head? = some c → ¬ Present h (path ++ [c])) →
    (vfsGetMountpoint s (pathOf (path ++ rest))).1 = node

section Paths

variable {s s' : State} {path : List Chars} {n : Addr}

def named (s : State) (n : Addr) (c : Chars) : Option Addr :=
  (s.node n).children.find? fun child => s.name child = c

theorem findChild_eq_named (hnames : ∀ c ∈ (s.node n).children, 0 ∉ s.name c) {pch : Chars}
    (hpch : 0 ∉ pch) : findChild s n pch = named s n pch := by
  refine List.find?_congr fun child hchild => ?_
  rw [decide_eq_decide]
  exact strcmp_eq_zero_iff (hnames child hchild) hpch

theorem named_eq_some {c : Chars} {child : Addr} (h : named s n c = some child) :
    child ∈ (s.node n).children ∧ s.name child = c :=
  ⟨List.mem_of_find?_eq_some h, by simpa using List.find?_some h⟩

theorem named_eq_none {c : Chars} (h : named s n c = none) :
    ∀ child ∈ (s.node n).children, s.name child ≠ c := by
  intro child hchild
  simpa using List.find?_eq_none.mp h child hchild

theorem named_of_mem (hnd : ((s.node n).children.map s.name).Nodup) {child : Addr}
    (hchild : child ∈ (s.node n).children) : named s n (s.name child) = some child := by
  cases hfind : named s n (s.name child) with
  | none => exact absurd rfl (named_eq_none hfind child hchild)
  | some c =>
    obtain ⟨hc, hname⟩ := named_eq_some hfind
    rw [List.inj_on_of_nodup_map hnd hc hchild hname]

theorem walk_of_at (hnd : ∀ path n, Trie.walk (named s) s.root path = some n →
    ((s.node n).children.map s.name).Nodup) (h : At s path n) :
    Trie.walk (named s) s.root path = some n := by
  induction h with
  | root => rfl
  | child hn hc ih =>
    rw [Trie.walk_concat, ih, Option.bind_some]
    exact named_of_mem (hnd _ _ ih) hc

theorem at_of_walk (h : Trie.walk (named s) s.root path = some n) : At s path n := by
  induction path using List.reverseRecOn generalizing n with
  | nil => exact Option.some.inj h ▸ At.root
  | append_singleton path c ih =>
    rw [Trie.walk_concat, Option.bind_eq_some_iff] at h
    obtain ⟨m, hm, hc⟩ := h
    obtain ⟨hmem, rfl⟩ := named_eq_some hc
    exact (ih hm).child hmem

end Paths

/-- What is in a tree node at a path: what was mounted there last, or else a false directory that
shows the node, or else, at the root, `NULL`. -/
def Held (s : State) (h : List (List Chars × Addr)) (path : List Chars) (n : Addr) : Prop :=
  latest h path = some (s.node n).value.node ∨ (latest h path = none ∧
    ((path = [] ∧ (s.node n).value.node = null) ∨
      ((s.node n).value.node ≠ null ∧ ∃ c, path.getLast? = some c ∧
        s.fsNode (s.node n).value.node = ⟨c, n, vfsDirectory⟩)))

/-- The tree has a node at the paths in `P`; some of them may be on the way to a mount that is not
yet made. -/
structure Inv (s : State) (h : List (List Chars × Addr)) (P : List Chars → Prop) : Prop where
  names : ∀ path n, Trie.walk (named s) s.root path = some n →
    ∀ c ∈ (s.node n).children, 0 ∉ s.name c
  siblings : ∀ path n, Trie.walk (named s) s.root path = some n →
    ((s.node n).children.map s.name).Nodup
  distinct : Trie.Distinct (named s) s.root
  present : ∀ path, P path ↔ ∃ n, Trie.walk (named s) s.root path = some n
  held : ∀ path n, Trie.walk (named s) s.root path = some n → Held s h path n
  known : ∀ path a, latest h path = some a → P path

structure Supply (s : State) (memory : List (Addr × Addr)) : Prop where
  nodes : (memory.map Prod.fst).Nodup
  fakes : (memory.map Prod.snd).Nodup
  unused : ∀ n ∈ memory.map Prod.fst, ∀ path, Trie.walk (named s) s.root path ≠ some n
  free : ∀ fake ∈ memory.map Prod.snd, fake ≠ null ∧
    ∀ path n, Trie.walk (named s) s.root path = some n → (s.node n).value.node ≠ fake

/-- A new node is below `parent`, with a false directory. -/
structure NewLeaf (s s' : State) (parent n fakenode : Addr) (pch : Chars) : Prop where
  root : s'.root = s.root
  leaf : s'.node n = ⟨⟨pch, fakenode⟩, [], parent⟩
  value : (s'.node parent).value = (s.node parent).value
  children : (s'.node parent).children = (s.node parent).children ++ [n]
  other : ∀ m, m ≠ n → m ≠ parent → s'.node m = s.node m
  fake : s'.fsNode fakenode = ⟨pch, n, vfsDirectory⟩
  fsNode : ∀ a, a ≠ fakenode → s'.fsNode a = s.fsNode a

section Growing

variable {s s' : State} {h : List (List Chars × Addr)} {P : List Chars → Prop}
  {path : List Chars} {parent n fakenode : Addr} {pch : Chars} {memory : List (Addr × Addr)}

theorem newNode_newLeaf (hne : parent ≠ n) (hpch : pch.length < 256) :
    ∃ s', newNode s parent n fakenode pch = some s' ∧ NewLeaf s s' parent n fakenode pch := by
  refine ⟨_, by rw [newNode, vfsCreateFakeNode, if_pos hpch]; rfl, ?_⟩
  constructor
  · rfl
  · simp [State.setFsNode, State.setNode, treeInsertChild, treeInsertChildNode, treeCreateNode,
      hne.symm]
  · simp [State.setFsNode, State.setNode, treeInsertChild, treeInsertChildNode, treeCreateNode, hne]
  · simp [State.setFsNode, State.setNode, treeInsertChild, treeInsertChildNode, treeCreateNode, hne]
  · intro m hm hparent
    simp [State.setFsNode, State.setNode, treeInsertChild, treeInsertChildNode, treeCreateNode, hm,
      hparent]
  · simp [State.setFsNode, State.setNode]
  · intro a ha
    simp [State.setFsNode, State.setNode, treeInsertChild, treeInsertChildNode, treeCreateNode, ha]

theorem NewLeaf.name_self (hleaf : NewLeaf s s' parent n fakenode pch) : s'.name n = pch := by
  rw [State.name, hleaf.leaf]

theorem NewLeaf.value_of_ne (hleaf : NewLeaf s s' parent n fakenode pch) {m : Addr} (hm : m ≠ n) :
    (s'.node m).value = (s.node m).value := by
  by_cases hparent : m = parent
  · rw [hparent, hleaf.value]
  · rw [hleaf.other m hm hparent]

theorem NewLeaf.name_of_ne (hleaf : NewLeaf s s' parent n fakenode pch) {m : Addr} (hm : m ≠ n) :
    s'.name m = s.name m := by
  rw [State.name, hleaf.value_of_ne hm, State.name]

/-- The children of a node in the tree are in the tree. -/
theorem Inv.walk_child (hinv : Inv s h P) (hn : Trie.walk (named s) s.root path = some n)
    {c : Addr} (hc : c ∈ (s.node n).children) :
    Trie.walk (named s) s.root (path ++ [s.name c]) = some c := by
  rw [Trie.walk_concat, hn, Option.bind_some]
  exact named_of_mem (hinv.siblings path n hn) hc

theorem Inv.grown (hinv : Inv s h P) (hleaf : NewLeaf s s' parent n fakenode pch)
    (hparent : Trie.walk (named s) s.root path = some parent) (hfree : named s parent pch = none)
    (hn : ∀ q, Trie.walk (named s) s.root q ≠ some n) :
    Trie.Grown (named s) (named s') s.root parent pch n := by
  have hchild : ∀ q l, Trie.walk (named s) s.root q = some l → ∀ c ∈ (s.node l).children,
      s'.name c = s.name c := by
    intro q l hl c hc
    exact hleaf.name_of_ne fun heq => hn _ (heq ▸ hinv.walk_child hl hc)
  have hsame : ∀ q l j, Trie.walk (named s) s.root q = some l →
      (s.node l).children.find? (fun c => s'.name c = j) = named s l j := by
    intro q l j hl
    exact List.find?_congr fun c hc => by rw [hchild q l hl c hc]
  refine ⟨hfree, ?_, fun j => ?_, fun q l j hl hlj => ?_⟩
  · rw [named, hleaf.children, List.find?_append, hsame path parent pch hparent, hfree]
    simp [hleaf.name_self]
  · rw [named, hleaf.leaf]
    rfl
  · have hln : l ≠ n := fun heq => hn q (heq ▸ hl)
    by_cases hlp : l = parent
    · have hj : j ≠ pch := hlj.resolve_left (not_ne_iff.mpr hlp)
      rw [named, hlp, hleaf.children, List.find?_append, hsame path parent j hparent]
      simp [hleaf.name_self, hj.symm]
    · rw [named, hleaf.other l hln hlp, hsame q l j hl]

theorem Inv.newLeaf (hinv : Inv s h P) (hleaf : NewLeaf s s' parent n fakenode pch)
    (hparent : Trie.walk (named s) s.root path = some parent) (hfree : named s parent pch = none)
    (hn : ∀ q, Trie.walk (named s) s.root q ≠ some n) (hpch : 0 ∉ pch) (hnull : fakenode ≠ null)
    (hfake : ∀ q m, Trie.walk (named s) s.root q = some m → (s.node m).value.node ≠ fakenode) :
    Inv s' h (fun q => P q ∨ q = path ++ [pch]) := by
  have hgrown := hinv.grown hleaf hparent hfree hn
  have hwalk : ∀ q, Trie.walk (named s') s'.root q =
      if q = path ++ [pch] then some n else Trie.walk (named s) s.root q := by
    intro q
    rw [hleaf.root]
    exact hgrown.walk_eq hinv.distinct hparent q
  have hcases : ∀ q m, Trie.walk (named s') s'.root q = some m →
      (q = path ++ [pch] ∧ m = n) ∨
        (m ≠ n ∧ q ≠ path ++ [pch] ∧ Trie.walk (named s) s.root q = some m) := by
    intro q m hm
    rw [hwalk] at hm
    split_ifs at hm with hq
    · exact Or.inl ⟨hq, (Option.some.inj hm).symm⟩
    · exact Or.inr ⟨fun heq => hn q (heq ▸ hm), hq, hm⟩
  have hchild : ∀ q m, Trie.walk (named s) s.root q = some m → ∀ c ∈ (s.node m).children,
      s'.name c = s.name c := by
    intro q m hm c hc
    exact hleaf.name_of_ne fun heq => hn _ (heq ▸ hinv.walk_child hm hc)
  refine ⟨fun q m hm c hc => ?_, fun q m hm => ?_, ?_, fun q => ?_, fun q m hm => ?_,
    fun q a hq => Or.inl (hinv.known q a hq)⟩
  · rcases hcases q m hm with ⟨-, rfl⟩ | ⟨hmn, -, hm⟩
    · rw [hleaf.leaf] at hc
      exact absurd hc List.not_mem_nil
    · by_cases hmp : m = parent
      · rw [hmp, hleaf.children, List.mem_append, List.mem_singleton] at hc
        rcases hc with hc | rfl
        · rw [hchild path parent hparent c hc]
          exact hinv.names path parent hparent c hc
        · rw [hleaf.name_self]
          exact hpch
      · rw [hleaf.other m hmn hmp] at hc
        rw [hchild q m hm c hc]
        exact hinv.names q m hm c hc
  · rcases hcases q m hm with ⟨-, rfl⟩ | ⟨hmn, -, hm⟩
    · rw [hleaf.leaf]
      exact List.nodup_nil
    · have hold : (s.node m).children.map s'.name = (s.node m).children.map s.name :=
        List.map_congr_left (hchild q m hm)
      by_cases hmp : m = parent
      · subst hmp
        rw [hleaf.children, List.map_append, hold, List.map_singleton, hleaf.name_self]
        refine (hinv.siblings q m hm).append (List.nodup_singleton pch) ?_
        rw [List.disjoint_singleton, List.mem_map]
        rintro ⟨c, hc, hname⟩
        exact named_eq_none hfree c hc hname
      · rw [hleaf.other m hmn hmp, hold]
        exact hinv.siblings q m hm
  · rw [hleaf.root]
    exact hgrown.distinct hinv.distinct hparent hn
  · rw [hwalk]
    split_ifs with hq
    · exact ⟨fun _ => ⟨n, rfl⟩, fun _ => Or.inr hq⟩
    · rw [← hinv.present q]
      exact or_iff_left hq
  · rcases hcases q m hm with ⟨rfl, rfl⟩ | ⟨hmn, -, hm⟩
    · -- nothing was mounted here, as there was no node
      have hnone : latest h (path ++ [pch]) = none := by
        cases hlatest : latest h (path ++ [pch]) with
        | none => rfl
        | some a =>
          obtain ⟨k, hk⟩ := (hinv.present _).mp (hinv.known _ a hlatest)
          rw [Trie.walk_concat, hparent, Option.bind_some, hfree] at hk
          cases hk
      refine Or.inr ⟨hnone, Or.inr ?_⟩
      rw [hleaf.leaf]
      exact ⟨hnull, pch, by simp, hleaf.fake⟩
    · have hheld := hinv.held q m hm
      unfold Held at hheld ⊢
      rw [hleaf.value_of_ne hmn, hleaf.fsNode _ (hfake q m hm)]
      exact hheld

theorem Supply.tail {p : Addr × Addr} (hsupply : Supply s (p :: memory)) (hinv : Inv s h P)
    (hleaf : NewLeaf s s' parent p.1 p.2 pch)
    (hparent : Trie.walk (named s) s.root path = some parent)
    (hfree : named s parent pch = none) : Supply s' memory := by
  have hn : ∀ q, Trie.walk (named s) s.root q ≠ some p.1 :=
    hsupply.unused p.1 (List.mem_cons_self ..)
  have hwalk := (hinv.grown hleaf hparent hfree hn).walk_eq hinv.distinct hparent
  have hnodes := hsupply.nodes
  have hfakes := hsupply.fakes
  rw [List.map_cons, List.nodup_cons] at hnodes hfakes
  refine ⟨hnodes.2, hfakes.2, fun n hmem q hq => ?_, fun fake hmem => ⟨?_, fun q m hm => ?_⟩⟩
  · rw [hleaf.root, hwalk] at hq
    split_ifs at hq
    · obtain rfl := Option.some.inj hq
      exact hnodes.1 hmem
    · exact hsupply.unused n (List.mem_cons_of_mem _ hmem) q hq
  · exact (hsupply.free fake (List.mem_cons_of_mem _ hmem)).1
  · rw [hleaf.root, hwalk] at hm
    split_ifs at hm
    · obtain rfl := Option.some.inj hm
      rw [hleaf.leaf]
      intro heq
      have heq' : p.2 = fake := heq
      exact hfakes.1 (heq' ▸ hmem)
    · have hmn : m ≠ p.1 := fun heq => hn q (heq ▸ hm)
      rw [hleaf.value_of_ne hmn]
      exact (hsupply.free fake (List.mem_cons_of_mem _ hmem)).2 q m hm

theorem mountLoop_of_some {rest : List Chars} {child : Addr}
    (hchild : findChild s parent pch = some child) :
    MountTree.mountLoop (pch :: rest) memory s parent =
        MountTree.mountLoop rest memory s child := by
  cases memory <;> simp [MountTree.mountLoop, hchild]

theorem mountLoop_of_none {rest : List Chars} (hchild : findChild s parent pch = none)
    (hnew : newNode s parent n fakenode pch = some s') :
    MountTree.mountLoop (pch :: rest) ((n, fakenode) :: memory) s parent =
      MountTree.mountLoop rest memory s' n := by
  simp [MountTree.mountLoop, hchild, hnew]

/-- The loop goes down to the node at the path, and makes what is missing on the way. -/
theorem Inv.mountLoop {rest : List Chars} (hinv : Inv s h P)
    (hparent : Trie.walk (named s) s.root path = some parent)
    (hrest : ∀ c ∈ rest, Component c ∧ c.length < 256) (hsupply : Supply s memory)
    (henough : rest.length ≤ memory.length) :
    ∃ s' n, MountTree.mountLoop rest memory s parent = some (s', n) ∧
      Trie.walk (named s') s'.root (path ++ rest) = some n ∧
      Inv s' h (fun q => P q ∨ q <+: path ++ rest) := by
  induction rest generalizing s P path parent memory with
  | nil =>
    refine ⟨s, parent, rfl, by simpa using hparent, hinv.names, hinv.siblings, hinv.distinct,
      fun q => ?_, hinv.held, fun q a hq => Or.inl (hinv.known q a hq)⟩
    rw [← hinv.present q]
    refine or_iff_left_of_imp fun hq => (hinv.present q).mpr ?_
    exact Trie.exists_walk_of_prefix (by simpa using hq) hparent
  | cons pch rest ih =>
    obtain ⟨⟨-, hpch, -⟩, hlen⟩ := hrest pch List.mem_cons_self
    have htail := fun c hc => hrest c (List.mem_cons_of_mem _ hc)
    have hpath : path ++ [pch] ++ rest = path ++ pch :: rest := by simp
    rw [List.length_cons] at henough
    have hfind := findChild_eq_named (hinv.names path parent hparent) hpch
    cases hchild : named s parent pch with
    | some child =>
      have hwalk : Trie.walk (named s) s.root (path ++ [pch]) = some child := by
        rw [Trie.walk_concat, hparent, Option.bind_some, hchild]
      rw [← hpath, mountLoop_of_some (hfind.trans hchild)]
      exact ih hinv hwalk htail hsupply (by omega)
    | none =>
      cases memory with
      | nil => simp at henough
      | cons p memory =>
        obtain ⟨n, fakenode⟩ := p
        have hn := hsupply.unused n List.mem_cons_self
        obtain ⟨hnull, hfake⟩ := hsupply.free fakenode List.mem_cons_self
        have hne : parent ≠ n := fun heq => hn path (heq ▸ hparent)
        obtain ⟨s₁, hnew, hleaf⟩ :=
          @newNode_newLeaf s parent n fakenode pch hne hlen
        have hinv₁ := hinv.newLeaf hleaf hparent hchild hn hpch hnull hfake
        have hwalk : Trie.walk (named s₁) s₁.root (path ++ [pch]) = some n := by
          rw [hleaf.root, (hinv.grown hleaf hparent hchild hn).walk_eq hinv.distinct hparent,
            if_pos rfl]
        obtain ⟨s', m, hrun, hm, hinv'⟩ :=
          ih hinv₁ hwalk htail (hsupply.tail hinv hleaf hparent hchild)
            (by simpa using henough)
        refine ⟨s', m, ?_, hpath ▸ hm, hinv'.names, hinv'.siblings, hinv'.distinct, fun q => ?_,
          hinv'.held, fun q a hq => Or.inl (hinv.known q a hq)⟩
        · rw [mountLoop_of_none (hfind.trans hchild) hnew]
          exact hrun
        · have hlast : q = path ++ [pch] → q <+: path ++ pch :: rest := by
            rintro rfl
            exact ⟨rest, hpath⟩
          rw [← hinv'.present q, hpath, or_assoc, or_iff_right_of_imp hlast]

end Growing

section Mounting

variable {s : State} {h : List (List Chars × Addr)} {P : List Chars → Prop} {path : List Chars}
  {n node : Addr} {m : Mount} {mounts : List Mount}

theorem latest_cons (h : List (List Chars × Addr)) (path q : List Chars) (node : Addr) :
    latest ((path, node) :: h) q = if path = q then some node else latest h q := by
  unfold latest
  rw [List.find?_cons]
  by_cases hq : path = q <;> simp [hq]

theorem present_cons (h : List (List Chars × Addr)) (path q : List Chars) (node : Addr) :
    Present ((path, node) :: h) q ↔ Present h q ∨ q <+: path := by
  simp only [Present, List.exists_mem_cons_iff, or_assoc]
  rw [@or_comm (q <+: path)]

/-- The children of a node and their names do not depend on what is mounted. -/
theorem named_setFsNode (s : State) (n node : Addr) : named (s.setFsNode n node) = named s := by
  have hchildren : ∀ m, ((s.setFsNode n node).node m).children = (s.node m).children := by
    intro m
    by_cases hm : m = n <;> simp [State.setFsNode, State.setNode, hm]
  have hname : ∀ m, (s.setFsNode n node).name m = s.name m := by
    intro m
    by_cases hm : m = n <;> simp [State.setFsNode, State.setNode, State.name, hm]
  funext m c
  simp only [named, hchildren, hname]

theorem Inv.setFsNode (hinv : Inv s h P) (hn : Trie.walk (named s) s.root path = some n)
    (node : Addr) : Inv (s.setFsNode n node) ((path, node) :: h) P := by
  have hnamed := named_setFsNode s n node
  have hchildren : ∀ m, ((s.setFsNode n node).node m).children = (s.node m).children := by
    intro m
    by_cases hm : m = n <;> simp [State.setFsNode, State.setNode, hm]
  have hname : (s.setFsNode n node).name = s.name := by
    funext m
    by_cases hm : m = n <;> simp [State.setFsNode, State.setNode, State.name, hm]
  refine ⟨?_, ?_, ?_, ?_, ?_, ?_⟩
  · rw [hnamed, hname]
    intro q m hm c hc
    exact hinv.names q m hm c (hchildren m ▸ hc)
  · rw [hnamed, hname]
    intro q m hm
    rw [hchildren]
    exact hinv.siblings q m hm
  · rw [hnamed]
    exact hinv.distinct
  · rw [hnamed]
    exact hinv.present
  · rw [hnamed]
    intro q m hm
    by_cases hq : path = q
    · subst hq
      rw [show s.root = (s.setFsNode n node).root from rfl] at hn
      obtain rfl := Option.some.inj (hn.symm.trans hm)
      refine Or.inl ?_
      rw [latest_cons, if_pos rfl]
      simp [State.setFsNode, State.setNode]
    · have hmn : m ≠ n := by
        rintro rfl
        exact hq (hinv.distinct _ _ _ hn hm)
      have hheld := hinv.held q m hm
      unfold Held at hheld ⊢
      rw [latest_cons, if_neg hq]
      simpa [State.setFsNode, State.setNode, hmn] using hheld
  · intro q a hq
    rw [latest_cons] at hq
    split_ifs at hq with heq
    · exact heq ▸ (hinv.present path).mpr ⟨n, hn⟩
    · exact hinv.known q a hq

theorem length_le_join (path : List Chars) : path.length ≤ (join slash path).length := by
  induction path with
  | nil => exact Nat.le_refl 0
  | cons c path ih =>
    simp only [join_cons, List.length_cons, List.length_append]
    omega

theorem tokens_pathOf (hpath : ∀ c ∈ path, Component c) :
    tokens slash ((pathOf path).length + 1) (some (pathOf path)) none = path := by
  unfold pathOf
  split_ifs with hnil
  · rw [hnil]
    decide
  · have hlen := length_le_join path
    exact tokens_join (by decide) hpath (by omega) rfl

theorem deref_pathOf (path : List Chars) : deref (pathOf path) = slash := by
  unfold pathOf
  split_ifs with hnil
  · rfl
  · cases path with
    | nil => exact absurd rfl hnil
    | cons c path => rfl

theorem length_pathOf_eq_one (hpath : ∀ c ∈ path, Component c) :
    (pathOf path).length = 1 ↔ path = [] := by
  unfold pathOf
  split_ifs with hnil
  · simp [hnil]
  · cases path with
    | nil => exact absurd rfl hnil
    | cons c path =>
      have hc := List.length_pos_of_ne_nil (hpath c List.mem_cons_self).1
      simp only [join_cons, List.length_cons, List.length_append, hnil, iff_false]
      omega

theorem Meets.supply (hmeets : Meets s m) : Supply s m.memory where
  nodes := hmeets.nodes
  fakes := hmeets.fakes
  unused n hn path hwalk := hmeets.unused n hn path (at_of_walk hwalk)
  free fake hfake := ⟨(hmeets.free fake hfake).1,
    fun path n hwalk => (hmeets.free fake hfake).2 path n (at_of_walk hwalk)⟩

/-- A mount, of a node or of `NULL`. -/
theorem Inv.mount (hinv : Inv s h (Present h)) (hmeets : Meets s m) :
    ∃ s', (vfsMount s m.node (pathOf m.path) m.memory).map Prod.fst = some s' ∧
      Inv s' (history [m] ++ h) (Present (history [m] ++ h)) := by
  have hcomponents : ∀ c ∈ m.path, Component c := fun c hc => (hmeets.components c hc).1
  unfold vfsMount
  by_cases hnull : m.node = null
  · rw [if_pos hnull]
    refine ⟨s, rfl, ?_⟩
    simpa [history, hnull] using hinv
  · have hhistory : history [m] ++ h = (m.path, m.node) :: h := by simp [history, hnull]
    rw [if_neg hnull, if_neg (not_ne_iff.mpr (deref_pathOf m.path)), hhistory]
    have hmounted : ∀ s' n, Trie.walk (named s') s'.root m.path = some n →
        Inv s' h (fun q => Present h q ∨ q <+: m.path) →
        Inv (s'.setFsNode n m.node) ((m.path, m.node) :: h)
          (Present ((m.path, m.node) :: h)) := by
      intro s' n hn hinv'
      rw [show Present ((m.path, m.node) :: h) = fun q => Present h q ∨ q <+: m.path from
        funext fun q => propext (present_cons h m.path q m.node)]
      exact hinv'.setFsNode hn m.node
    obtain ⟨s', n, hrun, hn, hinv'⟩ :=
      @Inv.mountLoop s h _ [] s.root _ _ hinv rfl hmeets.components hmeets.supply hmeets.enough
    rw [List.nil_append] at hn hinv'
    by_cases hroot : (pathOf m.path).length = 1
    · rw [if_pos hroot]
      rw [length_pathOf_eq_one hcomponents] at hroot
      rw [hroot] at hrun hn hinv'
      obtain ⟨rfl, rfl⟩ := Prod.mk.inj (Option.some.inj hrun)
      exact ⟨_, rfl, hmounted s s.root (hroot ▸ hn) (hroot ▸ hinv')⟩
    · rw [if_neg hroot, tokens_pathOf hcomponents, hrun]
      exact ⟨_, rfl, hmounted s' n hn hinv'⟩

theorem Inv.run (hinv : Inv s h (Present h)) (hmeet : AllMeet s mounts) :
    ∃ s', s.run mounts = some s' ∧
      Inv s' (history mounts ++ h) (Present (history mounts ++ h)) := by
  induction mounts generalizing s h with
  | nil => exact ⟨s, rfl, hinv⟩
  | cons m mounts ih =>
    obtain ⟨s₁, hstep, hinv₁⟩ := hinv.mount hmeet.1
    obtain ⟨s', hrun, hinv'⟩ := ih hinv₁ (hmeet.2 s₁ hstep)
    have hhistory : history (m :: mounts) ++ h = history mounts ++ (history [m] ++ h) := by
      by_cases hnull : m.node = null <;> simp [history, hnull]
    refine ⟨s', ?_, hhistory ▸ hinv'⟩
    rw [State.run, List.foldlM_cons, hstep]
    exact hrun

theorem walk_vfsInit (node : Addr → TreeNode) (fsNode : Addr → FsNode) (root : Addr)
    (hn : Trie.walk (named (vfsInit node fsNode root)) root path = some n) :
    path = [] ∧ n = root := by
  cases path with
  | nil => exact ⟨rfl, (Option.some.inj hn).symm⟩
  | cons c path => simp [Trie.walk, named, vfsInit] at hn

theorem inv_vfsInit (node : Addr → TreeNode) (fsNode : Addr → FsNode) (root : Addr) :
    Inv (vfsInit node fsNode root) [] (Present []) := by
  refine ⟨fun q m hm c hc => ?_, fun q m hm => ?_, fun p q m hp hq => ?_, fun q => ?_,
    fun q m hm => ?_, fun q a hq => ?_⟩
  · obtain ⟨-, rfl⟩ := walk_vfsInit node fsNode root hm
    simp [vfsInit] at hc
  · obtain ⟨-, rfl⟩ := walk_vfsInit node fsNode root hm
    simp [vfsInit]
  · rw [(walk_vfsInit node fsNode root hp).1, (walk_vfsInit node fsNode root hq).1]
  · constructor
    · rintro (rfl | ⟨m, hm, -⟩)
      · exact ⟨root, rfl⟩
      · exact absurd hm List.not_mem_nil
    · rintro ⟨m, hm⟩
      exact Or.inl (walk_vfsInit node fsNode root hm).1
  · obtain ⟨hq, rfl⟩ := walk_vfsInit node fsNode root hm
    exact Or.inr ⟨rfl, Or.inl ⟨hq, by simp [vfsInit]⟩⟩
  · cases hq

end Mounting

section Lookup

variable {s : State} {h : List (List Chars × Addr)} {P : List Chars → Prop} {path p : List Chars}
  {n : Addr}

theorem Inv.at_iff_walk (hinv : Inv s h P) :
    At s path n ↔ Trie.walk (named s) s.root path = some n :=
  ⟨walk_of_at hinv.siblings, at_of_walk⟩

theorem Inv.shape (hinv : Inv s h (Present h)) : Shape s h where
  one q hq := by
    obtain ⟨n, hn⟩ := (hinv.present q).mp hq
    refine ⟨n, hinv.at_iff_walk.mpr hn, fun m hm => ?_⟩
    exact Option.some.inj ((hinv.at_iff_walk.mp hm).symm.trans hn)
  present q n hn := (hinv.present q).mpr ⟨n, hinv.at_iff_walk.mp hn⟩
  apart q q' n hn hn' := hinv.distinct q q' n (hinv.at_iff_walk.mp hn) (hinv.at_iff_walk.mp hn')
  siblings q n hn := hinv.siblings q n (hinv.at_iff_walk.mp hn)

/-- What is held at the root or at a mounted path is what is stored there. -/
theorem Inv.stored (hinv : Inv s h P) (hn : Trie.walk (named s) s.root p = some n) :
    Stored s h p (s.node n).value.node := by
  rcases hinv.held p n hn with hlatest | ⟨hnone, hroot | ⟨hnull, c, hc, hfake⟩⟩
  · exact Or.inl hlatest
  · exact Or.inr ⟨hnone, Or.inr hroot⟩
  · refine Or.inr ⟨hnone, Or.inl ⟨hnull, by rw [hfake], by rw [hc, hfake], ?_⟩⟩
    rw [hfake]
    exact hinv.at_iff_walk.mpr hn

/-- The loop of `vfs_getMountpoint` goes down the tree as far as it can. -/
theorem Inv.lookupLoop (hinv : Inv s h P) (hn : Trie.walk (named s) s.root p = some n)
    (hpath : ∀ c ∈ path, Component c) (depth : CInt) :
    MountTree.lookupLoop s path n depth = ((Trie.descend (named s) n path).2,
      depth + BitVec.ofNat 32 (join slash (Trie.descend (named s) n path).1).length) := by
  induction path generalizing p n depth with
  | nil => simp [MountTree.lookupLoop, Trie.descend]
  | cons c path ih =>
    obtain ⟨-, hc, -⟩ := hpath c List.mem_cons_self
    rw [MountTree.lookupLoop, findChild_eq_named (hinv.names p n hn) hc, Trie.descend]
    cases hchild : named s n c with
    | none => simp
    | some m =>
      have hm : Trie.walk (named s) s.root (p ++ [c]) = some m := by
        rw [Trie.walk_concat, hn, Option.bind_some, hchild]
      have hlen : (join slash (c :: (Trie.descend (named s) m path).1)).length =
          c.length + 1 + (join slash (Trie.descend (named s) m path).1).length := by
        simp only [join_cons, List.length_cons, List.length_append]
        omega
      have hgo := ih hm (fun d hd => hpath d (List.mem_cons_of_mem _ hd))
        (depth + BitVec.ofNat 32 (c.length + 1))
      rw [BitVec.add_assoc, ← BitVec.ofNat_add, ← hlen] at hgo
      exact hgo

theorem join_prefix (hp : p <+: path) : join slash p <+: join slash path := by
  obtain ⟨rest, rfl⟩ := hp
  exact ⟨join slash rest, by simp [join]⟩

theorem join_prefix_pathOf (hp : p <+: path) : join slash p <+: pathOf path := by
  unfold pathOf
  split_ifs with hnil
  · rw [hnil, List.prefix_nil] at hp
    rw [hp]
    exact List.nil_prefix
  · exact join_prefix hp

theorem Inv.found (hinv : Inv s h (Present h)) (hpath : ∀ c ∈ path, Component c) :
    Found s h path := by
  have hroot : Trie.walk (named s) s.root [] = some s.root := rfl
  have hloop := hinv.lookupLoop hroot hpath 0
  have hwalk := @Trie.walk_descend _ _ (named s) s.root path
  have hleads := @Trie.descend_prefix _ _ (named s) s.root path
  refine ⟨(Trie.descend (named s) s.root path).1, ⟨hleads, ?_, fun q hq hpresent => ?_⟩, ?_,
    join_prefix_pathOf hleads, fun hshort => ?_⟩
  · exact (hinv.present _).mpr ⟨_, hwalk⟩
  · obtain ⟨m, hm⟩ := (hinv.present q).mp hpresent
    exact Trie.prefix_descend hq hm
  · rw [vfsGetMountpoint, tokens_pathOf hpath, hloop]
    exact hinv.stored hwalk
  · rw [vfsGetMountpoint, tokens_pathOf hpath, hloop]
    simp only [BitVec.ofNat_eq_ofNat, BitVec.zero_add]
    exact toNat_signExtend_ofNat hshort

/-- On a path that leaves the mounted one where nothing deeper is mounted, that is the longest
prefix. -/
theorem eq_of_longest {rest : List Chars} (hlongest : Longest h (path ++ rest) p)
    (hpath : Present h path)
    (hrest : ∀ c, rest.head? = some c → ¬ Present h (path ++ [c])) : p = path := by
  obtain ⟨more, rfl⟩ := hlongest.longest path (List.prefix_append path rest) hpath
  cases more with
  | nil => simp
  | cons c more =>
    have hleads := (List.prefix_append_right_inj path).mp hlongest.isPrefix
    obtain ⟨tail, rfl⟩ := hleads
    refine absurd ?_ (hrest c rfl)
    rcases hlongest.present with hnil | ⟨m, hm, hm'⟩
    · simp at hnil
    · have hshort : path ++ [c] <+: path ++ c :: more := ⟨more, by simp⟩
      exact Or.inr ⟨m, hm, hshort.trans hm'⟩

theorem Inv.foundBelow (hinv : Inv s h (Present h)) {rest : List Chars}
    (hpath : ∀ c ∈ path ++ rest, Component c) : FoundBelow s h path rest := by
  intro node hnode hrest
  obtain ⟨p, hlongest, hstored, -⟩ := hinv.found hpath
  obtain rfl := eq_of_longest hlongest (hinv.known path node hnode) hrest
  rcases hstored with hsome | ⟨hnone, -⟩
  · exact Option.some.inj (hsome.symm.trans hnode)
  · rw [hnode] at hnone
    cases hnone

end Lookup

/-- After any mounts at canonical paths whose parts are names, the tree has one node for every
prefix of these, and along every canonical path `vfs_getMountpoint` finds what is stored at its
longest prefix in the tree, which for the root may be `NULL`. -/
theorem mountpoints_of_run {node : Addr → TreeNode} {fsNode : Addr → FsNode} {root : Addr}
    {mounts : List Mount} (hmeet : AllMeet (vfsInit node fsNode root) mounts) :
    ∃ s, (vfsInit node fsNode root).run mounts = some s ∧ Shape s (history mounts) ∧
      (∀ path, (∀ c ∈ path, Component c) → Found s (history mounts) path) ∧
      ∀ path rest, (∀ c ∈ path ++ rest, Component c) →
        FoundBelow s (history mounts) path rest := by
  obtain ⟨s, hrun, hinv⟩ := (inv_vfsInit node fsNode root).run hmeet
  rw [List.append_nil] at hinv
  exact ⟨s, hrun, hinv.shape, fun path hpath => hinv.found hpath,
    fun path rest hpath => hinv.foundBelow hpath⟩

section Example

variable {s : State} {l : List Addr}

theorem At.mem_of_closed (hroot : s.root ∈ l)
    (hclosed : l.flatMap (fun n => (s.node n).children) ⊆ l) {path : List Chars} {n : Addr}
    (h : At s path n) : n ∈ l := by
  induction h with
  | root => exact hroot
  | child hn hc ih => exact hclosed (List.mem_flatMap.mpr ⟨_, ih, hc⟩)

/-- Where the nodes of the tree are all in a list, memory that is not in use is found by looking
through it. -/
theorem meets_of_closed {m : Mount} (hroot : s.root ∈ l)
    (hchildren : (l.flatMap fun n => (s.node n).children).all (· ∈ l))
    (hpath : m.path.all fun c => Component c ∧ c.length < 256)
    (hlength : m.path.length ≤ m.memory.length)
    (hmemory : (m.memory.map Prod.fst).Nodup ∧ (m.memory.map Prod.snd).Nodup)
    (hunused : m.memory.all fun p =>
      p.1 ∉ l ∧ p.2 ≠ null ∧ p.2 ∉ l.map fun n => (s.node n).value.node) :
    Meets s m := by
  simp only [List.all_eq_true, decide_eq_true_eq] at hchildren hpath hunused
  have hclosed : l.flatMap (fun n => (s.node n).children) ⊆ l := hchildren
  have hfree : ∀ p ∈ m.memory, p.1 ∉ l ∧ p.2 ≠ null ∧
      p.2 ∉ l.map fun n => (s.node n).value.node := hunused
  refine ⟨hpath, hlength, hmemory.1, hmemory.2, fun n hn path hat => ?_, fun fake hfake => ?_⟩
  · obtain ⟨p, hp, rfl⟩ := List.mem_map.mp hn
    exact (hfree p hp).1 (hat.mem_of_closed hroot hclosed)
  · obtain ⟨p, hp, rfl⟩ := List.mem_map.mp hfake
    refine ⟨(hfree p hp).2.1, fun path n hat heq => (hfree p hp).2.2 ?_⟩
    exact List.mem_map.mpr ⟨n, hat.mem_of_closed hroot hclosed, heq⟩

theorem allMeet_cons {m : Mount} {mounts : List Mount} (hmeets : Meets s m)
    (hrest : AllMeet (((vfsMount s m.node (pathOf m.path) m.memory).map Prod.fst).getD s) mounts) :
    AllMeet s (m :: mounts) := by
  refine ⟨hmeets, fun s' hs' => ?_⟩
  rw [Option.mem_def] at hs'
  rwa [hs', Option.getD_some] at hrest

def nullMount : Mount :=
  ⟨0x5000, [[100, 101, 118], [110, 117, 108, 108]], [(0x100, 0x200), (0x110, 0x210)]⟩

def devMount : Mount := ⟨0x6000, [[100, 101, 118]], [(0x120, 0x220)]⟩

def newTree : State := vfsInit (fun _ => ⟨⟨[], null⟩, [], null⟩) (fun _ => ⟨[], null, 0⟩) 0x10

theorem meets_nullMount : Meets newTree nullMount := by
  apply @meets_of_closed newTree [0x10] <;> decide +kernel

theorem allMeet_newTree : AllMeet newTree [nullMount, devMount] := by
  refine allMeet_cons meets_nullMount (allMeet_cons ?_ trivial)
  apply @meets_of_closed _ [0x10, 0x100, 0x110] <;> decide +kernel

theorem mountpoints_of_two_mounts :
    ∃ s, newTree.run [nullMount, devMount] = some s ∧ Shape s (history [nullMount, devMount]) ∧
      (∀ path, (∀ c ∈ path, Component c) → Found s (history [nullMount, devMount]) path) ∧
      ∀ path rest, (∀ c ∈ path ++ rest, Component c) →
        FoundBelow s (history [nullMount, devMount]) path rest :=
  mountpoints_of_run allMeet_newTree

/-- With nothing mounted at the root, what is found along `/a` is `NULL`, which was not mounted and
is no placeholder. And a part of 256 characters does not fit a false directory. -/
theorem root_is_null_and_name_overflows :
    AllMeet newTree [nullMount] ∧ Longest (history [nullMount]) [[97]] [] ∧
    (newTree.run [nullMount]).map (fun s => (vfsGetMountpoint s (pathOf [[97]])).1) = some null ∧
    (¬ ∃ s, newTree.run [nullMount] = some s ∧
      (latest (history [nullMount]) [] = some (vfsGetMountpoint s (pathOf [[97]])).1 ∨
        (latest (history [nullMount]) [] = none ∧
          Placeholder s [] (vfsGetMountpoint s (pathOf [[97]])).1))) ∧
    (newTree.run [⟨0x5000, [List.replicate 256 97], [(0x100, 0x200)]⟩]).isNone := by
  refine ⟨allMeet_cons meets_nullMount trivial, ⟨List.nil_prefix, Or.inl rfl, ?_⟩,
    by decide +kernel, ?_, by decide +kernel⟩
  · intro q hq hpresent
    rcases hpresent with rfl | ⟨m, hm, hm'⟩
    · exact List.nil_prefix
    · have hhistory : history [nullMount] = [(nullMount.path, nullMount.node)] := rfl
      rw [hhistory, List.mem_singleton] at hm
      subst hm
      cases q with
      | nil => exact List.nil_prefix
      | cons c q =>
        obtain ⟨rfl, -⟩ := List.cons_prefix_cons.mp hq
        exact absurd (List.cons_prefix_cons.mp hm').1 (by decide)
  · have hnone : latest (history [nullMount]) [] = none := rfl
    rintro ⟨s, -, hlatest | ⟨-, -, -, hname, -⟩⟩
    · rw [hnone] at hlatest
      cases hlatest
    · simp at hname

end Example

end ReduceOS.MountTree
