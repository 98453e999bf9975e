import ReduceOS.LinkedTree
import Mathlib.Data.BitVec
import Mathlib.Order.Interval.Finset.Nat
import Mathlib.Logic.Relation

/-!
The process tree. Processes and tree nodes are records in kernel memory, reached by
pointers, and what a pointer leads to stays readable after `kfree` until the memory is
given out again. `tree_remove_reparent` walks the children with `foreach` while it moves
them to another list, so the walk ends after the first; the parent pointers in the
process records are not updated at all.
-/
namespace ReduceOS.ProcessTree

open LinkedTree

abbrev Ptr := BitVec 64

def processStarted : BitVec 32 := 0x02

def processRunning : BitVec 32 := 0x04

def processStopped : BitVec 32 := 0x08

structure TreeNode where
  value : Ptr
  children : List Ptr
  parent : Ptr
deriving DecidableEq

structure Process where
  parent : Ptr
  flags : BitVec 32
  node : Ptr
deriving DecidableEq

structure State where
  process : Ptr → Process
  node : Ptr → TreeNode
  /-- The allocated processes. -/
  processes : Finset Ptr
  /-- The allocated tree nodes. -/
  liveNodes : Finset Ptr
  root : Ptr
  /-- `tree->nodes` -/
  nodes : BitVec 64

def isStopped (s : State) (p : Ptr) : Bool := (s.process p).flags &&& processStopped != 0

def setNode (s : State) (n : Ptr) (node : TreeNode) : State :=
  { s with node := Function.update s.node n node }

def setProcess (s : State) (p : Ptr) (process : Process) : State :=
  { s with process := Function.update s.process p process }

def treeCreateNode (s : State) (n value : Ptr) : State :=
  { setNode s n ⟨value, [], 0⟩ with liveNodes := insert n s.liveNodes }

def treeSetParent (s : State) (n value : Ptr) : State :=
  { treeCreateNode s n value with root := n, nodes := 1 }

/-- `tree_insert_child_node` of a new node, which has no children to count. -/
def treeInsertChildNode (s : State) (parent n : Ptr) : State :=
  let s := { s with nodes := s.nodes + 1 }
  let s := setNode s n { s.node n with parent := parent }
  setNode s parent { s.node parent with children := (s.node parent).children ++ [n] }

def treeInsertChild (s : State) (parent n value : Ptr) : State :=
  treeInsertChildNode (treeCreateNode s n value) parent n

/-- The loop of `tree_remove_reparent`: `list_append_node` clears the `next` of the child it
moves, which ends the `foreach`. -/
def reparentChildren (s : State) (parent : Ptr) : List Ptr → State
  | [] => s
  | child :: _ =>
    let s := setNode s child { s.node child with parent := parent }
    setNode s parent { s.node parent with children := (s.node parent).children ++ [child] }

def treeRemoveReparent (s : State) (parent n : Ptr) : State :=
  let s := setNode s parent { s.node parent with children := (s.node parent).children.erase n }
  let s := reparentChildren s parent (s.node n).children
  { s with liveNodes := s.liveNodes.erase n }

def treeRemove (s : State) (n : Ptr) : State :=
  let parent := (s.node n).parent
  if parent = 0 then s else treeRemoveReparent { s with nodes := s.nodes - 1 } parent n

/-- `process_createStructure`, in the memory at `p`, with `n` for the node. -/
def processCreateStructure (s : State) (parent p n : Ptr) (flags : BitVec 32) : State :=
  let s := { setProcess s p ⟨parent, flags, 0⟩ with processes := insert p s.processes }
  if parent ≠ 0 ∧ (s.process parent).node ≠ 0 then
    let s := treeInsertChild s (s.process parent).node n p
    setProcess s p { s.process p with node := n }
  else s

def processSpawnInit (s : State) (p n : Ptr) : State :=
  let s := processCreateStructure s 0 p n (processStarted ||| processRunning)
  let s := treeSetParent s n p
  setProcess s p { s.process p with node := n }

def processFork (s : State) (parent p n : Ptr) : State :=
  processCreateStructure s parent p n (s.process parent).flags

def markStopped (s : State) (p : Ptr) : State :=
  setProcess s p { s.process p with flags := (s.process p).flags ||| processStopped }

def processDestroy (s : State) (p : Ptr) : State :=
  if p = 0 ∨ isStopped s p = false then s
  else
    let n := (s.process p).node
    let s := if n ≠ 0 then
        let s := treeRemove s n
        { s with liveNodes := s.liveNodes.erase n }
      else s
    { s with processes := s.processes.erase p }

/-- A call of the process code. The pointers named `p` and `n` are what `kmalloc` answers. -/
inductive Call where
  | spawnInit (p n : Ptr)
  | create (parent p n : Ptr) (flags : BitVec 32)
  | fork (parent p n : Ptr)
  | exit (p : Ptr)
  | destroy (p : Ptr)

def Call.run (s : State) : Call → State
  | .spawnInit p n => processSpawnInit s p n
  | .create parent p n flags => processCreateStructure s parent p n flags
  | .fork parent p n => processFork s parent p n
  | .exit p => markStopped s p
  | .destroy p => processDestroy s p

def Fresh (s : State) (p n : Ptr) : Prop :=
  p ≠ 0 ∧ p ∉ s.processes ∧ n ≠ 0 ∧ n ∉ s.liveNodes

def Call.Allocates (s : State) : Call → Prop
  | .spawnInit p n => Fresh s p n
  | .create _ p n _ => Fresh s p n
  | .fork _ p n => Fresh s p n
  | .exit _ => True
  | .destroy _ => True

def HasChildren (s : State) (p : Ptr) : Prop :=
  ∃ q ∈ s.processes, (s.process q).node ≠ 0 ∧ (s.process q).parent = p

/-- The tree is built once, parents are live, and what is destroyed is a leaf of the tree other than
its root. -/
def Call.Orderly (s : State) : Call → Prop
  | .spawnInit _ _ => s.liveNodes = ∅
  | .create parent _ _ _ => parent = 0 ∨ parent ∈ s.processes
  | .fork parent _ _ => parent ∈ s.processes
  | .exit _ => True
  | .destroy p => p ∈ s.processes ∧ (isStopped s p = true → (s.process p).node ≠ 0 →
      (s.process p).parent ≠ 0 ∧ ¬ HasChildren s p)

def Step (allowed : State → Call → Prop) (s s' : State) : Prop :=
  ∃ call : Call, call.Allocates s ∧ allowed s call ∧ call.run s = s'

instance (s : State) (p n : Ptr) : Decidable (Fresh s p n) :=
  inferInstanceAs (Decidable (_ ∧ _ ∧ _ ∧ _))

instance (s : State) (call : Call) : Decidable (call.Allocates s) :=
  match call with
  | .spawnInit p n => inferInstanceAs (Decidable (Fresh s p n))
  | .create _ p n _ => inferInstanceAs (Decidable (Fresh s p n))
  | .fork _ p n => inferInstanceAs (Decidable (Fresh s p n))
  | .exit _ => inferInstanceAs (Decidable True)
  | .destroy _ => inferInstanceAs (Decidable True)

instance (s : State) (p : Ptr) : Decidable (HasChildren s p) :=
  inferInstanceAs (Decidable (∃ q ∈ s.processes, _ ∧ _))

instance (s : State) (call : Call) : Decidable (call.Orderly s) :=
  match call with
  | .spawnInit _ _ => inferInstanceAs (Decidable (s.liveNodes = ∅))
  | .create parent _ _ _ => inferInstanceAs (Decidable (parent = 0 ∨ parent ∈ s.processes))
  | .fork parent _ _ => inferInstanceAs (Decidable (parent ∈ s.processes))
  | .exit _ => inferInstanceAs (Decidable True)
  | .destroy _ => inferInstanceAs (Decidable (_ ∧ (_ → _ → _ ∧ _)))

/-- `process_init` leaves an empty tree, and no process has a node. -/
structure Initial (s : State) : Prop where
  root_eq : s.root = 0
  nodes_eq : s.nodes = 0
  live_eq : s.liveNodes = ∅
  unlinked : ∀ p ∈ s.processes, p ≠ 0 ∧ (s.process p).node = 0

def parentValue (s : State) (n : Ptr) : Ptr :=
  if (s.node n).parent = 0 then 0 else (s.node (s.node n).parent).value

def processAt (s : State) (path : List ℕ) : Option Ptr :=
  if s.root = 0 then none
  else (follow (fun n => (s.node n).children) s.root path).map fun n => (s.node n).value

structure Consistent (s : State) : Prop where
  appears_once : ∀ p ∈ s.processes, (s.process p).node ≠ 0 → ∃! path, processAt s path = some p
  parent_value : ∀ p ∈ s.processes, (s.process p).node ≠ 0 →
    parentValue s (s.process p).node = (s.process p).parent
  parent_live : ∀ p ∈ s.processes, (s.process p).node ≠ 0 → (s.process p).parent ≠ 0 →
    (s.process p).parent ∈ s.processes
  counted : s.nodes.toNat = s.liveNodes.card

/-- What the calls keep: nodes and processes belong to each other one to one, the nodes are a
tree, and the parents in the records are those of the tree. -/
structure Good (s : State) : Prop where
  process_ne : 0 ∉ s.processes
  node_ne : 0 ∉ s.liveNodes
  owned : ∀ p ∈ s.processes, (s.process p).node ≠ 0 →
    (s.process p).node ∈ s.liveNodes ∧ (s.node (s.process p).node).value = p
  owner : ∀ n ∈ s.liveNodes, (s.node n).value ∈ s.processes ∧ (s.process (s.node n).value).node = n
  linked : s.liveNodes = ∅ ∨
    Linked s.liveNodes (fun n => (s.node n).children) (fun n => (s.node n).parent) s.root ∧
      (s.node s.root).parent = 0
  parents : ∀ n ∈ s.liveNodes, parentValue s n = (s.process (s.node n).value).parent
  counted : s.nodes.toNat = s.liveNodes.card

structure Owns (s : State) : Prop where
  process_ne : 0 ∉ s.processes
  node_ne : 0 ∉ s.liveNodes
  owned : ∀ p ∈ s.processes, (s.process p).node ≠ 0 →
    (s.process p).node ∈ s.liveNodes ∧ (s.node (s.process p).node).value = p
  owner : ∀ n ∈ s.liveNodes, (s.node n).value ∈ s.processes ∧ (s.process (s.node n).value).node = n

theorem Good.owns {s : State} (h : Good s) : Owns s := ⟨h.process_ne, h.node_ne, h.owned, h.owner⟩

section Reading

variable {s : State} {p n : Ptr}

theorem Good.linked_of_mem (h : Good s) (hn : n ∈ s.liveNodes) :
    Linked s.liveNodes (fun n => (s.node n).children) (fun n => (s.node n).parent) s.root ∧
      (s.node s.root).parent = 0 := by
  refine h.linked.resolve_left fun hempty => ?_
  rw [hempty] at hn
  exact Finset.notMem_empty n hn

theorem Good.parent_mem (h : Good s) (hn : n ∈ s.liveNodes) (hparent : (s.node n).parent ≠ 0) :
    n ≠ s.root ∧ (s.node n).parent ∈ s.liveNodes := by
  obtain ⟨hlinked, hroot⟩ := h.linked_of_mem hn
  have hne : n ≠ s.root := fun hroot' => hparent (hroot' ▸ hroot)
  exact ⟨hne, (hlinked.parent_mem n hn hne).1⟩

theorem Good.consistent (h : Good s) : Consistent s where
  appears_once p hp hnode := by
    obtain ⟨hlive, hvalue⟩ := h.owned p hp hnode
    obtain ⟨hlinked, -⟩ := h.linked_of_mem hlive
    have hroot : s.root ≠ 0 := fun h0 => h.node_ne (h0 ▸ hlinked.root_mem)
    have hiff : ∀ path, processAt s path = some p ↔
        follow (fun n => (s.node n).children) s.root path = some (s.process p).node := by
      intro path
      unfold processAt
      rw [if_neg hroot, Option.map_eq_some_iff]
      constructor
      · rintro ⟨n, hn, hnp⟩
        rw [hn, ← hnp, (h.owner n (follow_mem hlinked hn)).2]
      · intro hfollow
        exact ⟨_, hfollow, hvalue⟩
    simp only [hiff]
    exact existsUnique_follow hlinked hlive
  parent_value p hp hnode := by
    obtain ⟨hlive, hvalue⟩ := h.owned p hp hnode
    rw [h.parents _ hlive, hvalue]
  parent_live p hp hnode hparent := by
    obtain ⟨hlive, hvalue⟩ := h.owned p hp hnode
    have habove := h.parents _ hlive
    rw [hvalue] at habove
    rw [← habove] at hparent ⊢
    unfold parentValue at hparent ⊢
    split_ifs at hparent ⊢ with h0
    · exact absurd rfl hparent
    · exact (h.owner _ (h.parent_mem hlive h0).2).1
  counted := h.counted

theorem Initial.good (h : Initial s) : Good s where
  process_ne h0 := (h.unlinked 0 h0).1 rfl
  node_ne := by
    rw [h.live_eq]
    exact Finset.notMem_empty 0
  owned p hp hnode := absurd (h.unlinked p hp).2 hnode
  owner n hn := by
    rw [h.live_eq] at hn
    exact absurd hn (Finset.notMem_empty n)
  linked := Or.inl h.live_eq
  parents n hn := by
    rw [h.live_eq] at hn
    exact absurd hn (Finset.notMem_empty n)
  counted := by
    rw [h.nodes_eq, h.live_eq]
    rfl

/-- The address `NULL` is never a node, so the count does not wrap. -/
theorem card_lt (h0 : 0 ∉ s.liveNodes) : s.liveNodes.card < 2 ^ 64 := by
  have hmaps : ∀ n ∈ s.liveNodes, n.toNat ∈ Finset.Ioo 0 (2 ^ 64) := by
    intro n hn
    have hne : n.toNat ≠ 0 := fun h => h0 (BitVec.eq_of_toNat_eq (y := 0) h ▸ hn)
    exact Finset.mem_Ioo.mpr ⟨Nat.pos_of_ne_zero hne, n.isLt⟩
  have hcard := Finset.card_le_card_of_injOn BitVec.toNat hmaps
    fun a _ b _ hab => BitVec.eq_of_toNat_eq hab
  rw [Nat.card_Ioo] at hcard
  omega

end Reading

structure LeafAdded (s : State) (parent p n : Ptr) (s' : State) : Prop where
  process_new : (s'.process p).parent = parent ∧ (s'.process p).node = n
  process_old : ∀ q ∈ s.processes, s'.process q = s.process q
  node_new : s'.node n = ⟨p, [], (s.process parent).node⟩
  node_above : (s'.node (s.process parent).node).children =
    (s.node (s.process parent).node).children ++ [n]
  children_old : ∀ k ∈ s.liveNodes, k ≠ (s.process parent).node →
    (s'.node k).children = (s.node k).children
  node_old : ∀ k ∈ s.liveNodes,
    (s'.node k).value = (s.node k).value ∧ (s'.node k).parent = (s.node k).parent
  processes_eq : s'.processes = insert p s.processes
  live_eq : s'.liveNodes = insert n s.liveNodes
  root_eq : s'.root = s.root
  nodes_eq : s'.nodes = s.nodes + 1

section Adding

variable {s : State} {parent p n : Ptr} {flags : BitVec 32}

@[simp] theorem treeInsertChild_process (s : State) (parent n value : Ptr) :
    (treeInsertChild s parent n value).process = s.process := rfl

@[simp] theorem processCreateStructure_processes (s : State) (parent p n : Ptr)
    (flags : BitVec 32) :
    (processCreateStructure s parent p n flags).processes = insert p s.processes := by
  unfold processCreateStructure
  dsimp only
  split_ifs <;> rfl

theorem processCreateStructure_process_of_ne (s : State) (parent n : Ptr) (flags : BitVec 32)
    {p r : Ptr} (hr : r ≠ p) :
    (processCreateStructure s parent p n flags).process r = s.process r := by
  unfold processCreateStructure
  dsimp only
  split_ifs
  · simp [setProcess, hr]
  · simp [setProcess, hr]

theorem processCreateStructure_process_self (s : State) (parent p n : Ptr) (flags : BitVec 32) :
    ((processCreateStructure s parent p n flags).process p).parent = parent ∧
      ((processCreateStructure s parent p n flags).process p).flags = flags := by
  unfold processCreateStructure
  dsimp only
  split_ifs
  · simp [setProcess]
  · simp [setProcess]

theorem processCreateStructure_leafAdded (hfresh : Fresh s p n) (hparent : parent ∈ s.processes)
    (h0 : parent ≠ 0) (hlive : (s.process parent).node ∈ s.liveNodes)
    (hnode : (s.process parent).node ≠ 0) :
    LeafAdded s parent p n (processCreateStructure s parent p n flags) := by
  obtain ⟨hp0, hp, hn0, hn⟩ := hfresh
  have hne : parent ≠ p := fun he => hp (he ▸ hparent)
  have hmn : (s.process parent).node ≠ n := fun he => hn (he ▸ hlive)
  have hcond : parent ≠ 0 ∧
      ((Function.update s.process p ⟨parent, flags, 0⟩) parent).node ≠ 0 := by
    rw [Function.update_of_ne hne]
    exact ⟨h0, hnode⟩
  have hs' : processCreateStructure s parent p n flags =
      { process := Function.update (Function.update s.process p ⟨parent, flags, 0⟩) p
          ⟨parent, flags, n⟩
        node := Function.update (Function.update (Function.update s.node n ⟨p, [], 0⟩) n
          ⟨p, [], (s.process parent).node⟩) (s.process parent).node
          { s.node (s.process parent).node with
            children := (s.node (s.process parent).node).children ++ [n] }
        processes := insert p s.processes
        liveNodes := insert n s.liveNodes
        root := s.root
        nodes := s.nodes + 1 } := by
    refine (if_pos hcond).trans ?_
    simp [setProcess, treeInsertChild, treeInsertChildNode, treeCreateNode, setNode, hne, hmn]
  rw [hs']
  have hold : ∀ q ∈ s.processes, q ≠ p := fun q hq he => hp (he ▸ hq)
  have hnold : ∀ k ∈ s.liveNodes, k ≠ n := fun k hk he => hn (he ▸ hk)
  refine ⟨by simp, fun q hq => by simp [hold q hq], by simp [hmn.symm], by simp, ?_, ?_,
      rfl, rfl, rfl,
    rfl⟩
  · intro k hk hkm
    simp [hkm, hnold k hk]
  · intro k hk
    by_cases hkm : k = (s.process parent).node
    · simp [hkm]
    · simp [hkm, hnold k hk]

theorem LeafAdded.owns (h : Owns s) (hfresh : Fresh s p n) {s' : State}
    (ha : LeafAdded s parent p n s') : Owns s' := by
  obtain ⟨hp0, hp, hn0, hn⟩ := hfresh
  refine ⟨?_, ?_, ?_, ?_⟩
  · rw [ha.processes_eq, Finset.mem_insert]
    exact not_or.mpr ⟨hp0.symm, h.process_ne⟩
  · rw [ha.live_eq, Finset.mem_insert]
    exact not_or.mpr ⟨hn0.symm, h.node_ne⟩
  · intro q hq hqnode
    rw [ha.processes_eq, Finset.mem_insert] at hq
    rcases hq with rfl | hq
    · rw [ha.process_new.2, ha.live_eq, ha.node_new]
      exact ⟨Finset.mem_insert_self _ _, rfl⟩
    · rw [ha.process_old q hq] at hqnode ⊢
      obtain ⟨hlive, hvalue⟩ := h.owned q hq hqnode
      rw [ha.live_eq, (ha.node_old _ hlive).1]
      exact ⟨Finset.mem_insert_of_mem hlive, hvalue⟩
  · intro k hk
    rw [ha.live_eq, Finset.mem_insert] at hk
    rcases hk with rfl | hk
    · rw [ha.node_new, ha.processes_eq]
      exact ⟨Finset.mem_insert_self _ _, ha.process_new.2⟩
    · obtain ⟨hmem, hback⟩ := h.owner k hk
      rw [(ha.node_old k hk).1, ha.processes_eq, ha.process_old _ hmem]
      exact ⟨Finset.mem_insert_of_mem hmem, hback⟩

theorem LeafAdded.good (h : Good s) (hfresh : Fresh s p n) (hparent : parent ∈ s.processes)
    (hnode : (s.process parent).node ≠ 0) {s' : State} (ha : LeafAdded s parent p n s') :
    Good s' := by
  obtain ⟨hprocess, hnodes, howned, howner⟩ := LeafAdded.owns h.owns hfresh ha
  obtain ⟨-, -, hn0, hn⟩ := hfresh
  obtain ⟨hmlive, hmvalue⟩ := h.owned parent hparent hnode
  obtain ⟨hlinked, hroot⟩ := h.linked_of_mem hmlive
  refine ⟨hprocess, hnodes, howned, howner, Or.inr ⟨?_, ?_⟩, ?_, ?_⟩
  · rw [ha.live_eq, ha.root_eq]
    exact hlinked.insertLeaf hmlive hn (by rw [ha.node_new]) ha.node_above ha.children_old
      (by rw [ha.node_new]) fun k hk => (ha.node_old k hk).2
  · rw [ha.root_eq, (ha.node_old _ hlinked.root_mem).2]
    exact hroot
  · intro k hk
    rw [ha.live_eq, Finset.mem_insert] at hk
    rcases hk with rfl | hk
    · unfold parentValue
      rw [ha.node_new, if_neg hnode, (ha.node_old _ hmlive).1, hmvalue, ha.process_new.1]
    · have hsame : parentValue s' k = parentValue s k := by
        unfold parentValue
        rw [(ha.node_old k hk).2]
        split_ifs with h0
        · rfl
        · exact (ha.node_old _ (h.parent_mem hk h0).2).1
      rw [hsame, h.parents k hk, (ha.node_old k hk).1, ha.process_old _ (h.owner k hk).1]
  · have hlt := card_lt h.node_ne
    have hlt' : (insert n s.liveNodes).card < 2 ^ 64 :=
      card_lt (s := { s with liveNodes := insert n s.liveNodes }) (by
        rw [Finset.mem_insert]
        exact not_or.mpr ⟨hn0.symm, h.node_ne⟩)
    rw [ha.nodes_eq, ha.live_eq, Finset.card_insert_of_notMem hn, BitVec.toNat_add, h.counted]
    rw [Finset.card_insert_of_notMem hn] at hlt'
    exact Nat.mod_eq_of_lt hlt'

theorem processCreateStructure_unlinked (hfresh : Fresh s p n)
    (hparent : parent = 0 ∨ parent ∈ s.processes ∧ (s.process parent).node = 0) :
    processCreateStructure s parent p n flags =
      { s with
        process := Function.update s.process p ⟨parent, flags, 0⟩
        processes := insert p s.processes } := by
  have hcond : ¬ (parent ≠ 0 ∧
      ((Function.update s.process p ⟨parent, flags, 0⟩) parent).node ≠ 0) := by
    rintro ⟨h0, hnode⟩
    rcases hparent with rfl | ⟨hmem, hnone⟩
    · exact h0 rfl
    · rw [Function.update_of_ne (ne_of_mem_of_not_mem hmem hfresh.2.1)] at hnode
      exact hnode hnone
  exact if_neg hcond

/-- A process without a node leaves the tree alone. -/
theorem processCreateStructure_good_of_unlinked (h : Good s) (hfresh : Fresh s p n)
    (hparent : parent = 0 ∨ parent ∈ s.processes ∧ (s.process parent).node = 0) :
    Good (processCreateStructure s parent p n flags) := by
  rw [processCreateStructure_unlinked hfresh hparent]
  obtain ⟨hp0, hp, hn0, hn⟩ := hfresh
  have hold : ∀ q ∈ s.processes, q ≠ p := fun q hq he => hp (he ▸ hq)
  refine ⟨?_, h.node_ne, ?_, ?_, h.linked, ?_, h.counted⟩
  · rw [Finset.mem_insert]
    exact not_or.mpr ⟨hp0.symm, h.process_ne⟩
  · intro q hq hqnode
    rcases Finset.mem_insert.mp hq with rfl | hq
    · simp at hqnode
    · simp only [Function.update_of_ne (hold q hq)] at hqnode ⊢
      exact h.owned q hq hqnode
  · intro k hk
    obtain ⟨hmem, hback⟩ := h.owner k hk
    refine ⟨Finset.mem_insert_of_mem hmem, ?_⟩
    simp only [Function.update_of_ne (hold _ hmem)]
    exact hback
  · intro k hk
    simp only [Function.update_of_ne (hold _ (h.owner k hk).1)]
    exact h.parents k hk

theorem processCreateStructure_good (h : Good s) (hfresh : Fresh s p n)
    (hparent : parent = 0 ∨ parent ∈ s.processes) :
    Good (processCreateStructure s parent p n flags) := by
  rcases hparent with hnull | hmem
  · exact processCreateStructure_good_of_unlinked h hfresh (Or.inl hnull)
  · by_cases hnode : (s.process parent).node = 0
    · exact processCreateStructure_good_of_unlinked h hfresh (Or.inr ⟨hmem, hnode⟩)
    · have h0 : parent ≠ 0 := fun he => h.process_ne (he ▸ hmem)
      exact (processCreateStructure_leafAdded hfresh hmem h0 (h.owned parent hmem hnode).1
        hnode).good h hfresh hmem hnode

theorem processSpawnInit_good (h : Good s) (hfresh : Fresh s p n) (hempty : s.liveNodes = ∅) :
    Good (processSpawnInit s p n) := by
  obtain ⟨hp0, hp, hn0, hn⟩ := hfresh
  have hs' : processSpawnInit s p n =
      { process := Function.update s.process p ⟨0, processStarted ||| processRunning, n⟩
        node := Function.update s.node n ⟨p, [], 0⟩
        processes := insert p s.processes
        liveNodes := {n}
        root := n
        nodes := 1 } := by
    simp [processSpawnInit, processCreateStructure, setProcess, treeSetParent, treeCreateNode,
      setNode, hempty]
  have hnone : ∀ q ∈ s.processes, (s.process q).node = 0 := by
    intro q hq
    by_contra hnode
    have hlive := (h.owned q hq hnode).1
    rw [hempty] at hlive
    exact Finset.notMem_empty _ hlive
  rw [hs']
  refine ⟨?_, ?_, ?_, ?_, Or.inr ⟨Linked.single (by simp), by simp⟩, ?_, rfl⟩
  · rw [Finset.mem_insert]
    exact not_or.mpr ⟨hp0.symm, h.process_ne⟩
  · rw [Finset.mem_singleton]
    exact hn0.symm
  · intro q hq hqnode
    rcases Finset.mem_insert.mp hq with rfl | hq
    · simp
    · have hne : q ≠ p := fun he => hp (he ▸ hq)
      simp only [Function.update_of_ne hne] at hqnode
      exact absurd (hnone q hq) hqnode
  · intro k hk
    rw [Finset.mem_singleton.mp hk]
    simp
  · intro k hk
    rw [Finset.mem_singleton.mp hk]
    simp [parentValue]

end Adding

theorem isStopped_markStopped_of_ne (s : State) {p r : Ptr} (hr : r ≠ p) :
    isStopped (markStopped s p) r = isStopped s r := by
  simp only [isStopped, markStopped, setProcess, Function.update_of_ne hr]

@[simp] theorem isStopped_markStopped_self (s : State) (p : Ptr) :
    isStopped (markStopped s p) p = true := by
  have hbit : ((s.process p).flags ||| processStopped) &&& processStopped = processStopped := by
    ext i hi
    rw [BitVec.getElem_and, BitVec.getElem_or]
    cases (s.process p).flags[i] <;> cases processStopped[i] <;> rfl
  simp only [isStopped, markStopped, setProcess, Function.update_self, hbit]
  rfl

theorem isStopped_markStopped {s : State} {p r : Ptr} (h : isStopped s r = true) :
    isStopped (markStopped s p) r = true := by
  by_cases hr : r = p
  · rw [hr]
    exact isStopped_markStopped_self s p
  · rw [isStopped_markStopped_of_ne s hr]
    exact h

@[simp] theorem markStopped_node (s : State) (p r : Ptr) :
    ((markStopped s p).process r).node = (s.process r).node := by
  by_cases hr : r = p
  · simp [markStopped, setProcess, hr]
  · simp [markStopped, setProcess, hr]

@[simp] theorem markStopped_parent (s : State) (p r : Ptr) :
    ((markStopped s p).process r).parent = (s.process r).parent := by
  by_cases hr : r = p
  · simp [markStopped, setProcess, hr]
  · simp [markStopped, setProcess, hr]

theorem markStopped_good {s : State} (h : Good s) (p : Ptr) : Good (markStopped s p) := by
  refine ⟨h.process_ne, h.node_ne, ?_, ?_, h.linked, ?_, h.counted⟩
  · intro q hq
    rw [markStopped_node]
    exact h.owned q hq
  · intro n hn
    rw [markStopped_node]
    exact h.owner n hn
  · intro n hn
    rw [markStopped_parent]
    exact h.parents n hn

/-- What is written over a freed record does not matter. -/
theorem Owns.setProcess {s : State} (h : Owns s) {p : Ptr} (hp : p ∉ s.processes)
    (process : Process) : Owns (setProcess s p process) := by
  have hold : ∀ q ∈ s.processes, (ProcessTree.setProcess s p process).process q = s.process q :=
    fun q hq => Function.update_of_ne (ne_of_mem_of_not_mem hq hp) _ _
  refine ⟨h.process_ne, h.node_ne, ?_, ?_⟩
  · intro q hq
    rw [hold q hq]
    exact h.owned q hq
  · intro n hn
    obtain ⟨hmem, hback⟩ := h.owner n hn
    exact ⟨hmem, (congrArg Process.node (hold _ hmem)).trans hback⟩

theorem Good.setProcess {s : State} (h : Good s) {p : Ptr} (hp : p ∉ s.processes)
    (process : Process) : Good (setProcess s p process) := by
  have hold : ∀ q ∈ s.processes, (ProcessTree.setProcess s p process).process q = s.process q :=
    fun q hq => Function.update_of_ne (ne_of_mem_of_not_mem hq hp) _ _
  obtain ⟨hprocess, hnodes, howned, howner⟩ := h.owns.setProcess hp process
  refine ⟨hprocess, hnodes, howned, howner, h.linked, ?_, h.counted⟩
  · intro n hn
    exact (h.parents n hn).trans (congrArg Process.parent (hold _ (h.owner n hn).1)).symm

section Destroying

variable {s : State} {p : Ptr}

@[simp] theorem reparentChildren_process (s : State) (parent : Ptr) (children : List Ptr) :
    (reparentChildren s parent children).process = s.process := by
  cases children <;> rfl

@[simp] theorem reparentChildren_processes (s : State) (parent : Ptr) (children : List Ptr) :
    (reparentChildren s parent children).processes = s.processes := by
  cases children <;> rfl

@[simp] theorem treeRemove_process (s : State) (n : Ptr) :
    (treeRemove s n).process = s.process := by
  unfold treeRemove
  dsimp only
  split_ifs
  · rfl
  · simp [treeRemoveReparent, setNode]

@[simp] theorem treeRemove_processes (s : State) (n : Ptr) :
    (treeRemove s n).processes = s.processes := by
  unfold treeRemove
  dsimp only
  split_ifs
  · rfl
  · simp [treeRemoveReparent, setNode]

@[simp] theorem processDestroy_process (s : State) (p : Ptr) :
    (processDestroy s p).process = s.process := by
  unfold processDestroy
  dsimp only
  split_ifs
  · rfl
  · exact treeRemove_process s _
  · rfl

/-- The node of a process without children has no children. -/
theorem Good.children_eq_nil (h : Good s) (hp : p ∈ s.processes) (hnode : (s.process p).node ≠ 0)
    (hnone : ¬ HasChildren s p) : (s.node (s.process p).node).children = [] := by
  obtain ⟨hlive, hvalue⟩ := h.owned p hp hnode
  obtain ⟨hlinked, -⟩ := h.linked_of_mem hlive
  rw [List.eq_nil_iff_forall_not_mem]
  intro c hc
  obtain ⟨hclive, hcroot, hcparent⟩ := hlinked.child_mem _ hlive c hc
  obtain ⟨hmem, hback⟩ := h.owner c hclive
  have hc0 : c ≠ 0 := fun h0 => h.node_ne (h0 ▸ hclive)
  refine hnone ⟨(s.node c).value, hmem, fun h0 => hc0 (hback.symm.trans h0), ?_⟩
  rw [← h.parents c hclive]
  unfold parentValue
  rw [hcparent, if_neg hnode, hvalue]

theorem destroy_runs (hp0 : p ≠ 0) (hstopped : isStopped s p = true) :
    ¬ (p = 0 ∨ isStopped s p = false) := by
  rw [hstopped]
  exact not_or.mpr ⟨hp0, Bool.noConfusion⟩

theorem processDestroy_processes (hp0 : p ≠ 0) (hstopped : isStopped s p = true) :
    (processDestroy s p).processes = s.processes.erase p := by
  have hs' : processDestroy s p = _ := if_neg (destroy_runs hp0 hstopped)
  rw [hs']
  dsimp only
  split_ifs
  · rw [treeRemove_processes]
  · rfl

structure LeafRemoved (s : State) (p : Ptr) (s' : State) : Prop where
  process_eq : s'.process = s.process
  node_above : (s'.node (s.node (s.process p).node).parent).children =
    (s.node (s.node (s.process p).node).parent).children.erase (s.process p).node
  children_old : ∀ k, k ≠ (s.node (s.process p).node).parent →
    (s'.node k).children = (s.node k).children
  node_old : ∀ k, (s'.node k).value = (s.node k).value ∧ (s'.node k).parent = (s.node k).parent
  processes_eq : s'.processes = s.processes.erase p
  live_eq : s'.liveNodes = s.liveNodes.erase (s.process p).node
  root_eq : s'.root = s.root
  nodes_eq : s'.nodes = s.nodes - 1

theorem processDestroy_leafRemoved (h : Good s) (hp : p ∈ s.processes)
    (hstopped : isStopped s p = true) (hnode : (s.process p).node ≠ 0)
    (hparent : (s.process p).parent ≠ 0) (hnone : ¬ HasChildren s p) :
    (s.node (s.process p).node).parent ≠ 0 ∧ LeafRemoved s p (processDestroy s p) := by
  have hp0 : p ≠ 0 := fun h0 => h.process_ne (h0 ▸ hp)
  obtain ⟨hlive, hvalue⟩ := h.owned p hp hnode
  have hm0 : (s.node (s.process p).node).parent ≠ 0 := by
    intro h0
    have habove := h.parents _ hlive
    unfold parentValue at habove
    rw [if_pos h0, hvalue] at habove
    exact hparent habove.symm
  obtain ⟨hroot, hmlive⟩ := h.parent_mem hlive hm0
  obtain ⟨rank, hrank⟩ := (h.linked_of_mem hlive).1.ranked
  have hmn : (s.process p).node ≠ (s.node (s.process p).node).parent := by
    intro he
    have hlt := hrank _ hlive hroot
    rw [← he] at hlt
    exact lt_irrefl _ hlt
  have hnil := h.children_eq_nil hp hnode hnone
  have hruns := destroy_runs hp0 hstopped
  refine ⟨hm0, ?_⟩
  generalize hn : (s.process p).node = n at *
  generalize hm : (s.node n).parent = m at *
  have hs' : processDestroy s p =
      { process := s.process
        node := Function.update s.node m { s.node m with children := (s.node m).children.erase n }
        processes := s.processes.erase p
        liveNodes := s.liveNodes.erase n
        root := s.root
        nodes := s.nodes - 1 } := by
    refine (if_neg hruns).trans ?_
    simp only [hn, if_pos hnode, treeRemove, hm, if_neg hm0, treeRemoveReparent, setNode,
      Function.update_of_ne hmn, hnil, reparentChildren, Finset.erase_idem]
  rw [hs']
  refine ⟨rfl, ?_, ?_, ?_, rfl, by rw [hn], rfl, rfl⟩
  · simp [hn, hm]
  · intro k hk
    rw [hn, hm] at hk
    simp [hk]
  · intro k
    by_cases hk : k = m
    · simp [hk]
    · simp [hk]

theorem LeafRemoved.good (h : Good s) (hp : p ∈ s.processes) (hnode : (s.process p).node ≠ 0)
    (hparent : (s.node (s.process p).node).parent ≠ 0) (hnone : ¬ HasChildren s p) {s' : State}
    (hr : LeafRemoved s p s') : Good s' := by
  obtain ⟨hlive, hvalue⟩ := h.owned p hp hnode
  obtain ⟨hlinked, hroot⟩ := h.linked_of_mem hlive
  have hnroot := (h.parent_mem hlive hparent).1
  have hother : ∀ n ∈ s.liveNodes, n ≠ (s.process p).node → (s.node n).value ≠ p := by
    intro n hn hne hv
    have hback := (h.owner n hn).2
    rw [hv] at hback
    exact hne hback.symm
  refine ⟨?_, ?_, ?_, ?_, Or.inr ⟨?_, ?_⟩, ?_, ?_⟩
  · rw [hr.processes_eq]
    exact fun h0 => h.process_ne (Finset.mem_of_mem_erase h0)
  · rw [hr.live_eq]
    exact fun h0 => h.node_ne (Finset.mem_of_mem_erase h0)
  · intro q hq hqnode
    rw [hr.processes_eq, Finset.mem_erase] at hq
    rw [hr.process_eq] at hqnode ⊢
    obtain ⟨hqlive, hqvalue⟩ := h.owned q hq.2 hqnode
    rw [hr.live_eq, (hr.node_old _).1]
    refine ⟨Finset.mem_erase.mpr ⟨fun he => hq.1 ?_, hqlive⟩, hqvalue⟩
    rw [← hqvalue, he, hvalue]
  · intro n hn
    rw [hr.live_eq, Finset.mem_erase] at hn
    rw [(hr.node_old n).1, hr.processes_eq, hr.process_eq]
    exact ⟨Finset.mem_erase.mpr ⟨hother n hn.2 hn.1, (h.owner n hn.2).1⟩, (h.owner n hn.2).2⟩
  · rw [hr.live_eq, hr.root_eq]
    exact hlinked.eraseLeaf hlive hnroot (h.children_eq_nil hp hnode hnone) hr.node_above
      (fun k _ _ hk => hr.children_old k hk) fun k _ _ => (hr.node_old k).2
  · rw [hr.root_eq, (hr.node_old _).2]
    exact hroot
  · intro n hn
    rw [hr.live_eq, Finset.mem_erase] at hn
    have hsame : parentValue s' n = parentValue s n := by
      unfold parentValue
      rw [(hr.node_old n).2, (hr.node_old _).1]
    rw [hsame, h.parents n hn.2, (hr.node_old n).1, hr.process_eq]
  · have hpos : 0 < s.liveNodes.card := Finset.card_pos.mpr ⟨_, hlive⟩
    have hlt := card_lt h.node_ne
    have hcounted := h.counted
    rw [hr.nodes_eq, hr.live_eq, Finset.card_erase_of_mem hlive]
    have hone : (1 : BitVec 64).toNat = 1 := rfl
    have hle : 1 ≤ s.nodes := by
      rw [BitVec.le_def]
      omega
    rw [BitVec.toNat_sub_of_le hle]
    omega

theorem Owns.forget (h : Owns s) (hnode : (s.process p).node = 0) :
    Owns { s with processes := s.processes.erase p } := by
  have hother : ∀ n ∈ s.liveNodes, (s.node n).value ≠ p := by
    intro n hn hv
    have hback := (h.owner n hn).2
    rw [hv, hnode] at hback
    exact h.node_ne (hback ▸ hn)
  exact ⟨fun h0 => h.process_ne (Finset.mem_of_mem_erase h0), h.node_ne,
    fun q hq => h.owned q (Finset.mem_of_mem_erase hq),
    fun n hn => ⟨Finset.mem_erase.mpr ⟨hother n hn, (h.owner n hn).1⟩, (h.owner n hn).2⟩⟩

theorem processDestroy_nodeless (hp0 : p ≠ 0) (hstopped : isStopped s p = true)
    (hnode : (s.process p).node = 0) :
    processDestroy s p = { s with processes := s.processes.erase p } := by
  refine (if_neg (destroy_runs hp0 hstopped)).trans ?_
  simp only [hnode, ne_eq, not_true_eq_false, if_false]

theorem processDestroy_good (h : Good s) (hp : p ∈ s.processes)
    (hleaf : isStopped s p = true → (s.process p).node ≠ 0 →
      (s.process p).parent ≠ 0 ∧ ¬ HasChildren s p) : Good (processDestroy s p) := by
  have hp0 : p ≠ 0 := fun h0 => h.process_ne (h0 ▸ hp)
  by_cases hstopped : isStopped s p = true
  · by_cases hnode : (s.process p).node = 0
    · rw [processDestroy_nodeless hp0 hstopped hnode]
      obtain ⟨hprocess, hnodes, howned, howner⟩ := h.owns.forget hnode
      exact ⟨hprocess, hnodes, howned, howner, h.linked, h.parents, h.counted⟩
    · obtain ⟨hparent, hnone⟩ := hleaf hstopped hnode
      obtain ⟨habove, hr⟩ := processDestroy_leafRemoved h hp hstopped hnode hparent hnone
      exact hr.good h hp hnode habove hnone
  · rw [show processDestroy s p = s from if_pos (Or.inr (Bool.eq_false_iff.mpr hstopped))]
    exact h

end Destroying

section Runs

variable {s₀ s s' : State}

theorem Step.good (h : Good s) (hstep : Step Call.Orderly s s') : Good s' := by
  obtain ⟨call, hfresh, horderly, rfl⟩ := hstep
  cases call with
  | spawnInit p n => exact processSpawnInit_good h hfresh horderly
  | create parent p n flags => exact processCreateStructure_good h hfresh horderly
  | fork parent p n => exact processCreateStructure_good h hfresh (Or.inr horderly)
  | exit p => exact markStopped_good h p
  | destroy p => exact processDestroy_good h horderly.1 horderly.2

theorem good_of_run (h : Good s) (hrun : Relation.ReflTransGen (Step Call.Orderly) s s') :
    Good s' := by
  induction hrun with
  | refl => exact h
  | tail _ hlast ih => exact hlast.good ih

/-- The tree stays consistent while the calls are orderly. -/
theorem consistent_of_orderly_run (h₀ : Initial s₀)
    (hrun : Relation.ReflTransGen (Step Call.Orderly) s₀ s) : Consistent s :=
  (good_of_run h₀.good hrun).consistent

end Runs

def booted : State where
  process _ := ⟨0, 0, 0⟩
  node _ := ⟨0, [], 0⟩
  processes := ∅
  liveNodes := ∅
  root := 0
  nodes := 0

theorem booted_initial : Initial booted :=
  ⟨rfl, rfl, rfl, fun p hp => absurd hp (Finset.notMem_empty p)⟩

def runCalls (s : State) (calls : List Call) : State := calls.foldl Call.run s

def AllowedCalls (allowed : State → Call → Prop) : State → List Call → Prop
  | _, [] => True
  | s, call :: calls => call.Allocates s ∧ allowed s call ∧ AllowedCalls allowed (call.run s) calls

instance (allowed : State → Call → Prop) [∀ s call, Decidable (allowed s call)] (s : State)
    (calls : List Call) : Decidable (AllowedCalls allowed s calls) :=
  match calls with
  | [] => inferInstanceAs (Decidable True)
  | call :: calls =>
    have := instDecidableAllowedCalls allowed (call.run s) calls
    inferInstanceAs (Decidable (_ ∧ _ ∧ _))

theorem run_of_allowedCalls {allowed : State → Call → Prop} {s : State} {calls : List Call}
    (h : AllowedCalls allowed s calls) :
    Relation.ReflTransGen (Step allowed) s (runCalls s calls) := by
  induction calls generalizing s with
  | nil => exact Relation.ReflTransGen.refl
  | cons call calls ih => exact (ih h.2.2).head ⟨call, h.1, h.2.1, rfl⟩

def exitedGrandchild : State :=
  runCalls booted [.spawnInit 1 1, .fork 1 2 2, .fork 2 3 3, .exit 3]

theorem exitedGrandchild_childless : ¬ HasChildren exitedGrandchild 3 := by
  rintro ⟨q, hq, -, hparent⟩
  have hprocesses : exitedGrandchild.processes = {1, 2, 3} := by decide +kernel
  rw [hprocesses] at hq
  simp only [Finset.mem_insert, Finset.mem_singleton] at hq
  rcases hq with rfl | rfl | rfl
  · exact absurd hparent (by decide +kernel)
  · exact absurd hparent (by decide +kernel)
  · exact absurd hparent (by decide +kernel)

/-- The grandchild is destroyed and the tree is as it was before. -/
theorem consistent_of_orderly_run_grandchild :
    ∃ s, Relation.ReflTransGen (Step Call.Orderly) booted s ∧ s.processes = {1, 2} ∧
      Consistent s := by
  have hallowed : AllowedCalls Call.Orderly booted
      [.spawnInit 1 1, .fork 1 2 2, .fork 2 3 3, .exit 3] := by decide +kernel
  have hrun := (run_of_allowedCalls hallowed).tail ⟨.destroy 3, trivial,
    ⟨by decide +kernel, fun _ _ => ⟨by decide +kernel, exitedGrandchild_childless⟩⟩, rfl⟩
  exact ⟨processDestroy exitedGrandchild 3, hrun, by decide +kernel,
    consistent_of_orderly_run booted_initial hrun⟩

/-- Init, a child with two children of its own, and then the child is destroyed. -/
def orphaned : State :=
  runCalls booted [.spawnInit 1 1, .fork 1 2 2, .fork 2 3 3, .fork 2 4 4, .exit 2, .destroy 2]

/-- The records of both children still name the destroyed process as their parent, and the second
has fallen out of the tree. -/
theorem destroy_loses_children :
    Relation.ReflTransGen (Step fun _ _ => True) booted orphaned ∧
      orphaned.processes = {1, 3, 4} ∧ (orphaned.process 4).parent = 2 ∧
      (orphaned.node 1).children = [3] ∧ (orphaned.node 3).children = [] ∧
      ¬ Consistent orphaned := by
  have hallowed : AllowedCalls (fun _ _ => True) booted
      [.spawnInit 1 1, .fork 1 2 2, .fork 2 3 3, .fork 2 4 4, .exit 2, .destroy 2] := by
    decide +kernel
  have hprocesses : orphaned.processes = {1, 3, 4} := by decide +kernel
  have hnode : (orphaned.process 4).node ≠ 0 := by decide +kernel
  have hparent : (orphaned.process 4).parent = 2 := by decide +kernel
  refine ⟨run_of_allowedCalls hallowed, hprocesses, hparent, by decide +kernel, by decide +kernel,
    fun h => ?_⟩
  have habove := h.parent_live 4 (by rw [hprocesses]; decide) hnode (by rw [hparent]; decide)
  rw [hparent, hprocesses] at habove
  exact absurd habove (by decide)

end ReduceOS.ProcessTree
