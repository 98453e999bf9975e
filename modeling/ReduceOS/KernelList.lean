import ReduceOS.Machine
import ReduceOS.LinkedSequence
import Mathlib.Data.Set.Insert
import Mathlib.Data.Fintype.Card
import Mathlib.Tactic.SplitIfs

/-!
The doubly linked lists of `list.c`. Nodes and lists are cells of memory, found by their
address, and any number of lists use one memory. What the lists mean is kept beside it, as
a sequence of nodes for each of them; every function of the source does to the cells what
the corresponding function of sequences does to these.
-/
namespace ReduceOS.KernelList

open Machine LinkedSequence

structure Node where
  value : Addr
  next : Addr
  prev : Addr
  owner : Addr

structure KList where
  head : Addr
  tail : Addr
  length : Addr

structure State where
  nodes : Addr → Node
  lists : Addr → KList

def State.setNode (s : State) (p : Addr) (f : Node → Node) : State :=
  { s with nodes := Function.update s.nodes p (f (s.nodes p)) }

def State.setList (s : State) (p : Addr) (f : KList → KList) : State :=
  { s with lists := Function.update s.lists p (f (s.lists p)) }

section Cells

variable (s : State) (p q : Addr) (f : Node → Node) (g : KList → KList)

@[simp]
theorem setNode_lists : (s.setNode p f).lists = s.lists := rfl

@[simp]
theorem setList_nodes : (s.setList p g).nodes = s.nodes := rfl

@[simp]
theorem setNode_nodes :
    (s.setNode p f).nodes q = if q = p then f (s.nodes p) else s.nodes q := by
  simp [State.setNode, Function.update_apply]

@[simp]
theorem setList_lists :
    (s.setList p g).lists q = if q = p then g (s.lists p) else s.lists q := by
  simp [State.setList, Function.update_apply]

end Cells

section Source

def listCreate (s : State) (list : Addr) : State :=
  s.setList list fun _ => ⟨null, null, 0⟩

def listAppendNode (s : State) (list node : Addr) : State :=
  let s := s.setNode node ({ · with owner := list })
  let last := (s.lists list).tail
  let s :=
    if last ≠ null then
      let s := s.setNode last ({ · with next := node })
      s.setNode node ({ · with prev := last, next := null })
    else
      let s := s.setNode node ({ · with next := null, prev := null })
      s.setList list ({ · with head := node })
  s.setList list fun l => { l with tail := node, length := l.length + 1 }

/-- `list_append`, with the address that `kmalloc` returns for the node. -/
def listAppend (s : State) (list item node : Addr) : State :=
  listAppendNode (s.setNode node ({ · with value := item })) list node

/-- The loop of `list_find`, which has no result when the fuel runs out. -/
def findFrom (s : State) (item : Addr) : ℕ → Addr → Option Addr
  | 0, _ => none
  | fuel + 1, node =>
    if node = null then some null
    else if (s.nodes node).value = item then some node
    else findFrom s item fuel (s.nodes node).next

def listFind (fuel : ℕ) (s : State) (list item : Addr) : Option Addr :=
  findFrom s item fuel (s.lists list).head

def moveEnds (s : State) (list node : Addr) : State :=
  let s := if node = (s.lists list).head then
    s.setList list ({ · with head := (s.nodes node).next }) else s
  if node = (s.lists list).tail then
    s.setList list ({ · with tail := (s.nodes node).prev }) else s

def joinNeighbours (s : State) (node : Addr) : State :=
  let s := if (s.nodes node).next ≠ null then
    s.setNode (s.nodes node).next ({ · with prev := (s.nodes node).prev }) else s
  if (s.nodes node).prev ≠ null then
    s.setNode (s.nodes node).prev ({ · with next := (s.nodes node).next }) else s

def listDelete (s : State) (list node : Addr) : State :=
  let s := moveEnds s list node
  let s := joinNeighbours s node
  let s := s.setNode node ({ · with prev := null, next := null, owner := null })
  s.setList list fun l => { l with length := l.length - 1 }

def listPop (s : State) (list : Addr) : State × Addr :=
  if list = null ∨ (s.lists list).tail = null then (s, null)
  else (listDelete s list (s.lists list).tail, (s.lists list).tail)

def listPopleft (s : State) (list : Addr) : State × Addr :=
  if list = null ∨ (s.lists list).head = null then (s, null)
  else (listDelete s list (s.lists list).head, (s.lists list).head)

end Source

/-- What the lists in memory are for: a sequence of nodes for each list, the value of each
node, and the nodes that were taken out of a list and are in none since. -/
structure Sequences where
  seqs : Addr → Option (List Addr)
  values : Addr → Addr
  removed : Set Addr

namespace Sequences

def seq (a : Sequences) (list : Addr) : List Addr := (a.seqs list).getD []

def Loose (a : Sequences) (node : Addr) : Prop := ∀ list, node ∉ a.seq list

def create (a : Sequences) (list : Addr) : Sequences :=
  { a with seqs := Function.update a.seqs list (some []) }

def append (a : Sequences) (list node : Addr) : Sequences :=
  { a with
    seqs := Function.update a.seqs list (some (a.seq list ++ [node]))
    removed := a.removed \ {node} }

def delete (a : Sequences) (list node : Addr) : Sequences :=
  { a with
    seqs := Function.update a.seqs list (some ((a.seq list).erase node))
    removed := insert node a.removed }

end Sequences

def State.unused (s : State) : Sequences := ⟨fun _ => none, fun n => (s.nodes n).value, ∅⟩

/-- The calls, with the addresses that `kmalloc` returns in them. -/
inductive Op
  | create (list : Addr)
  | append (list item node : Addr)
  | appendNode (list node : Addr)
  | find (list item : Addr)
  | delete (list node : Addr)
  | pop (list : Addr)
  | popleft (list : Addr)

/-- A new list or node is one that is not in use, a node that is appended is in no list, and
one that is deleted is in the list. -/
def Sequences.Allowed (a : Sequences) : Op → Prop
  | .create list => list ≠ null ∧ a.seqs list = none
  | .append list _ node => (a.seqs list).isSome ∧ node ≠ null ∧ a.Loose node
  | .appendNode list node => (a.seqs list).isSome ∧ node ≠ null ∧ a.Loose node
  | .find list _ => (a.seqs list).isSome
  | .delete list node => (a.seqs list).isSome ∧ node ∈ a.seq list
  | .pop list => (a.seqs list).isSome
  | .popleft list => (a.seqs list).isSome

def Sequences.step (a : Sequences) : Op → Sequences × Option Addr
  | .create list => (a.create list, some list)
  | .append list item node =>
    ({ a with values := Function.update a.values node item }.append list node, none)
  | .appendNode list node => (a.append list node, none)
  | .find list item => (a, some (((a.seq list).find? fun n => a.values n = item).getD null))
  | .delete list node => (a.delete list node, none)
  | .pop list =>
    if a.seq list = [] then (a, some null)
    else (a.delete list (lastOr null (a.seq list)), some (lastOr null (a.seq list)))
  | .popleft list =>
    if a.seq list = [] then (a, some null)
    else (a.delete list (headOr null (a.seq list)), some (headOr null (a.seq list)))

def State.step (fuel : ℕ) (s : State) : Op → Option (State × Option Addr)
  | .create list => some (listCreate s list, some list)
  | .append list item node => some (listAppend s list item node, none)
  | .appendNode list node => some (listAppendNode s list node, none)
  | .find list item => (listFind fuel s list item).map fun node => (s, some node)
  | .delete list node => some (listDelete s list node, none)
  | .pop list => some ((listPop s list).1, some (listPop s list).2)
  | .popleft list => some ((listPopleft s list).1, some (listPopleft s list).2)

def Sequences.AllAllowed : Sequences → List Op → Prop
  | _, [] => True
  | a, op :: ops => a.Allowed op ∧ (a.step op).1.AllAllowed ops

def Sequences.run (a : Sequences) : List Op → Sequences × List (Option Addr)
  | [] => (a, [])
  | op :: ops =>
    let (a', returned) := (a.step op).1.run ops
    (a', (a.step op).2 :: returned)

def State.run (fuel : ℕ) (s : State) : List Op → Option (State × List (Option Addr))
  | [] => some (s, [])
  | op :: ops => do
    let (s₁, ret) ← s.step fuel op
    let (s₂, returned) ← s₁.run fuel ops
    some (s₂, ret :: returned)

structure Describes (s : State) (list : Addr) (seq : List Addr) : Prop where
  head : (s.lists list).head = headOr null seq
  tail : (s.lists list).tail = lastOr null seq
  length : (s.lists list).length.toNat = seq.length
  links : Linked null (fun n => (s.nodes n).next) (fun n => (s.nodes n).prev) seq
  owner : ∀ n ∈ seq, (s.nodes n).owner = list

structure Refines (s : State) (a : Sequences) : Prop where
  describes : ∀ {list seq}, a.seqs list = some seq → Describes s list seq
  null_not_list : a.seqs null = none
  apart : ∀ {list list' n}, n ∈ a.seq list → n ∈ a.seq list' → list = list'
  values : ∀ n, a.values n = (s.nodes n).value
  loose : ∀ n ∈ a.removed, a.Loose n
  unlinked : ∀ n ∈ a.removed,
    (s.nodes n).next = null ∧ (s.nodes n).prev = null ∧ (s.nodes n).owner = null

structure Inserted (s s' : State) (list : Addr) (xs : List Addr) (node : Addr) (ys : List Addr) :
    Prop where
  lists : ∀ q, s'.lists q =
    if q = list then
      ⟨headOr null (xs ++ node :: ys), lastOr null (xs ++ node :: ys), (s.lists list).length + 1⟩
    else s.lists q
  new : s'.nodes node = ⟨(s.nodes node).value, headOr null ys, lastOr null xs, list⟩
  old : ∀ q ≠ node, s'.nodes q = { s.nodes q with
    next := if q = lastOr null xs ∧ q ≠ null then node else (s.nodes q).next
    prev := if q = headOr null ys ∧ q ≠ null then node else (s.nodes q).prev }

section Cells

variable {s : State} {list node : Addr}

/-- The links of the new node and of the last one before it. -/
theorem listAppendNode_nodes (h : node ≠ (s.lists list).tail) (q : Addr) :
    (listAppendNode s list node).nodes q =
      if q = node then { s.nodes node with
        next := null, prev := (s.lists list).tail, owner := list }
      else if q = (s.lists list).tail ∧ q ≠ null then { s.nodes q with next := node }
      else s.nodes q := by
  unfold listAppendNode
  by_cases htail : (s.lists list).tail = null
  · by_cases hq : q = node <;> by_cases hzero : q = null <;> simp_all
  · by_cases hq : q = node <;> by_cases hlast : q = (s.lists list).tail <;> simp_all

theorem listAppendNode_lists (q : Addr) :
    (listAppendNode s list node).lists q =
      if q = list then
        ⟨if (s.lists list).tail = null then node else (s.lists list).head, node,
          (s.lists list).length + 1⟩
      else s.lists q := by
  unfold listAppendNode
  by_cases hq : q = list <;> by_cases htail : (s.lists list).tail = null <;> simp [htail, hq]

theorem moveEnds_nodes : (moveEnds s list node).nodes = s.nodes := by
  unfold moveEnds
  dsimp only
  split_ifs <;> simp

theorem moveEnds_lists (q : Addr) :
    (moveEnds s list node).lists q =
      if q = list then { s.lists list with
        head := if node = (s.lists list).head then (s.nodes node).next else (s.lists list).head
        tail := if node = (s.lists list).tail then (s.nodes node).prev
          else (s.lists list).tail }
      else s.lists q := by
  by_cases hhead : node = (s.lists list).head <;> by_cases htail : node = (s.lists list).tail <;>
    simp only [moveEnds, if_pos, hhead, htail, setList_lists, setList_nodes, ite_false] <;>
    split_ifs <;> simp_all

theorem joinNeighbours_lists : (joinNeighbours s node).lists = s.lists := by
  unfold joinNeighbours
  dsimp only
  split_ifs <;> simp

theorem joinNeighbours_nodes (hnext : (s.nodes node).next ≠ node) {q : Addr} :
    (joinNeighbours s node).nodes q = { s.nodes q with
        next := if q = (s.nodes node).prev ∧ q ≠ null then (s.nodes node).next
          else (s.nodes q).next
        prev := if q = (s.nodes node).next ∧ q ≠ null then (s.nodes node).prev
          else (s.nodes q).prev } := by
  unfold joinNeighbours
  have hne := hnext.symm
  generalize hn : (s.nodes node).next = n at *
  generalize hp : (s.nodes node).prev = p
  by_cases hnull : n = null <;> by_cases hpnull : p = null <;> by_cases hqn : q = n <;>
    by_cases hqp : q = p <;> simp_all

theorem listDelete_lists (q : Addr) :
    (listDelete s list node).lists q =
      if q = list then
        ⟨if node = (s.lists list).head then (s.nodes node).next else (s.lists list).head,
          if node = (s.lists list).tail then (s.nodes node).prev else (s.lists list).tail,
          (s.lists list).length - 1⟩
      else s.lists q := by
  simp only [listDelete, setList_lists, setNode_lists, joinNeighbours_lists, moveEnds_lists]
  split_ifs <;> rfl

theorem listDelete_nodes (hnext : (s.nodes node).next ≠ node) (q : Addr) :
    (listDelete s list node).nodes q =
      if q = node then { s.nodes node with next := null, prev := null, owner := null }
      else { s.nodes q with
        next := if q = (s.nodes node).prev ∧ q ≠ null then (s.nodes node).next
          else (s.nodes q).next
        prev := if q = (s.nodes node).next ∧ q ≠ null then (s.nodes node).prev
          else (s.nodes q).prev } := by
  have hmoved : ((moveEnds s list node).nodes node).next ≠ node := by rwa [moveEnds_nodes]
  simp only [listDelete, setList_nodes, setNode_nodes, joinNeighbours_nodes hmoved, moveEnds_nodes]

end Cells

section Describes

variable {s s' : State} {list node : Addr} {seq xs ys : List Addr}

/-- There are fewer nodes than addresses, so that their number does not wrap. -/
theorem length_lt_of_nodup (hnd : seq.Nodup) (hnull : null ∉ seq) : seq.length < 2 ^ 64 := by
  have hfin : ((null :: seq).map BitVec.toFin).Nodup :=
    List.Nodup.map (fun _ _ => BitVec.eq_of_toFin_eq) (List.nodup_cons.mpr ⟨hnull, hnd⟩)
  have hcard := hfin.length_le_card
  rw [List.length_map, List.length_cons, Fintype.card_fin] at hcard
  omega

theorem length_lt {next prev : Addr → Addr} (h : Linked null next prev seq) :
    seq.length < 2 ^ 64 :=
  length_lt_of_nodup h.nodup h.nonnull

theorem Describes.unique {xs ys : List Addr} (hx : Describes s list xs)
    (hy : Describes s list ys) : xs = ys :=
  hx.links.forward.unique hy.links.forward hx.links.nonnull hy.links.nonnull
    (hx.head.symm.trans hy.head)

theorem Describes.congr (h : Describes s list seq) (hlist : s'.lists list = s.lists list)
    (hnodes : ∀ n ∈ seq, s'.nodes n = s.nodes n) : Describes s' list seq where
  head := hlist ▸ h.head
  tail := hlist ▸ h.tail
  length := hlist ▸ h.length
  links := h.links.congr fun n hn => by simp [hnodes n hn]
  owner n hn := by rw [hnodes n hn, h.owner n hn]

theorem ne_lastOr (hn : node ∉ seq) (hnull : node ≠ null) : node ≠ lastOr null seq := by
  rintro rfl
  by_cases hseq : seq = []
  · exact hnull (by rw [hseq, lastOr_nil])
  · exact hn (lastOr_mem hseq)

theorem ne_headOr (hn : node ∉ seq) (hnull : node ≠ null) : node ≠ headOr null seq := by
  rw [← lastOr_reverse]
  exact ne_lastOr (mt List.mem_reverse.mp hn) hnull

theorem Describes.insert (h : Describes s list (xs ++ ys)) (hn : node ∉ xs ++ ys)
    (hnull : node ≠ null) (hins : Inserted s s' list xs node ys) :
    Describes s' list (xs ++ node :: ys) := by
  have hold : ∀ a ∈ xs ++ ys, a ≠ node ∧ a ≠ null :=
    fun a ha => ⟨ne_of_mem_of_not_mem ha hn, ne_of_mem_of_not_mem ha h.links.nonnull⟩
  have hlinks : Linked null (fun n => (s'.nodes n).next) (fun n => (s'.nodes n).prev)
      (xs ++ node :: ys) := by
    refine h.links.insert hn hnull ?_ ?_ (fun a ha => ?_) fun a ha => ?_
    · simp only [hins.new]
    · simp only [hins.new]
    · simp only [hins.old a (hold a ha).1, (hold a ha).2, ne_eq, not_false_eq_true, and_true]
    · simp only [hins.old a (hold a ha).1, (hold a ha).2, ne_eq, not_false_eq_true, and_true]
  refine ⟨?_, ?_, ?_, hlinks, fun a ha => ?_⟩
  · rw [hins.lists, if_pos rfl]
  · rw [hins.lists, if_pos rfl]
  · have hlt := length_lt hlinks
    have hlen := h.length
    rw [List.length_append, List.length_cons] at hlt ⊢
    rw [List.length_append] at hlen
    rw [hins.lists, if_pos rfl]
    dsimp only
    rw [BitVec.toNat_add, hlen]
    exact Nat.mod_eq_of_lt hlt
  · rw [List.perm_middle.mem_iff, List.mem_cons] at ha
    by_cases hnode : a = node
    · rw [hnode, hins.new]
    · rw [hins.old a hnode]
      exact h.owner a (ha.resolve_left hnode)

theorem Inserted.frame (h : Inserted s s' list xs node ys) {q : Addr} (hq : q ∉ xs ++ ys)
    (hne : q ≠ node) : s'.nodes q = s.nodes q := by
  rw [List.mem_append, not_or] at hq
  rw [h.old q hne, if_neg fun hlast => ne_lastOr hq.1 hlast.2 hlast.1,
    if_neg fun hhead => ne_headOr hq.2 hhead.2 hhead.1]

theorem Describes.inserted_append (h : Describes s list seq) (hn : node ∉ seq)
    (hnull : node ≠ null) : Inserted s (listAppendNode s list node) list seq node [] := by
  have hne : node ≠ (s.lists list).tail := h.tail ▸ ne_lastOr hn hnull
  refine ⟨fun q => ?_, ?_, fun q hq => ?_⟩
  · rw [listAppendNode_lists, lastOr_concat, h.tail, h.head]
    simp only [lastOr_eq_null_iff h.links.nonnull]
    cases seq <;> rfl
  · rw [listAppendNode_nodes hne, if_pos rfl, h.tail]
    rfl
  · rw [listAppendNode_nodes hne, if_neg hq, h.tail]
    simp only [headOr_nil, and_not_self, ne_eq, if_false]
    split_ifs <;> rfl

theorem Describes.append (h : Describes s list seq) (hn : node ∉ seq) (hnull : node ≠ null) :
    Describes (listAppendNode s list node) list (seq ++ [node]) := by
  have hnil : seq ++ [] = seq := List.append_nil seq
  exact Describes.insert (by rwa [hnil]) (by rwa [hnil]) hnull (h.inserted_append hn hnull)

/-- Where the ends of a list are after a node of it is taken out. -/
theorem headOr_erase (hn : node ∉ xs) :
    (if node = headOr null (xs ++ node :: ys) then headOr null ys
      else headOr null (xs ++ node :: ys)) = headOr null (xs ++ ys) := by
  cases xs with
  | nil => simp
  | cons x xs =>
    have hne : node ≠ x := by
      rintro rfl
      exact hn List.mem_cons_self
    simp [hne]

theorem lastOr_erase (hn : node ∉ ys) :
    (if node = lastOr null (xs ++ node :: ys) then lastOr null xs
      else lastOr null (xs ++ node :: ys)) = lastOr null (xs ++ ys) := by
  cases ys with
  | nil => simp
  | cons y ys =>
    have hlast : lastOr null (xs ++ node :: y :: ys) = lastOr null (y :: ys) := by
      rw [lastOr_append (List.cons_ne_nil _ _), lastOr_cons_cons]
    have hne : node ≠ lastOr null (y :: ys) := by
      rintro rfl
      exact hn (lastOr_mem (List.cons_ne_nil y ys))
    rw [hlast, if_neg hne, lastOr_append (List.cons_ne_nil y ys)]

theorem Describes.next_ne (h : Describes s list (xs ++ node :: ys)) :
    (s.nodes node).next ≠ node := by
  have hnext : (s.nodes node).next = headOr null ys := h.links.next_at
  have hmem : node ∉ ys := (List.nodup_cons.mp (List.nodup_append.mp h.links.nodup).2.1).1
  intro hself
  rw [hnext] at hself
  by_cases hys : ys = []
  · rw [hys, headOr_nil] at hself
    exact h.links.nonnull (hself ▸ List.mem_append_right xs List.mem_cons_self)
  · exact hmem (hself ▸ headOr_mem hys)

theorem Describes.delete (h : Describes s list (xs ++ node :: ys)) :
    Describes (listDelete s list node) list (xs ++ ys) := by
  obtain ⟨-, hcons, hdisj⟩ := List.nodup_append.mp h.links.nodup
  have hys : node ∉ ys := (List.nodup_cons.mp hcons).1
  have hxs : node ∉ xs := fun hmem => hdisj node hmem node List.mem_cons_self rfl
  have hnext : (s.nodes node).next = headOr null ys := h.links.next_at
  have hprev : (s.nodes node).prev = lastOr null xs := h.links.prev_at
  have hold : ∀ a ∈ xs ++ ys, a ≠ node ∧ a ≠ null := by
    intro a ha
    have hmem : a ∈ xs ++ node :: ys :=
      ((List.sublist_cons_self node ys).append_left xs).subset ha
    refine ⟨?_, ne_of_mem_of_not_mem hmem h.links.nonnull⟩
    rintro rfl
    exact (List.mem_append.mp ha).elim hxs hys
  refine ⟨?_, ?_, ?_, ?_, fun a ha => ?_⟩
  · simp only [listDelete_lists, if_pos, hnext, h.head]
    exact headOr_erase hxs
  · simp only [listDelete_lists, if_pos, hprev, h.tail]
    exact lastOr_erase hys
  · have hlen := h.length
    rw [List.length_append, List.length_cons] at hlen
    simp only [listDelete_lists, if_pos, List.length_append]
    have hone : (1 : Addr) ≤ (s.lists list).length := by
      rw [BitVec.le_def, hlen]
      change 1 ≤ _
      omega
    rw [BitVec.toNat_sub_of_le hone, hlen]
    change _ - 1 = _
    omega
  · refine h.links.erase (fun a ha => ?_) fun a ha => ?_
    · simp only [listDelete_nodes h.next_ne, if_neg (hold a ha).1, hnext, hprev, (hold a ha).2,
        ne_eq, not_false_eq_true, and_true]
    · simp only [listDelete_nodes h.next_ne, if_neg (hold a ha).1, hnext, hprev, (hold a ha).2,
        ne_eq, not_false_eq_true, and_true]
  · simp only [listDelete_nodes h.next_ne, if_neg (hold a ha).1]
    exact h.owner a (((List.sublist_cons_self node ys).append_left xs).subset ha)

/-- The node that is taken out is in no list any more. -/
theorem Describes.delete_unlinked (h : Describes s list (xs ++ node :: ys)) :
    ((listDelete s list node).nodes node).next = null ∧
      ((listDelete s list node).nodes node).prev = null ∧
      ((listDelete s list node).nodes node).owner = null := by
  simp only [listDelete_nodes h.next_ne, if_pos, and_self]

theorem Describes.append_frame (h : Describes s list seq) (hn : node ∉ seq) (hnull : node ≠ null)
    {q : Addr} (hq : q ∉ seq) (hne : q ≠ node) :
    (listAppendNode s list node).nodes q = s.nodes q :=
  (h.inserted_append hn hnull).frame (by rwa [List.append_nil]) hne

theorem Describes.delete_frame (h : Describes s list (xs ++ node :: ys)) {q : Addr}
    (hq : q ∉ xs ++ node :: ys) : (listDelete s list node).nodes q = s.nodes q := by
  simp only [List.mem_append, List.mem_cons, not_or] at hq
  obtain ⟨hxs, hne, hys⟩ := hq
  have hnext : ¬ (q = (s.nodes node).next ∧ q ≠ null) := by
    rintro ⟨hq, hqnull⟩
    have hhead : (s.nodes node).next = lastOr null ys.reverse := by
      rw [lastOr_reverse]
      exact h.links.next_at
    exact ne_lastOr (by simpa using hys) hqnull (hq.trans hhead)
  have hprev : ¬ (q = (s.nodes node).prev ∧ q ≠ null) := by
    rintro ⟨hq, hqnull⟩
    exact ne_lastOr hxs hqnull (hq.trans h.links.prev_at)
  simp only [listDelete_nodes h.next_ne, if_neg hne, if_neg hnext, if_neg hprev]

theorem findFrom_eq {item : Addr} (h : Follows null (fun n => (s.nodes n).next) seq)
    (hnull : null ∉ seq) {fuel : ℕ} (hfuel : seq.length < fuel) :
    findFrom s item fuel (headOr null seq) =
      some ((seq.find? fun n => (s.nodes n).value = item).getD null) := by
  induction seq generalizing fuel with
  | nil =>
    obtain ⟨fuel, rfl⟩ := Nat.exists_eq_add_of_lt hfuel
    simp [findFrom]
  | cons n seq ih =>
    rw [List.mem_cons, not_or] at hnull
    rw [List.length_cons] at hfuel
    obtain ⟨fuel, rfl⟩ : ∃ k, fuel = k + 1 := ⟨fuel - 1, by omega⟩
    have hnext : (s.nodes n).next = headOr null seq := h.1
    rw [headOr_cons, findFrom, if_neg (Ne.symm hnull.1), hnext, List.find?_cons]
    by_cases hv : (s.nodes n).value = item
    · simp [hv]
    · simp only [hv, if_false, decide_false]
      exact ih h.2 hnull.2 (by omega)

/-- The loop of `list_find` ends at the first node with the value, or past the last one. -/
theorem Describes.find {item : Addr} (h : Describes s list seq) {fuel : ℕ} (hfuel : 2 ^ 64 ≤ fuel) :
    listFind fuel s list item =
      some ((seq.find? fun n => (s.nodes n).value = item).getD null) := by
  unfold listFind
  rw [h.head]
  exact findFrom_eq h.links.forward h.links.nonnull ((length_lt h.links).trans_le hfuel)

end Describes

section Refines

variable {s : State} {a : Sequences} {list node : Addr}

theorem Sequences.seq_of_some {seq : List Addr} (h : a.seqs list = some seq) :
    a.seq list = seq := by
  simp [Sequences.seq, h]

theorem Sequences.seq_update {a' : Sequences} {seq : List Addr}
    (h : a'.seqs = Function.update a.seqs list (some seq)) (list' : Addr) :
    a'.seq list' = if list' = list then seq else a.seq list' := by
  unfold Sequences.seq
  rw [h, Function.update_apply]
  split_ifs <;> rfl

theorem Refines.describes_seq (h : Refines s a) (hlist : (a.seqs list).isSome) :
    Describes s list (a.seq list) := by
  obtain ⟨seq, hseq⟩ := Option.isSome_iff_exists.mp hlist
  rw [Sequences.seq_of_some hseq]
  exact h.describes hseq

theorem Refines.list_ne_null (h : Refines s a) (hlist : (a.seqs list).isSome) : list ≠ null := by
  rintro rfl
  simp [h.null_not_list] at hlist

/-- A step on one list: the sequence of that list has changed, and the nodes of the others are
as they were. -/
theorem Refines.update {s' : State} {a' : Sequences} {seq : List Addr} (h : Refines s a)
    (hnull : list ≠ null) (hseqs : a'.seqs = Function.update a.seqs list (some seq))
    (hdescribes : Describes s' list seq)
    (hlists : ∀ list' ≠ list, s'.lists list' = s.lists list')
    (hnodes : ∀ list' ≠ list, ∀ n ∈ a.seq list', s'.nodes n = s.nodes n)
    (hapart : ∀ list' ≠ list, ∀ n ∈ a.seq list', n ∉ seq)
    (hvalues : ∀ n, a'.values n = (s'.nodes n).value)
    (hloose : ∀ n ∈ a'.removed, a'.Loose n)
    (hunlinked : ∀ n ∈ a'.removed,
      (s'.nodes n).next = null ∧ (s'.nodes n).prev = null ∧ (s'.nodes n).owner = null) :
    Refines s' a' := by
  refine ⟨fun {list' seq'} hsome => ?_, ?_, fun {l₁ l₂ n} h₁ h₂ => ?_, hvalues, hloose, hunlinked⟩
  · rw [hseqs, Function.update_apply] at hsome
    split_ifs at hsome with heq
    · cases hsome
      exact heq ▸ hdescribes
    · refine (h.describes hsome).congr (hlists list' heq) fun n hn => hnodes list' heq n ?_
      rwa [Sequences.seq_of_some hsome]
  · rw [hseqs, Function.update_of_ne hnull.symm, h.null_not_list]
  · rw [Sequences.seq_update hseqs] at h₁ h₂
    split_ifs at h₁ h₂ with heq₁ heq₂ heq₂
    · rw [heq₁, heq₂]
    · exact absurd h₁ (hapart l₂ heq₂ n h₂)
    · exact absurd h₂ (hapart l₁ heq₁ n h₁)
    · exact h.apart h₁ h₂

theorem Refines.create (h : Refines s a) (hnull : list ≠ null) (hnew : a.seqs list = none) :
    Refines (listCreate s list) (a.create list) := by
  have hseq : a.seq list = [] := by simp [Sequences.seq, hnew]
  refine h.update hnull rfl ?_ (fun list' hne => ?_) (fun _ _ _ _ => rfl) (fun _ _ n _ => ?_)
    h.values (fun n hn list' => ?_) h.unlinked
  · refine ⟨?_, ?_, ?_, Linked.nil, fun n hn => absurd hn List.not_mem_nil⟩ <;>
      simp [listCreate]
  · simp [listCreate, hne]
  · exact List.not_mem_nil
  · have hloose := h.loose n hn list'
    rw [Sequences.seq_update rfl]
    split_ifs
    · exact List.not_mem_nil
    · exact hloose

theorem Refines.setValue (h : Refines s a) (hloose : a.Loose node) (item : Addr) :
    Refines (s.setNode node ({ · with value := item }))
      { a with values := Function.update a.values node item } := by
  have hsame : ∀ n, ((s.setNode node ({ · with value := item })).nodes n).next = (s.nodes n).next ∧
      ((s.setNode node ({ · with value := item })).nodes n).prev = (s.nodes n).prev ∧
      ((s.setNode node ({ · with value := item })).nodes n).owner = (s.nodes n).owner := by
    intro n
    rw [setNode_nodes]
    split_ifs with hn
    · simp [hn]
    · simp
  refine ⟨fun {list seq} hseq => ?_, h.null_not_list, h.apart, fun n => ?_, h.loose, fun n hn => ?_⟩
  · refine (h.describes hseq).congr rfl fun n hn => ?_
    have hne : n ≠ node := by
      rintro rfl
      have hsome : a.seqs list = some seq := hseq
      refine hloose list ?_
      rwa [Sequences.seq_of_some hsome]
    rw [setNode_nodes, if_neg hne]
  · change Function.update a.values node item n = _
    rw [setNode_nodes, Function.update_apply]
    split_ifs
    · rfl
    · exact h.values n
  · obtain ⟨hnext, hprev, howner⟩ := hsame n
    rw [hnext, hprev, howner]
    exact h.unlinked n hn

theorem Refines.insert {s' : State} {xs ys : List Addr} (h : Refines s a)
    (hlist : (a.seqs list).isSome) (hnull : node ≠ null) (hloose : a.Loose node)
    (hseq : a.seq list = xs ++ ys) (hins : Inserted s s' list xs node ys) :
    Refines s' { a with
      seqs := Function.update a.seqs list (some (xs ++ node :: ys))
      removed := a.removed \ {node} } := by
  have hd := h.describes_seq hlist
  have hnode := hloose list
  rw [hseq] at hd hnode
  have hmem : ∀ n, n ∈ xs ++ node :: ys ↔ n = node ∨ n ∈ a.seq list := by
    intro n
    rw [List.perm_middle.mem_iff, List.mem_cons, hseq]
  have hframe : ∀ q ∉ a.seq list, q ≠ node → s'.nodes q = s.nodes q :=
    fun q hq hne => hins.frame (hseq ▸ hq) hne
  refine h.update (h.list_ne_null hlist) rfl (hd.insert hnode hnull hins)
    (fun list' hne => ?_) (fun list' hne n hn => hframe n (fun hmem => hne (h.apart hn hmem)) ?_)
    (fun list' hne n hn => ?_) (fun n => ?_) (fun n hn list' => ?_) (fun n hn => ?_)
  · rw [hins.lists, if_neg hne]
  · rintro rfl
    exact hloose list' hn
  · rw [hmem, not_or]
    refine ⟨?_, fun hmem => hne (h.apart hn hmem)⟩
    rintro rfl
    exact hloose list' hn
  · change a.values n = _
    by_cases hn : n = node
    · rw [hn, hins.new, h.values]
    · rw [hins.old n hn, h.values]
  · have hne : n ≠ node := hn.2
    rw [Sequences.seq_update rfl]
    split_ifs
    · rw [hmem, not_or]
      exact ⟨hne, h.loose n hn.1 list⟩
    · exact h.loose n hn.1 list'
  · rw [hframe n (h.loose n hn.1 list) hn.2]
    exact h.unlinked n hn.1

theorem Refines.append (h : Refines s a) (hlist : (a.seqs list).isSome) (hnull : node ≠ null)
    (hloose : a.Loose node) : Refines (listAppendNode s list node) (a.append list node) :=
  h.insert hlist hnull hloose (List.append_nil _).symm
    ((h.describes_seq hlist).inserted_append (hloose list) hnull)

theorem Refines.delete (h : Refines s a) (hlist : (a.seqs list).isSome)
    (hmem : node ∈ a.seq list) : Refines (listDelete s list node) (a.delete list node) := by
  obtain ⟨xs, ys, hseq⟩ := List.append_of_mem hmem
  have hd := h.describes_seq hlist
  have hnd := hd.links.nodup
  have hsub : (a.seq list).erase node ⊆ a.seq list := List.erase_subset
  have hsplit : (a.seq list).erase node = xs ++ ys := by
    have hxs : node ∉ xs := by
      rw [hseq] at hnd
      exact fun hx => (List.nodup_append.mp hnd).2.2 node hx node List.mem_cons_self rfl
    rw [hseq, List.erase_append_right _ hxs, List.erase_cons_head]
  rw [hseq] at hd
  have hframe : ∀ q ∉ a.seq list, (listDelete s list node).nodes q = s.nodes q := by
    intro q hq
    rw [hseq] at hq
    exact hd.delete_frame hq
  refine h.update (h.list_ne_null hlist) rfl (hsplit ▸ hd.delete)
    (fun list' hne => ?_) (fun list' hne n hn => hframe n fun hold => hne (h.apart hn hold))
    (fun list' hne n hn hold => hne (h.apart hn (hsub hold))) (fun n => ?_)
    (fun n hn list' => ?_) (fun n hn => ?_)
  · rw [listDelete_lists, if_neg hne]
  · rw [listDelete_nodes hd.next_ne]
    by_cases heq : n = node
    · rw [if_pos heq, heq]
      exact h.values node
    · rw [if_neg heq]
      exact h.values n
  · rw [Sequences.seq_update rfl]
    rcases hn with rfl | hn
    · split_ifs with heq
      · exact fun hold => (List.Nodup.mem_erase_iff hnd).mp hold |>.1 rfl
      · exact fun hold => heq (h.apart hold hmem)
    · split_ifs
      · exact fun hold => h.loose n hn list (hsub hold)
      · exact h.loose n hn list'
  · rcases hn with rfl | hn
    · exact hd.delete_unlinked
    · rw [hframe n (h.loose n hn list)]
      exact h.unlinked n hn

theorem Refines.find (h : Refines s a) (hlist : (a.seqs list).isSome) (item : Addr) {fuel : ℕ}
    (hfuel : 2 ^ 64 ≤ fuel) :
    listFind fuel s list item =
      some (((a.seq list).find? fun n => a.values n = item).getD null) := by
  rw [(h.describes_seq hlist).find hfuel]
  simp only [h.values]

theorem Refines.pop (h : Refines s a) (hlist : (a.seqs list).isSome) :
    Refines (listPop s list).1 (a.step (.pop list)).1 ∧
      some (listPop s list).2 = (a.step (.pop list)).2 := by
  have hd := h.describes_seq hlist
  have hnull := h.list_ne_null hlist
  unfold listPop Sequences.step
  simp only [hnull, false_or, hd.tail, lastOr_eq_null_iff hd.links.nonnull]
  split_ifs with hseq
  · exact ⟨h, rfl⟩
  · exact ⟨h.delete hlist (lastOr_mem hseq), rfl⟩

theorem Refines.popleft (h : Refines s a) (hlist : (a.seqs list).isSome) :
    Refines (listPopleft s list).1 (a.step (.popleft list)).1 ∧
      some (listPopleft s list).2 = (a.step (.popleft list)).2 := by
  have hd := h.describes_seq hlist
  have hnull := h.list_ne_null hlist
  unfold listPopleft Sequences.step
  simp only [hnull, false_or, hd.head, headOr_eq_null_iff hd.links.nonnull]
  split_ifs with hseq
  · exact ⟨h, rfl⟩
  · exact ⟨h.delete hlist (headOr_mem hseq), rfl⟩

/-- One call: it returns what the call on sequences does, and leaves the memory as it says. -/
theorem Refines.step (h : Refines s a) {op : Op} (hop : a.Allowed op) {fuel : ℕ}
    (hfuel : 2 ^ 64 ≤ fuel) :
    ∃ s', s.step fuel op = some (s', (a.step op).2) ∧ Refines s' (a.step op).1 := by
  cases op with
  | create list => exact ⟨_, rfl, h.create hop.1 hop.2⟩
  | append list item node =>
    have hset := h.setValue hop.2.2 item
    exact ⟨_, rfl, hset.append hop.1 hop.2.1 hop.2.2⟩
  | appendNode list node => exact ⟨_, rfl, h.append hop.1 hop.2.1 hop.2.2⟩
  | find list item =>
    refine ⟨s, ?_, h⟩
    simp only [State.step, h.find hop item hfuel, Option.map_some]
    rfl
  | delete list node => exact ⟨_, rfl, h.delete hop.1 hop.2⟩
  | pop list =>
    obtain ⟨hrefines, hret⟩ := h.pop hop
    exact ⟨_, by rw [← hret]; rfl, hrefines⟩
  | popleft list =>
    obtain ⟨hrefines, hret⟩ := h.popleft hop
    exact ⟨_, by rw [← hret]; rfl, hrefines⟩

theorem Refines.run (h : Refines s a) {ops : List Op} (hops : a.AllAllowed ops) {fuel : ℕ}
    (hfuel : 2 ^ 64 ≤ fuel) :
    ∃ s', s.run fuel ops = some (s', (a.run ops).2) ∧ Refines s' (a.run ops).1 := by
  induction ops generalizing s a with
  | nil => exact ⟨s, rfl, h⟩
  | cons op ops ih =>
    obtain ⟨s₁, hstep, h₁⟩ := h.step hops.1 hfuel
    obtain ⟨s₂, hrun, h₂⟩ := ih h₁ hops.2
    refine ⟨s₂, ?_, h₂⟩
    simp only [State.run, hstep, hrun, Sequences.run, Option.bind_eq_bind, Option.bind_some]

/-- Before any list is created, whatever is in the memory. -/
theorem refines_initial (s : State) : Refines s s.unused where
  describes h := absurd h (by simp [State.unused])
  null_not_list := rfl
  apart h := absurd h (by simp [State.unused, Sequences.seq])
  values _ := rfl
  loose n hn := absurd hn (Set.notMem_empty n)
  unlinked n hn := absurd hn (Set.notMem_empty n)

structure WellLinked (s : State) (list : Addr) (seq : List Addr) : Prop extends
    Describes s list seq where
  head_prev : (s.lists list).head ≠ null → (s.nodes (s.lists list).head).prev = null
  tail_next : (s.lists list).tail ≠ null → (s.nodes (s.lists list).tail).next = null
  next_prev : ∀ n ∈ seq, (s.nodes n).next ≠ null → (s.nodes (s.nodes n).next).prev = n

theorem Describes.wellLinked {seq : List Addr} (h : Describes s list seq) :
    WellLinked s list seq where
  toDescribes := h
  head_prev hne := by
    rw [h.head] at hne ⊢
    exact h.links.prev_head (mt (headOr_eq_null_iff h.links.nonnull).mpr hne)
  tail_next hne := by
    rw [h.tail] at hne ⊢
    exact h.links.next_last (mt (lastOr_eq_null_iff h.links.nonnull).mpr hne)
  next_prev n hn hne := h.links.prev_next hn hne

/-- Every sequence of allowed calls, from memory with anything in it: the calls return what they
return on sequences, the cells of every list are its sequence, and the nodes that were taken out
have no links. -/
theorem lists_are_sequences (s : State) (ops : List Op) (hops : s.unused.AllAllowed ops) {fuel : ℕ}
    (hfuel : 2 ^ 64 ≤ fuel) :
    ∃ s', s.run fuel ops = some (s', (s.unused.run ops).2) ∧ Refines s' (s.unused.run ops).1 ∧
      ∀ list seq, (s.unused.run ops).1.seqs list = some seq → WellLinked s' list seq := by
  obtain ⟨s', hrun, h⟩ := (refines_initial s).run hops hfuel
  exact ⟨s', hrun, h, fun list seq hseq => (h.describes hseq).wellLinked⟩

def zeroed : State := ⟨fun _ => ⟨0, 0, 0, 0⟩, fun _ => ⟨0, 0, 0⟩⟩

def movedNode : List Op :=
  [.create 16, .append 16 7 32, .append 16 8 40, .append 16 9 48, .create 24, .delete 16 40,
    .appendNode 24 40, .find 24 8, .pop 16, .popleft 24]

theorem movedNode_allowed : zeroed.unused.AllAllowed movedNode := by
  refine ⟨⟨by decide, rfl⟩, ⟨rfl, by decide, ?_⟩, ⟨rfl, by decide, ?_⟩, ⟨rfl, by decide, ?_⟩,
    ⟨by decide, rfl⟩, ⟨rfl, by decide⟩, ⟨rfl, by decide, ?_⟩, rfl, rfl, rfl, trivial⟩
  all_goals
    intro l
    simp only [Sequences.step, Sequences.create, Sequences.append, Sequences.delete, Sequences.seq,
      State.unused, Function.update_apply]
    split_ifs <;> simp

/-- The node that was moved is found in the other list and is the first one there. -/
theorem lists_are_sequences_moved_node :
    ∃ s', zeroed.run (2 ^ 64) movedNode =
        some (s', [some 16, none, none, none, some 24, none, none, some 40, some 48, some 40]) ∧
      WellLinked s' 16 [32] ∧ WellLinked s' 24 [] := by
  obtain ⟨s', hrun, -, hlinked⟩ :=
    lists_are_sequences zeroed movedNode movedNode_allowed (Nat.le_refl _)
  exact ⟨s', hrun, hlinked 16 [32] (by decide), hlinked 24 [] (by decide)⟩

end Refines

end ReduceOS.KernelList
