import ReduceOS.KernelList

/-!
The functions of `list.c` that work at a place of a list: a node put after or before another
one, and the node at an index taken out. They are compared with insertion into the sequence of
the list and removal from it. Each of them leaves a link as it finds it, or follows one that may
be `NULL`, at one end of the list; the condition under which a call does what it says is that
this does no harm.
-/
namespace ReduceOS.PositionalList

open Machine LinkedSequence KernelList

section Source

def store (s : State) (p : Addr) (f : Node → Node) : Option State :=
  if p = null then none else some (s.setNode p f)

def listAppendNodeAfter (s : State) (list appendTo node : Addr) : Option State := do
  let s := s.setNode node ({ · with owner := list })
  if appendTo = null then
    let s := s.setNode node ({ · with next := (s.lists list).head })
    let s ← store s (s.lists list).head ({ · with prev := node })
    some (s.setList list fun l => { l with head := node, length := l.length + 1 })
  else
    let s ←
      if appendTo = (s.lists list).tail then some (s.setList list ({ · with tail := node }))
      else do
        let s ← store s (s.nodes appendTo).next ({ · with prev := node })
        some (s.setNode node ({ · with next := (s.nodes appendTo).next }))
    let s := s.setNode node ({ · with prev := appendTo })
    let s := s.setNode appendTo ({ · with next := node })
    some (s.setList list fun l => { l with length := l.length + 1 })

/-- `list_append_after`, with the address that `kmalloc` returns for the node. -/
def listAppendAfter (s : State) (list appendTo item node : Addr) : Option State :=
  listAppendNodeAfter (s.setNode node ({ · with value := item })) list appendTo node

def listAppendNodeBefore (s : State) (list appendBefore node : Addr) : Option State := do
  let s := s.setNode node ({ · with owner := list })
  if appendBefore = null then
    let s := s.setNode node ({ · with next := null, prev := (s.lists list).tail })
    let s ← store s (s.lists list).tail ({ · with next := node })
    some (s.setList list fun l => { l with tail := node, length := l.length + 1 })
  else
    let s ←
      if appendBefore = (s.lists list).head then some (s.setList list ({ · with head := node }))
      else do
        let s ← store s (s.nodes appendBefore).prev ({ · with next := node })
        some (s.setNode node ({ · with prev := (s.nodes appendBefore).prev }))
    let s := s.setNode node ({ · with next := appendBefore })
    let s := s.setNode appendBefore ({ · with prev := node })
    some (s.setList list fun l => { l with length := l.length + 1 })

/-- `list_append_before`, with the address that `kmalloc` returns for the node. -/
def listAppendBefore (s : State) (list appendBefore item node : Addr) : Option State :=
  listAppendNodeBefore (s.setNode node ({ · with value := item })) list appendBefore node

/-- The loop of `list_delete_index`: where it stops, and how much is left of the index. -/
def advance (s : State) : ℕ → Addr → Addr × ℕ
  | 0, node => (node, 0)
  | left + 1, node =>
    if node = null then (null, left + 1) else advance s left (s.nodes node).next

/-- `list_delete` reads through the node it is given, which faults at `NULL`. -/
def listDeleteIndex (s : State) (list : Addr) (index : BitVec 64) : Option State :=
  if (s.lists list).length < index then some s
  else
    let (node, left) := advance s index.toNat (s.lists list).head
    if left = 0 then
      if node = null then none else some (listDelete s list node)
    else some s

end Source

/-- The calls, with the addresses that `kmalloc` returns in them. -/
inductive Call
  | appendNodeAfter (list appendTo node : Addr)
  | appendAfter (list appendTo item node : Addr)
  | appendNodeBefore (list appendBefore node : Addr)
  | appendBefore (list appendBefore item node : Addr)
  | deleteIndex (list : Addr) (index : BitVec 64)

def perform (s : State) : Call → Option State
  | .appendNodeAfter list appendTo node => listAppendNodeAfter s list appendTo node
  | .appendAfter list appendTo item node => listAppendAfter s list appendTo item node
  | .appendNodeBefore list appendBefore node => listAppendNodeBefore s list appendBefore node
  | .appendBefore list appendBefore item node => listAppendBefore s list appendBefore item node
  | .deleteIndex list index => listDeleteIndex s list index

section Sequences

variable (a : Sequences)

def insertAt (list : Addr) (i : ℕ) (node : Addr) : Sequences :=
  { a with
    seqs := Function.update a.seqs list (some ((a.seq list).insertIdx i node))
    removed := a.removed \ {node} }

def setValue (node item : Addr) : Sequences :=
  { a with values := Function.update a.values node item }

def indexAfter (list appendTo : Addr) : ℕ :=
  if appendTo = null then 0 else (a.seq list).idxOf appendTo + 1

def indexBefore (list appendBefore : Addr) : ℕ :=
  if appendBefore = null then (a.seq list).length else (a.seq list).idxOf appendBefore

def removeAt (list : Addr) (i : ℕ) : Sequences :=
  match (a.seq list)[i]? with
  | some node =>
    { a with
      seqs := Function.update a.seqs list (some ((a.seq list).eraseIdx i))
      removed := insert node a.removed }
  | none => a

def after : Call → Sequences
  | .appendNodeAfter list appendTo node => insertAt a list (indexAfter a list appendTo) node
  | .appendAfter list appendTo item node =>
    insertAt (setValue a node item) list (indexAfter a list appendTo) node
  | .appendNodeBefore list appendBefore node =>
    insertAt a list (indexBefore a list appendBefore) node
  | .appendBefore list appendBefore item node =>
    insertAt (setValue a node item) list (indexBefore a list appendBefore) node
  | .deleteIndex list index => removeAt a list index.toNat

/-- A new node is in no list, and the one it is put beside is in the list or `NULL`. -/
def Insertable (list anchor node : Addr) : Prop :=
  (a.seqs list).isSome ∧ node ≠ null ∧ a.Loose node ∧ (anchor = null ∨ anchor ∈ a.seq list)

def Allowed : Call → Prop
  | .appendNodeAfter list appendTo node => Insertable a list appendTo node
  | .appendAfter list appendTo _ node => Insertable a list appendTo node
  | .appendNodeBefore list appendBefore node => Insertable a list appendBefore node
  | .appendBefore list appendBefore _ node => Insertable a list appendBefore node
  | .deleteIndex list _ => (a.seqs list).isSome

end Sequences

section Conditions

variable (s : State) (a : Sequences)

/-- The front of the list is that of a list with a node, and the link of the new first or last
node, which is not written, is `NULL` before. -/
def SafeAfter (list appendTo node : Addr) : Prop :=
  if appendTo = null then a.seq list ≠ [] ∧ (s.nodes node).prev = null
  else appendTo = lastOr null (a.seq list) → (s.nodes node).next = null

def SafeBefore (list appendBefore node : Addr) : Prop :=
  if appendBefore = null then a.seq list ≠ []
  else appendBefore = headOr null (a.seq list) → (s.nodes node).prev = null

def Safe : Call → Prop
  | .appendNodeAfter list appendTo node => SafeAfter s a list appendTo node
  | .appendAfter list appendTo _ node => SafeAfter s a list appendTo node
  | .appendNodeBefore list appendBefore node => SafeBefore s a list appendBefore node
  | .appendBefore list appendBefore _ node => SafeBefore s a list appendBefore node
  | .deleteIndex list index => index.toNat ≠ (a.seq list).length

end Conditions

structure Holds (s : State) (a : Sequences) : Prop where
  refines : Refines s a
  linked : ∀ {list seq}, a.seqs list = some seq → WellLinked s list seq
  ends : ∀ {list}, (a.seqs list).isSome →
    ((s.lists list).head = null ↔ (s.lists list).tail = null)

section Cells

variable {s : State} {list node anchor : Addr}

theorem listAppendNodeAfter_null (hhead : (s.lists list).head ≠ null)
    (hne : node ≠ (s.lists list).head) :
    ∃ s', listAppendNodeAfter s list null node = some s' ∧
      (∀ q, s'.lists q = if q = list then
        ⟨node, (s.lists list).tail, (s.lists list).length + 1⟩ else s.lists q) ∧
      ∀ q, s'.nodes q =
        if q = node then { s.nodes node with next := (s.lists list).head, owner := list }
        else if q = (s.lists list).head then { s.nodes q with prev := node }
        else s.nodes q := by
  refine ⟨_, by simp [listAppendNodeAfter, store, hhead]; rfl, fun q => ?_, fun q => ?_⟩
  · by_cases hq : q = list <;> simp [hq]
  · by_cases hq : q = node <;> by_cases hq' : q = (s.lists list).head <;> simp_all

theorem listAppendNodeAfter_tail (hnull : anchor ≠ null) (hne : node ≠ anchor)
    (htail : anchor = (s.lists list).tail) :
    ∃ s', listAppendNodeAfter s list anchor node = some s' ∧
      (∀ q, s'.lists q = if q = list then
        ⟨(s.lists list).head, node, (s.lists list).length + 1⟩ else s.lists q) ∧
      ∀ q, s'.nodes q =
        if q = node then { s.nodes node with prev := anchor, owner := list }
        else if q = anchor then { s.nodes q with next := node }
        else s.nodes q := by
  refine ⟨_, by simp [listAppendNodeAfter, hnull, ← htail]; rfl, fun q => ?_, fun q => ?_⟩
  · by_cases hq : q = list <;> simp [hq]
  · by_cases hq : q = node <;> by_cases hq' : q = anchor <;> simp_all

theorem listAppendNodeAfter_inner (hnull : anchor ≠ null) (hne : node ≠ anchor)
    (htail : anchor ≠ (s.lists list).tail) (hnext : (s.nodes anchor).next ≠ null)
    (hself : anchor ≠ (s.nodes anchor).next) (hnode : node ≠ (s.nodes anchor).next) :
    ∃ s', listAppendNodeAfter s list anchor node = some s' ∧
      (∀ q, s'.lists q = if q = list then
        ⟨(s.lists list).head, (s.lists list).tail, (s.lists list).length + 1⟩ else s.lists q) ∧
      ∀ q, s'.nodes q =
        if q = node then
          { s.nodes node with next := (s.nodes anchor).next, prev := anchor, owner := list }
        else { s.nodes q with
          next := if q = anchor then node else (s.nodes q).next
          prev := if q = (s.nodes anchor).next then node else (s.nodes q).prev } := by
  refine ⟨_, by simp [listAppendNodeAfter, store, hnull, htail, hnext, hne.symm]; rfl,
    fun q => ?_, fun q => ?_⟩
  · by_cases hq : q = list <;> simp [hq]
  · generalize hn : (s.nodes anchor).next = next at hnode hself
    by_cases hq : q = node <;> by_cases hq' : q = anchor <;> by_cases hq'' : q = next <;>
      simp_all

theorem listAppendNodeBefore_null (htail : (s.lists list).tail ≠ null)
    (hne : node ≠ (s.lists list).tail) :
    ∃ s', listAppendNodeBefore s list null node = some s' ∧
      (∀ q, s'.lists q = if q = list then
        ⟨(s.lists list).head, node, (s.lists list).length + 1⟩ else s.lists q) ∧
      ∀ q, s'.nodes q =
        if q = node then
          { s.nodes node with next := null, prev := (s.lists list).tail, owner := list }
        else if q = (s.lists list).tail then { s.nodes q with next := node }
        else s.nodes q := by
  refine ⟨_, by simp [listAppendNodeBefore, store, htail]; rfl, fun q => ?_, fun q => ?_⟩
  · by_cases hq : q = list <;> simp [hq]
  · by_cases hq : q = node <;> by_cases hq' : q = (s.lists list).tail <;> simp_all

theorem listAppendNodeBefore_head (hnull : anchor ≠ null) (hne : node ≠ anchor)
    (hhead : anchor = (s.lists list).head) :
    ∃ s', listAppendNodeBefore s list anchor node = some s' ∧
      (∀ q, s'.lists q = if q = list then
        ⟨node, (s.lists list).tail, (s.lists list).length + 1⟩ else s.lists q) ∧
      ∀ q, s'.nodes q =
        if q = node then { s.nodes node with next := anchor, owner := list }
        else if q = anchor then { s.nodes q with prev := node }
        else s.nodes q := by
  refine ⟨_, by simp [listAppendNodeBefore, hnull, ← hhead]; rfl, fun q => ?_, fun q => ?_⟩
  · by_cases hq : q = list <;> simp [hq]
  · by_cases hq : q = node <;> by_cases hq' : q = anchor <;> simp_all

theorem listAppendNodeBefore_inner (hnull : anchor ≠ null) (hne : node ≠ anchor)
    (hhead : anchor ≠ (s.lists list).head) (hprev : (s.nodes anchor).prev ≠ null)
    (hself : anchor ≠ (s.nodes anchor).prev) (hnode : node ≠ (s.nodes anchor).prev) :
    ∃ s', listAppendNodeBefore s list anchor node = some s' ∧
      (∀ q, s'.lists q = if q = list then
        ⟨(s.lists list).head, (s.lists list).tail, (s.lists list).length + 1⟩ else s.lists q) ∧
      ∀ q, s'.nodes q =
        if q = node then
          { s.nodes node with next := anchor, prev := (s.nodes anchor).prev, owner := list }
        else { s.nodes q with
          next := if q = (s.nodes anchor).prev then node else (s.nodes q).next
          prev := if q = anchor then node else (s.nodes q).prev } := by
  refine ⟨_, by simp [listAppendNodeBefore, store, hnull, hhead, hprev, hne.symm]; rfl,
    fun q => ?_, fun q => ?_⟩
  · by_cases hq : q = list <;> simp [hq]
  · generalize hn : (s.nodes anchor).prev = prev at hnode hself
    by_cases hq : q = node <;> by_cases hq' : q = anchor <;> by_cases hq'' : q = prev <;>
      simp_all

end Cells

section Inserted

variable {s s' : State} {list node anchor b : Addr} {xs ys seq : List Addr}

theorem inserted_after_null (h : Describes s list (b :: ys)) (hn : node ∉ b :: ys)
    (hprev : (s.nodes node).prev = null) :
    ∃ s', listAppendNodeAfter s list null node = some s' ∧
      Inserted s s' list [] node (b :: ys) := by
  have hhead : (s.lists list).head = b := h.head
  have hb : b ≠ null := ne_of_mem_of_not_mem List.mem_cons_self h.links.nonnull
  have hne : node ≠ b := (ne_of_mem_of_not_mem List.mem_cons_self hn).symm
  obtain ⟨s', hrun, hlists, hnodes⟩ := listAppendNodeAfter_null (hhead ▸ hb) (hhead ▸ hne)
  refine ⟨s', hrun, fun q => ?_, ?_, fun q hq => ?_⟩
  · rw [hlists, h.tail, List.nil_append, lastOr_cons_cons, headOr_cons]
  · simp [hnodes, hhead, hprev]
  · by_cases hqb : q = b <;> simp [hnodes, hq, hhead, hqb, hb, hne.symm]

theorem inserted_after_tail (h : Describes s list (xs ++ [anchor])) (hn : node ∉ xs ++ [anchor])
    (hnext : (s.nodes node).next = null) :
    ∃ s', listAppendNodeAfter s list anchor node = some s' ∧
      Inserted s s' list (xs ++ [anchor]) node [] := by
  have hmem : anchor ∈ xs ++ [anchor] := List.mem_append_right xs (List.mem_singleton_self anchor)
  have hnull : anchor ≠ null := ne_of_mem_of_not_mem hmem h.links.nonnull
  have htail : anchor = (s.lists list).tail := by rw [h.tail, lastOr_concat]
  have hhead := h.head
  have hne : anchor ≠ node := ne_of_mem_of_not_mem hmem hn
  obtain ⟨s', hrun, hlists, hnodes⟩ := listAppendNodeAfter_tail hnull hne.symm htail
  refine ⟨s', hrun, fun q => ?_, ?_, fun q hq => ?_⟩
  · rw [hlists, hhead, lastOr_concat, headOr_concat_append]
  · simp [hnodes, hnext]
  · by_cases hqb : q = anchor <;> simp [hnodes, hq, hqb, hnull, hne]

theorem inserted_after_inner (h : Describes s list (xs ++ anchor :: b :: ys))
    (hn : node ∉ xs ++ anchor :: b :: ys) :
    ∃ s', listAppendNodeAfter s list anchor node = some s' ∧
      Inserted s s' list (xs ++ [anchor]) node (b :: ys) := by
  have hmem : anchor ∈ xs ++ anchor :: b :: ys := by simp
  have hbmem : b ∈ xs ++ anchor :: b :: ys := by simp
  have hnull : anchor ≠ null := ne_of_mem_of_not_mem hmem h.links.nonnull
  have hb : b ≠ null := ne_of_mem_of_not_mem hbmem h.links.nonnull
  have hnext : (s.nodes anchor).next = b := h.links.next_at
  have hlast : lastOr null (b :: ys) ∈ b :: ys := lastOr_mem (List.cons_ne_nil b ys)
  have htail : (s.lists list).tail = lastOr null (b :: ys) := by
    rw [h.tail, lastOr_append_cons, lastOr_cons_cons]
  have hnotin : anchor ∉ b :: ys :=
    (List.nodup_cons.mp (List.nodup_append.mp h.links.nodup).2.1).1
  have hab : b ≠ anchor := ne_of_mem_of_not_mem List.mem_cons_self hnotin
  have hane : anchor ≠ node := ne_of_mem_of_not_mem hmem hn
  have hbne : b ≠ node := ne_of_mem_of_not_mem hbmem hn
  obtain ⟨s', hrun, hlists, hnodes⟩ := listAppendNodeAfter_inner hnull hane.symm
    (htail ▸ (ne_of_mem_of_not_mem hlast hnotin).symm) (hnext ▸ hb) (hnext ▸ hab.symm)
    (hnext ▸ hbne.symm)
  refine ⟨s', hrun, fun q => ?_, ?_, fun q hq => ?_⟩
  · rw [hlists, htail, h.head, lastOr_append_cons, lastOr_cons_cons]
    cases xs <;> rfl
  · simp [hnodes, hnext]
  · by_cases hqa : q = anchor <;> by_cases hqb : q = b <;>
      simp [hnodes, hq, hqa, hqb, hnull, hb, hnext, hane, hbne]

theorem inserted_before_null (h : Describes s list (xs ++ [b])) (hn : node ∉ xs ++ [b]) :
    ∃ s', listAppendNodeBefore s list null node = some s' ∧
      Inserted s s' list (xs ++ [b]) node [] := by
  have hmem : b ∈ xs ++ [b] := List.mem_append_right xs (List.mem_singleton_self b)
  have htail : (s.lists list).tail = b := by rw [h.tail, lastOr_concat]
  have hb : b ≠ null := ne_of_mem_of_not_mem hmem h.links.nonnull
  have hne : node ≠ b := (ne_of_mem_of_not_mem hmem hn).symm
  obtain ⟨s', hrun, hlists, hnodes⟩ := listAppendNodeBefore_null (htail ▸ hb) (htail ▸ hne)
  refine ⟨s', hrun, fun q => ?_, ?_, fun q hq => ?_⟩
  · rw [hlists, h.head, lastOr_concat, headOr_concat_append]
  · simp [hnodes, htail]
  · by_cases hqb : q = b <;> simp [hnodes, hq, htail, hqb, hb, hne.symm]

theorem inserted_before_head (h : Describes s list (anchor :: ys)) (hn : node ∉ anchor :: ys)
    (hprev : (s.nodes node).prev = null) :
    ∃ s', listAppendNodeBefore s list anchor node = some s' ∧
      Inserted s s' list [] node (anchor :: ys) := by
  have hnull : anchor ≠ null := ne_of_mem_of_not_mem List.mem_cons_self h.links.nonnull
  have hhead : anchor = (s.lists list).head := h.head.symm
  have htail := h.tail
  have hne : anchor ≠ node := ne_of_mem_of_not_mem List.mem_cons_self hn
  obtain ⟨s', hrun, hlists, hnodes⟩ := listAppendNodeBefore_head hnull hne.symm hhead
  refine ⟨s', hrun, fun q => ?_, ?_, fun q hq => ?_⟩
  · rw [hlists, htail, List.nil_append, lastOr_cons_cons, headOr_cons]
  · simp [hnodes, hprev]
  · by_cases hqb : q = anchor <;> simp [hnodes, hq, hqb, hnull, hne]

theorem inserted_before_inner (h : Describes s list (xs ++ b :: anchor :: ys))
    (hn : node ∉ xs ++ b :: anchor :: ys) :
    ∃ s', listAppendNodeBefore s list anchor node = some s' ∧
      Inserted s s' list (xs ++ [b]) node (anchor :: ys) := by
  have hsplit : xs ++ b :: anchor :: ys = (xs ++ [b]) ++ anchor :: ys := by simp
  rw [hsplit] at h hn
  have hmem : anchor ∈ (xs ++ [b]) ++ anchor :: ys := by simp
  have hbmem : b ∈ (xs ++ [b]) ++ anchor :: ys := by simp
  have hnull : anchor ≠ null := ne_of_mem_of_not_mem hmem h.links.nonnull
  have hb : b ≠ null := ne_of_mem_of_not_mem hbmem h.links.nonnull
  have hprev : (s.nodes anchor).prev = b := by
    have hlast : (s.nodes anchor).prev = lastOr null (xs ++ [b]) := h.links.prev_at
    rwa [lastOr_concat] at hlast
  have hhead : (s.lists list).head = headOr null (xs ++ [b]) := by
    rw [h.head, headOr_concat_append]
  have hfirst : headOr null (xs ++ [b]) ∈ xs ++ [b] := headOr_mem (by simp)
  have hnotin : anchor ∉ xs ++ [b] := fun hin =>
    (List.nodup_append.mp h.links.nodup).2.2 anchor hin anchor List.mem_cons_self rfl
  have hbin : b ∈ xs ++ [b] := by simp
  have hab : b ≠ anchor := ne_of_mem_of_not_mem hbin hnotin
  have hane : anchor ≠ node := ne_of_mem_of_not_mem hmem hn
  have hbne : b ≠ node := ne_of_mem_of_not_mem hbmem hn
  obtain ⟨s', hrun, hlists, hnodes⟩ := listAppendNodeBefore_inner hnull hane.symm
    (hhead ▸ (ne_of_mem_of_not_mem hfirst hnotin).symm) (hprev ▸ hb) (hprev ▸ hab.symm)
    (hprev ▸ hbne.symm)
  refine ⟨s', hrun, fun q => ?_, ?_, fun q hq => ?_⟩
  · rw [hlists, hhead, h.tail, lastOr_append_cons, lastOr_append_cons, lastOr_cons_cons,
      headOr_concat_append]
  · simp [hnodes, hprev]
  · by_cases hqa : q = anchor <;> by_cases hqb : q = b <;>
      simp [hnodes, hq, hqa, hqb, hnull, hb, hprev, hane, hbne]

end Inserted

section Insert

variable {s s' : State} {a : Sequences} {list node anchor : Addr} {xs ys : List Addr}

theorem holds_of_refines (h : Refines s a) : Holds s a where
  refines := h
  linked hseq := (h.describes hseq).wellLinked
  ends hlist := by
    have hd := h.describes_seq hlist
    rw [hd.head, hd.tail, headOr_eq_null_iff hd.links.nonnull, lastOr_eq_null_iff hd.links.nonnull]

theorem insertIdx_length_append (xs ys : List Addr) :
    (xs ++ ys).insertIdx xs.length node = xs ++ node :: ys := by
  induction xs with
  | nil => exact List.insertIdx_zero
  | cons x xs ih => rw [List.cons_append, List.length_cons, List.insertIdx_succ_cons, ih]; rfl

theorem holds_insertAt (h : Refines s a) (hins : Insertable a list anchor node)
    (hseq : a.seq list = xs ++ ys) {i : ℕ} (hi : i = xs.length)
    (hinserted : Inserted s s' list xs node ys) : Holds s' (insertAt a list i node) := by
  have hrefines := h.insert hins.1 hins.2.1 hins.2.2.1 hseq hinserted
  have hidx : (a.seq list).insertIdx i node = xs ++ node :: ys := by
    rw [hseq, hi, insertIdx_length_append]
  refine holds_of_refines ?_
  unfold insertAt
  rwa [hidx]

theorem idxOf_middle (h : anchor ∉ xs) : (xs ++ anchor :: ys).idxOf anchor = xs.length := by
  rw [List.idxOf_append_of_notMem h, List.idxOf_cons_self, Nat.add_zero]

/-- Where an anchor is in the sequence of its list. -/
theorem split_at (h : Refines s a) (hlist : (a.seqs list).isSome) (hmem : anchor ∈ a.seq list) :
    ∃ xs ys, a.seq list = xs ++ anchor :: ys ∧ (a.seq list).idxOf anchor = xs.length ∧
      (anchor = lastOr null (a.seq list) ↔ ys = []) ∧
      (anchor = headOr null (a.seq list) ↔ xs = []) := by
  obtain ⟨xs, ys, hseq⟩ := List.append_of_mem hmem
  have hnd := (h.describes_seq hlist).links.nodup
  rw [hseq] at hnd
  obtain ⟨-, hcons, hdisj⟩ := List.nodup_append.mp hnd
  have hxs : anchor ∉ xs := fun hin => hdisj anchor hin anchor List.mem_cons_self rfl
  have hys : anchor ∉ ys := (List.nodup_cons.mp hcons).1
  refine ⟨xs, ys, hseq, by rw [hseq, idxOf_middle hxs], ?_, ?_⟩
  · rw [hseq, lastOr_append_cons, lastOr_cons]
    cases ys with
    | nil => simp
    | cons y ys =>
      have hlast : lastOr anchor (y :: ys) ∈ y :: ys := lastOr_mem (List.cons_ne_nil y ys)
      simp [(ne_of_mem_of_not_mem hlast hys).symm]
  · rw [hseq]
    cases xs with
    | nil => simp
    | cons x xs => simp [(ne_of_mem_of_not_mem List.mem_cons_self hxs).symm]

theorem insertAt_seqs (i : ℕ) :
    (insertAt a list i node).seqs list = some ((a.seq list).insertIdx i node) :=
  Function.update_self _ _ _

/-- `list_append_node_after` at the front: there has to be a first node, and the `prev` link of
the new one is as it was. -/
theorem after_null_iff (h : Refines s a) (hins : Insertable a list null node) :
    (∃ s', listAppendNodeAfter s list null node = some s' ∧ Holds s' (insertAt a list 0 node)) ↔
      a.seq list ≠ [] ∧ (s.nodes node).prev = null := by
  have hd := h.describes_seq hins.1
  have hn := hins.2.2.1 list
  cases hseq : a.seq list with
  | nil =>
    have hhead : (s.lists list).head = null := by rw [hd.head, hseq, headOr_nil]
    refine iff_of_false ?_ fun hne => hne.1 rfl
    rintro ⟨s', hrun, -⟩
    simp [listAppendNodeAfter, store, hhead] at hrun
  | cons b ys =>
    rw [hseq] at hd hn
    constructor
    · rintro ⟨s', hrun, hholds⟩
      have hhead : (s.lists list).head = b := hd.head
      have hb : b ≠ null := ne_of_mem_of_not_mem List.mem_cons_self hd.links.nonnull
      have hne : node ≠ b := (ne_of_mem_of_not_mem List.mem_cons_self hn).symm
      obtain ⟨s₁, hrun₁, hlists, hnodes⟩ := listAppendNodeAfter_null (hhead ▸ hb) (hhead ▸ hne)
      rw [hrun] at hrun₁
      cases hrun₁
      have hprev := (hholds.linked (insertAt_seqs 0)).head_prev
      rw [hlists, if_pos rfl] at hprev
      have hkept := hprev hins.2.1
      rw [hnodes, if_pos rfl] at hkept
      exact ⟨List.cons_ne_nil b ys, hkept⟩
    · rintro ⟨-, hprev⟩
      obtain ⟨s', hrun, hinserted⟩ := inserted_after_null hd hn hprev
      exact ⟨s', hrun, holds_insertAt h hins hseq rfl hinserted⟩

/-- After the last node, the `next` link of the new one is as it was. -/
theorem after_tail_iff (h : Refines s a) (hins : Insertable a list anchor node)
    (hzero : anchor ≠ null) (hseq : a.seq list = xs ++ [anchor]) :
    (∃ s', listAppendNodeAfter s list anchor node = some s' ∧
      Holds s' (insertAt a list (xs.length + 1) node)) ↔ (s.nodes node).next = null := by
  have hd := h.describes_seq hins.1
  have hn := hins.2.2.1 list
  rw [hseq] at hd hn
  constructor
  · rintro ⟨s', hrun, hholds⟩
    have hmem : anchor ∈ xs ++ [anchor] := by simp
    have htail : anchor = (s.lists list).tail := by rw [hd.tail, lastOr_concat]
    obtain ⟨s₁, hrun₁, hlists, hnodes⟩ :=
      listAppendNodeAfter_tail hzero (ne_of_mem_of_not_mem hmem hn).symm htail
    rw [hrun] at hrun₁
    cases hrun₁
    have hnext := (hholds.linked (insertAt_seqs _)).tail_next
    rw [hlists, if_pos rfl] at hnext
    have hkept := hnext hins.2.1
    rwa [hnodes, if_pos rfl] at hkept
  · intro hnext
    obtain ⟨s', hrun, hinserted⟩ := inserted_after_tail hd hn hnext
    have hmid : a.seq list = (xs ++ [anchor]) ++ [] := by simp [hseq]
    exact ⟨s', hrun, holds_insertAt h hins hmid (by simp) hinserted⟩

theorem after_iff (h : Refines s a) (hins : Insertable a list anchor node) :
    (∃ s', listAppendNodeAfter s list anchor node = some s' ∧
      Holds s' (insertAt a list (indexAfter a list anchor) node)) ↔
      SafeAfter s a list anchor node := by
  unfold indexAfter SafeAfter
  by_cases hzero : anchor = null
  · subst hzero
    rw [if_pos rfl, if_pos rfl]
    exact after_null_iff h hins
  · obtain ⟨xs, ys, hseq, hidx, hlast, -⟩ :=
      split_at h hins.1 (hins.2.2.2.resolve_left hzero)
    rw [if_neg hzero, if_neg hzero, hidx, hlast]
    cases ys with
    | nil =>
      exact (after_tail_iff h hins hzero hseq).trans ⟨fun hnext _ => hnext, fun hnext => hnext rfl⟩
    | cons b ys =>
      have hd := h.describes_seq hins.1
      have hn := hins.2.2.1 list
      have hmid : a.seq list = (xs ++ [anchor]) ++ b :: ys := by simp [hseq]
      rw [hseq] at hd hn
      obtain ⟨s', hrun, hinserted⟩ := inserted_after_inner hd hn
      exact iff_of_true ⟨s', hrun, holds_insertAt h hins hmid (by simp) hinserted⟩
        fun hnil => absurd hnil (List.cons_ne_nil b ys)

/-- `list_append_node_before` at the end: there has to be a last node. -/
theorem before_null_iff (h : Refines s a) (hins : Insertable a list null node) :
    (∃ s', listAppendNodeBefore s list null node = some s' ∧
      Holds s' (insertAt a list (a.seq list).length node)) ↔ a.seq list ≠ [] := by
  have hd := h.describes_seq hins.1
  have hn := hins.2.2.1 list
  rcases List.eq_nil_or_concat' (a.seq list) with hseq | ⟨xs, b, hseq⟩
  · have htail : (s.lists list).tail = null := by rw [hd.tail, hseq, lastOr_nil]
    refine iff_of_false ?_ fun hne => hne hseq
    rintro ⟨s', hrun, -⟩
    simp [listAppendNodeBefore, store, htail] at hrun
  · have hmid : a.seq list = (xs ++ [b]) ++ [] := by simp [hseq]
    rw [hseq] at hd hn
    obtain ⟨s', hrun, hinserted⟩ := inserted_before_null hd hn
    refine iff_of_true ⟨s', hrun, holds_insertAt h hins hmid (by rw [hseq]) hinserted⟩ ?_
    rw [hseq]
    exact List.append_ne_nil_of_right_ne_nil xs (List.cons_ne_nil b [])

/-- Before the first node, the `prev` link of the new one is as it was. -/
theorem before_head_iff (h : Refines s a) (hins : Insertable a list anchor node)
    (hzero : anchor ≠ null) (hseq : a.seq list = anchor :: ys) :
    (∃ s', listAppendNodeBefore s list anchor node = some s' ∧
      Holds s' (insertAt a list 0 node)) ↔ (s.nodes node).prev = null := by
  have hd := h.describes_seq hins.1
  have hn := hins.2.2.1 list
  rw [hseq] at hd hn
  constructor
  · rintro ⟨s', hrun, hholds⟩
    have hhead : anchor = (s.lists list).head := hd.head.symm
    obtain ⟨s₁, hrun₁, hlists, hnodes⟩ :=
      listAppendNodeBefore_head hzero (ne_of_mem_of_not_mem List.mem_cons_self hn).symm hhead
    rw [hrun] at hrun₁
    cases hrun₁
    have hprev := (hholds.linked (insertAt_seqs 0)).head_prev
    rw [hlists, if_pos rfl] at hprev
    have hkept := hprev hins.2.1
    rwa [hnodes, if_pos rfl] at hkept
  · intro hprev
    obtain ⟨s', hrun, hinserted⟩ := inserted_before_head hd hn hprev
    exact ⟨s', hrun, holds_insertAt h hins hseq rfl hinserted⟩

theorem before_iff (h : Refines s a) (hins : Insertable a list anchor node) :
    (∃ s', listAppendNodeBefore s list anchor node = some s' ∧
      Holds s' (insertAt a list (indexBefore a list anchor) node)) ↔
      SafeBefore s a list anchor node := by
  unfold indexBefore SafeBefore
  by_cases hzero : anchor = null
  · subst hzero
    rw [if_pos rfl, if_pos rfl]
    exact before_null_iff h hins
  · obtain ⟨xs, ys, hseq, hidx, -, hfirst⟩ :=
      split_at h hins.1 (hins.2.2.2.resolve_left hzero)
    rw [if_neg hzero, if_neg hzero, hidx, hfirst]
    rcases List.eq_nil_or_concat' xs with rfl | ⟨xs, b, rfl⟩
    · exact (before_head_iff h hins hzero hseq).trans
        ⟨fun hprev _ => hprev, fun hprev => hprev rfl⟩
    · have hd := h.describes_seq hins.1
      have hn := hins.2.2.1 list
      have hmid : a.seq list = xs ++ b :: anchor :: ys := by simp [hseq]
      rw [hmid] at hd hn
      obtain ⟨s', hrun, hinserted⟩ := inserted_before_inner hd hn
      exact iff_of_true ⟨s', hrun, holds_insertAt h hins hseq rfl hinserted⟩
        fun hnil => absurd hnil (List.append_ne_nil_of_right_ne_nil xs (List.cons_ne_nil b []))

end Insert

section Delete

variable {s : State} {a : Sequences} {list : Addr} {seq : List Addr} {index : BitVec 64}

/-- The loop of `list_delete_index` walks the sequence. -/
theorem advance_eq (h : Follows null (fun n => (s.nodes n).next) seq) (hnull : null ∉ seq) {k : ℕ}
    (hk : k ≤ seq.length) : advance s k (headOr null seq) = (headOr null (seq.drop k), 0) := by
  induction k generalizing seq with
  | zero => rfl
  | succ k ih =>
    cases seq with
    | nil => exact absurd hk (Nat.not_succ_le_zero k)
    | cons n seq =>
      rw [List.mem_cons, not_or] at hnull
      have hnext : (s.nodes n).next = headOr null seq := h.1
      rw [headOr_cons, advance, if_neg (Ne.symm hnull.1), hnext, List.drop_succ_cons]
      exact ih h.2 hnull.2 (Nat.le_of_succ_le_succ hk)

theorem removeAt_eq_delete (hnd : (a.seq list).Nodup) {i : ℕ} (hi : i < (a.seq list).length) :
    removeAt a list i = a.delete list ((a.seq list)[i]) := by
  unfold removeAt Sequences.delete
  rw [List.getElem?_eq_getElem hi, hnd.erase_getElem]

/-- `list_delete_index` takes the node out below the length, does nothing above it, and runs
into `NULL` at the length. -/
theorem deleteIndex_iff (h : Refines s a) (hlist : (a.seqs list).isSome) :
    (∃ s', listDeleteIndex s list index = some s' ∧ Holds s' (removeAt a list index.toNat)) ↔
      index.toNat ≠ (a.seq list).length := by
  have hd := h.describes_seq hlist
  have hcmp : (s.lists list).length < index ↔ (a.seq list).length < index.toNat := by
    rw [BitVec.lt_def, hd.length]
  unfold listDeleteIndex
  rw [hd.head]
  rcases lt_trichotomy index.toNat (a.seq list).length with hlt | heq | hgt
  · have hnode : headOr null ((a.seq list).drop index.toNat) = (a.seq list)[index.toNat] := by
      rw [List.drop_eq_getElem_cons hlt, headOr_cons]
    have hmem : (a.seq list)[index.toNat] ∈ a.seq list := List.getElem_mem hlt
    rw [if_neg (mt hcmp.mp hlt.not_gt), advance_eq hd.links.forward hd.links.nonnull hlt.le, hnode,
      removeAt_eq_delete hd.links.nodup hlt]
    dsimp only
    rw [if_pos rfl, if_neg (ne_of_mem_of_not_mem hmem hd.links.nonnull)]
    exact iff_of_true ⟨_, rfl, holds_of_refines (h.delete hlist hmem)⟩ hlt.ne
  · rw [if_neg (mt hcmp.mp heq.not_gt), advance_eq hd.links.forward hd.links.nonnull heq.le,
      heq, List.drop_length, headOr_nil]
    refine iff_of_false ?_ fun hne => hne rfl
    rintro ⟨s', hrun, -⟩
    simp at hrun
  · have hkept : removeAt a list index.toNat = a := by
      rw [removeAt, List.getElem?_eq_none hgt.le]
    rw [if_pos (hcmp.mpr hgt), hkept]
    exact iff_of_true ⟨s, rfl, holds_of_refines h⟩ hgt.ne'

end Delete

/-- Every call at a place of a list, in every memory that holds lists: it leaves the memory that
the call on sequences describes, with all links of every list, if and only if no link that it
leaves as it was, and no `NULL` that it follows, is in the way. -/
theorem positional_calls_iff {s : State} {a : Sequences} (h : Refines s a) {call : Call}
    (hcall : Allowed a call) :
    (∃ s', perform s call = some s' ∧ Holds s' (after a call)) ↔ Safe s a call := by
  cases call with
  | appendNodeAfter list appendTo node => exact after_iff h hcall
  | appendAfter list appendTo item node =>
    have hset := after_iff (h.setValue hcall.2.2.1 item) hcall
    unfold SafeAfter at hset
    rw [setNode_nodes, if_pos rfl] at hset
    exact hset
  | appendNodeBefore list appendBefore node => exact before_iff h hcall
  | appendBefore list appendBefore item node =>
    have hset := before_iff (h.setValue hcall.2.2.1 item) hcall
    unfold SafeBefore at hset
    rw [setNode_nodes, if_pos rfl] at hset
    exact hset
  | deleteIndex list index => exact deleteIndex_iff h hcall

def selfLinked : State := ⟨fun n => ⟨0, n, n, 0⟩, fun _ => ⟨0, 0, 0⟩⟩

def twoNodes : State := listAppend (listAppend (listCreate selfLinked 16) 16 7 32) 16 8 48

def twoSequences : Sequences :=
  (setValue ((setValue (selfLinked.unused.create 16) 32 7).append 16 32) 48 8).append 16 48

theorem twoSequences_seq (list : Addr) :
    twoSequences.seq list = if list = 16 then [32, 48] else [] := by
  rw [Sequences.seq_update rfl]
  split_ifs with hlist
  · rfl
  · change Sequences.seq (Sequences.append _ 16 32) list = []
    rw [Sequences.seq_update rfl, if_neg hlist]
    change Sequences.seq (Sequences.create _ 16) list = []
    rw [Sequences.seq_update rfl, if_neg hlist]
    rfl

theorem twoNodes_refines : Refines twoNodes twoSequences := by
  have hcreate : Refines (listCreate _ 16) (selfLinked.unused.create 16) :=
    (refines_initial selfLinked).create (by decide) rfl
  have hloose : (selfLinked.unused.create 16).Loose 32 := fun list => by
    rw [Sequences.seq_update rfl]
    split_ifs <;> exact List.not_mem_nil
  have hfirst : Refines (listAppendNode _ 16 32) _ :=
    (hcreate.setValue hloose 7).append rfl (by decide) hloose
  have hloose' : ((setValue (selfLinked.unused.create 16) 32 7).append 16 32).Loose 48 :=
    fun list => by
      rw [Sequences.seq_update rfl]
      split_ifs with hlist
      · decide
      · change 48 ∉ Sequences.seq (Sequences.create _ 16) list
        rw [Sequences.seq_update rfl, if_neg hlist]
        exact List.not_mem_nil
  exact (hfirst.setValue hloose' 8).append rfl (by decide) hloose'

theorem twoNodes_insertable {anchor : Addr} (h : anchor = null ∨ anchor = 32 ∨ anchor = 48) :
    Insertable twoSequences 16 anchor 64 := by
  refine ⟨rfl, by decide, fun list => ?_, ?_⟩
  · rw [twoSequences_seq]
    split_ifs <;> decide
  · rw [twoSequences_seq, if_pos rfl]
    rcases h with rfl | rfl | rfl <;> decide

/-- Between the two nodes, all links of the new one are written. -/
theorem positional_calls_iff_between :
    ∃ s', perform twoNodes (.appendAfter 16 32 9 64) = some s' ∧
      Holds s' (after twoSequences (.appendAfter 16 32 9 64)) :=
  have hcall : Allowed twoSequences (.appendAfter 16 32 9 64) :=
    twoNodes_insertable (Or.inr (Or.inl rfl))
  (positional_calls_iff twoNodes_refines hcall).mpr fun hlast => absurd hlast (by decide)

/-- After the last of the two nodes, the list ends in a node that points to itself. -/
theorem appendAfter_tail_dangles :
    Refines twoNodes twoSequences ∧ Allowed twoSequences (.appendAfter 16 48 9 64) ∧
      ¬ ∃ s', perform twoNodes (.appendAfter 16 48 9 64) = some s' ∧
        Holds s' (after twoSequences (.appendAfter 16 48 9 64)) := by
  refine ⟨twoNodes_refines, twoNodes_insertable (Or.inr (Or.inr rfl)), ?_⟩
  rintro ⟨s', hrun, hholds⟩
  have hnode : (s'.nodes 64).next = 64 ∧ (s'.lists 16).tail = 64 := by
    have hsome : some s' = perform twoNodes (.appendAfter 16 48 9 64) := hrun.symm
    cases hsome
    decide
  have hnext := (hholds.linked (insertAt_seqs _)).tail_next
  rw [hnode.2, hnode.1] at hnext
  exact absurd (hnext (by decide)) (by decide)

end ReduceOS.PositionalList
