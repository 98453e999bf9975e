import ReduceOS.KernelList

/-!
Descriptor tables that processes share. A process that is created with a parent gets the table
of its parent, any other process a new one; `process_destroy` gives up one reference and, with
the last one, closes the nodes of the descriptors and frees the table. Tables are numbered in the
order in which they are made, so that one can be told from another that is later at its address.
-/
namespace ReduceOS.FdSharing

open Machine
open KernelList (length_lt_of_nodup)

/-- `fd_table_t`: the descriptors are those below `amount`, and `total` makes no difference here. -/
structure Table where
  born : ℕ
  references : BitVec 64
  fds : List Addr

structure Process where
  address : Addr
  fdTable : Addr
  stopped : Bool
  deriving DecidableEq

structure Entry where
  table : ℕ
  index : ℕ
  node : Addr
  deriving DecidableEq

/-- The tables and the nodes of the descriptors in memory, the processes that are not destroyed,
and, beside the kernel's own state, the number of tables made so far, the entries added to them
and the entries for which `fs_close` was called. -/
structure State where
  tables : Addr → Option Table
  objects : Addr → Option Addr
  live : List Process
  created : ℕ
  added : List Entry
  closed : List Entry

def State.setTable (s : State) (a : Addr) (t : Option Table) : State :=
  { s with tables := Function.update s.tables a t }

section Source

def State.at (s : State) (address : Addr) : Option Process :=
  s.live.find? fun p => p.address = address

/-- `process_createStructure`, with the addresses that `kmalloc` returns. As below, `none` is a
pointer followed to where nothing is allocated. -/
def createStructure (s : State) (parent : Option Addr) (process table : Addr) : Option State :=
  match parent with
  | some parent => do
    let p ← s.at parent
    let t ← s.tables p.fdTable
    some { s.setTable p.fdTable (some { t with references := t.references + 1 }) with
      live := ⟨process, p.fdTable, false⟩ :: s.live }
  | none =>
    some { s.setTable table (some ⟨s.created, 1, []⟩) with
      live := ⟨process, table, false⟩ :: s.live
      created := s.created + 1 }

def fork (s : State) (current process table : Addr) : Option State :=
  createStructure s (some current) process table

def fdAdd (s : State) (process node newFd : Addr) : Option State :=
  if process = null ∨ node = null then some s
  else do
    let p ← s.at process
    let t ← s.tables p.fdTable
    some { s.setTable p.fdTable (some { t with fds := t.fds ++ [newFd] }) with
      objects := Function.update s.objects newFd (some node)
      added := ⟨t.born, t.fds.length, node⟩ :: s.added }

def fdRemove (s : State) (_process : Addr) (_fd : CInt) : State := s

/-- The loop of `fd_destroyTable` over the descriptors from number `i` on. -/
def closeAll (born : ℕ) : List Addr → ℕ → State → Option State
  | [], _, s => some s
  | fd :: fds, i, s =>
    if fd = null then closeAll born fds (i + 1) s
    else do
      let node ← s.objects fd
      closeAll born fds (i + 1) { s with
        objects := Function.update s.objects fd none
        closed := ⟨born, i, node⟩ :: s.closed }

def fdDestroyTable (s : State) (p : Process) : Option State := do
  let t ← s.tables p.fdTable
  if 1#64 < t.references then
    some (s.setTable p.fdTable (some { t with references := t.references - 1 }))
  else
    let s ← closeAll t.born t.fds 0 s
    some (s.setTable p.fdTable none)

def destroy (s : State) (process : Addr) : Option State :=
  if process = null then some s
  else do
    let p ← s.at process
    if p.stopped = false then some s
    else
      let s ← fdDestroyTable s p
      some { s with live := s.live.erase p }

end Source

inductive Event
  | create (parent : Option Addr) (process table : Addr)
  | fork (current process table : Addr)
  | add (process node newFd : Addr)
  | remove (process : Addr) (fd : CInt)
  | stop (process : Addr)
  | destroy (process : Addr)

def Process.stop (p : Process) : Process := { p with stopped := true }

def State.stop (s : State) (process : Addr) : State :=
  { s with live := s.live.map fun p => if p.address = process then p.stop else p }

def State.step (s : State) : Event → Option State
  | .create parent process table => createStructure s parent process table
  | .fork current process table => FdSharing.fork s current process table
  | .add process node newFd => fdAdd s process node newFd
  | .remove process fd => some (fdRemove s process fd)
  | .stop process => some (s.stop process)
  | .destroy process => FdSharing.destroy s process

def State.run (s : State) (events : List Event) : Option State := events.foldlM State.step s

def initial : State := ⟨fun _ => none, fun _ => none, [], 0, [], []⟩

def IsLive (s : State) (process : Addr) : Prop := ∃ p ∈ s.live, p.address = process

def ParentIsLive (s : State) : Option Addr → Prop
  | none => True
  | some parent => IsLive s parent

def NewProcess (s : State) (process table : Addr) : Prop :=
  process ≠ null ∧ ¬ IsLive s process ∧ s.tables table = none

/-- Processes are created by live ones or by none, and it is a live process that adds descriptors,
and that is destroyed. -/
def Allowed (s : State) : Event → Prop
  | .create parent process table => ParentIsLive s parent ∧ NewProcess s process table
  | .fork current process table => IsLive s current ∧ NewProcess s process table
  | .add process _ newFd => IsLive s process ∧ newFd ≠ null ∧ s.objects newFd = none
  | .remove _ _ => True
  | .stop _ => True
  | .destroy process => IsLive s process

def AllAllowed (s : State) : List Event → Prop
  | [] => True
  | e :: events => Allowed s e ∧ ∀ s' ∈ s.step e, AllAllowed s' events

instance (s : State) (process : Addr) : Decidable (IsLive s process) :=
  inferInstanceAs (Decidable (∃ p ∈ s.live, p.address = process))

instance (s : State) : ∀ parent, Decidable (ParentIsLive s parent)
  | none => inferInstanceAs (Decidable True)
  | some parent => inferInstanceAs (Decidable (IsLive s parent))

instance (s : State) (process table : Addr) : Decidable (NewProcess s process table) :=
  inferInstanceAs (Decidable (_ ∧ _ ∧ _))

instance (s : State) : ∀ e, Decidable (Allowed s e)
  | .create _ _ _ => inferInstanceAs (Decidable (_ ∧ _))
  | .fork _ _ _ => inferInstanceAs (Decidable (_ ∧ _))
  | .add _ _ _ => inferInstanceAs (Decidable (_ ∧ _ ∧ _))
  | .remove _ _ => inferInstanceAs (Decidable True)
  | .stop _ => inferInstanceAs (Decidable True)
  | .destroy process => inferInstanceAs (Decidable (IsLive s process))

instance decidableAllAllowed : ∀ (s : State) (events : List Event), Decidable (AllAllowed s events)
  | _, [] => inferInstanceAs (Decidable True)
  | s, _ :: events =>
    have := fun s' => decidableAllAllowed s' events
    inferInstanceAs (Decidable (_ ∧ ∀ s' ∈ s.step _, AllAllowed s' events))

def users (s : State) (a : Addr) : ℕ := s.live.countP fun p => p.fdTable = a

def Allocated (s : State) (b : ℕ) : Prop := ∃ a t, s.tables a = some t ∧ t.born = b

def Used (s : State) (b : ℕ) : Prop :=
  ∃ p ∈ s.live, ∃ t, s.tables p.fdTable = some t ∧ t.born = b

/-- Every live process has its table, which counts the live processes that have it; the tables in
memory are those in use; and `fs_close` was called for the entries of the other tables, all of them,
once each, and for no others. -/
structure Good (s : State) : Prop where
  pointed : ∀ p ∈ s.live, ∃ t, s.tables p.fdTable = some t
  counted : ∀ a t, s.tables a = some t → t.references.toNat = users s a
  freed : ∀ b, Allocated s b ↔ Used s b
  entries : s.added.Nodup ∧ ∀ e ∈ s.added, e.table < s.created
  once : s.closed.Nodup
  closed : ∀ e, e ∈ s.closed ↔ e ∈ s.added ∧ ¬ Used s e.table

structure Counted (s : State) : Prop where
  nodup : (s.live.map Process.address).Nodup
  nonnull : null ∉ s.live.map Process.address
  pointed : ∀ p ∈ s.live, ∃ t, s.tables p.fdTable = some t
  references : ∀ a t, s.tables a = some t → t.references.toNat = users s a ∧ 0 < users s a

structure Kept (s : State) : Prop where
  born : ∀ a t, s.tables a = some t → t.born < s.created
  apart : ∀ a b t u, s.tables a = some t → s.tables b = some u → t.born = u.born → a = b
  owned : ∀ a t, s.tables a = some t → ∀ (i : ℕ) fd, t.fds[i]? = some fd →
    fd ≠ null ∧ ∃ node, s.objects fd = some node
  alone : ∀ a b t u, s.tables a = some t → s.tables b = some u → ∀ (i j : ℕ) fd,
    t.fds[i]? = some fd → u.fds[j]? = some fd → a = b ∧ i = j
  made : ∀ e ∈ s.added, e.table < s.created
  entries : ∀ a t, s.tables a = some t → ∀ e, e.table = t.born →
    (e ∈ s.added ↔ ∃ fd, t.fds[e.index]? = some fd ∧ s.objects fd = some e.node)
  added : s.added.Nodup
  once : s.closed.Nodup
  closed : ∀ e, e ∈ s.closed ↔ e ∈ s.added ∧ ¬ Allocated s e.table

section Lookup

variable {s : State} {a b q : Addr} {t : Table}

theorem at_of_isLive (h : IsLive s q) : ∃ p, s.at q = some p ∧ p ∈ s.live ∧ p.address = q := by
  obtain ⟨p, hp, haddr⟩ := h
  cases hfind : s.at q with
  | none =>
    have hnone := List.find?_eq_none.mp hfind p hp
    simp [haddr] at hnone
  | some r =>
    have haddr := List.find?_some hfind
    exact ⟨r, rfl, List.mem_of_find?_eq_some hfind, by simpa using haddr⟩

theorem setTable_cases {u : Option Table} (h : (s.setTable a u).tables b = some t) :
    (b = a ∧ u = some t) ∨ (b ≠ a ∧ s.tables b = some t) := by
  simp only [State.setTable, Function.update_apply] at h
  split_ifs at h with hb
  · exact Or.inl ⟨hb, h⟩
  · exact Or.inr ⟨hb, h⟩

end Lookup

section Counts

variable {s s' : State} {a : Addr} {t : Table} {p : Process}

/-- With one more process there are still fewer than addresses. -/
theorem Counted.length_lt (h : Counted s) (hnull : a ≠ null) (hfresh : ¬ IsLive s a) :
    s.live.length + 1 < 2 ^ 64 := by
  have hmem : a ∉ s.live.map Process.address := by
    rw [List.mem_map]
    exact hfresh
  have hlt := length_lt_of_nodup (List.nodup_cons.mpr ⟨hmem, h.nodup⟩)
    (by rw [List.mem_cons, not_or]; exact ⟨hnull.symm, h.nonnull⟩)
  rwa [List.length_cons, List.length_map] at hlt

theorem users_le (s : State) (a : Addr) : users s a ≤ s.live.length := List.countP_le_length

theorem users_pos (hp : p ∈ s.live) : 0 < users s p.fdTable :=
  List.countP_pos_iff.mpr ⟨p, hp, by simp⟩

theorem Counted.users_eq_zero (h : Counted s) (ha : s.tables a = none) : users s a = 0 := by
  refine List.countP_eq_zero.mpr fun p hp => ?_
  obtain ⟨t, ht⟩ := h.pointed p hp
  intro heq
  rw [of_decide_eq_true heq, ha] at ht
  cases ht

theorem Counted.cons (h : Counted s) (hnull : p.address ≠ null) (hfresh : ¬ IsLive s p.address)
    (ht : t.references.toNat = users s p.fdTable + 1) (hlive : s'.live = p :: s.live)
    (htables : s'.tables = Function.update s.tables p.fdTable (some t)) : Counted s' := by
  have hmem : p.address ∉ s.live.map Process.address := by
    rw [List.mem_map]
    exact hfresh
  have husers : ∀ a, users s' a = users s a + if p.fdTable = a then 1 else 0 := by
    intro a
    simp only [users, hlive, List.countP_cons, decide_eq_true_eq]
  refine ⟨?_, ?_, fun q hq => ?_, fun a u hu => ?_⟩
  · rw [hlive, List.map_cons, List.nodup_cons]
    exact ⟨hmem, h.nodup⟩
  · rw [hlive, List.map_cons, List.mem_cons, not_or]
    exact ⟨hnull.symm, h.nonnull⟩
  · rw [htables, Function.update_apply]
    split_ifs with heq
    · exact ⟨t, rfl⟩
    · rw [hlive, List.mem_cons] at hq
      rcases hq with rfl | hq
      · exact absurd rfl heq
      · exact h.pointed q hq
  · rw [htables, Function.update_apply] at hu
    rw [husers a]
    split_ifs at hu with heq
    · obtain rfl := Option.some.inj hu
      rw [if_pos heq.symm, heq]
      omega
    · rw [if_neg (Ne.symm heq)]
      exact h.references a u hu

/-- A process is gone, and its table counts one less or is gone with it. -/
theorem Counted.erase (h : Counted s) (hp : p ∈ s.live) {u : Option Table}
    (hsome : ∀ t, u = some t →
      t.references.toNat + 1 = users s p.fdTable ∧ 0 < t.references.toNat)
    (hnone : u = none → users s p.fdTable = 1) (hlive : s'.live = s.live.erase p)
    (htables : s'.tables = Function.update s.tables p.fdTable u) : Counted s' := by
  have husers : ∀ a, users s' a = users s a - if p.fdTable = a then 1 else 0 := by
    intro a
    simp only [users, hlive, List.countP_erase, hp, true_and, decide_eq_true_eq]
  have hsub : (s.live.erase p).Sublist s.live := List.erase_sublist
  refine ⟨?_, ?_, fun q hq => ?_, fun a v hv => ?_⟩
  · rw [hlive]
    exact h.nodup.sublist (hsub.map _)
  · rw [hlive]
    exact fun hmem => h.nonnull ((hsub.map _).subset hmem)
  · rw [htables, Function.update_apply]
    have hpos := users_pos hq
    rw [husers] at hpos
    split_ifs with heq
    · cases u with
      | some t => exact ⟨t, rfl⟩
      | none =>
        have hone := hnone rfl
        rw [heq, if_pos rfl] at hpos
        omega
    · rw [hlive] at hq
      exact h.pointed q (hsub.subset hq)
  · rw [htables, Function.update_apply] at hv
    rw [husers a]
    split_ifs at hv with heq
    · have hcount := hsome v hv
      rw [if_pos heq.symm, heq]
      omega
    · rw [if_neg (Ne.symm heq)]
      exact h.references a v hv

theorem Counted.setFds (h : Counted s) (ht : s.tables a = some t) (fds : List Addr)
    (hlive : s'.live = s.live)
    (htables : s'.tables = Function.update s.tables a (some { t with fds := fds })) :
    Counted s' := by
  have husers : ∀ b, users s' b = users s b := fun b => by rw [users, hlive, users]
  refine ⟨hlive ▸ h.nodup, hlive ▸ h.nonnull, fun q hq => ?_, fun b u hu => ?_⟩
  · rw [htables, Function.update_apply]
    split_ifs
    · exact ⟨_, rfl⟩
    · exact h.pointed q (hlive ▸ hq)
  · rw [htables, Function.update_apply] at hu
    rw [husers]
    split_ifs at hu with heq
    · obtain rfl := Option.some.inj hu
      rw [heq]
      exact h.references a t ht
    · exact h.references b u hu

theorem Counted.stop (h : Counted s) (process : Addr) : Counted (s.stop process) := by
  have hsame : ∀ p : Process, (if p.address = process then p.stop else p).address = p.address ∧
      (if p.address = process then p.stop else p).fdTable = p.fdTable := by
    intro p
    split_ifs <;> exact ⟨rfl, rfl⟩
  have haddr : (s.stop process).live.map Process.address = s.live.map Process.address := by
    simp only [State.stop, List.map_map]
    exact List.map_congr_left fun p _ => (hsame p).1
  have husers : ∀ a, users (s.stop process) a = users s a := by
    intro a
    simp only [users, State.stop, List.countP_map]
    exact List.countP_congr fun p _ => by simp [(hsame p).2]
  refine ⟨haddr ▸ h.nodup, haddr ▸ h.nonnull, fun q hq => ?_, fun a t ht => ?_⟩
  · obtain ⟨p, hp, rfl⟩ := List.mem_map.mp hq
    rw [(hsame p).2]
    exact h.pointed p hp
  · rw [husers]
    exact h.references a t ht

end Counts

section Entries

variable {s s' : State} {a : Addr} {t : Table}

theorem Kept.setReferences (h : Kept s) (ht : s.tables a = some t) (r : BitVec 64)
    (htables : s'.tables = Function.update s.tables a (some { t with references := r }))
    (hobjects : s'.objects = s.objects) (hcreated : s'.created = s.created)
    (hadded : s'.added = s.added) (hclosed : s'.closed = s.closed) : Kept s' := by
  have hback : ∀ b u', s'.tables b = some u' →
      ∃ u, s.tables b = some u ∧ u.born = u'.born ∧ u.fds = u'.fds := by
    intro b u' hu
    rw [htables, Function.update_apply] at hu
    split_ifs at hu with heq
    · obtain rfl := Option.some.inj hu
      exact ⟨t, heq ▸ ht, rfl, rfl⟩
    · exact ⟨u', hu, rfl, rfl⟩
  have hallocated : ∀ b, Allocated s' b ↔ Allocated s b := by
    intro b
    constructor
    · rintro ⟨c, u', hu, rfl⟩
      obtain ⟨u, hu, hborn, -⟩ := hback c u' hu
      exact ⟨c, u, hu, hborn⟩
    · rintro ⟨c, u, hu, rfl⟩
      by_cases hc : c = a
      · have hut := hc ▸ hu
        rw [ht] at hut
        obtain rfl := Option.some.inj hut
        exact ⟨a, { t with references := r }, by simp [htables], rfl⟩
      · exact ⟨c, u, by simp [htables, hc, hu], rfl⟩
  refine ⟨fun b u' hu' => ?_, fun b c u' v' hu' hv' heq => ?_, fun b u' hu' i fd hfd => ?_,
    fun b c u' v' hu' hv' i j fd hi hj => ?_, ?_, fun b u' hu' e he => ?_, hadded ▸ h.added,
    hclosed ▸ h.once, fun e => ?_⟩
  · obtain ⟨u, hu, hborn, -⟩ := hback b u' hu'
    rw [hcreated, ← hborn]
    exact h.born b u hu
  · obtain ⟨u, hu, hborn, -⟩ := hback b u' hu'
    obtain ⟨v, hv, hborn', -⟩ := hback c v' hv'
    exact h.apart b c u v hu hv (by omega)
  · obtain ⟨u, hu, -, hfds⟩ := hback b u' hu'
    rw [hobjects]
    exact h.owned b u hu i fd (hfds ▸ hfd)
  · obtain ⟨u, hu, -, hfds⟩ := hback b u' hu'
    obtain ⟨v, hv, -, hfds'⟩ := hback c v' hv'
    exact h.alone b c u v hu hv i j fd (hfds ▸ hi) (hfds' ▸ hj)
  · rw [hadded, hcreated]
    exact h.made
  · obtain ⟨u, hu, hborn, hfds⟩ := hback b u' hu'
    rw [hadded, hobjects, ← hfds]
    exact h.entries b u hu e (by omega)
  · rw [hadded, hclosed, hallocated]
    exact h.closed e

theorem Kept.create (h : Kept s) (ha : s.tables a = none) (r : BitVec 64)
    (htables : s'.tables = Function.update s.tables a (some ⟨s.created, r, []⟩))
    (hobjects : s'.objects = s.objects) (hcreated : s'.created = s.created + 1)
    (hadded : s'.added = s.added) (hclosed : s'.closed = s.closed) : Kept s' := by
  have hcases : ∀ b u, s'.tables b = some u →
      (b = a ∧ u.born = s.created ∧ u.fds = []) ∨ s.tables b = some u := by
    intro b u hu
    rw [htables, Function.update_apply] at hu
    split_ifs at hu with heq
    · obtain rfl := Option.some.inj hu
      exact Or.inl ⟨heq, rfl, rfl⟩
    · exact Or.inr hu
  have hallocated : ∀ b < s.created, Allocated s' b ↔ Allocated s b := by
    intro b hb
    constructor
    · rintro ⟨c, u, hu, rfl⟩
      rcases hcases c u hu with ⟨-, hborn, -⟩ | hu
      · omega
      · exact ⟨c, u, hu, rfl⟩
    · rintro ⟨c, u, hu, rfl⟩
      have hc : c ≠ a := by
        rintro rfl
        rw [ha] at hu
        cases hu
      exact ⟨c, u, by simp [htables, hc, hu], rfl⟩
  refine ⟨fun b u hu => ?_, fun b c u v hu hv heq => ?_, fun b u hu i fd hfd => ?_,
    fun b c u v hu hv i j fd hi hj => ?_, fun e he => ?_, fun b u hu e he => ?_,
    hadded ▸ h.added, hclosed ▸ h.once, fun e => ?_⟩
  · rcases hcases b u hu with ⟨-, hborn, -⟩ | hu
    · omega
    · have hlt := h.born b u hu
      omega
  · rcases hcases b u hu with ⟨rfl, hu', -⟩ | hu <;> rcases hcases c v hv with ⟨rfl, hv', -⟩ | hv
    · rfl
    · have hlt := h.born c v hv
      omega
    · have hlt := h.born b u hu
      omega
    · exact h.apart b c u v hu hv heq
  · rcases hcases b u hu with ⟨-, -, hfds⟩ | hu
    · simp [hfds] at hfd
    · rw [hobjects]
      exact h.owned b u hu i fd hfd
  · rcases hcases b u hu with ⟨-, -, hfds⟩ | hu
    · simp [hfds] at hi
    · rcases hcases c v hv with ⟨-, -, hfds⟩ | hv
      · simp [hfds] at hj
      · exact h.alone b c u v hu hv i j fd hi hj
  · have hlt := h.made e (hadded ▸ he)
    omega
  · rw [hadded, hobjects]
    rcases hcases b u hu with ⟨-, hborn, hfds⟩ | hu
    · -- no entry is of a table that was not made before
      refine ⟨fun hmem => ?_, fun hfd => ?_⟩
      · have hlt := h.made e hmem
        omega
      · simp [hfds] at hfd
    · exact h.entries b u hu e he
  · rw [hadded, hclosed, h.closed]
    exact and_congr_right fun hmem => not_congr (hallocated _ (h.made e hmem)).symm

theorem Kept.add (h : Kept s) (ht : s.tables a = some t) {node newFd : Addr}
    (hnull : newFd ≠ null) (hfresh : s.objects newFd = none)
    (htables : s'.tables = Function.update s.tables a (some { t with fds := t.fds ++ [newFd] }))
    (hobjects : s'.objects = Function.update s.objects newFd (some node))
    (hcreated : s'.created = s.created)
    (hadded : s'.added = ⟨t.born, t.fds.length, node⟩ :: s.added)
    (hclosed : s'.closed = s.closed) : Kept s' := by
  have hcases : ∀ b u', s'.tables b = some u' → ∃ u, s.tables b = some u ∧ u.born = u'.born ∧
      ∀ (i : ℕ) fd, u'.fds[i]? = some fd ↔
        u.fds[i]? = some fd ∨ (b = a ∧ i = t.fds.length ∧ fd = newFd) := by
    intro b u' hu
    rw [htables, Function.update_apply] at hu
    split_ifs at hu with heq
    · obtain rfl := Option.some.inj hu
      refine ⟨t, heq ▸ ht, rfl, fun i fd => ?_⟩
      rw [List.getElem?_append]
      split_ifs with hi
      · have hne : i ≠ t.fds.length := by omega
        simp [hne]
      · have hi' : t.fds[i]? = none := by simpa using hi
        simp only [hi', List.getElem?_singleton]
        by_cases hlast : i = t.fds.length
        · simp [hlast, heq, eq_comm]
        · have hsub : i - t.fds.length ≠ 0 := by omega
          simp [hlast, hsub]
    · exact ⟨u', hu, rfl, fun i fd => by simp [heq]⟩
  have hold : ∀ b u, s.tables b = some u → ∀ (i : ℕ) fd, u.fds[i]? = some fd → fd ≠ newFd := by
    intro b u hu i fd hfd heq
    obtain ⟨-, node, hnode⟩ := h.owned b u hu i fd hfd
    rw [heq, hfresh] at hnode
    cases hnode
  have hallocated : ∀ b, Allocated s' b ↔ Allocated s b := by
    intro b
    constructor
    · rintro ⟨c, u', hu, rfl⟩
      obtain ⟨u, hu, hborn, -⟩ := hcases c u' hu
      exact ⟨c, u, hu, hborn⟩
    · rintro ⟨c, u, hu, rfl⟩
      by_cases hc : c = a
      · have hut := hc ▸ hu
        rw [ht] at hut
        obtain rfl := Option.some.inj hut
        exact ⟨a, { t with fds := t.fds ++ [newFd] }, by simp [htables], rfl⟩
      · exact ⟨c, u, by simp [htables, hc, hu], rfl⟩
  have hnew : (⟨t.born, t.fds.length, node⟩ : Entry) ∉ s.added := by
    intro hmem
    obtain ⟨fd, hfd, -⟩ := (h.entries a t ht _ rfl).mp hmem
    simp at hfd
  refine ⟨fun b u' hu' => ?_, fun b c u' v' hu' hv' heq => ?_, fun b u' hu' i fd hfd => ?_,
    fun b c u' v' hu' hv' i j fd hi hj => ?_, fun e he => ?_, fun b u' hu' e he => ?_,
    ?_, hclosed ▸ h.once, fun e => ?_⟩
  · obtain ⟨u, hu, hborn, -⟩ := hcases b u' hu'
    rw [hcreated, ← hborn]
    exact h.born b u hu
  · obtain ⟨u, hu, hborn, -⟩ := hcases b u' hu'
    obtain ⟨v, hv, hborn', -⟩ := hcases c v' hv'
    exact h.apart b c u v hu hv (by omega)
  · obtain ⟨u, hu, -, hfds⟩ := hcases b u' hu'
    rcases (hfds i fd).mp hfd with hfd | ⟨-, -, rfl⟩
    · have hne := hold b u hu i fd hfd
      simpa [hobjects, hne] using h.owned b u hu i fd hfd
    · exact ⟨hnull, node, by simp [hobjects]⟩
  · obtain ⟨u, hu, -, hfds⟩ := hcases b u' hu'
    obtain ⟨v, hv, -, hfds'⟩ := hcases c v' hv'
    rcases (hfds i fd).mp hi with hi | ⟨hb, hi, hfd⟩ <;>
      rcases (hfds' j fd).mp hj with hj | ⟨hc, hj, hfd'⟩
    · exact h.alone b c u v hu hv i j fd hi hj
    · exact absurd hfd' (hold b u hu i fd hi)
    · exact absurd hfd (hold c v hv j fd hj)
    · exact ⟨hb.trans hc.symm, hi.trans hj.symm⟩
  · rw [hadded, List.mem_cons] at he
    rw [hcreated]
    rcases he with rfl | he
    · exact h.born a t ht
    · exact h.made e he
  · obtain ⟨u, hu, hborn, hfds⟩ := hcases b u' hu'
    rw [hadded, List.mem_cons, h.entries b u hu e (by omega)]
    constructor
    · rintro (rfl | ⟨fd, hfd, hnode⟩)
      · have hb : b = a := h.apart b a u t hu ht (by simpa using hborn.trans he.symm)
        exact ⟨newFd, (hfds _ _).mpr (Or.inr ⟨hb, rfl, rfl⟩), by simp [hobjects]⟩
      · have hne := hold b u hu _ fd hfd
        exact ⟨fd, (hfds _ _).mpr (Or.inl hfd), by simp [hobjects, hne, hnode]⟩
    · rintro ⟨fd, hfd, hnode⟩
      rcases (hfds _ _).mp hfd with hfd | ⟨hb, hindex, rfl⟩
      · have hne := hold b u hu _ fd hfd
        exact Or.inr ⟨fd, hfd, by simpa [hobjects, hne] using hnode⟩
      · have hut := hb ▸ hu
        rw [ht] at hut
        obtain rfl := Option.some.inj hut
        simp only [hobjects, Function.update_self, Option.some.injEq] at hnode
        left
        cases e
        simp_all
  · rw [hadded, List.nodup_cons]
    exact ⟨hnew, h.added⟩
  · rw [hadded, hclosed, hallocated, h.closed, List.mem_cons]
    refine ⟨fun hmem => ⟨Or.inr hmem.1, hmem.2⟩, fun hmem => ⟨hmem.1.resolve_left ?_, hmem.2⟩⟩
    rintro rfl
    exact hmem.2 ⟨a, t, ht, rfl⟩

end Entries

section Closing

variable {s : State} {born i : ℕ} {fds : List Addr}

/-- `fs_close` has been called for the descriptors of a list, which were numbered from `i` on, and
the descriptors are freed. -/
structure ClosedAll (born i : ℕ) (fds : List Addr) (s s' : State) : Prop where
  tables : s'.tables = s.tables
  live : s'.live = s.live
  created : s'.created = s.created
  added : s'.added = s.added
  objects : ∀ fd ∉ fds, s'.objects fd = s.objects fd
  closed : ∀ e, e ∈ s'.closed ↔ e ∈ s.closed ∨ (e.table = born ∧ i ≤ e.index ∧
    ∃ fd, fds[e.index - i]? = some fd ∧ s.objects fd = some e.node)
  once : s'.closed.Nodup

theorem closeAll_closedAll (hnd : fds.Nodup)
    (howned : ∀ fd ∈ fds, fd ≠ null ∧ ∃ node, s.objects fd = some node)
    (hbefore : ∀ e ∈ s.closed, e.table = born → e.index < i) (honce : s.closed.Nodup) :
    ∃ s', closeAll born fds i s = some s' ∧ ClosedAll born i fds s s' := by
  induction fds generalizing i s with
  | nil => exact ⟨s, rfl, rfl, rfl, rfl, rfl, fun _ _ => rfl, by simp, honce⟩
  | cons fd fds ih =>
    obtain ⟨hfd, hnd⟩ := List.nodup_cons.mp hnd
    obtain ⟨hnull, node, hnode⟩ := howned fd List.mem_cons_self
    let s₁ : State := { s with
      objects := Function.update s.objects fd none
      closed := ⟨born, i, node⟩ :: s.closed }
    have hsame : ∀ q ∈ fds, s₁.objects q = s.objects q := by
      intro q hq
      have hne : q ≠ fd := fun heq => hfd (heq ▸ hq)
      simp [s₁, hne]
    have hfirst : (⟨born, i, node⟩ : Entry) ∉ s.closed :=
      fun hmem => Nat.lt_irrefl i (hbefore _ hmem rfl)
    obtain ⟨s', hrun, h⟩ := @ih s₁ (i + 1) hnd
      (fun q hq => by rw [hsame q hq]; exact howned q (List.mem_cons_of_mem _ hq))
      (fun e he heq => by
        rcases List.mem_cons.mp he with rfl | he
        · exact Nat.lt_succ_self i
        · exact Nat.lt_succ_of_lt (hbefore e he heq))
      (List.nodup_cons.mpr ⟨hfirst, honce⟩)
    refine ⟨s', ?_, h.tables, h.live, h.created, h.added, fun q hq => ?_, fun e => ?_, h.once⟩
    · rw [closeAll, if_neg hnull, hnode]
      exact hrun
    · rw [List.mem_cons, not_or] at hq
      rw [h.objects q hq.2]
      simp [s₁, hq.1]
    · rw [h.closed e]
      have hrest : (∃ q, fds[e.index - (i + 1)]? = some q ∧ s₁.objects q = some e.node) ↔
          ∃ q, fds[e.index - (i + 1)]? = some q ∧ s.objects q = some e.node := by
        refine exists_congr fun q => and_congr_right fun hq => ?_
        rw [hsame q (List.mem_of_getElem? hq)]
      rw [hrest]
      rcases Nat.lt_trichotomy e.index i with hlt | heq | hgt
      · have hne : e ≠ ⟨born, i, node⟩ := by
          rintro rfl
          exact Nat.lt_irrefl i hlt
        have hlt' : ¬ i + 1 ≤ e.index := by omega
        simp [s₁, hne, hlt', Nat.not_le.mpr hlt]
      · have hentry : e = ⟨born, i, node⟩ ↔ e.table = born ∧ e.node = node := by
          cases e
          simp_all
        simp [s₁, hentry, heq, hnode, or_comm, eq_comm]
      · have hne : e ≠ ⟨born, i, node⟩ := by
          rintro rfl
          exact Nat.lt_irrefl i hgt
        have hindex : e.index - i = e.index - (i + 1) + 1 := by omega
        simp [s₁, hne, hindex, Nat.le_of_lt hgt, Nat.succ_le_of_lt hgt]

/-- Once its descriptors are closed, a table can go. -/
theorem Kept.free (h : Kept s) {a : Addr} {t : Table} {s' : State} (ht : s.tables a = some t)
    (hall : ClosedAll t.born 0 t.fds s s') : Kept (s'.setTable a none) := by
  have hcases : ∀ b u, (s'.setTable a none).tables b = some u → b ≠ a ∧ s.tables b = some u := by
    intro b u hu
    rcases setTable_cases hu with ⟨-, hu⟩ | ⟨hb, hu⟩
    · cases hu
    · exact ⟨hb, hall.tables ▸ hu⟩
  have hobjects : ∀ b u, b ≠ a → s.tables b = some u → ∀ (i : ℕ) fd, u.fds[i]? = some fd →
      s'.objects fd = s.objects fd := by
    intro b u hb hu i fd hfd
    refine hall.objects fd fun hmem => ?_
    obtain ⟨j, hj⟩ := List.mem_iff_getElem?.mp hmem
    exact hb (h.alone b a u t hu ht i j fd hfd hj).1
  have hallocated : ∀ b, Allocated (s'.setTable a none) b ↔ Allocated s b ∧ b ≠ t.born := by
    intro b
    constructor
    · rintro ⟨c, u, hu, rfl⟩
      obtain ⟨hc, hu⟩ := hcases c u hu
      exact ⟨⟨c, u, hu, rfl⟩, fun heq => hc (h.apart c a u t hu ht heq)⟩
    · rintro ⟨⟨c, u, hu, rfl⟩, hne⟩
      have hc : c ≠ a := by
        rintro rfl
        rw [ht] at hu
        exact hne (congrArg Table.born (Option.some.inj hu)).symm
      exact ⟨c, u, by simp [State.setTable, hc, hall.tables, hu], rfl⟩
  refine ⟨fun b u hu => ?_, fun b c u v hu hv heq => ?_, fun b u hu i fd hfd => ?_,
    fun b c u v hu hv i j fd hi hj => ?_, fun e he => ?_, fun b u hu e he => ?_,
    hall.added ▸ h.added, hall.once, fun e => ?_⟩
  · rw [State.setTable, hall.created]
    exact h.born b u (hcases b u hu).2
  · exact h.apart b c u v (hcases b u hu).2 (hcases c v hv).2 heq
  · obtain ⟨hb, hu⟩ := hcases b u hu
    rw [State.setTable, hobjects b u hb hu i fd hfd]
    exact h.owned b u hu i fd hfd
  · exact h.alone b c u v (hcases b u hu).2 (hcases c v hv).2 i j fd hi hj
  · rw [State.setTable, hall.created]
    exact h.made e (hall.added ▸ he)
  · obtain ⟨hb, hu⟩ := hcases b u hu
    rw [State.setTable, hall.added, h.entries b u hu e he]
    exact exists_congr fun fd => and_congr_right fun hfd => by
      rw [hobjects b u hb hu e.index fd hfd]
  · have hclosed : e ∈ (s'.setTable a none).closed ↔ e ∈ s.closed ∨ (e.table = t.born ∧
        ∃ fd, t.fds[e.index]? = some fd ∧ s.objects fd = some e.node) := by
      simpa [State.setTable] using hall.closed e
    have hadded : e ∈ (s'.setTable a none).added ↔ e ∈ s.added := by
      rw [State.setTable, hall.added]
    rw [hclosed, hadded, hallocated, h.closed]
    by_cases he : e.table = t.born
    · have hin : Allocated s e.table := ⟨a, t, ht, he.symm⟩
      rw [← h.entries a t ht e he]
      simp [he]
      tauto
    · simp [he]

end Closing

section Steps

variable {s : State} {a : Addr} {t : Table} {process table node newFd : Addr}

structure Inv (s : State) : Prop where
  counted : Counted s
  kept : Kept s

theorem inv_initial : Inv initial := by
  refine ⟨⟨by simp [initial], by simp [initial], by simp [initial], by simp [initial]⟩, ?_⟩
  constructor <;> simp [initial]

theorem Inv.createAlone (h : Inv s) (hnew : NewProcess s process table) :
    ∃ s', createStructure s none process table = some s' ∧ Inv s' := by
  obtain ⟨hnull, hfresh, htable⟩ := hnew
  refine ⟨_, rfl, ?_, ?_⟩
  · refine h.counted.cons hnull hfresh ?_ rfl rfl
    rw [h.counted.users_eq_zero htable]
    rfl
  · exact h.kept.create htable 1 rfl rfl rfl rfl rfl

theorem Inv.createChild (h : Inv s) {parent : Addr} (hparent : IsLive s parent)
    (hnew : NewProcess s process table) :
    ∃ s', createStructure s (some parent) process table = some s' ∧ Inv s' := by
  obtain ⟨hnull, hfresh, -⟩ := hnew
  obtain ⟨p, hat, hp, -⟩ := at_of_isLive hparent
  obtain ⟨t, ht⟩ := h.counted.pointed p hp
  have hcount := (h.counted.references _ t ht).1
  refine ⟨_, by rw [createStructure, hat, Option.bind_eq_bind, Option.bind_some, ht]; rfl, ?_, ?_⟩
  · refine h.counted.cons hnull hfresh ?_ rfl rfl
    have hfew := h.counted.length_lt hnull hfresh
    have hle := users_le s p.fdTable
    rw [BitVec.toNat_add_of_lt, hcount]
    · rfl
    · change t.references.toNat + 1 < 2 ^ 64
      omega
  · exact h.kept.setReferences ht _ rfl rfl rfl rfl rfl

theorem Inv.create (h : Inv s) {parent : Option Addr} (hparent : ParentIsLive s parent)
    (hnew : NewProcess s process table) :
    ∃ s', createStructure s parent process table = some s' ∧ Inv s' := by
  cases parent with
  | none => exact h.createAlone hnew
  | some parent => exact h.createChild hparent hnew

theorem Inv.add (h : Inv s) (hlive : IsLive s process) (hnull : newFd ≠ null)
    (hfresh : s.objects newFd = none) : ∃ s', fdAdd s process node newFd = some s' ∧ Inv s' := by
  unfold fdAdd
  split_ifs
  · exact ⟨s, rfl, h⟩
  · obtain ⟨p, hat, hp, -⟩ := at_of_isLive hlive
    obtain ⟨t, ht⟩ := h.counted.pointed p hp
    refine ⟨_, by rw [hat, Option.bind_eq_bind, Option.bind_some, ht]; rfl, ?_, ?_⟩
    · exact h.counted.setFds ht _ rfl rfl
    · exact h.kept.add ht hnull hfresh rfl rfl rfl rfl rfl

theorem Inv.stop (h : Inv s) (process : Addr) : Inv (s.stop process) :=
  ⟨h.counted.stop process, h.kept.born, h.kept.apart, h.kept.owned, h.kept.alone, h.kept.made,
    h.kept.entries, h.kept.added, h.kept.once, h.kept.closed⟩

/-- With other processes at its table, one of them is destroyed. -/
theorem Inv.destroyShared (h : Inv s) {p : Process} (hp : p ∈ s.live)
    (ht : s.tables p.fdTable = some t) (hshared : 1#64 < t.references) :
    ∃ s', fdDestroyTable s p = some s' ∧ Inv { s' with live := s'.live.erase p } := by
  have hcount := (h.counted.references _ t ht).1
  have hlt : 1 < t.references.toNat := hshared
  refine ⟨_, by rw [fdDestroyTable, ht, Option.bind_eq_bind, Option.bind_some, if_pos hshared],
    ?_, ?_⟩
  · refine h.counted.erase hp (fun u hu => ?_) (fun hnone => by cases hnone) rfl rfl
    obtain rfl := Option.some.inj hu
    have hsub : (t.references - 1).toNat = t.references.toNat - 1 :=
      BitVec.toNat_sub_of_le (by rw [BitVec.le_def]; exact Nat.le_of_lt hlt)
    rw [hsub]
    omega
  · exact h.kept.setReferences ht _ rfl rfl rfl rfl rfl

/-- The last process at a table is destroyed, and the table with it. -/
theorem Inv.destroyLast (h : Inv s) {p : Process} (hp : p ∈ s.live)
    (ht : s.tables p.fdTable = some t) (hlast : ¬ 1#64 < t.references) :
    ∃ s', fdDestroyTable s p = some s' ∧ Inv { s' with live := s'.live.erase p } := by
  have hcount := (h.counted.references _ t ht).1
  have hle : t.references.toNat ≤ 1 := Nat.not_lt.mp hlast
  have hpos := users_pos hp
  have hnd : t.fds.Nodup := by
    rw [List.nodup_iff_getElem?_ne_getElem?]
    intro i j hij hj heq
    have hfd := List.getElem?_eq_getElem hj
    have hij' := (h.kept.alone _ _ t t ht ht i j _ (heq.trans hfd) hfd).2
    omega
  have howned : ∀ fd ∈ t.fds, fd ≠ null ∧ ∃ node, s.objects fd = some node := by
    intro fd hfd
    obtain ⟨i, hi⟩ := List.mem_iff_getElem?.mp hfd
    exact h.kept.owned _ t ht i fd hi
  have hbefore : ∀ e ∈ s.closed, e.table = t.born → e.index < 0 := by
    intro e he heq
    exact absurd ⟨_, t, ht, heq.symm⟩ ((h.kept.closed e).mp he).2
  obtain ⟨s', hrun, hall⟩ := closeAll_closedAll hnd howned hbefore h.kept.once
  refine ⟨s'.setTable p.fdTable none, ?_, ?_, ?_⟩
  · rw [fdDestroyTable, ht, Option.bind_eq_bind, Option.bind_some, if_neg hlast, hrun]
    rfl
  · refine @Counted.erase s _ p h.counted hp none (fun u hu => by cases hu)
      (fun _ => by omega) ?_ ?_
    · simp [State.setTable, hall.live]
    · simp [State.setTable, hall.tables]
  · have hfree := h.kept.free ht hall
    exact ⟨hfree.born, hfree.apart, hfree.owned, hfree.alone, hfree.made, hfree.entries,
      hfree.added, hfree.once, hfree.closed⟩

theorem Inv.destroy (h : Inv s) (hlive : IsLive s process) :
    ∃ s', FdSharing.destroy s process = some s' ∧ Inv s' := by
  unfold FdSharing.destroy
  split_ifs
  · exact ⟨s, rfl, h⟩
  · obtain ⟨p, hat, hp, -⟩ := at_of_isLive hlive
    rw [hat, Option.bind_eq_bind, Option.bind_some]
    split_ifs
    · exact ⟨s, rfl, h⟩
    · obtain ⟨t, ht⟩ := h.counted.pointed p hp
      obtain ⟨s', hrun, hinv⟩ : ∃ s', fdDestroyTable s p = some s' ∧
          Inv { s' with live := s'.live.erase p } := by
        by_cases hshared : 1#64 < t.references
        · exact h.destroyShared hp ht hshared
        · exact h.destroyLast hp ht hshared
      exact ⟨_, by rw [hrun]; rfl, hinv⟩

theorem Inv.step (h : Inv s) {e : Event} (he : Allowed s e) :
    ∃ s', s.step e = some s' ∧ Inv s' := by
  cases e with
  | create parent process table => exact h.create he.1 he.2
  | fork current process table => exact h.createChild he.1 he.2
  | add process node newFd => exact h.add he.1 he.2.1 he.2.2
  | remove process fd => exact ⟨s, rfl, h⟩
  | stop process => exact ⟨_, rfl, h.stop process⟩
  | destroy process => exact h.destroy he

theorem Inv.run (h : Inv s) {events : List Event} (hallowed : AllAllowed s events) :
    ∃ s', s.run events = some s' ∧ Inv s' := by
  induction events generalizing s with
  | nil => exact ⟨s, rfl, h⟩
  | cons e events ih =>
    obtain ⟨s₁, hstep, h₁⟩ := h.step hallowed.1
    obtain ⟨s', hrun, h'⟩ := ih h₁ (hallowed.2 s₁ hstep)
    refine ⟨s', ?_, h'⟩
    rw [State.run, List.foldlM_cons, hstep]
    exact hrun

theorem Inv.allocated_iff (h : Inv s) (b : ℕ) : Allocated s b ↔ Used s b := by
  constructor
  · rintro ⟨a, t, ht, rfl⟩
    obtain ⟨p, hp, heq⟩ := List.countP_pos_iff.mp (h.counted.references a t ht).2
    exact ⟨p, hp, t, of_decide_eq_true heq ▸ ht, rfl⟩
  · rintro ⟨p, -, t, ht, hborn⟩
    exact ⟨p.fdTable, t, ht, hborn⟩

theorem Inv.good (h : Inv s) : Good s where
  pointed := h.counted.pointed
  counted a t ht := (h.counted.references a t ht).1
  freed := h.allocated_iff
  entries := ⟨h.kept.added, h.kept.made⟩
  once := h.kept.once
  closed e := by rw [h.kept.closed, h.allocated_iff]

end Steps

/-- Whatever processes are created, fork, open files and are destroyed, in any order, no pointer is
followed to memory that is free, a table counts the live processes that have it and is freed with
the last of them, and it is then that its nodes are closed. -/
theorem tables_of_run {events : List Event} (hallowed : AllAllowed initial events) :
    ∃ s, initial.run events = some s ∧ Good s := by
  obtain ⟨s, hrun, h⟩ := inv_initial.run hallowed
  exact ⟨s, hrun, h.good⟩

def threeProcesses : List Event :=
  [.create none 0x1000 0x2000, .add 0x1000 0x5000 0x3000, .fork 0x1000 0x1100 0,
    .add 0x1100 0x5100 0x3100, .fork 0x1100 0x1200 0, .stop 0x1000, .destroy 0x1000, .stop 0x1200,
    .destroy 0x1200, .stop 0x1100, .destroy 0x1100]

theorem tables_of_three_processes :
    (∃ s, initial.run (threeProcesses.take 10) = some s ∧ Good s) ∧
    (initial.run (threeProcesses.take 10)).map State.closed = some [] ∧
    (∃ s, initial.run threeProcesses = some s ∧ Good s) ∧
    (initial.run threeProcesses).map State.closed = some [⟨0, 1, 0x5100⟩, ⟨0, 0, 0x5000⟩] :=
  ⟨tables_of_run (by decide +kernel), by decide +kernel, tables_of_run (by decide +kernel),
    by decide +kernel⟩

end ReduceOS.FdSharing
