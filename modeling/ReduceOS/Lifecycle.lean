import ReduceOS.Machine
import ReduceOS.ProcessTree
import ReduceOS.Scheduler

/-!
Exiting, waiting and reaping. A process has one thread. `process_exit`, `process_waitpid` and a
pass of the reaper are taken apart into the steps between which other processors can act;
`reap_queue_lock` is held from the start of a scan to the taking of a child, and from the start to
the end of a pass. The records of freed processes keep their contents until the memory is
given out again.
-/
namespace ReduceOS.Lifecycle

open Machine ProcessTree Scheduler

def echild : CInt := 10

def wnohang : CInt := 1

def wstatusExited : CInt := 1

def wstatusExitcode : ℕ := 8

structure Args where
  pid : CInt
  options : CInt
deriving DecidableEq

/-- What a call is about to return: a value, or the PID of a child, which is read at the very
end. The PID and the status word stored in `wstatus` are kept beside it. -/
inductive WaitResult where
  | value (ret : CInt)
  | child (child : Ptr) (retPid wstatus : CInt)
deriving DecidableEq

inductive Pc where
  | user
  | waitStart (a : Args)
  | waitQueued (a : Args)
  | waitScan (a : Args) (rest : List Ptr)
  | waitTaken (child : Ptr) (retPid wstatus : CInt)
  | waitLeave (r : WaitResult)
  | waitReturn (r : WaitResult)
  | waitSleep (a : Args)
  | waitYield (a : Args)
  | asleep (a : Args)
  | exitMarked (status : CInt)
  | exitStatused
  | exitWalk (node : ℕ)
  | exitReap
  | exitLeaving
  | gone
deriving DecidableEq

/-- What these functions need of `process_t` beside the tree, and the process's thread. The nodes
of `waitpid_queue`, which all hold that thread, are numbered. -/
structure Info where
  pid : CInt
  gid : CInt
  exitStatus : CInt
  waitpidQueue : List ℕ
  /-- `thread->sleep` -/
  sleep : Option SleepState
  pc : Pc

inductive Holder where
  | reaper
  | process (p : Ptr)
deriving DecidableEq

/-- A finished `process_waitpid` call that found a child. -/
structure Report where
  parent : Ptr
  retPid : CInt
  wstatus : CInt
  returned : CInt
deriving DecidableEq

structure State where
  tree : ProcessTree.State
  info : Ptr → Info
  reapQueue : List Ptr
  lock : Option Holder
  /-- The loop counter of a pass of the reaper. -/
  pass : ℕ
  /-- The calls of `process_destroy` on a process since its memory was allocated. -/
  destroyed : Ptr → ℕ
  reports : List Report
  /-- The bits set in `pid_bitmap`. -/
  pids : List CInt

def setInfo (s : State) (p : Ptr) (info : Info) : State :=
  { s with info := Function.update s.info p info }

def setPc (s : State) (p : Ptr) (pc : Pc) : State :=
  setInfo s p { s.info p with pc := pc }

def childrenOf (s : State) (q : Ptr) : List Ptr :=
  (s.tree.node (s.tree.process q).node).children.map fun n => (s.tree.node n).value

def Pc.exiting : Pc → Bool
  | .exitMarked _ => true
  | .exitStatused => true
  | .exitWalk _ => true
  | .exitReap => true
  | .exitLeaving => true
  | _ => false

def processInUse (s : State) (p : Ptr) : Bool := (s.info p).pc.exiting

def accepts (s : State) (q : Ptr) (pid : CInt) (child : Ptr) : Bool :=
  if BitVec.slt pid (-1) then (s.info child).gid == pid * -1
  else if pid = 0 then (s.info q).gid == (s.info child).gid
  else if BitVec.slt 0 pid then (s.info child).pid == pid
  else true

/-- `process_destroy`. A call that finds nothing to do is not counted. -/
def destroy (s : State) (p : Ptr) : State :=
  if p = 0 ∨ isStopped s.tree p = false then s
  else { s with
    tree := processDestroy s.tree p
    destroyed := Function.update s.destroyed p (s.destroyed p + 1) }

/-- `list_delete` of the first node of the queue that holds the thread. -/
def leaveQueue (s : State) (q : Ptr) (r : WaitResult) : State :=
  setInfo s q { s.info q with
    waitpidQueue := (s.info q).waitpidQueue.tail
    pc := .waitReturn r }

def waitScan (s : State) (q : Ptr) (a : Args) : List Ptr → State
  | child :: rest =>
    if accepts s q a.pid child && isStopped s.tree child then
      let wstatus := wstatusExited ||| ((s.info child).exitStatus <<< wstatusExitcode)
      setPc s q (.waitTaken child (s.info child).pid wstatus)
    else setPc s q (.waitScan a rest)
  | [] =>
    let s := { s with lock := none }
    if a.options &&& wnohang ≠ 0 then setPc s q (.waitLeave (.value 0))
    else setPc s q (.waitSleep a)

/-- The end of a call. `child->pid` is read here, after the child may have been destroyed. -/
def waitReturn (s : State) (q : Ptr) : WaitResult → State
  | .value _ => setPc s q .user
  | .child child retPid wstatus =>
    { setPc s q .user with
      reports := s.reports ++ [⟨q, retPid, wstatus, (s.info child).pid⟩] }

/-- The next step of `process_waitpid`, if there is one. A new queue node gets the number `id`. -/
def waitStep (s : State) (q : Ptr) (id : ℕ) : Option State :=
  match (s.info q).pc with
  | .waitStart a =>
    if (s.tree.process q).node = 0 then some (setPc s q .user)
    else some (setInfo s q { s.info q with
      waitpidQueue := (s.info q).waitpidQueue ++ [id]
      pc := .waitQueued a })
  | .waitQueued a =>
    if s.lock ≠ none then none
    else if childrenOf s q = [] then some (setPc s q (.waitLeave (.value (-echild))))
    else some { setPc s q (.waitScan a (childrenOf s q)) with lock := some (.process q) }
  | .waitScan a rest => some (waitScan s q a rest)
  | .waitTaken child retPid wstatus =>
    let s := if processInUse s child then s else destroy s child
    some { setPc s q (.waitLeave (.child child retPid wstatus)) with lock := none }
  | .waitLeave r => some (leaveQueue s q r)
  | .waitReturn r => some (waitReturn s q r)
  | .waitSleep a => some (setInfo s q { s.info q with sleep := some .nocond, pc := .waitYield a })
  | .waitYield a => some (setPc s q (.asleep a))
  | _ => none

/-- `sleep_callback` wakes the thread and it goes round the loop again. -/
def wake (s : State) (q : Ptr) : Option State :=
  if (s.info q).sleep = some .wakeup then
    match (s.info q).pc with
    | .waitYield a => some (setInfo s q { s.info q with sleep := none, pc := .waitStart a })
    | .asleep a => some (setInfo s q { s.info q with sleep := none, pc := .waitStart a })
    | _ => none
  else none

def wakeup (s : State) (q : Ptr) : State :=
  if (s.info q).sleep = none then s
  else setInfo s q { s.info q with sleep := some .wakeup }

/-- The node after `node` in the queue, none once `node` has been taken out. -/
def nextNode (queue : List ℕ) (node : ℕ) : Option ℕ :=
  (queue.dropWhile (· ≠ node)).tail.head?

def exitStep (s : State) (p : Ptr) : Option State :=
  let parent := (s.tree.process p).parent
  match (s.info p).pc with
  | .exitMarked status =>
    some (setInfo s p { s.info p with exitStatus := status, pc := .exitStatused })
  | .exitStatused =>
    if parent = 0 then some (setPc s p .exitReap)
    else match (s.info parent).waitpidQueue with
      | [] => some (setPc s p .exitReap)
      | node :: _ => some (setPc s p (.exitWalk node))
  | .exitWalk node =>
    let next := nextNode (s.info parent).waitpidQueue node
    some (setPc (wakeup s parent) p (next.elim .exitLeaving .exitWalk))
  | .exitReap =>
    if s.lock ≠ none then none
    else some { setPc s p .exitLeaving with reapQueue := s.reapQueue ++ [p] }
  | .exitLeaving => some (setPc s p .gone)
  | _ => none

/-- One turn of the loop of `process_reaper`, or the end of the pass. -/
def reaperStep (s : State) : State :=
  if s.pass < s.reapQueue.length then
    match s.reapQueue with
    | [] => { s with lock := none }
    | p :: rest =>
      let s := { s with reapQueue := rest, pass := s.pass + 1 }
      if isStopped s.tree p then
        if processInUse s p then { s with reapQueue := rest ++ [p] } else destroy s p
      else s
  else { s with lock := none }

inductive Event where
  | fork (q p n : Ptr) (pid : CInt)
  | waitpid (q : Ptr) (a : Args)
  | wait (q : Ptr) (id : ℕ)
  | wake (q : Ptr)
  | exit (p : Ptr) (status : CInt)
  | exitNext (p : Ptr)
  | reap
  | reapNext
  | reuse (p : Ptr) (process : Process) (info : Info)

def fork (s : State) (q p n : Ptr) (pid : CInt) : State :=
  { s with
    tree := processFork s.tree q p n
    info := Function.update s.info p ⟨pid, 0, 0, [], none, .user⟩
    destroyed := Function.update s.destroyed p 0
    pids := s.pids ++ [pid] }

def Event.run (s : State) : Event → Option State
  | .fork q p n pid =>
    if (s.info q).pc = .user ∧ q ∈ s.tree.processes ∧ Fresh s.tree p n ∧ pid ∉ s.pids then
      some (Lifecycle.fork s q p n pid)
    else none
  | .waitpid q a =>
    if (s.info q).pc = .user ∧ q ∈ s.tree.processes then some (setPc s q (.waitStart a)) else none
  | .wait q id => waitStep s q id
  | .wake q => Lifecycle.wake s q
  | .exit p status =>
    if (s.info p).pc = .user ∧ p ∈ s.tree.processes then
      some { setPc s p (.exitMarked status) with tree := markStopped s.tree p }
    else none
  | .exitNext p => exitStep s p
  | .reap =>
    if s.lock = none ∧ s.reapQueue ≠ [] then some { s with lock := some .reaper, pass := 0 }
    else none
  | .reapNext => if s.lock = some .reaper then some (reaperStep s) else none
  | .reuse p process info =>
    -- Freed memory in other hands: anything may be written there.
    if p ∉ s.tree.processes then
      some { setInfo s p { info with sleep := (s.info p).sleep, pc := (s.info p).pc } with
        tree := setProcess s.tree p process }
    else none

def Step (allowed : State → Event → Prop) (s s' : State) : Prop :=
  ∃ event, allowed s event ∧ event.run s = some s'

/-- No process exits, waits or is being reaped. -/
structure Quiet (s : State) : Prop where
  good : Good s.tree
  running : ∀ p ∈ s.tree.processes, isStopped s.tree p = false ∧ (s.info p).pc = .user ∧
    (s.info p).waitpidQueue = [] ∧ (s.info p).sleep = none ∧ s.destroyed p = 0 ∧
    (s.info p).pid ∈ s.pids
  distinct : ∀ p ∈ s.tree.processes, ∀ q ∈ s.tree.processes,
    (s.info p).pid = (s.info q).pid → p = q
  freed : ∀ p, p ∉ s.tree.processes → (s.info p).pc = .gone ∧ s.destroyed p ≤ 1
  reap_empty : s.reapQueue = []
  lock_free : s.lock = none
  reports_empty : s.reports = []

def Event.destroys (s : State) : Event → Option Ptr
  | .wait q _ =>
    match (s.info q).pc with
    | .waitTaken child _ _ => if processInUse s child then none else some child
    | _ => none
  | .reapNext =>
    if s.pass < s.reapQueue.length then
      s.reapQueue.head?.filter fun p => isStopped s.tree p && !processInUse s p
    else none
  | _ => none

def Event.Orderly (s : State) (event : Event) : Prop :=
  ∀ p, event.destroys s = some p → (Call.destroy p).Orderly s.tree

def Pc.stopped : Pc → Bool
  | .gone => true
  | pc => pc.exiting

theorem Pc.eq_gone {pc : Pc} (hstopped : pc.stopped = true) (hexiting : pc.exiting = false) :
    pc = .gone := by
  cases pc <;> first | rfl | contradiction

def Pc.inside : Pc → Bool
  | .waitQueued _ => true
  | .waitScan _ _ => true
  | .waitTaken _ _ _ => true
  | .waitLeave _ => true
  | .waitSleep _ => true
  | .waitYield _ => true
  | .asleep _ => true
  | _ => false

def Pc.scans : Pc → Bool
  | .waitScan _ _ => true
  | .waitTaken _ _ _ => true
  | _ => false

def pointsTo : Pc → Option Ptr
  | .waitTaken child _ _ => some child
  | .waitLeave (.child child _ _) => some child
  | .waitReturn (.child child _ _) => some child
  | _ => none

def Child (s : State) (q c : Ptr) : Prop :=
  c ∈ s.tree.processes ∧ (s.tree.process c).parent = q

def Scanning (s : State) (q : Ptr) : Prop :=
  ((s.info q).pc.inside = true → (s.tree.process q).node ≠ 0) ∧
  match (s.info q).pc with
  | .waitScan _ rest => s.lock = some (.process q) ∧ ∀ c ∈ rest, Child s q c
  | .waitTaken child _ _ =>
    s.lock = some (.process q) ∧ Child s q child ∧ isStopped s.tree child = true
  | _ => True

structure Base (s : State) : Prop where
  good : Good s.tree
  stopped_iff : ∀ p ∈ s.tree.processes, isStopped s.tree p = (s.info p).pc.stopped
  dead : ∀ p, p ∉ s.tree.processes → (s.info p).pc = .gone
  scanning : ∀ q ∈ s.tree.processes, Scanning s q

section Base

variable {s s' : State} {p q c : Ptr}

theorem Quiet.base (h : Quiet s) : Base s where
  good := h.good
  stopped_iff p hp := by
    obtain ⟨hstopped, hpc, -⟩ := h.running p hp
    rw [hstopped, hpc]
    rfl
  dead p hp := (h.freed p hp).1
  scanning q hq := by
    unfold Scanning
    rw [(h.running q hq).2.1]
    exact ⟨fun h => Bool.noConfusion h, trivial⟩

/-- Only the holder of the lock looks through its children. -/
theorem Base.not_scanning (h : Base s) (hq : q ∈ s.tree.processes)
    (hlock : s.lock ≠ some (.process q)) :
    (∀ a rest, (s.info q).pc ≠ .waitScan a rest) ∧
      ∀ child retPid wstatus, (s.info q).pc ≠ .waitTaken child retPid wstatus := by
  have hscan := h.scanning q hq
  unfold Scanning at hscan
  constructor
  · intro a rest hpc
    rw [hpc] at hscan
    exact hlock hscan.2.1
  · intro child retPid wstatus hpc
    rw [hpc] at hscan
    exact hlock hscan.2.1

theorem Scanning.locked (h : Scanning s q) (hscans : (s.info q).pc.scans = true) :
    s.lock = some (.process q) := by
  obtain ⟨-, h⟩ := h
  split at h
  · exact h.1
  · exact h.1
  · rename_i hscan htaken
    cases hpc : (s.info q).pc with
    | waitScan a rest => exact absurd hpc (hscan a rest)
    | waitTaken child retPid wstatus => exact absurd hpc (htaken child retPid wstatus)
    | _ =>
      rw [hpc] at hscans
      exact Bool.noConfusion hscans

theorem Base.scanning_of_lock (h : Base s) (hq : q ∈ s.tree.processes)
    (hlock : s.lock ≠ some (.process q)) (hpc : (s'.info q).pc = (s.info q).pc)
    (hnode : (s'.tree.process q).node = (s.tree.process q).node) : Scanning s' q := by
  obtain ⟨hscan, htaken⟩ := h.not_scanning hq hlock
  have hold := h.scanning q hq
  unfold Scanning at hold ⊢
  rw [hpc, hnode]
  refine ⟨hold.1, ?_⟩
  split
  · exact absurd ‹_› (hscan _ _)
  · exact absurd ‹_› (htaken _ _ _)
  · trivial

theorem Scanning.mono (h : Scanning s q) (hpc : (s'.info q).pc = (s.info q).pc)
    (hlock : s.lock = some (.process q) → s'.lock = s.lock)
    (hnode : (s'.tree.process q).node = (s.tree.process q).node)
    (hchild : ∀ c, Child s q c →
      Child s' q c ∧ (isStopped s.tree c = true → isStopped s'.tree c = true)) : Scanning s' q := by
  unfold Scanning at h ⊢
  obtain ⟨hinside, h⟩ := h
  rw [hpc, hnode]
  refine ⟨hinside, ?_⟩
  split at h
  · exact ⟨(hlock h.1).trans h.1, fun c hc => (hchild c (h.2 c hc)).1⟩
  · exact ⟨(hlock h.1).trans h.1, (hchild _ h.2.1).1, (hchild _ h.2.1).2 h.2.2⟩
  · trivial

/-- An event of one process that leaves the tree alone. -/
theorem Base.of_actor (h : Base s) (hq : q ∈ s.tree.processes) (htree : s'.tree = s.tree)
    (hothers : ∀ r, r ≠ q → (s'.info r).pc = (s.info r).pc)
    (hpc : (s'.info q).pc.stopped = (s.info q).pc.stopped)
    (hlock : ∀ r, r ≠ q → s.lock = some (.process r) → s'.lock = s.lock)
    (hscan : Scanning s' q) : Base s' where
  good := htree ▸ h.good
  stopped_iff p hp := by
    rw [htree] at hp ⊢
    rw [h.stopped_iff p hp]
    by_cases hpq : p = q
    · rw [hpq, hpc]
    · rw [hothers p hpq]
  dead p hp := by
    rw [htree] at hp
    rw [hothers p fun hpq => hp (hpq ▸ hq)]
    exact h.dead p hp
  scanning r hr := by
    rw [htree] at hr
    by_cases hrq : r = q
    · rw [hrq]
      exact hscan
    · refine (h.scanning r hr).mono (hothers r hrq) (hlock r hrq) (by rw [htree]) fun c hc => ?_
      unfold Child
      rw [htree]
      exact ⟨hc, fun hstopped => hstopped⟩

theorem child_of_mem_childrenOf (h : Good s.tree) (hq : q ∈ s.tree.processes)
    (hnode : (s.tree.process q).node ≠ 0) (hc : c ∈ childrenOf s q) :
    Child s q c ∧ (s.tree.process c).node ≠ 0 := by
  obtain ⟨n, hn, rfl⟩ := List.mem_map.mp hc
  obtain ⟨hlive, hvalue⟩ := h.owned q hq hnode
  obtain ⟨hnlive, -, hparent⟩ := (h.linked_of_mem hlive).1.child_mem _ hlive n hn
  have habove : parentValue s.tree n = q := by
    unfold parentValue
    rw [hparent, if_neg hnode, hvalue]
  refine ⟨⟨(h.owner n hnlive).1, (h.parents n hnlive).symm.trans habove⟩, ?_⟩
  rw [(h.owner n hnlive).2]
  exact fun h0 => h.node_ne (h0 ▸ hnlive)

theorem mem_childrenOf (h : Good s.tree) (hc : Child s q c) (hq : q ≠ 0)
    (hnode : (s.tree.process c).node ≠ 0) : c ∈ childrenOf s q := by
  obtain ⟨hlive, hvalue⟩ := h.owned c hc.1 hnode
  have habove := h.parents _ hlive
  rw [hvalue, hc.2] at habove
  have hparent : (s.tree.node (s.tree.process c).node).parent ≠ 0 := by
    intro h0
    unfold parentValue at habove
    rw [if_pos h0] at habove
    exact hq habove.symm
  unfold parentValue at habove
  rw [if_neg hparent] at habove
  obtain ⟨hroot, hmlive⟩ := h.parent_mem hlive hparent
  have hmem := ((h.linked_of_mem hlive).1.parent_mem _ hlive hroot).2
  have howner : (s.tree.process q).node = (s.tree.node (s.tree.process c).node).parent := by
    rw [← habove]
    exact (h.owner _ hmlive).2
  refine List.mem_map.mpr ⟨(s.tree.process c).node, ?_, hvalue⟩
  rw [howner]
  exact hmem

/-- A stopped process that no processor runs is destroyed. -/
theorem Base.of_destroy (h : Base s) (horderly : (Call.destroy p).Orderly s.tree)
    (hstopped : isStopped s.tree p = true) (huse : processInUse s p = false)
    (htree : s'.tree = processDestroy s.tree p)
    (hpcs : ∀ r ∈ s.tree.processes, r ≠ p →
      (s'.info r).pc.stopped = (s.info r).pc.stopped ∧ Scanning s' r)
    (hgone : ∀ r, (s.info r).pc = .gone → (s'.info r).pc = .gone) : Base s' := by
  have hp0 : p ≠ 0 := fun h0 => h.good.process_ne (h0 ▸ horderly.1)
  have hprocesses : s'.tree.processes = s.tree.processes.erase p := by
    rw [htree, processDestroy_processes hp0 hstopped]
  have hpgone : (s.info p).pc = .gone := by
    have hpc := h.stopped_iff p horderly.1
    exact Pc.eq_gone (hpc.symm.trans hstopped) huse
  refine ⟨htree ▸ processDestroy_good h.good horderly.1 horderly.2, ?_, ?_, ?_⟩
  · intro r hr
    rw [hprocesses, Finset.mem_erase] at hr
    rw [(hpcs r hr.2 hr.1).1, ← h.stopped_iff r hr.2, htree]
    unfold isStopped
    rw [processDestroy_process]
  · intro r hr
    rw [hprocesses, Finset.mem_erase, not_and_or, not_not] at hr
    rcases hr with rfl | hr
    · exact hgone r hpgone
    · exact hgone r (h.dead r hr)
  · intro r hr
    rw [hprocesses, Finset.mem_erase] at hr
    exact (hpcs r hr.2 hr.1).2

/-- A process without children in the tree has none in the records. -/
theorem not_hasChildren (h : Good s.tree) (hp : p ∈ s.tree.processes)
    (hnone : childrenOf s p = []) : ¬ HasChildren s.tree p := by
  rintro ⟨c, hc, hnode, hparent⟩
  have hp0 : p ≠ 0 := fun h0 => h.process_ne (h0 ▸ hp)
  have hmem := mem_childrenOf h ⟨hc, hparent⟩ hp0 hnode
  rw [hnone] at hmem
  exact List.not_mem_nil hmem

end Base

section Waiting

variable {s s' : State} {q c : Ptr} {id : ℕ}

@[simp] theorem destroy_info (s : State) (p : Ptr) : (destroy s p).info = s.info := by
  unfold destroy
  split_ifs <;> rfl

@[simp] theorem destroy_lock (s : State) (p : Ptr) : (destroy s p).lock = s.lock := by
  unfold destroy
  split_ifs <;> rfl

@[simp] theorem destroy_reapQueue (s : State) (p : Ptr) :
    (destroy s p).reapQueue = s.reapQueue := by
  unfold destroy
  split_ifs <;> rfl

@[simp] theorem destroy_reports (s : State) (p : Ptr) : (destroy s p).reports = s.reports := by
  unfold destroy
  split_ifs <;> rfl

@[simp] theorem destroy_pids (s : State) (p : Ptr) : (destroy s p).pids = s.pids := by
  unfold destroy
  split_ifs <;> rfl

@[simp] theorem destroy_process (s : State) (p : Ptr) :
    (destroy s p).tree.process = s.tree.process := by
  unfold destroy
  split_ifs
  · rfl
  · exact processDestroy_process s.tree p

theorem destroy_processes_subset (s : State) (p : Ptr) :
    (destroy s p).tree.processes ⊆ s.tree.processes := by
  unfold destroy
  split_ifs with hnone
  · exact Finset.Subset.refl _
  · rw [not_or] at hnone
    rw [processDestroy_processes hnone.1 (Bool.eq_true_of_not_eq_false hnone.2)]
    exact Finset.erase_subset _ _

theorem destroy_tree {p : Ptr} (hp : p ≠ 0) (hstopped : isStopped s.tree p = true) :
    (destroy s p).tree = processDestroy s.tree p := by
  unfold destroy
  rw [if_neg (destroy_runs hp hstopped)]

@[simp] theorem setInfo_info_self (s : State) (p : Ptr) (info : Info) :
    (setInfo s p info).info p = info := Function.update_self _ _ _

theorem setInfo_info_of_ne (s : State) (info : Info) {p r : Ptr} (hr : r ≠ p) :
    (setInfo s p info).info r = s.info r := Function.update_of_ne hr _ _

@[simp] theorem setPc_info_self (s : State) (p : Ptr) (pc : Pc) :
    (setPc s p pc).info p = { s.info p with pc := pc } := Function.update_self _ _ _

theorem setPc_info_of_ne (s : State) (pc : Pc) {p r : Ptr} (hr : r ≠ p) :
    (setPc s p pc).info r = s.info r := Function.update_of_ne hr _ _

/-- A thread in `process_waitpid` is that of a live process. -/
theorem Base.live_of_pc (h : Base s) (hpc : (s.info q).pc ≠ .gone) : q ∈ s.tree.processes := by
  by_contra hq
  exact hpc (h.dead q hq)

/-- What a step of `process_waitpid` can do. -/
inductive WaitMove (s : State) (q : Ptr) (id : ℕ) : State → Prop
  | noNode {a : Args} (hpc : (s.info q).pc = .waitStart a)
      (hnode : (s.tree.process q).node = 0) : WaitMove s q id (setPc s q .user)
  | enqueue {a : Args} (hpc : (s.info q).pc = .waitStart a)
      (hnode : (s.tree.process q).node ≠ 0) :
      WaitMove s q id (setInfo s q { s.info q with
        waitpidQueue := (s.info q).waitpidQueue ++ [id]
        pc := .waitQueued a })
  | childless {a : Args} (hpc : (s.info q).pc = .waitQueued a) (hlock : s.lock = none)
      (hempty : childrenOf s q = []) :
      WaitMove s q id (setPc s q (.waitLeave (.value (-echild))))
  | lock {a : Args} (hpc : (s.info q).pc = .waitQueued a) (hlock : s.lock = none)
      (hsome : childrenOf s q ≠ []) :
      WaitMove s q id { setPc s q (.waitScan a (childrenOf s q)) with lock := some (.process q) }
  | take {a : Args} {child : Ptr} {rest : List Ptr}
      (hpc : (s.info q).pc = .waitScan a (child :: rest))
      (haccepts : accepts s q a.pid child = true) (hstopped : isStopped s.tree child = true) :
      WaitMove s q id (setPc s q (.waitTaken child (s.info child).pid
        (wstatusExited ||| ((s.info child).exitStatus <<< wstatusExitcode))))
  | skip {a : Args} {child : Ptr} {rest : List Ptr}
      (hpc : (s.info q).pc = .waitScan a (child :: rest))
      (hnot : accepts s q a.pid child = true → isStopped s.tree child = false) :
      WaitMove s q id (setPc s q (.waitScan a rest))
  | nohang {a : Args} (hpc : (s.info q).pc = .waitScan a []) :
      WaitMove s q id { setPc s q (.waitLeave (.value 0)) with lock := none }
  | giveUp {a : Args} (hpc : (s.info q).pc = .waitScan a []) :
      WaitMove s q id { setPc s q (.waitSleep a) with lock := none }
  | keep {child : Ptr} {retPid wstatus : CInt}
      (hpc : (s.info q).pc = .waitTaken child retPid wstatus)
      (huse : processInUse s child = true) :
      WaitMove s q id { setPc s q (.waitLeave (.child child retPid wstatus)) with lock := none }
  | destroy {child : Ptr} {retPid wstatus : CInt}
      (hpc : (s.info q).pc = .waitTaken child retPid wstatus)
      (huse : processInUse s child = false) :
      WaitMove s q id { setPc (destroy s child) q (.waitLeave (.child child retPid wstatus)) with
        lock := none }
  | leave {r : WaitResult} (hpc : (s.info q).pc = .waitLeave r) :
      WaitMove s q id (leaveQueue s q r)
  | returnValue {ret : CInt} (hpc : (s.info q).pc = .waitReturn (.value ret)) :
      WaitMove s q id (setPc s q .user)
  | returnChild {child : Ptr} {retPid wstatus : CInt}
      (hpc : (s.info q).pc = .waitReturn (.child child retPid wstatus)) :
      WaitMove s q id { setPc s q .user with
        reports := s.reports ++ [⟨q, retPid, wstatus, (s.info child).pid⟩] }
  | sleep {a : Args} (hpc : (s.info q).pc = .waitSleep a) :
      WaitMove s q id (setInfo s q { s.info q with sleep := some .nocond, pc := .waitYield a })
  | yield {a : Args} (hpc : (s.info q).pc = .waitYield a) : WaitMove s q id (setPc s q (.asleep a))

theorem waitScan_move {a : Args} {rest : List Ptr} (hpc : (s.info q).pc = .waitScan a rest) :
    WaitMove s q id (waitScan s q a rest) := by
  cases rest with
  | nil =>
    unfold waitScan
    dsimp only
    split_ifs
    · exact .nohang hpc
    · exact .giveUp hpc
  | cons child rest =>
    unfold waitScan
    dsimp only
    split_ifs with htake
    · rw [Bool.and_eq_true] at htake
      exact .take hpc htake.1 htake.2
    · refine .skip hpc fun haccepts => ?_
      rw [haccepts, Bool.true_and] at htake
      exact Bool.eq_false_iff.mpr htake

theorem waitStep_move (hstep : waitStep s q id = some s') : WaitMove s q id s' := by
  unfold waitStep at hstep
  split at hstep
  · split_ifs at hstep with hnode
    · obtain rfl := Option.some.inj hstep
      exact .noNode ‹_› hnode
    · obtain rfl := Option.some.inj hstep
      exact .enqueue ‹_› hnode
  · split_ifs at hstep with hlock hempty
    · obtain rfl := Option.some.inj hstep
      exact .childless ‹_› (not_not.mp hlock) hempty
    · obtain rfl := Option.some.inj hstep
      exact .lock ‹_› (not_not.mp hlock) hempty
  · obtain rfl := Option.some.inj hstep
    exact waitScan_move ‹_›
  · obtain rfl := Option.some.inj hstep
    rename_i child retPid wstatus hpc
    by_cases huse : processInUse s child = true
    · rw [if_pos huse]
      exact .keep hpc huse
    · rw [if_neg huse]
      exact .destroy hpc (Bool.eq_false_iff.mpr huse)
  · obtain rfl := Option.some.inj hstep
    exact .leave ‹_›
  · obtain rfl := Option.some.inj hstep
    rename_i r hpc
    cases r with
    | value ret => exact .returnValue hpc
    | child child retPid wstatus => exact .returnChild hpc
  · obtain rfl := Option.some.inj hstep
    exact .sleep ‹_›
  · obtain rfl := Option.some.inj hstep
    exact .yield ‹_›
  · contradiction

/-- The thread of a step was not stopped, and it does not stop. -/
theorem WaitMove.stopped (h : WaitMove s q id s') :
    (s.info q).pc.stopped = false ∧ (s'.info q).pc.stopped = false := by
  cases h <;> refine ⟨?_, by simp only [setPc, setInfo, leaveQueue, Function.update_self]; rfl⟩
  all_goals
    rename (s.info q).pc = _ => hpc
    rw [hpc]
    rfl

theorem WaitMove.others (h : WaitMove s q id s') {r : Ptr} (hr : r ≠ q) : s'.info r = s.info r := by
  cases h <;> simp [setPc, setInfo, leaveQueue, hr]

theorem WaitMove.ids (h : WaitMove s q id s') (r : Ptr) :
    (s'.info r).gid = (s.info r).gid ∧ (s'.info r).pid = (s.info r).pid := by
  by_cases hr : r = q
  · subst hr
    cases h <;> simp [setPc, setInfo, leaveQueue]
  · rw [h.others hr]
    exact ⟨rfl, rfl⟩

theorem WaitMove.live (h : WaitMove s q id s') (hbase : Base s) : q ∈ s.tree.processes := by
  refine hbase.live_of_pc fun hgone => ?_
  have hstopped := h.stopped.1
  rw [hgone] at hstopped
  exact Bool.noConfusion hstopped

/-- A step leaves the tree alone or destroys the child it took. -/
theorem WaitMove.tree_eq (h : WaitMove s q id s') : s'.tree = s.tree ∨
    ∃ child retPid wstatus, (s.info q).pc = .waitTaken child retPid wstatus ∧
      processInUse s child = false ∧ s'.tree = (Lifecycle.destroy s child).tree := by
  cases h with
  | destroy hpc huse => exact Or.inr ⟨_, _, _, hpc, huse, rfl⟩
  | _ => exact Or.inl rfl

/-- The lock is taken when it is free, and released by who held it. -/
theorem WaitMove.lock_eq (h : WaitMove s q id s')
    (hlocked : (s.info q).pc.scans = true → s.lock = some (.process q)) {r : Ptr} (hr : r ≠ q)
    (hheld : s.lock = some (.process r)) : s'.lock = s.lock := by
  have hother : (s.info q).pc.scans ≠ true := by
    intro hscans
    rw [hlocked hscans] at hheld
    exact hr (Holder.process.inj (Option.some.inj hheld)).symm
  cases h with
  | lock hpc hfree hsome =>
    rw [hfree] at hheld
    exact absurd hheld.symm (Option.some_ne_none _)
  | nohang hpc => rw [hpc] at hother; exact absurd rfl hother
  | giveUp hpc => rw [hpc] at hother; exact absurd rfl hother
  | keep hpc huse => rw [hpc] at hother; exact absurd rfl hother
  | destroy hpc huse => rw [hpc] at hother; exact absurd rfl hother
  | _ => rfl

theorem WaitMove.noded (h : WaitMove s q id s')
    (hnoded : (s.info q).pc.inside = true → (s.tree.process q).node ≠ 0)
    (hinside : (s'.info q).pc.inside = true) : (s.tree.process q).node ≠ 0 := by
  cases h with
  | enqueue hpc hnode => exact hnode
  | leave hpc =>
    unfold leaveQueue at hinside
    rw [setInfo_info_self] at hinside
    exact Bool.noConfusion hinside
  | _ =>
    rename (s.info q).pc = _ => hpc
    simp only [setPc, setInfo, destroy_info, Function.update_self] at hinside
    refine hnoded ?_
    rw [hpc]
    first | rfl | exact Bool.noConfusion hinside

theorem WaitMove.scanning (h : WaitMove s q id s') (hbase : Base s) : Scanning s' q := by
  have hq := h.live hbase
  have hscan := hbase.scanning q hq
  have hnode : (s'.tree.process q).node = (s.tree.process q).node := by
    rcases h.tree_eq with htree | ⟨child, -, -, -, -, htree⟩
    · rw [htree]
    · rw [htree, destroy_process]
  refine ⟨fun hinside => hnode ▸ h.noded hscan.1 hinside, ?_⟩
  cases h with
  | lock hpc hfree hsome =>
    simp only [setPc_info_self]
    exact ⟨trivial, fun c hc => (child_of_mem_childrenOf hbase.good hq
      (hscan.1 (by rw [hpc]; rfl)) hc).1⟩
  | take hpc haccepts hstopped =>
    obtain ⟨-, hscan⟩ := hscan
    rw [hpc] at hscan
    rw [setPc_info_self]
    exact ⟨hscan.1, hscan.2 _ List.mem_cons_self, hstopped⟩
  | skip hpc hnot =>
    obtain ⟨-, hscan⟩ := hscan
    rw [hpc] at hscan
    rw [setPc_info_self]
    exact ⟨hscan.1, fun c hc => hscan.2 c (List.mem_cons_of_mem _ hc)⟩
  | _ => simp [setPc, setInfo, leaveQueue]

theorem WaitMove.base (h : WaitMove s q id s') (hbase : Base s)
    (horderly : (Event.wait q id).Orderly s) : Base s' := by
  have hq := h.live hbase
  obtain ⟨hbefore, hafter⟩ := h.stopped
  rcases h.tree_eq with htree | ⟨child, retPid, wstatus, hpc, huse, htree⟩
  · exact hbase.of_actor hq htree (fun r hr => congrArg Info.pc (h.others hr))
      (hafter.trans hbefore.symm) (fun r hr => h.lock_eq (hbase.scanning q hq).locked hr)
      (h.scanning hbase)
  · have hscan := hbase.scanning q hq
    unfold Scanning at hscan
    rw [hpc] at hscan
    obtain ⟨-, hlock, hchild, hstopped⟩ := hscan
    have hc0 : child ≠ 0 := fun h0 => hbase.good.process_ne (h0 ▸ hchild.1)
    rw [destroy_tree hc0 hstopped] at htree
    have horder := horderly child (by
      simp only [Event.destroys, hpc, huse]
      rfl)
    refine hbase.of_destroy horder hstopped huse htree (fun r hr _ => ?_) fun r hr => ?_
    · by_cases hrq : r = q
      · rw [hrq]
        exact ⟨hafter.trans hbefore.symm, h.scanning hbase⟩
      · have hother : s.lock ≠ some (.process r) := by
          rw [hlock]
          exact fun he => hrq (Holder.process.inj (Option.some.inj he)).symm
        exact ⟨by rw [h.others hrq], hbase.scanning_of_lock hr hother (by rw [h.others hrq])
          (by rw [htree, processDestroy_process])⟩
    · by_cases hrq : r = q
      · rw [hrq] at hr
        rw [hr] at hbefore
        exact Bool.noConfusion hbefore
      · rw [h.others hrq]
        exact hr

end Waiting

section Exiting

variable {s s' : State} {p q : Ptr}

inductive ExitMove (s : State) (p : Ptr) : State → Prop
  | status {status : CInt} (hpc : (s.info p).pc = .exitMarked status) :
      ExitMove s p (setInfo s p { s.info p with exitStatus := status, pc := .exitStatused })
  | noQueue (hpc : (s.info p).pc = .exitStatused)
      (hnone : (s.tree.process p).parent = 0 ∨
        (s.info (s.tree.process p).parent).waitpidQueue = []) :
      ExitMove s p (setPc s p .exitReap)
  | queue {node : ℕ} {rest : List ℕ} (hpc : (s.info p).pc = .exitStatused)
      (hsome : (s.info (s.tree.process p).parent).waitpidQueue = node :: rest) :
      ExitMove s p (setPc s p (.exitWalk node))
  | walk {node : ℕ} (hpc : (s.info p).pc = .exitWalk node) :
      ExitMove s p (setPc (wakeup s (s.tree.process p).parent) p
        ((nextNode (s.info (s.tree.process p).parent).waitpidQueue node).elim .exitLeaving
          .exitWalk))
  | reap (hpc : (s.info p).pc = .exitReap) (hlock : s.lock = none) :
      ExitMove s p { setPc s p .exitLeaving with reapQueue := s.reapQueue ++ [p] }
  | leave (hpc : (s.info p).pc = .exitLeaving) : ExitMove s p (setPc s p .gone)

theorem exitStep_move (hstep : exitStep s p = some s') : ExitMove s p s' := by
  cases hpc : (s.info p).pc <;> simp only [exitStep, hpc] at hstep <;> try contradiction
  case exitMarked status =>
    obtain rfl := Option.some.inj hstep
    exact .status hpc
  case exitStatused =>
    split_ifs at hstep with hroot
    · obtain rfl := Option.some.inj hstep
      exact .noQueue hpc (Or.inl hroot)
    · split at hstep
      · obtain rfl := Option.some.inj hstep
        exact .noQueue hpc (Or.inr ‹_›)
      · obtain rfl := Option.some.inj hstep
        exact .queue hpc ‹_›
  case exitWalk node =>
    obtain rfl := Option.some.inj hstep
    exact .walk hpc
  case exitReap =>
    split_ifs at hstep with hlock
    obtain rfl := Option.some.inj hstep
    exact .reap hpc (not_not.mp hlock)
  case exitLeaving =>
    obtain rfl := Option.some.inj hstep
    exact .leave hpc

@[simp] theorem wakeup_pc (s : State) (q r : Ptr) :
    ((wakeup s q).info r).pc = (s.info r).pc := by
  unfold wakeup
  split_ifs
  · rfl
  · by_cases hr : r = q
    · rw [hr, setInfo_info_self]
    · rw [setInfo_info_of_ne _ _ hr]

@[simp] theorem wakeup_tree (s : State) (q : Ptr) : (wakeup s q).tree = s.tree := by
  unfold wakeup
  split_ifs <;> rfl

@[simp] theorem wakeup_lock (s : State) (q : Ptr) : (wakeup s q).lock = s.lock := by
  unfold wakeup
  split_ifs <;> rfl

@[simp] theorem wakeup_destroyed (s : State) (q : Ptr) : (wakeup s q).destroyed = s.destroyed := by
  unfold wakeup
  split_ifs <;> rfl

@[simp] theorem wakeup_reapQueue (s : State) (q : Ptr) : (wakeup s q).reapQueue = s.reapQueue := by
  unfold wakeup
  split_ifs <;> rfl

@[simp] theorem wakeup_reports (s : State) (q : Ptr) : (wakeup s q).reports = s.reports := by
  unfold wakeup
  split_ifs <;> rfl

@[simp] theorem wakeup_pids (s : State) (q : Ptr) : (wakeup s q).pids = s.pids := by
  unfold wakeup
  split_ifs <;> rfl

theorem ExitMove.stopped (h : ExitMove s p s') :
    (s.info p).pc.exiting = true ∧ (s'.info p).pc.stopped = true := by
  cases h with
  | walk hpc =>
    rw [hpc, setPc_info_self]
    refine ⟨rfl, ?_⟩
    cases nextNode _ _ <;> rfl
  | _ =>
    rename (s.info p).pc = _ => hpc
    rw [hpc]
    exact ⟨rfl, by simp only [setPc, setInfo, Function.update_self]; rfl⟩

theorem ExitMove.others_pc (h : ExitMove s p s') {r : Ptr} (hr : r ≠ p) :
    (s'.info r).pc = (s.info r).pc := by
  cases h with
  | walk hpc => rw [setPc_info_of_ne _ _ hr, wakeup_pc]
  | _ => simp [setPc, setInfo, hr]

theorem ExitMove.tree_eq (h : ExitMove s p s') : s'.tree = s.tree := by
  cases h with
  | walk hpc => exact wakeup_tree s _
  | _ => rfl

theorem ExitMove.lock_eq (h : ExitMove s p s') : s'.lock = s.lock := by
  cases h with
  | walk hpc => exact wakeup_lock s _
  | _ => rfl

theorem Pc.stopped_of_exiting {pc : Pc} (h : pc.exiting = true) : pc.stopped = true := by
  cases pc <;> first | rfl | contradiction

theorem Pc.not_inside {pc : Pc} (h : pc.stopped = true) : pc.inside = false := by
  cases pc <;> first | rfl | exact Bool.noConfusion h

theorem scanning_of_outside (h : (s.info p).pc.inside = false) : Scanning s p := by
  unfold Scanning
  refine ⟨fun hinside => ?_, ?_⟩
  · rw [h] at hinside
    exact Bool.noConfusion hinside
  · split
    · rename_i hpc
      rw [hpc] at h
      exact Bool.noConfusion h
    · rename_i hpc
      rw [hpc] at h
      exact Bool.noConfusion h
    · trivial

/-- A step of `process_exit` changes nothing of another process but its sleep, which may become
`SLEEP_FLAG_WAKEUP`. -/
theorem ExitMove.info_of_ne (h : ExitMove s p s') {r : Ptr} (hr : r ≠ p) :
    s'.info r = s.info r ∨
      (s.info r).sleep ≠ none ∧ s'.info r = { s.info r with sleep := some .wakeup } := by
  cases h with
  | walk hpc =>
    rw [setPc_info_of_ne _ _ hr]
    unfold wakeup
    split_ifs with hsleep
    · exact Or.inl rfl
    · by_cases hparent : r = (s.tree.process p).parent
      · rw [← hparent, setInfo_info_self]
        exact Or.inr ⟨by rw [hparent]; exact hsleep, rfl⟩
      · rw [setInfo_info_of_ne _ _ hparent]
        exact Or.inl rfl
  | _ => exact Or.inl (by simp [setPc, setInfo, hr])

/-- The identity of a process and its queue are not touched by an exit. -/
theorem ExitMove.fields (h : ExitMove s p s') (r : Ptr) :
    (s'.info r).gid = (s.info r).gid ∧ (s'.info r).pid = (s.info r).pid ∧
      (s'.info r).waitpidQueue = (s.info r).waitpidQueue := by
  by_cases hr : r = p
  · subst hr
    cases h with
    | walk hpc =>
      rw [setPc_info_self]
      unfold wakeup
      split_ifs
      · exact ⟨rfl, rfl, rfl⟩
      · by_cases hparent : r = (s.tree.process r).parent
        · rw [← hparent, setInfo_info_self]
          exact ⟨rfl, rfl, rfl⟩
        · rw [setInfo_info_of_ne _ _ hparent]
          exact ⟨rfl, rfl, rfl⟩
    | _ => simp [setPc, setInfo]
  · rcases h.info_of_ne hr with hinfo | ⟨-, hinfo⟩
    · rw [hinfo]
      exact ⟨rfl, rfl, rfl⟩
    · rw [hinfo]
      exact ⟨rfl, rfl, rfl⟩

theorem ExitMove.live (h : ExitMove s p s') (hbase : Base s) : p ∈ s.tree.processes := by
  refine hbase.live_of_pc fun hgone => ?_
  have hexiting := h.stopped.1
  rw [hgone] at hexiting
  exact Bool.noConfusion hexiting

theorem ExitMove.base (h : ExitMove s p s') (hbase : Base s) : Base s' := by
  obtain ⟨hbefore, hafter⟩ := h.stopped
  exact hbase.of_actor (h.live hbase) h.tree_eq (fun r hr => h.others_pc hr)
    (hafter.trans (Pc.stopped_of_exiting hbefore).symm) (fun _ _ _ => h.lock_eq)
    (scanning_of_outside (Pc.not_inside hafter))

end Exiting

section Events

variable {s s' : State} {p q n c : Ptr}

/-- A call begins: the thread of a running process enters `process_waitpid`. -/
theorem waitpid_base (h : Base s) (hpc : (s.info q).pc = .user) (hq : q ∈ s.tree.processes)
    (a : Args) : Base (setPc s q (.waitStart a)) := by
  refine h.of_actor hq rfl (fun r hr => congrArg Info.pc (setPc_info_of_ne s _ hr)) ?_
    (fun _ _ _ => rfl) ?_
  · rw [setPc_info_self, hpc]
    rfl
  · exact scanning_of_outside (by rw [setPc_info_self]; rfl)

/-- What waking up does to a thread that sleeps in `process_waitpid`. -/
theorem wake_cases (hwake : wake s q = some s') :
    (s.info q).sleep = some .wakeup ∧ ∃ a,
      ((s.info q).pc = .waitYield a ∨ (s.info q).pc = .asleep a) ∧
      s' = setInfo s q { s.info q with sleep := none, pc := .waitStart a } := by
  unfold wake at hwake
  split_ifs at hwake with hsleep
  refine ⟨hsleep, ?_⟩
  split at hwake
  · exact ⟨_, Or.inl ‹_›, (Option.some.inj hwake).symm⟩
  · exact ⟨_, Or.inr ‹_›, (Option.some.inj hwake).symm⟩
  · contradiction

theorem wake_base (h : Base s) (hwake : wake s q = some s') : Base s' := by
  obtain ⟨-, a, hpc, rfl⟩ := wake_cases hwake
  have hstopped : (s.info q).pc.stopped = false := by
    rcases hpc with hpc | hpc
    · rw [hpc]
      rfl
    · rw [hpc]
      rfl
  have hq : q ∈ s.tree.processes := h.live_of_pc fun hgone => by
    rw [hgone] at hstopped
    exact Bool.noConfusion hstopped
  refine h.of_actor hq rfl (fun r hr => congrArg Info.pc (setInfo_info_of_ne s _ hr)) ?_
    (fun _ _ _ => rfl) ?_
  · rw [setInfo_info_self, hstopped]
    rfl
  · exact scanning_of_outside (by rw [setInfo_info_self]; rfl)

theorem exit_base (h : Base s) (hpc : (s.info p).pc = .user) (hp : p ∈ s.tree.processes)
    (status : CInt) :
    Base { setPc s p (.exitMarked status) with tree := markStopped s.tree p } := by
  refine ⟨markStopped_good h.good p, ?_, ?_, ?_⟩
  · intro r hr
    by_cases hrp : r = p
    · subst hrp
      simp only [setPc_info_self, isStopped_markStopped_self]
      rfl
    · simp only [setPc_info_of_ne s _ hrp, isStopped_markStopped_of_ne s.tree hrp]
      exact h.stopped_iff r hr
  · intro r hr
    have hrp : r ≠ p := fun he => hr (he ▸ hp)
    simp only [setPc_info_of_ne s _ hrp]
    exact h.dead r hr
  · intro r hr
    by_cases hrp : r = p
    · subst hrp
      exact scanning_of_outside (by simp only [setPc_info_self]; rfl)
    · exact (h.scanning r hr).mono (congrArg Info.pc (setPc_info_of_ne s _ hrp)) (fun _ => rfl)
        (markStopped_node s.tree p r) fun c hc =>
          ⟨⟨hc.1, (markStopped_parent s.tree p c).trans hc.2⟩, isStopped_markStopped⟩

theorem fork_info_self {pid : CInt} :
    (fork s q p n pid).info p = ⟨pid, 0, 0, [], none, .user⟩ :=
  Function.update_self _ _ _

theorem fork_info_of_ne {pid : CInt} {r : Ptr} (hr : r ≠ p) :
    (fork s q p n pid).info r = s.info r :=
  Function.update_of_ne hr _ _

theorem fork_processes {pid : CInt} :
    (fork s q p n pid).tree.processes = insert p s.tree.processes :=
  processCreateStructure_processes _ _ _ _ _

theorem fork_process_of_ne {pid : CInt} {r : Ptr} (hr : r ≠ p) :
    (fork s q p n pid).tree.process r = s.tree.process r :=
  processCreateStructure_process_of_ne _ _ _ _ hr

theorem fork_base (h : Base s) (hfresh : Fresh s.tree p n) (hpc : (s.info q).pc = .user)
    (hq : q ∈ s.tree.processes) (pid : CInt) : Base (fork s q p n pid) := by
  have hne : ∀ r ∈ s.tree.processes, r ≠ p := fun r hr he => hfresh.2.1 (he ▸ hr)
  refine ⟨processCreateStructure_good h.good hfresh (Or.inr hq), ?_, ?_, ?_⟩
  · intro r hr
    rw [fork_processes, Finset.mem_insert] at hr
    unfold isStopped
    rcases hr with rfl | hr
    · have hflags : ((fork s q r n pid).tree.process r).flags = (s.tree.process q).flags :=
        (processCreateStructure_process_self _ _ _ _ _).2
      have hstopped := h.stopped_iff q hq
      rw [hpc] at hstopped
      rw [fork_info_self, hflags]
      exact hstopped
    · rw [fork_process_of_ne (hne r hr), fork_info_of_ne (hne r hr)]
      exact h.stopped_iff r hr
  · intro r hr
    rw [fork_processes, Finset.mem_insert, not_or] at hr
    rw [fork_info_of_ne hr.1]
    exact h.dead r hr.2
  · intro r hr
    rw [fork_processes, Finset.mem_insert] at hr
    rcases hr with rfl | hr
    · exact scanning_of_outside (by rw [fork_info_self]; rfl)
    · refine (h.scanning r hr).mono (by rw [fork_info_of_ne (hne r hr)]) (fun _ => rfl)
        (by rw [fork_process_of_ne (hne r hr)]) fun c hc => ?_
      unfold Child isStopped
      rw [fork_process_of_ne (hne c hc.1), fork_processes]
      exact ⟨⟨Finset.mem_insert_of_mem hc.1, hc.2⟩, fun hstopped => hstopped⟩

theorem reuse_pc (s : State) (p : Ptr) (info : Info) (r : Ptr) :
    ((setInfo s p { info with sleep := (s.info p).sleep, pc := (s.info p).pc }).info r).pc =
      (s.info r).pc := by
  by_cases hr : r = p
  · rw [hr, setInfo_info_self]
  · rw [setInfo_info_of_ne s _ hr]

theorem reuse_base (h : Base s) (hp : p ∉ s.tree.processes) (process : Process) (info : Info) :
    Base { setInfo s p { info with sleep := (s.info p).sleep, pc := (s.info p).pc } with
      tree := setProcess s.tree p process } := by
  have hne : ∀ r ∈ s.tree.processes, r ≠ p := fun r hr he => hp (he ▸ hr)
  have hold : ∀ r ∈ s.tree.processes, (setProcess s.tree p process).process r = s.tree.process r :=
    fun r hr => Function.update_of_ne (hne r hr) _ _
  have hpc := reuse_pc s p info
  refine ⟨h.good.setProcess hp process, ?_, ?_, ?_⟩
  · intro r hr
    rw [← show isStopped s.tree r = isStopped (setProcess s.tree p process) r by
      unfold isStopped; rw [hold r hr]]
    exact (h.stopped_iff r hr).trans (congrArg Pc.stopped (hpc r)).symm
  · intro r hr
    exact (hpc r).trans (h.dead r hr)
  · intro r hr
    refine (h.scanning r hr).mono (hpc r) (fun _ => rfl) (congrArg Process.node (hold r hr))
      fun c hc => ⟨⟨hc.1, (congrArg Process.parent (hold c hc.1)).trans hc.2⟩, fun hstopped => ?_⟩
    unfold isStopped
    rw [hold c hc.1]
    exact hstopped

theorem reaperStep_cases (s : State) :
    reaperStep s = { s with lock := none } ∨
      ∃ p rest, s.reapQueue = p :: rest ∧
        (isStopped s.tree p = false ∧
            reaperStep s = { s with reapQueue := rest, pass := s.pass + 1 } ∨
          isStopped s.tree p = true ∧ processInUse s p = true ∧
            reaperStep s = { s with reapQueue := rest ++ [p], pass := s.pass + 1 } ∨
          isStopped s.tree p = true ∧ processInUse s p = false ∧
            Event.reapNext.destroys s = some p ∧
            reaperStep s = destroy { s with reapQueue := rest, pass := s.pass + 1 } p) := by
  unfold reaperStep
  split_ifs with hpass
  · cases hqueue : s.reapQueue with
    | nil => exact Or.inl rfl
    | cons p rest =>
      refine Or.inr ⟨p, rest, rfl, ?_⟩
      dsimp only
      cases hstopped : isStopped s.tree p with
      | false => exact Or.inl ⟨rfl, if_neg Bool.false_ne_true⟩
      | true =>
        rw [if_pos rfl]
        cases huse : processInUse s p with
        | true => exact Or.inr (Or.inl ⟨rfl, rfl, if_pos huse⟩)
        | false =>
          refine Or.inr (Or.inr ⟨rfl, rfl, ?_, if_neg (Bool.eq_false_iff.mp huse)⟩)
          rw [hqueue] at hpass
          simp only [Event.destroys, hqueue, if_pos hpass, List.head?_cons, Option.filter_some,
            hstopped, huse]
          rfl
  · exact Or.inl rfl

theorem reaperStep_base (h : Base s) (hlock : s.lock = some .reaper)
    (horderly : Event.reapNext.Orderly s) : Base (reaperStep s) := by
  have hother : ∀ r, s.lock ≠ some (.process r) := by
    intro r hr
    rw [hlock] at hr
    exact Holder.noConfusion (Option.some.inj hr)
  have hscan : ∀ {s' : State}, (∀ r, (s'.info r).pc = (s.info r).pc) →
      s'.tree.process = s.tree.process → ∀ r ∈ s.tree.processes, Scanning s' r :=
    fun hpc hprocess r hr => h.scanning_of_lock hr (hother r) (hpc r) (by rw [hprocess])
  rcases reaperStep_cases s with hs' | ⟨p, rest, -, ⟨-, hs'⟩ | ⟨-, -, hs'⟩ |
    ⟨hstopped, huse, hdestroys, hs'⟩⟩
  · rw [hs']
    exact ⟨h.good, h.stopped_iff, h.dead, hscan (fun _ => rfl) rfl⟩
  · rw [hs']
    exact ⟨h.good, h.stopped_iff, h.dead, hscan (fun _ => rfl) rfl⟩
  · rw [hs']
    exact ⟨h.good, h.stopped_iff, h.dead, hscan (fun _ => rfl) rfl⟩
  · have horder := horderly p hdestroys
    have hp0 : p ≠ 0 := fun h0 => h.good.process_ne (h0 ▸ horder.1)
    have htree : (reaperStep s).tree = processDestroy s.tree p := by
      rw [hs']
      exact destroy_tree hp0 hstopped
    have hinfo : (reaperStep s).info = s.info := by rw [hs', destroy_info]
    refine h.of_destroy horder hstopped huse htree (fun r hr _ => ⟨by rw [hinfo], ?_⟩)
      fun r hr => by
      rw [hinfo]
      exact hr
    exact hscan (fun r => by rw [hinfo]) (by rw [htree, processDestroy_process]) r hr

theorem Event.base {event : Event} (h : Base s) (horderly : event.Orderly s)
    (hrun : event.run s = some s') : Base s' := by
  cases event with
  | fork q p n pid =>
    simp only [Event.run] at hrun
    split_ifs at hrun with hcond
    obtain rfl := Option.some.inj hrun
    exact fork_base h hcond.2.2.1 hcond.1 hcond.2.1 pid
  | waitpid q a =>
    simp only [Event.run] at hrun
    split_ifs at hrun with hcond
    obtain rfl := Option.some.inj hrun
    exact waitpid_base h hcond.1 hcond.2 a
  | wait q id => exact (waitStep_move hrun).base h horderly
  | wake q => exact wake_base h hrun
  | exit p status =>
    simp only [Event.run] at hrun
    split_ifs at hrun with hcond
    obtain rfl := Option.some.inj hrun
    exact exit_base h hcond.1 hcond.2 status
  | exitNext p => exact (exitStep_move hrun).base h
  | reap =>
    simp only [Event.run] at hrun
    split_ifs at hrun with hcond
    obtain rfl := Option.some.inj hrun
    refine ⟨h.good, h.stopped_iff, h.dead, fun r hr => ?_⟩
    refine h.scanning_of_lock hr ?_ rfl rfl
    rw [hcond.1]
    exact (Option.some_ne_none _).symm
  | reapNext =>
    simp only [Event.run] at hrun
    split_ifs at hrun with hlock
    obtain rfl := Option.some.inj hrun
    exact reaperStep_base h hlock horderly
  | reuse p process info =>
    simp only [Event.run] at hrun
    split_ifs at hrun with hp
    obtain rfl := Option.some.inj hrun
    exact reuse_base h hp process info

end Events

section Examples

def runEvents (check : State → Event → Bool) : State → List Event → Option State
  | s, [] => some s
  | s, event :: events =>
    if check s event then (event.run s).bind fun s => runEvents check s events else none

theorem run_of_runEvents {check : State → Event → Bool} {allowed : State → Event → Prop}
    (hcheck : ∀ s event, check s event = true → allowed s event) {s s' : State}
    {events : List Event} (hrun : runEvents check s events = some s') :
    Relation.ReflTransGen (Step allowed) s s' := by
  induction events generalizing s with
  | nil =>
    obtain rfl := Option.some.inj hrun
    exact Relation.ReflTransGen.refl
  | cons event events ih =>
    unfold runEvents at hrun
    split_ifs at hrun with hpass
    obtain ⟨s₁, hevent, hrest⟩ := Option.bind_eq_some_iff.mp hrun
    exact (ih hrest).head ⟨event, hcheck s event hpass, hevent⟩

def family : State where
  tree := ProcessTree.runCalls booted [.spawnInit 1 1, .fork 1 2 2]
  info p :=
    if p = 1 then ⟨1, 0, 0, [], none, .user⟩
    else if p = 2 then ⟨2, 0, 0, [], none, .user⟩
    else ⟨0, 0, 0, [], none, .gone⟩
  reapQueue := []
  lock := none
  pass := 0
  destroyed _ := 0
  reports := []
  pids := [1, 2]

theorem family_processes : family.tree.processes = {1, 2} := by decide +kernel

theorem family_quiet : Quiet family where
  good := good_of_run booted_initial.good (run_of_allowedCalls
    (show AllowedCalls Call.Orderly booted [.spawnInit 1 1, .fork 1 2 2] by decide +kernel))
  running p hp := by
    rw [family_processes, Finset.mem_insert, Finset.mem_singleton] at hp
    rcases hp with rfl | rfl
    · exact ⟨by decide +kernel, rfl, rfl, rfl, rfl, by decide +kernel⟩
    · exact ⟨by decide +kernel, rfl, rfl, rfl, rfl, by decide +kernel⟩
  distinct p hp q hq hpid := by
    rw [family_processes, Finset.mem_insert, Finset.mem_singleton] at hp hq
    rcases hp with rfl | rfl <;> rcases hq with rfl | rfl
    · rfl
    · exact absurd hpid (by decide +kernel)
    · exact absurd hpid (by decide +kernel)
    · rfl
  freed p hp := by
    rw [family_processes, Finset.mem_insert, Finset.mem_singleton, not_or] at hp
    refine ⟨?_, Nat.zero_le 1⟩
    unfold family
    simp only [if_neg hp.1, if_neg hp.2]
  reap_empty := rfl
  lock_free := rfl
  reports_empty := rfl

end Examples

end ReduceOS.Lifecycle
