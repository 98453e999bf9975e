import ReduceOS.KernelList
import ReduceOS.Scheduler
import Mathlib.Data.List.Find

/-!
One pass of `sleep_callback` over the sleep queue as it lies in memory. The pass walks the
queue by the `next` of its nodes, and takes the node it is at out of the queue when its
sleeper is due. `list_delete` has then cleared the `next` that the walk goes on from, so the
pass ends with the first sleeper it wakes.
-/
namespace ReduceOS.WakePass

open Machine LinkedSequence KernelList
open Scheduler (SleepState)

def threadStatusSleeping : BitVec 32 := 0x08

/-- `thread_sleep_t`, without the node that no function reads. -/
structure Sleeper where
  thread : Addr
  sleepState : SleepState
  condition : Addr
  context : Addr
  seconds : BitVec 64
  subseconds : BitVec 64

/-- The part of `thread_t` that sleeping is about. -/
structure Thread where
  status : BitVec 32
  sleep : Addr

structure Memory where
  cells : KernelList.State
  sleepers : Addr → Sleeper
  threads : Addr → Thread
  sleepQueue : Addr
  threadQueue : Addr
  /-- The blocks given to `kfree`. -/
  freed : List Addr

structure Time where
  seconds : BitVec 64
  subseconds : BitVec 64

def Memory.setThread (m : Memory) (thread : Addr) (f : Thread → Thread) : Memory :=
  { m with threads := Function.update m.threads thread (f (m.threads thread)) }

def kfree (m : Memory) (ptr : Addr) : Memory := { m with freed := m.freed ++ [ptr] }

/-- The functions outside: what `kmalloc` returns for a node, and what a condition function
says about a thread and a context. -/
structure Outside where
  kmalloc : KernelList.State → Addr
  condition : Addr → Addr → Addr → Bool

def threadOf (m : Memory) (node : Addr) : Addr := (m.sleepers (m.cells.nodes node).value).thread

variable (o : Outside) (now : Time)

def schedulerInsertThread (m : Memory) (thread : Addr) : Memory :=
  if thread = null ∨ m.threadQueue = null then m
  else { m with cells := listAppend m.cells m.threadQueue thread (o.kmalloc m.cells) }

/-- The value of `wakeup` for a node of the queue; a corrupt node is passed over. -/
def wakeup (m : Memory) (node : Addr) : Bool :=
  let sleep := (m.cells.nodes node).value
  let sleeper := m.sleepers sleep
  if sleep = null ∨ threadOf m node = null then false
  else match sleeper.sleepState with
    | .nocond => false
    | .time =>
      (sleeper.seconds == now.seconds && sleeper.subseconds ≤ now.subseconds) ||
        sleeper.seconds < now.seconds
    | .cond =>
      if sleeper.condition = null then false
      else o.condition sleeper.condition (threadOf m node) sleeper.context
    | .wakeup => true

def wake (m : Memory) (node : Addr) : Memory :=
  let sleep := (m.cells.nodes node).value
  let thread := threadOf m node
  let m := { m with cells := listDelete m.cells m.sleepQueue node }
  let m := m.setThread thread fun t => { t with status := t.status &&& ~~~threadStatusSleeping }
  let m := schedulerInsertThread o m thread
  let m := m.setThread thread ({ · with sleep := null })
  kfree (kfree m node) sleep

/-- The loop of `sleep_callback`, which has no result when the fuel runs out. The next node is
read from the node after it was woken. -/
def sleepLoop : ℕ → Memory → Addr → Option Memory
  | 0, _, _ => none
  | fuel + 1, m, node =>
    if node = null then some m
    else
      let m := if wakeup o now m node then wake o m node else m
      sleepLoop fuel m (m.cells.nodes node).next

def sleepCallback (fuel : ℕ) (m : Memory) : Option Memory :=
  if m.sleepQueue = null then some m
  else sleepLoop o now fuel m (m.cells.lists m.sleepQueue).head

/-- The sleep queue is `q` and the run queue is `r`, in nodes of their own, and the node
that `kmalloc` returns for the run queue is in neither. -/
structure Queues (m : Memory) (q r : List Addr) : Prop where
  sleepQueue : Describes m.cells m.sleepQueue q
  threadQueue : Describes m.cells m.threadQueue r
  sleepQueue_ne : m.sleepQueue ≠ null
  threadQueue_ne : m.threadQueue ≠ null
  different : m.sleepQueue ≠ m.threadQueue
  apart : ∀ n ∈ q, n ∉ r
  fresh : ∀ n ∈ q, let node := o.kmalloc (listDelete m.cells m.sleepQueue n)
    node ≠ null ∧ node ∉ q ∧ node ∉ r

def due (m : Memory) (q : List Addr) : List Addr := q.filter (wakeup o now m)

/-- The pass from `m` to `m'` has woken the sleepers that are due, in the order of the queue,
and nobody else. -/
structure WakesDue (m m' : Memory) (q r : List Addr) : Prop where
  stay : Describes m'.cells m'.sleepQueue (q.filter fun n => !wakeup o now m n)
  inserted : ∃ new, Describes m'.cells m'.threadQueue (r ++ new) ∧
    new.map (fun n => (m'.cells.nodes n).value) = (due o now m q).map (threadOf m)
  values : ∀ n, n ∈ r ∨ (n ∈ q ∧ wakeup o now m n = false) →
    (m'.cells.nodes n).value = (m.cells.nodes n).value
  sleepers : m'.sleepers = m.sleepers
  threads : ∀ t, m'.threads t =
    if t ∈ (due o now m q).map (threadOf m) then
      ⟨(m.threads t).status &&& ~~~threadStatusSleeping, null⟩
    else m.threads t

section Wake

variable {o : Outside} {now : Time} {m : Memory} {q r xs ys : List Addr} {n : Addr}

theorem threadOf_ne (hdue : wakeup o now m n = true) : threadOf m n ≠ null := by
  intro hnull
  simp only [wakeup, hnull, or_true, if_true] at hdue
  contradiction

theorem schedulerInsertThread_cells {thread : Addr} (ht : thread ≠ null)
    (hq : m.threadQueue ≠ null) :
    schedulerInsertThread o m thread =
      { m with cells := listAppend m.cells m.threadQueue thread (o.kmalloc m.cells) } := by
  unfold schedulerInsertThread
  rw [if_neg (not_or.mpr ⟨ht, hq⟩)]

theorem wake_eq (hq : m.threadQueue ≠ null) (ht : threadOf m n ≠ null) :
    wake o m n = { m with
      cells := listAppend (listDelete m.cells m.sleepQueue n) m.threadQueue (threadOf m n)
        (o.kmalloc (listDelete m.cells m.sleepQueue n))
      threads := Function.update m.threads (threadOf m n)
        ⟨(m.threads (threadOf m n)).status &&& ~~~threadStatusSleeping, null⟩
      freed := m.freed ++ [n] ++ [(m.cells.nodes n).value] } := by
  unfold wake
  dsimp only
  rw [schedulerInsertThread_cells ht (by exact hq)]
  simp [Memory.setThread, kfree]

theorem listDelete_value {s : KernelList.State} {list : Addr} (hnext : (s.nodes n).next ≠ n)
    (a : Addr) : ((listDelete s list n).nodes a).value = (s.nodes a).value := by
  rw [listDelete_nodes hnext]
  by_cases heq : a = n
  · rw [if_pos heq, heq]
  · rw [if_neg heq]

theorem listAppend_value {s : KernelList.State} {list item new : Addr}
    (hnew : new ≠ (s.lists list).tail) (a : Addr) :
    ((listAppend s list item new).nodes a).value =
      if a = new then item else (s.nodes a).value := by
  unfold listAppend
  rw [listAppendNode_nodes (by exact hnew)]
  by_cases ha : a = new
  · simp [ha]
  · rw [if_neg ha, if_neg ha]
    split_ifs <;> simp [ha]

structure WokenOne (m m' : Memory) (n : Addr) (rest r : List Addr) (new : Addr) : Prop where
  stay : Describes m'.cells m'.sleepQueue rest
  inserted : Describes m'.cells m'.threadQueue (r ++ [new])
  unlinked : (m'.cells.nodes n).next = null
  values : ∀ a, (m'.cells.nodes a).value = if a = new then threadOf m n else (m.cells.nodes a).value

theorem wake_spec (h : Queues o m (xs ++ n :: ys) r) (hdue : wakeup o now m n = true) :
    WokenOne m (wake o m n) n (xs ++ ys) r (o.kmalloc (listDelete m.cells m.sleepQueue n)) := by
  have hn : n ∈ xs ++ n :: ys := List.mem_append_right xs List.mem_cons_self
  obtain ⟨hnull, hnewq, hnewr⟩ := h.fresh n hn
  rw [wake_eq h.threadQueue_ne (threadOf_ne hdue)]
  generalize o.kmalloc (listDelete m.cells m.sleepQueue n) = new at *
  have hsub : ∀ a ∈ xs ++ ys, a ∈ xs ++ n :: ys := fun a ha =>
    ((List.sublist_cons_self n ys).append_left xs).subset ha
  have hdel : Describes (listDelete m.cells m.sleepQueue n) m.sleepQueue (xs ++ ys) :=
    h.sleepQueue.delete
  have hrun : Describes (listDelete m.cells m.sleepQueue n) m.threadQueue r := by
    apply h.threadQueue.congr
    · rw [listDelete_lists, if_neg h.different.symm]
    · exact fun a ha => h.sleepQueue.delete_frame fun haq => h.apart a haq ha
  have hunlinked := h.sleepQueue.delete_unlinked
  let s := (listDelete m.cells m.sleepQueue n).setNode new ({ · with value := threadOf m n })
  have hstored : ∀ a, a ≠ new → s.nodes a = (listDelete m.cells m.sleepQueue n).nodes a := by
    intro a ha
    simp [s, ha]
  have hdel' : Describes s m.sleepQueue (xs ++ ys) :=
    hdel.congr rfl fun a ha => hstored a fun heq => hnewq (heq ▸ hsub a ha)
  have hrun' : Describes s m.threadQueue r :=
    hrun.congr rfl fun a ha => hstored a fun heq => hnewr (heq ▸ ha)
  have hframe : ∀ a ∈ xs ++ n :: ys,
      (listAppendNode s m.threadQueue new).nodes a = s.nodes a := fun a ha =>
    hrun'.append_frame hnewr hnull (h.apart a ha) fun heq => hnewq (heq ▸ ha)
  refine ⟨?_, hrun'.append hnewr hnull, ?_, ?_⟩
  · apply hdel'.congr
    · exact (listAppendNode_lists _).trans (if_neg h.different)
    · exact fun a ha => hframe a (hsub a ha)
  · change ((listAppendNode s m.threadQueue new).nodes n).next = null
    rw [hframe n hn, hstored n fun heq => hnewq (heq ▸ hn)]
    exact hunlinked.1
  · intro a
    change ((listAppend (listDelete m.cells m.sleepQueue n) m.threadQueue (threadOf m n)
      new).nodes a).value = _
    rw [listAppend_value (hrun.tail ▸ ne_lastOr hnewr hnull), listDelete_value h.sleepQueue.next_ne]

/-- The walk goes on as long as nobody is due and ends with the first sleeper who is. -/
theorem sleepLoop_eq (hlinks : Follows null (fun n => (m.cells.nodes n).next) ys)
    (hnull : null ∉ ys)
    (hwake : ∀ n ∈ ys, wakeup o now m n = true → ((wake o m n).cells.nodes n).next = null)
    {fuel : ℕ} (hfuel : ys.length < fuel) :
    sleepLoop o now fuel m (headOr null ys) =
      some (((ys.find? (wakeup o now m)).map (wake o m)).getD m) := by
  induction ys generalizing fuel with
  | nil =>
    obtain ⟨fuel, rfl⟩ := Nat.exists_eq_add_of_lt hfuel
    simp [sleepLoop]
  | cons n ys ih =>
    rw [List.mem_cons, not_or] at hnull
    rw [List.length_cons] at hfuel
    obtain ⟨fuel, rfl⟩ : ∃ k, fuel = k + 1 := ⟨fuel - 1, by omega⟩
    rw [headOr_cons, sleepLoop, if_neg (Ne.symm hnull.1), List.find?_cons]
    cases hdue : wakeup o now m n with
    | false =>
      have hnext : (m.cells.nodes n).next = headOr null ys := hlinks.1
      simp only [Bool.false_eq_true, if_false, hnext]
      exact ih hlinks.2 hnull.2 (fun a ha => hwake a (List.mem_cons_of_mem n ha)) (by omega)
    | true =>
      obtain ⟨fuel, rfl⟩ : ∃ k, fuel = k + 1 := ⟨fuel - 1, by omega⟩
      simp [hwake n List.mem_cons_self hdue, sleepLoop]

/-- A pass wakes the first sleeper that is due, if there is one. -/
theorem sleepCallback_eq (h : Queues o m q r) {fuel : ℕ} (hfuel : q.length < fuel) :
    sleepCallback o now fuel m = some (((q.find? (wakeup o now m)).map (wake o m)).getD m) := by
  unfold sleepCallback
  rw [if_neg h.sleepQueue_ne, h.sleepQueue.head]
  refine sleepLoop_eq h.sleepQueue.links.forward h.sleepQueue.links.nonnull ?_ hfuel
  intro n hn hdue
  obtain ⟨xs, ys, rfl⟩ := List.append_of_mem hn
  exact (wake_spec h hdue).unlinked

end Wake


section Pass

variable {o : Outside} {now : Time} {m : Memory} {q r : List Addr}

theorem wakesDue_refl (h : Queues o m q r) (hnone : due o now m q = []) :
    WakesDue o now m m q r := by
  have hstay : q.filter (fun n => !wakeup o now m n) = q := by
    rw [List.filter_eq_self]
    intro n hn
    have := List.filter_eq_nil_iff.mp hnone n hn
    simpa using this
  refine ⟨hstay.symm ▸ h.sleepQueue, ⟨[], ?_, ?_⟩, fun _ _ => rfl, rfl, ?_⟩
  · rw [List.append_nil]
    exact h.threadQueue
  · rw [hnone]
    rfl
  · intro t
    rw [hnone]
    rfl

theorem wakesDue_wake {xs ys : List Addr} {n : Addr} (h : Queues o m (xs ++ n :: ys) r)
    (hdue : wakeup o now m n = true) (hone : due o now m (xs ++ n :: ys) = [n])
    (hstay : (xs ++ n :: ys).filter (fun n => !wakeup o now m n) = xs ++ ys) :
    WakesDue o now m (wake o m n) (xs ++ n :: ys) r := by
  have hspec := wake_spec h hdue
  have hn : n ∈ xs ++ n :: ys := List.mem_append_right xs List.mem_cons_self
  obtain ⟨-, hnewq, hnewr⟩ := h.fresh n hn
  refine ⟨hstay.symm ▸ hspec.stay, ⟨[_], hspec.inserted, ?_⟩, ?_, ?_, ?_⟩
  · simp [hone, hspec.values]
  · intro a ha
    rw [hspec.values, if_neg]
    rintro rfl
    exact ha.elim hnewr fun ha => hnewq ha.1
  · rw [wake_eq h.threadQueue_ne (threadOf_ne hdue)]
  · intro t
    rw [wake_eq h.threadQueue_ne (threadOf_ne hdue), hone]
    simp only [List.map_cons, List.map_nil, List.mem_singleton, Function.update_apply]
    split_ifs with heq
    · rw [heq]
    · rfl

/-- Two threads sleep, in nodes 0x10 and 0x20, and the run queue is empty. -/
def twoSleepers (first second : SleepState) : Memory where
  cells :=
    { nodes := fun a =>
        if a = 0x10 then ⟨0x100, 0x20, null, 1⟩ else if a = 0x20 then ⟨0x200, null, 0x10, 1⟩
        else ⟨null, null, null, null⟩
      lists := fun a => if a = 1 then ⟨0x10, 0x20, 2⟩ else ⟨null, null, 0⟩ }
  sleepers a := ⟨if a = 0x100 then 0x1000 else 0x2000, if a = 0x100 then first else second,
    null, null, 0, 0⟩
  threads a := ⟨0x0C, if a = 0x1000 then 0x100 else 0x200⟩
  sleepQueue := 1
  threadQueue := 2
  freed := []

def quiet : Outside := ⟨fun _ => 0x30, fun _ _ _ => false⟩

theorem twoSleepers_queues (first second : SleepState) :
    Queues quiet (twoSleepers first second) [0x10, 0x20] [] where
  sleepQueue := by
    refine ⟨rfl, rfl, rfl, ⟨by decide, by decide, ⟨rfl, rfl, trivial⟩, ⟨rfl, rfl, trivial⟩⟩, ?_⟩
    intro n hn
    rcases List.mem_cons.mp hn with rfl | hn
    · rfl
    · obtain rfl := List.mem_singleton.mp hn
      rfl
  threadQueue := ⟨rfl, rfl, rfl, .nil, fun _ hn => absurd hn List.not_mem_nil⟩
  sleepQueue_ne := show (1 : Addr) ≠ null by decide
  threadQueue_ne := show (2 : Addr) ≠ null by decide
  different := show (1 : Addr) ≠ 2 by decide
  apart _ _ := List.not_mem_nil
  fresh _ _ := by
    change (0x30 : Addr) ≠ null ∧ (0x30 : Addr) ∉ [0x10, 0x20] ∧ (0x30 : Addr) ∉ []
    decide

/-- One pass wakes exactly the sleepers that are due, in the order of the queue, if and only
if at most one of them is. -/
theorem sleepCallback_wakesDue_iff (h : Queues o m q r) {fuel : ℕ} (hfuel : q.length < fuel) :
    ∃ m', sleepCallback o now fuel m = some m' ∧
      (WakesDue o now m m' q r ↔ (due o now m q).length ≤ 1) := by
  refine ⟨_, sleepCallback_eq h hfuel, ?_⟩
  cases hfind : q.find? (wakeup o now m) with
  | none =>
    have hnone : due o now m q = [] := by
      rw [due, List.filter_eq_nil_iff]
      exact List.find?_eq_none.mp hfind
    rw [hnone]
    exact ⟨fun _ => Nat.zero_le 1, fun _ => wakesDue_refl h hnone⟩
  | some n =>
    obtain ⟨hdue, xs, ys, rfl, hbefore⟩ := List.find?_eq_some_iff_append.mp hfind
    have hxs : xs.filter (wakeup o now m) = [] := by
      rw [List.filter_eq_nil_iff]
      intro a ha
      simpa using hbefore a ha
    have hall : due o now m (xs ++ n :: ys) = n :: ys.filter (wakeup o now m) := by
      rw [due, List.filter_append, hxs, List.nil_append, List.filter_cons_of_pos hdue]
    change WakesDue o now m (wake o m n) (xs ++ n :: ys) r ↔ _
    constructor
    · intro hwakes
      have hlen := (wake_spec h hdue).stay.length.symm.trans hwakes.stay.length
      have hsum := List.length_eq_length_filter_add (l := xs ++ n :: ys) (wakeup o now m)
      rw [← due] at hsum
      simp only [List.length_append, List.length_cons] at hlen hsum
      omega
    · intro hone
      rw [hall, List.length_cons] at hone
      have hys : ys.filter (wakeup o now m) = [] := List.eq_nil_of_length_eq_zero (by omega)
      apply wakesDue_wake h hdue (by rw [hall, hys])
      have hkeep : ∀ l : List Addr, l.filter (wakeup o now m) = [] →
          l.filter (fun n => !wakeup o now m n) = l := by
        intro l hl
        rw [List.filter_eq_self]
        intro a ha
        simpa using List.filter_eq_nil_iff.mp hl a ha
      rw [List.filter_append, hkeep xs hxs, List.filter_cons_of_neg (by simp [hdue]), hkeep ys hys]

/-- The first sleeper is due and the second sleeps without a condition. -/
theorem sleepCallback_wakesDue_first :
    ∃ m', sleepCallback quiet ⟨5, 0⟩ 3 (twoSleepers .wakeup .nocond) = some m' ∧
      (WakesDue quiet ⟨5, 0⟩ (twoSleepers .wakeup .nocond) m' [0x10, 0x20] [] ↔
        (due quiet ⟨5, 0⟩ (twoSleepers .wakeup .nocond) [0x10, 0x20]).length ≤ 1) :=
  sleepCallback_wakesDue_iff (twoSleepers_queues _ _) (by decide)

/-- The time of both sleepers has come, and the second stays in the queue. -/
theorem second_sleeper_left :
    Queues quiet (twoSleepers .time .time) [0x10, 0x20] [] ∧
      due quiet ⟨5, 0⟩ (twoSleepers .time .time) [0x10, 0x20] = [0x10, 0x20] ∧
      ∃ m', sleepCallback quiet ⟨5, 0⟩ 3 (twoSleepers .time .time) = some m' ∧
        (m'.cells.lists 1).head = 0x20 ∧
        ¬ WakesDue quiet ⟨5, 0⟩ (twoSleepers .time .time) m' [0x10, 0x20] [] := by
  refine ⟨twoSleepers_queues _ _, by decide, _, rfl, by decide, ?_⟩
  intro hwakes
  have hempty := hwakes.stay.head
  exact absurd hempty (by decide)

end Pass

section Shown

variable {o : Outside} {now : Time} {m : Memory} {q r : List Addr} {s : Scheduler.State Addr}

def sleepOf (m : Memory) (node : Addr) : Scheduler.Sleep Addr where
  id := (m.cells.nodes node).value.toNat
  thread := threadOf m node
  sleepState := (m.sleepers (m.cells.nodes node).value).sleepState

/-- The memory holds the queues and the threads of `s`, whose lock is free. -/
structure Shows (m : Memory) (q r : List Addr) (s : Scheduler.State Addr) : Prop where
  sleepQueue : s.sleepQueue = q.map (sleepOf m)
  threadQueue : s.threadQueue = r.map fun n => (m.cells.nodes n).value
  sleep : ∀ t, s.sleep t =
    if (m.threads t).sleep = null then none else some (m.threads t).sleep.toNat
  sleeping : ∀ t, s.sleeping t = ((m.threads t).status &&& threadStatusSleeping != 0)
  lockFree : s.lockLeft = false

theorem not_sleeping (status : BitVec 32) :
    (status &&& ~~~threadStatusSleeping &&& threadStatusSleeping != 0) = false := by
  have hzero : status &&& ~~~threadStatusSleeping &&& threadStatusSleeping = 0 := by
    rw [BitVec.and_assoc, BitVec.and_comm _ threadStatusSleeping]
    have : threadStatusSleeping &&& ~~~threadStatusSleeping = 0 := by decide
    rw [this]
    exact BitVec.and_zero
  rw [hzero]
  rfl

/-- The state of the scheduler after the sleeper in `n` was woken, its queue being `rest`. -/
def wokenState (s : Scheduler.State Addr) (rest : List (Scheduler.Sleep Addr)) (thread : Addr) :
    Scheduler.State Addr :=
  { s with
    sleepQueue := rest
    threadQueue := s.threadQueue ++ [thread]
    sleeping := Function.update s.sleeping thread false
    sleep := Function.update s.sleep thread none }

theorem wake_shows {xs ys : List Addr} {n : Addr} (h : Queues o m (xs ++ n :: ys) r)
    (hs : Shows m (xs ++ n :: ys) r s) (hdue : wakeup o now m n = true) :
    Shows (wake o m n) (xs ++ ys) (r ++ [o.kmalloc (listDelete m.cells m.sleepQueue n)])
      (wokenState s ((xs ++ ys).map (sleepOf m)) (threadOf m n)) := by
  have hspec := wake_spec h hdue
  have hn : n ∈ xs ++ n :: ys := List.mem_append_right xs List.mem_cons_self
  obtain ⟨-, hnewq, hnewr⟩ := h.fresh n hn
  have heq := wake_eq (o := o) h.threadQueue_ne (threadOf_ne hdue)
  have hvalue : ∀ a, a ∈ xs ++ ys ∨ a ∈ r →
      ((wake o m n).cells.nodes a).value = (m.cells.nodes a).value := by
    intro a ha
    rw [hspec.values, if_neg]
    rintro rfl
    refine ha.elim (fun ha => hnewq ?_) hnewr
    exact ((List.sublist_cons_self n ys).append_left xs).subset ha
  refine ⟨?_, ?_, ?_, ?_, hs.lockFree⟩
  · apply List.map_congr_left
    intro a ha
    have hsleepers : (wake o m n).sleepers = m.sleepers := by rw [heq]
    simp only [sleepOf, threadOf, hsleepers, hvalue a (Or.inl ha)]
  · have hold := List.map_congr_left fun a ha => hvalue a (Or.inr ha)
    change s.threadQueue ++ [threadOf m n] = _
    rw [List.map_append, List.map_singleton, hspec.values, if_pos rfl, hs.threadQueue, hold]
  · intro t
    simp only [heq, wokenState, Function.update_apply]
    split_ifs with hself
    · rfl
    · exact absurd rfl ‹¬ null = null›
    · exact (hs.sleep t).trans (if_pos ‹_›)
    · exact (hs.sleep t).trans (if_neg ‹_›)
  · intro t
    simp only [heq, wokenState, Function.update_apply]
    split_ifs with hself
    · exact (not_sleeping _).symm
    · exact hs.sleeping t

/-- The pass over the memory is the wake-up step of the scheduler's runs. -/
theorem sleepCallback_shows {ready : Addr → Bool} (h : Queues o m q r) (hs : Shows m q r s)
    (hready : ∀ n ∈ q, Scheduler.wakes ready (sleepOf m n) = wakeup o now m n) {fuel : ℕ}
    (hfuel : q.length < fuel) :
    ∃ m' q' r', sleepCallback o now fuel m = some m' ∧
      Shows m' q' r' (Scheduler.sleepCallback s ready) := by
  have hfind : s.sleepQueue.find? (Scheduler.wakes ready) =
      (q.find? (wakeup o now m)).map (sleepOf m) := by
    rw [hs.sleepQueue, List.find?_map]
    exact congrArg _ (List.find?_congr hready)
  rw [sleepCallback_eq h hfuel]
  cases hfirst : q.find? (wakeup o now m) with
  | none =>
    refine ⟨m, q, r, rfl, ?_⟩
    rw [Scheduler.sleepCallback, hfind, hfirst]
    exact hs
  | some n =>
    obtain ⟨hdue, xs, ys, rfl, hbefore⟩ := List.find?_eq_some_iff_append.mp hfirst
    have hn : n ∈ xs ++ n :: ys := List.mem_append_right xs List.mem_cons_self
    have hrest : s.sleepQueue.eraseP (Scheduler.wakes ready) = (xs ++ ys).map (sleepOf m) := by
      rw [hs.sleepQueue, List.eraseP_map, List.eraseP_append_right, List.eraseP_cons_of_pos]
      · exact (hready n hn).trans hdue
      · intro a ha
        have := hbefore a ha
        rw [Function.comp_apply, hready a (List.mem_append_left _ ha)]
        simpa using this
    have hstep : Scheduler.sleepCallback s ready =
        wokenState s ((xs ++ ys).map (sleepOf m)) (threadOf m n) := by
      rw [Scheduler.sleepCallback, hfind, hfirst, hrest]
      simp only [Option.map_some, hs.lockFree, Bool.false_eq_true, if_false,
        Scheduler.schedulerInsertThread, wokenState]
      rfl
    rw [hstep]
    exact ⟨_, _, _, rfl, wake_shows h hs hdue⟩

end Shown

end ReduceOS.WakePass
