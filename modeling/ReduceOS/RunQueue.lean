import ReduceOS.Scheduler
import Mathlib.Data.List.TakeWhile
import Mathlib.Algebra.GroupWithZero.Nat

/-!
The discipline of the run queue, over any sequence of threads that are queued, taken out and
marked as stopping. It is compared with a queue that has no lock: every call does there what
`scheduler.c` says, and the threads leave in the order in which they came. The queue of the
source does the same until `scheduler_get` runs out of threads inside its loop, which returns
without the release of the lock.
-/
namespace ReduceOS.RunQueue

open Scheduler

variable {T : Type} [DecidableEq T]

inductive Call (T : Type) where
  | insert (thread : T)
  | get (idle : T)
  /-- A processor marks a thread with `THREAD_STATUS_STOPPING`. -/
  | stop (thread : T)

/-- `__sync_or_and_fetch(&thread->status, THREAD_STATUS_STOPPING)` -/
def markStopping (s : Scheduler.State T) (thread : T) : Scheduler.State T :=
  { s with stopping := Function.update s.stopping thread true }

def perform (s : Scheduler.State T) : Call T → Except Stop (Scheduler.State T × Option T)
  | .insert thread =>
    if s.lockLeft then .error .spin else .ok (schedulerInsertThread s thread, none)
  | .get idle => do
    let (next, s) ← schedulerGet s idle
    return (s, some next)
  | .stop thread => .ok (markStopping s thread, none)

def run (s : Scheduler.State T) : List (Call T) → Except Stop (Scheduler.State T × List T)
  | [] => .ok (s, [])
  | call :: calls => do
    let (s₁, next) ← perform s call
    let (s₂, returned) ← run s₁ calls
    return (s₂, next.toList ++ returned)

structure Waiting (T : Type) where
  queue : List T
  stopping : T → Bool
  stopped : T → Bool

/-- One call of `scheduler_get`: what it takes out of the queue. -/
structure Taken (T : Type) where
  idle : T
  discarded : List T
  next : Option T

namespace Taken

variable (taken : Taken T)

def threads : List T := taken.discarded ++ taken.next.toList

def returned : T := taken.next.getD taken.idle

end Taken

namespace Waiting

variable (w : Waiting T)

def take (idle : T) : Taken T :=
  ⟨idle, w.queue.takeWhile w.stopping, (w.queue.dropWhile w.stopping).head?⟩

/-- The stopping threads in front are marked as stopped and go out with the thread behind
them. -/
def get : Waiting T :=
  { w with
    queue := (w.queue.dropWhile w.stopping).tail
    stopped := fun thread => w.stopped thread || decide (thread ∈ w.queue.takeWhile w.stopping) }

def step : Call T → Waiting T × Option (Taken T)
  | .insert thread => ({ w with queue := w.queue ++ [thread] }, none)
  | .get idle => (w.get, some (w.take idle))
  | .stop thread => ({ w with stopping := Function.update w.stopping thread true }, none)

def run (w : Waiting T) : List (Call T) → Waiting T × List (Taken T)
  | [] => (w, [])
  | call :: calls =>
    let (w', log) := (w.step call).1.run calls
    (w', (w.step call).2.toList ++ log)

/-- No thread that `scheduler_get` finds has been stopped, unless it is stopping too. -/
def Sound (w : Waiting T) : List (Call T) → Prop
  | [] => True
  | call :: calls =>
    (∀ idle, call = .get idle → ∀ thread ∈ w.queue, w.stopped thread → w.stopping thread) ∧
      (w.step call).1.Sound calls

def Exhausted : Prop := w.queue ≠ [] ∧ ∀ thread ∈ w.queue, w.stopping thread = true

/-- Nobody asks for the lock again after a `scheduler_get` that found stopping threads only. -/
def Unstuck (w : Waiting T) : List (Call T) → Prop
  | [] => True
  | call :: calls =>
    (∀ idle, call = .get idle → w.Exhausted → ∀ later ∈ calls, ∃ thread, later = .stop thread) ∧
      (w.step call).1.Unstuck calls

end Waiting

def inserted : List (Call T) → List T
  | [] => []
  | .insert thread :: calls => thread :: inserted calls
  | _ :: calls => inserted calls

def view (s : Scheduler.State T) : Waiting T := ⟨s.threadQueue, s.stopping, s.stopped⟩

def SameElse (s s' : Scheduler.State T) : Prop :=
  s' = { s with
    threadQueue := s'.threadQueue, stopping := s'.stopping, stopped := s'.stopped,
    lockLeft := s'.lockLeft }

/-- What a run has done: the calls returned what the queue without a lock returns and left what
it leaves, the threads went out in the order in which they came, and none went to a processor
more often than it came. -/
structure Disciplined (s : Scheduler.State T) (calls : List (Call T)) (s' : Scheduler.State T)
    (returned : List T) : Prop where
  left : view s' = ((view s).run calls).1
  returned_eq : returned = ((view s).run calls).2.map Taken.returned
  fifo : s.threadQueue ++ inserted calls =
    ((view s).run calls).2.flatMap Taken.threads ++ s'.threadQueue
  stopped : ∀ taken ∈ ((view s).run calls).2, ∀ thread ∈ taken.discarded,
    s'.stopped thread = true
  once : ∀ thread, (((view s).run calls).2.filterMap Taken.next).count thread ≤
    (s.threadQueue ++ inserted calls).count thread
  others : SameElse s s'

section Get

variable {s : Scheduler.State T} {idle : T}

/-- The loop of `scheduler_get` discards the stopping threads in front of the queue, and leaves
the lock held when there is no other. -/
theorem popThread_eq {queue : List T}
    (hsound : ∀ thread ∈ queue, s.stopped thread → s.stopping thread) :
    popThread s queue = .ok ((queue.dropWhile s.stopping).head?, { s with
      threadQueue := (queue.dropWhile s.stopping).tail
      stopped := fun thread => s.stopped thread || decide (thread ∈ queue.takeWhile s.stopping)
      lockLeft := if queue.dropWhile s.stopping = [] then true else s.lockLeft }) := by
  induction queue generalizing s with
  | nil => simp [popThread]
  | cons head rest ih =>
    unfold popThread
    by_cases hstopping : s.stopping head = true
    · rw [if_pos hstopping, ih]
      · rw [List.dropWhile_cons_of_pos hstopping, List.takeWhile_cons_of_pos hstopping]
        congr 3
        funext thread
        by_cases hthread : thread = head
        · simp [hthread]
        · simp [hthread]
      · intro thread hmem
        dsimp only
        by_cases hthread : thread = head
        · exact fun _ => hthread ▸ hstopping
        · rw [Function.update_of_ne hthread]
          exact hsound thread (List.mem_cons_of_mem head hmem)
    · have hstopped : ¬ s.stopped head = true := fun hstopped =>
        hstopping (hsound head List.mem_cons_self hstopped)
      rw [if_neg hstopping, if_neg hstopped, List.dropWhile_cons_of_neg hstopping,
        List.takeWhile_cons_of_neg hstopping]
      simp

/-- What `scheduler_get` does when it gets the lock. -/
theorem schedulerGet_eq (hlock : s.lockLeft = false)
    (hsound : ∀ thread ∈ s.threadQueue, s.stopped thread → s.stopping thread) :
    ∃ s', schedulerGet s idle = .ok (((view s).take idle).returned, s') ∧ view s' = (view s).get ∧
      (s'.lockLeft = true ↔ (view s).Exhausted) ∧
      s' = { s with
        threadQueue := s'.threadQueue, stopped := s'.stopped, lockLeft := s'.lockLeft } := by
  unfold schedulerGet
  rw [if_neg (Bool.eq_false_iff.mp hlock)]
  by_cases hempty : s.threadQueue = []
  · rw [if_pos hempty]
    refine ⟨s, ?_, ?_, ?_, rfl⟩
    · simp [Waiting.take, Taken.returned, view, hempty]
    · simp [Waiting.get, view, hempty]
    · simp [Waiting.Exhausted, view, hempty, hlock]
  · rw [if_neg hempty, popThread_eq hsound]
    refine ⟨_, rfl, rfl, ?_, rfl⟩
    have hexhausted : (view s).Exhausted ↔ s.threadQueue.dropWhile s.stopping = [] :=
      ⟨fun h => List.dropWhile_eq_nil_iff.mpr h.2, fun h =>
          ⟨hempty, List.dropWhile_eq_nil_iff.mp h⟩⟩
    rw [hexhausted]
    dsimp only
    split_ifs with hnil
    · exact iff_of_true rfl hnil
    · exact iff_of_false (Bool.eq_false_iff.mp hlock) hnil

end Get

section Waiting

variable {w : Waiting T} {idle thread : T} {calls : List (Call T)}

theorem Waiting.take_threads_append_get : w.queue = (w.take idle).threads ++ w.get.queue := by
  have hhead : (w.queue.dropWhile w.stopping).head?.toList ++
      (w.queue.dropWhile w.stopping).tail = w.queue.dropWhile w.stopping := by
    cases w.queue.dropWhile w.stopping <;> rfl
  simp only [Taken.threads, Waiting.take, Waiting.get, List.append_assoc, hhead,
    List.takeWhile_append_dropWhile]

theorem Waiting.run_fifo :
    w.queue ++ inserted calls = (w.run calls).2.flatMap Taken.threads ++ (w.run calls).1.queue := by
  induction calls generalizing w with
  | nil => simp [Waiting.run, inserted]
  | cons call calls ih =>
    cases call with
    | insert thread =>
      have hrest := ih (w := (w.step (.insert thread)).1)
      simp only [Waiting.step, List.append_assoc, List.singleton_append] at hrest
      exact hrest
    | get idle =>
      change w.queue ++ inserted calls =
        (w.take idle :: (w.get.run calls).2).flatMap Taken.threads ++ (w.get.run calls).1.queue
      rw [List.flatMap_cons, List.append_assoc, ← ih, ← List.append_assoc,
        ← Waiting.take_threads_append_get]
    | stop thread => exact ih (w := (w.step (.stop thread)).1)

theorem Waiting.step_stopped {call : Call T} (h : w.stopped thread = true) :
    (w.step call).1.stopped thread = true := by
  cases call with
  | get idle => simp [Waiting.step, Waiting.get, h]
  | insert _ => exact h
  | stop _ => exact h

theorem Waiting.run_stopped (h : w.stopped thread = true) :
    (w.run calls).1.stopped thread = true := by
  induction calls generalizing w with
  | nil => exact h
  | cons call calls ih => exact ih (Waiting.step_stopped h)

theorem Waiting.run_discarded {taken : Taken T} (htaken : taken ∈ (w.run calls).2)
    (hthread : thread ∈ taken.discarded) : (w.run calls).1.stopped thread = true := by
  induction calls generalizing w with
  | nil => exact absurd htaken List.not_mem_nil
  | cons call calls ih =>
    rcases List.mem_append.mp htaken with hfirst | hrest
    · cases call with
      | get idle =>
        obtain rfl := List.mem_singleton.mp hfirst
        refine Waiting.run_stopped (w := w.get) ?_
        have hmem : thread ∈ w.queue.takeWhile w.stopping := hthread
        simp [Waiting.get, hmem]
      | insert _ => exact absurd hfirst List.not_mem_nil
      | stop _ => exact absurd hfirst List.not_mem_nil
    · exact ih hrest

theorem unstuck_of_stops (h : ∀ call ∈ calls, ∃ thread, call = .stop thread) :
    w.Unstuck calls := by
  induction calls generalizing w with
  | nil => trivial
  | cons call calls ih =>
    obtain ⟨thread, rfl⟩ := h call List.mem_cons_self
    exact ⟨fun idle hcall => (by contradiction), ih fun call hmem =>
      h call (List.mem_cons_of_mem _ hmem)⟩

theorem count_filterMap_next_le (log : List (Taken T)) :
    (log.filterMap Taken.next).count thread ≤ (log.flatMap Taken.threads).count thread := by
  induction log with
  | nil => exact Nat.le_refl _
  | cons taken log ih =>
    rw [List.flatMap_cons, List.count_append, Taken.threads, List.count_append]
    cases hnext : taken.next with
    | none =>
      rw [List.filterMap_cons_none hnext]
      omega
    | some next =>
      rw [List.filterMap_cons_some hnext, List.count_cons, Option.toList_some,
        List.count_singleton]
      omega

end Waiting

section Run

variable {s s' : Scheduler.State T} {call : Call T} {calls : List (Call T)} {returned : List T}

theorem run_cons_iff : run s (call :: calls) = .ok (s', returned) ↔
    ∃ s₁ next rest, perform s call = .ok (s₁, next) ∧ run s₁ calls = .ok (s', rest) ∧
      returned = next.toList ++ rest := by
  constructor
  · intro hrun
    obtain ⟨⟨s₁, next⟩, hperform, hrun⟩ := Outcome.bind_eq_ok hrun
    obtain ⟨⟨s₂, rest⟩, hrest, hret⟩ := Outcome.bind_eq_ok hrun
    obtain ⟨rfl, rfl⟩ := Prod.mk.inj (Except.ok.inj hret)
    exact ⟨s₁, next, rest, hperform, hrest, rfl⟩
  · rintro ⟨s₁, next, rest, hperform, hrest, rfl⟩
    rw [run, hperform]
    change (do let (s₂, returned) ← run s₁ calls; return (s₂, next.toList ++ returned)) = _
    rw [hrest]
    rfl

/-- With the lock left held, threads can still be marked, and that is all. -/
theorem stops_of_lockLeft (hlock : s.lockLeft = true)
    (hrun : run s calls = .ok (s', returned)) : ∀ call ∈ calls, ∃ thread, call = .stop thread := by
  induction calls generalizing s returned with
  | nil => exact fun call hmem => absurd hmem List.not_mem_nil
  | cons call calls ih =>
    obtain ⟨s₁, next, rest, hperform, hrest, -⟩ := run_cons_iff.mp hrun
    cases call with
    | insert thread =>
      rw [perform, if_pos hlock] at hperform
      contradiction
    | get idle =>
      rw [perform, schedulerGet, if_pos hlock] at hperform
      contradiction
    | stop thread =>
      obtain ⟨rfl, -⟩ := Prod.mk.inj (Except.ok.inj hperform)
      intro call hmem
      rcases List.mem_cons.mp hmem with rfl | hmem
      · exact ⟨thread, rfl⟩
      · exact ih (s := markStopping s thread) hlock hrest call hmem

omit [DecidableEq T] in
theorem SameElse.trans {s₁ : Scheduler.State T} (h : SameElse s s₁) (h' : SameElse s₁ s') :
    SameElse s s' := by
  unfold SameElse at h h' ⊢
  refine h'.trans ?_
  rw [h]

structure Follows (s : Scheduler.State T) (calls : List (Call T)) (s' : Scheduler.State T) :
    Prop where
  runs : run s calls = .ok (s', ((view s).run calls).2.map Taken.returned)
  left : view s' = ((view s).run calls).1
  others : SameElse s s'

theorem Follows.cons {s₁ : Scheduler.State T}
    (hperform : perform s call =
      .ok (s₁, ((view s).step call).2.map Taken.returned))
    (hview : view s₁ = ((view s).step call).1) (hothers : SameElse s s₁)
    (h : Follows s₁ calls s') : Follows s (call :: calls) s' where
  runs := by
    refine run_cons_iff.mpr ⟨s₁, _, _, hperform, h.runs, ?_⟩
    rw [hview, Waiting.run, List.map_append]
    cases ((view s).step call).2 <;> rfl
  left := by
    rw [h.left, hview]
    rfl
  others := hothers.trans h.others

theorem follows_of_stops (h : ∀ call ∈ calls, ∃ thread, call = .stop thread) :
    ∃ s', Follows s calls s' := by
  induction calls generalizing s with
  | nil => exact ⟨s, rfl, rfl, rfl⟩
  | cons call calls ih =>
    obtain ⟨thread, rfl⟩ := h call List.mem_cons_self
    obtain ⟨s', hfollows⟩ := ih (s := markStopping s thread)
      fun call hmem => h call (List.mem_cons_of_mem _ hmem)
    exact ⟨s', Follows.cons rfl rfl rfl hfollows⟩

theorem follows_of_unstuck (hlock : s.lockLeft = false) (hsound : (view s).Sound calls)
    (hunstuck : (view s).Unstuck calls) : ∃ s', Follows s calls s' := by
  induction calls generalizing s with
  | nil => exact ⟨s, rfl, rfl, rfl⟩
  | cons call calls ih =>
    cases call with
    | insert thread =>
      have hperform : perform s (.insert thread) = .ok (schedulerInsertThread s thread, none) := by
        rw [perform, if_neg (Bool.eq_false_iff.mp hlock)]
      have hinsert : schedulerInsertThread s thread =
          { s with threadQueue := s.threadQueue ++ [thread] } := by
        rw [schedulerInsertThread, if_neg (Bool.eq_false_iff.mp hlock)]
      rw [hinsert] at hperform
      obtain ⟨s', hfollows⟩ := ih (s := { s with threadQueue := s.threadQueue ++ [thread] }) hlock
        hsound.2 hunstuck.2
      exact ⟨s', Follows.cons hperform rfl rfl hfollows⟩
    | get idle =>
      obtain ⟨s₁, hget, hview, hleft, hothers⟩ :=
        @schedulerGet_eq _ _ _ idle hlock (hsound.1 idle rfl)
      have hperform : perform s (.get idle) =
          .ok (s₁, some ((view s).take idle).returned) := by
        rw [perform, hget]
        rfl
      have hsame : SameElse s s₁ := by
        unfold SameElse
        rw [hothers]
      have hrest : ∃ s', Follows s₁ calls s' := by
        by_cases hexhausted : (view s).Exhausted
        · exact follows_of_stops (hunstuck.1 idle rfl hexhausted)
        · refine ih (Bool.eq_false_iff.mpr (mt hleft.mp hexhausted)) ?_ ?_
          · rw [hview]
            exact hsound.2
          · rw [hview]
            exact hunstuck.2
      obtain ⟨s', hfollows⟩ := hrest
      exact ⟨s', Follows.cons hperform hview hsame hfollows⟩
    | stop thread =>
      obtain ⟨s', hfollows⟩ := ih (s := markStopping s thread) hlock hsound.2 hunstuck.2
      exact ⟨s', Follows.cons rfl rfl rfl hfollows⟩

theorem unstuck_of_run (hlock : s.lockLeft = false) (hsound : (view s).Sound calls)
    (hrun : run s calls = .ok (s', returned)) : (view s).Unstuck calls := by
  induction calls generalizing s returned with
  | nil => trivial
  | cons call calls ih =>
    obtain ⟨s₁, next, rest, hperform, hrest, -⟩ := run_cons_iff.mp hrun
    cases call with
    | insert thread =>
      rw [perform, if_neg (Bool.eq_false_iff.mp hlock), schedulerInsertThread,
        if_neg (Bool.eq_false_iff.mp hlock)] at hperform
      obtain ⟨rfl, -⟩ := Prod.mk.inj (Except.ok.inj hperform)
      exact ⟨fun idle hcall => (by contradiction),
        ih (s := { s with threadQueue := s.threadQueue ++ [thread] }) hlock hsound.2 hrest⟩
    | get idle =>
      obtain ⟨s₂, hget, hview, hleft, -⟩ :=
        @schedulerGet_eq _ _ _ idle hlock (hsound.1 idle rfl)
      rw [perform, hget] at hperform
      obtain ⟨rfl, -⟩ := Prod.mk.inj (Except.ok.inj hperform)
      by_cases hexhausted : (view s).Exhausted
      · have hstops := stops_of_lockLeft (hleft.mpr hexhausted) hrest
        exact ⟨fun _ _ _ => hstops, unstuck_of_stops hstops⟩
      · refine ⟨fun _ _ hagain => absurd hagain hexhausted, ?_⟩
        have hfree := Bool.eq_false_iff.mpr (mt hleft.mp hexhausted)
        have hunstuck := ih hfree (by rw [hview]; exact hsound.2) hrest
        rw [hview] at hunstuck
        exact hunstuck
    | stop thread =>
      obtain ⟨rfl, -⟩ := Prod.mk.inj (Except.ok.inj hperform)
      exact ⟨fun idle hcall => (by contradiction),
        ih (s := markStopping s thread) hlock hsound.2 hrest⟩

end Run

section Discipline

variable {s s' : Scheduler.State T} {calls : List (Call T)}

theorem Follows.disciplined (h : Follows s calls s') :
    Disciplined s calls s' (((view s).run calls).2.map Taken.returned) where
  left := h.left
  returned_eq := rfl
  fifo := by
    have hfifo := @Waiting.run_fifo _ _ (view s) calls
    rw [← h.left] at hfifo
    exact hfifo
  stopped taken htaken thread hthread := by
    have hstopped := Waiting.run_discarded htaken hthread
    rw [← h.left] at hstopped
    exact hstopped
  once thread := by
    have hfifo := @Waiting.run_fifo _ _ (view s) calls
    change s.threadQueue ++ inserted calls = _ at hfifo
    rw [hfifo, List.count_append]
    exact (count_filterMap_next_le _).trans (Nat.le_add_right _ _)
  others := h.others

/-- Every sequence of calls, from every queue and with every status of the threads: they return,
and the queue keeps its discipline, if and only if nobody asks for the lock again after a
`scheduler_get` that found nothing but stopping threads. -/
theorem run_disciplined_iff (hlock : s.lockLeft = false) (hsound : (view s).Sound calls) :
    (∃ s' returned, run s calls = .ok (s', returned) ∧ Disciplined s calls s' returned) ↔
      (view s).Unstuck calls := by
  constructor
  · rintro ⟨s', returned, hrun, -⟩
    exact unstuck_of_run hlock hsound hrun
  · intro hunstuck
    obtain ⟨s', hfollows⟩ := follows_of_unstuck hlock hsound hunstuck
    exact ⟨s', _, hfollows.runs, hfollows.disciplined⟩

local instance instNeZeroThreads : NeZero 4 := ⟨by decide⟩

def twoQueued : Scheduler.State (Fin 4) where
  current := [some 0]
  threadQueue := [1, 2]
  sleepQueue := []
  sleep _ := none
  sleeping _ := false
  stopping _ := false
  stopped _ := false
  phase _ := .running
  lockLeft := false

/-- Thread 1 is stopped on its way to a processor, and thread 3 comes behind thread 2. -/
theorem run_disciplined_iff_one_stopped :
    ∃ s' returned, run twoQueued [.stop 1, .insert 3, .get 0, .get 0, .get 0] = .ok (s', returned) ∧
      Disciplined twoQueued [.stop 1, .insert 3, .get 0, .get 0, .get 0] s' returned :=
  (run_disciplined_iff rfl (by
    refine ⟨?_, ?_, ?_, ?_, ?_, trivial⟩ <;> intro idle _ <;> decide)).mpr (by
    refine ⟨?_, ?_, ?_, ?_, ?_, trivial⟩
    · intro idle hcall
      contradiction
    · intro idle hcall
      contradiction
    · exact fun _ _ hexhausted => absurd (hexhausted.2 2 (by decide)) (by decide)
    · exact fun _ _ hexhausted => absurd (hexhausted.2 3 (by decide)) (by decide)
    · exact fun _ _ hexhausted => absurd rfl hexhausted.1)

/-- Both threads are stopping when the processor asks for one; then thread 3 cannot be queued. -/
theorem insert_spins_after_exhausted :
    twoQueued.lockLeft = false ∧
      (view twoQueued).Sound [.stop 1, .stop 2, .get 0, .insert 3, .get 0] ∧
      run twoQueued [.stop 1, .stop 2, .get 0, .insert 3, .get 0] = .error .spin ∧
      ¬ ∃ s' returned,
        run twoQueued [.stop 1, .stop 2, .get 0, .insert 3, .get 0] = .ok (s', returned) ∧
          Disciplined twoQueued [.stop 1, .stop 2, .get 0, .insert 3, .get 0] s' returned := by
  have hspin : run twoQueued [.stop 1, .stop 2, .get 0, .insert 3, .get 0] = .error .spin := rfl
  refine ⟨rfl, ?_, hspin, ?_⟩
  · refine ⟨?_, ?_, ?_, ?_, ?_, trivial⟩ <;> intro idle _ <;> decide
  · rintro ⟨s', returned, hrun, -⟩
    rw [hspin] at hrun
    contradiction

end Discipline

end ReduceOS.RunQueue
