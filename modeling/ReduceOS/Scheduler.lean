import ReduceOS.Outcome
import Mathlib.Data.List.Basic
import Mathlib.Logic.Function.Basic
import Mathlib.Logic.Relation

/-!
The run queue, the sleep queue and the threads that the processors run. A thread goes to sleep
in three steps: it is put in the sleep queue, it is marked as sleeping, and it gives its
processor up. Between them the clock may wake it or take the processor from it, and
the thread is then in two places or soon in none.
-/
namespace ReduceOS.Scheduler

open Outcome

variable {T : Type} [DecidableEq T]

/-- `SLEEP_FLAG_NOCOND`, `SLEEP_FLAG_TIME`, `SLEEP_FLAG_COND` and `SLEEP_FLAG_WAKEUP` -/
inductive SleepState where
  | nocond | time | cond | wakeup
deriving DecidableEq

/-- `thread_sleep_t`, with a number for its address. -/
structure Sleep (T : Type) where
  id : ℕ
  thread : T
  sleepState : SleepState

/-- How far a thread is in `sleep_until…()` and the `process_yield(0)` after it. -/
inductive Phase where
  | running | queued | marked
deriving DecidableEq

structure State (T : Type) where
  /-- `current_thread` of each processor -/
  current : List (Option T)
  threadQueue : List T
  sleepQueue : List (Sleep T)
  /-- `thread->sleep` -/
  sleep : T → Option ℕ
  /-- `THREAD_STATUS_SLEEPING` -/
  sleeping : T → Bool
  /-- `THREAD_STATUS_STOPPING` -/
  stopping : T → Bool
  /-- `THREAD_STATUS_STOPPED` -/
  stopped : T → Bool
  phase : T → Phase
  /-- `scheduler_lock` was left held. -/
  lockLeft : Bool

inductive Stop where
  | panic | spin
deriving DecidableEq

/-- A processor that finds the lock left held spins here, and the thread gets in nowhere. -/
def schedulerInsertThread (s : State T) (thread : T) : State T :=
  if s.lockLeft then s else { s with threadQueue := s.threadQueue ++ [thread] }

/-- The loop of `scheduler_get`. When it runs out of threads it returns without releasing
the lock. -/
def popThread (s : State T) : List T → Except Stop (Option T × State T)
  | [] => .ok (none, { s with threadQueue := [], lockLeft := true })
  | thread :: rest =>
    if s.stopping thread then
      popThread { s with stopped := Function.update s.stopped thread true } rest
    else if s.stopped thread then .error .panic
    else .ok (some thread, { s with threadQueue := rest })

def schedulerGet (s : State T) (idle : T) : Except Stop (T × State T) :=
  if s.lockLeft then .error .spin
  else if s.threadQueue = [] then .ok (idle, s)
  else do
    let (thread, s) ← popThread s s.threadQueue
    return (thread.getD idle, s)

def setCurrent (s : State T) (cpu : ℕ) (thread : T) : State T :=
  { s with current := s.current.set cpu (some thread) }

def processSwitchNextThread (s : State T) (cpu : ℕ) (idle : T) : Except Stop (State T) := do
  let (next, s) ← schedulerGet s idle
  return setCurrent s cpu next

def processYield (s : State T) (cpu : ℕ) (idle : T) (reschedule : Bool) :
    Except Stop (State T) :=
  match s.current[cpu]?.join with
  | none => processSwitchNextThread s cpu idle
  | some prev => do
    let (next, s) ← schedulerGet s idle
    let s := setCurrent s cpu next
    if reschedule && !s.sleeping prev then return schedulerInsertThread s prev else return s

/-- The `sleep_until…` functions up to the release of the queue's lock. -/
def queueSleep (s : State T) (id : ℕ) (thread : T) (sleepState : SleepState) : State T :=
  { s with
    sleep := Function.update s.sleep thread (some id)
    sleepQueue := s.sleepQueue ++ [⟨id, thread, sleepState⟩]
    phase := Function.update s.phase thread .queued }

def markSleeping (s : State T) (thread : T) : State T :=
  { s with
    sleeping := Function.update s.sleeping thread true
    phase := Function.update s.phase thread .marked }

/-- Does `sleep_callback` wake this one? Times and conditions are the outside world's. -/
def wakes (ready : T → Bool) (sleep : Sleep T) : Bool :=
  match sleep.sleepState with
  | .nocond => false
  | .time => ready sleep.thread
  | .cond => ready sleep.thread
  | .wakeup => true

/-- `sleep_callback`. `list_delete` clears the `next` of the node it takes out, so the walk ends
with the first thread woken. -/
def sleepCallback (s : State T) (ready : T → Bool) : State T :=
  match s.sleepQueue.find? (wakes ready) with
  | none => s
  | some sleep =>
    let s := { s with
      sleepQueue := s.sleepQueue.eraseP (wakes ready)
      sleeping := Function.update s.sleeping sleep.thread false }
    if s.lockLeft then s
    else { schedulerInsertThread s sleep.thread with
      sleep := Function.update s.sleep sleep.thread none }

def sleepWakeup (s : State T) (thread : T) : State T :=
  match s.sleep thread with
  | none => s
  | some id => { s with
      sleepQueue := s.sleepQueue.map fun sleep =>
        if sleep.id = id then { sleep with sleepState := .wakeup } else sleep }

inductive Event (T : Type) where
  | sleep (cpu : ℕ) (thread : T) (id : ℕ) (sleepState : SleepState)
  | mark (cpu : ℕ) (thread : T)
  | yield (cpu : ℕ) (thread : T)
  | preempt (cpu : ℕ) (thread : T)
  | switchNext (cpu : ℕ)
  | tick (ready : T → Bool)
  | wakeup (thread : T)
  | stop (thread : T)

variable (idle : ℕ → T)

def Runs (s : State T) (cpu : ℕ) (thread : T) : Prop := s.current[cpu]? = some (some thread)

instance (s : State T) (cpu : ℕ) (thread : T) : Decidable (Runs s cpu thread) :=
  inferInstanceAs (Decidable (_ = _))

/-- When an event can happen. The idle threads neither sleep nor are they preempted, and only
they, processors without a thread and exiting threads switch without a yield. -/
def Event.Enabled (s : State T) : Event T → Prop
  | .sleep cpu thread id sleepState => Runs s cpu thread ∧ idle cpu ≠ thread ∧
      s.phase thread = .running ∧ sleepState ≠ .wakeup ∧ ∀ sleep ∈ s.sleepQueue, sleep.id ≠ id
  | .mark cpu thread => Runs s cpu thread ∧ s.phase thread = .queued
  | .yield cpu thread => Runs s cpu thread ∧ s.phase thread = .marked
  | .preempt cpu thread => Runs s cpu thread ∧ idle cpu ≠ thread
  | .switchNext cpu => cpu < s.current.length ∧
      ∀ thread, Runs s cpu thread → thread = idle cpu ∨ s.stopping thread = true
  | .tick _ => True
  | .wakeup _ => True
  | .stop _ => True

def Event.run (s : State T) : Event T → Except Stop (State T)
  | .sleep _ thread id sleepState => .ok (queueSleep s id thread sleepState)
  | .mark _ thread => .ok (markSleeping s thread)
  | .yield cpu thread =>
    processYield { s with phase := Function.update s.phase thread .running } cpu (idle cpu) false
  | .preempt cpu _ => processYield s cpu (idle cpu) true
  | .switchNext cpu => processSwitchNextThread s cpu (idle cpu)
  | .tick ready => .ok (sleepCallback s ready)
  | .wakeup thread => .ok (sleepWakeup s thread)
  | .stop thread => .ok { s with stopping := Function.update s.stopping thread true }

def Poppable (s : State T) : Prop :=
  s.threadQueue = [] ∨ ∃ thread ∈ s.threadQueue, s.stopping thread = false

/-- No thread loses its processor or is woken between its sleep call and its yield, and
`scheduler_get` does not run out of threads inside its loop. -/
def Event.Undisturbed (s : State T) : Event T → Prop
  | .sleep _ _ _ _ => True
  | .mark _ _ => True
  | .yield _ _ => Poppable s
  | .preempt _ thread => Poppable s ∧ (s.stopping thread = false → s.phase thread = .running)
  | .switchNext _ => Poppable s
  | .tick ready => ∀ sleep, s.sleepQueue.find? (wakes ready) = some sleep →
      s.stopping sleep.thread = false → s.phase sleep.thread = .running
  | .wakeup _ => True
  | .stop _ => True

def Step (allowed : State T → Event T → Prop) (s s' : State T) : Prop :=
  ∃ event : Event T, event.Enabled idle s ∧ allowed s event ∧ event.run idle s = .ok s'

def asleep (s : State T) (thread : T) : ℕ := (s.sleepQueue.map Sleep.thread).count thread

/-- In how many places a thread is. Between the sleep call and the yield it counts as current
only. -/
def places (s : State T) (thread : T) : ℕ :=
  s.current.count (some thread) + s.threadQueue.count thread +
    if s.phase thread ≠ .running ∧ some thread ∈ s.current then 0 else asleep s thread

/-- A thread the scheduler has to keep: no idle thread, and not on its way out. -/
structure Live (s : State T) (thread : T) : Prop where
  not_idle : ∀ cpu, idle cpu ≠ thread
  not_stopping : s.stopping thread = false
  not_stopped : s.stopped thread = false

/-- Every thread is in one place, none is in the middle of going to sleep, and the sleeping are
marked. -/
structure Settled (s : State T) : Prop where
  lock_free : s.lockLeft = false
  one_place : ∀ thread, Live idle s thread →
    s.current.count (some thread) + s.threadQueue.count thread + asleep s thread = 1
  running : ∀ thread, Live idle s thread → s.phase thread = .running
  awake : ∀ thread, Live idle s thread → asleep s thread = 0 → s.sleeping thread = false

def Placed (s : State T) (thread : T) : Prop :=
  match s.phase thread with
  | .running => s.current.count (some thread) + s.threadQueue.count thread + asleep s thread = 1 ∧
      (asleep s thread = 0 → s.sleeping thread = false)
  | _ => s.current.count (some thread) = 1 ∧ s.threadQueue.count thread = 0 ∧ asleep s thread = 1

structure Kept (s : State T) : Prop where
  lock_free : s.lockLeft = false
  placed : ∀ thread, Live idle s thread → Placed s thread

structure Switched (s : State T) (cpu : ℕ) (next : T) (s' : State T) : Prop where
  lock_free : s'.lockLeft = false
  current_eq : s'.current = s.current.set cpu (some next)
  stopping_eq : s'.stopping = s.stopping
  sleepQueue_eq : s'.sleepQueue = s.sleepQueue
  sleeping_eq : s'.sleeping = s.sleeping
  phase_eq : s'.phase = s.phase
  stopped_eq : ∀ thread, s.stopping thread = false → s'.stopped thread = s.stopped thread
  count_eq : ∀ thread, (∀ cpu, idle cpu ≠ thread) → s.stopping thread = false →
    s.threadQueue.count thread = s'.threadQueue.count thread + if next = thread then 1 else 0

variable {idle}

section Queue

variable {s s' : State T} {thread next : T} {cpu : ℕ}

theorem Settled.kept (h : Settled idle s) : Kept idle s where
  lock_free := h.lock_free
  placed thread hlive := by
    unfold Placed
    rw [h.running thread hlive]
    exact ⟨h.one_place thread hlive, h.awake thread hlive⟩

theorem Placed.places_eq (h : Placed s thread) : places s thread = 1 := by
  unfold Placed at h
  unfold places
  split at h
  · rename_i hphase
    rw [if_neg fun hmid => hmid.1 hphase]
    exact h.1
  · rename_i hphase
    have hmem : some thread ∈ s.current := List.count_pos_iff.mp (by omega)
    rw [if_pos ⟨fun hrunning => hphase hrunning, hmem⟩]
    omega

structure Took (s : State T) (next : Option T) (s' : State T) : Prop where
  eq : s' = { s with
    threadQueue := s'.threadQueue, stopped := s'.stopped, lockLeft := s'.lockLeft }
  stopped_eq : ∀ thread, s.stopping thread = false → s'.stopped thread = s.stopped thread
  count_eq : ∀ thread, s.stopping thread = false →
    s.threadQueue.count thread = s'.threadQueue.count thread + if next = some thread then 1 else 0

theorem popThread_took {queue : List T} {next : Option T}
    (hpop : popThread s queue = .ok (next, s')) :
    Took { s with threadQueue := queue } next s' ∧
      ((∃ thread ∈ queue, s.stopping thread = false) → s'.lockLeft = s.lockLeft) := by
  induction queue generalizing s with
  | nil =>
    obtain ⟨rfl, rfl⟩ := Prod.mk.inj (Except.ok.inj hpop)
    exact ⟨⟨rfl, fun _ _ => rfl, fun _ _ => rfl⟩, fun ⟨_, hmem, _⟩ => absurd hmem List.not_mem_nil⟩
  | cons head rest ih =>
    unfold popThread at hpop
    split_ifs at hpop with hstopping hstopped
    · obtain ⟨⟨heq, hstop, hcount⟩, hlock⟩ := ih hpop
      have hne : ∀ thread, s.stopping thread = false → head ≠ thread := by
        intro thread hthread he
        rw [he, hthread] at hstopping
        exact Bool.noConfusion hstopping
      refine ⟨⟨heq, fun thread hthread => ?_, fun thread hthread => ?_⟩, ?_⟩
      · rw [hstop thread hthread]
        exact Function.update_of_ne (hne thread hthread).symm _ _
      · rw [← hcount thread hthread]
        exact List.count_cons_of_ne (hne thread hthread)
      · rintro ⟨thread, hmem, hthread⟩
        rcases List.mem_cons.mp hmem with rfl | hmem
        · exact absurd rfl (hne thread hthread)
        · exact hlock ⟨thread, hmem, hthread⟩
    · obtain ⟨rfl, rfl⟩ := Prod.mk.inj (Except.ok.inj hpop)
      refine ⟨⟨rfl, fun _ _ => rfl, fun thread _ => ?_⟩, fun _ => rfl⟩
      simp only [List.count_cons, beq_iff_eq, Option.some.injEq]

theorem schedulerGet_took (hget : schedulerGet s (idle cpu) = .ok (next, s'))
    (hpoppable : Poppable s) :
    s'.lockLeft = false ∧ s' = { s with threadQueue := s'.threadQueue, stopped := s'.stopped } ∧
      (∀ thread, s.stopping thread = false → s'.stopped thread = s.stopped thread) ∧
      ∀ thread, (∀ cpu, idle cpu ≠ thread) → s.stopping thread = false →
        s.threadQueue.count thread =
          s'.threadQueue.count thread + if next = thread then 1 else 0 := by
  unfold schedulerGet at hget
  split_ifs at hget with hlocked hempty
  · obtain ⟨rfl, rfl⟩ := Prod.mk.inj (Except.ok.inj hget)
    refine ⟨Bool.eq_false_iff.mpr hlocked, rfl, fun _ _ => rfl, fun thread hidle _ => ?_⟩
    rw [if_neg (hidle cpu)]
    rfl
  · cases hpop : popThread s s.threadQueue with
    | error e => rw [hpop] at hget; contradiction
    | ok r =>
      obtain ⟨popped, s₁⟩ := r
      rw [hpop] at hget
      obtain ⟨rfl, rfl⟩ := Prod.mk.inj (Except.ok.inj hget)
      obtain ⟨⟨heq, hstop, hcount⟩, hlock⟩ := popThread_took hpop
      have hfree : s₁.lockLeft = s.lockLeft := hlock (hpoppable.resolve_left hempty)
      refine ⟨hfree.trans (Bool.eq_false_iff.mpr hlocked), ?_, hstop,
          fun thread hidle hthread => ?_⟩
      · rw [hfree] at heq
        exact heq
      · rw [hcount thread hthread]
        congr 1
        cases popped with
        | none => simp [hidle cpu]
        | some u => simp

theorem switched_of_schedulerGet (hget : schedulerGet s (idle cpu) = .ok (next, s'))
    (hpoppable : Poppable s) : Switched idle s cpu next (setCurrent s' cpu next) := by
  obtain ⟨hlock, heq, hstop, hcount⟩ := schedulerGet_took hget hpoppable
  refine ⟨hlock, ?_, ?_, ?_, ?_, ?_, hstop, hcount⟩ <;> rw [heq] <;> rfl

theorem count_set_current {l : List (Option T)} (hcpu : cpu < l.length) :
    (l.set cpu (some next)).count (some thread) + (if l[cpu]? = some (some thread) then 1 else 0) =
      l.count (some thread) + if next = thread then 1 else 0 := by
  rw [List.count_set hcpu, List.getElem?_eq_getElem hcpu]
  have hone : l[cpu] = some thread → 0 < l.count (some thread) := fun h =>
    List.count_pos_iff.mpr (h ▸ List.getElem_mem hcpu)
  simp only [beq_iff_eq, Option.some.injEq]
  split_ifs with h₁ h₂
  · have := hone h₁
    omega
  · have := hone h₁
    omega
  · omega
  · omega

theorem Switched.live (h : Switched idle s cpu next s') (hlive : Live idle s' thread) :
    Live idle s thread := by
  have hstopping : s.stopping thread = false := h.stopping_eq ▸ hlive.not_stopping
  exact ⟨hlive.not_idle, hstopping, (h.stopped_eq thread hstopping) ▸ hlive.not_stopped⟩

theorem Switched.asleep_eq (h : Switched idle s cpu next s') :
    asleep s' thread = asleep s thread := by
  unfold asleep
  rw [h.sleepQueue_eq]

theorem Switched.count_current (h : Switched idle s cpu next s') (hcpu : cpu < s.current.length)
    (thread : T) :
    s'.current.count (some thread) + (if Runs s cpu thread then 1 else 0) =
      s.current.count (some thread) + if next = thread then 1 else 0 := by
  rw [h.current_eq]
  exact count_set_current hcpu

/-- A thread the processor did not run keeps its place, or is the one it runs now. -/
theorem Switched.placed (h : Switched idle s cpu next s') (hcpu : cpu < s.current.length)
    (hlive : Live idle s thread) (hnot : ¬ Runs s cpu thread) (hplaced : Placed s thread) :
    Placed s' thread := by
  have hcur := h.count_current hcpu thread
  have hqueue := h.count_eq thread hlive.not_idle hlive.not_stopping
  rw [if_neg hnot] at hcur
  unfold Placed at hplaced ⊢
  rw [h.phase_eq, h.asleep_eq, h.sleeping_eq]
  split at hplaced
  · exact ⟨by omega, hplaced.2⟩
  · split_ifs at hcur hqueue
    · omega
    · exact ⟨by omega, by omega, hplaced.2.2⟩

/-- A thread that is only current is nowhere once its processor has switched. -/
theorem Switched.nowhere (h : Switched idle s cpu next s') (hcpu : cpu < s.current.length)
    (hlive : Live idle s thread) (hruns : Runs s cpu thread)
    (hone : s.current.count (some thread) = 1) (hnone : s.threadQueue.count thread = 0) :
    s'.current.count (some thread) = 0 ∧ s'.threadQueue.count thread = 0 := by
  have hcur := h.count_current hcpu thread
  have hqueue := h.count_eq thread hlive.not_idle hlive.not_stopping
  rw [if_pos hruns] at hcur
  split_ifs at hcur hqueue
  · omega
  · omega

omit [DecidableEq T] in
theorem Runs.lt_length (h : Runs s cpu thread) : cpu < s.current.length :=
  (List.getElem?_eq_some_iff.mp h).1

theorem Runs.count_pos (h : Runs s cpu thread) : 0 < s.current.count (some thread) :=
  List.count_pos_iff.mpr (List.mem_of_getElem? h)

end Queue

section Events

variable {s s' : State T} {thread : T} {cpu : ℕ}

theorem sleep_kept (h : Kept idle s) (hruns : Runs s cpu thread)
    (hphase : s.phase thread = .running)
    (id : ℕ) (sleepState : SleepState) : Kept idle (queueSleep s id thread sleepState) := by
  refine ⟨h.lock_free, fun t hlive => ?_⟩
  have hplaced := h.placed t ⟨hlive.not_idle, hlive.not_stopping, hlive.not_stopped⟩
  unfold Placed asleep at hplaced ⊢
  simp only [queueSleep, List.map_append, List.map_cons, List.map_nil, List.count_append]
  by_cases ht : t = thread
  · subst ht
    rw [hphase] at hplaced
    have hcount := hruns.count_pos
    simp only [Function.update_self, List.count_singleton_self]
    exact ⟨by omega, by omega, by omega⟩
  · rw [Function.update_of_ne ht, List.count_singleton, if_neg (by simpa using Ne.symm ht)]
    exact hplaced

theorem mark_kept (h : Kept idle s) (hphase : s.phase thread = .queued) :
    Kept idle (markSleeping s thread) := by
  refine ⟨h.lock_free, fun t hlive => ?_⟩
  have hplaced := h.placed t ⟨hlive.not_idle, hlive.not_stopping, hlive.not_stopped⟩
  unfold Placed asleep at hplaced ⊢
  simp only [markSleeping]
  by_cases ht : t = thread
  · subst ht
    rw [hphase] at hplaced
    rw [Function.update_self]
    exact hplaced
  · rw [Function.update_of_ne ht, Function.update_of_ne ht]
    exact hplaced

omit [DecidableEq T] in
theorem Runs.eq {t : T} (h : Runs s cpu thread) (h' : Runs s cpu t) : t = thread :=
  Option.some.inj (Option.some.inj (h'.symm.trans h))

/-- A yield is a switch, after which the thread goes back to the queue or not. -/
theorem processYield_switched {reschedule : Bool} (hruns : Runs s cpu thread)
    (hpoppable : Poppable s) (hyield : processYield s cpu (idle cpu) reschedule = .ok s') :
    ∃ next s₁, Switched idle s cpu next s₁ ∧
      s' = if reschedule && !s.sleeping thread then schedulerInsertThread s₁ thread else s₁ := by
  unfold processYield at hyield
  rw [show s.current[cpu]?.join = some thread by rw [hruns]; rfl] at hyield
  obtain ⟨⟨next, s₁⟩, hget, hrest⟩ := bind_eq_ok hyield
  have hs := switched_of_schedulerGet hget hpoppable
  refine ⟨next, setCurrent s₁ cpu next, hs, ?_⟩
  rw [← hs.sleeping_eq]
  dsimp only at hrest
  split_ifs at hrest ⊢
  · exact (Except.ok.inj hrest).symm
  · exact (Except.ok.inj hrest).symm

theorem yield_kept (h : Kept idle s) (hruns : Runs s cpu thread) (hphase : s.phase thread = .marked)
    (hpoppable : Poppable s)
    (hyield : processYield
        { s with phase := Function.update s.phase thread .running } cpu (idle cpu)
      false = .ok s') : Kept idle s' := by
  have hruns' : Runs { s with phase := Function.update s.phase thread .running } cpu thread := hruns
  obtain ⟨next, s₁, hs, heq⟩ := processYield_switched hruns' hpoppable hyield
  rw [Bool.false_and, if_neg Bool.false_ne_true] at heq
  subst heq
  refine ⟨hs.lock_free, fun t hlive => ?_⟩
  have hlive' := hs.live hlive
  have hplaced := h.placed t ⟨hlive'.not_idle, hlive'.not_stopping, hlive'.not_stopped⟩
  by_cases ht : t = thread
  · subst ht
    unfold Placed at hplaced
    rw [hphase] at hplaced
    obtain ⟨hcur, hqueue⟩ := hs.nowhere hruns.lt_length hlive' hruns hplaced.1 hplaced.2.1
    unfold Placed
    rw [hs.phase_eq, hs.asleep_eq, hcur, hqueue]
    simp only [Function.update_self]
    exact ⟨by rw [Nat.add_zero, Nat.zero_add]; exact hplaced.2.2, fun hzero =>
      absurd (hplaced.2.2.symm.trans hzero) Nat.one_ne_zero⟩
  · refine hs.placed hruns.lt_length hlive' (fun hruns' => ht (hruns.eq hruns')) ?_
    unfold Placed at hplaced ⊢
    simp only [Function.update_of_ne ht]
    exact hplaced

theorem preempt_kept (h : Kept idle s) (hruns : Runs s cpu thread)
    (hphase : s.stopping thread = false → s.phase thread = .running) (hpoppable : Poppable s)
    (hyield : processYield s cpu (idle cpu) true = .ok s') : Kept idle s' := by
  obtain ⟨next, s₁, hs, heq⟩ := processYield_switched hruns hpoppable hyield
  have hinsert : schedulerInsertThread s₁ thread =
      { s₁ with threadQueue := s₁.threadQueue ++ [thread] } := by
    unfold schedulerInsertThread
    rw [if_neg (Bool.eq_false_iff.mp hs.lock_free)]
  rw [hinsert, Bool.true_and] at heq
  have hothers : ∀ t, Live idle s₁ t → t ≠ thread → Placed s₁ t := fun t hlive ht =>
    hs.placed hruns.lt_length (hs.live hlive) (fun hruns' => ht (hruns.eq hruns'))
      (h.placed t (hs.live hlive))
  by_cases hsleeping : s.sleeping thread = true
  · rw [hsleeping, Bool.not_true, if_neg Bool.false_ne_true] at heq
    subst heq
    refine ⟨hs.lock_free, fun t hlive => ?_⟩
    by_cases ht : t = thread
    · subst ht
      have hplaced := h.placed t (hs.live hlive)
      unfold Placed at hplaced
      rw [hphase (hs.live hlive).not_stopping] at hplaced
      have hcount := hruns.count_pos
      rw [hplaced.2 (by omega)] at hsleeping
      exact Bool.noConfusion hsleeping
    · exact hothers t hlive ht
  · rw [Bool.eq_false_iff.mpr hsleeping, Bool.not_false, if_pos rfl] at heq
    subst heq
    refine ⟨hs.lock_free, fun t hlive => ?_⟩
    have hlive₁ : Live idle s₁ t := ⟨hlive.not_idle, hlive.not_stopping, hlive.not_stopped⟩
    by_cases ht : t = thread
    · subst ht
      have hplaced := h.placed t (hs.live hlive₁)
      unfold Placed at hplaced
      rw [hphase (hs.live hlive₁).not_stopping] at hplaced
      have hcount := hruns.count_pos
      obtain ⟨hcur, hqueue⟩ := hs.nowhere hruns.lt_length (hs.live hlive₁) hruns (by omega)
          (by omega)
      have hasleep : asleep s₁ t = 0 := hs.asleep_eq.trans (by omega)
      unfold Placed asleep
      rw [hs.phase_eq, hphase (hs.live hlive₁).not_stopping]
      simp only [List.count_append, List.count_singleton_self, hcur, hqueue]
      unfold asleep at hasleep
      refine ⟨by omega, fun _ => ?_⟩
      rw [hs.sleeping_eq]
      exact Bool.eq_false_iff.mpr hsleeping
    · have hplaced := hothers t hlive₁ ht
      unfold Placed asleep at hplaced ⊢
      simp only [List.count_append, List.count_singleton, beq_iff_eq, if_neg (Ne.symm ht),
          Nat.add_zero]
      exact hplaced

theorem switchNext_kept (h : Kept idle s) (hcpu : cpu < s.current.length)
    (hleaves : ∀ t, Runs s cpu t → t = idle cpu ∨ s.stopping t = true) (hpoppable : Poppable s)
    (hswitch : processSwitchNextThread s cpu (idle cpu) = .ok s') : Kept idle s' := by
  obtain ⟨⟨next, s₁⟩, hget, hrest⟩ := bind_eq_ok hswitch
  obtain rfl := Except.ok.inj hrest
  have hs := switched_of_schedulerGet hget hpoppable
  refine ⟨hs.lock_free, fun t hlive => ?_⟩
  have hlive' := hs.live hlive
  refine hs.placed hcpu hlive' (fun hruns => ?_) (h.placed t hlive')
  rcases hleaves t hruns with hidle | hstopping
  · exact hlive'.not_idle cpu hidle.symm
  · rw [hlive'.not_stopping] at hstopping
    exact Bool.noConfusion hstopping

/-- Taking the first entry that is woken out of the queue. -/
theorem count_eraseP_wakes {ready : T → Bool} {queue : List (Sleep T)} {sleep : Sleep T}
    (hfind : queue.find? (wakes ready) = some sleep) (thread : T) :
    (queue.map Sleep.thread).count thread =
      ((queue.eraseP (wakes ready)).map Sleep.thread).count thread +
        if sleep.thread = thread then 1 else 0 := by
  induction queue with
  | nil => contradiction
  | cons head rest ih =>
    by_cases hwakes : wakes ready head = true
    · rw [List.find?_cons_of_pos hwakes] at hfind
      obtain rfl := Option.some.inj hfind
      rw [List.eraseP_cons_of_pos hwakes, List.map_cons, List.count_cons]
      simp only [beq_iff_eq]
    · rw [List.find?_cons_of_neg hwakes] at hfind
      rw [List.eraseP_cons_of_neg hwakes, List.map_cons, List.map_cons, List.count_cons,
        List.count_cons, ih hfind]
      omega

theorem tick_kept (h : Kept idle s) {ready : T → Bool}
    (hclear : ∀ sleep, s.sleepQueue.find? (wakes ready) = some sleep →
      s.stopping sleep.thread = false → s.phase sleep.thread = .running) :
    Kept idle (sleepCallback s ready) := by
  unfold sleepCallback
  cases hfind : s.sleepQueue.find? (wakes ready) with
  | none => exact h
  | some sleep =>
    have hfree : ¬ s.lockLeft = true := Bool.eq_false_iff.mp h.lock_free
    simp only [schedulerInsertThread, if_neg hfree]
    refine ⟨h.lock_free, fun t hlive => ?_⟩
    have hplaced := h.placed t ⟨hlive.not_idle, hlive.not_stopping, hlive.not_stopped⟩
    have hcount := count_eraseP_wakes hfind t
    unfold Placed asleep at hplaced ⊢
    simp only [List.count_append, List.count_singleton, beq_iff_eq]
    by_cases ht : t = sleep.thread
    · subst ht
      rw [hclear sleep hfind hlive.not_stopping] at hplaced ⊢
      simp only [if_true] at hcount ⊢
      exact ⟨by omega, fun _ => Function.update_self _ _ _⟩
    · rw [if_neg (Ne.symm ht), Nat.add_zero] at hcount ⊢
      rw [Function.update_of_ne ht, ← hcount]
      exact hplaced

theorem sleepWakeup_kept (h : Kept idle s) (thread : T) : Kept idle (sleepWakeup s thread) := by
  unfold sleepWakeup
  cases s.sleep thread with
  | none => exact h
  | some id =>
    refine ⟨h.lock_free, fun t hlive => ?_⟩
    have hplaced := h.placed t ⟨hlive.not_idle, hlive.not_stopping, hlive.not_stopped⟩
    have hmap : (s.sleepQueue.map fun sleep =>
        if sleep.id = id then { sleep with sleepState := .wakeup } else sleep).map Sleep.thread =
        s.sleepQueue.map Sleep.thread := by
      rw [List.map_map]
      refine List.map_congr_left fun sleep _ => ?_
      simp only [Function.comp]
      split_ifs <;> rfl
    unfold Placed asleep at hplaced ⊢
    simp only [hmap]
    exact hplaced

theorem stop_kept (h : Kept idle s) (thread : T) :
    Kept idle { s with stopping := Function.update s.stopping thread true } := by
  refine ⟨h.lock_free, fun t hlive => h.placed t ⟨hlive.not_idle, ?_, hlive.not_stopped⟩⟩
  have hstopping := hlive.not_stopping
  by_cases ht : t = thread
  · subst ht
    simp only [Function.update_self] at hstopping
    exact Bool.noConfusion hstopping
  · simp only [Function.update_of_ne ht] at hstopping
    exact hstopping

end Events

section Runs

variable {s₀ s s' : State T}

theorem Step.kept (h : Kept idle s) (hstep : Step idle Event.Undisturbed s s') : Kept idle s' := by
  obtain ⟨event, henabled, hclear, hrun⟩ := hstep
  cases event with
  | sleep cpu thread id sleepState =>
    obtain rfl := Except.ok.inj hrun
    exact sleep_kept h henabled.1 henabled.2.2.1 id sleepState
  | mark cpu thread =>
    obtain rfl := Except.ok.inj hrun
    exact mark_kept h henabled.2
  | yield cpu thread => exact yield_kept h henabled.1 henabled.2 hclear hrun
  | preempt cpu thread => exact preempt_kept h henabled.1 hclear.2 hclear.1 hrun
  | switchNext cpu => exact switchNext_kept h henabled.1 henabled.2 hclear hrun
  | tick ready =>
    obtain rfl := Except.ok.inj hrun
    exact tick_kept h hclear
  | wakeup thread =>
    obtain rfl := Except.ok.inj hrun
    exact sleepWakeup_kept h thread
  | stop thread =>
    obtain rfl := Except.ok.inj hrun
    exact stop_kept h thread

theorem kept_of_run (h : Kept idle s)
    (hrun : Relation.ReflTransGen (Step idle Event.Undisturbed) s s') :
    Kept idle s' := by
  induction hrun with
  | refl => exact h
  | tail _ hlast ih => exact hlast.kept ih

/-- Every live thread is in exactly one place while no thread is disturbed on its way to sleep. -/
theorem places_eq_one_of_undisturbed (h₀ : Settled idle s₀)
    (hrun : Relation.ReflTransGen (Step idle Event.Undisturbed) s₀ s) {thread : T}
    (hlive : Live idle s thread) : places s thread = 1 :=
  ((kept_of_run h₀.kept hrun).placed thread hlive).places_eq

end Runs

section TwoProcessors

def idleOf (cpu : ℕ) : Fin 4 := if cpu = 0 then 0 else 1

/-- Thread 2 runs on the first processor and thread 3 is queued. -/
def twoProcessors : State (Fin 4) where
  current := [some 2, some 1]
  threadQueue := [3]
  sleepQueue := []
  sleep _ := none
  sleeping _ := false
  stopping _ := false
  stopped _ := false
  phase _ := .running
  lockLeft := false

theorem twoProcessors_settled : Settled idleOf twoProcessors where
  lock_free := rfl
  one_place thread hlive := by
    have h0 := hlive.not_idle 0
    have h1 := hlive.not_idle 1
    clear hlive
    revert thread
    decide
  running _ _ := rfl
  awake _ _ _ := rfl

/-- Thread 2 goes to sleep undisturbed, is woken and queued behind thread 3. -/
theorem places_eq_one_of_undisturbed_wakeup :
    ∃ s, Relation.ReflTransGen (Step idleOf Event.Undisturbed) twoProcessors s ∧
      s.threadQueue = [2] ∧ s.current = [some 3, some 1] ∧ places s 2 = 1 := by
  have hrun : Relation.ReflTransGen (Step idleOf Event.Undisturbed) twoProcessors
      { twoProcessors with
        current := [some 3, some 1]
        threadQueue := [2]
        sleep := Function.update (Function.update twoProcessors.sleep 2 (some 7)) 2 none
        sleeping := Function.update (Function.update twoProcessors.sleeping 2 true) 2 false
        phase := Function.update (Function.update (Function.update twoProcessors.phase 2 .queued)
          2 .marked) 2 .running } := by
    refine Relation.ReflTransGen.head ⟨.sleep 0 2 7 .nocond, ⟨rfl, by decide, rfl, by decide,
      by decide⟩, trivial, rfl⟩ ?_
    refine Relation.ReflTransGen.head ⟨.mark 0 2, ⟨rfl, rfl⟩, trivial, rfl⟩ ?_
    refine Relation.ReflTransGen.head ⟨.yield 0 2, ⟨rfl, rfl⟩, Or.inr ⟨3, by decide, rfl⟩, rfl⟩ ?_
    refine Relation.ReflTransGen.head ⟨.wakeup 2, trivial, trivial, rfl⟩ ?_
    refine Relation.ReflTransGen.single ⟨.tick fun _ => false, trivial, ?_, rfl⟩
    intro sleep hfind _
    obtain rfl := Option.some.inj hfind
    rfl
  exact ⟨_, hrun, rfl, rfl, places_eq_one_of_undisturbed twoProcessors_settled hrun
    ⟨fun cpu => by unfold idleOf; split_ifs <;> decide, rfl, rfl⟩⟩

/-- Thread 2 is woken between its sleep call and its yield; the other processor then runs it
too. -/
theorem woken_thread_runs_twice :
    ∃ s, Settled idleOf twoProcessors ∧
      Relation.ReflTransGen (Step idleOf fun _ _ => True) twoProcessors s ∧
      Live idleOf s 2 ∧ s.current = [some 2, some 2] ∧ places s 2 = 2 := by
  have hrun : Relation.ReflTransGen (Step idleOf fun _ _ => True) twoProcessors
      { twoProcessors with
        current := [some 2, some 2]
        threadQueue := [3]
        sleep := Function.update (Function.update twoProcessors.sleep 2 (some 7)) 2 none
        sleeping := Function.update twoProcessors.sleeping 2 false
        phase := Function.update twoProcessors.phase 2 .queued } := by
    refine Relation.ReflTransGen.head ⟨.sleep 0 2 7 .time, ⟨rfl, by decide, rfl, by decide,
      by decide⟩, trivial, rfl⟩ ?_
    refine Relation.ReflTransGen.head ⟨.tick fun _ => true, trivial, trivial, rfl⟩ ?_
    refine Relation.ReflTransGen.head ⟨.switchNext 1, ⟨by decide, fun thread hruns => ?_⟩, trivial,
      rfl⟩ ?_
    · exact Or.inl (Option.some.inj (Option.some.inj hruns)).symm
    · exact Relation.ReflTransGen.single ⟨.preempt 1 3, ⟨rfl, by decide⟩, trivial, rfl⟩
  exact ⟨_, twoProcessors_settled, hrun,
    ⟨fun cpu => by unfold idleOf; split_ifs <;> decide, rfl, rfl⟩, rfl, by decide⟩

end TwoProcessors

end ReduceOS.Scheduler
