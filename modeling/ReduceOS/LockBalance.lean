import ReduceOS.Outcome
import ReduceOS.Scheduler
import ReduceOS.Hashmap

/-!
The two spinlocks of the scheduler and of the ARP cache, with the functions that take them told
step by step. A function that returns while it holds its lock is not seen to be at fault before
the next one waits for it. Two do: `scheduler_get` when it runs out of threads inside its loop,
and `arp_remove_entry` when there is no entry.
-/
namespace ReduceOS.LockBalance

open Machine Hashmap Outcome

/-- What keeps a call from returning: a panic, a fault at `NULL`, a lock that is held, or a chain
of the hash map that does not end. -/
inductive Stop where
  | panic | fault | spin | hang
deriving DecidableEq

structure ArpTableEntry where
  address : BitVec 32
  hwtype : CInt
  hwmac : Fin 6 → BitVec 8
  nic : Addr

/-- `thread_queue` and `arp_map` are `NULL` before their subsystems are initialised. The entries
are those in memory that is allocated. -/
structure State (T : Type) where
  threadQueue : Option (List (Option T))
  stopping : T → Bool
  stopped : T → Bool
  schedulerLock : Bool
  arpMap : Option (Hashmap.State (BitVec 64))
  arpEntries : Addr → Option ArpTableEntry
  arpLock : Bool

variable {T : Type} [DecidableEq T]

local instance instLawfulBEqThread : LawfulBEq (Option T) := inferInstance

section Source

def spinlockAcquire (lock : Bool) : Except Stop Bool := if lock then .error .spin else .ok true

def spinlockRelease (_lock : Bool) : Bool := false

def schedulerInsertThread (s : State T) (thread : Option T) : Except Stop (CInt × State T) :=
  match thread, s.threadQueue with
  | some thread, some queue => do
    let lock ← spinlockAcquire s.schedulerLock
    return (0, { s with
      threadQueue := some (queue ++ [some thread]), schedulerLock := spinlockRelease lock })
  | _, _ => return (-1, s)

/-- `list_find` reads the head of the queue, also when there is none. -/
def schedulerRemoveThread (s : State T) (thread : Option T) : Except Stop (CInt × State T) :=
  match thread with
  | none => return (-1, s)
  | some thread => do
    let lock ← spinlockAcquire s.schedulerLock
    match s.threadQueue with
    | none => .error .fault
    | some queue =>
      if some thread ∉ queue then
        return (-1, { s with schedulerLock := spinlockRelease lock })
      else
        return (0, { s with
          threadQueue := some (queue.erase (some thread))
          schedulerLock := spinlockRelease lock })

/-- The loop of `scheduler_get`. The first two cases are the `return` in it, which passes the
release of the lock by. -/
def popThread (s : State T) (idle : T) : List (Option T) → Except Stop (T × State T)
  | [] => .ok (idle, { s with threadQueue := some [] })
  | none :: rest => .ok (idle, { s with threadQueue := some rest })
  | some thread :: rest =>
    if s.stopping thread then
      popThread { s with stopped := Function.update s.stopped thread true } idle rest
    else if s.stopped thread then .error .panic
    else .ok (thread, { s with
      threadQueue := some rest, schedulerLock := spinlockRelease s.schedulerLock })

def schedulerGet (s : State T) (idle : Option T) : Except Stop (T × State T) :=
  match idle with
  | none => .error .panic
  | some idle => do
    let lock ← spinlockAcquire s.schedulerLock
    match s.threadQueue with
    | none => return (idle, { s with schedulerLock := spinlockRelease lock })
    | some [] => return (idle, { s with schedulerLock := spinlockRelease lock })
    | some queue => popThread { s with schedulerLock := lock } idle queue

def ofMap {α : Type} (r : Option α) : Except Stop α :=
  match r with
  | none => .error .hang
  | some a => .ok a

def arpGetEntry (fuel : ℕ) (s : State T) (address : BitVec 32) : Except Stop (Addr × State T) :=
  match s.arpMap with
  | none => return (null, s)
  | some map => do
    let lock ← spinlockAcquire s.arpLock
    let entry ← ofMap (hashmapGet intKeys fuel map (address.setWidth 64))
    return (entry, { s with arpLock := spinlockRelease lock })

/-- `arp_add_entry`, with the addresses that `kmalloc` returns for the entry and for a node of
the map. -/
def arpAddEntry (fuel : ℕ) (s : State T) (address : BitVec 32) (mac : Option (Fin 6 → BitVec 8))
    (type : CInt) (nic entry node : Addr) : Except Stop (CInt × State T) :=
  match mac with
  | none => return (1, s)
  | some mac => do
    if nic = null then return (1, s)
    let s := { s with
      arpEntries := Function.update s.arpEntries entry (some ⟨address, type, mac, nic⟩) }
    let lock ← spinlockAcquire s.arpLock
    match s.arpMap with
    | none => return (0, { s with arpLock := spinlockRelease lock })
    | some map =>
      let map ← ofMap (hashmapSet intKeys fuel map (address.setWidth 64) entry node)
      return (0, { s with arpMap := some map, arpLock := spinlockRelease lock })

def arpRemoveEntry (fuel : ℕ) (s : State T) (address : BitVec 32) :
    Except Stop (CInt × State T) :=
  match s.arpMap with
  | none => return (1, s)
  | some map => do
    let lock ← spinlockAcquire s.arpLock
    let entry ← ofMap (hashmapGet intKeys fuel map (address.setWidth 64))
    if entry = null then return (1, { s with arpLock := lock })
    let (map, _) ← ofMap (hashmapRemove intKeys fuel map (address.setWidth 64))
    return (0, { s with
      arpMap := some map
      arpEntries := Function.update s.arpEntries entry none
      arpLock := spinlockRelease lock })

end Source

inductive Call (T : Type) where
  | get (idle : Option T)
  | insertThread (thread : Option T)
  | removeThread (thread : Option T)
  | getEntry (address : BitVec 32)
  | addEntry (address : BitVec 32) (mac : Option (Fin 6 → BitVec 8)) (type : CInt)
      (nic entry node : Addr)
  | removeEntry (address : BitVec 32)

def perform (fuel : ℕ) (s : State T) : Call T → Except Stop (State T)
  | .get idle => Prod.snd <$> schedulerGet s idle
  | .insertThread thread => Prod.snd <$> schedulerInsertThread s thread
  | .removeThread thread => Prod.snd <$> schedulerRemoveThread s thread
  | .getEntry address => Prod.snd <$> arpGetEntry fuel s address
  | .addEntry address mac type nic entry node =>
    Prod.snd <$> arpAddEntry fuel s address mac type nic entry node
  | .removeEntry address => Prod.snd <$> arpRemoveEntry fuel s address

def run (fuel : ℕ) (s : State T) : List (Call T) → Except Stop (State T)
  | [] => .ok s
  | call :: calls => do run fuel (← perform fuel s call) calls

def Free (s : State T) : Prop := s.schedulerLock = false ∧ s.arpLock = false

/-- The two ways to return with the lock: no thread of a queue with threads is left, the stopping
ones discarded; and no entry for the address. -/
def Leaks (fuel : ℕ) (s : State T) : Call T → Prop
  | .get idle => idle.isSome ∧ ∃ queue, s.threadQueue = some queue ∧ queue ≠ [] ∧
      (queue.dropWhile fun value => value.any s.stopping).head?.join = none
  | .removeEntry address => ∃ map, s.arpMap = some map ∧
      hashmapGet intKeys fuel map (address.setWidth 64) = some null
  | _ => False

def NeverLeaks (fuel : ℕ) (s : State T) : List (Call T) → Prop
  | [] => True
  | call :: calls => ¬ Leaks fuel s call ∧
      ∀ s', perform fuel s call = .ok s' → NeverLeaks fuel s' calls

/-- Whenever calls have returned, both locks are free, and no call waits for ever. -/
structure Balanced (fuel : ℕ) (s : State T) (calls : List (Call T)) : Prop where
  free : ∀ {before s'}, before <+: calls → run fuel s before = .ok s' → Free s'
  never_spins : ∀ {before}, before <+: calls → run fuel s before ≠ .error .spin

section Calls

variable {fuel : ℕ} {s s' : State T} {idle : T} {idle? : Option T} {queue : List (Option T)}
  {call : Call T} {calls : List (Call T)}

/-- The loop gives the lock back if it comes to a thread that is not stopping. -/
theorem popThread_meets :
    Meets (· ≠ .spin) (popThread s idle queue) fun r => r.2.arpLock = s.arpLock ∧
      ((queue.dropWhile fun value => value.any s.stopping).head?.join ≠ none →
        r.2.schedulerLock = false) := by
  induction queue generalizing s with
  | nil => exact ⟨rfl, fun hne => absurd rfl hne⟩
  | cons value rest ih =>
    cases value with
    | none => exact ⟨rfl, fun hne => absurd rfl hne⟩
    | some thread =>
      rw [popThread]
      split_ifs with hstopping hstopped
      · rw [List.dropWhile_cons_of_pos (by exact hstopping)]
        exact ih
      · exact Stop.noConfusion
      · exact ⟨rfl, fun _ => rfl⟩

/-- Out of threads, the loop returns, and the lock is as it was. -/
theorem popThread_exhausted
    (hnone : (queue.dropWhile fun value => value.any s.stopping).head?.join = none) :
    ∃ next s', popThread s idle queue = .ok (next, s') ∧ s'.schedulerLock = s.schedulerLock := by
  induction queue generalizing s with
  | nil => exact ⟨_, _, rfl, rfl⟩
  | cons value rest ih =>
    cases value with
    | none => exact ⟨_, _, rfl, rfl⟩
    | some thread =>
      by_cases hstopping : s.stopping thread = true
      · rw [List.dropWhile_cons_of_pos (by exact hstopping)] at hnone
        obtain ⟨next, s', hpop, hlock⟩ :=
          ih (s := { s with stopped := Function.update s.stopped thread true }) hnone
        refine ⟨next, s', ?_, hlock⟩
        rw [popThread, if_pos hstopping, hpop]
      · rw [List.dropWhile_cons_of_neg (by exact hstopping)] at hnone
        contradiction

theorem acquire_free {lock : Bool} (h : lock = false) : spinlockAcquire lock = .ok true := by
  rw [spinlockAcquire, h]
  rfl

theorem acquire_meets {lock : Bool} (h : lock = false) :
    Meets (· ≠ .spin) (spinlockAcquire lock) fun _ => True := by
  rw [acquire_free h]
  trivial

theorem ofMap_meets {α : Type} (r : Option α) :
    Meets (· ≠ .spin) (ofMap r) fun a => r = some a := by
  cases r with
  | none => exact Stop.noConfusion
  | some a => rfl

theorem schedulerGet_meets (hfree : Free s) (hleaks : ¬ Leaks fuel s (.get idle?)) :
    Meets (· ≠ .spin) (schedulerGet s idle?) fun r => Free r.2 := by
  cases idle? with
  | none => exact Stop.noConfusion
  | some idle =>
    refine meets_bind (acquire_meets hfree.1) fun lock _ => ?_
    cases hqueue : s.threadQueue with
    | none => exact ⟨rfl, hfree.2⟩
    | some queue =>
      cases queue with
      | nil => exact ⟨rfl, hfree.2⟩
      | cons value rest =>
        refine meets_mono popThread_meets fun r hr =>
          ⟨hr.2 fun hnone => hleaks ?_, hr.1.trans hfree.2⟩
        exact ⟨rfl, _, hqueue, List.cons_ne_nil value rest, hnone⟩

omit [DecidableEq T] in
theorem schedulerInsertThread_meets (hfree : Free s) (thread : Option T) :
    Meets (· ≠ .spin) (schedulerInsertThread s thread) fun r => Free r.2 := by
  unfold schedulerInsertThread
  split
  · exact meets_bind (acquire_meets hfree.1) fun _ _ => ⟨rfl, hfree.2⟩
  · exact hfree

theorem schedulerRemoveThread_meets (hfree : Free s) (thread : Option T) :
    Meets (· ≠ .spin) (schedulerRemoveThread s thread) fun r => Free r.2 := by
  cases thread with
  | none => exact hfree
  | some thread =>
    refine meets_bind (acquire_meets hfree.1) fun lock _ => ?_
    cases s.threadQueue with
    | none => exact Stop.noConfusion
    | some queue =>
      dsimp only
      split_ifs
      · exact ⟨rfl, hfree.2⟩
      · exact ⟨rfl, hfree.2⟩

omit [DecidableEq T] in
theorem arpGetEntry_meets (hfree : Free s) (address : BitVec 32) :
    Meets (· ≠ .spin) (arpGetEntry fuel s address) fun r => Free r.2 := by
  unfold arpGetEntry
  cases s.arpMap with
  | none => exact hfree
  | some map =>
    refine meets_bind (acquire_meets hfree.2) fun lock _ => ?_
    exact meets_bind (ofMap_meets _) fun entry _ => ⟨hfree.1, rfl⟩

omit [DecidableEq T] in
theorem arpAddEntry_meets (hfree : Free s) (address : BitVec 32)
    (mac : Option (Fin 6 → BitVec 8)) (type : CInt) (nic entry node : Addr) :
    Meets (· ≠ .spin) (arpAddEntry fuel s address mac type nic entry node) fun r => Free r.2 := by
  cases mac with
  | none => exact hfree
  | some mac =>
    unfold arpAddEntry
    dsimp only
    split_ifs
    · exact hfree
    · refine meets_bind (acquire_meets hfree.2) fun lock _ => ?_
      cases s.arpMap with
      | none => exact ⟨hfree.1, rfl⟩
      | some map => exact meets_bind (ofMap_meets _) fun map' _ => ⟨hfree.1, rfl⟩

omit [DecidableEq T] in
theorem arpRemoveEntry_meets (hfree : Free s) {address : BitVec 32}
    (hleaks : ¬ Leaks fuel s (.removeEntry address)) :
    Meets (· ≠ .spin) (arpRemoveEntry fuel s address) fun r => Free r.2 := by
  unfold arpRemoveEntry
  cases hmap : s.arpMap with
  | none => exact hfree
  | some map =>
    refine meets_bind (acquire_meets hfree.2) fun lock _ => ?_
    refine meets_bind (ofMap_meets _) fun entry hentry => ?_
    have hne : entry ≠ null := by
      rintro rfl
      exact hleaks ⟨map, hmap, hentry⟩
    rw [if_neg hne]
    exact meets_bind (ofMap_meets _) fun removed _ => ⟨hfree.1, rfl⟩

theorem perform_meets (hfree : Free s) (hleaks : ¬ Leaks fuel s call) :
    Meets (· ≠ .spin) (perform fuel s call) Free := by
  cases call with
  | get idle => exact meets_map.mpr (schedulerGet_meets hfree hleaks)
  | insertThread thread => exact meets_map.mpr (schedulerInsertThread_meets hfree thread)
  | removeThread thread => exact meets_map.mpr (schedulerRemoveThread_meets hfree thread)
  | getEntry address => exact meets_map.mpr (arpGetEntry_meets hfree address)
  | addEntry address mac type nic entry node =>
    exact meets_map.mpr (arpAddEntry_meets hfree address mac type nic entry node)
  | removeEntry address => exact meets_map.mpr (arpRemoveEntry_meets hfree hleaks)

theorem perform_leaks (hfree : Free s) (hleaks : Leaks fuel s call) :
    ∃ s', perform fuel s call = .ok s' ∧ ¬ Free s' := by
  cases call with
  | get idle =>
    obtain ⟨hsome, queue, hqueue, hne, hnone⟩ := hleaks
    obtain ⟨idle, rfl⟩ := Option.isSome_iff_exists.mp hsome
    obtain ⟨next, s', hpop, hlock⟩ :=
      @popThread_exhausted _ _ { s with schedulerLock := true } idle _ hnone
    obtain ⟨value, rest, rfl⟩ := List.exists_cons_of_ne_nil hne
    have hget : schedulerGet s (some idle) = .ok (next, s') := by
      rw [← hpop]
      simp only [schedulerGet, spinlockAcquire, hfree.1, hqueue]
      rfl
    refine ⟨s', by rw [perform, hget]; rfl, fun hfree' => ?_⟩
    rw [hfree'.1] at hlock
    contradiction
  | removeEntry address =>
    obtain ⟨map, hmap, hget⟩ := hleaks
    have hremove : arpRemoveEntry fuel s address = .ok (1, { s with arpLock := true }) := by
      simp only [arpRemoveEntry, spinlockAcquire, hfree.2, hmap, hget, ofMap]
      rfl
    refine ⟨_, by rw [perform, hremove]; rfl, fun hfree' => ?_⟩
    exact absurd hfree'.2 (Bool.noConfusion)
  | insertThread _ => exact hleaks.elim
  | removeThread _ => exact hleaks.elim
  | getEntry _ => exact hleaks.elim
  | addEntry _ _ _ _ _ _ => exact hleaks.elim

theorem run_cons (h : perform fuel s call = .ok s') :
    run fuel s (call :: calls) = run fuel s' calls := by
  rw [run, h]
  rfl

theorem run_meets (hfree : Free s) (hnever : NeverLeaks fuel s calls) {before : List (Call T)}
    (hbefore : before <+: calls) : Meets (· ≠ .spin) (run fuel s before) Free := by
  induction before generalizing s calls with
  | nil => exact hfree
  | cons call before ih =>
    obtain ⟨calls, rfl, hrest⟩ := List.cons_prefix_iff.mp hbefore
    have hcall := perform_meets hfree hnever.1
    cases hperform : perform fuel s call with
    | error e =>
      rw [run, hperform]
      rwa [hperform] at hcall
    | ok s' =>
      rw [run_cons hperform]
      rw [hperform] at hcall
      exact ih hcall (hnever.2 s' hperform) hrest

theorem neverLeaks_of_balanced (hfree : Free s) (h : Balanced fuel s calls) :
    NeverLeaks fuel s calls := by
  induction calls generalizing s with
  | nil => trivial
  | cons call calls ih =>
    refine ⟨fun hleaks => ?_, fun s' hperform => ?_⟩
    · obtain ⟨s', hperform, hheld⟩ := perform_leaks hfree hleaks
      have hone : [call] <+: call :: calls := List.prefix_append [call] calls
      exact hheld (h.free hone (run_cons hperform))
    · have hmore : ∀ {before}, before <+: calls → call :: before <+: call :: calls :=
        fun hbefore => List.cons_prefix_cons.mpr ⟨rfl, hbefore⟩
      have hone : [call] <+: call :: calls := List.prefix_append [call] calls
      refine ih (h.free hone (run_cons hperform)) ⟨fun hbefore hrun => ?_, fun hbefore => ?_⟩
      · exact h.free (hmore hbefore) ((run_cons hperform).trans hrun)
      · rw [← run_cons hperform]
        exact h.never_spins (hmore hbefore)

/-- Every sequence of calls, from every state in which both locks are free: whenever calls have
returned the locks are free, and none waits for ever, if and only if no call leaks its lock. -/
theorem balanced_iff (hfree : Free s) : Balanced fuel s calls ↔ NeverLeaks fuel s calls := by
  refine ⟨neverLeaks_of_balanced hfree, fun hnever =>
      ⟨fun hbefore hrun => ?_, fun hbefore hrun => ?_⟩⟩
  · exact meets_of_eq_ok (run_meets hfree hnever hbefore) hrun
  · have hmeets := run_meets hfree hnever hbefore
    rw [hrun] at hmeets
    exact hmeets rfl

end Calls

section Shows

variable {k : State T} {s : Scheduler.State T} {idle : T} {queue : List T}

def stopOf : Scheduler.Stop → Stop
  | .panic => .panic
  | .spin => .spin

structure Shows (k : State T) (s : Scheduler.State T) : Prop where
  threadQueue : k.threadQueue = some (s.threadQueue.map some)
  stopping : k.stopping = s.stopping
  stopped : k.stopped = s.stopped
  lock : k.schedulerLock = s.lockLeft

def Agrees (r : Except Stop (T × State T)) (r' : Except Scheduler.Stop (T × Scheduler.State T)) :
    Prop :=
  match r, r' with
  | .ok (next, k), .ok (next', s) => next = next' ∧ Shows k s
  | .error e, .error e' => e = stopOf e'
  | _, _ => False

theorem popThread_agrees (hstopping : k.stopping = s.stopping) (hstopped : k.stopped = s.stopped)
    (hheld : k.schedulerLock = true) (hfree : s.lockLeft = false) :
    Agrees (popThread k idle (queue.map some)) (do
      let (thread, s) ← Scheduler.popThread s queue
      return (thread.getD idle, s)) := by
  induction queue generalizing k s with
  | nil => exact ⟨rfl, rfl, hstopping, hstopped, hheld⟩
  | cons thread rest ih =>
    rw [List.map_cons, popThread, Scheduler.popThread, hstopping, hstopped]
    split_ifs
    · exact ih rfl rfl hheld hfree
    · rfl
    · exact ⟨rfl, rfl, rfl, rfl, hfree.symm⟩

/-- `scheduler_get` as it is modelled for the run queue, whatever becomes of the lock. -/
theorem schedulerGet_agrees (h : Shows k s) :
    Agrees (schedulerGet k (some idle)) (Scheduler.schedulerGet s idle) := by
  unfold schedulerGet Scheduler.schedulerGet
  cases hlock : s.lockLeft with
  | true =>
    rw [h.lock, hlock]
    rfl
  | false =>
    rw [acquire_free (h.lock.trans hlock), if_neg Bool.false_ne_true]
    change Agrees (match k.threadQueue with
      | none => _
      | some [] => _
      | some queue => popThread { k with schedulerLock := true } idle queue) _
    rw [h.threadQueue]
    cases hqueue : s.threadQueue with
    | nil => exact ⟨rfl, by rw [hqueue], h.stopping, h.stopped, hlock.symm⟩
    | cons thread rest =>
      rw [if_neg (List.cons_ne_nil thread rest)]
      exact popThread_agrees h.stopping h.stopped rfl hlock

end Shows

section Booted

/-- Threads 1 and 2 are queued, and there is no entry in the ARP cache. -/
def booted : State (Fin 3) where
  threadQueue := some [some 1, some 2]
  stopping thread := decide (thread = 1)
  stopped _ := false
  schedulerLock := false
  arpMap := some (newMap 20 (fun _ => ⟨0, 0, 0⟩) fun _ => false)
  arpEntries _ := none
  arpLock := false

/-- Thread 1 is discarded on the way to thread 2, and the empty queue is no harm. -/
theorem balanced_iff_booted :
    Balanced 1 booted [.get (some 0), .get (some 0), .removeThread (some 2), .getEntry 9] := by
  refine (balanced_iff ⟨rfl, rfl⟩).mpr ⟨?_, fun s₁ h₁ => ⟨?_, fun s₂ h₂ => ⟨id, fun s₃ h₃ =>
    ⟨id, fun s₄ h₄ => trivial⟩⟩⟩⟩
  · rintro ⟨-, queue, hqueue, -, hnone⟩
    cases hqueue
    exact absurd hnone (by decide)
  · cases h₁
    rintro ⟨-, queue, hqueue, hne, -⟩
    cases hqueue
    exact hne rfl

/-- The address that is removed is not in the cache; the next call for an entry waits for ever. -/
theorem removeEntry_leaves_lock :
    Free booted ∧ run 1 booted [.removeEntry 9, .getEntry 9] = .error .spin ∧
      ¬ Balanced 1 booted [.removeEntry 9, .getEntry 9] := by
  have hspin : run 1 booted [.removeEntry 9, .getEntry 9] = .error .spin := rfl
  exact ⟨⟨rfl, rfl⟩, hspin, fun h => h.never_spins List.prefix_rfl hspin⟩

end Booted

end ReduceOS.LockBalance
