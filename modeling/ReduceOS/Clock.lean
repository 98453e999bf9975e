import ReduceOS.WakePass

/-!
Deadlines on the clock. The timer counts microseconds, and the clock device divides its count
into seconds and subseconds. `clock_relative` adds a duration to such a pair; it looks at the
seconds to tell whether the subseconds carry.
-/
namespace ReduceOS.Clock

open Machine LinkedSequence KernelList WakePass

def subsecondsPerSecond : BitVec 64 := 1000000

@[simp]
theorem toNat_subsecondsPerSecond : subsecondsPerSecond.toNat = 1000000 := rfl

/-- `clock_device_t`, with what deadlines are computed from. -/
structure ClockDevice where
  getTickCounts : Option (BitVec 64 → Time)

def clockGetTickCounts (tscBaseline ticks : BitVec 64) : Time :=
  let timerSubticks := ticks - tscBaseline
  ⟨timerSubticks / subsecondsPerSecond, timerSubticks % subsecondsPerSecond⟩

def x86Clock (tscBaseline : BitVec 64) : ClockDevice := ⟨some (clockGetTickCounts tscBaseline)⟩

variable (clock : ClockDevice) (ticks : BitVec 64)

/-- What `clock_relative` stores, from what the tick counts are. -/
def relativeTime (timer : Time) (seconds subseconds : BitVec 64) : Time :=
  if subsecondsPerSecond ≤ subseconds + timer.seconds then
    ⟨timer.seconds + seconds + (subseconds + timer.subseconds) / subsecondsPerSecond,
      (subseconds + timer.subseconds) % subsecondsPerSecond⟩
  else ⟨timer.seconds + seconds, timer.subseconds + subseconds⟩

/-- `clock_relative`, when the timer reads `ticks`; without a clock nothing is stored. -/
def clockRelative (seconds subseconds : BitVec 64) : Option Time :=
  clock.getTickCounts.map fun getTickCounts =>
    relativeTime (getTickCounts ticks) seconds subseconds

def clockGetCurrentTime : Option Time :=
  clock.getTickCounts.map fun getTickCounts => getTickCounts ticks

/-- `sleep_untilTime`, which has no result without a clock: its times are not initialised then.
The blocks that `kmalloc` returns are `sleep` and `node`. -/
def sleepUntilTime (sleep node : Addr) (m : Memory) (thread : Addr)
    (seconds subseconds : BitVec 64) : Option (Memory × CInt) :=
  if thread = null then some (m, 1)
  else
    (clockRelative clock ticks seconds subseconds).map fun time =>
      let sleeper := ⟨thread, .time, null, null, time.seconds, time.subseconds⟩
      let m := { m with sleepers := Function.update m.sleepers sleep sleeper }
      let m := m.setThread thread ({ · with sleep := sleep })
      let cells := m.cells.setNode node ({ · with value := sleep })
      let m := { m with cells := listAppendNode cells m.sleepQueue node }
      (m.setThread thread fun t => { t with status := t.status ||| threadStatusSleeping }, 0)

/-- `sys_usleep` of the current thread, up to its yield; for less than 10000 it returns at once. -/
def sysUsleep (sleep node : Addr) (m : Memory) (thread : Addr) (usec : BitVec 64) :
    Option (Memory × BitVec 64) :=
  if usec < 10000 then some (m, 0)
  else
    (sleepUntilTime clock ticks sleep node m thread (usec / 10000 / 1000)
      (usec / 10000 % 1000)).map fun result => (result.1, 0)

/-- The target of `clock_sleepMilliseconds`, where `boottime` is that of the architecture. -/
def sleepTarget (boottime ms : BitVec 64) : Option Time :=
  (clockRelative clock ticks (ms / 1000) (ms &&& 999)).map fun target =>
    { target with seconds := target.seconds + boottime }

section Pairs

def micros (t : Time) : ℕ := t.seconds.toNat * 1000000 + t.subseconds.toNat

def reading (tscBaseline ticks : BitVec 64) : ℕ := (ticks - tscBaseline).toNat

def deadline (now : ℕ) (seconds subseconds : BitVec 64) : ℕ :=
  now + seconds.toNat * 1000000 + subseconds.toNat

/-- The carry is taken where there is one, and the seconds of the deadline fit. -/
structure Carried (now : ℕ) (seconds subseconds : BitVec 64) : Prop where
  carry : now % 1000000 + subseconds.toNat < 1000000 ∨
    1000000 ≤ now / 1000000 + subseconds.toNat
  fits : deadline now seconds subseconds / 1000000 < 2 ^ 64

structure PairOf (time : ℕ) (t : Time) : Prop where
  subseconds : t.subseconds.toNat < 1000000
  value : micros t = time

variable {tscBaseline ticks seconds subseconds : BitVec 64} {t : Time}

theorem tickCounts_seconds :
    (clockGetTickCounts tscBaseline ticks).seconds.toNat = reading tscBaseline ticks / 1000000 := by
  simp [clockGetTickCounts, reading, BitVec.toNat_udiv]

theorem tickCounts_subseconds :
    (clockGetTickCounts tscBaseline ticks).subseconds.toNat =
      reading tscBaseline ticks % 1000000 := by
  simp [clockGetTickCounts, reading, BitVec.toNat_umod]

theorem tickCounts_pairOf :
    PairOf (reading tscBaseline ticks) (clockGetTickCounts tscBaseline ticks) := by
  constructor
  · rw [tickCounts_subseconds]
    omega
  · rw [micros, tickCounts_seconds, tickCounts_subseconds]
    omega

theorem reading_lt : reading tscBaseline ticks < 2 ^ 64 := (ticks - tscBaseline).isLt

theorem carries_iff {timer : Time} {now : ℕ} (hpair : PairOf now timer) (hnow : now < 2 ^ 64)
    (hsub : subseconds.toNat < 1000000) :
    subsecondsPerSecond ≤ subseconds + timer.seconds ↔
      1000000 ≤ now / 1000000 + subseconds.toNat := by
  obtain ⟨hu, hvalue⟩ := hpair
  rw [micros] at hvalue
  rw [BitVec.le_def, BitVec.toNat_add]
  change 1000000 ≤ _ ↔ _
  omega

/-- With the carry, the pair is normalised and its seconds wrap. -/
theorem relativeTime_carry (seconds : BitVec 64) {timer : Time} {now : ℕ} (hpair : PairOf now timer)
    (hnow : now < 2 ^ 64) (hsub : subseconds.toNat < 1000000)
    (hcarry : 1000000 ≤ now / 1000000 + subseconds.toNat) :
    (relativeTime timer seconds subseconds).seconds.toNat =
        deadline now seconds subseconds / 1000000 % 2 ^ 64 ∧
      (relativeTime timer seconds subseconds).subseconds.toNat =
        deadline now seconds subseconds % 1000000 := by
  rw [relativeTime, if_pos ((carries_iff hpair hnow hsub).mpr hcarry)]
  obtain ⟨hu, hvalue⟩ := hpair
  rw [micros] at hvalue
  have hsum : (subseconds + timer.subseconds).toNat =
      subseconds.toNat + timer.subseconds.toNat := by
    rw [BitVec.toNat_add]
    omega
  simp only [BitVec.toNat_add, BitVec.toNat_udiv, BitVec.toNat_umod, hsum, deadline,
    toNat_subsecondsPerSecond]
  omega

/-- Without it, the subseconds are the sum as it is. -/
theorem relativeTime_plain (seconds : BitVec 64) {timer : Time} {now : ℕ} (hpair : PairOf now timer)
    (hnow : now < 2 ^ 64) (hsub : subseconds.toNat < 1000000)
    (hcarry : now / 1000000 + subseconds.toNat < 1000000) :
    (relativeTime timer seconds subseconds).seconds.toNat =
        (now / 1000000 + seconds.toNat) % 2 ^ 64 ∧
      (relativeTime timer seconds subseconds).subseconds.toNat =
        now % 1000000 + subseconds.toNat := by
  rw [relativeTime, if_neg fun h => Nat.not_le.mpr hcarry ((carries_iff hpair hnow hsub).mp h)]
  obtain ⟨hu, hvalue⟩ := hpair
  rw [micros] at hvalue
  simp only [BitVec.toNat_add]
  omega

/-- The pair is right exactly where the carry is taken when there is one. -/
theorem relativeTime_pairOf_iff {timer : Time} {now : ℕ} (hpair : PairOf now timer)
    (hnow : now < 2 ^ 64) (hsub : subseconds.toNat < 1000000) :
    PairOf (deadline now seconds subseconds) (relativeTime timer seconds subseconds) ↔
      Carried now seconds subseconds := by
  have hseconds := seconds.isLt
  constructor
  · rintro ⟨hu, hvalue⟩
    rw [micros] at hvalue
    refine ⟨?_, ?_⟩
    · by_contra hnot
      have hplain := relativeTime_plain seconds hpair hnow hsub (by omega)
      omega
    · have hsec := (relativeTime timer seconds subseconds).seconds.isLt
      omega
  · rintro ⟨hcarry, hfits⟩
    by_cases htest : 1000000 ≤ now / 1000000 + subseconds.toNat
    · obtain ⟨hs, hu⟩ := relativeTime_carry seconds hpair hnow hsub htest
      exact ⟨by omega, by rw [micros]; omega⟩
    · obtain ⟨hs, hu⟩ := relativeTime_plain seconds hpair hnow hsub (by omega)
      rw [deadline] at hfits
      exact ⟨by omega, by rw [micros, deadline]; omega⟩

/-- Whether or not the pair is normalised, it stands for the deadline. -/
theorem relativeTime_micros (seconds subseconds : BitVec 64) {timer : Time} {now : ℕ}
    (hpair : PairOf now timer) (hnow : now < 2 ^ 64) (hsub : subseconds.toNat < 1000000)
    (hfits : deadline now seconds subseconds / 1000000 < 2 ^ 64) :
    micros (relativeTime timer seconds subseconds) = deadline now seconds subseconds := by
  by_cases htest : 1000000 ≤ now / 1000000 + subseconds.toNat
  · obtain ⟨hs, hu⟩ := relativeTime_carry seconds hpair hnow hsub htest
    rw [micros]
    omega
  · obtain ⟨hs, hu⟩ := relativeTime_plain seconds hpair hnow hsub (by omega)
    rw [deadline] at hfits
    rw [micros, deadline]
    omega

end Pairs

section Sleepers

variable {o : Outside} {clock : ClockDevice} {tscBaseline ticks : BitVec 64}
  {sleep node thread : Addr} {m m₁ : Memory} {seconds subseconds : BitVec 64}

/-- Between normalised pairs, the test of `sleep_callback` compares the times. -/
theorem timePassed_iff {time now : ℕ} {t c : Time} (ht : PairOf time t) (hc : PairOf now c) :
    ((t.seconds == c.seconds && t.subseconds ≤ c.subseconds) || t.seconds < c.seconds) = true ↔
      time ≤ now := by
  obtain ⟨htu, htv⟩ := ht
  obtain ⟨hcu, hcv⟩ := hc
  rw [micros] at htv hcv
  simp only [Bool.or_eq_true, Bool.and_eq_true, beq_iff_eq, decide_eq_true_eq, BitVec.le_def,
    BitVec.lt_def, ← BitVec.toNat_inj]
  omega

/-- A pass of `sleep_callback`: the memory that it starts with, the two queues in there, and
what the timer reads. -/
structure Pass where
  memory : Memory
  sleeping : List Addr
  running : List Addr
  ticks : BitVec 64

/-- The node is in the queue when the pass comes, with its sleeper as it was left. -/
structure Finds (o : Outside) (p : Pass) (sleep node : Addr) (sleeper : Sleeper) : Prop where
  queues : Queues o p.memory p.sleeping p.running
  waits : node ∈ p.sleeping
  value : (p.memory.cells.nodes node).value = sleep
  sleeper : p.memory.sleepers sleep = sleeper

def Pass.callback (o : Outside) (clock : ClockDevice) (p : Pass) : Option Memory :=
  (clockGetCurrentTime clock p.ticks).bind fun now =>
    sleepCallback o now (p.sleeping.length + 1) p.memory

/-- The pass takes the node out of the sleep queue and puts the thread in the run queue. -/
def Wakes (o : Outside) (clock : ClockDevice) (p : Pass) (node thread : Addr) : Prop :=
  ∃ m', p.callback o clock = some m' ∧
    (∃ q', Describes m'.cells m'.sleepQueue q' ∧ node ∉ q') ∧
    ∃ r', Describes m'.cells m'.threadQueue r' ∧
      thread ∈ r'.map fun n => (m'.cells.nodes n).value

def Unobstructed (o : Outside) (now : Time) (p : Pass) (node : Addr) : Prop :=
  ∃ xs ys, p.sleeping = xs ++ node :: ys ∧ ∀ n ∈ xs, wakeup o now p.memory n = false

theorem wakes_iff {p : Pass} {now : Time} (hclock : clockGetCurrentTime clock p.ticks = some now)
    (hq : Queues o p.memory p.sleeping p.running) (hn : node ∈ p.sleeping) :
    Wakes o clock p node (threadOf p.memory node) ↔
      wakeup o now p.memory node = true ∧ Unobstructed o now p node := by
  have hrun : p.callback o clock =
      some (((p.sleeping.find? (wakeup o now p.memory)).map (wake o p.memory)).getD p.memory) := by
    rw [Pass.callback, hclock]
    exact sleepCallback_eq hq (Nat.lt_succ_self _)
  have hfind : p.sleeping.find? (wakeup o now p.memory) = some node ↔
      wakeup o now p.memory node = true ∧ Unobstructed o now p node := by
    rw [List.find?_eq_some_iff_append, Unobstructed]
    simp
  rw [← hfind]
  constructor
  · rintro ⟨m', hm', ⟨q', hq', hout⟩, -⟩
    obtain rfl := Option.some.inj (hrun.symm.trans hm')
    cases hfirst : p.sleeping.find? (wakeup o now p.memory) with
    | none =>
      rw [hfirst] at hq'
      exact absurd (hq.sleepQueue.unique hq' ▸ hn) hout
    | some first =>
      rw [hfirst] at hq'
      obtain ⟨hdue, xs, ys, hsplit, -⟩ := List.find?_eq_some_iff_append.mp hfirst
      rw [hsplit] at hq hn
      have heq : xs ++ ys = q' := (wake_spec hq hdue).stay.unique hq'
      by_contra hne
      have hother : node ≠ first := fun h => hne (by rw [h])
      refine hout (heq ▸ ?_)
      simpa [hother] using hn
  · intro hfirst
    obtain ⟨hdue, xs, ys, hsplit, -⟩ := List.find?_eq_some_iff_append.mp hfirst
    rw [hsplit] at hq
    have hspec := wake_spec hq hdue
    refine ⟨_, hrun.trans (by rw [hfirst]; rfl), ⟨xs ++ ys, hspec.stay, ?_⟩, _, hspec.inserted, ?_⟩
    · exact (List.nodup_middle.mp hq.sleepQueue.links.nodup).notMem
    · simp [hspec.values]

/-- What `sleep_untilTime` leaves for the thread. -/
theorem sleepUntilTime_eq
    (h : sleepUntilTime clock ticks sleep node m thread seconds subseconds = some (m₁, 0)) :
    thread ≠ null ∧ ∃ t, clockRelative clock ticks seconds subseconds = some t ∧
      m₁.sleepers = Function.update m.sleepers sleep
        ⟨thread, .time, null, null, t.seconds, t.subseconds⟩ ∧
      m₁.cells =
        listAppendNode (m.cells.setNode node ({ · with value := sleep })) m.sleepQueue node ∧
      m₁.sleepQueue = m.sleepQueue ∧ m₁.threadQueue = m.threadQueue := by
  unfold sleepUntilTime at h
  split_ifs at h with hthread
  · have hcode : (1 : CInt) = 0 := congrArg Prod.snd (Option.some.inj h)
    exact absurd hcode (by decide)
  · obtain ⟨t, ht, heq⟩ := Option.map_eq_some_iff.mp h
    obtain rfl := congrArg Prod.fst heq
    exact ⟨hthread, t, ht, rfl, rfl, rfl, rfl⟩

/-- A pass right after the call finds the thread at the end of the queue. -/
theorem sleepUntilTime_finds {q r : List Addr} (hq : Queues o m q r)
    (h : sleepUntilTime clock ticks sleep node m thread seconds subseconds = some (m₁, 0))
    (hnull : node ≠ null) (hnq : node ∉ q) (hnr : node ∉ r)
    (hfresh : ∀ n ∈ q ++ [node], let new := o.kmalloc (listDelete m₁.cells m₁.sleepQueue n)
      new ≠ null ∧ new ∉ q ++ [node] ∧ new ∉ r) (now : BitVec 64) :
    Finds o ⟨m₁, q ++ [node], r, now⟩ sleep node (m₁.sleepers sleep) := by
  obtain ⟨-, t, -, -, hcells, hsq, htq⟩ := sleepUntilTime_eq h
  let s := m.cells.setNode node ({ · with value := sleep })
  have hstored : ∀ a, a ≠ node → s.nodes a = m.cells.nodes a := by
    intro a ha
    simp [s, ha]
  have hsleep : Describes s m.sleepQueue q :=
    hq.sleepQueue.congr rfl fun a ha => hstored a fun heq => hnq (heq ▸ ha)
  have hrun : Describes s m.threadQueue r :=
    hq.threadQueue.congr rfl fun a ha => hstored a fun heq => hnr (heq ▸ ha)
  refine ⟨⟨?_, ?_, ?_, ?_, ?_, ?_, hfresh⟩, by simp, ?_, rfl⟩
  · rw [hcells, hsq]
    exact hsleep.append hnq hnull
  · rw [hcells, htq]
    apply hrun.congr
    · exact (listAppendNode_lists _).trans (if_neg hq.different.symm)
    · intro a ha
      exact hsleep.append_frame hnq hnull (fun haq => hq.apart a haq ha) fun heq => hnr (heq ▸ ha)
  · exact hsq ▸ hq.sleepQueue_ne
  · exact htq ▸ hq.threadQueue_ne
  · rw [hsq, htq]
    exact hq.different
  · intro a ha
    rcases List.mem_append.mp ha with ha | ha
    · exact hq.apart a ha
    · rwa [List.mem_singleton.mp ha]
  · rw [hcells, listAppendNode_nodes (by exact hsleep.tail ▸ ne_lastOr hnq hnull)]
    simp

/-- When a pass wakes the thread, its pair being normalised. -/
theorem Finds.wakes_iff {p : Pass} {time : ℕ} {t : Time}
    (h : Finds o p sleep node ⟨thread, .time, null, null, t.seconds, t.subseconds⟩)
    (hsleep : sleep ≠ null) (hthread : thread ≠ null) (ht : PairOf time t) :
    Wakes o (x86Clock tscBaseline) p node thread ↔
      time ≤ reading tscBaseline p.ticks ∧
        Unobstructed o (clockGetTickCounts tscBaseline p.ticks) p node := by
  have hof : threadOf p.memory node = thread := by rw [threadOf, h.value, h.sleeper]
  have hdue : wakeup o (clockGetTickCounts tscBaseline p.ticks) p.memory node = true ↔
      time ≤ reading tscBaseline p.ticks := by
    rw [← timePassed_iff ht tickCounts_pairOf, wakeup]
    simp only [hof, h.value, h.sleeper, hsleep, hthread, or_self, if_false]
  have hclock : clockGetCurrentTime (x86Clock tscBaseline) p.ticks =
      some (clockGetTickCounts tscBaseline p.ticks) := rfl
  have hwakes := Clock.wakes_iff hclock h.queues h.waits
  rwa [hof, hdue] at hwakes

/-- `clock_relative` stores the normalised pair of the deadline, and each pass that finds the
thread asleep wakes it if and only if the deadline has come. -/
structure MeetsDeadline (o : Outside) (tscBaseline ticks seconds subseconds : BitVec 64)
    (node thread : Addr) (passes : List Pass) : Prop where
  pair : ∃ t, clockRelative (x86Clock tscBaseline) ticks seconds subseconds = some t ∧
    PairOf (deadline (reading tscBaseline ticks) seconds subseconds) t
  woken : ∀ p ∈ passes, Wakes o (x86Clock tscBaseline) p node thread ↔
    deadline (reading tscBaseline ticks) seconds subseconds ≤ reading tscBaseline p.ticks

def noSleepers : Memory where
  cells := ⟨fun _ => ⟨null, null, null, null⟩, fun _ => ⟨null, null, 0⟩⟩
  sleepers _ := ⟨null, .nocond, null, null, 0, 0⟩
  threads _ := ⟨0, null⟩
  sleepQueue := 1
  threadQueue := 2
  freed := []

theorem noSleepers_queues : Queues quiet noSleepers [] [] where
  sleepQueue := ⟨rfl, rfl, rfl, .nil, fun _ hn => absurd hn List.not_mem_nil⟩
  threadQueue := ⟨rfl, rfl, rfl, .nil, fun _ hn => absurd hn List.not_mem_nil⟩
  sleepQueue_ne := show (1 : Addr) ≠ null by decide
  threadQueue_ne := show (2 : Addr) ≠ null by decide
  different := show (1 : Addr) ≠ 2 by decide
  apart _ _ := List.not_mem_nil
  fresh _ hn := absurd hn List.not_mem_nil

/-- A thread went to sleep for half a second when the timer read `ticks`. -/
def halfSecond (ticks : BitVec 64) : Memory :=
  match sleepUntilTime (x86Clock 0) ticks 0x100 0x10 noSleepers 0x1000 0 500000 with
  | some (m, _) => m
  | none => noSleepers

theorem sleepUntilTime_halfSecond (ticks : BitVec 64) :
    sleepUntilTime (x86Clock 0) ticks 0x100 0x10 noSleepers 0x1000 0 500000 =
      some (halfSecond ticks, 0) := rfl

def passAfter (ticks now : BitVec 64) : Pass := ⟨halfSecond ticks, [0x10], [], now⟩

theorem passAfter_finds (ticks now : BitVec 64) :
    Finds quiet (passAfter ticks now) 0x100 0x10 ((halfSecond ticks).sleepers 0x100) := by
  refine sleepUntilTime_finds noSleepers_queues (sleepUntilTime_halfSecond ticks) (by decide)
    List.not_mem_nil List.not_mem_nil (fun _ _ => ?_) now
  change (0x30 : Addr) ≠ null ∧ (0x30 : Addr) ∉ [0x10] ∧ (0x30 : Addr) ∉ []
  decide

theorem meetsDeadline_iff (hsub : subseconds.toNat < 1000000) (hsleep : sleep ≠ null)
    (hslept : sleepUntilTime (x86Clock tscBaseline) ticks sleep node m thread seconds
      subseconds = some (m₁, 0))
    {passes : List Pass} (hpasses : ∀ p ∈ passes, Finds o p sleep node (m₁.sleepers sleep)) :
    MeetsDeadline o tscBaseline ticks seconds subseconds node thread passes ↔
      Carried (reading tscBaseline ticks) seconds subseconds ∧
        ∀ p ∈ passes,
          deadline (reading tscBaseline ticks) seconds subseconds ≤ reading tscBaseline p.ticks →
            Unobstructed o (clockGetTickCounts tscBaseline p.ticks) p node := by
  obtain ⟨hthread, t, ht, hsleepers, -⟩ := sleepUntilTime_eq hslept
  rw [hsleepers, Function.update_self] at hpasses
  have hright : PairOf (deadline (reading tscBaseline ticks) seconds subseconds) t ↔
      Carried (reading tscBaseline ticks) seconds subseconds := by
    obtain rfl := Option.some.inj ht
    exact relativeTime_pairOf_iff tickCounts_pairOf reading_lt hsub
  constructor
  · rintro ⟨⟨t', ht', hpair⟩, hwoken⟩
    obtain rfl := Option.some.inj (ht.symm.trans ht')
    refine ⟨hright.mp hpair, fun p hp htime => ?_⟩
    exact (((hpasses p hp).wakes_iff hsleep hthread hpair).mp ((hwoken p hp).mpr htime)).2
  · rintro ⟨hcarried, hfree⟩
    have hpair := hright.mpr hcarried
    refine ⟨⟨t, ht, hpair⟩, fun p hp => ?_⟩
    rw [(hpasses p hp).wakes_iff hsleep hthread hpair]
    exact ⟨And.left, fun htime => ⟨htime, hfree p hp htime⟩⟩

/-- Asleep from 0 s, passes after 0.4 s and 0.6 s. -/
theorem meetsDeadline_at_zero :
    MeetsDeadline quiet 0 0 0 500000 0x10 0x1000
        [passAfter 0 400000, passAfter 0 600000] ↔
      Carried (reading 0 0) 0 500000 ∧
        ∀ p ∈ ([passAfter 0 400000, passAfter 0 600000] : List Pass),
          deadline (reading 0 0) 0 500000 ≤ reading 0 p.ticks →
            Unobstructed quiet (clockGetTickCounts 0 p.ticks) p 0x10 := by
  refine meetsDeadline_iff (by decide) (by decide) (sleepUntilTime_halfSecond 0) ?_
  intro p hp
  rcases List.mem_cons.mp hp with rfl | hp
  · exact passAfter_finds 0 400000
  · obtain rfl := List.mem_singleton.mp hp
    exact passAfter_finds 0 600000

/-- Half a second from 0.9 s on is stored as 0 s and 1.4 million subseconds, and the thread
wakes up at 1 s. -/
theorem half_second_cut_short :
    clockRelative (x86Clock 0) 900000 0 500000 = some ⟨0, 1400000⟩ ∧
      deadline (reading 0 900000) 0 500000 = 1400000 ∧
      Wakes quiet (x86Clock 0) (passAfter 900000 1000000) 0x10 0x1000 ∧
      ¬ MeetsDeadline quiet 0 900000 0 500000 0x10 0x1000
        [passAfter 900000 1000000] := by
  have hclock : clockGetCurrentTime (x86Clock 0) 1000000 = some ⟨1, 0⟩ := rfl
  have hwakes : Wakes quiet (x86Clock 0) (passAfter 900000 1000000) 0x10 0x1000 :=
    (wakes_iff hclock (passAfter_finds 900000 1000000).queues
      List.mem_cons_self).mpr ⟨by decide, [], [], rfl, by simp⟩
  refine ⟨rfl, by decide, hwakes, fun hmeets => ?_⟩
  have hpassed := (hmeets.woken _ List.mem_cons_self).mp hwakes
  exact absurd hpassed (by decide)

end Sleepers

section Durations

/-- The deadline `time` is `asked` microseconds after `now` or up to a second later. -/
def LongEnough (now asked time : ℕ) : Prop := now + asked ≤ time ∧ time < now + asked + 1000000

variable {tscBaseline boottime ticks usec ms : BitVec 64} {sleep node thread : Addr} {m : Memory}

def UsleepDeadline (tscBaseline ticks usec : BitVec 64) (sleep node thread : Addr)
    (m : Memory) (time : ℕ) : Prop :=
  ∃ m₁, sysUsleep (x86Clock tscBaseline) ticks sleep node m thread usec = some (m₁, 0) ∧
    (m₁.sleepers sleep).sleepState = .time ∧
      micros ⟨(m₁.sleepers sleep).seconds, (m₁.sleepers sleep).subseconds⟩ = time

/-- The time that the loop of `clock_sleepMilliseconds` waits for. The target is in seconds since
the epoch, and `boottime` is where the timer's seconds begin. -/
def TargetTime (tscBaseline boottime ticks ms : BitVec 64) (time : ℕ) : Prop :=
  ∃ target, sleepTarget (x86Clock tscBaseline) ticks boottime ms = some target ∧
    micros { target with seconds := target.seconds - boottime } = time

/-- `sys_usleep` takes units of ten milliseconds for milliseconds, and then milliseconds for
microseconds. -/
theorem usleepDeadline_iff (hthread : thread ≠ null) (husec : 10000 ≤ usec.toNat) {time : ℕ} :
    UsleepDeadline tscBaseline ticks usec sleep node thread m time ↔
      time = reading tscBaseline ticks + usec.toNat / 10000000 * 1000000 +
        usec.toNat / 10000 % 1000 := by
  have hlt : reading tscBaseline ticks < 2 ^ 64 := reading_lt
  have hnot : ¬ usec < 10000 := by
    rw [BitVec.lt_def]
    exact Nat.not_lt.mpr husec
  have hs : (usec / 10000 / 1000).toNat = usec.toNat / 10000000 := by
    rw [BitVec.toNat_udiv, BitVec.toNat_udiv]
    exact Nat.div_div_eq_div_mul _ 10000 1000
  have hu : (usec / 10000 % 1000).toNat = usec.toNat / 10000 % 1000 := by
    rw [BitVec.toNat_umod, BitVec.toNat_udiv]
    rfl
  have husec' := usec.isLt
  have hnow : PairOf (reading tscBaseline ticks) (clockGetTickCounts tscBaseline ticks) :=
    tickCounts_pairOf
  have hmicros := relativeTime_micros (usec / 10000 / 1000) (usec / 10000 % 1000) hnow hlt
    (by omega) (by rw [deadline]; omega)
  rw [deadline, hs, hu] at hmicros
  rw [← hmicros]
  unfold UsleepDeadline sysUsleep
  rw [if_neg hnot, sleepUntilTime, if_neg hthread]
  constructor
  · rintro ⟨m₁, hm₁, -, htime⟩
    obtain rfl := congrArg Prod.fst (Option.some.inj hm₁)
    simpa [Memory.setThread] using htime.symm
  · intro htime
    exact ⟨_, rfl, by simp [Memory.setThread], by simp [Memory.setThread, htime]⟩

theorem targetTime_iff {time : ℕ} :
    TargetTime tscBaseline boottime ticks ms time ↔
      time = reading tscBaseline ticks + ms.toNat / 1000 * 1000000 + (ms.toNat &&& 999) := by
  have hlt : reading tscBaseline ticks < 2 ^ 64 := reading_lt
  have hs : (ms / 1000).toNat = ms.toNat / 1000 := BitVec.toNat_udiv
  have hu : (ms &&& 999).toNat = ms.toNat &&& 999 := BitVec.toNat_and ..
  have hmask : ms.toNat &&& 999 ≤ 999 := Nat.and_le_right
  have hms := ms.isLt
  have hnow : PairOf (reading tscBaseline ticks) (clockGetTickCounts tscBaseline ticks) :=
    tickCounts_pairOf
  have hmicros := relativeTime_micros (ms / 1000) (ms &&& 999) hnow hlt (by omega)
    (by rw [deadline]; omega)
  rw [deadline, hs, hu] at hmicros
  have hback : ∀ t : Time, micros { t with seconds := t.seconds + boottime - boottime } =
      micros t := fun t => by rw [BitVec.add_sub_cancel]
  rw [← hmicros]
  constructor
  · rintro ⟨target, htarget, htime⟩
    obtain rfl := Option.some.inj htarget
    exact htime.symm.trans (hback _)
  · intro htime
    exact ⟨_, rfl, (hback _).trans htime.symm⟩

theorem durations_iff (hthread : thread ≠ null) (husec : 10000 ≤ usec.toNat) :
    (¬ ∃ time, UsleepDeadline tscBaseline ticks usec sleep node thread m time ∧
        LongEnough (reading tscBaseline ticks) usec.toNat time) ∧
      ((∃ time, TargetTime tscBaseline boottime ticks ms time ∧
        LongEnough (reading tscBaseline ticks) (ms.toNat * 1000) time) ↔ ms.toNat % 1000 = 0) := by
  simp only [usleepDeadline_iff hthread husec, targetTime_iff, exists_eq_left, LongEnough]
  have hmask : ms.toNat &&& 999 ≤ 999 := Nat.and_le_right
  refine ⟨fun ⟨hlong, _⟩ => ?_, ?_⟩
  · omega
  · omega

/-- 10 ms and 1 s, slept from the time 0 on. -/
theorem durations_ten_milliseconds :
    (¬ ∃ time, UsleepDeadline 0 0 10000 0x100 0x10 0x1000 noSleepers time ∧
        LongEnough (reading 0 0) (10000 : BitVec 64).toNat time) ∧
      ((∃ time, TargetTime 0 0 0 1000 time ∧
        LongEnough (reading 0 0) ((1000 : BitVec 64).toNat * 1000) time) ↔
          (1000 : BitVec 64).toNat % 1000 = 0) :=
  durations_iff (by decide) (by decide)

/-- A thread that asks for ten seconds sleeps one, and a millisecond lasts a microsecond. -/
theorem ten_seconds_cut_short :
    UsleepDeadline 0 0 10000000 0x100 0x10 0x1000 noSleepers 1000000 ∧
      ¬ LongEnough (reading 0 0) 10000000 1000000 ∧
      TargetTime 0 0 0 1 1 ∧ ¬ LongEnough (reading 0 0) 1000 1 := by
  refine ⟨⟨_, rfl, rfl, rfl⟩, ?_, ⟨_, rfl, rfl⟩, ?_⟩
  · exact fun h => absurd h.1 (by decide)
  · exact fun h => absurd h.1 (by decide)

end Durations

end ReduceOS.Clock
