import ReduceOS.ElfConfinement
import ReduceOS.RegionAllocation

/-!
`process_execute`. The file is checked first. Then the threads of the process are marked, its
address space is destroyed, and only then is the file loaded into a new one: a file that passes the
check and cannot be loaded leaves the caller without the memory it is to return to.
-/
namespace ReduceOS.ExecFailure

open Machine Page Physical Paging AddressSpace Outcome UserAccess RegionAllocation ElfImage
  ElfPlan ElfConfinement Loader
open CString (Chars)
open InitialStack (UserStack threadStack threadStackSize)

def einval : CInt := 22

def threadStatusRunning : BitVec 32 := 0x04

def threadStatusStopping : BitVec 32 := 0x10

/-- What `process_execute` uses of `process_t`. -/
structure Task (T : Type) where
  dir : FrameNo
  mainThread : Option T
  threadList : List T
  heapBase : Addr
  heap : Addr

/-- Memory, what the processor runs, and `status` of the threads. -/
structure System (P T : Type) where
  kernel : Kernel P
  currentDir : FrameNo
  currentProcess : Option (Task T)
  currentThread : Option T
  status : T → BitVec 32

inductive Execution
  | returned (ret : CInt)
  | entered (entrypoint : Addr) (stack : UserStack)

section Source

variable {P T : Type} [DecidableEq T] (A : RunAllocator P)

def markStopping (status : T → BitVec 32) (thr : T) : T → BitVec 32 :=
  Function.update status thr (status thr ||| threadStatusStopping)

def markIfAny (status : T → BitVec 32) (thr : Option T) : T → BitVec 32 :=
  thr.elim status (markStopping status)

def markOthers (current : Option T) (status : T → BitVec 32) (threads : List T) : T → BitVec 32 :=
  threads.foldl (fun status thr => if some thr ≠ current then markStopping status thr else status)
    status

def System.memSwitchDirectory (m : System P T) (dir : FrameNo) : System P T :=
  { m with currentDir := dir }

def System.setState (m : System P T) (s : State P) : System P T :=
  { m with kernel := { m.kernel with state := s } }

/-- `thread_create` for a user thread that is no child. `thr` is what `kmalloc` returns; its stack
is mapped in `dir`. -/
def threadCreate (m : System P T) (thr : T) (dir : FrameNo) : Except Stop (System P T) := do
  let m := { m with status := Function.update m.status thr threadStatusRunning }
  let prevDir := m.currentDir
  let m := m.memSwitchDirectory dir
  let (_, kernel) ← memAllocate A m.kernel m.currentDir
    (threadStack - BitVec.ofNat 64 threadStackSize) (BitVec.ofNat 64 threadStackSize) memDefault
    memDefault
  return System.memSwitchDirectory { m with kernel := kernel } prevDir

def userMemory (s : State P) (dir : FrameNo) : ElfRelocation.Memory :=
  fun a => (load s.phys dir a).getD 0

/-- The part of `process_execute` between the checks and `elf_load`, for the current process `p`.
`thread_destroy` frees nothing. -/
def replaceMemory (kernelDir : FrameNo) (thr : T) (m : System P T) (p : Task T) :
    Except Stop (System P T) := do
  let m := { m with
    status := markOthers m.currentThread (markIfAny m.status p.mainThread) p.threadList }
  let m := m.memSwitchDirectory kernelDir
  let m := { m with status := markIfAny m.status m.currentThread }
  let (dir, s) ← lift (memClone A.toAllocator m.kernel.state m.currentDir)
  let s ← lift (memDestroyVAS A.toAllocator s p.dir)
  let m := (m.setState s).memSwitchDirectory dir
  let m ← threadCreate A m thr dir
  return { m with currentProcess := some { p with dir := dir, mainThread := some thr } }

/-- The part behind `elf_load`, for the file in the buffer. -/
def enterImage (fbuf : Addr) (thr : T) (m : System P T) (argc : CInt) (argv envp : List Chars) :
    Except Stop (Execution × System P T) := do
  let heapBase ← lift (elfGetHeapLocation m.currentDir fbuf m.kernel.state)
  let process := m.currentProcess.map fun p => { p with heapBase := heapBase, heap := heapBase }
  let m := { m with currentProcess := process }
  let entrypoint ← lift (elfGetEntrypoint m.currentDir fbuf m.kernel.state)
  let m := { m with currentThread := some thr }
  let stack := InitialStack.processExecute (userMemory m.kernel.state m.currentDir) argc argv envp
  return (.entered entrypoint stack, m)

variable (kernelDir : FrameNo) (elfLoadRelocatable : Addr → Loader P CInt)
  (readFile : File → FrameNo → State P → Except Panic (Addr × State P))

/-- What reading the file into a buffer does in an address space is a parameter. -/
def replaceImage (thr : T) (m : System P T) (p : Task T) (file : File) (argc : CInt)
    (argv envp : List Chars) : Except Stop (Execution × System P T) := do
  let m ← replaceMemory A kernelDir thr m p
  let (loaded, s) ← lift (elfLoad A.toAllocator m.currentDir elfLoadRelocatable
    (readFile file m.currentDir) file m.kernel.state).2
  match loaded with
  | none => return (.returned (-einval), m.setState s)
  | some fbuf => enterImage fbuf thr (m.setState s) argc argv envp

def processExecute (thr : T) (m : System P T) (file : Option File) (argc : CInt)
    (argv envp : List Chars) : Except Stop (Execution × System P T) :=
  match file, m.currentProcess with
  | none, _ => .ok (.returned (-einval), m)
  | _, none => .ok (.returned (-einval), m)
  | some file, some p =>
    if !elfCheck file .exec then .ok (.returned (-einval), m)
    else replaceImage A kernelDir elfLoadRelocatable readFile thr m p file argc argv envp

end Source

/-- The process is as it was: its record, the flags of the threads, and what it reads. -/
structure Intact {P T : Type} (m m' : System P T) : Prop where
  process : m'.currentProcess = m.currentProcess
  status : m'.status = m.status
  memory : ∀ p, m.currentProcess = some p → ∀ a,
    load m'.kernel.state.phys p.dir a = load m.kernel.state.phys p.dir a

section Headers

variable {P : Type} (A : Allocator P) (dir : FrameNo) (fbuf : Addr)

def Turn (x y : ℕ × State P) : Prop :=
  x.1 < (ePhnum (bufferAt dir fbuf x.2)).toNat ∧ y.1 = x.1 + 1 ∧
    (loadHeader A dir fbuf (elfPhdr (bufferAt dir fbuf x.2) x.1) x.2).2 = .ok (true, y.2)

/-- Every header is a `PT_NULL` or a `PT_LOAD`, as the loop finds it when it comes to it. -/
def Passes (s : State P) : Prop :=
  ∀ x, Relation.ReflTransGen (Turn A dir fbuf) (0, s) x →
    x.1 < (ePhnum (bufferAt dir fbuf x.2)).toNat → GoesOn (bufferAt dir fbuf x.2) x.1

variable {A dir fbuf} {s s' : State P} {file : File}

theorem read_ok {offset : Addr} {n : ℕ} (h : (read dir fbuf offset n s).2 = .ok ((), s')) :
    s' = s := by
  change (touch dir fbuf offset n s).map (fun s => ((), s)) = _ at h
  unfold touch at h
  split_ifs at h
  · exact (Prod.mk.inj (Except.ok.inj h)).2.symm
  · contradiction

theorem loadHeader_ok {phdr : Addr} {go : Bool}
    (h : (loadHeader A dir fbuf phdr s).2 = .ok (go, s')) :
    go = true ↔ (readPhdr (bufferAt dir fbuf s) phdr).type = ptNull ∨
      (readPhdr (bufferAt dir fbuf s) phdr).type = ptLoad := by
  obtain ⟨_, s₁, hread, hrest⟩ := bind_eq_ok h
  obtain rfl := read_ok hread
  rw [phdrAt, look_bind] at hrest
  by_cases hnull : (readPhdr (bufferAt dir fbuf s₁) phdr).type = ptNull
  · rw [if_pos hnull] at hrest
    exact iff_of_true (Prod.mk.inj (Except.ok.inj hrest)).1.symm (Or.inl hnull)
  rw [if_neg hnull] at hrest
  by_cases hload : (readPhdr (bufferAt dir fbuf s₁) phdr).type = ptLoad
  · rw [if_pos hload] at hrest
    obtain ⟨-, s₂, -, hend⟩ := bind_eq_ok hrest
    exact iff_of_true (Prod.mk.inj (Except.ok.inj hend)).1.symm (Or.inr hload)
  · rw [if_neg hload] at hrest
    obtain ⟨rfl, -⟩ := Prod.mk.inj (Except.ok.inj hrest)
    exact iff_of_false Bool.false_ne_true (not_or.mpr ⟨hnull, hload⟩)

/-- The loop ends well exactly when no header that it comes to stops it. -/
theorem loadHeaders_ok {fuel i : ℕ} {res : CInt} (hfuel : 2 ^ 16 ≤ i + fuel)
    (h : (loadHeaders A dir fbuf fuel i s).2 = .ok (res, s')) :
    res = 0 ↔ ∀ x, Relation.ReflTransGen (Turn A dir fbuf) (i, s) x →
      x.1 < (ePhnum (bufferAt dir fbuf x.2)).toNat → GoesOn (bufferAt dir fbuf x.2) x.1 := by
  induction fuel generalizing i s with
  | zero =>
    obtain ⟨rfl, -⟩ := Prod.mk.inj (Except.ok.inj h)
    have hend : ∀ s : State P, ¬ i < (ePhnum (bufferAt dir fbuf s)).toNat := fun s hi => by
      have := (ePhnum (bufferAt dir fbuf s)).isLt
      omega
    refine iff_of_true rfl fun x hx hlt => ?_
    rcases hx.cases_head with rfl | ⟨y, hy, -⟩
    · exact absurd hlt (hend s)
    · exact absurd hy.1 (hend s)
  | succ fuel ih =>
    rw [loadHeaders, loadTurn, look_bind] at h
    by_cases hi : i < (ePhnum (bufferAt dir fbuf s)).toNat
    swap
    · rw [if_neg hi] at h
      obtain ⟨rfl, -⟩ := Prod.mk.inj (Except.ok.inj h)
      refine iff_of_true rfl fun x hx hlt => ?_
      rcases hx.cases_head with rfl | ⟨y, hy, -⟩
      · exact absurd hlt hi
      · exact absurd hy.1 hi
    rw [if_pos hi] at h
    obtain ⟨go, s₁, hheader, hrest⟩ := bind_eq_ok h
    have hgo := loadHeader_ok hheader
    cases go with
    | false =>
      obtain ⟨rfl, -⟩ := Prod.mk.inj (Except.ok.inj hrest)
      refine iff_of_false (by decide) fun hall => Bool.false_ne_true (hgo.mpr ?_)
      exact hall (i, s) .refl hi
    | true =>
      refine (ih (by omega) hrest).trans ⟨fun hall x hx hlt => ?_, fun hall x hx hlt => ?_⟩
      · rcases hx.cases_head with rfl | ⟨⟨j, s₂⟩, ⟨-, hj, hturn⟩, hx⟩
        · exact hgo.mp rfl
        · obtain rfl : j = i + 1 := hj
          obtain ⟨-, rfl⟩ := Prod.mk.inj (Except.ok.inj (hheader.symm.trans hturn))
          exact hall x hx hlt
      · exact hall x (.head ⟨hi, rfl, hheader⟩ hx) hlt

variable {elfLoadRelocatable : Addr → Loader P CInt}
  {readFile : State P → Except Panic (Addr × State P)} {s₀ : State P} {res : Option Addr}

/-- Whether an executable is loaded, if the call returns. -/
theorem elfLoad_ok (hexec : elfCheck file .exec = true)
    (hfull : file.content.length = file.length.toNat) (hread : readFile s₀ = .ok (fbuf, s))
    (hnull : fbuf ≠ 0) (hholds : Holds dir s fbuf file)
    (h : (elfLoad A dir elfLoadRelocatable readFile file s₀).2 = .ok (res, s')) :
    res ≠ none ↔ Passes A dir fbuf s := by
  obtain ⟨hlong, hsupported, htype, hany⟩ := elfCheck_executable hexec
  have hbuffer : ∀ a : Addr, a.toNat < 64 → bufferAt dir fbuf s a = fileBuffer file a :=
    fun a ha => hholds.bufferAt_eq (by omega)
  rw [elfLoad_full hfull hany hread] at h
  obtain ⟨_, s₁, htouch, hrest⟩ := bind_eq_ok h
  obtain rfl := read_ok htouch
  rw [look_bind, elfCheckSupported_congr hbuffer, hsupported, if_neg (by decide),
    eType_congr hbuffer, htype, if_neg (by decide), elfLoadExecutable, if_neg hnull] at hrest
  obtain ⟨code, s₂, hloop, hend⟩ := bind_eq_ok hrest
  rw [Passes, ← loadHeaders_ok (by omega) hloop]
  obtain ⟨rfl, -⟩ := Prod.mk.inj (Except.ok.inj hend)
  by_cases hcode : code = 0
  · rw [if_pos hcode]
    exact iff_of_true (Option.some_ne_none _) hcode
  · rw [if_neg hcode]
    exact iff_of_false (fun h => h rfl) hcode

/-- Where the segments are confined to user pages, the loop finds the headers that the file has. -/
theorem passes_iff_of_sound {L : LawfulAllocator P} {elfLoadRelocatable : Addr → Loader P CInt}
    (hread : readFile s₀ = .ok (fbuf, s)) (hb : Buffered L dir s fbuf file)
    (hs : ElfBounds.Confines L dir s s) (hexec : elfCheck file .exec = true)
    (hfull : file.content.length = file.length.toNat)
    (hsound : ElfBounds.SoundHeaders s dir file.length.toNat (fileBuffer file))
    (h : (elfLoad L.toAllocator dir elfLoadRelocatable readFile file s₀).2 = .ok (res, s')) :
    Passes L.toAllocator dir fbuf s ↔
      ∀ i < (ePhnum (fileBuffer file)).toNat, GoesOn (fileBuffer file) i := by
  have hplan := (elfLoad_eq elfLoadRelocatable hread hb hs hexec hfull hsound).1
  rw [← elfLoad_ok hexec hfull hread hb.ne_zero hb.holds h]
  rw [h] at hplan
  have hres : res = (filePlan file fbuf).2 := by
    cases hperform : performAll L.toAllocator dir (fileBuffer file) (filePlan file fbuf).1 s with
    | error e =>
      rw [hperform] at hplan
      exact nomatch hplan
    | ok t =>
      rw [hperform] at hplan
      exact (Prod.mk.inj (Except.ok.inj hplan)).1
  have hreturn : (headerOps (fileBuffer file) _ 0).2 = 0 ↔ _ :=
    headerOps_eq_zero_iff (ePhnum (fileBuffer file)).toNat 0
  simp only [Nat.zero_add] at hreturn
  rw [hres, filePlan, executableOps, ← hreturn]
  split_ifs with hzero
  · exact iff_of_true (Option.some_ne_none _) hzero
  · exact iff_of_false (fun h => h rfl) hzero

end Headers

section Result

variable {P T : Type} [DecidableEq T] {L : LawfulRunAllocator P} {kernelDir : FrameNo}
  {elfLoadRelocatable : Addr → Loader P CInt}
  {readFile : File → FrameNo → State P → Except Panic (Addr × State P)} {thr : T}
  {m m' : System P T} {p : Task T} {f : File} {argc : CInt} {argv envp : List Chars} {r : Execution}

omit [DecidableEq T] in
theorem Intact.refl (m : System P T) : Intact m m := ⟨rfl, rfl, fun _ _ _ => rfl⟩

/-- `mem_clone` returns a directory that was not in use. -/
theorem memClone_fresh {A : LawfulAllocator P} {s s' : State P} {dir new : FrameNo}
    (hv : A.valid s.pmm) (hcall : memClone A.toAllocator s dir = .ok (new, s')) :
    new ∉ A.used s.pmm := by
  unfold memClone memCreateVAS at hcall
  obtain ⟨⟨dest, s₁⟩, hcreate, hrest⟩ := Outcome.bind_eq_ok hcall
  obtain ⟨⟨block, frame, s₂⟩, halloc, hdest⟩ := Outcome.bind_eq_ok hcreate
  obtain ⟨s₃, -, hret⟩ := Outcome.bind_eq_ok hrest
  obtain rfl : dest = new := congrArg Prod.fst (Except.ok.inj hret)
  obtain rfl : frame = dest := congrArg Prod.fst (Except.ok.inj hdest)
  exact (meets_of_eq_ok (allocateFrame_spec A hv) halloc).2.fresh

/-- The executable is read whole into the new address space, and its headers pass there. -/
def CanBeLoaded (L : LawfulRunAllocator P)
    (readFile : File → FrameNo → State P → Except Panic (Addr × State P)) (f : File)
    (m : System P T) : Prop :=
  f.content.length = f.length.toNat ∧
    ∀ fbuf s, readFile f m.currentDir m.kernel.state = .ok (fbuf, s) →
      Passes L.toAllocator m.currentDir fbuf s

/-- What reading a file leaves behind: a buffer with its bytes, zeros behind them. -/
def Reads (readFile : File → FrameNo → State P → Except Panic (Addr × State P)) : Prop :=
  ∀ f dir s fbuf s', readFile f dir s = .ok (fbuf, s') → fbuf ≠ 0 ∧ Holds dir s' fbuf f

/-- The process is left with a directory that was not in use before. -/
theorem replaceMemory_fresh (hv : L.valid m.kernel.state.pmm) {m₁ : System P T}
    (hcall : replaceMemory L.toRunAllocator kernelDir thr m p = .ok m₁) :
    ∃ q, m₁.currentProcess = some q ∧ q.dir ∉ L.used m.kernel.state.pmm := by
  unfold replaceMemory at hcall
  obtain ⟨⟨new, s₁⟩, hclone, hcall⟩ := Outcome.bind_eq_ok hcall
  obtain ⟨s₂, -, hcall⟩ := Outcome.bind_eq_ok hcall
  obtain ⟨m₂, -, hcall⟩ := Outcome.bind_eq_ok hcall
  obtain rfl := Except.ok.inj hcall
  exact ⟨_, rfl, memClone_fresh (A := L.toLawfulAllocator) hv (lift_eq_ok hclone)⟩

/-- Behind the checks either the new program is entered, or the call fails with the memory of the
process gone. -/
theorem replaceImage_spec (hv : L.valid m.kernel.state.pmm) (hreads : Reads readFile)
    (hexec : elfCheck f .exec = true) (hcall : replaceImage L.toRunAllocator kernelDir
      elfLoadRelocatable readFile thr m p f argc argv envp = .ok (r, m')) :
    ∃ m₁, replaceMemory L.toRunAllocator kernelDir thr m p = .ok m₁ ∧
      ((CanBeLoaded L readFile f m₁ ∧ ∃ entry stack, r = .entered entry stack) ∨
        (¬ CanBeLoaded L readFile f m₁ ∧ r = .returned (-einval) ∧
          ∃ q, m'.currentProcess = some q ∧ q.dir ∉ L.used m.kernel.state.pmm)) := by
  unfold replaceImage at hcall
  obtain ⟨m₁, hreplace, hcall⟩ := Outcome.bind_eq_ok hcall
  obtain ⟨⟨loaded, s⟩, hload, hcall⟩ := Outcome.bind_eq_ok hcall
  have hload := lift_eq_ok hload
  refine ⟨m₁, hreplace, ?_⟩
  have hloads : loaded ≠ none ↔ CanBeLoaded L readFile f m₁ := by
    obtain ⟨-, -, -, hany⟩ := elfCheck_executable hexec
    cases hread : readFile f m₁.currentDir m₁.kernel.state with
    | error e =>
      rw [elfLoad, hany, if_neg (by simp), hread] at hload
      contradiction
    | ok res =>
      obtain ⟨fbuf, s₁⟩ := res
      obtain ⟨hnull, hholds⟩ := hreads _ _ _ _ _ hread
      by_cases hfull : f.content.length = f.length.toNat
      · rw [elfLoad_ok hexec hfull hread hnull hholds hload]
        refine ⟨fun h => ⟨hfull, fun fbuf' s' heq => ?_⟩, fun h => h.2 _ _ hread⟩
        obtain ⟨rfl, rfl⟩ := Prod.mk.inj (Except.ok.inj (hread.symm.trans heq))
        exact h
      · rw [elfLoad_short hfull hany hread] at hload
        obtain ⟨rfl, -⟩ := Prod.mk.inj (Except.ok.inj hload)
        exact iff_of_false (fun h => h rfl) fun h => hfull h.1
  cases loaded with
  | none =>
    obtain ⟨rfl, rfl⟩ := Prod.mk.inj (Except.ok.inj hcall)
    obtain ⟨q, hq, hfresh⟩ := replaceMemory_fresh hv hreplace
    exact Or.inr ⟨fun h => hloads.mpr h rfl, rfl, q, hq, hfresh⟩
  | some fbuf =>
    refine Or.inl ⟨hloads.mp (Option.some_ne_none _), ?_⟩
    unfold enterImage at hcall
    obtain ⟨heapBase, -, hcall⟩ := Outcome.bind_eq_ok hcall
    obtain ⟨entry, -, hcall⟩ := Outcome.bind_eq_ok hcall
    obtain ⟨rfl, -⟩ := Prod.mk.inj (Except.ok.inj hcall)
    exact ⟨_, _, rfl⟩

/-- A call that returns an error leaves the process as it was exactly when it is not one for an
executable that cannot be loaded. -/
theorem processExecute_intact_iff (hv : L.valid m.kernel.state.pmm)
    (hdir : ∀ p, m.currentProcess = some p → p.dir ∈ L.used m.kernel.state.pmm)
    (hreads : Reads readFile) {file : Option File}
    (hcall : processExecute L.toRunAllocator kernelDir elfLoadRelocatable readFile thr m file argc
      argv envp = .ok (r, m')) :
    (∀ ret, r = .returned ret → ret.toInt < 0 → Intact m m') ↔
      ∀ f p m₁, file = some f → m.currentProcess = some p → elfCheck f .exec = true →
        replaceMemory L.toRunAllocator kernelDir thr m p = .ok m₁ →
          CanBeLoaded L readFile f m₁ := by
  unfold processExecute at hcall
  cases hfile : file with
  | none =>
    rw [hfile] at hcall
    obtain ⟨-, rfl⟩ := Prod.mk.inj (Except.ok.inj hcall)
    exact iff_of_true (fun _ _ _ => Intact.refl _) fun _ _ _ hbad =>
      absurd hbad (Option.some_ne_none _).symm
  | some f =>
    rw [hfile] at hcall
    cases hprocess : m.currentProcess with
    | none =>
      rw [hprocess] at hcall
      obtain ⟨-, rfl⟩ := Prod.mk.inj (Except.ok.inj hcall)
      exact iff_of_true (fun _ _ _ => Intact.refl _) fun _ _ _ _ hbad =>
        absurd hbad (Option.some_ne_none _).symm
    | some p =>
      rw [hprocess] at hcall
      simp only at hcall
      cases hexec : elfCheck f .exec with
      | false =>
        rw [hexec] at hcall
        obtain ⟨-, rfl⟩ := Prod.mk.inj (Except.ok.inj hcall)
        refine iff_of_true (fun _ _ _ => Intact.refl _) fun f' p' m₁ hf _ hexec' => ?_
        obtain rfl := Option.some.inj hf
        exact absurd (hexec.symm.trans hexec') (by decide)
      | true =>
        rw [hexec] at hcall
        obtain ⟨m₁, hreplace, hspec⟩ := replaceImage_spec hv hreads hexec hcall
        have hloads : (∀ f' p' m₁', some f = some f' → some p = some p' →
            elfCheck f' .exec = true → replaceMemory L.toRunAllocator kernelDir thr m p' = .ok m₁' →
              CanBeLoaded L readFile f' m₁') ↔ CanBeLoaded L readFile f m₁ := by
          refine ⟨fun h => h f p m₁ rfl rfl hexec hreplace, fun h f' p' m₁' hf hp _ hm => ?_⟩
          obtain rfl := Option.some.inj hf
          obtain rfl := Option.some.inj hp
          obtain rfl := Except.ok.inj (hreplace.symm.trans hm)
          exact h
        rw [hloads]
        rcases hspec with ⟨hload, entry, stack, rfl⟩ | ⟨hload, rfl, q, hq, hfresh⟩
        · exact iff_of_true (fun ret hret => by contradiction) hload
        · refine iff_of_false (fun hintact => ?_) hload
          have hsame := (hintact _ rfl (by decide)).process
          rw [hq, hprocess] at hsame
          obtain rfl := Option.some.inj hsame
          exact hfresh (hdir q hprocess)

end Result

section OneHeader

open WellBuilt PmmAllocator

def sharedHeap : State Pmm.State where
  phys f :=
    if f = 0 then Function.update zeroFrame 510 (openEntry 6)
    else if f = 1 then Function.update (Function.update zeroFrame 0 (openEntry 2)) 510 (openEntry 6)
    else if f = 6 then Function.update zeroFrame 0 (openEntry 7)
    else if f = 7 then Function.update zeroFrame 0 (openEntry 8)
    else if f = 8 then Function.update zeroFrame 0 { openEntry 9 with usermode := false }
    else (onePage 5 smallPmm).phys f
  refs _ := 0
  pmm := ⟨fun i => if i = 0 then 0x3FF else 0, 64, 10, 64⟩

def readToSharedHeap (file : File) (dir : FrameNo) (s : State Pmm.State) :
    Except Panic (Addr × State Pmm.State) :=
  let s := s.setFrame 9 (frameOf file.content)
  if file.length.toNat ≤ 4096 ∧ ∀ k < file.length.toNat,
      kernelFrame s.phys dir (0xFFFFFF0000000000 + BitVec.ofNat 64 k) = some 9 then
    .ok (0xFFFFFF0000000000, s)
  else .error .outOfMemory

theorem readToSharedHeap_reads : Reads readToSharedHeap := by
  intro f dir s fbuf s' h
  unfold readToSharedHeap at h
  dsimp only at h
  split_ifs at h with hpage
  obtain ⟨rfl, rfl⟩ := Prod.mk.inj (Except.ok.inj h)
  refine ⟨by decide, fun k hk => ⟨9, hpage.2 k hk, ?_⟩⟩
  have hoffset : (pageOffset ((0xFFFFFF0000000000 : Addr) + BitVec.ofNat 64 k)).val = k := by
    have hbase : (0xFFFFFF0000000000 : Addr).toNat = 0xFFFFFF0000000000 := rfl
    change ((0xFFFFFF0000000000 : Addr) + BitVec.ofNat 64 k).toNat % 4096 = k
    rw [ElfBounds.toNat_add_ofNat (by omega)]
    omega
  rw [State.setFrame_phys_self, byte_frameOf, hoffset]

def oneProcess : System Pmm.State ℕ where
  kernel := ⟨sharedHeap, 0xFFFFFF0000001000, false⟩
  currentDir := 1
  currentProcess := some ⟨1, some 0, [], 0x401000, 0x401000⟩
  currentThread := some 0
  status _ := threadStatusRunning

def execute (file : File) : Except Stop (Execution × System Pmm.State ℕ) :=
  processExecute pmmRuns.toRunAllocator 0 (fun _ => pure 0) readToSharedHeap 1 oneProcess
    (some file) 0 [] []

def Execution.ret : Execution → Option CInt
  | .returned ret => some ret
  | .entered _ _ => none

def note : File := oneHeader 4 0 0

/-- An executable with a note is rejected when the address space of the caller is gone. -/
theorem note_destroys_caller :
    elfCheck note .exec = true ∧
      ∃ m, execute note = .ok (.returned (-einval), m) ∧
        m.currentProcess.map Task.dir = some 10 ∧ ¬ Intact oneProcess m := by
  have hrun : (execute note).map (fun x => (x.1.ret, x.2.currentProcess.map Task.dir)) =
      .ok (some (-einval), some 10) := by decide +kernel
  refine ⟨by decide +kernel, ?_⟩
  cases hcall : execute note with
  | error e =>
    rw [hcall] at hrun
    exact nomatch hrun
  | ok res =>
    obtain ⟨r, m⟩ := res
    rw [hcall] at hrun
    obtain ⟨hret, hdir⟩ := Prod.mk.inj (Except.ok.inj hrun)
    cases r with
    | entered entry stack => exact absurd hret.symm (Option.some_ne_none _)
    | returned ret =>
      obtain rfl : ret = -einval := Option.some.inj hret
      refine ⟨m, rfl, hdir, fun hintact => ?_⟩
      have hdir : m.currentProcess.map Task.dir = some 10 := hdir
      rw [hintact.process] at hdir
      exact absurd hdir (by decide)

def segmentAndNull : File where
  content := ehdr 0x400000 2 ++ phdr ptLoad 0 0x400000 4 8 ++ phdr ptNull 0 0 0 0
  length := 176
  fits := le_rfl

/-- It can be loaded, and is entered. -/
theorem processExecute_intact_segment :
    ∃ entry stack m, execute segmentAndNull = .ok (.entered entry stack, m) ∧
      ∀ m₁, replaceMemory pmmRuns.toRunAllocator 0 1 oneProcess
        ⟨1, some 0, [], 0x401000, 0x401000⟩ = .ok m₁ →
          CanBeLoaded pmmRuns readToSharedHeap segmentAndNull m₁ := by
  have hrun : (execute segmentAndNull).map (fun x => x.1.ret) = .ok none := by decide +kernel
  have hexec : elfCheck segmentAndNull .exec = true := by decide +kernel
  have hv : pmmRuns.valid oneProcess.kernel.state.pmm :=
    show oneProcess.kernel.state.pmm.nframes.toNat ≤ 2 ^ 19 by decide
  have hdir : ∀ p, oneProcess.currentProcess = some p →
      p.dir ∈ pmmRuns.used oneProcess.kernel.state.pmm := by
    rintro p hp
    obtain rfl := Option.some.inj hp
    exact show Pmm.used oneProcess.kernel.state.pmm 1 = true by decide
  cases hcall : execute segmentAndNull with
  | error e =>
    rw [hcall] at hrun
    exact nomatch hrun
  | ok res =>
    obtain ⟨r, m⟩ := res
    rw [hcall] at hrun
    cases r with
    | returned ret => exact nomatch Except.ok.inj hrun
    | entered entry stack =>
      have hiff := processExecute_intact_iff hv hdir readToSharedHeap_reads hcall
      exact ⟨entry, stack, m, rfl, fun m₁ hm₁ =>
        hiff.mp (fun ret hret => nomatch hret) _ _ m₁ rfl rfl hexec hm₁⟩

end OneHeader

end ReduceOS.ExecFailure
