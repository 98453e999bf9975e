import ReduceOS.ChunkLedger
import ReduceOS.LinkWalk
import ReduceOS.UsbTransfer

/-!
Control transfers of the EHCI driver. A queue head is linked behind the first one of the
asynchronous list, though it is put at the end of the list. `ehci_waitForQH` destroys the queue
head of a transfer that is complete, and so does `ehci_control` when it has waited.
-/
namespace ReduceOS.EhciLifecycle

open Machine ChunkLedger LinkWalk UsbTransfer
open ChunkPool (Pool poolCreate)

structure QhLink where
  terminate : BitVec 1
  select : BitVec 2
  qhlp : BitVec 27

/-- What the driver reads of an `ehci_qh_t` that the controller does not write: the link and the
transfer descriptors of `td_list`. -/
structure Qh where
  qhLink : QhLink
  tdList : List Addr

/-- A call of `ehci_control` that waits or has waited: its queue head, the status of its transfer
and whether `ehci_waitForQH` has destroyed the queue head. -/
structure Call where
  qh : Addr
  status : CInt
  destroyed : Bool

/-- The queue heads by address, the two pools, the two lists, whether `ehci_lock` is held by no
call that is going on, and the calls of `ehci_control`. -/
structure State where
  qhs : Addr → Qh
  qhPool : Ledger
  tdPool : Ledger
  periodicList : List Addr
  asyncList : List Addr
  locked : Bool
  calls : ℕ → Option Call

def qhSize : BitVec 64 := 128

def tdSize : BitVec 64 := 64

/-- The memory of the two pools, what was in it and in that of the bitmaps, and the physical
addresses of the queue heads. -/
structure Dma where
  qhStart : Addr
  tdStart : Addr
  qhBitmap : ℤ → BitVec 32
  tdBitmap : ℤ → BitVec 32
  memory : Addr → Qh
  qhRoom : qhStart.toNat + (512 * qhSize).toNat ≤ 2 ^ 64
  tdRoom : tdStart.toNat + (512 * tdSize).toNat ≤ 2 ^ 64
  physical : Physical (newPool qhSize 512 qhBitmap qhStart) 5

def Dma.qhPool (d : Dma) : Pool := newPool qhSize 512 d.qhBitmap d.qhStart

def Dma.tdPool (d : Dma) : Pool := newPool tdSize 512 d.tdBitmap d.tdStart

section Source

variable (d : Dma)

def flpTypeQh : BitVec 2 := 1

def State.setQh (s : State) (a : Addr) (qh : Qh) : State :=
  { s with qhs := Function.update s.qhs a qh }

def State.linkTerm (s : State) (qh : Addr) : State :=
  s.setQh qh { s.qhs qh with qhLink := { (s.qhs qh).qhLink with terminate := 1 } }

def State.linkQh (s : State) (prev next : Addr) : State :=
  s.setQh prev
    { s.qhs prev with qhLink := ⟨0, flpTypeQh, (d.physical.link next).setWidth 27⟩ }

def allocateQh (s : State) : Except Panic (Addr × State) := do
  let (qh, pool) ← s.qhPool.take
  return (qh, { s.setQh qh ⟨⟨0, 0, 0⟩, []⟩ with qhPool := pool })

/-- `ehci_createTD`, and the descriptor goes into the list of a queue head. -/
def createTd (s : State) (qh : Addr) : Except Panic State := do
  let (td, pool) ← s.tdPool.take
  return { s.setQh qh { s.qhs qh with tdList := (s.qhs qh).tdList ++ [td] } with tdPool := pool }

def control (s : State) (id : ℕ) (transfer : Transfer) : Except Panic State := do
  let (qh, s) ← allocateQh s
  let s := s.linkTerm qh
  let s ← createTd s qh
  let s ← makeData (createTd · qh) transfer s
  let s ← createTd s qh
  match s.asyncList.head? with
  | none => .error .pageFault
  | some current =>
    return { s.linkQh d current qh with
      asyncList := s.asyncList ++ [qh]
      calls := Function.update s.calls id (some ⟨qh, transfer.status, false⟩) }

/-- How `ehci_destroyQH` goes on after it has looked for the queue head in a list. -/
inductive Unlinked
  /-- The queue head is out of the list, which is the second part. -/
  | done (s : State) (l : List Addr)
  /-- The queue head is the first of the list, and the function returns. -/
  | root

/-- A queue head is taken out of the chain and of the list `l`, of which it is a member. -/
def unlink (s : State) (qh : Addr) (l : List Addr) : Except Panic Unlinked :=
  let before := l.takeWhile (· ≠ qh)
  let after := (l.dropWhile (· ≠ qh)).tail
  match before.getLast? with
  | none => .ok .root
  | some prev =>
    if (s.qhs qh).qhLink.terminate = 0 then
      match after with
      | [] => .error .pageFault
      | next :: _ => .ok (.done (s.linkQh d prev next) (before ++ after))
    else
      let s := s.linkTerm prev
      let s := s.setQh prev { s.qhs prev with qhLink := { (s.qhs prev).qhLink with qhlp := 0 } }
      .ok (.done s (before ++ after))

/-- The end of `ehci_destroyQH`. A list of descriptors that was destroyed is read once more as
it was. -/
def release (s : State) (qh : Addr) : State :=
  { s with
    tdPool := s.tdPool.giveAll (s.qhs qh).tdList
    qhPool := s.qhPool.give qh
    locked := false }

def destroyQh (s : State) (qh : Addr) : Except Panic State := do
  let s := { s with locked := true }
  if qh ∈ s.periodicList then
    match ← unlink d s qh s.periodicList with
    | .root => return s
    | .done s l => return release { s with periodicList := l } qh
  else if qh ∈ s.asyncList then
    match ← unlink d s qh s.asyncList with
    | .root => return s
    | .done s l => return release { s with asyncList := l } qh
  else return release s qh

structure Token where
  halted : Bool
  active : Bool
  tdNextTerminate : Bool

def statusAfter (status : CInt) (token : Token) : CInt :=
  let status := if token.halted then failed else status
  if token.tdNextTerminate ∧ ¬ token.active then success else status

def waitForQh (s : State) (id : ℕ) (c : Call) (token : Token) : Except Panic State :=
  let status := statusAfter c.status token
  if status ≠ inProgress then do
    let s ← destroyQh d s c.qh
    return { s with calls := Function.update s.calls id (some ⟨c.qh, status, true⟩) }
  else return s

def leave (s : State) (id : ℕ) (c : Call) : Except Panic State := do
  let s ← destroyQh d s c.qh
  return { s with calls := Function.update s.calls id none }

/-- `driver_init`, where it makes the pools and the first queue heads of the lists. -/
def driverInit : Except Panic State := do
  let qhPool ← poolCreate d.qhBitmap qhSize (512 * qhSize) d.qhStart
  let tdPool ← poolCreate d.tdBitmap tdSize (512 * tdSize) d.tdStart
  let (base, s) ← allocateQh
    ⟨d.memory, ⟨⟨qhPool, []⟩, [], []⟩, ⟨⟨tdPool, []⟩, [], []⟩, [], [], false, fun _ => none⟩
  let s := { s with periodicList := s.periodicList ++ [base] }.linkTerm base
  let (root, s) ← allocateQh s
  let s := s.linkTerm root
  return { s with asyncList := s.asyncList ++ [root] }

inductive Action
  | control (id : ℕ) (transfer : Transfer)
  | waitForQh (id : ℕ) (token : Token)
  | leave (id : ℕ)
  /-- `ehci_destroyQH` of the first member of the asynchronous list -/
  | destroyRoot

/-- A function that needs the lock waits for it, and `ehci_control` waits while its transfer is in
progress. -/
def step (s : State) : Action → Except Panic State
  | .control id transfer =>
    if s.locked ∨ (s.calls id).isSome then return s else control d s id transfer
  | .waitForQh id token =>
    match s.calls id with
    | none => return s
    | some c => if s.locked ∨ c.status ≠ inProgress then return s else waitForQh d s id c token
  | .leave id =>
    match s.calls id with
    | none => return s
    | some c => if s.locked ∨ c.status = inProgress then return s else leave d s id c
  | .destroyRoot =>
    match s.asyncList.head? with
    | none => return s
    | some root => if s.locked then return s else destroyQh d s root

/-- The states of a run, the first one included. A run ends where the kernel panics. -/
def states (s : State) : List Action → List State
  | [] => [s]
  | a :: actions =>
    s :: match step d s a with
      | .ok s' => states s' actions
      | .error _ => []

end Source

variable (d : Dma)

def hop (s : State) (qh : Addr) : Hop Addr :=
  let link := (s.qhs qh).qhLink
  if link.terminate = 1 then .stop
  else if link.select = flpTypeQh then
    match d.physical.chunkAt (link.qhlp.setWidth 64 <<< 5) with
    | some next => .to next
    | none => .lost
  else .lost

def State.members (s : State) : List Addr := s.periodicList ++ s.asyncList

def State.tdsOf (s : State) (qhs : List Addr) : List Addr := qhs.flatMap fun qh => (s.qhs qh).tdList

/-- The controller visits the members of the asynchronous list in its order, every chunk that was
taken was given back or belongs to a member, nobody holds the lock, and the queue head of a
transfer is a member until the transfer has it destroyed. A member behind the first one is the
queue head of such a transfer. -/
structure Safe (s : State) : Prop where
  visited : ∃ root, s.asyncList.head? = some root ∧
    ∀ n, s.asyncList.length ≤ n → walk (hop d s) n root = some s.asyncList
  qhs : s.qhPool.taken.Perm (s.qhPool.returned ++ s.members)
  tds : s.tdPool.taken.Perm (s.tdPool.returned ++ s.tdsOf s.members)
  free : s.locked = false
  member : ∀ id c, s.calls id = some c → c.destroyed = false → c.qh ∈ s.asyncList
  owner : ∀ qh ∈ s.asyncList.tail, ∃ id c, s.calls id = some c ∧ c.destroyed = false ∧ c.qh = qh

/-- A transfer starts when the asynchronous list has but its first member, `ehci_control` comes to
its end only if `ehci_waitForQH` has not destroyed the queue head, and the first member is never
destroyed. -/
def Meets (s : State) : Action → Prop
  | .control id _ => (s.calls id).isSome ∨ s.asyncList.length = 1
  | .waitForQh _ _ => True
  | .leave id => ∀ c, s.calls id = some c → c.status = inProgress ∨ c.destroyed = false
  | .destroyRoot => False

def AllMeet (s : State) : List Action → Prop
  | [] => True
  | a :: actions => ∀ s', step d s a = .ok s' → Meets s a ∧ AllMeet s' actions

section Links

variable {s s' : State} {a b : Addr} {l : List Addr}

@[simp] theorem setQh_qhs (s : State) (a : Addr) (qh : Qh) :
    (s.setQh a qh).qhs = Function.update s.qhs a qh := rfl

@[simp] theorem setQh_tdPool (s : State) (a : Addr) (qh : Qh) :
    (s.setQh a qh).tdPool = s.tdPool := rfl

@[simp] theorem linkQh_tdList (s : State) (prev next a : Addr) :
    ((s.linkQh d prev next).qhs a).tdList = (s.qhs a).tdList := by
  by_cases heq : a = prev <;> simp [State.linkQh, heq]

@[simp] theorem linkQh_tdPool (s : State) (prev next : Addr) :
    (s.linkQh d prev next).tdPool = s.tdPool := rfl

@[simp] theorem linkTerm_tdList (s : State) (prev a : Addr) :
    ((s.linkTerm prev).qhs a).tdList = (s.qhs a).tdList := by
  by_cases heq : a = prev <;> simp [State.linkTerm, heq]

theorem linkQh_other {prev next : Addr} (hne : a ≠ prev) :
    ((s.linkQh d prev next).qhs a).qhLink = (s.qhs a).qhLink := by
  simp [State.linkQh, hne]

/-- A queue head that is linked leads to the one it is linked to. -/
theorem hop_of_linked (hb : IsChunk d.qhPool b)
    (hlink : (s.qhs a).qhLink = ⟨0, flpTypeQh, (d.physical.link b).setWidth 27⟩) :
    hop d s a = .to b := by
  have hshift := d.physical.link_shift (by decide) hb
  simp [hop, hlink, hshift, d.physical.chunkAt_address hb]

theorem hop_eq_stop_iff : hop d s a = .stop ↔ (s.qhs a).qhLink.terminate = 1 := by
  unfold hop
  dsimp only
  split_ifs with hend hselect
  · exact iff_of_true rfl hend
  · split <;> simpa using hend
  · simpa using hend

theorem hop_congr (hlink : (s'.qhs a).qhLink = (s.qhs a).qhLink) : hop d s' a = hop d s a := by
  simp [hop, hlink]

end Links

/-- The lists have their first members, and `rest` are the other members of the asynchronous
one. The queue heads `beside` belong to no list. -/
structure Schedule (s : State) (base root : Addr) (rest beside : List Addr) : Prop where
  periodic : s.periodicList = [base]
  async : s.asyncList = root :: rest
  visits : Visits (hop d s) (root :: rest)
  qhs : Books d.qhPool s.qhPool (beside ++ base :: root :: rest)
  tds : Books d.tdPool s.tdPool (s.tdsOf (beside ++ base :: root :: rest))
  free : s.locked = false

variable {s s' : State} {base root qh : Addr} {rest beside : List Addr}

theorem Schedule.allocateQh (h : Schedule d s base root rest [])
    (hallocate : allocateQh s = .ok (qh, s')) :
    Schedule d (s'.linkTerm qh) base root rest [qh] ∧
      ((s'.linkTerm qh).qhs qh).qhLink.terminate = 1 ∧ s'.calls = s.calls := by
  obtain ⟨⟨a, pool⟩, htake, hs'⟩ := Outcome.bind_eq_ok hallocate
  obtain ⟨rfl, rfl⟩ := Prod.mk.inj (Except.ok.inj hs')
  have hbooks := h.qhs.take htake
  have hnew : ∀ b ∈ base :: root :: rest, b ≠ a := by
    rintro b hb rfl
    exact (List.nodup_cons.mp hbooks.nodup).1 hb
  refine ⟨⟨h.periodic, h.async, ?_, hbooks, ?_, h.free⟩, by simp [State.linkTerm], rfl⟩
  · apply h.visits.congr
    intro b hb
    have hne := hnew b (List.mem_cons_of_mem base hb)
    exact hop_congr d (by simp [State.linkTerm, hne])
  · have hsame : ∀ b ∈ base :: root :: rest,
        (Function.update s.qhs a ⟨⟨1, 0, 0⟩, []⟩ b).tdList = (s.qhs b).tdList := by
      intro b hb
      simp [hnew b hb]
    have htds : Books d.tdPool s.tdPool ([] ++ s.tdsOf (base :: root :: rest)) := h.tds
    have hshape : ({ s.setQh a ⟨⟨0, 0, 0⟩, []⟩ with qhPool := pool }.linkTerm a).tdsOf
        ([a] ++ base :: root :: rest) = [] ++ s.tdsOf (base :: root :: rest) := by
      simpa [State.tdsOf, State.linkTerm] using List.flatMap_congr hsame
    rw [hshape]
    exact htds

/-- A descriptor is made for a queue head that belongs to no list. -/
theorem Schedule.createTd (h : Schedule d s base root rest [qh])
    (hend : (s.qhs qh).qhLink.terminate = 1) (hcreate : createTd s qh = .ok s') :
    Schedule d s' base root rest [qh] ∧ (s'.qhs qh).qhLink.terminate = 1 ∧
      s'.calls = s.calls := by
  obtain ⟨⟨td, pool⟩, htake, hs'⟩ := Outcome.bind_eq_ok hcreate
  obtain rfl := Except.ok.inj hs'
  have hnew : ∀ b ∈ base :: root :: rest, b ≠ qh := by
    rintro b hb rfl
    exact (List.nodup_cons.mp h.qhs.nodup).1 hb
  have hbooks := h.tds.take htake
  have hsame : ∀ b ∈ base :: root :: rest, (Function.update s.qhs qh
      { s.qhs qh with tdList := (s.qhs qh).tdList ++ [td] } b).tdList = (s.qhs b).tdList := by
    intro b hb
    simp [hnew b hb]
  have hlist := List.flatMap_congr hsame
  refine ⟨⟨h.periodic, h.async, ?_, h.qhs, ?_, h.free⟩, by simpa using hend, rfl⟩
  · apply h.visits.congr
    intro b hb
    have hne := hnew b (List.mem_cons_of_mem base hb)
    exact hop_congr d (by simp [hne])
  · apply hbooks.perm
    have hmiddle : (td :: ((s.qhs qh).tdList ++ s.tdsOf (base :: root :: rest))).Perm
        ((s.qhs qh).tdList ++ td :: s.tdsOf (base :: root :: rest)) := List.perm_middle.symm
    simpa [State.tdsOf, hlist] using hmiddle

/-- What `ehci_control` has made when it returns from its `list_append`. -/
theorem control_spec {id : ℕ} {transfer : Transfer} (h : Schedule d s base root rest [])
    (hcontrol : control d s id transfer = .ok s') :
    ∃ qh, s'.asyncList = root :: (rest ++ [qh]) ∧ hop d s' root = .to qh ∧ hop d s' qh = .stop ∧
      s'.calls = Function.update s.calls id (some ⟨qh, transfer.status, false⟩) ∧
      (rest = [] → Schedule d s' base root [qh] []) := by
  obtain ⟨⟨qh, s₁⟩, hqh, hcontrol⟩ := Outcome.bind_eq_ok hcontrol
  have hnew := h.allocateQh d hqh
  obtain ⟨s₂, htd, hcontrol⟩ := Outcome.bind_eq_ok hcontrol
  have hsetup := hnew.1.createTd d hnew.2.1 htd
  obtain ⟨s₃, hdata, hcontrol⟩ := Outcome.bind_eq_ok hcontrol
  have hpackets : Schedule d s₃ base root rest [qh] ∧ (s₃.qhs qh).qhLink.terminate = 1 ∧
      s₃.calls = s.calls := by
    refine makeData_invariant (P := fun t => Schedule d t base root rest [qh] ∧
      (t.qhs qh).qhLink.terminate = 1 ∧ t.calls = s.calls) transfer ?_ ?_ hdata
    · rintro t t' ⟨ht, hend, hcalls⟩ hmake
      have hnext := ht.createTd d hend hmake
      exact ⟨hnext.1, hnext.2.1, hnext.2.2.trans hcalls⟩
    · exact ⟨hsetup.1, hsetup.2.1, hsetup.2.2.trans hnew.2.2⟩
  obtain ⟨s₄, hstatus, hcontrol⟩ := Outcome.bind_eq_ok hcontrol
  obtain ⟨hdone, hend, hcalls⟩ := hpackets.1.createTd d hpackets.2.1 hstatus
  have hhead : s₄.asyncList.head? = some root := by simp [hdone.async]
  rw [hhead] at hcontrol
  obtain rfl := Except.ok.inj hcontrol
  have hchunk := hdone.qhs.isChunk (List.mem_cons_self (a := qh))
  have hnd := hdone.qhs.nodup
  have hne : qh ≠ root := by
    rintro rfl
    simp at hnd
  have hto : hop d (s₄.linkQh d root qh) root = .to qh :=
    hop_of_linked d hchunk (by simp [State.linkQh])
  have hstop : hop d (s₄.linkQh d root qh) qh = .stop := by
    rw [hop_eq_stop_iff, linkQh_other d hne]
    exact hend
  refine ⟨qh, by simp [hdone.async], hto, hstop, by simp [hcalls, hpackets.2.2], ?_⟩
  rintro rfl
  have hperm : ([qh] ++ [base, root]).Perm [base, root, qh] := List.perm_append_comm
  refine ⟨hdone.periodic, by simp [hdone.async], ⟨hto, hstop⟩, hdone.qhs.perm hperm, ?_,
    hdone.free⟩
  have hbooks := hdone.tds.perm (hperm.flatMap_right fun a => (s₄.qhs a).tdList)
  simpa [State.tdsOf] using hbooks

/-- The only member behind the first one is destroyed. -/
theorem destroyQh_last (h : Schedule d s base root [qh] [])
    (hdestroy : destroyQh d s qh = .ok s') :
    Schedule d s' base root [] [] ∧ s'.calls = s.calls := by
  have hnd := h.qhs.nodup
  have hperiodic : qh ∉ s.periodicList := by
    rw [h.periodic]
    grind
  have hasync : qh ∈ s.asyncList := by simp [h.async]
  have hne : root ≠ qh := by
    rintro rfl
    simp at hnd
  have hend : (s.qhs qh).qhLink.terminate = 1 := (hop_eq_stop_iff d).mp h.visits.2
  have hsplit : unlink d { s with locked := true } qh s.asyncList = .ok (.done
      (({ s with locked := true } : State).linkTerm root |>.setQh root
        ⟨⟨1, (s.qhs root).qhLink.select, 0⟩, (s.qhs root).tdList⟩) [root]) := by
    simp [unlink, h.async, hne, hend, State.linkTerm]
  simp only [destroyQh, hperiodic, hasync, if_false, if_true, hsplit] at hdestroy
  obtain rfl := Except.ok.inj hdestroy
  have hperm : ([base, root] ++ [qh]).Perm ([qh] ++ [base, root]) := List.perm_append_comm
  have hqhs : Books d.qhPool s.qhPool (qh :: [base, root]) := h.qhs.perm hperm
  have htds := h.tds.perm (hperm.flatMap_right fun a => (s.qhs a).tdList)
  refine ⟨⟨h.periodic, rfl, ?_, hqhs.give, ?_, rfl⟩, rfl⟩
  · exact (hop_eq_stop_iff d).mpr (by simp [release])
  · have hsame : ∀ a, (Function.update s.qhs root
        ⟨⟨1#1, (s.qhs root).qhLink.select, 0#27⟩, (s.qhs root).tdList⟩ a).tdList =
          (s.qhs a).tdList := by
      intro a
      by_cases heq : a = root <;> simp [heq]
    have hgiven : Books d.tdPool (s.tdPool.giveAll (s.qhs qh).tdList) (s.tdsOf [base, root]) :=
      Books.giveAll (by simpa [State.tdsOf] using htds)
    simpa [release, State.tdsOf, State.linkTerm, hsame] using hgiven

/-- Whose queue heads are the members behind the first one: nobody's, or that of the one call
whose queue head `ehci_waitForQH` has not destroyed. -/
def Owned (calls : ℕ → Option Call) : List Addr → Prop
  | [] => ∀ id c, calls id = some c → c.destroyed = true
  | [qh] => ∃ id c, calls id = some c ∧ c.destroyed = false ∧ c.qh = qh ∧
      ∀ id' c', calls id' = some c' → c'.destroyed = false → id' = id
  | _ => False

structure Kept (s : State) : Prop where
  schedule : ∃ base root rest, Schedule d s base root rest [] ∧ Owned s.calls rest
  waited : ∀ id c, s.calls id = some c → c.destroyed = true → c.status ≠ inProgress

theorem Schedule.members (h : Schedule d s base root rest beside) :
    s.members = base :: root :: rest := by
  simp [State.members, h.periodic, h.async]

theorem Kept.safe (h : Kept d s) : Safe d s := by
  obtain ⟨base, root, rest, hs, howned⟩ := h.schedule
  have hqhs := hs.qhs.balanced
  have htds := hs.tds.balanced
  refine ⟨⟨root, by simp [hs.async], ?_⟩, ?_, ?_, hs.free, ?_, ?_⟩
  · intro n hn
    rw [hs.async] at hn ⊢
    exact hs.visits.walk hn
  · simpa [hs.members] using hqhs
  · simpa [hs.members] using htds
  · intro id c hc halive
    match rest, howned with
    | [], howned => exact absurd (howned id c hc) (by simp [halive])
    | [qh], ⟨id₀, c₀, hc₀, _, hqh, honly⟩ =>
      obtain rfl := honly id c hc halive
      obtain rfl := Option.some.inj (hc₀.symm.trans hc)
      simp [hs.async, hqh]
  · intro qh hmem
    rw [hs.async, List.tail_cons] at hmem
    match rest, howned with
    | [], _ => exact absurd hmem List.not_mem_nil
    | [qh₀], ⟨id₀, c₀, hc₀, halive, hqh, _⟩ =>
      obtain rfl := List.mem_singleton.mp hmem
      exact ⟨id₀, c₀, hc₀, halive, hqh⟩

/-- A call whose queue head is not destroyed owns the only member behind the first one. -/
theorem Kept.of_alive (h : Kept d s) {id : ℕ} {c : Call} (hc : s.calls id = some c)
    (halive : c.destroyed = false) :
    ∃ base root, Schedule d s base root [c.qh] [] ∧
      ∀ id' c', s.calls id' = some c' → c'.destroyed = false → id' = id := by
  obtain ⟨base, root, rest, hs, howned⟩ := h.schedule
  match rest, hs, howned with
  | [], _, howned => exact absurd (howned id c hc) (by simp [halive])
  | [qh], hs, ⟨id₀, c₀, hc₀, _, hqh, honly⟩ =>
    obtain rfl := honly id c hc halive
    obtain rfl := Option.some.inj (hc₀.symm.trans hc)
    subst hqh
    exact ⟨base, root, hs, honly⟩

theorem control_kept {id : ℕ} {transfer : Transfer} (h : Kept d s) (hfree : s.calls id = none)
    (honly : s.asyncList.length = 1) (hcontrol : control d s id transfer = .ok s') :
    Kept d s' := by
  obtain ⟨base, root, rest, hs, howned⟩ := h.schedule
  have hrest : rest = [] := by simpa [hs.async] using honly
  subst hrest
  obtain ⟨qh, -, -, -, hcalls, hnext⟩ := control_spec d hs hcontrol
  refine ⟨⟨base, root, [qh], hnext rfl, id, ⟨qh, transfer.status, false⟩, ?_, rfl, rfl, ?_⟩, ?_⟩
  · simp [hcalls]
  · intro id' c' hc' halive
    by_contra hne
    rw [hcalls, Function.update_of_ne hne] at hc'
    simp [howned id' c' hc'] at halive
  · intro id' c' hc' hgone
    by_cases heq : id' = id
    · subst heq
      simp only [hcalls, Function.update_self, Option.some.injEq] at hc'
      simp [← hc'] at hgone
    · rw [hcalls, Function.update_of_ne heq] at hc'
      exact h.waited id' c' hc' hgone

/-- After the only queue head of a transfer was destroyed, whatever becomes of its call: it is
over or it remembers that. -/
theorem destroyQh_kept {id : ℕ} {c : Call} {call : Option Call} (h : Kept d s)
    (hc : s.calls id = some c) (halive : c.destroyed = false)
    (hcall : ∀ c', call = some c' → c'.destroyed = true ∧ c'.status ≠ inProgress)
    (hdestroy : destroyQh d s c.qh = .ok s') :
    Kept d { s' with calls := Function.update s'.calls id call } := by
  obtain ⟨base, root, hs, honly⟩ := h.of_alive d hc halive
  obtain ⟨hs', hcalls⟩ := destroyQh_last d hs hdestroy
  have hshape : Schedule d { s' with calls := Function.update s'.calls id call } base root [] [] :=
    ⟨hs'.periodic, hs'.async, hs'.visits.congr fun _ _ => hop_congr d rfl, hs'.qhs, hs'.tds,
      hs'.free⟩
  have hothers : ∀ id' c', id' ≠ id → s'.calls id' = some c' → c'.destroyed = true := by
    intro id' c' hne hc'
    rw [hcalls] at hc'
    cases hgone : c'.destroyed with
    | true => rfl
    | false => exact absurd (honly id' c' hc' hgone) hne
  refine ⟨⟨base, root, [], hshape, ?_⟩, ?_⟩
  · intro id' c' hc'
    by_cases heq : id' = id
    · subst heq
      exact (hcall c' (by simpa using hc')).1
    · exact hothers id' c' heq (by simpa [heq] using hc')
  · intro id' c' hc' hgone
    by_cases heq : id' = id
    · subst heq
      exact (hcall c' (by simpa using hc')).2
    · have hold : s'.calls id' = some c' := by simpa [heq] using hc'
      exact h.waited id' c' (hcalls ▸ hold) hgone

theorem step_kept {a : Action} (h : Kept d s) (hm : Meets s a) (hstep : step d s a = .ok s') :
    Kept d s' := by
  cases a with
  | control id transfer =>
    simp only [step] at hstep
    split_ifs at hstep with hbusy
    · obtain rfl := Except.ok.inj hstep
      exact h
    · obtain ⟨-, hfree⟩ := not_or.mp hbusy
      have honly : s.asyncList.length = 1 := hm.resolve_left hfree
      exact control_kept d h (by simpa using hfree) honly hstep
  | waitForQh id token =>
    simp only [step] at hstep
    split at hstep
    · obtain rfl := Except.ok.inj hstep
      exact h
    next c hc =>
      split_ifs at hstep with hbusy
      · obtain rfl := Except.ok.inj hstep
        exact h
      · obtain ⟨-, hwaits⟩ := not_or.mp hbusy
        have halive : c.destroyed = false := by
          cases hgone : c.destroyed with
          | false => rfl
          | true => exact absurd (h.waited id c hc hgone) hwaits
        simp only [waitForQh] at hstep
        split_ifs at hstep with hended
        · obtain ⟨s₁, hdestroy, hs'⟩ := Outcome.bind_eq_ok hstep
          obtain rfl := Except.ok.inj hs'
          refine destroyQh_kept d h hc halive ?_ hdestroy
          rintro c' hc'
          obtain rfl := Option.some.inj hc'
          exact ⟨rfl, hended⟩
        · obtain rfl := Except.ok.inj hstep
          exact h
  | leave id =>
    simp only [step] at hstep
    split at hstep
    · obtain rfl := Except.ok.inj hstep
      exact h
    next c hc =>
      split_ifs at hstep with hbusy
      · obtain rfl := Except.ok.inj hstep
        exact h
      · obtain ⟨-, hended⟩ := not_or.mp hbusy
        obtain ⟨s₁, hdestroy, hs'⟩ := Outcome.bind_eq_ok hstep
        obtain rfl := Except.ok.inj hs'
        exact destroyQh_kept d h hc ((hm c hc).resolve_left hended) (by simp) hdestroy
  | destroyRoot => exact absurd hm id

/-- The first member of a list is not destroyed, and the lock stays held. -/
theorem destroyQh_root (hperiodic : s.periodicList.head? = some qh ∨
      qh ∉ s.periodicList ∧ s.asyncList.head? = some qh)
    (hdestroy : destroyQh d s qh = .ok s') : s'.locked = true := by
  have hroot : ∀ l : List Addr, l.head? = some qh →
      unlink d { s with locked := true } qh l = .ok .root := by
    intro l hl
    obtain ⟨rest, rfl⟩ := List.head?_eq_some_iff.mp hl
    simp [unlink]
  rcases hperiodic with hbase | ⟨hnot, hfirst⟩
  · have hmem : qh ∈ s.periodicList := List.mem_of_head? hbase
    simp only [destroyQh, hmem, if_true, hroot _ hbase] at hdestroy
    obtain rfl := Except.ok.inj hdestroy
    rfl
  · have hmem : qh ∈ s.asyncList := List.mem_of_head? hfirst
    simp only [destroyQh, hnot, hmem, if_false, if_true, hroot _ hfirst] at hdestroy
    obtain rfl := Except.ok.inj hdestroy
    rfl

/-- A second transfer that starts is not visited behind the first one. -/
theorem control_not_safe {id : ℕ} {transfer : Transfer} (h : Kept d s)
    (hmore : s.asyncList.length ≠ 1) (hcontrol : control d s id transfer = .ok s') :
    ¬ Safe d s' := by
  obtain ⟨base, root, rest, hs, howned⟩ := h.schedule
  obtain ⟨qh, hlist, hto, hstop, -⟩ := control_spec d hs hcontrol
  intro hsafe
  obtain ⟨first, hfirst, hwalk⟩ := hsafe.visited
  have hsame : first = root := by simpa [hlist, eq_comm] using hfirst
  subst hsame
  have hvisits : Visits (hop d s') [first, qh] := ⟨hto, hstop⟩
  have hlong := hwalk _ (Nat.le_refl _)
  rw [hlist] at hlong
  have hshort := hvisits.walk (n := (first :: (rest ++ [qh])).length) (by simp)
  rw [hshort] at hlong
  have hrest : rest = [] := by simpa using hlong
  simp [hs.async, hrest] at hmore

/-- A queue head that `ehci_waitForQH` has destroyed is given back a second time, or it is by then
that of another transfer and is taken from it. -/
theorem leave_not_safe {id : ℕ} {c : Call} (h : Kept d s) (hc : s.calls id = some c)
    (hgone : c.destroyed = true) (hleave : leave d s id c = .ok s') : ¬ Safe d s' := by
  obtain ⟨base, root, rest, hs, howned⟩ := h.schedule
  have hnd := hs.qhs.nodup
  obtain ⟨s₁, hdestroy, hs'⟩ := Outcome.bind_eq_ok hleave
  obtain rfl := Except.ok.inj hs'
  intro hsafe
  by_cases hbase : c.qh = base
  · have hlocked := destroyQh_root d (.inl (by simp [hs.periodic, hbase])) hdestroy
    exact absurd hsafe.free (by simp [hlocked])
  have hperiodic : c.qh ∉ s.periodicList := by simp [hs.periodic, hbase]
  by_cases hroot : c.qh = root
  · have hlocked := destroyQh_root d (.inr ⟨hperiodic, by simp [hs.async, hroot]⟩) hdestroy
    exact absurd hsafe.free (by simp [hlocked])
  -- a chunk that is given back without being on a list is missing in the books
  have hlisted : c.qh ∈ s.asyncList := by
    by_contra hasync
    simp only [destroyQh, hperiodic, hasync, if_false] at hdestroy
    obtain rfl := Except.ok.inj hdestroy
    have hbefore := hs.qhs.balanced.length_eq
    have hafter := hsafe.qhs.length_eq
    simp [release, Ledger.give, State.members, hs.periodic, hs.async] at hbefore hafter
    omega
  rw [hs.async] at hlisted
  rcases rest with _ | ⟨qh, _ | ⟨qh', more⟩⟩
  · exact absurd (List.mem_singleton.mp hlisted) hroot
  · obtain ⟨id₀, c₀, hc₀, halive, hqh, -⟩ := howned
    have htaken : c.qh = qh :=
      List.mem_singleton.mp ((List.mem_cons.mp hlisted).resolve_left hroot)
    have hother : id₀ ≠ id := by
      rintro rfl
      obtain rfl := Option.some.inj (hc₀.symm.trans hc)
      simp [hgone] at halive
    rw [htaken] at hdestroy
    obtain ⟨hafter, hcalls⟩ := destroyQh_last d hs hdestroy
    have hmember := hsafe.member id₀ c₀ (by simp [hother, hcalls, hc₀]) halive
    simp [hafter.async, hqh] at hmember
    rw [← htaken] at hmember
    exact hroot hmember
  · exact howned.elim

/-- A step that does not meet the condition is not safe. -/
theorem meets_of_safe {a : Action} (h : Kept d s) (hstep : step d s a = .ok s')
    (hsafe : Safe d s') : Meets s a := by
  have hfree : s.locked = false := h.safe.free
  cases a with
  | control id transfer =>
    by_contra hmeets
    obtain ⟨hbusy, hmore⟩ := not_or.mp hmeets
    simp only [step, hfree, hbusy, Bool.false_eq_true, or_self, if_false] at hstep
    exact control_not_safe d h hmore hstep hsafe
  | waitForQh id token => trivial
  | leave id =>
    intro c hc
    by_contra hmeets
    obtain ⟨hended, hgone⟩ := not_or.mp hmeets
    simp only [step, hc, hfree, hended, Bool.false_eq_true, or_self, if_false] at hstep
    exact leave_not_safe d h hc (by simpa using hgone) hstep hsafe
  | destroyRoot =>
    obtain ⟨base, root, rest, hs, howned⟩ := h.schedule
    have hnd := hs.qhs.nodup
    have hhead : s.asyncList.head? = some root := by simp [hs.async]
    have hnot : root ∉ s.periodicList := by
      rw [hs.periodic]
      grind
    simp only [step, hhead, hfree, Bool.false_eq_true, if_false] at hstep
    have hlocked := destroyQh_root d (.inr ⟨hnot, hhead⟩) hstep
    exact absurd hsafe.free (by simp [hlocked])

theorem safe_iff_allMeet {actions : List Action} (h : Kept d s) :
    (∀ s' ∈ states d s actions, Safe d s') ↔ AllMeet d s actions := by
  induction actions generalizing s with
  | nil => simpa [states, AllMeet] using h.safe
  | cons a actions ih =>
    simp only [states, AllMeet, List.forall_mem_cons]
    cases hstep : step d s a with
    | error e => simpa using h.safe
    | ok s' =>
      have hfirst : s' ∈ states d s' actions := by cases actions <;> simp [states]
      simp only [Except.ok.injEq, forall_eq']
      constructor
      · rintro ⟨-, hlater⟩
        have hmeets := meets_of_safe d h hstep (hlater s' hfirst)
        exact ⟨hmeets, (ih (step_kept d h hmeets hstep)).mp hlater⟩
      · rintro ⟨hmeets, hlater⟩
        exact ⟨h.safe, (ih (step_kept d h hmeets hstep)).mpr hlater⟩

theorem driverInit_kept (hinit : driverInit d = .ok s) : Kept d s := by
  obtain ⟨qhPool, hqhs, hinit⟩ := Outcome.bind_eq_ok hinit
  obtain rfl := Except.ok.inj
    ((poolCreate_newPool qhSize 512 d.qhBitmap d.qhStart (by decide)).symm.trans hqhs)
  obtain ⟨tdPool, htds, hinit⟩ := Outcome.bind_eq_ok hinit
  obtain rfl := Except.ok.inj
    ((poolCreate_newPool tdSize 512 d.tdBitmap d.tdStart (by decide)).symm.trans htds)
  have hqhBooks : Books d.qhPool _ [] :=
    .newPool (by decide) (by decide) (by decide) (by decide) d.qhRoom
  have htdBooks : Books d.tdPool _ [] :=
    .newPool (by decide) (by decide) (by decide) (by decide) d.tdRoom
  obtain ⟨⟨base, s₁⟩, hbase, hinit⟩ := Outcome.bind_eq_ok hinit
  obtain ⟨⟨a, pool⟩, htake, hs₁⟩ := Outcome.bind_eq_ok hbase
  obtain ⟨rfl, rfl⟩ := Prod.mk.inj (Except.ok.inj hs₁)
  obtain ⟨⟨root, s₂⟩, hroot, hinit⟩ := Outcome.bind_eq_ok hinit
  obtain ⟨⟨b, pool'⟩, htake', hs₂⟩ := Outcome.bind_eq_ok hroot
  obtain ⟨rfl, rfl⟩ := Prod.mk.inj (Except.ok.inj hs₂)
  obtain rfl := Except.ok.inj hinit
  have hbooks := (hqhBooks.take htake).take htake'
  have hne : a ≠ b := by
    rintro rfl
    exact (List.nodup_cons.mp hbooks.nodup).1 List.mem_cons_self
  refine ⟨⟨a, b, [], ⟨rfl, rfl, ?_, hbooks.perm (List.Perm.swap a b []), ?_, rfl⟩, ?_⟩, ?_⟩
  · exact (hop_eq_stop_iff d).mpr (by simp [State.linkTerm])
  · simpa [State.linkTerm, State.tdsOf, hne] using htdBooks
  · exact fun _ _ hc => nomatch hc
  · exact fun _ _ hc => nomatch hc

/-- Over every run of control transfers that start, wait and end in any order: the lists, the
pools and the lock are safe in every state exactly when every action meets the condition. -/
theorem lifecycle_safe_iff (d : Dma) {s : State} (actions : List Action)
    (hinit : driverInit d = .ok s) :
    (∀ s' ∈ states d s actions, Safe d s') ↔ AllMeet d s actions :=
  safe_iff_allMeet d (driverInit_kept d hinit)

/-- The queue heads of a pool that starts at 1 MiB. -/
theorem sample_toNat {c : Addr} (hc : IsChunk (newPool qhSize 512 (fun _ => 0) 0x100000) c) :
    ∃ f < 512, c.toNat = 0x100000 + 128 * f :=
  isChunk_toNat (by decide) (by decide) (by decide) (by decide) (by decide) hc

def sampleDma : Dma where
  qhStart := 0x100000
  tdStart := 0x200000
  qhBitmap := fun _ => 0
  tdBitmap := fun _ => 0
  memory := fun _ => ⟨⟨0, 0, 0⟩, []⟩
  qhRoom := by decide
  tdRoom := by decide
  physical := {
    address := id
    aligned := by
      intro c hc
      obtain ⟨f, hf, hval⟩ := sample_toNat hc
      simp only [id]
      omega
    below := by
      intro c hc
      obtain ⟨f, hf, hval⟩ := sample_toNat hc
      simp only [id]
      omega
    distinct := fun c c' _ _ heq => heq }

/-- A transfer that has failed before it starts is the only one whose queue head is destroyed
once. -/
theorem lifecycle_safe_of_failed : ∃ s, driverInit sampleDma = .ok s ∧
    ((∀ s' ∈ states sampleDma s [.control 0 ⟨0x5000, 8, failed, 8⟩, .leave 0], Safe sampleDma s') ↔
      AllMeet sampleDma s [.control 0 ⟨0x5000, 8, failed, 8⟩, .leave 0]) := by
  obtain ⟨s, hinit, -⟩ := Outcome.ok_of_holds (r := driverInit sampleDma) (P := fun _ => true)
    (by decide +kernel)
  exact ⟨s, hinit, lifecycle_safe_iff sampleDma _ hinit⟩

/-- The queue head of one transfer that is successful is given back twice. -/
theorem queue_head_released_twice : ¬ ∀ (d : Dma) (s : State) (actions : List Action),
    driverInit d = .ok s → ∀ s' ∈ states d s actions, Safe d s' := by
  intro h
  obtain ⟨s, hinit, hrest⟩ := Outcome.ok_of_holds (r := driverInit sampleDma) (P := fun s =>
    (states sampleDma s [.control 0 ⟨0x5000, 8, inProgress, 8⟩, .waitForQh 0 ⟨false, false, true⟩,
      .leave 0]).any fun s' => decide (s'.qhPool.taken.length ≠
        s'.qhPool.returned.length + s'.members.length)) (by decide +kernel)
  obtain ⟨s', hs', hbad⟩ := List.any_eq_true.mp hrest
  have hsafe := h sampleDma s _ hinit s' hs'
  have hlength := hsafe.qhs.length_eq
  rw [List.length_append] at hlength
  exact of_decide_eq_true hbad hlength

end ReduceOS.EhciLifecycle
