import ReduceOS.ChunkLedger
import ReduceOS.LinkWalk
import ReduceOS.UsbTransfer

/-!
The queue heads of the UHCI driver. The controller goes from one to the next by the physical
addresses in their link fields, and the driver keeps the same queue heads in a list. Both are
changed when a control transfer starts and when its queue head is destroyed.
-/
namespace ReduceOS.UhciSchedule

open Machine ChunkLedger LinkWalk UsbTransfer
open ChunkPool (Pool poolCreate)

structure QhLink where
  terminate : BitVec 1
  qh : BitVec 1
  qhlp : BitVec 28

/-- What the driver reads of a `uhci_qh_t`: the link and the transfer descriptors of `td_list`. -/
structure Qh where
  qhLink : QhLink
  tdList : List Addr

/-- The queue heads by address, the two pools, `qh_list` and the queue head to which the frame
list leads. -/
structure State where
  qhs : Addr → Qh
  qhPool : Ledger
  tdPool : Ledger
  qhList : List Addr
  skeleton : Addr

def chunkSize : BitVec 64 := 32

/-- The memory of the two pools, what was in it and in that of the bitmaps, and the physical
addresses of the queue heads. -/
structure Dma where
  qhStart : Addr
  tdStart : Addr
  qhBitmap : ℤ → BitVec 32
  tdBitmap : ℤ → BitVec 32
  memory : Addr → Qh
  qhRoom : qhStart.toNat + (512 * chunkSize).toNat ≤ 2 ^ 64
  tdRoom : tdStart.toNat + (512 * chunkSize).toNat ≤ 2 ^ 64
  physical : Physical (newPool chunkSize 512 qhBitmap qhStart) 4

def Dma.qhPool (d : Dma) : Pool := newPool chunkSize 512 d.qhBitmap d.qhStart

def Dma.tdPool (d : Dma) : Pool := newPool chunkSize 512 d.tdBitmap d.tdStart

section Source

variable (d : Dma)

def State.setQh (s : State) (a : Addr) (qh : Qh) : State :=
  { s with qhs := Function.update s.qhs a qh }

def State.linkTerm (s : State) (qh : Addr) : State :=
  s.setQh qh { s.qhs qh with qhLink := { (s.qhs qh).qhLink with terminate := 1 } }

def State.linkQh (s : State) (prev next : Addr) : State :=
  s.setQh prev { s.qhs prev with qhLink := ⟨0, 1, (d.physical.link next).setWidth 28⟩ }

def createQh (s : State) : Except Panic (Addr × State) := do
  let (qh, pool) ← s.qhPool.take
  return (qh, { s.setQh qh ⟨⟨0, 0, 0⟩, []⟩ with qhPool := pool })

/-- `uhci_createTD`, and the descriptor goes into the list of a queue head. -/
def createTd (s : State) (qh : Addr) : Except Panic State := do
  let (td, pool) ← s.tdPool.take
  return { s.setQh qh { s.qhs qh with tdList := (s.qhs qh).tdList ++ [td] } with tdPool := pool }

def control (s : State) (transfer : Transfer) : Except Panic State := do
  let (qh, s) ← createQh s
  let s := s.linkTerm qh
  let s ← createTd s qh
  let s ← makeData (createTd · qh) transfer s
  let s ← createTd s qh
  match s.qhList.getLast? with
  | none => .error .pageFault
  | some current => return { s.linkQh d current qh with qhList := s.qhList ++ [qh] }

local instance instLawfulBEqAddr : LawfulBEq Addr := inferInstance

/-- The part of `uhci_destroyQH` that takes the queue head out of the chain and the list. -/
def unlink (s : State) (qh : Addr) : Except Panic State :=
  if qh ∈ s.qhList then
    let before := s.qhList.takeWhile (· ≠ qh)
    let after := (s.qhList.dropWhile (· ≠ qh)).tail
    match before.getLast?, after with
    | none, _ => .error .pageFault
    | some prev, [] =>
      let s := s.linkTerm prev
      let s := s.setQh prev { s.qhs prev with qhLink := { (s.qhs prev).qhLink with qhlp := 0 } }
      .ok { s with qhList := before ++ after }
    | some prev, next :: _ => .ok { s.linkQh d prev next with qhList := before ++ after }
  else .ok s

def destroyQh (s : State) (qh : Addr) : Except Panic State := do
  let s ← unlink d s qh
  return { s with
    tdPool := s.tdPool.giveAll (s.qhs qh).tdList
    qhPool := s.qhPool.give qh }

/-- `uhci_initController`, where it makes the pools and the first queue head. -/
def initController : Except Panic State := do
  let qhPool ← poolCreate d.qhBitmap chunkSize (512 * chunkSize) d.qhStart
  let tdPool ← poolCreate d.tdBitmap chunkSize (512 * chunkSize) d.tdStart
  let (qh, s) ← createQh
    ⟨d.memory, ⟨⟨qhPool, []⟩, [], []⟩, ⟨⟨tdPool, []⟩, [], []⟩, [], null⟩
  return { s with qhList := s.qhList ++ [qh], skeleton := qh }.linkTerm qh

inductive Action
  | control (transfer : Transfer)
  | destroyQh (qh : Addr)

def step (s : State) : Action → Except Panic State
  | .control transfer => control d s transfer
  | .destroyQh qh => destroyQh d s qh

def run (s : State) : List Action → Except Panic State
  | [] => .ok s
  | a :: actions => do
    let s ← step d s a
    run s actions

end Source

variable (d : Dma)

def hop (s : State) (qh : Addr) : Hop Addr :=
  let link := (s.qhs qh).qhLink
  if link.terminate = 1 then .stop
  else if link.qh = 1 then
    match d.physical.chunkAt (link.qhlp.setWidth 64 <<< 4) with
    | some next => .to next
    | none => .lost
  else .lost

def Allowed (s : State) : Action → Prop
  | .control _ => True
  | .destroyQh qh => qh ∈ s.qhList.tail

def AllAllowed (s : State) : List Action → Prop
  | [] => True
  | a :: actions => Allowed s a ∧ ∀ s', step d s a = .ok s' → AllAllowed s' actions

def State.tds (s : State) : List Addr := s.qhList.flatMap fun qh => (s.qhs qh).tdList

/-- The controller visits the members of the list in its order. Every chunk that was taken was
given back, or it belongs to a member. -/
structure Mirrored (s : State) : Prop where
  first : s.qhList.head? = some s.skeleton
  visited : ∀ n, s.qhList.length ≤ n → walk (hop d s) n s.skeleton = some s.qhList
  qhs : s.qhPool.taken.Perm (s.qhPool.returned ++ s.qhList)
  tds : s.tdPool.taken.Perm (s.tdPool.returned ++ s.tds)

/-- For the queue head `qh` chunks were taken out of the pools, and none was given back. -/
structure Takes (s s' : State) (qh : Addr) : Prop where
  qhTaken : s'.qhPool.taken = qh :: s.qhPool.taken
  qhReturned : s'.qhPool.returned = s.qhPool.returned
  tdTaken : s'.tdPool.taken = (s'.qhs qh).tdList.reverse ++ s.tdPool.taken
  tdReturned : s'.tdPool.returned = s.tdPool.returned
  others : ∀ a, a ≠ qh → (s'.qhs a).tdList = (s.qhs a).tdList

def Started (s s' : State) : Prop :=
  ∃ qh, qh ∉ s.qhList ∧ s'.qhList = s.qhList ++ [qh] ∧ Takes s s' qh

/-- A queue head is no member any more, and it and its descriptors were given back, nothing else. -/
structure Destroyed (s s' : State) (qh : Addr) : Prop where
  qhList : s'.qhList = s.qhList.erase qh
  gone : qh ∉ s'.qhList
  qhTaken : s'.qhPool.taken = s.qhPool.taken
  qhReturned : s'.qhPool.returned = qh :: s.qhPool.returned
  tdTaken : s'.tdPool.taken = s.tdPool.taken
  tdReturned : s'.tdPool.returned = (s.qhs qh).tdList.reverse ++ s.tdPool.returned
  others : ∀ a, (s'.qhs a).tdList = (s.qhs a).tdList

section Links

variable {s s' : State} {a b c qh : Addr}

@[simp] theorem setQh_qhs (s : State) (a : Addr) (qh : Qh) :
    (s.setQh a qh).qhs = Function.update s.qhs a qh := rfl

@[simp] theorem setQh_qhList (s : State) (a : Addr) (qh : Qh) :
    (s.setQh a qh).qhList = s.qhList := rfl

@[simp] theorem setQh_tdPool (s : State) (a : Addr) (qh : Qh) :
    (s.setQh a qh).tdPool = s.tdPool := rfl

@[simp] theorem linkQh_tdPool (s : State) (prev next : Addr) :
    (s.linkQh d prev next).tdPool = s.tdPool := rfl

@[simp] theorem linkQh_skeleton (s : State) (prev next : Addr) :
    (s.linkQh d prev next).skeleton = s.skeleton := rfl

/-- A queue head that is linked leads to the one it is linked to. -/
theorem hop_of_linked (hb : IsChunk d.qhPool b)
    (hlink : (s.qhs a).qhLink = ⟨0, 1, (d.physical.link b).setWidth 28⟩) : hop d s a = .to b := by
  have hshift := d.physical.link_shift (by decide) hb
  simp [hop, hlink, hshift, d.physical.chunkAt_address hb]

theorem hop_of_terminate (hlink : (s.qhs a).qhLink.terminate = 1) : hop d s a = .stop := by
  simp [hop, hlink]

theorem hop_congr (hlink : (s'.qhs a).qhLink = (s.qhs a).qhLink) : hop d s' a = hop d s a := by
  simp [hop, hlink]

end Links

structure Kept (s : State) : Prop where
  first : s.qhList.head? = some s.skeleton
  visits : Visits (hop d s) s.qhList
  qhs : Books d.qhPool s.qhPool s.qhList
  tds : Books d.tdPool s.tdPool s.tds

/-- What holds while there is a queue head `qh` beside those in the list. -/
structure Beside (s : State) (qh : Addr) : Prop where
  first : s.qhList.head? = some s.skeleton
  visits : Visits (hop d s) s.qhList
  qhs : Books d.qhPool s.qhPool (qh :: s.qhList)
  tds : Books d.tdPool s.tdPool ((s.qhs qh).tdList ++ s.tds)

/-- What holds while `uhci_control` makes the queue head `qh`. -/
structure Building (s : State) (qh : Addr) : Prop extends Beside d s qh where
  ends : (s.qhs qh).qhLink.terminate = 1

variable {s s' : State} {qh : Addr}

/-- The descriptors of the members are the same when no member is changed. -/
theorem tds_update (s : State) (q : Qh) (hqh : qh ∉ s.qhList) :
    (s.qhList.flatMap fun a => (Function.update s.qhs qh q a).tdList) = s.tds := by
  apply List.flatMap_congr
  intro a ha
  have hne : a ≠ qh := by
    rintro rfl
    exact hqh ha
  simp [hne]

theorem visits_update (h : Visits (hop d s) s.qhList) (q : Qh) (hqh : qh ∉ s.qhList) :
    Visits (hop d (s.setQh qh q)) s.qhList := by
  apply h.congr
  intro a ha
  have hne : a ≠ qh := by
    rintro rfl
    exact hqh ha
  exact hop_congr d (by simp [hne])

theorem Beside.not_mem (h : Beside d s qh) : qh ∉ s.qhList :=
  (List.nodup_cons.mp h.qhs.nodup).1

theorem createQh_building (h : Kept d s) (hcreate : createQh s = .ok (qh, s')) :
    Building d (s'.linkTerm qh) qh := by
  obtain ⟨⟨a, pool⟩, htake, hs'⟩ := Outcome.bind_eq_ok hcreate
  obtain ⟨rfl, rfl⟩ := Prod.mk.inj (Except.ok.inj hs')
  have hbooks := h.qhs.take htake
  have hnew : a ∉ s.qhList := (List.nodup_cons.mp hbooks.nodup).1
  have hterm := visits_update d (visits_update d h.visits ⟨⟨0, 0, 0⟩, []⟩ hnew)
    ⟨⟨1, 0, 0⟩, []⟩ hnew
  refine ⟨⟨h.first, ?_, hbooks, ?_⟩, ?_⟩
  · apply hterm.congr
    intro b hb
    exact hop_congr d (by simp [State.linkTerm])
  · have htds := h.tds
    rw [← tds_update s ⟨⟨1, 0, 0⟩, []⟩ hnew] at htds
    simpa [State.linkTerm, State.tds] using htds
  · simp [State.linkTerm]

theorem createTd_building (h : Building d s qh) (hcreate : createTd s qh = .ok s') :
    Building d s' qh := by
  obtain ⟨⟨td, pool⟩, htake, hs'⟩ := Outcome.bind_eq_ok hcreate
  obtain rfl := Except.ok.inj hs'
  have hbooks := h.tds.take htake
  refine ⟨⟨h.first, ?_, h.qhs, ?_⟩, by simpa using h.ends⟩
  · apply (visits_update d h.visits _ h.not_mem).congr
    intro b hb
    exact hop_congr d rfl
  · have htds := tds_update s { s.qhs qh with tdList := (s.qhs qh).tdList ++ [td] } h.not_mem
    have hperm : (td :: ((s.qhs qh).tdList ++ s.tds)).Perm
        ((s.qhs qh).tdList ++ [td] ++ s.tds) := by
      simpa using List.perm_middle.symm
    simpa [State.tds, htds] using hbooks.perm hperm

@[simp] theorem linkQh_tdList (s : State) (prev next a : Addr) :
    ((s.linkQh d prev next).qhs a).tdList = (s.qhs a).tdList := by
  by_cases heq : a = prev <;> simp [State.linkQh, heq]

theorem linkQh_other {prev next a : Addr} (hne : a ≠ prev) :
    ((s.linkQh d prev next).qhs a).qhLink = (s.qhs a).qhLink := by
  simp [State.linkQh, hne]

theorem control_kept {transfer : Transfer} (h : Kept d s)
    (hcontrol : control d s transfer = .ok s') : Kept d s' := by
  obtain ⟨⟨qh, s₁⟩, hqh, hcontrol⟩ := Outcome.bind_eq_ok hcontrol
  have hbuild := createQh_building d h hqh
  obtain ⟨s₂, htd, hcontrol⟩ := Outcome.bind_eq_ok hcontrol
  have hsetup := createTd_building d hbuild htd
  obtain ⟨s₃, hdata, hcontrol⟩ := Outcome.bind_eq_ok hcontrol
  have hpackets : Building d s₃ qh :=
    makeData_invariant (P := fun s => Building d s qh) transfer (fun _ _ => createTd_building d)
      hsetup hdata
  obtain ⟨s₄, hstatus, hcontrol⟩ := Outcome.bind_eq_ok hcontrol
  have hdone := createTd_building d hpackets hstatus
  split at hcontrol
  · contradiction
  next current hlast =>
    obtain rfl := Except.ok.inj hcontrol
    obtain ⟨xs, hlist⟩ := List.getLast?_eq_some_iff.mp hlast
    have hnd := (hdone.qhs.nodup : (qh :: s₄.qhList).Nodup)
    have hvisits := hdone.visits
    rw [hlist] at hnd hvisits
    have hchunk := hdone.qhs.isChunk (List.mem_cons_self (a := qh))
    refine ⟨?_, ?_, ?_, ?_⟩
    · simp [List.head?_append, hdone.first]
    · change Visits (hop d (s₄.linkQh d current qh)) (s₄.qhList ++ [qh])
      rw [hlist, List.append_assoc]
      apply hvisits.concat
      · exact hop_of_linked d hchunk (by simp [State.linkQh])
      · have hne : qh ≠ current := by
          rintro rfl
          simp at hnd
        exact hop_of_terminate d (by rw [linkQh_other d hne]; exact hdone.ends)
      · intro c hc
        have hne : c ≠ current := by
          rintro rfl
          simp [List.nodup_append] at hnd
          grind
        exact hop_congr d (linkQh_other d hne)
    · exact hdone.qhs.perm (List.perm_append_singleton qh s₄.qhList).symm
    · have hperm : ((s₄.qhs qh).tdList ++ s₄.tds).Perm (s₄.tds ++ (s₄.qhs qh).tdList) :=
        List.perm_append_comm
      simpa [State.tds] using hdone.tds.perm hperm

theorem createTd_takes {s₁ : State} (h : Takes s s₁ qh) (hlist : s₁.qhList = s.qhList)
    (hcreate : createTd s₁ qh = .ok s') : Takes s s' qh ∧ s'.qhList = s.qhList := by
  obtain ⟨⟨td, pool⟩, htake, hs'⟩ := Outcome.bind_eq_ok hcreate
  obtain rfl := Except.ok.inj hs'
  obtain ⟨htaken, hreturned⟩ := Ledger.take_entries htake
  refine ⟨⟨h.qhTaken, h.qhReturned, ?_, hreturned.trans h.tdReturned, ?_⟩, hlist⟩
  · simp [htaken, h.tdTaken]
  · intro a hne
    simpa [hne] using h.others a hne

theorem createQh_takes (hcreate : createQh s = .ok (qh, s')) :
    Takes s (s'.linkTerm qh) qh ∧ (s'.linkTerm qh).qhList = s.qhList := by
  obtain ⟨⟨a, pool⟩, htake, hs'⟩ := Outcome.bind_eq_ok hcreate
  obtain ⟨rfl, rfl⟩ := Prod.mk.inj (Except.ok.inj hs')
  obtain ⟨htaken, hreturned⟩ := Ledger.take_entries htake
  refine ⟨⟨htaken, hreturned, ?_, rfl, ?_⟩, rfl⟩
  · simp [State.linkTerm, State.setQh]
  · intro b hne
    simp [State.linkTerm, State.setQh, hne]

/-- A transfer that starts takes chunks for one new member. -/
theorem control_started {transfer : Transfer} (h : Kept d s)
    (hcontrol : control d s transfer = .ok s') : Started s s' := by
  obtain ⟨⟨qh, s₁⟩, hqh, hcontrol⟩ := Outcome.bind_eq_ok hcontrol
  obtain ⟨s₂, htd, hcontrol⟩ := Outcome.bind_eq_ok hcontrol
  obtain ⟨hfirst, hlist⟩ := createQh_takes hqh
  have hnew : qh ∉ s.qhList := hlist ▸ (createQh_building d h hqh).not_mem
  have hsetup := createTd_takes hfirst hlist htd
  obtain ⟨s₃, hdata, hcontrol⟩ := Outcome.bind_eq_ok hcontrol
  have hpackets : Takes s s₃ qh ∧ s₃.qhList = s.qhList :=
    makeData_invariant (P := fun s₁ => Takes s s₁ qh ∧ s₁.qhList = s.qhList) transfer
      (fun _ _ htakes => createTd_takes htakes.1 htakes.2) hsetup hdata
  obtain ⟨s₄, hstatus, hcontrol⟩ := Outcome.bind_eq_ok hcontrol
  obtain ⟨htakes, hkept⟩ := createTd_takes hpackets.1 hpackets.2 hstatus
  split at hcontrol
  · contradiction
  next current hlast =>
    obtain rfl := Except.ok.inj hcontrol
    refine ⟨qh, hnew, by rw [hkept], htakes.qhTaken, htakes.qhReturned, ?_, htakes.tdReturned, ?_⟩
    · simpa using htakes.tdTaken
    · intro a hne
      simpa using htakes.others a hne

/-- One queue head has a new link, and the list is `l`. -/
structure Relinked (s s' : State) (prev : Addr) (l : List Addr) : Prop where
  qhList : s'.qhList = l
  tdList : ∀ a, (s'.qhs a).tdList = (s.qhs a).tdList
  qhLink : ∀ a, a ≠ prev → (s'.qhs a).qhLink = (s.qhs a).qhLink
  qhPool : s'.qhPool = s.qhPool
  tdPool : s'.tdPool = s.tdPool
  skeleton : s'.skeleton = s.skeleton

/-- The queue head before the one that is taken out is linked to the one behind it, or it ends
the chain. -/
theorem unlink_cases (hnd : s.qhList.Nodup) (hqh : qh ∈ s.qhList.tail)
    (hunlink : unlink d s qh = .ok s') :
    ∃ xs prev ys, s.qhList = xs ++ prev :: qh :: ys ∧ Relinked s s' prev (xs ++ prev :: ys) ∧
      ((ys = [] ∧ (s'.qhs prev).qhLink.terminate = 1) ∨
        ∃ next rest, ys = next :: rest ∧
          (s'.qhs prev).qhLink = ⟨0, 1, (d.physical.link next).setWidth 28⟩) := by
  obtain ⟨xs, prev, ys, hlist, hbefore, hafter⟩ := split_tail hnd hqh
  have hmem : qh ∈ s.qhList := List.mem_of_mem_tail hqh
  simp only [unlink, hmem, if_true, hbefore, hafter, List.getLast?_concat] at hunlink
  refine ⟨xs, prev, ys, hlist, ?_⟩
  cases ys with
  | nil =>
    obtain rfl := Except.ok.inj hunlink
    refine ⟨⟨by simp, ?_, ?_, rfl, rfl, rfl⟩, .inl ⟨rfl, by simp [State.linkTerm]⟩⟩
    · intro a
      by_cases heq : a = prev <;> simp [State.linkTerm, heq]
    · intro a hne
      simp [State.linkTerm, hne]
  | cons next ys =>
    obtain rfl := Except.ok.inj hunlink
    refine ⟨⟨by simp, linkQh_tdList d s prev next, fun a => linkQh_other d, rfl, rfl, rfl⟩, ?_⟩
    exact .inr ⟨next, ys, rfl, by simp [State.linkQh]⟩

/-- A member other than the first one is taken out of the chain and the list. -/
theorem unlink_beside (h : Kept d s) (hqh : qh ∈ s.qhList.tail) (hunlink : unlink d s qh = .ok s') :
    Beside d s' qh := by
  have hnd := h.qhs.nodup
  obtain ⟨xs, prev, ys, hlist, hrelinked, hlink⟩ := unlink_cases d hnd hqh hunlink
  have hperm : (xs ++ prev :: qh :: ys).Perm (qh :: (xs ++ prev :: ys)) := by
    have hmiddle : (xs ++ [prev] ++ qh :: ys).Perm (qh :: (xs ++ [prev] ++ ys)) :=
      List.perm_middle
    simpa using hmiddle
  have hqhs := h.qhs
  have htds := h.tds
  have hvisits := h.visits
  have hfirst := h.first
  unfold State.tds at htds
  rw [hlist] at hnd hqhs htds hvisits hfirst
  have hothers : ∀ c ∈ xs ++ ys, (s'.qhs c).qhLink = (s.qhs c).qhLink := by
    intro c hc
    apply hrelinked.qhLink
    rintro rfl
    simp [List.nodup_append] at hnd
    grind
  have hbooks := hqhs.perm hperm
  refine ⟨?_, ?_, ?_, ?_⟩
  · rw [hrelinked.qhList, hrelinked.skeleton]
    cases xs <;> simpa using hfirst
  · rw [hrelinked.qhList]
    rcases hlink with ⟨rfl, hterm⟩ | ⟨next, rest, rfl, hto⟩
    · apply hvisits.dropLast (hop_of_terminate d hterm)
      intro c hc
      exact hop_congr d (hothers c (by simpa using hc))
    · apply hvisits.erase
      · exact hop_of_linked d (hbooks.isChunk (by simp)) hto
      · intro c hc
        exact hop_congr d (hothers c (List.mem_append_left _ hc))
      · intro c hc
        exact hop_congr d (hothers c (List.mem_append_right _ hc))
  · rw [hrelinked.qhList, hrelinked.qhPool]
    exact hbooks
  · have hheld := htds.perm (hperm.flatMap_right fun a => (s.qhs a).tdList)
    simpa [State.tds, hrelinked.qhList, hrelinked.tdPool, hrelinked.tdList] using hheld

theorem destroyQh_kept (h : Kept d s) (hqh : qh ∈ s.qhList.tail)
    (hdestroy : destroyQh d s qh = .ok s') : Kept d s' := by
  obtain ⟨s₁, hunlink, hs'⟩ := Outcome.bind_eq_ok hdestroy
  obtain rfl := Except.ok.inj hs'
  have hbeside := unlink_beside d h hqh hunlink
  refine ⟨hbeside.first, ?_, hbeside.qhs.give, hbeside.tds.giveAll⟩
  apply hbeside.visits.congr
  intro a ha
  exact hop_congr d rfl

theorem unlink_total (hnd : s.qhList.Nodup) (hqh : qh ∈ s.qhList.tail) :
    ∃ s', unlink d s qh = .ok s' := by
  obtain ⟨xs, prev, ys, -, hbefore, hafter⟩ := split_tail hnd hqh
  have hmem : qh ∈ s.qhList := List.mem_of_mem_tail hqh
  simp only [unlink, hmem, if_true, hbefore, hafter, List.getLast?_concat]
  cases ys with
  | nil => exact ⟨_, rfl⟩
  | cons next ys => exact ⟨_, rfl⟩

/-- A member other than the first one can be destroyed, and its chunks are given back then. -/
theorem destroyQh_destroyed (h : Kept d s) (hqh : qh ∈ s.qhList.tail) :
    ∃ s', destroyQh d s qh = .ok s' ∧ Destroyed s s' qh := by
  have hnd := h.qhs.nodup
  obtain ⟨s₁, hunlink⟩ := unlink_total d hnd hqh
  have hgone := (unlink_beside d h hqh hunlink).not_mem
  obtain ⟨xs, prev, ys, hlist, hrelinked, -⟩ := unlink_cases d hnd hqh hunlink
  have hdestroy : destroyQh d s qh = .ok { s₁ with
      tdPool := s₁.tdPool.giveAll (s₁.qhs qh).tdList
      qhPool := s₁.qhPool.give qh } := by
    rw [destroyQh, hunlink]
    rfl
  refine ⟨_, hdestroy, ?_, hgone, ?_, ?_, ?_, ?_, hrelinked.tdList⟩
  · rw [hlist] at hnd
    have hbefore : qh ∉ xs ++ [prev] := by
      simp [List.nodup_append] at hnd
      grind
    have hsplit : xs ++ prev :: qh :: ys = xs ++ [prev] ++ qh :: ys := by simp
    simp only [hrelinked.qhList, hlist]
    rw [hsplit, List.erase_append_right _ hbefore, List.erase_cons_head]
    simp
  · rw [← hrelinked.qhPool]
    rfl
  · rw [← hrelinked.qhPool]
    rfl
  · simp [hrelinked.tdPool]
  · simp [hrelinked.tdPool, hrelinked.tdList]

theorem step_kept {a : Action} (h : Kept d s) (hallowed : Allowed s a)
    (hstep : step d s a = .ok s') : Kept d s' := by
  cases a with
  | control transfer => exact control_kept d h hstep
  | destroyQh qh => exact destroyQh_kept d h hallowed hstep

theorem run_kept {actions : List Action} (h : Kept d s) (hallowed : AllAllowed d s actions)
    (hrun : run d s actions = .ok s') : Kept d s' := by
  induction actions generalizing s with
  | nil =>
    obtain rfl := Except.ok.inj hrun
    exact h
  | cons a actions ih =>
    obtain ⟨s₁, hstep, hrest⟩ := Outcome.bind_eq_ok hrun
    exact ih (step_kept d h hallowed.1 hstep) (hallowed.2 s₁ hstep) hrest

theorem initController_kept (hinit : initController d = .ok s) : Kept d s := by
  obtain ⟨qhPool, hqhs, hinit⟩ := Outcome.bind_eq_ok hinit
  obtain rfl := Except.ok.inj
    ((poolCreate_newPool chunkSize 512 d.qhBitmap d.qhStart (by decide)).symm.trans hqhs)
  obtain ⟨tdPool, htds, hinit⟩ := Outcome.bind_eq_ok hinit
  obtain rfl := Except.ok.inj
    ((poolCreate_newPool chunkSize 512 d.tdBitmap d.tdStart (by decide)).symm.trans htds)
  obtain ⟨⟨a, s₁⟩, hcreate, hs⟩ := Outcome.bind_eq_ok hinit
  obtain ⟨⟨b, pool⟩, htake, hs₁⟩ := Outcome.bind_eq_ok hcreate
  obtain ⟨rfl, rfl⟩ := Prod.mk.inj (Except.ok.inj hs₁)
  obtain rfl := Except.ok.inj hs
  have hqhBooks : Books d.qhPool _ [] :=
    .newPool (by decide) (by decide) (by decide) (by decide) d.qhRoom
  have htdBooks : Books d.tdPool _ [] :=
    .newPool (by decide) (by decide) (by decide) (by decide) d.tdRoom
  have hbooks := hqhBooks.take htake
  refine ⟨?_, ?_, hbooks, ?_⟩
  · simp [State.linkTerm, State.setQh]
  · exact hop_of_terminate d (by simp [State.linkTerm])
  · simpa [State.linkTerm, State.tds, State.setQh] using htdBooks

theorem Kept.mirrored (h : Kept d s) : Mirrored d s := by
  have hvisits := h.visits
  obtain ⟨rest, hlist⟩ := List.head?_eq_some_iff.mp h.first
  refine ⟨h.first, ?_, h.qhs.balanced, h.tds.balanced⟩
  intro n hn
  rw [hlist] at hvisits hn ⊢
  exact hvisits.walk hn

/-- After the controller is set up and any run of transfers that start and queue heads that are
destroyed, in any order: the controller visits the members of the list in order, and the chunks
not given back are those of the members. A transfer that starts then gives back nothing, and a
member other than the first one can be destroyed, which gives back its chunks. -/
theorem schedule_mirrored (d : Dma) {s₀ s : State} (actions : List Action)
    (hinit : initController d = .ok s₀) (hallowed : AllAllowed d s₀ actions)
    (hrun : run d s₀ actions = .ok s) :
    Mirrored d s ∧ (∀ transfer s', control d s transfer = .ok s' → Started s s') ∧
      ∀ qh ∈ s.qhList.tail, ∃ s', destroyQh d s qh = .ok s' ∧ Destroyed s s' qh := by
  have hkept : Kept d s := run_kept d (initController_kept d hinit) hallowed hrun
  refine ⟨hkept.mirrored, ?_, ?_⟩
  · intro transfer s' hcontrol
    exact control_started d hkept hcontrol
  · intro qh hqh
    exact destroyQh_destroyed d hkept hqh

/-- The queue heads of a pool that starts at 1 MiB. -/
theorem sample_toNat {c : Addr} (hc : IsChunk (newPool chunkSize 512 (fun _ => 0) 0x100000) c) :
    ∃ f < 512, c.toNat = 0x100000 + 32 * f :=
  isChunk_toNat (by decide) (by decide) (by decide) (by decide) (by decide) hc

def sampleDma : Dma where
  qhStart := 0x100000
  tdStart := 0x200000
  qhBitmap := fun _ => 0
  tdBitmap := fun _ => 0
  memory := fun _ => ⟨⟨0, 0, 0⟩, []⟩
  qhRoom := by decide
  tdRoom := by decide
  physical := {
    address := id
    aligned := by
      intro c hc
      obtain ⟨f, hf, hval⟩ := sample_toNat hc
      simp only [id]
      omega
    below := by
      intro c hc
      obtain ⟨f, hf, hval⟩ := sample_toNat hc
      simp only [id]
      omega
    distinct := fun c c' _ _ heq => heq }

def sampleActions : List Action :=
  [.control ⟨0x5000, 8, inProgress, 8⟩, .control ⟨0x6000, 0, inProgress, 8⟩]

/-- Two transfers start, and then the queue head of the first one is destroyed. -/
theorem schedule_mirrored_of_two : ∃ s₀ s s', initController sampleDma = .ok s₀ ∧
    run sampleDma s₀ sampleActions = .ok s ∧ Mirrored sampleDma s ∧
    s.qhList = [0x100000, 0x100020, 0x100040] ∧
    destroyQh sampleDma s 0x100020 = .ok s' ∧ Destroyed s s' 0x100020 := by
  obtain ⟨s₀, hinit, hrest⟩ := Outcome.ok_of_holds (r := initController sampleDma) (P := fun s₀ =>
    Outcome.holds (control sampleDma s₀ ⟨0x5000, 8, inProgress, 8⟩) fun s₁ =>
      Outcome.holds (control sampleDma s₁ ⟨0x6000, 0, inProgress, 8⟩) fun s₂ =>
        decide (s₂.qhList = [0x100000, 0x100020, 0x100040]))
    (by decide +kernel)
  obtain ⟨s₁, hfirst, hrest⟩ := Outcome.ok_of_holds hrest
  obtain ⟨s, hsecond, hrest⟩ := Outcome.ok_of_holds hrest
  have hlist : s.qhList = [0x100000, 0x100020, 0x100040] := of_decide_eq_true hrest
  have hrun : run sampleDma s₀ sampleActions = .ok s := by
    simp only [sampleActions, run, step, hfirst, hsecond, Except.bind, bind]
  obtain ⟨hmirrored, -, hdestroyed⟩ := schedule_mirrored sampleDma sampleActions hinit
    ⟨trivial, fun _ _ => ⟨trivial, fun _ _ => trivial⟩⟩ hrun
  obtain ⟨s', hdestroy, hgone⟩ := hdestroyed 0x100020 (by simp [hlist])
  exact ⟨s₀, s, s', hinit, hrun, hmirrored, hlist, hdestroy, hgone⟩

end ReduceOS.UhciSchedule
