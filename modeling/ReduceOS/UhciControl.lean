import ReduceOS.UhciDescriptors
import ReduceOS.UhciSchedule

/-!
The chain of transfer descriptors that `uhci_control` makes for a control transfer. The controller
goes from the new queue head to the first descriptor and from each to the next one by the physical
addresses in their link fields.
-/
namespace ReduceOS.UhciControl

open Machine ChunkLedger LinkWalk UhciDescriptors
open Page (Entry isCanonical)
open UhciSchedule (Dma Kept Beside Building)

structure QeLink where
  terminate : BitVec 1
  qh : BitVec 1
  qelp : BitVec 28

/-- The memory of the driver, which is not at address 0, and the pages of the kernel. -/
structure Memory extends Dma where
  tds : Physical toDma.tdPool 4
  page : Addr → Entry
  qhPlace : toDma.qhStart ≠ 0
  tdPlace : toDma.tdStart ≠ 0

/-- The queue heads and the pools, the transfer descriptors and the other link of each queue
head. -/
structure State where
  schedule : UhciSchedule.State
  tds : Addr → Td
  qeLinks : Addr → QeLink

section Source

variable (m : Memory) (r : Request)

def createQh (s : State) : Except Panic (Addr × State) := do
  let (qh, schedule) ← UhciSchedule.createQh s.schedule
  return (qh, { s with schedule, qeLinks := Function.update s.qeLinks qh ⟨0, 0, 0⟩ })

def createTd (s : State) (td : Td) : Except Panic (Addr × State) := do
  let (a, pool) ← s.schedule.tdPool.take
  return (a, { s with
    schedule := { s.schedule with tdPool := pool }
    tds := Function.update s.tds a td })

def State.appendTd (s : State) (qh td : Addr) : State :=
  let head := s.schedule.qhs qh
  { s with schedule := s.schedule.setQh qh { head with tdList := head.tdList ++ [td] } }

def State.qhLinkTerm (s : State) (qh : Addr) : State :=
  { s with schedule := s.schedule.linkTerm qh }

def State.tdLinkTerm (s : State) (td : Addr) : State :=
  let old := s.tds td
  { s with tds := Function.update s.tds td { old with link := { old.link with terminate := 1 } } }

def State.qhLinkTd (s : State) (qh td : Addr) : State :=
  { s with
    qeLinks := Function.update s.qeLinks qh ⟨0, 0, (m.tds.link td).setWidth 28⟩ }.appendTd qh td

def State.tdLinkTd (s : State) (qh prev td : Addr) : State :=
  let old := s.tds prev
  let link := ⟨0, 0, 1, (m.tds.link td).setWidth 28⟩
  { s with tds := Function.update s.tds prev { old with link } }.appendTd qh td

/-- The loop over the data from `buffer` to `bufferEnd`, in which there are at most `n` bytes. The
last descriptor is returned. -/
def dataLoop (qh : Addr) :
    ℕ → Addr → Addr → BitVec 32 → Addr → State → Except Panic (Addr × State)
  | 0, _, _, _, last, s => return (last, s)
  | n + 1, buffer, bufferEnd, toggle, last, s =>
    if buffer < bufferEnd then
      let transactionSize := (bufferEnd - buffer).setWidth 32
      let transactionSize := if transactionSize > r.mps then r.mps else transactionSize
      if transactionSize = 0 then return (last, s)
      else do
        let toggle := toggle ^^^ 1
        let (td, s) ← createTd s (r.dataTd m.page toggle transactionSize buffer)
        dataLoop qh n (buffer + transactionSize.setWidth 64) bufferEnd toggle td
          (s.tdLinkTd m qh last td)
    else return (last, s)

def control (s : State) : Except Panic State := do
  let (qh, s) ← createQh s
  let s := s.qhLinkTerm qh
  let (tdSetup, s) ← createTd s (r.setupTd m.page)
  let s := s.qhLinkTd m qh tdSetup
  let (last, s) ← dataLoop m r qh r.length.toNat r.data (r.data + r.length.setWidth 64) 0 tdSetup s
  let (tdStatus, s) ← createTd s r.statusTd
  let s := s.tdLinkTd m qh last tdStatus
  let s := s.tdLinkTerm tdStatus
  match s.schedule.qhList.getLast? with
  | none => .error .pageFault
  | some current =>
    let schedule := s.schedule.linkQh m.toDma current qh
    return { s with schedule := { schedule with qhList := s.schedule.qhList ++ [qh] } }

end Source

variable (m : Memory)

def hop (s : State) (td : Addr) : Hop Addr :=
  let link := (s.tds td).link
  if link.terminate = 1 then .stop
  else if link.qh = 0 then
    match m.tds.chunkAt (link.lp.setWidth 64 <<< 4) with
    | some next => .to next
    | none => .lost
  else .lost

def first (s : State) (qh : Addr) : Option Addr :=
  let link := s.qeLinks qh
  if link.terminate = 0 ∧ link.qh = 0 then m.tds.chunkAt (link.qelp.setWidth 64 <<< 4) else none

/-- The transfer has a queue head at the end of the list. From it the controller visits the
descriptors of the packets of the transfer and no others. -/
def Chained (s : State) (r : Request) : Prop :=
  ∃ qh td tds, s.schedule.qhList.getLast? = some qh ∧ first m s qh = some td ∧
    (∀ n, tds.length ≤ n → walk (hop m s) n td = some tds) ∧
    Complete m.page r (tds.map fun td => (s.tds td).toPacket)

/-- A descriptor is made for each of `tds` and linked to the last one. -/
def linkAll (qh : Addr) : List Td → Addr → State → Except Panic (Addr × State)
  | [], last, s => return (last, s)
  | td :: tds, last, s => do
    let (a, s) ← createTd s td
    linkAll qh tds a (s.tdLinkTd m qh last a)

variable {s s' : State} {qh last : Addr} {r : Request}

/-- The loop over the data makes the descriptors of its packets. -/
theorem dataLoop_eq (n : ℕ) (buffer bufferEnd : Addr) (toggle : BitVec 32) :
    dataLoop m r qh n buffer bufferEnd toggle last s =
      linkAll m qh (dataTds m.page r n buffer bufferEnd toggle) last s := by
  induction n generalizing buffer toggle last s with
  | zero => rfl
  | succ n ih =>
    simp only [dataLoop, dataTds, ih]
    split_ifs <;> rfl

section Setters

@[simp] theorem appendTd_tdList (s : State) (qh td : Addr) :
    ((s.appendTd qh td).schedule.qhs qh).tdList = (s.schedule.qhs qh).tdList ++ [td] := by
  simp [State.appendTd]

@[simp] theorem tdLinkTd_tdList (s : State) (qh prev td : Addr) :
    ((s.tdLinkTd m qh prev td).schedule.qhs qh).tdList = (s.schedule.qhs qh).tdList ++ [td] := by
  simp [State.tdLinkTd]

@[simp] theorem qhLinkTd_tdList (s : State) (qh td : Addr) :
    ((s.qhLinkTd m qh td).schedule.qhs qh).tdList = (s.schedule.qhs qh).tdList ++ [td] := by
  simp [State.qhLinkTd]

@[simp] theorem tdLinkTd_tds (s : State) (qh prev td : Addr) :
    (s.tdLinkTd m qh prev td).tds = Function.update s.tds prev
      { s.tds prev with link := ⟨0, 0, 1, (m.tds.link td).setWidth 28⟩ } := rfl

@[simp] theorem qhLinkTd_tds (s : State) (qh td : Addr) : (s.qhLinkTd m qh td).tds = s.tds := rfl

@[simp] theorem tdLinkTd_qeLinks (s : State) (qh prev td : Addr) :
    (s.tdLinkTd m qh prev td).qeLinks = s.qeLinks := rfl

@[simp] theorem qhLinkTd_qeLinks (s : State) (qh td : Addr) :
    (s.qhLinkTd m qh td).qeLinks =
      Function.update s.qeLinks qh ⟨0, 0, (m.tds.link td).setWidth 28⟩ := rfl

@[simp] theorem tdLinkTd_tdPool (s : State) (qh prev td : Addr) :
    (s.tdLinkTd m qh prev td).schedule.tdPool = s.schedule.tdPool := rfl

@[simp] theorem qhLinkTd_tdPool (s : State) (qh td : Addr) :
    (s.qhLinkTd m qh td).schedule.tdPool = s.schedule.tdPool := rfl

end Setters

/-- The descriptors of the queue head `qh`, of which `last` is the last one, are linked from it
one to the other. -/
structure Chain (s : State) (qh last : Addr) (packets : List Packet) : Prop where
  building : Building m.toDma s.schedule qh
  ends : ∃ l, (s.schedule.qhs qh).tdList = l ++ [last]
  visits : Visits (hop m s) (s.schedule.qhs qh).tdList
  entry : first m s qh = (s.schedule.qhs qh).tdList.head?
  packets : ((s.schedule.qhs qh).tdList.map fun td => (s.tds td).toPacket) = packets

section Steps

variable {a : Addr} {td : Td} {packets : List Packet}

/-- A link leads to the chunk whose address it was made from. -/
theorem chunkAt_link (ha : IsChunk m.toDma.tdPool a) :
    m.tds.chunkAt (((m.tds.link a).setWidth 28).setWidth 64 <<< 4) = some a := by
  have hshift := m.tds.link_shift (by decide) ha
  exact (congrArg m.tds.chunkAt hshift).trans (m.tds.chunkAt_address ha)

theorem hop_of_terminate (h : (s.tds a).link.terminate = 1) : hop m s a = .stop := by
  simp [hop, h]

theorem hop_congr (h : (s'.tds a).link = (s.tds a).link) : hop m s' a = hop m s a := by
  simp [hop, h]

/-- A descriptor that is made and put into the list is one of the queue heads' model. -/
theorem createTd_schedule (qh : Addr) (hcreate : createTd s td = .ok (a, s')) :
    UhciSchedule.createTd s.schedule qh = .ok (s'.appendTd qh a).schedule ∧
      s'.tds = Function.update s.tds a td ∧ s'.qeLinks = s.qeLinks ∧
      s'.schedule.qhs = s.schedule.qhs := by
  obtain ⟨⟨b, pool⟩, htake, hs'⟩ := Outcome.bind_eq_ok hcreate
  obtain ⟨rfl, rfl⟩ := Prod.mk.inj (Except.ok.inj hs')
  refine ⟨?_, rfl, rfl, rfl⟩
  simp only [UhciSchedule.createTd, htake]
  rfl

theorem createTd_appended (h : Building m.toDma s.schedule qh)
    (hcreate : createTd s td = .ok (a, s')) :
    Building m.toDma (s'.appendTd qh a).schedule qh ∧ IsChunk m.toDma.tdPool a ∧
      a ∉ (s.schedule.qhs qh).tdList := by
  obtain ⟨hschedule, -, -, hqhs⟩ := createTd_schedule qh hcreate
  have hbuild := UhciSchedule.createTd_building m.toDma h hschedule
  have hbooks := hbuild.tds
  have hlist : ((s'.appendTd qh a).schedule.qhs qh).tdList = (s.schedule.qhs qh).tdList ++ [a] := by
    simp [hqhs]
  rw [hlist] at hbooks
  refine ⟨hbuild, hbooks.isChunk (by simp), ?_⟩
  have hnd := hbooks.nodup
  simp [List.nodup_append] at hnd
  grind

theorem Chain.link (h : Chain m s qh last packets) (hterm : td.link.terminate = 1)
    (hcreate : createTd s td = .ok (a, s')) :
    Chain m (s'.tdLinkTd m qh last a) qh a (packets ++ [td.toPacket]) := by
  obtain ⟨hbuild, hchunk, hnew⟩ := createTd_appended m h.building hcreate
  obtain ⟨-, htds, hqe, hqhs⟩ := createTd_schedule qh hcreate
  obtain ⟨l, hl⟩ := h.ends
  have hlist : ((s'.tdLinkTd m qh last a).schedule.qhs qh).tdList =
      (s.schedule.qhs qh).tdList ++ [a] := by
    simp [hqhs]
  have hnd : ((s.schedule.qhs qh).tdList).Nodup :=
    (List.nodup_append.mp h.building.tds.nodup).1
  have hne : a ≠ last := by
    rintro rfl
    simp [hl] at hnew
  have hvisits := h.visits
  have hpackets := h.packets
  rw [hl] at hvisits hpackets hnew hnd
  refine ⟨hbuild, ⟨(s.schedule.qhs qh).tdList, hlist⟩, ?_, ?_, ?_⟩
  · rw [hlist, hl, List.append_assoc]
    apply hvisits.concat
    · have hlink := chunkAt_link m hchunk
      simp [hop, hlink]
    · apply hop_of_terminate
      simp [htds, hne, hterm]
    · intro b hb
      apply hop_congr
      have hb₁ : b ≠ a := by
        rintro rfl
        simp [hb] at hnew
      have hb₂ : b ≠ last := by
        rintro rfl
        simp [List.nodup_append] at hnd
        exact hnd.2 _ hb rfl
      simp [htds, hb₁, hb₂]
  · rw [hlist, List.head?_append, hl]
    have hentry := h.entry
    rw [hl] at hentry
    simp only [first, tdLinkTd_qeLinks, hqe] at hentry ⊢
    rw [hentry]
    cases l <;> rfl
  · have hold : ∀ b ∈ l ++ [last],
        ((s'.tdLinkTd m qh last a).tds b).toPacket = (s.tds b).toPacket := by
      intro b hb
      have hba : b ≠ a := by
        rintro rfl
        exact hnew hb
      by_cases heq : b = last <;> simp [htds, heq, hne.symm, hba]
    have hlast : ((s'.tdLinkTd m qh last a).tds a).toPacket = td.toPacket := by
      simp [htds, hne]
    rw [hlist, hl, ← hpackets, List.map_append, List.map_congr_left hold, List.map_singleton, hlast]

/-- The first descriptor is linked to the queue head. -/
theorem Chain.begin (hbuild : Building m.toDma s.schedule qh)
    (hempty : (s.schedule.qhs qh).tdList = []) (hterm : td.link.terminate = 1)
    (hcreate : createTd s td = .ok (a, s')) :
    Chain m (s'.qhLinkTd m qh a) qh a [td.toPacket] := by
  obtain ⟨hbuild', hchunk, -⟩ := createTd_appended m hbuild hcreate
  obtain ⟨-, htds, -, hqhs⟩ := createTd_schedule qh hcreate
  have hlist : ((s'.qhLinkTd m qh a).schedule.qhs qh).tdList = [a] := by
    simp [hqhs, hempty]
  have htd : (s'.qhLinkTd m qh a).tds a = td := by
    simp [htds]
  refine ⟨hbuild', ⟨[], hlist⟩, ?_, ?_, ?_⟩
  · rw [hlist]
    apply hop_of_terminate
    rw [htd, hterm]
  · have hlink := chunkAt_link m hchunk
    rw [hlist]
    simp [first, hlink]
  · rw [hlist, List.map_singleton, htd]

/-- The last descriptor is made to end the chain, which it did. -/
theorem Chain.term (h : Chain m s qh last packets) :
    Chain m (s.tdLinkTerm last) qh last packets := by
  obtain ⟨l, hl⟩ := h.ends
  have hvisits := h.visits
  rw [hl] at hvisits
  have hstop : hop m s last = .stop := hvisits.suffix
  refine ⟨h.building, h.ends, ?_, h.entry, ?_⟩
  · apply h.visits.congr
    intro b hb
    by_cases heq : b = last
    · rw [heq, hstop]
      exact hop_of_terminate m (by simp [State.tdLinkTerm])
    · exact hop_congr m (by simp [State.tdLinkTerm, heq])
  · rw [← h.packets]
    apply List.map_congr_left
    intro b hb
    by_cases heq : b = last <;> simp [State.tdLinkTerm, heq]

end Steps

section Loop

theorem words_of_dma (bitmap : ℤ → BitVec 32) (start : Addr) :
    (newPool UhciSchedule.chunkSize 512 bitmap start).chunks % 32 = 0 := by
  have hchunks : (512 * UhciSchedule.chunkSize / UhciSchedule.chunkSize).toNat % 32 = 0 := by decide
  exact hchunks

variable {packets : List Packet} {tds : List Td}

theorem Chain.linkAll {last' : Addr} (h : Chain m s qh last packets)
    (hterm : ∀ td ∈ tds, td.link.terminate = 1)
    (hrun : UhciControl.linkAll m qh tds last s = .ok (last', s')) :
    Chain m s' qh last' (packets ++ tds.map Td.toPacket) := by
  induction tds generalizing s last packets with
  | nil =>
    obtain ⟨rfl, rfl⟩ := Prod.mk.inj (Except.ok.inj hrun)
    simpa using h
  | cons td tds ih =>
    obtain ⟨⟨a, s₁⟩, hcreate, hrest⟩ := Outcome.bind_eq_ok hrun
    have hlink := h.link m (hterm td List.mem_cons_self) hcreate
    have hall := ih hlink (fun td htd => hterm td (List.mem_cons_of_mem _ htd)) hrest
    simpa using hall

theorem createTd_iff (h : Building m.toDma s.schedule qh) (td : Td) :
    (∃ x, createTd s td = .ok x) ↔ 0 < s.schedule.tdPool.free := by
  rw [← h.tds.take_iff m.tdPlace (words_of_dma m.tdBitmap m.tdStart)]
  constructor
  · rintro ⟨x, hcreate⟩
    obtain ⟨y, htake, -⟩ := Outcome.bind_eq_ok hcreate
    exact ⟨y, htake⟩
  · rintro ⟨y, htake⟩
    simp [createTd, htake, bind, Except.bind, pure, Except.pure]

theorem createTd_free {a : Addr} {td : Td} (h : Building m.toDma s.schedule qh)
    (hcreate : createTd s td = .ok (a, s')) :
    s'.schedule.tdPool.free = s.schedule.tdPool.free - 1 := by
  obtain ⟨⟨b, pool⟩, htake, hs'⟩ := Outcome.bind_eq_ok hcreate
  obtain ⟨rfl, rfl⟩ := Prod.mk.inj (Except.ok.inj hs')
  exact h.tds.take_free htake

/-- The loop comes to its end exactly while there are chunks. -/
theorem linkAll_iff (h : Chain m s qh last packets) (hterm : ∀ td ∈ tds, td.link.terminate = 1) :
    (∃ x, UhciControl.linkAll m qh tds last s = .ok x) ↔
      tds.length ≤ s.schedule.tdPool.free := by
  induction tds generalizing s last packets with
  | nil => simp [UhciControl.linkAll, pure, Except.pure]
  | cons td tds ih =>
    constructor
    · rintro ⟨x, hrun⟩
      obtain ⟨⟨a, s₁⟩, hcreate, hrest⟩ := Outcome.bind_eq_ok hrun
      have hlink := h.link m (hterm td List.mem_cons_self) hcreate
      have hfree := createTd_free m h.building hcreate
      have hpos := (createTd_iff m h.building td).mp ⟨_, hcreate⟩
      have hothers := (ih hlink fun td htd => hterm td (List.mem_cons_of_mem _ htd)).mp ⟨x, hrest⟩
      rw [tdLinkTd_tdPool, hfree] at hothers
      simp only [List.length_cons]
      omega
    · intro hle
      simp only [List.length_cons] at hle
      obtain ⟨⟨a, s₁⟩, hcreate⟩ := (createTd_iff m h.building td).mpr (by omega)
      have hlink := h.link m (hterm td List.mem_cons_self) hcreate
      have hfree := createTd_free m h.building hcreate
      obtain ⟨x, hrest⟩ := (ih hlink fun td htd => hterm td (List.mem_cons_of_mem _ htd)).mpr (by
        rw [tdLinkTd_tdPool, hfree]
        omega)
      refine ⟨x, ?_⟩
      rw [UhciControl.linkAll, hcreate]
      exact hrest

end Loop


section Control

def descriptors (m : Memory) (r : Request) : List Td := r.dataList m.page ++ [r.statusTd]

theorem terminate_of_mem {td : Td} (h : td ∈ descriptors m r) : td.link.terminate = 1 := by
  have hdata : ∀ (n : ℕ) (buffer bufferEnd : Addr) (toggle : BitVec 32),
      ∀ td ∈ dataTds m.page r n buffer bufferEnd toggle, td.link.terminate = 1 := by
    intro n
    induction n with
    | zero => simp [dataTds]
    | succ n ih =>
      intro buffer bufferEnd toggle td htd
      simp only [dataTds] at htd
      split_ifs at htd <;> grind [Request.dataTd, newTd]
  rcases List.mem_append.mp h with hd | hs
  · exact hdata _ _ _ _ td hd
  · rw [List.mem_singleton.mp hs]
    rfl

theorem linkAll_append (tds : List Td) (td : Td) :
    linkAll m qh (tds ++ [td]) last s = (do
      let (prev, s) ← linkAll m qh tds last s
      let (a, s) ← createTd s td
      return (a, s.tdLinkTd m qh prev a)) := by
  induction tds generalizing s last with
  | nil =>
    simp only [List.nil_append, linkAll, pure_bind]
  | cons td tds ih =>
    simp only [List.cons_append, linkAll, ih, bind_assoc]

/-- `uhci_control` as one chain that is made after the first descriptor. -/
theorem control_eq :
    control m r s = (do
      let (qh, s) ← createQh s
      let s := s.qhLinkTerm qh
      let (tdSetup, s) ← createTd s (r.setupTd m.page)
      let (last, s) ← linkAll m qh (descriptors m r) tdSetup (s.qhLinkTd m qh tdSetup)
      let s := s.tdLinkTerm last
      match s.schedule.qhList.getLast? with
      | none => .error .pageFault
      | some current => return { s with
          schedule := { s.schedule.linkQh m.toDma current qh with
            qhList := s.schedule.qhList ++ [qh] } }) := by
  simp only [control, dataLoop_eq, descriptors, linkAll_append, bind_assoc, pure_bind]
  rfl

/-- The queue head that is made has no descriptors yet. -/
theorem createQh_empty (hcreate : createQh s = .ok (qh, s')) :
    UhciSchedule.createQh s.schedule = .ok (qh, s'.schedule) ∧
      (s'.schedule.qhs qh).tdList = [] ∧ s'.schedule.tdPool = s.schedule.tdPool := by
  obtain ⟨⟨a, schedule⟩, hschedule, hs'⟩ := Outcome.bind_eq_ok hcreate
  obtain ⟨rfl, rfl⟩ := Prod.mk.inj (Except.ok.inj hs')
  obtain ⟨⟨b, pool⟩, htake, heq⟩ := Outcome.bind_eq_ok hschedule
  obtain ⟨rfl, rfl⟩ := Prod.mk.inj (Except.ok.inj heq)
  exact ⟨hschedule, by simp, rfl⟩

theorem createQh_iff (h : Kept m.toDma s.schedule) :
    (∃ x, createQh s = .ok x) ↔ 0 < s.schedule.qhPool.free := by
  rw [← h.qhs.take_iff m.qhPlace (words_of_dma m.qhBitmap m.qhStart)]
  constructor
  · rintro ⟨x, hcreate⟩
    obtain ⟨y, hschedule, -⟩ := Outcome.bind_eq_ok hcreate
    obtain ⟨z, htake, -⟩ := Outcome.bind_eq_ok hschedule
    exact ⟨z, htake⟩
  · rintro ⟨y, htake⟩
    simp [createQh, UhciSchedule.createQh, htake, bind, Except.bind, pure, Except.pure]

theorem created {s₁ : State} (h : Kept m.toDma s.schedule) (hqh : createQh s = .ok (qh, s₁)) :
    Building m.toDma (s₁.qhLinkTerm qh).schedule qh ∧
      ((s₁.qhLinkTerm qh).schedule.qhs qh).tdList = [] ∧
      (s₁.qhLinkTerm qh).schedule.tdPool = s.schedule.tdPool := by
  obtain ⟨hschedule, hempty, hsame⟩ := createQh_empty hqh
  refine ⟨UhciSchedule.createQh_building m.toDma h hschedule, ?_, hsame⟩
  simp [State.qhLinkTerm, UhciSchedule.State.linkTerm, hempty]

theorem begun {a : Addr} {s₁ s₂ : State} (h : Kept m.toDma s.schedule)
    (hqh : createQh s = .ok (qh, s₁))
    (hsetup : createTd (s₁.qhLinkTerm qh) (r.setupTd m.page) = .ok (a, s₂)) :
    Chain m (s₂.qhLinkTd m qh a) qh a [(r.setupTd m.page).toPacket] := by
  obtain ⟨hbuild, hempty, -⟩ := created m h hqh
  exact Chain.begin m hbuild hempty rfl hsetup

/-- The queue head goes to the end of the list, which is not empty. -/
theorem append_ok (h : Building m.toDma s.schedule qh) : ∃ current,
    s.schedule.qhList.getLast? = some current ∧ current ≠ qh := by
  obtain ⟨rest, hlist⟩ := List.head?_eq_some_iff.mp h.first
  cases hlast : s.schedule.qhList.getLast? with
  | none => simp [hlist] at hlast
  | some current =>
    refine ⟨current, rfl, ?_⟩
    rintro rfl
    exact UhciSchedule.Beside.not_mem m.toDma h.toBeside (List.mem_of_getLast? hlast)

/-- `uhci_control` comes to its `list_append` exactly when there are enough chunks. -/
theorem control_ok_iff (h : Kept m.toDma s.schedule) :
    (∃ s', control m r s = .ok s') ↔ 0 < s.schedule.qhPool.free ∧
      (descriptors m r).length + 1 ≤ s.schedule.tdPool.free := by
  rw [control_eq]
  constructor
  · rintro ⟨s', hcontrol⟩
    obtain ⟨⟨qh, s₁⟩, hqh, hcontrol⟩ := Outcome.bind_eq_ok hcontrol
    obtain ⟨⟨a, s₂⟩, hsetup, hcontrol⟩ := Outcome.bind_eq_ok hcontrol
    obtain ⟨x, hall, -⟩ := Outcome.bind_eq_ok hcontrol
    obtain ⟨hbuild, -, hpool⟩ := created m h hqh
    have hpos := (createTd_iff m hbuild (r.setupTd m.page)).mp ⟨_, hsetup⟩
    have hfree := createTd_free m hbuild hsetup
    have hle : (descriptors m r).length ≤ s₂.schedule.tdPool.free :=
      (linkAll_iff m (begun m h hqh hsetup) fun td => terminate_of_mem m).mp ⟨x, hall⟩
    rw [hpool] at hpos hfree
    exact ⟨(createQh_iff m h).mp ⟨_, hqh⟩, by omega⟩
  · rintro ⟨hqhs, htds⟩
    obtain ⟨⟨qh, s₁⟩, hqh⟩ := (createQh_iff m h).mpr hqhs
    obtain ⟨hbuild, -, hpool⟩ := created m h hqh
    obtain ⟨⟨a, s₂⟩, hsetup⟩ := (createTd_iff m hbuild (r.setupTd m.page)).mpr (by
      rw [hpool]
      omega)
    have hfree := createTd_free m hbuild hsetup
    rw [hpool] at hfree
    have hle : (descriptors m r).length ≤ (s₂.qhLinkTd m qh a).schedule.tdPool.free := by
      rw [qhLinkTd_tdPool]
      omega
    obtain ⟨⟨last, s₃⟩, hall⟩ :=
      (linkAll_iff m (begun m h hqh hsetup) fun td => terminate_of_mem m).mpr hle
    have hchain := (begun m h hqh hsetup).linkAll m (fun td => terminate_of_mem m) hall
    obtain ⟨current, hcurrent, -⟩ := append_ok m hchain.building
    simp only [hqh, hsetup, hall, bind, Except.bind, State.tdLinkTerm, hcurrent]
    exact ⟨_, rfl⟩

theorem control_chain {s' : State} (h : Kept m.toDma s.schedule)
    (hcontrol : control m r s = .ok s') :
    ∃ qh, s'.schedule.qhList.getLast? = some qh ∧
      Visits (hop m s') (s'.schedule.qhs qh).tdList ∧
      first m s' qh = (s'.schedule.qhs qh).tdList.head? ∧
      ((s'.schedule.qhs qh).tdList.map fun td => (s'.tds td).toPacket) =
        (r.setupTd m.page :: (r.dataList m.page ++ [r.statusTd])).map Td.toPacket := by
  rw [control_eq] at hcontrol
  obtain ⟨⟨qh, s₁⟩, hqh, hcontrol⟩ := Outcome.bind_eq_ok hcontrol
  obtain ⟨⟨a, s₂⟩, hsetup, hcontrol⟩ := Outcome.bind_eq_ok hcontrol
  obtain ⟨⟨last, s₃⟩, hall, hcontrol⟩ := Outcome.bind_eq_ok hcontrol
  have hchain := ((begun m h hqh hsetup).linkAll m (fun td => terminate_of_mem m) hall).term m
  obtain ⟨current, hcurrent, hne⟩ := append_ok m hchain.building
  dsimp only at hcontrol
  rw [hcurrent] at hcontrol
  obtain rfl := Except.ok.inj hcontrol
  refine ⟨qh, by simp, ?_⟩
  have hlist := UhciSchedule.linkQh_tdList m.toDma (s₃.tdLinkTerm last).schedule current qh qh
  simp only [hlist]
  exact ⟨hchain.visits, hchain.entry, hchain.packets⟩

/-- What is linked is right exactly when the buffer fits. -/
theorem chained_iff {s' : State} (h : Kept m.toDma s.schedule)
    (hcontrol : control m r s = .ok s') :
    Chained m s' r ↔
      Complete m.page r ((r.setupTd m.page :: (r.dataList m.page ++ [r.statusTd])).map
        Td.toPacket) := by
  obtain ⟨qh, hlast, hvisits, hentry, hpackets⟩ := control_chain m h hcontrol
  obtain ⟨td, rest, hlist⟩ : ∃ td rest, (s'.schedule.qhs qh).tdList = td :: rest := by
    cases hl : (s'.schedule.qhs qh).tdList with
    | nil => simp [hl] at hpackets
    | cons td rest => exact ⟨td, rest, rfl⟩
  rw [hlist] at hvisits hentry hpackets
  rw [← hpackets]
  constructor
  · rintro ⟨qh', td', tds, hlast', hentry', hwalk, hcomplete⟩
    obtain rfl := Option.some.inj (hlast.symm.trans hlast')
    obtain rfl := Option.some.inj (hentry.symm.trans hentry')
    have hwalk' := hvisits.walk (n := tds.length + rest.length + 1) (by omega)
    rw [hwalk _ (by omega)] at hwalk'
    rwa [← Option.some.inj hwalk']
  · intro hcomplete
    refine ⟨qh, td, td :: rest, hlast, hentry, ?_, hcomplete⟩
    intro n hn
    exact hvisits.walk hn

end Control

section Refinement

/-- What the loop does to the queue heads and the pools. -/
theorem dataLoop_schedule {n : ℕ} {buffer bufferEnd last' : Addr} {toggle : BitVec 32}
    (hloop : dataLoop m r qh n buffer bufferEnd toggle last s = .ok (last', s')) :
    UsbTransfer.forPackets (UhciSchedule.createTd · qh) r.mps n buffer bufferEnd s.schedule =
      .ok s'.schedule := by
  induction n generalizing buffer toggle last s with
  | zero =>
    obtain ⟨rfl, rfl⟩ := Prod.mk.inj (Except.ok.inj hloop)
    rfl
  | succ n ih =>
    simp only [dataLoop] at hloop
    simp only [UsbTransfer.forPackets]
    split_ifs at hloop ⊢ with hmore hmps hzero hzero
    · obtain ⟨rfl, rfl⟩ := Prod.mk.inj (Except.ok.inj hloop)
      rfl
    · obtain ⟨⟨a, s₁⟩, hcreate, hrest⟩ := Outcome.bind_eq_ok hloop
      rw [(createTd_schedule qh hcreate).1]
      exact ih (s := s₁.tdLinkTd m qh last a) hrest
    · obtain ⟨rfl, rfl⟩ := Prod.mk.inj (Except.ok.inj hloop)
      rfl
    · obtain ⟨⟨a, s₁⟩, hcreate, hrest⟩ := Outcome.bind_eq_ok hloop
      rw [(createTd_schedule qh hcreate).1]
      exact ih (s := s₁.tdLinkTd m qh last a) hrest
    · obtain ⟨rfl, rfl⟩ := Prod.mk.inj (Except.ok.inj hloop)
      rfl

/-- To the queue heads and the pools `uhci_control` does what it does in the model of them
alone. -/
theorem control_schedule (hcontrol : control m r s = .ok s') :
    UhciSchedule.control m.toDma s.schedule r.toTransfer = .ok s'.schedule := by
  obtain ⟨⟨qh, s₁⟩, hqh, hcontrol⟩ := Outcome.bind_eq_ok hcontrol
  obtain ⟨⟨a, s₂⟩, hsetup, hcontrol⟩ := Outcome.bind_eq_ok hcontrol
  obtain ⟨⟨last, s₃⟩, hdata, hcontrol⟩ := Outcome.bind_eq_ok hcontrol
  obtain ⟨⟨b, s₄⟩, hstatus, hcontrol⟩ := Outcome.bind_eq_ok hcontrol
  have hfirst : UhciSchedule.createTd (s₁.schedule.linkTerm qh) qh =
      .ok (s₂.qhLinkTd m qh a).schedule := (createTd_schedule qh hsetup).1
  have hloop : UsbTransfer.makeData (UhciSchedule.createTd · qh) r.toTransfer
      (s₂.qhLinkTd m qh a).schedule = .ok s₃.schedule := dataLoop_schedule m hdata
  have hlast : UhciSchedule.createTd s₃.schedule qh =
      .ok ((s₄.tdLinkTd m qh last b).tdLinkTerm b).schedule := (createTd_schedule qh hstatus).1
  simp only [UhciSchedule.control, (createQh_empty hqh).1, hfirst, hloop, hlast, bind, Except.bind]
  dsimp only at hcontrol
  cases hcurrent : ((s₄.tdLinkTd m qh last b).tdLinkTerm b).schedule.qhList.getLast? with
  | none =>
    rw [hcurrent] at hcontrol
    contradiction
  | some current =>
    rw [hcurrent] at hcontrol
    obtain rfl := Except.ok.inj hcontrol
    rfl

end Refinement

/-- There is room for the queue head and the descriptors of the transfer, and its buffer fits. -/
structure Served (s : State) (r : Request) : Prop where
  queueHead : 0 < s.schedule.qhPool.free
  descriptors : r.packets + 2 ≤ s.schedule.tdPool.free
  buffer : Fits m.page r

theorem chained_iff_of_kept (h : Kept m.toDma s.schedule) (hmps : 0 < r.mps)
    (hendp : r.endpoint < 16)
    (hcanon : ∀ i < r.length.toNat, isCanonical (r.data + BitVec.ofNat 64 i) = true) :
    (∃ s', control m r s = .ok s' ∧ Chained m s' r) ↔ Served m s r := by
  have hmps' : 0 < r.mps.toNat := hmps
  have hcomplete := complete_iff m.page hmps' hendp hcanon
  have hlength : (descriptors m r).length = (r.dataList m.page).length + 1 := by
    simp [UhciControl.descriptors]
  constructor
  · rintro ⟨s', hcontrol, hchained⟩
    have hfits := hcomplete.mp ((chained_iff m h hcontrol).mp hchained)
    obtain ⟨hqhs, htds⟩ := (control_ok_iff m h).mp ⟨s', hcontrol⟩
    rw [hlength, dataList_length m.page hmps' hfits.room] at htds
    exact ⟨hqhs, htds, hfits⟩
  · rintro ⟨hqhs, htds, hfits⟩
    have hroom : (descriptors m r).length + 1 ≤ s.schedule.tdPool.free := by
      rw [hlength, dataList_length m.page hmps' hfits.room]
      exact htds
    obtain ⟨s', hcontrol⟩ := (control_ok_iff m h).mpr ⟨hqhs, hroom⟩
    exact ⟨s', hcontrol, (chained_iff m h hcontrol).mpr (hcomplete.mpr hfits)⟩

/-- In any state that comes up, for an endpoint number of four bits and a buffer in the kernel's
memory: `uhci_control` links the descriptors of the transfer, and no others, exactly when there
are enough chunks and the buffer fits the packets. -/
theorem chained_iff_served {s₀ : UhciSchedule.State} {actions : List UhciSchedule.Action}
    (hinit : UhciSchedule.initController m.toDma = .ok s₀)
    (hallowed : UhciSchedule.AllAllowed m.toDma s₀ actions)
    (hrun : UhciSchedule.run m.toDma s₀ actions = .ok s.schedule) (hmps : 0 < r.mps)
    (hendp : r.endpoint < 16)
    (hcanon : ∀ i < r.length.toNat, isCanonical (r.data + BitVec.ofNat 64 i) = true) :
    (∃ s', control m r s = .ok s' ∧ Chained m s' r) ↔ Served m s r :=
  chained_iff_of_kept m (UhciSchedule.run_kept m.toDma
    (UhciSchedule.initController_kept m.toDma hinit) hallowed hrun) hmps hendp hcanon

def samplePage (a : Addr) : Entry :=
  { Entry.zero with address := if a = 0x6000 then 9 else (a >>> 12).setWidth 28 }

theorem sampleTd_toNat {c : Addr}
    (hc : IsChunk (newPool UhciSchedule.chunkSize 512 (fun _ => 0) 0x200000) c) :
    ∃ f < 512, c.toNat = 0x200000 + 32 * f :=
  isChunk_toNat (by decide) (by decide) (by decide) (by decide) (by decide) hc

def sampleMemory : Memory where
  toDma := UhciSchedule.sampleDma
  page := samplePage
  qhPlace := by decide
  tdPlace := by decide
  tds := {
    address := id
    aligned := by
      intro c hc
      obtain ⟨f, hf, hval⟩ := sampleTd_toNat hc
      simp only [id]
      omega
    below := by
      intro c hc
      obtain ⟨f, hf, hval⟩ := sampleTd_toNat hc
      simp only [id]
      omega
    distinct := fun c c' _ _ heq => heq }

def sampleRequest : Request :=
  { data := 0x5000, length := 18, status := 0, mps := 8, speed := 0, address := 1, endpoint := 0,
    req := 0x4000, bmRequestType := 0x80 }

/-- Eight bytes are read to the end of one page and the beginning of the next. -/
def crossingRequest : Request := { sampleRequest with data := 0x5FFC, length := 8 }

def sampleState (schedule : UhciSchedule.State) : State :=
  ⟨schedule, fun _ => ⟨⟨⟨0, 0, 0⟩, ⟨0, 0, 0, 0, 0, 0⟩, 0⟩, ⟨0, 0, 0, 0⟩⟩, fun _ => ⟨0, 0, 0⟩⟩

theorem sample_transfers : ∃ s₀ s₁ s₂,
    UhciSchedule.initController sampleMemory.toDma = .ok s₀ ∧
      control sampleMemory sampleRequest (sampleState s₀) = .ok s₁ ∧
      control sampleMemory crossingRequest (sampleState s₀) = .ok s₂ := by
  obtain ⟨s₀, hinit, hrest⟩ := Outcome.ok_of_holds
    (r := UhciSchedule.initController sampleMemory.toDma) (P := fun s₀ =>
      Outcome.holds (control sampleMemory sampleRequest (sampleState s₀)) fun _ =>
        Outcome.holds (control sampleMemory crossingRequest (sampleState s₀)) fun _ => true)
    (by decide +kernel)
  obtain ⟨s₁, hsample, hrest⟩ := Outcome.ok_of_holds hrest
  obtain ⟨s₂, hcrossing, -⟩ := Outcome.ok_of_holds hrest
  exact ⟨s₀, s₁, s₂, hinit, hsample, hcrossing⟩

theorem sample_canonical : ∀ i < sampleRequest.length.toNat,
    isCanonical (sampleRequest.data + BitVec.ofNat 64 i) = true := by
  decide

/-- The transfer of eighteen bytes right after the controller was set up. -/
theorem chained_eighteen_bytes : ∃ s₀ s,
    UhciSchedule.initController sampleMemory.toDma = .ok s₀ ∧
      control sampleMemory sampleRequest (sampleState s₀) = .ok s ∧
      Chained sampleMemory s sampleRequest := by
  obtain ⟨s₀, s₁, s₂, hinit, hsample, -⟩ := sample_transfers
  have hkept := UhciSchedule.initController_kept sampleMemory.toDma hinit
  obtain ⟨hqhs, htds⟩ := (control_ok_iff (s := sampleState s₀) sampleMemory hkept).mp ⟨s₁, hsample⟩
  have hinside : ∀ i < 18, 0 < i →
      (sampleRequest.data + BitVec.ofNat 64 i).toNat % 4096 ≠ 0 := by decide
  have hfits : Fits sampleMemory.page sampleRequest := by
    refine ⟨by decide, by decide, by decide, ?_⟩
    intro i hi _ hpage
    exact absurd hpage (hinside (i + 1) hi (Nat.succ_pos i))
  have hserved : Served sampleMemory (sampleState s₀) sampleRequest := ⟨hqhs, htds, hfits⟩
  have hallowed : UhciSchedule.AllAllowed sampleMemory.toDma s₀ [] := trivial
  have hrun : UhciSchedule.run sampleMemory.toDma s₀ [] = .ok (sampleState s₀).schedule := rfl
  obtain ⟨s, hcontrol, hchained⟩ := (chained_iff_served sampleMemory hinit hallowed hrun (by decide)
    (by decide) sample_canonical).mpr hserved
  exact ⟨s₀, s, hinit, hcontrol, hchained⟩

/-- The second half of a packet that crosses into a page mapped elsewhere is not where the
descriptor says. -/
theorem crossing_packet_astray : ∃ s₀ s,
    UhciSchedule.initController sampleMemory.toDma = .ok s₀ ∧
      control sampleMemory crossingRequest (sampleState s₀) = .ok s ∧
      ¬Chained sampleMemory s crossingRequest := by
  obtain ⟨s₀, s₁, s, hinit, -, hcontrol⟩ := sample_transfers
  have hkept := UhciSchedule.initController_kept sampleMemory.toDma hinit
  refine ⟨s₀, s, hinit, hcontrol, ?_⟩
  intro hchained
  have hserved := (chained_iff_of_kept (s := sampleState s₀) sampleMemory hkept (by decide)
    (by decide) (by decide)).mp ⟨s, hcontrol, hchained⟩
  have hjoined := hserved.buffer.joined 3 (by decide) (by decide) (by decide)
  exact absurd hjoined (by decide)

end ReduceOS.UhciControl
