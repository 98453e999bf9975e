import ReduceOS.LiballocMalloc

/-!
`free` of liballoc. It takes the minor out of its major, and a major that has no minor left goes
back to the hook. Nothing that other callers have is touched, and the counters stay right.
-/
namespace ReduceOS.LiballocFree

open Machine Liballoc LiballocHeap LiballocMalloc LinkedSequence Packing

variable {σ : Type} {L : LawfulHooks σ} {s s' : State σ} {c d : Chunk} {b b' : Block}
  {h l r : List Chunk} {xs ys : List Block}

def dropBlock (c : Chunk) (xs ys : List Block) : Chunk := { c with blocks := xs ++ ys }

section Arithmetic

variable {m n : ℕ}

theorem sub64_word64 (h : m ≤ n) : sub64 (word64 n) m = word64 (n - m) := by
  unfold sub64 word64
  omega

end Arithmetic

section Unlink

structure Removed (s s' : State σ) (c : Chunk) (xs ys : List Block) (b : Block) : Prop where
  majors : SameMajors s s' c.start
  usage : (s'.majors c.start).usage = sub32 (s.majors c.start).usage (b.size + minorBytes)
  first : (s'.majors c.start).first = headOr 0 ((xs ++ ys).map Block.start)
  next : ∀ a ∈ (xs ++ ys).map Block.start, (s'.minors a).next =
    if a = lastOr 0 (xs.map Block.start) then headOr 0 (ys.map Block.start) else (s.minors a).next
  prev : ∀ a ∈ (xs ++ ys).map Block.start, (s'.minors a).prev =
    if a = headOr 0 (ys.map Block.start) then lastOr 0 (xs.map Block.start) else (s.minors a).prev
  minors : ∀ a ∈ (xs ++ ys).map Block.start, (s'.minors a).block = (s.minors a).block ∧
    (s'.minors a).magic = (s.minors a).magic ∧ (s'.minors a).size = (s.minors a).size ∧
    (s'.minors a).reqSize = (s.minors a).reqSize
  others : ∀ a, a ∉ c.starts → s'.minors a = s.minors a
  bytes : s'.bytes = s.bytes
  memRoot : s'.memRoot = s.memRoot
  bestBet : s'.bestBet = s.bestBet
  allocated : s'.allocated = s.allocated
  inuse : s'.inuse = sub64 s.inuse b.size
  pages : s'.pages = s.pages

theorem starts_split (hblocks : c.blocks = xs ++ b :: ys) :
    c.starts = xs.map Block.start ++ b.start :: ys.map Block.start := by
  unfold Chunk.starts
  rw [hblocks, List.map_append, List.map_cons]

theorem mem_of_split (hblocks : c.blocks = xs ++ b :: ys) : b ∈ c.blocks := by
  rw [hblocks]
  exact List.mem_append_right xs List.mem_cons_self

/-- The pointer of a caller leads back to its minor. -/
theorem minorOf_payload {block : ℕ} (hat : BlockAt s block b) (hb : b.start < 2 ^ 64) :
    minorOf s b.payload = b.start := by
  obtain ⟨hlo, hhi, -⟩ := payloadOf_bounds (b.start + minorBytes)
  change _ ≤ b.payload at hlo
  change b.payload < _ at hhi
  unfold minorOf
  rw [unalign_eq hat.info (by omega), sub64_of_le]
  · omega
  · omega
  · omega

structure Neighbours (c : Chunk) (xs ys : List Block) (b : Block) (prev next : ℕ) : Prop where
  prev_eq : prev = lastOr 0 (xs.map Block.start)
  next_eq : next = headOr 0 (ys.map Block.start)
  ne : ∀ a ∈ (xs ++ ys).map Block.start, a ≠ b.start ∧ a ≠ 0
  prev_mem : prev ≠ 0 → prev ∈ (xs ++ ys).map Block.start ∧ xs ≠ []
  next_mem : next ≠ 0 → next ∈ (xs ++ ys).map Block.start
  prev_zero : prev = 0 → xs = []
  apart : prev ≠ 0 → prev ≠ next

theorem neighbours (hat : ChunkAt s c) (hblocks : c.blocks = xs ++ b :: ys) :
    Neighbours c xs ys b (s.minors b.start).prev (s.minors b.start).next := by
  have hlinked := hat.minors
  rw [starts_split hblocks] at hlinked
  have hnext : (s.minors b.start).next = headOr 0 (ys.map Block.start) := hlinked.next_at
  have hprev : (s.minors b.start).prev = lastOr 0 (xs.map Block.start) := hlinked.prev_at
  have hnodup := List.nodup_middle.mp hlinked.nodup
  have hnonnull := hlinked.nonnull
  rw [List.perm_middle.mem_iff, List.mem_cons, not_or] at hnonnull
  rw [List.nodup_cons, List.nodup_append] at hnodup
  obtain ⟨hnew, hxs, hys, hdisjoint⟩ := hnodup
  refine ⟨hprev, hnext, fun a ha => ?_, fun hne => ?_, fun hne => ?_, fun hzero => ?_,
      fun hne => ?_⟩
  · rw [List.map_append] at ha
    exact ⟨ne_of_mem_of_not_mem ha hnew, ne_of_mem_of_not_mem ha hnonnull.2⟩
  · have hxne : xs ≠ [] := by
      rintro rfl
      exact hne hprev
    rw [List.map_append, hprev]
    exact ⟨List.mem_append_left _ (lastOr_mem (by simpa using hxne)), hxne⟩
  · have hyne : ys ≠ [] := by
      rintro rfl
      exact hne hnext
    rw [List.map_append, hnext]
    exact List.mem_append_right _ (headOr_mem (by simpa using hyne))
  · have hmap : xs.map Block.start = [] := (lastOr_eq_null_iff fun hmem =>
      hnonnull.2 (List.mem_append_left _ hmem)).mp (hprev.symm.trans hzero)
    simpa using hmap
  · intro heq
    have hxne : xs.map Block.start ≠ [] := by
      intro hnil
      rw [hprev, hnil] at hne
      exact hne rfl
    have hyne : ys.map Block.start ≠ [] := by
      intro hnil
      rw [heq, hnext, hnil] at hne
      exact hne rfl
    have hlast : lastOr 0 (xs.map Block.start) ∈ xs.map Block.start := lastOr_mem hxne
    rw [← hprev, heq, hnext] at hlast
    exact hdisjoint _ hlast _ (headOr_mem hyne) rfl

def unlinked (s : State σ) (c : Chunk) (b : Block) (prev next : ℕ) : State σ :=
  let m := s.minors b.start
  let marked := Function.update s.minors b.start { m with magic := liballocDead }
  let back := if next ≠ 0 then Function.update marked next { marked next with prev := prev }
    else marked
  let maj := { s.majors c.start with
    usage := sub32 (s.majors c.start).usage (m.size + minorBytes) }
  { s with
    inuse := sub64 s.inuse m.size
    majors := Function.update s.majors c.start
      (if prev ≠ 0 then maj else { maj with first := next })
    minors := if prev ≠ 0 then Function.update back prev { back prev with next := next }
      else back }

theorem unlinkMinor_eq (hat : ChunkAt s c) (hb : b ∈ c.blocks) : unlinkMinor s b.start =
    unlinked s c b (s.minors b.start).prev (s.minors b.start).next := by
  have howner := (hat.blocks b hb).owner
  unfold unlinkMinor unlinked
  dsimp only
  rw [howner]
  by_cases hnext : (s.minors b.start).next ≠ 0
  · by_cases hprev : (s.minors b.start).prev ≠ 0
    · simp [hnext, hprev, State.setMajor, State.setMinor]
    · simp [hnext, hprev, State.setMajor, State.setMinor]
  · by_cases hprev : (s.minors b.start).prev ≠ 0
    · simp [hnext, hprev, State.setMajor, State.setMinor]
    · simp [hnext, hprev, State.setMajor, State.setMinor]

section Unlinked

variable {prev next a : ℕ}

/-- The minors in front of the one taken out and behind it get each other as neighbours. -/
theorem unlinked_minors (hb : a ≠ b.start) (ha : a ≠ 0) (hapart : prev ≠ 0 → prev ≠ next) :
    (unlinked s c b prev next).minors a = { s.minors a with
      prev := if a = next then prev else (s.minors a).prev
      next := if a = prev then next else (s.minors a).next } := by
  unfold unlinked
  dsimp only
  by_cases hnext : a = next
  · subst hnext
    have hne : a ≠ prev := by
      rintro rfl
      exact hapart ha rfl
    by_cases hprev : prev = 0
    · simp [hprev, hb, ha]
    · simp [hprev, hb, ha, hne]
  · by_cases hprev : a = prev
    · subst hprev
      by_cases hzero : next = 0
      · simp [hb, ha, hzero]
      · simp [hb, ha, hnext, hzero]
    · by_cases hzero : next = 0
      · by_cases hzero' : prev = 0
        · simp [hb, ha, hzero, hzero']
        · simp [hb, ha, hprev, hzero, hzero']
      · by_cases hzero' : prev = 0
        · simp [hb, ha, hnext, hzero, hzero']
        · simp [hb, hnext, hprev, hzero, hzero']

theorem unlinked_others (hb : a ≠ b.start) (hnext : next ≠ 0 → a ≠ next)
    (hprev : prev ≠ 0 → a ≠ prev) : (unlinked s c b prev next).minors a = s.minors a := by
  unfold unlinked
  dsimp only
  by_cases hzero : next = 0
  · by_cases hzero' : prev = 0
    · simp [hzero, hzero', hb]
    · simp [hzero, hzero', hb, hprev hzero']
  · by_cases hzero' : prev = 0
    · simp [hzero, hzero', hb, hnext hzero]
    · simp [hzero, hzero', hb, hnext hzero, hprev hzero']

theorem unlinked_majors (s : State σ) (c : Chunk) (b : Block) (prev next : ℕ) :
    (∀ x ≠ c.start, (unlinked s c b prev next).majors x = s.majors x) ∧
    (unlinked s c b prev next).majors c.start = { s.majors c.start with
      usage := sub32 (s.majors c.start).usage ((s.minors b.start).size + minorBytes)
      first := if prev = 0 then next else (s.majors c.start).first } := by
  unfold unlinked
  dsimp only
  refine ⟨fun x hx => Function.update_of_ne hx _ _, ?_⟩
  by_cases hprev : prev = 0
  · simp [hprev]
  · simp [hprev]

end Unlinked

theorem unlinkMinor_spec (hat : ChunkAt s c) (hblocks : c.blocks = xs ++ b :: ys) :
    Removed s (unlinkMinor s b.start) c xs ys b := by
  have hb := mem_of_split hblocks
  have hn := neighbours hat hblocks
  have hsize := (hat.blocks b hb).size
  have hfirst := hat.first
  have hmem : ∀ a ∈ (xs ++ ys).map Block.start, a ∈ c.starts := by
    intro a ha
    rw [starts_split hblocks, List.perm_middle.mem_iff, ← List.map_append]
    exact List.mem_cons_of_mem _ ha
  have hbmem : b.start ∈ c.starts := List.mem_map_of_mem hb
  rw [starts_split hblocks] at hfirst
  rw [unlinkMinor_eq hat hb]
  generalize (s.minors b.start).prev = prev at hn ⊢
  generalize (s.minors b.start).next = next at hn ⊢
  obtain ⟨hothers, hmajor⟩ := unlinked_majors s c b prev next
  refine ⟨⟨hothers, by rw [hmajor], by rw [hmajor], by rw [hmajor], by rw [hmajor]⟩, ?_, ?_,
    fun a ha => ?_, fun a ha => ?_, fun a ha => ?_, fun a ha => ?_, rfl, rfl, rfl, rfl, ?_, rfl⟩
  · rw [hmajor, hsize]
  · rw [hmajor]
    dsimp only
    by_cases hprev : prev = 0
    · have hnil := hn.prev_zero hprev
      rw [if_pos hprev, hn.next_eq, hnil, List.nil_append]
    · have hne := (hn.prev_mem hprev).2
      rw [if_neg hprev, hfirst, List.map_append, headOr_append (by simpa using hne),
        headOr_append (by simpa using hne)]
  · obtain ⟨hne, hnull⟩ := hn.ne a ha
    rw [unlinked_minors hne hnull hn.apart, ← hn.prev_eq, ← hn.next_eq]
  · obtain ⟨hne, hnull⟩ := hn.ne a ha
    rw [unlinked_minors hne hnull hn.apart, ← hn.prev_eq, ← hn.next_eq]
  · obtain ⟨hne, hnull⟩ := hn.ne a ha
    rw [unlinked_minors hne hnull hn.apart]
    exact ⟨rfl, rfl, rfl, rfl⟩
  · refine unlinked_others ?_ (fun hnull => ?_) (fun hnull => ?_)
    · exact (ne_of_mem_of_not_mem hbmem ha).symm
    · exact (ne_of_mem_of_not_mem (hmem _ (hn.next_mem hnull)) ha).symm
    · exact (ne_of_mem_of_not_mem (hmem _ (hn.prev_mem hnull).1) ha).symm
  · rw [← hsize]
    rfl

end Unlink

section Chunk

theorem Removed.chunkAt (hrem : Removed s s' c xs ys b) (hat : ChunkAt s c)
    (hblocks : c.blocks = xs ++ b :: ys) : ChunkAt s' (dropBlock c xs ys) := by
  have hlinked := hat.minors
  rw [starts_split hblocks] at hlinked
  have hpacked := hat.packed
  rw [hblocks] at hpacked
  have hfull := hpacked.taken_le
  have hmem : ∀ b' ∈ xs ++ ys, b' ∈ c.blocks := by
    intro b' hb'
    rw [hblocks, List.perm_middle.mem_iff]
    exact List.mem_cons_of_mem b hb'
  refine ⟨hat.start_pos, hat.stop_le, hat.size_lt, hrem.majors.pages.trans hat.pages,
    hrem.majors.size.trans hat.size, ?_, hrem.first, ?_, hpacked.erase, fun b' hb' => ?_⟩
  · have hsize := hat.size_lt
    unfold Chunk.base Chunk.stop at hfull
    change (s'.majors c.start).usage = _
    rw [hrem.usage, hat.usage, hblocks, taken_put]
    rw [taken_put] at hfull
    rw [sub32_of_le (by omega) (by omega)]
    unfold dropBlock
    dsimp only
    omega
  · have hstarts : (dropBlock c xs ys).starts = xs.map Block.start ++ ys.map Block.start :=
      List.map_append
    rw [hstarts]
    refine hlinked.erase (fun a ha => ?_) (fun a ha => ?_)
    · exact hrem.next a (by rwa [List.map_append])
    · exact hrem.prev a (by rwa [List.map_append])
  · have hat' := hat.blocks b' (hmem b' hb')
    obtain ⟨howner, hmagic, hsize, hreq⟩ := hrem.minors _ (List.mem_map_of_mem hb')
    exact ⟨howner.trans hat'.owner, hmagic.trans hat'.magic, hsize.trans hat'.size,
      hreq.trans hat'.reqSize, hat'.room, by rw [hrem.bytes]; exact hat'.info⟩

theorem Removed.agrees (hrem : Removed s s' c xs ys b) (hat : ChunkAt s c)
    (hapart : c.Apart d) : Agrees s s' d.start d.stop := by
  have hbase := hat.base_le
  unfold Chunk.base majorBytes at hbase
  unfold Chunk.Apart at hapart
  refine ⟨fun a hlo hhi => ?_, fun a hlo hhi => ?_, fun a _ _ => by rw [hrem.bytes]⟩
  · rw [hrem.majors.others a (by omega)]
    exact ⟨rfl, rfl, rfl, rfl⟩
  · refine hrem.others a fun ha => ?_
    have := hat.starts_inside a ha
    omega

theorem totalInuse_drop (hblocks : c.blocks = xs ++ b :: ys) :
    totalInuse (l ++ c :: r) = totalInuse (l ++ dropBlock c xs ys :: r) + b.size := by
  simp only [totalInuse, dropBlock, List.map_append, List.map_cons, List.sum_append,
    List.sum_cons, hblocks, blocksSize]
  omega

theorem Removed.heapAt (hrem : Removed s s' c xs ys b) (hat : HeapAt s (l ++ c :: r))
    (hblocks : c.blocks = xs ++ b :: ys) : HeapAt s' (l ++ dropBlock c xs ys :: r) := by
  have hc := hat.chunks c (List.mem_append_right l List.mem_cons_self)
  refine hat.replace rfl rfl (hrem.chunkAt hc hblocks) hrem.majors
    (fun d _ hapart => hrem.agrees hc hapart) hrem.memRoot hrem.bestBet hrem.allocated ?_
  rw [hrem.inuse, hat.inuse, totalInuse_drop hblocks, sub64_word64 (by omega),
    Nat.add_sub_cancel]

end Chunk

section Release

variable {pages : σ} {prev next a : ℕ}

def bypass (majors : ℕ → Major) (prev next : ℕ) : ℕ → Major :=
  let front := if prev ≠ 0 then Function.update majors prev { majors prev with next := next }
    else majors
  if next ≠ 0 then Function.update front next { front next with prev := prev } else front

theorem bypass_fields (majors : ℕ → Major) (a : ℕ) :
    (bypass majors prev next a).pages = (majors a).pages ∧
      (bypass majors prev next a).size = (majors a).size ∧
      (bypass majors prev next a).usage = (majors a).usage ∧
      (bypass majors prev next a).first = (majors a).first := by
  have hupdate : ∀ (ms : ℕ → Major) (x : ℕ) (m : Major), m.pages = (ms x).pages →
      m.size = (ms x).size → m.usage = (ms x).usage → m.first = (ms x).first →
      (Function.update ms x m a).pages = (ms a).pages ∧
        (Function.update ms x m a).size = (ms a).size ∧
        (Function.update ms x m a).usage = (ms a).usage ∧
        (Function.update ms x m a).first = (ms a).first := by
    intro ms x m hp hs hu hf
    by_cases hx : a = x
    · subst hx
      simp [hp, hs, hu, hf]
    · simp [hx]
  unfold bypass
  dsimp only
  split_ifs
  · have hback := hupdate (Function.update majors prev { majors prev with next := next }) next
      { Function.update majors prev { majors prev with next := next } next with prev := prev }
      rfl rfl rfl rfl
    have hfront := hupdate majors prev { majors prev with next := next } rfl rfl rfl rfl
    exact ⟨hback.1.trans hfront.1, hback.2.1.trans hfront.2.1, hback.2.2.1.trans hfront.2.2.1,
      hback.2.2.2.trans hfront.2.2.2⟩
  · exact hupdate majors next { majors next with prev := prev } rfl rfl rfl rfl
  · exact hupdate majors prev { majors prev with next := next } rfl rfl rfl rfl
  · exact ⟨rfl, rfl, rfl, rfl⟩

theorem bypass_links (majors : ℕ → Major) (ha : a ≠ 0) (hapart : prev ≠ 0 → prev ≠ next) :
    (bypass majors prev next a).next = (if a = prev then next else (majors a).next) ∧
      (bypass majors prev next a).prev = if a = next then prev else (majors a).prev := by
  unfold bypass
  dsimp only
  by_cases hprev : a = prev
  · subst hprev
    have hne := hapart ha
    by_cases hnext : next = 0
    · simp [ha, hnext]
    · simp [ha, hnext, hne]
  · by_cases hnext : a = next
    · subst hnext
      by_cases hzero : prev = 0
      · simp [ha, hzero]
      · simp [ha, hzero, hprev]
    · split_ifs <;> simp [hprev, hnext]

theorem releaseMajor_eq (maj : ℕ) : releaseMajor L.toHooks s maj =
    (L.free s.pages maj (s.majors maj).pages).map fun pages => { s with
      memRoot := if s.memRoot = maj then (s.majors maj).next else s.memRoot
      bestBet := if s.bestBet = maj then 0 else s.bestBet
      majors := bypass s.majors (s.majors maj).prev (s.majors maj).next
      allocated := sub64 s.allocated (s.majors maj).size
      pages := pages } := by
  unfold releaseMajor bypass
  dsimp only
  by_cases hprev : (s.majors maj).prev = 0
  · by_cases hnext : (s.majors maj).next = 0
    · simp only [hprev, hnext, ne_eq, not_true, if_false]
      cases L.free s.pages maj (s.majors maj).pages <;> rfl
    · simp only [hprev, hnext, ne_eq, not_true, not_false_iff, if_true, if_false, State.setMajor]
      cases L.free s.pages maj (s.majors maj).pages <;> rfl
  · by_cases hnext : (s.majors maj).next = 0
    · simp only [hprev, hnext, ne_eq, not_true, not_false_iff, if_true, if_false, State.setMajor]
      cases L.free s.pages maj (s.majors maj).pages <;> rfl
    · simp only [hprev, hnext, ne_eq, not_false_iff, if_true, State.setMajor]
      cases L.free s.pages maj (s.majors maj).pages <;> rfl

/-- A major without minors leaves the list of the majors. -/
theorem heapAt_release (pages : σ) (hat : HeapAt s (l ++ c :: r)) (hempty : c.blocks = []) :
    HeapAt { s with
      memRoot := if s.memRoot = c.start then (s.majors c.start).next else s.memRoot
      bestBet := if s.bestBet = c.start then 0 else s.bestBet
      majors := bypass s.majors (s.majors c.start).prev (s.majors c.start).next
      allocated := sub64 s.allocated (s.majors c.start).size
      pages := pages } (l ++ r) := by
  have hcat := hat.chunks c (List.mem_append_right l List.mem_cons_self)
  have hstarts : starts (l ++ c :: r) = starts l ++ c.start :: starts r := by simp [starts]
  have hrest : starts (l ++ r) = starts l ++ starts r := by simp [starts]
  have hlinked := hat.majors
  rw [hstarts] at hlinked
  have hnext : (s.majors c.start).next = headOr 0 (starts r) := hlinked.next_at
  have hprev : (s.majors c.start).prev = lastOr 0 (starts l) := hlinked.prev_at
  have hnodup := List.nodup_middle.mp hlinked.nodup
  have hnonnull := hlinked.nonnull
  rw [List.perm_middle.mem_iff, List.mem_cons, not_or] at hnonnull
  rw [List.nodup_cons] at hnodup
  have hapart : (s.majors c.start).prev ≠ 0 →
      (s.majors c.start).prev ≠ (s.majors c.start).next := by
    rw [hprev, hnext]
    intro hne heq
    have hl : starts l ≠ [] := fun hnil => hne (by rw [hnil]; rfl)
    have hr : starts r ≠ [] := fun hnil => hne (by rw [heq, hnil]; rfl)
    have hlast : lastOr 0 (starts l) ∈ starts l := lastOr_mem hl
    exact (List.nodup_append.mp hnodup.2).2.2 _ hlast _ (heq ▸ headOr_mem hr) rfl
  have hsub : (l ++ r).Sublist (l ++ c :: r) := (List.sublist_cons_self c r).append_left l
  refine ⟨?_, ?_, ?_, fun d hd => ?_, hat.apart.sublist hsub, ?_, ?_⟩
  · rw [hrest]
    refine hlinked.erase (fun a ha => ?_) (fun a ha => ?_)
    · have hnull : a ≠ 0 := ne_of_mem_of_not_mem ha hnonnull.2
      rw [← hprev, ← hnext]
      exact (bypass_links s.majors hnull hapart).1
    · have hnull : a ≠ 0 := ne_of_mem_of_not_mem ha hnonnull.2
      rw [← hprev, ← hnext]
      exact (bypass_links s.majors hnull hapart).2
  · dsimp only
    rw [hat.root, hstarts, hrest, hnext]
    cases hl : starts l with
    | nil => simp
    | cons x xs =>
      have hx : x ≠ c.start := by
        rintro rfl
        exact hnodup.1 (by rw [hl]; exact List.mem_cons_self)
      simp [hx]
  · dsimp only
    split_ifs with hbest
    · exact Or.inl rfl
    · rcases hat.best with hzero | hmem
      · exact Or.inl hzero
      · rw [hstarts, List.perm_middle.mem_iff, List.mem_cons] at hmem
        rw [hrest]
        exact Or.inr (hmem.resolve_left hbest)
  · refine (hat.chunks d (hsub.subset hd)).congr ⟨fun a _ _ => ?_, fun _ _ _ => rfl,
      fun _ _ _ => rfl⟩
    exact bypass_fields s.majors a
  · dsimp only
    have htotal : totalSize (l ++ c :: r) = totalSize (l ++ r) + c.pages * pageSize := by
      simp only [totalSize, List.map_append, List.map_cons, List.sum_append, List.sum_cons]
      omega
    rw [hat.allocated, hcat.size, htotal, sub64_word64 (by omega), Nat.add_sub_cancel]
  · have htotal : totalInuse (l ++ c :: r) = totalInuse (l ++ r) := by
      simp [totalInuse, blocksSize, hempty]
    exact hat.inuse.trans (by rw [htotal])

end Release

section Free

/-- What a call of `free` with the pointer of a block comes to. -/
structure Freed (L : LawfulHooks σ) (s : State σ) (l : List Chunk) (c : Chunk) (r : List Chunk)
    (xs ys : List Block) (s' : State σ) (h' : List Chunk) : Prop where
  heap : Heap L s' h'
  bytes : s'.bytes = s.bytes
  kept : xs ++ ys ≠ [] → h' = l ++ dropBlock c xs ys :: r ∧ s'.pages = s.pages
  released : xs ++ ys = [] → h' = l ++ r ∧ L.free s.pages c.start c.pages = some s'.pages

theorem run_perm : ((l ++ c :: r).map Chunk.run).Perm (c.run :: (l ++ r).map Chunk.run) := by
  rw [← List.map_cons]
  exact List.perm_middle.map _

theorem free_eq_some {b : Block} (hat : HeapAt s (l ++ c :: r))
    (hblocks : c.blocks = xs ++ b :: ys) : free L.toHooks s b.payload =
      if xs ++ ys = [] then releaseMajor L.toHooks (unlinkMinor s b.start) c.start
      else some (improveBet (unlinkMinor s b.start) c.start) := by
  have hc := hat.chunks c (List.mem_append_right l List.mem_cons_self)
  have hb := mem_of_split hblocks
  have hbat := hc.blocks b hb
  obtain ⟨hbase, hstop⟩ := hc.bounds hb
  have hle := hc.stop_le
  have hpay := hbat.payload_bounds
  have hrem := unlinkMinor_spec hc hblocks
  have hminor : minorOf s b.payload = b.start := by
    refine minorOf_payload hbat ?_
    unfold Block.stop minorBytes at hstop
    omega
  have hpos : b.payload ≠ 0 := by
    unfold alignInfo at hpay
    omega
  unfold free
  dsimp only
  rw [if_neg hpos, hminor, hbat.magic, if_neg (Decidable.not_not.mpr rfl), hbat.owner, hrem.first]
  by_cases hempty : xs ++ ys = []
  · rw [if_pos hempty, hempty]
    rfl
  · rw [if_neg hempty]
    have hne : (xs ++ ys).map Block.start ≠ [] := by simpa using hempty
    refine if_neg fun hzero => ?_
    have hmem : headOr 0 ((xs ++ ys).map Block.start) ∈ (xs ++ ys).map Block.start :=
      headOr_mem hne
    rw [hzero] at hmem
    have hnonnull := hc.minors.nonnull
    rw [starts_split hblocks, List.perm_middle.mem_iff, List.mem_cons, not_or,
      ← List.map_append] at hnonnull
    exact hnonnull.2 hmem

/-- The block of a caller is given back, and its major as well if it was the last one in there. -/
theorem free_spec {b : Block} (hheap : Heap L s (l ++ c :: r))
    (hblocks : c.blocks = xs ++ b :: ys) {s' : State σ}
    (hfree : free L.toHooks s b.payload = some s') :
    ∃ h', Freed L s l c r xs ys s' h' := by
  have hat := hheap.toHeapAt
  have hc := hat.chunks c (List.mem_append_right l List.mem_cons_self)
  have hrem := unlinkMinor_spec hc hblocks
  have hat₁ := hrem.heapAt hat hblocks
  rw [free_eq_some hat hblocks] at hfree
  split_ifs at hfree with hempty
  · rw [releaseMajor_eq] at hfree
    obtain ⟨pages, hpages, rfl⟩ := Option.map_eq_some_iff.mp hfree
    have hcpages : ((unlinkMinor s b.start).majors c.start).pages = c.pages :=
      hrem.majors.pages.trans hc.pages
    rw [hrem.pages, hcpages] at hpages
    have hat₂ := heapAt_release pages hat₁ hempty
    have hholds := L.holds_perm _ _ _ run_perm hheap.pages
    refine ⟨l ++ r, ⟨hat₂, fun d hd => hheap.full d ?_, L.free_spec _ _ _ _ _ hholds hpages⟩,
      hrem.bytes, fun hne => absurd hempty hne, fun _ => ⟨rfl, hpages⟩⟩
    exact ((List.sublist_cons_self c r).append_left l).subset hd
  · have hs' := Option.some.inj hfree
    have hsame : s'.majors = (unlinkMinor s b.start).majors ∧
        s'.minors = (unlinkMinor s b.start).minors ∧ s'.bytes = (unlinkMinor s b.start).bytes ∧
        s'.memRoot = (unlinkMinor s b.start).memRoot ∧
        (s'.bestBet = (unlinkMinor s b.start).bestBet ∨ s'.bestBet = c.start) ∧
        s'.allocated = (unlinkMinor s b.start).allocated ∧
        s'.inuse = (unlinkMinor s b.start).inuse ∧ s'.pages = (unlinkMinor s b.start).pages := by
      rw [← hs']
      unfold improveBet
      split_ifs
      · exact ⟨rfl, rfl, rfl, rfl, Or.inr rfl, rfl, rfl, rfl⟩
      · exact ⟨rfl, rfl, rfl, rfl, Or.inl rfl, rfl, rfl, rfl⟩
    obtain ⟨hmajors, hminors, hbytes, hroot, hbest, hallocated, hinuse, hpages⟩ := hsame
    refine ⟨l ++ dropBlock c xs ys :: r, ⟨?_, fun d hd => ?_, ?_⟩, hbytes.trans hrem.bytes,
      fun _ => ⟨rfl, hpages.trans hrem.pages⟩, fun hnil => absurd hnil hempty⟩
    · refine heapAt_congr hat₁ hmajors hminors hbytes hroot ?_ hallocated hinuse
      rcases hbest with hbest | hbest
      · rw [hbest]
        exact hat₁.best
      · rw [hbest]
        exact Or.inr (mem_starts (c := dropBlock c xs ys)
          (List.mem_append_right l List.mem_cons_self))
    · rcases List.mem_append.mp hd with hd | hd
      · exact hheap.full d (List.mem_append_left _ hd)
      · rcases List.mem_cons.mp hd with rfl | hd
        · exact hempty
        · exact hheap.full d (List.mem_append_right l (List.mem_cons_of_mem c hd))
    · rw [hpages, hrem.pages]
      have hruns : (l ++ dropBlock c xs ys :: r).map Chunk.run = (l ++ c :: r).map Chunk.run := by
        simp [Chunk.run, dropBlock]
      rw [hruns]
      exact hheap.pages

end Free

end ReduceOS.LiballocFree
