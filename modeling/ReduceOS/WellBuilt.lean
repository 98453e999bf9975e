import ReduceOS.CopyOnWrite
import ReduceOS.Destroy
import ReduceOS.PmmAllocator

/-!
The address spaces a run starts from, described as the processor sees them: tables
that form a tree, user pages in frames of their own, and exact reference counts. Below
2 GiB, where the kernel and the processor agree on every entry, such a state is
well-formed for the memory code.
-/
namespace ReduceOS.WellBuilt

open Machine Page Physical Paging AddressSpace Outcome TableTree PageMap Sharing SharedPages Views
  Clone UserAccess CopyOnWrite

variable {P : Type}

def UserPte (live : Set FrameNo) (mem : FrameNo → Frame) (x : Slot) : Prop :=
  ∃ r p, (lower live).carrier r (p ++ [x.2]) ∧ p.length = 3 ∧ tableAt hNext mem r p = some x.1 ∧
    (mem x.1 x.2).present = true ∧ (mem x.1 x.2).usermode = true

def mappers (live : Set FrameNo) (mem : FrameNo → Frame) (f : FrameNo) : Set Slot :=
  {x | UserPte live mem x ∧ (mem x.1 x.2).address = f}

/-- Address spaces as the kernel builds them: tables of 4 KiB pages forming a tree, in
frames the allocator has given out, user pages in other such frames. -/
structure Built (used live : Set FrameNo) (s : State P) : Prop where
  tree : Tree (lower live) hNext s.phys
  small : ∀ r p i g, (lower live).carrier r (p ++ [i]) → p.length < 3 → p.length ≠ 0 →
    tableAt hNext s.phys r p = some g → (s.phys g i).present = true → (s.phys g i).size = false
  tables : ∀ f, IsTable (lower live) hNext s.phys f → f ∈ used
  pages : ∀ x, UserPte live s.phys x → (s.phys x.1 x.2).address ∈ used ∧
    ¬ IsTable (lower live) hNext s.phys (s.phys x.1 x.2).address
  unshared : ∀ f, f ∉ used ∨ IsTable (lower live) hNext s.phys f → s.refs f = 0

/-- Every user page is writable and uncounted, or read-only, waiting for its copy and
counted exactly. -/
structure Counted (live : Set FrameNo) (s : State P) : Prop where
  writable : ∀ x, UserPte live s.phys x → (s.phys x.1 x.2).rw = true →
    s.refs (s.phys x.1 x.2).address = 0
  single : ∀ x y, UserPte live s.phys x → UserPte live s.phys y → (s.phys x.1 x.2).rw = true →
    (s.phys y.1 y.2).address = (s.phys x.1 x.2).address → y = x
  readonly : ∀ x, UserPte live s.phys x → (s.phys x.1 x.2).rw = false →
    (s.phys x.1 x.2).cow = true ∧
      (mappers live s.phys (s.phys x.1 x.2).address).ncard =
        (s.refs (s.phys x.1 x.2).address).toNat

/-- Every user page is writable and the only one of its frame, and nothing is shared. -/
structure AllPrivate (live : Set FrameNo) (s : State P) : Prop where
  writable : ∀ x, UserPte live s.phys x → (s.phys x.1 x.2).rw = true ∧ (s.phys x.1 x.2).cow = false
  single : ∀ x y, UserPte live s.phys x → UserPte live s.phys y →
    (s.phys y.1 y.2).address = (s.phys x.1 x.2).address → y = x
  unreferenced : ∀ x, UserPte live s.phys x → s.refs (s.phys x.1 x.2).address = 0

theorem AllPrivate.counted {live : Set FrameNo} {s : State P} (hp : AllPrivate live s) :
    Counted live s := by
  refine ⟨fun x hx _ => hp.unreferenced x hx, fun x y hx hy _ => hp.single x y hx hy, ?_⟩
  intro x hx hro
  rw [(hp.writable x hx).1] at hro
  contradiction

def Low (live : Set FrameNo) (mem : FrameNo → Frame) : Prop :=
  (∀ f, IsTable (lower live) hNext mem f → f.toNat < 2 ^ 19) ∧
    ∀ x, UserPte live mem x → (mem x.1 x.2).address.toNat < 2 ^ 19

def TablesLow (live : Set FrameNo) (mem : FrameNo → Frame) : Prop :=
  ∀ f, IsTable (lower live) hNext mem f → f.toNat < 2 ^ 19

/-- No table entry has its size bit set, whether present or not. -/
def Unsized (live : Set FrameNo) (mem : FrameNo → Frame) : Prop :=
  ∀ r p i g, (lower live).carrier r (p ++ [i]) → p.length < 3 → p.length ≠ 0 →
    tableAt hNext mem r p = some g → (mem g i).size = false

section Start

variable {L : LawfulAllocator P} {s : State P} {live : Set FrameNo}

/-- Below 2 GiB the kernel reaches the tables the processor reaches. -/
theorem kernel_tableAt (hb : Built (L.used s.pmm) live s) (hlow : TablesLow live s.phys)
    {r : FrameNo} {p : List (Fin 512)} (hp : (lower live).carrier r p) :
    tableAt kNext s.phys r p = tableAt hNext s.phys r p := by
  apply walk_congr
  rintro q i ⟨q', rfl⟩ g hg
  rw [Nat.zero_add]
  have hq : (lower live).carrier r (q ++ [i]) := (lower live).closed r (q ++ [i]) q' hp
  cases hfollow : follow q.length (s.phys g i) with
  | false =>
    rw [kNext_of_not_follow hfollow, hNext, hfollow]
    rfl
  | true =>
    have hnext : hNext q.length (s.phys g i) = some (s.phys g i).address := by
      rw [hNext, hfollow]
      rfl
    have htable : IsTable (lower live) hNext s.phys (s.phys g i).address := by
      refine ⟨r, q ++ [i], hq, ?_⟩
      rw [tableAt, walk_concat, show walk hNext s.phys 0 r q = some g from hg, Nat.zero_add]
      exact hnext
    simp only [follow, Bool.and_eq_true, decide_eq_true_eq] at hfollow
    rw [hnext, kNext_link hfollow.1.1 ?_ hfollow.1.2 (hlow _ htable)]
    intro hne
    exact hb.small r q i g hq hfollow.1.1 hne hg hfollow.1.2

def spare (L : LawfulAllocator P) (s : State P) (live : Set FrameNo) : Set FrameNo :=
  {f | f ∈ L.used s.pmm ∧ ¬ IsTable (lower live) kNext s.phys f ∧
    ¬ Held (holding (lower live) s.phys) f}

theorem pageSlot_iff (hb : Built (L.used s.pmm) live s) (hlow : TablesLow live s.phys)
    {x : Slot} :
    (PageSlot (lower live) s.phys x ∧ (s.phys x.1 x.2).present = true ∧
      (s.phys x.1 x.2).usermode = true) ↔ UserPte live s.phys x := by
  constructor
  · rintro ⟨⟨r, p, hp, hlen, hg⟩, hpres, huser⟩
    refine ⟨r, p, hp, hlen, ?_, hpres, huser⟩
    rwa [← kernel_tableAt hb hlow ((lower live).closed r p [x.2] hp)]
  · rintro ⟨r, p, hp, hlen, hg, hpres, huser⟩
    refine ⟨⟨r, p, hp, hlen, ?_⟩, hpres, huser⟩
    rwa [kernel_tableAt hb hlow ((lower live).closed r p [x.2] hp)]

theorem holding_iff (hb : Built (L.used s.pmm) live s) (hlow : TablesLow live s.phys)
    {x : Slot} {f : FrameNo} {w : Bool} :
    holding (lower live) s.phys x = some (f, w) ↔
      UserPte live s.phys x ∧ (s.phys x.1 x.2).address = f ∧ (s.phys x.1 x.2).rw = w := by
  rw [holding_eq_some, content_eq_some, ← pageSlot_iff hb hlow]
  tauto

theorem isTable_iff (hb : Built (L.used s.pmm) live s) (hlow : TablesLow live s.phys)
    (f : FrameNo) : IsTable (lower live) kNext s.phys f ↔ IsTable (lower live) hNext s.phys f := by
  constructor
  · rintro ⟨r, p, hp, hf⟩
    exact ⟨r, p, hp, by rwa [← kernel_tableAt hb hlow hp]⟩
  · rintro ⟨r, p, hp, hf⟩
    exact ⟨r, p, hp, by rwa [kernel_tableAt hb hlow hp]⟩

/-- Well-built, counted address spaces with their tables below 2 GiB are well-formed, and so are
their pages there. -/
theorem formed_of_layout {Y : Layout} {F : Set FrameNo} (hres : Y.reserved = spare L s live)
    (hrefs : ∀ f ∈ spare L s live, f ∉ Y.uncounted → s.refs f = 0)
    (hkernel : ∀ x, PageSlot (lower live) s.phys x → (s.phys x.1 x.2).present = true →
      (s.phys x.1 x.2).usermode = false → (s.phys x.1 x.2).address ∈ Y.kernel)
    (hstale : ¬ Y.stale → Unsized live s.phys) (hv : L.valid s.pmm)
    (hb : Built (L.used s.pmm) live s) (hc : Counted live s) (hlow : TablesLow live s.phys)
    (hF : ∀ x, UserPte live s.phys x →
      (s.phys x.1 x.2).address ∈ F ∨ (s.phys x.1 x.2).address.toNat < 2 ^ 19) :
    Formed L Y F (lower live) s := by
  have htable := isTable_iff hb hlow
  have hhold := fun x f w => holding_iff hb hlow (x := x) (f := f) (w := w)
  have hheld : ∀ f, Held (holding (lower live) s.phys) f → f ∈ L.used s.pmm ∧
      (f ∈ F ∨ f.toNat < 2 ^ 19) ∧ ¬ IsTable (lower live) hNext s.phys f := by
    rintro f ⟨x, w, hx⟩
    obtain ⟨hpte, rfl, -⟩ := (hhold x f w).mp hx
    exact ⟨(hb.pages x hpte).1, hF x hpte, (hb.pages x hpte).2⟩
  have hholders : ∀ f, holders (holding (lower live) s.phys) f = mappers live s.phys f := by
    intro f
    ext x
    constructor
    · rintro ⟨w, hx⟩
      obtain ⟨hpte, hf, -⟩ := (hhold x f w).mp hx
      exact ⟨hpte, hf⟩
    · rintro ⟨hpte, hf⟩
      exact ⟨_, (hhold x f _).mpr ⟨hpte, hf, rfl⟩⟩
  have hsame : ∀ r p, (lower live).carrier r p →
      tableAt kNext s.phys r p = tableAt hNext s.phys r p := fun r p hp =>
    kernel_tableAt hb hlow hp
  refine ⟨hv, ?_, ?_, ?_, hkernel, ⟨?_, ?_, ?_, ?_⟩, ?_, ?_, ?_⟩
  · intro r p r' p' g hp hp' hg hg'
    rw [hsame r p hp] at hg
    rw [hsame r' p' hp'] at hg'
    exact hb.tree r p r' p' g hp hp' hg hg'
  · intro r p i g hp hlen hg
    rw [hsame r p ((lower live).closed r p [i] hp)] at hg
    refine ⟨fun hpres => ?_, fun hY hne => hstale hY r p i g hp hlen hne hg⟩
    have hsize : p.length ≠ 0 → (s.phys g i).size = false := fun hne =>
      hb.small r p i g hp hlen hne hg hpres
    have hfollow : follow p.length (s.phys g i) = true := by
      by_cases h0 : p.length = 0
      · simp [follow, h0, hpres]
      · simp [follow, hlen, hpres, hsize h0]
    apply kNext_link hlen hsize hpres
    apply hlow
    refine ⟨r, p ++ [i], hp, ?_⟩
    rw [tableAt, walk_concat, show walk hNext s.phys 0 r p = some g from hg, Nat.zero_add]
    change hNext p.length (s.phys g i) = _
    rw [hNext, hfollow]
    rfl
  · intro x hx hpres huser hro
    exact (hc.readonly x ((pageSlot_iff hb hlow).mp ⟨hx, hpres, huser⟩) hro).1
  · intro x f hx
    obtain ⟨hpte, rfl, hrw⟩ := (hhold x f true).mp hx
    refine ⟨by rw [hc.writable x hpte hrw]; rfl, ?_⟩
    intro y w hy
    obtain ⟨hpte', haddr, -⟩ := (hhold y _ w).mp hy
    exact hc.single x y hpte hpte' hrw haddr
  · intro x f hx hzero
    obtain ⟨hpte, rfl, hro⟩ := (hhold x f false).mp hx
    have hcard := (hc.readonly x hpte hro).2
    rw [hzero, Set.ncard_eq_zero (Set.toFinite _)] at hcard
    have hmem : x ∈ mappers live s.phys (s.phys x.1 x.2).address := ⟨hpte, rfl⟩
    rw [hcard] at hmem
    exact hmem
  · intro f hU hne
    rw [hholders]
    have hused : f ∈ L.used s.pmm := by
      by_contra hbad
      exact hne (by rw [hb.unshared f (Or.inl hbad)]; rfl)
    have hnot : ¬ IsTable (lower live) kNext s.phys f := by
      intro hbad
      exact hne (by rw [hb.unshared f (Or.inr ((htable f).mp hbad))]; rfl)
    have hh : Held (holding (lower live) s.phys) f := by
      by_contra hbad
      exact hne (by rw [hrefs f ⟨hused, hnot, hbad⟩ hU]; rfl)
    obtain ⟨x, w, hx⟩ := hh
    obtain ⟨hpte, rfl, rfl⟩ := (hhold x f w).mp hx
    cases hrw : (s.phys x.1 x.2).rw with
    | true => exact absurd (by rw [hc.writable x hpte hrw]; rfl) hne
    | false => exact (hc.readonly x hpte hrw).2
  · intro x f w hx hbad
    have hspare := Y.uncounted_reserved hbad
    rw [hres] at hspare
    exact hspare.2.2 ⟨x, w, hx⟩
  · intro f
    rw [hres]
    constructor
    · intro hf
      by_cases ht : IsTable (lower live) kNext s.phys f
      · exact Or.inr (Or.inl ht)
      · by_cases hh : Held (holding (lower live) s.phys) f
        · exact Or.inr (Or.inr hh)
        · exact Or.inl ⟨hf, ht, hh⟩
    · rintro (hf | hf | hf)
      · exact hf.1
      · exact hb.tables f ((htable f).mp hf)
      · exact (hheld f hf).1
  · intro f hf
    rw [hres]
    exact ⟨hlow f ((htable f).mp hf), fun hbad => hbad.2.1 hf,
      fun hbad => (hheld f hbad).2.2 ((htable f).mp hf)⟩
  · intro f hf
    rw [hres]
    exact ⟨(hheld f hf).2.1, fun hbad => hbad.2.2 hf⟩

/-- Well-built, counted address spaces below 2 GiB are well-formed. -/
theorem wf_of_layout {Y : Layout} (hres : Y.reserved = spare L s live)
    (hrefs : ∀ f ∈ spare L s live, f ∉ Y.uncounted → s.refs f = 0)
    (hkernel : ∀ x, PageSlot (lower live) s.phys x → (s.phys x.1 x.2).present = true →
      (s.phys x.1 x.2).usermode = false → (s.phys x.1 x.2).address ∈ Y.kernel)
    (hstale : ¬ Y.stale → Unsized live s.phys) (hv : L.valid s.pmm)
    (hb : Built (L.used s.pmm) live s) (hc : Counted live s) (hlow : Low live s.phys) :
    Wf L Y (lower live) s :=
  formed_of_layout hres hrefs hkernel hstale hv hb hc hlow.1 fun x hx => Or.inr (hlow.2 x hx)

def startLayout (L : LawfulAllocator P) (s : State P) (live : Set FrameNo) : Layout where
  reserved := spare L s live
  uncounted := spare L s live
  kernel := Set.univ
  stale := True
  uncounted_reserved := le_refl _

theorem wf_of_counted (hv : L.valid s.pmm) (hb : Built (L.used s.pmm) live s)
    (hc : Counted live s) (hlow : Low live s.phys) :
    Wf L (startLayout L s live) (lower live) s :=
  wf_of_layout rfl (fun _ hf hU => absurd hf hU) (fun _ _ _ _ => Set.mem_univ _)
    (fun hno => absurd trivial hno) hv hb hc hlow

end Start

section OnePage

def openEntry (f : FrameNo) : Entry :=
  { Entry.zero with present := true, rw := true, usermode := true, address := f }

/-- One directory in frame 1 with a single user page at 0x400000, mapped to `frame`, whose
second byte is 7; the tables are frames 2, 3 and 4. -/
def onePage (frame : FrameNo) (pmm : Pmm.State) : State Pmm.State where
  phys f :=
    if f = 1 then Function.update zeroFrame 0 (openEntry 2)
    else if f = 2 then Function.update zeroFrame 0 (openEntry 3)
    else if f = 3 then Function.update zeroFrame 2 (openEntry 4)
    else if f = 4 then Function.update zeroFrame 0 (openEntry frame)
    else if f = frame then Function.update zeroFrame 0 (Entry.ofData 0x0700)
    else zeroFrame
  refs _ := 0
  pmm := pmm

variable {frame : FrameNo} {pmm : Pmm.State}

@[simp] theorem onePage_pmm : (onePage frame pmm).pmm = pmm := rfl

theorem onePage_tableAt {p : List (Fin 512)} {g : FrameNo}
    (h : tableAt hNext (onePage frame pmm).phys 1 p = some g) :
    p = [] ∧ g = 1 ∨ p = [0] ∧ g = 2 ∨ p = [0, 0] ∧ g = 3 ∨ p = [0, 0, 2] ∧ g = 4 := by
  have hstep : ∀ (d : ℕ) (f f' : FrameNo) (k i : Fin 512) (q : List (Fin 512)),
      (onePage frame pmm).phys f = Function.update zeroFrame k (openEntry f') →
      walk hNext (onePage frame pmm).phys d f (i :: q) = some g →
      d < 3 ∧ i = k ∧ walk hNext (onePage frame pmm).phys (d + 1) f' q = some g := by
    intro d f f' k i q hf hq
    rw [walk_cons, hf] at hq
    by_cases hik : i = k
    · subst hik
      rw [Function.update_self] at hq
      by_cases hd : d < 3
      · exact ⟨hd, rfl, by simpa [hNext, follow, openEntry, Entry.zero, hd] using hq⟩
      · simp [hNext, follow, hd] at hq
    · rw [Function.update_of_ne hik] at hq
      simp [zeroFrame, hNext] at hq
  unfold tableAt at h
  rcases p with _ | ⟨i, p⟩
  · exact Or.inl ⟨rfl, (Option.some.inj h).symm⟩
  obtain ⟨-, rfl, h₁⟩ := hstep 0 1 2 0 i p rfl h
  rcases p with _ | ⟨j, p⟩
  · exact Or.inr (Or.inl ⟨rfl, (Option.some.inj h₁).symm⟩)
  obtain ⟨-, rfl, h₂⟩ := hstep 1 2 3 0 j p rfl h₁
  rcases p with _ | ⟨k, p⟩
  · exact Or.inr (Or.inr (Or.inl ⟨rfl, (Option.some.inj h₂).symm⟩))
  obtain ⟨-, rfl, h₃⟩ := hstep 2 3 4 2 k p rfl h₂
  rcases p with _ | ⟨l, p⟩
  · exact Or.inr (Or.inr (Or.inr ⟨rfl, (Option.some.inj h₃).symm⟩))
  exact absurd (hstep 3 4 frame 0 l p rfl h₃).1 (by decide)

theorem onePage_userPte {x : Slot} (hx : UserPte {1} (onePage frame pmm).phys x) :
    x = (4, 0) := by
  obtain ⟨r, p, hp, hlen, hg, hpres, -⟩ := hx
  obtain rfl : r = 1 := hp.1
  rcases onePage_tableAt hg with ⟨rfl, -⟩ | ⟨rfl, -⟩ | ⟨rfl, -⟩ | ⟨rfl, hx1⟩
  · simp at hlen
  · simp at hlen
  · simp at hlen
  · by_contra hne
    have hx2 : x.2 ≠ 0 := fun h => hne (Prod.ext hx1 h)
    rw [hx1] at hpres
    have hphys : (onePage frame pmm).phys 4 = Function.update zeroFrame 0 (openEntry frame) := rfl
    rw [hphys, Function.update_of_ne hx2] at hpres
    exact absurd hpres Bool.false_ne_true

theorem onePage_isTable {g : FrameNo} (hg : IsTable (lower {1}) hNext (onePage frame pmm).phys g) :
    1 ≤ g.toNat ∧ g.toNat ≤ 4 := by
  obtain ⟨r, p, hp, hg⟩ := hg
  obtain rfl : r = 1 := hp.1
  rcases onePage_tableAt hg with ⟨-, rfl⟩ | ⟨-, rfl⟩ | ⟨-, rfl⟩ | ⟨-, rfl⟩ <;> decide

theorem onePage_unsized : Unsized {1} (onePage frame pmm).phys := by
  intro r p i g hp _ _ hg
  obtain rfl : r = 1 := hp.1
  have hsize : ∀ (f f' : FrameNo) (k : Fin 512),
      (onePage frame pmm).phys f = Function.update zeroFrame k (openEntry f') →
      ((onePage frame pmm).phys f i).size = false := by
    intro f f' k hf
    rw [hf]
    by_cases hik : i = k
    · subst hik
      rw [Function.update_self]
      rfl
    · rw [Function.update_of_ne hik]
      rfl
  rcases onePage_tableAt hg with ⟨rfl, rfl⟩ | ⟨rfl, rfl⟩ | ⟨rfl, rfl⟩ | ⟨rfl, rfl⟩
  · exact hsize 1 2 0 rfl
  · exact hsize 2 3 0 rfl
  · exact hsize 3 4 2 rfl
  · exact hsize 4 frame 0 rfl

theorem onePage_built (htables : ∀ k ∈ [1, 2, 3, 4], Pmm.used pmm k = true)
    (hframe : Pmm.used pmm frame.toNat = true) (hlt : 4 < frame.toNat) :
    Built (PmmAllocator.bitmap.used pmm) {1} (onePage frame pmm) := by
  refine ⟨?_, ?_, ?_, ?_, fun _ _ => rfl⟩
  · intro r p r' p' g hp hp' hg hg'
    obtain rfl : r = 1 := hp.1
    obtain rfl : r' = 1 := hp'.1
    rcases onePage_tableAt hg with ⟨rfl, rfl⟩ | ⟨rfl, rfl⟩ | ⟨rfl, rfl⟩ | ⟨rfl, rfl⟩ <;>
      rcases onePage_tableAt hg' with ⟨rfl, h⟩ | ⟨rfl, h⟩ | ⟨rfl, h⟩ | ⟨rfl, h⟩ <;>
      first | exact ⟨rfl, rfl⟩ | exact absurd h (by decide)
  · exact fun r p i g hp hlen hne hg _ => onePage_unsized r p i g hp hlen hne hg
  · intro f hf
    obtain ⟨h1, h4⟩ := onePage_isTable hf
    apply htables
    simp only [List.mem_cons, List.not_mem_nil, or_false]
    omega
  · intro x hx
    obtain rfl := onePage_userPte hx
    refine ⟨hframe, fun hbad => ?_⟩
    have h4 := (onePage_isTable hbad).2
    change frame.toNat ≤ 4 at h4
    omega

theorem onePage_allPrivate : AllPrivate {1} (onePage frame pmm) := by
  refine ⟨?_, ?_, fun _ _ => rfl⟩
  · intro x hx
    obtain rfl := onePage_userPte hx
    exact ⟨rfl, rfl⟩
  · intro x y hx hy _
    rw [onePage_userPte hx, onePage_userPte hy]

theorem onePage_low (hlt : frame.toNat < 2 ^ 19) : Low {1} (onePage frame pmm).phys := by
  refine ⟨?_, ?_⟩
  · intro f hf
    have := (onePage_isTable hf).2
    omega
  · intro x hx
    obtain rfl := onePage_userPte hx
    exact hlt

def smallPmm : Pmm.State := ⟨fun i => if i = 0 then 0x3F else 0, 64, 6, 64⟩

/-- A little more than 4 GiB, with frames 0 to 5 and frame 0x100005 in use. -/
def largePmm : Pmm.State :=
  ⟨fun i => if i = 0 then 0x3F else if i = 0x8000 then 0x20 else 0, 0x100040, 7, 0x100040⟩

end OnePage

end ReduceOS.WellBuilt
