import ReduceOS.ElfImage
import ReduceOS.InitialStack
import ReduceOS.KernelMappings

/-!
Where the loader reads and stores. No field of a program header is checked, so what it touches lies
in the file and on user pages exactly when the headers that its loop gets to say so. Operations on
user pages change no entry on the way to a page of the kernel, and no frame of the kernel.
-/
namespace ReduceOS.ElfBounds

open Machine Page Physical Paging Outcome TableTree PageMap MapAddress UserAccess
  UserHeap CopyOnWrite References PointerCheck KernelMappings ElfImage

variable {P : Type}

def UserAddress (s : State P) (dir : FrameNo) (a : Addr) : Prop :=
  isUser a = true ∧ ¬ KernelPosition s.phys dir (position a)

/-- What an operation reads lies in a file of this length, and what it maps or stores to satisfies
`ok`. -/
def Inside (ok : Addr → Prop) (length : ℕ) : Op → Prop
  | .read offset size => ∀ k < size, (offset + BitVec.ofNat 64 k).toNat < length
  | .mapPage v => ok v
  | .copy dest offset n => ∀ k < n.toNat, ok (dest + BitVec.ofNat 64 k) ∧
      (offset + BitVec.ofNat 64 k).toNat < length
  | .clear dest n => ∀ k < n.toNat, ok (dest + BitVec.ofNat 64 k)

def memorySize (ph : Phdr) : ℕ := max ph.memsz.toNat ph.filesz.toNat

structure SoundSegment (s : State P) (dir : FrameNo) (length : ℕ) (ph : Phdr) : Prop where
  file : ph.filesz = 0 ∨ ph.offset.toNat + ph.filesz.toNat ≤ length
  half : memorySize ph = 0 ∨ ph.vaddr.toNat + memorySize ph ≤ 2 ^ 47
  pages : ∀ a : Addr, ph.vaddr.toNat ≤ a.toNat → a.toNat < ph.vaddr.toNat + memorySize ph →
    ¬ KernelPosition s.phys dir (position a)

structure SoundHeader (s : State P) (dir : FrameNo) (length : ℕ) (buf : Buffer) (i : ℕ) : Prop where
  type : (elfPhdr buf i).toNat + 4 ≤ length
  fields : (readPhdr buf (elfPhdr buf i)).type = ptLoad → (elfPhdr buf i).toNat + 48 ≤ length
  segment : (readPhdr buf (elfPhdr buf i)).type = ptLoad →
    SoundSegment s dir length (readPhdr buf (elfPhdr buf i))

def Reached (buf : Buffer) (i : ℕ) : Prop :=
  i < (ePhnum buf).toNat ∧ ∀ j < i, GoesOn buf j

def SoundHeaders (s : State P) (dir : FrameNo) (length : ℕ) (buf : Buffer) : Prop :=
  ∀ i, Reached buf i → SoundHeader s dir length buf i

section Ranges

variable {a v start limit : Addr} {m n length : ℕ} {ok : Addr → Prop}

theorem toNat_add_ofNat {k : ℕ} (hk : a.toNat + k < 2 ^ 64) :
    (a + BitVec.ofNat 64 k).toNat = a.toNat + k := by
  rw [BitVec.toNat_add, BitVec.toNat_ofNat]
  omega

/-- The addresses from one on stay below a bound exactly when they end there. -/
theorem forall_add_lt_iff (hlength : length < 2 ^ 64) :
    (∀ k < n, (a + BitVec.ofNat 64 k).toNat < length) ↔ n = 0 ∨ a.toNat + n ≤ length := by
  constructor
  · intro hall
    by_contra hnot
    rw [not_or] at hnot
    have hle := a.isLt
    by_cases ha : a.toNat < length
    · have hbad := hall (length - a.toNat) (by omega)
      rw [toNat_add_ofNat (by omega)] at hbad
      omega
    · have hbad := hall 0 (by omega)
      rw [toNat_add_ofNat (by omega)] at hbad
      omega
  · intro h k hk
    rw [toNat_add_ofNat (by omega)]
    omega

/-- The addresses from one on are user addresses exactly when they end in the user half and none of
them is in a page of the kernel. -/
theorem forall_userAddress_iff {s : State P} {dir : FrameNo} :
    (∀ k < n, UserAddress s dir (a + BitVec.ofNat 64 k)) ↔ (n = 0 ∨ a.toNat + n ≤ 2 ^ 47) ∧
      ∀ b : Addr, a.toNat ≤ b.toNat → b.toNat < a.toNat + n →
        ¬ KernelPosition s.phys dir (position b) := by
  have hhalf : (∀ k < n, isUser (a + BitVec.ofNat 64 k) = true) ↔ n = 0 ∨ a.toNat + n ≤ 2 ^ 47 := by
    rw [← forall_add_lt_iff (by decide)]
    exact forall₂_congr fun k _ => decide_eq_true_iff
  rw [← hhalf]
  constructor
  · refine fun h => ⟨fun k hk => (h k hk).1, fun b hlow hhigh => ?_⟩
    have hb : a + BitVec.ofNat 64 (b.toNat - a.toNat) = b := by
      have := b.isLt
      apply BitVec.eq_of_toNat_eq
      rw [toNat_add_ofNat (by omega)]
      omega
    rw [← hb]
    exact (h (b.toNat - a.toNat) (by omega)).2
  · rintro ⟨huser, hpages⟩ k hk
    have hbound := hhalf.mp huser
    refine ⟨huser k hk, hpages _ ?_ ?_⟩
    · rw [toNat_add_ofNat (by omega)]
      omega
    · rw [toNat_add_ofNat (by omega)]
      omega

theorem forall_add_split (hm : m ≤ n) : (∀ k < n, ok (a + BitVec.ofNat 64 k)) ↔
    (∀ k < m, ok (a + BitVec.ofNat 64 k)) ∧
      ∀ k < n - m, ok (a + BitVec.ofNat 64 m + BitVec.ofNat 64 k) := by
  have hadd : ∀ k, a + BitVec.ofNat 64 m + BitVec.ofNat 64 k = a + BitVec.ofNat 64 (m + k) :=
    fun k => by rw [BitVec.add_assoc, BitVec.ofNat_add]
  constructor
  · refine fun h => ⟨fun k hk => h k (by omega), fun k hk => ?_⟩
    rw [hadd]
    exact h (m + k) (by omega)
  · rintro ⟨hlow, hhigh⟩ k hk
    by_cases hkm : k < m
    · exact hlow k hkm
    · have := hhigh (k - m) (by omega)
      rwa [hadd, show m + (k - m) = k by omega] at this

theorem lt_of_mem_visited (hv : v ∈ visited n start limit) : v < limit := by
  induction n generalizing start with
  | zero => exact absurd hv List.not_mem_nil
  | succ n ih =>
    rw [visited] at hv
    split_ifs at hv with hlt
    · rcases List.mem_cons.mp hv with rfl | hv
      · exact hlt
      · exact ih hv
    · exact absurd hv List.not_mem_nil

end Ranges

section Headers

variable {s : State P} {dir : FrameNo} {length : ℕ} {buf : Buffer} {ph : Phdr} {ok : Addr → Prop}

/-- What the operations of a segment touch is its memory. -/
theorem segmentOps_touches_iff :
    (∀ op ∈ segmentOps ph, Inside ok length op) ↔
      (∀ k < memorySize ph, ok (ph.vaddr + BitVec.ofNat 64 k)) ∧
        ∀ k < ph.filesz.toNat, (ph.offset + BitVec.ofNat 64 k).toNat < length := by
  have hfile : ph.vaddr + BitVec.ofNat 64 ph.filesz.toNat = ph.vaddr + ph.filesz := by
    rw [BitVec.ofNat_toNat, BitVec.setWidth_eq]
  have hclear : ph.filesz < ph.memsz →
      (ph.memsz - ph.filesz).toNat = memorySize ph - ph.filesz.toNat := by
    intro hlt
    rw [BitVec.lt_def] at hlt
    rw [BitVec.toNat_sub_of_le hlt.le, memorySize, Nat.max_eq_left hlt.le]
  have hmem : ph.filesz.toNat ≤ memorySize ph := Nat.le_max_right _ _
  rw [forall_add_split hmem, hfile]
  constructor
  · intro hall
    have hcopy : Inside ok length (.copy ph.vaddr ph.offset ph.filesz) :=
      hall _ (by simp [segmentOps])
    refine ⟨⟨fun k hk => (hcopy k hk).1, fun k hk => ?_⟩, fun k hk => (hcopy k hk).2⟩
    have hlt : ph.filesz < ph.memsz := by
      rw [BitVec.lt_def]
      unfold memorySize at hk
      omega
    have hrest : Inside ok length (.clear (ph.vaddr + ph.filesz) (ph.memsz - ph.filesz)) :=
      hall _ (by simp [segmentOps, hlt])
    exact hrest k (by rwa [hclear hlt])
  · rintro ⟨⟨hlow, hhigh⟩, hread⟩ op hop
    rw [segmentOps, List.mem_append, List.mem_cons] at hop
    rcases hop with hop | rfl | hop
    · obtain ⟨v, hv, rfl⟩ := List.mem_map.mp hop
      obtain ⟨i, hi, rfl⟩ := List.mem_map.mp hv
      have hlt := lt_of_mem_visited hi
      rw [BitVec.lt_def] at hlt
      have hall := (forall_add_split hmem).mpr ⟨hlow, by rwa [hfile]⟩
      have hpage := hall i.toNat (Nat.lt_of_lt_of_le hlt (Nat.le_max_left _ _))
      rw [BitVec.ofNat_toNat, BitVec.setWidth_eq, BitVec.add_comm] at hpage
      exact hpage
    · exact fun k hk => ⟨hlow k hk, hread k hk⟩
    · split_ifs at hop with hlt
      · obtain rfl := List.mem_singleton.mp hop
        intro k hk
        rw [hclear hlt] at hk
        exact hhigh k hk
      · exact absurd hop List.not_mem_nil

/-- A segment is loaded within its bounds exactly when its fields lie within them. -/
theorem segmentOps_inside_iff (hlength : length < 2 ^ 64) :
    (∀ op ∈ segmentOps ph, Inside (UserAddress s dir) length op) ↔
      SoundSegment s dir length ph := by
  have hzero : ph.filesz = 0 ↔ ph.filesz.toNat = 0 :=
    ⟨fun h => by rw [h]; rfl, fun h => BitVec.eq_of_toNat_eq h⟩
  rw [segmentOps_touches_iff, forall_userAddress_iff, forall_add_lt_iff hlength, ← hzero]
  exact ⟨fun h => ⟨h.2, h.1.1, h.1.2⟩, fun h => ⟨⟨h.half, h.pages⟩, h.file⟩⟩

theorem read_inside_iff {offset : Addr} {size : ℕ} (ok : Addr → Prop) (hlength : length < 2 ^ 64)
    (hsize : 0 < size) : Inside ok length (.read offset size) ↔ offset.toNat + size ≤ length := by
  refine (forall_add_lt_iff hlength).trans ?_
  rw [or_iff_right (Nat.ne_of_gt hsize)]

/-- The fields behind the type of a header that lies in the file. -/
theorem read_fields_iff {offset : Addr} (ok : Addr → Prop) (hlength : length ≤ 2 ^ 63)
    (htype : offset.toNat + 4 ≤ length) :
    Inside ok length (.read (offset + 8) 40) ↔ offset.toNat + 48 ≤ length := by
  rw [read_inside_iff ok (by omega) (by decide), BitVec.toNat_add,
    show (8 : Addr).toNat = 8 from rfl, Nat.mod_eq_of_lt (by omega)]

/-- What holds as far as the loop gets, told from its first header. -/
theorem forall_reached_succ {p q : ℕ → Prop} {n i : ℕ} :
    (∀ k < n + 1, (∀ j < k, p (i + j)) → q (i + k)) ↔
      q i ∧ (p i → ∀ k < n, (∀ j < k, p (i + 1 + j)) → q (i + 1 + k)) := by
  constructor
  · refine fun h => ⟨h 0 (by omega) (by omega), fun hp k hk hall => ?_⟩
    have hnext := h (k + 1) (by omega) fun j hj => by
      cases j with
      | zero => exact hp
      | succ j =>
        rw [show i + (j + 1) = i + 1 + j by omega]
        exact hall j (by omega)
    rwa [show i + (k + 1) = i + 1 + k by omega] at hnext
  · rintro ⟨hq, hrest⟩ k hk hall
    cases k with
    | zero => exact hq
    | succ k =>
      rw [show i + (k + 1) = i + 1 + k by omega]
      refine hrest (hall 0 (by omega)) k (by omega) fun j hj => ?_
      rw [show i + 1 + j = i + (j + 1) by omega]
      exact hall (j + 1) (by omega)

/-- The loop stays within its bounds exactly when the headers that it gets to are sound. -/
theorem headerOps_inside_iff (hlength : length ≤ 2 ^ 63) (n i : ℕ) :
    (∀ op ∈ (headerOps buf n i).1, Inside (UserAddress s dir) length op) ↔
      ∀ k < n, (∀ j < k, GoesOn buf (i + j)) → SoundHeader s dir length buf (i + k) := by
  induction n generalizing i with
  | zero => simp [headerOps]
  | succ n ih =>
    have hread : Inside (UserAddress s dir) length (.read (elfPhdr buf i) 4) ↔
        (elfPhdr buf i).toNat + 4 ≤ length := read_inside_iff _ (by omega) (by decide)
    rw [forall_reached_succ, ← ih (i + 1), headerOps]
    by_cases hnull : (readPhdr buf (elfPhdr buf i)).type = ptNull
    · have hgo : GoesOn buf i := Or.inl hnull
      have hother : ¬ (readPhdr buf (elfPhdr buf i)).type = ptLoad := by
        rw [hnull]
        decide
      rw [if_pos hnull, List.forall_mem_cons, hread]
      exact and_congr
        ⟨fun h => ⟨h, fun hbad => absurd hbad hother, fun hbad => absurd hbad hother⟩,
          fun h => h.type⟩
        ⟨fun h _ => h, fun h => h hgo⟩
    rw [if_neg hnull]
    by_cases hload : (readPhdr buf (elfPhdr buf i)).type = ptLoad
    · have hgo : GoesOn buf i := Or.inr hload
      rw [if_pos hload, List.forall_mem_cons, List.forall_mem_cons, List.forall_mem_append, hread,
        segmentOps_inside_iff (by omega)]
      constructor
      · rintro ⟨htype, hfields, hsegment, hrest⟩
        exact ⟨⟨htype, fun _ => (read_fields_iff _ hlength htype).mp hfields, fun _ => hsegment⟩,
          fun _ => hrest⟩
      · rintro ⟨hsound, hrest⟩
        exact ⟨hsound.type, (read_fields_iff _ hlength hsound.type).mpr (hsound.fields hload),
          hsound.segment hload, hrest hgo⟩
    · have hstop : ¬ GoesOn buf i := not_or.mpr ⟨hnull, hload⟩
      rw [if_neg hload, List.forall_mem_singleton, hread]
      exact ⟨fun h => ⟨⟨h, fun hbad => absurd hbad hload, fun hbad => absurd hbad hload⟩,
        fun hgo => absurd hgo hstop⟩, fun h => h.1.type⟩

end Headers

section Effects

variable {L : LawfulAllocator P} {K : List (Fin 512) → Prop} {s₀ s s' : State P}
  {dir f g h t : FrameNo} {p : List (Fin 512)} {i : Fin 512} {a : Addr}

/-- A frame of the kernel: it is in use, is no table of `dir` and holds none of its user pages. -/
structure KernelFrame (L : LawfulAllocator P) (dir : FrameNo) (K : List (Fin 512) → Prop)
    (s : State P) (f : FrameNo) : Prop where
  used : f ∈ L.used s.pmm
  table : ¬ IsTable (under dir) kNext s.phys f
  page : ∀ x, UserSlot K dir s x → (State.entry s x).address ≠ f

def PlainAt (dir : FrameNo) (s : State P) (q : List (Fin 512)) : Prop :=
  ∀ p i e, p ++ [i] <+: q → p.length < 3 → entryAt s.phys dir p i = some e →
    e.size = false ∧ (e.present = true → e.address.toNat < 2 ^ 19)

def Plain (K : List (Fin 512) → Prop) (dir : FrameNo) (s : State P) : Prop :=
  ∀ q, q.length = 4 → ¬ K q → PlainAt dir s q

section Steps

theorem KernelFrame.ne_table (hf : KernelFrame L dir K s f)
    (hg : tableAt kNext s.phys dir p = some g) : f ≠ g :=
  fun heq => hf.table ⟨dir, p, carrier_of_tableAt hg, heq ▸ hg⟩

/-- A new table leaves the frames of the kernel alone. -/
theorem KernelFrame.added (ho : Owns L dir K s) (hf : KernelFrame L dir K s f)
    (hadd : Added L s s' g i h) (habs : (s.phys g i).present = false)
    (hg : tableAt kNext s.phys dir p = some g) (hlen : p.length < 3) :
    KernelFrame L dir K s' f ∧ s'.phys f = s.phys f := by
  have hfresh : f ≠ h := fun heq => hadd.fresh (heq ▸ hf.used)
  refine ⟨⟨?_, ?_, ?_⟩, funext fun j => hadd.others f j hfresh (Or.inl (hf.ne_table hg))⟩
  · rw [hadd.used]
    exact Set.mem_insert_of_mem _ hf.used
  · rintro ⟨r, q, hD, hq⟩
    obtain rfl : r = dir := hD.1
    rcases (Added.grow ho.shape hadd habs).back hq with hold | ⟨heq, -⟩
    · exact hf.table ⟨r, q, hD, hold⟩
    · exact hfresh heq
  · intro x hx
    obtain ⟨hx, hsame⟩ := Added.userSlot ho hadd habs hg hlen hx
    rw [hsame]
    exact hf.page x hx

/-- So does a page entry of user code that is rewritten. -/
theorem KernelFrame.leaf (ho : Owns L dir K s) (hf : KernelFrame L dir K s f)
    (hc : LeafChange L s s' t i) (ht : tableAt kNext s.phys dir p = some t) (hlen : p.length = 3)
    (huser : ¬ K (p ++ [i])) : KernelFrame L dir K s' f ∧ s'.phys f = s.phys f := by
  have hself : (s.phys t i).present = true → (s.phys t i).address ≠ f :=
    fun hpres => hf.page (t, i) ⟨p, hlen, huser, ht, hpres⟩
  refine ⟨⟨?_, ?_, ?_⟩, funext fun j => hc.others f j hf.used (Or.inl (hf.ne_table ht))⟩
  · rcases hc.used f hf.used with hused | ⟨hpres, heq⟩
    · exact hused
    · exact absurd heq.symm (hself hpres)
  · exact fun hbad => hf.table (hc.isTable ho ht hlen hbad)
  · intro x hx
    by_cases hne : x = (t, i)
    · subst hne
      obtain ⟨-, -, -, -, hpres⟩ := hx
      rcases (hc.entry hpres).2.2 with hfresh | ⟨hold, heq⟩
      · exact fun heq => hfresh (heq ▸ hf.used)
      · rw [State.entry, heq]
        exact hself hold
    · obtain ⟨hx, hsame⟩ := hc.userSlot ho ht hlen hne hx
      rw [hsame]
      exact hf.page x hx

theorem Plain.added (ho : Owns L dir K s) (hp : Plain K dir s) (hadd : Added L s s' g i h)
    (habs : (s.phys g i).present = false) : Plain K dir s' := by
  intro q hq hK p' i' e hpre hlen hentry
  obtain ⟨t', ht', rfl⟩ := Option.map_eq_some_iff.mp hentry
  rcases (Added.grow ho.shape hadd habs).back ht' with hold | ⟨rfl, -⟩
  · have hbefore := hp q hq hK p' i' _ hpre hlen
      (show entryAt s.phys dir p' i' = some (s.phys t' i') by rw [entryAt, hold]; rfl)
    by_cases hsame : t' = g ∧ i' = i
    · obtain ⟨rfl, rfl⟩ := hsame
      rw [hadd.written]
      exact ⟨hbefore.1, fun _ => hadd.low⟩
    · rw [hadd.others t' i' (fun heq => hadd.fresh (heq ▸ ho.inUse hold)) (by tauto)]
      exact hbefore
  · rw [hadd.blank]
    exact ⟨rfl, fun hbad => absurd hbad (by decide)⟩

theorem Plain.leaf (ho : Owns L dir K s) (hp : Plain K dir s) (hc : LeafChange L s s' t i)
    (ht : tableAt kNext s.phys dir p = some t) (hlen : p.length = 3) : Plain K dir s' := by
  intro q hq hK p' i' e hpre hlen' hentry
  refine hp q hq hK p' i' e hpre hlen' ?_
  obtain ⟨t', ht', rfl⟩ := Option.map_eq_some_iff.mp hentry
  rw [hc.tableAt ho ht hlen] at ht'
  have hne : t' ≠ t := by
    rintro rfl
    have := congrArg List.length (ho.position_eq ht' ht)
    omega
  rw [entryAt, ht', Option.map_some, hc.others t' i' (ho.inUse ht') (Or.inl hne)]

end Steps

structure Confines (L : LawfulAllocator P) (dir : FrameNo) (s₀ s : State P) : Prop where
  safe : Safe L dir s₀ s
  plain : Plain (KernelPosition s₀.phys dir) dir s
  frames : ∀ f, KernelFrame L dir (KernelPosition s₀.phys dir) s₀ f →
    KernelFrame L dir (KernelPosition s₀.phys dir) s f ∧ s.phys f = s₀.phys f

section Operations

theorem Confines.added (hs : Confines L dir s₀ s) (ha : UserAddress s₀ dir a)
    (hpre : p ++ [i] <+: path a) (hlen : p.length < 3) (hg : tableAt kNext s.phys dir p = some g)
    (habs : (s.phys g i).present = false) (hadd : Added L s s' g i h) : Confines L dir s₀ s' := by
  have ho := hs.safe.owns
  refine ⟨⟨ho.added hadd habs hg hlen, hs.safe.kept.added ho hadd habs hg
    (hpre.trans (List.prefix_append _ _)) ha.2⟩, hs.plain.added ho hadd habs, fun f hf => ?_⟩
  obtain ⟨hf₁, hsame⟩ := hs.frames f hf
  obtain ⟨hf₂, hsame'⟩ := hf₁.added ho hadd habs hg hlen
  exact ⟨hf₂, hsame'.trans hsame⟩

theorem Confines.leaf (hs : Confines L dir s₀ s) (ha : UserAddress s₀ dir a)
    (ht : tableAt kNext s.phys dir (path a) = some t)
    (hc : LeafChange L s s' t (pagetblIndex a)) : Confines L dir s₀ s' := by
  have ho := hs.safe.owns
  have hlen : (path a).length = 3 := by simp [path]
  refine ⟨hs.safe.leaf hc ht ha.2, hs.plain.leaf ho hc ht hlen, fun f hf => ?_⟩
  obtain ⟨hf₁, hsame⟩ := hs.frames f hf
  obtain ⟨hf₂, hsame'⟩ := hf₁.leaf ho hc ht hlen ha.2
  exact ⟨hf₂, hsame'.trans hsame⟩

/-- `mem_getPage` and `mem_allocatePage` at a user page, as a rule: `J` holds while tables are
added, and what the page entry is then changed to leads to `Q`. -/
theorem mapPage_rule {J Q : State P → Prop} (hs : J s) (ha : UserAddress s₀ dir a)
    (hJ : ∀ s, J s → Confines L dir s₀ s)
    (hadd : ∀ s s' p i g h, J s → p ++ [i] <+: path a → p.length < 3 →
      tableAt kNext s.phys dir p = some g → (s.phys g i).present = false → Added L s s' g i h →
      J s')
    (hleaf : ∀ s s' t, J s → tableAt kNext s.phys dir (path a) = some t →
      LeafChange L s s' t (pagetblIndex a) → (s'.phys t (pagetblIndex a)).present = true →
      (s'.phys t (pagetblIndex a)).usermode = true → Q s') :
    Meets Oom (mapPage L.toAllocator dir a s) Q := by
  obtain ⟨huser, hposition⟩ := ha
  have hcanon : isCanonical a = true := by
    rw [isCanonical_iff]
    have := of_decide_eq_true huser
    omega
  refine meets_bind (memGetPage_rule (J := J) (E := fun _ => False) hcanon hs ?_) ?_
  · intro s₁ q j g hs₁ hpre hlen hg
    have hconf := hJ s₁ hs₁
    obtain ⟨hsize, hlow⟩ := hconf.plain _ (position_length a) hposition q j (s₁.phys g j)
      (hpre.trans (List.prefix_append _ _)) hlen (by rw [entryAt, hg]; rfl)
    have hnext : (s₁.phys g j).present = true →
        kNext q.length (s₁.phys g j) = some (s₁.phys g j).address := by
      intro hpres
      rw [kNext_eq_hNext _ (hlow hpres), hNext, follow, hpres, hsize]
      simp [hlen]
    cases hpres : (s₁.phys g j).present with
    | true =>
      have hfollow := (physFrame_of_kNext (hnext hpres)).1
      rw [descend_present hpres _ hlen, lookup, if_pos hfollow, hnext hpres]
      refine ⟨?_, hs₁⟩
      change tableAt kNext s₁.phys dir (q ++ [j]) = some (s₁.phys g j).address
      rw [tableAt, walk_concat, show walk kNext s₁.phys 0 dir q = some g from hg]
      simpa using hnext hpres
    | false =>
      have habs : follow q.length (s₁.phys g j) = false := by simp [follow, hpres]
      refine meets_mono (descend_create hconf.safe.owns.tables ⟨rfl, by simp; omega⟩ hlen hg
        (fun _ => hsize) fun hbad => absurd (habs.symm.trans hbad) (by decide)) ?_
      rintro ⟨o, s₂⟩ ⟨h, rfl, hat, hsame | hlink⟩
      · obtain rfl : s₂ = s₁ := hsame
        exact ⟨hat, hs₁⟩
      · exact ⟨hat, hadd s₁ s₂ q j g h hs₁ hpre hlen hg hpres hlink.toAdded⟩
  · rintro ⟨page, s₁⟩ hres
    cases page with
    | none => exact hres.elim
    | some pg =>
      obtain ⟨t, rfl, ht, hs₁⟩ := hres
      exact meets_mono (memAllocatePage_change (hJ s₁ hs₁).safe.owns ht)
        fun s₂ hc => hleaf s₁ s₂ t hs₁ ht hc.1 hc.2.1 hc.2.2

theorem mapPage_confines (hs : Confines L dir s₀ s) (ha : UserAddress s₀ dir a) :
    Meets Oom (mapPage L.toAllocator dir a s) (Confines L dir s₀) := by
  refine mapPage_rule hs ha (fun _ => id) ?_ ?_
  · exact fun s s' q j g h hs hpre hlen hg habs hadd => hs.added ha hpre hlen hg habs hadd
  · exact fun s s' t hs ht hc _ _ => hs.leaf ha ht hc

/-- The tables on such a way are those that the processor goes through. -/
theorem tableAt_hNext (hp : PlainAt dir s (position a)) (hpre : p <+: path a) :
    tableAt hNext s.phys dir p = tableAt kNext s.phys dir p := by
  apply walk_congr
  intro q j hq g hg
  have hwhole : q ++ [j] <+: position a := (hq.trans hpre).trans (List.prefix_append _ _)
  have hlen : q.length < 3 := by
    have := (hq.trans hpre).length_le
    simp only [path, List.length_append, List.length_cons, List.length_nil] at this
    omega
  have hentry : entryAt s.phys dir q j = some (s.phys g j) := by
    rw [entryAt, show tableAt kNext s.phys dir q = some g from hg]
    rfl
  obtain ⟨-, hlow⟩ := hp q j _ hwhole hlen hentry
  cases hpres : (s.phys g j).present with
  | true => exact (kNext_eq_hNext _ (hlow hpres)).symm
  | false =>
    have habs : ∀ d, follow d (s.phys g j) = false := fun d => by simp [follow, hpres]
    rw [hNext, habs, kNext_of_not_follow (habs _)]
    rfl

/-- The frame behind an address is told by the entry of its page. -/
theorem kernelFrame_eq (hp : PlainAt dir s (position a)) (hw : walkable a = true) :
    kernelFrame s.phys dir a =
      ((entryAt s.phys dir (path a) (pagetblIndex a)).filter Entry.present).map Entry.address := by
  have hlarge : ∀ q j t, q ++ [j] <+: position a → q.length < 3 → q <+: path a →
      tableAt hNext s.phys dir q = some t → ∀ n b, largeFrame n (s.phys t j) b = none := by
    intro q j t hq hlen hpre ht n b
    rw [tableAt_hNext hp hpre] at ht
    have hentry : entryAt s.phys dir q j = some (s.phys t j) := by rw [entryAt, ht]; rfl
    obtain ⟨hsize, -⟩ := hp q j _ hq hlen hentry
    rw [largeFrame, hsize, Bool.and_false, if_neg Bool.false_ne_true]
  unfold kernelFrame pageEntry entryAt
  rw [hw, if_neg (by simp), tableAt_hNext hp (List.prefix_refl _)]
  cases tableAt kNext s.phys dir (path a) with
  | some t => cases hpres : (s.phys t (pagetblIndex a)).present <;> simp [Option.filter, hpres]
  | none =>
    simp only [Option.map_none, Option.filter_none]
    cases hpd : tableAt hNext s.phys dir [pml4Index a, pdptIndex a] with
    | some pd =>
      exact hlarge _ _ pd ⟨[pagetblIndex a], rfl⟩ (by simp) ⟨[pagedirIndex a], rfl⟩ hpd 1 a
    | none =>
      cases hpdpt : tableAt hNext s.phys dir [pml4Index a] with
      | some pdpt =>
        exact hlarge _ _ pdpt ⟨[pagedirIndex a, pagetblIndex a], rfl⟩ (by simp)
          ⟨[pdptIndex a, pagedirIndex a], rfl⟩ hpdpt 2 a
      | none => rfl

theorem userSlot_of_kernelFrame (hp : Plain K dir s) (huser : ¬ K (position a))
    (hf : kernelFrame s.phys dir a = some f) :
    ∃ x, UserSlot K dir s x ∧ (State.entry s x).address = f := by
  have hw : walkable a = true := by
    by_contra hnot
    rw [kernelFrame, if_pos (by simpa using hnot)] at hf
    contradiction
  rw [kernelFrame_eq (hp _ (position_length a) huser) hw] at hf
  obtain ⟨e, he, rfl⟩ := Option.map_eq_some_iff.mp hf
  obtain ⟨he, hpres⟩ := Option.filter_eq_some_iff.mp he
  obtain ⟨t, ht, rfl⟩ := Option.map_eq_some_iff.mp he
  exact ⟨(t, pagetblIndex a), ⟨path a, by simp [path], huser, ht, hpres⟩, rfl⟩

/-- Other contents of a frame that is no table change no table. -/
theorem entry_setFrame (hnot : ¬ IsTable (under dir) kNext s.phys f) (c : Frame)
    (ht : tableAt kNext s.phys dir p = some t) : (s.setFrame f c).phys t = s.phys t :=
  State.setFrame_phys_ne _ _ fun heq => hnot ⟨dir, p, carrier_of_tableAt ht, heq ▸ ht⟩

theorem tableAt_setFrame (hnot : ¬ IsTable (under dir) kNext s.phys f) (c : Frame)
    (p : List (Fin 512)) :
    tableAt kNext (s.setFrame f c).phys dir p = tableAt kNext s.phys dir p := by
  apply walk_congr
  intro q j _ g hg
  rw [entry_setFrame hnot c hg]

theorem entryAt_setFrame (hnot : ¬ IsTable (under dir) kNext s.phys f) (c : Frame)
    (p : List (Fin 512)) (i : Fin 512) :
    entryAt (s.setFrame f c).phys dir p i = entryAt s.phys dir p i := by
  unfold entryAt
  rw [tableAt_setFrame hnot]
  cases ht : tableAt kNext s.phys dir p with
  | none => rfl
  | some t => rw [Option.map_some, Option.map_some, entry_setFrame hnot c ht]

theorem isTable_setFrame (hnot : ¬ IsTable (under dir) kNext s.phys f) (c : Frame) :
    IsTable (under dir) kNext (s.setFrame f c).phys g → IsTable (under dir) kNext s.phys g := by
  rintro ⟨r, q, hD, hq⟩
  obtain rfl : r = dir := hD.1
  exact ⟨r, q, hD, (tableAt_setFrame hnot c q).symm.trans hq⟩

theorem userSlot_setFrame (hnot : ¬ IsTable (under dir) kNext s.phys f) {c : Frame} {x : Slot}
    (hx : UserSlot K dir (s.setFrame f c) x) :
    UserSlot K dir s x ∧ State.entry (s.setFrame f c) x = State.entry s x := by
  obtain ⟨p, hlen, huser, ht, hpres⟩ := hx
  rw [tableAt_setFrame hnot] at ht
  have hsame : State.entry (s.setFrame f c) x = State.entry s x :=
    congrFun (entry_setFrame hnot c ht) x.2
  rw [hsame] at hpres
  exact ⟨⟨p, hlen, huser, ht, hpres⟩, hsame⟩

theorem Confines.setFrame (hs : Confines L dir s₀ s) {x : Slot}
    (hx : UserSlot (KernelPosition s₀.phys dir) dir s x) (c : Frame) :
    Confines L dir s₀ (s.setFrame (State.entry s x).address c) := by
  have ho := hs.safe.owns
  obtain ⟨-, -, hnot⟩ := ho.owned x hx
  have hslot := fun y => userSlot_setFrame (K := KernelPosition s₀.phys dir) hnot (c := c) (x := y)
  refine ⟨⟨⟨⟨ho.tables.valid, ?_, ?_⟩, ?_, ?_⟩, ?_⟩, ?_, ?_⟩
  · apply ho.tables.tree.of_eq
    intro r q hD
    obtain rfl : r = dir := hD.1
    exact tableAt_setFrame hnot c q
  · exact fun g hg => ho.tables.inUse g (isTable_setFrame hnot c hg)
  · intro y hy
    obtain ⟨hy, hsame⟩ := hslot y hy
    obtain ⟨hlow, hused, hnot'⟩ := ho.owned y hy
    rw [hsame]
    exact ⟨hlow, hused, fun hbad => hnot' (isTable_setFrame hnot c hbad)⟩
  · intro y z hy hz heq
    obtain ⟨hy, hsy⟩ := hslot y hy
    obtain ⟨hz, hsz⟩ := hslot z hz
    rw [hsy, hsz] at heq
    exact ho.distinct y z hy hz heq
  · intro q hlen hkernel p i hpre
    rw [entryAt_setFrame hnot, hs.safe.kept q hlen hkernel p i hpre]
  · intro q hq hK p i e hpre hlen hentry
    rw [entryAt_setFrame hnot] at hentry
    exact hs.plain q hq hK p i e hpre hlen hentry
  · intro f hf
    obtain ⟨hf', hsame⟩ := hs.frames f hf
    refine ⟨⟨hf'.used, fun hbad => hf'.table (isTable_setFrame hnot c hbad), fun y hy => ?_⟩, ?_⟩
    · obtain ⟨hy, hsy⟩ := hslot y hy
      rw [hsy]
      exact hf'.page y hy
    · rw [State.setFrame_phys_ne _ _ fun heq => hf'.page x hx heq.symm, hsame]

theorem storeByte_confines (hs : Confines L dir s₀ s) (ha : UserAddress s₀ dir a) (b : Inet.Byte) :
    Meets Any (storeByte dir s a b) (Confines L dir s₀) := by
  unfold storeByte
  cases hf : kernelFrame s.phys dir a with
  | none => exact trivial
  | some f =>
    obtain ⟨x, hx, rfl⟩ := userSlot_of_kernelFrame hs.plain ha.2 hf
    exact hs.setFrame hx _

theorem storeBytes_confines {l : List ℕ} (hs : Confines L dir s₀ s) (v : ℕ → Addr)
    (b : ℕ → Inet.Byte) (hv : ∀ k ∈ l, UserAddress s₀ dir (v k)) :
    Meets Any (l.foldlM (fun s k => storeByte dir s (v k) (b k)) s) (Confines L dir s₀) := by
  apply meets_foldlM (fun _ => Confines L dir s₀) _ s hs
  intro pre k post t hsplit ht
  refine storeByte_confines ht (hv k ?_) (b k)
  rw [hsplit]
  exact List.mem_append_right _ List.mem_cons_self

theorem perform_confines {length : ℕ} {op : Op} (hs : Confines L dir s₀ s) (buf : Buffer)
    (hop : Inside (UserAddress s₀ dir) length op) :
    Meets Any (perform L.toAllocator dir buf s op) (Confines L dir s₀) := by
  cases op with
  | read offset size => exact hs
  | mapPage v => exact meets_weaken (mapPage_confines hs hop) fun _ _ => trivial
  | copy dest offset n =>
    exact storeBytes_confines hs _ _ fun k hk => (hop k (List.mem_range.mp hk)).1
  | clear dest n => exact storeBytes_confines hs _ _ fun k hk => hop k (List.mem_range.mp hk)

theorem performAll_confines {length : ℕ} {ops : List Op} (hs : Confines L dir s₀ s) (buf : Buffer)
    (hops : ∀ op ∈ ops, Inside (UserAddress s₀ dir) length op) :
    Meets Any (performAll L.toAllocator dir buf ops s) (Confines L dir s₀) := by
  apply meets_foldlM (fun _ => Confines L dir s₀) _ s hs
  intro pre op post t hsplit ht
  refine perform_confines ht buf (hops op ?_)
  rw [hsplit]
  exact List.mem_append_right _ List.mem_cons_self

theorem Confines.performed {length : ℕ} {ops : List Op} {buf : Buffer} (hs : Confines L dir s₀ s)
    (hops : ∀ op ∈ ops, Inside (UserAddress s₀ dir) length op)
    (h : performAll L.toAllocator dir buf ops s = .ok s') : Confines L dir s₀ s' :=
  meets_of_eq_ok (performAll_confines hs buf hops) h

end Operations

end Effects

end ReduceOS.ElfBounds
