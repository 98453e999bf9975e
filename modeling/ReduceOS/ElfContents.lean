import ReduceOS.ElfConfinement
import ReduceOS.ImageLayers
import ReduceOS.Isolation

/-!
What a loaded program finds in its memory. Each segment is a layer over the ones before it: its
pages get new frames, which hold whatever was left in them, and its bytes are stored.
-/
namespace ReduceOS.ElfContents

open Machine Page Physical Paging Outcome TableTree PageMap MapAddress UserAccess UserHeap
  CopyOnWrite Isolation References PointerCheck KernelMappings ElfImage ElfBounds ElfPlan
  ElfConfinement ImageLayers
open Inet (Byte)

variable {P : Type} {L : LawfulAllocator P} {s₀ s s' : State P} {dir g h t : FrameNo}
  {p : List (Fin 512)} {i : Fin 512} {a v : Addr} {b : Byte}

structure Loading (L : LawfulAllocator P) (dir : FrameNo) (s₀ s : State P) : Prop
    extends Confines L dir s₀ s where
  opened : ∀ x, UserSlot (KernelPosition s₀.phys dir) dir s x → (State.entry s x).usermode = true

structure MappedIn (s : State P) (dir : FrameNo) (a : Addr) (t : FrameNo) : Prop where
  table : tableAt kNext s.phys dir (path a) = some t
  present : (s.phys t (pagetblIndex a)).present = true

def byteOf (s : State P) (t : FrameNo) (a : Addr) : Byte :=
  (s.phys (s.phys t (pagetblIndex a)).address).byte (pageOffset a)

section Bytes

theorem MappedIn.slot {K : List (Fin 512) → Prop} (hm : MappedIn s dir a t)
    (ha : ¬ K (position a)) : UserSlot K dir s (t, pagetblIndex a) :=
  ⟨path a, by simp [path], ha, hm.table, hm.present⟩

theorem load_of_mapped (hs : Loading L dir s₀ s) (ha : UserAddress s₀ dir a)
    (hm : MappedIn s dir a t) : load s.phys dir a = some (byteOf s t a) := by
  have huser : (s.phys t (pagetblIndex a)).usermode = true := hs.opened _ (hm.slot ha.2)
  rw [load, userEntry, if_pos ha.1, pageEntry,
    tableAt_hNext (hs.plain _ (position_length _) ha.2) (List.prefix_refl _),
    hm.table, Option.map_some, Option.filter_some, if_pos (by simp [hm.present, huser])]
  rfl

theorem mapped_of_load (hs : Loading L dir s₀ s) (ha : UserAddress s₀ dir a)
    (hload : (load s.phys dir a).isSome) : ∃ t, MappedIn s dir a t := by
  rw [load, userEntry, if_pos ha.1, pageEntry,
    tableAt_hNext (hs.plain _ (position_length _) ha.2) (List.prefix_refl _),
    Option.isSome_map] at hload
  cases ht : tableAt kNext s.phys dir (path a) with
  | none =>
    rw [ht] at hload
    contradiction
  | some t =>
    refine ⟨t, ht, ?_⟩
    rw [ht, Option.map_some, Option.filter_some] at hload
    split_ifs at hload with hopen
    · exact (Bool.and_eq_true_iff.mp hopen).1
    · contradiction

/-- A byte is the same where its page is mapped as before. -/
theorem load_same (hs : Loading L dir s₀ s) (hs' : Loading L dir s₀ s')
    (ha : UserAddress s₀ dir a)
    (hkeep : ∀ t, MappedIn s dir a t → MappedIn s' dir a t ∧ byteOf s' t a = byteOf s t a)
    (hback : ∀ t, MappedIn s' dir a t → MappedIn s dir a t) :
    load s'.phys dir a = load s.phys dir a := by
  by_cases hload : (load s.phys dir a).isSome
  · obtain ⟨t, hm⟩ := mapped_of_load hs ha hload
    obtain ⟨hm', hbyte⟩ := hkeep t hm
    rw [load_of_mapped hs ha hm, load_of_mapped hs' ha hm', hbyte]
  · have hnone : ¬ (load s'.phys dir a).isSome := fun hbad => by
      obtain ⟨t, hm⟩ := mapped_of_load hs' ha hbad
      rw [load_of_mapped hs ha (hback t hm)] at hload
      exact hload rfl
    rw [Option.not_isSome_iff_eq_none.mp hload, Option.not_isSome_iff_eq_none.mp hnone]

end Bytes

section Pages

theorem Loading.added (hs : Loading L dir s₀ s) (hv : UserAddress s₀ dir v)
    (hpre : p ++ [i] <+: path v) (hlen : p.length < 3) (hg : tableAt kNext s.phys dir p = some g)
    (habs : (s.phys g i).present = false) (hadd : Added L s s' g i h) :
    Loading L dir s₀ s' ∧
      ∀ a, UserAddress s₀ dir a → load s'.phys dir a = load s.phys dir a := by
  have ho := hs.safe.owns
  have hgrow := Added.grow ho.shape hadd habs
  have hs' : Loading L dir s₀ s' := by
    refine ⟨hs.toConfines.added hv hpre hlen hg habs hadd, fun x hx => ?_⟩
    obtain ⟨hx, hsame⟩ := Added.userSlot ho hadd habs hg hlen hx
    rw [hsame]
    exact hs.opened x hx
  have hentry : ∀ a t, tableAt kNext s.phys dir (path a) = some t →
      s'.phys t (pagetblIndex a) = s.phys t (pagetblIndex a) := by
    intro a t ht
    refine hadd.others t _ (fun heq => hadd.fresh (heq ▸ ho.inUse ht)) (Or.inl ?_)
    rintro rfl
    have := congrArg List.length (ho.position_eq ht hg)
    simp only [path, List.length_cons, List.length_nil] at this
    omega
  refine ⟨hs', fun a ha => load_same hs hs' ha (fun t hm => ?_) fun t hm => ?_⟩
  · have hsame := hentry a t hm.table
    refine ⟨⟨hgrow.keep hm.table, by rw [hsame]; exact hm.present⟩, ?_⟩
    obtain ⟨-, hused, hnot⟩ := ho.owned _ (hm.slot ha.2)
    have hframe : s'.phys (s.phys t (pagetblIndex a)).address =
        s.phys (s.phys t (pagetblIndex a)).address := funext fun k =>
      hadd.others _ k (fun heq => hadd.fresh (heq ▸ hused))
        (Or.inl fun heq => hnot ⟨dir, p, carrier_of_tableAt hg, hg.trans (congrArg some heq.symm)⟩)
    rw [byteOf, hsame, hframe, byteOf]
  · rcases hgrow.back hm.table with hold | ⟨rfl, -⟩
    · refine ⟨hold, ?_⟩
      rw [← hentry a t hold]
      exact hm.present
    · have hbad := hm.present
      rw [hadd.blank] at hbad
      contradiction

/-- A page entry that gets a frame: its page can be read, and no other has changed. -/
theorem Loading.leaf (hs : Loading L dir s₀ s) (hv : UserAddress s₀ dir v)
    (ht : tableAt kNext s.phys dir (path v) = some t) (hc : LeafChange L s s' t (pagetblIndex v))
    (hpres : (s'.phys t (pagetblIndex v)).present = true)
    (huser : (s'.phys t (pagetblIndex v)).usermode = true) :
    Loading L dir s₀ s' ∧ ∀ a, UserAddress s₀ dir a →
      (position v = position a → (load s'.phys dir a).isSome) ∧
      (position v ≠ position a → load s'.phys dir a = load s.phys dir a) := by
  have ho := hs.safe.owns
  have hlen : (path v).length = 3 := by simp [path]
  have hs' : Loading L dir s₀ s' := by
    refine ⟨hs.toConfines.leaf hv ht hc, fun x hx => ?_⟩
    by_cases hne : x = (t, pagetblIndex v)
    · rw [hne]
      exact huser
    · obtain ⟨hx, hsame⟩ := hc.userSlot ho ht hlen hne hx
      rw [hsame]
      exact hs.opened x hx
  have hwalk := hc.tableAt ho ht hlen
  refine ⟨hs', fun a ha => ⟨fun heq => ?_, fun hne => ?_⟩⟩
  · obtain ⟨hpath, hlast⟩ : path v = path a ∧ [pagetblIndex v] = [pagetblIndex a] :=
      List.append_inj' heq rfl
    have hlast : pagetblIndex v = pagetblIndex a := List.singleton_inj.mp hlast
    have hm : MappedIn s' dir a t :=
      ⟨by rw [hwalk, ← hpath]; exact ht, by rw [← hlast]; exact hpres⟩
    rw [load_of_mapped hs' ha hm]
    rfl
  · have hentry : ∀ t', tableAt kNext s.phys dir (path a) = some t' →
        s'.phys t' (pagetblIndex a) = s.phys t' (pagetblIndex a) := by
      intro t' ht'
      refine hc.others t' _ (ho.inUse ht') ?_
      by_contra hboth
      rw [not_or, not_not, not_not] at hboth
      obtain ⟨rfl, hlast⟩ := hboth
      apply hne
      rw [position, position, ho.position_eq ht' ht, hlast]
    refine load_same hs hs' ha (fun t' hm => ?_) fun t' hm => ?_
    · have hsame := hentry t' hm.table
      refine ⟨⟨(hwalk _).trans hm.table, by rw [hsame]; exact hm.present⟩, ?_⟩
      obtain ⟨-, hused, hnot⟩ := ho.owned _ (hm.slot ha.2)
      have hframe : s'.phys (s.phys t' (pagetblIndex a)).address =
          s.phys (s.phys t' (pagetblIndex a)).address := funext fun k =>
        hc.others _ k hused (Or.inl fun heq =>
          hnot ⟨dir, path v, carrier_of_tableAt ht, ht.trans (congrArg some heq.symm)⟩)
      rw [byteOf, hsame, hframe, byteOf]
    · have hold := (hwalk _).symm.trans hm.table
      refine ⟨hold, ?_⟩
      rw [← hentry t' hold]
      exact hm.present

/-- Mapping a page: it can be read then, and all other bytes are the same. -/
theorem mapPage_bytes (hs : Loading L dir s₀ s) (hv : UserAddress s₀ dir v) :
    Meets Oom (mapPage L.toAllocator dir v s) fun s' =>
      Loading L dir s₀ s' ∧ ∀ a, UserAddress s₀ dir a →
        (position v = position a → (load s'.phys dir a).isSome) ∧
        (position v ≠ position a → load s'.phys dir a = load s.phys dir a) := by
  apply mapPage_rule (J := fun s₁ => Loading L dir s₀ s₁ ∧
    ∀ a, UserAddress s₀ dir a → load s₁.phys dir a = load s.phys dir a) ⟨hs, fun _ _ => rfl⟩ hv
    fun _ hs₁ => hs₁.1.toConfines
  · rintro s₁ s₂ q j g h ⟨hs₁, hsame⟩ hpre hlen hg habs hadd
    obtain ⟨hs₂, hsame'⟩ := hs₁.added hv hpre hlen hg habs hadd
    exact ⟨hs₂, fun a ha => (hsame' a ha).trans (hsame a ha)⟩
  · rintro s₁ s₂ t ⟨hs₁, hsame⟩ ht hc hpres huser
    obtain ⟨hs₂, hbytes⟩ := hs₁.leaf hv ht hc hpres huser
    exact ⟨hs₂, fun a ha => ⟨(hbytes a ha).1, fun hne => ((hbytes a ha).2 hne).trans (hsame a ha)⟩⟩

end Pages

section Stores

/-- Other contents of a frame that is no table map no page. -/
theorem mappedIn_setFrame {f : FrameNo} (hnot : ¬ IsTable (under dir) kNext s.phys f) (fr : Frame) :
    MappedIn (s.setFrame f fr) dir a t ↔ MappedIn s dir a t := by
  constructor
  · rintro ⟨ht, hpres⟩
    rw [tableAt_setFrame hnot] at ht
    rw [entry_setFrame hnot fr ht] at hpres
    exact ⟨ht, hpres⟩
  · rintro ⟨ht, hpres⟩
    exact ⟨(tableAt_setFrame hnot fr _).trans ht, by rw [entry_setFrame hnot fr ht]; exact hpres⟩

/-- The page of an address that is stored to is found. -/
theorem storeByte_mapped (hs : Loading L dir s₀ s) (hv : UserAddress s₀ dir v)
    (hm : MappedIn s dir v t) (b : Byte) :
    storeByte dir s v b = .ok (s.setFrame (s.phys t (pagetblIndex v)).address
      ((s.phys (s.phys t (pagetblIndex v)).address).setByte (pageOffset v) b)) := by
  have hwalkable : walkable v = true := by
    rw [walkable, Bool.or_eq_true]
    exact Or.inl hv.1
  have hframe : kernelFrame s.phys dir v = some (s.phys t (pagetblIndex v)).address := by
    rw [kernelFrame, hwalkable, if_neg (by simp), pageEntry,
      tableAt_hNext (hs.plain _ (position_length _) hv.2) (List.prefix_refl _), hm.table]
    exact if_pos hm.present
  rw [storeByte, hframe]

/-- A byte that is stored to a page that can be read. -/
theorem storeByte_bytes (hs : Loading L dir s₀ s) (hv : UserAddress s₀ dir v)
    (hload : (load s.phys dir v).isSome) (b : Byte) :
    ∃ s', storeByte dir s v b = .ok s' ∧ Loading L dir s₀ s' ∧ ∀ a, UserAddress s₀ dir a →
      load s'.phys dir a = if a = v then some b else load s.phys dir a := by
  obtain ⟨t, hm⟩ := mapped_of_load hs hv hload
  have hslot : UserSlot (KernelPosition s₀.phys dir) dir s (t, pagetblIndex v) := hm.slot hv.2
  have ho := hs.safe.owns
  have hnot : ¬ IsTable (under dir) kNext s.phys (s.phys t (pagetblIndex v)).address :=
    (ho.owned _ hslot).2.2
  refine ⟨_, storeByte_mapped hs hv hm b, ?_⟩
  generalize hfr : (s.phys (s.phys t (pagetblIndex v)).address).setByte (pageOffset v) b = fr
  have hs' : Loading L dir s₀ (s.setFrame (s.phys t (pagetblIndex v)).address fr) := by
    refine ⟨hs.toConfines.setFrame hslot fr, fun x hx => ?_⟩
    obtain ⟨hx, hsame⟩ := userSlot_setFrame hnot hx
    rw [hsame]
    exact hs.opened x hx
  refine ⟨hs', fun a ha => ?_⟩
  by_cases hpos : position a = position v
  · -- the page that is stored to
    obtain ⟨hpath, hlast⟩ : path a = path v ∧ [pagetblIndex a] = [pagetblIndex v] :=
      List.append_inj' hpos rfl
    have hlast : pagetblIndex a = pagetblIndex v := List.singleton_inj.mp hlast
    have hma : MappedIn s dir a t :=
      ⟨by rw [hpath]; exact hm.table, by rw [hlast]; exact hm.present⟩
    rw [load_of_mapped hs' ha ((mappedIn_setFrame hnot fr).mpr hma), load_of_mapped hs ha hma,
      byteOf, byteOf, entry_setFrame hnot fr hma.table, hlast, State.setFrame_phys_self, ← hfr,
      Frame.byte_setByte]
    by_cases hav : a = v
    · rw [if_pos hav, if_pos (by rw [hav])]
    · rw [if_neg hav, if_neg fun hoff => hav (user_addr_ext hv.1 ha.1 hpos hoff)]
  · rw [if_neg fun hav => hpos (by rw [hav])]
    refine load_same hs hs' ha (fun t' hma => ⟨(mappedIn_setFrame hnot fr).mpr hma, ?_⟩)
      fun t' => (mappedIn_setFrame hnot fr).mp
    rw [byteOf, entry_setFrame hnot fr hma.table, State.setFrame_phys_ne, byteOf]
    intro heq
    obtain ⟨rfl, hlast⟩ := Prod.mk.inj (ho.distinct _ _ (hma.slot ha.2) hslot heq)
    apply hpos
    rw [position, position, ho.position_eq hma.table hm.table, hlast]

theorem storeBytes_bytes {n : ℕ} (hs : Loading L dir s₀ s) (dest : Addr) (b : ℕ → Byte)
    (hn : n ≤ 2 ^ 64)
    (hdest : ∀ k < n, UserAddress s₀ dir (dest + BitVec.ofNat 64 k) ∧
      (load s.phys dir (dest + BitVec.ofNat 64 k)).isSome) :
    ∃ s', (List.range n).foldlM (fun s k => storeByte dir s (dest + BitVec.ofNat 64 k) (b k)) s =
        .ok s' ∧ Loading L dir s₀ s' ∧ ∀ a, UserAddress s₀ dir a → load s'.phys dir a =
          if (a - dest).toNat < n then some (b (a - dest).toNat) else load s.phys dir a := by
  induction n with
  | zero => exact ⟨s, rfl, hs, fun a _ => by rw [if_neg (Nat.not_lt_zero _)]⟩
  | succ n ih =>
    obtain ⟨s₁, hrun, hs₁, hbytes⟩ := ih (by omega) fun k hk => hdest k (by omega)
    obtain ⟨huser, hload⟩ := hdest n (by omega)
    have hlast : (dest + BitVec.ofNat 64 n - dest).toNat = n := by
      rw [BitVec.add_comm, BitVec.add_sub_cancel, BitVec.toNat_ofNat]
      exact Nat.mod_eq_of_lt (by omega)
    obtain ⟨s₂, hstore, hs₂, hbytes'⟩ := storeByte_bytes hs₁ huser
      (by rw [hbytes _ huser, hlast, if_neg (Nat.lt_irrefl n)]; exact hload) (b n)
    refine ⟨s₂, ?_, hs₂, fun a ha => ?_⟩
    · rw [List.range_succ, List.foldlM_append, hrun]
      change [n].foldlM (fun s k => storeByte dir s (dest + BitVec.ofNat 64 k) (b k)) s₁ = _
      rw [List.foldlM_cons, hstore]
      rfl
    · rw [hbytes' a ha, hbytes a ha]
      by_cases hlt : (a - dest).toNat < n
      · have hne : a ≠ dest + BitVec.ofNat 64 n := by
          rintro rfl
          omega
        rw [if_neg hne, if_pos hlt, if_pos (Nat.lt_succ_of_lt hlt)]
      · by_cases hnext : (a - dest).toNat = n
        · have heq : a = dest + BitVec.ofNat 64 n := by
            rw [← hnext, BitVec.ofNat_toNat, BitVec.setWidth_eq, BitVec.add_comm,
              BitVec.sub_add_cancel]
          rw [if_pos heq, if_pos (by omega), hnext]
        · have hne : a ≠ dest + BitVec.ofNat 64 n := by
            rintro rfl
            exact hnext hlast
          rw [if_neg hne, if_neg hlt, if_neg (by omega)]

end Stores

section Segments

variable {buf : Buffer} {ph : Phdr} {length : ℕ}

abbrev Place (s₀ : State P) (dir : FrameNo) := {a : Addr // UserAddress s₀ dir a}

def contents (s₀ : State P) (dir : FrameNo) (s : State P) (a : Place s₀ dir) : Option Byte :=
  load s.phys dir a

def segmentByte (buf : Buffer) (ph : Phdr) (k : ℕ) : Byte :=
  if k < ph.filesz.toNat then buf (ph.offset + BitVec.ofNat 64 k) else 0

/-- A segment as a layer. Its pages are those from `p_vaddr` on in steps of a page. -/
def segmentLayer (s₀ : State P) (dir : FrameNo) (buf : Buffer) (ph : Phdr) :
    Layer (Place s₀ dir) Byte where
  resets a := ∃ v ∈ segmentPages ph, position v = position a
  writes a :=
    if (a.1 - ph.vaddr).toNat < memorySize ph then
      some (segmentByte buf ph (a.1 - ph.vaddr).toNat)
    else none

theorem segmentLayer_writes (a : Place s₀ dir) : (segmentLayer s₀ dir buf ph).writes a =
    if (a.1 - ph.vaddr).toNat < memorySize ph then
      some (segmentByte buf ph (a.1 - ph.vaddr).toNat)
    else none := rfl

theorem mapPages_bytes {l : List Addr} (hs : Loading L dir s₀ s) (buf : Buffer)
    (hl : ∀ v ∈ l, UserAddress s₀ dir v) :
    Meets Oom (performAll L.toAllocator dir buf (l.map .mapPage) s) fun s' =>
      Loading L dir s₀ s' ∧ ∀ a, UserAddress s₀ dir a →
        ((∃ v ∈ l, position v = position a) → (load s'.phys dir a).isSome) ∧
        ((¬ ∃ v ∈ l, position v = position a) → load s'.phys dir a = load s.phys dir a) := by
  induction l generalizing s with
  | nil =>
    refine ⟨hs, fun a _ => ⟨?_, fun _ => rfl⟩⟩
    rintro ⟨v, hv, -⟩
    exact absurd hv List.not_mem_nil
  | cons v l ih =>
    rw [performAll, List.map_cons, List.foldlM_cons]
    refine meets_bind (mapPage_bytes hs (hl v List.mem_cons_self)) ?_
    rintro s₁ ⟨hs₁, hfirst⟩
    refine meets_mono (ih hs₁ fun w hw => hl w (List.mem_cons_of_mem v hw)) ?_
    rintro s₂ ⟨hs₂, hrest⟩
    refine ⟨hs₂, fun a ha => ⟨?_, fun hnone => ?_⟩⟩
    · rintro ⟨w, hw, hpos⟩
      by_cases hlater : ∃ w ∈ l, position w = position a
      · exact (hrest a ha).1 hlater
      · rcases List.mem_cons.mp hw with rfl | hw
        · rw [(hrest a ha).2 hlater]
          exact (hfirst a ha).1 hpos
        · exact absurd ⟨w, hw, hpos⟩ hlater
    · have hlater : ¬ ∃ w ∈ l, position w = position a := by
        rintro ⟨w, hw, hpos⟩
        exact hnone ⟨w, List.mem_cons_of_mem v hw, hpos⟩
      rw [(hrest a ha).2 hlater]
      exact (hfirst a ha).2 fun hpos => hnone ⟨v, List.mem_cons_self, hpos⟩

/-- The bytes of a segment, once its pages can be read. -/
theorem storeSegment_bytes (hs : Loading L dir s₀ s)
    (hmem : ∀ k < memorySize ph, UserAddress s₀ dir (ph.vaddr + BitVec.ofNat 64 k))
    (hload : ∀ k < memorySize ph, (load s.phys dir (ph.vaddr + BitVec.ofNat 64 k)).isSome) :
    Meets Oom (performAll L.toAllocator dir buf (.copy ph.vaddr ph.offset ph.filesz ::
        if ph.filesz < ph.memsz then [.clear (ph.vaddr + ph.filesz) (ph.memsz - ph.filesz)]
        else []) s) fun s' =>
      Loading L dir s₀ s' ∧ ∀ a, UserAddress s₀ dir a → load s'.phys dir a =
        if (a - ph.vaddr).toNat < memorySize ph then
          some (segmentByte buf ph (a - ph.vaddr).toNat)
        else load s.phys dir a := by
  have hcopied : ph.filesz.toNat ≤ memorySize ph := Nat.le_max_right _ _
  obtain ⟨s₁, hcopy, hs₁, hbytes⟩ := storeBytes_bytes hs ph.vaddr
    (fun k => buf (ph.offset + BitVec.ofNat 64 k)) ph.filesz.isLt.le
    fun k hk => ⟨hmem k (by omega), hload k (by omega)⟩
  rw [performAll, List.foldlM_cons]
  change Meets Oom ((List.range ph.filesz.toNat).foldlM _ s >>= _) _
  rw [hcopy]
  by_cases hlt : ph.filesz < ph.memsz
  · rw [BitVec.lt_def] at hlt
    have hsize : (ph.memsz - ph.filesz).toNat = ph.memsz.toNat - ph.filesz.toNat :=
      BitVec.toNat_sub_of_le hlt.le
    have hmemory : memorySize ph = ph.memsz.toNat := Nat.max_eq_left hlt.le
    have hplace : ∀ k, ph.vaddr + ph.filesz + BitVec.ofNat 64 k =
        ph.vaddr + BitVec.ofNat 64 (ph.filesz.toNat + k) := fun k => by
      rw [BitVec.ofNat_add, BitVec.ofNat_toNat, BitVec.setWidth_eq, BitVec.add_assoc]
    obtain ⟨s₂, hclear, hs₂, hbytes'⟩ := storeBytes_bytes hs₁ (ph.vaddr + ph.filesz)
      (fun _ => 0) (ph.memsz - ph.filesz).isLt.le fun k hk => by
        rw [hplace]
        have huser := hmem (ph.filesz.toNat + k) (by omega)
        refine ⟨huser, ?_⟩
        rw [hbytes _ huser]
        split_ifs
        · rfl
        · exact hload _ (by omega)
    rw [if_pos (by rwa [BitVec.lt_def])]
    change Meets Oom ((List.range (ph.memsz - ph.filesz).toNat).foldlM _ s₁ >>= _) _
    rw [hclear]
    refine ⟨hs₂, fun a ha => ?_⟩
    have hback : (a - (ph.vaddr + ph.filesz)).toNat < ph.memsz.toNat - ph.filesz.toNat ↔
        ph.filesz.toNat ≤ (a - ph.vaddr).toNat ∧ (a - ph.vaddr).toNat < ph.memsz.toNat := by
      rw [← BitVec.sub_sub]
      bv_omega
    rw [hbytes' a ha, hbytes a ha, hsize, hmemory, segmentByte]
    simp only [hback]
    split_ifs <;> first | rfl | omega
  · rw [if_neg hlt]
    rw [BitVec.lt_def, Nat.not_lt] at hlt
    have hmemory : memorySize ph = ph.filesz.toNat := Nat.max_eq_right hlt
    refine ⟨hs₁, fun a ha => ?_⟩
    rw [hbytes a ha, hmemory, segmentByte]
    split_ifs <;> rfl

theorem sub_vaddr_toNat {k : ℕ} (hk : k < memorySize ph) :
    (ph.vaddr + BitVec.ofNat 64 k - ph.vaddr).toNat = k := by
  have hsize : memorySize ph < 2 ^ 64 := max_lt ph.memsz.isLt ph.filesz.isLt
  rw [BitVec.add_comm, BitVec.add_sub_cancel, BitVec.toNat_ofNat]
  exact Nat.mod_eq_of_lt (by omega)

/-- Loading a segment lays its layer, if all of its memory is mapped then. -/
theorem segmentOps_lays (hs : Loading L dir s₀ s)
    (hinside : ∀ op ∈ segmentOps ph, Inside (UserAddress s₀ dir) length op)
    (hground : ∀ a b, (segmentLayer s₀ dir buf ph).writes a = some b →
      (contents s₀ dir s a).isSome ∨ (segmentLayer s₀ dir buf ph).resets a) :
    Meets Oom (performAll L.toAllocator dir buf (segmentOps ph) s) fun s' =>
      Loading L dir s₀ s' ∧
        Lays (segmentLayer s₀ dir buf ph) (contents s₀ dir s) (contents s₀ dir s') := by
  have hmem := (segmentOps_touches_iff.mp hinside).1
  have hpages : ∀ v ∈ segmentPages ph, UserAddress s₀ dir v := fun v hv =>
    hinside (.mapPage v) (List.mem_append_left _ (List.mem_map_of_mem hv))
  rw [segmentOps, performAll, List.foldlM_append]
  refine meets_bind (mapPages_bytes hs buf hpages) ?_
  rintro s₁ ⟨hs₁, hmapped⟩
  refine meets_mono (storeSegment_bytes hs₁ hmem fun k hk => ?_) ?_
  · have huser := hmem k hk
    by_cases hreset : ∃ v ∈ segmentPages ph, position v = position (ph.vaddr + BitVec.ofNat 64 k)
    · exact (hmapped _ huser).1 hreset
    · rw [(hmapped _ huser).2 hreset]
      refine (hground ⟨_, huser⟩ (segmentByte buf ph k) ?_).resolve_right hreset
      rw [segmentLayer_writes, sub_vaddr_toNat hk, if_pos hk]
  · rintro s₂ ⟨hs₂, hbytes⟩
    have hoff : ∀ a, (segmentLayer s₀ dir buf ph).writes a = none →
        contents s₀ dir s₂ a = contents s₀ dir s₁ a := fun a hnone => by
      refine (hbytes a.1 a.2).trans (if_neg fun hin => ?_)
      rw [segmentLayer_writes, if_pos hin] at hnone
      contradiction
    refine ⟨hs₂, fun a b hb => ?_, fun a hnone hreset => ?_, fun a hnone hreset => ?_⟩
    · rw [segmentLayer_writes] at hb
      split_ifs at hb with hin
      exact (hbytes a.1 a.2).trans ((if_pos hin).trans hb)
    · rw [hoff a hnone]
      exact (hmapped a.1 a.2).1 hreset
    · rw [hoff a hnone]
      exact (hmapped a.1 a.2).2 hreset

def segments (buf : Buffer) (n i : ℕ) : List Phdr :=
  ((List.range' i n).map fun i => readPhdr buf (elfPhdr buf i)).filter fun ph => ph.type = ptLoad

/-- Loading lays the layers of the segments, if no memory is missing then. -/
theorem headerOps_lays {n i : ℕ} (hs : Loading L dir s₀ s)
    (hgo : ∀ k < n, GoesOn buf (i + k))
    (hinside : ∀ op ∈ (headerOps buf n i).1, Inside (UserAddress s₀ dir) length op)
    (hground : Grounded (fun a => (contents s₀ dir s a).isSome)
      ((segments buf n i).map (segmentLayer s₀ dir buf))) :
    Meets Oom (performAll L.toAllocator dir buf (headerOps buf n i).1 s) fun s' =>
      LaysAll ((segments buf n i).map (segmentLayer s₀ dir buf)) (contents s₀ dir s)
        (contents s₀ dir s') := by
  induction n generalizing i s with
  | zero => exact LaysAll.nil _
  | succ n ih =>
    have hgo' : ∀ k < n, GoesOn buf (i + 1 + k) := fun k hk => by
      rw [show i + 1 + k = i + (k + 1) by omega]
      exact hgo (k + 1) (by omega)
    rw [segments, List.range'_succ, List.map_cons, List.filter_cons] at hground ⊢
    by_cases hload : (readPhdr buf (elfPhdr buf i)).type = ptLoad
    · have hnull : ¬ (readPhdr buf (elfPhdr buf i)).type = ptNull := by
        rw [hload]
        decide
      rw [if_pos (decide_eq_true hload), List.map_cons] at hground ⊢
      simp only [headerOps, if_neg hnull, if_pos hload] at hinside ⊢
      have hfirst := segmentOps_lays hs (fun op hop => hinside op (List.mem_cons_of_mem _
        (List.mem_cons_of_mem _ (List.mem_append_left _ hop)))) hground.1
      rw [performAll, List.foldlM_cons]
      change Meets Oom (performAll L.toAllocator dir buf (segmentOps _ ++ _) s) _
      rw [performAll, List.foldlM_append]
      refine meets_bind hfirst ?_
      rintro s₁ ⟨hs₁, hlays⟩
      have hrest : Grounded (fun a => (contents s₀ dir s₁ a).isSome)
          ((segments buf n (i + 1)).map (segmentLayer s₀ dir buf)) :=
        hground.2.mono fun a ha => hlays.isSome ha
      exact meets_mono (ih hs₁ hgo' (fun op hop => hinside op (List.mem_cons_of_mem _
        (List.mem_cons_of_mem _ (List.mem_append_right _ hop)))) hrest)
        fun s' hall => LaysAll.cons hlays hall
    · have hnull : (readPhdr buf (elfPhdr buf i)).type = ptNull :=
        (hgo 0 (Nat.succ_pos n)).resolve_right hload
      rw [if_neg (by simpa using hload)] at hground ⊢
      simp only [headerOps, if_pos hnull] at hinside ⊢
      rw [performAll, List.foldlM_cons]
      exact ih hs hgo' (fun op hop => hinside op (List.mem_cons_of_mem _ hop)) hground

end Segments

section Result

variable {file : File} {ph : Phdr} {fbuf : Addr}
  {elfLoadRelocatable : Addr → ElfImage.Loader P Machine.CInt}
  {readFile : State P → Except Panic (Addr × State P)}

def fileSegments (file : File) : List Phdr :=
  segments (fileBuffer file) (ePhnum (fileBuffer file)).toNat 0

/-- The reference image: where a segment is to be, user code reads its bytes of the file, and zeros
behind them. -/
def Image (file : File) (dir : FrameNo) (s : State P) : Prop :=
  ∀ ph ∈ fileSegments file, ∀ k < memorySize ph,
    load s.phys dir (ph.vaddr + BitVec.ofNat 64 k) =
      some (if k < ph.filesz.toNat then file.content.getD (ph.offset.toNat + k) 0 else 0)

/-- A run of `elf_load` makes the memory of user code the reference image, and stops only if memory
runs out. -/
structure LoadsImage (dir : FrameNo) (fbuf : Addr) (file : File)
    (run : List Op × Except Panic (Option Addr × State P)) : Prop where
  image : ∀ res s', run.2 = .ok (res, s') → res = some fbuf ∧ Image file dir s'
  stops : ∀ e, run.2 = .error e → Oom e

def layers (s : State P) (dir : FrameNo) (file : File) : List (Layer (Place s dir) Byte) :=
  (fileSegments file).map (segmentLayer s dir (fileBuffer file))

/-- The segments lie in the file and in user memory, their bytes are stored to pages that are
mapped, and no page is mapped again over bytes that are not stored again. -/
structure Laid (s : State P) (dir : FrameNo) (file : File) : Prop where
  wellFormed : WellFormed s dir file
  grounded : Grounded (fun a => (contents s dir s a).isSome) (layers s dir file)
  lasting : Lasting (layers s dir file)

/-- The segments of a file that can be loaded are sound. -/
theorem soundSegment_of_wellFormed (hwell : WellFormed s dir file)
    (hloads : Loadable file) (hph : ph ∈ fileSegments file) :
    SoundSegment s dir file.length.toNat ph := by
  obtain ⟨hmem, htype⟩ := List.mem_filter.mp hph
  obtain ⟨i, hi, rfl⟩ := List.mem_map.mp hmem
  have hi : i < (ePhnum (fileBuffer file)).toNat := by
    rw [List.mem_range'_1] at hi
    omega
  exact (hwell hloads.1 i ⟨hi, fun j hj => hloads.2 j (by omega)⟩).segment (of_decide_eq_true htype)

/-- A page that is not the kernel's is open to user code. -/
theorem loading_refl (ho : Owns L dir (KernelPosition s.phys dir) s)
    (hp : Plain (KernelPosition s.phys dir) dir s) : Loading L dir s s := by
  refine ⟨confines_refl ho hp, ?_⟩
  rintro x ⟨p, -, huser, ht, hpres⟩
  by_contra hclosed
  refine huser (Or.inr ⟨p, x.2, State.entry s x, List.prefix_refl _, ?_, hpres, ?_⟩)
  · rw [entryAt, ht]
    rfl
  · simpa using hclosed

theorem filePlan_meets_image (ho : Owns L dir (KernelPosition s.phys dir) s)
    (hp : Plain (KernelPosition s.phys dir) dir s) (hexec : elfCheck file .exec = true)
    (hlength : file.length.toNat ≤ 2 ^ 63) (hloads : Loadable file) (hlaid : Laid s dir file)
    (fbuf : Addr) :
    Meets Oom (performAll L.toAllocator dir (fileBuffer file) (filePlan file fbuf).1 s)
      (Image file dir) := by
  have hinside := (filePlan_inside_iff hexec hlength fbuf).mpr (hlaid.wellFormed hloads.1)
  rw [filePlan] at hinside ⊢
  rw [performAll, List.foldlM_cons]
  refine meets_mono (headerOps_lays (loading_refl ho hp)
    (fun k hk => by rw [Nat.zero_add]; exact hloads.2 k hk)
    (fun op hop => hinside op (List.mem_cons_of_mem _ hop)) hlaid.grounded) ?_
  intro s' hlays ph hph k hk
  have hsound := soundSegment_of_wellFormed hlaid.wellFormed hloads hph
  have huser : UserAddress s dir (ph.vaddr + BitVec.ofNat 64 k) :=
    forall_userAddress_iff.mpr ⟨hsound.half, hsound.pages⟩ k hk
  have hwrites : (segmentLayer s dir (fileBuffer file) ph).writes ⟨_, huser⟩ =
      some (segmentByte (fileBuffer file) ph k) := by
    rw [segmentLayer_writes, sub_vaddr_toNat hk, if_pos hk]
  have hall : LaysAll (layers s dir file) (contents s dir s) (contents s dir s') := hlays
  have hbyte : contents s dir s' ⟨_, huser⟩ = some (segmentByte (fileBuffer file) ph k) :=
    hall.lasting hlaid.lasting (List.mem_map_of_mem hph) hwrites
  rw [contents] at hbyte
  rw [hbyte, segmentByte]
  split_ifs with hfile
  · have hlength := file.length.isLt
    have hend : ph.offset.toNat + ph.filesz.toNat ≤ file.length.toNat := by
      refine hsound.file.resolve_left fun hzero => ?_
      rw [hzero] at hfile
      exact absurd hfile (Nat.not_lt_zero k)
    have hoffset : (ph.offset + BitVec.ofNat 64 k).toNat = ph.offset.toNat + k :=
      toNat_add_ofNat (by omega)
    rw [fileBuffer_eq (by omega), hoffset]
  · rfl

/-- A file that is laid out well is loaded as the image that it describes. -/
theorem elfLoad_loadsImage (elfLoadRelocatable : Addr → ElfImage.Loader P Machine.CInt)
    (hread : readFile s₀ = .ok (fbuf, s)) (hb : Buffered L dir s fbuf file)
    (ho : Owns L dir (KernelPosition s.phys dir) s) (hp : Plain (KernelPosition s.phys dir) dir s)
    (hexec : elfCheck file .exec = true) (hloads : Loadable file) (hlaid : Laid s dir file) :
    LoadsImage dir fbuf file
      (elfLoad L.toAllocator dir elfLoadRelocatable readFile file s₀) := by
  have hrun := filePlan_meets_image ho hp hexec hb.length_le hloads hlaid fbuf
  obtain ⟨hresult, -⟩ := elfLoad_eq elfLoadRelocatable hread hb (confines_refl ho hp) hexec hloads.1
    (hlaid.wellFormed hloads.1)
  have hreturn : (filePlan file fbuf).2 = some fbuf :=
    if_pos ((headerOps_eq_zero_iff _ _).mpr fun k hk => by
      rw [Nat.zero_add]
      exact hloads.2 k hk)
  cases hperform : performAll L.toAllocator dir (fileBuffer file) (filePlan file fbuf).1 s with
  | error e =>
    rw [hperform] at hresult hrun
    refine ⟨fun res s' hres => ?_, fun e' he => ?_⟩
    · rw [hresult] at hres
      contradiction
    · rw [hresult] at he
      obtain rfl : e = e' := Except.error.inj he
      exact hrun
  | ok t =>
    rw [hperform, hreturn] at hresult
    refine ⟨fun res s' hres => ?_, fun e he => ?_⟩
    · rw [hresult] at hres
      obtain ⟨rfl, rfl⟩ := Prod.mk.inj (Except.ok.inj hres)
      exact ⟨rfl, meets_of_eq_ok hrun hperform⟩
    · rw [hresult] at he
      contradiction

end Result

section SharedPage

theorem heapPage_load {bytes : List Byte} (a : Addr) : load (heapPage bytes).phys 1 a = none := by
  cases ha : isUser a with
  | false => rw [load, userEntry, ha, if_neg Bool.false_ne_true, Option.map_none]
  | true =>
    by_contra hload
    obtain ⟨t, hm⟩ := mapped_of_load (loading_refl heapPage_owns heapPage_plain)
      (heapPage_userAddress ha) (Option.ne_none_iff_isSome.mp hload)
    exact heapPage_userSlot (hm.slot (heapPage_userAddress ha).2)

theorem oneHeader_segments : fileSegments (oneHeader ptLoad 0x400000 8) =
    [⟨ptLoad, 0, 0x400000, 4, 8⟩] := by
  decide +kernel

theorem oneHeader_laid :
    Laid (heapPage (oneHeader ptLoad 0x400000 8).content) 1 (oneHeader ptLoad 0x400000 8) := by
  have hpages : segmentPages ⟨ptLoad, 0, 0x400000, 4, 8⟩ = [0x400000] := by decide +kernel
  refine ⟨oneHeader_wellFormed fun a ha => heapPage_userAddress ha, ?_, ?_⟩
  · rw [layers, oneHeader_segments]
    refine ⟨fun a b hb => Or.inr ⟨0x400000, ?_, position_of_page ?_⟩, trivial⟩
    · rw [hpages]
      exact List.mem_singleton_self _
    · rw [segmentLayer_writes] at hb
      split_ifs at hb with hin
      have hin : (a.1 - 0x400000#64).toNat < 8 := hin
      change 0x400000 / 4096 = a.1.toNat / 4096
      bv_omega
  · rw [layers, oneHeader_segments]
    exact ⟨fun _ _ _ => trivial, trivial⟩

theorem elfLoad_loadsImage_segment :
    (loadFromHeap (oneHeader ptLoad 0x400000 8)).2.map Prod.fst = .ok (some 0xFFFFFF0000000000) ∧
      LoadsImage 1 0xFFFFFF0000000000 (oneHeader ptLoad 0x400000 8)
        (loadFromHeap (oneHeader ptLoad 0x400000 8)) := by
  have hexec : elfCheck (oneHeader ptLoad 0x400000 8) .exec = true := by decide +kernel
  have hloads : Loadable (oneHeader ptLoad 0x400000 8) :=
    ⟨rfl, fun i hi => by
      have hone : (ePhnum (fileBuffer (oneHeader ptLoad 0x400000 8))).toNat = 1 := by
        decide +kernel
      obtain rfl : i = 0 := by omega
      exact Or.inr (by decide +kernel)⟩
  have hread : readToHeap (oneHeader ptLoad 0x400000 8) kernelHeap =
      .ok (0xFFFFFF0000000000, heapPage (oneHeader ptLoad 0x400000 8).content) := rfl
  exact ⟨by decide +kernel, elfLoad_loadsImage (L := PmmAllocator.bitmap) (fun _ => pure 0) hread
    (heapPage_buffered (by decide)) heapPage_owns heapPage_plain hexec hloads oneHeader_laid⟩

def twoSegments : File where
  content := ehdr 0x400000 2 ++ phdr ptLoad 0 0x400000 4 4 ++ phdr ptLoad 0 0x400010 4 4
  length := 176
  fits := le_rfl

theorem twoSegments_sound :
    SoundHeaders (heapPage twoSegments.content) 1 176 (fileBuffer twoSegments) := by
  have htwo : (ePhnum (fileBuffer twoSegments)).toNat = 2 := by decide +kernel
  have hphdr : elfPhdr (fileBuffer twoSegments) 0 = 64 ∧ elfPhdr (fileBuffer twoSegments) 1 = 120 ∧
      readPhdr (fileBuffer twoSegments) 64 = ⟨1, 0, 0x400000, 4, 4⟩ ∧
      readPhdr (fileBuffer twoSegments) 120 = ⟨1, 0, 0x400010, 4, 4⟩ := by
    decide +kernel
  obtain ⟨hfirst, hsecond, hread, hread'⟩ := hphdr
  have hpages : ∀ a : Addr, a.toNat < 0x400014 →
      ¬ KernelPosition (heapPage twoSegments.content).phys 1 (position a) := fun a ha =>
    (heapPage_userAddress (decide_eq_true (by omega))).2
  rintro i ⟨hi, -⟩
  rw [htwo] at hi
  interval_cases i
  · rw [← hfirst] at hread
    refine ⟨by rw [hfirst]; decide, fun _ => by rw [hfirst]; decide, fun _ => ?_⟩
    rw [hread]
    exact ⟨Or.inr (by decide), Or.inr (by decide), fun a _ ha =>
      hpages a (Nat.lt_trans (show a.toNat < 0x400004 from ha) (by decide))⟩
  · rw [← hsecond] at hread'
    refine ⟨by rw [hsecond]; decide, fun _ => by rw [hsecond]; decide, fun _ => ?_⟩
    rw [hread']
    exact ⟨Or.inr (by decide), Or.inr (by decide), fun a _ ha =>
      hpages a (show a.toNat < 0x400014 from ha)⟩

/-- The page is mapped again for the second one, and the bytes of the first one are gone. -/
theorem shared_page_loses_bytes :
    elfCheck twoSegments .exec = true ∧
      (∀ a, load (heapPage twoSegments.content).phys 1 a = none) ∧
      ∃ s, (loadFromHeap twoSegments).2 = .ok (some 0xFFFFFF0000000000, s) ∧
        load s.phys 1 0x400000 = some 0 ∧ ¬ Image twoSegments 1 s := by
  have hexec : elfCheck twoSegments .exec = true := by decide +kernel
  have hread : readToHeap twoSegments kernelHeap =
      .ok (0xFFFFFF0000000000, heapPage twoSegments.content) := rfl
  obtain ⟨hload, -⟩ := elfLoad_eq (L := PmmAllocator.bitmap) (fun _ => pure 0) hread
    (heapPage_buffered (by decide)) (confines_refl heapPage_owns heapPage_plain) hexec rfl
    twoSegments_sound
  have hreturn : (filePlan twoSegments 0xFFFFFF0000000000).2 = some 0xFFFFFF0000000000 := by
    decide +kernel
  have hrun : (performAll PmmAllocator.pmm 1 (fileBuffer twoSegments)
      (filePlan twoSegments 0xFFFFFF0000000000).1 (heapPage twoSegments.content)).map
        (fun s => load s.phys 1 0x400000) = .ok (some 0) := by decide +kernel
  have hload : (loadFromHeap twoSegments).2 = (performAll PmmAllocator.pmm 1
      (fileBuffer twoSegments) (filePlan twoSegments 0xFFFFFF0000000000).1
        (heapPage twoSegments.content)).map
          fun s => ((filePlan twoSegments 0xFFFFFF0000000000).2, s) := hload
  refine ⟨hexec, heapPage_load, ?_⟩
  rw [hload, hreturn]
  cases hperform : performAll PmmAllocator.pmm 1 (fileBuffer twoSegments)
      (filePlan twoSegments 0xFFFFFF0000000000).1 (heapPage twoSegments.content) with
  | error e =>
    rw [hperform] at hrun
    exact nomatch hrun
  | ok s =>
    rw [hperform] at hrun
    have hzero : load s.phys 1 0x400000 = some 0 := Except.ok.inj hrun
    refine ⟨s, rfl, hzero, fun himage => ?_⟩
    have hfirst : ⟨ptLoad, 0, 0x400000, 4, 4⟩ ∈ fileSegments twoSegments := by
      decide +kernel
    have hbyte : load s.phys 1 0x400000 = some 0x7F := himage _ hfirst 0 (by decide)
    rw [hzero] at hbyte
    exact absurd hbyte (by decide)

end SharedPage

end ReduceOS.ElfContents
