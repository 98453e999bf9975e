import ReduceOS.KernelMappings

/-!
Which addresses share a page entry. The walk of `mem_getPage` uses bits 12 to 47 of an
address, and `MEM_IS_CANONICAL` asks that the 16 bits above be equal to each other, not
to bit 47. Every page of a directory therefore has two accepted addresses, 2^48 apart
modulo 2^64; apart from these pairs, the tables of a tree give every page an entry of
its own.
-/
namespace ReduceOS.AddressAliases

open Machine Page Physical Paging Outcome TableTree PageMap MapAddress PointerCheck KernelMappings

variable {P : Type}

/-- A page-aligned address that `MEM_IS_CANONICAL` accepts. -/
structure Accepted (a : Addr) : Prop where
  aligned : a.toNat % 4096 = 0
  canonical : isCanonical a = true

instance (a : Addr) : Decidable (Accepted a) :=
  decidable_of_iff (a.toNat % 4096 = 0 ∧ isCanonical a = true)
    ⟨fun h => ⟨h.1, h.2⟩, fun h => ⟨h.1, h.2⟩⟩

section Addresses

variable {a b : Addr}

/-- The walk of an aligned address is given by its low 48 bits. -/
theorem Accepted.indices_iff (ha : Accepted a) (hb : Accepted b) :
    path a = path b ∧ pagetblIndex a = pagetblIndex b ↔
      a.toNat % 2 ^ 48 = b.toNat % 2 ^ 48 := by
  have halign := ha.aligned
  have hblign := hb.aligned
  simp only [path, List.cons.injEq, and_true, pml4Index, pdptIndex, pagedirIndex, pagetblIndex,
    Fin.ext_iff, tableIndex_val]
  norm_num
  constructor
  · rintro ⟨⟨h39, h30, h21⟩, h12⟩
    omega
  · intro h
    refine ⟨⟨?_, ?_, ?_⟩, ?_⟩ <;> omega

end Addresses

section Calls

variable {L : LawfulAllocator P} {s s₁ s₂ : State P} {dir : FrameNo} {a b : Addr}
  {pg pg' : Slot} {flags flags' : BitVec 64}

/-- The guard of the walk tells only zero flags from the rest. -/
theorem memGetPage_flags (A : Allocator P) (s : State P) (dir : FrameNo) (a : Addr)
    (flags : BitVec 64) :
    memGetPage A s dir a flags =
      memGetPage A s dir a (if flags = 0 then memDefault else memCreate) := by
  have hguard : lookupOnly flags = lookupOnly (if flags = 0 then memDefault else memCreate) := by
    by_cases hzero : flags = 0
    · rw [if_pos hzero, hzero]
      rfl
    · rw [if_neg hzero, lookupOnly, if_neg hzero]
      decide
  have hlevel : ∀ s pg size, descend A s pg flags size =
      descend A s pg (if flags = 0 then memDefault else memCreate) size := by
    intro s pg size
    unfold descend ensureTable
    rw [hguard]
  unfold memGetPage
  simp only [hlevel]

theorem canonical_of_found {A : Allocator P}
    (hcall : memGetPage A s dir a flags = .ok (some pg, s₁)) : isCanonical a = true := by
  by_contra hnot
  rw [memGetPage, if_pos (by simpa using hnot)] at hcall
  exact absurd (congrArg Prod.fst (Except.ok.inj hcall)).symm (Option.some_ne_none _)

/-- What a call that returned a page entry has done: the tables are still a tree, with
all the old ones in their places, and the entry is where the address leads. -/
structure Found (L : LawfulAllocator P) (s s₁ : State P) (dir : FrameNo) (a : Addr) (pg : Slot) :
    Prop where
  tables : Tables L (under dir) s₁
  kept : ∀ q t, tableAt kNext s.phys dir q = some t → tableAt kNext s₁.phys dir q = some t
  table : tableAt kNext s₁.phys dir (path a) = some pg.1
  index : pg.2 = pagetblIndex a

theorem memGetPage_found (ht : Tables L (under dir) s)
    (hcall : memGetPage L.toAllocator s dir a flags = .ok (some pg, s₁)) :
    Found L s s₁ dir a pg := by
  have ha := canonical_of_found hcall
  rw [memGetPage_flags] at hcall
  by_cases hzero : flags = 0
  · rw [if_pos hzero] at hcall
    obtain rfl := memGetPage_unchanged hcall
    obtain ⟨-, hpage⟩ := clear_of_memGetPage ha hcall
    obtain ⟨t, hat, rfl⟩ := Option.map_eq_some_iff.mp hpage.symm
    exact ⟨ht, fun _ _ => id, hat, rfl⟩
  · rw [if_neg hzero] at hcall
    let J : State P → Prop := fun s' => Tables L (under dir) s' ∧
      ∀ q t, tableAt kNext s.phys dir q = some t → tableAt kNext s'.phys dir q = some t
    have hstart : J s := ⟨ht, fun _ _ => id⟩
    have hadded : ∀ s₁ s₂ p i g h, J s₁ → p ++ [i] <+: path a → p.length < 3 →
        tableAt kNext s₁.phys dir p = some g → (s₁.phys g i).present = false →
        Added L s₁ s₂ g i h → J s₂ := by
      intro s₁ s₂ p i g h hs _ _ _ habs hadd
      have hgrow := Added.grow (Tables.shape hs.1) hadd habs
      exact ⟨Tables.added hs.1 hadd habs, fun q t hq => hgrow.keep (hs.2 q t hq)⟩
    obtain ⟨⟨htables, hkept⟩, hpage⟩ := meets_of_eq_ok
      (memGetPage_added hstart ha (fun _ h => Tables.shape h.1) hadded) hcall
    obtain ⟨t, rfl, hat⟩ := hpage pg rfl
    exact ⟨htables, hkept, hat, rfl⟩

/-- The page at 4 MiB created in an empty directory, and an address that leads to the same
page table. -/
theorem emptyDirectory_found {b : Addr} (hb : isCanonical b = true)
    (hpath : path b = path 0x400000) :
    ∃ t s₁, memGetPage PmmAllocator.pmm emptyDirectory 1 0x400000 memCreate =
        .ok (some (t, pagetblIndex 0x400000), s₁) ∧
      memGetPage PmmAllocator.pmm s₁ 1 b memDefault = .ok (some (t, pagetblIndex b), s₁) := by
  have hfound : (memGetPage PmmAllocator.pmm emptyDirectory 1 0x400000
      memCreate).toOption.map (fun res => res.1.isSome) = some true := by decide +kernel
  cases hcall : memGetPage PmmAllocator.pmm emptyDirectory 1 0x400000 memCreate with
  | error e => rw [hcall] at hfound; contradiction
  | ok res =>
    obtain ⟨page, s₁⟩ := res
    rw [hcall] at hfound
    obtain ⟨⟨t, i⟩, rfl⟩ := Option.isSome_iff_exists.mp (Option.some.inj hfound)
    obtain ⟨-, -, hat, rfl⟩ := memGetPage_found (L := PmmAllocator.bitmap)
      emptyDirectory_tables hcall
    refine ⟨t, s₁, rfl, ?_⟩
    rw [← hpath] at hat
    rw [memGetPage_of_clear hb (clear_of_walk hat), hat, Option.map_some]

/-- Of two accepted addresses looked up or created one after the other in a tree of tables,
the entries are the same only if the addresses are, exactly when the addresses are equal or
differ in their low 48 bits. -/
theorem memGetPage_apart_iff (ht : Tables L (under dir) s) (ha : Accepted a) (hb : Accepted b)
    (hfirst : memGetPage L.toAllocator s dir a flags = .ok (some pg, s₁))
    (hsecond : memGetPage L.toAllocator s₁ dir b flags' = .ok (some pg', s₂)) :
    (pg = pg' → a = b) ↔ a = b ∨ a.toNat % 2 ^ 48 ≠ b.toNat % 2 ^ 48 := by
  have hfound := memGetPage_found ht hfirst
  have hfound' := memGetPage_found hfound.tables hsecond
  have hold := hfound'.kept _ _ hfound.table
  have hshared : pg = pg' ↔ a.toNat % 2 ^ 48 = b.toNat % 2 ^ 48 := by
    rw [← ha.indices_iff hb, Prod.ext_iff, hfound.index, hfound'.index]
    constructor
    · rintro ⟨htable, hindex⟩
      rw [htable] at hold
      exact ⟨Tables.position_eq hfound'.tables hold hfound'.table, hindex⟩
    · rintro ⟨hpath, hindex⟩
      rw [hpath, hfound'.table] at hold
      exact ⟨(Option.some.inj hold).symm, hindex⟩
  rw [hshared]
  tauto

/-- Two neighbouring pages have entries of their own. -/
theorem memGetPage_apart_neighbours :
    ∃ pg pg' s₁, memGetPage PmmAllocator.pmm emptyDirectory 1 0x400000 memCreate =
        .ok (some pg, s₁) ∧
      memGetPage PmmAllocator.pmm s₁ 1 0x401000 memDefault = .ok (some pg', s₁) ∧
      ((pg = pg' → (0x400000 : Addr) = 0x401000) ↔ (0x400000 : Addr) = 0x401000 ∨
        (0x400000 : Addr).toNat % 2 ^ 48 ≠ (0x401000 : Addr).toNat % 2 ^ 48) := by
  obtain ⟨t, s₁, hfirst, hsecond⟩ := emptyDirectory_found (b := 0x401000) (by decide) (by decide)
  exact ⟨_, _, s₁, hfirst, hsecond, memGetPage_apart_iff (L := PmmAllocator.bitmap)
    emptyDirectory_tables (by decide) (by decide) hfirst hsecond⟩

/-- The page at 4 MiB and the address with its top 16 bits set: both pass `MEM_IS_CANONICAL`,
although bit 47 is clear in both, and have one entry. -/
theorem high_address_shares_entry :
    Accepted 0x400000 ∧ Accepted 0xFFFF000000400000 ∧
      (0x400000 : Addr) ≠ 0xFFFF000000400000 ∧
      ∃ pg s₁, memGetPage PmmAllocator.pmm emptyDirectory 1 0x400000 memCreate =
          .ok (some pg, s₁) ∧
        memGetPage PmmAllocator.pmm s₁ 1 0xFFFF000000400000 memDefault = .ok (some pg, s₁) := by
  refine ⟨by decide, by decide, by decide, ?_⟩
  obtain ⟨t, s₁, hfirst, hsecond⟩ :=
    emptyDirectory_found (b := 0xFFFF000000400000) (by decide) (by decide)
  exact ⟨_, s₁, hfirst, hsecond⟩

end Calls

end ReduceOS.AddressAliases
