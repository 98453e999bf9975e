import ReduceOS.ElfBounds

/-!
The loader goes by the plan of the file. As long as the plan keeps to user pages, the buffer holds
the file whenever a field is read again, so the loader does what the plan says. Where the plan
leaves its bounds, the loader has left them, too, or it stops in a panic.
-/
namespace ReduceOS.ElfPlan

open Machine Inet ElfRelocation Page Physical Paging Outcome TableTree PageMap MapAddress UserAccess
  UserHeap CopyOnWrite References PointerCheck KernelMappings ElfImage ElfBounds Loader

variable {P : Type}

def Holds (dir : FrameNo) (s : State P) (fbuf : Addr) (file : File) : Prop :=
  ∀ k < file.length.toNat, ∃ f, kernelFrame s.phys dir (fbuf + BitVec.ofNat 64 k) = some f ∧
    (s.phys f).byte (pageOffset (fbuf + BitVec.ofNat 64 k)) = file.content.getD k 0

structure Buffered (L : LawfulAllocator P) (dir : FrameNo) (s : State P) (fbuf : Addr)
    (file : File) : Prop where
  half : 2 ^ 64 - 2 ^ 47 ≤ fbuf.toNat
  fits : fbuf.toNat + file.length.toNat ≤ 2 ^ 64
  holds : Holds dir s fbuf file
  plain : ∀ k < file.length.toNat, PlainAt dir s (position (fbuf + BitVec.ofNat 64 k))
  frames : ∀ k < file.length.toNat, ∀ f,
    kernelFrame s.phys dir (fbuf + BitVec.ofNat 64 k) = some f →
      KernelFrame L dir (KernelPosition s.phys dir) s f

section Buffers

variable {L : LawfulAllocator P} {dir : FrameNo} {s t : State P} {fbuf a offset : Addr}
  {file : File} {buf buf' : Buffer} {k n : ℕ} {ok : Addr → Prop}

theorem Buffered.length_le (hb : Buffered L dir s fbuf file) : file.length.toNat ≤ 2 ^ 63 := by
  have hhalf := hb.half
  have hfits := hb.fits
  omega

theorem Buffered.ne_zero (hb : Buffered L dir s fbuf file) : fbuf ≠ 0 := by
  rintro rfl
  exact absurd hb.half (by decide)

theorem kernelPosition_of_half (ha : 2 ^ 64 - 2 ^ 47 ≤ a.toNat) :
    KernelPosition s.phys dir (position a) := by
  refine Or.inl ⟨pml4Index a, rfl, ?_⟩
  have hlt := a.isLt
  rw [pml4Index, tableIndex_val]
  omega

/-- What is done to user pages leaves the buffer as it was. -/
theorem Buffered.kept (hb : Buffered L dir s fbuf file) (ht : Confines L dir s t) :
    Holds dir t fbuf file := by
  intro k hk
  obtain ⟨f, hf, hbyte⟩ := hb.holds k hk
  have hhalf : 2 ^ 64 - 2 ^ 47 ≤ (fbuf + BitVec.ofNat 64 k).toNat := by
    have hlow := hb.half
    have hfits := hb.fits
    rw [toNat_add_ofNat (by omega)]
    omega
  have hw : walkable (fbuf + BitVec.ofNat 64 k) = true := by
    rw [walkable, Bool.or_eq_true]
    exact Or.inr (decide_eq_true hhalf)
  have hentry := ht.safe.kept _ (position_length _) (kernelPosition_of_half hhalf)
  have hplain : PlainAt dir t (position (fbuf + BitVec.ofNat 64 k)) := fun p i e hpre hlen he =>
    hb.plain k hk p i e hpre hlen ((hentry p i hpre).symm.trans he)
  have hframe : kernelFrame t.phys dir (fbuf + BitVec.ofNat 64 k) = some f := by
    rw [kernelFrame_eq hplain hw, hentry _ _ (List.prefix_refl _),
      ← kernelFrame_eq (hb.plain k hk) hw, hf]
  refine ⟨f, hframe, ?_⟩
  rw [(ht.frames f (hb.frames k hk f hf)).2, hbyte]

theorem Holds.bufferAt_eq (hh : Holds dir t fbuf file) (ha : a.toNat < file.length.toNat) :
    bufferAt dir fbuf t a = fileBuffer file a := by
  obtain ⟨f, hf, hbyte⟩ := hh _ ha
  rw [BitVec.ofNat_toNat, BitVec.setWidth_eq] at hf hbyte
  rw [bufferAt, kernelByte, hf, fileBuffer_eq ha]
  exact hbyte

theorem Holds.loadByte_eq (hh : Holds dir t fbuf file) (ha : a.toNat < file.length.toNat) :
    loadByte dir t (fbuf + a) = .ok (fileBuffer file a) := by
  obtain ⟨f, hf, hbyte⟩ := hh _ ha
  rw [BitVec.ofNat_toNat, BitVec.setWidth_eq] at hf hbyte
  rw [loadByte, hf, fileBuffer_eq ha]
  exact congrArg Except.ok hbyte

theorem Holds.touch_eq (hh : Holds dir t fbuf file)
    (hread : Inside ok file.length.toNat (.read offset n)) : touch dir fbuf offset n t = .ok t := by
  refine if_pos (List.all_eq_true.mpr fun k hk => ?_)
  obtain ⟨f, hf, -⟩ := hh _ (hread k (List.mem_range.mp hk))
  rw [BitVec.ofNat_toNat, BitVec.setWidth_eq] at hf
  rw [hf]
  rfl

/-- The type of a header depends on its first four bytes. -/
theorem readPhdr_type_congr
    (h : ∀ k < 4, buf (a + BitVec.ofNat 64 k) = buf' (a + BitVec.ofNat 64 k)) :
    (readPhdr buf a).type = (readPhdr buf' a).type :=
  load32_congr fun k hk => h (0 + k) (by omega)

theorem readPhdr_congr
    (h : ∀ k < 48, buf (a + BitVec.ofNat 64 k) = buf' (a + BitVec.ofNat 64 k)) :
    readPhdr buf a = readPhdr buf' a := by
  have hword : ∀ k, k + 8 ≤ 48 → load64 (view buf a) k = load64 (view buf' a) k :=
    fun k hk => load64_congr fun i hi => h (k + i) (by omega)
  have htype : load32 (view buf a) 0 = load32 (view buf' a) 0 :=
    readPhdr_type_congr fun k hk => h k (by omega)
  unfold readPhdr
  rw [htype, hword 8 (by decide), hword 16 (by decide), hword 32 (by decide),
    hword 40 (by decide)]

theorem Holds.type_eq (hh : Holds dir t fbuf file)
    (hread : Inside ok file.length.toNat (.read a 4)) :
    (readPhdr (bufferAt dir fbuf t) a).type = (readPhdr (fileBuffer file) a).type :=
  readPhdr_type_congr fun k hk => hh.bufferAt_eq (hread k hk)

theorem Holds.readPhdr_eq (hh : Holds dir t fbuf file)
    (hread : Inside ok file.length.toNat (.read a 48)) :
    readPhdr (bufferAt dir fbuf t) a = readPhdr (fileBuffer file) a :=
  readPhdr_congr fun k hk => hh.bufferAt_eq (hread k hk)

/-- Where the header of the file is read, it is the one that the file has. -/
theorem Holds.header_eq (hh : Holds dir t fbuf file) (hlong : 64 ≤ file.length.toNat) :
    ePhnum (bufferAt dir fbuf t) = ePhnum (fileBuffer file) ∧
      ePhoff (bufferAt dir fbuf t) = ePhoff (fileBuffer file) ∧
      ePhentsize (bufferAt dir fbuf t) = ePhentsize (fileBuffer file) := by
  have hbyte : ∀ a : Addr, a.toNat < 64 → bufferAt dir fbuf t a = fileBuffer file a :=
    fun a ha => hh.bufferAt_eq (by omega)
  have hword : ∀ a : Addr, a.toNat + 2 ≤ 64 →
      load16 (view (bufferAt dir fbuf t) a) 0 = load16 (view (fileBuffer file) a) 0 := by
    intro a ha
    unfold load16 view
    rw [hbyte _ (by rw [toNat_add_ofNat (by omega)]; omega),
      hbyte _ (by rw [toNat_add_ofNat (by omega)]; omega)]
  have hphoff : ePhoff (bufferAt dir fbuf t) = ePhoff (fileBuffer file) := by
    refine load64_congr fun k hk => hbyte _ ?_
    have h32 : (32 : Addr).toNat = 32 := rfl
    rw [toNat_add_ofNat (by omega)]
    omega
  exact ⟨hword 56 (by decide), hphoff, hword 54 (by decide)⟩

theorem Holds.elfPhdr_eq (hh : Holds dir t fbuf file) (hlong : 64 ≤ file.length.toNat) (i : ℕ) :
    elfPhdr (bufferAt dir fbuf t) i = elfPhdr (fileBuffer file) i := by
  obtain ⟨-, hphoff, hphentsize⟩ := hh.header_eq hlong
  unfold elfPhdr
  rw [hphoff, hphentsize]

end Buffers

/-- How a run that starts in `t` goes with a plan that ends with `a`. If the plan stays inside its
bounds, the run does what the plan says, until memory is short; if not, the run does not stay
inside either, or it panics. -/
structure Follows {α : Type} (L : LawfulAllocator P) (dir : FrameNo) (s : State P) (file : File)
    (t : State P) (ops : List Op) (a : α) (run : List Op × Except Panic (α × State P)) : Prop where
  result : (∀ op ∈ ops, Inside (UserAddress s dir) file.length.toNat op) →
    run.2 = (performAll L.toAllocator dir (fileBuffer file) ops t).map fun t' => (a, t')
  trace : (∀ op ∈ ops, Inside (UserAddress s dir) file.length.toNat op) → run.1 <+: ops
  whole : (∀ op ∈ ops, Inside (UserAddress s dir) file.length.toNat op) →
    ∀ x, run.2 = .ok x → run.1 = ops
  strays : (∃ op ∈ ops, ¬ Inside (UserAddress s dir) file.length.toNat op) →
    (∃ op ∈ run.1, ¬ Inside (UserAddress s dir) file.length.toNat op) ∨ ∃ e, run.2 = .error e

section Rules

variable {α β : Type} {L : LawfulAllocator P} {dir : FrameNo} {s t : State P} {file : File}
  {ops ops' : List Op} {op : Op} {a : α} {b : β} {m : Loader P α} {f : α → Loader P β}

theorem Follows.pure (t : State P) (a : α) :
    Follows L dir s file t [] a ((Pure.pure a : Loader P α) t) :=
  ⟨fun _ => rfl, fun _ => List.prefix_refl _, fun _ _ _ => rfl,
    fun ⟨_, hop, _⟩ => absurd hop List.not_mem_nil⟩

theorem Follows.act {body : State P → Except Panic (State P)}
    (h : Inside (UserAddress s dir) file.length.toNat op →
      body t = perform L.toAllocator dir (fileBuffer file) t op) :
    Follows L dir s file t [op] () (Loader.act op body t) := by
  refine ⟨fun hall => ?_, fun _ => List.prefix_refl _, fun _ _ _ => rfl, fun hbad => Or.inl hbad⟩
  change (body t).map _ = _
  rw [h (hall op List.mem_cons_self), performAll, List.foldlM_cons]
  cases perform L.toAllocator dir (fileBuffer file) t op <;> rfl

theorem Follows.bind (hm : Follows L dir s file t ops a (m t))
    (hf : (∀ op ∈ ops, Inside (UserAddress s dir) file.length.toNat op) →
      ∀ t', performAll L.toAllocator dir (fileBuffer file) ops t = .ok t' →
        Follows L dir s file t' ops' b (f a t')) :
    Follows L dir s file t (ops ++ ops') b ((m >>= f) t) := by
  have hsplit : performAll L.toAllocator dir (fileBuffer file) (ops ++ ops') t =
      performAll L.toAllocator dir (fileBuffer file) ops t >>=
        performAll L.toAllocator dir (fileBuffer file) ops' := List.foldlM_append
  obtain ⟨hresult, htrace, hwhole, hstrays⟩ := hm
  rcases hrun : m t with ⟨tr, r⟩
  rw [hrun] at hresult htrace hwhole hstrays
  -- what the first part leads to, if it stays inside
  have hfirst : (∀ op ∈ ops, Inside (UserAddress s dir) file.length.toNat op) →
      (∃ e, performAll L.toAllocator dir (fileBuffer file) ops t = .error e ∧
        (m >>= f) t = (tr, .error e) ∧ tr <+: ops) ∨
      ∃ t', performAll L.toAllocator dir (fileBuffer file) ops t = .ok t' ∧
        (m >>= f) t = (ops ++ (f a t').1, (f a t').2) ∧
        Follows L dir s file t' ops' b (f a t') := by
    intro hall
    have hr : r = _ := hresult hall
    cases hperform : performAll L.toAllocator dir (fileBuffer file) ops t with
    | error e =>
      rw [hperform] at hr
      subst hr
      exact Or.inl ⟨e, rfl, bind_error hrun, htrace hall⟩
    | ok t' =>
      rw [hperform] at hr
      subst hr
      obtain rfl : tr = ops := hwhole hall _ rfl
      exact Or.inr ⟨t', rfl, bind_ok hrun, hf hall t' hperform⟩
  constructor
  · intro hall
    obtain ⟨hall, hall'⟩ := List.forall_mem_append.mp hall
    rw [hsplit]
    rcases hfirst hall with ⟨e, hperform, heq, -⟩ | ⟨t', hperform, heq, hrest⟩
    · rw [hperform, heq]
      rfl
    · rw [hperform, heq]
      exact hrest.result hall'
  · intro hall
    obtain ⟨hall, hall'⟩ := List.forall_mem_append.mp hall
    rcases hfirst hall with ⟨e, -, heq, hpre⟩ | ⟨t', -, heq, hrest⟩
    · rw [heq]
      exact hpre.trans (List.prefix_append _ _)
    · rw [heq]
      exact (List.prefix_append_right_inj ops).mpr (hrest.trace hall')
  · intro hall x hx
    obtain ⟨hall, hall'⟩ := List.forall_mem_append.mp hall
    rcases hfirst hall with ⟨e, -, heq, -⟩ | ⟨t', -, heq, hrest⟩
    · rw [heq] at hx
      contradiction
    · rw [heq] at hx ⊢
      exact congrArg (ops ++ ·) (hrest.whole hall' x hx)
  · rintro ⟨op, hop, hbad⟩
    by_cases hall : ∀ op ∈ ops, Inside (UserAddress s dir) file.length.toNat op
    · have hop' : op ∈ ops' := (List.mem_append.mp hop).resolve_left fun h => hbad (hall op h)
      rcases hfirst hall with ⟨e, -, heq, -⟩ | ⟨t', -, heq, hrest⟩
      · exact Or.inr ⟨e, by rw [heq]⟩
      · rw [heq]
        refine (hrest.strays ⟨op, hop', hbad⟩).imp ?_ id
        exact fun ⟨op, hop, hbad⟩ => ⟨op, List.mem_append_right _ hop, hbad⟩
    · push Not at hall
      rcases hstrays hall with ⟨op, hop, hbad⟩ | ⟨e, he⟩
      · refine Or.inl ⟨op, ?_, hbad⟩
        rcases r with e | x
        · rw [bind_error hrun]
          exact hop
        · rw [bind_ok hrun]
          exact List.mem_append_left _ hop
      · obtain rfl : r = .error e := he
        exact Or.inr ⟨e, by rw [bind_error hrun]⟩

end Rules

section Copies

variable {L : LawfulAllocator P} {dir : FrameNo} {s t : State P} {fbuf dest offset n : Addr}
  {file : File} {m : ℕ}

theorem flatMap_words (m : ℕ) : ((List.range m).map fun j => (8 * j, 8)).flatMap
    (fun c => List.range' c.1 c.2) = List.range (8 * m) := by
  induction m with
  | zero => rfl
  | succ m ih =>
    rw [List.range_succ, List.map_append, List.flatMap_append, ih, Nat.mul_succ,
      List.range_eq_range', List.range_eq_range', List.map_singleton, List.flatMap_singleton,
      ← List.range'_append_1, Nat.zero_add]

/-- The words and bytes that `memcpy` goes through are all bytes in order. -/
theorem flatMap_chunks (n : ℕ) :
    (chunks n).flatMap (fun c => List.range' c.1 c.2) = List.range n := by
  have hbytes : ∀ l : List ℕ,
      (l.map fun j => (j, 1)).flatMap (fun c => List.range' c.1 c.2) = l := by
    intro l
    rw [List.flatMap_map]
    exact List.flatMap_singleton' l
  rw [chunks, List.flatMap_append, List.flatMap_append, flatMap_words, hbytes]
  split_ifs with hfour
  · rw [List.flatMap_singleton, show n / 8 * 8 = 0 + 8 * (n / 8) by omega, List.range_eq_range',
      ← List.append_assoc, List.range'_append_1, show n / 4 * 4 = 0 + (8 * (n / 8) + 4) by omega,
      List.range'_append_1, ← List.range_eq_range']
    congr 1
    omega
  · rw [List.flatMap_nil, List.nil_append, List.range_eq_range',
      show n / 4 * 4 = 0 + 8 * (n / 8) by omega, List.range'_append_1, ← List.range_eq_range']
    congr 1
    omega

theorem copyChunk_eq (hh : Holds dir t fbuf file) (dest : Addr) {c : ℕ × ℕ}
    (hread : ∀ k ∈ List.range' c.1 c.2,
      (offset + BitVec.ofNat 64 k).toNat < file.length.toNat) :
    copyChunk dir dest (fbuf + offset) t c = (List.range' c.1 c.2).foldlM (fun t k =>
      storeByte dir t (dest + BitVec.ofNat 64 k) (fileBuffer file (offset + BitVec.ofNat 64 k)))
        t := by
  have hload : ∀ l : List ℕ, (∀ k ∈ l, (offset + BitVec.ofNat 64 k).toNat < file.length.toNat) →
      (l.mapM fun k => loadByte dir t (fbuf + offset + BitVec.ofNat 64 k)) =
        .ok (l.map fun k => fileBuffer file (offset + BitVec.ofNat 64 k)) := by
    intro l hl
    induction l with
    | nil => rfl
    | cons k l ih =>
      rw [List.mapM_cons, BitVec.add_assoc, hh.loadByte_eq (hl k List.mem_cons_self),
        ih fun j hj => hl j (List.mem_cons_of_mem k hj)]
      rfl
  rw [copyChunk, hload _ hread]
  change ((List.range' c.1 c.2).zip ((List.range' c.1 c.2).map
    fun k => fileBuffer file (offset + BitVec.ofNat 64 k))).foldlM _ t = _
  rw [← List.map_prod_left_eq_zip]
  exact List.foldlM_map

theorem copyChunks_eq (hb : Buffered L dir s fbuf file) (ht : Confines L dir s t) (dest : Addr)
    (l : List (ℕ × ℕ)) (hl : ∀ c ∈ l, ∀ k ∈ List.range' c.1 c.2,
      UserAddress s dir (dest + BitVec.ofNat 64 k) ∧
        (offset + BitVec.ofNat 64 k).toNat < file.length.toNat) :
    l.foldlM (copyChunk dir dest (fbuf + offset)) t =
      (l.flatMap fun c => List.range' c.1 c.2).foldlM (fun t k =>
        storeByte dir t (dest + BitVec.ofNat 64 k)
          (fileBuffer file (offset + BitVec.ofNat 64 k))) t := by
  induction l generalizing t with
  | nil => rfl
  | cons c l ih =>
    have hc := hl c List.mem_cons_self
    have hstores := storeBytes_confines ht (fun k => dest + BitVec.ofNat 64 k)
      (fun k => fileBuffer file (offset + BitVec.ofNat 64 k)) fun k hk => (hc k hk).1
    rw [List.foldlM_cons, List.flatMap_cons, List.foldlM_append,
      copyChunk_eq (hb.kept ht) dest fun k hk => (hc k hk).2]
    cases hstored : (List.range' c.1 c.2).foldlM (fun t k =>
        storeByte dir t (dest + BitVec.ofNat 64 k)
          (fileBuffer file (offset + BitVec.ofNat 64 k))) t with
    | error e => rfl
    | ok t' =>
      exact ih (meets_of_eq_ok hstores hstored) fun c' hc' => hl c' (List.mem_cons_of_mem c hc')

/-- The copy of a segment puts the bytes of the file to user pages. -/
theorem memcpy_eq (hb : Buffered L dir s fbuf file) (ht : Confines L dir s t)
    (hcopy : Inside (UserAddress s dir) file.length.toNat (.copy dest offset n)) :
    memcpy dir dest (fbuf + offset) n t =
      perform L.toAllocator dir (fileBuffer file) t (.copy dest offset n) := by
  rw [memcpy, copyChunks_eq hb ht, flatMap_chunks]
  · rfl
  intro c hc k hk
  refine hcopy k ?_
  rw [← List.mem_range, ← flatMap_chunks n.toNat]
  exact List.mem_flatMap.mpr ⟨c, hc, hk⟩

end Copies

section Headers

variable {L : LawfulAllocator P} {dir : FrameNo} {s t : State P} {fbuf phdr : Addr} {file : File}

/-- The fields of a header of the file are found again as long as only user pages change. -/
theorem Buffered.phdr_eq (hb : Buffered L dir s fbuf file) (ht : Confines L dir s t)
    (hphdr : phdr.toNat + 48 ≤ file.length.toNat) :
    readPhdr (bufferAt dir fbuf t) phdr = readPhdr (fileBuffer file) phdr :=
  (hb.kept ht).readPhdr_eq ((read_inside_iff (fun _ => True)
    (Nat.lt_of_le_of_lt hb.length_le (by decide)) (by decide)).mpr hphdr)

theorem mapPages_follows (hb : Buffered L dir s fbuf file) (ht : Confines L dir s t)
    (hphdr : phdr.toNat + 48 ≤ file.length.toNat) (n : ℕ) (i : Addr) :
    Follows L dir s file t ((visited n i (readPhdr (fileBuffer file) phdr).memsz).map fun i =>
        .mapPage (i + (readPhdr (fileBuffer file) phdr).vaddr)) ()
      (mapPages L.toAllocator dir fbuf phdr n i t) := by
  induction n generalizing i t with
  | zero => exact Follows.pure t ()
  | succ n ih =>
    rw [mapPages, phdrAt, look_bind, hb.phdr_eq ht hphdr, visited]
    split_ifs with hi
    · exact Follows.bind (Follows.act fun _ => rfl) fun hall t' ht' =>
        ih (ht.performed hall ht') (i + 0x1000)
    · exact Follows.pure t ()

theorem copySegment_follows (hb : Buffered L dir s fbuf file) (ht : Confines L dir s t)
    (hphdr : phdr.toNat + 48 ≤ file.length.toNat) :
    Follows L dir s file t [.copy (readPhdr (fileBuffer file) phdr).vaddr
        (readPhdr (fileBuffer file) phdr).offset (readPhdr (fileBuffer file) phdr).filesz] ()
      (copySegment dir fbuf phdr t) := by
  rw [copySegment, phdrAt, look_bind, hb.phdr_eq ht hphdr]
  exact Follows.act (memcpy_eq hb ht)

theorem clearSegment_follows (hb : Buffered L dir s fbuf file) (ht : Confines L dir s t)
    (hphdr : phdr.toNat + 48 ≤ file.length.toNat) :
    Follows L dir s file t
      (if (readPhdr (fileBuffer file) phdr).filesz < (readPhdr (fileBuffer file) phdr).memsz then
        [.clear ((readPhdr (fileBuffer file) phdr).vaddr + (readPhdr (fileBuffer file) phdr).filesz)
          ((readPhdr (fileBuffer file) phdr).memsz - (readPhdr (fileBuffer file) phdr).filesz)]
      else []) () (clearSegment dir fbuf phdr t) := by
  rw [clearSegment, phdrAt, look_bind, hb.phdr_eq ht hphdr]
  split_ifs
  · exact Follows.act fun _ => rfl
  · exact Follows.pure t ()

theorem loadSegment_follows (hb : Buffered L dir s fbuf file) (ht : Confines L dir s t)
    (htype : phdr.toNat + 4 ≤ file.length.toNat) :
    Follows L dir s file t (.read (phdr + 8) 40 :: segmentOps (readPhdr (fileBuffer file) phdr)) ()
      (loadSegment L.toAllocator dir fbuf phdr t) := by
  have hread : Follows L dir s file t [.read (phdr + 8) 40] () (read dir fbuf (phdr + 8) 40 t) :=
    Follows.act fun hinside => (hb.kept ht).touch_eq hinside
  refine Follows.bind hread fun hall t₁ ht₁ => ?_
  have hphdr : phdr.toNat + 48 ≤ file.length.toNat :=
    (read_fields_iff _ hb.length_le htype).mp (hall _ List.mem_cons_self)
  have hc₁ := ht.performed hall ht₁
  rw [segmentPages, List.map_map]
  refine Follows.bind (mapPages_follows hb hc₁ hphdr (2 ^ 52) 0) fun hall t₂ ht₂ => ?_
  have hc₂ := hc₁.performed hall ht₂
  have hstores := Follows.bind (f := fun _ => clearSegment dir fbuf phdr)
    (copySegment_follows hb hc₂ hphdr) fun hall t₃ ht₃ =>
      clearSegment_follows hb (hc₂.performed hall ht₃) hphdr
  exact hstores

def headerPlan (buf : Buffer) (phdr : Addr) : List Op × Bool :=
  if (readPhdr buf phdr).type = ptNull then ([.read phdr 4], true)
  else if (readPhdr buf phdr).type = ptLoad then
    (.read phdr 4 :: .read (phdr + 8) 40 :: segmentOps (readPhdr buf phdr), true)
  else ([.read phdr 4], false)

theorem headerOps_succ (buf : Buffer) (n i : ℕ) : headerOps buf (n + 1) i =
    if (headerPlan buf (elfPhdr buf i)).2 then
      ((headerPlan buf (elfPhdr buf i)).1 ++ (headerOps buf n (i + 1)).1,
        (headerOps buf n (i + 1)).2)
    else ((headerPlan buf (elfPhdr buf i)).1, elfFail.setWidth 32) := by
  rw [headerOps, headerPlan]
  split_ifs <;> first | rfl | contradiction

theorem loadHeader_follows (hb : Buffered L dir s fbuf file) (ht : Confines L dir s t) :
    Follows L dir s file t (headerPlan (fileBuffer file) phdr).1
      (headerPlan (fileBuffer file) phdr).2 (loadHeader L.toAllocator dir fbuf phdr t) := by
  have hread : Follows L dir s file t [.read phdr 4] () (read dir fbuf phdr 4 t) :=
    Follows.act fun hinside => (hb.kept ht).touch_eq hinside
  have hlength : file.length.toNat < 2 ^ 64 := file.length.isLt
  -- the first read, and what the header found then leads to
  have hsplit : ∀ ops a, (headerPlan (fileBuffer file) phdr) = (.read phdr 4 :: ops, a) →
      (∀ t', Confines L dir s t' → phdr.toNat + 4 ≤ file.length.toNat →
        Follows L dir s file t' ops a ((do
          let ph ← phdrAt dir fbuf phdr
          if ph.type = ptNull then return true
          else if ph.type = ptLoad then do
            loadSegment L.toAllocator dir fbuf phdr
            return true
          else return false : Loader P Bool) t')) →
      Follows L dir s file t (headerPlan (fileBuffer file) phdr).1
        (headerPlan (fileBuffer file) phdr).2 (loadHeader L.toAllocator dir fbuf phdr t) := by
    intro ops a hplan hrest
    rw [hplan]
    change Follows L dir s file t ([_] ++ ops) a _
    refine Follows.bind hread fun hall t' ht' => hrest t' (ht.performed hall ht') ?_
    exact (read_inside_iff _ hlength (by decide)).mp (hall _ List.mem_cons_self)
  have htype : ∀ t', Confines L dir s t' → phdr.toNat + 4 ≤ file.length.toNat →
      (readPhdr (bufferAt dir fbuf t') phdr).type = (readPhdr (fileBuffer file) phdr).type :=
    fun t' ht' hin => (hb.kept ht').type_eq
      ((read_inside_iff (fun _ => True) hlength (by decide)).mpr hin)
  by_cases hnull : (readPhdr (fileBuffer file) phdr).type = ptNull
  · refine hsplit [] true (if_pos hnull) fun t' ht' hin => ?_
    rw [phdrAt, look_bind, htype t' ht' hin, if_pos hnull]
    exact Follows.pure t' true
  by_cases hload : (readPhdr (fileBuffer file) phdr).type = ptLoad
  · refine hsplit _ true ((if_neg hnull).trans (if_pos hload)) fun t' ht' hin => ?_
    rw [phdrAt, look_bind, htype t' ht' hin, if_neg hnull, if_pos hload]
    have hsegment := Follows.bind (f := fun _ => Pure.pure true) (loadSegment_follows hb ht' hin)
      fun _ t'' _ => Follows.pure t'' true
    rwa [List.append_nil] at hsegment
  · refine hsplit [] false ((if_neg hnull).trans (if_neg hload)) fun t' ht' hin => ?_
    rw [phdrAt, look_bind, htype t' ht' hin, if_neg hnull, if_neg hload]
    exact Follows.pure t' false

/-- The loop over the headers, with `n` of them left. -/
theorem loadHeaders_follows (hb : Buffered L dir s fbuf file) (hlong : 64 ≤ file.length.toNat)
    {fuel n i : ℕ} (ht : Confines L dir s t) (hn : i + n = (ePhnum (fileBuffer file)).toNat)
    (hfuel : n < fuel) :
    Follows L dir s file t (headerOps (fileBuffer file) n i).1 (headerOps (fileBuffer file) n i).2
      (loadHeaders L.toAllocator dir fbuf fuel i t) := by
  induction fuel generalizing n i t with
  | zero => exact absurd hfuel (Nat.not_lt_zero n)
  | succ fuel ih =>
    have hphnum := ((hb.kept ht).header_eq hlong).1
    rw [loadHeaders, loadTurn, look_bind, hphnum, (hb.kept ht).elfPhdr_eq hlong]
    cases n with
    | zero =>
      rw [if_neg (by omega)]
      exact Follows.pure t 0
    | succ n =>
      have hfirst : Follows L dir s file t _ _
        (loadHeader L.toAllocator dir fbuf (elfPhdr (fileBuffer file) i) t) :=
        loadHeader_follows hb ht
      rw [if_pos (by omega), headerOps_succ]
      cases hplan : (headerPlan (fileBuffer file) (elfPhdr (fileBuffer file) i)).2 with
      | true =>
        rw [hplan] at hfirst
        exact Follows.bind hfirst fun hall t' ht' =>
          ih (ht.performed hall ht') (by omega) (by omega)
      | false =>
        rw [hplan] at hfirst
        have hstop := Follows.bind (f := fun (go : Bool) =>
          if go = true then loadHeaders L.toAllocator dir fbuf fuel (i + 1)
          else Pure.pure (elfFail.setWidth 32)) hfirst fun _ t' _ => Follows.pure t' _
        rwa [List.append_nil] at hstop

end Headers

section Files

variable {L : LawfulAllocator P} {dir : FrameNo} {s₀ s : State P} {fbuf : Addr} {file : File}
  {elfLoadRelocatable : Addr → Loader P CInt}
  {readFile : State P → Except Panic (Addr × State P)}

/-- What `elf_load` is to do with an executable. -/
def filePlan (file : File) (fbuf : Addr) : List Op × Option Addr :=
  (.read 0 64 :: (executableOps (fileBuffer file)).1,
    if (executableOps (fileBuffer file)).2 = 0 then some fbuf else none)

theorem elfLoad_follows (elfLoadRelocatable : Addr → Loader P CInt)
    (hread : readFile s₀ = .ok (fbuf, s)) (hb : Buffered L dir s fbuf file)
    (hs : Confines L dir s s) (hexec : elfCheck file .exec = true)
    (hfull : file.content.length = file.length.toNat) :
    Follows L dir s file s (filePlan file fbuf).1 (filePlan file fbuf).2
      (elfLoad L.toAllocator dir elfLoadRelocatable readFile file s₀) := by
  obtain ⟨hlong, hsupported, htype, hany⟩ := elfCheck_executable hexec
  have hbuffer : ∀ t, Confines L dir s t → ∀ a : Addr, a.toNat < 64 →
      bufferAt dir fbuf t a = fileBuffer file a :=
    fun t ht a ha => (hb.kept ht).bufferAt_eq (by omega)
  rw [elfLoad_full hfull hany hread]
  change Follows L dir s file s ([_] ++ _) _ _
  refine Follows.bind (Follows.act fun hin => (hb.kept hs).touch_eq hin)
    fun hall t ht => ?_
  have ht := hs.performed hall ht
  rw [look_bind, elfCheckSupported_congr (hbuffer t ht), hsupported, if_neg (by decide),
    eType_congr (hbuffer t ht), htype, if_neg (by decide), elfLoadExecutable, if_neg hb.ne_zero]
  have hloop := Follows.bind (f := fun res => Pure.pure (if res = 0 then some fbuf else none))
    (loadHeaders_follows hb hlong ht (i := 0) (Nat.zero_add _)
      (ePhnum (fileBuffer file)).isLt) fun _ t' _ => Follows.pure t' _
  rwa [List.append_nil] at hloop

end Files

end ReduceOS.ElfPlan
