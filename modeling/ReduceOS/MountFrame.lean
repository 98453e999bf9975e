import ReduceOS.Kopen

/-!
What a mount changes for paths outside of it. The tree nodes that are there keep their place and,
but for the mountpoint, what is in them; a new tree node on the way has a false directory in it. So
a path finds something else if and only if it goes through a new tree node, unless the filesystem
has nothing there either.
-/
namespace ReduceOS.MountFrame

open Machine CString MountTree Kopen

/-- The nodes of drivers are apart from the false directories, and drivers know only their own. -/
structure Own (drivers : Addr → Option DriverNode) (mounts : List Mount) : Prop where
  at_null : drivers null = none
  finddir : ∀ node d f, drivers node = some d → d.finddir = some f → ∀ name, f name ≠ null →
    (drivers (f name)).isSome
  mounted : ∀ m ∈ mounts, m.node ≠ null → (drivers m.node).isSome
  fakes : ∀ m ∈ mounts, ∀ fake ∈ m.memory.map Prod.snd, drivers fake = none

def SameOpened (drivers : Addr → Option DriverNode) (s s' : State) (path : Chars) : Prop :=
  ∃ result after after', kopen drivers s path = some (result, after) ∧
    kopen drivers s' path = some (result, after')

def Absent (drivers : Addr → Option DriverNode) (s : State) (path : Chars) : Prop :=
  ¬ FileOnTheWay drivers s (mountNode s path) (rest s path) ∧
    finddirs drivers s (mountNode s path) (rest s path) = null

def ThroughNew (s : State) (p q : List Chars) : Prop :=
  ∃ t, t <+: q ∧ t <+: p ∧ ∀ n, ¬ At s t n

section Grew

variable {s s₁ s' : State} {h : List (List Chars × Addr)} {P : List Chars → Prop}
  {path : List Chars} {parent n fakenode : Addr} {pch : Chars} {memory : List (Addr × Addr)}

structure Grew (s s' : State) (fakes : List Addr) : Prop where
  old : ∀ q k, Trie.walk (named s) s.root q = some k →
    Trie.walk (named s') s'.root q = some k ∧ (s'.node k).value.node = (s.node k).value.node
  new : ∀ q k, Trie.walk (named s') s'.root q = some k → Trie.walk (named s) s.root q = none →
    (s'.node k).value.node ∈ fakes

theorem Grew.refl (s : State) (fakes : List Addr) : Grew s s fakes where
  old _ _ hk := ⟨hk, rfl⟩
  new _ _ hk hnone := absurd (hk.symm.trans hnone) (by simp)

theorem grew_newLeaf (hinv : Inv s h P) (hleaf : NewLeaf s s₁ parent n fakenode pch)
    (hparent : Trie.walk (named s) s.root path = some parent) (hfree : named s parent pch = none)
    (hn : ∀ q, Trie.walk (named s) s.root q ≠ some n) : Grew s s₁ [fakenode] := by
  have hwalk := (hinv.grown hleaf hparent hfree hn).walk_eq hinv.distinct hparent
  constructor
  · intro q k hk
    have hne : q ≠ path ++ [pch] := by
      rintro rfl
      rw [Trie.walk_concat, hparent, Option.bind_some, hfree] at hk
      cases hk
    have hkn : k ≠ n := fun heq => hn q (heq ▸ hk)
    rw [hleaf.root, hwalk, if_neg hne, hleaf.value_of_ne hkn]
    exact ⟨hk, rfl⟩
  · intro q k hk hnone
    rw [hleaf.root, hwalk] at hk
    split_ifs at hk with hq
    · obtain rfl := Option.some.inj hk
      simp [hleaf.leaf]
    · exact absurd (hk.symm.trans hnone) (by simp)

theorem Grew.trans {fakes fakes' : List Addr} (hfirst : Grew s s₁ fakes)
    (hsecond : Grew s₁ s' fakes') : Grew s s' (fakes ++ fakes') := by
  constructor
  · intro q k hk
    obtain ⟨hk₁, hvalue₁⟩ := hfirst.old q k hk
    obtain ⟨hk', hvalue'⟩ := hsecond.old q k hk₁
    exact ⟨hk', hvalue'.trans hvalue₁⟩
  · intro q k hk hnone
    rw [List.mem_append]
    cases hmiddle : Trie.walk (named s₁) s₁.root q with
    | none => exact .inr (hsecond.new q k hk hmiddle)
    | some l =>
      obtain ⟨hl, hvalue⟩ := hsecond.old q l hmiddle
      obtain rfl := Option.some.inj (hl.symm.trans hk)
      exact .inl (hvalue ▸ hfirst.new q l hmiddle hnone)

/-- The loop of `vfs_mount` only adds tree nodes. -/
theorem Grew.mountLoop {rest : List Chars} (hinv : Inv s h P)
    (hparent : Trie.walk (named s) s.root path = some parent)
    (hrest : ∀ c ∈ rest, Component c ∧ c.length < 256) (hsupply : Supply s memory)
    (hrun : MountTree.mountLoop rest memory s parent = some (s', n)) :
    Grew s s' (memory.map Prod.snd) := by
  induction rest generalizing s P path parent memory with
  | nil =>
    obtain ⟨rfl, -⟩ := Prod.mk.inj (Option.some.inj hrun)
    exact Grew.refl s _
  | cons pch rest ih =>
    obtain ⟨⟨-, hpch, -⟩, hlen⟩ := hrest pch List.mem_cons_self
    have htail := fun c hc => hrest c (List.mem_cons_of_mem _ hc)
    have hfind := findChild_eq_named (hinv.names path parent hparent) hpch
    cases hchild : named s parent pch with
    | some child =>
      have hwalk : Trie.walk (named s) s.root (path ++ [pch]) = some child := by
        rw [Trie.walk_concat, hparent, Option.bind_some, hchild]
      rw [mountLoop_of_some (hfind.trans hchild)] at hrun
      exact ih hinv hwalk htail hsupply hrun
    | none =>
      cases memory with
      | nil => simp [MountTree.mountLoop, hfind, hchild] at hrun
      | cons p memory =>
        obtain ⟨k, fakenode⟩ := p
        have hk := hsupply.unused k List.mem_cons_self
        obtain ⟨hnull, hfake⟩ := hsupply.free fakenode List.mem_cons_self
        have hne : parent ≠ k := fun heq => hk path (heq ▸ hparent)
        obtain ⟨s₁, hnew, hleaf⟩ := @newNode_newLeaf s parent k fakenode pch hne hlen
        rw [mountLoop_of_none (hfind.trans hchild) hnew] at hrun
        have hwalk : Trie.walk (named s₁) s₁.root (path ++ [pch]) = some k := by
          rw [hleaf.root, (hinv.grown hleaf hparent hchild hk).walk_eq hinv.distinct hparent,
            if_pos rfl]
        exact (grew_newLeaf hinv hleaf hparent hchild hk).trans
          (ih (hinv.newLeaf hleaf hparent hchild hk hpch hnull hfake) hwalk htail
            (hsupply.tail hinv hleaf hparent hchild) hrun)

end Grew

section Frame

variable {drivers : Addr → Option DriverNode} {s s' : State} {h : List (List Chars × Addr)}
  {P : List Chars → Prop} {m : Mount} {mounts : List Mount}

structure Frame (s s' : State) (m : Mount) : Prop where
  old : ∀ q k, Trie.walk (named s) s.root q = some k →
    Trie.walk (named s') s'.root q = some k ∧
      (q ≠ m.path → (s'.node k).value.node = (s.node k).value.node)
  new : ∀ q k, Trie.walk (named s') s'.root q = some k → Trie.walk (named s) s.root q = none →
    q ≠ m.path → (s'.node k).value.node ∈ m.memory.map Prod.snd

theorem Grew.frame {s₁ : State} {n : Addr} (hgrew : Grew s s₁ (m.memory.map Prod.snd))
    (hn : Trie.walk (named s₁) s₁.root m.path = some n)
    (hdistinct : Trie.Distinct (named s₁) s₁.root) : Frame s (s₁.setFsNode n m.node) m := by
  have hvalue : ∀ q k, Trie.walk (named s₁) s₁.root q = some k → q ≠ m.path →
      ((s₁.setFsNode n m.node).node k).value.node = (s₁.node k).value.node := by
    intro q k hk hq
    have hkn : k ≠ n := fun heq => hq (hdistinct q m.path n (heq ▸ hk) hn)
    simp [State.setFsNode, State.setNode, hkn]
  constructor
  · intro q k hk
    obtain ⟨hk₁, hold⟩ := hgrew.old q k hk
    rw [named_setFsNode]
    exact ⟨hk₁, fun hq => (hvalue q k hk₁ hq).trans hold⟩
  · intro q k hk hnone hq
    rw [named_setFsNode] at hk
    rw [hvalue q k hk hq]
    exact hgrew.new q k hk hnone

/-- A mount of a node keeps the invariant, and the rest of the tree. -/
theorem mount_frame (hinv : Inv s h (Present h)) (hmeets : Meets s m) (hnode : m.node ≠ null) :
    ∃ s', (vfsMount s m.node (pathOf m.path) m.memory).map Prod.fst = some s' ∧
      Inv s' ((m.path, m.node) :: h) (Present ((m.path, m.node) :: h)) ∧ Frame s s' m := by
  have hcomponents : ∀ c ∈ m.path, Component c := fun c hc => (hmeets.components c hc).1
  have hroot : Trie.walk (named s) s.root [] = some s.root := rfl
  obtain ⟨s', hmount, hinv'⟩ := hinv.mount hmeets
  have hhistory : history [m] ++ h = (m.path, m.node) :: h := by simp [history, hnode]
  rw [hhistory] at hinv'
  refine ⟨s', hmount, hinv', ?_⟩
  unfold vfsMount at hmount
  rw [if_neg hnode, if_neg (not_ne_iff.mpr (deref_pathOf m.path))] at hmount
  by_cases hlength : (pathOf m.path).length = 1
  · rw [if_pos hlength] at hmount
    obtain rfl := Option.some.inj hmount
    refine (Grew.refl s _).frame ?_ hinv.distinct
    rw [(length_pathOf_eq_one hcomponents).mp hlength]
    exact hroot
  · obtain ⟨s₁, n, hrun, hn, hinv₁⟩ :=
      hinv.mountLoop hroot hmeets.components hmeets.supply hmeets.enough
    rw [if_neg hlength, tokens_pathOf hcomponents, hrun] at hmount
    obtain rfl := Option.some.inj hmount
    exact (Grew.mountLoop hinv hroot hmeets.components hmeets.supply hrun).frame hn hinv₁.distinct

structure Known (drivers : Addr → Option DriverNode) (s : State) (h : List (List Chars × Addr)) :
    Prop where
  mounted : ∀ path a, latest h path = some a → (drivers a).isSome
  unmounted : ∀ path n, Trie.walk (named s) s.root path = some n → latest h path = none →
    drivers (s.node n).value.node = none

theorem known_vfsInit (hnull : drivers null = none) (node : Addr → TreeNode)
    (fsNode : Addr → FsNode) (root : Addr) : Known drivers (vfsInit node fsNode root) [] where
  mounted _ _ hlatest := by cases hlatest
  unmounted path n hn _ := by
    obtain ⟨-, rfl⟩ := walk_vfsInit node fsNode root hn
    simpa [vfsInit] using hnull

theorem Known.mount (hknown : Known drivers s h)
    (hown : Own drivers [m]) (hnode : m.node ≠ null) (hframe : Frame s s' m) :
    Known drivers s' ((m.path, m.node) :: h) := by
  constructor
  · intro path a hlatest
    rw [latest_cons] at hlatest
    split_ifs at hlatest
    · obtain rfl := Option.some.inj hlatest
      exact hown.mounted m List.mem_cons_self hnode
    · exact hknown.mounted path a hlatest
  · intro path n hn hlatest
    rw [latest_cons] at hlatest
    split_ifs at hlatest with hpath
    have hpath' : path ≠ m.path := fun heq => hpath heq.symm
    cases hold : Trie.walk (named s) s.root path with
    | none =>
      exact hown.fakes m List.mem_cons_self _ (hframe.new path n hn hold hpath')
    | some k =>
      obtain ⟨hk, hvalue⟩ := hframe.old path k hold
      obtain rfl := Option.some.inj (hk.symm.trans hn)
      rw [hvalue hpath']
      exact hknown.unmounted path k hold hlatest

theorem Own.cons (hown : Own drivers (m :: mounts)) : Own drivers [m] ∧ Own drivers mounts := by
  constructor
  · refine ⟨hown.at_null, hown.finddir, ?_, ?_⟩
    · exact fun k hk => hown.mounted k (List.mem_cons.mpr (.inl (List.mem_singleton.mp hk)))
    · exact fun k hk => hown.fakes k (List.mem_cons.mpr (.inl (List.mem_singleton.mp hk)))
  · refine ⟨hown.at_null, hown.finddir, ?_, ?_⟩
    · exact fun k hk => hown.mounted k (List.mem_cons_of_mem _ hk)
    · exact fun k hk => hown.fakes k (List.mem_cons_of_mem _ hk)

theorem known_run (hinv : Inv s h (Present h)) (hknown : Known drivers s h)
    (hown : Own drivers mounts) (hmeet : AllMeet s mounts) (hrun : s.run mounts = some s') :
    ∃ h', Inv s' h' (Present h') ∧ Known drivers s' h' := by
  induction mounts generalizing s h with
  | nil =>
    obtain rfl := Option.some.inj hrun
    exact ⟨h, hinv, hknown⟩
  | cons m mounts ih =>
    obtain ⟨hone, hrest⟩ := hown.cons
    by_cases hnode : m.node = null
    · -- nothing happens
      have hstep : (vfsMount s m.node (pathOf m.path) m.memory).map Prod.fst = some s := by
        simp [vfsMount, hnode]
      rw [State.run, List.foldlM_cons, hstep] at hrun
      exact ih hinv hknown hrest (hmeet.2 s hstep) hrun
    · obtain ⟨s₁, hstep, hinv₁, hframe⟩ := mount_frame hinv hmeet.1 hnode
      rw [State.run, List.foldlM_cons, hstep] at hrun
      exact ih hinv₁ (hknown.mount hone hnode hframe) hrest (hmeet.2 s₁ hstep) hrun

end Frame

section Lookup

variable {drivers : Addr → Option DriverNode} {s s' : State} {h : List (List Chars × Addr)}
  {m : Mount} {mounts : List Mount} {q : List Chars}

/-- Below a node of a driver, the tree of mountpoints does not matter. -/
theorem lands_driver (hown : Own drivers mounts) (s s' : State) (components : List Chars)
    {node : Addr} (hnode : node ≠ null → (drivers node).isSome) :
    lands drivers s node components = lands drivers s' node components ∧
      (lands drivers s node components ≠ null →
        (drivers (lands drivers s node components)).isSome) := by
  induction components generalizing node with
  | nil => exact ⟨rfl, hnode⟩
  | cons c components ih =>
    have hflags : ∀ node, (node ≠ null → (drivers node).isSome) → node ≠ null →
        nodeFlags drivers s node = nodeFlags drivers s' node := by
      intro node hsome hne
      obtain ⟨d, hd⟩ := Option.isSome_iff_exists.mp (hsome hne)
      simp [nodeFlags, hd]
    have hnext : fsFinddir drivers s node c = fsFinddir drivers s' node c ∧
        (fsFinddir drivers s node c ≠ null → (drivers (fsFinddir drivers s node c)).isSome) := by
      unfold fsFinddir
      by_cases hnull : node = null
      · simp [hnull]
      · obtain ⟨d, hd⟩ := Option.isSome_iff_exists.mp (hnode hnull)
        rw [← hflags node hnode hnull]
        split_ifs
        · simp only [nodeFinddir, hd, true_and]
          cases hf : d.finddir with
          | none => simp
          | some f => exact hown.finddir node d f hd hf c
        · simp
    unfold lands
    dsimp only
    rw [← hnext.1]
    have hfile : (fsFinddir drivers s node c ≠ null ∧
          nodeFlags drivers s' (fsFinddir drivers s node c) = vfsFile) ↔
        fsFinddir drivers s node c ≠ null ∧
          nodeFlags drivers s (fsFinddir drivers s node c) = vfsFile :=
      and_congr_right fun hne => by rw [hflags _ hnext.2 hne]
    simp only [hfile]
    split_ifs
    · exact ⟨rfl, hnext.2⟩
    · exact ih hnext.2

theorem found_pathOf (hq : ∀ c ∈ q, Component c) (s : State) :
    found s (pathOf q) = Trie.descend (named s) s.root q := by
  rw [found, components_pathOf hq]

theorem found_append (hq : ∀ c ∈ q, Component c) (s : State) :
    (found s (pathOf q)).1 ++ rest s (pathOf q) = q := by
  rw [found_append_rest, components_pathOf hq]

theorem walk_found (hq : ∀ c ∈ q, Component c) (s : State) :
    Trie.walk (named s) s.root (found s (pathOf q)).1 = some (found s (pathOf q)).2 := by
  rw [found_pathOf hq]
  exact Trie.walk_descend s.root q

theorem named_rest (hq : ∀ c ∈ q, Component c) {c : Chars} {components : List Chars}
    (hrest : rest s (pathOf q) = c :: components) : named s (found s (pathOf q)).2 c = none := by
  cases hchild : named s (found s (pathOf q)).2 c with
  | none => rfl
  | some k =>
    have hsplit := found_append hq s
    rw [hrest, List.append_cons] at hsplit
    have hwalk : Trie.walk (named s) s.root ((found s (pathOf q)).1 ++ [c]) = some k := by
      rw [Trie.walk_concat, walk_found hq, Option.bind_some, hchild]
    have hle := (Trie.prefix_descend ⟨components, hsplit⟩ hwalk).length_le
    rw [← found_pathOf hq, List.length_append, List.length_singleton] at hle
    omega

/-- Below a false directory, or nothing, there is nothing but tree nodes. -/
theorem lands_fake (hinv : Inv s h (Present h)) (hknown : Known drivers s h)
    (hq : ∀ c ∈ q, Component c) (hnone : drivers (mountNode s (pathOf q)) = none) :
    lands drivers s (mountNode s (pathOf q)) (rest s (pathOf q)) =
      if rest s (pathOf q) = [] then mountNode s (pathOf q) else null := by
  have hwalk := walk_found hq s
  rcases hinv.held _ _ hwalk with hlatest | ⟨-, ⟨-, hnull⟩ | ⟨hnull, name, -, hfake⟩⟩
  · have hsome := hknown.mounted _ _ hlatest
    change (drivers (mountNode s (pathOf q))).isSome at hsome
    simp [hnone] at hsome
  · change mountNode s (pathOf q) = null at hnull
    simp [hnull]
  · cases hrest : rest s (pathOf q) with
    | nil => rfl
    | cons c components =>
      have hc : 0 ∉ c := by
        refine (hq c ?_).2.1
        rw [← found_append hq s, hrest]
        simp
      have hfind : vfsFakeNodeFinddir s (mountNode s (pathOf q)) c = null := by
        change s.fsNode (mountNode s (pathOf q)) = _ at hfake
        unfold vfsFakeNodeFinddir
        rw [hfake]
        have hfree : (s.node (found s (pathOf q)).2).children.find?
            (fun child => strcmp c (s.name child) = 0) = none := by
          rw [List.find?_eq_none]
          intro child hchild
          have hname := named_eq_none (named_rest hq hrest) child hchild
          rw [decide_eq_true_eq, strcmp_eq_zero_iff hc (hinv.names _ _ hwalk child hchild)]
          exact hname.symm
        simp [hfree]
      have hfinddir : fsFinddir drivers s (mountNode s (pathOf q)) c = null := by
        unfold fsFinddir nodeFinddir
        split_ifs <;> simp [hnone, hfind]
      simp [lands, hfinddir]

theorem absent_iff (drivers : Addr → Option DriverNode) (s : State) (path : Chars) :
    Absent drivers s path ↔ lands drivers s (mountNode s path) (rest s path) = null := by
  constructor
  · rintro ⟨hfile, hnull⟩
    rw [lands_eq_finddirs drivers s hfile, hnull]
  · intro hlands
    have hfile : ¬ FileOnTheWay drivers s (mountNode s path) (rest s path) :=
      fun hfile => lands_ne_null drivers s hfile hlands
    exact ⟨hfile, (lands_eq_finddirs drivers s hfile).symm.trans hlands⟩

/-- What is found along a path is the longest prefix that is present. -/
theorem present_found (hinv : Inv s h (Present h)) (hq : ∀ c ∈ q, Component c) :
    Present h (found s (pathOf q)).1 :=
  (hinv.present _).mpr ⟨_, walk_found hq s⟩

theorem prefix_found (hinv : Inv s h (Present h)) (hq : ∀ c ∈ q, Component c) {t : List Chars}
    (ht : t <+: q) (hpresent : Present h t) : t <+: (found s (pathOf q)).1 := by
  obtain ⟨n, hn⟩ := (hinv.present t).mp hpresent
  rw [found_pathOf hq]
  exact Trie.prefix_descend ht hn

theorem present_iff_at (hinv : Inv s h (Present h)) (t : List Chars) :
    Present h t ↔ ∃ n, At s t n := by
  rw [hinv.present]
  exact exists_congr fun n => hinv.at_iff_walk.symm

theorem rest_eq_nil_iff (hq : ∀ c ∈ q, Component c) :
    rest s (pathOf q) = [] ↔ (found s (pathOf q)).1 = q := by
  have hsplit := found_append hq s
  constructor
  · intro hnil
    rwa [hnil, List.append_nil] at hsplit
  · intro hfound
    rw [hfound] at hsplit
    simpa using hsplit

theorem sameOpened_iff {h' : List (List Chars × Addr)} (hinv : Inv s h (Present h))
    (hinv' : Inv s' h' (Present h')) (hq : ∀ c ∈ q, Component c) :
    SameOpened drivers s s' (pathOf q) ↔
      (join slash (found s (pathOf q)).1).length < 2 ^ 31 ∧
        (join slash (found s' (pathOf q)).1).length < 2 ^ 31 ∧
        lands drivers s (mountNode s (pathOf q)) (rest s (pathOf q)) =
          lands drivers s' (mountNode s' (pathOf q)) (rest s' (pathOf q)) := by
  have h0 := zero_notMem_pathOf hq
  have hbehind : ∀ s, components slash (remainder s (pathOf q)) = rest s (pathOf q) :=
    fun s => remainder_pathOf hq
  unfold SameOpened
  simp only [kopen_eq drivers hinv h0 (deref_pathOf q), kopen_eq drivers hinv' h0 (deref_pathOf q),
    hbehind]
  constructor
  · rintro ⟨result, after, after', hbefore, hafter⟩
    split_ifs at hbefore hafter with hdepth hdepth'
    obtain ⟨hresult, -⟩ := Prod.mk.inj (Option.some.inj hbefore)
    obtain ⟨hresult', -⟩ := Prod.mk.inj (Option.some.inj hafter)
    exact ⟨hdepth, hdepth', hresult.trans hresult'.symm⟩
  · rintro ⟨hdepth, hdepth', hsame⟩
    exact ⟨_, _, _, if_pos hdepth, by rw [if_pos hdepth', hsame]⟩

/-- A path that goes through no new tree node opens the same. -/
theorem lands_old (hown : Own drivers mounts) (hinv : Inv s h (Present h))
    (hknown : Known drivers s h)
    (hinv' : Inv s' ((m.path, m.node) :: h) (Present ((m.path, m.node) :: h)))
    (hknown' : Known drivers s' ((m.path, m.node) :: h)) (hframe : Frame s s' m)
    (hq : ∀ c ∈ q, Component c) (hout : ¬ m.path <+: q) (hold : ¬ ThroughNew s m.path q) :
    lands drivers s (mountNode s (pathOf q)) (rest s (pathOf q)) =
      lands drivers s' (mountNode s' (pathOf q)) (rest s' (pathOf q)) := by
  have hbefore : (found s (pathOf q)).1 <+: q := ⟨_, found_append hq s⟩
  have hbefore' : (found s' (pathOf q)).1 <+: q := ⟨_, found_append hq s'⟩
  have hpresent' : Present h (found s' (pathOf q)).1 := by
    have hgrown := present_found hinv' hq
    rw [present_cons] at hgrown
    rcases hgrown with hpresent | hway
    · exact hpresent
    · rw [present_iff_at hinv]
      by_contra hnone
      exact hold ⟨_, hbefore', hway, not_exists.mp hnone⟩
  have hsame : (found s' (pathOf q)).1 = (found s (pathOf q)).1 := by
    have hle := prefix_found hinv hq hbefore' hpresent'
    have hge := prefix_found hinv' hq hbefore
        ((present_cons h _ _ _).mpr (.inl (present_found hinv hq)))
    exact hle.eq_of_length_le hge.length_le
  obtain ⟨hwalk, hvalue⟩ := hframe.old _ _ (walk_found hq s)
  have hnode : (found s' (pathOf q)).2 = (found s (pathOf q)).2 := by
    have hwalk' := walk_found hq s'
    rw [hsame, hwalk] at hwalk'
    exact (Option.some.inj hwalk').symm
  have hmount : mountNode s' (pathOf q) = mountNode s (pathOf q) := by
    rw [mountNode, hnode]
    exact hvalue fun heq => hout (heq ▸ hbefore)
  have hrest : rest s' (pathOf q) = rest s (pathOf q) := by
    rw [rest, rest, hsame]
  by_cases hdriver : (drivers (mountNode s (pathOf q))).isSome
  · rw [hmount, hrest]
    exact (lands_driver hown s s' _ fun _ => hdriver).1
  · have hnone := Option.not_isSome_iff_eq_none.mp hdriver
    rw [lands_fake hinv hknown hq hnone, lands_fake hinv' hknown' hq (hmount ▸ hnone),
        hmount, hrest]

/-- A path that goes through a new tree node comes to a new false directory. -/
theorem lands_new (hown : Own drivers mounts) (hinv : Inv s h (Present h))
    (hknown : Known drivers s h)
    (hinv' : Inv s' ((m.path, m.node) :: h) (Present ((m.path, m.node) :: h)))
    (hknown' : Known drivers s' ((m.path, m.node) :: h))
    (hq : ∀ c ∈ q, Component c) (hout : ¬ m.path <+: q) (hnew : ThroughNew s m.path q) :
    lands drivers s (mountNode s (pathOf q)) (rest s (pathOf q)) =
        lands drivers s' (mountNode s' (pathOf q)) (rest s' (pathOf q)) ↔
      ¬ q <+: m.path ∧ Absent drivers s (pathOf q) := by
  obtain ⟨t, htq, htp, hnone⟩ := hnew
  have hbefore' : (found s' (pathOf q)).1 <+: q := ⟨_, found_append hq s'⟩
  have hdeep : t <+: (found s' (pathOf q)).1 :=
    prefix_found hinv' hq htq ((present_cons h _ _ _).mpr (.inr htp))
  have hfresh : ¬ Present h (found s' (pathOf q)).1 := by
    rw [hinv.present]
    rintro ⟨k, hk⟩
    obtain ⟨l, hl⟩ := Trie.exists_walk_of_prefix hdeep hk
    exact hnone l (hinv.at_iff_walk.mpr hl)
  have hway : (found s' (pathOf q)).1 <+: m.path :=
    ((present_cons h _ _ _).mp (present_found hinv' hq)).resolve_left hfresh
  have hlatest : latest ((m.path, m.node) :: h) (found s' (pathOf q)).1 = none := by
    have hne : m.path ≠ (found s' (pathOf q)).1 := by
      intro heq
      exact hout (heq ▸ hbefore')
    rw [latest_cons, if_neg hne]
    cases hold : latest h (found s' (pathOf q)).1 with
    | none => rfl
    | some a => exact absurd (hinv.known _ a hold) hfresh
  have hundriven : drivers (mountNode s' (pathOf q)) = none :=
    hknown'.unmounted _ _ (walk_found hq s') hlatest
  have hfake : mountNode s' (pathOf q) ≠ null := by
    rcases hinv'.held _ _ (walk_found hq s') with hheld | ⟨-, ⟨hnil, -⟩ | ⟨hheld, -⟩⟩
    · rw [hlatest] at hheld
      cases hheld
    · exact absurd (.inl hnil) hfresh
    · exact hheld
  have hends : rest s' (pathOf q) = [] ↔ q <+: m.path := by
    rw [rest_eq_nil_iff hq]
    constructor
    · intro heq
      rwa [heq] at hway
    · intro hqp
      exact hbefore'.eq_of_length_le
        (prefix_found hinv' hq (List.prefix_refl q)
            ((present_cons h _ _ _).mpr (.inr hqp))).length_le
  rw [lands_fake hinv' hknown' hq hundriven, absent_iff]
  split_ifs with hnil
  · refine iff_of_false ?_ fun hboth => hboth.1 (hends.mp hnil)
    by_cases hdriver : (drivers (mountNode s (pathOf q))).isSome
    · intro heq
      have hsome := (lands_driver hown s s' (rest s (pathOf q)) fun _ => hdriver).2
      rw [heq, hundriven] at hsome
      exact absurd (hsome hfake) (by simp)
    · rw [lands_fake hinv hknown hq (Option.not_isSome_iff_eq_none.mp hdriver)]
      have hrest : rest s (pathOf q) ≠ [] := by
        intro heq
        have hpresent := present_found hinv hq
        rw [(rest_eq_nil_iff hq).mp heq] at hpresent
        rw [(rest_eq_nil_iff hq).mp hnil] at hfresh
        exact hfresh hpresent
      rw [if_neg hrest]
      exact hfake.symm
  · exact ⟨fun heq => ⟨fun hqp => hnil (hends.mpr hqp), heq⟩, fun hboth => hboth.2⟩

/-- After a mount, the depths of all prefixes of a path that are present fit an `int`, or the one
that is found does not. -/
theorem depth_iff (hinv : Inv s h (Present h))
    (hinv' : Inv s' ((m.path, m.node) :: h) (Present ((m.path, m.node) :: h)))
    (hq : ∀ c ∈ q, Component c) :
    (join slash (found s' (pathOf q)).1).length < 2 ^ 31 ↔
      ∀ t, t <+: q → (t <+: m.path ∨ ∃ n, At s t n) → (join slash t).length < 2 ^ 31 := by
  have hpresent : ∀ t, (t <+: m.path ∨ ∃ n, At s t n) ↔ Present ((m.path, m.node) :: h) t := by
    intro t
    rw [present_cons, ← present_iff_at hinv, or_comm]
  simp only [hpresent]
  constructor
  · intro hdepth t ht htpresent
    have hbefore := join_prefix <| prefix_found hinv' hq ht htpresent
    have hle := hbefore.length_le
    omega
  · exact fun h => h _ ⟨_, found_append hq s'⟩ (present_found hinv' hq)

end Lookup

section Mounted

variable {drivers : Addr → Option DriverNode} {node : Addr → TreeNode} {fsNode : Addr → FsNode}
  {root : Addr} {mounts : List Mount} {m : Mount} {q : List Chars} {s : State}

theorem mount_same_outside_iff (hmeet : AllMeet (vfsInit node fsNode root) mounts)
    (hrun : (vfsInit node fsNode root).run mounts = some s) (hmeets : Meets s m)
    (hown : Own drivers (mounts ++ [m])) (hnode : m.node ≠ null)
    (hq : ∀ c ∈ q, Component c) (hout : ¬ m.path <+: q) :
    ∃ s', (vfsMount s m.node (pathOf m.path) m.memory).map Prod.fst = some s' ∧
      (SameOpened drivers s s' (pathOf q) ↔
        (∀ t, t <+: q → (t <+: m.path ∨ ∃ n, At s t n) → (join slash t).length < 2 ^ 31) ∧
        (ThroughNew s m.path q → ¬ q <+: m.path ∧ Absent drivers s (pathOf q))) := by
  have hbefore : Own drivers mounts := ⟨hown.at_null, hown.finddir,
    fun k hk => hown.mounted k (List.mem_append_left _ hk),
    fun k hk => hown.fakes k (List.mem_append_left _ hk)⟩
  have hlast : Own drivers [m] := ⟨hown.at_null, hown.finddir,
    fun k hk => hown.mounted k (List.mem_append_right _ hk),
    fun k hk => hown.fakes k (List.mem_append_right _ hk)⟩
  obtain ⟨h, hinv, hknown⟩ := known_run (inv_vfsInit node fsNode root)
    (known_vfsInit hown.at_null node fsNode root) hbefore hmeet hrun
  obtain ⟨s', hmount, hinv', hframe⟩ := mount_frame hinv hmeets hnode
  have hknown' := hknown.mount hlast hnode hframe
  refine ⟨s', hmount, ?_⟩
  have hdepth : (join slash (found s' (pathOf q)).1).length < 2 ^ 31 →
      (join slash (found s (pathOf q)).1).length < 2 ^ 31 := by
    intro hafter
    have hpresent := (present_cons h m.path _ m.node).mpr (.inl (present_found hinv hq))
    have hbefore := join_prefix <| prefix_found hinv' hq ⟨_, found_append hq s⟩ hpresent
    have hle := hbefore.length_le
    omega
  rw [sameOpened_iff hinv hinv' hq, ← depth_iff hinv hinv' hq, ← and_assoc,
    and_iff_right_of_imp hdepth]
  refine and_congr_right fun _ => ?_
  by_cases hnew : ThroughNew s m.path q
  · rw [lands_new hlast hinv hknown hinv' hknown' hq hout hnew]
    exact (imp_iff_right hnew).symm
  · exact iff_of_true (lands_old hlast hinv hknown hinv' hknown' hframe hq hout hnew)
      fun h => absurd h hnew

end Mounted

section Example

/-- A mount at `/d/n`, where the filesystem at the root has a directory `d`. -/
def deepMount : Mount := ⟨0x7010, [[100], [110]], [(0x100, 0x200), (0x110, 0x210)]⟩

theorem own_files : Own files ([rootMount] ++ [deepMount]) where
  at_null := rfl
  finddir node d f hd hf name hname := by
    unfold files at hd
    split_ifs at hd
    · obtain rfl := Option.some.inj hd
      obtain rfl := Option.some.inj hf
      dsimp only at hname ⊢
      split_ifs at hname ⊢ <;> simp [files] at hname ⊢
    · obtain rfl := Option.some.inj hd
      obtain rfl := Option.some.inj hf
      dsimp only at hname ⊢
      split_ifs at hname ⊢ <;> simp [files] at hname ⊢
    · obtain rfl := Option.some.inj hd
      cases hf
  mounted := by
    simp [rootMount, deepMount, files]
  fakes := by
    simp only [rootMount, deepMount, List.singleton_append, List.forall_mem_cons, List.map_nil,
      List.map_cons, List.not_mem_nil, false_implies, implies_true, and_true, true_and]
    exact ⟨rfl, rfl⟩

theorem run_rootMount :
    newTree.run [rootMount] = some (newTree.setFsNode newTree.root 0x5000) := rfl

theorem meets_deepMount : Meets (newTree.setFsNode newTree.root 0x5000) deepMount := by
  apply @meets_of_closed _ [0x10] <;> decide +kernel

/-- What is in another directory stays. -/
theorem mount_same_outside_other :
    ∃ s', (vfsMount (newTree.setFsNode newTree.root 0x5000) deepMount.node (pathOf deepMount.path)
        deepMount.memory).map Prod.fst = some s' ∧
      (SameOpened files (newTree.setFsNode newTree.root 0x5000) s' (pathOf [[101]]) ↔
        (∀ t, t <+: [[101]] →
          (t <+: deepMount.path ∨ ∃ n, At (newTree.setFsNode newTree.root 0x5000) t n) →
          (join slash t).length < 2 ^ 31) ∧
        (ThroughNew (newTree.setFsNode newTree.root 0x5000) deepMount.path [[101]] →
          ¬ [[101]] <+: deepMount.path ∧
            Absent files (newTree.setFsNode newTree.root 0x5000) (pathOf [[101]]))) :=
  mount_same_outside_iff allMeet_rootMount run_rootMount meets_deepMount own_files (by decide)
    (by decide) (by decide)

/-- The file `/d/f` is hidden by the mount at `/d/n`. -/
theorem file_hidden :
    Meets (newTree.setFsNode newTree.root 0x5000) deepMount ∧
    (kopen files (newTree.setFsNode newTree.root 0x5000) (pathOf [[100], [102]])).map Prod.fst =
      some 0x7010 ∧
    ∃ s', (vfsMount (newTree.setFsNode newTree.root 0x5000) deepMount.node (pathOf deepMount.path)
        deepMount.memory).map Prod.fst = some s' ∧
      (kopen files s' (pathOf [[100], [102]])).map Prod.fst = some null ∧
      ¬ SameOpened files (newTree.setFsNode newTree.root 0x5000) s' (pathOf [[100], [102]]) := by
  have hbefore : (kopen files (newTree.setFsNode newTree.root 0x5000)
      (pathOf [[100], [102]])).map Prod.fst = some 0x7010 := by decide +kernel
  have hafter : ∃ s', (vfsMount (newTree.setFsNode newTree.root 0x5000) deepMount.node
      (pathOf deepMount.path) deepMount.memory).map Prod.fst = some s' ∧
      (kopen files s' (pathOf [[100], [102]])).map Prod.fst = some null :=
    ⟨_, rfl, by decide +kernel⟩
  obtain ⟨s', hmount, hnull⟩ := hafter
  refine ⟨meets_deepMount, hbefore, s', hmount, hnull, ?_⟩
  rintro ⟨result, after, after', hresult, hresult'⟩
  rw [hresult] at hbefore
  rw [hresult'] at hnull
  simp only [Option.map_some, Option.some.injEq] at hbefore hnull
  exact absurd (hbefore.symm.trans hnull) (by decide)

end Example

end ReduceOS.MountFrame
