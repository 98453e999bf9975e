import ReduceOS.MountTree

/-!
`kopen` of fs/vfs.c. The nodes of the drivers are a parameter: what their `finddir` functions return
for a name. All other nodes are placeholders, which show the children of a tree node. `kopen` is
undefined, and the result is `none`, if the `int` that counts the characters down to the mount
overflows or leads out of the path.
-/
namespace ReduceOS.Kopen

open Machine CString MountTree

def vfsFile : BitVec 64 := 0x01

/-- A node of a driver. What `finddir` returns is a node, or `NULL`. -/
structure DriverNode where
  flags : BitVec 64
  finddir : Option (Chars → Addr)

section Source

variable (drivers : Addr → Option DriverNode) (s : State)

def nodeFlags (node : Addr) : BitVec 64 :=
  match drivers node with
  | some d => d.flags
  | none => (s.fsNode node).flags

def vfsFakeNodeFinddir (node : Addr) (name : Chars) : Addr :=
  let child := (s.node (s.fsNode node).dev).children.find? fun child =>
    strcmp name (s.name child) = 0
  match child with
  | some child => (s.node child).value.node
  | none => null

/-- `node->finddir(node, path)`, or `NULL` without such a function. -/
def nodeFinddir (node : Addr) (path : Chars) : Addr :=
  match drivers node with
  | some d => (d.finddir.map (· path)).getD null
  | none => vfsFakeNodeFinddir s node path

def fsFinddir (node : Addr) (path : Chars) : Addr :=
  if node = null then null
  else if nodeFlags drivers s node &&& vfsDirectory ≠ 0 then nodeFinddir drivers s node path
  else null

def kopenRelative (currentNode : Addr) (path : Chars) : Addr :=
  if currentNode = null then null else fsFinddir drivers s currentNode path

/-- The loop of `kopen` over the tokens of the remainder: the node at its end, and how often
`strtok_r` has been called. -/
def kopenLoop : List Chars → Addr → ℕ → Addr × ℕ
  | [], node, calls => (node, calls)
  | pch :: pchs, node, calls =>
    if node = null then (node, calls)
    else
      let node := kopenRelative drivers s node pch
      if node ≠ null ∧ nodeFlags drivers s node = vfsFile then (node, calls)
      else kopenLoop pchs node (calls + 1)

/-- The depth that the loop of `vfs_getMountpoint` counts, as a number. -/
def lookupDepth : List Chars → Addr → ℕ
  | [], _ => 0
  | pch :: path, last =>
    match findChild s last pch with
    | none => 0
    | some child => pch.length + 1 + lookupDepth path child

def pathOffset (path : Chars) : Option Chars :=
  let depth := lookupDepth s (tokens slash (path.length + 1) (some path) none) s.root
  if depth < 2 ^ 31 ∧ depth ≤ path.length then some (path.drop (vfsGetMountpoint s path).2.toNat)
  else none

def cutAt (path : Chars) (ends : List Chars) : Chars :=
  ends.foldl (fun path rest => path.set (path.length - rest.length) 0) path

/-- `kopen`: the node that is cloned and opened, or `NULL`, and the bytes of the path afterwards. -/
def kopen (path : Chars) : Option (Addr × Chars) := do
  let pathOffset ← pathOffset s path
  let node := (vfsGetMountpoint s path).1
  if node = null then some (null, path)
  else if deref pathOffset = 0 then some (node, path)
  else
    let pchs := tokens slash (pathOffset.length + 1) (some pathOffset) none
    let (node, calls) := kopenLoop drivers s pchs node 1
    some (node, cutAt path (overwritten slash calls (some pathOffset) none))

end Source

section Reference

variable (drivers : Addr → Option DriverNode) (s : State)

def finddirs (node : Addr) (components : List Chars) : Addr :=
  components.foldl (fsFinddir drivers s) node

def FileOnTheWay (node : Addr) (components : List Chars) : Prop :=
  ∃ before after, components = before ++ after ∧ before ≠ [] ∧ after ≠ [] ∧
    finddirs drivers s node before ≠ null ∧
    nodeFlags drivers s (finddirs drivers s node before) = vfsFile

structure MountOf (components p : List Chars) (n : Addr) : Prop where
  isPrefix : p <+: components
  at_node : At s p n
  longest : ∀ q m, q <+: components → At s q m → q <+: p

/-- Going down some components from a node resolves to a node, unless there is a plain file on the
way. -/
structure Resolves (node : Addr) (components : List Chars) (result : Addr) : Prop where
  file : FileOnTheWay drivers s node components → result = null
  found : ¬ FileOnTheWay drivers s node components → result = finddirs drivers s node components

/-- Where going down some components ends: at the first plain file, or else at the last one. -/
def lands (node : Addr) : List Chars → Addr
  | [] => node
  | c :: components =>
    let next := fsFinddir drivers s node c
    if next ≠ null ∧ nodeFlags drivers s next = vfsFile then next else lands next components

def Leads (path : Chars) (node : Addr) (rest : List Chars) : Prop :=
  ∃ p n, components slash path = p ++ rest ∧ MountOf s (components slash path) p n ∧
    (s.node n).value.node = node

def collapse (path : Chars) : Chars := pathOf (components slash path)

def ResolvesTo (path : Chars) : Prop :=
  ∃ result after node rest, kopen drivers s path = some (result, after) ∧
    Leads s path node rest ∧ Resolves drivers s node rest result

/-- `kopen` finds the same along the collapsed path, and leaves the path as it is. -/
def SameCollapsed (path : Chars) : Prop :=
  ∃ result after, kopen drivers s path = some (result, path) ∧
    kopen drivers s (collapse path) = some (result, after)

end Reference

section Loop

variable (drivers : Addr → Option DriverNode) (s : State)

@[simp] theorem fsFinddir_null (path : Chars) : fsFinddir drivers s null path = null := by
  simp [fsFinddir]

@[simp] theorem finddirs_null (components : List Chars) :
    finddirs drivers s null components = null := by
  induction components with
  | nil => rfl
  | cons c components ih => simpa [finddirs] using ih

theorem kopenRelative_eq (node : Addr) (path : Chars) :
    kopenRelative drivers s node path = fsFinddir drivers s node path := by
  unfold kopenRelative
  split_ifs with hnull
  · simp [hnull]
  · rfl

theorem finddirs_cons (node : Addr) (c : Chars) (components : List Chars) :
    finddirs drivers s node (c :: components) =
      finddirs drivers s (fsFinddir drivers s node c) components := rfl

/-- The first component leads to a plain file, or a later one does. -/
theorem fileOnTheWay_cons (node : Addr) (c : Chars) (components : List Chars) :
    FileOnTheWay drivers s node (c :: components) ↔
      components ≠ [] ∧ fsFinddir drivers s node c ≠ null ∧
          nodeFlags drivers s (fsFinddir drivers s node c) = vfsFile ∨
        FileOnTheWay drivers s (fsFinddir drivers s node c) components := by
  constructor
  · rintro ⟨before, after, heq, hbefore, hafter, hnull, hfile⟩
    cases before with
    | nil => exact absurd rfl hbefore
    | cons b before =>
      obtain ⟨rfl, rfl⟩ := List.cons.inj heq
      by_cases hnil : before = []
      · subst hnil
        exact .inl ⟨hafter, hnull, hfile⟩
      · exact .inr ⟨before, after, rfl, hnil, hafter, hnull, hfile⟩
  · rintro (⟨hne, hnull, hfile⟩ | ⟨before, after, rfl, -, hafter, hnull, hfile⟩)
    · exact ⟨[c], components, rfl, by simp, hne, hnull, hfile⟩
    · exact ⟨c :: before, after, rfl, by simp, hafter, hnull, hfile⟩

@[simp] theorem lands_null (components : List Chars) : lands drivers s null components = null := by
  induction components with
  | nil => rfl
  | cons c components ih => simpa [lands] using ih

theorem kopenLoop_eq (pchs : List Chars) (node : Addr) (calls : ℕ) :
    (kopenLoop drivers s pchs node calls).1 = lands drivers s node pchs := by
  induction pchs generalizing node calls with
  | nil => rfl
  | cons pch pchs ih =>
    unfold kopenLoop lands
    by_cases hnode : node = null
    · simp [hnode]
    · simp only [hnode, if_false, kopenRelative_eq]
      split_ifs
      · rfl
      · exact ih _ _

/-- Going down ends in a plain file that is on the way. -/
theorem lands_ne_null {node : Addr} {pchs : List Chars}
    (hfile : FileOnTheWay drivers s node pchs) : lands drivers s node pchs ≠ null := by
  induction pchs generalizing node with
  | nil =>
    obtain ⟨before, after, heq, hbefore, -⟩ := hfile
    exact absurd (List.append_eq_nil_iff.mp heq.symm).1 hbefore
  | cons pch pchs ih =>
    rw [fileOnTheWay_cons] at hfile
    unfold lands
    dsimp only
    split_ifs with hnext
    · exact hnext.1
    · rcases hfile with ⟨-, hlast⟩ | hrest
      · exact absurd hlast hnext
      · exact ih hrest

/-- Going down ends where `fs_finddir` leads to. -/
theorem lands_eq_finddirs {node : Addr} {pchs : List Chars}
    (hfile : ¬ FileOnTheWay drivers s node pchs) :
    lands drivers s node pchs = finddirs drivers s node pchs := by
  induction pchs generalizing node with
  | nil => rfl
  | cons pch pchs ih =>
    rw [fileOnTheWay_cons, not_or] at hfile
    unfold lands
    dsimp only
    rw [finddirs_cons]
    split_ifs with hnext
    · have hlast : pchs = [] := by
        by_contra hne
        exact hfile.1 ⟨hne, hnext⟩
      rw [hlast]
      rfl
    · exact ih hfile.2

theorem resolves_lands_iff (node : Addr) (pchs : List Chars) :
    Resolves drivers s node pchs (lands drivers s node pchs) ↔
      ¬ FileOnTheWay drivers s node pchs := by
  constructor
  · exact fun h hfile => lands_ne_null drivers s hfile (h.file hfile)
  · exact fun hfile => ⟨fun h => absurd h hfile, lands_eq_finddirs drivers s⟩

end Loop

section Depth

variable {s : State} {h : List (List Chars × Addr)} {P : List Chars → Prop} {path : Chars}

/-- The prefix that the loop of `vfs_getMountpoint` goes down, and the tree node it comes to. -/
def found (s : State) (path : Chars) : List Chars × Addr :=
  Trie.descend (named s) s.root (components slash path)

theorem component_of_mem (h0 : 0 ∉ path) : ∀ c ∈ components slash path, Component c := by
  intro c hc
  obtain ⟨hne, hslash, hmem⟩ := mem_components hc
  exact ⟨hne, fun h => h0 (hmem 0 h), hslash⟩

theorem tokens_path (h0 : 0 ∉ path) :
    tokens slash (path.length + 1) (some path) none = components slash path := by
  have hlength := length_components_le slash path
  exact tokens_eq (by decide) path h0 (by omega) rfl

theorem lookupDepth_eq (hinv : Inv s h P) {p : List Chars} {n : Addr}
    (hn : Trie.walk (named s) s.root p = some n) {components : List Chars}
    (hcomponents : ∀ c ∈ components, Component c) :
    lookupDepth s components n =
      (join slash (Trie.descend (named s) n components).1).length := by
  induction components generalizing p n with
  | nil => rfl
  | cons c components ih =>
    obtain ⟨-, hc, -⟩ := hcomponents c List.mem_cons_self
    rw [lookupDepth, findChild_eq_named (hinv.names p n hn) hc, Trie.descend]
    cases hchild : named s n c with
    | none => rfl
    | some m =>
      have hm : Trie.walk (named s) s.root (p ++ [c]) = some m := by
        rw [Trie.walk_concat, hn, Option.bind_some, hchild]
      dsimp only
      rw [ih hm fun d hd => hcomponents d (List.mem_cons_of_mem _ hd), join_cons,
        List.length_cons, List.length_append]
      omega

/-- Components and their separators are no longer than an absolute path. -/
theorem length_join_components (str : Chars) :
    (join slash (components slash str)).length ≤ str.length + 1 := by
  induction str using components_induction slash with
  | nil => simp
  | separator rest ih =>
    rw [components_sep, List.length_cons]
    omega
  | single token hne hmem => simp [components_single hne hmem]
  | append token rest hne hmem ih =>
    rw [components_append_sep, components_single hne hmem]
    simp only [List.singleton_append, join_cons, List.length_cons, List.length_append]
    omega

theorem length_join_prefix (habsolute : deref path = slash) {p : List Chars}
    (hp : p <+: components slash path) : (join slash p).length ≤ path.length := by
  cases path with
  | nil => exact absurd habsolute (by decide)
  | cons c rest =>
    obtain rfl : c = slash := habsolute
    have hbefore := join_prefix hp
    have hjoin := hbefore.length_le
    have hrest := length_join_components rest
    rw [components_sep] at hjoin
    rw [List.length_cons]
    omega

def remainder (s : State) (path : Chars) : Chars :=
  path.drop (join slash (found s path).1).length

theorem pathOffset_eq (hinv : Inv s h P) (h0 : 0 ∉ path) (habsolute : deref path = slash) :
    pathOffset s path =
      if (join slash (found s path).1).length < 2 ^ 31 then some (remainder s path) else none := by
  have hcomponents := component_of_mem h0
  have hroot : Trie.walk (named s) s.root [] = some s.root := rfl
  have hdepth := lookupDepth_eq hinv hroot hcomponents
  have hle := length_join_prefix habsolute (@Trie.descend_prefix _ _ (named s) s.root
    (components slash path))
  have hloop := hinv.lookupLoop hroot hcomponents 0
  unfold pathOffset vfsGetMountpoint remainder found
  simp only [tokens_path h0, hdepth, hloop, hle, and_true]
  split_ifs with hshort
  · simp only [BitVec.ofNat_eq_ofNat, BitVec.zero_add, toNat_signExtend_ofNat hshort]
  · rfl

def mountNode (s : State) (path : Chars) : Addr := (s.node (found s path).2).value.node

theorem mountNode_eq (hinv : Inv s h P) (h0 : 0 ∉ path) :
    (vfsGetMountpoint s path).1 = mountNode s path := by
  have hroot : Trie.walk (named s) s.root [] = some s.root := rfl
  unfold vfsGetMountpoint
  rw [tokens_path h0, hinv.lookupLoop hroot (component_of_mem h0)]
  rfl

theorem mountOf_found (hinv : Inv s h P) (components : List Chars) :
    MountOf s components (Trie.descend (named s) s.root components).1
      (Trie.descend (named s) s.root components).2 where
  isPrefix := Trie.descend_prefix s.root components
  at_node := hinv.at_iff_walk.mpr (Trie.walk_descend s.root components)
  longest _ _ hq hat := Trie.prefix_descend hq (hinv.at_iff_walk.mp hat)

theorem MountOf.unique (hinv : Inv s h P) {components p q : List Chars} {n m : Addr}
    (hp : MountOf s components p n) (hq : MountOf s components q m) : p = q ∧ n = m := by
  obtain rfl : p = q :=
    (hq.longest p n hp.isPrefix hp.at_node).eq_of_length_le
      (hp.longest q m hq.isPrefix hq.at_node).length_le
  have hn := hinv.at_iff_walk.mp hp.at_node
  have hm := hinv.at_iff_walk.mp hq.at_node
  exact ⟨rfl, Option.some.inj (hn.symm.trans hm)⟩

def rest (s : State) (path : Chars) : List Chars :=
  (components slash path).drop (found s path).1.length

theorem found_append_rest (s : State) (path : Chars) :
    (found s path).1 ++ rest s path = components slash path :=
  List.prefix_iff_eq_append.mp (Trie.descend_prefix s.root (components slash path))

/-- A path leads from the mount that is found along the components behind it. -/
theorem leads_iff (hinv : Inv s h P) (node : Addr) (components : List Chars) :
    Leads s path node components ↔ node = mountNode s path ∧ components = rest s path := by
  have hfound := mountOf_found hinv (CString.components slash path)
  constructor
  · rintro ⟨p, n, hsplit, hmount, rfl⟩
    obtain ⟨rfl, rfl⟩ := hmount.unique hinv hfound
    have hrest : (found s path).1 ++ rest s path = (found s path).1 ++ components :=
      (found_append_rest s path).trans hsplit
    exact ⟨rfl, (List.append_cancel_left hrest).symm⟩
  · rintro ⟨rfl, rfl⟩
    exact ⟨_, _, (found_append_rest s path).symm, hfound, rfl⟩

end Depth

section Cut

variable {str : Chars}

/-- A string with separators only in front of its one component, if it has one. -/
def Unsplit (str : Chars) : Prop :=
  ∃ k token, str = List.replicate k slash ++ token ∧ slash ∉ token

theorem overwritten_congr (n : ℕ) {first lasts first' lasts' : Option Chars}
    (h : strtokR first slash lasts = strtokR first' slash lasts') :
    overwritten slash n first lasts = overwritten slash n first' lasts' := by
  cases n with
  | zero => rfl
  | succ n => rw [overwritten, overwritten, h]

theorem unsplit_sep (str : Chars) : Unsplit (slash :: str) ↔ Unsplit str := by
  constructor
  · rintro ⟨k, token, heq, hmem⟩
    cases k with
    | zero =>
      rw [List.replicate_zero, List.nil_append] at heq
      exact absurd (heq ▸ List.mem_cons_self) hmem
    | succ k => exact ⟨k, token, (List.cons.inj heq).2, hmem⟩
  · rintro ⟨k, token, rfl, hmem⟩
    exact ⟨k + 1, token, rfl, hmem⟩

/-- `strtok_r` overwrites a separator unless the string is one component. -/
theorem overwritten_eq_nil_iff (h0 : 0 ∉ str) {n : ℕ} (hn : n ≠ 0) :
    overwritten slash n (some str) none = [] ↔ Unsplit str := by
  obtain ⟨n, rfl⟩ := Nat.exists_eq_add_one_of_ne_zero hn
  induction str using components_induction slash with
  | nil => exact iff_of_true (by simp [overwritten, strtokR, deref]) ⟨0, [], rfl, by simp⟩
  | separator rest ih =>
    rw [List.mem_cons, not_or] at h0
    rw [unsplit_sep, overwritten_congr _ (strtokR_cons rest _ _ (some rest) none rfl rfl)]
    exact ih h0.2
  | single token hne hmem =>
    refine iff_of_true ?_ ⟨0, token, rfl, hmem⟩
    rw [overwritten, strtokR_last hne h0 hmem rfl]
  | append token rest hne hmem ih =>
    simp only [List.mem_append, not_or] at h0
    rw [overwritten, strtokR_append (by decide) hne h0.1 hmem rfl]
    refine iff_of_false (by simp) ?_
    rintro ⟨k, token', heq, hmem'⟩
    cases k with
    | zero =>
      rw [List.replicate_zero, List.nil_append] at heq
      exact hmem' (heq ▸ List.mem_append_right _ List.mem_cons_self)
    | succ k =>
      cases token with
      | nil => exact hne rfl
      | cons c token =>
        obtain rfl := (List.cons.inj heq).1
        exact hmem List.mem_cons_self

theorem zero_mem_set {path : Chars} (i : ℕ) (h0 : 0 ∈ path) : 0 ∈ path.set i 0 := by
  by_cases hi : i < path.length
  · exact List.mem_set hi 0
  · rwa [List.set_eq_of_length_le (by omega)]

theorem zero_mem_cutAt {path : Chars} (ends : List Chars) (h0 : 0 ∈ path) :
    0 ∈ cutAt path ends := by
  induction ends generalizing path with
  | nil => exact h0
  | cons part ends ih => exact ih (zero_mem_set _ h0)

/-- A path is left as it is if no separator is overwritten. -/
theorem cutAt_eq_iff {path : Chars} (h0 : 0 ∉ path) {ends : List Chars}
    (hends : ∀ part ∈ ends, part ≠ [] ∧ part <:+ path) : cutAt path ends = path ↔ ends = [] := by
  constructor
  · intro heq
    cases ends with
    | nil => rfl
    | cons part ends =>
      obtain ⟨hne, hsuffix⟩ := hends part List.mem_cons_self
      have hpos := List.length_pos_iff.mpr hne
      have hle := hsuffix.length_le
      have hset : (0 : BitVec 8) ∈ path.set (path.length - part.length) 0 :=
        List.mem_set (by omega) 0
      exact absurd (heq ▸ zero_mem_cutAt ends hset) h0
  · rintro rfl
    rfl

end Cut

section Open

variable (drivers : Addr → Option DriverNode) {s : State} {h : List (List Chars × Addr)}
  {P : List Chars → Prop} {path : Chars}

theorem zero_notMem_remainder (h0 : 0 ∉ path) : 0 ∉ remainder s path :=
  fun h => h0 ((List.drop_suffix _ _).subset h)

def pathAfter (drivers : Addr → Option DriverNode) (s : State) (path : Chars) : Chars :=
  if mountNode s path = null then path
  else
    let calls := (kopenLoop drivers s (components slash (remainder s path)) (mountNode s path) 1).2
    cutAt path (overwritten slash calls (some (remainder s path)) none)

/-- `kopen` goes down the remainder from the mount. -/
theorem kopen_eq (hinv : Inv s h P) (h0 : 0 ∉ path) (habsolute : deref path = slash) :
    kopen drivers s path = if (join slash (found s path).1).length < 2 ^ 31 then
      some (lands drivers s (mountNode s path) (components slash (remainder s path)),
        pathAfter drivers s path) else none := by
  have hremainder := zero_notMem_remainder (s := s) h0
  unfold kopen
  rw [pathOffset_eq hinv h0 habsolute, mountNode_eq hinv h0]
  split_ifs with hdepth
  · simp only [Option.bind_eq_bind, Option.bind_some]
    unfold pathAfter
    split_ifs with hnull hnil
    · simp [hnull]
    · have hempty : remainder s path = [] := (deref_eq_zero_iff hremainder).mp hnil
      simp [hempty, kopenLoop, overwritten, strtokR, deref, cutAt, lands]
    · rw [tokens_path hremainder, ← kopenLoop_eq drivers s _ _ 1]
  · rfl

theorem one_le_calls (pchs : List Chars) (node : Addr) (calls : ℕ) :
    calls ≤ (kopenLoop drivers s pchs node calls).2 := by
  induction pchs generalizing node calls with
  | nil => exact Nat.le_refl calls
  | cons pch pchs ih =>
    unfold kopenLoop
    dsimp only
    split_ifs
    · exact Nat.le_refl calls
    · exact Nat.le_refl calls
    · exact (Nat.le_succ calls).trans (ih _ _)

/-- The path is left as it is if and only if nothing is opened, or the remainder is one
component. -/
theorem pathAfter_eq_iff (h0 : 0 ∉ path) :
    pathAfter drivers s path = path ↔ mountNode s path = null ∨ Unsplit (remainder s path) := by
  have hremainder := zero_notMem_remainder (s := s) h0
  unfold pathAfter
  split_ifs with hnull
  · simp [hnull]
  · have hcalls := one_le_calls drivers (s := s) (components slash (remainder s path))
      (mountNode s path) 1
    have hends : ∀ part ∈ overwritten slash
        (kopenLoop drivers s (components slash (remainder s path)) (mountNode s path) 1).2
        (some (remainder s path)) none, part ≠ [] ∧ part <:+ path := by
      intro part hpart
      obtain ⟨hne, hsuffix⟩ := overwritten_suffix hremainder rfl part hpart
      exact ⟨hne, hsuffix.trans (List.drop_suffix _ _)⟩
    dsimp only
    rw [cutAt_eq_iff h0 hends, overwritten_eq_nil_iff hremainder (by omega)]
    simp [hnull]

theorem components_pathOf {parts : List Chars} (hparts : ∀ c ∈ parts, Component c) :
    components slash (pathOf parts) = parts := by
  unfold pathOf
  split_ifs with hnil
  · rw [hnil]
    decide
  · exact components_join fun c hc => ⟨(hparts c hc).1, (hparts c hc).2.2⟩

theorem zero_notMem_pathOf {parts : List Chars} (hparts : ∀ c ∈ parts, Component c) :
    0 ∉ pathOf parts := by
  unfold pathOf
  split_ifs
  · decide
  · simp only [join, List.mem_flatMap, List.mem_cons, not_exists, not_and, not_or]
    exact fun c hc => ⟨by decide, (hparts c hc).2.1⟩

theorem components_collapse (h0 : 0 ∉ path) :
    components slash (collapse path) = components slash path :=
  components_pathOf (component_of_mem h0)

/-- The remainder of a path with single separators has the components behind the mount. -/
theorem remainder_pathOf {parts : List Chars} (hparts : ∀ c ∈ parts, Component c) :
    components slash (remainder s (pathOf parts)) = rest s (pathOf parts) := by
  have happend := found_append_rest s (pathOf parts)
  rw [components_pathOf hparts] at happend
  by_cases hnil : parts = []
  · subst hnil
    obtain ⟨hfound, hrest⟩ := List.append_eq_nil_iff.mp happend
    rw [remainder, hfound, hrest]
    decide
  · have hjoin : pathOf parts = join slash (found s (pathOf parts)).1 ++
        join slash (rest s (pathOf parts)) := by
      conv_lhs => rw [pathOf, if_neg hnil, ← happend]
      exact List.flatMap_append
    have hremainder : remainder s (pathOf parts) = join slash (rest s (pathOf parts)) := by
      have hdrop : (join slash (found s (pathOf parts)).1 ++
          join slash (rest s (pathOf parts))).drop
            (join slash (found s (pathOf parts)).1).length = join slash (rest s (pathOf parts)) :=
        List.drop_left
      rwa [← hjoin] at hdrop
    rw [hremainder]
    refine components_join fun c hc => ?_
    have hcomponent := hparts c (happend ▸ List.mem_append_right _ hc)
    exact ⟨hcomponent.1, hcomponent.2.2⟩

/-- A path is resolved if and only if the depth fits, no component that is not the last is a plain
file, and the remainder has the components behind the mount; or it has others, but going down these
resolves the path as well. -/
theorem resolvesTo_iff (hinv : Inv s h P) (h0 : 0 ∉ path) (habsolute : deref path = slash) :
    ResolvesTo drivers s path ↔
      (join slash (found s path).1).length < 2 ^ 31 ∧
        (components slash (remainder s path) = rest s path →
          ¬ FileOnTheWay drivers s (mountNode s path) (rest s path)) ∧
        (components slash (remainder s path) ≠ rest s path →
          Resolves drivers s (mountNode s path) (rest s path)
            (lands drivers s (mountNode s path) (components slash (remainder s path)))) := by
  have hproperty : ResolvesTo drivers s path ↔
      (join slash (found s path).1).length < 2 ^ 31 ∧
        Resolves drivers s (mountNode s path) (rest s path)
          (lands drivers s (mountNode s path) (components slash (remainder s path))) := by
    unfold ResolvesTo
    simp only [leads_iff hinv, kopen_eq drivers hinv h0 habsolute]
    constructor
    · rintro ⟨result, after, node, components, hkopen, ⟨rfl, rfl⟩, hresolves⟩
      split_ifs at hkopen with hdepth
      obtain ⟨rfl, -⟩ := Prod.mk.inj (Option.some.inj hkopen)
      exact ⟨hdepth, hresolves⟩
    · rintro ⟨hdepth, hresolves⟩
      exact ⟨_, _, _, _, if_pos hdepth, ⟨rfl, rfl⟩, hresolves⟩
  rw [hproperty]
  refine and_congr_right fun _ => ?_
  by_cases hsame : components slash (remainder s path) = rest s path
  · simp [hsame, resolves_lands_iff]
  · simp [hsame]

theorem found_collapse (h0 : 0 ∉ path) : found s (collapse path) = found s path := by
  rw [found, found, components_collapse h0]

theorem mountNode_collapse (h0 : 0 ∉ path) : mountNode s (collapse path) = mountNode s path := by
  rw [mountNode, mountNode, found_collapse h0]

theorem rest_collapse (h0 : 0 ∉ path) : rest s (collapse path) = rest s path := by
  rw [rest, rest, components_collapse h0, found_collapse h0]

/-- `kopen` finds the same along the collapsed path and leaves the path as it is if and only if the
depth fits, there is no node at the mount or the remainder is one component, and it has the
components behind the mount; or it has others, but going down these ends at the same node. -/
theorem sameCollapsed_iff (hinv : Inv s h P) (h0 : 0 ∉ path) (habsolute : deref path = slash) :
    SameCollapsed drivers s path ↔
      (join slash (found s path).1).length < 2 ^ 31 ∧
        (mountNode s path = null ∨ Unsplit (remainder s path)) ∧
        (components slash (remainder s path) ≠ rest s path →
          lands drivers s (mountNode s path) (components slash (remainder s path)) =
            lands drivers s (mountNode s path) (rest s path)) := by
  have hcomponents := component_of_mem h0
  have hcollapsed := kopen_eq drivers hinv (zero_notMem_pathOf hcomponents)
    (deref_pathOf (components slash path))
  change kopen drivers s (collapse path) = _ at hcollapsed
  rw [show pathOf (components slash path) = collapse path from rfl, found_collapse h0,
    mountNode_collapse h0, show components slash (remainder s (collapse path)) = rest s path from
      (remainder_pathOf hcomponents).trans (rest_collapse h0)] at hcollapsed
  unfold SameCollapsed
  rw [hcollapsed, kopen_eq drivers hinv h0 habsolute, ← pathAfter_eq_iff drivers h0]
  split_ifs with hdepth
  · simp only [hdepth, true_and, Option.some.injEq, Prod.mk.injEq]
    constructor
    · rintro ⟨result, after, ⟨rfl, hafter⟩, heq, -⟩
      exact ⟨hafter, fun _ => heq.symm⟩
    · rintro ⟨hafter, hsame⟩
      refine ⟨_, _, ⟨rfl, hafter⟩, ?_, rfl⟩
      by_cases heq : components slash (remainder s path) = rest s path
      · rw [heq]
      · exact (hsame heq).symm
  · refine iff_of_false ?_ fun h => hdepth h.1
    rintro ⟨result, after, hnone, -⟩
    cases hnone

end Open

section Mounted

variable {node : Addr → TreeNode} {fsNode : Addr → FsNode} {root : Addr} {mounts : List Mount}
  {path : Chars}

theorem kopen_resolves_iff (drivers : Addr → Option DriverNode)
    (hmeet : AllMeet (vfsInit node fsNode root) mounts) (h0 : 0 ∉ path)
    (habsolute : deref path = slash) :
    ∃ s, (vfsInit node fsNode root).run mounts = some s ∧ (ResolvesTo drivers s path ↔
      (join slash (found s path).1).length < 2 ^ 31 ∧
        (components slash (remainder s path) = rest s path →
          ¬ FileOnTheWay drivers s (mountNode s path) (rest s path)) ∧
        (components slash (remainder s path) ≠ rest s path →
          Resolves drivers s (mountNode s path) (rest s path)
            (lands drivers s (mountNode s path) (components slash (remainder s path))))) := by
  obtain ⟨s, hrun, hinv⟩ := (inv_vfsInit node fsNode root).run hmeet
  exact ⟨s, hrun, resolvesTo_iff drivers hinv h0 habsolute⟩

theorem kopen_collapsed_iff (drivers : Addr → Option DriverNode)
    (hmeet : AllMeet (vfsInit node fsNode root) mounts) (h0 : 0 ∉ path)
    (habsolute : deref path = slash) :
    ∃ s, (vfsInit node fsNode root).run mounts = some s ∧ (SameCollapsed drivers s path ↔
      (join slash (found s path).1).length < 2 ^ 31 ∧
        (mountNode s path = null ∨ Unsplit (remainder s path)) ∧
        (components slash (remainder s path) ≠ rest s path →
          lands drivers s (mountNode s path) (components slash (remainder s path)) =
            lands drivers s (mountNode s path) (rest s path))) := by
  obtain ⟨s, hrun, hinv⟩ := (inv_vfsInit node fsNode root).run hmeet
  exact ⟨s, hrun, sameCollapsed_iff drivers hinv h0 habsolute⟩

end Mounted

section Example

def rootMount : Mount := ⟨0x5000, [], []⟩

/-- In the root of the filesystem is the directory `d`, and in it the plain file `f`. -/
def files (node : Addr) : Option DriverNode :=
  if node = 0x5000 then
    some ⟨vfsDirectory, some fun name => if name = [100] then 0x7000 else null⟩
  else if node = 0x7000 then
    some ⟨vfsDirectory, some fun name => if name = [102] then 0x7010 else null⟩
  else if node = 0x7010 then some ⟨vfsFile, none⟩
  else none

theorem allMeet_rootMount : AllMeet newTree [rootMount] := by
  refine allMeet_cons ?_ trivial
  apply @meets_of_closed newTree [0x10] <;> decide +kernel

/-- The file is resolved. -/
theorem kopen_resolves_file :
    ∃ s, newTree.run [rootMount] = some s ∧ (ResolvesTo files s [47, 100, 47, 102] ↔
      (join slash (found s [47, 100, 47, 102]).1).length < 2 ^ 31 ∧
        (components slash (remainder s [47, 100, 47, 102]) = rest s [47, 100, 47, 102] →
          ¬ FileOnTheWay files s (mountNode s [47, 100, 47, 102]) (rest s [47, 100, 47, 102])) ∧
        (components slash (remainder s [47, 100, 47, 102]) ≠ rest s [47, 100, 47, 102] →
          Resolves files s (mountNode s [47, 100, 47, 102]) (rest s [47, 100, 47, 102])
            (lands files s (mountNode s [47, 100, 47, 102])
              (components slash (remainder s [47, 100, 47, 102]))))) :=
  kopen_resolves_iff files allMeet_rootMount (by decide) (by decide)

/-- `/d/f/x` opens the file `/d/f`. -/
theorem file_opened_as_directory :
    AllMeet newTree [rootMount] ∧
    ((newTree.run [rootMount]).bind fun s => kopen files s [47, 100, 47, 102, 47, 120]) =
      some (0x7010, [47, 100, 0, 102, 0, 120]) ∧
    ¬ ∃ s, newTree.run [rootMount] = some s ∧ ResolvesTo files s [47, 100, 47, 102, 47, 120] := by
  refine ⟨allMeet_rootMount, by decide +kernel, ?_⟩
  rintro ⟨s, hrun, hresolves⟩
  obtain ⟨s', hrun', hinv⟩ := (inv_vfsInit _ _ _).run allMeet_rootMount
  obtain rfl : s' = s := Option.some.inj (hrun'.symm.trans hrun)
  obtain rfl : newTree.setFsNode newTree.root 0x5000 = s' := Option.some.inj hrun
  rw [resolvesTo_iff files hinv (by decide) (by decide)] at hresolves
  exact hresolves.2.1 (by decide +kernel) ⟨[[100], [102]], [[120]], by decide +kernel⟩

theorem kopen_collapsed_directory :
    ∃ s, newTree.run [rootMount] = some s ∧ (SameCollapsed files s [47, 100, 47] ↔
      (join slash (found s [47, 100, 47]).1).length < 2 ^ 31 ∧
        (mountNode s [47, 100, 47] = null ∨ Unsplit (remainder s [47, 100, 47])) ∧
        (components slash (remainder s [47, 100, 47]) ≠ rest s [47, 100, 47] →
          lands files s (mountNode s [47, 100, 47])
              (components slash (remainder s [47, 100, 47])) =
            lands files s (mountNode s [47, 100, 47]) (rest s [47, 100, 47]))) :=
  kopen_collapsed_iff files allMeet_rootMount (by decide) (by decide)

/-- `/d/f` is cut: with the same buffer, the file is opened and then the directory. -/
theorem path_cut_at_component :
    AllMeet newTree [rootMount] ∧
    ((newTree.run [rootMount]).bind fun s => kopen files s [47, 100, 47, 102]) =
      some (0x7010, [47, 100, 0, 102]) ∧
    ((newTree.run [rootMount]).bind fun s => kopen files s [47, 100]) =
      some (0x7000, [47, 100]) ∧
    ¬ ∃ s, newTree.run [rootMount] = some s ∧ SameCollapsed files s [47, 100, 47, 102] := by
  have hkopen : ((newTree.run [rootMount]).bind fun s => kopen files s [47, 100, 47, 102]) =
      some (0x7010, [47, 100, 0, 102]) := by decide +kernel
  refine ⟨allMeet_rootMount, hkopen, by decide +kernel, ?_⟩
  rintro ⟨s, hrun, result, after, hsame, -⟩
  rw [hrun, Option.bind_some, hsame] at hkopen
  exact absurd hkopen (by simp)

end Example

end ReduceOS.Kopen
