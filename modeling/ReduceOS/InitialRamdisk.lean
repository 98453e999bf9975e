import ReduceOS.FileSlice
import ReduceOS.Kopen
import ReduceOS.UstarLookup

/-!
The initial ramdisk: an archive that has a tree of directories and files, each directory in front of
what is in it, as the script that builds it writes one. `kopen` goes down from where the archive is
mounted, one component of the path at a time, with the lookup of tarfs.
-/
namespace ReduceOS.InitialRamdisk

open Machine CString Halting Ramdev Ustar UstarHeader UstarScan UstarArchive UstarLookup FileSlice
open MountTree Kopen

structure Node where
  path : List Chars
  size : ℕ
  type : BitVec 8

def label (path : List Chars) : Chars := if path = [] then [slash] else (join slash path).tail

def Node.member (e : Node) : Member where
  name := if e.path ≠ [] ∧ e.type = ustarDirectory then label e.path ++ [slash] else label e.path
  size := e.size
  type := e.type

structure Tree (nodes : List Node) : Prop where
  nonempty : nodes ≠ []
  components : ∀ e ∈ nodes, ∀ c ∈ e.path, Component c
  distinct : (nodes.map Node.path).Nodup
  root : ∀ e ∈ nodes, e.path = [] → e.type = ustarDirectory
  parent : ∀ before e after, nodes = before ++ e :: after → e.path ≠ [] →
    ∃ d ∈ before, d.path = e.path.dropLast ∧ d.type = ustarDirectory

def locate (path : List Chars) : ℕ → List Node → Option (ℕ × Node)
  | _, [] => none
  | o, e :: nodes =>
    if e.path = path then some (o, e) else locate path (e.member.next o) nodes

/-- The nodes that tarfs makes from the headers in the tree, each at an address for its inode. -/
structure Mounted (a : Archive) (nodes : List Node) (drivers : Addr → Option DriverNode)
    (nodeAt : BitVec 64 → Addr) : Prop where
  ne_null : ∀ p o e, locate p 0 nodes = some (o, e) → nodeAt (BitVec.ofNat 64 o) ≠ null
  node : ∀ p o e header, locate p 0 nodes = some (o, e) →
    tarfsGetUstar a (BitVec.ofNat 64 o) = some header → ∃ f,
      drivers (nodeAt (BitVec.ofNat 64 o)) =
          some ⟨(tarfsUstarToNode header (BitVec.ofNat 64 o)).flags, some f⟩ ∧
        ∀ c result, Component c → TarfsFinddir a (BitVec.ofNat 64 o) c result →
          f c = (result.map fun node => nodeAt node.inode).getD null

def addressOf (nodeAt : BitVec 64 → Addr) (found : Option (ℕ × Node)) : Addr :=
  (found.map fun e => nodeAt (BitVec.ofNat 64 e.1)).getD null

section Labels

variable {p q : List Chars} {c : Chars} {e : Node}

theorem label_concat (p : List Chars) (c : Chars) :
    label (p ++ [c]) = if p = [] then c else label p ++ slash :: c := by
  cases p with
  | nil => simp [label]
  | cons d p => simp [label, join]

theorem components_label (hp : ∀ c ∈ p, Component c) : components slash (label p) = p := by
  cases p with
  | nil => rfl
  | cons c p =>
    have hjoin : components slash (join slash (c :: p)) = c :: p :=
      components_join fun d hd => ⟨(hp d hd).1, (hp d hd).2.2⟩
    rw [join_cons, components_sep] at hjoin
    rwa [label, if_neg (List.cons_ne_nil c p), join_cons, List.tail_cons]

theorem label_inj (hp : ∀ c ∈ p, Component c) (hq : ∀ c ∈ q, Component c)
    (heq : label p = label q) : p = q := by
  rw [← components_label hp, heq, components_label hq]

theorem label_ne_nil (hp : ∀ c ∈ p, Component c) : label p ≠ [] := by
  cases p using List.reverseRecOn with
  | nil => decide
  | append_singleton p c =>
    rw [label_concat]
    split_ifs
    · exact (hp c (by simp)).1
    · simp

/-- The slash at the end of a directory is taken off again. -/
theorem stripSlash_member (he : ∀ c ∈ e.path, Component c) :
    stripSlash e.member.name = label e.path := by
  unfold Node.member
  dsimp only
  by_cases hdir : e.path ≠ [] ∧ e.type = ustarDirectory
  · rw [if_pos hdir, stripSlash_concat (label_ne_nil he)]
  · rw [if_neg hdir]
    generalize e.path = p at he ⊢
    cases p using List.reverseRecOn with
    | nil => rfl
    | append_singleton p c =>
      obtain ⟨hne, -, hslash⟩ := he c (by simp)
      refine stripSlash_of_getLast ?_
      have hlast : (label (p ++ [c])).getLast? = c.getLast? := by
        rw [label_concat]
        split_ifs
        · rfl
        · rw [List.getLast?_append_cons, List.getLast?_cons_of_ne_nil hne]
      rw [hlast]
      exact fun heq => hslash (List.mem_of_getLast? heq)

/-- The source looks for the label of the path in a directory. -/
theorem joined_member (he : ∀ c ∈ e.path, Component c) (htype : e.type = ustarDirectory)
    (c : Chars) : searched e.member ++ c = label (e.path ++ [c]) ∧
      joined e.member c = label (e.path ++ [c]) := by
  have hroot : e.member.name = [slash] ↔ e.path = [] := by
    refine ⟨fun h => ?_, fun h => by simp [Node.member, h, label]⟩
    by_contra hne
    have hlabel := label_ne_nil he
    rw [Node.member, if_pos ⟨hne, htype⟩] at h
    have hlen := congrArg List.length h
    rw [List.length_append, List.length_singleton] at hlen
    exact hlabel (List.length_eq_zero_iff.mp (by omega))
  have hjoined : joined e.member c = label (e.path ++ [c]) := by
    rw [label_concat, joined, stripSlash_member he]
    simp only [hroot]
  refine ⟨((searched_eq_joined_iff _ _).mpr ?_).trans hjoined, hjoined⟩
  by_cases hnil : e.path = []
  · exact Or.inl (hroot.mpr hnil)
  · right
    rw [Node.member, if_pos ⟨hnil, htype⟩]
    simp

end Labels

section Locate

variable {nodes before after : List Node} {p q : List Chars} {c : Chars} {e d : Node} {o o' : ℕ}

theorem firstMatch_eq (hnodes : ∀ e ∈ nodes, ∀ c ∈ e.path, Component c)
    (hp : ∀ c ∈ p, Component c) : firstMatch (label p) o (nodes.map Node.member) =
      (locate p o nodes).map fun found => (found.1, found.2.member) := by
  induction nodes generalizing o with
  | nil => rfl
  | cons e nodes ih =>
    have he := hnodes e List.mem_cons_self
    rw [List.map_cons, firstMatch, locate, stripSlash_member he]
    by_cases heq : e.path = p
    · rw [if_pos (by rw [heq]), if_pos heq, Option.map_some]
    · rw [if_neg (fun h => heq (label_inj he hp h)), if_neg heq]
      exact ih fun e he => hnodes e (List.mem_cons_of_mem _ he)

theorem locate_append (hbefore : ∀ b ∈ before, b.path ≠ p) :
    locate p o (before ++ after) = locate p (endOf o (before.map Node.member)) after := by
  induction before generalizing o with
  | nil => rfl
  | cons b before ih =>
    rw [List.cons_append, locate, if_neg (hbefore b List.mem_cons_self)]
    exact ih fun b hb => hbefore b (List.mem_cons_of_mem _ hb)

theorem locate_eq_some (h : locate p o nodes = some (o', e)) :
    ∃ before after, nodes = before ++ e :: after ∧ o' = endOf o (before.map Node.member) ∧
      e.path = p := by
  induction nodes generalizing o with
  | nil => cases h
  | cons b nodes ih =>
    rw [locate] at h
    by_cases heq : b.path = p
    · rw [if_pos heq] at h
      obtain ⟨rfl, rfl⟩ := Prod.mk.inj (Option.some.inj h)
      exact ⟨[], nodes, rfl, rfl, heq⟩
    · rw [if_neg heq] at h
      obtain ⟨before, after, rfl, ho, hpath⟩ := ih h
      exact ⟨b :: before, after, rfl, ho, hpath⟩

theorem locate_of_mem (he : e ∈ nodes) :
    ∃ o' e', locate e.path o nodes = some (o', e') ∧ e' ∈ nodes := by
  induction nodes generalizing o with
  | nil => cases he
  | cons b nodes ih =>
    rw [locate]
    by_cases heq : b.path = e.path
    · rw [if_pos heq]
      exact ⟨o, b, rfl, List.mem_cons_self⟩
    · rw [if_neg heq]
      rcases List.mem_cons.mp he with rfl | he
      · exact absurd rfl heq
      · obtain ⟨o', e', hloc, hmem⟩ := ih he
        exact ⟨o', e', hloc, List.mem_cons_of_mem _ hmem⟩

namespace Tree

theorem eq_of_path (ht : Tree nodes) (he : e ∈ nodes) (hd : d ∈ nodes) (heq : e.path = d.path) :
    e = d :=
  List.inj_on_of_nodup_map ht.distinct he hd heq

theorem locate_child (ht : Tree nodes) (hd : locate p 0 nodes = some (o, d)) :
    ∃ before after, nodes = before ++ d :: after ∧ o = endOf 0 (before.map Node.member) ∧
      d.path = p ∧ locate (p ++ [c]) 0 nodes = locate (p ++ [c]) o (d :: after) := by
  obtain ⟨before, after, hnodes, ho, hpath⟩ := locate_eq_some hd
  refine ⟨before, after, hnodes, ho, hpath, ?_⟩
  rw [ho, hnodes]
  refine locate_append fun b hb hbp => ?_
  obtain ⟨front, back, rfl⟩ := List.append_of_mem hb
  obtain ⟨d', hd', hdp, -⟩ := ht.parent front b (back ++ d :: after) (by rw [hnodes]; simp)
    (by rw [hbp]; simp)
  have hsame : d' = d := by
    refine ht.eq_of_path (by rw [hnodes]; simp [hd']) (by rw [hnodes]; simp) ?_
    rw [hdp, hbp, List.dropLast_concat, hpath]
  have hnodup := ht.distinct.of_map
  rw [hnodes, List.nodup_append] at hnodup
  exact hnodup.2.2 d (by simp [← hsame, hd']) d List.mem_cons_self rfl

theorem locate_parent (ht : Tree nodes) (he : locate (p ++ [c]) 0 nodes = some (o, e)) :
    ∃ o' d, locate p 0 nodes = some (o', d) ∧ d.type = ustarDirectory := by
  obtain ⟨before, after, hnodes, -, hpath⟩ := locate_eq_some he
  obtain ⟨d, hd, hdp, htype⟩ := ht.parent before e after hnodes (by rw [hpath]; simp)
  rw [hpath, List.dropLast_concat] at hdp
  have hmem : d ∈ nodes := by
    rw [hnodes]
    simp [hd]
  obtain ⟨o', d', hloc, hmem'⟩ := locate_of_mem (o := 0) hmem
  obtain ⟨-, -, -, -, hpath'⟩ := locate_eq_some hloc
  obtain rfl := ht.eq_of_path hmem' hmem hpath'
  exact ⟨o', d', hdp ▸ hloc, htype⟩

theorem locate_ancestor (ht : Tree nodes) (hq : q ≠ [])
    (he : locate (p ++ q) 0 nodes = some (o, e)) :
    ∃ o' d, locate p 0 nodes = some (o', d) ∧ d.type = ustarDirectory := by
  induction q using List.reverseRecOn generalizing o e with
  | nil => exact absurd rfl hq
  | append_singleton q c ih =>
    rw [← List.append_assoc] at he
    obtain ⟨o', d, hloc, htype⟩ := ht.locate_parent he
    by_cases hnil : q = []
    · subst hnil
      rw [List.append_nil] at hloc
      exact ⟨o', d, hloc, htype⟩
    · exact ih hnil hloc

theorem locate_root (ht : Tree nodes) : ∃ d, locate [] 0 nodes = some (0, d) := by
  obtain ⟨d, rest, hnodes⟩ := List.exists_cons_of_ne_nil ht.nonempty
  have hpath : d.path = [] := by
    by_contra hne
    obtain ⟨d', hd', -⟩ := ht.parent [] d rest hnodes hne
    cases hd'
  exact ⟨d, by rw [hnodes, locate, if_pos hpath]⟩

end Tree

end Locate

section Descent

variable {a : Archive} {drivers : Addr → Option DriverNode} {nodeAt : BitVec 64 → Addr} {s : State}
  {nodes : List Node} {p cs : List Chars} {c : Chars} {e d : Node} {o : ℕ}

theorem header_of_locate (hwf : WellFormed a 0 (nodes.map Node.member))
    (he : locate p 0 nodes = some (o, e)) :
    ∃ header, tarfsGetUstar a (BitVec.ofNat 64 o) = some header ∧ HeaderOf header e.member ∧
      o + 512 + e.size ≤ a.dev.length.toNat := by
  obtain ⟨before, after, rfl, rfl, -⟩ := locate_eq_some he
  rw [List.map_append, List.map_cons] at hwf
  have hbehind := hwf.behind
  obtain ⟨header, hheader, hof, -⟩ := hbehind.header
  have hfits := hbehind.2.1
  unfold Member.next blocks at hfits
  have hsize : e.member.size = e.size := rfl
  exact ⟨header, hheader, hof, by omega⟩

/-- The lookup of tarfs in a directory comes to what the tree has there. -/
theorem finddir_locate (ht : Tree nodes) (hwf : WellFormed a 0 (nodes.map Node.member))
    (hd : locate p 0 nodes = some (o, d)) (htype : d.type = ustarDirectory) (hc : Component c) :
    ((label (p ++ [c])).length < 256 → ∃ result, TarfsFinddir a (BitVec.ofNat 64 o) c result) ∧
      ∀ result, TarfsFinddir a (BitVec.ofNat 64 o) c result →
        Answers
          ((locate (p ++ [c]) 0 nodes).map fun found => (found.1, found.2.member)) result := by
  obtain ⟨before, after, hnodes, ho, hpath, hchild⟩ := ht.locate_child (c := c) hd
  have hvalid : ∀ e ∈ d :: after, ∀ b ∈ e.path, Component b := fun e he =>
    ht.components e (by rw [hnodes]; exact List.mem_append_right _ he)
  have hd' := hvalid d List.mem_cons_self
  have hpc : ∀ b ∈ p ++ [c], Component b := by
    intro b hb
    rcases List.mem_append.mp hb with hb | hb
    · exact hd' b (hpath ▸ hb)
    · exact List.mem_singleton.mp hb ▸ hc
  rw [hnodes, List.map_append, List.map_cons] at hwf
  have hbehind := hwf.behind
  rw [← ho] at hbehind
  obtain ⟨header, hheader, hof, -⟩ := hbehind.header
  have hsearch := (joined_member hd' htype c).1
  rw [hpath, ← searchDirectory_eq hof] at hsearch
  have h0 : 0 ∉ label (p ++ [c]) := by
    rw [← hsearch, searchDirectory_eq hof]
    exact zero_notMem_search hof hc.2.1
  have hanswers : ∀ result, Answers (firstMatch (label (p ++ [c])) o
      (d.member :: after.map Node.member)) result ↔
        Answers
          ((locate (p ++ [c]) 0 nodes).map fun found => (found.1, found.2.member)) result := by
    intro result
    rw [← List.map_cons, firstMatch_eq hvalid hpc, hchild]
  have hiff := fun result =>
    @tarfsFinddir_iff a (BitVec.ofNat 64 o) header c result hheader (hof.type.trans htype)
  simp only [hsearch] at hiff
  refine ⟨fun hfits => ?_, fun result hresult => ?_⟩
  · obtain ⟨result, hreturns, -⟩ := finddir_returns hbehind h0
    exact ⟨result, (hiff result).mpr ⟨hfits, hreturns⟩⟩
  · exact (hanswers result).mp (answers_of_returns hbehind h0 ((hiff result).mp hresult).2)

theorem answers_address {found : Option (ℕ × Node)} {result : Option TarNode}
    (h : Answers (found.map fun found => (found.1, found.2.member)) result) :
    (result.map fun node => nodeAt node.inode).getD null = addressOf nodeAt found := by
  cases found with
  | none =>
    cases result with
    | none => rfl
    | some node => exact absurd h not_false
  | some found =>
    cases result with
    | none => exact absurd h not_false
    | some node =>
      have hino : node.inode.toNat = found.1 := h.2.2
      show nodeAt node.inode = nodeAt (BitVec.ofNat 64 found.1)
      rw [← hino, BitVec.ofNat_toNat, BitVec.setWidth_eq]

theorem fsFinddir_locate (ht : Tree nodes) (hwf : WellFormed a 0 (nodes.map Node.member))
    (hm : Mounted a nodes drivers nodeAt) (hd : locate p 0 nodes = some (o, d))
    (htype : d.type = ustarDirectory) (hc : Component c) (hfits : (label (p ++ [c])).length < 256) :
    fsFinddir drivers s (nodeAt (BitVec.ofNat 64 o)) c =
      addressOf nodeAt (locate (p ++ [c]) 0 nodes) := by
  obtain ⟨header, hheader, hof, -⟩ := header_of_locate hwf hd
  obtain ⟨f, hdriver, hf⟩ := hm.node _ _ _ _ hd hheader
  obtain ⟨hreturns, hanswers⟩ := finddir_locate ht hwf hd htype hc
  obtain ⟨result, hresult⟩ := hreturns hfits
  have hflags : nodeFlags drivers s (nodeAt (BitVec.ofNat 64 o)) = vfsDirectory := by
    have htypeHeader : type header = ustarDirectory := hof.type.trans htype
    unfold nodeFlags
    rw [hdriver]
    show typeFlags (type header) = vfsDirectory
    rw [htypeHeader]
    rfl
  unfold fsFinddir
  rw [if_neg (hm.ne_null _ _ _ hd), hflags, if_pos (by decide), nodeFinddir, hdriver]
  show (some (f c)).getD null = _
  rw [Option.getD_some, hf c result hc hresult]
  exact answers_address (hanswers result hresult)

/-- Going down some components comes to the node with that path, unless something else than a
directory is on the way. -/
theorem lands_locate (s : State) (cs : List Chars) (ht : Tree nodes)
    (hwf : WellFormed a 0 (nodes.map Node.member))
    (hm : Mounted a nodes drivers nodeAt) (hd : locate p 0 nodes = some (o, d))
    (hp : ∀ b ∈ p ++ cs, Component b)
    (hfits : ∀ q, q <+: cs → (label (p ++ q)).length < 256)
    (hway : ∀ q, q <+: cs → q ≠ cs → ∀ o e, locate (p ++ q) 0 nodes = some (o, e) →
      e.type = ustarDirectory) :
    lands drivers s (nodeAt (BitVec.ofNat 64 o)) cs =
      addressOf nodeAt (locate (p ++ cs) 0 nodes) := by
  induction cs generalizing p o d with
  | nil =>
    rw [List.append_nil, hd]
    rfl
  | cons c cs ih =>
    have htype : d.type = ustarDirectory :=
      hway [] List.nil_prefix (by simp) o d (by rw [List.append_nil, hd])
    have hsplit : p ++ c :: cs = p ++ [c] ++ cs := by simp
    have hone : [c] <+: c :: cs := ⟨cs, rfl⟩
    have hnext := fsFinddir_locate (s := s) ht hwf hm hd htype (hp c (by simp))
      (hfits [c] hone)
    rw [lands, hnext, hsplit]
    cases hloc : locate (p ++ [c]) 0 nodes with
    | none =>
      have hnone : locate (p ++ [c] ++ cs) 0 nodes = none := by
        by_contra hsome
        obtain ⟨⟨o', e⟩, he⟩ := Option.ne_none_iff_exists'.mp hsome
        by_cases hnil : cs = []
        · rw [hnil, List.append_nil, hloc] at he
          cases he
        · obtain ⟨o', d', hd', -⟩ := ht.locate_ancestor hnil he
          rw [hloc] at hd'
          cases hd'
      rw [hnone]
      simp [addressOf]
    | some found =>
      obtain ⟨o', e⟩ := found
      obtain ⟨header, hheader, hof, -⟩ := header_of_locate hwf hloc
      obtain ⟨f, hdriver, -⟩ := hm.node _ _ _ _ hloc hheader
      show (if nodeAt (BitVec.ofNat 64 o') ≠ null ∧
          nodeFlags drivers s (nodeAt (BitVec.ofNat 64 o')) = vfsFile then
        nodeAt (BitVec.ofNat 64 o') else lands drivers s (nodeAt (BitVec.ofNat 64 o')) cs) = _
      by_cases hnil : cs = []
      · subst hnil
        rw [List.append_nil, hloc, lands, ite_self]
        rfl
      · have hdir : e.type = ustarDirectory :=
          hway [c] hone (by simpa using hnil) o' e hloc
        have htypeHeader : type header = ustarDirectory := hof.type.trans hdir
        have hflags : nodeFlags drivers s (nodeAt (BitVec.ofNat 64 o')) ≠ vfsFile := by
          unfold nodeFlags
          rw [hdriver]
          show typeFlags (type header) ≠ vfsFile
          rw [htypeHeader]
          decide
        rw [if_neg fun h => hflags h.2]
        refine ih hloc (by rwa [← hsplit]) (fun q hq => ?_) fun q hq hne o e he => ?_
        · rw [List.append_assoc]
          exact hfits (c :: q) ((List.prefix_cons_inj c).mpr hq)
        · rw [List.append_assoc] at he
          exact hway (c :: q) ((List.prefix_cons_inj c).mpr hq) (by simpa using hne) o e he

end Descent

section Files

variable {a : Archive} {drivers : Addr → Option DriverNode} {nodeAt : BitVec 64 → Addr} {s : State}
  {h : List (List Chars × Addr)} {P : List Chars → Prop} {nodes : List Node} {mnt p : List Chars}
  {e : Node} {o : ℕ}

/-- A path goes on behind the mount of an archive, and is short enough for the buffers. -/
structure Behind (s : State) (node : Addr) (mnt p : List Chars) : Prop where
  components : ∀ c ∈ mnt ++ p, Component c
  nonempty : mnt ++ p ≠ []
  leads : Leads s (join slash (mnt ++ p)) node p
  depth : (join slash mnt).length < 2 ^ 31
  fits : (join slash p).length ≤ 256

theorem zero_notMem_join (hp : ∀ c ∈ p, Component c) : 0 ∉ join slash p := by
  unfold join
  rw [List.mem_flatMap]
  rintro ⟨c, hc, h0⟩
  rcases List.mem_cons.mp h0 with h0 | h0
  · exact absurd h0 (by decide)
  · exact (hp c hc).2.1 h0

/-- `kopen` goes down the components behind the mount. -/
theorem kopen_behind (drivers : Addr → Option DriverNode) (hinv : Inv s h P)
    (hb : Behind s (nodeAt 0) mnt p) :
    ∃ after, kopen drivers s (join slash (mnt ++ p)) =
      some (lands drivers s (nodeAt 0) p, after) := by
  obtain ⟨hparts, hne, hleads, hdepth, -⟩ := hb
  have hsplit : ∀ q : List Chars, (∀ c ∈ q, Component c) → components slash (join slash q) = q :=
    fun q hq => components_join fun c hc => ⟨(hq c hc).1, (hq c hc).2.2⟩
  obtain ⟨hnode, hrest⟩ := (leads_iff hinv _ _).mp hleads
  have hfound : (found s (join slash (mnt ++ p))).1 = mnt := by
    have happend := found_append_rest s (join slash (mnt ++ p))
    rw [← hrest, hsplit _ hparts] at happend
    exact List.append_cancel_right happend
  have habsolute : deref (join slash (mnt ++ p)) = slash := by
    obtain ⟨c, q, hcq⟩ := List.exists_cons_of_ne_nil hne
    rw [hcq]
    rfl
  have hremainder : remainder s (join slash (mnt ++ p)) = join slash p := by
    rw [remainder, hfound]
    simp [join]
  rw [kopen_eq drivers hinv (zero_notMem_join hparts) habsolute, hfound, if_pos hdepth,
    hremainder, ← hnode, hsplit p fun c hc => hparts c (List.mem_append_right _ hc)]
  exact ⟨_, rfl⟩

/-- Whatever `tarfs_read` is asked for, it gives the bytes that the file has there. -/
theorem tarfsRead_locate (hwf : WellFormed a 0 (nodes.map Node.member))
    (hdev : a.dev.length.toNat < 2 ^ 63) (he : locate p 0 nodes = some (o, e))
    (hfile : typeFlags e.type = vfsFile) {header : Chars}
    (hheader : tarfsGetUstar a (BitVec.ofNat 64 o) = some header) {offset size : BitVec 64}
    {buffer : Addr} (hoffset : 0 ≤ offset.toInt) (hwrap : offset.toNat + size.toNat < 2 ^ 64)
    (hbuffer : buffer ≠ null) :
    Sliced e.size offset.toInt size.toNat (o + 512)
      (tarfsRead a (tarfsUstarToNode header (BitVec.ofNat 64 o)) offset size buffer).1.toInt
      (reads a.dev
        (tarfsRead a (tarfsUstarToNode header (BitVec.ofNat 64 o)) offset size buffer)) := by
  obtain ⟨header', hheader', hof, hin⟩ := header_of_locate hwf he
  obtain rfl : header' = header := Option.some.inj (hheader'.symm.trans hheader)
  have hlength : (tarfsUstarToNode header' (BitVec.ofNat 64 o)).length.toNat = e.size :=
    hof.size.strtoull_eq (by decide)
  have hinode : (tarfsUstarToNode header' (BitVec.ofNat 64 o)).inode.toNat = o := by
    show (BitVec.ofNat 64 o).toNat = o
    rw [BitVec.toNat_ofNat]
    omega
  have hflags : (tarfsUstarToNode header' (BitVec.ofNat 64 o)).flags = vfsFile := by
    show typeFlags (type header') = vfsFile
    rw [hof.type]
    exact hfile
  have hget : tarfsGetUstar a (tarfsUstarToNode header' (BitVec.ofNat 64 o)).inode ≠ none := by
    show tarfsGetUstar a (BitVec.ofNat 64 o) ≠ none
    rw [hheader']
    exact Option.some_ne_none _
  generalize tarfsUstarToNode header' (BitVec.ofNat 64 o) = file at *
  rw [← hlength, ← hinode]
  refine tarfsRead_sliced_iff.mpr ?_
  have hint := BitVec.toInt_eq_toNat_cond offset
  have hnat : offset.toInt = offset.toNat := by
    split_ifs at hint <;> omega
  unfold FileInRange
  rw [hnat] at hoffset ⊢
  have havailable : available file.length.toNat (offset.toNat : ℤ) size.toNat =
      min size.toNat (e.size - offset.toNat) := by
    rw [available, if_pos hoffset, hlength, Int.toNat_natCast]
  rw [havailable, hinode]
  split_ifs with hzero
  · unfold Nothing
    by_cases hbeyond : offset > file.length
    · exact Or.inr (Or.inl hbeyond)
    · have hle := BitVec.le_def.mp (BitVec.not_lt.mp hbeyond)
      by_cases hsize : size = 0
      · exact Or.inr (Or.inr (Or.inr (Or.inl hsize)))
      · have hpos : size.toNat ≠ 0 := fun h => hsize (BitVec.eq_of_toNat_eq h)
        exact Or.inr (Or.inr (Or.inr (Or.inr (Or.inl ⟨BitVec.eq_of_toNat_eq (by omega), hwrap⟩))))
  · exact ⟨hflags, hget, hbuffer, hwrap, by omega, by omega, by omega⟩

variable {node : Addr → TreeNode} {fsNode : Addr → FsNode} {root : Addr} {mounts : List Mount}

theorem Behind.label_lt (hb : Behind s (nodeAt 0) mnt p) {q : List Chars} (hq : q <+: p) :
    (label q).length < 256 := by
  have hle := ( join_prefix hq).length_le
  have hfits := hb.fits
  unfold label
  split_ifs with hnil
  · decide
  · rw [List.length_tail]
    omega

/-- A path behind the mount of the initial ramdisk opens what the tree has there, and nothing else,
unless it leads through something that is no directory. -/
theorem initrd_opened (hmeet : AllMeet (vfsInit node fsNode root) mounts)
    (hrun : (vfsInit node fsNode root).run mounts = some s) (ht : Tree nodes)
    (hwf : WellFormed a 0 (nodes.map Node.member)) (hm : Mounted a nodes drivers nodeAt)
    (hb : Behind s (nodeAt 0) mnt p)
    (hway : locate p 0 nodes = none → ∀ q, q <+: p → ∀ o e, locate q 0 nodes = some (o, e) →
      e.type = ustarDirectory) :
    ∃ after, kopen drivers s (join slash (mnt ++ p)) =
      some (addressOf nodeAt (locate p 0 nodes), after) := by
  obtain ⟨s', hrun', hinv⟩ := (inv_vfsInit node fsNode root).run hmeet
  obtain rfl : s' = s := Option.some.inj (hrun'.symm.trans hrun)
  obtain ⟨after, hopen⟩ := kopen_behind drivers hinv hb
  obtain ⟨d, hd⟩ := ht.locate_root
  have hlands := lands_locate s' p ht hwf hm hd
    (fun c hc => hb.components c (List.mem_append_right _ hc)) (fun q hq => hb.label_lt hq)
    fun q hq hne o e he => by
      cases hloc : locate p 0 nodes with
      | none => exact hway hloc q hq o e he
      | some found =>
        obtain ⟨rest, rfl⟩ := hq
        have hmore : rest ≠ [] := fun h => hne (by rw [h, List.append_nil])
        obtain ⟨o', d', hd', htype⟩ := ht.locate_ancestor hmore hloc
        rw [List.nil_append, hd'] at he
        obtain ⟨-, rfl⟩ := Prod.mk.inj (Option.some.inj he)
        exact htype
  rw [List.nil_append] at hlands
  exact ⟨after, by rw [hopen, ← hlands]; rfl⟩

/-- A file of the initial ramdisk is opened by its path, and reads from it give its bytes. -/
theorem initrd_read (hmeet : AllMeet (vfsInit node fsNode root) mounts)
    (hrun : (vfsInit node fsNode root).run mounts = some s) (ht : Tree nodes)
    (hwf : WellFormed a 0 (nodes.map Node.member)) (hdev : a.dev.length.toNat < 2 ^ 63)
    (hm : Mounted a nodes drivers nodeAt) (hb : Behind s (nodeAt 0) mnt p)
    (he : locate p 0 nodes = some (o, e)) (hfile : typeFlags e.type = vfsFile) :
    ∃ header after, tarfsGetUstar a (BitVec.ofNat 64 o) = some header ∧
      kopen drivers s (join slash (mnt ++ p)) = some (nodeAt (BitVec.ofNat 64 o), after) ∧
      ∀ (offset size : BitVec 64) (buffer : Addr), 0 ≤ offset.toInt →
        offset.toNat + size.toNat < 2 ^ 64 → buffer ≠ null →
          Sliced e.size offset.toInt size.toNat (o + 512)
            (tarfsRead a (tarfsUstarToNode header (BitVec.ofNat 64 o)) offset size buffer).1.toInt
            (reads a.dev
              (tarfsRead a (tarfsUstarToNode header (BitVec.ofNat 64 o)) offset size buffer)) := by
  obtain ⟨header, hheader, -⟩ := header_of_locate hwf he
  obtain ⟨after, hopen⟩ := initrd_opened hmeet hrun ht hwf hm hb fun hnone => by
    rw [he] at hnone
    cases hnone
  rw [he] at hopen
  exact ⟨header, after, hheader, hopen, fun offset size buffer hoffset hwrap hbuffer =>
    tarfsRead_locate hwf hdev he hfile hheader hoffset hwrap hbuffer⟩

end Files

section Drivers

variable {a : Archive} {nodes : List Node} {p : List Chars} {e : Node} {base : Addr} {o o' : ℕ}

def nodeOf (inode : ℕ) : ℕ → List Node → Option Node
  | _, [] => none
  | o, e :: nodes => if o = inode then some e else nodeOf inode (e.member.next o) nodes

def treeFinddir (nodes : List Node) (base : Addr) (e : Node) (c : Chars) : Addr :=
  if e.type = ustarDirectory then addressOf (base + ·) (locate (e.path ++ [c]) 0 nodes) else null

def treeDrivers (nodes : List Node) (base address : Addr) : Option DriverNode :=
  (nodeOf (address - base).toNat 0 nodes).map fun e =>
    ⟨typeFlags e.type, some (treeFinddir nodes base e)⟩

theorem nodeOf_locate (h : locate p o nodes = some (o', e)) :
    o ≤ o' ∧ nodeOf o' o nodes = some e := by
  induction nodes generalizing o with
  | nil => cases h
  | cons b nodes ih =>
    rw [locate] at h
    by_cases heq : b.path = p
    · rw [if_pos heq] at h
      obtain ⟨rfl, rfl⟩ := Prod.mk.inj (Option.some.inj h)
      exact ⟨Nat.le_refl _, by rw [nodeOf, if_pos rfl]⟩
    · rw [if_neg heq] at h
      obtain ⟨hle, hnode⟩ := ih h
      unfold Member.next at hle
      exact ⟨by omega, by rw [nodeOf, if_neg (by omega), hnode]⟩

theorem mounted_treeDrivers (ht : Tree nodes) (hwf : WellFormed a 0 (nodes.map Node.member))
    (hbase : 0 < base.toNat) (hroom : base.toNat + a.dev.length.toNat < 2 ^ 64) :
    Mounted a nodes (treeDrivers nodes base) (base + ·) := by
  have hoffset : ∀ {p o e}, locate p 0 nodes = some (o, e) → o < a.dev.length.toNat := fun he => by
    obtain ⟨-, -, -, hin⟩ := header_of_locate hwf he
    omega
  refine ⟨fun p o e he hnull => ?_, fun p o e header he hheader => ?_⟩
  · have hlt := hoffset he
    have hzero := congrArg BitVec.toNat hnull
    rw [BitVec.toNat_add, BitVec.toNat_ofNat] at hzero
    unfold null at hzero
    simp only [BitVec.ofNat_eq_ofNat, BitVec.toNat_ofNat, Nat.zero_mod] at hzero
    omega
  · have hlt := hoffset he
    obtain ⟨header', hheader', hof, -⟩ := header_of_locate hwf he
    obtain rfl : header' = header := Option.some.inj (hheader'.symm.trans hheader)
    have hpath : e.path = p := by
      obtain ⟨-, -, -, -, hpath⟩ := locate_eq_some he
      exact hpath
    have hnode : nodeOf (base + BitVec.ofNat 64 o - base).toNat 0 nodes = some e := by
      rw [BitVec.add_comm, BitVec.add_sub_cancel, BitVec.toNat_ofNat, Nat.mod_eq_of_lt (by omega)]
      exact (nodeOf_locate he).2
    have htype : type header' = e.type := hof.type
    refine ⟨treeFinddir nodes base e, ?_, fun c result hc hresult => ?_⟩
    · unfold treeDrivers
      rw [hnode, Option.map_some, ← htype]
      rfl
    · unfold treeFinddir
      by_cases hdir : e.type = ustarDirectory
      · rw [if_pos hdir, hpath]
        exact (answers_address ((finddir_locate ht hwf he hdir hc).2 result hresult)).symm
      · rw [if_neg hdir]
        unfold TarfsFinddir at hresult
        rw [hheader'] at hresult
        dsimp only at hresult
        rw [if_pos (by rwa [htype])] at hresult
        rw [hresult]
        rfl

end Drivers

section Sample

/-- The directory `d` with a file `x` in it, which has the text `abc`. -/
def sampleArchive : Archive :=
  archiveOf (block [47] [48] 53 ++ block [100, 47] [48] 53 ++ block [100, 47, 120] [51] 48 ++
    pad 512 [97, 98, 99] ++ pad 512 [])

def sampleNodes : List Node := [⟨[], 0, 53⟩, ⟨[[100]], 0, 53⟩, ⟨[[100], [120]], 3, 48⟩]

theorem wellFormed_sample : WellFormed sampleArchive 0 (sampleNodes.map Node.member) := by
  have hlt : (block [47] [48] 53 ++ block [100, 47] [48] 53 ++ block [100, 47, 120] [51] 48 ++
      pad 512 [97, 98, 99] ++ pad 512 []).length < 2 ^ 64 := by
    simp (disch := decide) only [List.length_append, length_block, length_pad]
    decide
  have hroot : HeaderOf (content sampleArchive 0 500) ⟨[47], 0, 53⟩ :=
    @headerOf_archiveOf _ [] _ _ [48] _ _ _ (by simp only [List.append_assoc, List.nil_append]; rfl)
      rfl hlt (by decide) (by decide) (by decide) (by decide) (by decide) rfl
  have hdirectory : HeaderOf (content sampleArchive 512 500) ⟨[100, 47], 0, 53⟩ :=
    @headerOf_archiveOf _ (block [47] [48] 53) _ _ [48] _ _ _
      (by simp only [List.append_assoc]; rfl) (length_block (by decide) (by decide)) hlt
      (by decide) (by decide) (by decide) (by decide) (by decide) rfl
  have hfile : HeaderOf (content sampleArchive 1024 500) ⟨[100, 47, 120], 3, 48⟩ :=
    @headerOf_archiveOf _ (block [47] [48] 53 ++ block [100, 47] [48] 53) _ _ [51] _ _ _
      (by simp only [List.append_assoc]; rfl)
      (by simp (disch := decide) only [List.length_append, length_block]) hlt
      (by decide) (by decide) (by decide) (by decide) (by decide) rfl
  have hdev : sampleArchive.dev.length.toNat = 2560 := by decide +kernel
  exact ⟨hroot, by rw [hdev]; decide, hdirectory, by rw [hdev]; decide, hfile,
    by rw [hdev]; decide, by rw [hdev]; decide, by decide +kernel⟩

theorem tree_sample : Tree sampleNodes where
  nonempty := List.cons_ne_nil _ _
  components := by decide
  distinct := by decide
  root := by decide
  parent before e after hnodes hne := by
    rcases before with _ | ⟨b, _ | ⟨b', _ | ⟨b'', before⟩⟩⟩
    · obtain ⟨rfl, -⟩ := List.cons.inj hnodes
      exact absurd rfl hne
    · simp only [sampleNodes, List.cons_append, List.nil_append, List.cons.injEq] at hnodes
      obtain ⟨rfl, rfl, -⟩ := hnodes
      exact ⟨_, List.mem_cons_self, rfl, rfl⟩
    · simp only [sampleNodes, List.cons_append, List.nil_append, List.cons.injEq] at hnodes
      obtain ⟨-, rfl, rfl, -⟩ := hnodes
      exact ⟨_, List.mem_cons_of_mem _ List.mem_cons_self, rfl, rfl⟩
    · have hlength := congrArg List.length hnodes
      simp [sampleNodes] at hlength

theorem mounted_sample :
    Mounted sampleArchive sampleNodes (treeDrivers sampleNodes 0x5000) (0x5000 + ·) :=
  mounted_treeDrivers tree_sample wellFormed_sample (by decide) (by decide +kernel)

def sampleMounts : State := newTree.setFsNode newTree.root 0x5000

theorem behind_sample {p : List Chars} (hp : ∀ c ∈ p, Component c) (hne : p ≠ [])
    (hnode : mountNode sampleMounts (join slash p) = 0x5000)
    (hrest : rest sampleMounts (join slash p) = p) (hfits : (join slash p).length ≤ 256) :
    Behind sampleMounts 0x5000 [] p := by
  obtain ⟨s, hrun, hinv⟩ := (inv_vfsInit _ _ _).run allMeet_rootMount
  obtain rfl : sampleMounts = s := Option.some.inj hrun
  exact ⟨hp, hne, (leads_iff hinv _ _).mpr ⟨hnode.symm, hrest.symm⟩, by decide, hfits⟩

/-- There is no `/d/y`. -/
theorem initrd_opened_sample : ∃ after,
    kopen (treeDrivers sampleNodes 0x5000) sampleMounts (join slash [[100], [121]]) =
      some (null, after) :=
  initrd_opened allMeet_rootMount rfl tree_sample wellFormed_sample mounted_sample
    (behind_sample (by decide) (by decide) (by decide +kernel) (by decide +kernel) (by decide))
    fun _ q hq o e he => by
      obtain ⟨before, after, hnodes, -, hpath⟩ := locate_eq_some he
      have hmem : e ∈ sampleNodes := by
        rw [hnodes]
        simp
      have htype : ∀ e ∈ sampleNodes, e.path <+: [[100], [121]] → e.type = ustarDirectory := by
        decide
      exact htype e hmem (hpath ▸ hq)

/-- `/d/x` is opened and read. -/
theorem initrd_read_sample : ∃ header after,
    tarfsGetUstar sampleArchive 1024 = some header ∧
      kopen (treeDrivers sampleNodes 0x5000) sampleMounts (join slash [[100], [120]]) =
        some (0x5000 + 1024, after) ∧
      ∀ (offset size : BitVec 64) (buffer : Addr), 0 ≤ offset.toInt →
        offset.toNat + size.toNat < 2 ^ 64 → buffer ≠ null →
          Sliced 3 offset.toInt size.toNat (1024 + 512)
            (tarfsRead sampleArchive (tarfsUstarToNode header 1024) offset size buffer).1.toInt
            (reads sampleArchive.dev
              (tarfsRead sampleArchive (tarfsUstarToNode header 1024) offset size buffer)) :=
  initrd_read (e := ⟨[[100], [120]], 3, 48⟩) (o := 1024) allMeet_rootMount rfl tree_sample
    wellFormed_sample (by decide +kernel) mounted_sample
    (behind_sample (by decide) (by decide) (by decide +kernel) (by decide +kernel) (by decide))
    rfl rfl

end Sample

end ReduceOS.InitialRamdisk
