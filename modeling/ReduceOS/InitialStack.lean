import ReduceOS.CString
import ReduceOS.DownwardStack
import ReduceOS.ElfRelocation
import ReduceOS.Page
import Mathlib.Data.List.GetD

/-!
The stack that `process_execute` builds for a new program. The strings of the environment
and of the arguments are pushed byte by byte from their terminators down, then the arrays of
pointers to them from their last entries down, and last the three words that `_start` pops.
-/
namespace ReduceOS.InitialStack

open Machine Inet Page DownwardStack
open CString (Chars)
open ElfRelocation (Memory view)

abbrev UserStack := Stack 64 Byte

def threadStackSize : ℕ := 4096

def threadStack : Addr := usermodeStackRegion + BitVec.ofNat 64 threadStackSize

def bytes64 (v : BitVec 64) : List Byte :=
  bytes32 (v.setWidth 32) ++ bytes32 ((v >>> 32).setWidth 32)

def pushByte (t : UserStack) (b : Byte) : UserStack := t.push [b]

def pushWord (t : UserStack) (v : BitVec 64) : UserStack := t.push (bytes64 v)

def charAt (string : Chars) (i : ℕ) : Byte := string.getD i 0

def pushStringFrom (string : Chars) : ℕ → UserStack → UserStack
  | 0, t => pushByte t (charAt string 0)
  | i + 1, t => pushStringFrom string i (pushByte t (charAt string (i + 1)))

/-- `THREAD_PUSH_STACK_STRING` with the length that `strlen` returns. -/
def pushString (t : UserStack) (string : Chars) : UserStack :=
  pushStringFrom string string.length t

def pushStrings (t : UserStack) : List Chars → UserStack × List Addr
  | [] => (t, [])
  | string :: strings =>
    let t := pushString t string
    let (t', pointers) := pushStrings t strings
    (t', t.sp :: pointers)

def pushPointers (pointers : List Addr) : ℕ → UserStack → UserStack
  | 0, t => t
  | e + 1, t => pushPointers pointers e (pushWord t (pointers.getD e null))

def pushArray (t : UserStack) (pointers : List Addr) : UserStack :=
  pushPointers pointers pointers.length (pushWord t null)

/-- The end of `process_execute`. The strings are the ones the arrays point to; `envp` ends
in front of its `NULL`. -/
def processExecute (mem : Memory) (argc : CInt) (argv envp : List Chars) : UserStack :=
  let (t, envpPointers) := pushStrings ⟨mem, threadStack⟩ envp
  let (t, argvPointers) := pushStrings t (argv.take argc.toInt.toNat)
  let t := pushArray t envpPointers
  let userEnvp := t.sp
  let t := pushArray t argvPointers
  let userArgv := t.sp
  let t := pushWord t userEnvp
  let t := pushWord t userArgv
  pushWord t (argc.signExtend 64)

structure Registers where
  rdi : BitVec 64
  rsi : BitVec 64
  rdx : BitVec 64

def popq (t : UserStack) : BitVec 64 × UserStack := (load64 (view t.mem t.sp) 0, ⟨t.mem, t.sp + 8⟩)

def start (t : UserStack) : Registers :=
  let (rdi, t) := popq t
  let (rsi, t) := popq t
  let (rdx, _) := popq t
  ⟨rdi, rsi, rdx⟩

def entryAt (mem : Memory) (array : Addr) (i : ℕ) : Addr :=
  load64 (view mem (array + BitVec.ofNat 64 (8 * i))) 0

/-- A `NULL`-terminated array of pointers to terminated copies of the strings. -/
structure HoldsStrings (mem : Memory) (array : Addr) (strings : List Chars) : Prop where
  copy : ∀ i string, strings[i]? = some string → Holds mem (entryAt mem array i) (string ++ [0])
  terminated : entryAt mem array strings.length = null

def stringsAt (mem : Memory) (array : Addr) (strings : List Chars) : List (ℕ × ℕ) :=
  strings.zipIdx.map fun (string, i) => ((entryAt mem array i).toNat, string.length + 1)

/-- All that was pushed, as addresses and sizes: the words for `_start`, the arrays and the
strings. -/
def pushedObjects (t : UserStack) (argv envp : List Chars) : List (ℕ × ℕ) :=
  (t.sp.toNat, 24) :: ((start t).rsi.toNat, 8 * argv.length + 8) ::
    ((start t).rdx.toNat, 8 * envp.length + 8) ::
    (stringsAt t.mem (start t).rsi argv ++ stringsAt t.mem (start t).rdx envp)

def Apart (o p : ℕ × ℕ) : Prop := o.1 + o.2 ≤ p.1 ∨ p.1 + p.2 ≤ o.1

theorem Apart.symm {o p : ℕ × ℕ} (h : Apart o p) : Apart p o := Or.symm h

structure Initial (mem : Memory) (t : UserStack) (argc : CInt) (argv envp : List Chars) : Prop where
  count : (start t).rdi = argc.signExtend 64
  arguments : HoldsStrings t.mem (start t).rsi argv
  environment : HoldsStrings t.mem (start t).rdx envp
  apart : (pushedObjects t argv envp).Pairwise Apart
  inside : ∀ o ∈ pushedObjects t argv envp,
    threadStack.toNat - threadStackSize ≤ o.1 ∧ o.1 + o.2 ≤ threadStack.toNat
  kept : ∀ a : Addr, a.toNat < threadStack.toNat - threadStackSize ∨ threadStack.toNat ≤ a.toNat →
    t.mem a = mem a

def stringsSize (strings : List Chars) : ℕ := (strings.map fun string => string.length + 1).sum

def stackSize (argv envp : List Chars) : ℕ :=
  stringsSize envp + stringsSize argv + (8 * envp.length + 8) + (8 * argv.length + 8) + 24

section Pushes

variable {mem : Memory} {top : Addr} {t : UserStack} {objects : List (Addr × List Byte)}

@[simp] theorem bytes64_length (v : BitVec 64) : (bytes64 v).length = 8 := rfl

theorem load64_of_holds {a : Addr} {v : BitVec 64} (h : Holds mem a (bytes64 v)) :
    load64 (view mem a) 0 = v := by
  have hbyte : ∀ k b, (bytes64 v)[k]? = some b → view mem a k = b := fun k b hk => h.get hk
  have hlow : load32 (view mem a) 0 = v.setWidth 32 := by
    rw [← join32 (v.setWidth 32), load32, hbyte 0 _ rfl, hbyte 1 _ rfl, hbyte 2 _ rfl,
      hbyte 3 _ rfl]
  have hhigh : load32 (view mem a) 4 = (v >>> 32).setWidth 32 := by
    rw [← join32 ((v >>> 32).setWidth 32), load32, hbyte 4 _ rfl, hbyte 5 _ rfl, hbyte 6 _ rfl,
      hbyte 7 _ rfl]
  rw [load64, Nat.zero_add, hlow, hhigh]
  ext i hi
  simp only [BitVec.getElem_append, BitVec.getElem_setWidth, BitVec.getLsbD_ushiftRight]
  split_ifs with hlt
  · exact BitVec.getLsbD_eq_getElem hi
  · rw [show 32 + (i - 32) = i by omega]
    exact BitVec.getLsbD_eq_getElem hi

/-- The part of a string pushed so far is the object on top. -/
theorem pushStringFrom_pushed {string : Chars} {i : ℕ} (hi : i ≤ string.length)
    (hfits : string.length + 1 + size objects ≤ 2 ^ 64)
    (h : Pushed mem top t ((t.sp, (string ++ [0]).drop (i + 1)) :: objects)) :
    Pushed mem top (pushStringFrom string i t)
      (((pushStringFrom string i t).sp, string ++ [0]) :: objects) := by
  have hstep : ∀ (t : UserStack) i, i ≤ string.length →
      Pushed mem top t ((t.sp, (string ++ [0]).drop (i + 1)) :: objects) →
      Pushed mem top (pushByte t (charAt string i))
        (((pushByte t (charAt string i)).sp, (string ++ [0]).drop i) :: objects) := by
    intro t i hi h
    have hlen : i < (string ++ [0]).length := by simpa using Nat.lt_succ_of_le hi
    have hchar : (string ++ [0])[i] = charAt string i := by
      rw [charAt, List.getElem_append]
      split_ifs with hlt
      · exact (List.getD_eq_getElem _ _ hlt).symm
      · rw [List.getElem_singleton, List.getD_eq_default _ _ (Nat.not_lt.mp hlt)]
    rw [List.drop_eq_getElem_cons hlen, hchar]
    apply (h.push ?_).merge
    simp only [size_cons, List.length_singleton, List.length_drop, List.length_append]
    omega
  induction i generalizing t with
  | zero => exact hstep t 0 hi h
  | succ i ih => exact ih (by omega) (hstep t (i + 1) hi h)

theorem pushString_pushed (string : Chars) (hfits : string.length + 1 + size objects ≤ 2 ^ 64)
    (h : Pushed mem top t objects) :
    Pushed mem top (pushString t string)
      (((pushString t string).sp, string ++ [0]) :: objects) := by
  apply pushStringFrom_pushed le_rfl hfits
  rw [List.drop_eq_nil_of_le (by simp)]
  exact h.empty

def copies (pointers : List Addr) (strings : List Chars) : List (Addr × List Byte) :=
  pointers.zip (strings.map (· ++ [0]))

theorem pushStrings_pushed (strings : List Chars)
    (hfits : stringsSize strings + size objects ≤ 2 ^ 64) (h : Pushed mem top t objects) :
    Pushed mem top (pushStrings t strings).1
        ((copies (pushStrings t strings).2 strings).reverse ++ objects) ∧
      (pushStrings t strings).2.length = strings.length := by
  induction strings generalizing t objects with
  | nil => exact ⟨h, rfl⟩
  | cons string strings ih =>
    have hsum : stringsSize (string :: strings) = string.length + 1 + stringsSize strings := by
      simp [stringsSize]
    rw [hsum] at hfits
    have hfirst := pushString_pushed string (by omega) h
    have hsize : size (((pushString t string).sp, string ++ [0]) :: objects) =
        string.length + 1 + size objects := by simp [size_cons]
    obtain ⟨hrest, hlen⟩ := ih (by rw [hsize]; omega) hfirst
    refine ⟨?_, by simp [pushStrings, hlen]⟩
    simpa [pushStrings, copies] using hrest

/-- The entries pushed so far are part of the object on top. -/
theorem pushPointers_pushed {pointers : List Addr} {e : ℕ} (he : e ≤ pointers.length)
    {l : List Byte} (hfits : 8 * e + l.length + size objects ≤ 2 ^ 64)
    (h : Pushed mem top t ((t.sp, l) :: objects)) :
    Pushed mem top (pushPointers pointers e t)
      (((pushPointers pointers e t).sp, (pointers.take e).flatMap bytes64 ++ l) :: objects) := by
  induction e generalizing t l with
  | zero => simpa [pushPointers] using h
  | succ e ih =>
    have hlast : pointers.take (e + 1) = pointers.take e ++ [pointers.getD e null] := by
      rw [List.take_succ_eq_append_getElem (by omega), List.getD_eq_getElem _ _ (by omega)]
    rw [hlast, List.flatMap_append, List.append_assoc, List.flatMap_singleton]
    apply ih (by omega)
    · rw [List.length_append, bytes64_length]
      omega
    · apply (h.push _).merge
      rw [size_cons, bytes64_length]
      change 8 + (l.length + size objects) ≤ 2 ^ 64
      omega

theorem pushArray_pushed (pointers : List Addr)
    (hfits : 8 * pointers.length + 8 + size objects ≤ 2 ^ 64) (h : Pushed mem top t objects) :
    Pushed mem top (pushArray t pointers)
      (((pushArray t pointers).sp, pointers.flatMap bytes64 ++ bytes64 null) :: objects) := by
  have hnull : Pushed mem top (pushWord t null) (((pushWord t null).sp, bytes64 null) :: objects) :=
    h.push (by rw [bytes64_length]; omega)
  have harray := pushPointers_pushed (Nat.le_refl pointers.length)
    (by rw [bytes64_length]; omega) hnull
  rwa [List.take_length] at harray

/-- Three words pushed one after the other, as one object. -/
theorem pushWords_pushed (x y z : BitVec 64) (hfits : 24 + size objects ≤ 2 ^ 64)
    (h : Pushed mem top t objects) :
    Pushed mem top (pushWord (pushWord (pushWord t x) y) z)
      (((pushWord (pushWord (pushWord t x) y) z).sp, bytes64 z ++ (bytes64 y ++ bytes64 x)) ::
        objects) := by
  have hx : Pushed mem top (pushWord t x) (((pushWord t x).sp, bytes64 x) :: objects) :=
    h.push (by rw [bytes64_length]; omega)
  have hxy : Pushed mem top (pushWord (pushWord t x) y)
      (((pushWord (pushWord t x) y).sp, bytes64 y ++ bytes64 x) :: objects) := by
    apply (hx.push _).merge
    rw [size_cons]
    change 8 + (8 + size objects) ≤ 2 ^ 64
    omega
  apply (hxy.push _).merge
  rw [size_cons]
  change 8 + (16 + size objects) ≤ 2 ^ 64
  omega

end Pushes

section Built

variable {mem : Memory} {t : UserStack} {argc : CInt} {argv envp : List Chars}
  {argvPointers envpPointers pointers : List Addr} {strings : List Chars} {userArgv userEnvp : Addr}

theorem size_copies (hlen : pointers.length = strings.length) :
    size (copies pointers strings) = stringsSize strings := by
  induction strings generalizing pointers with
  | nil =>
    obtain rfl := List.length_eq_zero_iff.mp hlen
    rfl
  | cons string strings ih =>
    cases pointers with
    | nil => simp at hlen
    | cons pointer pointers =>
      have hrest := ih (by simpa using hlen)
      rw [copies, List.map_cons, List.zip_cons_cons, size_cons, ← copies, hrest]
      simp [stringsSize]

theorem size_reverse (objects : List (Addr × List Byte)) : size objects.reverse = size objects := by
  simp [size]

/-- The stack from its pointer upwards: the words for `_start`, the two arrays, and the copies
of the strings. -/
def layout (sp : Addr) (argc : CInt) (userArgv userEnvp : Addr)
    (argvPointers envpPointers : List Addr) (argv envp : List Chars) :
    List (Addr × List Byte) :=
  (sp, bytes64 (argc.signExtend 64) ++ (bytes64 userArgv ++ bytes64 userEnvp)) ::
    (userArgv, argvPointers.flatMap bytes64 ++ bytes64 null) ::
    (userEnvp, envpPointers.flatMap bytes64 ++ bytes64 null) ::
    ((copies argvPointers argv).reverse ++ (copies envpPointers envp).reverse)

theorem words_length (pointers : List Addr) :
    (pointers.flatMap bytes64).length = 8 * pointers.length := by
  induction pointers with
  | nil => rfl
  | cons p pointers ih =>
    rw [List.flatMap_cons, List.length_append, ih, bytes64_length, List.length_cons]
    omega

theorem array_length (pointers : List Addr) :
    (pointers.flatMap bytes64 ++ bytes64 null).length = 8 * pointers.length + 8 := by
  rw [List.length_append, words_length, bytes64_length]

/-- The pushes of `process_execute` leave this layout. -/
theorem processExecute_pushed (mem : Memory) (hargc : argc.toInt = argv.length)
    (hfits : stackSize argv envp ≤ threadStackSize) :
    ∃ argvPointers envpPointers userArgv userEnvp, argvPointers.length = argv.length ∧
      envpPointers.length = envp.length ∧
      Pushed mem threadStack (processExecute mem argc argv envp)
        (layout (processExecute mem argc argv envp).sp argc userArgv userEnvp argvPointers
          envpPointers argv envp) := by
  have htake : argv.take argc.toInt.toNat = argv := by
    rw [hargc, Int.toNat_natCast, List.take_length]
  unfold stackSize threadStackSize at hfits
  obtain ⟨henv, hlene⟩ := pushStrings_pushed (t := ⟨mem, threadStack⟩) envp
    (by simp only [size, List.map_nil, List.sum_nil]; omega) pushed_nil
  have hsizee := size_copies hlene
  obtain ⟨harg, hlena⟩ := pushStrings_pushed argv
    (by rw [List.append_nil, size_reverse, hsizee]; omega) henv
  have hsizea := size_copies hlena
  unfold processExecute
  rw [htake]
  generalize pushStrings ⟨mem, threadStack⟩ envp = environment at *
  obtain ⟨t₁, envpPointers⟩ := environment
  dsimp only at *
  generalize pushStrings t₁ argv = arguments at *
  obtain ⟨t₂, argvPointers⟩ := arguments
  dsimp only at *
  rw [List.append_nil] at harg
  have hstrings : size ((copies argvPointers argv).reverse ++ (copies envpPointers envp).reverse) =
      stringsSize argv + stringsSize envp := by
    rw [size_append, size_reverse, size_reverse, hsizea, hsizee]
  have hE := pushArray_pushed envpPointers (by rw [hstrings, hlene]; omega) harg
  have hA := pushArray_pushed argvPointers
    (by rw [size_cons, array_length, hstrings, hlena, hlene]; omega) hE
  refine ⟨argvPointers, envpPointers, (pushArray (pushArray t₂ envpPointers) argvPointers).sp,
    (pushArray t₂ envpPointers).sp, hlena, hlene, pushWords_pushed _ _ _ ?_ hA⟩
  rw [size_cons, array_length, size_cons, array_length, hstrings, hlena, hlene]
  omega

/-- An array of pointers and the copies they point to. -/
theorem holdsStrings_of_copies (hlen : pointers.length = strings.length) {array : Addr}
    (harray : Holds mem array (pointers.flatMap bytes64 ++ bytes64 null))
    (hcopies : ∀ o ∈ copies pointers strings, Holds mem o.1 o.2) :
    HoldsStrings mem array strings ∧
      stringsAt mem array strings =
        (copies pointers strings).map fun o => (o.1.toNat, o.2.length) := by
  have hentry : ∀ i p, pointers[i]? = some p → entryAt mem array i = p := fun i p hi =>
    load64_of_holds (harray.piece bytes64_length hi)
  have hpointer : ∀ (i : ℕ) string, strings[i]? = some string →
      ∃ p, pointers[i]? = some p ∧ (copies pointers strings)[i]? = some (p, string ++ [0]) := by
    intro i string hi
    obtain ⟨hlt, -⟩ := List.getElem?_eq_some_iff.mp hi
    obtain ⟨p, hp⟩ : ∃ p, pointers[i]? = some p := ⟨_, List.getElem?_eq_getElem (by omega)⟩
    refine ⟨p, hp, ?_⟩
    rw [copies, List.getElem?_zip_eq_some]
    exact ⟨hp, by rw [List.getElem?_map, hi]; rfl⟩
  refine ⟨⟨?_, ?_⟩, ?_⟩
  · intro i string hi
    obtain ⟨p, hp, hcopy⟩ := hpointer i string hi
    rw [hentry i p hp]
    exact hcopies _ (List.mem_of_getElem? hcopy)
  · have hend := (holds_append.mp harray).2
    rw [words_length, hlen] at hend
    exact load64_of_holds hend
  · apply List.ext_getElem?
    intro i
    rw [stringsAt, List.getElem?_map, List.getElem?_map, List.getElem?_zipIdx]
    cases hi : strings[i]? with
    | none =>
      have hge : strings.length ≤ i := List.getElem?_eq_none_iff.mp hi
      rw [List.getElem?_eq_none (by simp [copies]; omega)]
      rfl
    | some string =>
      obtain ⟨p, hp, hcopy⟩ := hpointer i string hi
      rw [hcopy]
      simp [hentry i p hp]

theorem initial_of_pushed (hargv : argvPointers.length = argv.length)
    (henvp : envpPointers.length = envp.length) (hfits : stackSize argv envp ≤ threadStackSize)
    (h : Pushed mem threadStack t
      (layout t.sp argc userArgv userEnvp argvPointers envpPointers argv envp)) :
    Initial mem t argc argv envp := by
  have hholds : ∀ o ∈ layout t.sp argc userArgv userEnvp argvPointers envpPointers argv envp,
      Holds t.mem o.1 o.2 := fun o ho => h.stacked.holds ho
  simp only [layout, List.forall_mem_cons, List.mem_append, List.mem_reverse] at hholds
  obtain ⟨hwords, hargvArray, henvpArray, hcopies⟩ := hholds
  obtain ⟨hcount, hwords⟩ := holds_append.mp hwords
  obtain ⟨hrsi, hrdx⟩ := holds_append.mp hwords
  have hstart : start t = ⟨argc.signExtend 64, userArgv, userEnvp⟩ := by
    have h8 : load64 (view t.mem (t.sp + 8)) 0 = userArgv := load64_of_holds hrsi
    have h16 : load64 (view t.mem (t.sp + 8 + 8)) 0 = userEnvp := load64_of_holds hrdx
    simp only [start, popq, load64_of_holds hcount, h8, h16]
  obtain ⟨harguments, hargvObjects⟩ := holdsStrings_of_copies hargv hargvArray
    fun o ho => hcopies o (Or.inl ho)
  obtain ⟨henvironment, henvpObjects⟩ := holdsStrings_of_copies henvp henvpArray
    fun o ho => hcopies o (Or.inr ho)
  have hperm : (pushedObjects t argv envp).Perm
      ((layout t.sp argc userArgv userEnvp argvPointers envpPointers argv envp).map
        fun o => (o.1.toNat, o.2.length)) := by
    simp only [pushedObjects, layout, hstart, List.map_cons, array_length, hargv, henvp,
      List.map_append, List.map_reverse, hargvObjects, henvpObjects]
    apply List.Perm.cons
    apply List.Perm.cons
    apply List.Perm.cons
    exact (List.reverse_perm _).symm.append (List.reverse_perm _).symm
  have hsize : size (layout t.sp argc userArgv userEnvp argvPointers envpPointers argv envp) =
      stackSize argv envp := by
    simp only [layout, size_cons, size_append, size_reverse, words_length, size_copies hargv,
      size_copies henvp, List.length_append, bytes64_length, stackSize, hargv, henvp]
    omega
  have htop : threadStack.toNat = 0x60000001000 := by decide
  unfold threadStackSize at hfits
  obtain ⟨hsp, hbounds⟩ := h.stacked.bounds (by rw [hsize, htop]; omega)
  rw [hsize] at hsp
  refine ⟨by rw [hstart], by rw [hstart]; exact harguments, by rw [hstart]; exact henvironment,
    ?_, ?_, ?_⟩
  · rw [hperm.pairwise_iff Apart.symm, List.pairwise_map]
    exact (h.stacked.apart (by rw [hsize, htop]; omega)).imp Or.inl
  · intro o ho
    obtain ⟨p, hp, rfl⟩ := List.mem_map.mp (hperm.mem_iff.mp ho)
    have := hbounds p hp
    unfold threadStackSize
    omega
  · intro a ha
    apply h.kept
    unfold threadStackSize at ha
    rw [hsize, BitVec.toNat_sub]
    have := a.isLt
    omega

/-- A program whose strings, arrays and words fit in its stack finds its arguments and its
environment there, all in places of their own. -/
theorem processExecute_initial (mem : Memory) (argc : CInt) (argv envp : List Chars)
    (hargc : argc.toInt = argv.length) (hfits : stackSize argv envp ≤ threadStackSize) :
    Initial mem (processExecute mem argc argv envp) argc argv envp := by
  obtain ⟨argvPointers, envpPointers, userArgv, userEnvp, hargv, henvp, hpushed⟩ :=
    processExecute_pushed mem hargc hfits
  exact initial_of_pushed hargv henvp hfits hpushed

/-- `ls /` with one variable in the environment. -/
theorem processExecute_initial_ls :
    Initial (fun _ => 0) (processExecute (fun _ => 0) 2 [[0x6C, 0x73], [0x2F]] [[0x41, 0x3D, 0x42]])
      2 [[0x6C, 0x73], [0x2F]] [[0x41, 0x3D, 0x42]] :=
  processExecute_initial _ 2 _ _ (by decide) (by decide)

end Built

end ReduceOS.InitialStack
