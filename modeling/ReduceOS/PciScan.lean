import ReduceOS.Machine
import Mathlib.Data.List.Basic
import Mathlib.Data.Fintype.Card
import Mathlib.Data.Fintype.EquivFin
import Mathlib.Logic.Relation
import Mathlib.Order.WellFounded
import Mathlib.Order.RelClasses
import Mathlib.Tactic.SplitIfs

/-!
The enumeration of PCI functions. `pci_scan` goes through all the buses, and through the
secondary bus of a bridge once more when it comes to the bridge, unless bridges are what
it looks for.
-/
namespace ReduceOS.PciScan

open Machine

structure Hit where
  bus : BitVec 8
  slot : BitVec 8
  function : BitVec 8
  vendorId : BitVec 16
  deviceId : BitVec 16
  deriving DecidableEq

abbrev Config := BitVec 32 → BitVec 32

section Source

def pciNone : BitVec 32 := 0xFFFF

def pciTypeBridge : BitVec 16 := 0x0604

def headerTypeMultifunction : BitVec 8 := 0x80

def pciAddr (bus slot func offset : BitVec 8) : BitVec 32 :=
  (bus.setWidth 32 <<< 16) ||| (slot.setWidth 32 <<< 11) ||| (func.setWidth 32 <<< 8) |||
    (offset &&& 0xFC).setWidth 32 ||| 0x80000000

def readConfigOffset (config : Config) (bus slot func offset : BitVec 8) (size : CInt) :
    BitVec 32 :=
  if size ≠ 1 ∧ size ≠ 2 ∧ size ≠ 4 then pciNone
  else
    let out := config (pciAddr bus slot func offset)
    if size = 1 then (out >>> ((offset &&& 3).toNat * 8)) &&& 0xFF
    else if size = 2 then (out >>> ((offset &&& 2).toNat * 8)) &&& 0xFFFF
    else out

def readType (config : Config) (bus slot func : BitVec 8) : BitVec 16 :=
  ((readConfigOffset config bus slot func 0x0B 1 <<< 8) |||
    readConfigOffset config bus slot func 0x0A 1).setWidth 16

def readVendorId (config : Config) (bus slot func : BitVec 8) : BitVec 16 :=
  (readConfigOffset config bus slot func 0x00 2).setWidth 16

def readDeviceId (config : Config) (bus slot func : BitVec 8) : BitVec 16 :=
  (readConfigOffset config bus slot func 0x02 2).setWidth 16

def loop {α : Type} (body : α → Option (CInt × List Hit)) : List α → Option (CInt × List Hit)
  | [] => some (0, [])
  | a :: as => do
    let (ret, hits) ← body a
    if ret ≠ 0 then some (ret, hits)
    else
      let (ret, hits') ← loop body as
      some (ret, hits ++ hits')

variable (config : Config) (callback : Hit → CInt) (type : CInt)

def scanHit (bus slot function : BitVec 8) : CInt × List Hit :=
  let hit : Hit := ⟨bus, slot, function, readVendorId config bus slot function,
    readDeviceId config bus slot function⟩
  (callback hit, [hit])

def isWanted (bus slot func : BitVec 8) : Bool :=
  decide (type = -1) || decide (type = (readType config bus slot func).setWidth 32)

def scanFunction (scanBus : BitVec 8 → Option (CInt × List Hit)) (bus slot func : BitVec 8) :
    Option (CInt × List Hit) :=
  if isWanted config type bus slot func then some (scanHit config callback bus slot func)
  else if readType config bus slot func = pciTypeBridge then
    scanBus ((readConfigOffset config bus slot func 0x19 1).setWidth 8)
  else some (0, [])

def bytes (n : ℕ) : List (BitVec 8) := (List.range n).map (BitVec.ofNat 8)

def scanSlot (scanBus : BitVec 8 → Option (CInt × List Hit)) (bus slot : BitVec 8) :
    Option (CInt × List Hit) :=
  if readVendorId config bus slot 0 = 0xFFFF then some (0, [])
  else
    let htype := (readConfigOffset config bus slot 0 0x0E 1).setWidth 8
    if htype &&& headerTypeMultifunction = 0 then
      scanFunction config callback type scanBus bus slot 0
    else do
      let (ret, hits) ← loop (fun func =>
        if readConfigOffset config bus slot func 0x00 2 ≠ pciNone then
          scanFunction config callback type scanBus bus slot func
        else some (0, [])) (bytes 8)
      some (if ret ≠ 0 then 1 else 0, hits)

/-- `pci_scanBus`, with at most `n` bridges one behind the other. -/
def scanBus : ℕ → BitVec 8 → Option (CInt × List Hit)
  | 0, _ => none
  | n + 1, bus => do
    let (ret, hits) ← loop (scanSlot config callback type (scanBus n) bus) (bytes 32)
    some (if ret ≠ 0 then 1 else 0, hits)

def scan (n : ℕ) : Option (CInt × List Hit) := loop (scanBus config callback type n) (bytes 256)

end Source

variable (config : Config) (type : CInt)

def Present (bus slot func : BitVec 8) : Prop :=
  readVendorId config bus slot 0 ≠ 0xFFFF ∧ readVendorId config bus slot func ≠ 0xFFFF ∧
    (func = 0 ∨
      (readConfigOffset config bus slot 0 0x0E 1).setWidth 8 &&& headerTypeMultifunction ≠ 0)

def Expected (hit : Hit) : Prop :=
  hit.slot.toNat < 32 ∧ hit.function.toNat < 8 ∧
    Present config hit.bus hit.slot hit.function ∧
    isWanted config type hit.bus hit.slot hit.function ∧
    hit.vendorId = readVendorId config hit.bus hit.slot hit.function ∧
    hit.deviceId = readDeviceId config hit.bus hit.slot hit.function

def Leads (bus secondary : BitVec 8) : Prop :=
  ∃ slot func : BitVec 8, slot.toNat < 32 ∧ func.toNat < 8 ∧ Present config bus slot func ∧
    isWanted config type bus slot func = false ∧ readType config bus slot func = pciTypeBridge ∧
    secondary = (readConfigOffset config bus slot func 0x19 1).setWidth 8

/-- No bridges lead from a bus back to it, and none to a bus with something that is looked for. -/
def NoneBehindBridges : Prop :=
  (∀ bus, ¬ Relation.TransGen (Leads config type) bus bus) ∧
    ∀ bus secondary, Leads config type bus secondary →
      ∀ hit, Expected config type hit → hit.bus ≠ secondary

instance (bus slot func : BitVec 8) : Decidable (Present config bus slot func) :=
  inferInstanceAs (Decidable (_ ∧ _ ∧ _))

instance (hit : Hit) : Decidable (Expected config type hit) :=
  inferInstanceAs (Decidable (_ ∧ _ ∧ _ ∧ _ ∧ _ ∧ _))

def FindsEachOnce (callback : Hit → CInt) : Prop :=
  ∃ n ret hits, scan config callback type n = some (ret, hits) ∧
    ∀ hit, hits.count hit = if Expected config type hit then 1 else 0

section Loops

variable {α β : Type} {body : α → Option (CInt × List Hit)} {as bs : List α}

theorem loop_append : loop body (as ++ bs) = (loop body as).bind fun r =>
    if r.1 ≠ 0 then some r else (loop body bs).map fun r' => (r'.1, r.2 ++ r'.2) := by
  induction as with
  | nil =>
    simp only [List.nil_append, loop, Option.bind_some, ne_eq, not_true_eq_false, if_false]
    cases loop body bs <;> rfl
  | cons a as ih =>
    rw [List.cons_append, loop, loop, ih]
    cases body a with
    | none => rfl
    | some r =>
      by_cases hr : r.1 = 0#32
      · cases loop body as with
        | none => simp [hr]
        | some r' =>
          by_cases hr' : r'.1 = 0#32
          · cases loop body bs <;> simp [hr, hr']
          · simp [hr, hr']
      · simp [hr]

theorem loop_flatMap (g : β → List α) (bs : List β) :
    loop body (bs.flatMap g) = loop (fun b => loop body (g b)) bs := by
  induction bs with
  | nil => rfl
  | cons b bs ih =>
    rw [List.flatMap_cons, loop_append, loop, ih]
    cases loop body (g b) with
    | none => rfl
    | some r =>
      by_cases hr : r.1 = 0#32
      · cases loop (fun b => loop body (g b)) bs <;> simp [hr]
      · simp [hr]

theorem loop_filter (p : α → Bool) (as : List α) :
    loop body (as.filter p) = loop (fun a => if p a then body a else some (0, [])) as := by
  induction as with
  | nil => rfl
  | cons a as ih =>
    rw [List.filter_cons, loop]
    by_cases hp : p a = true
    · simp [hp, loop, ih]
    · rw [if_neg hp, if_neg hp, ih]
      cases loop (fun a => if p a = true then body a else some (0, [])) as <;> simp

theorem loop_map (g : β → α) (bs : List β) :
    loop body (bs.map g) = loop (fun b => body (g b)) bs := by
  induction bs with
  | nil => rfl
  | cons b bs ih => rw [List.map_cons, loop, loop, ih]

theorem loop_eq_some {f : α → List Hit} (h : ∀ a ∈ as, body a = some (0, f a)) :
    loop body as = some (0, as.flatMap f) := by
  induction as with
  | nil => rfl
  | cons a as ih =>
    rw [loop, h a List.mem_cons_self, ih fun b hb => h b (List.mem_cons_of_mem _ hb)]
    rfl

def Quiet (body : α → Option (CInt × List Hit)) : Prop := ∀ a r, body a = some r → r.1 = 0

/-- A loop that never stops early has been through everything. -/
theorem loop_some (hquiet : Quiet body) {r : CInt × List Hit} (h : loop body as = some r) :
    r.1 = 0 ∧ ∃ f, (∀ a ∈ as, body a = some (0, f a)) ∧ r.2 = as.flatMap f := by
  have hall : ∀ a ∈ as, (body a).isSome := by
    induction as generalizing r with
    | nil => simp
    | cons a as ih =>
      cases ha : body a with
      | none => simp [loop, ha] at h
      | some q =>
        have hq : q.1 = 0#32 := hquiet a q ha
        cases has : loop body as with
        | none => simp [loop, ha, hq, has] at h
        | some q' =>
          intro b hb
          rcases List.mem_cons.mp hb with rfl | hb
          · simp [ha]
          · exact ih has b hb
  have heach : ∀ a ∈ as, body a = some (0, ((body a).map Prod.snd).getD []) := by
    intro a ha
    obtain ⟨q, hq⟩ := Option.isSome_iff_exists.mp (hall a ha)
    rw [hq]
    exact congrArg some (Prod.ext (hquiet a q hq) rfl)
  have hloop := loop_eq_some heach
  rw [h] at hloop
  obtain rfl := Option.some.inj hloop
  exact ⟨rfl, _, heach, rfl⟩

end Loops

section Buses

variable {config : Config} {callback : Hit → CInt} {type : CInt} {bus slot func : BitVec 8} {n : ℕ}

def functionsOfSlot (config : Config) (bus slot : BitVec 8) : List (BitVec 8) :=
  if readVendorId config bus slot 0 = 0xFFFF then []
  else if (readConfigOffset config bus slot 0 0x0E 1).setWidth 8 &&&
      headerTypeMultifunction = 0 then
    [0]
  else (bytes 8).filter fun func => readConfigOffset config bus slot func 0x00 2 ≠ pciNone

def functionsOf (config : Config) (bus : BitVec 8) : List (BitVec 8 × BitVec 8) :=
  (bytes 32).flatMap fun slot => (functionsOfSlot config bus slot).map fun func => (slot, func)

theorem mem_bytes {k : ℕ} (hk : k ≤ 256) : func ∈ bytes k ↔ func.toNat < k := by
  simp only [bytes, List.mem_map, List.mem_range]
  constructor
  · rintro ⟨i, hi, rfl⟩
    rw [BitVec.toNat_ofNat]
    omega
  · intro h
    exact ⟨func.toNat, h, by simp⟩

theorem nodup_bytes {k : ℕ} (hk : k ≤ 256) : (bytes k).Nodup := by
  refine List.Nodup.map_on (fun i hi j hj heq => ?_) List.nodup_range
  have htoNat := congrArg BitVec.toNat heq
  simp only [BitVec.toNat_ofNat, List.mem_range] at htoNat hi hj
  omega

theorem low_half_eq_iff (w : BitVec 32) :
    w &&& 0xFFFF = pciNone ↔ (w &&& 0xFFFF).setWidth 16 = 0xFFFF := by
  constructor
  · intro h
    rw [h]
    rfl
  · intro h
    have hbits := congrArg BitVec.toNat h
    apply BitVec.eq_of_toNat_eq
    have hle : (w &&& 0xFFFF).toNat ≤ 0xFFFF := by
      rw [BitVec.toNat_and]
      exact Nat.and_le_right
    rw [BitVec.toNat_setWidth, Nat.mod_eq_of_lt (by omega)] at hbits
    exact hbits

theorem vendorId_eq_iff :
    readConfigOffset config bus slot func 0x00 2 = pciNone ↔
      readVendorId config bus slot func = 0xFFFF := by
  have hread : readConfigOffset config bus slot func 0x00 2 =
      config (pciAddr bus slot func 0x00) &&& 0xFFFF := by
    simp [readConfigOffset]
  rw [readVendorId, hread]
  exact low_half_eq_iff _

theorem mem_functionsOfSlot :
    func ∈ functionsOfSlot config bus slot ↔ func.toNat < 8 ∧ Present config bus slot func := by
  unfold functionsOfSlot Present
  split_ifs with hnone hsingle
  · refine iff_of_false List.not_mem_nil fun h => h.2.1 hnone
  · simp only [List.mem_singleton, hsingle, ne_eq, not_true_eq_false, or_false]
    constructor
    · rintro rfl
      exact ⟨by decide, hnone, hnone, rfl⟩
    · exact fun h => h.2.2.2
  · simp only [List.mem_filter, mem_bytes (by omega : 8 ≤ 256), decide_eq_true_eq, ne_eq,
      vendorId_eq_iff, hnone, hsingle, not_false_eq_true, or_true, and_true, true_and]

theorem nodup_functionsOfSlot : (functionsOfSlot config bus slot).Nodup := by
  unfold functionsOfSlot
  split_ifs
  · exact List.nodup_nil
  · exact List.nodup_singleton 0
  · exact (nodup_bytes (by omega)).filter _

theorem mem_functionsOf (p : BitVec 8 × BitVec 8) :
    p ∈ functionsOf config bus ↔ p.1.toNat < 32 ∧ p.2.toNat < 8 ∧ Present config bus p.1 p.2 := by
  simp only [functionsOf, List.mem_flatMap, List.mem_map, mem_bytes (by omega : 32 ≤ 256),
    mem_functionsOfSlot]
  constructor
  · rintro ⟨slot, hslot, func, hfunc, rfl⟩
    exact ⟨hslot, hfunc⟩
  · rintro ⟨hslot, hfunc⟩
    exact ⟨p.1, hslot, p.2, hfunc, rfl⟩

theorem nodup_functionsOf : (functionsOf config bus).Nodup := by
  refine List.nodup_flatMap.mpr ⟨fun slot _ => ?_, ?_⟩
  · exact nodup_functionsOfSlot.map fun f g h => (Prod.mk.inj h).2
  · refine (nodup_bytes (by omega)).imp fun {slot slot'} hne => ?_
    intro p hp hp'
    obtain ⟨f, -, rfl⟩ := List.mem_map.mp hp
    obtain ⟨g, -, heq⟩ := List.mem_map.mp hp'
    exact hne (Prod.mk.inj heq).1.symm

variable (hcallback : ∀ hit, callback hit = 0)
include hcallback

theorem quiet_scanFunction {scanBus : BitVec 8 → Option (CInt × List Hit)} (hquiet : Quiet scanBus)
    (bus : BitVec 8) : Quiet fun p : BitVec 8 × BitVec 8 =>
      scanFunction config callback type scanBus bus p.1 p.2 := by
  intro p r h
  dsimp only [scanFunction] at h
  split_ifs at h
  · obtain rfl := Option.some.inj h
    exact hcallback _
  · exact hquiet _ r h
  · obtain rfl := Option.some.inj h
    rfl

theorem scanSlot_eq {scanBus : BitVec 8 → Option (CInt × List Hit)} (hquiet : Quiet scanBus) :
    scanSlot config callback type scanBus bus slot =
      loop (fun func => scanFunction config callback type scanBus bus slot func)
        (functionsOfSlot config bus slot) := by
  have hfunctions : Quiet fun func => scanFunction config callback type scanBus bus slot func :=
    fun func => quiet_scanFunction hcallback hquiet bus (slot, func)
  by_cases hnone : readVendorId config bus slot 0 = 0xFFFF
  · rw [scanSlot, functionsOfSlot, if_pos hnone, if_pos hnone, loop]
  by_cases hsingle :
      (readConfigOffset config bus slot 0 0x0E 1).setWidth 8 &&& headerTypeMultifunction = 0
  · simp only [scanSlot, functionsOfSlot, if_neg hnone, if_pos hsingle, loop]
    cases hf : scanFunction config callback type scanBus bus slot 0 with
    | none => rfl
    | some r =>
      have hr : r.1 = 0#32 := hfunctions 0 r hf
      simp [hr, Prod.ext_iff]
  · simp only [scanSlot, functionsOfSlot, if_neg hnone, if_neg hsingle, loop_filter,
      decide_eq_true_eq]
    cases hloop : loop (fun func => if readConfigOffset config bus slot func 0x00 2 ≠ pciNone then
        scanFunction config callback type scanBus bus slot func else some (0, [])) (bytes 8) with
    | none => rfl
    | some r =>
      have hquiet' : Quiet fun func => if readConfigOffset config bus slot func 0x00 2 ≠
          pciNone then
          scanFunction config callback type scanBus bus slot func else some (0, []) := by
        intro func r h
        dsimp only at h
        split_ifs at h
        · exact hfunctions func r h
        · obtain rfl := Option.some.inj h
          rfl
      have hr : r.1 = 0#32 := (loop_some hquiet' hloop).1
      simp [hr, Prod.ext_iff]

theorem scanBus_succ (hquiet : Quiet (scanBus config callback type n)) (bus : BitVec 8) :
    scanBus config callback type (n + 1) bus =
      loop (fun p => scanFunction config callback type (scanBus config callback type n) bus p.1 p.2)
        (functionsOf config bus) := by
  have hslots : scanSlot config callback type (scanBus config callback type n) bus = fun slot =>
      loop (fun p : BitVec 8 × BitVec 8 =>
        scanFunction config callback type (scanBus config callback type n) bus p.1 p.2)
        ((functionsOfSlot config bus slot).map fun func => (slot, func)) := by
    funext slot
    rw [scanSlot_eq hcallback hquiet, loop_map]
  rw [scanBus, hslots, functionsOf, loop_flatMap]
  cases hloop : loop (fun slot => loop (fun p : BitVec 8 × BitVec 8 =>
      scanFunction config callback type (scanBus config callback type n) bus p.1 p.2)
      ((functionsOfSlot config bus slot).map fun func => (slot, func))) (bytes 32) with
  | none => rfl
  | some r =>
    have hquiet' : Quiet fun p : BitVec 8 × BitVec 8 =>
        scanFunction config callback type (scanBus config callback type n) bus p.1 p.2 :=
      quiet_scanFunction hcallback hquiet bus
    have hr : r.1 = 0#32 := (loop_some (fun slot r h => (loop_some hquiet' h).1) hloop).1
    simp [hr, Prod.ext_iff]

theorem quiet_scanBus (n : ℕ) : Quiet (scanBus config callback type n) := by
  induction n with
  | zero =>
    intro bus r h
    cases h
  | succ n ih =>
    intro bus r h
    rw [scanBus_succ hcallback ih] at h
    exact (loop_some (quiet_scanFunction hcallback ih bus) h).1

end Buses

section Topology

variable {config : Config} {callback : Hit → CInt} {type : CInt} {bus secondary : BitVec 8} {n : ℕ}

def hitOf (config : Config) (bus : BitVec 8) (p : BitVec 8 × BitVec 8) : Hit :=
  ⟨bus, p.1, p.2, readVendorId config bus p.1 p.2, readDeviceId config bus p.1 p.2⟩

def hitsOf (config : Config) (type : CInt) (bus : BitVec 8) : List Hit :=
  ((functionsOf config bus).filter fun p => isWanted config type bus p.1 p.2).map (hitOf config bus)

theorem mem_hitsOf (hit : Hit) :
    hit ∈ hitsOf config type bus ↔ Expected config type hit ∧ hit.bus = bus := by
  simp only [hitsOf, List.mem_map, List.mem_filter, mem_functionsOf]
  constructor
  · rintro ⟨p, ⟨⟨hslot, hfunc, hpresent⟩, hwanted⟩, rfl⟩
    exact ⟨⟨hslot, hfunc, hpresent, hwanted, rfl, rfl⟩, rfl⟩
  · rintro ⟨⟨hslot, hfunc, hpresent, hwanted, hvendor, hdevice⟩, rfl⟩
    refine ⟨(hit.slot, hit.function), ⟨⟨hslot, hfunc, hpresent⟩, hwanted⟩, ?_⟩
    cases hit
    simp_all [hitOf]

theorem nodup_hitsOf : (hitsOf config type bus).Nodup := by
  refine List.Nodup.map (fun p q h => ?_) (nodup_functionsOf.filter _)
  simp only [hitOf, Hit.mk.injEq, true_and] at h
  exact Prod.ext h.1 h.2.1

theorem exists_bound {α : Type} {P : α → ℕ → Prop} {l : List α}
    (h : ∀ a ∈ l, ∃ n, ∀ m, n ≤ m → P a m) : ∃ n, ∀ a ∈ l, ∀ m, n ≤ m → P a m := by
  induction l with
  | nil => exact ⟨0, fun a ha => absurd ha List.not_mem_nil⟩
  | cons a l ih =>
    obtain ⟨n, hn⟩ := h a List.mem_cons_self
    obtain ⟨k, hk⟩ := ih fun b hb => h b (List.mem_cons_of_mem _ hb)
    refine ⟨n + k, fun b hb m hm => ?_⟩
    rcases List.mem_cons.mp hb with rfl | hb
    · exact hn m (by omega)
    · exact hk b hb m (by omega)

theorem wellFounded_leads (hacyclic : ∀ bus, ¬ Relation.TransGen (Leads config type) bus bus) :
    WellFounded (flip (Leads config type)) := by
  have hfinite : Finite (BitVec 8) :=
    Finite.of_injective BitVec.toFin fun _ _ => BitVec.eq_of_toFin_eq
  have htrans : IsTrans (BitVec 8) (Relation.TransGen (flip (Leads config type))) :=
    ⟨fun _ _ _ => Relation.TransGen.trans⟩
  have hirrefl : Std.Irrefl (Relation.TransGen (flip (Leads config type))) :=
    ⟨fun bus h => hacyclic bus (Relation.transGen_swap.mp h)⟩
  exact Subrelation.wf (fun h => Relation.TransGen.single h)
    (Finite.wellFounded_of_trans_of_irrefl (Relation.TransGen (flip (Leads config type))))

variable (hcallback : ∀ hit, callback hit = 0)
include hcallback

theorem scanFunction_of_wanted {scanBus : BitVec 8 → Option (CInt × List Hit)}
    {p : BitVec 8 × BitVec 8} (hwanted : isWanted config type bus p.1 p.2) :
    scanFunction config callback type scanBus bus p.1 p.2 = some (0, [hitOf config bus p]) := by
  rw [scanFunction, if_pos hwanted, scanHit, hcallback]
  rfl

/-- What a scan of a bus has found, when it has ended: what is on the bus, and what is behind its
bridges. -/
theorem scanBus_some {r : CInt × List Hit}
    (h : scanBus config callback type (n + 1) bus = some r) :
    (∀ hit ∈ hitsOf config type bus, hit ∈ r.2) ∧
      ∀ secondary, Leads config type bus secondary →
        ∃ r', scanBus config callback type n secondary = some r' ∧ ∀ hit ∈ r'.2, hit ∈ r.2 := by
  have hquiet : Quiet (scanBus config callback type n) := quiet_scanBus hcallback n
  rw [scanBus_succ hcallback hquiet] at h
  obtain ⟨-, f, hf, hr⟩ := loop_some (quiet_scanFunction hcallback hquiet bus) h
  have hmem : ∀ p ∈ functionsOf config bus, ∀ hit ∈ f p, hit ∈ r.2 := by
    intro p hp hit hhit
    rw [hr]
    exact List.mem_flatMap.mpr ⟨p, hp, hhit⟩
  refine ⟨fun hit hhit => ?_, fun secondary hleads => ?_⟩
  · obtain ⟨p, hp, rfl⟩ := List.mem_map.mp hhit
    obtain ⟨hp, hwanted⟩ := List.mem_filter.mp hp
    refine hmem p hp _ ?_
    have heach := hf p hp
    rw [scanFunction_of_wanted hcallback hwanted] at heach
    rw [← (Prod.mk.inj (Option.some.inj heach)).2]
    exact List.mem_singleton_self _
  · obtain ⟨slot, func, hslot, hfunc, hpresent, hwanted, hbridge, rfl⟩ := hleads
    have hp := (mem_functionsOf (slot, func)).mpr ⟨hslot, hfunc, hpresent⟩
    have heach := hf _ hp
    rw [scanFunction, if_neg (by simp [hwanted]), if_pos hbridge] at heach
    exact ⟨_, heach, hmem _ hp⟩

/-- A scan that has ended has ended on every bus that its own leads to. -/
theorem exists_lt_of_transGen (hleads : Relation.TransGen (Leads config type) bus secondary) :
    ∀ n, (scanBus config callback type n bus).isSome →
      ∃ m < n, (scanBus config callback type m secondary).isSome := by
  have hone : ∀ bus secondary n, Leads config type bus secondary →
      (scanBus config callback type n bus).isSome →
      ∃ m < n, (scanBus config callback type m secondary).isSome := by
    intro bus secondary n hleads hsome
    cases n with
    | zero => cases hsome
    | succ n =>
      obtain ⟨r, hr⟩ := Option.isSome_iff_exists.mp hsome
      obtain ⟨r', hr', -⟩ := (scanBus_some hcallback hr).2 secondary hleads
      exact ⟨n, Nat.lt_succ_self n, by simp [hr']⟩
  induction hleads with
  | single h => exact fun n => hone _ _ n h
  | tail _ h ih =>
    intro n hsome
    obtain ⟨m, hm, hsome'⟩ := ih n hsome
    obtain ⟨k, hk, hsome''⟩ := hone _ _ m h hsome'
    exact ⟨k, by omega, hsome''⟩

theorem scanBus_eq_none_of_cycle (hcycle : Relation.TransGen (Leads config type) bus bus) (n : ℕ) :
    scanBus config callback type n bus = none := by
  induction n using Nat.strong_induction_on with
  | _ n ih =>
    by_contra hsome
    obtain ⟨m, hm, hsome'⟩ :=
      exists_lt_of_transGen hcallback hcycle n (Option.ne_none_iff_isSome.mp hsome)
    rw [ih m hm] at hsome'
    cases hsome'

theorem noneBehindBridges_of_finds (h : FindsEachOnce config type callback) :
    NoneBehindBridges config type := by
  obtain ⟨n, ret, hits, hscan, hcount⟩ := h
  obtain ⟨-, f, hf, rfl⟩ := loop_some (quiet_scanBus hcallback n) hscan
  have hall : ∀ bus, bus ∈ bytes 256 := fun bus => (mem_bytes (by omega)).mpr bus.isLt
  have hacyclic : ∀ bus, ¬ Relation.TransGen (Leads config type) bus bus := by
    intro bus hcycle
    have hnone := scanBus_eq_none_of_cycle hcallback hcycle n
    rw [hf bus (hall bus)] at hnone
    cases hnone
  refine ⟨hacyclic, fun bus secondary hleads hit hexpected hhit => ?_⟩
  have hne : bus ≠ secondary := by
    rintro rfl
    exact hacyclic bus (Relation.TransGen.single hleads)
  cases n with
  | zero => cases hf bus (hall bus)
  | succ n =>
    have hown : ∀ m r, scanBus config callback type m secondary = some r → hit ∈ r.2 := by
      intro m r hr
      cases m with
      | zero => cases hr
      | succ m => exact (scanBus_some hcallback hr).1 hit ((mem_hitsOf hit).mpr ⟨hexpected, hhit⟩)
    obtain ⟨r', hr', hsub⟩ := (scanBus_some hcallback (hf bus (hall bus))).2 secondary hleads
    have hfirst : hit ∈ f bus := hsub hit (hown n r' hr')
    have hsecond : hit ∈ f secondary := hown (n + 1) _ (hf secondary (hall secondary))
    have hone : ((bytes 256).flatMap f).count hit = 1 := by
      rw [hcount hit, if_pos hexpected]
    have hperm : (bytes 256).Perm
        (bus :: secondary :: ((bytes 256).erase bus).erase secondary) := by
      refine (List.perm_cons_erase (hall bus)).trans (List.Perm.cons bus ?_)
      exact List.perm_cons_erase (List.mem_erase_of_ne hne.symm |>.mpr (hall secondary))
    have hcounts := (hperm.flatMap_right f).count_eq hit
    simp only [List.flatMap_cons, List.count_append] at hcounts
    have hpos := List.count_pos_iff.mpr hfirst
    have hpos' := List.count_pos_iff.mpr hsecond
    omega

/-- With nothing behind bridges, the scan of a bus ends, and finds what is on the bus. -/
theorem scanBus_eq_hitsOf (hnone : NoneBehindBridges config type) (bus : BitVec 8) :
    ∃ n, ∀ m, n ≤ m → scanBus config callback type m bus = some (0, hitsOf config type bus) := by
  induction bus using (wellFounded_leads hnone.1).induction with
  | _ bus ih =>
    have heach : ∀ p ∈ functionsOf config bus, ∃ n, ∀ m, n ≤ m →
        scanFunction config callback type (scanBus config callback type m) bus p.1 p.2 =
          some (0, if isWanted config type bus p.1 p.2 then [hitOf config bus p] else []) := by
      intro p hp
      obtain ⟨hslot, hfunc, hpresent⟩ := (mem_functionsOf p).mp hp
      by_cases hwanted : isWanted config type bus p.1 p.2 = true
      · refine ⟨0, fun m _ => ?_⟩
        rw [scanFunction_of_wanted hcallback hwanted, if_pos hwanted]
      · simp only [scanFunction, if_neg hwanted]
        by_cases hbridge : readType config bus p.1 p.2 = pciTypeBridge
        · have hleads : Leads config type bus
              ((readConfigOffset config bus p.1 p.2 0x19 1).setWidth 8) :=
            ⟨p.1, p.2, hslot, hfunc, hpresent, by simpa using hwanted, hbridge, rfl⟩
          obtain ⟨n, hn⟩ := ih _ hleads
          have hempty : hitsOf config type
              ((readConfigOffset config bus p.1 p.2 0x19 1).setWidth 8) = [] := by
            refine List.eq_nil_iff_forall_not_mem.mpr fun hit hhit => ?_
            obtain ⟨hexpected, hbus⟩ := (mem_hitsOf hit).mp hhit
            exact hnone.2 _ _ hleads hit hexpected hbus
          exact ⟨n, fun m hm => by rw [if_pos hbridge, hn m hm, hempty]⟩
        · exact ⟨0, fun m _ => by rw [if_neg hbridge]⟩
    obtain ⟨n, hn⟩ := exists_bound heach
    refine ⟨n + 1, fun m hm => ?_⟩
    obtain ⟨m, rfl⟩ := Nat.exists_eq_add_one_of_ne_zero (by omega : m ≠ 0)
    rw [scanBus_succ hcallback (quiet_scanBus hcallback m),
      loop_eq_some fun p hp => hn p hp m (by omega), hitsOf]
    congr 2
    induction functionsOf config bus with
    | nil => rfl
    | cons p l ih =>
      rw [List.flatMap_cons, List.filter_cons, ih]
      split_ifs <;> simp

theorem finds_of_noneBehindBridges (hnone : NoneBehindBridges config type) :
    FindsEachOnce config type callback := by
  obtain ⟨n, hn⟩ := exists_bound fun bus (_ : bus ∈ bytes 256) =>
    scanBus_eq_hitsOf hcallback hnone bus
  refine ⟨n, 0, _, loop_eq_some fun bus hbus => hn bus hbus n (Nat.le_refl n), fun hit => ?_⟩
  have hnodup : ((bytes 256).flatMap (hitsOf config type)).Nodup := by
    refine List.nodup_flatMap.mpr ⟨fun bus _ => nodup_hitsOf, ?_⟩
    refine (nodup_bytes (Nat.le_refl 256)).imp fun {bus bus'} hne hit hhit hhit' => ?_
    exact hne (((mem_hitsOf hit).mp hhit).2.symm.trans ((mem_hitsOf hit).mp hhit').2)
  have hmem : hit ∈ (bytes 256).flatMap (hitsOf config type) ↔ Expected config type hit := by
    simp only [List.mem_flatMap, mem_hitsOf]
    constructor
    · rintro ⟨bus, -, hexpected, -⟩
      exact hexpected
    · exact fun hexpected =>
        ⟨hit.bus, (mem_bytes (Nat.le_refl 256)).mpr hit.bus.isLt, hexpected, rfl⟩
  rw [hnodup.count]
  simp only [hmem]

end Topology

/-- With a callback that always returns 0, the scan ends and calls it once for each function that is
looked for, exactly when no bridges lead in a circle and none leads to a bus with such a function;
bridges do not count where they are looked for themselves. -/
theorem finds_each_once_iff (config : Config) (type : CInt) {callback : Hit → CInt}
    (hcallback : ∀ hit, callback hit = 0) :
    FindsEachOnce config type callback ↔ NoneBehindBridges config type :=
  ⟨noneBehindBridges_of_finds hcallback, finds_of_noneBehindBridges hcallback⟩

theorem toNat_shifted (x : BitVec 8) {k : ℕ} (hk : k ≤ 16) :
    (x.setWidth 32 <<< k).toNat = 2 ^ k * x.toNat := by
  have hx := x.isLt
  have hle : 2 ^ k * x.toNat ≤ 2 ^ 16 * x.toNat :=
    Nat.mul_le_mul_right _ (Nat.pow_le_pow_right (by decide) hk)
  rw [BitVec.toNat_shiftLeft, BitVec.toNat_setWidth, Nat.shiftLeft_eq,
    Nat.mod_eq_of_lt (by omega : x.toNat < 2 ^ 32), Nat.mul_comm, Nat.mod_eq_of_lt (by omega)]

/-- The address of the first register of a function. -/
theorem pciAddr_toNat {bus slot func : BitVec 8} (hslot : slot.toNat < 32)
    (hfunc : func.toNat < 8) :
    (pciAddr bus slot func 0).toNat =
      2 ^ 31 + (2 ^ 16 * bus.toNat + 2 ^ 11 * slot.toNat + 2 ^ 8 * func.toNat) := by
  have hbus := bus.isLt
  have hdevice : 2 ^ 16 * bus.toNat ||| 2 ^ 11 * slot.toNat =
      2 ^ 11 * (2 ^ 5 * bus.toNat + slot.toNat) := by
    rw [← Nat.two_pow_add_eq_or_of_lt (by omega)]
    omega
  have hfunction : 2 ^ 11 * (2 ^ 5 * bus.toNat + slot.toNat) ||| 2 ^ 8 * func.toNat =
      2 ^ 16 * bus.toNat + 2 ^ 11 * slot.toNat + 2 ^ 8 * func.toNat := by
    rw [← Nat.two_pow_add_eq_or_of_lt (by omega)]
    omega
  have henabled : 2 ^ 31 ||| (2 ^ 16 * bus.toNat + 2 ^ 11 * slot.toNat + 2 ^ 8 * func.toNat) =
      2 ^ 31 + (2 ^ 16 * bus.toNat + 2 ^ 11 * slot.toNat + 2 ^ 8 * func.toNat) := by
    have hsum := Nat.two_pow_add_eq_or_of_lt
      (by omega : 2 ^ 16 * bus.toNat + 2 ^ 11 * slot.toNat + 2 ^ 8 * func.toNat < 2 ^ 31) 1
    exact hsum.symm
  have hoffset : ((0 : BitVec 8) &&& 0xFC).setWidth 32 = (0 : BitVec 32) := by decide
  have henable : (0x80000000 : BitVec 32).toNat = 2 ^ 31 := by decide
  rw [pciAddr, hoffset]
  simp only [BitVec.toNat_or, toNat_shifted _ (by omega : 16 ≤ 16),
    toNat_shifted _ (by omega : 11 ≤ 16), toNat_shifted _ (by omega : 8 ≤ 16), henable]
  have hzero : (0 : BitVec 32).toNat = 0 := by decide
  rw [hdevice, hfunction, hzero, Nat.or_zero, Nat.or_comm, henabled]

def branchedRegisters : List (BitVec 32 × BitVec 32) :=
  [(0x80000000, 0x00011111), (0x80000008, 0x02000000), (0x8000000C, 0x00800000),
    (0x80000100, 0x00021111), (0x80000108, 0x02000000),
    (0x80000800, 0x00033333), (0x80000808, 0x06040000), (0x8000080C, 0x00010000),
    (0x80000818, 0x00000100),
    (0x80010000, 0x00044444), (0x80010008, 0x03000000), (0x8001000C, 0)]

def branched : Config := fun address => (branchedRegisters.lookup address).getD 0xFFFFFFFF

def branchedFunctions : List (BitVec 8 × BitVec 8 × BitVec 8) :=
  [(0, 0, 0), (0, 0, 1), (0, 1, 0), (1, 0, 0)]

theorem readVendorId_of_absent {bus slot func : BitVec 8}
    (h : config (pciAddr bus slot func 0) = 0xFFFFFFFF) :
    readVendorId config bus slot func = 0xFFFF := by
  have hread : readConfigOffset config bus slot func 0x00 2 =
      config (pciAddr bus slot func 0) &&& 0xFFFF := by
    simp [readConfigOffset]
  rw [readVendorId, hread, h]
  rfl

theorem present_branched {bus slot func : BitVec 8} (hslot : slot.toNat < 32)
    (hfunc : func.toNat < 8) (hpresent : Present branched bus slot func) :
    (bus, slot, func) ∈ branchedFunctions := by
  have hregister : (pciAddr bus slot func 0).toNat ∈ branchedRegisters.map (·.1.toNat) := by
    by_contra hnone
    refine hpresent.2.1 (readVendorId_of_absent branched ?_)
    have hlookup : branchedRegisters.lookup (pciAddr bus slot func 0) = none := by
      rw [List.lookup_eq_none_iff]
      intro p hp
      rw [bne_iff_ne]
      intro heq
      exact hnone (List.mem_map.mpr ⟨p, hp, by rw [heq]⟩)
    rw [branched, hlookup, Option.getD_none]
  rw [pciAddr_toNat hslot hfunc] at hregister
  have hbus := bus.isLt
  have hfields : (bus.toNat, slot.toNat, func.toNat) ∈
      branchedFunctions.map fun p => (p.1.toNat, p.2.1.toNat, p.2.2.toNat) := by
    simp [branchedRegisters] at hregister
    simp [branchedFunctions]
    omega
  obtain ⟨p, hp, heq⟩ := List.mem_map.mp hfields
  simp only [Prod.mk.injEq, ← BitVec.toNat_eq] at heq
  obtain ⟨rfl, rfl, rfl⟩ := heq
  exact hp

/-- Both functions of the network controller are found, and nothing is found behind the bridge. -/
theorem finds_both_functions :
    (FindsEachOnce branched 0x0200 fun _ => 0) ∧
      Expected branched 0x0200 ⟨0, 0, 0, 0x1111, 1⟩ ∧
      Expected branched 0x0200 ⟨0, 0, 1, 0x1111, 2⟩ := by
  have hleads : ∀ bus secondary, Leads branched 0x0200 bus secondary → bus = 0 ∧ secondary = 1 := by
    rintro bus secondary ⟨slot, func, hslot, hfunc, hpresent, -, hbridge, rfl⟩
    have hmem := present_branched hslot hfunc hpresent
    simp only [branchedFunctions, List.mem_cons, Prod.mk.injEq, List.not_mem_nil, or_false] at hmem
    rcases hmem with ⟨rfl, rfl, rfl⟩ | ⟨rfl, rfl, rfl⟩ | ⟨rfl, rfl, rfl⟩ | ⟨rfl, rfl, rfl⟩ <;>
      revert hbridge <;> decide +kernel
  refine ⟨(finds_each_once_iff branched 0x0200 fun _ => rfl).mpr ⟨fun bus hcycle => ?_, ?_⟩,
    by decide +kernel, by decide +kernel⟩
  · obtain ⟨next, hfirst, -⟩ := Relation.TransGen.head'_iff.mp hcycle
    obtain ⟨last, -, hlast⟩ := Relation.TransGen.tail'_iff.mp hcycle
    have hzero := (hleads bus next hfirst).1
    have hone := (hleads last bus hlast).2
    rw [hzero] at hone
    contradiction
  · intro bus secondary hlead hit hexpected hbus
    obtain ⟨-, rfl⟩ := hleads bus secondary hlead
    obtain ⟨hslot, hfunc, hpresent, hwanted, -⟩ := hexpected
    rw [hbus] at hpresent hwanted
    have hmem := present_branched hslot hfunc hpresent
    simp [branchedFunctions] at hmem
    rw [hmem.1, hmem.2] at hwanted
    revert hwanted
    decide +kernel

/-- On bus 0 there is a bridge to bus 1, and on bus 1 a network controller. -/
def twoBuses : Config := fun address =>
  if address = 0x80000000 then 0x00011111
  else if address = 0x80000008 then 0x06040000
  else if address = 0x80000018 then 0x00000100
  else if address = 0x80010000 then 0x00022222
  else if address = 0x80010008 then 0x02000000
  else if address = 0x8000000C ∨ address = 0x8001000C then 0
  else 0xFFFFFFFF

/-- The controller is found behind the bridge and on its bus. -/
theorem finds_controller_twice : ¬ FindsEachOnce twoBuses 0x0200 fun _ => 0 := by
  intro h
  have hleads : Leads twoBuses 0x0200 0 1 := by
    refine ⟨0, 0, ?_, ?_, ?_, ?_, ?_, ?_⟩ <;> decide +kernel
  have hexpected : Expected twoBuses 0x0200 ⟨1, 0, 0, 0x2222, 0x0002⟩ := by decide +kernel
  exact (noneBehindBridges_of_finds (fun _ => rfl) h).2 0 1 hleads _ hexpected rfl

end ReduceOS.PciScan
