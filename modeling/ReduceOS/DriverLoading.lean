import ReduceOS.DriverOrder

/-!
From the configuration files of the drivers to the drivers in the kernel. The build script writes
the drivers in the order it found, and the kernel tries one after the other; a driver that fails is
left out, or stops the kernel where its configuration says so.
-/
namespace ReduceOS.DriverLoading

open Precedence DriverOrder

section Script

/-- The lines of a `driver.conf` that the script reads, without their keys and the quotes. -/
structure Conf where
  filename : String
  priority : String
  environment : String
  loadBefore : Option String

structure Driver where
  filename : String
  priority : ℕ
  environment : ℕ
  loadBefore : List String
deriving DecidableEq

def driverCritical : ℕ := 0
def driverWarn : ℕ := 1
def driverIgnore : ℕ := 2

def driverEnvironmentNormal : ℕ := 0
def driverEnvironmentPreload : ℕ := 1
def driverEnvironmentAny : ℕ := 2

def driverVersion : ℕ := 1

def Conf.loadbefore (conf : Conf) : List String :=
  match conf.loadBefore with
  | some line => (line.toList.splitOn ',').map String.ofList
  | none => []

def Driver.ofConf (conf : Conf) : Driver where
  filename := conf.filename
  priority :=
    if conf.priority = "CRITICAL" then driverCritical
    else if conf.priority = "WARN" then driverWarn
    else if conf.priority = "IGNORE" then driverIgnore
    else driverIgnore
  environment :=
    if conf.environment = "NORMAL" then driverEnvironmentNormal
    else if conf.environment = "PRELOAD" then driverEnvironmentPreload
    else if conf.environment = "ANY" then driverEnvironmentAny
    else driverEnvironmentNormal
  loadBefore := conf.loadbefore

/-- `drivers`, where a later driver replaces one of the same name. -/
def driversOf (confs : List Conf) (filename : String) : Option Driver :=
  (confs.reverse.find? (·.filename = filename)).map Driver.ofConf

def constraintsOf (confs : List Conf) : List (String × String) :=
  confs.flatMap fun conf => conf.loadbefore.map (conf.filename, ·)

def finalDriver (confs : List Conf) (filename : String) : Except (SolveError String) Driver :=
  match driversOf confs filename with
  | some driver => .ok driver
  | none => .error (.keyError filename)

/-- What the script writes to `driver_conf.json`. -/
structure DriverData where
  version : ℕ
  drivers : List Driver
deriving DecidableEq

/-- `create_driver_data.py`, from the configuration files that it has read. -/
def createDriverData (confs : List Conf) : Except (SolveError String) DriverData :=
  (solveDriverConstraints (confs.map (·.filename)) (constraintsOf confs)).bind fun solved =>
  (solved.mapM (finalDriver confs)).map fun drivers => { version := driverVersion, drivers }

end Script

section Kernel

variable {σ φ μ : Type*}

structure LoadedDriver (μ : Type*) where
  metadata : μ
  filename : String
  priority : ℕ
  environment : ℕ
  loadAddress : ℕ
  size : ℤ

/-- The rest of the kernel as the loader calls it: files, the memory for drivers, the ELF loader and
the code of the drivers. -/
structure World (σ φ μ : Type*) where
  kopen : String → σ → Option φ × σ
  fsRead : φ → ℕ → σ → ℤ × σ
  fsClose : Option φ → σ → σ
  length : φ → ℕ
  memMapDriver : ℕ → σ → ℕ × σ
  memUnmapDriver : ℕ → ℕ → σ → σ
  elfLoadBuffer : ℕ → σ → ℕ × σ
  elfFindSymbol : ℕ → String → σ → Option μ
  elfCleanup : ℕ → σ → σ
  init : μ → List String → σ → ℤ × σ

inductive Panic
  | driverLoadFailed (file error : String)
  | driverLoaderError (message : String)

structure Kernel (σ μ : Type*) where
  world : σ
  driverList : List (LoadedDriver μ)

def driverHandleLoadError (priority : ℕ) (error file : String) : Except Panic Unit :=
  if priority = driverCritical then .error (.driverLoadFailed file error) else .ok ()

def driverLoad (W : World σ φ μ) (driverFile : φ) (priority environment : ℕ) (file : String)
    (argv : List String) (k : Kernel σ μ) : Except Panic (ℤ × Kernel σ μ) :=
  let (address, s) := W.memMapDriver (W.length driverFile) k.world
  let (read, s) := W.fsRead driverFile address s
  if read ≠ W.length driverFile then
    (driverHandleLoadError priority "Read error" file).map fun _ =>
      (-1, { k with world := W.memUnmapDriver address (W.length driverFile) s })
  else
    let (elf, s) := W.elfLoadBuffer address s
    if elf = 0 then
      (driverHandleLoadError priority
        "ELF load error (check to make sure architecture matches)" file).map fun _ =>
          (-1, { k with world := W.memUnmapDriver address (W.length driverFile) s })
    else
      match W.elfFindSymbol elf "driver_metadata" s with
      | none =>
          (driverHandleLoadError priority
            "No driver metadata (checked for driver_metadata symbol)" file).map fun _ =>
              (-1, { k with
                world := W.memUnmapDriver address (W.length driverFile) (W.elfCleanup elf s) })
      | some metadata =>
          -- where the next driver would go
          let (driverEnd, s) := W.memMapDriver 0x1000 s
          let s := W.memUnmapDriver driverEnd 0x1000 s
          let loaded : LoadedDriver μ :=
            { metadata, filename := file, priority, environment, loadAddress := address
              size := (driverEnd : ℤ) - address }
          let (loadstatus, s) := W.init metadata argv s
          if loadstatus ≠ 0 then
            -- the entry of this driver, the last one, leaves the list again
            (driverHandleLoadError priority "Init function did not return 0" file).map fun _ =>
              (-1,
                { world := W.memUnmapDriver address (W.length driverFile) (W.elfCleanup elf s)
                  driverList := (k.driverList ++ [loaded]).eraseIdx k.driverList.length })
          else
            .ok (0, { world := s, driverList := k.driverList ++ [loaded] })

def driverDefaultPath : String := "/device/initrd/drivers/"

/-- The name that the loader opens, which `snprintf` cuts to its buffer. -/
def fullFilename (filename : String) : String :=
  String.ofList ((driverDefaultPath ++ filename).toList.take 255)

def tryDriver (W : World σ φ μ) (driver : Driver) (drivers : ℕ) (k : Kernel σ μ) :
    Except Panic (ℕ × Kernel σ μ) :=
  match W.kopen (fullFilename driver.filename) k.world with
  | (none, s) =>
      (driverHandleLoadError driver.priority "File not found" driver.filename).map fun _ =>
        (drivers, { k with world := W.fsClose none s })
  | (some file, s) =>
      (driverLoad W file driver.priority driver.environment driver.filename [driver.filename]
        { k with world := s }).map fun (status, k) =>
          (if status = 0 then drivers + 1 else drivers,
            { k with world := W.fsClose (some file) k.world })

def tryDrivers (W : World σ φ μ) (noload : String → Bool) :
    List Driver → ℕ → Kernel σ μ → Except Panic (ℕ × Kernel σ μ)
  | [], drivers, k => .ok (drivers, k)
  | driver :: rest, drivers, k =>
      if noload driver.filename then tryDrivers W noload rest drivers k
      else (tryDriver W driver drivers k).bind fun (drivers, k) =>
          tryDrivers W noload rest drivers k

def driverCurrentVersion : ℕ := 1

/-- `driver_loadConfiguration`, where `noload` tells the drivers that the kernel arguments rule
out. -/
def driverLoadConfiguration (W : World σ φ μ) (noload : String → Bool) (data : DriverData)
    (k : Kernel σ μ) : Except Panic (ℕ × Kernel σ μ) :=
  if data.version ≠ driverCurrentVersion then
    .error (.driverLoaderError "*** Bad version field in JSON configuration\n")
  else tryDrivers W noload data.drivers 0 k

end Kernel

section Results

variable {σ φ μ : Type*} {W : World σ φ μ}

theorem driverHandleLoadError_ok {priority : ℕ} {error file : String} {u : Unit}
    (h : driverHandleLoadError priority error file = .ok u) : priority ≠ driverCritical := by
  intro hp
  simp [driverHandleLoadError, hp] at h

/-- What a caller of `driverHandleLoadError` goes on with. -/
theorem map_handled {priority : ℕ} {error file : String} {β : Type*} {f : Unit → β} {r : β}
    (h : (driverHandleLoadError priority error file).map f = .ok r) :
    priority ≠ driverCritical ∧ r = f () := by
  match he : driverHandleLoadError priority error file with
  | .error _ => simp [he, Except.map] at h
  | .ok () =>
    rw [he] at h
    exact ⟨driverHandleLoadError_ok he, (Except.ok.inj h).symm⟩

/-- A driver is added to the list, or the list is left as it was and the driver is no critical
one. -/
theorem driverLoad_cases {driverFile : φ} {priority environment : ℕ} {file : String}
    {argv : List String} {k k' : Kernel σ μ} {status : ℤ}
    (h : driverLoad W driverFile priority environment file argv k = .ok (status, k')) :
    (status = 0 ∧ ∃ loaded, loaded.filename = file ∧ k'.driverList = k.driverList ++ [loaded]) ∨
      (status ≠ 0 ∧ priority ≠ driverCritical ∧ k'.driverList = k.driverList) := by
  simp only [driverLoad] at h
  split at h
  · obtain ⟨hp, heq⟩ := map_handled h
    obtain ⟨rfl, rfl⟩ := Prod.mk.inj heq
    exact .inr ⟨by decide, hp, rfl⟩
  split at h
  · obtain ⟨hp, heq⟩ := map_handled h
    obtain ⟨rfl, rfl⟩ := Prod.mk.inj heq
    exact .inr ⟨by decide, hp, rfl⟩
  split at h
  · obtain ⟨hp, heq⟩ := map_handled h
    obtain ⟨rfl, rfl⟩ := Prod.mk.inj heq
    exact .inr ⟨by decide, hp, rfl⟩
  split at h
  · obtain ⟨hp, heq⟩ := map_handled h
    obtain ⟨rfl, rfl⟩ := Prod.mk.inj heq
    exact .inr ⟨by decide, hp, by simp [List.eraseIdx_append_of_length_le]⟩
  · obtain ⟨rfl, rfl⟩ := Prod.mk.inj (Except.ok.inj h)
    exact .inl ⟨rfl, _, rfl, rfl⟩

/-- One turn of the loop adds at most the driver that it tries. -/
theorem tryDriver_cases {driver : Driver} {drivers drivers' : ℕ} {k k' : Kernel σ μ}
    (h : tryDriver W driver drivers k = .ok (drivers', k')) :
    (drivers' = drivers + 1 ∧ ∃ loaded, loaded.filename = driver.filename ∧
        k'.driverList = k.driverList ++ [loaded]) ∨
      (drivers' = drivers ∧ driver.priority ≠ driverCritical ∧ k'.driverList = k.driverList) := by
  simp only [tryDriver] at h
  split at h
  · obtain ⟨hp, heq⟩ := map_handled h
    obtain ⟨rfl, rfl⟩ := Prod.mk.inj heq
    exact .inr ⟨rfl, hp, rfl⟩
  · next file s hopen =>
    match hload : driverLoad W file driver.priority driver.environment driver.filename
        [driver.filename] { k with world := s } with
    | .error _ => simp [hload, Except.map] at h
    | .ok (status, k₁) =>
      rw [hload] at h
      obtain ⟨rfl, rfl⟩ := Prod.mk.inj (Except.ok.inj h)
      rcases driverLoad_cases hload with ⟨hstatus, hlist⟩ | ⟨hstatus, hp, hlist⟩
      · exact .inl ⟨by simp [hstatus], hlist⟩
      · exact .inr ⟨by simp [hstatus], hp, hlist⟩

/-- The loop adds drivers in the order in which it is given them, and every critical one that is
not ruled out. -/
theorem tryDrivers_adds {noload : String → Bool} {ds : List Driver} {n n' : ℕ} {k k' : Kernel σ μ}
    (h : tryDrivers W noload ds n k = .ok (n', k')) :
    ∃ added, k'.driverList = k.driverList ++ added ∧ n' = n + added.length ∧
      (added.map (·.filename)).Sublist (ds.map (·.filename)) ∧
      ∀ d ∈ ds, d.priority = driverCritical → noload d.filename = false →
        d.filename ∈ added.map (·.filename) := by
  induction ds generalizing n k with
  | nil =>
    obtain ⟨rfl, rfl⟩ := Prod.mk.inj (Except.ok.inj h)
    exact ⟨[], by simp, by simp, by simp, by simp⟩
  | cons d ds ih =>
    simp only [tryDrivers] at h
    split at h
    · next hno =>
      obtain ⟨added, hlist, hn, hsub, hcritical⟩ := ih h
      refine ⟨added, hlist, hn, hsub.cons _, fun e he hp hload => ?_⟩
      rcases List.mem_cons.1 he with rfl | he
      · simp [hno] at hload
      · exact hcritical e he hp hload
    · match htry : tryDriver W d n k with
      | .error _ => simp [htry, Except.bind] at h
      | .ok (n₁, k₁) =>
        rw [htry] at h
        obtain ⟨added, hlist, hn, hsub, hcritical⟩ := ih (n := n₁) (k := k₁) h
        rcases tryDriver_cases htry with ⟨rfl, loaded, hname, hlist₁⟩ | ⟨rfl, hp₁, hlist₁⟩
        · refine ⟨loaded :: added, by simp [hlist, hlist₁], by simp [hn]; omega, ?_,
            fun e he hp hload => ?_⟩
          · simpa [hname] using hsub
          · rcases List.mem_cons.1 he with rfl | he
            · simp [hname]
            · exact List.mem_cons_of_mem _ (hcritical e he hp hload)
        · refine ⟨added, by rw [hlist, hlist₁], hn, hsub.cons _, fun e he hp hload => ?_⟩
          rcases List.mem_cons.1 he with rfl | he
          · exact absurd hp hp₁
          · exact hcritical e he hp hload

theorem driversOf_mem {confs : List Conf} (hnodup : (confs.map (·.filename)).Nodup) {conf : Conf}
    (hconf : conf ∈ confs) : driversOf confs conf.filename = some (Driver.ofConf conf) := by
  have hfound : (confs.reverse.find? (·.filename = conf.filename)).isSome := by
    simp only [List.find?_isSome, List.mem_reverse, decide_eq_true_eq]
    exact ⟨conf, hconf, rfl⟩
  obtain ⟨other, hother⟩ := Option.isSome_iff_exists.1 hfound
  have hname : other.filename = conf.filename := by simpa using List.find?_some hother
  have hmem := List.mem_reverse.1 (List.mem_of_find?_eq_some hother)
  obtain rfl := List.inj_on_of_nodup_map hnodup hmem hconf hname
  simp [driversOf, hother]

theorem mapM_finalDriver {confs : List Conf} (hnodup : (confs.map (·.filename)).Nodup)
    {solved : List String} (hsolved : ∀ name ∈ solved, name ∈ confs.map (·.filename))
    {drivers : List Driver} (h : solved.mapM (finalDriver confs) = .ok drivers) :
    drivers.map (·.filename) = solved ∧
      ∀ conf ∈ confs, conf.filename ∈ solved → Driver.ofConf conf ∈ drivers := by
  induction solved generalizing drivers with
  | nil =>
    obtain rfl : ([] : List Driver) = drivers := Except.ok.inj h
    exact ⟨rfl, by simp⟩
  | cons name solved ih =>
    obtain ⟨conf, hconf, rfl⟩ := List.mem_map.1 (hsolved name (List.mem_cons_self ..))
    have hfinal : finalDriver confs conf.filename = .ok (Driver.ofConf conf) := by
      simp only [finalDriver, driversOf_mem hnodup hconf]
    match hrest : solved.mapM (finalDriver confs) with
    | .error _ => simp [List.mapM_cons, hfinal, hrest, bind, Except.bind] at h
    | .ok rest =>
      obtain ⟨hnames, hin⟩ := ih (fun n hn => hsolved n (List.mem_cons_of_mem _ hn)) hrest
      simp only [List.mapM_cons, hfinal, hrest, bind, Except.bind, pure, Except.pure] at h
      obtain rfl := Except.ok.inj h
      refine ⟨by simp [Driver.ofConf, hnames], fun c hc hmem => ?_⟩
      rcases List.mem_cons.1 hmem with heq | hmem
      · obtain rfl := List.inj_on_of_nodup_map hnodup hc hconf heq
        exact List.mem_cons_self ..
      · exact List.mem_cons_of_mem _ (hin c hc hmem)

/-- The data that the script writes list every driver, in an order that its constraints allow. -/
theorem createDriverData_ok {confs : List Conf} (hnodup : (confs.map (·.filename)).Nodup)
    {data : DriverData} (h : createDriverData confs = .ok data) :
    Arrangement (confs.map (·.filename)) (constraintsOf confs) (data.drivers.map (·.filename)) ∧
      ∀ conf ∈ confs, Driver.ofConf conf ∈ data.drivers := by
  match hsolve : solveDriverConstraints (confs.map (·.filename)) (constraintsOf confs) with
  | .error _ => simp [createDriverData, hsolve, Except.bind] at h
  | .ok solved =>
    have harr := (drivers_sorted (constraintsOf confs) hnodup).1 solved hsolve
    match hmap : solved.mapM (finalDriver confs) with
    | .error _ => simp [createDriverData, hsolve, hmap, Except.bind, Except.map] at h
    | .ok drivers =>
      simp only [createDriverData, hsolve, hmap, Except.bind, Except.map] at h
      obtain rfl := Except.ok.inj h
      obtain ⟨hnames, hin⟩ :=
        mapM_finalDriver hnodup (fun name hname => harr.perm.mem_iff.1 hname) hmap
      refine ⟨by simpa only [hnames] using harr, fun conf hconf => hin conf hconf ?_⟩
      exact harr.perm.mem_iff.2 (List.mem_map_of_mem hconf)

/-- Whatever the drivers do: of two drivers that are loaded, the one that is to be loaded before the
other is loaded first, and a kernel that gets through has every critical driver that its arguments
do not rule out. -/
theorem boot_order {confs : List Conf} {data : DriverData} {noload : String → Bool}
    {k k' : Kernel σ μ} {drivers : ℕ} (W : World σ φ μ)
    (hnodup : (confs.map (·.filename)).Nodup) (hdata : createDriverData confs = .ok data)
    (hempty : k.driverList = [])
    (hload : driverLoadConfiguration W noload data k = .ok (drivers, k')) :
    drivers = k'.driverList.length ∧
      (k'.driverList.map (·.filename)).Subperm (confs.map (·.filename)) ∧
      (∀ e ∈ constraintsOf confs, e.1 ∈ k'.driverList.map (·.filename) →
        e.2 ∈ k'.driverList.map (·.filename) →
          [e.1, e.2].Sublist (k'.driverList.map (·.filename))) ∧
      ∀ conf ∈ confs, conf.priority = "CRITICAL" → noload conf.filename = false →
        conf.filename ∈ k'.driverList.map (·.filename) := by
  obtain ⟨harr, hin⟩ := createDriverData_ok hnodup hdata
  have htry : tryDrivers W noload data.drivers 0 k = .ok (drivers, k') := by
    simp only [driverLoadConfiguration] at hload
    split at hload
    · exact absurd hload nofun
    · exact hload
  obtain ⟨added, hlist, hn, hsub, hcritical⟩ := tryDrivers_adds htry
  rw [hempty, List.nil_append] at hlist
  subst hlist
  refine ⟨by omega, ?_, fun e he h₁ h₂ => ?_, fun conf hconf hp hnot => ?_⟩
  · exact hsub.subperm.trans harr.perm.subperm
  · exact pair_sublist_of_sublist (harr.perm.nodup_iff.2 hnodup) hsub (harr.respects e he) h₁ h₂
  · exact hcritical _ (hin conf hconf) (by simp [Driver.ofConf, hp]) hnot

section Sample

def sampleConfs : List Conf :=
  [{ filename := "usb_uhci.sys", priority := "WARN", environment := "NORMAL", loadBefore := none },
    { filename := "usb_ehci.sys", priority := "CRITICAL", environment := "NORMAL"
      loadBefore := some "usb_uhci.sys" }]

def sampleData : DriverData where
  version := 1
  drivers :=
    [{ filename := "usb_ehci.sys", priority := 0, environment := 0
       loadBefore := ["usb_uhci.sys"] },
      { filename := "usb_uhci.sys", priority := 1, environment := 0, loadBefore := [] }]

def sampleWorld : World ℕ String String where
  kopen file s := (some file, s)
  fsRead _ _ s := (0x1000, s)
  fsClose _ s := s
  length _ := 0x1000
  memMapDriver size s := (s, s + size)
  memUnmapDriver _ size s := s - size
  elfLoadBuffer address s := (address, s)
  elfFindSymbol _ symbol _ := some symbol
  elfCleanup _ s := s
  init _ _ s := (0, s)

def sampleKernel : Kernel ℕ String where
  world := 0xA0000000
  driverList := []

theorem boot_order_usb :
    ∃ drivers k', driverLoadConfiguration sampleWorld (fun _ => false) sampleData sampleKernel =
        .ok (drivers, k') ∧
      ["usb_ehci.sys", "usb_uhci.sys"].Sublist (k'.driverList.map (·.filename)) := by
  obtain ⟨r, hr, huhci⟩ : ∃ r, driverLoadConfiguration sampleWorld (fun _ => false) sampleData
      sampleKernel = .ok r ∧ "usb_uhci.sys" ∈ r.2.driverList.map (·.filename) := ⟨_, rfl, by decide⟩
  obtain ⟨-, -, horder, hcritical⟩ :=
    boot_order sampleWorld (by decide : (sampleConfs.map (·.filename)).Nodup) (by decide +kernel)
      rfl hr
  have hehci := hcritical _ (List.mem_cons_of_mem _ (List.mem_cons_self ..)) rfl rfl
  exact ⟨r.1, r.2, hr, horder ("usb_ehci.sys", "usb_uhci.sys") (by decide +kernel) hehci huhci⟩

end Sample

end Results

end ReduceOS.DriverLoading
