import DripOS.Lib.Acyclic
import DripOS.Lib.Outcome
import Mathlib.Order.CompletePartialOrder

/-!
# The scan of the PCI buses

`scan_bus` of `src/drivers/pci.c` visits the functions of a bus, follows bridges to their secondary
buses, and puts the other functions into the array `pci_devices`, which `add_pci_device` makes
longer.  The configuration space is a function from registers to their contents.

* `Pci.ensures_scanBus` : the scan adds the function at the end of every path over bridges;
* `Pci.scanBus_tree` : **the scan of a tree of buses finds every function once**;
* `Pci.scanBus_once_iff` : what it takes for the scan to end and to add nothing twice.
-/

namespace DripOS

open List

/-- `pci_device_t`: a function of a device on a bus. -/
structure PciDevice where
  bus : ℕ
  device : ℕ
  function : ℕ
  deriving DecidableEq, Repr

/-- Why `scan_bus` does not return. -/
inductive PciHalt where
  /-- A write outside of the array. -/
  | fault
  /-- The calls are nested deeper than the bound. -/
  | hang
  deriving DecidableEq, Repr

/-- The array `pci_devices` up to `curent_position`, and its length. -/
structure PciList where
  devices : List PciDevice
  maxPosition : ℕ
  capacity : ℕ
  deriving DecidableEq, Repr

namespace Pci

/-- The configuration space: `pci_read_dword` of a register of a function. -/
abbrev ConfigSpace := PciDevice → ℕ → ℕ

section Model

variable (cfg : ConfigSpace) (f : PciDevice)

/-- `check_function`. -/
def checkFunction : Bool := cfg f 0 % 2 ^ 16 != 0xFFFF

/-- `is_multifunction`. -/
def isMultifunction (bus device : ℕ) : Bool := (cfg ⟨bus, device, 0⟩ 0xC).testBit 23

/-- `get_header_type`. -/
def getHeaderType : ℕ := cfg f 0xC / 2 ^ 16 % 2 ^ 7

/-- `get_class`. -/
def getClass : ℕ := cfg f 0x8 / 2 ^ 24 % 2 ^ 8

/-- `get_subclass`. -/
def getSubclass : ℕ := cfg f 0x8 / 2 ^ 16 % 2 ^ 8

/-- `get_secondary_bus`. -/
def getSecondaryBus : ℕ := cfg f 0x18 / 2 ^ 8 % 2 ^ 8

/-- `is_pci_bridge`. -/
def isPciBridge : Bool :=
  getHeaderType cfg f == 0x1 && getClass cfg f == 0x6 && getSubclass cfg f == 0x4

/-- The loops visit the function: function 0 of a present device, or another present function of a
device with several. -/
def visits : Bool :=
  checkFunction cfg ⟨f.bus, f.device, 0⟩ &&
    (f.function == 0 || isMultifunction cfg f.bus f.device && checkFunction cfg f)

/-- The functions that the loops visit, in order. -/
def functions (bus : ℕ) : List PciDevice :=
  ((List.range 32 ×ˢ List.range 8).map fun p => ⟨bus, p.1, p.2⟩).filter (visits cfg)

/-- `add_pci_device`. -/
def addPciDevice (st : PciList) : Except PciHalt PciList :=
  if st.devices.length < st.capacity then
    if st.devices.length = st.maxPosition then
      .ok ⟨st.devices ++ [f], st.maxPosition + 10, 10 + st.maxPosition + 1⟩
    else .ok { st with devices := st.devices ++ [f] }
  else .error .fault

/-- `scan_bus`, with calls nested at most `fuel` deep. -/
def scanBus : (fuel bus : ℕ) → PciList → Except PciHalt PciList
  | 0, _, _ => .error .hang
  | fuel + 1, bus, st => (functions cfg bus).foldlM
    (fun st f =>
      if isPciBridge cfg f then scanBus fuel (getSecondaryBus cfg f) st else addPciDevice f st) st

/-- The array that `pci_init` starts with. -/
def pciInit : PciList := ⟨[], 9, 10⟩

end Model

/-! ### The tree of buses -/

variable {cfg : ConfigSpace} {b b' n : ℕ} {f f' : PciDevice}

/-- The function is a bridge on this bus. -/
def BridgeOn (cfg : ConfigSpace) (b : ℕ) (f : PciDevice) : Prop :=
  f ∈ functions cfg b ∧ isPciBridge cfg f

/-- A bridge leads from one bus to the other. -/
def Edge (cfg : ConfigSpace) (b b' : ℕ) : Prop := ∃ f, BridgeOn cfg b f ∧ getSecondaryBus cfg f = b'

/-- A bus is reached over bridges. -/
abbrev Reach (cfg : ConfigSpace) : ℕ → ℕ → Prop := Relation.ReflTransGen (Edge cfg)

/-- No bus that is reached is on a cycle. -/
def NoCycle (cfg : ConfigSpace) (b : ℕ) : Prop :=
  ∀ y, Reach cfg b y → ¬ Relation.TransGen (Edge cfg) y y

/-- Every bus that is reached is behind at most one bridge. -/
def OneBridge (cfg : ConfigSpace) (b : ℕ) : Prop :=
  ∀ y y' f f', Reach cfg b y → Reach cfg b y' → BridgeOn cfg y f → BridgeOn cfg y' f' →
    getSecondaryBus cfg f = getSecondaryBus cfg f' → f = f'

/-- The secondary buses of the bridges form a tree with the root 0. -/
structure BusTree (cfg : ConfigSpace) : Prop where
  root : ∀ b, Reach cfg 0 b → ¬ Edge cfg b 0
  unique : OneBridge cfg 0

/-- The bridges lead from the bus to the function, which is not a bridge. -/
def IsPath (cfg : ConfigSpace) : (b : ℕ) → (path : List PciDevice) → (d : PciDevice) → Prop
  | b, [], d => d ∈ functions cfg b ∧ ¬ isPciBridge cfg d
  | b, f :: path, d => BridgeOn cfg b f ∧ IsPath cfg (getSecondaryBus cfg f) path d

/-- Every function that is not a bridge is reached by one path. -/
def OnePath (cfg : ConfigSpace) (b : ℕ) : Prop :=
  ∀ path path' d, IsPath cfg b path d → IsPath cfg b path' d → path = path'

theorem bus_of_mem (h : f ∈ functions cfg b) : f.bus = b := by
  obtain ⟨p, -, rfl⟩ := mem_map.1 (mem_filter.1 h).1
  rfl

theorem nodup_functions : (functions cfg b).Nodup := by
  refine ((nodup_range.product nodup_range).map fun p q h => ?_).filter _
  simpa [Prod.ext_iff] using h

theorem BridgeOn.bus (h : BridgeOn cfg b f) : f.bus = b := bus_of_mem h.1

theorem BridgeOn.edge (h : BridgeOn cfg b f) : Edge cfg b (getSecondaryBus cfg f) := ⟨f, h, rfl⟩

theorem Edge.lt (h : Edge cfg b b') : b' < 256 := by
  obtain ⟨f, -, rfl⟩ := h
  exact Nat.mod_lt _ (by decide)

/-- Of two buses that reach the same one, one reaches the other. -/
theorem OneBridge.total {s s' y : ℕ} (h : OneBridge cfg b) (hs : Reach cfg b s)
    (hs' : Reach cfg b s') (hy : Reach cfg s y) (hy' : Reach cfg s' y) :
    Reach cfg s s' ∨ Reach cfg s' s := by
  induction hy with
  | refl => exact .inr hy'
  | tail hz hzy ih =>
    rcases hy'.cases_tail with rfl | ⟨z', hz', hzy'⟩
    · exact .inl (hz.tail hzy)
    · obtain ⟨g, hg, hsec⟩ := hzy
      obtain ⟨g', hg', hsec'⟩ := hzy'
      obtain rfl := h _ _ g g' (hs.trans hz) (hs'.trans hz') hg hg' (hsec.trans hsec'.symm)
      exact ih (hg'.bus.symm.trans hg.bus ▸ hz')

/-- The buses behind one bridge do not include those behind another. -/
theorem OneBridge.not_reach (h : OneBridge cfg b) (hcycle : NoCycle cfg b) (hf : BridgeOn cfg b f)
    (hf' : BridgeOn cfg b f') (hne : f ≠ f') :
    ¬ Reach cfg (getSecondaryBus cfg f) (getSecondaryBus cfg f') := by
  intro hreach
  rcases hreach.cases_tail with heq | ⟨z, hz, g, hg, hsec⟩
  · exact hne (h b b f f' .refl .refl hf hf' heq.symm)
  · obtain rfl := h z b g f' (hz.head hf.edge) .refl hg hf' hsec
    obtain rfl := hg.bus.symm.trans hf'.bus
    exact hcycle z .refl (Relation.TransGen.head' hf.edge hz)

/-- A tree has no cycles. -/
theorem BusTree.noCycle (h : BusTree cfg) : NoCycle cfg 0 := by
  intro y hy
  induction hy with
  | refl =>
    intro hcycle
    obtain ⟨z, hz, hedge⟩ := Relation.TransGen.tail'_iff.1 hcycle
    exact h.root z hz hedge
  | tail hz hzy ih =>
    intro hcycle
    -- the cycle comes back over the one bridge that leads to the bus
    obtain ⟨z', hz', g', hg', hsec'⟩ := Relation.TransGen.tail'_iff.1 hcycle
    obtain ⟨g, hg, hsec⟩ := id hzy
    obtain rfl := h.unique _ _ g g' hz ((hz.tail hzy).trans hz') hg hg' (hsec.trans hsec'.symm)
    exact ih (Relation.TransGen.head' hzy (hg'.bus.symm.trans hg.bus ▸ hz'))

theorem exists_isPath {d : PciDevice} : (∃ path, IsPath cfg b path d) ↔
    ∃ y, Reach cfg b y ∧ d ∈ functions cfg y ∧ ¬ isPciBridge cfg d := by
  constructor
  · rintro ⟨path, h⟩
    induction path generalizing b with
    | nil => exact ⟨b, .refl, h⟩
    | cons f path ih =>
      obtain ⟨y, hy, hd⟩ := ih h.2
      exact ⟨y, hy.head h.1.edge, hd⟩
  · rintro ⟨y, hy, hd⟩
    induction hy using Relation.ReflTransGen.head_induction_on with
    | refl => exact ⟨[], hd⟩
    | head hedge _ ih =>
      obtain ⟨f, hf, rfl⟩ := hedge
      obtain ⟨path, hpath⟩ := ih
      exact ⟨f :: path, hf, hpath⟩

/-- A path does not come back to the bus it starts on. -/
theorem NoCycle.not_isPath {path : List PciDevice} {d : PciDevice} (hcycle : NoCycle cfg b)
    (hf : BridgeOn cfg b f) (hd : d ∈ functions cfg b) :
    ¬ IsPath cfg (getSecondaryBus cfg f) path d := by
  intro hpath
  obtain ⟨y, hy, hdy, -⟩ := exists_isPath.1 ⟨path, hpath⟩
  obtain rfl := (bus_of_mem hd).symm.trans (bus_of_mem hdy)
  exact hcycle _ .refl (Relation.TransGen.head' hf.edge hy)

/-- With one bridge to every bus, there is one path to every function. -/
theorem OneBridge.onePath (hone : OneBridge cfg b) (hcycle : NoCycle cfg b) : OnePath cfg b := by
  intro path path' d h h'
  induction path generalizing b path' with
  | nil =>
    cases path' with
    | nil => rfl
    | cons f' path' => exact absurd h'.2 (hcycle.not_isPath h'.1 h.1)
  | cons f path ih =>
    cases path' with
    | nil => exact absurd h.2 (hcycle.not_isPath h.1 h'.1)
    | cons f' path' =>
      have hff : f = f' := by
        by_contra hne
        obtain ⟨y, hy, hdy, -⟩ := exists_isPath.1 ⟨path, h.2⟩
        obtain ⟨y', hy', hdy', -⟩ := exists_isPath.1 ⟨path', h'.2⟩
        obtain rfl := (bus_of_mem hdy).symm.trans (bus_of_mem hdy')
        rcases hone.total (.single h.1.edge) (.single h'.1.edge) hy hy' with hr | hr
        · exact hone.not_reach hcycle h.1 h'.1 hne hr
        · exact hone.not_reach hcycle h'.1 h.1 (Ne.symm hne) hr
      subst hff
      have hedge := h.1.edge
      rw [ih (fun y y' g g' hy hy' => hone y y' g g' (hy.head hedge) (hy'.head hedge))
        (fun y hy => hcycle y (hy.head hedge)) _ h.2 h'.2]

/-! ### What the scan adds -/

/-- The paths that a scan with calls nested at most `fuel` deep follows, with their functions. -/
def scanned (cfg : ConfigSpace) : (fuel bus : ℕ) → List (List PciDevice × PciDevice)
  | 0, _ => []
  | fuel + 1, bus => (functions cfg bus).flatMap fun f =>
    if isPciBridge cfg f then (scanned cfg fuel (getSecondaryBus cfg f)).map (Prod.map (f :: ·) id)
    else [([], f)]

theorem mem_scanned {path : List PciDevice} {d : PciDevice} :
    (path, d) ∈ scanned cfg n b ↔ path.length < n ∧ IsPath cfg b path d := by
  induction n generalizing b path with
  | zero => simp [scanned]
  | succ n ih =>
    rw [scanned, mem_flatMap]
    constructor
    · rintro ⟨f, hf, h⟩
      split_ifs at h with hbr
      · obtain ⟨⟨path', d'⟩, hmem, heq⟩ := mem_map.1 h
        cases heq
        obtain ⟨hlt, hpath⟩ := ih.1 hmem
        exact ⟨Nat.succ_lt_succ hlt, ⟨hf, hbr⟩, hpath⟩
      · cases mem_singleton.1 h
        exact ⟨Nat.succ_pos n, hf, hbr⟩
    · rintro ⟨hlt, h⟩
      cases path with
      | nil => exact ⟨d, h.1, by rw [if_neg h.2]; exact mem_singleton_self _⟩
      | cons f path =>
        refine ⟨f, h.1.1, ?_⟩
        rw [if_pos h.1.2]
        exact mem_map.2 ⟨(path, d), ih.2 ⟨Nat.lt_of_succ_lt_succ hlt, h.2⟩, rfl⟩

/-- No path is followed twice. -/
theorem nodup_scanned : (scanned cfg n b).Nodup := by
  induction n generalizing b with
  | zero => exact nodup_nil
  | succ n ih =>
    refine nodup_flatMap.2 ⟨fun f _ => ?_, nodup_functions.imp fun {f f'} hne => ?_⟩
    · split_ifs
      · exact ih.map fun x y h => by simpa [Prod.ext_iff] using h
      · exact nodup_singleton _
    · -- the path begins with the bridge, or the function is the one that is visited
      rintro ⟨path, d⟩ h h'
      dsimp only at h h'
      split_ifs at h h'
      all_goals grind

theorem scanned_nodup_iff (hlt : ∀ path d, IsPath cfg b path d → path.length < n) :
    ((scanned cfg n b).map Prod.snd).Nodup ↔ OnePath cfg b := by
  rw [nodup_map_iff_inj_on nodup_scanned]
  constructor
  · intro hinj path path' d h h'
    exact congrArg Prod.fst (hinj (path, d) (mem_scanned.2 ⟨hlt _ _ h, h⟩) (path', d)
      (mem_scanned.2 ⟨hlt _ _ h', h'⟩) rfl)
  · rintro hone ⟨path, d⟩ h ⟨path', _⟩ h' rfl
    rw [hone path path' d (mem_scanned.1 h).2 (mem_scanned.1 h').2]

/-! ### The scan -/

/-- The array has room for the next function. -/
def Roomy (st : PciList) : Prop :=
  st.devices.length ≤ st.maxPosition ∧ st.capacity = st.maxPosition + 1

/-- A state with these functions added. -/
def Adds (l : List PciDevice) (st st' : PciList) : Prop :=
  Roomy st' ∧ st'.devices = st.devices ++ l

theorem addPciDevice_adds {st : PciList} (hst : Roomy st) (f : PciDevice) :
    ∃ st', addPciDevice f st = .ok st' ∧ Adds [f] st st' := by
  obtain ⟨hle, hcap⟩ := hst
  unfold addPciDevice
  rw [if_pos (by omega)]
  split_ifs with hfull
  · refine ⟨_, rfl, ⟨?_, ?_⟩, rfl⟩
    · simp only [length_append, length_singleton]
      omega
    · dsimp only
      omega
  · refine ⟨_, rfl, ⟨?_, hcap⟩, rfl⟩
    simp only [length_append, length_singleton]
    omega

/-- Visits that add functions, one after the other. -/
theorem ensures_foldlM {allow : PciHalt → Prop} {act : PciList → PciDevice → Except PciHalt PciList}
    {added : PciDevice → List PciDevice} {fs : List PciDevice}
    (hact : ∀ f ∈ fs, ∀ st, Roomy st → Ensures allow (act st f) (Adds (added f) st)) {st : PciList}
    (hst : Roomy st) : Ensures allow (fs.foldlM act st) (Adds (fs.flatMap added) st) := by
  induction fs generalizing st with
  | nil => exact ⟨hst, (append_nil _).symm⟩
  | cons f fs ih =>
    refine (hact f mem_cons_self st hst).bind fun st1 h1 => ?_
    refine (ih (fun f' hf' => hact f' (mem_cons_of_mem f hf')) h1.1).mono fun st2 h2 => ?_
    exact ⟨h2.1, by rw [h2.2, h1.2, append_assoc, flatMap_cons]⟩

/-- The visits of the functions of a bus add what is at the ends of the paths from there. -/
theorem ensures_visits {allow : PciHalt → Prop} (hscan : ∀ f, BridgeOn cfg b f →
      ∀ st, Roomy st → Ensures allow (scanBus cfg n (getSecondaryBus cfg f) st)
        (Adds ((scanned cfg n (getSecondaryBus cfg f)).map Prod.snd) st))
    {st : PciList} (hst : Roomy st) : Ensures allow (scanBus cfg (n + 1) b st)
      (Adds ((scanned cfg (n + 1) b).map Prod.snd) st) := by
  rw [scanned, map_flatMap]
  refine ensures_foldlM (fun f hf st hst => ?_) hst
  by_cases hbr : isPciBridge cfg f
  · simp only [hbr, if_true, map_map]
    exact hscan f ⟨hf, hbr⟩ st hst
  · simp only [hbr]
    obtain ⟨st', hst', hadds⟩ := addPciDevice_adds hst f
    rw [if_neg nofun, hst']
    exact hadds

/-- **The scan adds the function at the end of every path**, unless its calls are nested too deep.
-/
theorem ensures_scanBus {st : PciList} (hst : Roomy st) : Ensures (· = .hang) (scanBus cfg n b st)
    (Adds ((scanned cfg n b).map Prod.snd) st) := by
  induction n generalizing b st with
  | zero => exact rfl
  | succ n ih => exact ensures_visits (fun f _ st hst => ih hst) hst

/-- Without cycles, 257 calls are deep enough. -/
theorem scanBus_returns (hb : b < 256) (hcycle : NoCycle cfg b) (hn : 256 < n) {st : PciList}
    (hst : Roomy st) : Ensures (fun _ => False) (scanBus cfg n b st)
      (Adds ((scanned cfg n b).map Prod.snd) st) := by
  have hcard : (Acyclic.reached (Edge cfg) ↑(Finset.range 256) b).ncard < n := by
    refine lt_of_le_of_lt (Set.ncard_le_ncard (fun _ h => h.1) (Finset.finite_toSet _)) ?_
    rwa [Set.ncard_coe_finset, Finset.card_range]
  refine Acyclic.induction (r := Edge cfg) (P := fun n b => b < 256 → ∀ st, Roomy st →
      Ensures (fun _ => False) (scanBus cfg n b st) (Adds ((scanned cfg n b).map Prod.snd) st))
    (Finset.finite_toSet _) (fun n b ih hb st hst => ?_) hcycle hcard hb st hst
  exact ensures_visits (fun f hf => ih (Finset.mem_coe.2 (Finset.mem_range.2 hb)) _ hf.edge
    hf.edge.lt) hst

theorem exists_of_foldlM {act : PciList → PciDevice → Except PciHalt PciList} {fs : List PciDevice}
    {st st' : PciList} (h : fs.foldlM act st = .ok st') (hf : f ∈ fs) :
    ∃ st1 st2, act st1 f = .ok st2 := by
  induction fs generalizing st with
  | nil => cases hf
  | cons g fs ih =>
    obtain ⟨st1, h1, h⟩ := bind_eq_ok.1 h
    rcases mem_cons.1 hf with rfl | hf
    · exact ⟨st, st1, h1⟩
    · exact ih h hf

/-- A scan that returns has scanned the buses behind its bridges. -/
theorem exists_scanBus_of_bridge {st st' : PciList} (h : scanBus cfg (n + 1) b st = .ok st')
    (hf : BridgeOn cfg b f) :
    ∃ st1 st2, scanBus cfg n (getSecondaryBus cfg f) st1 = .ok st2 := by
  obtain ⟨st1, st2, h⟩ := exists_of_foldlM h hf.1
  exact ⟨st1, st2, (if_pos hf.2).symm.trans h⟩

/-- A scan that returns meets no cycle. -/
theorem noCycle_of_scanBus {st st' : PciList} (h : scanBus cfg n b st = .ok st') :
    NoCycle cfg b := by
  intro y hy hcycle
  have hstep : ∀ m x z, Edge cfg x z → (∀ st st', scanBus cfg m z st ≠ .ok st') →
      ∀ st st', scanBus cfg (m + 1) x st ≠ .ok st' := by
    rintro m x z ⟨f, hf, rfl⟩ hz st st' hx
    obtain ⟨st1, st2, h⟩ := exists_scanBus_of_bridge hx hf
    exact hz st1 st2 h
  have hzero : ∀ x, ∀ st st', scanBus cfg 0 x st ≠ .ok st' := fun _ _ _ => nofun
  exact Acyclic.forall_of_reaches hzero hstep hy
    (fun m => Acyclic.forall_of_cycle hzero hstep hcycle m) n st st' h

/-- A scan that returns follows every path. -/
theorem length_lt_of_scanBus {st st' : PciList} (h : scanBus cfg n b st = .ok st')
    {path : List PciDevice} {d : PciDevice} (hpath : IsPath cfg b path d) : path.length < n := by
  induction path generalizing n b st st' with
  | nil =>
    cases n with
    | zero => cases h
    | succ n => exact Nat.succ_pos n
  | cons f path ih =>
    cases n with
    | zero => cases h
    | succ n =>
      obtain ⟨st1, st2, h⟩ := exists_scanBus_of_bridge h hpath.1
      exact Nat.succ_lt_succ (ih h hpath.2)

theorem roomy_pciInit : Roomy pciInit := ⟨by decide, rfl⟩

/-- The registers of a bridge. -/
def bridgeRegs (secondaryBus reg : ℕ) : ℕ :=
  if reg = 0xC then 0x10000 else if reg = 0x8 then 0x6040000
  else if reg = 0x18 then secondaryBus * 0x100 else 0

/-- A bridge to bus 1, and a device there. -/
def oneBridge : ConfigSpace := fun f reg =>
  if f = ⟨0, 0, 0⟩ then bridgeRegs 1 reg else if f = ⟨1, 3, 0⟩ then 0 else 0xFFFFFFFF

theorem busTree_oneBridge : BusTree oneBridge := by
  have hbridge : ∀ b f, BridgeOn oneBridge b f → f = ⟨0, 0, 0⟩ := by
    rintro b f ⟨-, hf⟩
    by_contra hne
    have hreg : oneBridge f 0x8 = 0 ∨ oneBridge f 0x8 = 0xFFFFFFFF := by
      unfold oneBridge
      split_ifs <;> simp
    rcases hreg with hreg | hreg <;> simp [isPciBridge, getClass, hreg] at hf
  refine ⟨fun b _ h => ?_, fun y y' f f' _ _ hf hf' _ => ?_⟩
  · obtain ⟨f, hf, hsec⟩ := h
    rw [hbridge b f hf] at hsec
    exact absurd hsec (by decide)
  · rw [hbridge y f hf, hbridge y' f' hf']

/-- **The scan ends and adds nothing twice exactly if** no bus that is reached is on a cycle, and
every function that is not a bridge is reached by one path. -/
theorem scanBus_once_iff : (∃ n st, scanBus cfg n 0 pciInit = .ok st ∧ st.devices.Nodup) ↔
    NoCycle cfg 0 ∧ OnePath cfg 0 := by
  have hnodup : ∀ {n st}, scanBus cfg n 0 pciInit = .ok st →
      (st.devices.Nodup ↔ OnePath cfg 0) := by
    intro n st h
    have hdev : st.devices = (scanned cfg n 0).map Prod.snd :=
      ((ensures_scanBus roomy_pciInit).of_ok h).2
    rw [hdev, scanned_nodup_iff fun path d => length_lt_of_scanBus h]
  constructor
  · rintro ⟨n, st, h, hnd⟩
    exact ⟨noCycle_of_scanBus h, (hnodup h).1 hnd⟩
  · rintro ⟨hcycle, hone⟩
    have hscan := @scanBus_returns cfg 0 257 (by decide) hcycle (by decide) _ roomy_pciInit
    cases hres : scanBus cfg 257 0 pciInit with
    | error e =>
      rw [hres] at hscan
      exact hscan.elim
    | ok st => exact ⟨257, st, hres, (hnodup hres).2 hone⟩

theorem scanBus_once_oneBridge :
    ∃ n st, scanBus oneBridge n 0 pciInit = .ok st ∧ st.devices.Nodup :=
  scanBus_once_iff.2 ⟨busTree_oneBridge.noCycle,
    busTree_oneBridge.unique.onePath busTree_oneBridge.noCycle⟩

/-- A bridge whose secondary bus number was not programmed. -/
def selfBridge : ConfigSpace := fun f reg =>
  if f = ⟨0, 0, 0⟩ then bridgeRegs 0 reg else 0xFFFFFFFF

/-- Two bridges to bus 1, and a device there. -/
def twoBridges : ConfigSpace := fun f reg =>
  if f = ⟨0, 0, 0⟩ ∨ f = ⟨0, 1, 0⟩ then bridgeRegs 1 reg
  else if f = ⟨1, 0, 0⟩ then 0 else 0xFFFFFFFF

theorem scanBus_selfBridge (n : ℕ) : scanBus selfBridge n 0 pciInit = .error .hang := by
  induction n with
  | zero => rfl
  | succ n ih =>
    have hfs : functions selfBridge 0 = [⟨0, 0, 0⟩] := by decide +kernel
    have hsec : getSecondaryBus selfBridge ⟨0, 0, 0⟩ = 0 := by decide
    rw [scanBus, hfs, foldlM_cons, if_pos (by decide), hsec, ih]
    rfl

/-- A bridge to bus 0 is followed forever, and what is behind two bridges is added twice. -/
theorem not_scanBus_once : (∀ n, scanBus selfBridge n 0 pciInit = .error .hang) ∧
    ∃ n st, scanBus twoBridges n 0 pciInit = .ok st ∧ ¬ st.devices.Nodup :=
  ⟨scanBus_selfBridge, 2, ⟨[⟨1, 0, 0⟩, ⟨1, 0, 0⟩], 9, 10⟩, by decide +kernel, by decide⟩

end Pci

end DripOS
