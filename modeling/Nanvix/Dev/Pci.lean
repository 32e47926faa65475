import Mathlib.Data.List.Find
import Nanvix.Lib.Bytes
import Nanvix.Lib.Search

/-! The search for a device on the `PCI` buses. A scan of a bus descends into the bus that a bridge
names and goes on with its own functions afterwards. It reads the number of that bus at offset `0x09`
of the bridge, which is the programming interface of the function. A location is found if its packed
form is not `0`, which is the packed form of the first function of all. -/

namespace Nanvix.Dev.Pci

open Nanvix.Lib Nanvix.Lib.Bytes Nanvix.Lib.Search

/-- The bytes of each function, by bus, device, function and offset. -/
abbrev ConfigSpace := ℕ → ℕ → ℕ → ℕ → UInt8

structure PciDev where
  registerOffset : ℕ := 0
  functionNum : ℕ := 0
  deviceNum : ℕ := 0
  busNum : ℕ := 0
  reserved : ℕ := 0
  enable : ℕ := 0
  deriving DecidableEq, Repr

def devZero : PciDev := {}

/-- `dev_pci_bits_from_fields`, in 32 bits. -/
def bitsFromFields (dev : PciDev) : ℕ :=
  (dev.enable <<< 31 ||| dev.reserved <<< 24 ||| dev.busNum <<< 16 ||| dev.deviceNum <<< 11 |||
    dev.functionNum <<< 8 ||| (dev.registerOffset &&& 0xFC)) % 2 ^ 32

/-! The registers that the search reads. -/

def pciVendorId : ℕ := 0x00

def pciDeviceId : ℕ := 0x02

def pciSubclass : ℕ := 0x0a

def pciClass : ℕ := 0x0b

def pciSecondaryBus : ℕ := 0x09

def pciTypeBridge : ℕ := 0x0604

def sizeMap : ℕ → ℕ
  | 0x0a | 0x0b | 0x0c | 0x0d | 0x0e | 0x0f | 0x3C | 0x09 => 1
  | 0x00 | 0x02 | 0x04 | 0x06 => 2
  | 0x10 | 0x14 | 0x18 | 0x1C | 0x20 | 0x24 => 4
  | _ => 0

/-- What `size` bytes of `PCI_CONFIG_DATA + port` read while `address` is in `PCI_CONFIG_ADDRESS`. The
bits of the address select the bus, the device, the function and the word of its registers. -/
def input (S : ConfigSpace) (address port size : ℕ) : ℕ :=
  if address / 2 ^ 31 % 2 = 1 then
    leValue (load (S (address / 2 ^ 16 % 256) (address / 2 ^ 11 % 32) (address / 2 ^ 8 % 8))
      (address % 256 / 4 * 4 + port) size)
  else
    256 ^ size - 1

def devPciRead (S : ConfigSpace) (dev : PciDev) (registerOffset : ℕ) : ℕ :=
  let address := bitsFromFields { dev with registerOffset := registerOffset, enable := 1 }
  match sizeMap registerOffset with
  | 1 => input S address (registerOffset &&& 3) 1
  | 2 => input S address (registerOffset &&& 2) 2
  | 4 => input S address 0 4
  | _ => 0xffff

def getDeviceType (S : ConfigSpace) (dev : PciDev) : ℕ :=
  devPciRead S dev pciClass <<< 8 ||| devPciRead S dev pciSubclass

structure Query where
  vendorId : UInt16
  deviceId : UInt16
  deviceType : UInt32

/-- `(uint32_t) -1`, for which every type is fine. -/
def anyType : UInt32 := 0xffffffff

/-- The test that the loops end on. -/
def found (dev : PciDev) : Bool := bitsFromFields dev != 0

def devAt (bus device function : ℕ) : PciDev :=
  { busNum := bus, deviceNum := device, functionNum := function }

/-- The part of `dev_pci_scan_function` behind the descent. -/
def checkFunction (S : ConfigSpace) (q : Query) (dev : PciDev) : PciDev :=
  if q.deviceType = anyType ∨ q.deviceType.toNat = getDeviceType S dev then
    if devPciRead S dev pciDeviceId = q.deviceId.toNat ∧ q.vendorId.toNat = devPciRead S dev pciVendorId then
      dev
    else devZero
  else devZero

/-- `dev_pci_scan_function`; `scanBus` is the call that it makes for a bridge, and what that returns is
thrown away. `none` is a call that does not come back. -/
def scanFunction (S : ConfigSpace) (q : Query) (scanBus : ℕ → Option PciDev) (bus device function : ℕ) :
    Option PciDev :=
  let dev := devAt bus device function
  if getDeviceType S dev = pciTypeBridge then
    match scanBus (devPciRead S dev pciSecondaryBus) with
    | none => none
    | some _ => some (checkFunction S q dev)
  else
    some (checkFunction S q dev)

def scanDevice (S : ConfigSpace) (q : Query) (scanBus : ℕ → Option PciDev) (bus device : ℕ) :
    Option PciDev :=
  firstOf found devZero (scanFunction S q scanBus bus device) (List.range 8)

/-- `dev_pci_scan_bus` with calls of itself nested at most `fuel` deep. -/
def scanBus (S : ConfigSpace) (q : Query) : ℕ → ℕ → Option PciDev
  | 0, _ => none
  | fuel + 1, bus => firstOf found devZero (scanDevice S q (scanBus S q fuel) bus) (List.range 32)

def getDevice (S : ConfigSpace) (q : Query) (fuel : ℕ) : Option PciDev :=
  firstOf found devZero (scanBus S q fuel) (List.range 256)

/-! ### What the registers hold -/

/-- A location that the bits of the address can hold. -/
structure InRange (bus device function : ℕ) : Prop where
  bus_lt : bus < 256
  device_lt : device < 32
  function_lt : function < 8

def typeOf (S : ConfigSpace) (bus device function : ℕ) : ℕ :=
  (S bus device function 0x0b).toNat * 256 + (S bus device function 0x0a).toNat

def IsBridge (S : ConfigSpace) (bus device function : ℕ) : Prop := typeOf S bus device function = 0x0604

instance (S : ConfigSpace) (bus device function : ℕ) : Decidable (IsBridge S bus device function) :=
  inferInstanceAs (Decidable (_ = _))

def IsMatch (S : ConfigSpace) (q : Query) (bus device function : ℕ) : Prop :=
  leValue (load (S bus device function) 0x00 2) = q.vendorId.toNat ∧
    leValue (load (S bus device function) 0x02 2) = q.deviceId.toNat ∧
    (q.deviceType = anyType ∨ q.deviceType.toNat = typeOf S bus device function)

instance (S : ConfigSpace) (q : Query) (bus device function : ℕ) : Decidable (IsMatch S q bus device function) :=
  inferInstanceAs (Decidable (_ ∧ _))

section Registers

variable {S : ConfigSpace} {q : Query} {b d f : ℕ}

/-- The fields do not overlap in the packed form. -/
theorem bitsFromFields_eq {e r : ℕ} (h : InRange b d f) (he : e ≤ 1) :
    bitsFromFields { devAt b d f with registerOffset := r, enable := e } =
      e * 2 ^ 31 + b * 2 ^ 16 + d * 2 ^ 11 + f * 2 ^ 8 + (r &&& 0xFC) := by
  obtain ⟨hb, hd, hf⟩ := h
  have hr : r &&& 0xFC < 2 ^ 8 := Nat.lt_of_le_of_lt Nat.and_le_right (by decide)
  have hbus : 2 ^ 31 * e ||| 2 ^ 16 * b = 2 ^ 16 * (2 ^ 15 * e + b) := by
    rw [← Nat.two_pow_add_eq_or_of_lt (by omega)]
    omega
  have hdevice : 2 ^ 16 * (2 ^ 15 * e + b) ||| 2 ^ 11 * d = 2 ^ 11 * (2 ^ 20 * e + 2 ^ 5 * b + d) := by
    rw [← Nat.two_pow_add_eq_or_of_lt (by omega)]
    omega
  have hfunction : 2 ^ 11 * (2 ^ 20 * e + 2 ^ 5 * b + d) ||| 2 ^ 8 * f =
      2 ^ 8 * (2 ^ 23 * e + 2 ^ 8 * b + 2 ^ 3 * d + f) := by
    rw [← Nat.two_pow_add_eq_or_of_lt (by omega)]
    omega
  simp only [bitsFromFields, devAt, Nat.shiftLeft_eq, Nat.mul_comm _ (2 ^ _)]
  rw [Nat.mul_zero, Nat.or_zero, hbus, hdevice, hfunction, ← Nat.two_pow_add_eq_or_of_lt hr]
  omega

/-- Only the first function of all has the packed form `0`. -/
theorem found_devAt (h : InRange b d f) : found (devAt b d f) = true ↔ ¬ (b = 0 ∧ d = 0 ∧ f = 0) := by
  have hbits : bitsFromFields (devAt b d f) = b * 2 ^ 16 + d * 2 ^ 11 + f * 2 ^ 8 := by
    have heq := bitsFromFields_eq (e := 0) (r := 0) h (Nat.zero_le 1)
    rw [Nat.zero_and, Nat.add_zero, Nat.zero_mul, Nat.zero_add] at heq
    exact heq
  rw [found, bne_iff_ne, hbits]
  omega

theorem found_devZero : found devZero = false := by decide

theorem input_devAt {r : ℕ} (h : InRange b d f) (port size : ℕ) :
    input S (bitsFromFields { devAt b d f with registerOffset := r, enable := 1 }) port size =
      leValue (load (S b d f) ((r &&& 0xFC) / 4 * 4 + port) size) := by
  have hr : r &&& 0xFC < 2 ^ 8 := Nat.lt_of_le_of_lt Nat.and_le_right (by decide)
  have heq := bitsFromFields_eq (r := r) h (Nat.le_refl 1)
  obtain ⟨hb, hd, hf⟩ := h
  rw [heq, input, if_pos (by omega)]
  congr 2
  · congr 1 <;> omega
  · omega

theorem leValue_load_one (m : ℕ → UInt8) (a : ℕ) : leValue (load m a 1) = (m a).toNat := by
  simp [load_succ, leValue]

theorem read_secondaryBus (h : InRange b d f) :
    devPciRead S (devAt b d f) pciSecondaryBus = (S b d f 0x09).toNat :=
  (input_devAt h 1 1).trans (leValue_load_one _ _)

theorem read_vendorId (h : InRange b d f) :
    devPciRead S (devAt b d f) pciVendorId = leValue (load (S b d f) 0x00 2) :=
  input_devAt h 0 2

theorem read_deviceId (h : InRange b d f) :
    devPciRead S (devAt b d f) pciDeviceId = leValue (load (S b d f) 0x02 2) :=
  input_devAt h 2 2

theorem getDeviceType_devAt (h : InRange b d f) : getDeviceType S (devAt b d f) = typeOf S b d f := by
  have hclass : devPciRead S (devAt b d f) pciClass = (S b d f 0x0b).toNat :=
    (input_devAt h 3 1).trans (leValue_load_one _ _)
  have hsubclass : devPciRead S (devAt b d f) pciSubclass = (S b d f 0x0a).toNat :=
    (input_devAt h 2 1).trans (leValue_load_one _ _)
  have hlt : (S b d f 0x0a).toNat < 2 ^ 8 := UInt8.toNat_lt _
  rw [getDeviceType, hclass, hsubclass, ← Nat.shiftLeft_add_eq_or_of_lt hlt, Nat.shiftLeft_eq, typeOf]

theorem checkFunction_devAt (h : InRange b d f) :
    checkFunction S q (devAt b d f) = if IsMatch S q b d f then devAt b d f else devZero := by
  rw [checkFunction, getDeviceType_devAt h, read_deviceId h, read_vendorId h, ← ite_and]
  congr 1
  rw [IsMatch, eq_comm (a := q.vendorId.toNat)]
  exact propext (by tauto)

/-- A match at which the loops end. -/
def IsHit (S : ConfigSpace) (q : Query) (bus device function : ℕ) : Prop :=
  IsMatch S q bus device function ∧ ¬ (bus = 0 ∧ device = 0 ∧ function = 0)

theorem found_checkFunction (h : InRange b d f) :
    found (checkFunction S q (devAt b d f)) = true ↔ IsHit S q b d f := by
  rw [checkFunction_devAt h, IsHit]
  by_cases hm : IsMatch S q b d f
  · rw [if_pos hm, found_devAt h]
    exact (and_iff_right hm).symm
  · rw [if_neg hm, found_devZero]
    exact ⟨fun hf => absurd hf Bool.false_ne_true, fun hhit => absurd hhit.1 hm⟩

end Registers

/-! ### The scan as one loop -/

section Scan

variable {S : ConfigSpace} {q : Query} {fuel bus : ℕ}

/-- The functions of a bus in the order of the scan. -/
def functions : List (ℕ × ℕ) := List.range 32 ×ˢ List.range 8

def locations : List (ℕ × ℕ × ℕ) := List.range 256 ×ˢ functions

theorem mem_functions {p : ℕ × ℕ} : p ∈ functions ↔ p.1 < 32 ∧ p.2 < 8 := by
  rw [functions, List.mem_product, List.mem_range, List.mem_range]

theorem inRange_of_mem {p : ℕ × ℕ} (hb : bus < 256) (hp : p ∈ functions) : InRange bus p.1 p.2 :=
  ⟨hb, (mem_functions.mp hp).1, (mem_functions.mp hp).2⟩

theorem mem_locations {p : ℕ × ℕ × ℕ} : p ∈ locations ↔ InRange p.1 p.2.1 p.2.2 := by
  rw [locations, List.mem_product, List.mem_range, mem_functions]
  exact ⟨fun ⟨hb, hd, hf⟩ => ⟨hb, hd, hf⟩, fun ⟨hb, hd, hf⟩ => ⟨hb, hd, hf⟩⟩

def Earlier (p r : ℕ × ℕ) : Prop := p.1 < r.1 ∨ p.1 = r.1 ∧ p.2 < r.2

theorem pairwise_functions : functions.Pairwise Earlier :=
  (pairwise_product List.pairwise_lt_range List.pairwise_lt_range).imp Prod.lex_def.mp

theorem earlier_asymm (p r : ℕ × ℕ) (h : Earlier p r) : ¬ Earlier r p := by
  rw [Earlier] at h ⊢
  omega

theorem scanBus_succ :
    scanBus S q (fuel + 1) bus =
      firstOf found devZero (fun p => scanFunction S q (scanBus S q fuel) bus p.1 p.2) functions :=
  firstOf_nested found_devZero _ _ _

/-- What the scan of one function gives if it comes back. -/
def checked (S : ConfigSpace) (q : Query) (bus : ℕ) (p : ℕ × ℕ) : PciDev :=
  checkFunction S q (devAt bus p.1 p.2)

theorem scanFunction_cases (below : ℕ → Option PciDev) (p : ℕ × ℕ) :
    scanFunction S q below bus p.1 p.2 = none ∨ scanFunction S q below bus p.1 p.2 = some (checked S q bus p) := by
  rw [scanFunction]
  split_ifs
  · cases below (devPciRead S (devAt bus p.1 p.2) pciSecondaryBus) with
    | none => exact .inl rfl
    | some dev => exact .inr rfl
  · exact .inr rfl

/-- The scan of a function does not come back exactly if the descent from a bridge does not. -/
theorem scanFunction_eq_none_iff {below : ℕ → Option PciDev} {p : ℕ × ℕ} (h : InRange bus p.1 p.2) :
    scanFunction S q below bus p.1 p.2 = none ↔
      IsBridge S bus p.1 p.2 ∧ below (S bus p.1 p.2 0x09).toNat = none := by
  rw [scanFunction, getDeviceType_devAt h, read_secondaryBus h, IsBridge, pciTypeBridge]
  split_ifs with hbridge
  · cases hdescent : below (S bus p.1 p.2 0x09).toNat with
    | none => exact ⟨fun _ => ⟨hbridge, rfl⟩, fun _ => rfl⟩
    | some dev => exact ⟨fun h => absurd h (Option.some_ne_none _), fun h => absurd h.2 (Option.some_ne_none _)⟩
  · exact ⟨fun h => h.elim, fun h => absurd h.1 hbridge⟩

/-- What the scan of a bus gives if it comes back. -/
def busResult (S : ConfigSpace) (q : Query) (bus : ℕ) : PciDev :=
  ((functions.map (checked S q bus)).find? found).getD devZero

theorem scanBus_cases (fuel bus : ℕ) : scanBus S q fuel bus = none ∨ scanBus S q fuel bus = some (busResult S q bus) := by
  cases h : scanBus S q fuel bus with
  | none => exact .inl rfl
  | some dev =>
    cases fuel with
    | zero => cases h
    | succ fuel =>
      rw [scanBus_succ] at h
      exact .inr (congrArg some (eq_of_firstOf_eq_some (fun p _ => scanFunction_cases _ p) h))

/-- The loops end on a bus exactly at a hit. -/
theorem found_busResult (hb : bus < 256) :
    found (busResult S q bus) = false ↔ ∀ p ∈ functions, ¬ IsHit S q bus p.1 p.2 := by
  rw [busResult, found_getD_find? found_devZero, List.forall_mem_map]
  refine forall₂_congr fun p hp => ?_
  rw [← found_checkFunction (inRange_of_mem hb hp), Bool.not_eq_true, checked]

end Scan

/-! ### Termination -/

section Termination

variable {S : ConfigSpace} {q : Query}

/-- The scan of `bus` calls the scan of `below`: a bridge on it names `below` where the scan reads the
number of the bus, and the scan does not end before that bridge. -/
def Calls (S : ConfigSpace) (q : Query) (bus below : ℕ) : Prop :=
  ∃ p ∈ functions, IsBridge S bus p.1 p.2 ∧ below = (S bus p.1 p.2 0x09).toNat ∧
    ∀ r ∈ functions, Earlier r p → ¬ IsHit S q bus r.1 r.2

/-- The search comes to `bus`: there is no hit on a bus before. -/
def Visits (S : ConfigSpace) (q : Query) (bus : ℕ) : Prop :=
  ∀ b < bus, ∀ p ∈ functions, ¬ IsHit S q b p.1 p.2

theorem descends (S : ConfigSpace) (q : Query) :
    Descends (Finset.range 256) (Calls S q) fun fuel bus => scanBus S q fuel bus = none where
  zero _ := rfl
  succ fuel bus hbus := by
    have hb := Finset.mem_range.mp hbus
    rw [scanBus_succ,
      firstOf_eq_none_iff pairwise_functions earlier_asymm fun p _ => scanFunction_cases _ p]
    constructor
    · rintro ⟨p, hp, hnone, hskip⟩
      obtain ⟨hbridge, hdescent⟩ := (scanFunction_eq_none_iff (inRange_of_mem hb hp)).mp hnone
      refine ⟨_, ⟨p, hp, hbridge, rfl, fun r hr hrp => ?_⟩, hdescent⟩
      rw [← found_checkFunction (inRange_of_mem hb hr), Bool.not_eq_true]
      exact hskip r hr hrp
    · rintro ⟨_, ⟨p, hp, hbridge, rfl, hskip⟩, hdescent⟩
      refine ⟨p, hp, (scanFunction_eq_none_iff (inRange_of_mem hb hp)).mpr ⟨hbridge, hdescent⟩, fun r hr hrp => ?_⟩
      have hno := hskip r hr hrp
      rwa [← found_checkFunction (inRange_of_mem hb hr), Bool.not_eq_true] at hno
  mem bus _ below := by
    rintro ⟨p, -, -, rfl, -⟩
    exact Finset.mem_range.mpr (UInt8.toNat_lt _)

/-- The search does not come back exactly if it visits a bus whose scan does not. -/
theorem getDevice_eq_none_iff (fuel : ℕ) :
    getDevice S q fuel = none ↔ ∃ bus < 256, scanBus S q fuel bus = none ∧ Visits S q bus := by
  rw [getDevice, firstOf_eq_none_iff List.pairwise_lt_range (fun _ _ => Nat.lt_asymm)
    fun bus _ => scanBus_cases fuel bus]
  simp only [List.mem_range, Visits]
  constructor
  · rintro ⟨bus, hb, hnone, hskip⟩
    exact ⟨bus, hb, hnone, fun b hlt => (found_busResult (hlt.trans hb)).mp (hskip b (hlt.trans hb) hlt)⟩
  · rintro ⟨bus, hb, hnone, hskip⟩
    exact ⟨bus, hb, hnone, fun b hlt hbb => (found_busResult hlt).mpr (hskip b hbb)⟩

/-- The search ends exactly if no visited bus is one from which the calls lead back to a bus on the
path. -/
theorem search_ends_iff (S : ConfigSpace) (q : Query) :
    (∃ fuel, (getDevice S q fuel).isSome) ↔ ∀ bus < 256, Visits S q bus → ¬ LeadsBack (Calls S q) bus := by
  constructor
  · rintro ⟨fuel, hsome⟩ bus hb hvisits hback
    have hnone := (descends S q).out_of_leadsBack (Finset.mem_range.mpr hb) hback fuel
    rw [(getDevice_eq_none_iff fuel).mpr ⟨bus, hb, hnone, hvisits⟩] at hsome
    cases hsome
  · intro hno
    refine ⟨(Finset.range 256).card, ?_⟩
    rw [Option.isSome_iff_ne_none, ne_eq, getDevice_eq_none_iff]
    rintro ⟨bus, hb, hnone, hvisits⟩
    exact hno bus hb hvisits ((descends S q).leadsBack (Finset.mem_range.mpr hb) hnone)

/-- A bridge on `bus` has the number of `below` at `offset`. -/
def BridgesTo (S : ConfigSpace) (offset bus below : ℕ) : Prop :=
  ∃ p ∈ functions, IsBridge S bus p.1 p.2 ∧ below = (S bus p.1 p.2 offset).toNat

/-- One bridge, as the second device of the first bus, with bus `1` behind it. -/
def loneBridge : ConfigSpace := fun bus device function offset =>
  if bus = 0 ∧ device = 1 ∧ function = 0 then
    match offset with
    | 0x0a => 0x04
    | 0x0b => 0x06
    | 0x19 => 0x01
    | _ => 0
  else 0xff

def rtl8139Query : Query := ⟨0x10ec, 0x8139, anyType⟩

theorem isBridge_loneBridge {b d f : ℕ} : IsBridge loneBridge b d f ↔ b = 0 ∧ d = 1 ∧ f = 0 := by
  by_cases h : b = 0 ∧ d = 1 ∧ f = 0
  · obtain ⟨rfl, rfl, rfl⟩ := h
    decide
  · simp [IsBridge, typeOf, loneBridge, h]

theorem not_isMatch_loneBridge {b d f : ℕ} : ¬ IsMatch loneBridge rtl8139Query b d f := by
  by_cases h : b = 0 ∧ d = 1 ∧ f = 0
  · obtain ⟨rfl, rfl, rfl⟩ := h
    decide
  · simp [IsMatch, loneBridge, h, load_succ, leValue, rtl8139Query]

/-- The secondary bus numbers of `loneBridge` lead from bus `0` to bus `1` and nowhere else. The search
takes the programming interface `0` for the number and scans the first bus inside of its own scan. -/
theorem search_of_loneBridge_never_ends :
    (∀ bus, ¬ LeadsBack (BridgesTo loneBridge 0x19) bus) ∧
      ∀ fuel, getDevice loneBridge rtl8139Query fuel = none := by
  constructor
  · rintro bus ⟨c, -, hcycle⟩
    have hstep : ∀ {b b'}, BridgesTo loneBridge 0x19 b b' → b = 0 ∧ b' = 1 := by
      rintro b b' ⟨p, -, hbridge, rfl⟩
      obtain ⟨rfl, hd, hf⟩ := isBridge_loneBridge.mp hbridge
      rw [hd, hf]
      exact ⟨rfl, rfl⟩
    obtain ⟨y, hcy, hyc⟩ := Relation.TransGen.head'_iff.mp hcycle
    obtain ⟨rfl, rfl⟩ := hstep hcy
    rcases Relation.ReflTransGen.cases_head hyc with h | ⟨z, hz, -⟩
    · exact absurd h (by decide)
    · exact absurd (hstep hz).1 (by decide)
  · intro fuel
    have hcalls : Calls loneBridge rtl8139Query 0 0 :=
      ⟨(1, 0), mem_functions.mpr (by decide), isBridge_loneBridge.mpr ⟨rfl, rfl, rfl⟩, rfl,
        fun r _ _ hhit => not_isMatch_loneBridge hhit.1⟩
    have hnone := (descends loneBridge rtl8139Query).out_of_leadsBack (Finset.mem_range.mpr (by decide))
      ⟨0, .refl, .single hcalls⟩ fuel
    exact (getDevice_eq_none_iff fuel).mpr ⟨0, by decide, hnone, fun b hb => absurd hb (Nat.not_lt_zero b)⟩

end Termination

/-! ### What the search finds -/

section Result

variable {S : ConfigSpace} {q : Query}

instance (S : ConfigSpace) (q : Query) (bus device function : ℕ) : Decidable (IsHit S q bus device function) :=
  inferInstanceAs (Decidable (_ ∧ _))

def devOf (p : ℕ × ℕ × ℕ) : PciDev := devAt p.1 p.2.1 p.2.2

/-- The first function in the order of the search that is searched for. -/
def firstMatch (S : ConfigSpace) (q : Query) : Option (ℕ × ℕ × ℕ) :=
  locations.find? fun p => decide (IsMatch S q p.1 p.2.1 p.2.2)

/-- The same without the first function of all. -/
def firstHit (S : ConfigSpace) (q : Query) : Option (ℕ × ℕ × ℕ) :=
  locations.find? fun p => decide (IsHit S q p.1 p.2.1 p.2.2)

theorem of_find?_locations {P : ℕ × ℕ × ℕ → Prop} [DecidablePred P] {p : ℕ × ℕ × ℕ}
    (h : locations.find? (fun p => decide (P p)) = some p) : InRange p.1 p.2.1 p.2.2 ∧ P p :=
  ⟨mem_locations.mp (List.mem_of_find?_eq_some h), by simpa using List.find?_some h⟩

/-- Without bridges the search returns the first hit. -/
theorem getDevice_eq (h : ∀ b d f, InRange b d f → ¬ IsBridge S b d f) (fuel : ℕ) :
    getDevice S q (fuel + 1) = some ((firstHit S q).elim devZero devOf) := by
  have hflat : getDevice S q (fuel + 1) = firstOf found devZero
      (fun p : ℕ × ℕ × ℕ => scanFunction S q (scanBus S q fuel) p.1 p.2.1 p.2.2) locations := by
    have hnested := firstOf_nested found_devZero
      (fun bus (p : ℕ × ℕ) => scanFunction S q (scanBus S q fuel) bus p.1 p.2) (List.range 256) functions
    rw [locations, ← hnested, getDevice]
    exact congrArg (firstOf found devZero · _) (funext fun bus => scanBus_succ)
  have hchecked : ∀ p ∈ locations, scanFunction S q (scanBus S q fuel) p.1 p.2.1 p.2.2 =
      some (checkFunction S q (devOf p)) := by
    intro p hp
    have hr := mem_locations.mp hp
    rcases scanFunction_cases (S := S) (q := q) (scanBus S q fuel) p.2 with hnone | hsome
    · exact absurd ((scanFunction_eq_none_iff hr).mp hnone).1 (h _ _ _ hr)
    · exact hsome
  rw [hflat, firstOf_eq_some hchecked, List.find?_map]
  have hhit : locations.find? (found ∘ fun p => checkFunction S q (devOf p)) = firstHit S q := by
    refine List.find?_congr fun p hp => ?_
    rw [Bool.eq_iff_iff, decide_eq_true_iff]
    exact found_checkFunction (mem_locations.mp hp)
  rw [hhit]
  cases hfirst : firstHit S q with
  | none => rfl
  | some p =>
    obtain ⟨hr, hp⟩ := of_find?_locations (P := fun p => IsHit S q p.1 p.2.1 p.2.2) hfirst
    rw [Option.map_some, Option.getD_some, devOf, checkFunction_devAt hr, if_pos hp.1]
    rfl

/-- The first function of all comes first. -/
theorem firstMatch_of_origin (h : IsMatch S q 0 0 0) : firstMatch S q = some (0, 0, 0) := by
  have hhead : ∃ t, locations = (0, 0, 0) :: t := by
    rw [locations, functions, List.range_succ_eq_map (n := 255), List.range_succ_eq_map (n := 31),
      List.range_succ_eq_map (n := 7)]
    exact ⟨_, rfl⟩
  obtain ⟨t, ht⟩ := hhead
  rw [firstMatch, ht]
  exact List.find?_cons_of_pos (decide_eq_true h)

theorem firstHit_eq_firstMatch (h : ¬ IsMatch S q 0 0 0) : firstHit S q = firstMatch S q := by
  refine List.find?_congr fun p hp => ?_
  rw [decide_eq_decide, IsHit, and_iff_left_iff_imp]
  rintro hm ⟨hb, hd, hf⟩
  rw [hb, hd, hf] at hm
  exact h hm

theorem found_elim (h : ¬ IsMatch S q 0 0 0) :
    found ((firstMatch S q).elim devZero devOf) = true ↔
      ∃ b d f, InRange b d f ∧ IsMatch S q b d f := by
  cases hfirst : firstMatch S q with
  | none =>
    have hno := List.find?_eq_none.mp hfirst
    refine ⟨fun hf => absurd (found_devZero.symm.trans hf) (by decide), ?_⟩
    rintro ⟨b, d, f, hr, hm⟩
    exact absurd (decide_eq_true hm) (hno (b, d, f) (mem_locations.mpr hr))
  | some p =>
    obtain ⟨hr, hm⟩ := of_find?_locations (P := fun p => IsMatch S q p.1 p.2.1 p.2.2) hfirst
    refine ⟨fun _ => ⟨_, _, _, hr, hm⟩, fun _ => (found_devAt hr).mpr ?_⟩
    rintro ⟨hb, hd, hf⟩
    rw [hb, hd, hf] at hm
    exact h hm

/-- Without bridges the search returns the first match, with a packed form that is not `0` exactly if
there is a match, exactly if the first function of all is not one. -/
theorem search_correct_iff (S : ConfigSpace) (q : Query) (h : ∀ b d f, InRange b d f → ¬ IsBridge S b d f)
    (fuel : ℕ) :
    (∃ dev, getDevice S q (fuel + 1) = some dev ∧ dev = (firstMatch S q).elim devZero devOf ∧
        (bitsFromFields dev ≠ 0 ↔ ∃ b d f, InRange b d f ∧ IsMatch S q b d f)) ↔
      ¬ IsMatch S q 0 0 0 := by
  constructor
  · rintro ⟨dev, -, rfl, hbits⟩ hm
    rw [firstMatch_of_origin hm] at hbits
    exact hbits.mpr ⟨0, 0, 0, ⟨by decide, by decide, by decide⟩, hm⟩ (by decide)
  · intro hm
    refine ⟨_, getDevice_eq h fuel, by rw [firstHit_eq_firstMatch hm], ?_⟩
    rw [firstHit_eq_firstMatch hm, ← found_elim hm, found, bne_iff_ne]

/-- One function, the first one of all; the other locations are empty. -/
def hostBridgeOnly : ConfigSpace := fun bus device function offset =>
  if bus = 0 ∧ device = 0 ∧ function = 0 then
    match offset with
    | 0x00 => 0x86
    | 0x01 => 0x80
    | 0x02 => 0x37
    | 0x03 => 0x12
    | 0x0b => 0x06
    | _ => 0
  else 0xff

theorem not_isBridge_hostBridgeOnly {b d f : ℕ} : ¬ IsBridge hostBridgeOnly b d f := by
  by_cases h : b = 0 ∧ d = 0 ∧ f = 0
  · obtain ⟨rfl, rfl, rfl⟩ := h
    decide
  · simp [IsBridge, typeOf, hostBridgeOnly, h]

theorem search_correct_iff_absent :
    (∃ dev, getDevice hostBridgeOnly rtl8139Query 1 = some dev ∧
        dev = (firstMatch hostBridgeOnly rtl8139Query).elim devZero devOf ∧
        (bitsFromFields dev ≠ 0 ↔ ∃ b d f, InRange b d f ∧ IsMatch hostBridgeOnly rtl8139Query b d f)) ∧
      ¬ IsMatch hostBridgeOnly rtl8139Query 0 0 0 :=
  ⟨(search_correct_iff hostBridgeOnly rtl8139Query (fun _ _ _ _ => not_isBridge_hostBridgeOnly) 0).mpr
    (by decide), by decide⟩

/-- The host bridge is there and matches, and the answer is that of a device that is not there. -/
theorem search_misses_first_function :
    IsMatch hostBridgeOnly ⟨0x8086, 0x1237, anyType⟩ 0 0 0 ∧
      getDevice hostBridgeOnly ⟨0x8086, 0x1237, anyType⟩ 1 = some devZero := by
  refine ⟨by decide, ?_⟩
  have hnone : firstHit hostBridgeOnly ⟨0x8086, 0x1237, anyType⟩ = none := by
    refine List.find?_eq_none.mpr fun p _ => ?_
    rw [decide_eq_true_iff]
    rintro ⟨hm, hp⟩
    simp [IsMatch, hostBridgeOnly, hp, load_succ, leValue] at hm
  rw [getDevice_eq (fun _ _ _ _ => not_isBridge_hostBridgeOnly), hnone]
  rfl

end Result

end Nanvix.Dev.Pci
