import SimpleKernel.Limits

/-! Reading the common header of PCI functions through the two configuration ports.
Three of the four dwords are read at their standard offsets; the status and command dword is
read where the device and vendor id are.
-/

namespace SimpleKernel

open ByteMemory

/-- The 256 bytes of a function's configuration space. -/
abbrev ConfigSpace := Byte → Byte

/-- The hardware behind the configuration ports: the dword last written to the address port
and the functions present.
-/
structure PciHardware where
  address : Word
  functions : Byte → BitVec 5 → BitVec 3 → Option ConfigSpace

abbrev pciConfigAddress : BitVec 16 := 0xCF8

abbrev pciConfigData : BitVec 16 := 0xCFC

/-- The dword at an offset of a configuration space, all ones when the function is absent. -/
def configDword (space : Option ConfigSpace) (offset : Byte) : Word :=
  match space with
  | none => 0xFFFFFFFF
  | some bytes =>
      bytes (offset + 3) ++ bytes (offset + 2) ++ bytes (offset + 1) ++ bytes offset

def outl (hw : PciHardware) (port : BitVec 16) (value : Word) : PciHardware :=
  if port = pciConfigAddress then { hw with address := value } else hw

/-- The data port answers for the register that an enabled address selects: bus in bits
23-16, device in 15-11, function in 10-8, dword register in 7-2.
-/
def inl (hw : PciHardware) (port : BitVec 16) : Word :=
  if port = pciConfigData ∧ hw.address.getLsbD 31 then
    configDword
      (hw.functions (hw.address.extractLsb' 16 8) (hw.address.extractLsb' 11 5)
        (hw.address.extractLsb' 8 3))
      (hw.address.extractLsb' 2 6 ++ 0#2)
  else 0xFFFFFFFF

/-- The address that `pci_read_config` puts together. -/
def pciAddress (bus slot func reg : Byte) : Word :=
  0x80000000
  ||| (bus.setWidth 32 <<< 16
    ||| slot.setWidth 32 <<< 11
    ||| func.setWidth 32 <<< 8
    ||| reg.setWidth 32 &&& ~~~0x3)

/-- The value read, and the hardware after it. -/
def pciReadConfig (hw : PciHardware) (bus slot func reg : Byte) : Word × PciHardware :=
  let hw := outl hw pciConfigAddress (pciAddress bus slot func reg)
  (inl hw pciConfigData, hw)

abbrev pciDeviceAndVendor : Byte := 0x00

abbrev pciStatusAndCommand : Byte := 0x00

abbrev pciClassSubProgRevision : Byte := 0x08

abbrev pciBistHeadLatCache : Byte := 0x0C

structure PciDeviceBase where
  deviceId : BitVec 16
  vendorId : BitVec 16
  status : BitVec 16
  command : BitVec 16
  classCode : Byte
  subclass : Byte
  progIf : Byte
  revisionId : Byte
  bist : Byte
  headerType : Byte
  latencyTimer : Byte
  cacheLineSize : Byte
  deriving DecidableEq

/-- The assignments at the end of `pci_read_device_base`. -/
def unpackDeviceBase
    (deviceAndVendor statusAndCommand classAndSubclass bistAndHeadEtc : Word)
    : PciDeviceBase where
  vendorId := deviceAndVendor.setWidth 16
  deviceId := (deviceAndVendor >>> 16).setWidth 16
  command := statusAndCommand.setWidth 16
  status := (statusAndCommand >>> 16).setWidth 16
  revisionId := classAndSubclass.setWidth 8
  progIf := (classAndSubclass >>> 8).setWidth 8
  subclass := (classAndSubclass >>> 16).setWidth 8
  classCode := (classAndSubclass >>> 24).setWidth 8
  cacheLineSize := bistAndHeadEtc.setWidth 8
  latencyTimer := (bistAndHeadEtc >>> 8).setWidth 8
  headerType := (bistAndHeadEtc >>> 16).setWidth 8
  bist := (bistAndHeadEtc >>> 24).setWidth 8

/-- The value returned, what `data` points to afterwards, and the hardware. -/
def pciReadDeviceBase (hw : PciHardware) (bus slot func : Byte) (data : PciDeviceBase)
    : Bool × PciDeviceBase × PciHardware :=
  let (deviceAndVendor, hw) := pciReadConfig hw bus slot func pciDeviceAndVendor
  if deviceAndVendor = 0xFFFFFFFF then (false, data, hw)
  else
    let (statusAndCommand, hw) := pciReadConfig hw bus slot func pciStatusAndCommand
    let (classAndSubclass, hw) := pciReadConfig hw bus slot func pciClassSubProgRevision
    let (bistAndHeadEtc, hw) := pciReadConfig hw bus slot func pciBistHeadLatCache
    (
      true,
      unpackDeviceBase deviceAndVendor statusAndCommand classAndSubclass bistAndHeadEtc,
      hw
    )

/-- The function that a bus, slot and function number name. -/
def PciHardware.function (hw : PciHardware) (bus slot func : Byte) : Option ConfigSpace :=
  hw.functions bus (slot.setWidth 5) (func.setWidth 3)

variable {hw : PciHardware} {bus slot func : Byte} {data : PciDeviceBase}

-----------------------------------------------------------------------------------------
-- Selecting a register
-----------------------------------------------------------------------------------------

section Fields

variable (bus reg : Byte) (device : BitVec 5) (number : BitVec 3)

/-- The address has the enable bit set; the other parts of the word do not reach it. -/
theorem pciAddress_enabled
    : (pciAddress bus (device.setWidth 8) (number.setWidth 8) reg).getLsbD 31 = true := by
  simp [pciAddress]

theorem pciAddress_bus
    : (pciAddress bus (device.setWidth 8) (number.setWidth 8) reg).extractLsb' 16 8 = bus := by
  ext i inside
  simp only [pciAddress, BitVec.getElem_extractLsb']
  interval_cases i <;> simp

theorem pciAddress_device
    : (pciAddress bus (device.setWidth 8) (number.setWidth 8) reg).extractLsb' 11 5
      = device := by
  ext i inside
  simp only [pciAddress, BitVec.getElem_extractLsb']
  interval_cases i <;> simp

theorem pciAddress_function
    : (pciAddress bus (device.setWidth 8) (number.setWidth 8) reg).extractLsb' 8 3
      = number := by
  ext i inside
  simp only [pciAddress, BitVec.getElem_extractLsb']
  interval_cases i <;> simp

/-- The register keeps its upper six bits: the mask clears the two that select a byte. -/
theorem pciAddress_register
    : (pciAddress bus (device.setWidth 8) (number.setWidth 8) reg).extractLsb' 2 6 ++ 0#2
      = reg &&& ~~~0x3 := by
  ext i inside
  simp only [pciAddress, BitVec.getElem_append, BitVec.getElem_extractLsb']
  interval_cases i <;> simp

end Fields

/-- The address encoder and the hardware's decoder agree on every field. -/
theorem pciReadConfig_eq (hw : PciHardware) (bus : Byte) (slotRange : slot < 32)
    (funcRange : func < 8) (reg : Byte)
    : pciReadConfig hw bus slot func reg
      = (configDword (hw.function bus slot func) (reg &&& ~~~0x3),
          { hw with address := pciAddress bus slot func reg }) := by
  obtain ⟨device, rfl⟩ : ∃ device : BitVec 5, slot = device.setWidth 8 :=
    ⟨slot.setWidth 5, by bv_omega⟩
  obtain ⟨number, rfl⟩ : ∃ number : BitVec 3, func = number.setWidth 8 :=
    ⟨func.setWidth 3, by bv_omega⟩
  simp only [pciReadConfig, outl, inl, if_true, true_and, pciAddress_enabled, pciAddress_bus,
    pciAddress_device, pciAddress_function, pciAddress_register, PciHardware.function]
  simp

/-- What `pci_read_device_base` makes of the dwords it reads; the second one it reads is
again the first.
-/
theorem pciReadDeviceBase_cases (hw : PciHardware) (bus : Byte) (slotRange : slot < 32)
    (funcRange : func < 8) (data : PciDeviceBase)
    : ∃ hw',
        pciReadDeviceBase hw bus slot func data
        = if configDword (hw.function bus slot func) 0 = 0xFFFFFFFF then (false, data, hw')
          else
            (
              true,
              unpackDeviceBase (configDword (hw.function bus slot func) 0)
                (configDword (hw.function bus slot func) 0)
                (configDword (hw.function bus slot func) 8)
                (configDword (hw.function bus slot func) 12),
              hw'
            ) := by
  have function (hw' : PciHardware) (address : Word)
      : PciHardware.function { hw' with address := address } bus slot func
        = hw'.function bus slot func := rfl
  have read (hw' : PciHardware) := pciReadConfig_eq hw' bus slotRange funcRange
  have first : pciDeviceAndVendor &&& ~~~0x3 = 0 := rfl
  have third : pciClassSubProgRevision &&& ~~~0x3 = 8 := rfl
  have fourth : pciBistHeadLatCache &&& ~~~0x3 = 12 := rfl
  simp only [pciReadDeviceBase, read, function, first, third, fourth]
  split
  · exact ⟨_, rfl⟩
  · exact ⟨_, rfl⟩

-----------------------------------------------------------------------------------------
-- The header
-----------------------------------------------------------------------------------------

/-- The fields of a configuration header at their standard offsets. -/
def standardHeader (bytes : ConfigSpace) : PciDeviceBase where
  vendorId := bytes 1 ++ bytes 0
  deviceId := bytes 3 ++ bytes 2
  command := bytes 5 ++ bytes 4
  status := bytes 7 ++ bytes 6
  revisionId := bytes 8
  progIf := bytes 9
  subclass := bytes 10
  classCode := bytes 11
  cacheLineSize := bytes 12
  latencyTimer := bytes 13
  headerType := bytes 14
  bist := bytes 15

section Dword

variable (a b c d : Byte)

/-- A configuration word splits into two halves and four bytes. -/
theorem append_low : (a ++ b ++ c ++ d).setWidth 16 = c ++ d := by
  ext i inside
  simp only [BitVec.getElem_setWidth, BitVec.getLsbD_append]
  grind

theorem append_high : ((a ++ b ++ c ++ d) >>> 16).setWidth 16 = a ++ b := by
  ext i inside
  simp only [BitVec.getElem_setWidth, BitVec.getLsbD_ushiftRight, BitVec.getLsbD_append]
  grind

theorem append_byte0 : (a ++ b ++ c ++ d).setWidth 8 = d := by
  ext i inside
  simp only [BitVec.getElem_setWidth, BitVec.getLsbD_append]
  grind

theorem append_byte1 : ((a ++ b ++ c ++ d) >>> 8).setWidth 8 = c := by
  ext i inside
  simp only [BitVec.getElem_setWidth, BitVec.getLsbD_ushiftRight, BitVec.getLsbD_append]
  grind

theorem append_byte2 : ((a ++ b ++ c ++ d) >>> 16).setWidth 8 = b := by
  ext i inside
  simp only [BitVec.getElem_setWidth, BitVec.getLsbD_ushiftRight, BitVec.getLsbD_append]
  grind

theorem append_byte3 : ((a ++ b ++ c ++ d) >>> 24).setWidth 8 = a := by
  ext i inside
  simp only [BitVec.getElem_setWidth, BitVec.getLsbD_ushiftRight, BitVec.getLsbD_append]
  grind

end Dword

/-- The four dwords of a header unpack to its fields. -/
theorem unpackDeviceBase_standard (bytes : ConfigSpace)
    : unpackDeviceBase (configDword (some bytes) 0) (configDword (some bytes) 4)
        (configDword (some bytes) 8) (configDword (some bytes) 12)
      = standardHeader bytes := by
  simp only [unpackDeviceBase, configDword, append_low, append_high, append_byte0,
    append_byte1, append_byte2, append_byte3]
  rfl

/-- Unpacking loses nothing of the status and command dword. -/
theorem unpackDeviceBase_inj {first second second' third fourth : Word}
    : unpackDeviceBase first second third fourth = unpackDeviceBase first second' third fourth
      ↔ second = second' := by
  constructor
  · intro same
    have low := congrArg PciDeviceBase.command same
    have high := congrArg PciDeviceBase.status same
    simp only [unpackDeviceBase] at low high
    bv_omega
  · intro same
    rw [same]

/-- False and untouched data for a function whose first dword reads all ones, else the
fields of its header.
-/
def ReadsHeader (space : Option ConfigSpace) (data data' : PciDeviceBase) (found : Bool)
    : Prop :=
  (found = false ∧ data' = data ↔ configDword space 0 = 0xFFFFFFFF)
  ∧ (configDword space 0 ≠ 0xFFFFFFFF
    → found = true ∧ ∃ bytes, space = some bytes ∧ data' = standardHeader bytes)

/-- `pci_read_device_base` reads a header right exactly when there is nothing to read or the
status and command dword repeats the device and vendor id.
-/
theorem pciReadDeviceBase_iff (hw : PciHardware) (bus : Byte) (slotRange : slot < 32)
    (funcRange : func < 8) (data : PciDeviceBase)
    : ∃ found data' hw',
        pciReadDeviceBase hw bus slot func data = (found, data', hw')
        ∧ (ReadsHeader (hw.function bus slot func) data data' found
          ↔ configDword (hw.function bus slot func) 0 = 0xFFFFFFFF
            ∨ configDword (hw.function bus slot func) 4
              = configDword (hw.function bus slot func) 0) := by
  obtain ⟨hw', read⟩ := pciReadDeviceBase_cases hw bus slotRange funcRange data
  rw [read]
  by_cases absent : configDword (hw.function bus slot func) 0 = 0xFFFFFFFF
  · rw [if_pos absent]
    refine ⟨_, _, _, rfl, ?_⟩
    simp only [ReadsHeader, absent, true_or, ne_eq, not_true_eq_false, false_imp_iff, and_self]
  · rw [if_neg absent]
    refine ⟨_, _, _, rfl, ?_⟩
    cases space : hw.function bus slot func with
    | none =>
        rw [space] at absent
        exact absurd rfl absent
    | some bytes =>
        rw [space] at absent
        have fields := unpackDeviceBase_standard bytes
        have header (data' : PciDeviceBase)
            : (∃ bytes', some bytes = some bytes' ∧ data' = standardHeader bytes')
              ↔ data' = standardHeader bytes := by
          simp
        simp only [ReadsHeader, absent, false_or, ne_eq, not_false_eq_true, true_imp_iff,
          true_and, Bool.true_eq_false, false_and, header]
        rw [← fields, unpackDeviceBase_inj]
        exact eq_comm

/-- A host bridge whose command register is 0x0006 and whose status register is 0x0280. -/
def bridgeHardware : PciHardware where
  address := 0
  functions bus device number :=
    if bus = 0 ∧ device = 0 ∧ number = 0 then
      some (fun offset =>
        if offset = 0 then 0x86
        else if offset = 1 then 0x80
        else if offset = 2 then 0x37
        else if offset = 3 then 0x12
        else if offset = 4 then 0x06
        else if offset = 6 then 0x80
        else if offset = 7 then 0x02
        else 0)
    else none

/-- The header is read where there is none, and not where the second dword differs from the
first. Witness: the empty slot 1 and the bridge in slot 0.
-/
theorem pciReadDeviceBase_iff_bridge
    : (∃ found data' hw',
        pciReadDeviceBase bridgeHardware 0 1 0 (unpackDeviceBase 0 0 0 0)
          = (found, data', hw')
        ∧ ReadsHeader (bridgeHardware.function 0 1 0) (unpackDeviceBase 0 0 0 0) data' found)
      ∧ ∃ found data' hw',
        pciReadDeviceBase bridgeHardware 0 0 0 (unpackDeviceBase 0 0 0 0)
          = (found, data', hw')
        ∧ ¬ReadsHeader (bridgeHardware.function 0 0 0) (unpackDeviceBase 0 0 0 0) data'
          found := by
  obtain ⟨found, data', hw', read, header⟩ :=
    pciReadDeviceBase_iff bridgeHardware 0 (show (1 : Byte) < 32 by decide)
      (show (0 : Byte) < 8 by decide) (unpackDeviceBase 0 0 0 0)
  obtain ⟨found₀, data₀, hw₀, read₀, header₀⟩ :=
    pciReadDeviceBase_iff bridgeHardware 0 (show (0 : Byte) < 32 by decide)
      (show (0 : Byte) < 8 by decide) (unpackDeviceBase 0 0 0 0)
  refine ⟨⟨found, data', hw', read, header.mpr (.inl (by decide))⟩, found₀, data₀, hw₀, read₀, ?_⟩
  rw [header₀]
  decide

/-- A second read of the vendor goes to the command register. Counterexample: a bridge at slot
0, whose command is reported as its vendor id.
-/
theorem not_readsHeader_bridge
    : ¬∀ (hw : PciHardware) (bus slot func : Byte) (data : PciDeviceBase),
        slot < 32
        → func < 8
        → ∃ found data' hw',
            pciReadDeviceBase hw bus slot func data = (found, data', hw')
            ∧ ReadsHeader (hw.function bus slot func) data data' found := by
  intro claim
  obtain ⟨found, data', hw', read, header⟩ :=
    claim bridgeHardware 0 0 0 (unpackDeviceBase 0 0 0 0) (by decide) (by decide)
  obtain ⟨_, bytes, space, fields⟩ := header.2 (by decide)
  have command : data'.command = 0x8086 := by
    have result := congrArg (fun result => result.2.1.command) read
    exact result.symm
  have byte (offset : Byte) := congrArg (Option.map (fun bytes => bytes offset)) space
  have low : 0x06 = bytes 4 := Option.some.inj (byte 4)
  have high : 0x00 = bytes 5 := Option.some.inj (byte 5)
  rw [fields, show (standardHeader bytes).command = bytes 5 ++ bytes 4 from rfl, ← low, ← high]
    at command
  exact absurd command (by decide)

end SimpleKernel
