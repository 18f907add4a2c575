/-
# Opening a device

`qdma_device_open` with all that it calls: the regions and the device of the PCI core, the memory
of the device, its registers, its interrupts, its queues, and the functions or the PF it shares
them with.  What the kernel and the registers answer is `OpenEnv`; the log has every resource that
is taken or released.

`open_all_or_nothing_iff` says for which answers the call does all or nothing.  The others are in
`open_leaves_something`: without memory for the device it returns 0, without queues the interrupts
stay requested, and a failure to enable the functions is no failure.
-/
import Qdma.LockTrace
import Qdma.QueueIds

namespace Qdma

open LockTrace

/-! ## Error codes -/

/-- `QDMA_ERR_PCI_DEVICE_ALREADY_ATTACHED`. -/
def qdmaErrPciDeviceAlreadyAttached : ℤ := -2

/-- `QDMA_ERR_INVALID_PCI_DEV`. -/
def qdmaErrInvalidPciDev : ℤ := -6

/-- What a function of the kernel returns: 0, or the negative number of an error. -/
abbrev Errno := { rv : ℤ // rv ≤ 0 }

theorem errno_zero : (0 : ℤ) ≤ 0 := le_rfl

/-! ## The device -/

/-- How the module is built: for the PF, with `CONFIG_PCI_IOV` or without, or for a VF. -/
inductive QdmaBuild where
  | pf (iov : Bool)
  | vf
  deriving DecidableEq

/-- `struct pci_dev`, with what `dev_name` gives. -/
structure PciDev where
  id : ℕ
  name : String
  deriving DecidableEq

/-- `struct qdma_dev_conf`. -/
structure QdmaDevConf where
  pdev : Option PciDev
  qsetsMax : ℕ := 0
  pollMode : Bool := false
  intrAgg : Bool := false
  vfMax : ℕ := 0
  intrRngsz : Fin 256 := 0
  name : String := ""
  idx : ℕ := 0
  barNumConfig : ℤ := 0
  barNumUser : ℤ := 0
  qsetsBase : ℕ := 0

/-- `struct xlnx_dma_dev`; `vfInfo` and `regs` say whether the pointers are set, and `devPriv` is
the `struct qdma_dev`, with its queues. -/
structure XlnxDmaDev where
  conf : QdmaDevConf
  stModeEn : Bool := true
  mmModeEn : Bool := true
  offline : Bool := true
  vfInfo : Bool := false
  vfCount : ℕ := 0
  pfCount : ℕ := 0
  funcId : Fin 256 := 0
  regs : Bool := false
  numVecs : ℤ := 0
  dvecStartIdx : ℕ := 0
  intrCoalEn : Bool := false
  devPriv : Option IdDev := none

/-- A device on `xdev_list`. -/
structure ListedXdev where
  addr : ℕ
  pdev : PciDev
  idx : ℕ
  deriving DecidableEq

/-- `xdev_find_by_pdev`. -/
def xdevFindByPdev (list : List ListedXdev) (pdev : PciDev) : Option ListedXdev :=
  list.find? (fun x => x.pdev == pdev)

/-- The index `xdev_list_add` gives, a `u8`. -/
def nextIdx (list : List ListedXdev) : ℕ :=
  match list.getLast? with
  | none => 0
  | some last => (last.idx + 1) % 2 ^ 8

/-! ## Resources -/

/-- What is taken and released. -/
inductive OpenRes where
  | regions
  | device
  | xdev
  | mapping
  | msix
  | irq (i : ℕ)
  | qdev
  | vfInfo
  | intrRings
  deriving DecidableEq

/-- The registers `qdma_device_attributes_get` reads, and `pci_sriov_get_totalvfs`. -/
structure AttrRegs where
  glblQmax : ℕ := 0
  pfBarliteInt : ℕ := 1
  totalVfs : ℕ := 0
  mdmaChannel : ℕ := 0x30101

/-- The answers of the kernel and of the device, and the threads of the module.  `xdevMem` is the
address of the device, or 0. -/
structure OpenEnv where
  build : QdmaBuild
  regions : Errno := ⟨0, errno_zero⟩
  enable : Errno := ⟨0, errno_zero⟩
  dmaMask64 : Errno := ⟨0, errno_zero⟩
  dmaMask32 : Errno := ⟨0, errno_zero⟩
  xdevMem : ℕ := 1
  iomap : Bool := true
  configId : ℕ := 0x1FD30000
  attrs : AttrRegs := {}
  funcId : Fin 256 := 0
  msixVecCount : ℤ := 8
  enableMsix : Errno := ⟨0, errno_zero⟩
  requestIrq : ℕ → Errno := fun _ => ⟨0, errno_zero⟩
  qdevMem : Bool := true
  numVf : ℕ := 0
  vfMem : Bool := true
  enableSriov : Errno := ⟨0, errno_zero⟩
  sendHello : Errno := ⟨0, errno_zero⟩
  threadCnt : ℕ := 1
  wrk : ℕ → Kthread := fun _ => {}
  wb : ℕ → Kthread := fun _ => {}

/-- A call under way: the list of devices, the device, the functions that are enabled
(`pci_num_vf`), and the log. -/
structure OpenState where
  list : List ListedXdev
  xdev : XlnxDmaDev
  numVf : ℕ
  log : List (Op OpenRes)

/-- More resources are taken and released. -/
def OpenState.act (s : OpenState) (ops : List (Op OpenRes)) : OpenState :=
  { s with log := s.log ++ ops }

/-! ## Interrupts -/

/-- `XDEV_NUM_IRQ_MAX`. -/
def xdevNumIrqMax : ℤ := 8

/-- The loops that free the vectors below `n`, the last one first. -/
def freeIrqs : ℕ → List (Op OpenRes)
  | 0 => []
  | n + 1 => .unlock (.irq n) :: freeIrqs n

/-- `intr_teardown`. -/
def intrTeardown (s : OpenState) : OpenState :=
  s.act (freeIrqs s.xdev.numVecs.toNat ++ if s.xdev.numVecs ≠ 0 then [.unlock .msix] else [])

/-- The loop of `intr_setup` over `n` vectors from `i` on, with `cleanup_irq`. -/
def requestIrqs (rv : ℕ → Errno) : ℕ → ℕ → List (Op OpenRes) × ℤ
  | 0, _ => ([], 0)
  | n + 1, i =>
      if (rv i : ℤ) ≠ 0 then (freeIrqs i ++ [.unlock .msix], rv i)
      else
        let (ops, r) := requestIrqs rv n (i + 1)
        (.lock (.irq i) :: ops, r)

/-- `pci_enable_msix_exact`, which refuses to enable no vector. -/
def pciEnableMsixExact (nvec : ℤ) (rv : Errno) : ℤ := if nvec < 1 then einval else rv

/-- `intr_setup`. -/
def intrSetup (s : OpenState) (e : OpenEnv) : OpenState × ℤ :=
  if s.xdev.conf.pollMode then (s, 0)
  else
    let setVecs (s : OpenState) (n : ℤ) : OpenState :=
      { s with xdev := { s.xdev with numVecs := n } }
    if e.msixVecCount = 0 then (setVecs s 0, 0)
    else
      let n := if e.msixVecCount > xdevNumIrqMax then xdevNumIrqMax else e.msixVecCount
      let s := setVecs s n
      let rv := pciEnableMsixExact n e.enableMsix
      if rv < 0 then (s, rv)
      else
        let (ops, rv) := requestIrqs e.requestIrq n.toNat 0
        let s := (s.act [.lock .msix]).act ops
        if rv ≠ 0 then (s, rv)
        else
          let dvec := if s.xdev.funcId = 0 then 2 else 1
          ({ s with xdev := { s.xdev with dvecStartIdx := dvec } }, rv)

/-! ## Queues -/

/-- The `struct qdma_dev` that `qdma_device_init` sets up, with its queues. -/
def XlnxDmaDev.newQdev (x : XlnxDmaDev) (e : OpenEnv) : IdDev :=
  IdDev.deviceInit
    { vf := e.build = .vf
      idx := x.conf.idx
      qmax := x.conf.qsetsMax
      numVecs := x.numVecs.toNat
      dvecStartIdx := x.dvecStartIdx
      intrCoalEn := x.intrCoalEn
      stModeEn := x.stModeEn
      mmModeEn := x.mmModeEn
      threadCnt := e.threadCnt
      descq := fun _ => {}
      wrk := e.wrk
      wb := e.wb
      intrList := fun _ => []
      intrListCnt := fun _ => 0 }
    { pollMode := x.conf.pollMode
      intrAgg := x.conf.intrAgg
      numVecs := x.numVecs.toNat
      qsetsMax := x.conf.qsetsMax
      intrRngsz := x.conf.intrRngsz
      dvecStartIdx := x.dvecStartIdx
      msixEntry := fun i => i
      qbase := 0
      qmax := x.conf.qsetsMax }
    x.funcId

/-- `qdma_device_init`. -/
def qdmaDeviceInit (s : OpenState) (e : OpenEnv) : OpenState × ℤ :=
  let funcId := if e.build = .vf then 0 else e.funcId
  let s := { s with xdev := { s.xdev with funcId := funcId } }
  let (s, rv) := intrSetup s e
  if rv ≠ 0 then (s, einval)
  -- the vectors stay requested
  else if s.xdev.conf.qsetsMax = 0 then (s, einval)
  else if !e.qdevMem then (intrTeardown s, enomem)
  else
    let qdev := s.xdev.newQdev e
    let conf := { s.xdev.conf with qsetsBase := qdev.conf.qbase }
    ({ s with xdev := { s.xdev with devPriv := some qdev, conf := conf } }.act [.lock .qdev], 0)

/-- `qdma_device_cleanup`.  What its queues hold is in `QdmaDev.deviceCleanup`. -/
def qdmaDeviceCleanup (s : OpenState) : OpenState :=
  match s.xdev.devPriv with
  | none => s
  | some _ =>
      let s := intrTeardown s
      let s := if s.xdev.intrCoalEn then s.act [.unlock .intrRings] else s
      { s with xdev := { s.xdev with devPriv := none } }.act [.unlock .qdev]

/-! ## Functions -/

/-- `xdev_sriov_disable`. -/
def OpenState.sriovDisable (s : OpenState) : OpenState :=
  let s := if s.xdev.vfInfo then s.act [.unlock .vfInfo] else s
  { s with numVf := 0, xdev := { s.xdev with vfInfo := false, vfCount := 0 } }

/-- `xdev_sriov_enable`. -/
def OpenState.sriovEnable (s : OpenState) (e : OpenEnv) (numVfs : ℕ) : OpenState × ℤ :=
  if s.numVf ≠ 0 then (s, s.numVf)
  else if !e.vfMem then (s, enomem)
  else
    let s :=
      { s with xdev := { s.xdev with vfInfo := true, vfCount := numVfs } }.act [.lock .vfInfo]
    if (e.enableSriov : ℤ) ≠ 0 then (OpenState.sriovDisable s, 0)
    else ({ s with numVf := numVfs }, numVfs)

/-! ## Online and offline -/

/-- `xdev_check_hndl`. -/
def xdevCheckHndl (s : OpenState) (pdev : PciDev) (hndl : ℕ) : ℤ :=
  match xdevFindByPdev s.list pdev with
  | none => einval
  | some x => if x.addr ≠ hndl then einval else 0

/-- `qdma_device_offline`. -/
def qdmaDeviceOffline (s : OpenState) (e : OpenEnv) (pdev : PciDev) (hndl : ℕ) : OpenState :=
  if hndl = 0 then s
  else if xdevCheckHndl s pdev hndl < 0 then s
  else
    let s := { s with xdev := { s.xdev with offline := true } }
    let s := if e.build = .pf true then s.sriovDisable else s
    qdmaDeviceCleanup s

/-- The functions or the PF, once the device is there. -/
def bringOnline (s : OpenState) (e : OpenEnv) : OpenState × ℤ :=
  match e.build with
  | .vf => (s, e.sendHello)
  | .pf true => if s.xdev.conf.vfMax ≠ 0 then s.sriovEnable e s.xdev.conf.vfMax else (s, 0)
  | .pf false => (s, 0)

/-- `qdma_device_online`. -/
def qdmaDeviceOnline (s : OpenState) (e : OpenEnv) (pdev : PciDev) (hndl : ℕ) : OpenState × ℤ :=
  if hndl = 0 then (s, einval)
  else if xdevCheckHndl s pdev hndl < 0 then (s, einval)
  else
    let (s, rv) := qdmaDeviceInit s e
    if rv < 0 then (qdmaDeviceCleanup s, rv)
    else
      let s := { s with xdev := { s.xdev with offline := false } }
      let (s, rv) := bringOnline s e
      if rv < 0 then (qdmaDeviceCleanup s, rv) else (s, 0)

/-! ## Opening -/

/-- `xdev_unmap_bars`. -/
def xdevUnmapBars (s : OpenState) : OpenState :=
  if s.xdev.regs then { s with xdev := { s.xdev with regs := false } }.act [.unlock .mapping] else s

/-- `xdev_map_bars`. -/
def xdevMapBars (s : OpenState) (e : OpenEnv) : OpenState × ℤ :=
  let s := { s with xdev := { s.xdev with conf := { s.xdev.conf with barNumConfig := 0 } } }
  if !e.iomap then (s, einval)
  else
    let s := { s with xdev := { s.xdev with regs := true } }.act [.lock .mapping]
    if e.build ≠ .vf ∧ e.configId &&& 0xFFFF0000 ≠ 0x1FD30000 then (xdevUnmapBars s, einval)
    else (s, 0)

/-- `qdma_device_num_pfs_get`. -/
def AttrRegs.numPfs (a : AttrRegs) : ℕ :=
  ((List.range 4).filter (fun i => a.pfBarliteInt >>> (6 * i) &&& 0x3F != 0)).length

/-- The number of queue pairs of the PF. -/
def AttrRegs.qsetsMax (a : AttrRegs) : ℕ :=
  qdmaDeviceAttributesGet a.glblQmax a.numPfs a.totalVfs

def AttrRegs.stModeEn (a : AttrRegs) : Bool := a.mdmaChannel.testBit 16 && a.mdmaChannel.testBit 17

def AttrRegs.mmModeEn (a : AttrRegs) : Bool := a.mdmaChannel.testBit 8 && a.mdmaChannel.testBit 0

/-- The device with its attributes. -/
def OpenState.withAttrs (s : OpenState) (a : AttrRegs) : OpenState :=
  { s with
    xdev :=
      { s.xdev with
        pfCount := a.numPfs
        conf := { s.xdev.conf with qsetsMax := a.qsetsMax }
        stModeEn := a.stModeEn
        mmModeEn := a.mmModeEn } }

/-- `qdma_device_attributes_get`, which divides by the number of PFs. -/
def OpenState.attributesGet (s : OpenState) (a : AttrRegs) : Option OpenState :=
  if a.numPfs = 0 then none else some (s.withAttrs a)

/-- `pci_dma_mask_set`. -/
def pciDmaMaskSet (e : OpenEnv) : ℤ :=
  if (e.dmaMask64 : ℤ) = 0 then 0 else if (e.dmaMask32 : ℤ) = 0 then 0 else einval

/-- A call of `qdma_device_open`: its arguments, the list of devices and the answers. -/
structure OpenCall where
  modName : Option String
  conf : Option QdmaDevConf
  list : List ListedXdev
  env : OpenEnv

/-- What it returns, in `*dev_hndl` and `*conf` too, and what it leaves. -/
structure OpenResult where
  rv : ℤ
  devHndl : ℕ := 0
  conf : QdmaDevConf
  list : List ListedXdev
  log : List (Op OpenRes)
  dev : Option XlnxDmaDev := none

/-- The labels `disable_device` and `release_regions`. -/
def disableDevice (rv : ℤ) (conf : QdmaDevConf) (list : List ListedXdev)
    (log : List (Op OpenRes)) : OpenResult :=
  { rv := rv, conf := conf, list := list, log := log ++ [.unlock .device] ++ [.unlock .regions] }

/-- The label `unmap_bars`. -/
def unmapBars (s : OpenState) (rv : ℤ) (conf : QdmaDevConf) (entry : ListedXdev) : OpenResult :=
  let s := xdevUnmapBars s
  disableDevice rv conf (s.list.erase entry) (s.log ++ [.unlock .xdev])

/-- The last steps: the device is online, or the label `cleanup_qdma`. -/
def openOnline (s : OpenState) (e : OpenEnv) (pdev : PciDev) (entry : ListedXdev) : OpenResult :=
  let conf := s.xdev.conf
  let (s, rv) := qdmaDeviceOnline s e pdev entry.addr
  if rv < 0 then unmapBars (qdmaDeviceOffline s e pdev entry.addr) rv conf entry
  else
    { rv := 0, devHndl := entry.addr, conf := conf, list := s.list, log := s.log,
      dev := some s.xdev }

/-- The device is on the list. -/
def openMapped (s : OpenState) (e : OpenEnv) (conf : QdmaDevConf) (pdev : PciDev)
    (entry : ListedXdev) : Option OpenResult :=
  let (s, rv) := xdevMapBars s e
  if rv ≠ 0 then some (unmapBars s rv conf entry)
  else if e.build = .vf then some (openOnline s e pdev entry)
  else
    (s.attributesGet e.attrs).map (fun s =>
      if !s.xdev.mmModeEn && !s.xdev.stModeEn then
        unmapBars s qdmaErrInterfaceNotEnabledInDevice conf entry
      else openOnline s e pdev entry)

/-- `xdev_alloc` and `xdev_list_add`. -/
def newXdev (list : List ListedXdev) (e : OpenEnv) (conf : QdmaDevConf) (pdev : PciDev)
    (log : List (Op OpenRes)) : OpenState × ListedXdev :=
  let entry := { addr := e.xdevMem, pdev := pdev, idx := nextIdx list }
  ({ list := list ++ [entry]
     xdev :=
       { conf := { conf with
           idx := nextIdx list
           name := "qdma" ++ toString (nextIdx list) ++ "-p" ++ pdev.name } }
     numVf := e.numVf
     log := log ++ [.lock .xdev] }, entry)

/-- The configuration with its BARs reset. -/
def QdmaDevConf.resetBars (conf : QdmaDevConf) : QdmaDevConf :=
  { conf with barNumConfig := -1, barNumUser := -1 }

/-- What is taken before the device is allocated. -/
def enabledLog : List (Op OpenRes) := [.lock .regions] ++ [.lock .device]

/-- **`qdma_device_open`**, or `none` where it follows a null pointer or divides by 0.  `conf->pdev`
is read before `conf` is checked. -/
def OpenCall.qdmaDeviceOpen (c : OpenCall) : Option OpenResult :=
  c.conf.bind (fun conf =>
    let e := c.env
    if c.modName = none then
      some { rv := qdmaErrInvalidInputParam, conf := conf, list := c.list, log := [] }
    else
      match conf.pdev with
      | none => some { rv := qdmaErrInvalidPciDev, conf := conf, list := c.list, log := [] }
      | some pdev =>
          let conf := conf.resetBars
          if (xdevFindByPdev c.list pdev).isSome then
            some { rv := qdmaErrPciDeviceAlreadyAttached, conf := conf, list := c.list, log := [] }
          else if (e.regions : ℤ) ≠ 0 then
            some { rv := e.regions, conf := conf, list := c.list, log := [] }
          else if (e.enable : ℤ) ≠ 0 then
            some { rv := e.enable, conf := conf, list := c.list,
                   log := [.lock .regions] ++ [.unlock .regions] }
          else
            let log := enabledLog
            let rv := pciDmaMaskSet e
            if rv ≠ 0 then some (disableDevice rv conf c.list log)
            -- `rv` is 0 still
            else if e.xdevMem = 0 then some (disableDevice rv conf c.list log)
            else
              let (s, entry) := newXdev c.list e conf pdev log
              openMapped s e conf pdev entry)

/-! ## All or nothing -/

/-- The vectors that are to be requested. -/
def OpenEnv.vecs (e : OpenEnv) (conf : QdmaDevConf) : ℤ :=
  if conf.pollMode then 0
  else if e.msixVecCount > xdevNumIrqMax then xdevNumIrqMax else e.msixVecCount

/-- The queue pairs of the device. -/
def OpenEnv.qsets (e : OpenEnv) (conf : QdmaDevConf) : ℕ :=
  if e.build = .vf then conf.qsetsMax else e.attrs.qsetsMax

/-- The device is to enable functions. -/
def OpenEnv.WantsVfs (e : OpenEnv) (conf : QdmaDevConf) : Prop :=
  e.build = .pf true ∧ conf.vfMax ≠ 0 ∧ e.numVf = 0

/-- **A step of the call fails.** -/
inductive OpenFails (c : OpenCall) (conf : QdmaDevConf) : Prop where
  | modName (h : c.modName = none)
  | pdev (h : conf.pdev = none)
  | attached (pdev : PciDev) (h : conf.pdev = some pdev) (hl : (xdevFindByPdev c.list pdev).isSome)
  | regions (h : (c.env.regions : ℤ) < 0)
  | enable (h : (c.env.enable : ℤ) < 0)
  | dmaMask (h : pciDmaMaskSet c.env < 0)
  | alloc (h : c.env.xdevMem = 0)
  | mapBars (h : c.env.iomap = false)
  | configBar (h : c.env.build ≠ .vf) (hid : c.env.configId &&& 0xFFFF0000 ≠ 0x1FD30000)
  | attributes (h : c.env.build ≠ .vf) (hm : c.env.attrs.mmModeEn = false)
      (hs : c.env.attrs.stModeEn = false)
  | msix (h : c.env.vecs conf ≠ 0) (hm : pciEnableMsixExact (c.env.vecs conf) c.env.enableMsix < 0)
  | irq (i : ℕ) (h : i < (c.env.vecs conf).toNat) (hi : (c.env.requestIrq i : ℤ) < 0)
  | queues (h : c.env.qsets conf = 0)
  | qdev (h : c.env.qdevMem = false)
  | vfInfo (h : c.env.WantsVfs conf) (hm : c.env.vfMem = false)
  | sriov (h : c.env.WantsVfs conf) (hm : (c.env.enableSriov : ℤ) < 0)
  | hello (h : c.env.build = .vf) (hm : (c.env.sendHello : ℤ) < 0)

/-- Nothing is left of the call. -/
structure OpenResult.Nothing (r : OpenResult) (list : List ListedXdev) : Prop where
  rv : r.rv < 0
  devHndl : r.devHndl = 0
  list : r.list = list
  log : Balanced r.log

/-- Every queue is as `qdma_descq_init` leaves it, and there are queues. -/
structure QueuesInit (s : IdDev) : Prop where
  qmax : s.dev.qmax ≠ 0
  there : s.dev.gone = false
  descq : ∀ q : QRef, q.2 < s.dev.qmax → s.dev.descq (s.dev.refId q) = { conf := { qidx := q.2 } }
  qidxHw : ∀ q : QRef, s.qidxHw q = u32 (s.conf.qbase + q.2)

/-- The call has given a device. -/
structure OpenResult.All (r : OpenResult) : Prop where
  devHndl : r.devHndl ≠ 0
  listed : ∃ x ∈ r.list, x.addr = r.devHndl
  queues : ∃ x qdev, r.dev = some x ∧ x.devPriv = some qdev ∧ QueuesInit qdev

/-- **All or nothing.**  The call returns, with nothing left if a step of it fails, and with a
device if it succeeds. -/
def OpenCall.AllOrNothing (c : OpenCall) : Prop :=
  ∃ conf r, c.conf = some conf ∧ c.qdmaDeviceOpen = some r ∧
    (OpenFails c conf → r.Nothing c.list) ∧ (0 ≤ r.rv → r.All)

/-! ## How far it comes -/

/-- It comes to the allocation of the device. -/
structure OpenCall.ComesToAlloc (c : OpenCall) (conf : QdmaDevConf) : Prop where
  modName : c.modName ≠ none
  pdev : ∃ pdev, conf.pdev = some pdev ∧ xdevFindByPdev c.list pdev = none
  regions : (c.env.regions : ℤ) = 0
  enable : (c.env.enable : ℤ) = 0
  dmaMask : pciDmaMaskSet c.env = 0

/-- The registers are mapped, and are those of the device. -/
structure OpenCall.ComesToMapped (c : OpenCall) (conf : QdmaDevConf) : Prop
    extends c.ComesToAlloc conf where
  alloc : c.env.xdevMem ≠ 0
  mapBars : c.env.iomap = true
  configBar : c.env.build ≠ .vf → c.env.configId &&& 0xFFFF0000 = 0x1FD30000

/-- It comes to the interrupts. -/
structure OpenCall.ComesToInit (c : OpenCall) (conf : QdmaDevConf) : Prop
    extends c.ComesToMapped conf where
  attributes : c.env.build ≠ .vf →
    c.env.attrs.numPfs ≠ 0 ∧ (c.env.attrs.mmModeEn = true ∨ c.env.attrs.stModeEn = true)

/-- Every vector is requested. -/
def OpenEnv.IntrOk (e : OpenEnv) (conf : QdmaDevConf) : Prop :=
  e.vecs conf ≠ 0 → ¬ pciEnableMsixExact (e.vecs conf) e.enableMsix < 0 ∧
    ∀ i < (e.vecs conf).toNat, (e.requestIrq i : ℤ) = 0

/-- **When it does all or nothing**: there is a configuration; a call that comes so far has memory
for the device and finds a PF; one whose vectors are requested has queues; and one that enables
functions, with memory for them, is not refused. -/
structure OpenCall.Unwinds (c : OpenCall) (conf : QdmaDevConf) : Prop where
  alloc : c.ComesToAlloc conf → c.env.xdevMem ≠ 0
  pfs : c.ComesToMapped conf → c.env.build ≠ .vf → c.env.attrs.numPfs ≠ 0
  queues : c.ComesToInit conf → c.env.vecs conf ≠ 0 → c.env.IntrOk conf → c.env.qsets conf ≠ 0
  sriov : c.ComesToInit conf → c.env.IntrOk conf → c.env.qsets conf ≠ 0 → c.env.qdevMem = true →
    c.env.WantsVfs conf → c.env.vfMem = true → (c.env.enableSriov : ℤ) = 0

/-! ## Interrupts come and go -/

/-- The vectors below `n`, as they are held. -/
def irqsHeld : ℕ → List OpenRes
  | 0 => []
  | n + 1 => .irq n :: irqsHeld n

/-- What `n` vectors hold. -/
def intrHeld (n : ℤ) : List OpenRes := irqsHeld n.toNat ++ if n ≠ 0 then [.msix] else []

/-- Nothing of the interrupts is held. -/
def NoIntr (held : List OpenRes) : Prop := .msix ∉ held ∧ ∀ i, OpenRes.irq i ∉ held

theorem mem_irqsHeld {r : OpenRes} {n : ℕ} : r ∈ irqsHeld n ↔ ∃ i < n, r = .irq i := by
  induction n with
  | zero => exact iff_of_false List.not_mem_nil (fun ⟨_, h, _⟩ => Nat.not_lt_zero _ h)
  | succ n ih =>
      rw [irqsHeld, List.mem_cons, ih]
      constructor
      · rintro (rfl | ⟨i, hi, rfl⟩)
        · exact ⟨n, n.lt_succ_self, rfl⟩
        · exact ⟨i, Nat.lt_succ_of_lt hi, rfl⟩
      · rintro ⟨i, hi, rfl⟩
        rcases Nat.lt_succ_iff_lt_or_eq.mp hi with hlt | rfl
        · exact .inr ⟨i, hlt, rfl⟩
        · exact .inl rfl

/-- The vectors are freed from under `pre`. -/
theorem run_freeIrqs {pre : List OpenRes} (h : NoIntr pre) (held : List OpenRes) (n : ℕ)
    (ops : List (Op OpenRes)) :
    run (pre ++ (irqsHeld n ++ held)) (freeIrqs n ++ ops) = run (pre ++ held) ops := by
  induction n with
  | zero => rfl
  | succ n ih =>
      rw [irqsHeld, freeIrqs, List.cons_append, List.cons_append, run_unlock (h.2 n)]
      exact ih

theorem intrHeld_append {n : ℤ} (hn : n ≠ 0) (held : List OpenRes) :
    intrHeld n ++ held = irqsHeld n.toNat ++ .msix :: held := by
  unfold intrHeld
  rw [if_pos hn, List.append_assoc, List.singleton_append]

theorem noIntr_nil : NoIntr [] := ⟨List.not_mem_nil, fun _ => List.not_mem_nil⟩

theorem run_intrTeardown {pre : List OpenRes} (h : NoIntr pre) (held : List OpenRes) (n : ℤ) :
    run (pre ++ (intrHeld n ++ held))
        (freeIrqs n.toNat ++ if n ≠ 0 then [.unlock .msix] else []) = some (pre ++ held) := by
  unfold intrHeld
  rw [List.append_assoc, run_freeIrqs h]
  by_cases hn : n ≠ 0
  · rw [if_pos hn, if_pos hn, List.singleton_append, run_unlock h.1]
    rfl
  · rw [if_neg hn, if_neg hn]
    rfl

/-- **The vectors, one after the other**: all of them are requested, or none. -/
theorem run_requestIrqs (rv : ℕ → Errno) {held : List OpenRes} (h : NoIntr held) (n i : ℕ) :
    ((requestIrqs rv n i).2 = 0 ↔ ∀ j, i ≤ j → j < i + n → (rv j : ℤ) = 0) ∧
      run (irqsHeld i ++ .msix :: held) (requestIrqs rv n i).1 =
        if (requestIrqs rv n i).2 = 0 then some (irqsHeld (i + n) ++ .msix :: held)
        else some held := by
  induction n generalizing i with
  | zero =>
      refine ⟨iff_of_true rfl (fun j h1 h2 => absurd h2 (not_lt.mpr h1)), ?_⟩
      rw [if_pos (show (requestIrqs rv 0 i).2 = 0 from rfl)]
      rfl
  | succ n ih =>
      unfold requestIrqs
      by_cases hrv : (rv i : ℤ) ≠ 0
      · rw [if_pos hrv]
        refine ⟨iff_of_false hrv (fun hall => hrv (hall i le_rfl (by omega))), ?_⟩
        rw [if_neg hrv]
        refine (run_freeIrqs noIntr_nil (.msix :: held) i [.unlock .msix]).trans ?_
        exact run_unlock_head .msix held []
      · rw [if_neg hrv]
        obtain ⟨hiff, hrun⟩ := ih (i + 1)
        refine ⟨hiff.trans ?_, ?_⟩
        · constructor
          · rintro hall j h1 h2
            rcases Nat.eq_or_lt_of_le h1 with rfl | h1
            · exact not_not.mp hrv
            · exact hall j h1 (by omega)
          · rintro hall j h1 h2
            exact hall j (by omega) (by omega)
        · have hnot : OpenRes.irq i ∉ irqsHeld i ++ .msix :: held := by
            rw [List.mem_append, List.mem_cons, mem_irqsHeld]
            rintro (⟨j, hj, heq⟩ | heq | hmem)
            · exact absurd (OpenRes.irq.inj heq) hj.ne'
            · exact OpenRes.noConfusion heq
            · exact h.2 i hmem
          rw [run_lock hnot]
          rw [show i + (n + 1) = i + 1 + n by omega]
          exact hrun

/-- The device with vectors. -/
def OpenState.withVecs (s : OpenState) (n : ℤ) (dvec : ℕ) (log : List (Op OpenRes)) : OpenState :=
  { s with log := log, xdev := { s.xdev with numVecs := n, dvecStartIdx := dvec } }

/-- **`intr_setup`**: all of the vectors, or nothing. -/
theorem intrSetup_cases {s : OpenState} {held : List OpenRes} (e : OpenEnv)
    (hs : Holding s.log held) (hheld : NoIntr held)
    (hvecs : s.xdev.conf.pollMode = true → s.xdev.numVecs = 0) :
    (e.IntrOk s.xdev.conf ∧ ∃ dvec log,
        intrSetup s e = (s.withVecs (e.vecs s.xdev.conf) dvec log, 0) ∧
          Holding log (intrHeld (e.vecs s.xdev.conf) ++ held)) ∨
      (¬ e.IntrOk s.xdev.conf ∧ ∃ n log rv, rv ≠ 0 ∧
        intrSetup s e = (s.withVecs n s.xdev.dvecStartIdx log, rv) ∧ Holding log held) := by
  by_cases hpoll : s.xdev.conf.pollMode = true
  · have hv : e.vecs s.xdev.conf = 0 := if_pos hpoll
    refine .inl ⟨fun h => absurd hv h, s.xdev.dvecStartIdx, s.log, ?_, ?_⟩
    · unfold intrSetup OpenState.withVecs
      rw [if_pos hpoll, hv, ← hvecs hpoll]
    · rw [hv]
      exact hs
  by_cases hcount : e.msixVecCount = 0
  · have hv : e.vecs s.xdev.conf = 0 := by
      unfold OpenEnv.vecs
      rw [if_neg hpoll, hcount]
      rfl
    refine .inl ⟨fun h => absurd hv h, s.xdev.dvecStartIdx, s.log, ?_, ?_⟩
    · unfold intrSetup OpenState.withVecs
      rw [if_neg hpoll, if_pos hcount, hv]
    · rw [hv]
      exact hs
  unfold intrSetup
  rw [if_neg hpoll, if_neg hcount]
  have hv : e.vecs s.xdev.conf =
      if e.msixVecCount > xdevNumIrqMax then xdevNumIrqMax else e.msixVecCount := if_neg hpoll
  rw [← hv]
  -- the vectors asked for are enabled, then requested one by one
  have hn0 : e.vecs s.xdev.conf ≠ 0 := by
    rw [hv]
    split_ifs
    · decide
    · exact hcount
  unfold OpenEnv.IntrOk
  generalize e.vecs s.xdev.conf = n at hn0 ⊢
  simp only
  by_cases hmsix : pciEnableMsixExact n e.enableMsix < 0
  · rw [if_pos hmsix]
    exact .inr ⟨fun h => (h hn0).1 hmsix, n, s.log, _, hmsix.ne, rfl, hs⟩
  rw [if_neg hmsix]
  obtain ⟨hiff, hrun⟩ := run_requestIrqs e.requestIrq hheld n.toNat 0
  rw [Nat.zero_add] at hiff hrun
  have hlock : Holding (s.log ++ [.lock .msix]) (.msix :: held) := hs.lock hheld.1
  by_cases hrv : (requestIrqs e.requestIrq n.toNat 0).2 = 0
  · rw [if_pos hrv] at hrun
    rw [if_neg (not_not.mpr hrv), hrv, intrHeld_append hn0]
    refine .inl ⟨fun _ => ⟨hmsix, fun i hi => hiff.mp hrv i i.zero_le hi⟩, _, _, rfl, ?_⟩
    exact hlock.append hrun
  · rw [if_neg hrv] at hrun
    rw [if_pos hrv]
    refine .inr ⟨fun h => hrv (hiff.mpr fun j _ hj => (h hn0).2 j hj), n, _, _, hrv, rfl, ?_⟩
    exact hlock.append hrun

/-! ## The queues come and go -/

/-- The interrupts and the queues leave the rest of the device as it is. -/
structure KeepsDev (s s' : OpenState) : Prop where
  list : s'.list = s.list
  numVf : s'.numVf = s.numVf
  regs : s'.xdev.regs = s.xdev.regs
  vfInfo : s'.xdev.vfInfo = s.xdev.vfInfo
  intrCoalEn : s'.xdev.intrCoalEn = s.xdev.intrCoalEn
  vfMax : s'.xdev.conf.vfMax = s.xdev.conf.vfMax

/-- The queues of a device are there, with `n` vectors, over `held`. -/
structure HasQueues (s : OpenState) (n : ℤ) (held : List OpenRes) : Prop where
  numVecs : s.xdev.numVecs = n
  log : Holding s.log (.qdev :: (intrHeld n ++ held))
  queues : ∃ qdev, s.xdev.devPriv = some qdev ∧ QueuesInit qdev

/-- They are not. -/
structure HasNoQueues (s : OpenState) (held : List OpenRes) : Prop where
  log : Holding s.log held
  devPriv : s.xdev.devPriv = none

theorem mem_intrHeld {r : OpenRes} {n : ℤ} (h : r ∈ intrHeld n) :
    r = .msix ∨ ∃ i, r = .irq i := by
  rcases List.mem_append.mp h with hmem | hmem
  · obtain ⟨i, -, rfl⟩ := mem_irqsHeld.mp hmem
    exact .inr ⟨i, rfl⟩
  · split_ifs at hmem
    · exact .inl (List.mem_singleton.mp hmem)
    · exact absurd hmem List.not_mem_nil

/-- The queues of `qdma_device_init`. -/
theorem newQdev_init (x : XlnxDmaDev) (e : OpenEnv) (hq : x.conf.qsetsMax ≠ 0) :
    QueuesInit (x.newQdev e) where
  qmax := hq
  there := rfl
  descq := by
    rintro ⟨c2h, i⟩ (hi : i < x.conf.qsetsMax)
    cases c2h with
    | false =>
        show ({ conf := { qidx := if i < x.conf.qsetsMax then i else i - x.conf.qsetsMax } } : Descq)
          = { conf := { qidx := i } }
        rw [if_pos hi]
    | true =>
        show ({ conf := { qidx := if x.conf.qsetsMax + i < x.conf.qsetsMax then x.conf.qsetsMax + i
          else x.conf.qsetsMax + i - x.conf.qsetsMax } } : Descq) = { conf := { qidx := i } }
        rw [if_neg (by omega), Nat.add_sub_cancel_left]
  qidxHw := fun _ => rfl

/-- **`qdma_device_init`.**  It fails with the vectors requested if there are no queues. -/
theorem qdmaDeviceInit_cases {s : OpenState} {held : List OpenRes} (e : OpenEnv)
    (hs : HasNoQueues s held) (hheld : NoIntr held) (hqdev : .qdev ∉ held)
    (hvecs : s.xdev.conf.pollMode = true → s.xdev.numVecs = 0) :
    ∃ s' rv, qdmaDeviceInit s e = (s', rv) ∧ KeepsDev s s' ∧
      ((rv = 0 ∧ e.IntrOk s.xdev.conf ∧ s.xdev.conf.qsetsMax ≠ 0 ∧ e.qdevMem = true ∧
          HasQueues s' (e.vecs s.xdev.conf) held) ∨
        (rv < 0 ∧ (¬ e.IntrOk s.xdev.conf ∨ s.xdev.conf.qsetsMax = 0 ∧ e.vecs s.xdev.conf = 0 ∨
            s.xdev.conf.qsetsMax ≠ 0 ∧ e.qdevMem = false) ∧ HasNoQueues s' held) ∨
        (rv < 0 ∧ e.IntrOk s.xdev.conf ∧ s.xdev.conf.qsetsMax = 0 ∧ e.vecs s.xdev.conf ≠ 0 ∧
          HasNoQueues s' (intrHeld (e.vecs s.xdev.conf) ++ held))) := by
  unfold qdmaDeviceInit
  simp only
  generalize hfn : (if e.build = .vf then (0 : Fin 256) else e.funcId) = funcId
  have hs₁ : Holding ({ s with xdev := { s.xdev with funcId := funcId } } : OpenState).log held :=
    hs.log
  obtain ⟨hok, dvec, log, heq, hlog⟩ | ⟨hno, n, log, rv, hrv, heq, hlog⟩ :=
    intrSetup_cases e hs₁ hheld hvecs
  swap
  · rw [heq]
    simp only
    rw [if_pos hrv]
    exact ⟨_, _, rfl, ⟨rfl, rfl, rfl, rfl, rfl, rfl⟩, .inr (.inl ⟨by decide, .inl hno, hlog,
      hs.devPriv⟩)⟩
  rw [heq]
  simp only
  rw [if_neg (not_not.mpr rfl)]
  unfold OpenState.withVecs
  simp only at hok hlog ⊢
  by_cases hq : s.xdev.conf.qsetsMax = 0
  · rw [if_pos hq]
    -- the vectors, if there are any, are not given back
    refine ⟨_, _, rfl, ⟨rfl, rfl, rfl, rfl, rfl, rfl⟩, .inr ?_⟩
    by_cases hv : e.vecs s.xdev.conf = 0
    · rw [hv] at hlog
      exact .inl ⟨by decide, .inr (.inl ⟨hq, hv⟩), hlog, hs.devPriv⟩
    · exact .inr ⟨by decide, hok, hq, hv, hlog, hs.devPriv⟩
  rw [if_neg hq]
  by_cases hmem : e.qdevMem = true
  swap
  · have hmem : e.qdevMem = false := Bool.eq_false_of_not_eq_true hmem
    rw [hmem, if_pos (show (!false) = true from rfl)]
    refine ⟨_, _, rfl, ⟨rfl, rfl, rfl, rfl, rfl, rfl⟩,
      .inr (.inl ⟨by decide, .inr (.inr ⟨hq, rfl⟩), ?_, hs.devPriv⟩)⟩
    exact hlog.append (run_intrTeardown noIntr_nil held _)
  rw [hmem, if_neg (show ¬ (!true) = true by decide)]
  refine ⟨_, _, rfl, ⟨rfl, rfl, rfl, rfl, rfl, rfl⟩, .inl ⟨rfl, hok, hq, rfl, rfl, ?_, _, rfl, ?_⟩⟩
  · refine hlog.lock ?_
    rw [List.mem_append]
    rintro (hmem | hmem)
    · rcases mem_intrHeld hmem with h | ⟨i, h⟩
      · exact OpenRes.noConfusion h
      · exact OpenRes.noConfusion h
    · exact hqdev hmem
  · exact newQdev_init _ e hq

theorem qdmaDeviceCleanup_none {s : OpenState} (h : s.xdev.devPriv = none) :
    qdmaDeviceCleanup s = s := by
  unfold qdmaDeviceCleanup
  rw [h]

/-- The vectors and the queues are released, whatever became of the queues. -/
theorem qdmaDeviceCleanup_some {s : OpenState} {qdev : IdDev} {held : List OpenRes}
    (hdev : s.xdev.devPriv = some qdev)
    (h : Holding s.log (.qdev :: (intrHeld s.xdev.numVecs ++ held)))
    (hcoal : s.xdev.intrCoalEn = false) :
    KeepsDev s (qdmaDeviceCleanup s) ∧ HasNoQueues (qdmaDeviceCleanup s) held := by
  have hqdev : NoIntr [.qdev] :=
    ⟨fun hm => OpenRes.noConfusion (List.mem_singleton.mp hm),
      fun i hm => OpenRes.noConfusion (List.mem_singleton.mp hm)⟩
  have hlog : Holding (intrTeardown s).log (.qdev :: held) :=
    h.append (run_intrTeardown hqdev held s.xdev.numVecs)
  unfold qdmaDeviceCleanup
  rw [hdev]
  simp only
  rw [show (intrTeardown s).xdev.intrCoalEn = false from hcoal,
    if_neg (show ¬ false = true by decide)]
  exact ⟨⟨rfl, rfl, rfl, rfl, rfl, rfl⟩, hlog.unlock_head, rfl⟩

/-- **`qdma_device_cleanup`** releases what `qdma_device_init` has taken. -/
theorem HasQueues.cleanup {s : OpenState} {n : ℤ} {held : List OpenRes} (h : HasQueues s n held)
    (hcoal : s.xdev.intrCoalEn = false) :
    KeepsDev s (qdmaDeviceCleanup s) ∧ HasNoQueues (qdmaDeviceCleanup s) held := by
  obtain ⟨qdev, hdev, -⟩ := h.queues
  refine qdmaDeviceCleanup_some hdev ?_ hcoal
  rw [h.numVecs]
  exact h.log

/-! ## Online -/

/-- The functions are refused. -/
def OpenEnv.Refused (e : OpenEnv) (conf : QdmaDevConf) : Prop :=
  e.WantsVfs conf ∧ e.vfMem = true ∧ (e.enableSriov : ℤ) ≠ 0

/-- The functions, or the PF, fail the device. -/
def OpenEnv.OnlineFails (e : OpenEnv) (conf : QdmaDevConf) : Prop :=
  e.WantsVfs conf ∧ e.vfMem = false ∨ e.build = .vf ∧ (e.sendHello : ℤ) < 0

theorem sriovDisable_list (s : OpenState) :
    s.sriovDisable.list = s.list ∧ s.sriovDisable.xdev.devPriv = s.xdev.devPriv := by
  unfold OpenState.sriovDisable
  cases s.xdev.vfInfo with
  | false => exact ⟨rfl, rfl⟩
  | true => exact ⟨rfl, rfl⟩

/-- The device is online, whether functions were refused or not, or nothing has happened. -/
theorem bringOnline_cases {s : OpenState} (e : OpenEnv) (hvf : s.numVf = e.numVf) :
    ∃ s' rv, bringOnline s e = (s', rv) ∧
      ((0 ≤ rv ∧ ¬ e.OnlineFails s.xdev.conf ∧ s'.list = s.list ∧
          s'.xdev.devPriv = s.xdev.devPriv) ∨
        (rv < 0 ∧ e.OnlineFails s.xdev.conf ∧ s' = s)) := by
  unfold bringOnline OpenEnv.OnlineFails OpenEnv.WantsVfs
  cases hb : e.build with
  | vf =>
      refine ⟨s, _, rfl, ?_⟩
      by_cases hello : (e.sendHello : ℤ) < 0
      · exact .inr ⟨hello, .inr ⟨rfl, hello⟩, rfl⟩
      · refine .inl ⟨not_lt.mp hello, ?_, rfl, rfl⟩
        rintro (⟨⟨h, -⟩, -⟩ | ⟨-, h⟩)
        · exact QdmaBuild.noConfusion h
        · exact hello h
  | pf iov =>
      cases iov with
      | false =>
          refine ⟨s, 0, rfl, .inl ⟨le_rfl, ?_, rfl, rfl⟩⟩
          rintro (⟨⟨h, -⟩, -⟩ | ⟨h, -⟩)
          · exact absurd h (by decide)
          · exact QdmaBuild.noConfusion h
      | true =>
          have hno : ¬ (QdmaBuild.pf true = .vf ∧ (e.sendHello : ℤ) < 0) :=
            fun h => QdmaBuild.noConfusion h.1
          simp only
          rw [or_iff_left hno]
          -- the three ways in which no VF comes up without an error
          by_cases hmax : s.xdev.conf.vfMax ≠ 0
          swap
          · rw [if_neg hmax]
            exact ⟨s, 0, rfl, .inl ⟨le_rfl, fun h => hmax h.1.2.1, rfl, rfl⟩⟩
          rw [if_pos hmax]
          unfold OpenState.sriovEnable
          by_cases hcur : s.numVf ≠ 0
          · rw [if_pos hcur]
            exact ⟨s, _, rfl, .inl ⟨Int.natCast_nonneg _, fun h => hcur (hvf.trans h.1.2.2), rfl,
              rfl⟩⟩
          rw [if_neg hcur]
          by_cases hmem : e.vfMem = true
          swap
          · have hmem : e.vfMem = false := Bool.eq_false_of_not_eq_true hmem
            rw [hmem, if_pos (show (!false) = true from rfl)]
            exact ⟨s, _, rfl, .inr ⟨by decide,
              ⟨⟨trivial, hmax, hvf.symm.trans (not_not.mp hcur)⟩, rfl⟩, rfl⟩⟩
          rw [hmem, if_neg (show ¬ (!true) = true by decide)]
          simp only
          have hyes : ∀ P : Prop, ¬ (P ∧ true = false) := fun _ h => Bool.noConfusion h.2
          by_cases hsriov : (e.enableSriov : ℤ) ≠ 0
          · rw [if_pos hsriov]
            exact ⟨_, _, rfl, .inl ⟨le_rfl, hyes _, (sriovDisable_list _).1,
              (sriovDisable_list _).2⟩⟩
          · rw [if_neg hsriov]
            exact ⟨_, _, rfl, .inl ⟨Int.natCast_nonneg _, hyes _, rfl, rfl⟩⟩

/-- A device on its way: on the list, mapped, and without interrupts and queues. -/
structure Mapped (s : OpenState) (l : List ListedXdev) (entry : ListedXdev) : Prop where
  list : s.list = l ++ [entry]
  new : xdevFindByPdev l entry.pdev = none
  addr : entry.addr ≠ 0
  regs : s.xdev.regs = true
  vfInfo : s.xdev.vfInfo = false
  intrCoalEn : s.xdev.intrCoalEn = false

/-- What such a device holds. -/
def mappedHeld : List OpenRes := [.mapping, .xdev, .device, .regions]

theorem noIntr_mapped : NoIntr mappedHeld := by
  constructor
  · decide
  · rintro i hi
    simp only [mappedHeld, List.mem_cons, List.not_mem_nil, or_false, reduceCtorEq] at hi

theorem Mapped.keeps {s s' : OpenState} {l : List ListedXdev} {entry : ListedXdev}
    (h : Mapped s l entry) (hk : KeepsDev s s') : Mapped s' l entry :=
  ⟨hk.list.trans h.list, h.new, h.addr, hk.regs.trans h.regs, hk.vfInfo.trans h.vfInfo,
    hk.intrCoalEn.trans h.intrCoalEn⟩

/-- Its handle is that of its PCI device. -/
theorem Mapped.check {s : OpenState} {l : List ListedXdev} {entry : ListedXdev}
    (h : Mapped s l entry) : xdevCheckHndl s entry.pdev entry.addr = 0 := by
  have hfind : xdevFindByPdev s.list entry.pdev = some entry := by
    unfold xdevFindByPdev
    rw [h.list, List.find?_append, show l.find? _ = none from h.new, Option.none_or,
      List.find?_singleton, beq_self_eq_true, if_pos rfl]
  unfold xdevCheckHndl
  rw [hfind]
  exact if_neg (not_not.mpr rfl)

/-- `xdev_list_remove` takes a new device off the list again. -/
theorem erase_new {list l : List ListedXdev} {entry : ListedXdev} (hlist : list = l ++ [entry])
    (hnew : xdevFindByPdev l entry.pdev = none) : list.erase entry = l := by
  have hnot : entry ∉ l := by
    intro hmem
    exact absurd (beq_self_eq_true entry.pdev) (List.find?_eq_none.mp hnew entry hmem)
  rw [hlist, List.erase_append_right _ hnot, List.erase_cons_head, List.append_nil]

/-- **The labels from `unmap_bars` on** leave what was there before, and what is held besides. -/
theorem Mapped.unmap {s : OpenState} {l : List ListedXdev} {entry : ListedXdev}
    (h : Mapped s l entry) (extra : List OpenRes) (hlog : Holding s.log (extra ++ mappedHeld))
    (hmem : ∀ r ∈ mappedHeld, r ∉ extra) (rv : ℤ) (conf : QdmaDevConf) :
    (unmapBars s rv conf entry).list = l ∧ (unmapBars s rv conf entry).rv = rv ∧
      (unmapBars s rv conf entry).devHndl = 0 ∧
      Holding (unmapBars s rv conf entry).log extra := by
  unfold unmapBars disableDevice xdevUnmapBars OpenState.act
  rw [h.regs, if_pos rfl]
  refine ⟨erase_new h.list h.new, rfl, rfl, ?_⟩
  have h₁ := hlog.unlock (hmem .mapping (by decide))
  have h₂ := h₁.unlock (hmem .xdev (by decide))
  have h₃ := h₂.unlock (hmem .device (by decide))
  have h₄ := h₃.unlock (hmem .regions (by decide))
  rw [List.append_nil] at h₄
  exact h₄

/-- `qdma_device_offline`, once the queues are gone. -/
theorem Mapped.offline {s : OpenState} {l : List ListedXdev} {entry : ListedXdev}
    (h : Mapped s l entry) (e : OpenEnv) (hq : s.xdev.devPriv = none) :
    Mapped (qdmaDeviceOffline s e entry.pdev entry.addr) l entry ∧
      (qdmaDeviceOffline s e entry.pdev entry.addr).log = s.log := by
  unfold qdmaDeviceOffline
  rw [if_neg h.addr, if_neg (by rw [h.check]; decide)]
  simp only
  by_cases hiov : e.build = .pf true
  · rw [if_pos hiov, qdmaDeviceCleanup_none]
    · unfold OpenState.sriovDisable
      simp only
      rw [if_neg (by rw [h.vfInfo]; decide)]
      exact ⟨⟨h.list, h.new, h.addr, h.regs, rfl, h.intrCoalEn⟩, rfl⟩
    · rw [(sriovDisable_list _).2]
      exact hq
  · rw [if_neg hiov, qdmaDeviceCleanup_none]
    · exact ⟨⟨h.list, h.new, h.addr, h.regs, h.vfInfo, h.intrCoalEn⟩, rfl⟩
    · exact hq

/-- The device fails to come online, with no queues and with `extra` held besides. -/
theorem Mapped.fail {s : OpenState} {l : List ListedXdev} {entry : ListedXdev}
    (h : Mapped s l entry) (e : OpenEnv) (extra : List OpenRes)
    (hq : HasNoQueues s (extra ++ mappedHeld)) (hmem : ∀ r ∈ mappedHeld, r ∉ extra) (rv : ℤ)
    (conf : QdmaDevConf) :
    (unmapBars (qdmaDeviceOffline s e entry.pdev entry.addr) rv conf entry).list = l ∧
      (unmapBars (qdmaDeviceOffline s e entry.pdev entry.addr) rv conf entry).rv = rv ∧
      (unmapBars (qdmaDeviceOffline s e entry.pdev entry.addr) rv conf entry).devHndl = 0 ∧
      Holding (unmapBars (qdmaDeviceOffline s e entry.pdev entry.addr) rv conf entry).log extra := by
  obtain ⟨hm, hlog⟩ := h.offline e hq.devPriv
  refine hm.unmap extra ?_ hmem rv conf
  rw [hlog]
  exact hq.log

/-- `qdma_device_online` fails. -/
theorem openOnline_of_neg {s s' : OpenState} {e : OpenEnv} {entry : ListedXdev} {rv : ℤ}
    (h : qdmaDeviceOnline s e entry.pdev entry.addr = (s', rv)) (hrv : rv < 0) :
    openOnline s e entry.pdev entry =
      unmapBars (qdmaDeviceOffline s' e entry.pdev entry.addr) rv s.xdev.conf entry := by
  unfold openOnline
  rw [h]
  exact if_pos hrv

/-- **What comes of a device that is mapped.** -/
theorem Mapped.online {s : OpenState} {l : List ListedXdev} {entry : ListedXdev}
    (h : Mapped s l entry) (e : OpenEnv) (hvf : s.numVf = e.numVf)
    (hq : HasNoQueues s mappedHeld) (hvecs : s.xdev.numVecs = 0) :
    (e.IntrOk s.xdev.conf ∧ s.xdev.conf.qsetsMax ≠ 0 ∧ e.qdevMem = true ∧
        ¬ e.OnlineFails s.xdev.conf ∧ (openOnline s e entry.pdev entry).rv = 0 ∧
        (openOnline s e entry.pdev entry).All ∧
        (openOnline s e entry.pdev entry).list = l ++ [entry]) ∨
      (e.IntrOk s.xdev.conf ∧ s.xdev.conf.qsetsMax = 0 ∧ e.vecs s.xdev.conf ≠ 0 ∧
        (openOnline s e entry.pdev entry).list = l ∧
        ¬ Balanced (openOnline s e entry.pdev entry).log) ∨
      ((¬ e.IntrOk s.xdev.conf ∨ s.xdev.conf.qsetsMax = 0 ∧ e.vecs s.xdev.conf = 0 ∨
          s.xdev.conf.qsetsMax ≠ 0 ∧ (e.qdevMem = false ∨ e.OnlineFails s.xdev.conf)) ∧
        (openOnline s e entry.pdev entry).Nothing l) := by
  have hnil : ∀ r ∈ mappedHeld, r ∉ ([] : List OpenRes) := fun _ _ => List.not_mem_nil
  have honline : ∀ (s₁ : OpenState) (rv : ℤ), qdmaDeviceInit s e = (s₁, rv) →
      qdmaDeviceOnline s e entry.pdev entry.addr =
        if rv < 0 then (qdmaDeviceCleanup s₁, rv)
        else
          let (s₂, rv) := bringOnline { s₁ with xdev := { s₁.xdev with offline := false } } e
          if rv < 0 then (qdmaDeviceCleanup s₂, rv) else (s₂, 0) := by
    intro s₁ rv heq
    unfold qdmaDeviceOnline
    rw [if_neg h.addr, if_neg (by rw [h.check]; decide), heq]
  obtain ⟨s₁, rv, heq, hk, ⟨rfl, hok, hqs, hmem, hhas⟩ | ⟨hrv, hwhy, hno⟩ |
    ⟨hrv, hok, hqs, hv, hno⟩⟩ := qdmaDeviceInit_cases e hq noIntr_mapped (by decide)
    (fun _ => hvecs)
  · -- the queues are there
    have hfails : e.OnlineFails s₁.xdev.conf ↔ e.OnlineFails s.xdev.conf := by
      unfold OpenEnv.OnlineFails OpenEnv.WantsVfs
      rw [hk.vfMax]
    obtain ⟨s₂, rv₂, hb, ⟨hrv₂, hon, hlist, hdev⟩ | ⟨hrv₂, hon, rfl⟩⟩ := bringOnline_cases
      (s := { s₁ with xdev := { s₁.xdev with offline := false } }) e (hk.numVf.trans hvf)
    · have hres : qdmaDeviceOnline s e entry.pdev entry.addr = (s₂, 0) := by
        rw [honline s₁ 0 heq, if_neg (lt_irrefl _), hb]
        exact if_neg (not_lt.mpr hrv₂)
      have hopen : openOnline s e entry.pdev entry =
          { rv := 0, devHndl := entry.addr, conf := s.xdev.conf, list := s₂.list, log := s₂.log,
            dev := some s₂.xdev } := by
        unfold openOnline
        rw [hres]
        exact if_neg (lt_irrefl _)
      have hlist' : s₂.list = l ++ [entry] := hlist.trans (hk.list.trans h.list)
      refine .inl ⟨hok, hqs, hmem, fun hf => hon (hfails.mpr hf), ?_, ?_, ?_⟩
      · rw [hopen]
      · rw [hopen]
        obtain ⟨qdev, hqdev, hinit⟩ := hhas.queues
        refine ⟨h.addr, ⟨entry, ?_, rfl⟩, s₂.xdev, qdev, rfl, hdev.trans hqdev, hinit⟩
        show entry ∈ s₂.list
        rw [hlist']
        exact List.mem_append_right _ List.mem_cons_self
      · rw [hopen]
        exact hlist'
    · -- and are taken down again
      have hhas' : HasQueues { s₁ with xdev := { s₁.xdev with offline := false } }
          (e.vecs s.xdev.conf) mappedHeld := ⟨hhas.numVecs, hhas.log, hhas.queues⟩
      have hm' : Mapped { s₁ with xdev := { s₁.xdev with offline := false } } l entry :=
        h.keeps ⟨hk.list, hk.numVf, hk.regs, hk.vfInfo, hk.intrCoalEn, hk.vfMax⟩
      obtain ⟨hk₂, hno⟩ := hhas'.cleanup hm'.intrCoalEn
      have hres : qdmaDeviceOnline s e entry.pdev entry.addr =
          (qdmaDeviceCleanup { s₁ with xdev := { s₁.xdev with offline := false } }, rv₂) := by
        rw [honline s₁ 0 heq, if_neg (lt_irrefl _), hb]
        exact if_pos hrv₂
      refine .inr (.inr ⟨.inr (.inr ⟨hqs, .inr (hfails.mp hon)⟩), ?_⟩)
      obtain ⟨h₁, h₂, h₃, h₄⟩ := (hm'.keeps hk₂).fail e [] hno hnil rv₂ s.xdev.conf
      rw [openOnline_of_neg hres hrv₂]
      exact ⟨h₂ ▸ hrv₂, h₃, h₁, h₄⟩
  · -- nothing is there
    have hres : qdmaDeviceOnline s e entry.pdev entry.addr = (s₁, rv) := by
      rw [honline s₁ rv heq, if_pos hrv, qdmaDeviceCleanup_none hno.devPriv]
    obtain ⟨h₁, h₂, h₃, h₄⟩ := (h.keeps hk).fail e [] hno hnil rv s.xdev.conf
    rw [openOnline_of_neg hres hrv]
    refine .inr (.inr ⟨?_, h₂ ▸ hrv, h₃, h₁, h₄⟩)
    rcases hwhy with hw | hw | ⟨hw, hmem⟩
    · exact .inl hw
    · exact .inr (.inl hw)
    · exact .inr (.inr ⟨hw, .inl hmem⟩)
  · -- the vectors are
    have hres : qdmaDeviceOnline s e entry.pdev entry.addr = (s₁, rv) := by
      rw [honline s₁ rv heq, if_pos hrv, qdmaDeviceCleanup_none hno.devPriv]
    have hmem : ∀ r ∈ mappedHeld, r ∉ intrHeld (e.vecs s.xdev.conf) := by
      rintro r hr hi
      rcases mem_intrHeld hi with rfl | ⟨i, rfl⟩
      · exact noIntr_mapped.1 hr
      · exact noIntr_mapped.2 i hr
    obtain ⟨h₁, -, -, h₄⟩ := (h.keeps hk).fail e _ hno hmem rv s.xdev.conf
    rw [openOnline_of_neg hres hrv]
    refine .inr (.inl ⟨hok, hqs, hv, h₁, ?_⟩)
    intro hbal
    have hnil : intrHeld (e.vecs s.xdev.conf) = [] := Option.some.inj (h₄.symm.trans hbal)
    unfold intrHeld at hnil
    rw [if_pos hv] at hnil
    exact absurd hnil (List.append_ne_nil_of_right_ne_nil _ (List.cons_ne_nil _ _))

/-! ## From the arguments on -/

theorem errno_ne {rv : Errno} (h : (rv : ℤ) ≠ 0) : (rv : ℤ) < 0 := lt_of_le_of_ne rv.2 h

theorem pciDmaMaskSet_ne {e : OpenEnv} (h : pciDmaMaskSet e ≠ 0) : pciDmaMaskSet e < 0 := by
  unfold pciDmaMaskSet at h ⊢
  split_ifs at h ⊢
  · exact absurd rfl h
  · exact absurd rfl h
  · decide

/-- A call that does not come to the allocation leaves nothing. -/
theorem OpenCall.early {c : OpenCall} {conf : QdmaDevConf} (hconf : c.conf = some conf)
    (h : ¬ c.ComesToAlloc conf) : ∃ r, c.qdmaDeviceOpen = some r ∧ r.Nothing c.list := by
  unfold OpenCall.qdmaDeviceOpen
  rw [hconf, Option.bind_some]
  by_cases hname : c.modName = none
  · simp only [if_pos hname]
    exact ⟨_, rfl, (by decide : qdmaErrInvalidInputParam < 0), rfl, rfl, rfl⟩
  simp only [if_neg hname]
  cases hpdev : conf.pdev with
  | none => exact ⟨_, rfl, (by decide : qdmaErrInvalidPciDev < 0), rfl, rfl, rfl⟩
  | some pdev =>
  simp only
  by_cases hfind : (xdevFindByPdev c.list pdev).isSome = true
  · rw [if_pos hfind]
    exact ⟨_, rfl, (by decide : qdmaErrPciDeviceAlreadyAttached < 0), rfl, rfl, rfl⟩
  rw [if_neg hfind]
  by_cases hreg : (c.env.regions : ℤ) ≠ 0
  · rw [if_pos hreg]
    exact ⟨_, rfl, errno_ne hreg, rfl, rfl, rfl⟩
  rw [if_neg hreg]
  by_cases hen : (c.env.enable : ℤ) ≠ 0
  · rw [if_pos hen]
    exact ⟨_, rfl, errno_ne hen, rfl, rfl, rfl⟩
  rw [if_neg hen]
  by_cases hmask : pciDmaMaskSet c.env ≠ 0
  · rw [if_pos hmask]
    exact ⟨_, rfl, pciDmaMaskSet_ne hmask, rfl, rfl, rfl⟩
  · exact absurd ⟨hname, ⟨pdev, hpdev, Option.not_isSome_iff_eq_none.mp hfind⟩, not_not.mp hreg,
      not_not.mp hen, not_not.mp hmask⟩ h

/-- A call that comes to the allocation. -/
theorem OpenCall.ComesToAlloc.eq {c : OpenCall} {conf : QdmaDevConf} (h : c.ComesToAlloc conf)
    (hconf : c.conf = some conf) {pdev : PciDev} (hpdev : conf.pdev = some pdev)
    (hnew : xdevFindByPdev c.list pdev = none) :
    c.qdmaDeviceOpen =
      if c.env.xdevMem = 0 then some (disableDevice 0 conf.resetBars c.list enabledLog)
      else
        openMapped (newXdev c.list c.env conf.resetBars pdev enabledLog).1 c.env conf.resetBars pdev
          (newXdev c.list c.env conf.resetBars pdev enabledLog).2 := by
  unfold OpenCall.qdmaDeviceOpen
  rw [hconf, Option.bind_some]
  simp only [if_neg h.modName, hpdev]
  rw [if_neg (Option.not_isSome_iff_eq_none.mpr hnew), if_neg (not_not.mpr h.regions),
    if_neg (not_not.mpr h.enable), if_neg (not_not.mpr h.dmaMask), h.dmaMask]

/-! ## Mapping -/

/-- The registers are those of the device. -/
def OpenEnv.ConfigBar (e : OpenEnv) : Prop :=
  e.build ≠ .vf → e.configId &&& 0xFFFF0000 = 0x1FD30000

/-- **`xdev_map_bars`.** -/
theorem xdevMapBars_cases (s : OpenState) (e : OpenEnv) {held : List OpenRes}
    (hlog : Holding s.log held) (hnot : .mapping ∉ held) (hregs : s.xdev.regs = false) :
    (e.iomap = true ∧ e.ConfigBar ∧ ∃ log, Holding log (.mapping :: held) ∧
        xdevMapBars s e = ({ s with
          log := log
          xdev := { s.xdev with regs := true, conf := { s.xdev.conf with barNumConfig := 0 } } },
          0)) ∨
      ((e.iomap = true → ¬ e.ConfigBar) ∧ ∃ s', xdevMapBars s e = (s', einval) ∧
        s'.list = s.list ∧ s'.xdev.regs = false ∧ Holding s'.log held) := by
  unfold xdevMapBars
  by_cases hmap : e.iomap = true
  swap
  · have hmap' : e.iomap = false := Bool.eq_false_of_not_eq_true hmap
    simp only [hmap', Bool.not_false, if_true]
    exact .inr ⟨fun h => absurd h (by decide), _, rfl, rfl, hregs, hlog⟩
  simp only [hmap, Bool.not_true, Bool.false_eq_true, if_false]
  by_cases hid : e.build ≠ .vf ∧ e.configId &&& 0xFFFF0000 ≠ 0x1FD30000
  · rw [if_pos hid]
    refine .inr ⟨fun _ hbar => hid.2 (hbar hid.1), _, rfl, rfl, rfl, ?_⟩
    exact (hlog.lock hnot).unlock_head
  · rw [if_neg hid]
    refine .inl ⟨trivial, ?_, _, hlog.lock hnot, rfl⟩
    intro hvf
    by_contra hne
    exact hid ⟨hvf, hne⟩

/-- The label `unmap_bars` without a mapping. -/
theorem unmapBars_unmapped {s : OpenState} {l : List ListedXdev} {entry : ListedXdev}
    (hlist : s.list = l ++ [entry]) (hnew : xdevFindByPdev l entry.pdev = none)
    (hregs : s.xdev.regs = false) (hlog : Holding s.log [.xdev, .device, .regions]) {rv : ℤ}
    (hrv : rv < 0) (conf : QdmaDevConf) : (unmapBars s rv conf entry).Nothing l := by
  unfold unmapBars disableDevice xdevUnmapBars
  rw [hregs, if_neg (show ¬ false = true by decide)]
  refine ⟨hrv, rfl, erase_new hlist hnew, ?_⟩
  have h₁ := hlog.unlock_head
  have h₂ := h₁.unlock_head
  exact h₂.unlock_head

/-! ## The outcome -/

/-- **The call gives a device.** -/
structure OpenCall.Attaches (c : OpenCall) (conf : QdmaDevConf) : Prop
    extends c.ComesToInit conf where
  intr : c.env.IntrOk conf
  queues : c.env.qsets conf ≠ 0
  qdev : c.env.qdevMem = true
  online : ¬ c.env.OnlineFails conf

/-- **What comes of a call**: a device; vectors that stay requested; 0 with no device; a division
by 0; or nothing. -/
inductive OpenCall.Outcome (c : OpenCall) (conf : QdmaDevConf) : Prop where
  | attached (r : OpenResult) (entry : ListedXdev) (h : c.Attaches conf)
      (hopen : c.qdmaDeviceOpen = some r) (hrv : r.rv = 0) (hall : r.All)
      (hlist : r.list = c.list ++ [entry]) (haddr : entry.addr = c.env.xdevMem)
      (hpdev : conf.pdev = some entry.pdev) (hidx : entry.idx = nextIdx c.list)
  | requested (r : OpenResult) (h : c.ComesToInit conf) (hok : c.env.IntrOk conf)
      (hqs : c.env.qsets conf = 0) (hv : c.env.vecs conf ≠ 0) (hopen : c.qdmaDeviceOpen = some r)
      (hlist : r.list = c.list) (hbal : ¬ Balanced r.log)
  | noMemory (r : OpenResult) (h : c.ComesToAlloc conf) (hmem : c.env.xdevMem = 0)
      (hopen : c.qdmaDeviceOpen = some r) (hlist : r.list = c.list) (hrv : r.rv = 0)
      (hndl : r.devHndl = 0)
  | noPfs (h : c.ComesToMapped conf) (hb : c.env.build ≠ .vf) (hpfs : c.env.attrs.numPfs = 0)
      (hopen : c.qdmaDeviceOpen = none)
  | nothing (r : OpenResult) (hno : ¬ c.Attaches conf) (hu : c.Unwinds conf)
      (hopen : c.qdmaDeviceOpen = some r) (hn : r.Nothing c.list)

/-- The device has the configuration of the call. -/
structure Agrees (e : OpenEnv) (k conf : QdmaDevConf) : Prop where
  pollMode : k.pollMode = conf.pollMode
  vfMax : k.vfMax = conf.vfMax
  qsets : k.qsetsMax = e.qsets conf

theorem Agrees.vecs {e : OpenEnv} {k conf : QdmaDevConf} (h : Agrees e k conf) :
    e.vecs k = e.vecs conf := by
  unfold OpenEnv.vecs
  rw [h.pollMode]

theorem Agrees.intrOk {e : OpenEnv} {k conf : QdmaDevConf} (h : Agrees e k conf) :
    e.IntrOk k ↔ e.IntrOk conf := by
  unfold OpenEnv.IntrOk
  rw [h.vecs]

theorem Agrees.onlineFails {e : OpenEnv} {k conf : QdmaDevConf} (h : Agrees e k conf) :
    e.OnlineFails k ↔ e.OnlineFails conf := by
  unfold OpenEnv.OnlineFails OpenEnv.WantsVfs
  rw [h.vfMax]

/-- A call that leaves nothing is in order. -/
theorem OpenCall.allOrNothing_of_nothing {c : OpenCall} {conf : QdmaDevConf} {r : OpenResult}
    (hconf : c.conf = some conf) (hr : c.qdmaDeviceOpen = some r) (hn : r.Nothing c.list) :
    c.AllOrNothing := ⟨conf, r, hconf, hr, fun _ => hn, fun h => absurd hn.rv (not_lt.mpr h)⟩

theorem OpenCall.allOrNothing_iff {c : OpenCall} {conf : QdmaDevConf} {r : OpenResult}
    (hconf : c.conf = some conf) (hr : c.qdmaDeviceOpen = some r) :
    c.AllOrNothing ↔ (OpenFails c conf → r.Nothing c.list) ∧ (0 ≤ r.rv → r.All) := by
  constructor
  · rintro ⟨conf', r', hconf', hr', h⟩
    obtain rfl := Option.some.inj (hconf.symm.trans hconf')
    obtain rfl := Option.some.inj (hr.symm.trans hr')
    exact h
  · intro h
    exact ⟨conf, r, hconf, hr, h⟩

/-- No step fails but that functions are refused. -/
theorem OpenCall.ComesToInit.refused {c : OpenCall} {conf : QdmaDevConf}
    (h : c.ComesToInit conf) (hok : c.env.IntrOk conf) (hqs : c.env.qsets conf ≠ 0)
    (hmem : c.env.qdevMem = true) (hon : ¬ c.env.OnlineFails conf) (hf : OpenFails c conf) :
    c.env.Refused conf := by
  cases hf with
  | modName hn => exact absurd hn h.modName
  | pdev hn =>
      obtain ⟨pdev, hp, -⟩ := h.pdev
      exact absurd (hp.symm.trans hn) (Option.some_ne_none _)
  | attached pdev hp hl =>
      obtain ⟨pdev', hp', hnew⟩ := h.pdev
      obtain rfl := Option.some.inj (hp.symm.trans hp')
      rw [hnew] at hl
      exact absurd hl (by decide)
  | regions hn => exact absurd h.regions hn.ne
  | enable hn => exact absurd h.enable hn.ne
  | dmaMask hn => exact absurd h.dmaMask hn.ne
  | alloc hn => exact absurd hn h.alloc
  | mapBars hn => exact absurd (hn.symm.trans h.mapBars) (by decide)
  | configBar hb hid => exact absurd (h.configBar hb) hid
  | attributes hb hm hs =>
      rcases (h.attributes hb).2 with h' | h'
      · exact absurd (hm.symm.trans h') (by decide)
      · exact absurd (hs.symm.trans h') (by decide)
  | msix hv hm => exact absurd hm (hok hv).1
  | irq i hi hn =>
      have hv : c.env.vecs conf ≠ 0 := by
        intro h0
        rw [h0] at hi
        exact Nat.not_lt_zero i hi
      exact absurd ((hok hv).2 i hi) hn.ne
  | queues hn => exact absurd hn hqs
  | qdev hn => exact absurd (hn.symm.trans hmem) (by decide)
  | vfInfo hw hm => exact absurd (.inl ⟨hw, hm⟩) hon
  | sriov hw hm =>
      refine ⟨hw, ?_, hm.ne⟩
      by_contra hno
      exact hon (.inl ⟨hw, Bool.eq_false_of_not_eq_true hno⟩)
  | hello hb hm => exact absurd (.inr ⟨hb, hm⟩) hon

/-- **A call that comes to the interrupts.** -/
theorem OpenCall.ComesToInit.outcome {c : OpenCall} {conf : QdmaDevConf}
    (h : c.ComesToInit conf) {s : OpenState} {entry : ListedXdev}
    (hm : Mapped s c.list entry) (hvf : s.numVf = c.env.numVf) (hq : HasNoQueues s mappedHeld)
    (hvecs : s.xdev.numVecs = 0) (hk : Agrees c.env s.xdev.conf conf)
    (haddr : entry.addr = c.env.xdevMem) (hpdev : conf.pdev = some entry.pdev)
    (hidx : entry.idx = nextIdx c.list)
    (hopen : c.qdmaDeviceOpen = some (openOnline s c.env entry.pdev entry)) :
    c.Outcome conf := by
  have hcase := hm.online c.env hvf hq hvecs
  rw [hk.intrOk, hk.onlineFails, hk.vecs, hk.qsets] at hcase
  obtain ⟨hok, hqs, hmem, hon, hrv, hall, hlist⟩ | ⟨hok, hqs, hv, hlist, hbal⟩ | ⟨hwhy, hn⟩ := hcase
  · exact .attached _ entry ⟨h, hok, hqs, hmem, hon⟩ hopen hrv hall hlist haddr hpdev hidx
  · exact .requested _ h hok hqs hv hopen hlist hbal
  · refine .nothing _ (fun hat => ?_) ⟨fun _ => h.alloc, fun _ hb => (h.attributes hb).1,
      fun _ hv hok hqs => ?_, fun _ hok hqs hmem hw hvm => ?_⟩ hopen hn
    · rcases hwhy with hno | ⟨hno, -⟩ | ⟨-, hno | hno⟩
      · exact hno hat.intr
      · exact hat.queues hno
      · exact absurd (hno.symm.trans hat.qdev) (by decide)
      · exact hat.online hno
    · rcases hwhy with hw | ⟨-, hw⟩ | ⟨hw, -⟩
      · exact hw hok
      · exact hv hw
      · exact hw hqs
    · rcases hwhy with hno | ⟨hno, -⟩ | ⟨-, hno | ⟨-, hno⟩ | ⟨hb, -⟩⟩
      · exact absurd hok hno
      · exact absurd hno hqs
      · exact absurd (hno.symm.trans hmem) (by decide)
      · exact absurd (hno.symm.trans hvm) (by decide)
      · exact absurd (hb.symm.trans hw.1) (fun h => QdmaBuild.noConfusion h)

/-- A call that does not come to the interrupts for any reason but those that count. -/
theorem OpenCall.unwinds_of_not {c : OpenCall} {conf : QdmaDevConf}
    (halloc : c.ComesToAlloc conf → c.env.xdevMem ≠ 0)
    (hpfs : c.ComesToMapped conf → c.env.build ≠ .vf → c.env.attrs.numPfs ≠ 0)
    (h : ¬ c.ComesToInit conf) : c.Unwinds conf :=
  ⟨halloc, hpfs, fun hc => absurd hc h, fun hc => absurd hc h⟩

/-- The registers are mapped: the attributes are read, and the device comes online. -/
theorem OpenCall.ComesToMapped.outcome {c : OpenCall} {conf : QdmaDevConf}
    (h : c.ComesToMapped conf) {s : OpenState} {entry : ListedXdev}
    (hm : Mapped s c.list entry) (hvf : s.numVf = c.env.numVf) (hq : HasNoQueues s mappedHeld)
    (hvecs : s.xdev.numVecs = 0) (hpoll : s.xdev.conf.pollMode = conf.pollMode)
    (hmax : s.xdev.conf.vfMax = conf.vfMax) (hqsets : s.xdev.conf.qsetsMax = conf.qsetsMax)
    (haddr : entry.addr = c.env.xdevMem) (hpdev : conf.pdev = some entry.pdev)
    (hidx : entry.idx = nextIdx c.list)
    (hopen : c.qdmaDeviceOpen =
      if c.env.build = .vf then some (openOnline s c.env entry.pdev entry)
      else
        (s.attributesGet c.env.attrs).map (fun s =>
          if !s.xdev.mmModeEn && !s.xdev.stModeEn then
            unmapBars s qdmaErrInterfaceNotEnabledInDevice conf.resetBars entry
          else openOnline s c.env entry.pdev entry)) :
    c.Outcome conf := by
  by_cases hb : c.env.build = .vf
  · rw [if_pos hb] at hopen
    refine OpenCall.ComesToInit.outcome ⟨h, fun hne => absurd hb hne⟩ hm hvf hq hvecs
      ⟨hpoll, hmax, ?_⟩ haddr hpdev hidx hopen
    rw [hqsets]
    exact (if_pos hb).symm
  rw [if_neg hb] at hopen
  unfold OpenState.attributesGet at hopen
  by_cases hpfs : c.env.attrs.numPfs = 0
  · rw [if_pos hpfs] at hopen
    exact .noPfs h hb hpfs hopen
  rw [if_neg hpfs, Option.map_some] at hopen
  have hm' : Mapped (s.withAttrs c.env.attrs) c.list entry :=
    ⟨hm.list, hm.new, hm.addr, hm.regs, hm.vfInfo, hm.intrCoalEn⟩
  have hq' : HasNoQueues (s.withAttrs c.env.attrs) mappedHeld := ⟨hq.log, hq.devPriv⟩
  -- a device with neither mode is unmapped again
  by_cases hmodes : (!c.env.attrs.mmModeEn && !c.env.attrs.stModeEn) = true
  · replace hopen := hopen.trans (congrArg some (if_pos hmodes))
    rw [Bool.and_eq_true, Bool.not_eq_true', Bool.not_eq_true'] at hmodes
    have hno : ¬ c.ComesToInit conf := by
      intro hc
      rcases (hc.attributes hb).2 with h' | h'
      · exact absurd (hmodes.1.symm.trans h') (by decide)
      · exact absurd (hmodes.2.symm.trans h') (by decide)
    refine .nothing _ (fun hat => hno hat.toComesToInit)
      (OpenCall.unwinds_of_not (fun _ => h.alloc) (fun _ _ => hpfs) hno) hopen ?_
    obtain ⟨h₁, h₂, h₃, h₄⟩ := hm'.unmap [] hq'.log (fun _ _ => List.not_mem_nil)
      qdmaErrInterfaceNotEnabledInDevice conf.resetBars
    exact ⟨h₂ ▸ (by decide : qdmaErrInterfaceNotEnabledInDevice < 0), h₃, h₁, h₄⟩
  · replace hopen := hopen.trans (congrArg some (if_neg hmodes))
    refine OpenCall.ComesToInit.outcome ⟨h, fun _ => ⟨hpfs, ?_⟩⟩ hm' hvf hq' hvecs
      ⟨hpoll, hmax, (if_neg hb).symm⟩ haddr hpdev hidx hopen
    rw [Bool.and_eq_true, Bool.not_eq_true', Bool.not_eq_true'] at hmodes
    by_contra hno
    rw [not_or] at hno
    exact hmodes ⟨Bool.eq_false_of_not_eq_true hno.1, Bool.eq_false_of_not_eq_true hno.2⟩

/-- **Every call has one of the outcomes.** -/
theorem OpenCall.outcome {c : OpenCall} {conf : QdmaDevConf} (hconf : c.conf = some conf) :
    c.Outcome conf := by
  by_cases halloc : c.ComesToAlloc conf
  swap
  · obtain ⟨r, hr, hn⟩ := OpenCall.early hconf halloc
    exact .nothing r (fun h => halloc h.toComesToAlloc)
      (OpenCall.unwinds_of_not (fun h => absurd h halloc) (fun h => absurd h.toComesToAlloc halloc)
        (fun h => halloc h.toComesToAlloc)) hr hn
  obtain ⟨pdev, hpdev, hnew⟩ := halloc.pdev
  have hopen := halloc.eq hconf hpdev hnew
  by_cases hmem : c.env.xdevMem = 0
  · -- the call returns 0, with no handle
    rw [if_pos hmem] at hopen
    exact .noMemory _ halloc hmem hopen rfl rfl rfl
  rw [if_neg hmem] at hopen
  have hlog : Holding (newXdev c.list c.env conf.resetBars pdev enabledLog).1.log
      [.xdev, .device, .regions] := rfl
  obtain ⟨hmap, hbar, log, hlog', heq⟩ | ⟨hbad, s, heq, hlist, hregs, hlog'⟩ :=
    xdevMapBars_cases _ c.env hlog (by decide) rfl
  · unfold openMapped at hopen
    rw [heq] at hopen
    exact OpenCall.ComesToMapped.outcome ⟨halloc, hmem, hmap, hbar⟩ ⟨rfl, hnew, hmem, rfl, rfl, rfl⟩
      rfl ⟨hlog', rfl⟩ rfl rfl rfl rfl rfl hpdev rfl hopen
  · unfold openMapped at hopen
    rw [heq] at hopen
    have hno : ¬ c.ComesToInit conf := fun h => hbad h.mapBars h.configBar
    exact .nothing _ (fun h => hno h.toComesToInit)
      (OpenCall.unwinds_of_not (fun _ => hmem) (fun h => absurd h.configBar (hbad h.mapBars)) hno)
      hopen (unmapBars_unmapped hlist hnew hregs hlog' (by decide) _)

/-- **Opening a device is all or nothing** just when the call `Unwinds`: for every argument, every
list of devices and every answer of the kernel and of the device. -/
theorem open_all_or_nothing_iff (c : OpenCall) :
    c.AllOrNothing ↔ ∃ conf, c.conf = some conf ∧ c.Unwinds conf := by
  cases hconf : c.conf with
  | none =>
      refine iff_of_false ?_ ?_
      · rintro ⟨conf, _, hc, -⟩
        exact Option.some_ne_none conf (hc.symm.trans hconf)
      · rintro ⟨conf, hc, -⟩
        exact Option.some_ne_none conf hc.symm
  | some conf =>
  have hthe : (∃ conf', some conf = some conf' ∧ c.Unwinds conf') ↔ c.Unwinds conf := by
    constructor
    · rintro ⟨conf', hc, hu⟩
      obtain rfl := Option.some.inj hc
      exact hu
    · intro hu
      exact ⟨conf, rfl, hu⟩
  rw [hthe]
  -- each way in which the call can end either leaves all, nothing, or something
  cases OpenCall.outcome hconf with
  | attached r entry h hopen hrv hall =>
      rw [OpenCall.allOrNothing_iff hconf hopen]
      constructor
      · rintro ⟨hno, -⟩
        refine ⟨fun _ => h.alloc, fun _ hb => (h.attributes hb).1, fun _ _ _ => h.queues, ?_⟩
        intro _ _ _ _ hw _
        by_contra hs
        exact absurd hrv (hno (.sriov hw (errno_ne hs))).rv.ne
      · intro hu
        refine ⟨fun hf => ?_, fun _ => hall⟩
        obtain ⟨hw, hvm, hs⟩ := h.toComesToInit.refused h.intr h.queues h.qdev h.online hf
        exact absurd (hu.sriov h.toComesToInit h.intr h.queues h.qdev hw hvm) hs
  | requested r h hok hqs hv hopen hlist hbal =>
      rw [OpenCall.allOrNothing_iff hconf hopen]
      refine iff_of_false ?_ (fun hu => hu.queues h hv hok hqs)
      rintro ⟨hno, -⟩
      exact hbal (hno (.queues hqs)).log
  | noMemory r h hmem hopen hlist hrv hndl =>
      refine iff_of_false ?_ (fun hu => hu.alloc h hmem)
      rw [OpenCall.allOrNothing_iff hconf hopen]
      rintro ⟨-, hall⟩
      exact (hall hrv.ge).devHndl hndl
  | noPfs h hb hpfs hopen =>
      refine iff_of_false ?_ (fun hu => hu.pfs h hb hpfs)
      rintro ⟨_, r, -, hr, -⟩
      exact absurd (hopen.symm.trans hr) (Option.some_ne_none r).symm
  | nothing r hno hu hopen hn =>
      exact iff_of_true (OpenCall.allOrNothing_of_nothing hconf hopen hn) hu

/-- Configuration of a PF with two functions to enable, whose queues are counted from the
registers. -/
def openTwoVfs : QdmaDevConf := { pdev := some { id := 1, name := "0000:01:00.0" }, vfMax := 2 }

/-- The answers a PF with 512 queue pairs gets. -/
def pfAnswers : OpenEnv := { build := .pf true, attrs := { glblQmax := 512 } }

/-- **Three openings that are neither all nor nothing**: without memory for the device it returns
0; without queues two vectors and MSI-X stay; and functions that are refused do not fail it. -/
theorem open_leaves_something :
    (OpenCall.qdmaDeviceOpen
      { modName := some "qdma", conf := some openTwoVfs, list := [],
        env := { pfAnswers with xdevMem := 0 } }).map (fun r => (r.rv, r.devHndl)) = some (0, 0) ∧
    (OpenCall.qdmaDeviceOpen
      { modName := some "qdma", conf := some openTwoVfs, list := [],
        env := { pfAnswers with attrs := { glblQmax := 0 }, msixVecCount := 2 } }).map
        (fun r => (r.rv, run [] r.log)) = some (einval, some [.irq 1, .irq 0, .msix]) ∧
    (OpenCall.qdmaDeviceOpen
      { modName := some "qdma", conf := some openTwoVfs, list := [],
        env := { pfAnswers with enableSriov := ⟨enomem, by decide⟩ } }).map
        (fun r => (r.rv, r.devHndl)) = some (0, 1) ∧
    (OpenCall.qdmaDeviceOpen
      { modName := some "qdma", conf := none, list := [], env := pfAnswers }) = none := by
  refine ⟨?_, ?_, ?_, rfl⟩
  · decide +kernel
  · decide +kernel
  · decide +kernel

end Qdma
