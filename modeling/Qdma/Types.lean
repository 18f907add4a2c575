/-
# Descriptor queues: the driver's data

The structures of `libqdma` that the data path and the queue life cycle work on:
requests and their control blocks, the descriptor formats, the free list of an
ST C2H queue, its completion ring, and `struct qdma_descq` itself.

Counters are naturals; where the code can run through a 32-bit wrap the arithmetic
is written with `u32`.  A field that no modelled function reads is left out.  Some things
are not in the C structures and record what the device and the callers see:
`Desc.owner` (the request a descriptor was written for, in place of the page its address
points into), `Descq.regs` and `Descq.ctxValid` (the doorbell registers and the hardware
context of the queue), `Descq.finished` (the requests handed back by
`qdma_sgt_req_done`), `Descq.copied` (the bytes copied out of receive buffers) and
`Descq.warned` (whether the `WARN_ON` of `rcv_pkt` has fired).
-/
import Qdma.RingIndex
import Mathlib.Data.UInt

namespace Qdma

/-! ## Machine arithmetic and constants -/

/-- `unsigned short` truncation. -/
def u16 (n : ℕ) : ℕ := n % 2 ^ 16

/-- `unsigned int` truncation. -/
def u32 (n : ℕ) : ℕ := n % 2 ^ 32

/-- `unsigned int` subtraction. -/
def u32Sub (a b : ℕ) : ℕ := (2 ^ 32 - b % 2 ^ 32 + a) % 2 ^ 32

/-- `unsigned short` subtraction. -/
def u16Sub (a b : ℕ) : ℕ := (2 ^ 16 - b % 2 ^ 16 + a) % 2 ^ 16

/-- `u64` and `dma_addr_t` truncation. -/
def u64 (n : ℕ) : ℕ := n % 2 ^ 64

/-- `PAGE_SHIFT` of the x86 kernels the driver is built for. -/
def pageShift : ℕ := 12

/-- `PAGE_SIZE`. -/
def pageSize : ℕ := 4096

/-- `QDMA_DESC_BLEN_MAX`, the longest transfer of one memory-mapped descriptor. -/
def qdmaDescBlenMax : ℕ := 2 ^ 28 - 1

/-- An `unsigned int` returned as an `int`. -/
def i32 (n : ℕ) : ℤ := if n < 2 ^ 31 then n else (n : ℤ) - 2 ^ 32

/-- `-EIO`. -/
def eio : ℤ := -5

/-- `-ENOMEM`. -/
def enomem : ℤ := -12

/-- `-EINVAL`. -/
def einval : ℤ := -22

theorem u16_of_lt {n : ℕ} (h : n < 2 ^ 16) : u16 n = n := Nat.mod_eq_of_lt h

theorem u16Sub_of_le {a b : ℕ} (ha : a < 2 ^ 16) (h : b ≤ a) : u16Sub a b = a - b := by
  unfold u16Sub
  omega

theorem u32_of_lt {n : ℕ} (h : n < 2 ^ 32) : u32 n = n := Nat.mod_eq_of_lt h

theorem u32Sub_of_le {a b : ℕ} (ha : a < 2 ^ 32) (h : b ≤ a) : u32Sub a b = a - b := by
  unfold u32Sub
  omega

/-! ## Requests -/

/-- `struct qdma_sw_sg`: one scatter-gather entry.  A list of them stands for the
chain of `next` pointers, which every caller lays out as an array of `sgcnt` entries. -/
structure SwSg where
  pg : ℕ
  offset : ℕ
  len : ℕ
  dmaAddr : ℕ
  deriving DecidableEq

/-- `struct qdma_request`.  `fpDone` says whether a callback is set, i.e. whether the
caller does not wait.  `count` is an `unsigned int`, the number of entries an
`unsigned short`. -/
structure Request where
  write : Bool
  count : ℕ
  epAddr : ℕ
  dmaMapped : Bool
  fpDone : Bool
  sgl : List SwSg
  count_lt : count < 2 ^ 32 := by decide
  sgcnt_lt : sgl.length < 2 ^ 16 := by decide

/-- `struct qdma_sgt_req_cb`, the control block kept in `qdma_request.opaque`.  `id`
stands for its address. -/
structure SgtReqCb where
  id : ℕ
  req : Request
  descNr : ℕ := 0
  offset : ℕ := 0
  left : ℕ := 0
  sgOffset : ℕ := 0
  sgIdx : ℕ := 0
  status : ℤ := 0
  done : Bool := false
  unmapNeeded : Bool := false

/-- `req->sgcnt`. -/
def Request.sgcnt (r : Request) : ℕ := r.sgl.length

/-! ## Descriptors -/

/-- `struct qdma_mm_desc`. -/
structure MmDesc where
  srcAddr : ℕ := 0
  flagLen : ℕ := 0
  rsvd0 : ℕ := 0
  dstAddr : ℕ := 0
  rsvd1 : ℕ := 0

/-- `struct qdma_h2c_desc`. -/
structure H2cDesc where
  cdhFlags : ℕ := 0
  pldLen : ℕ := 0
  len : ℕ := 0
  flags : ℕ := 0
  srcAddr : ℕ := 0

/-- A slot of the descriptor ring.  The queue's mode and direction select the view:
`mm` for memory-mapped queues, `h2c` for ST H2C, `dstAddr` (`struct qdma_c2h_desc`)
for ST C2H. -/
structure Desc where
  mm : MmDesc := {}
  h2c : H2cDesc := {}
  dstAddr : ℕ := 0
  owner : Option ℕ := none

/-- The descriptor ring `desc` with the writeback status `desc_wb` behind it.  `alloc`
says whether the pointers are set. -/
structure DescRing where
  alloc : Bool := false
  slot : ℕ → Desc := fun _ => {}
  wbCidx : ℕ := 0

/-! ## ST C2H: free list and completion ring -/

/-- `struct qdma_sw_sg` of a receive buffer, with the bytes found at `page_address(pg)`. -/
structure FlSdesc where
  pg : Option ℕ := none
  dmaAddr : ℕ := 0
  offset : ℕ := 0
  len : ℕ := 0
  page : ℕ → UInt8 := fun _ => 0

/-- `struct qdma_sdesc_info`. -/
structure SdescInfo where
  valid : Bool := false
  sop : Bool := false
  eop : Bool := false
  cidx : ℕ := 0
  deriving DecidableEq

/-- `struct qdma_flq`.  The `next` pointers of its two arrays close them to rings of
`size` entries. -/
structure Flq where
  size : ℕ := 0
  pgOrder : ℕ := 0
  pgShift : ℕ := 0
  uddCnt : ℕ := 0
  pktCnt : ℕ := 0
  pktDlen : ℕ := 0
  allocFail : ℕ := 0
  mappingErr : ℕ := 0
  pidxPend : ℕ := 0
  sdescAlloc : Bool := false
  sdesc : ℕ → FlSdesc := fun _ => {}
  sdescInfo : ℕ → SdescInfo := fun _ => {}

/-- The completion ring `desc_wrb` with its status `desc_wrb_wb` behind it.  `mem o` is
the first 64-bit word of the entry at byte offset `o`. -/
structure WrbRing where
  alloc : Bool := false
  mem : ℕ → ℕ := fun _ => 0
  wbPidx : ℕ := 0

/-! ## Configuration -/

/-- What an upper-layer packet handler is given. -/
structure PktArgs where
  len : ℕ
  sgcnt : ℕ
  slot : ℕ
  udd : Option ℕ

/-- `struct qdma_queue_conf`. -/
structure QueueConf where
  qidx : ℕ := 0
  st : Bool := false
  c2h : Bool := false
  irqEn : Bool := false
  descRngSzIdx : ℕ := 0
  wbkEn : Bool := false
  wbkAccEn : Bool := false
  wbkPendChk : Bool := false
  bypass : Bool := false
  pfetchEn : Bool := false
  fetchCredit : Bool := false
  c2hBufSzIdx : ℕ := 0
  cmplRngSzIdx : ℕ := 0
  cmplDescSz : ℕ := 0
  cmplStatEn : Bool := false
  cmplUddEn : Bool := false
  cmplTimerIdx : ℕ := 0
  cmplCntThIdx : ℕ := 0
  cmplTrigMode : ℕ := 0
  fpDescqC2hPacket : Option (PktArgs → ℤ) := none
  rngsz : ℕ := 0
  rngszWrb : ℕ := 0
  c2hBufsz : ℕ := 0

/-- `struct global_csr_conf`, the tables a queue's index fields select from. -/
structure GlobalCsrConf where
  ringSz : ℕ → ℕ
  c2hBufSz : ℕ → ℕ

/-! ## The queue -/

/-- The queue's doorbells: the PIDX last written (`descq_h2c_pidx_update` or
`descq_c2h_pidx_update`, by direction), the CIDX last written by
`descq_wrb_cidx_update`, and the descriptors the PIDX doorbell has handed to the
device so far, oldest first. -/
structure Regs where
  pidx : ℕ := 0
  wrbCidx : ℕ := 0
  handed : List Desc := []

/-- A request handed back by `qdma_sgt_req_done`, with the owners of the descriptors
lying between `cidx` and `pidx` at that moment. -/
structure Done where
  cb : SgtReqCb
  held : List (Option ℕ)

/-- One `memcpy` of `descq_st_c2h_read`: where it goes and the bytes it moves. -/
structure Copy where
  pg : ℕ
  offset : ℕ
  bytes : List UInt8
  deriving DecidableEq

/-- `struct qdma_descq`. -/
structure Descq where
  conf : QueueConf := {}
  err : Bool := false
  enabled : Bool := false
  inited : Bool := false
  online : Bool := false
  color : Bool := false
  intrId : ℕ := 0
  wrkthp : Option ℕ := none
  workList : List SgtReqCb := []
  wbthp : Option ℕ := none
  pendList : List SgtReqCb := []
  avail : ℕ := 0
  pidx : ℕ := 0
  cidx : ℕ := 0
  credit : ℕ := 0
  desc : DescRing := {}
  wbEntryLen : ℕ := 0
  flq : Flq := {}
  pidxWrb : ℕ := 0
  cidxWrb : ℕ := 0
  cidxWrbPend : ℕ := 0
  descWrbCur : ℕ := 0
  descWrb : WrbRing := {}
  ctxValid : Bool := false
  regs : Regs := {}
  finished : List Done := []
  copied : List Copy := []
  warned : Bool := false

/-- The owners of the descriptors the device still holds: those between `cidx` and
`pidx`. -/
def Descq.held (d : Descq) : List (Option ℕ) :=
  RingIndex.stretch d.conf.rngsz (fun i => (d.desc.slot i).owner) d.cidx d.pidx

/-! ## Doorbells -/

/-- A PIDX doorbell: the descriptors up to `pidx` become the device's.  This is the body
of `descq_h2c_pidx_update` and of `descq_c2h_pidx_update`, which write the register of
their direction. -/
def Descq.pidxUpdate (d : Descq) (pidx : ℕ) : Descq :=
  { d with regs := { d.regs with
      pidx := pidx
      handed := d.regs.handed ++
        RingIndex.stretch d.conf.rngsz d.desc.slot d.regs.pidx pidx } }

/-- `descq_h2c_pidx_update`. -/
def descqH2cPidxUpdate (d : Descq) (pidx : ℕ) : Descq := d.pidxUpdate pidx

/-- `descq_c2h_pidx_update`. -/
def descqC2hPidxUpdate (d : Descq) (pidx : ℕ) : Descq := d.pidxUpdate pidx

/-- `descq_wrb_cidx_update`. -/
def descqWrbCidxUpdate (d : Descq) (cidx : ℕ) : Descq :=
  { d with regs := { d.regs with wrbCidx := cidx } }

/-! ## Ring index helpers of `qdma_descq.h` -/

/-- `ring_idx_delta`. -/
def ringIdxDelta (new old rngsz : ℕ) : ℕ :=
  if new ≥ old then u32Sub new old else u32 (new + u32Sub rngsz old)

/-- `ring_idx_incr`. -/
def ringIdxIncr (idx cnt rngsz : ℕ) : ℕ :=
  let idx := u32 (idx + cnt)
  if idx ≥ rngsz then u32Sub idx rngsz else idx

/-- `ring_idx_decr`. -/
def ringIdxDecr (idx cnt rngsz : ℕ) : ℕ :=
  if idx ≥ cnt then u32Sub idx cnt else u32Sub rngsz (u32Sub cnt idx)

open RingIndex

/-- On a ring of at most `2³¹` slots `ring_idx_delta` is the ring distance. -/
theorem ringIdxDelta_eq_dist {n a b : ℕ} (hn : n ≤ 2 ^ 31) (ha : a < n) (hb : b < n) :
    ringIdxDelta b a n = dist n a b := by
  rw [dist_eq ha hb]
  unfold ringIdxDelta
  split_ifs with h1
  · exact u32Sub_of_le (by omega) h1
  · rw [u32Sub_of_le (by omega) (by omega), u32_of_lt (by omega)]
    omega

/-- `ring_idx_delta` of counts less than a lap apart. -/
theorem ringIdxDelta_mod {n a b : ℕ} (hn : n ≤ 2 ^ 31) (hab : a ≤ b) (h : b < a + n) :
    ringIdxDelta (b % n) (a % n) n = b - a := by
  have hpos : 0 < n := by omega
  rw [ringIdxDelta_eq_dist hn (Nat.mod_lt a hpos) (Nat.mod_lt b hpos), dist_mod hab h]

/-- `ring_idx_incr` advances by up to one lap. -/
theorem ringIdxIncr_eq_adv {n a k : ℕ} (hn : n ≤ 2 ^ 31) (ha : a < n) (hk : k ≤ n) :
    ringIdxIncr a k n = adv n a k := by
  rw [adv_eq ha hk]
  unfold ringIdxIncr
  simp only [u32_of_lt (show a + k < 2 ^ 32 by omega)]
  split_ifs with h1 h2
  · omega
  · exact u32Sub_of_le (by omega) h1
  · rfl
  · omega

/-- `ring_idx_decr` by one is the slot just before. -/
theorem ringIdxDecr_one_eq_adv {n a : ℕ} (hn : n ≤ 2 ^ 31) (ha : a < n) :
    ringIdxDecr a 1 n = adv n a (n - 1) := by
  rw [adv_eq ha (by omega)]
  unfold ringIdxDecr
  split_ifs with h1 h2 h2
  · omega
  · rw [u32Sub_of_le (by omega) h1]
    omega
  · have h1a : u32Sub 1 a = 1 - a := u32Sub_of_le (by omega) (by omega)
    rw [h1a, u32Sub_of_le (by omega) (by omega)]
    omega
  · omega

end Qdma
