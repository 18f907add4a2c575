/-
# Dumps

`qdma_queue_dump`, `qdma_queue_dump_desc` and `qdma_queue_dump_wrb` write what a queue is and what
stands in its rings into a buffer, and `qdma_intr_ring_dump` the entries of an interrupt ring.  Part
of the text goes through `snprintf`, part through `sprintf`, and memory through
`hex_dump_to_buffer`, each behind the text that is there.

The state is what the dumps read; what they read of the rings and of the buffer is recorded.
-/
import Qdma.TextOut
import Qdma.IndirectCtxt
import Qdma.Qid2Vec
import Qdma.Geometry
import Qdma.Device
import Qdma.Netlink

namespace Qdma

open TextOut

/-! ## Texts -/

/-- `%x`. -/
def fmtHex (n : ℕ) : List Char := Nat.toDigits 16 n

/-- `%u`. -/
def fmtDec (n : ℕ) : List Char := Nat.toDigits 10 n

/-- `%d`. -/
def fmtInt (i : ℤ) : List Char := if i < 0 then '-' :: fmtDec i.natAbs else fmtDec i.toNat

/-- `w` hexadecimal digits: `%08x` of a word has eight. -/
def fmtHexW : ℕ → ℕ → List Char
  | 0, _ => []
  | w + 1, n => fmtHexW w (n / 16) ++ [Nat.digitChar (n % 16)]

/-- What `hex_dump_to_buffer` makes of words, in groups of four bytes. -/
def hexDump : List ℕ → List Char
  | [] => []
  | [w] => fmtHexW 8 w
  | w :: ws => fmtHexW 8 w ++ ' ' :: hexDump ws

/-! ## What is read -/

/-- A queue; `none` is a null pointer.  The memory of a ring is given by slot and word, for every
slot that an address can be computed for. -/
structure DumpQueue where
  self : ℕ := 0
  name : List Char
  conf : QueueConf := {}
  err : Bool := false
  online : Bool := false
  inited : Bool := false
  enabled : Bool := false
  qidxHw : ℕ := 0
  wrkthp : Option (List Char) := none
  wbthp : Option (List Char) := none
  desc : Option ℕ := none
  descBus : ℕ := 0
  descMem : ℤ → ℕ → ℕ := fun _ _ => 0
  descWbMem : ℕ → ℕ := fun _ => 0
  descWrb : Option ℕ := none
  descWrbBus : ℕ := 0
  wbEntryLen : ℕ := 8
  wbWords : wbEntryLen % 4 = 0 := by decide
  wrbMem : ℤ → ℕ → ℕ := fun _ _ => 0
  descWrbWbMem : ℕ → ℕ := fun _ => 0
  flSize : ℕ := 0
  flPg : ℤ → Option ℕ := fun _ => none
  flDmaAddr : ℤ → ℕ := fun _ => 0
  pageMem : Option ℕ → ℕ → ℕ := fun _ _ => 0

/-- An interrupt ring; `intr_rng_num_entries` is a `u16`. -/
structure DumpIntrRing where
  intrRngNumEntries : ℕ := 0
  small : intrRngNumEntries < 2 ^ 16 := by decide
  entry : ℤ → ℕ × ℕ := fun _ => (0, 0)

/-- A device; without a `qdev` it has no `qmax`.  `intrCoalList` is what is found at the pointer,
whether or not a list is allocated there. -/
structure DumpDev where
  name : List Char
  vf : Bool := false
  qmax : Option ℕ := none
  h2cDescq : ℕ → DumpQueue
  c2hDescq : ℕ → DumpQueue
  funcId : ℕ := 0
  intrCoalEn : Bool := false
  dvecStartIdx : ℕ := 0
  intrCoalAlloc : Bool := true
  intrCoalList : ℕ → DumpIntrRing := fun _ => {}

/-- What the kernel and the hardware answer: the text of a pointer, which is as wide as a pointer;
the contexts, or an error; and the length of the string that follows the buffer. -/
structure DumpEnv where
  ptr : ℕ → List Char
  length_ptr : ∀ a, (ptr a).length = 16
  beyond : ℕ := 0
  contextRead : {rv : ℤ // rv < 0} ⊕ Reg.HwDescqContext
  intrContextRead : ℕ → {rv : ℤ // rv < 0} ⊕ (Fin 4 → Reg.Word)

/-- What a dump reads: a slot or the status of a ring, a slot of the free list, a page, an entry of
`intr_coal_list`, a slot of an interrupt ring, or what follows the buffer. -/
inductive DumpRead where
  | desc (q : DumpQueue) (i : ℤ)
  | descWb (q : DumpQueue)
  | wrb (q : DumpQueue) (i : ℤ)
  | wrbWb (q : DumpQueue)
  | fl (q : DumpQueue) (i : ℤ)
  | page (pg : Option ℕ)
  | coal (allocated : Bool)
  | intr (e : DumpIntrRing) (i : ℤ)
  | beyond

/-- What a dump leaves: the buffer, what it returns, and what it has read. -/
structure DumpResult where
  out : Out := {}
  rv : ℤ
  reads : List DumpRead := []

/-! ## The state of a queue -/

/-- The words of a descriptor. -/
def descWords (q : DumpQueue) (i : ℤ) : List ℕ :=
  (List.range (getDescSize q.conf / 4)).map (q.descMem i)

/-- The words of the first `len` bytes. -/
def wordsOf (mem : ℕ → ℕ) (len : ℕ) : List ℕ := (List.range (len / 4)).map mem

/-- `descq->conf.st && descq->conf.c2h`. -/
def DumpQueue.hasFl (q : DumpQueue) : Bool := q.conf.st && q.conf.c2h

/-- The word for the state. -/
def stateWord (q : DumpQueue) : List Char :=
  if q.err then "ERR\n".toList
  else if q.online then "online\n".toList
  else if q.inited then "up\n".toList
  else if q.enabled then "cfg'ed\n".toList
  else "un-initialized\n".toList

/-- `qdma_descq_dump_state`: the buffer, and what it returns. -/
def qdmaDescqDumpState (q : DumpQueue) (buflen : ℕ) : Out × ℕ :=
  if buflen = 0 then ({}, 0)
  else
    snprintfs buflen
      [q.name ++ ' ' :: (if q.conf.c2h then "C2H " else "H2C ").toList, stateWord q] {}

/-- What `qdma_descq_dump` writes behind it, with the details; what `hex_dump_to_buffer` returns is
what `snprintf` would. -/
def descqDetails (k : DumpEnv) (q : DumpQueue) : List (List Char) :=
  let ptrOf (a : Option ℕ) := k.ptr (a.getD 0)
  ["\thw_ID ".toList ++ fmtInt (toInt q.qidxHw) ++ ", thp ".toList ++ q.wrkthp.getD ['?'] ++
      ", ".toList ++ q.wbthp.getD ['?'] ++ ", desc 0x".toList ++ ptrOf q.desc ++ "/0x".toList ++
      fmtHex q.descBus ++ ", ".toList ++ fmtDec q.conf.rngsz ++ ['\n']] ++
  (if q.hasFl then
    ["\twrb desc 0x".toList ++ ptrOf q.descWrb ++ "/0x".toList ++ fmtHex q.descWrbBus ++
      ", ".toList ++ fmtDec q.conf.rngszWrb]
  else []) ++
  (match q.desc with
  | some a =>
      ["\n\tWB: 0x".toList ++ k.ptr (a + q.conf.rngsz * getDescSize q.conf) ++ ", ".toList,
        hexDump (wordsOf q.descWbMem statusSize), ['\n']]
  | none => []) ++
  match q.descWrb with
  | some a =>
      ["\tWRB WB: 0x".toList ++ k.ptr (a + q.conf.rngszWrb * q.wbEntryLen) ++ ", ".toList,
        hexDump (wordsOf q.descWrbWbMem statusSize), ['\n']]
  | none => []

/-- `qdma_descq_dump`, with the details. -/
def qdmaDescqDump (k : DumpEnv) (q : DumpQueue) (buflen : ℕ) : Out × ℕ :=
  let (o, n) := qdmaDescqDumpState q buflen
  if n ≥ buflen then (o.restart, n)
  else if !q.enabled then (o, n)
  else snprintfs buflen (descqDetails k q) o

/-! ## Rings -/

/-- The slots that `for (; i < end && i < rngsz; i++)` comes to; `rngsz` is unsigned.  The first
number is how far `end` is. -/
def visited (rngsz : ℕ) : ℕ → ℤ → List ℤ
  | 0, _ => []
  | n + 1, i =>
      if (i % 2 ^ 32).toNat < rngsz then i :: visited rngsz n (i + 1) else []

/-- The address of slot `i`, of `size` bytes. -/
def slotAddr (base : ℕ) (i : ℤ) (size : ℕ) : ℕ := ((base + i * size) % 2 ^ 64).toNat

/-- The row of a descriptor. -/
def descRow (k : DumpEnv) (q : DumpQueue) (base : ℕ) (i : ℤ) : List Item :=
  [.print (fmtInt i ++ ": 0x".toList ++ k.ptr (slotAddr base i (getDescSize q.conf)) ++ [' ']),
    .cut (hexDump (descWords q i)),
    if q.hasFl then
      .print (" fl pg 0x".toList ++ k.ptr ((q.flPg i).getD 0) ++ ", 0x".toList ++
        fmtHex (q.flDmaAddr i) ++ ".\n".toList)
    else .put '\n']

/-- What is read for it. -/
def descRowReads (q : DumpQueue) (i : ℤ) : List DumpRead :=
  .desc q i :: if q.hasFl then [.fl q i] else []

/-- The row of the status behind a ring. -/
def statusRow (k : DumpEnv) (a : ℕ) (mem : ℕ → ℕ) : List Item :=
  [.print ("WB: 0x".toList ++ k.ptr a ++ [' ']), .cut (hexDump (wordsOf mem statusSize)), .put '\n']

/-- The row of the data of the slot at the cursor. -/
def dataRow (k : DumpEnv) (q : DumpQueue) (pg : Option ℕ) : List Item :=
  let rowsize := if q.wbEntryLen < 16 then 16 else 32
  [.print ("data 0: 0x".toList ++ k.ptr (pg.getD 0) ++ [' ']),
    .cut (hexDump (wordsOf (q.pageMem pg) (min q.wbEntryLen rowsize))), .put '\n']

/-- `qdma_descq_dump_desc`: what it writes behind `o`, and what it reads; without a ring it returns
0.  At its end `fl` is where the loop has left it. -/
def qdmaDescqDumpDesc (k : DumpEnv) (q : DumpQueue) (start stop : ℤ) (buflen : ℕ) (o : Out) :
    Option (Out × List DumpRead) :=
  match q.desc with
  | none => none
  | some base =>
      let rows := visited q.conf.rngsz (stop - start).toNat start
      let fl := start + rows.length
      let items := rows.flatMap (descRow k q base) ++
        statusRow k (base + q.conf.rngsz * getDescSize q.conf) q.descWbMem
      let reads := rows.flatMap (descRowReads q) ++ [.descWb q]
      if q.hasFl then
        some (o.run buflen (items ++ dataRow k q (q.flPg fl)),
          reads ++ [.fl q fl, .page (q.flPg fl)])
      else some (o.run buflen items, reads)

/-- The row of a completion. -/
def wrbRow (k : DumpEnv) (q : DumpQueue) (base : ℕ) (i : ℤ) : List Item :=
  [.print (fmtInt i ++ ": 0x".toList ++ k.ptr (slotAddr base i q.wbEntryLen) ++ [' ']),
    .cut (hexDump (wordsOf (q.wrbMem i) (min q.wbEntryLen 32))), .put '\n']

/-- `qdma_descq_dump_wrb`. -/
def qdmaDescqDumpWrb (k : DumpEnv) (q : DumpQueue) (start stop : ℤ) (buflen : ℕ) (o : Out) :
    Option (Out × List DumpRead) :=
  match q.descWrb with
  | none => none
  | some base =>
      let rows := visited q.conf.rngszWrb (stop - start).toNat start
      some (o.run buflen (rows.flatMap (wrbRow k q base) ++
          statusRow k (base + q.conf.rngszWrb * q.wbEntryLen) q.descWrbWbMem),
        rows.map (.wrb q) ++ [.wrbWb q])

/-! ## The interface -/

/-- `qdma_device_get_descq_by_id`, with a buffer. -/
def getDescqById (k : DumpEnv) (x : DumpDev) (idx : ℕ) (init : Bool) : Option DumpQueue × Out :=
  match x.qmax with
  | none => (none, {})
  | some qmax =>
      if idx ≥ qmax ∧ idx - qmax ≥ qmax then
        (none, ({} : Out).print (x.name ++ ", q idx too big 0x".toList ++ fmtHex (idx - qmax) ++
          " > 0x".toList ++ fmtHex qmax ++ ".\n".toList))
      else
        let q := if idx ≥ qmax then x.c2hDescq (idx - qmax) else x.h2cDescq idx
        let idx := if idx ≥ qmax then idx - qmax else idx
        if init && !q.enabled then
          (none, ({} : Out).print (x.name ++ ", idx 0x".toList ++ fmtHex idx ++ ", q 0x".toList ++
            k.ptr q.self ++ " state invalid.\n".toList))
        else (some q, {})

/-- A ring is dumped by `dump` behind the state of its queue, if it has been set up.  Where the text
goes on is found with `strlen(buf + len)`. -/
def dumpBehindState (k : DumpEnv) (q : DumpQueue) (buflen : ℕ)
    (dump : Out → Option (Out × List DumpRead)) : DumpResult :=
  let (o, n) := qdmaDescqDumpState q buflen
  if !q.inited then { out := o, rv := n }
  else
    let behind := if n < buflen then o else { o with pos := n + k.beyond }
    let looked := if n < buflen then [] else [.beyond]
    match dump behind with
    | none => { out := o, rv := n, reads := looked }
    | some (o, reads) => { out := o, rv := o.pos, reads := looked ++ reads }

/-- `qdma_queue_dump_desc`. -/
def qdmaQueueDumpDesc (k : DumpEnv) (x : DumpDev) (id start stop buflen : ℕ) : DumpResult :=
  if buflen = 0 then { rv := qdmaErrInvalidInputParam }
  else
    match getDescqById k x id true with
    | (none, o) => { out := o, rv := qdmaErrInvalidQidx }
    | (some q, _) =>
        dumpBehindState k q buflen (qdmaDescqDumpDesc k q (toInt start) (toInt stop) buflen)

/-- `qdma_queue_dump_wrb`. -/
def qdmaQueueDumpWrb (k : DumpEnv) (x : DumpDev) (id start stop buflen : ℕ) : DumpResult :=
  match getDescqById k x id true with
  | (none, o) => { out := o, rv := qdmaErrInvalidQidx }
  | (some q, _) =>
      dumpBehindState k q buflen (qdmaDescqDumpWrb k q (toInt start) (toInt stop) buflen)

/-- ` [i]:0x%08x` for the words of a context, the last one first. -/
def fmtWords {n : ℕ} (w : Fin n → Reg.Word) : List Char :=
  (List.ofFn fun i : Fin n =>
    " [".toList ++ fmtDec (n - 1 - i) ++ "]:0x".toList ++ fmtHexW 8 (w i.rev).toNat).flatten

/-- The lines for the contexts of a queue. -/
def contextLines (q : DumpQueue) (ctxt : Reg.HwDescqContext) : List (List Char) :=
  ["\tSW CTXT:   ".toList ++ fmtWords ctxt.sw ++ ['\n'],
    "\tHW CTXT:   ".toList ++ fmtWords ctxt.hw ++ ['\n'],
    "\tCR CTXT:    0x".toList ++ fmtHexW 8 (ctxt.cr 0).toNat ++ ['\n'],
    "\tQID2VEC CTXT:    0x".toList ++ fmtHexW 8 (ctxt.qid2vec 0).toNat ++ ['\n']] ++
  if q.conf.c2h && q.conf.st then
    ["\tWRB CTXT:  ".toList ++ fmtWords ctxt.wrb ++ ['\n'],
      "\tPFTCH CTXT:".toList ++ fmtWords ctxt.prefetch ++ ['\n']]
  else []

/-- The contexts of the interrupt rings, for `i` and those after it: the lines, and the error that
ends them. -/
def intrContextLines (k : DumpEnv) (x : DumpDev) (q : DumpQueue) :
    List ℕ → List (List Char) × Option {rv : ℤ // rv < 0}
  | [] => ([], none)
  | i :: is =>
      let e : VecEnv :=
        { funcId := x.funcId, descBus := 0, intrCoalEn := x.intrCoalEn,
          dvecStartIdx := x.dvecStartIdx }
      let ringIndex := getIntrRingIndex e (i + x.dvecStartIdx)
      match k.intrContextRead ringIndex with
      | .inl rv => ([q.name ++ " read intr context failed ".toList ++ fmtInt rv ++ ".\n".toList],
          some rv)
      | .inr ctxt =>
          let (lines, rv) := intrContextLines k x q is
          (("\tRING_INDEX[".toList ++ fmtInt (toInt ringIndex) ++ "] INTR AGGR CTXT:   ".toList ++
            fmtWords ctxt ++ ['\n']) :: lines, rv)

/-- `qdma_queue_dump`. -/
def qdmaQueueDump (k : DumpEnv) (x : DumpDev) (id buflen : ℕ) : DumpResult :=
  match getDescqById k x id false with
  | (none, o) => { out := o, rv := einval }
  | (some q, _) =>
      if buflen = 0 then { rv := qdmaErrInvalidInputParam }
      else
        let o := (qdmaDescqDump k q buflen).1
        match k.contextRead with
        | .inl rv =>
            { out := o.print (q.name ++ " read context failed ".toList ++ fmtInt rv ++
                ".\n".toList), rv := rv }
        | .inr ctxt =>
            let (lines, err) :=
              if x.vf then ([], none) else intrContextLines k x q (List.range qdmaDataVecPerPfMax)
            let o := o.run buflen ((contextLines q ctxt ++ lines).map .print)
            { out := o, rv := match err with | some rv => rv | none => o.pos }

/-! ## Interrupt rings -/

/-- A message, and -1. -/
def intrRefused (reads : List DumpRead) (msg : List Char) : DumpResult :=
  { out := ({} : Out).print msg, rv := -1, reads := reads }

/-- The row of an entry. -/
def intrRow (e : DumpIntrRing) (i : ℤ) : Item :=
  .print ("intr_ring_entry = ".toList ++ fmtInt i ++ ": 0x".toList ++ fmtHexW 8 (e.entry i).2 ++
    " 0x".toList ++ fmtHexW 8 (e.entry i).1 ++ ['\n'])

/-- `n` indices from `i` on. -/
def indicesFrom (i : ℤ) (n : ℕ) : List ℤ := (List.range n).map fun j : ℕ => i + (j : ℤ)

/-- `qdma_intr_ring_dump`; `startIdx` and `endIdx` are of type `int`. -/
def qdmaIntrRingDump (x : DumpDev) (vectorIdx : ℕ) (startIdx endIdx : ℤ) (buflen : ℕ) :
    DumpResult :=
  if !x.intrCoalEn then intrRefused [] "Interrupt Coalescing not enabled\n".toList
  else if vectorIdx < x.dvecStartIdx ∨ vectorIdx ≥ x.dvecStartIdx + qdmaDataVecPerPfMax then
    intrRefused [] ("Vector idx ".toList ++ fmtInt (toInt vectorIdx) ++
      " is invalid. Shall be in range: ".toList ++ fmtDec x.dvecStartIdx ++ " -  ".toList ++
      fmtDec (x.dvecStartIdx + qdmaDataVecPerPfMax - 1) ++ ".\n".toList)
  else
    let e := x.intrCoalList (vectorIdx - x.dvecStartIdx)
    if startIdx > e.intrRngNumEntries then
      intrRefused [.coal x.intrCoalAlloc] ("start_idx ".toList ++ fmtInt startIdx ++
        " is invalid. Shall be less than: ".toList ++ fmtDec e.intrRngNumEntries ++ " \n".toList)
    else
      let endIdx : ℤ := if endIdx = -1 ∨ endIdx ≥ e.intrRngNumEntries then e.intrRngNumEntries - 1
        else endIdx
      let startIdx := if startIdx = -1 then 0 else startIdx
      if startIdx > endIdx then
        intrRefused [.coal x.intrCoalAlloc] "start_idx can't be greater than end_idx \n".toList
      else
        let rows := indicesFrom startIdx (endIdx - startIdx + 1).toNat
        { out := ({} : Out).run buflen (rows.map (intrRow e)), rv := 0,
          reads := .coal x.intrCoalAlloc :: rows.map (.intr e) }

end Qdma
