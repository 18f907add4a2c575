/-
# Character devices

The module above the library keeps one entry for each direction of a queue index, with the handle
of the queue and its character device.  The two directions of an index share one `qdma_cdev`, and
`dir_init` has a bit for each of them that is added.  `xpdev_queue_delete` clears bit after bit;
`xpdev_device_cleanup` shifts the bits instead.

`cdev_sharing` says that every `qdma_cdev` is shared by the directions of one index, knows which
ones they are, and is destroyed once, with the last of them.
-/
import Qdma.QueueIds

namespace Qdma

open Exec

/-! ## Data -/

/-- `-ENOSPC`. -/
def enospc : ℤ := -28

/-- `QDMA_MINOR_MAX`. -/
def qdmaMinorMax : ℕ := 2048

/-- `struct qdma_cdev`. -/
structure QdmaCdev where
  minor : ℕ := 0
  cdevno : ℕ × ℕ := (0, 0)
  sysDevice : Bool := false
  c2hQhndl : ℕ := 0
  h2cQhndl : ℕ := 0
  dirInit : BitVec 16 := 0
  name : String := ""

/-- The handle for a direction. -/
def QdmaCdev.qhndl (d : QdmaCdev) (c2h : Bool) : ℕ := if c2h then d.c2hQhndl else d.h2cQhndl

/-- It is set. -/
def QdmaCdev.setQhndl (d : QdmaCdev) (c2h : Bool) (qhndl : ℕ) : QdmaCdev :=
  if c2h then { d with c2hQhndl := qhndl } else { d with h2cQhndl := qhndl }

/-- The bit of a direction. -/
def dirBit (c2h : Bool) : BitVec 16 := 1#16 <<< c2h.toNat

/-- A direction comes with its handle. -/
def QdmaCdev.addDir (d : QdmaCdev) (c2h : Bool) (qhndl : ℕ) : QdmaCdev :=
  { d.setQhndl c2h qhndl with dirInit := d.dirInit ||| dirBit c2h }

/-- A direction goes. -/
def QdmaCdev.clearDir (d : QdmaCdev) (c2h : Bool) : QdmaCdev :=
  { d with dirInit := d.dirInit &&& ~~~ dirBit c2h }

/-- `struct qdma_cdev_cb`. -/
structure QdmaCdevCb where
  cdevMajor : ℕ := 0
  cdevMinorCnt : ℕ := qdmaMinorMax

/-- `struct xlnx_qdata`; `xcdev` is the number of the `qdma_cdev`, in the order of creation. -/
structure XlnxQdata where
  qhndl : ℕ := 0
  xcdev : Option ℕ := none

/-- `struct xlnx_pci_dev`, and the device it opened.  Of the `next` objects created so far,
`destroyed` counts how often each has been freed; `badAccess` is set when one is read or written
afterwards, or a null pointer followed. -/
structure XpDev where
  lib : IdDev
  cdevCb : QdmaCdevCb := {}
  qmax : ℕ
  qdata : ℕ → XlnxQdata := fun _ => {}
  cdevs : ℕ → QdmaCdev := fun _ => {}
  next : ℕ := 0
  destroyed : ℕ → ℕ := fun _ => 0
  badAccess : Bool := false

/-- What `qdma_cdev_create` is answered: by `kzalloc`, by `cdev_add`, and by `device_create` if
there is a class (an error pointer holds one of the numbers from -1 to -4095).  `size` is the size
of a `qdma_cdev`, and `stale` what the pointer it is to set holds before. -/
structure CreateEnv where
  allocOk : Bool := true
  addRv : ℤ := 0
  hasClass : Bool := true
  sysErr : Option (Fin 4095) := none
  size : ℕ := 0
  stale : Option ℕ := none

/-! ## Functions -/

/-- An object is accessed. -/
def XpDev.touch (x : XpDev) (k : ℕ) : XpDev :=
  { x with badAccess := x.badAccess || decide (x.destroyed k ≠ 0) }

def XpDev.setQdata (x : XpDev) (n : ℕ) (qd : XlnxQdata) : XpDev :=
  { x with qdata := Function.update x.qdata n qd }

def XpDev.setCdev (x : XpDev) (k : ℕ) (d : QdmaCdev) : XpDev :=
  { x with cdevs := Function.update x.cdevs k d }

/-- A new object: what `kzalloc` hands out is not freed. -/
def XpDev.newCdev (x : XpDev) (d : QdmaCdev) : XpDev :=
  ({ x with
    next := x.next + 1
    destroyed := Function.update x.destroyed x.next 0 } : XpDev).setCdev x.next d

/-- `qdma_cdev_destroy`. -/
def XpDev.cdevDestroy (x : XpDev) (k : ℕ) : XpDev :=
  { x with destroyed := Function.update x.destroyed k (x.destroyed k + 1) }

/-- `qdma_cdev_create`, with the error and its message. -/
def QdmaCdevCb.cdevCreate (xcb : QdmaCdevCb) (name : String) (c2h : Bool) (minor qhndl : ℕ)
    (env : CreateEnv) : Except (ℤ × String) QdmaCdev :=
  if !env.allocOk then .error (enomem, name ++ " cdev OOM " ++ toString env.size ++ ".\n")
  else
    let xcdev : QdmaCdev := { dirInit := dirBit c2h, name := name, minor := minor }
    let xcdev := xcdev.setQhndl c2h qhndl
    if xcdev.minor ≥ xcb.cdevMinorCnt then .error (enospc, name ++ " cdev no cdev left.\n")
    else
      let xcdev := { xcdev with cdevno := (xcb.cdevMajor, xcdev.minor) }
      if env.addRv < 0 then
        .error (env.addRv, name ++ " cdev add failed " ++ toString env.addRv ++ ".\n")
      else if env.hasClass then
        match env.sysErr with
        | some e =>
            let rv : ℤ := -(e.val + 1)
            .error (rv, name ++ " device_create failed " ++ toString rv ++ ".\n")
        | none => .ok { xcdev with sysDevice := true }
      else .ok xcdev

/-- `xpdev_queue_get`: the place of an entry, or the message. -/
def XpDev.queueGet (x : XpDev) (qidx : ℕ) (c2h checkQhndl : Bool) : Except String ℕ :=
  if qidx ≥ x.qmax then
    .error ("QID " ++ toString qidx ++ " too big, " ++ toString x.qmax ++ ".\n")
  else
    let n := if c2h then qidx + x.qmax else qidx
    if checkQhndl && ((x.qdata n).qhndl == 0 && (x.qdata n).xcdev.isNone) then
      .error ("QID " ++ toString qidx ++ " NOT configured.\n")
    else .ok n

/-- What `qdma_queue_remove` returns. -/
def QdmaDev.queueRemoveRv (x : QdmaDev) (id : ℕ) : ℤ :=
  if x.gone then qdmaErrInvalidQdmaDevice else if x.Has id then 0 else qdmaErrInvalidQidx

/-- `xpdev_queue_delete`. -/
def XpDev.queueDelete (x : XpDev) (qidx : ℕ) (c2h ctxCleared : Bool) : XpDev × ℤ :=
  match x.queueGet qidx c2h true with
  | .error _ => (x, einval)
  | .ok n =>
      let qd := x.qdata n
      let x :=
        match qd.xcdev with
        | none => { x with badAccess := true }
        | some k =>
            let x := x.touch k
            let x := x.setCdev k ((x.cdevs k).clearDir c2h)
            if (x.cdevs k).dirInit = 0 then x.cdevDestroy k else x
      if qd.qhndl ≠ qdmaQueueIdxInvalid then
        (({ x with lib := x.lib.step (.remove qd.qhndl ctxCleared) }).setQdata n {},
          x.lib.dev.queueRemoveRv qd.qhndl)
      else (x.setQdata n {}, 0)

/-- The arguments of `xpdev_queue_add`, and the answers to what it calls. -/
structure XpAdd where
  qconf : QueueConf
  buflen : Option ℕ := none
  prep : PrepEnv := {}
  create : CreateEnv := {}

/-- Its call of `qdma_queue_add`. -/
def XpAdd.call (c : XpAdd) : AddCall := { qconf := some c.qconf, buflen := c.buflen }

/-- What `qdma_queue_add` leaves in `qconf->qidx` and in `*qhndl`. -/
def IdDev.addOut (s : IdDev) (c : XpAdd) : ℕ × ℕ :=
  match s.dev.addPlace c.call with
  | none => (c.qconf.qidx, qdmaQueueIdxInvalid)
  | some (qconf, i) =>
      let x := (s.queueAdd c.call c.prep).1.dev
      (i, if (s.prepQResource c.prep).2 < 0 then qdmaQueueIdxInvalid
        else x.handle qconf.c2h (x.queueId qconf.c2h i))

/-- The end of `xpdev_queue_add`: the entry gets a character device of its own. -/
def XpDev.addCdev (x : XpDev) (c : XpAdd) (n qidx qhndl : ℕ) : XpDev × ℤ :=
  match x.cdevCb.cdevCreate (x.lib.dev.qName c.qconf.st qidx) c.qconf.c2h qidx qhndl c.create with
  | .error (rv, _) => (x.setQdata n { qhndl := qhndl, xcdev := c.create.stale }, rv)
  | .ok xcdev =>
      ((x.newCdev xcdev).setQdata n { qhndl := qhndl, xcdev := some x.next }, 0)

/-- `xpdev_queue_add`. -/
def XpDev.queueAdd (x : XpDev) (c : XpAdd) : XpDev × ℤ :=
  let (qidx, qhndl) := x.lib.addOut c
  let (lib, rv) := x.lib.queueAdd c.call c.prep
  let x := { x with lib := lib }
  if rv < 0 then (x, rv)
  else
    match x.queueGet qidx c.qconf.c2h false with
    | .error _ => (x, rv)
    | .ok n =>
        match x.queueGet qidx (!c.qconf.c2h) false with
        | .error _ => x.addCdev c n qidx qhndl
        | .ok tmp =>
            -- only one for a queue pair
            match (x.qdata tmp).xcdev with
            | none => x.addCdev c n qidx qhndl
            | some k =>
                let x := (x.touch k).setQdata n { qhndl := qhndl, xcdev := some k }
                (x.setCdev k ((x.cdevs k).addDir c.qconf.c2h qhndl), 0)

/-- The loop body of `xpdev_device_cleanup`. -/
def XpDev.cleanupEntry (x : XpDev) (n : ℕ) : XpDev :=
  match (x.qdata n).xcdev with
  | none => x.setQdata n {}
  | some k =>
      let x := x.touch k
      -- one direction is left
      if (x.cdevs k).dirInit = 1 ∨ (x.cdevs k).dirInit = 2 then (x.cdevDestroy k).setQdata n {}
      else (x.setCdev k { x.cdevs k with dirInit := (x.cdevs k).dirInit >>> 1 }).setQdata n {}

/-- `xpdev_device_cleanup`. -/
def XpDev.deviceCleanup (x : XpDev) : XpDev :=
  (List.range (x.qmax * 2)).foldl XpDev.cleanupEntry x

/-! ## Runs -/

/-- A call. -/
inductive CdevOp where
  | add (c : XpAdd)
  | delete (qidx : ℕ) (c2h ctxCleared : Bool)
  | cleanup

/-- The module, and the handles of the directions that are added. -/
structure CdevRun where
  dev : XpDev
  added : QRef → Option ℕ := fun _ => none

/-- `probe_one`: the entries are zeroed. -/
def XpDev.probeOne (lib : IdDev) : XpDev := { lib := lib, qmax := lib.dev.qmax }

/-- What a call returns. -/
def CdevRun.rv (s : CdevRun) : CdevOp → ℤ
  | .add c => (s.dev.queueAdd c).2
  | .delete qidx c2h ctxCleared => (s.dev.queueDelete qidx c2h ctxCleared).2
  | .cleanup => 0

/-- The state after it. -/
def CdevRun.step (s : CdevRun) : CdevOp → CdevRun
  | .add c =>
      { dev := (s.dev.queueAdd c).1
        added := Function.update s.added (c.qconf.c2h, (s.dev.lib.addOut c).1)
          (some (s.dev.lib.addOut c).2) }
  | .delete qidx c2h ctxCleared =>
      { dev := (s.dev.queueDelete qidx c2h ctxCleared).1
        added := Function.update s.added (c2h, qidx) none }
  | .cleanup => { dev := s.dev.deviceCleanup }

/-- The call succeeds. -/
def CdevOk (s : CdevRun) (op : CdevOp) : Prop := 0 ≤ s.rv op

instance (s : CdevRun) (op : CdevOp) : Decidable (CdevOk s op) :=
  inferInstanceAs (Decidable (0 ≤ s.rv op))

/-- The place of the entry of a direction. -/
def XpDev.place (x : XpDev) (q : QRef) : ℕ := if q.1 then q.2 + x.qmax else q.2

/-- **One character device for each index in use.** -/
structure CdevLaw (s : CdevRun) : Prop where
  /-- The entries of the directions that are not added are empty, the others have their handle. -/
  empty : ∀ q : QRef, q.2 < s.dev.qmax → s.added q = none → s.dev.qdata (s.dev.place q) = {}
  entry : ∀ q h, s.added q = some h → q.2 < s.dev.qmax ∧
    ∃ k < s.dev.next, s.dev.qdata (s.dev.place q) = { qhndl := h, xcdev := some k }
  /-- Two entries have the same character device just if they are of one index. -/
  shared : ∀ q q' h h' , s.added q = some h → s.added q' = some h' →
    ((s.dev.qdata (s.dev.place q)).xcdev = (s.dev.qdata (s.dev.place q')).xcdev ↔ q.2 = q'.2)
  /-- It knows its directions and their handles. -/
  bits : ∀ q k, s.added q ≠ none → (s.dev.qdata (s.dev.place q)).xcdev = some k →
    ∀ c2h, ((s.dev.cdevs k).dirInit &&& dirBit c2h ≠ 0 ↔ s.added (c2h, q.2) ≠ none) ∧
      ∀ h, s.added (c2h, q.2) = some h → (s.dev.cdevs k).qhndl c2h = h
  /-- It is destroyed once, and not before the last of them is deleted. -/
  once : ∀ k < s.dev.next, (s.dev.destroyed k = 0 ∧
      ∃ q, s.added q ≠ none ∧ (s.dev.qdata (s.dev.place q)).xcdev = some k) ∨
    (s.dev.destroyed k = 1 ∧
      ∀ q, s.added q ≠ none → (s.dev.qdata (s.dev.place q)).xcdev ≠ some k)
  noAccess : s.dev.badAccess = false

/-! ## The library -/

/-- A handle that is given out names a queue in use. -/
structure AddedInv (lib : IdDev) (added : QRef → Option ℕ) : Prop where
  gone : lib.dev.gone = false
  named : ∀ q h, added q = some h →
    q.2 < lib.dev.qmax ∧ h = lib.dev.refId q ∧ (lib.dev.descq (lib.dev.refId q)).enabled = true

/-- A call of `qdma_queue_add` that succeeds has found a place. -/
theorem queueAdd_rv {x : QdmaDev} {c : AddCall} (hrv : 0 ≤ (x.queueAdd c).2) :
    ∃ qconf i, x.addPlace c = some (qconf, i) ∧ c.qconf = some qconf ∧ 0 ≤ c.prep ∧
      (x.descq (x.queueId qconf.c2h i)).enabled = false := by
  rcases queueAdd_cases x c with ⟨qconf, hcounts, heq⟩ | ⟨-, -, hneg⟩
  swap
  · exact absurd hneg (Int.not_lt.mpr hrv)
  rw [heq] at hrv
  unfold QdmaDev.queueClaim at hrv
  rw [findQueue_count] at hrv
  cases hf : x.findQueue qconf with
  | error e =>
      rw [hf] at hrv
      exact absurd (findQueue_error hf) (Int.not_lt.mpr hrv)
  | ok i =>
      rw [hf] at hrv
      simp only at hrv
      have hprep : 0 ≤ c.prep := by
        by_contra hneg
        rw [if_pos (Int.not_le.mp hneg)] at hrv
        exact hneg hrv
      exact ⟨qconf, i, addPlace_of_ok hcounts hf, hcounts.1, hprep,
        (findQueue_ok hf hcounts.2.2.2.2.1).2.2⟩

/-- With a place, what the call gives out. -/
theorem addOut_some {s : IdDev} {c : XpAdd} {qconf : QueueConf} {i : ℕ}
    (hp : s.dev.addPlace c.call = some (qconf, i)) :
    s.addOut c = (i, if (s.prepQResource c.prep).2 < 0 then qdmaQueueIdxInvalid
      else (s.queueAdd c.call c.prep).1.dev.handle qconf.c2h
        ((s.queueAdd c.call c.prep).1.dev.queueId qconf.c2h i)) := by
  unfold IdDev.addOut
  rw [hp]

/-- **A `qdma_queue_add` that succeeds** has found a queue that is not in use, and the resources. -/
theorem idQueueAdd_found {lib : IdDev} {c : XpAdd} (hrv : 0 ≤ (lib.queueAdd c.call c.prep).2) :
    ∃ i b, let x : QdmaDev := { lib.dev with intrCoalEn := b }
      let call : AddCall := { c.call with prep := (lib.prepQResource c.prep).2 }
      lib.dev.addPlace c.call = some (c.qconf, i) ∧ x.addPlace call = some (c.qconf, i) ∧
        0 ≤ call.prep ∧ (lib.queueAdd c.call c.prep).1.dev = (x.queueAdd call).1 ∧
          (lib.dev.descq (lib.dev.refId (c.qconf.c2h, i))).enabled = false := by
  cases hp : lib.dev.addPlace c.call with
  | none =>
      unfold IdDev.queueAdd at hrv
      rw [hp] at hrv
      obtain ⟨qconf, i, hplace, -⟩ := queueAdd_rv hrv
      exact absurd (hplace.symm.trans hp) (Option.some_ne_none _)
  | some p =>
      obtain ⟨qconf, i⟩ := p
      obtain ⟨b, hplace, hdev, hval⟩ := idQueueAdd_place c.prep hp
      rw [hval] at hrv
      obtain ⟨qconf', i', hplace', hconf, hpos, hoff⟩ := queueAdd_rv hrv
      obtain ⟨rfl, rfl⟩ := Prod.mk.inj (Option.some.inj (hplace.symm.trans hplace'))
      obtain rfl : c.qconf = qconf := Option.some.inj hconf
      exact ⟨i, b, rfl, hplace, hpos, hdev, hoff⟩

/-- **A successful `qdma_queue_add`** returns the number of a queue that was not in use. -/
theorem AddedInv.add {lib : IdDev} {added : QRef → Option ℕ} (h : AddedInv lib added) {c : XpAdd}
    (hrv : 0 ≤ (lib.queueAdd c.call c.prep).2) :
    (lib.addOut c).1 < lib.dev.qmax ∧ added (c.qconf.c2h, (lib.addOut c).1) = none ∧
      (lib.queueAdd c.call c.prep).1.dev.qmax = lib.dev.qmax ∧
      AddedInv (lib.queueAdd c.call c.prep).1
        (Function.update added (c.qconf.c2h, (lib.addOut c).1) (some (lib.addOut c).2)) := by
  obtain ⟨i, b, hp, hplace, hpos, hdev, hoff⟩ := idQueueAdd_found hrv
  obtain ⟨hi, -, -, hqmax, hgone, hself, -, hother⟩ := queueAdd_place hplace hpos
  rw [addOut_some hp, if_neg (Int.not_lt.mpr hpos), hdev, queueAdd_handle hplace hpos]
  refine ⟨hi, ?_, hqmax, ?_, fun q n hn => ?_⟩
  · cases hadd : added (c.qconf.c2h, i) with
    | none => rfl
    | some n =>
        have hon := (h.named _ n hadd).2.2
        rw [hoff] at hon
        exact absurd hon (by decide)
  · rw [hdev]
    exact hgone.trans h.gone
  · rw [hdev, refId_of_qmax hqmax, hqmax]
    by_cases heq : q = (c.qconf.c2h, i)
    · rw [heq, Function.update_self] at hn
      rw [heq]
      exact ⟨hi, (Option.some.inj hn).symm, hself⟩
    · rw [Function.update_of_ne heq] at hn
      obtain ⟨hlt, hnum, hon⟩ := h.named q n hn
      exact ⟨hlt, hnum, (hother _ (fun hid => heq (refId_inj hlt hi hid))).trans hon⟩

/-- **A queue is removed** by its handle. -/
theorem AddedInv.remove {lib : IdDev} {added : QRef → Option ℕ} (h : AddedInv lib added) {q : QRef}
    {n : ℕ} (hq : added q = some n) (ctxCleared : Bool) :
    lib.dev.queueRemoveRv n = 0 ∧ (lib.step (.remove n ctxCleared)).dev.qmax = lib.dev.qmax ∧
      AddedInv (lib.step (.remove n ctxCleared)) (Function.update added q none) := by
  obtain ⟨hlt, rfl, hen⟩ := h.named q n hq
  have hid : lib.dev.refId q < 2 * lib.dev.qmax := by
    unfold QdmaDev.refId QdmaDev.queueId
    split_ifs <;> omega
  have hhas : lib.dev.Has (lib.dev.refId q) := ⟨h.gone, hid, hen⟩
  obtain ⟨-, hqmax, hgone, -, hother⟩ := queueRemove_enabled hhas ctxCleared
  refine ⟨?_, hqmax, hgone.trans h.gone, fun q' n' hq' => ?_⟩
  · unfold QdmaDev.queueRemoveRv
    rw [if_neg (by rw [h.gone]; decide), if_pos hhas]
  · by_cases heq : q' = q
    · rw [heq, Function.update_self] at hq'
      exact absurd hq' (by simp)
    rw [Function.update_of_ne heq] at hq'
    obtain ⟨hlt', hn', hen'⟩ := h.named q' n' hq'
    show q'.2 < (lib.dev.queueRemove _ ctxCleared).qmax ∧
      n' = (lib.dev.queueRemove _ ctxCleared).refId q' ∧
        ((lib.dev.queueRemove _ ctxCleared).descq
          ((lib.dev.queueRemove _ ctxCleared).refId q')).enabled = true
    rw [refId_of_qmax hqmax, hqmax, hother _ (fun hid => heq (refId_inj hlt' hlt hid))]
    exact ⟨hlt', hn', hen'⟩

theorem AddedInv.forget {lib : IdDev} {added : QRef → Option ℕ} (h : AddedInv lib added)
    (q : QRef) : AddedInv lib (Function.update added q none) := by
  refine ⟨h.gone, fun q' n hq' => ?_⟩
  by_cases heq : q' = q
  · rw [heq, Function.update_self] at hq'
    exact absurd hq' (by simp)
  · rw [Function.update_of_ne heq] at hq'
    exact h.named q' n hq'

/-! ## Cells -/

/-- The entry of a direction, if `cell` has the character device of each index. -/
def entryOf (added : QRef → Option ℕ) (cell : ℕ → Option ℕ) (q : QRef) : XlnxQdata :=
  match added q with
  | none => {}
  | some h => { qhndl := h, xcdev := cell q.2 }

/-- **The invariant.**  `P` relates `dir_init` to the directions added, H2C first. -/
structure Shares (P : BitVec 16 → Bool → Bool → Prop) (x : XpDev) (added : QRef → Option ℕ)
    (cell : ℕ → Option ℕ) : Prop where
  live : ∀ i k, cell i = some k → k < x.next ∧ x.destroyed k = 0
  bits : ∀ i k, cell i = some k →
    P (x.cdevs k).dirInit (added (false, i)).isSome (added (true, i)).isSome
  used : ∀ i k, cell i = some k → ∃ c2h, added (c2h, i) ≠ none
  own : ∀ i j k, cell i = some k → cell j = some k → i = j
  entry : ∀ q : QRef, q.2 < x.qmax → x.qdata (x.place q) = entryOf added cell q
  held : ∀ q h, added q = some h →
    q.2 < x.qmax ∧ ∃ k, cell q.2 = some k ∧ (x.cdevs k).qhndl q.1 = h
  dead : ∀ k < x.next, (∀ i, cell i ≠ some k) → x.destroyed k = 1
  fresh : ∀ k, x.next ≤ k → x.destroyed k = 0
  noAccess : x.badAccess = false

section Cells

variable {P : BitVec 16 → Bool → Bool → Prop} {x x' : XpDev} {added : QRef → Option ℕ}
  {cell : ℕ → Option ℕ} {q : QRef} {k : ℕ}

theorem place_inj {q q' : QRef} (hq : q.2 < x.qmax) (hq' : q'.2 < x.qmax)
    (h : x.place q = x.place q') : q = q' := by
  obtain ⟨c2h, i⟩ := q
  obtain ⟨c2h', i'⟩ := q'
  unfold XpDev.place at h
  cases c2h <;> cases c2h' <;> simp at h hq hq' ⊢ <;> omega

theorem place_of_qmax (h : x'.qmax = x.qmax) (q : QRef) : x'.place q = x.place q := by
  unfold XpDev.place
  rw [h]

theorem entryOf_of_none (h : added q = none) : entryOf added cell q = {} := by
  unfold entryOf
  rw [h]

theorem entryOf_of_some {n : ℕ} (h : added q = some n) :
    entryOf added cell q = { qhndl := n, xcdev := cell q.2 } := by
  unfold entryOf
  rw [h]

theorem dirs_cases (q q' : QRef) (h : q'.2 = q.2) : q' = q ∨ q' = (!q.1, q.2) := by
  obtain ⟨c2h, i⟩ := q
  obtain ⟨c2h', i'⟩ := q'
  obtain rfl : i' = i := h
  cases c2h <;> cases c2h' <;> simp

/-- Setting a direction leaves the other indices alone. -/
theorem update_otherIndex (v : Option ℕ) (c2h : Bool) {i : ℕ} (hi : i ≠ q.2) :
    Function.update added q v (c2h, i) = added (c2h, i) :=
  Function.update_of_ne (fun heq => hi (congrArg Prod.snd heq)) _ _

/-- The other indices have other character devices. -/
theorem Shares.otherCell (h : Shares P x added cell) (hcell : cell q.2 = some k) {i j : ℕ}
    (hi : i ≠ q.2) (hij : cell i = some j) : j ≠ k := by
  rintro rfl
  exact hi (h.own _ _ j hij hcell)

/-- **The last direction goes**, and the character device with it. -/
theorem Shares.last (h : Shares P x added cell) (hlt : q.2 < x.qmax) (hcell : cell q.2 = some k)
    (hother : added (!q.1, q.2) = none) (hqmax : x'.qmax = x.qmax) (hnext : x'.next = x.next)
    (hcdevs : ∀ j, j ≠ k → x'.cdevs j = x.cdevs j)
    (hdes : x'.destroyed = Function.update x.destroyed k 1)
    (hqdata : x'.qdata = Function.update x.qdata (x.place q) {}) (hbad : x'.badAccess = false) :
    Shares P x' (Function.update added q none) (Function.update cell q.2 none) := by
  have hne : ∀ {i j}, Function.update cell q.2 none i = some j → i ≠ q.2 ∧ cell i = some j := by
    intro i j hij
    by_cases hi : i = q.2
    · rw [hi, Function.update_self] at hij
      exact absurd hij (by simp)
    · rw [Function.update_of_ne hi] at hij
      exact ⟨hi, hij⟩
  have hnone : ∀ q' : QRef, q'.2 = q.2 → Function.update added q none q' = none := by
    intro q' hq'
    by_cases heq : q' = q
    · rw [heq, Function.update_self]
    · rw [Function.update_of_ne heq]
      rcases dirs_cases q q' hq' with rfl | rfl
      · exact absurd rfl heq
      · exact hother
  -- what is left of each field is about indices other than the one that goes
  constructor
  · intro i j hij
    obtain ⟨hi, hij⟩ := hne hij
    rw [hnext, hdes, Function.update_of_ne (h.otherCell hcell hi hij)]
    exact h.live i j hij
  · intro i j hij
    obtain ⟨hi, hij⟩ := hne hij
    rw [hcdevs j (h.otherCell hcell hi hij), update_otherIndex _ false hi,
      update_otherIndex _ true hi]
    exact h.bits i j hij
  · intro i j hij
    obtain ⟨hi, hij⟩ := hne hij
    obtain ⟨c2h, hc⟩ := h.used i j hij
    exact ⟨c2h, by rwa [update_otherIndex _ c2h hi]⟩
  · intro i i' j hij hij'
    exact h.own i i' j (hne hij).2 (hne hij').2
  · intro q' hq'
    rw [hqmax] at hq'
    rw [place_of_qmax hqmax, hqdata]
    by_cases heq : q'.2 = q.2
    · rw [entryOf_of_none (hnone q' heq)]
      rcases dirs_cases q q' heq with rfl | rfl
      · rw [Function.update_self]
      · rw [Function.update_of_ne, h.entry _ hq', entryOf_of_none hother]
        exact fun hp => absurd (congrArg Prod.fst (place_inj hq' hlt hp)) (by simp)
    · rw [Function.update_of_ne (fun hp => heq (congrArg Prod.snd (place_inj hq' hlt hp))),
        h.entry _ hq']
      unfold entryOf
      rw [update_otherIndex _ q'.1 heq, Function.update_of_ne heq]
  · intro q' n hn
    have heq : q'.2 ≠ q.2 := by
      intro heq
      rw [hnone q' heq] at hn
      exact absurd hn (by simp)
    rw [update_otherIndex _ q'.1 heq] at hn
    obtain ⟨hlt', j, hj, hh⟩ := h.held q' n hn
    rw [hqmax, Function.update_of_ne heq]
    exact ⟨hlt', j, hj, by rw [hcdevs j (h.otherCell hcell heq hj)]; exact hh⟩
  · -- the character device that goes is destroyed once
    intro j hj hno
    rw [hdes]
    by_cases hjk : j = k
    · rw [hjk, Function.update_self]
    · rw [Function.update_of_ne hjk]
      refine h.dead j (hnext ▸ hj) (fun i hij => ?_)
      have hi : i ≠ q.2 := fun hi => hjk (Option.some.inj (hij.symm.trans (hi ▸ hcell)))
      exact hno i ((Function.update_of_ne hi _ _).trans hij)
  · intro j hj
    rw [hnext] at hj
    have hjk : j ≠ k := fun hjk => absurd (h.live _ k hcell).1 (Nat.not_lt.mpr (hjk ▸ hj))
    rw [hdes, Function.update_of_ne hjk]
    exact h.fresh j hj
  · exact hbad

/-- **One of two directions goes.** -/
theorem Shares.less (h : Shares P x added cell) (hlt : q.2 < x.qmax) (hcell : cell q.2 = some k)
    (hother : added (!q.1, q.2) ≠ none) (hqmax : x'.qmax = x.qmax) (hnext : x'.next = x.next)
    (hcdevs : ∀ j, j ≠ k → x'.cdevs j = x.cdevs j)
    (hqhndl : ∀ c2h, (x'.cdevs k).qhndl c2h = (x.cdevs k).qhndl c2h)
    (hbits : P (x'.cdevs k).dirInit (Function.update added q none (false, q.2)).isSome
      (Function.update added q none (true, q.2)).isSome)
    (hdes : x'.destroyed = x.destroyed)
    (hqdata : x'.qdata = Function.update x.qdata (x.place q) {}) (hbad : x'.badAccess = false) :
    Shares P x' (Function.update added q none) cell := by
  have hrest : ∀ q', q' ≠ q → Function.update added q none q' = added q' :=
    fun q' hne => Function.update_of_ne hne _ _
  have hothers : ((!q.1, q.2) : QRef) ≠ q := fun heq => absurd (congrArg Prod.fst heq) (by simp)
  constructor
  · rw [hnext, hdes]
    exact h.live
  · intro i j hij
    by_cases hi : i = q.2
    · obtain rfl : j = k := Option.some.inj (hij.symm.trans (hi ▸ hcell))
      rw [hi]
      exact hbits
    · rw [hcdevs j (h.otherCell hcell hi hij), update_otherIndex _ false hi,
        update_otherIndex _ true hi]
      exact h.bits i j hij
  · intro i j hij
    by_cases hi : i = q.2
    · exact ⟨!q.1, by rw [hi, hrest _ hothers]; exact hother⟩
    · obtain ⟨c2h, hc⟩ := h.used i j hij
      exact ⟨c2h, by rwa [update_otherIndex _ c2h hi]⟩
  · exact h.own
  · intro q' hq'
    rw [hqmax] at hq'
    rw [place_of_qmax hqmax, hqdata]
    by_cases heq : q' = q
    · rw [heq, Function.update_self, entryOf_of_none (Function.update_self _ _ _)]
    · rw [Function.update_of_ne (fun hp => heq (place_inj hq' hlt hp)), h.entry _ hq']
      unfold entryOf
      rw [hrest q' heq]
  · intro q' n hn
    have hne : q' ≠ q := by
      rintro rfl
      rw [Function.update_self] at hn
      exact absurd hn (by simp)
    rw [hrest q' hne] at hn
    obtain ⟨hlt', j, hj, hh⟩ := h.held q' n hn
    refine ⟨hqmax ▸ hlt', j, hj, ?_⟩
    by_cases hjk : j = k
    · rw [hjk, hqhndl, ← hjk]
      exact hh
    · rw [hcdevs j hjk]
      exact hh
  · rw [hnext, hdes]
    exact h.dead
  · rw [hnext, hdes]
    exact h.fresh
  · exact hbad

/-- **A direction is added**, to the character device `k` of its index, which may be new. -/
theorem Shares.more {n : ℕ} (h : Shares P x added cell) (hlt : q.2 < x.qmax)
    (hnone : added q = none) (hk : k < x'.next) (hlive : x'.destroyed k = 0)
    (hcell : cell q.2 = some k ∨ (cell q.2 = none ∧ ∀ i, cell i ≠ some k))
    (hqmax : x'.qmax = x.qmax) (hnext : ∀ j < x'.next, j ≠ k → j < x.next)
    (hnext' : x.next ≤ x'.next)
    (hcdevs : ∀ j, j ≠ k → x'.cdevs j = x.cdevs j) (hself : (x'.cdevs k).qhndl q.1 = n)
    (hpair : cell q.2 = some k → (x'.cdevs k).qhndl (!q.1) = (x.cdevs k).qhndl (!q.1))
    (hbits : P (x'.cdevs k).dirInit (Function.update added q (some n) (false, q.2)).isSome
      (Function.update added q (some n) (true, q.2)).isSome)
    (hdes : ∀ j, j ≠ k → x'.destroyed j = x.destroyed j)
    (hqdata : x'.qdata = Function.update x.qdata (x.place q) { qhndl := n, xcdev := some k })
    (hbad : x'.badAccess = false) :
    Shares P x' (Function.update added q (some n)) (Function.update cell q.2 (some k)) := by
  have hrest : ∀ q', q' ≠ q → Function.update added q (some n) q' = added q' :=
    fun q' hne => Function.update_of_ne hne _ _
  -- the other indices have other character devices
  have hnk : ∀ {i j}, i ≠ q.2 → cell i = some j → j ≠ k := by
    intro i j hi hij hjk
    rcases hcell with hc | ⟨-, hno⟩
    · exact hi (h.own _ _ k (hjk ▸ hij) hc)
    · exact hno i (hjk ▸ hij)
  have hcases : ∀ {i j}, Function.update cell q.2 (some k) i = some j →
      (i = q.2 ∧ j = k) ∨ (i ≠ q.2 ∧ cell i = some j) := by
    intro i j hij
    by_cases hi : i = q.2
    · rw [hi, Function.update_self] at hij
      exact .inl ⟨hi, (Option.some.inj hij).symm⟩
    · rw [Function.update_of_ne hi] at hij
      exact .inr ⟨hi, hij⟩
  constructor
  · intro i j hij
    rcases hcases hij with ⟨-, rfl⟩ | ⟨hi, hij⟩
    · exact ⟨hk, hlive⟩
    · rw [hdes j (hnk hi hij)]
      exact ⟨(h.live i j hij).1.trans_le hnext', (h.live i j hij).2⟩
  · intro i j hij
    rcases hcases hij with ⟨rfl, rfl⟩ | ⟨hi, hij⟩
    · exact hbits
    · rw [hcdevs j (hnk hi hij), update_otherIndex _ false hi, update_otherIndex _ true hi]
      exact h.bits i j hij
  · intro i j hij
    rcases hcases hij with ⟨rfl, -⟩ | ⟨hi, hij⟩
    · exact ⟨q.1, by rw [Function.update_self]; exact Option.some_ne_none n⟩
    · obtain ⟨c2h, hc⟩ := h.used i j hij
      exact ⟨c2h, by rwa [update_otherIndex _ c2h hi]⟩
  · intro i i' j hij hij'
    rcases hcases hij with ⟨rfl, rfl⟩ | ⟨hi, hold⟩
    · rcases hcases hij' with ⟨rfl, -⟩ | ⟨hi', hold'⟩
      · rfl
      · exact absurd rfl (hnk hi' hold')
    · rcases hcases hij' with ⟨-, rfl⟩ | ⟨-, hold'⟩
      · exact absurd rfl (hnk hi hold)
      · exact h.own i i' j hold hold'
  · intro q' hq'
    rw [hqmax] at hq'
    rw [place_of_qmax hqmax, hqdata]
    by_cases heq : q' = q
    · rw [heq, Function.update_self, entryOf_of_some (Function.update_self _ _ _),
        Function.update_self]
    · rw [Function.update_of_ne (fun hp => heq (place_inj hq' hlt hp)), h.entry _ hq']
      unfold entryOf
      rw [hrest q' heq]
      cases hq : added q' with
      | none => rfl
      | some n' =>
          obtain ⟨-, j, hj, -⟩ := h.held q' n' hq
          by_cases hi : q'.2 = q.2
          · -- the other direction, whose character device is `k`
            rw [hi] at hj ⊢
            rw [Function.update_self]
            rcases hcell with hc | ⟨hc, -⟩
            · rw [hc]
            · rw [hc] at hj
              exact absurd hj (by simp)
          · rw [Function.update_of_ne hi]
  · intro q' n' hn
    by_cases heq : q' = q
    · rw [heq, Function.update_self] at hn
      rw [heq, hqmax]
      exact ⟨hlt, k, Function.update_self _ _ _, hself.trans (Option.some.inj hn)⟩
    · rw [hrest q' heq] at hn
      obtain ⟨hlt', j, hj, hh⟩ := h.held q' n' hn
      refine ⟨hqmax ▸ hlt', ?_⟩
      by_cases hi : q'.2 = q.2
      · rcases dirs_cases q q' hi with rfl | rfl
        · exact absurd rfl heq
        · rcases hcell with hc | ⟨hc, -⟩
          · obtain rfl : j = k := Option.some.inj (hj.symm.trans hc)
            exact ⟨j, Function.update_self _ _ _, (hpair hc).trans hh⟩
          · rw [hc] at hj
            exact absurd hj (by simp)
      · exact ⟨j, (Function.update_of_ne hi _ _).trans hj, by rw [hcdevs j (hnk hi hj)]; exact hh⟩
  · intro j hj hno
    have hjk : j ≠ k := by
      rintro rfl
      exact hno q.2 (Function.update_self _ _ _)
    rw [hdes j hjk]
    refine h.dead j (hnext j hj hjk) (fun i hij => ?_)
    by_cases hi : i = q.2
    · rcases hcell with hc | ⟨hc, -⟩
      · exact hjk (Option.some.inj (hij.symm.trans (hi ▸ hc)))
      · rw [hi, hc] at hij
        exact absurd hij (by simp)
    · exact hno i ((Function.update_of_ne hi _ _).trans hij)
  · intro j hj
    rw [hdes j (fun hjk => absurd hk (Nat.not_lt.mpr (hjk ▸ hj)))]
    exact h.fresh j (hnext'.trans hj)
  · exact hbad

end Cells

/-! ## The bits -/

/-- `dir_init` has exactly the bits of the directions added. -/
def ExactBits (d : BitVec 16) (h2c c2h : Bool) : Prop :=
  d = (if h2c then dirBit false else 0) ||| (if c2h then dirBit true else 0)

/-- It tells two directions from one. -/
def LooseBits (d : BitVec 16) (h2c c2h : Bool) : Prop :=
  if h2c && c2h then d = 3 else d = 1 ∨ d = 2

theorem ExactBits.clear {d : BitVec 16} {a b : Bool} (h : ExactBits d a b) (c2h : Bool) :
    ExactBits (d &&& ~~~ dirBit c2h) (a && c2h) (b && !c2h) := by
  subst h
  unfold ExactBits
  cases a <;> cases b <;> cases c2h <;> decide

theorem ExactBits.set {d : BitVec 16} {a b : Bool} (h : ExactBits d a b) (c2h : Bool) :
    ExactBits (d ||| dirBit c2h) (a || !c2h) (b || c2h) := by
  subst h
  unfold ExactBits
  cases a <;> cases b <;> cases c2h <;> decide

theorem ExactBits.zero_iff {d : BitVec 16} {a b : Bool} (h : ExactBits d a b) :
    d = 0 ↔ a = false ∧ b = false := by
  subst h
  cases a <;> cases b <;> decide

theorem ExactBits.test {d : BitVec 16} {a b : Bool} (h : ExactBits d a b) (c2h : Bool) :
    d &&& dirBit c2h ≠ 0 ↔ (if c2h then b else a) = true := by
  subst h
  cases a <;> cases b <;> cases c2h <;> decide

theorem ExactBits.loose {d : BitVec 16} {a b : Bool} (h : ExactBits d a b)
    (hab : a = true ∨ b = true) : LooseBits d a b := by
  subst h
  revert hab
  unfold LooseBits
  cases a <;> cases b <;> decide

theorem LooseBits.one_iff {d : BitVec 16} {a b c2h : Bool} (h : LooseBits d a b)
    (hself : (if c2h then b else a) = true) :
    (d = 1 ∨ d = 2) ↔ (if c2h then a else b) = false := by
  unfold LooseBits at h
  cases hab : a && b with
  | true =>
      rw [hab, if_pos rfl] at h
      subst h
      revert hab hself
      cases a <;> cases b <;> cases c2h <;> decide
  | false =>
      rw [hab, if_neg (by decide)] at h
      refine ⟨fun _ => ?_, fun _ => h⟩
      revert hab hself
      cases a <;> cases b <;> cases c2h <;> decide

theorem LooseBits.shift {d : BitVec 16} {a b : Bool} (h : LooseBits d a b)
    (hd : ¬ (d = 1 ∨ d = 2)) (c2h : Bool) : LooseBits (d >>> 1) (a && c2h) (b && !c2h) := by
  unfold LooseBits at h
  cases hab : a && b with
  | true =>
      rw [hab, if_pos rfl] at h
      subst h
      unfold LooseBits
      cases a <;> cases b <;> cases c2h <;> decide
  | false =>
      rw [hab, if_neg (by decide)] at h
      exact absurd h hd

section Updates

variable {added : QRef → Option ℕ} (q : QRef)

theorem isSome_clear (c2h : Bool) : (Function.update added q none (c2h, q.2)).isSome
    = ((added (c2h, q.2)).isSome && (if c2h then !q.1 else q.1)) := by
  obtain ⟨b, i⟩ := q
  by_cases heq : ((c2h, i) : QRef) = (b, i)
  · obtain rfl : c2h = b := congrArg Prod.fst heq
    rw [Function.update_self]
    cases c2h <;> simp
  · rw [Function.update_of_ne heq]
    have hne : c2h ≠ b := fun h => heq (by rw [h])
    cases c2h <;> cases b <;> simp at hne ⊢

theorem isSome_set (n : ℕ) (c2h : Bool) : (Function.update added q (some n) (c2h, q.2)).isSome
    = ((added (c2h, q.2)).isSome || (if c2h then q.1 else !q.1)) := by
  obtain ⟨b, i⟩ := q
  by_cases heq : ((c2h, i) : QRef) = (b, i)
  · obtain rfl : c2h = b := congrArg Prod.fst heq
    rw [Function.update_self]
    cases c2h <;> simp
  · rw [Function.update_of_ne heq]
    have hne : c2h ≠ b := fun h => heq (by rw [h])
    cases c2h <;> cases b <;> simp at hne ⊢

end Updates

/-! ## Deleting -/

theorem queueGet_ok {x : XpDev} {qidx : ℕ} {c2h check : Bool} {n : ℕ}
    (h : x.queueGet qidx c2h check = .ok n) :
    qidx < x.qmax ∧ n = x.place (c2h, qidx) ∧
      (check = true → x.qdata n ≠ {}) := by
  unfold XpDev.queueGet at h
  by_cases hq : qidx ≥ x.qmax
  · rw [if_pos hq] at h
    exact absurd h (by simp)
  rw [if_neg hq] at h
  have hn : n = x.place (c2h, qidx) ∧ ¬ (check && ((x.qdata (x.place (c2h, qidx))).qhndl == 0 &&
      (x.qdata (x.place (c2h, qidx))).xcdev.isNone)) = true := by
    by_cases hcheck : (check && ((x.qdata (x.place (c2h, qidx))).qhndl == 0 &&
        (x.qdata (x.place (c2h, qidx))).xcdev.isNone)) = true
    · have herr := (if_pos hcheck).symm.trans h
      exact absurd herr (by simp)
    · have hok := (if_neg hcheck).symm.trans h
      exact ⟨(Except.ok.inj hok).symm, hcheck⟩
  obtain ⟨rfl, hcheck⟩ := hn
  refine ⟨Nat.lt_of_not_ge hq, rfl, ?_⟩
  rintro rfl hempty
  rw [hempty] at hcheck
  exact hcheck rfl

theorem queueGet_of_lt {x : XpDev} {qidx : ℕ} (h : qidx < x.qmax) (c2h : Bool) :
    x.queueGet qidx c2h false = .ok (x.place (c2h, qidx)) := by
  unfold XpDev.queueGet
  rw [if_neg (Nat.not_le.mpr h)]
  rfl

/-- The invariant between calls. -/
structure CdevInv (s : CdevRun) : Prop where
  lib : AddedInv s.dev.lib s.added
  qmax : s.dev.lib.dev.qmax = s.dev.qmax
  shares : ∃ cell, Shares ExactBits s.dev s.added cell

/-- An object that has not been freed is accessed. -/
theorem touch_live {x : XpDev} {k : ℕ} (hbad : x.badAccess = false) (h : x.destroyed k = 0) :
    x.touch k = x := by
  unfold XpDev.touch
  rw [h, hbad]
  show { x with badAccess := false || false } = x
  rw [Bool.or_self, ← hbad]

/-- `xpdev_queue_delete` of an entry with a character device. -/
theorem queueDelete_eq {x : XpDev} {q : QRef} {n k : ℕ} (hlt : q.2 < x.qmax)
    (hqd : x.qdata (x.place q) = { qhndl := n, xcdev := some k }) (hbad : x.badAccess = false)
    (hdes : x.destroyed k = 0) (ctxCleared : Bool) :
    x.queueDelete q.2 q.1 ctxCleared =
      let x1 := if ((x.cdevs k).clearDir q.1).dirInit = 0
        then (x.setCdev k ((x.cdevs k).clearDir q.1)).cdevDestroy k
        else x.setCdev k ((x.cdevs k).clearDir q.1)
      if n ≠ qdmaQueueIdxInvalid then
        (({ x1 with lib := x.lib.step (.remove n ctxCleared) }).setQdata (x.place q) {},
          x.lib.dev.queueRemoveRv n)
      else (x1.setQdata (x.place q) {}, 0) := by
  have hget : x.queueGet q.2 q.1 true = .ok (x.place q) := by
    unfold XpDev.queueGet
    rw [if_neg (Nat.not_le.mpr hlt)]
    show (if (true && ((x.qdata (x.place q)).qhndl == 0 && (x.qdata (x.place q)).xcdev.isNone))
      then _ else Except.ok (x.place q)) = _
    rw [hqd]
    simp
  unfold XpDev.queueDelete
  rw [hget]
  simp only
  rw [hqd]
  simp only
  rw [touch_live hbad hdes]
  have hself : (x.setCdev k ((x.cdevs k).clearDir q.1)).cdevs k = (x.cdevs k).clearDir q.1 :=
    Function.update_self _ _ _
  rw [hself]
  by_cases hz : ((x.cdevs k).clearDir q.1).dirInit = 0
  · simp only [if_pos hz]
    rfl
  · simp only [if_neg hz]
    rfl

/-- The entry that `xpdev_queue_delete` finds is that of a direction added. -/
theorem Shares.found {P : BitVec 16 → Bool → Bool → Prop} {x : XpDev} {added : QRef → Option ℕ}
    {cell : ℕ → Option ℕ} (h : Shares P x added cell) (q : QRef) (hlt : q.2 < x.qmax)
    (hne : x.qdata (x.place q) ≠ {}) :
    ∃ n k, added q = some n ∧ cell q.2 = some k ∧
      x.qdata (x.place q) = { qhndl := n, xcdev := some k } := by
  rw [h.entry q hlt] at hne ⊢
  cases hq : added q with
  | none => exact absurd (entryOf_of_none hq) hne
  | some n =>
      obtain ⟨-, k, hk, -⟩ := h.held q n hq
      refine ⟨n, k, rfl, hk, ?_⟩
      rw [entryOf_of_some hq, hk]

/-- **Deleting** clears a bit, and frees the character device with the last one. -/
theorem Shares.clear {x : XpDev} {added : QRef → Option ℕ} {cell : ℕ → Option ℕ}
    (h : Shares ExactBits x added cell) {q : QRef} {n k : ℕ} (hq : added q = some n)
    (hk : cell q.2 = some k) (lib : IdDev) :
    ∃ cell', Shares ExactBits
      (({ (if ((x.cdevs k).clearDir q.1).dirInit = 0
        then (x.setCdev k ((x.cdevs k).clearDir q.1)).cdevDestroy k
        else x.setCdev k ((x.cdevs k).clearDir q.1)) with lib := lib }).setQdata (x.place q) {})
      (Function.update added q none) cell' := by
  have hlt := (h.held q n hq).1
  have hbits := (h.bits _ k hk).clear q.1
  have hpair : ∀ c2h, (Function.update added q none (c2h, q.2)).isSome
      = ((added (c2h, q.2)).isSome && (if c2h then !q.1 else q.1)) := isSome_clear q
  have hothers : ((!q.1, q.2) : QRef) ≠ q := fun heq => absurd (congrArg Prod.fst heq) (by simp)
  have hzero : ((x.cdevs k).clearDir q.1).dirInit = 0 ↔ added (!q.1, q.2) = none := by
    rw [show ((x.cdevs k).clearDir q.1).dirInit = (x.cdevs k).dirInit &&& ~~~ dirBit q.1 from rfl,
      hbits.zero_iff]
    cases hc : q.1 <;> simp
  by_cases hz : ((x.cdevs k).clearDir q.1).dirInit = 0
  · simp only [if_pos hz]
    refine ⟨_, h.last hlt hk (hzero.mp hz) rfl rfl (fun j hj => ?_) ?_ rfl h.noAccess⟩
    · exact Function.update_of_ne hj _ _
    · show Function.update x.destroyed k (x.destroyed k + 1) = _
      rw [(h.live _ k hk).2]
  · simp only [if_neg hz]
    refine ⟨cell, h.less hlt hk (fun hno => hz (hzero.mpr hno)) rfl rfl (fun j hj => ?_)
      (fun c2h => ?_) ?_ rfl rfl h.noAccess⟩
    · exact Function.update_of_ne hj _ _
    · show (Function.update x.cdevs k _ k).qhndl c2h = _
      rw [Function.update_self]
      rfl
    · show ExactBits (Function.update x.cdevs k _ k).dirInit _ _
      rw [Function.update_self, hpair, hpair]
      exact hbits

theorem CdevInv.delete {s : CdevRun} (h : CdevInv s) {qidx : ℕ} {c2h ctxCleared : Bool}
    (hok : 0 ≤ (s.dev.queueDelete qidx c2h ctxCleared).2) :
    CdevInv (s.step (.delete qidx c2h ctxCleared)) := by
  obtain ⟨cell, hs⟩ := h.shares
  cases hget : s.dev.queueGet qidx c2h true with
  | error e =>
      unfold XpDev.queueDelete at hok
      rw [hget] at hok
      exact absurd hok (show ¬ (0 : ℤ) ≤ einval by decide)
  | ok m =>
      obtain ⟨hlt, rfl, hne⟩ := queueGet_ok hget
      obtain ⟨n, k, hq, hk, hqd⟩ := hs.found (c2h, qidx) hlt (hne rfl)
      have heq := @queueDelete_eq s.dev (c2h, qidx) n k hlt hqd hs.noAccess (hs.live _ k hk).2
        ctxCleared
      unfold CdevRun.step
      simp only at heq ⊢
      rw [heq]
      set x1 := if ((s.dev.cdevs k).clearDir c2h).dirInit = 0
        then (s.dev.setCdev k ((s.dev.cdevs k).clearDir c2h)).cdevDestroy k
        else s.dev.setCdev k ((s.dev.cdevs k).clearDir c2h) with hx1
      have hlib1 : x1.lib = s.dev.lib ∧ x1.qmax = s.dev.qmax := by
        rw [hx1]
        split_ifs
        · exact ⟨rfl, rfl⟩
        · exact ⟨rfl, rfl⟩
      by_cases hn : n ≠ qdmaQueueIdxInvalid
      · rw [if_pos hn]
        obtain ⟨-, hqmax, hlib⟩ := h.lib.remove hq ctxCleared
        exact ⟨hlib, hqmax.trans (h.qmax.trans hlib1.2.symm), hs.clear hq hk _⟩
      · rw [if_neg hn]
        refine ⟨?_, ?_, ?_⟩
        · show AddedInv x1.lib _
          rw [hlib1.1]
          exact h.lib.forget _
        · show x1.lib.dev.qmax = x1.qmax
          rw [hlib1.1, hlib1.2]
          exact h.qmax
        · have hsame : x1 = { x1 with lib := s.dev.lib } := by
            rw [← hlib1.1]
          rw [hsame]
          exact hs.clear hq hk s.dev.lib

/-! ## Cleaning up -/

theorem Shares.weaken {P P' : BitVec 16 → Bool → Bool → Prop} {x : XpDev}
    {added : QRef → Option ℕ} {cell : ℕ → Option ℕ} (h : Shares P x added cell)
    (hP : ∀ d i, (∃ c2h, added (c2h, i) ≠ none) →
      P d (added (false, i)).isSome (added (true, i)).isSome →
        P' d (added (false, i)).isSome (added (true, i)).isSome) :
    Shares P' x added cell :=
  { h with bits := fun i k hk => hP _ i (h.used i k hk) (h.bits i k hk) }

theorem Shares.loose {x : XpDev} {added : QRef → Option ℕ} {cell : ℕ → Option ℕ}
    (h : Shares ExactBits x added cell) : Shares LooseBits x added cell := by
  apply h.weaken
  rintro d i ⟨c2h, hc⟩ hd
  refine hd.loose ?_
  cases c2h with
  | false => exact .inl (Option.isSome_iff_ne_none.mpr hc)
  | true => exact .inr (Option.isSome_iff_ne_none.mpr hc)

/-- **One turn of the loop** of `xpdev_device_cleanup`, whichever entry it is at: of two directions
one is left, and `dir_init` is 1 whichever that is. -/
theorem Shares.cleanupEntry {x : XpDev} {added : QRef → Option ℕ} {cell : ℕ → Option ℕ}
    (h : Shares LooseBits x added cell) (q : QRef) (hlt : q.2 < x.qmax) :
    ∃ cell', Shares LooseBits (x.cleanupEntry (x.place q)) (Function.update added q none) cell' := by
  unfold XpDev.cleanupEntry
  rw [h.entry q hlt]
  cases hq : added q with
  | none =>
      rw [entryOf_of_none hq]
      have hsame : Function.update added q none = added := by
        rw [← hq, Function.update_eq_self]
      have hset : x.setQdata (x.place q) {} = x := by
        unfold XpDev.setQdata
        rw [show ({} : XlnxQdata) = x.qdata (x.place q) by rw [h.entry q hlt, entryOf_of_none hq],
          Function.update_eq_self]
      exact ⟨cell, by simpa only [hsame, hset] using h⟩
  | some n =>
      obtain ⟨-, k, hk, -⟩ := h.held q n hq
      rw [entryOf_of_some hq, hk]
      simp only
      rw [touch_live h.noAccess (h.live _ k hk).2]
      have hbits := h.bits _ k hk
      have hself : (added q).isSome = true := by rw [hq]; rfl
      have hpair : ∀ c2h, (Function.update added q none (c2h, q.2)).isSome
          = ((added (c2h, q.2)).isSome && (if c2h then !q.1 else q.1)) := isSome_clear q
      have hone : ((x.cdevs k).dirInit = 1 ∨ (x.cdevs k).dirInit = 2) ↔
          added (!q.1, q.2) = none := by
        have hdirs : (if q.1 then (added (true, q.2)).isSome else (added (false, q.2)).isSome)
            = true := by
          refine Eq.trans ?_ hself
          obtain ⟨c2h, i⟩ := q
          cases c2h <;> rfl
        rw [hbits.one_iff hdirs]
        cases hc : q.1 <;> simp
      by_cases hz : (x.cdevs k).dirInit = 1 ∨ (x.cdevs k).dirInit = 2
      · rw [if_pos hz]
        refine ⟨_, h.last hlt hk (hone.mp hz) rfl rfl (fun _ _ => rfl) ?_ rfl h.noAccess⟩
        show Function.update x.destroyed k (x.destroyed k + 1) = _
        rw [(h.live _ k hk).2]
      · rw [if_neg hz]
        refine ⟨cell, h.less hlt hk (fun hno => hz (hone.mpr hno)) rfl rfl (fun j hj => ?_)
          (fun c2h => ?_) ?_ rfl rfl h.noAccess⟩
        · exact Function.update_of_ne hj _ _
        · show (Function.update x.cdevs k _ k).qhndl c2h = _
          rw [Function.update_self]
          rfl
        · show LooseBits (Function.update x.cdevs k _ k).dirInit _ _
          rw [Function.update_self, hpair, hpair]
          exact hbits.shift hz q.1

theorem cleanupEntry_same (x : XpDev) (n : ℕ) :
    (x.cleanupEntry n).lib = x.lib ∧ (x.cleanupEntry n).qmax = x.qmax := by
  unfold XpDev.cleanupEntry
  cases (x.qdata n).xcdev with
  | none => exact ⟨rfl, rfl⟩
  | some k =>
      simp only
      split_ifs
      · exact ⟨rfl, rfl⟩
      · exact ⟨rfl, rfl⟩

/-- The entries `ns` are cleaned up, one after the other. -/
theorem Shares.cleanupAll {ns : List ℕ} {x : XpDev} {added : QRef → Option ℕ}
    {cell : ℕ → Option ℕ} (h : Shares LooseBits x added cell)
    (hns : ∀ n ∈ ns, ∃ q : QRef, q.2 < x.qmax ∧ n = x.place q) :
    (ns.foldl XpDev.cleanupEntry x).lib = x.lib ∧
      (ns.foldl XpDev.cleanupEntry x).qmax = x.qmax ∧
      ∃ added' cell', Shares LooseBits (ns.foldl XpDev.cleanupEntry x) added' cell' ∧
        ∀ q, (added q = none ∨ x.place q ∈ ns) → added' q = none := by
  induction ns generalizing x added cell with
  | nil =>
      refine ⟨rfl, rfl, added, cell, h, fun q hq => ?_⟩
      exact hq.resolve_right List.not_mem_nil
  | cons n ns ih =>
      obtain ⟨q, hlt, rfl⟩ := hns n (.head _)
      obtain ⟨cell1, h1⟩ := h.cleanupEntry q hlt
      obtain ⟨hlib, hqmax⟩ := cleanupEntry_same x (x.place q)
      rw [List.foldl_cons]
      obtain ⟨hlib', hqmax', added', cell', h', hall⟩ := ih h1 (fun m hm => by
        obtain ⟨q', hlt', hm'⟩ := hns m (.tail _ hm)
        exact ⟨q', hqmax ▸ hlt', by rw [place_of_qmax hqmax]; exact hm'⟩)
      refine ⟨hlib'.trans hlib, hqmax'.trans hqmax, added', cell', h', fun q' hq' => hall q' ?_⟩
      rw [place_of_qmax hqmax]
      by_cases heq : q' = q
      · exact .inl (by rw [heq, Function.update_self])
      · rw [Function.update_of_ne heq]
        cases hadd : added q' with
        | none => exact .inl rfl
        | some m =>
            rw [hadd] at hq'
            have hmem := hq'.resolve_left (Option.some_ne_none m)
            refine .inr ((List.mem_cons.mp hmem).resolve_left (fun hp => ?_))
            exact heq (place_inj (h.held q' m hadd).1 hlt hp)

theorem CdevInv.cleanup {s : CdevRun} (h : CdevInv s) : CdevInv (s.step .cleanup) := by
  obtain ⟨cell, hs⟩ := h.shares
  have hplaces : ∀ n ∈ List.range (s.dev.qmax * 2),
      ∃ q : QRef, q.2 < s.dev.qmax ∧ n = s.dev.place q := by
    intro n hn
    have hlt := List.mem_range.mp hn
    by_cases hq : n < s.dev.qmax
    · exact ⟨(false, n), hq, rfl⟩
    · exact ⟨(true, n - s.dev.qmax), by show n - s.dev.qmax < _; omega,
        by show n = n - s.dev.qmax + s.dev.qmax; omega⟩
  obtain ⟨hlib, hqmax, added', cell', h', hall⟩ := hs.loose.cleanupAll hplaces
  have hnone : added' = fun _ => none := by
    funext q
    apply hall
    cases hq : s.added q with
    | none => exact .inl rfl
    | some n =>
        have hlt := (hs.held q n hq).1
        refine .inr (List.mem_range.mpr ?_)
        unfold XpDev.place
        split_ifs <;> omega
  rw [hnone] at h'
  constructor
  · show AddedInv s.dev.deviceCleanup.lib (fun _ => none)
    unfold XpDev.deviceCleanup
    rw [hlib]
    exact ⟨h.lib.gone, fun q n hn => absurd hn (by simp)⟩
  · show s.dev.deviceCleanup.lib.dev.qmax = s.dev.deviceCleanup.qmax
    unfold XpDev.deviceCleanup
    rw [hlib, hqmax]
    exact h.qmax
  · refine ⟨cell', h'.weaken ?_⟩
    rintro d i ⟨c2h, hc⟩
    exact absurd rfl hc

/-! ## Adding -/

/-- **A new character device** has one direction; otherwise `qdma_cdev_create` fails. -/
theorem cdevCreate_cases (xcb : QdmaCdevCb) (name : String) (c2h : Bool) (minor qhndl : ℕ)
    (env : CreateEnv) :
    (∃ e, xcb.cdevCreate name c2h minor qhndl env = .error e ∧ e.1 < 0) ∨
      ∃ d, xcb.cdevCreate name c2h minor qhndl env = .ok d ∧ d.dirInit = dirBit c2h ∧
        d.qhndl c2h = qhndl := by
  have hset : ∀ d : QdmaCdev, (d.setQhndl c2h qhndl).dirInit = d.dirInit ∧
      (d.setQhndl c2h qhndl).qhndl c2h = qhndl := by
    intro d
    unfold QdmaCdev.setQhndl QdmaCdev.qhndl
    cases c2h <;> exact ⟨rfl, rfl⟩
  obtain ⟨hdir, hq⟩ := hset { dirInit := dirBit c2h, name := name, minor := minor }
  unfold QdmaCdevCb.cdevCreate
  by_cases halloc : (!env.allocOk) = true
  · rw [if_pos halloc]
    exact .inl ⟨_, rfl, show (-12 : ℤ) < 0 by decide⟩
  rw [if_neg halloc]
  simp only
  split_ifs with hminor hadd hclass
  · exact .inl ⟨_, rfl, show (-28 : ℤ) < 0 by decide⟩
  · exact .inl ⟨_, rfl, hadd⟩
  · cases env.sysErr with
    | some e => exact .inl ⟨_, rfl, show (-(e.val + 1) : ℤ) < 0 by omega⟩
    | none => exact .inr ⟨_, rfl, hdir, hq⟩
  · exact .inr ⟨_, rfl, hdir, hq⟩

/-- The entry of a direction that is added gets the character device `k` of the other one, or a
new one. -/
theorem CdevInv.add {s : CdevRun} (h : CdevInv s) {c : XpAdd} (hok : 0 ≤ (s.dev.queueAdd c).2) :
    CdevInv (s.step (.add c)) := by
  obtain ⟨cell, hs⟩ := h.shares
  unfold CdevRun.step
  unfold XpDev.queueAdd at hok ⊢
  simp only at hok ⊢
  have hlib := @AddedInv.add s.dev.lib s.added h.lib c
  generalize s.dev.lib.queueAdd c.call c.prep = r at hok hlib
  obtain ⟨lib, rv⟩ := r
  generalize s.dev.lib.addOut c = out at hok hlib
  obtain ⟨i, n⟩ := out
  simp only at hok hlib ⊢
  by_cases hrv : rv < 0
  · rw [if_pos hrv] at hok
    exact absurd hrv (Int.not_lt.mpr hok)
  rw [if_neg hrv] at hok ⊢
  obtain ⟨hlt, hnone, hqmax, hadded⟩ := hlib (Int.not_lt.mp hrv)
  rw [h.qmax] at hlt hqmax
  have hget : ∀ b, XpDev.queueGet { s.dev with lib := lib } i b false = .ok (s.dev.place (b, i)) :=
    queueGet_of_lt hlt
  rw [hget, hget] at hok ⊢
  simp only at hok ⊢
  have hpair : ∀ b, (Function.update s.added (c.qconf.c2h, i) (some n) (b, i)).isSome
      = ((s.added (b, i)).isSome || (if b then c.qconf.c2h else !c.qconf.c2h)) :=
    isSome_set (c.qconf.c2h, i) n
  rw [hs.entry (!c.qconf.c2h, i) hlt] at hok ⊢
  cases hother : s.added (!c.qconf.c2h, i) with
  | none =>
      -- neither direction is there, and so no character device
      have hcell : cell i = none := by
        cases hc : cell i with
        | none => rfl
        | some k =>
            obtain ⟨b, hb⟩ := hs.used i k hc
            rcases dirs_cases (c.qconf.c2h, i) (b, i) rfl with heq | heq
            · exact absurd hnone (heq ▸ hb)
            · exact absurd hother (heq ▸ hb)
      rw [entryOf_of_none hother] at hok ⊢
      simp only at hok ⊢
      unfold XpDev.addCdev at hok ⊢
      simp only at hok ⊢
      rcases cdevCreate_cases s.dev.cdevCb (lib.dev.qName c.qconf.st i) c.qconf.c2h i n c.create
        with ⟨e, he, hneg⟩ | ⟨d, hd, hdir, hqh⟩
      · rw [he] at hok
        exact absurd hneg (Int.not_lt.mpr hok)
      rw [hd]
      simp only
      have hfresh : ∀ i', cell i' ≠ some s.dev.next :=
        fun i' hi' => absurd (hs.live i' _ hi').1 (lt_irrefl _)
      refine ⟨hadded, hqmax, _, hs.more hlt hnone (Nat.lt_succ_self _) ?_
        (.inr ⟨hcell, hfresh⟩) rfl (fun j hj hne => ?_) (Nat.le_succ _) (fun j hj => ?_) ?_
        (fun hc => absurd (hcell.symm.trans hc) (by simp)) ?_
        (fun j hj => Function.update_of_ne hj _ _) rfl hs.noAccess⟩
      · exact Function.update_self _ _ _
      · exact lt_of_le_of_ne (Nat.lt_succ_iff.mp hj) hne
      · exact Function.update_of_ne hj _ _
      · show (Function.update s.dev.cdevs s.dev.next d s.dev.next).qhndl _ = n
        rw [Function.update_self]
        exact hqh
      · show ExactBits (Function.update s.dev.cdevs s.dev.next d s.dev.next).dirInit _ _
        rw [Function.update_self, hdir, hpair, hpair]
        have hboth : ∀ b, s.added (b, i) = none := by
          intro b
          rcases dirs_cases (c.qconf.c2h, i) (b, i) rfl with heq | heq
          · rw [heq]
            exact hnone
          · rw [heq]
            exact hother
        rw [hboth, hboth]
        cases c.qconf.c2h <;> rfl
  | some n' =>
      -- the other direction has a live one, which this one joins
      obtain ⟨-, k, hk, -⟩ := hs.held _ _ hother
      simp only at hk
      rw [entryOf_of_some hother, hk] at hok ⊢
      simp only
      have htouch : XpDev.touch { s.dev with lib := lib } k = { s.dev with lib := lib } :=
        touch_live hs.noAccess (hs.live _ k hk).2
      rw [htouch]
      refine ⟨hadded, hqmax, _, hs.more hlt hnone (hs.live _ k hk).1
        (hs.live _ k hk).2 (.inl hk) rfl (fun j hj _ => hj) le_rfl (fun j hj => ?_) ?_
        (fun _ => ?_) ?_ (fun _ _ => rfl) rfl hs.noAccess⟩
      · exact Function.update_of_ne hj _ _
      · show (Function.update s.dev.cdevs k _ k).qhndl _ = n
        rw [Function.update_self]
        unfold QdmaCdev.addDir QdmaCdev.setQhndl QdmaCdev.qhndl
        cases c.qconf.c2h <;> rfl
      · show (Function.update s.dev.cdevs k _ k).qhndl _ = _
        rw [Function.update_self]
        unfold QdmaCdev.addDir QdmaCdev.setQhndl QdmaCdev.qhndl
        cases c.qconf.c2h <;> rfl
      · show ExactBits (Function.update s.dev.cdevs k _ k).dirInit _ _
        rw [Function.update_self, hpair, hpair]
        exact (hs.bits _ k hk).set c.qconf.c2h

/-! ## All calls -/

theorem CdevInv.step {s : CdevRun} (h : CdevInv s) {op : CdevOp} (hok : CdevOk s op) :
    CdevInv (s.step op) := by
  cases op with
  | add c => exact h.add hok
  | delete qidx c2h ctxCleared => exact h.delete hok
  | cleanup => exact h.cleanup

theorem probeOne_inv (x : QdmaDev) (conf : IntrConf) (funcId : Fin 256) :
    CdevInv { dev := XpDev.probeOne (IdDev.deviceInit x conf funcId) } := by
  have hnone : ∀ {α : Type} {a : α}, none ≠ some a := fun h => absurd h (by simp)
  refine ⟨⟨rfl, fun q n hq => absurd hq hnone⟩, rfl, fun _ => none, ?_⟩
  constructor
  · exact fun i k hk => absurd hk hnone
  · exact fun i k hk => absurd hk hnone
  · exact fun i k hk => absurd hk hnone
  · exact fun i j k hk => absurd hk hnone
  · exact fun _ _ => rfl
  · exact fun q n hq => absurd hq hnone
  · exact fun k hk => absurd hk (Nat.not_lt_zero k)
  · exact fun _ _ => rfl
  · rfl

theorem CdevInv.law {s : CdevRun} (h : CdevInv s) : CdevLaw s := by
  obtain ⟨cell, hs⟩ := h.shares
  have hentry : ∀ q n, s.added q = some n → s.dev.qdata (s.dev.place q)
      = { qhndl := n, xcdev := cell q.2 } := by
    intro q n hq
    rw [hs.entry q (hs.held q n hq).1, entryOf_of_some hq]
  constructor
  · intro q hlt hq
    rw [hs.entry q hlt, entryOf_of_none hq]
  · intro q n hq
    obtain ⟨hlt, k, hk, -⟩ := hs.held q n hq
    exact ⟨hlt, k, (hs.live _ k hk).1, by rw [hentry q n hq, hk]⟩
  · intro q q' n n' hq hq'
    obtain ⟨-, k, hk, -⟩ := hs.held q n hq
    rw [hentry q n hq, hentry q' n' hq']
    constructor
    · intro heq
      exact hs.own _ _ k hk (heq.symm.trans hk)
    · intro heq
      show cell q.2 = cell q'.2
      rw [heq]
  · intro q k hq hk c2h
    obtain ⟨n, hn⟩ := Option.ne_none_iff_exists'.mp hq
    rw [hentry q n hn] at hk
    refine ⟨?_, fun m hm => ?_⟩
    · rw [(hs.bits _ k hk).test c2h, ← Option.isSome_iff_ne_none]
      cases c2h <;> rfl
    · obtain ⟨-, j, hj, hh⟩ := hs.held _ m hm
      obtain rfl : j = k := Option.some.inj (hj.symm.trans hk)
      exact hh
  · intro k hlt
    by_cases hex : ∃ i, cell i = some k
    · obtain ⟨i, hi⟩ := hex
      obtain ⟨c2h, hc⟩ := hs.used i k hi
      obtain ⟨n, hn⟩ := Option.ne_none_iff_exists'.mp hc
      refine .inl ⟨(hs.live i k hi).2, (c2h, i), hc, ?_⟩
      rw [hentry _ n hn]
      exact hi
    · refine .inr ⟨hs.dead k hlt (fun i hi => hex ⟨i, hi⟩), fun q hq hk => ?_⟩
      obtain ⟨n, hn⟩ := Option.ne_none_iff_exists'.mp hq
      rw [hentry q n hn] at hk
      exact hex ⟨q.2, hk⟩
  · exact hs.noAccess

/-- **Character devices are shared as they should be**, in every run of calls that succeed. -/
theorem cdev_sharing {x : QdmaDev} {conf : IntrConf} {funcId : Fin 256} {ops : List CdevOp}
    {s : CdevRun}
    (hr : Run CdevRun.step CdevOk { dev := XpDev.probeOne (IdDev.deviceInit x conf funcId) }
      ops s) : CdevLaw s :=
  (hr.invariant (probeOne_inv x conf funcId) (fun _ _ h hok => h.step hok)).law

/-- Both directions of index 2 are added, H2C is deleted and added again; then one of index 0 is
added, and everything cleaned up. -/
theorem cdev_sharing_pair : CdevLaw
    ([.add { qconf := { qidx := 2 } }, .add { qconf := { qidx := 2, c2h := true } },
      .delete 2 false true, .add { qconf := { qidx := 2 } },
      .add { qconf := { qidx := 0xFFFF, c2h := true } }, .cleanup].foldl CdevRun.step
        { dev := XpDev.probeOne (fourPairs false) }) := by
  simp only [List.foldl_cons, List.foldl_nil]
  refine @cdev_sharing { pairDev 2 with vf := false, qmax := 4 } _ 1 _ _
    ((((((Run.nil.snoc ?_).snoc ?_).snoc ?_).snoc ?_).snoc ?_).snoc ?_)
  · decide +kernel
  · decide +kernel
  · decide +kernel
  · decide +kernel
  · decide +kernel
  · decide +kernel

end Qdma
