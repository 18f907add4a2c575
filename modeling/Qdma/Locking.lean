/-
# Which locks a path takes

The functions that share exits between code that holds a lock and code that does not, each as the
sequence of lock operations along its path.  Other callers go on between its locked sections, so
each section finds a device of its own: `see` has it, by the place in the function.

`locks_balanced_iff` says which paths are balanced.  The others are in `locks_unbalanced`: three
exits are reached with a lock too many or too few, and one path follows a null pointer while it
holds a lock.
-/
import Qdma.LockTrace
import Qdma.Cdev

namespace Qdma

open LockTrace

/-! ## Locks -/

/-- The locks of these functions. -/
inductive KLock where
  | qdev
  | descq (id : ℕ)
  | wrk (i : ℕ)
  | wb (i : ℕ)
  | xdev
  | xpdevMutex
  | cdev
  | caio
  | h2c
  | c2h
  deriving DecidableEq

/-- A path through them. -/
abbrev LockPath := List (Op KLock)

/-- A null pointer is followed: the path ends, with the locks that are held. -/
def faulted : LockPath := []

/-! ## Looking a queue up -/

/-- `qdma_device_get_descq_by_id` with `init` set. -/
def getDescqLocks (x : QdmaDev) (id : ℕ) : LockPath :=
  if x.gone ∨ id ≥ 2 * x.qmax then [] else taken (.descq id)

/-! ## `qdma_queue_add` -/

/-- The places where it reads the device. -/
inductive AddPoint where
  | enter
  | counts
  | pair (i : ℕ)
  | queue (i : ℕ)

/-- The label `rewind_qcnt`. -/
def rewindLocks : LockPath := taken .qdev

/-- The queue is found: `qdma_device_prep_q_resource` is called. -/
def claimedLocks (c : AddCall) : LockPath :=
  taken .qdev ++ if c.prep < 0 then rewindLocks else []

/-- An exit with a message, and with the count taken back if it is not cut off. -/
def failedLocks (c : AddCall) (text : String) : LockPath :=
  if truncated c.buflen text then [] else rewindLocks

/-- The search for a free queue, from `i` on with `n` queues to go; what follows if it is found,
and if it is not. -/
def searchLocks (see : AddPoint → QdmaDev) (qconf : QueueConf) (found missed : LockPath) :
    ℕ → ℕ → LockPath
  | 0, _ => missed
  | n + 1, i =>
      let pairq := KLock.descq ((see .enter).queueId (!qconf.c2h) i)
      let descq := KLock.descq ((see .enter).queueId qconf.c2h i)
      [.lock pairq] ++
        if (see (.pair i)).modeClash qconf i then
          [.unlock pairq] ++ searchLocks see qconf found missed n (i + 1)
        else
          [.unlock pairq] ++ ([.lock descq] ++
            if ((see (.queue i)).descq ((see .enter).queueId qconf.c2h i)).enabled then
              [.unlock descq] ++ searchLocks see qconf found missed n (i + 1)
            else [.unlock descq] ++ found)

/-- The queue that is asked for. -/
def explicitLocks (see : AddPoint → QdmaDev) (c : AddCall) (qconf : QueueConf) : LockPath :=
  let i := qconf.qidx
  let pairq := KLock.descq ((see .enter).queueId (!qconf.c2h) i)
  let descq := KLock.descq ((see .enter).queueId qconf.c2h i)
  [.lock pairq] ++
    if (see (.pair i)).modeClash qconf i then [.unlock pairq] ++ failedLocks c sameModeText
    else
      [.unlock pairq] ++ ([.lock descq] ++
        if ((see (.queue i)).descq ((see .enter).queueId qconf.c2h i)).enabled then
          [.unlock descq] ++ failedLocks c (alreadyAddedText i)
        else [.unlock descq] ++ claimedLocks c)

/-- `qdma_queue_add`, on a device with this name.  Its exits with a message go to
`handle_truncation` if the message is cut off. -/
def queueAddLocks (see : AddPoint → QdmaDev) (name : String) (c : AddCall) : LockPath :=
  match c.qconf with
  | none => []
  | some qconf =>
      if !c.qhndl then
        if truncated c.buflen (noQhndlText name) then [] else [.unlock .qdev]
      else if (qconf.st && !(see .enter).stModeEn) || (!qconf.st && !(see .enter).mmModeEn) then []
      else if (see .enter).gone then faulted
      else
        let x := see .counts
        [.lock .qdev] ++
          if qconf.qidx ≠ qdmaQueueIdxInvalid ∧ qconf.qidx ≥ x.qmax then [.unlock .qdev]
          else if (if qconf.c2h then x.c2hQcnt else x.h2cQcnt) ≥ x.qmax then [.unlock .qdev]
          else
            [.unlock .qdev] ++
              if qconf.qidx = qdmaQueueIdxInvalid then
                searchLocks see qconf (claimedLocks c)
                  (failedLocks c ((see .enter).noQpText qconf.st)) (see .enter).qmax 0
              else explicitLocks see c qconf

/-! ## `qdma_queue_start` -/

/-- The places where it reads the device. -/
inductive StartPoint where
  | enter
  | check
  | alloc
  | thread (i : ℕ)
  | online

/-- What the functions it calls return. -/
structure StartRvs where
  config : ℤ := 0
  alloc : ℤ := 0
  progHw : ℤ := 0

/-- `desc_alloc_irq`. -/
def allocIrqLocks (x : QdmaDev) : LockPath :=
  if x.numVecs ≠ 0 ∧ !x.intrCoalEn then taken .xdev else []

/-- The loop of `qdma_thread_add_work`, from thread `i` on with `n` threads to go, and the thread
it ends with. -/
def pickThreadLocks (cnt : ℕ → ℕ) (threadCnt : ℕ) : ℕ → ℕ → ℕ → ℕ → LockPath × ℕ
  | 0, _, _, idx => ([], idx)
  | n + 1, i, v, idx =>
      if idx = threadCnt then
        let (ops, idx) := pickThreadLocks cnt threadCnt n (i + 1) (cnt i) i
        (taken (.wrk i) ++ ops, idx)
      else if cnt i = 0 then (taken (.wrk i), i)
      else
        let (ops, idx) := pickThreadLocks cnt threadCnt n (i + 1) v (if cnt i < v then i else idx)
        (taken (.wrk i) ++ ops, idx)

/-- `qdma_thread_add_work`. -/
def threadAddWorkLocks (see : StartPoint → QdmaDev) (id : ℕ) : LockPath :=
  let x := see .online
  let (ops, idx) := pickThreadLocks (fun i => ((see (.thread i)).wrk i).workCnt) x.threadCnt
    x.threadCnt 0 0 x.threadCnt
  ops ++ (taken (.wrk idx) ++
    ((if x.numVecs = 0 then taken (.wb (x.threadCnt - idx - 1)) else []) ++ taken (.descq id)))

/-- The queue is online: it is given to a thread, and to a vector. -/
def onlineLocks (see : StartPoint → QdmaDev) (id : ℕ) : LockPath :=
  threadAddWorkLocks see id ++ if (see .online).numVecs ≠ 0 then taken .xdev else []

/-- The labels `clear_context` and `free_resource`, which end in `unlock_descq`. -/
def freeResourceLocks (id : ℕ) : LockPath := [.unlock (.descq id)]

/-- `qdma_queue_start` once the queue is locked and the rings are there. -/
def progHwLocks (see : StartPoint → QdmaDev) (id : ℕ) (rv : StartRvs) : LockPath :=
  if rv.progHw < 0 then freeResourceLocks id else [.unlock (.descq id)] ++ onlineLocks see id

/-- `qdma_queue_start`. -/
def queueStartLocks (see : StartPoint → QdmaDev) (id : ℕ) (rv : StartRvs) : LockPath :=
  getDescqLocks (see .enter) id ++
    if ¬ (see .enter).Has id then []
    else if rv.config < 0 then freeResourceLocks id
    else
      let d := (see .check).descq id
      [.lock (.descq id)] ++
        if !d.enabled || d.inited || d.online then [.unlock (.descq id)]
        else if !d.inited then
          [.unlock (.descq id)] ++
            ((if rv.alloc < 0 then [] else allocIrqLocks (see .alloc)) ++
              ([.lock (.descq id)] ++
                if rv.alloc < 0 then freeResourceLocks id else progHwLocks see id rv))
        else progHwLocks see id rv

/-! ## `qdma_queue_reconfig` and `qdma_queue_list` -/

/-- `qdma_queue_reconfig`, with the device as it is when the queue is looked up, and then. -/
def queueReconfigLocks (x x' : QdmaDev) (id : ℕ) : LockPath :=
  getDescqLocks x id ++
    if ¬ x.Has id then []
    else
      let d := x'.descq id
      [.lock (.descq id)] ++
        if !d.enabled || d.inited || d.online then [.unlock (.descq id)] else [.unlock (.descq id)]

/-- The places where `qdma_queue_list` reads the device. -/
inductive ListPoint where
  | enter
  | head
  | h2c
  | c2h
  | queue (id : ℕ)

/-- A loop of it over `n` queues from `id` on; `cur` counts the bytes written so far, of `size`,
and `dump` is what `qdma_descq_dump` returns. -/
def listLoopLocks (see : ListPoint → QdmaDev) (dump : ℕ → ℤ) (size : ℤ) :
    ℕ → ℕ → ℤ → LockPath × Option ℤ
  | 0, _, cur => ([], some cur)
  | n + 1, id, cur =>
      let cur := if ((see (.queue id)).descq id).enabled then cur + dump id else cur
      if cur ≥ size then (taken (.descq id), none)
      else
        let (ops, r) := listLoopLocks see dump size n (id + 1) cur
        (taken (.descq id) ++ ops, r)

/-- The first line of the list. -/
def qcntText (x : QdmaDev) : String :=
  "H2C Q: " ++ toString x.h2cQcnt ++ ", C2H Q: " ++ toString x.c2hQcnt ++ ".\n"

/-- `qdma_queue_list`. -/
def queueListLocks (see : ListPoint → QdmaDev) (buflen : Option ℕ) (dump : ℕ → ℤ) : LockPath :=
  if (see .enter).gone then []
  else
    match buflen with
    | none | some 0 => []
    | some size =>
        let qmax := (see .enter).qmax
        let cur : ℤ := (qcntText (see .head)).length
        if cur ≥ size then []
        else
          let (ops, r) :=
            if (see .h2c).h2cQcnt ≠ 0 then listLoopLocks see dump size qmax 0 cur
            else ([], some cur)
          ops ++
            match r with
            | none => []
            | some cur =>
                if (see .c2h).c2hQcnt ≠ 0 then (listLoopLocks see dump size qmax qmax cur).1 else []

/-! ## `xpdev_list_dump` -/

/-- A device on `xpdev_list`: its line, or, if `qdma_device_get_config` fails, what `snprintf`
returns for the message; its size is given as `cur - end` there, which is negative. -/
inductive ListedDev where
  | line (text : String)
  | noConf (printed : ℕ)

/-- Its loop, with `cur` bytes written. -/
def dumpLoopLocks (size : ℕ) : List ListedDev → ℕ → LockPath
  | [], _ => [.unlock .xpdevMutex]
  | .noConf printed :: _, cur =>
      if cur + printed ≥ size then [] else [.unlock .xpdevMutex]
  | .line text :: devs, cur =>
      if cur + text.length ≥ size then [] else dumpLoopLocks size devs (cur + text.length)

/-- `xpdev_list_dump`. -/
def xpdevListDumpLocks (buflen : Option ℕ) (devs : List ListedDev) : LockPath :=
  match buflen with
  | none | some 0 => []
  | some size => [.lock .xpdevMutex] ++ dumpLoopLocks size devs 0

/-! ## Queues of the front end -/

/-- `xpdev_queue_add`, where `qdma_device_prep_q_resource` returns `prep` and `qdma_queue_add`
`rv`, with the index and the front end as they are then. -/
def xpdevQueueAddLocks (see : AddPoint → QdmaDev) (name : String) (c : XpAdd) (prep rv : ℤ)
    (qidx : ℕ) (x : XpDev) : LockPath :=
  queueAddLocks see name { c.call with prep := prep } ++
    if rv < 0 then []
    else
      match x.queueGet qidx c.qconf.c2h false with
      | .error _ => []
      | .ok _ =>
          [.lock .cdev] ++
            match x.queueGet qidx (!c.qconf.c2h) false with
            | .error _ => [.unlock .cdev]
            | .ok tmp =>
                match (x.qdata tmp).xcdev with
                | some _ => [.unlock .cdev]
                | none => [.unlock .cdev]

/-- `qdma_descq_cleanup`. -/
def descqCleanupLocks (x : QdmaDev) (id : ℕ) : LockPath :=
  [.lock (.descq id)] ++ ((if x.numVecs ≠ 0 then taken .xdev else []) ++ [.unlock (.descq id)])

/-- `qdma_queue_remove`. -/
def queueRemoveLocks (x : QdmaDev) (id : ℕ) : LockPath :=
  getDescqLocks x id ++
    if ¬ x.Has id then []
    else
      taken (.descq id) ++ (descqCleanupLocks x id ++ (taken (.descq id) ++ taken .qdev))

/-- `xpdev_queue_delete`, with the device as `qdma_queue_remove` finds it.  Without a character
device it follows a null pointer. -/
def xpdevQueueDeleteLocks (x : XpDev) (dev : QdmaDev) (qidx : ℕ) (c2h : Bool) : LockPath :=
  match x.queueGet qidx c2h true with
  | .error _ => []
  | .ok n =>
      [.lock .cdev] ++
        match (x.qdata n).xcdev with
        | none => faulted
        | some _ =>
            [.unlock .cdev] ++
              if (x.qdata n).qhndl ≠ qdmaQueueIdxInvalid then
                queueRemoveLocks dev (x.qdata n).qhndl
              else []

/-! ## `async_io_handler` -/

/-- What it finds: its object, whether the locks are free, and the file's device. -/
structure AioSees where
  caio : Bool := true
  caioFree : Bool
  cancel : Bool
  xcdev : Bool
  write : Bool
  aioFree : Bool

/-- `async_io_handler`. -/
def asyncIoHandlerLocks (s : AioSees) : LockPath :=
  if !s.caio then []
  else if !s.caioFree then []
  else
    [.lock .caio] ++
      if s.cancel then [.unlock .caio]
      else if !s.xcdev then []
      else
        let aioLock := if s.write then KLock.h2c else .c2h
        if !s.aioFree then [.unlock .caio]
        else [.lock aioLock] ++ ([.unlock aioLock] ++ [.unlock .caio])

/-! ## All of them -/

/-- A call, with what it finds and what the functions it calls return. -/
inductive LockCall where
  | queueAdd (see : AddPoint → QdmaDev) (name : String) (c : AddCall)
  | queueStart (see : StartPoint → QdmaDev) (id : ℕ) (rv : StartRvs)
  | queueReconfig (x x' : QdmaDev) (id : ℕ)
  | queueList (see : ListPoint → QdmaDev) (buflen : Option ℕ) (dump : ℕ → ℤ)
  | xpdevListDump (buflen : Option ℕ) (devs : List ListedDev)
  | xpdevQueueAdd (see : AddPoint → QdmaDev) (name : String) (c : XpAdd) (prep rv : ℤ) (qidx : ℕ)
      (x : XpDev)
  | xpdevQueueDelete (x : XpDev) (dev : QdmaDev) (qidx : ℕ) (c2h : Bool)
  | asyncIoHandler (s : AioSees)

/-- Its path. -/
def LockCall.path : LockCall → LockPath
  | .queueAdd see name c => queueAddLocks see name c
  | .queueStart see id rv => queueStartLocks see id rv
  | .queueReconfig x x' id => queueReconfigLocks x x' id
  | .queueList see buflen dump => queueListLocks see buflen dump
  | .xpdevListDump buflen devs => xpdevListDumpLocks buflen devs
  | .xpdevQueueAdd see name c prep rv qidx x => xpdevQueueAddLocks see name c prep rv qidx x
  | .xpdevQueueDelete x dev qidx c2h => xpdevQueueDeleteLocks x dev qidx c2h
  | .asyncIoHandler s => asyncIoHandlerLocks s

/-- The bytes of the list, up to the first device without a configuration. -/
def dumpLen : List ListedDev → ℕ
  | [] => 0
  | .noConf printed :: _ => printed
  | .line text :: devs => text.length + dumpLen devs

/-- **When the locks come out even**: there is a place for the handle, or no configuration, or a
message about it that is cut off; a queue that is started can be configured; the list of devices
fits the buffer; a queue that is deleted has a character device; and a file that is open has one
when its request is not cancelled. -/
def LockCall.Ok : LockCall → Prop
  | .queueAdd _ name c =>
      c.qconf = none ∨ c.qhndl = true ∨ truncated c.buflen (noQhndlText name) = true
  | .queueStart see id rv => (see .enter).Has id → 0 ≤ rv.config
  | .xpdevListDump (some (n + 1)) devs => dumpLen devs < n + 1
  | .xpdevQueueDelete x _ qidx c2h =>
      ∀ n, x.queueGet qidx c2h true = .ok n → (x.qdata n).xcdev ≠ none
  | .asyncIoHandler s =>
      s.caio = true → s.caioFree = true → s.cancel = false → s.xcdev = true
  | _ => True

/-! ## Sections -/

/-- A section that ends before the rest. -/
theorem section_iff (l : KLock) (ops : LockPath) :
    Balanced ([.lock l] ++ ([.unlock l] ++ ops)) ↔ Balanced ops :=
  (balanced_taken l).append_iff

theorem balanced_section (l : KLock) : Balanced ([.lock l] ++ [.unlock l]) := balanced_taken l

theorem getDescqLocks_balanced (x : QdmaDev) (id : ℕ) : Balanced (getDescqLocks x id) := by
  unfold getDescqLocks
  by_cases h : x.gone ∨ id ≥ 2 * x.qmax
  · rw [if_pos h]
    exact balanced_nil
  · rw [if_neg h]
    exact balanced_taken _

/-- A section that is there or not. -/
theorem balanced_ite_taken (p : Prop) [Decidable p] (l : KLock) :
    Balanced (if p then taken l else []) := by
  by_cases h : p
  · rw [if_pos h]
    exact balanced_taken l
  · rw [if_neg h]
    exact balanced_nil

/-! ## Adding -/

theorem claimedLocks_balanced (c : AddCall) : Balanced (claimedLocks c) :=
  (balanced_taken _).append (balanced_ite_taken _ _)

theorem failedLocks_balanced (c : AddCall) (text : String) : Balanced (failedLocks c text) := by
  unfold failedLocks
  by_cases h : truncated c.buflen text = true
  · rw [if_pos h]
    exact balanced_nil
  · rw [if_neg h]
    exact balanced_taken _

/-- Each round of the search is even. -/
theorem searchLocks_balanced (see : AddPoint → QdmaDev) (qconf : QueueConf)
    {found missed : LockPath} (hf : Balanced found) (hm : Balanced missed) (n i : ℕ) :
    Balanced (searchLocks see qconf found missed n i) := by
  induction n generalizing i with
  | zero => exact hm
  | succ n ih =>
      unfold searchLocks
      simp only
      by_cases hclash : (see (.pair i)).modeClash qconf i = true
      · rw [if_pos hclash, section_iff]
        exact ih (i + 1)
      rw [if_neg hclash, section_iff]
      by_cases hen : ((see (.queue i)).descq ((see .enter).queueId qconf.c2h i)).enabled = true
      · rw [if_pos hen, section_iff]
        exact ih (i + 1)
      · rw [if_neg hen, section_iff]
        exact hf

theorem explicitLocks_balanced (see : AddPoint → QdmaDev) (c : AddCall) (qconf : QueueConf) :
    Balanced (explicitLocks see c qconf) := by
  unfold explicitLocks
  simp only
  by_cases hclash : (see (.pair qconf.qidx)).modeClash qconf qconf.qidx = true
  · rw [if_pos hclash, section_iff]
    exact failedLocks_balanced c _
  rw [if_neg hclash, section_iff]
  by_cases hen : ((see (.queue qconf.qidx)).descq
      ((see .enter).queueId qconf.c2h qconf.qidx)).enabled = true
  · rw [if_pos hen, section_iff]
    exact failedLocks_balanced c _
  · rw [if_neg hen, section_iff]
    exact claimedLocks_balanced c

/-- **`qdma_queue_add`.** -/
theorem queueAddLocks_iff (see : AddPoint → QdmaDev) (name : String) (c : AddCall) :
    Balanced (queueAddLocks see name c) ↔
      c.qconf = none ∨ c.qhndl = true ∨ truncated c.buflen (noQhndlText name) = true := by
  unfold queueAddLocks
  cases hconf : c.qconf with
  | none => exact iff_of_true balanced_nil (.inl rfl)
  | some qconf =>
  simp only
  rw [or_iff_right (Option.some_ne_none qconf)]
  cases hq : c.qhndl with
  | false =>
      rw [if_pos (show (!false) = true from rfl), or_iff_right Bool.false_ne_true]
      -- the function unlocks without having locked, unless the message was cut
      by_cases htrunc : truncated c.buflen (noQhndlText name) = true
      · rw [if_pos htrunc]
        exact iff_of_true balanced_nil htrunc
      · rw [if_neg htrunc]
        exact iff_of_false (not_balanced_unlock _ _) htrunc
  | true =>
  rw [if_neg (show ¬ (!true) = true by decide)]
  -- with a place for the handle every path gives the lock back
  refine iff_of_true ?_ (.inl rfl)
  by_cases hmode : ((qconf.st && !(see .enter).stModeEn) ||
      (!qconf.st && !(see .enter).mmModeEn)) = true
  · rw [if_pos hmode]
    exact balanced_nil
  rw [if_neg hmode]
  by_cases hgone : (see .enter).gone = true
  · rw [if_pos hgone]
    exact balanced_nil
  rw [if_neg hgone]
  by_cases hidx : qconf.qidx ≠ qdmaQueueIdxInvalid ∧ qconf.qidx ≥ (see .counts).qmax
  · rw [if_pos hidx]
    exact balanced_section _
  rw [if_neg hidx]
  by_cases hfull : (if qconf.c2h then (see .counts).c2hQcnt else (see .counts).h2cQcnt)
      ≥ (see .counts).qmax
  · rw [if_pos hfull]
    exact balanced_section _
  rw [if_neg hfull, section_iff]
  by_cases hinv : qconf.qidx = qdmaQueueIdxInvalid
  · rw [if_pos hinv]
    exact searchLocks_balanced see qconf (claimedLocks_balanced c) (failedLocks_balanced c _) _ _
  · rw [if_neg hinv]
    exact explicitLocks_balanced see c qconf

/-! ## Starting -/

theorem pickThreadLocks_balanced (cnt : ℕ → ℕ) (threadCnt n i v idx : ℕ) :
    Balanced (pickThreadLocks cnt threadCnt n i v idx).1 := by
  induction n generalizing i v idx with
  | zero => exact balanced_nil
  | succ n ih =>
      unfold pickThreadLocks
      by_cases hfirst : idx = threadCnt
      · rw [if_pos hfirst]
        exact (balanced_taken _).append (ih _ _ _)
      rw [if_neg hfirst]
      by_cases hidle : cnt i = 0
      · rw [if_pos hidle]
        exact balanced_taken _
      · rw [if_neg hidle]
        exact (balanced_taken _).append (ih _ _ _)

theorem onlineLocks_balanced (see : StartPoint → QdmaDev) (id : ℕ) :
    Balanced (onlineLocks see id) := by
  unfold onlineLocks threadAddWorkLocks
  refine Balanced.append ?_ (balanced_ite_taken _ _)
  refine (pickThreadLocks_balanced _ _ _ _ _ _).append ((balanced_taken _).append ?_)
  exact (balanced_ite_taken _ _).append (balanced_taken _)

/-- With the lock held, both ends release it. -/
theorem progHwLocks_balanced (see : StartPoint → QdmaDev) (id : ℕ) (rv : StartRvs) :
    Balanced ([.lock (.descq id)] ++ progHwLocks see id rv) := by
  unfold progHwLocks
  by_cases hrv : rv.progHw < 0
  · rw [if_pos hrv]
    exact balanced_section _
  · rw [if_neg hrv, section_iff]
    exact onlineLocks_balanced see id

/-- **`qdma_queue_start`.** -/
theorem queueStartLocks_iff (see : StartPoint → QdmaDev) (id : ℕ) (rv : StartRvs) :
    Balanced (queueStartLocks see id rv) ↔ ((see .enter).Has id → 0 ≤ rv.config) := by
  unfold queueStartLocks
  rw [(getDescqLocks_balanced _ _).append_iff]
  by_cases hhas : (see .enter).Has id
  swap
  · rw [if_pos hhas]
    exact iff_of_true balanced_nil (fun h => absurd h hhas)
  rw [if_neg (not_not.mpr hhas)]
  by_cases hcfg : rv.config < 0
  · rw [if_pos hcfg]
    exact iff_of_false (not_balanced_unlock _ _) (fun h => absurd (h hhas) (not_le.mpr hcfg))
  rw [if_neg hcfg]
  refine iff_of_true ?_ (fun _ => not_lt.mp hcfg)
  simp only
  by_cases hbad : (!((see .check).descq id).enabled || ((see .check).descq id).inited ||
      ((see .check).descq id).online) = true
  · rw [if_pos hbad]
    exact balanced_section _
  rw [if_neg hbad]
  by_cases hinit : (!((see .check).descq id).inited) = true
  · rw [if_pos hinit, section_iff]
    refine Balanced.append ?_ ?_
    · by_cases halloc : rv.alloc < 0
      · rw [if_pos halloc]
        exact balanced_nil
      · rw [if_neg halloc]
        exact balanced_ite_taken _ _
    · by_cases halloc : rv.alloc < 0
      · rw [if_pos halloc]
        exact balanced_section _
      · rw [if_neg halloc]
        exact progHwLocks_balanced see id rv
  · rw [if_neg hinit]
    exact progHwLocks_balanced see id rv

/-! ## Reconfiguring and listing -/

theorem queueReconfigLocks_balanced (x x' : QdmaDev) (id : ℕ) :
    Balanced (queueReconfigLocks x x' id) := by
  unfold queueReconfigLocks
  refine (getDescqLocks_balanced _ _).append ?_
  by_cases hhas : x.Has id
  · rw [if_neg (not_not.mpr hhas)]
    simp only [ite_self]
    exact balanced_section _
  · rw [if_pos hhas]
    exact balanced_nil

theorem listLoopLocks_balanced (see : ListPoint → QdmaDev) (dump : ℕ → ℤ) (size : ℤ) (n id : ℕ)
    (cur : ℤ) : Balanced (listLoopLocks see dump size n id cur).1 := by
  induction n generalizing id cur with
  | zero => exact balanced_nil
  | succ n ih =>
      unfold listLoopLocks
      simp only
      by_cases hfull : (if ((see (.queue id)).descq id).enabled then cur + dump id else cur) ≥ size
      · rw [if_pos hfull]
        exact balanced_taken _
      · rw [if_neg hfull]
        exact (balanced_taken _).append (ih _ _)

/-- **`qdma_queue_list`.** -/
theorem queueListLocks_balanced (see : ListPoint → QdmaDev) (buflen : Option ℕ) (dump : ℕ → ℤ) :
    Balanced (queueListLocks see buflen dump) := by
  unfold queueListLocks
  by_cases hgone : (see .enter).gone = true
  · rw [if_pos hgone]
    exact balanced_nil
  rw [if_neg hgone]
  split
  · exact balanced_nil
  · exact balanced_nil
  · next size _ =>
      simp only
      by_cases hfull : ((qcntText (see .head)).length : ℤ) ≥ size
      · rw [if_pos hfull]
        exact balanced_nil
      rw [if_neg hfull]
      refine Balanced.append ?_ ?_
      · by_cases hh2c : (see .h2c).h2cQcnt ≠ 0
        · rw [if_pos hh2c]
          exact listLoopLocks_balanced _ _ _ _ _ _
        · rw [if_neg hh2c]
          exact balanced_nil
      · split
        · exact balanced_nil
        · next cur _ =>
            by_cases hc2h : (see .c2h).c2hQcnt ≠ 0
            · rw [if_pos hc2h]
              exact listLoopLocks_balanced _ _ _ _ _ _
            · rw [if_neg hc2h]
              exact balanced_nil

/-! ## The list of devices -/

/-- The mutex is released unless the text is cut off. -/
theorem dumpLoopLocks_iff (size : ℕ) (devs : List ListedDev) (cur : ℕ) (hcur : cur < size) :
    Balanced ([.lock .xpdevMutex] ++ dumpLoopLocks size devs cur) ↔ cur + dumpLen devs < size := by
  induction devs generalizing cur with
  | nil => exact iff_of_true (balanced_section _) hcur
  | cons dev devs ih =>
      cases dev with
      | noConf printed =>
          unfold dumpLoopLocks dumpLen
          by_cases hfull : cur + printed ≥ size
          · rw [if_pos hfull]
            exact iff_of_false (not_balanced_lock _) (not_lt.mpr hfull)
          · rw [if_neg hfull]
            exact iff_of_true (balanced_section _) (not_le.mp hfull)
      | line text =>
          unfold dumpLoopLocks dumpLen
          by_cases hfull : cur + text.length ≥ size
          · rw [if_pos hfull]
            exact iff_of_false (not_balanced_lock _) (by omega)
          · rw [if_neg hfull, ih _ (not_le.mp hfull), Nat.add_assoc]

/-- **`xpdev_list_dump`.** -/
theorem xpdevListDumpLocks_iff (buflen : Option ℕ) (devs : List ListedDev) :
    Balanced (xpdevListDumpLocks buflen devs) ↔
      ∀ n, buflen = some (n + 1) → dumpLen devs < n + 1 := by
  cases buflen with
  | none => exact iff_of_true balanced_nil (fun n h => absurd h.symm (Option.some_ne_none (n + 1)))
  | some size =>
      cases size with
      | zero =>
          refine iff_of_true balanced_nil ?_
          intro n h
          exact absurd (Option.some.inj h).symm n.succ_ne_zero
      | succ n =>
          refine (dumpLoopLocks_iff (n + 1) devs 0 n.succ_pos).trans ?_
          rw [Nat.zero_add]
          constructor
          · rintro h m hm
            obtain rfl := Nat.succ.inj (Option.some.inj hm)
            exact h
          · intro h
            exact h n rfl

/-! ## Queues of the front end -/

/-- **`xpdev_queue_add`.**  It always has a place for the handle. -/
theorem xpdevQueueAddLocks_balanced (see : AddPoint → QdmaDev) (name : String) (c : XpAdd)
    (prep rv : ℤ) (qidx : ℕ) (x : XpDev) :
    Balanced (xpdevQueueAddLocks see name c prep rv qidx x) := by
  unfold xpdevQueueAddLocks
  refine Balanced.append ?_ ?_
  · exact (queueAddLocks_iff see name { c.call with prep := prep }).mpr (.inr (.inl rfl))
  by_cases hrv : rv < 0
  · rw [if_pos hrv]
    exact balanced_nil
  rw [if_neg hrv]
  cases x.queueGet qidx c.qconf.c2h false with
  | error _ => exact balanced_nil
  | ok _ =>
      cases x.queueGet qidx (!c.qconf.c2h) false with
      | error _ => exact balanced_section _
      | ok tmp =>
          simp only
          cases (x.qdata tmp).xcdev with
          | none => exact balanced_section _
          | some _ => exact balanced_section _

theorem descqCleanupLocks_balanced (x : QdmaDev) (id : ℕ) : Balanced (descqCleanupLocks x id) := by
  unfold descqCleanupLocks
  by_cases hvecs : x.numVecs ≠ 0
  · rw [if_pos hvecs]
    exact balanced_nested KLock.noConfusion
  · rw [if_neg hvecs]
    exact balanced_section _

/-- `qdma_queue_remove` takes one lock after the other. -/
theorem queueRemoveLocks_balanced (x : QdmaDev) (id : ℕ) : Balanced (queueRemoveLocks x id) := by
  unfold queueRemoveLocks
  refine (getDescqLocks_balanced _ _).append ?_
  by_cases hhas : x.Has id
  · rw [if_neg (not_not.mpr hhas)]
    refine (balanced_taken _).append ((descqCleanupLocks_balanced x id).append ?_)
    exact (balanced_taken _).append (balanced_taken _)
  · rw [if_pos hhas]
    exact balanced_nil

/-- **`xpdev_queue_delete`.** -/
theorem xpdevQueueDeleteLocks_iff (x : XpDev) (dev : QdmaDev) (qidx : ℕ) (c2h : Bool) :
    Balanced (xpdevQueueDeleteLocks x dev qidx c2h) ↔
      ∀ n, x.queueGet qidx c2h true = .ok n → (x.qdata n).xcdev ≠ none := by
  unfold xpdevQueueDeleteLocks
  cases hget : x.queueGet qidx c2h true with
  | error _ => exact iff_of_true balanced_nil nofun
  | ok n =>
  simp only
  cases hcdev : (x.qdata n).xcdev with
  | none => exact iff_of_false (not_balanced_lock _) (fun h => h n rfl hcdev)
  | some k =>
      refine iff_of_true ?_ ?_
      · rw [section_iff]
        by_cases hq : (x.qdata n).qhndl ≠ qdmaQueueIdxInvalid
        · rw [if_pos hq]
          exact queueRemoveLocks_balanced _ _
        · rw [if_neg hq]
          exact balanced_nil
      · rintro m hm
        obtain rfl := Except.ok.inj hm
        rw [hcdev]
        exact Option.some_ne_none k

/-! ## Requests of the character devices -/

/-- **`async_io_handler`.** -/
theorem asyncIoHandlerLocks_iff (s : AioSees) :
    Balanced (asyncIoHandlerLocks s) ↔
      (s.caio = true → s.caioFree = true → s.cancel = false → s.xcdev = true) := by
  obtain ⟨caio, caioFree, cancel, xcdev, write, aioFree⟩ := s
  unfold asyncIoHandlerLocks
  cases caio with
  | false => exact iff_of_true balanced_nil (fun h => Bool.noConfusion h)
  | true =>
  cases caioFree with
  | false => exact iff_of_true balanced_nil (fun _ h => Bool.noConfusion h)
  | true =>
  cases cancel with
  | true => exact iff_of_true (balanced_section _) (fun _ _ h => Bool.noConfusion h)
  | false =>
  cases xcdev with
  | false => exact iff_of_false (not_balanced_lock _) (fun h => Bool.noConfusion (h rfl rfl rfl))
  | true =>
  refine iff_of_true ?_ (fun _ _ _ => rfl)
  cases aioFree with
  | false => exact balanced_section _
  | true =>
      cases write with
      | false => exact balanced_nested KLock.noConfusion
      | true => exact balanced_nested KLock.noConfusion

/-! ## All of them -/

/-- **A path releases what it takes**, once, and ends with nothing held, just when the call is
`Ok`: for every input, whatever the functions it calls return and other callers do. -/
theorem locks_balanced_iff (c : LockCall) : Balanced c.path ↔ c.Ok := by
  cases c with
  | queueAdd see name c => exact queueAddLocks_iff see name c
  | queueStart see id rv => exact queueStartLocks_iff see id rv
  | queueReconfig x x' id => exact iff_of_true (queueReconfigLocks_balanced x x' id) trivial
  | queueList see buflen dump => exact iff_of_true (queueListLocks_balanced see buflen dump) trivial
  | xpdevListDump buflen devs =>
      refine (xpdevListDumpLocks_iff buflen devs).trans ?_
      match buflen with
      | none => exact iff_of_true nofun trivial
      | some 0 => exact iff_of_true (fun _ h => Nat.noConfusion (Option.some.inj h)) trivial
      | some (n + 1) =>
          constructor
          · intro h
            exact h n rfl
          · rintro (h : dumpLen devs < n + 1) m hm
            obtain rfl := Nat.succ.inj (Option.some.inj hm)
            exact h
  | xpdevQueueAdd see name c prep rv qidx x =>
      exact iff_of_true (xpdevQueueAddLocks_balanced see name c prep rv qidx x) trivial
  | xpdevQueueDelete x dev qidx c2h => exact xpdevQueueDeleteLocks_iff x dev qidx c2h
  | asyncIoHandler s => exact asyncIoHandlerLocks_iff s

/-- `qdma_queue_add` without a place for the handle; `qdma_queue_start` of a queue that cannot be
configured; a device listed in 20 bytes; the deletion of a queue that has a handle and no character
device; and a request on a file that has no device. -/
theorem locks_unbalanced :
    run [] (LockCall.queueAdd (fun _ => pairDev 2) "qdma0"
      { qconf := some {}, qhndl := false }).path = none ∧
    run [] (LockCall.queueStart
      (fun _ => (pairDev 2).setDescq 0 { ((pairDev 2).descq 0) with enabled := true }) 0
      { config := -1 }).path = none ∧
    run [] (LockCall.xpdevListDump (some 20)
      [.line "qdma0\t0000:01:00.0\tmax QP: 4, 0~3\n"]).path
      = some [.xpdevMutex] ∧
    run [] (LockCall.xpdevQueueDelete
      ((XpDev.probeOne (fourPairs false)).setQdata 0 { qhndl := 1 }) (pairDev 2) 0 false).path
      = some [.cdev] ∧
    run [] (LockCall.asyncIoHandler
      { caioFree := true, cancel := false, xcdev := false, write := false, aioFree := true }).path
      = some [.caio] := by
  decide +kernel

end Qdma
