/-
# Queue commands

`xnl_q_start`, `xnl_q_stop` and `xnl_q_del` go through the queues of a command, which names them by
an index, a number and the directions.  The index passes through a field of 16 bits, and so do the
number and, again, the loop variable.

`queueLoop` is the loop that they share with `xnl_q_add`.  `queueLoop_eq_sweep` says which queues it
comes to.
-/
import Qdma.Cdev
import Qdma.StartCmd
import Qdma.Sweep

namespace Qdma

open Sweep

/-! ## The library -/

/-- What the library does with a handle for the commands, and what it returns:
`qdma_queue_reconfig`, `qdma_queue_start`, `qdma_queue_stop` and `qdma_queue_remove`. -/
structure QueueLib where
  reconfig : IdDev → ℕ → StartConf → IdDev × ℤ
  start : IdDev → ℕ → IdDev × ℤ
  stop : IdDev → ℕ → IdDev × ℤ
  remove : IdDev → ℕ → IdDev × ℤ

/-- What `qdma_queue_reconfig` returns. -/
def QdmaDev.queueReconfigRv (x : QdmaDev) (id : ℕ) (qconf : QueueConf) : ℤ :=
  if x.Has id then (descqReconfig (x.descq id) qconf x.numVecs).2 else qdmaErrInvalidQidx

/-- What `qdma_queue_stop` returns. -/
def QdmaDev.queueStopRv (x : QdmaDev) (id : ℕ) : ℤ :=
  if x.Has id then 0 else qdmaErrInvalidQidx

/-- The library, by the answers of the kernel and the hardware for a handle. -/
def qdmaLib (env : ℕ → StartEnv) (ctxCleared : ℕ → Bool) : QueueLib where
  reconfig s h qconf :=
    (s.step (.reconfig h qconf.toQueueConf), s.dev.queueReconfigRv h qconf.toQueueConf)
  start s h := (s.step (.start h (env h)), (s.dev.queueStart h (env h)).2)
  stop s h := (s.step (.stop h (ctxCleared h)), s.dev.queueStopRv h)
  remove s h := (s.step (.remove h (ctxCleared h)), s.dev.queueRemoveRv h)

/-! ## The state of a command -/

/-- What is sent: a text, or what the library has left in `buf`. -/
inductive Sent where
  | text (s : String)
  | buf

/-- A queue that has been operated on, with its handle and the result. -/
structure Touched where
  q : QRef
  qhndl : ℕ
  rv : ℤ

structure CmdState where
  dev : XpDev
  sent : List Sent := []
  touched : List Touched := []

/-- The way on, behind a call of the library. -/
def fateOf (rv : ℤ) : Fate := if rv < 0 then .failed else .passed

theorem fateOf_passed {rv : ℤ} : fateOf rv = .passed ↔ 0 ≤ rv := by
  unfold fateOf
  split_ifs with h
  · exact iff_of_false (by decide) (Int.not_le.mpr h)
  · exact iff_of_true rfl (Int.not_lt.mp h)

/-- The library has operated on the queue of `qconf`. -/
def CmdState.record (s : CmdState) (qconf : StartConf) (dev : XpDev) (qhndl : ℕ) (rv : ℤ) :
    CmdState × Fate :=
  ({ s with
      dev := dev
      touched := s.touched ++ [{ q := (qconf.c2h, qconf.qidx), qhndl := qhndl, rv := rv }] },
    fateOf rv)

/-! ## Functions -/

/-- `xnl_rcv_check_qidx`, with what it responds. -/
def xnlRcvCheckQidx (x : XpDev) (qconf : StartConf) : Except String ℕ :=
  match x.queueGet qconf.qidx qconf.c2h true with
  | .ok n => .ok n
  | .error _ => .error ("ERR! qidx " ++ toString qconf.qidx ++ " invalid.\n")

/-- The body of `xnl_q_start`. -/
def startQ (lib : QueueLib) (s : CmdState) (qconf : StartConf) : CmdState × Fate :=
  match xnlRcvCheckQidx s.dev qconf with
  | .error ebuf => ({ s with sent := s.sent ++ [.text ebuf] }, .refused)
  | .ok n =>
      let qhndl := (s.dev.qdata n).qhndl
      let (l, rv) := lib.reconfig s.dev.lib qhndl qconf
      let (l, rv) := if rv < 0 then (l, rv) else lib.start l qhndl
      s.record qconf { s.dev with lib := l } qhndl rv

/-- The body of `xnl_q_stop`. -/
def stopQ (lib : QueueLib) (s : CmdState) (qconf : StartConf) : CmdState × Fate :=
  match xnlRcvCheckQidx s.dev qconf with
  | .error ebuf => ({ s with sent := s.sent ++ [.text ebuf] }, .refused)
  | .ok n =>
      let qhndl := (s.dev.qdata n).qhndl
      let (l, rv) := lib.stop s.dev.lib qhndl
      s.record qconf { s.dev with lib := l } qhndl rv

/-- What `xpdev_queue_delete` does to the character device. -/
def XpDev.dropDir (x : XpDev) (xcdev : Option ℕ) (c2h : Bool) : XpDev :=
  match xcdev with
  | none => { x with badAccess := true }
  | some k =>
      let x := x.touch k
      let x := x.setCdev k ((x.cdevs k).clearDir c2h)
      if (x.cdevs k).dirInit = 0 then x.cdevDestroy k else x

/-- The body of `xnl_q_del`, which is `xpdev_queue_delete`. -/
def delQ (lib : QueueLib) (s : CmdState) (qconf : StartConf) : CmdState × Fate :=
  match s.dev.queueGet qconf.qidx qconf.c2h true with
  | .error _ => (s, .refused)
  | .ok n =>
      let qd := s.dev.qdata n
      let x := s.dev.dropDir qd.xcdev qconf.c2h
      let (l, rv) :=
        if qd.qhndl ≠ qdmaQueueIdxInvalid then lib.remove x.lib qd.qhndl else (x.lib, 0)
      s.record qconf (({ x with lib := l }).setQdata n {}) qd.qhndl rv

/-- The loop of a command, `n` times from `i` on.  `body` is what stands between the label and the
test for a pair; behind the test the label is jumped to, once, with the other direction. -/
def queueLoop {S : Type} (body : ℕ → S → StartConf → (S × StartConf) × Fate) (isQp isC2h : Bool) :
    ℕ → ℕ → S → StartConf → S × Fate
  | 0, _, s, _ => (s, .passed)
  | n + 1, i, s, qconf =>
      match body i s { qconf with c2h := isC2h } with
      | ((s, qconf), .passed) =>
          if isQp && (isC2h == qconf.c2h) then
            match body i s { qconf with c2h := !qconf.c2h } with
            | ((s, qconf), .passed) => queueLoop body isQp isC2h n (i + 1) s qconf
            | ((s, _), v) => (s, v)
          else queueLoop body isQp isC2h n (i + 1) s qconf
      | ((s, _), v) => (s, v)

/-- The body with the index. -/
def atIdx (op : CmdState → StartConf → CmdState × Fate) (i : ℕ) (s : CmdState)
    (qconf : StartConf) : (CmdState × StartConf) × Fate :=
  let qconf := { qconf with qidx := i % 2 ^ 16 }
  let (s, v) := op s qconf
  ((s, qconf), v)

/-- A command from its loop on: what it leaves, and whether it has come to the end. -/
def loopAndSend (op : CmdState → StartConf → CmdState × Fate) (word : String) (numQ : ℕ)
    (isQp : Bool) (qconf : StartConf) (x : XpDev) : CmdState × Bool :=
  match queueLoop (atIdx op) isQp qconf.c2h numQ qconf.qidx { dev := x } qconf with
  | (s, .passed) =>
      let last : ℤ := qconf.qidx + numQ - 1
      ({ s with
          sent := s.sent ++ [.text (word ++ " Queues " ++ toString qconf.qidx ++ " -> " ++
            toString last ++ ".\n")] }, true)
  | (s, _) => ({ s with sent := s.sent ++ [.buf] }, false)

/-- A command on a device that is there.  `noNumQ` is sent if there is no number of queues. -/
def queueCmd (op : CmdState → StartConf → CmdState × Fate) (word : String)
    (noNumQ : ℕ → List Sent) (extract : InfoAttrs → StartConf → StartConf) (attrs : InfoAttrs)
    (x : XpDev) : CmdState × Bool :=
  match qconfGet attrs with
  | .error (_, err) => ({ dev := x, sent := [.text err, .text err] }, false)
  | .ok (qconf, isQp) =>
      match attrs xnlAttrNumQ with
      | none => ({ dev := x, sent := noNumQ qconf.qidx }, false)
      | some v => loopAndSend op word (v % 2 ^ 16) isQp (extract attrs qconf) x

/-- `xnl_q_start`. -/
def xnlQStart (lib : QueueLib) : InfoAttrs → XpDev → CmdState × Bool :=
  queueCmd (startQ lib) "Started"
    (fun qidx => [.text ("Missing attribute NUM_Q for qidx = " ++ toString qidx ++ "\n")])
    xnlExtractExtraConfigAttr

/-- `xnl_q_stop`. -/
def xnlQStop (lib : QueueLib) : InfoAttrs → XpDev → CmdState × Bool :=
  queueCmd (stopQ lib) "Stopped" (fun _ => []) (fun _ qconf => qconf)

/-- `xnl_q_del`. -/
def xnlQDel (lib : QueueLib) : InfoAttrs → XpDev → CmdState × Bool :=
  queueCmd (delQ lib) "Deleted" (fun _ => []) (fun _ qconf => qconf)

/-- The commands. -/
inductive QueueCmd where
  | start
  | stop
  | del

def QueueCmd.run (lib : QueueLib) : QueueCmd → InfoAttrs → XpDev → CmdState × Bool
  | .start => xnlQStart lib
  | .stop => xnlQStop lib
  | .del => xnlQDel lib

/-! ## The queues it comes to -/

/-- The directions of an iteration. -/
def dirsOf (isQp c2h : Bool) : List Bool := if isQp then [c2h, !c2h] else [c2h]

/-- The queues of some indices. -/
def queuesOf (dirs : List Bool) (idxs : List ℕ) : List QRef :=
  idxs.flatMap fun i => dirs.map fun c2h => (c2h, i)

/-- The visit of a queue. -/
def visitQ (op : CmdState → StartConf → CmdState × Fate) (qconf : StartConf) (s : CmdState)
    (q : QRef) : CmdState × Fate :=
  op s { qconf with c2h := q.1, qidx := q.2 }

/-- **The loop is a sweep.** -/
theorem queueLoop_eq_sweep (op : CmdState → StartConf → CmdState × Fate) (isQp c2h : Bool)
    (n i : ℕ) (s : CmdState) (qconf : StartConf) :
    let r := sweep (visitQ op qconf) s
      (queuesOf (dirsOf isQp c2h) ((List.range' i n).map (· % 2 ^ 16)))
    (queueLoop (atIdx op) isQp c2h n i s qconf).1 = r.state ∧
      ((queueLoop (atIdx op) isQp c2h n i s qconf).2 = .passed ↔ r.stopped = false) := by
  induction n generalizing i s qconf with
  | zero => exact ⟨rfl, iff_of_true rfl rfl⟩
  | succ n ih =>
      have hfirst : atIdx op i s { qconf with c2h := c2h } =
          (((visitQ op qconf s (c2h, i % 2 ^ 16)).1,
            { qconf with c2h := c2h, qidx := i % 2 ^ 16 }),
            (visitQ op qconf s (c2h, i % 2 ^ 16)).2) := rfl
      have hlist : queuesOf (dirsOf isQp c2h) ((List.range' i (n + 1)).map (· % 2 ^ 16)) =
          (c2h, i % 2 ^ 16) :: ((if isQp then [(!c2h, i % 2 ^ 16)] else []) ++
            queuesOf (dirsOf isQp c2h) ((List.range' (i + 1) n).map (· % 2 ^ 16))) := by
        cases isQp <;> rfl
      simp only
      rw [hlist, queueLoop, hfirst]
      cases hv : (visitQ op qconf s (c2h, i % 2 ^ 16)).2 with
      | refused =>
          rw [sweep_refused hv]
          exact ⟨rfl, iff_of_false (fun h => nomatch h) (fun h => nomatch h)⟩
      | failed =>
          rw [sweep_failed hv]
          exact ⟨rfl, iff_of_false (fun h => nomatch h) (fun h => nomatch h)⟩
      | passed =>
          rw [sweep_passed hv]
          generalize (visitQ op qconf s (c2h, i % 2 ^ 16)).1 = s
          cases isQp with
          | false =>
              simp only [Bool.false_and, Bool.false_eq_true, if_false, List.nil_append]
              exact ih (i + 1) s { qconf with c2h := c2h, qidx := i % 2 ^ 16 }
          | true =>
              have hsecond : atIdx op i s { qconf with c2h := !c2h, qidx := i % 2 ^ 16 } =
                  (((visitQ op qconf s (!c2h, i % 2 ^ 16)).1,
                    { qconf with c2h := !c2h, qidx := i % 2 ^ 16 }),
                    (visitQ op qconf s (!c2h, i % 2 ^ 16)).2) := rfl
              simp only [Bool.true_and, beq_self_eq_true, if_true, List.singleton_append]
              rw [hsecond]
              cases hw : (visitQ op qconf s (!c2h, i % 2 ^ 16)).2 with
              | refused =>
                  rw [sweep_refused hw]
                  exact ⟨rfl, iff_of_false (fun h => nomatch h) (fun h => nomatch h)⟩
              | failed =>
                  rw [sweep_failed hw]
                  exact ⟨rfl, iff_of_false (fun h => nomatch h) (fun h => nomatch h)⟩
              | passed =>
                  rw [sweep_passed hw]
                  exact ih (i + 1) _ { qconf with c2h := !c2h, qidx := i % 2 ^ 16 }

/-- One pass and the rest of the loop. -/
theorem queueLoop_keeps_succ {S : Type} {body : ℕ → S → StartConf → (S × StartConf) × Fate}
    {K : S → StartConf → Prop} {isQp c2h : Bool} {n i : ℕ} {s : S} {qconf : StartConf}
    (hdir : ∀ s qconf b, K s qconf → K s { qconf with c2h := b })
    (hbody : ∀ i s qconf, K s qconf → K (body i s qconf).1.1 (body i s qconf).1.2)
    (hrest : ∀ s qconf, K s qconf → ∃ qconf', K (queueLoop body isQp c2h n (i + 1) s qconf).1 qconf')
    (hfirst : K (body i s { qconf with c2h := c2h }).1.1 (body i s { qconf with c2h := c2h }).1.2) :
    ∃ qconf', K (queueLoop body isQp c2h (n + 1) i s qconf).1 qconf' := by
  rw [queueLoop]
  generalize body i s { qconf with c2h := c2h } = r at hfirst
  obtain ⟨⟨s1, qconf1⟩, fate⟩ := r
  cases fate with
  | refused => exact ⟨qconf1, hfirst⟩
  | failed => exact ⟨qconf1, hfirst⟩
  | passed =>
      simp only
      split_ifs
      · have hsecond := hbody i s1 _ (hdir s1 qconf1 (!qconf1.c2h) hfirst)
        generalize body i s1 { qconf1 with c2h := !qconf1.c2h } = r at hsecond
        obtain ⟨⟨s2, qconf2⟩, fate⟩ := r
        cases fate with
        | refused => exact ⟨qconf2, hsecond⟩
        | failed => exact ⟨qconf2, hsecond⟩
        | passed => exact hrest s2 qconf2 hsecond
      · exact hrest s1 qconf1 hfirst

/-- **What every body keeps, the loop keeps**, whichever direction the configuration has. -/
theorem queueLoop_keeps {S : Type} {body : ℕ → S → StartConf → (S × StartConf) × Fate}
    {K : S → StartConf → Prop} (hdir : ∀ s qconf b, K s qconf → K s { qconf with c2h := b })
    (hbody : ∀ i s qconf, K s qconf → K (body i s qconf).1.1 (body i s qconf).1.2) (isQp c2h : Bool)
    (n i : ℕ) {s : S} (qconf : StartConf) (hs : K s qconf) :
    ∃ qconf', K (queueLoop body isQp c2h n i s qconf).1 qconf' := by
  induction n generalizing i s qconf with
  | zero => exact ⟨qconf, hs⟩
  | succ n ih =>
      exact queueLoop_keeps_succ hdir hbody (fun s qconf hs => ih (i + 1) qconf hs)
        (hbody i s _ (hdir s qconf c2h hs))

/-! ## Deleting -/

theorem queueDelete_of_entry {x : XpDev} {qidx n : ℕ} {c2h : Bool}
    (h : x.queueGet qidx c2h true = .ok n) (ctxCleared : Bool) :
    x.queueDelete qidx c2h ctxCleared =
      let y := x.dropDir (x.qdata n).xcdev c2h
      if (x.qdata n).qhndl ≠ qdmaQueueIdxInvalid then
        (({ y with lib := y.lib.step (.remove (x.qdata n).qhndl ctxCleared) }).setQdata n {},
          y.lib.dev.queueRemoveRv (x.qdata n).qhndl)
      else (y.setQdata n {}, 0) := by
  unfold XpDev.queueDelete
  rw [h]
  rfl

/-- `delQ` is `xpdev_queue_delete`. -/
theorem delQ_queueDelete (env : ℕ → StartEnv) (ctxCleared : Bool) (s : CmdState)
    (qconf : StartConf) :
    (delQ (qdmaLib env fun _ => ctxCleared) s qconf).1.dev =
        (s.dev.queueDelete qconf.qidx qconf.c2h ctxCleared).1 ∧
      ((delQ (qdmaLib env fun _ => ctxCleared) s qconf).2 = .passed ↔
        0 ≤ (s.dev.queueDelete qconf.qidx qconf.c2h ctxCleared).2) := by
  unfold delQ
  cases hget : s.dev.queueGet qconf.qidx qconf.c2h true with
  | error e =>
      have hdel : s.dev.queueDelete qconf.qidx qconf.c2h ctxCleared = (s.dev, einval) := by
        unfold XpDev.queueDelete
        rw [hget]
      rw [hdel]
      exact ⟨rfl, iff_of_false (fun h => nomatch h) (show ¬ (0 : ℤ) ≤ -22 by decide)⟩
  | ok n =>
      rw [queueDelete_of_entry hget]
      by_cases hq : (s.dev.qdata n).qhndl ≠ qdmaQueueIdxInvalid
      · simp only [if_pos hq]
        exact ⟨rfl, fateOf_passed⟩
      · simp only [if_neg hq]
        exact ⟨rfl, iff_of_true rfl (le_refl 0)⟩

end Qdma
