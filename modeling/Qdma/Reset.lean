/-
# Resets

A function-level reset of a device whose queues are in use: `qdma_reset_prepare` takes the device
offline, which frees the queues of the library, and deletes all entries of the module above it with
`xpdev_queue_delete_all`; `qdma_reset_done` brings the device online again.

`resets_agree`: whatever is added, deleted and reset, the entries of the module are those of the
queues in use in the library, and each character device is destroyed once, with the last of its
entries.  So after a reset nothing is left, on either side.
-/
import Qdma.Cdev

namespace Qdma

open Exec

/-! ## Resets -/

/-- `xpdev_queue_delete_all`. -/
def XpDev.queueDeleteAll (x : XpDev) (ctxCleared : Bool) : XpDev :=
  (List.range x.qmax).foldl (fun x i =>
    let x := (x.queueDelete i false ctxCleared).1
    (x.queueDelete i true ctxCleared).1) x

/-- `qdma_reset_prepare`: `qdma_device_offline` frees the queues of the library. -/
def XpDev.resetPrepare (x : XpDev) (ctxCleared : ℕ → Bool) : XpDev :=
  { x with lib := x.lib.step (.cleanup ctxCleared) }.queueDeleteAll true

/-- `qdma_reset_done`: `qdma_device_online` sets the queues up again, unless it fails.  The lists of
the vectors are empty again. -/
def XpDev.resetDone (x : XpDev) (funcId : Fin 256) (online : Bool) : XpDev :=
  if online then
    { x with
      lib := IdDev.deviceInit { x.lib.dev with intrList := fun _ => [] } x.lib.conf funcId }
  else x

/-- A call of the module, or half a reset. -/
inductive ResetOp where
  | add (c : XpAdd)
  | delete (qidx : ℕ) (c2h ctxCleared : Bool)
  | prepare (ctxCleared : ℕ → Bool)
  | done (funcId : Fin 256) (online : Bool)

/-- The state after it. -/
def CdevRun.resetStep (s : CdevRun) : ResetOp → CdevRun
  | .add c => s.step (.add c)
  | .delete qidx c2h ctxCleared => s.step (.delete qidx c2h ctxCleared)
  | .prepare ctxCleared => { dev := s.dev.resetPrepare ctxCleared }
  | .done funcId online => { s with dev := s.dev.resetDone funcId online }

/-- Queues are added with success, and the second half of a reset comes after the first.  Deletions
need not find a queue. -/
def ResetOk (s : CdevRun) : ResetOp → Prop
  | .add c => CdevOk s (.add c)
  | .done _ _ => s.dev.lib.dev.gone = true
  | .delete _ _ _ | .prepare _ => True

instance ResetOk.decidable (s : CdevRun) (op : ResetOp) : Decidable (ResetOk s op) :=
  match op with
  | .add c => inferInstanceAs (Decidable (0 ≤ s.rv (.add c)))
  | .done _ _ => inferInstanceAs (Decidable (_ = true))
  | .delete _ _ _ | .prepare _ => inferInstanceAs (Decidable True)

/-! ## Deleting -/

/-- An entry that is not there is not deleted. -/
theorem Shares.delete_none {x : XpDev} {added : QRef → Option ℕ} {cell : ℕ → Option ℕ}
    (h : Shares ExactBits x added cell) {q : QRef} (hq : added q = none) (ctxCleared : Bool) :
    x.queueDelete q.2 q.1 ctxCleared = (x, einval) := by
  have herr : ∃ e, x.queueGet q.2 q.1 true = .error e := by
    cases hget : x.queueGet q.2 q.1 true with
    | error e => exact ⟨e, rfl⟩
    | ok n =>
        obtain ⟨hlt, rfl, hne⟩ := queueGet_ok hget
        exact absurd ((h.entry q hlt).trans (entryOf_of_none hq)) (hne rfl)
  obtain ⟨e, he⟩ := herr
  unfold XpDev.queueDelete
  rw [he]

/-- A library that is gone removes nothing. -/
theorem remove_gone {lib : IdDev} (hg : lib.dev.gone = true) (n : ℕ) (ctxCleared : Bool) :
    lib.step (.remove n ctxCleared) = lib := by
  have hno : ¬ lib.dev.Has n := by
    rintro ⟨hf, -⟩
    rw [hg] at hf
    cases hf
  have hdev : lib.dev.queueRemove n ctxCleared = lib.dev := if_neg hno
  unfold IdDev.step
  simp only [hdev, hno, false_and, if_false]

/-- What deleting an entry with a handle does to the library. -/
def IdDev.drop (lib : IdDev) (ctxCleared : Bool) : Option ℕ → IdDev
  | some n => if n ≠ qdmaQueueIdxInvalid then lib.step (.remove n ctxCleared) else lib
  | none => lib

theorem drop_gone {lib : IdDev} (hg : lib.dev.gone = true) (ctxCleared : Bool) (m : Option ℕ) :
    lib.drop ctxCleared m = lib := by
  cases m with
  | none => rfl
  | some n =>
      unfold IdDev.drop
      simp only [remove_gone hg, ite_self]

/-- **Deleting an entry**: what happens to the character devices, and to the library. -/
theorem Shares.delete {x : XpDev} {added : QRef → Option ℕ} {cell : ℕ → Option ℕ}
    (h : Shares ExactBits x added cell) (q : QRef) (ctxCleared : Bool) :
    (∃ cell', Shares ExactBits (x.queueDelete q.2 q.1 ctxCleared).1
      (Function.update added q none) cell') ∧
    (x.queueDelete q.2 q.1 ctxCleared).1.qmax = x.qmax ∧
    (x.queueDelete q.2 q.1 ctxCleared).1.next = x.next ∧
    (x.queueDelete q.2 q.1 ctxCleared).1.lib = x.lib.drop ctxCleared (added q) := by
  cases hq : added q with
  | none =>
      rw [h.delete_none hq]
      refine ⟨⟨cell, ?_⟩, rfl, rfl, rfl⟩
      have hsame : Function.update added q none = added := by
        rw [← hq, Function.update_eq_self]
      rw [hsame]
      exact h
  | some n =>
      obtain ⟨hlt, k, hk, -⟩ := h.held q n hq
      have hqd : x.qdata (x.place q) = { qhndl := n, xcdev := some k } := by
        rw [h.entry q hlt, entryOf_of_some hq, hk]
      rw [queueDelete_eq hlt hqd h.noAccess (h.live _ k hk).2]
      simp only
      set x1 := if ((x.cdevs k).clearDir q.1).dirInit = 0
        then (x.setCdev k ((x.cdevs k).clearDir q.1)).cdevDestroy k
        else x.setCdev k ((x.cdevs k).clearDir q.1) with hx1
      have hsame : x1.lib = x.lib ∧ x1.qmax = x.qmax ∧ x1.next = x.next := by
        rw [hx1]
        split_ifs
        · exact ⟨rfl, rfl, rfl⟩
        · exact ⟨rfl, rfl, rfl⟩
      by_cases hn : n ≠ qdmaQueueIdxInvalid
      · rw [if_pos hn]
        exact ⟨h.clear hq hk _, hsame.2.1, hsame.2.2, (if_pos hn).symm⟩
      · rw [if_neg hn]
        refine ⟨?_, hsame.2.1, hsame.2.2, hsame.1.trans (if_neg hn).symm⟩
        have hx1' : x1 = { x1 with lib := x.lib } := by
          rw [← hsame.1]
        rw [hx1']
        exact h.clear hq hk x.lib

/-- **Deleting all entries**, when the library is gone. -/
theorem Shares.deleteAll (ctxCleared : Bool) (is : List ℕ) {x : XpDev} {added : QRef → Option ℕ}
    {cell : ℕ → Option ℕ} (h : Shares ExactBits x added cell) (hg : x.lib.dev.gone = true) :
    ∃ x' added' cell', is.foldl (fun x i =>
        let x := (x.queueDelete i false ctxCleared).1
        (x.queueDelete i true ctxCleared).1) x = x' ∧
      Shares ExactBits x' added' cell' ∧ x'.qmax = x.qmax ∧ x'.lib = x.lib ∧
      ∀ q : QRef, added q = none ∨ q.2 ∈ is → added' q = none := by
  induction is generalizing x added cell with
  | nil =>
      refine ⟨x, added, cell, rfl, h, rfl, rfl, fun q hq => ?_⟩
      exact hq.resolve_right List.not_mem_nil
  | cons i is ih =>
      obtain ⟨⟨cell1, h1⟩, hq1, -, hl1⟩ := h.delete (false, i) ctxCleared
      rw [drop_gone hg] at hl1
      obtain ⟨⟨cell2, h2⟩, hq2, -, hl2⟩ := h1.delete (true, i) ctxCleared
      rw [drop_gone (by rw [hl1]; exact hg)] at hl2
      obtain ⟨x', added', cell', heq, h', hq', hl', hall⟩ := ih h2 (by rw [hl2, hl1]; exact hg)
      refine ⟨x', added', cell', heq, h', hq'.trans (hq2.trans hq1), hl'.trans (hl2.trans hl1),
        fun q hq => hall q ?_⟩
      by_cases hi : q.2 = i
      · refine .inl ?_
        rcases dirs_cases (true, i) q hi with rfl | rfl
        · rw [Function.update_self]
        · rw [Function.update_of_ne (by simp)]
          exact Function.update_self _ _ _
      · rcases hq with hq | hq
        · refine .inl ?_
          rw [Function.update_of_ne (fun he => hi (congrArg Prod.snd he)),
            Function.update_of_ne (fun he => hi (congrArg Prod.snd he))]
          exact hq
        · exact .inr ((List.mem_cons.mp hq).resolve_left hi)

/-! ## What the module and the library agree on -/

/-- The queues in use are those that are added. -/
def InUse (lib : IdDev) (added : QRef → Option ℕ) : Prop :=
  ∀ q : QRef, q.2 < lib.dev.qmax → (lib.dev.descq (lib.dev.refId q)).enabled = true →
    added q ≠ none

/-- **The invariant.** -/
structure ResetInv (s : CdevRun) : Prop where
  qmax : s.dev.lib.dev.qmax = s.dev.qmax
  small : s.dev.qmax < 2 ^ 15
  shares : ∃ cell, Shares ExactBits s.dev s.added cell
  online : s.dev.lib.dev.gone = false → AddedInv s.dev.lib s.added ∧ InUse s.dev.lib s.added
  offline : s.dev.lib.dev.gone = true → s.added = fun _ => none

theorem ResetInv.cdevInv {s : CdevRun} (h : ResetInv s) (hg : s.dev.lib.dev.gone = false) :
    CdevInv s := ⟨(h.online hg).1, h.qmax, h.shares⟩

/-- A call that adds a queue changes nothing about the others. -/
theorem queueAdd_others {lib : IdDev} {c : XpAdd} (hrv : 0 ≤ (lib.queueAdd c.call c.prep).2) :
    lib.dev.gone = false ∧
      ∀ q : QRef, q.2 < lib.dev.qmax → q ≠ (c.qconf.c2h, (lib.addOut c).1) →
        ((lib.queueAdd c.call c.prep).1.dev.descq (lib.dev.refId q)).enabled
          = (lib.dev.descq (lib.dev.refId q)).enabled := by
  obtain ⟨i, b, hp, hplace, hpos, hdev, -⟩ := idQueueAdd_found hrv
  obtain ⟨hi, hgone, -, -, -, -, -, hother⟩ := queueAdd_place hplace hpos
  rw [addOut_some hp, hdev]
  exact ⟨hgone, fun q hlt hne => hother _ (fun heq => hne (refId_inj hlt hi heq))⟩

theorem addCdev_lib (x : XpDev) (c : XpAdd) (n qidx qhndl : ℕ) :
    (x.addCdev c n qidx qhndl).1.lib = x.lib := by
  unfold XpDev.addCdev
  split <;> rfl

/-- What `xpdev_queue_add` asks the library for, it gets before it looks at its entries. -/
theorem queueAdd_lib (x : XpDev) (c : XpAdd) :
    (x.queueAdd c).1.lib = (x.lib.queueAdd c.call c.prep).1 ∧
      (0 ≤ (x.queueAdd c).2 → 0 ≤ (x.lib.queueAdd c.call c.prep).2) := by
  unfold XpDev.queueAdd
  simp only
  by_cases hrv : (x.lib.queueAdd c.call c.prep).2 < 0
  · rw [if_pos hrv]
    exact ⟨rfl, id⟩
  · rw [if_neg hrv]
    refine ⟨?_, fun _ => Int.not_lt.mp hrv⟩
    split
    · rfl
    · split
      · exact addCdev_lib _ c _ _ _
      · split
        · exact addCdev_lib _ c _ _ _
        · rfl

theorem ResetInv.add {s : CdevRun} (h : ResetInv s) {c : XpAdd} (hok : CdevOk s (.add c)) :
    ResetInv (s.step (.add c)) := by
  obtain ⟨hlib, hrv⟩ := queueAdd_lib s.dev c
  change (s.step (.add c)).dev.lib = _ at hlib
  replace hrv := hrv hok
  obtain ⟨hg, hothers⟩ := queueAdd_others hrv
  have hinv := (h.cdevInv hg).add hok
  have hqmax : (s.step (.add c)).dev.lib.dev.qmax = s.dev.lib.dev.qmax := by
    rw [hlib]
    exact ((h.online hg).1.add hrv).2.2.1
  refine ⟨hinv.qmax, ?_, hinv.shares, fun _ => ⟨hinv.lib, fun q hlt hen => ?_⟩, fun hgone => ?_⟩
  · rw [← hinv.qmax, hqmax, h.qmax]
    exact h.small
  · show Function.update s.added (c.qconf.c2h, (s.dev.lib.addOut c).1) _ q ≠ none
    by_cases heq : q = (c.qconf.c2h, (s.dev.lib.addOut c).1)
    · rw [heq, Function.update_self]
      exact Option.some_ne_none _
    · rw [Function.update_of_ne heq]
      rw [hqmax] at hlt
      rw [refId_of_qmax hqmax, hlib, hothers q hlt heq] at hen
      exact (h.online hg).2 q hlt hen
  · rw [hinv.lib.gone] at hgone
    cases hgone

/-- A queue that is deleted is not in use any more. -/
theorem ResetInv.delete {s : CdevRun} (h : ResetInv s) (qidx : ℕ) (c2h ctxCleared : Bool) :
    ResetInv (s.step (.delete qidx c2h ctxCleared)) := by
  obtain ⟨cell, hs⟩ := h.shares
  obtain ⟨hs', hqmax, -, hlib⟩ := hs.delete (c2h, qidx) ctxCleared
  have hlib' : (s.step (.delete qidx c2h ctxCleared)).dev.lib
      = s.dev.lib.drop ctxCleared (s.added (c2h, qidx)) := hlib
  cases hq : s.added (c2h, qidx) with
  | none =>
      -- there is nothing to delete
      have hsame : s.step (.delete qidx c2h ctxCleared) = s := by
        have hnone := hs.delete_none hq ctxCleared
        show { dev := (s.dev.queueDelete qidx c2h ctxCleared).1
               added := Function.update s.added (c2h, qidx) none } = s
        rw [show s.dev.queueDelete qidx c2h ctxCleared = _ from hnone]
        have hadd : Function.update s.added (c2h, qidx) none = s.added := by
          rw [← hq, Function.update_eq_self]
        rw [hadd]
      rw [hsame]
      exact h
  | some n =>
      have hg : s.dev.lib.dev.gone = false := by
        cases hg : s.dev.lib.dev.gone with
        | false => rfl
        | true =>
            rw [h.offline hg] at hq
            cases hq
      obtain ⟨hadded, huse⟩ := h.online hg
      obtain ⟨hlt, hn, hen⟩ := hadded.named _ n hq
      have hid : n < 2 * s.dev.lib.dev.qmax := by
        rw [hn]
        unfold QdmaDev.refId QdmaDev.queueId
        split_ifs <;> omega
      have hsmall := h.small
      have hne : n ≠ qdmaQueueIdxInvalid := by
        rw [h.qmax] at hid
        unfold qdmaQueueIdxInvalid
        omega
      have hrem : s.dev.lib.drop ctxCleared (some n) = s.dev.lib.step (.remove n ctxCleared) :=
        if_pos hne
      rw [hq, hrem] at hlib'
      obtain ⟨-, hqm, hadded'⟩ := hadded.remove hq ctxCleared
      have hdis : (((s.dev.lib.step (.remove n ctxCleared)).dev.descq n).enabled) = false :=
        (queueRemove_enabled ⟨hg, hid, hn ▸ hen⟩ ctxCleared).2.2.2.1
      have hothers := (queueRemove_enabled (x := s.dev.lib.dev) ⟨hg, hid, hn ▸ hen⟩
        ctxCleared).2.2.2.2
      refine ⟨?_, ?_, hs', fun _ => ⟨?_, fun q' hlt' hen' => ?_⟩, fun hgone => ?_⟩
      · rw [hlib', hqm, h.qmax]
        exact hqmax.symm
      · show (s.dev.queueDelete qidx c2h ctxCleared).1.qmax < _
        rw [show (s.dev.queueDelete qidx c2h ctxCleared).1.qmax = _ from hqmax]
        exact hsmall
      · rw [hlib']
        exact hadded'
      · rw [hlib'] at hlt' hen'
        rw [hqm] at hlt'
        rw [refId_of_qmax hqm] at hen'
        show Function.update s.added (c2h, qidx) none q' ≠ none
        by_cases heq : q' = (c2h, qidx)
        · rw [heq, ← hn, hdis] at hen'
          cases hen'
        · rw [Function.update_of_ne heq]
          refine huse q' hlt' (Eq.trans (Eq.symm (hothers _ (fun hid' => heq ?_))) hen')
          exact refId_inj hlt' hlt (hid'.trans hn)
      · rw [hlib', hadded'.gone] at hgone
        cases hgone

/-- **The first half of a reset** leaves nothing. -/
theorem ResetInv.prepare {s : CdevRun} (h : ResetInv s) (ctxCleared : ℕ → Bool) :
    ResetInv (s.resetStep (.prepare ctxCleared)) := by
  obtain ⟨cell, hs⟩ := h.shares
  have hfix := deviceCleanup_fixed s.dev.lib.dev ctxCleared
  have hgone : (s.dev.lib.step (.cleanup ctxCleared)).dev.gone = true := congrArg (·.2.1) hfix
  have hqm : (s.dev.lib.step (.cleanup ctxCleared)).dev.qmax = s.dev.lib.dev.qmax :=
    congrArg (·.2.2.1) hfix
  have hs0 : Shares ExactBits { s.dev with lib := s.dev.lib.step (.cleanup ctxCleared) } s.added
      cell := { hs with }
  obtain ⟨x', added', cell', heq, hs', hqmax, hlib, hall⟩ :=
    hs0.deleteAll true (List.range s.dev.qmax) hgone
  have hx' : s.dev.resetPrepare ctxCleared = x' := heq
  have hnone : added' = fun _ => none := by
    funext q
    refine hall q ?_
    cases hq : s.added q with
    | none => exact .inl rfl
    | some n => exact .inr (List.mem_range.mpr (hs.held q n hq).1)
  rw [hnone] at hs'
  unfold CdevRun.resetStep
  simp only
  rw [hx']
  refine ⟨?_, ?_, ⟨cell', hs'⟩, fun hg => ?_, fun _ => rfl⟩
  · show x'.lib.dev.qmax = x'.qmax
    rw [hlib, hqmax]
    exact hqm.trans h.qmax
  · show x'.qmax < _
    rw [hqmax]
    exact h.small
  · have hg' : x'.lib.dev.gone = false := hg
    rw [hlib, hgone] at hg'
    cases hg'

/-- **The second half** starts anew. -/
theorem ResetInv.done {s : CdevRun} (h : ResetInv s) (hg : s.dev.lib.dev.gone = true)
    (funcId : Fin 256) (online : Bool) : ResetInv (s.resetStep (.done funcId online)) := by
  have hnone := h.offline hg
  unfold CdevRun.resetStep XpDev.resetDone
  cases online with
  | false => exact h
  | true =>
      simp only [if_true]
      refine ⟨h.qmax, h.small, ?_, fun _ => ⟨⟨rfl, fun q n hq => ?_⟩, fun q _ hen => ?_⟩,
        fun _ => hnone⟩
      · obtain ⟨cell, hs⟩ := h.shares
        exact ⟨cell, { hs with }⟩
      · have hq' : s.added q = some n := hq
        rw [hnone] at hq'
        cases hq'
      · cases hen

theorem ResetInv.step {s : CdevRun} (h : ResetInv s) {op : ResetOp} (hok : ResetOk s op) :
    ResetInv (s.resetStep op) := by
  cases op with
  | add c => exact h.add hok
  | delete qidx c2h ctxCleared => exact h.delete qidx c2h ctxCleared
  | prepare ctxCleared => exact h.prepare ctxCleared
  | done funcId online => exact h.done hok funcId online

theorem probeOne_reset {x : QdmaDev} (hq : x.qmax < 2 ^ 15) (conf : IntrConf) (funcId : Fin 256) :
    ResetInv { dev := XpDev.probeOne (IdDev.deviceInit x conf funcId) } := by
  have h := probeOne_inv x conf funcId
  exact ⟨h.qmax, hq, h.shares, fun _ => ⟨h.lib, fun _ _ hen => by cases hen⟩, fun _ => rfl⟩

/-- The law of the character devices holds on either side of a reset. -/
theorem ResetInv.law {s : CdevRun} (h : ResetInv s) : CdevLaw s := by
  cases hg : s.dev.lib.dev.gone with
  | false => exact (h.cdevInv hg).law
  | true =>
      -- the law is not about the library, which may as well be online
      have hlaw := ((h.done hg 0 true).cdevInv rfl).law
      exact ⟨hlaw.empty, hlaw.entry, hlaw.shared, hlaw.bits, hlaw.once, hlaw.noAccess⟩

/-- **The module and the library agree**, in every run of additions, deletions and resets: an entry
is that of a queue in use, and the queues in use have entries; the character devices are shared as
they should be.  While the device is offline there are no entries, and all character devices there
ever were are destroyed. -/
theorem resets_agree {x : QdmaDev} (hq : x.qmax < 2 ^ 15) {conf : IntrConf} {funcId : Fin 256}
    {ops : List ResetOp} {s : CdevRun}
    (hr : Run CdevRun.resetStep ResetOk
      { dev := XpDev.probeOne (IdDev.deviceInit x conf funcId) } ops s) :
    CdevLaw s ∧
    (s.dev.lib.dev.gone = false → ∀ q : QRef, q.2 < s.dev.qmax →
      ((s.dev.lib.dev.descq (s.dev.lib.dev.refId q)).enabled = true ↔
        s.added q = some (s.dev.lib.dev.refId q))) ∧
    (s.dev.lib.dev.gone = true → (∀ q : QRef, q.2 < s.dev.qmax → s.dev.qdata (s.dev.place q) = {}) ∧
      ∀ k < s.dev.next, s.dev.destroyed k = 1) := by
  have h : ResetInv s := hr.invariant (probeOne_reset hq conf funcId) (fun _ _ h hok => h.step hok)
  refine ⟨h.law, fun hg q hlt => ?_, fun hg => ⟨fun q hlt => ?_, fun k hk => ?_⟩⟩
  · obtain ⟨hadded, huse⟩ := h.online hg
    constructor
    · intro hen
      obtain ⟨n, hn⟩ := Option.ne_none_iff_exists'.mp (huse q (h.qmax ▸ hlt) hen)
      rw [hn, (hadded.named q n hn).2.1]
    · exact fun hn => (hadded.named q _ hn).2.2
  · exact h.law.empty q hlt (by rw [h.offline hg])
  · rcases h.law.once k hk with ⟨-, q, hne, -⟩ | ⟨hone, -⟩
    · rw [h.offline hg] at hne
      exact absurd rfl hne
    · exact hone

/-- Both directions of index 2 are added; then the device is reset, and H2C is added again. -/
def resetPairOps : List ResetOp :=
  [.add { qconf := { qidx := 2 } }, .add { qconf := { qidx := 2, c2h := true } },
    .prepare (fun _ => true), .delete 2 false true, .done 1 true, .add { qconf := { qidx := 2 } }]

def resetPair : CdevRun :=
  resetPairOps.foldl CdevRun.resetStep { dev := XpDev.probeOne (fourPairs false) }

theorem resets_agree_pair : CdevLaw resetPair ∧
    (resetPair.dev.lib.dev.descq (resetPair.dev.lib.dev.refId (false, 2))).enabled = true := by
  have hrun : Run CdevRun.resetStep ResetOk { dev := XpDev.probeOne (fourPairs false) }
      resetPairOps resetPair := Run.of_admits resetPairOps (by decide +kernel)
  have h := @resets_agree { pairDev 2 with vf := false, qmax := 4 } (by decide) _ 1 _ _ hrun
  exact ⟨h.1, (h.2.1 (by decide +kernel) (false, 2) (by decide +kernel)).mpr (by decide +kernel)⟩

end Qdma
