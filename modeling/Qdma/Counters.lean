/-
# How many queues are in use

A device counts its queues in each direction: `qdma_queue_add` and `qdma_queue_config` count one
more, `qdma_queue_remove` one less, and `qdma_queue_add` goes back on it where it fails.

`queue_counts_iff` says after which calls the counts are those of the enabled queues and a failed
call has changed nothing; `counts_leak` has the calls for which they are not: the text about the
failure does not fit the buffer, the resources of the device cannot be prepared, or
`qdma_queue_config` is told the other direction.
-/
import Mathlib.Algebra.BigOperators.Group.Finset.Piecewise
import Qdma.Exec
import Qdma.Lifecycle

namespace Qdma

open Exec

/-! ## Calls -/

/-- A call that adds or removes a queue, with the answer its cleaning up gets from the device. -/
inductive CountCall where
  | add (c : AddCall)
  | config (qid : ℕ) (qconf : QueueConf)
  | remove (id : ℕ) (ctxCleared : Bool)

/-- What `qdma_queue_remove` returns. -/
def QdmaDev.removeRv (x : QdmaDev) (id : ℕ) : ℤ :=
  if x.gone then qdmaErrInvalidQdmaDevice else if x.Has id then 0 else qdmaErrInvalidQidx

/-- The call, and what it returns. -/
def QdmaDev.call (x : QdmaDev) : CountCall → QdmaDev × ℤ
  | .add c => x.queueAdd c
  | .config qid qconf => x.queueConfig qid qconf
  | .remove id ctxCleared => (x.queueRemove id ctxCleared, x.removeRv id)

/-! ## The law -/

/-- The enabled queues of a direction. -/
def QdmaDev.enabledCnt (x : QdmaDev) (c2h : Bool) : ℕ :=
  ((Finset.range x.qmax).filter (fun i => (x.descq (x.queueId c2h i)).enabled = true)).card

/-- The count of a direction. -/
def QdmaDev.qcnt (x : QdmaDev) (c2h : Bool) : ℕ := if c2h then x.c2hQcnt else x.h2cQcnt

/-- The counts are those of the enabled queues. -/
def QdmaDev.Counted (x : QdmaDev) : Prop := ∀ c2h, x.qcnt c2h = x.enabledCnt c2h

/-- The same queues are enabled, and the counts are the same. -/
structure SameCounts (x x' : QdmaDev) : Prop where
  enabled : ∀ id, (x'.descq id).enabled = (x.descq id).enabled
  qcnt : ∀ c2h, x'.qcnt c2h = x.qcnt c2h

/-- **A good call** leaves the counts right, and everything as it was if it fails. -/
def GoodCall (x : QdmaDev) (c : CountCall) : Prop :=
  (x.call c).1.Counted ∧ ((x.call c).2 < 0 → SameCounts x (x.call c).1)

/-- `qdma_queue_add` comes to counting the queue. -/
def QdmaDev.AddCounts (x : QdmaDev) (c : AddCall) (qconf : QueueConf) : Prop :=
  c.qconf = some qconf ∧ c.qhndl = true ∧ (if qconf.st then x.stModeEn else x.mmModeEn) = true ∧
    x.gone = false ∧ ¬ (qconf.qidx ≠ qdmaQueueIdxInvalid ∧ qconf.qidx ≥ x.qmax) ∧
    x.qcnt qconf.c2h < x.qmax

/-- It follows a null pointer: without `qdev` there is no lock to take, or to release. -/
def QdmaDev.AddFaults (x : QdmaDev) (c : AddCall) : Prop :=
  x.gone = true ∧ ∃ qconf, c.qconf = some qconf ∧
    if c.qhndl = true then (if qconf.st then x.stModeEn else x.mmModeEn) = true
    else truncated c.buflen (noQhndlText x.name) = false

/-- **The calls that keep the counts.**  If `qdma_queue_add` finds no queue, the buffer holds the
message (or there is none, or one of length 0); if it finds one, the resources are prepared.  And
`qdma_queue_config` is told the direction that the queue has. -/
def CountLegal (x : QdmaDev) : CountCall → Prop
  | .add c => ∀ qconf, x.AddCounts c qconf →
      match x.findQueue qconf with
      | .error (_, text) => truncated c.buflen text = false
      | .ok _ => 0 ≤ c.prep
  | .config qid qconf => x.gone = false → qid < 2 * x.qmax → (x.descq qid).enabled = false →
      qconf.c2h = decide (x.qmax ≤ qid)
  | .remove _ _ => True

/-- What the calls rely on besides: the queues in use know their direction. -/
structure QcntInv (x : QdmaDev) : Prop where
  counted : x.Counted
  dir : ∀ id < 2 * x.qmax, (x.descq id).enabled = true →
    (x.descq id).conf.c2h = decide (x.qmax ≤ id)
  qmax : x.qmax < 2 ^ 16

/-! ## Counting -/

theorem enabledCnt_congr {x x' : QdmaDev} (hd : x'.descq = x.descq) (hq : x'.qmax = x.qmax)
    (c2h : Bool) : x'.enabledCnt c2h = x.enabledCnt c2h := by
  unfold QdmaDev.enabledCnt QdmaDev.queueId
  rw [hd, hq]

/-- Only queue `id` differs. -/
structure OnlyQueue (id : ℕ) (x x' : QdmaDev) : Prop where
  qmax : x'.qmax = x.qmax
  other : ∀ id', id' ≠ id → x'.descq id' = x.descq id'

theorem queueId_inj {x : QdmaDev} {c2h c2h' : Bool} {i j : ℕ} (hi : i < x.qmax) (hj : j < x.qmax)
    (h : x.queueId c2h i = x.queueId c2h' j) : c2h = c2h' ∧ i = j := by
  unfold QdmaDev.queueId at h
  cases c2h <;> cases c2h' <;> simp at h ⊢ <;> omega

theorem queueId_dir {x : QdmaDev} (c2h : Bool) {i : ℕ} (hi : i < x.qmax) :
    decide (x.qmax ≤ x.queueId c2h i) = c2h := by
  unfold QdmaDev.queueId
  cases c2h with
  | false =>
      simp
      omega
  | true => simp

/-- Every queue is one of a direction. -/
theorem exists_queueId {x : QdmaDev} {id : ℕ} (h : id < 2 * x.qmax) :
    ∃ c2h i, i < x.qmax ∧ x.queueId c2h i = id := by
  by_cases hid : id < x.qmax
  · exact ⟨false, id, hid, rfl⟩
  · exact ⟨true, id - x.qmax, by omega, by unfold QdmaDev.queueId; simp; omega⟩

/-- What one queue does to the number of those enabled. -/
theorem enabledCnt_step {x x' : QdmaDev} {c2h : Bool} {i : ℕ} (hi : i < x.qmax)
    (h : OnlyQueue (x.queueId c2h i) x x') :
    x'.enabledCnt c2h + (if (x.descq (x.queueId c2h i)).enabled then 1 else 0)
        = x.enabledCnt c2h + (if (x'.descq (x.queueId c2h i)).enabled then 1 else 0) ∧
      x'.enabledCnt (!c2h) = x.enabledCnt (!c2h) := by
  have hid : ∀ b j, x'.queueId b j = x.queueId b j := by
    intro b j
    unfold QdmaDev.queueId
    rw [h.qmax]
  unfold QdmaDev.enabledCnt
  rw [h.qmax]
  simp only [hid]
  constructor
  · rw [Finset.card_filter, Finset.card_filter]
    have hmem : i ∈ Finset.range x.qmax := Finset.mem_range.mpr hi
    rw [← Finset.add_sum_erase _ _ hmem, ← Finset.add_sum_erase (Finset.range x.qmax)
      (fun j => if (x.descq (x.queueId c2h j)).enabled = true then 1 else 0) hmem]
    have hrest : ∑ j ∈ (Finset.range x.qmax).erase i,
        (if (x'.descq (x.queueId c2h j)).enabled = true then 1 else 0)
        = ∑ j ∈ (Finset.range x.qmax).erase i,
        (if (x.descq (x.queueId c2h j)).enabled = true then 1 else 0) := by
      refine Finset.sum_congr rfl (fun j hj => ?_)
      obtain ⟨hne, hj⟩ := Finset.mem_erase.mp hj
      rw [h.other _ (fun heq => hne (queueId_inj (Finset.mem_range.mp hj) hi heq).2)]
    rw [hrest]
    omega
  · refine congrArg Finset.card (Finset.filter_congr (fun j hj => ?_))
    rw [h.other]
    intro heq
    have hbool := (queueId_inj (Finset.mem_range.mp hj) hi heq).1
    cases c2h <;> exact absurd hbool (by decide)

/-- The counts stay right exactly if the one of the queue's direction follows it. -/
theorem counted_step {x x' : QdmaDev} (hc : x.Counted) {c2h : Bool} {i : ℕ} (hi : i < x.qmax)
    (h : OnlyQueue (x.queueId c2h i) x x') (hq : x'.qcnt (!c2h) = x.qcnt (!c2h)) :
    x'.Counted ↔
      x'.qcnt c2h + (if (x.descq (x.queueId c2h i)).enabled then 1 else 0)
        = x.qcnt c2h + (if (x'.descq (x.queueId c2h i)).enabled then 1 else 0) := by
  obtain ⟨hown, hother⟩ := enabledCnt_step hi h
  constructor
  · intro hc'
    rw [hc' c2h, hc c2h]
    exact hown
  · intro hcnt b
    by_cases hb : b = c2h
    · subst hb
      rw [hc b] at hcnt
      omega
    · obtain rfl : b = !c2h := by cases b <;> cases c2h <;> simp_all
      rw [hq, hother, hc]

theorem qcnt_count (x : QdmaDev) (b c2h : Bool) :
    (x.count b).qcnt c2h = if c2h = b then u16 (x.qcnt c2h + 1) else x.qcnt c2h := by
  unfold QdmaDev.count QdmaDev.qcnt
  cases b <;> cases c2h <;> rfl

theorem qcnt_uncount (x : QdmaDev) (b c2h : Bool) :
    (x.uncount b).qcnt c2h = if c2h = b then u16Sub (x.qcnt c2h) 1 else x.qcnt c2h := by
  unfold QdmaDev.uncount QdmaDev.qcnt
  cases b <;> cases c2h <;> rfl

/-- Counting changes no queue. -/
theorem count_same (x : QdmaDev) (b : Bool) :
    (x.count b).descq = x.descq ∧ (x.count b).qmax = x.qmax ∧ (x.count b).numVecs = x.numVecs := by
  unfold QdmaDev.count
  cases b <;> exact ⟨rfl, rfl, rfl⟩

theorem uncount_same (x : QdmaDev) (b : Bool) :
    (x.uncount b).descq = x.descq ∧ (x.uncount b).qmax = x.qmax := by
  unfold QdmaDev.uncount
  cases b <;> exact ⟨rfl, rfl⟩

theorem findQueue_count (x : QdmaDev) (b : Bool) (qconf : QueueConf) :
    (x.count b).findQueue qconf = x.findQueue qconf := by
  unfold QdmaDev.count
  cases b <;> rfl

theorem QdmaDev.Counted.le {x : QdmaDev} (h : x.Counted) (c2h : Bool) : x.qcnt c2h ≤ x.qmax := by
  rw [h c2h]
  have hle := Finset.card_filter_le (Finset.range x.qmax)
    (fun i => (x.descq (x.queueId c2h i)).enabled = true)
  rw [Finset.card_range] at hle
  exact hle

/-! ## One call -/

/-- `qdma_queue_add` counts the queue and looks for one, or it fails and changes nothing. -/
theorem queueAdd_cases (x : QdmaDev) (c : AddCall) :
    (∃ qconf, x.AddCounts c qconf ∧
        x.queueAdd c = (x.count qconf.c2h).queueClaim c qconf) ∨
      ((∀ qconf, ¬ x.AddCounts c qconf) ∧
        (∃ n, (x.queueAdd c).1 = { x with faults := n } ∧ (n = x.faults ↔ ¬ x.AddFaults c)) ∧
        (x.queueAdd c).2 < 0) := by
  have hnone : ∀ {rv : ℤ}, rv < 0 → ¬ x.AddFaults c →
      (∃ n, (x, rv).1 = { x with faults := n } ∧ (n = x.faults ↔ ¬ x.AddFaults c)) ∧
        (x, rv).2 < 0 :=
    fun hneg hno => ⟨⟨x.faults, rfl, iff_of_true rfl hno⟩, hneg⟩
  have hfault : x.AddFaults c →
      (∃ n, x.fault.1 = { x with faults := n } ∧ (n = x.faults ↔ ¬ x.AddFaults c)) ∧
        x.fault.2 < 0 :=
    fun h => ⟨⟨x.faults + 1, rfl, iff_of_false (Nat.succ_ne_self _) (not_not.mpr h)⟩,
      show (-4096 : ℤ) < 0 by decide⟩
  unfold QdmaDev.queueAdd QdmaDev.AddCounts
  cases hconf : c.qconf with
  | none =>
      refine .inr ⟨fun _ h => absurd h.1 (by simp), hnone (show (-5 : ℤ) < 0 by decide) ?_⟩
      rintro ⟨-, qconf, hc, -⟩
      exact nomatch hconf.symm.trans hc
  | some qconf =>
      have hinj : ∀ qconf' : QueueConf, some qconf = some qconf' → qconf' = qconf :=
        fun _ h => (Option.some.inj h).symm
      simp only
      by_cases h1 : (!c.qhndl) = true
      · rw [if_pos h1]
        have hno : c.qhndl = false := by simpa using h1
        refine .inr ⟨?_, ?_⟩
        · rintro qconf' ⟨-, hq, -⟩
          rw [hq] at h1
          exact absurd h1 (by decide)
        by_cases hunlock : (x.gone && !truncated c.buflen (noQhndlText x.name)) = true
        · rw [if_pos hunlock]
          obtain ⟨hg, htr⟩ := Bool.and_eq_true_iff.mp hunlock
          refine hfault ⟨hg, qconf, hconf, ?_⟩
          rw [if_neg (by rw [hno]; decide)]
          simpa using htr
        · rw [if_neg hunlock]
          refine hnone (show (-7 : ℤ) < 0 by decide) ?_
          rintro ⟨hg, _, -, htr⟩
          rw [if_neg (by rw [hno]; decide)] at htr
          exact hunlock (by rw [hg, htr]; rfl)
      rw [if_neg h1]
      have hqhndl : c.qhndl = true := by simpa using h1
      by_cases h2 : (qconf.st && !x.stModeEn || !qconf.st && !x.mmModeEn) = true
      · rw [if_pos h2]
        have hmode : (if qconf.st then x.stModeEn else x.mmModeEn) ≠ true := by
          revert h2
          cases qconf.st <;> cases x.stModeEn <;> cases x.mmModeEn <;> decide
        refine .inr ⟨?_, hnone (show (-16 : ℤ) < 0 by decide) ?_⟩
        · rintro qconf' ⟨heq, -, hmode', -⟩
          rw [hinj _ heq] at hmode'
          exact hmode hmode'
        · rintro ⟨-, qconf', heq, hmode'⟩
          rw [if_pos hqhndl, hinj _ (hconf.symm.trans heq)] at hmode'
          exact hmode hmode'
      rw [if_neg h2]
      have hmode : (if qconf.st then x.stModeEn else x.mmModeEn) = true := by
        revert h2
        cases qconf.st <;> cases x.stModeEn <;> cases x.mmModeEn <;> decide
      by_cases h3 : x.gone = true
      · rw [if_pos h3]
        refine .inr ⟨?_, hfault ⟨h3, qconf, hconf, by rw [if_pos hqhndl]; exact hmode⟩⟩
        rintro qconf' ⟨-, -, -, hg, -⟩
        rw [hg] at h3
        exact absurd h3 (by decide)
      rw [if_neg h3]
      have hgone : x.gone = false := by simpa using h3
      have hok : ¬ x.AddFaults c := fun h => h3 h.1
      by_cases h4 : qconf.qidx ≠ qdmaQueueIdxInvalid ∧ qconf.qidx ≥ x.qmax
      · rw [if_pos h4]
        refine .inr ⟨?_, hnone (show (-7 : ℤ) < 0 by decide) hok⟩
        rintro qconf' ⟨heq, -, -, -, hidx, -⟩
        rw [hinj _ heq] at hidx
        exact hidx h4
      rw [if_neg h4]
      by_cases h5 : (if qconf.c2h then x.c2hQcnt else x.h2cQcnt) ≥ x.qmax
      · rw [if_pos h5]
        refine .inr ⟨?_, hnone (show (-11 : ℤ) < 0 by decide) hok⟩
        rintro qconf' ⟨heq, -, -, -, -, hcnt⟩
        rw [hinj _ heq] at hcnt
        exact absurd hcnt (Nat.not_lt.mpr h5)
      rw [if_neg h5]
      exact .inl ⟨qconf, ⟨rfl, hqhndl, hmode, hgone, h4, Nat.lt_of_not_ge h5⟩, rfl⟩

/-- The search fails with an error. -/
theorem findQueue_error {x : QdmaDev} {qconf : QueueConf} {rv : ℤ} {text : String}
    (h : x.findQueue qconf = .error (rv, text)) : rv < 0 := by
  unfold QdmaDev.findQueue at h
  split_ifs at h
  · revert h
    split
    · exact fun h => absurd h (by simp)
    · intro h
      rw [← (Prod.mk.inj (Except.error.inj h)).1]
      decide
  · rw [← (Prod.mk.inj (Except.error.inj h)).1]
    decide
  · rw [← (Prod.mk.inj (Except.error.inj h)).1]
    decide

/-- What is to be shown of a call. -/
def CallSpec (x : QdmaDev) (c : CountCall) : Prop :=
  (CountLegal x c → QcntInv (x.call c).1 ∧ ((x.call c).2 < 0 → SameCounts x (x.call c).1)) ∧
    ((x.call c).1.Counted → CountLegal x c)

/-- A call that changes nothing, even if it does not return. -/
theorem callSpec_idle {x : QdmaDev} (h : QcntInv x) {c : CountCall} (n : ℕ)
    (heq : (x.call c).1 = { x with faults := n }) (hlegal : CountLegal x c) : CallSpec x c := by
  refine ⟨fun _ => ?_, fun _ => hlegal⟩
  rw [heq]
  exact ⟨⟨h.counted, h.dir, h.qmax⟩, fun _ => ⟨fun _ => rfl, fun _ => rfl⟩⟩

/-- Counting one more and one less again. -/
theorem qcnt_recount {x : QdmaDev} (h : QcntInv x) {b : Bool} (hb : x.qcnt b < x.qmax) (c2h : Bool) :
    ((x.count b).uncount b).qcnt c2h = x.qcnt c2h := by
  have hq := h.qmax
  rw [qcnt_uncount, qcnt_count]
  split_ifs with heq
  · rw [heq, u16_of_lt (by omega), u16Sub_of_le (by omega) (by omega)]
    omega
  · rfl

theorem callSpec_add {x : QdmaDev} (h : QcntInv x) (c : AddCall) : CallSpec x (.add c) := by
  rcases queueAdd_cases x c with ⟨qconf, hcounts, heq⟩ | ⟨hno, ⟨n, hsame, -⟩, -⟩
  swap
  · exact callSpec_idle h n hsame (fun qconf hc => absurd hc (hno qconf))
  have hb := hcounts.2.2.2.2.2
  have hidx := hcounts.2.2.2.2.1
  have hq := h.qmax
  have hlegal : CountLegal x (.add c) ↔
      match x.findQueue qconf with
      | .error (_, text) => truncated c.buflen text = false
      | .ok _ => 0 ≤ c.prep := by
    constructor
    · exact fun hl => hl qconf hcounts
    · intro hl qconf' hc
      obtain rfl : qconf = qconf' := Option.some.inj (hcounts.1.symm.trans hc.1)
      exact hl
  unfold CallSpec
  rw [hlegal]
  unfold QdmaDev.call
  simp only
  rw [heq]
  unfold QdmaDev.queueClaim
  rw [findQueue_count]
  obtain ⟨hdescq, hqmax, hvecs⟩ := count_same x qconf.c2h
  have hmore : (x.count qconf.c2h).qcnt qconf.c2h = x.qcnt qconf.c2h + 1 := by
    rw [qcnt_count, if_pos rfl, u16_of_lt (by omega)]
  cases hf : x.findQueue qconf with
  | error e =>
      obtain ⟨rv, text⟩ := e
      simp only
      cases htr : truncated c.buflen text with
      | true =>
          refine ⟨fun hno => absurd hno (by decide), fun hc => ?_⟩
          have hcnt := hc qconf.c2h
          rw [if_pos rfl, hmore, enabledCnt_congr hdescq hqmax, ← h.counted] at hcnt
          omega
      | false =>
          obtain ⟨hdescq', hqmax'⟩ := uncount_same (x.count qconf.c2h) qconf.c2h
          have hd := hdescq'.trans hdescq
          have hqm := hqmax'.trans hqmax
          have hcnt := qcnt_recount h hb
          refine ⟨fun _ => ⟨⟨fun c2h => ?_, ?_, ?_⟩, fun _ => ⟨fun id => ?_, hcnt⟩⟩, fun _ => rfl⟩
          · exact (hcnt c2h).trans ((h.counted c2h).trans (enabledCnt_congr hd hqm c2h).symm)
          · simp only [Bool.false_eq_true, if_false]
            rw [hd, hqm]
            exact h.dir
          · simp only [Bool.false_eq_true, if_false]
            rw [hqm]
            exact hq
          · simp only [Bool.false_eq_true, if_false]
            rw [hd]
  | ok i =>
      obtain ⟨hi, -, hen⟩ := findQueue_ok hf hidx
      have hid : (x.count qconf.c2h).queueId qconf.c2h i = x.queueId qconf.c2h i := by
        unfold QdmaDev.queueId
        rw [hqmax]
      simp only
      rw [hid]
      set id := x.queueId qconf.c2h i with hiddef
      have hgap : (if (x.descq id).enabled = true then 1 else 0) = 0 := by rw [hen]; rfl
      by_cases hprep : c.prep < 0
      · -- the queue stays enabled and is not counted
        rw [if_pos hprep]
        refine ⟨fun hle => absurd hprep (Int.not_lt.mpr hle), fun hc => ?_⟩
        exfalso
        set x1 := ((x.count qconf.c2h).setDescq id
          { (x.count qconf.c2h).descq id with enabled := true }).uncount qconf.c2h with hx1
        obtain ⟨hd1, hq1⟩ := uncount_same ((x.count qconf.c2h).setDescq id
          { (x.count qconf.c2h).descq id with enabled := true }) qconf.c2h
        have honly : OnlyQueue id x x1 := by
          refine ⟨hq1.trans hqmax, fun id' hne => ?_⟩
          rw [hd1, setDescq_of_ne _ _ hne, hdescq]
        have hcnt : ∀ c2h, x1.qcnt c2h = x.qcnt c2h := by
          intro c2h
          have hre := qcnt_recount h hb c2h
          rw [qcnt_uncount] at hre ⊢
          exact hre
        have hon : (x1.descq id).enabled = true := by
          rw [hd1, setDescq_self]
        have hstep := (counted_step h.counted hi honly (hcnt _)).mp hc
        rw [hcnt, ← hiddef, hgap, hon, if_pos rfl] at hstep
        omega
      · rw [if_neg hprep]
        simp only
        set x1 := ((x.count qconf.c2h).setDescq id
          { (x.count qconf.c2h).descq id with enabled := true }).setDescq id
          (qdmaDescqConfig (((x.count qconf.c2h).setDescq id
            { (x.count qconf.c2h).descq id with enabled := true }).descq id)
            { qconf with qidx := i } false _) with hx1
        have hself : (x1.descq id).enabled = true ∧ (x1.descq id).conf.c2h = qconf.c2h := by
          rw [hx1, setDescq_self, setDescq_self]
          exact ⟨rfl, rfl⟩
        have honly : OnlyQueue id x x1 := by
          refine ⟨hqmax, fun id' hne => ?_⟩
          rw [hx1, setDescq_of_ne _ _ hne, setDescq_of_ne _ _ hne, hdescq]
        have hcnt : ∀ c2h, x1.qcnt c2h = (x.count qconf.c2h).qcnt c2h := fun _ => rfl
        have hother : x1.qcnt (!qconf.c2h) = x.qcnt (!qconf.c2h) := by
          rw [hcnt, qcnt_count, if_neg (by cases qconf.c2h <;> decide)]
        refine ⟨fun hle => ⟨⟨?_, fun id' hlt hen' => ?_, ?_⟩, fun hneg => ?_⟩, fun _ => ?_⟩
        · refine (counted_step h.counted hi honly hother).mpr ?_
          rw [hcnt, hmore, ← hiddef, hgap, hself.1, if_pos rfl]
        · rw [honly.qmax] at hlt ⊢
          by_cases hne : id' = id
          · rw [hne, hself.2, hiddef, queueId_dir _ hi]
          · rw [honly.other id' hne] at hen' ⊢
            exact h.dir id' hlt hen'
        · rw [honly.qmax]
          exact hq
        · exfalso
          revert hneg
          split_ifs
          · exact Int.not_lt.mpr hle
          · decide
        · exact Int.not_lt.mp hprep

/-- A queue that is not enabled leaves room in the count. -/
theorem enabledCnt_lt {x : QdmaDev} {c2h : Bool} {i : ℕ} (hi : i < x.qmax)
    (hen : (x.descq (x.queueId c2h i)).enabled = false) : x.enabledCnt c2h < x.qmax := by
  have honly : OnlyQueue (x.queueId c2h i) x (x.setDescq (x.queueId c2h i) { enabled := true }) :=
    ⟨rfl, fun _ hne => setDescq_of_ne _ _ hne⟩
  have hstep := (enabledCnt_step hi honly).1
  rw [hen, setDescq_self] at hstep
  have hle := Finset.card_filter_le (Finset.range x.qmax) (fun j =>
    ((x.setDescq (x.queueId c2h i) { enabled := true }).descq (x.queueId c2h j)).enabled = true)
  rw [Finset.card_range] at hle
  have hcard : (x.setDescq (x.queueId c2h i) { enabled := true }).enabledCnt c2h ≤ x.qmax := hle
  simp only [if_true, Bool.false_eq_true, if_false] at hstep
  omega

theorem callSpec_config {x : QdmaDev} (h : QcntInv x) (qid : ℕ) (qconf : QueueConf) :
    CallSpec x (.config qid qconf) := by
  by_cases hacc : x.gone = false ∧ qid < 2 * x.qmax ∧ (x.descq qid).enabled = false
  swap
  · refine callSpec_idle h x.faults ?_ (fun h1 h2 h3 => absurd ⟨h1, h2, h3⟩ hacc)
    show (x.queueConfig qid qconf).1 = x
    unfold QdmaDev.queueConfig
    split_ifs with h1 h2 h3
    · rfl
    · rfl
    · rfl
    · exact absurd ⟨by simpa using h1, by omega, by simpa using h3⟩ hacc
  obtain ⟨hg, hlt, hen⟩ := hacc
  obtain ⟨c2h, i, hi, rfl⟩ := exists_queueId hlt
  have hq := h.qmax
  have hroom := enabledCnt_lt hi hen
  rw [← h.counted] at hroom
  -- legal means that the direction asked for is that of the queue's half
  have hlegal : CountLegal x (.config (x.queueId c2h i) qconf) ↔ qconf.c2h = c2h := by
    unfold CountLegal
    simp only
    rw [queueId_dir _ hi]
    exact ⟨fun hl => hl hg hlt hen, fun heq _ _ _ => heq⟩
  unfold CallSpec
  rw [hlegal]
  unfold QdmaDev.call QdmaDev.queueConfig
  simp only
  rw [if_neg (by rw [hg]; decide), if_neg (Nat.not_le.mpr hlt), if_neg (by rw [hen]; decide)]
  set id := x.queueId c2h i with hiddef
  set x1 := ((x.setDescq id { x.descq id with enabled := true }).count qconf.c2h).setDescq id
    (qdmaDescqConfig (((x.setDescq id { x.descq id with enabled := true }).count
      qconf.c2h).descq id) qconf false _) with hx1
  obtain ⟨hdescq, hqmax, -⟩ := count_same (x.setDescq id { x.descq id with enabled := true })
    qconf.c2h
  have honly : OnlyQueue id x x1 := by
    refine ⟨hqmax, fun id' hne => ?_⟩
    rw [hx1, setDescq_of_ne _ _ hne, hdescq, setDescq_of_ne _ _ hne]
  have hself : (x1.descq id).enabled = true ∧ (x1.descq id).conf.c2h = qconf.c2h := by
    rw [hx1, setDescq_self, hdescq, setDescq_self]
    exact ⟨rfl, rfl⟩
  have hcnt : ∀ b, x1.qcnt b = if b = qconf.c2h then u16 (x.qcnt b + 1) else x.qcnt b :=
    fun b => qcnt_count (x.setDescq id { x.descq id with enabled := true }) qconf.c2h b
  have hgap : (if (x.descq id).enabled = true then 1 else 0) = 0 := by rw [hen]; rfl
  constructor
  · intro hdir
    have hother : x1.qcnt (!c2h) = x.qcnt (!c2h) := by
      rw [hcnt, hdir, if_neg (by cases c2h <;> decide)]
    refine ⟨⟨(counted_step h.counted hi honly hother).mpr ?_, fun id' hlt' hen' => ?_, ?_⟩,
      fun hneg => absurd hneg (Int.lt_irrefl 0)⟩
    · rw [hcnt, hdir, if_pos rfl, u16_of_lt (by omega), ← hiddef, hgap, hself.1, if_pos rfl]
    · rw [honly.qmax] at hlt' ⊢
      by_cases hne : id' = id
      · rw [hne, hself.2, hiddef, queueId_dir _ hi, hdir]
      · rw [honly.other id' hne] at hen' ⊢
        exact h.dir id' hlt' hen'
    · rw [honly.qmax]
      exact hq
  · intro hc
    -- with the other direction the wrong counter goes up
    by_contra hdir
    have hown := (enabledCnt_step hi honly).1
    rw [← hc c2h, hcnt, if_neg (fun heq => hdir heq.symm), ← h.counted, ← hiddef, hgap, hself.1,
      if_pos rfl] at hown
    omega

/-- Cleaning a queue up concerns it alone. -/
theorem descqCleanup_only (x : QdmaDev) (id : ℕ) (ctxCleared : Bool) :
    OnlyQueue id x (x.descqCleanup id ctxCleared) ∧
      ((x.descqCleanup id ctxCleared).descq id).conf = (x.descq id).conf ∧
      ((x.descqCleanup id ctxCleared).descq id).enabled = (x.descq id).enabled ∧
      ∀ c2h, (x.descqCleanup id ctxCleared).qcnt c2h = x.qcnt c2h := by
  have hirq : ∀ y : QdmaDev, (y.descFreeIrq id).descq = y.descq ∧
      (y.descFreeIrq id).qmax = y.qmax ∧ ∀ c2h, (y.descFreeIrq id).qcnt c2h = y.qcnt c2h := by
    intro y
    unfold QdmaDev.descFreeIrq
    simp only
    split_ifs <;> exact ⟨rfl, rfl, fun _ => rfl⟩
  have hfree : ∀ d : Descq, (qdmaDescqFreeResource d).conf = d.conf ∧
      (qdmaDescqFreeResource d).enabled = d.enabled := by
    intro d
    unfold qdmaDescqFreeResource
    cases hdesc : d.desc.alloc <;> cases hwrb : d.descWrb.alloc <;>
      simp [hwrb, descqFlqFreeResource]
  unfold QdmaDev.descqCleanup
  simp only
  set d := if (x.descq id).inited then qdmaDescqContextClear
    { x.descq id with inited := false, online := false } ctxCleared else x.descq id with hd
  obtain ⟨hdescq, hqmax, hcnt⟩ := hirq (x.setDescq id d)
  refine ⟨⟨hqmax, fun id' hne => ?_⟩, ?_, ?_, hcnt⟩
  · rw [setDescq_of_ne _ _ hne, hdescq, setDescq_of_ne _ _ hne]
  · rw [setDescq_self, (hfree _).1, hdescq, setDescq_self, hd]
    split_ifs <;> rfl
  · rw [setDescq_self, (hfree _).2, hdescq, setDescq_self, hd]
    split_ifs <;> rfl

theorem callSpec_remove {x : QdmaDev} (h : QcntInv x) (id : ℕ) (ctxCleared : Bool) :
    CallSpec x (.remove id ctxCleared) := by
  by_cases hhas : x.Has id
  swap
  · exact callSpec_idle h x.faults (if_neg hhas) trivial
  obtain ⟨hg, hlt, hen⟩ := hhas
  obtain ⟨c2h, i, hi, rfl⟩ := exists_queueId hlt
  have hq := h.qmax
  have hdir := h.dir _ hlt hen
  rw [queueId_dir _ hi] at hdir
  set id := x.queueId c2h i with hiddef
  set x1 := x.setDescq id { x.descq id with inited := false, online := false } with hx1
  obtain ⟨honly, hconf, -, hcnt⟩ := descqCleanup_only x1 id ctxCleared
  set x2 := x1.descqCleanup id ctxCleared with hx2
  have hremove : (x.call (.remove id ctxCleared)).1
      = (x2.setDescq id { x2.descq id with enabled := false }).uncount c2h := by
    show x.queueRemove id ctxCleared = _
    unfold QdmaDev.queueRemove
    rw [if_pos ⟨hg, hlt, hen⟩]
    simp only
    rw [setDescq_self, ← hx1, ← hx2]
    show QdmaDev.uncount _ (x2.descq id).conf.c2h = _
    rw [hconf, hx1, setDescq_self]
    exact congrArg _ hdir
  have hrv : (x.call (.remove id ctxCleared)).2 = 0 := by
    show x.removeRv id = 0
    unfold QdmaDev.removeRv
    rw [if_neg (by rw [hg]; decide), if_pos ⟨hg, hlt, hen⟩]
  refine ⟨fun _ => ⟨?_, fun hneg => ?_⟩, fun _ => trivial⟩
  swap
  · rw [hrv] at hneg
    exact absurd hneg (by decide)
  rw [hremove]
  set x3 := (x2.setDescq id { x2.descq id with enabled := false }).uncount c2h with hx3
  obtain ⟨hdescq, hqmax⟩ := uncount_same (x2.setDescq id { x2.descq id with enabled := false }) c2h
  have honly3 : OnlyQueue id x x3 := by
    refine ⟨hqmax.trans honly.qmax, fun id' hne => ?_⟩
    rw [hx3, hdescq, setDescq_of_ne _ _ hne, honly.other id' hne, hx1, setDescq_of_ne _ _ hne]
  have hoff : (x3.descq id).enabled = false := by
    rw [hx3, hdescq, setDescq_self]
  have hcnt3 : ∀ b, x3.qcnt b = if b = c2h then u16Sub (x.qcnt b) 1 else x.qcnt b := by
    intro b
    rw [hx3, qcnt_uncount]
    show (if b = c2h then u16Sub (x2.qcnt b) 1 else x2.qcnt b) = _
    rw [hcnt]
    rfl
  -- the queue is one of those counted, so that the counter is not 0
  have hpos := (enabledCnt_step hi honly3).1
  rw [← hiddef, hoff, hen, if_pos rfl, ← h.counted] at hpos
  have hle := h.counted.le c2h
  refine ⟨(counted_step h.counted hi honly3 ?_).mpr ?_, fun id' hlt' hen' => ?_, ?_⟩
  · rw [hcnt3, if_neg (by cases c2h <;> decide)]
  · rw [hcnt3, if_pos rfl, ← hiddef, hoff, hen, if_pos rfl]
    simp only [Bool.false_eq_true, if_false] at hpos ⊢
    rw [u16Sub_of_le (by omega) (by omega)]
    omega
  · rw [honly3.qmax] at hlt' ⊢
    by_cases hne : id' = id
    · rw [hne, hoff] at hen'
      exact absurd hen' (by decide)
    · rw [honly3.other id' hne] at hen' ⊢
      exact h.dir id' hlt' hen'
  · rw [honly3.qmax]
    exact hq

/-- **One call** is good exactly if it is legal. -/
theorem callSpec {x : QdmaDev} (h : QcntInv x) (c : CountCall) : CallSpec x c := by
  cases c with
  | add c => exact callSpec_add h c
  | config qid qconf => exact callSpec_config h qid qconf
  | remove id ctxCleared => exact callSpec_remove h id ctxCleared

/-! ## Whole runs -/

/-- A device on which no queue has been added. -/
structure FreshCounts (x : QdmaDev) : Prop where
  enabled : ∀ id < 2 * x.qmax, (x.descq id).enabled = false
  qcnt : ∀ c2h, x.qcnt c2h = 0
  qmax : x.qmax < 2 ^ 16

theorem FreshCounts.inv {x : QdmaDev} (h : FreshCounts x) : QcntInv x := by
  refine ⟨fun c2h => ?_, fun id hlt hen => ?_, h.qmax⟩
  · rw [h.qcnt]
    symm
    rw [QdmaDev.enabledCnt, Finset.card_eq_zero, Finset.filter_eq_empty_iff]
    intro i hi hen
    rw [h.enabled _ (queueId_lt (Finset.mem_range.mp hi) c2h)] at hen
    exact absurd hen (by decide)
  · rw [h.enabled id hlt] at hen
    exact absurd hen (by decide)

/-- The device after a call. -/
def QdmaDev.afterCall (x : QdmaDev) (c : CountCall) : QdmaDev := (x.call c).1

/-- Every call of the list is good. -/
def GoodCalls (x₀ : QdmaDev) (calls : List CountCall) : Prop :=
  ∀ pre c post, calls = pre ++ c :: post → GoodCall (pre.foldl QdmaDev.afterCall x₀) c

/-- **The counters are exact**, and a failed call changes nothing, all along a list of calls
exactly if each is legal where it is made. -/
theorem queue_counts_iff {x₀ : QdmaDev} (h0 : FreshCounts x₀) (calls : List CountCall) :
    GoodCalls x₀ calls ↔
      ∀ pre c post, calls = pre ++ c :: post →
        CountLegal (pre.foldl QdmaDev.afterCall x₀) c := by
  refine calls_iff (P := fun _ => True) h0.inv (fun x c h _ hl => ((callSpec h c).1 hl).1)
    (fun x c h _ => ⟨fun hgood => (callSpec h c).2 hgood.1, fun hl => ?_⟩) (fun _ _ => trivial)
  obtain ⟨hinv, hsame⟩ := (callSpec h c).1 hl
  exact ⟨hinv.counted, hsame⟩

/-- An H2C queue in MM mode is added and removed again. -/
theorem queue_counts_iff_once :
    GoodCalls (pairDev 0) [.add { qconf := some {} }, .remove 0 true] := by
  refine (queue_counts_iff ⟨fun _ _ => rfl, fun c2h => by cases c2h <;> rfl, by decide⟩ _).mpr
    (along_cons.mpr ⟨?_, along_cons.mpr ⟨trivial, along_nil⟩⟩)
  intro qconf hc
  obtain rfl := Option.some.inj hc.1
  exact show (0 : ℤ) ≤ 0 by decide

/-- **Counts that leak.**  On a device with two pairs: the second call for index 0 has a buffer of
one byte; the resources cannot be prepared; queue 0, an H2C queue, is configured for C2H. -/
theorem counts_leak :
    ¬ GoodCalls { pairDev 0 with qmax := 2 }
        [.add { qconf := some {} }, .add { qconf := some {}, buflen := some 1 }] ∧
      ¬ GoodCalls { pairDev 0 with qmax := 2 } [.add { qconf := some {}, prep := -5 }] ∧
      ¬ GoodCalls { pairDev 0 with qmax := 2 } [.config 0 { c2h := true }] := by
  refine ⟨fun h => ?_, fun h => ?_, fun h => ?_⟩
  · have hcnt := (h [.add { qconf := some {} }] _ [] rfl).1 false
    exact absurd hcnt (by decide)
  · have hcnt := (h [] _ [] rfl).1 false
    exact absurd hcnt (by decide)
  · have hcnt := (h [] _ [] rfl).1 false
    exact absurd hcnt (by decide)

end Qdma
