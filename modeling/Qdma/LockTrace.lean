/-
# Sequences of lock operations

A path through a program takes and releases locks.  `run` follows the locks that are held along
it, and ends where one is taken twice or released without being held; a path is `Balanced` if it
comes through with nothing held.  What is proved is how balanced paths are put together.
-/
import Mathlib.Data.List.Basic

namespace LockTrace

variable {L : Type} [DecidableEq L]

/-- A lock is taken or released. -/
inductive Op (L : Type) where
  | lock (l : L)
  | unlock (l : L)

/-- The locks held after some operations, if each of them is in order. -/
def run : List L → List (Op L) → Option (List L)
  | held, [] => some held
  | held, .lock l :: ops => if l ∈ held then none else run (l :: held) ops
  | held, .unlock l :: ops => if l ∈ held then run (held.erase l) ops else none

/-- **Everything taken is released**, once, and nothing else. -/
def Balanced (ops : List (Op L)) : Prop := run [] ops = some []

/-- A lock is taken and released again. -/
def taken (l : L) : List (Op L) := [.lock l, .unlock l]

theorem run_append (held : List L) (ops ops' : List (Op L)) :
    run held (ops ++ ops') = (run held ops).bind (run · ops') := by
  induction ops generalizing held with
  | nil => rfl
  | cons o ops ih =>
      cases o with
      | lock l =>
          rw [List.cons_append, run, run]
          by_cases h : l ∈ held
          · rw [if_pos h, if_pos h]
            rfl
          · rw [if_neg h, if_neg h, ih]
      | unlock l =>
          rw [List.cons_append, run, run]
          by_cases h : l ∈ held
          · rw [if_pos h, if_pos h, ih]
          · rw [if_neg h, if_neg h]
            rfl

theorem balanced_nil : Balanced ([] : List (Op L)) := rfl

/-- What comes before does not matter if it is balanced. -/
theorem Balanced.append_iff {ops ops' : List (Op L)} (h : Balanced ops) :
    Balanced (ops ++ ops') ↔ Balanced ops' := by
  unfold Balanced
  rw [run_append, h]
  exact Iff.rfl

theorem Balanced.append {ops ops' : List (Op L)} (h : Balanced ops) (h' : Balanced ops') :
    Balanced (ops ++ ops') := h.append_iff.mpr h'

theorem balanced_taken (l : L) : Balanced (taken l) := by
  unfold Balanced taken
  rw [run, if_neg List.not_mem_nil, run, if_pos (List.mem_singleton_self l),
    List.erase_cons_head]
  rfl

/-- Another lock inside. -/
theorem balanced_nested {l l' : L} (h : l' ≠ l) :
    Balanced ([.lock l] ++ (taken l' ++ [.unlock l])) := by
  have hnot : l' ∉ [l] := fun hmem => h (List.mem_singleton.mp hmem)
  unfold Balanced taken
  rw [List.singleton_append, run, if_neg List.not_mem_nil, List.cons_append, List.cons_append,
    List.nil_append, run, if_neg hnot, run, if_pos List.mem_cons_self, List.erase_cons_head, run,
    if_pos (List.mem_singleton_self l), List.erase_cons_head]
  rfl

/-! ## What is held -/

/-- After `ops` the locks in `held` are held, the last one first. -/
def Holding (ops : List (Op L)) (held : List L) : Prop := run [] ops = some held

/-- More operations. -/
theorem Holding.append {ops ops' : List (Op L)} {held held' : List L} (h : Holding ops held)
    (h' : run held ops' = some held') : Holding (ops ++ ops') held' := by
  unfold Holding
  rw [run_append, h]
  exact h'

theorem run_lock {l : L} {held : List L} (h : l ∉ held) (ops : List (Op L)) :
    run held (.lock l :: ops) = run (l :: held) ops := by
  rw [run, if_neg h]

/-- A lock is released that was taken before those in `pre`. -/
theorem run_unlock {l : L} {pre : List L} (h : l ∉ pre) (held : List L) (ops : List (Op L)) :
    run (pre ++ l :: held) (.unlock l :: ops) = run (pre ++ held) ops := by
  rw [run, if_pos (List.mem_append_right _ List.mem_cons_self), List.erase_append_right _ h,
    List.erase_cons_head]

/-- The last lock is released. -/
theorem run_unlock_head (l : L) (held : List L) (ops : List (Op L)) :
    run (l :: held) (.unlock l :: ops) = run held ops := by
  rw [run, if_pos List.mem_cons_self, List.erase_cons_head]

theorem Holding.lock {ops : List (Op L)} {held : List L} {l : L} (h : Holding ops held)
    (hl : l ∉ held) : Holding (ops ++ [.lock l]) (l :: held) := h.append (run_lock hl [])

theorem Holding.unlock {ops : List (Op L)} {pre held : List L} {l : L}
    (h : Holding ops (pre ++ l :: held)) (hl : l ∉ pre) :
    Holding (ops ++ [.unlock l]) (pre ++ held) := h.append (run_unlock hl held [])

theorem Holding.unlock_head {ops : List (Op L)} {held : List L} {l : L}
    (h : Holding ops (l :: held)) : Holding (ops ++ [.unlock l]) held :=
  h.append (run_unlock_head l held [])

/-! ## What is outstanding -/

/-- After `ops` those of `R` are held, in whatever order they were taken. -/
def Outstanding (ops : List (Op L)) (R : List L) : Prop :=
  ∃ held, Holding ops held ∧ held.Perm R

theorem Outstanding.of_perm {ops : List (Op L)} {R R' : List L} (h : Outstanding ops R)
    (hp : R.Perm R') : Outstanding ops R' := by
  obtain ⟨held, hrun, hp'⟩ := h
  exact ⟨held, hrun, hp'.trans hp⟩

theorem Outstanding.lock {ops : List (Op L)} {R : List L} {l : L} (h : Outstanding ops R)
    (hl : l ∉ R) : Outstanding (ops ++ [.lock l]) (l :: R) := by
  obtain ⟨held, hrun, hp⟩ := h
  exact ⟨l :: held, hrun.lock (fun hm => hl (hp.mem_iff.mp hm)), hp.cons l⟩

theorem Outstanding.unlock {ops : List (Op L)} {R : List L} {l : L}
    (h : Outstanding ops (l :: R)) : Outstanding (ops ++ [.unlock l]) R := by
  obtain ⟨held, hrun, hp⟩ := h
  have hmem : l ∈ held := hp.mem_iff.mpr List.mem_cons_self
  refine ⟨held.erase l, hrun.append ?_, ?_⟩
  · rw [run, if_pos hmem]
    rfl
  · have herase := hp.erase l
    rwa [List.erase_cons_head] at herase

/-- Nothing is held twice. -/
theorem run_nodup {held held' : List L} {ops : List (Op L)} (h : held.Nodup)
    (hrun : run held ops = some held') : held'.Nodup := by
  induction ops generalizing held with
  | nil =>
      obtain rfl := Option.some.inj hrun
      exact h
  | cons o ops ih =>
      cases o with
      | lock l =>
          rw [run] at hrun
          by_cases hl : l ∈ held
          · rw [if_pos hl] at hrun
            exact absurd hrun.symm (Option.some_ne_none _)
          · rw [if_neg hl] at hrun
            exact ih (List.nodup_cons.mpr ⟨hl, h⟩) hrun
      | unlock l =>
          rw [run] at hrun
          by_cases hl : l ∈ held
          · rw [if_pos hl] at hrun
            exact ih (h.erase l) hrun
          · rw [if_neg hl] at hrun
            exact absurd hrun.symm (Option.some_ne_none _)

theorem Outstanding.nodup {ops : List (Op L)} {R : List L} (h : Outstanding ops R) : R.Nodup := by
  obtain ⟨held, hrun, hp⟩ := h
  exact hp.nodup_iff.mp (run_nodup List.nodup_nil hrun)

/-- Several are released, one after the other. -/
theorem Outstanding.unlocks {ops : List (Op L)} {A R : List L} (h : Outstanding ops (A ++ R)) :
    Outstanding (ops ++ A.map .unlock) R := by
  induction A generalizing ops with
  | nil =>
      rw [List.map_nil, List.append_nil]
      exact h
  | cons l A ih =>
      rw [List.map_cons, List.append_cons]
      exact ih h.unlock

theorem Outstanding.balanced {ops : List (Op L)} (h : Outstanding ops []) : Balanced ops := by
  obtain ⟨held, hrun, hp⟩ := h
  obtain rfl := hp.eq_nil
  exact hrun

/-- Whoever gives the locks out gives only those that are not held. -/
def FreshFrom (log : List (Op L)) : List (Op L) → Prop
  | [] => True
  | .lock l :: ops => (∀ held, run [] log = some held → l ∉ held) ∧ FreshFrom (log ++ [.lock l]) ops
  | .unlock l :: ops => FreshFrom (log ++ [.unlock l]) ops

/-- A lock is not among those held. -/
def decNotHeld (log : List (Op L)) (l : L) :
    Decidable (∀ held, run [] log = some held → l ∉ held) :=
  match run [] log with
  | none => isTrue (fun _ h => absurd h (Option.some_ne_none _).symm)
  | some held => decidable_of_iff (l ∉ held)
      ⟨fun h _ heq => Option.some.inj heq ▸ h, fun h => h held rfl⟩

/-- `FreshFrom` is decided by following the log. -/
def FreshFrom.dec : (ops log : List (Op L)) → Decidable (FreshFrom log ops)
  | [], _ => isTrue trivial
  | .lock l :: ops, log =>
      match decNotHeld log l, FreshFrom.dec ops (log ++ [.lock l]) with
      | isTrue h, isTrue h' => isTrue ⟨h, h'⟩
      | isFalse h, _ => isFalse (fun hf => h hf.1)
      | _, isFalse h' => isFalse (fun hf => h' hf.2)
  | .unlock l :: ops, log => FreshFrom.dec ops (log ++ [.unlock l])

instance (log ops : List (Op L)) : Decidable (FreshFrom log ops) := FreshFrom.dec ops log

theorem FreshFrom.append_iff {log ops ops' : List (Op L)} :
    FreshFrom log (ops ++ ops') ↔ FreshFrom log ops ∧ FreshFrom (log ++ ops) ops' := by
  induction ops generalizing log with
  | nil =>
      rw [List.nil_append, List.append_nil]
      exact (and_iff_right trivial).symm
  | cons o ops ih =>
      cases o with
      | lock l =>
          rw [List.cons_append, FreshFrom, FreshFrom, ih, and_assoc, List.append_assoc,
            List.singleton_append]
      | unlock l =>
          rw [List.cons_append, FreshFrom, FreshFrom, ih, List.append_assoc,
            List.singleton_append]

theorem FreshFrom.not_mem {log ops : List (Op L)} {R : List L} {l : L}
    (h : FreshFrom log (.lock l :: ops)) (ho : Outstanding log R) : l ∉ R := by
  obtain ⟨held, hrun, hp⟩ := ho
  exact fun hmem => h.1 held hrun (hp.mem_iff.mpr hmem)

/-! ## What is not balanced -/

/-- A lock that is not held is released. -/
theorem not_balanced_unlock (l : L) (ops : List (Op L)) : ¬ Balanced (.unlock l :: ops) := by
  unfold Balanced
  rw [run, if_neg List.not_mem_nil]
  exact (Option.some_ne_none []).symm

/-- A lock is kept. -/
theorem not_balanced_lock (l : L) : ¬ Balanced [.lock l] := by
  unfold Balanced
  rw [run, if_neg List.not_mem_nil, run]
  exact fun h => List.cons_ne_nil l [] (Option.some.inj h)

end LockTrace
