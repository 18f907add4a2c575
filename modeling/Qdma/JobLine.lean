/-
# A line of jobs

A job is a list of operations on a world.  Jobs join a line at its end; the operations are
performed one at a time and in order, whatever job they belong to, and the job at the front
retires once it has none left.  In between the world may change from outside.

`skip` says what the jobs have left after `n` operations; it turns "perform the next one" into
`n + 1`.  `job_rule` is the rule for one job: an assertion for each number of its operations that
are done, which the jobs before it keep before it begins and those behind it once it is done,
holds to the end when the job has retired.
-/
import Qdma.Exec

namespace JobLine

open Exec

variable {σ κ ο : Type*}

/-- A job: its name and the operations it has left. -/
structure Job (κ ο : Type*) where
  key : κ
  ops : List ο

/-- A line of jobs before a world, and the names of those that have retired. -/
structure Line (σ κ ο : Type*) where
  world : σ
  jobs : List (Job κ ο) := []
  retired : List κ := []

/-- What happens to a line. -/
inductive Act (σ κ ο : Type*) where
  | join (j : Job κ ο)
  | perform
  | retire
  | outside (f : σ → σ)

/-! ## What the jobs have left -/

/-- The operations the jobs have left, in order. -/
def todo (js : List (Job κ ο)) : List ο := js.flatMap Job.ops

/-- The jobs after `n` of their operations were performed. -/
def skip : ℕ → List (Job κ ο) → List (Job κ ο)
  | _, [] => []
  | n, j :: js => ⟨j.key, j.ops.drop n⟩ :: skip (n - j.ops.length) js

@[simp] theorem todo_cons (j : Job κ ο) (js : List (Job κ ο)) : todo (j :: js) = j.ops ++ todo js :=
  List.flatMap_cons

@[simp] theorem todo_append (js ks : List (Job κ ο)) : todo (js ++ ks) = todo js ++ todo ks :=
  List.flatMap_append

@[simp] theorem skip_zero (js : List (Job κ ο)) : skip 0 js = js := by
  induction js with
  | nil => rfl
  | cons j js ih => rw [skip, List.drop_zero, Nat.zero_sub, ih]

theorem todo_skip (n : ℕ) (js : List (Job κ ο)) : todo (skip n js) = (todo js).drop n := by
  induction js generalizing n with
  | nil => simp [skip, todo]
  | cons j js ih => rw [skip, todo_cons, todo_cons, ih, List.drop_append]

theorem skip_skip (m n : ℕ) (js : List (Job κ ο)) : skip m (skip n js) = skip (n + m) js := by
  induction js generalizing m n with
  | nil => rfl
  | cons j js ih =>
      rw [skip, skip, skip, ih, List.drop_drop, List.length_drop]
      congr 2
      omega

theorem skip_append (n : ℕ) (js ks : List (Job κ ο)) :
    skip n (js ++ ks) = skip n js ++ skip (n - (todo js).length) ks := by
  induction js generalizing n with
  | nil => rfl
  | cons j js ih =>
      rw [List.cons_append, skip, skip, ih, todo_cons, List.length_append, Nat.sub_sub]
      rfl

/-- Jobs behind those that are performed are left alone. -/
theorem skip_append_left {n : ℕ} {js : List (Job κ ο)} (h : n ≤ (todo js).length)
    (ks : List (Job κ ο)) : skip n (js ++ ks) = skip n js ++ ks := by
  rw [skip_append, Nat.sub_eq_zero_of_le h, skip_zero]

/-- A job that has moved on is one that was in line, with fewer operations left. -/
theorem mem_skip {n : ℕ} {js : List (Job κ ο)} {j : Job κ ο} (h : j ∈ skip n js) :
    ∃ i ∈ js, j.key = i.key ∧ ∀ o ∈ j.ops, o ∈ i.ops := by
  induction js generalizing n with
  | nil => exact absurd h List.not_mem_nil
  | cons i js ih =>
      rw [skip] at h
      rcases List.mem_cons.mp h with rfl | h
      · exact ⟨i, List.mem_cons_self .., rfl, fun o ho => List.mem_of_mem_drop ho⟩
      · obtain ⟨i', hi', hkey, hops⟩ := ih h
        exact ⟨i', List.mem_cons_of_mem _ hi', hkey, hops⟩

/-! ## Steps -/

/-- One step of a line on which `act` says what an operation does. -/
def Line.step (act : ο → σ → σ) (l : Line σ κ ο) : Act σ κ ο → Line σ κ ο
  | .join j => { l with jobs := l.jobs ++ [j] }
  | .perform =>
      { l with
        world := ((todo l.jobs).head?.map (fun o => act o l.world)).getD l.world
        jobs := skip 1 l.jobs }
  | .retire =>
      { l with
        jobs := l.jobs.tail
        retired := l.retired ++ (l.jobs.head?.map Job.key).toList }
  | .outside f => { l with world := f l.world }

/-- Only what is left is performed, and only a job with nothing left retires. -/
def Line.Ok (l : Line σ κ ο) : Act σ κ ο → Prop
  | .perform => todo l.jobs ≠ []
  | .retire => ∃ key js, l.jobs = ⟨key, []⟩ :: js
  | _ => True

variable {act : ο → σ → σ}

/-- Performing the next of the operations left. -/
theorem step_perform {w : σ} {js : List (Job κ ο)} {r : List κ} {n : ℕ} {o : ο}
    (h : (todo js)[n]? = some o) :
    Line.step act ⟨w, skip n js, r⟩ .perform = ⟨act o w, skip (n + 1) js, r⟩ := by
  have hhead : (todo (skip n js)).head? = some o := by
    rw [todo_skip, List.head?_drop, h]
  rw [Line.step]
  simp only [hhead, Option.map_some, Option.getD_some, skip_skip]

/-- Jobs that have all their operations performed retire, one after another. -/
theorem run_retire (w : σ) (done js : List (Job κ ο)) (r : List κ) {n : ℕ}
    (h : (todo done).length ≤ n) :
    Run (Line.step act) Line.Ok ⟨w, skip n (done ++ js), r⟩
      (List.replicate done.length Act.retire)
      ⟨w, skip (n - (todo done).length) js, r ++ done.map Job.key⟩ := by
  induction done generalizing n r with
  | nil =>
      rw [List.map_nil, List.append_nil]
      exact Run.nil
  | cons j done ih =>
      rw [todo_cons, List.length_append] at h
      have hfirst : skip n (j :: (done ++ js))
          = ⟨j.key, []⟩ :: skip (n - j.ops.length) (done ++ js) := by
        rw [skip, List.drop_eq_nil_of_le (by omega)]
      have hone : Run (Line.step act) Line.Ok
          (⟨w, ⟨j.key, []⟩ :: skip (n - j.ops.length) (done ++ js), r⟩ : Line σ κ ο)
          [Act.retire] ⟨w, skip (n - j.ops.length) (done ++ js), r ++ [j.key]⟩ :=
        Run.one ⟨j.key, _, rfl⟩
      have hrest := ih (r ++ [j.key]) (n := n - j.ops.length) (by omega)
      rw [Nat.sub_sub, List.append_assoc] at hrest
      rw [List.cons_append, hfirst, todo_cons, List.length_append]
      exact hone.append hrest

/-- The job that joins in a step. -/
def Act.joins : Act σ κ ο → Option (Job κ ο)
  | .join j => some j
  | _ => none

/-! ## The rule of a job -/

section Rule

variable (act) (I : ℕ → σ → Prop) (key : κ) (ops : List ο)

/-- Another job, whose operations keep the assertion for `k`. -/
def Keeps (k : ℕ) (j : Job κ ο) : Prop :=
  j.key ≠ key ∧ ∀ o ∈ j.ops, ∀ w, I k w → I k (act o w)

/-- A step that may happen behind the job: what joins keeps the last assertion, and what happens
outside keeps them all. -/
def Spares : Act σ κ ο → Prop
  | .join j => Keeps act I key ops.length j
  | .outside f => ∀ k ≤ ops.length, ∀ w, I k w → I k (f w)
  | _ => True

/-- Where the job stands: in line, with `k` operations done and none before it left if it has
begun, or retired. -/
inductive Standing (l : Line σ κ ο) : Prop
  | waiting (ahead behind : List (Job κ ο)) (k : ℕ)
      (jobs : l.jobs = ahead ++ ⟨key, ops.drop k⟩ :: behind) (hk : k ≤ ops.length)
      (begun : k = 0 ∨ todo ahead = []) (holds : I k l.world)
      (front : ∀ j ∈ ahead, Keeps act I key 0 j)
      (back : ∀ j ∈ behind, Keeps act I key ops.length j) (fresh : key ∉ l.retired)
  | gone (holds : I ops.length l.world)
      (others : ∀ j ∈ l.jobs, Keeps act I key ops.length j)

variable {act I key ops}

theorem Keeps.skip {k n : ℕ} {js : List (Job κ ο)} (h : ∀ j ∈ js, Keeps act I key k j) :
    ∀ j ∈ JobLine.skip n js, Keeps act I key k j := by
  intro j hj
  obtain ⟨i, hi, hkey, hops⟩ := mem_skip hj
  exact ⟨by rw [hkey]; exact (h i hi).1, fun o ho => (h i hi).2 o (hops o ho)⟩

/-- The next operation of jobs that keep an assertion keeps it. -/
theorem keeps_next {k : ℕ} {js : List (Job κ ο)} (h : ∀ j ∈ js, Keeps act I key k j) {o : ο}
    (ho : o ∈ todo js) {w : σ} (hw : I k w) : I k (act o w) := by
  obtain ⟨j, hj, hmem⟩ := List.mem_flatMap.mp ho
  exact (h j hj).2 o hmem w hw

theorem Standing.step {l : Line σ κ ο} {a : Act σ κ ο}
    (hop : ∀ k (h : k < ops.length), ∀ w, I k w → I (k + 1) (act ops[k] w))
    (h : Standing act I key ops l) (hok : l.Ok a) (ha : Spares act I key ops a) :
    Standing act I key ops (l.step act a) := by
  cases h with
  | gone holds others =>
      cases a with
      | join j =>
          refine .gone holds (fun i hi => ?_)
          rcases List.mem_append.mp hi with hi | hi
          · exact others i hi
          · rw [List.mem_singleton.mp hi]
            exact ha
      | perform =>
          obtain ⟨o, rest, htodo⟩ := List.exists_cons_of_ne_nil hok
          refine .gone ?_ (Keeps.skip others)
          have hmem : o ∈ todo l.jobs := htodo ▸ List.mem_cons_self ..
          have hnext := keeps_next others hmem holds
          simpa [Line.step, htodo] using hnext
      | retire => exact .gone holds (fun j hj => others j (List.mem_of_mem_tail hj))
      | outside f => exact .gone (ha _ (Nat.le_refl _) _ holds) others
  | waiting ahead behind k jobs hk begun holds front back fresh =>
      cases a with
      | join j =>
          refine .waiting ahead (behind ++ [j]) k ?_ hk begun holds front ?_ fresh
          · show l.jobs ++ [j] = _
            rw [jobs, List.append_assoc, List.cons_append]
          · intro i hi
            rcases List.mem_append.mp hi with hi | hi
            · exact back i hi
            · rw [List.mem_singleton.mp hi]
              exact ha
      | outside f => exact .waiting ahead behind k jobs hk begun (ha k hk _ holds) front back fresh
      | retire =>
          obtain ⟨key', js, hjobs⟩ := hok
          have hl : l.step act .retire = ⟨l.world, js, l.retired ++ [key']⟩ := by
            simp [Line.step, hjobs]
          rw [hl]
          rw [hjobs] at jobs
          cases ahead with
          | nil =>
              -- the job itself retires: all its operations are done
              rw [List.nil_append, List.cons.injEq] at jobs
              obtain ⟨hjob, rfl⟩ := jobs
              have hnil : ops.drop k = [] := (congrArg Job.ops hjob).symm
              have hall : k = ops.length := Nat.le_antisymm hk (List.drop_eq_nil_iff.mp hnil)
              exact .gone (hall ▸ holds) back
          | cons j ahead =>
              rw [List.cons_append, List.cons.injEq] at jobs
              obtain ⟨rfl, rfl⟩ := jobs
              have hmem := front _ (List.mem_cons_self ..)
              refine .waiting ahead behind k rfl hk ?_ holds
                (fun i hi => front i (List.mem_cons_of_mem _ hi)) back ?_
              · exact begun.imp id (fun h => by simpa using h)
              · intro hin
                rcases List.mem_append.mp hin with hin | hin
                · exact fresh hin
                · exact hmem.1 (List.mem_singleton.mp hin).symm
      | perform =>
          obtain ⟨o, rest, htodo⟩ := List.exists_cons_of_ne_nil hok
          have hl : l.step act .perform = ⟨act o l.world, skip 1 l.jobs, l.retired⟩ := by
            simp [Line.step, htodo]
          rw [hl]
          rw [jobs, todo_append, todo_cons] at htodo
          by_cases hahead : todo ahead = []
          · rw [hahead, List.nil_append] at htodo
            rcases Nat.lt_or_ge k ops.length with hlt | hge
            -- an operation of the job
            · rw [List.drop_eq_getElem_cons hlt, List.cons_append, List.cons.injEq] at htodo
              refine .waiting (skip 1 ahead) behind (k + 1) ?_ hlt (.inr ?_) ?_ (Keeps.skip front) back fresh
              · show skip 1 l.jobs = _
                rw [jobs, skip_append, hahead, skip, List.drop_drop]
                simp only [List.length_nil, Nat.sub_zero, List.length_drop]
                rw [show 1 - (ops.length - k) = 0 by omega, skip_zero]
              · rw [todo_skip, hahead, List.drop_nil]
              · show I (k + 1) (act o l.world)
                rw [← htodo.1]
                exact hop k hlt _ holds
            -- an operation of a job behind it
            · have hall : k = ops.length := Nat.le_antisymm hk hge
              rw [List.drop_eq_nil_of_le hge, List.nil_append] at htodo
              have hmem : o ∈ todo behind := htodo ▸ List.mem_cons_self ..
              refine .waiting (skip 1 ahead) (skip 1 behind) k ?_ hk (.inr ?_) ?_ (Keeps.skip front) (Keeps.skip back) fresh
              · show skip 1 l.jobs = _
                rw [jobs, skip_append, hahead, skip, List.drop_eq_nil_of_le hge]
                rfl
              · rw [todo_skip, hahead, List.drop_nil]
              · have hk' : I ops.length l.world := hall ▸ holds
                exact hall ▸ keeps_next back hmem hk'
          -- an operation of a job before it, which therefore has not begun
          · have hzero : k = 0 := begun.resolve_right hahead
            obtain ⟨o', rest', ho'⟩ := List.exists_cons_of_ne_nil hahead
            have hmem : o ∈ todo ahead := by
              rw [ho', List.cons_append, List.cons.injEq] at htodo
              rw [ho', ← htodo.1]
              exact List.mem_cons_self ..
            refine .waiting (skip 1 ahead) behind k ?_ hk (.inl hzero) ?_ (Keeps.skip front) back fresh
            · show skip 1 l.jobs = _
              rw [jobs, skip_append_left]
              rw [ho']
              exact Nat.succ_le_succ (Nat.zero_le _)
            · show I k (act o l.world)
              rw [hzero]
              exact keeps_next front hmem (hzero ▸ holds)

/-- **The rule of a job.**  Its operations lead from one assertion to the next; the jobs before it
keep the first and those behind it the last.  Then the last one holds when it has retired. -/
theorem job_rule (hop : ∀ k (h : k < ops.length), ∀ w, I k w → I (k + 1) (act ops[k] w))
    {l l' : Line σ κ ο} (h0 : I 0 l.world) (hfresh : key ∉ l.retired)
    (hahead : ∀ j ∈ l.jobs, Keeps act I key 0 j) {acts : List (Act σ κ ο)}
    (hrun : Run (Line.step act) (fun l a => l.Ok a ∧ Spares act I key ops a)
      (l.step act (.join ⟨key, ops⟩)) acts l')
    (hret : key ∈ l'.retired) : I ops.length l'.world := by
  have hstart : Standing act I key ops (l.step act (.join ⟨key, ops⟩)) :=
    .waiting l.jobs [] 0 rfl (Nat.zero_le _) (.inl rfl) h0 hahead
      (fun _ hj => absurd hj List.not_mem_nil) hfresh
  have hend := hrun.invariant hstart (fun l a hl ha => hl.step hop ha.1 ha.2)
  cases hend with
  | waiting _ _ _ _ _ _ _ _ _ fresh => exact absurd hret fresh
  | gone holds _ => exact holds

end Rule

end JobLine
