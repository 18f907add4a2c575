/-
# Blocks taken from the front

A list of blocks, each worth a number of units, is worked off from the front.

* `StopsAtBlock ds a`: taking `a` units from blocks of sizes `ds` does not end inside
  a block (`StopsAtBlock.exists_take`).
* `settle l c`: `c` units are credited to the accounts `l`, first come first served; an
  account paid in full leaves the list.  `settle_spec` says how the list is split and
  `settle_slots` that paying is dropping units from the front.
* `draw cut a cs`: `a` units are drawn from the blocks `cs`, `drawAll` for one customer
  after the other; `cut` is what is left of a block drawn from in part.  It does not matter
  whether blocks come all at once or some later (`drawAll_append`).
-/
import Mathlib.Algebra.BigOperators.Group.List.Basic
import Mathlib.Algebra.Ring.Nat
import Mathlib.Data.List.Basic

namespace Blocks

/-! ## Stopping between blocks -/

/-- Taking up to `a` units ends between two blocks: the units run out before a block is
begun, or every block begun is finished. -/
def StopsAtBlock : List ℕ → ℕ → Prop
  | [], _ => True
  | d :: ds, a => a = 0 ∨ d ≤ a ∧ StopsAtBlock ds (a - d)

instance instDecidableStopsAtBlock :
    (ds : List ℕ) → (a : ℕ) → Decidable (StopsAtBlock ds a)
  | [], _ => isTrue trivial
  | d :: ds, a =>
      have := instDecidableStopsAtBlock ds (a - d)
      inferInstanceAs (Decidable (a = 0 ∨ d ≤ a ∧ StopsAtBlock ds (a - d)))

theorem StopsAtBlock.zero (ds : List ℕ) : StopsAtBlock ds 0 := by
  cases ds with
  | nil => trivial
  | cons d ds => exact .inl rfl

theorem StopsAtBlock.left {xs ys : List ℕ} {a : ℕ} (h : StopsAtBlock (xs ++ ys) a) :
    StopsAtBlock xs a := by
  induction xs generalizing a with
  | nil => trivial
  | cons x xs ih =>
      rcases h with h | ⟨hx, h⟩
      · exact .inl h
      · exact .inr ⟨hx, ih h⟩

/-- Once the first blocks are taken the rest is met with what is left. -/
theorem StopsAtBlock.right {xs ys : List ℕ} {a : ℕ} (h : StopsAtBlock (xs ++ ys) a) :
    StopsAtBlock ys (a - xs.sum) := by
  induction xs generalizing a with
  | nil => exact h
  | cons x xs ih =>
      rw [List.sum_cons, ← Nat.sub_sub]
      rcases h with h | ⟨_, h⟩
      · rw [h, Nat.zero_sub, Nat.zero_sub]
        exact .zero ys
      · exact ih h

/-- Taking all there is ends behind the last block. -/
theorem StopsAtBlock.of_sum_le {ds : List ℕ} {a : ℕ} (h : ds.sum ≤ a) : StopsAtBlock ds a := by
  induction ds generalizing a with
  | nil => trivial
  | cons d ds ih =>
      rw [List.sum_cons] at h
      exact .inr ⟨by omega, ih (by omega)⟩

/-- What is taken is a number of whole blocks. -/
theorem StopsAtBlock.exists_take {ds : List ℕ} {a : ℕ} (h : StopsAtBlock ds a) :
    ∃ m ≤ ds.length, min a ds.sum = (ds.take m).sum := by
  induction ds generalizing a with
  | nil => exact ⟨0, Nat.le_refl 0, by simp⟩
  | cons d ds ih =>
      rcases h with rfl | ⟨hd, h⟩
      · exact ⟨0, Nat.zero_le _, by simp⟩
      · obtain ⟨m, hm, heq⟩ := ih h
        refine ⟨m + 1, by rw [List.length_cons]; omega, ?_⟩
        rw [List.take_succ_cons, List.sum_cons, List.sum_cons, ← heq]
        omega

/-! ## Crediting accounts in order -/

variable {α κ : Type*} (owed : α → ℕ) (pay : α → ℕ → α) (key : α → κ)

/-- Credit `c` units to the accounts `l` from the front: the accounts paid in full, the
accounts left and the units left.  The first account that cannot be paid in full takes
what there is. -/
def settle : List α → ℕ → List α × List α × ℕ
  | [], c => ([], [], c)
  | a :: l, c =>
      if owed a ≤ c then
        if c - owed a = 0 then ([a], l, 0)
        else
          let r := settle l (c - owed a)
          (a :: r.1, r.2)
      else ([], pay a c :: l, 0)

/-- One entry for each unit the accounts owe. -/
def slots (l : List α) : List κ := l.flatMap (fun a => List.replicate (owed a) (key a))

@[simp] theorem slots_nil : slots owed key [] = [] := rfl

@[simp] theorem slots_cons (a : α) (l : List α) :
    slots owed key (a :: l) = List.replicate (owed a) (key a) ++ slots owed key l := rfl

@[simp] theorem slots_append (l l' : List α) :
    slots owed key (l ++ l') = slots owed key l ++ slots owed key l' :=
  List.flatMap_append

theorem length_slots (l : List α) : (slots owed key l).length = (l.map owed).sum := by
  induction l with
  | nil => rfl
  | cons a l ih => simp [ih]

/-- Only accounts that owe something appear. -/
theorem mem_slots {l : List α} {k : κ} :
    k ∈ slots owed key l ↔ ∃ a ∈ l, key a = k ∧ 0 < owed a := by
  unfold slots
  rw [List.mem_flatMap]
  constructor
  · rintro ⟨a, ha, hk⟩
    rw [List.mem_replicate] at hk
    exact ⟨a, ha, hk.2.symm, by omega⟩
  · rintro ⟨a, ha, rfl, hpos⟩
    exact ⟨a, ha, List.mem_replicate.mpr ⟨by omega, rfl⟩⟩

/-- Accounts that owe nothing leave no trace. -/
theorem slots_eq_nil {l : List α} (h : ∀ a ∈ l, owed a = 0) : slots owed key l = [] := by
  induction l with
  | nil => rfl
  | cons a l ih =>
      rw [slots_cons, h a (List.mem_cons_self ..), List.replicate_zero, List.nil_append,
        ih (fun b hb => h b (List.mem_cons_of_mem _ hb))]

/-- Two lists of accounts with the same keys and debts have the same units. -/
theorem slots_map (f : α → α) (l : List α) (h : ∀ a ∈ l, owed (f a) = owed a ∧ key (f a) = key a) :
    slots owed key (l.map f) = slots owed key l := by
  induction l with
  | nil => rfl
  | cons a l ih =>
      rw [List.map_cons, slots_cons, slots_cons, (h a (List.mem_cons_self ..)).1,
        (h a (List.mem_cons_self ..)).2, ih (fun b hb => h b (List.mem_cons_of_mem _ hb))]

/-- With distinct keys an account's units are those with its key. -/
theorem count_slots [BEq κ] [LawfulBEq κ] {l : List α} (hnd : (l.map key).Nodup) {a : α}
    (ha : a ∈ l) : (slots owed key l).count (key a) = owed a := by
  induction l with
  | nil => cases ha
  | cons b l ih =>
      rw [List.map_cons, List.nodup_cons] at hnd
      rw [slots_cons, List.count_append, List.count_replicate]
      rcases List.mem_cons.mp ha with rfl | ha
      · have hrest : key a ∉ slots owed key l := by
          intro hin
          obtain ⟨c, hc, hk, _⟩ := (mem_slots owed key).mp hin
          exact hnd.1 (hk ▸ List.mem_map_of_mem hc)
        rw [List.count_eq_zero_of_not_mem hrest]
        simp
      · have hne : ¬ key b = key a := fun he => hnd.1 (he ▸ List.mem_map_of_mem ha)
        rw [ih hnd.2 ha]
        simp [hne]

theorem count_slots_of_notMem [BEq κ] [LawfulBEq κ] {l : List α} {k : κ} (h : k ∉ l.map key) :
    (slots owed key l).count k = 0 := by
  refine List.count_eq_zero_of_not_mem (fun hin => h ?_)
  obtain ⟨a, ha, rfl, _⟩ := (mem_slots owed key).mp hin
  exact List.mem_map_of_mem ha

/-- **How `settle` splits the list.**  The accounts paid in full are a front part; the
rest is untouched but for its first account, which may have been paid in part. -/
theorem settle_spec (l : List α) (c : ℕ) :
    ∃ tail, l = (settle owed pay l c).1 ++ tail ∧
      ((settle owed pay l c).2.1 = tail ∧ (tail = [] ∨ (settle owed pay l c).2.2 = 0) ∨
        ∃ a t k, tail = a :: t ∧ k < owed a ∧
          (settle owed pay l c).2 = (pay a k :: t, 0)) := by
  induction l generalizing c with
  | nil => exact ⟨[], rfl, .inl ⟨rfl, .inl rfl⟩⟩
  | cons a l ih =>
      rw [settle]
      split_ifs with h1 h2
      · exact ⟨l, rfl, .inl ⟨rfl, .inr rfl⟩⟩
      · obtain ⟨tail, heq, hrest⟩ := ih (c - owed a)
        exact ⟨tail, by rw [List.cons_append, ← heq], hrest⟩
      · exact ⟨a :: l, rfl, .inr ⟨a, l, c, rfl, by omega, rfl⟩⟩

/-- **Paying is dropping units from the front**, whatever units stand behind. -/
theorem settle_slots (hpay : ∀ a c, owed (pay a c) = owed a - c)
    (hkey : ∀ a c, key (pay a c) = key a) (l : List α) (c : ℕ) (t : List κ) :
    (slots owed key (settle owed pay l c).2.1 ++ t).drop (settle owed pay l c).2.2
      = (slots owed key l ++ t).drop c := by
  induction l generalizing c with
  | nil => rfl
  | cons a l ih =>
      rw [settle]
      split_ifs with h1 h2
      · rw [show c = owed a from by omega, slots_cons, List.append_assoc, List.drop_zero,
          List.drop_left' List.length_replicate]
      · have hc : c = owed a + (c - owed a) := by omega
        conv_rhs => rw [hc, slots_cons, List.append_assoc, ← List.drop_drop,
          List.drop_left' List.length_replicate]
        exact ih (c - owed a)
      · rw [List.drop_zero, slots_cons, slots_cons, hpay, hkey, List.append_assoc,
          List.append_assoc, List.drop_append_of_le_length
            (by rw [List.length_replicate]; omega), List.drop_replicate]

/-- Units paid in are units no longer owed or units left. -/
theorem settle_units (hpay : ∀ a c, owed (pay a c) = owed a - c) (l : List α) (c : ℕ) :
    (settle owed pay l c).2.2 + (slots owed key l).length
      = c + (slots owed key (settle owed pay l c).2.1).length := by
  induction l generalizing c with
  | nil => rfl
  | cons a l ih =>
      rw [settle]
      split_ifs with h1 h2
      · rw [slots_cons, List.length_append, List.length_replicate]
        show 0 + _ = c + (slots owed key l).length
        omega
      · have hrest := ih (c - owed a)
        rw [slots_cons, List.length_append, List.length_replicate]
        show (settle owed pay l (c - owed a)).2.2 + _
          = c + (slots owed key (settle owed pay l (c - owed a)).2.1).length
        omega
      · rw [slots_cons, slots_cons, List.length_append, List.length_append,
          List.length_replicate, List.length_replicate, hpay]
        show 0 + _ = _
        omega

/-! ## Drawing from blocks -/

section Draw

variable {β : Type*} (cut : ℕ → List β → List β)

/-- Draw `a` units from the blocks: what is drawn, how many units are still wanted, what is
left. -/
def draw : ℕ → List (List β) → List β × ℕ × List (List β)
  | a, [] => ([], a, [])
  | a, c :: cs =>
      if a = 0 then ([], 0, c :: cs)
      else if a < c.length then (c.take a, 0, cut a c :: cs)
      else
        let r := draw (a - c.length) cs
        (c ++ r.1, r.2)

/-- Draw for several customers, each of whom is served in full before the next one. -/
def drawAll : List ℕ → List (List β) → List β × List ℕ × List (List β)
  | [], cs => ([], [], cs)
  | a :: as, cs =>
      let r := draw cut a cs
      if r.2.1 = 0 then
        let r' := drawAll as r.2.2
        (r.1 ++ r'.1, r'.2)
      else (r.1, r.2.1 :: as, r.2.2)

/-- Drawing goes on where it stopped. -/
theorem draw_append (a : ℕ) (cs ds : List (List β)) :
    draw cut a (cs ++ ds) =
      if (draw cut a cs).2.1 = 0 then ((draw cut a cs).1, 0, (draw cut a cs).2.2 ++ ds)
      else ((draw cut a cs).1 ++ (draw cut (draw cut a cs).2.1 ds).1,
        (draw cut (draw cut a cs).2.1 ds).2) := by
  induction cs generalizing a with
  | nil =>
      rw [List.nil_append, draw]
      by_cases h : a = 0
      · subst h
        cases ds <;> rfl
      · rw [if_neg h]
        rfl
  | cons c cs ih =>
      rw [List.cons_append, draw, draw]
      by_cases h1 : a = 0
      · rw [if_pos h1, if_pos h1, if_pos rfl]
        rfl
      · by_cases h2 : a < c.length
        · rw [if_neg h1, if_neg h1, if_pos h2, if_pos h2, if_pos rfl]
          rfl
        · simp only [if_neg h1, if_neg h2]
          rw [ih]
          split_ifs
          · rfl
          · rw [List.append_assoc]

/-- **Blocks that come later** are drawn from as if they had been there, for customers one of
whom is still waiting. -/
theorem drawAll_append {as : List ℕ} {cs : List (List β)} (ds : List (List β))
    (h : (drawAll cut as cs).2.1 ≠ []) :
    drawAll cut as (cs ++ ds) =
      ((drawAll cut as cs).1 ++ (drawAll cut (drawAll cut as cs).2.1 ds).1,
        (drawAll cut (drawAll cut as cs).2.1 ds).2) := by
  induction as generalizing cs with
  | nil => exact absurd rfl h
  | cons a as ih =>
      rw [drawAll] at h
      rw [drawAll, drawAll, draw_append]
      simp only at h ⊢
      by_cases h0 : (draw cut a cs).2.1 = 0
      · simp only [h0, if_true] at h ⊢
        rw [ih h, List.append_assoc]
      · simp only [h0, if_false]
        rw [drawAll]
        simp only
        split_ifs
        · rw [List.append_assoc]
        · rfl

/-- The blocks that are not empty. -/
def solid (cs : List (List β)) : List (List β) := cs.filter (fun c => !c.isEmpty)

/-- What is left after `p` units of the first block. -/
def cutFirst (p : ℕ) : List (List β) → List (List β)
  | [] => []
  | c :: cs => cut p c :: cs

/-- **Where drawing stops.**  Whole blocks `pre` and `p` units of the next one are drawn if
these are all the units wanted, or all there are. -/
theorem draw_split (hzero : ∀ c, cut 0 c = c) (hcut : ∀ p (c : List β), p < c.length → cut p c ≠ [])
    {a p a' : ℕ} {pre post : List (List β)} (hsum : (pre.map List.length).sum + p + a' = a)
    (hp : p = 0 ∨ ∃ c t, post = c :: t ∧ p < c.length) (hend : post = [] ∨ a' = 0) :
    draw cut a (solid (pre ++ post))
      = (pre.flatten ++ (post.headD []).take p, a', solid (cutFirst cut p post)) := by
  induction pre generalizing a with
  | nil =>
      rw [List.map_nil, List.sum_nil, Nat.zero_add] at hsum
      rw [List.nil_append, List.flatten_nil, List.nil_append]
      cases post with
      | nil =>
          obtain rfl : p = 0 := hp.resolve_right (by rintro ⟨c, t, h, -⟩; cases h)
          rw [Nat.zero_add] at hsum
          rw [← hsum]
          rfl
      | cons c t =>
          obtain rfl : a' = 0 := hend.resolve_left (List.cons_ne_nil c t)
          rw [Nat.add_zero] at hsum
          subst hsum
          rcases Nat.eq_zero_or_pos p with rfl | hpos
          · rw [cutFirst, hzero]
            cases solid (c :: t) <;> rfl
          · obtain ⟨c', t', heq, hlt⟩ := hp.resolve_left (by omega)
            obtain ⟨rfl, rfl⟩ := List.cons.inj heq
            have hc : c ≠ [] := List.ne_nil_of_length_pos (by omega)
            have hsolid : solid (c :: t) = c :: solid t := by simp [solid, hc]
            have hsolid' : solid (cut p c :: t) = cut p c :: solid t := by
              simp [solid, hcut p c hlt]
            rw [hsolid, draw, if_neg (by omega), if_pos hlt, cutFirst, hsolid']
            rfl
  | cons c pre ih =>
      rw [List.map_cons, List.sum_cons] at hsum
      by_cases hc : c = []
      · subst hc
        exact ih (by simpa using hsum)
      · have hsolid : solid (c :: pre ++ post) = c :: solid (pre ++ post) := by
          simp [solid, hc]
        have hlen := List.length_pos_iff.mpr hc
        rw [hsolid, draw, if_neg (by omega), if_neg (by omega),
          ih (a := a - c.length) (by omega), List.flatten_cons, List.append_assoc]

end Draw

end Blocks
