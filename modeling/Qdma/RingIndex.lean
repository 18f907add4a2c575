/-
# Index arithmetic on a ring of `n` slots

A ring of `n` slots is indexed by the naturals below `n`.  Two operations on such
indices carry every argument about producer and consumer positions:

* `adv n a k`: the index `k` slots after `a`;
* `dist n a b`: how many slots lie from `a` (included) to `b` (excluded).

They are inverse to one another (`dist_adv`, `adv_dist`), and the distance of a
moving producer and a moving consumer is additive (`dist_adv_right`,
`dist_adv_left`) as long as neither overtakes the other.
-/
import Mathlib.Tactic.Ring
import Mathlib.Data.List.Range
import Mathlib.Logic.Function.Basic

namespace RingIndex

/-- The index `k` slots after `a`. -/
def adv (n a k : ℕ) : ℕ := (a + k) % n

/-- The number of slots from `a` (included) to `b` (excluded). -/
def dist (n a b : ℕ) : ℕ := (b + n - a) % n

/-! ## Normal forms for `omega` -/

/-- Below one lap, advancing wraps at most once. -/
theorem adv_eq {n a k : ℕ} (ha : a < n) (hk : k ≤ n) :
    adv n a k = if a + k < n then a + k else a + k - n := by
  unfold adv
  split_ifs with h
  · exact Nat.mod_eq_of_lt h
  · rw [Nat.mod_eq_sub_mod (by omega), Nat.mod_eq_of_lt (by omega)]

/-- The distance without the modulus. -/
theorem dist_eq {n a b : ℕ} (ha : a < n) (hb : b < n) :
    dist n a b = if a ≤ b then b - a else b + n - a := by
  unfold dist
  split_ifs with h
  · rw [show b + n - a = (b - a) + n from by omega, Nat.add_mod_right,
      Nat.mod_eq_of_lt (by omega)]
  · exact Nat.mod_eq_of_lt (by omega)

theorem adv_lt {n a k : ℕ} (hn : 0 < n) : adv n a k < n := Nat.mod_lt _ hn

theorem dist_lt {n a b : ℕ} (hn : 0 < n) : dist n a b < n := Nat.mod_lt _ hn

@[simp] theorem adv_zero {n a : ℕ} (ha : a < n) : adv n a 0 = a := Nat.mod_eq_of_lt ha

@[simp] theorem dist_self (n a : ℕ) : dist n a a = 0 := by
  unfold dist
  rw [Nat.add_sub_cancel_left, Nat.mod_self]

/-! ## Advancing and measuring are inverse -/

/-- Advancing twice is advancing by the sum. -/
theorem adv_adv (n a k l : ℕ) : adv n (adv n a k) l = adv n a (k + l) := by
  unfold adv
  rw [Nat.mod_add_mod, Nat.add_assoc]

theorem dist_adv {n a k : ℕ} (ha : a < n) (hk : k < n) : dist n a (adv n a k) = k := by
  have hlt : adv n a k < n := adv_lt (by omega)
  have h := adv_eq ha hk.le
  rw [dist_eq ha hlt]
  split_ifs at h ⊢ <;> omega

theorem adv_dist {n a b : ℕ} (ha : a < n) (hb : b < n) : adv n a (dist n a b) = b := by
  have hlt : dist n a b < n := dist_lt (by omega)
  have h := dist_eq ha hb
  rw [adv_eq ha hlt.le]
  split_ifs at h ⊢ <;> omega

theorem dist_eq_zero {n a b : ℕ} (ha : a < n) (hb : b < n) : dist n a b = 0 ↔ a = b := by
  rw [dist_eq ha hb]
  split_ifs <;> omega

/-- Distinct offsets below one lap reach distinct slots. -/
theorem adv_inj {n a k l : ℕ} (ha : a < n) (hk : k < n) (hl : l < n)
    (h : adv n a k = adv n a l) : k = l := by
  rw [← dist_adv ha hk, h, dist_adv ha hl]

/-! ## Moving the two ends -/

/-- A producer that stays short of one lap lengthens the distance by what it adds. -/
theorem dist_adv_right {n c p k : ℕ} (hc : c < n) (hp : p < n) (h : dist n c p + k < n) :
    dist n c (adv n p k) = dist n c p + k := by
  conv_lhs => rw [← adv_dist hc hp, adv_adv]
  exact dist_adv hc h

/-- A consumer that stays behind the producer shortens the distance by what it takes. -/
theorem dist_adv_left {n c p k : ℕ} (hc : c < n) (hp : p < n) (h : k ≤ dist n c p) :
    dist n (adv n c k) p = dist n c p - k := by
  have hd : dist n c p < n := dist_lt (by omega)
  have hlt : adv n c k < n := adv_lt (by omega)
  have hp' : p = adv n (adv n c k) (dist n c p - k) := by
    rw [adv_adv, Nat.add_sub_cancel' h, adv_dist hc hp]
  conv_lhs => rw [hp']
  exact dist_adv hlt (by omega)

/-- The distance to a slot between the two ends splits the distance of the ends. -/
theorem dist_add_dist {n a b c : ℕ} (ha : a < n) (hb : b < n) (hc : c < n)
    (h : dist n a b ≤ dist n a c) : dist n b c = dist n a c - dist n a b := by
  conv_lhs => rw [← adv_dist ha hb]
  exact dist_adv_left ha hc h

/-- What lies between a slot of the stretch from `a` to `p` and `p` lies on the stretch. -/
theorem dist_le_dist {n a b c p : ℕ} (ha : a < n) (hb : b < n) (hc : c < n) (hp : p < n)
    (hab : dist n a b ≤ dist n a p) (hbc : dist n b c ≤ dist n b p) :
    dist n a c ≤ dist n a p := by
  have hsplit := dist_add_dist ha hb hp hab
  have hlt : dist n a p < n := dist_lt (by omega)
  have hmove : dist n a c = dist n a b + dist n b c := by
    conv_lhs => rw [← adv_dist hb hc]
    exact dist_adv_right ha hb (by omega)
  omega

/-- A slot between the two ends, seen from the producer: nearly a lap ahead. -/
theorem adv_between {n c p j : ℕ} (hc : c < n) (hp : p < n) :
    adv n c j = adv n p (n - dist n c p + j) := by
  have hd : dist n c p < n := dist_lt (by omega)
  have hp' : adv n p (n - dist n c p + j)
      = adv n (adv n c (dist n c p)) (n - dist n c p + j) := by
    rw [adv_dist hc hp]
  rw [hp', adv_adv, ← Nat.add_assoc, Nat.add_sub_cancel' hd.le]
  unfold adv
  rw [show c + (n + j) = c + j + n from by omega, Nat.add_mod_right]

/-- One more slot, written the way ring code writes it. -/
theorem adv_one {n a : ℕ} (ha : a < n) : adv n a 1 = if a + 1 = n then 0 else a + 1 := by
  rw [adv_eq ha (by omega)]
  split_ifs <;> omega

/-- The slot just before `a` is a full lap less one after it. -/
theorem adv_pred {n a : ℕ} (ha : a < n) : adv n (adv n a (n - 1)) 1 = a := by
  rw [adv_adv, show n - 1 + 1 = n from by omega]
  unfold adv
  rw [Nat.add_mod_right, Nat.mod_eq_of_lt ha]

/-! ## The stretch of slots between two indices -/

/-- The slots from `a` to `b`, in ring order. -/
def stretch {α : Type*} (n : ℕ) (r : ℕ → α) (a b : ℕ) : List α :=
  (List.range (dist n a b)).map (fun j => r (adv n a j))

@[simp] theorem length_stretch {α : Type*} (n : ℕ) (r : ℕ → α) (a b : ℕ) :
    (stretch n r a b).length = dist n a b := by
  simp [stretch]

@[simp] theorem stretch_self {α : Type*} (n : ℕ) (r : ℕ → α) (a : ℕ) : stretch n r a a = [] := by
  simp [stretch]

theorem getElem_stretch {α : Type*} (n : ℕ) (r : ℕ → α) (a b j : ℕ)
    (h : j < (stretch n r a b).length) : (stretch n r a b)[j] = r (adv n a j) := by
  simp [stretch]

/-- A consumer that advances drops the slots it passes. -/
theorem stretch_adv_left {α : Type*} {n c p k : ℕ} (r : ℕ → α) (hc : c < n) (hp : p < n)
    (h : k ≤ dist n c p) : stretch n r (adv n c k) p = (stretch n r c p).drop k := by
  apply List.ext_getElem
  · rw [length_stretch, List.length_drop, length_stretch, dist_adv_left hc hp h]
  · intro j h1 h2
    rw [getElem_stretch, List.getElem_drop, getElem_stretch, adv_adv]

/-- Two rings that agree on the stretch have the same stretch. -/
theorem stretch_congr {α : Type*} {n a b : ℕ} {r r' : ℕ → α}
    (h : ∀ j < dist n a b, r (adv n a j) = r' (adv n a j)) :
    stretch n r a b = stretch n r' a b := by
  unfold stretch
  refine List.map_congr_left (fun j hj => h j ?_)
  exact List.mem_range.mp hj

/-- A producer that advances short of one lap appends the slots it passes. -/
theorem stretch_adv_right {α : Type*} {n c p k : ℕ} (r : ℕ → α) (hc : c < n) (hp : p < n)
    (h : dist n c p + k < n) :
    stretch n r c (adv n p k) = stretch n r c p ++ stretch n r p (adv n p k) := by
  apply List.ext_getElem
  · rw [List.length_append, length_stretch, length_stretch, length_stretch,
      dist_adv_right hc hp h, dist_adv hp (by omega)]
  · intro j h1 h2
    rw [getElem_stretch, List.getElem_append]
    split_ifs with hj
    · rw [getElem_stretch]
    · rw [getElem_stretch, length_stretch]
      rw [length_stretch] at hj
      have hpj : adv n c j = adv n (adv n c (dist n c p)) (j - dist n c p) := by
        rw [adv_adv, Nat.add_sub_cancel' (by omega)]
      rw [hpj, adv_dist hc hp]

/-- The stretch over a single slot. -/
theorem stretch_one {α : Type*} {n p : ℕ} (r : ℕ → α) (hp : p < n) (hn : 1 < n) :
    stretch n r p (adv n p 1) = [r p] := by
  rw [stretch, dist_adv hp hn]
  simp [hp]

/-- `stretch` of a ring seen through `f` is `f` mapped over the stretch. -/
theorem stretch_map {α β : Type*} (n : ℕ) (f : α → β) (r : ℕ → α) (a b : ℕ) :
    (stretch n r a b).map f = stretch n (fun i => f (r i)) a b := by
  simp [stretch]

/-! ## Sequence numbers

A position that only moves forward is counted without wrapping; its slot is the count
modulo `n`. -/

theorem adv_mod (n a k : ℕ) : adv n (a % n) k = (a + k) % n := Nat.mod_add_mod a n k

theorem dist_mod {n a b : ℕ} (hab : a ≤ b) (h : b < a + n) : dist n (a % n) (b % n) = b - a := by
  have hb : b % n = adv n (a % n) (b - a) := by rw [adv_mod, Nat.add_sub_cancel' hab]
  rw [hb]
  exact dist_adv (Nat.mod_lt _ (by omega)) (by omega)

/-- An index on the way from the count `a` to the count `b` is that of a count between them. -/
theorem exists_count_between {n a b p : ℕ} (hp : p < n) (hab : a ≤ b) (h : b < a + n)
    (hle : dist n (a % n) p ≤ dist n (a % n) (b % n)) : ∃ c, p = c % n ∧ a ≤ c ∧ c ≤ b := by
  rw [dist_mod hab h] at hle
  refine ⟨a + dist n (a % n) p, ?_, Nat.le_add_right _ _, by omega⟩
  rw [← adv_mod, adv_dist (Nat.mod_lt _ (by omega)) hp]

/-- Counts less than a lap apart have different slots. -/
theorem mod_ne_mod {n a b : ℕ} (hab : a < b) (h : b < a + n) : a % n ≠ b % n := by
  intro he
  have hd := dist_mod hab.le h
  rw [he, dist_self] at hd
  omega

/-- Every slot is that of a count in a given lap. -/
theorem exists_mod_eq {n i : ℕ} (a : ℕ) (hi : i < n) : ∃ j, a ≤ j ∧ j < a + n ∧ j % n = i := by
  have hlt : dist n (a % n) i < n := dist_lt (by omega)
  refine ⟨a + dist n (a % n) i, Nat.le_add_right _ _, by omega, ?_⟩
  rw [← adv_mod, adv_dist (Nat.mod_lt _ (by omega)) hi]

theorem stretch_mod {α : Type*} {n a b : ℕ} (r : ℕ → α) (hab : a ≤ b) (h : b < a + n) :
    stretch n r (a % n) (b % n) = (List.range (b - a)).map (fun j => r ((a + j) % n)) := by
  unfold stretch
  rw [dist_mod hab h]
  exact List.map_congr_left (fun j _ => by rw [adv_mod])

/-! ## Writing consecutive slots -/

/-- Apply the writes `ws` to consecutive slots, the first of them `p`. -/
def fill {α : Type*} (n : ℕ) (r : ℕ → α) (p : ℕ) : List (α → α) → ℕ → α
  | [] => r
  | w :: ws => fill n (Function.update r p (w (r p))) (adv n p 1) ws

/-- What no write touches stays as it is everywhere. -/
theorem fill_inv {α β : Type*} {n p : ℕ} (g : α → β) (r : ℕ → α) (ws : List (α → α))
    (h : ∀ w ∈ ws, ∀ x, g (w x) = g x) (i : ℕ) : g (fill n r p ws i) = g (r i) := by
  induction ws generalizing r p with
  | nil => rfl
  | cons w ws ih =>
      rw [fill, ih _ (fun v hv => h v (List.mem_cons_of_mem _ hv))]
      by_cases hi : i = p
      · rw [hi, Function.update_self, h w List.mem_cons_self]
      · rw [Function.update_of_ne hi]

/-- Slots behind the written ones keep their content. -/
theorem fill_old {α : Type*} {n p : ℕ} (r : ℕ → α) (hp : p < n) (ws : List (α → α)) {j : ℕ}
    (hj : ws.length ≤ j) (hjn : j < n) : fill n r p ws (adv n p j) = r (adv n p j) := by
  induction ws generalizing r p j with
  | nil => rfl
  | cons w ws ih =>
      rw [List.length_cons] at hj
      have hn : adv n p 1 < n := adv_lt (by omega)
      have hstep : adv n p j = adv n (adv n p 1) (j - 1) := by
        rw [adv_adv, Nat.add_sub_cancel' (by omega)]
      rw [fill, hstep, ih _ hn (by omega) (by omega), ← hstep]
      refine Function.update_of_ne ?_ _ _
      intro h
      have h0 : adv n p j = adv n p 0 := by rw [adv_zero hp, h]
      have := adv_inj hp hjn (by omega) h0
      omega

/-- The slot just behind the first written one keeps its content. -/
theorem fill_behind {α : Type*} {n p : ℕ} (r : ℕ → α) (hp : p < n) (ws : List (α → α))
    (hlen : ws.length < n) : fill n r (adv n p 1) ws p = r p := by
  have hlap : adv n (adv n p 1) (n - 1) = p := by
    rw [adv_adv, Nat.add_comm 1, ← adv_adv, adv_pred hp]
  have hold := fill_old r (p := adv n p 1) (adv_lt (by omega)) ws (j := n - 1)
    (by omega) (by omega)
  rwa [hlap] at hold

/-- The `j`-th written slot holds the `j`-th write applied to its old content. -/
theorem fill_new {α : Type*} {n p : ℕ} (r : ℕ → α) (hp : p < n) (ws : List (α → α))
    (hlen : ws.length ≤ n) {j : ℕ} (hj : j < ws.length) :
    fill n r p ws (adv n p j) = ws[j] (r (adv n p j)) := by
  induction ws generalizing r p j with
  | nil => simp at hj
  | cons w ws ih =>
      rw [List.length_cons] at hlen hj
      have hn : adv n p 1 < n := adv_lt (by omega)
      cases j with
      | zero =>
          rw [adv_zero hp, fill, fill_behind _ hp ws (by omega), Function.update_self]
          rfl
      | succ j =>
          have hstep : adv n p (j + 1) = adv n (adv n p 1) j := by
            rw [adv_adv, Nat.add_comm 1 j]
          have hne : adv n p (j + 1) ≠ p := by
            intro h
            have h0 : adv n p (j + 1) = adv n p 0 := by rw [adv_zero hp, h]
            have := adv_inj hp (by omega) (by omega) h0
            omega
          rw [fill, hstep, ih _ hn (by omega) (by omega), ← hstep, List.getElem_cons_succ,
            Function.update_of_ne hne]

end RingIndex
