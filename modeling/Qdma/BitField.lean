/-
# Fields of a word

A register word is made of fields, each at its place: `Field` says where.  `put` shifts a value
to the place of its field, `pack` joins the fields of a word by `|||`, and `get` reads one
back.

* `get_pack`: if the places lie apart and the values fit, every field reads back as written.
* `pack_testBit_outside`: the bits outside the fields are zero.

`Field.set` replaces one field of a word and leaves the others alone.
-/
import Mathlib.Data.List.Pairwise
import Mathlib.Data.Nat.Bitwise

namespace BitField

/-- The place of a field: `width` bits from bit `shift` on. -/
structure Field where
  shift : ℕ
  width : ℕ

/-- A value at the place of the field. -/
def Field.put (f : Field) (v : ℕ) : ℕ := v <<< f.shift

/-- The value of the field in a word. -/
def Field.get (f : Field) (w : ℕ) : ℕ := (w >>> f.shift) &&& (2 ^ f.width - 1)

/-- Bit `i` belongs to the field. -/
def Field.Covers (f : Field) (i : ℕ) : Prop := f.shift ≤ i ∧ i < f.shift + f.width

/-- Two fields have no bit in common. -/
def Field.Apart (f g : Field) : Prop :=
  f.shift + f.width ≤ g.shift ∨ g.shift + g.width ≤ f.shift

/-- The values of some fields in one word. -/
def pack (fs : List (Field × ℕ)) : ℕ := fs.foldl (fun w p => w ||| p.1.put p.2) 0

/-- Every value fits its field. -/
def Fits (fs : List (Field × ℕ)) : Prop := ∀ p ∈ fs, p.2 < 2 ^ p.1.width

instance (fs : List (Field × ℕ)) : Decidable (Fits fs) :=
  inferInstanceAs (Decidable (∀ p ∈ fs, _))

instance (f : Field) (i : ℕ) : Decidable (f.Covers i) := inferInstanceAs (Decidable (_ ∧ _))

instance (f g : Field) : Decidable (f.Apart g) := inferInstanceAs (Decidable (_ ∨ _))

theorem Field.put_testBit (f : Field) (v i : ℕ) :
    (f.put v).testBit i = (decide (f.shift ≤ i) && v.testBit (i - f.shift)) := by
  unfold Field.put
  rw [Nat.testBit_shiftLeft]

theorem Field.get_eq (f : Field) (w : ℕ) : f.get w = w / 2 ^ f.shift % 2 ^ f.width := by
  unfold Field.get
  rw [Nat.and_two_pow_sub_one_eq_mod, Nat.shiftRight_eq_div_pow]

theorem Field.get_testBit (f : Field) (w i : ℕ) :
    (f.get w).testBit i = (decide (i < f.width) && w.testBit (f.shift + i)) := by
  unfold Field.get
  rw [Nat.and_two_pow_sub_one_eq_mod, Nat.testBit_mod_two_pow, Nat.testBit_shiftRight]

theorem foldl_testBit (fs : List (Field × ℕ)) (w i : ℕ) :
    (fs.foldl (fun w p => w ||| p.1.put p.2) w).testBit i = true ↔
      w.testBit i = true ∨ ∃ p ∈ fs, (p.1.put p.2).testBit i = true := by
  induction fs generalizing w with
  | nil => simp
  | cons p fs ih =>
      rw [List.foldl_cons, ih, Nat.testBit_or, Bool.or_eq_true]
      simp only [List.mem_cons, exists_eq_or_imp, or_assoc]

/-- A bit of the word is a bit of one of its fields. -/
theorem pack_testBit (fs : List (Field × ℕ)) (i : ℕ) :
    (pack fs).testBit i = true ↔ ∃ p ∈ fs, (p.1.put p.2).testBit i = true := by
  unfold pack
  rw [foldl_testBit, Nat.zero_testBit]
  simp

/-- A value that fits its field has no bits outside it. -/
theorem Field.put_covers {f : Field} {v i : ℕ} (hv : v < 2 ^ f.width)
    (h : (f.put v).testBit i = true) : f.Covers i := by
  rw [Field.put_testBit, Bool.and_eq_true, decide_eq_true_eq] at h
  obtain ⟨hle, hbit⟩ := h
  refine ⟨hle, ?_⟩
  by_contra hge
  have hlt : v < 2 ^ (i - f.shift) :=
    hv.trans_le (Nat.pow_le_pow_right (by decide) (by omega))
  rw [Nat.testBit_lt_two_pow hlt] at hbit
  exact absurd hbit (by decide)

theorem Field.Apart.not_covers {f g : Field} (h : f.Apart g) {i : ℕ} (hf : f.Covers i) :
    ¬ g.Covers i := by
  unfold Field.Covers at hf ⊢
  unfold Field.Apart at h
  omega

instance : Std.Symm (fun p q : Field × ℕ => p.1.Apart q.1) := ⟨fun _ _ => Or.symm⟩

/-- **Every field reads back as written.** -/
theorem get_pack {fs : List (Field × ℕ)} (hapart : fs.Pairwise (fun p q => p.1.Apart q.1))
    (hfits : Fits fs) {f : Field} {v : ℕ} (hmem : (f, v) ∈ fs) : f.get (pack fs) = v := by
  apply Nat.eq_of_testBit_eq
  intro i
  rw [Field.get_testBit]
  have hv := hfits _ hmem
  by_cases hi : i < f.width
  · rw [decide_eq_true hi, Bool.true_and]
    have hput : (f.put v).testBit (f.shift + i) = v.testBit i := by
      rw [Field.put_testBit, decide_eq_true (Nat.le_add_right _ _), Bool.true_and,
        Nat.add_sub_cancel_left]
    have hcov : f.Covers (f.shift + i) := ⟨Nat.le_add_right _ _, Nat.add_lt_add_left hi _⟩
    rw [Bool.eq_iff_iff, pack_testBit]
    constructor
    · rintro ⟨q, hq, hbit⟩
      by_cases hne : (f, v) = q
      · subst hne
        rwa [hput] at hbit
      · have hap : f.Apart q.1 :=
          hapart.forall hmem hq hne
        exact absurd (Field.put_covers (hfits q hq) hbit) (hap.not_covers hcov)
    · intro hbit
      exact ⟨_, hmem, hput.trans hbit⟩
  · rw [decide_eq_false hi, Bool.false_and]
    exact (Nat.testBit_lt_two_pow
      (hv.trans_le (Nat.pow_le_pow_right (by decide) (Nat.le_of_not_lt hi)))).symm

/-- The same for the field at position `k`, with the places by themselves. -/
theorem get_fields {fs : List (Field × ℕ)} (hfits : Fits fs)
    (hapart : (fs.map Prod.fst).Pairwise Field.Apart) (k : ℕ) {f : Field} {v : ℕ}
    (hk : fs[k]? = some (f, v)) : f.get (pack fs) = v :=
  get_pack (List.pairwise_map.mp hapart) hfits (List.mem_of_getElem? hk)

/-- **The bits outside the fields are zero.** -/
theorem pack_testBit_outside {fs : List (Field × ℕ)} (hfits : Fits fs) {i : ℕ}
    (hout : ∀ p ∈ fs, ¬ p.1.Covers i) : (pack fs).testBit i = false := by
  rw [← Bool.not_eq_true, pack_testBit]
  rintro ⟨p, hp, hbit⟩
  exact hout p hp (Field.put_covers (hfits p hp) hbit)

/-- A place apart from all fields holds zero. -/
theorem get_pack_outside {fs : List (Field × ℕ)} (hfits : Fits fs) {f : Field}
    (hout : ∀ p ∈ fs, f.Apart p.1) : f.get (pack fs) = 0 := by
  apply Nat.eq_of_testBit_eq
  intro i
  rw [Field.get_testBit, Nat.zero_testBit]
  by_cases hi : i < f.width
  · have hcov : f.Covers (f.shift + i) := ⟨Nat.le_add_right _ _, Nat.add_lt_add_left hi _⟩
    rw [pack_testBit_outside hfits fun p hp => (hout p hp).not_covers hcov, Bool.and_false]
  · rw [decide_eq_false hi, Bool.false_and]

/-- A narrower field at the same place has the lower bits. -/
theorem Field.get_narrow (f : Field) {n : ℕ} (hn : n ≤ f.width) (w : ℕ) :
    (Field.mk f.shift n).get w = f.get w % 2 ^ n := by
  rw [Field.get_eq, Field.get_eq, Nat.mod_mod_of_dvd _ (pow_dvd_pow 2 hn)]

/-- Two fields joined, the first one above the second. -/
theorem Field.join_get (f g : Field) (w v : ℕ) :
    f.get w <<< g.width ||| g.get v = f.get w * 2 ^ g.width + g.get v := by
  have hlt : g.get v < 2 ^ g.width := by
    rw [Field.get_eq]
    exact Nat.mod_lt _ (Nat.two_pow_pos _)
  rw [← Nat.shiftLeft_add_eq_or_of_lt hlt, Nat.shiftLeft_eq]

/-- The word is no longer than its fields reach. -/
theorem pack_lt {fs : List (Field × ℕ)} (hfits : Fits fs) {n : ℕ}
    (hreach : ∀ p ∈ fs, p.1.shift + p.1.width ≤ n) : pack fs < 2 ^ n := by
  refine Nat.lt_pow_two_of_testBit _ (fun i hi => pack_testBit_outside hfits (fun p hp hcov => ?_))
  have hle := hreach p hp
  have hlt := hcov.2
  omega

/-! ## Replacing a field -/

/-- The word with all bits of the field cleared, as `w &= ~(mask << shift)` does it. -/
def Field.clear (f : Field) (w : ℕ) : ℕ := w &&& (0xFFFFFFFF ^^^ (2 ^ f.width - 1) <<< f.shift)

/-- The field of a word replaced. -/
def Field.set (f : Field) (w v : ℕ) : ℕ := f.clear w ||| f.put v

/-- A field depends on its own bits only. -/
theorem Field.get_congr {f : Field} {w w' : ℕ}
    (h : ∀ i, f.Covers i → w.testBit i = w'.testBit i) : f.get w = f.get w' := by
  apply Nat.eq_of_testBit_eq
  intro i
  rw [Field.get_testBit, Field.get_testBit]
  by_cases hi : i < f.width
  · rw [h _ ⟨Nat.le_add_right _ _, Nat.add_lt_add_left hi _⟩]
  · rw [decide_eq_false hi, Bool.false_and, Bool.false_and]

theorem ones_testBit (n i : ℕ) : (2 ^ n - 1).testBit i = decide (i < n) :=
  Nat.testBit_two_pow_sub_one n i

theorem Field.clear_testBit {f : Field} (w : ℕ) {i : ℕ} (hi : i < 32) :
    (f.clear w).testBit i = (w.testBit i && !decide (f.Covers i)) := by
  have hones : (0xFFFFFFFF : ℕ).testBit i = true :=
    (ones_testBit 32 i).trans (decide_eq_true hi)
  unfold Field.clear
  rw [Nat.testBit_and, Nat.testBit_xor, hones, Nat.testBit_shiftLeft, ones_testBit, Bool.true_xor]
  congr 2
  rw [Bool.eq_iff_iff, Bool.and_eq_true, decide_eq_true_eq, decide_eq_true_eq, decide_eq_true_eq]
  unfold Field.Covers
  omega

/-- Other fields keep their value. -/
theorem Field.get_put_apart {f g : Field} {v : ℕ} (hv : v < 2 ^ f.width) (hap : f.Apart g) (w : ℕ) :
    g.get (w ||| f.put v) = g.get w := by
  refine Field.get_congr (fun i hi => ?_)
  rw [Nat.testBit_or]
  by_cases hbit : (f.put v).testBit i = true
  · exact absurd hi (hap.not_covers (Field.put_covers hv hbit))
  · rw [Bool.eq_false_iff.mpr hbit, Bool.or_false]

theorem Field.get_clear_apart {f g : Field} (hap : f.Apart g) (hg : g.shift + g.width ≤ 32) (w : ℕ) :
    g.get (f.clear w) = g.get w := by
  refine Field.get_congr (fun i hi => ?_)
  have hlt : i < 32 := hi.2.trans_le hg
  have hno : ¬ f.Covers i := fun hf => hap.not_covers hf hi
  rw [Field.clear_testBit w hlt, decide_eq_false hno, Bool.not_false, Bool.and_true]

/-- **A field replaced** reads back, and all fields apart from it stay. -/
theorem Field.get_set {f : Field} {v : ℕ} (hv : v < 2 ^ f.width) (hf : f.shift + f.width ≤ 32)
    (w : ℕ) : f.get (f.set w v) = v := by
  apply Nat.eq_of_testBit_eq
  intro i
  unfold Field.set
  rw [Field.get_testBit]
  by_cases hi : i < f.width
  · have hcov : f.Covers (f.shift + i) := ⟨Nat.le_add_right _ _, Nat.add_lt_add_left hi _⟩
    rw [Nat.testBit_or, Field.clear_testBit w (by omega), decide_eq_true hcov, Field.put_testBit,
      decide_eq_true hi, decide_eq_true (Nat.le_add_right _ _), Nat.add_sub_cancel_left,
      Bool.not_true, Bool.and_false, Bool.false_or, Bool.true_and, Bool.true_and]
  · rw [decide_eq_false hi, Bool.false_and]
    exact (Nat.testBit_lt_two_pow
      (hv.trans_le (Nat.pow_le_pow_right (by decide) (Nat.le_of_not_lt hi)))).symm

theorem Field.get_set_apart {f g : Field} {v : ℕ} (hv : v < 2 ^ f.width) (hap : f.Apart g)
    (hg : g.shift + g.width ≤ 32) (w : ℕ) : g.get (f.set w v) = g.get w :=
  (Field.get_put_apart hv hap _).trans (Field.get_clear_apart hap hg w)

/-- A bit that is set reads 1. -/
theorem Field.get_put_one {f : Field} (hf : f.width = 1) (w : ℕ) : f.get (w ||| f.put 1) = 1 := by
  apply Nat.eq_of_testBit_eq
  intro i
  rw [Field.get_testBit, hf]
  by_cases hi : i < 1
  · obtain rfl : i = 0 := by omega
    rw [Nat.testBit_or, Field.put_testBit]
    simp
  · rw [decide_eq_false hi, Bool.false_and]
    exact (Nat.testBit_lt_two_pow
      (Nat.one_lt_two_pow (by omega))).symm

end BitField
