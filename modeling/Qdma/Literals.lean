/-
# Literals

The strings that `strtoul` reads to their end are the integer literals of C, decimal, octal or
hexadecimal, with blanks and a sign before them; their values are cut to an `unsigned long`.
-/
import Mathlib.Data.List.TakeWhile
import Qdma.QOptions

namespace Qdma

/-! ## Digits -/

/-- The value of a string of digits, if there is one. -/
def digitsVal (base : ℕ) (ds : List Char) : Option ℕ :=
  if ds ≠ [] ∧ ds.all (isDigitOf base) = true then some (ofDigits base ds) else none

/-- The value of an integer literal. -/
def literalVal (s : List Char) : Option ℕ :=
  match s with
  | '0' :: x :: ds => if x = 'x' ∨ x = 'X' then digitsVal 16 ds else digitsVal 8 (x :: ds)
  | _ => digitsVal 10 s

theorem digitsVal_iff {base v : ℕ} {ds : List Char} : digitsVal base ds = some v ↔
    ds ≠ [] ∧ ds.all (isDigitOf base) = true ∧ ofDigits base ds = v := by
  unfold digitsVal
  split_ifs with h
  · simp [h]
  · refine iff_of_false (fun h => nomatch h) fun h' => h ⟨h'.1, h'.2.1⟩

/-- No digits, or one that is none. -/
theorem digitsVal_none {base : ℕ} {ds : List Char}
    (h : ds = [] ∨ ∃ c ∈ ds, isDigitOf base c = false) : digitsVal base ds = none := by
  apply if_neg
  rintro ⟨hne, hall⟩
  rcases h with h | ⟨c, hc, hno⟩
  · exact hne h
  · rw [List.all_eq_true.mp hall c hc] at hno
    exact nomatch hno

theorem ofDigits_append (base : ℕ) (ds : List Char) (c : Char) :
    ofDigits base (ds ++ [c]) = ofDigits base ds * base + (digitVal c).getD 0 := by
  unfold ofDigits
  rw [List.foldl_append]
  rfl

/-- A zero in front changes nothing. -/
theorem ofDigits_zero (base : ℕ) (ds : List Char) :
    ofDigits base ('0' :: ds) = ofDigits base ds := by
  unfold ofDigits
  rw [List.foldl_cons, Nat.zero_mul]
  rfl

theorem digitsVal_zero {base : ℕ} (hbase : 0 < base) {ds : List Char} (hds : ds ≠ []) :
    digitsVal base ('0' :: ds) = digitsVal base ds := by
  have hdigit : isDigitOf base '0' = true := decide_eq_true hbase
  unfold digitsVal
  rw [List.all_cons, hdigit, Bool.true_and, ofDigits_zero]
  simp [hds]

/-- Behind a zero. -/
theorem findBase_zero (x : Char) (ds : List Char) : findBase ('0' :: x :: ds)
    = if (x = 'x' ∨ x = 'X') ∧ ds.head?.any (isDigitOf 16) = true then (16, ds)
      else (8, '0' :: x :: ds) := by
  cases ds with
  | nil => simp [findBase]
  | cons h t => rfl

/-- Without one. -/
theorem findBase_ten {s : List Char} (h : s.head? ≠ some '0') : findBase s = (10, s) := by
  cases s with
  | nil => rfl
  | cons c t =>
      unfold findBase
      split
      · rename_i heq
        exact absurd (congrArg some (List.cons.inj heq).1) h
      · rename_i heq
        exact absurd (congrArg some (List.cons.inj heq).1) h
      · rfl

theorem literalVal_ten {s : List Char} (h : s.head? ≠ some '0') :
    literalVal s = digitsVal 10 s := by
  unfold literalVal
  split
  · exact absurd rfl h
  · rfl

/-- **A literal** is what follows the prefix that `strtoul` finds, if digits of its base follow. -/
theorem literalVal_eq (s : List Char) : literalVal s = digitsVal (findBase s).1 (findBase s).2 := by
  by_cases hzero : s.head? = some '0'
  swap
  · rw [findBase_ten hzero, literalVal_ten hzero]
  obtain ⟨t, rfl⟩ := List.head?_eq_some_iff.mp hzero
  cases t with
  | nil => rfl
  | cons x ds =>
      rw [findBase_zero]
      show (if x = 'x' ∨ x = 'X' then digitsVal 16 ds else digitsVal 8 (x :: ds)) = _
      by_cases hx : x = 'x' ∨ x = 'X'
      swap
      · rw [if_neg hx, if_neg (fun h => hx h.1)]
        exact (digitsVal_zero (by decide) (List.cons_ne_nil x ds)).symm
      rw [if_pos hx]
      by_cases hhex : ds.head?.any (isDigitOf 16) = true
      · rw [if_pos ⟨hx, hhex⟩]
      · -- neither a hexadecimal nor, with the `x`, an octal number
        rw [if_neg (fun h => hhex h.2)]
        have hoct : digitsVal 8 ('0' :: x :: ds) = none := by
          refine digitsVal_none (.inr ⟨x, List.mem_cons_of_mem _ List.mem_cons_self, ?_⟩)
          rcases hx with rfl | rfl <;> rfl
        rw [hoct]
        apply digitsVal_none
        cases ds with
        | nil => exact .inl rfl
        | cons h t => exact .inr ⟨h, List.mem_cons_self, Bool.not_eq_true _ ▸ hhex⟩

/-! ## Octal and decimal numbers -/

/-- Read as octal, the same digits are no more. -/
theorem ofDigits_octal {ds : List Char} (h : ds.all (isDigitOf 8) = true) :
    ofDigits 8 ds ≤ ofDigits 10 ds ∧ (ofDigits 10 ds < 8 → ofDigits 8 ds = ofDigits 10 ds) ∧
      (8 ≤ ofDigits 10 ds → ofDigits 8 ds < ofDigits 10 ds) := by
  induction ds using List.reverseRecOn with
  | nil => decide
  | append_singleton ds c ih =>
      rw [List.all_append, Bool.and_eq_true] at h
      obtain ⟨hle, heq, hlt⟩ := ih h.1
      have hc : (digitVal c).getD 0 < 8 := by
        have hdigit : isDigitOf 8 c = true := by simpa using h.2
        unfold isDigitOf at hdigit
        cases hv : digitVal c with
        | none => decide
        | some d =>
            rw [hv] at hdigit
            exact of_decide_eq_true hdigit
      rw [ofDigits_append, ofDigits_append]
      generalize (digitVal c).getD 0 = d at hc
      refine ⟨by omega, fun hsmall => ?_, fun hlarge => ?_⟩
      · have hzero : ofDigits 10 ds = 0 := by omega
        omega
      · omega

/-- An octal number below 8 is small as a decimal one, too. -/
theorem decimal_lt_of_octal {ds : List Char} (h : ds.all (isDigitOf 8) = true)
    (hlt : ofDigits 8 ds < 8) : ofDigits 10 ds < 8 := by
  induction ds using List.reverseRecOn with
  | nil => decide
  | append_singleton ds c ih =>
      rw [List.all_append, Bool.and_eq_true] at h
      rw [ofDigits_append] at hlt ⊢
      have hsmall := ih h.1 (by omega)
      have hsame := (ofDigits_octal h.1).2.1 hsmall
      omega

/-- The decimal digits. -/
theorem isDigitOf_ten {c : Char} : isDigitOf 10 c = true ↔ '0' ≤ c ∧ c ≤ '9' := by
  unfold isDigitOf digitVal
  split_ifs with h1 h2 h3
  · have hlo : 48 ≤ c.toNat := h1.1
    have hhi : c.toNat ≤ 57 := h1.2
    exact iff_of_true (decide_eq_true (by omega)) h1
  · have hlo : 97 ≤ c.toNat := h2.1
    refine iff_of_false (fun h => ?_) h1
    have hlt : c.toNat - 87 < 10 := of_decide_eq_true h
    omega
  · have hlo : 65 ≤ c.toNat := h3.1
    refine iff_of_false (fun h => ?_) h1
    have hlt : c.toNat - 55 < 10 := of_decide_eq_true h
    omega
  · exact iff_of_false (fun h => nomatch h) h1

/-- Decimal digits of a number below 8 are octal ones. -/
theorem octal_of_lt {ds : List Char} (h : ds.all (isDigitOf 10) = true)
    (hlt : ofDigits 10 ds < 8) : ds.all (isDigitOf 8) = true := by
  induction ds using List.reverseRecOn with
  | nil => rfl
  | append_singleton ds c ih =>
      rw [List.all_append, Bool.and_eq_true] at h ⊢
      rw [ofDigits_append] at hlt
      refine ⟨ih h.1 (by omega), ?_⟩
      have hdigit : isDigitOf 10 c = true := by simpa using h.2
      have hval : (digitVal c).getD 0 < 8 := by omega
      show (isDigitOf 8 c && true) = true
      rw [Bool.and_true]
      unfold isDigitOf at hdigit ⊢
      cases hv : digitVal c with
      | none =>
          rw [hv] at hdigit
          exact nomatch hdigit
      | some d =>
          rw [hv] at hval
          exact decide_eq_true hval

/-- They are neither blanks nor signs. -/
theorem digit_plain {c : Char} (h : isDigitOf 10 c = true) :
    isSpace c = false ∧ c ≠ '-' ∧ c ≠ '+' ∧ c ≠ 'x' ∧ c ≠ 'X' ∧ c ≠ 'v' := by
  have hlo : 48 ≤ c.toNat := (isDigitOf_ten.mp h).1
  have hhi : c.toNat ≤ 57 := (isDigitOf_ten.mp h).2
  have hne : ∀ d : Char, d.toNat < 48 ∨ 57 < d.toNat → c ≠ d := by
    rintro d hd rfl
    omega
  refine ⟨?_, hne _ (by decide), hne _ (by decide), hne _ (by decide), hne _ (by decide),
    hne _ (by decide)⟩
  unfold isSpace
  rw [decide_eq_false (hne ' ' (by decide)), Bool.false_or, decide_eq_false (show ¬ c.toNat ≤ 13 by
    omega), Bool.and_false]

/-! ## Scanning -/

/-- What is behind the blanks and the sign. -/
def unsignedPart (s : List Char) : List Char :=
  let s := s.dropWhile isSpace
  if s.head? = some '-' ∨ s.head? = some '+' then s.tail else s

/-- The sign is a minus. -/
def hasMinus (s : List Char) : Bool := (s.dropWhile isSpace).head? = some '-'

/-- A digit in front is behind no blanks and no sign. -/
theorem unsignedPart_digit {c : Char} (hc : isDigitOf 10 c = true) (t : List Char) :
    unsignedPart (c :: t) = c :: t ∧ hasMinus (c :: t) = false := by
  obtain ⟨hspace, hminus, hplus, -⟩ := digit_plain hc
  have hdrop : (c :: t).dropWhile isSpace = c :: t := by
    rw [List.dropWhile_cons_of_neg (by rw [hspace]; exact Bool.false_ne_true)]
  unfold unsignedPart hasMinus
  simp only [hdrop, List.head?_cons, Option.some.injEq]
  rw [if_neg (by rintro (h | h); exacts [hminus h, hplus h])]
  exact ⟨rfl, decide_eq_false hminus⟩

/-- **A literal has a digit in front.** -/
theorem literal_head {s : List Char} {v : ℕ} (h : literalVal s = some v) :
    ∃ c t, s = c :: t ∧ isDigitOf 10 c = true := by
  by_cases hzero : s.head? = some '0'
  · obtain ⟨t, rfl⟩ := List.head?_eq_some_iff.mp hzero
    exact ⟨'0', t, rfl, rfl⟩
  · rw [literalVal_ten hzero] at h
    obtain ⟨hne, hall, -⟩ := digitsVal_iff.mp h
    cases s with
    | nil => exact absurd rfl hne
    | cons c t => exact ⟨c, t, rfl, List.all_eq_true.mp hall c List.mem_cons_self⟩

theorem literal_plain {s : List Char} {v : ℕ} (h : literalVal s = some v) :
    unsignedPart s = s ∧ hasMinus s = false := by
  obtain ⟨c, t, rfl, hc⟩ := literal_head h
  exact unsignedPart_digit hc t

/-- The number as an `unsigned long`. -/
def longVal (neg : Bool) (n : ℕ) : ℕ :=
  if n ≥ 2 ^ 64 then 2 ^ 64 - 1 else if neg then (2 ^ 64 - n) % 2 ^ 64 else n

theorem scanNumber_eq (base : ℕ) (s : List Char) : scanNumber base s
    = let t := if base = 0 then findBase (unsignedPart s) else (base, unsignedPart s)
      if t.2.takeWhile (isDigitOf t.1) = [] then none
      else some (longVal (hasMinus s) (ofDigits t.1 (t.2.takeWhile (isDigitOf t.1))),
        t.2.dropWhile (isDigitOf t.1)) := by
  unfold scanNumber unsignedPart longVal hasMinus
  simp only [decide_eq_true_eq]

/-- Digits to the end. -/
theorem digits_whole {base : ℕ} {t : List Char} {f : ℕ → ℕ} {n : ℕ} :
    (if t.takeWhile (isDigitOf base) = [] then none
      else some (f (ofDigits base (t.takeWhile (isDigitOf base))),
        t.dropWhile (isDigitOf base))) = some (n, []) ↔
      ∃ v, digitsVal base t = some v ∧ n = f v := by
  constructor
  · intro h
    split_ifs at h with hnil
    obtain ⟨rfl, hrest⟩ := Prod.mk.inj (Option.some.inj h)
    have htake : t.takeWhile (isDigitOf base) = t := by
      have happ := List.takeWhile_append_dropWhile (p := isDigitOf base) (l := t)
      rwa [hrest, List.append_nil] at happ
    rw [htake] at hnil ⊢
    refine ⟨_, digitsVal_iff.mpr ⟨hnil, List.all_eq_true.mpr fun c hc => ?_, rfl⟩, rfl⟩
    exact List.dropWhile_eq_nil_iff.mp hrest c hc
  · rintro ⟨v, hv, rfl⟩
    obtain ⟨hne, hall, rfl⟩ := digitsVal_iff.mp hv
    have htake : t.takeWhile (isDigitOf base) = t :=
      List.takeWhile_eq_self_iff.mpr (List.all_eq_true.mp hall)
    rw [htake, if_neg hne, List.dropWhile_eq_nil_iff.mpr (List.all_eq_true.mp hall)]

/-- **A number to the end** is a literal behind blanks and a sign. -/
theorem scan_whole {s : List Char} {n : ℕ} : scanNumber 0 s = some (n, []) ↔
    ∃ v, literalVal (unsignedPart s) = some v ∧ n = longVal (hasMinus s) v := by
  rw [scanNumber_eq, literalVal_eq]
  simp only [if_true]
  exact digits_whole

theorem strtoul_whole {s : List Char} {n : ℕ} : strtoul s = (n, []) ↔
    (s = [] ∧ n = 0) ∨ ∃ v, literalVal (unsignedPart s) = some v ∧ n = longVal (hasMinus s) v := by
  rw [← scan_whole]
  unfold strtoul
  cases h : scanNumber 0 s with
  | some a => 
      have hne : s ≠ [] := by
        rintro rfl
        exact nomatch h
      simp [hne]
  | none =>
      simp [eq_comm, and_comm]

/-- **What `arg_read_int` accepts**: nothing at all, or a literal behind blanks and a sign. -/
theorem readable_iff {w : String} : Readable w ↔
    w.toList = [] ∨ ∃ v, literalVal (unsignedPart w.toList) = some v := by
  have hrest : Readable w ↔ ∃ n, strtoul w.toList = (n, []) := by
    show (if (strtoul w.toList).2 ≠ [] then einval else 0) = 0 ↔ _
    constructor
    · intro h
      by_cases hnil : (strtoul w.toList).2 = []
      · exact ⟨(strtoul w.toList).1, Prod.ext rfl hnil⟩
      · rw [if_pos hnil] at h
        exact absurd h (by decide)
    · rintro ⟨n, hn⟩
      rw [hn]
      rfl
  rw [hrest]
  simp [strtoul_whole, exists_or]

end Qdma
