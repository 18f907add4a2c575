/-
# The names of devices

`parse_ifname` reads `qdma<N>` and `qdmavf<N>`.  `ifname_iff` says which names it takes for the
device that they spell: the number is read with the base that its prefix gives, may be missing, and
is cut to a byte.
-/
import Mathlib.Data.Nat.Digits.Defs
import Qdma.Literals

namespace Qdma

/-! ## The law -/

/-- What the number of a device follows. -/
def devPrefix (vf : Bool) : List Char :=
  if vf then ['q', 'd', 'm', 'a', 'v', 'f'] else ['q', 'd', 'm', 'a']

/-- The decimal digits `ds` follow the name of the kind of device. -/
structure Named (name : String) (vf : Bool) (ds : List Char) : Prop where
  name : name.toList = devPrefix vf ++ ds
  digits : ds.all (isDigitOf 10) = true

/-- The name spells the device `n`. -/
def Spells (name : String) (vf : Bool) (n : ℕ) : Prop :=
  ∃ ds, Named name vf ds ∧ ds ≠ [] ∧ ofDigits 10 ds = n ∧ n ≤ 255

/-- **A name is taken for what it spells**, and refused if it spells no device. -/
def RightName (name : String) : Prop :=
  ∀ vf n, parseIfname name = some (vf, n) ↔ Spells name vf n

/-- More digits follow a zero. -/
def LeadingZero (ds : List Char) : Prop := ds.head? = some '0' ∧ 1 < ds.length

instance (ds : List Char) : Decidable (LeadingZero ds) := inferInstanceAs (Decidable (_ ∧ _))

/-- **When it is**: there are digits; behind a zero their number is below 8, or too large for a
device and no octal number; otherwise it is up to 255.  A name that is too long spells none. -/
def NameFits (name : String) : Prop :=
  ∀ vf ds, Named name vf ds → ds ≠ [] ∧
    if name.utf8ByteSize ≥ 10 then 255 < ofDigits 10 ds
    else if LeadingZero ds then
      ofDigits 10 ds < 8 ∨ (255 < ofDigits 10 ds ∧ ds.all (isDigitOf 8) = false)
    else ofDigits 10 ds ≤ 255

/-- Two names spell the same number, up to zeros in front of it, for the same kind of device. -/
def SameName (name name' : String) : Prop :=
  ∃ vf ds ds', Named name vf ds ∧ Named name' vf ds' ∧
    ds.dropWhile (fun c => decide (c = '0')) = ds'.dropWhile (fun c => decide (c = '0'))

/-! ## Decimal digits -/

section Digits

variable {ds : List Char} (h : ds.all (isDigitOf 10) = true)

include h

theorem unsignedPart_digits : unsignedPart ds = ds ∧ hasMinus ds = false := by
  cases ds with
  | nil => exact ⟨rfl, rfl⟩
  | cons c t =>
      exact unsignedPart_digit (List.all_eq_true.mp h c List.mem_cons_self) t

/-- As a literal such digits are decimal or, with a zero in front, octal. -/
theorem literalVal_digits :
    literalVal ds = digitsVal (if LeadingZero ds then 8 else 10) ds := by
  by_cases hzero : LeadingZero ds
  · rw [if_pos hzero]
    obtain ⟨t, rfl⟩ := List.head?_eq_some_iff.mp hzero.1
    cases t with
    | nil => exact absurd hzero.2 (by decide)
    | cons x t =>
        obtain ⟨-, -, -, hx, hX, -⟩ := digit_plain (List.all_eq_true.mp h x
          (List.mem_cons_of_mem _ List.mem_cons_self))
        rw [digitsVal_zero (by decide) (List.cons_ne_nil x t)]
        exact if_neg (by rintro (h | h); exacts [hx h, hX h])
  · rw [if_neg hzero]
    by_cases hhead : ds.head? = some '0'
    swap
    · exact literalVal_ten hhead
    obtain ⟨t, rfl⟩ := List.head?_eq_some_iff.mp hhead
    cases t with
    | nil => rfl
    | cons x t => exact absurd ⟨rfl, by simp⟩ hzero

end Digits

/-! ## The number of a device -/

/-- What `arg_read_int` and the assignment to `if_idx` make of the digits. -/
def numberRead (ds : List Char) : Option ℕ :=
  let (rv, v) := argReadInt ds
  if rv < 0 then none else some (v % 256)

/-- The number of a device that they spell. -/
def numberSpelt (ds : List Char) : Option ℕ :=
  if ds ≠ [] ∧ ofDigits 10 ds ≤ 255 then some (ofDigits 10 ds) else none

theorem numberRead_eq {ds : List Char} (h : ds.all (isDigitOf 10) = true) (hne : ds ≠ []) :
    numberRead ds = (literalVal ds).map fun v => u32 (longVal false v) % 256 := by
  obtain ⟨hplain, hminus⟩ := unsignedPart_digits h
  have hwhole : ∀ n, strtoul ds = (n, []) ↔ ∃ v, literalVal ds = some v ∧ n = longVal false v := by
    intro n
    rw [strtoul_whole, hplain, hminus]
    simp [hne]
  unfold numberRead argReadInt
  cases hlit : literalVal ds with
  | some v =>
      rw [(hwhole _).mpr ⟨v, hlit, rfl⟩]
      rfl
  | none =>
      have hrest : (strtoul ds).2 ≠ [] := by
        intro hnil
        obtain ⟨v, hv, -⟩ := (hwhole (strtoul ds).1).mp (Prod.ext rfl hnil)
        rw [hlit] at hv
        exact nomatch hv
      simp only [if_pos hrest]
      rfl

/-- **The number is read as it is spelt** just when it fits. -/
theorem number_iff {ds : List Char} (h : ds.all (isDigitOf 10) = true) :
    numberRead ds = numberSpelt ds ↔ ds ≠ [] ∧ if LeadingZero ds then
      ofDigits 10 ds < 8 ∨ (255 < ofDigits 10 ds ∧ ds.all (isDigitOf 8) = false)
      else ofDigits 10 ds ≤ 255 := by
  by_cases hne : ds = []
  · subst hne
    exact iff_of_false (fun h => nomatch h) fun h => h.1 rfl
  rw [numberRead_eq h hne, literalVal_digits h]
  unfold numberSpelt
  simp only [ne_eq, hne, not_false_eq_true, true_and]
  have hsmall : ∀ {v}, v ≤ 255 → u32 (longVal false v) % 256 = v := by
    intro v hv
    unfold longVal
    rw [if_neg (by omega), if_neg Bool.false_ne_true, u32_of_lt (by omega)]
    omega
  by_cases hzero : LeadingZero ds
  · rw [if_pos hzero, if_pos hzero]
    by_cases hoct : ds.all (isDigitOf 8) = true
    · obtain ⟨hle, heq, hlt⟩ := ofDigits_octal hoct
      rw [digitsVal_iff.mpr ⟨hne, hoct, rfl⟩, Option.map_some]
      by_cases hfits : ofDigits 10 ds ≤ 255
      · rw [if_pos hfits, hsmall (hle.trans hfits), Option.some.injEq]
        constructor
        · intro hval
          by_contra hno
          have hge : 8 ≤ ofDigits 10 ds := by omega
          exact absurd hval (hlt hge).ne
        · rintro (hlt8 | ⟨hbig, -⟩)
          · exact heq hlt8
          · omega
      · rw [if_neg hfits]
        refine iff_of_false (fun h => nomatch h) ?_
        rintro (hlt8 | ⟨-, hno⟩)
        · omega
        · exact absurd (hoct.symm.trans hno) Bool.noConfusion
    · have hnone : digitsVal 8 ds = none := if_neg fun h => hoct h.2
      rw [hnone, Option.map_none]
      rw [Bool.not_eq_true] at hoct
      by_cases hfits : ofDigits 10 ds ≤ 255
      · rw [if_pos hfits]
        refine iff_of_false (fun h => nomatch h) ?_
        rintro (hlt8 | ⟨hbig, -⟩)
        · exact absurd ((octal_of_lt h hlt8).symm.trans hoct) Bool.noConfusion
        · omega
      · rw [if_neg hfits]
        exact iff_of_true rfl (.inr ⟨by omega, hoct⟩)
  · rw [if_neg hzero, if_neg hzero, digitsVal_iff.mpr ⟨hne, h, rfl⟩, Option.map_some]
    by_cases hfits : ofDigits 10 ds ≤ 255
    · rw [if_pos hfits, hsmall hfits]
      exact iff_of_true rfl hfits
    · rw [if_neg hfits]
      exact iff_of_false (fun h => nomatch h) hfits

/-! ## Names -/

/-- A name has one kind of device and one number. -/
theorem Named.unique {name : String} {vf vf' : Bool} {ds ds' : List Char} (h : Named name vf ds)
    (h' : Named name vf' ds') : vf = vf' ∧ ds = ds' := by
  have heq := h.name.symm.trans h'.name
  -- no digit is a `v`
  have hno : ∀ {ds ds'}, ds'.all (isDigitOf 10) = true →
      devPrefix true ++ ds ≠ devPrefix false ++ ds' := by
    intro ds ds' hdigits hsame
    have htail : 'v' :: 'f' :: ds = ds' := by
      simpa [devPrefix] using hsame
    subst htail
    exact absurd (List.all_eq_true.mp hdigits 'v' List.mem_cons_self) (by decide)
  cases vf with
  | true =>
      cases vf' with
      | true => exact ⟨rfl, List.append_cancel_left heq⟩
      | false => exact absurd heq (hno h'.digits)
  | false =>
      cases vf' with
      | true => exact absurd heq.symm (hno h.digits)
      | false => exact ⟨rfl, List.append_cancel_left heq⟩

/-- **The name of a device** is read by its number. -/
theorem parseIfname_named {name : String} {vf : Bool} {ds : List Char} (h : Named name vf ds) :
    parseIfname name = if name.utf8ByteSize ≥ 10 then none
      else (numberRead ds).map fun n => (vf, n) := by
  have htake : (devPrefix vf ++ ds).take 4 = ['q', 'd', 'm', 'a'] := by cases vf <;> rfl
  have hvf : (((devPrefix vf ++ ds).drop 4).take 2 = ['v', 'f']) ↔ vf = true := by
    cases vf with
    | true => exact iff_of_true rfl rfl
    | false =>
        refine iff_of_false (fun hv => ?_) Bool.false_ne_true
        have hmem : 'v' ∈ ds := by
          apply List.mem_of_mem_take (i := 2)
          show 'v' ∈ ds.take 2
          rw [show ds.take 2 = ['v', 'f'] from hv]
          exact List.mem_cons_self
        exact absurd (List.all_eq_true.mp h.digits _ hmem) (by decide)
  unfold parseIfname
  simp only [h.name, htake, ne_eq, not_true_eq_false, if_false]
  by_cases hlong : name.utf8ByteSize ≥ 10
  · rw [if_pos hlong, if_pos hlong]
  rw [if_neg hlong, if_neg hlong]
  unfold numberRead
  cases vf with
  | true =>
      simp only [hvf, decide_true, if_true]
      rw [show (devPrefix true ++ ds).drop 6 = ds from rfl, h.digits]
      generalize argReadInt ds = r
      by_cases hr : r.1 < 0 <;> simp [hr]
  | false =>
      simp only [hvf, Bool.false_eq_true, decide_false, if_false]
      rw [show (devPrefix false ++ ds).drop 4 = ds from rfl, h.digits]
      generalize argReadInt ds = r
      by_cases hr : r.1 < 0 <;> simp [hr]

/-- Any other name is refused. -/
theorem parseIfname_other {name : String} (h : ∀ vf ds, ¬ Named name vf ds) :
    parseIfname name = none := by
  unfold parseIfname
  simp only
  by_cases hlong : name.utf8ByteSize ≥ 10
  · rw [if_pos hlong]
  rw [if_neg hlong]
  by_cases htake : name.toList.take 4 = ['q', 'd', 'm', 'a']
  swap
  · rw [if_pos htake]
  rw [if_neg (not_not.mpr htake)]
  have hsplit : name.toList = devPrefix false ++ name.toList.drop 4 := by
    conv_lhs => rw [← List.take_append_drop 4 name.toList, htake]
    rfl
  by_cases hvf : (name.toList.drop 4).take 2 = ['v', 'f']
  · have hsplit' : name.toList = devPrefix true ++ name.toList.drop 6 := by
      conv_lhs => rw [hsplit, ← List.take_append_drop 2 (name.toList.drop 4), hvf, List.drop_drop]
      rfl
    simp only [hvf, decide_true, if_true]
    exact if_pos (Bool.not_eq_true' _ ▸ Bool.eq_false_iff.mpr fun hd => h true _ ⟨hsplit', hd⟩)
  · simp only [hvf, decide_false, Bool.false_eq_true, if_false]
    exact if_pos (Bool.not_eq_true' _ ▸ Bool.eq_false_iff.mpr fun hd => h false _ ⟨hsplit, hd⟩)

theorem spells_iff {name : String} {vf vf' : Bool} {ds : List Char} {n : ℕ}
    (h : Named name vf ds) : Spells name vf' n ↔ numberSpelt ds = some n ∧ vf' = vf := by
  unfold numberSpelt
  constructor
  · rintro ⟨ds', hname, hne, rfl, hle⟩
    obtain ⟨rfl, rfl⟩ := h.unique hname
    exact ⟨if_pos ⟨hne, hle⟩, rfl⟩
  · rintro ⟨hsome, rfl⟩
    split_ifs at hsome with hfits
    obtain rfl := Option.some.inj hsome
    exact ⟨ds, h, hfits.1, rfl, hfits.2⟩

/-- A name is right if its number is. -/
theorem rightName_iff {name : String} {vf : Bool} {ds : List Char} (h : Named name vf ds) :
    RightName name ↔
      (if name.utf8ByteSize ≥ 10 then none else numberRead ds) = numberSpelt ds := by
  have hparse : ∀ vf' n, parseIfname name = some (vf', n) ↔
      (if name.utf8ByteSize ≥ 10 then none else numberRead ds) = some n ∧ vf' = vf := by
    intro vf' n
    rw [parseIfname_named h]
    split_ifs
    · simp
    · cases numberRead ds <;> simp [eq_comm, and_comm]
  unfold RightName
  simp only [hparse, spells_iff h]
  constructor
  · intro hright
    apply Option.ext
    intro n
    simpa using hright vf n
  · intro heq vf' n
    rw [heq]

/-- **When the name of a device is taken for what it spells.** -/
theorem rightName_fits (name : String) : RightName name ↔ NameFits name := by
  by_cases hnamed : ∃ vf ds, Named name vf ds
  swap
  · -- nothing that is neither accepted nor spells a device
    have hno : ∀ vf ds, ¬ Named name vf ds := fun vf ds h => hnamed ⟨vf, ds, h⟩
    refine iff_of_true (fun vf n => ?_) fun vf ds h => absurd h (hno vf ds)
    rw [parseIfname_other hno]
    exact iff_of_false (fun h => nomatch h) fun ⟨ds, h, _⟩ => hno vf ds h
  obtain ⟨vf, ds, h⟩ := hnamed
  have hfits : NameFits name ↔ ds ≠ [] ∧
      if name.utf8ByteSize ≥ 10 then 255 < ofDigits 10 ds
      else if LeadingZero ds then
        ofDigits 10 ds < 8 ∨ (255 < ofDigits 10 ds ∧ ds.all (isDigitOf 8) = false)
      else ofDigits 10 ds ≤ 255 := by
    refine ⟨fun hf => hf vf ds h, fun hf vf' ds' h' => ?_⟩
    obtain ⟨rfl, rfl⟩ := h.unique h'
    exact hf
  rw [rightName_iff h, hfits]
  by_cases hlong : name.utf8ByteSize ≥ 10
  swap
  · rw [if_neg hlong, if_neg hlong]
    exact number_iff h.digits
  · rw [if_pos hlong, if_pos hlong]
    have hne : ds ≠ [] := by
      -- without digits the name is short
      rintro rfl
      have hname : name = String.ofList (devPrefix vf) := by
        rw [← String.ofList_toList (s := name), h.name, List.append_nil]
      rw [hname] at hlong
      cases vf <;> exact absurd hlong (by decide)
    unfold numberSpelt
    simp only [ne_eq, hne, not_false_eq_true, true_and]
    split_ifs with hle
    · exact iff_of_false (fun h => nomatch h) (by omega)
    · exact iff_of_true rfl (by omega)

/-! ## Different names -/

/-- The value of a decimal digit. -/
def decDigit (c : Char) : ℕ := (digitVal c).getD 0

theorem digitVal_dec {c : Char} (h : isDigitOf 10 c = true) :
    decDigit c = c.toNat - 48 ∧ decDigit c < 10 := by
  have hc := isDigitOf_ten.mp h
  have hhi : c.toNat ≤ 57 := hc.2
  have hval : decDigit c = c.toNat - 48 := by
    unfold decDigit digitVal
    rw [if_pos hc]
    rfl
  exact ⟨hval, by omega⟩

/-- The number of some digits, the last one first. -/
theorem ofDigits_eq (ds : List Char) :
    ofDigits 10 ds = Nat.ofDigits 10 (ds.reverse.map decDigit) := by
  induction ds using List.reverseRecOn with
  | nil => rfl
  | append_singleton ds c ih =>
      rw [ofDigits_append, List.reverse_append, List.reverse_singleton, List.singleton_append,
        List.map_cons, Nat.ofDigits_cons, ih, Nat.mul_comm, Nat.add_comm]
      rfl

/-- Zeros in front do not count. -/
theorem ofDigits_strip (ds : List Char) :
    ofDigits 10 (ds.dropWhile fun c => decide (c = '0')) = ofDigits 10 ds := by
  induction ds with
  | nil => rfl
  | cons c ds ih =>
      by_cases hc : c = '0'
      · subst hc
        rw [List.dropWhile_cons_of_pos (by decide), ih, ofDigits_zero]
      · rw [List.dropWhile_cons_of_neg (by simpa using hc)]

/-- **Without zeros in front** the digits are those of the number. -/
theorem digits_strip {ds : List Char} (h : ds.all (isDigitOf 10) = true) :
    ((ds.dropWhile fun c => decide (c = '0')).map decDigit).reverse
      = Nat.digits 10 (ofDigits 10 ds) := by
  rw [← ofDigits_strip, ofDigits_eq, ← List.map_reverse]
  have hdec : ∀ c ∈ ds.dropWhile fun c => decide (c = '0'), isDigitOf 10 c = true :=
    fun c hc => List.all_eq_true.mp h c ((List.dropWhile_sublist _).subset hc)
  have hhead : ∀ c t, (ds.dropWhile fun c => decide (c = '0')) = c :: t → c ≠ '0' := by
    intro c t ht
    have hno := List.head_dropWhile_not (fun c => decide (c = '0')) (l := ds)
      (by rw [ht]; exact List.cons_ne_nil c t)
    simpa [ht] using hno
  generalize ds.dropWhile (fun c => decide (c = '0')) = e at hdec hhead
  refine (Nat.digits_ofDigits 10 (by decide) _ ?_ ?_).symm
  · intro d hd
    obtain ⟨c, hc, rfl⟩ := List.mem_map.mp hd
    exact (digitVal_dec (hdec c (List.mem_reverse.mp hc))).2
  · intro hne
    cases e with
    | nil => exact absurd rfl hne
    | cons c t =>
        rw [List.getLast_map, List.getLast_reverse]
        have hc := hdec c List.mem_cons_self
        have hne := hhead c t rfl
        show decDigit c ≠ 0
        rw [(digitVal_dec hc).1]
        intro hzero
        have hlo : 48 ≤ c.toNat := (isDigitOf_ten.mp hc).1
        apply hne
        apply Char.toNat_inj.mp
        show c.toNat = 48
        omega

/-- Digits are those of one number. -/
theorem strip_inj {ds ds' : List Char} (h : ds.all (isDigitOf 10) = true)
    (h' : ds'.all (isDigitOf 10) = true) (heq : ofDigits 10 ds = ofDigits 10 ds') :
    ds.dropWhile (fun c => decide (c = '0')) = ds'.dropWhile (fun c => decide (c = '0')) := by
  have hrev := (digits_strip h).trans ((congrArg _ heq).trans (digits_strip h').symm)
  have hmap := List.reverse_injective hrev
  -- a decimal digit is given by its value
  have hchars : ∀ {es : List Char}, es.all (isDigitOf 10) = true →
      ((es.dropWhile fun c => decide (c = '0')).map decDigit).map (fun d => Char.ofNat (d + 48))
        = es.dropWhile fun c => decide (c = '0') := by
    intro es hes
    rw [List.map_map]
    refine (List.map_congr_left fun c hc => ?_).trans (List.map_id _)
    have hdec := List.all_eq_true.mp hes c ((List.dropWhile_sublist _).subset hc)
    have hlo : 48 ≤ c.toNat := (isDigitOf_ten.mp hdec).1
    show Char.ofNat (decDigit c + 48) = c
    rw [(digitVal_dec hdec).1, Nat.sub_add_cancel hlo, Char.ofNat_toNat]
  rw [← hchars h, hmap, hchars h']

/-- **When names select the devices that they spell**; then different names, up to zeros in front
of the number, select different devices. -/
theorem ifname_iff (name : String) : (RightName name ↔ NameFits name) ∧
    ∀ name' d, NameFits name → NameFits name' → parseIfname name = some d →
      parseIfname name' = some d → SameName name name' := by
  refine ⟨rightName_fits name, fun name' d h h' hd hd' => ?_⟩
  obtain ⟨ds, hn, -, hval, -⟩ := ((rightName_fits name).mpr h d.1 d.2).mp hd
  obtain ⟨ds', hn', -, hval', -⟩ := ((rightName_fits name').mpr h' d.1 d.2).mp hd'
  exact ⟨d.1, ds, ds', hn, hn', strip_inj hn.digits hn'.digits (hval.trans hval'.symm)⟩

/-- A name that is taken for what it spells. -/
theorem ifname_right : RightName "qdmavf12" := by
  apply (ifname_iff "qdmavf12").1.mpr
  intro vf ds h
  obtain ⟨rfl, rfl⟩ := h.unique (⟨rfl, rfl⟩ : Named "qdmavf12" true ['1', '2'])
  exact ⟨List.cons_ne_nil _ _, by decide⟩

/-- **A zero in front**, a missing number and one above 255: each selects another device, or none,
and two names select one. -/
theorem ifname_misread :
    parseIfname "qdma010" = some (false, 8) ∧ ¬ RightName "qdma010" ∧
      parseIfname "qdma08" = none ∧ ¬ RightName "qdma08" ∧
      parseIfname "qdma" = some (false, 0) ∧ ¬ RightName "qdma" ∧
      parseIfname "qdma256" = some (false, 0) ∧ ¬ RightName "qdma256" ∧
      parseIfname "qdma0" = some (false, 0) := by
  have hnot : ∀ {name : String} (ds : List Char), Named name false ds →
      numberRead ds ≠ numberSpelt ds → name.utf8ByteSize < 10 → ¬ RightName name := by
    intro name ds h hne hshort hright
    rw [rightName_iff h, if_neg (Nat.not_le.mpr hshort)] at hright
    exact hne hright
  refine ⟨by decide, hnot ['0', '1', '0'] ⟨rfl, rfl⟩ (by decide) (by decide), by decide,
    hnot ['0', '8'] ⟨rfl, rfl⟩ (by decide) (by decide), by decide,
    hnot [] ⟨rfl, rfl⟩ (by decide) (by decide), by decide,
    hnot ['2', '5', '6'] ⟨rfl, rfl⟩ (by decide) (by decide), by decide⟩

end Qdma
