/-
# The interrupt aggregation context

`qdma_set_intr_rngsz` sets the size code of the aggregation rings, `intr_ring_setup` allocates
them, and `make_intr_context` tells the device: two words for each data vector, with the upper
52 bits of the ring's address split between them and the size code in the second.

The size code is put at bit 1 of the second word (`S_INT_COAL_W1_VEC_SIZE`), where the address
already is.  `intr_context_iff` says which addresses survive that.
-/
import Qdma.Contexts
import Qdma.IntrAgg

namespace Qdma

open BitField

/-! ## The size code -/

/-- `QDMA_OPERATION_SUCCESSFUL`. -/
def qdmaOperationSuccessful : ℤ := 0

/-- `qdma_set_intr_rngsz` for a device that is there: the answer, and the device after it.
`initQrange` says that FMAP has been programmed; the value asked for is a `u32`, the field it
goes to a `u8`. -/
def qdmaSetIntrRngsz (x : IntrConf) (initQrange : Bool) (intrRngsz : ℕ) : ℤ × IntrConf :=
  if intrRngsz = x.intrRngsz.val then (-1, x)
  else if !x.intrAgg then (-1, x)
  else if initQrange then (-1, x)
  else (qdmaOperationSuccessful, { x with intrRngsz := Fin.ofNat 256 intrRngsz })

/-- A value that is taken is in the field, as far as it fits. -/
theorem qdmaSetIntrRngsz_ok {x x' : IntrConf} {initQrange : Bool} {v : ℕ}
    (h : qdmaSetIntrRngsz x initQrange v = (qdmaOperationSuccessful, x')) :
    x'.intrRngsz.val = v % 256 := by
  have hne : (-1 : ℤ) ≠ qdmaOperationSuccessful := by decide
  unfold qdmaSetIntrRngsz at h
  split_ifs at h
  · exact absurd (congrArg Prod.fst h) hne
  · exact absurd (congrArg Prod.fst h) hne
  · exact absurd (congrArg Prod.fst h) hne
  · cases h
    rfl

/-! ## The words -/

/-- `S_INT_COAL_W0_F_VALID`. -/
def intCoalW0FValid : Field := ⟨0, 1⟩

/-- `S_INT_COAL_W0_VEC_ID`. -/
def intCoalW0VecId : Field := ⟨1, 6⟩

/-- `S_INT_COAL_W0_F_COLOR`. -/
def intCoalW0FColor : Field := ⟨8, 1⟩

/-- `S_INT_COAL_W0_BADDR_64`. -/
def intCoalW0Baddr64 : Field := ⟨9, 23⟩

/-- `S_INT_COAL_W1_BADDR_64`. -/
def intCoalW1Baddr64 : Field := ⟨0, 29⟩

/-- `S_INT_COAL_W1_VEC_SIZE`. -/
def intCoalW1VecSize : Field := ⟨1, 6⟩

/-- `L_INT_COAL_W0_BADDR_64`. -/
def lIntCoalW0Baddr64 : ℕ := 23

/-- `bus_64` of `make_intr_context`. -/
def intrBus64 (addr : ℕ) : ℕ := (pciDmaH addr <<< 20) ||| (pciDmaL addr >>> 12)

/-- The two words of an entry of `intr_coal_list`, whose ring is at `bus`. -/
def IntrConf.intrWords (x : IntrConf) (entry : IntrCoalConf) (bus : ℕ) : List ℕ :=
  let bus64 := intrBus64 bus
  let v := u32 (bus64 &&& mask intCoalW0Baddr64)
  let w0 := intCoalW0FValid.put 1 |||
    intCoalW0VecId.put entry.vecId |||
    intCoalW0Baddr64.put (v &&& mask intCoalW0Baddr64) |||
    intCoalW0FColor.put 1
  let v := u32 ((bus64 >>> lIntCoalW0Baddr64) &&& mask intCoalW1Baddr64)
  let w1 := intCoalW1Baddr64.put (v &&& mask intCoalW1Baddr64) |||
    intCoalW1VecSize.put x.intrRngsz.val
  [u32 w0, u32 w1]

/-- `make_intr_context`, `bus` giving the address of each ring. -/
def makeIntrContext (x : IntrConf) (intrCoalEn : Bool) (intrCoalList : List IntrCoalConf)
    (bus : ℕ → ℕ) (cnt : ℕ) : Except ℤ (List ℕ) :=
  if !intrCoalEn then .ok (List.replicate cnt 0)
  else if cnt < qdmaDataVecPerPfMax <<< 1 then .error einval
  else
    let data := (intrCoalList.zipIdx.take qdmaDataVecPerPfMax).flatMap
      (fun p => x.intrWords p.1 (bus p.2))
    .ok (data ++ List.replicate (cnt - data.length) 0)

/-! ## Reading the words -/

/-- The fields of an interrupt context. -/
@[ext]
structure IntrContext where
  valid : ℕ
  vecId : ℕ
  color : ℕ
  baddr : ℕ
  vecSize : ℕ
  deriving DecidableEq

/-- What the device makes of the two words; the address is aligned to 4 KB. -/
def IntrContext.decode (w : List ℕ) : IntrContext where
  valid := intCoalW0FValid.get (w.getD 0 0)
  vecId := intCoalW0VecId.get (w.getD 0 0)
  color := intCoalW0FColor.get (w.getD 0 0)
  baddr := (intCoalW0Baddr64.get (w.getD 0 0) + intCoalW1Baddr64.get (w.getD 1 0) * 2 ^ 23) * 4096
  vecSize := intCoalW1VecSize.get (w.getD 1 0)

/-- **The context matches the ring**: all fields read back, the size code as the one asked for,
and the ring has, and the driver wraps at, the entries the device takes it to have. -/
structure IntrContextMatches (x : IntrConf) (entry : IntrCoalConf) (bus rngsz : ℕ) (w : List ℕ) :
    Prop where
  fields : IntrContext.decode w = ⟨1, entry.vecId, 1, bus, rngsz⟩
  allocated : x.numEntries = ((IntrContext.decode w).vecSize + 1) * 512
  wraps : entry.intrRngNumEntries = ((IntrContext.decode w).vecSize + 1) * 512

/-- What stands in the first word. -/
def intrFields0 (vecId bus : ℕ) : List (Field × ℕ) :=
  [(intCoalW0FValid, 1), (intCoalW0VecId, vecId), (intCoalW0Baddr64, bus / 4096 % 2 ^ 23),
    (intCoalW0FColor, 1)]

theorem intrFields0_fits {vecId : ℕ} (h : vecId < 2 ^ 6) (bus : ℕ) :
    Fits (intrFields0 vecId bus) := by
  unfold Fits intrFields0
  simp only [List.forall_mem_cons, List.not_mem_nil, false_imp_iff, implies_true, and_true]
  exact ⟨Nat.one_lt_two, h, Nat.mod_lt _ (by decide), Nat.one_lt_two⟩

/-- `bus_64` is the address in units of 4 KB. -/
theorem intrBus64_eq (addr : ℕ) : intrBus64 addr = addr / 4096 := by
  obtain ⟨hh, hl⟩ := @pciDma_eq addr
  have hlow : addr % 2 ^ 32 / 2 ^ 12 < 2 ^ 20 := by omega
  unfold intrBus64
  rw [hh, hl, Nat.shiftRight_eq_div_pow, ← Nat.shiftLeft_add_eq_or_of_lt hlow, Nat.shiftLeft_eq]
  omega

/-- The two words: in the second the size code lies over the address. -/
theorem IntrConf.intrWords_eq (x : IntrConf) {entry : IntrCoalConf} {bus : ℕ}
    (hvec : entry.vecId < 2 ^ 6) (hbus : bus < 2 ^ 64) :
    x.intrWords entry bus
      = [pack (intrFields0 entry.vecId bus), bus / 2 ^ 35 ||| x.intrRngsz.val <<< 1] := by
  have hw0 : u32 (pack (intrFields0 entry.vecId bus)) = pack (intrFields0 entry.vecId bus) := by
    refine u32_pack (intrFields0_fits hvec bus) ?_
    show ∀ f ∈ [intCoalW0FValid, intCoalW0VecId, intCoalW0Baddr64, intCoalW0FColor],
      f.shift + f.width ≤ 32
    decide
  have hlow : u32 (bus / 4096 &&& mask intCoalW0Baddr64) &&& mask intCoalW0Baddr64
      = bus / 4096 % 2 ^ 23 := u32_and_mask (by decide) _
  have hhigh : u32 ((bus / 4096) >>> lIntCoalW0Baddr64 &&& mask intCoalW1Baddr64) &&&
      mask intCoalW1Baddr64 = bus / 2 ^ 35 := by
    rw [u32_and_mask (by decide)]
    show (bus / 4096) >>> 23 % 2 ^ 29 = _
    rw [Nat.shiftRight_eq_div_pow]
    omega
  have hw1 : u32 (bus / 2 ^ 35 ||| x.intrRngsz.val <<< 1)
      = bus / 2 ^ 35 ||| x.intrRngsz.val <<< 1 := by
    refine u32_of_lt (Nat.or_lt_two_pow (by omega) ?_)
    rw [Nat.shiftLeft_eq]
    have := x.intrRngsz.isLt
    omega
  unfold IntrConf.intrWords
  simp only [intrBus64_eq, hlow, hhigh]
  rw [← hw0, ← hw1]
  unfold intrFields0 pack
  simp only [List.foldl_cons, List.foldl_nil, Nat.zero_or, Nat.or_assoc]
  rfl

/-- The first word reads back. -/
theorem intrFields0_get {vecId : ℕ} (h : vecId < 2 ^ 6) (bus k : ℕ) {f : Field} {v : ℕ}
    (hk : (intrFields0 vecId bus)[k]? = some (f, v)) : f.get (pack (intrFields0 vecId bus)) = v :=
  get_fields (intrFields0_fits h bus)
    (show [intCoalW0FValid, intCoalW0VecId, intCoalW0Baddr64, intCoalW0FColor].Pairwise Field.Apart
      by decide) k hk

/-- **Where the size code is harmless**: over a number that has it at bit one already. -/
theorem or_code_iff {hi v : ℕ} :
    (hi ||| (v % 256) <<< 1) = hi ∧ (hi ||| (v % 256) <<< 1) / 2 % 2 ^ 6 = v ↔
      hi / 2 % 2 ^ 6 = v := by
  constructor
  · rintro ⟨hsame, hv⟩
    rwa [hsame] at hv
  · rintro rfl
    have hcode : hi / 2 % 2 ^ 6 % 256 = hi / 2 % 2 ^ 6 := by omega
    have hsame : (hi ||| (hi / 2 % 2 ^ 6) <<< 1) = hi := by
      apply Nat.eq_of_testBit_eq
      intro i
      rw [Nat.testBit_or, Nat.testBit_shiftLeft]
      cases i with
      | zero => simp
      | succ i =>
          -- a bit of the code is the bit of the number one place up
          rw [Nat.add_sub_cancel, Nat.testBit_mod_two_pow, ← Nat.testBit_succ]
          cases hi.testBit (i + 1) <;> simp
    rw [hcode, hsame]
    exact ⟨rfl, rfl⟩

/-! ## The context and the ring -/

/-- What the device makes of the words of a ring. -/
theorem IntrContext.decode_words (x : IntrConf) {entry : IntrCoalConf} {bus : ℕ}
    (hvec : entry.vecId < 2 ^ 6) (hbus : bus < 2 ^ 64) :
    IntrContext.decode (x.intrWords entry bus)
      = ⟨1, entry.vecId, 1,
        (bus / 4096 % 2 ^ 23 + (bus / 2 ^ 35 ||| x.intrRngsz.val <<< 1) * 2 ^ 23) * 4096,
        (bus / 2 ^ 35 ||| x.intrRngsz.val <<< 1) / 2 % 2 ^ 6⟩ := by
  have hget := fun k {f v} => @intrFields0_get entry.vecId hvec bus k f v
  have hlow : intCoalW0Baddr64.get (pack (intrFields0 entry.vecId bus)) = bus / 4096 % 2 ^ 23 :=
    hget 2 rfl
  have hlt : (bus / 2 ^ 35 ||| x.intrRngsz.val <<< 1) < 2 ^ 29 := by
    refine Nat.or_lt_two_pow (by omega) ?_
    rw [Nat.shiftLeft_eq]
    have := x.intrRngsz.isLt
    omega
  have hhigh : intCoalW1Baddr64.get (bus / 2 ^ 35 ||| x.intrRngsz.val <<< 1)
      = bus / 2 ^ 35 ||| x.intrRngsz.val <<< 1 := by
    rw [Field.get_eq]
    show (_ / 2 ^ 0) % 2 ^ 29 = _
    rw [Nat.pow_zero, Nat.div_one, Nat.mod_eq_of_lt hlt]
  have hsize : intCoalW1VecSize.get (bus / 2 ^ 35 ||| x.intrRngsz.val <<< 1)
      = (bus / 2 ^ 35 ||| x.intrRngsz.val <<< 1) / 2 % 2 ^ 6 := Field.get_eq _ _
  rw [x.intrWords_eq hvec hbus]
  unfold IntrContext.decode
  simp only [List.getD_cons_zero, List.getD_cons_succ, hlow, hhigh, hsize]
  exact IntrContext.ext (hget 0 rfl) (hget 1 rfl) (hget 3 rfl) rfl rfl

/-- The address reads back if the second word is the upper part of it alone. -/
theorem baddr_eq_iff {bus w1 : ℕ} (halign : 4096 ∣ bus) :
    (bus / 4096 % 2 ^ 23 + w1 * 2 ^ 23) * 4096 = bus ↔ w1 = bus / 2 ^ 35 := by
  have := Nat.div_mul_cancel halign
  omega

/-- **For one ring**: address and size code read back if the address has the size code in its
bits 36 to 41. -/
theorem intrWords_match_iff {x : IntrConf} {entry : IntrCoalConf} {bus v : ℕ}
    (hv : x.intrRngsz.val = v % 256) (hnum : entry.intrRngNumEntries = u16 x.numEntries)
    (hvec : entry.vecId < 2 ^ 6) (hbus : bus < 2 ^ 64) (halign : 4096 ∣ bus) :
    IntrContextMatches x entry bus v (x.intrWords entry bus) ↔ bus / 2 ^ 36 % 2 ^ 6 = v := by
  have hdec := IntrContext.decode_words x hvec hbus
  have hhalf : bus / 2 ^ 36 = bus / 2 ^ 35 / 2 := by omega
  rw [hv] at hdec
  rw [hhalf, ← or_code_iff]
  constructor
  · intro h
    have hf := hdec.symm.trans h.fields
    exact ⟨(baddr_eq_iff halign).mp (congrArg IntrContext.baddr hf),
      congrArg IntrContext.vecSize hf⟩
  · rintro ⟨hhi, hcode⟩
    rw [(baddr_eq_iff halign).mpr hhi, hcode] at hdec
    have hlt : v < 2 ^ 6 := hcode ▸ Nat.mod_lt _ (by decide)
    have hentries : x.numEntries = (v + 1) * 512 := by
      unfold IntrConf.numEntries
      rw [hv, Nat.mod_eq_of_lt (by omega)]
    refine ⟨hdec, ?_, ?_⟩
    · rw [hdec, hentries]
    · rw [hnum, hdec, hentries]
      exact Nat.mod_eq_of_lt (show (v + 1) * 512 < 2 ^ 16 by omega)

/-- The words of the one data vector. -/
theorem makeIntrContext_single (x : IntrConf) (entry : IntrCoalConf) (bus : ℕ → ℕ) :
    makeIntrContext x true [entry] bus (qdmaDataVecPerPfMax <<< 1)
      = .ok (x.intrWords entry (bus 0)) := rfl

/-- **When the context matches the ring.**  For a size code that was accepted, the rings
`intr_ring_setup` then allocates, at 4 KB-aligned addresses, and the words `make_intr_context`
makes of them: exactly if bits 36 to 41 of the address spell the size code. -/
theorem intr_context_iff {x x' : IntrConf} {initQrange : Bool} {v : ℕ}
    (hset : qdmaSetIntrRngsz x initQrange v = (qdmaOperationSuccessful, x'))
    {allocOk : ℕ → Bool} {l : List IntrCoalConf} (hring : intrRingSetup x' allocOk = .ok (true, l))
    {bus : ℕ → ℕ} (hbus : ∀ i, bus i < 2 ^ 64) (halign : ∀ i, 4096 ∣ bus i) {i : ℕ}
    {entry : IntrCoalConf} (hentry : l[i]? = some entry) (hvec : entry.vecId < 64) :
    ∃ data, makeIntrContext x' true l bus (qdmaDataVecPerPfMax <<< 1) = .ok data ∧
      (IntrContextMatches x' entry (bus i) v (data.drop (2 * i)) ↔ bus i / 2 ^ 36 % 2 ^ 6 = v) := by
  obtain ⟨rfl, -⟩ := intrRingSetup_start hring Nat.one_pos
  obtain ⟨hi, rfl⟩ := List.getElem?_eq_some_iff.mp hentry
  obtain rfl : i = 0 := Nat.lt_one_iff.mp hi
  exact ⟨_, makeIntrContext_single x' _ bus,
    intrWords_match_iff (qdmaSetIntrRngsz_ok hset) rfl hvec (hbus 0) (halign 0)⟩

/-- A device with one data vector, 32 queues and rings of size 0. -/
def oneVecConf : IntrConf :=
  { numVecs := 3, qsetsMax := 32, intrRngsz := 0, dvecStartIdx := 2, msixEntry := id, qbase := 0,
    qmax := 32 }

/-- The code 5, with a ring at an address that has it at bit 36. -/
theorem intr_context_five :
    ∃ data, makeIntrContext { oneVecConf with intrRngsz := 5 } true
        [{ oneVecConf with intrRngsz := 5 }.coalEntry 0] (fun _ => 5 * 2 ^ 36 + 4096)
        (qdmaDataVecPerPfMax <<< 1) = .ok data ∧
      (IntrContextMatches { oneVecConf with intrRngsz := 5 }
          ({ oneVecConf with intrRngsz := 5 }.coalEntry 0) (5 * 2 ^ 36 + 4096) 5
          (data.drop (2 * 0)) ↔
        (5 * 2 ^ 36 + 4096) / 2 ^ 36 % 2 ^ 6 = 5) :=
  @intr_context_iff oneVecConf _ false 5 rfl (fun _ => true) _ rfl (fun _ => 5 * 2 ^ 36 + 4096)
    (fun _ => by decide) (fun _ => by decide) 0 _ rfl (by decide)

/-- **The size code is written over the address**: with the code 1 and a ring at 4096 the device
takes the ring to lie 64 GB higher. -/
theorem size_code_in_address :
    qdmaSetIntrRngsz oneVecConf false 1
        = (qdmaOperationSuccessful, { oneVecConf with intrRngsz := 1 }) ∧
      intrRingSetup { oneVecConf with intrRngsz := 1 } (fun _ => true)
        = .ok (true, [{ oneVecConf with intrRngsz := 1 }.coalEntry 0]) ∧
      makeIntrContext { oneVecConf with intrRngsz := 1 } true
          [{ oneVecConf with intrRngsz := 1 }.coalEntry 0] (fun _ => 4096)
          (qdmaDataVecPerPfMax <<< 1) = .ok [0x305, 2] ∧
      IntrContext.decode [0x305, 2] = ⟨1, 2, 1, 2 ^ 36 + 4096, 1⟩ ∧
      ¬ IntrContextMatches { oneVecConf with intrRngsz := 1 }
        ({ oneVecConf with intrRngsz := 1 }.coalEntry 0) 4096 1 [0x305, 2] := by
  have hdec : IntrContext.decode [0x305, 2] = ⟨1, 2, 1, 2 ^ 36 + 4096, 1⟩ := by decide
  refine ⟨rfl, rfl, rfl, hdec, ?_⟩
  intro h
  have haddr := congrArg IntrContext.baddr (hdec.symm.trans h.fields)
  exact absurd haddr (by decide)

end Qdma
