/-
# Bytes in memory

Memory is a function from addresses to bytes.  A list of bytes is written at an address and read
back from there (`read_write_self`), unless something else was written over it
(`read_write_of_disjoint`); numbers are kept with their lowest byte first (`ofBytesLe_bytesLe`),
and strings end at a zero byte (`cstr_eq`).
-/
import Mathlib.Data.List.GetD
import Mathlib.Algebra.Ring.Nat
import Mathlib.Tactic.SplitIfs

namespace ByteMem

/-! ## Reading and writing -/

/-- Memory, byte by byte. -/
abbrev Mem := ℕ → ℕ

/-- The bytes `bs` written at `off`. -/
def write (m : Mem) (off : ℕ) (bs : List ℕ) : Mem := fun i =>
  if off ≤ i then bs.getD (i - off) (m i) else m i

/-- The `n` bytes at `off`. -/
def read (m : Mem) (off n : ℕ) : List ℕ := (List.range n).map (fun i => m (off + i))

@[simp] theorem length_read (m : Mem) (off n : ℕ) : (read m off n).length = n := by
  rw [read, List.length_map, List.length_range]

theorem getElem_read (m : Mem) (off : ℕ) {n i : ℕ} (h : i < (read m off n).length) :
    (read m off n)[i] = m (off + i) := by
  simp [read]

theorem write_of_lt {m : Mem} {off i : ℕ} {bs : List ℕ} (h : i < off ∨ off + bs.length ≤ i) :
    write m off bs i = m i := by
  unfold write
  split_ifs with hle
  · rw [List.getD_eq_default]
    omega
  · rfl

theorem write_of_mem {m : Mem} {off i : ℕ} {bs : List ℕ} (h : i < bs.length) :
    write m off bs (off + i) = bs[i] := by
  unfold write
  rw [if_pos (Nat.le_add_right off i), Nat.add_sub_cancel_left, List.getD_eq_getElem _ _ h]

/-- What was written is read back. -/
theorem read_write_self (m : Mem) (off : ℕ) (bs : List ℕ) :
    read (write m off bs) off bs.length = bs := by
  apply List.ext_getElem
  · exact length_read _ _ _
  · intro i h1 h2
    rw [getElem_read, write_of_mem h2]

/-- Elsewhere nothing has changed. -/
theorem read_write_of_disjoint {m : Mem} {off off' n : ℕ} {bs : List ℕ}
    (h : off' + n ≤ off ∨ off + bs.length ≤ off') : read (write m off bs) off' n = read m off' n := by
  apply List.ext_getElem
  · rw [length_read, length_read]
  · intro i h1 h2
    rw [length_read] at h1
    rw [getElem_read, getElem_read, write_of_lt]
    omega

/-- Reading piece by piece. -/
theorem read_add (m : Mem) (off a b : ℕ) :
    read m off (a + b) = read m off a ++ read m (off + a) b := by
  apply List.ext_getElem
  · rw [List.length_append, length_read, length_read, length_read]
  · intro i h1 h2
    rw [getElem_read]
    by_cases hi : i < a
    · rw [List.getElem_append_left (by rw [length_read]; exact hi), getElem_read]
    · rw [List.getElem_append_right (by rw [length_read]; omega), getElem_read, length_read]
      congr 1
      omega

/-- The first piece of what is read. -/
theorem read_left {m : Mem} {off n : ℕ} {xs ys : List ℕ} (h : read m off n = xs ++ ys) :
    read m off xs.length = xs := by
  have hlen : n = xs.length + ys.length := by
    rw [← length_read m off n, h, List.length_append]
  rw [hlen, read_add] at h
  exact (List.append_inj h (length_read _ _ _)).1

/-- The second piece. -/
theorem read_right {m : Mem} {off n : ℕ} {xs ys : List ℕ} (h : read m off n = xs ++ ys) :
    read m (off + xs.length) ys.length = ys := by
  have hlen : n = xs.length + ys.length := by
    rw [← length_read m off n, h, List.length_append]
  rw [hlen, read_add] at h
  exact (List.append_inj h (length_read _ _ _)).2

/-! ## Copying -/

theorem write_nil (m : Mem) (off : ℕ) : write m off [] = m :=
  funext fun i => write_of_lt (lt_or_ge i off)

/-- `n` bytes at `s`, copied to `d`. -/
def copy (dst : Mem) (d : ℕ) (src : Mem) (s n : ℕ) : Mem := write dst d (read src s n)

/-! ## Numbers -/

/-- The lowest `n` bytes of `v`, the lowest one first. -/
def bytesLe : ℕ → ℕ → List ℕ
  | 0, _ => []
  | n + 1, v => v % 256 :: bytesLe n (v / 256)

/-- The number that bytes stand for. -/
def ofBytesLe : List ℕ → ℕ
  | [] => 0
  | b :: bs => b + 256 * ofBytesLe bs

@[simp] theorem length_bytesLe (n v : ℕ) : (bytesLe n v).length = n := by
  induction n generalizing v with
  | zero => rfl
  | succ n ih => rw [bytesLe, List.length_cons, ih]

/-- The lowest bytes of a number are the number, as far as it fits. -/
theorem ofBytesLe_bytesLe (n v : ℕ) : ofBytesLe (bytesLe n v) = v % 256 ^ n := by
  induction n generalizing v with
  | zero => rw [bytesLe, ofBytesLe, Nat.pow_zero, Nat.mod_one]
  | succ n ih => rw [bytesLe, ofBytesLe, ih, Nat.pow_succ', Nat.mod_mul]

/-! ## Strings -/

/-- The string at `off`, of at most `n` bytes. -/
def cstr (m : Mem) (off n : ℕ) : List ℕ := (read m off n).takeWhile (· != 0)

/-- **How long a string is**: it ends at the first zero byte. -/
theorem cstr_length_lt_iff {m : Mem} {off n k : ℕ} (hk : k ≤ n) :
    (cstr m off n).length < k ↔ ∃ i < k, m (off + i) = 0 := by
  unfold cstr
  induction n generalizing off k with
  | zero =>
      obtain rfl := Nat.le_zero.mp hk
      exact iff_of_false (Nat.not_lt_zero _) (fun ⟨i, hi, _⟩ => Nat.not_lt_zero i hi)
  | succ n ih =>
      have hread : read m off (n + 1) = m off :: read m (off + 1) n := by
        rw [Nat.add_comm n 1, read_add]
        rfl
      rw [hread, List.takeWhile_cons]
      by_cases h0 : m off = 0
      · rw [if_neg (by simp [h0]), List.length_nil]
        exact ⟨fun hpos => ⟨0, hpos, h0⟩, fun ⟨i, hi, _⟩ => Nat.zero_lt_of_lt hi⟩
      · rw [if_pos (by simp [h0]), List.length_cons]
        cases k with
        | zero => exact iff_of_false (Nat.not_lt_zero _) (fun ⟨i, hi, _⟩ => Nat.not_lt_zero i hi)
        | succ k =>
            rw [Nat.succ_lt_succ_iff, ih (Nat.le_of_succ_le_succ hk)]
            constructor
            · rintro ⟨i, hi, hz⟩
              exact ⟨i + 1, Nat.succ_lt_succ hi, by rw [← hz]; congr 1; omega⟩
            · rintro ⟨i, hi, hz⟩
              cases i with
              | zero => exact absurd hz h0
              | succ i =>
                  exact ⟨i, Nat.lt_of_succ_lt_succ hi, by rw [← hz]; congr 1; omega⟩

/-- A string is what stands before its zero byte. -/
theorem cstr_eq {m : Mem} {off n : ℕ} {s : List ℕ} (hs : 0 ∉ s) (hn : s.length < n)
    (h : read m off (s.length + 1) = s ++ [0]) : cstr m off n = s := by
  have hsplit : read m off n = s ++ 0 :: read m (off + (s.length + 1)) (n - (s.length + 1)) := by
    obtain ⟨k, rfl⟩ := Nat.exists_eq_add_of_lt hn
    rw [Nat.add_right_comm, read_add, h, Nat.add_sub_cancel_left, List.append_assoc]
    rfl
  unfold cstr
  rw [hsplit, List.takeWhile_append_of_pos]
  · rw [List.takeWhile_cons]
    simp
  · intro c hc
    have hne : c ≠ 0 := fun h0 => hs (h0 ▸ hc)
    simpa using hne

end ByteMem
