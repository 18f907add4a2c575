/-
# Giving back the pages of a user buffer

What `map_user_buf_to_sgl` takes is given back by `unmap_user_buf`, with which a mapping that fails
ends, too, and by `iocb_release`, to which only one that succeeds comes.  How many pages are given
back is passed through `pages_nr`, which a mapping that has pinned too few sets to an error code.

`pins_released_iff`: everything is given back just when pinning does not fail, and the pages just
when it does not fail half-way in front of something other than `NULL`.
-/
import Qdma.UserTransfer

namespace Qdma

/-! ## What is asked of it -/

/-- **The pages are given back**: each as often as it was pinned, and no other is touched. -/
structure PagesReleased (log : List PinOp) : Prop where
  pages : ∀ pg, log.count (.putPage pg) = log.count (.pin pg)
  dirty : ∀ pg, .setPageDirty pg ∈ log → .pin pg ∈ log

/-- **Everything is given back**: the list and the array are freed, too. -/
structure GivenBack (log : List PinOp) : Prop extends PagesReleased log where
  sgl : log.count .kfreeSgl = log.count .kzallocSgl
  array : log.count .kfreePages = log.count .kmallocPages

/-- **Pinning fails**, once there is memory for the list and the array. -/
structure PinEnv.FailsPinning (e : PinEnv) (k : PageShift) (buf len : ℕ) : Prop where
  pages : userPagesNr k buf len ≠ 0
  sgMem : e.sgMem = true
  pagesMem : e.pagesMem.isSome = true
  fails : ¬ e.AllPinned (userPagesNr k buf len)

/-- **Some pages are pinned and not all**, and the entry behind them is not `NULL`. -/
structure PinEnv.Strays (e : PinEnv) (k : PageShift) (buf len : ℕ) : Prop where
  sgMem : e.sgMem = true
  half : ∃ mem m, e.pagesMem = some mem ∧ e.answer = .pinned m ∧
    m.val < userPagesNr k buf len ∧ mem m.val ≠ 0

/-! ## Giving back pages -/

/-- The pages from `i` on, as they are pinned. -/
def pinOps (pages : ℕ → ℕ) (n i : ℕ) : List PinOp := (List.range' i n).map (fun j => .pin (pages j))

/-- As many as there are, if there are more. -/
theorem putPages_add {pages : ℕ → ℕ} (write : Bool) (n m i : ℕ)
    (h : ∀ j, i ≤ j → j < i + n → pages j ≠ 0) :
    putPages pages write (n + m) i =
      putPages pages write n i ++ putPages pages write m (i + n) := by
  induction n generalizing i with
  | zero => rw [Nat.zero_add, Nat.add_zero, putPages, List.nil_append]
  | succ n ih =>
      rw [show n + 1 + m = n + m + 1 by omega, putPages, putPages, if_pos (h i le_rfl (by omega)),
        if_pos (h i le_rfl (by omega)), ih (i + 1) (fun j h1 h2 => h j (by omega) (by omega)),
        show i + (n + 1) = i + 1 + n by omega, List.append_assoc, List.cons_append]

/-- **Each page is put as often as it is pinned.** -/
theorem count_putPages {pages : ℕ → ℕ} (write : Bool) (n i pg : ℕ)
    (h : ∀ j, i ≤ j → j < i + n → pages j ≠ 0) :
    (putPages pages write n i).count (.putPage pg) = (pinOps pages n i).count (.pin pg) := by
  induction n generalizing i with
  | zero => rfl
  | succ n ih =>
      have hrest := ih (i + 1) (fun j h1 h2 => h j (by omega) (by omega))
      unfold pinOps at hrest ⊢
      rw [putPages, if_pos (h i le_rfl (by omega)), List.range'_succ, List.map_cons,
        List.count_append, List.count_cons, List.count_cons, hrest]
      cases write with
      | true => simp
      | false => simp

/-- What else is in it: nothing but dirty pages. -/
theorem mem_putPages {pages : ℕ → ℕ} {write : Bool} {n i : ℕ} {op : PinOp}
    (h : op ∈ putPages pages write n i) :
    ∃ j, i ≤ j ∧ j < i + n ∧ (op = .putPage (pages j) ∨ op = .setPageDirty (pages j)) := by
  induction n generalizing i with
  | zero => exact absurd h List.not_mem_nil
  | succ n ih =>
      rw [putPages] at h
      by_cases hi : pages i ≠ 0
      · rw [if_pos hi, List.mem_append, List.mem_cons] at h
        rcases h with hd | rfl | hr
        · cases write with
          | true => exact absurd hd List.not_mem_nil
          | false => exact ⟨i, le_rfl, by omega, .inr (List.mem_singleton.mp hd)⟩
        · exact ⟨i, le_rfl, by omega, .inl rfl⟩
        · obtain ⟨j, h1, h2, hop⟩ := ih hr
          exact ⟨j, by omega, by omega, hop⟩
      · rw [if_neg hi] at h
        exact absurd h List.not_mem_nil

/-! ## The log of a transfer -/

/-- What is done once there is the array: `n` pages are pinned, the list is freed, `puts` is done
with the pages, and then what is left to do. -/
def pinLog (pages : ℕ → ℕ) (n : ℕ) (puts rest : List PinOp) : List PinOp :=
  [.kzallocSgl, .kmallocPages] ++ pinOps pages n 0 ++ [.kfreeSgl] ++ puts ++ rest

/-- The array with `n` pages pinned. -/
def PinEnv.array (e : PinEnv) (mem : ℕ → ℕ) (n : ℕ) : ℕ → ℕ :=
  fun i => if i < n then e.page i else mem i

theorem PinEnv.array_ne {e : PinEnv} {mem : ℕ → ℕ} {n j : ℕ} (h : j < n) : e.array mem n j ≠ 0 := by
  unfold PinEnv.array
  rw [if_pos h]
  exact (e.page j).ne_zero

/-- **What a call comes to.** -/
inductive PinOutcome (k : PageShift) (x : CdevFile) (e : PinEnv) (buf count : ℕ) (write : Bool) :
    List PinOp → Prop where
  | nothing (h : ¬ x.Ready write ∨ userPagesNr k buf count = 0 ∨ e.sgMem = false) :
      PinOutcome k x e buf count write []
  | noArray (h : e.pagesMem = none) :
      PinOutcome k x e buf count write [.kzallocSgl, .kfreeSgl]
  | none (mem : ℕ → ℕ) (h : e.FailsPinning k buf count) (hno : ¬ e.Strays k buf count)
      (hx : x.Ready write) : PinOutcome k x e buf count write (pinLog (e.array mem 0) 0 [] [])
  | half (mem : ℕ → ℕ) (m : ℕ) (h : e.FailsPinning k buf count)
      (hm : m < (efault % 2 ^ 32).toNat) (hstray : e.Strays k buf count ↔ mem m ≠ 0)
      (hx : x.Ready write) : PinOutcome k x e buf count write
        (pinLog (e.array mem m) m (putPages (e.array mem m) write (efault % 2 ^ 32).toNat 0) [])
  | duplicate (mem : ℕ → ℕ) (h : e.FailsPinning k buf count) (hno : ¬ e.Strays k buf count)
      (hx : x.Ready write) : PinOutcome k x e buf count write
        (pinLog (e.array mem (userPagesNr k buf count)) (userPagesNr k buf count)
          (putPages (e.array mem (userPagesNr k buf count)) write (userPagesNr k buf count) 0) [])
  | all (mem : ℕ → ℕ) (h : ¬ e.FailsPinning k buf count) (hno : ¬ e.Strays k buf count) :
      PinOutcome k x e buf count write
        (pinLog (e.array mem (userPagesNr k buf count)) (userPagesNr k buf count)
          (putPages (e.array mem (userPagesNr k buf count)) write (userPagesNr k buf count) 0)
          [.kfreePages])

theorem pinned_ops {e : PinEnv} {mem : ℕ → ℕ} (n : ℕ) :
    (List.range n).map (fun i => PinOp.pin (e.page i)) = pinOps (e.array mem n) n 0 := by
  unfold pinOps PinEnv.array
  rw [List.range_eq_range']
  refine List.map_congr_left (fun i hi => ?_)
  have hin : i < 0 + n := (List.mem_range'_1.mp hi).2
  rw [if_pos (by omega)]

/-- `unmap_user_buf` with a list, an array and a number of pages. -/
theorem unmapUserBuf_log {s : IoCb} {pages : ℕ → ℕ} (write : Bool) (hsgl : s.sgl.isSome = true)
    (hpages : s.pages = some pages) (hnr : s.pagesNr ≠ 0) :
    (unmapUserBuf s write).log = s.log ++ [.kfreeSgl] ++ putPages pages write s.pagesNr 0 ∧
      (iocbRelease (unmapUserBuf s write)).log =
        s.log ++ [.kfreeSgl] ++ putPages pages write s.pagesNr 0 ++ [.kfreePages] := by
  have hfree : s.kfreeSgl = { s with sgl := none, log := s.log ++ [.kfreeSgl] } := if_pos hsgl
  have hunmap : unmapUserBuf s write =
      { s with
          sgl := none
          log := s.log ++ [.kfreeSgl] ++ putPages pages write s.pagesNr 0
          pagesNr := 0 } := by
    unfold unmapUserBuf
    rw [hfree]
    simp only [hpages]
    rw [if_neg hnr]
  rw [hunmap]
  refine ⟨rfl, ?_⟩
  unfold iocbRelease IoCb.kfreeSgl
  simp only [hpages, Option.isSome_none, Option.isSome_some, Bool.false_eq_true, if_false, if_true]

/-- The log of a call that comes to the mapping. -/
theorem cdevGenReadWrite_log {k : PageShift} {x : CdevFile} {e : PinEnv} {buf count pos : ℕ}
    {write : Bool} (hx : x.Ready write) :
    (cdevGenReadWrite k x e buf count pos write).log =
      if (mapUserBufToSgl k { buf := buf, len := count } e write).2 < 0 then
        (mapUserBufToSgl k { buf := buf, len := count } e write).1.log
      else (iocbRelease (unmapUserBuf
        (mapUserBufToSgl k { buf := buf, len := count } e write).1 write)).log := by
  obtain ⟨hrw, hfree⟩ := hx
  obtain ⟨fpRw, hrw⟩ := Option.isSome_iff_exists.mp hrw
  unfold cdevGenReadWrite
  rw [hrw]
  simp only
  rw [hfree, if_neg (show ¬ (!true) = true by decide)]
  by_cases hrv : (mapUserBufToSgl k { buf := buf, len := count } e write).2 < 0
  · rw [if_pos hrv, if_pos hrv]
  · rw [if_neg hrv, if_neg hrv]

/-- **Every call has one of the outcomes.** -/
theorem cdev_pinOutcome (k : PageShift) (x : CdevFile) (e : PinEnv) (buf count pos : ℕ)
    (write : Bool) :
    PinOutcome k x e buf count write (cdevGenReadWrite k x e buf count pos write).log := by
  by_cases hx : x.Ready write
  swap
  · have hlog : (cdevGenReadWrite k x e buf count pos write).log = [] := by
      unfold cdevGenReadWrite
      cases hrw : x.fpRw with
      | none => rfl
      | some fpRw =>
          have hfree : (if write then x.h2cFree else x.c2hFree) = false :=
            Bool.eq_false_of_not_eq_true (fun h => hx ⟨by rw [hrw]; rfl, h⟩)
          simp only
          rw [hfree, if_pos (show (!false) = true from rfl)]
    rw [hlog]
    exact .nothing (.inl hx)
  rw [cdevGenReadWrite_log hx]
  unfold mapUserBufToSgl
  simp only
  by_cases hnr : userPagesNr k buf count = 0
  · rw [if_pos hnr, if_pos (show einval < 0 by decide)]
    exact .nothing (.inr (.inl hnr))
  rw [if_neg hnr]
  cases hsg : e.sgMem with
  | false =>
      rw [if_pos (show (!false) = true from rfl), if_pos (show enomem < 0 by decide)]
      exact .nothing (.inr (.inr hsg))
  | true =>
  rw [if_neg (show ¬ (!true) = true by decide)]
  cases hmem : e.pagesMem with
  | none =>
      simp only
      rw [if_pos (show enomem < 0 by decide)]
      exact .noArray hmem
  | some mem =>
  simp only
  cases hans : e.answer with
  | error rv hneg =>
      simp only
      rw [if_pos hneg]
      have hno : ¬ e.Strays k buf count := by
        rintro ⟨-, mem', m, -, hm, -⟩
        exact PinAnswer.noConfusion (hans.symm.trans hm)
      refine .none mem ⟨hnr, hsg, by rw [hmem]; rfl, ?_⟩ hno hx
      rintro ⟨⟨m, hm, -⟩, -⟩
      exact PinAnswer.noConfusion (hans.symm.trans hm)
  | pinned m =>
  simp only
  have hsome : e.pagesMem.isSome = true := by rw [hmem]; rfl
  have hm : ∀ m', e.answer = .pinned m' → m' = m :=
    fun m' h => (PinAnswer.pinned.inj (hans.symm.trans h)).symm
  by_cases hlt : m.val < userPagesNr k buf count
  · -- `pages_nr` becomes the error code
    have hmin : min m.val (userPagesNr k buf count) = m.val := min_eq_left hlt.le
    have hfault : (efault % 2 ^ 32).toNat ≠ 0 := by decide
    have hall : ¬ e.AllPinned (userPagesNr k buf count) := by
      rintro ⟨⟨m', hm', hle⟩, -⟩
      rw [hm m' hm'] at hle
      exact absurd hlt (not_lt.mpr hle)
    have hstray : e.Strays k buf count ↔ mem m.val ≠ 0 := by
      constructor
      · rintro ⟨-, mem', m', hmem', hm', -, hne⟩
        rw [hm m' hm', ← Option.some.inj (hmem.symm.trans hmem')] at hne
        exact hne
      · intro hne
        exact ⟨hsg, mem, m, hmem, hans, hlt, hne⟩
    rw [hmin, if_pos hlt.ne, if_pos (show efault < 0 by decide)]
    simp only
    rw [(unmapUserBuf_log write (by rfl) (by rfl) hfault).1]
    have hout : PinOutcome k x e buf count write _ := .half mem m.val ⟨hnr, hsg, hsome, hall⟩
      (show m.val < (efault % 2 ^ 32).toNat from m.isLt.trans (by decide)) hstray hx
    unfold pinLog at hout
    rw [← pinned_ops, List.append_nil] at hout
    exact hout
  have hmin : min m.val (userPagesNr k buf count) = userPagesNr k buf count :=
    min_eq_right (not_lt.mp hlt)
  have hno : ¬ e.Strays k buf count := by
    rintro ⟨-, mem', m', -, hm', hlt', -⟩
    rw [hm m' hm'] at hlt'
    exact hlt hlt'
  rw [hmin, if_neg (not_not.mpr rfl)]
  by_cases hdup : (List.range (userPagesNr k buf count - 1)).any
      (fun i => (e.page i : ℕ) = (e.page (i + 1) : ℕ)) = true
  · -- two neighbours are equal: all pages are put, with the right number
    rw [if_pos hdup, if_pos (show efault < 0 by decide)]
    simp only
    rw [(unmapUserBuf_log write (by rfl) (by rfl) hnr).1]
    have hall : ¬ e.AllPinned (userPagesNr k buf count) := by
      rintro ⟨-, hne⟩
      obtain ⟨i, hi, heq⟩ := List.any_eq_true.mp hdup
      have hin := List.mem_range.mp hi
      exact hne i (by omega) (PNat.coe_injective (of_decide_eq_true heq))
    have hout : PinOutcome k x e buf count write _ :=
      .duplicate mem ⟨hnr, hsg, hsome, hall⟩ hno hx
    unfold pinLog at hout
    rw [← pinned_ops, List.append_nil] at hout
    exact hout
  · -- the request is done, and `iocb_release` frees the array
    rw [if_neg hdup, if_neg (show ¬ (0 : ℤ) < 0 by decide)]
    rw [(unmapUserBuf_log write (by rfl) (by rfl) hnr).2]
    have hall : e.AllPinned (userPagesNr k buf count) := by
      refine ⟨⟨m, hans, not_lt.mp hlt⟩, fun i hi heq => hdup ?_⟩
      rw [List.any_eq_true]
      exact ⟨i, List.mem_range.mpr (by omega), decide_eq_true (congrArg PNat.val heq)⟩
    have hout : PinOutcome k x e buf count write _ := .all mem (fun h => h.fails hall) hno
    unfold pinLog at hout
    rw [← pinned_ops] at hout
    exact hout

/-! ## What is given back -/

theorem count_pinLog (op : PinOp) (pages : ℕ → ℕ) (n : ℕ) (puts rest : List PinOp) :
    (pinLog pages n puts rest).count op =
      [PinOp.kzallocSgl, .kmallocPages].count op + (pinOps pages n 0).count op +
        [PinOp.kfreeSgl].count op + puts.count op + rest.count op := by
  unfold pinLog
  rw [List.count_append, List.count_append, List.count_append, List.count_append]

theorem count_pinOps_zero {op : PinOp} (h : ∀ pg, op ≠ .pin pg) (pages : ℕ → ℕ) (n i : ℕ) :
    (pinOps pages n i).count op = 0 := by
  rw [List.count_eq_zero]
  intro hmem
  obtain ⟨j, -, rfl⟩ := List.mem_map.mp hmem
  exact h _ rfl

theorem count_putPages_zero {op : PinOp} (hput : ∀ pg, op ≠ .putPage pg)
    (hdirty : ∀ pg, op ≠ .setPageDirty pg) (pages : ℕ → ℕ) (write : Bool) (n i : ℕ) :
    (putPages pages write n i).count op = 0 := by
  rw [List.count_eq_zero]
  intro hmem
  obtain ⟨j, -, -, rfl | rfl⟩ := mem_putPages hmem
  · exact hput _ rfl
  · exact hdirty _ rfl

/-- How often a page is put, and pinned, where nothing is left to do but to free the array. -/
theorem pinLog_pages (pages : ℕ → ℕ) (write : Bool) (n m pg : ℕ) (rest : List PinOp)
    (hrest : ∀ op ∈ rest, op = .kfreePages) :
    (pinLog pages n (putPages pages write m 0) rest).count (.putPage pg) =
        (putPages pages write m 0).count (.putPage pg) ∧
      (pinLog pages n (putPages pages write m 0) rest).count (.pin pg) =
        (pinOps pages n 0).count (.pin pg) := by
  have hno : ∀ op, op ≠ .kfreePages → rest.count op = 0 :=
    fun op hop => List.count_eq_zero.mpr (fun h => hop (hrest op h))
  constructor
  · have hpins : (pinOps pages n 0).count (.putPage pg) = 0 :=
      count_pinOps_zero (fun _ h => PinOp.noConfusion h) pages n 0
    rw [count_pinLog, hpins, hno (.putPage pg) (fun h => PinOp.noConfusion h)]
    simp
  · have hputs : (putPages pages write m 0).count (.pin pg) = 0 :=
      count_putPages_zero (fun _ h => PinOp.noConfusion h) (fun _ h => PinOp.noConfusion h)
        pages write m 0
    rw [count_pinLog, hputs, hno (.pin pg) (fun h => PinOp.noConfusion h)]
    simp

/-- **The pages are given back** where as many are put as are pinned. -/
theorem pagesReleased_pinLog {pages : ℕ → ℕ} (write : Bool) {n : ℕ} {rest : List PinOp}
    (h : ∀ j < n, pages j ≠ 0) (hrest : ∀ op ∈ rest, op = .kfreePages) :
    PagesReleased (pinLog pages n (putPages pages write n 0) rest) := by
  refine ⟨fun pg => ?_, fun pg hmem => ?_⟩
  · obtain ⟨hput, hpin⟩ := pinLog_pages pages write n n pg rest hrest
    rw [hput, hpin]
    exact count_putPages write n 0 pg (fun j _ hj => h j (by omega))
  · have hin : PinOp.setPageDirty pg ∈ putPages pages write n 0 := by
      have hpins : PinOp.setPageDirty pg ∉ pinOps pages n 0 := by
        intro h
        obtain ⟨j, -, hj⟩ := List.mem_map.mp h
        exact PinOp.noConfusion hj
      have hleft : PinOp.setPageDirty pg ∉ rest := fun h => PinOp.noConfusion (hrest _ h)
      unfold pinLog at hmem
      simpa [hpins, hleft] using hmem
    obtain ⟨j, -, hj, hop | hop⟩ := mem_putPages hin
    · exact PinOp.noConfusion hop
    · obtain rfl := PinOp.setPageDirty.inj hop
      have hpin : PinOp.pin (pages j) ∈ pinOps pages n 0 :=
        List.mem_map.mpr ⟨j, List.mem_range'_1.mpr ⟨j.zero_le, hj⟩, rfl⟩
      unfold pinLog
      simp [hpin]

/-- The pages that are pinned are given back. -/
theorem PinEnv.array_released (e : PinEnv) (mem : ℕ → ℕ) (write : Bool) (n : ℕ) {rest : List PinOp}
    (hrest : ∀ op ∈ rest, op = .kfreePages) :
    PagesReleased (pinLog (e.array mem n) n (putPages (e.array mem n) write n 0) rest) :=
  pagesReleased_pinLog write (fun _ hj => PinEnv.array_ne hj) hrest

/-- What is done with the list and the array. -/
theorem pinLog_memory (pages : ℕ → ℕ) (write : Bool) (n m : ℕ) (rest : List PinOp)
    (hrest : rest = [] ∨ rest = [.kfreePages]) :
    (pinLog pages n (putPages pages write m 0) rest).count .kfreeSgl =
        (pinLog pages n (putPages pages write m 0) rest).count .kzallocSgl ∧
      (pinLog pages n (putPages pages write m 0) rest).count .kmallocPages = 1 ∧
      (pinLog pages n (putPages pages write m 0) rest).count .kfreePages = rest.length := by
  have hpins : ∀ op, (∀ pg, op ≠ .pin pg) → (pinOps pages n 0).count op = 0 :=
    fun op h => count_pinOps_zero h pages n 0
  have hputs : ∀ op, (∀ pg, op ≠ .putPage pg) → (∀ pg, op ≠ .setPageDirty pg) →
      (putPages pages write m 0).count op = 0 :=
    fun op h h' => count_putPages_zero h h' pages write m 0
  rcases hrest with rfl | rfl
  · simp [count_pinLog, hpins, hputs]
  · simp [count_pinLog, hpins, hputs]

/-- **A page that was not pinned is put** where the pages are followed by something. -/
theorem not_pagesReleased {pages : ℕ → ℕ} (write : Bool) {n r : ℕ} (h : ∀ j < n, pages j ≠ 0)
    (hstray : pages n ≠ 0) :
    ¬ PagesReleased (pinLog pages n (putPages pages write (n + (r + 1)) 0) []) := by
  rintro ⟨hpages, -⟩
  have hn : ∀ j, 0 ≤ j → j < 0 + n → pages j ≠ 0 := fun j _ hj => h j (by omega)
  obtain ⟨hput, hpin⟩ := pinLog_pages pages write n (n + (r + 1)) (pages n) []
    (fun _ h => absurd h List.not_mem_nil)
  -- the page behind is put once more than it is pinned
  have heq := hpages (pages n)
  rw [hput, hpin, putPages_add write n (r + 1) 0 hn, List.count_append,
    count_putPages write n 0 _ hn, Nat.zero_add, putPages, if_pos hstray, List.count_append,
    List.count_cons_self] at heq
  omega

/-- Nothing is put where they are followed by `NULL`. -/
theorem putPages_stop {pages : ℕ → ℕ} (write : Bool) {n r : ℕ} (h : ∀ j < n, pages j ≠ 0)
    (hnull : pages n = 0) :
    putPages pages write (n + (r + 1)) 0 = putPages pages write n 0 := by
  rw [putPages_add write n (r + 1) 0 (fun j _ hj => h j (by omega)), Nat.zero_add, putPages,
    if_neg (not_not.mpr hnull), List.append_nil]

/-- The array is leaked where it is not the last thing that is freed. -/
theorem not_givenBack_pinLog (pages : ℕ → ℕ) (write : Bool) (n m : ℕ) :
    ¬ GivenBack (pinLog pages n (putPages pages write m 0) []) := by
  intro h
  obtain ⟨-, hmalloc, hfree⟩ := pinLog_memory pages write n m [] (.inl rfl)
  have harray := h.array
  rw [hmalloc, hfree] at harray
  exact Nat.zero_ne_one harray

theorem PinEnv.Strays.fails {e : PinEnv} {k : PageShift} {buf len : ℕ} (h : e.Strays k buf len) :
    e.FailsPinning k buf len := by
  obtain ⟨hsg, mem, m, hmem, hans, hlt, -⟩ := h
  refine ⟨(Nat.zero_le _).trans_lt hlt |>.ne', hsg, by rw [hmem]; rfl, ?_⟩
  rintro ⟨⟨m', hm', hle⟩, -⟩
  rw [← PinAnswer.pinned.inj (hans.symm.trans hm')] at hle
  exact absurd hlt (not_lt.mpr hle)

/-- **What is given back, outcome by outcome.** -/
theorem PinOutcome.released_iff {k : PageShift} {x : CdevFile} {e : PinEnv} {buf count : ℕ}
    {write : Bool} {log : List PinOp} (hout : PinOutcome k x e buf count write log) :
    (GivenBack log ↔ ¬ (x.Ready write ∧ e.FailsPinning k buf count)) ∧
      (PagesReleased log ↔ ¬ (x.Ready write ∧ e.Strays k buf count)) := by
  -- where nothing of an array is there, all is well
  have hfine : GivenBack log → ¬ (x.Ready write ∧ e.FailsPinning k buf count) →
      (GivenBack log ↔ ¬ (x.Ready write ∧ e.FailsPinning k buf count)) ∧
        (PagesReleased log ↔ ¬ (x.Ready write ∧ e.Strays k buf count)) := by
    intro hrel hno
    exact ⟨iff_of_true hrel hno,
      iff_of_true hrel.toPagesReleased (fun h => hno ⟨h.1, h.2.fails⟩)⟩
  cases hout with
  | nothing h =>
      refine hfine ⟨⟨fun _ => rfl, fun _ h => absurd h List.not_mem_nil⟩, rfl, rfl⟩ ?_
      rintro ⟨hx, hf⟩
      rcases h with h | h | h
      · exact h hx
      · exact hf.pages h
      · exact Bool.false_ne_true (h.symm.trans hf.sgMem)
  | noArray h =>
      refine hfine ⟨⟨fun _ => rfl, fun _ h => ?_⟩, rfl, rfl⟩ ?_
      · simp at h
      · rintro ⟨-, hf⟩
        have hsome := hf.pagesMem
        rw [h] at hsome
        exact Bool.false_ne_true hsome
  | none mem h hno hx =>
      refine ⟨iff_of_false (not_givenBack_pinLog _ write 0 0) (not_not.mpr ⟨hx, h⟩),
        iff_of_true ?_ (fun h => hno h.2)⟩
      exact e.array_released mem write 0 (fun _ h => absurd h List.not_mem_nil)
  | half mem m h hm hstray hx =>
      refine ⟨iff_of_false (not_givenBack_pinLog _ write m _) (not_not.mpr ⟨hx, h⟩), ?_⟩
      obtain ⟨r, hr⟩ : ∃ r, (efault % 2 ^ 32).toNat = m + (r + 1) :=
        ⟨(efault % 2 ^ 32).toNat - (m + 1), by omega⟩
      rw [hr]
      have hat : e.array mem m m = mem m := if_neg (lt_irrefl m)
      by_cases hnull : mem m = 0
      · refine iff_of_true ?_ (fun h => hstray.mp h.2 hnull)
        rw [putPages_stop write (fun j hj => PinEnv.array_ne hj) (hat.trans hnull)]
        exact e.array_released mem write m (fun _ h => absurd h List.not_mem_nil)
      · refine iff_of_false ?_ (not_not.mpr ⟨hx, hstray.mpr hnull⟩)
        exact not_pagesReleased write (fun j hj => PinEnv.array_ne hj) (ne_of_eq_of_ne hat hnull)
  | duplicate mem h hno hx =>
      refine ⟨iff_of_false (not_givenBack_pinLog _ write _ _) (not_not.mpr ⟨hx, h⟩),
        iff_of_true ?_ (fun h => hno h.2)⟩
      exact e.array_released mem write _ (fun _ h => absurd h List.not_mem_nil)
  | all mem h hno =>
      refine hfine ?_ (fun hf => h hf.2)
      obtain ⟨hsgl, hmalloc, hfree⟩ := pinLog_memory (e.array mem (userPagesNr k buf count)) write
        (userPagesNr k buf count) (userPagesNr k buf count) [.kfreePages] (.inr rfl)
      exact ⟨e.array_released mem write _ (fun _ h => List.mem_singleton.mp h), hsgl,
        hfree.trans hmalloc.symm⟩

/-- **When everything is given back**: for every buffer and every answer of the kernel, just when
pinning does not fail once the array is there; and the pages just when it does not fail in front of
something other than `NULL`. -/
theorem pins_released_iff (k : PageShift) (x : CdevFile) (e : PinEnv) (buf count pos : ℕ)
    (write : Bool) :
    (GivenBack (cdevGenReadWrite k x e buf count pos write).log ↔
        ¬ (x.Ready write ∧ e.FailsPinning k buf count)) ∧
      (PagesReleased (cdevGenReadWrite k x e buf count pos write).log ↔
        ¬ (x.Ready write ∧ e.Strays k buf count)) :=
  (cdev_pinOutcome k x e buf count pos write).released_iff

/-- Two pages are asked for, and one is pinned; behind its entry the array has what was there. -/
def pinsOne (stray : ℕ) : PinEnv where
  pagesMem := some (fun i => if i = 1 then stray else 0)
  answer := .pinned 1
  page := Nat.succPNat

/-- **One page of two is pinned**: the array is not freed; and if it has something in the entry
behind it, that is taken for a page, too. -/
theorem pins_half :
    (cdevGenReadWrite 12 bothQueues (pinsOne 0) 4096 8192 0 true).rv = efault ∧
      (cdevGenReadWrite 12 bothQueues (pinsOne 0) 4096 8192 0 true).log =
        [.kzallocSgl, .kmallocPages, .pin 1, .kfreeSgl, .putPage 1] ∧
      (cdevGenReadWrite 12 bothQueues (pinsOne 7) 4096 8192 0 true).log =
        [.kzallocSgl, .kmallocPages, .pin 1, .kfreeSgl, .putPage 1, .putPage 7] ∧
      ¬ GivenBack (cdevGenReadWrite 12 bothQueues (pinsOne 0) 4096 8192 0 true).log ∧
      ¬ PagesReleased (cdevGenReadWrite 12 bothQueues (pinsOne 7) 4096 8192 0 true).log := by
  have hlog : (cdevGenReadWrite 12 bothQueues (pinsOne 0) 4096 8192 0 true).log =
      [.kzallocSgl, .kmallocPages, .pin 1, .kfreeSgl, .putPage 1] := by decide +kernel
  have hlog' : (cdevGenReadWrite 12 bothQueues (pinsOne 7) 4096 8192 0 true).log =
      [.kzallocSgl, .kmallocPages, .pin 1, .kfreeSgl, .putPage 1, .putPage 7] := by decide +kernel
  refine ⟨by decide +kernel, hlog, hlog', ?_, ?_⟩
  · rw [hlog]
    exact fun h => absurd h.array (by decide)
  · rw [hlog']
    exact fun h => absurd (h.pages 7) (by decide)

end Qdma
