/-
# Mapping a user buffer

`map_user_buf_to_sgl` pins the pages a user buffer lies on and makes a scatter list of them;
`unmap_user_buf` and `iocb_release` give the pages and the memory back.

`map_partitions_iff`: the list cuts the buffer at its pages just when its length fits in 32 bits.
-/
import Qdma.DmaMap
import Qdma.PageCut
import Qdma.StPasses

namespace Qdma

open PageCut

/-! ## The buffer and the answers -/

/-- `-EFAULT`. -/
def efault : ℤ := -14

/-- `PAGE_SHIFT`. -/
abbrev PageShift := Fin 32

/-- `PAGE_SIZE`. -/
def PageShift.size (k : PageShift) : ℕ := 2 ^ k.val

/-- `struct qdma_sw_sg` in an array, with the number of the entry that `next` points to. -/
structure SgEntry extends SwSg where
  next : Option ℕ
  deriving DecidableEq

/-- What is done with the memory and the pages; a page is the address of its `struct page`. -/
inductive PinOp where
  | kzallocSgl
  | kmallocPages
  | pin (pg : ℕ)
  | setPageDirty (pg : ℕ)
  | putPage (pg : ℕ)
  | kfreeSgl
  | kfreePages
  deriving DecidableEq

/-- What `get_user_pages_fast` answers, an `int`: an error, or how many pages can be pinned. -/
inductive PinAnswer where
  | error (rv : ℤ) (h : rv < 0)
  | pinned (n : Fin (2 ^ 31))

/-- The answers of the kernel.  `pagesMem` is what is in the array of pages when it is allocated,
and behind it, and `page` the pages of the buffer. -/
structure PinEnv where
  sgMem : Bool := true
  pagesMem : Option (ℕ → ℕ) := some (fun _ => 0)
  answer : PinAnswer
  page : ℕ → ℕ+

/-- `struct qdma_io_cb` without its request, and the log of what is done. -/
structure IoCb where
  buf : ℕ
  len : ℕ
  pagesNr : ℕ := 0
  sgl : Option (List SgEntry) := none
  pages : Option (ℕ → ℕ) := none
  log : List PinOp := []

/-! ## Giving back -/

/-- `kfree(iocb->sgl)`. -/
def IoCb.kfreeSgl (s : IoCb) : IoCb :=
  if s.sgl.isSome then { s with sgl := none, log := s.log ++ [.kfreeSgl] } else s

/-- The loop of `unmap_user_buf` over `n` pages from `i` on. -/
def putPages (pages : ℕ → ℕ) (write : Bool) : ℕ → ℕ → List PinOp
  | 0, _ => []
  | n + 1, i =>
      if pages i ≠ 0 then
        (if write then [] else [.setPageDirty (pages i)])
          ++ .putPage (pages i) :: putPages pages write n (i + 1)
      else []

/-- `unmap_user_buf`. -/
def unmapUserBuf (s : IoCb) (write : Bool) : IoCb :=
  let s := s.kfreeSgl
  match s.pages with
  | none => s
  | some pages =>
      if s.pagesNr = 0 then s
      else { s with log := s.log ++ putPages pages write s.pagesNr 0, pagesNr := 0 }

/-- `iocb_release`. -/
def iocbRelease (s : IoCb) : IoCb :=
  let s := s.kfreeSgl
  let s := if s.pages.isSome then { s with pages := none, log := s.log ++ [.kfreePages] } else s
  { s with buf := 0 }

/-! ## Mapping -/

/-- `pages_nr` of `map_user_buf_to_sgl`, an `unsigned int`. -/
def userPagesNr (k : PageShift) (buf len : ℕ) : ℕ :=
  if len = 0 then 1
  else u32 (u64Sub (u64 (buf + len + k.size - 1)) (buf - buf % k.size) >>> k.val)

/-- The loop over `n` pages from `i` on, with `buf` and `len` to go.  The length is cut to 32 bits
where it is compared. -/
def mapEntries (k : PageShift) (page : ℕ → ℕ) : ℕ → ℕ → ℕ → ℕ → List SgEntry
  | 0, _, _, _ => []
  | n + 1, i, buf, len =>
      let offset := buf % k.size
      let nbytes := min (k.size - offset) (u32 len)
      { pg := page i, offset := offset, len := nbytes, dmaAddr := 0, next := some (i + 1) }
        :: mapEntries k page n (i + 1) (u64 (buf + nbytes)) (len - nbytes)

/-- The list, with `next` of the last entry cleared. -/
def builtSgl (k : PageShift) (page : ℕ → ℕ) (n buf len : ℕ) : List SgEntry :=
  (mapEntries k page n 0 buf len).modify (n - 1) (fun sg => { sg with next := none })

/-- An entry as `kzalloc` leaves it. -/
def zeroSg : SgEntry := { pg := 0, offset := 0, len := 0, dmaAddr := 0, next := none }

/-- `get_user_pages_fast` has pinned `n` pages. -/
def IoCb.pinned (s : IoCb) (mem : ℕ → ℕ) (page : ℕ → ℕ) (n : ℕ) : IoCb :=
  { s with
    pages := some (fun i => if i < n then page i else mem i)
    log := s.log ++ (List.range n).map (fun i => .pin (page i)) }

/-- `map_user_buf_to_sgl`. -/
def mapUserBufToSgl (k : PageShift) (s : IoCb) (e : PinEnv) (write : Bool) : IoCb × ℤ :=
  let pagesNr := userPagesNr k s.buf s.len
  if pagesNr = 0 then (s, einval)
  else if !e.sgMem then (s, enomem)
  else
    let s :=
      { s with sgl := some (List.replicate pagesNr zeroSg), log := s.log ++ [.kzallocSgl] }
    match e.pagesMem with
    | none => (unmapUserBuf s write, enomem)
    | some mem =>
        let s := { s with pages := some mem, log := s.log ++ [.kmallocPages] }
        match e.answer with
        | .error rv _ => (unmapUserBuf s write, rv)
        | .pinned m =>
            let page := fun i => (e.page i : ℕ)
            let n := min m.val pagesNr
            let s := s.pinned mem page n
            -- `pages_nr` is an `unsigned int`
            if n ≠ pagesNr then
              (unmapUserBuf { s with pagesNr := (efault % 2 ^ 32).toNat } write, efault)
            else if (List.range (pagesNr - 1)).any (fun i => page i = page (i + 1)) then
              (unmapUserBuf { s with pagesNr := pagesNr } write, efault)
            else
              ({ s with sgl := some (builtSgl k page pagesNr s.buf s.len), pagesNr := pagesNr }, 0)

/-! ## What is asked of it -/

/-- All of `n` pages are pinned, and none is the one before it. -/
def PinEnv.AllPinned (e : PinEnv) (n : ℕ) : Prop :=
  (∃ m, e.answer = .pinned m ∧ n ≤ m.val) ∧ ∀ i, i + 1 < n → e.page i ≠ e.page (i + 1)

/-- The bytes of the entries before entry `i`. -/
def sgStart (l : List SgEntry) (i : ℕ) : ℕ := ((l.take i).map (fun sg => sg.len)).sum

/-- **The list partitions the buffer** of `len` bytes at `buf`, on pages of `p` bytes. -/
structure Partitions (p : ℕ) (page : ℕ → ℕ) (buf len : ℕ) (l : List SgEntry) : Prop where
  length : l.length = touched p buf len
  onPage : ∀ i sg, l[i]? = some sg → sg.pg = page i ∧ (buf + sgStart l i) / p = buf / p + i ∧
    sg.offset = (buf + sgStart l i) % p ∧ sg.offset + sg.len ≤ p
  offset : ∀ i sg, l[i]? = some sg → i ≠ 0 → sg.offset = 0
  nonempty : 0 < len → ∀ sg ∈ l, 0 < sg.len
  total : (l.map (fun sg => sg.len)).sum = len
  chain : ∀ i sg, l[i]? = some sg → sg.next = if i + 1 < l.length then some (i + 1) else none

/-! ## The list -/

theorem PageShift.size_pos (k : PageShift) : 0 < k.size := Nat.two_pow_pos k.val

theorem PageShift.size_dvd (k : PageShift) : k.size ∣ 2 ^ 64 :=
  Nat.pow_dvd_pow 2 (by have := k.isLt; omega)

theorem PageShift.size_le (k : PageShift) : k.size ≤ 2 ^ 31 :=
  Nat.pow_le_pow_right (by decide) (Nat.le_of_lt_succ k.isLt)

/-- **The pages are counted right** as long as nothing wraps. -/
theorem userPagesNr_eq {k : PageShift} {buf len : ℕ}
    (hwrap : buf % k.size + len + k.size ≤ 2 ^ 64)
    (hpages : touched k.size buf len < 2 ^ 32) :
    userPagesNr k buf len = touched k.size buf len := by
  unfold userPagesNr
  by_cases h0 : len = 0
  · unfold touched
    rw [if_pos h0, if_pos h0]
  rw [if_neg h0]
  have hlen : 0 < len := Nat.pos_of_ne_zero h0
  have ho : buf % k.size < k.size := Nat.mod_lt _ k.size_pos
  have hle : buf % k.size ≤ buf := Nat.mod_le _ _
  have hsub : u64Sub (u64 (buf + len + k.size - 1)) (buf - buf % k.size) =
      buf % k.size + len + k.size - 1 := by
    unfold u64Sub u64
    omega
  rw [touched_eq k.size_pos hlen] at hpages ⊢
  rw [hsub, Nat.shiftRight_eq_div_pow]
  exact Nat.mod_eq_of_lt hpages

/-- Entry `j` of a list over a buffer that is cut at its pages. -/
def pieceEntry (p : ℕ) (page : ℕ → ℕ) (i buf len j : ℕ) : SgEntry :=
  { pg := page (i + j)
    offset := (buf % p + bytesOn p (buf % p) len j) % p
    len := bytesOn p (buf % p) len (j + 1) - bytesOn p (buf % p) len j
    dmaAddr := 0
    next := some (i + j + 1) }

/-- **The loop cuts the buffer at its pages** if the length fits in 32 bits. -/
theorem mapEntries_eq (k : PageShift) (page : ℕ → ℕ) (n i buf : ℕ) {len : ℕ}
    (hlen : len < 2 ^ 32) :
    mapEntries k page n i buf len = (List.range n).map (pieceEntry k.size page i buf len) := by
  induction n generalizing i buf len with
  | zero => rfl
  | succ n ih =>
      have ho : buf % k.size < k.size := Nat.mod_lt _ k.size_pos
      have hu : u32 len = len := Nat.mod_eq_of_lt hlen
      set nbytes := min (k.size - buf % k.size) len with hn
      have hmod : u64 (buf + nbytes) % k.size = (buf % k.size + nbytes) % k.size := by
        unfold u64
        rw [Nat.mod_mod_of_dvd _ k.size_dvd, Nat.mod_add_mod]
      have hcut : ∀ j, bytesOn k.size (buf % k.size) len (j + 1) =
          nbytes + bytesOn k.size (u64 (buf + nbytes) % k.size) (len - nbytes) j := by
        intro j
        rw [bytesOn_succ ho, hmod]
      -- the rest of the list is that of the rest of the buffer, which starts at the next page
      rw [mapEntries]
      simp only [hu, ← hn]
      rw [ih (i + 1) (u64 (buf + nbytes)) (show len - nbytes < 2 ^ 32 by omega),
        List.range_succ_eq_map, List.map_cons, List.map_map]
      congr 1
      · unfold pieceEntry
        rw [hcut 0, bytesOn_zero, bytesOn_zero]
        simp only [Nat.add_zero, Nat.sub_zero, Nat.mod_mod]
      · refine List.map_congr_left (fun j _ => ?_)
        unfold pieceEntry
        simp only [Function.comp_apply, Nat.succ_eq_add_one]
        rw [hcut j, hcut (j + 1), hmod, Nat.mod_add_mod, Nat.add_assoc (buf % k.size),
          Nat.add_sub_add_left, show i + 1 + j = i + (j + 1) by omega]

/-- Entry `j` of the list of `n` entries that is built. -/
def builtEntry (p : ℕ) (page : ℕ → ℕ) (n buf len j : ℕ) : SgEntry :=
  { pieceEntry p page 0 buf len j with next := if j + 1 < n then some (j + 1) else none }

/-- **The list that is built.** -/
theorem builtSgl_eq (k : PageShift) (page : ℕ → ℕ) (n buf : ℕ) {len : ℕ} (hlen : len < 2 ^ 32) :
    builtSgl k page n buf len = (List.range n).map (builtEntry k.size page n buf len) := by
  unfold builtSgl
  rw [mapEntries_eq k page n 0 buf hlen]
  refine List.ext_getElem? (fun j => ?_)
  rw [List.getElem?_modify, List.getElem?_map, List.getElem?_map]
  by_cases hj : j < n
  · rw [List.getElem?_range hj, Option.map_some, Option.map_some, Option.map_eq_map,
      Option.map_some]
    congr 1
    unfold builtEntry pieceEntry
    by_cases hlast : n - 1 = j
    · rw [if_pos hlast, if_neg (show ¬ j + 1 < n by omega)]
    · rw [if_neg hlast, if_pos (show j + 1 < n by omega), Nat.zero_add]
  · rw [List.getElem?_eq_none (by rw [List.length_range]; omega)]
    rfl

/-- The bytes before an entry are those on the pages before. -/
theorem builtSgl_start (k : PageShift) (page : ℕ → ℕ) {n i : ℕ} (buf : ℕ) {len : ℕ}
    (hlen : len < 2 ^ 32) (hi : i ≤ n) :
    sgStart (builtSgl k page n buf len) i = bytesOn k.size (buf % k.size) len i := by
  unfold sgStart
  rw [builtSgl_eq k page n buf hlen, ← List.map_take, List.take_range, Nat.min_eq_left hi,
    List.map_map]
  exact sum_pieces i

/-- **The list partitions the buffer** if its length fits in 32 bits. -/
theorem builtSgl_partitions (k : PageShift) (page : ℕ → ℕ) (buf : ℕ) {len : ℕ}
    (hlen : len < 2 ^ 32) :
    Partitions k.size page buf len (builtSgl k page (touched k.size buf len) buf len) := by
  have ho : buf % k.size < k.size := Nat.mod_lt _ k.size_pos
  set n := touched k.size buf len with hn
  set l := builtSgl k page n buf len with hl
  have hlist : l = (List.range n).map (builtEntry k.size page n buf len) :=
    builtSgl_eq k page n buf hlen
  have hlength : l.length = n := by rw [hlist, List.length_map, List.length_range]
  have hget : ∀ i sg, l[i]? = some sg → i < n ∧ sg = builtEntry k.size page n buf len i := by
    rintro i sg hi
    have hin : i < n := hlength ▸ (List.getElem?_eq_some_iff.mp hi).1
    rw [hlist, List.getElem?_map, List.getElem?_range hin, Option.map_some] at hi
    exact ⟨hin, (Option.some.inj hi).symm⟩
  have hstart : ∀ i, i < n → sgStart l i = bytesOn k.size (buf % k.size) len i :=
    fun i hi => builtSgl_start k page buf hlen hi.le
  -- an entry comes before the last page, up to which no byte is missing
  have hneed : ∀ i, i < n → i * k.size ≤ buf % k.size + len := by
    rintro i hi
    by_cases h0 : len = 0
    · have hone : n = 1 := if_pos h0
      obtain rfl : i = 0 := by omega
      rw [Nat.zero_mul]
      exact Nat.zero_le _
    · have hspec := (touched_spec buf k.size_pos (Nat.pos_of_ne_zero h0)).1
      exact (Nat.mul_le_mul_right k.size (Nat.le_sub_one_of_lt hi)).trans hspec.le
  refine ⟨hlength, ?_, ?_, ?_, ?_, ?_⟩
  · rintro i sg hi
    obtain ⟨hin, rfl⟩ := hget i sg hi
    rw [hstart i hin]
    refine ⟨congrArg page (Nat.zero_add i), piece_page k.size_pos (hneed i hin), ?_, piece_fits ho⟩
    exact Nat.mod_add_mod _ _ _
  · rintro i sg hi h0
    obtain ⟨hin, rfl⟩ := hget i sg hi
    exact piece_offset ho h0 (hneed i hin)
  · rintro h0 sg hsg
    obtain ⟨i, hi⟩ := List.getElem?_of_mem hsg
    obtain ⟨hin, rfl⟩ := hget i sg hi
    have hspec := (touched_spec buf k.size_pos h0).1
    have hlt := (Nat.mul_le_mul_right k.size (Nat.le_sub_one_of_lt hin)).trans_lt hspec
    exact Nat.sub_pos_of_lt (piece_pos ho hlt h0)
  · have hall : buf % k.size + len ≤ n * k.size := by
      by_cases h0 : len = 0
      · have hone : n = 1 := if_pos h0
        rw [h0, hone, Nat.one_mul, Nat.add_zero]
        exact ho.le
      · exact (touched_spec buf k.size_pos (Nat.pos_of_ne_zero h0)).2
    rw [hlist, List.map_map]
    exact (sum_pieces n).trans (bytesOn_all hall)
  · rintro i sg hi
    obtain ⟨hin, rfl⟩ := hget i sg hi
    rw [hlength]
    rfl

theorem userBufLens_mod {pg n buf buf' : ℕ} (len : ℕ) (h : buf % pg = buf' % pg) :
    userBufLens pg n buf len = userBufLens pg n buf' len := by
  induction n generalizing buf buf' len with
  | zero => rfl
  | succ n ih =>
      have hnext : ∀ m, (buf + m) % pg = (buf' + m) % pg := by
        intro m
        rw [Nat.add_mod, h, ← Nat.add_mod]
      rw [userBufLens, userBufLens, h]
      exact congrArg _ (ih _ (hnext _))

/-- **The lengths are those that the passes of the library are proved for.** -/
theorem mapEntries_lens (k : PageShift) (page : ℕ → ℕ) (n i buf : ℕ) {len : ℕ}
    (hlen : len < 2 ^ 32) :
    (mapEntries k page n i buf len).map (fun sg => sg.len) = userBufLens k.size n buf len := by
  induction n generalizing i buf len with
  | zero => rfl
  | succ n ih =>
      have hu : u32 len = len := Nat.mod_eq_of_lt hlen
      rw [mapEntries, userBufLens]
      simp only [hu]
      rw [List.map_cons, ih _ _ (by omega)]
      exact congrArg _ (userBufLens_mod _ (Nat.mod_mod_of_dvd _ k.size_dvd))

theorem builtSgl_lens (k : PageShift) (page : ℕ → ℕ) (n buf : ℕ) {len : ℕ} (hlen : len < 2 ^ 32) :
    (builtSgl k page n buf len).map (fun sg => sg.len) = userBufLens k.size n buf len := by
  rw [← mapEntries_lens k page n 0 buf hlen, builtSgl_eq k page n buf hlen,
    mapEntries_eq k page n 0 buf hlen, List.map_map, List.map_map]
  rfl

theorem pagesNr_eq_touched {pg buf len : ℕ} (hpg : 0 < pg) :
    pagesNr pg buf len = touched pg buf len := by
  unfold pagesNr
  by_cases h0 : len = 0
  · rw [if_pos h0]
    exact (if_pos h0).symm
  · have hle : buf % pg ≤ buf := Nat.mod_le _ _
    rw [if_neg h0, touched_eq hpg (Nat.pos_of_ne_zero h0),
      show buf + len + pg - 1 - (buf - buf % pg) = buf % pg + len + pg - 1 by omega]

/-- **A length that does not fit in 32 bits** makes an entry that is empty, or one behind the first
that does not start its page: where less than a page is left of the low 32 bits of the length. -/
theorem mapEntries_wrong (k : PageShift) (page : ℕ → ℕ) {n i buf len : ℕ} (hlen : 2 ^ 32 ≤ len)
    (hroom : buf % k.size + len ≤ n * k.size) :
    ∃ j sg, (mapEntries k page n i buf len)[j]? = some sg ∧
      (sg.len = 0 ∨ j ≠ 0 ∧ sg.offset ≠ 0) := by
  induction n generalizing i buf len with
  | zero => omega
  | succ n ih =>
      have ho : buf % k.size < k.size := Nat.mod_lt _ k.size_pos
      have hsize := k.size_le
      rw [Nat.succ_mul] at hroom
      by_cases hfit : k.size - buf % k.size ≤ u32 len
      · -- the entry takes the rest of the page, and what is left does not fit either
        have hmin : min (k.size - buf % k.size) (u32 len) = k.size - buf % k.size :=
          min_eq_left hfit
        have hmod : u64 (buf + (k.size - buf % k.size)) % k.size = 0 := by
          unfold u64
          rw [Nat.mod_mod_of_dvd _ k.size_dvd, Nat.add_mod, Nat.add_mod_mod,
            Nat.add_sub_of_le ho.le, Nat.mod_self]
        have hleft : 2 ^ 32 ≤ len - (k.size - buf % k.size) := by
          unfold u32 at hfit
          omega
        obtain ⟨j, sg, hj, hbad⟩ :=
          @ih (i + 1) (u64 (buf + (k.size - buf % k.size))) _ hleft (by rw [hmod]; omega)
        refine ⟨j + 1, sg, ?_, hbad.imp_right (fun h => ⟨j.succ_ne_zero, h.2⟩)⟩
        rw [mapEntries]
        simp only [hmin]
        rw [List.getElem?_cons_succ]
        exact hj
      have hmin : min (k.size - buf % k.size) (u32 len) = u32 len := min_eq_right (by omega)
      by_cases h0 : u32 len = 0
      · refine ⟨0, _, List.getElem?_cons_zero, .inl ?_⟩
        rw [← h0]
        exact hmin
      · -- the next entry is on the same page
        obtain ⟨n, rfl⟩ : ∃ m, n = m + 1 := by
          refine Nat.exists_eq_succ_of_ne_zero ?_
          rintro rfl
          omega
        refine ⟨1, _, rfl, .inr ⟨Nat.one_ne_zero, ?_⟩⟩
        show u64 (buf + min (k.size - buf % k.size) (u32 len)) % k.size ≠ 0
        unfold u64
        rw [hmin, Nat.mod_mod_of_dvd _ k.size_dvd, ← Nat.mod_add_mod, Nat.mod_eq_of_lt (by omega)]
        omega

/-- The same of the list with the last `next` cleared. -/
theorem builtSgl_wrong (k : PageShift) (page : ℕ → ℕ) {n buf len : ℕ} (hlen : 2 ^ 32 ≤ len)
    (hroom : buf % k.size + len ≤ n * k.size) :
    ∃ j sg, (builtSgl k page n buf len)[j]? = some sg ∧ (sg.len = 0 ∨ j ≠ 0 ∧ sg.offset ≠ 0) := by
  obtain ⟨j, sg, hj, hbad⟩ := mapEntries_wrong k page (i := 0) hlen hroom
  unfold builtSgl
  by_cases hlast : n - 1 = j
  · refine ⟨j, { sg with next := none }, ?_, hbad⟩
    rw [List.getElem?_modify, hj, Option.map_eq_map, Option.map_some, if_pos hlast]
  · refine ⟨j, sg, ?_, hbad⟩
    rw [List.getElem?_modify, hj, Option.map_eq_map, Option.map_some, if_neg hlast]

/-! ## Mapping -/

/-- **What `map_user_buf_to_sgl` does when all pages are pinned.** -/
theorem mapUserBuf_pinned {k : PageShift} {s : IoCb} {e : PinEnv} {mem : ℕ → ℕ} (write : Bool)
    (hnr : userPagesNr k s.buf s.len ≠ 0) (hsg : e.sgMem = true) (hmem : e.pagesMem = some mem)
    (hpin : e.AllPinned (userPagesNr k s.buf s.len)) :
    mapUserBufToSgl k s e write =
      ({ s with
          pagesNr := userPagesNr k s.buf s.len
          sgl := some (builtSgl k (fun i => e.page i) (userPagesNr k s.buf s.len) s.buf s.len)
          pages := some (fun i => if i < userPagesNr k s.buf s.len then e.page i else mem i)
          log := s.log ++ [.kzallocSgl] ++ [.kmallocPages] ++
            (List.range (userPagesNr k s.buf s.len)).map (fun i => .pin (e.page i)) }, 0) := by
  obtain ⟨⟨m, hans, hle⟩, hne⟩ := hpin
  -- neither too few pages nor two that are equal
  have hmin : min m.val (userPagesNr k s.buf s.len) = userPagesNr k s.buf s.len :=
    min_eq_right hle
  have hdup : (List.range (userPagesNr k s.buf s.len - 1)).any
      (fun i => (e.page i : ℕ) = (e.page (i + 1) : ℕ)) = false := by
    rw [List.any_eq_false]
    rintro i hi heq
    have hin := List.mem_range.mp hi
    exact hne i (by omega) (PNat.coe_injective (of_decide_eq_true heq))
  unfold mapUserBufToSgl
  simp only
  rw [if_neg hnr, hsg, if_neg (show ¬ (!true) = true by decide), hmem, hans]
  simp only
  rw [hmin, if_neg (not_not.mpr rfl), hdup, if_neg Bool.false_ne_true]
  rfl

/-- Memory for the list and for the array of pages, and all pages are pinned. -/
structure PinEnv.Pins (e : PinEnv) (k : PageShift) (buf len : ℕ) : Prop where
  sgMem : e.sgMem = true
  pagesMem : e.pagesMem.isSome = true
  all : e.AllPinned (userPagesNr k buf len)

/-- The list that `map_user_buf_to_sgl` returns partitions the buffer. -/
def MapsRight (k : PageShift) (e : PinEnv) (write : Bool) (buf len : ℕ) : Prop :=
  ∃ l, (mapUserBufToSgl k { buf := buf, len := len } e write).2 = 0 ∧
    (mapUserBufToSgl k { buf := buf, len := len } e write).1.sgl = some l ∧
    Partitions k.size (fun i => e.page i) buf len l

/-- It returns a list with an entry for each page that is touched. -/
theorem PinEnv.Pins.mapsRight_iff {k : PageShift} {e : PinEnv} {buf len : ℕ}
    (h : e.Pins k buf len) (hnr : userPagesNr k buf len = touched k.size buf len) (write : Bool) :
    MapsRight k e write buf len ↔ Partitions k.size (fun i => e.page i) buf len
      (builtSgl k (fun i => e.page i) (touched k.size buf len) buf len) := by
  obtain ⟨mem, hmem⟩ := Option.isSome_iff_exists.mp h.pagesMem
  have hmap := mapUserBuf_pinned (s := { buf := buf, len := len }) write
    (ne_of_eq_of_ne hnr touched_pos.ne') h.sgMem hmem h.all
  unfold MapsRight
  rw [hmap]
  simp only [hnr]
  constructor
  · rintro ⟨l, -, hl, hpart⟩
    rw [Option.some.inj hl]
    exact hpart
  · intro hpart
    exact ⟨_, trivial, rfl, hpart⟩

/-- A list with a length of more than 32 bits partitions nothing. -/
theorem not_partitions (k : PageShift) (page : ℕ → ℕ) {buf len : ℕ} (hlen : 2 ^ 32 ≤ len) :
    ¬ Partitions k.size page buf len (builtSgl k page (touched k.size buf len) buf len) := by
  intro hpart
  have hpos : 0 < len := by omega
  obtain ⟨j, sg, hj, hbad⟩ :=
    builtSgl_wrong k page hlen (touched_spec buf k.size_pos hpos).2
  -- an entry is empty, or one behind the first has an offset
  rcases hbad with h0 | ⟨hj0, hoff⟩
  · exact absurd h0 (hpart.nonempty hpos sg (List.mem_of_getElem? hj)).ne'
  · exact hoff (hpart.offset j sg hj hj0)

/-- **When `map_user_buf_to_sgl` partitions the buffer**: where nothing wraps and all pages are
pinned, if and only if the length fits in 32 bits. -/
theorem map_partitions_iff (k : PageShift) (e : PinEnv) (write : Bool) {buf len : ℕ}
    (hwrap : buf + len + k.size < 2 ^ 64) (hpages : touched k.size buf len < 2 ^ 32)
    (hpins : e.Pins k buf len) : MapsRight k e write buf len ↔ len < 2 ^ 32 := by
  have hmod : buf % k.size ≤ buf := Nat.mod_le _ _
  rw [hpins.mapsRight_iff (userPagesNr_eq (by omega) hpages)]
  constructor
  · intro hpart
    by_contra hlen
    exact not_partitions k _ (not_lt.mp hlen) hpart
  · intro hlen
    exact builtSgl_partitions k _ buf hlen

/-- A kernel that pins as many pages as it is asked to. -/
def pinsAll : PinEnv := { answer := .pinned ⟨2 ^ 31 - 1, by decide⟩, page := Nat.succPNat }

theorem pinsAll_pins {k : PageShift} {buf len : ℕ} (h : userPagesNr k buf len < 2 ^ 31) :
    pinsAll.Pins k buf len := by
  refine ⟨rfl, rfl, ⟨_, rfl, Nat.le_sub_one_of_lt h⟩, fun i _ heq => ?_⟩
  exact absurd (Nat.succPNat_injective heq) (Nat.succ_ne_self i).symm

/-- 5000 bytes from the middle of a page on. -/
theorem map_partitions_5000 : MapsRight 12 pinsAll false 2148 5000 :=
  (map_partitions_iff 12 pinsAll false (by decide) (by decide) (pinsAll_pins (by decide))).mpr
    (by decide)

/-- **4 GiB from the start of a page on**: the low 32 bits of the length are 0, so the first of the
2^20 entries is empty. -/
theorem map_four_gib :
    pinsAll.Pins 12 (2 ^ 32) (2 ^ 32) ∧ touched (PageShift.size 12) (2 ^ 32) (2 ^ 32) = 2 ^ 20 ∧
      ((mapUserBufToSgl 12 { buf := 2 ^ 32, len := 2 ^ 32 } pinsAll false).1.sgl.bind
        (fun l => l[0]?)).map (fun sg => sg.len) = some 0 ∧
      ¬ MapsRight 12 pinsAll false (2 ^ 32) (2 ^ 32) := by
  have hnr : userPagesNr 12 (2 ^ 32) (2 ^ 32) = 2 ^ 20 := by decide
  have htouched : touched (PageShift.size 12) (2 ^ 32) (2 ^ 32) = 2 ^ 20 := by decide
  have hpins : pinsAll.Pins 12 (2 ^ 32) (2 ^ 32) := pinsAll_pins (by rw [hnr]; decide)
  refine ⟨hpins, htouched, ?_, ?_⟩
  · have hmap := mapUserBuf_pinned (s := { buf := 2 ^ 32, len := 2 ^ 32 }) false
      (by rw [hnr]; decide) rfl rfl hpins.all
    rw [hmap]
    simp only [hnr]
    unfold builtSgl
    rw [Option.bind_some, List.getElem?_modify, show 2 ^ 20 = 1048575 + 1 from rfl, mapEntries,
      List.getElem?_cons_zero]
    rfl
  · rw [hpins.mapsRight_iff (hnr.trans htouched.symm)]
    exact not_partitions 12 _ le_rfl

end Qdma
