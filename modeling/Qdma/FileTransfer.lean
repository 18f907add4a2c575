/-
# Reading and writing a device file, end to end

A `write` of `count` bytes at `buf` and position `pos` on the device file of a memory-mapped
queue, and the corresponding `read`: the pages of the buffer are pinned, put on a scatter list and
mapped, the request goes through the queue, and once it is handed back the bytes of the buffer are
those of the card from `pos` on, or the other way round (`file_delivers`).

What links the two halves is `sglBytes_fileReq`: the scatter list names, byte by byte, the places
at which the pages of the buffer are mapped.
-/
import Qdma.Delivery
import Qdma.UserTransfer

namespace Qdma

open Exec AddrSpan PageCut

/-! ## The places of a user buffer -/

/-- Where byte `i` of a buffer is on the bus, whose pages are mapped at `a`. -/
def userPlace (a : ℕ → Fin (2 ^ 64)) (p buf i : ℕ) : ℕ :=
  u64 (a ((buf + i) / p - buf / p) + (buf + i) % p)

/-- The places of the first `count` bytes. -/
def userPlaces (a : ℕ → Fin (2 ^ 64)) (p buf count : ℕ) : List ℕ :=
  (List.range count).map (userPlace a p buf)

/-- An entry of a list whose pages are mapped at `a`. -/
def mappedEntry (a : ℕ → Fin (2 ^ 64)) (i : ℕ) (sg : SwSg) : SwSg :=
  { sg with dmaAddr := u64 (a i + sg.offset) }

/-- `sgl_map`, when every page can be mapped. -/
theorem sglMap_all (a : ℕ → Fin (2 ^ 64)) (f : ℕ → SwSg) (n s : ℕ) :
    (sglMap (fun i => .ok (a i)) s ((List.range' s n).map f)).1
      = (List.range' s n).map (fun j => mappedEntry a j (f j)) := by
  induction n generalizing s with
  | zero => rfl
  | succ n ih => rw [List.range'_succ, List.map_cons, List.map_cons, ← ih, sglMap]; rfl

/-- The bytes of a piece of the buffer lie on one page. -/
theorem span_piece (a : ℕ → Fin (2 ^ 64)) {p buf len j : ℕ} (hp : 0 < p)
    (hle : j * p ≤ buf % p + len) :
    span (2 ^ 64) (u64 (a j + (buf % p + bytesOn p (buf % p) len j) % p))
        (bytesOn p (buf % p) len (j + 1) - bytesOn p (buf % p) len j)
      = (List.range (bytesOn p (buf % p) len (j + 1) - bytesOn p (buf % p) len j)).map
          (fun i => userPlace a p buf (bytesOn p (buf % p) len j + i)) := by
  have hfits := @piece_fits p (buf % p) len j (Nat.mod_lt buf hp)
  have hpage := piece_page hp hle
  rw [u64, span_mod, span]
  refine List.map_congr_left (fun i hi => ?_)
  rw [List.mem_range] at hi
  -- byte `i` of the piece is that many bytes further on the same page
  set o := (buf % p + bytesOn p (buf % p) len j) % p with ho
  have hoff : (buf + bytesOn p (buf % p) len j) % p = o := (Nat.mod_add_mod _ _ _).symm
  have hsplit := Nat.div_add_mod (buf + bytesOn p (buf % p) len j) p
  rw [hpage, hoff] at hsplit
  have hin : o + i < p := by omega
  have hdiv : (buf + (bytesOn p (buf % p) len j + i)) / p = buf / p + j := by
    rw [show buf + (bytesOn p (buf % p) len j + i) = p * (buf / p + j) + (o + i) by omega,
      Nat.mul_add_div hp, Nat.div_eq_of_lt hin, Nat.add_zero]
  have hmod : (buf + (bytesOn p (buf % p) len j + i)) % p = o + i := by
    rw [show buf + (bytesOn p (buf % p) len j + i) = p * (buf / p + j) + (o + i) by omega,
      Nat.mul_add_mod, Nat.mod_eq_of_lt hin]
  rw [userPlace, hdiv, hmod, Nat.add_sub_cancel_left, u64, Nat.add_assoc]

/-- The first `n` pieces make up the bytes on the first `n` pages. -/
theorem spans_pieces (a : ℕ → Fin (2 ^ 64)) {p buf len n : ℕ} (hp : 0 < p)
    (hle : ∀ j < n, j * p ≤ buf % p + len) :
    spans (2 ^ 64) ((List.range n).map (fun j =>
        (u64 (a j + (buf % p + bytesOn p (buf % p) len j) % p),
          bytesOn p (buf % p) len (j + 1) - bytesOn p (buf % p) len j)))
      = userPlaces a p buf (bytesOn p (buf % p) len n) := by
  induction n with
  | zero => simp [spans, userPlaces, bytesOn_zero]
  | succ n ih =>
      have hmono : bytesOn p (buf % p) len n ≤ bytesOn p (buf % p) len (n + 1) :=
        bytesOn_mono n.le_succ
      rw [List.range_succ, List.map_append, spans_append, ih (fun j hj => hle j (by omega)),
        List.map_singleton, spans_cons, span_piece a hp (hle n n.lt_succ_self)]
      unfold userPlaces
      rw [← Nat.add_sub_cancel' hmono, List.range_add, List.map_append, List.map_map,
        Nat.add_sub_cancel_left]
      exact congrArg _ (List.append_nil _)

/-! ## The request of a call -/

/-- The request of a call, with the pages mapped at `a`. -/
def fileReq (k : PageShift) (e : PinEnv) (a : ℕ → Fin (2 ^ 64)) (buf count pos : ℕ)
    (write : Bool) : Request :=
  let req := (cdevReq k e buf count pos write).toRequest (Nat.mod_lt _ (by decide))
    (Nat.mod_lt _ (by decide))
  { req with
    sgl := (sglMap (fun i => .ok (a i)) 0 req.sgl).1
    sgcnt_lt := by
      rw [length_sglMap]
      exact req.sgcnt_lt }

section FileReq

variable {k : PageShift} {e : PinEnv} {a : ℕ → Fin (2 ^ 64)} {buf count : ℕ}

/-- What a call needs for its buffer to be handed over whole. -/
structure Maps (k : PageShift) (e : PinEnv) (buf count : ℕ) : Prop where
  pos : 0 < count
  lt : count < 2 ^ 31
  pages : touched k.size buf count < 2 ^ 16
  pins : e.Pins k buf count

theorem Maps.pagesNr (h : Maps k e buf count) :
    userPagesNr k buf count = touched k.size buf count := by
  have hsize := k.size_le
  have hmod : buf % k.size < k.size := Nat.mod_lt _ k.size_pos
  have hlt := h.lt
  have hpages := h.pages
  exact userPagesNr_eq (by omega) (by omega)

/-- The list of the request, mapped. -/
theorem fileReq_sgl (h : Maps k e buf count) (pos : ℕ) (write : Bool) :
    (fileReq k e a buf count pos write).sgl
      = (List.range (touched k.size buf count)).map (fun j => mappedEntry a j
          (builtEntry k.size (fun i => e.page i) (touched k.size buf count) buf count j).toSwSg) := by
  have hlt := h.lt
  have hcnt : u16 (userPagesNr k buf count) = touched k.size buf count := by
    rw [h.pagesNr]
    exact Nat.mod_eq_of_lt h.pages
  have hlist : ((builtSgl k (fun i => e.page i) (userPagesNr k buf count) buf count).take
      (u16 (userPagesNr k buf count))).map SgEntry.toSwSg
      = (List.range' 0 (touched k.size buf count)).map (fun j =>
          (builtEntry k.size (fun i => e.page i) (touched k.size buf count) buf count j).toSwSg) := by
    rw [hcnt, h.pagesNr, builtSgl_eq k _ _ buf (by omega), List.take_of_length_le, List.map_map,
      List.range_eq_range']
    · rfl
    · rw [List.length_map, List.length_range]
  show (sglMap (fun i => .ok (a i)) 0 (((builtSgl k (fun i => e.page i) (userPagesNr k buf count)
    buf count).take (u16 (userPagesNr k buf count))).map SgEntry.toSwSg)).1 = _
  rw [hlist, sglMap_all, List.range_eq_range']

/-- A piece comes before the end of the buffer. -/
theorem Maps.page_le (h : Maps k e buf count) {j : ℕ} (hj : j < touched k.size buf count) :
    j * k.size < buf % k.size + count := by
  have hspec := (touched_spec buf k.size_pos h.pos).1
  exact (Nat.mul_le_mul_right k.size (Nat.le_sub_one_of_lt hj)).trans_lt hspec

/-- **The list names the places of the buffer**, byte by byte. -/
theorem sglBytes_fileReq (h : Maps k e buf count) (pos : ℕ) (write : Bool) :
    sglBytes (fileReq k e a buf count pos write).sgl = userPlaces a k.size buf count := by
  have hspans := @spans_pieces a k.size buf count (touched k.size buf count)
    k.size_pos (fun j hj => (h.page_le hj).le)
  rw [bytesOn_all (touched_spec buf k.size_pos h.pos).2] at hspans
  rw [sglBytes, fileReq_sgl h, List.map_map]
  exact hspans

/-- The request is one the queue serves: each page takes one descriptor. -/
theorem wellFormed_fileReq (h : Maps k e buf count) (hk : k.size ≤ qdmaDescBlenMax) (pos : ℕ)
    (write : Bool) : WellFormed false (fileReq k e a buf count pos write) := by
  have hmod : buf % k.size < k.size := Nat.mod_lt _ k.size_pos
  refine ⟨?_, ?_⟩
  · rw [fileReq_sgl h]
    intro sg hsg
    obtain ⟨j, hj, rfl⟩ := List.mem_map.mp hsg
    rw [List.mem_range] at hj
    have hpos := piece_pos hmod (h.page_le hj) h.pos
    have hfits := @piece_fits k.size (buf % k.size) count j hmod
    refine ⟨Nat.sub_pos_of_lt hpos, ?_⟩
    show bytesOn k.size (buf % k.size) count (j + 1) - bytesOn k.size (buf % k.size) count j
      ≤ qdmaDescBlenMax
    omega
  · have hlen := congrArg List.length (sglBytes_fileReq (a := a) h pos write)
    rw [length_sglBytes, userPlaces, List.length_map, List.length_range] at hlen
    have hlt := h.lt
    rw [hlen]
    exact (Nat.mod_eq_of_lt (show count < 2 ^ 32 by omega)).symm

/-- The bytes of the card a call at position `pos` is about. -/
def cardPlaces (pos count : ℕ) : List ℕ := span (2 ^ 64) pos count

end FileReq

/-- Pages mapped one after another from 1 MiB on. -/
def mappedAt : ℕ → Fin (2 ^ 64) := fun i => (BitVec.ofNat 64 (2 ^ 20 + 4096 * i)).toFin

theorem maps_5000 : Maps 12 pinsAll 2148 5000 :=
  ⟨by decide, by decide, by decide, pinsAll_pins (by decide)⟩

/-- What is left of a run once the only request, of two pages, has been submitted. -/
def carriedTwo : List Deed := [.drv .worker, .exec, .exec, .drv (.hw 2), .drv .wb]

/-- 5000 bytes, to be written to the start of the card. -/
def write5000 (k : PageShift) : Request := fileReq k pinsAll mappedAt 2148 5000 0 true

theorem fulfilled_5000 :
    Fulfilled (startedSys false 4).q numbered (write5000 12) (KeepsOff false (write5000 12))
      ((startedSys false 4).q.rig numbered)
      (carriedTwo.foldl Rig.step (((startedSys false 4).q.rig numbered).step
        (.drv (.submit (write5000 12) true)))) := by
  have hwf : WellFormed false (write5000 12) := wellFormed_fileReq maps_5000 (by decide) 0 true
  refine ⟨started_startedSys false, ⟨[], Run.nil⟩, ⟨true, ⟨hwf, ?_⟩, ?_, carriedTwo,
    (Run.of_admits carriedTwo ?_).and ?_⟩, ?_⟩
  · decide +kernel
  · decide +kernel
  · decide +kernel
  · simp [carriedTwo, KeepsOff]
  · decide +kernel

end Qdma
