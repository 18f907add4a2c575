/-
# Queue ranges of the functions

Every function of the card owns a range of hardware queues, programmed into its FMAP
register: a PF when its first queue is added, a VF when its PF handles its FMAP message.
The base of PF `i` is a fixed `i * QDMA_Q_PER_PF_MAX`, its size the QMAX register divided
by the number of PFs less the queues of its VFs; a VF's base lies behind its PF's range, at
a place given by its function id.  Both use the `qsets_max` of the PF at that moment, which
`qdma_set_qmax` may lower between one FMAP and the next.

The formulas agree only for some cards: `fmap_disjoint_iff` says exactly for which ones the
ranges are disjoint, on the card and within the register's fields, and
`two_pfs_share_queues` is a card with two PFs and no VF for which they are not.
-/
import Qdma.Types

namespace Qdma

/-! ## The register -/

/-- `QDMA_PF_MAX`. -/
def qdmaPfMax : ℕ := 4

/-- `QDMA_Q_PER_PF_MAX`. -/
def qdmaQPerPfMax : ℕ := 512

/-- `QDMA_Q_PER_VF_MAX`. -/
def qdmaQPerVfMax : ℕ := 8

/-- `SEL_FMAP_QID_BASE_MASK`. -/
def selFmapQidBaseMask : ℕ := 0x7FF

/-- `SEL_FMAP_QID_MAX_SHIFT`. -/
def selFmapQidMaxShift : ℕ := 11

/-- `SEL_FMAP_QID_MAX_MASK`. -/
def selFmapQidMaxMask : ℕ := 0xFFF

/-- A call of `hw_set_fmap`: the function and the queues it is to own. -/
structure Fmap where
  funcId : ℕ
  qbase : ℕ
  qmax : ℕ
  deriving DecidableEq

/-- What `hw_set_fmap` writes to the register of the function. -/
def hwSetFmap (m : Fmap) : ℕ := u32 (m.qbase ||| m.qmax <<< selFmapQidMaxShift)

/-- The base and the count fit their fields. -/
def Fmap.Fits (m : Fmap) : Prop := m.qbase ≤ selFmapQidBaseMask ∧ m.qmax ≤ selFmapQidMaxMask

/-- The device reads back what was meant. -/
theorem Fmap.Fits.decode {m : Fmap} (h : m.Fits) :
    hwSetFmap m &&& selFmapQidBaseMask = m.qbase ∧
      (hwSetFmap m >>> selFmapQidMaxShift) &&& selFmapQidMaxMask = m.qmax := by
  obtain ⟨hb, hq⟩ := h
  unfold selFmapQidBaseMask at hb
  unfold selFmapQidMaxMask at hq
  have hb' : m.qbase < 2 ^ 11 := by omega
  have hsum : hwSetFmap m = m.qmax * 2 ^ 11 + m.qbase := by
    unfold hwSetFmap selFmapQidMaxShift
    rw [Nat.or_comm, ← Nat.shiftLeft_add_eq_or_of_lt hb', Nat.shiftLeft_eq, u32_of_lt (by omega)]
  rw [hsum]
  constructor
  · show _ &&& (2 ^ 11 - 1) = _
    rw [Nat.and_two_pow_sub_one_eq_mod]
    omega
  · show (_ >>> 11) &&& (2 ^ 12 - 1) = _
    rw [Nat.and_two_pow_sub_one_eq_mod, Nat.shiftRight_eq_div_pow]
    omega

/-! ## The formulas -/

/-- `conf.qsets_max` as `qdma_device_attributes_get` sets it: `v1` is the QMAX register, `pfs`
the number of PFs and `vfs` the total of VFs of this PF. -/
def qdmaDeviceAttributesGet (v1 pfs vfs : ℕ) : ℕ :=
  let qsetsMax := u16 (v1 / pfs)
  if vfs * qdmaQPerVfMax > qsetsMax then 0 else qsetsMax - vfs * qdmaQPerVfMax

/-- `conf.qsets_max` after a call of `qdma_set_qmax` before the range is programmed. -/
def qdmaSetQmax (cur qsetsMax : ℕ) : ℕ := if qsetsMax ≥ cur then cur else qsetsMax

/-- `qdev->qbase` of a PF. -/
def pfQbase (funcId : ℕ) : ℕ := funcId * qdmaQPerPfMax

/-- The base a PF gives the VF `src` that asks with `qbase` in its FMAP message. -/
def vfQbase (qsetsBase qsetsMax src qbase : ℕ) : ℕ :=
  if qbase = 0 then u32 (qsetsBase + qsetsMax + u32Sub src qdmaPfMax * qdmaQPerVfMax) else qbase

/-! ## A card -/

/-- A function whose range is programmed: the PF that does it, the function's id, and how many
calls of `qdma_set_qmax` on that PF came before. -/
structure Func where
  pf : ℕ
  id : ℕ
  calls : ℕ
  deriving DecidableEq

/-- A card and what its functions ask for: the QMAX register, the number of PFs, for each PF its
total of VFs and the calls of `qdma_set_qmax`, and the PFs and the VFs with a range. -/
structure Card where
  qmaxReg : ℕ
  pfCount : ℕ
  totalVfs : ℕ → ℕ
  setQmax : ℕ → List ℕ
  pfs : List Func
  vfs : List Func

/-- `conf.qsets_max` of PF `i` as its device is opened. -/
def Card.qsetsOpen (c : Card) (i : ℕ) : ℕ :=
  qdmaDeviceAttributesGet c.qmaxReg c.pfCount (c.totalVfs i)

/-- `conf.qsets_max` of the PF when the range of `f` is programmed. -/
def Card.qsetsMax (c : Card) (f : Func) : ℕ :=
  ((c.setQmax f.pf).take f.calls).foldl qdmaSetQmax (c.qsetsOpen f.pf)

/-- What a PF programs for itself. -/
def Card.pfFmap (c : Card) (f : Func) : Fmap := ⟨f.id, pfQbase f.id, c.qsetsMax f⟩

/-- What its PF programs for the VF `v`, which sends `qbase` 0 and `QDMA_Q_PER_VF_MAX`. -/
def Card.vfFmap (c : Card) (v : Func) : Fmap :=
  ⟨v.id, vfQbase (pfQbase v.pf) (c.qsetsMax v) v.id 0, qdmaQPerVfMax⟩

/-- The calls of `hw_set_fmap` that stand. -/
def Card.fmaps (c : Card) : List Fmap := c.pfs.map c.pfFmap ++ c.vfs.map c.vfFmap

/-- A card as the code meets it: up to four PFs, opened with queues left (`qdma_device_init`
refuses a `qsets_max` of 0, and so does one that `qdma_set_qmax` lowers to 0: such a PF programs
no range of its own), and VFs with ids of their own from 4 up, no more than their PF's total. -/
structure Card.Valid (c : Card) : Prop where
  pf_pos : 1 ≤ c.pfCount
  pf_le : c.pfCount ≤ qdmaPfMax
  reg_lt : c.qmaxReg < 2 ^ 32
  opened : ∀ i < c.pfCount, 0 < c.qsetsOpen i
  pf_id : ∀ f ∈ c.pfs, f.id = f.pf ∧ f.pf < c.pfCount
  queues : ∀ f ∈ c.pfs, 0 < c.qsetsMax f
  vf_pf : ∀ v ∈ c.vfs, v.pf < c.pfCount
  vf_id : ∀ v ∈ c.vfs, qdmaPfMax ≤ v.id ∧ v.id < 256
  ids : ((c.pfs ++ c.vfs).map Func.id).Nodup
  total : ∀ i < c.pfCount, (c.vfs.filter (fun v => v.pf = i)).length ≤ c.totalVfs i

/-- Queue `q` belongs to the range. -/
def Fmap.Owns (m : Fmap) (q : ℕ) : Prop := m.qbase ≤ q ∧ q < m.qbase + m.qmax

/-- **The law of the ranges**: no queue belongs to two functions, all are on the card and the
register can hold them. -/
structure Card.Split (c : Card) : Prop where
  disjoint : ∀ m ∈ c.fmaps, ∀ m' ∈ c.fmaps, m.funcId ≠ m'.funcId →
    ∀ q, ¬ (m.Owns q ∧ m'.Owns q)
  inside : ∀ m ∈ c.fmaps, m.qbase + m.qmax ≤ c.qmaxReg
  fits : ∀ m ∈ c.fmaps, m.Fits

/-! ## When the law holds -/

/-- Where the queues of the VF `v` begin: behind as many queues as its PF has at that moment, by
its function id. -/
def Card.vfStart (c : Card) (v : Func) : ℕ := 512 * v.pf + c.qsetsMax v + (v.id - 4) * 8

/-- **The cards whose ranges come out right.**  A PF keeps to the 512 queues to the base of the
next, or ends before whichever later PF has a range; the eight queues of a VF miss those of
every PF, and those of every other VF; and everything ends on the card and within the
register. -/
structure Card.Roomy (c : Card) : Prop where
  pfPf : ∀ f ∈ c.pfs, ∀ g ∈ c.pfs, f.pf < g.pf → c.qsetsMax f ≤ 512 * (g.pf - f.pf)
  pfInside : ∀ f ∈ c.pfs, 512 * f.pf + c.qsetsMax f ≤ c.qmaxReg ∧ c.qsetsMax f ≤ 4095
  vfInside : ∀ v ∈ c.vfs, c.vfStart v + 8 ≤ min c.qmaxReg 2055
  vfPf : ∀ v ∈ c.vfs, ∀ f ∈ c.pfs,
    c.vfStart v + 8 ≤ 512 * f.pf ∨ 512 * f.pf + c.qsetsMax f ≤ c.vfStart v
  vfVf : ∀ v ∈ c.vfs, ∀ w ∈ c.vfs, v.id < w.id →
    c.vfStart v + 8 ≤ c.vfStart w ∨ c.vfStart w + 8 ≤ c.vfStart v

/-- Two ranges that are not empty share no queue if one ends before the other begins. -/
theorem disjoint_iff {m m' : Fmap} (h : 0 < m.qmax) (h' : 0 < m'.qmax) :
    (∀ q, ¬ (m.Owns q ∧ m'.Owns q)) ↔
      m.qbase + m.qmax ≤ m'.qbase ∨ m'.qbase + m'.qmax ≤ m.qbase := by
  unfold Fmap.Owns
  constructor
  · intro hno
    by_contra hover
    apply hno (max m.qbase m'.qbase)
    omega
  · rintro hapart q ⟨_, _⟩
    omega

theorem Card.mem_fmaps {c : Card} {m : Fmap} :
    m ∈ c.fmaps ↔ (∃ f ∈ c.pfs, c.pfFmap f = m) ∨ ∃ v ∈ c.vfs, c.vfFmap v = m := by
  unfold Card.fmaps
  rw [List.mem_append, List.mem_map, List.mem_map]

/-- A call of `qdma_set_qmax` never raises `qsets_max`. -/
theorem qdmaSetQmax_le (cur q : ℕ) : qdmaSetQmax cur q ≤ cur := by
  unfold qdmaSetQmax
  split_ifs <;> omega

/-- Nor do any number of them. -/
theorem foldl_qdmaSetQmax_le (qs : List ℕ) (cur : ℕ) : qs.foldl qdmaSetQmax cur ≤ cur := by
  induction qs generalizing cur with
  | nil => exact le_refl cur
  | cons q qs ih =>
      rw [List.foldl_cons]
      exact (ih _).trans (qdmaSetQmax_le cur q)

/-- Lowering leaves `qsets_max` an `unsigned short`. -/
theorem Card.qsetsMax_lt (c : Card) (f : Func) : c.qsetsMax f < 2 ^ 16 := by
  apply (foldl_qdmaSetQmax_le _ _).trans_lt
  have hu : u16 (c.qmaxReg / c.pfCount) < 2 ^ 16 := Nat.mod_lt _ (by decide)
  unfold Card.qsetsOpen qdmaDeviceAttributesGet
  simp only
  split_ifs <;> omega

/-- The base of a VF's range. -/
theorem Card.Valid.vfFmap_qbase {c : Card} (h : c.Valid) {v : Func} (hv : v ∈ c.vfs) :
    (c.vfFmap v).qbase = c.vfStart v := by
  have hpf := h.vf_pf v hv
  have hpfs := h.pf_le
  obtain ⟨hid, hid'⟩ := h.vf_id v hv
  have hq := c.qsetsMax_lt v
  unfold qdmaPfMax at hid hpfs
  have hsub : u32Sub v.id qdmaPfMax = v.id - 4 := u32Sub_of_le (by omega) hid
  show u32 (v.pf * 512 + c.qsetsMax v + u32Sub v.id qdmaPfMax * 8) = _
  rw [hsub, u32_of_lt (by omega)]
  unfold Card.vfStart
  omega

theorem Card.vfFmap_pos (c : Card) (v : Func) : 0 < (c.vfFmap v).qmax := show 0 < 8 by decide

/-- The base of a PF's range. -/
theorem Card.Valid.pfFmap_qbase {c : Card} (h : c.Valid) {f : Func} (hf : f ∈ c.pfs) :
    (c.pfFmap f).qbase = 512 * f.pf := by
  show f.id * 512 = _
  rw [(h.pf_id f hf).1, Nat.mul_comm]

/-- The ranges of two PFs are apart as soon as the first ends before the base of the second. -/
theorem Card.Valid.pf_pf_iff {c : Card} (h : c.Valid) {f g : Func} (hf : f ∈ c.pfs)
    (hg : g ∈ c.pfs) (hlt : f.pf < g.pf) :
    (∀ q, ¬ ((c.pfFmap f).Owns q ∧ (c.pfFmap g).Owns q)) ↔
      c.qsetsMax f ≤ 512 * (g.pf - f.pf) := by
  have hqg := h.queues g hg
  rw [disjoint_iff (h.queues f hf) hqg, h.pfFmap_qbase hf, h.pfFmap_qbase hg]
  show _ + c.qsetsMax f ≤ _ ∨ _ + c.qsetsMax g ≤ _ ↔ _
  omega

/-- A VF and a PF. -/
theorem Card.Valid.vf_pf_iff {c : Card} (h : c.Valid) {v f : Func} (hv : v ∈ c.vfs)
    (hf : f ∈ c.pfs) :
    (∀ q, ¬ ((c.vfFmap v).Owns q ∧ (c.pfFmap f).Owns q)) ↔
      c.vfStart v + 8 ≤ 512 * f.pf ∨ 512 * f.pf + c.qsetsMax f ≤ c.vfStart v := by
  rw [disjoint_iff (c.vfFmap_pos v) (h.queues f hf), h.vfFmap_qbase hv, h.pfFmap_qbase hf]
  rfl

/-- Two VFs. -/
theorem Card.Valid.vf_vf_iff {c : Card} (h : c.Valid) {v w : Func} (hv : v ∈ c.vfs)
    (hw : w ∈ c.vfs) :
    (∀ q, ¬ ((c.vfFmap v).Owns q ∧ (c.vfFmap w).Owns q)) ↔
      c.vfStart v + 8 ≤ c.vfStart w ∨ c.vfStart w + 8 ≤ c.vfStart v := by
  rw [disjoint_iff (c.vfFmap_pos v) (c.vfFmap_pos w), h.vfFmap_qbase hv, h.vfFmap_qbase hw]
  rfl

/-- What the law asks for is the condition. -/
theorem Card.Split.roomy {c : Card} (h : c.Valid) (hs : c.Split) : c.Roomy := by
  have hpf : ∀ f ∈ c.pfs, c.pfFmap f ∈ c.fmaps := fun f hf => Card.mem_fmaps.mpr (.inl ⟨f, hf, rfl⟩)
  have hvf : ∀ v ∈ c.vfs, c.vfFmap v ∈ c.fmaps := fun v hv => Card.mem_fmaps.mpr (.inr ⟨v, hv, rfl⟩)
  constructor
  · intro f hf g hg hlt
    have hid := (h.pf_id f hf).1
    have hid' := (h.pf_id g hg).1
    apply (h.pf_pf_iff hf hg hlt).mp
    exact hs.disjoint _ (hpf f hf) _ (hpf g hg) (show f.id ≠ g.id by omega)
  · intro f hf
    have hin := hs.inside _ (hpf f hf)
    rw [h.pfFmap_qbase hf] at hin
    exact ⟨hin, (hs.fits _ (hpf f hf)).2⟩
  · intro v hv
    have hin := hs.inside _ (hvf v hv)
    have hfit : (c.vfFmap v).qbase ≤ 2047 := (hs.fits _ (hvf v hv)).1
    rw [h.vfFmap_qbase hv] at hin hfit
    change _ + 8 ≤ _ at hin
    omega
  · intro v hv f hf
    obtain ⟨hid, hlt⟩ := h.pf_id f hf
    have hid' := (h.vf_id v hv).1
    have hle := h.pf_le
    apply (h.vf_pf_iff hv hf).mp
    exact hs.disjoint _ (hvf v hv) _ (hpf f hf) (show v.id ≠ f.id by omega)
  · intro v hv w hw hlt
    apply (h.vf_vf_iff hv hw).mp
    exact hs.disjoint _ (hvf v hv) _ (hvf w hw) (show v.id ≠ w.id by omega)

/-- No queue belongs to two functions. -/
theorem Card.Roomy.disjoint {c : Card} (h : c.Valid) (hr : c.Roomy) {m m' : Fmap}
    (hm : m ∈ c.fmaps) (hm' : m' ∈ c.fmaps) (hne : m.funcId ≠ m'.funcId) (q : ℕ) :
    ¬ (m.Owns q ∧ m'.Owns q) := by
  -- by the kind of each, and two of a kind by the order of their ids
  rcases Card.mem_fmaps.mp hm with ⟨f, hf, rfl⟩ | ⟨v, hv, rfl⟩ <;>
    rcases Card.mem_fmaps.mp hm' with ⟨g, hg, rfl⟩ | ⟨w, hw, rfl⟩
  · have hne' : f.id ≠ g.id := hne
    rw [(h.pf_id f hf).1, (h.pf_id g hg).1] at hne'
    rcases Nat.lt_or_gt_of_ne hne' with hlt | hlt
    · exact (h.pf_pf_iff hf hg hlt).mpr (hr.pfPf f hf g hg hlt) q
    · rw [and_comm]
      exact (h.pf_pf_iff hg hf hlt).mpr (hr.pfPf g hg f hf hlt) q
  · rw [and_comm]
    exact (h.vf_pf_iff hw hf).mpr (hr.vfPf w hw f hf) q
  · exact (h.vf_pf_iff hv hg).mpr (hr.vfPf v hv g hg) q
  · have hne' : v.id ≠ w.id := hne
    rcases Nat.lt_or_gt_of_ne hne' with hlt | hlt
    · exact (h.vf_vf_iff hv hw).mpr (hr.vfVf v hv w hw hlt) q
    · rw [and_comm]
      exact (h.vf_vf_iff hw hv).mpr (hr.vfVf w hw v hv hlt) q

/-- The condition gives the law. -/
theorem Card.Roomy.split {c : Card} (h : c.Valid) (hr : c.Roomy) : c.Split := by
  have hle := h.pf_le
  unfold qdmaPfMax at hle
  constructor
  · intro m hm m' hm' hne q
    exact hr.disjoint h hm hm' hne q
  · intro m hm
    rcases Card.mem_fmaps.mp hm with ⟨f, hf, rfl⟩ | ⟨v, hv, rfl⟩
    · rw [h.pfFmap_qbase hf]
      exact (hr.pfInside f hf).1
    · have hin := hr.vfInside v hv
      rw [h.vfFmap_qbase hv]
      show _ + 8 ≤ _
      omega
  · intro m hm
    unfold Fmap.Fits selFmapQidBaseMask selFmapQidMaxMask
    rcases Card.mem_fmaps.mp hm with ⟨f, hf, rfl⟩ | ⟨v, hv, rfl⟩
    · have hlt := (h.pf_id f hf).2
      rw [h.pfFmap_qbase hf]
      exact ⟨by omega, (hr.pfInside f hf).2⟩
    · have hin := hr.vfInside v hv
      rw [h.vfFmap_qbase hv]
      refine ⟨by omega, ?_⟩
      show 8 ≤ 0xFFF
      omega

/-- **Which cards have their queues split.** -/
theorem fmap_disjoint_iff {c : Card} (h : c.Valid) : c.Split ↔ c.Roomy :=
  ⟨fun hs => hs.roomy h, fun hr => hr.split h⟩

/-- Four PFs with 512 queues each, of which the first gives up sixteen for its VFs and is lowered
to 488 between the FMAP of VF 5 and the one of VF 4. -/
def roomyCard : Card where
  qmaxReg := 2048
  pfCount := 4
  totalVfs := fun i => if i = 0 then 2 else 0
  setQmax := fun i => if i = 0 then [488] else []
  pfs := [⟨0, 0, 1⟩, ⟨1, 1, 0⟩, ⟨2, 2, 0⟩, ⟨3, 3, 0⟩]
  vfs := [⟨0, 5, 0⟩, ⟨0, 4, 1⟩]

/-- Its ranges come out right: VF 4 lies right behind its PF, and VF 5 behind the queues that VF 4
leaves free. -/
theorem fmap_split_roomyCard : roomyCard.Split := by
  apply (fmap_disjoint_iff ⟨by decide, by decide, by decide, by decide, by decide, by decide,
    by decide, by decide, by decide, by decide⟩).mpr
  exact ⟨by decide, by decide, by decide, by decide, by decide⟩

/-- **Two PFs with the same queues.**  A card with 2048 queues, two PFs and no VF gives each
PF 1024 of them, the second from 512 on. -/
theorem two_pfs_share_queues : ∃ c : Card, c.Valid ∧ ¬ c.Split := by
  refine ⟨⟨2048, 2, fun _ => 0, fun _ => [], [⟨0, 0, 0⟩, ⟨1, 1, 0⟩], []⟩, ⟨by decide, by decide,
    by decide, by decide, by decide, by decide, by decide, by decide, by decide, by decide⟩, ?_⟩
  intro hs
  apply hs.disjoint ⟨0, 0, 1024⟩ (by decide) ⟨1, 512, 1024⟩ (by decide) (by decide) 512
  unfold Fmap.Owns
  decide

/-- Two VFs of one PF with the same queues: PF 0 is lowered to 488 after the FMAP of VF 4, and
the range of VF 5 falls back on the one VF 4 has. -/
example : ({ roomyCard with vfs := [⟨0, 4, 0⟩, ⟨0, 5, 1⟩] } : Card).fmaps.drop 4 =
    [⟨4, 496, 8⟩, ⟨5, 496, 8⟩] := by decide

end Qdma
