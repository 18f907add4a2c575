/-
# Books over the requests of a queue

`Balanced cb n` is to say that the control block `cb` agrees with `n` bytes moved for its
request.  `Books` says that every open block agrees, and that every request handed back is
whole; `Moves` is what the steps of a queue may do to its blocks, so that the books stay
right (`Books.moves`).  Such moves compose (`Moves.trans`).

`DeskInv` extends the books to the calls that have returned, those asleep, and the requests
accepted.
-/
import Qdma.Desk

namespace Qdma

/-! ## Blocks and bytes -/

section Books

variable {Balanced : SgtReqCb → ℕ → Prop}

/-- Block `b` has become `c`, and as many bytes were moved for it as it says. -/
structure Follows (Balanced : SgtReqCb → ℕ → Prop) (sent sent' : ℕ → ℕ) (b c : SgtReqCb) :
    Prop where
  id : c.id = b.id
  req : c.req = b.req
  balanced : Balanced b (sent b.id) → Balanced c (sent' b.id)

theorem Follows.trans {sent sent' sent'' : ℕ → ℕ} {a b c : SgtReqCb}
    (h : Follows Balanced sent sent' a b) (h' : Follows Balanced sent' sent'' b c) :
    Follows Balanced sent sent'' a c := by
  refine ⟨h'.id.trans h.id, h'.req.trans h.req, fun hbal => ?_⟩
  rw [← h.id]
  apply h'.balanced
  rw [h.id]
  exact h.balanced hbal

/-- A block for which nothing was moved. -/
theorem Follows.idle {sent sent' : ℕ → ℕ} (b : SgtReqCb) (h : sent' b.id = sent b.id) :
    Follows Balanced sent sent' b b :=
  ⟨rfl, rfl, fun hbal => by rwa [h]⟩

/-- A request handed back as a success, with all its bytes. -/
structure HandedBack (Balanced : SgtReqCb → ℕ → Prop) (cb : SgtReqCb) : Prop where
  status : cb.status = 0
  whole : ∀ n, Balanced cb n → n = cb.req.count

/-- What a step does to the open blocks and the requests handed back. -/
structure Moves (Balanced : SgtReqCb → ℕ → Prop) (sent sent' : ℕ → ℕ)
    (opn opn' : List SgtReqCb) (fin fin' : List Done) : Prop where
  opened : ∀ c ∈ opn', ∃ b ∈ opn, Follows Balanced sent sent' b c
  closed : ∀ f ∈ fin', f ∈ fin ∨ (∃ b ∈ opn, Follows Balanced sent sent' b f.cb) ∧
    HandedBack Balanced f.cb ∧ f.cb.id ∉ opn'.map SgtReqCb.id
  kept : ∀ b ∈ opn, b.id ∈ opn'.map SgtReqCb.id ∨ b.id ∈ fin'.map (fun f => f.cb.id)
  stays : ∀ f ∈ fin, f ∈ fin'
  idle : ∀ i, i ∉ opn.map SgtReqCb.id → sent' i = sent i

theorem Moves.refl {sent : ℕ → ℕ} (opn : List SgtReqCb) (fin : List Done) :
    Moves Balanced sent sent opn opn fin fin :=
  ⟨fun c hc => ⟨c, hc, .idle c rfl⟩, fun _ hf => .inl hf,
    fun _ hb => .inl (List.mem_map_of_mem hb), fun _ hf => hf, fun _ _ => rfl⟩

/-- No block is new. -/
theorem Moves.ids {sent sent' : ℕ → ℕ} {opn opn' : List SgtReqCb} {fin fin' : List Done}
    (h : Moves Balanced sent sent' opn opn' fin fin') {i : ℕ} (hi : i ∈ opn'.map SgtReqCb.id) :
    i ∈ opn.map SgtReqCb.id := by
  obtain ⟨c, hc, rfl⟩ := List.mem_map.mp hi
  obtain ⟨b, hb, hfol⟩ := h.opened c hc
  rw [hfol.id]
  exact List.mem_map_of_mem hb

/-- **Moves compose.** -/
theorem Moves.trans {sent sent' sent'' : ℕ → ℕ} {opn opn' opn'' : List SgtReqCb}
    {fin fin' fin'' : List Done} (h : Moves Balanced sent sent' opn opn' fin fin')
    (h' : Moves Balanced sent' sent'' opn' opn'' fin' fin'') :
    Moves Balanced sent sent'' opn opn'' fin fin'' := by
  constructor
  · intro c hc
    obtain ⟨b, hb, hfol'⟩ := h'.opened c hc
    obtain ⟨a, ha, hfol⟩ := h.opened b hb
    exact ⟨a, ha, hfol.trans hfol'⟩
  · intro f hf
    rcases h'.closed f hf with hf | ⟨⟨b, hb, hfol'⟩, hback, hgone⟩
    · rcases h.closed f hf with hf | ⟨⟨a, ha, hfol⟩, hback, hgone⟩
      · exact .inl hf
      · -- what was handed back before gets nothing any more
        refine .inr ⟨⟨a, ha, hfol.trans (.idle f.cb (h'.idle _ hgone))⟩, hback, ?_⟩
        exact fun hin => hgone (h'.ids hin)
    · obtain ⟨a, ha, hfol⟩ := h.opened b hb
      exact .inr ⟨⟨a, ha, hfol.trans hfol'⟩, hback, hgone⟩
  · intro b hb
    rcases h.kept b hb with hin | hin
    · obtain ⟨c, hc, hid⟩ := List.mem_map.mp hin
      rw [← hid]
      exact h'.kept c hc
    · obtain ⟨f, hf, hid⟩ := List.mem_map.mp hin
      exact .inr (List.mem_map.mpr ⟨f, h'.stays f hf, hid⟩)
  · exact fun f hf => h'.stays f (h.stays f hf)
  · exact fun i hi => (h'.idle i (fun hin => hi (h.ids hin))).trans (h.idle i hi)

/-- Blocks beside those that move. -/
theorem Moves.frame {sent sent' : ℕ → ℕ} {opn opn' : List SgtReqCb} {fin fin' : List Done}
    (h : Moves Balanced sent sent' opn opn' fin fin') (others : List SgtReqCb)
    (hapart : ∀ c ∈ others, c.id ∉ opn.map SgtReqCb.id) :
    Moves Balanced sent sent' (others ++ opn) (others ++ opn') fin fin' := by
  have hidle : ∀ c ∈ others, sent' c.id = sent c.id := fun c hc => h.idle _ (hapart c hc)
  constructor
  · intro c hc
    rcases List.mem_append.mp hc with hc | hc
    · exact ⟨c, List.mem_append_left _ hc, .idle c (hidle c hc)⟩
    · obtain ⟨b, hb, hfol⟩ := h.opened c hc
      exact ⟨b, List.mem_append_right _ hb, hfol⟩
  · intro f hf
    rcases h.closed f hf with hf | ⟨⟨b, hb, hfol⟩, hback, hgone⟩
    · exact .inl hf
    · refine .inr ⟨⟨b, List.mem_append_right _ hb, hfol⟩, hback, ?_⟩
      rw [List.map_append, List.mem_append]
      rintro (hin | hin)
      · obtain ⟨c, hc, hid⟩ := List.mem_map.mp hin
        apply hapart c hc
        rw [hid, hfol.id]
        exact List.mem_map_of_mem hb
      · exact hgone hin
  · intro b hb
    rw [List.map_append, List.mem_append]
    rcases List.mem_append.mp hb with hb | hb
    · exact .inl (.inl (List.mem_map_of_mem hb))
    · exact (h.kept b hb).imp_left .inr
  · exact h.stays
  · intro i hi
    apply h.idle
    rw [List.map_append, List.mem_append, not_or] at hi
    exact hi.2

/-- One block gets on. -/
theorem Moves.replace {sent sent' : ℕ → ℕ} {opn opn' : List SgtReqCb} {fin : List Done}
    {b c : SgtReqCb} (hb : b ∈ opn) (hfol : Follows Balanced sent sent' b c)
    (hsent : ∀ i ≠ b.id, sent' i = sent i)
    (hopn' : ∀ a ∈ opn', a = c ∨ a ∈ opn ∧ a.id ≠ b.id)
    (hopn : ∀ a ∈ opn, a.id ∈ opn'.map SgtReqCb.id) :
    Moves Balanced sent sent' opn opn' fin fin := by
  constructor
  · intro a ha
    rcases hopn' a ha with rfl | ⟨ha, hne⟩
    · exact ⟨b, hb, hfol⟩
    · exact ⟨a, ha, .idle a (hsent a.id hne)⟩
  · exact fun f hf => .inl hf
  · exact fun a ha => .inl (hopn a ha)
  · exact fun f hf => hf
  · intro i hi
    apply hsent
    rintro rfl
    exact hi (List.mem_map_of_mem hb)

/-- One request is handed back. -/
theorem Moves.close {sent sent' : ℕ → ℕ} {opn opn' : List SgtReqCb} {fin : List Done}
    {b : SgtReqCb} {f : Done} (hb : b ∈ opn) (hfol : Follows Balanced sent sent' b f.cb)
    (hback : HandedBack Balanced f.cb) (hsent : ∀ i ≠ b.id, sent' i = sent i)
    (hopn' : ∀ a ∈ opn', a ∈ opn ∧ a.id ≠ b.id)
    (hopn : ∀ a ∈ opn, a.id = b.id ∨ a ∈ opn') :
    Moves Balanced sent sent' opn opn' fin (fin ++ [f]) := by
  have hgone : b.id ∉ opn'.map SgtReqCb.id := by
    intro hin
    obtain ⟨a, ha, hid⟩ := List.mem_map.mp hin
    exact (hopn' a ha).2 hid
  constructor
  · intro a ha
    obtain ⟨ha, hne⟩ := hopn' a ha
    exact ⟨a, ha, .idle a (hsent a.id hne)⟩
  · intro g hg
    refine (List.mem_append.mp hg).imp_right (fun hg => ?_)
    rw [List.mem_singleton.mp hg]
    exact ⟨⟨b, hb, hfol⟩, hback, hfol.id ▸ hgone⟩
  · intro a ha
    rcases hopn a ha with hid | ha
    · refine .inr (List.mem_map.mpr ⟨f, ?_, hfol.id.trans hid.symm⟩)
      exact List.mem_append_right _ (List.mem_singleton.mpr rfl)
    · exact .inl (List.mem_map_of_mem ha)
  · exact fun g hg => List.mem_append_left _ hg
  · intro i hi
    apply hsent
    rintro rfl
    exact hi (List.mem_map_of_mem hb)

/-- **The books**: what the open blocks say agrees with the bytes moved, and the requests
handed back are whole. -/
structure Books (Balanced : SgtReqCb → ℕ → Prop) (asked : ℕ → Option Request) (sent : ℕ → ℕ)
    (opn : List SgtReqCb) (fin : List Done) : Prop where
  live : ∀ cb ∈ opn, asked cb.id = some cb.req ∧ Balanced cb (sent cb.id)
  back : ∀ f ∈ fin, asked f.cb.id = some f.cb.req ∧ Balanced f.cb (sent f.cb.id) ∧
    HandedBack Balanced f.cb
  apart : ∀ f ∈ fin, f.cb.id ∉ opn.map SgtReqCb.id

/-- **Moves keep the books.** -/
theorem Books.moves {asked : ℕ → Option Request} {sent sent' : ℕ → ℕ}
    {opn opn' : List SgtReqCb} {fin fin' : List Done}
    (h : Books Balanced asked sent opn fin)
    (hm : Moves Balanced sent sent' opn opn' fin fin') :
    Books Balanced asked sent' opn' fin' := by
  have hlive : ∀ {b c : SgtReqCb}, b ∈ opn → Follows Balanced sent sent' b c →
      asked c.id = some c.req ∧ Balanced c (sent' c.id) := by
    intro b c hb hfol
    rw [hfol.id, hfol.req]
    exact ⟨(h.live b hb).1, hfol.balanced (h.live b hb).2⟩
  constructor
  · intro c hc
    obtain ⟨b, hb, hfol⟩ := hm.opened c hc
    exact hlive hb hfol
  · intro f hf
    rcases hm.closed f hf with hf | ⟨⟨b, hb, hfol⟩, hback, _⟩
    · rw [hm.idle _ (h.apart f hf)]
      exact h.back f hf
    · exact ⟨(hlive hb hfol).1, (hlive hb hfol).2, hback⟩
  · intro f hf hin
    rcases hm.closed f hf with hf | ⟨_, _, hgone⟩
    · exact h.apart f hf (hm.ids hin)
    · exact hgone hin

/-- A request of which nothing was known; `c` is its block, if it is open. -/
theorem Books.add {asked : ℕ → Option Request} {sent sent' : ℕ → ℕ}
    {opn opn' : List SgtReqCb} {fin : List Done} {i : ℕ} {req : Request}
    (h : Books Balanced asked sent opn fin) (hopn : i ∉ opn.map SgtReqCb.id)
    (hfin : i ∉ fin.map (fun f => f.cb.id)) (hsent : ∀ j ≠ i, sent' j = sent j)
    (hnew : ∀ c ∈ opn', c ∈ opn ∨ c.id = i ∧ c.req = req ∧ Balanced c (sent' i)) :
    Books Balanced (Function.update asked i (some req)) sent' opn' fin := by
  have hother : ∀ j ≠ i, Function.update asked i (some req) j = asked j ∧ sent' j = sent j :=
    fun j hj => ⟨Function.update_of_ne hj _ _, hsent j hj⟩
  have hne : ∀ c ∈ opn, c.id ≠ i := fun c hc heq => hopn (heq ▸ List.mem_map_of_mem hc)
  have hback : ∀ f ∈ fin, f.cb.id ≠ i := fun f hf heq => hfin (List.mem_map.mpr ⟨f, hf, heq⟩)
  constructor
  · intro c hc
    rcases hnew c hc with hc | ⟨rfl, rfl, hbal⟩
    · obtain ⟨h1, h2⟩ := hother c.id (hne c hc)
      rw [h1, h2]
      exact h.live c hc
    · exact ⟨Function.update_self .., hbal⟩
  · intro f hf
    obtain ⟨h1, h2⟩ := hother f.cb.id (hback f hf)
    rw [h1, h2]
    exact h.back f hf
  · intro f hf hin
    obtain ⟨c, hc, hid⟩ := List.mem_map.mp hin
    rcases hnew c hc with hc | ⟨hi, _, _⟩
    · exact h.apart f hf (hid ▸ List.mem_map_of_mem hc)
    · exact hback f hf (hid.symm.trans hi)

/-- Fewer open blocks. -/
theorem Books.less {asked : ℕ → Option Request} {sent : ℕ → ℕ} {opn opn' : List SgtReqCb}
    {fin : List Done} (h : Books Balanced asked sent opn fin) (hopn : ∀ c ∈ opn', c ∈ opn) :
    Books Balanced asked sent opn' fin := by
  refine ⟨fun c hc => h.live c (hopn c hc), h.back, fun f hf hin => ?_⟩
  obtain ⟨c, hc, hid⟩ := List.mem_map.mp hin
  exact h.apart f hf (hid ▸ List.mem_map_of_mem (hopn c hc))

end Books

/-! ## The desk -/

/-- The open blocks: those of the callers between two locked sections, and those on the
lists. -/
def QSys.live (s : QSys) : List SgtReqCb := s.parked ++ s.q.reqs

/-- Request `i` is on the lists or handed back. -/
def Descq.Has (q : Descq) (i : ℕ) : Prop :=
  i ∈ q.reqs.map SgtReqCb.id ∨ i ∈ q.finished.map (fun f => f.cb.id)

/-- What a block says of the bytes moved for its request: `left` are missing of a read, whose
scatter-gather list has room for just these; `offset` are posted of any other. -/
def SgtReqCb.Agrees (rx : Bool) (cb : SgtReqCb) (n : ℕ) : Prop :=
  if rx then n + cb.left = cb.req.count ∧ CbFits cb ∧ cb.req.fpDone = false
  else n = cb.offset

/-- The bytes moved for a request or still to be moved by the device. -/
def Desk.sent (x : Desk) (id : ℕ) : ℕ :=
  if x.sys.q.isRx then copiedFor x.copied id
  else descBytes x.sys.q.conf.st x.sys.q.regs.handed id

/-- **The books of a desk.** -/
structure DeskInv (x : Desk) : Prop where
  ids : IdsInv x.sys
  books : Books (SgtReqCb.Agrees x.sys.q.isRx) x.asked x.sent x.sys.live x.sys.q.finished
  answered : ∀ r ∈ x.returned, r.1 < x.sys.nreq ∧ r.1 ∉ x.sys.live.map SgtReqCb.id ∧
    ∀ req, x.asked r.1 = some req → Reports r.2 (x.sent r.1) req.count
  waiting : ∀ id ∈ x.sys.waiters, x.sys.q.Has id ∧
    ∀ req, x.asked id = some req → req.fpDone = false
  kept : ∀ id ∈ x.accepted, id < x.sys.nreq ∧
    ∀ req, x.asked id = some req → req.fpDone = true → x.sys.q.Has id
  unsent : ∀ i ≥ x.sys.nreq, x.sent i = 0

theorem listed_pos {q : Descq} {i : ℕ} : 0 < q.listed i ↔ i ∈ q.reqs.map SgtReqCb.id := by
  unfold Descq.listed Descq.reqs
  rw [← List.count_pos_iff, List.map_append, List.count_append, Nat.add_comm]

theorem completed_pos {q : Descq} {i : ℕ} :
    0 < q.completed i ↔ i ∈ q.finished.map (fun f => f.cb.id) :=
  List.count_pos_iff

/-- The next identity is new. -/
theorem IdsInv.new {s : QSys} (h : IdsInv s) :
    s.nreq ∉ s.live.map SgtReqCb.id ∧ s.nreq ∉ s.q.finished.map (fun f => f.cb.id) := by
  have hnone := h.fresh s.nreq le_rfl
  unfold Descq.seen at hnone
  constructor
  · intro hin
    unfold QSys.live at hin
    rw [List.map_append, List.mem_append] at hin
    rcases hin with hin | hin
    · have := List.count_pos_iff.mpr hin
      omega
    · have := listed_pos.mpr hin
      omega
  · intro hin
    have := completed_pos.mpr hin
    omega

theorem IdsInv.has_lt {s : QSys} (h : IdsInv s) {i : ℕ} (hi : s.q.Has i) : i < s.nreq := by
  by_contra hge
  have hnone := h.fresh i (by omega)
  unfold Descq.seen at hnone
  rcases hi with hi | hi
  · have := listed_pos.mpr hi
    omega
  · have := completed_pos.mpr hi
    omega

/-- The callers between two locked sections are not on the lists. -/
theorem IdsInv.parked_apart {s : QSys} (h : IdsInv s) {c : SgtReqCb} (hc : c ∈ s.parked) :
    c.id ∉ s.q.reqs.map SgtReqCb.id ∧ c.id ∉ s.q.finished.map (fun f => f.cb.id) := by
  have honce := h.once c.id
  have hpos := List.count_pos_iff.mpr (List.mem_map_of_mem (f := SgtReqCb.id) hc)
  unfold Descq.seen at honce
  constructor
  · intro hin
    have := listed_pos.mpr hin
    omega
  · intro hin
    have := completed_pos.mpr hin
    omega

/-- The steps that bring in no request and wake no caller. -/
structure SameNotes (x x' : Desk) : Prop where
  isRx : x'.sys.q.isRx = x.sys.q.isRx
  asked : x'.asked = x.asked
  accepted : x'.accepted = x.accepted
  returned : x'.returned = x.returned
  parked : x'.sys.parked = x.sys.parked
  waiters : x'.sys.waiters = x.sys.waiters
  nreq : x.sys.nreq ≤ x'.sys.nreq

/-- **Step lemma** of the steps that serve requests. -/
theorem DeskInv.moves {x x' : Desk} (h : DeskInv x) (hids : IdsInv x'.sys)
    (hsame : SameNotes x x')
    (hm : Moves (SgtReqCb.Agrees x.sys.q.isRx) x.sent x'.sent x.sys.q.reqs x'.sys.q.reqs
      x.sys.q.finished x'.sys.q.finished) : DeskInv x' := by
  have hlive := hm.frame x.sys.parked (fun c hc => (h.ids.parked_apart hc).1)
  have hkeep : ∀ i, x.sys.q.Has i → x'.sys.q.Has i := by
    rintro i (hi | hi)
    · obtain ⟨b, hb, rfl⟩ := List.mem_map.mp hi
      exact hm.kept b hb
    · obtain ⟨f, hf, rfl⟩ := List.mem_map.mp hi
      exact .inr (List.mem_map.mpr ⟨f, hm.stays f hf, rfl⟩)
  have hlive' : x'.sys.live = x.sys.parked ++ x'.sys.q.reqs := by
    unfold QSys.live
    rw [hsame.parked]
  constructor
  · exact hids
  · rw [hsame.isRx, hsame.asked, hlive']
    exact h.books.moves hlive
  · rw [hsame.returned, hsame.asked, hlive']
    intro r hr
    obtain ⟨hlt, hgone, hrep⟩ := h.answered r hr
    refine ⟨hlt.trans_le hsame.nreq, fun hin => hgone (hlive.ids hin), fun req hreq => ?_⟩
    rw [hlive.idle r.1 hgone]
    exact hrep req hreq
  · rw [hsame.waiters, hsame.asked]
    exact fun id hid => ⟨hkeep id (h.waiting id hid).1, (h.waiting id hid).2⟩
  · rw [hsame.accepted, hsame.asked]
    intro id hid
    obtain ⟨hlt, hhas⟩ := h.kept id hid
    exact ⟨hlt.trans_le hsame.nreq, fun req hreq hfp => hkeep id (hhas req hreq hfp)⟩
  · intro i hi
    have hge := hsame.nreq
    rw [hm.idle i (fun hin => absurd (h.ids.has_lt (.inl hin)) (by omega))]
    exact h.unsent i (by omega)

/-- What a submission adds: the request, its block if it stays open, and an answer if it has
been dealt with. -/
structure Submitted (x x' : Desk) (req : Request) : Prop where
  isRx : x'.sys.q.isRx = x.sys.q.isRx
  asked : x'.asked = Function.update x.asked x.sys.nreq (some req)
  nreq : x'.sys.nreq = x.sys.nreq + 1
  finished : x'.sys.q.finished = x.sys.q.finished
  sent : ∀ i ≠ x.sys.nreq, x'.sent i = x.sent i
  live : ∀ c ∈ x'.sys.live, c ∈ x.sys.live ∨ c.id = x.sys.nreq ∧ c.req = req ∧
    c.Agrees x.sys.q.isRx (x'.sent x.sys.nreq)
  reqs : ∀ c ∈ x.sys.q.reqs, c ∈ x'.sys.q.reqs
  returned : ∀ r ∈ x'.returned, r ∈ x.returned ∨ r.1 = x.sys.nreq ∧
    r.1 ∉ x'.sys.live.map SgtReqCb.id ∧ Reports r.2 (x'.sent x.sys.nreq) req.count
  waiters : ∀ id ∈ x'.sys.waiters, id ∈ x.sys.waiters ∨ id = x.sys.nreq ∧
    x'.sys.q.Has id ∧ req.fpDone = false
  accepted : ∀ id ∈ x'.accepted, id ∈ x.accepted ∨ id = x.sys.nreq ∧
    (req.fpDone = true → x'.sys.q.Has id)

/-- **Step lemma** of a submission. -/
theorem DeskInv.submit {x x' : Desk} {req : Request} (h : DeskInv x) (hids : IdsInv x'.sys)
    (hs : Submitted x x' req) : DeskInv x' := by
  obtain ⟨hnew, hnewfin⟩ := h.ids.new
  -- requests known before the submission are so after it, and keep their books
  have hkeep : ∀ i, x.sys.q.Has i → x'.sys.q.Has i := by
    rintro i (hi | hi)
    · obtain ⟨b, hb, rfl⟩ := List.mem_map.mp hi
      exact .inl (List.mem_map_of_mem (hs.reqs b hb))
    · exact .inr (by rwa [hs.finished])
  have hasked : ∀ i ≠ x.sys.nreq, x'.asked i = x.asked i := by
    intro i hi
    rw [hs.asked]
    exact Function.update_of_ne hi _ _
  have hself : x'.asked x.sys.nreq = some req := by
    rw [hs.asked]
    exact Function.update_self ..
  constructor
  · exact hids
  · rw [hs.isRx, hs.asked, hs.finished]
    exact h.books.add hnew hnewfin hs.sent hs.live
  · intro r hr
    rw [hs.nreq]
    rcases hs.returned r hr with hr | ⟨hid, hgone, hrep⟩
    · obtain ⟨hlt, hgone, hrep⟩ := h.answered r hr
      refine ⟨by omega, fun hin => ?_, fun req' hreq => ?_⟩
      · obtain ⟨c, hc, hid⟩ := List.mem_map.mp hin
        rcases hs.live c hc with hc | ⟨hid', _, _⟩
        · exact hgone (hid ▸ List.mem_map_of_mem hc)
        · omega
      · rw [hasked r.1 (by omega)] at hreq
        rw [hs.sent r.1 (by omega)]
        exact hrep req' hreq
    · refine ⟨by omega, hgone, fun req' hreq => ?_⟩
      rw [hid, hself] at hreq
      cases hreq
      rwa [hid]
  · intro id hid
    rcases hs.waiters id hid with hid | ⟨rfl, hhas, hfp⟩
    · obtain ⟨hhas, hfp⟩ := h.waiting id hid
      have hlt := h.ids.has_lt hhas
      refine ⟨hkeep id hhas, fun req' hreq => ?_⟩
      rw [hasked id (by omega)] at hreq
      exact hfp req' hreq
    · refine ⟨hhas, fun req' hreq => ?_⟩
      rw [hself] at hreq
      cases hreq
      exact hfp
  · intro id hid
    rw [hs.nreq]
    rcases hs.accepted id hid with hid | ⟨rfl, hhas⟩
    · obtain ⟨hlt, hhas⟩ := h.kept id hid
      refine ⟨by omega, fun req' hreq hfp => ?_⟩
      rw [hasked id (by omega)] at hreq
      exact hkeep id (hhas req' hreq hfp)
    · refine ⟨by omega, fun req' hreq hfp => ?_⟩
      rw [hself] at hreq
      cases hreq
      exact hhas hfp
  · rw [hs.nreq]
    intro i hi
    rw [hs.sent i (by omega)]
    exact h.unsent i (by omega)

/-- What a step adds that moves no bytes and brings in no request: answers, and requests that
wait now. -/
structure Concluded (x x' : Desk) : Prop where
  isRx : x'.sys.q.isRx = x.sys.q.isRx
  asked : x'.asked = x.asked
  nreq : x'.sys.nreq = x.sys.nreq
  finished : x'.sys.q.finished = x.sys.q.finished
  sent : x'.sent = x.sent
  live : ∀ c ∈ x'.sys.live, c ∈ x.sys.live
  returned : ∀ r ∈ x'.returned, r ∈ x.returned ∨ r.1 < x.sys.nreq ∧
    r.1 ∉ x'.sys.live.map SgtReqCb.id ∧
    ∀ req, x.asked r.1 = some req → Reports r.2 (x.sent r.1) req.count
  waiters : ∀ id ∈ x'.sys.waiters, x'.sys.q.Has id ∧
    (id ∈ x.sys.waiters ∨ ∀ req, x.asked id = some req → req.fpDone = false)
  accepted : ∀ id ∈ x'.accepted, (id ∈ x.accepted ∨ id < x.sys.nreq) ∧
    ∀ req, x.asked id = some req → req.fpDone = true → x'.sys.q.Has id

/-- **Step lemma** of the end of a submission and of a wait. -/
theorem DeskInv.concluded {x x' : Desk} (h : DeskInv x) (hids : IdsInv x'.sys)
    (hc : Concluded x x') : DeskInv x' := by
  constructor
  · exact hids
  · rw [hc.isRx, hc.asked, hc.sent, hc.finished]
    exact h.books.less hc.live
  · rw [hc.asked, hc.sent, hc.nreq]
    intro r hr
    rcases hc.returned r hr with hr | hnew
    · obtain ⟨hlt, hgone, hrep⟩ := h.answered r hr
      refine ⟨hlt, fun hin => ?_, hrep⟩
      obtain ⟨c, hlive, hid⟩ := List.mem_map.mp hin
      exact hgone (hid ▸ List.mem_map_of_mem (hc.live c hlive))
    · exact hnew
  · rw [hc.asked]
    intro id hid
    obtain ⟨hhas, hold | hfp⟩ := hc.waiters id hid
    · exact ⟨hhas, (h.waiting id hold).2⟩
    · exact ⟨hhas, hfp⟩
  · rw [hc.asked, hc.nreq]
    intro id hid
    obtain ⟨hold | hlt, hhas⟩ := hc.accepted id hid
    · exact ⟨(h.kept id hold).1, hhas⟩
    · exact ⟨hlt, hhas⟩
  · rw [hc.nreq, hc.sent]
    exact h.unsent

/-! ## Waiting -/

theorem doneCb_mem {q : Descq} {id : ℕ} {cb : SgtReqCb} (h : q.doneCb id = some cb) :
    ∃ f ∈ q.finished, f.cb = cb ∧ cb.id = id := by
  unfold Descq.doneCb at h
  obtain ⟨f, hf, rfl⟩ := Option.map_eq_some_iff.mp h
  exact ⟨f, List.mem_of_find?_eq_some hf, rfl, of_decide_eq_true (List.find?_some hf :)⟩

theorem doneCb_none {q : Descq} {id : ℕ} (h : q.doneCb id = none) :
    id ∉ q.finished.map (fun f => f.cb.id) := by
  intro hin
  obtain ⟨f, hf, hid⟩ := List.mem_map.mp hin
  unfold Descq.doneCb at h
  have hnone := List.find?_eq_none.mp (Option.map_eq_none_iff.mp h) f hf
  exact hnone (decide_eq_true hid)

/-- The result of a call whose request is whole is its count. -/
theorem waitReturn_done {s : QSys} {id : ℕ} {cb : SgtReqCb} (hdone : s.q.doneCb id = some cb)
    (hback : HandedBack (SgtReqCb.Agrees s.q.isRx) cb) {n : ℕ}
    (hagree : cb.Agrees s.q.isRx n) : s.waitReturn id = cb.req.count ∧ n = cb.req.count := by
  have hn := hback.whole n hagree
  refine ⟨?_, hn⟩
  have hrv : (qdmaRequestWaitForCmpl s.q id).2 = 0 := by
    unfold qdmaRequestWaitForCmpl
    rw [hdone]
    exact if_neg (not_not.mpr hback.status)
  unfold QSys.waitReturn
  simp only [hrv, hdone, lt_irrefl, if_false]
  unfold SgtReqCb.Agrees at hagree
  split_ifs at hagree ⊢
  · -- nothing is missing of the read
    have hleft : cb.left = 0 := by omega
    rw [hleft, u32Sub_of_le cb.req.count_lt (Nat.zero_le _)]
    rfl
  · rw [← hagree, hn]

/-- The result of a call whose caller gives up. -/
theorem waitReturn_none {s : QSys} {id : ℕ} (hnone : s.q.doneCb id = none) :
    s.waitReturn id = eio := by
  have heio : eio < 0 := by decide
  unfold QSys.waitReturn qdmaRequestWaitForCmpl
  simp only [hnone, heio, if_true]

/-- A negative answer is truthful unless all bytes were moved. -/
theorem Reports.error {rv : ℤ} (hrv : rv < 0) {n count : ℕ} (h : n ≠ count) :
    Reports rv n count :=
  ⟨fun h0 => absurd h0 (not_le.mpr hrv),
    ⟨fun h0 => absurd h0 (not_le.mpr hrv), fun heq => absurd heq h⟩⟩

/-- The count is a truthful answer if all bytes were moved. -/
theorem Reports.success {n count : ℕ} (h : n = count) : Reports count n count :=
  ⟨fun _ => by rw [h], ⟨fun _ => h, fun _ => Int.natCast_nonneg count⟩⟩

/-- **Step lemma** of the end of a wait: the request is done, or given up before all its bytes
are moved. -/
theorem DeskInv.wait {x : Desk} (h : DeskInv x) {id : ℕ} (hid : id ∈ x.sys.waiters)
    (hless : x.sys.q.doneCb id = none → ∀ cb ∈ x.sys.q.reqs, cb.id = id →
      x.sent id ≠ cb.req.count) : DeskInv (x.step (.wait id)) := by
  obtain ⟨hhas, hfp⟩ := h.waiting id hid
  have hlt := h.ids.has_lt hhas
  have hq : (x.step (.wait id)).sys.q = (qdmaRequestWaitForCmpl x.sys.q id).1 := rfl
  have hret : ∀ r ∈ (x.step (.wait id)).returned,
      r ∈ x.returned ∨ r = (id, x.sys.waitReturn id) := by
    intro r hr
    rcases List.mem_append.mp hr with hr | hr
    · exact .inl hr
    · exact .inr (List.mem_singleton.mp hr)
  have hwait : ∀ i ∈ (x.step (.wait id)).sys.waiters, i ∈ x.sys.waiters ∧ i ≠ id := by
    intro i hi
    obtain ⟨hin, hne⟩ := List.mem_filter.mp hi
    exact ⟨hin, of_decide_eq_true hne⟩
  apply h.concluded (h.ids.step (.wait id))
  unfold qdmaRequestWaitForCmpl at hq
  cases hd : x.sys.q.doneCb id with
  | some cb =>
      rw [hd] at hq
      obtain ⟨f, hf, rfl, hfid⟩ := doneCb_mem hd
      obtain ⟨hasked, hagree, hback⟩ := h.books.back f hf
      obtain ⟨hres, hn⟩ := waitReturn_done hd hback hagree
      constructor
      · rw [hq]
      · rfl
      · rfl
      · rw [hq]
      · funext i
        unfold Desk.sent
        rw [hq]
        rfl
      · unfold QSys.live
        rw [hq]
        exact fun c hc => hc
      · intro r hr
        refine (hret r hr).imp_right ?_
        rintro rfl
        refine ⟨hlt, ?_, fun req hreq => ?_⟩
        · unfold QSys.live
          rw [hq, ← hfid]
          exact h.books.apart f hf
        · have heq : some f.cb.req = some req := by rw [← hasked, hfid]; exact hreq
          cases heq
          rw [hres, ← hfid]
          exact .success hn
      · intro i hi
        rw [hq]
        exact ⟨(h.waiting i (hwait i hi).1).1, .inl (hwait i hi).1⟩
      · intro i hi
        rw [hq]
        exact ⟨.inl hi, (h.kept i hi).2⟩
  | none =>
      rw [hd] at hq
      have hq' : (x.step (.wait id)).sys.q = x.sys.q.listDel id := hq
      have hreqs : (x.sys.q.listDel id).reqs = x.sys.q.reqs.filter (fun c => c.id ≠ id) := by
        unfold Descq.reqs Descq.listDel
        rw [List.filter_append]
      have hstay : ∀ i ≠ id, x.sys.q.Has i → (x.sys.q.listDel id).Has i := by
        rintro i hne (hin | hin)
        · obtain ⟨c, hc, rfl⟩ := List.mem_map.mp hin
          refine .inl (List.mem_map_of_mem ?_)
          rw [hreqs]
          exact List.mem_filter.mpr ⟨hc, decide_eq_true hne⟩
        · exact .inr hin
      -- it is on the lists, not handed back
      obtain ⟨cb, hcb, hcbid⟩ : ∃ cb ∈ x.sys.q.reqs, cb.id = id := by
        rcases hhas with hin | hin
        · exact List.mem_map.mp hin
        · exact absurd hin (doneCb_none hd)
      obtain ⟨hasked, _⟩ := h.books.live cb (List.mem_append_right _ hcb)
      constructor
      · rw [hq']
        rfl
      · rfl
      · rfl
      · rw [hq']
        rfl
      · funext i
        unfold Desk.sent
        rw [hq']
        rfl
      · intro c hc
        unfold QSys.live at hc ⊢
        rw [hq', hreqs] at hc
        rcases List.mem_append.mp hc with hc | hc
        · exact List.mem_append_left _ hc
        · exact List.mem_append_right _ (List.mem_of_mem_filter hc)
      · intro r hr
        refine (hret r hr).imp_right ?_
        rintro rfl
        refine ⟨hlt, ?_, fun req hreq => ?_⟩
        · unfold QSys.live
          rw [hq', hreqs, List.map_append, List.mem_append]
          rintro (hin | hin)
          · obtain ⟨c, hc, rfl⟩ := List.mem_map.mp hin
            obtain ⟨h1, h2⟩ := h.ids.parked_apart hc
            exact hhas.elim h1 h2
          · obtain ⟨c, hc, hc'⟩ := List.mem_map.mp hin
            exact of_decide_eq_true (List.mem_filter.mp hc).2 hc'
        · have heq : some cb.req = some req := by rw [← hasked, hcbid]; exact hreq
          cases heq
          rw [waitReturn_none hd]
          exact .error (show eio < 0 by decide) (hless hd cb hcb hcbid)
      · intro i hi
        rw [hq']
        exact ⟨hstay i (hwait i hi).2 (h.waiting i (hwait i hi).1).1, .inl (hwait i hi).1⟩
      · intro i hi
        rw [hq']
        obtain ⟨hi', hhas'⟩ := h.kept i hi
        refine ⟨.inl hi, fun req hreq hfp' => hstay i ?_ (hhas' req hreq hfp')⟩
        -- a caller that sleeps has no callback
        rintro rfl
        rw [hfp req hreq] at hfp'
        cases hfp'

/-! ## Steps -/

theorem DeskLegal.traffic {x : Desk} {l : QLabel} (h : DeskLegal x l) : l.Traffic := by
  cases l with
  | wait id => trivial
  | device wbCidx mem wbPidx page => trivial
  | submit | pend | worker | service | packetRead | stop | reconfig | start => exact h

/-- A step of the data path does not change the kind of the queue. -/
theorem isRx_step (x : Desk) {l : QLabel} (hl : l.Traffic) :
    (x.step l).sys.q.isRx = x.sys.q.isRx := by
  have hfixed := congrArg Prod.fst (fixed_step x.sys hl)
  unfold Descq.isRx
  exact congrArg (fun c : QueueConf => c.st && c.c2h) hfixed

/-- What is noted of a submission. -/
theorem noteSubmit_spec (x : Desk) (req : Request) (mapped : Bool) :
    (x.noteSubmit req mapped).asked = Function.update x.asked x.sys.nreq (some req) ∧
    (x.noteSubmit req mapped).copied
      = x.copied ++ [(x.sys.nreq, copyCount x.sys.q (x.sys.submit req mapped).q)] ∧
    (∀ r ∈ (x.noteSubmit req mapped).returned, r ∈ x.returned ∨
      ∃ rv, x.sys.submitReturn req mapped = some rv ∧ r = (x.sys.nreq, rv)) ∧
    ∀ id ∈ (x.noteSubmit req mapped).accepted, id ∈ x.accepted ∨ id = x.sys.nreq ∧
      ((∃ rv, x.sys.submitReturn req mapped = some rv ∧ 0 ≤ rv) ∨
        x.sys.submitReturn req mapped = none ∧ x.sys.q.isRx = false) := by
  have hsnoc : ∀ {α : Type} {l : List α} {a b : α}, a ∈ l ++ [b] → a ∈ l ∨ a = b := by
    intro _ _ _ _ h
    exact (List.mem_append.mp h).imp_right List.mem_singleton.mp
  unfold Desk.noteSubmit
  cases hrv : x.sys.submitReturn req mapped with
  | some rv =>
      by_cases h0 : 0 ≤ rv
      · simp only [h0, if_true]
        refine ⟨rfl, rfl, fun r hr => ?_, fun id hid => ?_⟩
        · exact (hsnoc hr).imp_right (fun heq => ⟨rv, rfl, heq⟩)
        · exact (hsnoc hid).imp_right (fun heq => ⟨heq, .inl ⟨rv, rfl, h0⟩⟩)
      · simp only [h0, if_false]
        refine ⟨rfl, rfl, fun _ hr => ?_, fun id hid => .inl hid⟩
        exact (hsnoc hr).imp_right (fun heq => ⟨rv, rfl, heq⟩)
  | none =>
      cases hrx : x.sys.q.isRx with
      | true => exact ⟨rfl, rfl, fun _ hr => .inl hr, fun _ hid => .inl hid⟩
      | false =>
          refine ⟨rfl, rfl, fun _ hr => .inl hr, fun id hid => ?_⟩
          exact (hsnoc hid).imp_right (fun heq => ⟨heq, .inr ⟨rfl, rfl⟩⟩)

end Qdma
