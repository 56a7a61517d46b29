/-
The arbitration of concurrent writes to a property of a remove-wins list's
element (`UPD_NORMAL`, `UPD_BITMAP` of t_rlist.c).

A property keeps a clock. A write is taken if `vc_cmp` puts the clock
below it, by order or, where the two are concurrent, by id; the clock then
becomes the maximum of both and takes the id of the write. So the clock is
not the time of the write that shows: it counts more than that write did,
and a later write of the same server may be concurrent with it, with an id
that decides nothing.

# When the order of application does not matter

A new write is above the clock, or concurrent with it and of another id,
if among the writes one that is above one of two concurrent writes is
above the other (`Arbitrable.layered`). The writes then come in layers,
and the one of the last layer with the largest id shows (`Latest`),
whatever the order (`arbitrate_agree`). `Arbitrated` is what one write
preserves.
-/
import CrdtRedis.Clock

namespace CrdtRedis

variable {n : ℕ} {V : Type}

/-- In an order that puts nothing behind what is at least as large, equal
means one. -/
theorem eq_of_pairwise_not_le {α β : Type} [Preorder β] {f : α → β} {l : List α}
    (h : l.Pairwise fun x y => ¬ f y ≤ f x) {x y : α} (hx : x ∈ l) (hy : y ∈ l)
    (heq : f x = f y) : x = y := by
  have hinj : l.Pairwise fun x y => f x = f y → x = y :=
    h.imp fun hnot heq => absurd heq.ge hnot
  have hflip : l.Pairwise (flip fun x y => f x = f y → x = y) :=
    hinj.imp fun hxy heq => (hxy heq.symm).symm
  exact List.Pairwise.forall_of_forall_of_flip (fun _ _ _ => rfl) hinj hflip hx hy heq

-- ==================================================== the arbitration

/-- A write to a property: its time and what it writes. -/
abbrev Write (n : ℕ) (V : Type) := Vc n × V

/-- `UPD_NORMAL` and `UPD_BITMAP` on the clock of a property and what it
shows. -/
def arbitrate (s w : Write n V) : Write n V :=
  if (vcCmp s.1 w.1).code < 0 then ({ vcUpdate s.1 w.1 with id := w.1.id }, w.2) else s

/-- What is taken of the writes to a property, in the order they are
applied. -/
structure Arbitrable (W : List (Write n V)) : Prop where
  ordered : W.Pairwise fun x y => ¬ y.1.vector ≤ x.1.vector
  /-- A write that counts another is above it. -/
  seen : ∀ x ∈ W, ∀ y ∈ W, x.1.vector x.1.id ≤ y.1.vector x.1.id → x.1.vector ≤ y.1.vector
  /-- What is above one of two concurrent writes is above the other. -/
  layered : ∀ x ∈ W, ∀ y ∈ W, ∀ z ∈ W, x.1.Concurrent y.1 → x.1.vector < z.1.vector →
    y.1.vector < z.1.vector

/-- The write that should show: no write is above it, and of those that no
write is above it has the largest id. -/
structure Latest (W : List (Write n V)) (w : Write n V) : Prop where
  mem : w ∈ W
  top : ∀ y ∈ W, ¬ w.1.vector < y.1.vector
  id_le : ∀ y ∈ W, (∀ z ∈ W, ¬ y.1.vector < z.1.vector) → y.1.id ≤ w.1.id

/-- What the clock of a property has to do with the writes applied. -/
structure Arbitrated (W : List (Write n V)) (s : Write n V) : Prop where
  latest : ∃ w, Latest W w ∧ s.2 = w.2 ∧ s.1.id = w.1.id ∧ w.1.vector ≤ s.1.vector
  bound : ∀ i, ∃ y ∈ W, s.1.vector i ≤ y.1.vector i

variable {W : List (Write n V)} {s w x y : Write n V}

theorem Arbitrable.left {W' : List (Write n V)} (h : Arbitrable (W' ++ W)) : Arbitrable W' where
  ordered := (List.pairwise_append.mp h.ordered).1
  seen := fun x hx y hy => h.seen x (List.mem_append_left _ hx) y (List.mem_append_left _ hy)
  layered := fun x hx y hy z hz => h.layered x (List.mem_append_left _ hx) y
    (List.mem_append_left _ hy) z (List.mem_append_left _ hz)

/-- Writes of one server are ordered. -/
theorem Arbitrable.comparable (h : Arbitrable W) (hx : x ∈ W) (hy : y ∈ W)
    (hid : x.1.id = y.1.id) : x.1.vector ≤ y.1.vector ∨ y.1.vector ≤ x.1.vector := by
  rcases le_total (x.1.vector x.1.id) (y.1.vector x.1.id) with hle | hle
  · exact Or.inl (h.seen x hx y hy hle)
  · rw [hid] at hle
    exact Or.inr (h.seen y hy x hx hle)

/-- There is one write that should show. -/
theorem Latest.unique (h : Arbitrable W) (hx : Latest W x) (hy : Latest W y) : x = y := by
  have hid := le_antisymm (hy.id_le x hx.mem hx.top) (hx.id_le y hy.mem hy.top)
  refine eq_of_pairwise_not_le h.ordered hx.mem hy.mem ?_
  rcases h.comparable hx.mem hy.mem hid with hle | hle
  · exact eq_of_le_of_not_lt hle (hx.top y hy.mem)
  · exact (eq_of_le_of_not_lt hle (hy.top x hx.mem)).symm

theorem Latest.congr {W' : List (Write n V)} (h : Latest W w) (hmem : ∀ x, x ∈ W' ↔ x ∈ W) :
    Latest W' w where
  mem := (hmem w).mpr h.mem
  top := fun y hy => h.top y ((hmem y).mp hy)
  id_le := fun y hy htop => h.id_le y ((hmem y).mp hy) fun z hz => htop z ((hmem z).mpr hz)

/-- What comes last is below none before it. -/
theorem Arbitrable.last_not_le (hW : Arbitrable (W ++ [w])) (hy : y ∈ W) :
    ¬ w.1.vector ≤ y.1.vector :=
  (List.pairwise_append.mp hW.ordered).2.2 y hy w (List.mem_singleton_self w)

theorem Arbitrable.last_top (hW : Arbitrable (W ++ [w])) :
    ∀ y ∈ W ++ [w], ¬ w.1.vector < y.1.vector := by
  intro y hy hlt
  rcases List.mem_append.mp hy with hy | hy
  · exact hW.last_not_le hy hlt.le
  · rw [List.mem_singleton.mp hy] at hlt
    exact lt_irrefl _ hlt

/-- The clock has not counted the next write. -/
theorem Arbitrated.last_not_le (h : Arbitrated W s) (hW : Arbitrable (W ++ [w])) :
    ¬ w.1.vector ≤ s.1.vector := by
  intro hle
  obtain ⟨y, hy, hys⟩ := h.bound w.1.id
  refine hW.last_not_le hy ?_
  exact hW.seen w (by simp) y (List.mem_append_left _ hy) ((hle _).trans hys)

/-- A write that is taken, where it is the one to show. -/
theorem Arbitrated.take (h : Arbitrated W s) (hW : Arbitrable (W ++ [w]))
    (hids : ∀ y ∈ W, (∀ z ∈ W ++ [w], ¬ y.1.vector < z.1.vector) → y.1.id ≤ w.1.id)
    (hcode : (vcCmp s.1 w.1).code < 0) : Arbitrated (W ++ [w]) (arbitrate s w) := by
  have hw : w ∈ W ++ [w] := by simp
  rw [arbitrate, if_pos hcode]
  refine ⟨⟨w, ⟨hw, hW.last_top, ?_⟩, rfl, rfl, ?_⟩, ?_⟩
  · intro y hy htop
    rcases List.mem_append.mp hy with hy | hy
    · exact hids y hy htop
    · rw [List.mem_singleton.mp hy]
  · show w.1.vector ≤ (vcUpdate s.1 w.1).vector
    rw [vcUpdate_vector]
    exact le_sup_right
  · intro i
    show ∃ y ∈ W ++ [w], (vcUpdate s.1 w.1).vector i ≤ _
    rw [vcUpdate_vector, Pi.sup_apply]
    rcases le_total (s.1.vector i) (w.1.vector i) with hle | hle
    · exact ⟨w, hw, by rw [sup_eq_right.mpr hle]⟩
    · obtain ⟨y, hy, hys⟩ := h.bound i
      exact ⟨y, List.mem_append_left _ hy, by rw [sup_eq_left.mpr hle]; exact hys⟩

/-- A write above the one that shows is above all of them. -/
theorem Latest.lt_last {p : Write n V} (hp : Latest W p) (hW : Arbitrable (W ++ [w]))
    (hlt : p.1.vector < w.1.vector) : ∀ y ∈ W, y.1.vector < w.1.vector := by
  intro y hy
  by_cases hyp : y.1.vector ≤ p.1.vector
  · exact lt_of_le_of_lt hyp hlt
  · refine hW.layered p (List.mem_append_left _ hp.mem) y (List.mem_append_left _ hy) w (by simp)
      ⟨fun hpy => ?_, hyp⟩ hlt
    exact hp.top y hy (lt_of_le_not_ge hpy hyp)

/-- One more write keeps the clock and the write that should show in
step. -/
theorem Arbitrated.step (h : Arbitrated W s) (hW : Arbitrable (W ++ [w])) :
    Arbitrated (W ++ [w]) (arbitrate s w) := by
  obtain ⟨p, hp, hval, hid, hple⟩ := h.latest
  have hfresh := h.last_not_le hW
  have hpin : p ∈ W ++ [w] := List.mem_append_left _ hp.mem
  by_cases hlt : p.1.vector < w.1.vector
  · have hall := hp.lt_last hW hlt
    have hle : s.1.vector ≤ w.1.vector := by
      intro i
      obtain ⟨y, hy, hys⟩ := h.bound i
      exact hys.trans ((hall y hy).le i)
    refine h.take hW (fun y hy htop => absurd (hall y hy) (htop w (by simp))) ?_
    rw [(vcCmp_less_iff (Or.inr (Or.inl hle))).mpr (lt_of_le_not_ge hle hfresh)]
    decide
  · -- the new write is concurrent with the one that shows, and the ids decide
    have hpw : ¬ p.1.vector ≤ w.1.vector :=
      fun hle => hlt (lt_of_le_not_ge hle (hW.last_not_le hp.mem))
    have hne : p.1.id ≠ w.1.id := by
      intro hcon
      rcases hW.comparable hpin (by simp) hcon with hle | hle
      · exact hpw hle
      · exact hW.last_not_le hp.mem hle
    have hcmp := vcCmp_concurrent (a := s.1) (b := w.1) ⟨fun hle => hpw (hple.trans hle), hfresh⟩
      (by rw [hid]; exact hne)
    have hids : ∀ y ∈ W, (∀ z ∈ W ++ [w], ¬ y.1.vector < z.1.vector) → y.1.id ≤ p.1.id :=
      fun y hy htop => hp.id_le y hy fun z hz => htop z (List.mem_append_left _ hz)
    rcases lt_or_gt_of_ne hne with hidlt | hidgt
    · refine h.take hW (fun y hy htop => (hids y hy htop).trans hidlt.le) ?_
      rw [hcmp, cmpById, hid, if_neg hne, if_neg (not_lt.mpr hidlt.le)]
      decide
    · have hcode : ¬ (vcCmp s.1 w.1).code < 0 := by
        rw [hcmp, cmpById, hid, if_neg hne, if_pos hidgt]
        decide
      rw [arbitrate, if_neg hcode]
      refine ⟨⟨p, ⟨hpin, ?_, ?_⟩, hval, hid, hple⟩, fun i => ?_⟩
      · intro y hy
        rcases List.mem_append.mp hy with hy | hy
        · exact hp.top y hy
        · rw [List.mem_singleton.mp hy]
          exact hlt
      · intro y hy htop
        rcases List.mem_append.mp hy with hy | hy
        · exact hids y hy htop
        · rw [List.mem_singleton.mp hy]
          exact hidgt.le
      · obtain ⟨y, hy, hys⟩ := h.bound i
        exact ⟨y, List.mem_append_left _ hy, hys⟩

/-- The run lemma, from the insert on. -/
theorem arbitrated_foldl (s : Write n V) (hW : Arbitrable (s :: W)) :
    Arbitrated (s :: W) (W.foldl arbitrate s) := by
  induction W using List.reverseRecOn with
  | nil =>
      refine ⟨⟨s, ⟨List.mem_singleton_self s, ?_, ?_⟩, rfl, rfl, le_rfl⟩, fun i => ?_⟩
      · intro y hy
        rw [List.mem_singleton.mp hy]
        exact lt_irrefl _
      · intro y hy _
        rw [List.mem_singleton.mp hy]
      · exact ⟨s, List.mem_singleton_self s, le_rfl⟩
  | append_singleton W w ih =>
      rw [← List.cons_append] at hW ⊢
      rw [List.foldl_append]
      exact (ih hW.left).step hW

/-- Two orders of the same writes show the same. -/
theorem arbitrate_agree {W' : List (Write n V)} (hW : Arbitrable (s :: W))
    (hW' : Arbitrable (s :: W')) (hmem : ∀ x, x ∈ W' ↔ x ∈ W) :
    (W'.foldl arbitrate s).2 = (W.foldl arbitrate s).2 := by
  obtain ⟨w, hw, hwval, -⟩ := (arbitrated_foldl s hW).latest
  obtain ⟨v, hv, hvval, -⟩ := (arbitrated_foldl s hW').latest
  have hboth : Latest (s :: W) v :=
    hv.congr fun x => by rw [List.mem_cons, List.mem_cons, hmem]
  rw [hwval, hvval, Latest.unique hW hboth hw]

end CrdtRedis
