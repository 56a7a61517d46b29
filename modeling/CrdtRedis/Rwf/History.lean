/-
Removal histories: what the header of an RWF element knows.

The three RWF types put different things behind the header, but the
header moves the same way in all of them, and what the network guarantees
about histories is a fact about headers alone. `rehService` is an element
reduced to its header; each type, reduced to it, runs as it
(`Reachable.map`).

What is proved of it: the local history is the pointwise maximum of the
histories of the operations applied (`current_max`), an operation carries
its issuer's id, the element exists exactly if an add or an update has
that maximum (`exist_iff`), and no server issues two adds with one
history (`add_unique`).
-/
import CrdtRedis.Element
import CrdtRedis.Rwf.Header
import CrdtRedis.Replication.Epoch
import CrdtRedis.Replication.Projection

namespace CrdtRedis

open Replication

variable {n : ℕ}

/-- What an operation is to the header. -/
inductive RehKind
  | add | update | rem
deriving DecidableEq, Repr

/-- An operation reduced to what the header reads. -/
structure RehOp (n : ℕ) where
  kind : RehKind
  t : Vc n
deriving DecidableEq

namespace Reh

/-- The header part of every effect phase. -/
def apply (h : Reh n) (o : RehOp n) : Reh n :=
  let h := (h.removeCheck o.t).1
  match o.kind with
  | .add => (h.addCheck o.t).1
  | .update => (h.updateCheck o.t).1
  | .rem => h

/-- What an operation of the current epoch does to the id. -/
def actPid (pid : ℤ) (o : RehOp n) : ℤ :=
  match o.kind with
  | .add => if pid < o.t.id then o.t.id else pid
  | .update => if pid = pidNexist then pidWaitInnate else pid
  | .rem => pid

variable (h : Reh n) (o : RehOp n)

/-- A history the local one contains and is not: nothing happens. -/
theorem apply_stay (hle : o.t.vector ≤ h.current.vector)
    (hne : o.t.vector ≠ h.current.vector) : h.apply o = h := by
  unfold apply
  rw [removeCheck_of_le hle]
  cases o.kind with
  | add => simp only [addCheck_of_ne hne]
  | update => simp only [updateCheck_of_ne hne]
  | rem => rfl

/-- The local history: the operation acts. -/
theorem apply_join (heq : o.t.vector = h.current.vector) :
    h.apply o = { h with pid := actPid h.pid o } := by
  unfold apply actPid
  rw [removeCheck_of_le heq.le]
  cases o.kind with
  | add =>
      simp only [addCheck_of_eq heq]
      split <;> rfl
  | update => simp only [updateCheck_of_eq heq]
  | rem => rfl

/-- A history beyond the local one that does not contain it: the element
is removed. -/
theorem apply_reset (hle : ¬ o.t.vector ≤ h.current.vector)
    (hge : ¬ h.current.vector ≤ o.t.vector) : h.apply o = h.rmvFunc o.t := by
  have hne : o.t.vector ≠ (h.rmvFunc o.t).current.vector := by
    rw [rmvFunc_current, vcUpdate_vector]
    exact fun hcon => hge (le_sup_left.trans hcon.ge)
  unfold apply
  rw [removeCheck_of_not_le hle]
  cases o.kind with
  | add => simp only [addCheck_of_ne hne]
  | update => simp only [updateCheck_of_ne hne]
  | rem => rfl

/-- A history beyond the local one that contains it: the element is
removed and the operation acts. -/
theorem apply_next (hle : ¬ o.t.vector ≤ h.current.vector)
    (hge : h.current.vector ≤ o.t.vector) :
    h.apply o = { h.rmvFunc o.t with pid := actPid pidNexist o } := by
  have heq : o.t.vector = (h.rmvFunc o.t).current.vector := by
    rw [rmvFunc_current, vcUpdate_vector]
    exact (sup_eq_right.mpr hge).symm
  unfold apply actPid
  rw [removeCheck_of_not_le hle]
  cases o.kind with
  | add =>
      show (addCheck (h.rmvFunc o.t) o.t).1 = _
      rw [addCheck_of_eq heq, rmvFunc_pid]
      by_cases hlt : pidNexist < (o.t.id : ℤ)
      · simp only [if_pos hlt]
      · rw [if_neg hlt, if_neg hlt]
        rfl
  | update => simp only [updateCheck_of_eq heq, rmvFunc_pid]
  | rem => rfl

/-- The history after an operation, whatever it does. -/
theorem apply_current : (h.apply o).current = vcUpdate h.current o.t := by
  by_cases hle : o.t.vector ≤ h.current.vector
  · have hsame : vcUpdate h.current o.t = h.current := by
      rcases hc : h.current with ⟨v, i⟩
      rw [hc] at hle
      have hvec := vcUpdate_vector (⟨v, i⟩ : Vc n) o.t
      rw [sup_eq_left.mpr hle] at hvec
      exact congrArg (fun w => (⟨w, i⟩ : Vc n)) hvec
    rw [hsame]
    by_cases heq : o.t.vector = h.current.vector
    · rw [apply_join h o heq]
    · rw [apply_stay h o hle heq]
  · by_cases hge : h.current.vector ≤ o.t.vector
    · rw [apply_next h o hle hge, rmvFunc_current]
    · rw [apply_reset h o hle hge, rmvFunc_current]

/-- The header follows the epoch discipline. -/
theorem resets : Resets (fun o : RehOp n => o.t.vector)
    (fun h : Reh n => h.current.vector) Reh.pid pidNexist actPid apply where
  cur_step := fun h o => by rw [apply_current, vcUpdate_vector]
  body_stay := fun h o hle hne => by rw [apply_stay h o hle hne]
  body_join := fun h o heq => by rw [apply_join h o heq]
  body_reset := fun h o hle hge => by rw [apply_reset h o hle hge, rmvFunc_pid]
  body_next := fun h o hle hge => by rw [apply_next h o hle hge]

end Reh

-- ================================================== the id in an epoch

section

variable {pid : ℤ} (o : RehOp n)

theorem le_actPid (hlow : -2 ≤ pid) : -2 ≤ Reh.actPid pid o := by
  have hid : (0 : ℤ) ≤ (o.t.id : ℤ) := Int.natCast_nonneg _
  unfold Reh.actPid pidNexist pidWaitInnate
  cases o.kind <;> simp only <;> try split
  all_goals omega

theorem actPid_ne_nexist :
    Reh.actPid pid o ≠ pidNexist ↔ pid ≠ pidNexist ∨ o.kind ≠ .rem := by
  have hid : (0 : ℤ) ≤ (o.t.id : ℤ) := Int.natCast_nonneg _
  unfold Reh.actPid pidNexist pidWaitInnate
  cases o.kind <;> simp <;> split <;> omega

/-- Ids only grow: only the two markers below zero give way. -/
theorem le_actPid_of_le {x : ℤ} (hx : 0 ≤ x) (hle : x ≤ pid) :
    x ≤ Reh.actPid pid o := by
  unfold Reh.actPid pidNexist pidWaitInnate
  cases o.kind <;> simp only <;> try split
  all_goals omega

theorem id_le_actPid (hadd : o.kind = .add) : (o.t.id : ℤ) ≤ Reh.actPid pid o := by
  unfold Reh.actPid
  rw [hadd]
  simp only
  split <;> omega

end

/-- The id after the operations of one epoch: set if one of them is an
add or an update, and at least the id of every add. -/
theorem foldl_actPid (l : List (RehOp n)) :
    -2 ≤ l.foldl Reh.actPid pidNexist ∧
      (l.foldl Reh.actPid pidNexist ≠ pidNexist ↔ ∃ o ∈ l, o.kind ≠ .rem) ∧
      ∀ o ∈ l, o.kind = .add → (o.t.id : ℤ) ≤ l.foldl Reh.actPid pidNexist := by
  induction l using List.reverseRecOn with
  | nil => simp [pidNexist]
  | append_singleton l o ih =>
      obtain ⟨hlow, hiff, hmax⟩ := ih
      rw [List.foldl_append, List.foldl_cons, List.foldl_nil]
      refine ⟨le_actPid o hlow, ?_, ?_⟩
      · rw [actPid_ne_nexist o, hiff]
        simp [or_and_right, exists_or]
      · intro x hx hxa
        rcases List.mem_append.mp hx with hx | hx
        · exact le_actPid_of_le o (Int.natCast_nonneg _) (hmax x hx hxa)
        · rw [List.mem_singleton.mp hx] at hxa ⊢
          exact id_le_actPid o hxa

-- ============================================== the header by itself

/-- An element reduced to its header. -/
def rehService : Service n (Reh n) RehKind (RehOp n) where
  init := Reh.new
  prepare := fun _ kind h =>
    match kind with
    | .add => if h.exist then some (h, none) else some (h, some ⟨.add, h.current⟩)
    | .update => if h.exist then some (h, some ⟨.update, h.current⟩) else some (h, none)
    | .rem => if h.exist then some (h, some ⟨.rem, vcNow h.current⟩) else some (h, none)
  effect := fun _ o h => some (h.apply o)

/-- A family whose records have a header, reduced to it. -/
theorem ElemType.reh {R Cl O : Type} (E : ElemType n R Cl O) {header : R → Reh n}
    {toReh : O → RehOp n} (hnew : ∀ me, header (E.table.new me) = Reh.new me)
    (hissue : ∀ {r c e e' o}, E.issue r c e = some (e', o) →
      ∃ kind, rehService.prepare r kind (header e) = some (header e', some (toReh o)))
    (hact : ∀ o e, header (E.act o e).1 = (header e).apply (toReh o))
    {k : Config n (R × Option Score) O} (hk : Reachable E.service (.once fun _ => True) k) :
    Reachable rehService (.once fun _ => True) (k.map (fun s => header s.1) toReh) := by
  refine hk.map _ _ hnew ?_ ?_ ?_
  · intro r c s s' _ hp
    rcases ElemType.service_prepare hp with ⟨rfl, -⟩ | ⟨e, o, -, -, hm⟩
    · rfl
    · cases hm
  · intro r c s s' m _ hp
    rcases ElemType.service_prepare hp with ⟨-, hm⟩ | ⟨e, o, hi, rfl, hm⟩
    · cases hm
    · obtain rfl := Option.some.inj hm
      obtain ⟨kind, hkind⟩ := hissue hi
      exact ⟨kind, trivial, hkind⟩
  · intro r o s s' he
    obtain rfl := Option.some.inj he
    exact congrArg some (hact o s.1).symm

/-- What an accepted command broadcasts. -/
theorem rehService_issue {r : Fin n} {kind : RehKind} {h h' : Reh n} {o : RehOp n}
    (hp : rehService.prepare r kind h = some (h', some o)) :
    h' = h ∧ o.kind = kind ∧ (h.exist = false ↔ kind = .add) ∧
      o.t = if kind = .rem then vcNow h.current else h.current := by
  cases kind <;> simp only [rehService] at hp <;> split at hp
  all_goals
    simp only [Option.some.injEq, Prod.mk.injEq, reduceCtorEq, and_false] at hp
  all_goals
    obtain ⟨rfl, rfl⟩ := hp
    simp_all

/-- `ts` joined, entry by entry: the greatest entries, zero if there is
nothing to join. -/
structure IsPointwiseMax (ts : List (Fin n → ℤ)) (m : Fin n → ℤ) : Prop where
  le : ∀ t ∈ ts, t ≤ m
  attained : ∀ i, ts = [] ∧ m i = 0 ∨ ∃ t ∈ ts, t i = m i

/-- The pointwise maximum depends on what is joined only. -/
theorem IsPointwiseMax.congr {ts ts' : List (Fin n → ℤ)} {m m' : Fin n → ℤ}
    (h : IsPointwiseMax ts m) (h' : IsPointwiseMax ts' m')
    (hmem : ∀ t, t ∈ ts ↔ t ∈ ts') : m = m' := by
  have hle : ∀ {us us' : List (Fin n → ℤ)} {a a' : Fin n → ℤ}, IsPointwiseMax us a →
      IsPointwiseMax us' a' → (∀ t, t ∈ us ↔ t ∈ us') → a ≤ a' := by
    intro us us' a a' ha ha' hus i
    rcases ha.attained i with ⟨hnil, hzero⟩ | ⟨t, ht, hti⟩
    · subst hnil
      rcases ha'.attained i with ⟨-, hzero'⟩ | ⟨t, ht, -⟩
      · exact (hzero.trans hzero'.symm).le
      · exact absurd ((hus t).mpr ht) List.not_mem_nil
    · rw [← hti]
      exact ha'.le t ((hus t).mp ht) i
  exact le_antisymm (hle h h' hmem) (hle h' h fun t => (hmem t).symm)

theorem top_isPointwiseMax {α : Type} (stamp : α → Fin n → ℤ) (l : List α)
    (h0 : ∀ a ∈ l, 0 ≤ stamp a) :
    IsPointwiseMax (l.map stamp) (top stamp 0 l) := by
  constructor
  · intro t ht
    obtain ⟨a, ha, rfl⟩ := List.mem_map.mp ht
    exact stamp_le_top ha
  · intro i
    induction l using List.reverseRecOn with
    | nil => exact Or.inl ⟨rfl, rfl⟩
    | append_singleton l a ih =>
        right
        have hlast : stamp a ∈ (l ++ [a]).map stamp := by simp
        rw [top_append_singleton]
        rcases le_total (top stamp 0 l i) (stamp a i) with hle | hle
        · exact ⟨stamp a, hlast, (max_eq_right hle).symm⟩
        · have hmax : (top stamp 0 l ⊔ stamp a) i = top stamp 0 l i := max_eq_left hle
          rcases ih fun b hb => h0 b (List.mem_append_left _ hb) with ⟨-, hz⟩ | ⟨t, ht, hti⟩
          · -- the join so far is zero, and a stamp is not below it
            have ha := h0 a (by simp) i
            refine ⟨stamp a, hlast, ?_⟩
            rw [hmax]
            exact le_antisymm hle (hz ▸ ha)
          · refine ⟨t, ?_, hti.trans hmax.symm⟩
            rw [List.map_append]
            exact List.mem_append_left _ ht

section Runs

variable {allowed : RehKind → Prop} {k : Config n (Reh n) (RehOp n)}

/-- The header at a server is the fold of what was applied there. -/
theorem reh_fold (hk : Reachable rehService (.once allowed) k) (r : Fin n) :
    k.site r = ((k.got r).map Op.msg).foldl Reh.apply (Reh.new r) := by
  refine hk.fold (fun _ h => h) (fun _ => Reh.apply) ?_ ?_ r
  · intro r kind h h' m _ hp
    cases kind <;> simp only [rehService] at hp <;> split at hp <;>
      exact (congrArg Prod.fst (Option.some.inj hp)).symm
  · intro r m h h' _ he
    exact (Option.some.inj he).symm

/-- The local history is the join of what was applied; the clock stays
the server's own. -/
theorem reh_current (hk : Reachable rehService (.once allowed) k) (r : Fin n) :
    (k.site r).current.vector
        = top (fun o : RehOp n => o.t.vector) 0 ((k.got r).map Op.msg) ∧
      (k.site r).current.id = r := by
  rw [reh_fold hk r]
  refine ⟨Reh.resets.cur_foldl _ _, ?_⟩
  induction (k.got r).map Op.msg using List.reverseRecOn with
  | nil => rfl
  | append_singleton l o ih =>
      rw [List.foldl_append, List.foldl_cons, List.foldl_nil, Reh.apply_current]
      exact ih

theorem top_nonneg {α : Type} (stamp : α → Fin n → ℤ) (l : List α) :
    0 ≤ top stamp 0 l := by
  induction l using List.reverseRecOn with
  | nil => exact le_rfl
  | append_singleton l a ih =>
      rw [top_append_singleton]
      exact ih.trans le_sup_left

/-- Histories never have a negative entry, and carry their issuer's
id. -/
theorem reh_stamp (hk : Reachable rehService (.once allowed) k) :
    ∀ o ∈ k.sent, 0 ≤ o.msg.t.vector ∧ o.msg.t.id = o.src := by
  refine hk.sent_forall ?_
  intro k r kind h m u hr _ _ hp
  obtain ⟨-, -, -, ht⟩ := rehService_issue hp
  obtain ⟨hcur, hid⟩ := reh_current hr r
  have hnonneg : 0 ≤ (k.site r).current.vector := hcur ▸ top_nonneg _ _
  show 0 ≤ m.t.vector ∧ m.t.id = r
  rw [ht]
  split
  · exact ⟨hnonneg.trans (le_vcNow _), hid⟩
  · exact ⟨hnonneg, hid⟩

/-- The local history is the pointwise maximum of the histories of the
operations applied. -/
theorem reh_current_max (hk : Reachable rehService (.once allowed) k) (r : Fin n) :
    IsPointwiseMax ((k.got r).map fun o => o.msg.t.vector)
      (k.site r).current.vector := by
  have hmax := top_isPointwiseMax (fun o : RehOp n => o.t.vector)
    ((k.got r).map Op.msg) (by
      intro m hm
      obtain ⟨o, ho, rfl⟩ := List.mem_map.mp hm
      exact (reh_stamp hk o (hk.ledger.got_sent r o ho)).1)
  rw [List.map_map] at hmax
  rw [(reh_current hk r).1]
  exact hmax

/-- The element exists exactly where an add or an update with the local
history was applied. -/
theorem reh_exist_iff (hk : Reachable rehService (.once allowed) k) (r : Fin n) :
    (k.site r).exist = true ↔ ∃ o ∈ k.got r, o.msg.kind ≠ .rem ∧
      o.msg.t.vector = (k.site r).current.vector := by
  have hpid : (k.site r).pid = (live (fun o : RehOp n => o.t.vector) 0
      ((k.got r).map Op.msg)).foldl Reh.actPid pidNexist := by
    rw [reh_fold hk r]
    exact Reh.resets.body_foldl rfl _
  rw [Reh.exist, decide_eq_true_iff, hpid, (foldl_actPid _).2.1,
    (reh_current hk r).1]
  constructor
  · rintro ⟨m, hm, hkind⟩
    obtain ⟨hmem, htop⟩ := mem_live.mp hm
    obtain ⟨o, ho, rfl⟩ := List.mem_map.mp hmem
    exact ⟨o, ho, hkind, htop⟩
  · rintro ⟨o, ho, hkind, htop⟩
    exact ⟨o.msg, mem_live.mpr ⟨List.mem_map.mpr ⟨o, ho, rfl⟩, htop⟩, hkind⟩

/-- No server issues two adds with one history: the first makes the
element exist there as long as the history stays. -/
theorem reh_add_unique (hk : Reachable rehService (.once allowed) k) :
    ∀ a ∈ k.sent, ∀ b ∈ k.sent, a.msg.kind = .add → b.msg.kind = .add →
      a.src = b.src → a.msg.t.vector = b.msg.t.vector → a = b := by
  have hpair := hk.sent_pairs (Q := fun a b => a.msg.kind = .add →
      b.msg.kind = .add → a.src = b.src → a.msg.t.vector ≠ b.msg.t.vector) <| by
    intro k r kind h m u hr _ hp a ha hak hbk hsrc heq
    obtain ⟨-, hkind, hex, ht⟩ := rehService_issue hp
    have hadd : kind = .add := hkind ▸ hbk
    subst hadd
    have hown : a ∈ k.got r := by
      have hgot := hr.ledger.own_got a ha
      rwa [show a.src = r from hsrc] at hgot
    have hexist : (k.site r).exist = true := by
      refine (reh_exist_iff hr r).mpr ⟨a, hown, by simp [hak], ?_⟩
      rw [heq]
      exact congrArg Vc.vector ht
    rw [hex.mpr rfl] at hexist
    cases hexist
  intro a ha b hb hak hbk hsrc heq
  by_contra hne
  rcases hpair a ha b hb hne with h | h
  · exact h hak hbk hsrc heq
  · exact h hbk hak hsrc.symm heq.symm

end Runs

end CrdtRedis
