/-
The add-wins priority queue: servers that have applied the same operations
on an element, with the adds of all tags they increment, hold the same
entries and the same score.

The record is a function of the operations up to its pointers
(`OzHolds`). Once every tag has its add, the bound on `innate` is a bound
on all entries, so `innate` is the greatest tag; `acquired` is the entry
that counts wherever one counts, and where none does it may be any entry
or null, and contributes zero either way.
-/
import Mathlib.Algebra.BigOperators.Group.List.Basic
import Mathlib.Algebra.Order.BigOperators.Group.Multiset
import CrdtRedis.Ori.ZsetRecord

namespace CrdtRedis

open Replication

variable {n : ℕ}

-- =============================================== what an entry contains

namespace OzOp

/-- What an operation adds to the increments of tag `t`. -/
def incOn (t : Lc) : OzOp → ℤ
  | incrby v tags => if t ∈ tags then v else 0
  | _ => 0

/-- Tags are added once. -/
def AddsOnce (D : List OzOp) : Prop :=
  ∀ v w t, add v t ∈ D → add w t ∈ D → v = w

variable {D D' : List OzOp} {t : Lc}

theorem content_t : (content D t).t = t := by
  induction D using List.reverseRecOn with
  | nil => rfl
  | append_singleton D o ih =>
      rw [content_snoc]
      cases o <;> simp only [on] <;> (try split) <;> exact ih

/-- The sums of an entry. -/
theorem content_sums : (content D t).inc = (D.map (incOn t)).sum ∧
    (content D t).count = (D.map fun o => |incOn t o|).sum := by
  induction D using List.reverseRecOn with
  | nil => exact ⟨rfl, rfl⟩
  | append_singleton D o ih =>
      obtain ⟨hinc, hcount⟩ := ih
      simp only [content_snoc, List.map_append, List.sum_append, List.map_singleton,
        List.sum_singleton, ← hinc, ← hcount]
      cases o with
      | add v u =>
          simp only [on, incOn, abs_zero, add_zero]
          split <;> exact ⟨rfl, rfl⟩
      | incrby v tags =>
          simp only [on, incOn]
          split
          · exact ⟨rfl, rfl⟩
          · simp
      | rem tags => simp [on, incOn]

/-- An operation that is not an add of the tag leaves its value. -/
theorem on_x {o : OzOp} (ho : ∀ v, o ≠ add v t) (a : OzAse) : (on t a o).x = a.x := by
  cases o with
  | add v u =>
      have hu : u ≠ t := fun hut => ho v (by rw [hut])
      rw [show on t a (add v u) = a from if_neg hu]
  | incrby v tags =>
      simp only [on]
      split <;> rfl
  | rem tags => rfl

/-- The value of an entry is the value of an add. -/
theorem mem_of_content_x {v : ℤ} (h : (content D t).x = some v) : add v t ∈ D := by
  induction D using List.reverseRecOn with
  | nil => cases h
  | append_singleton D o ih =>
      rw [content_snoc] at h
      by_cases ho : ∃ w, o = add w t
      · obtain ⟨w, rfl⟩ := ho
        rw [show on t (content D t) (add w t) = (content D t).assign w from if_pos rfl] at h
        rw [← show w = v from Option.some.inj h]
        simp
      · rw [on_x (fun w hw => ho ⟨w, hw⟩)] at h
        exact List.mem_append_left _ (ih h)

/-- A tag that is added has a value. -/
theorem content_x_ne_none {v : ℤ} (h : add v t ∈ D) : (content D t).x ≠ none := by
  induction D using List.reverseRecOn with
  | nil => cases h
  | append_singleton D o ih =>
      rw [content_snoc]
      by_cases ho : ∃ w, o = add w t
      · obtain ⟨w, rfl⟩ := ho
        rw [show on t (content D t) (add w t) = (content D t).assign w from if_pos rfl]
        simp [OzAse.assign]
      · rw [on_x (fun w hw => ho ⟨w, hw⟩)]
        refine ih ((List.mem_append.mp h).resolve_right fun hv => ho ⟨v, ?_⟩)
        exact (List.mem_singleton.mp hv).symm

/-- The value of an entry. -/
theorem content_x (honce : AddsOnce D) (v : ℤ) :
    (content D t).x = some v ↔ add v t ∈ D := by
  refine ⟨mem_of_content_x, fun h => ?_⟩
  obtain ⟨w, hw⟩ := Option.ne_none_iff_exists'.mp (content_x_ne_none h)
  rw [hw, honce v w t h (mem_of_content_x hw)]

/-- Without a count there is no increment. -/
theorem inc_eq_zero (h : (content D t).count ≤ 0) : (content D t).inc = 0 := by
  rw [content_sums.2] at h
  rw [content_sums.1]
  have habs : |(D.map (incOn t)).sum| ≤ ((D.map (incOn t)).map abs).sum := by
    have := Multiset.abs_sum_le_sum_abs (s := (D.map (incOn t) : Multiset ℤ))
    simpa using this
  rw [List.map_map] at habs
  exact abs_nonpos_iff.mp (habs.trans h)

/-- The order of the operations does not matter to an entry. -/
theorem content_perm (hperm : D.Perm D') (honce : AddsOnce D) :
    content D t = content D' t := by
  have honce' : AddsOnce D' := fun v w t hv hw =>
    honce v w t (hperm.mem_iff.mpr hv) (hperm.mem_iff.mpr hw)
  refine OzAse.ext (content_t.trans content_t.symm) ?_ ?_ ?_
  · ext v
    rw [content_x honce, content_x honce', hperm.mem_iff]
  · rw [content_sums.1, content_sums.1, (hperm.map _).sum_eq]
  · rw [content_sums.2, content_sums.2, (hperm.map _).sum_eq]

end OzOp

/-- The order of the operations does not matter to what a record holds. -/
theorem OzHolds.perm {D D' : List OzOp} {e : Oze} (h : OzHolds D e) (hperm : D.Perm D')
    (honce : OzOp.AddsOnce D) : OzHolds D' e := by
  refine h.congr ?_ ?_ ?_
  · intro t
    simp only [OzOp.Touched, hperm.mem_iff]
  · intro t
    simp only [OzOp.Listed, hperm.mem_iff]
  · exact funext fun t => OzOp.content_perm hperm honce

-- ======================================================= the metadata

/-- What a record holds after the operations `M`, which add every tag they
increment. -/
structure OzMetadata (M : List OzOp) (e : Oze) : Prop where
  nodup : e.tags.Nodup
  tags : ∀ t, t ∈ e.tags ↔ (∃ v, .add v t ∈ M) ∧ ¬ OzOp.Listed M t
  x : ∀ a ∈ e.aset, ∀ v, a.x = some v ↔ .add v a.t ∈ M
  assigned : ∀ a ∈ e.aset, a.x ≠ none
  inc : ∀ a ∈ e.aset, a.inc = (M.map (OzOp.incOn a.t)).sum
  count : ∀ a ∈ e.aset, a.count = (M.map fun o => |OzOp.incOn a.t o|).sum
  innate_none : e.innate = none ↔ e.aset = []
  innate_some : ∀ t, e.innate = some t →
    t ∈ e.tags ∧ ∀ u ∈ e.tags, u ≠ t → u.TagLt t
  acquired : (∃ a ∈ e.aset, 0 < a.count) → ∃ q ∈ e.aset,
    (∀ a ∈ e.aset, a.t ≠ q.t → RankLt a.rank q.rank) ∧ e.acquiredInc = some q.inc
  unacquired : (∀ a ∈ e.aset, ¬ 0 < a.count) → e.acquiredInc = some 0

/-- The operations add every tag they increment. -/
def OzOp.Closed (M : List OzOp) : Prop :=
  ∀ v tags, incrby v tags ∈ M → ∀ t ∈ tags, ∃ w, add w t ∈ M

section

variable {M : List OzOp} {e e' : Oze}

theorem OzOp.Closed.touched (h : OzOp.Closed M) {t : Lc} :
    OzOp.Touched M t ↔ ∃ v, .add v t ∈ M := by
  constructor
  · intro ⟨o, ho, ht⟩
    cases o with
    | add v u =>
        obtain rfl : t = u := ht
        exact ⟨v, ho⟩
    | incrby v tags => exact h v tags ho t ht
    | rem tags => exact ht.elim
  · intro ⟨v, hv⟩
    exact ⟨_, hv, rfl⟩

/-- What `acquired` contributes. -/
theorem OzHolds.acquiredInc (h : OzHolds M e) :
    (e.acquired = none ∧ e.acquiredInc = some 0) ∨
      ∃ q ∈ e.tags, e.acquired = some q ∧ e.acquiredInc = some (OzOp.content M q).inc := by
  unfold Oze.acquiredInc
  cases hq : e.acquired with
  | none => exact Or.inl ⟨rfl, rfl⟩
  | some q =>
      have hmem := h.acquired_names q hq
      refine Or.inr ⟨q, hmem, rfl, ?_⟩
      show (e.asetGet q).map OzAse.inc = _
      rw [h.asetGet hmem]
      rfl

/-- Where an entry counts, `acquired` points to the one that counts
most. -/
theorem OzHolds.acquired_greatest (h : OzHolds M e) (hpos : ∃ a ∈ e.aset, 0 < a.count) :
    ∃ q ∈ e.aset, (∀ a ∈ e.aset, a.t ≠ q.t → RankLt a.rank q.rank) ∧
      e.acquiredInc = some q.inc := by
  obtain ⟨b, hb, hbpos⟩ := hpos
  have hbounds := h.acquired
  rcases h.acquiredInc with ⟨hnone, -⟩ | ⟨q, hmem, hq, hinc⟩
  · rw [hnone] at hbounds
    exact absurd hbpos (hbounds.of_none b hb)
  · rw [hq, Option.map_some] at hbounds
    refine ⟨OzOp.content M q, h.mem_content hmem, ?_, hinc⟩
    intro a ha hne
    by_cases hapos : 0 < a.count
    · by_contra hlt
      exact hne (RankLt.antisymm hlt (hbounds.of_some.2 a ha hapos))
    · -- the one that counts most counts
      have hle : b.count ≤ (OzOp.content M q).count :=
        not_lt.mp fun hlt => hbounds.of_some.2 b hb hbpos (Or.inl hlt)
      exact Or.inl ((not_lt.mp hapos).trans_lt (hbpos.trans_le hle))

/-- Where none counts, it contributes nothing. -/
theorem OzHolds.acquired_zero (h : OzHolds M e) (hzero : ∀ a ∈ e.aset, ¬ 0 < a.count) :
    e.acquiredInc = some 0 := by
  rcases h.acquiredInc with ⟨-, hinc⟩ | ⟨q, hmem, -, hinc⟩
  · exact hinc
  · rw [hinc, OzOp.inc_eq_zero (not_lt.mp (hzero _ (h.mem_content hmem)))]

theorem OzHolds.metadata (h : OzHolds M e) (honce : OzOp.AddsOnce M)
    (hclosed : OzOp.Closed M) : OzMetadata M e := by
  have hx : ∀ a ∈ e.aset, ∀ v, a.x = some v ↔ .add v a.t ∈ M := by
    intro a ha v
    rw [((h.entries a).mp ha).2, OzOp.content_x honce, OzOp.content_t]
  have hassigned : ∀ a ∈ e.aset, a.x ≠ none := by
    intro a ha
    obtain ⟨v, hv⟩ := hclosed.touched.mp ((h.entries a).mp ha).1.1
    rw [(hx a ha v).mpr hv]
    simp
  -- every entry has its value, so the bound is a largest entry
  have hlargest := h.innate.largest hassigned
  refine ⟨h.nodup, ?_, hx, hassigned, ?_, ?_, hlargest.eq_none_iff, ?_,
    h.acquired_greatest, h.acquired_zero⟩
  · intro t
    rw [h.mem_tags, hclosed.touched]
  · intro a ha
    rw [((h.entries a).mp ha).2, OzOp.content_sums.1, OzOp.content_t]
  · intro a ha
    rw [((h.entries a).mp ha).2, OzOp.content_sums.2, OzOp.content_t]
  · intro t ht
    refine ⟨h.innate_names t ht, ?_⟩
    intro u hu hne
    obtain ⟨a, ha, rfl⟩ := List.mem_map.mp hu
    by_contra hlt
    exact hne (Lc.TagLt.antisymm hlt ((ht ▸ hlargest).of_some.2 a ha))

/-- Two records after the same operations have the same score. -/
theorem OzHolds.score_eq (h : OzHolds M e) (h' : OzHolds M e') (honce : OzOp.AddsOnce M)
    (hclosed : OzOp.Closed M) : e.score = e'.score := by
  have hm := h.metadata honce hclosed
  have hm' := h'.metadata honce hclosed
  have hmem : ∀ a, a ∈ e.aset ↔ a ∈ e'.aset := fun a =>
    (h.entries a).trans (h'.entries a).symm
  have hinnate : e.innateX = e'.innateX := by
    unfold Oze.innateX
    cases hi : e.innate with
    | none =>
        have hnil : e'.aset = [] := by
          refine List.eq_nil_iff_forall_not_mem.mpr fun a ha => ?_
          rw [← hmem, hm.innate_none.mp hi] at ha
          cases ha
        rw [hm'.innate_none.mpr hnil]
    | some t =>
        obtain ⟨ht, hmax⟩ := hm.innate_some t hi
        cases hi' : e'.innate with
        | none =>
            have hnil := hm'.innate_none.mp hi'
            obtain ⟨a, ha, -⟩ := List.mem_map.mp ht
            rw [hmem, hnil] at ha
            cases ha
        | some u =>
            obtain ⟨hu, hmax'⟩ := hm'.innate_some u hi'
            have htags : ∀ t, t ∈ e.tags ↔ t ∈ e'.tags := fun t =>
              (hm.tags t).trans (hm'.tags t).symm
            obtain rfl : t = u := by
              by_contra hne
              exact Lc.TagLt.irrefl t ((hmax' t ((htags t).mp ht) hne).trans
                (hmax u ((htags u).mpr hu) (Ne.symm hne)))
            show (e.asetGet t).bind OzAse.x = (e'.asetGet t).bind OzAse.x
            rw [h.asetGet ht, h'.asetGet hu]
  have hacquired : e.acquiredInc = e'.acquiredInc := by
    by_cases hpos : ∃ a ∈ e.aset, 0 < a.count
    · obtain ⟨q, hq, hmax, hinc⟩ := hm.acquired hpos
      obtain ⟨a, ha, hapos⟩ := hpos
      obtain ⟨q', hq', hmax', hinc'⟩ := hm'.acquired ⟨a, (hmem a).mp ha, hapos⟩
      have htag : q.t = q'.t := by
        by_contra hne
        exact RankLt.irrefl _ ((hmax' q ((hmem q).mp hq) hne).trans
          (hmax q' ((hmem q').mpr hq') (Ne.symm hne)))
      rw [hinc, hinc', ((h.entries q).mp hq).2, ((h'.entries q').mp hq').2, htag]
    · have hzero : ∀ a ∈ e.aset, ¬ 0 < a.count := fun a ha hcon => hpos ⟨a, ha, hcon⟩
      rw [hm.unacquired hzero, hm'.unacquired fun a ha => hzero a ((hmem a).mpr ha)]
  rw [Oze.score, Oze.score, hinnate, hacquired]

end

-- =================================================== the object in runs

section Network

variable {k : Config n (Oze × Option Score) OzOp} {pol : Policy n (Oze × Option Score) OzReq OzOp}

/-- No operation touches the counter the tags are taken from. -/
theorem Oze.act_current (o : OzOp) (e : Oze) : (o.act e).1.current = e.current := by
  cases o with
  | add v t =>
      have hupd : (e.updateInnateValue t v).1.current = e.current := by
        by_cases hr : t ∈ e.rset
        · rw [show e.updateInnateValue t v = (e, false) from
            if_pos (Oze.rsetGet_isSome.mpr hr)]
        · rw [(Oze.updateInnateValue_of_not hr v).1]
          rfl
      simp only [OzOp.act, Oze.addEffect]
      split <;> next h => exact (congrArg (fun p => p.1.current) h).symm.trans hupd
  | incrby v tags =>
      have hupd : ∀ (e : Oze) (t : Lc), (e.updateAcquiredValue t v).1.current = e.current := by
        intro e t
        simp only [Oze.updateAcquiredValue, Oze.modifyAse_addAse]
        generalize (fun a : OzAse =>
          { a with inc := a.inc + v, count := a.count + if 0 < v then v else -v }) = f
        split
        · rfl
        · split
          · rfl
          · split
            · rfl
            · split <;> rfl
      have htags : ∀ p : Oze × Bool,
          (tags.foldl (Oze.incrbyLoop v) p).1.current = p.1.current := by
        induction tags with
        | nil => exact fun _ => rfl
        | cons t tags ih => exact fun p => (ih _).trans (hupd p.1 t)
      simp only [OzOp.act, Oze.incrbyEffect]
      split <;> next h => exact (congrArg (fun p => p.1.current) h).symm.trans (htags (e, false))
  | rem tags =>
      have hsort : ∀ e : Oze, e.resort.current = e.current := by
        intro e
        unfold Oze.resort
        split <;> rfl
      have htags : (tags.foldl Oze.removeTag e).current = e.current :=
        Oze.tagRecord.removeTags_current tags
      simp only [OzOp.act, Oze.remEffect]
      split
      · split <;> exact (hsort _).trans htags
      · exact htags

/-- Adds take fresh tags. -/
theorem oz_tagging : Tagging (ozType (n := n)) Oze.current OzOp.tag where
  issue := by
    intro me c e e' o hissue
    rcases ozIssue_cases hissue with ⟨v, rfl, rfl⟩ | ⟨ho, rfl⟩
    · exact ⟨(lt_add_one _).le, fun t ht => ⟨(Option.some.inj ht).symm, lt_add_one _⟩⟩
    · refine ⟨le_rfl, fun t ht => ?_⟩
      rcases ho with rfl | ⟨v, rfl⟩ <;> cases ht
  act := Oze.act_current

/-- A server adds a tag once. -/
theorem oz_adds_once (hk : Reachable ozType.service pol k) (r : Fin n) :
    OzOp.AddsOnce ((k.got r).map Op.msg) := by
  intro v w t hv hw
  obtain ⟨a, ha, hav⟩ := List.mem_map.mp hv
  obtain ⟨b, hb, hbw⟩ := List.mem_map.mp hw
  have hab := oz_tagging.distinct hk a (hk.ledger.got_sent r a ha) b
    (hk.ledger.got_sent r b hb) t (by rw [hav]; rfl) (by rw [hbw]; rfl)
  rw [hab, hbw] at hav
  exact (OzOp.add.inj hav).1.symm

/-- Increments list no tag twice. -/
def OzOp.ListsOnce (o : OzOp) : Prop := ∀ v tags, o = .incrby v tags → tags.Nodup

/-- Every server holds what it applied says, if increments list no tag
twice. -/
theorem oz_holds_of (hk : Reachable ozType.service pol k)
    (hlists : ∀ o ∈ k.sent, o.msg.ListsOnce) (r : Fin n) :
    OzHolds ((k.got r).map Op.msg) (k.site r).1 := by
  refine hk.got_forall (I := fun _ s l => (∀ o ∈ l, o.msg.ListsOnce) →
    OzHolds (l.map Op.msg) s.1) ?_ ?_ ?_ r ?_
  · exact fun _ _ => .new
  · intro r c s s' m l _ ih hp hl
    have h := ih hl
    rcases ElemType.service_prepare hp with ⟨rfl, -⟩ | ⟨e, o, hissue, rfl, -⟩
    · exact h
    · rcases ozIssue_cases hissue with ⟨v, -, rfl⟩ | ⟨-, rfl⟩
      · exact ⟨⟨h.toContents, h.nodup, h.entries, h.rset⟩, h.innate, h.acquired⟩
      · exact h
  · intro r s s' l o _ ih he hl
    have h := ih fun o ho => hl o (List.mem_append_left _ ho)
    have ho := hl o (List.mem_append_right _ List.mem_cons_self)
    obtain rfl := Option.some.inj he
    rw [List.map_append, List.map_singleton]
    cases hmsg : o.msg with
    | add v t => exact h.add v t
    | incrby v tags => exact h.incrby v (ho v tags hmsg)
    | rem tags => exact h.rem tags
  · exact fun o ho => hlists o (hk.ledger.got_sent r o ho)

theorem oz_lists_once (hk : Reachable ozType.service pol k) :
    ∀ o ∈ k.sent, o.msg.ListsOnce := by
  refine hk.sent_forall (Q := fun o => o.msg.ListsOnce) ?_
  intro k r c s m u hr ih _ hp v tags hmsg
  rcases ElemType.service_prepare hp with ⟨-, hnone⟩ | ⟨e, o, hissue, -, hm⟩
  · cases hnone
  · obtain rfl := Option.some.inj hm
    rcases ozIssue_cases hissue with ⟨w, hadd, -⟩ | ⟨hrem | ⟨w, hinc⟩, -⟩
    · rw [show m = .incrby v tags from hmsg] at hadd
      cases hadd
    · rw [show m = .incrby v tags from hmsg] at hrem
      cases hrem
    · rw [show m = .incrby v tags from hmsg] at hinc
      obtain ⟨-, rfl⟩ := OzOp.incrby.inj hinc
      exact (oz_holds_of hr ih r).nodup

/-- Every server holds what it applied says. -/
theorem oz_holds (hk : Reachable ozType.service pol k) (r : Fin n) :
    OzHolds ((k.got r).map Op.msg) (k.site r).1 :=
  oz_holds_of hk (oz_lists_once hk) r

end Network

-- ========================================================= the network

/-- The commands on add-wins priority queues. -/
def ozCmds : List Cmd := [.ozadd, .ozincrby, .ozrem]

/-- The operations on element `key` of `tname` that server `r` applied. -/
def ozApplied (dbl : String → Option ℤ) (k : Net n) (tname key : String) (r : Fin n) :
    List OzOp :=
  ((ozType.readAt dbl tname key k).got r).map Op.msg

/-- Servers `r` and `r'` hold the metadata of the operations applied at
`r`, and agree on `LOOKUP` and `SCORE`. -/
structure OzConverged (dbl : String → Option ℤ) (k : Net n) (tname key : String)
    (r r' : Fin n) : Prop where
  left : OzMetadata (ozApplied dbl k tname key r) (ozeTable.recordOf r (k.site r) tname key)
  right : OzMetadata (ozApplied dbl k tname key r)
    (ozeTable.recordOf r' (k.site r') tname key)
  lookup : (ozeTable.recordOf r (k.site r) tname key).lookup
    = (ozeTable.recordOf r' (k.site r') tname key).lookup
  score : (ozeTable.recordOf r (k.site r) tname key).score
    = (ozeTable.recordOf r' (k.site r') tname key).score

/-- Metadata convergence: two servers that received the same operations on
an element, among them the add of every tag they increment, hold the same
entries and the same score. -/
theorem oz_metadata_convergence (dbl : String → Option ℤ) {k : Net n}
    (hk : Reachable (crdtService dbl) (.once (Issues ozCmds)) k) (tname key : String)
    (r r' : Fin n)
    (hsame : ∀ o, o ∈ (ozType.readAt dbl tname key k).got r ↔
      o ∈ (ozType.readAt dbl tname key k).got r')
    (hclosed : OzOp.Closed (ozApplied dbl k tname key r)) :
    OzConverged dbl k tname key r r' := by
  have hat := ElemType.reachable_once (E := ozType)
    (by simp [ozCmds, ozType, ozCommand]) hk tname key
  have hnd := hat.got_nodup (fun h => h)
  have hperm := ((List.perm_ext_iff_of_nodup (hnd r') (hnd r)).mpr
    fun o => (hsame o).symm).map Op.msg
  have hholds := oz_holds hat r
  have hholds' := (oz_holds hat r').perm hperm (oz_adds_once hat r')
  have honce := oz_adds_once hat r
  refine ⟨hholds.metadata honce hclosed, hholds'.metadata honce hclosed, ?_,
    hholds.score_eq hholds' honce hclosed⟩
  have hmem : ∀ a, a ∈ (ozeTable.recordOf r (k.site r) tname key).aset ↔
      a ∈ (ozeTable.recordOf r' (k.site r') tname key).aset := fun a =>
    (hholds.entries a).trans (hholds'.entries a).symm
  refine decide_eq_decide.mpr (not_congr ?_)
  simp only [List.eq_nil_iff_forall_not_mem, hmem]

/-- Servers 1 and 2 add the element at the same time; server 2 increments
it on top of both adds, server 1 removes its own. Server 0 has the
increment and the remove before the add of server 2. -/
def ozSchedule : List (Act 3 (List String)) :=
  [.submit 1 ["ozadd", "z", "a", "3"], .submit 2 ["ozadd", "z", "a", "4"],
    .deliver 2 0, .submit 2 ["ozincrby", "z", "a", "5"], .submit 1 ["ozrem", "z", "a"],
    .deliver 0 0, .deliver 0 2, .deliver 0 3, .deliver 0 1, .deliver 2 3]

theorem oz_metadata_convergence_schedule :
    ∃ k : Net 3, Reachable (crdtService getLongLongFromObject) (.once (Issues ozCmds)) k ∧
      (∀ o, o ∈ (ozType.readAt getLongLongFromObject "z" "a" k).got 0 ↔
        o ∈ (ozType.readAt getLongLongFromObject "z" "a" k).got 2) ∧
      (ozeTable.recordOf 0 (k.site 0) "z" "a").score = some 9 ∧
      OzConverged getLongLongFromObject k "z" "a" 0 2 := by
  obtain ⟨k, hrun, hscore, hops, hsub, hsub'⟩ : ∃ k : Net 3,
      (crdtService getLongLongFromObject).run
        (crdtService getLongLongFromObject).start ozSchedule = some k ∧
      (ozeTable.recordOf 0 (k.site 0) "z" "a").score = some 9 ∧
      ozApplied getLongLongFromObject k "z" "a" 0
        = [.add 3 ⟨0, 1⟩, .incrby 5 [⟨0, 2⟩, ⟨0, 1⟩], .rem [⟨0, 1⟩], .add 4 ⟨0, 2⟩] ∧
      (∀ u ∈ ((ozType.readAt getLongLongFromObject "z" "a" k).got 0).map Op.uid,
        u ∈ ((ozType.readAt getLongLongFromObject "z" "a" k).got 2).map Op.uid) ∧
      ∀ u ∈ ((ozType.readAt getLongLongFromObject "z" "a" k).got 2).map Op.uid,
        u ∈ ((ozType.readAt getLongLongFromObject "z" "a" k).got 0).map Op.uid :=
    ⟨_, rfl, by decide, by decide, by decide, by decide⟩
  have hk : Reachable (crdtService getLongLongFromObject) (.once (Issues ozCmds)) k :=
    Service.run_reachable (by decide) hrun
  have hledger := (ElemType.reachable_once (E := ozType)
    (by simp [ozCmds, ozType, ozCommand]) hk "z" "a").ledger
  have hsame : ∀ o, o ∈ (ozType.readAt getLongLongFromObject "z" "a" k).got 0 ↔
      o ∈ (ozType.readAt getLongLongFromObject "z" "a" k).got 2 := fun o =>
    ⟨hledger.got_subset_of_uid hsub o, hledger.got_subset_of_uid hsub' o⟩
  have hclosed : OzOp.Closed (ozApplied getLongLongFromObject k "z" "a" 0) := by
    rw [hops]
    simp [OzOp.Closed]
  exact ⟨k, hk, hsame, hscore, oz_metadata_convergence _ hk "z" "a" 0 2 hsame hclosed⟩

end CrdtRedis
