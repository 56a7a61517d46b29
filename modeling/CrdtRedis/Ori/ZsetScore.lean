/-
The add-wins priority queue: when the sorted set shows the score of the
record.

Every effect writes the sorted set whenever it moves a pointer, except one
way round: `resort` compares `innate` with entries whose add has not
arrived, and may leave it at one. The score is then read from a field
nothing has written, and when the add of that entry arrives, `innate`
already points there and `update_innate_value` reports no change
(`oz_score_unassigned`). In runs where no remove gets there
(`Oze.ResortAssigned`), the sorted set always shows the score
(`oz_score_published`).
-/
import CrdtRedis.Ori.ZsetConvergence

namespace CrdtRedis

open Replication

variable {n : ℕ}

-- =============================================== the score of a record

namespace Oze

variable {T L : Lc → Prop} {c : Lc → OzAse} {e : Oze} {t : Lc}

/-- `SCORE`, read from what the entries contain. -/
def scoreBy (c : Lc → OzAse) (innate acquired : Option Lc) : Score :=
  (innate.elim (some 0) fun i => (c i).x).bind fun x =>
    some (x + acquired.elim 0 fun q => (c q).inc)

theorem Core.score (h : Core T L c e) : e.score = scoreBy c e.innate e.acquired := by
  have hinnate : e.innateX = e.innate.elim (some 0) fun i => (c i).x := by
    unfold innateX
    cases hi : e.innate with
    | none => rfl
    | some i =>
        show (e.asetGet i).bind OzAse.x = _
        rw [h.asetGet (h.innate_names i hi)]
        rfl
  have hacquired : e.acquiredInc = some (e.acquired.elim 0 fun q => (c q).inc) := by
    unfold acquiredInc
    cases hq : e.acquired with
    | none => rfl
    | some q =>
        show (e.asetGet q).map OzAse.inc = _
        rw [h.asetGet (h.acquired_names q hq)]
        rfl
  rw [Oze.score, hinnate, hacquired]
  rfl

/-- The record and the sorted set: `innate` points to an entry with a
value, and the sorted set has the entry `LOOKUP` and `SCORE` tell of. -/
structure Published (c : Lc → OzAse) (s : Oze × Option Score) : Prop where
  assigned : ∀ i, s.1.innate = some i → (c i).x ≠ none
  shown : s.2 = if s.1.lookup then some s.1.score else none

/-- An effect that leaves the sorted set alone is right if it leaves the
score and keeps some entry or none. -/
theorem Published.quiet {c' : Lc → OzAse} {e' : Oze} {s : Oze × Option Score}
    (h : Published c s) (hassigned : ∀ i, e'.innate = some i → (c' i).x ≠ none)
    (hlookup : e'.lookup = s.1.lookup) (hscore : e'.score = s.1.score) :
    Published c' (e', s.2) := by
  refine ⟨hassigned, ?_⟩
  rw [hlookup, hscore]
  exact h.shown

/-- The score is then a number. -/
theorem Published.score_ne_none {s : Oze × Option Score} (hp : Published c s)
    (h : Core T L c s.1) : s.1.score ≠ none := by
  rw [h.score]
  cases hi : s.1.innate with
  | none => simp [scoreBy]
  | some i =>
      obtain ⟨x, hx⟩ := Option.ne_none_iff_exists'.mp (hp.assigned i hi)
      simp [scoreBy, hx]

theorem lookup_of_mem (h : t ∈ e.tags) : e.lookup = true := by
  obtain ⟨a, ha, -⟩ := List.mem_map.mp h
  exact decide_eq_true (List.ne_nil_of_mem ha)

-- ------------------------------------------------------------------- ozadd

/-- An add of a tag that was not added before. -/
theorem Published.add {s : Oze × Option Score} (h : Core T L c s.1) (hp : Published c s)
    (v : ℤ) (hnew : (c t).x = none) :
    Published (Function.update c t ((c t).assign v))
      ((s.1.addEffect v t).1, runCalls (s.1.addEffect v t).2 s.2) := by
  have hcore := h.updateInnateValue t v
  by_cases hr : t ∈ s.1.rset
  · have hnoop : s.1.updateInnateValue t v = (s.1, false) :=
      if_pos (rsetGet_isSome.mpr hr)
    simp only [addEffect, hnoop, runCalls_nil]
    refine hp.quiet ?_ rfl rfl
    intro i hi
    have hne : i ≠ t := fun hit => (h.mem_tags.mp (h.innate_names i hi)).2
      (hit ▸ (h.rset t).mp hr)
    rw [Function.update_of_ne hne]
    exact hp.assigned i hi
  · obtain ⟨hrec, hflag⟩ := updateInnateValue_of_not hr v
    have hassigned : ∀ i, (s.1.updateInnateValue t v).1.innate = some i →
        (Function.update c t ((c t).assign v) i).x ≠ none := by
      intro i hi
      by_cases hit : i = t
      · rw [hit, Function.update_self]
        simp [OzAse.assign]
      · rw [Function.update_of_ne hit]
        refine hp.assigned i ?_
        -- the pointer is the old one or `t`
        rw [hrec] at hi
        cases hx : s.1.innate with
        | none =>
            rw [hx] at hi
            exact absurd (Option.some.inj hi).symm hit
        | some j =>
            rw [hx] at hi
            simp only [Pointer.larger] at hi
            split at hi
            · exact absurd (Option.some.inj hi).symm hit
            · exact hi
    unfold addEffect
    cases hres : s.1.updateInnateValue t v with
    | mk e' changed =>
        rw [hres] at hcore hassigned hrec hflag
        have hmem : t ∈ e'.tags := hcore.mem_tags.mpr ⟨Or.inr rfl, mt (h.rset t).mpr hr⟩
        cases changed with
        | true =>
            refine ⟨hassigned, ?_⟩
            rw [if_pos (lookup_of_mem hmem)]
            rfl
        | false =>
            obtain ⟨i, hi, hlt⟩ := hflag rfl
            have hne : i ≠ t := fun hit => hp.assigned i hi (hit ▸ hnew)
            have hi' : e'.innate = some i := by
              rw [show e' = _ from hrec, hi]
              exact if_neg hlt
            have hq' : e'.acquired = s.1.acquired := by
              rw [show e' = _ from hrec]
              rfl
            refine hp.quiet hassigned ?_ ?_
            · rw [lookup_of_mem hmem, lookup_of_mem (h.innate_names i hi)]
            · have hinc : ∀ q, (Function.update c t ((c t).assign v) q).inc = (c q).inc := by
                intro q
                by_cases hqt : q = t
                · rw [hqt, Function.update_self]
                  rfl
                · rw [Function.update_of_ne hqt]
              rw [hcore.score, h.score, hi', hi, hq']
              simp only [scoreBy, Option.elim_some, Function.update_of_ne hne, hinc]

-- ---------------------------------------------------------------- ozincrby

/-- What an increment of one tag does to what is shown: it leaves `innate`
and the values of the entries; if it reports a change there is an entry,
and otherwise the score is as it was. -/
theorem Core.updateAcquiredValue_shown (h : Core T L c e) (t : Lc) (v : ℤ) :
    (e.updateAcquiredValue t v).1.innate = e.innate ∧
      (e.lookup = true → (e.updateAcquiredValue t v).1.lookup = true) ∧
      ((e.updateAcquiredValue t v).2 = true →
        (e.updateAcquiredValue t v).1.lookup = true) ∧
      ((e.updateAcquiredValue t v).2 = false →
        (e.updateAcquiredValue t v).1.lookup = e.lookup ∧
          (e.updateAcquiredValue t v).1.score = e.score) := by
  have hcore := h.updateAcquiredValue t v
  by_cases hr : t ∈ e.rset
  · rw [show e.updateAcquiredValue t v = (e, false) from if_pos (rsetGet_isSome.mpr hr)]
    exact ⟨rfl, fun hl => hl, (fun hcon => nomatch hcon), fun _ => ⟨rfl, rfl⟩⟩
  · have ht : ¬ L t := mt (h.rset t).mpr hr
    have hlook : (e.updateAcquiredValue t v).1.lookup = true :=
      lookup_of_mem (hcore.mem_tags.mpr ⟨Or.inr rfl, ht⟩)
    rcases updateAcquiredValue_of_not h ht v with
      ⟨-, hupd⟩ | ⟨-, -, hupd⟩ | ⟨q, hne, hq, -, hupd⟩
    · rw [hupd] at hlook ⊢
      exact ⟨rfl, fun _ => hlook, fun _ => hlook, fun hcon => by cases hcon⟩
    · rw [hupd] at hlook ⊢
      exact ⟨rfl, fun _ => hlook, fun _ => hlook, fun hcon => by cases hcon⟩
    · rw [hupd] at hlook hcore ⊢
      refine ⟨rfl, fun _ => hlook, fun _ => hlook, fun _ => ⟨?_, ?_⟩⟩
      · rw [hlook, lookup_of_mem (h.acquired_names q hq)]
      · have hx : ∀ i, (Function.update c t ((c t).bump v) i).x = (c i).x := by
          intro i
          by_cases hit : i = t
          · rw [hit, Function.update_self]
            rfl
          · rw [Function.update_of_ne hit]
        rw [hcore.score, h.score]
        show scoreBy _ e.innate e.acquired = _
        rw [hq]
        simp only [scoreBy, Option.elim_some, Function.update_of_ne hne, hx]

/-- The same for the loop of `ozincrbyCommand`. -/
theorem Core.incrbyLoop_shown (h : Core T L c e) (v : ℤ) (tags : List Lc)
    (changed : Bool) :
    (tags.foldl (Oze.incrbyLoop v) (e, changed)).1.innate = e.innate ∧
      (e.lookup = true → (tags.foldl (Oze.incrbyLoop v) (e, changed)).1.lookup = true) ∧
      ((tags.foldl (Oze.incrbyLoop v) (e, changed)).2 = true → changed = true ∨
        (tags.foldl (Oze.incrbyLoop v) (e, changed)).1.lookup = true) ∧
      ((tags.foldl (Oze.incrbyLoop v) (e, changed)).2 = false → changed = false ∧
        (tags.foldl (Oze.incrbyLoop v) (e, changed)).1.lookup = e.lookup ∧
          (tags.foldl (Oze.incrbyLoop v) (e, changed)).1.score = e.score) := by
  induction tags generalizing T c e changed with
  | nil => exact ⟨rfl, fun hl => hl, Or.inl, fun hc => ⟨hc, rfl, rfl⟩⟩
  | cons t tags ih =>
      obtain ⟨hi, hkeep, htrue, hfalse⟩ := h.updateAcquiredValue_shown t v
      obtain ⟨hi', hkeep', htrue', hfalse'⟩ := ih (h.updateAcquiredValue t v)
        (changed || (e.updateAcquiredValue t v).2)
      refine ⟨hi'.trans hi, fun hl => hkeep' (hkeep hl), ?_, ?_⟩
      · intro hc
        rcases htrue' hc with hor | hl
        · exact ((Bool.or_eq_true _ _).mp hor).imp_right fun hu => hkeep' (htrue hu)
        · exact Or.inr hl
      · intro hc
        obtain ⟨hor, hl, hs⟩ := hfalse' hc
        obtain ⟨hc', hu⟩ := Bool.or_eq_false_iff.mp hor
        obtain ⟨hl', hs'⟩ := hfalse hu
        exact ⟨hc', hl.trans hl', hs.trans hs'⟩

theorem Published.incrby {s : Oze × Option Score} (h : Core T L c s.1)
    (hp : Published c s) (v : ℤ) (tags : List Lc) :
    Published (fun u => if u ∈ tags then (c u).bump v else c u)
      ((s.1.incrbyEffect v tags).1, runCalls (s.1.incrbyEffect v tags).2 s.2) := by
  obtain ⟨hi, -, htrue, hfalse⟩ := h.incrbyLoop_shown v tags false
  unfold incrbyEffect
  cases hres : tags.foldl (Oze.incrbyLoop v) (s.1, false) with
  | mk e' changed =>
      rw [hres] at hi htrue hfalse
      have hassigned : ∀ i, e'.innate = some i →
          (if i ∈ tags then (c i).bump v else c i).x ≠ none := by
        intro i hi'
        have hx : (if i ∈ tags then (c i).bump v else c i).x = (c i).x := by
          split <;> rfl
        rw [hx]
        exact hp.assigned i (hi.symm.trans hi')
      cases changed with
      | true =>
          refine ⟨hassigned, ?_⟩
          rw [if_pos ((htrue rfl).resolve_left (by simp))]
          rfl
      | false => exact hp.quiet hassigned (hfalse rfl).2.1 (hfalse rfl).2.2

-- ------------------------------------------------------------------- ozrem

/-- The condition on applying a remove that lists `tags`: if it clears a
pointer or finds one null, so that `resort` looks for them, the greatest
of the tags left has its value. -/
def ResortAssigned (tags : List Lc) (e : Oze) : Prop :=
  ((∀ i ∈ e.innate, i ∈ tags) ∨ ∀ q ∈ e.acquired, q ∈ tags) →
    ∀ a ∈ e.aset, a.t ∉ tags → (∀ b ∈ e.aset, b.t ∉ tags → ¬ a.t.TagLt b.t) →
      a.x ≠ none

instance (tags : List Lc) (e : Oze) : Decidable (ResortAssigned tags e) :=
  inferInstanceAs (Decidable
    (((∀ i ∈ e.innate, i ∈ tags) ∨ ∀ q ∈ e.acquired, q ∈ tags) →
      ∀ a ∈ e.aset, a.t ∉ tags → (∀ b ∈ e.aset, b.t ∉ tags → ¬ a.t.TagLt b.t) →
        a.x ≠ none))

theorem unlink_eq_none {v : Option Lc} {tags : List Lc} (h : unlink tags v = none) :
    ∀ x ∈ v, x ∈ tags := by
  intro x hx
  by_contra hnot
  rw [unlink_eq_some.mpr ⟨hx, hnot⟩] at h
  cases h

theorem Published.rem {s : Oze × Option Score} (h : Core T L c s.1) (hp : Published c s)
    {tags : List Lc} (hcond : ResortAssigned tags s.1) :
    Published c ((s.1.remEffect tags).1, runCalls (s.1.remEffect tags).2 s.2) := by
  have hcore := h.remEffect tags
  have hsets := h.toSets.drop tags
  unfold Oze.remEffect at hcore ⊢
  rw [removeTags_eq h.tagged h.innate_names h.acquired_names] at hcore ⊢
  dsimp only at hcore ⊢
  by_cases hnull : (s.1.drop tags).innate.isNone || (s.1.drop tags).acquired.isNone
  · rw [if_pos hnull] at hcore ⊢
    have hnull' : (s.1.drop tags).innate = none ∨ (s.1.drop tags).acquired = none := by
      simpa using hnull
    obtain ⟨i, q, hres, hinnate, -⟩ := hsets.resort (h.innate_names.keep tags)
      (h.acquired_names.keep tags) hnull'
    have hassigned : ∀ j, (s.1.drop tags).resort.innate = some j → (c j).x ≠ none := by
      intro j hj
      rw [hres] at hj
      obtain ⟨⟨a, ha, rfl⟩, hmax⟩ := (show i = some j from hj) ▸ hinnate |>.of_some
      obtain ⟨haset, hnot⟩ := mem_keep.mp ha
      have hx := hcond (hnull'.imp unlink_eq_none unlink_eq_none) a haset hnot
        fun b hb hbnot => hmax b (mem_keep.mpr ⟨hb, hbnot⟩)
      rw [((h.entries a).mp haset).2] at hx
      exact hx
    by_cases hlook : (s.1.drop tags).resort.lookup = true
    · rw [if_pos hlook]
      refine ⟨hassigned, ?_⟩
      rw [if_pos hlook]
      rfl
    · rw [if_neg hlook]
      refine ⟨hassigned, ?_⟩
      rw [if_neg hlook]
      rfl
  · rw [if_neg hnull] at hcore ⊢
    simp only [Bool.or_eq_true, Option.isNone_iff_eq_none, not_or, ← ne_eq,
      Option.ne_none_iff_exists'] at hnull
    obtain ⟨⟨i, hi⟩, ⟨q, hq⟩⟩ := hnull
    have hi' := (unlink_eq_some.mp hi).1
    have hq' := (unlink_eq_some.mp hq).1
    refine hp.quiet ?_ ?_ ?_
    · intro j hj
      refine hp.assigned j ?_
      rw [hi', ← hi]
      exact hj
    · rw [lookup_of_mem (h.innate_names i hi'),
        lookup_of_mem (h.innate_names.keep tags i hi)]
    · rw [hcore.score, h.score, hi, hq, hi', hq']

end Oze

-- =================================================== the object in runs

/-- The condition on applying an operation. -/
def OzOp.Admitted (e : Oze) : OzOp → Prop
  | rem tags => e.ResortAssigned tags
  | _ => True

/-- Where every application is admitted, the sorted set shows the score. -/
theorem oz_published {k : Config n (Oze × Option Score) OzOp}
    (hk : Reachable ozType.service
      (ElemType.policy (fun _ o s => OzOp.Admitted s.1 o) False) k) (r : Fin n) :
    Oze.Published (OzOp.content ((k.got r).map Op.msg)) (k.site r) := by
  refine (hk.got_forall (I := fun _ s l => (∀ o ∈ l, o.msg.ListsOnce) →
    l.Pairwise (fun a b => ∀ t, a.msg.tag = some t → b.msg.tag ≠ some t) →
    OzHolds (l.map Op.msg) s.1 ∧ Oze.Published (OzOp.content (l.map Op.msg)) s)
    ?_ ?_ ?_ r ?_ ?_).2
  · exact fun _ _ _ => ⟨.new, ⟨(fun i hi => nomatch hi), rfl⟩⟩
  · intro r c s s' m l _ ih hp hlists hpair
    obtain ⟨h, hpub⟩ := ih hlists hpair
    rcases ElemType.service_prepare hp with ⟨rfl, -⟩ | ⟨e, o, hissue, rfl, -⟩
    · exact ⟨h, hpub⟩
    · rcases ozIssue_cases hissue with ⟨v, -, rfl⟩ | ⟨-, rfl⟩
      · exact ⟨⟨⟨h.toContents, h.nodup, h.entries, h.rset⟩, h.innate, h.acquired⟩,
          hpub.assigned, hpub.shown⟩
      · exact ⟨h, hpub⟩
  · intro r s s' l o hg ih he hlists hpair
    rw [List.pairwise_append] at hpair
    obtain ⟨h, hpub⟩ := ih (fun o ho => hlists o (List.mem_append_left _ ho)) hpair.1
    have ho := hlists o (List.mem_append_right _ List.mem_cons_self)
    obtain rfl := Option.some.inj he
    rw [List.map_append, List.map_singleton]
    cases hmsg : o.msg with
    | add v t =>
        refine ⟨h.add v t, ?_⟩
        rw [OzOp.content_add]
        refine hpub.add h v ?_
        -- no operation before added the tag
        by_contra hx
        obtain ⟨w, hw⟩ := Option.ne_none_iff_exists'.mp hx
        obtain ⟨a, ha, hadd⟩ := List.mem_map.mp (OzOp.mem_of_content_x hw)
        exact hpair.2.2 a ha o List.mem_cons_self t (by rw [hadd]; rfl) (by rw [hmsg]; rfl)
    | incrby v tags =>
        refine ⟨h.incrby v (ho v tags hmsg), ?_⟩
        rw [OzOp.content_incrby]
        exact hpub.incrby h v tags
    | rem tags =>
        refine ⟨h.rem tags, ?_⟩
        have hcond : OzOp.Admitted s.1 o.msg := hg
        rw [hmsg] at hcond
        rw [OzOp.content_rem]
        exact hpub.rem h hcond
  · exact fun o ho => oz_lists_once hk o (hk.ledger.got_sent r o ho)
  · refine (hk.got_nodup (fun h => h) r).pairwise_of_forall_ne ?_
    intro a ha b hb hne t hat hbt
    exact hne (oz_tagging.distinct hk a (hk.ledger.got_sent r a ha) b
      (hk.ledger.got_sent r b hb) t hat hbt)

-- ========================================================= the network

/-- The condition on applying a message: no remove makes `resort` stop at
an entry without a value. -/
def ozAdmitted (dbl : String → Option ℤ) (me : Fin n) (rargv : List (Arg n))
    (db : Db n) : Prop :=
  ∀ tname key o, ozType.opOn dbl tname key rargv = some o →
    OzOp.Admitted (ozeTable.recordOf me db tname key) o

/-- What server `r` shows of element `key` of `tname` is the score of its
record, and `innate` points to an entry with a value. -/
structure OzPublished (k : Net n) (tname key : String) (r : Fin n) : Prop where
  visible : (scoreOf (k.site r) tname key).isSome ↔
    (ozeTable.recordOf r (k.site r) tname key).aset ≠ []
  score : (ozeTable.recordOf r (k.site r) tname key).aset ≠ [] →
    scoreOf (k.site r) tname key
      = some (ozeTable.recordOf r (k.site r) tname key).score
  innate : ∀ t, (ozeTable.recordOf r (k.site r) tname key).innate = some t →
    ∃ a ∈ (ozeTable.recordOf r (k.site r) tname key).aset, a.t = t ∧ a.x ≠ none
  /-- The score is a number: both pointers point to entries. -/
  number : (ozeTable.recordOf r (k.site r) tname key).score ≠ none

/-- The increment of server 2 reaches server 0 before its add, and the
remove of the other tag in between: `resort` leaves `innate` at the entry
without a value, and the add that brings the value does not refresh the
sorted set. -/
theorem oz_score_unassigned :
    ∃ k k' : Net 3,
      Reachable (crdtService getLongLongFromObject) (.once (Issues ozCmds)) k ∧
      Reachable (crdtService getLongLongFromObject) (.once (Issues ozCmds)) k' ∧
      (ozeTable.recordOf 0 (k.site 0) "z" "a").innate = some ⟨0, 2⟩ ∧
      (ozeTable.recordOf 0 (k.site 0) "z" "a").aset = [⟨⟨0, 2⟩, none, 5, 5⟩] ∧
      ¬ OzPublished k "z" "a" 0 ∧
      scoreOf (k'.site 0) "z" "a" = some none ∧
      (ozeTable.recordOf 0 (k'.site 0) "z" "a").score = some 9 ∧
      ¬ OzPublished k' "z" "a" 0 := by
  obtain ⟨k, hrun, hi, haset⟩ : ∃ k : Net 3, (crdtService getLongLongFromObject).run
      (crdtService getLongLongFromObject).start (ozSchedule.take 8) = some k ∧
      (ozeTable.recordOf 0 (k.site 0) "z" "a").innate = some ⟨0, 2⟩ ∧
      (ozeTable.recordOf 0 (k.site 0) "z" "a").aset = [⟨⟨0, 2⟩, none, 5, 5⟩] :=
    ⟨_, rfl, by decide, by decide⟩
  obtain ⟨k', hrun', hz, hscore, hne⟩ : ∃ k' : Net 3, (crdtService getLongLongFromObject).run
      (crdtService getLongLongFromObject).start (ozSchedule.take 9) = some k' ∧
      scoreOf (k'.site 0) "z" "a" = some none ∧
      (ozeTable.recordOf 0 (k'.site 0) "z" "a").score = some 9 ∧
      (ozeTable.recordOf 0 (k'.site 0) "z" "a").aset ≠ [] :=
    ⟨_, rfl, by decide, by decide, by decide⟩
  refine ⟨k, k', Service.run_reachable (by decide) hrun,
    Service.run_reachable (by decide) hrun', hi, haset, ?_, hz, hscore, ?_⟩
  · intro hpub
    obtain ⟨a, ha, -, hx⟩ := hpub.innate _ hi
    rw [haset, List.mem_singleton] at ha
    exact hx (by rw [ha])
  · intro hpub
    have hshown := hpub.score hne
    rw [hz, hscore] at hshown
    cases hshown

/-- In the runs that apply every message under the condition, every server
shows the score of its record. -/
theorem oz_score_published (dbl : String → Option ℤ) {k : Net n}
    (hk : Reachable (crdtService dbl) ⟨Issues ozCmds, ozAdmitted dbl, False⟩ k)
    (tname key : String) (r : Fin n) : OzPublished k tname key r := by
  have hat : Reachable ozType.service
      (ElemType.policy (fun _ o s => OzOp.Admitted s.1 o) False)
      (ozType.readAt dbl tname key k) := by
    refine (ozType.projection dbl tname key ?_ ?_).reachable hk
    · exact fun _ h => ElemType.command_of_issues (by simp [ozCmds, ozType, ozCommand]) h
    · exact fun hg hroute => hg tname key _ hroute
  have h := oz_holds hat r
  have hpub := oz_published hat r
  have hshown : scoreOf (k.site r) tname key
      = if (ozeTable.recordOf r (k.site r) tname key).lookup
        then some (ozeTable.recordOf r (k.site r) tname key).score else none := hpub.shown
  have hlook : (ozeTable.recordOf r (k.site r) tname key).lookup = true ↔
      (ozeTable.recordOf r (k.site r) tname key).aset ≠ [] := decide_eq_true_iff
  refine ⟨?_, ?_, ?_, ?_⟩
  · rw [hshown, ← hlook]
    split
    · next hl => exact iff_of_true rfl hl
    · next hl => exact iff_of_false (by simp) hl
  · intro hne
    rw [hshown, if_pos (hlook.mpr hne)]
  · intro t ht
    have hmem := h.innate_names t ht
    exact ⟨_, h.mem_content hmem, h.content_t t, hpub.assigned t ht⟩
  · exact hpub.score_ne_none h

/-- A decidable form of the condition. -/
def ozAdmits (dbl : String → Option ℤ) (me : Fin n) (rargv : List (Arg n))
    (db : Db n) : Bool :=
  match strAt 1 rargv, strAt 2 rargv with
  | some tname, some key =>
      match ozType.opOn dbl tname key rargv with
      | some (.rem tags) =>
          decide ((ozeTable.recordOf me db tname key).ResortAssigned tags)
      | _ => true
  | _, _ => true

theorem ozAdmitted_of_admits (dbl : String → Option ℤ) (me : Fin n)
    (rargv : List (Arg n)) (db : Db n) (h : ozAdmits dbl me rargv db = true) :
    ozAdmitted dbl me rargv db := by
  intro tname key o hop
  cases o with
  | add v t => trivial
  | incrby v tags => trivial
  | rem tags =>
      have hwords : strAt 1 rargv = some tname ∧ strAt 2 rargv = some key := by
        by_contra hne
        simp [ElemType.opOn, hne] at hop
      simp only [ozAdmits, hwords.1, hwords.2, hop] at h
      exact (of_decide_eq_true h : (ozeTable.recordOf me db tname key).ResortAssigned tags)

theorem oz_score_published_schedule :
    ∃ k : Net 3, Reachable (crdtService getLongLongFromObject)
        ⟨Issues ozCmds, ozAdmitted getLongLongFromObject, False⟩ k ∧
      scoreOf (k.site 0) "z" "a" = some (some 9) ∧ OzPublished k "z" "a" 0 := by
  obtain ⟨k, hrun, h0⟩ : ∃ k : Net 3, ((crdtService getLongLongFromObject).restrict
      (ozAdmits getLongLongFromObject)).run (crdtService getLongLongFromObject).start
        [.submit 1 ["ozadd", "z", "a", "3"], .submit 2 ["ozadd", "z", "a", "4"],
          .deliver 2 0, .submit 2 ["ozincrby", "z", "a", "5"],
          .submit 1 ["ozrem", "z", "a"],
          .deliver 0 0, .deliver 0 2, .deliver 0 1, .deliver 0 3] = some k ∧
      scoreOf (k.site 0) "z" "a" = some (some 9) := ⟨_, rfl, by decide⟩
  have hk : Reachable (crdtService getLongLongFromObject)
      ⟨Issues ozCmds, ozAdmitted getLongLongFromObject, False⟩ k :=
    .of_restrict (ozAdmitted_of_admits getLongLongFromObject)
      (Service.run_reachable (by decide) hrun)
  exact ⟨k, hk, h0, oz_score_published _ hk "z" "a" 0⟩

end CrdtRedis
