/-
How much a record of the remove-wins queue keeps.

Every add appends an entry to `aset` and every remove a timestamp to
`rset`. An add takes out what is below it of both, a remove only of `aset`.
Of two adds of one server the later one is above the earlier one, and
between two removes of one server there is an add, since `rzrem` is refused
where a remove stands (`rz_add_between`). So a record never has more adds or
removes than there are servers, however many operations there were
(`rz_record_bounded`).
-/
import CrdtRedis.Rw.ZsetConvergence

namespace CrdtRedis

open Replication

variable {n : ℕ} {A O : Type}

namespace RwSets

variable {stamp : A → Vc n}

theorem remove_aset (t : Vc n) (s : RwSets n A) :
    (s.remove stamp t).aset = s.aset.filter fun a => !below t (stamp a) := by
  simp only [remove]
  split <;> rfl

theorem add_aset (a : A) (s : RwSets n A) :
    (s.add stamp a).aset = (s.aset ++ [a]).filter fun b => !below (stamp a) (stamp b) := rfl

theorem remove_rset (t : Vc n) (s : RwSets n A) : (s.remove stamp t).rset = s.rset ++ [t] := by
  simp only [remove]
  split <;> rfl

theorem add_rset (a : A) (s : RwSets n A) :
    (s.add stamp a).rset = s.rset.filter fun t => !below (stamp a) t := rfl

end RwSets

namespace RwOps

variable {D : RwOps n A O} {L : List O}

/-- The entries keep the order of their adds. -/
theorem stamps_sublist (L : List O) :
    ((L.foldl D.step RwSets.new).aset.map D.stamp).Sublist (L.map D.t) := by
  induction L using List.reverseRecOn with
  | nil => exact List.Sublist.slnil
  | append_singleton L o ih =>
      rw [List.foldl_append, List.map_append]
      generalize L.foldl D.step RwSets.new = s at ih
      have hkept : (s.aset.map D.stamp).Sublist (L.map D.t ++ [o].map D.t) :=
        ih.trans (List.sublist_append_left _ _)
      show ((D.step s o).aset.map D.stamp).Sublist _
      unfold step
      cases D.kind o with
      | add =>
          rw [RwSets.add_aset]
          refine (List.filter_sublist.map D.stamp).trans ?_
          rw [List.map_append, List.map_singleton, List.map_singleton, D.stamp_new]
          exact ih.append (List.Sublist.refl _)
      | upd =>
          have hstamps : (s.aset.map (D.upd o)).map D.stamp = s.aset.map D.stamp := by
            rw [List.map_map]
            exact List.map_congr_left fun a _ => D.stamp_upd o a
          show ((s.aset.map (D.upd o)).map D.stamp).Sublist _
          rw [hstamps]
          exact hkept
      | rem =>
          rw [RwSets.remove_aset]
          exact (List.filter_sublist.map D.stamp).trans hkept

theorem removes_sublist (L : List O) :
    (L.foldl D.step RwSets.new).rset.Sublist (L.map D.t) := by
  induction L using List.reverseRecOn with
  | nil => exact List.Sublist.slnil
  | append_singleton L o ih =>
      rw [List.foldl_append, List.map_append]
      generalize L.foldl D.step RwSets.new = s at ih
      have hkept : s.rset.Sublist (L.map D.t ++ [o].map D.t) :=
        ih.trans (List.sublist_append_left _ _)
      show (D.step s o).rset.Sublist _
      unfold step
      cases D.kind o with
      | add =>
          rw [RwSets.add_rset]
          exact List.filter_sublist.trans hkept
      | upd => exact hkept
      | rem =>
          rw [RwSets.remove_rset]
          exact ih.append (List.Sublist.refl _)

/-- Timestamps of different operations, each of another server, are no
more than the servers. -/
theorem History.bounded (hist : D.History L) {ts : List (Vc n)} (hsub : ts.Sublist (L.map D.t))
    (hids : ∀ t ∈ ts, ∀ t' ∈ ts, t.id = t'.id → t.vector = t'.vector) : ts.length ≤ n := by
  have hnd : ts.Nodup := by
    refine List.Nodup.sublist hsub (List.pairwise_map.mpr ?_)
    refine hist.ordered.imp ?_
    intro x y hnot heq
    exact hnot (by rw [heq])
  have hmap : (ts.map Vc.id).Nodup := by
    refine hnd.map_on ?_
    intro t ht t' ht' hid
    have hvec := hids t ht t' ht' hid
    cases t
    cases t'
    simp only at hid hvec
    rw [hid, hvec]
  simpa using hmap.length_le_card

/-- No more entries than servers. -/
theorem aset_bounded (hist : D.History L) :
    (L.foldl D.step RwSets.new).aset.length ≤ n := by
  have hholds := holds_foldl hist
  have hsub := stamps_sublist (D := D) L
  generalize L.foldl D.step RwSets.new = s at hholds hsub
  rw [← List.length_map D.stamp]
  refine hist.bounded hsub ?_
  intro t ht t' ht' hid
  obtain ⟨a, ha, rfl⟩ := List.mem_map.mp ht
  obtain ⟨b, hb, rfl⟩ := List.mem_map.mp ht'
  obtain ⟨x, hx, rfl⟩ := (hholds.aset a).mp ha
  obtain ⟨y, hy, rfl⟩ := (hholds.aset b).mp hb
  rw [stamp_content, stamp_content] at hid ⊢
  exact hist.survives_unique hx hy hid

end RwOps

-- ========================================================= the removes

section Removes

variable {k : Config n (Rze n × Option Score) (RzCmd n)}

/-- A remove is issued only where no remove is kept. -/
theorem rz_rem_prepare {r : Fin n} {c : RzReq} {s s' : Rze n × Option Score} {m : RzCmd n}
    (hp : rzType.service.prepare r c s = some (s', some m)) (hm : m.type = .rzrem) :
    s.1.sets.rset = [] := by
  have hlook : s.1.lookup = true := by
    rcases ElemType.service_prepare hp with ⟨-, hnone⟩ | ⟨e, o, hissue, -, hsome⟩
    · cases hnone
    · obtain rfl := Option.some.inj hsome
      obtain ⟨-, rfl, hadm⟩ := rzIssue_eq hissue
      cases c with
      | add v => cases hm
      | incrby v => cases hm
      | rem => exact hadm
  simp only [Rze.lookup, RwSets.lookup, Bool.and_eq_true, List.isEmpty_iff] at hlook
  exact hlook.2

/-- Where no remove is kept, every remove applied has an add above it. -/
theorem rz_add_above (hk : Reachable rzType.service (.once fun _ => True) k) {r : Fin n}
    (hempty : (k.site r).1.sets.rset = []) {x : RzCmd n} (hx : x ∈ rz_causal.log k r)
    (hrem : x.type = .rzrem) :
    ∃ o ∈ k.got r, o.msg ∈ rz_causal.log k r ∧ o.msg.type = .rzadd ∧
      x.t.vector < o.msg.t.vector := by
  by_contra hno
  have hstands : rzOps.Stands (rz_causal.log k r) x := by
    refine ⟨hx, (RzCmd.kind_rem x).mpr hrem, ?_⟩
    intro z hz hadd hlt
    obtain ⟨o, ho, rfl⟩ := rz_causal.log_got hk hz
    exact hno ⟨o, ho, hz, (RzCmd.kind_add o.msg).mp hadd, hlt⟩
  have hmem := ((rz_state hk r).1.rset x.t).mpr ⟨x, hstands, rfl⟩
  rw [hempty] at hmem
  cases hmem

section Issue

variable {r : Fin n} {c : RzReq} {s : Rze n × Option Score} {m : RzCmd n}

/-- The clock is below the next timestamp. -/
theorem rz_applied_le_issue (hk : Reachable rzType.service (.once fun _ => True) k)
    (hp : rzType.service.prepare r c (k.site r) = some (s, some m)) {z : RzCmd n}
    (hz : z ∈ rz_causal.log k r) : z.t.vector ≤ m.t.vector := by
  have hstamp : m.t.vector = _ := (rz_causal.stamp_issue hk trivial hp).2
  rw [hstamp]
  refine ((rz_causal.applied hk r).le_clock z hz).trans fun i => ?_
  by_cases hi : i = r
  · subst hi
    rw [Function.update_self]
    exact Int.le_of_lt (Int.lt_succ _)
  · rw [Function.update_of_ne hi]

/-- The next number of a server is not reached before. -/
theorem rz_issue_not_lt (hk : Reachable rzType.service (.once fun _ => True) k)
    (hp : rzType.service.prepare r c (k.site r) = some (s, some m)) {y : Op n (RzCmd n)}
    (hy : y ∈ k.sent) : ¬ m.t.vector < y.msg.t.vector := by
  intro hlt
  have hseq : y.msg.t.vector r ≤ _ := (rz_causal.delivery hk).entry_le y hy r
  have hnew : m.t.vector r = _ := congrFun (rz_causal.stamp_issue hk trivial hp).2 r
  rw [Function.update_self] at hnew
  have hle : m.t.vector r ≤ y.msg.t.vector r := hlt.le r
  omega

end Issue

/-- Between two removes of one server there is an add. -/
theorem rz_add_between (hk : Reachable rzType.service (.once fun _ => True) k) :
    ∀ y ∈ k.sent, ∀ x ∈ k.sent, x.src = y.src → x.msg.type = .rzrem → y.msg.type = .rzrem →
      x.msg.t.vector < y.msg.t.vector →
      ∃ z ∈ k.sent, z.msg.type = .rzadd ∧ x.msg.t.vector < z.msg.t.vector ∧
        z.msg.t.vector ≤ y.msg.t.vector := by
  induction hk with
  | start =>
      intro y hy
      cases hy
  | @step k k' hk hs ih =>
      cases hs with
      | reject r c hc hp => exact ih
      | deliver r o ho hd hg he => exact ih
      | @issue s s' m r c u hc hp hu hg he =>
          intro y hy x hx hsrc hxr hyr hlt
          rw [Config.issue_sent, List.mem_append, List.mem_singleton] at hx hy
          rcases hy with hy | rfl
          · rcases hx with hx | rfl
            · obtain ⟨z, hz, hrest⟩ := ih y hy x hx hsrc hxr hyr hlt
              exact ⟨z, List.mem_append_left _ hz, hrest⟩
            · exact absurd hlt (rz_issue_not_lt hk hp hy)
          · rcases hx with hx | rfl
            · -- the server has applied its own remove, and keeps none
              have hown := (rz_causal.delivery hk).own_applied x hx
              rw [show x.src = r from hsrc] at hown
              obtain ⟨o, ho, hlog, hadd, hlow⟩ :=
                rz_add_above hk (rz_rem_prepare hp hyr) hown hxr
              exact ⟨o, List.mem_append_left _ (hk.ledger.got_sent r o ho), hadd, hlow,
                rz_applied_le_issue hk hp hlog⟩
            · exact absurd hlt (lt_irrefl _)

/-- Of two removes that stand, neither is below the other if they are of
one server. -/
theorem rz_stands_not_lt (hk : Reachable rzType.service (.once fun _ => True) k) {r : Fin n}
    {x y : RzCmd n} (hx : rzOps.Stands (rz_causal.log k r) x)
    (hy : rzOps.Stands (rz_causal.log k r) y) (hid : x.t.id = y.t.id) :
    ¬ x.t.vector < y.t.vector := by
  intro hlt
  obtain ⟨o, ho, rfl⟩ := rz_causal.log_got hk hx.mem
  obtain ⟨p, hp, rfl⟩ := rz_causal.log_got hk hy.mem
  have hosent := hk.ledger.got_sent r o ho
  have hpsent := hk.ledger.got_sent r p hp
  have hsrc : o.src = p.src := by
    rw [← rz_causal.src_eq hk o hosent, ← rz_causal.src_eq hk p hpsent]
    exact hid
  obtain ⟨z, hz, hadd, hlow, hhigh⟩ := rz_add_between hk p hpsent o hosent hsrc
    ((RzCmd.kind_rem _).mp hx.kind) ((RzCmd.kind_rem _).mp hy.kind) hlt
  -- what is below an operation applied is applied
  have hclock := (rz_causal.applied hk r).le_clock _ hy.mem
  have hzlog :=
    ((rz_causal.delivery hk).mem_log hk hz ((hhigh z.src).trans (hclock z.src))).2
  exact hx.not_lt _ hzlog ((RzCmd.kind_add _).mpr hadd) hlow

/-- Two removes of one server that stand are one. -/
theorem rz_stands_unique (hk : Reachable rzType.service (.once fun _ => True) k) (r : Fin n)
    {x y : RzCmd n} (hx : rzOps.Stands (rz_causal.log k r) x)
    (hy : rzOps.Stands (rz_causal.log k r) y) (hid : x.t.id = y.t.id) :
    x.t.vector = y.t.vector := by
  by_contra hne
  rcases (rz_history hk r).comparable x hx.mem y hy.mem hid with hle | hle
  · exact rz_stands_not_lt hk hx hy hid (lt_of_le_of_ne hle hne)
  · exact rz_stands_not_lt hk hy hx hid.symm (lt_of_le_of_ne hle (Ne.symm hne))

end Removes

/-- In every run each server keeps, for every element, at most as many
adds and at most as many removes as there are servers. -/
theorem rz_record_bounded {dbl : String → Option ℤ} {k : Net n}
    (hk : Reachable (crdtService dbl) (.once (Issues rzCmds)) k) (tname key : String) (r : Fin n) :
    (rzeTable.recordOf r (k.site r) tname key).sets.aset.length ≤ n ∧
      (rzeTable.recordOf r (k.site r) tname key).sets.rset.length ≤ n := by
  have hat := ElemType.reachable_once (E := rzType)
    (by simp [rzCmds, rzType, rzCommand]) hk tname key
  have hist := rz_history hat r
  have hfold := rz_core hat r
  rw [← rz_log] at hfold
  have hsets := congrArg (fun s => s.1.sets) hfold
  rw [Rze.foldl_step_sets] at hsets
  have hrec : (rzeTable.recordOf r (k.site r) tname key).sets
      = (rz_causal.log (rzType.readAt dbl tname key k) r).foldl rzOps.step RwSets.new := hsets
  rw [hrec]
  refine ⟨RwOps.aset_bounded hist, hist.bounded (RwOps.removes_sublist _) ?_⟩
  have hholds := RwOps.holds_foldl hist
  intro t ht t' ht' hid
  obtain ⟨x, hx, rfl⟩ := (hholds.rset t).mp ht
  obtain ⟨y, hy, rfl⟩ := (hholds.rset t').mp ht'
  exact rz_stands_unique hat r hx hy hid

/-- Two removes at the same time, of which neither is below the other. -/
theorem rz_record_bounded_crossing :
    ∃ k : Net 2, Reachable (crdtService getLongLongFromObject) (.once (Issues rzCmds)) k ∧
      (rzeTable.recordOf 0 (k.site 0) "z" "a").sets.rset.length = 2 ∧
      ∀ r, (rzeTable.recordOf r (k.site r) "z" "a").sets.aset.length ≤ 2 ∧
        (rzeTable.recordOf r (k.site r) "z" "a").sets.rset.length ≤ 2 := by
  obtain ⟨k, hrun, hfull⟩ : ∃ k, (crdtService getLongLongFromObject).run
      (crdtService getLongLongFromObject).start
        [.submit 0 ["rzadd", "z", "a", "5"], .deliver 1 0, .submit 0 ["rzrem", "z", "a"],
          .submit 1 ["rzrem", "z", "a"], .deliver 0 2]
        = some k ∧ (rzeTable.recordOf (0 : Fin 2) (k.site 0) "z" "a").sets.rset.length = 2 :=
    ⟨_, rfl, by decide⟩
  have hk : Reachable (crdtService getLongLongFromObject) (.once (Issues rzCmds)) k :=
    Service.run_reachable (by decide) hrun
  exact ⟨k, hk, hfull, rz_record_bounded hk "z" "a"⟩

end CrdtRedis
