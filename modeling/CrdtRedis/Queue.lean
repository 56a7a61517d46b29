/-
The three priority queues as their own clients see them: to the clients of
one server an element behaves as in a sequential queue, whatever the
server has received from the others.

Before a command the record may hold adds of several servers, removes that
no add has seen, entries made by early increments and cached pointers. The
command finds all of it: an add is accepted where nothing of the element is
left and is above everything applied; an increment reaches every entry and
so moves the one that counts by its amount, and leaves it the one that
counts; a remove covers everything there is. One section per queue shows
this for the body of its commands, and `Queue.Sequential` puts the frame of
the macros around it.

# SCORE of an entry nothing was written to

In the add-wins queue `innate` may point to an entry whose add has not
arrived. `SCORE` then reads what `x` happens to hold. `Oze.scoreOver g` is
`SCORE` where an entry of tag `t` that was never written holds `g t`; the
results are for every `g`.
-/
import CrdtRedis.Local
import CrdtRedis.Ori.ZsetScore
import CrdtRedis.Rw.ZsetConvergence
import CrdtRedis.Rwf.ZsetConvergence

namespace CrdtRedis

open Replication

variable {n : ℕ}

-- ================================================= the add-wins queue

namespace Oze

/-- What `innate` contributes to `SCORE`, where the `x` of an entry that
was never written holds `g` of its tag. -/
def innateOver (g : Lc → ℤ) (e : Oze) : Score :=
  match e.innate with
  | none => some 0
  | some t => (e.asetGet t).map fun a => a.x.getD (g t)

/-- `SCORE` over such a memory. -/
def scoreOver (g : Lc → ℤ) (e : Oze) : Score :=
  (e.innateOver g).bind fun x => e.acquiredInc.map fun i => x + i

variable {T L : Lc → Prop} {c : Lc → OzAse} {e : Oze}

/-- Where every value read was written, that is `SCORE`. -/
theorem scoreOver_eq {z : ℤ} (h : e.score = some z) (g : Lc → ℤ) :
    e.scoreOver g = some z := by
  obtain ⟨x, hx, hi⟩ := Option.bind_eq_some_iff.mp h
  have hover : e.innateOver g = some x := by
    unfold innateX at hx
    unfold innateOver
    cases hin : e.innate with
    | none => rw [hin] at hx; exact hx
    | some t =>
        rw [hin] at hx
        obtain ⟨a, ha, hax⟩ := Option.bind_eq_some_iff.mp hx
        show (e.asetGet t).map _ = _
        rw [ha, Option.map_some, hax, Option.getD_some]
  unfold scoreOver
  rw [hover]
  exact hi

theorem Core.scoreOver (h : Core T L c e) {i : ℤ} (hi : e.acquiredInc = some i)
    (g : Lc → ℤ) :
    e.scoreOver g = some ((e.innate.elim 0 fun t => (c t).x.getD (g t)) + i) := by
  have hover : e.innateOver g = some (e.innate.elim 0 fun t => (c t).x.getD (g t)) := by
    unfold innateOver
    cases hin : e.innate with
    | none => rfl
    | some t =>
        show (e.asetGet t).map _ = _
        rw [h.asetGet (h.innate_names t hin)]
        rfl
  unfold Oze.scoreOver
  rw [hover, hi]
  rfl

end Oze

namespace OzHolds

variable {D : List OzOp} {e : Oze}

theorem aset_eq_nil (hl : e.lookup = false) : e.aset = [] := by
  simpa [Oze.lookup] using hl

/-- An add where nothing is left. -/
theorem add_absent (h : OzHolds D e) (hl : e.lookup = false) {t : Lc} (ht : t ∉ e.rset)
    (v current : ℤ) :
    ((OzOp.add v t).act { e with current := current }).1.lookup = true ∧
      ((OzOp.add v t).act { e with current := current }).1.score = some v := by
  have haset := aset_eq_nil hl
  have hnone : ∀ p : Option Lc, Names OzAse.t e.aset p → p = none := by
    intro p hp
    cases p with
    | none => rfl
    | some x =>
        have hx := hp x rfl
        rw [haset] at hx
        cases hx
  have hi := hnone _ h.innate_names
  have hq := hnone _ h.acquired_names
  obtain ⟨cur, innate, acquired, aset, rset⟩ := e
  dsimp only at haset hi hq ht
  subst haset hi hq
  have hr : (Oze.rsetGet ⟨current, none, none, [], rset⟩ t).isSome = false :=
    Bool.eq_false_iff.mpr (mt Oze.rsetGet_isSome.mp ht)
  simp [OzOp.act, Oze.addEffect, Oze.updateInnateValue, hr, Oze.addAse, Oze.modifyAse,
    Oze.asetGet, Oze.lookup, Oze.score, Oze.innateX, Oze.acquiredInc]

/-- The entries after an increment of all tags. -/
theorem incrby_entries (h : OzHolds D e) (v : ℤ) {a : OzAse} :
    a ∈ ((OzOp.incrby v e.tags).act e).1.aset ↔ ∃ b ∈ e.aset, a = b.bump v := by
  have h' := h.incrby v h.nodup
  have hcontent : ∀ t ∈ e.tags, OzOp.content (D ++ [.incrby v e.tags]) t
      = (OzOp.content D t).bump v := by
    intro t ht
    rw [OzOp.content_incrby]
    exact if_pos ht
  have htags : ∀ t, OzOp.Touched (D ++ [.incrby v e.tags]) t ∧
      ¬ OzOp.Listed (D ++ [.incrby v e.tags]) t ↔ t ∈ e.tags := by
    intro t
    rw [OzOp.touched_snoc, OzOp.listed_snoc]
    simp only [reduceCtorEq, false_and, exists_false, or_false]
    constructor
    · intro ⟨ht, hlist⟩
      exact ht.elim (fun ht => h.mem_tags.mpr ⟨ht, hlist⟩) fun ht => ht
    · exact fun ht => ⟨Or.inr ht, (h.mem_tags.mp ht).2⟩
  rw [h'.entries, htags]
  constructor
  · intro ⟨ht, ha⟩
    exact ⟨_, h.mem_content ht, ha.trans (hcontent _ ht)⟩
  · intro ⟨b, hb, hab⟩
    have hbt : a.t = b.t := by rw [hab]; rfl
    have ht : b.t ∈ e.tags := List.mem_map_of_mem hb
    rw [hbt, hcontent _ ht, ← ((h.entries b).mp hb).2]
    exact ⟨ht, hab⟩

/-- An increment keeps the entry that counts most the one that does, and
moves it by its amount. -/
theorem incrby_acquired (h : OzHolds D e) (hl : e.lookup = true) (v : ℤ) :
    ∃ i, e.acquiredInc = some i ∧
      ((OzOp.incrby v e.tags).act e).1.acquiredInc = some (i + v) := by
  have h' := h.incrby v h.nodup
  have hentries := fun {a} => h.incrby_entries v (a := a)
  by_cases hpos : ∃ a ∈ e.aset, 0 < a.count
  · obtain ⟨q, hq, hmax, hinc⟩ := h.acquired_greatest hpos
    have hqpos : 0 < q.count := by
      obtain ⟨a, ha, hapos⟩ := hpos
      by_cases haq : a.t = q.t
      · rw [← List.inj_on_of_nodup_map h.nodup ha hq haq]
        exact hapos
      · rcases hmax a ha haq with hlt | ⟨heq, -⟩
        · exact hapos.trans hlt
        · exact hapos.trans_eq heq
    have hcount : (q.bump v).count = q.count + |v| := rfl
    have habs := abs_nonneg v
    obtain ⟨q', hq', hmax', hinc'⟩ := h'.acquired_greatest
      ⟨_, hentries.mpr ⟨q, hq, rfl⟩, by omega⟩
    obtain ⟨b, hb, rfl⟩ := hentries.mp hq'
    have hbump : ∀ a b : OzAse, RankLt a.rank b.rank →
        RankLt (a.bump v).rank (b.bump v).rank := by
      intro a b hab
      rcases hab with hlt | ⟨heq, htag⟩
      · exact Or.inl (add_lt_add_left hlt _)
      · exact Or.inr ⟨congrArg (· + |v|) heq, htag⟩
    have hbq : b.t = q.t := by
      by_contra hne
      exact RankLt.irrefl _ ((hbump b q (hmax b hb hne)).trans
        (hmax' _ (hentries.mpr ⟨q, hq, rfl⟩) (Ne.symm hne)))
    rw [List.inj_on_of_nodup_map h.nodup hb hq hbq] at hinc'
    exact ⟨q.inc, hinc, hinc'⟩
  · have hzero : ∀ a ∈ e.aset, ¬ 0 < a.count := fun a ha hcon => hpos ⟨a, ha, hcon⟩
    refine ⟨0, h.acquired_zero hzero, ?_⟩
    rw [zero_add]
    have hmoved : ∀ a ∈ ((OzOp.incrby v e.tags).act e).1.aset, a.inc = v := by
      intro a ha
      obtain ⟨b, hb, rfl⟩ := hentries.mp ha
      have hb0 : b.inc = 0 := by
        have hcount := not_lt.mp (hzero b hb)
        rw [((h.entries b).mp hb).2] at hcount ⊢
        exact OzOp.inc_eq_zero hcount
      show b.inc + v = v
      rw [hb0, zero_add]
    rcases h'.acquiredInc with ⟨hnone, hinc⟩ | ⟨q, hq, -, hinc⟩
    · -- no pointer is left only where the increment is of zero
      rw [hinc]
      have hbounds := h'.acquired
      rw [hnone] at hbounds
      obtain ⟨b, hb⟩ : ∃ b, b ∈ e.aset :=
        List.exists_mem_of_ne_nil _ (by simpa [Oze.lookup] using hl)
      have hcount : ¬ 0 < b.count + |v| :=
        hbounds.of_none _ (hentries.mpr ⟨b, hb, rfl⟩)
      have hnonneg : 0 ≤ b.count := by
        rw [((h.entries b).mp hb).2, OzOp.content_sums.2]
        exact List.sum_nonneg fun x hx => by
          obtain ⟨o, -, rfl⟩ := List.mem_map.mp hx
          exact abs_nonneg _
      have hv : |v| = 0 := by
        have := abs_nonneg v
        omega
      rw [abs_eq_zero.mp hv]
    · rw [hinc, hmoved _ (h'.mem_content hq)]

theorem incrby_present (h : OzHolds D e) (hl : e.lookup = true) (v : ℤ) (g : Lc → ℤ) :
    ((OzOp.incrby v e.tags).act e).1.lookup = true ∧
      ∃ x, e.scoreOver g = some x ∧
        ((OzOp.incrby v e.tags).act e).1.scoreOver g = some (x + v) := by
  obtain ⟨i, hi, hi'⟩ := h.incrby_acquired hl v
  have h' := h.incrby v h.nodup
  obtain ⟨hinnate, hkeep, -, -⟩ := h.incrbyLoop_shown v e.tags false
  have hact : ((OzOp.incrby v e.tags).act e).1
      = (e.tags.foldl (Oze.incrbyLoop v) (e, false)).1 := by
    simp only [OzOp.act, Oze.incrbyEffect]
    split <;> next hres => rw [hres]
  refine ⟨by rw [hact]; exact hkeep hl, _, h.scoreOver hi g, ?_⟩
  rw [h'.scoreOver hi' g, hact, hinnate, ← add_assoc]
  have hx : ∀ t, (OzOp.content (D ++ [.incrby v e.tags]) t).x = (OzOp.content D t).x := by
    intro t
    rw [OzOp.content_snoc, OzOp.on_x (fun w => by simp)]
  simp only [hx]

/-- A remove covers every entry. -/
theorem rem_present (h : OzHolds D e) : ((OzOp.rem e.tags).act e).1.lookup = false := by
  have h' := h.rem e.tags
  refine decide_eq_false (not_not.mpr (List.eq_nil_iff_forall_not_mem.mpr fun a ha => ?_))
  obtain ⟨ht, hlist⟩ := ((h'.entries a).mp ha).1
  rw [OzOp.touched_snoc] at ht
  rw [OzOp.listed_snoc, not_or] at hlist
  have hmem : a.t ∈ e.tags := h.mem_tags.mpr ⟨ht.resolve_right fun hcon => hcon, hlist.1⟩
  exact hlist.2 ⟨e.tags, rfl, hmem⟩

end OzHolds

/-- The tags an operation names. -/
def OzOp.Names (t : Lc) : OzOp → Prop
  | add _ u => t = u
  | incrby _ tags => t ∈ tags
  | rem tags => t ∈ tags

section

variable {k : Config n (Oze × Option Score) OzOp} {pol : Policy n (Oze × Option Score) OzReq OzOp}

/-- No tag is named before an add brings it. -/
theorem oz_named_added (hk : Reachable ozType.service pol k) :
    ∀ o ∈ k.sent, ∀ t, o.msg.Names t → ∃ a ∈ k.sent, a.msg.tag = some t := by
  refine hk.invariant (I := fun k => ∀ o ∈ k.sent, ∀ t, o.msg.Names t →
    ∃ a ∈ k.sent, a.msg.tag = some t) (by simp [Service.start]) ?_
  intro k k' hr ih hs
  cases hs with
  | reject r c hc hp => exact ih
  | deliver r o ho hd hg he => exact ih
  | issue r c u hc hp hu hg he =>
      rename_i s s' m
      intro o ho t hname
      rw [Config.issue_sent, List.mem_append, List.mem_singleton] at ho
      rw [Config.issue_sent]
      rcases ho with ho | rfl
      · obtain ⟨a, ha, hat⟩ := ih o ho t hname
        exact ⟨a, List.mem_append_left _ ha, hat⟩
      · rcases ElemType.service_prepare hp with ⟨-, hnone⟩ | ⟨e, o, hissue, -, hm⟩
        · cases hnone
        obtain rfl := Option.some.inj hm
        rcases ozIssue_cases hissue with ⟨v, rfl, -⟩ | ⟨hlist, -⟩
        · refine ⟨_, List.mem_append_right _ (List.mem_singleton.mpr rfl), ?_⟩
          rw [show t = _ from hname]
          rfl
        · -- a listed tag was found, so something applied there brought it
          have htags : t ∈ (k.site r).1.tags := by
            rcases hlist with rfl | ⟨v, rfl⟩ <;> exact hname
          obtain ⟨⟨o', ho', htouch⟩, -⟩ := (oz_holds hr r).mem_tags.mp htags
          obtain ⟨b, hb, rfl⟩ := List.mem_map.mp ho'
          have hnames : b.msg.Names t := by
            cases hb : b.msg with
            | add v u => rw [hb] at htouch; exact htouch
            | incrby v tags => rw [hb] at htouch; exact htouch
            | rem tags => rw [hb] at htouch; exact htouch.elim
          obtain ⟨a, ha, hat⟩ := ih b (hr.ledger.got_sent r b hb) t hnames
          exact ⟨a, List.mem_append_left _ ha, hat⟩

/-- The next tag of a server was not removed. -/
theorem oz_next_tag (hk : Reachable ozType.service pol k) (r : Fin n) :
    (⟨(k.site r).1.current, r⟩ : Lc) ∉ (k.site r).1.rset := by
  intro hr
  obtain ⟨tags, hmem, ht⟩ := ((oz_holds hk r).rset _).mp hr
  obtain ⟨o, ho, hmsg⟩ := List.mem_map.mp hmem
  obtain ⟨a, ha, hat⟩ := oz_named_added hk o (hk.ledger.got_sent r o ho) _
    (by rw [hmsg]; exact ht)
  obtain ⟨hid, hlt⟩ := oz_tagging.own hk a ha _ hat
  have hsrc : r = a.src := Fin.ext (Int.ofNat_inj.mp hid)
  rw [← hsrc] at hlt
  exact lt_irrefl _ hlt

end

-- ============================================== the remove-wins queue

section

variable {k : Config n (Rze n × Option Score) (RzCmd n)}

/-- A command of the server's own clients is applied at once, alone, and
is above everything applied before it. -/
theorem rz_own (hk : Reachable rzType.service (.once fun _ => True) k) (r : Fin n)
    {q : RzReq} (hq : q.admits (k.site r).1 = true) :
    let e := (k.site r).1
    let cmd : RzCmd n := q.cmd (vcNow e.current)
    (e.receive cmd).1.sets = rzOps.step e.sets cmd ∧
      rzOps.History (rz_causal.log k r ++ [cmd]) ∧
      ∀ x ∈ rz_causal.log k r, rzOps.Lt x cmd := by
  intro e cmd
  have hp : rzType.service.prepare r q (k.site r) = some (k.site r, some cmd) := by
    have hissue : rzType.issue r q (k.site r).1 = some (e, cmd) := if_pos hq
    simp only [ElemType.service, hissue]
    rfl
  have hlt : ∀ x ∈ rz_causal.log k r, rzOps.Lt x cmd := fun x hx =>
    ((rz_causal.applied hk r).le_clock x hx).trans_lt (rz_causal.clock_lt_stamp hk trivial hp)
  refine ⟨?_, ?_, hlt⟩
  · have happlies : e.applies cmd = [cmd] :=
      Rze.applies_eq.trans (rz_causal.applies_issue hk trivial hp)
    have hcore : (e.applies cmd).foldl Rze.step (e.core, none) = _ := Rze.receive_core none
    rw [happlies] at hcore
    have hsets := congrArg (fun s => s.1.sets) hcore
    exact hsets.symm.trans (Rze.applyCmd_sets cmd e.core)
  · have hist := rz_history hk r
    refine ⟨?_, ?_⟩
    · rw [List.pairwise_append]
      refine ⟨hist.ordered, List.pairwise_singleton _ _, ?_⟩
      intro x hx y hy hcon
      rw [List.mem_singleton.mp hy] at hcon
      exact (hlt x hx).not_ge hcon
    · intro x hx y hy hid
      rw [List.mem_append, List.mem_singleton] at hx hy
      rcases hx with hx | rfl <;> rcases hy with hy | rfl
      · exact hist.comparable x hx y hy hid
      · exact Or.inl (hlt x hx).le
      · exact Or.inr (hlt y hy).le
      · exact Or.inl le_rfl

/-- An add where nothing is shown: it is the one survivor. -/
theorem rz_add_absent (hk : Reachable rzType.service (.once fun _ => True) k) (r : Fin n)
    (hl : (k.site r).1.lookup = false) (v : ℤ) :
    let e' := ((k.site r).1.receive ⟨.rzadd, v, vcNow (k.site r).1.current⟩).1
    e'.lookup = true ∧ e'.score = some v := by
  intro e'
  obtain ⟨hsets, hist, hlt⟩ := rz_own hk r (q := .add v) (by simp [RzReq.admits, hl])
  set cmd : RzCmd n := ⟨.rzadd, v, vcNow (k.site r).1.current⟩ with hcmd
  have hkind : rzOps.kind cmd ≠ .upd := by
    show RwKind.add ≠ .upd
    decide
  have hholds : rzOps.Holds (rz_causal.log k r ++ [cmd]) e'.sets := by
    rw [show e'.sets = _ from hsets]
    exact (rz_state hk r).1.add hist rfl
  have hlook : e'.sets.lookup = true := by
    refine hholds.lookup_iff.mpr ⟨⟨cmd, by simp, rfl⟩, ?_⟩
    intro x hx hrem
    rcases List.mem_append.mp hx with hx | hx
    · exact ⟨cmd, by simp, rfl, hlt x hx⟩
    · rw [List.mem_singleton.mp hx] at hrem
      cases hrem
  obtain ⟨x, hx, hentry, -, -⟩ := hholds.entry hlook
  have hxcmd : x = cmd := by
    rcases List.mem_append.mp hx.mem with hmem | hmem
    · exact absurd (hlt x hmem) (hx.not_lt cmd (by simp) hkind)
    · exact List.mem_singleton.mp hmem
  refine ⟨hlook, ?_⟩
  show (e'.sets.entry RzAse.t).map _ = _
  rw [show e'.sets.entry RzAse.t = _ from hentry, hxcmd,
    RwOps.content_snoc_of_ne hkind,
    show rzOps.content (rz_causal.log k r) cmd = rzOps.new cmd from hist.content_last]
  exact congrArg some (add_zero v)

/-- An increment moves the entry that counts. -/
theorem rz_incrby_present (hk : Reachable rzType.service (.once fun _ => True) k)
    (r : Fin n) (hl : (k.site r).1.lookup = true) (v : ℤ) :
    let e := (k.site r).1
    let e' := (e.receive ⟨.rzincby, v, vcNow e.current⟩).1
    e'.lookup = true ∧ ∃ x, e.score = some x ∧ e'.score = some (x + v) := by
  intro e e'
  obtain ⟨hsets, hist, hlt⟩ := rz_own hk r (q := .incrby v) hl
  set cmd : RzCmd n := ⟨.rzincby, v, vcNow (k.site r).1.current⟩ with hcmd
  have hlook : e'.lookup = e.lookup := by
    show e'.sets.lookup = e.sets.lookup
    rw [show e'.sets = _ from hsets]
    exact Rze.lookup_increase _ _
  obtain ⟨x, hx, hentry, -, -⟩ := (rz_state hk r).1.entry hl
  have hbelow : RwSets.below cmd.t x.t = true :=
    (hist.below_iff (List.mem_append_left _ hx.mem) (by simp)).mpr (hlt x hx.mem)
  have hupd := Rze.entry_increase cmd e.sets
  rw [show e.sets.entry RzAse.t = _ from hentry, Option.map_some] at hupd
  have hstamp : (rzOps.content (rz_causal.log k r) x).t = x.t :=
    RwOps.stamp_content (D := rzOps) _ _
  have hmoved : rzOps.upd cmd (rzOps.content (rz_causal.log k r) x)
      = { rzOps.content (rz_causal.log k r) x with
          inc := (rzOps.content (rz_causal.log k r) x).inc + v } :=
    if_pos (by rw [hstamp]; exact hbelow)
  refine ⟨hlook.trans hl, (rzOps.content (rz_causal.log k r) x).x
    + (rzOps.content (rz_causal.log k r) x).inc, ?_, ?_⟩
  · show (e.sets.entry RzAse.t).map _ = _
    rw [show e.sets.entry RzAse.t = _ from hentry]
    rfl
  · show (e'.sets.entry RzAse.t).map _ = _
    rw [show e'.sets.entry RzAse.t = _ from (congrArg (RwSets.entry RzAse.t) hsets).trans hupd,
      hmoved, Option.map_some, ← add_assoc]

end

-- ======================================================= the RWF queue

section

variable {k : Config n (Rwfze n × Option Score) (RwfzOp n)}

/-- Nothing of a previous epoch is left in an element that does not
exist. -/
theorem rwfz_acquired_nexist (hk : Reachable rwfzType.service (.once fun _ => True) k)
    (r : Fin n) (hex : (k.site r).1.header.exist = false) : (k.site r).1.acquired = 0 := by
  have hspec := rwfz_spec hk r
  have hpid : (k.site r).1.header.pid = pidNexist := by
    simpa [Reh.exist] using hex
  have hheld := hspec.held
  rw [hpid] at hheld
  rw [hspec.acquired]
  refine List.sum_eq_zero fun x hx => ?_
  obtain ⟨o, ho, rfl⟩ := List.mem_map.mp hx
  obtain ⟨ho, hcur⟩ := List.mem_filter.mp ho
  have hnone : ∀ w ∈ k.got r, ∀ v t, w.msg = .incrby v t →
      t.vector ≠ (k.site r).1.header.current.vector := by
    generalize hp : pidNexist = p at hheld
    generalize (k.site r).1.innate = a at hheld
    cases hheld with
    | add w v t hw hmsg ht hmax =>
        have hid : (0 : ℤ) ≤ (w.src : ℤ) := Int.natCast_nonneg _
        unfold pidNexist at hp
        omega
    | wait hadd hinc => cases hp
    | nexist hadd hinc => exact hinc
  cases hmsg : o.msg with
  | add v t => rfl
  | rem t => rfl
  | incrby v t =>
      have hcur := of_decide_eq_true hcur
      rw [hmsg] at hcur
      exact absurd hcur (hnone o ho v t hmsg)

end

namespace Rwfze

variable {e : Rwfze n}

theorem add_absent (hex : e.header.exist = false) (hacq : e.acquired = 0) (v : ℤ) :
    (addEffect v e.header.current e).1.header.exist = true ∧
      (addEffect v e.header.current e).1.score = v := by
  have hpid : e.header.pid = pidNexist := by simpa [Reh.exist] using hex
  have hlt : e.header.pid < (e.header.current.id : ℤ) := by
    have hid : (0 : ℤ) ≤ (e.header.current.id : ℤ) := Int.natCast_nonneg _
    rw [hpid]
    unfold pidNexist
    omega
  have hcheck := Reh.addCheck_of_eq (h := e.header) (t := e.header.current) rfl
  rw [if_pos hlt] at hcheck
  have hexist := Reh.addCheck_exist hcheck
  simp only [addEffect, removeFunc, Reh.removeBy_of_le le_rfl, hcheck, score, hacq, add_zero]
  exact ⟨hexist, trivial⟩

theorem incrby_present (hex : e.header.exist = true) (v : ℤ) :
    (incrbyEffect v e.header.current e).1.header.exist = true ∧
      (incrbyEffect v e.header.current e).1.score = e.score + v := by
  have hpid : e.header.pid ≠ pidNexist := by simpa [Reh.exist] using hex
  have hcheck := Reh.updateCheck_of_eq (h := e.header) (t := e.header.current) rfl
  rw [if_neg hpid] at hcheck
  simp only [incrbyEffect, removeFunc, Reh.removeBy_of_le le_rfl, hcheck, score, add_assoc]
  exact ⟨hex, trivial⟩

theorem rem_present : (remEffect (vcNow e.header.current) e).1.header.exist = false := by
  have hnot : ¬ (vcNow e.header.current).vector ≤ e.header.current.vector := by
    intro hle
    have hself : (vcNow e.header.current).vector e.header.current.id
        ≤ e.header.current.vector e.header.current.id := hle _
    rw [vcNow_self] at hself
    omega
  rw [remEffect, removeFunc, Reh.removeBy_of_not_le hnot]
  rfl

end Rwfze

-- ============================================================ the queues

/-- A priority queue: its table and commands, its existence test and
`SCORE`. -/
structure Queue (n : ℕ) (R : Type) where
  table : Table n R
  add : Cmd
  incrby : Cmd
  rem : Cmd
  lookup : R → Bool
  score : R → Score

namespace Queue

variable {R : Type} (Q : Queue n R) (dbl : String → Option ℤ) (me : Fin n) (db : Db n)
  (tname key : String)

/-- Server `me` accepts the vector or not, leaves a record with `post` if
it does, and changes no other element. -/
def Serves (argv : List String) (accept : Bool) (post : R → Prop) : Prop :=
  ∃ db', runCommand dbl me argv db = some (db', accept) ∧
    (accept = true → post (Q.table.recordOf me db' tname key)) ∧
    Q.table.Frame me tname key db db'

/-- The commands on element `key` of `tname` do what they do in a
sequential priority queue. -/
structure Sequential : Prop where
  add : ∀ name w v, lookupCommand name = some Q.add → dbl w = some v →
    Q.Serves dbl me db tname key [name, tname, key, w]
      (!Q.lookup (Q.table.recordOf me db tname key))
      fun e' => Q.lookup e' = true ∧ Q.score e' = some v
  incrby : ∀ name w v, lookupCommand name = some Q.incrby → dbl w = some v →
    Q.Serves dbl me db tname key [name, tname, key, w]
      (Q.lookup (Q.table.recordOf me db tname key))
      fun e' => Q.lookup e' = true ∧
        ∃ x, Q.score (Q.table.recordOf me db tname key) = some x ∧ Q.score e' = some (x + v)
  rem : ∀ name, lookupCommand name = some Q.rem →
    Q.Serves dbl me db tname key [name, tname, key]
      (Q.lookup (Q.table.recordOf me db tname key))
      fun e' => Q.lookup e' = false

variable {Q dbl me db tname key}

theorem Serves.of_does (c : Cmd) (cmd : ElemCommand n R) {name : String} {args : List String}
    {accept : Bool} {post : R → Prop} (hproc : c.proc = Proc.elem Q.table cmd)
    (hname : lookupCommand name = some c) (harity : c.arity ≤ args.length + 3)
    (hwf : cmd.WellFormed dbl (name :: tname :: key :: args))
    (hmissing : cmd.RefusesMissing (Q.table.new me) me) (hun : Q.table.Uniform db)
    (htyped : Q.table.Typed tname db)
    (hdoes : cmd.Does dbl me (name :: tname :: key :: args) (Q.table.recordOf me db tname key)
      post accept) : Q.Serves dbl me db tname key (name :: tname :: key :: args) accept post :=
  runCommand_spec hproc hname harity hwf hmissing hun htyped hdoes

end Queue

/-- The add-wins priority queue, over a memory where an unwritten `x` of
tag `t` holds `g t`. -/
def ozQueue (g : Lc → ℤ) : Queue n Oze :=
  ⟨ozeTable, .ozadd, .ozincrby, .ozrem, Oze.lookup, Oze.scoreOver g⟩

/-- The remove-wins priority queue. -/
def rzQueue : Queue n (Rze n) :=
  ⟨rzeTable, .rzadd, .rzincrby, .rzrem, Rze.lookup, Rze.score⟩

/-- The RWF priority queue. -/
def rwfzQueue : Queue n (Rwfze n) :=
  ⟨rwfzeTable, .rwfzadd, .rwfzincrby, .rwfzrem, fun e => e.header.exist,
    fun e => some e.score⟩

section

variable {dbl : String → Option ℤ} {k : Net n} {tname key : String}

/-- A vector that names a number where the command wants one. -/
theorem ElemCommand.WellFormed.of_double {R : Type} {cmd : ElemCommand n R}
    {name w : String} {v : ℤ} (hmax : cmd.maxArgc = 4) (hchecks : cmd.checks = [(3, .double)])
    (hw : dbl w = some v) : cmd.WellFormed dbl [name, tname, key, w] := by
  refine ⟨by simp, by simp [hmax], ?_⟩
  simp [failedCheck, hchecks, checkArgType, hw]

theorem oz_sequential (hk : Reachable (crdtService dbl) (.once (Issues ozCmds)) k) (r : Fin n)
    (htyped : ozeTable.Typed tname (k.site r)) (g : Lc → ℤ) :
    (ozQueue g).Sequential dbl r (k.site r) tname key := by
  have hcmds : ∀ c ∈ ozCmds, ((ozType (n := n)).command c).isSome := by
    simp [ozCmds, ozType, ozCommand]
  have hun : ozeTable.Uniform (k.site r) :=
    ElemType.uniform (E := ozType) (fun _ h => ElemType.command_of_issues hcmds h) hk r
  have hat := ElemType.reachable_once hcmds hk tname key
  have hholds := oz_holds hat r
  have hfresh := oz_next_tag hat r
  set e : Oze := ozeTable.recordOf r (k.site r) tname key with he
  refine ⟨fun name w v hname hw => ?_, fun name w v hname hw => ?_, fun name hname => ?_⟩
  · refine Queue.Serves.of_does .ozadd ozaddCommand rfl hname le_rfl
      (.of_double rfl rfl hw) (fun hc => by cases hc) hun htyped ?_
    show ozaddCommand.Does dbl r [name, tname, key, w] e _ (!e.lookup)
    cases hl : e.lookup with
    | true => exact ⟨.eleExist, by simp [ozaddCommand, hl]⟩
    | false =>
        refine ⟨{ e with current := e.current + 1 }, [.lc ⟨e.current, r⟩],
          Oze.addEffect v ⟨e.current, r⟩, by simp [ozaddCommand, hl], ?_, ?_⟩
        · simp [ozaddCommand, strAt, lcAt, hw]
        · obtain ⟨hlook, hscore⟩ := hholds.add_absent hl hfresh v (e.current + 1)
          exact ⟨hlook, Oze.scoreOver_eq hscore g⟩
  · refine Queue.Serves.of_does .ozincrby ozincrbyCommand rfl hname le_rfl
      (.of_double rfl rfl hw) (fun _ => ⟨⟨_, rfl⟩, ⟨_, rfl⟩⟩) hun htyped ?_
    show ozincrbyCommand.Does dbl r [name, tname, key, w] e _ e.lookup
    cases hl : e.lookup with
    | false => exact ⟨.eleNexist, by simp [ozincrbyCommand, Oze.nonAddPrepare, hl]⟩
    | true =>
        refine ⟨e, e.tags.map Arg.lc, Oze.incrbyEffect v e.tags,
          by simp [ozincrbyCommand, Oze.nonAddPrepare, hl], ?_, hholds.incrby_present hl v g⟩
        simp only [ozincrbyCommand, tagsFrom_words (n := n) (show [name, tname, key, w].length = 4
          from rfl)]
        simp [strAt, hw]
  · refine Queue.Serves.of_does .ozrem ozremCommand rfl hname le_rfl
      ⟨le_rfl, le_rfl, rfl⟩ (fun _ => ⟨⟨_, rfl⟩, ⟨_, rfl⟩⟩) hun htyped ?_
    show ozremCommand.Does dbl r [name, tname, key] e _ e.lookup
    cases hl : e.lookup with
    | false => exact ⟨.eleNexist, by simp [ozremCommand, Oze.nonAddPrepare, hl]⟩
    | true =>
        refine ⟨e, e.tags.map Arg.lc, Oze.remEffect e.tags,
          by simp [ozremCommand, Oze.nonAddPrepare, hl], ?_, hholds.rem_present⟩
        simp only [ozremCommand, tagsFrom_words (n := n) (show [name, tname, key].length = 3
          from rfl), Option.map_some]

theorem rz_sequential (hk : Reachable (crdtService dbl) (.once (Issues rzCmds)) k) (r : Fin n)
    (htyped : rzeTable.Typed tname (k.site r)) :
    rzQueue.Sequential dbl r (k.site r) tname key := by
  have hcmds : ∀ c ∈ rzCmds, ((rzType (n := n)).command c).isSome := by
    simp [rzCmds, rzType, rzCommand]
  have hun : rzeTable.Uniform (k.site r) :=
    ElemType.uniform (E := rzType) (fun _ h => ElemType.command_of_issues hcmds h) hk r
  have hat := ElemType.reachable_once hcmds hk tname key
  have hadd := rz_add_absent hat r
  have hincr := rz_incrby_present hat r
  have hrem := fun hl => (rz_own hat r (q := .rem) hl).1
  set e : Rze n := rzeTable.recordOf r (k.site r) tname key with he
  refine ⟨fun name w v hname hw => ?_, fun name w v hname hw => ?_, fun name hname => ?_⟩
  · refine Queue.Serves.of_does .rzadd rzaddCommand rfl hname le_rfl
      (.of_double rfl rfl hw) (fun hc => by cases hc) hun htyped ?_
    show rzaddCommand.Does dbl r [name, tname, key, w] e _ (!e.lookup)
    cases hl : e.lookup with
    | true => exact ⟨.eleExist, by simp [rzaddCommand, hl]⟩
    | false =>
        refine ⟨e, [.vc (vcNow e.current)], Rze.receive ⟨.rzadd, v, vcNow e.current⟩,
          by simp [rzaddCommand, hl], ?_, hadd hl v⟩
        simp [rzaddCommand, strAt, vcAt, hw]
  · refine Queue.Serves.of_does .rzincrby rzincrbyCommand rfl hname le_rfl
      (.of_double rfl rfl hw) (fun _ => ⟨⟨_, rfl⟩, ⟨_, rfl⟩⟩) hun htyped ?_
    show rzincrbyCommand.Does dbl r [name, tname, key, w] e _ e.lookup
    cases hl : e.lookup with
    | false => exact ⟨.eleNexist, by simp [rzincrbyCommand, Rze.nonAddPrepare, hl]⟩
    | true =>
        refine ⟨e, [.vc (vcNow e.current)], Rze.receive ⟨.rzincby, v, vcNow e.current⟩,
          by simp [rzincrbyCommand, Rze.nonAddPrepare, hl], ?_, hincr hl v⟩
        simp [rzincrbyCommand, strAt, vcAt, hw]
  · refine Queue.Serves.of_does .rzrem rzremCommand rfl hname le_rfl
      ⟨le_rfl, le_rfl, rfl⟩ (fun _ => ⟨⟨_, rfl⟩, ⟨_, rfl⟩⟩) hun htyped ?_
    show rzremCommand.Does dbl r [name, tname, key] e _ e.lookup
    cases hl : e.lookup with
    | false => exact ⟨.eleNexist, by simp [rzremCommand, Rze.nonAddPrepare, hl]⟩
    | true =>
        refine ⟨e, [.vc (vcNow e.current)], Rze.receive ⟨.rzrem, 0, vcNow e.current⟩,
          by simp [rzremCommand, Rze.nonAddPrepare, hl], ?_, ?_⟩
        · simp [rzremCommand, vcAt]
        · exact (congrArg RwSets.lookup (hrem hl)).trans (RwSets.lookup_remove _)

theorem rwfz_sequential (hk : Reachable (crdtService dbl) (.once (Issues rwfzCmds)) k)
    (r : Fin n) (htyped : rwfzeTable.Typed tname (k.site r)) :
    rwfzQueue.Sequential dbl r (k.site r) tname key := by
  have hcmds : ∀ c ∈ rwfzCmds, ((rwfzType (n := n)).command c).isSome := by
    simp [rwfzCmds, rwfzType, rwfzCommand]
  have hun : rwfzeTable.Uniform (k.site r) :=
    ElemType.uniform (E := rwfzType) (fun _ h => ElemType.command_of_issues hcmds h) hk r
  have hacq := rwfz_acquired_nexist (ElemType.reachable_once hcmds hk tname key) r
  set e : Rwfze n := rwfzeTable.recordOf r (k.site r) tname key with he
  refine ⟨fun name w v hname hw => ?_, fun name w v hname hw => ?_, fun name hname => ?_⟩
  · refine Queue.Serves.of_does .rwfzadd rwfzaddCommand rfl hname le_rfl
      (.of_double rfl rfl hw) (fun hc => by cases hc) hun htyped ?_
    show rwfzaddCommand.Does dbl r [name, tname, key, w] e _ (!e.header.exist)
    cases hl : e.header.exist with
    | true => exact ⟨.eleExist, by simp [rwfzaddCommand, rwfAddPrepare, hl]⟩
    | false =>
        refine ⟨e, [.vc e.header.current], Rwfze.addEffect v e.header.current,
          by simp [rwfzaddCommand, rwfAddPrepare, hl], ?_, ?_⟩
        · simp [rwfzaddCommand, strAt, crGetLast, vcAt, hw]
        · obtain ⟨hex, hscore⟩ := Rwfze.add_absent hl (hacq hl) v
          exact ⟨hex, congrArg some hscore⟩
  · refine Queue.Serves.of_does .rwfzincrby rwfzincrbyCommand rfl hname le_rfl
      (.of_double rfl rfl hw) (fun _ => ⟨⟨_, rfl⟩, ⟨_, rfl⟩⟩) hun htyped ?_
    show rwfzincrbyCommand.Does dbl r [name, tname, key, w] e _ e.header.exist
    cases hl : e.header.exist with
    | false => exact ⟨.eleNexist, by simp [rwfzincrbyCommand, rwfNonAddPrepare, hl]⟩
    | true =>
        refine ⟨e, [.vc e.header.current], Rwfze.incrbyEffect v e.header.current,
          by simp [rwfzincrbyCommand, rwfNonAddPrepare, hl], ?_, ?_⟩
        · simp [rwfzincrbyCommand, strAt, crGetLast, vcAt, hw]
        · obtain ⟨hex, hscore⟩ := Rwfze.incrby_present hl v
          exact ⟨hex, e.score, rfl, congrArg some hscore⟩
  · refine Queue.Serves.of_does .rwfzrem rwfzremCommand rfl hname le_rfl
      ⟨le_rfl, le_rfl, rfl⟩ (fun _ => ⟨⟨_, rfl⟩, ⟨_, rfl⟩⟩) hun htyped ?_
    show rwfzremCommand.Does dbl r [name, tname, key] e _ e.header.exist
    cases hl : e.header.exist with
    | false => exact ⟨.eleNexist, by simp [rwfzremCommand, rwfNonAddPrepare, hl]⟩
    | true =>
        refine ⟨e, [.vc (vcNow e.header.current)], Rwfze.remEffect (vcNow e.header.current),
          by simp [rwfzremCommand, rwfNonAddPrepare, hl], ?_, Rwfze.rem_present⟩
        simp [rwfzremCommand, crGetLast, vcAt]

end

/-- Each server is a sequential priority queue to its own clients, in
every reachable state and for every element of a container whose keys have
their types. -/
theorem queues_sequential (dbl : String → Option ℤ) (tname key : String) (r : Fin n) :
    (∀ k, Reachable (crdtService dbl) (.once (Issues ozCmds)) k →
      ozeTable.Typed tname (k.site r) →
        ∀ g, (ozQueue g).Sequential dbl r (k.site r) tname key) ∧
    (∀ k, Reachable (crdtService dbl) (.once (Issues rzCmds)) k →
      rzeTable.Typed tname (k.site r) → rzQueue.Sequential dbl r (k.site r) tname key) ∧
    ∀ k, Reachable (crdtService dbl) (.once (Issues rwfzCmds)) k →
      rwfzeTable.Typed tname (k.site r) → rwfzQueue.Sequential dbl r (k.site r) tname key :=
  ⟨fun _ hk htyped g => oz_sequential hk r htyped g,
    fun _ hk htyped => rz_sequential hk r htyped,
    fun _ hk htyped => rwfz_sequential hk r htyped⟩

/-- The states the schedules of the three queues end in: an add-wins queue
whose `innate` points to an entry nothing was written to, a remove-wins
queue with an operation in its buffer, and an RWF queue with two adds and
an increment. -/
theorem queues_sequential_schedules :
    (∃ k : Net 3, Reachable (crdtService getLongLongFromObject) (.once (Issues ozCmds)) k ∧
      (ozeTable.recordOf 0 (k.site 0) "z" "a").score = none ∧
      ∀ g, (ozQueue g).Sequential getLongLongFromObject 0 (k.site 0) "z" "a") ∧
    (∃ k : Net 3, Reachable (crdtService getLongLongFromObject) (.once (Issues rzCmds)) k ∧
      (rzeTable.recordOf 2 (k.site 2) "z" "a").ops ≠ [] ∧
      rzQueue.Sequential getLongLongFromObject 2 (k.site 2) "z" "a") ∧
    ∃ k : Net 2, Reachable (crdtService getLongLongFromObject) (.once (Issues rwfzCmds)) k ∧
      scoreOf (k.site 0) "z" "a" = some (some 9) ∧
      rwfzQueue.Sequential getLongLongFromObject 0 (k.site 0) "z" "a" := by
  refine ⟨?_, ?_, ?_⟩
  · obtain ⟨k, hrun, htypes, hscore⟩ : ∃ k : Net 3, (crdtService getLongLongFromObject).run
        (crdtService getLongLongFromObject).start (ozSchedule.take 8) = some k ∧
        ozeTable.types "z" (k.site 0) = true ∧
        (ozeTable.recordOf 0 (k.site 0) "z" "a").score = none := ⟨_, rfl, by decide, by decide⟩
    have hk : Reachable (crdtService getLongLongFromObject) (.once (Issues ozCmds)) k :=
      Service.run_reachable (by decide) hrun
    exact ⟨k, hk, hscore, (queues_sequential _ "z" "a" 0).1 k hk (.of_types htypes)⟩
  · obtain ⟨k, hrun, htypes, hops⟩ : ∃ k : Net 3, (crdtService getLongLongFromObject).run
        (crdtService getLongLongFromObject).start rzSchedule = some k ∧
        rzeTable.types "z" (k.site 2) = true ∧
        (rzeTable.recordOf 2 (k.site 2) "z" "a").ops ≠ [] := ⟨_, rfl, by decide, by decide⟩
    have hk : Reachable (crdtService getLongLongFromObject) (.once (Issues rzCmds)) k :=
      Service.run_reachable (by decide) hrun
    exact ⟨k, hk, hops, (queues_sequential _ "z" "a" 2).2.1 k hk (.of_types htypes)⟩
  · obtain ⟨k, hrun, htypes, hscore⟩ : ∃ k : Net 2, (crdtService getLongLongFromObject).run
        (crdtService getLongLongFromObject).start rwfzSchedule = some k ∧
        rwfzeTable.types "z" (k.site 0) = true ∧
        scoreOf (k.site 0) "z" "a" = some (some 9) := ⟨_, rfl, by decide, by decide⟩
    have hk : Reachable (crdtService getLongLongFromObject) (.once (Issues rwfzCmds)) k :=
      Service.run_reachable (by decide) hrun
    exact ⟨k, hk, hscore, (queues_sequential _ "z" "a" 0).2.2 k hk (.of_types htypes)⟩

end CrdtRedis
