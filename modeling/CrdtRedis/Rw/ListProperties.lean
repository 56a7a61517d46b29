/-
The properties of the elements of a remove-wins list (`updateFunc` and
`rllistCommand` of t_rlist.c).

Servers that applied the same commands keep the same entries of an element
and show the same one of them (`RwOps.History.entry_unique`), and what it
shows of a property is what the arbitration makes of the updates above its
insert (`rlOps_content_state`). So they show the same if the updates of the
property come in layers (`rl_properties_agree`); two updates of one server
beside one of another are enough for them to differ (`rl_fonts_differ`).
-/
import CrdtRedis.Rw.Arbitration
import CrdtRedis.Rw.ListLength

namespace CrdtRedis

open Replication

variable {n : ℕ}

-- ================================================= the entry of an insert

/-- The entry that counts is the same wherever the same was applied. -/
theorem RwOps.History.entry_unique {A O : Type} {D : RwOps n A O} {L L' : List O}
    (hist : D.History L) (hmem : ∀ o, o ∈ L' ↔ o ∈ L) {x x' : O} (hx : D.Survives L x)
    (hmax : ∀ y, D.Survives L y → (D.t y).id ≤ (D.t x).id) (hx' : D.Survives L' x')
    (hmax' : ∀ y, D.Survives L' y → (D.t y).id ≤ (D.t x').id) : x' = x := by
  have hback : D.Survives L x' :=
    ⟨(hmem x').mp hx'.mem, hx'.kind, fun y hy => hx'.not_lt y ((hmem y).mpr hy)⟩
  have hover : D.Survives L' x :=
    ⟨(hmem x).mpr hx.mem, hx.kind, fun y hy => hx.not_lt y ((hmem y).mp hy)⟩
  have hid := le_antisymm (hmax x' hback) (hmax' x hover)
  exact eq_of_pairwise_not_le hist.ordered hback.mem hx.mem (hist.survives_unique hback hx hid)

/-- The command is an update of property `q`. -/
def RlCmd.Updates (q : Property) (cmd : RlCmd n) : Prop :=
  cmd.type = .rlupdate ∧ (strAt 2 cmd.argv).bind Property.ofType = some q

instance (q : Property) : DecidablePred (RlCmd.Updates (n := n) q) := fun _ =>
  inferInstanceAs (Decidable (_ ∧ _))

/-- What an update of property `q` writes. -/
def RlCmd.write (q : Property) (cmd : RlCmd n) : Write n Score :=
  (cmd.t, some (q.shown (((strAt 3 cmd.argv).bind getLongLongFromObject).getD 0)))

/-- The clock of property `q` in an entry, and what it shows. -/
def RlAse.state (q : Property) (a : RlAse n) : Write n Score := (a.clock q, a.props.get q)

theorem RlAse.state_update (q p : Property) (v : ℤ) (t : Vc n) (a : RlAse n) :
    (a.update p v t).state q = if p = q ∧ RwSets.below t a.t = true
      then arbitrate (a.state q) (t, some (q.shown v)) else a.state q := by
  by_cases htaken : (RwSets.below t a.t && decide ((vcCmp (a.clock p) t).code < 0)) = true
  · rw [RlAse.update, if_pos htaken]
    obtain ⟨hbelow, hcmp⟩ := Bool.and_eq_true_iff.mp htaken
    have hcmp : (vcCmp (a.state p).1 t).code < 0 := of_decide_eq_true hcmp
    by_cases hp : p = q
    · subst hp
      rw [if_pos ⟨rfl, hbelow⟩, arbitrate, if_pos hcmp]
      simp only [state, Function.update_self, Props.get_set_self]
    · rw [if_neg fun hcon => hp hcon.1]
      simp only [state, Function.update_of_ne (Ne.symm hp), Props.get_set_ne _ _ (Ne.symm hp)]
  · rw [RlAse.update, if_neg htaken]
    by_cases hboth : p = q ∧ RwSets.below t a.t = true
    · obtain ⟨rfl, hbelow⟩ := hboth
      have hcmp : ¬ (vcCmp (a.state p).1 t).code < 0 := fun hcon =>
        htaken (Bool.and_eq_true_iff.mpr ⟨hbelow, decide_eq_true hcon⟩)
      rw [if_pos ⟨rfl, hbelow⟩, arbitrate, if_neg hcmp]
    · rw [if_neg hboth]

/-- An update moves the state of its property in the entries below it. -/
theorem rlOps_upd_state (q : Property) {o : RlCmd n} (ho : o.type = .rlupdate) (a : RlAse n) :
    (rlOps.upd o a).state q = if o.Updates q ∧ RwSets.below o.t a.t = true
      then arbitrate (a.state q) (o.write q) else a.state q := by
  cases hq : (strAt 2 o.argv).bind Property.ofType with
  | none =>
      have hupd : rlOps.upd o a = a := by simp [rlOps, hq]
      rw [hupd, if_neg fun hcon => by simp [RlCmd.Updates, hq] at hcon]
  | some p =>
      have hupd : rlOps.upd o a
          = a.update p (((strAt 3 o.argv).bind getLongLongFromObject).getD 0) o.t := by
        simp [rlOps, hq]
      have hiff : p = q ↔ o.Updates q := by simp [RlCmd.Updates, ho, hq]
      rw [hupd, RlAse.state_update]
      simp only [hiff]
      rfl

/-- The updates of `L` that write to property `q` of the entry of `x`. -/
def writesTo (q : Property) (x : RlCmd n) (L : List (RlCmd n)) : List (Write n Score) :=
  (L.filter fun u => decide (u.Updates q ∧ RwSets.below u.t x.t = true)).map (RlCmd.write q)

/-- A property of an entry is what the arbitration makes of the updates
above the insert. -/
theorem rlOps_content_state (q : Property) (x : RlCmd n) (L : List (RlCmd n)) :
    (rlOps.content L x).state q
      = (writesTo q x L).foldl arbitrate ((rlOps.new x).state q) := by
  induction L using List.reverseRecOn with
  | nil => rfl
  | append_singleton L o ih =>
      have ht : (rlOps.content L x).t = x.t := RwOps.stamp_content (D := rlOps) L x
      have hsnoc : writesTo q x (L ++ [o]) = writesTo q x L ++
          if o.Updates q ∧ RwSets.below o.t x.t = true then [o.write q] else [] := by
        rw [writesTo, List.filter_append, List.map_append, ← writesTo]
        by_cases hboth : o.Updates q ∧ RwSets.below o.t x.t = true
        · rw [if_pos hboth, List.filter_singleton, decide_eq_true hboth]
          rfl
        · rw [if_neg hboth, List.filter_singleton, decide_eq_false hboth]
          rfl
      rw [hsnoc, List.foldl_append, ← ih]
      by_cases ho : o.type = .rlupdate
      · have hupd : rlOps.kind o = .upd := by simp [rlOps, ho]
        rw [RwOps.content_snoc_upd hupd, rlOps_upd_state q ho, ht]
        split <;> rfl
      · have hupd : rlOps.kind o ≠ .upd := by
          cases hty : o.type <;> simp [rlOps, hty] at ho ⊢
        rw [RwOps.content_snoc_of_ne hupd, if_neg fun hcon => ho hcon.1.1]
        rfl

section

variable {q : Property} {L L' : List (RlCmd n)} {x : RlCmd n}

/-- Of the updates of property `q`, one above one of two concurrent ones
is above the other. -/
def Layered (q : Property) (L : List (RlCmd n)) : Prop :=
  ∀ u ∈ L, ∀ v ∈ L, ∀ w ∈ L, u.Updates q → v.Updates q → w.Updates q →
    u.t.Concurrent v.t → u.t.vector < w.t.vector → v.t.vector < w.t.vector

theorem mem_writesTo (hist : rlOps.History L) (hx : x ∈ L) {w : Write n Score} :
    w ∈ writesTo q x L ↔
      ∃ u ∈ L, u.Updates q ∧ x.t.vector < u.t.vector ∧ u.write q = w := by
  rw [writesTo, List.mem_map]
  constructor
  · intro hex
    obtain ⟨u, hu, rfl⟩ := hex
    obtain ⟨huL, hcond⟩ := List.mem_filter.mp hu
    obtain ⟨hupd, hbelow⟩ := of_decide_eq_true hcond
    exact ⟨u, huL, hupd, (hist.below_iff hx huL).mp hbelow, rfl⟩
  · intro hex
    obtain ⟨u, huL, hupd, hlt, rfl⟩ := hex
    exact ⟨u, List.mem_filter.mpr ⟨huL, decide_eq_true ⟨hupd, (hist.below_iff hx huL).mpr hlt⟩⟩,
      rfl⟩

/-- An insert and the updates above it can be arbitrated. -/
theorem arbitrable_writesTo (hist : rlOps.History L) (hx : x ∈ L)
    (hseen : ∀ x ∈ L, ∀ y ∈ L, x.t.vector x.t.id ≤ y.t.vector x.t.id → x.t.vector ≤ y.t.vector)
    (hlay : Layered q L) : Arbitrable ((rlOps.new x).state q :: writesTo q x L) := by
  -- every write is of an operation of `L`, and above `x` or `x` itself
  have hof : ∀ w ∈ (rlOps.new x).state q :: writesTo q x L, ∃ u ∈ L, u.t = w.1 ∧
      (u = x ∨ u.Updates q ∧ x.t.vector < u.t.vector) := by
    intro w hw
    rcases List.mem_cons.mp hw with rfl | hw
    · exact ⟨x, hx, rfl, Or.inl rfl⟩
    · obtain ⟨u, hu, hupd, hlt, rfl⟩ := (mem_writesTo hist hx).mp hw
      exact ⟨u, hu, rfl, Or.inr ⟨hupd, hlt⟩⟩
  refine ⟨List.pairwise_cons.mpr ⟨?_, ?_⟩, ?_, ?_⟩
  · intro w hw
    obtain ⟨u, hu, hupd, hlt, rfl⟩ := (mem_writesTo hist hx).mp hw
    exact hlt.not_ge
  · rw [writesTo, List.pairwise_map]
    exact hist.ordered.sublist List.filter_sublist
  · intro w hw y hy
    obtain ⟨u, hu, hut, -⟩ := hof w hw
    obtain ⟨v, hv, hvt, -⟩ := hof y hy
    rw [← hut, ← hvt]
    exact hseen u hu v hv
  · intro w hw y hy z hz hconc hlt
    obtain ⟨u, hu, hut, hux⟩ := hof w hw
    obtain ⟨v, hv, hvt, hvx⟩ := hof y hy
    obtain ⟨c, hc, hct, hcx⟩ := hof z hz
    rw [← hut, ← hvt] at hconc
    rw [← hut, ← hct] at hlt
    rw [← hvt, ← hct]
    -- the insert is below the others, so all three are updates
    rcases hux with rfl | ⟨hu', hxu⟩
    · rcases hvx with rfl | ⟨-, hxv⟩
      · exact absurd le_rfl hconc.1
      · exact absurd hxv.le hconc.1
    rcases hvx with rfl | ⟨hv', -⟩
    · exact absurd hxu.le hconc.2
    rcases hcx with rfl | ⟨hc', -⟩
    · exact absurd hlt hxu.asymm
    exact hlay u hu v hv c hc hu' hv' hc' hconc hlt

/-- What an entry shows depends on which updates were applied, not on
their order. -/
theorem rlOps_content_agree (hist : rlOps.History L) (hist' : rlOps.History L')
    (hmem : ∀ u, u ∈ L' ↔ u ∈ L) (hx : x ∈ L)
    (hseen : ∀ x ∈ L, ∀ y ∈ L, x.t.vector x.t.id ≤ y.t.vector x.t.id → x.t.vector ≤ y.t.vector)
    (hlay : Layered q L) :
    (rlOps.content L' x).props.get q = (rlOps.content L x).props.get q := by
  have hx' : x ∈ L' := (hmem x).mpr hx
  have hseen' : ∀ x ∈ L', ∀ y ∈ L', x.t.vector x.t.id ≤ y.t.vector x.t.id →
      x.t.vector ≤ y.t.vector :=
    fun x hx y hy => hseen x ((hmem x).mp hx) y ((hmem y).mp hy)
  have hlay' : Layered q L' := fun u hu v hv w hw =>
    hlay u ((hmem u).mp hu) v ((hmem v).mp hv) w ((hmem w).mp hw)
  have hagree := arbitrate_agree (arbitrable_writesTo hist hx hseen hlay)
    (arbitrable_writesTo hist' hx' hseen' hlay') fun w => by
      rw [mem_writesTo hist hx, mem_writesTo hist' hx']
      simp only [hmem]
  rw [← rlOps_content_state, ← rlOps_content_state] at hagree
  exact hagree

end

-- ================================================================ runs

/-- `rllist` shows element `oid` with value `v` of property `q`. -/
def RlShows (h : Hash n) (oid : String) (q : Property) (v : Score) : Prop :=
  ∃ a e, rleKind.find h oid = some (some a) ∧ h.rles a = some e ∧ e.lookup = true ∧
    (Rl.elementReply e).map (fun reply => reply.2.2.get q) = some v

section

variable {dbl : String → Option ℤ} {allowed : List String → Prop}
  {k : Config n (Option (Hash n)) (RlMsg n)}

/-- The commands a server applied to an element. -/
abbrev rlLog (dbl : String → Option ℤ) (allowed : List String → Prop)
    (k : Config n (Option (Hash n)) (RlMsg n)) (r : Fin n) (oid : String) : List (RlCmd n) :=
  ((rl_causal fun argv => allowed argv ∧ (rlType (n := n)).Submits dbl argv).log k r).filter
    fun cmd => cmd.op.oid = oid

/-- A command that counts another is above it. -/
theorem rl_seen (hk : Reachable rlType.service (.once allowed) k) (r : Fin n) :
    ∀ x ∈ (rl_causal allowed).log k r, ∀ y ∈ (rl_causal allowed).log k r,
      x.t.vector x.t.id ≤ y.t.vector x.t.id → x.t.vector ≤ y.t.vector := by
  have hC := rl_causal (n := n) allowed
  intro x hx y hy hle
  obtain ⟨o, ho, rfl⟩ := hC.log_got hk hx
  obtain ⟨p, hp, rfl⟩ := hC.log_got hk hy
  have hosent := hk.ledger.got_sent r o ho
  have hpsent := hk.ledger.got_sent r p hp
  have hsrc : o.msg.cmd.t.id = o.src := hC.src_eq hk o hosent
  rw [hsrc] at hle
  rcases (hC.delivery hk).seen p hpsent o hosent hle with rfl | hbefore
  · exact le_rfl
  · exact hbefore.1.le

/-- What is shown of an element is the entry that counts. -/
theorem rl_shows (hall : ∀ argv, allowed argv → listOid argv ∉ listFields)
    (hk : Reachable rlType.service
      (.once fun argv => allowed argv ∧ (rlType (n := n)).Submits dbl argv) k) (r : Fin n)
    {oid : String} (hoid : oid ∉ listFields)
    (hvis : RlVisible ((k.site r).getD .empty) oid) :
    ∃ x, rlOps.Survives (rlLog dbl allowed k r oid) x ∧
      (∀ y, rlOps.Survives (rlLog dbl allowed k r oid) y → y.t.id ≤ x.t.id) ∧
      ∀ q, RlShows ((k.site r).getD .empty) oid q
        ((rlOps.content (rlLog dbl allowed k r oid) x).props.get q) := by
  have hlook := (rl_visible_iff hall hk r hoid).mp hvis
  obtain ⟨x, hx, hentry, -, hmax⟩ := (rl_holds hall hk r oid).entry hlook
  refine ⟨x, hx, hmax, fun q => ?_⟩
  obtain ⟨a, e, hfind, he, hshown⟩ := hvis
  obtain rfl := (rl_kept hall hk r).sound.find (fun hcon => hoid (by rw [hcon]; decide)) hfind
  rw [ListKind.bodyAt_of_heap he] at hentry
  refine ⟨_, e, hfind, he, hshown, ?_⟩
  have hentry : e.body.entry RlAse.t = some _ := hentry
  rw [Rl.elementReply, hentry]
  rfl

/-- The updates of property `q` of element `oid` that server `r` applied:
one above one of two concurrent ones is above the other. -/
def RlLayered (k : Config n (Option (Hash n)) (RlMsg n)) (r : Fin n) (oid : String)
    (q : Property) : Prop :=
  ∀ u v w, RlApplied k r u → RlApplied k r v → RlApplied k r w →
    (∀ o ∈ [u, v, w], o.msg.cmd.op.oid = oid ∧ o.msg.cmd.Updates q) →
    u.msg.t.Concurrent v.msg.t → u.msg.t.vector < w.msg.t.vector →
      v.msg.t.vector < w.msg.t.vector

/-- Servers that applied the same commands show the same value. -/
theorem rl_shows_agree (hall : ∀ argv, allowed argv → listOid argv ∉ listFields)
    (hk : Reachable rlType.service
      (.once fun argv => allowed argv ∧ (rlType (n := n)).Submits dbl argv) k) {r s : Fin n}
    (hsame : ∀ o, RlApplied k r o ↔ RlApplied k s o) {oid : String} (hoid : oid ∉ listFields)
    {q : Property} (hlay : RlLayered k r oid q)
    (hvis : RlVisible ((k.site r).getD .empty) oid) :
    ∃ v, RlShows ((k.site r).getD .empty) oid q v ∧ RlShows ((k.site s).getD .empty) oid q v := by
  -- the logs hold the same commands
  have hmem : ∀ cmd, cmd ∈ rlLog dbl allowed k s oid ↔ cmd ∈ rlLog dbl allowed k r oid := by
    intro cmd
    rw [List.mem_filter, List.mem_filter, and_congr_left_iff]
    intro _
    constructor
    · intro hlog
      obtain ⟨o, ho, rfl⟩ := rl_applied_of_log hk hlog
      exact ((hsame o).mpr ho).mem_log hk
    · intro hlog
      obtain ⟨o, ho, rfl⟩ := rl_applied_of_log hk hlog
      exact ((hsame o).mp ho).mem_log hk
  have hist := (rl_history hk r).sublist
    (List.filter_sublist (p := fun cmd : RlCmd n => decide (cmd.op.oid = oid)))
  have hist' := (rl_history hk s).sublist
    (List.filter_sublist (p := fun cmd : RlCmd n => decide (cmd.op.oid = oid)))
  have hvis' : RlVisible ((k.site s).getD .empty) oid := by
    rw [rl_visible_iff hall hk _ hoid, (rl_holds hall hk _ oid).lookup_iff] at hvis ⊢
    simpa only [hmem] using hvis
  obtain ⟨x, hx, hmax, hshow⟩ := rl_shows hall hk r hoid hvis
  obtain ⟨x', hx', hmax', hshow'⟩ := rl_shows hall hk s hoid hvis'
  obtain rfl := hist.entry_unique hmem hx hmax hx' hmax'
  refine ⟨_, hshow q, ?_⟩
  rw [← rlOps_content_agree hist hist' hmem hx.mem ?_ ?_]
  · exact hshow' q
  · intro x hx y hy
    exact rl_seen hk r x (List.mem_of_mem_filter hx) y (List.mem_of_mem_filter hy)
  · intro u hu v hv w hw huq hvq hwq
    obtain ⟨hul, huo⟩ := List.mem_filter.mp hu
    obtain ⟨hvl, hvo⟩ := List.mem_filter.mp hv
    obtain ⟨hwl, hwo⟩ := List.mem_filter.mp hw
    obtain ⟨o, ho, rfl⟩ := rl_applied_of_log hk hul
    obtain ⟨p, hp, rfl⟩ := rl_applied_of_log hk hvl
    obtain ⟨z, hz, rfl⟩ := rl_applied_of_log hk hwl
    refine hlay o p z ho hp hz ?_
    intro a ha
    simp only [List.mem_cons, List.not_mem_nil, or_false] at ha
    rcases ha with rfl | rfl | rfl
    · exact ⟨of_decide_eq_true huo, huq⟩
    · exact ⟨of_decide_eq_true hvo, hvq⟩
    · exact ⟨of_decide_eq_true hwo, hwq⟩

end

-- ========================================================== the network

/-- Servers that applied the same commands to a list show the same value
of a property of each element, where of the updates of that property none
is above one and not the other of two concurrent ones. -/
theorem rl_properties_agree (dbl : String → Option ℤ) {k : Net n}
    (hk : Reachable (crdtService dbl) (.once (Fieldless rlCmds)) k) (tname : String) {r s : Fin n}
    (hsame : ∀ o, RlApplied (rlType.readAt tname k) r o ↔ RlApplied (rlType.readAt tname k) s o)
    {oid : String} (hoid : oid ∉ listFields) {q : Property}
    (hlay : RlLayered (rlType.readAt tname k) r oid q)
    (hvis : RlVisible (listAt (k.site r) tname) oid) :
    ∃ v, RlShows (listAt (k.site r) tname) oid q v ∧ RlShows (listAt (k.site s) tname) oid q v :=
  rl_shows_agree (fun _ h => h.2)
    (ListType.reachable_once (ListType.hallowed rl_commands fun _ h => h.1) hk tname) hsame hoid
    hlay hvis

/-- Two servers update the font of an element at the same time, the second
twice if `again`, and exchange what they did. -/
def fontSchedule (again : Bool) : List (Act 2 (List String)) :=
  [.submit 0 ["rlinsert", "l", "null", "a", "x", "0", "0", "0", "0"], .deliver 1 0,
    .submit 0 ["rlupdate", "l", "a", "font", "10"],
    .submit 1 ["rlupdate", "l", "a", "font", "20"]] ++
  if again then [.submit 1 ["rlupdate", "l", "a", "font", "30"], .deliver 0 2, .deliver 0 3,
    .deliver 1 1] else [.deliver 0 2, .deliver 1 1]

/-- With empty buffers what was received was applied. -/
theorem rlApplied_iff {k : Config n (Option (Hash n)) (RlMsg n)} {r s : Fin n}
    (hbuf : ∀ i ∈ [r, s], ((k.site i).getD .empty).buf = [])
    (hgot : ∀ o, o ∈ k.got r ↔ o ∈ k.got s) (o : Op n (RlMsg n)) :
    RlApplied k r o ↔ RlApplied k s o := by
  have hnone : ∀ i ∈ [r, s], o.msg.cmd ∉ ((k.site i).getD .empty).buf := by
    intro i hi
    rw [hbuf i hi]
    exact List.not_mem_nil
  constructor
  · exact fun ho => ⟨(hgot o).mp ho.got, hnone s (by simp)⟩
  · exact fun ho => ⟨(hgot o).mpr ho.got, hnone r (by simp)⟩

/-- The fonts `rllist` replies. -/
def fonts (h : Hash n) : Option (List Score) :=
  (rllistCommand h).map fun reply => reply.2.map fun e => e.2.2.get (.normal .font)

/-- The larger server id wins where both update once. -/
theorem rl_properties_agree_fonts : ∃ k : Net 2,
    Reachable (crdtService getLongLongFromObject) (.once (Fieldless rlCmds)) k ∧
    fonts (listAt (k.site 0) "l") = some [some 20] ∧
    ∃ v, RlShows (listAt (k.site 0) "l") "a" (.normal .font) v ∧
      RlShows (listAt (k.site 1) "l") "a" (.normal .font) v := by
  obtain ⟨k, a, b, c, hrun, hbuf, hgot, hgot', hfonts, hadd, hvis⟩ :
      ∃ (k : Net 2) (a b c : Op 2 (RlMsg 2)),
        (crdtService getLongLongFromObject).run (crdtService getLongLongFromObject).start
          (fontSchedule false) = some k ∧
        (∀ i ∈ [(0 : Fin 2), 1], (((rlType.readAt "l" k).site i).getD .empty).buf = []) ∧
        (rlType.readAt "l" k).got 0 = [a, b, c] ∧ (rlType.readAt "l" k).got 1 = [a, c, b] ∧
        fonts (listAt (k.site 0) "l") = some [some 20] ∧ a.msg.cmd.type = .rladd ∧
        RlVisible (listAt (k.site 0) "l") "a" :=
    ⟨_, _, _, _, rfl, by decide, rfl, rfl, by decide, rfl, _, _, rfl, rfl, by decide⟩
  have hk : Reachable (crdtService getLongLongFromObject) (.once (Fieldless rlCmds)) k :=
    Service.run_reachable (by decide) hrun
  refine ⟨k, hk, hfonts, rl_properties_agree getLongLongFromObject hk "l" (rlApplied_iff hbuf ?_)
    (by decide) ?_ hvis⟩
  · intro o
    rw [hgot, hgot']
    simp only [List.mem_cons, List.not_mem_nil, or_false]
    tauto
  · -- there are only two updates
    intro u v w hu hv hw hupd hconc hlt
    have htwo : ∀ o, RlApplied (rlType.readAt "l" k) 0 o → o ∈ [u, v, w] → o = b ∨ o = c := by
      intro o ho hmem
      have hin := ho.got
      rw [hgot] at hin
      simp only [List.mem_cons, List.not_mem_nil, or_false] at hin
      rcases hin with rfl | hin
      · have htype := (hupd o hmem).2.1
        rw [hadd] at htype
        cases htype
      · exact hin
    have huv : u ≠ v := fun hcon => hconc.1 (hcon ▸ le_rfl)
    have huw : u ≠ w := fun hcon => lt_irrefl _ (hcon ▸ hlt)
    have hvw : v ≠ w := fun hcon => hconc.1 (hcon ▸ hlt.le)
    rcases htwo u hu (by simp) with rfl | rfl <;> rcases htwo v hv (by simp) with rfl | rfl <;>
      rcases htwo w hw (by simp) with rfl | rfl <;> contradiction

/-- If the second server updates twice, the first takes only the first of
the two: its clock of the font then counts more than they do. -/
theorem rl_fonts_differ : ∃ k : Net 2,
    Reachable (crdtService getLongLongFromObject) (.once (Fieldless rlCmds)) k ∧
    (∀ o, RlApplied (rlType.readAt "l" k) 0 o ↔ RlApplied (rlType.readAt "l" k) 1 o) ∧
    fonts (listAt (k.site 0) "l") = some [some 20] ∧
    fonts (listAt (k.site 1) "l") = some [some 30] := by
  obtain ⟨k, a, b, c, d, hrun, hbuf, hgot, hgot', hfonts, hfonts'⟩ :
      ∃ (k : Net 2) (a b c d : Op 2 (RlMsg 2)),
        (crdtService getLongLongFromObject).run (crdtService getLongLongFromObject).start
          (fontSchedule true) = some k ∧
        (∀ i ∈ [(0 : Fin 2), 1], (((rlType.readAt "l" k).site i).getD .empty).buf = []) ∧
        (rlType.readAt "l" k).got 0 = [a, b, c, d] ∧ (rlType.readAt "l" k).got 1 = [a, c, d, b] ∧
        fonts (listAt (k.site 0) "l") = some [some 20] ∧
        fonts (listAt (k.site 1) "l") = some [some 30] :=
    ⟨_, _, _, _, _, rfl, by decide, rfl, rfl, by decide, by decide⟩
  refine ⟨k, Service.run_reachable (by decide) hrun, rlApplied_iff hbuf fun o => ?_, hfonts,
    hfonts'⟩
  rw [hgot, hgot']
  simp only [List.mem_cons, List.not_mem_nil, or_false]
  tauto

end CrdtRedis
