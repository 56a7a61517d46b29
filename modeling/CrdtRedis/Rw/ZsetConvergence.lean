/-
The remove-wins priority queue: what a server shows of an element is a
function of the set of operations on it that it has applied.

The record keeps only what the operations leave: entries that nothing made
obsolete, each with the sum of the increments above it, and a pointer to
the one that counts. `RwOps.Holds` says which entries these are for every
order of application that extends the vector order, and causal delivery
gives such an order. The sorted set is written only on some branches; that
it always agrees with the record (`Rze.Shown`) is because a branch that
does not write it leaves both `LOOKUP` and `SCORE` as they were.
-/
import CrdtRedis.Rw.Survivors
import CrdtRedis.Rw.ZsetDelivery

namespace CrdtRedis

open Replication

variable {n : ℕ}

-- ============================================ the queue over the core

/-- What a command is to the core. -/
def RzCmdType.kind : RzCmdType → RwKind
  | rzadd => .add
  | rzincby => .upd
  | rzrem => .rem

namespace RzCmd

theorem kind_add (cmd : RzCmd n) : cmd.type.kind = .add ↔ cmd.type = .rzadd := by
  cases cmd.type <;> simp [RzCmdType.kind]

theorem kind_upd (cmd : RzCmd n) : cmd.type.kind = .upd ↔ cmd.type = .rzincby := by
  cases cmd.type <;> simp [RzCmdType.kind]

theorem kind_rem (cmd : RzCmd n) : cmd.type.kind = .rem ↔ cmd.type = .rzrem := by
  cases cmd.type <;> simp [RzCmdType.kind]

end RzCmd

/-- The operations of the queue. -/
def rzOps : RwOps n (RzAse n) (RzCmd n) where
  kind := fun cmd => cmd.type.kind
  t := RzCmd.t
  stamp := RzAse.t
  new := fun cmd => ⟨cmd.t, cmd.value, 0⟩
  upd := fun cmd a => if RwSets.below cmd.t a.t then { a with inc := a.inc + cmd.value } else a
  stamp_new := fun _ => rfl
  stamp_upd := by
    intro cmd a
    split <;> rfl
  upd_of_not_below := by
    intro cmd a h
    rw [if_neg (by rw [h]; simp)]

namespace Rze

/-- Commands move the sets as the core does. -/
theorem applyCmd_sets (cmd : RzCmd n) (e : Rze n) :
    (e.applyCmd cmd).1.sets = rzOps.step e.sets cmd := by
  obtain ⟨type, value, t⟩ := cmd
  cases type <;> rfl

theorem foldl_step_sets (L : List (RzCmd n)) (s : Rze n × Option Score) :
    (L.foldl step s).1.sets = L.foldl rzOps.step s.1.sets := by
  induction L generalizing s with
  | nil => rfl
  | cons cmd L ih =>
      rw [List.foldl_cons, List.foldl_cons, ih]
      show L.foldl rzOps.step (s.1.applyCmd cmd).1.sets = _
      rw [applyCmd_sets]

/-- The sorted set has the entry `LOOKUP` and `SCORE` tell of. -/
def Shown (s : Rze n × Option Score) : Prop :=
  s.2 = if s.1.lookup then some s.1.score else none

variable {s : Rze n × Option Score}

/-- An add that leaves the element hidden found it hidden. -/
theorem Shown.add (h : Shown s) (value : ℤ) (t : Vc n) :
    Shown (step s ⟨.rzadd, value, t⟩) := by
  set sets := s.1.sets.add RzAse.t ⟨t, value, 0⟩ with hsets
  show runCalls (if sets.lookup then [.add ((sets.entry RzAse.t).map fun a => a.x + a.inc)]
    else []) s.2 = if sets.lookup then some ((sets.entry RzAse.t).map fun a => a.x + a.inc)
      else none
  by_cases hlook : sets.lookup = true
  · rw [if_pos hlook, if_pos hlook]
    rfl
  · have hbefore : ¬ s.1.lookup = true := fun hcon => hlook (RwSets.lookup_add _ hcon)
    rw [if_neg hlook, if_neg hlook, runCalls_nil, h, if_neg hbefore]

/-- An increment moves the entry that counts as it moves any. -/
theorem entry_increase (cmd : RzCmd n) (s : RwSets n (RzAse n)) :
    RwSets.entry RzAse.t { s with aset := s.aset.map (rzOps.upd cmd) }
      = (s.entry RzAse.t).map (rzOps.upd cmd) := by
  simp only [RwSets.entry, Option.map_bind]
  congr 1
  funext w
  have hstamp : ∀ a, (rzOps.upd cmd a).t = a.t := rzOps.stamp_upd _
  have htest : (fun a : RzAse n => decide (a.t = w)) ∘ rzOps.upd cmd
      = fun a => decide (a.t = w) := by
    funext a
    exact congrArg (fun t => decide (t = w)) (hstamp a)
  show List.find? _ (s.aset.map (rzOps.upd cmd)) = _
  rw [List.find?_map, htest]
  rfl

theorem lookup_increase (cmd : RzCmd n) (s : RwSets n (RzAse n)) :
    RwSets.lookup { s with aset := s.aset.map (rzOps.upd cmd) } = s.lookup := by
  simp [RwSets.lookup]

/-- An increment that does not reach the entry that counts changes
neither. -/
theorem Shown.increase (h : Shown s) (value : ℤ) (t : Vc n) :
    Shown (step s ⟨.rzincby, value, t⟩) := by
  set f : RzAse n → RzAse n := rzOps.upd ⟨.rzincby, value, t⟩ with hf
  set sets : RwSets n (RzAse n) :=
    { s.1.sets with aset := s.1.sets.aset.map f } with hsets
  have hlook : sets.lookup = s.1.sets.lookup := lookup_increase _ _
  have hentry : sets.entry RzAse.t = (s.1.sets.entry RzAse.t).map f := entry_increase _ _
  show runCalls (if sets.lookup && s.1.sets.value.any (RwSets.below t) then
      [.add ((sets.entry RzAse.t).map fun a => a.x + a.inc)] else []) s.2
    = if sets.lookup then some ((sets.entry RzAse.t).map fun a => a.x + a.inc) else none
  rw [hlook, hentry]
  by_cases hl : s.1.sets.lookup = true
  · rw [hl, Bool.true_and, if_pos rfl]
    by_cases hreach : s.1.sets.value.any (RwSets.below t) = true
    · rw [if_pos hreach]
      rfl
    · -- the entry that counts stays what it was
      have hsame : (s.1.sets.entry RzAse.t).map f = s.1.sets.entry RzAse.t := by
        cases he : s.1.sets.entry RzAse.t with
        | none => rfl
        | some a =>
            obtain ⟨w, hw, hfind⟩ := Option.bind_eq_some_iff.mp he
            have haw : a.t = w := by simpa using List.find?_some hfind
            rw [hw, Option.any_some, ← haw, Bool.not_eq_true] at hreach
            exact congrArg some (rzOps.upd_of_not_below _ a hreach)
      have hbefore : s.2 = some s.1.score := h.trans (if_pos hl)
      rw [if_neg hreach, hsame, runCalls_nil, hbefore]
      rfl
  · have hbefore : s.2 = none := h.trans (if_neg hl)
    rw [if_neg hl, if_neg (by simp [hl]), runCalls_nil, hbefore]

/-- A remove hides the element. -/
theorem shown_remove (s : Rze n × Option Score) (value : ℤ) (t : Vc n) :
    Shown (step s ⟨.rzrem, value, t⟩) := by
  have hlook : (s.1.sets.remove RzAse.t t).lookup = false := RwSets.lookup_remove t
  simp [Shown, step, applyCmd, removeFunc, lookup, hlook, ZCall.run]

/-- In every order of application the sorted set agrees with the record. -/
theorem shown_foldl (me : Fin n) (L : List (RzCmd n)) :
    Shown (L.foldl step (new me, none)) := by
  induction L using List.reverseRecOn with
  | nil => rfl
  | append_singleton L cmd ih =>
      rw [List.foldl_append]
      show Shown (step _ cmd)
      obtain ⟨type, value, t⟩ := cmd
      cases type with
      | rzadd => exact ih.add value t
      | rzincby => exact ih.increase value t
      | rzrem => exact shown_remove _ value t

end Rze

-- =============================================== the specification

/-- The operations applied to an element at `r`: those received there and
not in its buffer. -/
def rzApplied (c : Config n (Rze n × Option Score) (RzCmd n)) (r : Fin n) :
    List (Op n (RzCmd n)) :=
  (c.got r).filter fun o => decide (o.msg ∉ (c.site r).1.ops)

/-- An add of `D` that no add and no remove of `D` is above. -/
structure RzWinner (D : List (Op n (RzCmd n))) (w : Op n (RzCmd n)) : Prop where
  mem : w ∈ D
  add : w.msg.type = .rzadd
  not_below : ∀ o ∈ D, o.msg.type ≠ .rzincby → ¬ w.msg.t.Below o.msg.t

/-- The sum of the increments of `D` above `t`. -/
def rzIncrements (D : List (Op n (RzCmd n))) (t : Vc n) : ℤ :=
  ((D.filter fun o => decide (o.msg.type = .rzincby ∧ t.Below o.msg.t)).map
    fun o => o.msg.value).sum

/-- What a server shows of an element, as a function of the operations `D`
it has applied. -/
structure RzSpec (D : List (Op n (RzCmd n))) (z : Option Score) : Prop where
  shown : z.isSome ↔ (∃ o ∈ D, o.msg.type = .rzadd) ∧
    ∀ o ∈ D, o.msg.type = .rzrem → ∃ a ∈ D, a.msg.type = .rzadd ∧ o.msg.t.Below a.msg.t
  score : z.isSome → ∃ w, RzWinner D w ∧
    (∀ w', RzWinner D w' → w'.src ≤ w.src ∧ (w'.src = w.src → w' = w)) ∧
    z = some (some (w.msg.value + rzIncrements D w.msg.t))

/-- Two servers that applied the same operations show the same. -/
theorem RzSpec.agree {D D' : List (Op n (RzCmd n))} {z z' : Option Score}
    (h : RzSpec D z) (h' : RzSpec D' z') (hperm : D.Perm D') : z = z' := by
  have hmem : ∀ o, o ∈ D ↔ o ∈ D' := fun o => hperm.mem_iff
  have hsome : z.isSome ↔ z'.isSome := by
    rw [h.shown, h'.shown]
    simp only [hmem]
  by_cases hz : z.isSome
  · obtain ⟨w, hw, hmax, hzw⟩ := h.score hz
    obtain ⟨w', hw', hmax', hzw'⟩ := h'.score (hsome.mp hz)
    have hwin : ∀ x, RzWinner D x ↔ RzWinner D' x := by
      intro x
      constructor
      · exact fun hx => ⟨(hmem x).mp hx.mem, hx.add,
          fun o ho => hx.not_below o ((hmem o).mpr ho)⟩
      · exact fun hx => ⟨(hmem x).mpr hx.mem, hx.add,
          fun o ho => hx.not_below o ((hmem o).mp ho)⟩
    have hle := (hmax w' ((hwin w').mpr hw')).1
    have hge := (hmax' w ((hwin w).mp hw)).1
    have heq : w = w' := (hmax' w ((hwin w).mp hw)).2 (le_antisymm hge hle)
    subst heq
    have hinc : rzIncrements D w.msg.t = rzIncrements D' w.msg.t :=
      ((hperm.filter _).map _).sum_eq
    rw [hzw, hzw', hinc]
  · rw [Option.not_isSome_iff_eq_none.mp hz,
      Option.not_isSome_iff_eq_none.mp (mt hsome.mpr hz)]

/-- The value of an entry: what the add brought and the increments above
it. -/
theorem rzOps_content {L : List (RzCmd n)} (hist : rzOps.History L) {x : RzCmd n}
    (hx : x ∈ L) : rzOps.content L x = ⟨x.t, x.value,
      ((L.filter fun o => decide (o.type = .rzincby ∧ x.t.Below o.t)).map
        RzCmd.value).sum⟩ := by
  -- by induction on a part of the history, so that `x` stays in the whole
  suffices key : ∀ L' : List (RzCmd n), (∀ o ∈ L', o ∈ L) →
      rzOps.content L' x = ⟨x.t, x.value,
        ((L'.filter fun o => decide (o.type = .rzincby ∧ x.t.Below o.t)).map
          RzCmd.value).sum⟩ from key L fun _ h => h
  intro L' hsub
  induction L' using List.reverseRecOn with
  | nil => rfl
  | append_singleton L' o ih =>
      have hbelow : RwSets.below o.t x.t = true ↔ x.t.Below o.t :=
        hist.below_iff hx (hsub o (by simp))
      have hL' := ih fun y hy => hsub y (List.mem_append_left _ hy)
      rw [List.filter_append, List.map_append, List.sum_append]
      by_cases ho : o.type = .rzincby
      · rw [RwOps.content_snoc_upd ((RzCmd.kind_upd o).mpr ho), hL']
        show (if RwSets.below o.t x.t = true then _ else _) = _
        by_cases hlt : x.t.Below o.t
        · simp [hbelow, ho, hlt]
        · simp [hbelow, ho, hlt]
      · rw [RwOps.content_snoc_of_ne (mt (RzCmd.kind_upd o).mp ho), hL']
        simp [ho]

section

variable {D : List (Op n (RzCmd n))} {L : List (RzCmd n)}

/-- The adds that nothing is above are the survivors. -/
theorem rzWinner_iff (hperm : (D.map Op.msg).Perm L) {w : Op n (RzCmd n)} :
    RzWinner D w ↔ w ∈ D ∧ rzOps.Survives L w.msg := by
  have hmem : ∀ o ∈ D, o.msg ∈ L := fun o ho =>
    hperm.mem_iff.mp (List.mem_map_of_mem ho)
  constructor
  · intro hw
    refine ⟨hw.mem, hmem w hw.mem, (RzCmd.kind_add _).mpr hw.add, ?_⟩
    intro y hy hkind
    obtain ⟨o, ho, rfl⟩ := List.mem_map.mp (hperm.mem_iff.mpr hy)
    exact hw.not_below o ho (mt (RzCmd.kind_upd _).mpr hkind)
  · intro hw
    refine ⟨hw.1, (RzCmd.kind_add _).mp hw.2.kind, ?_⟩
    intro o ho htype
    exact hw.2.not_lt o.msg (hmem o ho) (mt (RzCmd.kind_upd _).mp htype)

/-- `LOOKUP` in terms of the operations applied. -/
theorem rz_lookup_iff {s : RwSets n (RzAse n)} (hperm : (D.map Op.msg).Perm L)
    (hholds : rzOps.Holds L s) : s.lookup = true ↔ (∃ o ∈ D, o.msg.type = .rzadd) ∧
      ∀ o ∈ D, o.msg.type = .rzrem →
        ∃ a ∈ D, a.msg.type = .rzadd ∧ o.msg.t.Below a.msg.t := by
  have hmem : ∀ o ∈ D, o.msg ∈ L := fun o ho =>
    hperm.mem_iff.mp (List.mem_map_of_mem ho)
  have hop : ∀ x ∈ L, ∃ o ∈ D, o.msg = x := fun x hx =>
    List.mem_map.mp (hperm.mem_iff.mpr hx)
  rw [hholds.lookup_iff]
  constructor
  · intro ⟨⟨x, hx, hadd⟩, hrem⟩
    refine ⟨?_, ?_⟩
    · obtain ⟨o, ho, rfl⟩ := hop x hx
      exact ⟨o, ho, (RzCmd.kind_add _).mp hadd⟩
    · intro o ho htype
      obtain ⟨y, hy, hyadd, hlt⟩ := hrem o.msg (hmem o ho) ((RzCmd.kind_rem _).mpr htype)
      obtain ⟨a, ha, rfl⟩ := hop y hy
      exact ⟨a, ha, (RzCmd.kind_add _).mp hyadd, hlt⟩
  · intro ⟨⟨o, ho, hadd⟩, hrem⟩
    refine ⟨⟨o.msg, hmem o ho, (RzCmd.kind_add _).mpr hadd⟩, ?_⟩
    intro x hx hkind
    obtain ⟨p, hp, rfl⟩ := hop x hx
    obtain ⟨a, ha, htype, hlt⟩ := hrem p hp ((RzCmd.kind_rem _).mp hkind)
    exact ⟨a.msg, hmem a ha, (RzCmd.kind_add _).mpr htype, hlt⟩

/-- A record that holds what the operations leave, shown in the sorted
set, meets the specification. -/
theorem RzSpec.of_holds {s : Rze n × Option Score} (hist : rzOps.History L)
    (hperm : (D.map Op.msg).Perm L) (hid : ∀ o ∈ D, o.msg.t.id = o.src)
    (hinj : ∀ o ∈ D, ∀ p ∈ D, o.src = p.src → o.msg.t.vector = p.msg.t.vector → o = p)
    (hholds : rzOps.Holds L s.1.sets) (hshown : Rze.Shown s) : RzSpec D s.2 := by
  have hlook : s.2.isSome ↔ s.1.sets.lookup = true := by
    rw [show s.2 = if s.1.sets.lookup then some s.1.score else none from hshown]
    split
    · next h => exact iff_of_true rfl h
    · next h => exact iff_of_false (by simp) h
  refine ⟨hlook.trans (rz_lookup_iff hperm hholds), ?_⟩
  intro hsome
  have hl := hlook.mp hsome
  obtain ⟨x, hx, hentry, -, hmax⟩ := hholds.entry hl
  obtain ⟨w, hw, rfl⟩ := List.mem_map.mp (hperm.mem_iff.mpr hx.mem)
  refine ⟨w, (rzWinner_iff hperm).mpr ⟨hw, hx⟩, ?_, ?_⟩
  · intro w' hw'
    obtain ⟨hw'D, hw'L⟩ := (rzWinner_iff hperm).mp hw'
    refine ⟨?_, ?_⟩
    · rw [← hid w hw, ← hid w' hw'D]
      exact hmax w'.msg hw'L
    · intro heq
      refine hinj w' hw'D w hw heq (hist.survives_unique hw'L hx ?_)
      exact (hid w' hw'D).trans (heq.trans (hid w hw).symm)
  · have hinc : rzIncrements D w.msg.t = ((L.filter fun o =>
        decide (o.type = .rzincby ∧ w.msg.t.Below o.t)).map RzCmd.value).sum := by
      rw [rzIncrements, ← ((hperm.filter _).map _).sum_eq, List.filter_map, List.map_map]
      rfl
    have hentry' : s.1.sets.entry RzAse.t = some (rzOps.content L w.msg) := hentry
    have hz : s.2 = some ((s.1.sets.entry RzAse.t).map fun a => a.x + a.inc) :=
      hshown.trans (if_pos hl)
    rw [hz, hentry', rzOps_content hist hx.mem, hinc]
    rfl

end

section

variable {k : Config n (Rze n × Option Score) (RzCmd n)}

/-- Causal delivery applies operations in an order the core can work
with. -/
theorem rz_history (hk : Reachable rzType.service (.once fun _ => True) k) (r : Fin n) :
    rzOps.History (rz_causal.log k r) := by
  refine ⟨(rz_causal.applied hk r).ordered, ?_⟩
  intro x hx y hy hid
  obtain ⟨o, ho, rfl⟩ := rz_causal.log_got hk hx
  obtain ⟨p, hp, rfl⟩ := rz_causal.log_got hk hy
  have hosent := hk.ledger.got_sent r o ho
  have hpsent := hk.ledger.got_sent r p hp
  have hsrc : o.src = p.src := by
    rw [← rz_causal.src_eq hk o hosent, ← rz_causal.src_eq hk p hpsent]
    exact hid
  exact (rz_causal.delivery hk).stamp_total hosent hpsent hsrc

/-- The operations received and not buffered are those applied. -/
theorem rz_applied_perm (hk : Reachable rzType.service (.once fun _ => True) k)
    (r : Fin n) : ((rzApplied k r).map Op.msg).Perm (rz_causal.log k r) := by
  have hperm := rz_causal.perm hk r
  obtain ⟨-, -, hdisj⟩ := List.nodup_append.mp ((rz_causal.delivery hk).nodup hk r)
  have hlog : (rz_causal.log k r).filter (fun x => decide (x ∉ (k.site r).1.ops))
      = rz_causal.log k r := by
    rw [List.filter_eq_self]
    intro x hx
    exact decide_eq_true fun hbuf => hdisj x hx x hbuf rfl
  have hbuf : (k.site r).1.ops.filter (fun x => decide (x ∉ (k.site r).1.ops)) = [] := by
    rw [List.filter_eq_nil_iff]
    intro x hx
    simpa using hx
  have hfilter := (hperm.filter fun x => decide (x ∉ (k.site r).1.ops)).symm
  rw [List.filter_append, hlog] at hfilter
  have hmap : (k.arrivals id r).filter (fun x => decide (x ∉ (k.site r).1.ops))
      = (rzApplied k r).map Op.msg := by
    rw [rzApplied, Config.arrivals, List.filter_map]
    rfl
  rw [hmap] at hfilter
  have hrest : (rz_causal.log k r)
      ++ (k.site r).1.site.buf.filter (fun x => decide (x ∉ (k.site r).1.ops))
      = rz_causal.log k r := by
    rw [show (k.site r).1.site.buf = (k.site r).1.ops from rfl, hbuf, List.append_nil]
  rw [hrest] at hfilter
  exact hfilter

/-- The record and the sorted set after what was applied. -/
theorem rz_state (hk : Reachable rzType.service (.once fun _ => True) k) (r : Fin n) :
    rzOps.Holds (rz_causal.log k r) (k.site r).1.sets ∧ Rze.Shown (k.site r) := by
  have hfold := rz_core hk r
  rw [← rz_log] at hfold
  constructor
  · have hsets := congrArg (fun s => s.1.sets) hfold
    rw [Rze.foldl_step_sets] at hsets
    have hholds := RwOps.holds_foldl (rz_history hk r)
    rw [show (k.site r).1.sets = _ from hsets]
    exact hholds
  · have hshown := Rze.shown_foldl r (rz_causal.log k r)
    rw [← hfold] at hshown
    exact hshown

/-- In every reachable state a server shows what the specification
says. -/
theorem rz_spec (hk : Reachable rzType.service (.once fun _ => True) k) (r : Fin n) :
    RzSpec (rzApplied k r) (k.site r).2 := by
  have hsent : ∀ o ∈ rzApplied k r, o ∈ k.sent := fun o ho =>
    hk.ledger.got_sent r o (List.mem_of_mem_filter ho)
  obtain ⟨hholds, hshown⟩ := rz_state hk r
  refine RzSpec.of_holds (rz_history hk r) (rz_applied_perm hk r)
    (fun o ho => rz_causal.src_eq hk o (hsent o ho)) ?_ hholds hshown
  intro o ho p hp hsrc hvec
  refine (rz_causal.delivery hk).eq_of_seq (hsent o ho) (hsent p hp) hsrc ?_
  show o.msg.t.vector o.src = p.msg.t.vector p.src
  rw [hvec, hsrc]

end

/-- Element `key` of `tname` in the network state `k`: every server shows
what `RzSpec` says about the operations on it that were applied there, and
two servers that applied the same ones show the same. -/
def RzConverges (dbl : String → Option ℤ) (k : Net n) (tname key : String) : Prop :=
  let c := rzType.readAt dbl tname key k
  (∀ r, RzSpec (rzApplied c r) (scoreOf (k.site r) tname key)) ∧
  ∀ r q, (∀ o, o ∈ rzApplied c r ↔ o ∈ rzApplied c q) →
    scoreOf (k.site r) tname key = scoreOf (k.site q) tname key

/-- What the remove-wins priority queue shows is a function of the
operations applied, for every number of servers, in every reachable state
and for every element. -/
theorem rz_state_of_applied (dbl : String → Option ℤ) {k : Net n}
    (hk : Reachable (crdtService dbl) (.once (Issues rzCmds)) k)
    (tname key : String) : RzConverges dbl k tname key := by
  have hat := ElemType.reachable_once (E := rzType)
    (by simp [rzCmds, rzType, rzCommand]) hk tname key
  have hspec := rz_spec hat
  refine ⟨hspec, fun r q hsame => ?_⟩
  have hnd : ∀ r, (rzApplied (rzType.readAt dbl tname key k) r).Nodup := fun r =>
    (hat.got_nodup (fun h => h) r).filter _
  exact (hspec r).agree (hspec q)
    ((List.perm_ext_iff_of_nodup (hnd r) (hnd q)).mpr hsame)

/-- Two servers add the element at the same time; the second add is not
delivered before an increment on top of it, which waits in the buffer of a
third server; a remove of the first add alone hides the element there. -/
def rzSchedule : List (Act 3 (List String)) :=
  [.submit 0 ["rzadd", "z", "a", "5"], .submit 1 ["rzadd", "z", "a", "7"],
    .submit 1 ["rzincrby", "z", "a", "2"], .deliver 0 1, .deliver 0 2,
    .deliver 2 0, .deliver 2 2, .submit 2 ["rzrem", "z", "a"]]

theorem rz_state_of_applied_schedule :
    ∃ k : Net 3, Reachable (crdtService getLongLongFromObject) (.once (Issues rzCmds)) k ∧
      scoreOf (k.site 0) "z" "a" = some (some 9) ∧ scoreOf (k.site 2) "z" "a" = none ∧
      RzConverges getLongLongFromObject k "z" "a" := by
  obtain ⟨k, hrun, h0, h2⟩ : ∃ k, (crdtService getLongLongFromObject).run
      (crdtService getLongLongFromObject).start rzSchedule = some k ∧
      scoreOf (k.site 0) "z" "a" = some (some 9) ∧ scoreOf (k.site 2) "z" "a" = none :=
    ⟨_, rfl, by decide, by decide⟩
  have hk : Reachable (crdtService getLongLongFromObject) (.once (Issues rzCmds)) k :=
    Service.run_reachable (by decide) hrun
  exact ⟨k, hk, h0, h2, rz_state_of_applied _ hk "z" "a"⟩

end CrdtRedis
