/-
The records of a remove-wins list as a function of the commands applied.

The sets of an element are the fold of the commands that name it, in the
order of application, which is causal; so what is known of the core of the
remove-wins types (`RwOps.Holds`) holds of every element. The length is
the number of elements that are visible.

The fields `head`, `current`, `length` and `ops` of the hash are not
elements (`listFields`); what is said here is about runs that name no
element so.
-/
import CrdtRedis.ListAgree
import CrdtRedis.Rw.Survivors

namespace CrdtRedis

open Replication

variable {n : ℕ}

/-- The fields of a list's hash that hold no element. -/
def listFields : List String := ["head", "current", "length", "ops"]

-- ========================================================== the commands

theorem RlAse.update_t (p : Property) (v : ℤ) (t : Vc n) (a : RlAse n) :
    (a.update p v t).t = a.t := by
  unfold RlAse.update
  split <;> rfl

/-- The commands as operations on the sets of an element. -/
def rlOps : RwOps n (RlAse n) (RlCmd n) where
  kind := fun cmd =>
    match cmd.type with
    | .rladd => .add
    | .rlupdate => .upd
    | .rlrem => .rem
  t := RlCmd.t
  stamp := RlAse.t
  new := fun cmd => RlAse.new cmd.t ((Rl.insertProps cmd.argv).getD ⟨0, 0, 0, 0⟩)
  upd := fun cmd a =>
    match (strAt 2 cmd.argv).bind Property.ofType with
    | none => a
    | some q => a.update q (((strAt 3 cmd.argv).bind getLongLongFromObject).getD 0) cmd.t
  stamp_new := fun _ => rfl
  stamp_upd := by
    intro cmd a
    split
    · rfl
    · exact a.update_t _ _ _
  upd_of_not_below := by
    intro cmd a hbelow
    split
    · rfl
    · unfold RlAse.update
      rw [hbelow]
      rfl

namespace Rl

variable {me : Fin n} {h h' : Hash n}

/-- The body of a record is what the command makes of it, with the length
that goes with it. -/
theorem Changed.written {cmd : RlCmd n} {addr : String} (hch : Changed cmd addr h h') :
    rleKind.Written me RwSets.lookup h addr (fun s => rlOps.step s cmd) h' := by
  have hsets : ∀ {inc : ℤ} {shown : Bool} {f : RwSets n (RlAse n) → RwSets n (RlAse n)},
      changeSets h addr inc shown f = some h' →
      (∀ s : RwSets n (RlAse n), (if s.lookup ≠ shown ∧ (f s).lookup = shown then inc else 0)
        = ListKind.weight (f s).lookup - ListKind.weight s.lookup) →
      rleKind.Written me RwSets.lookup h addr f h' := by
    intro inc shown f hset hweight
    obtain ⟨e, he, hset⟩ := Option.bind_eq_some_iff.mp hset
    refine .of_modify rleKind_lawful ListKind.rleKind_plain he (hweight e.body) ?_
    dsimp only at hset
    by_cases hcond : e.body.lookup ≠ shown ∧ (f e.body).lookup = shown
    · rw [if_pos hcond]
      rw [Rle.lookup, if_pos hcond] at hset
      exact Or.inr hset
    · rw [if_neg hcond]
      rw [Rle.lookup, if_neg hcond] at hset
      exact Or.inl ⟨rfl, (Option.some.inj hset).symm⟩
  unfold Changed at hch
  cases hty : cmd.type with
  | rladd =>
      rw [hty] at hch
      obtain ⟨v, hv, hset⟩ := hch
      have hstep : (fun s => rlOps.step s cmd)
          = RwSets.add RlAse.t (RlAse.new cmd.t v) := by
        funext s
        simp only [RwOps.step, rlOps, hty, hv, Option.getD_some]
      rw [hstep]
      refine hsets hset fun s => ?_
      cases hs : s.lookup with
      | false => cases (RwSets.add RlAse.t (RlAse.new cmd.t v) s).lookup <;> simp [ListKind.weight]
      | true => simp [RwSets.lookup_add _ hs]
  | rlupdate =>
      rw [hty] at hch
      obtain ⟨type, value, htype, hvalue, hwrite⟩ := hch
      have hlook : ∀ s : RwSets n (RlAse n), (rlOps.step s cmd).lookup = s.lookup := by
        intro s
        simp [RwOps.step, rlOps, hty, RwSets.lookup]
      -- the write, also for an unknown property
      have hwrite : h'
          = rleKind.modify h addr fun e => { e with body := rlOps.step e.body cmd } := by
        rw [hwrite]
        cases hp : Property.ofType type with
        | none =>
            have hid : (fun e : Rle n => { e with body := rlOps.step e.body cmd }) = id := by
              funext e
              simp [RwOps.step, rlOps, hty, htype, hp]
            rw [hid]
            show h = { h with rles := Function.update h.rles addr ((h.rles addr).map id) }
            rw [Option.map_id_fun, id, Function.update_eq_self]
        | some q =>
            simp only [RwOps.step, rlOps, hty, htype, hvalue, hp, Option.bind_some,
              Option.getD_some]
      rw [hwrite]
      cases he : h.rles addr with
      | some e =>
          exact .of_modify rleKind_lawful ListKind.rleKind_plain he
            (by rw [hlook, sub_self]) (Or.inl ⟨rfl, rfl⟩)
      | none =>
          have hnew : rlOps.step (rleKind.bodyAt me h addr) cmd = rleKind.bodyAt me h addr := by
            rw [ListKind.bodyAt, show rleKind.heap h addr = none from he]
            simp [RwOps.step, rlOps, hty, rleKind, RwSets.new]
          have hmod : (rleKind.modify h addr fun e => { e with body := rlOps.step e.body cmd })
              = h := by
            show { h with rles := Function.update h.rles addr ((h.rles addr).map _) } = h
            rw [he, Option.map_none, ← he, Function.update_eq_self]
          rw [hmod]
          refine ⟨.refl _, ?_, ?_⟩
          · rw [hnew, Function.update_eq_self]
          · rw [hnew, sub_self]
            simp
  | rlrem =>
      rw [hty] at hch
      have hstep : (fun s => rlOps.step s cmd) = RwSets.remove RlAse.t cmd.t := by
        funext s
        simp only [RwOps.step, rlOps, hty]
      rw [hstep]
      refine hsets hch fun s => ?_
      rw [RwSets.lookup_remove]
      cases s.lookup <;> simp [ListKind.weight]

theorem tick_same {t : Vc n} (htick : tick me t h = some h') : rleKind.Same me h h' := by
  obtain ⟨p, hget, rfl⟩ := Option.map_eq_some_iff.mp htick
  exact (ListKind.Same.getCurrent rleKind_lawful hget).trans (.set rleKind_lawful (by decide) _)

/-- A command leaves the bodies until it changes the one of its
element. -/
theorem applyCmd_split {cmd : RlCmd n} (ok : String → Prop) (hok : ok cmd.op.oid)
    (hs : rleKind.Sound h) (hname : cmd.op.oid ∉ listFields)
    (happ : applyCmd me cmd h = some h') :
    ∃ g, rleKind.Moves me ok h cmd.op.placements g ∧ rleKind.Same me h g ∧
      rleKind.Written me RwSets.lookup g cmd.op.oid (fun s => rlOps.step s cmd) h' := by
  obtain ⟨h₁, h₂, addr, g, htick, hget, hplace, hother, hch⟩ := applyCmd_cases happ
  have hhead : cmd.op.oid ≠ "head" := fun hcon => hname (by rw [hcon]; decide)
  have hlength : cmd.op.oid ≠ "length" := fun hcon => hname (by rw [hcon]; decide)
  have hs₁ := hs.quiet (tick_quiet htick)
  have hs₂ := hs₁.make rleKind_lawful hget
  obtain rfl := hs₂.find hhead (ListKind.find_findOrCreate rleKind_lawful hget)
  have hmoves := applyCmd_placed hok htick hget hplace hother
  have hsame₂ := (tick_same htick).trans (.findOrCreate rleKind_lawful hs₁ hlength hget)
  refine ⟨g, hmoves, ?_, hch.written⟩
  by_cases hins : ∃ i, cmd.op = .insert i
  · obtain ⟨i, hi⟩ := hins
    exact hsame₂.trans (.position rleKind_lawful (hplace i hi))
  · rw [hother fun i hi => hins ⟨i, hi⟩]
    exact hsame₂

end Rl

-- ================================================================ runs

/-- The records of server `me` after it applied the commands `L`. -/
structure RlBodies (me : Fin n) (L : List (RlCmd n)) (h : Hash n) : Prop where
  sound : rleKind.Sound h
  body : ∀ a, rleKind.bodyAt me h a
    = (L.filter fun cmd => cmd.op.oid = a).foldl rlOps.step RwSets.new
  tally : rleKind.Tallied me RwSets.lookup h

theorem RlBodies.same {me : Fin n} {L : List (RlCmd n)} {h h' : Hash n} (hb : RlBodies me L h)
    (hs : rleKind.Sound h') (hsame : rleKind.Same me h h') : RlBodies me L h' :=
  ⟨hs, fun a => by rw [hsame.body, hb.body], hb.tally.same hsame⟩

theorem RlBodies.apply {me : Fin n} {L : List (RlCmd n)} {h h' : Hash n} {cmd : RlCmd n}
    (hb : RlBodies me L h) (hname : cmd.op.oid ∉ listFields)
    (happ : Rl.applyCmd me cmd h = some h') : RlBodies me (L ++ [cmd]) h' := by
  obtain ⟨g, hmoves, hsame, hw⟩ := Rl.applyCmd_split (fun _ => True) trivial hb.sound hname
    happ
  have hg := hb.same (hb.sound.moves rleKind_lawful hmoves) hsame
  refine ⟨hg.sound.quiet hw.quiet, ?_, hg.tally.written hw⟩
  intro a
  rw [hw.body, List.filter_append, List.foldl_append]
  by_cases ha : a = cmd.op.oid
  · subst ha
    rw [Function.update_self, hg.body]
    simp
  · rw [Function.update_of_ne ha, hg.body]
    simp [Ne.symm ha]

section

variable {dbl : String → Option ℤ} {allowed : List String → Prop}
  {k : Config n (Option (Hash n)) (RlMsg n)}

/-- In a run that names no element with a field, the records are those of
the commands applied. -/
theorem rl_bodies (hall : ∀ argv, allowed argv → listOid argv ∉ listFields)
    (hk : Reachable rlType.service
      (.once fun argv => allowed argv ∧ (rlType (n := n)).Submits dbl argv) k) (r : Fin n) :
    RlBodies r ((rl_causal fun argv => allowed argv ∧ (rlType (n := n)).Submits dbl argv).log
      k r) ((k.site r).getD .empty) := by
  refine (rl_forall (J := RlBodies) (Q := fun o => o.msg.cmd.op.oid ∉ listFields)
    (F := fun _ => True) hk (fun _ _ => trivial) ?_ ?_ ?_ ?_ ?_).1 r
  · exact fun r => ⟨ListKind.sound_empty _ fun _ => rfl, fun _ => rfl,
      ListKind.tallied_empty (fun _ => rfl) rfl⟩
  · intro r argv ho ho' m L hargv hb hp
    have hprep := rl_prepared (fun _ => True) hargv.2 hb.sound trivial hp
    refine hb.same (hb.sound.moves rleKind_lawful hprep.moves) (hprep.same ?_)
    exact fun hcon => hall argv hargv.1 (by rw [hcon]; decide)
  · intro r argv ho ho' m L u hargv hb hp _
    have hprep := rl_prepared (fun _ => True) hargv.2 hb.sound trivial hp
    show m.cmd.op.oid ∉ listFields
    rw [(hprep.issue m rfl).1]
    exact hall argv hargv.1
  · intro r L h h' hb hc
    refine hb.same (hb.sound.quiet hc.quiet) ?_
    cases hc with
    | current _ _ => exact .set rleKind_lawful (by decide) _
    | ops _ _ => exact .set rleKind_lawful (by decide) _
  · intro r L h h' o hb _ hname happ
    exact hb.apply hname happ

/-- Causal delivery applies commands in an order the core can work
with. -/
theorem rl_history (hk : Reachable rlType.service (.once allowed) k) (r : Fin n) :
    rlOps.History ((rl_causal allowed).log k r) := by
  have hC := rl_causal (n := n) allowed
  refine ⟨(hC.applied hk r).ordered, ?_⟩
  intro x hx y hy hid
  obtain ⟨o, ho, rfl⟩ := hC.log_got hk hx
  obtain ⟨p, hp, rfl⟩ := hC.log_got hk hy
  have hosent := hk.ledger.got_sent r o ho
  have hpsent := hk.ledger.got_sent r p hp
  have hsrc : o.src = p.src := by
    rw [← hC.src_eq hk o hosent, ← hC.src_eq hk p hpsent]
    exact hid
  exact (hC.delivery hk).stamp_total hosent hpsent hsrc

/-- What the sets of an element hold. -/
theorem rl_holds (hall : ∀ argv, allowed argv → listOid argv ∉ listFields)
    (hk : Reachable rlType.service
      (.once fun argv => allowed argv ∧ (rlType (n := n)).Submits dbl argv) k) (r : Fin n)
    (a : String) :
    rlOps.Holds (((rl_causal fun argv => allowed argv ∧ (rlType (n := n)).Submits dbl argv).log
      k r).filter fun cmd => cmd.op.oid = a) (rleKind.bodyAt r ((k.site r).getD .empty) a) := by
  rw [(rl_bodies hall hk r).body a]
  exact RwOps.holds_foldl ((rl_history hk r).sublist List.filter_sublist)

end

end CrdtRedis
