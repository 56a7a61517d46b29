/-
Runs of an RWF list: its broadcasts, read, and the writes of applying one.

A broadcast is read once, into the placement an insert asks for and the
values it carries (`RwflOp`); `rwflType` is the family of commands with
these as messages. Nothing is buffered, so an effect phase is one
application.
-/
import CrdtRedis.ListRun

namespace CrdtRedis

open Replication

variable {n : ℕ}

-- ========================================================== broadcasts

/-- A broadcast about an RWF list. `t` is the removal timestamp it carries,
`lt` the Lamport time of an update. -/
inductive RwflOp (n : ℕ)
  | insert (i : Placement) (v : InsertProps) (t : Vc n)
  | update (oid type : String) (value : ℤ) (lt : Lc) (t : Vc n)
  | rem (oid : String) (t : Vc n)

namespace RwflOp

/-- Read the broadcast of an insert. -/
def ofInsert (rargv : List (Arg n)) : Option (RwflOp n) :=
  (crGetLast rargv).bind fun t =>
    (strAt 2 rargv).bind fun pre => (strAt 3 rargv).bind fun oid =>
      (strAt 4 rargv).bind fun content => (leidAt 9 rargv).bind fun pos =>
        (Rwfl.insertProps rargv).map fun v => .insert ⟨pre, oid, content, pos⟩ v t

/-- Read the broadcast of an update. -/
def ofUpdate (rargv : List (Arg n)) : Option (RwflOp n) :=
  (crGetLast rargv).bind fun t =>
    (strAt 2 rargv).bind fun oid => (strAt 3 rargv).bind fun type =>
      ((strAt 4 rargv).bind getLongLongFromObject).bind fun value =>
        (lcAt 5 rargv).map fun lt => .update oid type value lt t

/-- Read the broadcast of a remove. -/
def ofRem (rargv : List (Arg n)) : Option (RwflOp n) :=
  (crGetLast rargv).bind fun t => (strAt 2 rargv).map fun oid => .rem oid t

/-- The effect of a broadcast, read. -/
def apply (me : Fin n) (h : Hash n) : RwflOp n → Option (Hash n)
  | insert i v t =>
      (rwfleKind.findOrCreate me h i.oid).bind fun p =>
        (Rwfl.removeFunc p.2 t p.1).bind fun h =>
          (rwfleKind.position h i.pre i.oid i.content p.2 i.pos).bind (Rwfl.addFunc p.2 v t)
  | update oid type value lt t =>
      (rwfleKind.findOrCreate me h oid).bind fun p =>
        (Rwfl.removeFunc p.2 t p.1).bind (Rwfl.updateFunc p.2 type lt value t)
  | rem oid t =>
      (rwfleKind.findOrCreate me h oid).bind fun p => Rwfl.removeFunc p.2 t p.1

/-- What a broadcast asks of the chain. -/
def op : RwflOp n → ListOp
  | insert i _ _ => .insert i
  | update oid _ _ _ _ => .touch oid
  | rem oid _ => .touch oid

theorem insertEffect_eq (me : Fin n) (rargv : List (Arg n)) (h : Hash n) :
    Rwfl.insertEffect me rargv h = (ofInsert rargv).bind (apply me h) := by
  simp only [Rwfl.insertEffect, ofInsert, Option.bind_assoc, Option.bind_map,
    Function.comp_def, apply]

theorem updateEffect_eq (me : Fin n) (rargv : List (Arg n)) (h : Hash n) :
    Rwfl.updateEffect me rargv h = (ofUpdate rargv).bind (apply me h) := by
  simp only [Rwfl.updateEffect, ofUpdate, Option.bind_assoc, Option.bind_map,
    Function.comp_def, apply]

theorem remEffect_eq (me : Fin n) (rargv : List (Arg n)) (h : Hash n) :
    Rwfl.remEffect me rargv h = (ofRem rargv).bind (apply me h) := by
  simp only [Rwfl.remEffect, ofRem, Option.bind_assoc, Option.bind_map,
    Function.comp_def, apply]

end RwflOp

-- ======================================================== preparations

namespace Rwfl

variable {me : Fin n} {h h' : Hash n} {ok : String → Prop}

theorem updatePrepare_eq (me : Fin n) (argv : List String) (ho : Option (Hash n)) :
    rwflupdateCommand.prepare me argv ho
      = nonAddPrepare (argv.set 3 (sdstolower (argv.getD 3 "")))
        (fun e => [.lc { e.current with x := e.current.x + 1 }, .vc e.header.current])
        argv ho := rfl

theorem remPrepare_eq (me : Fin n) (argv : List String) (ho : Option (Hash n)) :
    rwflremCommand.prepare me argv ho
      = nonAddPrepare argv (fun e => [.vc (vcNow e.header.current)]) argv ho := rfl

end Rwfl

-- ============================================================ the family

/-- The commands on RWF lists. -/
def rwflCommand : Cmd → Option (ListCommand n)
  | .rwflinsert => some rwflinsertCommand
  | .rwflupdate => some rwflupdateCommand
  | .rwflrem => some rwflremCommand
  | _ => none

/-- How the broadcast of each is read. -/
def rwflDecode : Cmd → List (Arg n) → Option (RwflOp n)
  | .rwflinsert, rargv => RwflOp.ofInsert rargv
  | .rwflupdate, rargv => RwflOp.ofUpdate rargv
  | .rwflrem, rargv => RwflOp.ofRem rargv
  | _, _ => none

/-- The words a command of the family that passed its checks has. -/
theorem rwfl_length {c : Cmd} {lc : ListCommand n} {dbl : String → Option ℤ}
    {argv : List String} (hlc : rwflCommand c = some lc) (hpass : lc.Passes dbl c argv) :
    argv.length = c.arity := by
  refine le_antisymm (hpass.maxArgc.trans ?_) hpass.arity
  cases c <;> cases hlc <;> exact le_rfl

/-- A number that passed its check is read back. -/
theorem getLongLong_of_check {dbl : String → Option ℤ} {checks : List (ℕ × ArgType)}
    {argv : List String} {i : ℕ} (h : failedCheck dbl checks argv = none)
    (hi : (i, ArgType.int) ∈ checks) : ∃ v, getLongLongFromObject (argv.getD i "") = some v := by
  have hcheck := List.findSome?_eq_none_iff.mp h _ hi
  cases hv : getLongLongFromObject (argv.getD i "") with
  | some v => exact ⟨v, rfl⟩
  | none =>
      simp only [checkArgType, hv, Option.isSome_none, Bool.false_eq_true, if_false,
        reduceCtorEq] at hcheck

/-- What an insert that passed its checks broadcasts, read. -/
theorem RwflOp.ofInsert_eq {dbl : String → Option ℤ} {argv : List String}
    (hpass : (rwflinsertCommand (n := n)).Passes dbl .rwflinsert argv) (preArg : String)
    (pos : Leid) (t : Vc n) :
    ∃ v, RwflOp.ofInsert ((argv.set 2 preArg).map Arg.str ++ [.leid pos, .vc t])
      = some (.insert ⟨preArg, argv.getD 3 "", argv.getD 4 "", pos⟩ v t) := by
  have hlen : argv.length = 9 := rwfl_length (c := .rwflinsert) rfl hpass
  have hchecks : failedCheck dbl [(5, .int), (6, .int), (7, .int), (8, .int)] argv = none :=
    hpass.checks
  obtain ⟨font, hfont⟩ := getLongLong_of_check (i := 5) hchecks (by decide)
  obtain ⟨size, hsize⟩ := getLongLong_of_check (i := 6) hchecks (by decide)
  obtain ⟨color, hcolor⟩ := getLongLong_of_check (i := 7) hchecks (by decide)
  obtain ⟨property, hproperty⟩ := getLongLong_of_check (i := 8) hchecks (by decide)
  refine ⟨⟨font, size, color, property⟩, ?_⟩
  have hlast : crGetLast ((argv.set 2 preArg).map Arg.str ++ [.leid pos, .vc t]) = some t := by
    rw [List.append_cons]
    exact crGetLast_append _ t
  obtain ⟨hpre, hword⟩ := strAt_insert hlen preArg [Arg.leid pos, Arg.vc t]
  simp only [RwflOp.ofInsert, Rwfl.insertProps, hlast, hpre, leidAt_insert hlen,
    hword 3 (by omega) (by omega), hword 4 (by omega) (by omega), hword 5 (by omega) (by omega),
    hword 6 (by omega) (by omega), hword 7 (by omega) (by omega), hword 8 (by omega) (by omega),
    Option.bind_some, Option.map_some, hfont, hsize, hcolor, hproperty]

/-- What an update that passed its checks broadcasts, read. -/
theorem RwflOp.ofUpdate_eq {dbl : String → Option ℤ} {argv : List String}
    (hpass : (rwflupdateCommand (n := n)).Passes dbl .rwflupdate argv) (lt : Lc) (t : Vc n) :
    ∃ v, getLongLongFromObject (argv.getD 4 "") = some v ∧
      RwflOp.ofUpdate ((argv.set 3 (sdstolower (argv.getD 3 ""))).map Arg.str
        ++ [.lc lt, .vc t])
      = some (.update (argv.getD 2 "") (sdstolower (argv.getD 3 "")) v lt t) := by
  have hlen : argv.length = 5 := rwfl_length (c := .rwflupdate) rfl hpass
  have hchecks : failedCheck dbl [(4, .int)] argv = none := hpass.checks
  obtain ⟨v, hv⟩ := getLongLong_of_check (i := 4) hchecks (by decide)
  refine ⟨v, hv, ?_⟩
  set low := sdstolower (argv.getD 3 "")
  have hlast : crGetLast ((argv.set 3 low).map Arg.str ++ [.lc lt, .vc t]) = some t := by
    rw [List.append_cons]
    exact crGetLast_append _ t
  have hword : ∀ j, j < 5 → strAt j ((argv.set 3 low).map Arg.str ++ [.lc lt, .vc t])
      = some ((argv.set 3 low).getD j "") :=
    fun j hj => strAt_map_append (by rw [List.length_set, hlen]; exact hj) _
  have hother : ∀ j, j ≠ 3 → (argv.set 3 low).getD j "" = argv.getD j "" := by
    intro j hj
    rw [List.getD_eq_getElem?_getD, List.getElem?_set_ne (Ne.symm hj),
      ← List.getD_eq_getElem?_getD]
  have hlow : (argv.set 3 low).getD 3 "" = low := by simp [hlen]
  have hlc : lcAt 5 ((argv.set 3 low).map Arg.str ++ [.lc lt, .vc t]) = some lt := by
    unfold lcAt
    rw [List.getElem?_append_right (by simp [hlen])]
    simp [hlen]
  simp only [RwflOp.ofUpdate, hlast, hword 2 (by omega), hword 3 (by omega),
    hword 4 (by omega), hother 2 (by decide), hother 4 (by decide), hlow, hlc, hv,
    Option.bind_some, Option.map_some]

/-- What a remove broadcasts, read. -/
theorem RwflOp.ofRem_eq {argv : List String} {t : Vc n} (hlen : argv.length = 3) :
    RwflOp.ofRem (argv.map Arg.str ++ [.vc t]) = some (.rem (argv.getD 2 "") t) := by
  simp only [RwflOp.ofRem, crGetLast_append, strAt_map_append (show 2 < argv.length by omega),
    Option.bind_some, Option.map_some]

theorem rwfl_proc_eq {c : Cmd} {lc : ListCommand n} (h : rwflCommand c = some lc) :
    c.proc = Proc.list lc := by
  cases c <;> cases h <;> rfl

theorem rwfl_arity_ge {c : Cmd} {lc : ListCommand n} (h : rwflCommand c = some lc) :
    2 ≤ c.arity := by
  cases c <;> cases h <;> decide

theorem rwfl_effect_eq {c : Cmd} {lc : ListCommand n} (me : Fin n) (rargv : List (Arg n))
    (h : Hash n) (hlc : rwflCommand c = some lc) :
    lc.effect me rargv h = (rwflDecode c rargv).bind fun m => m.apply me h := by
  cases c <;> cases hlc
  · exact RwflOp.insertEffect_eq me rargv h
  · exact RwflOp.updateEffect_eq me rargv h
  · exact RwflOp.remEffect_eq me rargv h

/-- What an accepted vector broadcasts names the same list and is read. -/
theorem rwfl_accepts {dbl : String → Option ℤ} {c : Cmd} {lc : ListCommand n} {me : Fin n}
    {argv : List String} {ho ho' : Option (Hash n)} {rargv : List (Arg n)}
    (hlc : rwflCommand c = some lc) (hpass : lc.Passes dbl c argv)
    (hp : lc.prepare me argv ho = some (ho', .ok rargv)) :
    strAt 0 rargv = some (argv.getD 0 "") ∧ strAt 1 rargv = some (argv.getD 1 "") ∧
      ∃ m, rwflDecode c rargv = some m := by
  have hlen := rwfl_length hlc hpass
  -- the first two words stay the client's
  have hkeep : ∀ (j : ℕ) (x : String) (args : List (Arg n)) (i : ℕ), 2 ≤ j → i < 2 →
      2 < argv.length →
      strAt i ((argv.set j x).map Arg.str ++ args) = some (argv.getD i "") := by
    intro j x args i hj hi hlen
    rw [strAt_map_append (by rw [List.length_set]; omega), List.getD_eq_getElem?_getD,
      List.getElem?_set_ne (by omega), ← List.getD_eq_getElem?_getD]
  cases c <;> cases hlc
  · cases Rwfl.insertPrepare_cases hp with
    | @placed _ preArg _ _ _ _ _ pos t _ _ _ _ =>
        have hlen : argv.length = 9 := hlen
        obtain ⟨v, hv⟩ := RwflOp.ofInsert_eq hpass preArg pos t
        exact ⟨hkeep 2 _ _ 0 le_rfl (by omega) (by omega),
          hkeep 2 _ _ 1 le_rfl (by omega) (by omega), _, hv⟩
  · rw [Rwfl.updatePrepare_eq] at hp
    cases Rwfl.nonAddPrepare_cases hp with
    | @accepted _ _ _ e _ _ _ _ _ happend =>
        cases happend
        have hlen : argv.length = 5 := hlen
        obtain ⟨v, -, hv⟩ := RwflOp.ofUpdate_eq hpass
          { e.body.current with x := e.body.current.x + 1 } e.body.header.current
        exact ⟨hkeep 3 _ _ 0 (by omega) (by omega) (by omega),
          hkeep 3 _ _ 1 (by omega) (by omega) (by omega), _, hv⟩
  · rw [Rwfl.remPrepare_eq] at hp
    cases Rwfl.nonAddPrepare_cases hp with
    | accepted _ _ _ _ happend =>
        cases happend
        have hlen : argv.length = 3 := hlen
        exact ⟨strAt_map_append (by omega) _, strAt_map_append (by omega) _, _,
          RwflOp.ofRem_eq hlen⟩

/-- The RWF list as a family of commands. -/
def rwflType : ListType n (RwflOp n) where
  command := rwflCommand
  decode := rwflDecode
  effect := fun me m h => m.apply me h
  proc_eq := rwfl_proc_eq
  arity_ge := rwfl_arity_ge
  effect_eq := rwfl_effect_eq
  accepts := rwfl_accepts

/-- The inserts are the broadcasts of `rwflinsert`. -/
theorem rwfl_insertsBy : (rwflType (n := n)).InsertsBy (fun m => m.op) .rwflinsert := by
  intro c rargv m i hm
  have hm : rwflDecode c rargv = some m := hm
  cases c
  case rwflinsert =>
      obtain ⟨t, -, hm⟩ := Option.bind_eq_some_iff.mp hm
      obtain ⟨pre, hpre, hm⟩ := Option.bind_eq_some_iff.mp hm
      obtain ⟨oid, hoid, hm⟩ := Option.bind_eq_some_iff.mp hm
      obtain ⟨content, hcontent, hm⟩ := Option.bind_eq_some_iff.mp hm
      obtain ⟨pos, hpos, hm⟩ := Option.bind_eq_some_iff.mp hm
      obtain ⟨v, -, rfl⟩ := Option.map_eq_some_iff.mp hm
      simp [RwflOp.op, Placement.ofVector, hpre, hoid, hcontent, hpos, eq_comm]
  case rwflupdate =>
      obtain ⟨t, -, hm⟩ := Option.bind_eq_some_iff.mp hm
      obtain ⟨oid, -, hm⟩ := Option.bind_eq_some_iff.mp hm
      obtain ⟨type, -, hm⟩ := Option.bind_eq_some_iff.mp hm
      obtain ⟨value, -, hm⟩ := Option.bind_eq_some_iff.mp hm
      obtain ⟨lt, -, rfl⟩ := Option.map_eq_some_iff.mp hm
      simp [RwflOp.op]
  case rwflrem =>
      obtain ⟨t, -, hm⟩ := Option.bind_eq_some_iff.mp hm
      obtain ⟨oid, -, rfl⟩ := Option.map_eq_some_iff.mp hm
      simp [RwflOp.op]
  all_goals cases hm

/-- What an accepted vector broadcasts, and the hash its preparation
leaves. -/
inductive RwflIssue (me : Fin n) (argv : List String) (ho : Option (Hash n)) :
    Option (Hash n) → RwflOp n → Prop
  | insert {pre : Option (Rwfle n)} {preArg addr : String} {h₁ h₂ : Hash n} {e : Rwfle n}
      {pos : Leid} {v : InsertProps} (hc : cmdOf argv = some .rwflinsert)
      (hpre : rwfleKind.checkPre Rwfl.exist ho (argv.getD 2 "") = some (.ok (pre, preArg)))
      (hget : rwfleKind.findOrCreate me (ho.getD .empty) (argv.getD 3 "") = some (h₁, addr))
      (he : h₁.rwfles addr = some e) (hhid : Rwfl.exist e = false)
      (hplace : rwfleKind.placeAt me (vcInc · me) h₁ pre preArg (argv.getD 3 "") e
        = some (h₂, .ok pos)) :
      RwflIssue me argv ho (some h₂)
        (.insert ⟨preArg, argv.getD 3 "", argv.getD 4 "", pos⟩ v e.body.header.current)
  | update {h : Hash n} {a : String} {e : Rwfle n} {v : ℤ}
      (hc : cmdOf argv = some .rwflupdate) (hho : ho = some h)
      (hfind : rwfleKind.find h (argv.getD 2 "") = some (some a)) (he : h.rwfles a = some e)
      (hex : Rwfl.exist e = true) :
      RwflIssue me argv ho (some h) (.update (argv.getD 2 "") (sdstolower (argv.getD 3 "")) v
        { e.body.current with x := e.body.current.x + 1 } e.body.header.current)
  | rem {h : Hash n} {a : String} {e : Rwfle n} (hc : cmdOf argv = some .rwflrem)
      (hho : ho = some h) (hfind : rwfleKind.find h (argv.getD 2 "") = some (some a))
      (he : h.rwfles a = some e) (hex : Rwfl.exist e = true) :
      RwflIssue me argv ho (some h) (.rem (argv.getD 2 "") (vcNow e.body.header.current))

/-- What the list's object does with a vector; only an accepted insert
counts. -/
structure RwflPrepared (me : Fin n) (ok : String → Prop) (argv : List String)
    (ho ho' : Option (Hash n)) (mo : Option (RwflOp n)) : Prop where
  moves : rwfleKind.Moves me ok (ho.getD .empty) [] (ho'.getD .empty)
  issue : ∀ m, mo = some m → RwflIssue me argv ho ho' m
  clock : mo = none → (ho'.getD .empty).clock = (ho.getD .empty).clock
  body : rwfleKind.Sound (ho.getD .empty) →
    rwfleKind.bodyAt me (ho'.getD .empty) = rwfleKind.bodyAt me (ho.getD .empty)
  len : (cmdOf argv = some .rwflinsert → argv.getD 3 "" ≠ "length") →
    getLen (ho'.getD .empty) = getLen (ho.getD .empty)

theorem rwfl_prepared {dbl : String → Option ℤ} {me : Fin n} {argv : List String}
    {ho ho' : Option (Hash n)} {mo : Option (RwflOp n)} (ok : String → Prop)
    (hsub : (rwflType (n := n)).Submits dbl argv) (hok : ok (listOid argv))
    (hp : rwflType.service.prepare me argv ho = some (ho', mo)) :
    RwflPrepared me ok argv ho ho' mo := by
  obtain ⟨c, lc, hlc, hpass⟩ := hsub
  have hlen := rwfl_length hlc hpass
  obtain ⟨c', hc, hp⟩ := Option.bind_eq_some_iff.mp hp
  rw [hpass.name] at hc
  obtain rfl := Option.some.inj hc
  obtain ⟨lc', hlc', hp⟩ := Option.bind_eq_some_iff.mp hp
  obtain rfl := Option.some.inj (hlc.symm.trans hlc')
  obtain ⟨⟨ho₁, res⟩, hprep, heq⟩ := Option.map_eq_some_iff.mp hp
  obtain ⟨rfl, rfl⟩ := Prod.mk.inj heq
  cases c <;> cases hlc
  · have hoid : listOid argv = argv.getD 3 "" := by simp only [listOid, hpass.name]
    rw [hoid] at hok
    -- making the record is all that a refused insert does
    have hmade : ∀ {h₁ addr}, rwfleKind.findOrCreate me (ho.getD .empty) (argv.getD 3 "")
        = some (h₁, addr) → RwflPrepared me ok argv ho (some h₁) none := by
      intro h₁ addr hget
      refine ⟨.make .refl hok hget, (fun m hm => by cases hm), fun _ => ?_, fun hs => ?_,
        fun hne => ?_⟩
      · exact ListKind.clock_findOrCreate rwfleKind_lawful ListKind.rwfleKind_plain hget
      · exact ListKind.bodyAt_findOrCreate rwfleKind_lawful hs hget
      · exact ListKind.getLen_findOrCreate rwfleKind_lawful (hne hpass.name) hget
    cases Rwfl.insertPrepare_cases hprep with
    | noPre _ =>
        exact ⟨.refl, (fun m hm => by cases hm), fun _ => rfl, fun _ => rfl, fun _ => rfl⟩
    | shown hat _ => exact hmade hat.get
    | noPlace hat _ hplace =>
        rcases ListKind.placeAt_cases ListKind.rwfleKind_plain hplace with ⟨rfl, -⟩ |
          ⟨-, -, -, _, _, hcon⟩
        · exact hmade hat.get
        · cases hcon
    | @placed _ preArg _ _ _ _ _ pos t hat hhid hplace hst =>
        cases hst
        obtain ⟨v, hv⟩ := RwflOp.ofInsert_eq hpass preArg pos _
        have hmade := hmade hat.get
        have hsame := ListKind.Same.placeAt rwfleKind_lawful ListKind.rwfleKind_plain hplace
        refine ⟨.quiet hmade.moves
          (ListKind.placeAt_quiet rwfleKind_lawful ListKind.rwfleKind_plain hplace),
          fun m hm => ?_, fun hm => ?_, fun hs => hsame.body.trans (hmade.body hs),
          fun hne => hsame.len.trans (hmade.len hne)⟩
        · obtain rfl := Option.some.inj (hv.symm.trans hm)
          exact .insert hpass.name hat.pre hat.get hat.heap hhid hplace
        · cases hv.symm.trans hm
  · rw [Rwfl.updatePrepare_eq] at hprep
    cases Rwfl.nonAddPrepare_cases hprep with
    | nexist => exact ⟨.refl, (fun m hm => by cases hm), fun _ => rfl, fun _ => rfl, fun _ => rfl⟩
    | @accepted _ _ _ e _ hho hfind he hex happend =>
        cases happend
        subst hho
        refine ⟨.refl, fun m hm => ?_, fun _ => rfl, fun _ => rfl, fun _ => rfl⟩
        obtain ⟨v, -, hv⟩ := RwflOp.ofUpdate_eq hpass
          { e.body.current with x := e.body.current.x + 1 } e.body.header.current
        have hdec := hv.symm.trans hm
        obtain rfl := Option.some.inj hdec
        exact .update hpass.name rfl hfind he hex
  · rw [Rwfl.remPrepare_eq] at hprep
    cases Rwfl.nonAddPrepare_cases hprep with
    | nexist => exact ⟨.refl, (fun m hm => by cases hm), fun _ => rfl, fun _ => rfl, fun _ => rfl⟩
    | @accepted _ _ _ e _ hho hfind he hex happend =>
        cases happend
        subst hho
        refine ⟨.refl, fun m hm => ?_, fun _ => rfl, fun _ => rfl, fun _ => rfl⟩
        have hdec := (RwflOp.ofRem_eq (t := vcNow e.body.header.current) hlen).symm.trans hm
        obtain rfl := Option.some.inj hdec
        exact .rem hpass.name rfl hfind he hex

-- ============================================================== effects

namespace Rwfl

variable {me : Fin n} {h h' : Hash n} {ok : String → Prop} {addr : String} {t : Vc n}

/-- The record at `addr` gets `body`, and the length is corrected by
`inc`. -/
def Wrote (h : Hash n) (addr : String) (body : RwflBody n) (inc : ℤ) (h' : Hash n) : Prop :=
  inc = 0 ∧ h' = setBody h addr body ∨ incrLen (setBody h addr body) inc = some h'

/-- A remove that fires resets the record and hides its element. -/
theorem removeFunc_cases (hrem : removeFunc addr t h = some h') :
    ∃ e, h.rwfles addr = some e ∧
      (h' = h ∧ (e.body.removeFunc t).2 = false ∨ (e.body.removeFunc t).2 = true ∧
        Wrote h addr (e.body.removeFunc t).1 (if exist e then -1 else 0) h') := by
  obtain ⟨e, he, hrem⟩ := Option.bind_eq_some_iff.mp hrem
  refine ⟨e, he, ?_⟩
  cases hfun : e.body.removeFunc t with
  | mk body fired =>
      rw [hfun] at hrem
      cases fired with
      | false => exact Or.inl ⟨(Option.some.inj hrem).symm, rfl⟩
      | true =>
          refine Or.inr ⟨rfl, ?_⟩
          dsimp only at hrem
          split at hrem
          · next hex =>
              rw [if_pos hex]
              exact Or.inr hrem
          · next hex =>
              rw [if_neg hex]
              exact Or.inl ⟨rfl, (Option.some.inj hrem).symm⟩

/-- An insert that counts shows its element and gives it its values. -/
theorem addFunc_cases {v : InsertProps} (hadd : addFunc addr v t h = some h') :
    ∃ e, h.rwfles addr = some e ∧
      (h' = h ∧ (e.body.header.addCheck t).2 = false ∨ (e.body.header.addCheck t).2 = true ∧
        Wrote h addr (RwflBody.innateUpdate v
          { e.body with header := (e.body.header.addCheck t).1 })
          (if exist e then 0 else 1) h') := by
  obtain ⟨e, he, hadd⟩ := Option.bind_eq_some_iff.mp hadd
  refine ⟨e, he, ?_⟩
  cases hfun : e.body.header.addCheck t with
  | mk header counts =>
      rw [hfun] at hadd
      cases counts with
      | false => exact Or.inl ⟨(Option.some.inj hadd).symm, rfl⟩
      | true =>
          refine Or.inr ⟨rfl, ?_⟩
          dsimp only at hadd
          split at hadd
          · next hex =>
              rw [if_pos hex]
              exact Or.inl ⟨rfl, (Option.some.inj hadd).symm⟩
          · next hex =>
              rw [if_neg hex]
              exact Or.inr hadd

/-- An update that counts writes the property it names, if it names one. -/
theorem updateFunc_cases {type : String} {lt : Lc} {value : ℤ}
    (hupd : updateFunc addr type lt value t h = some h') :
    ∃ e, h.rwfles addr = some e ∧
      (h' = h ∧ (e.body.header.updateCheck t).2 = false ∨
        (e.body.header.updateCheck t).2 = true ∧
        Wrote h addr (match Property.ofType type with
          | none => { e.body with header := (e.body.header.updateCheck t).1 }
          | some p => RwflBody.acquiredUpdate p lt (toInt value)
              { e.body with header := (e.body.header.updateCheck t).1 }) 0 h') := by
  obtain ⟨e, he, rfl⟩ := Option.map_eq_some_iff.mp hupd
  refine ⟨e, he, ?_⟩
  generalize Property.ofType type = property
  cases hfun : e.body.header.updateCheck t with
  | mk header counts =>
      cases counts with
      | false => exact Or.inl ⟨rfl, rfl⟩
      | true => exact Or.inr ⟨rfl, Or.inl ⟨rfl, rfl⟩⟩

theorem Wrote.quiet {body : RwflBody n} {inc : ℤ} (hw : Wrote h addr body inc h') :
    rwfleKind.Quiet h h' := by
  have hset : rwfleKind.Quiet h (setBody h addr body) :=
    .modify rwfleKind_lawful h addr fun _ => body
  rcases hw with ⟨-, rfl⟩ | hincr
  · exact hset
  · exact hset.trans (.incrLen rwfleKind_lawful ListKind.rwfleKind_plain hincr)

theorem Wrote.clock {body : RwflBody n} {inc : ℤ} (hw : Wrote h addr body inc h') :
    h'.clock = h.clock := by
  rcases hw with ⟨-, rfl⟩ | hincr
  · rfl
  · obtain ⟨len, -, rfl⟩ := Option.map_eq_some_iff.mp hincr
    exact Hash.clock_set_ne _ _ (by decide)

/-- Nothing, or a record and the length. -/
theorem removeFunc_wrote (hrem : removeFunc addr t h = some h') :
    h' = h ∨ ∃ body inc, Wrote h addr body inc h' := by
  obtain ⟨e, -, ⟨rfl, -⟩ | ⟨-, hw⟩⟩ := removeFunc_cases hrem
  · exact Or.inl rfl
  · exact Or.inr ⟨_, _, hw⟩

theorem addFunc_wrote {v : InsertProps} (hadd : addFunc addr v t h = some h') :
    h' = h ∨ ∃ body inc, Wrote h addr body inc h' := by
  obtain ⟨e, -, ⟨rfl, -⟩ | ⟨-, hw⟩⟩ := addFunc_cases hadd
  · exact Or.inl rfl
  · exact Or.inr ⟨_, _, hw⟩

theorem updateFunc_wrote {type : String} {lt : Lc} {value : ℤ}
    (hupd : updateFunc addr type lt value t h = some h') :
    h' = h ∨ ∃ body inc, Wrote h addr body inc h' := by
  obtain ⟨e, -, ⟨rfl, -⟩ | ⟨-, hw⟩⟩ := updateFunc_cases hupd
  · exact Or.inl rfl
  · exact Or.inr ⟨_, _, hw⟩

theorem wrote_quiet (hw : h' = h ∨ ∃ body inc, Wrote h addr body inc h') :
    rwfleKind.Quiet h h' := by
  rcases hw with rfl | ⟨_, _, hw⟩
  · exact .refl _
  · exact hw.quiet

theorem wrote_clock (hw : h' = h ∨ ∃ body inc, Wrote h addr body inc h') :
    h'.clock = h.clock := by
  rcases hw with rfl | ⟨_, _, hw⟩
  · rfl
  · exact hw.clock

end Rwfl

/-- The writes of a broadcast. -/
theorem RwflOp.apply_moves {me : Fin n} {h h' : Hash n} {ok : String → Prop} {m : RwflOp n}
    (hok : ok m.op.oid) (happ : m.apply me h = some h') :
    rwfleKind.Moves me ok h m.op.placements h' := by
  cases m with
  | insert i v t =>
      obtain ⟨p, hget, happ⟩ := Option.bind_eq_some_iff.mp happ
      obtain ⟨h₁, hrem, happ⟩ := Option.bind_eq_some_iff.mp happ
      obtain ⟨h₂, hpos, hadd⟩ := Option.bind_eq_some_iff.mp happ
      have hq := Rwfl.wrote_quiet (Rwfl.removeFunc_wrote hrem)
      refine .quiet (.place (.quiet (.make .refl hok hget) hq) hok ?_ hpos)
        (Rwfl.wrote_quiet (Rwfl.addFunc_wrote hadd))
      exact hq.find (ListKind.find_findOrCreate rwfleKind_lawful hget)
  | update oid type value lt t =>
      obtain ⟨p, hget, happ⟩ := Option.bind_eq_some_iff.mp happ
      obtain ⟨h₁, hrem, hupd⟩ := Option.bind_eq_some_iff.mp happ
      exact .quiet (.quiet (.make .refl hok hget) (Rwfl.wrote_quiet (Rwfl.removeFunc_wrote hrem)))
        (Rwfl.wrote_quiet (Rwfl.updateFunc_wrote hupd))
  | rem oid t =>
      obtain ⟨p, hget, hrem⟩ := Option.bind_eq_some_iff.mp happ
      exact .quiet (.make .refl hok hget) (Rwfl.wrote_quiet (Rwfl.removeFunc_wrote hrem))

-- ================================================================ runs

/-- The element of a broadcast, and what its preparation accepted. -/
theorem RwflIssue.accepts {me : Fin n} {argv : List String} {ho ho' : Option (Hash n)}
    {m : RwflOp n} (hm : RwflIssue me argv ho ho' m) (hs : rwfleKind.Sound (ho.getD .empty)) :
    m.op.oid = listOid argv ∧ ∀ i, m.op = .insert i →
      rwfleKind.Accepts me (ho.getD .empty) (argv.getD 2 "") i := by
  cases hm with
  | insert hc hpre hget he hhid hplace =>
      refine ⟨by simp only [listOid, hc]; rfl, fun i hi => ?_⟩
      injection hi with hi
      rw [← hi]
      exact ListKind.accepts_of_placeAt rwfleKind_lawful ListKind.rwfleKind_plain hs hpre hget
        he hplace _
  | update hc _ _ _ _ =>
      exact ⟨by simp only [listOid, hc]; rfl, fun i hi => by cases hi⟩
  | rem hc _ _ _ _ =>
      exact ⟨by simp only [listOid, hc]; rfl, fun i hi => by cases hi⟩

/-- An RWF list has the induction over its writes. -/
theorem rwfl_run {dbl : String → Option ℤ} {allowed : List String → Prop} {ok : String → Prop}
    {k : Config n (Option (Hash n)) (RwflOp n)}
    (hok : ∀ argv, allowed argv → ok (listOid argv))
    (hk : Reachable rwflType.service
      (.once fun argv => allowed argv ∧ (rwflType (n := n)).Submits dbl argv) k) :
    ListRun rwfleKind ok (fun m : RwflOp n => m.op) k
      (fun r => (k.got r).flatMap fun o => o.msg.op.placements) where
  induct := by
    intro J Q F hF h0 hmoves hnew
    have hrun := hk.run_forall (Q := fun o => Q o ∧ ok o.msg.op.oid) (F := F)
      (I := fun r ho l => rwfleKind.Sound (ho.getD .empty) ∧
        J r (l.flatMap fun o => o.msg.op.placements) (ho.getD .empty)) hF ?_ ?_ ?_ ?_
    · exact ⟨fun r => (hrun.1 r).2, fun o ho => (hrun.2 o ho).1⟩
    · exact fun r => ⟨ListKind.sound_empty _ fun _ => rfl, h0 r⟩
    · intro r argv ho ho' m l hall ⟨hs, hJ⟩ hp
      have hm := (rwfl_prepared ok hall.2 (hok argv hall.1) hp).moves
      refine ⟨hs.moves rwfleKind_lawful hm, ?_⟩
      have hJ' := hmoves hJ hm fun _ hi => nomatch hi
      rwa [List.append_nil] at hJ'
    · intro r argv ho ho' m l u hall ⟨hs, hJ⟩ hp hFm
      have hissue := (rwfl_prepared ok hall.2 (hok argv hall.1) hp).issue m rfl
      obtain ⟨hoid, hacc⟩ := hissue.accepts hs
      have hokm : ok m.op.oid := by
        rw [hoid]
        exact hok argv hall.1
      refine ⟨hnew hJ hFm fun i hi => ⟨hacc i hi, ?_⟩, hokm⟩
      rw [hi] at hokm
      exact hokm
    · intro r o ho ho' l _ ⟨hs, hJ⟩ hFo ⟨hQo, hoko⟩ he
      obtain ⟨h', happ, rfl⟩ := Option.map_eq_some_iff.mp he
      have hm := RwflOp.apply_moves hoko happ
      refine ⟨hs.moves rwfleKind_lawful hm, ?_⟩
      rw [List.flatMap_append, List.flatMap_singleton]
      refine hmoves hJ hm ?_
      intro i hi
      exact ⟨o, hFo, hQo, ListOp.eq_insert hi⟩

end CrdtRedis
