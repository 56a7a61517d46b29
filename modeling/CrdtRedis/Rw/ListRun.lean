/-
Runs of a remove-wins list: the writes of a command, and of an effect
phase that applies a command and drains the buffer.

`Rl.receive_ind` is the induction over an effect phase, from command to
command; `rl_forall` puts it together with the induction over a run. The
property may speak of the commands applied so far.
-/
import CrdtRedis.ListRun
import CrdtRedis.Rw.ListDelivery

namespace CrdtRedis

open Replication

variable {n : ℕ}

/-- What a command asks of the chain. -/
def RlCmd.op (cmd : RlCmd n) : ListOp :=
  match cmd.type with
  | .rladd => .insert ⟨(strAt 1 cmd.argv).getD "", (strAt 2 cmd.argv).getD "",
      (strAt 3 cmd.argv).getD "", (leidAt 8 cmd.argv).getD []⟩
  | _ => .touch ((strAt 1 cmd.argv).getD "")

namespace Rl

variable {me : Fin n} {h h' : Hash n} {ok : String → Prop}

-- ========================================================= one command

theorem tick_quiet {t : Vc n} (htick : tick me t h = some h') : rleKind.Quiet h h' := by
  obtain ⟨p, hget, rfl⟩ := Option.map_eq_some_iff.mp htick
  exact (ListKind.Quiet.getCurrent rleKind_lawful ListKind.rleKind_plain hget _).2

theorem changeSets_quiet {addr : String} {inc : ℤ} {shown : Bool}
    {f : RwSets n (RlAse n) → RwSets n (RlAse n)}
    (hch : changeSets h addr inc shown f = some h') : rleKind.Quiet h h' := by
  obtain ⟨e, -, hch⟩ := Option.bind_eq_some_iff.mp hch
  have hmod : rleKind.Quiet h (rleKind.modify h addr fun e => { e with body := f e.body }) :=
    .modify rleKind_lawful h addr fun e => f e.body
  dsimp only at hch
  split at hch
  · exact hmod.trans (.incrLen rleKind_lawful ListKind.rleKind_plain hch)
  · obtain rfl := Option.some.inj hch
    exact hmod

/-- How a command changes the record at `addr`. -/
def Changed (cmd : RlCmd n) (addr : String) (h h' : Hash n) : Prop :=
  match cmd.type with
  | .rladd => ∃ v, insertProps cmd.argv = some v ∧
      changeSets h addr 1 true (RwSets.add RlAse.t (RlAse.new cmd.t v)) = some h'
  | .rlupdate => ∃ type value, strAt 2 cmd.argv = some type ∧
      (strAt 3 cmd.argv).bind getLongLongFromObject = some value ∧
      h' = match Property.ofType type with
        | none => h
        | some q => rleKind.modify h addr fun e =>
            { e with body := { e.body with aset := e.body.aset.map (RlAse.update q value cmd.t) } }
  | .rlrem => changeSets h addr (-1) false (RwSets.remove RlAse.t cmd.t) = some h'

/-- A command ticks the clock, looks its record up, places it if it is an
insert, and changes it. -/
theorem applyCmd_cases {cmd : RlCmd n} (happ : applyCmd me cmd h = some h') :
    ∃ h₁ h₂ addr g, tick me cmd.t h = some h₁ ∧
      rleKind.findOrCreate me h₁ cmd.op.oid = some (h₂, addr) ∧
      (∀ i, cmd.op = .insert i →
        rleKind.position h₂ i.pre i.oid i.content addr i.pos = some g) ∧
      ((∀ i, cmd.op ≠ .insert i) → g = h₂) ∧ Changed cmd addr g h' := by
  unfold applyCmd at happ
  unfold RlCmd.op Changed
  cases hty : cmd.type with
  | rladd =>
      simp only [hty] at happ ⊢
      obtain ⟨pre, hpre, happ⟩ := Option.bind_eq_some_iff.mp happ
      obtain ⟨oid, hoid, happ⟩ := Option.bind_eq_some_iff.mp happ
      obtain ⟨content, hcontent, happ⟩ := Option.bind_eq_some_iff.mp happ
      obtain ⟨pos, hpos, happ⟩ := Option.bind_eq_some_iff.mp happ
      obtain ⟨v, hv, happ⟩ := Option.bind_eq_some_iff.mp happ
      obtain ⟨h₁, htick, happ⟩ := Option.bind_eq_some_iff.mp happ
      obtain ⟨⟨h₂, addr⟩, hget, happ⟩ := Option.bind_eq_some_iff.mp happ
      obtain ⟨g, hplace, happ⟩ := Option.bind_eq_some_iff.mp happ
      rw [hpre, hoid, hcontent, hpos]
      refine ⟨h₁, h₂, addr, g, htick, hget, ?_, (fun hcon => absurd rfl (hcon _)), v, hv, happ⟩
      intro i hi
      injection hi with hi
      rw [← hi]
      exact hplace
  | rlupdate =>
      simp only [hty] at happ ⊢
      obtain ⟨oid, hoid, happ⟩ := Option.bind_eq_some_iff.mp happ
      obtain ⟨type, htype, happ⟩ := Option.bind_eq_some_iff.mp happ
      obtain ⟨value, hvalue, happ⟩ := Option.bind_eq_some_iff.mp happ
      obtain ⟨h₁, htick, happ⟩ := Option.bind_eq_some_iff.mp happ
      obtain ⟨⟨h₂, addr⟩, hget, rfl⟩ := Option.map_eq_some_iff.mp happ
      rw [hoid]
      refine ⟨h₁, h₂, addr, h₂, htick, hget, (fun i hi => by cases hi), fun _ => rfl, type, value,
        htype, hvalue, ?_⟩
      cases Property.ofType type <;> rfl
  | rlrem =>
      simp only [hty] at happ ⊢
      obtain ⟨oid, hoid, happ⟩ := Option.bind_eq_some_iff.mp happ
      obtain ⟨h₁, htick, happ⟩ := Option.bind_eq_some_iff.mp happ
      obtain ⟨⟨h₂, addr⟩, hget, happ⟩ := Option.bind_eq_some_iff.mp happ
      rw [hoid]
      exact ⟨h₁, h₂, addr, h₂, htick, hget, (fun i hi => by cases hi), (fun _ => rfl), happ⟩

theorem Changed.quiet {cmd : RlCmd n} {addr : String} (hch : Changed cmd addr h h') :
    rleKind.Quiet h h' := by
  unfold Changed at hch
  split at hch
  · obtain ⟨v, -, hch⟩ := hch
    exact changeSets_quiet hch
  · obtain ⟨type, value, -, -, rfl⟩ := hch
    split
    · exact .refl _
    · exact .modify rleKind_lawful _ _ _
  · exact changeSets_quiet hch

/-- The writes of a command before it changes the record. -/
theorem applyCmd_placed {cmd : RlCmd n} {h₁ h₂ g : Hash n} {addr : String}
    (hok : ok cmd.op.oid) (htick : tick me cmd.t h = some h₁)
    (hget : rleKind.findOrCreate me h₁ cmd.op.oid = some (h₂, addr))
    (hplace : ∀ i, cmd.op = .insert i →
      rleKind.position h₂ i.pre i.oid i.content addr i.pos = some g)
    (hother : (∀ i, cmd.op ≠ .insert i) → g = h₂) :
    rleKind.Moves me ok h cmd.op.placements g := by
  have hmade : rleKind.Moves me ok h [] h₂ := .make (tick_quiet htick).moves hok hget
  cases hop : cmd.op with
  | insert i =>
      rw [hop] at hok hget
      exact .place hmade hok (ListKind.find_findOrCreate rleKind_lawful hget) (hplace i hop)
  | touch oid =>
      rw [hother fun i hi => by rw [hop] at hi; cases hi]
      exact hmade

/-- The writes of a command. -/
theorem applyCmd_moves {cmd : RlCmd n} (hok : ok cmd.op.oid)
    (happ : applyCmd me cmd h = some h') : rleKind.Moves me ok h cmd.op.placements h' := by
  obtain ⟨h₁, h₂, addr, g, htick, hget, hplace, hother, hch⟩ := applyCmd_cases happ
  exact .quiet (applyCmd_placed hok htick hget hplace hother) hch.quiet

-- ======================================================== effect phases

/-- A write to the clock's or the buffer's field outside of a command. -/
inductive Control (h : Hash n) : Hash n → Prop
  | current (hf : h.fields "current" = none) (c : Vc n) :
      Control h (h.set "current" (.clock c))
  | ops (hf : (h.fields "ops").bind rleKind.unptr = none) (cmds : List (RlCmd n)) :
      Control h (h.set "ops" (.ops cmds))

theorem Control.quiet (hc : Control h h') : rleKind.Quiet h h' := by
  cases hc with
  | current hf c => exact .set rleKind_lawful (by decide) (by rw [hf]; rfl) rfl
  | ops hf cmds => exact .set rleKind_lawful (by decide) hf rfl

theorem getCurrent_control {c : Vc n} (hget : getCurrent me h = some (h', c)) :
    h' = h ∨ Control h h' := by
  rcases (getCurrent_cases hget).2 with ⟨rfl, -⟩ | ⟨rfl, hf⟩
  · exact Or.inl rfl
  · exact Or.inr (.current hf c)

theorem getOps_control {cmds : List (RlCmd n)} (hget : getOps h = some (h', cmds)) :
    (h' = h ∨ Control h h') ∧ h'.fields "ops" = some (.ops cmds) := by
  unfold getOps at hget
  cases hf : h.fields "ops" with
  | none =>
      rw [hf] at hget
      obtain ⟨rfl, rfl⟩ := Prod.mk.inj (Option.some.inj hget)
      exact ⟨Or.inr (.ops (by rw [hf]; rfl) _), by simp [Hash.set]⟩
  | some v =>
      rw [hf] at hget
      cases v with
      | ops cmds =>
          obtain ⟨rfl, rfl⟩ := Prod.mk.inj (Option.some.inj hget)
          exact ⟨Or.inl rfl, hf⟩
      | _ => cases hget

/-- The induction over an effect phase: what every application of a
command it applies keeps, and every write to the clock's or the buffer's
field, the effect phase keeps. -/
theorem receive_ind {J : List (RlCmd n) → Hash n → Prop} {type : RlCmdType}
    {rargv : List (Arg n)} {L : List (RlCmd n)} (hJ : J L h)
    (hrec : receive type me rargv h = some h')
    (hctl : ∀ {L g g'}, J L g → Control g g' → J L g')
    (happly : ∀ {L g g' cmd}, J L g → cmd ∈ applies type me rargv h →
      applyCmd me cmd g = some g' → J (L ++ [cmd]) g') :
    J (L ++ applies type me rargv h) h' := by
  obtain ⟨t, hlast, hrec'⟩ := Option.bind_eq_some_iff.mp hrec
  obtain ⟨⟨h₁, c⟩, hcur, hrec'⟩ := Option.bind_eq_some_iff.mp hrec'
  have hmake : ∀ {L g g'}, J L g → g' = g ∨ Control g g' → J L g' := by
    intro L g g' hg hor
    rcases hor with rfl | hc
    · exact hg
    · exact hctl hg hc
  have hJ₁ := hmake hJ (getCurrent_control hcur)
  dsimp only at hrec'
  split at hrec'
  · next hready =>
      obtain ⟨h₂, happ, hloop⟩ := Option.bind_eq_some_iff.mp hrec'
      obtain ⟨⟨h₃, cmds⟩, hops, hloop⟩ := Option.bind_eq_some_iff.mp hloop
      obtain ⟨h₄, hnotify, rfl⟩ := Option.map_eq_some_iff.mp hloop
      have hlist : applies type me rargv h = rlCmdNew type rargv t ::
          notified (fun (h : Option (Hash n)) cmd => h.any fun h => ready h cmd.t)
            (fun h cmd => h.bind (applyCmd me cmd)) (some h₃) cmds := by
        simp only [applies, hlast, Option.bind_some, hcur, if_pos hready, happ, hops,
          Option.map_some, Option.getD_some]
      rw [hlist] at happly ⊢
      rw [← applyCmd_rlCmdNew hlast] at happ
      obtain ⟨hor, hfield⟩ := getOps_control hops
      have hJ₃ := hmake (happly hJ₁ List.mem_cons_self happ) hor
      -- the loop applies its commands one after the other
      rw [notify, notifyLoop_state] at hnotify
      change (notified _ _ _ _).foldl _ _ = _ at hnotify
      generalize notified (fun (h : Option (Hash n)) cmd => h.any fun h => ready h cmd.t)
        (fun h cmd => h.bind (applyCmd me cmd)) (some h₃) cmds = rest at hnotify happly ⊢
      have hplain : ∃ v, h₃.fields "ops" = some v ∧ rleKind.unptr v = none := ⟨_, hfield, rfl⟩
      obtain ⟨hend, v, hv, hno⟩ := foldl_bind_ind
        (J := fun L g => J L g ∧ ∃ v, g.fields "ops" = some v ∧ rleKind.unptr v = none)
        hnotify (by
          intro L g g' cmd hJ hmem hcmd
          obtain ⟨hg, hplain⟩ := hJ
          have hmoves : rleKind.Moves me (fun _ => True) g _ g' := applyCmd_moves trivial hcmd
          exact ⟨happly hg (List.mem_cons_of_mem _ hmem) hcmd,
            hmoves.plain rleKind_lawful (by decide) hplain⟩)
        ⟨hJ₃, hplain⟩
      rw [List.append_assoc] at hend
      exact hctl hend (.ops (by rw [hv]; exact hno) _)
  · next hready =>
      have hlist : applies type me rargv h = [] := by
        simp only [applies, hlast, Option.bind_some, hcur, if_neg hready, Option.getD_none]
      rw [hlist, List.append_nil]
      obtain ⟨⟨h₂, cmds⟩, hops, rfl⟩ := Option.map_eq_some_iff.mp hrec'
      obtain ⟨hor, hfield⟩ := getOps_control hops
      exact hctl (hmake hJ₁ hor) (.ops (by rw [hfield]; rfl) _)

-- ========================================================= preparations

theorem stampNow_quiet {t : Vc n} (hst : stampNow me h = some (h', t)) : rleKind.Quiet h h' := by
  obtain ⟨⟨h₁, c⟩, hget, heq⟩ := Option.map_eq_some_iff.mp hst
  obtain ⟨rfl, -⟩ := Prod.mk.inj heq
  exact (ListKind.Quiet.getCurrent rleKind_lawful ListKind.rleKind_plain hget c).1

theorem stampNow_same {t : Vc n} (hst : stampNow me h = some (h', t)) :
    rleKind.Same me h h' := by
  obtain ⟨⟨h₁, c⟩, hget, heq⟩ := Option.map_eq_some_iff.mp hst
  obtain ⟨rfl, -⟩ := Prod.mk.inj heq
  exact .getCurrent rleKind_lawful hget

/-- The writes of an insert's preparation, and what it accepts. -/
theorem insertPrepare_moves {argv : List String} {ho ho' : Option (Hash n)}
    {res : Except Reply (List (Arg n))} (hs : rleKind.Sound (ho.getD .empty))
    (hok : ok (argv.getD 3 "")) (hp : insertPrepare me argv ho = some (ho', res)) :
    rleKind.Moves me ok (ho.getD .empty) [] (ho'.getD .empty) ∧
      (argv.getD 3 "" ≠ "length" → rleKind.Same me (ho.getD .empty) (ho'.getD .empty)) ∧
      ∀ rargv, res = .ok rargv → ∃ preArg pos t,
        rargv = (argv.set 2 preArg).map Arg.str ++ [.leid pos, .vc t] ∧
        ∀ content, rleKind.Accepts me (ho.getD .empty) (argv.getD 2 "")
          ⟨preArg, argv.getD 3 "", content, pos⟩ := by
  have hprep := insertPrepare_cases hp
  rw [← and_assoc]
  refine ⟨?_, fun rargv hrargv => ?_⟩
  · have hmade : ∀ {h₁ addr}, rleKind.findOrCreate me (ho.getD .empty) (argv.getD 3 "")
        = some (h₁, addr) → rleKind.Moves me ok (ho.getD .empty) [] h₁ ∧
        (argv.getD 3 "" ≠ "length" → rleKind.Same me (ho.getD .empty) h₁) :=
      fun hget => ⟨.make .refl hok hget, fun hne => .findOrCreate rleKind_lawful hs hne hget⟩
    have hplaced : ∀ {h₁ h₂ : Hash n} {pre preArg e place},
        rleKind.placeAt me (fun c => c) h₁ pre preArg (argv.getD 3 "") e = some (h₂, place) →
        rleKind.Quiet h₁ h₂ ∧ rleKind.Same me h₁ h₂ :=
      fun hpl => ⟨ListKind.placeAt_quiet rleKind_lawful ListKind.rleKind_plain hpl,
        .placeAt rleKind_lawful ListKind.rleKind_plain hpl⟩
    cases hprep with
    | noPre _ => exact ⟨.refl, fun _ => .refl _⟩
    | shown hat _ => exact hmade hat.get
    | noPlace hat _ hpl =>
        obtain ⟨hmoves, hsame⟩ := hmade hat.get
        exact ⟨.quiet hmoves (hplaced hpl).1, fun hne => (hsame hne).trans (hplaced hpl).2⟩
    | placed hat _ hpl hst =>
        obtain ⟨hmoves, hsame⟩ := hmade hat.get
        exact ⟨.quiet (.quiet hmoves (hplaced hpl).1) (stampNow_quiet hst),
          fun hne => ((hsame hne).trans (hplaced hpl).2).trans (stampNow_same hst)⟩
  · subst hrargv
    exact hprep.sends rleKind_lawful ListKind.rleKind_plain hs

theorem nonAddPrepare_quiet {sent argv : List String} {ho ho' : Option (Hash n)}
    {res : Except Reply (List (Arg n))}
    (hp : nonAddPrepare sent me argv ho = some (ho', res)) :
    rleKind.Quiet (ho.getD .empty) (ho'.getD .empty) ∧
      rleKind.Same me (ho.getD .empty) (ho'.getD .empty) := by
  cases nonAddPrepare_cases hp with
  | nexist => exact ⟨.refl _, .refl _⟩
  | accepted hho _ _ _ happend =>
      obtain ⟨⟨h₁, t⟩, hst, heq⟩ := Option.map_eq_some_iff.mp happend
      obtain ⟨rfl, -⟩ := Prod.mk.inj heq
      subst hho
      exact ⟨stampNow_quiet hst, stampNow_same hst⟩

end Rl

/-- The words of a buffered command are those of its broadcast. -/
theorem RlMsg.strAt_cmd (m : RlMsg n) (i : ℕ) : strAt i m.cmd.argv = strAt (i + 1) m.rargv :=
  (strAt_inner m.last i).trans (strAt_drop i m.rargv)

theorem RlMsg.leidAt_cmd (m : RlMsg n) (i : ℕ) : leidAt i m.cmd.argv = leidAt (i + 1) m.rargv :=
  (leidAt_inner m.last i).trans (leidAt_drop i m.rargv)

/-- A broadcast that is no insert names its element second. -/
theorem RlMsg.op_touch {m : RlMsg n} {oid : String} (hty : m.type ≠ .rladd)
    (hoid : strAt 2 m.rargv = some oid) : m.cmd.op = .touch oid := by
  unfold RlCmd.op
  rw [m.strAt_cmd 1, hoid]
  cases hm : m.cmd.type with
  | rladd => exact absurd hm hty
  | rlupdate => rfl
  | rlrem => rfl

/-- What the broadcast of an insert asks for. -/
theorem RlMsg.op_insert {m : RlMsg n} {argv : List String} {preArg : String} {pos : Leid}
    {args : List (Arg n)} (hty : m.type = .rladd) (hlen : argv.length = 9)
    (hm : m.rargv = (argv.set 2 preArg).map Arg.str ++ .leid pos :: args) :
    m.cmd.op = .insert ⟨preArg, argv.getD 3 "", argv.getD 4 "", pos⟩ := by
  unfold RlCmd.op
  rw [m.strAt_cmd, m.strAt_cmd, m.strAt_cmd, m.leidAt_cmd, hm, leidAt_insert hlen,
    (strAt_insert hlen preArg _).1, (strAt_insert hlen preArg _).2 3 (by omega) (by omega),
    (strAt_insert hlen preArg _).2 4 (by omega) (by omega)]
  rw [show m.cmd.type = .rladd from hty]
  rfl

/-- The inserts are the broadcasts of `rlinsert`. -/
theorem rl_insertsBy : (rlType (n := n)).InsertsBy (fun m => m.cmd.op) .rlinsert := by
  intro c rargv m i hm
  obtain ⟨type, hty, hm⟩ := Option.bind_eq_some_iff.mp hm
  have hvec : m.type = type ∧ m.rargv = rargv := by
    unfold RlMsg.ofVector at hm
    split at hm
    · obtain rfl := Option.some.inj hm
      exact ⟨rfl, rfl⟩
    · cases hm
  obtain ⟨htype, rfl⟩ := hvec
  show m.cmd.op = .insert i ↔ _
  unfold RlCmd.op Placement.ofVector
  rw [m.strAt_cmd, m.strAt_cmd, m.strAt_cmd, m.leidAt_cmd, show m.cmd.type = type from htype]
  cases c <;> cases hty <;> simp [eq_comm]

/-- The words a command of the family that passed its checks has. -/
theorem rl_length {c : Cmd} {lc : ListCommand n} {dbl : String → Option ℤ}
    {argv : List String} (hlc : rlCommand c = some lc) (hpass : lc.Passes dbl c argv) :
    argv.length = c.arity := by
  refine le_antisymm (hpass.maxArgc.trans ?_) hpass.arity
  cases c <;> cases hlc <;> exact le_rfl

/-- What the list's object does with a vector: the writes, and what the
broadcast asks of the chain. -/
structure RlPrepared (me : Fin n) (ok : String → Prop) (argv : List String)
    (ho ho' : Option (Hash n)) (mo : Option (RlMsg n)) : Prop where
  moves : rleKind.Moves me ok (ho.getD .empty) [] (ho'.getD .empty)
  same : listOid argv ≠ "length" → rleKind.Same me (ho.getD .empty) (ho'.getD .empty)
  issue : ∀ m, mo = some m → m.cmd.op.oid = listOid argv ∧ ∀ i, m.cmd.op = .insert i →
    rleKind.Accepts me (ho.getD .empty) (argv.getD 2 "") i

theorem rl_prepared {dbl : String → Option ℤ} {me : Fin n} {argv : List String}
    {ho ho' : Option (Hash n)} {mo : Option (RlMsg n)} (ok : String → Prop)
    (hsub : (rlType (n := n)).Submits dbl argv) (hs : rleKind.Sound (ho.getD .empty))
    (hok : ok (listOid argv))
    (hp : rlType.service.prepare me argv ho = some (ho', mo)) :
    RlPrepared me ok argv ho ho' mo := by
  obtain ⟨c, lc, hlc, hpass⟩ := hsub
  have hlen := rl_length hlc hpass
  have hspec := (rl_service_prepare hp).2
  obtain ⟨c', hc, hp⟩ := Option.bind_eq_some_iff.mp hp
  rw [hpass.name] at hc
  obtain rfl := Option.some.inj hc
  obtain ⟨lc', hlc', hp⟩ := Option.bind_eq_some_iff.mp hp
  obtain rfl := Option.some.inj (hlc.symm.trans hlc')
  obtain ⟨⟨ho₁, res⟩, hprep, heq⟩ := Option.map_eq_some_iff.mp hp
  obtain ⟨rfl, rfl⟩ := Prod.mk.inj heq
  -- a broadcast of a command that is no insert
  have htouch : ∀ m : RlMsg n, m.type ≠ .rladd →
      strAt 2 m.rargv = some (argv.getD 2 "") → listOid argv = argv.getD 2 "" →
      m.cmd.op.oid = listOid argv ∧ ∀ i, m.cmd.op = .insert i →
        rleKind.Accepts me (ho.getD .empty) (argv.getD 2 "") i := by
    intro m hty hword hoid
    rw [RlMsg.op_touch hty hword, hoid]
    exact ⟨rfl, fun i hi => by cases hi⟩
  cases c <;> cases hlc
  · have hoid : listOid argv = argv.getD 3 "" := by simp only [listOid, hpass.name]
    rw [hoid] at hok
    obtain ⟨hmoves, hsame, hbroadcast⟩ := Rl.insertPrepare_moves hs hok hprep
    refine ⟨hmoves, (by rw [hoid]; exact hsame), ?_⟩
    intro m hm
    rw [hoid]
    cases res with
    | error reply => cases hm
    | ok rargv =>
        obtain ⟨preArg, pos, t, rfl, hacc⟩ := hbroadcast rargv rfl
        have hdec : RlMsg.ofVector .rladd
            ((argv.set 2 preArg).map Arg.str ++ [.leid pos, .vc t]) = some m := hm
        have hlast : crGetLast ((argv.set 2 preArg).map Arg.str ++ [.leid pos, .vc t])
            = some t := by
          rw [List.append_cons]
          exact crGetLast_append _ t
        rw [RlMsg.ofVector_eq hlast] at hdec
        obtain rfl := Option.some.inj hdec
        rw [RlMsg.op_insert rfl hlen rfl]
        refine ⟨rfl, fun i hi => ?_⟩
        injection hi with hi
        rw [← hi]
        exact hacc _
  · refine ⟨(Rl.nonAddPrepare_quiet hprep).1.moves, fun _ => (Rl.nonAddPrepare_quiet hprep).2, ?_⟩
    intro m hm
    obtain ⟨c, l, hc, hty, hform, -, hrargv⟩ := hspec m hm
    rw [hpass.name] at hc
    obtain rfl := Option.some.inj hc
    have hform : l = (argv.set 3 (sdstolower (argv.getD 3 ""))).map Arg.str := hform
    refine htouch m ?_ ?_ (by simp only [listOid, hpass.name])
    · rw [← Option.some.inj hty]
      decide
    · rw [hrargv, hform, strAt_map_append (by rw [List.length_set, hlen]; decide),
        List.getD_eq_getElem?_getD, List.getElem?_set_ne (by omega),
        ← List.getD_eq_getElem?_getD]
  · refine ⟨(Rl.nonAddPrepare_quiet hprep).1.moves, fun _ => (Rl.nonAddPrepare_quiet hprep).2, ?_⟩
    intro m hm
    obtain ⟨c, l, hc, hty, hform, -, hrargv⟩ := hspec m hm
    rw [hpass.name] at hc
    obtain rfl := Option.some.inj hc
    have hform : l = argv.map Arg.str := hform
    refine htouch m ?_ ?_ (by simp only [listOid, hpass.name])
    · rw [← Option.some.inj hty]
      decide
    · rw [hrargv, hform, strAt_map_append (by rw [hlen]; decide)]

-- ================================================================ runs

/-- The induction over a run of a remove-wins list. `J` relates the hash of
a server to the commands it applied, in order. -/
theorem rl_forall {allowed : List String → Prop} {k : Config n (Option (Hash n)) (RlMsg n)}
    {J : Fin n → List (RlCmd n) → Hash n → Prop} {Q F : Op n (RlMsg n) → Prop}
    (hk : Reachable rlType.service (.once allowed) k) (hF : ∀ o ∈ k.sent, F o)
    (h0 : ∀ r, J r [] .empty)
    (hprep : ∀ {r argv ho ho' m L}, allowed argv → J r L (ho.getD .empty) →
      rlType.service.prepare r argv ho = some (ho', m) → J r L (ho'.getD .empty))
    (hnew : ∀ {r argv ho ho' m L u}, allowed argv → J r L (ho.getD .empty) →
      rlType.service.prepare r argv ho = some (ho', some m) → F ⟨u, r, m⟩ → Q ⟨u, r, m⟩)
    (hctl : ∀ {r L h h'}, J r L h → Rl.Control h h' → J r L h')
    (happly : ∀ {r L h h' o}, J r L h → F o → Q o →
      Rl.applyCmd r o.msg.cmd h = some h' → J r (L ++ [o.msg.cmd]) h') :
    (∀ r, J r ((rl_causal allowed).log k r) ((k.site r).getD .empty)) ∧ ∀ o ∈ k.sent, Q o := by
  have hC := rl_causal (n := n) allowed
  have hrun := hk.run_forall (Q := Q) (F := F)
    (I := fun r ho l =>
      J r (history RlCmd.stamp RlCmd.src (l.map fun o => o.msg.cmd)).2 (ho.getD .empty) ∧
      (ho.getD .empty).site = (history RlCmd.stamp RlCmd.src (l.map fun o => o.msg.cmd)).1 ∧
      ∀ o ∈ l, F o ∧ Q o) hF ?_ ?_ ?_ ?_
  · exact ⟨fun r => (hrun.1 r).1, hrun.2⟩
  · exact fun r => ⟨h0 r, rfl, fun _ ho => nomatch ho⟩
  · intro r argv ho ho' m l hall ⟨hJ, hsite, hl⟩ hp
    exact ⟨hprep hall hJ hp, (hC.prepare hall hp).trans hsite, hl⟩
  · intro r argv ho ho' m l u hall ⟨hJ, _⟩ hp hFm
    exact hnew hall hJ hp hFm
  · intro r o ho ho' l _ ⟨hJ, hsite, hl⟩ hFo hQo he
    have harrive := hC.effect he
    obtain ⟨h', hrec, rfl⟩ := Option.map_eq_some_iff.mp he
    have happlies := (Rl.receive_site o.msg.last rfl hrec).2.2
    have hall : ∀ o' ∈ l ++ [o], F o' ∧ Q o' := by
      intro o' ho'
      rcases List.mem_append.mp ho' with ho' | ho'
      · exact hl o' ho'
      · rw [List.mem_singleton.mp ho']
        exact ⟨hFo, hQo⟩
    rw [List.map_append, List.map_singleton, history_snoc]
    refine ⟨?_, ?_, hall⟩
    · show J r (_ ++ Site.applies _ _ _ _) _
      rw [← hsite, show o.msg.cmd = rlCmdNew o.msg.type o.msg.rargv o.msg.t from rfl,
        ← happlies]
      refine Rl.receive_ind (J := J r) hJ hrec (fun hg hc => hctl hg hc) ?_
      intro L g g' cmd hg hmem happ
      -- what is applied arrived before or now
      have hlog : cmd ∈ (history RlCmd.stamp RlCmd.src
          ((l ++ [o]).map fun o => o.msg.cmd)).2 := by
        rw [List.map_append, List.map_singleton, history_snoc, ← hsite]
        rw [happlies] at hmem
        exact List.mem_append_right _ hmem
      have hin := (history_perm _).mem_iff.mp (List.mem_append_left _ hlog)
      obtain ⟨o', ho', rfl⟩ := List.mem_map.mp hin
      exact happly hg (hall o' ho').1 (hall o' ho').2 happ
    · show _ = Site.arrive _ _ _ _
      rw [← hsite]
      exact harrive

/-- A remove-wins list has the induction over its writes. -/
theorem rl_run {dbl : String → Option ℤ} {allowed : List String → Prop} {ok : String → Prop}
    {k : Config n (Option (Hash n)) (RlMsg n)} (hok : ∀ argv, allowed argv → ok (listOid argv))
    (hk : Reachable rlType.service
      (.once fun argv => allowed argv ∧ (rlType (n := n)).Submits dbl argv) k) :
    ListRun rleKind ok (fun m : RlMsg n => m.cmd.op) k
      (fun r => ((rl_causal fun argv => allowed argv ∧ (rlType (n := n)).Submits dbl argv).log
        k r).flatMap fun cmd => cmd.op.placements) where
  induct := by
    intro J Q F hF h0 hmoves hnew
    have hrun := rl_forall (Q := fun o => Q o ∧ ok o.msg.cmd.op.oid) (F := F)
      (J := fun r L h => rleKind.Sound h ∧ J r (L.flatMap fun cmd => cmd.op.placements) h)
      hk hF ?_ ?_ ?_ ?_ ?_
    · exact ⟨fun r => (hrun.1 r).2, fun o ho => (hrun.2 o ho).1⟩
    · exact fun r => ⟨ListKind.sound_empty _ fun _ => rfl, h0 r⟩
    · intro r argv ho ho' m L hall ⟨hs, hJ⟩ hp
      have hm := (rl_prepared ok hall.2 hs (hok argv hall.1) hp).moves
      refine ⟨hs.moves rleKind_lawful hm, ?_⟩
      have hJ' := hmoves hJ hm fun _ hi => nomatch hi
      rwa [List.append_nil] at hJ'
    · intro r argv ho ho' m L u hall ⟨hs, hJ⟩ hp hFm
      obtain ⟨hoid, hacc⟩ := (rl_prepared ok hall.2 hs (hok argv hall.1) hp).issue m rfl
      have hokm : ok m.cmd.op.oid := by
        rw [hoid]
        exact hok argv hall.1
      refine ⟨hnew hJ hFm fun i hi => ⟨hacc i hi, ?_⟩, hokm⟩
      rw [hi] at hokm
      exact hokm
    · intro r L h h' ⟨hs, hJ⟩ hc
      refine ⟨hs.quiet hc.quiet, ?_⟩
      have hJ' := hmoves hJ hc.quiet.moves fun _ hi => nomatch hi
      rwa [List.append_nil] at hJ'
    · intro r L h h' o ⟨hs, hJ⟩ hFo ⟨hQo, hoko⟩ happ
      have hm := Rl.applyCmd_moves hoko happ
      refine ⟨hs.moves rleKind_lawful hm, ?_⟩
      rw [List.flatMap_append, List.flatMap_singleton]
      refine hmoves hJ hm ?_
      intro i hi
      exact ⟨o, hFo, hQo, ListOp.eq_insert hi⟩

end CrdtRedis
