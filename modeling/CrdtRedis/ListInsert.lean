/-
A freshly inserted element comes right behind its predecessor exactly if
there is room between the predecessor and what follows it.

Both lists build the identifier with `constructLeid` from the two
neighbours, and hang the element in by comparing identifiers. The bounds
of a reachable list are well-formed (`ListRun.placeable`), so the
identifier is between them unless the right one is blocked: the left one a
proper prefix of it, with nothing but small positions behind. Three
inserts behind one element block the fourth (`fresh_insert_behind_third`).
-/
import CrdtRedis.Rw.ListRun
import CrdtRedis.Rwf.ListRun

namespace CrdtRedis

open Replication

variable {n : ℕ} {E M : Type}

-- ==================================================== reachable bounds

namespace ListKind

variable {K : ListKind n E} {h h' : Hash n} {me : Fin n} {ok : String → Prop}
  {L : List Placement}

/-- What the identifiers of all inserts have, and those of all records, the
records have afterwards. -/
theorem Moves.posAt_forall {P : String → Leid → Prop} (hK : K.Lawful) (hs : K.Sound h)
    (hm : K.Moves me ok h L h')
    (hL : ∀ i ∈ L, ∀ a, (i.oid ≠ "head" → a = i.oid) → ok i.oid → P a i.pos)
    (hP : ∀ a x, K.posAt h a = some x → P a x) : ∀ a x, K.posAt h' a = some x → P a x := by
  refine (hm.invariant (J := fun g => K.Sound g ∧ ∀ a x, K.posAt g a = some x → P a x)
    ?_ ?_ ?_ ⟨hs, hP⟩).2
  · intro g g' ⟨hg, hP⟩ hq
    refine ⟨hg.quiet hq, ?_⟩
    rw [hq.still.posAt]
    exact hP
  · intro g g' key addr ⟨hg, hP⟩ _ hget
    refine ⟨hg.make hK hget, ?_⟩
    rw [(hg.still_make hK hget).posAt]
    exact hP
  · intro g g' i addr ⟨hg, hP⟩ hi hok hfind hpos
    refine ⟨hg.place hK hpos, ?_⟩
    rcases hg.posAt_place hK hpos with ⟨rfl, -⟩ | ⟨-, heq⟩
    · exact hP
    · intro a x hx
      rw [heq] at hx
      by_cases ha : a = addr
      · subst ha
        rw [Function.update_self] at hx
        obtain rfl := Option.some.inj hx
        exact hL i hi a (fun hne => hg.find hne hfind) hok
      · rw [Function.update_of_ne ha] at hx
        exact hP a x hx

/-- The neighbours of a place carry identifiers of records. -/
theorem gap_posAt (h : Hash n) (w : String) :
    (∀ l ∈ (K.gap h w).1, ∃ a, K.posAt h a = some l) ∧
      ∀ l ∈ (K.gap h w).2, ∃ a, K.posAt h a = some l := by
  have hbind : ∀ (o : Option String), ∀ l ∈ o.bind (K.posAt h), ∃ a, K.posAt h a = some l := by
    intro o l hl
    obtain ⟨a, -, ha⟩ := Option.bind_eq_some_iff.mp hl
    exact ⟨a, ha⟩
  unfold gap
  split
  · exact ⟨fun l hl => ⟨_, hl⟩, hbind _⟩
  · exact ⟨(fun l hl => nomatch hl), hbind _⟩

/-- An element with an identifier has it from its record. -/
theorem posOf_posAt {oid : String} {x : Leid} (hx : K.posOf h oid = some x) :
    ∃ a, K.find h oid = some (some a) ∧ K.posAt h a = some x := by
  obtain ⟨a, ha, hpos⟩ := Option.bind_eq_some_iff.mp hx
  refine ⟨a, ?_, hpos⟩
  cases hf : K.find h oid with
  | none =>
      rw [hf] at ha
      cases ha
  | some o =>
      rw [hf] at ha
      exact congrArg some ha

/-- A hash whose places can be told by their neighbours. -/
structure Placeable (K : ListKind n E) (h : Hash n) : Prop where
  sound : K.Sound h
  headMin : K.HeadMin h
  ok : ∀ a x, K.posAt h a = some x → Leid.Ok x

theorem Placeable.gap_ok (hp : K.Placeable h) (w : String) :
    (∀ l ∈ (K.gap h w).1, Leid.Ok l) ∧ ∀ l ∈ (K.gap h w).2, Leid.Ok l := by
  obtain ⟨hleft, hright⟩ := K.gap_posAt h w
  constructor
  · intro l hl
    obtain ⟨a, ha⟩ := hleft l hl
    exact hp.ok a l ha
  · intro l hl
    obtain ⟨a, ha⟩ := hright l hl
    exact hp.ok a l ha

/-- What is accepted has a well-formed identifier. -/
theorem Placeable.accepts (hp : K.Placeable h) {w : String} {i : Placement}
    (hacc : K.Accepts me h w i) : Leid.Ok i.pos := by
  cases hacc with
  | fresh _ _ _ hpos =>
      rw [hpos]
      exact constructLeid_ok (hp.gap_ok w).1 (hp.gap_ok w).2 _
  | again _ hpos =>
      obtain ⟨a, -, ha⟩ := posOf_posAt hpos
      exact hp.ok a _ ha

end ListKind

/-- In every run, the places of every server can be told by their
neighbours. -/
theorem ListRun.placeable {K : ListKind n E} {ok : String → Prop} {op : M → ListOp}
    {k : Config n (Option (Hash n)) M} {applied : Fin n → List Placement}
    (hrun : ListRun K ok op k applied) (hK : K.Lawful)
    (hheap : ∀ a, K.heap (Hash.empty : Hash n) a = none) (r : Fin n) :
    K.Placeable ((k.site r).getD .empty) := by
  have hind := hrun.induct (J := fun _ _ h => K.Placeable h)
    (Q := fun o => ∀ i, op o.msg = .insert i → Leid.Ok i.pos) (F := fun _ => True)
    (fun _ _ => trivial) ?_ ?_ ?_
  · exact hind.1 r
  · intro r
    refine ⟨K.sound_empty hheap, K.headMin_empty hheap, ?_⟩
    intro a x hx
    rw [ListKind.posAt, hheap] at hx
    cases hx
  · intro r L L' h h' hp hm hL'
    refine ⟨hp.sound.moves hK hm, hp.headMin.moves hK hp.sound hm, ?_⟩
    refine hm.posAt_forall (P := fun _ x => Leid.Ok x) hK hp.sound ?_ hp.ok
    intro i hi _ _ _
    obtain ⟨o, -, hQ, hop⟩ := hL' i hi
    exact hQ i hop
  · intro r L h w u m hp _ hacc i hi
    exact hp.accepts (hacc i hi).1

-- ======================================================= fresh inserts

/-- The list `tname` of a server. -/
def listAt (db : Db n) (tname : String) : Hash n := (ListCommand.hashAt db tname).getD .empty

/-- Server `r` accepts the client's insert `argv` (of command `c`) of an
element whose record has no oid yet, gives it identifier `pos`, and the
effect turns its keys from `db` into `db'`. -/
structure FreshInsert (dbl : String → Option ℤ) (K : ListKind n E) (c : Cmd) (r : Fin n)
    (db : Db n) (argv : List String) (db' : Db n) (pos : Leid) : Prop where
  name : cmdOf argv = some c
  accepted : ∃ db₁ rargv, prepareCommand dbl r argv db = some (db₁, .ok rargv) ∧
    effectCommand dbl r rargv db₁ = some db' ∧ leidAt 9 rargv = some pos
  new : ∀ a e, K.find (listAt db (argv.getD 1 "")) (argv.getD 3 "") = some (some a) →
    K.heap (listAt db (argv.getD 1 "")) a = some e → e.oid = none

/-- The identifier is above the predecessor `pre` of list `h` and below
what follows it, and in `h'` the element follows the predecessor. -/
structure PlacedBehind (K : ListKind n E) (h h' : Hash n) (pre oid : String) (pos : Leid) :
    Prop where
  between : Between (K.gap h pre).1 (K.gap h pre).2 pos
  follows : K.Follows h h' pre oid

/-- A fresh insert is placed behind its predecessor exactly if there is
room. -/
theorem ListKind.Placeable.placed_iff {K : ListKind n E} (hK : K.Lawful) {h h' : Hash n}
    {r : Fin n} {ok : String → Prop} {w : String} {i : Placement} (hp : K.Placeable h)
    (hacc : K.Accepts r h w i) (hm : K.Moves r ok h [i] h')
    (hnew : ∀ a e, K.find h i.oid = some (some a) → K.heap h a = some e → e.oid = none) :
    PlacedBehind K h h' w i.oid i.pos ↔ Room (K.gap h w).1 (K.gap h w).2 := by
  cases hacc with
  | again _ hpos =>
      obtain ⟨a, hfind, ha⟩ := posOf_posAt hpos
      obtain ⟨e, he, hx⟩ := Option.bind_eq_some_iff.mp ha
      have hsome := (hp.sound.posId a e he).mp (by rw [hx]; rfl)
      rw [hnew a e hfind he] at hsome
      cases hsome
  | fresh hnone _ hword hpos =>
      have hiff : Between (K.gap h w).1 (K.gap h w).2 i.pos ↔
          Room (K.gap h w).1 (K.gap h w).2 := by
        rw [hpos]
        exact constructLeid_between_iff (hp.gap_ok w).2 (h.now r)
      refine ⟨fun hplaced => hiff.mp hplaced.between, fun hroom => ?_⟩
      have hbetween := hiff.mpr hroom
      exact ⟨hbetween, K.follows_of_between hK hp.sound hp.headMin hnone hword hbetween hm⟩

-- ======================================================== the two lists

/-- An accepted vector and its effect, read at its list. -/
theorem ListType.issue_of_commands {T : ListType n M} {dbl : String → Option ℤ} {r : Fin n}
    {db db₁ db₂ : Db n} {argv : List String} {rargv : List (Arg n)} {c : Cmd}
    {lc : ListCommand n} (hc : cmdOf argv = some c) (hlc : T.command c = some lc)
    (hp : prepareCommand dbl r argv db = some (db₁, .ok rargv))
    (he : effectCommand dbl r rargv db₁ = some db₂) :
    lc.Passes dbl c argv ∧ ∃ ho m ho', T.decode c rargv = some m ∧
      T.service.prepare r argv (ListCommand.hashAt db (argv.getD 1 "")) = some (ho, some m) ∧
      T.service.effect r m ho = some ho' ∧
      listAt db₂ (argv.getD 1 "") = ho'.getD .empty := by
  rcases T.prepareCommand_list hc hlc hp with ⟨-, reply, hcon⟩ | ⟨hpass, ho, hprep, rfl⟩
  · cases hcon
  obtain ⟨m, hmsg, hm, h1⟩ := T.member_of_accepts hpass hlc hprep
  obtain ⟨t, m', h, ht, hm', heff, rfl⟩ := T.effectCommand_list hmsg hlc he
  rw [h1] at ht
  obtain rfl := Option.some.inj ht
  obtain rfl := Option.some.inj (hm.symm.trans hm')
  rw [ListType.hashAt_update_self] at heff
  refine ⟨hpass, ho, m, some h, hm, ?_, ?_, ?_⟩
  · simp only [ListType.service, hc, hlc, Option.bind_some, hprep, Option.map_some, hm]
  · simp only [ListType.service, heff, Option.map_some]
  · unfold listAt
    rw [show some (Obj.hash h) = (some h).map Obj.hash from rfl, ListType.hashAt_update_self]

/-- A list is read off a network that issues commands of its family. -/
theorem ListType.hallowed {T : ListType n M} {cmds : List Cmd}
    (hcmds : ∀ c ∈ cmds, (T.command c).isSome) {allowed : List String → Prop}
    (hall : ∀ argv, allowed argv → Issues cmds argv) (argv : List String) (h : allowed argv) :
    ∃ c lc, cmdOf argv = some c ∧ T.command c = some lc := by
  obtain ⟨c, hc, hname⟩ := hall argv h
  obtain ⟨lc, hlc⟩ := Option.isSome_iff_exists.mp (hcmds c hc)
  exact ⟨c, lc, hname, hlc⟩

/-- The commands on RWF lists. -/
def rwflCmds : List Cmd := [.rwflinsert, .rwflupdate, .rwflrem]

theorem rl_commands : ∀ c ∈ rlCmds, ((rlType (n := n)).command c).isSome := by
  simp [rlCmds, rlType, rlCommand]

theorem rwfl_commands : ∀ c ∈ rwflCmds, ((rwflType (n := n)).command c).isSome := by
  simp [rwflCmds, rwflType, rwflCommand]

/-- What the objects of a family do with the vectors they accept: `c` is
the command that inserts. -/
structure ListType.Places (T : ListType n M) (K : ListKind n E) (op : M → ListOp) (c : Cmd)
    (dbl : String → Option ℤ) (allowed : List String → Prop) : Prop where
  insertsBy : T.InsertsBy op c
  named : ∀ {argv}, cmdOf argv = some c → listOid argv = argv.getD 3 ""
  prepared : ∀ {k r argv ho m},
    Reachable T.service (.once fun argv => allowed argv ∧ T.Submits dbl argv) k →
    T.Submits dbl argv → T.service.prepare r argv (k.site r) = some (ho, some m) →
    K.Placeable ((k.site r).getD .empty) ∧ (op m).oid = listOid argv ∧
      ∀ i, op m = .insert i → K.Accepts r ((k.site r).getD .empty) (argv.getD 2 "") i
  moves : ∀ {k r argv ho ho' m},
    Reachable T.service (.once fun argv => allowed argv ∧ T.Submits dbl argv) k →
    allowed argv → T.Submits dbl argv → T.service.prepare r argv (k.site r) = some (ho, some m) →
    T.service.effect r m ho = some ho' →
    K.Moves r (fun _ => True) ((k.site r).getD .empty) (op m).placements (ho'.getD .empty)

/-- What a remove-wins list's own effect writes. -/
theorem rl_issue_moves {dbl : String → Option ℤ} {allowed : List String → Prop}
    {ok : String → Prop} {k : Config n (Option (Hash n)) (RlMsg n)} {r : Fin n}
    {argv : List String} {ho ho' : Option (Hash n)} {m : RlMsg n}
    (hok : ∀ argv, allowed argv → ok (listOid argv))
    (hk : Reachable rlType.service
      (.once fun argv => allowed argv ∧ (rlType (n := n)).Submits dbl argv) k)
    (hs : rleKind.Sound ((k.site r).getD .empty))
    (hall : allowed argv ∧ (rlType (n := n)).Submits dbl argv)
    (hp : rlType.service.prepare r argv (k.site r) = some (ho, some m))
    (he : rlType.service.effect r m ho = some ho') :
    rleKind.Moves r ok ((k.site r).getD .empty) m.cmd.op.placements (ho'.getD .empty) := by
  have hC := rl_causal (n := n) fun argv => allowed argv ∧ (rlType (n := n)).Submits dbl argv
  obtain ⟨hprep, -, hbroadcast⟩ := rl_prepared ok hall.2 hs (hok argv hall.1) hp
  have hokm : ok m.cmd.op.oid := by
    rw [(hbroadcast m rfl).1]
    exact hok argv hall.1
  have happlies := hC.applies_issue hk hall hp
  rw [← hC.prepare hall hp] at happlies
  obtain ⟨h', hrec, rfl⟩ := Option.map_eq_some_iff.mp he
  rw [show m.cmd = rlCmdNew m.type m.rargv m.t from rfl,
    ← (Rl.receive_site m.last rfl hrec).2.2] at happlies
  have hend := Rl.receive_ind (L := [])
    (J := fun L g => rleKind.Moves r ok ((k.site r).getD .empty)
      (L.flatMap fun cmd : RlCmd n => cmd.op.placements) g) hprep hrec
    (fun hg hc => .quiet hg hc.quiet) ?_
  · rw [happlies, List.nil_append, List.flatMap_singleton] at hend
    exact hend
  · intro L g g' cmd hg hmem happ
    rw [happlies] at hmem
    rw [List.mem_singleton.mp hmem] at happ ⊢
    rw [List.flatMap_append, List.flatMap_singleton]
    exact hg.trans (Rl.applyCmd_moves hokm happ)

theorem rl_placeable {dbl : String → Option ℤ} {allowed : List String → Prop}
    {k : Config n (Option (Hash n)) (RlMsg n)}
    (hk : Reachable rlType.service
      (.once fun argv => allowed argv ∧ (rlType (n := n)).Submits dbl argv) k) (r : Fin n) :
    rleKind.Placeable ((k.site r).getD .empty) := by
  have hrun : ListRun rleKind (fun _ => True) (fun m : RlMsg n => m.cmd.op) k _ :=
    rl_run (fun _ _ => trivial) hk
  exact hrun.placeable rleKind_lawful (fun _ => rfl) r

theorem rl_places (dbl : String → Option ℤ) (allowed : List String → Prop) :
    (rlType (n := n)).Places rleKind (fun m => m.cmd.op) .rlinsert dbl allowed where
  insertsBy := rl_insertsBy
  named := fun hname => by simp only [listOid, hname]
  prepared := by
    intro k r argv ho m hk hsub hp
    have hplace := rl_placeable hk r
    exact ⟨hplace, (rl_prepared (fun _ => True) hsub hplace.sound trivial hp).issue m rfl⟩
  moves := by
    intro k r argv ho ho' m hk hall hsub hp he
    exact rl_issue_moves (fun _ _ => trivial) hk (rl_placeable hk r).sound ⟨hall, hsub⟩ hp he

theorem rwfl_places (dbl : String → Option ℤ) (allowed : List String → Prop) :
    (rwflType (n := n)).Places rwfleKind (fun m => m.op) .rwflinsert dbl allowed where
  insertsBy := rwfl_insertsBy
  named := fun hname => by simp only [listOid, hname]
  prepared := by
    intro k r argv ho m hk hsub hp
    have hrun : ListRun rwfleKind (fun _ => True) (fun m : RwflOp n => m.op) k _ :=
      rwfl_run (fun _ _ => trivial) hk
    have hplace := hrun.placeable rwfleKind_lawful (fun _ => rfl) r
    have hissue := (rwfl_prepared (fun _ => True) hsub trivial hp).issue m rfl
    exact ⟨hplace, hissue.accepts hplace.sound⟩
  moves := by
    intro k r argv ho ho' m hk _ hsub hp he
    obtain ⟨h', happ, rfl⟩ := Option.map_eq_some_iff.mp he
    have hmoves := (rwfl_prepared (fun _ => True) hsub trivial hp).moves
    exact hmoves.trans (RwflOp.apply_moves trivial happ)

/-- No insert of `head` is broadcast, if none is issued. -/
theorem ListType.Places.sent_name {T : ListType n M} {K : ListKind n E} {op : M → ListOp}
    {c : Cmd} {dbl : String → Option ℤ} {allowed : List String → Prop}
    (hT : T.Places K op c dbl allowed)
    (hall : ∀ argv, allowed argv → cmdOf argv = some c → listOid argv ≠ "head")
    {k : Config n (Option (Hash n)) M}
    (hk : Reachable T.service (.once fun argv => allowed argv ∧ T.Submits dbl argv) k) :
    ∀ o ∈ k.sent, ∀ i, op o.msg = .insert i → i.oid ≠ "head" := by
  refine hk.sent_forall (Q := fun o => ∀ i, op o.msg = .insert i → i.oid ≠ "head") ?_
  intro k r argv s m u hr _ hargv hp i hi
  obtain ⟨-, hoid, -⟩ := hT.prepared hr hargv.2 hp
  rw [hi] at hoid
  rw [show i.oid = listOid argv from hoid]
  exact hall argv hargv.1 (ListType.InsertsBy.issue hT.insertsBy hp hi)

/-- A fresh insert: what was accepted, and the writes of its effect. -/
theorem ListType.Places.fresh_insert {T : ListType n M} {K : ListKind n E} {op : M → ListOp}
    {c : Cmd} {dbl : String → Option ℤ} {cmds : List Cmd} (hT : T.Places K op c dbl (Issues cmds))
    (hcmds : ∀ c ∈ cmds, (T.command c).isSome) (hc : c ∈ cmds) {k : Net n}
    (hk : Reachable (crdtService dbl) (.once (Issues cmds)) k) {r : Fin n}
    {argv : List String} {db : Db n} {pos : Leid}
    (hins : FreshInsert dbl K c r (k.site r) argv db pos) :
    ∃ i, i.oid = argv.getD 3 "" ∧ i.pos = pos ∧
      K.Placeable (listAt (k.site r) (argv.getD 1 "")) ∧
      K.Accepts r (listAt (k.site r) (argv.getD 1 "")) (argv.getD 2 "") i ∧
      K.Moves r (fun _ => True) (listAt (k.site r) (argv.getD 1 "")) [i]
        (listAt db (argv.getD 1 "")) := by
  obtain ⟨db₁, rargv, hp, he, hpos⟩ := hins.accepted
  obtain ⟨lc, hlc⟩ := Option.isSome_iff_exists.mp (hcmds c hc)
  obtain ⟨hpass, ho, m, ho', hdec, hprep, heff, hdb⟩ :=
    ListType.issue_of_commands hins.name hlc hp he
  have hat := ListType.reachable_once (ListType.hallowed hcmds fun _ h => h) hk (argv.getD 1 "")
  have hsub : T.Submits dbl argv := ⟨c, lc, hlc, hpass⟩
  obtain ⟨hplace, hoid, hacc⟩ := hT.prepared hat hsub hprep
  have hmoves := hT.moves hat ⟨c, hc, hins.name⟩ hsub hprep heff
  -- the identifier is the one the broadcast carries
  obtain ⟨i, hop, hipos⟩ : ∃ i, op m = .insert i ∧ i.pos = pos :=
    ⟨_, (hT.insertsBy hdec).mpr ⟨rfl, rfl⟩, by rw [Placement.ofVector, hpos]; rfl⟩
  rw [hop] at hoid hmoves
  refine ⟨i, (hT.named hins.name).symm ▸ hoid, hipos, hplace, hacc i hop, ?_⟩
  rw [hdb]
  exact hmoves

/-- A fresh insert comes right behind its predecessor exactly if there is
room between the predecessor and what follows it, in both lists. -/
theorem fresh_insert_behind_iff (dbl : String → Option ℤ) {k k' : Net n}
    (hk : Reachable (crdtService dbl) (.once (Issues rlCmds)) k)
    (hk' : Reachable (crdtService dbl) (.once (Issues rwflCmds)) k') :
    (∀ r argv db pos, FreshInsert dbl rleKind .rlinsert r (k.site r) argv db pos →
      let h := listAt (k.site r) (argv.getD 1 "")
      let pre := argv.getD 2 ""
      (PlacedBehind rleKind h (listAt db (argv.getD 1 "")) pre (argv.getD 3 "") pos ↔
        Room (rleKind.gap h pre).1 (rleKind.gap h pre).2)) ∧
    ∀ r argv db pos, FreshInsert dbl rwfleKind .rwflinsert r (k'.site r) argv db pos →
      let h := listAt (k'.site r) (argv.getD 1 "")
      let pre := argv.getD 2 ""
      (PlacedBehind rwfleKind h (listAt db (argv.getD 1 "")) pre (argv.getD 3 "") pos ↔
        Room (rwfleKind.gap h pre).1 (rwfleKind.gap h pre).2) := by
  constructor
  · intro r argv db pos hins
    obtain ⟨i, hoid, rfl, hplace, hacc, hmoves⟩ :=
      (rl_places dbl _).fresh_insert rl_commands (by decide) hk hins
    have hnew := hins.new
    rw [← hoid] at hnew ⊢
    exact hplace.placed_iff rleKind_lawful hacc hmoves hnew
  · intro r argv db pos hins
    obtain ⟨i, hoid, rfl, hplace, hacc, hmoves⟩ :=
      (rwfl_places dbl _).fresh_insert rwfl_commands (by decide) hk' hins
    have hnew := hins.new
    rw [← hoid] at hnew ⊢
    exact hplace.placed_iff rwfleKind_lawful hacc hmoves hnew

/-- Element `a`, and one more behind it. -/
def oneBehind (c : String) : List (Act 1 (List String)) :=
  [.submit 0 [c, "l", "null", "a", "text", "0", "0", "0", "0"],
    .submit 0 [c, "l", "a", "b", "text", "0", "0", "0", "0"]]

/-- The second insert behind `a` finds room, in both lists. -/
theorem fresh_insert_behind_second : ∃ (k k' : Net 1) (db db' : Db 1),
    Reachable (crdtService getLongLongFromObject) (.once (Issues rlCmds)) k ∧
    Reachable (crdtService getLongLongFromObject) (.once (Issues rwflCmds)) k' ∧
    PlacedBehind rleKind (listAt (k.site 0) "l") (listAt db "l") "a" "c"
      [⟨1, 0, 0⟩, ⟨1, 0, 2⟩] ∧
    PlacedBehind rwfleKind (listAt (k'.site 0) "l") (listAt db' "l") "a" "c"
      [⟨1, 0, 0⟩, ⟨1, 0, 2⟩] := by
  obtain ⟨k, hrun, hnew, db₁, rargv, db, hp, he, hpos, hgap⟩ : ∃ k,
      (crdtService getLongLongFromObject).run (crdtService getLongLongFromObject).start
        (oneBehind "rlinsert") = some k ∧
      rleKind.find (listAt (k.site 0) "l") "c" = some none ∧
      ∃ db₁ rargv db, prepareCommand getLongLongFromObject 0
          ["rlinsert", "l", "a", "c", "text", "0", "0", "0", "0"] (k.site 0)
          = some (db₁, .ok rargv) ∧
        effectCommand getLongLongFromObject 0 rargv db₁ = some db ∧
        leidAt 9 rargv = some [⟨1, 0, 0⟩, ⟨1, 0, 2⟩] ∧
        rleKind.gap (listAt (k.site 0) "l") "a" = (some [⟨1, 0, 0⟩], some [⟨2, 0, 1⟩]) :=
    ⟨_, rfl, by decide, _, _, _, rfl, rfl, by decide, by decide⟩
  obtain ⟨k', hrun', hnew', db₁', rargv', db', hp', he', hpos', hgap'⟩ : ∃ k,
      (crdtService getLongLongFromObject).run (crdtService getLongLongFromObject).start
        (oneBehind "rwflinsert") = some k ∧
      rwfleKind.find (listAt (k.site 0) "l") "c" = some none ∧
      ∃ db₁ rargv db, prepareCommand getLongLongFromObject 0
          ["rwflinsert", "l", "a", "c", "text", "0", "0", "0", "0"] (k.site 0)
          = some (db₁, .ok rargv) ∧
        effectCommand getLongLongFromObject 0 rargv db₁ = some db ∧
        leidAt 9 rargv = some [⟨1, 0, 0⟩, ⟨1, 0, 2⟩] ∧
        rwfleKind.gap (listAt (k.site 0) "l") "a" = (some [⟨1, 0, 0⟩], some [⟨2, 0, 1⟩]) :=
    ⟨_, rfl, by decide, _, _, _, rfl, rfl, by decide, by decide⟩
  have hk : Reachable (crdtService getLongLongFromObject) (.once (Issues rlCmds)) k :=
    Service.run_reachable (by decide) hrun
  have hk' : Reachable (crdtService getLongLongFromObject) (.once (Issues rwflCmds)) k' :=
    Service.run_reachable (by decide) hrun'
  have hroom : Room (some [⟨1, 0, 0⟩]) (some [⟨2, 0, 1⟩]) := by
    intro l hl m hm
    obtain rfl := Option.some.inj hl
    obtain rfl := Option.some.inj hm
    refine ⟨leidCmp_neg.mp (by decide), ?_⟩
    intro ⟨rest, _, heq, _⟩
    simp at heq
  obtain ⟨hrl, hrwfl⟩ := fresh_insert_behind_iff getLongLongFromObject hk hk'
  refine ⟨k, k', db, db', hk, hk', ?_, ?_⟩
  · refine (hrl 0 ["rlinsert", "l", "a", "c", "text", "0", "0", "0", "0"] db _
      ⟨by decide, ⟨db₁, rargv, hp, he, hpos⟩, fun a e hfind _ => ?_⟩).mpr ?_
    · rw [show rleKind.find (listAt (k.site 0) "l") "c" = some (some a) from hfind] at hnew
      cases hnew
    · show Room (rleKind.gap (listAt (k.site 0) "l") "a").1
        (rleKind.gap (listAt (k.site 0) "l") "a").2
      rw [hgap]
      exact hroom
  · refine (hrwfl 0 ["rwflinsert", "l", "a", "c", "text", "0", "0", "0", "0"] db' _
      ⟨by decide, ⟨db₁', rargv', hp', he', hpos'⟩, fun a e hfind _ => ?_⟩).mpr ?_
    · rw [show rwfleKind.find (listAt (k'.site 0) "l") "c" = some (some a) from hfind] at hnew'
      cases hnew'
    · show Room (rwfleKind.gap (listAt (k'.site 0) "l") "a").1
        (rwfleKind.gap (listAt (k'.site 0) "l") "a").2
      rw [hgap']
      exact hroom

/-- The third insert behind `a` ends up behind the second. -/
theorem fresh_insert_behind_third : ∃ (k : Net 1) (argv : List String) (db : Db 1) (pos : Leid),
    Reachable (crdtService getLongLongFromObject) (.once (Issues rlCmds)) k ∧
    FreshInsert getLongLongFromObject rleKind .rlinsert 0 (k.site 0) argv db pos ∧
    ¬ PlacedBehind rleKind (listAt (k.site 0) (argv.getD 1 "")) (listAt db (argv.getD 1 ""))
      (argv.getD 2 "") (argv.getD 3 "") pos := by
  obtain ⟨k, hrun, hnew, db₁, rargv, db, hp, he, hpos, hgap⟩ : ∃ k,
      (crdtService getLongLongFromObject).run (crdtService getLongLongFromObject).start
        (oneBehind "rlinsert" ++
          [.submit 0 ["rlinsert", "l", "a", "c", "text", "0", "0", "0", "0"]]) = some k ∧
      rleKind.find (listAt (k.site 0) "l") "d" = some none ∧
      ∃ db₁ rargv db, prepareCommand getLongLongFromObject 0
          ["rlinsert", "l", "a", "d", "text", "0", "0", "0", "0"] (k.site 0)
          = some (db₁, .ok rargv) ∧
        effectCommand getLongLongFromObject 0 rargv db₁ = some db ∧
        leidAt 9 rargv = some [⟨1, 0, 0⟩, ⟨1, 0, 2⟩, ⟨1, 0, 3⟩] ∧
        (rleKind.gap (listAt (k.site 0) "l") "a").2 = some [⟨1, 0, 0⟩, ⟨1, 0, 2⟩] :=
    ⟨_, rfl, by decide, _, _, _, rfl, rfl, by decide, by decide⟩
  refine ⟨k, ["rlinsert", "l", "a", "d", "text", "0", "0", "0", "0"], db, _,
    Service.run_reachable (by decide) hrun, ⟨by decide, ⟨db₁, rargv, hp, he, hpos⟩, ?_⟩, ?_⟩
  · intro a e hfind _
    rw [show rleKind.find (listAt (k.site 0) "l") "d" = some (some a) from hfind] at hnew
    cases hnew
  · intro hplaced
    have hlt := hplaced.between.right _ hgap
    rw [← leidCmp_neg] at hlt
    exact absurd hlt (by decide)

end CrdtRedis
