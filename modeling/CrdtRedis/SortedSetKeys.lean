/-
Servers that keep their sorted sets as Redis does.

`Keys` is a database together with the objects of its sorted sets: what
`Db` has as a map is a ziplist or a skip list with its dictionary. The
objects are moved by the calls alone; the map of `Db` says what they are
meant to be (`Backed`). Where a score comes from storage that was never
written nothing is said about the number the object has, and if that
storage was a NaN, which `zsetAdd` refuses, there may be none.

`keysService` are the servers of `crdtService` with these objects; call
number `j` of server `r` finds `env r j`, the settings, the numbers drawn
and the content of unwritten storage. Runs of the two go both ways
(`keysService_carries`): every call on an object has an outcome.
-/
import CrdtRedis.Server
import CrdtRedis.Local
import CrdtRedis.SortedSetRun
import CrdtRedis.Replication.Carry

namespace CrdtRedis

open Replication

variable {n : ℕ}

-- ======================================================== the objects

/-- A database with the objects of its sorted sets; `calls` counts the
calls made on them. -/
structure Keys (n : ℕ) where
  db : Db n
  objs : String → Option (ZsetObj ℤ)
  calls : ℕ

/-- What the calls of a server find, in order, and the content of storage
that was never written; `none` is a NaN. -/
abbrev CallEnv := ℕ → ZsetEnv × Option ℤ

/-- No unwritten storage is a NaN. -/
def CallEnv.Numeric (env : CallEnv) : Prop := ∀ j, (env j).2 ≠ none

/-- The call on the object. -/
def ZCall.op (content : Option ℤ) (key : String) : ZCall → ZsetOp ℤ
  | .add score => .add (score.or content) key .none
  | .del => .del key

namespace Keys

/-- `zsetCall`, on the object as well. -/
def zsetCall (env : CallEnv) (s : Keys n) (tname key : String) (c : ZCall) : Option (Keys n) :=
  (CrdtRedis.zsetCall s.db tname key c).bind fun db =>
    ((c.op (env s.calls).2 key).exec (env s.calls).1 (s.objs tname)).map fun p =>
      ⟨db, Function.update s.objs tname (some p.1), s.calls + 1⟩

def zsetCalls (env : CallEnv) (s : Keys n) (tname key : String) : List ZCall → Option (Keys n)
  | [] => some s
  | c :: cs => (s.zsetCall env tname key c).bind fun s => zsetCalls env s tname key cs

end Keys

/-- `runEffect`, on the objects as well. -/
def ElemCommand.runEffectKeys {R : Type} (cmd : ElemCommand n R) (T : Table n R)
    (dbl : String → Option ℤ) (me : Fin n) (rargv : List (Arg n)) (env : CallEnv)
    (s : Keys n) : Option (Keys n) :=
  (strAt 1 rargv).bind fun tname => (strAt 2 rargv).bind fun key =>
    (cmd.effect dbl rargv).bind fun f =>
      (T.get me s.db tname key true).bind fun p =>
        match p.2 with
        | none => none
        | some (h, e) =>
            Keys.zsetCalls env { s with db := T.store p.1 tname key h (f e).1 } tname key (f e).2

def Proc.effectKeys (dbl : String → Option ℤ) (me : Fin n) (env : CallEnv) (p : Proc n)
    (rargv : List (Arg n)) (s : Keys n) : Option (Keys n) :=
  match p with
  | .elem T cmd => cmd.runEffectKeys T dbl me rargv env s
  | .list cmd => (cmd.runEffect me rargv s.db).map fun db => { s with db := db }

/-- `n` servers with their objects. -/
def keysService (env : Fin n → CallEnv) (dbl : String → Option ℤ) :
    Service n (Keys n) (List String) (List (Arg n)) where
  init := fun _ => ⟨fun _ => none, fun _ => none, 0⟩
  prepare := fun me argv s =>
    ((crdtService dbl).prepare me argv s.db).map fun p => ({ s with db := p.1 }, p.2)
  effect := fun me rargv s =>
    (cmdOfMsg rargv).bind fun cmd => cmd.proc.effectKeys dbl me (env me) rargv s

-- ================================================== what they stand for

/-- The map under a key that holds a sorted set. -/
def zsetAt (db : Db n) (t : String) : Option (String → Option Score) :=
  match db t with
  | some (.zset m) => some m
  | _ => none

/-- `m'` has the scores of `m`; where one is not known it has some number
or, unless all unwritten storage is `num`, nothing. -/
structure Fills (num : Prop) (m : String → Option Score) (m' : String → Option ℤ) : Prop where
  missing : ∀ {e}, m e = none → m' e = none
  known : ∀ {e x}, m e = some (some x) → m' e = some x
  there : num → ∀ {e}, m e ≠ none → m' e ≠ none

/-- The object under a key, and the map it should be. -/
inductive Backs (num : Prop) : Option (String → Option Score) → Option (ZsetObj ℤ) → Prop
  | none : Backs num none none
  | some {m : String → Option Score} {m' : String → Option ℤ} {o : ZsetObj ℤ}
      (hfill : Fills num m m') (hshows : o.Shows False m') : Backs num (some m) (some o)

/-- Every sorted set has its object. -/
def Keys.Backed (num : Prop) (s : Keys n) : Prop := ∀ t, Backs num (zsetAt s.db t) (s.objs t)

variable {num : Prop}

theorem fills_empty : Fills num (fun _ => none) fun _ => none :=
  ⟨fun _ => rfl, fun hx => absurd hx.symm (Option.some_ne_none _),
    fun _ _ hne => absurd rfl hne⟩

/-- An entry is set in both maps. -/
theorem Fills.put {m : String → Option Score} {m' : String → Option ℤ} (h : Fills num m m')
    (key : String) {y : Option Score} {y' : Option ℤ} (hmissing : y = none → y' = none)
    (hknown : ∀ x, y = some (some x) → y' = some x) (hthere : num → y ≠ none → y' ≠ none) :
    Fills num (Function.update m key y) (Function.update m' key y') := by
  constructor
  · intro e he
    by_cases hkey : e = key
    · subst hkey
      rw [Function.update_self] at he ⊢
      exact hmissing he
    · rw [Function.update_of_ne hkey] at he ⊢
      exact h.missing he
  · intro e x he
    by_cases hkey : e = key
    · subst hkey
      rw [Function.update_self] at he ⊢
      exact hknown x he
    · rw [Function.update_of_ne hkey] at he ⊢
      exact h.known he
  · intro hnum e he
    by_cases hkey : e = key
    · subst hkey
      rw [Function.update_self] at he ⊢
      exact hthere hnum he
    · rw [Function.update_of_ne hkey] at he ⊢
      exact h.there hnum he

/-- A call with a number, or on an element that goes. -/
theorem ZCall.op_onMap {content : Option ℤ} {key : String} {c : ZCall}
    (hc : c ≠ .add none ∨ content ≠ none) (m' : String → Option ℤ) :
    ((c.op content key).onMap m').1
      = Function.update m' key ((c.run none).bind fun x => x.or content) := by
  cases c with
  | del => rfl
  | add score =>
      obtain ⟨x, hx⟩ : ∃ x, score.or content = some x := by
        cases score with
        | some x => exact ⟨x, rfl⟩
        | none =>
            obtain ⟨x, rfl⟩ :=
              Option.ne_none_iff_exists'.mp (hc.resolve_left fun hne => hne rfl)
            exact ⟨x, rfl⟩
      simp only [ZCall.op, ZCall.run, Option.bind_some, hx, ZsetOp.onMap, ZsetObj.mapAdd]
      cases m' key <;> rfl

theorem Fills.update {m : String → Option Score} {m' : String → Option ℤ} (h : Fills num m m')
    {content : Option ℤ} (hnum : num → content ≠ none) (key : String) (c : ZCall) :
    Fills num (Function.update m key (c.run (m key))) ((c.op content key).onMap m').1 := by
  by_cases hc : c ≠ .add none ∨ content ≠ none
  · rw [ZCall.op_onMap hc]
    refine h.put key ?_ ?_ ?_
    · cases c with
      | add score => exact fun hrun => absurd hrun (Option.some_ne_none _)
      | del => exact fun _ => rfl
    · intro x hx
      cases c with
      | add score =>
          obtain rfl : score = some x := Option.some.inj hx
          rfl
      | del => cases hx
    · intro hall hrun
      cases c with
      | add score =>
          cases score with
          | some x => exact Option.some_ne_none x
          | none => exact hnum hall
      | del => exact absurd rfl hrun
  · -- a NaN is refused, and the map has no score to show
    obtain ⟨rfl, rfl⟩ : c = .add none ∧ content = none := by
      simpa only [not_or, not_not] using hc
    have hput : Fills num (Function.update m key (some none)) (Function.update m' key (m' key)) :=
      h.put key (fun hcon => absurd hcon (Option.some_ne_none _))
        (fun x hx => absurd (Option.some.inj hx).symm (Option.some_ne_none x))
        (fun hall => absurd rfl (hnum hall))
    rwa [Function.update_eq_self] at hput

-- ============================================================ the calls

namespace Keys

variable {s s' : Keys n} {tname key : String}

/-- A step on the objects does what the step on the maps does. -/
structure Follows (num : Prop) (d : Option (Db n)) (o : Option (Keys n)) : Prop where
  db : d = o.map Keys.db
  backed : ∀ s, o = some s → s.Backed num

theorem Follows.fails : Follows (n := n) num none none := by
  refine ⟨rfl, fun s hs => ?_⟩
  cases hs

theorem Follows.moves (h : s.Backed num) : Follows num (some s.db) (some s) :=
  ⟨rfl, fun _ hs => Option.some.inj hs ▸ h⟩

theorem Follows.bind {B : Type} {o : Option B} {f : B → Option (Db n)} {g : B → Option (Keys n)}
    (h : ∀ b, o = some b → Follows num (f b) (g b)) : Follows num (o.bind f) (o.bind g) := by
  cases o with
  | none => exact .fails
  | some b => exact h b rfl

/-- Steps one after the other. -/
theorem Follows.then {d : Option (Db n)} {o : Option (Keys n)} {f : Db n → Option (Db n)}
    {g : Keys n → Option (Keys n)} (h : Follows num d o)
    (hfg : ∀ s : Keys n, s.Backed num → Follows num (f s.db) (g s)) :
    Follows num (d.bind f) (o.bind g) := by
  rw [h.db]
  cases o with
  | none => exact .fails
  | some s => exact hfg s (h.backed s rfl)

/-- One call does to the object what it does to the map. -/
theorem zsetCall_spec {env : CallEnv} (hnum : num → env.Numeric) (h : s.Backed num)
    (tname key : String) (c : ZCall) :
    Follows num (CrdtRedis.zsetCall s.db tname key c) (s.zsetCall env tname key c) := by
  -- the map and the object, of a key that exists or not
  have hmove : ∀ {m : String → Option Score} {m' : String → Option ℤ}, Fills num m m' →
      ZsetOp.Shows False m' (s.objs tname) → ∀ db,
      CrdtRedis.zsetCall s.db tname key c = some db →
      db = Function.update s.db tname (some (.zset (Function.update m key (c.run (m key))))) →
      Follows num (CrdtRedis.zsetCall s.db tname key c) (s.zsetCall env tname key c) := by
    intro m m' hfill hshows db hdb hto
    obtain ⟨o, ho, hshows'⟩ :=
      ZsetOp.exec_spec hshows (env s.calls).1 (c.op (env s.calls).2 key) False.elim
    have hcall : s.zsetCall env tname key c
        = some ⟨db, Function.update s.objs tname (some o), s.calls + 1⟩ := by
      simp only [Keys.zsetCall, hdb, ho, Option.bind_some, Option.map_some]
    rw [hdb, hcall]
    refine Follows.moves (s := ⟨db, _, _⟩) fun t => ?_
    by_cases ht : t = tname
    · subst ht
      simp only [zsetAt, hto, Function.update_self]
      exact .some (hfill.update (fun hall => hnum hall s.calls) key c) hshows'
    · simp only [zsetAt, hto, Function.update_of_ne ht]
      exact h t
  have hkey := h tname
  unfold zsetAt at hkey
  cases hobj : s.db tname with
  | none =>
      rw [hobj] at hkey
      refine hmove fills_empty ?_ _ (by simp only [CrdtRedis.zsetCall, hobj]) rfl
      cases hobjs : s.objs tname with
      | none => exact ZsetOp.shows_none False
      | some o => rw [hobjs] at hkey; cases hkey
  | some obj =>
      cases obj with
      | hash h =>
          have hfail : CrdtRedis.zsetCall s.db tname key c = none := by
            simp only [CrdtRedis.zsetCall, hobj]
          rw [Keys.zsetCall, hfail]
          exact .fails
      | zset m =>
          rw [hobj] at hkey
          cases hobjs : s.objs tname with
          | none => rw [hobjs] at hkey; cases hkey
          | some o =>
              rw [hobjs] at hkey
              cases hkey with
              | some hfill hshows =>
                  exact hmove hfill (hobjs ▸ hshows) _ (by simp only [CrdtRedis.zsetCall, hobj]) rfl

theorem zsetCalls_spec {env : CallEnv} (hnum : num → env.Numeric) (h : s.Backed num)
    (tname key : String) (cs : List ZCall) :
    Follows num (CrdtRedis.zsetCalls s.db tname key cs) (s.zsetCalls env tname key cs) := by
  induction cs generalizing s with
  | nil => exact .moves h
  | cons c cs ih => exact (zsetCall_spec hnum h tname key c).then fun s hs => ih hs

-- ==================================================== what keeps the maps

/-- Objects depend on the maps only. -/
theorem Backed.congr (h : s.Backed num) {db : Db n} (hdb : zsetAt db = zsetAt s.db) :
    ({ s with db := db } : Keys n).Backed num := by
  intro t
  rw [show zsetAt db t = zsetAt s.db t from congrFun hdb t]
  exact h t

end Keys

section Frame

variable {R : Type} {T : Table n R} {cmd : ElemCommand n R} {lcmd : ListCommand n}
  {dbl : String → Option ℤ} {me : Fin n} {db db' : Db n} {tname key : String}

/-- A key that holds no sorted set gets something else that is none. -/
theorem zsetAt_update (hno : zsetAt db key = none) {o : Option (Obj n)}
    (ho : ∀ m, o ≠ some (.zset m)) : zsetAt (Function.update db key o) = zsetAt db := by
  funext t
  by_cases ht : t = key
  · subst ht
    rw [hno]
    unfold zsetAt
    rw [Function.update_self]
    cases o with
    | none => rfl
    | some obj =>
        cases obj with
        | hash _ => rfl
        | zset m => exact absurd rfl (ho m)
  · unfold zsetAt
    rw [Function.update_of_ne ht]

theorem zsetAt_eq_none (hno : ∀ m, db key ≠ some (.zset m)) : zsetAt db key = none := by
  unfold zsetAt
  split
  · next m hm => exact absurd hm (hno m)
  · rfl

theorem zsetAt_hash {h : Hash n} (hh : db key = some (.hash h)) : zsetAt db key = none := by
  simp only [zsetAt, hh]

theorem Table.store_zsetAt (hno : zsetAt db (T.key tname) = none) (key : String) (h : Hash n)
    (e : R) : zsetAt (T.store db tname key h e) = zsetAt db := by
  exact zsetAt_update hno fun m heq => by cases heq

/-- Looking up a record touches no sorted set, and it is in none. -/
theorem Table.get_zsetAt {create : Bool} {res : Option (Hash n × R)}
    (hget : T.get me db tname key create = some (db', res)) :
    zsetAt db' = zsetAt db ∧ (res.isSome → zsetAt db' (T.key tname) = none) := by
  cases T.fetched hget with
  | found hat _ _ => exact ⟨rfl, fun _ => zsetAt_hash hat⟩
  | missing _ => exact ⟨rfl, fun hsome => absurd hsome Bool.false_ne_true⟩
  | @made h hat _ =>
      have hno : zsetAt db (T.key tname) = none := by
        rcases hat with hat | ⟨hat, -⟩
        · exact zsetAt_hash hat
        · simp only [zsetAt, hat]
      have hkept := T.store_zsetAt hno key h (T.new me)
      exact ⟨hkept, fun _ => (congrFun hkept _).trans hno⟩

/-- Nor does the prepare phase. -/
theorem ElemCommand.runPrepare_zsetAt {argv : List String} {res : Except Reply (List (Arg n))}
    (hp : cmd.runPrepare T dbl me argv db = some (db', res)) : zsetAt db' = zsetAt db := by
  have hsame : ∀ {r : Except Reply (List (Arg n))}, some (db, r) = some (db', res) →
      zsetAt db' = zsetAt db := fun heq => by rw [(Prod.mk.inj (Option.some.inj heq)).1]
  unfold runPrepare at hp
  split at hp
  · exact hsame hp
  · dsimp only at hp
    split at hp
    · exact hsame hp
    · split at hp
      · exact hsame hp
      · obtain ⟨⟨db₁, found⟩, hget, heq⟩ := Option.map_eq_some_iff.mp hp
        obtain ⟨hdb₁, hfound⟩ := T.get_zsetAt hget
        dsimp only at heq
        split at heq
        · exact (Prod.mk.inj heq).1 ▸ hdb₁
        · rw [← (Prod.mk.inj heq).1, T.store_zsetAt (hfound rfl)]
          exact hdb₁
        · exact (Prod.mk.inj heq).1 ▸ hdb₁

theorem ListCommand.runPrepare_zsetAt {argv : List String} {res : Except Reply (List (Arg n))}
    (hp : lcmd.runPrepare dbl me argv db = some (db', res)) : zsetAt db' = zsetAt db := by
  have hsame : ∀ {r : Except Reply (List (Arg n))}, some (db, r) = some (db', res) →
      zsetAt db' = zsetAt db := fun heq => by rw [(Prod.mk.inj (Option.some.inj heq)).1]
  unfold runPrepare at hp
  split at hp
  · exact hsame hp
  · dsimp only at hp
    split at hp
    · exact hsame hp
    · next hno =>
        split at hp
        · exact hsame hp
        · obtain ⟨p, -, heq⟩ := Option.map_eq_some_iff.mp hp
          rw [← (Prod.mk.inj heq).1]
          exact zsetAt_update (zsetAt_eq_none hno) fun m => by cases p.1 <;> simp

theorem ListCommand.runEffect_zsetAt {rargv : List (Arg n)}
    (he : lcmd.runEffect me rargv db = some db') : zsetAt db' = zsetAt db := by
  obtain ⟨t, -, he⟩ := Option.bind_eq_some_iff.mp he
  split at he
  · cases he
  · next hno =>
      obtain ⟨h, -, rfl⟩ := Option.map_eq_some_iff.mp he
      exact zsetAt_update (zsetAt_eq_none hno) fun m heq => by cases heq

theorem prepareCommand_zsetAt {argv : List String} {res : Except Reply (List (Arg n))}
    (hp : prepareCommand dbl me argv db = some (db', res)) : zsetAt db' = zsetAt db := by
  obtain ⟨cmd, -, hp⟩ := Option.bind_eq_some_iff.mp hp
  split at hp
  · rw [(Prod.mk.inj (Option.some.inj hp)).1]
  · cases hproc : (cmd.proc : Proc n) with
    | elem T cmd =>
        rw [hproc] at hp
        exact ElemCommand.runPrepare_zsetAt hp
    | list cmd =>
        rw [hproc] at hp
        exact ListCommand.runPrepare_zsetAt hp

-- =========================================================== the effects

variable {s : Keys n} {env : CallEnv}

theorem ElemCommand.runEffectKeys_spec (hnum : num → env.Numeric) (h : s.Backed num)
    (rargv : List (Arg n)) :
    Keys.Follows num (cmd.runEffect T dbl me rargv s.db)
      (cmd.runEffectKeys T dbl me rargv env s) := by
  refine .bind fun tname _ => .bind fun key _ => .bind fun f _ => .bind fun p hget => ?_
  obtain ⟨db, res⟩ := p
  obtain ⟨hdb, hfound⟩ := T.get_zsetAt hget
  cases res with
  | none => exact .fails
  | some found =>
      obtain ⟨hh, e⟩ := found
      have hstored := (T.store_zsetAt (hfound rfl) key hh (f e).1).trans hdb
      exact Keys.zsetCalls_spec hnum (h.congr hstored) tname key (f e).2

theorem Proc.effectKeys_spec (hnum : num → env.Numeric) (h : s.Backed num) (p : Proc n)
    (rargv : List (Arg n)) :
    Keys.Follows num (p.effect dbl me rargv s.db) (p.effectKeys dbl me env rargv s) := by
  cases p with
  | elem T cmd => exact ElemCommand.runEffectKeys_spec hnum h rargv
  | list cmd =>
      simp only [Proc.effect, Proc.effectKeys]
      cases he : cmd.runEffect me rargv s.db with
      | none => exact .fails
      | some db => exact .moves (h.congr (ListCommand.runEffect_zsetAt he))

/-- The servers with their objects do what the servers with maps do. -/
theorem keysService_carries (env : Fin n → CallEnv) (dbl : String → Option ℤ) :
    Carries (keysService env dbl) (crdtService dbl) Keys.db
      (Keys.Backed (∀ r, (env r).Numeric)) where
  init := fun _ => rfl
  start := fun _ _ => .none
  prepare := by
    intro s me argv _
    simp only [keysService, Option.map_map]
    exact Option.map_id'.symm
  prepared := by
    intro me argv s s' m h hp
    obtain ⟨p, hp, heq⟩ := Option.map_eq_some_iff.mp hp
    obtain ⟨q, hq, rfl⟩ := Option.map_eq_some_iff.mp hp
    obtain ⟨rfl, -⟩ := Prod.mk.inj heq
    exact h.congr (prepareCommand_zsetAt hq)
  effect := by
    intro s me rargv h
    simp only [crdtService, keysService, effectCommand]
    cases cmdOfMsg rargv with
    | none => rfl
    | some cmd => exact (Proc.effectKeys_spec (fun hall => hall me) h cmd.proc rargv).db
  applied := by
    intro me rargv s s' h he
    obtain ⟨cmd, -, he⟩ := Option.bind_eq_some_iff.mp he
    exact (Proc.effectKeys_spec (fun hall => hall me) h cmd.proc rargv).backed s' he

end Frame

end CrdtRedis
