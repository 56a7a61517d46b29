/-
The CRDT write commands of a server in replication mode (the command
table of server.c, the phases of CRDT.h) and the network of `n` such
servers.

A client's vector is looked up by its first word, refused if it is too
short, and PREPARED; what the preparation leaves in `rargv` is applied
and broadcast. The other servers look the vector up by its first word
again and apply it. `crdtService` is that, as a service in the sense of
the replication library; read-only commands and commands outside the
CRDT families are no part of it.

A run of it stands for a run of the program in which no counter, clock
or length leaves `int` and no broadcast meets a key of another type, where
the program goes on with the object by its encoding and the model has no
step (`none`). Scores are integers with exact sums.

`dbl` stands for `getDoubleFromObject` throughout.
-/
import CrdtRedis.Rw.List
import CrdtRedis.Rwf.List

namespace CrdtRedis

variable {n : ℕ}

/-- The procedures of the CRDT write commands. -/
inductive Cmd
  | ozadd | ozincrby | ozrem
  | rzadd | rzincrby | rzrem
  | rwfzadd | rwfzincrby | rwfzrem
  | rwfsadd | rwfsrem
  | osadd | osrem
  | rlinsert | rlupdate | rlrem
  | rwflinsert | rwflupdate | rwflrem
deriving DecidableEq, Repr

/-- `lookupCommand`: the rows of the command table that are CRDT writes;
names are compared without regard to case. -/
def lookupCommand (name : String) : Option Cmd :=
  match sdstolower name with
  | "ozadd" => some .ozadd
  | "ozincrby" => some .ozincrby
  | "ozrem" => some .ozrem
  | "rzadd" => some .rzadd
  | "rzincrby" => some .rzincrby
  | "rzrem" => some .rzrem
  | "rwfzadd" => some .rwfzadd
  | "rwfzincrby" => some .rwfzincrby
  | "rwfzrem" => some .rwfzrem
  | "rwfsadd" => some .rwfsadd
  | "rwfsrem" => some .rwfsrem
  | "osadd" => some .osadd
  | "osrem" => some .osrem
  | "rsadd" => some .rwfsadd
  | "rsrem" => some .rwfsrem
  | "rlinsert" => some .rlinsert
  | "rlupdate" => some .rlupdate
  | "rlrem" => some .rlrem
  | "rwflinsert" => some .rwflinsert
  | "rwflupdate" => some .rwflupdate
  | "rwflrem" => some .rwflrem
  | _ => none

/-- The least number of words, the negated `arity` of the table. -/
def Cmd.arity : Cmd → ℕ
  | .ozadd | .ozincrby | .rzadd | .rzincrby | .rwfzadd | .rwfzincrby => 4
  | .ozrem | .rzrem | .rwfzrem => 3
  | .rwfsadd | .rwfsrem | .osadd | .osrem => 3
  | .rlinsert | .rwflinsert => 9
  | .rlupdate | .rwflupdate => 5
  | .rlrem | .rwflrem => 3

/-- What a command procedure is made of. -/
inductive Proc (n : ℕ) : Type 1
  | elem {R : Type} (T : Table n R) (cmd : ElemCommand n R)
  | list (cmd : ListCommand n)

/-- The procedure of each command. -/
def Cmd.proc : Cmd → Proc n
  | .ozadd => .elem ozeTable ozaddCommand
  | .ozincrby => .elem ozeTable ozincrbyCommand
  | .ozrem => .elem ozeTable ozremCommand
  | .rzadd => .elem rzeTable rzaddCommand
  | .rzincrby => .elem rzeTable rzincrbyCommand
  | .rzrem => .elem rzeTable rzremCommand
  | .rwfzadd => .elem rwfzeTable rwfzaddCommand
  | .rwfzincrby => .elem rwfzeTable rwfzincrbyCommand
  | .rwfzrem => .elem rwfzeTable rwfzremCommand
  | .rwfsadd => .elem rwfseTable rwfsaddCommand
  | .rwfsrem => .elem rwfseTable rwfsremCommand
  | .osadd => .elem oseTable osaddCommand
  | .osrem => .elem oseTable osremCommand
  | .rlinsert => .list rlinsertCommand
  | .rlupdate => .list rlupdateCommand
  | .rlrem => .list rlremCommand
  | .rwflinsert => .list rwflinsertCommand
  | .rwflupdate => .list rwflupdateCommand
  | .rwflrem => .list rwflremCommand

namespace Proc

variable (dbl : String → Option ℤ) (me : Fin n)

/-- `CRDT_PREPARE` to `CRDT_EFFECT`. -/
def prepare (p : Proc n) (argv : List String) (db : Db n) :
    Option (Db n × Except Reply (List (Arg n))) :=
  match p with
  | .elem T cmd => cmd.runPrepare T dbl me argv db
  | .list cmd => cmd.runPrepare dbl me argv db

/-- `CRDT_EFFECT` to `CRDT_END`. -/
def effect (p : Proc n) (rargv : List (Arg n)) (db : Db n) : Option (Db n) :=
  match p with
  | .elem T cmd => cmd.runEffect T dbl me rargv db
  | .list cmd => cmd.runEffect me rargv db

end Proc

/-- The command a client's vector names. -/
def cmdOf (argv : List String) : Option Cmd := lookupCommand (argv.getD 0 "")

/-- The command a broadcast names. -/
def cmdOfMsg (rargv : List (Arg n)) : Option Cmd := (strAt 0 rargv).bind lookupCommand

/-- A client's vector up to the broadcast it causes. -/
def prepareCommand (dbl : String → Option ℤ) (me : Fin n)
    (argv : List String) (db : Db n) :
    Option (Db n × Except Reply (List (Arg n))) :=
  (cmdOf argv).bind fun cmd =>
    if argv.length < cmd.arity then
      some (db, .error (.wrongArity (sdstolower (argv.getD 0 ""))))
    else cmd.proc.prepare dbl me argv db

/-- The application of a broadcast. -/
def effectCommand (dbl : String → Option ℤ) (me : Fin n)
    (rargv : List (Arg n)) (db : Db n) : Option (Db n) :=
  (cmdOfMsg rargv).bind fun cmd => cmd.proc.effect dbl me rargv db

/-- `n` servers in replication mode, with database 0 empty. -/
def crdtService (dbl : String → Option ℤ) :
    Replication.Service n (Db n) (List String) (List (Arg n)) where
  init := fun _ _ => none
  prepare := fun me argv db =>
    (prepareCommand dbl me argv db).map fun p =>
      (p.1, match p.2 with
        | .error _ => none
        | .ok rargv => some rargv)
  effect := effectCommand dbl

section

variable {dbl : String → Option ℤ} {me : Fin n} {argv : List String} {db db' : Db n}

theorem crdtService_accepts {rargv : List (Arg n)}
    (h : (crdtService dbl).prepare me argv db = some (db', some rargv)) :
    prepareCommand dbl me argv db = some (db', .ok rargv) := by
  obtain ⟨p, hp, heq⟩ := Option.map_eq_some_iff.mp h
  match p with
  | (_, .error _) => simp at heq
  | (_, .ok _) =>
      simp only [Prod.mk.injEq, Option.some.injEq] at heq
      rw [hp, heq.1, heq.2]

theorem crdtService_refuses
    (h : (crdtService dbl).prepare me argv db = some (db', none)) :
    ∃ reply, prepareCommand dbl me argv db = some (db', .error reply) := by
  obtain ⟨p, hp, heq⟩ := Option.map_eq_some_iff.mp h
  match p with
  | (_, .ok _) => simp at heq
  | (_, .error reply) =>
      obtain ⟨rfl, -⟩ := Prod.mk.inj heq
      exact ⟨reply, hp⟩

theorem crdtService_prepares {m : Option (List (Arg n))}
    (h : (crdtService dbl).prepare me argv db = some (db', m)) :
    ∃ res, prepareCommand dbl me argv db = some (db', res) := by
  obtain ⟨p, hp, heq⟩ := Option.map_eq_some_iff.mp h
  exact ⟨p.2, (Prod.mk.inj heq).1 ▸ hp⟩

end

/-- The client vectors that name a command of `cmds`. -/
def Issues (cmds : List Cmd) (argv : List String) : Prop :=
  ∃ c ∈ cmds, cmdOf argv = some c

instance (cmds : List Cmd) : DecidablePred (Issues cmds) :=
  fun argv => inferInstanceAs (Decidable (∃ c ∈ cmds, cmdOf argv = some c))

/-- A configuration of the network. -/
abbrev Net (n : ℕ) := Replication.Config n (Db n) (List (Arg n))

end CrdtRedis
