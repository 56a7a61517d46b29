/-
One element of a container, by itself: the replicated object that the
commands on it make, with the key space around it taken away.

`ElemType` collects what the commands of one of the five families do to a
record in the terms of the family: `Cl` is what a client asks for, `O`
what is broadcast, `issue` the precondition and `act` the effect. Its
laws tie these to the commands of the server. The network of servers that
issue commands of the family, read at one element, is then a run of
`ElemType.service` (`ElemType.reachable`), and what is proved of the
object holds of every element of every container.
-/
import CrdtRedis.Server
import CrdtRedis.Replication.Projection

namespace CrdtRedis

open Replication

variable {n : ℕ} {R Cl O : Type}

/-- A family of commands on one kind of record. -/
structure ElemType (n : ℕ) (R Cl O : Type) where
  table : Table n R
  command : Cmd → Option (ElemCommand n R)
  /-- What an accepted request leaves of the record and broadcasts. -/
  issue : Fin n → Cl → R → Option (R × O)
  /-- The operation a broadcast of command `c` stands for. -/
  decode : (String → Option ℤ) → Cmd → List (Arg n) → Option O
  /-- What applying an operation does to the record and the sorted set. -/
  act : O → R → R × List ZCall
  proc_eq : ∀ {c ec}, command c = some ec → c.proc = Proc.elem table ec
  arity_ge : ∀ {c ec}, command c = some ec → 3 ≤ c.arity
  effect_eq : ∀ {c ec} dbl rargv, command c = some ec →
    ec.effect dbl rargv = (decode dbl c rargv).map act
  absent : ∀ {c ec} (me : Fin n), command c = some ec → ec.create = false →
    ∃ reply, ec.prepare me none = .error reply
  accepts : ∀ {c ec dbl me argv e e' args}, command c = some ec →
    c.arity ≤ argv.length → argv.length ≤ ec.maxArgc →
    failedCheck dbl ec.checks argv = none →
    ec.prepare me (some e) = .ok (e', args) →
    ∃ cl o, issue me cl e = some (e', o) ∧
      decode dbl c (argv.map Arg.str ++ args) = some o

namespace ElemType

variable (E : ElemType n R Cl O) (dbl : String → Option ℤ)

/-- The object of one element: its record and its entry in the sorted
set. -/
def service : Service n (R × Option Score) Cl O where
  init := fun me => (E.table.new me, none)
  prepare := fun me cl s =>
    match E.issue me cl s.1 with
    | none => some (s, none)
    | some (e, o) => some ((e, s.2), some o)
  effect := fun _ o s => some ((E.act o s.1).1, runCalls (E.act o s.1).2 s.2)

/-- All a request can do: be refused, or issue an operation. -/
theorem service_prepare {E : ElemType n R Cl O} {me : Fin n} {cl : Cl}
    {s s' : R × Option Score} {m : Option O}
    (h : E.service.prepare me cl s = some (s', m)) :
    s' = s ∧ m = none ∨
      ∃ e o, E.issue me cl s.1 = some (e, o) ∧ s' = (e, s.2) ∧ m = some o := by
  simp only [service] at h
  split at h
  · obtain ⟨rfl, rfl⟩ := Prod.mk.inj (Option.some.inj h)
    exact Or.inl ⟨rfl, rfl⟩
  · next e o hissue =>
      obtain ⟨rfl, rfl⟩ := Prod.mk.inj (Option.some.inj h)
      exact Or.inr ⟨e, o, hissue, rfl, rfl⟩

/-- The operation on element `key` of `tname` a broadcast stands for. -/
def opOn (tname key : String) (rargv : List (Arg n)) : Option O :=
  if strAt 1 rargv = some tname ∧ strAt 2 rargv = some key then
    (cmdOfMsg rargv).bind fun c => E.decode dbl c rargv
  else none

/-- The element as server `me` has it. -/
def elem (tname key : String) (me : Fin n) (db : Db n) : R × Option Score :=
  (E.table.recordOf me db tname key, scoreOf db tname key)

/-- A broadcast of the family. -/
def Member (rargv : List (Arg n)) : Prop :=
  ∃ c ec, cmdOfMsg rargv = some c ∧ E.command c = some ec

variable {E dbl} {me : Fin n} {db db' : Db n} {tname key : String}

-- ==================================================== accepted commands

/-- What the server makes of a vector of the family it accepts: the
object of the element it names issues an operation, which the broadcast
stands for, and no other element changes. -/
theorem prepareCommand_ok {argv : List String} {c : Cmd} {ec : ElemCommand n R}
    {rargv : List (Arg n)} (hc : cmdOf argv = some c) (hec : E.command c = some ec)
    (hp : prepareCommand dbl me argv db = some (db', .ok rargv)) :
    E.Member rargv ∧ strAt 1 rargv = some (argv.getD 1 "") ∧
      strAt 2 rargv = some (argv.getD 2 "") ∧
      ∃ cl o, E.opOn dbl (argv.getD 1 "") (argv.getD 2 "") rargv = some o ∧
        E.issue me cl (E.table.recordOf me db (argv.getD 1 "") (argv.getD 2 ""))
          = some (E.table.recordOf me db' (argv.getD 1 "") (argv.getD 2 ""), o) ∧
        (∀ t k, ¬ (t = argv.getD 1 "" ∧ k = argv.getD 2 "") →
          E.table.recordOf me db' t k = E.table.recordOf me db t k) ∧
        ∀ t k, scoreOf db' t k = scoreOf db t k := by
  unfold prepareCommand at hp
  rw [hc, Option.bind_some] at hp
  split at hp
  · simp at hp
  · next hlen =>
      have harity : c.arity ≤ argv.length := not_lt.mp hlen
      have hthree : 3 ≤ argv.length := (E.arity_ge hec).trans harity
      rw [E.proc_eq hec] at hp
      obtain ⟨hmax, hchecks, e, args, hprep, rfl, hrec, hscore⟩ :=
        ElemCommand.runPrepare_ok (E.absent me hec) hp
      obtain ⟨cl, o, hissue, hdec⟩ := E.accepts hec harity hmax hchecks hprep
      have hat : ∀ i, i < 3 →
          strAt i (argv.map Arg.str ++ args) = some (argv.getD i "") :=
        fun i hi => strAt_map_append (by omega) args
      have hmsg : cmdOfMsg (argv.map Arg.str ++ args) = some c := by
        unfold cmdOfMsg
        rw [hat 0 (by omega), Option.bind_some]
        exact hc
      refine ⟨⟨c, ec, hmsg, hec⟩, hat 1 (by omega), hat 2 (by omega), cl, o,
        ?_, ?_, ?_, hscore⟩
      · unfold opOn
        rw [if_pos ⟨hat 1 (by omega), hat 2 (by omega)⟩, hmsg, Option.bind_some, hdec]
      · rw [hissue, hrec, if_pos ⟨rfl, rfl⟩]
      · intro t k hne
        rw [hrec, if_neg hne]

/-- What it makes of one it refuses: nothing that can be seen. -/
theorem prepareCommand_error {argv : List String} {c : Cmd} {ec : ElemCommand n R}
    {reply : Reply} (hc : cmdOf argv = some c) (hec : E.command c = some ec)
    (hp : prepareCommand dbl me argv db = some (db', .error reply)) :
    E.elem tname key me db' = E.elem tname key me db := by
  unfold prepareCommand at hp
  rw [hc, Option.bind_some] at hp
  split at hp
  · obtain ⟨rfl, -⟩ := Prod.mk.inj (Option.some.inj hp)
    rfl
  · rw [E.proc_eq hec] at hp
    obtain ⟨hrec, hscore⟩ := ElemCommand.runPrepare_error hp
    exact Prod.ext (hrec _ _) (hscore _ _)

-- ========================================================= applications

/-- What applying a broadcast of the family does: it acts on the element
it names and on no other. -/
theorem effectCommand_spec {rargv : List (Arg n)} (hm : E.Member rargv)
    (he : effectCommand dbl me rargv db = some db') :
    ∃ t k o, strAt 1 rargv = some t ∧ strAt 2 rargv = some k ∧
      E.opOn dbl t k rargv = some o ∧
      (E.service.effect me o (E.elem t k me db) = some (E.elem t k me db')) ∧
      ∀ t' k', ¬ (t' = t ∧ k' = k) → E.elem t' k' me db' = E.elem t' k' me db := by
  obtain ⟨c, ec, hc, hec⟩ := hm
  unfold effectCommand at he
  rw [hc, Option.bind_some, E.proc_eq hec] at he
  obtain ⟨t, k, f, ht, hk, hf, hrec, hscore⟩ := ElemCommand.runEffect_spec he
  rw [E.effect_eq dbl rargv hec] at hf
  obtain ⟨o, ho, rfl⟩ := Option.map_eq_some_iff.mp hf
  refine ⟨t, k, o, ht, hk, ?_, ?_, ?_⟩
  · unfold opOn
    rw [if_pos ⟨ht, hk⟩, hc, Option.bind_some, ho]
  · simp only [service, elem]
    rw [hrec, hscore, if_pos ⟨rfl, rfl⟩, if_pos ⟨rfl, rfl⟩]
  · intro t' k' hne
    unfold elem
    rw [hrec, hscore, if_neg hne, if_neg hne]

/-- A broadcast stands for an operation on the element it names only. -/
theorem opOn_eq_none {rargv : List (Arg n)} {t k : String}
    (ht : strAt 1 rargv = some t) (hk : strAt 2 rargv = some k)
    (hne : ¬ (tname = t ∧ key = k)) : E.opOn dbl tname key rargv = none := by
  unfold opOn
  rw [if_neg]
  rintro ⟨ht', hk'⟩
  rw [ht'] at ht
  rw [hk'] at hk
  exact hne ⟨Option.some.inj ht, Option.some.inj hk⟩

-- ====================================================== the projection

/-- The policy of the object: whatever the network admits. -/
def policy (guard : Fin n → O → R × Option Score → Prop) (dup : Prop) :
    Policy n (R × Option Score) Cl O := ⟨fun _ => True, guard, dup⟩

variable {pol : Policy n (Db n) (List String) (List (Arg n))}
  {guard : Fin n → O → R × Option Score → Prop}

/-- The network of servers that issue commands of the family, read at
one element. -/
def projection (E : ElemType n R Cl O) (dbl : String → Option ℤ)
    (tname key : String)
    (hallowed : ∀ argv, pol.allowed argv →
      ∃ c ec, cmdOf argv = some c ∧ E.command c = some ec)
    (hguard : ∀ {me rargv db o}, pol.guard me rargv db →
      E.opOn dbl tname key rargv = some o →
      guard me o (E.elem tname key me db)) :
    Projection (crdtService dbl) pol E.service (policy guard pol.dup) where
  view := E.elem tname key
  route := E.opOn dbl tname key
  inv := fun _ _ => True
  good := E.Member
  good_prepare := by
    intro me argv db db' rargv hall _ hp
    obtain ⟨c, ec, hc, hec⟩ := hallowed argv hall
    exact (prepareCommand_ok hc hec (crdtService_accepts hp)).1
  inv_init := fun _ => trivial
  inv_prepare := fun _ _ _ => trivial
  inv_effect := fun _ _ _ => trivial
  view_init := fun _ => rfl
  reject := by
    intro me argv db db' hall _ hp
    obtain ⟨c, ec, hc, hec⟩ := hallowed argv hall
    obtain ⟨reply, hp⟩ := crdtService_refuses hp
    exact Or.inl (prepareCommand_error hc hec hp)
  prepare_other := by
    intro me argv db db' rargv hall _ hp hroute
    obtain ⟨c, ec, hc, hec⟩ := hallowed argv hall
    obtain ⟨-, -, -, cl, o, hop, -, hrec, hscore⟩ :=
      prepareCommand_ok hc hec (crdtService_accepts hp)
    have hne : ¬ (tname = argv.getD 1 "" ∧ key = argv.getD 2 "") := by
      rintro ⟨rfl, rfl⟩
      rw [hop] at hroute
      cases hroute
    exact Prod.ext (hrec _ _ hne) (hscore _ _)
  prepare_this := by
    intro me argv db db' rargv o hall _ hp hroute
    obtain ⟨c, ec, hc, hec⟩ := hallowed argv hall
    obtain ⟨-, ht, hk, cl, o', hop, hissue, -, hscore⟩ :=
      prepareCommand_ok hc hec (crdtService_accepts hp)
    have hthis : tname = argv.getD 1 "" ∧ key = argv.getD 2 "" := by
      by_contra hne
      rw [opOn_eq_none ht hk hne] at hroute
      cases hroute
    obtain ⟨rfl, rfl⟩ := hthis
    rw [hop] at hroute
    obtain rfl := Option.some.inj hroute
    refine ⟨cl, trivial, ?_⟩
    simp only [service, elem]
    rw [hissue, hscore]
  effect_other := by
    intro me rargv db db' hgood _ he hroute
    obtain ⟨t, k, o, -, -, hop, -, hframe⟩ := effectCommand_spec hgood he
    refine hframe tname key ?_
    rintro ⟨rfl, rfl⟩
    rw [hop] at hroute
    cases hroute
  effect_this := by
    intro me rargv db db' o hgood _ he hroute
    obtain ⟨t, k, o', ht, hk, hop, hact, -⟩ := effectCommand_spec hgood he
    have hthis : tname = t ∧ key = k := by
      by_contra hne
      rw [opOn_eq_none ht hk hne] at hroute
      cases hroute
    obtain ⟨rfl, rfl⟩ := hthis
    rw [hop] at hroute
    obtain rfl := Option.some.inj hroute
    exact hact
  guard := fun _ hg hroute => hguard hg hroute
  dup := fun h => h

/-- The network read at one element. -/
def readAt (E : ElemType n R Cl O) (dbl : String → Option ℤ) (tname key : String)
    (k : Net n) : Config n (R × Option Score) O :=
  k.proj (E.elem tname key) (E.opOn dbl tname key)

/-- The vectors that name a command of the family. -/
theorem command_of_issues {cmds : List Cmd}
    (hcmds : ∀ c ∈ cmds, (E.command c).isSome) {argv : List String}
    (h : Issues cmds argv) : ∃ c ec, cmdOf argv = some c ∧ E.command c = some ec := by
  obtain ⟨c, hc, hcmd⟩ := h
  obtain ⟨ec, hec⟩ := Option.isSome_iff_exists.mp (hcmds c hc)
  exact ⟨c, ec, hcmd, hec⟩

/-- Where every message is applied once and no application is ruled out,
an element is a run of its object. -/
theorem reachable_once {cmds : List Cmd} (hcmds : ∀ c ∈ cmds, (E.command c).isSome)
    {k : Net n} (hk : Reachable (crdtService dbl) (.once (Issues cmds)) k)
    (tname key : String) :
    Reachable E.service (.once fun _ => True) (E.readAt dbl tname key k) :=
  (E.projection dbl tname key (fun _ h => command_of_issues hcmds h)
    (fun _ _ => trivial)).reachable hk

/-- The same where messages may be applied repeatedly. -/
theorem reachable_repeated {cmds : List Cmd}
    (hcmds : ∀ c ∈ cmds, (E.command c).isSome)
    {k : Net n} (hk : Reachable (crdtService dbl) (.repeated (Issues cmds)) k)
    (tname key : String) :
    Reachable E.service (.repeated fun _ => True) (E.readAt dbl tname key k) :=
  (E.projection dbl tname key (fun _ h => command_of_issues hcmds h)
    (fun _ _ => trivial)).reachable hk

end ElemType

end CrdtRedis
