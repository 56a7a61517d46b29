/-
One list by itself: the replicated object that the commands on it make,
with the rest of the key space taken away.

`ListType` is one of the two families of list commands. Its object is the
hash of one list, absent until a command makes it; a client's vector that
passed the checks of its command is prepared against the hash and a
broadcast, decoded, is applied to it. The network of servers that issue
commands of the family, read at one list, is a run of this object
(`ListType.reachable_once`).
-/
import CrdtRedis.Server
import CrdtRedis.Replication.Projection

namespace CrdtRedis

open Replication

variable {n : ℕ} {M : Type}

/-- A client's vector for command `c` that passed the checks. -/
structure ListCommand.Passes (lc : ListCommand n) (dbl : String → Option ℤ) (c : Cmd)
    (argv : List String) : Prop where
  name : cmdOf argv = some c
  arity : c.arity ≤ argv.length
  maxArgc : argv.length ≤ lc.maxArgc
  checks : failedCheck dbl lc.checks argv = none

/-- A family of commands on lists; `M` is what a broadcast stands for. -/
structure ListType (n : ℕ) (M : Type) where
  command : Cmd → Option (ListCommand n)
  decode : Cmd → List (Arg n) → Option M
  effect : Fin n → M → Hash n → Option (Hash n)
  proc_eq : ∀ {c lc}, command c = some lc → c.proc = Proc.list lc
  arity_ge : ∀ {c lc}, command c = some lc → 2 ≤ c.arity
  effect_eq : ∀ {c lc} me rargv h, command c = some lc →
    lc.effect me rargv h = (decode c rargv).bind fun m => effect me m h
  accepts : ∀ {dbl c lc me argv ho ho' rargv}, command c = some lc →
    lc.Passes dbl c argv → lc.prepare me argv ho = some (ho', .ok rargv) →
    strAt 0 rargv = some (argv.getD 0 "") ∧ strAt 1 rargv = some (argv.getD 1 "") ∧
      ∃ m, decode c rargv = some m

namespace ListType

variable (T : ListType n M) (dbl : String → Option ℤ)

/-- The object of one list. -/
def service : Service n (Option (Hash n)) (List String) M where
  init := fun _ => none
  prepare := fun me argv ho =>
    (cmdOf argv).bind fun c => (T.command c).bind fun lc =>
      (lc.prepare me argv ho).map fun p =>
        (p.1, match p.2 with
          | .error _ => none
          | .ok rargv => T.decode c rargv)
  effect := fun me m ho => (T.effect me m (ho.getD .empty)).map some

/-- The vectors of the family that passed their checks. -/
def Submits (argv : List String) : Prop :=
  ∃ c lc, T.command c = some lc ∧ lc.Passes dbl c argv

/-- What a broadcast says about list `tname`. -/
def opOn (tname : String) (rargv : List (Arg n)) : Option M :=
  if strAt 1 rargv = some tname then
    (cmdOfMsg rargv).bind fun c => T.decode c rargv
  else none

/-- A broadcast of the family. -/
def Member (rargv : List (Arg n)) : Prop :=
  ∃ c lc m, cmdOfMsg rargv = some c ∧ T.command c = some lc ∧ T.decode c rargv = some m

variable {T dbl} {me : Fin n} {db db' : Db n} {tname : String}

/-- What the server makes of a vector of the family. -/
theorem prepareCommand_list {argv : List String} {c : Cmd} {lc : ListCommand n}
    {res : Except Reply (List (Arg n))} (hc : cmdOf argv = some c)
    (hlc : T.command c = some lc)
    (hp : prepareCommand dbl me argv db = some (db', res)) :
    db' = db ∧ (∃ reply, res = .error reply) ∨
      lc.Passes dbl c argv ∧ ∃ ho,
        lc.prepare me argv (ListCommand.hashAt db (argv.getD 1 "")) = some (ho, res) ∧
        db' = Function.update db (argv.getD 1 "") (ho.map .hash) := by
  have hsame : ∀ reply, some (db, Except.error reply) = some (db', res) →
      db' = db ∧ ∃ reply, res = .error reply := by
    intro reply heq
    obtain ⟨rfl, rfl⟩ := Prod.mk.inj (Option.some.inj heq)
    exact ⟨rfl, _, rfl⟩
  unfold prepareCommand at hp
  rw [hc, Option.bind_some] at hp
  split at hp
  · exact Or.inl (hsame _ hp)
  · next harity =>
      rw [T.proc_eq hlc] at hp
      simp only [Proc.prepare, ListCommand.runPrepare] at hp
      split at hp
      · exact Or.inl (hsame _ hp)
      · next hargc =>
          split at hp
          · exact Or.inl (hsame _ hp)
          · split at hp
            · exact Or.inl (hsame _ hp)
            · next hcheck =>
                obtain ⟨p, hprep, heq⟩ := Option.map_eq_some_iff.mp hp
                obtain ⟨rfl, rfl⟩ := Prod.mk.inj heq
                refine Or.inr ⟨⟨hc, not_lt.mp harity, ?_, hcheck⟩, p.1, hprep, rfl⟩
                exact not_lt.mp fun hcon => hargc (Or.inl hcon)

/-- What a broadcast does: it acts on the list it names and on no
other. -/
theorem effectCommand_list {rargv : List (Arg n)} {c : Cmd} {lc : ListCommand n}
    (hc : cmdOfMsg rargv = some c) (hlc : T.command c = some lc)
    (he : effectCommand dbl me rargv db = some db') :
    ∃ t m h, strAt 1 rargv = some t ∧ T.decode c rargv = some m ∧
      T.effect me m ((ListCommand.hashAt db t).getD .empty) = some h ∧
      db' = Function.update db t (some (.hash h)) := by
  unfold effectCommand at he
  rw [hc, Option.bind_some, T.proc_eq hlc] at he
  simp only [Proc.effect, ListCommand.runEffect] at he
  obtain ⟨t, ht, he⟩ := Option.bind_eq_some_iff.mp he
  split at he
  · cases he
  · rw [T.effect_eq me rargv _ hlc] at he
    obtain ⟨h, heff, rfl⟩ := Option.map_eq_some_iff.mp he
    obtain ⟨m, hm, heff⟩ := Option.bind_eq_some_iff.mp heff
    exact ⟨t, m, h, ht, hm, heff, rfl⟩

theorem hashAt_update_self (ho : Option (Hash n)) :
    ListCommand.hashAt (Function.update db tname (ho.map .hash)) tname = ho := by
  cases ho <;> simp [ListCommand.hashAt]

theorem hashAt_update_ne {t : String} (o : Option (Obj n)) (h : tname ≠ t) :
    ListCommand.hashAt (Function.update db t o) tname = ListCommand.hashAt db tname := by
  simp [ListCommand.hashAt, h]

/-- A broadcast says something about the list it names only. -/
theorem opOn_eq_some {rargv : List (Arg n)} {m : M} : T.opOn tname rargv = some m ↔
    strAt 1 rargv = some tname ∧ ∃ c, cmdOfMsg rargv = some c ∧ T.decode c rargv = some m := by
  unfold opOn
  by_cases h1 : strAt 1 rargv = some tname
  · rw [if_pos h1, Option.bind_eq_some_iff]
    exact ⟨fun h => ⟨h1, h⟩, fun h => h.2⟩
  · rw [if_neg h1]
    exact iff_of_false (by simp) fun h => h1 h.1

/-- A vector of the family that is accepted broadcasts its own name and
list. -/
theorem member_of_accepts {argv : List String} {c : Cmd} {lc : ListCommand n}
    {ho ho' : Option (Hash n)} {rargv : List (Arg n)} (hpass : lc.Passes dbl c argv)
    (hlc : T.command c = some lc) (hp : lc.prepare me argv ho = some (ho', .ok rargv)) :
    ∃ m, cmdOfMsg rargv = some c ∧ T.decode c rargv = some m ∧
      strAt 1 rargv = some (argv.getD 1 "") := by
  obtain ⟨h0, h1, m, hm⟩ := T.accepts hlc hpass hp
  refine ⟨m, ?_, hm, h1⟩
  unfold cmdOfMsg
  rw [h0, Option.bind_some]
  exact hpass.name

-- ====================================================== the projection

/-- The network of servers that issue commands of the family, read at one
list. -/
def projection (T : ListType n M) (dbl : String → Option ℤ) (tname : String)
    {allowed : List String → Prop}
    (hallowed : ∀ argv, allowed argv →
      ∃ c lc, cmdOf argv = some c ∧ T.command c = some lc) :
    Projection (crdtService dbl) (.once allowed) T.service
      (.once fun argv => allowed argv ∧ T.Submits dbl argv) where
  view := fun _ db => ListCommand.hashAt db tname
  route := T.opOn tname
  inv := fun _ _ => True
  good := T.Member
  good_prepare := by
    intro me argv db db' rargv hall _ hp
    obtain ⟨c, lc, hc, hlc⟩ := hallowed argv hall
    rcases prepareCommand_list hc hlc (crdtService_accepts hp) with
      ⟨-, reply, hcon⟩ | ⟨hpass, ho, hprep, -⟩
    · cases hcon
    · obtain ⟨m, hmsg, hm, -⟩ := member_of_accepts hpass hlc hprep
      exact ⟨c, lc, m, hmsg, hlc, hm⟩
  inv_init := fun _ => trivial
  inv_prepare := fun _ _ _ => trivial
  inv_effect := fun _ _ _ => trivial
  view_init := fun _ => rfl
  reject := by
    intro me argv db db' hall _ hp
    obtain ⟨c, lc, hc, hlc⟩ := hallowed argv hall
    obtain ⟨reply, hp⟩ := crdtService_refuses hp
    rcases prepareCommand_list hc hlc hp with ⟨rfl, -⟩ | ⟨hpass, ho, hprep, rfl⟩
    · exact Or.inl rfl
    · by_cases hname : tname = argv.getD 1 ""
      · subst hname
        refine Or.inr ⟨argv, ⟨hall, c, lc, hlc, hpass⟩, ?_⟩
        simp only [service, hc, hlc, Option.bind_some, hprep, Option.map_some,
          hashAt_update_self]
      · exact Or.inl (hashAt_update_ne _ hname)
  prepare_other := by
    intro me argv db db' rargv hall _ hp hroute
    obtain ⟨c, lc, hc, hlc⟩ := hallowed argv hall
    rcases prepareCommand_list hc hlc (crdtService_accepts hp) with
      ⟨-, reply, hcon⟩ | ⟨hpass, ho, hprep, rfl⟩
    · cases hcon
    · refine hashAt_update_ne _ ?_
      intro hname
      subst hname
      obtain ⟨m, hmsg, hm, h1⟩ := member_of_accepts hpass hlc hprep
      rw [opOn_eq_some.mpr ⟨h1, c, hmsg, hm⟩] at hroute
      cases hroute
  prepare_this := by
    intro me argv db db' rargv m hall _ hp hroute
    obtain ⟨c, lc, hc, hlc⟩ := hallowed argv hall
    rcases prepareCommand_list hc hlc (crdtService_accepts hp) with
      ⟨-, reply, hcon⟩ | ⟨hpass, ho, hprep, rfl⟩
    · cases hcon
    · obtain ⟨_, hmsg, -, h1⟩ := member_of_accepts hpass hlc hprep
      obtain ⟨hname, c', hc', hm⟩ := opOn_eq_some.mp hroute
      rw [h1] at hname
      obtain rfl := Option.some.inj hname
      rw [hmsg] at hc'
      obtain rfl := Option.some.inj hc'
      refine ⟨argv, ⟨hall, c, lc, hlc, hpass⟩, ?_⟩
      simp only [service, hc, hlc, Option.bind_some, hprep, Option.map_some,
        hashAt_update_self, hm]
  effect_other := by
    intro me rargv db db' hgood _ he hroute
    obtain ⟨c, lc, m, hc, hlc, hm⟩ := hgood
    obtain ⟨t, m', h, ht, hm', -, rfl⟩ := effectCommand_list hc hlc he
    refine hashAt_update_ne _ ?_
    intro hname
    subst hname
    rw [opOn_eq_some.mpr ⟨ht, c, hc, hm⟩] at hroute
    cases hroute
  effect_this := by
    intro me rargv db db' m hgood _ he hroute
    obtain ⟨c, lc, -, hc, hlc, -⟩ := hgood
    obtain ⟨t, m', h, ht, hm', heff, rfl⟩ := effectCommand_list hc hlc he
    obtain ⟨hname, c', hc', hm⟩ := opOn_eq_some.mp hroute
    rw [ht] at hname
    obtain rfl := Option.some.inj hname
    rw [hc] at hc'
    obtain rfl := Option.some.inj hc'
    rw [hm'] at hm
    obtain rfl := Option.some.inj hm
    have hself : ListCommand.hashAt (Function.update db t (some (.hash h))) t = some h :=
      hashAt_update_self (some h)
    simp only [service, heff, Option.map_some, hself]
  guard := fun _ _ _ => trivial
  dup := fun h => h

/-- The network read at one list. -/
def readAt (T : ListType n M) (tname : String) (k : Net n) :
    Config n (Option (Hash n)) M :=
  k.proj (fun _ db => ListCommand.hashAt db tname) (T.opOn tname)

/-- Every broadcast of the network is one of the family. -/
theorem sent_member {allowed : List String → Prop}
    (hallowed : ∀ argv, allowed argv →
      ∃ c lc, cmdOf argv = some c ∧ T.command c = some lc)
    {k : Net n} (hk : Reachable (crdtService dbl) (.once allowed) k) :
    ∀ o ∈ k.sent, T.Member o.msg :=
  ((T.projection dbl "" hallowed).inv_reachable hk).1

/-- What was broadcast about one list. -/
theorem mem_readAt_sent {k : Net n} {tname : String} {o : Op n M} :
    o ∈ (T.readAt tname k).sent ↔ ∃ o₀ ∈ k.sent, T.opOn tname o₀.msg = some o.msg ∧
      o.uid = o₀.uid ∧ o.src = o₀.src := by
  show o ∈ k.sent.filterMap _ ↔ _
  rw [List.mem_filterMap]
  simp only [Op.route_eq_some]

/-- What a server applied of one list. -/
theorem mem_readAt_got {k : Net n} {tname : String} {r : Fin n} {o : Op n M} :
    o ∈ (T.readAt tname k).got r ↔ ∃ o₀ ∈ k.got r, T.opOn tname o₀.msg = some o.msg ∧
      o.uid = o₀.uid ∧ o.src = o₀.src := by
  show o ∈ (k.got r).filterMap _ ↔ _
  rw [List.mem_filterMap]
  simp only [Op.route_eq_some]

/-- Where every message is applied once, a list is a run of its object. -/
theorem reachable_once {allowed : List String → Prop}
    (hallowed : ∀ argv, allowed argv →
      ∃ c lc, cmdOf argv = some c ∧ T.command c = some lc)
    {k : Net n} (hk : Reachable (crdtService dbl) (.once allowed) k) (tname : String) :
    Reachable T.service (.once fun argv => allowed argv ∧ T.Submits dbl argv)
      (T.readAt tname k) :=
  (T.projection dbl tname hallowed).reachable hk

/-- Where moreover every application is admitted, so is every one at the
list. -/
theorem reachable_guarded {allowed : List String → Prop}
    {g : Fin n → List (Arg n) → Db n → Prop} {g' : Fin n → M → Option (Hash n) → Prop}
    (hallowed : ∀ argv, allowed argv →
      ∃ c lc, cmdOf argv = some c ∧ T.command c = some lc) (tname : String)
    (hguard : ∀ {r rargv db m}, g r rargv db → T.opOn tname rargv = some m →
      g' r m (ListCommand.hashAt db tname))
    {k : Net n} (hk : Reachable (crdtService dbl) ⟨allowed, g, False⟩ k) :
    Reachable T.service ⟨fun argv => allowed argv ∧ T.Submits dbl argv, g', False⟩
      (T.readAt tname k) := by
  let H : Projection (crdtService dbl) ⟨allowed, g, False⟩ T.service
      ⟨fun argv => allowed argv ∧ T.Submits dbl argv, g', False⟩ :=
    (T.projection dbl tname hallowed).guarded fun _ _ _ _ _ hg hroute => hguard hg hroute
  exact H.reachable hk

end ListType

end CrdtRedis
