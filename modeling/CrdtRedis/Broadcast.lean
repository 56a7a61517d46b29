/-
When an accepted operation of a client is one broadcast of itself.

Outside transactions and scripts it always is: `rargv` is NULL when a
command begins, so a CRDT write runs its effect phase on its own vector and
`call` broadcasts that one vector, and no other command broadcasts anything
(`call_null`).

EXEC is one command for `resetClient`: what the first accepted write of the
queue leaves in `rargv` is there for the rest of the queue, whose calls
broadcast it again, whose writes append to it and run their effect phase on
it, and for the call of EXEC itself, which broadcasts it once more. The
client of the scripts is never reset: what the first accepted write of any
script leaves is there for every later call of any script
(`broadcasts_again`).

So the operations are one broadcast each exactly in the runs where no EXEC
executes an accepted write, and no script calls anything once a script has
called an accepted write (`one_broadcast_iff`). That the second half is
needed rests on what a vector looks like: behind the words every accepted
write appends something that is no word, so a vector that was left never is
the beginning of another command's own one (`Rargv.Left`).
-/
import CrdtRedis.Client
import CrdtRedis.Codec

namespace CrdtRedis

variable {n : ℕ}

/-- A call that ran the effect phase on the command's own vector and
broadcast that vector, or did neither. -/
def Called.Faithful (e : Called n) : Prop := e.ran = e.own ∧ e.sent = e.own

-- =============================================== appending to a vector

/-- Appends to a vector of one's own stay within its slots. -/
theorem foldlM_rargvAdd {argc : ℕ} (objs : List (Arg n)) {r : Rargv n} {capacity : ℕ}
    (hslots : r.slots = capacity) (hlen : r.args.length ≤ capacity) (hargc : argc < capacity) :
    ∃ p, objs.foldlM (rargvAdd argc) (r, capacity) = some p ∧
      p.1.args = r.args ++ objs := by
  induction objs generalizing r capacity with
  | nil => exact ⟨(r, capacity), rfl, (List.append_nil _).symm⟩
  | cons obj objs ih =>
      obtain ⟨r', capacity', hadd, hslots', hlen', hargc', hargs⟩ :
          ∃ r' capacity', rargvAdd argc (r, capacity) obj = some (r', capacity') ∧
            r'.slots = capacity' ∧ r'.args.length ≤ capacity' ∧ argc < capacity' ∧
            r'.args = r.args ++ [obj] := by
        unfold rargvAdd
        by_cases hfull : r.args.length = capacity
        · have hroom : r.args.length < 2 * capacity - argc := by omega
          simp only [if_pos hfull, if_pos hroom]
          refine ⟨_, _, rfl, rfl, ?_, by omega, rfl⟩
          simp only [List.length_append, List.length_singleton]
          omega
        · have hroom : r.args.length < r.slots := by omega
          simp only [if_neg hfull, if_pos hroom]
          refine ⟨_, _, rfl, hslots, ?_, hargc, rfl⟩
          simp only [List.length_append, List.length_singleton]
          omega
      obtain ⟨p, hp, hpargs⟩ := ih hslots' hlen' hargc'
      refine ⟨p, ?_, ?_⟩
      · rw [List.foldlM_cons, hadd]
        exact hp
      · rw [hpargs, hargs, List.append_assoc, List.singleton_append]

/-- A preparation that finds `rargv` NULL leaves its own vector there. -/
theorem rargvAddAll_own (argc : ℕ) (own : List (Arg n)) :
    ∃ r, rargvAddAll argc none own = some r ∧ r.args = own := by
  have hlen : (own.take argc).length ≤ argc + additionalCapacity := by
    rw [List.length_take]
    exact (Nat.min_le_left _ _).trans (Nat.le_add_right _ _)
  have hroom : argc < argc + additionalCapacity := by simp [additionalCapacity]
  obtain ⟨p, hp, hargs⟩ := foldlM_rargvAdd (own.drop argc)
    (r := ⟨own.take argc, argc + additionalCapacity⟩) rfl hlen hroom
  refine ⟨p.1, ?_, ?_⟩
  · show ((own.drop argc).foldlM (rargvAdd argc) _).map Prod.fst = _
    rw [Option.getD_none, hp, Option.map_some]
  · rw [hargs, List.take_append_drop]

theorem rargvAddAll_null {argc : ℕ} {own : List (Arg n)} {r : Rargv n}
    (h : rargvAddAll argc none own = some r) : r.args = own := by
  obtain ⟨r', hr', hargs⟩ := rargvAddAll_own argc own
  rw [hr'] at h
  rw [← Option.some.inj h, hargs]

/-- Appends to any vector, where they stay within its slots. -/
theorem foldlM_rargvAdd_args {argc : ℕ} {objs : List (Arg n)} {p p' : Rargv n × ℕ}
    (h : objs.foldlM (rargvAdd argc) p = some p') : p'.1.args = p.1.args ++ objs := by
  induction objs generalizing p with
  | nil =>
      cases h
      exact (List.append_nil _).symm
  | cons obj objs ih =>
      rw [List.foldlM_cons] at h
      obtain ⟨p₁, hadd, h⟩ := Option.bind_eq_some_iff.mp h
      have hargs : p₁.1.args = p.1.args ++ [obj] := by
        unfold rargvAdd at hadd
        dsimp only at hadd
        split_ifs at hadd <;> (cases hadd; rfl)
      rw [ih h, hargs, List.append_assoc, List.singleton_append]

/-- A preparation that finds a vector appends to it. -/
theorem rargvAddAll_some {argc : ℕ} {own : List (Arg n)} {r r' : Rargv n}
    (h : rargvAddAll argc (some r) own = some r') : r'.args = r.args ++ own.drop argc := by
  obtain ⟨p, hp, rfl⟩ := Option.map_eq_some_iff.mp h
  exact foldlM_rargvAdd_args hp

/-- What an accepted write leaves: somewhere in it is no word. -/
def Rargv.Left (r : Rargv n) : Prop := ∃ a ∈ r.args, a.kind ≠ .str

section

variable {dbl : String → Option ℤ} {others : Others n} {me : Fin n} {cmd : Cmd} {p : Plain}
  {argv : List String} {db db' : Db n} {own : List (Arg n)} {s s' : Session n} {e : Called n}
  {es : List (Called n)} {r r' : Rargv n}

theorem Rargv.Left.of_own (hp : cmd.proc.prepare dbl me argv db = some (db', .ok own))
    (hr : r.args = own) : r.Left := by
  obtain ⟨-, words, args, rfl, -, -, hne, htyped⟩ := Cmd.prepare_typed hp
  obtain ⟨a, ha⟩ := List.exists_mem_of_ne_nil args hne
  exact ⟨a, hr ▸ List.mem_append_right _ ha, htyped.not_str ha⟩

/-- A vector that was left is not the client's part of another one. -/
theorem Rargv.Left.ne_own (hr : r.Left)
    (hp : cmd.proc.prepare dbl me argv db = some (db', .ok own)) :
    r.args ++ own.drop argv.length ≠ own := by
  obtain ⟨-, words, args, rfl, hlen, -, -, -⟩ := Cmd.prepare_typed hp
  obtain ⟨a, ha, hkind⟩ := hr
  intro heq
  rw [List.drop_left' (by simpa using hlen), List.append_cancel_right_eq] at heq
  rw [heq] at ha
  obtain ⟨w, -, rfl⟩ := List.mem_map.mp ha
  exact hkind rfl

-- ============================================================= one call

/-- A call that finds `rargv` NULL: it refused, or was of a command that is
no CRDT write, and it leaves `rargv` NULL; or it accepted and leaves its own
vector there. -/
inductive CalledNull (dbl : String → Option ℤ) (me : Fin n) (p : Plain) (argv : List String)
    (db : Db n) (c : Client n) (e : Called n) : Prop
  | quiet (he : e = ⟨none, none, none⟩) (hr : c.rargv = none)
      (hp : ∀ cmd db' own, p = .crdt cmd → cmd.proc.prepare dbl me argv db ≠ some (db', .ok own))
  | accepted (cmd : Cmd) (db' : Db n) (own : List (Arg n)) (r : Rargv n) (hp : p = .crdt cmd)
      (hprep : cmd.proc.prepare dbl me argv db = some (db', .ok own))
      (he : e = ⟨some own, some own, some own⟩) (hr : c.rargv = some r) (hargs : r.args = own)

theorem call_null (hs : s.c.rargv = none) (h : s.call dbl others me p argv = some (s', e)) :
    CalledNull dbl me p argv s.db s'.c e := by
  obtain ⟨q, hq, hcall⟩ := Option.map_eq_some_iff.mp h
  obtain ⟨rfl, rfl⟩ := Prod.mk.inj hcall
  cases p with
  | crdt cmd =>
      obtain ⟨⟨db, res⟩, hprep, hq⟩ := Option.bind_eq_some_iff.mp hq
      cases res with
      | error reply =>
          cases hq
          refine .quiet ?_ hs fun cmd' db' own hp hok => ?_
          · simp only [Session.broadcast, hs, Option.map_none]
          · cases hp
            rw [hprep] at hok
            cases hok
      | ok own =>
          obtain ⟨rargv, hadd, hq⟩ := Option.bind_eq_some_iff.mp hq
          obtain ⟨db', heff, rfl⟩ := Option.map_eq_some_iff.mp hq
          rw [hs] at hadd
          have hargs := rargvAddAll_null hadd
          refine .accepted cmd db own rargv rfl hprep ?_ rfl hargs
          simp only [Session.broadcast, Option.map_some, hargs]
  | unwatch =>
      cases hq
      refine .quiet (by simp only [Session.broadcast, hs, Option.map_none]) hs ?_
      exact fun cmd _ _ hp => Plain.noConfusion hp
  | other =>
      cases hq
      refine .quiet (by simp only [Session.broadcast, hs, Option.map_none]) hs ?_
      exact fun cmd _ _ hp => Plain.noConfusion hp

/-- A call that finds a vector which an accepted write left: it broadcasts
what is not its own, and leaves such a vector. -/
theorem call_left (hs : s.c.rargv = some r) (hr : r.Left)
    (h : s.call dbl others me p argv = some (s', e)) :
    ¬ e.Faithful ∧ ∃ r', s'.c.rargv = some r' ∧ r'.Left := by
  obtain ⟨q, hq, hcall⟩ := Option.map_eq_some_iff.mp h
  obtain ⟨rfl, rfl⟩ := Prod.mk.inj hcall
  have hagain : ∀ {t : Session n}, t.c.rargv = some r → ¬ (t.broadcast none).Faithful := by
    intro t ht hf
    have hsent : t.c.rargv.map Rargv.args = none := hf.2
    rw [ht] at hsent
    cases hsent
  cases p with
  | crdt cmd =>
      obtain ⟨⟨db, res⟩, hprep, hq⟩ := Option.bind_eq_some_iff.mp hq
      cases res with
      | error reply =>
          cases hq
          exact ⟨hagain hs, r, hs, hr⟩
      | ok own =>
          obtain ⟨rargv, hadd, hq⟩ := Option.bind_eq_some_iff.mp hq
          obtain ⟨db', heff, rfl⟩ := Option.map_eq_some_iff.mp hq
          rw [hs] at hadd
          have hargs := rargvAddAll_some hadd
          refine ⟨fun hf => hr.ne_own hprep ?_, rargv, rfl, ?_⟩
          · rw [← hargs]
            exact Option.some.inj hf.1
          · obtain ⟨a, ha, hkind⟩ := hr
            exact ⟨a, hargs ▸ List.mem_append_left _ ha, hkind⟩
  | unwatch =>
      cases hq
      exact ⟨hagain hs, r, hs, hr⟩
  | other =>
      cases hq
      exact ⟨hagain hs, r, hs, hr⟩

/-- A call is no business of the other client. -/
theorem call_lua (h : s.call dbl others me p argv = some (s', e)) : s'.lua = s.lua := by
  obtain ⟨q, hq, hcall⟩ := Option.map_eq_some_iff.mp h
  obtain ⟨rfl, rfl⟩ := Prod.mk.inj hcall
  cases p with
  | crdt cmd =>
      obtain ⟨⟨db, res⟩, hprep, hq⟩ := Option.bind_eq_some_iff.mp hq
      cases res with
      | error reply =>
          cases hq
          rfl
      | ok own =>
          obtain ⟨rargv, hadd, hq⟩ := Option.bind_eq_some_iff.mp hq
          obtain ⟨db', heff, rfl⟩ := Option.map_eq_some_iff.mp hq
          rfl
  | unwatch =>
      cases hq
      rfl
  | other =>
      cases hq
      rfl

/-- The call of a procedure that has no effect phase broadcasts what is in
`rargv`. -/
theorem broadcast_none_faithful_iff (s : Session n) :
    (s.broadcast none).Faithful ↔ s.c.rargv = none := by
  unfold Called.Faithful Session.broadcast
  simp

-- ============================================================== scripts

/-- What is in `server.lua_client->rargv` was left by an accepted write. -/
def Session.LuaLeft (s : Session n) : Prop := ∀ r, s.lua = some r → r.Left

/-- One `redis.call`: if it comes to a `call`, that is faithful exactly if
no accepted write of a script went before. -/
theorem lua_faithful_iff {denied : Bool} (hs : s.LuaLeft)
    (h : s.luaRedisGenericCommand dbl others me argv denied = some (s', es)) :
    s'.c = s.c ∧ s'.LuaLeft ∧ ((∀ e ∈ es, e.Faithful) ↔
      (denied = false → scriptCommand others argv ≠ none → s.lua = none)) := by
  unfold Session.luaRedisGenericCommand at h
  split at h
  · next p hp =>
      obtain ⟨⟨s₁, e⟩, hcall, heq⟩ := Option.map_eq_some_iff.mp h
      obtain ⟨rfl, rfl⟩ := Prod.mk.inj heq
      refine ⟨rfl, ?_⟩
      rw [List.forall_mem_singleton, hp]
      cases hlua : s.lua with
      | none =>
          refine ⟨?_, iff_of_true ?_ fun _ _ => rfl⟩
          · cases call_null hlua hcall with
            | quiet _ hr _ =>
                exact fun r hleft => absurd (hleft.symm.trans hr) (Option.some_ne_none r)
            | accepted cmd db' own r _ hprep _ hr hargs =>
                exact fun r' hleft => Option.some.inj (hr.symm.trans hleft) ▸ .of_own hprep hargs
          · cases call_null hlua hcall with
            | quiet he _ _ => exact he ▸ ⟨rfl, rfl⟩
            | accepted _ _ _ _ _ _ he _ _ => exact he ▸ ⟨rfl, rfl⟩
      | some r =>
          obtain ⟨hnot, r', hr', hleft⟩ := call_left hlua (hs r hlua) hcall
          refine ⟨fun r'' hr'' => Option.some.inj (hr'.symm.trans hr'') ▸ hleft,
            iff_of_false hnot fun hcon => ?_⟩
          cases hcon rfl (Option.some_ne_none p)
  · next hnone =>
      cases h
      refine ⟨rfl, hs, iff_of_true (fun e he => absurd he List.not_mem_nil) fun hd hne => ?_⟩
      obtain ⟨p, hp⟩ := Option.ne_none_iff_exists'.mp hne
      exact absurd hp (hnone p hd)

variable (dbl others me) in
/-- Nothing that the script hands to `redis.call` comes to a `call` once a
script has called an accepted write. -/
def ScriptQuiet : Script n → Session n → Prop
  | .done, _ => True
  | .call argv denied next, s =>
      (denied = false → scriptCommand others argv ≠ none → s.lua = none) ∧
        ∀ q, s.luaRedisGenericCommand dbl others me argv denied = some q →
          ScriptQuiet (next q.1.db) q.1

/-- A whole script. -/
theorem runScript_faithful_iff {script : Script n} (hs : s.LuaLeft)
    (h : s.runScript dbl others me script = some (s', es)) :
    s'.c = s.c ∧ s'.LuaLeft ∧
      ((∀ e ∈ es, e.Faithful) ↔ ScriptQuiet dbl others me script s) := by
  induction script generalizing s es with
  | done =>
      cases h
      exact ⟨rfl, hs, iff_of_true (fun e he => absurd he List.not_mem_nil) trivial⟩
  | call argv denied next ih =>
      obtain ⟨⟨s₁, es₁⟩, hcall, h⟩ := Option.bind_eq_some_iff.mp h
      obtain ⟨⟨s₂, es₂⟩, hrest, heq⟩ := Option.map_eq_some_iff.mp h
      obtain ⟨rfl, rfl⟩ := Prod.mk.inj heq
      obtain ⟨hc₁, hs₁, hiff₁⟩ := lua_faithful_iff hs hcall
      obtain ⟨hc₂, hs₂, hiff₂⟩ := ih s₁.db hs₁ hrest
      refine ⟨hc₂.trans hc₁, hs₂, ?_⟩
      rw [List.forall_mem_append, ScriptQuiet, hcall]
      refine and_congr hiff₁ (hiff₂.trans ⟨fun hq q heq => ?_, fun hq => hq _ rfl⟩)
      cases heq
      exact hq

-- ================================================================= EXEC

variable (dbl others me) in
/-- The preparation of the command does not succeed, if it is a CRDT write;
its script is quiet, if it has one. -/
def EntryQuiet (p : Queued) (argv : List String) (s : Session n) : Prop :=
  match p with
  | .plain (.crdt cmd) =>
      ∀ db own, cmd.proc.prepare dbl me argv s.db ≠ some (db, .ok own)
  | .plain _ => True
  | .eval => ScriptQuiet dbl others me (others.script argv s.db) s

/-- A command of the queue that finds `rargv` NULL: it leaves it so, and its
calls are faithful, exactly if it is quiet. -/
theorem callQueued_quiet_iff {p : Queued} (hs : s.c.rargv = none) (hlua : s.LuaLeft)
    (h : s.callQueued dbl others me p argv = some (s', es)) :
    s'.LuaLeft ∧ (∀ r, s'.c.rargv = some r → r.Left) ∧
      ((∀ e ∈ es, e.Faithful) ∧ s'.c.rargv = none ↔ EntryQuiet dbl others me p argv s) := by
  cases p with
  | plain p =>
      obtain ⟨⟨s₁, e⟩, hcall, heq⟩ := Option.map_eq_some_iff.mp h
      obtain ⟨rfl, rfl⟩ := Prod.mk.inj heq
      refine ⟨fun r hr => hlua r (call_lua hcall ▸ hr), ?_⟩
      rw [List.forall_mem_singleton]
      cases call_null hs hcall with
      | quiet he hr hp =>
          refine ⟨fun r hr' => absurd (hr'.symm.trans hr) (Option.some_ne_none r), ?_⟩
          refine iff_of_true ⟨he ▸ ⟨rfl, rfl⟩, hr⟩ ?_
          cases p with
          | crdt cmd => exact fun db own => hp cmd db own rfl
          | unwatch => trivial
          | other => trivial
      | accepted cmd db' own r hp hprep he hr hargs =>
          subst hp
          refine ⟨fun r' hr' => Option.some.inj (hr.symm.trans hr') ▸ .of_own hprep hargs, ?_⟩
          refine iff_of_false (fun hcon => ?_) fun hcon => hcon db' own hprep
          rw [hr] at hcon
          cases hcon.2
  | eval =>
      obtain ⟨⟨s₁, es₁⟩, hscript, heq⟩ := Option.map_eq_some_iff.mp h
      obtain ⟨rfl, rfl⟩ := Prod.mk.inj heq
      obtain ⟨hc, hlua₁, hiff⟩ := runScript_faithful_iff hlua hscript
      have hnone : s₁.c.rargv = none := hc ▸ hs
      refine ⟨hlua₁, fun r hr => absurd (hr.symm.trans hnone) (Option.some_ne_none r), ?_⟩
      rw [List.forall_mem_append, List.forall_mem_singleton, broadcast_none_faithful_iff]
      refine ⟨fun hcon => hiff.mp hcon.1.1, fun hq => ⟨⟨hiff.mpr hq, hnone⟩, hnone⟩⟩

/-- A vector left in `rargv` stays there, or a longer one. -/
theorem callQueued_left {p : Queued} (hs : s.c.rargv = some r) (hr : r.Left) (hlua : s.LuaLeft)
    (h : s.callQueued dbl others me p argv = some (s', es)) :
    s'.LuaLeft ∧ ∃ r', s'.c.rargv = some r' ∧ r'.Left := by
  cases p with
  | plain p =>
      obtain ⟨⟨s₁, e⟩, hcall, heq⟩ := Option.map_eq_some_iff.mp h
      obtain ⟨rfl, rfl⟩ := Prod.mk.inj heq
      exact ⟨fun r hr => hlua r (call_lua hcall ▸ hr), (call_left hs hr hcall).2⟩
  | eval =>
      obtain ⟨⟨s₁, es₁⟩, hscript, heq⟩ := Option.map_eq_some_iff.mp h
      obtain ⟨rfl, rfl⟩ := Prod.mk.inj heq
      obtain ⟨hc, hlua₁, -⟩ := runScript_faithful_iff hlua hscript
      exact ⟨hlua₁, r, hc ▸ hs, hr⟩

variable {queue : List (Queued × List String)} {acl : List Bool} {v : Verdict}

/-- The loop of EXEC, taken apart. -/
theorem execLoop_cons {p : Queued}
    (h : Session.execLoop dbl others me ((p, argv) :: queue) acl s = some (s', es)) :
    acl.headD true = false ∧
        Session.execLoop dbl others me queue acl.tail s = some (s', es) ∨
      acl.headD true = true ∧ ∃ s₁ es₁ es₂,
        s.callQueued dbl others me p argv = some (s₁, es₁) ∧
        Session.execLoop dbl others me queue acl.tail s₁ = some (s', es₂) ∧ es = es₁ ++ es₂ := by
  rw [Session.execLoop] at h
  split_ifs at h with hacl
  · obtain ⟨⟨s₁, es₁⟩, hcall, h⟩ := Option.bind_eq_some_iff.mp h
    obtain ⟨⟨s₂, es₂⟩, hloop, heq⟩ := Option.map_eq_some_iff.mp h
    obtain ⟨rfl, rfl⟩ := Prod.mk.inj heq
    exact Or.inr ⟨hacl, s₁, es₁, es₂, hcall, hloop, rfl⟩
  · exact Or.inl ⟨Bool.eq_false_iff.mpr hacl, h⟩

theorem execLoop_left (hs : s.c.rargv = some r) (hr : r.Left) (hlua : s.LuaLeft)
    (h : Session.execLoop dbl others me queue acl s = some (s', es)) :
    s'.LuaLeft ∧ s'.c.rargv ≠ none := by
  induction queue generalizing s es acl r with
  | nil =>
      cases h
      exact ⟨hlua, fun hcon => absurd (hs.symm.trans hcon) (Option.some_ne_none r)⟩
  | cons c queue ih =>
      rcases execLoop_cons h with ⟨-, hloop⟩ | ⟨-, s₁, es₁, es₂, hcall, hloop, -⟩
      · exact ih hs hr hlua hloop
      · obtain ⟨hlua₁, r', hs₁, hr'⟩ := callQueued_left hs hr hlua hcall
        exact ih hs₁ hr' hlua₁ hloop

variable (dbl others me) in
/-- The commands of the queue that the access rights allow are quiet, when
they run in their order. -/
def QueueQuiet : List (Queued × List String) → List Bool → Session n → Prop
  | [], _, _ => True
  | (p, argv) :: queue, acl, s =>
      if acl.headD true then
        EntryQuiet dbl others me p argv s ∧
          ∀ q, s.callQueued dbl others me p argv = some q → QueueQuiet queue acl.tail q.1
      else QueueQuiet queue acl.tail s

/-- The loop of EXEC leaves `rargv` NULL, with faithful calls, exactly if
the queue is quiet. -/
theorem execLoop_quiet_iff (hs : s.c.rargv = none) (hlua : s.LuaLeft)
    (h : Session.execLoop dbl others me queue acl s = some (s', es)) :
    s'.LuaLeft ∧ ((∀ e ∈ es, e.Faithful) ∧ s'.c.rargv = none ↔
      QueueQuiet dbl others me queue acl s) := by
  induction queue generalizing s es acl with
  | nil =>
      cases h
      exact ⟨hlua, iff_of_true ⟨fun e he => absurd he List.not_mem_nil, hs⟩ trivial⟩
  | cons c queue ih =>
      rw [QueueQuiet]
      rcases execLoop_cons h with ⟨hacl, hloop⟩ | ⟨hacl, s₁, es₁, es₂, hcall, hloop, rfl⟩
      · rw [hacl]
        exact ih hs hlua hloop
      · rw [hacl, if_pos rfl, List.forall_mem_append, hcall]
        obtain ⟨hlua₁, hleft, hentry⟩ := callQueued_quiet_iff hs hlua hcall
        cases hs₁ : s₁.c.rargv with
        | none =>
            obtain ⟨hlua', hrest⟩ := ih hs₁ hlua₁ hloop
            refine ⟨hlua', ?_⟩
            rw [and_assoc, hrest, ← hentry, and_iff_left hs₁]
            refine and_congr_right fun _ => ⟨fun hq q heq => ?_, fun hq => hq _ rfl⟩
            cases heq
            exact hq
        | some r =>
            obtain ⟨hlua', hsome⟩ := execLoop_left hs₁ (hleft r hs₁) hlua₁ hloop
            refine ⟨hlua', iff_of_false (fun hcon => hsome hcon.2) fun hcon => ?_⟩
            have hnone := (hentry.mpr hcon.1).2
            rw [hs₁] at hnone
            cases hnone

/-- EXEC runs the queue: the transaction is open and nothing flagged it, no
script is timed out, and the server may write if the queue does. -/
def Client.Executes (others : Others n) (v : Verdict) (c : Client n) : Prop :=
  c.multi = true ∧ v.luaTimedout = false ∧ c.dirtyCas = false ∧ c.dirtyExec = false ∧
    (v.readOnly && c.mstate.any (isWrite others)) = false

/-- EXEC and the calls it makes. -/
theorem exec_faithful_iff (hs : s.c.rargv = none) (hlua : s.LuaLeft)
    (h : s.callRow dbl others me .exec argv v = some (s', es)) :
    s'.LuaLeft ∧ ((∀ e ∈ es, e.Faithful) ↔
      (s.c.Executes others v → QueueQuiet dbl others me s.c.mstate v.acl s)) := by
  obtain ⟨⟨s₁, es₁⟩, hexec, heq⟩ := Option.map_eq_some_iff.mp h
  obtain ⟨rfl, rfl⟩ := Prod.mk.inj heq
  -- the branches that do not run the queue
  have hnot : es₁ = [] → s₁.c.rargv = none → s₁.lua = s.lua → ¬ s.c.Executes others v →
      s₁.LuaLeft ∧ ((∀ e ∈ es₁ ++ [s₁.broadcast none], e.Faithful) ↔
        (s.c.Executes others v → QueueQuiet dbl others me s.c.mstate v.acl s)) := by
    rintro rfl hnone hsame hx
    refine ⟨fun r hr => hlua r (hsame ▸ hr), iff_of_true ?_ fun hcon => absurd hcon hx⟩
    exact List.forall_mem_singleton.mpr ((broadcast_none_faithful_iff _).mpr hnone)
  unfold Session.execCommand at hexec
  split_ifs at hexec with hmulti hbusy hdirty hreplica
  · cases hexec
    refine hnot rfl hs rfl fun hx => ?_
    rw [hx.1] at hmulti
    cases hmulti
  · cases hexec
    refine hnot rfl ?_ ?_ fun hx => ?_
    · unfold Session.flagTransaction
      split <;> exact hs
    · unfold Session.flagTransaction
      split <;> rfl
    · rw [hx.2.1] at hbusy
      cases hbusy
  · cases hexec
    refine hnot rfl hs rfl fun hx => ?_
    rw [hx.2.2.1, hx.2.2.2.1] at hdirty
    cases hdirty
  · cases hexec
    refine hnot rfl hs rfl fun hx => ?_
    rw [hx.2.2.2.2] at hreplica
    cases hreplica
  · obtain ⟨⟨s₂, es₂⟩, hloop, heq⟩ := Option.map_eq_some_iff.mp hexec
    obtain ⟨rfl, rfl⟩ := Prod.mk.inj heq
    obtain ⟨hlua', hiff⟩ := execLoop_quiet_iff hs hlua hloop
    have hx : s.c.Executes others v := by
      unfold Client.Executes
      grind
    refine ⟨hlua', ?_⟩
    rw [List.forall_mem_append, List.forall_mem_singleton, broadcast_none_faithful_iff]
    exact ⟨fun hall _ => hiff.mp hall, fun hq => hiff.mpr (hq hx)⟩

-- ============================================================== one input

variable (dbl others me) in
/-- The procedure of the client's command is quiet. -/
def RowQuiet (row : Row) (argv : List String) (v : Verdict) (s : Session n) : Prop :=
  match row with
  | .queued .eval => ScriptQuiet dbl others me (others.script argv s.db) s
  | .exec => s.c.Executes others v → QueueQuiet dbl others me s.c.mstate v.acl s
  | _ => True

/-- Every procedure that a client's command calls. -/
theorem callRow_faithful_iff {row : Row} (hs : s.c.rargv = none) (hlua : s.LuaLeft)
    (h : s.callRow dbl others me row argv v = some (s', es)) :
    s'.LuaLeft ∧ ((∀ e ∈ es, e.Faithful) ↔ RowQuiet dbl others me row argv v s) := by
  cases row with
  | queued p =>
      obtain ⟨hlua', hleft, hiff⟩ := callQueued_quiet_iff hs hlua h
      refine ⟨hlua', ?_⟩
      cases p with
      | plain p =>
          obtain ⟨⟨s₁, e⟩, hcall, heq⟩ := Option.map_eq_some_iff.mp h
          obtain ⟨rfl, rfl⟩ := Prod.mk.inj heq
          refine iff_of_true (List.forall_mem_singleton.mpr ?_) trivial
          cases call_null hs hcall with
          | quiet he _ _ => exact he ▸ ⟨rfl, rfl⟩
          | accepted _ _ _ _ _ _ he _ _ => exact he ▸ ⟨rfl, rfl⟩
      | eval =>
          obtain ⟨⟨s₁, es₁⟩, hscript, heq⟩ := Option.map_eq_some_iff.mp h
          obtain ⟨rfl, rfl⟩ := Prod.mk.inj heq
          have hnone : s₁.c.rargv = none := (runScript_faithful_iff hlua hscript).1 ▸ hs
          exact (and_iff_left hnone).symm.trans hiff
  | multi =>
      cases h
      refine ⟨?_, iff_of_true (List.forall_mem_singleton.mpr ?_) trivial⟩
      · split <;> exact hlua
      · rw [broadcast_none_faithful_iff]
        split <;> exact hs
  | exec => exact exec_faithful_iff hs hlua h
  | discard =>
      cases h
      refine ⟨?_, iff_of_true (List.forall_mem_singleton.mpr ?_) trivial⟩
      · split <;> exact hlua
      · rw [broadcast_none_faithful_iff]
        split <;> exact hs
  | watch =>
      cases h
      refine ⟨hlua, iff_of_true (List.forall_mem_singleton.mpr ?_) trivial⟩
      exact (broadcast_none_faithful_iff _).mpr hs

variable (others) in
/-- The procedure a client's command is handed to: its name is known, it has
the number of arguments, it is not turned down and not queued. -/
structure Dispatched (argv : List String) (v : Verdict) (s : Session n) (row : Row) : Prop where
  known : ∃ arity, lookupRow others (argv.getD 0 "") = some (row, arity) ∧
    wrongArity arity argv.length = false
  taken : v.denied = none
  now : ∀ p, row = .queued p → s.c.multi = false

theorem Dispatched.row_eq {row row' : Row} (h : Dispatched others argv v s row)
    (h' : Dispatched others argv v s row') : row = row' := by
  obtain ⟨arity, hlook, -⟩ := h.known
  obtain ⟨arity', hlook', -⟩ := h'.known
  exact (Prod.mk.inj (Option.some.inj (hlook.symm.trans hlook'))).1

/-- What a client's vector leads to: no call at all, or the call of the
procedure it is handed to; `rargv` is NULL afterwards. -/
theorem processCommand_cases (h : s.processCommand dbl others me argv v = some (s', es)) :
    s'.c.rargv = none ∧
      ((es = [] ∧ s'.lua = s.lua ∧ ∀ row, ¬ Dispatched others argv v s row) ∨
        ∃ row s₁, Dispatched others argv v s row ∧
          s.callRow dbl others me row argv v = some (s₁, es) ∧ s'.lua = s₁.lua) := by
  have hflag : s.flagTransaction.freeClientArgv.lua = s.lua := by
    unfold Session.flagTransaction
    split <;> rfl
  unfold Session.processCommand at h
  split at h
  · next hlook =>
      cases h
      refine ⟨rfl, .inl ⟨rfl, hflag, fun row hrow => ?_⟩⟩
      obtain ⟨arity, hknown, -⟩ := hrow.known
      cases hlook.symm.trans hknown
  · next row arity hlook =>
      have hlook' : ∀ row' arity', lookupRow others (argv.getD 0 "") = some (row', arity') →
          row' = row ∧ arity' = arity := by
        intro row' arity' hcon
        exact Prod.mk.inj (Option.some.inj (hcon.symm.trans hlook))
      split_ifs at h with harity
      · cases h
        refine ⟨rfl, .inl ⟨rfl, hflag, fun row' hrow => ?_⟩⟩
        obtain ⟨arity', hknown, har⟩ := hrow.known
        rw [(hlook' _ _ hknown).2, harity] at har
        cases har
      · split at h
        · next d hd =>
            cases h
            refine ⟨rfl, .inl ⟨rfl, ?_, fun row' hrow => ?_⟩⟩
            · cases d with
              | reply => rfl
              | flag => exact hflag
              | redirect =>
                  simp only [Session.deny]
                  split
                  · rfl
                  · exact hflag
            · rw [hrow.taken] at hd
              cases hd
        · next hd =>
            split at h
            · next p hmulti =>
                cases h
                refine ⟨rfl, .inl ⟨rfl, ?_, fun row' hrow => ?_⟩⟩
                · unfold Session.queueMultiCommand
                  split <;> rfl
                · obtain ⟨arity', hknown, -⟩ := hrow.known
                  have hnow := hrow.now p (hlook' _ _ hknown).1
                  rw [hmulti] at hnow
                  cases hnow
            · next row _ _ hqueued =>
                obtain ⟨⟨s₁, es₁⟩, hcall, heq⟩ := Option.map_eq_some_iff.mp h
                obtain ⟨rfl, rfl⟩ := Prod.mk.inj heq
                refine ⟨rfl, .inr ⟨row, s₁, ⟨⟨arity, hlook, ?_⟩, hd, fun p hp => ?_⟩, hcall, rfl⟩⟩
                · exact Bool.eq_false_iff.mpr harity
                · subst hp
                  exact Bool.eq_false_iff.mpr fun hmulti => hqueued p hmulti rfl

variable (dbl others me) in
/-- What the input makes the server run is quiet. -/
def Input.Quiet (i : Input n) (s : Session n) : Prop :=
  match i with
  | .command argv v => ∀ row, Dispatched others argv v s row → RowQuiet dbl others me row argv v s
  | .world _ _ => True
  | .script argv => ScriptQuiet dbl others me (others.script argv s.db) s

/-- One input to a client whose `rargv` is NULL. -/
theorem input_faithful_iff {i : Input n} (hs : s.c.rargv = none) (hlua : s.LuaLeft)
    (h : s.input dbl others me i = some (s', es)) :
    s'.c.rargv = none ∧ s'.LuaLeft ∧
      ((∀ e ∈ es, e.Faithful) ↔ i.Quiet dbl others me s) := by
  cases i with
  | command argv v =>
      obtain ⟨hnone, ⟨rfl, hsame, hnot⟩ | ⟨row, s₁, hrow, hcall, hsame⟩⟩ := processCommand_cases h
      · refine ⟨hnone, fun r hr => hlua r (hsame ▸ hr), iff_of_true ?_ ?_⟩
        · exact fun e he => absurd he List.not_mem_nil
        · exact fun row hrow => absurd hrow (hnot row)
      · obtain ⟨hlua₁, hiff⟩ := callRow_faithful_iff hs hlua hcall
        refine ⟨hnone, fun r hr => hlua₁ r (hsame ▸ hr), hiff.trans ⟨fun hq row' hrow' => ?_, ?_⟩⟩
        · exact hrow.row_eq hrow' ▸ hq
        · exact fun hq => hq row hrow
  | world db touched =>
      cases h
      exact ⟨hs, hlua, iff_of_true (fun e he => absurd he List.not_mem_nil) trivial⟩
  | script argv =>
      obtain ⟨hc, hlua', hiff⟩ := runScript_faithful_iff hlua h
      exact ⟨hc ▸ hs, hlua', hiff⟩

-- ================================================================== runs

variable (dbl others me) in
/-- No EXEC of the inputs executes a CRDT write whose preparation succeeds,
and no script calls anything after an accepted write of a script. -/
def Quiet : List (Input n) → Session n → Prop
  | [], _ => True
  | i :: rest, s =>
      i.Quiet dbl others me s ∧ ∀ q, s.input dbl others me i = some q → Quiet rest q.1

/-- Whatever a client sends, its accepted operations are one broadcast of
themselves each, and nothing else is broadcast, exactly if no EXEC executes
an accepted operation and no script goes on after one. -/
theorem one_broadcast_iff {ins : List (Input n)} (hs : s.c.rargv = none) (hlua : s.LuaLeft)
    (h : s.inputs dbl others me ins = some (s', es)) :
    (∀ e ∈ es, e.ran = e.own ∧ e.sent = e.own) ↔ Quiet dbl others me ins s := by
  induction ins generalizing s es with
  | nil =>
      cases h
      exact iff_of_true (fun e he => absurd he List.not_mem_nil) trivial
  | cons i ins ih =>
      obtain ⟨⟨s₁, es₁⟩, hin, h⟩ := Option.bind_eq_some_iff.mp h
      obtain ⟨⟨s₂, es₂⟩, hrest, heq⟩ := Option.map_eq_some_iff.mp h
      obtain ⟨rfl, rfl⟩ := Prod.mk.inj heq
      obtain ⟨hnone, hlua₁, hiff⟩ := input_faithful_iff hs hlua hin
      rw [List.forall_mem_append]
      refine and_congr hiff ((ih hnone hlua₁ hrest).trans ?_)
      rw [hin]
      refine ⟨fun hq q heq => ?_, fun hq => hq _ rfl⟩
      cases heq
      exact hq

end

/-- A server that knows no commands besides the CRDT writes, the transactions
and the scripts: EVAL hands the words behind its first three to
`redis.call`. -/
def noOthers : Others n :=
  ⟨fun _ => none, fun _ => false, fun _ db => db, fun argv _ =>
    .call (argv.drop 3) false fun _ => .done⟩

/-- An increment in a transaction is broadcast twice, by its own call and
by the call of EXEC: the server shows 6 and a replica that applies what it
was sent shows 11. An add in a script is broadcast again by the refused add
of the next script. -/
theorem broadcasts_again :
    (∃ (s : Session 2) (es : List (Called 2)) (db : Db 2) (add inc : List (Arg 2)),
      Session.inputs getLongLongFromObject noOthers 0
        [.command ["ozadd", "z", "a", "1"] {}, .command ["multi"] {},
          .command ["ozincrby", "z", "a", "5"] {}, .command ["exec"] {}] .new = some (s, es) ∧
      es.map Called.own = [some add, none, some inc, none] ∧
      es.map Called.sent = [some add, none, some inc, some inc] ∧
      scoreOf s.db "z" "a" = some (some 6) ∧
      (es.filterMap Called.sent).foldlM
        (fun db m => effectCommand getLongLongFromObject 1 m db) (fun _ => none) = some db ∧
      scoreOf db "z" "a" = some (some 11)) ∧
    ∃ (s : Session 2) (es : List (Called 2)) (add : List (Arg 2)),
      Session.inputs getLongLongFromObject noOthers 0
        [.command ["eval", "script", "0", "ozadd", "z", "a", "1"] {},
          .command ["eval", "script", "0", "ozadd", "z", "a", "2"] {}] .new = some (s, es) ∧
      es.map Called.own = [some add, none, none, none] ∧
      es.map Called.sent = [some add, none, some add, none] :=
  ⟨⟨_, _, _, _, _, rfl, rfl, rfl, by decide, rfl, by decide⟩, _, _, _, rfl, rfl, rfl⟩

/-- A transaction of a refused increment and a plain command, between
writes outside transactions; then a script with an add. -/
def refusedInputs : List (Input 2) :=
  [.command ["ozadd", "z", "a", "1"] {}, .command ["multi"] {},
    .command ["ozincrby", "z", "b", "5"] {}, .command ["unwatch"] {},
    .command ["exec"] {}, .command ["ozincrby", "z", "a", "5"] {},
    .command ["eval", "script", "0", "ozadd", "z", "c", "1"] {}]

theorem one_broadcast_refused :
    ∃ s es, Session.inputs getLongLongFromObject noOthers 0 refusedInputs .new = some (s, es) ∧
      scoreOf s.db "z" "a" = some (some 6) ∧ s.lua.isSome ∧
      ((∀ e ∈ es, e.ran = e.own ∧ e.sent = e.own) ↔
        Quiet getLongLongFromObject noOthers 0 refusedInputs .new) := by
  obtain ⟨s, es, hrun, hscore, hlua⟩ : ∃ s es,
      Session.inputs getLongLongFromObject noOthers 0 refusedInputs .new = some (s, es) ∧
      scoreOf s.db "z" "a" = some (some 6) ∧ s.lua.isSome := ⟨_, _, rfl, by decide, rfl⟩
  refine ⟨s, es, hrun, hscore, hlua, one_broadcast_iff rfl (fun r hr => ?_) hrun⟩
  cases hr

end CrdtRedis
