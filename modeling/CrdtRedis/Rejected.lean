/-
What a refused CRDT write leaves behind.

A preparation that answers with an error is done before it writes, with
one exception. The preparation of a list insert makes the record of the
oid, and the hash of the list, before it looks at the predecessor `readd`;
an oid it has just made was never added, so the insert is refused and the
key stays (`ListKind.ReaddsUnknown`).

Nothing of a refused command is broadcast, but `call` broadcasts whatever
is in `rargv`. A command queued after an accepted write of the same
transaction finds the vector of that write there, and so does every call of
a script after an accepted write of a script. Both exceptions are read off
the state before the command (`rejected_no_trace_iff`).
-/
import CrdtRedis.Broadcast
import CrdtRedis.ListChain
import CrdtRedis.ListObject

namespace CrdtRedis

variable {n : ℕ} {E R : Type} {me : Fin n} {dbl : String → Option ℤ}

-- ================================================== element commands

/-- Where the record is there already, `rehHTGet` writes nothing. -/
theorem Table.get_create {T : Table n R} {db db' : Db n} {tname key : String} {create : Bool}
    {res : Option (Hash n × R)} (hget : T.get me db tname key create = some (db', res)) :
    db' = db ∨ create = true ∧ res.map Prod.snd = some (T.new me) := by
  cases T.fetched hget with
  | found _ _ _ => exact Or.inl rfl
  | missing _ => exact Or.inl rfl
  | made _ _ => exact Or.inr ⟨rfl, rfl⟩

/-- A command that accepts a new record changes nothing when it refuses. -/
theorem ElemCommand.runPrepare_error_eq (dbl : String → Option ℤ)
    {cmd : ElemCommand n R} {T : Table n R} {db db' : Db n} {argv : List String} {reply : Reply}
    (hnew : cmd.create = true → ∀ reply, cmd.prepare me (some (T.new me)) ≠ .error reply)
    (hp : cmd.runPrepare T dbl me argv db = some (db', .error reply)) : db' = db := by
  have hsame : ∀ {r r' : Except Reply (List (Arg n))}, some (db, r) = some (db', r') →
      db' = db := fun heq => (Prod.mk.inj (Option.some.inj heq)).1.symm
  unfold ElemCommand.runPrepare at hp
  split at hp
  · exact hsame hp
  · dsimp only at hp
    split at hp
    · exact hsame hp
    · split at hp
      · exact hsame hp
      · obtain ⟨⟨db₁, res⟩, hget, heq⟩ := Option.map_eq_some_iff.mp hp
        rcases Table.get_create hget with rfl | ⟨hcreate, hres⟩
        · split at heq
          · exact (Prod.mk.inj heq).1.symm
          · cases (Prod.mk.inj heq).2
          · cases (Prod.mk.inj heq).2
        · dsimp only at heq
          split at heq
          · next reply' hprep =>
              rw [hres] at hprep
              exact absurd hprep (hnew hcreate reply')
          · cases (Prod.mk.inj heq).2
          · cases (Prod.mk.inj heq).2

-- ===================================================== list commands

/-- The value under a field of a list that may not exist. -/
def fieldOf (ho : Option (Hash n)) (field : String) : Option (Value n) :=
  ho.bind fun h => h.fields field

/-- The predecessor word of an insert stands for `readd`, as `strcmp` sees
it: the list has nothing under it and it is that word in any case, or it is
the word itself and names an element that can be a predecessor. -/
def ListKind.NamesReadd (K : ListKind n E) (lookup : ListRec E → Bool) (pre : String)
    (ho : Option (Hash n)) : Prop :=
  fieldOf ho pre = none ∧ cText (sdstolower pre) = "readd" ∨
    cText pre = "readd" ∧ ∃ h a e, ho = some h ∧ K.find h pre = some (some a) ∧
      K.heap h a = some e ∧ lookup e = true ∧ e.posId.isSome

/-- An insert that asks to add again an oid the list has nothing under. -/
def ListKind.ReaddsUnknown (K : ListKind n E) (lookup : ListRec E → Bool)
    (argv : List String) (ho : Option (Hash n)) : Prop :=
  fieldOf ho (argv.getD 3 "") = none ∧ K.NamesReadd lookup (argv.getD 2 "") ho

namespace ListKind

variable {K : ListKind n E} {lookup : ListRec E → Bool} {ho : Option (Hash n)}
  {pre oid preArg : String}

/-- The predecessor word an insert goes on with. -/
theorem checkPre_readd_iff :
    (∃ p w, K.checkPre lookup ho pre = some (.ok (p, w)) ∧ cText w = "readd") ↔
      K.NamesReadd lookup pre ho := by
  have hmissing : (∃ p w, checkPre.missing (E := E) pre = .ok (p, w) ∧ cText w = "readd") ↔
      cText (sdstolower pre) = "readd" := by
    simp only [checkPre.missing]
    split
    · next hne => simp [hne.2]
    · simp
  cases ho with
  | none => simp [checkPre, NamesReadd, fieldOf, hmissing]
  | some h =>
      cases hf : h.fields pre with
      | none => simp [checkPre, NamesReadd, fieldOf, find, hf, hmissing]
      | some v =>
          cases hv : K.unptr v with
          | none => simp [checkPre, NamesReadd, fieldOf, find, hf, hv]
          | some a =>
              cases he : K.heap h a with
              | none => simp [checkPre, NamesReadd, fieldOf, find, hf, hv, he]
              | some e =>
                  have hfind : K.find h pre = some (some a) := by simp [find, hf, hv]
                  have hcheck : K.checkPre lookup (some h) pre
                      = some (if lookup e && e.posId.isSome then .ok (some e, pre)
                        else .error (.noPre pre)) := by
                    simp [checkPre, hfind, he]
                  have hnot : ¬ (fieldOf (some h) pre = none ∧
                      cText (sdstolower pre) = "readd") := by
                    simp [fieldOf, hf]
                  rw [hcheck]
                  by_cases hok : (lookup e && e.posId.isSome) = true
                  · rw [if_pos hok]
                    refine ⟨fun hex => Or.inr ?_, fun hcon => ?_⟩
                    · obtain ⟨p, w, hp, hw⟩ := hex
                      injection hp with hp
                      injection hp with hp
                      exact ⟨(Prod.mk.inj hp).2 ▸ hw, h, a, e, rfl, hfind, he,
                        Bool.and_eq_true_iff.mp hok⟩
                    · exact ⟨some e, pre, rfl, (hcon.resolve_left hnot).1⟩
                  · rw [if_neg hok]
                    refine iff_of_false (fun hex => ?_) fun hcon => ?_
                    · obtain ⟨p, w, hp, -⟩ := hex
                      cases Option.some.inj hp
                    · obtain ⟨-, h', a', e', hh, hfind', he', hok'⟩ := hcon.resolve_left hnot
                      obtain rfl := Option.some.inj hh
                      rw [hfind] at hfind'
                      obtain rfl := Option.some.inj (Option.some.inj hfind')
                      rw [he] at he'
                      obtain rfl := Option.some.inj he'
                      exact hok (Bool.and_eq_true_iff.mpr hok')

/-- The record an insert works on: new, in a hash that differs from the
one before, or found, with the hash as it was. -/
theorem findOrCreate_fieldOf (hK : K.Lawful) {p : Hash n × String} {e : ListRec E}
    (hget : K.findOrCreate me (ho.getD .empty) oid = some p) (he : K.heap p.1 p.2 = some e) :
    fieldOf ho oid = none ∧ e = ListRec.new (K.new me) ∧ some p.1 ≠ ho ∨
      (fieldOf ho oid).isSome ∧ some p.1 = ho := by
  have hfield : fieldOf ho oid = (ho.getD .empty).fields oid := by
    cases ho <;> rfl
  rcases findOrCreate_cases hK hget with ⟨v, hv, -, heq⟩ | ⟨hnone, haddr, hheap, hfields, -⟩
  · refine Or.inr ⟨by rw [hfield, hv]; rfl, ?_⟩
    cases ho with
    | none => cases hv
    | some h => rw [heq]; rfl
  · rw [haddr, hheap, Function.update_self] at he
    refine Or.inl ⟨hfield.trans hnone, (Option.some.inj he).symm, ?_⟩
    intro hcon
    rw [← hcon, Option.getD_some] at hnone
    rw [hfields, ← hcon, Option.getD_some, Function.update_self] at hnone
    cases hnone

/-- Where an insert is refused for its position. -/
theorem placeAt_error {count : Vc n → Vc n} {h h' : Hash n} {p : Option (ListRec E)}
    {e : ListRec E} {reply : Reply}
    (hplace : K.placeAt me count h p preArg oid e = some (h', .error reply)) :
    h' = h ∧ (e.oid = none → cText preArg = "readd") := by
  unfold placeAt at hplace
  cases ho : e.oid with
  | none =>
      rw [ho] at hplace
      dsimp only at hplace
      split at hplace
      · next hre =>
          exact ⟨(Prod.mk.inj (Option.some.inj hplace)).1.symm, fun _ => hre⟩
      · obtain ⟨b, -, hplace⟩ := Option.bind_eq_some_iff.mp hplace
        obtain ⟨q, -, heq⟩ := Option.map_eq_some_iff.mp hplace
        cases (Prod.mk.inj heq).2
  | some o =>
      rw [ho] at hplace
      dsimp only at hplace
      split at hplace
      · exact ⟨(Prod.mk.inj (Option.some.inj hplace)).1.symm, fun hcon => nomatch hcon⟩
      · obtain ⟨pos, -, heq⟩ := Option.map_eq_some_iff.mp hplace
        cases (Prod.mk.inj heq).2

/-- The refusals of an insert, from the predecessor word on: those with a
record that was found leave the hash as it was, those with a new one ask
to add it again. -/
theorem refused_iff (hK : K.Lawful) (hnew : lookup (ListRec.new (K.new me)) = false)
    {argv : List String} {p : Option (ListRec E)} {q : Hash n × String} {e : ListRec E}
    (hpre : K.checkPre lookup ho (argv.getD 2 "") = some (.ok (p, preArg)))
    (hget : K.findOrCreate me (ho.getD .empty) (argv.getD 3 "") = some q)
    (he : K.heap q.1 q.2 = some e)
    (hrefused : lookup e = true ∨ (e.oid = none → cText preArg = "readd")) :
    some q.1 = ho ↔ ¬ K.ReaddsUnknown lookup argv ho := by
  rcases findOrCreate_fieldOf hK hget he with ⟨hnone, rfl, hne⟩ | ⟨hsome, heq⟩
  · refine iff_of_false hne fun hcon => hcon ⟨hnone, ?_⟩
    rcases hrefused with hshown | hreadd
    · rw [hnew] at hshown
      cases hshown
    · exact checkPre_readd_iff.mp ⟨p, preArg, hpre, hreadd rfl⟩
  · refine iff_of_true heq fun hcon => ?_
    rw [hcon.1] at hsome
    cases hsome

/-- A predecessor word that is refused does not stand for `readd`. -/
theorem not_readdsUnknown {argv : List String} {reply : Reply}
    (hpre : K.checkPre lookup ho (argv.getD 2 "") = some (.error reply)) :
    ¬ K.ReaddsUnknown lookup argv ho := by
  intro hcon
  obtain ⟨p, w, hp, -⟩ := checkPre_readd_iff.mpr hcon.2
  rw [hpre] at hp
  cases Option.some.inj hp

/-- A refused insert leaves the list as it was unless it asks to add an
unknown element again. -/
theorem InsertPrepared.error_iff (hK : K.Lawful)
    (hnew : lookup (ListRec.new (K.new me)) = false) {argv : List String}
    {count : Vc n → Vc n} {stamp : Hash n → ListRec E → Option (Hash n × Vc n)}
    {ho' : Option (Hash n)} {reply : Reply}
    (h : K.InsertPrepared lookup me argv ho count stamp ho' (.error reply)) :
    ho' = ho ↔ ¬ K.ReaddsUnknown lookup argv ho := by
  cases h with
  | noPre hpre => exact iff_of_true rfl (not_readdsUnknown hpre)
  | shown hat hshown => exact refused_iff hK hnew hat.pre hat.get hat.heap (Or.inl hshown)
  | noPlace hat _ hplace =>
      obtain ⟨rfl, hreadd⟩ := placeAt_error hplace
      exact refused_iff hK hnew hat.pre hat.get hat.heap (Or.inr hreadd)

/-- A refused update or remove leaves the list as it was. -/
theorem NonAddPrepared.error_eq {append : Hash n → ListRec E → Option (Hash n × List (Arg n))}
    {sent argv : List String} {ho' : Option (Hash n)} {reply : Reply}
    (h : K.NonAddPrepared lookup argv ho append sent ho' (.error reply)) : ho' = ho := by
  cases h
  rfl

end ListKind

-- ========================================================== the frame

/-- A vector that passes `CHECK_ARGC`, `CHECK_CONTAINER_TYPE` and the
checks of its arguments. -/
structure ListCommand.Checked (lc : ListCommand n) (dbl : String → Option ℤ)
    (argv : List String) (db : Db n) : Prop where
  argc : 2 ≤ argv.length ∧ argv.length ≤ lc.maxArgc
  container : ∀ m, db (argv.getD 1 "") ≠ some (.zset m)
  args : failedCheck dbl lc.checks argv = none

/-- What a refused list command leaves, from what its own part of the
preparation leaves. -/
theorem ListCommand.runPrepare_error_iff {lc : ListCommand n} {db db' : Db n}
    {leaves : Option (Hash n) → Prop}
    (hlc : ∀ {ho ho' reply}, lc.prepare me argv ho = some (ho', .error reply) →
      (ho' = ho ↔ ¬ leaves ho))
    (hp : lc.runPrepare dbl me argv db = some (db', .error reply)) :
    db' = db ↔ ¬ (lc.Checked dbl argv db ∧
      leaves (ListCommand.hashAt db (argv.getD 1 ""))) := by
  have hsame : ∀ {r r' : Except Reply (List (Arg n))}, some (db, r) = some (db', r') →
      db' = db := fun heq => (Prod.mk.inj (Option.some.inj heq)).1.symm
  unfold ListCommand.runPrepare at hp
  split at hp
  · next hargc =>
      refine iff_of_true (hsame hp) fun hcon => ?_
      rcases hargc with hgt | hlt
      · exact absurd hcon.1.argc.2 (not_le.mpr hgt)
      · exact absurd hcon.1.argc.1 (not_le.mpr hlt)
  · next hargc =>
      rw [not_or, not_lt, not_lt] at hargc
      dsimp only at hp
      split at hp
      · next m hm => exact iff_of_true (hsame hp) fun hcon => hcon.1.container m hm
      · next hcontainer =>
          split at hp
          · next r hfailed =>
              refine iff_of_true (hsame hp) fun hcon => ?_
              rw [hcon.1.args] at hfailed
              cases hfailed
          · next hargs =>
              obtain ⟨⟨ho, res⟩, hprep, heq⟩ := Option.map_eq_some_iff.mp hp
              obtain ⟨rfl, rfl⟩ := Prod.mk.inj heq
              have hchecked : lc.Checked dbl argv db := ⟨hargc.symm, hcontainer, hargs⟩
              rw [and_iff_right hchecked, ← hlc hprep]
              refine ⟨fun heq => ?_, ?_⟩
              · have hat : ListCommand.hashAt (Function.update db (argv.getD 1 "")
                    (ho.map .hash)) (argv.getD 1 "") = ho := ListType.hashAt_update_self ho
                rw [heq] at hat
                exact hat.symm
              · intro hsame'
                subst hsame'
                refine Function.update_eq_self_iff.mpr ?_
                unfold ListCommand.hashAt
                split
                · next h hh => exact hh.symm
                · next hno =>
                    cases hdb : db (argv.getD 1 "") with
                    | none => rfl
                    | some o =>
                        cases o with
                        | zset m => exact absurd hdb (hcontainer m)
                        | hash h => exact absurd hdb (hno h)

/-- A list command whose own part of the preparation leaves nothing when
it refuses. -/
theorem ListCommand.runPrepare_error_eq (dbl : String → Option ℤ) {lc : ListCommand n}
    {db db' : Db n}
    (hlc : ∀ {ho ho' reply}, lc.prepare me argv ho = some (ho', .error reply) → ho' = ho)
    (hp : lc.runPrepare dbl me argv db = some (db', .error reply)) : db' = db := by
  have hnever : ∀ {ho ho' reply}, lc.prepare me argv ho = some (ho', .error reply) →
      (ho' = ho ↔ ¬ (fun _ : Option (Hash n) => False) ho) :=
    fun h => iff_of_true (hlc h) id
  exact (ListCommand.runPrepare_error_iff hnever hp).mpr fun hcon => hcon.2

/-- The refused commands that leave a record behind. -/
def Cmd.LeavesRecord (dbl : String → Option ℤ) (cmd : Cmd) (argv : List String)
    (db : Db n) : Prop :=
  match cmd with
  | .rlinsert =>
      (rlinsertCommand (n := n)).Checked dbl argv db ∧
        rleKind.ReaddsUnknown Rle.lookup argv (ListCommand.hashAt db (argv.getD 1 ""))
  | .rwflinsert =>
      (rwflinsertCommand (n := n)).Checked dbl argv db ∧
        rwfleKind.ReaddsUnknown Rwfl.exist argv (ListCommand.hashAt db (argv.getD 1 ""))
  | _ => False

/-- What a refused preparation does to the database. -/
theorem Cmd.prepare_error_iff {cmd : Cmd} {db db' : Db n}
    (hp : cmd.proc.prepare dbl me argv db = some (db', .error reply)) :
    db' = db ↔ ¬ cmd.LeavesRecord dbl argv db := by
  cases cmd with
  | rlinsert =>
      exact ListCommand.runPrepare_error_iff
        (fun h => (Rl.insertPrepare_cases h).error_iff rleKind_lawful rfl) hp
  | rwflinsert =>
      exact ListCommand.runPrepare_error_iff
        (fun h => (Rwfl.insertPrepare_cases h).error_iff rwfleKind_lawful rfl) hp
  | rlupdate | rlrem =>
      exact iff_of_true (ListCommand.runPrepare_error_eq dbl
        (fun h => (Rl.nonAddPrepare_cases h).error_eq) hp) id
  | rwflupdate =>
      refine iff_of_true (ListCommand.runPrepare_error_eq dbl (fun h => ?_) hp) id
      dsimp only [rwflupdateCommand] at h
      exact (Rwfl.nonAddPrepare_cases h).error_eq
  | rwflrem =>
      refine iff_of_true (ListCommand.runPrepare_error_eq dbl (fun h => ?_) hp) id
      dsimp only [rwflremCommand] at h
      exact (Rwfl.nonAddPrepare_cases h).error_eq
  | ozadd | rzadd | rwfzadd | rwfsadd | osadd =>
      refine iff_of_true (ElemCommand.runPrepare_error_eq dbl (fun _ _ hcon => ?_) hp) id
      cases hcon
  | _ =>
      refine iff_of_true (ElemCommand.runPrepare_error_eq dbl (fun hcreate => ?_) hp) id
      cases hcreate

/-- A refused CRDT write leaves the database as it was and broadcasts
nothing, unless it is an insert that asks to add again an oid the list has
nothing under, or an accepted write of the same transaction, or for the
client of the scripts of any script, left its vector in `rargv`. -/
theorem rejected_no_trace_iff (others : Others n) {cmd : Cmd} {s : Session n} {db' : Db n}
    (hp : cmd.proc.prepare dbl me argv s.db = some (db', .error reply)) :
    ∃ s' called, s.call dbl others me (.crdt cmd) argv = some (s', called) ∧
      s'.c = s.c ∧ called.own = none ∧ called.ran = none ∧
      (s'.db = s.db ∧ called.sent = none ↔
        ¬ cmd.LeavesRecord dbl argv s.db ∧ s.c.rargv = none) := by
  refine ⟨{ s with db := db' }, Session.broadcast { s with db := db' } none, ?_, rfl, rfl, rfl, ?_⟩
  · simp [Session.call, Session.proc, hp]
  · refine and_congr (Cmd.prepare_error_iff hp) ?_
    simp [Session.broadcast]

/-- On an empty server, a refused insert makes the key of its list, and
the key then refuses a command of another type. In a transaction, a
refused add broadcasts the vector of the add before it again. -/
theorem rejected_insert_leaves_key :
    (∃ (db : Db 2) (reply : Reply),
      prepareCommand getLongLongFromObject 0
        ["rlinsert", "l", "readd", "a", "x", "1", "1", "1", "0"] (fun _ => none)
        = some (db, .error reply) ∧
      (db "l").isSome ∧
      prepareCommand getLongLongFromObject 0 ["ozadd", "l", "a", "1"] db
        = some (db, .error .wrongtypeerr)) ∧
    ∃ (s : Session 2) (es : List (Called 2)) (add : List (Arg 2)),
      Session.inputs getLongLongFromObject noOthers 0
        [.command ["multi"] {}, .command ["rwfsadd", "s", "1"] {},
          .command ["rwfsadd", "s", "1"] {}, .command ["exec"] {}] .new = some (s, es) ∧
      es.map Called.own = [none, some add, none, none] ∧
      es.map Called.sent = [none, some add, some add, some add] :=
  ⟨⟨_, _, rfl, rfl, rfl⟩, _, _, _, rfl, rfl, rfl⟩

/-- An insert that names a predecessor the list does not have. -/
theorem rejected_no_trace_missing :
    ∃ s' called, Session.call getLongLongFromObject noOthers (0 : Fin 2) (.crdt .rlinsert)
        ["rlinsert", "l", "b", "a", "x", "1", "1", "1", "0"] .new = some (s', called) ∧
      (s'.db = (fun _ => none) ∧ called.sent = none ↔
        ¬ Cmd.LeavesRecord getLongLongFromObject .rlinsert
          ["rlinsert", "l", "b", "a", "x", "1", "1", "1", "0"] (fun _ => none : Db 2) ∧
        (Client.new (n := 2)).rargv = none) := by
  obtain ⟨db', reply, hp⟩ : ∃ db' reply, Cmd.rlinsert.proc.prepare getLongLongFromObject
      (0 : Fin 2) ["rlinsert", "l", "b", "a", "x", "1", "1", "1", "0"]
      (Session.db .new) = some (db', .error reply) := ⟨_, _, rfl⟩
  obtain ⟨s', called, hcall, -, -, -, hiff⟩ := rejected_no_trace_iff noOthers hp
  exact ⟨s', called, hcall, hiff⟩

end CrdtRedis
