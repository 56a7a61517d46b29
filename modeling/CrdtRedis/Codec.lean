/-
The texts of a broadcast vector and how the servers read them: what
`RARGV_ADD_SDS` appends to `rargv`, and the conversions at the head of
the effects.

A vector starts with the words of the client. Behind them stand the times
and identifiers the preparation appended, each as a string; the effect of
a command converts the argument at a position with the function for the
type it expects there (`Cmd.argKind`). An accepted vector has the types
its own effect expects, at every position (`prepareCommand_typed`), so the
conversions give back what the preparation appended
(`broadcast_round_trip`), as long as the numbers are those of an `int` and
the static buffers are long enough (`Arg.Sendable`).

The effects run on such strings at the server that accepted the command,
too: `applyVector` is the one way to apply a vector.
-/
import CrdtRedis.Stored
import CrdtRedis.Wire

namespace CrdtRedis

open CString

variable {n : ℕ}

-- =========================================================== the types

/-- What an argument is converted to. -/
inductive ArgKind
  | str | vc | lc | leid
deriving DecidableEq

def Arg.kind : Arg n → ArgKind
  | .str _ => .str
  | .vc _ => .vc
  | .lc _ => .lc
  | .leid _ => .leid

/-- What the effect of a command converts the `j`-th argument behind the
words to. -/
def Cmd.addedKind (c : Cmd) (j : ℕ) : ArgKind :=
  match c with
  | .ozadd | .ozincrby | .ozrem | .osadd | .osrem => .lc
  | .rlinsert | .rwflinsert => if j = 0 then .leid else .vc
  | .rwflupdate => if j = 0 then .lc else .vc
  | .rzadd | .rzincrby | .rzrem | .rwfzadd | .rwfzincrby | .rwfzrem => .vc
  | .rwfsadd | .rwfsrem | .rlupdate | .rlrem | .rwflrem => .vc

/-- What the effect of a command converts argument `i` to. -/
def Cmd.argKind (c : Cmd) (i : ℕ) : ArgKind :=
  if i < c.arity then .str else c.addedKind (i - c.arity)

theorem Cmd.argKind_word (c : Cmd) {i : ℕ} (h : i < c.arity) : c.argKind i = .str := if_pos h

theorem Cmd.argKind_added (c : Cmd) (j : ℕ) : c.argKind (c.arity + j) = c.addedKind j := by
  rw [Cmd.argKind, if_neg (by omega), Nat.add_sub_cancel_left]

/-- The arguments from position `i` on are of the types the effect of the
command converts them to. -/
def Cmd.Typed (c : Cmd) (i : ℕ) (args : List (Arg n)) : Prop :=
  ∀ j a, args[j]? = some a → a.kind = c.argKind (i + j)

variable {c : Cmd} {args rargv : List (Arg n)} {argv words : List String}

theorem Cmd.Typed.head {i : ℕ} {a : Arg n} (h : c.Typed i (a :: args)) :
    a.kind = c.argKind i := h 0 a rfl

theorem Cmd.Typed.tail {i : ℕ} {a : Arg n} (h : c.Typed i (a :: args)) : c.Typed (i + 1) args := by
  intro j b hb
  rw [h (j + 1) b hb, Nat.add_assoc, Nat.add_comm 1 j]

theorem Cmd.Typed.cons {i : ℕ} {a : Arg n} (ha : a.kind = c.argKind i)
    (h : c.Typed (i + 1) args) : c.Typed i (a :: args) := by
  intro j b hb
  cases j with
  | zero => exact Option.some.inj hb ▸ ha
  | succ j => rw [h j b hb, Nat.add_assoc, Nat.add_comm 1 j]

theorem Cmd.typed_nil (c : Cmd) (i : ℕ) : c.Typed i ([] : List (Arg n)) := by
  intro j a ha
  cases ha

/-- The words of a client and what stands behind them. -/
theorem Cmd.typed_words (hlen : words.length = c.arity) (h : c.Typed c.arity args) :
    c.Typed 0 (words.map Arg.str ++ args) := by
  intro j a ha
  rw [Nat.zero_add]
  by_cases hj : j < words.length
  · rw [List.getElem?_append_left (by simpa using hj), List.getElem?_map,
      List.getElem?_eq_getElem hj] at ha
    rw [← Option.some.inj ha, c.argKind_word (hlen ▸ hj)]
    rfl
  · rw [List.getElem?_append_right (by simpa using hj), List.length_map] at ha
    rw [h _ a ha, ← hlen, Nat.add_sub_cancel' (not_lt.mp hj)]

/-- One time behind the words. -/
theorem Cmd.typed_vc (h : c.addedKind 0 = .vc) (t : Vc n) : c.Typed c.arity [.vc t] :=
  .cons (h.symm.trans (c.argKind_added 0).symm) (c.typed_nil _)

/-- Something and a time behind the words. -/
theorem Cmd.typed_pair {a : Arg n} (ha : a.kind = c.addedKind 0) (h : c.addedKind 1 = .vc)
    (t : Vc n) : c.Typed c.arity [a, .vc t] :=
  .cons (ha.trans (c.argKind_added 0).symm)
    (.cons (h.symm.trans (c.argKind_added 1).symm) (c.typed_nil _))

theorem ElemSends.typed {A : Type} {T : Table n A} {cmd : ElemCommand n A}
    (hproc : (c.proc : Proc n) = .elem T cmd) (h : ElemSends c args) : c.Typed c.arity args := by
  cases h with
  | lcs hc l _ =>
      intro j a ha
      rw [List.getElem?_map] at ha
      obtain ⟨t, -, rfl⟩ := Option.map_eq_some_iff.mp ha
      rw [c.argKind_added]
      cases c <;> first | rfl | cases hc
  | vc hc t =>
      refine c.typed_vc ?_ t
      cases c <;> first | rfl | cases hproc <;> cases hc

theorem ElemSends.ne_nil (h : ElemSends c args) : args ≠ [] := by
  cases h with
  | lcs _ l hl => exact mt List.map_eq_nil_iff.mp hl
  | vc _ t => exact List.cons_ne_nil _ _

/-- No command takes more words than it has to have. -/
theorem Cmd.elem_maxArgc {A : Type} {T : Table n A} {cmd : ElemCommand n A}
    (hproc : (c.proc : Proc n) = .elem T cmd) : cmd.maxArgc = c.arity := by
  cases c <;> cases hproc <;> rfl

theorem Cmd.list_maxArgc {lc : ListCommand n} (hproc : (c.proc : Proc n) = .list lc) :
    lc.maxArgc = c.arity := by
  cases c <;> cases hproc <;> rfl

section Prepare

variable {dbl : String → Option ℤ} {me : Fin n} {db db' : Db n}

theorem ElemCommand.runPrepare_argc {A : Type} {T : Table n A} {cmd : ElemCommand n A}
    (hp : cmd.runPrepare T dbl me argv db = some (db', .ok rargv)) :
    argv.length ≤ cmd.maxArgc := by
  by_contra hlt
  rw [ElemCommand.runPrepare, if_pos (Or.inl (not_le.mp hlt))] at hp
  cases (Prod.mk.inj (Option.some.inj hp)).2

theorem ListCommand.runPrepare_argc {lc : ListCommand n}
    (hp : lc.runPrepare dbl me argv db = some (db', .ok rargv)) : argv.length ≤ lc.maxArgc := by
  by_contra hlt
  rw [ListCommand.runPrepare, if_pos (Or.inl (not_le.mp hlt))] at hp
  cases (Prod.mk.inj (Option.some.inj hp)).2

theorem ListKind.InsertPrepared.typed {E : Type} {K : ListKind n E}
    {lookup : ListRec E → Bool} {ho ho' : Option (Hash n)} {count : Vc n → Vc n}
    {stamp : Hash n → ListRec E → Option (Hash n × Vc n)}
    (hp : K.InsertPrepared lookup me argv ho count stamp ho' (.ok rargv))
    (hleid : c.addedKind 0 = .leid) (hvc : c.addedKind 1 = .vc) :
    ∃ (words : List String) (args : List (Arg n)), rargv = words.map Arg.str ++ args ∧
      words.length = argv.length ∧ words.getD 0 "" = argv.getD 0 "" ∧ args ≠ [] ∧
      c.Typed c.arity args := by
  cases hp with
  | placed _ _ _ _ =>
      refine ⟨_, _, rfl, List.length_set, ?_, List.cons_ne_nil _ _,
        Cmd.typed_pair (show Arg.kind (.leid _) = c.addedKind 0 from hleid.symm) hvc _⟩
      simp [List.getD_eq_getElem?_getD]

/-- What an accepted list command broadcasts. -/
theorem Cmd.list_prepare_typed {lc : ListCommand n} (hproc : (c.proc : Proc n) = .list lc)
    {ho ho' : Option (Hash n)} (hp : lc.prepare me argv ho = some (ho', .ok rargv)) :
    ∃ (words : List String) (args : List (Arg n)), rargv = words.map Arg.str ++ args ∧
      words.length = argv.length ∧ words.getD 0 "" = argv.getD 0 "" ∧ args ≠ [] ∧
      c.Typed c.arity args := by
  have hset : ∀ s : String, (argv.set 3 s).getD 0 "" = argv.getD 0 "" := by
    intro s
    simp [List.getD_eq_getElem?_getD]
  cases c <;> cases hproc
  case rlinsert =>
    exact (Rl.insertPrepare_cases hp).typed rfl rfl
  case rlupdate =>
    obtain ⟨t, rfl⟩ := Rl.nonAddPrepare_sends hp
    exact ⟨_, _, rfl, List.length_set, hset _, List.cons_ne_nil _ _, Cmd.typed_vc rfl t⟩
  case rlrem =>
    obtain ⟨t, rfl⟩ := Rl.nonAddPrepare_sends hp
    exact ⟨_, _, rfl, rfl, rfl, List.cons_ne_nil _ _, Cmd.typed_vc rfl t⟩
  case rwflinsert =>
    exact (Rwfl.insertPrepare_cases hp).typed rfl rfl
  case rwflupdate =>
    rw [Rwfl.updatePrepare_eq] at hp
    obtain ⟨e, rfl⟩ := Rwfl.nonAddPrepare_sends hp
    exact ⟨_, _, rfl, List.length_set, hset _, List.cons_ne_nil _ _, Cmd.typed_pair rfl rfl _⟩
  case rwflrem =>
    rw [Rwfl.remPrepare_eq] at hp
    obtain ⟨e, rfl⟩ := Rwfl.nonAddPrepare_sends hp
    exact ⟨_, _, rfl, rfl, rfl, List.cons_ne_nil _ _, Cmd.typed_vc rfl _⟩

/-- What an accepted command broadcasts: its words, and behind them what the
preparation appended, of the types the effect expects. -/
theorem Cmd.prepare_typed (hp : c.proc.prepare dbl me argv db = some (db', .ok rargv)) :
    argv.length ≤ c.arity ∧
      ∃ (words : List String) (args : List (Arg n)), rargv = words.map Arg.str ++ args ∧
        words.length = argv.length ∧ words.getD 0 "" = argv.getD 0 "" ∧ args ≠ [] ∧
        c.Typed c.arity args := by
  cases hproc : (c.proc : Proc n) with
  | elem T cmd =>
      rw [hproc] at hp
      have hmax := ElemCommand.runPrepare_argc hp
      rw [Cmd.elem_maxArgc hproc] at hmax
      obtain ⟨o, e, args, hprep, rfl⟩ := ElemCommand.runPrepare_broadcast hp
      have hsends := Cmd.proc_sends hproc hprep
      exact ⟨hmax, argv, args, rfl, rfl, rfl, hsends.ne_nil, hsends.typed hproc⟩
  | list lc =>
      rw [hproc] at hp
      have hmax := ListCommand.runPrepare_argc hp
      rw [Cmd.list_maxArgc hproc] at hmax
      obtain ⟨ho', hprep⟩ := ListCommand.runPrepare_broadcast hp
      exact ⟨hmax, Cmd.list_prepare_typed hproc hprep⟩

/-- What is behind the words is no word. -/
theorem Cmd.Typed.not_str (h : c.Typed c.arity args) {a : Arg n} (ha : a ∈ args) :
    a.kind ≠ .str := by
  obtain ⟨j, hj⟩ := List.mem_iff_getElem?.mp ha
  rw [h j a hj, c.argKind_added]
  by_cases hzero : j = 0
  · subst hzero
    cases c <;> decide
  · cases c <;> simp [Cmd.addedKind, hzero]

/-- An accepted vector names the command the client named, has at least
its words, and is of the types the effect of that command expects. -/
theorem prepareCommand_typed (hp : prepareCommand dbl me argv db = some (db', .ok rargv)) :
    ∃ c, cmdOf argv = some c ∧ cmdOfMsg rargv = some c ∧ c.arity ≤ rargv.length ∧
      c.Typed 0 rargv := by
  obtain ⟨c, hc, hp⟩ := Option.bind_eq_some_iff.mp hp
  split at hp
  · cases hp
  · next hmin =>
      obtain ⟨hmax, words, args, rfl, hlen, hname, -, htyped⟩ := Cmd.prepare_typed hp
      have hwords : words.length = c.arity := by omega
      have hpos : 0 < words.length := by
        rw [hwords]
        cases c <;> decide
      refine ⟨c, hc, ?_, ?_, Cmd.typed_words hwords htyped⟩
      · rw [cmdOfMsg, strAt_map_append hpos, Option.bind_some, hname]
        exact hc
      · rw [List.length_append, List.length_map, hwords]
        exact Nat.le_add_right _ _

end Prepare

-- =========================================================== the texts

/-- The string an argument is in `rargv`. -/
def Arg.text : Arg n → Option Sds
  | .str s => some s.toList
  | .vc t => t.raw.vcToSds
  | .lc t => some (lcToSds t)
  | .leid p => leidToSds p

/-- A clock of the length the server counts with. -/
def Vc.ofRaw (c : RawVc) : Option (Vc n) :=
  if h : c.vector.length = n ∧ 0 ≤ c.id ∧ c.id < n then
    some ⟨fun i => c.vector.get (i.cast h.1.symm), ⟨c.id.toNat, by omega⟩⟩
  else none

/-- The conversion of an argument. Each buffer entry is written before it
is read, so what the static buffers held before is left out. -/
def Arg.ofText (k : ArgKind) (s : Sds) : Option (Arg n) :=
  match k with
  | .str => some (.str (String.ofList s))
  | .vc => (RawVc.sdsToVC (Block.new vcIntBuf) s).bind fun p => (Vc.ofRaw p.2).map .vc
  | .lc => (sdsToLc s).map .lc
  | .leid => (sdsToLeid (Block.new leidBuf) s).map fun p => .leid p.2

/-- The strings of a vector. -/
def vectorText (rargv : List (Arg n)) : Option (List Sds) := rargv.mapM Arg.text

/-- The arguments from position `i` on, as the effect of a command reads
them. -/
def readArgs (c : Cmd) : ℕ → List Sds → Option (List (Arg n))
  | _, [] => some []
  | i, s :: texts =>
      (Arg.ofText (c.argKind i) s).bind fun a => (readArgs c (i + 1) texts).map (a :: ·)

/-- `lookupCommand` on the strings of a vector. -/
def cmdOfText (texts : List Sds) : Option Cmd := lookupCommand (String.ofList (texts.getD 0 []))

/-- The vector a server applies when it is given strings. -/
def readVector (texts : List Sds) : Option (List (Arg n)) :=
  (cmdOfText texts).bind fun c => readArgs c 0 texts

/-- `CRDT_EFFECT` on the strings of a vector. -/
def applyVector (dbl : String → Option ℤ) (me : Fin n) (texts : List Sds) (db : Db n) :
    Option (Db n) :=
  (readVector texts).bind fun rargv => effectCommand dbl me rargv db

-- ====================================================== the round trip

/-- Times and identifiers of values an `int` can have that fit the static
buffers. -/
def Arg.Sendable : Arg n → Prop
  | .str _ => True
  | .vc t => n ≤ vcIntBuf ∧ t.raw.Ints
  | .lc t => IsInt t.x ∧ IsInt t.id
  | .leid p => p.Sendable

instance (c : RawVc) : Decidable c.Ints :=
  decidable_of_iff ((∀ v ∈ c.vector, IsInt v) ∧ IsInt c.id)
    ⟨fun h => ⟨h.1, h.2⟩, fun h => ⟨h.entries, h.id⟩⟩

instance (p : Leid) : Decidable p.Sendable :=
  decidable_of_iff ((1 ≤ p.length ∧ p.length ≤ 1024) ∧
      ∀ x ∈ p, IsInt x.pos ∧ IsInt x.pid ∧ IsInt x.count)
    ⟨fun h => ⟨h.1.1, h.1.2, fun x hx => (h.2 x hx).1, fun x hx => (h.2 x hx).2.1,
      fun x hx => (h.2 x hx).2.2⟩,
      fun h => ⟨⟨h.min, h.max⟩, fun x hx =>
        ⟨h.ints.pos x hx, h.ints.pid x hx, h.ints.count x hx⟩⟩⟩

instance : (a : Arg n) → Decidable a.Sendable
  | .str _ => inferInstanceAs (Decidable True)
  | .vc t => inferInstanceAs (Decidable (n ≤ vcIntBuf ∧ t.raw.Ints))
  | .lc t => inferInstanceAs (Decidable (IsInt t.x ∧ IsInt t.id))
  | .leid p => inferInstanceAs (Decidable p.Sendable)

theorem Vc.ofRaw_raw (t : Vc n) : Vc.ofRaw t.raw = some t := by
  have hlen : t.raw.vector.length = n := List.length_ofFn
  have hid : (0 : ℤ) ≤ t.raw.id ∧ t.raw.id < n := ⟨Int.natCast_nonneg _, by
    show ((t.id : ℕ) : ℤ) < n
    exact_mod_cast t.id.isLt⟩
  rw [Vc.ofRaw, dif_pos ⟨hlen, hid⟩]
  congr 1
  cases t with
  | mk vector id =>
      congr 1
      funext i
      simp only [Vc.raw, List.get_ofFn]
      rfl

theorem Arg.ofText_text {a : Arg n} (h : a.Sendable) :
    ∃ s, a.text = some s ∧ Arg.ofText a.kind s = some a := by
  cases a with
  | str s => exact ⟨_, rfl, by rw [Arg.kind, Arg.ofText, String.ofList_toList]⟩
  | vc t =>
      obtain ⟨hcap, hints⟩ := h
      have hlen : t.raw.vector.length = n := List.length_ofFn
      have hne : t.raw.vector ≠ [] := List.ne_nil_of_length_pos (t.id.pos.trans_eq hlen.symm)
      have hroom : t.raw.vector.length ≤ (Block.new vcIntBuf : Block ℤ).length := by
        rw [hlen, Block.length_new]
        exact hcap
      obtain ⟨s, buf', htext, hdec⟩ := RawVc.sdsToVC_text hne hroom
      refine ⟨s, htext, ?_⟩
      rw [hints.map_asInt] at hdec
      rw [Arg.kind, Arg.ofText, hdec, Option.bind_some, Vc.ofRaw_raw, Option.map_some]
  | lc t =>
      refine ⟨_, rfl, ?_⟩
      rw [Arg.kind, Arg.ofText, sdsToLc_text, asInt_of_isInt h.1, asInt_of_isInt h.2,
        Option.map_some]
  | leid p =>
      obtain ⟨s, buf', htext, hdec⟩ := sdsToLeid_sendable h (Block.length_new leidBuf)
      exact ⟨s, htext, by rw [Arg.kind, Arg.ofText, hdec, Option.map_some]⟩

theorem readArgs_vectorText {i : ℕ} (htyped : c.Typed i args) (hsend : ∀ a ∈ args, a.Sendable) :
    ∃ texts, vectorText args = some texts ∧ readArgs c i texts = some args ∧
      texts.length = args.length := by
  induction args generalizing i with
  | nil => exact ⟨[], rfl, rfl, rfl⟩
  | cons a args ih =>
      obtain ⟨s, hs, hread⟩ := Arg.ofText_text (hsend a List.mem_cons_self)
      obtain ⟨texts, htexts, hargs, hlen⟩ :=
        ih htyped.tail fun b hb => hsend b (List.mem_cons_of_mem a hb)
      refine ⟨s :: texts, ?_, ?_, by rw [List.length_cons, List.length_cons, hlen]⟩
      · rw [vectorText, List.mapM_cons, hs]
        rw [vectorText] at htexts
        rw [htexts]
        rfl
      · rw [readArgs, ← htyped.head, hread, Option.bind_some, hargs, Option.map_some]

/-- The first string of a vector is its name. -/
theorem cmdOfText_vectorText {texts : List Sds} (h : vectorText rargv = some texts)
    (hc : cmdOfMsg rargv = some c) : cmdOfText texts = some c := by
  obtain ⟨w, hw, hc⟩ := Option.bind_eq_some_iff.mp hc
  unfold strAt at hw
  split at hw
  · next w' hget =>
      obtain rfl := Option.some.inj hw
      cases rargv with
      | nil => cases hget
      | cons a args =>
          obtain rfl := Option.some.inj hget
          rw [vectorText, List.mapM_cons] at h
          obtain ⟨s, hs, h⟩ := Option.bind_eq_some_iff.mp h
          obtain ⟨rest, -, hcons⟩ := Option.bind_eq_some_iff.mp h
          rw [← Option.some.inj hcons, ← Option.some.inj hs, cmdOfText, List.getD_cons_zero,
            String.ofList_toList]
          exact hc
  · cases hw

/-- What an accepted command broadcasts is what every server reads out of
the strings of the broadcast. -/
theorem broadcast_round_trip {dbl : String → Option ℤ} {me : Fin n} {db db' : Db n}
    (hp : prepareCommand dbl me argv db = some (db', .ok rargv))
    (hsend : ∀ a ∈ rargv, a.Sendable) :
    ∃ texts, vectorText rargv = some texts ∧ readVector texts = some rargv := by
  obtain ⟨c, -, hc, -, htyped⟩ := prepareCommand_typed hp
  obtain ⟨texts, htexts, hread, -⟩ := readArgs_vectorText htyped hsend
  refine ⟨texts, htexts, ?_⟩
  rw [readVector, cmdOfText_vectorText htexts hc, Option.bind_some, hread]

/-- The first insert of a list, with the texts of its identifier and its
time. -/
theorem broadcast_round_trip_insert : ∃ (db' : Db 2) (rargv : List (Arg 2)) (texts : List Sds),
    prepareCommand (fun _ => none) 0 ["RLINSERT", "l", "null", "a", "x", "1", "2", "3", "0"]
      (fun _ => none) = some (db', .ok rargv) ∧
    (vectorText rargv = some texts ∧ readVector texts = some rargv) ∧
    texts.drop 9 = ["1,0,0".toList, "1,0|0".toList] := by
  have hp : prepareCommand (n := 2) (fun _ => none) 0
      ["RLINSERT", "l", "null", "a", "x", "1", "2", "3", "0"] (fun _ => none)
      = some (_, .ok _) := rfl
  obtain ⟨texts, htexts, hread⟩ := broadcast_round_trip hp (by decide +kernel)
  refine ⟨_, _, texts, hp, ⟨htexts, hread⟩, ?_⟩
  rw [← Option.some.inj htexts]
  rfl

end CrdtRedis
