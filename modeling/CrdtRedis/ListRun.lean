/-
Runs of a replicated list, for both lists: what an induction over the
writes of a run shows of its servers and its broadcasts.

`ListRun` is that induction. A property of hashes that every sequence of
writes keeps holds at every server, provided the inserts among them are
broadcasts of the run; and what is known of a broadcast is what its
preparation accepted at the server that made it. Both lists have it, the
remove-wins list in spite of its buffer.
-/
import CrdtRedis.ListObject
import CrdtRedis.ListBody

namespace CrdtRedis

open Replication

variable {n : ℕ} {E M : Type}

/-- The element a client's vector is about. -/
def listOid (argv : List String) : String :=
  match cmdOf argv with
  | some .rlinsert => argv.getD 3 ""
  | some .rwflinsert => argv.getD 3 ""
  | _ => argv.getD 2 ""

/-- The induction over the writes of a run that ends in `k`. `applied` are
the inserts applied at each server, in order. -/
structure ListRun (K : ListKind n E) (ok : String → Prop) (op : M → ListOp)
    (k : Config n (Option (Hash n)) M) (applied : Fin n → List Placement) : Prop where
  induct : ∀ {J : Fin n → List Placement → Hash n → Prop} {Q F : Op n M → Prop},
    (∀ o ∈ k.sent, F o) → (∀ r, J r [] .empty) →
    (∀ {r L L' h h'}, J r L h → K.Moves r ok h L' h' →
      (∀ i ∈ L', ∃ o, F o ∧ Q o ∧ op o.msg = .insert i) → J r (L ++ L') h') →
    (∀ {r L h w u m}, J r L h → F ⟨u, r, m⟩ →
      (∀ i, op m = .insert i → K.Accepts r h w i ∧ ok i.oid) → Q ⟨u, r, m⟩) →
    (∀ r, J r (applied r) ((k.site r).getD .empty)) ∧ ∀ o ∈ k.sent, Q o

-- ============================================= inserts off the network

/-- The placement the broadcast of an insert asks for. -/
def Placement.ofVector (rargv : List (Arg n)) : Placement :=
  ⟨(strAt 2 rargv).getD "", (strAt 3 rargv).getD "", (strAt 4 rargv).getD "",
    (leidAt 9 rargv).getD []⟩

/-- The inserts of a family are the broadcasts of command `c`. -/
def ListType.InsertsBy (T : ListType n M) (op : M → ListOp) (c : Cmd) : Prop :=
  ∀ {c' rargv m i}, T.decode c' rargv = some m →
    (op m = .insert i ↔ c' = c ∧ i = .ofVector rargv)

namespace ListType.InsertsBy

variable {T : ListType n M} {op : M → ListOp} {c : Cmd} {k : Net n} {tname : String}

/-- An insert broadcast about a list, read there. -/
theorem read (hT : T.InsertsBy op c) {rargv : List (Arg n)} (hmem : T.Member rargv)
    (hname : cmdOfMsg rargv = some c) (hlist : strAt 1 rargv = some tname) :
    ∃ m, T.opOn tname rargv = some m ∧ op m = .insert (.ofVector rargv) := by
  obtain ⟨c', lc, m, hc, -, hm⟩ := hmem
  rw [hname] at hc
  obtain rfl := Option.some.inj hc
  exact ⟨m, ListType.opOn_eq_some.mpr ⟨hlist, c, hname, hm⟩, (hT hm).mpr ⟨rfl, rfl⟩⟩

/-- An insert of a list, as it was broadcast. -/
theorem sent (hT : T.InsertsBy op c) {o : Op n M} {i : Placement}
    (ho : o ∈ (T.readAt tname k).sent) (hi : op o.msg = .insert i) :
    ∃ o₀ ∈ k.sent, o.uid = o₀.uid ∧ cmdOfMsg o₀.msg = some c ∧ strAt 1 o₀.msg = some tname ∧
      i = .ofVector o₀.msg := by
  obtain ⟨o₀, ho₀, hop, huid, -⟩ := ListType.mem_readAt_sent.mp ho
  obtain ⟨hlist, c', hc, hm⟩ := ListType.opOn_eq_some.mp hop
  obtain ⟨rfl, hvec⟩ := (hT hm).mp hi
  exact ⟨o₀, ho₀, huid, hc, hlist, hvec⟩

/-- An insert is broadcast by its command. -/
theorem issue (hT : T.InsertsBy op c) {r : Fin n} {argv : List String} {ho ho' : Option (Hash n)}
    {m : M} {i : Placement} (hp : T.service.prepare r argv ho = some (ho', some m))
    (hi : op m = .insert i) : cmdOf argv = some c := by
  obtain ⟨c', hc, hp⟩ := Option.bind_eq_some_iff.mp hp
  obtain ⟨lc, -, hp⟩ := Option.bind_eq_some_iff.mp hp
  obtain ⟨⟨ho₁, res⟩, -, heq⟩ := Option.map_eq_some_iff.mp hp
  have hdec := (Prod.mk.inj heq).2
  cases res with
  | error reply => cases hdec
  | ok rargv => rw [hc, ((hT hdec).mp hi).1]

end ListType.InsertsBy

-- ==================================================== words of an insert

theorem strAt_drop (i : ℕ) (rargv : List (Arg n)) :
    strAt i (rargv.drop 1) = strAt (i + 1) rargv := by
  unfold strAt
  rw [List.getElem?_drop, Nat.add_comm]

theorem leidAt_drop (i : ℕ) (rargv : List (Arg n)) :
    leidAt i (rargv.drop 1) = leidAt (i + 1) rargv := by
  unfold leidAt
  rw [List.getElem?_drop, Nat.add_comm]

/-- The words of an insert's broadcast: the predecessor is replaced. -/
theorem strAt_insert {argv : List String} (hlen : argv.length = 9) (preArg : String)
    (args : List (Arg n)) : strAt 2 ((argv.set 2 preArg).map Arg.str ++ args) = some preArg ∧
      ∀ j, 2 < j → j < 9 →
        strAt j ((argv.set 2 preArg).map Arg.str ++ args) = some (argv.getD j "") := by
  have hword : ∀ j, j < 9 → strAt j ((argv.set 2 preArg).map Arg.str ++ args)
      = some ((argv.set 2 preArg).getD j "") :=
    fun j hj => strAt_map_append (by rw [List.length_set, hlen]; exact hj) args
  constructor
  · rw [hword 2 (by omega)]
    simp [hlen]
  · intro j hj hj'
    rw [hword j hj', List.getD_eq_getElem?_getD, List.getElem?_set_ne (by omega),
      ← List.getD_eq_getElem?_getD]

theorem leidAt_insert {argv : List String} (hlen : argv.length = 9) (preArg : String)
    (pos : Leid) (args : List (Arg n)) :
    leidAt 9 ((argv.set 2 preArg).map Arg.str ++ .leid pos :: args) = some pos := by
  unfold leidAt
  rw [List.getElem?_append_right (by simp [hlen])]
  simp [hlen]

end CrdtRedis
