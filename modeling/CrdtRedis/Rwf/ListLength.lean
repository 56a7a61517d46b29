/-
The length of an RWF list and what `rwfllist` sends.

The length counts the elements whose insert was applied: an insert that
makes its element exist adds one, a remove that finds it existing takes
one away. An update can make an element exist too, when it comes before
every insert with its timestamp (`PID_WAIT_INNATE`), and does not count
it. The runs considered here admit no such update, no insert that finds
the record it places as its own predecessor, and no insert of an element
`length`, whose record would stand where the length is kept.
-/
import CrdtRedis.ListInsert
import CrdtRedis.Rwf.ListState

namespace CrdtRedis

open Replication
open Linked (Path)

variable {n : ℕ}

/-- `rwfllenCommand`. -/
def rwfllenCommand (h : Hash n) : Option ℤ := getLen h

-- ============================================================ the walk

/-- `rwfllist` sends the elements of the chain that exist. -/
theorem Rwfl.listFrom_path (me : Fin n) {h : Hash n} {l : List String} {start : Option String}
    {fuel : ℕ} (hpath : Path (rwfleKind.next h) start l)
    (hmade : ∀ a ∈ l, (h.rwfles a).isSome) (hfuel : l.length ≤ fuel) :
    ∃ elems, Rwfl.listFrom h fuel start = some elems ∧
      elems.length = (l.filter fun a => (rwfleKind.bodyAt me h a).header.exist).length := by
  refine hpath.walk (fun fuel => by cases fuel <;> rfl) ?_ hfuel
  intro a ha fuel rest hrest
  obtain ⟨e, he⟩ := Option.isSome_iff_exists.mp (hmade a ha)
  rw [ListKind.next_of_heap he] at hrest
  rw [Rwfl.listFrom, he, Option.bind_some, hrest, Option.map_some, Rwfl.exist,
    ← show rwfleKind.bodyAt me h a = e.body from ListKind.bodyAt_of_heap he]
  refine ⟨_, rfl, ?_⟩
  split <;> rfl

-- ========================================================= the condition

/-- The broadcasts an RWF list admits where it counts right. -/
def RwflAdmits (me : Fin n) (h : Hash n) : RwflOp n → Prop
  /- An insert that names its own element as predecessor finds it placed,
  or goes in front of all others. -/
  | .insert i _ _ => i.pre = i.oid → (rwfleKind.posOf h i.oid).isSome ∨
      ∀ x ∈ rwfleKind.posOf h "head", leidCmp i.pos x < 0
  /- An update that the history of its element does not go beyond finds
  this very history, and its element in existence. -/
  | .update oid _ _ _ t =>
      (∀ j, (rwfleKind.bodyOf me h oid).header.current.vector j ≤ t.vector j) →
        (rwfleKind.bodyOf me h oid).header.exist = true ∧
        ∀ j, (rwfleKind.bodyOf me h oid).header.current.vector j = t.vector j
  | .rem _ _ => True

/-- An update that counts makes its element exist. -/
theorem RwflBody.updateFunc_exist {b : RwflBody n} {type : String} {lt : Lc} {value : ℤ} {t : Vc n}
    (hb : t.vector = b.header.current.vector → b.header.exist = true) :
    (b.updateFunc type lt value t).header.exist = b.header.exist := by
  unfold RwflBody.updateFunc
  by_cases heq : t.vector = b.header.current.vector
  · have hpid : b.header.pid ≠ pidNexist := of_decide_eq_true (hb heq)
    rw [Reh.updateCheck_of_eq heq, if_neg hpid]
    cases Property.ofType type with
    | none => rfl
    | some p => exact congrArg Reh.exist (RwflBody.acquiredUpdate_header p lt _)
  · rw [Reh.updateCheck_of_ne heq]

/-- The condition on an update, where it counts. -/
theorem RwflBody.exist_of_admits {b : RwflBody n} {t : Vc n}
    (hadm : (∀ j, b.header.current.vector j ≤ t.vector j) →
      b.header.exist = true ∧ ∀ j, b.header.current.vector j = t.vector j)
    (heq : t.vector = (b.removeFunc t).1.header.current.vector) :
    (b.removeFunc t).1.header.exist = true := by
  by_cases hle : t.vector ≤ b.header.current.vector
  · rw [RwflBody.removeFunc, Reh.removeBy_of_le hle] at heq ⊢
    exact (hadm fun j => (congrFun heq j).ge).1
  · rw [RwflBody.removeFunc, Reh.removeBy_of_not_le hle] at heq
    have hge : b.header.current.vector ≤ t.vector := by
      rw [heq, Reh.rmvFunc_current, vcUpdate_vector]
      exact le_sup_left
    exact absurd (fun j => ((hadm hge).2 j).ge) hle

-- ========================================================= the invariant

/-- The length is right, and what it counts hangs in the chain. -/
structure RwflTally (me : Fin n) (h : Hash n) : Prop where
  chain : ∃ l, rwfleKind.Chain h l
  tally : rwfleKind.Tallied me (fun b => b.header.exist) h
  placed : ∀ a, (rwfleKind.bodyAt me h a).header.exist = true → (rwfleKind.posAt h a).isSome

namespace RwflTally

variable {me : Fin n} {h h' : Hash n} {addr : String}

theorem sound (ht : RwflTally me h) : rwfleKind.Sound h := by
  obtain ⟨l, hc⟩ := ht.chain
  exact ⟨hc.taken, hc.addr, hc.posId⟩

theorem empty (me : Fin n) : RwflTally me (Hash.empty : Hash n) :=
  ⟨⟨[], ListKind.chain_empty _ fun _ => rfl⟩, ListKind.tallied_empty (fun _ => rfl) rfl,
    fun _ hex => nomatch hex⟩

/-- Writes that place nothing and change neither a body nor the length. -/
theorem moves {ok : String → Prop} (ht : RwflTally me h)
    (hm : rwfleKind.Moves me ok h [] h') (hs : rwfleKind.Same me h h') : RwflTally me h' := by
  obtain ⟨l, hc⟩ := ht.chain
  refine ⟨hc.unplaced rwfleKind_lawful hm, ht.tally.same hs, ?_⟩
  intro a hex
  rw [hs.body] at hex
  rw [(hm.still rwfleKind_lawful ht.sound).posAt]
  exact ht.placed a hex

/-- A write to a body, of a record that has a place if it comes to
exist. -/
theorem written {f : RwflBody n → RwflBody n} (ht : RwflTally me h)
    (hw : rwfleKind.Written me (fun b => b.header.exist) h addr f h')
    (hplaced : (f (rwfleKind.bodyAt me h addr)).header.exist = true →
      (rwfleKind.posAt h addr).isSome) : RwflTally me h' := by
  obtain ⟨l, hc⟩ := ht.chain
  refine ⟨⟨l, hc.quiet hw.quiet⟩, ht.tally.written hw, ?_⟩
  intro a hex
  rw [ListKind.posAt_congr (hw.quiet.mark a)]
  rw [hw.body] at hex
  by_cases ha : a = addr
  · rw [ha, Function.update_self] at hex
    rw [ha]
    exact hplaced hex
  · rw [Function.update_of_ne ha] at hex
    exact ht.placed a hex

theorem make {key : String} (ht : RwflTally me h) (hkey : key ≠ "length")
    (hget : rwfleKind.findOrCreate me h key = some (h', addr)) : RwflTally me h' := by
  have hm : rwfleKind.Moves me (fun _ => True) h [] h' := .make .refl trivial hget
  exact ht.moves hm (.findOrCreate rwfleKind_lawful ht.sound hkey hget)

/-- A remove that fires hides the element, one that does not leaves it. -/
theorem remove {t : Vc n} (ht : RwflTally me h) (hrem : Rwfl.removeFunc addr t h = some h') :
    RwflTally me h' := by
  refine ht.written (Rwfl.removeFunc_written hrem) fun hex => ht.placed addr ?_
  cases hfired : ((rwfleKind.bodyAt me h addr).removeFunc t).2 with
  | true =>
      rw [RwflBody.removeFunc_exist hfired] at hex
      cases hex
  | false => rwa [RwflBody.removeFunc_false hfired] at hex

theorem place {i : Placement} (ht : RwflTally me h)
    (hfind : rwfleKind.find h i.oid = some (some addr))
    (hpos : rwfleKind.position h i.pre i.oid i.content addr i.pos = some h')
    (hself : i.pre = i.oid → (rwfleKind.posAt h addr).isSome ∨ ∀ head x,
      rwfleKind.getHead h = some (some head) → rwfleKind.posAt h head = some x → i.pos < x) :
    RwflTally me h' ∧ (rwfleKind.posAt h' addr).isSome := by
  obtain ⟨l, hc⟩ := ht.chain
  have hsame : rwfleKind.Same me h h' := .position rwfleKind_lawful hpos
  rcases ht.sound.posAt_place rwfleKind_lawful hpos with ⟨rfl, hplaced⟩ | ⟨-, hposAt⟩
  · exact ⟨ht, hplaced⟩
  · refine ⟨⟨hc.place rwfleKind_lawful hfind hpos hself, ht.tally.same hsame, ?_⟩, ?_⟩
    · intro a hex
      rw [hsame.body] at hex
      rw [hposAt]
      by_cases ha : a = addr
      · rw [ha, Function.update_self]
        rfl
      · rw [Function.update_of_ne ha]
        exact ht.placed a hex
    · rw [hposAt, Function.update_self]
      rfl

/-- An admitted broadcast keeps the count. -/
theorem apply {m : RwflOp n} (ht : RwflTally me h) (hname : m.op.oid ≠ "length")
    (hadm : RwflAdmits me h m) (happ : m.apply me h = some h') : RwflTally me h' := by
  cases m with
  | insert i v t =>
      obtain ⟨p, hget, happ⟩ := Option.bind_eq_some_iff.mp happ
      obtain ⟨h₁, hrem, happ⟩ := Option.bind_eq_some_iff.mp happ
      obtain ⟨h₂, hpos, hadd⟩ := Option.bind_eq_some_iff.mp happ
      have hq := Rwfl.wrote_quiet (Rwfl.removeFunc_wrote hrem)
      have hfind := hq.find (ListKind.find_findOrCreate rwfleKind_lawful hget)
      have hm : rwfleKind.Moves me (fun _ => True) h [] h₁ := .quiet (.make .refl trivial hget) hq
      have hstill := hm.still rwfleKind_lawful ht.sound
      have ht₁ := (ht.make hname hget).remove hrem
      obtain ⟨ht₂, hplaced⟩ := ht₁.place hfind hpos (by
        intro hpre
        refine (hadm hpre).imp ?_ ?_
        · intro hsome
          rw [← hstill.posOf, ListKind.posOf, hfind] at hsome
          exact hsome
        · intro hfront head x hhead hx
          refine leidCmp_neg.mp (hfront x ?_)
          have hof : rwfleKind.posOf h₁ "head" = some x := by
            rw [ListKind.posOf, show rwfleKind.find h₁ "head" = _ from hhead]
            exact hx
          rwa [hstill.posOf] at hof)
      exact ht₂.written (Rwfl.addFunc_written hadd) fun _ => hplaced
  | update oid type value lt t =>
      obtain ⟨p, hget, happ⟩ := Option.bind_eq_some_iff.mp happ
      obtain ⟨h₁, hrem, hupd⟩ := Option.bind_eq_some_iff.mp happ
      have ht₁ := (ht.make hname hget).remove hrem
      have hb : rwfleKind.bodyAt me h₁ p.2 = ((rwfleKind.bodyOf me h oid).removeFunc t).1 := by
        rw [(Rwfl.removeFunc_written hrem).body, Function.update_self,
          ListKind.bodyAt_findOrCreate rwfleKind_lawful ht.sound hget, ListKind.bodyOf,
          ListKind.addr_findOrCreate rwfleKind_lawful hget]
      -- an update that counts finds its element
      have hexist : (RwflBody.updateFunc type lt value t (rwfleKind.bodyAt me h₁ p.2)).header.exist
          = (rwfleKind.bodyAt me h₁ p.2).header.exist := by
        rw [hb]
        exact RwflBody.updateFunc_exist fun heq => RwflBody.exist_of_admits hadm heq
      have hw : rwfleKind.Written me (fun b => b.header.exist) h₁ p.2
          (RwflBody.updateFunc type lt value t) h' := by
        obtain ⟨hbody, hlen⟩ := Rwfl.updateFunc_body hupd
        refine ⟨Rwfl.wrote_quiet (Rwfl.updateFunc_wrote hupd), hbody, ?_⟩
        rw [hexist, hlen]
        simp
      refine ht₁.written hw ?_
      rw [hexist]
      exact ht₁.placed p.2
  | rem oid t =>
      obtain ⟨p, hget, hrem⟩ := Option.bind_eq_some_iff.mp happ
      exact (ht.make hname hget).remove hrem

end RwflTally

-- ================================================================ runs

/-- The vectors of the commands on RWF lists that insert no element
`length`. -/
def RwflSubmits (argv : List String) : Prop :=
  Issues rwflCmds argv ∧ (cmdOf argv = some .rwflinsert → argv.getD 3 "" ≠ "length")

instance : DecidablePred RwflSubmits := fun _ => inferInstanceAs (Decidable (_ ∧ _))

/-- Where the length is kept, no element is found. -/
theorem RwflTally.find_length {me : Fin n} {h : Hash n} (ht : RwflTally me h) (a : String) :
    rwfleKind.find h "length" ≠ some (some a) := by
  intro hfind
  have hlen := ht.tally.len
  unfold getLen at hlen
  unfold ListKind.find at hfind
  cases hf : h.fields "length" with
  | none =>
      rw [hf] at hfind
      cases hfind
  | some v =>
      rw [hf] at hfind hlen
      cases v with
      | length l => cases hfind
      | _ => cases hlen

/-- The count is right at every server. -/
theorem rwfl_tally {dbl : String → Option ℤ} {k : Config n (Option (Hash n)) (RwflOp n)}
    (hk : Reachable rwflType.service
      ⟨fun argv => RwflSubmits argv ∧ (rwflType (n := n)).Submits dbl argv,
        fun r m ho => RwflAdmits r (ho.getD .empty) m, False⟩ k) (r : Fin n) :
    RwflTally r ((k.site r).getD .empty) := by
  have hrun := hk.run_forall (I := fun r ho _ => RwflTally r (ho.getD .empty))
    (Q := fun o => o.msg.op.oid ≠ "length") (F := fun _ => True) (fun _ _ => trivial) ?_ ?_ ?_ ?_
  · exact hrun.1 r
  · exact RwflTally.empty
  · intro r argv ho ho' m l hall ht hp
    have hprep := rwfl_prepared (fun _ => True) hall.2 trivial hp
    exact ht.moves hprep.moves ⟨hprep.body ht.sound, hprep.len hall.1.2⟩
  · intro r argv ho ho' m l u hall ht hp _
    have hprep := rwfl_prepared (fun _ => True) hall.2 trivial hp
    cases hprep.issue m rfl with
    | insert hc hpre hget he hhid hplace => exact hall.1.2 hc
    | update hc hho hfind he hex =>
        intro hcon
        rw [hho] at ht
        rw [show argv.getD 2 "" = "length" from hcon] at hfind
        exact ht.find_length _ hfind
    | rem hc hho hfind he hex =>
        intro hcon
        rw [hho] at ht
        rw [show argv.getD 2 "" = "length" from hcon] at hfind
        exact ht.find_length _ hfind
  · intro r o ho ho' l hadm ht _ hname he
    obtain ⟨h', happ, rfl⟩ := Option.map_eq_some_iff.mp he
    exact ht.apply hname hadm happ

/-- The length of an RWF list is the number of elements of the chain that
exist, and `rwfllist` announces as many elements as it sends. -/
structure RwflCounted (me : Fin n) (h : Hash n) : Prop where
  length : ∃ head l, rwfleKind.getHead h = some head ∧ Path (rwfleKind.next h) head l ∧
    rwfllenCommand h
      = some ((l.filter fun a => (rwfleKind.bodyAt me h a).header.exist).length : ℤ)
  listed : ∃ elems, rwfllistCommand h = some ((elems.length : ℤ), elems)

theorem RwflTally.counted {me : Fin n} {h : Hash n} (ht : RwflTally me h) : RwflCounted me h := by
  obtain ⟨l, hc⟩ := ht.chain
  have hmem : ∀ a, (rwfleKind.bodyAt me h a).header.exist = true → a ∈ l := by
    intro a hex
    obtain ⟨x, hx⟩ := Option.isSome_iff_exists.mp (ht.placed a hex)
    obtain ⟨e, he, hpos⟩ := Option.bind_eq_some_iff.mp hx
    exact hc.mem a e he ((hc.posId a e he).mp (by rw [hpos]; rfl))
  have hlen := ht.tally.filter hc.nodup hmem
  refine ⟨⟨l.head?, l, hc.head, hc.path, hlen⟩, ?_⟩
  obtain ⟨elems, hlist, hcount⟩ := Rwfl.listFrom_path me hc.path hc.made hc.length_le
  refine ⟨elems, ?_⟩
  rw [rwfllistCommand, hlen, Option.bind_some, hc.head, Option.bind_some, hlist, Option.map_some,
    hcount]

-- ========================================================== the network

/-- The broadcasts the network admits where its RWF lists count right. -/
def RwflAdmitted (me : Fin n) (rargv : List (Arg n)) (db : Db n) : Prop :=
  ∀ tname m, rwflType.opOn tname rargv = some m → RwflAdmits me (listAt db tname) m

/-- In every run that admits no other broadcast, the RWF lists count
right. -/
theorem rwfl_counted (dbl : String → Option ℤ) {k : Net n}
    (hk : Reachable (crdtService dbl) ⟨RwflSubmits, RwflAdmitted, False⟩ k) (tname : String)
    (r : Fin n) : RwflCounted r (listAt (k.site r) tname) := by
  have hat : Reachable rwflType.service
      ⟨fun argv => RwflSubmits argv ∧ (rwflType (n := n)).Submits dbl argv,
        fun r m ho => RwflAdmits r (ho.getD .empty) m, False⟩ (rwflType.readAt tname k) :=
    ListType.reachable_guarded (ListType.hallowed rwfl_commands fun _ h => h.1) tname
      (fun hg hop => hg tname _ hop) hk
  exact (rwfl_tally hat r).counted

instance (me : Fin n) (h : Hash n) (m : RwflOp n) : Decidable (RwflAdmits me h m) :=
  match m with
  | .insert _ _ _ => inferInstanceAs (Decidable (_ → _ ∨ _))
  | .update _ _ _ _ _ => inferInstanceAs (Decidable (_ → _ ∧ _))
  | .rem _ _ => inferInstanceAs (Decidable True)

/-- A decidable form of the condition. -/
def rwflAdmits (me : Fin n) (rargv : List (Arg n)) (db : Db n) : Bool :=
  match strAt 1 rargv with
  | none => true
  | some tname =>
      (rwflType.opOn tname rargv).all fun m => decide (RwflAdmits me (listAt db tname) m)

theorem rwflAdmitted_of_admits (me : Fin n) (rargv : List (Arg n)) (db : Db n)
    (hadm : rwflAdmits me rargv db = true) : RwflAdmitted me rargv db := by
  intro tname m hop
  simp only [rwflAdmits, (ListType.opOn_eq_some.mp hop).1, hop, Option.all_some] at hadm
  exact of_decide_eq_true hadm

theorem rwfl_counted_schedule : ∃ k : Net 2,
    Reachable (crdtService getLongLongFromObject) ⟨RwflSubmits, RwflAdmitted, False⟩ k ∧
    rwfllenCommand (listAt (k.site 1) "l") = some 2 ∧
    ∀ r, RwflCounted r (listAt (k.site r) "l") := by
  obtain ⟨k, hrun, hlen⟩ : ∃ k : Net 2, ((crdtService getLongLongFromObject).restrict
      rwflAdmits).run (crdtService getLongLongFromObject).start
        [.submit 0 ["rwflinsert", "l", "null", "a", "x", "0", "0", "0", "0"], .deliver 1 0,
          .submit 0 ["rwflupdate", "l", "a", "font", "5"], .deliver 1 1,
          .submit 1 ["rwflrem", "l", "a"],
          .submit 1 ["rwflinsert", "l", "null", "b", "y", "0", "0", "0", "0"],
          .submit 1 ["rwflinsert", "l", "readd", "a", "x", "1", "0", "0", "0"],
          .deliver 0 3, .deliver 0 4] = some k ∧
      rwfllenCommand (listAt (k.site 1) "l") = some 2 := ⟨_, rfl, by decide⟩
  have hk : Reachable (crdtService getLongLongFromObject) ⟨RwflSubmits, RwflAdmitted, False⟩ k :=
    .of_restrict rwflAdmitted_of_admits (Service.run_reachable (by decide) hrun)
  exact ⟨k, hk, hlen, rwfl_counted getLongLongFromObject hk "l"⟩

/-- An update comes before the insert of its element: `rwfllist` announces
no element and sends one. -/
theorem rwfl_update_uncounted : ∃ k : Net 2,
    Reachable (crdtService getLongLongFromObject) (.once (Issues rwflCmds)) k ∧
    ¬ RwflCounted 1 (listAt (k.site 1) "l") := by
  obtain ⟨k, hrun, hlist⟩ : ∃ k : Net 2, (crdtService getLongLongFromObject).run
      (crdtService getLongLongFromObject).start
        [.submit 0 ["rwflinsert", "l", "null", "a", "x", "0", "0", "0", "0"],
          .submit 0 ["rwflupdate", "l", "a", "font", "5"], .deliver 1 1, .deliver 1 0] = some k ∧
      (rwfllistCommand (listAt (k.site 1) "l")).map (fun p => (p.1, p.2.length)) = some (0, 1) :=
    ⟨_, rfl, by decide⟩
  refine ⟨k, Service.run_reachable (by decide) hrun, ?_⟩
  intro hcounted
  obtain ⟨elems, helems⟩ := hcounted.listed
  rw [helems] at hlist
  obtain ⟨hheader, hsent⟩ : (elems.length : ℤ) = 0 ∧ elems.length = 1 :=
    Prod.mk.inj (Option.some.inj hlist)
  omega

end CrdtRedis
