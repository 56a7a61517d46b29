/-
Where an element is and what it holds is decided by the first insert of it
that a server applies.

The record of an element is written once: the insert that finds it without
an oid gives it its identifier and its content, and every later insert
leaves both (`Kept.first`). An insert that finds the oid repeats the
identifier found, so all inserts of an element carry an identifier given
by one that placed it anew. Two servers therefore disagree in two ways
only: the element was placed anew twice, at servers that did not know of
each other, or an insert that repeats it, with a content of its own, was
applied before the one it repeats. The causal delivery of the remove-wins
list leaves the first way; the RWF list has both.
-/
import CrdtRedis.ListOrder

namespace CrdtRedis

open Replication

variable {n : ℕ} {E M : Type}

-- ============================================================== records

namespace ListKind

variable {K : ListKind n E} {h h' : Hash n} {me : Fin n} {L L' : List Placement}
  {ok : String → Prop}

/-- The identifier and the content that an insert wrote into a record. -/
def held (K : ListKind n E) (h : Hash n) (a : String) : Option (Leid × String) :=
  (K.mark h a).bind fun t => t.2.1.bind fun x => t.2.2.map fun v => (x, v)

/-- The records after the inserts `L` were applied. -/
structure Kept (K : ListKind n E) (h : Hash n) (L : List Placement) : Prop where
  sound : K.Sound h
  found : ∀ a, a ≠ "head" → (K.mark h a).isSome → K.find h a = some (some a)
  whole : ∀ a t, K.mark h a = some t →
    t = (none, none, none) ∨ ∃ o x v, t = (some o, some x, some v)
  first : ∀ a, a ≠ "head" →
    K.held h a = (L.find? fun i => i.oid = a).map fun i => (i.pos, i.content)

theorem kept_empty (hheap : ∀ a, K.heap (Hash.empty : Hash n) a = none) :
    K.Kept (Hash.empty : Hash n) [] := by
  have hmark : ∀ a, K.mark (Hash.empty : Hash n) a = none := by
    intro a
    rw [mark, hheap]
    rfl
  refine ⟨K.sound_empty hheap, ?_, ?_, ?_⟩
  · intro a _ ha
    rw [hmark] at ha
    cases ha
  · intro a t ht
    rw [hmark] at ht
    cases ht
  · intro a _
    rw [held, hmark]
    rfl

theorem Kept.quiet (hk : K.Kept h L) (hq : K.Quiet h h') : K.Kept h' L := by
  refine ⟨hk.sound.quiet hq, ?_, ?_, ?_⟩
  · intro a hne ha
    rw [hq.mark] at ha
    exact hq.find (hk.found a hne ha)
  · intro a t ht
    rw [hq.mark] at ht
    exact hk.whole a t ht
  · intro a hne
    rw [held, hq.mark]
    exact hk.first a hne

theorem Kept.make (hK : K.Lawful) (hk : K.Kept h L) {key addr : String}
    (hget : K.findOrCreate me h key = some (h', addr)) : K.Kept h' L := by
  have hs' := hk.sound.make hK hget
  have hfind := find_findOrCreate hK hget
  rcases findOrCreate_cases hK hget with ⟨-, -, -, rfl⟩ | ⟨hf, rfl, -, hfields, -⟩
  · exact hk
  obtain rfl | ⟨-, -, hmark⟩ := mark_findOrCreate hK hget
  · exact hk
  refine ⟨hs', ?_, ?_, ?_⟩
  · intro a hne ha
    by_cases haa : a = addr
    · rw [haa]
      exact hfind
    · rw [hmark, Function.update_of_ne haa] at ha
      rw [find_congr (h := h) (by rw [hfields, Function.update_of_ne haa])]
      exact hk.found a hne ha
  · intro a t ht
    rw [hmark] at ht
    by_cases haa : a = addr
    · rw [haa, Function.update_self] at ht
      exact Or.inl (Option.some.inj ht).symm
    · rw [Function.update_of_ne haa] at ht
      exact hk.whole a t ht
  · intro a hne
    rw [← hk.first a hne, held, held, hmark]
    by_cases haa : a = addr
    · rw [haa, Function.update_self, mark, hk.sound.heap_none hf]
      rfl
    · rw [Function.update_of_ne haa]

/-- An insert writes the record of its element if no insert did. -/
theorem Kept.place (hK : K.Lawful) (hk : K.Kept h L) {i : Placement} {addr : String}
    (hname : i.oid ≠ "head") (hfind : K.find h i.oid = some (some addr))
    (hpos : K.position h i.pre i.oid i.content addr i.pos = some h') :
    K.Kept h' (L ++ [i]) := by
  have hs' := hk.sound.place hK hpos
  obtain rfl := hk.sound.find hname hfind
  have hother : ∀ a, a ≠ i.oid → (L ++ [i]).find? (fun j => j.oid = a)
      = L.find? fun j => j.oid = a := by
    intro a ha
    rw [List.find?_append, List.find?_cons_of_neg (by simpa using Ne.symm ha), List.find?_nil,
      Option.or_none]
  rcases mark_position hK hpos with ⟨rfl, e, he, hoid⟩ | ⟨⟨e, he, hoid⟩, hmark, hfields, -⟩
  · refine ⟨hk.sound, hk.found, hk.whole, ?_⟩
    intro a hne
    by_cases haa : a = i.oid
    · -- the record has its name from an earlier insert
      subst haa
      have hme : K.mark h' i.oid = some (e.oid, e.posId, e.content) := by rw [mark, he]; rfl
      have hheld : (K.held h' i.oid).isSome := by
        rcases hk.whole _ _ hme with heq | ⟨o, x, v, heq⟩
        · rw [(Prod.mk.inj heq).1] at hoid
          cases hoid
        · rw [held, hme, heq]
          rfl
      rw [hk.first _ hne, Option.isSome_map] at hheld
      rw [hk.first _ hne, List.find?_append, Option.or_of_isSome hheld]
    · rw [hother a haa]
      exact hk.first a hne
  · have hme : K.mark h i.oid = some (e.oid, e.posId, e.content) := by rw [mark, he]; rfl
    refine ⟨hs', ?_, ?_, ?_⟩
    · intro a hne ha
      have hold : (K.mark h a).isSome := by
        by_cases haa : a = i.oid
        · rw [haa, hme]
          rfl
        · rwa [hmark, Function.update_of_ne haa] at ha
      rw [find_congr (h := h) (hfields a hne)]
      exact hk.found a hne hold
    · intro a t ht
      rw [hmark] at ht
      by_cases haa : a = i.oid
      · rw [haa, Function.update_self] at ht
        exact Or.inr ⟨_, _, _, (Option.some.inj ht).symm⟩
      · rw [Function.update_of_ne haa] at ht
        exact hk.whole a t ht
    · intro a hne
      rw [held, hmark]
      by_cases haa : a = i.oid
      · subst haa
        have hnone : K.held h i.oid = none := by
          rw [held, hme]
          show e.posId.bind _ = none
          have hposAt := hk.sound.posAt_none he hoid
          rw [posAt, he] at hposAt
          rw [show e.posId = none from hposAt]
          rfl
        rw [hk.first _ hne, Option.map_eq_none_iff] at hnone
        rw [Function.update_self, List.find?_append, hnone, List.find?_cons_of_pos (by simp)]
        rfl
      · rw [Function.update_of_ne haa, hother a haa]
        exact hk.first a hne

theorem Kept.moves (hK : K.Lawful) (hk : K.Kept h L) (hm : K.Moves me ok h L' h')
    (hname : ∀ i ∈ L', i.oid ≠ "head") : K.Kept h' (L ++ L') := by
  induction hm with
  | refl => simpa using hk
  | quiet _ hq ih => exact (ih hname).quiet hq
  | make _ _ hget ih => exact (ih hname).make hK hget
  | place _ _ hfind hpos ih =>
      rw [← List.append_assoc]
      refine (ih fun i hi => hname i (List.mem_append_left _ hi)).place hK ?_ hfind hpos
      exact hname _ (List.mem_append_right _ List.mem_cons_self)

/-- Element `oid` has identifier `x` and content `v`. -/
def HoldsAt (K : ListKind n E) (h : Hash n) (oid : String) (x : Leid) (v : String) : Prop :=
  ∃ a e, K.find h oid = some (some a) ∧ K.heap h a = some e ∧ e.posId = some x ∧
    e.content = some v

theorem Kept.holdsAt (hk : K.Kept h L) {a : String} {x : Leid} {v : String} (hne : a ≠ "head")
    (hheld : K.held h a = some (x, v)) : K.HoldsAt h a x v := by
  obtain ⟨t, ht, hheld⟩ := Option.bind_eq_some_iff.mp hheld
  obtain ⟨x', hx, hheld⟩ := Option.bind_eq_some_iff.mp hheld
  obtain ⟨v', hv, heq⟩ := Option.map_eq_some_iff.mp hheld
  obtain ⟨rfl, rfl⟩ := Prod.mk.inj heq
  have hfind := hk.found a hne (by rw [ht]; rfl)
  obtain ⟨e, he, rfl⟩ := Option.map_eq_some_iff.mp ht
  exact ⟨a, e, hfind, he, hx, hv⟩

/-- An element that was inserted has its record. -/
theorem Kept.named (hk : K.Kept h L) {i : Placement} (hi : i ∈ L) (hne : i.oid ≠ "head") :
    ∃ e, K.heap h i.oid = some e ∧ e.oid.isSome ∧ e.posId.isSome := by
  have hfound : (L.find? fun j => j.oid = i.oid).isSome :=
    List.find?_isSome.mpr ⟨i, hi, by simp⟩
  have hheld : (K.held h i.oid).isSome := by
    rw [hk.first _ hne, Option.isSome_map]
    exact hfound
  obtain ⟨⟨x, v⟩, hxv⟩ := Option.isSome_iff_exists.mp hheld
  obtain ⟨t, ht, hxv⟩ := Option.bind_eq_some_iff.mp hxv
  rcases hk.whole _ t ht with rfl | ⟨o, x', v', rfl⟩
  · cases hxv
  · obtain ⟨e, he, heq⟩ := Option.map_eq_some_iff.mp ht
    obtain ⟨hoid, heq⟩ := Prod.mk.inj heq
    exact ⟨e, he, by rw [hoid]; rfl, by rw [(Prod.mk.inj heq).1]; rfl⟩

/-- An element with an identifier was given it by an insert. -/
theorem Kept.of_posOf (hk : K.Kept h L) {oid : String} {x : Leid} (hne : oid ≠ "head")
    (hpos : K.posOf h oid = some x) : ∃ i ∈ L, i.oid = oid ∧ i.pos = x := by
  obtain ⟨a, hfind, hx⟩ := posOf_posAt hpos
  obtain rfl := hk.sound.find hne hfind
  rw [posAt_eq_mark] at hx
  obtain ⟨t, ht, hx⟩ := Option.bind_eq_some_iff.mp hx
  rcases hk.whole a t ht with rfl | ⟨o, x', v, rfl⟩
  · cases hx
  have hheld : K.held h a = some (x', v) := by
    rw [held, ht]
    rfl
  rw [hk.first a hne] at hheld
  obtain ⟨i, hi, heq⟩ := Option.map_eq_some_iff.mp hheld
  refine ⟨i, List.mem_of_find?_eq_some hi, by simpa using List.find?_some hi, ?_⟩
  rw [(Prod.mk.inj heq).1]
  exact Option.some.inj hx

end ListKind

-- ================================================================= runs

section

variable {K : ListKind n E} {ok : String → Prop} {op : M → ListOp}
  {k : Config n (Option (Hash n)) M} {applied : Fin n → List Placement}

/-- In a run without an insert of `head`, the records are those of the
first inserts, and every insert carries an identifier given to its element
by one that placed it anew. -/
theorem ListRun.kept (hrun : ListRun K ok op k applied) (hK : K.Lawful)
    (hheap : ∀ a, K.heap (Hash.empty : Hash n) a = none)
    (hname : ∀ o ∈ k.sent, ∀ i, op o.msg = .insert i → i.oid ≠ "head") :
    (∀ r, K.Kept ((k.site r).getD .empty) (applied r) ∧
      ∀ i ∈ applied r, Given op k i.oid i.pos) ∧
    ∀ o ∈ k.sent, ∀ i, op o.msg = .insert i → Given op k i.oid i.pos := by
  refine hrun.induct (J := fun _ L h => K.Kept h L ∧ ∀ i ∈ L, Given op k i.oid i.pos)
    (Q := fun o => ∀ i, op o.msg = .insert i → Given op k i.oid i.pos)
    (F := fun o => o ∈ k.sent) (fun _ ho => ho) ?_ ?_ ?_
  · exact fun r => ⟨ListKind.kept_empty hheap, fun _ hi => nomatch hi⟩
  · intro r L L' h h' hJ hm hL'
    obtain ⟨hkept, hgiven⟩ := hJ
    refine ⟨hkept.moves hK hm ?_, ?_⟩
    · intro i hi
      obtain ⟨o, ho, -, hop⟩ := hL' i hi
      exact hname o ho i hop
    · intro i hi
      rcases List.mem_append.mp hi with hi | hi
      · exact hgiven i hi
      · obtain ⟨o, -, hQ, hop⟩ := hL' i hi
        exact hQ i hop
  · intro r L h w u m hJ hsent hacc i hi
    obtain ⟨hkept, hgiven⟩ := hJ
    cases (hacc i hi).1 with
    | fresh _ hpre _ _ => exact ⟨_, hsent, i, hi, hpre, rfl, rfl⟩
    | again _ hpos =>
        obtain ⟨j, hj, hoid, hx⟩ := hkept.of_posOf (hname _ hsent i hi) hpos
        have hG := hgiven j hj
        rwa [hoid, hx] at hG

/-- The servers agree on an element that all of them applied an insert of,
if it has one identifier and the first insert of it that a server applies
has content `v`. -/
theorem ListRun.agree (hrun : ListRun K ok op k applied) (hK : K.Lawful)
    (hheap : ∀ a, K.heap (Hash.empty : Hash n) a = none)
    (hname : ∀ o ∈ k.sent, ∀ i, op o.msg = .insert i → i.oid ≠ "head") {a : String} {x : Leid}
    {v : String} (hx : ∀ y, Given op k a y → y = x)
    (hv : ∀ r i, (applied r).find? (fun i => i.oid = a) = some i → i.content = v)
    (hall : ∀ r, ∃ i ∈ applied r, i.oid = a) (hne : a ≠ "head") (r : Fin n) :
    K.HoldsAt ((k.site r).getD .empty) a x v := by
  obtain ⟨hkept, hgiven⟩ := (hrun.kept hK hheap hname).1 r
  obtain ⟨j, hj, hja⟩ := hall r
  obtain ⟨i, hi⟩ := Option.isSome_iff_exists.mp
    (List.find?_isSome.mpr ⟨j, hj, by simpa using hja⟩ :
      ((applied r).find? fun i => i.oid = a).isSome)
  have hia : i.oid = a := by simpa using List.find?_some hi
  have hG := hgiven i (List.mem_of_find?_eq_some hi)
  rw [hia] at hG
  refine hkept.holdsAt hne ?_
  rw [hkept.first a hne, hi, Option.map_some, hx _ hG, hv r i hi]

end

-- =================================================== the remove-wins list

section

variable {dbl : String → Option ℤ} {allowed : List String → Prop}
  {k : Config n (Option (Hash n)) (RlMsg n)}

/-- An insert that repeats an element is above one that placed it anew. -/
theorem rl_fresh_before
    (hall : ∀ argv, allowed argv → cmdOf argv = some .rlinsert → listOid argv ≠ "head")
    (hk : Reachable rlType.service
      (.once fun argv => allowed argv ∧ (rlType (n := n)).Submits dbl argv) k) :
    ∀ o ∈ k.sent, ∀ i, o.msg.cmd.op = .insert i → cText i.pre = "readd" →
      ∃ f ∈ k.sent, ∃ j, f.msg.cmd.op = .insert j ∧ cText j.pre ≠ "readd" ∧ j.oid = i.oid ∧
        f.msg.cmd.stamp < o.msg.cmd.stamp := by
  refine hk.invariant (I := fun k => ∀ o ∈ k.sent, ∀ i, o.msg.cmd.op = .insert i →
    cText i.pre = "readd" → ∃ f ∈ k.sent, ∃ j, f.msg.cmd.op = .insert j ∧ cText j.pre ≠ "readd" ∧
      j.oid = i.oid ∧ f.msg.cmd.stamp < o.msg.cmd.stamp) (by simp [Service.start]) ?_
  intro k k' hr ih hstep
  cases hstep with
  | reject r c hc hp => exact ih
  | deliver r o ho hd hg he => exact ih
  | @issue s s' m r c u hc hp hu hg he =>
      have hlift : ∀ {i : Placement} {t : Fin n → ℤ},
          (∃ f ∈ k.sent, ∃ j, f.msg.cmd.op = .insert j ∧ cText j.pre ≠ "readd" ∧ j.oid = i.oid ∧
            f.msg.cmd.stamp < t) →
          ∃ f ∈ (k.issue ⟨u, r, m⟩ s').sent, ∃ j, f.msg.cmd.op = .insert j ∧
            cText j.pre ≠ "readd" ∧ j.oid = i.oid ∧ f.msg.cmd.stamp < t := by
        intro i t hex
        obtain ⟨f, hf, hrest⟩ := hex
        exact ⟨f, List.mem_append_left _ hf, hrest⟩
      intro o ho i hi hre
      rw [Config.issue_sent, List.mem_append, List.mem_singleton] at ho
      rcases ho with ho | rfl
      · exact hlift (ih o ho i hi hre)
      refine hlift ?_
      have hC := rl_causal (n := n) fun argv => allowed argv ∧ (rlType (n := n)).Submits dbl argv
      have hrun : ListRun rleKind (fun _ => True) (fun m : RlMsg n => m.cmd.op) k _ :=
        rl_run (fun _ _ => trivial) hr
      have hnames := (rl_places dbl allowed).sent_name hall hr
      have hkept := ((hrun.kept rleKind_lawful (fun _ => rfl) hnames).1 r).1
      obtain ⟨hoid, hacc⟩ :=
        (rl_prepared (fun _ => True) hc.2 hkept.sound trivial hp).issue m rfl
      have hname : i.oid ≠ "head" := by
        rw [hi] at hoid
        rw [show i.oid = listOid c from hoid]
        exact hall c hc.1 (rl_insertsBy.issue hp hi)
      cases hacc i hi with
      | fresh _ hcon _ _ => exact absurd hre hcon
      | again _ hpos =>
          -- the identifier found comes from an insert that is applied here
          obtain ⟨j, hj, hjoid, -⟩ := hkept.of_posOf hname hpos
          obtain ⟨cmd, hcmd, hj⟩ := List.mem_flatMap.mp hj
          have hjop := ListOp.eq_insert hj
          have hbelow : cmd.stamp < m.cmd.stamp :=
            lt_of_le_of_lt ((hC.applied hr r).le_clock cmd hcmd) (hC.clock_lt_stamp hr hc hp)
          obtain ⟨o₁, ho₁, rfl⟩ := hC.log_got hr hcmd
          have hsent := hr.ledger.got_sent r o₁ ho₁
          by_cases hjre : cText j.pre = "readd"
          · obtain ⟨f, hf, j', hj', hpre', hoid', hlt⟩ := ih o₁ hsent j hjop hjre
            exact ⟨f, hf, j', hj', hpre', hoid'.trans hjoid, hlt.trans hbelow⟩
          · exact ⟨o₁, hsent, j, hjop, hjre, hjoid, hbelow⟩

/-- The first insert of an element that a server applies placed it
anew. -/
theorem rl_first_fresh
    (hall : ∀ argv, allowed argv → cmdOf argv = some .rlinsert → listOid argv ≠ "head")
    (hk : Reachable rlType.service
      (.once fun argv => allowed argv ∧ (rlType (n := n)).Submits dbl argv) k)
    {r : Fin n} {a : String} {i : Placement}
    (hfirst : (((rl_causal fun argv => allowed argv ∧ (rlType (n := n)).Submits dbl argv).log
      k r).flatMap fun cmd => cmd.op.placements).find? (fun i => i.oid = a) = some i) :
    cText i.pre ≠ "readd" ∧ ∃ o ∈ k.sent, o.msg.cmd.op = .insert i := by
  have hC := rl_causal (n := n) fun argv => allowed argv ∧ (rlType (n := n)).Submits dbl argv
  have hia : i.oid = a := by simpa using List.find?_some hfirst
  rw [List.find?_flatMap] at hfirst
  obtain ⟨l₁, cmd, l₂, hlog, hcmd, hnone⟩ := List.findSome?_eq_some_iff.mp hfirst
  have hop := ListOp.eq_insert (List.mem_of_find?_eq_some hcmd)
  have hmem : cmd ∈ hC.log k r := by
    show cmd ∈ (rl_causal _).log k r
    rw [hlog]
    simp
  obtain ⟨o, ho, rfl⟩ := hC.log_got hk hmem
  have hsent := hk.ledger.got_sent r o ho
  refine ⟨?_, o, hsent, hop⟩
  intro hre
  obtain ⟨f, hf, j, hj, -, hjoid, hlt⟩ := rl_fresh_before hall hk o hsent i hop hre
  have hf₁ : f.msg.cmd ∈ l₁ := (hC.delivery hk).mem_before hk hf hlog hlt
  have hcon := hnone _ hf₁
  rw [hj] at hcon
  have hne : j.oid ≠ a := by simpa [ListOp.placements] using hcon
  exact hne (hjoid.trans hia)

end

-- =============================================================== the network

/-- The vectors of the commands `cmds`, without inserts of an element
`head`: that name is the field of the pointer to the first element. -/
def HeadFree (cmds : List Cmd) (argv : List String) : Prop :=
  Issues cmds argv ∧
    (cmdOf argv = some .rlinsert ∨ cmdOf argv = some .rwflinsert → listOid argv ≠ "head")

instance (cmds : List Cmd) : DecidablePred (HeadFree cmds) :=
  fun _ => inferInstanceAs (Decidable (_ ∧ _))

/-- The first insert of an element that a server applies has the content
of the one that placed the element anew. -/
def FirstContent (c : Cmd) (tname : String) (k : Net n) : Prop :=
  ∀ r l₁ o l₂ oid, k.got r = l₁ ++ o :: l₂ → Inserts c tname oid o.msg →
    (∀ o' ∈ l₁, ¬ Inserts c tname oid o'.msg) → ∀ f ∈ k.sent, PlacesAnew c tname oid f.msg →
    (Placement.ofVector o.msg).content = (Placement.ofVector f.msg).content

/-- Every element of list `tname` that was inserted has one identifier and
one content, the same at all servers. -/
def AgreeOn (K : ListKind n E) (c : Cmd) (tname : String) (k : Net n) : Prop :=
  ∀ oid, ∀ o ∈ k.sent, Inserts c tname oid o.msg →
    ∃ x v, ∀ r, K.HoldsAt (listAt (k.site r) tname) oid x v

/-- The content of an element. -/
def ListKind.contentOf (K : ListKind n E) (h : Hash n) (oid : String) : Option String :=
  ((K.find h oid).getD none).bind fun a => (K.heap h a).bind fun e => e.content

/-- Servers that agree show the same content. -/
theorem AgreeOn.contentOf {K : ListKind n E} {c : Cmd} {tname : String} {k : Net n}
    (hagree : AgreeOn K c tname k) {o : Op n (List (Arg n))} (ho : o ∈ k.sent)
    (hname : cmdOfMsg o.msg = some c) (hlist : strAt 1 o.msg = some tname) (r r' : Fin n) :
    K.contentOf (listAt (k.site r) tname) (Placement.ofVector o.msg).oid
      = K.contentOf (listAt (k.site r') tname) (Placement.ofVector o.msg).oid := by
  obtain ⟨x, v, hall⟩ := hagree _ o ho ⟨hname, hlist, rfl⟩
  have hv : ∀ r, K.contentOf (listAt (k.site r) tname) (Placement.ofVector o.msg).oid = some v := by
    intro r
    obtain ⟨a, e, hfind, he, -, hv⟩ := hall r
    rw [ListKind.contentOf, hfind, Option.getD_some, Option.bind_some, he, Option.bind_some, hv]
  rw [hv r, hv r']

/-- The servers agree, if the first inserts they apply have the content of
the one that placed the element anew. -/
theorem ListRun.agreeOn {K : ListKind n E} {ok : String → Prop} {T : ListType n M}
    {op : M → ListOp} {c : Cmd} {k : Net n} {tname : String}
    {applied : Fin n → List Placement}
    (hrun : ListRun K ok op (T.readAt tname k) applied) (hK : K.Lawful)
    (hheap : ∀ a, K.heap (Hash.empty : Hash n) a = none) (hT : T.InsertsBy op c)
    (hmem : ∀ o ∈ k.sent, T.Member o.msg) (honce : PlacedOnce c tname k)
    (hname : ∀ o ∈ (T.readAt tname k).sent, ∀ i, op o.msg = .insert i → i.oid ≠ "head")
    (hfirst : ∀ f ∈ (T.readAt tname k).sent, ∀ j, op f.msg = .insert j → cText j.pre ≠ "readd" →
      ∀ r i, (applied r).find? (fun i => i.oid = j.oid) = some i → i.content = j.content)
    (hall : ∀ o ∈ (T.readAt tname k).sent, ∀ i, op o.msg = .insert i → ∀ r, i ∈ applied r) :
    AgreeOn K c tname k := by
  intro oid o ho hins
  obtain ⟨m, hop, hm⟩ := hT.read (hmem o ho) hins.name hins.list
  have hsent : (⟨o.uid, o.src, m⟩ : Op n M) ∈ (T.readAt tname k).sent :=
    ListType.mem_readAt_sent.mpr ⟨o, ho, hop, rfl, rfl⟩
  have hG := (hrun.kept hK hheap hname).2 _ hsent _ hm
  rw [hins.oid] at hG
  obtain ⟨f, hf, j, hj, hpre, rfl, -⟩ := id hG
  refine ⟨j.pos, j.content, fun r => ?_⟩
  refine hrun.agree hK hheap hname ?_ (hfirst f hf j hj hpre) ?_ (hname f hf j hj) r
  · intro y hy
    exact honce.functional hT hy ⟨f, hf, j, hj, hpre, rfl, rfl⟩
  · exact fun r => ⟨j, hall f hf j hj r, rfl⟩

/-- What the first insert of an element is in the run of one list. -/
theorem FirstContent.read {T : ListType n M} {op : M → ListOp} {c : Cmd} {k : Net n}
    {tname : String} (hT : T.InsertsBy op c) (hmem : ∀ o ∈ k.sent, T.Member o.msg)
    (hledger : k.Ledger) (hfirst : FirstContent c tname k) {f : Op n M}
    (hf : f ∈ (T.readAt tname k).sent) {j : Placement} (hj : op f.msg = .insert j)
    (hpre : cText j.pre ≠ "readd") (r : Fin n) {i : Placement}
    (hi : (((T.readAt tname k).got r).flatMap fun o => (op o.msg).placements).find?
      (fun i => i.oid = j.oid) = some i) : i.content = j.content := by
  have hia : i.oid = j.oid := by simpa using List.find?_some hi
  rw [List.find?_flatMap] at hi
  obtain ⟨l₁, o, l₂, hgot, hin, hnone⟩ := List.findSome?_eq_some_iff.mp hi
  have hop := ListOp.eq_insert (List.mem_of_find?_eq_some hin)
  obtain ⟨f₀, hf₀, -, hc, hlist, rfl⟩ := hT.sent hf hj
  -- the same place in all that the server applied
  obtain ⟨m₁, m₂, hsplit, hm₁, hm₂⟩ := List.filterMap_eq_append_iff.mp hgot
  obtain ⟨p₁, o₀, p₂, rfl, hp₁, hroute, -⟩ := List.filterMap_eq_cons_iff.mp hm₂
  obtain ⟨hopOn, -, -⟩ := Op.route_eq_some.mp hroute
  obtain ⟨hlist', c', hc', hdec⟩ := ListType.opOn_eq_some.mp hopOn
  obtain ⟨rfl, rfl⟩ := (hT hdec).mp hop
  refine hfirst r (m₁ ++ p₁) o₀ p₂ _ (by rw [hsplit, List.append_assoc]) ⟨hc', hlist', hia⟩ ?_
    f₀ hf₀ ⟨⟨hc, hlist, rfl⟩, hpre⟩
  intro o' ho' hins
  have hsent : o' ∈ k.sent := by
    refine hledger.got_sent r o' ?_
    rw [hsplit]
    rcases List.mem_append.mp ho' with hin | hin <;> simp [hin]
  obtain ⟨m, hm, hmop⟩ := hT.read (hmem o' hsent) hins.name hins.list
  have hroute' : o'.route (T.opOn tname) = some ⟨o'.uid, o'.src, m⟩ :=
    Op.route_eq_some.mpr ⟨hm, rfl, rfl⟩
  rcases List.mem_append.mp ho' with ho' | ho'
  · have hl₁ : (⟨o'.uid, o'.src, m⟩ : Op n M) ∈ l₁ := by
      rw [← hm₁]
      exact List.mem_filterMap.mpr ⟨o', ho', hroute'⟩
    have hcon := hnone _ hl₁
    rw [hmop] at hcon
    have hne : (Placement.ofVector o'.msg).oid ≠ (Placement.ofVector f₀.msg).oid := by
      simpa [ListOp.placements] using hcon
    exact hne hins.oid
  · rw [hp₁ o' ho'] at hroute'
    cases hroute'

/-- Once everything is delivered, the servers agree on the identifier and
the content of every element that was inserted, if every element is placed
anew at most once and, in the RWF list, the first insert of it that a
server applies has the content of that one. -/
theorem inserted_agree (dbl : String → Option ℤ) {k k' : Net n} (tname : String)
    (hk : Reachable (crdtService dbl) (.once (HeadFree rlCmds)) k)
    (hk' : Reachable (crdtService dbl) (.once (HeadFree rwflCmds)) k')
    (honce : PlacedOnce .rlinsert tname k) (honce' : PlacedOnce .rwflinsert tname k')
    (hfirst : FirstContent .rwflinsert tname k') :
    ((∀ r, ∀ o ∈ k.sent, o ∈ k.got r) → AgreeOn rleKind .rlinsert tname k) ∧
      ((∀ r, ∀ o ∈ k'.sent, o ∈ k'.got r) → AgreeOn rwfleKind .rwflinsert tname k') := by
  constructor
  · intro hall
    have hat := ListType.reachable_once (ListType.hallowed rl_commands fun _ h => h.1) hk tname
    have hmem := ListType.sent_member (ListType.hallowed rl_commands fun _ h => h.1) hk
    have hname : ∀ argv, HeadFree rlCmds argv → cmdOf argv = some .rlinsert →
        listOid argv ≠ "head" := fun argv h hc => h.2 (Or.inl hc)
    have hrun : ListRun rleKind (fun _ => True) (fun m : RlMsg n => m.cmd.op) _ _ :=
      rl_run (fun _ _ => trivial) hat
    refine hrun.agreeOn rleKind_lawful (fun _ => rfl) rl_insertsBy hmem honce
      ((rl_places dbl _).sent_name hname hat) ?_ ?_
    · intro f hf j hj hpre r i hi
      have hia : i.oid = j.oid := by simpa using List.find?_some hi
      obtain ⟨hfresh, o, ho, hop⟩ := rl_first_fresh hname hat hi
      rw [honce.eq rl_insertsBy ho hf hop hj hfresh hpre hia]
    · intro o ho i hi r
      -- nothing waits in the buffer
      have hC := rl_causal (n := n)
        fun argv => HeadFree rlCmds argv ∧ (rlType (n := n)).Submits dbl argv
      have hgot : ∀ o ∈ (rlType.readAt tname k).sent, o ∈ (rlType.readAt tname k).got r := by
        intro o ho
        obtain ⟨o₀, ho₀, hrest⟩ := ListType.mem_readAt_sent.mp ho
        exact ListType.mem_readAt_got.mpr ⟨o₀, hall r o₀ ho₀, hrest⟩
      have hperm := hC.perm hat r
      rw [(hC.inCausalOrder hat r).drained fun _ _ y hy _ => hgot y hy, List.append_nil] at hperm
      refine List.mem_flatMap.mpr
        ⟨o.msg.cmd, hperm.mem_iff.mpr ?_, by rw [hi]; simp [ListOp.placements]⟩
      exact List.mem_map.mpr ⟨o, hgot o ho, rfl⟩
  · intro hall
    have hat := ListType.reachable_once (ListType.hallowed rwfl_commands fun _ h => h.1) hk' tname
    have hmem := ListType.sent_member (ListType.hallowed rwfl_commands fun _ h => h.1) hk'
    have hrun : ListRun rwfleKind (fun _ => True) (fun m : RwflOp n => m.op) _ _ :=
      rwfl_run (fun _ _ => trivial) hat
    refine hrun.agreeOn rwfleKind_lawful (fun _ => rfl) rwfl_insertsBy hmem honce'
      ((rwfl_places dbl _).sent_name (fun argv h hc => h.2 (Or.inr hc)) hat) ?_ ?_
    · intro f hf j hj hpre r i hi
      exact hfirst.read rwfl_insertsBy hmem hk'.ledger hf hj hpre r hi
    · intro o ho i hi r
      obtain ⟨o₀, ho₀, hrest⟩ := ListType.mem_readAt_sent.mp ho
      exact List.mem_flatMap.mpr ⟨o, ListType.mem_readAt_got.mpr ⟨o₀, hall r o₀ ho₀, hrest⟩,
        by rw [hi]; simp [ListOp.placements]⟩

/-- Element `a`, inserted, removed and inserted again; all of it reaches
the other server in order. -/
def insertedAgain (ins rem : String) : List (Act 2 (List String)) :=
  [.submit 0 [ins, "l", "null", "a", "text", "0", "0", "0", "0"], .submit 0 [rem, "l", "a"],
    .submit 0 [ins, "l", "readd", "a", "text", "1", "0", "0", "0"],
    .deliver 1 0, .deliver 1 1, .deliver 1 2]

/-- The servers agree on an element that was inserted twice. -/
theorem inserted_agree_again : ∃ k k' : Net 2,
    Reachable (crdtService getLongLongFromObject) (.once (HeadFree rlCmds)) k ∧
    Reachable (crdtService getLongLongFromObject) (.once (HeadFree rwflCmds)) k' ∧
    k.sent.length = 3 ∧ k'.sent.length = 3 ∧
    AgreeOn rleKind .rlinsert "l" k ∧ AgreeOn rwfleKind .rwflinsert "l" k' := by
  obtain ⟨k, hrun, hlen, hall, honce⟩ : ∃ k,
      (crdtService getLongLongFromObject).run (crdtService getLongLongFromObject).start
        (insertedAgain "rlinsert" "rlrem") = some k ∧ k.sent.length = 3 ∧
      (∀ r, ∀ u ∈ k.sent.map Op.uid, u ∈ (k.got r).map Op.uid) ∧
      ∀ o ∈ k.sent, ∀ o' ∈ k.sent, cText (Placement.ofVector o.msg).pre ≠ "readd" →
        cText (Placement.ofVector o'.msg).pre ≠ "readd" →
        (Placement.ofVector o.msg).oid = (Placement.ofVector o'.msg).oid → o.uid = o'.uid :=
    ⟨_, rfl, by decide, by decide, by decide⟩
  obtain ⟨k', hrun', hlen', hall', honce', hsame⟩ : ∃ k,
      (crdtService getLongLongFromObject).run (crdtService getLongLongFromObject).start
        (insertedAgain "rwflinsert" "rwflrem") = some k ∧ k.sent.length = 3 ∧
      (∀ r, ∀ u ∈ k.sent.map Op.uid, u ∈ (k.got r).map Op.uid) ∧
      (∀ o ∈ k.sent, ∀ o' ∈ k.sent, cText (Placement.ofVector o.msg).pre ≠ "readd" →
        cText (Placement.ofVector o'.msg).pre ≠ "readd" →
        (Placement.ofVector o.msg).oid = (Placement.ofVector o'.msg).oid → o.uid = o'.uid) ∧
      ∀ o ∈ k.sent, cmdOfMsg o.msg = some .rwflinsert →
        (Placement.ofVector o.msg).content = "text" :=
    ⟨_, rfl, by decide, by decide, by decide, by decide⟩
  have hk : Reachable (crdtService getLongLongFromObject) (.once (HeadFree rlCmds)) k :=
    Service.run_reachable (by decide) hrun
  have hk' : Reachable (crdtService getLongLongFromObject) (.once (HeadFree rwflCmds)) k' :=
    Service.run_reachable (by decide) hrun'
  have hagree := inserted_agree getLongLongFromObject "l" hk hk' ?_ ?_ ?_
  · exact ⟨k, k', hk, hk', hlen, hlen', hagree.1 (hk.ledger.got_of_uid hall),
      hagree.2 (hk'.ledger.got_of_uid hall')⟩
  · intro oid o ho o' ho' h h'
    exact hk.ledger.uid_inj o ho o' ho'
      (honce o ho o' ho' h.anew h'.anew (h.oid.trans h'.oid.symm))
  · intro oid o ho o' ho' h h'
    exact hk'.ledger.uid_inj o ho o' ho'
      (honce' o ho o' ho' h.anew h'.anew (h.oid.trans h'.oid.symm))
  · intro r l₁ o l₂ oid hgot hins _ f hf hanew
    have ho := hk'.ledger.got_sent r o (by rw [hgot]; simp)
    rw [hsame o ho hins.name, hsame f hf hanew.name]

/-- Two servers insert element `a` of a remove-wins list, each with a content of its own, and
exchange the broadcasts. -/
def insertedTwice : List (Act 2 (List String)) :=
  [.submit 0 ["rlinsert", "l", "null", "a", "x", "0", "0", "0", "0"],
    .submit 1 ["rlinsert", "l", "null", "a", "y", "0", "0", "0", "0"],
    .deliver 1 0, .deliver 0 1]

/-- Element `a` of an RWF list, inserted, removed and inserted again with
another content; the second insert arrives first. -/
def overtaken : List (Act 2 (List String)) :=
  [.submit 0 ["rwflinsert", "l", "null", "a", "x", "0", "0", "0", "0"],
    .submit 0 ["rwflrem", "l", "a"],
    .submit 0 ["rwflinsert", "l", "readd", "a", "y", "0", "0", "0", "0"],
    .deliver 1 2, .deliver 1 1, .deliver 1 0]

/-- Servers that placed an element apart, and servers that saw its inserts
in another order, disagree. -/
theorem inserted_disagree :
    (∃ k : Net 2, Reachable (crdtService getLongLongFromObject) (.once (Issues rlCmds)) k ∧
      (∀ r, ∀ o ∈ k.sent, o ∈ k.got r) ∧ ¬ AgreeOn rleKind .rlinsert "l" k) ∧
    ∃ k : Net 2, Reachable (crdtService getLongLongFromObject) (.once (Issues rwflCmds)) k ∧
      PlacedOnce .rwflinsert "l" k ∧
      (∀ r, ∀ o ∈ k.sent, o ∈ k.got r) ∧ ¬ AgreeOn rwfleKind .rwflinsert "l" k := by
  constructor
  · obtain ⟨k, hrun, hall, o, ho, hname, hlist, hne⟩ : ∃ k,
        (crdtService getLongLongFromObject).run (crdtService getLongLongFromObject).start
          insertedTwice = some k ∧
        (∀ r, ∀ u ∈ k.sent.map Op.uid, u ∈ (k.got r).map Op.uid) ∧
        ∃ o ∈ k.sent, cmdOfMsg o.msg = some .rlinsert ∧ strAt 1 o.msg = some "l" ∧
          rleKind.contentOf (listAt (k.site 0) "l") (Placement.ofVector o.msg).oid
            ≠ rleKind.contentOf (listAt (k.site 1) "l") (Placement.ofVector o.msg).oid :=
      ⟨_, rfl, by decide, _, List.mem_cons_self, by decide, by decide, by decide⟩
    have hk : Reachable (crdtService getLongLongFromObject) (.once (Issues rlCmds)) k :=
      Service.run_reachable (by decide) hrun
    exact ⟨k, hk, hk.ledger.got_of_uid hall,
      fun hagree => hne (hagree.contentOf ho hname hlist 0 1)⟩
  · obtain ⟨k, hrun, hall, honce, o, ho, hname, hlist, hne⟩ : ∃ k,
        (crdtService getLongLongFromObject).run (crdtService getLongLongFromObject).start
          overtaken = some k ∧
        (∀ r, ∀ u ∈ k.sent.map Op.uid, u ∈ (k.got r).map Op.uid) ∧
        (∀ o ∈ k.sent, cmdOfMsg o.msg = some .rwflinsert →
          cText (Placement.ofVector o.msg).pre ≠ "readd" → o.uid = 0) ∧
        ∃ o ∈ k.sent, cmdOfMsg o.msg = some .rwflinsert ∧ strAt 1 o.msg = some "l" ∧
          rwfleKind.contentOf (listAt (k.site 0) "l") (Placement.ofVector o.msg).oid
            ≠ rwfleKind.contentOf (listAt (k.site 1) "l") (Placement.ofVector o.msg).oid :=
      ⟨_, rfl, by decide, by decide, _, List.mem_cons_self, by decide, by decide, by decide⟩
    have hk : Reachable (crdtService getLongLongFromObject) (.once (Issues rwflCmds)) k :=
      Service.run_reachable (by decide) hrun
    refine ⟨k, hk, ?_, hk.ledger.got_of_uid hall,
      fun hagree => hne (hagree.contentOf ho hname hlist 0 1)⟩
    intro oid o ho o' ho' h h'
    exact hk.ledger.uid_inj o ho o' ho'
      ((honce o ho h.name h.anew).trans (honce o' ho' h'.name h'.anew).symm)
end CrdtRedis
