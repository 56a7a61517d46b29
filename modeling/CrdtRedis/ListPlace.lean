/-
Where an insert goes: the neighbours its preparation looks at, the
identifier it makes between them, and the place the effect finds for it.

The effect does not look at the neighbours again. It compares with the
head, and else walks from the predecessor on. What ties the two together
is that the head carries the least of all identifiers
(`ListKind.HeadMin`), whatever else became of the order of the chain: an
insert goes to the front exactly if it is below the head. So an identifier
between the neighbours is hung in between them (`follows_of_between`).
-/
import CrdtRedis.ListMoves

namespace CrdtRedis

variable {n : ℕ} {E : Type}

namespace ListKind

/-- The identifier of element `oid`. -/
def posOf (K : ListKind n E) (h : Hash n) (oid : String) : Option Leid :=
  ((K.find h oid).getD none).bind (K.posAt h)

/-- The identifiers of predecessor `pre` and of the element behind it, or
of no predecessor and the head. -/
def gap (K : ListKind n E) (h : Hash n) (pre : String) : Option Leid × Option Leid :=
  match K.find h pre with
  | some (some a) => (K.posAt h a, (K.next h a).bind (K.posAt h))
  | _ => (none, ((K.getHead h).getD none).bind (K.posAt h))

/-- In `h'` element `oid` comes right behind what is predecessor `pre` in
`h`, or first if there is none. -/
def Follows (K : ListKind n E) (h h' : Hash n) (pre oid : String) : Prop :=
  ∃ addr, K.find h' oid = some (some addr) ∧
    match K.find h pre with
    | some (some a) => K.next h' a = some addr
    | _ => K.getHead h' = some (some addr)

/-- The predecessor a client names as `w` and a broadcast as `pre`. -/
inductive Word (K : ListKind n E) (h : Hash n) (w : String) : String → Prop
  | found {a : String} (hfind : K.find h w = some (some a)) (hpos : (K.posAt h a).isSome) :
      Word K h w w
  | missing (hfind : K.find h w = some none) (hlow : cText (sdstolower w) = "null") :
      Word K h w (sdstolower w)

/-- What the preparation of an insert accepts: an element without a place
gets one between the neighbours, an element with one keeps it. -/
inductive Accepts (K : ListKind n E) (me : Fin n) (h : Hash n) (w : String)
    (i : Placement) : Prop
  | fresh (hnone : K.posOf h i.oid = none) (hpre : cText i.pre ≠ "readd") (hword : K.Word h w i.pre)
      (hpos : i.pos = constructLeid (K.gap h w).1 (K.gap h w).2 (h.now me))
  | again (hpre : cText i.pre = "readd") (hpos : K.posOf h i.oid = some i.pos)

variable {K : ListKind n E} {h h' g : Hash n} {me : Fin n} {ok : String → Prop}
  {L : List Placement} {w : String} {i : Placement}

theorem gap_found {a : String} (hfind : K.find h w = some (some a)) :
    K.gap h w = (K.posAt h a, (K.next h a).bind (K.posAt h)) := by
  simp only [gap, hfind]

theorem gap_missing (hfind : K.find h w = some none) :
    K.gap h w = (none, ((K.getHead h).getD none).bind (K.posAt h)) := by
  simp only [gap, hfind]

-- ============================================== between the placements

/-- What holds between two placements: no identifier, no pointer and no
place changes; at most an unplaced record takes the name `head`. -/
structure Still (K : ListKind n E) (h h' : Hash n) : Prop where
  posAt : K.posAt h' = K.posAt h
  next : K.next h' = K.next h
  find : ∀ key a, K.find h key = some (some a) → K.find h' key = some (some a)
  posOf : ∀ key, K.posOf h' key = K.posOf h key
  head : K.getHead h' = K.getHead h ∨
    K.getHead h = some none ∧ K.getHead h' = some (some "head") ∧ K.posAt h' "head" = none

theorem Still.refl (h : Hash n) : K.Still h h :=
  ⟨rfl, rfl, fun _ _ hf => hf, fun _ => rfl, Or.inl rfl⟩

theorem Still.trans (h₁ : K.Still h g) (h₂ : K.Still g h') : K.Still h h' := by
  refine ⟨h₂.posAt.trans h₁.posAt, h₂.next.trans h₁.next,
    fun key a hf => h₂.find key a (h₁.find key a hf),
    fun key => (h₂.posOf key).trans (h₁.posOf key), ?_⟩
  rcases h₁.head with heq | ⟨hnone, hhead, hpos⟩
  · rw [← heq]
    exact h₂.head
  · rcases h₂.head with heq | ⟨hcon, -, -⟩
    · refine Or.inr ⟨hnone, heq.trans hhead, ?_⟩
      rw [h₂.posAt]
      exact hpos
    · rw [hhead] at hcon
      cases hcon

/-- A head stays the head. -/
theorem Still.getHead (hst : K.Still h h') {b : String} (hb : K.getHead h = some (some b)) :
    K.getHead h' = some (some b) := by
  rcases hst.head with heq | ⟨hcon, -, -⟩
  · rw [heq, hb]
  · rw [hb] at hcon
    cases hcon

theorem Quiet.still (hq : K.Quiet h h') : K.Still h h' := by
  have hposAt : K.posAt h' = K.posAt h := funext fun a => posAt_congr (hq.mark a)
  refine ⟨hposAt, funext hq.next, fun _ _ hf => hq.find hf, ?_, Or.inl hq.getHead⟩
  intro key
  unfold ListKind.posOf
  rw [hposAt]
  rcases hq.fields key with heq | ⟨-, hold, v, hv, hno⟩
  · rw [find_congr heq]
  · -- a control field holds no element before and after
    have hafter : K.find h' key = none := by
      simp [ListKind.find, hv, hno]
    have hbefore : (K.find h key).getD none = none := by
      unfold ListKind.find
      cases hf : h.fields key with
      | none => rfl
      | some u =>
          rw [hf, Option.bind_some] at hold
          simp [hold]
    rw [hafter, hbefore]
    rfl

theorem Sound.still_make (hK : K.Lawful) (hs : K.Sound h) {key addr : String}
    (hget : K.findOrCreate me h key = some (h', addr)) : K.Still h h' := by
  have hposAt : K.posAt h' = K.posAt h := funext (hs.posAt_make hK hget)
  rcases findOrCreate_cases hK hget with ⟨-, -, -, rfl⟩ | ⟨hf, rfl, hheap, hfields, -⟩
  · exact .refl _
  have hfind : ∀ {b}, b ≠ addr → K.find h' b = K.find h b := by
    intro b hb
    exact find_congr (by rw [hfields, Function.update_of_ne hb])
  have hnone : K.find h addr = some none := by
    simp [ListKind.find, hf]
  have hnew : K.find h' addr = some (some addr) := find_findOrCreate hK hget
  have hmark : K.posAt h addr = none := by
    rw [ListKind.posAt, hs.heap_none hf]
    rfl
  refine ⟨hposAt, ?_, ?_, ?_, ?_⟩
  · funext a
    unfold ListKind.next
    rw [hheap]
    by_cases ha : a = addr
    · subst ha
      rw [Function.update_self, hs.heap_none hf]
      rfl
    · rw [Function.update_of_ne ha]
  · intro b a hb
    by_cases hba : b = addr
    · subst hba
      rw [hnone] at hb
      cases hb
    · rwa [hfind hba]
  · intro b
    unfold ListKind.posOf
    rw [hposAt]
    by_cases hba : b = addr
    · subst hba
      rw [hnew, hnone]
      exact hmark
    · rw [hfind hba]
  · by_cases hhead : addr = "head"
    · subst hhead
      refine Or.inr ⟨hnone, hnew, ?_⟩
      rw [hposAt]
      exact hmark
    · exact Or.inl (getHead_congr (by rw [hfields, Function.update_of_ne (Ne.symm hhead)]))

/-- Writes without a placement leave everything in place. -/
theorem Moves.still (hK : K.Lawful) (hs : K.Sound h) (hm : K.Moves me ok h [] h') :
    K.Still h h' := by
  refine (hm.invariant (J := fun g => K.Sound g ∧ K.Still h g) ?_ ?_ ?_
    ⟨hs, .refl h⟩).2
  · intro g g' ⟨hg, hst⟩ hq
    exact ⟨hg.quiet hq, hst.trans hq.still⟩
  · intro g g' key addr ⟨hg, hst⟩ _ hget
    exact ⟨hg.make hK hget, hst.trans (hg.still_make hK hget)⟩
  · exact fun _ hi => nomatch hi

/-- The one placement of a sequence, with what is before and behind it. -/
theorem Moves.split (hm : K.Moves me ok h [i] h') :
    ∃ g g' addr, K.Moves me ok h [] g ∧ K.find g i.oid = some (some addr) ∧
      K.position g i.pre i.oid i.content addr i.pos = some g' ∧ K.Moves me ok g' [] h' := by
  generalize hL : [i] = L at hm
  induction hm with
  | refl => cases hL
  | quiet _ hq ih =>
      obtain ⟨g, g', addr, hpre, hfind, hpos, hpost⟩ := ih hL
      exact ⟨g, g', addr, hpre, hfind, hpos, .quiet hpost hq⟩
  | make _ hok hget ih =>
      obtain ⟨g, g', addr, hpre, hfind, hpos, hpost⟩ := ih hL
      exact ⟨g, g', addr, hpre, hfind, hpos, .make hpost hok hget⟩
  | place hpre _ hfind hpos _ =>
      obtain ⟨rfl, heq⟩ := List.append_inj' (show [] ++ [i] = _ from hL) rfl
      obtain rfl := (List.cons.inj heq).1
      exact ⟨_, _, _, hpre, hfind, hpos, .refl⟩

-- ============================================================ the head

/-- The head carries the least identifier. -/
def HeadMin (K : ListKind n E) (h : Hash n) : Prop :=
  ∀ a x, K.posAt h a = some x → ∃ b y, K.getHead h = some (some b) ∧
    K.posAt h b = some y ∧ y ≤ x

theorem headMin_empty (K : ListKind n E) (hheap : ∀ a, K.heap (Hash.empty : Hash n) a = none) :
    K.HeadMin (Hash.empty : Hash n) := by
  intro a x hx
  rw [posAt, hheap] at hx
  cases hx

theorem HeadMin.still (hmin : K.HeadMin h) (hst : K.Still h h') : K.HeadMin h' := by
  intro a x hx
  rw [hst.posAt] at hx ⊢
  obtain ⟨b, y, hhead, hy, hle⟩ := hmin a x hx
  exact ⟨b, y, hst.getHead hhead, hy, hle⟩

/-- The insertion of a record without an identifier: it becomes the head,
or the head stays and is not above it. -/
theorem insertChain_head (hK : K.Lawful) {e : ListRec E} {addr : String}
    (he : K.heap h addr = some e)
    (hins : K.insertChain (K.modify h addr (named i.oid i.content i.pos)) i.pre addr i.pos
      = some h') :
    K.getHead h' = some (some addr) ∧
        (∀ b, K.getHead h = some (some b) → b ≠ addr →
          ∃ x, K.posAt h b = some x ∧ i.pos < x) ∨
      ∃ b x, b ≠ addr ∧ K.getHead h = some (some b) ∧ K.getHead h' = some (some b) ∧
        K.posAt h b = some x ∧ x ≤ i.pos := by
  set g := K.modify h addr (named i.oid i.content i.pos) with hg
  have hghead : K.getHead g = K.getHead h := getHead_congr (by rw [hg, fields_modify hK])
  rcases insertChain_cases hins with ⟨hempty, rfl⟩ | ⟨head, x, hhead, hx, hcase⟩
  · refine Or.inl ⟨getHead_setHead hK, ?_⟩
    intro b hb _
    rw [← hghead, hempty] at hb
    cases hb
  rw [hghead] at hhead
  by_cases hself : head = addr
  · -- the record is the head already
    subst hself
    have hxpos : x = i.pos := by
      rw [posAt, hg, heap_modify hK, Function.update_self, he] at hx
      exact (Option.some.inj hx).symm
    have hsame : K.getHead h' = K.getHead g := by
      rcases hcase with ⟨hlt, -⟩ | ⟨-, po, s, p, q, -, -, -, rfl⟩
      · rw [hxpos] at hlt
        exact absurd hlt (lt_irrefl _)
      · exact getHead_congr (by rw [fields_modify hK, fields_modify hK])
    refine Or.inl ⟨by rw [hsame, hghead, hhead], ?_⟩
    intro b hb hne
    rw [hhead] at hb
    exact absurd (Option.some.inj (Option.some.inj hb)).symm hne
  have hxh : K.posAt h head = some x := (posAt_named hK hself).symm.trans hx
  rcases hcase with ⟨hlt, rfl⟩ | ⟨hge, po, s, p, q, -, -, -, rfl⟩
  · have hset : K.getHead (K.setHead g addr) = some (some addr) := getHead_setHead hK
    refine Or.inl ⟨(getHead_congr (by rw [fields_modify hK])).trans hset, ?_⟩
    intro b hb _
    rw [hhead] at hb
    obtain rfl := Option.some.inj (Option.some.inj hb)
    exact ⟨x, hxh, hlt⟩
  · refine Or.inr ⟨head, x, hself, hhead, ?_, hxh, not_lt.mp hge⟩
    rw [← hhead, ← hghead]
    exact getHead_congr (by rw [fields_modify hK, fields_modify hK])

/-- The element an insert is about keeps its record. -/
theorem find_position (hK : K.Lawful) {addr : String}
    (hfind : K.find h i.oid = some (some addr))
    (hpos : K.position h i.pre i.oid i.content addr i.pos = some h') :
    K.find h' i.oid = some (some addr) := by
  obtain ⟨e, he, ⟨-, rfl⟩ | ⟨-, hins⟩⟩ := position_cases hpos
  · exact hfind
  by_cases hname : i.oid = "head"
  · -- under the name `head` it is the head, before and after
    rw [hname] at hfind ⊢
    rcases insertChain_head hK he hins with ⟨hhead, -⟩ | ⟨b, -, hb, hhead, -⟩
    · exact hhead
    · rw [show K.getHead h = some (some addr) from hfind] at hhead
      exact absurd (Option.some.inj (Option.some.inj hhead)).symm hb
  · rw [find_congr, hfind]
    rw [(insertChain_relinked hK hins).fields _ hname, fields_modify hK]

theorem HeadMin.place (hK : K.Lawful) (hs : K.Sound h) (hmin : K.HeadMin h) {addr : String}
    (hpos : K.position h i.pre i.oid i.content addr i.pos = some h') : K.HeadMin h' := by
  obtain ⟨e, he, ⟨-, rfl⟩ | ⟨hoid, hins⟩⟩ := position_cases hpos
  · exact hmin
  have hnone := hs.posAt_none he hoid
  have hpos' : K.posAt h' = Function.update (K.posAt h) addr (some i.pos) := by
    rcases hs.posAt_place hK hpos with ⟨-, hsome⟩ | ⟨-, heq⟩
    · rw [hnone] at hsome
      cases hsome
    · exact heq
  have hself : K.posAt h' addr = some i.pos := by rw [hpos', Function.update_self]
  have hother : ∀ {b}, b ≠ addr → K.posAt h' b = K.posAt h b := by
    intro b hb
    rw [hpos', Function.update_of_ne hb]
  -- what a record that had an identifier says about the old head
  have hold : ∀ {a x}, a ≠ addr → K.posAt h' a = some x → ∃ b y, b ≠ addr ∧
      K.getHead h = some (some b) ∧ K.posAt h b = some y ∧ y ≤ x := by
    intro a x ha hx
    rw [hother ha] at hx
    obtain ⟨b, y, hb, hy, hle⟩ := hmin a x hx
    refine ⟨b, y, ?_, hb, hy, hle⟩
    intro hcon
    rw [hcon, hnone] at hy
    cases hy
  rcases insertChain_head hK he hins with ⟨hhead, hbelow⟩ | ⟨b, y, hb, hhead, hhead', hy, hle⟩
  · intro a x hx
    refine ⟨addr, i.pos, hhead, hself, ?_⟩
    by_cases ha : a = addr
    · subst ha
      rw [hself] at hx
      exact (Option.some.inj hx).le
    · obtain ⟨b, y, hb, hbh, hy, hle⟩ := hold ha hx
      obtain ⟨y', hy', hlt⟩ := hbelow b hbh hb
      rw [hy] at hy'
      obtain rfl := Option.some.inj hy'
      exact hlt.le.trans hle
  · intro a x hx
    refine ⟨b, y, hhead', (hother hb).trans hy, ?_⟩
    by_cases ha : a = addr
    · subst ha
      rw [hself] at hx
      exact Option.some.inj hx ▸ hle
    · obtain ⟨b', y', -, hbh, hy', hle'⟩ := hold ha hx
      rw [hhead] at hbh
      obtain rfl := Option.some.inj (Option.some.inj hbh)
      rw [hy] at hy'
      exact (Option.some.inj hy') ▸ hle'

theorem HeadMin.moves (hK : K.Lawful) (hs : K.Sound h) (hmin : K.HeadMin h)
    (hm : K.Moves me ok h L h') : K.HeadMin h' := by
  refine (hm.invariant (J := fun g => K.Sound g ∧ K.HeadMin g) ?_ ?_ ?_ ⟨hs, hmin⟩).2
  · intro g g' ⟨hg, hm⟩ hq
    exact ⟨hg.quiet hq, hm.still hq.still⟩
  · intro g g' key addr ⟨hg, hm⟩ _ hget
    exact ⟨hg.make hK hget, hm.still (hg.still_make hK hget)⟩
  · intro g g' j addr ⟨hg, hm⟩ _ _ _ hpos
    exact ⟨hg.place hK hpos, hm.place hK hg hpos⟩

-- ==================================================== the own effect

/-- The walk from a predecessor stops right behind it, if what follows is
above. -/
theorem walk_stop {heap : String → Option (ListRec E)} {pos : Leid} {fuel : ℕ}
    {s p : String} {q : Option String} (hwalk : walk heap pos fuel s = some (p, q))
    (habove : ∀ b, (heap s).bind ListRec.next = some b → ∀ x, (heap b).bind ListRec.posId = some x →
      ¬ x < pos) : p = s := by
  cases fuel with
  | zero => cases hwalk
  | succ fuel =>
      obtain ⟨rp, hrp, hwalk⟩ := Option.bind_eq_some_iff.mp hwalk
      cases hnext : rp.next with
      | none =>
          rw [hnext] at hwalk
          exact (Prod.mk.inj (Option.some.inj hwalk)).1.symm
      | some b =>
          rw [hnext] at hwalk
          obtain ⟨rb, hrb, hwalk⟩ := Option.bind_eq_some_iff.mp hwalk
          obtain ⟨x, hx, hwalk⟩ := Option.bind_eq_some_iff.mp hwalk
          have hge : ¬ x < pos := by
            refine habove b ?_ x ?_
            · rw [hrp]
              exact hnext
            · rw [hrb]
              exact hx
          rw [if_neg (mt leidCmp_pos.mp hge)] at hwalk
          exact (Prod.mk.inj (Option.some.inj hwalk)).1.symm

/-- An insert above its predecessor and below what follows is hung in right
behind it. -/
theorem insertChain_behind (hK : K.Lawful) (hmin : K.HeadMin h) {e : ListRec E}
    {addr a : String} {x : Leid} (he : K.heap h addr = some e) (hnone : K.posAt h addr = none)
    (hfind : K.find h i.pre = some (some a)) (hx : K.posAt h a = some x) (hlt : x < i.pos)
    (habove : ∀ c y, K.next h a = some c → K.posAt h c = some y → i.pos < y)
    (hins : K.insertChain (K.modify h addr (named i.oid i.content i.pos)) i.pre addr i.pos
      = some h') : K.next h' a = some addr := by
  have hplaced : ∀ {b y}, K.posAt h b = some y → b ≠ addr := by
    intro b y hy hcon
    rw [hcon, hnone] at hy
    cases hy
  have hne := hplaced hx
  -- the head is not above the predecessor
  obtain ⟨b, y, hbh, hy, hyx⟩ := hmin a x hx
  set g := K.modify h addr (named i.oid i.content i.pos) with hg
  have hgfields : g.fields = h.fields := fields_modify hK _
  have hghead : K.getHead g = some (some b) := (getHead_congr (congrFun hgfields _)).trans hbh
  have hgmade : ∀ {c}, (K.heap h c).isSome → (K.heap g c).isSome := by
    intro c hc
    rw [hg, heap_modify hK]
    by_cases hca : c = addr
    · rw [hca, Function.update_self, he]
      rfl
    · rwa [Function.update_of_ne hca]
  rcases insertChain_cases hins with ⟨hempty, -⟩ | ⟨head, z, hhead, hz, hcase⟩
  · rw [hghead] at hempty
    cases hempty
  rw [hghead] at hhead
  obtain rfl := Option.some.inj (Option.some.inj hhead)
  have hzy : z = y := Option.some.inj (hz.symm.trans ((posAt_named hK (hplaced hy)).trans hy))
  subst hzy
  rcases hcase with ⟨hfront, -⟩ | ⟨-, po, s, p, q, hpo, hs, hwalk, rfl⟩
  · exact absurd (hfront.trans_le hyx) hlt.asymm
  rw [find_congr (congrFun hgfields _), hfind] at hpo
  obtain rfl := Option.some.inj hpo
  have hxg : K.posAt g a = some x := (posAt_named hK hne).trans hx
  -- the walk starts at the predecessor and stops there
  have hstart : s = a := by
    obtain ⟨ra, hra, heq⟩ := Option.map_eq_some_iff.mp hs
    rw [posAt, hra] at hxg
    rw [if_pos (by rw [show ra.posId = some x from hxg]; rfl)] at heq
    exact heq.symm
  subst hstart
  have hstop : p = s := by
    refine walk_stop hwalk ?_
    intro c hc y hyc
    by_cases hca : c = addr
    · subst hca
      have hself : K.posAt g c = some i.pos := by
        rw [posAt, hg, heap_modify hK, Function.update_self, he]
        rfl
      rw [Option.some.inj (hyc.symm.trans hself)]
      exact lt_irrefl _
    · have hnext : K.next h s = some c := (next_named hK s).symm.trans hc
      exact (habove c y hnext ((posAt_named hK hca).symm.trans hyc)).asymm
  subst hstop
  have hpmade : (K.heap h p).isSome := by
    by_contra hcon
    rw [posAt, Option.not_isSome_iff_eq_none.mp hcon] at hx
    cases hx
  rw [next_modify_modify hK (hgmade hpmade) (hgmade (by rw [he]; rfl)), if_neg hne, if_pos rfl]

/-- The effect of a fresh insert at its own server: an identifier between
the neighbours goes between them. -/
theorem follows_of_between (hK : K.Lawful) (hs : K.Sound h) (hmin : K.HeadMin h)
    (hnone : K.posOf h i.oid = none) (hword : K.Word h w i.pre)
    (hbetween : Between (K.gap h w).1 (K.gap h w).2 i.pos)
    (hm : K.Moves me ok h [i] h') : K.Follows h h' w i.oid := by
  obtain ⟨g, g', addr, hpre, hfind, hpos, hpost⟩ := hm.split
  have hsg := hs.moves hK hpre
  have hst := hpre.still hK hs
  have hst' := hpost.still hK (hsg.place hK hpos)
  -- the record the insert finds has no place
  have hgnone : K.posAt g addr = none := by
    have hof := hst.posOf i.oid
    rw [hnone, posOf, hfind] at hof
    exact hof
  obtain ⟨e, he, ⟨hoid, rfl⟩ | ⟨hoid, hins⟩⟩ := position_cases hpos
  · have hsome := (hsg.posId addr e he).mpr hoid
    rw [posAt, he] at hgnone
    rw [show e.posId = none from hgnone] at hsome
    cases hsome
  refine ⟨addr, hst'.find _ _ (find_position hK hfind hpos), ?_⟩
  generalize hip : i.pre = p at hword
  cases hword with
  | missing hwfind hlow =>
      rw [gap_missing hwfind] at hbetween
      simp only [hwfind]
      rcases insertChain_head hK he hins with ⟨hh, -⟩ | ⟨b, x, hb, hh, -, hx, hle⟩
      · exact hst'.getHead hh
      · -- a head that is not above is no neighbour
        rcases hst.head with heq | ⟨-, hhead, hpos'⟩
        · refine absurd (hbetween.right x ?_) (not_lt.mpr hle)
          rw [← heq, hh, ← hst.posAt]
          exact hx
        · rw [hhead] at hh
          obtain rfl := Option.some.inj (Option.some.inj hh)
          rw [hpos'] at hx
          cases hx
  | found hwfind hposa =>
      rename_i a
      rw [gap_found hwfind] at hbetween
      simp only [hwfind]
      obtain ⟨x, hx⟩ := Option.isSome_iff_exists.mp hposa
      rw [hst'.next]
      refine insertChain_behind hK (hmin.still hst) he hgnone ?_ ?_ (hbetween.left x hx) ?_ hins
      · rw [hip]
        exact hst.find w a hwfind
      · rw [hst.posAt]
        exact hx
      · intro c y hc hy
        rw [hst.next] at hc
        rw [hst.posAt] at hy
        exact hbetween.right y (by rw [hc]; exact hy)

-- ==================================================== the preparation

/-- The predecessor of an accepted insert: found and positioned, or one of
the two words. -/
theorem checkPre_cases {lookup : ListRec E → Bool} {ho : Option (Hash n)} {preArg : String}
    {pre : Option (ListRec E)} (hpre : K.checkPre lookup ho w = some (.ok (pre, preArg))) :
    (∃ a p, K.find (ho.getD .empty) w = some (some a) ∧ K.heap (ho.getD .empty) a = some p ∧
        p.posId.isSome ∧ pre = some p ∧ preArg = w) ∨
      K.find (ho.getD .empty) w = some none ∧ pre = none ∧ preArg = sdstolower w ∧
        (cText preArg = "null" ∨ cText preArg = "readd") := by
  have hmissing : checkPre.missing w = .ok (pre, preArg) →
      pre = none ∧ preArg = sdstolower w ∧ (cText preArg = "null" ∨ cText preArg = "readd") := by
    intro hmiss
    unfold checkPre.missing at hmiss
    dsimp only at hmiss
    split at hmiss
    · cases hmiss
    · next hword =>
        injection hmiss with hmiss
        obtain ⟨rfl, rfl⟩ := Prod.mk.inj hmiss
        refine ⟨rfl, rfl, ?_⟩
        by_contra hcon
        exact hword (not_or.mp hcon)
  unfold checkPre at hpre
  cases ho with
  | none => exact Or.inr ⟨rfl, hmissing (Option.some.inj hpre)⟩
  | some h =>
      obtain ⟨ao, hfind, hpre⟩ := Option.bind_eq_some_iff.mp hpre
      cases ao with
      | none => exact Or.inr ⟨hfind, hmissing (Option.some.inj hpre)⟩
      | some a =>
          obtain ⟨p, hp, hpre⟩ := Option.map_eq_some_iff.mp hpre
          split at hpre
          · next hvis =>
              injection hpre with hpre
              obtain ⟨rfl, rfl⟩ := Prod.mk.inj hpre
              exact Or.inl ⟨a, p, hfind, hp, (Bool.and_eq_true _ _ ▸ hvis).2, rfl, rfl⟩
          · cases hpre

/-- The bounds of the new identifier are the neighbours. -/
theorem bounds_eq_gap {lookup : ListRec E → Bool} {ho : Option (Hash n)} {preArg : String}
    {pre : Option (ListRec E)} {b : Option Leid × Option Leid}
    (hpre : K.checkPre lookup ho w = some (.ok (pre, preArg)))
    (hst : K.Still (ho.getD .empty) g) (hb : K.bounds g pre = some b) :
    b = K.gap (ho.getD .empty) w := by
  rcases checkPre_cases hpre with ⟨a, p, hfind, hp, -, rfl, -⟩ | ⟨hfind, rfl, -, -⟩
  · rw [gap_found hfind]
    have hposa : K.posAt (ho.getD .empty) a = p.posId := by rw [posAt, hp]; rfl
    have hnexta : K.next (ho.getD .empty) a = p.next := ListKind.next_of_heap hp
    rw [hposa, hnexta]
    unfold bounds at hb
    cases hq : p.next with
    | none =>
        simp only [hq] at hb
        exact (Option.some.inj hb).symm
    | some q =>
        simp only [hq] at hb
        obtain ⟨rq, hrq, rfl⟩ := Option.map_eq_some_iff.mp hb
        have hposq : K.posAt g q = rq.posId := by rw [posAt, hrq]; rfl
        rw [← hst.posAt, Option.bind_some, hposq]
  · rw [gap_missing hfind]
    obtain ⟨head, hhead, hb⟩ := Option.bind_eq_some_iff.mp hb
    cases head with
    | none =>
        obtain rfl := Option.some.inj hb
        rcases hst.head with heq | ⟨-, hcon, -⟩
        · rw [← heq, hhead]
          rfl
        · rw [hcon] at hhead
          cases hhead
    | some a =>
        obtain ⟨rh, hrh, rfl⟩ := Option.map_eq_some_iff.mp hb
        have hposa : K.posAt g a = rh.posId := by rw [posAt, hrh]; rfl
        rcases hst.head with heq | ⟨hnone, hcon, hpos⟩
        · rw [← heq, hhead, ← hst.posAt, ← hposa]
          rfl
        · rw [hcon] at hhead
          obtain rfl := Option.some.inj (Option.some.inj hhead)
          rw [← hposa, hpos, hnone]
          rfl

/-- A record that is made is no clock. -/
theorem clock_findOrCreate (hK : K.Lawful) (hP : K.Plain) {key addr : String}
    (hget : K.findOrCreate me h key = some (h', addr)) : h'.clock = h.clock := by
  rcases findOrCreate_cases hK hget with ⟨-, -, -, rfl⟩ | ⟨hf, rfl, -, hfields, -⟩
  · rfl
  unfold Hash.clock
  rw [hfields]
  by_cases hkey : addr = "current"
  · subst hkey
    rw [Function.update_self, hf]
    split
    · next c hc =>
        have hptr := hK.unptr_ptr "current"
        rw [Option.some.inj hc, hP.clock] at hptr
        cases hptr
    · rfl
  · rw [Function.update_of_ne (Ne.symm hkey)]

theorem now_findOrCreate (hK : K.Lawful) (hP : K.Plain) {key addr : String}
    (hget : K.findOrCreate me h key = some (h', addr)) : h'.now me = h.now me := by
  unfold Hash.now
  rw [clock_findOrCreate hK hP hget]

/-- A place writes no clock. -/
theorem clock_position (hK : K.Lawful) {addr : String}
    (hpos : K.position h i.pre i.oid i.content addr i.pos = some h') : h'.clock = h.clock := by
  rcases mark_position hK hpos with ⟨rfl, -⟩ | ⟨-, -, hfields, -⟩
  · rfl
  · unfold Hash.clock
    rw [hfields "current" (by decide)]

/-- An accepted insert either names an identifier it found and leaves the
hash, or counts and makes one of the clock. -/
theorem placeAt_cases (hP : K.Plain) {count : Vc n → Vc n} {pre : Option (ListRec E)}
    {preArg oid : String} {e : ListRec E} {res : Except Reply Leid}
    (hpl : K.placeAt me count h pre preArg oid e = some (h', res)) :
    h' = h ∧ (∀ pos, res = .ok pos → cText preArg = "readd") ∨
      h' = h.set "current" (.clock (count (h.now me))) ∧
        (h.fields "current").bind K.unptr = none ∧ cText preArg ≠ "readd" ∧
        ∃ p q, res = .ok (constructLeid p q (h.now me)) := by
  unfold placeAt at hpl
  split at hpl
  · split at hpl
    · obtain ⟨rfl, rfl⟩ := Prod.mk.inj (Option.some.inj hpl)
      exact Or.inl ⟨rfl, fun _ hcon => by cases hcon⟩
    · next hre =>
        obtain ⟨b, -, hpl⟩ := Option.bind_eq_some_iff.mp hpl
        obtain ⟨⟨h₁, c⟩, hget, heq⟩ := Option.map_eq_some_iff.mp hpl
        obtain ⟨rfl, rfl⟩ := Prod.mk.inj heq
        obtain ⟨rfl, ⟨rfl, hf⟩ | ⟨rfl, hf⟩⟩ := getCurrent_cases hget
        · exact Or.inr ⟨rfl, by rw [hf]; exact hP.clock _, hre, _, _, rfl⟩
        · exact Or.inr ⟨by simp [Hash.set], by rw [hf]; rfl, hre, _, _, rfl⟩
  · split at hpl
    · obtain ⟨rfl, rfl⟩ := Prod.mk.inj (Option.some.inj hpl)
      exact Or.inl ⟨rfl, fun _ hcon => by cases hcon⟩
    · next hre =>
        obtain ⟨x, -, heq⟩ := Option.map_eq_some_iff.mp hpl
        obtain ⟨rfl, rfl⟩ := Prod.mk.inj heq
        exact Or.inl ⟨rfl, fun _ _ => not_not.mp hre⟩

theorem placeAt_quiet (hK : K.Lawful) (hP : K.Plain) {count : Vc n → Vc n}
    {pre : Option (ListRec E)} {preArg oid : String} {e : ListRec E} {res : Except Reply Leid}
    (hpl : K.placeAt me count h pre preArg oid e = some (h', res)) : K.Quiet h h' := by
  rcases placeAt_cases hP hpl with ⟨rfl, -⟩ | ⟨rfl, hf, -⟩
  · exact .refl _
  · exact .set hK (by decide) hf (hP.clock _)

/-- What an insert broadcasts. -/
theorem accepts_of_placeAt (hK : K.Lawful) (hP : K.Plain) {lookup : ListRec E → Bool}
    {ho : Option (Hash n)} {preArg oid addr : String} {pre : Option (ListRec E)}
    {e : ListRec E} {count : Vc n → Vc n} {pos : Leid} (hs : K.Sound (ho.getD .empty))
    (hpre : K.checkPre lookup ho w = some (.ok (pre, preArg)))
    (hget : K.findOrCreate me (ho.getD .empty) oid = some (g, addr))
    (he : K.heap g addr = some e)
    (hpl : K.placeAt me count g pre preArg oid e = some (h', .ok pos)) (content : String) :
    K.Accepts me (ho.getD .empty) w ⟨preArg, oid, content, pos⟩ := by
  have hst := hs.still_make hK hget
  have hof : K.posOf (ho.getD .empty) oid = e.posId := by
    rw [← hst.posOf, posOf, find_findOrCreate hK hget]
    show K.posAt g addr = e.posId
    rw [posAt, he]
    rfl
  unfold placeAt at hpl
  cases hoid : e.oid with
  | none =>
      simp only [hoid] at hpl
      split at hpl
      · cases hpl
      · next hre =>
          obtain ⟨b, hb, hpl⟩ := Option.bind_eq_some_iff.mp hpl
          obtain ⟨⟨h₁, c⟩, hcur, heq⟩ := Option.map_eq_some_iff.mp hpl
          injection (Prod.mk.inj heq).2 with hposeq
          refine .fresh ?_ hre ?_ ?_
          · rw [hof]
            by_contra hne
            have hsome := ((hs.make hK hget).posId addr e he).mp
              (Option.isSome_iff_ne_none.mpr hne)
            rw [hoid] at hsome
            cases hsome
          · rcases checkPre_cases hpre with ⟨a, p, hfind, hp, hpos, -, rfl⟩ |
              ⟨hfind, -, hlow, hword⟩
            · exact .found hfind (by rw [posAt, hp]; exact hpos)
            · subst hlow
              exact .missing hfind (hword.resolve_right hre)
          · rw [← bounds_eq_gap hpre hst hb, ← now_findOrCreate hK hP hget,
              ← (getCurrent_cases hcur).1]
            exact hposeq.symm
  | some oid' =>
      simp only [hoid] at hpl
      split at hpl
      · cases hpl
      · next hre =>
          obtain ⟨x, hx, heq⟩ := Option.map_eq_some_iff.mp hpl
          injection (Prod.mk.inj heq).2 with hposeq
          refine .again (not_not.mp hre) ?_
          rw [hof, hx, hposeq]

/-- The vector an accepted insert broadcasts. -/
theorem InsertPrepared.sends (hK : K.Lawful) (hP : K.Plain) {lookup : ListRec E → Bool}
    {argv : List String} {ho ho' : Option (Hash n)} {count : Vc n → Vc n}
    {stamp : Hash n → ListRec E → Option (Hash n × Vc n)} {rargv : List (Arg n)}
    (hs : K.Sound (ho.getD .empty))
    (hp : K.InsertPrepared lookup me argv ho count stamp ho' (.ok rargv)) :
    ∃ preArg pos t, rargv = (argv.set 2 preArg).map Arg.str ++ [.leid pos, .vc t] ∧
      ∀ content, K.Accepts me (ho.getD .empty) (argv.getD 2 "")
        ⟨preArg, argv.getD 3 "", content, pos⟩ := by
  cases hp with
  | placed hat _ hplace _ =>
      exact ⟨_, _, _, rfl, accepts_of_placeAt hK hP hs hat.pre hat.get hat.heap hplace⟩

end ListKind

end CrdtRedis
