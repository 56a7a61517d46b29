/-
The properties of an element of an RWF list.

# One element

Where no command names the element `head`, whose record is that of
whichever element comes first, an element of the list is an object by
itself (`rwfleService`): its body, moved by the broadcasts that name it.
Reduced to its header it is the header of every RWF type.

# One epoch

The broadcasts that carry the largest history make up the body
(`rwfl_resets`), except for the values of the properties, which a remove
leaves in place. They count once an insert or an update of the epoch has
written them, so the view has them only then (`RwflView.val`). Within the
epoch a property follows its greatest update, and without one the insert
of the greatest server (`RwflView.Of`).

# Lamport times

The time of an element is at least that of every update applied since the
last remove, and the next update is one later; so no server gives two
updates of an epoch the same time, provided they name a property: one that
names none leaves the time where it is.
-/
import CrdtRedis.ListInsert
import CrdtRedis.Rwf.ListState

namespace CrdtRedis

open Replication

variable {n : ℕ}

-- ============================================= the element by itself

/-- What a client asks of an element. -/
inductive RwflReq
  | insert (i : Placement) (v : InsertProps)
  | update (type : String) (value : ℤ)
  | rem

/-- Element `oid` of an RWF list by itself. -/
def rwfleService (oid : String) : Service n (RwflBody n) RwflReq (RwflOp n) where
  init := RwflBody.new
  prepare := fun _ c b =>
    match c with
    | .insert i v => some (b, if b.header.exist then none
        else some (.insert { i with oid := oid } v b.header.current))
    | .update type value => some (b, if b.header.exist then
        some (.update oid type value { b.current with x := b.current.x + 1 } b.header.current)
        else none)
    | .rem => some (b, if b.header.exist then some (.rem oid (vcNow b.header.current)) else none)
  effect := fun _ m b => some (m.write b)

/-- What an accepted request broadcasts. -/
theorem rwfleService_issue {oid : String} {r : Fin n} {c : RwflReq} {b b' : RwflBody n}
    {m : RwflOp n} (hp : (rwfleService oid).prepare r c b = some (b', some m)) :
    b' = b ∧ ((∃ i v, m = .insert i v b.header.current ∧ i.oid = oid ∧ b.header.exist = false) ∨
      (∃ type value, m = .update oid type value { b.current with x := b.current.x + 1 }
        b.header.current ∧ b.header.exist = true) ∨
      m = .rem oid (vcNow b.header.current) ∧ b.header.exist = true) := by
  cases c with
  | insert i v =>
      obtain ⟨rfl, hm⟩ := Prod.mk.inj (Option.some.inj hp)
      split at hm
      · cases hm
      · next hex => exact ⟨rfl, Or.inl ⟨_, v, (Option.some.inj hm).symm, rfl, by simpa using hex⟩⟩
  | update type value =>
      obtain ⟨rfl, hm⟩ := Prod.mk.inj (Option.some.inj hp)
      split at hm
      · next hex => exact ⟨rfl, Or.inr (Or.inl ⟨type, value, (Option.some.inj hm).symm, hex⟩)⟩
      · cases hm
  | rem =>
      obtain ⟨rfl, hm⟩ := Prod.mk.inj (Option.some.inj hp)
      split at hm
      · next hex => exact ⟨rfl, Or.inr (Or.inr ⟨(Option.some.inj hm).symm, hex⟩)⟩
      · cases hm

theorem rwfleService_prepare {oid : String} {r : Fin n} {c : RwflReq} {b b' : RwflBody n}
    {mo : Option (RwflOp n)} (hp : (rwfleService oid).prepare r c b = some (b', mo)) : b' = b := by
  cases c <;> exact (Prod.mk.inj (Option.some.inj hp)).1.symm

/-- What a broadcast says about element `oid`. -/
def RwflOp.about (oid : String) (m : RwflOp n) : Option (RwflOp n) :=
  if m.op.oid = oid then some m else none

theorem RwflOp.about_eq_some {oid : String} {m m' : RwflOp n} :
    m.about oid = some m' ↔ m.op.oid = oid ∧ m' = m := by
  unfold RwflOp.about
  split
  · next h => exact ⟨fun heq => ⟨h, (Option.some.inj heq).symm⟩, fun heq => by rw [heq.2]⟩
  · next h => exact ⟨fun heq => (nomatch heq), fun heq => absurd heq.1 h⟩

theorem RwflOp.about_eq_none {oid : String} {m : RwflOp n} :
    m.about oid = none ↔ m.op.oid ≠ oid := by
  simp [RwflOp.about]

/-- An RWF list, read at one element. -/
def rwfleProjection {dbl : String → Option ℤ} {allowed : List String → Prop}
    (hall : ∀ argv, allowed argv → listOid argv ≠ "head") (oid : String) :
    Projection (rwflType (n := n)).service
      (.once fun argv => allowed argv ∧ (rwflType (n := n)).Submits dbl argv)
      (rwfleService oid) (.once fun _ => True) where
  view := fun r ho => rwfleKind.bodyAt r (ho.getD .empty) oid
  route := RwflOp.about oid
  inv := fun _ ho => rwfleKind.Sound (ho.getD .empty)
  good := fun m => m.op.oid ≠ "head"
  good_prepare := by
    intro r argv ho ho' m hc hs hp
    have hissue := (rwfl_prepared (fun _ => True) hc.2 trivial hp).issue m rfl
    rw [(hissue.accepts hs).1]
    exact hall argv hc.1
  inv_init := fun _ => ListKind.sound_empty _ fun _ => rfl
  inv_prepare := by
    intro r argv ho ho' m hc hs hp
    exact hs.moves rwfleKind_lawful (rwfl_prepared (fun _ => True) hc.2 trivial hp).moves
  inv_effect := by
    intro r m ho ho' _ hs he
    obtain ⟨h', happ, rfl⟩ := Option.map_eq_some_iff.mp he
    have hm : rwfleKind.Moves r (fun _ => True) (ho.getD .empty) m.op.placements h' :=
      RwflOp.apply_moves trivial happ
    exact hs.moves rwfleKind_lawful hm
  view_init := fun _ => rfl
  reject := by
    intro r argv ho ho' hc hs hp
    exact Or.inl (congrFun ((rwfl_prepared (fun _ => True) hc.2 trivial hp).body hs) oid)
  prepare_other := by
    intro r argv ho ho' m hc hs hp _
    exact congrFun ((rwfl_prepared (fun _ => True) hc.2 trivial hp).body hs) oid
  prepare_this := by
    intro r argv ho ho' m m' hc hs hp hroute
    obtain ⟨hoid, rfl⟩ := RwflOp.about_eq_some.mp hroute
    have hprep := rwfl_prepared (fun _ => True) hc.2 trivial hp
    have hname : oid ≠ "head" := by
      rw [← hoid, ((hprep.issue m' rfl).accepts hs).1]
      exact hall argv hc.1
    rw [congrFun (hprep.body hs) oid]
    -- the record the command found is the element's
    have hbody : ∀ {h a e}, ho = some h → rwfleKind.find h oid = some (some a) →
        h.rwfles a = some e → rwfleKind.bodyAt r (ho.getD .empty) oid = e.body := by
      intro h a e hho hfind he
      subst hho
      obtain rfl := hs.find hname hfind
      exact ListKind.bodyAt_of_heap he
    cases hprep.issue m' rfl with
    | @insert pre preArg addr h₁ h₂ e pos v hcmd hpre hget he hhid hplace =>
        have hkey : argv.getD 3 "" = oid := hoid
        rw [hkey] at hget ⊢
        have haddr : addr = oid := (hs.make rwfleKind_lawful hget).find hname
          (ListKind.find_findOrCreate rwfleKind_lawful hget)
        have hview : rwfleKind.bodyAt r (ho.getD .empty) oid = e.body := by
          rw [← ListKind.bodyAt_findOrCreate rwfleKind_lawful hs hget, ← haddr]
          exact ListKind.bodyAt_of_heap he
        refine ⟨.insert ⟨preArg, oid, argv.getD 4 "", pos⟩ v, trivial, ?_⟩
        rw [hview]
        have hex : e.body.header.exist = false := hhid
        simp only [rwfleService, hex, Bool.false_eq_true, if_false]
    | @update h a e v hcmd hho hfind he hex =>
        have hkey : argv.getD 2 "" = oid := hoid
        rw [hkey] at hfind ⊢
        refine ⟨.update (sdstolower (argv.getD 3 "")) v, trivial, ?_⟩
        have hex : e.body.header.exist = true := hex
        simp only [rwfleService, hbody hho hfind he, hex, if_true]
    | @rem h a e hcmd hho hfind he hex =>
        have hkey : argv.getD 2 "" = oid := hoid
        rw [hkey] at hfind ⊢
        have hex : e.body.header.exist = true := hex
        exact ⟨.rem, trivial, by simp only [rwfleService, hbody hho hfind he, hex, if_true]⟩
  effect_other := by
    intro r m ho ho' hgood hs he hroute
    obtain ⟨h', happ, rfl⟩ := Option.map_eq_some_iff.mp he
    show rwfleKind.bodyAt r h' oid = _
    rw [RwflOp.apply_body hs hgood happ,
      Function.update_of_ne (Ne.symm (RwflOp.about_eq_none.mp hroute))]
  effect_this := by
    intro r m ho ho' m' hgood hs he hroute
    obtain ⟨rfl, rfl⟩ := RwflOp.about_eq_some.mp hroute
    obtain ⟨h', happ, rfl⟩ := Option.map_eq_some_iff.mp he
    show some (m'.write _) = some (rwfleKind.bodyAt r h' m'.op.oid)
    rw [RwflOp.apply_body hs hgood happ, Function.update_self]
  guard := fun _ _ _ => trivial
  dup := fun h => h

-- ================================================ reduced to the header

/-- What a broadcast is to the header. -/
def RwflOp.toReh : RwflOp n → RehOp n
  | .insert _ _ t => ⟨.add, t⟩
  | .update _ _ _ _ t => ⟨.update, t⟩
  | .rem _ t => ⟨.rem, t⟩

theorem RwflOp.toReh_t (m : RwflOp n) : m.toReh.t = m.stamp := by
  cases m <;> rfl

/-- What a broadcast does to the body once its history has removed what it
goes beyond. -/
def RwflOp.finish (m : RwflOp n) (b : RwflBody n) : RwflBody n :=
  match m with
  | .insert _ v t => b.insertFunc v t
  | .update _ type value lt t => b.updateFunc type lt value t
  | .rem _ _ => b

theorem RwflOp.write_eq (m : RwflOp n) (b : RwflBody n) :
    m.write b = m.finish (b.removeFunc m.stamp).1 := by
  cases m <;> rfl

theorem RwflBody.removeFunc_header (b : RwflBody n) (t : Vc n) :
    (b.removeFunc t).1.header = (b.header.removeCheck t).1 :=
  Reh.removeBy_header fun _ _ => rfl

/-- The effects move the header as the header alone would move. -/
theorem RwflOp.write_header (m : RwflOp n) (b : RwflBody n) :
    (m.write b).header = b.header.apply m.toReh := by
  rw [RwflOp.write_eq, Reh.apply, RwflOp.toReh_t, ← RwflBody.removeFunc_header]
  cases m with
  | insert i v t =>
      simp only [finish, toReh, RwflBody.insertFunc, stamp]
      split
      · next header heq => rw [heq]; rfl
      · next header heq => rw [heq, Reh.addCheck_false heq]
  | update oid type value lt t =>
      simp only [finish, toReh, RwflBody.updateFunc, stamp]
      split
      · next header heq =>
          rw [heq]
          split
          · rfl
          · exact RwflBody.acquiredUpdate_header _ _ _
      · next header heq => rw [heq, Reh.updateCheck_false heq]
  | rem oid t => rfl

/-- An element reduced to its header. -/
theorem rwfle_reh {oid : String} {k : Config n (RwflBody n) (RwflOp n)}
    (hk : Reachable (rwfleService oid) (.once fun _ => True) k) :
    Reachable rehService (.once fun _ => True) (k.map (fun b => b.header) RwflOp.toReh) := by
  refine hk.map _ _ (fun _ => rfl) ?_ ?_ ?_
  · intro r c b b' _ hp
    rw [rwfleService_prepare hp]
  · intro r c b b' m _ hp
    obtain ⟨rfl, ⟨i, v, rfl, -, hex⟩ | ⟨type, value, rfl, hex⟩ | ⟨rfl, hex⟩⟩ :=
      rwfleService_issue hp
    · exact ⟨.add, trivial, by simp [rehService, hex, RwflOp.toReh]⟩
    · exact ⟨.update, trivial, by simp [rehService, hex, RwflOp.toReh]⟩
    · exact ⟨.rem, trivial, by simp [rehService, hex, RwflOp.toReh]⟩
  · intro r m b b' he
    obtain rfl := Option.some.inj he
    exact congrArg some (m.write_header b).symm

-- ============================================ within an epoch and across

/-- An element besides its history: a value counts once something of the
epoch has written it. -/
structure RwflView where
  pid : ℤ
  x : ℤ
  time : Property → Option Lc
  val : Property → Score

namespace RwflView

/-- A new element. -/
def empty : RwflView := ⟨pidNexist, 0, fun _ => none, fun _ => none⟩

/-- An update that names property `p`. -/
def acquire (b : RwflView) (p : Property) (lt : Lc) (v : ℤ) : RwflView :=
  if (b.time p).all fun u => decide (lcCmp u lt ≤ 0) then
    { b with
      x := max b.x lt.x
      time := Function.update b.time p (some lt)
      val := Function.update b.val p (some (p.shown v)) }
  else b

/-- What a broadcast of the current epoch does. -/
def act (b : RwflView) : RwflOp n → RwflView
  | .insert _ v t =>
      if b.pid < t.id then
        { b with
          pid := t.id
          val := fun p => if (b.time p).isSome then b.val p else some (p.shown (v.val p)) }
      else b
  | .update _ type value lt _ =>
      let b := { b with pid := if b.pid = pidNexist then pidWaitInnate else b.pid }
      match Property.ofType type with
      | none => b
      | some p => b.acquire p lt (toInt value)
  | .rem _ _ => b

end RwflView

/-- The element as the view has it. -/
def rwflView (b : RwflBody n) : RwflView :=
  ⟨b.header.pid, b.current.x, b.time,
    fun p => if (b.time p).isSome ∨ 0 ≤ b.header.pid then b.props.get p else none⟩

namespace RwflBody

variable {b : RwflBody n} {t : Vc n}

/-- An insert writes the properties that no update has written. -/
theorem innateUpdate_get (v : InsertProps) (b : RwflBody n) (p : Property) :
    (innateUpdate v b).props.get p
      = if (b.time p).isNone then some (p.shown (v.val p)) else b.props.get p := by
  -- the loop, over any properties
  have hloop : ∀ (l : List Property) (s : Props),
      (l.foldl (fun s q => if (b.time q).isNone then s.set q (v.val q) else s) s).get p
        = if p ∈ l ∧ (b.time p).isNone then some (p.shown (v.val p)) else s.get p := by
    intro l
    induction l with
    | nil => intro s; simp
    | cons q l ih =>
        intro s
        rw [List.foldl_cons, ih]
        by_cases hpl : p ∈ l ∧ (b.time p).isNone = true
        · rw [if_pos hpl, if_pos ⟨List.mem_cons_of_mem q hpl.1, hpl.2⟩]
        · rw [if_neg hpl]
          by_cases hpq : p = q
          · subst hpq
            by_cases hnone : (b.time p).isNone = true
            · rw [if_pos hnone, if_pos ⟨List.mem_cons_self, hnone⟩, Props.get_set_self]
            · rw [if_neg hnone, if_neg fun hcon => hnone hcon.2]
          · have hpc : ¬ (p ∈ q :: l ∧ (b.time p).isNone = true) := fun hcon =>
              hpl ⟨(List.mem_cons.mp hcon.1).resolve_left hpq, hcon.2⟩
            rw [if_neg hpc]
            split
            · exact Props.get_set_ne s _ hpq
            · rfl
  refine (hloop _ b.props).trans ?_
  have hmem : p ∈ [Property.normal .font, .normal .size, .normal .color, .bitmap .bold,
      .bitmap .italic, .bitmap .underline] := by
    cases p with
    | normal q => cases q <;> decide
    | bitmap q => cases q <;> decide
  simp only [hmem, true_and]

theorem view_acquiredUpdate (p : Property) (lt : Lc) (v : ℤ) :
    rwflView (acquiredUpdate p lt v b) = (rwflView b).acquire p lt v := by
  unfold acquiredUpdate RwflView.acquire
  by_cases hwin : (b.time p).all (fun u => decide (lcCmp u lt ≤ 0)) = true
  · rw [if_pos hwin, if_pos (show ((rwflView b).time p).all _ = true from hwin)]
    unfold rwflView
    congr 1
    · exact lcUpdate_x _ _
    · funext q
      by_cases hq : q = p
      · rw [hq]
        simp [Props.get_set_self]
      · simp [Function.update_of_ne hq, Props.get_set_ne _ _ hq]
  · rw [if_neg hwin, if_neg (show ¬ ((rwflView b).time p).all _ = true from hwin)]

end RwflBody

/-- Away from the history of the record a broadcast does nothing more. -/
theorem RwflOp.finish_of_ne {m : RwflOp n} {b : RwflBody n}
    (hne : m.stamp.vector ≠ b.header.current.vector) : m.finish b = b := by
  cases m with
  | insert i v t =>
      have hne : t.vector ≠ b.header.current.vector := hne
      simp only [finish, RwflBody.insertFunc, Reh.addCheck_of_ne hne]
  | update oid type value lt t =>
      have hne : t.vector ≠ b.header.current.vector := hne
      simp only [finish, RwflBody.updateFunc, Reh.updateCheck_of_ne hne]
  | rem oid t => rfl

/-- At the history of the record it acts on the view. -/
theorem RwflOp.view_finish {m : RwflOp n} {b : RwflBody n}
    (heq : m.stamp.vector = b.header.current.vector) :
    rwflView (m.finish b) = (rwflView b).act m := by
  cases m with
  | insert i v t =>
      have hid : (0 : ℤ) ≤ (t.id : ℤ) := Int.natCast_nonneg _
      have heq : t.vector = b.header.current.vector := heq
      simp only [finish, RwflBody.insertFunc, Reh.addCheck_of_eq heq, RwflView.act]
      by_cases hlt : b.header.pid < (t.id : ℤ)
      · rw [if_pos hlt, if_pos (show (rwflView b).pid < (t.id : ℤ) from hlt)]
        unfold rwflView
        congr 1
        funext p
        have htime : (RwflBody.innateUpdate v
          { b with header := { b.header with pid := t.id } }).time p = b.time p := rfl
        have hpid : (RwflBody.innateUpdate v
          { b with header := { b.header with pid := t.id } }).header.pid = t.id := rfl
        rw [hpid, if_pos (Or.inr hid), RwflBody.innateUpdate_get]
        cases htp : b.time p with
        | none => simp [htp]
        | some u => simp [htp]
      · rw [if_neg hlt, if_neg (show ¬ (rwflView b).pid < (t.id : ℤ) from hlt)]
  | update oid type value lt t =>
      have heq : t.vector = b.header.current.vector := heq
      simp only [finish, RwflBody.updateFunc, Reh.updateCheck_of_eq heq, RwflView.act]
      -- the mark of a missing insert is below zero, as that of a missing element
      have hview : rwflView { b with header :=
            ⟨if b.header.pid = pidNexist then pidWaitInnate else b.header.pid, b.header.current⟩ }
          = { rwflView b with pid :=
            if (rwflView b).pid = pidNexist then pidWaitInnate else (rwflView b).pid } := by
        unfold rwflView
        congr 1
        funext p
        by_cases hpid : b.header.pid = pidNexist
        · simp [hpid, pidNexist, pidWaitInnate]
        · simp [hpid]
      cases Property.ofType type with
      | none => exact hview
      | some p =>
          dsimp only
          rw [RwflBody.view_acquiredUpdate, hview]
  | rem oid t => rfl

theorem rwflView_removed {b : RwflBody n} {t : Vc n} (hle : ¬ t.vector ≤ b.header.current.vector) :
    rwflView (b.removeFunc t).1 = RwflView.empty := by
  rw [RwflBody.removeFunc, Reh.removeBy_of_not_le hle]
  unfold rwflView RwflView.empty
  congr 1

/-- The elements of an RWF list follow the epoch discipline. -/
theorem rwfl_resets : Resets (fun m : RwflOp n => m.stamp.vector)
    (fun b : RwflBody n => b.header.current.vector) rwflView RwflView.empty RwflView.act
    (fun b m => m.write b) where
  cur_step := by
    intro b m
    rw [RwflOp.write_header, Reh.apply_current, vcUpdate_vector, RwflOp.toReh_t]
  body_stay := by
    intro b m hle hne
    rw [RwflOp.write_eq, RwflBody.removeFunc, Reh.removeBy_of_le hle, RwflOp.finish_of_ne hne]
  body_join := by
    intro b m heq
    rw [RwflOp.write_eq, RwflBody.removeFunc, Reh.removeBy_of_le heq.le, RwflOp.view_finish heq]
  body_reset := by
    intro b m hle hge
    rw [RwflOp.write_eq, RwflOp.finish_of_ne, rwflView_removed hle]
    rw [RwflBody.removeFunc, Reh.removeBy_of_not_le hle]
    show _ ≠ (vcUpdate b.header.current m.stamp).vector
    rw [vcUpdate_vector]
    exact fun hcon => hge (le_sup_left.trans hcon.ge)
  body_next := by
    intro b m hle hge
    rw [RwflOp.write_eq, RwflOp.view_finish, rwflView_removed hle]
    rw [RwflBody.removeFunc, Reh.removeBy_of_not_le hle]
    show _ = (vcUpdate b.header.current m.stamp).vector
    rw [vcUpdate_vector]
    exact (sup_eq_right.mpr hge).symm

-- ================================================= what an epoch leaves

/-- Broadcast `m` is an update that gives property `p` the time `lt` and
the value `v`. -/
def RwflOp.Sets (m : RwflOp n) (p : Property) (v : ℤ) (lt : Lc) : Prop :=
  ∃ oid type value t, m = .update oid type value lt t ∧ Property.ofType type = some p ∧
    v = p.shown (toInt value)

/-- What the broadcasts `l` of one epoch make of a new element. -/
structure RwflView.Of (l : List (RwflOp n)) (b : RwflView) : Prop where
  id_le : ∀ i v t, .insert i v t ∈ l → (t.id : ℤ) ≤ b.pid
  innate : 0 ≤ b.pid → ∃ i v t, .insert i v t ∈ l ∧ (t.id : ℤ) = b.pid ∧
    ∀ p, b.time p = none → b.val p = some (p.shown (v.val p))
  le_time : ∀ m ∈ l, ∀ p v lt, m.Sets p v lt → ∃ u, b.time p = some u ∧ lcCmp lt u ≤ 0
  time_val : ∀ p u, b.time p = some u → u.x ≤ b.x ∧ ∃ m ∈ l, ∃ v, m.Sets p v u ∧
    b.val p = some v

namespace RwflView.Of

variable {l : List (RwflOp n)} {b : RwflView}

theorem nil : Of ([] : List (RwflOp n)) empty := by
  refine ⟨(fun _ _ _ hm => nomatch hm), fun hpid => ?_, (fun _ hm => nomatch hm),
    fun _ _ hu => nomatch hu⟩
  exact absurd hpid (by decide)

/-- More broadcasts, none of them an insert or an update of a property. -/
theorem more (h : Of l b) {m : RwflOp n} (hins : ∀ i v t, m ≠ .insert i v t)
    (hset : ∀ p v lt, ¬ m.Sets p v lt) : Of (l ++ [m]) b := by
  have hmem : ∀ {m'}, m' ∈ l ++ [m] → m' ∈ l ∨ m' = m := by
    intro m' hm'
    exact (List.mem_append.mp hm').imp_right List.mem_singleton.mp
  refine ⟨?_, ?_, ?_, ?_⟩
  · intro i v t hm
    exact h.id_le i v t ((hmem hm).resolve_right fun hcon => hins i v t hcon.symm)
  · intro hpid
    obtain ⟨i, v, t, hm, hrest⟩ := h.innate hpid
    exact ⟨i, v, t, List.mem_append_left _ hm, hrest⟩
  · intro m' hm' p v lt hsets
    rcases hmem hm' with hm' | rfl
    · exact h.le_time m' hm' p v lt hsets
    · exact absurd hsets (hset p v lt)
  · intro p u hu
    obtain ⟨hx, m', hm', hrest⟩ := h.time_val p u hu
    exact ⟨hx, m', List.mem_append_left _ hm', hrest⟩

theorem insert (h : Of l b) (i : Placement) (v : InsertProps) (t : Vc n) :
    Of (l ++ [.insert i v t]) (b.act (.insert i v t)) := by
  have hnew : (.insert i v t : RwflOp n) ∈ l ++ [.insert i v t] :=
    List.mem_append_right _ List.mem_cons_self
  have hinsert : ∀ {i' v' t'}, (.insert i' v' t' : RwflOp n) ∈ l ++ [.insert i v t] →
      .insert i' v' t' ∈ l ∨ t' = t := by
    intro i' v' t' hm
    refine (List.mem_append.mp hm).imp_right fun hm => ?_
    exact (RwflOp.insert.inj (List.mem_singleton.mp hm)).2.2
  have hsets : ∀ m ∈ l ++ [.insert i v t], ∀ p v lt, m.Sets p v lt →
      ∃ u, b.time p = some u ∧ lcCmp lt u ≤ 0 := by
    intro m hm p v lt hset
    rcases List.mem_append.mp hm with hm | hm
    · exact h.le_time m hm p v lt hset
    · obtain ⟨_, _, _, _, hcon, -⟩ := hset
      rw [List.mem_singleton.mp hm] at hcon
      cases hcon
  rw [RwflView.act]
  by_cases hlt : b.pid < (t.id : ℤ)
  · rw [if_pos hlt]
    refine ⟨?_, ?_, hsets, ?_⟩
    · intro i' v' t' hm
      rcases hinsert hm with hm | rfl
      · exact (h.id_le i' v' t' hm).trans hlt.le
      · exact le_rfl
    · exact fun _ => ⟨i, v, t, hnew, rfl, fun p hp => by simp [show b.time p = none from hp]⟩
    · intro p u hu
      have hu : b.time p = some u := hu
      obtain ⟨hx, m, hm, v', hset, hval⟩ := h.time_val p u hu
      exact ⟨hx, m, List.mem_append_left _ hm, v', hset, by simp [hu, hval]⟩
  · rw [if_neg hlt]
    refine ⟨?_, ?_, hsets, ?_⟩
    · intro i' v' t' hm
      rcases hinsert hm with hm | rfl
      · exact h.id_le i' v' t' hm
      · exact not_lt.mp hlt
    · intro hpid
      obtain ⟨i', v', t', hm, hrest⟩ := h.innate hpid
      exact ⟨i', v', t', List.mem_append_left _ hm, hrest⟩
    · intro p u hu
      obtain ⟨hx, m, hm, hrest⟩ := h.time_val p u hu
      exact ⟨hx, m, List.mem_append_left _ hm, hrest⟩

/-- The mark of a missing insert. -/
theorem mark (h : Of l b) :
    Of l { b with pid := if b.pid = pidNexist then pidWaitInnate else b.pid } := by
  have hpid : 0 ≤ (if b.pid = pidNexist then pidWaitInnate else b.pid) →
      (if b.pid = pidNexist then pidWaitInnate else b.pid) = b.pid := by
    intro hle
    split at hle
    · exact absurd hle (by decide)
    · next hne => rw [if_neg hne]
  refine ⟨?_, ?_, h.le_time, h.time_val⟩
  · intro i v t hm
    have hle := h.id_le i v t hm
    have hid : (0 : ℤ) ≤ (t.id : ℤ) := Int.natCast_nonneg _
    have hne : b.pid ≠ pidNexist := by
      unfold pidNexist
      omega
    rw [if_neg hne]
    exact hle
  · intro hle
    have hsame := hpid hle
    obtain ⟨i, v, t, hm, hid, hval⟩ := h.innate (hsame ▸ hle)
    exact ⟨i, v, t, hm, hid.trans hsame.symm, hval⟩

/-- An update of a property. -/
theorem acquire (h : Of l b) {m : RwflOp n} {p : Property} {value : ℤ} {lt : Lc}
    (hset : ∀ {q v u}, m.Sets q v u ↔ q = p ∧ v = p.shown value ∧ u = lt)
    (hins : ∀ i v t, m ≠ .insert i v t) : Of (l ++ [m]) (b.acquire p lt value) := by
  have hmem : ∀ {m'}, m' ∈ l ++ [m] → m' ∈ l ∨ m' = m := by
    intro m' hm'
    exact (List.mem_append.mp hm').imp_right List.mem_singleton.mp
  have hold : ∀ {i v t}, (.insert i v t : RwflOp n) ∈ l ++ [m] → .insert i v t ∈ l := by
    intro i v t hm
    exact (hmem hm).resolve_right fun hcon => hins i v t hcon.symm
  have hwins : (b.time p).all (fun u => decide (lcCmp u lt ≤ 0)) = true ↔
      ∀ u, b.time p = some u → lcCmp u lt ≤ 0 := by
    cases b.time p <;> simp
  unfold RwflView.acquire
  by_cases hwin : (b.time p).all (fun u => decide (lcCmp u lt ≤ 0)) = true
  · rw [if_pos hwin]
    rw [hwins] at hwin
    refine ⟨fun i v t hm => h.id_le i v t (hold hm), ?_, ?_, ?_⟩
    · intro hpid
      obtain ⟨i, v, t, hm, hid, hval⟩ := h.innate hpid
      refine ⟨i, v, t, List.mem_append_left _ hm, hid, ?_⟩
      intro q hq
      have hqp : q ≠ p := by
        intro hcon
        rw [hcon] at hq
        simp at hq
      simp only [Function.update_of_ne hqp] at hq ⊢
      exact hval q hq
    · intro m' hm' q v u hsets
      by_cases hqp : q = p
      · subst hqp
        refine ⟨lt, by simp, ?_⟩
        rcases hmem hm' with hm' | rfl
        · obtain ⟨w, hw, hle⟩ := h.le_time m' hm' q v u hsets
          have hle' := hwin w hw
          rw [lcCmp_nonpos] at hle hle' ⊢
          omega
        · rw [(hset.mp hsets).2.2, lcCmp_nonpos]
          exact Or.inr ⟨rfl, le_rfl⟩
      · simp only [Function.update_of_ne hqp]
        rcases hmem hm' with hm' | rfl
        · exact h.le_time m' hm' q v u hsets
        · exact absurd (hset.mp hsets).1 hqp
    · intro q u hu
      by_cases hqp : q = p
      · subst hqp
        simp only [Function.update_self, Option.some.injEq] at hu ⊢
        subst hu
        exact ⟨le_max_right _ _, m, List.mem_append_right _ List.mem_cons_self, _,
          hset.mpr ⟨rfl, rfl, rfl⟩, rfl⟩
      · simp only [Function.update_of_ne hqp] at hu ⊢
        obtain ⟨hx, m', hm', hrest⟩ := h.time_val q u hu
        exact ⟨hx.trans (le_max_left _ _), m', List.mem_append_left _ hm', hrest⟩
  · rw [if_neg hwin]
    refine ⟨fun i v t hm => h.id_le i v t (hold hm), ?_, ?_, ?_⟩
    · intro hpid
      obtain ⟨i, v, t, hm, hrest⟩ := h.innate hpid
      exact ⟨i, v, t, List.mem_append_left _ hm, hrest⟩
    · intro m' hm' q v u hsets
      rcases hmem hm' with hm' | rfl
      · exact h.le_time m' hm' q v u hsets
      · -- the update that lost is below the one that won
        obtain ⟨rfl, -, rfl⟩ := hset.mp hsets
        rw [hwins, not_forall] at hwin
        obtain ⟨w, hw⟩ := hwin
        rw [Classical.not_imp, lcCmp_nonpos] at hw
        refine ⟨w, hw.1, ?_⟩
        rw [lcCmp_nonpos]
        omega
    · intro q u hu
      obtain ⟨hx, m', hm', hrest⟩ := h.time_val q u hu
      exact ⟨hx, m', List.mem_append_left _ hm', hrest⟩

theorem act (h : Of l b) (m : RwflOp n) : Of (l ++ [m]) (b.act m) := by
  cases m with
  | insert i v t => exact h.insert i v t
  | update oid type value lt t =>
      have hins : ∀ i v t', RwflOp.update oid type value lt t ≠ .insert i v t' :=
        fun _ _ _ hcon => nomatch hcon
      cases hp : Property.ofType type with
      | none =>
          simp only [RwflView.act, hp]
          refine h.mark.more hins ?_
          intro p v u ⟨_, _, _, _, heq, htype, _⟩
          injection heq with _ htypes
          rw [← htypes, hp] at htype
          cases htype
      | some p =>
          simp only [RwflView.act, hp]
          refine h.mark.acquire ?_ hins
          intro q v u
          constructor
          · intro ⟨_, _, _, _, heq, htype, hv⟩
            injection heq with _ htypes hvalue hlt
            subst htypes hvalue hlt
            obtain rfl := Option.some.inj (hp.symm.trans htype)
            exact ⟨rfl, hv, rfl⟩
          · intro ⟨hq, hv, hu⟩
            subst hq hv hu
            exact ⟨oid, type, value, t, rfl, hp, rfl⟩
  | rem oid t =>
      refine h.more (fun _ _ _ hcon => nomatch hcon) ?_
      intro p v u ⟨_, _, _, _, hcon, _⟩
      cases hcon

/-- The epoch, from its first broadcast on. -/
theorem foldl (l : List (RwflOp n)) : Of l (l.foldl RwflView.act empty) := by
  induction l using List.reverseRecOn with
  | nil => exact nil
  | append_singleton l m ih =>
      rw [List.foldl_append, List.foldl_cons, List.foldl_nil]
      exact ih.act m

end RwflView.Of

-- ==================================================== runs of an element

section

variable {oid : String} {k : Config n (RwflBody n) (RwflOp n)}

theorem rwfle_fold (hk : Reachable (rwfleService oid) (.once fun _ => True) k) (r : Fin n) :
    k.site r = ((k.got r).map Op.msg).foldl (fun b m => m.write b) (RwflBody.new r) := by
  refine hk.fold (fun _ b => b) (fun _ b m => m.write b) ?_ ?_ r
  · intro r c b b' m _ hp
    exact rwfleService_prepare hp
  · intro r m b b' _ he
    exact (Option.some.inj he).symm

/-- The broadcasts of the last epoch. -/
theorem mem_live_rwfle (hk : Reachable (rwfleService oid) (.once fun _ => True) k) {r : Fin n}
    {m : RwflOp n} : m ∈ live (fun m : RwflOp n => m.stamp.vector) 0 ((k.got r).map Op.msg) ↔
      ∃ o ∈ k.got r, o.msg = m ∧ m.stamp.vector = (k.site r).header.current.vector := by
  have hcur : (k.site r).header.current.vector
      = top (fun m : RwflOp n => m.stamp.vector) 0 ((k.got r).map Op.msg) := by
    rw [rwfle_fold hk r]
    exact rwfl_resets.cur_foldl _ _
  rw [mem_live, List.mem_map, hcur]
  constructor
  · intro ⟨⟨o, ho, heq⟩, htop⟩
    exact ⟨o, ho, heq, htop⟩
  · intro ⟨o, ho, heq, htop⟩
    exact ⟨⟨o, ho, heq⟩, htop⟩

/-- The body is what the last epoch leaves. -/
theorem rwfle_of (hk : Reachable (rwfleService oid) (.once fun _ => True) k) (r : Fin n) :
    RwflView.Of (live (fun m : RwflOp n => m.stamp.vector) 0 ((k.got r).map Op.msg))
      (rwflView (k.site r)) := by
  have hview : rwflView (k.site r) = (live (fun m : RwflOp n => m.stamp.vector) 0
      ((k.got r).map Op.msg)).foldl RwflView.act RwflView.empty := by
    rw [rwfle_fold hk r]
    exact rwfl_resets.body_foldl rfl _
  rw [hview]
  exact .foldl _

theorem RwflOp.write_id (m : RwflOp n) (b : RwflBody n) :
    (m.write b).current.id = b.current.id := by
  have hrem : (b.removeFunc m.stamp).1.current.id = b.current.id := by
    by_cases hle : m.stamp.vector ≤ b.header.current.vector
    · rw [RwflBody.removeFunc, Reh.removeBy_of_le hle]
    · rw [RwflBody.removeFunc, Reh.removeBy_of_not_le hle]
  rw [RwflOp.write_eq, ← hrem]
  cases m with
  | insert i v t =>
      simp only [finish, RwflBody.insertFunc]
      split <;> rfl
  | update oid type value lt t =>
      simp only [finish, RwflBody.updateFunc]
      split
      · split
        · rfl
        · unfold RwflBody.acquiredUpdate
          split <;> rfl
      · rfl
  | rem oid t => rfl

/-- The time of an update names its server. -/
theorem rwfle_time_id (hk : Reachable (rwfleService oid) (.once fun _ => True) k) :
    ∀ o ∈ k.sent, ∀ p v lt, o.msg.Sets p v lt → lt.id = (o.src : ℤ) := by
  have hid : ∀ {k : Config n (RwflBody n) (RwflOp n)},
      Reachable (rwfleService oid) (.once fun _ => True) k →
      ∀ r : Fin n, (k.site r).current.id = (r : ℤ) := by
    intro k hk
    refine hk.site_forall (I := fun r b => b.current.id = (r : ℤ)) (fun _ => rfl) ?_ ?_
    · intro r c b b' m _ hb hp
      rw [rwfleService_prepare hp]
      exact hb
    · intro r m b b' _ hb he
      rw [← Option.some.inj he, RwflOp.write_id]
      exact hb
  refine hk.sent_forall ?_
  intro k r c b m u hr _ _ hp p v lt ⟨_, _, _, _, hm, _⟩
  obtain ⟨-, ⟨i, v', hins, -⟩ | ⟨type, value, hupd, -⟩ | ⟨hrem, -⟩⟩ := rwfleService_issue hp
  · cases hm.symm.trans hins
  · injection hm.symm.trans hupd with _ _ _ hlt
    rw [hlt]
    exact hid hr r
  · cases hm.symm.trans hrem

/-- No two updates of an epoch that name a property have the same time. -/
theorem rwfle_times (hk : Reachable (rwfleService oid) (.once fun _ => True) k) :
    ∀ a ∈ k.sent, ∀ b ∈ k.sent, ∀ {p v q w lt}, a.msg.Sets p v lt → b.msg.Sets q w lt →
      a.msg.stamp.vector = b.msg.stamp.vector → a = b := by
  -- a server's next update is later than all it has applied since the last remove
  have hpair := hk.sent_pairs (Q := fun a b => ∀ p v lt q w lt', a.msg.Sets p v lt →
      b.msg.Sets q w lt' → a.src = b.src → a.msg.stamp.vector = b.msg.stamp.vector →
      lt.x < lt'.x) <| by
    intro k r c b m u hr _ hp a ha p v lt q w lt' hset hset' hsrc hstamp
    obtain ⟨_, _, _, _, hm, -⟩ := hset'
    obtain ⟨-, ⟨i, v', hins, -⟩ | ⟨type, value, hupd, -⟩ | ⟨hrem, -⟩⟩ := rwfleService_issue hp
    · cases hm.symm.trans hins
    · have hown : a ∈ k.got r := by
        have hgot := hr.ledger.own_got a ha
        rwa [show a.src = r from hsrc] at hgot
      have hlive := (mem_live_rwfle hr).mpr ⟨a, hown, rfl, by rw [hstamp, hupd]; rfl⟩
      obtain ⟨u, hu, hle⟩ := (rwfle_of hr r).le_time _ hlive p v lt hset
      have hx := ((rwfle_of hr r).time_val p u hu).1
      injection hm.symm.trans hupd with _ _ _ hlt
      rw [hlt]
      have hx : u.x ≤ (k.site r).current.x := hx
      rw [lcCmp_nonpos] at hle
      show lt.x < (k.site r).current.x + 1
      omega
    · cases hm.symm.trans hrem
  intro a ha b hb p v q w lt hset hset' hstamp
  by_contra hne
  have hsrc : a.src = b.src := by
    have hid := (rwfle_time_id hk a ha p v lt hset).symm.trans (rwfle_time_id hk b hb q w lt hset')
    exact Fin.ext (by exact_mod_cast hid)
  rcases hpair a ha b hb hne with h | h
  · exact lt_irrefl _ (h p v lt q w lt hset hset' hsrc hstamp)
  · exact lt_irrefl _ (h q w lt p v lt hset' hset hsrc.symm hstamp.symm)

/-- No server inserts an element twice in an epoch. -/
theorem rwfle_insert_unique (hk : Reachable (rwfleService oid) (.once fun _ => True) k) :
    ∀ a ∈ k.sent, ∀ b ∈ k.sent, ∀ {i v t j w u}, a.msg = .insert i v t → b.msg = .insert j w u →
      t.vector = u.vector → a.src = b.src → a = b := by
  intro a ha b hb i v t j w u hma hmb hstamp hsrc
  have huniq := reh_add_unique (rwfle_reh hk) (a.map RwflOp.toReh) (List.mem_map_of_mem ha)
    (b.map RwflOp.toReh) (List.mem_map_of_mem hb) (by simp [Op.map, hma, RwflOp.toReh])
    (by simp [Op.map, hmb, RwflOp.toReh]) hsrc (by simpa [Op.map, hma, hmb, RwflOp.toReh])
  exact hk.ledger.uid_inj a ha b hb (by simpa [Op.map] using congrArg Op.uid huniq)

/-- A broadcast carries the id of its server. -/
theorem rwfle_stamp_id (hk : Reachable (rwfleService oid) (.once fun _ => True) k) :
    ∀ o ∈ k.sent, o.msg.stamp.id = o.src := by
  intro o ho
  rw [← RwflOp.toReh_t]
  exact (reh_stamp (rwfle_reh hk) (o.map RwflOp.toReh) (List.mem_map_of_mem ho)).2

end

-- ========================================================= what is shown

namespace RwflOp

/-- Broadcast `m` is an update of property `p` of element `oid` with the
removal timestamp `cur`, the time `lt` and the value `v`. -/
structure Acquires (m : RwflOp n) (oid : String) (cur : Fin n → ℤ) (p : Property) (v : ℤ)
    (lt : Lc) : Prop where
  oid : m.op.oid = oid
  stamp : m.stamp.vector = cur
  sets : m.Sets p v lt

/-- Broadcast `m` is an insert of element `oid` with the removal timestamp
`cur` and the values `v`. -/
structure Gives (m : RwflOp n) (oid : String) (cur : Fin n → ℤ) (v : InsertProps) : Prop where
  oid : m.op.oid = oid
  stamp : m.stamp.vector = cur
  insert : ∃ i t, m = .insert i v t

end RwflOp

/-- The value of property `p` that the broadcasts `D` give element `oid`
with the history `cur`: that of the greatest update, and without one that
of the insert of the greatest server. -/
inductive RwflShown (D : List (Op n (RwflOp n))) (oid : String) (cur : Fin n → ℤ)
    (p : Property) : Score → Prop
  | acquired {o : Op n (RwflOp n)} {v : ℤ} {lt : Lc} (ho : o ∈ D)
      (hupd : o.msg.Acquires oid cur p v lt)
      (hmax : ∀ o' ∈ D, ∀ v' lt', o'.msg.Acquires oid cur p v' lt' →
        lcCmp lt' lt < 0 ∨ o' = o) : RwflShown D oid cur p (some v)
  | innate (hnone : ∀ o ∈ D, ∀ v lt, ¬ o.msg.Acquires oid cur p v lt)
      {o : Op n (RwflOp n)} {v : InsertProps} (ho : o ∈ D) (hins : o.msg.Gives oid cur v)
      (hmax : ∀ o' ∈ D, ∀ v', o'.msg.Gives oid cur v' → o'.src < o.src ∨ o' = o) :
      RwflShown D oid cur p (some (p.shown (v.val p)))

theorem lcCmp_nonpos_cases {a b : Lc} (h : lcCmp a b ≤ 0) : lcCmp a b < 0 ∨ a = b := by
  rcases lt_or_eq_of_le h with hlt | heq
  · exact Or.inl hlt
  · right
    cases a
    cases b
    simp only [lcCmp] at heq
    split at heq <;> simp only [Lc.mk.injEq] <;> omega

section

variable {oid : String} {k : Config n (RwflBody n) (RwflOp n)}

/-- What an element shows. -/
theorem rwfle_shown (hk : Reachable (rwfleService oid) (.once fun _ => True) k) (r : Fin n)
    (hname : ∀ o ∈ k.got r, o.msg.op.oid = oid)
    (hins : ∃ o ∈ k.got r, ∃ v, o.msg.Gives oid (k.site r).header.current.vector v)
    (p : Property) : RwflShown (k.got r) oid (k.site r).header.current.vector p
      ((k.site r).props.get p) := by
  have hof := rwfle_of hk r
  have hsent : ∀ {o}, o ∈ k.got r → o ∈ k.sent := fun ho => hk.ledger.got_sent r _ ho
  have hlive : ∀ {o}, o ∈ k.got r → o.msg.stamp.vector = (k.site r).header.current.vector →
      o.msg ∈ live (fun m : RwflOp n => m.stamp.vector) 0 ((k.got r).map Op.msg) :=
    fun ho heq => (mem_live_rwfle hk).mpr ⟨_, ho, rfl, heq⟩
  -- an insert of the epoch was applied, so every value counts
  have hpid : 0 ≤ (k.site r).header.pid := by
    obtain ⟨o, ho, v, hgives⟩ := hins
    obtain ⟨i, t, hm⟩ := hgives.insert
    have hmem := hlive ho hgives.stamp
    rw [hm] at hmem
    exact (Int.natCast_nonneg _).trans (hof.id_le i v t hmem)
  have hval : (rwflView (k.site r)).val p = (k.site r).props.get p := if_pos (Or.inr hpid)
  cases htime : (rwflView (k.site r)).time p with
  | some u =>
      obtain ⟨-, m, hm, v, hset, hv⟩ := hof.time_val p u htime
      obtain ⟨o, ho, rfl, hstamp⟩ := (mem_live_rwfle hk).mp hm
      rw [← hval, hv]
      refine .acquired ho ⟨hname o ho, hstamp, hset⟩ ?_
      intro o' ho' v' lt' hupd
      obtain ⟨u', hu', hle⟩ := hof.le_time _ (hlive ho' hupd.stamp) p v' lt' hupd.sets
      obtain rfl := Option.some.inj (htime.symm.trans hu')
      refine (lcCmp_nonpos_cases hle).imp_right ?_
      intro heq
      subst heq
      exact rwfle_times hk o' (hsent ho') o (hsent ho) hupd.sets hset
        (hupd.stamp.trans hstamp.symm)
  | none =>
      obtain ⟨i, v, t, hm, hid, hv⟩ := hof.innate hpid
      obtain ⟨o, ho, hom, hstamp⟩ := (mem_live_rwfle hk).mp hm
      have hpidt : (t.id : ℤ) = (k.site r).header.pid := hid
      rw [← hval, hv p htime]
      refine .innate ?_ ho ⟨hname o ho, by rw [hom]; exact hstamp, i, t, hom⟩ ?_
      · intro o' ho' v' lt' hupd
        obtain ⟨u, hu, -⟩ := hof.le_time _ (hlive ho' hupd.stamp) p v' lt' hupd.sets
        cases htime.symm.trans hu
      · intro o' ho' v' hgives
        obtain ⟨i', t', hm'⟩ := hgives.insert
        have hmem := hlive ho' hgives.stamp
        rw [hm'] at hmem
        have hle : (t'.id : ℤ) ≤ (k.site r).header.pid := hof.id_le i' v' t' hmem
        have hsrc : t.id = o.src := by
          have hid := rwfle_stamp_id hk o (hsent ho)
          rwa [hom] at hid
        have hsrc' : t'.id = o'.src := by
          have hid := rwfle_stamp_id hk o' (hsent ho')
          rwa [hm'] at hid
        rcases lt_or_eq_of_le (show o'.src ≤ o.src by
          rw [← hsrc, ← hsrc', Fin.le_def]
          omega) with hlt | heq
        · exact Or.inl hlt
        · refine Or.inr (rwfle_insert_unique hk o' (hsent ho') o (hsent ho) hm' hom ?_ heq)
          have hst := hgives.stamp
          rw [hm'] at hst
          exact hst.trans hstamp.symm

end

/-- The broadcasts about one element. -/
theorem mem_about {oid : String} {D : List (Op n (RwflOp n))} {o : Op n (RwflOp n)} :
    o ∈ D.filterMap (Op.route (RwflOp.about oid)) ↔ o ∈ D ∧ o.msg.op.oid = oid := by
  rw [List.mem_filterMap]
  constructor
  · intro ⟨b, hb, hroute⟩
    obtain ⟨hab, huid, hsrc⟩ := Op.route_eq_some.mp hroute
    obtain ⟨hoid, hmsg⟩ := RwflOp.about_eq_some.mp hab
    obtain rfl : o = b := by
      cases o
      cases b
      simp only at huid hsrc hmsg
      rw [huid, hsrc, hmsg]
    exact ⟨hb, hoid⟩
  · intro ⟨ho, hoid⟩
    exact ⟨o, ho, Op.route_eq_some.mpr ⟨RwflOp.about_eq_some.mpr ⟨hoid, rfl⟩, rfl, rfl⟩⟩

theorem RwflShown.of_about {D : List (Op n (RwflOp n))} {oid : String} {cur : Fin n → ℤ}
    {p : Property} {z : Score}
    (h : RwflShown (D.filterMap (Op.route (RwflOp.about oid))) oid cur p z) :
    RwflShown D oid cur p z := by
  cases h with
  | acquired ho hupd hmax =>
      exact .acquired (mem_about.mp ho).1 hupd fun o' ho' v' lt' hupd' =>
        hmax o' (mem_about.mpr ⟨ho', hupd'.oid⟩) v' lt' hupd'
  | innate hnone ho hins hmax =>
      refine .innate ?_ (mem_about.mp ho).1 hins ?_
      · exact fun o' ho' v' lt' hupd' =>
          hnone o' (mem_about.mpr ⟨ho', hupd'.oid⟩) v' lt' hupd'
      · exact fun o' ho' v' hgives => hmax o' (mem_about.mpr ⟨ho', hgives.oid⟩) v' hgives

-- ========================================================== the network

/-- The vectors of the commands on RWF lists that name no element
`head`. -/
def RwflHeadless (argv : List String) : Prop := Issues rwflCmds argv ∧ listOid argv ≠ "head"

instance : DecidablePred RwflHeadless := fun _ => inferInstanceAs (Decidable (_ ∧ _))

/-- The properties of the elements of list `tname` in the network state
`k`. -/
structure RwflConverges (k : Net n) (tname : String) : Prop where
  /-- An element of which an insert with the local history was applied
  shows the values of its greatest updates, or else of its insert. -/
  shown : ∀ r oid, (∃ o ∈ (rwflType.readAt tname k).got r, ∃ v, o.msg.Gives oid
      (rwfleKind.bodyOf r (listAt (k.site r) tname) oid).header.current.vector v) →
    ∀ p, RwflShown ((rwflType.readAt tname k).got r) oid
      (rwfleKind.bodyOf r (listAt (k.site r) tname) oid).header.current.vector p
      ((rwfleKind.bodyOf r (listAt (k.site r) tname) oid).props.get p)
  /-- No two updates of an element with the same removal timestamp have
  the same time. -/
  times : ∀ o ∈ (rwflType.readAt tname k).sent, ∀ o' ∈ (rwflType.readAt tname k).sent,
    ∀ oid cur p v p' v' lt, o.msg.Acquires oid cur p v lt → o'.msg.Acquires oid cur p' v' lt →
      o = o'

/-- Where no command names the element `head`, the properties of the
elements of an RWF list are determined by what was applied. -/
theorem rwfl_properties (dbl : String → Option ℤ) {k : Net n}
    (hk : Reachable (crdtService dbl) (.once RwflHeadless) k) (tname : String) :
    RwflConverges k tname := by
  have hat := ListType.reachable_once (ListType.hallowed rwfl_commands fun _ h => h.1) hk tname
  have hinv := (rwfleProjection (fun _ h => h.2) "").inv_reachable hat
  have hel := fun oid => (rwfleProjection (fun _ h => h.2) oid).reachable hat
  refine ⟨?_, ?_⟩
  · intro r oid hins p
    have hname : oid ≠ "head" := by
      obtain ⟨o, ho, v, hgives⟩ := hins
      rw [← hgives.oid]
      exact hinv.1 o (hat.ledger.got_sent r o ho)
    have hbody : rwfleKind.bodyOf r (listAt (k.site r) tname) oid
        = rwfleKind.bodyAt r (listAt (k.site r) tname) oid := ListKind.bodyOf_eq (hinv.2 r) hname
    rw [hbody] at hins ⊢
    refine RwflShown.of_about (rwfle_shown (hel oid) r ?_ ?_ p)
    · intro o ho
      exact (mem_about.mp ho).2
    · obtain ⟨o, ho, v, hgives⟩ := hins
      exact ⟨o, mem_about.mpr ⟨ho, hgives.oid⟩, v, hgives⟩
  · intro o ho o' ho' oid cur p v p' v' lt hupd hupd'
    exact rwfle_times (hel oid) o (mem_about.mpr ⟨ho, hupd.oid⟩) o'
      (mem_about.mpr ⟨ho', hupd'.oid⟩) hupd.sets hupd'.sets (hupd.stamp.trans hupd'.stamp.symm)

theorem rwfl_properties_overtaken : ∃ k : Net 2,
    Reachable (crdtService getLongLongFromObject) (.once RwflHeadless) k ∧
    (rwfleKind.bodyOf 1 (listAt (k.site 1) "l") "a").props.get (.normal .font) = some 6 ∧
    (rwfleKind.bodyOf 1 (listAt (k.site 1) "l") "a").props.get (.normal .size) = some 2 ∧
    RwflConverges k "l" := by
  obtain ⟨k, hrun, hfont, hsize⟩ : ∃ k : Net 2, (crdtService getLongLongFromObject).run
      (crdtService getLongLongFromObject).start
        [.submit 0 ["rwflinsert", "l", "null", "a", "x", "1", "2", "3", "0"],
          .submit 0 ["rwflupdate", "l", "a", "font", "5"],
          .submit 0 ["rwflupdate", "l", "a", "font", "6"],
          .deliver 1 2, .deliver 1 0, .deliver 1 1] = some k ∧
      (rwfleKind.bodyOf 1 (listAt (k.site 1) "l") "a").props.get (.normal .font) = some 6 ∧
      (rwfleKind.bodyOf 1 (listAt (k.site 1) "l") "a").props.get (.normal .size) = some 2 :=
    ⟨_, rfl, by decide, by decide⟩
  have hk : Reachable (crdtService getLongLongFromObject) (.once RwflHeadless) k :=
    Service.run_reachable (by decide) hrun
  exact ⟨k, hk, hfont, hsize, rwfl_properties getLongLongFromObject hk "l"⟩

/-- What every broadcast of the run below says about the font of `a`. -/
def RwflOp.fontOfA : RwflOp n → Bool
  | .insert _ v _ => v.font = 1
  | .update oid _ value _ _ => oid ≠ "a" ∨ value = 6
  | .rem _ _ => true

/-- An update of the element `head`, which is `b` where it was issued,
overwrites that of `a` where `a` comes first. -/
theorem rwfl_head_overwrites : ∃ k : Net 2,
    Reachable (crdtService getLongLongFromObject) (.once (Issues rwflCmds)) k ∧
    ¬ RwflConverges k "l" := by
  obtain ⟨k, hrun, hfont, hgives, hall⟩ : ∃ k : Net 2, (crdtService getLongLongFromObject).run
      (crdtService getLongLongFromObject).start
        [.submit 0 ["rwflinsert", "l", "null", "a", "x", "1", "0", "0", "0"], .deliver 1 0,
          .submit 0 ["rwflinsert", "l", "null", "b", "y", "1", "0", "0", "0"],
          .submit 0 ["rwflupdate", "l", "head", "font", "5"],
          .submit 0 ["rwflupdate", "l", "a", "font", "6"],
          .deliver 1 3, .deliver 1 2] = some k ∧
      (rwfleKind.bodyOf 1 (listAt (k.site 1) "l") "a").props.get (.normal .font) = some 5 ∧
      (((rwflType.readAt "l" k).got 1).any fun o =>
        match o.msg with
        | .insert i _ t => i.oid = "a" ∧
            t.vector = (rwfleKind.bodyOf 1 (listAt (k.site 1) "l") "a").header.current.vector
        | _ => false) = true ∧
      ∀ o ∈ (rwflType.readAt "l" k).got 1, o.msg.fontOfA = true :=
    ⟨_, rfl, by decide, by decide, by decide⟩
  refine ⟨k, Service.run_reachable (by decide) hrun, ?_⟩
  intro hcon
  have hshown := hcon.shown 1 "a" (by
    obtain ⟨o, ho, hm⟩ := List.any_eq_true.mp hgives
    cases hmsg : o.msg with
    | insert i v t =>
        rw [hmsg] at hm
        obtain ⟨hoid, hstamp⟩ := of_decide_eq_true hm
        exact ⟨o, ho, v, by rw [hmsg]; exact hoid, by rw [hmsg]; exact hstamp, i, t, hmsg⟩
    | update oid type value lt t =>
        rw [hmsg] at hm
        cases hm
    | rem oid t =>
        rw [hmsg] at hm
        cases hm) (.normal .font)
  rw [hfont] at hshown
  generalize hz : (some 5 : Score) = z at hshown
  cases hshown with
  | @acquired o v lt ho hupd hmax =>
      obtain ⟨oid, type, value, t, hmsg, htype, hv⟩ := hupd.sets
      have hcheck := hall o ho
      rw [hmsg] at hcheck
      have hoid := hupd.oid
      rw [hmsg] at hoid
      have hvalue : value = 6 := (of_decide_eq_true hcheck).resolve_left fun hne => hne hoid
      rw [hv, hvalue] at hz
      exact absurd hz (by decide)
  | @innate hnone o v ho hins hmax =>
      obtain ⟨i, t, hmsg⟩ := hins.insert
      have hcheck := hall o ho
      rw [hmsg] at hcheck
      have hfont : v.font = 1 := of_decide_eq_true hcheck
      rw [show v.val (.normal .font) = 1 from hfont] at hz
      exact absurd hz (by decide)

end CrdtRedis
