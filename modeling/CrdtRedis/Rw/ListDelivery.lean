/-
The remove-wins list delivers in causal order: a list is an instance of
the causal delivery of the replication library, with one clock and one
buffer for all its elements.

The clock and the buffer are fields of the list's hash (`current` and
`ops`) next to those of its elements. Every command goes through `tick`
for the former and leaves the latter alone (`Rl.applyCmd_control`),
whatever it does to the records, so the loop runs on the clock as it would
by itself. A command that waits is kept without its name and its
timestamp; `applyCmd_rlCmdNew` says that nothing it needs is lost.
-/
import CrdtRedis.ListMoves
import CrdtRedis.ListObject
import CrdtRedis.Rw.ZsetDelivery

namespace CrdtRedis

open Replication

variable {n : ℕ}

-- ==================================================== the control fields

namespace Hash

/-- The buffer of a list. -/
def buf (h : Hash n) : List (RlCmd n) :=
  match h.fields "ops" with
  | some (.ops cmds) => cmds
  | _ => []

/-- What causal delivery sees of a list. -/
def site (h : Hash n) : Site n (RlCmd n) := ⟨(h.clock.map Vc.vector).getD 0, h.buf⟩

theorem site_eq (me : Fin n) (h : Hash n) : h.site = ⟨(h.now me).vector, h.buf⟩ := by
  unfold site now
  cases h.clock <;> rfl

theorem buf_set_ne (h : Hash n) {f : String} (v : Value n) (hf : f ≠ "ops") :
    (h.set f v).buf = h.buf := by
  simp [buf, Hash.set, Function.update_of_ne (Ne.symm hf)]

@[simp] theorem buf_set_ops (h : Hash n) (cmds : List (RlCmd n)) :
    (h.set "ops" (.ops cmds)).buf = cmds := by
  simp [buf, Hash.set]

/-- The clock and the buffer stayed what they were. -/
structure SameControl (h h' : Hash n) : Prop where
  clock : h'.clock = h.clock
  buf : h'.buf = h.buf

theorem SameControl.refl (h : Hash n) : SameControl h h := ⟨rfl, rfl⟩

theorem SameControl.trans {h h' h'' : Hash n} (h₁ : SameControl h h')
    (h₂ : SameControl h' h'') : SameControl h h'' :=
  ⟨h₂.clock.trans h₁.clock, h₂.buf.trans h₁.buf⟩

theorem SameControl.now {h h' : Hash n} (hs : SameControl h h') (me : Fin n) :
    h'.now me = h.now me := by
  unfold Hash.now
  rw [hs.clock]

/-- Fields of other names are not control fields. -/
theorem SameControl.set (h : Hash n) {f : String} (v : Value n) (hc : f ≠ "current")
    (ho : f ≠ "ops") : SameControl h (h.set f v) :=
  ⟨h.clock_set_ne v hc, h.buf_set_ne v ho⟩

end Hash

open Hash (SameControl)

-- =========================================== the accessors and the chain

theorem getCurrent_spec {me : Fin n} {h h' : Hash n} {c : Vc n}
    (hget : getCurrent me h = some (h', c)) :
    c = h.now me ∧ h'.clock = some c ∧ h'.buf = h.buf := by
  obtain ⟨hc, ⟨rfl, hf⟩ | ⟨rfl, hf⟩⟩ := getCurrent_cases hget
  · exact ⟨hc, by simp [Hash.clock, hf], rfl⟩
  · exact ⟨hc, h.clock_set_current _, h.buf_set_ne _ (by decide)⟩

theorem getOps_spec {h h' : Hash n} {cmds : List (RlCmd n)}
    (hget : getOps h = some (h', cmds)) : cmds = h.buf ∧ SameControl h h' := by
  unfold getOps at hget
  cases hf : h.fields "ops" with
  | none =>
      rw [hf] at hget
      obtain ⟨rfl, rfl⟩ := Prod.mk.inj (Option.some.inj hget)
      have hbuf : h.buf = [] := by simp [Hash.buf, hf]
      exact ⟨hbuf.symm, h.clock_set_ne _ (by decide), by rw [Hash.buf_set_ops, hbuf]⟩
  | some v =>
      rw [hf] at hget
      cases v with
      | ops cmds =>
          obtain ⟨rfl, rfl⟩ := Prod.mk.inj (Option.some.inj hget)
          exact ⟨by simp [Hash.buf, hf], .refl _⟩
      | _ => cases hget

theorem incrLen_control {h h' : Hash n} {inc : ℤ} (hincr : incrLen h inc = some h') :
    SameControl h h' := by
  obtain ⟨len, -, rfl⟩ := Option.map_eq_some_iff.mp hincr
  exact .set h _ (by decide) (by decide)

namespace Rl

theorem modify_control (h : Hash n) (addr : String) (f : Rle n → Rle n) :
    SameControl h (rleKind.modify h addr f) := ⟨rfl, rfl⟩

/-- A record that is made under a control field's name takes a field that
held nothing. -/
theorem findOrCreate_control {me : Fin n} {h h' : Hash n} {key addr : String}
    (hget : rleKind.findOrCreate me h key = some (h', addr)) : SameControl h h' := by
  unfold ListKind.findOrCreate at hget
  cases hf : h.fields key with
  | none =>
      rw [hf] at hget
      obtain ⟨rfl, -⟩ := Prod.mk.inj (Option.some.inj hget)
      constructor
      · by_cases hkey : key = "current"
        · subst hkey
          simp [Hash.clock, Hash.set, rleKind, hf]
        · exact h.clock_set_ne _ hkey
      · by_cases hkey : key = "ops"
        · subst hkey
          simp [Hash.buf, Hash.set, rleKind, hf]
        · exact h.buf_set_ne _ hkey
  | some v =>
      rw [hf] at hget
      obtain ⟨a, -, heq⟩ := Option.map_eq_some_iff.mp hget
      obtain ⟨rfl, -⟩ := Prod.mk.inj heq
      exact .refl _

theorem setHead_control (h : Hash n) (addr : String) :
    SameControl h (rleKind.setHead h addr) := .set h _ (by decide) (by decide)

theorem insertChain_control {h h' : Hash n} {pre addr : String} {pos : Leid}
    (hins : rleKind.insertChain h pre addr pos = some h') : SameControl h h' := by
  unfold ListKind.insertChain at hins
  obtain ⟨head, -, hins⟩ := Option.bind_eq_some_iff.mp hins
  cases head with
  | none =>
      obtain rfl := Option.some.inj hins
      exact setHead_control h addr
  | some head =>
      obtain ⟨rh, -, hins⟩ := Option.bind_eq_some_iff.mp hins
      obtain ⟨hpos, -, hins⟩ := Option.bind_eq_some_iff.mp hins
      split at hins
      · obtain rfl := Option.some.inj hins
        exact (setHead_control h addr).trans (modify_control _ _ _)
      · obtain ⟨pre, -, hins⟩ := Option.bind_eq_some_iff.mp hins
        obtain ⟨p, -, hins⟩ := Option.bind_eq_some_iff.mp hins
        obtain ⟨pq, -, rfl⟩ := Option.map_eq_some_iff.mp hins
        exact (modify_control h _ _).trans (modify_control _ _ _)

theorem position_control {h h' : Hash n} {pre oid content addr : String} {pos : Leid}
    (hpos : rleKind.position h pre oid content addr pos = some h') : SameControl h h' := by
  unfold ListKind.position at hpos
  obtain ⟨e, -, hpos⟩ := Option.bind_eq_some_iff.mp hpos
  cases hoid : e.oid with
  | some oid' =>
      rw [hoid] at hpos
      obtain rfl := Option.some.inj hpos
      exact .refl _
  | none =>
      rw [hoid] at hpos
      exact (modify_control h _ _).trans (insertChain_control hpos)

theorem changeSets_control {h h' : Hash n} {addr : String} {inc : ℤ} {shown : Bool}
    {f : RwSets n (RlAse n) → RwSets n (RlAse n)}
    (hch : changeSets h addr inc shown f = some h') : SameControl h h' := by
  unfold changeSets at hch
  obtain ⟨e, -, hch⟩ := Option.bind_eq_some_iff.mp hch
  dsimp only at hch
  split at hch
  · exact (modify_control h _ _).trans (incrLen_control hch)
  · obtain rfl := Option.some.inj hch
    exact modify_control h _ _

-- ======================================================= one command

/-- The clock took `t` in, the buffer stayed. -/
structure Ticked (me : Fin n) (t : Vc n) (h h' : Hash n) : Prop where
  clock : h'.clock = some (vcUpdate (h.now me) t)
  buf : h'.buf = h.buf

theorem Ticked.control {me : Fin n} {t : Vc n} {h h' h'' : Hash n}
    (h₁ : Ticked me t h h') (h₂ : SameControl h' h'') : Ticked me t h h'' :=
  ⟨h₂.clock.trans h₁.clock, h₂.buf.trans h₁.buf⟩

theorem tick_spec {me : Fin n} {t : Vc n} {h h' : Hash n} (htick : tick me t h = some h') :
    Ticked me t h h' := by
  obtain ⟨p, hget, rfl⟩ := Option.map_eq_some_iff.mp htick
  obtain ⟨hc, -, hbuf⟩ := getCurrent_spec hget
  exact ⟨by rw [Hash.clock_set_current, hc], (p.1.buf_set_ne _ (by decide)).trans hbuf⟩

/-- What every command does to the control fields. -/
theorem applyCmd_control {me : Fin n} {cmd : RlCmd n} {h h' : Hash n}
    (happ : applyCmd me cmd h = some h') : Ticked me cmd.t h h' := by
  unfold applyCmd at happ
  cases hty : cmd.type with
  | rladd =>
      rw [hty] at happ
      obtain ⟨pre, -, happ⟩ := Option.bind_eq_some_iff.mp happ
      obtain ⟨oid, -, happ⟩ := Option.bind_eq_some_iff.mp happ
      obtain ⟨content, -, happ⟩ := Option.bind_eq_some_iff.mp happ
      obtain ⟨pos, -, happ⟩ := Option.bind_eq_some_iff.mp happ
      obtain ⟨v, -, happ⟩ := Option.bind_eq_some_iff.mp happ
      obtain ⟨h₁, htick, happ⟩ := Option.bind_eq_some_iff.mp happ
      obtain ⟨p, hget, happ⟩ := Option.bind_eq_some_iff.mp happ
      obtain ⟨h₂, hpos, happ⟩ := Option.bind_eq_some_iff.mp happ
      exact (tick_spec htick).control (((findOrCreate_control hget).trans
        (position_control hpos)).trans (changeSets_control happ))
  | rlupdate =>
      rw [hty] at happ
      obtain ⟨oid, -, happ⟩ := Option.bind_eq_some_iff.mp happ
      obtain ⟨type, -, happ⟩ := Option.bind_eq_some_iff.mp happ
      obtain ⟨value, -, happ⟩ := Option.bind_eq_some_iff.mp happ
      obtain ⟨h₁, htick, happ⟩ := Option.bind_eq_some_iff.mp happ
      obtain ⟨p, hget, rfl⟩ := Option.map_eq_some_iff.mp happ
      refine (tick_spec htick).control ((findOrCreate_control hget).trans ?_)
      split
      · exact .refl _
      · exact modify_control _ _ _
  | rlrem =>
      rw [hty] at happ
      obtain ⟨oid, -, happ⟩ := Option.bind_eq_some_iff.mp happ
      obtain ⟨h₁, htick, happ⟩ := Option.bind_eq_some_iff.mp happ
      obtain ⟨p, hget, happ⟩ := Option.bind_eq_some_iff.mp happ
      exact (tick_spec htick).control
        ((findOrCreate_control hget).trans (changeSets_control happ))

-- =================================================== the effect phase

/-- The commands the effect phase of a broadcast applies, in order. -/
def applies (type : RlCmdType) (me : Fin n) (rargv : List (Arg n)) (h : Hash n) :
    List (RlCmd n) :=
  ((crGetLast rargv).bind fun t => (getCurrent me h).bind fun p =>
    if vcCausallyReady p.2 t then
      ((applyCmd me ⟨type, rargv.drop 1, t⟩ p.1).bind getOps).map fun q =>
        rlCmdNew type rargv t ::
          notified (fun (h : Option (Hash n)) cmd => h.any fun h => ready h cmd.t)
            (fun h cmd => h.bind (applyCmd me cmd)) (some q.1) q.2
    else none).getD []

end Rl

namespace RlCmd

/-- The vector of a command. -/
def stamp (cmd : RlCmd n) : Fin n → ℤ := cmd.t.vector

/-- The server that issued it. -/
def src (cmd : RlCmd n) : Fin n := cmd.t.id

end RlCmd

namespace Rl

/-- The clock of server `i`, as the loop finds it. -/
def HasClock (i : Fin n) (h : Hash n) : Prop := ∃ c, h.clock = some c ∧ c.id = i

theorem ready_eq {i : Fin n} {h : Hash n} (hc : HasClock i h) (cmd : RlCmd n) :
    ready h cmd.t = Replication.ready RlCmd.stamp RlCmd.src h.site.clock cmd := by
  obtain ⟨c, hc, -⟩ := hc
  have hsite : h.site.clock = c.vector := by simp [Hash.site, hc]
  have hfield : h.fields "current" = some (.clock c) := by
    unfold Hash.clock at hc
    split at hc
    · next c' hf =>
        obtain rfl := Option.some.inj hc
        exact hf
    · cases hc
  rw [hsite]
  simp only [ready, hfield]
  rfl

theorem Ticked.site {me i : Fin n} {t : Vc n} {h h' : Hash n} (ht : Ticked me t h h')
    (hid : (h.now me).id = i) :
    HasClock i h' ∧ h'.site.clock = h.site.clock ⊔ t.vector := by
  refine ⟨⟨_, ht.clock, hid⟩, ?_⟩
  rw [h.site_eq me]
  simp [Hash.site, ht.clock]

theorem HasClock.now {i : Fin n} {h : Hash n} (hc : HasClock i h) (me : Fin n) :
    (h.now me).id = i := by
  obtain ⟨c, hc, hid⟩ := hc
  simp [Hash.now, hc, hid]

/-- The loop, seen from the clock. -/
theorem notifyLoop_site {me i : Fin n} {h h' : Hash n} (hc : HasClock i h)
    (hrun : notifyLoop me h = some h') :
    HasClock i h' ∧ ∃ q, getOps h = some q ∧
      h'.site = ⟨(notify (Replication.ready RlCmd.stamp RlCmd.src)
          (Replication.tick RlCmd.stamp) h.site.clock h.buf).1,
        (notify (Replication.ready RlCmd.stamp RlCmd.src)
          (Replication.tick RlCmd.stamp) h.site.clock h.buf).2⟩ ∧
      notified (Replication.ready RlCmd.stamp RlCmd.src)
          (Replication.tick RlCmd.stamp) h.site.clock h.buf
        = notified (fun (h : Option (Hash n)) cmd => h.any fun h => ready h cmd.t)
            (fun h cmd => h.bind (applyCmd me cmd)) (some q.1) q.2 := by
  obtain ⟨⟨h₁, cmds⟩, hops, hrun⟩ := Option.bind_eq_some_iff.mp hrun
  obtain ⟨rfl, hsame⟩ := getOps_spec hops
  have hc₁ : HasClock i h₁ := by
    obtain ⟨c, hclock, hid⟩ := hc
    exact ⟨c, hsame.clock.trans hclock, hid⟩
  have hclock₁ : h₁.site.clock = h.site.clock := by
    simp only [Hash.site, hsame.clock]
  obtain ⟨h₂, hloop, rfl⟩ := Option.map_eq_some_iff.mp hrun
  set q := notify (fun (h : Option (Hash n)) cmd => h.any fun h => ready h cmd.t)
    (fun h cmd => h.bind (applyCmd me cmd)) (some h₁) h.buf with hq
  have hstep : ∀ (g : Hash n) (cmd : RlCmd n) (g' : Hash n), HasClock i g →
      applyCmd me cmd g = some g' → HasClock i g' ∧
        g'.site.clock = Replication.tick RlCmd.stamp g.site.clock cmd :=
    fun g cmd g' hg happ => (applyCmd_control happ).site (hg.now me)
  have hpair : notify (fun (h : Option (Hash n)) cmd => h.any fun h => ready h cmd.t)
      (fun h cmd => h.bind (applyCmd me cmd)) (some h₁) h.buf = (some h₂, q.2) := by
    rw [← hloop, ← hq]
  obtain ⟨hc₂, hview, hnot⟩ := notifyLoop_view_option (fun g : Hash n => g.site.clock)
    (fun g cmd hg => ready_eq hg cmd) hstep hc₁ hpair
  rw [hclock₁] at hview hnot
  refine ⟨?_, (h₁, h.buf), hops, ?_, hnot⟩
  · obtain ⟨c, hclock, hid⟩ := hc₂
    exact ⟨c, (h₂.clock_set_ne _ (by decide)).trans hclock, hid⟩
  · have hnotify : notify (Replication.ready RlCmd.stamp RlCmd.src)
        (Replication.tick RlCmd.stamp) h.site.clock h.buf = (h₂.site.clock, q.2) := hview
    rw [hnotify]
    show Site.mk _ _ = _
    rw [Hash.clock_set_ne _ _ (by decide), Hash.buf_set_ops]
    rfl

/-- An effect phase is an arrival. -/
theorem receive_site {type : RlCmdType} {me i : Fin n} {rargv : List (Arg n)} {t : Vc n}
    {h h' : Hash n} (hlast : crGetLast rargv = some t) (hid : (h.now me).id = i)
    (hrec : receive type me rargv h = some h') :
    HasClock i h' ∧
      h'.site = h.site.arrive RlCmd.stamp RlCmd.src (rlCmdNew type rargv t) ∧
      applies type me rargv h
        = h.site.applies RlCmd.stamp RlCmd.src (rlCmdNew type rargv t) := by
  unfold receive at hrec
  unfold applies
  rw [hlast, Option.bind_some] at hrec ⊢
  obtain ⟨⟨h₁, c⟩, hget, hrec⟩ := Option.bind_eq_some_iff.mp hrec
  obtain ⟨rfl, hclock, hbuf⟩ := getCurrent_spec hget
  have hc₁ : HasClock i h₁ := ⟨_, hclock, hid⟩
  have hsite : h₁.site = h.site := by
    rw [h.site_eq me]
    simp [Hash.site, hclock, hbuf]
  have hready : vcCausallyReady (h.now me) t
      = Replication.ready RlCmd.stamp RlCmd.src h.site.clock (rlCmdNew type rargv t) := by
    rw [h.site_eq me]
    rfl
  rw [hget, Option.bind_some]
  unfold Site.arrive Site.applies
  dsimp only at hrec ⊢
  rw [hready] at hrec ⊢
  split at hrec
  · next hr =>
      obtain ⟨h₂, happ, hloop⟩ := Option.bind_eq_some_iff.mp hrec
      have hticked := applyCmd_control happ
      obtain ⟨hc₂, hclock₂⟩ := hticked.site (hc₁.now me)
      obtain ⟨hc', q, hops, hsite', hnot⟩ := notifyLoop_site hc₂ hloop
      rw [hclock₂, hsite, hticked.buf, hbuf] at hsite' hnot
      refine ⟨hc', ?_, ?_⟩
      · rw [if_pos hr]
        exact hsite'
      · rw [if_pos hr, if_pos hr, happ, Option.bind_some, hops, Option.map_some,
          Option.getD_some]
        exact congrArg _ hnot.symm
  · next hr =>
      obtain ⟨⟨h₂, cmds⟩, hops, rfl⟩ := Option.map_eq_some_iff.mp hrec
      obtain ⟨rfl, hsame⟩ := getOps_spec hops
      refine ⟨?_, ?_, ?_⟩
      · refine ⟨_, (h₂.clock_set_ne _ (by decide)).trans (hsame.clock.trans hclock), hid⟩
      · rw [if_neg hr]
        show Site.mk _ _ = _
        rw [Hash.clock_set_ne _ _ (by decide), Hash.buf_set_ops, hsame.clock, hbuf]
        rw [show h.site.buf = h.buf from rfl, ← hsite]
        rfl
      · rw [if_neg hr, if_neg hr]
        rfl

end Rl

-- ====================================================== preparations

namespace Rl

/-- A preparation may make the clock's field, but not move the clock. -/
structure Prepared (me : Fin n) (h h' : Hash n) : Prop where
  now : h'.now me = h.now me
  buf : h'.buf = h.buf

theorem Prepared.site {me : Fin n} {h h' : Hash n} (hp : Prepared me h h') :
    h'.site = h.site := by
  rw [h.site_eq me, h'.site_eq me, hp.now, hp.buf]

theorem Prepared.of_control {me : Fin n} {h h' : Hash n} (hs : SameControl h h') :
    Prepared me h h' := ⟨hs.now me, hs.buf⟩

theorem Prepared.trans {me : Fin n} {h h' h'' : Hash n} (h₁ : Prepared me h h')
    (h₂ : Prepared me h' h'') : Prepared me h h'' :=
  ⟨h₂.now.trans h₁.now, h₂.buf.trans h₁.buf⟩

theorem stampNow_spec {me : Fin n} {h h' : Hash n} {t : Vc n}
    (hst : stampNow me h = some (h', t)) : Prepared me h h' ∧ t = vcNow (h.now me) := by
  obtain ⟨⟨h₁, c⟩, hget, heq⟩ := Option.map_eq_some_iff.mp hst
  obtain ⟨rfl, rfl⟩ := Prod.mk.inj heq
  obtain ⟨rfl, hclock, hbuf⟩ := getCurrent_spec hget
  exact ⟨⟨by simp [Hash.now, hclock], hbuf⟩, rfl⟩

theorem placeAt_prepared {me : Fin n} {h h' : Hash n} {pre : Option (Rle n)}
    {preArg oid : String} {e : Rle n} {res : Except Reply Leid}
    (hpl : rleKind.placeAt me (fun c => c) h pre preArg oid e = some (h', res)) :
    Prepared me h h' := by
  unfold ListKind.placeAt at hpl
  split at hpl
  · split at hpl
    · obtain ⟨rfl, -⟩ := Prod.mk.inj (Option.some.inj hpl)
      exact ⟨rfl, rfl⟩
    · obtain ⟨b, -, hpl⟩ := Option.bind_eq_some_iff.mp hpl
      obtain ⟨⟨h₁, c⟩, hget, heq⟩ := Option.map_eq_some_iff.mp hpl
      obtain ⟨rfl, -⟩ := Prod.mk.inj heq
      obtain ⟨rfl, hclock, hbuf⟩ := getCurrent_spec hget
      exact ⟨by simp [Hash.now], (h₁.buf_set_ne _ (by decide)).trans hbuf⟩
  · split at hpl
    · obtain ⟨rfl, -⟩ := Prod.mk.inj (Option.some.inj hpl)
      exact ⟨rfl, rfl⟩
    · obtain ⟨pos, -, heq⟩ := Option.map_eq_some_iff.mp hpl
      obtain ⟨rfl, -⟩ := Prod.mk.inj heq
      exact ⟨rfl, rfl⟩

/-- What a preparation does: it refuses, or broadcasts the client's words
as `sent` has them, what `mid` appends, and the next clock. -/
structure PrepareSpec (me : Fin n) (ho ho' : Option (Hash n))
    (res : Except Reply (List (Arg n))) (form : List (Arg n) → Prop) : Prop where
  prepared : Prepared me (ho.getD .empty) (ho'.getD .empty)
  broadcast : ∀ rargv, res = .ok rargv → ∃ l, form l ∧
    rargv = l ++ [.vc (vcNow ((ho.getD .empty).now me))]

theorem insertPrepare_spec {me : Fin n} {argv : List String} {ho ho' : Option (Hash n)}
    {res : Except Reply (List (Arg n))}
    (hp : insertPrepare me argv ho = some (ho', res)) :
    PrepareSpec me ho ho' res fun l =>
      ∃ preArg pos, l = (argv.set 2 preArg).map Arg.str ++ [.leid pos] := by
  cases insertPrepare_cases hp with
  | noPre _ => exact ⟨⟨rfl, rfl⟩, fun _ hcon => by cases hcon⟩
  | shown hat _ =>
      exact ⟨.of_control (findOrCreate_control hat.get), fun _ hcon => by cases hcon⟩
  | noPlace hat _ hplace =>
      have hmade : Prepared me (ho.getD .empty) _ := .of_control (findOrCreate_control hat.get)
      exact ⟨hmade.trans (placeAt_prepared hplace), fun _ hcon => by cases hcon⟩
  | @placed _ preArg _ _ _ _ _ pos _ hat _ hplace hst =>
      have hmade : Prepared me (ho.getD .empty) _ := .of_control (findOrCreate_control hat.get)
      have hplaced := hmade.trans (placeAt_prepared hplace)
      obtain ⟨hstamp, rfl⟩ := stampNow_spec hst
      refine ⟨hplaced.trans hstamp, ?_⟩
      intro rargv hok
      injection hok with hok
      refine ⟨_, ⟨preArg, pos, rfl⟩, ?_⟩
      rw [← hok, hplaced.now]
      simp

theorem nonAddPrepare_spec {sent argv : List String} {me : Fin n}
    {ho ho' : Option (Hash n)} {res : Except Reply (List (Arg n))}
    (hp : nonAddPrepare sent me argv ho = some (ho', res)) :
    PrepareSpec me ho ho' res fun l => l = sent.map Arg.str := by
  cases nonAddPrepare_cases hp with
  | nexist => exact ⟨⟨rfl, rfl⟩, fun _ hcon => by cases hcon⟩
  | accepted hho _ _ _ happend =>
      obtain ⟨⟨h₁, t⟩, hst, heq⟩ := Option.map_eq_some_iff.mp happend
      obtain ⟨rfl, rfl⟩ := Prod.mk.inj heq
      obtain ⟨hstamp, rfl⟩ := stampNow_spec hst
      subst hho
      refine ⟨hstamp, ?_⟩
      intro rargv hok
      injection hok with hok
      exact ⟨_, rfl, hok.symm⟩

end Rl

-- ============================================== the list by itself

/-- A broadcast about a list, with the timestamp it ends in. -/
structure RlMsg (n : ℕ) where
  type : RlCmdType
  rargv : List (Arg n)
  t : Vc n
  last : crGetLast rargv = some t

namespace RlMsg

/-- A vector as a broadcast, if it ends in a timestamp. -/
def ofVector (type : RlCmdType) (rargv : List (Arg n)) : Option (RlMsg n) :=
  match h : crGetLast rargv with
  | some t => some ⟨type, rargv, t, h⟩
  | none => none

/-- The command a broadcast is kept as. -/
def cmd (m : RlMsg n) : RlCmd n := rlCmdNew m.type m.rargv m.t

theorem ofVector_eq {type : RlCmdType} {rargv : List (Arg n)} {t : Vc n}
    (h : crGetLast rargv = some t) : ofVector type rargv = some ⟨type, rargv, t, h⟩ := by
  unfold ofVector
  split
  · next t' h' =>
      rw [h'] at h
      obtain rfl := Option.some.inj h
      rfl
  · next h' =>
      rw [h'] at h
      cases h

end RlMsg

/-- The commands on remove-wins lists. -/
def rlCommand : Cmd → Option (ListCommand n)
  | .rlinsert => some rlinsertCommand
  | .rlupdate => some rlupdateCommand
  | .rlrem => some rlremCommand
  | _ => none

/-- The type each is kept under. -/
def rlCmdType : Cmd → Option RlCmdType
  | .rlinsert => some .rladd
  | .rlupdate => some .rlupdate
  | .rlrem => some .rlrem
  | _ => none

/-- What a command broadcasts before the timestamp. -/
def rlForm : Cmd → List String → List (Arg n) → Prop
  | .rlinsert, argv, l =>
      ∃ preArg pos, l = (argv.set 2 preArg).map Arg.str ++ [.leid pos]
  | .rlupdate, argv, l => l = (argv.set 3 (sdstolower (argv.getD 3 ""))).map Arg.str
  | .rlrem, argv, l => l = argv.map Arg.str
  | _, _, _ => False

theorem rl_prepare_spec {c : Cmd} {lc : ListCommand n} {me : Fin n} {argv : List String}
    {ho ho' : Option (Hash n)} {res : Except Reply (List (Arg n))}
    (hlc : rlCommand c = some lc) (hp : lc.prepare me argv ho = some (ho', res)) :
    Rl.PrepareSpec me ho ho' res (rlForm c argv) := by
  cases c <;> cases hlc
  · exact Rl.insertPrepare_spec hp
  · exact Rl.nonAddPrepare_spec hp
  · exact Rl.nonAddPrepare_spec hp

/-- The name and the list stay the client's. -/
theorem rlForm_words {c : Cmd} {argv : List String} {l : List (Arg n)}
    (hform : rlForm c argv l) (hlen : 2 ≤ argv.length) (args : List (Arg n)) {i : ℕ}
    (hi : i < 2) : strAt i (l ++ args) = some (argv.getD i "") := by
  have hset : ∀ (j : ℕ) (x : String) (args : List (Arg n)), 2 ≤ j →
      strAt i ((argv.set j x).map Arg.str ++ args) = some (argv.getD i "") := by
    intro j x args hj
    rw [strAt_map_append (by rw [List.length_set]; omega), List.getD_eq_getElem?_getD,
      List.getElem?_set_ne (by omega), ← List.getD_eq_getElem?_getD]
  cases c <;> simp only [rlForm] at hform
  · obtain ⟨preArg, pos, rfl⟩ := hform
    rw [List.append_assoc]
    exact hset 2 preArg _ (by omega)
  · subst hform
    exact hset 3 _ _ (by omega)
  · subst hform
    exact strAt_map_append (by omega) args

/-- The remove-wins list as a family of commands. -/
def rlType : ListType n (RlMsg n) where
  command := rlCommand
  decode := fun c rargv => (rlCmdType c).bind fun type => RlMsg.ofVector type rargv
  effect := fun me m h => Rl.receive m.type me m.rargv h
  proc_eq := by
    intro c lc h
    cases c <;> cases h <;> rfl
  arity_ge := by
    intro c lc h
    cases c <;> cases h <;> decide
  effect_eq := by
    intro c lc me rargv h hlc
    cases ht : crGetLast rargv with
    | none =>
        have hnone : ∀ type, RlMsg.ofVector type rargv = none := by
          intro type
          unfold RlMsg.ofVector
          split
          · next t h' =>
              rw [ht] at h'
              cases h'
          · rfl
        cases c <;> cases hlc <;>
          simp [rlinsertCommand, rlupdateCommand, rlremCommand, rlCmdType, hnone,
            Rl.receive, ht]
    | some t =>
        cases c <;> cases hlc <;>
          simp [rlinsertCommand, rlupdateCommand, rlremCommand, rlCmdType,
            RlMsg.ofVector_eq ht]
  accepts := by
    intro dbl c lc me argv ho ho' rargv hlc hpass hp
    obtain ⟨l, hform, rfl⟩ := (rl_prepare_spec hlc hp).broadcast rargv rfl
    have hlen : 2 ≤ argv.length := by
      refine le_trans ?_ hpass.arity
      cases c <;> cases hlc <;> decide
    refine ⟨rlForm_words hform hlen _ (by omega), rlForm_words hform hlen _ (by omega), ?_⟩
    cases c <;> cases hlc <;> exact ⟨_, RlMsg.ofVector_eq (crGetLast_append l _)⟩

/-- What the list's object does with a vector. -/
theorem rl_service_prepare {me : Fin n} {argv : List String} {ho ho' : Option (Hash n)}
    {m : Option (RlMsg n)} (hp : rlType.service.prepare me argv ho = some (ho', m)) :
    Rl.Prepared me (ho.getD .empty) (ho'.getD .empty) ∧
      ∀ msg, m = some msg → ∃ c l, cmdOf argv = some c ∧ rlCmdType c = some msg.type ∧
        rlForm c argv l ∧ msg.t = vcNow ((ho.getD .empty).now me) ∧
        msg.rargv = l ++ [.vc msg.t] := by
  obtain ⟨c, hc, hp⟩ := Option.bind_eq_some_iff.mp hp
  obtain ⟨lc, hlc, hp⟩ := Option.bind_eq_some_iff.mp hp
  obtain ⟨⟨ho₁, res⟩, hprep, heq⟩ := Option.map_eq_some_iff.mp hp
  obtain ⟨rfl, rfl⟩ := Prod.mk.inj heq
  have hspec := rl_prepare_spec hlc hprep
  refine ⟨hspec.prepared, ?_⟩
  intro msg hmsg
  cases res with
  | error reply => cases hmsg
  | ok rargv =>
      obtain ⟨l, hform, rfl⟩ := hspec.broadcast rargv rfl
      obtain ⟨type, htype, hdec⟩ := Option.bind_eq_some_iff.mp hmsg
      rw [RlMsg.ofVector_eq (crGetLast_append l _)] at hdec
      obtain rfl := Option.some.inj hdec
      exact ⟨c, l, hc, htype, hform, rfl, rfl⟩

-- ============================================================ delivery

/-- A list is delivered to in causal order. -/
theorem rl_causal (allowed : List String → Prop) :
    Causal (rlType (n := n)).service allowed RlMsg.cmd RlCmd.stamp RlCmd.src
      (fun ho => (ho.getD .empty).site) (fun r ho => ((ho.getD .empty).now r).id = r) where
  inv_init := fun _ => rfl
  inv_prepare := by
    intro r c s s' m _ hs hp
    rw [(rl_service_prepare hp).1.now]
    exact hs
  inv_effect := by
    intro r m s s' hs he
    obtain ⟨h', hrec, rfl⟩ := Option.map_eq_some_iff.mp he
    exact (Rl.receive_site m.last hs hrec).1.now r
  init := fun _ => rfl
  prepare := by
    intro r c s s' m _ hp
    exact (rl_service_prepare hp).1.site
  stamped := by
    intro r c s s' m _ hs hp
    obtain ⟨c, l, -, -, -, ht, -⟩ := (rl_service_prepare hp).2 m rfl
    have hnow : m.cmd.t = vcNow ((s.getD .empty).now r) := ht
    refine ⟨?_, ?_⟩
    · show m.cmd.t.id = r
      rw [hnow, vcNow_id, hs]
    · show m.cmd.t.vector = _
      rw [hnow, (s.getD .empty).site_eq r]
      show Function.update _ ((s.getD .empty).now r).id _ = _
      rw [hs]
  effect := by
    intro r m s s' he
    obtain ⟨h', hrec, rfl⟩ := Option.map_eq_some_iff.mp he
    exact (Rl.receive_site m.last rfl hrec).2.1

/-- A command that waited is applied with the arguments it came with. -/
theorem applyCmd_rlCmdNew {rargv : List (Arg n)} {t : Vc n} (hlast : crGetLast rargv = some t)
    (type : RlCmdType) (me : Fin n) (h : Hash n) :
    Rl.applyCmd me (rlCmdNew type rargv t) h = Rl.applyCmd me ⟨type, rargv.drop 1, t⟩ h := by
  cases type <;>
    simp only [Rl.applyCmd, rlCmdNew, Rl.insertFunc, Rl.insertProps, Rl.updateFunc,
      Rl.removeFunc, strAt_inner hlast, leidAt_inner hlast]

/-- The commands on remove-wins lists. -/
def rlCmds : List Cmd := [.rlinsert, .rlupdate, .rlrem]

/-- List `tname` in the network state `k`: a run that records what its
effect phases apply shows every server applying in causal order, and what
a server keeps in its buffer it applies as it would have applied it
directly. -/
def RlDelivers (dbl : String → Option ℤ) (k : Net n) (tname : String) : Prop :=
  let c := rlType.readAt tname k
  (∃ k', Reachable (rlType.service.logged fun me m ho =>
        Rl.applies m.type me m.rargv (ho.getD .empty))
      (.once fun argv => Issues rlCmds argv ∧ (rlType (n := n)).Submits dbl argv) k' ∧
    k'.forget = c ∧ ∀ r, c.InCausalOrder RlMsg.cmd RlCmd.stamp RlCmd.src r
      ((c.site r).getD .empty).site (k'.site r).2) ∧
  ∀ o ∈ c.sent, ∀ me h, Rl.applyCmd me o.msg.cmd h
    = Rl.applyCmd me ⟨o.msg.type, o.msg.rargv.drop 1, o.msg.t⟩ h

/-- Remove-wins lists are delivered to in causal order. -/
theorem rlDelivers {dbl : String → Option ℤ} {k : Net n}
    (hk : Reachable (crdtService dbl) (.once (Issues rlCmds)) k) (tname : String) :
    RlDelivers dbl k tname := by
  have hat := ListType.reachable_once (T := rlType) (fun argv hall => by
    obtain ⟨c, hc, hname⟩ := hall
    simp only [rlCmds, List.mem_cons, List.not_mem_nil, or_false] at hc
    rcases hc with rfl | rfl | rfl <;> exact ⟨_, _, hname, rfl⟩) hk tname
  refine ⟨?_, fun o _ me h => applyCmd_rlCmdNew o.msg.last o.msg.type me h⟩
  obtain ⟨k', hk', hforget⟩ := hat.exists_logged fun me m ho =>
    Rl.applies m.type me m.rargv (ho.getD .empty)
  refine ⟨k', hk', hforget, fun r => ?_⟩
  have horder := (rl_causal _).inCausalOrder hat r
  have hlog := (rl_causal _).logged_log (fun {r m s s'} he => by
    obtain ⟨h', hrec, rfl⟩ := Option.map_eq_some_iff.mp he
    exact (Rl.receive_site m.last rfl hrec).2.2) hk' r
  rw [hlog, hforget]
  exact horder

/-- The buffered types deliver in causal order, without loss and without
duplication. -/
theorem buffered_causal_delivery (dbl : String → Option ℤ) {k k' : Net n}
    (hk : Reachable (crdtService dbl) (.once (Issues rzCmds)) k)
    (hk' : Reachable (crdtService dbl) (.once (Issues rlCmds)) k') :
    (∀ tname key r, RzDelivers dbl k tname key r) ∧ ∀ tname, RlDelivers dbl k' tname :=
  ⟨fun tname key r => rzDelivers hk tname key r, fun tname => rlDelivers hk' tname⟩

/-- An increment overtakes the add it is on. -/
def overtakenZset : List (Act 2 (List String)) :=
  [.submit 0 ["rzadd", "z", "a", "5"], .submit 0 ["rzincrby", "z", "a", "2"],
    .deliver 1 1, .deliver 1 0]

/-- An update and a remove overtake the insert of their element. -/
def overtakenList : List (Act 2 (List String)) :=
  [.submit 0 ["rlinsert", "l", "null", "a", "text", "1", "2", "3", "0"],
    .submit 0 ["rlupdate", "l", "a", "font", "9"], .submit 0 ["rlrem", "l", "a"],
    .deliver 1 2, .deliver 1 1]

theorem buffered_causal_delivery_overtaken :
    ∃ k k' : Net 2,
      Reachable (crdtService getLongLongFromObject) (.once (Issues rzCmds)) k ∧
      Reachable (crdtService getLongLongFromObject) (.once (Issues rlCmds)) k' ∧
      scoreOf (k.site 1) "z" "a" = some (some 7) ∧
      ((ListCommand.hashAt (k'.site 1) "l").map fun h => h.buf.length) = some 2 ∧
      (∀ tname key r, RzDelivers getLongLongFromObject k tname key r) ∧
      ∀ tname, RlDelivers getLongLongFromObject k' tname := by
  obtain ⟨k, hrun, hscore⟩ : ∃ k, (crdtService getLongLongFromObject).run
      (crdtService getLongLongFromObject).start overtakenZset = some k ∧
      scoreOf (k.site 1) "z" "a" = some (some 7) := ⟨_, rfl, by decide⟩
  obtain ⟨k', hrun', hbuf⟩ : ∃ k', (crdtService getLongLongFromObject).run
      (crdtService getLongLongFromObject).start overtakenList = some k' ∧
      ((ListCommand.hashAt (k'.site 1) "l").map fun h => h.buf.length) = some 2 :=
    ⟨_, rfl, by decide⟩
  have hk : Reachable (crdtService getLongLongFromObject) (.once (Issues rzCmds)) k :=
    Service.run_reachable (by decide) hrun
  have hk' : Reachable (crdtService getLongLongFromObject) (.once (Issues rlCmds)) k' :=
    Service.run_reachable (by decide) hrun'
  exact ⟨k, k', hk, hk', hscore, hbuf, buffered_causal_delivery _ hk hk'⟩

end CrdtRedis
