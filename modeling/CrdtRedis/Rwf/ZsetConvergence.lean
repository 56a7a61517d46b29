/-
The RWF priority queue converges without causal delivery: what a server
holds for an element is a function of the set of operations on it that
were applied there, whatever order they came in.

# How

Every effect starts with `removeCheck`, which starts the element over
when the message's history is not contained in the local one, and lets an
add or an increment through only if its history equals the local one
after that. This is the epoch discipline of the replication library
(`rwfz_resets`): the record is what the operations with the largest
history make of a new one. Within one epoch the id only grows and the
increments add up, so the order does not matter (`RwfzView.Of`).

The value of `innate` needs one fact about the network: a server issues
no second add in an epoch (`add_unique`), because its own first one makes
the element exist there until the epoch ends.
-/
import CrdtRedis.Element
import CrdtRedis.Rwf.History

namespace CrdtRedis

open Replication

variable {n : ℕ}

-- ============================================= the element by itself

/-- What a client asks of an element. -/
inductive RwfzReq
  | add (v : ℤ)
  | incrby (v : ℤ)
  | rem

/-- What is broadcast about an element. -/
inductive RwfzOp (n : ℕ)
  | add (v : ℤ) (t : Vc n)
  | incrby (v : ℤ) (t : Vc n)
  | rem (t : Vc n)
deriving DecidableEq

namespace RwfzOp

/-- The removal history an operation carries. -/
def stamp : RwfzOp n → Vc n
  | add _ t => t
  | incrby _ t => t
  | rem t => t

/-- The effect phases. -/
def act : RwfzOp n → Rwfze n → Rwfze n × List ZCall
  | add v t => Rwfze.addEffect v t
  | incrby v t => Rwfze.incrbyEffect v t
  | rem t => Rwfze.remEffect t

/-- The operation a broadcast stands for. -/
def decode (dbl : String → Option ℤ) (c : Cmd) (rargv : List (Arg n)) :
    Option (RwfzOp n) :=
  match c with
  | .rwfzadd => ((strAt 3 rargv).bind dbl).bind fun v => (crGetLast rargv).map (add v)
  | .rwfzincrby =>
      ((strAt 3 rargv).bind dbl).bind fun v => (crGetLast rargv).map (incrby v)
  | .rwfzrem => (crGetLast rargv).map rem
  | _ => none

end RwfzOp

/-- The preconditions, and what passes them. -/
def rwfzIssue : RwfzReq → Rwfze n → Option (Rwfze n × RwfzOp n)
  | .add v, e => if e.header.exist then none else some (e, .add v e.header.current)
  | .incrby v, e => if e.header.exist then some (e, .incrby v e.header.current) else none
  | .rem, e => if e.header.exist then some (e, .rem (vcNow e.header.current)) else none

/-- All a request can issue: the record stays, and what goes out carries
the history the precondition allows. -/
theorem rwfzIssue_cases {c : RwfzReq} {e e' : Rwfze n} {o : RwfzOp n}
    (h : rwfzIssue c e = some (e', o)) :
    e' = e ∧ ((∃ v, o = .add v e.header.current ∧ e.header.exist = false) ∨
      (∃ v, o = .incrby v e.header.current ∧ e.header.exist = true) ∨
      (o = .rem (vcNow e.header.current) ∧ e.header.exist = true)) := by
  cases c <;> simp only [rwfzIssue] at h <;> split at h
  all_goals simp only [Option.some.injEq, Prod.mk.injEq, reduceCtorEq] at h
  all_goals
    obtain ⟨rfl, rfl⟩ := h
    simp_all

/-- The commands on RWF priority queues. -/
def rwfzCommand : Cmd → Option (ElemCommand n (Rwfze n))
  | .rwfzadd => some rwfzaddCommand
  | .rwfzincrby => some rwfzincrbyCommand
  | .rwfzrem => some rwfzremCommand
  | _ => none

/-- The RWF priority queue as a family of commands. -/
def rwfzType : ElemType n (Rwfze n) RwfzReq (RwfzOp n) where
  table := rwfzeTable
  command := rwfzCommand
  issue := fun _ => rwfzIssue
  decode := RwfzOp.decode
  act := RwfzOp.act
  proc_eq := by
    intro c ec h
    cases c <;> cases h <;> rfl
  arity_ge := by
    intro c ec h
    cases c <;> cases h <;> decide
  effect_eq := by
    intro c ec dbl rargv h
    cases c <;> cases h
    · cases hv : (strAt 3 rargv).bind dbl <;> cases ht : crGetLast rargv <;>
        simp [rwfzaddCommand, RwfzOp.decode, RwfzOp.act, hv, ht]
    · cases hv : (strAt 3 rargv).bind dbl <;> cases ht : crGetLast rargv <;>
        simp [rwfzincrbyCommand, RwfzOp.decode, RwfzOp.act, hv, ht]
    · cases ht : crGetLast rargv <;>
        simp [rwfzremCommand, RwfzOp.decode, RwfzOp.act, ht]
  absent := by
    intro c ec me h hcreate
    cases c <;> cases h
    · cases hcreate
    · exact ⟨_, rfl⟩
    · exact ⟨_, rfl⟩
  accepts := by
    intro c ec dbl me argv e e' args h harity hmax hcheck hprep
    cases c <;> cases h
    · obtain ⟨v, hv⟩ := strAt_bind_dbl (n := n) harity hcheck
      simp only [rwfzaddCommand, rwfAddPrepare, Option.getD_some] at hprep
      split at hprep
      · cases hprep
      · next hex =>
          simp only [Except.ok.injEq, Prod.mk.injEq] at hprep
          obtain ⟨rfl, rfl⟩ := hprep
          refine ⟨.add v, .add v e.header.current, by simp [rwfzIssue, hex], ?_⟩
          simp only [RwfzOp.decode, hv, Option.bind_some, crGetLast_append, Option.map_some]
    · obtain ⟨v, hv⟩ := strAt_bind_dbl (n := n) harity hcheck
      simp only [rwfzincrbyCommand, rwfNonAddPrepare] at hprep
      split at hprep
      · next hex =>
          simp only [Except.ok.injEq, Prod.mk.injEq] at hprep
          obtain ⟨rfl, rfl⟩ := hprep
          refine ⟨.incrby v, .incrby v e.header.current, by simp [rwfzIssue, hex], ?_⟩
          simp only [RwfzOp.decode, hv, Option.bind_some, crGetLast_append, Option.map_some]
      · cases hprep
    · simp only [rwfzremCommand, rwfNonAddPrepare] at hprep
      split at hprep
      · next hex =>
          simp only [Except.ok.injEq, Prod.mk.injEq] at hprep
          obtain ⟨rfl, rfl⟩ := hprep
          refine ⟨.rem, .rem (vcNow e.header.current), by simp [rwfzIssue, hex], ?_⟩
          simp only [RwfzOp.decode, crGetLast_append, Option.map_some]
      · cases hprep

-- ================================================ reduced to the header

/-- What an operation is to the header. -/
def RwfzOp.toReh : RwfzOp n → RehOp n
  | .add _ t => ⟨.add, t⟩
  | .incrby _ t => ⟨.update, t⟩
  | .rem t => ⟨.rem, t⟩

theorem Rwfze.removeFunc_header {e : Rwfze n} {t : Vc n} :
    (e.removeFunc t).1.header = (e.header.removeCheck t).1 :=
  Reh.removeBy_header fun _ _ => rfl

/-- The effects move the header as the header alone would move. -/
theorem RwfzOp.act_header (o : RwfzOp n) (e : Rwfze n) :
    (o.act e).1.header = e.header.apply o.toReh := by
  cases o with
  | add v t =>
      simp only [act, Rwfze.addEffect, toReh, Reh.apply, ← Rwfze.removeFunc_header]
      split
      · next h heq => rw [heq]
      · next h heq => rw [heq, Reh.addCheck_false heq]
  | incrby v t =>
      simp only [act, Rwfze.incrbyEffect, toReh, Reh.apply, ← Rwfze.removeFunc_header]
      split
      · next h heq => rw [heq]
      · next h heq => rw [heq, Reh.updateCheck_false heq]
  | rem t => exact Rwfze.removeFunc_header

section Network

variable {k : Config n (Rwfze n × Option Score) (RwfzOp n)}

/-- An element of a priority queue, reduced to its header. -/
theorem rwfz_reh (hk : Reachable rwfzType.service (.once fun _ => True) k) :
    Reachable rehService (.once fun _ => True)
      (k.map (fun s => s.1.header) RwfzOp.toReh) := by
  refine rwfzType.reh (fun _ => rfl) (fun hissue => ?_) RwfzOp.act_header hk
  obtain ⟨rfl, ⟨v, rfl, hex⟩ | ⟨v, rfl, hex⟩ | ⟨rfl, hex⟩⟩ := rwfzIssue_cases hissue
  · exact ⟨.add, by simp [rehService, hex, RwfzOp.toReh]⟩
  · exact ⟨.update, by simp [rehService, hex, RwfzOp.toReh]⟩
  · exact ⟨.rem, by simp [rehService, hex, RwfzOp.toReh]⟩

end Network

-- ============================================ within an epoch and across

/-- What an element shows and holds besides its history. -/
structure RwfzView where
  pid : ℤ
  innate : ℤ
  acquired : ℤ
  entry : Option Score

namespace RwfzView

/-- A new element. -/
def empty : RwfzView := ⟨pidNexist, 0, 0, none⟩

/-- What an operation of the current epoch does. -/
def act (b : RwfzView) : RwfzOp n → RwfzView
  | .add v t =>
      if b.pid < t.id then ⟨t.id, v, b.acquired, some (some (v + b.acquired))⟩ else b
  | .incrby v _ =>
      ⟨if b.pid = pidNexist then pidWaitInnate else b.pid, b.innate, b.acquired + v,
        some (some (b.innate + (b.acquired + v)))⟩
  | .rem _ => b

end RwfzView

/-- The element as the view has it. -/
def rwfzView (s : Rwfze n × Option Score) : RwfzView :=
  ⟨s.1.header.pid, s.1.innate, s.1.acquired, s.2⟩

/-- The application of an operation. -/
def rwfzStep (s : Rwfze n × Option Score) (o : RwfzOp n) : Rwfze n × Option Score :=
  ((o.act s.1).1, runCalls (o.act s.1).2 s.2)

/-- The priority queue follows the epoch discipline. -/
theorem rwfz_resets : Resets (fun o : RwfzOp n => o.stamp.vector)
    (fun s : Rwfze n × Option Score => s.1.header.current.vector) rwfzView
    RwfzView.empty RwfzView.act rwfzStep where
  cur_step := by
    intro s o
    rw [rwfzStep, RwfzOp.act_header, Reh.apply_current, vcUpdate_vector]
    cases o <;> rfl
  body_stay := by
    intro s o hle hne
    cases o with
    | add v t =>
        simp only [RwfzOp.stamp] at hle hne
        simp [rwfzStep, RwfzOp.act, Rwfze.addEffect, Rwfze.removeFunc, Reh.removeBy_of_le hle,
          Reh.addCheck_of_ne hne]
    | incrby v t =>
        simp only [RwfzOp.stamp] at hle hne
        simp [rwfzStep, RwfzOp.act, Rwfze.incrbyEffect, Rwfze.removeFunc, Reh.removeBy_of_le hle,
          Reh.updateCheck_of_ne hne]
    | rem t =>
        simp only [RwfzOp.stamp] at hle hne
        simp [rwfzStep, RwfzOp.act, Rwfze.remEffect, Rwfze.removeFunc, Reh.removeBy_of_le hle]
  body_join := by
    intro s o heq
    cases o with
    | add v t =>
        simp only [RwfzOp.stamp] at heq
        simp only [rwfzStep, RwfzOp.act, Rwfze.addEffect, RwfzView.act, rwfzView,
          Rwfze.removeFunc, Reh.removeBy_of_le heq.le, Reh.addCheck_of_eq heq]
        by_cases hlt : s.1.header.pid < (t.id : ℤ)
        · simp [hlt, Rwfze.score, ZCall.run]
        · simp [hlt]
    | incrby v t =>
        simp only [RwfzOp.stamp] at heq
        by_cases hpid : s.1.header.pid = pidNexist <;>
          simp [rwfzStep, RwfzOp.act, Rwfze.incrbyEffect, RwfzView.act, rwfzView,
            Rwfze.removeFunc, Reh.removeBy_of_le heq.le, Reh.updateCheck_of_eq heq, Rwfze.score,
            ZCall.run, hpid]
    | rem t =>
        simp only [RwfzOp.stamp] at heq
        simp [rwfzStep, RwfzOp.act, Rwfze.remEffect, RwfzView.act,
          Rwfze.removeFunc, Reh.removeBy_of_le heq.le]
  body_reset := by
    intro s o hle hge
    have hne : o.stamp.vector ≠ (s.1.header.rmvFunc o.stamp).current.vector := by
      rw [Reh.rmvFunc_current, vcUpdate_vector]
      exact fun hcon => hge (le_sup_left.trans hcon.ge)
    cases o with
    | add v t =>
        simp only [RwfzOp.stamp] at hle hne
        simp [rwfzStep, RwfzOp.act, Rwfze.addEffect, Rwfze.removeFunc, Reh.removeBy_of_not_le hle,
          Reh.addCheck_of_ne hne, rwfzView, RwfzView.empty, ZCall.run]
    | incrby v t =>
        simp only [RwfzOp.stamp] at hle hne
        simp [rwfzStep, RwfzOp.act, Rwfze.incrbyEffect, Rwfze.removeFunc,
          Reh.removeBy_of_not_le hle, Reh.updateCheck_of_ne hne, rwfzView, RwfzView.empty,
          ZCall.run]
    | rem t =>
        simp only [RwfzOp.stamp] at hle hne
        simp [rwfzStep, RwfzOp.act, Rwfze.remEffect, Rwfze.removeFunc, Reh.removeBy_of_not_le hle,
          rwfzView, RwfzView.empty, ZCall.run]
  body_next := by
    intro s o hle hge
    have heq : o.stamp.vector = (s.1.header.rmvFunc o.stamp).current.vector := by
      rw [Reh.rmvFunc_current, vcUpdate_vector]
      exact (sup_eq_right.mpr hge).symm
    cases o with
    | add v t =>
        simp only [RwfzOp.stamp] at hle heq
        have hlt : pidNexist < (t.id : ℤ) := by
          have hid : (0 : ℤ) ≤ (t.id : ℤ) := Int.natCast_nonneg _
          unfold pidNexist
          omega
        simp [rwfzStep, RwfzOp.act, Rwfze.addEffect, Rwfze.removeFunc, Reh.removeBy_of_not_le hle,
          Reh.addCheck_of_eq heq, hlt, rwfzView, RwfzView.empty, RwfzView.act,
          Rwfze.score, ZCall.run]
    | incrby v t =>
        simp only [RwfzOp.stamp] at hle heq
        simp [rwfzStep, RwfzOp.act, Rwfze.incrbyEffect, Rwfze.removeFunc,
          Reh.removeBy_of_not_le hle, Reh.updateCheck_of_eq heq, rwfzView, RwfzView.empty,
          RwfzView.act, Rwfze.score, ZCall.run]
    | rem t =>
        simp only [RwfzOp.stamp] at hle heq
        simp [rwfzStep, RwfzOp.act, Rwfze.remEffect, Rwfze.removeFunc, Reh.removeBy_of_not_le hle,
          rwfzView, RwfzView.empty, RwfzView.act, ZCall.run]

-- ================================================= what an epoch leaves

/-- The amount an operation adds to `acquired`. -/
def RwfzOp.increment : RwfzOp n → ℤ
  | .incrby v _ => v
  | _ => 0

/-- `pid` and `innate` as a function of the operations of one epoch: the
value of the add with the largest id, if there is one. -/
inductive RwfzView.Innate (l : List (RwfzOp n)) : ℤ → ℤ → Prop
  | add (v : ℤ) (t : Vc n) (hmem : .add v t ∈ l)
      (hmax : ∀ v' t', .add v' t' ∈ l → t'.id ≤ t.id) : Innate l t.id v
  | wait (hadd : ∀ v t, .add v t ∉ l) (hinc : ∃ v t, .incrby v t ∈ l) :
      Innate l pidWaitInnate 0
  | nexist (hadd : ∀ v t, .add v t ∉ l) (hinc : ∀ v t, .incrby v t ∉ l) :
      Innate l pidNexist 0

namespace RwfzView.Innate

variable {l : List (RwfzOp n)} {pid innate : ℤ}

theorem id_le (h : Innate l pid innate) {v : ℤ} {t : Vc n} (hmem : .add v t ∈ l) :
    (t.id : ℤ) ≤ pid := by
  cases h with
  | add _ u _ hmax => exact_mod_cast hmax v t hmem
  | wait hadd _ => exact absurd hmem (hadd v t)
  | nexist hadd _ => exact absurd hmem (hadd v t)

theorem add_larger (h : Innate l pid innate) (v : ℤ) {t : Vc n}
    (hlt : pid < t.id) : Innate (l ++ [.add v t]) t.id v := by
  refine .add v t (by simp) ?_
  intro v' t' hmem
  rcases List.mem_append.mp hmem with hmem | hmem
  · exact_mod_cast (h.id_le hmem).trans hlt.le
  · cases List.mem_singleton.mp hmem
    exact le_rfl

theorem add_smaller (h : Innate l pid innate) (v : ℤ) {t : Vc n}
    (hlt : ¬ pid < t.id) : Innate (l ++ [.add v t]) pid innate := by
  have hid : (0 : ℤ) ≤ (t.id : ℤ) := Int.natCast_nonneg _
  cases h with
  | add _ u hmem hmax =>
      refine .add innate u (List.mem_append_left _ hmem) ?_
      intro v' t' hmem'
      rcases List.mem_append.mp hmem' with hmem' | hmem'
      · exact hmax v' t' hmem'
      · cases List.mem_singleton.mp hmem'
        exact_mod_cast not_lt.mp hlt
  | wait => unfold pidWaitInnate at hlt; omega
  | nexist => unfold pidNexist at hlt; omega

theorem incrby (h : Innate l pid innate) (v : ℤ) (t : Vc n) :
    Innate (l ++ [.incrby v t])
      (if pid = pidNexist then pidWaitInnate else pid) innate := by
  cases h with
  | add _ u hmem hmax =>
      have hid : (0 : ℤ) ≤ (u.id : ℤ) := Int.natCast_nonneg _
      rw [if_neg (by unfold pidNexist; omega)]
      exact .add innate u (List.mem_append_left _ hmem) (by simpa using hmax)
  | wait hadd hinc =>
      rw [if_neg (by decide)]
      exact .wait (by simpa using hadd) ⟨v, t, by simp⟩
  | nexist hadd hinc =>
      rw [if_pos rfl]
      exact .wait (by simpa using hadd) ⟨v, t, by simp⟩

theorem rem (h : Innate l pid innate) (t : Vc n) :
    Innate (l ++ [.rem t]) pid innate := by
  cases h with
  | add _ u hmem hmax =>
      exact .add innate u (List.mem_append_left _ hmem) (by simpa using hmax)
  | wait hadd hinc => exact .wait (by simpa using hadd) (by simpa using hinc)
  | nexist hadd hinc => exact .nexist (by simpa using hadd) (by simpa using hinc)

end RwfzView.Innate

/-- The view after the operations of one epoch. -/
theorem foldl_act_spec (l : List (RwfzOp n)) :
    let b := l.foldl RwfzView.act RwfzView.empty
    RwfzView.Innate l b.pid b.innate ∧ b.acquired = (l.map RwfzOp.increment).sum ∧
      b.entry = if b.pid = pidNexist then none else some (some (b.innate + b.acquired)) := by
  induction l using List.reverseRecOn with
  | nil => exact ⟨.nexist (by simp) (by simp), rfl, rfl⟩
  | append_singleton l o ih =>
      obtain ⟨hinn, hacq, hent⟩ := ih
      simp only [List.foldl_append, List.foldl_cons, List.foldl_nil, List.map_append,
        List.sum_append, List.map_cons, List.map_nil, List.sum_cons, List.sum_nil, add_zero]
      generalize l.foldl RwfzView.act RwfzView.empty = b at *
      cases o with
      | add v t =>
          have hid : (0 : ℤ) ≤ (t.id : ℤ) := Int.natCast_nonneg _
          simp only [RwfzView.act, RwfzOp.increment, add_zero]
          split
          · next hlt =>
              refine ⟨hinn.add_larger v hlt, hacq, ?_⟩
              exact (if_neg (show ¬ (t.id : ℤ) = pidNexist by unfold pidNexist; omega)).symm
          · next hlt => exact ⟨hinn.add_smaller v hlt, hacq, hent⟩
      | incrby v t =>
          refine ⟨hinn.incrby v t, congrArg (· + v) hacq, ?_⟩
          have hshown : ¬ (if b.pid = pidNexist then pidWaitInnate else b.pid)
              = pidNexist := by
            split
            · decide
            · assumption
          exact (if_neg hshown).symm
      | rem t =>
          simp only [RwfzView.act, RwfzOp.increment, add_zero]
          exact ⟨hinn.rem t, hacq, hent⟩

-- ============================================= what a server holds

/-- `pid` and `innate` as a function of the operations `D` applied and
the history `cur`: the largest id of an add with that history and the
value of that add; failing that, the marker for increments only; failing
that, the marker for nothing. -/
inductive RwfzHeld (D : List (Op n (RwfzOp n))) (cur : Fin n → ℤ) : ℤ → ℤ → Prop
  | add (w : Op n (RwfzOp n)) (v : ℤ) (t : Vc n) (hw : w ∈ D)
      (hmsg : w.msg = .add v t) (ht : t.vector = cur)
      (hmax : ∀ w' ∈ D, ∀ v' t', w'.msg = .add v' t' → t'.vector = cur →
        w'.src ≤ w.src) : RwfzHeld D cur w.src v
  | wait (hadd : ∀ w ∈ D, ∀ v t, w.msg = .add v t → t.vector ≠ cur)
      (hinc : ∃ w ∈ D, ∃ v t, w.msg = .incrby v t ∧ t.vector = cur) :
      RwfzHeld D cur pidWaitInnate 0
  | nexist (hadd : ∀ w ∈ D, ∀ v t, w.msg = .add v t → t.vector ≠ cur)
      (hinc : ∀ w ∈ D, ∀ v t, w.msg = .incrby v t → t.vector ≠ cur) :
      RwfzHeld D cur pidNexist 0

/-- The operations with history `cur` are those of the epoch. -/
theorem RwfzHeld.of_innate {D : List (Op n (RwfzOp n))} {cur : Fin n → ℤ}
    {l : List (RwfzOp n)} {pid innate : ℤ}
    (hlive : ∀ m, m ∈ l ↔ ∃ w ∈ D, w.msg = m ∧ m.stamp.vector = cur)
    (hid : ∀ w ∈ D, w.msg.stamp.id = w.src)
    (h : RwfzView.Innate l pid innate) : RwfzHeld D cur pid innate := by
  have hsrc : ∀ w ∈ D, ∀ v t, w.msg = .add v t → t.id = w.src := by
    intro w hw v t hmsg
    have hw' := hid w hw
    rw [hmsg] at hw'
    exact hw'
  have hnone : (∀ v t, .add v t ∉ l) →
      ∀ w ∈ D, ∀ v t, w.msg = .add v t → t.vector ≠ cur := by
    intro hadd w hw v t hmsg ht
    exact hadd v t ((hlive _).mpr ⟨w, hw, hmsg, ht⟩)
  cases h with
  | add _ t hmem hmax =>
      obtain ⟨w, hw, hmsg, ht⟩ := (hlive _).mp hmem
      rw [hsrc w hw innate t hmsg]
      refine .add w innate t hw hmsg ht ?_
      intro w' hw' v' t' hmsg' ht'
      rw [← hsrc w hw innate t hmsg, ← hsrc w' hw' v' t' hmsg']
      exact hmax v' t' ((hlive _).mpr ⟨w', hw', hmsg', ht'⟩)
  | wait hadd hinc =>
      obtain ⟨v, t, hmem⟩ := hinc
      obtain ⟨w, hw, hmsg, ht⟩ := (hlive _).mp hmem
      exact .wait (hnone hadd) ⟨w, hw, v, t, hmsg, ht⟩
  | nexist hadd hinc =>
      refine .nexist (hnone hadd) ?_
      intro w hw v t hmsg ht
      exact hinc v t ((hlive _).mpr ⟨w, hw, hmsg, ht⟩)

/-- What a server holds and shows for an element, as a function of the
operations `D` applied there. -/
structure RwfzSpec (D : List (Op n (RwfzOp n))) (e : Rwfze n) (z : Option Score) :
    Prop where
  current : IsPointwiseMax (D.map fun o => o.msg.stamp.vector) e.header.current.vector
  held : RwfzHeld D e.header.current.vector e.header.pid e.innate
  add_unique : ∀ w ∈ D, ∀ w' ∈ D, ∀ v v' t t', w.msg = .add v t → w'.msg = .add v' t' →
    t.vector = t'.vector → w.src = w'.src → w = w'
  acquired : e.acquired = ((D.filter fun o =>
    decide (o.msg.stamp.vector = e.header.current.vector)).map
      fun o => o.msg.increment).sum
  shown : z = if e.header.pid = pidNexist then none
    else some (some (e.innate + e.acquired))

namespace RwfzSpec

variable {D D' : List (Op n (RwfzOp n))} {e e' : Rwfze n} {z z' : Option Score}

/-- Held is held: the set of operations determines `pid` and
`innate`. -/
theorem held_congr (h : RwfzSpec D e z) (hmem : ∀ o, o ∈ D ↔ o ∈ D')
    {cur : Fin n → ℤ} {p q a b : ℤ} (hp : RwfzHeld D cur p a)
    (hq : RwfzHeld D' cur q b) : p = q ∧ a = b := by
  cases hp with
  | add w v t hw hmsg ht hmax =>
      cases hq with
      | add w' v' t' hw' hmsg' ht' hmax' =>
          have hsrc : w.src = w'.src :=
            le_antisymm (hmax' w ((hmem w).mp hw) a t hmsg ht)
              (hmax w' ((hmem w').mpr hw') b t' hmsg' ht')
          have heq := h.add_unique w hw w' ((hmem w').mpr hw') a b t t' hmsg hmsg'
            (ht.trans ht'.symm) hsrc
          subst heq
          rw [hmsg] at hmsg'
          injection hmsg' with hv
          exact ⟨rfl, hv⟩
      | wait hadd _ => exact absurd ht (hadd w ((hmem w).mp hw) a t hmsg)
      | nexist hadd _ => exact absurd ht (hadd w ((hmem w).mp hw) a t hmsg)
  | wait hadd hinc =>
      cases hq with
      | add w' v' t' hw' hmsg' ht' _ =>
          exact absurd ht' (hadd w' ((hmem w').mpr hw') b t' hmsg')
      | wait => exact ⟨rfl, rfl⟩
      | nexist _ hno =>
          obtain ⟨w, hw, v, t, hmsg, ht⟩ := hinc
          exact absurd ht (hno w ((hmem w).mp hw) v t hmsg)
  | nexist hadd hno =>
      cases hq with
      | add w' v' t' hw' hmsg' ht' _ =>
          exact absurd ht' (hadd w' ((hmem w').mpr hw') b t' hmsg')
      | wait _ hinc =>
          obtain ⟨w, hw, v, t, hmsg, ht⟩ := hinc
          exact absurd ht (hno w ((hmem w).mpr hw) v t hmsg)
      | nexist => exact ⟨rfl, rfl⟩

/-- Two servers that applied the same operations hold and show the
same. -/
theorem agree (h : RwfzSpec D e z) (h' : RwfzSpec D' e' z') (hperm : D.Perm D') :
    e.header.current.vector = e'.header.current.vector ∧
      e.header.pid = e'.header.pid ∧ e.innate = e'.innate ∧
      e.acquired = e'.acquired ∧ z = z' := by
  have hmem : ∀ o, o ∈ D ↔ o ∈ D' := fun o => hperm.mem_iff
  have hcur : e.header.current.vector = e'.header.current.vector :=
    h.current.congr h'.current fun t => (hperm.map _).mem_iff
  obtain ⟨hpid, hinn⟩ := h.held_congr hmem h.held (hcur ▸ h'.held)
  have hacq : e.acquired = e'.acquired := by
    rw [h.acquired, h'.acquired, hcur]
    exact ((hperm.filter _).map _).sum_eq
  refine ⟨hcur, hpid, hinn, hacq, ?_⟩
  rw [h.shown, h'.shown, hpid, hinn, hacq]

end RwfzSpec

section

variable {k : Config n (Rwfze n × Option Score) (RwfzOp n)}

/-- The element at a server is the fold of what was applied there. -/
theorem rwfz_fold (hk : Reachable rwfzType.service (.once fun _ => True) k) (r : Fin n) :
    k.site r = ((k.got r).map Op.msg).foldl rwfzStep (Rwfze.new r, none) := by
  refine hk.fold (fun _ s => s) (fun _ => rwfzStep) ?_ ?_ r
  · intro r c s s' m _ hp
    rcases ElemType.service_prepare hp with ⟨rfl, -⟩ | ⟨e, o, hissue, rfl, -⟩
    · rfl
    · rw [(rwfzIssue_cases hissue).1]
  · intro r o s s' _ he
    exact (Option.some.inj he).symm

theorem RwfzOp.toReh_t (o : RwfzOp n) : o.toReh.t = o.stamp := by
  cases o <;> rfl

/-- In every reachable state a server holds what the specification
says. -/
theorem rwfz_spec (hk : Reachable rwfzType.service (.once fun _ => True) k) (r : Fin n) :
    RwfzSpec (k.got r) (k.site r).1 (k.site r).2 := by
  have hreh := rwfz_reh hk
  set D := k.got r with hD
  have hsent : ∀ w ∈ D, w ∈ k.sent := fun w hw => hk.ledger.got_sent r w hw
  have hid : ∀ w ∈ D, w.msg.stamp.id = w.src := by
    intro w hw
    have hmap := (reh_stamp hreh (w.map RwfzOp.toReh)
      (List.mem_map_of_mem (hsent w hw))).2
    rw [← RwfzOp.toReh_t]
    exact hmap
  -- the state after the fold, read through the epoch discipline
  have hcur : (k.site r).1.header.current.vector
      = top (fun o : RwfzOp n => o.stamp.vector) 0 (D.map Op.msg) := by
    rw [rwfz_fold hk r]
    exact rwfz_resets.cur_foldl _ _
  have hview : rwfzView (k.site r) = (live (fun o : RwfzOp n => o.stamp.vector) 0
      (D.map Op.msg)).foldl RwfzView.act RwfzView.empty := by
    rw [rwfz_fold hk r]
    exact rwfz_resets.body_foldl rfl _
  obtain ⟨hinn, hacq, hent⟩ := foldl_act_spec
    (live (fun o : RwfzOp n => o.stamp.vector) 0 (D.map Op.msg))
  rw [← hview] at hinn hacq hent
  have hlive : ∀ m, m ∈ live (fun o : RwfzOp n => o.stamp.vector) 0 (D.map Op.msg) ↔
      ∃ w ∈ D, w.msg = m ∧ m.stamp.vector = (k.site r).1.header.current.vector := by
    intro m
    rw [mem_live, List.mem_map, hcur]
    constructor
    · rintro ⟨⟨w, hw, rfl⟩, htop⟩
      exact ⟨w, hw, rfl, htop⟩
    · rintro ⟨w, hw, rfl, htop⟩
      exact ⟨⟨w, hw, rfl⟩, htop⟩
  refine ⟨?_, ?_, ?_, ?_, ?_⟩
  · have hmax := reh_current_max hreh r
    simpa [Config.map, Op.map, RwfzOp.toReh_t, Function.comp_def, hD] using hmax
  · exact .of_innate hlive hid hinn
  · intro w hw w' hw' v v' t t' hmsg hmsg' ht hsrc
    have huniq := reh_add_unique hreh (w.map RwfzOp.toReh)
      (List.mem_map_of_mem (hsent w hw)) (w'.map RwfzOp.toReh)
      (List.mem_map_of_mem (hsent w' hw')) (by simp [Op.map, hmsg, RwfzOp.toReh])
      (by simp [Op.map, hmsg', RwfzOp.toReh]) hsrc
      (by simpa [Op.map, hmsg, hmsg', RwfzOp.toReh] using ht)
    exact hk.ledger.uid_inj w (hsent w hw) w' (hsent w' hw')
      (by simpa [Op.map] using congrArg Op.uid huniq)
  · rw [show (k.site r).1.acquired = (rwfzView (k.site r)).acquired from rfl, hacq, live,
      ← hcur, List.filter_map, List.map_map]
    rfl
  · exact hent

end

/-- The commands on RWF priority queues. -/
def rwfzCmds : List Cmd := [.rwfzadd, .rwfzincrby, .rwfzrem]

/-- Element `key` of `tname` in the network state `k`: every server holds
and shows what `RwfzSpec` says about the operations on it that were
applied there, and two servers that applied the same ones hold and show
the same. -/
def RwfzConverges (dbl : String → Option ℤ) (k : Net n) (tname key : String) : Prop :=
  (∀ r, RwfzSpec ((rwfzType.readAt dbl tname key k).got r)
    (rwfzeTable.recordOf r (k.site r) tname key) (scoreOf (k.site r) tname key)) ∧
  ∀ r q, (∀ o, o ∈ (rwfzType.readAt dbl tname key k).got r ↔
      o ∈ (rwfzType.readAt dbl tname key k).got q) →
    let e := rwfzeTable.recordOf r (k.site r) tname key
    let e' := rwfzeTable.recordOf q (k.site q) tname key
    e.header.current.vector = e'.header.current.vector ∧
      e.header.pid = e'.header.pid ∧ e.innate = e'.innate ∧
      e.acquired = e'.acquired ∧
      scoreOf (k.site r) tname key = scoreOf (k.site q) tname key

/-- Strong convergence of the RWF priority queue, for every number of
servers, in every reachable state and for every element. -/
theorem rwfz_strong_convergence (dbl : String → Option ℤ) {k : Net n}
    (hk : Reachable (crdtService dbl) (.once (Issues rwfzCmds)) k)
    (tname key : String) : RwfzConverges dbl k tname key := by
  have hat := ElemType.reachable_once (E := rwfzType)
    (by simp [rwfzCmds, rwfzType, rwfzCommand]) hk tname key
  have hspec := rwfz_spec hat
  refine ⟨hspec, fun r q hsame => ?_⟩
  have hnd := hat.got_nodup (fun h => h)
  exact (hspec r).agree (hspec q)
    ((List.perm_ext_iff_of_nodup (hnd r) (hnd q)).mpr hsame)

/-- Two servers add the element at the same time; one of them increments
it on top of both, the other removes it without having seen that. -/
def rwfzSchedule : List (Act 2 (List String)) :=
  [.submit 0 ["rwfzadd", "z", "a", "5"], .submit 1 ["rwfzadd", "z", "a", "7"],
    .deliver 0 1, .submit 0 ["rwfzincrby", "z", "a", "2"],
    .submit 1 ["rwfzrem", "z", "a"], .deliver 1 0, .deliver 1 2]

theorem rwfz_strong_convergence_schedule :
    ∃ k : Net 2, Reachable (crdtService getLongLongFromObject) (.once (Issues rwfzCmds)) k ∧
      scoreOf (k.site 0) "z" "a" = some (some 9) ∧ scoreOf (k.site 1) "z" "a" = none ∧
      RwfzConverges getLongLongFromObject k "z" "a" := by
  obtain ⟨k, hrun, h0, h1⟩ : ∃ k, (crdtService getLongLongFromObject).run
      (crdtService getLongLongFromObject).start rwfzSchedule = some k ∧
      scoreOf (k.site 0) "z" "a" = some (some 9) ∧ scoreOf (k.site 1) "z" "a" = none :=
    ⟨_, rfl, by decide, by decide⟩
  have hk : Reachable (crdtService getLongLongFromObject) (.once (Issues rwfzCmds)) k :=
    Service.run_reachable (by decide) hrun
  exact ⟨k, hk, h0, h1, rwfz_strong_convergence _ hk "z" "a"⟩

end CrdtRedis
