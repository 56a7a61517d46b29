/-
The add-wins priority queue, one element by itself: what its record holds
after any operations.

# What is a function of what was applied

`aset` has an entry for each tag an add or an increment brought and no
remove lists, and the entry holds the value of the add and the sums of
the increments of its tag (`Oze.Core`).

# What is not

The two pointers are kept by comparing, and `resort` compares with
entries whose add has not arrived. So `innate` is no largest tag; it is a
tag that no entry WITH A VALUE exceeds (`Pointer.Bounds`), and `acquired`
an entry that none with a positive count exceeds. Either may be null
while `aset` is not empty.
-/
import Mathlib.Algebra.Order.Group.Abs
import CrdtRedis.Ori.Tags

namespace CrdtRedis

open Replication

variable {n : ℕ}

-- ============================================= the element by itself

/-- What a client asks of an element. -/
inductive OzReq
  | add (v : ℤ)
  | incrby (v : ℤ)
  | rem

/-- What is broadcast about an element. -/
inductive OzOp
  | add (v : ℤ) (t : Lc)
  | incrby (v : ℤ) (tags : List Lc)
  | rem (tags : List Lc)
deriving DecidableEq

namespace OzOp

/-- The effect phases. -/
def act : OzOp → Oze → Oze × List ZCall
  | add v t => Oze.addEffect v t
  | incrby v tags => Oze.incrbyEffect v tags
  | rem tags => Oze.remEffect tags

/-- The tag an operation brings. -/
def tag : OzOp → Option Lc
  | add _ t => some t
  | _ => none

/-- The operation a broadcast stands for. -/
def decode (dbl : String → Option ℤ) (c : Cmd) (rargv : List (Arg n)) : Option OzOp :=
  match c with
  | .ozadd =>
      ((strAt 3 rargv).bind dbl).bind fun v => (lcAt 4 rargv).map fun t => add v t
  | .ozincrby =>
      ((strAt 3 rargv).bind dbl).bind fun v => (tagsFrom 4 rargv).map (incrby v)
  | .ozrem => (tagsFrom 3 rargv).map rem
  | _ => none

end OzOp

/-- The preconditions, and what passes them: an add takes the next tag of
its server, the other two list the tags they find. -/
def ozIssue (me : Fin n) : OzReq → Oze → Option (Oze × OzOp)
  | .add v, e =>
      if e.lookup then none
      else some ({ e with current := e.current + 1 }, .add v ⟨e.current, me⟩)
  | .incrby v, e => if e.lookup then some (e, .incrby v e.tags) else none
  | .rem, e => if e.lookup then some (e, .rem e.tags) else none

/-- All a request can issue. -/
theorem ozIssue_cases {me : Fin n} {c : OzReq} {e e' : Oze} {o : OzOp}
    (h : ozIssue me c e = some (e', o)) :
    (∃ v, o = .add v ⟨e.current, me⟩ ∧ e' = { e with current := e.current + 1 }) ∨
      ((o = .rem e.tags ∨ ∃ v, o = .incrby v e.tags) ∧ e' = e) := by
  cases c <;> simp only [ozIssue] at h <;> split at h
  all_goals simp only [Option.some.injEq, Prod.mk.injEq, reduceCtorEq] at h
  all_goals
    obtain ⟨rfl, rfl⟩ := h
    simp

/-- The commands on add-wins priority queues. -/
def ozCommand : Cmd → Option (ElemCommand n Oze)
  | .ozadd => some ozaddCommand
  | .ozincrby => some ozincrbyCommand
  | .ozrem => some ozremCommand
  | _ => none

/-- The add-wins priority queue as a family of commands. -/
def ozType : ElemType n Oze OzReq OzOp where
  table := ozeTable
  command := ozCommand
  issue := ozIssue
  decode := OzOp.decode
  act := OzOp.act
  proc_eq := by
    intro c ec h
    cases c <;> cases h <;> rfl
  arity_ge := by
    intro c ec h
    cases c <;> cases h <;> decide
  effect_eq := by
    intro c ec dbl rargv h
    cases c <;> cases h
    · cases hv : (strAt 3 rargv).bind dbl <;> cases ht : lcAt 4 rargv <;>
        simp [ozaddCommand, OzOp.decode, OzOp.act, hv, ht]
    · cases hv : (strAt 3 rargv).bind dbl <;> cases ht : tagsFrom 4 rargv <;>
        simp [ozincrbyCommand, OzOp.decode, OzOp.act, hv, ht]
    · cases ht : tagsFrom 3 rargv <;>
        simp [ozremCommand, OzOp.decode, OzOp.act, ht]
  absent := by
    intro c ec me h hcreate
    cases c <;> cases h
    · cases hcreate
    · exact ⟨_, rfl⟩
    · exact ⟨_, rfl⟩
  accepts := by
    intro c ec dbl me argv e e' args h harity hmax hcheck hprep
    cases c <;> cases h
    · obtain ⟨v, hv⟩ := strAt_bind_dbl (n := n) harity hcheck
      have hlen : (argv.map (Arg.str (n := n))).length = 4 := by
        rw [List.length_map]
        exact le_antisymm hmax harity
      simp only [ozaddCommand, Option.getD_some] at hprep
      split at hprep
      · cases hprep
      · next hex =>
          simp only [Except.ok.injEq, Prod.mk.injEq] at hprep
          obtain ⟨rfl, rfl⟩ := hprep
          refine ⟨.add v, .add v ⟨e.current, me⟩, by simp [ozIssue, hex], ?_⟩
          simp only [OzOp.decode, hv, Option.bind_some, lcAt_append hlen, Option.map_some]
    · obtain ⟨v, hv⟩ := strAt_bind_dbl (n := n) harity hcheck
      have hlen : argv.length = 4 := le_antisymm hmax harity
      simp only [ozincrbyCommand, Oze.nonAddPrepare] at hprep
      split at hprep
      · next hex =>
          simp only [Except.ok.injEq, Prod.mk.injEq] at hprep
          obtain ⟨rfl, rfl⟩ := hprep
          refine ⟨.incrby v, .incrby v e.tags, by simp [ozIssue, hex], ?_⟩
          simp only [OzOp.decode, hv, Option.bind_some, tagsFrom_words hlen,
            Option.map_some]
      · cases hprep
    · have hlen : argv.length = 3 := le_antisymm hmax harity
      simp only [ozremCommand, Oze.nonAddPrepare] at hprep
      split at hprep
      · next hex =>
          simp only [Except.ok.injEq, Prod.mk.injEq] at hprep
          obtain ⟨rfl, rfl⟩ := hprep
          refine ⟨.rem, .rem e.tags, by simp [ozIssue, hex], ?_⟩
          simp only [OzOp.decode, tagsFrom_words hlen, Option.map_some]
      · cases hprep

-- ===================================================== the two orders

/-- What `acquired` is chosen by. -/
def OzAse.rank (a : OzAse) : ℤ × Lc := (a.count, a.t)

/-- By count, then by tag. -/
def RankLt (p q : ℤ × Lc) : Prop := p.1 < q.1 ∨ p.1 = q.1 ∧ p.2.TagLt q.2

instance : DecidableRel RankLt := fun p q =>
  inferInstanceAs (Decidable (p.1 < q.1 ∨ p.1 = q.1 ∧ p.2.TagLt q.2))

theorem RankLt.irrefl (p : ℤ × Lc) : ¬ RankLt p p := by
  intro h
  rcases h with h | ⟨-, h⟩
  · exact lt_irrefl _ h
  · exact Lc.TagLt.irrefl _ h

theorem RankLt.trans {p q r : ℤ × Lc} (hpq : RankLt p q) (hqr : RankLt q r) :
    RankLt p r := by
  rcases hpq with hpq | ⟨heq, hpq⟩ <;> rcases hqr with hqr | ⟨heq', hqr⟩
  · exact Or.inl (hpq.trans hqr)
  · exact Or.inl (heq' ▸ hpq)
  · exact Or.inl (heq ▸ hqr)
  · exact Or.inr ⟨heq.trans heq', hpq.trans hqr⟩

/-- Entries that neither is less have the same tag. -/
theorem RankLt.antisymm {p q : ℤ × Lc} (hpq : ¬ RankLt p q) (hqp : ¬ RankLt q p) :
    p.2 = q.2 := by
  obtain ⟨hlt, hpq⟩ := not_or.mp hpq
  obtain ⟨hlt', hqp⟩ := not_or.mp hqp
  have heq : p.1 = q.1 := le_antisymm (not_lt.mp hlt') (not_lt.mp hlt)
  exact Lc.TagLt.antisymm (fun h => hpq ⟨heq, h⟩) (fun h => hqp ⟨heq.symm, h⟩)

-- ========================================================= one record

/-- What `add_ase` makes. -/
def OzAse.new (t : Lc) : OzAse := ⟨t, none, 0, 0⟩

/-- What an increment does to an entry. -/
def OzAse.bump (v : ℤ) (a : OzAse) : OzAse :=
  { a with inc := a.inc + v, count := a.count + |v| }

/-- What an add does to an entry. -/
def OzAse.assign (v : ℤ) (a : OzAse) : OzAse := { a with x := some v }

namespace Oze

variable {e : Oze} {t : Lc}

theorem rsetGet_isSome : (e.rsetGet t).isSome = true ↔ t ∈ e.rset := by
  rw [rsetGet, find?_tag_isSome fun a => a, List.map_id']

theorem asetGet_isSome : (e.asetGet t).isSome = true ↔ t ∈ e.tags := find?_tag_isSome OzAse.t

/-- Where tags do not repeat, `asetGet` finds the entry. -/
theorem asetGet_of_mem (hnd : e.tags.Nodup) {a : OzAse} (ha : a ∈ e.aset) :
    e.asetGet a.t = some a := by
  cases hget : e.asetGet a.t with
  | none =>
      have hsome := asetGet_isSome.mpr (List.mem_map_of_mem ha)
      rw [hget] at hsome
      cases hsome
  | some b =>
      have hb : b ∈ e.aset := List.mem_of_find?_eq_some hget
      have htag : a.t = b.t := by
        have := List.find?_some hget
        simpa using this
      rw [List.inj_on_of_nodup_map hnd ha hb htag]

/-- What the operations on a tag make of its entry, from what `add_ase`
makes. -/
structure Contents (touched : Lc → Prop) (content : Lc → OzAse) : Prop where
  content_t : ∀ t, (content t).t = t
  content_new : ∀ t, ¬ touched t → content t = .new t

theorem Contents.update {T : Lc → Prop} {c : Lc → OzAse} (h : Contents T c)
    {f : OzAse → OzAse} (hf : ∀ a, (f a).t = a.t) (t : Lc) :
    Contents (fun u => T u ∨ u = t) (Function.update c t (f (c t))) := by
  refine ⟨fun u => ?_, fun u hu => ?_⟩
  · by_cases hu : u = t
    · rw [hu, Function.update_self, hf, h.content_t]
    · rw [Function.update_of_ne hu, h.content_t]
  · obtain ⟨hT, hne⟩ := not_or.mp hu
    rw [Function.update_of_ne hne, h.content_new u hT]

/-- The lists of a record whose tags were `touched` by adds and
increments and `listed` by removes, with the entries `content`. -/
structure Sets (touched listed : Lc → Prop) (content : Lc → OzAse) (e : Oze) : Prop
    extends Contents touched content where
  nodup : e.tags.Nodup
  entries : ∀ a, a ∈ e.aset ↔ (touched a.t ∧ ¬ listed a.t) ∧ a = content a.t
  rset : ∀ t, t ∈ e.rset ↔ listed t

/-- A record, pointers included. -/
structure Core (touched listed : Lc → Prop) (content : Lc → OzAse) (e : Oze) : Prop
    extends Sets touched listed content e where
  innate : Pointer.Bounds OzAse.t Lc.TagLt (fun a => a.x ≠ none) e.aset e.innate
  acquired : Pointer.Bounds OzAse.rank RankLt (fun a => 0 < a.count) e.aset
    (e.acquired.map fun q => (content q).rank)

variable {T L : Lc → Prop} {c : Lc → OzAse}

namespace Sets

theorem tagged (h : Sets T L c e) : Tagged OzAse.t e.aset e.rset := by
  refine ⟨h.nodup, fun t ht hr => ?_⟩
  obtain ⟨a, ha, rfl⟩ := List.mem_map.mp ht
  exact ((h.entries a).mp ha).1.2 ((h.rset a.t).mp hr)

/-- The entry of a tag. -/
theorem mem_content (h : Sets T L c e) (ht : t ∈ e.tags) : c t ∈ e.aset := by
  obtain ⟨a, ha, rfl⟩ := List.mem_map.mp ht
  exact ((h.entries a).mp ha).2 ▸ ha

theorem asetGet (h : Sets T L c e) (ht : t ∈ e.tags) : e.asetGet t = some (c t) := by
  have hget := asetGet_of_mem h.nodup (h.mem_content ht)
  rw [h.content_t] at hget
  exact hget

/-- A tag has an entry where it was touched and not listed. -/
theorem mem_tags (h : Sets T L c e) : t ∈ e.tags ↔ T t ∧ ¬ L t := by
  constructor
  · intro ht
    have hmem := (h.entries (c t)).mp (h.mem_content ht)
    rw [h.content_t] at hmem
    exact hmem.1
  · intro ht
    have hmem : c t ∈ e.aset := (h.entries (c t)).mpr (by rw [h.content_t]; exact ⟨ht, rfl⟩)
    exact List.mem_map.mpr ⟨c t, hmem, h.content_t t⟩

/-- What a write to the entry of a tag finds: its entry, or a new one. -/
theorem found (h : Sets T L c e) (ht : ¬ L t) :
    c t ∈ e.aset ∧ (c t).t = t ∨ t ∉ e.tags ∧ c t = .new t := by
  by_cases hT : T t
  · exact Or.inl ⟨h.mem_content (h.mem_tags.mpr ⟨hT, ht⟩), h.content_t t⟩
  · exact Or.inr ⟨fun hmem => hT (h.mem_tags.mp hmem).1, h.content_new t hT⟩

end Sets

namespace Core

theorem congr {T' L' : Lc → Prop} {c' : Lc → OzAse} (h : Core T L c e)
    (hT : ∀ t, T t ↔ T' t) (hL : ∀ t, L t ↔ L' t) (hc : c = c') :
    Core T' L' c' e := by
  rw [← show T = T' from funext fun t => propext (hT t),
    ← show L = L' from funext fun t => propext (hL t), ← hc]
  exact h

theorem innate_names (h : Core T L c e) : Names OzAse.t e.aset e.innate := by
  intro x hx
  obtain ⟨a, ha, rfl⟩ := (hx ▸ h.innate).of_some.1
  exact List.mem_map_of_mem ha

theorem acquired_names (h : Core T L c e) : Names OzAse.t e.aset e.acquired := by
  intro x hx
  have hbounds := h.acquired
  rw [hx, Option.map_some] at hbounds
  obtain ⟨a, ha, hrank⟩ := hbounds.of_some.1
  have htag : a.t = (c x).t := congrArg Prod.snd hrank
  rw [h.content_t] at htag
  exact List.mem_map.mpr ⟨a, ha, htag⟩

end Core

-- ------------------------------------------------------ writes to an entry

section Touch

variable {f : OzAse → OzAse}

/-- The record with `f` written to the entry of `t`. -/
def touched (t : Lc) (f : OzAse → OzAse) (e : Oze) : Oze :=
  { e with aset := touch OzAse.t (.new t) f e.aset }

theorem modifyAse_addAse : (e.addAse t).modifyAse t f = e.touched t f := by
  have hnew : OzAse.t (.new t) = t := rfl
  unfold modifyAse addAse touched touch
  simp only [asetGet_isSome, lcCmpAsTag_eq_zero, eq_comm (a := t), hnew, tags]
  by_cases ht : t ∈ e.aset.map OzAse.t
  · rw [if_pos ht, if_pos ht]
  · rw [if_neg ht, if_neg ht]
    rfl

theorem Sets.mem_touched (h : Sets T L c e) (ht : ¬ L t) {a : OzAse} :
    a ∈ (e.touched t f).aset ↔ a = f (c t) ∨ a.t ≠ t ∧ a ∈ e.aset := by
  have hfound : c t ∈ e.aset ∧ (c t).t = (OzAse.new t).t ∨
      (OzAse.new t).t ∉ e.aset.map OzAse.t ∧ c t = .new t := h.found ht
  exact mem_touch h.nodup hfound

/-- A write that leaves what a pointer is chosen by leaves the pointer
right. -/
theorem Sets.bounds_touched {K : Type} {key : OzAse → K} {lt : K → K → Prop}
    {Q : OzAse → Prop} {v : Option K} (h : Sets T L c e) (ht : ¬ L t)
    (hb : Pointer.Bounds key lt Q e.aset v) (hkey : ∀ a, key (f a) = key a)
    (hQ : ∀ a, Q (f a) → Q a) (hnew : ¬ Q (.new t)) :
    Pointer.Bounds key lt Q (e.touched t f).aset v := by
  refine hb.transfer ?_ ?_
  · intro k hk
    obtain ⟨a, ha, rfl⟩ := (hk ▸ hb).of_some.1
    by_cases hat : a.t = t
    · refine ⟨f (c t), (h.mem_touched ht).mpr (Or.inl rfl), ?_⟩
      rw [hkey, ← hat, ← ((h.entries a).mp ha).2]
    · exact ⟨a, (h.mem_touched ht).mpr (Or.inr ⟨hat, ha⟩), rfl⟩
  · intro b hb' hQb
    rcases (h.mem_touched ht).mp hb' with rfl | ⟨-, hb'⟩
    · rcases h.found ht with ⟨hmem, -⟩ | ⟨-, hc⟩
      · exact ⟨c t, hmem, hQ _ hQb, (hkey _).symm⟩
      · rw [hc] at hQb
        exact absurd (hQ _ hQb) hnew
    · exact ⟨b, hb', hQb, rfl⟩

variable (hf : ∀ a, (f a).t = a.t)

include hf

theorem Sets.touched (h : Sets T L c e) (ht : ¬ L t) :
    Sets (fun u => T u ∨ u = t) L (Function.update c t (f (c t))) (e.touched t f) := by
  refine ⟨h.toContents.update hf t, nodup_touch hf h.nodup, ?_, h.rset⟩
  intro a
  rw [h.mem_touched ht]
  constructor
  · intro ha
    rcases ha with rfl | ⟨hne, ha⟩
    · have htag : (f (c t)).t = t := (hf _).trans (h.content_t t)
      rw [htag, Function.update_self]
      exact ⟨⟨Or.inr rfl, ht⟩, rfl⟩
    · obtain ⟨⟨hT, hL⟩, hc⟩ := (h.entries a).mp ha
      rw [Function.update_of_ne hne]
      exact ⟨⟨Or.inl hT, hL⟩, hc⟩
  · intro ⟨⟨hT, hL⟩, hc⟩
    by_cases hat : a.t = t
    · rw [hat, Function.update_self] at hc
      exact Or.inl hc
    · rw [Function.update_of_ne hat] at hc
      exact Or.inr ⟨hat, (h.entries a).mpr ⟨⟨hT.resolve_right hat, hL⟩, hc⟩⟩

/-- Operations on a tag that is removed leave the record as it is. -/
theorem Core.skip (h : Core T L c e) (ht : L t) :
    Core (fun u => T u ∨ u = t) L (Function.update c t (f (c t))) e := by
  have hne : ∀ {u}, ¬ L u → u ≠ t := fun hu hut => hu (hut ▸ ht)
  refine ⟨⟨h.toContents.update hf t, h.nodup, ?_, h.rset⟩, h.innate, ?_⟩
  · intro a
    rw [h.entries]
    constructor
    · intro ⟨⟨hT, hL⟩, hc⟩
      rw [Function.update_of_ne (hne hL)]
      exact ⟨⟨Or.inl hT, hL⟩, hc⟩
    · intro ⟨⟨hT, hL⟩, hc⟩
      rw [Function.update_of_ne (hne hL)] at hc
      exact ⟨⟨hT.resolve_right (hne hL), hL⟩, hc⟩
  · have hsame : (e.acquired.map fun q => (Function.update c t (f (c t)) q).rank)
        = e.acquired.map fun q => (c q).rank := by
      refine Option.map_congr fun q hq => ?_
      rw [Function.update_of_ne (hne (h.mem_tags.mp (h.acquired_names q hq)).2)]
    rw [hsame]
    exact h.acquired

end Touch

-- ---------------------------------------------------------- update_innate_value

theorem updateInnateValue_of_not (hr : t ∉ e.rset) (v : ℤ) :
    (e.updateInnateValue t v).1 = { e.touched t (OzAse.assign v) with
        innate := Pointer.larger Lc.TagLt e.innate t } ∧
      ((e.updateInnateValue t v).2 = false → ∃ i, e.innate = some i ∧ ¬ i.TagLt t) := by
  have htouch : (e.addAse t).modifyAse t (fun a => { a with x := some v })
      = e.touched t (OzAse.assign v) := modifyAse_addAse
  unfold updateInnateValue
  rw [if_neg (mt rsetGet_isSome.mp hr), htouch]
  dsimp only
  cases hx : e.innate with
  | none =>
      rw [show (e.touched t (OzAse.assign v)).innate = none from hx]
      exact ⟨rfl, fun hcon => by cases hcon⟩
  | some i =>
      rw [show (e.touched t (OzAse.assign v)).innate = some i from hx]
      dsimp only
      by_cases hlt : lcCmpAsTag i t < 0
      · have hlarger : Pointer.larger Lc.TagLt (some i) t = some t := if_pos hlt
        rw [if_pos hlt, hlarger]
        exact ⟨rfl, fun hcon => by cases hcon⟩
      · have hlarger : Pointer.larger Lc.TagLt (some i) t = some i := if_neg hlt
        rw [if_neg hlt, hlarger, ← hx]
        exact ⟨rfl, fun _ => ⟨i, hx, hlt⟩⟩

/-- `update_innate_value`: the entry has its value, and `innate` is
compared with it. -/
theorem Core.updateInnateValue (h : Core T L c e) (t : Lc) (v : ℤ) :
    Core (fun u => T u ∨ u = t) L (Function.update c t ((c t).assign v))
      (e.updateInnateValue t v).1 := by
  have hf : ∀ a : OzAse, (a.assign v).t = a.t := fun _ => rfl
  by_cases hr : t ∈ e.rset
  · rw [show e.updateInnateValue t v = (e, false) from if_pos (rsetGet_isSome.mpr hr)]
    exact h.skip hf ((h.rset t).mp hr)
  · have ht : ¬ L t := mt (h.rset t).mpr hr
    have hmem := fun {a} => h.toSets.mem_touched (f := OzAse.assign v) ht (a := a)
    rw [(updateInnateValue_of_not hr v).1]
    refine ⟨?_, ?_, ?_⟩
    · obtain ⟨hcont, hnd, hent, hrset⟩ := h.toSets.touched hf ht
      exact ⟨hcont, hnd, hent, hrset⟩
    · have htag : ((c t).assign v).t = t := (hf _).trans (h.content_t t)
      have hraise := h.innate.raise Lc.TagLt.irrefl Lc.TagLt.trans
        (hmem.mpr (Or.inl rfl)) ?_ ?_
      · rw [htag] at hraise
        exact hraise
      · intro i hi
        obtain ⟨a, ha, rfl⟩ := List.mem_map.mp (h.innate_names i hi)
        by_cases hat : a.t = t
        · exact ⟨_, hmem.mpr (Or.inl rfl), htag.trans hat.symm⟩
        · exact ⟨a, hmem.mpr (Or.inr ⟨hat, ha⟩), rfl⟩
      · intro b hb hQ
        rcases hmem.mp hb with rfl | ⟨-, hb⟩
        · exact Or.inl rfl
        · exact Or.inr ⟨b, hb, hQ, rfl⟩
    · have hsame : ∀ q, (Function.update c t ((c t).assign v) q).rank = (c q).rank := by
        intro q
        by_cases hq : q = t
        · rw [hq, Function.update_self]
          rfl
        · rw [Function.update_of_ne hq]
      simp only [hsame]
      exact h.toSets.bounds_touched ht h.acquired (fun _ => rfl) (fun _ h => h)
        (lt_irrefl 0)

-- -------------------------------------------------------- update_acquired_value

/-- What `update_acquired_value` can do about a tag that is not removed:
`acquired` points to the entry, moves to it, or stays away from it. -/
theorem updateAcquiredValue_of_not (h : Core T L c e) (ht : ¬ L t) (v : ℤ) :
    (e.acquired = some t ∧ e.updateAcquiredValue t v = (e.touched t (OzAse.bump v), true)) ∨
    (e.acquired ≠ some t ∧
      (∀ q, e.acquired = some q → RankLt (c q).rank ((c t).bump v).rank) ∧
      e.updateAcquiredValue t v
        = ({ e.touched t (OzAse.bump v) with acquired := some t }, true)) ∨
    (∃ q, q ≠ t ∧ e.acquired = some q ∧ ¬ RankLt (c q).rank ((c t).bump v).rank ∧
      e.updateAcquiredValue t v = (e.touched t (OzAse.bump v), false)) := by
  have hf : ∀ a : OzAse, (a.bump v).t = a.t := fun _ => rfl
  have hsets := h.toSets.touched hf ht
  have hthis : (e.touched t (OzAse.bump v)).asetGet t = some ((c t).bump v) := by
    rw [hsets.asetGet (hsets.mem_tags.mpr ⟨Or.inr rfl, ht⟩), Function.update_self]
  have hother : ∀ q, e.acquired = some q → q ≠ t →
      (e.touched t (OzAse.bump v)).asetGet q = some (c q) := by
    intro q hq hne
    obtain ⟨hT, hL⟩ := h.mem_tags.mp (h.acquired_names q hq)
    rw [hsets.asetGet (hsets.mem_tags.mpr ⟨Or.inl hT, hL⟩), Function.update_of_ne hne]
  have htouch : (e.addAse t).modifyAse t
      (fun a => { a with inc := a.inc + v, count := a.count + if 0 < v then v else -v })
        = e.touched t (OzAse.bump v) := by
    have habs : (if 0 < v then v else -v) = |v| := by
      split
      · next hv => exact (abs_of_pos hv).symm
      · next hv => exact (abs_of_nonpos (not_lt.mp hv)).symm
    rw [modifyAse_addAse, habs]
    rfl
  unfold updateAcquiredValue
  rw [if_neg (mt (fun hr => (h.rset t).mp (rsetGet_isSome.mp hr)) ht), htouch]
  dsimp only
  rw [show (e.touched t (OzAse.bump v)).acquired = e.acquired from rfl, hthis]
  by_cases hacq : e.acquired = some t
  · rw [if_pos hacq]
    exact Or.inl ⟨hacq, rfl⟩
  · rw [if_neg hacq]
    right
    cases hq : e.acquired with
    | none => exact Or.inl ⟨by simp, by simp, rfl⟩
    | some q =>
        have hne : q ≠ t := fun hqt => hacq (hqt ▸ hq)
        have hless : acquiredLess ((some q).bind (e.touched t (OzAse.bump v)).asetGet)
            ((c t).bump v) = true ↔ RankLt (c q).rank ((c t).bump v).rank := by
          rw [Option.bind_some, hother q hq hne]
          simp only [acquiredLess, RankLt, Lc.TagLt, OzAse.rank, Bool.or_eq_true,
            Bool.and_eq_true, decide_eq_true_iff]
        by_cases hlt : RankLt (c q).rank ((c t).bump v).rank
        · refine Or.inl ⟨by simpa using hne, ?_, by dsimp only; rw [if_pos (hless.mpr hlt)]⟩
          intro q' hq'
          rw [← Option.some.inj hq']
          exact hlt
        · exact Or.inr ⟨q, hne, rfl, hlt, by dsimp only; rw [if_neg (mt hless.mp hlt)]⟩

/-- `update_acquired_value`: the entry has its sums, and `acquired` is
compared with it. -/
theorem Core.updateAcquiredValue (h : Core T L c e) (t : Lc) (v : ℤ) :
    Core (fun u => T u ∨ u = t) L (Function.update c t ((c t).bump v))
      (e.updateAcquiredValue t v).1 := by
  have hf : ∀ a : OzAse, (a.bump v).t = a.t := fun _ => rfl
  by_cases hr : t ∈ e.rset
  · rw [show e.updateAcquiredValue t v = (e, false) from if_pos (rsetGet_isSome.mpr hr)]
    exact h.skip hf ((h.rset t).mp hr)
  · have ht : ¬ L t := mt (h.rset t).mpr hr
    have hmem := fun {a} => h.toSets.mem_touched (f := OzAse.bump v) ht (a := a)
    have hthis : (c t).bump v ∈ (e.touched t (OzAse.bump v)).aset := hmem.mpr (Or.inl rfl)
    obtain ⟨hcont, hnd, hent, hrset⟩ := h.toSets.touched hf ht
    have hinnate := h.toSets.bounds_touched (f := OzAse.bump v) ht h.innate (fun _ => rfl)
      (fun _ h => h)
      (fun hx => hx rfl)
    have hold : ∀ b ∈ (e.touched t (OzAse.bump v)).aset, 0 < b.count →
        b.rank = ((c t).bump v).rank ∨ ∃ a ∈ e.aset, 0 < a.count ∧ a.rank = b.rank := by
      intro b hb hpos
      rcases hmem.mp hb with rfl | ⟨-, hb⟩
      · exact Or.inl rfl
      · exact Or.inr ⟨b, hb, hpos, rfl⟩
    -- `acquired` points elsewhere and is compared with the entry
    have hraise : e.acquired ≠ some t → Pointer.Bounds OzAse.rank RankLt (fun a => 0 < a.count)
        (e.touched t (OzAse.bump v)).aset
        (Pointer.larger RankLt (e.acquired.map fun q => (c q).rank) ((c t).bump v).rank) := by
      intro hne
      refine h.acquired.raise RankLt.irrefl RankLt.trans hthis ?_ hold
      intro k hk
      obtain ⟨q, hq, rfl⟩ := Option.map_eq_some_iff.mp hk
      refine ⟨c q, hmem.mpr (Or.inr ⟨?_, h.mem_content (h.acquired_names q hq)⟩), rfl⟩
      rw [h.content_t]
      exact fun hqt => hne (hqt ▸ hq)
    rcases updateAcquiredValue_of_not h ht v with
      ⟨hq, hupd⟩ | ⟨hne, hlt, hupd⟩ | ⟨q, hne, hq, hlt, hupd⟩
    · rw [hupd]
      refine ⟨⟨hcont, hnd, hent, hrset⟩, hinnate, ?_⟩
      show Pointer.Bounds _ _ _ _ (e.acquired.map _)
      have hacq := h.acquired
      rw [hq, Option.map_some, Function.update_self]
      rw [hq, Option.map_some] at hacq
      refine hacq.grow RankLt.irrefl RankLt.trans hthis ?_ hold
      rcases (abs_nonneg v).lt_or_eq with hpos | hzero
      · exact Or.inr (Or.inl (lt_add_of_pos_right _ hpos))
      · refine Or.inl (Prod.ext ?_ rfl)
        show (c t).count = (c t).count + |v|
        rw [← hzero, add_zero]
    · have hmove : Pointer.larger RankLt (e.acquired.map fun q => (c q).rank)
          ((c t).bump v).rank = some ((c t).bump v).rank := by
        cases hq : e.acquired with
        | none => rfl
        | some q => exact if_pos (hlt q hq)
      rw [hupd]
      refine ⟨⟨hcont, hnd, hent, hrset⟩, hinnate, ?_⟩
      show Pointer.Bounds _ _ _ (e.touched t (OzAse.bump v)).aset
        (some (Function.update c t ((c t).bump v) t).rank)
      rw [Function.update_self, ← hmove]
      exact hraise hne
    · have hstay : Pointer.larger RankLt (e.acquired.map fun q => (c q).rank)
          ((c t).bump v).rank = some (c q).rank := by
        rw [hq]
        exact if_neg hlt
      rw [hupd]
      refine ⟨⟨hcont, hnd, hent, hrset⟩, hinnate, ?_⟩
      show Pointer.Bounds _ _ _ _ (e.acquired.map _)
      rw [hq, Option.map_some, Function.update_of_ne hne, ← hstay]
      exact hraise (by rw [hq]; simpa using hne)

-- ----------------------------------------------------------- remove_tag, resort

/-- What `remove_tag` works on. -/
def tagRecord : TagRecord Oze OzAse where
  key := OzAse.t
  current := Oze.current
  aset := Oze.aset
  rset := Oze.rset
  pointers := fun e => [e.innate, e.acquired]
  write := fun l ts f e =>
    { e with aset := l, rset := ts, innate := f e.innate, acquired := f e.acquired }
  current_write := rfl
  aset_write := rfl
  rset_write := rfl
  pointers_write := rfl
  write_write := rfl
  write_congr := fun h => by
    rw [h _ List.mem_cons_self, h _ (List.mem_cons_of_mem _ List.mem_cons_self)]
  write_self := fun _ => rfl

/-- The record without the entries of `tags`. -/
def drop (tags : List Lc) (e : Oze) : Oze :=
  { e with
    aset := keep OzAse.t tags e.aset
    rset := tags.foldl push e.rset
    innate := unlink tags e.innate
    acquired := unlink tags e.acquired }

/-- The loop of `ozremCommand`. -/
theorem removeTags_eq (h : Tagged OzAse.t e.aset e.rset)
    (hi : Names OzAse.t e.aset e.innate) (ha : Names OzAse.t e.aset e.acquired)
    (tags : List Lc) : tags.foldl removeTag e = e.drop tags := by
  have hsound : tagRecord.Sound e := by
    refine ⟨h, fun v hv => ?_⟩
    rcases List.mem_pair.mp hv with rfl | rfl
    · exact hi
    · exact ha
  exact TagRecord.removeTags_eq hsound tags

theorem Sets.drop (h : Sets T L c e) (tags : List Lc) :
    Sets T (fun u => L u ∨ u ∈ tags) c (e.drop tags) := by
  refine ⟨h.toContents, (h.tagged.keep tags).nodup, ?_, ?_⟩
  · intro a
    show a ∈ keep OzAse.t tags e.aset ↔ _
    rw [mem_keep, h.entries, not_or, ← and_assoc, and_right_comm]
  · intro t
    show t ∈ tags.foldl push e.rset ↔ _
    rw [mem_push_foldl, h.rset]

/-- The loop of `resort` searches for both pointers. -/
theorem foldl_resortScan (p : Option OzAse × Option OzAse) (l : List OzAse) :
    (l.foldl resortScan p).1.map OzAse.t
        = Pointer.search OzAse.t Lc.TagLt (p.1.map OzAse.t) l ∧
      (l.foldl resortScan p).2.map OzAse.rank
        = Pointer.search OzAse.rank RankLt (p.2.map OzAse.rank) l := by
  induction l generalizing p with
  | nil => exact ⟨rfl, rfl⟩
  | cons a l ih =>
      have hinnate : (resortScan p a).1.map OzAse.t
          = Pointer.larger Lc.TagLt (p.1.map OzAse.t) a.t := by
        cases hp : p.1 with
        | none => simp [resortScan, hp, Pointer.larger]
        | some i =>
            simp only [resortScan, hp, Option.map_some, Pointer.larger, Lc.TagLt]
            exact apply_ite (Option.map OzAse.t) _ _ _
      have hacquired : (resortScan p a).2.map OzAse.rank
          = Pointer.larger RankLt (p.2.map OzAse.rank) a.rank := by
        cases hp : p.2 with
        | none => simp [resortScan, hp, acquiredLess, Pointer.larger]
        | some q =>
            have hless : acquiredLess (some q) a = true ↔ RankLt q.rank a.rank := by
              simp only [acquiredLess, RankLt, Lc.TagLt, OzAse.rank, Bool.or_eq_true,
                Bool.and_eq_true, decide_eq_true_iff]
            simp only [resortScan, hp, Option.map_some, Pointer.larger, hless]
            exact apply_ite (Option.map OzAse.rank) _ _ _
      rw [List.foldl_cons]
      obtain ⟨h1, h2⟩ := ih (resortScan p a)
      rw [h1, h2, hinnate, hacquired]
      exact ⟨rfl, rfl⟩

/-- `resort` finds both pointers where one is null. -/
theorem Sets.resort (h : Sets T L c e) (hi : Names OzAse.t e.aset e.innate)
    (ha : Names OzAse.t e.aset e.acquired) (hnull : e.innate = none ∨ e.acquired = none) :
    ∃ i q, e.resort = { e with innate := i, acquired := q } ∧
      Pointer.Largest OzAse.t Lc.TagLt e.aset i ∧
      Pointer.Largest OzAse.rank RankLt e.aset (q.map fun q => (c q).rank) := by
  have hgo : ¬ (e.innate.isSome && e.acquired.isSome) = true := by
    rcases hnull with hnull | hnull <;> simp [hnull]
  have hnames : ∀ {v : Option Lc}, Names OzAse.t e.aset v →
      v.bind e.asetGet = v.map c := by
    intro v hv
    cases v with
    | none => rfl
    | some q => exact h.asetGet (hv q rfl)
  have hmem : ∀ {v : Option Lc}, Names OzAse.t e.aset v → ∀ q, v = some q → c q ∈ e.aset :=
    fun hv q hq => h.mem_content (hv q hq)
  obtain ⟨h1, h2⟩ := foldl_resortScan
    (e.innate.bind e.asetGet, e.acquired.bind e.asetGet) e.aset
  rw [hnames hi, hnames ha, Option.map_map] at h1 h2
  have hinnate : Pointer.Largest OzAse.t Lc.TagLt e.aset
      (Pointer.search OzAse.t Lc.TagLt (e.innate.map (OzAse.t ∘ c)) e.aset) := by
    refine Pointer.largest_search_of Lc.TagLt.irrefl Lc.TagLt.trans ?_
    intro k hk
    obtain ⟨q, hq, rfl⟩ := Option.map_eq_some_iff.mp hk
    exact ⟨c q, hmem hi q hq, rfl⟩
  have hacquired : Pointer.Largest OzAse.rank RankLt e.aset
      (Pointer.search OzAse.rank RankLt (e.acquired.map (OzAse.rank ∘ c)) e.aset) := by
    refine Pointer.largest_search_of RankLt.irrefl RankLt.trans ?_
    intro k hk
    obtain ⟨q, hq, rfl⟩ := Option.map_eq_some_iff.mp hk
    exact ⟨c q, hmem ha q hq, rfl⟩
  set p := e.aset.foldl resortScan (e.innate.map c, e.acquired.map c) with hp
  refine ⟨p.1.map OzAse.t, p.2.map OzAse.t, ?_, h1 ▸ hinnate, ?_⟩
  · unfold Oze.resort
    rw [if_neg hgo, hnames hi, hnames ha]
  · -- the entry found is an entry of `aset`, which its tag names
    have hrank : (p.2.map OzAse.t).map (fun q => (c q).rank) = p.2.map OzAse.rank := by
      cases hq : p.2 with
      | none => rfl
      | some q =>
          rw [hq, Option.map_some] at h2
          obtain ⟨a, haset, hrank⟩ := (h2 ▸ hacquired).of_some.1
          have htag : a.t = q.t := congrArg Prod.snd hrank
          have hentry := ((h.entries a).mp haset).2
          rw [Option.map_some, Option.map_some, Option.map_some, ← htag, ← hentry, hrank]
    rw [hrank, h2]
    exact hacquired

/-- A remove deletes the entries it lists, and searches for both pointers
if it cleared one or one was null. -/
theorem Core.remEffect (h : Core T L c e) (tags : List Lc) :
    Core T (fun u => L u ∨ u ∈ tags) c (e.remEffect tags).1 := by
  have hsets := h.toSets.drop tags
  have hi := h.innate_names.keep tags
  have ha := h.acquired_names.keep tags
  unfold Oze.remEffect
  rw [removeTags_eq h.tagged h.innate_names h.acquired_names]
  dsimp only
  by_cases hnull : (e.drop tags).innate.isNone || (e.drop tags).acquired.isNone
  · rw [if_pos hnull]
    have hnull' : (e.drop tags).innate = none ∨ (e.drop tags).acquired = none := by
      simpa using hnull
    obtain ⟨i, q, hres, hinnate, hacquired⟩ := hsets.resort hi ha hnull'
    have hcore : Core T (fun u => L u ∨ u ∈ tags) c (e.drop tags).resort := by
      rw [hres]
      exact ⟨⟨hsets.toContents, hsets.nodup, hsets.entries, hsets.rset⟩,
        .of_largest hinnate, .of_largest hacquired⟩
    split <;> exact hcore
  · rw [if_neg hnull]
    simp only [Bool.or_eq_true, Option.isNone_iff_eq_none, not_or, ← ne_eq,
      Option.ne_none_iff_exists'] at hnull
    obtain ⟨⟨i, hi'⟩, ⟨q, hq'⟩⟩ := hnull
    have hsame : unlink tags e.innate = e.innate ∧ unlink tags e.acquired = e.acquired :=
      ⟨hi'.trans (unlink_eq_some.mp hi').1.symm, hq'.trans (unlink_eq_some.mp hq').1.symm⟩
    refine ⟨hsets, ?_, ?_⟩
    · show Pointer.Bounds OzAse.t Lc.TagLt _ (keep OzAse.t tags e.aset) (unlink tags e.innate)
      rw [hsame.1]
      refine h.innate.transfer ?_ fun b hb hQ => ⟨b, (mem_keep.mp hb).1, hQ, rfl⟩
      intro k hk
      exact List.mem_map.mp (hi k (hsame.1.trans hk))
    · show Pointer.Bounds OzAse.rank RankLt _ (keep OzAse.t tags e.aset)
        ((unlink tags e.acquired).map _)
      rw [hsame.2]
      refine h.acquired.transfer ?_ fun b hb hQ => ⟨b, (mem_keep.mp hb).1, hQ, rfl⟩
      intro k hk
      obtain ⟨q, hq, rfl⟩ := Option.map_eq_some_iff.mp hk
      exact ⟨c q, hsets.mem_content (ha q (hsame.2.trans hq)), rfl⟩

end Oze

-- ====================================== a record and what was applied

namespace OzOp

/-- What an operation does to the entry of tag `t`. -/
def on (t : Lc) (a : OzAse) : OzOp → OzAse
  | add v u => if u = t then a.assign v else a
  | incrby v tags => if t ∈ tags then a.bump v else a
  | rem _ => a

/-- The operation brings tag `t` or increments it. -/
def Touches (t : Lc) : OzOp → Prop
  | add _ u => t = u
  | incrby _ tags => t ∈ tags
  | rem _ => False

/-- The operations `D` bring tag `t` or increment it. -/
def Touched (D : List OzOp) (t : Lc) : Prop := ∃ o ∈ D, o.Touches t

/-- A remove of `D` lists tag `t`. -/
def Listed (D : List OzOp) (t : Lc) : Prop := ∃ tags, rem tags ∈ D ∧ t ∈ tags

/-- What the operations `D` make of the entry of a tag. -/
def content (D : List OzOp) (t : Lc) : OzAse := D.foldl (on t) (.new t)

variable {D : List OzOp} {o : OzOp} {t : Lc}

theorem touched_snoc : Touched (D ++ [o]) t ↔ Touched D t ∨ o.Touches t := by
  simp only [Touched, List.mem_append, List.mem_singleton, or_and_right, exists_or,
    exists_eq_left]

theorem listed_snoc : Listed (D ++ [o]) t ↔
    Listed D t ∨ ∃ tags, o = rem tags ∧ t ∈ tags := by
  simp only [Listed, List.mem_append, List.mem_singleton, or_and_right, exists_or, eq_comm]

theorem content_snoc : content (D ++ [o]) t = on t (content D t) o := by
  simp [content]

theorem content_add (v : ℤ) (t : Lc) :
    content (D ++ [add v t]) = Function.update (content D) t ((content D t).assign v) := by
  funext u
  rw [content_snoc]
  by_cases hu : u = t
  · rw [hu, Function.update_self]
    exact if_pos rfl
  · rw [Function.update_of_ne hu]
    exact if_neg (Ne.symm hu)

theorem content_incrby (v : ℤ) (tags : List Lc) : content (D ++ [incrby v tags])
    = fun u => if u ∈ tags then (content D u).bump v else content D u :=
  funext fun _ => content_snoc

theorem content_rem (tags : List Lc) : content (D ++ [rem tags]) = content D :=
  funext fun _ => content_snoc

end OzOp

/-- What a server holds for an element after the operations `D`. -/
abbrev OzHolds (D : List OzOp) (e : Oze) : Prop :=
  Oze.Core (OzOp.Touched D) (OzOp.Listed D) (OzOp.content D) e

namespace OzHolds

variable {D : List OzOp} {e : Oze}

theorem new : OzHolds [] Oze.new := by
  have hnone : ∀ t, ¬ OzOp.Touched [] t ∧ ¬ OzOp.Listed [] t := by
    simp [OzOp.Touched, OzOp.Listed]
  refine ⟨⟨⟨fun _ => rfl, fun _ _ => rfl⟩, List.nodup_nil, ?_, ?_⟩, .empty ?_, .empty ?_⟩
  · exact fun a => iff_of_false List.not_mem_nil fun h => (hnone a.t).1 h.1.1
  · exact fun t => iff_of_false List.not_mem_nil (hnone t).2
  · exact fun a ha => absurd ha List.not_mem_nil
  · exact fun a ha => absurd ha List.not_mem_nil

theorem add (h : OzHolds D e) (v : ℤ) (t : Lc) :
    OzHolds (D ++ [.add v t]) ((OzOp.add v t).act e).1 := by
  have hact : ((OzOp.add v t).act e).1 = (e.updateInnateValue t v).1 := by
    simp only [OzOp.act, Oze.addEffect]
    split <;> next hres => rw [hres]
  rw [hact]
  refine (h.updateInnateValue t v).congr ?_ ?_ (OzOp.content_add v t).symm
  · exact fun u => (OzOp.touched_snoc (o := .add v t)).symm
  · intro u
    rw [OzOp.listed_snoc]
    simp

/-- The loop of `ozincrbyCommand`, over tags that do not repeat. -/
theorem incrbyLoop {T L : Lc → Prop} {c : Lc → OzAse} (h : Oze.Core T L c e) (v : ℤ)
    (tags : List Lc) (hnd : tags.Nodup) (changed : Bool) :
    Oze.Core (fun u => T u ∨ u ∈ tags) L (fun u => if u ∈ tags then (c u).bump v else c u)
      (tags.foldl (Oze.incrbyLoop v) (e, changed)).1 := by
  induction tags generalizing T c e changed with
  | nil => exact h.congr (by simp) (fun _ => Iff.rfl) (by simp)
  | cons t tags ih =>
      obtain ⟨hnot, hnd⟩ := List.nodup_cons.mp hnd
      refine (ih (h.updateAcquiredValue t v) hnd _).congr ?_ (fun _ => Iff.rfl) ?_
      · intro u
        rw [List.mem_cons, or_assoc]
      · funext u
        by_cases hu : u = t
        · subst hu
          rw [if_neg hnot, Function.update_self, if_pos List.mem_cons_self]
        · simp only [Function.update_of_ne hu, List.mem_cons, hu, false_or]

theorem incrby (h : OzHolds D e) (v : ℤ) {tags : List Lc} (hnd : tags.Nodup) :
    OzHolds (D ++ [.incrby v tags]) ((OzOp.incrby v tags).act e).1 := by
  have hact : ((OzOp.incrby v tags).act e).1
      = (tags.foldl (Oze.incrbyLoop v) (e, false)).1 := by
    simp only [OzOp.act, Oze.incrbyEffect]
    split <;> next hres => rw [hres]
  rw [hact]
  refine (incrbyLoop h v tags hnd false).congr ?_ ?_ (OzOp.content_incrby v tags).symm
  · exact fun u => (OzOp.touched_snoc (o := .incrby v tags)).symm
  · intro u
    rw [OzOp.listed_snoc]
    simp

theorem rem (h : OzHolds D e) (tags : List Lc) :
    OzHolds (D ++ [.rem tags]) ((OzOp.rem tags).act e).1 := by
  refine (h.remEffect tags).congr ?_ ?_ (OzOp.content_rem tags).symm
  · intro u
    rw [OzOp.touched_snoc]
    exact (or_iff_left fun h => h).symm
  · intro u
    rw [OzOp.listed_snoc]
    simp

end OzHolds

end CrdtRedis
