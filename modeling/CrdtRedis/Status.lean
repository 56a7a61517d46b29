/-
The status queries of the priority queues (`ozestatusCommand`,
`rzestatusCommand`, `rwfzestatusCommand`).

A query prints the record of an element as an array, whose length it
announces before the parts. Printing an entry follows a pointer; a null or
dangling one has no defined outcome and is `none` here.

# The pointers of a record

`innate` and `acquired` name entries of `aset` or are null, and `value` is
null exactly where `aset` is empty, whatever is applied in whatever order
(`Oze.Pointed`, `RwSets.Cached`). `ozestatusCommand` tests its pointers;
`rzestatusCommand` does not, so it needs an entry.
-/
import CrdtRedis.Stored
import CrdtRedis.Ori.ZsetRecord
import CrdtRedis.Rw.Survivors

namespace CrdtRedis

open Replication

variable {n : ℕ} {A : Type}

-- ============================================================ the replies

/-- One bulk string of a reply, by what is printed in it. -/
inductive StatusPart (n : ℕ)
  | text (s : String)
  | int (label : String) (v : ℤ)
  | double (label : String) (v : ℤ)
  | emptybulk
  | vc (t : Vc n)
  | lc (t : Lc)
  | ozAse (a : OzAse)
  | rzAse (a : RzAse n)
  | rzCmd (cmd : RzCmd n)
deriving DecidableEq

/-- The length `addReplyArrayLen` announces and the parts that follow. -/
structure Status (n : ℕ) where
  len : ℕ
  parts : List (StatusPart n)
deriving DecidableEq

/-- `shared.emptyarray`. -/
def Status.emptyarray : Status n := ⟨0, []⟩

/-- A reply with as many parts as it announces. -/
def Status.Framed (reply : Option (Status n)) : Prop :=
  ∃ s, reply = some s ∧ s.len = s.parts.length

/-- A pointer of an add-wins record, printed by `oz_aseToSds` unless it is
null. -/
def Oze.pointerPart (e : Oze) : Option Lc → Option (StatusPart n)
  | none => some .emptybulk
  | some t => (e.asetGet t).map .ozAse

/-- What `ozestatusCommand` prints of a record. -/
def Oze.status (e : Oze) : Option (Status n) :=
  (e.pointerPart e.innate).bind fun innate =>
    (e.pointerPart e.acquired).map fun acquired =>
      { len := 6 + e.aset.length + e.rset.length
        parts := [.int "current:" e.current, .text "innate,acquired:", innate, acquired] ++
          (.text "Add Set:" :: e.aset.map .ozAse) ++
          (.text "Remove Set:" :: e.rset.map .lc) }

/-- What `rzestatusCommand` prints of a record: `rz_aseToSds` is given
`value` whether or not it is null. -/
def Rze.status (e : Rze n) : Option (Status n) :=
  (e.sets.entry RzAse.t).map fun value =>
    { len := 7 + e.sets.aset.length + e.sets.rset.length + e.ops.length
      parts := [.text "current:", .vc e.current, .text "value:", .rzAse value] ++
        (.text "Add Set:" :: e.sets.aset.map .rzAse) ++
        (.text "Remove Set:" :: e.sets.rset.map .vc) ++
        (.text "unready commands:" :: e.ops.map .rzCmd) }

/-- What `rwfzestatusCommand` prints of a record. -/
def Rwfze.status (e : Rwfze n) : Option (Status n) :=
  some
    { len := 5
      parts := [.int "add id:" e.header.pid, .text "current:", .vc e.header.current,
        .double "innate:" e.innate, .double "acquired:" e.acquired] }

/-- A status query: load without creating, and print what was found. -/
def statusCommand (T : Table n A) (status : A → Option (Status n)) (me : Fin n) (db : Db n)
    (tname key : String) : Option (Status n) :=
  (T.get me db tname key false).bind fun p =>
    match p.2 with
    | none => some .emptyarray
    | some (_, e) => status e

section Queries

variable (me : Fin n) (db : Db n) (tname key : String)

def ozestatusCommand : Option (Status n) := statusCommand ozeTable Oze.status me db tname key

def rzestatusCommand : Option (Status n) := statusCommand rzeTable Rze.status me db tname key

def rwfzestatusCommand : Option (Status n) :=
  statusCommand rwfzeTable Rwfze.status me db tname key

end Queries

-- ====================================================== add-wins pointers

namespace Oze

variable {e : Oze} {t : Lc} {f : OzAse → OzAse}

/-- Both pointers name an entry or are null. -/
structure Pointed (e : Oze) : Prop where
  innate : Names OzAse.t e.aset e.innate
  acquired : Names OzAse.t e.aset e.acquired

theorem Pointed.new : Pointed .new := by
  constructor <;> (intro x hx; cases hx)

/-- A pointer stays good where no entry goes. -/
theorem names_mono {l l' : List OzAse} {v : Option Lc} (h : Names OzAse.t l v)
    (hsub : ∀ x ∈ l.map OzAse.t, x ∈ l'.map OzAse.t) : Names OzAse.t l' v :=
  fun x hx => hsub x (h x hx)

theorem names_some {l : List OzAse} (ht : t ∈ l.map OzAse.t) : Names OzAse.t l (some t) := by
  intro x hx
  cases hx
  exact ht

theorem Pointed.touched (h : e.Pointed) (hf : ∀ a, (f a).t = a.t) :
    (e.touched t f).Pointed ∧ t ∈ (e.touched t f).tags := by
  have hmem : ∀ x, x ∈ (e.touched t f).aset.map OzAse.t ↔ x ∈ e.aset.map OzAse.t ∨ x = t :=
    fun _ => mem_touch_key hf
  refine ⟨⟨?_, ?_⟩, (hmem t).mpr (Or.inr rfl)⟩
  · exact names_mono h.innate fun x hx => (hmem x).mpr (Or.inl hx)
  · exact names_mono h.acquired fun x hx => (hmem x).mpr (Or.inl hx)

theorem Pointed.updateInnateValue (h : e.Pointed) (t : Lc) (v : ℤ) :
    (e.updateInnateValue t v).1.Pointed := by
  unfold Oze.updateInnateValue
  split
  · exact h
  · rw [modifyAse_addAse]
    obtain ⟨hp, ht⟩ := h.touched (t := t) (f := fun a => { a with x := some v }) fun _ => rfl
    dsimp only
    split
    · exact ⟨names_some ht, hp.acquired⟩
    · split
      · exact ⟨names_some ht, hp.acquired⟩
      · exact hp

theorem Pointed.updateAcquiredValue (h : e.Pointed) (t : Lc) (v : ℤ) :
    (e.updateAcquiredValue t v).1.Pointed := by
  unfold Oze.updateAcquiredValue
  split
  · exact h
  · rw [modifyAse_addAse]
    obtain ⟨hp, ht⟩ := h.touched (t := t)
      (f := fun a => { a with inc := a.inc + v, count := a.count + if 0 < v then v else -v })
      fun _ => rfl
    generalize e.touched t _ = e' at hp ht ⊢
    dsimp only
    split
    · exact hp
    · split
      · exact hp
      · split
        · exact ⟨hp.innate, names_some ht⟩
        · exact hp

/-- Deleting an entry clears the pointers to it. -/
theorem names_erase {l : List OzAse} {v : Option Lc} (h : Names OzAse.t l v) (t : Lc) :
    Names OzAse.t (l.eraseP fun a => decide (lcCmpAsTag t a.t = 0))
      (if v = some t then none else v) := by
  intro x hx
  split at hx
  · cases hx
  · next hv =>
      obtain ⟨a, ha, rfl⟩ := List.mem_map.mp (h x hx)
      have hne : ¬ decide (lcCmpAsTag t a.t = 0) = true := by
        rw [decide_eq_true_iff, lcCmpAsTag_eq_zero]
        exact fun heq => hv (heq ▸ hx)
      have hmem : a ∈ l.eraseP fun a => decide (lcCmpAsTag t a.t = 0) :=
        (List.mem_eraseP_of_neg (p := fun a => decide (lcCmpAsTag t a.t = 0)) hne).mpr ha
      exact List.mem_map_of_mem hmem

theorem Pointed.removeTag (h : e.Pointed) (t : Lc) : (e.removeTag t).Pointed := by
  unfold Oze.removeTag
  split
  · exact h
  · dsimp only
    split
    · exact ⟨names_erase h.innate t, names_erase h.acquired t⟩
    · exact ⟨h.innate, h.acquired⟩

/-- The loop of `resort` moves its pointers to entries it passes. -/
theorem resortScan_mem {l m : List OzAse} {p : Option OzAse × Option OzAse}
    (h : (∀ a ∈ p.1, a ∈ l) ∧ ∀ a ∈ p.2, a ∈ l) (hsub : ∀ a ∈ m, a ∈ l) :
    (∀ a ∈ (m.foldl resortScan p).1, a ∈ l) ∧ ∀ a ∈ (m.foldl resortScan p).2, a ∈ l := by
  refine List.foldlRecOn (motive := fun p => (∀ a ∈ p.1, a ∈ l) ∧ ∀ a ∈ p.2, a ∈ l)
    m resortScan h fun p hp b hb => ?_
  have hb := hsub b hb
  constructor
  · intro a ha
    unfold resortScan at ha
    dsimp only at ha
    split at ha
    · cases ha
      exact hb
    · next i hi =>
        split at ha
        · cases ha
          exact hb
        · exact hp.1 a (hi ▸ ha)
  · intro a ha
    unfold resortScan at ha
    dsimp only at ha
    split at ha
    · cases ha
      exact hb
    · exact hp.2 a ha

theorem Pointed.resort (h : e.Pointed) : e.resort.Pointed := by
  unfold Oze.resort
  split
  · exact h
  · have hget : ∀ (v : Option Lc) (a : OzAse), a ∈ v.bind e.asetGet → a ∈ e.aset := by
      intro v a ha
      obtain ⟨t, -, hfind⟩ := Option.bind_eq_some_iff.mp ha
      exact List.mem_of_find?_eq_some hfind
    obtain ⟨hi, hq⟩ := resortScan_mem (m := e.aset)
      (p := (e.innate.bind e.asetGet, e.acquired.bind e.asetGet)) ⟨hget _, hget _⟩ fun _ ha => ha
    have hnames : ∀ v : Option OzAse, (∀ a ∈ v, a ∈ e.aset) →
        Names OzAse.t e.aset (v.map OzAse.t) := by
      intro v hv x hx
      obtain ⟨a, ha, rfl⟩ := Option.map_eq_some_iff.mp hx
      exact List.mem_map_of_mem (hv a ha)
    exact ⟨hnames _ hi, hnames _ hq⟩

theorem Pointed.addEffect (h : e.Pointed) (v : ℤ) (t : Lc) : (e.addEffect v t).1.Pointed := by
  have hp := h.updateInnateValue t v
  unfold Oze.addEffect
  generalize e.updateInnateValue t v = q at hp ⊢
  obtain ⟨e', b⟩ := q
  cases b <;> exact hp

theorem Pointed.incrbyEffect (h : e.Pointed) (v : ℤ) (tags : List Lc) :
    (e.incrbyEffect v tags).1.Pointed := by
  have hp : (tags.foldl (incrbyLoop v) (e, false)).1.Pointed :=
    List.foldlRecOn (motive := fun p => p.1.Pointed) tags (incrbyLoop v) h
      fun _ hp t _ => hp.updateAcquiredValue t v
  unfold Oze.incrbyEffect
  generalize tags.foldl (incrbyLoop v) (e, false) = q at hp ⊢
  obtain ⟨e', b⟩ := q
  cases b <;> exact hp

theorem Pointed.remEffect (h : e.Pointed) (tags : List Lc) : (e.remEffect tags).1.Pointed := by
  have hp : (tags.foldl Oze.removeTag e).Pointed :=
    List.foldlRecOn tags Oze.removeTag h fun _ hp t _ => hp.removeTag t
  unfold Oze.remEffect
  dsimp only
  split
  · split <;> exact hp.resort
  · exact hp

/-- A query of a record with good pointers prints what it announces. -/
theorem Pointed.framed (h : e.Pointed) : Status.Framed (n := n) e.status := by
  have hpart : ∀ v, Names OzAse.t e.aset v →
      ∃ part : StatusPart n, e.pointerPart v = some part := by
    intro v hv
    cases v with
    | none => exact ⟨_, rfl⟩
    | some t =>
        obtain ⟨a, ha⟩ := Option.isSome_iff_exists.mp (asetGet_isSome.mpr (hv t rfl))
        exact ⟨.ozAse a, by rw [pointerPart, ha, Option.map_some]⟩
  obtain ⟨i, hi⟩ := hpart _ h.innate
  obtain ⟨q, hq⟩ := hpart _ h.acquired
  unfold status
  rw [hi, hq]
  refine ⟨_, rfl, ?_⟩
  simp only [List.length_append, List.length_cons, List.length_map, List.length_nil]
  omega

end Oze

-- =================================================== remove-wins pointers

namespace Rze

variable {e : Rze n}

/-- `value` points to the entry with the largest server id, and is null
where there is none. -/
def Pointed (e : Rze n) : Prop := RwSets.Cached RzAse.t e.sets.aset e.sets.value

theorem Pointed.new (me : Fin n) : (new me).Pointed := .nil

theorem Pointed.applyCmd (h : e.Pointed) (cmd : RzCmd n) : (e.applyCmd cmd).1.Pointed := by
  obtain ⟨type, value, t⟩ := cmd
  cases type with
  | rzadd => exact RwSets.cached_add h ⟨t, value, 0⟩
  | rzrem => exact RwSets.cached_remove h t
  | rzincby =>
      refine Pointer.Largest.map (fun a => ?_) h
      split <;> rfl

/-- Whatever an operation finds in the buffer. -/
theorem Pointed.receive (h : e.Pointed) (cmd : RzCmd n) : (e.receive cmd).1.Pointed := by
  unfold Rze.receive
  split
  · exact notify_forall (J := fun p : Rze n × List ZCall => p.1.Pointed) (h.applyCmd cmd)
      fun p c hp _ => hp.applyCmd c
  · exact h

/-- A query of a record prints what it announces exactly where there is an
entry to point to. -/
theorem Pointed.framed_iff (h : e.Pointed) : Status.Framed e.status ↔ e.sets.aset ≠ [] := by
  constructor
  · intro hframed hnil
    obtain ⟨s, hs, -⟩ := hframed
    rw [status, RwSets.entry, h.eq_none_iff.mpr hnil] at hs
    cases hs
  · intro hne
    obtain ⟨a, -, hentry, -⟩ := RwSets.Cached.find h hne
    unfold status
    rw [hentry]
    refine ⟨_, rfl, ?_⟩
    simp only [List.length_append, List.length_cons, List.length_map, List.length_nil]
    omega

end Rze

-- ========================================================== every run

/-- A stored record has good pointers. -/
def Value.Pointed : Value n → Prop
  | .oze e => e.Pointed
  | .rze e => e.Pointed
  | _ => True

theorem ozaddCommand_keeps : (ozaddCommand : ElemCommand n Oze).Keeps Oze.Pointed := by
  constructor
  · intro me o e args ho hp
    have hold : (o.getD Oze.new).Pointed := by
      cases o with
      | none => exact .new
      | some e₀ => exact ho e₀ rfl
    dsimp only [ozaddCommand] at hp
    split at hp <;> cases hp
    exact ⟨hold.innate, hold.acquired⟩
  · intro dbl rargv f e hf he
    obtain ⟨v, -, hf⟩ := Option.bind_eq_some_iff.mp hf
    obtain ⟨t, -, rfl⟩ := Option.map_eq_some_iff.mp hf
    exact he.addEffect v t

theorem ozincrbyCommand_keeps : (ozincrbyCommand : ElemCommand n Oze).Keeps Oze.Pointed := by
  constructor
  · intro me o e args ho hp
    exact ho e (Oze.nonAddPrepare_ok hp).1
  · intro dbl rargv f e hf he
    obtain ⟨v, -, hf⟩ := Option.bind_eq_some_iff.mp hf
    obtain ⟨tags, -, rfl⟩ := Option.map_eq_some_iff.mp hf
    exact he.incrbyEffect v tags

theorem ozremCommand_keeps : (ozremCommand : ElemCommand n Oze).Keeps Oze.Pointed := by
  constructor
  · intro me o e args ho hp
    exact ho e (Oze.nonAddPrepare_ok hp).1
  · intro dbl rargv f e hf he
    obtain ⟨tags, -, rfl⟩ := Option.map_eq_some_iff.mp hf
    exact he.remEffect tags

theorem rzaddCommand_keeps : (rzaddCommand : ElemCommand n (Rze n)).Keeps Rze.Pointed := by
  constructor
  · intro me o e args ho hp
    dsimp only [rzaddCommand] at hp
    split at hp <;> cases hp
    cases o with
    | none => exact .new me
    | some e₀ => exact ho e₀ rfl
  · intro dbl rargv f e hf he
    obtain ⟨v, -, hf⟩ := Option.bind_eq_some_iff.mp hf
    obtain ⟨t, -, rfl⟩ := Option.map_eq_some_iff.mp hf
    exact he.receive _

theorem rzincrbyCommand_keeps : (rzincrbyCommand : ElemCommand n (Rze n)).Keeps Rze.Pointed := by
  constructor
  · intro me o e args ho hp
    exact ho e (Rze.nonAddPrepare_ok hp).1
  · intro dbl rargv f e hf he
    obtain ⟨v, -, hf⟩ := Option.bind_eq_some_iff.mp hf
    obtain ⟨t, -, rfl⟩ := Option.map_eq_some_iff.mp hf
    exact he.receive _

theorem rzremCommand_keeps : (rzremCommand : ElemCommand n (Rze n)).Keeps Rze.Pointed := by
  constructor
  · intro me o e args ho hp
    exact ho e (Rze.nonAddPrepare_ok hp).1
  · intro dbl rargv f e hf he
    obtain ⟨t, -, rfl⟩ := Option.map_eq_some_iff.mp hf
    exact he.receive _

theorem keeps_pointed (c : Cmd) :
    Proc.Keeps Value.Pointed (fun _ => True) (c.proc : Proc n) := by
  cases c with
  | ozadd => exact ⟨fun _ => Oze.Pointed.new, ozaddCommand_keeps⟩
  | ozincrby => exact ⟨fun _ => Oze.Pointed.new, ozincrbyCommand_keeps⟩
  | ozrem => exact ⟨fun _ => Oze.Pointed.new, ozremCommand_keeps⟩
  | rzadd => exact ⟨Rze.Pointed.new, rzaddCommand_keeps⟩
  | rzincrby => exact ⟨Rze.Pointed.new, rzincrbyCommand_keeps⟩
  | rzrem => exact ⟨Rze.Pointed.new, rzremCommand_keeps⟩
  | rlinsert | rlupdate | rlrem | rwflinsert | rwflupdate | rwflrem => exact trivial
  | rwfzadd | rwfzincrby | rwfzrem | rwfsadd | rwfsrem | osadd | osrem =>
      exact ⟨fun _ => trivial, fun _ _ _ _ _ _ => trivial, fun _ _ _ _ _ _ => trivial⟩

/-- In every reachable state the pointers of every record are good. -/
theorem record_pointed {dbl : String → Option ℤ}
    {pol : Policy n (Db n) (List String) (List (Arg n))} {k : Net n}
    (hk : Reachable (crdtService dbl) pol k) {c : Cmd} {T : Table n A} {cmd : ElemCommand n A}
    (hc : c.proc = Proc.elem T cmd) {r : Fin n} {db : Db n} {tname key : String} {h : Hash n}
    {e : A} (hget : T.get r (k.site r) tname key false = some (db, some (h, e))) :
    (T.wrap e).Kept Value.Pointed fun _ => True := by
  have hstore := (kept_of_reachable keeps_pointed (fun _ _ _ _ _ => trivial) hk).1 r
  have hkeeps := keeps_pointed (n := n) c
  rw [hc] at hkeeps
  exact ((((Cmd.proc_plain hc).stores hkeeps.1).get hstore hget).2 h e rfl).2

theorem statusCommand_of_get {T : Table n A} {status : A → Option (Status n)} {me : Fin n}
    {db db' : Db n} {tname key : String} {h : Hash n} {e : A}
    (hget : T.get me db tname key false = some (db', some (h, e))) :
    statusCommand T status me db tname key = status e := by
  rw [statusCommand, hget]
  rfl

/-- The queries of one element answer, where it has a record, with as many
parts as they announce. -/
structure StatusSafe (me : Fin n) (db : Db n) (tname key : String) : Prop where
  oz : ∀ db' h e, ozeTable.get me db tname key false = some (db', some (h, e)) →
    Status.Framed (ozestatusCommand me db tname key)
  rz : ∀ db' h e, rzeTable.get me db tname key false = some (db', some (h, e)) →
    Status.Framed (rzestatusCommand me db tname key)
  rwfz : ∀ db' h e, rwfzeTable.get me db tname key false = some (db', some (h, e)) →
    Status.Framed (rwfzestatusCommand me db tname key)

/-- In every reachable state, whatever was mixed and however it was
delivered, the queries are safe exactly where no remove-wins record without
an entry is queried. -/
theorem status_safe_iff (dbl : String → Option ℤ)
    {pol : Policy n (Db n) (List String) (List (Arg n))} {k : Net n}
    (hk : Reachable (crdtService dbl) pol k) (r : Fin n) (tname key : String) :
    StatusSafe r (k.site r) tname key ↔
      ∀ db h e, rzeTable.get r (k.site r) tname key false = some (db, some (h, e)) →
        e.sets.aset ≠ [] := by
  have hrz : ∀ {db h e}, rzeTable.get r (k.site r) tname key false = some (db, some (h, e)) →
      (Status.Framed (rzestatusCommand r (k.site r) tname key) ↔ e.sets.aset ≠ []) := by
    intro db h e hget
    have hpointed : e.Pointed := record_pointed (c := .rzadd) hk rfl hget
    rw [rzestatusCommand, statusCommand_of_get hget]
    exact hpointed.framed_iff
  constructor
  · intro hsafe db h e hget
    exact (hrz hget).mp (hsafe.rz db h e hget)
  · intro hne
    refine ⟨?_, fun db h e hget => (hrz hget).mpr (hne db h e hget), ?_⟩
    · intro db h e hget
      have hpointed : e.Pointed := record_pointed (c := .ozadd) hk rfl hget
      rw [ozestatusCommand, statusCommand_of_get hget]
      exact hpointed.framed
    · intro db h e hget
      rw [rwfzestatusCommand, statusCommand_of_get hget]
      exact ⟨_, rfl, rfl⟩

/-- An element is added and removed. -/
def removedQueue : List (Act 2 (List String)) :=
  [.submit 0 ["rzadd", "z", "a", "5"], .submit 0 ["rzrem", "z", "a"]]

/-- Between the two commands the record has an entry. -/
theorem status_safe_added : ∃ k : Net 2,
    Reachable (crdtService getLongLongFromObject) (.once fun _ => True) k ∧
    (rzestatusCommand 0 (k.site 0) "z" "a").map Status.len = some 8 ∧
    StatusSafe 0 (k.site 0) "z" "a" := by
  obtain ⟨k, hrun, hlen, db, h, e, hget, hne⟩ : ∃ k : Net 2,
      (crdtService getLongLongFromObject).run (crdtService getLongLongFromObject).start
        (removedQueue.take 1) = some k ∧
      (rzestatusCommand 0 (k.site 0) "z" "a").map Status.len = some 8 ∧
      ∃ db h e, rzeTable.get 0 (k.site 0) "z" "a" false = some (db, some (h, e)) ∧
        e.sets.aset ≠ [] :=
    ⟨_, rfl, by decide, _, _, _, rfl, by decide⟩
  have hk : Reachable (crdtService getLongLongFromObject) (.once fun _ => True) k :=
    Service.run_reachable (by decide) hrun
  refine ⟨k, hk, hlen, (status_safe_iff _ hk 0 "z" "a").mpr ?_⟩
  intro db' h' e' hget'
  rw [hget] at hget'
  cases hget'
  exact hne

/-- After the second, `value` is null and the query follows it. -/
theorem rzestatus_removed : ∃ k : Net 2,
    Reachable (crdtService getLongLongFromObject) (.once fun _ => True) k ∧
    (∃ db h e, rzeTable.get 0 (k.site 0) "z" "a" false = some (db, some (h, e)) ∧
      e.sets.value = none) ∧
    rzestatusCommand 0 (k.site 0) "z" "a" = none ∧ ¬ StatusSafe 0 (k.site 0) "z" "a" := by
  obtain ⟨k, hrun, hnone, db, h, e, hget, hvalue⟩ : ∃ k : Net 2,
      (crdtService getLongLongFromObject).run (crdtService getLongLongFromObject).start
        removedQueue = some k ∧
      rzestatusCommand 0 (k.site 0) "z" "a" = none ∧
      ∃ db h e, rzeTable.get 0 (k.site 0) "z" "a" false = some (db, some (h, e)) ∧
        e.sets.value = none :=
    ⟨_, rfl, by decide, _, _, _, rfl, by decide⟩
  have hk : Reachable (crdtService getLongLongFromObject) (.once fun _ => True) k :=
    Service.run_reachable (by decide) hrun
  refine ⟨k, hk, ⟨db, h, e, hget, hvalue⟩, hnone, fun hsafe => ?_⟩
  obtain ⟨s, hs, -⟩ := hsafe.rz db h e hget
  rw [hnone] at hs
  cases hs

end CrdtRedis
