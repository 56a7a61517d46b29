/-
What commands do to the chain of a list, one write at a time, for both
lists.

A command reads and writes much more than the chain: the sets or the
header of its element, the length, the clock. None of it touches what the
chain is made of (`ListKind.Quiet`). What does is the lookup that makes a
record and the insert that places one. `ListKind.Moves` is a sequence of
these; it keeps the inserts it applied, in order, and every fact about
chains in reachable states is an invariant of it.
-/
import CrdtRedis.ListChain

namespace CrdtRedis

variable {n : ℕ} {E : Type}

/-- The fields of a list that hold no record. -/
def controlFields : List String := ["current", "length", "ops"]

/-- What an insert asks of the chain. -/
structure Placement where
  pre : String
  oid : String
  content : String
  pos : Leid

/-- What a command asks of the chain: to place an element, or only that
its record is there. -/
inductive ListOp
  | insert (i : Placement)
  | touch (oid : String)

namespace ListOp

/-- The element a command is about. -/
def oid : ListOp → String
  | insert i => i.oid
  | touch oid => oid

/-- The placement of an insert. -/
def placements : ListOp → List Placement
  | insert i => [i]
  | touch _ => []

theorem eq_insert {op : ListOp} {i : Placement} (hi : i ∈ op.placements) : op = insert i := by
  cases op with
  | insert j => rw [List.mem_singleton.mp hi]
  | touch oid => cases hi

end ListOp

-- ========================================================== the clock

namespace Hash

/-- The clock of a list, if its field holds one. -/
def clock (h : Hash n) : Option (Vc n) :=
  match h.fields "current" with
  | some (.clock c) => some c
  | _ => none

/-- The clock `getCurrent` gives. -/
def now (me : Fin n) (h : Hash n) : Vc n := h.clock.getD (vcNew me)

theorem clock_set_ne (h : Hash n) {f : String} (v : Value n) (hf : f ≠ "current") :
    (h.set f v).clock = h.clock := by
  simp [clock, Hash.set, Function.update_of_ne (Ne.symm hf)]

@[simp] theorem clock_set_current (h : Hash n) (c : Vc n) :
    (h.set "current" (.clock c)).clock = some c := by
  simp [clock, Hash.set]

end Hash

/-- What `getCurrent` gives and writes. -/
theorem getCurrent_cases {me : Fin n} {h h' : Hash n} {c : Vc n}
    (hget : getCurrent me h = some (h', c)) :
    c = h.now me ∧ (h' = h ∧ h.fields "current" = some (.clock c) ∨
      h' = h.set "current" (.clock c) ∧ h.fields "current" = none) := by
  unfold getCurrent at hget
  cases hf : h.fields "current" with
  | none =>
      rw [hf] at hget
      obtain ⟨rfl, rfl⟩ := Prod.mk.inj (Option.some.inj hget)
      exact ⟨by simp [Hash.now, Hash.clock, hf], Or.inr ⟨rfl, rfl⟩⟩
  | some v =>
      rw [hf] at hget
      cases v with
      | clock c =>
          obtain ⟨rfl, rfl⟩ := Prod.mk.inj (Option.some.inj hget)
          exact ⟨by simp [Hash.now, Hash.clock, hf], Or.inl ⟨rfl, rfl⟩⟩
      | _ => cases hget

namespace ListKind

variable {K : ListKind n E} {h h' h'' : Hash n} {me : Fin n}

-- ====================================================== quiet writes

/-- The part of a record the chain is made of. -/
def shape (e : ListRec E) : Option String × Option Leid × Option String × Option String :=
  (e.oid, e.posId, e.content, e.next)

/-- Only bodies and control fields changed, and no pointer went into or
out of the latter. -/
structure Quiet (K : ListKind n E) (h h' : Hash n) : Prop where
  heap : ∀ a, (K.heap h' a).map shape = (K.heap h a).map shape
  fields : ∀ f, h'.fields f = h.fields f ∨ f ∈ controlFields ∧
    (h.fields f).bind K.unptr = none ∧ ∃ v, h'.fields f = some v ∧ K.unptr v = none
  allocs : h'.allocs = h.allocs

theorem Quiet.refl (h : Hash n) : K.Quiet h h :=
  ⟨fun _ => rfl, fun _ => Or.inl rfl, rfl⟩

theorem Quiet.trans (h₁ : K.Quiet h h') (h₂ : K.Quiet h' h'') : K.Quiet h h'' := by
  refine ⟨fun a => (h₂.heap a).trans (h₁.heap a), ?_, h₂.allocs.trans h₁.allocs⟩
  intro f
  rcases h₂.fields f with heq | ⟨hf, hold, hnew⟩
  · rw [heq]
    exact h₁.fields f
  · refine Or.inr ⟨hf, ?_, hnew⟩
    rcases h₁.fields f with heq | ⟨-, hold, -⟩
    · rwa [heq] at hold
    · exact hold

/-- A control field takes a value that is no pointer. -/
theorem Quiet.set (hK : K.Lawful) {f : String} {v : Value n} (hf : f ∈ controlFields)
    (hold : (h.fields f).bind K.unptr = none) (hv : K.unptr v = none) :
    K.Quiet h (h.set f v) := by
  refine ⟨fun a => by rw [hK.heap_set], ?_, rfl⟩
  intro g
  by_cases hg : g = f
  · subst hg
    exact Or.inr ⟨hf, hold, v, by simp [Hash.set], hv⟩
  · exact Or.inl (by simp [Hash.set, hg])

/-- What the control fields hold is no pointer. -/
structure Plain (K : ListKind n E) : Prop where
  clock : ∀ c, K.unptr (.clock c) = none
  length : ∀ l, K.unptr (.length l) = none
  ops : ∀ cmds, K.unptr (.ops cmds) = none

theorem rleKind_plain : (rleKind (n := n)).Plain :=
  ⟨fun _ => rfl, fun _ => rfl, fun _ => rfl⟩

theorem rwfleKind_plain : (rwfleKind (n := n)).Plain :=
  ⟨fun _ => rfl, fun _ => rfl, fun _ => rfl⟩

/-- The clock is made, or moved where it is. -/
theorem Quiet.getCurrent (hK : K.Lawful) (hP : K.Plain) {c : Vc n}
    (hget : getCurrent me h = some (h', c)) (c' : Vc n) :
    K.Quiet h h' ∧ K.Quiet h (h'.set "current" (.clock c')) := by
  have hset : ∀ {g : Hash n}, (g.fields "current").bind K.unptr = none → ∀ c,
      K.Quiet g (g.set "current" (.clock c)) :=
    fun hold c => .set hK (by decide) hold (hP.clock c)
  rcases (getCurrent_cases hget).2 with ⟨rfl, hf⟩ | ⟨rfl, hf⟩
  · exact ⟨.refl _, hset (by rw [hf]; exact hP.clock c) c'⟩
  · have hq := hset (by rw [hf]; rfl) c
    refine ⟨hq, hq.trans (hset ?_ c')⟩
    simp [Hash.set, hP.clock]

theorem Quiet.incrLen (hK : K.Lawful) (hP : K.Plain) {inc : ℤ}
    (hincr : incrLen h inc = some h') : K.Quiet h h' := by
  obtain ⟨len, hlen, rfl⟩ := Option.map_eq_some_iff.mp hincr
  refine .set hK (by decide) ?_ (hP.length _)
  unfold getLen at hlen
  cases hf : h.fields "length" with
  | none => rfl
  | some v =>
      rw [hf] at hlen
      cases v with
      | length l => exact hP.length l
      | _ => cases hlen

/-- A write to the body of a record. -/
theorem Quiet.modify (hK : K.Lawful) (h : Hash n) (addr : String) (f : ListRec E → E) :
    K.Quiet h (K.modify h addr fun e => { e with body := f e }) := by
  refine ⟨?_, fun g => Or.inl (by rw [fields_modify hK]), allocs_modify hK _⟩
  intro a
  rw [heap_modify hK]
  by_cases ha : a = addr
  · subst ha
    rw [Function.update_self, Option.map_map]
    rfl
  · rw [Function.update_of_ne ha]

/-- A pointer stays where it is. -/
theorem Quiet.find (hq : K.Quiet h h') {key addr : String}
    (hfind : K.find h key = some (some addr)) : K.find h' key = some (some addr) := by
  rcases hq.fields key with heq | ⟨-, hold, -⟩
  · rw [find_congr heq]
    exact hfind
  · unfold ListKind.find at hfind
    split at hfind
    · cases hfind
    · next v hv =>
        obtain ⟨a, ha, -⟩ := Option.map_eq_some_iff.mp hfind
        rw [hv, Option.bind_some, ha] at hold
        cases hold

theorem Quiet.field (hq : K.Quiet h h') {f : String} (hf : f ∉ controlFields) :
    h'.fields f = h.fields f := (hq.fields f).resolve_right fun hc => hf hc.1

theorem Quiet.getHead (hq : K.Quiet h h') : K.getHead h' = K.getHead h :=
  getHead_congr (hq.field (by decide))

theorem Quiet.next (hq : K.Quiet h h') (a : String) : K.next h' a = K.next h a := by
  have heq := congrArg (fun o => o.bind fun t => t.2.2.2) (hq.heap a)
  simpa [ListKind.next, shape, Option.bind_map, Function.comp_def] using heq

-- ============================================================== marks

/-- What an insert writes into a record: its name, identifier and
content. -/
def mark (K : ListKind n E) (h : Hash n) (a : String) :
    Option (Option String × Option Leid × Option String) :=
  (K.heap h a).map fun e => (e.oid, e.posId, e.content)

theorem posAt_eq_mark (h : Hash n) (a : String) :
    K.posAt h a = (K.mark h a).bind fun t => t.2.1 := by
  unfold posAt mark
  cases K.heap h a <;> rfl

/-- Records with the same marks carry the same identifiers. -/
theorem posAt_congr {a : String} (hm : K.mark h' a = K.mark h a) :
    K.posAt h' a = K.posAt h a := by
  rw [posAt_eq_mark, posAt_eq_mark, hm]

theorem mark_isSome (h : Hash n) (a : String) :
    (K.mark h a).isSome = (K.heap h a).isSome := by
  unfold mark
  rw [Option.isSome_map]

theorem Quiet.mark (hq : K.Quiet h h') (a : String) : K.mark h' a = K.mark h a := by
  have heq := congrArg (Option.map fun t => (t.1, t.2.1, t.2.2.1)) (hq.heap a)
  simpa [ListKind.mark, shape, Function.comp_def] using heq

/-- A record that is made carries no mark. -/
theorem mark_findOrCreate (hK : K.Lawful) {key addr : String}
    (hget : K.findOrCreate me h key = some (h', addr)) :
    h' = h ∨ h.fields key = none ∧ addr = key ∧
      K.mark h' = Function.update (K.mark h) key (some (none, none, none)) := by
  rcases findOrCreate_cases hK hget with ⟨-, -, -, rfl⟩ | ⟨hf, rfl, hheap, -, -⟩
  · exact Or.inl rfl
  · refine Or.inr ⟨hf, rfl, ?_⟩
    funext a
    unfold ListKind.mark
    rw [hheap]
    by_cases ha : a = addr
    · subst ha
      simp only [Function.update_self]
      rfl
    · simp only [Function.update_of_ne ha]

/-- An insert leaves a record that has a name alone, and marks one that
has none. -/
theorem mark_position (hK : K.Lawful) {i : Placement} {addr : String}
    (hpos : K.position h i.pre i.oid i.content addr i.pos = some h') :
    (h' = h ∧ ∃ e, K.heap h addr = some e ∧ e.oid.isSome) ∨
      (∃ e, K.heap h addr = some e ∧ e.oid = none) ∧
      K.mark h' = Function.update (K.mark h) addr (some (some i.oid, some i.pos, some i.content)) ∧
      (∀ f, f ≠ "head" → h'.fields f = h.fields f) ∧
      ((h.fields "head").isSome → (h'.fields "head").isSome) := by
  obtain ⟨e, he, ⟨hoid, rfl⟩ | ⟨hoid, hins⟩⟩ := position_cases hpos
  · exact Or.inl ⟨rfl, e, he, hoid⟩
  · have hre := insertChain_relinked hK hins
    refine Or.inr ⟨⟨e, he, hoid⟩, ?_, ?_, ?_⟩
    · funext a
      have hentry := congrArg (Option.map fun e : ListRec E => (e.oid, e.posId, e.content))
        (congrFun hre.entry a)
      simp only [ListKind.entry, Option.map_map, Function.comp_def] at hentry
      unfold ListKind.mark
      rw [hentry, heap_modify hK, he]
      by_cases ha : a = addr
      · subst ha
        simp only [Function.update_self]
        rfl
      · simp only [Function.update_of_ne ha]
    · intro f hf
      rw [hre.fields f hf, fields_modify hK]
    · intro hs
      exact hre.head (by rw [fields_modify hK]; exact hs)

-- ============================================================== moves

/-- A sequence of writes, with the inserts among them; the elements it
looks up have names that are `ok`. -/
inductive Moves (K : ListKind n E) (me : Fin n) (ok : String → Prop) (h : Hash n) :
    List Placement → Hash n → Prop
  | refl : Moves K me ok h [] h
  | quiet {L : List Placement} {g g' : Hash n} :
      Moves K me ok h L g → K.Quiet g g' → Moves K me ok h L g'
  | make {L : List Placement} {g g' : Hash n} {key addr : String} :
      Moves K me ok h L g → ok key → K.findOrCreate me g key = some (g', addr) →
      Moves K me ok h L g'
  | place {L : List Placement} {g g' : Hash n} {i : Placement} {addr : String} :
      Moves K me ok h L g → ok i.oid → K.find g i.oid = some (some addr) →
      K.position g i.pre i.oid i.content addr i.pos = some g' →
      Moves K me ok h (L ++ [i]) g'

variable {ok : String → Prop} {L L' : List Placement} {l : List String}

theorem Quiet.moves (hq : K.Quiet h h') : K.Moves me ok h [] h' := .quiet .refl hq

theorem Moves.trans (h₁ : K.Moves me ok h L h') (h₂ : K.Moves me ok h' L' h'') :
    K.Moves me ok h (L ++ L') h'' := by
  induction h₂ with
  | refl => simpa using h₁
  | quiet _ hq ih => exact .quiet ih hq
  | make _ hok hget ih => exact .make ih hok hget
  | place _ hok hfind hpos ih =>
      rw [← List.append_assoc]
      exact .place ih hok hfind hpos

/-- What every write keeps, a sequence keeps. -/
theorem Moves.invariant {J : Hash n → Prop} (hm : K.Moves me ok h L h')
    (hquiet : ∀ {g g'}, J g → K.Quiet g g' → J g')
    (hmake : ∀ {g g' key addr}, J g → ok key → K.findOrCreate me g key = some (g', addr) → J g')
    (hplace : ∀ {g g' i addr}, J g → i ∈ L → ok i.oid → K.find g i.oid = some (some addr) →
      K.position g i.pre i.oid i.content addr i.pos = some g' → J g')
    (h0 : J h) : J h' := by
  induction hm with
  | refl => exact h0
  | quiet _ hq ih => exact hquiet (ih hplace) hq
  | make _ hok hget ih => exact hmake (ih hplace) hok hget
  | place _ hok hfind hpos ih =>
      refine hplace (ih fun hg hi => hplace hg (List.mem_append_left _ hi)) ?_ hok hfind hpos
      exact List.mem_append_right _ List.mem_cons_self

/-- A field that holds no pointer is not given to a record. -/
theorem Moves.plain (hK : K.Lawful) {f : String} (hhead : f ≠ "head")
    (hm : K.Moves me ok h L h') (hf : ∃ v, h.fields f = some v ∧ K.unptr v = none) :
    ∃ v, h'.fields f = some v ∧ K.unptr v = none := by
  refine hm.invariant (J := fun g => ∃ v, g.fields f = some v ∧ K.unptr v = none) ?_ ?_ ?_ hf
  · intro g g' hg hq
    rcases hq.fields f with heq | ⟨-, -, hnew⟩
    · rwa [heq]
    · exact hnew
  · intro g g' key addr ⟨v, hv, hno⟩ _ hget
    rcases findOrCreate_cases hK hget with ⟨-, -, -, rfl⟩ | ⟨hnone, -, -, hfields, -⟩
    · exact ⟨v, hv, hno⟩
    · refine ⟨v, ?_, hno⟩
      rw [hfields, Function.update_of_ne, hv]
      intro hcon
      rw [hcon, hnone] at hv
      cases hv
  · intro g g' i addr ⟨v, hv, hno⟩ _ _ _ hpos
    rcases mark_position hK hpos with ⟨rfl, -⟩ | ⟨-, -, hfields, -⟩
    · exact ⟨v, hv, hno⟩
    · exact ⟨v, by rw [hfields f hhead, hv], hno⟩

/-- What a lookup with creation makes is found. -/
theorem find_findOrCreate (hK : K.Lawful) {key addr : String}
    (hget : K.findOrCreate me h key = some (h', addr)) : K.find h' key = some (some addr) := by
  unfold ListKind.find
  rcases findOrCreate_cases hK hget with ⟨v, hf, hv, rfl⟩ | ⟨-, rfl, -, hfields, -⟩
  · rw [hf]
    exact congrArg (Option.map some) hv
  · rw [hfields, Function.update_self]
    exact congrArg (Option.map some) (hK.unptr_ptr addr)

-- ===================================================== sound records

/-- Records sit under the names they were made for, and have a name as
soon as they have an identifier. -/
structure Sound (K : ListKind n E) (h : Hash n) : Prop where
  taken : ∀ a, (K.heap h a).isSome → (h.fields a).isSome
  addr : ∀ f v a, f ≠ "head" → h.fields f = some v → K.unptr v = some a → a = f
  posId : ∀ a e, K.heap h a = some e → (e.posId.isSome ↔ e.oid.isSome)

theorem sound_empty (K : ListKind n E) (hheap : ∀ a, K.heap (Hash.empty : Hash n) a = none) :
    K.Sound (Hash.empty : Hash n) := by
  refine ⟨?_, (fun _ _ _ _ hf => nomatch hf), ?_⟩
  · intro a ha
    rw [hheap] at ha
    cases ha
  · intro a e he
    rw [hheap] at he
    cases he

/-- An element other than `head` is found at its own name. -/
theorem Sound.find (hs : K.Sound h) {key addr : String} (hkey : key ≠ "head")
    (hfind : K.find h key = some (some addr)) : addr = key := by
  unfold ListKind.find at hfind
  split at hfind
  · cases hfind
  · next v hv =>
      obtain ⟨a, ha, heq⟩ := Option.map_eq_some_iff.mp hfind
      obtain rfl := Option.some.inj heq
      exact hs.addr key v a hkey hv ha

theorem Sound.heap_none (hs : K.Sound h) {key : String} (hf : h.fields key = none) :
    K.heap h key = none := by
  by_contra hne
  have hsome := hs.taken key (Option.isSome_iff_ne_none.mpr hne)
  rw [hf] at hsome
  cases hsome

/-- The identifier of a record that has no name. -/
theorem Sound.posAt_none (hs : K.Sound h) {a : String} {e : ListRec E}
    (he : K.heap h a = some e) (hoid : e.oid = none) : K.posAt h a = none := by
  rw [posAt, he]
  show e.posId = none
  by_contra hne
  have hsome := (hs.posId a e he).mp (Option.isSome_iff_ne_none.mpr hne)
  rw [hoid] at hsome
  cases hsome

/-- Soundness in terms of marks. -/
theorem Sound.of_mark (htaken : ∀ a, (K.mark h a).isSome → (h.fields a).isSome)
    (haddr : ∀ f v a, f ≠ "head" → h.fields f = some v → K.unptr v = some a → a = f)
    (hmark : ∀ a t, K.mark h a = some t → (t.2.1.isSome ↔ t.1.isSome)) : K.Sound h := by
  refine ⟨fun a ha => htaken a (by rwa [mark_isSome]), haddr, ?_⟩
  intro a e he
  exact hmark a (e.oid, e.posId, e.content) (by rw [mark, he]; rfl)

theorem Sound.mark (hs : K.Sound h) {a : String}
    {t : Option String × Option Leid × Option String} (ht : K.mark h a = some t) :
    t.2.1.isSome ↔ t.1.isSome := by
  obtain ⟨e, he, rfl⟩ := Option.map_eq_some_iff.mp ht
  exact hs.posId a e he

theorem Sound.quiet (hs : K.Sound h) (hq : K.Quiet h h') : K.Sound h' := by
  refine .of_mark ?_ ?_ ?_
  · intro a ha
    rw [hq.mark, mark_isSome] at ha
    have hold := hs.taken a ha
    rcases hq.fields a with heq | ⟨-, -, v, hv, -⟩
    · rwa [heq]
    · rw [hv]
      rfl
  · intro f v a hf hv ha
    rcases hq.fields f with heq | ⟨-, -, v', hv', hno⟩
    · rw [heq] at hv
      exact hs.addr f v a hf hv ha
    · rw [hv'] at hv
      obtain rfl := Option.some.inj hv
      rw [hno] at ha
      cases ha
  · intro a t ht
    rw [hq.mark] at ht
    exact hs.mark ht

theorem Sound.make (hK : K.Lawful) (hs : K.Sound h) {key addr : String}
    (hget : K.findOrCreate me h key = some (h', addr)) : K.Sound h' := by
  rcases findOrCreate_cases hK hget with ⟨-, -, -, rfl⟩ | ⟨-, rfl, hheap, hfields, -⟩
  · exact hs
  · refine ⟨?_, ?_, ?_⟩
    · intro a ha
      rw [hfields]
      by_cases haa : a = addr
      · subst haa
        rw [Function.update_self]
        rfl
      · rw [hheap, Function.update_of_ne haa] at ha
        rw [Function.update_of_ne haa]
        exact hs.taken a ha
    · intro f v a hf hv ha
      rw [hfields] at hv
      by_cases hfa : f = addr
      · subst hfa
        rw [Function.update_self] at hv
        obtain rfl := Option.some.inj hv
        rw [hK.unptr_ptr] at ha
        exact (Option.some.inj ha).symm
      · rw [Function.update_of_ne hfa] at hv
        exact hs.addr f v a hf hv ha
    · intro a e he
      rw [hheap] at he
      by_cases haa : a = addr
      · subst haa
        rw [Function.update_self] at he
        obtain rfl := Option.some.inj he
        exact Iff.rfl
      · rw [Function.update_of_ne haa] at he
        exact hs.posId a e he

theorem Sound.place (hK : K.Lawful) (hs : K.Sound h) {i : Placement} {addr : String}
    (hpos : K.position h i.pre i.oid i.content addr i.pos = some h') : K.Sound h' := by
  rcases mark_position hK hpos with ⟨rfl, -⟩ | ⟨⟨e, he, -⟩, hmark, hfields, hhead⟩
  · exact hs
  · have hkept : ∀ a, (h.fields a).isSome → (h'.fields a).isSome := by
      intro a ha
      by_cases hah : a = "head"
      · subst hah
        exact hhead ha
      · rwa [hfields a hah]
    refine .of_mark ?_ ?_ ?_
    · intro a ha
      refine hkept a (hs.taken a ?_)
      rw [hmark] at ha
      by_cases haa : a = addr
      · rw [haa, he]
        rfl
      · rwa [Function.update_of_ne haa, mark_isSome] at ha
    · intro f v a hf hv ha
      rw [hfields f hf] at hv
      exact hs.addr f v a hf hv ha
    · intro a t ht
      rw [hmark] at ht
      by_cases haa : a = addr
      · subst haa
        rw [Function.update_self] at ht
        obtain rfl := Option.some.inj ht
        exact Iff.rfl
      · rw [Function.update_of_ne haa] at ht
        exact hs.mark ht

/-- Every sequence of writes keeps the records sound. -/
theorem Sound.moves (hK : K.Lawful) (hs : K.Sound h) (hm : K.Moves me ok h L h') :
    K.Sound h' :=
  hm.invariant (fun hg hq => hg.quiet hq) (fun hg _ hget => hg.make hK hget)
    (fun hg _ _ _ hpos => hg.place hK hpos) hs

/-- A quiet write keeps the chain. -/
theorem Chain.quiet (hc : K.Chain h l) (hq : K.Quiet h h') : K.Chain h' l := by
  have hs : K.Sound h := ⟨hc.taken, hc.addr, hc.posId⟩
  refine hc.congr ?_ (hq.field (by decide)) ?_ (hs.quiet hq).addr hq.allocs
  · intro a
    have heq := congrArg (Option.map fun t => (t.1, t.2.1, t.2.2.2)) (hq.heap a)
    simpa [shape, Function.comp_def] using heq
  · intro a ha
    rcases hq.fields a with heq | ⟨-, -, v, hv, -⟩
    · rwa [heq]
    · rw [hv]
      rfl

/-- Identifiers after a record was made. -/
theorem Sound.posAt_make (hK : K.Lawful) (hs : K.Sound h) {key addr : String}
    (hget : K.findOrCreate me h key = some (h', addr)) (a : String) :
    K.posAt h' a = K.posAt h a := by
  rcases mark_findOrCreate hK hget with rfl | ⟨hf, rfl, hmark⟩
  · rfl
  · by_cases ha : a = addr
    · subst ha
      rw [posAt_eq_mark, hmark, Function.update_self, posAt, hs.heap_none hf]
      rfl
    · exact posAt_congr (by rw [hmark, Function.update_of_ne ha])

/-- Identifiers after an insert: a record that had none has the insert's. -/
theorem Sound.posAt_place (hK : K.Lawful) (hs : K.Sound h) {i : Placement} {addr : String}
    (hpos : K.position h i.pre i.oid i.content addr i.pos = some h') :
    h' = h ∧ (K.posAt h addr).isSome ∨ K.posAt h addr = none ∧
      K.posAt h' = Function.update (K.posAt h) addr (some i.pos) := by
  rcases mark_position hK hpos with ⟨rfl, e, he, hoid⟩ | ⟨⟨e, he, hoid⟩, hmark, -, -⟩
  · refine Or.inl ⟨rfl, ?_⟩
    rw [posAt, he]
    exact (hs.posId addr e he).mpr hoid
  · refine Or.inr ⟨hs.posAt_none he hoid, ?_⟩
    funext a
    by_cases ha : a = addr
    · subst ha
      rw [Function.update_self, posAt_eq_mark, hmark, Function.update_self]
      rfl
    · rw [Function.update_of_ne ha]
      exact posAt_congr (by rw [hmark, Function.update_of_ne ha])

/-- An insert keeps the chain, unless it finds the record it places as its
own predecessor and has to look behind it. -/
theorem Chain.place (hK : K.Lawful) (hc : K.Chain h l) {i : Placement} {addr : String}
    (hfind : K.find h i.oid = some (some addr))
    (hpos : K.position h i.pre i.oid i.content addr i.pos = some h')
    (hself : i.pre = i.oid → (K.posAt h addr).isSome ∨ ∀ head x,
      K.getHead h = some (some head) → K.posAt h head = some x → i.pos < x) :
    ∃ l', K.Chain h' l' := by
  obtain ⟨e, he, ⟨-, rfl⟩ | ⟨hoid, hins⟩⟩ := position_cases hpos
  · exact ⟨l, hc⟩
  have hs : K.Sound h := ⟨hc.taken, hc.addr, hc.posId⟩
  have hnone := hs.posAt_none he hoid
  have hfront : K.find h i.pre = some (some addr) → ∀ head x, l.head? = some head →
      K.posAt h head = some x → i.pos < x := by
    intro hpre head x hl hx
    have hget : K.getHead h = some (some head) := hc.head.trans (by rw [hl])
    -- the head has an identifier and the record has none
    have hne : head ≠ addr := by
      intro hcon
      rw [hcon, hnone] at hx
      cases hx
    have hnotHead : ∀ {key}, K.find h key = some (some addr) → addr = key := by
      intro key hkey
      refine hs.find ?_ hkey
      intro hcon
      rw [hcon] at hkey
      exact hne (Option.some.inj (Option.some.inj (hget.symm.trans hkey)))
    rcases hself ((hnotHead hpre).symm.trans (hnotHead hfind)) with hplaced | hfront
    · rw [hnone] at hplaced
      cases hplaced
    · exact hfront head x hget hx
  rcases hc.position hK he hoid hfront hins with ⟨-, -, hc'⟩ | ⟨-, l₁, l₂, -, hc', -⟩
  · exact ⟨_, hc'⟩
  · exact ⟨_, hc'⟩

/-- Writes that place nothing keep a chain, though a record that takes the
name `head` makes one. -/
theorem Chain.unplaced (hK : K.Lawful) (hc : K.Chain h l) (hm : K.Moves me ok h [] h') :
    ∃ l', K.Chain h' l' := by
  refine hm.invariant (J := fun g => ∃ l, K.Chain g l) ?_ ?_ ?_ ⟨l, hc⟩
  · exact fun ⟨l, hc⟩ hq => ⟨l, hc.quiet hq⟩
  · intro g g' key addr ⟨l, hc⟩ _ hget
    rcases hc.findOrCreate hK hget with hc' | ⟨-, -, -, hc'⟩
    · exact ⟨_, hc'⟩
    · exact ⟨_, hc'⟩
  · exact fun _ hi => nomatch hi

/-- Writes keep a chain, if no insert finds the record it places as its own
predecessor. -/
theorem Chain.moves (hK : K.Lawful) (hhead : ∀ a, ok a → a ≠ "head") (hc : K.Chain h l)
    (hm : K.Moves me ok h L h') (hlink : ∀ i ∈ L, (K.posAt h i.oid).isSome ∨ i.pre ≠ i.oid) :
    ∃ l', K.Chain h' l' := by
  have hsound : ∀ {g l}, K.Chain g l → K.Sound g := fun hc => ⟨hc.taken, hc.addr, hc.posId⟩
  refine (hm.invariant (J := fun g => (∃ l, K.Chain g l) ∧
    ∀ i ∈ L, (K.posAt g i.oid).isSome ∨ i.pre ≠ i.oid) ?_ ?_ ?_ ⟨⟨l, hc⟩, hlink⟩).1
  · intro g g' ⟨⟨l, hc⟩, hlink⟩ hq
    refine ⟨⟨l, hc.quiet hq⟩, ?_⟩
    intro i hi
    rw [posAt_congr (hq.mark i.oid)]
    exact hlink i hi
  · intro g g' key addr ⟨⟨l, hc⟩, hlink⟩ hok hget
    refine ⟨?_, ?_⟩
    · rcases hc.findOrCreate hK hget with hc' | ⟨-, hcon, -⟩
      · exact ⟨l, hc'⟩
      · exact absurd hcon (hhead key hok)
    · intro i hi
      rw [(hsound hc).posAt_make hK hget]
      exact hlink i hi
  · intro g g' i addr ⟨⟨l, hc⟩, hlink⟩ hi hok hfind hpos
    have hs := hsound hc
    obtain rfl := hs.find (hhead _ hok) hfind
    have hlink' : ∀ j ∈ L, (K.posAt g' j.oid).isSome ∨ j.pre ≠ j.oid := by
      intro j hj
      refine (hlink j hj).imp_left fun hsome => ?_
      rcases hs.posAt_place hK hpos with ⟨rfl, -⟩ | ⟨-, heq⟩
      · exact hsome
      · rw [heq]
        by_cases hji : j.oid = i.oid
        · rw [hji, Function.update_self]
          rfl
        · rwa [Function.update_of_ne hji]
    refine ⟨?_, hlink'⟩
    refine hc.place hK hfind hpos fun heq => Or.inl ?_
    exact (hlink i hi).resolve_right fun hne => hne heq

end ListKind

end CrdtRedis
