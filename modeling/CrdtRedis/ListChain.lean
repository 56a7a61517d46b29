/-
The chain of a list, for both lists: which records `head` and `next` lead
through, and what the insertion of list_basics.c's users does to it.

`ListKind.Chain` is the shape every effect keeps: the chain is acyclic, it
holds every positioned record, and what is not in it points nowhere. It
speaks of addresses, so it also holds where an oid is one of the list's
own field names: a record made under the name `head` IS the head of an
empty list before anything positions it, and then it is all the chain.

The one thing an effect must not do is to name the record it positions as
its own predecessor. The walk then starts at the new record, which ends up
pointing nowhere with nothing pointing to it (`Chain.position` excludes
this case by its hypothesis).
-/
import CrdtRedis.ListBase
import CrdtRedis.Leid
import CrdtRedis.Data.Linked
import Mathlib.Data.Finset.Card

namespace CrdtRedis

open Linked (Path)

variable {n : ℕ} {E : Type}

-- =================================================== laws of a kind

/-- A kind keeps its records and its pointers apart from the rest of the
hash. -/
structure ListKind.Lawful (K : ListKind n E) : Prop where
  unptr_ptr : ∀ a, K.unptr (K.ptr a) = some a
  heap_setHeap : ∀ h f, K.heap (K.setHeap h f) = f
  fields_setHeap : ∀ h f, (K.setHeap h f).fields = h.fields
  allocs_setHeap : ∀ h f, (K.setHeap h f).allocs = h.allocs
  heap_set : ∀ h f v, K.heap (Hash.set h f v) = K.heap h
  heap_allocs : ∀ (h : Hash n) m, K.heap { h with allocs := m } = K.heap h

theorem rleKind_lawful : (rleKind (n := n)).Lawful :=
  ⟨fun _ => rfl, fun _ _ => rfl, fun _ _ => rfl, fun _ _ => rfl, fun _ _ _ => rfl,
    fun _ _ => rfl⟩

theorem rwfleKind_lawful : (rwfleKind (n := n)).Lawful :=
  ⟨fun _ => rfl, fun _ _ => rfl, fun _ _ => rfl, fun _ _ => rfl, fun _ _ _ => rfl,
    fun _ _ => rfl⟩

namespace ListKind

/-- Where the record at `a` points. -/
def next (K : ListKind n E) (h : Hash n) (a : String) : Option String :=
  (K.heap h a).bind ListRec.next

theorem next_of_heap {K : ListKind n E} {h : Hash n} {a : String} {e : ListRec E}
    (he : K.heap h a = some e) : K.next h a = e.next := by
  rw [next, he]
  rfl

/-- The identifier of the record at `a`. -/
def posAt (K : ListKind n E) (h : Hash n) (a : String) : Option Leid :=
  (K.heap h a).bind ListRec.posId

/-- The record at `a` without its pointer. -/
def entry (K : ListKind n E) (h : Hash n) (a : String) : Option (ListRec E) :=
  (K.heap h a).map fun e => { e with next := none }

variable {K : ListKind n E} (hK : K.Lawful) {h h' : Hash n} {l : List String}
  {a addr key pre : String}

include hK

-- ========================================================== accessors

theorem heap_modify (f : ListRec E → ListRec E) :
    K.heap (K.modify h addr f) = Function.update (K.heap h) addr ((K.heap h addr).map f) :=
  hK.heap_setHeap _ _

theorem fields_modify (f : ListRec E → ListRec E) :
    (K.modify h addr f).fields = h.fields := hK.fields_setHeap _ _

theorem allocs_modify (f : ListRec E → ListRec E) :
    (K.modify h addr f).allocs = h.allocs := hK.allocs_setHeap _ _

theorem getHead_setHead : K.getHead (K.setHead h addr) = some (some addr) := by
  simp [getHead, setHead, Hash.set, hK.unptr_ptr]

/-- A lookup with creation finds a pointer, or makes a record under the
name it looked up. -/
theorem findOrCreate_cases {me : Fin n} (hget : K.findOrCreate me h key = some (h', addr)) :
    (∃ v, h.fields key = some v ∧ K.unptr v = some addr ∧ h' = h) ∨
      h.fields key = none ∧ addr = key ∧
        K.heap h' = Function.update (K.heap h) key (some (ListRec.new (K.new me))) ∧
        h'.fields = Function.update h.fields key (some (K.ptr key)) ∧
        h'.allocs = h.allocs + 1 := by
  unfold findOrCreate at hget
  cases hf : h.fields key with
  | none =>
      rw [hf] at hget
      obtain ⟨rfl, rfl⟩ := Prod.mk.inj (Option.some.inj hget)
      refine Or.inr ⟨rfl, rfl, ?_, ?_, ?_⟩
      · rw [hK.heap_allocs, hK.heap_setHeap]
      · show (K.setHeap _ _).fields = _
        rw [hK.fields_setHeap]
        rfl
      · show (K.setHeap _ _).allocs + 1 = _
        rw [hK.allocs_setHeap]
        rfl
  | some v =>
      rw [hf] at hget
      obtain ⟨addr', hv, heq⟩ := Option.map_eq_some_iff.mp hget
      obtain ⟨rfl, rfl⟩ := Prod.mk.inj heq
      exact Or.inl ⟨v, rfl, hv, rfl⟩

omit hK

/-- `getHead` reads one field only. -/
theorem getHead_congr (hf : h'.fields "head" = h.fields "head") :
    K.getHead h' = K.getHead h := by
  unfold getHead
  rw [hf]

theorem find_congr (hf : h'.fields key = h.fields key) : K.find h' key = K.find h key := by
  unfold find
  rw [hf]

-- =========================================================== the chain

/-- The chain of a list is `l`. -/
structure Chain (K : ListKind n E) (h : Hash n) (l : List String) : Prop where
  /-- A record is made under a field. -/
  taken : ∀ a, (K.heap h a).isSome → (h.fields a).isSome
  /-- A field other than `head` points to the record made under it. -/
  addr : ∀ f v a, f ≠ "head" → h.fields f = some v → K.unptr v = some a → a = f
  head : K.getHead h = some l.head?
  path : Path (K.next h) l.head? l
  nodup : l.Nodup
  made : ∀ a ∈ l, (K.heap h a).isSome
  mem : ∀ a e, K.heap h a = some e → e.oid.isSome → a ∈ l
  /-- Only a record that took the name `head` is in the chain unpositioned. -/
  only : ∀ a ∈ l, ∀ e, K.heap h a = some e → e.oid = none → l = ["head"]
  free : ∀ a, a ∉ l → K.next h a = none
  posId : ∀ a e, K.heap h a = some e → (e.posId.isSome ↔ e.oid.isSome)
  /-- No more records than were made. -/
  count : ∃ s : Finset String, s.card ≤ h.allocs ∧ ∀ a, (K.heap h a).isSome → a ∈ s

/-- The empty hash has the empty chain. -/
theorem chain_empty (K : ListKind n E) (hheap : ∀ a, K.heap (Hash.empty : Hash n) a = none) :
    K.Chain (Hash.empty : Hash n) [] := by
  have hnone : ∀ {a e}, K.heap (Hash.empty : Hash n) a = some e → False := by
    intro a e he
    rw [hheap] at he
    cases he
  refine ⟨?_, ?_, rfl, rfl, List.nodup_nil, ?_, ?_, ?_, ?_, ?_, ∅, le_rfl, ?_⟩
  · intro a ha
    rw [hheap] at ha
    cases ha
  · exact fun _ _ _ _ hf => nomatch hf
  · exact fun _ ha => nomatch ha
  · exact fun _ _ he => (hnone he).elim
  · exact fun _ ha => nomatch ha
  · intro a _
    simp [next, hheap]
  · exact fun _ _ he => (hnone he).elim
  · intro a ha
    rw [hheap] at ha
    cases ha

/-- The chain is no longer than the number of records made. -/
theorem Chain.length_le (hc : K.Chain h l) : l.length ≤ h.allocs := by
  obtain ⟨s, hcard, hs⟩ := hc.count
  rw [← List.toFinset_card_of_nodup hc.nodup]
  refine (Finset.card_le_card fun a ha => ?_).trans hcard
  exact hs a (hc.made a (List.mem_toFinset.mp ha))

/-- What only writes other fields, and records neither in their names nor
in their pointers, keeps the chain. -/
theorem Chain.congr (hc : K.Chain h l)
    (hheap : ∀ a, (K.heap h' a).map (fun e => (e.oid, e.posId, e.next))
      = (K.heap h a).map fun e => (e.oid, e.posId, e.next))
    (hhead : h'.fields "head" = h.fields "head")
    (htaken : ∀ a, (h.fields a).isSome → (h'.fields a).isSome)
    (haddr : ∀ f v a, f ≠ "head" → h'.fields f = some v → K.unptr v = some a → a = f)
    (hallocs : h'.allocs = h.allocs) : K.Chain h' l := by
  have hsome : ∀ a, (K.heap h' a).isSome = (K.heap h a).isSome := by
    intro a
    have := congrArg Option.isSome (hheap a)
    simpa using this
  have hback : ∀ a e', K.heap h' a = some e' → ∃ e, K.heap h a = some e ∧
      e.oid = e'.oid ∧ e.posId = e'.posId ∧ e.next = e'.next := by
    intro a e' he'
    have heq := hheap a
    rw [he', Option.map_some] at heq
    obtain ⟨e, he, hval⟩ := Option.map_eq_some_iff.mp heq.symm
    simp only [Prod.mk.injEq] at hval
    exact ⟨e, he, hval⟩
  have hnext : ∀ a, K.next h' a = K.next h a := by
    intro a
    have heq := congrArg (fun o => o.bind fun t => t.2.2) (hheap a)
    simpa [next, Option.bind_map, Function.comp_def] using heq
  refine ⟨?_, haddr, ?_, ?_, hc.nodup, ?_, ?_, ?_, ?_, ?_, ?_⟩
  · intro a ha
    rw [hsome] at ha
    exact htaken a (hc.taken a ha)
  · rw [getHead_congr hhead]
    exact hc.head
  · exact hc.path.congr fun a _ => hnext a
  · intro a ha
    rw [hsome]
    exact hc.made a ha
  · intro a e' he' hoid
    obtain ⟨e, he, ho, -, -⟩ := hback a e' he'
    exact hc.mem a e he (by rw [ho]; exact hoid)
  · intro a ha e' he' hoid
    obtain ⟨e, he, ho, -, -⟩ := hback a e' he'
    exact hc.only a ha e he (ho.trans hoid)
  · intro a ha
    rw [hnext]
    exact hc.free a ha
  · intro a e' he'
    obtain ⟨e, he, ho, hp, -⟩ := hback a e' he'
    rw [← hp, ← ho]
    exact hc.posId a e he
  · obtain ⟨s, hcard, hs⟩ := hc.count
    refine ⟨s, hcard.trans hallocs.ge, fun a ha => hs a ?_⟩
    rw [← hsome]
    exact ha

/-- A record that is made hangs in no chain, or is all of one. -/
theorem Chain.findOrCreate (hK : K.Lawful) {me : Fin n} (hc : K.Chain h l)
    (hget : K.findOrCreate me h key = some (h', addr)) :
    K.Chain h' l ∨ l = [] ∧ key = "head" ∧ addr = "head" ∧ K.Chain h' ["head"] := by
  rcases findOrCreate_cases hK hget with ⟨v, -, -, rfl⟩ | ⟨hf, rfl, hheap, hfields, hallocs⟩
  · exact Or.inl hc
  have hnone : K.heap h addr = none := by
    by_contra hne
    have hsome := hc.taken addr (Option.isSome_iff_ne_none.mpr hne)
    rw [hf] at hsome
    cases hsome
  -- whatever the chain becomes, the new record is not positioned
  have hold : ∀ {a e}, K.heap h' a = some e → e.oid.isSome → K.heap h a = some e := by
    intro a e he hoid
    rw [hheap] at he
    by_cases ha : a = addr
    · subst ha
      rw [Function.update_self] at he
      obtain rfl := Option.some.inj he
      cases hoid
    · rwa [Function.update_of_ne ha] at he
  have hnext : ∀ a, K.next h' a = K.next h a := by
    intro a
    unfold next
    rw [hheap]
    by_cases ha : a = addr
    · subst ha
      rw [Function.update_self, hnone]
      rfl
    · rw [Function.update_of_ne ha]
  have htaken : ∀ a, (K.heap h' a).isSome → (h'.fields a).isSome := by
    intro a ha
    rw [hheap] at ha
    rw [hfields]
    by_cases hka : a = addr
    · subst hka
      rw [Function.update_self]
      rfl
    · rw [Function.update_of_ne hka] at ha ⊢
      exact hc.taken a ha
  have haddr : ∀ f v a, f ≠ "head" → h'.fields f = some v → K.unptr v = some a → a = f := by
    intro f v a hne hv ha
    rw [hfields] at hv
    by_cases hfk : f = addr
    · subst hfk
      rw [Function.update_self] at hv
      obtain rfl := Option.some.inj hv
      rw [hK.unptr_ptr] at ha
      exact (Option.some.inj ha).symm
    · rw [Function.update_of_ne hfk] at hv
      exact hc.addr f v a hne hv ha
  have hposId : ∀ a e, K.heap h' a = some e → (e.posId.isSome ↔ e.oid.isSome) := by
    intro a e he
    rw [hheap] at he
    by_cases ha : a = addr
    · subst ha
      rw [Function.update_self] at he
      obtain rfl := Option.some.inj he
      exact Iff.rfl
    · rw [Function.update_of_ne ha] at he
      exact hc.posId a e he
  have hcount : ∃ s : Finset String, s.card ≤ h'.allocs ∧
      ∀ a, (K.heap h' a).isSome → a ∈ s := by
    obtain ⟨s, hcard, hs⟩ := hc.count
    have hle := Finset.card_insert_le addr s
    refine ⟨insert addr s, by omega, ?_⟩
    intro a ha
    rw [hheap] at ha
    by_cases hka : a = addr
    · rw [hka]
      exact Finset.mem_insert_self _ _
    · rw [Function.update_of_ne hka] at ha
      exact Finset.mem_insert_of_mem (hs a ha)
  by_cases hkey : addr = "head"
  · -- the list was empty, and its head is the new record
    subst hkey
    have hnil : l = [] := by
      have hhead := hc.head
      unfold getHead at hhead
      rw [hf] at hhead
      exact List.head?_eq_none_iff.mp (Option.some.inj hhead).symm
    subst hnil
    refine Or.inr ⟨rfl, rfl, rfl, htaken, haddr, ?_, ?_, List.nodup_singleton _, ?_, ?_, ?_,
      ?_, hposId, hcount⟩
    · unfold getHead
      rw [hfields, Function.update_self]
      exact congrArg (Option.map some) (hK.unptr_ptr "head")
    · refine ⟨rfl, ?_⟩
      show K.next h' "head" = none
      rw [hnext]
      exact hc.free _ List.not_mem_nil
    · intro a ha
      rw [List.mem_singleton.mp ha, hheap, Function.update_self]
      rfl
    · exact fun a e he hoid => absurd (hc.mem a e (hold he hoid) hoid) List.not_mem_nil
    · exact fun _ _ _ _ _ => rfl
    · intro a _
      rw [hnext]
      exact hc.free a List.not_mem_nil
  · have hnot : addr ∉ l := by
      intro hmem
      have hsome := hc.made addr hmem
      rw [hnone] at hsome
      cases hsome
    have hsame : ∀ a ∈ l, K.heap h' a = K.heap h a := by
      intro a ha
      rw [hheap, Function.update_of_ne]
      exact fun hcon => hnot (hcon ▸ ha)
    refine Or.inl ⟨htaken, haddr, ?_, ?_, hc.nodup, ?_, ?_, ?_, ?_, hposId, hcount⟩
    · rw [getHead_congr (h := h) (by rw [hfields, Function.update_of_ne (Ne.symm hkey)])]
      exact hc.head
    · exact hc.path.congr fun a _ => hnext a
    · intro a ha
      rw [hsame a ha]
      exact hc.made a ha
    · exact fun a e he hoid => hc.mem a e (hold he hoid) hoid
    · intro a ha e he hoid
      rw [hsame a ha] at he
      exact hc.only a ha e he hoid
    · intro a ha
      rw [hnext]
      exact hc.free a ha

-- ============================================================ the walk

/-- The walk stops behind the records below `pos` that follow its start. -/
theorem walk_spec {heap : String → Option (ListRec E)} {pos : Leid} {fuel : ℕ}
    {p p' : String} {rest : List String} {q : Option String}
    (hpath : Path (fun a => (heap a).bind ListRec.next) (some p) (p :: rest))
    (hwalk : walk heap pos fuel p = some (p', q)) :
    ∃ m l₂ l₁, rest = m ++ l₂ ∧ p :: m = l₁ ++ [p'] ∧ q = l₂.head? ∧
      (∀ a ∈ m, ∃ x, (heap a).bind ListRec.posId = some x ∧ x < pos) ∧
      ∀ a ∈ l₂.head?, ∃ x, (heap a).bind ListRec.posId = some x ∧ ¬ x < pos := by
  induction fuel generalizing p rest with
  | zero => cases hwalk
  | succ fuel ih =>
      obtain ⟨rp, hrp, hwalk⟩ := Option.bind_eq_some_iff.mp hwalk
      have hrest : Path (fun a => (heap a).bind ListRec.next) rp.next rest := by
        have htail : Path _ ((heap p).bind ListRec.next) rest := hpath.2
        rwa [hrp] at htail
      cases hnext : rp.next with
      | none =>
          rw [hnext] at hwalk hrest
          obtain ⟨rfl, rfl⟩ := Prod.mk.inj (Option.some.inj hwalk)
          obtain rfl : rest = [] := List.head?_eq_none_iff.mp hrest.head.symm
          exact ⟨[], [], [], rfl, rfl, rfl, (fun _ ha => nomatch ha), fun _ ha => nomatch ha⟩
      | some b =>
          rw [hnext] at hwalk hrest
          obtain ⟨rb, hrb, hwalk⟩ := Option.bind_eq_some_iff.mp hwalk
          obtain ⟨x, hx, hwalk⟩ := Option.bind_eq_some_iff.mp hwalk
          have hposb : (heap b).bind ListRec.posId = some x := by rw [hrb]; exact hx
          cases rest with
          | nil => cases hrest
          | cons c rest =>
              obtain rfl := Option.some.inj hrest.1
              split at hwalk
              · next hlt =>
                  obtain ⟨m, l₂, l₁, hm, hl₁, hq, hbelow, hstop⟩ := ih hrest hwalk
                  refine ⟨b :: m, l₂, p :: l₁, by rw [hm]; rfl, by rw [hl₁]; rfl, hq, ?_, hstop⟩
                  intro a ha
                  rcases List.mem_cons.mp ha with rfl | ha
                  · exact ⟨x, hposb, leidCmp_pos.mp hlt⟩
                  · exact hbelow a ha
              · next hge =>
                  obtain ⟨rfl, rfl⟩ := Prod.mk.inj (Option.some.inj hwalk)
                  refine ⟨[], b :: rest, [], rfl, rfl, rfl, (fun _ ha => nomatch ha), ?_⟩
                  intro a ha
                  obtain rfl := Option.some.inj ha
                  exact ⟨x, hposb, mt leidCmp_pos.mpr hge⟩

-- ================================================= what stays as it was

/-- Records keep everything but their pointers, and fields other than
`head` what they hold. -/
structure Relinked (K : ListKind n E) (h h' : Hash n) : Prop where
  entry : K.entry h' = K.entry h
  fields : ∀ f, f ≠ "head" → h'.fields f = h.fields f
  head : (h.fields "head").isSome → (h'.fields "head").isSome
  allocs : h'.allocs = h.allocs

theorem Relinked.trans {h'' : Hash n} (h₁ : K.Relinked h h') (h₂ : K.Relinked h' h'') :
    K.Relinked h h'' :=
  ⟨h₂.entry.trans h₁.entry, fun f hf => (h₂.fields f hf).trans (h₁.fields f hf),
    fun hs => h₂.head (h₁.head hs), h₂.allocs.trans h₁.allocs⟩

theorem relinked_setHead (hK : K.Lawful) (h : Hash n) (addr : String) :
    K.Relinked h (K.setHead h addr) := by
  refine ⟨?_, ?_, ?_, rfl⟩
  · funext a
    simp only [ListKind.entry, setHead, hK.heap_set]
  · intro f hf
    simp [setHead, Hash.set, hf]
  · intro _
    simp [setHead, Hash.set]

theorem entry_modify (hK : K.Lawful) (h : Hash n) (addr : String)
    (f : ListRec E → ListRec E) :
    K.entry (K.modify h addr f) = Function.update (K.entry h) addr
      ((K.heap h addr).map fun e => { f e with next := none }) := by
  funext a
  simp only [ListKind.entry, heap_modify hK]
  by_cases ha : a = addr
  · subst ha
    simp [Function.comp_def]
  · simp only [Function.update_of_ne ha]
    rfl

theorem relinked_modify (hK : K.Lawful) (h : Hash n) (addr : String) (next : Option String) :
    K.Relinked h (K.modify h addr fun e => { e with next := next }) := by
  refine ⟨?_, fun f _ => by rw [fields_modify hK], ?_, allocs_modify hK _⟩
  · rw [entry_modify hK]
    exact Function.update_eq_self addr (K.entry h)
  · intro hs
    rw [fields_modify hK]
    exact hs

theorem insertChain_relinked (hK : K.Lawful) {pos : Leid}
    (hins : K.insertChain h pre addr pos = some h') : K.Relinked h h' := by
  unfold insertChain at hins
  obtain ⟨head, -, hins⟩ := Option.bind_eq_some_iff.mp hins
  cases head with
  | none =>
      obtain rfl := Option.some.inj hins
      exact relinked_setHead hK h addr
  | some head =>
      obtain ⟨rh, -, hins⟩ := Option.bind_eq_some_iff.mp hins
      obtain ⟨hpos, -, hins⟩ := Option.bind_eq_some_iff.mp hins
      split at hins
      · obtain rfl := Option.some.inj hins
        exact (relinked_setHead hK h addr).trans (relinked_modify hK _ _ _)
      · obtain ⟨pre, -, hins⟩ := Option.bind_eq_some_iff.mp hins
        obtain ⟨p, -, hins⟩ := Option.bind_eq_some_iff.mp hins
        obtain ⟨pq, -, rfl⟩ := Option.map_eq_some_iff.mp hins
        exact (relinked_modify hK h _ _).trans (relinked_modify hK _ _ _)

-- ======================================================= the insertion

/-- Where a record with identifier `pos` goes: to the front, or behind the
records below it that follow a start. `start` is the record the message
names, `none` if that is the head. -/
inductive Spot (posAt : String → Option Leid) (start : Option String) (pos : Leid) :
    List String → List String → Prop
  | front {l : List String} (h : ∀ a ∈ l.head?, ∃ x, posAt a = some x ∧ pos < x) :
      Spot posAt start pos [] l
  | behind {l₀ m l₂ : List String} {s : String}
      (hhead : ∀ a ∈ (l₀ ++ [s]).head?, ∃ x, posAt a = some x ∧ ¬ pos < x)
      (hstart : l₀ = [] ∨ start = some s)
      (hbelow : ∀ a ∈ m, ∃ x, posAt a = some x ∧ x < pos)
      (hstop : ∀ a ∈ l₂.head?, ∃ x, posAt a = some x ∧ ¬ x < pos) :
      Spot posAt start pos (l₀ ++ s :: m) l₂

/-- A record named and hung into the chain, if it was not in it. -/
theorem Chain.relink (hc : K.Chain h l) (l' : List String)
    (hmem : ∀ a, a ∈ l' ↔ a = addr ∨ a ∈ l) (hnodup : l'.Nodup)
    (hall : ∀ a ∈ l, a ≠ addr → ∀ e, K.heap h a = some e → e.oid.isSome)
    {oid : String} {pos : Leid} (hmade : (K.heap h addr).isSome)
    (hheap : ∀ a, (K.heap h' a).map (fun e => (e.oid, e.posId))
      = if a = addr then some (some oid, some pos)
        else (K.heap h a).map fun e => (e.oid, e.posId))
    (hpath : Path (K.next h') l'.head? l')
    (hfree : ∀ a, a ∉ l' → K.next h' a = K.next h a)
    (hhead : K.getHead h' = some l'.head?)
    (hfields : ∀ f, f ≠ "head" → h'.fields f = h.fields f)
    (htaken : (h.fields "head").isSome → (h'.fields "head").isSome)
    (hallocs : h'.allocs = h.allocs) : K.Chain h' l' := by
  have hsome : ∀ a, (K.heap h' a).isSome = (K.heap h a).isSome := by
    intro a
    have heq := congrArg Option.isSome (hheap a)
    by_cases ha : a = addr
    · subst ha
      rw [hmade]
      simpa using heq
    · rw [if_neg ha] at heq
      simpa using heq
  have hback : ∀ a e', a ≠ addr → K.heap h' a = some e' → ∃ e, K.heap h a = some e ∧
      e.oid = e'.oid ∧ e.posId = e'.posId := by
    intro a e' ha he'
    have heq := hheap a
    rw [he', Option.map_some, if_neg ha] at heq
    obtain ⟨e, he, hval⟩ := Option.map_eq_some_iff.mp heq.symm
    simp only [Prod.mk.injEq] at hval
    exact ⟨e, he, hval⟩
  have hnew : ∀ e', K.heap h' addr = some e' → e'.oid = some oid ∧ e'.posId = some pos := by
    intro e' he'
    have heq := hheap addr
    rw [he', Option.map_some, if_pos rfl] at heq
    simpa using heq
  refine ⟨?_, ?_, hhead, hpath, hnodup, ?_, ?_, ?_, ?_, ?_, ?_⟩
  · intro a ha
    rw [hsome] at ha
    by_cases hah : a = "head"
    · subst hah
      exact htaken (hc.taken _ ha)
    · rw [hfields a hah]
      exact hc.taken a ha
  · intro f v a hne hv ha
    rw [hfields f hne] at hv
    exact hc.addr f v a hne hv ha
  · intro a ha
    rw [hsome]
    rcases (hmem a).mp ha with rfl | ha
    · exact hmade
    · exact hc.made a ha
  · intro a e' he' hoid
    by_cases ha : a = addr
    · exact (hmem a).mpr (Or.inl ha)
    · obtain ⟨e, he, ho, -⟩ := hback a e' ha he'
      exact (hmem a).mpr (Or.inr (hc.mem a e he (by rw [ho]; exact hoid)))
  · -- every record of the chain is positioned
    intro a ha e' he' hoid
    by_cases haa : a = addr
    · subst haa
      rw [(hnew e' he').1] at hoid
      cases hoid
    · obtain ⟨e, he, ho, -⟩ := hback a e' haa he'
      have hsome' := hall a (((hmem a).mp ha).resolve_left haa) haa e he
      rw [ho, hoid] at hsome'
      cases hsome'
  · intro a ha
    rw [hfree a ha]
    exact hc.free a fun hin => ha ((hmem a).mpr (Or.inr hin))
  · intro a e' he'
    by_cases ha : a = addr
    · subst ha
      rw [(hnew e' he').1, (hnew e' he').2]
      exact Iff.rfl
    · obtain ⟨e, he, ho, hp⟩ := hback a e' ha he'
      rw [← ho, ← hp]
      exact hc.posId a e he
  · obtain ⟨s, hcard, hs⟩ := hc.count
    refine ⟨s, hcard.trans hallocs.ge, fun a ha => hs a ?_⟩
    rw [← hsome]
    exact ha

/-- A record as an insert names and places it. -/
def named (oid content : String) (pos : Leid) (e : ListRec E) : ListRec E :=
  { e with oid := some oid, content := some content, posId := some pos }

/-- An insert finds the record placed, or names it and hangs it in. -/
theorem position_cases {oid content : String} {pos : Leid}
    (hpos : K.position h pre oid content addr pos = some h') :
    ∃ e, K.heap h addr = some e ∧
      (e.oid.isSome ∧ h' = h ∨ e.oid = none ∧
        K.insertChain (K.modify h addr (named oid content pos)) pre addr pos = some h') := by
  obtain ⟨e, he, hpos⟩ := Option.bind_eq_some_iff.mp hpos
  refine ⟨e, he, ?_⟩
  cases hoid : e.oid with
  | some oid' =>
      rw [hoid] at hpos
      exact Or.inl ⟨rfl, (Option.some.inj hpos).symm⟩
  | none =>
      rw [hoid] at hpos
      exact Or.inr ⟨rfl, hpos⟩

/-- Naming a record moves no pointer. -/
theorem next_named (hK : K.Lawful) {oid content : String} {pos : Leid} (b : String) :
    K.next (K.modify h addr (named oid content pos)) b = K.next h b := by
  unfold next
  rw [heap_modify hK]
  by_cases hb : b = addr
  · subst hb
    rw [Function.update_self]
    cases K.heap h b <;> rfl
  · rw [Function.update_of_ne hb]

theorem posAt_named (hK : K.Lawful) {oid content : String} {pos : Leid} {b : String}
    (hb : b ≠ addr) : K.posAt (K.modify h addr (named oid content pos)) b = K.posAt h b := by
  unfold posAt
  rw [heap_modify hK, Function.update_of_ne hb]

/-- What the pointers are after two writes to `next`. -/
theorem next_modify_modify (hK : K.Lawful) {p : String} {q : Option String}
    (hp : (K.heap h p).isSome) (ha : (K.heap h addr).isSome) (b : String) :
    K.next (K.modify (K.modify h p fun e => { e with next := some addr }) addr
        fun e => { e with next := q }) b
      = if b = addr then q else if b = p then some addr else K.next h b := by
  unfold next
  rw [heap_modify hK, heap_modify hK]
  by_cases hb : b = addr
  · subst hb
    rw [Function.update_self, if_pos rfl]
    by_cases hbp : b = p
    · subst hbp
      rw [Function.update_self]
      obtain ⟨e, he⟩ := Option.isSome_iff_exists.mp ha
      rw [he]
      rfl
    · rw [Function.update_of_ne hbp]
      obtain ⟨e, he⟩ := Option.isSome_iff_exists.mp ha
      rw [he]
      rfl
  · rw [Function.update_of_ne hb, if_neg hb]
    by_cases hbp : b = p
    · subst hbp
      rw [Function.update_self, if_pos rfl]
      obtain ⟨e, he⟩ := Option.isSome_iff_exists.mp hp
      rw [he]
      rfl
    · rw [Function.update_of_ne hbp, if_neg hbp]

/-- The three ways an insertion goes. -/
theorem insertChain_cases {pos : Leid} (hins : K.insertChain h pre addr pos = some h') :
    K.getHead h = some none ∧ h' = K.setHead h addr ∨
      ∃ head x, K.getHead h = some (some head) ∧ K.posAt h head = some x ∧
        (pos < x ∧ h' = K.modify (K.setHead h addr) addr
            (fun e => { e with next := some head }) ∨
          ¬ pos < x ∧ ∃ po s p q, K.find h pre = some po ∧
            startAt (K.heap h) po head = some s ∧
            walk (K.heap h) pos h.allocs s = some (p, q) ∧
            h' = K.modify (K.modify h p fun e => { e with next := some addr }) addr
              fun e => { e with next := q }) := by
  unfold insertChain at hins
  obtain ⟨head, hhead, hins⟩ := Option.bind_eq_some_iff.mp hins
  cases head with
  | none => exact Or.inl ⟨hhead, (Option.some.inj hins).symm⟩
  | some head =>
      obtain ⟨rh, hrh, hins⟩ := Option.bind_eq_some_iff.mp hins
      obtain ⟨x, hx, hins⟩ := Option.bind_eq_some_iff.mp hins
      refine Or.inr ⟨head, x, hhead, by rw [posAt, hrh]; exact hx, ?_⟩
      split at hins
      · next hlt => exact Or.inl ⟨leidCmp_neg.mp hlt, (Option.some.inj hins).symm⟩
      · next hge =>
          obtain ⟨po, hpo, hins⟩ := Option.bind_eq_some_iff.mp hins
          obtain ⟨s, hs, hins⟩ := Option.bind_eq_some_iff.mp hins
          obtain ⟨⟨p, q⟩, hwalk, rfl⟩ := Option.map_eq_some_iff.mp hins
          exact Or.inr ⟨mt leidCmp_neg.mpr hge, po, s, p, q, hpo, hs, hwalk, rfl⟩

/-- A walk starts at the head, or at a positioned record. -/
theorem startAt_cases {heap : String → Option (ListRec E)} {po : Option String}
    {head s : String} (hs : startAt heap po head = some s) :
    s = head ∨ po = some s ∧ ∃ e, heap s = some e ∧ e.posId.isSome := by
  unfold startAt at hs
  cases po with
  | none => exact Or.inl (Option.some.inj hs).symm
  | some p =>
      obtain ⟨rp, hrp, heq⟩ := Option.map_eq_some_iff.mp hs
      split at heq
      · next hsome =>
          subst heq
          exact Or.inr ⟨rfl, rp, hrp, hsome⟩
      · exact Or.inl heq.symm

/-- What is in the chain is positioned, if its head is. -/
theorem Chain.positioned (hc : K.Chain h l) {head : String} (hhead : l.head? = some head)
    (hpos : (K.posAt h head).isSome) :
    ∀ a ∈ l, ∀ e, K.heap h a = some e → e.oid.isSome := by
  intro a ha e he
  by_contra hnone
  have hl := hc.only a ha e he (Option.not_isSome_iff_eq_none.mp hnone)
  subst hl
  obtain rfl := Option.some.inj hhead
  rw [List.mem_singleton.mp ha] at he
  rw [posAt, he] at hpos
  exact hnone ((hc.posId _ e he).mp hpos)

/-- An insert hangs a record that has no place into the chain, and no
record twice. -/
theorem Chain.position (hK : K.Lawful) (hc : K.Chain h l) {oid content : String} {pos : Leid}
    {e : ListRec E} (he : K.heap h addr = some e) (hnone : e.oid = none)
    (hself : K.find h pre = some (some addr) → ∀ head x, l.head? = some head →
      K.posAt h head = some x → pos < x)
    (hins : K.insertChain (K.modify h addr (named oid content pos)) pre addr pos = some h') :
    (l = ["head"] ∧ addr = "head" ∧ K.Chain h' l) ∨
      addr ∉ l ∧ ∃ l₁ l₂, l = l₁ ++ l₂ ∧ K.Chain h' (l₁ ++ addr :: l₂) ∧
        Spot (K.posAt h) ((K.find h pre).getD none) pos l₁ l₂ := by
  set g := K.modify h addr (named oid content pos) with hg
  have hre : K.Relinked g h' := insertChain_relinked hK hins
  have hgheap : K.heap g = Function.update (K.heap h) addr (some (named oid content pos e)) := by
    rw [hg, heap_modify hK, he]
    rfl
  have hgaddr : (K.heap g addr).isSome := by
    rw [hgheap, Function.update_self]
    rfl
  have hgmade : ∀ a, (K.heap h a).isSome → (K.heap g a).isSome := by
    intro a ha
    by_cases haa : a = addr
    · rw [haa]
      exact hgaddr
    · rwa [hgheap, Function.update_of_ne haa]
  have hgfields : g.fields = h.fields := fields_modify hK _
  have hgnext : ∀ b, K.next g b = K.next h b := next_named hK
  have hghead : K.getHead g = some l.head? :=
    (getHead_congr (congrFun hgfields _)).trans hc.head
  have hgfind : K.find g pre = K.find h pre := find_congr (congrFun hgfields _)
  have hfields : ∀ f, f ≠ "head" → h'.fields f = h.fields f := fun f hf =>
    (hre.fields f hf).trans (congrFun hgfields f)
  have htaken : (h.fields "head").isSome → (h'.fields "head").isSome := fun hs =>
    hre.head (by rw [hgfields]; exact hs)
  have hallocs : h'.allocs = h.allocs := hre.allocs.trans (allocs_modify hK _)
  -- names and identifiers are those of `g`
  have hheap : ∀ a, (K.heap h' a).map (fun e => (e.oid, e.posId))
      = if a = addr then some (some oid, some pos)
        else (K.heap h a).map fun e => (e.oid, e.posId) := by
    intro a
    have hentry := congrFun hre.entry a
    have hval := congrArg (Option.map fun e : ListRec E => (e.oid, e.posId)) hentry
    simp only [ListKind.entry, Option.map_map, Function.comp_def] at hval
    rw [hval, hgheap]
    by_cases haa : a = addr
    · subst haa
      rw [Function.update_self, if_pos rfl]
      rfl
    · rw [Function.update_of_ne haa, if_neg haa]
  rcases insertChain_cases hins with ⟨hempty, rfl⟩ | ⟨head, x, hhead, hx, hcase⟩
  · -- the first record
    rw [hghead] at hempty
    obtain rfl : l = [] := List.head?_eq_none_iff.mp (Option.some.inj hempty)
    refine Or.inr ⟨List.not_mem_nil, [], [], rfl, ?_, .front fun _ ha => nomatch ha⟩
    have hnext' : ∀ b, K.next (K.setHead g addr) b = K.next h b := by
      intro b
      rw [← hgnext]
      simp only [next, setHead, hK.heap_set]
    refine hc.relink [addr] (fun a => by simp) (List.nodup_singleton _)
      (fun _ ha => nomatch ha) (by rw [he]; rfl) hheap ⟨rfl, ?_⟩ (fun a _ => hnext' a)
      (getHead_setHead hK) hfields htaken hallocs
    show K.next _ addr = none
    rw [hnext']
    exact hc.free addr List.not_mem_nil
  rw [hghead] at hhead
  have hl : l.head? = some head := Option.some.inj hhead
  by_cases hself' : head = addr
  · -- the record took the name `head` before it was placed
    subst hself'
    have hmem : head ∈ l := List.mem_of_head? hl
    have honly := hc.only head hmem e he hnone
    refine Or.inl ⟨honly, List.mem_singleton.mp (honly ▸ hmem), ?_⟩
    subst honly
    obtain rfl := List.mem_singleton.mp hmem
    have hend : K.next h "head" = none := hc.path.2
    have hxpos : x = pos := by
      rw [posAt, hgheap, Function.update_self] at hx
      exact (Option.some.inj hx).symm
    subst hxpos
    rcases hcase with ⟨hlt, -⟩ | ⟨-, po, s, p, q, hpo, hs, hwalk, rfl⟩
    · exact absurd hlt (lt_irrefl _)
    · have hstart : s = "head" := by
        rcases startAt_cases hs with hs | ⟨rfl, es, hes, hpos⟩
        · exact hs
        · by_contra hne
          rw [hgheap, Function.update_of_ne hne] at hes
          exact hne (List.mem_singleton.mp (hc.mem s es hes ((hc.posId s es hes).mp hpos)))
      subst hstart
      have hpath : Path (K.next g) (some "head") ["head"] := ⟨rfl, (hgnext _).trans hend⟩
      obtain ⟨m, l₂, l₁, hrest, hm, rfl, -, -⟩ := walk_spec hpath hwalk
      obtain ⟨rfl, rfl⟩ := List.append_eq_nil_iff.mp hrest.symm
      have hp : p = "head" := by
        cases l₁ with
        | nil => exact (List.cons.inj hm).1.symm
        | cons c l₁ => simp at hm
      subst hp
      have hnext' := next_modify_modify (q := none) hK hgaddr hgaddr
      refine hc.relink _ (fun a => by simp) (List.nodup_singleton _) ?_ (by rw [he]; rfl) hheap
        ⟨rfl, (hnext' _).trans (if_pos rfl)⟩ ?_ ?_ hfields htaken hallocs
      · exact fun a ha hne => absurd (List.mem_singleton.mp ha) hne
      · intro a ha
        have hne : a ≠ "head" := fun hcon => ha (List.mem_singleton.mpr hcon)
        refine (hnext' a).trans ?_
        rw [if_neg hne, if_neg hne, hgnext]
      · rw [← hghead]
        exact getHead_congr (by rw [fields_modify hK, fields_modify hK])
  -- a record that is in no chain yet
  have hnot : addr ∉ l := by
    intro hmem
    have honly := hc.only addr hmem e he hnone
    subst honly
    obtain rfl := Option.some.inj hl
    exact hself' (List.mem_singleton.mp hmem).symm
  have hnotin : ∀ a ∈ l, a ≠ addr := fun a ha hcon => hnot (hcon ▸ ha)
  have hxh : K.posAt h head = some x := by
    rw [← hx]
    exact (posAt_named hK hself').symm
  have hall := hc.positioned hl (by rw [hxh]; rfl)
  refine Or.inr ⟨hnot, ?_⟩
  rcases hcase with ⟨hlt, rfl⟩ | ⟨hge, po, s, p, q, hpo, hs, hwalk, rfl⟩
  · have hnext' : ∀ b, K.next (K.modify (K.setHead g addr) addr
        fun e => { e with next := some head }) b
        = if b = addr then some head else K.next h b := by
      intro b
      rw [← hgnext]
      unfold next
      rw [heap_modify hK]
      simp only [setHead, hK.heap_set]
      by_cases hb : b = addr
      · subst hb
        obtain ⟨eb, heb⟩ := Option.isSome_iff_exists.mp hgaddr
        rw [Function.update_self, heb, if_pos rfl]
        rfl
      · rw [Function.update_of_ne hb, if_neg hb]
    refine ⟨[], l, rfl, ?_, .front ?_⟩
    · refine hc.relink ([] ++ addr :: l) (fun a => by simp)
        (List.nodup_cons.mpr ⟨hnot, hc.nodup⟩) (fun a ha _ => hall a ha) (by rw [he]; rfl)
        hheap ?_ ?_ ?_ hfields htaken hallocs
      · refine hc.path.cons ?_ ?_
        · rw [hnext', if_pos rfl, hl]
        · intro b hb
          rw [hnext', if_neg (hnotin b hb)]
      · intro a ha
        rw [hnext', if_neg fun hcon => ha (by rw [hcon]; exact List.mem_cons_self)]
      · have hset : K.getHead (K.setHead g addr) = some (some addr) := getHead_setHead hK
        exact (getHead_congr (by rw [fields_modify hK])).trans hset
    · intro a ha
      rw [hl] at ha
      obtain rfl := Option.some.inj ha
      exact ⟨x, hxh, hlt⟩
  · have hsl : s ∈ l := by
      rcases startAt_cases hs with rfl | ⟨rfl, es, hes, hpos⟩
      · exact List.mem_of_head? hl
      · have hne : s ≠ addr := by
          intro hcon
          rw [hgfind, hcon] at hpo
          exact hge (hself hpo head x hl hxh)
        rw [hgheap, Function.update_of_ne hne] at hes
        exact hc.mem s es hes ((hc.posId s es hes).mp hpos)
    obtain ⟨l₀, rest, hsplit⟩ := List.append_of_mem hsl
    have hchain := hc.path
    rw [hsplit] at hchain
    have hpath : Path (K.next g) (some s) (s :: rest) := by
      refine ⟨rfl, ?_⟩
      rw [hgnext]
      exact hchain.after.congr fun a _ => hgnext a
    obtain ⟨m, l₂, l₁, hrest, hm, rfl, hbelow, hstop⟩ := walk_spec hpath hwalk
    have hsplit' : l = (l₀ ++ l₁) ++ p :: l₂ := by
      rw [hsplit, hrest, ← List.cons_append, hm]
      simp
    have hjoin : (l₀ ++ s :: m) ++ addr :: l₂ = (l₀ ++ l₁) ++ p :: addr :: l₂ := by
      rw [hm]
      simp
    have hl₁₂ : l = (l₀ ++ s :: m) ++ l₂ := by
      rw [hsplit, hrest]
      simp
    have hpl : p ∈ l := by
      rw [hsplit']
      simp
    have hnext' := next_modify_modify (q := l₂.head?) hK (hgmade p (hc.made p hpl)) hgaddr
    refine ⟨l₀ ++ s :: m, l₂, hl₁₂, ?_, .behind ?_ ?_ ?_ ?_⟩
    · refine hc.relink _ ?_ ?_ (fun a ha _ => hall a ha) (by rw [he]; rfl) hheap ?_ ?_ ?_
        hfields htaken hallocs
      · intro a
        rw [Linked.mem_insert, hl₁₂]
      · exact Linked.nodup_insert (hl₁₂ ▸ hc.nodup) (hl₁₂ ▸ hnot)
      · have hnd := hc.nodup
        rw [hsplit', List.nodup_middle, List.nodup_cons] at hnd
        have hstart : ((l₀ ++ l₁) ++ p :: addr :: l₂).head? = l.head? := by
          rw [hsplit']
          cases l₀ ++ l₁ <;> rfl
        rw [hjoin, hstart]
        have hchain' := hc.path
        rw [hsplit'] at hchain' ⊢
        refine hchain'.insert ?_ ?_ ?_
        · rw [hnext', if_neg (hnotin p hpl), if_pos rfl]
        · rw [hnext', if_pos rfl]
        · intro b hb
          have hbl : b ∈ l := by
            rw [hsplit']
            rcases List.mem_append.mp hb with hb | hb
            · exact List.mem_append_left _ hb
            · exact List.mem_append_right _ (List.mem_cons_of_mem p hb)
          have hbp : b ≠ p := fun hcon => hnd.1 (hcon ▸ hb)
          rw [hnext', if_neg (hnotin b hbl), if_neg hbp, hgnext]
      · intro a ha
        have hal : a ∉ l := by
          intro hcon
          rw [hl₁₂] at hcon
          exact ha (Linked.mem_insert.mpr (Or.inr hcon))
        have haa : a ≠ addr := fun hcon => ha (Linked.mem_insert.mpr (Or.inl hcon))
        have hap : a ≠ p := fun hcon => hal (hcon ▸ hpl)
        rw [hnext', if_neg haa, if_neg hap, hgnext]
      · have hfront : (l₀ ++ s :: m ++ addr :: l₂).head? = l.head? := by
          rw [hl₁₂]
          cases l₀ <;> rfl
        rw [hfront, ← hghead]
        exact getHead_congr (by rw [fields_modify hK, fields_modify hK])
    · intro a ha
      have hfront : (l₀ ++ [s]).head? = l.head? := by
        rw [hsplit]
        cases l₀ <;> rfl
      rw [hfront, hl] at ha
      obtain rfl := Option.some.inj ha
      exact ⟨x, hxh, hge⟩
    · rcases startAt_cases hs with rfl | ⟨rfl, -⟩
      · left
        cases l₀ with
        | nil => rfl
        | cons c l₀ =>
            have hnd := hc.nodup
            rw [hsplit] at hl hnd
            obtain rfl := Option.some.inj hl
            simp at hnd
      · right
        rw [← hgfind, hpo]
        rfl
    · intro a ha
      have hal : a ∈ l := by
        rw [hl₁₂]
        simp [ha]
      obtain ⟨y, hy, hlt⟩ := hbelow a ha
      exact ⟨y, (posAt_named hK (hnotin a hal)).symm.trans hy, hlt⟩
    · intro a ha
      have hal : a ∈ l := by
        rw [hl₁₂]
        exact List.mem_append_right _ (List.mem_of_head? ha)
      obtain ⟨y, hy, hlt⟩ := hstop a ha
      exact ⟨y, (posAt_named hK (hnotin a hal)).symm.trans hy, hlt⟩

end ListKind

end CrdtRedis
