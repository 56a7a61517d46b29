/-
The chain is in the order of the identifiers, at every server, if every
element is placed anew at most once.

An insert is applied with the identifier its origin made, from a chain
that may look different, and the walk starts at the predecessor named
there. What carries over is one relation: the identifier of an element is
the one given to it by the only insert that placed it anew (`Given`), so
the predecessor, wherever it is positioned, has the identifier the new one
was made to exceed. Identifiers end in the maker's id and a count of its
own, so no two are equal, and the place the walk finds is the only one.
-/
import CrdtRedis.ListInsert
import Mathlib.Data.List.Sort
import Mathlib.Algebra.BigOperators.Fin
import Mathlib.Algebra.Order.BigOperators.Group.Finset

namespace CrdtRedis

open Replication
open Linked (Path)

variable {n : ℕ} {E M : Type}

-- ================================================================ order

/-- A chain that is what the list should be: without a cycle, with every
element that has an identifier once, and ascending. -/
structure ListKind.Ordered (K : ListKind n E) (h : Hash n) (l : List String) : Prop where
  head : K.getHead h = some l.head?
  path : Path (K.next h) l.head? l
  nodup : l.Nodup
  sorted : l.Pairwise fun a b => ∃ x y, K.posAt h a = some x ∧ K.posAt h b = some y ∧
    leidCmp x y < 0
  complete : ∀ a, a ∈ l ↔ (K.posAt h a).isSome

/-- Identifier `x` was given to element `a` by an insert that placed it
anew. -/
def Given (op : M → ListOp) (k : Config n (Option (Hash n)) M) (a : String) (x : Leid) : Prop :=
  ∃ o ∈ k.sent, ∃ i, op o.msg = .insert i ∧ cText i.pre ≠ "readd" ∧ i.oid = a ∧ i.pos = x

/-- Every element has one identifier and every identifier one element. -/
structure OneToOne (R : String → Leid → Prop) : Prop where
  functional : ∀ {a x y}, R a x → R a y → x = y
  injective : ∀ {a b x}, R a x → R b x → a = b

namespace ListKind

variable {K : ListKind n E} {R : String → Leid → Prop} {h h' : Hash n} {l : List String}
  {me : Fin n} {i : Placement} {addr : String}

/-- The chain `l` of `h` ascends in the identifiers `R` gives. -/
structure Ascends (K : ListKind n E) (R : String → Leid → Prop) (h : Hash n)
    (l : List String) : Prop where
  chain : K.Chain h l
  placed : ∀ a ∈ l, (K.posAt h a).isSome
  given : ∀ a x, K.posAt h a = some x → R a x
  sorted : l.Pairwise fun a b => ∀ x y, R a x → R b y → x < y

theorem Ascends.sound (ha : K.Ascends R h l) : K.Sound h :=
  ⟨ha.chain.taken, ha.chain.addr, ha.chain.posId⟩

theorem Ascends.quiet (ha : K.Ascends R h l) (hq : K.Quiet h h') : K.Ascends R h' l := by
  have hpos := hq.still.posAt
  refine ⟨ha.chain.quiet hq, ?_, ?_, ha.sorted⟩
  · rw [hpos]
    exact ha.placed
  · rw [hpos]
    exact ha.given

theorem Ascends.make (hK : K.Lawful) (ha : K.Ascends R h l) {key : String}
    (hkey : key ≠ "head") (hget : K.findOrCreate me h key = some (h', addr)) :
    K.Ascends R h' l := by
  have hpos := (ha.sound.still_make hK hget).posAt
  rcases ha.chain.findOrCreate hK hget with hc | ⟨-, hcon, -⟩
  · refine ⟨hc, ?_, ?_, ha.sorted⟩
    · rw [hpos]
      exact ha.placed
    · rw [hpos]
      exact ha.given
  · exact absurd hcon hkey

/-- The records before a spot are below the identifier that goes there, and
those behind it above. -/
theorem Ascends.spot (hR : OneToOne R) (ha : K.Ascends R h l) {l₁ l₂ : List String}
    (hl : l = l₁ ++ l₂) (hnot : addr ∉ l) (hpos : R addr i.pos)
    (hpre : ∀ s, i.pre ≠ "head" → K.find h i.pre = some (some s) → ∀ x, R s x → x < i.pos)
    (hspot : Spot (K.posAt h) ((K.find h i.pre).getD none) i.pos l₁ l₂) :
    (∀ a ∈ l₁, ∀ x, R a x → x < i.pos) ∧ ∀ b ∈ l₂, ∀ y, R b y → i.pos < y := by
  have hsorted := ha.sorted
  -- a record that is not below is above, since identifiers differ
  have hne : ∀ {a x}, a ∈ l → K.posAt h a = some x → x ≠ i.pos := by
    intro a x hal hx hcon
    rw [hcon] at hx
    have heq := hR.injective (ha.given a _ hx) hpos
    exact hnot (heq ▸ hal)
  have htail : ∀ {c rest}, (c :: rest).Pairwise (fun a b => ∀ x y, R a x → R b y → x < y) →
      ∀ x, R c x → i.pos < x → ∀ b ∈ c :: rest, ∀ y, R b y → i.pos < y := by
    intro c rest hsort x hx hlt b hb y hy
    rcases List.mem_cons.mp hb with rfl | hb
    · rwa [hR.functional hy hx]
    · exact hlt.trans ((List.pairwise_cons.mp hsort).1 b hb x y hx hy)
  cases hspot with
  | front hfront =>
      refine ⟨(fun _ hmem => nomatch hmem), ?_⟩
      intro b hb y hy
      cases l₂ with
      | nil => cases hb
      | cons c rest =>
          obtain ⟨x, hx, hlt⟩ := hfront c rfl
          rw [hl] at hsorted
          exact htail hsorted x (ha.given c x hx) hlt b hb y hy
  | behind hhead hstart hbelow hstop =>
      rename_i l₀ m s
      have hsl : s ∈ l := by
        rw [hl]
        simp
      obtain ⟨x, hx⟩ := Option.isSome_iff_exists.mp (ha.placed s hsl)
      have hRx := ha.given s x hx
      -- the start is the head or the predecessor, and below either way
      have hfirst : (l₀ ++ [s]).head? = some s → x < i.pos := by
        intro hs
        obtain ⟨x', hx', hge⟩ := hhead s hs
        rw [hx] at hx'
        obtain rfl := Option.some.inj hx'
        exact lt_of_le_of_ne (not_lt.mp hge) (hne hsl hx)
      have hslt : x < i.pos := by
        rcases hstart with rfl | hstart
        · exact hfirst rfl
        · have hfind : K.find h i.pre = some (some s) := by
            cases hf : K.find h i.pre with
            | none =>
                rw [hf] at hstart
                cases hstart
            | some o =>
                rw [hf] at hstart
                exact congrArg some hstart
          by_cases hph : i.pre = "head"
          · refine hfirst ?_
            rw [hph] at hfind
            have hlh := ha.chain.head
            rw [show K.getHead h = some (some s) from hfind, hl] at hlh
            rw [Option.some.inj hlh]
            cases l₀ <;> rfl
          · exact hpre s hph hfind x hRx
      have hsplit : l = l₀ ++ s :: (m ++ l₂) := by
        rw [hl]
        simp
      constructor
      · intro a hal y hy
        rcases List.mem_append.mp hal with hal | hal
        · rw [hsplit] at hsorted
          exact ((List.pairwise_append.mp hsorted).2.2 a hal s List.mem_cons_self y x hy hRx).trans
            hslt
        · rcases List.mem_cons.mp hal with rfl | ham
          · rwa [hR.functional hy hRx]
          · obtain ⟨z, hz, hlt⟩ := hbelow a ham
            rwa [hR.functional hy (ha.given a z hz)]
      · intro b hb y hy
        cases l₂ with
        | nil => cases hb
        | cons c rest =>
            obtain ⟨z, hz, hge⟩ := hstop c rfl
            have hcl : c ∈ l := by
              rw [hl]
              simp
            have hlt := lt_of_le_of_ne (not_lt.mp hge) (hne hcl hz).symm
            rw [hl] at hsorted
            exact htail (List.pairwise_append.mp hsorted).2.1 z (ha.given c z hz) hlt b hb y hy

theorem Ascends.place (hK : K.Lawful) (hR : OneToOne R) (ha : K.Ascends R h l)
    (hname : i.oid ≠ "head") (hfind : K.find h i.oid = some (some addr))
    (hself : i.pre ≠ i.oid) (hpos : R i.oid i.pos) (hpre : ∀ x, R i.pre x → x < i.pos)
    (hplace : K.position h i.pre i.oid i.content addr i.pos = some h') :
    ∃ l', K.Ascends R h' l' := by
  obtain rfl := ha.sound.find hname hfind
  obtain ⟨e, he, ⟨-, rfl⟩ | ⟨hoid, hins⟩⟩ := position_cases hplace
  · exact ⟨l, ha⟩
  have hnone := ha.sound.posAt_none he hoid
  have hnot : i.oid ∉ l := by
    intro hmem
    have hsome := ha.placed _ hmem
    rw [hnone] at hsome
    cases hsome
  -- the insert does not name its own record as predecessor
  have hother : K.find h i.pre ≠ some (some i.oid) := by
    intro hcon
    by_cases hph : i.pre = "head"
    · rw [hph] at hcon
      have hhead := ha.chain.head
      rw [show K.getHead h = some (some i.oid) from hcon] at hhead
      exact hnot (List.mem_of_head? (Option.some.inj hhead).symm)
    · exact hself (ha.sound.find hph hcon).symm
  rcases ha.chain.position hK he hoid (fun hcon => absurd hcon hother) hins with ⟨-, hcon, -⟩ |
    ⟨-, l₁, l₂, hl, hchain, hspot⟩
  · exact absurd hcon hname
  obtain ⟨hbelow, habove⟩ := ha.spot hR hl hnot hpos
    (fun s hph hs x hx => hpre x (ha.sound.find hph hs ▸ hx)) hspot
  have hposAt : K.posAt h' = Function.update (K.posAt h) i.oid (some i.pos) := by
    rcases ha.sound.posAt_place hK hplace with ⟨-, hsome⟩ | ⟨-, heq⟩
    · rw [hnone] at hsome
      cases hsome
    · exact heq
  refine ⟨l₁ ++ i.oid :: l₂, hchain, ?_, ?_, ?_⟩
  · intro a hal
    rw [hposAt]
    by_cases haa : a = i.oid
    · rw [haa, Function.update_self]
      rfl
    · rw [Function.update_of_ne haa]
      refine ha.placed a ?_
      rw [hl]
      exact (Linked.mem_insert.mp hal).resolve_left haa
  · intro a x hx
    rw [hposAt] at hx
    by_cases haa : a = i.oid
    · subst haa
      rw [Function.update_self] at hx
      exact Option.some.inj hx ▸ hpos
    · rw [Function.update_of_ne haa] at hx
      exact ha.given a x hx
  · have hsorted := ha.sorted
    rw [hl] at hsorted
    refine Linked.pairwise_insert hsorted ?_ ?_
    · intro a hal x y hx hy
      rw [hR.functional hy hpos]
      exact hbelow a hal x hx
    · intro b hb x y hx hy
      rw [hR.functional hx hpos]
      exact habove b hb y hy

/-- An ascending chain is ordered. -/
theorem Ascends.ordered (ha : K.Ascends R h l) : K.Ordered h l := by
  refine ⟨ha.chain.head, ha.chain.path, ha.chain.nodup, ?_, ?_⟩
  · refine ha.sorted.imp_of_mem ?_
    intro a b hal hbl hlt
    obtain ⟨x, hx⟩ := Option.isSome_iff_exists.mp (ha.placed a hal)
    obtain ⟨y, hy⟩ := Option.isSome_iff_exists.mp (ha.placed b hbl)
    exact ⟨x, y, hx, hy, leidCmp_neg.mpr (hlt x y (ha.given a x hx) (ha.given b y hy))⟩
  · intro a
    refine ⟨ha.placed a, fun hsome => ?_⟩
    obtain ⟨x, hx⟩ := Option.isSome_iff_exists.mp hsome
    obtain ⟨e, he, hex⟩ := Option.bind_eq_some_iff.mp hx
    exact ha.chain.mem a e he ((ha.chain.posId a e he).mp (by rw [hex]; rfl))

/-- Two ascending chains of the same elements are the same. -/
theorem Ascends.unique {g : Hash n} {l' : List String} (ha : K.Ascends R h l)
    (ha' : K.Ascends R g l') (hmem : ∀ a, a ∈ l ↔ a ∈ l') : l = l' := by
  refine List.Perm.eq_of_pairwise ?_ ha.sorted ha'.sorted
    ((List.perm_ext_iff_of_nodup ha.chain.nodup ha'.chain.nodup).mpr hmem)
  intro a b hal hbl hab hba
  obtain ⟨x, hx⟩ := Option.isSome_iff_exists.mp (ha.placed a hal)
  obtain ⟨y, hy⟩ := Option.isSome_iff_exists.mp (ha'.placed b hbl)
  have hxR := ha.given a x hx
  have hyR := ha'.given b y hy
  exact absurd (hab x y hxR hyR) (hba y x hyR hxR).asymm

end ListKind

-- ================================================================ runs

/-- The names that mean something else to a list than an element; `null` and
`readd` are compared with `strcmp`, so that what follows a NUL does not
count. -/
def reservedNames : List String := ["null", "readd", "head", "current", "length", "ops"]

section

variable {K : ListKind n E} {ok : String → Prop} {op : M → ListOp}
  {k : Config n (Option (Hash n)) M} {applied : Fin n → List Placement}

/-- The elements of all inserts have names that are `ok`. -/
theorem ListRun.sent_ok (hrun : ListRun K ok op k applied) :
    ∀ o ∈ k.sent, ∀ i, op o.msg = .insert i → ok i.oid :=
  (hrun.induct (J := fun _ _ _ => True) (Q := fun o => ∀ i, op o.msg = .insert i → ok i.oid)
    (F := fun _ => True) (fun _ _ => trivial) (fun _ => trivial) (fun _ _ _ => trivial)
    fun _ _ hacc i hi => (hacc i hi).2).2

/-- In a run where identifiers and elements determine each other, the
chains ascend. -/
theorem ListRun.ascends (hrun : ListRun K ok op k applied) (hK : K.Lawful)
    (hheap : ∀ a, K.heap (Hash.empty : Hash n) a = none) (hok : ∀ a, ok a → cText a ∉ reservedNames)
    (hR : OneToOne (Given op k)) (r : Fin n) :
    ∃ l, K.Ascends (Given op k) ((k.site r).getD .empty) l := by
  have hgiven : ∀ {a x}, Given op k a x → cText a ∉ reservedNames := by
    intro a x hgive
    obtain ⟨o, ho, i, hi, _, hoid, _⟩ := hgive
    exact hok a (hoid ▸ hrun.sent_ok o ho i hi)
  have hind := hrun.induct (J := fun _ _ h => ∃ l, K.Ascends (Given op k) h l)
    (Q := fun o => ∀ i, op o.msg = .insert i → Given op k i.oid i.pos ∧ i.pre ≠ i.oid ∧
      ∀ x, Given op k i.pre x → x < i.pos) (F := fun o => o ∈ k.sent) (fun _ ho => ho) ?_ ?_ ?_
  · exact hind.1 r
  · intro r
    refine ⟨[], K.chain_empty hheap, (fun _ ha => nomatch ha), ?_, List.Pairwise.nil⟩
    intro a x hx
    rw [ListKind.posAt, hheap] at hx
    cases hx
  · intro r L L' h h' hJ hm hL'
    refine hm.invariant (J := fun g => ∃ l, K.Ascends (Given op k) g l) ?_ ?_ ?_ hJ
    · intro g g' hJ hq
      obtain ⟨l, ha⟩ := hJ
      exact ⟨l, ha.quiet hq⟩
    · intro g g' key addr hJ hkey hget
      obtain ⟨l, ha⟩ := hJ
      refine ⟨l, ha.make hK ?_ hget⟩
      intro hcon
      exact hok key hkey (by rw [hcon]; decide)
    · intro g g' i addr hJ hi hoki hfind hpos
      obtain ⟨l, ha⟩ := hJ
      obtain ⟨o, -, hQ, hop⟩ := hL' i hi
      obtain ⟨hpair, hself, hpre⟩ := hQ i hop
      refine ha.place hK hR ?_ hfind hself hpair hpre hpos
      intro hcon
      exact hok i.oid hoki (by rw [hcon]; decide)
  · intro r L h w u m hJ hsent hacc i hi
    obtain ⟨l, ha⟩ := hJ
    obtain ⟨hacc, hoki⟩ := hacc i hi
    have hname := hok i.oid hoki
    have hne : ∀ {word}, cText word ∈ reservedNames → word ≠ i.oid := by
      intro word hword hcon
      exact hname (hcon ▸ hword)
    have hhead : i.oid ≠ "head" := (hne (by decide)).symm
    cases hacc with
    | fresh hnone hpre hword hpos =>
        refine ⟨⟨_, hsent, i, hi, hpre, rfl, rfl⟩, ?_⟩
        generalize hip : i.pre = p at hword
        cases hword with
        | missing hfind hlow =>
            have hnull : cText (sdstolower w) ∈ reservedNames := by
              rw [hlow]
              decide
            exact ⟨hne hnull, fun x hx => absurd hnull (hgiven hx)⟩
        | found hfind hsome =>
            rename_i a
            obtain ⟨y, hy⟩ := Option.isSome_iff_exists.mp hsome
            refine ⟨?_, ?_⟩
            · -- the predecessor has a place and the element has none
              intro hcon
              rw [← hcon, ListKind.posOf, hfind] at hnone
              rw [show K.posAt h a = none from hnone] at hsome
              cases hsome
            · intro x hx
              have hwh : w ≠ "head" := by
                intro hcon
                exact hgiven hx (by rw [hcon]; decide)
              obtain rfl := ha.sound.find hwh hfind
              rw [hR.functional hx (ha.given a y hy), hpos, ListKind.gap_found hfind, hy]
              exact lt_constructLeid y _ _
    | again hpre hpos =>
        obtain ⟨a, hfind, hx⟩ := ListKind.posOf_posAt hpos
        obtain rfl := ha.sound.find hhead hfind
        have hreadd : cText i.pre ∈ reservedNames := by
          rw [hpre]
          decide
        exact ⟨ha.given _ _ hx, hne hreadd, fun x hx => absurd hreadd (hgiven hx)⟩

end

-- ==================================================== distinct identifiers

/-- The sum of a clock's entries, as `constructLeid` counts. -/
theorem sum_finRange (v : Fin n → ℤ) : ((List.finRange n).map v).sum = ∑ j, v j :=
  (Fin.sum_univ_def v).symm

theorem sum_update_succ (v : Fin n → ℤ) (j : Fin n) :
    ∑ q, Function.update v j (v j + 1) q = ∑ q, v q + 1 := by
  rw [Finset.sum_update_of_mem (Finset.mem_univ j),
    Finset.sum_eq_add_sum_sdiff_singleton_of_mem (Finset.mem_univ j) v]
  omega

/-- What an identifier ends in. -/
theorem constructLeid_getLast (p q : Option Leid) (t : Vc n) :
    ∃ x, (constructLeid p q t).getLast? = some ⟨x, t.id, ∑ j, t.vector j⟩ := by
  rw [← sum_finRange]
  exact ⟨_, List.getLast?_concat⟩

/-- The identifier of a fresh insert into a remove-wins list ends in its
server and the sum of its timestamp. -/
theorem rl_fresh_last {dbl : String → Option ℤ} {allowed : List String → Prop}
    {k : Config n (Option (Hash n)) (RlMsg n)}
    (hk : Reachable rlType.service
      (.once fun argv => allowed argv ∧ (rlType (n := n)).Submits dbl argv) k) :
    ∀ o ∈ k.sent, ∀ i, o.msg.cmd.op = .insert i → cText i.pre ≠ "readd" →
      ∃ x, i.pos.getLast? = some ⟨x, o.src, ∑ j, o.msg.t.vector j - 1⟩ := by
  refine hk.sent_forall (Q := fun o => ∀ i, o.msg.cmd.op = .insert i → cText i.pre ≠ "readd" →
    ∃ x, i.pos.getLast? = some ⟨x, o.src, ∑ j, o.msg.t.vector j - 1⟩) ?_
  intro k r argv s m u hr _ hall hp i hi hpre
  have hC := rl_causal (n := n) fun argv => allowed argv ∧ (rlType (n := n)).Submits dbl argv
  have hid : (((k.site r).getD .empty).now r).id = r := hC.inv hr r
  have hrun : ListRun rleKind (fun _ => True) (fun m : RlMsg n => m.cmd.op) k _ :=
    rl_run (fun _ _ => trivial) hr
  have hs := (hrun.placeable rleKind_lawful (fun _ => rfl) r).sound
  obtain ⟨-, hacc⟩ := (rl_prepared (fun _ => True) hall.2 hs trivial hp).issue m rfl
  obtain ⟨-, -, -, -, -, ht, -⟩ := (rl_service_prepare hp).2 m rfl
  cases hacc i hi with
  | again hcon _ => exact absurd hcon hpre
  | fresh _ _ _ hpos =>
      obtain ⟨x, hx⟩ := constructLeid_getLast
        (rleKind.gap ((k.site r).getD .empty) (argv.getD 2 "")).1
        (rleKind.gap ((k.site r).getD .empty) (argv.getD 2 "")).2 (((k.site r).getD .empty).now r)
      refine ⟨x, ?_⟩
      have hsum : ∑ j, m.t.vector j - 1 = ∑ j, (((k.site r).getD .empty).now r).vector j := by
        rw [ht]
        show ∑ j, Function.update _ _ _ j - 1 = _
        rw [sum_update_succ]
        omega
      rw [hpos, hx, hid, ← hsum]

/-- No two fresh inserts into a remove-wins list get the same
identifier. -/
theorem rl_fresh_distinct {dbl : String → Option ℤ} {allowed : List String → Prop}
    {k : Config n (Option (Hash n)) (RlMsg n)}
    (hk : Reachable rlType.service
      (.once fun argv => allowed argv ∧ (rlType (n := n)).Submits dbl argv) k)
    {o o' : Op n (RlMsg n)} (ho : o ∈ k.sent) (ho' : o' ∈ k.sent) {i i' : Placement}
    (hi : o.msg.cmd.op = .insert i) (hi' : o'.msg.cmd.op = .insert i')
    (hpre : cText i.pre ≠ "readd")
    (hpre' : cText i'.pre ≠ "readd") (hpos : i.pos = i'.pos) : o = o' := by
  have hC := rl_causal (n := n) fun argv => allowed argv ∧ (rlType (n := n)).Submits dbl argv
  have hd := hC.delivery hk
  obtain ⟨x, hx⟩ := rl_fresh_last hk o ho i hi hpre
  obtain ⟨x', hx'⟩ := rl_fresh_last hk o' ho' i' hi' hpre'
  rw [hpos, hx'] at hx
  injection Option.some.inj hx with _ hpid hcount
  have hsrc : o.src = o'.src := by
    have hcast : (o'.src : ℕ) = o.src := by exact_mod_cast hpid
    exact Fin.ext hcast.symm
  have hsum : ∑ j, o'.msg.t.vector j = ∑ j, o.msg.t.vector j := by omega
  -- the timestamps of one server are ordered, so equal sums make them equal
  have heq : o.msg.t.vector = o'.msg.t.vector := by
    rcases hd.stamp_total ho ho' hsrc with hle | hle
    · have hle : ∀ j, o.msg.t.vector j ≤ o'.msg.t.vector j := hle
      exact funext fun j =>
        (Finset.sum_eq_sum_iff_of_le fun j _ => hle j).mp hsum.symm j (Finset.mem_univ j)
    · have hle : ∀ j, o'.msg.t.vector j ≤ o.msg.t.vector j := hle
      exact funext fun j =>
        ((Finset.sum_eq_sum_iff_of_le fun j _ => hle j).mp hsum j (Finset.mem_univ j)).symm
  refine hd.eq_of_seq ho ho' hsrc ?_
  show o.msg.t.vector o.src = o'.msg.t.vector o'.src
  rw [heq, hsrc]

/-- No broadcast moves the clock of an RWF list. -/
theorem RwflOp.apply_clock {me : Fin n} {h h' : Hash n} {m : RwflOp n}
    (happ : m.apply me h = some h') : h'.clock = h.clock := by
  have hmake : ∀ {oid : String} {p : Hash n × String},
      rwfleKind.findOrCreate me h oid = some p → p.1.clock = h.clock := fun hget =>
    ListKind.clock_findOrCreate rwfleKind_lawful ListKind.rwfleKind_plain hget
  cases m with
  | insert i v t =>
      obtain ⟨p, hget, happ⟩ := Option.bind_eq_some_iff.mp happ
      obtain ⟨h₁, hrem, happ⟩ := Option.bind_eq_some_iff.mp happ
      obtain ⟨h₂, hpos, hadd⟩ := Option.bind_eq_some_iff.mp happ
      rw [Rwfl.wrote_clock (Rwfl.addFunc_wrote hadd),
        ListKind.clock_position rwfleKind_lawful hpos,
        Rwfl.wrote_clock (Rwfl.removeFunc_wrote hrem), hmake hget]
  | update oid type value lt t =>
      obtain ⟨p, hget, happ⟩ := Option.bind_eq_some_iff.mp happ
      obtain ⟨h₁, hrem, hupd⟩ := Option.bind_eq_some_iff.mp happ
      rw [Rwfl.wrote_clock (Rwfl.updateFunc_wrote hupd),
        Rwfl.wrote_clock (Rwfl.removeFunc_wrote hrem), hmake hget]
  | rem oid t =>
      obtain ⟨p, hget, hrem⟩ := Option.bind_eq_some_iff.mp happ
      rw [Rwfl.wrote_clock (Rwfl.removeFunc_wrote hrem), hmake hget]

/-- What a preparation does to the clock: a fresh insert counts, with an
identifier that ends in the sum before, and nothing else does. -/
theorem rwfl_prepare_now {dbl : String → Option ℤ} {r : Fin n} {argv : List String}
    {ho ho' : Option (Hash n)} {mo : Option (RwflOp n)}
    (hsub : (rwflType (n := n)).Submits dbl argv)
    (hp : rwflType.service.prepare r argv ho = some (ho', mo)) :
    (ho'.getD .empty).clock = (ho.getD .empty).clock ∧
        (∀ m i, mo = some m → m.op = .insert i → cText i.pre = "readd") ∨
      (ho'.getD .empty).clock = some (vcInc ((ho.getD .empty).now r) r) ∧
        ∀ m i, mo = some m → m.op = .insert i → ∃ x, i.pos.getLast?
          = some ⟨x, ((ho.getD .empty).now r).id, ∑ j, ((ho.getD .empty).now r).vector j⟩ := by
  have hprep := rwfl_prepared (fun _ => True) hsub trivial hp
  cases mo with
  | none => exact Or.inl ⟨hprep.clock rfl, fun _ _ hcon => by cases hcon⟩
  | some m =>
      cases hprep.issue m rfl with
      | @insert pre preArg addr h₁ h₂ e pos v hc hpre hget he hhid hplace =>
          have hclock := ListKind.clock_findOrCreate rwfleKind_lawful
            ListKind.rwfleKind_plain hget
          have hnow := ListKind.now_findOrCreate rwfleKind_lawful ListKind.rwfleKind_plain hget
          rcases ListKind.placeAt_cases ListKind.rwfleKind_plain hplace with ⟨rfl, hre⟩ |
            ⟨rfl, -, -, p, q, hpos⟩
          · refine Or.inl ⟨hclock, ?_⟩
            intro m i hm hi
            obtain rfl := Option.some.inj hm
            injection hi with hi
            rw [← hi]
            exact hre pos rfl
          · refine Or.inr ⟨by rw [← hnow]; exact Hash.clock_set_current _ _, ?_⟩
            intro m i hm hi
            obtain rfl := Option.some.inj hm
            injection hi with hi
            injection hpos with hpos
            rw [← hi, ← hnow]
            show ∃ x, pos.getLast? = _
            rw [hpos]
            exact constructLeid_getLast p q _
      | update hc hho hfind he hex =>
          subst hho
          refine Or.inl ⟨rfl, ?_⟩
          intro m i hm hi
          obtain rfl := Option.some.inj hm
          cases hi
      | rem hc hho hfind he hex =>
          subst hho
          refine Or.inl ⟨rfl, ?_⟩
          intro m i hm hi
          obtain rfl := Option.some.inj hm
          cases hi

theorem Hash.now_of_clock {h : Hash n} {c : Vc n} (hc : h.clock = some c) (me : Fin n) :
    h.now me = c := by
  simp [Hash.now, hc]

section

variable {dbl : String → Option ℤ} {allowed : List String → Prop}
  {k : Config n (Option (Hash n)) (RwflOp n)}

/-- A server's clock of an RWF list has the server's own id. -/
theorem rwfl_now_id (hk : Reachable rwflType.service
      (.once fun argv => allowed argv ∧ (rwflType (n := n)).Submits dbl argv) k) (r : Fin n) :
    (((k.site r).getD .empty).now r).id = r := by
  refine hk.site_forall (I := fun r ho => ((ho.getD .empty).now r).id = r) ?_ ?_ ?_ r
  · intro r
    rfl
  · intro r argv ho ho' mo hall hid hp
    rcases rwfl_prepare_now hall.2 hp with ⟨hclock, -⟩ | ⟨hclock, -⟩
    · unfold Hash.now at hid ⊢
      rwa [hclock]
    · rw [Hash.now_of_clock hclock]
      rfl
  · intro r o ho ho' _ hid he
    obtain ⟨h', happ, rfl⟩ := Option.map_eq_some_iff.mp he
    unfold Hash.now at hid ⊢
    rwa [Option.getD_some, RwflOp.apply_clock happ]

/-- The identifier of a fresh insert into an RWF list ends in its
server. -/
theorem rwfl_fresh_last (hk : Reachable rwflType.service
      (.once fun argv => allowed argv ∧ (rwflType (n := n)).Submits dbl argv) k) :
    ∀ o ∈ k.sent, ∀ i, o.msg.op = .insert i → cText i.pre ≠ "readd" →
      ∃ x y, i.pos.getLast? = some ⟨x, o.src, y⟩ := by
  refine hk.sent_forall (Q := fun o => ∀ i, o.msg.op = .insert i → cText i.pre ≠ "readd" →
    ∃ x y, i.pos.getLast? = some ⟨x, o.src, y⟩) ?_
  intro k r argv s m u hr _ hall hp i hi hpre
  rcases rwfl_prepare_now hall.2 hp with ⟨-, hre⟩ | ⟨-, hlast⟩
  · exact absurd (hre m i rfl hi) hpre
  · obtain ⟨x, hx⟩ := hlast m i rfl hi
    rw [rwfl_now_id hr r] at hx
    exact ⟨x, _, hx⟩

/-- The clock of a server is past the fresh inserts it made. -/
theorem rwfl_fresh_count (hk : Reachable rwflType.service
      (.once fun argv => allowed argv ∧ (rwflType (n := n)).Submits dbl argv) k) :
    ∀ o ∈ k.sent, ∀ i, o.msg.op = .insert i → cText i.pre ≠ "readd" →
      ∃ p c, i.pos.getLast? = some p ∧ ((k.site o.src).getD .empty).clock = some c ∧
        p.count < ∑ j, c.vector j := by
  refine hk.own_forall (Q := fun o ho => ∀ i, o.msg.op = .insert i → cText i.pre ≠ "readd" →
      ∃ p c, i.pos.getLast? = some p ∧ (ho.getD .empty).clock = some c ∧
        p.count < ∑ j, c.vector j) ?_ ?_ ?_
  · intro r argv u ho ho' ho'' m hall hp he i hi hpre
    obtain ⟨h', happ, rfl⟩ := Option.map_eq_some_iff.mp he
    rcases rwfl_prepare_now hall.2 hp with ⟨-, hre⟩ | ⟨hclock, hlast⟩
    · exact absurd (hre m i rfl hi) hpre
    · obtain ⟨x, hx⟩ := hlast m i rfl hi
      refine ⟨_, _, hx, (RwflOp.apply_clock happ).trans hclock, ?_⟩
      show _ < ∑ j, Function.update _ _ _ j
      rw [sum_update_succ]
      exact Int.lt_succ _
  · intro o r argv ho ho' mo hall hQ hp i hi hpre
    obtain ⟨p, c, hlast, hc, hlt⟩ := hQ i hi hpre
    rcases rwfl_prepare_now hall.2 hp with ⟨hclock, -⟩ | ⟨hclock, -⟩
    · exact ⟨p, c, hlast, hclock.trans hc, hlt⟩
    · rw [Hash.now_of_clock hc] at hclock
      refine ⟨p, _, hlast, hclock, ?_⟩
      show _ < ∑ j, Function.update _ _ _ j
      rw [sum_update_succ]
      omega
  · intro o r m ho ho' hQ he i hi hpre
    obtain ⟨p, c, hlast, hc, hlt⟩ := hQ i hi hpre
    obtain ⟨h', happ, rfl⟩ := Option.map_eq_some_iff.mp he
    exact ⟨p, c, hlast, (RwflOp.apply_clock happ).trans hc, hlt⟩

/-- No two fresh inserts into an RWF list get the same identifier. -/
theorem rwfl_fresh_distinct (hk : Reachable rwflType.service
      (.once fun argv => allowed argv ∧ (rwflType (n := n)).Submits dbl argv) k)
    {o o' : Op n (RwflOp n)} (ho : o ∈ k.sent) (ho' : o' ∈ k.sent) {i i' : Placement}
    (hi : o.msg.op = .insert i) (hi' : o'.msg.op = .insert i') (hpre : cText i.pre ≠ "readd")
    (hpre' : cText i'.pre ≠ "readd") (hpos : i.pos = i'.pos) : o = o' := by
  have hpairs := hk.sent_pairs (Q := fun o o' => ∀ i i', o.msg.op = .insert i →
    o'.msg.op = .insert i' → cText i.pre ≠ "readd" → cText i'.pre ≠ "readd" → i.pos ≠ i'.pos) ?_
  · by_contra hne
    rcases hpairs o ho o' ho' hne with hQ | hQ
    · exact hQ i i' hi hi' hpre hpre' hpos
    · exact hQ i' i hi' hi hpre' hpre hpos.symm
  intro k r argv s m u hr hall hp o ho i i' hi hi' hpre hpre' hpos
  rcases rwfl_prepare_now hall.2 hp with ⟨-, hre⟩ | ⟨-, hlast⟩
  · exact hpre' (hre m i' rfl hi')
  obtain ⟨x', hx'⟩ := hlast m i' rfl hi'
  obtain ⟨x, y, hx⟩ := rwfl_fresh_last hr o ho i hi hpre
  obtain ⟨p, c, hp', hc, hlt⟩ := rwfl_fresh_count hr o ho i hi hpre
  rw [rwfl_now_id hr r, ← hpos, hx] at hx'
  rw [hx] at hp'
  obtain rfl := Option.some.inj hp'
  injection Option.some.inj hx' with _ hpid hcount
  have hsrc : o.src = r := Fin.ext (by exact_mod_cast hpid)
  rw [hsrc] at hc
  rw [Hash.now_of_clock hc] at hcount
  exact absurd hlt (by rw [← hcount]; exact lt_irrefl _)

end

-- ========================================================== the network

/-- The broadcast of an insert (command `c`) of element `oid` into list
`tname`. -/
structure Inserts (c : Cmd) (tname oid : String) (rargv : List (Arg n)) : Prop where
  name : cmdOfMsg rargv = some c
  list : strAt 1 rargv = some tname
  oid : (Placement.ofVector rargv).oid = oid

/-- The broadcast of an insert that gives element `oid` a place anew: the
preparation accepts any predecessor but `readd` for a record without an
oid, and only `readd` for one that has it. -/
structure PlacesAnew (c : Cmd) (tname oid : String) (rargv : List (Arg n)) : Prop
    extends Inserts c tname oid rargv where
  anew : cText (Placement.ofVector rargv).pre ≠ "readd"

/-- Every element of list `tname` is placed anew at most once. -/
def PlacedOnce (c : Cmd) (tname : String) (k : Net n) : Prop :=
  ∀ oid, ∀ o ∈ k.sent, ∀ o' ∈ k.sent, PlacesAnew c tname oid o.msg →
    PlacesAnew c tname oid o'.msg → o = o'

/-- The inserts that place an element anew are one. -/
theorem PlacedOnce.eq {T : ListType n M} {op : M → ListOp} {c : Cmd} {k : Net n}
    {tname : String} (hT : T.InsertsBy op c) (honce : PlacedOnce c tname k) {o o' : Op n M}
    (ho : o ∈ (T.readAt tname k).sent) (ho' : o' ∈ (T.readAt tname k).sent) {i i' : Placement}
    (hi : op o.msg = .insert i) (hi' : op o'.msg = .insert i') (hpre : cText i.pre ≠ "readd")
    (hpre' : cText i'.pre ≠ "readd") (hoid : i.oid = i'.oid) : i = i' := by
  obtain ⟨o₀, ho₀, -, hc, hlist, rfl⟩ := hT.sent ho hi
  obtain ⟨o₀', ho₀', -, hc', hlist', rfl⟩ := hT.sent ho' hi'
  rw [honce _ o₀ ho₀ o₀' ho₀' ⟨⟨hc, hlist, hoid⟩, hpre⟩ ⟨⟨hc', hlist', rfl⟩, hpre'⟩]

theorem PlacedOnce.functional {T : ListType n M} {op : M → ListOp} {c : Cmd} {k : Net n}
    {tname : String} (hT : T.InsertsBy op c) (honce : PlacedOnce c tname k) {a : String}
    {x y : Leid} (hx : Given op (T.readAt tname k) a x) (hy : Given op (T.readAt tname k) a y) :
    x = y := by
  obtain ⟨o, ho, i, hi, hpre, hoid, rfl⟩ := hx
  obtain ⟨o', ho', i', hi', hpre', hoid', rfl⟩ := hy
  rw [honce.eq hT ho ho' hi hi' hpre hpre' (hoid.trans hoid'.symm)]

/-- What the servers' chains of list `tname` should be. -/
structure ListsOrdered (K : ListKind n E) (c : Cmd) (tname : String) (k : Net n) : Prop where
  ordered : ∀ r, ∃ l, K.Ordered (listAt (k.site r) tname) l
  distinct : ∀ o ∈ k.sent, ∀ o' ∈ k.sent, ∀ oid oid', PlacesAnew c tname oid o.msg →
    PlacesAnew c tname oid' o'.msg →
    (Placement.ofVector o.msg).pos = (Placement.ofVector o'.msg).pos → o = o'
  same : ∀ r r' l l', K.Ordered (listAt (k.site r) tname) l →
    K.Ordered (listAt (k.site r') tname) l' →
    (∀ a, (K.posAt (listAt (k.site r) tname) a).isSome ↔
      (K.posAt (listAt (k.site r') tname) a).isSome) → l = l'

/-- The chain of a list is what its pointers make it. -/
theorem ListKind.Ordered.unique {K : ListKind n E} {h : Hash n} {l l' : List String}
    (hl : K.Ordered h l) (hl' : K.Ordered h l') : l = l' := by
  have hhead := hl.head.symm.trans hl'.head
  have hpath := hl.path
  rw [Option.some.inj hhead] at hpath
  exact hpath.unique hl'.path

/-- The lists of a family are ordered, if the identifiers its preparations
make are distinct and every element is placed anew once. -/
theorem ListRun.listsOrdered {K : ListKind n E} {T : ListType n M} {op : M → ListOp} {c : Cmd}
    {k : Net n} {tname : String} {applied : Fin n → List Placement}
    (hrun : ListRun K (fun a => cText a ∉ reservedNames) op (T.readAt tname k) applied)
    (hK : K.Lawful) (hheap : ∀ a, K.heap (Hash.empty : Hash n) a = none)
    (hT : T.InsertsBy op c) (hmem : ∀ o ∈ k.sent, T.Member o.msg) (hledger : k.Ledger)
    (hdistinct : ∀ {o o'}, o ∈ (T.readAt tname k).sent → o' ∈ (T.readAt tname k).sent →
      ∀ {i i'}, op o.msg = .insert i → op o'.msg = .insert i' → cText i.pre ≠ "readd" →
      cText i'.pre ≠ "readd" → i.pos = i'.pos → o = o')
    (honce : PlacedOnce c tname k) : ListsOrdered K c tname k := by
  have hR : OneToOne (Given op (T.readAt tname k)) := by
    refine ⟨fun hx hy => PlacedOnce.functional hT honce hx hy, ?_⟩
    intro a b x hga hgb
    obtain ⟨o, ho, i, hi, hpre, hoid, hx⟩ := hga
    obtain ⟨o', ho', i', hi', hpre', hoid', hx'⟩ := hgb
    obtain rfl := hdistinct ho ho' hi hi' hpre hpre' (hx.trans hx'.symm)
    rw [hi] at hi'
    injection hi' with hii
    rw [← hoid, ← hoid', hii]
  have hasc := hrun.ascends hK hheap (fun _ ha => ha) hR
  refine ⟨?_, ?_, ?_⟩
  · intro r
    obtain ⟨l, hl⟩ := hasc r
    exact ⟨l, hl.ordered⟩
  · intro o ho o' ho' oid oid' hanew hanew' hpos
    obtain ⟨m, hop, hm⟩ := hT.read (hmem o ho) hanew.name hanew.list
    obtain ⟨m', hop', hm'⟩ := hT.read (hmem o' ho') hanew'.name hanew'.list
    have heq : (⟨o.uid, o.src, m⟩ : Op n M) = ⟨o'.uid, o'.src, m'⟩ :=
      hdistinct (ListType.mem_readAt_sent.mpr ⟨o, ho, hop, rfl, rfl⟩)
        (ListType.mem_readAt_sent.mpr ⟨o', ho', hop', rfl, rfl⟩) hm hm' hanew.anew hanew'.anew
        hpos
    injection heq with huid _ _
    exact hledger.uid_inj o ho o' ho' huid
  · intro r r' l l' hl hl' hsame
    obtain ⟨m, hm⟩ := hasc r
    obtain ⟨m', hm'⟩ := hasc r'
    obtain rfl := hl.unique hm.ordered
    obtain rfl := hl'.unique hm'.ordered
    refine hm.unique hm' fun a => ?_
    rw [hl.complete, hl'.complete]
    exact hsame a

/-- The vectors of the commands `cmds` that name an element with no word of
the list's own. -/
def Unreserved (cmds : List Cmd) (argv : List String) : Prop :=
  Issues cmds argv ∧ cText (listOid argv) ∉ reservedNames

instance (cmds : List Cmd) : DecidablePred (Unreserved cmds) :=
  fun _ => inferInstanceAs (Decidable (_ ∧ _))

/-- In runs that name no element with a word of the list's own and place
every element anew at most once, the chains of both lists are acyclic,
ascending and complete, identifiers are distinct, and servers that have
placed the same elements have the same chain. -/
theorem lists_ordered (dbl : String → Option ℤ) {k k' : Net n} (tname : String)
    (hk : Reachable (crdtService dbl) (.once (Unreserved rlCmds)) k)
    (hk' : Reachable (crdtService dbl) (.once (Unreserved rwflCmds)) k')
    (honce : PlacedOnce .rlinsert tname k) (honce' : PlacedOnce .rwflinsert tname k') :
    ListsOrdered rleKind .rlinsert tname k ∧ ListsOrdered rwfleKind .rwflinsert tname k' := by
  constructor
  · have hat := ListType.reachable_once (ListType.hallowed rl_commands fun _ h => h.1) hk tname
    have hmem := ListType.sent_member (ListType.hallowed rl_commands fun _ h => h.1) hk
    exact (rl_run (fun _ h => h.2) hat).listsOrdered rleKind_lawful (fun _ => rfl) rl_insertsBy
      hmem hk.ledger (rl_fresh_distinct hat) honce
  · have hat := ListType.reachable_once (ListType.hallowed rwfl_commands fun _ h => h.1) hk' tname
    have hmem := ListType.sent_member (ListType.hallowed rwfl_commands fun _ h => h.1) hk'
    exact (rwfl_run (fun _ h => h.2) hat).listsOrdered rwfleKind_lawful (fun _ => rfl)
      rwfl_insertsBy hmem hk'.ledger (rwfl_fresh_distinct hat) honce'

/-- Two servers insert at the front at the same time and exchange the
broadcasts. -/
def twoFronts (c : String) : List (Act 2 (List String)) :=
  [.submit 0 [c, "l", "null", "a", "text", "0", "0", "0", "0"],
    .submit 1 [c, "l", "null", "b", "text", "0", "0", "0", "0"],
    .deliver 1 0, .deliver 0 1]

/-- Two concurrent inserts at the front are in the same order at both
servers, in both lists. -/
theorem lists_ordered_fronts : ∃ k k' : Net 2,
    Reachable (crdtService getLongLongFromObject) (.once (Unreserved rlCmds)) k ∧
    Reachable (crdtService getLongLongFromObject) (.once (Unreserved rwflCmds)) k' ∧
    k.sent.length = 2 ∧ k'.sent.length = 2 ∧
    ListsOrdered rleKind .rlinsert "l" k ∧ ListsOrdered rwfleKind .rwflinsert "l" k' := by
  obtain ⟨k, hrun, hlen, honce⟩ : ∃ k,
      (crdtService getLongLongFromObject).run (crdtService getLongLongFromObject).start
        (twoFronts "rlinsert") = some k ∧ k.sent.length = 2 ∧
      ∀ o ∈ k.sent, ∀ o' ∈ k.sent,
        (Placement.ofVector o.msg).oid = (Placement.ofVector o'.msg).oid → o.uid = o'.uid :=
    ⟨_, rfl, by decide, by decide⟩
  obtain ⟨k', hrun', hlen', honce'⟩ : ∃ k,
      (crdtService getLongLongFromObject).run (crdtService getLongLongFromObject).start
        (twoFronts "rwflinsert") = some k ∧ k.sent.length = 2 ∧
      ∀ o ∈ k.sent, ∀ o' ∈ k.sent,
        (Placement.ofVector o.msg).oid = (Placement.ofVector o'.msg).oid → o.uid = o'.uid :=
    ⟨_, rfl, by decide, by decide⟩
  have hk : Reachable (crdtService getLongLongFromObject) (.once (Unreserved rlCmds)) k :=
    Service.run_reachable (by decide) hrun
  have hk' : Reachable (crdtService getLongLongFromObject) (.once (Unreserved rwflCmds)) k' :=
    Service.run_reachable (by decide) hrun'
  have hlists := lists_ordered getLongLongFromObject "l" hk hk'
    (fun oid o ho o' ho' h h' => hk.ledger.uid_inj o ho o' ho'
      (honce o ho o' ho' (h.oid.trans h'.oid.symm)))
    fun oid o ho o' ho' h h' => hk'.ledger.uid_inj o ho o' ho'
      (honce' o ho o' ho' (h.oid.trans h'.oid.symm))
  exact ⟨k, k', hk, hk', hlen, hlen', hlists.1, hlists.2⟩

end CrdtRedis
