/-
The identifiers list elements are placed by (`leid_cmp`, `constructLeid`
of list_basics.c).

`leid_cmp` is the lexicographic order: by `pos`, then `pid`, then `count`
at the first position that differs, and an identifier before its
extensions. `constructLeid` looks for the first position where the `pos`
fields of the two bounds are at least two apart and puts the new position
there, behind a copy of the left bound.

# Where the copy goes wrong

Past the end of the left bound the copy goes on with the RIGHT bound. If
the left bound is a proper prefix of the right one and the search runs
past the end of that, the copy is the whole of the right bound and the
result comes after it (`Leid.Blocked`). In every other case the result is
between the bounds (`constructLeid_lt_iff`).
-/
import CrdtRedis.Basic
import Mathlib.Data.List.Lex
import Mathlib.Data.Prod.Lex

namespace CrdtRedis

-- ========================================================== the order

instance : LinearOrder Position :=
  LinearOrder.lift' (fun p => toLex (p.pos, toLex (p.pid, p.count))) (by
    intro p q h
    have hpair := toLex.injective h
    have hrest := toLex.injective (Prod.mk.inj hpair).2
    cases p
    cases q
    simp_all)

theorem Position.lt_iff {p q : Position} : p < q ↔ p.pos < q.pos ∨ p.pos = q.pos ∧
    (p.pid < q.pid ∨ p.pid = q.pid ∧ p.count < q.count) := by
  show toLex (p.pos, toLex (p.pid, p.count)) < toLex (q.pos, toLex (q.pid, q.count)) ↔ _
  rw [Prod.Lex.toLex_lt_toLex, Prod.Lex.toLex_lt_toLex]

theorem Position.lt_of_pos {p q : Position} (h : p.pos < q.pos) : p < q :=
  Position.lt_iff.mpr (Or.inl h)

theorem posCmp_neg {p q : Position} : posCmp p q < 0 ↔ p < q := by
  rw [Position.lt_iff]
  unfold posCmp
  split_ifs <;> omega

theorem posCmp_eq_zero {p q : Position} : posCmp p q = 0 ↔ p = q := by
  cases p
  cases q
  simp only [posCmp, Position.mk.injEq]
  split_ifs <;> omega

theorem posCmp_comm (p q : Position) : posCmp p q = -posCmp q p := by
  unfold posCmp
  split_ifs <;> omega

theorem leidCmp_comm (p q : Leid) : leidCmp p q = -leidCmp q p := by
  induction p generalizing q with
  | nil => cases q <;> simp [leidCmp]
  | cons x p ih =>
      cases q with
      | nil => simp [leidCmp]
      | cons y q =>
          unfold leidCmp
          have hzero : posCmp x y = 0 ↔ posCmp y x = 0 := by
            rw [posCmp_comm x y, neg_eq_zero]
          by_cases h : posCmp y x = 0
          · rw [if_neg (not_not.mpr h), if_neg (not_not.mpr (hzero.mpr h)), ih]
          · rw [if_pos h, if_pos (mt hzero.mp h), posCmp_comm]

theorem leidCmp_neg {p q : Leid} : leidCmp p q < 0 ↔ p < q := by
  induction p generalizing q with
  | nil =>
      cases q with
      | nil => simp [leidCmp]
      | cons y q =>
          refine iff_of_true ?_ (List.nil_lt_cons y q)
          simp only [leidCmp, List.length_nil, List.length_cons]
          omega
  | cons x p ih =>
      cases q with
      | nil =>
          refine iff_of_false ?_ (List.not_lt_nil _)
          simp only [leidCmp, List.length_nil, List.length_cons]
          omega
      | cons y q =>
          rw [List.cons_lt_cons_iff]
          unfold leidCmp
          by_cases h : posCmp x y = 0
          · rw [if_neg (not_not.mpr h), ih, posCmp_eq_zero.mp h]
            simp
          · rw [if_pos h, posCmp_neg]
            have hne : x ≠ y := mt posCmp_eq_zero.mpr h
            simp [hne]

theorem leidCmp_pos {p q : Leid} : 0 < leidCmp p q ↔ q < p := by
  rw [leidCmp_comm, ← leidCmp_neg]
  omega

-- ===================================== the construction, by recursion

namespace Leid

/-- The `pos` field at the front, `d` if there is none. -/
def front (d : ℤ) (p : Leid) : ℤ := (p.head?.map Position.pos).getD d

/-- The position copied from the fronts of the bounds; `null` is a left
bound that is a null pointer. -/
def copied (null : Bool) (fill : Position) (p q : Leid) : Position :=
  if null then ⟨0, 0, 0⟩ else p.head?.getD (q.head?.getD fill)

/-- `constructLeid`, position by position. -/
def build (null : Bool) (pid count : ℤ) : ℕ → Leid → Leid → Leid
  | 0, p, _ => [⟨p.front 0 + 1, pid, count⟩]
  | fuel + 1, p, q =>
      if q.front base - p.front 0 < 2 then
        copied null ⟨0, pid, count⟩ p q :: build null pid count fuel p.tail q.tail
      else [⟨p.front 0 + 1, pid, count⟩]

end Leid

theorem lprefix_tail (p : Option Leid) (i : ℕ) :
    lprefix p (i + 1) = lprefix (p.map List.tail) i := by
  cases p with
  | none => rfl
  | some p =>
      unfold lprefix
      cases p <;> simp

theorem rprefix_tail (q : Option Leid) (i : ℕ) :
    rprefix q (i + 1) = rprefix (q.map List.tail) i := by
  cases q with
  | none => rfl
  | some q =>
      unfold rprefix
      cases q <;> simp

theorem lprefix_zero (p : Option Leid) : lprefix p 0 = (p.getD []).front 0 := by
  cases p with
  | none => rfl
  | some p => cases p <;> rfl

theorem rprefix_zero (q : Option Leid) : rprefix q 0 = (q.getD []).front base := by
  cases q with
  | none => rfl
  | some q => cases q <;> rfl

theorem gapIndex_tail (p q : Option Leid) (fuel i : ℕ) :
    gapIndex p q fuel (i + 1) = gapIndex (p.map List.tail) (q.map List.tail) fuel i + 1 := by
  induction fuel generalizing i with
  | zero => rfl
  | succ fuel ih =>
      simp only [gapIndex, lprefix_tail, rprefix_tail]
      split
      · exact ih (i + 1)
      · rfl

theorem leidFill_tail (p q : Option Leid) (fill : Position) (i : ℕ) :
    leidFill p q fill (i + 1) = leidFill (p.map List.tail) (q.map List.tail) fill i := by
  cases p with
  | none => rfl
  | some p =>
      cases q with
      | none => cases p <;> simp [leidFill]
      | some q => cases p <;> cases q <;> simp [leidFill]

theorem leidFill_zero (p q : Option Leid) (fill : Position) :
    leidFill p q fill 0 = Leid.copied p.isNone fill (p.getD []) (q.getD []) := by
  cases p with
  | none => rfl
  | some p =>
      cases q with
      | none => cases p <;> rfl
      | some q => cases p <;> cases q <;> rfl

/-- The loops of `constructLeid` and the recursion build the same. -/
theorem build_eq (p q : Option Leid) (pid count : ℤ) (fuel : ℕ) :
    (List.range (gapIndex p q fuel 0)).map (leidFill p q ⟨0, pid, count⟩)
        ++ [{ pos := lprefix p (gapIndex p q fuel 0) + 1, pid := pid, count := count }]
      = Leid.build p.isNone pid count fuel (p.getD []) (q.getD []) := by
  induction fuel generalizing p q with
  | zero => simp [gapIndex, Leid.build, lprefix_zero]
  | succ fuel ih =>
      unfold gapIndex Leid.build
      rw [lprefix_zero, rprefix_zero]
      by_cases hgap : (q.getD []).front base - (p.getD []).front 0 < 2
      · rw [if_pos hgap, if_pos hgap, gapIndex_tail, List.range_succ_eq_map, List.map_cons,
          List.map_map, leidFill_zero, lprefix_tail, List.cons_append]
        have hfill : (leidFill p q ⟨0, pid, count⟩ ∘ Nat.succ)
            = leidFill (p.map List.tail) (q.map List.tail) ⟨0, pid, count⟩ :=
          funext fun i => leidFill_tail p q _ i
        have htail : ∀ o : Option Leid, (o.map List.tail).getD [] = (o.getD []).tail := by
          intro o
          cases o <;> rfl
        rw [hfill, ih, htail, htail, Option.isNone_map]
      · rw [if_neg hgap, if_neg hgap, lprefix_zero]
        rfl

theorem constructLeid_eq {n : ℕ} (p q : Option Leid) (t : Vc n) :
    constructLeid p q t = Leid.build p.isNone t.id ((List.finRange n).map t.vector).sum
      (max (leidDepth p) (leidDepth q)) (p.getD []) (q.getD []) :=
  build_eq p q _ _ _

-- ===================================================== between the bounds

namespace Leid

variable {null : Bool} {pid count : ℤ} {fuel : ℕ} {p q : Leid}

/-- The left bound is a proper prefix of the right one, and no position of
the right one past it leaves room. -/
def Blocked (p q : Leid) : Prop :=
  ∃ rest, rest ≠ [] ∧ q = p ++ rest ∧ ∀ x ∈ rest, x.pos < 2

theorem blocked_nil_cons {y : Position} :
    Blocked [] (y :: q) ↔ y.pos < 2 ∧ (q = [] ∨ Blocked [] q) := by
  unfold Blocked
  simp only [List.nil_append]
  constructor
  · intro ⟨rest, _, heq, hall⟩
    subst heq
    refine ⟨hall y List.mem_cons_self, ?_⟩
    by_cases hq : q = []
    · exact Or.inl hq
    · exact Or.inr ⟨q, hq, rfl, fun x hx => hall x (List.mem_cons_of_mem y hx)⟩
  · intro ⟨hy, hq⟩
    refine ⟨y :: q, by simp, rfl, ?_⟩
    intro x hx
    rcases List.mem_cons.mp hx with rfl | hx
    · exact hy
    · rcases hq with rfl | ⟨rest, -, rfl, hall⟩
      · cases hx
      · exact hall x hx

theorem blocked_cons_cons {x y : Position} :
    Blocked (x :: p) (y :: q) ↔ x = y ∧ Blocked p q := by
  unfold Blocked
  simp only [List.cons_append, List.cons.injEq]
  constructor
  · intro ⟨rest, hne, ⟨hxy, hq⟩, hall⟩
    exact ⟨hxy.symm, rest, hne, hq, hall⟩
  · intro ⟨hxy, rest, hne, hq, hall⟩
    exact ⟨rest, hne, ⟨hxy.symm, hq⟩, hall⟩

/-- What is built comes after the left bound. -/
theorem lt_build (hfuel : p.length ≤ fuel) : p < build false pid count fuel p q := by
  induction fuel generalizing p q with
  | zero =>
      obtain rfl := List.eq_nil_of_length_eq_zero (Nat.le_zero.mp hfuel)
      exact List.nil_lt_cons _ _
  | succ fuel ih =>
      unfold build
      cases p with
      | nil => split <;> exact List.nil_lt_cons _ _
      | cons x p =>
          split
          · exact List.cons_lt_cons_iff.mpr (Or.inr ⟨rfl, ih (Nat.le_of_succ_le_succ hfuel)⟩)
          · refine List.cons_lt_cons_iff.mpr (Or.inl (Position.lt_of_pos ?_))
            exact lt_add_one x.pos

/-- What is built comes before the right bound, unless that is blocked. -/
theorem build_lt_iff (hfuel : max p.length q.length ≤ fuel) (hpq : p < q) :
    build false pid count fuel p q < q ↔ ¬ Blocked p q := by
  induction fuel generalizing p q with
  | zero =>
      have hq : q = [] := List.eq_nil_of_length_eq_zero (by omega)
      rw [hq] at hpq
      exact absurd hpq (List.not_lt_nil p)
  | succ fuel ih =>
      unfold build
      cases q with
      | nil => exact absurd hpq (List.not_lt_nil p)
      | cons y q =>
          simp only [List.length_cons] at hfuel
          cases p with
          | nil =>
              rw [blocked_nil_cons]
              by_cases hgap : y.pos < 2
              · -- the front of the right bound is copied
                have hfront : front base (y :: q) - front 0 [] < 2 := by
                  simp only [front, List.head?_cons, List.head?_nil, Option.map_some,
                    Option.map_none, Option.getD_some, Option.getD_none]
                  omega
                rw [if_pos hfront, and_iff_right hgap]
                show y :: build false pid count fuel [] q < y :: q ↔ _
                rw [List.cons_lt_cons_iff]
                simp only [lt_irrefl, true_and, false_or]
                cases q with
                | nil => simp
                | cons z q => simpa using ih (by simpa using hfuel) (List.nil_lt_cons z q)
              · have hfront : ¬ front base (y :: q) - front 0 [] < 2 := by
                  simp only [front, List.head?_cons, List.head?_nil, Option.map_some,
                    Option.map_none, Option.getD_some, Option.getD_none]
                  omega
                rw [if_neg hfront]
                refine iff_of_true ?_ fun h => hgap h.1
                refine List.cons_lt_cons_iff.mpr (Or.inl (Position.lt_of_pos ?_))
                show (0 : ℤ) + 1 < y.pos
                omega
          | cons x p =>
              rw [blocked_cons_cons]
              simp only [List.length_cons] at hfuel
              split
              · show x :: build false pid count fuel p q < y :: q ↔ _
                rw [List.cons_lt_cons_iff]
                rcases List.cons_lt_cons_iff.mp hpq with hxy | ⟨rfl, hlt⟩
                · exact iff_of_true (Or.inl hxy) fun h => hxy.ne h.1
                · simpa using ih (by omega) hlt
              · next hgap =>
                  have hwide : ¬ y.pos - x.pos < 2 := hgap
                  have hlt : x.pos + 1 < y.pos := by omega
                  refine iff_of_true ?_ fun h => ?_
                  · exact List.cons_lt_cons_iff.mpr (Or.inl (Position.lt_of_pos hlt))
                  · rw [h.1] at hlt
                    omega

-- ======================================================= well-formedness

/-- A position as `constructLeid` makes it: above zero, or all zero. -/
def PosOk (x : Position) : Prop := x = ⟨0, 0, 0⟩ ∨ 1 ≤ x.pos

/-- An identifier as `constructLeid` makes it. -/
structure Ok (p : Leid) : Prop where
  all : ∀ x ∈ p, PosOk x
  last : ∃ x, p.getLast? = some x ∧ 1 ≤ x.pos

theorem PosOk.nonneg {x : Position} (h : PosOk x) : 0 ≤ x.pos := by
  rcases h with rfl | h
  · exact le_rfl
  · omega

theorem Ok.tail {y : Position} (h : Ok (y :: q)) (hq : q ≠ []) : Ok q := by
  refine ⟨fun x hx => h.all x (List.mem_cons_of_mem y hx), ?_⟩
  obtain ⟨x, hx, hpos⟩ := h.last
  refine ⟨x, ?_, hpos⟩
  cases q with
  | nil => exact absurd rfl hq
  | cons z q => rwa [List.getLast?_cons_cons] at hx

/-- Before an identifier there is always room. -/
theorem build_lt_null (hfuel : q.length ≤ fuel) (hq : Ok q) :
    build true pid count fuel [] q < q := by
  induction fuel generalizing q with
  | zero =>
      obtain rfl := List.eq_nil_of_length_eq_zero (Nat.le_zero.mp hfuel)
      obtain ⟨x, hx, -⟩ := hq.last
      cases hx
  | succ fuel ih =>
      unfold build
      cases q with
      | nil =>
          obtain ⟨x, hx, -⟩ := hq.last
          cases hx
      | cons y q =>
          split
          · show (⟨0, 0, 0⟩ : Position) :: build true pid count fuel [] q < y :: q
            rw [List.cons_lt_cons_iff]
            rcases hq.all y List.mem_cons_self with rfl | hpos
            · -- a copied zero: the rest decides
              refine Or.inr ⟨rfl, ih (Nat.le_of_succ_le_succ hfuel) (hq.tail ?_)⟩
              intro hnil
              obtain ⟨x, hx, hpos⟩ := hq.last
              rw [hnil] at hx
              obtain rfl : (⟨0, 0, 0⟩ : Position) = x := Option.some.inj hx
              exact absurd hpos (by decide)
            · refine Or.inl (Position.lt_of_pos ?_)
              show (0 : ℤ) < y.pos
              omega
          · next hgap =>
              have hwide : ¬ y.pos - 0 < 2 := hgap
              refine List.cons_lt_cons_iff.mpr (Or.inl (Position.lt_of_pos ?_))
              show (0 : ℤ) + 1 < y.pos
              omega

theorem front_nonneg (hp : ∀ x ∈ p, PosOk x) : 0 ≤ front 0 p := by
  cases p with
  | nil => exact le_rfl
  | cons x p => exact (hp x List.mem_cons_self).nonneg

/-- What is built is well-formed. -/
theorem build_all (hp : ∀ x ∈ p, PosOk x) (hq : ∀ x ∈ q, PosOk x) :
    ∀ x ∈ build null pid count fuel p q, PosOk x := by
  have hlast : ∀ x ∈ [(⟨front 0 p + 1, pid, count⟩ : Position)], PosOk x := by
    intro x hx
    rw [List.mem_singleton.mp hx]
    have hnonneg := front_nonneg hp
    exact Or.inr (show 1 ≤ front 0 p + 1 by omega)
  induction fuel generalizing p q with
  | zero => exact hlast
  | succ fuel ih =>
      unfold build
      split
      · next hgap =>
          intro x hx
          rcases List.mem_cons.mp hx with rfl | hx
          · unfold copied
            split
            · exact Or.inl rfl
            · cases p with
              | cons y p => exact hp y List.mem_cons_self
              | nil =>
                  cases q with
                  | cons y q => exact hq y List.mem_cons_self
                  | nil =>
                      -- past both bounds there is room
                      simp [front, base] at hgap
          · have hp' : ∀ x ∈ p.tail, PosOk x := fun x hx => hp x (List.mem_of_mem_tail hx)
            refine ih hp' (fun x hx => hq x (List.mem_of_mem_tail hx)) ?_ x hx
            intro y hy
            rw [List.mem_singleton.mp hy]
            have hnonneg := front_nonneg hp'
            exact Or.inr (show 1 ≤ front 0 p.tail + 1 by omega)
      · exact hlast

/-- The last position is the new one, with the maker's id and count. -/
theorem build_last (null : Bool) (pid count : ℤ) (fuel : ℕ) (q : Leid)
    (hp : ∀ x ∈ p, PosOk x) :
    ∃ pos, 1 ≤ pos ∧ (build null pid count fuel p q).getLast? = some ⟨pos, pid, count⟩ := by
  induction fuel generalizing p q with
  | zero =>
      have hnonneg := front_nonneg hp
      exact ⟨front 0 p + 1, by omega, rfl⟩
  | succ fuel ih =>
      unfold build
      split
      · obtain ⟨pos, hpos, hlast⟩ := ih q.tail fun x hx => hp x (List.mem_of_mem_tail hx)
        refine ⟨pos, hpos, ?_⟩
        rw [List.getLast?_cons, hlast]
        rfl
      · have hnonneg := front_nonneg hp
        exact ⟨front 0 p + 1, by omega, rfl⟩

end Leid

variable {n : ℕ} {p q : Option Leid}

/-- Strictly between the bounds; a missing bound does not bind. -/
structure Between (p q : Option Leid) (x : Leid) : Prop where
  left : ∀ l ∈ p, l < x
  right : ∀ m ∈ q, x < m

/-- The bounds are in order and the right one is not blocked. -/
def Room (p q : Option Leid) : Prop := ∀ l ∈ p, ∀ m ∈ q, l < m ∧ ¬ Leid.Blocked l m

theorem lt_constructLeid (l : Leid) (q : Option Leid) (t : Vc n) :
    l < constructLeid (some l) q t := by
  rw [constructLeid_eq]
  exact Leid.lt_build (le_max_left _ _)

theorem constructLeid_lt_iff {l m : Leid} (h : l < m) (t : Vc n) :
    constructLeid (some l) (some m) t < m ↔ ¬ Leid.Blocked l m := by
  rw [constructLeid_eq]
  exact Leid.build_lt_iff le_rfl h

theorem constructLeid_null_lt {m : Leid} (hm : Leid.Ok m) (t : Vc n) :
    constructLeid none (some m) t < m := by
  rw [constructLeid_eq]
  exact Leid.build_lt_null (le_max_right _ _) hm

/-- Where `constructLeid` puts the new identifier. -/
theorem constructLeid_between_iff (hq : ∀ m ∈ q, Leid.Ok m) (t : Vc n) :
    Between p q (constructLeid p q t) ↔ Room p q := by
  constructor
  · intro ⟨hleft, hright⟩ l hl m hm
    obtain rfl : p = some l := hl
    obtain rfl : q = some m := hm
    have hlt : l < m := (hleft l rfl).trans (hright m rfl)
    exact ⟨hlt, (constructLeid_lt_iff hlt t).mp (hright m rfl)⟩
  · intro hroom
    refine ⟨?_, ?_⟩
    · intro l hl
      obtain rfl : p = some l := hl
      exact lt_constructLeid l q t
    · intro m hm
      obtain rfl : q = some m := hm
      cases p with
      | none => exact constructLeid_null_lt (hq m rfl) t
      | some l =>
          obtain ⟨hlt, hfree⟩ := hroom l rfl m rfl
          exact (constructLeid_lt_iff hlt t).mpr hfree

/-- The positions of a bound that is well-formed. -/
theorem Leid.posOk_getD {o : Option Leid} (ho : ∀ l ∈ o, Leid.Ok l) :
    ∀ x ∈ o.getD [], Leid.PosOk x := by
  cases o with
  | none => exact fun _ hx => nomatch hx
  | some l => exact (ho l rfl).all

/-- The maker's id and the sum of its clock end the identifier. -/
theorem constructLeid_last (hp : ∀ l ∈ p, Leid.Ok l) (q : Option Leid) (t : Vc n) :
    ∃ pos, 1 ≤ pos ∧ (constructLeid p q t).getLast?
      = some ⟨pos, t.id, ((List.finRange n).map t.vector).sum⟩ := by
  rw [constructLeid_eq]
  exact Leid.build_last _ _ _ _ _ (Leid.posOk_getD hp)

theorem constructLeid_ok (hp : ∀ l ∈ p, Leid.Ok l) (hq : ∀ l ∈ q, Leid.Ok l) (t : Vc n) :
    Leid.Ok (constructLeid p q t) := by
  obtain ⟨pos, hpos, hlast⟩ := constructLeid_last hp q t
  refine ⟨?_, _, hlast, hpos⟩
  rw [constructLeid_eq]
  exact Leid.build_all (Leid.posOk_getD hp) (Leid.posOk_getD hq)

end CrdtRedis
