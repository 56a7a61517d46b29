/-
The functions on identifiers as C runs them (list_basics.h,
list_basics.c): differences of `int`s, a search loop without a bound, and
an array that is allocated first and filled afterwards.

`leidCmp` and `constructLeid` say what these functions are for; here is
what they do on the way. A difference that no `int` can hold is undefined,
a loop that has not stopped after `fuel` rounds has no result, and an
entry of the array that no assignment reached is unwritten. Each of the
three is ruled out: on identifiers with non-negative fields the
differences are exact (`leidCmpInt_eq`), the search stops no later than at
the end of the longer bound (`gapLoop_eq`), and the two fill loops reach
every entry, for every combination of bounds (`constructLeidMem_eq`).
-/
import CrdtRedis.Leid
import CrdtRedis.Data.Block
import CrdtRedis.Data.CString

namespace CrdtRedis

open CString

-- ========================================================== comparison

/-- `a - b`, where that is an `int`. -/
def subInt (a b : ℤ) : Option ℤ := if IsInt (a - b) then some (a - b) else none

/-- `pos_cmp`. -/
def posCmpInt (p1 p2 : Position) : Option ℤ :=
  if p1.pos ≠ p2.pos then subInt p1.pos p2.pos
  else if p1.pid ≠ p2.pid then subInt p1.pid p2.pid
  else subInt p1.count p2.count

/-- The loop of `leid_cmp` over the positions that are left; `nums` is
`id1->num - id2->num`. -/
def leidCmpLoop (nums : Option ℤ) : Leid → Leid → Option ℤ
  | x :: p, y :: q => (posCmpInt x y).bind fun d => if d ≠ 0 then some d else leidCmpLoop nums p q
  | _, _ => nums

/-- `leid_cmp`. -/
def leidCmpInt (id1 id2 : Leid) : Option ℤ :=
  leidCmpLoop (subInt id1.length id2.length) id1 id2

/-- An identifier whose fields are non-negative; `num` and they are
`int`s. -/
structure Leid.Natural (p : Leid) : Prop where
  ne_nil : p ≠ []
  num : p.length < 2 ^ 31
  pos : ∀ x ∈ p, 0 ≤ x.pos ∧ x.pos < 2 ^ 31
  pid : ∀ x ∈ p, 0 ≤ x.pid ∧ x.pid < 2 ^ 31
  count : ∀ x ∈ p, 0 ≤ x.count ∧ x.count < 2 ^ 31

/-- The difference of two non-negative `int`s is one. -/
theorem subInt_eq {a b : ℤ} (ha : 0 ≤ a ∧ a < 2 ^ 31) (hb : 0 ≤ b ∧ b < 2 ^ 31) :
    subInt a b = some (a - b) :=
  if_pos ⟨by omega, by omega⟩

variable {a b c : Leid}

theorem posCmpInt_eq (ha : a.Natural) (hb : b.Natural) {x y : Position} (hx : x ∈ a) (hy : y ∈ b) :
    posCmpInt x y = some (posCmp x y) := by
  unfold posCmpInt posCmp
  split
  · exact subInt_eq (ha.pos x hx) (hb.pos y hy)
  · split
    · exact subInt_eq (ha.pid x hx) (hb.pid y hy)
    · exact subInt_eq (ha.count x hx) (hb.count y hy)

theorem leidCmpLoop_eq {p q : Leid} (h : ∀ x ∈ p, ∀ y ∈ q, posCmpInt x y = some (posCmp x y)) :
    leidCmpLoop (some ((p.length : ℤ) - q.length)) p q = some (leidCmp p q) := by
  induction p generalizing q with
  | nil => rfl
  | cons x p ih =>
      cases q with
      | nil => rfl
      | cons y q =>
          have hrest := ih fun z hz w hw =>
            h z (List.mem_cons_of_mem x hz) w (List.mem_cons_of_mem y hw)
          have hnums : ((x :: p).length : ℤ) - (y :: q).length = (p.length : ℤ) - q.length := by
            simp only [List.length_cons]
            omega
          unfold leidCmpLoop leidCmp
          rw [h x List.mem_cons_self y List.mem_cons_self, Option.bind_some, hnums, hrest]
          split <;> rfl

/-- No difference overflows. -/
theorem leidCmpInt_eq (ha : a.Natural) (hb : b.Natural) :
    leidCmpInt a b = some (leidCmp a b) := by
  have hnums : subInt (a.length : ℤ) b.length = some ((a.length : ℤ) - b.length) := by
    have hna := ha.num
    have hnb := hb.num
    exact subInt_eq ⟨by omega, by omega⟩ ⟨by omega, by omega⟩
  unfold leidCmpInt
  rw [hnums]
  exact leidCmpLoop_eq fun x hx y hy => posCmpInt_eq ha hb hx hy

theorem leidCmp_eq_zero : leidCmp a b = 0 ↔ a = b := by
  constructor
  · intro h
    refine le_antisymm (not_lt.mp fun hlt => ?_) (not_lt.mp fun hlt => ?_)
    · rw [← leidCmp_pos] at hlt
      omega
    · rw [← leidCmp_neg] at hlt
      omega
  · rintro rfl
    have hneg := leidCmp_comm a a
    omega

theorem leidCmp_append (a : Leid) {rest : Leid} (hrest : rest ≠ []) :
    leidCmp a (a ++ rest) < 0 := by
  induction a with
  | nil =>
      have hlen := List.length_pos_of_ne_nil hrest
      cases rest with
      | nil => exact absurd rfl hrest
      | cons y rest =>
          simp only [List.nil_append, leidCmp, List.length_nil]
          omega
  | cons x a ih =>
      rw [List.cons_append, leidCmp, if_neg (not_not.mpr (posCmp_eq_zero.mpr rfl))]
      exact ih

/-- `leid_cmp` never overflows and is a strict total order, in which a
proper prefix comes first. -/
theorem leidCmp_total_order (a b c : Leid) (ha : a.Natural) (hb : b.Natural) (hc : c.Natural) :
    (∀ x ∈ a, ∀ y ∈ b, (posCmpInt x y).isSome) ∧
      (∃ ab ba, leidCmpInt a b = some ab ∧ leidCmpInt b a = some ba ∧
        (ab = 0 ↔ a = b) ∧ ba.sign = -ab.sign) ∧
      (∀ ab bc, leidCmpInt a b = some ab → leidCmpInt b c = some bc → ab < 0 → bc < 0 →
        ∃ ac, leidCmpInt a c = some ac ∧ ac < 0) ∧
      ∀ rest, rest ≠ [] → b = a ++ rest → ∃ ab, leidCmpInt a b = some ab ∧ ab < 0 := by
  refine ⟨fun x hx y hy => ?_, ?_, ?_, ?_⟩
  · rw [posCmpInt_eq ha hb hx hy]
    rfl
  · refine ⟨_, _, leidCmpInt_eq ha hb, leidCmpInt_eq hb ha, leidCmp_eq_zero, ?_⟩
    rw [leidCmp_comm b a, Int.sign_neg]
  · intro ab bc hab hbc hab' hbc'
    rw [leidCmpInt_eq ha hb] at hab
    rw [leidCmpInt_eq hb hc] at hbc
    obtain rfl := Option.some.inj hab
    obtain rfl := Option.some.inj hbc
    refine ⟨_, leidCmpInt_eq ha hc, ?_⟩
    rw [leidCmp_neg] at hab' hbc' ⊢
    exact hab'.trans hbc'
  · intro rest hrest hb'
    refine ⟨_, leidCmpInt_eq ha hb, ?_⟩
    rw [hb']
    exact leidCmp_append a hrest

/-- An identifier, an extension of it and one behind both. -/
theorem leidCmp_total_order_depths :
    (∃ d, leidCmpInt [⟨1, 0, 3⟩] [⟨1, 0, 3⟩, ⟨2, 1, 4⟩] = some d ∧ d < 0) ∧
      ∃ d, leidCmpInt [⟨1, 0, 3⟩] [⟨1, 1, 0⟩] = some d ∧ d < 0 := by
  have h := leidCmp_total_order [⟨1, 0, 3⟩] [⟨1, 0, 3⟩, ⟨2, 1, 4⟩] [⟨1, 1, 0⟩]
    ⟨by decide, by decide, by decide, by decide, by decide⟩
    ⟨by decide, by decide, by decide, by decide, by decide⟩
    ⟨by decide, by decide, by decide, by decide, by decide⟩
  exact ⟨h.2.2.2 [⟨2, 1, 4⟩] (by decide) rfl,
    h.2.2.1 (-1) (-1) (by decide) (by decide) (by decide) (by decide)⟩

-- ======================================================== construction

variable {n : ℕ} {p q : Option Leid}

/-- The `while` loop of `constructLeid` from `index` on: where it stops,
if it does within `fuel` rounds. -/
def gapLoop (p q : Option Leid) : ℕ → ℕ → Option ℕ
  | 0, _ => none
  | fuel + 1, index =>
      if rprefix q index - lprefix p index < 2 then gapLoop p q fuel (index + 1)
      else some index

/-- The fill loops of `constructLeid`, on the entries before `index`. -/
def fillLoops (p q : Option Leid) (fill : Position) (index : ℕ) (rtn : Block Position) :
    Option (Block Position) :=
  match p with
  | some p =>
      (rtn.fill (fun i => p[i]?) 0 (min index p.length)).bind fun rtn =>
        rtn.fill (fun i => some (match q with
          | none => fill
          | some q => (q[i]?).getD fill)) p.length index
  | none => rtn.fill (fun _ => some ⟨0, 0, 0⟩) 0 index

/-- `constructLeid`: the array it returns, slot by slot. -/
def constructLeidMem (fuel : ℕ) (p q : Option Leid) (t : Vc n) : Option (Block Position) :=
  let count := ((List.finRange n).map t.vector).sum
  (gapLoop p q fuel 0).bind fun index =>
    (fillLoops p q ⟨0, t.id, count⟩ index (Block.new (index + 1))).bind fun rtn =>
      rtn.store index { pos := lprefix p index + 1, pid := t.id, count := count }

/-- Past both bounds there is room. -/
theorem gap_past {index : ℕ} (h : max (leidDepth p) (leidDepth q) ≤ index) :
    ¬ rprefix q index - lprefix p index < 2 := by
  have hp : lprefix p index = 0 := by
    cases p with
    | none => rfl
    | some p =>
        have hlen : p.length ≤ index := (le_max_left _ _).trans h
        simp [hlen, lprefix]
  have hq : rprefix q index = base := by
    cases q with
    | none => rfl
    | some q =>
        have hlen : q.length ≤ index := (le_max_right _ _).trans h
        simp [hlen, rprefix]
  rw [hp, hq]
  decide

/-- Where the search stops: within the depth of the longer bound, with
room there and none before. -/
theorem gapIndex_spec {fuel index : ℕ}
    (hfuel : max (leidDepth p) (leidDepth q) ≤ index + fuel) :
    gapIndex p q fuel index ≤ index + fuel ∧
      2 ≤ rprefix q (gapIndex p q fuel index) - lprefix p (gapIndex p q fuel index) ∧
      ∀ i, index ≤ i → i < gapIndex p q fuel index → rprefix q i - lprefix p i < 2 := by
  induction fuel generalizing index with
  | zero =>
      have hroom := gap_past (p := p) (q := q) hfuel
      refine ⟨le_rfl, not_lt.mp hroom, ?_⟩
      intro i hi hlt
      exact absurd hlt (not_lt.mpr hi)
  | succ fuel ih =>
      unfold gapIndex
      split
      · next hgap =>
          obtain ⟨hle, hroom, hbefore⟩ := ih (show _ ≤ index + 1 + fuel by omega)
          refine ⟨by omega, hroom, fun i hi hlt => ?_⟩
          rcases Nat.eq_or_lt_of_le hi with rfl | hi
          · exact hgap
          · exact hbefore i hi hlt
      · next hgap =>
          refine ⟨by omega, by omega, fun i hi hlt => ?_⟩
          exact absurd hlt (not_lt.mpr hi)

/-- The loop stops, at what `gapIndex` says. -/
theorem gapLoop_eq {fuel index : ℕ} (hfuel : max (leidDepth p) (leidDepth q) ≤ index + fuel)
    (k : ℕ) : gapLoop p q (fuel + 1 + k) index = some (gapIndex p q fuel index) := by
  induction fuel generalizing index with
  | zero =>
      have hroom : ¬ rprefix q index - lprefix p index < 2 := gap_past hfuel
      rw [Nat.zero_add, Nat.add_comm, gapLoop, if_neg hroom]
      rfl
  | succ fuel ih =>
      rw [show fuel + 1 + 1 + k = fuel + 1 + k + 1 by omega, gapLoop, gapIndex]
      split
      · exact ih (by omega)
      · rfl

theorem leidFill_copy {p : Leid} {q : Option Leid} {fill : Position} {i : ℕ} (hi : i < p.length) :
    leidFill (some p) q fill i = p[i] := by
  simp [leidFill, hi]

theorem leidFill_past {p : Leid} {q : Option Leid} {fill : Position} {i : ℕ}
    (hi : p.length ≤ i) : leidFill (some p) q fill i = match q with
      | none => fill
      | some q => (q[i]?).getD fill := by
  cases q <;> simp [leidFill, hi]

/-- The fill loops write every slot before `index`. -/
theorem fillLoops_holds (p q : Option Leid) (fill : Position) (index : ℕ) {rtn : Block Position}
    (hcap : index ≤ rtn.length) :
    ∃ b, fillLoops p q fill index rtn = some b ∧
      b.Holds ((List.range index).map (leidFill p q fill)) ∧ b.length = rtn.length := by
  cases p with
  | none =>
      refine (Block.Holds.nil rtn).fill rfl (by simp) hcap fun i hi => ?_
      have hlt : i < index := by simpa using hi
      simp [leidFill, hlt]
  | some p =>
      -- the copy of the left bound
      obtain ⟨b₁, hcopy, hholds₁, hlen₁⟩ : ∃ b, Block.fill (fun i => p[i]?) 0 (min index p.length)
          rtn = some b ∧ b.Holds ([] ++ p.take index) ∧ b.length = rtn.length := by
        refine (Block.Holds.nil rtn).fill rfl (by simp) ((min_le_left _ _).trans hcap) ?_
        intro i hi
        have hlt : i < index := by
          rw [List.length_take] at hi
          omega
        simp [hlt]
      rw [List.nil_append] at hholds₁
      simp only [fillLoops, hcopy, Option.bind_some]
      rcases Nat.lt_or_ge index p.length with hlt | hge
      · -- the left bound reaches `index`, and the second loop does nothing
        refine ⟨b₁, by simp [Block.fill, Nat.sub_eq_zero_of_le hlt.le], ?_, hlen₁⟩
        have hall : (List.range index).map (leidFill (some p) q fill) = p.take index := by
          refine List.ext_getElem (by simp [hlt.le]) fun i hi hi' => ?_
          have hip : i < p.length := by
            rw [List.length_take] at hi'
            omega
          simp [leidFill_copy hip]
        rw [hall]
        exact hholds₁
      · rw [List.take_of_length_le hge] at hholds₁
        have hrest : (List.range index).map (leidFill (some p) q fill)
            = p ++ (List.range' p.length (index - p.length)).map (leidFill (some p) q fill) := by
          have hcopied : (List.range p.length).map (leidFill (some p) q fill) = p := by
            refine List.ext_getElem (by simp) fun i hi hi' => ?_
            simp [leidFill_copy hi']
          have hsplit : List.range index
              = List.range p.length ++ List.range' p.length (index - p.length) := by
            rw [List.range_eq_range', List.range_eq_range',
              ← Nat.add_sub_cancel' hge, ← List.range'_append_1]
            simp
          rw [hsplit, List.map_append, hcopied]
        rw [hrest]
        obtain ⟨b₂, hfill, hholds₂, hlen₂⟩ : ∃ b, Block.fill (fun i => some (match q with
            | none => fill
            | some q => (q[i]?).getD fill)) p.length index b₁ = some b ∧
            b.Holds
              (p ++ (List.range' p.length (index - p.length)).map (leidFill (some p) q fill)) ∧
            b.length = b₁.length := by
          refine hholds₁.fill rfl (by simp [hge]) (hlen₁ ▸ hcap) fun i hi => ?_
          have hlt : i < index - p.length := by simpa using hi
          simp [leidFill_past (Nat.le_add_right p.length i), hlt]
        exact ⟨b₂, hfill, hholds₂, hlen₂.trans hlen₁⟩

/-- Every slot is written, and with what `constructLeid` says. -/
theorem constructLeidMem_eq (p q : Option Leid) (t : Vc n) {fuel : ℕ}
    (hfuel : max (leidDepth p) (leidDepth q) < fuel) :
    constructLeidMem fuel p q t = some ((constructLeid p q t).map some) := by
  have hloop : gapLoop p q (max (leidDepth p) (leidDepth q) + 1
      + (fuel - (max (leidDepth p) (leidDepth q) + 1))) 0
      = some (gapIndex p q (max (leidDepth p) (leidDepth q)) 0) :=
    gapLoop_eq (Nat.zero_add _).ge _
  rw [Nat.add_sub_cancel' hfuel] at hloop
  unfold constructLeidMem constructLeid
  rw [hloop, Option.bind_some]
  generalize gapIndex p q (max (leidDepth p) (leidDepth q)) 0 = index
  have hcap : index ≤ (Block.new (index + 1) : Block Position).length := by simp
  obtain ⟨b, hb, hholds, hlen⟩ := fillLoops_holds p q
    ⟨0, t.id, ((List.finRange n).map t.vector).sum⟩ index hcap
  rw [Block.length_new] at hlen
  obtain ⟨b', hstore, hholds', hlen'⟩ := hholds.store (by simp [hlen])
    { pos := lprefix p index + 1, pid := t.id, count := ((List.finRange n).map t.vector).sum }
  rw [List.length_map, List.length_range] at hstore
  rw [hb, Option.bind_some, hstore, hholds'.eq (by simp [hlen', hlen])]

end CrdtRedis
