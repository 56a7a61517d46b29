/-
The range of positions: what `constructLeid` makes of bounds whose
positions lie in `[0, BASE)` lies there again, and ends above zero.

The search for a gap compares the bounds past their ends as well, with
zero on the left and `BASE` on the right, and it may pass differences
below zero where an earlier position already tells the bounds apart. It
stops at the first difference of two or more, which there is at the end
of the longer bound. That difference leaves room for a position above the
left and below the right, so one more position suffices, and no position
ever reaches `BASE`.

Every identifier of a run is made so between identifiers of the run, by
whatever commands and at whatever server. The bounds are an instance of
what the servers keep of identifiers (`kept_of_reachable`).
-/
import CrdtRedis.LeidMemory
import CrdtRedis.Stored

namespace CrdtRedis

open Replication

variable {n : ℕ} {p q : Option Leid}

namespace Leid

/-- The positions lie in `[0, BASE)`. -/
def InBase (l : Leid) : Prop := ∀ x ∈ l, 0 ≤ x.pos ∧ x.pos < base

/-- The same, and the last of them is above zero. -/
structure InRange (l : Leid) : Prop where
  inBase : l.InBase
  last : ∃ x, l.getLast? = some x ∧ 1 ≤ x.pos

end Leid

-- ===================================================== one identifier

theorem lprefix_nonneg (hp : ∀ l ∈ p, Leid.InBase l) (i : ℕ) : 0 ≤ lprefix p i := by
  unfold lprefix
  split
  · exact le_rfl
  · next l =>
      split
      · next x hx => exact (hp l rfl x (List.mem_of_getElem? hx)).1
      · exact le_rfl

theorem rprefix_le_base (hq : ∀ l ∈ q, Leid.InBase l) (i : ℕ) : rprefix q i ≤ base := by
  unfold rprefix
  split
  · exact le_rfl
  · next l =>
      split
      · next x hx => exact (hq l rfl x (List.mem_of_getElem? hx)).2.le
      · exact le_rfl

/-- What is filled in before the gap is copied or zero. -/
theorem leidFill_inBase (hp : ∀ l ∈ p, Leid.InBase l) (hq : ∀ l ∈ q, Leid.InBase l)
    {fill : Position} (hfill : fill.pos = 0) (i : ℕ) :
    0 ≤ (leidFill p q fill i).pos ∧ (leidFill p q fill i).pos < base := by
  have hzero : 0 ≤ fill.pos ∧ fill.pos < base := by
    rw [hfill]
    decide
  unfold leidFill
  split
  · decide
  · next l =>
      split
      · next x hx => exact hp l rfl x (List.mem_of_getElem? hx)
      · split
        · exact hzero
        · next m =>
            cases hm : m[i]? with
            | none => exact hzero
            | some x => exact hq m rfl x (List.mem_of_getElem? hm)

theorem constructLeid_inRange (hp : ∀ l ∈ p, Leid.InBase l) (hq : ∀ l ∈ q, Leid.InBase l)
    (t : Vc n) : (constructLeid p q t).InRange := by
  have hroom := (gapIndex_spec (p := p) (q := q) (Nat.zero_add _).ge).2.1
  unfold constructLeid
  generalize gapIndex p q (max (leidDepth p) (leidDepth q)) 0 = index at hroom ⊢
  have hleft := lprefix_nonneg hp index
  have hright := rprefix_le_base hq index
  refine ⟨?_, _, List.getLast?_concat, show 1 ≤ lprefix p index + 1 by omega⟩
  intro x hx
  rcases List.mem_append.mp hx with hx | hx
  · obtain ⟨i, -, rfl⟩ := List.mem_map.mp hx
    exact leidFill_inBase hp hq rfl i
  · rw [List.mem_singleton.mp hx]
    exact ⟨show 0 ≤ lprefix p index + 1 by omega, show lprefix p index + 1 < base by omega⟩

-- ============================================================== runs

/-- The search of `constructLeid` ends within the depth of the longer
bound and every entry is assigned and in range; so are all identifiers
that are ever sent or kept. -/
theorem constructLeid_ends_in_range (dbl : String → Option ℤ) :
    (∀ (p q : Option Leid) (t : Vc n), (∀ l ∈ p, Leid.InBase l) → (∀ l ∈ q, Leid.InBase l) →
      ∀ fuel, max (leidDepth p) (leidDepth q) < fuel →
        ∃ index ≤ max (leidDepth p) (leidDepth q), gapLoop p q fuel 0 = some index ∧
          ∃ l : Leid, constructLeidMem fuel p q t = some (l.map some) ∧ l.length = index + 1 ∧
            l.InRange) ∧
      ∀ pol (k : Net n), Reachable (crdtService dbl) pol k →
        (∀ o ∈ k.sent, ∀ l, Arg.leid l ∈ o.msg → l.InRange) ∧
          ∀ r tname h, k.site r tname = some (.hash h) → ∀ a l,
            rleKind.posAt h a = some l ∨ rwfleKind.posAt h a = some l → l.InRange := by
  constructor
  · intro p q t hp hq fuel hfuel
    obtain ⟨hle, -, -⟩ := gapIndex_spec (p := p) (q := q) (Nat.zero_add _).ge
    rw [Nat.zero_add] at hle
    refine ⟨_, hle, ?_, constructLeid p q t, constructLeidMem_eq p q t hfuel, ?_,
      constructLeid_inRange hp hq t⟩
    · have hloop := gapLoop_eq (p := p) (q := q) (Nat.zero_add _).ge
        (fuel - (max (leidDepth p) (leidDepth q) + 1))
      rwa [Nat.add_sub_cancel' hfuel] at hloop
    · simp [constructLeid]
  · intro pol k hk
    obtain ⟨hstore, hsent⟩ := kept_of_reachable (keeps_true Leid.InRange)
      (fun p q t hp hq => constructLeid_inRange (fun l hl => (hp l hl).inBase)
        (fun l hl => (hq l hl).inBase) t) hk
    refine ⟨hsent, ?_⟩
    intro r tname h hh a l hl
    rcases hl with hl | hl
    · exact (hstore r tname h hh).own.pos a l hl
    · exact (hstore r tname h hh).other.pos a l hl

/-- Bounds of different depths that agree on the first position, and a run
that inserts between two elements. -/
theorem constructLeid_ends_in_range_nested :
    (∃ index ≤ 2, gapLoop (some [⟨1, 0, 1⟩]) (some [⟨1, 0, 1⟩, ⟨1, 1, 2⟩]) 3 0 = some index ∧
      ∃ l : Leid, constructLeidMem 3 (some [⟨1, 0, 1⟩]) (some [⟨1, 0, 1⟩, ⟨1, 1, 2⟩])
        (vcNew (0 : Fin 2)) = some (l.map some) ∧ l.length = index + 1 ∧ l.InRange) ∧
      ∃ k : Net 2, Reachable (crdtService getLongLongFromObject) (.once fun _ => True) k ∧
        ∃ o ∈ k.sent, ∃ l, Arg.leid l ∈ o.msg ∧ l.length = 2 ∧ l.InRange := by
  have hbase : ∀ l ∈ some [(⟨1, 0, 1⟩ : Position)], Leid.InBase l := by
    intro l hl
    obtain rfl := Option.some.inj hl
    unfold Leid.InBase
    decide
  have hbase' : ∀ l ∈ some [(⟨1, 0, 1⟩ : Position), ⟨1, 1, 2⟩], Leid.InBase l := by
    intro l hl
    obtain rfl := Option.some.inj hl
    unfold Leid.InBase
    decide
  refine ⟨(constructLeid_ends_in_range getLongLongFromObject).1 _ _ _ hbase hbase' 3 (by decide),
    ?_⟩
  obtain ⟨k, hrun, o, ho, l, hl, hlen⟩ : ∃ k : Net 2,
      (crdtService getLongLongFromObject).run (crdtService getLongLongFromObject).start
        [.submit 0 ["rlinsert", "l", "null", "b", "y", "0", "0", "0", "0"],
          .submit 0 ["rlinsert", "l", "null", "a", "x", "0", "0", "0", "0"]] = some k ∧
        ∃ o ∈ k.sent, ∃ l, Arg.leid l ∈ o.msg ∧ l.length = 2 :=
    ⟨_, rfl, _, List.mem_cons_of_mem _ List.mem_cons_self, _, by
      exact List.mem_append_right _ List.mem_cons_self, rfl⟩
  have hk : Reachable (crdtService getLongLongFromObject) (.once fun _ => True) k :=
    Service.run_reachable (by decide) hrun
  exact ⟨k, hk, o, ho, l, hl, hlen,
    ((constructLeid_ends_in_range getLongLongFromObject).2 _ k hk).1 o ho l hl⟩

end CrdtRedis
