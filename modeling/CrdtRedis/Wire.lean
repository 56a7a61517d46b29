/-
The text in which clocks and identifiers are broadcast (vector_clock.c,
lamport_clock.h, list_basics.c).

A clock goes out as `1,0,2|1`, a Lamport time as `3,1`, an identifier as
`1,0,3|5,1,4`. The decoders walk one pointer through the text: read a
number, look for the next separator, step over it. Between the text and
the new struct the numbers pass through a static buffer, `vc_int_buf` and
`leid_buf`, at the index of the entry they belong to; the store at an
index the buffer does not have is where the decoders can leave their
bounds. The buffer is an argument here, and what it held before does not
matter.

# What carries the round trips

Both decoders are a loop over the entries that are left. The induction is
on these: after the entries `l` the buffer holds `l` from the front, the
pointer stands at the first character of the next entry, and the rest of
the text is that of the remaining entries (`scanVC_text`,
`scanLeid_text`). Nothing is assumed of the numbers for this: a number
outside 32 bits is read as another one (`CString.asInt`), at the same
place.
-/
import CrdtRedis.ClockMemory
import CrdtRedis.LeidMemory

namespace CrdtRedis

open CString

/-- A string of the server, from a pointer on. -/
abbrev Sds := List Char

/-- The length of `vc_int_buf`. -/
def vcIntBuf : ℕ := 100

/-- The length of `leid_buf`. -/
def leidBuf : ℕ := 1024

-- ======================================================= vector clocks

/-- No separator is part of a number. -/
theorem separators_not_numeral (c : Char) (h : isNumeral c = true) :
    (c == ',' || c == '|') = false := by
  simp only [isNumeral, Bool.or_eq_true, beq_iff_eq] at h
  rcases h with h | rfl
  · refine Bool.eq_false_iff.mpr fun hcon => ?_
    simp only [Bool.or_eq_true, beq_iff_eq] at hcon
    rcases hcon with rfl | rfl
    · exact absurd h (by decide)
    · exact absurd h (by decide)
  · decide

namespace RawVc

/-- `vcToSds`. Without any entry it would print `vector[0]`, which is not
there. -/
def vcToSds (c : RawVc) : Option Sds :=
  c.vector.getLast?.map fun last =>
    c.vector.dropLast.foldl (fun p v => p ++ printInt v ++ [',']) []
      ++ printInt last ++ ['|'] ++ printInt c.id

/-- The loop of `sdsToVC`: the buffer and the number of entries so far,
and the pointer; in the end the pointer is behind the bar. -/
def scanVC (buf : Block ℤ) (size : ℕ) (p : Sds) : Option (Block ℤ × ℕ × Sds) :=
  (buf.store size (atoi p)).bind fun buf =>
    match h : skipTo (fun c => c == ',' || c == '|') p with
    | none => none
    | some [] => none
    | some (c :: q) => if c = '|' then some (buf, size + 1, q) else scanVC buf (size + 1) q
termination_by p.length
decreasing_by
  have hlen := length_skipTo h
  rw [List.length_cons] at hlen
  omega

/-- `sdsToVC`, with the buffer it leaves. -/
def sdsToVC (buf : Block ℤ) (s : Sds) : Option (Block ℤ × RawVc) :=
  (scanVC buf 0 s).bind fun r =>
    (r.1.read r.2.1).map fun vector => (r.1, ⟨vector, atoi r.2.2⟩)

/-- `c->vector[c->id] += d`; an index that is not there, or a sum that is
no `int`, is undefined. -/
def bump (c : RawVc) (d : ℤ) : Option RawVc :=
  if 0 ≤ c.id then
    (c.vector[c.id.toNat]?).bind fun v =>
      if IsInt (v + d) then some { c with vector := c.vector.set c.id.toNat (v + d) }
      else none
  else none

/-- `vc_now`: the text, and `c` as it is left. -/
def vcNow (c : RawVc) : Option (Sds × RawVc) :=
  (c.bump 1).bind fun c => c.vcToSds.bind fun s => (c.bump (-1)).map fun c => (s, c)

/-- The fields are values an `int` can have. -/
structure Ints (c : RawVc) : Prop where
  entries : ∀ v ∈ c.vector, IsInt v
  id : IsInt c.id

/-- The text of entries, the last of which a bar ends. -/
def entriesText : List ℤ → Sds → Sds
  | [], rest => rest
  | [v], rest => printInt v ++ '|' :: rest
  | v :: vs, rest => printInt v ++ ',' :: entriesText vs rest

theorem vcToSds_eq {c : RawVc} (hne : c.vector ≠ []) :
    c.vcToSds = some (entriesText c.vector (printInt c.id)) := by
  have htext : ∀ (vs : List ℤ) (last : ℤ) (acc : Sds),
      vs.foldl (fun p v => p ++ printInt v ++ [',']) acc ++ printInt last ++ ['|']
        ++ printInt c.id = acc ++ entriesText (vs ++ [last]) (printInt c.id) := by
    intro vs last
    induction vs with
    | nil => simp [entriesText]
    | cons v vs ih =>
        intro acc
        rw [List.foldl_cons, ih]
        cases vs <;> simp [entriesText]
  obtain ⟨vs, last, hlast⟩ : ∃ vs last, c.vector = vs ++ [last] :=
    ⟨_, _, (List.dropLast_append_getLast hne).symm⟩
  unfold vcToSds
  rw [hlast, List.getLast?_concat, Option.map_some, List.dropLast_concat, htext, List.nil_append]

variable {buf : Block ℤ}

/-- One round of the loop, on the text of the entries that are left. -/
theorem scanVC_entry (size : ℕ) (v : ℤ) (vs : List ℤ) (rest : Sds) :
    scanVC buf size (entriesText (v :: vs) rest) = (buf.store size (asInt v)).bind fun buf =>
      if vs = [] then some (buf, size + 1, rest)
      else scanVC buf (size + 1) (entriesText vs rest) := by
  -- either separator ends the number and stops the scan
  have hround : ∀ (c : Char) (q : Sds), c.isDigit = false → (c == ',' || c == '|') = true →
      scanVC buf size (printInt v ++ c :: q) = (buf.store size (asInt v)).bind fun buf =>
        if c = '|' then some (buf, size + 1, q) else scanVC buf (size + 1) q := by
    intro c q hdigit hstop
    have hread : atoi (printInt v ++ c :: q) = asInt v := by
      refine atoi_printInt v fun d hd => ?_
      obtain rfl : c = d := Option.some.inj hd
      exact hdigit
    have hskip : skipTo (fun c => c == ',' || c == '|') (printInt v ++ c :: q)
        = some (c :: q) := by
      rw [skipTo_print separators_not_numeral, skipTo, if_pos hstop]
    rw [scanVC, hread]
    congr 1
    funext buf
    split
    · next heq =>
        rw [hskip] at heq
        cases heq
    · next heq =>
        rw [hskip] at heq
        cases heq
    · next heq =>
        rw [hskip] at heq
        obtain ⟨rfl, rfl⟩ := List.cons.inj (Option.some.inj heq)
        rfl
  cases vs with
  | nil => exact hround '|' rest (by decide) (by decide)
  | cons w vs => exact hround ',' _ (by decide) (by decide)

/-- The loop on the text of the entries that are left. -/
theorem scanVC_text {l vs : List ℤ} (hne : vs ≠ []) (rest : Sds) (hbuf : buf.Holds l)
    (hcap : l.length + vs.length ≤ buf.length) :
    ∃ buf', scanVC buf l.length (entriesText vs rest) = some (buf', l.length + vs.length, rest) ∧
      buf'.Holds (l ++ vs.map asInt) := by
  induction vs generalizing l buf with
  | nil => exact absurd rfl hne
  | cons v vs ih =>
      rw [List.length_cons] at hcap
      obtain ⟨buf₁, hstore, hholds, hlen⟩ := hbuf.store (by omega) (asInt v)
      rw [scanVC_entry, hstore, Option.bind_some]
      by_cases hvs : vs = []
      · rw [if_pos hvs, hvs]
        exact ⟨buf₁, rfl, hholds⟩
      · have hnext : (l ++ [asInt v]).length = l.length + 1 := by simp
        obtain ⟨buf₂, hscan, hholds₂⟩ := ih hvs hholds (by rw [hnext, hlen]; omega)
        refine ⟨buf₂, ?_, by simpa using hholds₂⟩
        rw [hnext] at hscan
        rw [if_neg hvs, hscan, List.length_cons, Nat.add_assoc, Nat.add_comm 1]

/-- A text with more entries than the buffer has slots. -/
theorem scanVC_overflow {vs : List ℤ} {size : ℕ} (hne : vs ≠ []) (rest : Sds)
    (hsize : size ≤ buf.length) (hcap : buf.length < size + vs.length) :
    scanVC buf size (entriesText vs rest) = none := by
  induction vs generalizing size buf with
  | nil => exact absurd rfl hne
  | cons v vs ih =>
      rw [List.length_cons] at hcap
      rw [scanVC_entry]
      cases hstore : buf.store size (asInt v) with
      | none => rfl
      | some buf₁ =>
          have hlt := Block.lt_of_store hstore
          have hlen := Block.length_store hstore
          have hvs : vs ≠ [] := by
            rintro rfl
            rw [List.length_nil] at hcap
            omega
          rw [Option.bind_some, if_neg hvs]
          exact ih hvs (by omega) (by omega)

theorem atoi_id (c : RawVc) : atoi (printInt c.id) = asInt c.id := by
  rw [← List.append_nil (printInt c.id)]
  exact atoi_printInt c.id (by simp)

/-- What the text of a clock is decoded to, through a buffer that is large
enough. -/
theorem sdsToVC_text {c : RawVc} (hne : c.vector ≠ []) (hcap : c.vector.length ≤ buf.length) :
    ∃ s buf', c.vcToSds = some s ∧
      sdsToVC buf s = some (buf', ⟨c.vector.map asInt, asInt c.id⟩) := by
  obtain ⟨buf', hscan, hholds⟩ :=
    scanVC_text hne (printInt c.id) (Block.Holds.nil buf) (by simpa using hcap)
  rw [List.length_nil, Nat.zero_add] at hscan
  rw [List.nil_append] at hholds
  have hread := hholds.read
  rw [List.length_map] at hread
  refine ⟨_, buf', vcToSds_eq hne, ?_⟩
  unfold sdsToVC
  rw [hscan, Option.bind_some, hread, Option.map_some, atoi_id]

/-- The decoder leaves a buffer that is too small. -/
theorem sdsToVC_overflow {c : RawVc} (hcap : buf.length < c.vector.length) :
    ∃ s, c.vcToSds = some s ∧ sdsToVC buf s = none := by
  have hne : c.vector ≠ [] := List.ne_nil_of_length_pos (by omega)
  refine ⟨_, vcToSds_eq hne, ?_⟩
  unfold sdsToVC
  rw [scanVC_overflow hne _ (Nat.zero_le _) (by omega), Option.bind_none]

theorem Ints.map_asInt {c : RawVc} (h : c.Ints) :
    (⟨c.vector.map asInt, asInt c.id⟩ : RawVc) = c := by
  have hvec : c.vector.map asInt = c.vector := by
    rw [List.map_congr_left fun v hv => asInt_of_isInt (h.entries v hv), List.map_id']
  rw [hvec, asInt_of_isInt h.id]

/-- `c->vector[c->id] += d` where it is defined. -/
theorem bump_eq {c : RawVc} {v d : ℤ} (hid : 0 ≤ c.id) (hv : c.vector[c.id.toNat]? = some v)
    (hint : IsInt (v + d)) :
    c.bump d = some { c with vector := c.vector.set c.id.toNat (v + d) } := by
  unfold bump
  rw [if_pos hid, hv, Option.bind_some, if_pos hint]

/-- `vc_now` prints the counted-up clock and puts the entry back. -/
theorem vcNow_eq {c : RawVc} {v : ℤ} (hid : 0 ≤ c.id) (hv : c.vector[c.id.toNat]? = some v)
    (hint : IsInt v) (hlt : v < 2 ^ 31 - 1) :
    c.vcNow = (RawVc.vcToSds { c with vector := c.vector.set c.id.toNat (v + 1) }).map
      fun s => (s, c) := by
  have hint' : IsInt (v + 1) := ⟨by have hlo := hint.1; omega, by omega⟩
  obtain ⟨hbound, hget⟩ := List.getElem?_eq_some_iff.mp hv
  have hup : (c.vector.set c.id.toNat (v + 1))[c.id.toNat]? = some (v + 1) :=
    List.getElem?_set_self hbound
  have hsum : v + 1 + -1 = v := by omega
  have hdown : RawVc.bump { c with vector := c.vector.set c.id.toNat (v + 1) } (-1) = some c := by
    rw [bump_eq (c := ⟨c.vector.set c.id.toNat (v + 1), c.id⟩) hid hup (by rw [hsum]; exact hint),
      hsum]
    simp only [List.set_set]
    rw [← hget, List.set_getElem_self]
  unfold vcNow
  rw [bump_eq hid hv hint', Option.bind_some, hdown]
  cases RawVc.vcToSds _ <;> rfl

end RawVc

-- ====================================================== Lamport clocks

/-- `lcToSds`. -/
def lcToSds (t : Lc) : Sds := printInt t.x ++ ',' :: printInt t.id

/-- `sdsToLc`; a field that `sscanf` does not assign is undetermined. -/
def sdsToLc (s : Sds) : Option Lc :=
  (readInt s).bind fun x =>
    match x.2 with
    | ',' :: p => (readInt p).map fun id => ⟨asInt x.1, asInt id.1⟩
    | _ => none

theorem sdsToLc_text (t : Lc) : sdsToLc (lcToSds t) = some ⟨asInt t.x, asInt t.id⟩ := by
  have hx : readInt (printInt t.x ++ ',' :: printInt t.id) = some (t.x, ',' :: printInt t.id) := by
    refine readInt_print t.x fun d hd => ?_
    obtain rfl : ',' = d := Option.some.inj hd
    decide
  have hid : readInt (printInt t.id) = some (t.id, []) := by
    have hend : readInt (printInt t.id ++ []) = some (t.id, []) := readInt_print t.id (by simp)
    rwa [List.append_nil] at hend
  unfold sdsToLc lcToSds
  rw [hx, Option.bind_some]
  simp only [hid, Option.map_some]

/-- Timestamps are decoded to what was encoded, whatever the buffer held
before; and `vc_now` sends the clock of the next operation without
changing the clock. -/
theorem timestamps_round_trip :
    (∀ (c : RawVc) (buf : Block ℤ), buf.length = vcIntBuf →
      1 ≤ c.vector.length → c.vector.length ≤ vcIntBuf → c.Ints →
      (∃ s buf', c.vcToSds = some s ∧ RawVc.sdsToVC buf s = some (buf', c)) ∧
      (0 ≤ c.id → c.id < c.vector.length → c.vector.getD c.id.toNat 0 < 2 ^ 31 - 1 →
        ∃ s buf', c.vcNow = some (s, c) ∧ RawVc.sdsToVC buf s = some (buf',
          { c with vector := c.vector.set c.id.toNat (c.vector.getD c.id.toNat 0 + 1) }))) ∧
    ∀ t : Lc, IsInt t.x → IsInt t.id → sdsToLc (lcToSds t) = some t := by
  have hclock : ∀ (c : RawVc) (buf : Block ℤ), buf.length = vcIntBuf →
      1 ≤ c.vector.length → c.vector.length ≤ vcIntBuf → c.Ints →
      ∃ s buf', c.vcToSds = some s ∧ RawVc.sdsToVC buf s = some (buf', c) := by
    intro c buf hbuf hmin hmax hints
    have hfits : c.vector.length ≤ buf.length := hmax.trans_eq hbuf.symm
    obtain ⟨s, buf', htext, hdec⟩ :=
      RawVc.sdsToVC_text (List.ne_nil_of_length_pos hmin) hfits
    rw [hints.map_asInt] at hdec
    exact ⟨s, buf', htext, hdec⟩
  refine ⟨fun c buf hbuf hmin hmax hints => ⟨hclock c buf hbuf hmin hmax hints, ?_⟩, ?_⟩
  · intro hid hlt hroom
    have hbound : c.id.toNat < c.vector.length := by omega
    have hget : c.vector[c.id.toNat]? = some (c.vector.getD c.id.toNat 0) := by
      rw [List.getD_eq_getElem?_getD, List.getElem?_eq_getElem hbound, Option.getD_some]
    have hint : IsInt (c.vector.getD c.id.toNat 0) :=
      hints.entries _ (List.mem_of_getElem? hget)
    have hnext : RawVc.Ints
        { c with vector := c.vector.set c.id.toNat (c.vector.getD c.id.toNat 0 + 1) } := by
      refine ⟨fun v hv => ?_, hints.id⟩
      rcases List.mem_or_eq_of_mem_set hv with hold | rfl
      · exact hints.entries v hold
      · exact ⟨by have hlo := hint.1; omega, by omega⟩
    obtain ⟨s, buf', htext, hdec⟩ := hclock _ buf hbuf (by simpa using hmin) (by simpa using hmax)
      hnext
    refine ⟨s, buf', ?_, hdec⟩
    rw [RawVc.vcNow_eq hid hget hint hroom, htext, Option.map_some]
  · intro t hx hid
    rw [sdsToLc_text, asInt_of_isInt hx, asInt_of_isInt hid]

/-- A clock with a negative entry and the largest one, and the operation
after it. -/
theorem timestamps_round_trip_signs :
    (∃ s buf', RawVc.vcToSds ⟨[-5, 12, 2 ^ 31 - 1], 1⟩ = some s ∧
        RawVc.sdsToVC (Block.new vcIntBuf) s = some (buf', ⟨[-5, 12, 2 ^ 31 - 1], 1⟩)) ∧
      (∃ s buf', RawVc.vcNow ⟨[-5, 12, 2 ^ 31 - 1], 1⟩ = some (s, ⟨[-5, 12, 2 ^ 31 - 1], 1⟩) ∧
        RawVc.sdsToVC (Block.new vcIntBuf) s = some (buf', ⟨[-5, 13, 2 ^ 31 - 1], 1⟩)) ∧
      sdsToLc (lcToSds ⟨-3, 2⟩) = some ⟨-3, 2⟩ := by
  obtain ⟨hclock, hnow⟩ := timestamps_round_trip.1 ⟨[-5, 12, 2 ^ 31 - 1], 1⟩ (Block.new vcIntBuf)
    (Block.length_new _) (by decide) (by decide) ⟨by decide, by decide⟩
  exact ⟨hclock, hnow (by decide) (by decide) (by decide),
    timestamps_round_trip.2 ⟨-3, 2⟩ (by decide) (by decide)⟩

-- ========================================================= identifiers

/-- `"%d,%d,%d"`. -/
def printPosition (x : Position) : Sds :=
  printInt x.pos ++ ',' :: (printInt x.pid ++ ',' :: printInt x.count)

/-- `leidToSds`. -/
def leidToSds (p : Leid) : Option Sds :=
  p.getLast?.map fun last =>
    p.dropLast.foldl (fun s x => s ++ printPosition x ++ ['|']) [] ++ printPosition last

/-- `while (*p != ',') p++; p++`. -/
def pastComma (p : Sds) : Option Sds := (skipTo (· == ',') p).map List.tail

/-- The three fields of an entry; the pointer stays at the last one. -/
def scanPosition (p : Sds) : Option (Position × Sds) :=
  (pastComma p).bind fun q => (pastComma q).map fun r => (⟨atoi p, atoi q, atoi r⟩, r)

theorem length_scanPosition {p r : Sds} {x : Position} (h : scanPosition p = some (x, r)) :
    r.length ≤ p.length := by
  have hpast : ∀ {p q : Sds}, pastComma p = some q → q.length ≤ p.length := by
    intro p q hq
    obtain ⟨r, hr, rfl⟩ := Option.map_eq_some_iff.mp hq
    have hlen := length_skipTo hr
    rw [List.length_tail]
    omega
  obtain ⟨q, hq, hr⟩ := Option.bind_eq_some_iff.mp h
  obtain ⟨r', hr', heq⟩ := Option.map_eq_some_iff.mp hr
  rw [← (Prod.mk.inj heq).2]
  exact (hpast hr').trans (hpast hq)

/-- One round of the loop of `sdsToLeid`: the entry, and the pointer to
the next one unless the text ends. -/
def scanEntry (p : Sds) : Option (Position × Option Sds) :=
  (scanPosition p).bind fun e =>
    (skipTo (fun c => c == '|' || c == nul) e.2).map fun r =>
      (e.1, match r with
        | '|' :: q => some q
        | _ => none)

theorem length_scanEntry {p q : Sds} {x : Position} (h : scanEntry p = some (x, some q)) :
    q.length < p.length := by
  obtain ⟨⟨y, r⟩, hpos, hr⟩ := Option.bind_eq_some_iff.mp h
  obtain ⟨t, ht, heq⟩ := Option.map_eq_some_iff.mp hr
  have hnext := (Prod.mk.inj heq).2
  have hr := length_scanPosition hpos
  have hq := length_skipTo ht
  split at hnext
  · rw [Option.some.inj hnext, List.length_cons] at hq
    have hle : q.length + 1 ≤ r.length := hq
    omega
  · cases hnext

/-- The loop of `sdsToLeid`. The fields of an entry go to one index of the
buffer. -/
def scanLeid (buf : Block Position) (size : ℕ) (p : Sds) : Option (Block Position × ℕ) :=
  match h : scanEntry p with
  | none => none
  | some (x, next) =>
      (buf.store size x).bind fun buf =>
        match next with
        | none => some (buf, size + 1)
        | some q => scanLeid buf (size + 1) q
termination_by p.length
decreasing_by exact length_scanEntry h

/-- `sdsToLeid`, with the buffer it leaves. -/
def sdsToLeid (buf : Block Position) (s : Sds) : Option (Block Position × Leid) :=
  (scanLeid buf 0 s).bind fun r => (r.1.read r.2).map fun p => (r.1, p)

namespace Leid

/-- The fields are values an `int` can have. -/
structure Ints (p : Leid) : Prop where
  pos : ∀ x ∈ p, IsInt x.pos
  pid : ∀ x ∈ p, IsInt x.pid
  count : ∀ x ∈ p, IsInt x.count

/-- A position as it is read back. -/
def readBack (x : Position) : Position := ⟨asInt x.pos, asInt x.pid, asInt x.count⟩

/-- The text of positions, with bars between them. -/
def text : Leid → Sds
  | [] => []
  | [x] => printPosition x
  | x :: p => printPosition x ++ '|' :: text p

end Leid

theorem leidToSds_eq {p : Leid} (hne : p ≠ []) : leidToSds p = some p.text := by
  have htext : ∀ (xs : Leid) (last : Position) (acc : Sds),
      xs.foldl (fun s x => s ++ printPosition x ++ ['|']) acc ++ printPosition last
        = acc ++ Leid.text (xs ++ [last]) := by
    intro xs last
    induction xs with
    | nil => simp [Leid.text]
    | cons x xs ih =>
        intro acc
        rw [List.foldl_cons, ih]
        cases xs <;> simp [Leid.text]
  obtain ⟨xs, last, hlast⟩ : ∃ xs last, p = xs ++ [last] :=
    ⟨_, _, (List.dropLast_append_getLast hne).symm⟩
  unfold leidToSds
  rw [hlast, List.getLast?_concat, Option.map_some, List.dropLast_concat, htext, List.nil_append]

theorem pastComma_printInt (v : ℤ) (q : Sds) : pastComma (printInt v ++ ',' :: q) = some q := by
  have hcomma : ∀ c, isNumeral c = true → (c == ',') = false := by
    intro c hc
    have hsep := separators_not_numeral c hc
    rw [Bool.or_eq_false_iff] at hsep
    exact hsep.1
  unfold pastComma
  rw [skipTo_print hcomma]
  rfl

/-- An entry and what follows it, which begins no number. -/
theorem scanPosition_text (x : Position) {rest : Sds}
    (hrest : ∀ c ∈ rest.head?, c.isDigit = false) :
    scanPosition (printPosition x ++ rest)
      = some (Leid.readBack x, printInt x.count ++ rest) := by
  have hcomma : ∀ (v : ℤ) (q : Sds), atoi (printInt v ++ ',' :: q) = asInt v := by
    intro v q
    refine atoi_printInt v fun d hd => ?_
    obtain rfl : ',' = d := Option.some.inj hd
    decide
  have htext : printPosition x ++ rest
      = printInt x.pos ++ ',' :: (printInt x.pid ++ ',' :: (printInt x.count ++ rest)) := by
    simp [printPosition]
  unfold scanPosition
  rw [htext, pastComma_printInt, Option.bind_some, pastComma_printInt, Option.map_some, hcomma,
    hcomma, atoi_printInt x.count hrest]
  rfl

/-- An entry of a text: the next one is behind the bar, if there is one. -/
theorem scanEntry_text (x : Position) {p : Leid} :
    scanEntry (Leid.text (x :: p))
      = some (Leid.readBack x, if p = [] then none else some p.text) := by
  have hbar : ∀ c, isNumeral c = true → (c == '|' || c == nul) = false := by
    intro c hc
    have hsep := separators_not_numeral c hc
    rw [Bool.or_eq_false_iff] at hsep ⊢
    refine ⟨hsep.2, beq_eq_false_iff_ne.mpr ?_⟩
    rintro rfl
    exact absurd hc (by decide)
  unfold scanEntry
  cases p with
  | nil =>
      have hpos : scanPosition (printPosition x ++ [])
          = some (Leid.readBack x, printInt x.count ++ []) :=
        scanPosition_text x (by simp)
      rw [List.append_nil] at hpos
      have htext : Leid.text [x] = printPosition x := rfl
      rw [htext, hpos, Option.bind_some]
      simp only [skipTo_print hbar]
      rfl
  | cons y p =>
      rw [Leid.text, scanPosition_text x, Option.bind_some]
      · simp only [skipTo_print hbar]
        rfl
      · intro c hc
        obtain rfl : '|' = c := Option.some.inj hc
        decide
      · simp

variable {buf : Block Position}

theorem scanLeid_eq {p : Sds} {x : Position} {next : Option Sds}
    (h : scanEntry p = some (x, next)) {size : ℕ} :
    scanLeid buf size p = (buf.store size x).bind fun buf =>
      match next with
      | none => some (buf, size + 1)
      | some q => scanLeid buf (size + 1) q := by
  rw [scanLeid]
  split
  · next heq =>
      rw [h] at heq
      cases heq
  · next heq =>
      rw [h] at heq
      obtain ⟨rfl, rfl⟩ := Prod.mk.inj (Option.some.inj heq)
      cases next <;> rfl

theorem scanLeid_entry (size : ℕ) (x : Position) (p : Leid) :
    scanLeid buf size (Leid.text (x :: p)) = (buf.store size (Leid.readBack x)).bind fun buf =>
      if p = [] then some (buf, size + 1) else scanLeid buf (size + 1) p.text := by
  rw [scanLeid_eq (scanEntry_text x)]
  by_cases hp : p = []
  · simp only [if_pos hp]
  · simp only [if_neg hp]

/-- The loop on the text of the positions that are left. -/
theorem scanLeid_text {l p : Leid} (hne : p ≠ []) (hbuf : buf.Holds l)
    (hcap : l.length + p.length ≤ buf.length) :
    ∃ buf', scanLeid buf l.length p.text = some (buf', l.length + p.length) ∧
      buf'.Holds (l ++ p.map Leid.readBack) := by
  induction p generalizing l buf with
  | nil => exact absurd rfl hne
  | cons x p ih =>
      rw [List.length_cons] at hcap
      obtain ⟨buf₁, hstore, hholds, hlen⟩ := hbuf.store (by omega) (Leid.readBack x)
      rw [scanLeid_entry, hstore, Option.bind_some]
      by_cases hp : p = []
      · rw [if_pos hp, hp]
        exact ⟨buf₁, rfl, hholds⟩
      · have hnext : (l ++ [Leid.readBack x]).length = l.length + 1 := by simp
        obtain ⟨buf₂, hscan, hholds₂⟩ := ih hp hholds (by rw [hnext, hlen]; omega)
        refine ⟨buf₂, ?_, by simpa using hholds₂⟩
        rw [hnext] at hscan
        rw [if_neg hp, hscan, List.length_cons, Nat.add_assoc, Nat.add_comm 1]

/-- A text with more positions than the buffer has slots. -/
theorem scanLeid_overflow {p : Leid} {size : ℕ} (hne : p ≠ []) (hsize : size ≤ buf.length)
    (hcap : buf.length < size + p.length) : scanLeid buf size p.text = none := by
  induction p generalizing size buf with
  | nil => exact absurd rfl hne
  | cons x p ih =>
      rw [List.length_cons] at hcap
      rw [scanLeid_entry]
      cases hstore : buf.store size (Leid.readBack x) with
      | none => rfl
      | some buf₁ =>
          have hlt := Block.lt_of_store hstore
          have hlen := Block.length_store hstore
          have hp : p ≠ [] := by
            rintro rfl
            rw [List.length_nil] at hcap
            omega
          rw [Option.bind_some, if_neg hp]
          exact ih hp (by omega) (by omega)

/-- What the text of an identifier is decoded to, through a buffer that is
large enough. -/
theorem sdsToLeid_text {p : Leid} (hne : p ≠ []) (hcap : p.length ≤ buf.length) :
    ∃ s buf', leidToSds p = some s ∧ sdsToLeid buf s = some (buf', p.map Leid.readBack) := by
  obtain ⟨buf', hscan, hholds⟩ :=
    scanLeid_text hne (Block.Holds.nil buf) (by simpa using hcap)
  rw [List.length_nil, Nat.zero_add] at hscan
  rw [List.nil_append] at hholds
  have hread := hholds.read
  rw [List.length_map] at hread
  refine ⟨_, buf', leidToSds_eq hne, ?_⟩
  unfold sdsToLeid
  rw [hscan, Option.bind_some, hread, Option.map_some]

theorem sdsToLeid_overflow {p : Leid} (hcap : buf.length < p.length) :
    ∃ s, leidToSds p = some s ∧ sdsToLeid buf s = none := by
  have hne : p ≠ [] := List.ne_nil_of_length_pos (by omega)
  refine ⟨_, leidToSds_eq hne, ?_⟩
  unfold sdsToLeid
  rw [scanLeid_overflow hne (Nat.zero_le _) (by omega), Option.bind_none]

theorem Leid.Ints.map_readBack {p : Leid} (h : p.Ints) : p.map Leid.readBack = p := by
  have hsame : ∀ x ∈ p, Leid.readBack x = x := by
    intro x hx
    unfold Leid.readBack
    rw [asInt_of_isInt (h.pos x hx), asInt_of_isInt (h.pid x hx), asInt_of_isInt (h.count x hx)]
  rw [List.map_congr_left hsame, List.map_id']

/-- An identifier that fits the buffer, of values an `int` can have. -/
structure Leid.Sendable (p : Leid) : Prop where
  min : 1 ≤ p.length
  max : p.length ≤ leidBuf
  ints : p.Ints

theorem sdsToLeid_sendable {p : Leid} (hp : p.Sendable) (hbuf : buf.length = leidBuf) :
    ∃ s buf', leidToSds p = some s ∧ sdsToLeid buf s = some (buf', p) := by
  have hfits : p.length ≤ buf.length := hp.max.trans_eq hbuf.symm
  obtain ⟨s, buf', htext, hdec⟩ := sdsToLeid_text (List.ne_nil_of_length_pos hp.min) hfits
  rw [hp.ints.map_readBack] at hdec
  exact ⟨s, buf', htext, hdec⟩

/-- Identifiers are decoded to what was encoded, whatever the buffer held
before; so different ones have different texts, and the decoded ones
compare as the original ones. -/
theorem identifiers_round_trip (p q : Leid) (hp : p.Sendable) (hq : q.Sendable) :
    (∀ buf : Block Position, buf.length = leidBuf →
      ∃ s buf', leidToSds p = some s ∧ sdsToLeid buf s = some (buf', p)) ∧
      (leidToSds p = leidToSds q → p = q) ∧
      ∀ (bufp bufq : Block Position) (s t : Sds) (p' q' : Block Position × Leid),
        bufp.length = leidBuf → bufq.length = leidBuf →
        leidToSds p = some s → leidToSds q = some t →
        sdsToLeid bufp s = some p' → sdsToLeid bufq t = some q' →
        leidCmpInt p'.2 q'.2 = leidCmpInt p q := by
  have hdecoded : ∀ {p : Leid}, p.Sendable → ∀ {buf s r}, buf.length = leidBuf →
      leidToSds p = some s → sdsToLeid buf s = some r → r.2 = p := by
    intro p hp buf s r hbuf hs hr
    obtain ⟨s', buf', htext, hdec⟩ := sdsToLeid_sendable hp hbuf
    rw [hs] at htext
    obtain rfl := Option.some.inj htext
    rw [hdec] at hr
    rw [← Option.some.inj hr]
  refine ⟨fun buf hbuf => sdsToLeid_sendable hp hbuf, fun heq => ?_, ?_⟩
  · obtain ⟨s, buf', htext, hdec⟩ := sdsToLeid_sendable hp (Block.length_new leidBuf)
    exact hdecoded hq (Block.length_new leidBuf) (heq ▸ htext) hdec
  · intro bufp bufq s t p' q' hbufp hbufq hs ht hp' hq'
    rw [hdecoded hp hbufp hs hp', hdecoded hq hbufq ht hq']

/-- Two identifiers of different depth, with negative fields. -/
theorem identifiers_round_trip_signs :
    (∃ s buf', leidToSds [⟨-1, 0, 7⟩, ⟨2 ^ 31 - 1, -3, 12⟩] = some s ∧
        sdsToLeid (Block.new leidBuf) s = some (buf', [⟨-1, 0, 7⟩, ⟨2 ^ 31 - 1, -3, 12⟩])) ∧
      leidToSds [⟨-1, 0, 7⟩, ⟨2 ^ 31 - 1, -3, 12⟩] ≠ leidToSds [⟨-1, 0, 7⟩] := by
  have h := identifiers_round_trip [⟨-1, 0, 7⟩, ⟨2 ^ 31 - 1, -3, 12⟩] [⟨-1, 0, 7⟩]
    ⟨by decide, by decide, by decide, by decide, by decide⟩
    ⟨by decide, by decide, by decide, by decide, by decide⟩
  exact ⟨h.1 _ (Block.length_new _), fun heq => absurd (h.2.1 heq) (by decide)⟩

end CrdtRedis
