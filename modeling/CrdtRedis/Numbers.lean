/-
Decimal numbers as the server reads and writes them (`string2ll`,
`digits10` and `ll2string` of util.c).

`ll2string` writes two digits at a time from a table, from the right end
of the place it computed for the number. `writeDigits_eq` is the loop: the
digits fill the end of the part that is open to them, and the rest of the
buffer stays. What it prints is what `%d` prints (`ll2string_print`), and
`string2ll` accepts nothing else (`string2ll_eq_some`).
-/
import CrdtRedis.Basic
import CrdtRedis.Data.CString

namespace CrdtRedis

open CString

-- ============================================================= string2ll

theorem readDigits_eq_some {l : List Char} {v w : ℕ} :
    readDigits l v = some w ↔ (∀ c ∈ l, c.isDigit = true) ∧ Nat.ofDigitChars 10 l v = w := by
  induction l generalizing v with
  | nil => simp [readDigits, Nat.ofDigitChars_nil]
  | cons c l ih =>
      rw [readDigits, List.forall_mem_cons, Nat.ofDigitChars_cons]
      split
      · next hc =>
          rw [ih]
          simp [hc]
      · next hc => simp [hc]

theorem readUnsigned_eq_some {l : List Char} {m : ℕ} :
    readUnsigned l = some m ↔ 0 < m ∧ l = Nat.toDigits 10 m := by
  constructor
  · intro h
    cases l with
    | nil => cases h
    | cons c l =>
        rw [readUnsigned] at h
        split at h
        · next hc =>
            obtain ⟨hdigits, hval⟩ := readDigits_eq_some.mp h
            have hvalue : Nat.ofDigitChars 10 (c :: l) 0 = m := by
              rw [Nat.ofDigitChars_cons, Nat.mul_zero, Nat.zero_add]
              exact hval
            have htext := toDigits_ofDigitChars (List.cons_ne_nil c l)
              (List.forall_mem_cons.mpr ⟨hc.1, hdigits⟩) (fun heq => hc.2 (Option.some.inj heq))
            rw [hvalue] at htext
            refine ⟨Nat.pos_of_ne_zero ?_, htext.symm⟩
            rintro rfl
            rw [Nat.toDigits_zero] at htext
            exact hc.2 (List.cons.inj htext).1.symm
        · cases h
  · intro h
    obtain ⟨hpos, rfl⟩ := h
    have hhead := head_toDigits hpos
    have hdigit : ∀ c ∈ Nat.toDigits 10 m, c.isDigit = true :=
      fun c hc => Nat.isDigit_of_mem_toDigits (by decide) (by decide) hc
    have hval : Nat.ofDigitChars 10 (Nat.toDigits 10 m) 0 = m := Nat.ofDigitChars_ten_toDigits
    generalize Nat.toDigits 10 m = l at *
    cases l with
    | nil =>
        rw [Nat.ofDigitChars_nil] at hval
        omega
    | cons c l =>
        obtain ⟨hc, hl⟩ := List.forall_mem_cons.mp hdigit
        rw [Nat.ofDigitChars_cons, Nat.mul_zero, Nat.zero_add] at hval
        rw [readUnsigned, if_pos ⟨hc, fun heq => hhead (by rw [heq]; rfl)⟩]
        exact readDigits_eq_some.mpr ⟨hl, hval⟩

/-- `string2ll` reads a number if and only if the text is how the number is
printed. -/
theorem string2ll_eq_some {s : String} {v : ℤ} :
    string2ll s = some v ↔ s.toList = printInt v ∧ -2 ^ 63 ≤ v ∧ v < 2 ^ 63 := by
  have hdigits : ∀ {l : List Char} {m : ℕ}, readUnsigned l = some m → l = Nat.toDigits 10 m :=
    fun h => (readUnsigned_eq_some.mp h).2
  unfold string2ll
  constructor
  · intro h
    split at h
    · next htext =>
        rw [← Option.some.inj h, htext]
        exact ⟨rfl, by decide, by decide⟩
    · next rest htext =>
        obtain ⟨m, hm, hif⟩ := Option.bind_eq_some_iff.mp h
        obtain ⟨hpos, hrest⟩ := readUnsigned_eq_some.mp hm
        obtain ⟨k, rfl⟩ := Nat.exists_eq_succ_of_ne_zero hpos.ne'
        split at hif
        · next hle =>
            have hv : v = Int.negSucc k := by
              rw [← Option.some.inj hif]
              rfl
            rw [htext, hrest, hv]
            exact ⟨rfl, by omega, by omega⟩
        · cases hif
    · obtain ⟨m, hm, hif⟩ := Option.bind_eq_some_iff.mp h
      split at hif
      · next hlt =>
          rw [← Option.some.inj hif, hdigits hm]
          exact ⟨rfl, by omega, by omega⟩
      · cases hif
  · intro h
    obtain ⟨htext, hlo, hhi⟩ := h
    rw [htext]
    have hread : ∀ m, readUnsigned (Nat.toDigits 10 (m + 1)) = some (m + 1) :=
      fun m => readUnsigned_eq_some.mpr ⟨Nat.succ_pos m, rfl⟩
    cases v with
    | negSucc m =>
        simp only [printInt, hread, Option.bind_some]
        rw [if_pos (by omega)]
        rfl
    | ofNat m =>
        simp only [printInt]
        cases m with
        | zero => rfl
        | succ m =>
            -- neither a zero nor a sign stands in front
            have hhead := head_toDigits (Nat.succ_pos m)
            split
            · next heq =>
                rw [heq] at hhead
                exact absurd rfl hhead
            · next rest heq =>
                have hdigit := Nat.isDigit_of_mem_toDigits (b := 10) (n := m + 1) (by decide)
                  (by decide) (heq ▸ List.mem_cons_self)
                exact absurd hdigit (by decide)
            · have hhi : ((m + 1 : ℕ) : ℤ) < 2 ^ 63 := hhi
              rw [hread, Option.bind_some, if_pos (by omega)]
              rfl

-- ============================================================= ll2string

/-- The table of `ll2string`. -/
def digitPairs : List Char :=
  "0001020304050607080910111213141516171819".toList ++
  "2021222324252627282930313233343536373839".toList ++
  "4041424344454647484950515253545556575859".toList ++
  "6061626364656667686970717273747576777879".toList ++
  "8081828384858687888990919293949596979899".toList

/-- `digits10`. -/
def digits10 (v : ℕ) : ℕ :=
  if v < 10 then 1
  else if v < 100 then 2
  else if v < 1000 then 3
  else if v < 1000000000000 then
    if v < 100000000 then
      if v < 1000000 then
        if v < 10000 then 4 else 5 + (if v ≥ 100000 then 1 else 0)
      else 7 + (if v ≥ 10000000 then 1 else 0)
    else if v < 10000000000 then 9 + (if v ≥ 1000000000 then 1 else 0)
    else 11 + (if v ≥ 100000000000 then 1 else 0)
  else 12 + digits10 (v / 1000000000000)
termination_by v
decreasing_by omega

/-- The digits of `ll2string`, written two at a time from the index `next`
down. -/
def writeDigits (value next : ℕ) (dst : List Char) : List Char :=
  if 100 ≤ value then
    let i := value % 100 * 2
    writeDigits (value / 100) (next - 2)
      ((dst.set next (digitPairs.getD (i + 1) nul)).set (next - 1) (digitPairs.getD i nul))
  else if value < 10 then dst.set next (Char.ofNat ('0'.toNat + value))
  else
    let i := value * 2
    (dst.set next (digitPairs.getD (i + 1) nul)).set (next - 1) (digitPairs.getD i nul)
termination_by value
decreasing_by omega

/-- `ll2string`: the buffer after it and the length it returns. -/
def ll2string (dst : List Char) (svalue : ℤ) : List Char × ℕ :=
  let negative := decide (svalue < 0)
  let value := svalue.natAbs
  let length := digits10 value + negative.toNat
  if dst.length ≤ length then (dst, 0)
  else
    let dst := writeDigits value (length - 1) (dst.set length nul)
    (if negative then dst.set 0 '-' else dst, length)

/-- Pairs of entries, one behind the other. -/
theorem getD_pairs {k r : ℕ} (f g : ℕ → Char) (d : Char) (h : r < k) :
    ((List.range k).flatMap fun i => [f i, g i]).getD (r * 2) d = f r ∧
      ((List.range k).flatMap fun i => [f i, g i]).getD (r * 2 + 1) d = g r := by
  induction k with
  | zero => omega
  | succ k ih =>
      have hlen : ((List.range k).flatMap fun i => [f i, g i]).length = k * 2 := by simp
      rw [List.range_succ, List.flatMap_append]
      simp only [List.getD_eq_getElem?_getD] at ih ⊢
      by_cases hr : r < k
      · rw [List.getElem?_append_left (by omega), List.getElem?_append_left (by omega)]
        exact ih hr
      · obtain rfl : r = k := by omega
        rw [List.getElem?_append_right (by omega), List.getElem?_append_right (by omega), hlen]
        simp

/-- The table holds the two digits of every number below 100. -/
theorem digitPairs_eq {r : ℕ} (hr : r < 100) :
    digitPairs.getD (r * 2) nul = Nat.digitChar (r / 10) ∧
      digitPairs.getD (r * 2 + 1) nul = Nat.digitChar (r % 10) := by
  have hflat : digitPairs = (List.range 100).flatMap fun r =>
      [Nat.digitChar (r / 10), Nat.digitChar (r % 10)] := by decide +kernel
  rw [hflat]
  exact getD_pairs _ _ nul hr

theorem length_toDigits {k v : ℕ} (hlo : 10 ^ k ≤ v) (hhi : v < 10 ^ (k + 1)) :
    (Nat.toDigits 10 v).length = k + 1 := by
  have hle := (Nat.length_toDigits_le_iff (b := 10) (by decide) (Nat.succ_pos k)).mpr hhi
  have hpos := Nat.length_toDigits_pos (b := 10) (n := v)
  by_contra hne
  obtain ⟨j, rfl⟩ := Nat.exists_eq_succ_of_ne_zero (n := k) (by omega)
  have hlt := (Nat.length_toDigits_le_iff (b := 10) (n := v) (by decide) (Nat.succ_pos j)).mp
    (by omega)
  omega

/-- `digits10` counts the digits. -/
theorem digits10_eq (v : ℕ) : digits10 v = (Nat.toDigits 10 v).length := by
  induction v using Nat.strong_induction_on with
  | _ v ih =>
      have hpos := Nat.length_toDigits_pos (b := 10) (n := v)
      have hone : v < 10 → (Nat.toDigits 10 v).length = 1 := fun h => by
        rw [Nat.toDigits_of_lt_base h]
        rfl
      by_cases hbig : v < 1000000000000
      · have hcount : ∀ k, 10 ^ k ≤ v → v < 10 ^ (k + 1) → k + 1 = (Nat.toDigits 10 v).length :=
          fun k hlo hhi => (length_toDigits hlo hhi).symm
        rw [digits10, if_pos hbig]
        split
        · next h => exact (hone h).symm
        split
        · exact hcount 1 (by omega) (by omega)
        split
        · exact hcount 2 (by omega) (by omega)
        split
        · split
          · split
            · exact hcount 3 (by omega) (by omega)
            · split
              · exact hcount 5 (by omega) (by omega)
              · exact hcount 4 (by omega) (by omega)
          · split
            · exact hcount 7 (by omega) (by omega)
            · exact hcount 6 (by omega) (by omega)
        · split
          · split
            · exact hcount 9 (by omega) (by omega)
            · exact hcount 8 (by omega) (by omega)
          · split
            · exact hcount 11 (by omega) (by omega)
            · exact hcount 10 (by omega) (by omega)
      · have hrec := ih (v / 1000000000000) (by omega)
        rw [digits10, if_neg (by omega), if_neg (by omega), if_neg (by omega), if_neg hbig, hrec]
        have hq : 0 < v / 1000000000000 := by omega
        have hpos' := Nat.length_toDigits_pos (b := 10) (n := v / 1000000000000)
        obtain ⟨k, hk⟩ := Nat.exists_eq_succ_of_ne_zero hpos'.ne'
        have hhi := (Nat.length_toDigits_le_iff (b := 10) (by decide) (Nat.succ_pos k)).mp hk.le
        have hlo : 10 ^ k ≤ v / 1000000000000 := by
          cases k with
          | zero => omega
          | succ j =>
              by_contra hlt
              have hshort := (Nat.length_toDigits_le_iff (b := 10) (by decide)
                (Nat.succ_pos j)).mpr (not_le.mp hlt)
              omega
        have hlen : (Nat.toDigits 10 v).length = k + 12 + 1 := by
          refine length_toDigits ?_ ?_
          · rw [Nat.pow_add]
            omega
          · rw [show k + 12 + 1 = k + 1 + 12 by omega, Nat.pow_add]
            omega
        omega

/-- Two digits more. -/
theorem toDigits_pair {v : ℕ} (h : 10 ≤ v) : Nat.toDigits 10 v
    = (if v < 100 then [] else Nat.toDigits 10 (v / 100)) ++
      [digitPairs.getD (v % 100 * 2) nul, digitPairs.getD (v % 100 * 2 + 1) nul] := by
  obtain ⟨hhi, hlo⟩ := digitPairs_eq (r := v % 100) (Nat.mod_lt _ (by decide))
  have hten : v % 100 / 10 = v / 10 % 10 := by omega
  have hone : v % 100 % 10 = v % 10 := by omega
  rw [hhi, hlo, hten, hone, Nat.toDigits_of_base_le (by decide) h]
  split
  · next hlt =>
      rw [Nat.toDigits_of_lt_base (by omega), Nat.mod_eq_of_lt (by omega : v / 10 < 10)]
      rfl
  · rw [Nat.toDigits_of_base_le (n := v / 10) (by decide) (by omega), Nat.div_div_eq_div_mul,
      List.append_assoc]
    rfl

/-- Two digits are written over two characters of the buffer. -/
theorem set_pair {dst : List Char} {next : ℕ} (hnext : next + 1 < dst.length) (a b : Char) :
    (dst.set (next + 1) b).set next a = dst.take next ++ [a, b] ++ dst.drop (next + 2) := by
  have hsplit : dst = dst.take next ++ dst[next] :: dst[next + 1] :: dst.drop (next + 2) := by
    rw [← List.drop_eq_getElem_cons, ← List.drop_eq_getElem_cons, List.take_append_drop]
  have hlen : (dst.take next).length = next := List.length_take_of_le (by omega)
  generalize dst.take next = l at hsplit hlen ⊢
  generalize dst.drop (next + 2) = r at hsplit ⊢
  generalize dst[next] = x at hsplit
  generalize dst[next + 1] = y at hsplit
  rw [hsplit, ← hlen]
  simp

/-- The digits stand at the end of the part that was open to them. -/
theorem writeDigits_eq {value next : ℕ} {dst : List Char} (hnext : next < dst.length)
    (hlen : (Nat.toDigits 10 value).length ≤ next + 1) : writeDigits value next dst
      = dst.take (next + 1 - (Nat.toDigits 10 value).length) ++ Nat.toDigits 10 value ++
        dst.drop (next + 1) := by
  induction value using Nat.strong_induction_on generalizing next dst with
  | _ value ih =>
      by_cases hone : value < 10
      · have hdigit : Char.ofNat ('0'.toNat + value) = Nat.digitChar value := by
          rw [← Char.ofNat_toNat (Nat.digitChar value), Nat.toNat_digitChar_of_lt_ten hone]
          rfl
        rw [writeDigits, if_neg (by omega), if_pos hone, Nat.toDigits_of_lt_base hone, hdigit,
          List.set_eq_take_append_cons_drop, if_pos hnext]
        simp
      · have hpair := toDigits_pair (v := value) (by omega)
        have hlen' := congrArg List.length hpair
        rw [List.length_append] at hlen'
        simp only [List.length_cons, List.length_nil] at hlen'
        obtain ⟨next, rfl⟩ := Nat.exists_eq_succ_of_ne_zero (n := next) (by omega)
        have hset := set_pair hnext (digitPairs.getD (value % 100 * 2) nul)
          (digitPairs.getD (value % 100 * 2 + 1) nul)
        by_cases htwo : value < 100
        · rw [if_pos htwo, List.nil_append] at hpair
          rw [Nat.mod_eq_of_lt htwo] at hpair hset
          rw [writeDigits, if_neg (by omega), if_neg hone, hpair]
          exact hset
        · rw [if_neg htwo] at hpair hlen'
          have hrec : writeDigits (value / 100) (next - 1) (dst.take next ++
              [digitPairs.getD (value % 100 * 2) nul, digitPairs.getD (value % 100 * 2 + 1) nul] ++
                dst.drop (next + 2)) = _ := ih (value / 100) (by omega) ?_ ?_
          · rw [writeDigits, if_pos (by omega)]
            simp only [Nat.succ_eq_add_one, Nat.add_sub_cancel, hset]
            have hpos := Nat.length_toDigits_pos (b := 10) (n := value / 100)
            have hfront : (dst.take next).length = next := List.length_take_of_le (by omega)
            have hopen : next + 1 + 1 - (Nat.toDigits 10 value).length
                = next - (Nat.toDigits 10 (value / 100)).length := by omega
            rw [show next + 1 - 2 = next - 1 by omega, hrec, show next - 1 + 1 = next by omega,
              hopen, List.append_assoc (dst.take next), List.take_append_of_le_length (by omega),
              List.take_take, min_eq_left (by omega), List.drop_left' hfront, hpair]
            simp only [List.append_assoc]
          · simp
            omega
          · omega

/-- `ll2string` on a number that is not negative. -/
theorem ll2string_ofNat {dst : List Char} {m : ℕ} (hlen : (Nat.toDigits 10 m).length < dst.length) :
    ∃ tail, ll2string dst m = (Nat.toDigits 10 m ++ tail, (Nat.toDigits 10 m).length) := by
  have hpos := Nat.length_toDigits_pos (b := 10) (n := m)
  have hneg : decide ((m : ℤ) < 0) = false := by
    rw [decide_eq_false_iff_not]
    omega
  have hwrite : writeDigits m ((Nat.toDigits 10 m).length - 1)
      (dst.set (Nat.toDigits 10 m).length nul) = _ :=
    writeDigits_eq (by rw [List.length_set]; omega) (by omega)
  rw [Nat.sub_add_cancel hpos, Nat.sub_self, List.take_zero, List.nil_append] at hwrite
  generalize (dst.set (Nat.toDigits 10 m).length nul).drop (Nat.toDigits 10 m).length = tail
    at hwrite
  refine ⟨tail, ?_⟩
  simp only [ll2string, hneg, digits10_eq, Int.natAbs_natCast, Bool.toNat_false, Nat.add_zero,
    if_neg (not_le.mpr hlen), hwrite, Bool.false_eq_true, if_false]

theorem ll2string_negSucc {dst : List Char} {m : ℕ}
    (hlen : (Nat.toDigits 10 (m + 1)).length + 1 < dst.length) :
    ∃ tail, ll2string dst (.negSucc m) =
      ('-' :: Nat.toDigits 10 (m + 1) ++ tail, (Nat.toDigits 10 (m + 1)).length + 1) := by
  have hpos := Nat.length_toDigits_pos (b := 10) (n := m + 1)
  have hneg : decide (Int.negSucc m < 0) = true := decide_eq_true (Int.negSucc_lt_zero m)
  have hwrite : writeDigits (m + 1) (Nat.toDigits 10 (m + 1)).length
      (dst.set ((Nat.toDigits 10 (m + 1)).length + 1) nul) = _ :=
    writeDigits_eq (by rw [List.length_set]; omega) (by omega)
  rw [Nat.add_sub_cancel_left] at hwrite
  -- the first character is kept for the sign
  obtain ⟨a, l, hcons⟩ := List.exists_cons_of_ne_nil
    (l := dst.set ((Nat.toDigits 10 (m + 1)).length + 1) nul)
    (List.ne_nil_of_length_pos (by rw [List.length_set]; omega))
  rw [hcons] at hwrite
  generalize (a :: l).drop ((Nat.toDigits 10 (m + 1)).length + 1) = tail at hwrite
  refine ⟨tail, ?_⟩
  simp only [ll2string, hneg, digits10_eq, Int.natAbs_negSucc, Bool.toNat_true,
    if_neg (not_le.mpr hlen), Nat.succ_eq_add_one, Nat.add_sub_cancel, hcons, hwrite, if_true,
    List.take_succ_cons, List.take_zero, List.cons_append, List.nil_append, List.set_cons_zero]

/-- `ll2string` prints a number into a buffer that is large enough. -/
theorem ll2string_print {dst : List Char} {svalue : ℤ}
    (hlen : (printInt svalue).length < dst.length) :
    ∃ tail, ll2string dst svalue = (printInt svalue ++ tail, (printInt svalue).length) := by
  cases svalue with
  | ofNat m => exact ll2string_ofNat hlen
  | negSucc m => exact ll2string_negSucc hlen

/-- `LONG_STR_SIZE`. -/
def longStrSize : ℕ := 21

theorem length_printInt_lt {v : ℤ} (hlo : -2 ^ 63 ≤ v) (hhi : v < 2 ^ 63) :
    (printInt v).length < longStrSize := by
  have hdigits : ∀ m : ℕ, m ≤ 2 ^ 63 → (Nat.toDigits 10 m).length ≤ 19 := fun m hm =>
    (Nat.length_toDigits_le_iff (by decide) (by decide)).mpr (by omega)
  cases v with
  | ofNat m =>
      have hhi : (m : ℤ) < 2 ^ 63 := hhi
      have hlen := hdigits m (by omega)
      exact Nat.lt_of_le_of_lt hlen (by decide)
  | negSucc m =>
      have hlen := hdigits (m + 1) (by omega)
      exact Nat.lt_of_le_of_lt (Nat.succ_le_succ hlen) (by decide)

/-- `string2ll` accepts exactly what `ll2string` writes of a `long long` into
a buffer of LONG_STR_SIZE or more. -/
theorem string2ll_iff_ll2string {dst : List Char} (hdst : longStrSize ≤ dst.length) (s : String)
    (v : ℤ) :
    string2ll s = some v ↔ -2 ^ 63 ≤ v ∧ v < 2 ^ 63 ∧
      s.toList = (ll2string dst v).1.take (ll2string dst v).2 := by
  rw [string2ll_eq_some, and_comm, and_assoc]
  refine and_congr_right fun hlo => and_congr_right fun hhi => ?_
  obtain ⟨tail, hprint⟩ := ll2string_print (Nat.lt_of_lt_of_le (length_printInt_lt hlo hhi) hdst)
  rw [hprint, List.take_left]

/-- The least `long long` through a buffer of LONG_STR_SIZE. -/
theorem string2ll_iff_ll2string_min :
    string2ll "-9223372036854775808" = some (-2 ^ 63) ↔
      -2 ^ 63 ≤ (-2 ^ 63 : ℤ) ∧ (-2 ^ 63 : ℤ) < 2 ^ 63 ∧
      "-9223372036854775808".toList =
        (ll2string (List.replicate 21 nul) (-2 ^ 63)).1.take
          (ll2string (List.replicate 21 nul) (-2 ^ 63)).2 :=
  string2ll_iff_ll2string (by decide) _ _

end CrdtRedis
