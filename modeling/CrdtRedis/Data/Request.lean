/-
An incremental reader of requests that arrive in pieces.

A request is a vector of strings. It is written as a line of words, or as
a count followed by the arguments, each behind its length; a line ends in
CR LF, and the second character of its end is not looked at. What was
received and not consumed is the unread rest. A reader consumes a line or
an argument once it is all there and waits otherwise, keeping how far it
came (`Parser`): the kind of request, the number of arguments missing, the
length of the next one.

# What does not depend on the cuts

`feed_append`: as long as nothing made the reader stop, reading a text in
two pieces executes what reading it at once does and ends in the same
state. The proof goes along the reader's functions. Each has two lemmas:
what was there is the same with more behind it (`_done`), and what was
waited for goes on from where the wait left it (`_wait`). A stop is
different: a line that is too long to wait for may be complete a moment
later.
-/
import CrdtRedis.Data.CString

namespace Request

open CString

/-- A string of bytes. -/
abbrev Text := List Char

/-- What a receiver is set up with. -/
structure Format where
  /-- The number a count or a length is written as. -/
  number : Text → Option ℤ
  /-- The words of an inline request, unless its quotes are unbalanced. -/
  words : Text → Option (List Text)
  /-- The vector that ends the session. -/
  quits : List Text → Bool
  /-- The longest line that is waited for. -/
  maxLine : ℕ
  /-- The largest number of arguments. -/
  maxCount : ℤ
  /-- The longest argument. -/
  maxBulk : ℕ

/-- What is wrong with a request. -/
inductive Fault
  | longInline | quotes | longCount | badCount | longLen | noDollar (got : Char) | badLen
deriving DecidableEq, Repr

/-- Why nothing more is read. -/
inductive Stop
  | quit
  | fault (e : Fault)
deriving DecidableEq, Repr

/-- The two ways to write a request. -/
inductive Kind
  | inline | multibulk
deriving DecidableEq, Repr

/-- Where a receiver is. -/
structure Parser where
  /-- What was received and not consumed. -/
  rest : Text
  /-- How the request that began is written. -/
  kind : Option Kind
  /-- The arguments that are missing. -/
  missing : ℕ
  /-- The length of the next one, once it is known. -/
  bulk : Option ℕ
  argv : List Text
  stop : Option Stop
deriving DecidableEq

/-- A line of a text: its end is not there, the second character of its
end is not there, or what it says and what follows it. -/
inductive Line
  | endless
  | cut
  | whole (text rest : Text)
deriving DecidableEq

/-- The first line of a text. -/
def line (s : Text) : Line :=
  match strchr '\r' s with
  | none => .endless
  | some i => if s.length < i + 2 then .cut else .whole (s.take i) (s.drop (i + 2))

namespace Parser

/-- Nothing received. -/
def start : Parser := ⟨[], none, 0, none, [], none⟩

/-- More is received. -/
def push (b : Text) (p : Parser) : Parser := { p with rest := p.rest ++ b }

/-- The request is turned down and the session ends. -/
def fail (e : Fault) (p : Parser) : Parser := { p with stop := some (.fault e) }

/-- The next request begins. -/
def reset (p : Parser) : Parser := { p with kind := none, missing := 0, bulk := none, argv := [] }

section

variable (F : Format)

/-- Wait for the end of a line, not for ever. -/
def await (e : Fault) (p : Parser) : Parser :=
  if F.maxLine < p.rest.length then p.fail e else p

/-- The length a line announces. -/
def lenOf (text : Text) : Except Fault ℕ :=
  if text.head? ≠ some '$' then .error (.noDollar (text.headD '\r'))
  else match F.number text.tail with
    | none => .error .badLen
    | some v => if v < 0 ∨ (F.maxBulk : ℤ) < v then .error .badLen else .ok v.toNat

/-- The number of arguments a line announces. -/
def countOf (text : Text) : Except Fault ℕ :=
  match F.number text.tail with
  | none => .error .badCount
  | some v => if F.maxCount < v then .error .badCount else .ok v.toNat

/-- Read the length of the next argument, unless it is known. -/
def readLen (p : Parser) : Parser × Bool :=
  match p.bulk with
  | some _ => (p, true)
  | none =>
      match line p.rest with
      | .endless => (p.await F .longLen, false)
      | .cut => (p, false)
      | .whole text rest =>
          match lenOf F text with
          | .error e => (p.fail e, false)
          | .ok len => ({ p with rest := rest, bulk := some len }, true)

/-- Take the next argument, of length `len`, and the end of its line. -/
def takeBulk (len : ℕ) (p : Parser) : Option Parser :=
  if p.rest.length < len + 2 then none
  else some { p with
    rest := p.rest.drop (len + 2)
    missing := p.missing - 1
    bulk := none
    argv := p.argv ++ [p.rest.take len] }

/-- Read `m` arguments; whether all of them are there. -/
def bulks : ℕ → Parser → Parser × Bool
  | 0, p => (p, true)
  | m + 1, p =>
      match p.readLen F with
      | (p, false) => (p, false)
      | (p, true) =>
          match p.takeBulk (p.bulk.getD 0) with
          | none => (p, false)
          | some p => bulks m p

/-- Read a request written as a count and arguments with their lengths. -/
def multibulk (p : Parser) : Parser × Bool :=
  if p.missing ≠ 0 then p.bulks F p.missing
  else match line p.rest with
    | .endless => (p.await F .longCount, false)
    | .cut => (p, false)
    | .whole text rest =>
        match countOf F text with
        | .error e => (p.fail e, false)
        | .ok m => bulks F m { p with rest := rest, missing := m }

/-- Read a request written as words. -/
def inline (p : Parser) : Parser × Bool :=
  match strchr '\n' p.rest with
  | none => (p.await F .longInline, false)
  | some i =>
      let len := if i ≠ 0 ∧ p.rest[i - 1]? = some '\r' then i - 1 else i
      match F.words (p.rest.take len) with
      | none => (p.fail .quotes, false)
      | some argv => ({ p with rest := p.rest.drop (i + 1), argv := argv }, true)

/-- How the request that begins is written. -/
def choose (p : Parser) : Parser :=
  { p with kind := some (p.kind.getD (if p.rest.head? = some '*' then .multibulk else .inline)) }

/-- Read the request that began. -/
def request (p : Parser) : Parser × Bool :=
  if p.kind = some .inline then p.inline F else p.multibulk F

/-- A request that is all there: what is executed of it. -/
def finish (p : Parser) : Parser × List (List Text) :=
  if p.argv = [] then (p.reset, [])
  else if F.quits p.argv then ({ p with stop := some .quit }, [])
  else (p.reset, [p.argv])

/-- Read one request: the vectors to execute, and whether to go on. -/
def round (p : Parser) : Parser × List (List Text) × Bool :=
  match p.choose.request F with
  | (p, false) => (p, [], false)
  | (p, true) => ((p.finish F).1, (p.finish F).2, true)

end

variable {F : Format} {p q : Parser} {m : ℕ} {b : Text}

@[simp] theorem push_rest (b : Text) (p : Parser) : (p.push b).rest = p.rest ++ b := rfl
@[simp] theorem push_bulk (b : Text) (p : Parser) : (p.push b).bulk = p.bulk := rfl
@[simp] theorem push_missing (b : Text) (p : Parser) : (p.push b).missing = p.missing := rfl
@[simp] theorem push_kind (b : Text) (p : Parser) : (p.push b).kind = p.kind := rfl
@[simp] theorem push_argv (b : Text) (p : Parser) : (p.push b).argv = p.argv := rfl
@[simp] theorem push_stop (b : Text) (p : Parser) : (p.push b).stop = p.stop := rfl

-- ====================================================== single functions

/-- A line that is all there is the same with more behind it. -/
theorem line_append {s text rest : Text} (h : line s = .whole text rest) :
    line (s ++ b) = .whole text (rest ++ b) := by
  unfold line at h ⊢
  split at h
  · cases h
  · next i hi =>
      split at h
      · cases h
      · next hlen =>
          obtain ⟨rfl, rfl⟩ := Line.whole.inj h
          have hlen' : ¬ (s ++ b).length < i + 2 := by
            rw [List.length_append]
            omega
          simp only [strchr_append hi]
          rw [if_neg hlen', List.take_append_of_le_length (by omega),
            List.drop_append_of_le_length (by omega)]

theorem line_whole_length {s text rest : Text} (h : line s = .whole text rest) :
    rest.length + text.length + 2 = s.length := by
  unfold line at h
  split at h
  · cases h
  · next i hi =>
      split at h
      · cases h
      · next hlen =>
          obtain ⟨rfl, rfl⟩ := Line.whole.inj h
          rw [List.length_take, List.length_drop]
          omega

theorem await_cases (F : Format) (e : Fault) (p : Parser) :
    p.await F e = p ∨ p.await F e = p.fail e := by
  unfold await
  split
  · exact Or.inr rfl
  · exact Or.inl rfl

/-- What reading a length does. -/
inductive LenRead (F : Format) (p : Parser) : Parser → Bool → Prop
  | known (hb : p.bulk.isSome = true) : LenRead F p p true
  | wait : LenRead F p p false
  | fault (e : Fault) : LenRead F p (p.fail e) false
  | read {text rest : Text} {len : ℕ} (hb : p.bulk = none)
      (hl : line p.rest = .whole text rest) (hlen : lenOf F text = .ok len) :
      LenRead F p { p with rest := rest, bulk := some len } true

theorem readLen_cases {known : Bool} (h : p.readLen F = (q, known)) : LenRead F p q known := by
  unfold readLen at h
  cases hb : p.bulk with
  | some len =>
      rw [hb] at h
      cases h
      exact .known (by rw [hb]; rfl)
  | none =>
      rw [hb] at h
      cases hl : line p.rest with
      | endless =>
          rw [hl] at h
          cases h
          rcases await_cases F .longLen p with heq | heq
          · rw [heq]
            exact .wait
          · rw [heq]
            exact .fault _
      | cut =>
          rw [hl] at h
          cases h
          exact .wait
      | whole text rest =>
          simp only [hl] at h
          cases hlen : lenOf F text with
          | error e =>
              rw [hlen] at h
              cases h
              exact .fault e
          | ok len =>
              rw [hlen] at h
              cases h
              exact .read hb hl hlen

theorem readLen_of_bulk (h : p.bulk.isSome = true) : p.readLen F = (p, true) := by
  obtain ⟨len, hlen⟩ := Option.isSome_iff_exists.mp h
  simp only [readLen, hlen]

theorem readLen_done (h : p.readLen F = (q, true)) : (p.push b).readLen F = (q.push b, true) := by
  cases readLen_cases h with
  | known hb => exact readLen_of_bulk hb
  | read hb hl hlen =>
      unfold readLen
      simp only [push_bulk, hb, push_rest, line_append hl, hlen]
      rfl

theorem takeBulk_append {len : ℕ} (h : p.takeBulk len = some q) :
    (p.push b).takeBulk len = some (q.push b) := by
  unfold takeBulk at h ⊢
  split at h
  · cases h
  · next hlen =>
      cases h
      have hlen' : ¬ (p.rest ++ b).length < len + 2 := by
        rw [List.length_append]
        omega
      rw [push_rest, if_neg hlen', List.take_append_of_le_length (by omega),
        List.drop_append_of_le_length (by omega)]
      rfl

theorem takeBulk_length {len : ℕ} (h : p.takeBulk len = some q) :
    q.rest.length + len + 2 = p.rest.length ∧ q.missing = p.missing - 1 := by
  unfold takeBulk at h
  split at h
  · cases h
  · cases h
    rw [List.length_drop]
    exact ⟨by omega, rfl⟩

theorem readLen_length (h : p.readLen F = (q, true)) :
    q.rest.length ≤ p.rest.length ∧ q.bulk.isSome = true ∧ q.missing = p.missing := by
  cases readLen_cases h with
  | known hb => exact ⟨le_rfl, hb, rfl⟩
  | read hb hl hlen =>
      have hline := line_whole_length hl
      refine ⟨?_, rfl, rfl⟩
      simp only
      omega

theorem readLen_stop (h : p.readLen F = (q, true)) : q.stop = p.stop := by
  cases readLen_cases h with
  | known hb => rfl
  | read hb hl hlen => rfl

theorem takeBulk_stop {len : ℕ} (h : p.takeBulk len = some q) : q.stop = p.stop := by
  unfold takeBulk at h
  split at h
  · cases h
  · cases h
    rfl

theorem readLen_wait (h : p.readLen F = (q, false)) (hq : q.stop = none) : q = p := by
  cases readLen_cases h with
  | wait => rfl
  | fault e => cases hq

-- =========================================================== the arguments

/-- With more received, a request whose arguments were all there is the same. -/
theorem bulks_done (h : p.bulks F m = (q, true)) : (p.push b).bulks F m = (q.push b, true) := by
  induction m generalizing p with
  | zero =>
      cases h
      rfl
  | succ m ih =>
      unfold bulks at h ⊢
      cases hr : p.readLen F with
      | mk p' known =>
          rw [hr] at h
          cases known with
          | false => cases h
          | true =>
              rw [readLen_done hr]
              simp only [push_bulk] at h ⊢
              cases ht : p'.takeBulk (p'.bulk.getD 0) with
              | none =>
                  rw [ht] at h
                  cases h
              | some p'' =>
                  rw [ht] at h
                  rw [takeBulk_append ht]
                  exact ih h

/-- A request whose arguments were not all there goes on where it stopped. -/
theorem bulks_wait (h : p.bulks F m = (q, false)) (hq : q.stop = none) (hm : p.missing = m) :
    q.missing ≠ 0 ∧ (p.push b).bulks F m = (q.push b).bulks F q.missing := by
  induction m generalizing p with
  | zero => cases h
  | succ m ih =>
      unfold bulks at h
      cases hr : p.readLen F with
      | mk p' known =>
          rw [hr] at h
          cases known with
          | false =>
              cases h
              rw [readLen_wait hr hq, hm]
              exact ⟨by omega, rfl⟩
          | true =>
              obtain ⟨-, hknown, hmiss⟩ := readLen_length hr
              simp only at h
              cases ht : p'.takeBulk (p'.bulk.getD 0) with
              | none =>
                  rw [ht] at h
                  cases h
                  rw [hmiss, hm]
                  refine ⟨by omega, ?_⟩
                  rw [bulks, bulks, readLen_done hr, readLen_of_bulk (p := q.push b) hknown]
              | some p'' =>
                  rw [ht] at h
                  have hm' := (takeBulk_length ht).2
                  obtain ⟨hne, hrest⟩ := ih h (by omega)
                  refine ⟨hne, ?_⟩
                  rw [bulks, readLen_done hr]
                  simp only [push_bulk, takeBulk_append ht]
                  exact hrest

/-- Reading arguments consumes them. -/
theorem bulks_length (h : p.bulks F m = (q, true)) : q.rest.length + 2 * m ≤ p.rest.length := by
  induction m generalizing p with
  | zero =>
      cases h
      exact le_rfl
  | succ m ih =>
      unfold bulks at h
      cases hr : p.readLen F with
      | mk p' known =>
          rw [hr] at h
          cases known with
          | false => cases h
          | true =>
              have hlen := (readLen_length hr).1
              simp only at h
              cases ht : p'.takeBulk (p'.bulk.getD 0) with
              | none =>
                  rw [ht] at h
                  cases h
              | some p'' =>
                  rw [ht] at h
                  have htake := (takeBulk_length ht).1
                  have hrest := ih h
                  omega

-- ======================================================== counted requests

/-- What reading the count of a request does. -/
inductive Counted (F : Format) (p : Parser) : Parser × Bool → Prop
  | going (hm : p.missing ≠ 0) : Counted F p (p.bulks F p.missing)
  | wait : Counted F p (p, false)
  | fault (e : Fault) : Counted F p (p.fail e, false)
  | count {text rest : Text} {m : ℕ} (hm : p.missing = 0) (hl : line p.rest = .whole text rest)
      (hc : countOf F text = .ok m) :
      Counted F p (bulks F m { p with rest := rest, missing := m })

theorem multibulk_cases (F : Format) (p : Parser) : Counted F p (p.multibulk F) := by
  unfold multibulk
  split
  · next hm => exact .going hm
  · next hm =>
      cases hl : line p.rest with
      | endless =>
          rcases await_cases F .longCount p with heq | heq
          · simp only [heq]
            exact .wait
          · simp only [heq]
            exact .fault _
      | cut => exact .wait
      | whole text rest =>
          simp only
          cases hc : countOf F text with
          | error e => exact .fault e
          | ok m => exact .count (not_not.mp hm) hl hc

theorem multibulk_count {text rest : Text} {m : ℕ} (hm : p.missing = 0)
    (hl : line p.rest = .whole text rest) (hc : countOf F text = .ok m) :
    p.multibulk F = bulks F m { p with rest := rest, missing := m } := by
  unfold multibulk
  simp only [hm, ne_eq, not_true_eq_false, if_false, hl, hc]

theorem multibulk_going (hm : p.missing ≠ 0) : p.multibulk F = p.bulks F p.missing := if_pos hm

/-- A request that was there is the same with more received. -/
theorem multibulk_done (h : p.multibulk F = (q, true)) :
    (p.push b).multibulk F = (q.push b, true) := by
  generalize hr : p.multibulk F = r at h
  have hcases := multibulk_cases F p
  rw [hr] at hcases
  cases hcases with
  | going hm => exact (multibulk_going (p := p.push b) hm).trans (bulks_done h)
  | wait => cases h
  | fault e => cases h
  | count hm hl hc =>
      exact (multibulk_count (p := p.push b) hm (line_append hl) hc).trans (bulks_done h)

theorem multibulk_wait (h : p.multibulk F = (q, false)) (hq : q.stop = none) :
    (p.push b).multibulk F = (q.push b).multibulk F := by
  generalize hr : p.multibulk F = r at h
  have hcases := multibulk_cases F p
  rw [hr] at hcases
  cases hcases with
  | going hm =>
      obtain ⟨hne, heq⟩ := bulks_wait (b := b) h hq rfl
      exact (multibulk_going (p := p.push b) hm).trans
        (heq.trans (multibulk_going (p := q.push b) hne).symm)
  | wait =>
      cases h
      rfl
  | fault e =>
      cases h
      cases hq
  | count hm hl hc =>
      obtain ⟨hne, heq⟩ := bulks_wait (b := b) h hq rfl
      exact (multibulk_count (p := p.push b) hm (line_append hl) hc).trans
        (heq.trans (multibulk_going (p := q.push b) hne).symm)

theorem multibulk_length (h : p.multibulk F = (q, true)) : q.rest.length < p.rest.length := by
  generalize hr : p.multibulk F = r at h
  have hcases := multibulk_cases F p
  rw [hr] at hcases
  cases hcases with
  | going hm =>
      have hlen := bulks_length h
      omega
  | wait => cases h
  | fault e => cases h
  | count hm hl hc =>
      have hlen := bulks_length h
      have hline := line_whole_length hl
      simp only at hlen
      omega

-- =========================================================== inline requests

/-- What reading a line of words does. -/
inductive Worded (F : Format) (p : Parser) : Parser × Bool → Prop
  | wait : Worded F p (p, false)
  | fault (e : Fault) : Worded F p (p.fail e, false)
  | words {i : ℕ} {argv : List Text} (hi : strchr '\n' p.rest = some i)
      (hargv : F.words (p.rest.take
        (if i ≠ 0 ∧ p.rest[i - 1]? = some '\r' then i - 1 else i)) = some argv) :
      Worded F p ({ p with rest := p.rest.drop (i + 1), argv := argv }, true)

theorem inline_cases (F : Format) (p : Parser) : Worded F p (p.inline F) := by
  unfold inline
  cases hi : strchr '\n' p.rest with
  | none =>
      rcases await_cases F .longInline p with heq | heq
      · simp only [heq]
        exact .wait
      · simp only [heq]
        exact .fault _
  | some i =>
      simp only
      cases hargv : F.words (p.rest.take
          (if i ≠ 0 ∧ p.rest[i - 1]? = some '\r' then i - 1 else i)) with
      | none => exact .fault _
      | some argv => exact .words hi hargv

theorem inline_words {i : ℕ} {argv : List Text} (hi : strchr '\n' p.rest = some i)
    (hargv : F.words (p.rest.take
      (if i ≠ 0 ∧ p.rest[i - 1]? = some '\r' then i - 1 else i)) = some argv) :
    p.inline F = ({ p with rest := p.rest.drop (i + 1), argv := argv }, true) := by
  unfold inline
  simp only [hi, hargv]

theorem inline_done (h : p.inline F = (q, true)) : (p.push b).inline F = (q.push b, true) := by
  generalize hr : p.inline F = r at h
  have hcases := inline_cases F p
  rw [hr] at hcases
  cases hcases with
  | wait => cases h
  | fault e => cases h
  | @words i argv hi hargv =>
      cases h
      have hlt := strchr_lt hi
      have hlast : (p.rest ++ b)[i - 1]? = p.rest[i - 1]? := List.getElem?_append_left (by omega)
      have hwords : F.words ((p.push b).rest.take
          (if i ≠ 0 ∧ (p.push b).rest[i - 1]? = some '\r' then i - 1 else i)) = some argv := by
        rw [push_rest, hlast, List.take_append_of_le_length (by split <;> omega)]
        exact hargv
      rw [inline_words (p := p.push b) (strchr_append hi) hwords, push_rest,
        List.drop_append_of_le_length (by omega)]
      rfl

theorem inline_wait (h : p.inline F = (q, false)) (hq : q.stop = none) : q = p := by
  generalize hr : p.inline F = r at h
  have hcases := inline_cases F p
  rw [hr] at hcases
  cases hcases with
  | wait =>
      cases h
      rfl
  | fault e =>
      cases h
      cases hq
  | words hi hargv => cases h

theorem inline_length (h : p.inline F = (q, true)) : q.rest.length < p.rest.length := by
  generalize hr : p.inline F = r at h
  have hcases := inline_cases F p
  rw [hr] at hcases
  cases hcases with
  | wait => cases h
  | fault e => cases h
  | words hi hargv =>
      cases h
      have hlt := strchr_lt hi
      rw [List.length_drop]
      omega

-- ========================================================== whole requests

@[simp] theorem push_nil (p : Parser) : p.push [] = p := by
  unfold push
  rw [List.append_nil]

theorem push_push (a b : Text) (p : Parser) : (p.push a).push b = p.push (a ++ b) := by
  unfold push
  rw [List.append_assoc]

/-- Whether all of a request is there does not depend on what follows. -/
theorem request_done (h : p.request F = (q, true)) : (p.push b).request F = (q.push b, true) := by
  unfold request at h ⊢
  rw [push_kind]
  split at h
  · next hk =>
      rw [if_pos hk]
      exact inline_done h
  · next hk =>
      rw [if_neg hk]
      exact multibulk_done h

theorem readLen_kind (p : Parser) : (p.readLen F).1.kind = p.kind := by
  cases hr : p.readLen F with
  | mk q known => cases readLen_cases hr <;> rfl

theorem bulks_kind (m : ℕ) (p : Parser) : (p.bulks F m).1.kind = p.kind := by
  induction m generalizing p with
  | zero => rfl
  | succ m ih =>
      have hkind := readLen_kind (F := F) p
      unfold bulks
      cases hr : p.readLen F with
      | mk p' known =>
          rw [hr] at hkind
          cases known with
          | false => exact hkind
          | true =>
              simp only
              cases ht : p'.takeBulk (p'.bulk.getD 0) with
              | none => exact hkind
              | some p'' =>
                  unfold takeBulk at ht
                  split at ht
                  · cases ht
                  · cases ht
                    exact (ih _).trans hkind

theorem request_multibulk (h : p.kind = some .multibulk) : p.request F = p.multibulk F :=
  if_neg (by rw [h]; simp)

theorem request_kind (p : Parser) : (p.request F).1.kind = p.kind := by
  unfold request
  split
  · cases hr : p.inline F with
    | mk q known =>
        have hcases := inline_cases F p
        rw [hr] at hcases
        cases hcases <;> rfl
  · have hcases := multibulk_cases F p
    generalize p.multibulk F = r at hcases
    cases hcases with
    | going hm => exact bulks_kind _ _
    | wait => rfl
    | fault e => rfl
    | count hm hl hc => exact bulks_kind _ _

theorem request_wait (h : p.request F = (q, false)) (hq : q.stop = none) :
    (p.push b).request F = (q.push b).request F := by
  have hkind : q.kind = p.kind := by
    rw [← request_kind (F := F) p, h]
  unfold request at h ⊢
  rw [push_kind, push_kind, hkind]
  split at h
  · next hk => rw [if_pos hk, inline_wait h hq, if_pos hk]
  · next hk =>
      rw [if_neg hk, if_neg hk]
      exact multibulk_wait h hq

theorem request_length (h : p.request F = (q, true)) : q.rest.length < p.rest.length := by
  unfold request at h
  split at h
  · exact inline_length h
  · exact multibulk_length h

/-- A request that is all there stops nothing. -/
theorem bulks_stop (h : p.bulks F m = (q, true)) : q.stop = p.stop := by
  induction m generalizing p with
  | zero =>
      cases h
      rfl
  | succ m ih =>
      unfold bulks at h
      cases hr : p.readLen F with
      | mk p' known =>
          rw [hr] at h
          cases known with
          | false => cases h
          | true =>
              simp only at h
              cases ht : p'.takeBulk (p'.bulk.getD 0) with
              | none =>
                  rw [ht] at h
                  cases h
              | some p'' =>
                  rw [ht] at h
                  rw [ih h, takeBulk_stop ht, readLen_stop hr]

theorem request_stop (h : p.request F = (q, true)) : q.stop = p.stop := by
  unfold request at h
  split at h
  · have hcases := inline_cases F p
    rw [h] at hcases
    cases hcases
    rfl
  · generalize hr : p.multibulk F = r at h
    have hcases := multibulk_cases F p
    rw [hr] at hcases
    cases hcases with
    | going hm => exact bulks_stop h
    | wait => cases h
    | fault e => cases h
    | count hm hl hc => exact (bulks_stop h).trans rfl

/-- How a request is written is seen at its first character. -/
theorem choose_push (hne : p.rest ≠ []) : (p.push b).choose = p.choose.push b := by
  obtain ⟨c, s, hcons⟩ := List.exists_cons_of_ne_nil hne
  unfold choose push
  rw [hcons]
  rfl

theorem choose_of_kind {k : Kind} (h : p.kind = some k) : p.choose = p := by
  unfold choose
  rw [h]
  show { p with kind := some k } = p
  rw [← h]

theorem choose_rest (p : Parser) : p.choose.rest = p.rest := rfl

theorem finish_push (b : Text) (p : Parser) :
    (p.push b).finish F = ((p.finish F).1.push b, (p.finish F).2) := by
  unfold finish
  rw [push_argv]
  split
  · rfl
  · split
    · rfl
    · rfl

theorem finish_rest (p : Parser) : (p.finish F).1.rest = p.rest := by
  unfold finish
  split
  · rfl
  · split
    · rfl
    · rfl

/-- What reading one request does. -/
inductive Round (F : Format) (p : Parser) : Parser → List (List Text) → Bool → Prop
  | wait {q : Parser} (h : p.choose.request F = (q, false)) : Round F p q [] false
  | whole {q : Parser} (h : p.choose.request F = (q, true)) :
      Round F p (q.finish F).1 (q.finish F).2 true

theorem round_cases {vs : List (List Text)} {more : Bool} (h : p.round F = (q, vs, more)) :
    Round F p q vs more := by
  unfold round at h
  cases hr : p.choose.request F with
  | mk q' whole =>
      rw [hr] at h
      cases whole with
      | false =>
          cases h
          exact .wait hr
      | true =>
          cases h
          exact .whole hr

theorem round_length {vs : List (List Text)} (h : p.round F = (q, vs, true)) :
    q.rest.length < p.rest.length := by
  cases round_cases h with
  | whole hr =>
      rw [finish_rest]
      exact request_length (p := p.choose) hr

theorem round_done (hne : p.rest ≠ []) {vs : List (List Text)} (h : p.round F = (q, vs, true)) :
    (p.push b).round F = (q.push b, vs, true) := by
  cases round_cases h with
  | whole hr =>
      unfold round
      rw [choose_push hne, request_done hr]
      simp only [finish_push]

theorem round_wait (hne : p.rest ≠ []) {vs : List (List Text)} (h : p.round F = (q, vs, false))
    (hq : q.stop = none) : vs = [] ∧ (p.push b).round F = (q.push b).round F := by
  cases round_cases h with
  | wait hr =>
      have hkind : q.kind = p.choose.kind := by rw [← request_kind (F := F) p.choose, hr]
      have hchoose : (q.push b).choose = q.push b := choose_of_kind (hkind.trans rfl)
      unfold round
      rw [choose_push hne, hchoose, request_wait hr hq]
      exact ⟨rfl, rfl⟩

/-- Where a reader stands between rounds: a counted request whose count was
not read begins at the mark, and nothing of it was kept. -/
structure Aligned (p : Parser) : Prop where
  mark : p.kind = some .multibulk → p.missing = 0 → p.argv = [] ∧ p.rest.head? = some '*'
  fresh : p.kind ≠ some .multibulk → p.missing = 0 ∧ p.argv = []

theorem Aligned.start : start.Aligned :=
  ⟨fun h => by simp [Parser.start] at h, fun _ => ⟨rfl, rfl⟩⟩

theorem Aligned.reset (p : Parser) : p.reset.Aligned :=
  ⟨fun h => by simp [Parser.reset] at h, fun _ => ⟨rfl, rfl⟩⟩

theorem Aligned.push (h : p.Aligned) (b : Text) : (p.push b).Aligned := by
  refine ⟨fun hk hm => ?_, h.fresh⟩
  obtain ⟨hargv, hhead⟩ := h.mark hk hm
  refine ⟨hargv, ?_⟩
  rw [push_rest, List.head?_append, hhead]
  rfl

theorem Aligned.choose (h : p.Aligned) : p.choose.Aligned := by
  cases hk : p.kind with
  | some k =>
      rw [choose_of_kind hk]
      exact h
  | none =>
      obtain ⟨hm, hargv⟩ := h.fresh (by rw [hk]; simp)
      have hkind : p.choose.kind
          = some (if p.rest.head? = some '*' then .multibulk else .inline) := by
        unfold Parser.choose
        rw [hk]
        rfl
      refine ⟨fun hmulti _ => ⟨hargv, ?_⟩, fun _ => ⟨hm, hargv⟩⟩
      by_contra hhead
      rw [choose_rest] at hhead
      rw [hkind, if_neg hhead] at hmulti
      cases hmulti

/-- A reader that waits is aligned. -/
theorem Aligned.request (h : p.Aligned) (hk : p.kind.isSome = true)
    (hr : p.request F = (q, false)) (hq : q.stop = none) : q.Aligned := by
  have hkind : q.kind = p.kind := by rw [← request_kind (F := F) p, hr]
  unfold Parser.request at hr
  split at hr
  · rw [inline_wait hr hq]
    exact h
  · next hinline =>
      have hmulti : p.kind = some .multibulk := by
        obtain ⟨k, hk⟩ := Option.isSome_iff_exists.mp hk
        cases k with
        | inline => exact absurd hk hinline
        | multibulk => exact hk
      have hne : q.missing ≠ 0 → q.Aligned := fun hne =>
        ⟨fun _ hm => absurd hm hne, fun hnot => absurd (hkind.trans hmulti) hnot⟩
      generalize hres : p.multibulk F = r at hr
      have hcases := multibulk_cases F p
      rw [hres] at hcases
      cases hcases with
      | going hm => exact hne (bulks_wait (b := []) hr hq rfl).1
      | wait =>
          cases hr
          exact h
      | fault e =>
          cases hr
          cases hq
      | count hm hl hc => exact hne (bulks_wait (b := []) hr hq rfl).1

theorem round_aligned (h : p.Aligned) {vs : List (List Text)} {more : Bool}
    (hr : p.round F = (q, vs, more)) (hq : q.stop = none) : q.Aligned := by
  cases round_cases hr with
  | wait hreq => exact h.choose.request rfl hreq hq
  | @whole p' hreq =>
      unfold finish at hq ⊢
      split
      · exact .reset p'
      · next hargv =>
          rw [if_neg hargv] at hq
          split
          · next hquit =>
              rw [if_pos hquit] at hq
              cases hq
          · exact .reset p'

-- ================================================================= streams

/-- Read requests as long as there are any. -/
def run (F : Format) (p : Parser) : Parser × List (List Text) :=
  if p.rest = [] ∨ p.stop.isSome then (p, [])
  else match _h : p.round F with
    | (q, vs, false) => (q, vs)
    | (q, vs, true) => ((run F q).1, vs ++ (run F q).2)
termination_by p.rest.length
decreasing_by all_goals exact round_length ‹_›

/-- Take in more text. -/
def feed (F : Format) (p : Parser) (b : Text) : Parser × List (List Text) := run F (p.push b)

theorem run_idle (h : p.rest = [] ∨ p.stop.isSome) : run F p = (p, []) := by
  rw [run, if_pos h]

theorem run_wait (hne : p.rest ≠ []) (hs : p.stop = none) {vs : List (List Text)}
    (h : p.round F = (q, vs, false)) : run F p = (q, vs) := by
  rw [run, if_neg (by simp [hne, hs])]
  split
  · next heq =>
      rw [heq] at h
      cases h
      rfl
  · next heq =>
      rw [heq] at h
      cases h

theorem run_next (hne : p.rest ≠ []) (hs : p.stop = none) {vs : List (List Text)}
    (h : p.round F = (q, vs, true)) : run F p = ((run F q).1, vs ++ (run F q).2) := by
  rw [run, if_neg (by simp [hne, hs])]
  split
  · next heq =>
      rw [heq] at h
      cases h
  · next heq =>
      rw [heq] at h
      cases h
      rfl

/-- Requests read before more is received are those read afterwards, and
the rest is read from where they ended. -/
theorem run_push (h : (run F p).1.stop = none) (b : Text) :
    run F (p.push b) =
      ((run F ((run F p).1.push b)).1, (run F p).2 ++ (run F ((run F p).1.push b)).2) := by
  induction hlen : p.rest.length using Nat.strong_induction_on generalizing p with
  | _ len ih =>
      subst hlen
      by_cases hidle : p.rest = [] ∨ p.stop.isSome
      · rw [run_idle hidle, List.nil_append]
      · rw [not_or] at hidle
        obtain ⟨hne, hs⟩ := hidle
        have hs : p.stop = none := by simpa using hs
        have hne' : (p.push b).rest ≠ [] := by simp [hne]
        cases hr : p.round F with
        | mk q r =>
            obtain ⟨vs, more⟩ := r
            cases more with
            | true =>
                rw [run_next hne hs hr] at h ⊢
                rw [run_next hne' hs (round_done hne hr), ih _ (round_length hr) h rfl,
                  List.append_assoc]
            | false =>
                rw [run_wait hne hs hr] at h ⊢
                obtain ⟨rfl, hround⟩ := round_wait (b := b) hne hr h
                rw [List.nil_append]
                by_cases hqne : (q.push b).rest = []
                · obtain ⟨hq, rfl⟩ := List.append_eq_nil_iff.mp hqne
                  rw [push_nil, push_nil, run_wait hne hs hr, run_idle (Or.inl hq)]
                · cases hr' : (q.push b).round F with
                  | mk q' r' =>
                      obtain ⟨vs', more'⟩ := r'
                      rw [hr'] at hround
                      cases more' with
                      | true => rw [run_next hne' hs hround, run_next hqne h hr']
                      | false => rw [run_wait hne' hs hround, run_wait hqne h hr']

/-- A reader that has read all it can has nothing more to do. -/
theorem run_settled (h : (run F p).1.stop = none) : run F (run F p).1 = ((run F p).1, []) := by
  have hpush := run_push h []
  rw [push_nil, push_nil] at hpush
  obtain ⟨hstate, hvs⟩ := Prod.mk.inj hpush
  exact Prod.ext hstate.symm (List.self_eq_append_right.mp hvs)

/-- The cuts of what is received do not matter. -/
theorem feed_append {a : Text} (h : (p.feed F a).1.stop = none) (b : Text) :
    p.feed F (a ++ b) =
      (((p.feed F a).1.feed F b).1, (p.feed F a).2 ++ ((p.feed F a).1.feed F b).2) := by
  unfold feed at h ⊢
  rw [← push_push]
  exact run_push h b

end Parser

end Request
