/-
The query buffer is the plain reader of the library (`Query.parser`).

The lemmas follow the functions of Query.lean from the inside out. Each
says that the function does to the view what its plain form does
(`Shows`), and that the client stays sane: `qb_pos` in the buffer, and the
replies those of what stopped it. A client between two reads is idle: the
buffer is trimmed, and the plain reader has nothing left to do.

# Results

- `reads_defined`: on any sequence of reads the assertions hold.
- `reads_cut`: the cuts of a stream do not matter.
- `reads_vectors`: the text of vectors is executed vector by vector, and
  the buffer stays small.
-/
import CrdtRedis.Numbers
import CrdtRedis.Query

namespace CrdtRedis

open CString Request

-- ============================================================ the view

/-- What the plain reader is set up with. -/
def Limits.format (conf : Limits) : Format where
  number := fun text => string2ll (String.ofList text)
  words := sdssplitargs
  quits := isQuit
  maxLine := protoInlineMaxSize
  maxCount := 1024 * 1024
  maxBulk := conf.protoMaxBulkLen

@[simp] theorem Limits.format_quits (conf : Limits) : conf.format.quits = isQuit := by
  dsimp only [Limits.format]

namespace Query

/-- Why the connection is to be closed after the reply. -/
def stop (c : Query) : Option Stop :=
  if c.closeAfterReply then some ((c.protocolError.map Stop.fault).getD .quit) else none

/-- The plain reader a buffer stands for. -/
def parser (c : Query) : Parser where
  rest := c.rest
  kind := c.reqtype
  missing := c.multibulklen
  bulk := if c.bulklen = -1 then none else some c.bulklen.toNat
  argv := c.argv
  stop := c.stop

/-- The replies of the parser: one, if the client is to be closed. -/
def repliesOf : Option Stop → List String
  | none => []
  | some .quit => ["+OK\r\n"]
  | some (.fault e) => ["-ERR " ++ oneLine (errorText e) ++ "\r\n"]

/-- What every function of the parser keeps: `qb_pos` is in the buffer, a
length is known or -1, and the client was told why it is to be closed, if
it is. -/
structure Sane (c : Query) : Prop where
  pos : c.qbPos ≤ c.querybuf.length
  bulk : -1 ≤ c.bulklen
  quiet : c.closeAfterReply = false → c.protocolError = none
  told : c.replies = repliesOf c.stop
  asap : c.closeAsap = false

/-- The result of a function of the parser is that of its plain form. -/
structure Shows (r : Query × Bool) (s : Parser × Bool) : Prop where
  view : (r.1.parser, r.2) = s
  sane : r.1.Sane

variable {conf : Limits} {c : Query}

theorem length_rest (c : Query) : c.rest.length = c.querybuf.length - c.qbPos :=
  List.length_drop

theorem head_rest (c : Query) : c.querybuf[c.qbPos]? = c.rest.head? := List.head?_drop.symm

theorem stop_open (hopen : c.closeAfterReply = false) : c.stop = none := by
  unfold stop
  rw [hopen]
  rfl

theorem Sane.refuse (h : c.Sane) (hopen : c.closeAfterReply = false) (e : Fault) :
    (c.refuse e).Sane := by
  refine ⟨h.pos, h.bulk, fun hopen => Bool.noConfusion hopen, ?_, h.asap⟩
  show c.replies ++ _ = _
  rw [h.told, stop_open hopen]
  rfl

theorem Sane.tooBig (h : c.Sane) (hopen : c.closeAfterReply = false) (e : Fault) :
    (c.tooBig e).Sane := by
  unfold Query.tooBig
  split
  · exact h.refuse hopen e
  · exact h

theorem parser_tooBig (conf : Limits) (e : Fault) (c : Query) :
    (c.tooBig e).parser = c.parser.await conf.format e := by
  have hlen : c.parser.rest.length = c.querybuf.length - c.qbPos := c.length_rest
  have hiff : conf.format.maxLine < c.parser.rest.length ↔
      protoInlineMaxSize < c.querybuf.length - c.qbPos := by
    rw [hlen]
    rfl
  unfold tooBig Parser.await
  split
  · next h =>
      rw [if_pos (hiff.mpr h)]
      rfl
  · next h => rw [if_neg (hiff.not.mpr h)]

theorem parser_toFront (c : Query) : c.toFront.parser = c.parser := rfl

theorem Sane.toFront (h : c.Sane) : c.toFront.Sane :=
  ⟨Nat.zero_le _, h.bulk, h.quiet, h.told, h.asap⟩

theorem stop_isSome (c : Query) : c.parser.stop.isSome = c.closeAfterReply := by
  show c.stop.isSome = _
  unfold stop
  cases c.closeAfterReply with
  | false => rfl
  | true => rfl

theorem stop_eq_none : c.parser.stop = none ↔ c.closeAfterReply = false := by
  rw [← stop_isSome, Option.isSome_eq_false_iff, Option.isNone_iff_eq_none]

theorem resetClient_sane (h : c.Sane) : c.resetClient.Sane :=
  ⟨h.pos, le_rfl, h.quiet, h.told, h.asap⟩

/-- The line the buffer has, as the source tests for it. -/
theorem line_rest (h : c.Sane) : line c.rest = match strchr '\r' c.rest with
    | none => .endless
    | some newline =>
        if (newline : ℤ) > (c.querybuf.length : ℤ) - c.qbPos - 2 then .cut
        else .whole (c.rest.take newline) (c.rest.drop (newline + 2)) := by
  have hpos := h.pos
  unfold line
  cases strchr '\r' c.rest with
  | none => rfl
  | some newline =>
      have hiff : c.rest.length < newline + 2 ↔
          (newline : ℤ) > (c.querybuf.length : ℤ) - c.qbPos - 2 := by
        rw [length_rest]
        omega
      simp only [hiff]

/-- `qb_pos` is moved behind a line. -/
theorem parser_skip (c : Query) (i : ℕ) : ({ c with qbPos := c.qbPos + i + 2 } : Query).parser
    = { c.parser with rest := c.rest.drop (i + 2) } := by
  simp only [parser, rest, List.drop_drop, Nat.add_assoc]
  rfl

theorem Sane.skip {i : ℕ} (h : c.Sane) (hi : c.qbPos + i + 2 ≤ c.querybuf.length) :
    ({ c with qbPos := c.qbPos + i + 2 } : Query).Sane :=
  ⟨hi, h.bulk, h.quiet, h.told, h.asap⟩

/-- The first character of a line that is all there. -/
theorem head_line {i : ℕ} (h : strchr '\r' c.rest = some i) :
    c.querybuf.getD c.qbPos nul = (c.rest.take i).headD '\r' ∧
      ∀ d, d ≠ '\r' → (c.querybuf[c.qbPos]? = some d ↔ (c.rest.take i).head? = some d) := by
  rw [List.getD_eq_getElem?_getD, head_rest]
  have hget := strchr_get h
  cases hrest : c.rest with
  | nil =>
      rw [hrest] at h
      cases h
  | cons a l =>
      cases i with
      | zero =>
          rw [hrest, List.getElem?_cons_zero] at hget
          obtain rfl := Option.some.inj hget
          refine ⟨rfl, fun d hd => ⟨fun heq => absurd (Option.some.inj heq).symm hd, fun heq => ?_⟩⟩
          cases heq
      | succ i => exact ⟨rfl, fun d _ => Iff.rfl⟩

theorem lenOf_eq {i : ℕ} (h : strchr '\r' c.rest = some i) :
    Parser.lenOf conf.format (c.rest.take i) =
      if c.querybuf[c.qbPos]? ≠ some '$' then .error (.noDollar (c.querybuf.getD c.qbPos nul))
      else match string2ll (String.ofList ((c.rest.take i).drop 1)) with
        | none => .error .badLen
        | some ll =>
            if ll < 0 ∨ ll > conf.protoMaxBulkLen then .error .badLen else .ok ll.toNat := by
  obtain ⟨hgot, hhead⟩ := head_line h
  unfold Parser.lenOf
  rw [hgot, List.drop_one]
  by_cases hd : c.querybuf[c.qbPos]? = some '$'
  · rw [if_neg (not_not.mpr ((hhead '$' (by decide)).mp hd)), if_neg (not_not.mpr hd)]
    rfl
  · rw [if_pos (fun heq => hd ((hhead '$' (by decide)).mpr heq)), if_pos hd]

-- ====================================================== counted requests

theorem readBulklen_shows (conf : Limits) (h : c.Sane) (hopen : c.closeAfterReply = false) :
    Shows (c.readBulklen conf) (c.parser.readLen conf.format) ∧
      ((c.readBulklen conf).2 = true → (c.readBulklen conf).1.bulklen ≠ -1) := by
  have hpos := h.pos
  by_cases hb : c.bulklen = -1
  · have hbulk : c.parser.bulk = none := if_pos hb
    have hline := line_rest h
    have hrest : c.parser.rest = c.rest := rfl
    unfold readBulklen Parser.readLen
    rw [if_neg (not_not.mpr hb), hbulk, hrest, hline]
    cases hchr : strchr '\r' c.rest with
    | none => exact ⟨⟨by simp only [parser_tooBig conf], h.tooBig hopen _⟩, by simp⟩
    | some newline =>
        have hlt := strchr_lt hchr
        rw [length_rest] at hlt
        simp only
        by_cases hcut : (newline : ℤ) > (c.querybuf.length : ℤ) - c.qbPos - 2
        · rw [if_pos hcut, if_pos hcut]
          exact ⟨⟨rfl, h⟩, by simp⟩
        rw [if_neg hcut, if_neg hcut]
        simp only [lenOf_eq hchr]
        by_cases hdollar : c.querybuf[c.qbPos]? = some '$'
        · rw [if_neg (not_not.mpr hdollar), if_neg (not_not.mpr hdollar)]
          cases hll : string2ll (String.ofList ((c.rest.take newline).drop 1)) with
          | none => exact ⟨⟨rfl, h.refuse hopen _⟩, by simp⟩
          | some ll =>
              simp only
              by_cases hbad : ll < 0 ∨ ll > conf.protoMaxBulkLen
              · rw [if_pos hbad, if_pos hbad]
                exact ⟨⟨rfl, h.refuse hopen _⟩, by simp⟩
              · rw [if_neg hbad, if_neg hbad]
                rw [not_or] at hbad
                -- with or without the move to the front
                have hlen : ∀ c' : Query, c'.Sane →
                    c'.parser = { c.parser with rest := c.rest.drop (newline + 2) } →
                    Shows ({ c' with bulklen := ll }, true) ({ c.parser with
                      rest := c.rest.drop (newline + 2), bulk := some ll.toNat }, true) := by
                  intro c' hs hv
                  have hll : ll ≠ -1 := by omega
                  refine ⟨?_, hs.pos, by simp only; omega, hs.quiet, hs.told, hs.asap⟩
                  have hbulk : ({ c' with bulklen := ll } : Query).parser
                      = { c'.parser with bulk := some ll.toNat } := by
                    simp [parser, rest, stop, hll]
                  rw [hbulk, hv]
                have hmove := h.skip (i := newline) (by omega)
                have hview := c.parser_skip newline
                refine ⟨?_, fun _ => by simp only; omega⟩
                split
                · exact hlen _ hmove.toFront hview
                · exact hlen _ hmove hview
        · rw [if_pos hdollar, if_pos hdollar]
          exact ⟨⟨rfl, h.refuse hopen _⟩, by simp⟩
  · have hbulk : c.parser.bulk = some c.bulklen.toNat := if_neg hb
    unfold readBulklen Parser.readLen
    rw [if_pos hb, hbulk]
    exact ⟨⟨rfl, h⟩, fun _ => hb⟩

/-- Taking an argument out of the buffer, copied or not. -/
theorem takeBulk_shows (h : c.Sane) (hb : c.bulklen ≠ -1) :
    c.takeBulk.map parser = c.parser.takeBulk (c.parser.bulk.getD 0) ∧
      ∀ c' ∈ c.takeBulk, c'.Sane := by
  have hpos := h.pos
  have hbulk := h.bulk
  obtain ⟨len, hlen⟩ : ∃ len : ℕ, c.bulklen = len := ⟨c.bulklen.toNat, by omega⟩
  have hget : c.parser.bulk.getD 0 = len := by
    simp [parser, hlen]
  have hrest : c.parser.rest = c.rest := rfl
  have hsome : ∀ {a b : Query}, a ∈ some b → b.Sane → a.Sane := by
    intro a b hab hs
    rw [← Option.some.inj hab]
    exact hs
  unfold takeBulk Parser.takeBulk
  rw [hget, hrest, length_rest, hlen]
  by_cases hshort : c.querybuf.length - c.qbPos < len + 2
  · rw [if_pos (by omega), if_pos hshort]
    exact ⟨rfl, by simp⟩
  rw [if_neg (by omega), if_neg hshort]
  split
  · next hall =>
      obtain ⟨hzero, -, hall⟩ := hall
      have heq : c.querybuf.length = len + 2 := by omega
      refine ⟨?_, fun c' hc => hsome hc ⟨by simp [hzero], le_rfl, h.quiet, h.told, h.asap⟩⟩
      rw [Option.map_some]
      congr 1
      have hdrop : c.querybuf.drop (len + 2) = [] := List.drop_eq_nil_of_le heq.le
      simp only [parser, rest, hzero, List.drop_zero, heq, Nat.add_sub_cancel, hdrop]
      rfl
  · refine ⟨?_, fun c' hc => hsome hc ⟨by simp only; omega, le_rfl, h.quiet, h.told, h.asap⟩⟩
    have hnext : (len + 2 : ℤ).toNat = len + 2 := by omega
    rw [Option.map_some]
    congr 1
    simp only [parser, rest, List.drop_drop, hnext, Int.toNat_natCast]
    rfl

theorem bulkLoop_shows (conf : Limits) (m : ℕ) (h : c.Sane) (hopen : c.closeAfterReply = false) :
    Shows (c.bulkLoop conf m) (c.parser.bulks conf.format m) := by
  induction m generalizing c with
  | zero => exact ⟨rfl, h⟩
  | succ m ih =>
      obtain ⟨hshows, hknown⟩ := readBulklen_shows conf h hopen
      have hview := hshows.view
      have hsane := hshows.sane
      unfold bulkLoop Parser.bulks
      generalize c.readBulklen conf = r at hknown hsane hview
      obtain ⟨c', ok⟩ := r
      rw [← hview]
      cases ok with
      | false => exact ⟨rfl, hsane⟩
      | true =>
          obtain ⟨htake, hsane'⟩ := takeBulk_shows hsane (hknown rfl)
          have hstop := Parser.readLen_stop hview.symm
          simp only
          cases ht : c'.takeBulk with
          | none =>
              rw [ht] at htake
              rw [← htake]
              exact ⟨rfl, hsane⟩
          | some c'' =>
              rw [ht] at htake
              rw [← htake]
              refine ih (hsane' c'' ht) (stop_eq_none.mp ?_)
              rw [Parser.takeBulk_stop htake.symm, hstop]
              exact stop_eq_none.mpr hopen

theorem countOf_eq {i : ℕ} : Parser.countOf conf.format (c.rest.take i) =
    match string2ll (String.ofList ((c.rest.take i).drop 1)) with
    | none => .error .badCount
    | some ll => if ll > 1024 * 1024 then .error .badCount else .ok ll.toNat := by
  rw [List.drop_one]
  rfl

/-- The assertions of `processMultibulkBuffer` hold at a client that stands
at the mark of its request. -/
theorem processMultibulkBuffer_shows (conf : Limits) (h : c.Sane)
    (hopen : c.closeAfterReply = false) (ha : c.parser.Aligned)
    (hk : c.reqtype = some .multibulk) :
    ∃ r, c.processMultibulkBuffer conf = some r ∧
      Shows r (c.parser.multibulk conf.format) := by
  have hpos := h.pos
  unfold processMultibulkBuffer Parser.multibulk
  by_cases hm : c.multibulklen = 0
  · obtain ⟨hargv, hmark⟩ := ha.mark hk hm
    have hargv : c.argv = [] := hargv
    have hmark : c.querybuf[c.qbPos]? = some '*' := c.head_rest.trans hmark
    have hline : line c.parser.rest = _ := line_rest h
    rw [if_pos hm, if_neg (not_not.mpr hargv),
      if_neg (not_not.mpr (show c.parser.missing = 0 from hm)), hline]
    cases hchr : strchr '\r' c.rest with
    | none => exact ⟨_, rfl, by simp only [parser_tooBig conf], h.tooBig hopen _⟩
    | some newline =>
        simp only
        by_cases hcut : (newline : ℤ) > (c.querybuf.length : ℤ) - c.qbPos - 2
        · rw [if_pos hcut, if_pos hcut]
          exact ⟨_, rfl, rfl, h⟩
        rw [if_neg hcut, if_neg hcut, if_neg (not_not.mpr hmark)]
        simp only [countOf_eq]
        cases string2ll (String.ofList ((c.rest.take newline).drop 1)) with
        | none => exact ⟨_, rfl, rfl, h.refuse hopen _⟩
        | some ll =>
            simp only
            by_cases hbig : ll > 1024 * 1024
            · rw [if_pos hbig, if_pos hbig]
              exact ⟨_, rfl, rfl, h.refuse hopen _⟩
            rw [if_neg hbig, if_neg hbig]
            have hmove := h.skip (i := newline) (by omega)
            have hview := c.parser_skip newline
            by_cases hle : ll ≤ 0
            · rw [if_pos hle, Int.toNat_of_nonpos hle]
              refine ⟨_, rfl, ?_, hmove⟩
              rw [hview]
              show _ = ({ c.parser with rest := c.rest.drop (newline + 2), missing := 0 }, true)
              rw [← hm]
              rfl
            · rw [if_neg hle]
              refine ⟨_, rfl, ?_⟩
              have hcount : ({ c with
                  qbPos := c.qbPos + newline + 2, multibulklen := ll.toNat } : Query).parser
                  = { c.parser with rest := c.rest.drop (newline + 2), missing := ll.toNat } :=
                congrArg (fun p : Parser => { p with missing := ll.toNat }) hview
              have hshows := bulkLoop_shows conf ll.toNat (c := { c with
                qbPos := c.qbPos + newline + 2, multibulklen := ll.toNat })
                ⟨hmove.pos, hmove.bulk, hmove.quiet, hmove.told, hmove.asap⟩ hopen
              rw [hcount] at hshows
              exact hshows
  · rw [if_neg hm, if_pos (show c.parser.missing ≠ 0 from hm)]
    exact ⟨_, rfl, bulkLoop_shows conf _ h hopen⟩

theorem processInlineBuffer_shows (conf : Limits) (h : c.Sane)
    (hopen : c.closeAfterReply = false) :
    Shows c.processInlineBuffer (c.parser.inline conf.format) := by
  have hpos := h.pos
  have hrest : c.parser.rest = c.rest := rfl
  unfold processInlineBuffer Parser.inline
  rw [hrest]
  cases hchr : strchr '\n' c.rest with
  | none => exact ⟨by simp only [parser_tooBig conf], h.tooBig hopen _⟩
  | some newline =>
      have hlt := strchr_lt hchr
      rw [length_rest] at hlt
      simp only [Limits.format]
      cases sdssplitargs (c.rest.take
        (if newline ≠ 0 ∧ c.rest[newline - 1]? = some '\r' then newline - 1 else newline)) with
      | none => exact ⟨rfl, h.refuse hopen _⟩
      | some argv =>
          have hlen : (if newline ≠ 0 ∧ c.rest[newline - 1]? = some '\r' then newline - 1
              else newline) + (if newline ≠ 0 ∧ c.rest[newline - 1]? = some '\r' then 2 else 1)
              = newline + 1 := by
            split <;> omega
          simp only [hlen]
          refine ⟨?_, by simp only; omega, h.bulk, h.quiet, h.told, h.asap⟩
          simp only [parser, rest, List.drop_drop]
          rfl

-- ======================================================== whole requests

theorem setReqtype_shows (h : c.Sane) :
    c.setReqtype.parser = c.parser.choose ∧ c.setReqtype.Sane ∧
      c.setReqtype.closeAfterReply = c.closeAfterReply := by
  unfold setReqtype
  cases hk : c.reqtype with
  | some k =>
      rw [Parser.choose_of_kind (p := c.parser) hk]
      exact ⟨rfl, h, rfl⟩
  | none =>
      refine ⟨?_, ⟨h.pos, h.bulk, h.quiet, h.told, h.asap⟩, rfl⟩
      unfold Parser.choose
      rw [show c.parser.kind = none from hk, head_rest]
      rfl

theorem processRequest_shows (conf : Limits) (h : c.Sane) (hopen : c.closeAfterReply = false)
    (ha : c.parser.Aligned) (hk : c.reqtype.isSome = true) :
    ∃ r, c.processRequest conf = some r ∧ Shows r (c.parser.request conf.format) := by
  unfold processRequest Parser.request
  rw [show c.parser.kind = c.reqtype from rfl]
  split
  · exact ⟨_, rfl, processInlineBuffer_shows conf h hopen⟩
  · next hinline =>
      refine processMultibulkBuffer_shows conf h hopen ha ?_
      obtain ⟨k, hk⟩ := Option.isSome_iff_exists.mp hk
      cases k with
      | inline => exact absurd hk hinline
      | multibulk => exact hk

theorem stop_quit (hs : c.Sane) (hopen : c.closeAfterReply = false) (l : List String) :
    ({ c with closeAfterReply := true, replies := l } : Query).stop = some .quit := by
  unfold stop
  rw [if_pos rfl]
  simp only [hs.quiet hopen]
  rfl

theorem runRequest_shows (conf : Limits) (h : c.Sane) (hopen : c.closeAfterReply = false) :
    (c.runRequest.1.parser, c.runRequest.2) = c.parser.finish conf.format ∧
      c.runRequest.1.Sane := by
  have hargv : c.parser.argv = c.argv := rfl
  unfold runRequest processCommandAndResetClient Parser.finish
  rw [hargv, conf.format_quits]
  by_cases hnil : c.argv = []
  · rw [if_pos hnil, if_pos hnil]
    exact ⟨rfl, resetClient_sane h⟩
  rw [if_neg hnil, if_neg hnil]
  by_cases hq : isQuit c.argv = true
  · rw [if_pos hq, if_pos hq]
    have hquit := stop_quit h hopen (c.replies ++ ["+OK\r\n"])
    refine ⟨?_, h.pos, h.bulk, fun h => Bool.noConfusion h, ?_, h.asap⟩
    · rw [← hquit]
      rfl
    · rw [hquit]
      show c.replies ++ _ = _
      rw [h.told, stop_open hopen]
      rfl
  · rw [if_neg hq, if_neg hq]
    exact ⟨rfl, resetClient_sane h⟩

theorem rest_eq_nil : c.parser.rest = [] ↔ c.querybuf.length ≤ c.qbPos := List.drop_eq_nil_iff

/-- Where the loop stands between two rounds: sane, and at the mark of a
request unless the client is to be closed. -/
structure Ready (c : Query) : Prop extends c.Sane where
  aligned : c.closeAfterReply = false → c.parser.Aligned

/-- The loop is the plain reader, and its assertions hold. -/
theorem inputLoop_shows (conf : Limits) {fuel : ℕ} (h : c.Ready) (hfuel : c.rest.length ≤ fuel) :
    ∃ r, c.inputLoop conf fuel = some r ∧
      (r.1.parser, r.2) = c.parser.run conf.format ∧ r.1.Ready := by
  induction fuel generalizing c with
  | zero =>
      have hnil : c.parser.rest = [] := List.length_eq_zero_iff.mp (Nat.le_zero.mp hfuel)
      rw [Parser.run_idle (Or.inl hnil)]
      exact ⟨_, rfl, rfl, h⟩
  | succ fuel ih =>
      unfold inputLoop
      by_cases hidle : c.querybuf.length ≤ c.qbPos ∨ c.closeAfterReply = true ∨ c.closeAsap = true
      · rw [if_pos hidle, Parser.run_idle]
        · exact ⟨_, rfl, rfl, h⟩
        · rcases hidle with hnil | hclose | hasap
          · exact Or.inl (rest_eq_nil.mpr hnil)
          · exact Or.inr (c.stop_isSome.trans hclose)
          · rw [h.asap] at hasap
            cases hasap
      rw [if_neg hidle]
      rw [not_or, not_or, Bool.not_eq_true, Bool.not_eq_true] at hidle
      obtain ⟨hlen, hopen, -⟩ := hidle
      have hne : c.parser.rest ≠ [] := fun hnil => hlen (rest_eq_nil.mp hnil)
      have hstop := stop_eq_none.mpr hopen
      obtain ⟨hview, hsane, hkept⟩ := setReqtype_shows h.toSane
      have hchoose : c.setReqtype.parser.Aligned := hview ▸ (h.aligned hopen).choose
      obtain ⟨r, hr, hshows⟩ := processRequest_shows conf hsane (hkept.trans hopen) hchoose
        (congrArg (fun p : Parser => p.kind.isSome) hview)
      rw [hview] at hshows
      rw [hr, Option.bind_some]
      obtain ⟨c', ok⟩ := r
      have hreq : c.parser.choose.request conf.format = (c'.parser, ok) := hshows.view.symm
      cases ok with
      | false =>
          have hround : c.parser.round conf.format = (c'.parser, [], false) := by
            unfold Parser.round
            rw [hreq]
          rw [Parser.run_wait hne hstop hround]
          refine ⟨_, rfl, rfl, hshows.sane, fun hopen' => ?_⟩
          exact Parser.round_aligned (h.aligned hopen) hround (stop_eq_none.mpr hopen')
      | true =>
          have hopen' : c'.closeAfterReply = false :=
            stop_eq_none.mp ((Parser.request_stop hreq).trans hstop)
          obtain ⟨hfinish, hsane'⟩ := runRequest_shows conf hshows.sane hopen'
          have hround : c.parser.round conf.format
              = (c'.runRequest.1.parser, c'.runRequest.2, true) := by
            unfold Parser.round
            rw [hreq]
            simp only [← hfinish]
          have hless : c'.runRequest.1.rest.length < c.rest.length :=
            Parser.round_length (p := c.parser) hround
          have hready : c'.runRequest.1.Ready := ⟨hsane', fun hopen'' =>
            Parser.round_aligned (h.aligned hopen) hround (stop_eq_none.mpr hopen'')⟩
          obtain ⟨r', hr', hrun, hready'⟩ := ih hready (by omega)
          refine ⟨(r'.1, c'.runRequest.2 ++ r'.2), ?_, ?_, hready'⟩
          · simp only [if_true, hr', Option.map_some]
          · rw [Parser.run_next hne hstop hround, ← hrun]

-- ================================================================= reads

theorem parser_trim (c : Query) : c.trim.parser = c.parser := by
  unfold trim
  split
  · rfl
  · exact parser_toFront c

/-- A client between two reads: the buffer is trimmed and everything that
was there is done. -/
structure Idle (conf : Limits) (c : Query) : Prop extends c.Ready where
  front : c.qbPos = 0
  settled : c.closeAfterReply = false → c.parser.run conf.format = (c.parser, [])

theorem Idle.createClient (conf : Limits) : createClient.Idle conf where
  pos := le_rfl
  bulk := le_rfl
  quiet := fun _ => rfl
  told := rfl
  asap := rfl
  aligned := fun _ => Parser.Aligned.start
  front := rfl
  settled := fun _ => Parser.run_idle (Or.inl rfl)

theorem processInputBuffer_shows (conf : Limits) (h : c.Ready) :
    ∃ r, c.processInputBuffer conf = some r ∧
      (r.1.parser, r.2) = c.parser.run conf.format ∧ r.1.Idle conf := by
  obtain ⟨r, hr, hrun, hready⟩ := inputLoop_shows conf h c.length_rest.le
  have hview := parser_trim r.1
  have htrim : r.1.trim.Sane ∧ r.1.trim.qbPos = 0 ∧
      r.1.trim.closeAfterReply = r.1.closeAfterReply := by
    unfold trim
    split
    · next hzero => exact ⟨hready.toSane, hzero, rfl⟩
    · exact ⟨hready.toSane.toFront, rfl, rfl⟩
  obtain ⟨hsane, hfront, hclose⟩ := htrim
  refine ⟨(r.1.trim, r.2), ?_, ?_, ⟨⟨hsane, ?_⟩, hfront, ?_⟩⟩
  · unfold processInputBuffer
    rw [hr, Option.map_some]
  · rw [hview]
    exact hrun
  · intro hopen
    rw [hview]
    exact hready.aligned (hclose ▸ hopen)
  · intro hopen
    rw [hview]
    have hstate : r.1.parser = (c.parser.run conf.format).1 := congrArg Prod.fst hrun
    rw [hstate]
    refine Parser.run_settled ?_
    rw [← hstate]
    exact stop_eq_none.mpr (hclose ▸ hopen)

/-- Bytes are added to the buffer. -/
theorem Ready.append (h : c.Ready) (s : Sds) :
    ({ c with querybuf := c.querybuf ++ s } : Query).Ready ∧
      ({ c with querybuf := c.querybuf ++ s } : Query).parser = c.parser.push s := by
  have hview : ({ c with querybuf := c.querybuf ++ s } : Query).parser = c.parser.push s := by
    simp only [parser, rest, List.drop_append_of_le_length h.pos]
    rfl
  refine ⟨⟨⟨?_, h.bulk, h.quiet, h.told, h.asap⟩, fun hopen => ?_⟩, hview⟩
  · have hpos := h.pos
    simp only [List.length_append]
    omega
  · rw [hview]
    exact (h.aligned hopen).push s

/-- The client will be closed. -/
def closing (c : Query) : Bool := c.closeAfterReply || c.closeAsap

/-- What was received. -/
def received (rs : List ConnRead) : Sds :=
  rs.flatMap fun nread => match nread with
    | .bytes s => s
    | _ => []

/-- Once a client is queued to be freed nothing more is executed. -/
theorem readQueryFromClient_asap (conf : Limits) (nread : ConnRead) (h : c.closeAsap = true) :
    ∃ c', c.readQueryFromClient conf nread = some (c', []) ∧ c'.closeAsap = true := by
  cases nread with
  | again => exact ⟨c, rfl, h⟩
  | error => exact ⟨_, rfl, rfl⟩
  | closed => exact ⟨_, rfl, rfl⟩
  | bytes s =>
      unfold readQueryFromClient
      simp only
      split
      · exact ⟨_, rfl, rfl⟩
      · have hloop : ∀ fuel (c : Query), c.closeAsap = true →
            c.inputLoop conf fuel = some (c, []) := by
          intro fuel c h
          cases fuel with
          | zero => rfl
          | succ fuel => rw [inputLoop, if_pos (Or.inr (Or.inr h))]
        unfold processInputBuffer
        rw [hloop _ { c with querybuf := c.querybuf ++ s } h, Option.map_some]
        refine ⟨_, rfl, ?_⟩
        unfold trim
        split
        · exact h
        · exact h

theorem reads_asap (conf : Limits) (rs : List ConnRead) (h : c.closeAsap = true) :
    ∃ c', c.reads conf rs = some (c', []) ∧ c'.closeAsap = true := by
  induction rs generalizing c with
  | nil => exact ⟨c, rfl, h⟩
  | cons nread rs ih =>
      obtain ⟨c₁, hread, h₁⟩ := readQueryFromClient_asap conf nread h
      obtain ⟨c₂, hreads, h₂⟩ := ih h₁
      refine ⟨c₂, ?_, h₂⟩
      rw [reads, hread, Option.bind_some, hreads, Option.map_some]
      rfl

theorem reads_cons {conf : Limits} {nread : ConnRead} {rs : List ConnRead}
    {r₁ r : Query × List (List Sds)} (h₁ : c.readQueryFromClient conf nread = some r₁)
    (h : r₁.1.reads conf rs = some r) : c.reads conf (nread :: rs) = some (r.1, r₁.2 ++ r.2) := by
  rw [reads, h₁, Option.bind_some, h, Option.map_some]

/-- Reads from an idle client: no assertion fails, and as long as the
client is kept they are the plain reader on what was received. -/
theorem reads_shows (conf : Limits) (rs : List ConnRead) (h : c.Idle conf) :
    ∃ r, c.reads conf rs = some r ∧ (c.closeAfterReply = true → r.1.closing = true) ∧
      (r.1.closeAsap = false → r.1.Idle conf) ∧
      (r.1.closing = false →
        (r.1.parser, r.2) = c.parser.feed conf.format (received rs)) := by
  induction rs generalizing c with
  | nil =>
      refine ⟨(c, []), rfl, fun hclose => by simp [closing, hclose], fun _ => h, fun hopen => ?_⟩
      rw [closing, Bool.or_eq_false_iff] at hopen
      unfold Parser.feed
      rw [show received [] = [] from rfl, Parser.push_nil, h.settled hopen.1]
  | cons nread rs ih =>
      -- a client that is queued to be freed
      have hfree : ∀ c₁, c.readQueryFromClient conf nread = some (c₁, []) → c₁.closeAsap = true →
          ∃ r, c.reads conf (nread :: rs) = some r ∧
            (c.closeAfterReply = true → r.1.closing = true) ∧
            (r.1.closeAsap = false → r.1.Idle conf) ∧ (r.1.closing = false →
              (r.1.parser, r.2) = c.parser.feed conf.format (received (nread :: rs))) := by
        intro c₁ h₁ hasap
        obtain ⟨c₂, hreads, hasap₂⟩ := reads_asap conf rs hasap
        have hclosing : c₂.closing = true := by simp [closing, hasap₂]
        refine ⟨_, reads_cons h₁ hreads, fun _ => hclosing, fun hkept => ?_, fun hopen => ?_⟩
        · rw [hasap₂] at hkept
          cases hkept
        · rw [hclosing] at hopen
          cases hopen
      cases nread with
      | again =>
          obtain ⟨r, hr, hkept⟩ := ih h
          have hagain : c.readQueryFromClient conf .again = some (c, []) := rfl
          exact ⟨r, reads_cons hagain hr, hkept⟩
      | error => exact hfree _ rfl rfl
      | closed => exact hfree _ rfl rfl
      | bytes s =>
          by_cases hlong : conf.clientMaxQuerybufLen < (c.querybuf ++ s).length
          · exact hfree _ (if_pos hlong) rfl
          obtain ⟨hready, hpush⟩ := h.append s
          obtain ⟨r₁, hr₁, hrun, hidle⟩ := processInputBuffer_shows conf hready
          rw [hpush] at hrun
          have hread : c.readQueryFromClient conf (.bytes s) = some r₁ := (if_neg hlong).trans hr₁
          obtain ⟨r, hr, hclose, hkept, hview⟩ := ih hidle
          refine ⟨_, reads_cons hread hr, fun hclosed => hclose ?_, hkept, fun hopen => ?_⟩
          · -- the plain reader stays where it stopped
            have hsome : (c.parser.push s).stop.isSome = true := c.stop_isSome.trans hclosed
            rw [Parser.run_idle (Or.inr hsome)] at hrun
            rw [← stop_isSome, (Prod.mk.inj hrun).1]
            exact hsome
          · have hfeed := hview hopen
            have hopen₁ : r₁.1.closeAfterReply = false := by
              by_contra hclosed
              rw [Bool.not_eq_false] at hclosed
              rw [hclose hclosed] at hopen
              cases hopen
            have hfeed₁ : c.parser.feed conf.format s = (r₁.1.parser, r₁.2) := hrun.symm
            have hstop : (c.parser.feed conf.format s).1.stop = none := by
              rw [hfeed₁]
              exact stop_eq_none.mpr hopen₁
            have happend := Parser.feed_append hstop (received rs)
            rw [hfeed₁, ← hfeed] at happend
            exact happend.symm

/-- An idle client that is kept is determined by the plain reader. -/
theorem Idle.eq_of_shown {c' : Query} (h : c.Idle conf) (h' : c'.Idle conf)
    (hopen : c.closeAfterReply = false) (hopen' : c'.closeAfterReply = false)
    (hview : c.parser = c'.parser) : c = c' := by
  have hrest : c.rest = c'.rest := congrArg Parser.rest hview
  have hbuf : c.querybuf = c'.querybuf := by
    rwa [rest, rest, h.front, h'.front, List.drop_zero, List.drop_zero] at hrest
  have hbulk : c.bulklen = c'.bulklen := by
    have heq : c.parser.bulk = c'.parser.bulk := congrArg Parser.bulk hview
    have hlo := h.bulk
    have hlo' := h'.bulk
    simp only [parser] at heq
    split at heq
    · next hb =>
        split at heq
        · next hb' => rw [hb, hb']
        · cases heq
    · split at heq
      · cases heq
      · have htoNat := Option.some.inj heq
        omega
  have hreplies : c.replies = c'.replies := by
    rw [h.told, h'.told, stop_open hopen, stop_open hopen']
  have hkind : c.reqtype = c'.reqtype := congrArg Parser.kind hview
  have hmissing : c.multibulklen = c'.multibulklen := congrArg Parser.missing hview
  have hargv : c.argv = c'.argv := congrArg Parser.argv hview
  cases c
  cases c'
  simp only [Query.mk.injEq]
  exact ⟨hbuf, h.front.trans h'.front.symm, hkind, hmissing, hbulk, hargv,
    hopen.trans hopen'.symm, (h.quiet hopen).trans (h'.quiet hopen').symm,
    h.asap.trans h'.asap.symm, hreplies⟩

-- ============================================================ any stream

/-- Whatever a connection delivers and however it is cut, no assertion of
the parser fails, and a client that is not about to be freed was told
nothing, or once why it is to be closed. -/
theorem reads_defined (conf : Limits) (rs : List ConnRead) :
    ∃ c vs, createClient.reads conf rs = some (c, vs) ∧
      (c.closeAsap = false → c.replies = repliesOf c.stop) := by
  obtain ⟨r, hreads, -, hkept, -⟩ := reads_shows conf rs (Idle.createClient conf)
  exact ⟨r.1, r.2, hreads, fun hopen => (hkept hopen).told⟩

/-- Two sequences of reads that deliver the same bytes execute the same
vectors and leave the same client, as long as neither closes it. -/
theorem reads_cut {rs rs' : List ConnRead} {c c' : Query} {vs vs' : List (List Sds)}
    (hbytes : received rs = received rs') (hr : createClient.reads conf rs = some (c, vs))
    (hr' : createClient.reads conf rs' = some (c', vs')) (hopen : c.closing = false)
    (hopen' : c'.closing = false) : c = c' ∧ vs = vs' := by
  have hidle := Idle.createClient conf
  obtain ⟨r, hreads, -, hkept, hview⟩ := reads_shows conf rs hidle
  obtain ⟨r', hreads', -, hkept', hview'⟩ := reads_shows conf rs' hidle
  obtain rfl := Option.some.inj (hr.symm.trans hreads)
  obtain rfl := Option.some.inj (hr'.symm.trans hreads')
  have hfeed := (hview hopen).trans (hbytes ▸ (hview' hopen').symm)
  obtain ⟨hstate, hvs⟩ := Prod.mk.inj hfeed
  rw [closing, Bool.or_eq_false_iff] at hopen hopen'
  exact ⟨(hkept hopen.2).eq_of_shown (hkept' hopen'.2) hopen.1 hopen'.1 hstate, hvs⟩

/-- A request in one read, and in three. -/
theorem reads_cut_ping : ∃ c c' vs vs',
    createClient.reads .default [.bytes "*1\r\n$4\r\nPING\r\n".toList] = some (c, vs) ∧
      createClient.reads .default [.bytes "*1\r".toList, .again, .bytes "\n$4\r\nPI".toList,
        .bytes "NG\r\n".toList] = some (c', vs') ∧
      (c = c' ∧ vs = vs') ∧ vs = [["PING".toList]] := by
  have hwhole : createClient.reads .default [.bytes "*1\r\n$4\r\nPING\r\n".toList]
      = some (createClient, [["PING".toList]]) := by decide +kernel
  have hpieces : createClient.reads .default [.bytes "*1\r".toList, .again,
      .bytes "\n$4\r\nPI".toList, .bytes "NG\r\n".toList]
      = some (createClient, [["PING".toList]]) := by decide +kernel
  exact ⟨_, _, _, _, hwhole, hpieces,
    reads_cut (by decide +kernel) hwhole hpieces (by decide) (by decide), rfl⟩

-- ===================================================== the text of vectors

theorem format_reads (conf : Limits) : conf.format.Reads := by
  have hsmall : ∀ k : ℕ, (k : ℤ) ≤ conf.format.maxCount ∨ k ≤ conf.format.maxBulk → k < 2 ^ 63 := by
    intro k hk
    have hbulk := conf.bulk_lt
    rcases hk with hk | hk
    · have hk : (k : ℤ) ≤ 1024 * 1024 := hk
      omega
    · have hk : k ≤ conf.protoMaxBulkLen := hk
      omega
  refine ⟨fun k hk => ?_, fun k hk => ?_⟩
  · have hlt := hsmall k hk
    refine string2ll_eq_some.mpr ⟨?_, by omega, by omega⟩
    rw [String.toList_ofList]
    rfl
  · have hlt := hsmall k hk
    have hlen := (Nat.length_toDigits_le_iff (b := 10) (n := k) (k := 19) (by decide)
      (by decide)).mpr (by omega)
    have hline : 19 < protoInlineMaxSize := by decide
    exact Nat.lt_of_le_of_lt hlen hline

/-- A client in the middle of a stream: once `b` is received it has
executed `vs`. -/
structure Expects (conf : Limits) (c : Query) (vs : List (List Sds)) (b : Sds) : Prop
    extends c.Idle conf where
  isOpen : c.closeAfterReply = false
  expects : c.parser.Expects conf.format vs b
  waits : c.parser.rest = [] ∨ c.parser.Waits conf.format b

variable {vs : List (List Sds)} {b s : Sds}

theorem Expects.createClient (conf : Limits) : createClient.Expects conf [] [] :=
  { Idle.createClient conf with
    isOpen := rfl
    expects := Parser.Expects.start conf.format
    waits := Or.inl rfl }

theorem Expects.snoc {v : List Sds} (h : c.Expects conf vs b) (hv : conf.format.Fits v) :
    c.Expects conf (vs ++ [v]) (b ++ encode v) :=
  { h with
    expects := h.expects.snoc hv
    waits := h.waits.imp_right fun hw => ⟨by simp [hw.more], hw.bound⟩ }

theorem Expects.done (h : c.Expects conf vs []) : vs = [] := h.expects.done h.waits

/-- Little is kept of a stream. -/
theorem Expects.length_le (h : c.Expects conf vs b) :
    c.querybuf.length ≤ conf.protoMaxBulkLen + protoInlineMaxSize + 1 := by
  have hlen : c.parser.rest.length = c.querybuf.length := by
    rw [show c.parser.rest = c.rest from rfl, length_rest, h.front, Nat.sub_zero]
  rw [← hlen]
  rcases h.waits with hnil | hwaits
  · rw [hnil]
    exact Nat.zero_le _
  · exact hwaits.bound

theorem readlen_le (c : Query) : c.readlen ≤ protoIobufLen := by
  unfold readlen
  dsimp only
  split
  · omega
  · exact le_rfl

/-- A read in the middle of a stream executes some of the vectors, and the
client expects the others. -/
theorem Expects.read (hconf : conf.Roomy) (h : c.Expects conf vs (s ++ b))
    (hs : s.length ≤ protoIobufLen) :
    ∃ c' vs₁ vs₂, c.readQueryFromClient conf (.bytes s) = some (c', vs₁) ∧
      vs = vs₁ ++ vs₂ ∧ c'.Expects conf vs₂ b := by
  have hshort : ¬ conf.clientMaxQuerybufLen < (c.querybuf ++ s).length := by
    have hlen := h.length_le
    unfold Limits.Roomy at hconf
    rw [List.length_append]
    omega
  obtain ⟨hready, hpush⟩ := h.append s
  obtain ⟨r, hr, hrun, hidle⟩ := processInputBuffer_shows conf hready
  rw [hpush] at hrun
  obtain ⟨vs₂, hvs, hexpects, hwaits⟩ := Parser.run_owes (format_reads conf) h.expects.push
  rw [← hrun] at hvs hexpects hwaits
  refine ⟨r.1, r.2, vs₂, (if_neg hshort).trans hr, hvs, { hidle with
    isOpen := stop_eq_none.mp hexpects.running
    expects := hexpects
    waits := hwaits }⟩

theorem Expects.reads (hconf : conf.Roomy) {rs : List ConnRead}
    (hrs : ∀ nread ∈ rs, nread = .again ∨ ∃ s, nread = .bytes s ∧ s.length ≤ protoIobufLen)
    (h : c.Expects conf vs (received rs ++ b)) :
    ∃ c' vs₁ vs₂, c.reads conf rs = some (c', vs₁) ∧ vs = vs₁ ++ vs₂ ∧
      c'.Expects conf vs₂ b := by
  induction rs generalizing c vs with
  | nil => exact ⟨c, [], vs, rfl, rfl, h⟩
  | cons nread rs ih =>
      have hrest := fun nread' hmem => hrs nread' (List.mem_cons_of_mem nread hmem)
      rcases hrs nread List.mem_cons_self with rfl | ⟨s, rfl, hs⟩
      · obtain ⟨c', vs₁, vs₂, hreads, hvs, hc'⟩ := ih hrest h
        have hagain : c.readQueryFromClient conf .again = some (c, []) := rfl
        exact ⟨c', vs₁, vs₂, reads_cons hagain hreads, hvs, hc'⟩
      · have hsplit : received (.bytes s :: rs) ++ b = s ++ (received rs ++ b) :=
          List.append_assoc s (received rs) b
        rw [hsplit] at h
        obtain ⟨c₁, ws, vs', hread, rfl, hc₁⟩ := h.read hconf hs
        obtain ⟨c', vs₁, vs₂, hreads, rfl, hc'⟩ := ih hrest hc₁
        refine ⟨c', ws ++ vs₁, vs₂, reads_cons hread hreads, ?_, hc'⟩
        rw [List.append_assoc]

theorem Expects.vectors (hfits : ∀ v ∈ vs, conf.format.Fits v) :
    Query.createClient.Expects conf vs (vs.flatMap encode) := by
  induction vs using List.reverseRecOn with
  | nil => exact Expects.createClient conf
  | append_singleton vs v ih =>
      have hv := hfits v (List.mem_append_right _ List.mem_cons_self)
      rw [List.flatMap_append, List.flatMap_cons, List.flatMap_nil, List.append_nil]
      exact (ih fun w hw => hfits w (List.mem_append_left _ hw)).snoc hv

/-- Vectors whose text is all there are executed. -/
theorem feed_vectors (hfits : ∀ v ∈ vs, conf.format.Fits v) (s : Sds) :
    ∃ ws, (Query.createClient.parser.feed conf.format (vs.flatMap encode ++ s)).2 = vs ++ ws := by
  have hstart := (Expects.vectors hfits).expects
  rw [← List.append_nil (vs.flatMap encode)] at hstart
  obtain ⟨rest, hvs, hexpects, hend⟩ := Parser.run_owes (format_reads conf) hstart.push
  rw [hexpects.done hend, List.append_nil] at hvs
  have happend := Parser.feed_append
    (a := vs.flatMap encode) (p := Query.createClient.parser) (F := conf.format) hexpects.running s
  rw [happend]
  refine ⟨_, congrArg (· ++ _) ?_⟩
  exact hvs.symm

/-- The bytes of vectors, in any pieces that `readQueryFromClient` asks
for: after any number of reads the vectors executed are, in order, exactly
those whose text is all there; nothing is replied and little is kept. -/
theorem reads_vectors (hconf : conf.Roomy) {rs : List ConnRead}
    (hfits : ∀ v ∈ vs, conf.format.Fits v)
    (hrs : ∀ nread ∈ rs, nread = .again ∨ ∃ s, nread = .bytes s ∧ s.length ≤ protoIobufLen)
    (htext : received rs ++ b = vs.flatMap encode) :
    ∃ c vs₁ vs₂, createClient.reads conf rs = some (c, vs₁) ∧ vs = vs₁ ++ vs₂ ∧
      vs₁.flatMap encode <+: received rs ∧
      (∀ v ws, vs₂ = v :: ws → ¬ (vs₁ ++ [v]).flatMap encode <+: received rs) ∧
      c.closing = false ∧ c.replies = [] ∧
      c.querybuf.length ≤ conf.protoMaxBulkLen + protoInlineMaxSize + 1 := by
  have hstart := Expects.vectors hfits
  rw [← htext] at hstart
  obtain ⟨c, vs₁, vs₂, hreads, rfl, hc⟩ := hstart.reads hconf hrs
  have hopen : c.closing = false := by
    rw [closing, hc.isOpen, hc.asap]
    rfl
  refine ⟨c, vs₁, vs₂, hreads, rfl, ?_, ?_, hopen, ?_, hc.length_le⟩
  · -- the rest covers what is under way
    have hlen := hc.expects.length_le
    rw [List.flatMap_append] at htext
    refine List.prefix_of_prefix_length_le ⟨_, htext.symm⟩ ⟨b, rfl⟩ ?_
    have htotal := congrArg List.length htext
    rw [List.length_append, List.length_append] at htotal
    omega
  · rintro v ws rfl ⟨s, hs⟩
    have hfront : ∀ w ∈ vs₁ ++ [v], conf.format.Fits w := by
      intro w hw
      refine hfits w ?_
      rw [List.append_cons]
      exact List.mem_append_left ws hw
    obtain ⟨ws', hfeed⟩ := feed_vectors hfront s
    obtain ⟨r, hr, -, -, hview⟩ := reads_shows conf rs (Idle.createClient conf)
    obtain rfl := Option.some.inj (hreads.symm.trans hr)
    rw [hs, ← hview hopen] at hfeed
    have hlen := congrArg List.length hfeed
    simp only [List.length_append, List.length_cons, List.length_nil] at hlen
    omega
  · rw [hc.told, stop_open hc.isOpen]
    rfl

/-- Two vectors, the second of which did not arrive. -/
theorem reads_vectors_half : ∃ c vs₁ vs₂,
    createClient.reads .default [.bytes "*1\r\n$4\r\nPI".toList, .bytes "NG\r\n*2\r\n$3".toList]
      = some (c, vs₁) ∧ [["PING".toList], ["GET".toList, "k".toList]] = vs₁ ++ vs₂ ∧
      vs₁.flatMap encode <+: "*1\r\n$4\r\nPING\r\n*2\r\n$3".toList ∧
      (∀ v ws, vs₂ = v :: ws →
        ¬ (vs₁ ++ [v]).flatMap encode <+: "*1\r\n$4\r\nPING\r\n*2\r\n$3".toList) ∧
      c.closing = false ∧ c.replies = [] ∧
      c.querybuf.length ≤ Limits.default.protoMaxBulkLen + protoInlineMaxSize + 1 := by
  refine reads_vectors (b := "\r\nGET\r\n$1\r\nk\r\n".toList) (by unfold Limits.Roomy; decide)
    ?_ ?_ ?_
  · intro v hv
    rcases List.mem_pair.mp hv with rfl | rfl
    · exact ⟨by decide, by decide +kernel, by decide +kernel, by decide +kernel⟩
    · exact ⟨by decide, by decide +kernel, by decide +kernel, by decide +kernel⟩
  · intro nread hmem
    rcases List.mem_pair.mp hmem with rfl | rfl
    · exact Or.inr ⟨_, rfl, by decide +kernel⟩
    · exact Or.inr ⟨_, rfl, by decide +kernel⟩
  · decide +kernel

end Query

end CrdtRedis
