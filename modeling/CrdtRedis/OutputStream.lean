/-
What a connection gets of a client's output, in any order of events.

Each function of Output.lean is one of two things: it appends to what is
pending (`Adds`), or the connection takes bytes off the front of it
(`Takes`). Both keep the client sound: `reply_bytes` is the size of the
blocks, no block is empty, and `sentlen` is inside of the first buffer.
The events are the interleavings of commands, broadcasts and the two
places the server writes from; `run_between` is the induction over them.
-/
import CrdtRedis.Data.RequestText
import CrdtRedis.Output
import Mathlib.Algebra.BigOperators.Group.List.Basic

namespace CrdtRedis

open CString Request

namespace Output

-- =============================================================== content

/-- What the buffers hold, sent or not. -/
def content (c : Output) : Sds := c.buf ++ c.reply.flatMap ReplyBlock.buf

/-- What the connection did not take. -/
def pending (c : Output) : Sds := c.content.drop c.sentlen

/-- The buffer that is sent from. -/
def first (c : Output) : Sds :=
  if c.buf ≠ [] then c.buf else (c.reply.head?.map ReplyBlock.buf).getD []

/-- What every function keeps: `reply_bytes` is the size of the blocks,
none of them is empty, and `sentlen` is inside of the first buffer. -/
structure Sound (c : Output) : Prop where
  bytes : c.replyBytes = (c.reply.map ReplyBlock.size).sum
  blocks : ∀ o ∈ c.reply, o.buf ≠ []
  inside : c.sentlen = 0 ∨ c.sentlen < c.first.length

/-- The client will be written to: it is in `clients_pending_write` or its
write handler is installed. -/
def scheduled (c : Output) : Bool := c.pendingWrite || c.writeHandler

/-- The event loop comes to the client, to write or to free it. -/
def attended (c : Output) : Bool := c.scheduled || c.closeAsap

/-- `c'` is `c` with `s` added to its buffers. -/
structure Adds (s : Sds) (c c' : Output) : Prop where
  sound : c.Sound → c'.Sound
  pending : c.Sound → c'.pending = c.pending ++ s
  attended : c.attended = true → c'.attended = true
  flags : c'.replica = c.replica ∧ c'.replicaMessage = c.replicaMessage ∧
    c'.closeAfterReply = c.closeAfterReply ∧ c'.closeAsap = c.closeAsap

variable {A : Alloc} {c c' c'' : Output} {s t : Sds}

theorem Adds.refl (c : Output) : Adds [] c c :=
  ⟨id, fun _ => (List.append_nil _).symm, id, rfl, rfl, rfl, rfl⟩

theorem Adds.trans (h : Adds s c c') (h' : Adds t c' c'') : Adds (s ++ t) c c'' := by
  obtain ⟨hr, hm, hc, ha⟩ := h.flags
  obtain ⟨hr', hm', hc', ha'⟩ := h'.flags
  refine ⟨h'.sound ∘ h.sound, fun hs => ?_, h'.attended ∘ h.attended, hr'.trans hr,
    hm'.trans hm, hc'.trans hc, ha'.trans ha⟩
  rw [h'.pending (h.sound hs), h.pending hs, List.append_assoc]

/-- The first buffer is the front of what the buffers hold. -/
theorem content_eq (c : Output) : ∃ rest, c.content = c.first ++ rest := by
  unfold content first
  split
  · exact ⟨_, rfl⟩
  · next hbuf =>
      rw [not_not.mp hbuf]
      cases c.reply with
      | nil => exact ⟨[], rfl⟩
      | cons o reply => exact ⟨reply.flatMap ReplyBlock.buf, rfl⟩

theorem Sound.sentlen_le (h : c.Sound) : c.sentlen ≤ c.content.length := by
  obtain ⟨rest, hrest⟩ := c.content_eq
  rw [hrest, List.length_append]
  rcases h.inside with hzero | hlt
  · omega
  · omega

/-- Appending to the buffers, with the same part of the first one sent. -/
theorem Adds.of_content (hcontent : c'.content = c.content ++ s) (hsent : c'.sentlen = c.sentlen)
    (hfirst : c.first.length ≤ c'.first.length)
    (hbytes : c.Sound → c'.replyBytes = (c'.reply.map ReplyBlock.size).sum)
    (hblocks : c.Sound → ∀ o ∈ c'.reply, o.buf ≠ [])
    (hsched : c'.attended = c.attended)
    (hflags : c'.replica = c.replica ∧ c'.replicaMessage = c.replicaMessage ∧
      c'.closeAfterReply = c.closeAfterReply ∧ c'.closeAsap = c.closeAsap) : Adds s c c' := by
  refine ⟨fun h => ⟨hbytes h, hblocks h, ?_⟩, fun h => ?_, fun h => hsched.trans h, hflags⟩
  · rw [hsent]
    exact h.inside.imp_right fun hlt => by omega
  · unfold Output.pending
    rw [hcontent, hsent, List.drop_append_of_le_length h.sentlen_le]

theorem newBlock_adds (A : Alloc) (hs : s ≠ []) (c : Output) : Adds s c (c.newBlock A s) := by
  refine .of_content ?_ rfl ?_ ?_ ?_ rfl ⟨rfl, rfl, rfl, rfl⟩
  · simp [content, newBlock]
  · unfold first newBlock
    simp only
    split
    · exact le_rfl
    · cases c.reply with
      | nil => exact Nat.zero_le _
      | cons o reply => exact le_rfl
  · intro h
    simp [newBlock, h.bytes]
  · intro h o ho
    rcases List.mem_append.mp ho with ho | ho
    · exact h.blocks o ho
    · rw [List.mem_singleton.mp ho]
      exact hs

/-- The tail block takes what fits. -/
theorem copy_adds {tail : ReplyBlock} (htail : c.reply.getLast? = some tail) (s : Sds) :
    Adds (s.take (tail.size - tail.buf.length)) c
      { c with reply := c.reply.dropLast ++ [tail.copy s] } := by
  have hsplit : c.reply = c.reply.dropLast ++ [tail] :=
    (List.dropLast_append_getLast? tail htail).symm
  generalize c.reply.dropLast = l at hsplit ⊢
  refine .of_content ?_ rfl ?_ ?_ ?_ rfl ⟨rfl, rfl, rfl, rfl⟩
  · simp [content, hsplit, ReplyBlock.copy]
  · unfold first
    simp only [hsplit]
    split
    · exact le_rfl
    · cases l with
      | nil => simp [ReplyBlock.copy]
      | cons o l => exact le_rfl
  · intro h
    have hbytes := h.bytes
    rw [hsplit] at hbytes
    simpa [ReplyBlock.copy] using hbytes
  · intro h o ho
    have hblocks := h.blocks
    rw [hsplit] at hblocks
    rcases List.mem_append.mp ho with ho | ho
    · exact hblocks o (List.mem_append_left _ ho)
    · have htail := hblocks tail (List.mem_append_right _ List.mem_cons_self)
      rw [List.mem_singleton.mp ho]
      simp [ReplyBlock.copy, htail]

theorem addReplyProtoToList_adds (A : Alloc) (hopen : c.closeAfterReply = false) (s : Sds) :
    Adds s c (c.addReplyProtoToList A s) := by
  unfold addReplyProtoToList
  rw [if_neg (by rw [hopen]; simp)]
  cases htail : c.reply.getLast? with
  | none =>
      simp only
      split
      · next hnil =>
          rw [hnil]
          exact .refl c
      · next hne => exact newBlock_adds A hne c
  | some tail =>
      simp only
      have hcopy := copy_adds htail s
      have hs := List.take_append_drop (tail.size - tail.buf.length) s
      split
      · next hnil =>
          rw [hnil, List.append_nil] at hs
          rw [hs] at hcopy
          exact hcopy
      · next hne =>
          have hboth := hcopy.trans (newBlock_adds A hne _)
          rw [hs] at hboth
          exact hboth

theorem addReplyToBuffer_adds (hopen : c.closeAfterReply = false) (s : Sds) :
    (c.addReplyToBuffer s).2 = false ∧ (c.addReplyToBuffer s).1 = c ∨
      (c.addReplyToBuffer s).2 = true ∧ Adds s c (c.addReplyToBuffer s).1 := by
  unfold addReplyToBuffer
  rw [if_neg (by rw [hopen]; simp)]
  split
  · exact Or.inl ⟨rfl, rfl⟩
  · next hreply =>
      split
      · exact Or.inl ⟨rfl, rfl⟩
      · have hreply : c.reply = [] := not_not.mp hreply
        refine Or.inr ⟨rfl, .of_content ?_ rfl ?_ (fun h => h.bytes) (fun h => h.blocks) rfl
          ⟨rfl, rfl, rfl, rfl⟩⟩
        · simp [content, hreply]
        · unfold first
          simp only [hreply]
          by_cases hbuf : c.buf = []
          · simp [hbuf]
          · simp [hbuf]

/-- What may be added to the buffers of a client. -/
def accepts (c : Output) : Bool := !(c.replica && !c.replicaMessage) && !c.closeAfterReply

/-- Data that is pending is not forgotten. -/
def Watched (c : Output) : Prop := c.hasPendingReplies = true → c.attended = true

theorem Watched.of_attended (h : c.attended = true) : c.Watched := fun _ => h

/-- `c'` is `c` with `s` added to its buffers, and to be written to. -/
structure Queues (s : Sds) (c c' : Output) : Prop extends Adds s c c' where
  watched : c.Watched → c'.attended = true

theorem Queues.trans (h : Queues s c c') (h' : Queues t c' c'') : Queues (s ++ t) c c'' :=
  ⟨h.toAdds.trans h'.toAdds, fun hw => h'.attended (h.watched hw)⟩

/-- A client that may get replies is queued before they are added. -/
theorem prepareClientToWrite_queues (hreplica : (c.replica && !c.replicaMessage) = false) :
    ∃ c₁, c.prepareClientToWrite = (c₁, true) ∧ Queues [] c c₁ := by
  unfold prepareClientToWrite
  rw [if_neg (by rw [hreplica]; simp)]
  split
  · next hpending => exact ⟨c, rfl, .refl c, fun hw => hw hpending⟩
  · have hsched : ({ c with pendingWrite := true } : Output).attended = true := by
      simp [attended, scheduled]
    exact ⟨_, rfl, ⟨fun h => ⟨h.bytes, h.blocks, h.inside⟩, fun _ => (List.append_nil _).symm,
      fun _ => hsched, rfl, rfl, rfl, rfl⟩, fun _ => hsched⟩

theorem addToBuffers_adds (A : Alloc) (hopen : c.closeAfterReply = false) (s : Sds) :
    Adds s c (c.addToBuffers A s) := by
  unfold addToBuffers
  cases hbuf : c.addReplyToBuffer s with
  | mk c₁ ok =>
      have hcases := addReplyToBuffer_adds hopen s
      rw [hbuf] at hcases
      rcases hcases with ⟨rfl, rfl⟩ | ⟨rfl, hadds⟩
      · exact addReplyProtoToList_adds A hopen s
      · exact hadds

theorem addReplyProto_queues (A : Alloc) (hacc : c.accepts = true) (s : Sds) :
    Queues s c (c.addReplyProto A s) := by
  rw [accepts, Bool.and_eq_true, Bool.not_eq_true', Bool.not_eq_true'] at hacc
  obtain ⟨hreplica, hopen⟩ := hacc
  obtain ⟨c₁, hprep, hqueues⟩ := prepareClientToWrite_queues hreplica
  have hadds := addToBuffers_adds A (hqueues.flags.2.2.1.trans hopen) s
  unfold addReplyProto
  rw [hprep]
  exact ⟨hqueues.toAdds.trans hadds, fun hw => hadds.attended (hqueues.watched hw)⟩

theorem Queues.accepts (h : Queues s c c') (hacc : c.accepts = true) : c'.accepts = true := by
  obtain ⟨hr, hm, hc, -⟩ := h.flags
  unfold Output.accepts
  rw [hr, hm, hc]
  exact hacc

-- ============================================================ broadcasts

/-- The length of a vector or an argument as it is sent. -/
theorem addReplyLongLongWithPrefix_queues (A : Alloc) (hacc : c.accepts = true) (mark : Char)
    {k : ℕ} (hk : k < 2 ^ 63) :
    Queues (header mark k ++ crlf) c (c.addReplyLongLongWithPrefix A k mark) := by
  unfold addReplyLongLongWithPrefix
  split
  · exact addReplyProto_queues A hacc _
  · have hlen : (printInt k).length < (List.replicate 127 nul).length := by
      have hlt := length_printInt_lt (v := k) (by omega) (by omega)
      rw [List.length_replicate]
      unfold longStrSize at hlt
      omega
    obtain ⟨tail, hprint⟩ := ll2string_print hlen
    simp only [hprint, List.take_left]
    exact addReplyProto_queues A hacc _

theorem addReplyArrayLen_queues (A : Alloc) (hacc : c.accepts = true) {k : ℕ} (hk : k < 2 ^ 63) :
    Queues (header '*' k ++ crlf) c (c.addReplyArrayLen A k) := by
  unfold addReplyArrayLen
  split
  · exact addReplyProto_queues A hacc _
  · exact addReplyLongLongWithPrefix_queues A hacc '*' hk

theorem addReplyBulk_queues (A : Alloc) (hacc : c.accepts = true) {obj : Sds}
    (hobj : obj.length < 2 ^ 63) : Queues (encodeArg obj) c (c.addReplyBulk A obj) := by
  have hlen : Queues (header '$' obj.length ++ crlf) c
      (if obj.length < objSharedBulkhdrLen then c.addReplyProto A (sharedHdr '$' obj.length)
        else c.addReplyLongLongWithPrefix A obj.length '$') := by
    split
    · exact addReplyProto_queues A hacc _
    · exact addReplyLongLongWithPrefix_queues A hacc '$' hobj
  have hacc₁ := hlen.accepts hacc
  have hargs := addReplyProto_queues A hacc₁ obj
  exact hlen.trans (hargs.trans (addReplyProto_queues A (hargs.accepts hacc₁) crlf))

/-- A broadcast adds the text of its vector, whether or not the client is a
replica. -/
theorem broadcastTo_queues (A : Alloc) (hopen : c.closeAfterReply = false) {argv : List Sds}
    (hargc : argv.length < 2 ^ 63) (hargv : ∀ a ∈ argv, a.length < 2 ^ 63)
    (hm : c.replicaMessage = false) : Queues (encode argv) c (c.broadcastTo A argv) := by
  have hacc : ({ c with replicaMessage := true } : Output).accepts = true := by
    simp [accepts, hopen]
  have hcount := addReplyArrayLen_queues A hacc hargc
  have hargs : ∀ (c : Output), c.accepts = true →
      Adds (argv.flatMap encodeArg) c (argv.foldl (fun c obj => c.addReplyBulk A obj) c) := by
    clear hcount hargc
    induction argv with
    | nil => exact fun c _ => .refl c
    | cons a argv ih =>
        intro c hacc
        have ha := addReplyBulk_queues A hacc (hargv a List.mem_cons_self)
        exact ha.toAdds.trans
          (ih (fun b hb => hargv b (List.mem_cons_of_mem a hb)) _ (ha.accepts hacc))
  have hall := hargs _ (hcount.accepts hacc)
  have hboth := hcount.toAdds.trans hall
  obtain ⟨hr, -, hc, ha⟩ := hboth.flags
  -- the flag is set before and cleared after
  exact
    { sound := fun h =>
        have h' := hboth.sound ⟨h.bytes, h.blocks, h.inside⟩
        ⟨h'.bytes, h'.blocks, h'.inside⟩
      pending := fun h => hboth.pending ⟨h.bytes, h.blocks, h.inside⟩
      attended := hboth.attended
      flags := ⟨hr, hm.symm, hc, ha⟩
      watched := fun hw => hall.attended (hcount.watched hw) }

-- ===================================================== refused replies

/-- `c'` holds what `c` holds, and is watched if `c` is. -/
structure Holds (c c' : Output) : Prop extends Adds [] c c' where
  watched : c.Watched → c'.Watched

theorem Holds.refl (c : Output) : Holds c c := ⟨.refl c, id⟩

theorem Holds.trans (h : Holds c c') (h' : Holds c' c'') : Holds c c'' :=
  ⟨h.toAdds.trans h'.toAdds, h'.watched ∘ h.watched⟩

/-- A client that takes no replies holds what it held. -/
theorem addReplyProto_refused (A : Alloc) (hacc : c.accepts = false) (s : Sds) :
    Holds c (c.addReplyProto A s) := by
  unfold addReplyProto
  by_cases hreplica : (c.replica && !c.replicaMessage) = true
  · have hprep : c.prepareClientToWrite = (c, false) := if_pos hreplica
    rw [hprep]
    exact .refl c
  · rw [Bool.not_eq_true] at hreplica
    have hclosed : c.closeAfterReply = true := by simpa [accepts, hreplica] using hacc
    obtain ⟨c₁, hprep, hqueues⟩ := prepareClientToWrite_queues hreplica
    have hbuf : c₁.addReplyToBuffer s = (c₁, true) := if_pos (hqueues.flags.2.2.1.trans hclosed)
    rw [hprep]
    simp only [addToBuffers, hbuf]
    exact ⟨hqueues.toAdds, fun hw => .of_attended (hqueues.watched hw)⟩

/-- A broadcast adds nothing to a client that is to be closed. -/
theorem broadcastTo_closed (A : Alloc) (hclosed : c.closeAfterReply = true)
    (hm : c.replicaMessage = false) (argv : List Sds) : Holds c (c.broadcastTo A argv) := by
  have hproto : ∀ {c : Output}, c.closeAfterReply = true → ∀ s,
      Holds c (c.addReplyProto A s) ∧ (c.addReplyProto A s).closeAfterReply = true := by
    intro c hclosed s
    have hholds := addReplyProto_refused A (c := c) (by simp [accepts, hclosed]) s
    exact ⟨hholds, hholds.flags.2.2.1.trans hclosed⟩
  have hlen : ∀ {c : Output}, c.closeAfterReply = true → ∀ ll mark,
      Holds c (c.addReplyLongLongWithPrefix A ll mark) ∧
        (c.addReplyLongLongWithPrefix A ll mark).closeAfterReply = true := by
    intro c hclosed ll mark
    unfold addReplyLongLongWithPrefix
    split
    · exact hproto hclosed _
    · exact hproto hclosed _
  have hbulk : ∀ {c : Output}, c.closeAfterReply = true → ∀ obj,
      Holds c (c.addReplyBulk A obj) ∧ (c.addReplyBulk A obj).closeAfterReply = true := by
    intro c hclosed obj
    have hrest : ∀ {c₁ : Output}, Holds c c₁ → c₁.closeAfterReply = true →
        Holds c ((c₁.addReplyProto A obj).addReplyProto A ['\r', '\n']) ∧
          ((c₁.addReplyProto A obj).addReplyProto A ['\r', '\n']).closeAfterReply = true := by
      intro c₁ hholds hclosed₁
      have hobj := hproto hclosed₁ obj
      have hend := hproto hobj.2 ['\r', '\n']
      exact ⟨hholds.trans (hobj.1.trans hend.1), hend.2⟩
    unfold addReplyBulk
    split
    · exact hrest (hproto hclosed _).1 (hproto hclosed _).2
    · exact hrest (hlen hclosed _ _).1 (hlen hclosed _ _).2
  have hargs : ∀ (argv : List Sds) {c : Output}, c.closeAfterReply = true →
      Holds c (argv.foldl (fun c obj => c.addReplyBulk A obj) c) := by
    intro argv
    induction argv with
    | nil => exact fun _ => .refl _
    | cons a argv ih => exact fun hclosed => (hbulk hclosed a).1.trans (ih (hbulk hclosed a).2)
  have hcount : Holds { c with replicaMessage := true }
      (addReplyArrayLen A argv.length { c with replicaMessage := true }) ∧
      (addReplyArrayLen A argv.length { c with replicaMessage := true }).closeAfterReply
        = true := by
    unfold addReplyArrayLen
    split
    · exact hproto (c := { c with replicaMessage := true }) hclosed _
    · exact hlen (c := { c with replicaMessage := true }) hclosed _ _
  have hall := hcount.1.trans (hargs argv hcount.2)
  obtain ⟨hr, -, hc, ha⟩ := hall.flags
  exact
    { sound := fun h =>
        have h' := hall.sound ⟨h.bytes, h.blocks, h.inside⟩
        ⟨h'.bytes, h'.blocks, h'.inside⟩
      pending := fun h => hall.pending ⟨h.bytes, h.blocks, h.inside⟩
      attended := hall.attended
      flags := ⟨hr, hm.symm, hc, ha⟩
      watched := hall.watched }

-- ================================================================ writes

/-- `c'` is `c` after the connection took `w`. -/
structure Takes (w : Sds) (c c' : Output) : Prop where
  sound : c'.Sound
  pending : c.pending = w ++ c'.pending
  flags : c'.replica = c.replica ∧ c'.replicaMessage = c.replicaMessage ∧
    c'.closeAfterReply = c.closeAfterReply
  kept : c'.pendingWrite = c.pendingWrite ∧ c'.writeHandler = c.writeHandler ∧
    c'.closeAsap = c.closeAsap
  less : c'.hasPendingReplies = true → c.hasPendingReplies = true

theorem Takes.refl (h : c.Sound) : Takes [] c c :=
  ⟨h, rfl, ⟨rfl, rfl, rfl⟩, ⟨rfl, rfl, rfl⟩, id⟩

theorem Takes.trans {w w' : Sds} (h : Takes w c c') (h' : Takes w' c' c'') :
    Takes (w ++ w') c c'' := by
  obtain ⟨hr, hm, hc⟩ := h.flags
  obtain ⟨hr', hm', hc'⟩ := h'.flags
  obtain ⟨hp, hw, ha⟩ := h.kept
  obtain ⟨hp', hw', ha'⟩ := h'.kept
  refine ⟨h'.sound, ?_, ⟨hr'.trans hr, hm'.trans hm, hc'.trans hc⟩,
    ⟨hp'.trans hp, hw'.trans hw, ha'.trans ha⟩, h.less ∘ h'.less⟩
  rw [h.pending, h'.pending, List.append_assoc]

/-- There are no empty blocks to delete. -/
theorem Sound.dropEmpty (h : c.Sound) : c.dropEmpty = c := by
  have hnone : c.reply.dropWhile (fun o => o.buf = []) = c.reply ∧
      c.reply.takeWhile (fun o => o.buf = []) = [] := by
    cases hreply : c.reply with
    | nil => exact ⟨rfl, rfl⟩
    | cons o reply =>
        have ho := h.blocks o (hreply ▸ List.mem_cons_self)
        simp [ho]
  unfold Output.dropEmpty
  rw [hnone.1, hnone.2]
  rfl

theorem hasPendingReplies_iff (h : c.Sound) : c.hasPendingReplies = true ↔ c.first ≠ [] := by
  unfold hasPendingReplies first
  by_cases hbuf : c.buf = []
  · cases hreply : c.reply with
    | nil => simp [hbuf]
    | cons o reply =>
        have ho := h.blocks o (hreply ▸ List.mem_cons_self)
        simp [hbuf, ho]
  · simp [hbuf]

theorem chunk_eq (c : Output) : c.chunk = c.first.drop c.sentlen := rfl

/-- Sending a part of the first of two buffers. -/
theorem take_append_pending {f r : Sds} {i k : ℕ} (hi : i + k ≤ f.length) :
    (f ++ r).drop i = (f.drop i).take k ++ (f ++ r).drop (i + k) := by
  rw [List.drop_append_of_le_length (by omega), List.drop_append_of_le_length hi,
    ← List.append_assoc, ← List.drop_drop, List.take_append_drop]

/-- Bytes of the first buffer are sent. -/
theorem advance_takes (h : c.Sound) (hne : c.first ≠ []) {k : ℕ} (hk : k ≤ c.chunk.length) :
    ∃ c', c.advance k = some c' ∧ Takes (c.chunk.take k) c c' := by
  have hlen : c.sentlen + k ≤ c.first.length := by
    rw [chunk_eq, List.length_drop] at hk
    have hinside := h.inside
    have hpos := List.length_pos_iff.mpr hne
    omega
  have hless : ∀ {b : Bool}, b = true → c.hasPendingReplies = true :=
    fun _ => (hasPendingReplies_iff h).mpr hne
  unfold advance
  rw [chunk_eq]
  by_cases hbuf : c.buf = []
  · cases hreply : c.reply with
    | nil =>
        refine absurd ?_ hne
        simp [first, hbuf, hreply]
    | cons o reply =>
        have hfirst : c.first = o.buf := by simp [first, hbuf, hreply]
        have hcontent : c.content = o.buf ++ reply.flatMap ReplyBlock.buf := by
          simp [content, hbuf, hreply]
        have hbytes := h.bytes
        have hblocks := h.blocks
        rw [hreply] at hbytes hblocks
        rw [List.map_cons, List.sum_cons] at hbytes
        rw [hfirst] at hlen ⊢
        have hsplit : c.pending = (o.buf.drop c.sentlen).take k ++
            (o.buf ++ reply.flatMap ReplyBlock.buf).drop (c.sentlen + k) := by
          unfold Output.pending
          rw [hcontent]
          exact take_append_pending hlen
        simp only [hbuf, ne_eq, not_true_eq_false, if_false]
        by_cases hall : c.sentlen + k = o.buf.length
        · have hzero : c.replyBytes - o.size = (reply.map ReplyBlock.size).sum := by omega
          have hassert : ¬ (reply = [] ∧ c.replyBytes - o.size ≠ 0) := by
            rintro ⟨rfl, hnz⟩
            exact hnz hzero
          rw [if_pos hall, if_neg hassert]
          refine ⟨_, rfl, ⟨hzero, fun o' ho' => hblocks o' (List.mem_cons_of_mem o ho'),
            Or.inl rfl⟩, ?_, ⟨rfl, rfl, rfl⟩, ⟨rfl, rfl, rfl⟩, hless⟩
          rw [hsplit, hall, List.drop_left]
          simp [Output.pending, content]
        · rw [if_neg hall]
          refine ⟨_, rfl, ⟨?_, ?_, Or.inr ?_⟩, ?_, ⟨rfl, rfl, rfl⟩, ⟨rfl, rfl, rfl⟩, hless⟩
          · simp only [List.map_cons, List.sum_cons]
            exact hbytes
          · exact hblocks
          · simp only [first, List.head?_cons, Option.map_some, Option.getD_some]
            rw [if_neg (by simp)]
            omega
          · rw [hsplit]
            simp [Output.pending, content]
  · have hfirst : c.first = c.buf := by simp [first, hbuf]
    rw [hfirst] at hlen ⊢
    have hsplit : c.pending = (c.buf.drop c.sentlen).take k ++
        (c.buf ++ c.reply.flatMap ReplyBlock.buf).drop (c.sentlen + k) := take_append_pending hlen
    rw [if_pos hbuf]
    by_cases hall : c.sentlen + k = c.buf.length
    · rw [if_pos hall]
      refine ⟨_, rfl, ⟨h.bytes, h.blocks, Or.inl rfl⟩, ?_, ⟨rfl, rfl, rfl⟩, ⟨rfl, rfl, rfl⟩, hless⟩
      rw [hsplit, hall, List.drop_left]
      simp [Output.pending, content]
    · rw [if_neg hall]
      refine ⟨_, rfl, ⟨h.bytes, h.blocks, Or.inr ?_⟩, hsplit, ⟨rfl, rfl, rfl⟩,
        ⟨rfl, rfl, rfl⟩, hless⟩
      simp only [first, if_pos hbuf]
      omega

/-- The loop of `writeToClient` takes bytes off the front of what is
pending, and its assertion holds. -/
theorem writeLoop_takes (memoryShort : Bool) (ws : List ConnWrite) (totwritten : ℕ) (h : c.Sound) :
    ∃ c' w failed, c.writeLoop memoryShort ws totwritten = some (c', w, failed) ∧ Takes w c c' ∧
      (failed = true → .error ∈ ws) := by
  have hskip : (if c.buf = [] then c.dropEmpty else c) = c := by
    split
    · exact h.dropEmpty
    · rfl
  induction ws generalizing c totwritten with
  | nil =>
      unfold writeLoop
      rw [hskip]
      exact ⟨_, _, _, rfl, .refl h, fun hcon => Bool.noConfusion hcon⟩
  | cons r ws ih =>
      unfold writeLoop
      simp only [hskip]
      split
      · exact ⟨_, _, _, rfl, .refl h, fun hcon => Bool.noConfusion hcon⟩
      · next hpending =>
          rw [Bool.not_eq_false] at hpending
          have hne := (hasPendingReplies_iff h).mp hpending
          cases r with
          | again => exact ⟨_, _, _, rfl, .refl h, fun hcon => Bool.noConfusion hcon⟩
          | error => exact ⟨_, _, _, rfl, .refl h, fun _ => List.mem_cons_self⟩
          | wrote k =>
              simp only
              split
              · exact ⟨_, _, _, rfl, .refl h, fun hcon => Bool.noConfusion hcon⟩
              · have hle : (c.chunk.take k).length ≤ c.chunk.length := by
                  rw [List.length_take]
                  omega
                have htake : c.chunk.take (c.chunk.take k).length = c.chunk.take k := by
                  rw [List.length_take]
                  exact List.take_eq_take_min.symm
                obtain ⟨c₁, hadvance, htakes⟩ := advance_takes h hne hle
                rw [htake] at htakes
                rw [hadvance, Option.bind_some]
                split
                · exact ⟨_, _, _, rfl, htakes, fun hcon => Bool.noConfusion hcon⟩
                · have hskip₁ : (if c₁.buf = [] then c₁.dropEmpty else c₁) = c₁ := by
                    split
                    · exact htakes.sound.dropEmpty
                    · rfl
                  obtain ⟨c₂, w, failed, hloop, htakes₂, herror⟩ :=
                    ih (totwritten + (c.chunk.take k).length) htakes.sound hskip₁
                  refine ⟨c₂, _, failed, ?_, htakes.trans htakes₂, fun hfailed =>
                    List.mem_cons_of_mem _ (herror hfailed)⟩
                  rw [hloop, Option.map_some]

/-- `c'` is `c` after the server turned to it and the connection took `w`;
if nothing went wrong (`ok`) the client is not queued to be freed. -/
structure Sends (ok : Prop) (w : Sds) (c c' : Output) : Prop where
  sound : c'.Sound
  pending : c.pending = w ++ c'.pending
  flags : c'.replica = c.replica ∧ c'.replicaMessage = c.replicaMessage ∧
    c'.closeAfterReply = c.closeAfterReply
  watched : c.Watched → c'.Watched
  kept : ok → c.closeAfterReply = false → c'.closeAsap = c.closeAsap

/-- `writeToClient`: as its loop, and a client whose data was not all taken
keeps its handler, unless it is queued to be freed. -/
theorem writeToClient_takes (memoryShort : Bool) (ws : List ConnWrite) (handler : Bool)
    (h : c.Sound) : ∃ c' w ok, c.writeToClient memoryShort ws handler = some (c', w, ok) ∧
      c'.Sound ∧ c.pending = w ++ c'.pending ∧
      (c'.replica = c.replica ∧ c'.replicaMessage = c.replicaMessage ∧
        c'.closeAfterReply = c.closeAfterReply) ∧
      (ok = false → c'.closeAsap = true) ∧
      (c'.hasPendingReplies = true → c'.attended = true ∨ c'.attended = c.attended) ∧
      (.error ∉ ws → c.closeAfterReply = false → c'.closeAsap = c.closeAsap) := by
  obtain ⟨c₁, w, failed, hloop, htakes, herror⟩ := writeLoop_takes memoryShort ws 0 h
  obtain ⟨hp, hw, ha⟩ := htakes.kept
  have hsound := htakes.sound
  have hsched : c₁.attended = c.attended := by
    unfold attended scheduled
    rw [hp, hw, ha]
  unfold writeToClient
  rw [hloop, Option.map_some]
  simp only
  cases failed with
  | true =>
      exact ⟨_, _, _, rfl, ⟨hsound.bytes, hsound.blocks, hsound.inside⟩, htakes.pending,
        htakes.flags, fun _ => rfl, fun _ => Or.inl (by simp [attended]),
        fun hclean => absurd (herror rfl) hclean⟩
  | false =>
      rw [if_neg (by simp)]
      by_cases hpending : c₁.hasPendingReplies = true
      · rw [if_pos hpending]
        exact ⟨_, _, _, rfl, hsound, htakes.pending, htakes.flags, fun h => Bool.noConfusion h,
          fun _ => Or.inr hsched, fun _ _ => ha⟩
      · rw [if_neg hpending]
        have hfirst : c₁.first = [] := by
          by_contra hne
          exact hpending ((hasPendingReplies_iff hsound).mpr hne)
        have hzero : c₁.sentlen = 0 := by
          have hinside := hsound.inside
          rw [hfirst, List.length_nil] at hinside
          omega
        have hnone : ∀ (b a : Bool), ({ c₁ with sentlen := 0, writeHandler := b, closeAsap := a } :
            Output).Sound ∧ c.pending = w ++ ({ c₁ with
              sentlen := 0, writeHandler := b, closeAsap := a } : Output).pending := by
          refine fun b a => ⟨⟨hsound.bytes, hsound.blocks, Or.inl rfl⟩, ?_⟩
          rw [htakes.pending]
          unfold Output.pending
          rw [hzero]
          rfl
        split
        · next hclose =>
            refine ⟨_, _, _, rfl, (hnone _ true).1, (hnone _ true).2, htakes.flags, fun _ => rfl,
              fun h => absurd h hpending, fun _ hopen => ?_⟩
            rw [show c₁.closeAfterReply = false from htakes.flags.2.2.trans hopen] at hclose
            cases hclose
        · exact ⟨_, _, _, rfl, (hnone _ c₁.closeAsap).1, (hnone _ c₁.closeAsap).2, htakes.flags,
            fun h => Bool.noConfusion h, fun h => absurd h hpending, fun _ _ => ha⟩

theorem handlePendingWrite_sends (memoryShort : Bool) (ws : List ConnWrite) (installs : Bool)
    (h : c.Sound) : ∃ c' w, c.handlePendingWrite memoryShort ws installs = some (c', w) ∧
      Sends (.error ∉ ws ∧ installs = true) w c c' := by
  unfold handlePendingWrite
  split
  · obtain ⟨c₁, w, ok, hwrite, hsound, hpending, hflags, hfailed, -, hkept⟩ :=
      writeToClient_takes (c := { c with pendingWrite := false }) memoryShort ws false
        ⟨h.bytes, h.blocks, h.inside⟩
    rw [hwrite, Option.map_some]
    simp only
    split
    · cases installs with
      | true =>
          exact ⟨_, _, rfl, ⟨hsound.bytes, hsound.blocks, hsound.inside⟩, hpending, hflags,
            fun _ => .of_attended (by simp [attended, scheduled]), fun hok => hkept hok.1⟩
      | false =>
          exact ⟨_, _, rfl, ⟨hsound.bytes, hsound.blocks, hsound.inside⟩, hpending, hflags,
            fun _ => .of_attended (by simp [attended]), fun hok => Bool.noConfusion hok.2⟩
    · next hdone =>
        refine ⟨_, _, rfl, hsound, hpending, hflags, fun _ hmore => ?_, fun hok => hkept hok.1⟩
        -- nothing is left, or the client is to be freed
        have hok : ok = false := by
          by_contra hok
          rw [Bool.not_eq_false] at hok
          exact hdone (by rw [hok, hmore]; rfl)
        simp [attended, hfailed hok]
  · exact ⟨_, _, rfl, h, rfl, ⟨rfl, rfl, rfl⟩, id, fun _ _ => rfl⟩

theorem sendReplyToClient_sends (memoryShort : Bool) (ws : List ConnWrite) (h : c.Sound) :
    ∃ c' w, c.sendReplyToClient memoryShort ws = some (c', w) ∧
      Sends (.error ∉ ws) w c c' := by
  unfold sendReplyToClient
  split
  · next hhandler =>
      obtain ⟨c₁, w, ok, hwrite, hsound, hpending, hflags, -, hkept, hasap⟩ :=
        writeToClient_takes memoryShort ws true h
      rw [hwrite, Option.map_some]
      refine ⟨_, _, rfl, hsound, hpending, hflags, fun _ hmore => ?_, hasap⟩
      rcases hkept hmore with hs | hs
      · exact hs
      · rw [hs]
        simp [attended, scheduled, hhandler]
  · exact ⟨_, _, rfl, h, rfl, ⟨rfl, rfl, rfl⟩, id, fun _ _ => rfl⟩

end Output

-- ================================================================== runs

/-- What happens to the output of a client: a command replies, a vector is
broadcast, it becomes a replica, it is to be closed, the server comes to it
in `clients_pending_write`, or its connection is writable. -/
inductive OutputEvent
  | reply (s : Sds)
  | broadcast (argv : List Sds)
  | becomeReplica
  | close
  | pendingWrites (memoryShort : Bool) (ws : List ConnWrite) (installs : Bool)
  | writable (memoryShort : Bool) (ws : List ConnWrite)
deriving DecidableEq

namespace Output

/-- One event, and the bytes the connection took. -/
def step (A : Alloc) (e : OutputEvent) (c : Output) : Option (Output × Sds) :=
  match e with
  | .reply s => some (c.addReplyProto A s, [])
  | .broadcast argv => some (c.broadcastTo A argv, [])
  | .becomeReplica => some ({ c with replica := true }, [])
  | .close => some ({ c with closeAfterReply := true }, [])
  | .pendingWrites memoryShort ws installs => c.handlePendingWrite memoryShort ws installs
  | .writable memoryShort ws => c.sendReplyToClient memoryShort ws

def run (A : Alloc) : List OutputEvent → Output → Option (Output × Sds)
  | [], c => some (c, [])
  | e :: es, c =>
      (c.step A e).bind fun r => (run A es r.1).map fun r' => (r'.1, r.2 ++ r'.2)

end Output

namespace OutputEvent

/-- What an event adds to the output. -/
def adds (replica closed : Bool) : OutputEvent → Sds
  | .reply s => if replica || closed then [] else s
  | .broadcast argv => if closed then [] else encode argv
  | _ => []

/-- Vectors of a size memory has. -/
def Sized : OutputEvent → Prop
  | .broadcast argv => argv.length < 2 ^ 63 ∧ ∀ a ∈ argv, a.length < 2 ^ 63
  | _ => True

/-- The connection does not fail. -/
def Clean : OutputEvent → Prop
  | .pendingWrites _ ws installs => .error ∉ ws ∧ installs = true
  | .writable _ ws => .error ∉ ws
  | _ => True

end OutputEvent

/-- What a connection is owed: the replies up to where the client becomes a
replica, and all broadcasts, up to where it is to be closed. -/
def owed (replica closed : Bool) : List OutputEvent → Sds
  | [] => []
  | e :: es => e.adds replica closed ++
      owed (replica || decide (e = .becomeReplica)) (closed || decide (e = .close)) es

namespace Output

variable {A : Alloc} {c : Output}

/-- What holds of a client between events. -/
structure Between (c : Output) : Prop extends c.Sound where
  watched : c.Watched
  message : c.replicaMessage = false

/-- One event: what the connection took and what is pending is what was
pending and what the event adds. -/
theorem step_stream (A : Alloc) {e : OutputEvent} (h : c.Between) (he : e.Sized) :
    ∃ c' w, c.step A e = some (c', w) ∧ c'.Between ∧
      w ++ c'.pending = c.pending ++ e.adds c.replica c.closeAfterReply ∧
      c'.replica = (c.replica || decide (e = .becomeReplica)) ∧
      c'.closeAfterReply = (c.closeAfterReply || decide (e = .close)) ∧
      (e.Clean → c.closeAfterReply = false → c'.closeAsap = c.closeAsap) := by
  -- events that add to the output, and those that send it
  have hadd : ∀ {s : Sds} {c' : Output}, Adds s c c' → c'.Watched → c'.Between ∧
      [] ++ c'.pending = c.pending ++ s ∧ c'.replica = (c.replica || false) ∧
      c'.closeAfterReply = (c.closeAfterReply || false) ∧
      (e.Clean → c.closeAfterReply = false → c'.closeAsap = c.closeAsap) := by
    intro s c' hadds hwatched
    obtain ⟨hr, hm, hc, ha⟩ := hadds.flags
    rw [Bool.or_false, Bool.or_false]
    exact ⟨⟨hadds.sound h.toSound, hwatched, hm.trans h.message⟩, hadds.pending h.toSound, hr, hc,
      fun _ _ => ha⟩
  have hsend : ∀ {w : Sds} {c' : Output}, Sends e.Clean w c c' → c'.Between ∧
      w ++ c'.pending = c.pending ++ [] ∧ c'.replica = (c.replica || false) ∧
      c'.closeAfterReply = (c.closeAfterReply || false) ∧
      (e.Clean → c.closeAfterReply = false → c'.closeAsap = c.closeAsap) := by
    intro w c' hsends
    obtain ⟨hr, hm, hc⟩ := hsends.flags
    rw [Bool.or_false, Bool.or_false, List.append_nil]
    exact ⟨⟨hsends.sound, hsends.watched h.watched, hm.trans h.message⟩, hsends.pending.symm,
      hr, hc, hsends.kept⟩
  cases e with
  | reply s =>
      refine ⟨_, [], rfl, ?_⟩
      have hgets : (c.replica || c.closeAfterReply) = !c.accepts := by
        simp [accepts, h.message]
      rw [OutputEvent.adds, hgets]
      cases hacc : c.accepts with
      | true =>
          have hqueues := addReplyProto_queues A hacc s
          exact hadd hqueues.toAdds (.of_attended (hqueues.watched h.watched))
      | false =>
          have hholds := addReplyProto_refused A hacc s
          exact hadd hholds.toAdds (hholds.watched h.watched)
  | broadcast argv =>
      refine ⟨_, [], rfl, ?_⟩
      rw [OutputEvent.adds]
      split
      · next hc =>
          have hholds := broadcastTo_closed A hc h.message argv
          exact hadd hholds.toAdds (hholds.watched h.watched)
      · next hc =>
          rw [Bool.not_eq_true] at hc
          have hqueues := broadcastTo_queues A hc he.1 he.2 h.message
          exact hadd hqueues.toAdds (.of_attended (hqueues.watched h.watched))
  | becomeReplica =>
      refine ⟨_, [], rfl, ⟨⟨h.bytes, h.blocks, h.inside⟩, h.watched, h.message⟩, ?_, ?_, ?_,
        fun _ _ => rfl⟩
      · exact (List.append_nil _).symm
      · simp
      · simp
  | close =>
      refine ⟨_, [], rfl, ⟨⟨h.bytes, h.blocks, h.inside⟩, h.watched, h.message⟩, ?_, ?_, ?_,
        fun _ _ => rfl⟩
      · exact (List.append_nil _).symm
      · simp
      · simp
  | pendingWrites memoryShort ws installs =>
      obtain ⟨c', w, hstep, hsends⟩ := handlePendingWrite_sends memoryShort ws installs h.toSound
      exact ⟨c', w, hstep, hsend hsends⟩
  | writable memoryShort ws =>
      obtain ⟨c', w, hstep, hsends⟩ := sendReplyToClient_sends memoryShort ws h.toSound
      exact ⟨c', w, hstep, hsend hsends⟩

/-- Whatever happens to a client, no assertion fails, what its connection
took and what is pending are what it is owed, in order, and if something is
pending the event loop comes to it. -/
theorem run_between (A : Alloc) {es : List OutputEvent} (h : c.Between)
    (hes : ∀ e ∈ es, e.Sized) :
    ∃ c' w, c.run A es = some (c', w) ∧ c'.Between ∧
      w ++ c'.pending = c.pending ++ owed c.replica c.closeAfterReply es := by
  induction es generalizing c with
  | nil => exact ⟨c, [], rfl, h, (List.append_nil _).symm⟩
  | cons e es ih =>
      obtain ⟨c₁, w₁, hstep, h₁, hstream₁, hr₁, hc₁, -⟩ :=
        step_stream A h (hes e List.mem_cons_self)
      obtain ⟨c₂, w₂, hrun, h₂, hstream₂⟩ := ih h₁ fun e' he' => hes e' (List.mem_cons_of_mem e he')
      refine ⟨c₂, w₁ ++ w₂, ?_, h₂, ?_⟩
      · rw [run, hstep, Option.bind_some, hrun, Option.map_some]
      · rw [hr₁, hc₁] at hstream₂
        rw [owed, List.append_assoc, hstream₂, ← List.append_assoc, hstream₁, List.append_assoc]

theorem Between.createClient : createClient.Between :=
  { bytes := rfl
    blocks := fun o ho => absurd ho List.not_mem_nil
    inside := Or.inl rfl
    watched := fun h => absurd h (by decide)
    message := rfl }

/-- Whatever happens to a client, no assertion fails, and what its
connection took followed by what is pending is what it is owed, in order:
the replies up to where it becomes a replica and all broadcasts. Data that
is pending is scheduled to be written, unless the client is queued to be
freed. -/
theorem output_stream (A : Alloc) {es : List OutputEvent} (hes : ∀ e ∈ es, e.Sized) :
    ∃ c w, createClient.run A es = some (c, w) ∧ w ++ c.pending = owed false false es ∧
      (c.hasPendingReplies = true → c.scheduled = true ∨ c.closeAsap = true) := by
  obtain ⟨c, w, hrun, hbetween, hstream⟩ := run_between A Between.createClient hes
  exact ⟨c, w, hrun, hstream, fun hmore => Bool.or_eq_true_iff.mp (hbetween.watched hmore)⟩

/-- A client is answered, becomes a replica, is answered in vain and gets a
broadcast of which the connection takes a part; the rest waits for the
write handler. -/
theorem output_stream_replica : ∃ c w, createClient.run ⟨id, fun _ => le_rfl⟩
    [.reply "+OK\r\n".toList, .becomeReplica, .reply "+OK\r\n".toList,
      .broadcast ["OZREM".toList, "k".toList],
      .pendingWrites false [.wrote 5, .wrote 4, .again] true] = some (c, w) ∧
    w ++ c.pending = "+OK\r\n*2\r\n$5\r\nOZREM\r\n$1\r\nk\r\n".toList ∧
      (c.hasPendingReplies = true → c.scheduled = true ∨ c.closeAsap = true) := by
  refine output_stream ⟨id, fun _ => le_rfl⟩ fun e he => ?_
  simp only [List.mem_cons, List.not_mem_nil, or_false] at he
  rcases he with rfl | rfl | rfl | rfl | rfl
  · trivial
  · trivial
  · trivial
  · exact ⟨by decide, by decide +kernel⟩
  · trivial

end Output

end CrdtRedis
