/-
The output buffers of a client: how replies and broadcasts become the
bytes a connection takes (networking.c, `replicationBroadcast` of p2p.c).

A client has a static buffer `buf` and, once that is full, a list of reply
blocks; `sentlen` says how much of the first of them is sent. A client
with CLIENT_REPLICA gets no replies, only what is written while
CLIENT_REPLICA_MESSAGE is set.

# What is under way

`pending` is what the buffers hold and the connection did not take. Every
function appends to it or takes bytes off its front, so what the
connection took and what is pending are together everything that was
added, in order (`output_stream`). Data that is pending is also scheduled:
the client is queued in `clients_pending_write` or its write handler is
installed, so nothing waits for an event that does not come. The exception
is a client queued to be freed, whose data is lost with it.

# What is left out

The client is neither a master nor a classic replica nor protected, has a
connection and replies on, and no limit is set on its output, as is the
default for clients that are not classic replicas, so that nothing is left
of `asyncCloseClientOnOutputBufferLimitReached` but its assertion: that
`reply_bytes` is 64 KiB or more below SIZE_MAX, which blocks that are all
in memory do not reach. It is left out with it. Replies of a deferred
length are not broadcast and not modelled.
-/
import CrdtRedis.Numbers
import CrdtRedis.Wire

namespace CrdtRedis

open CString

/-- `PROTO_REPLY_CHUNK_BYTES`, also the size of `buf`. -/
def protoReplyChunkBytes : ℕ := 16 * 1024

/-- `NET_MAX_WRITES_PER_EVENT`. -/
def netMaxWritesPerEvent : ℕ := 1024 * 64

/-- `OBJ_SHARED_BULKHDR_LEN`. -/
def objSharedBulkhdrLen : ℕ := 32

/-- The allocator: the usable size of a block of a requested size. -/
structure Alloc where
  usable : ℕ → ℕ
  le_usable : ∀ size, size ≤ usable size

/-- `clientReplyBlock`, with the part of its buffer that is used. -/
structure ReplyBlock where
  size : ℕ
  buf : Sds
  fits : buf.length ≤ size
deriving DecidableEq

/-- The fields of `struct client` the output functions work on; `buf` is
the used part of the static buffer, `pendingWrite` the place in
`clients_pending_write` with its flag. -/
structure Output where
  replica : Bool
  replicaMessage : Bool
  closeAfterReply : Bool
  closeAsap : Bool
  buf : Sds
  sentlen : ℕ
  reply : List ReplyBlock
  replyBytes : ℕ
  pendingWrite : Bool
  writeHandler : Bool
deriving DecidableEq

/-- What `connWrite` returns: that it has to wait, an error, or the number
of bytes it took, out of those it was given. -/
inductive ConnWrite
  | again | error
  | wrote (k : ℕ)
deriving DecidableEq

namespace ReplyBlock

/-- The part of `s` that fits is copied to the end. -/
def copy (s : Sds) (o : ReplyBlock) : ReplyBlock where
  size := o.size
  buf := o.buf ++ s.take (o.size - o.buf.length)
  fits := by
    have hfits := o.fits
    rw [List.length_append, List.length_take]
    omega

end ReplyBlock

namespace Output

/-- `createClient`. -/
def createClient : Output := ⟨false, false, false, false, [], 0, [], 0, false, false⟩

/-- `clientHasPendingReplies`. -/
def hasPendingReplies (c : Output) : Bool := c.buf ≠ [] ∨ c.reply ≠ []

/-- `prepareClientToWrite`: the client after it, and whether replies may be
added. -/
def prepareClientToWrite (c : Output) : Output × Bool :=
  if c.replica && !c.replicaMessage then (c, false)
  -- `clientInstallWriteHandler`
  else (if c.hasPendingReplies then c else { c with pendingWrite := true }, true)

/-- `_addReplyToBuffer`; whether it returned C_OK. -/
def addReplyToBuffer (s : Sds) (c : Output) : Output × Bool :=
  if c.closeAfterReply then (c, true)
  else if c.reply ≠ [] then (c, false)
  else if s.length > protoReplyChunkBytes - c.buf.length then (c, false)
  else ({ c with buf := c.buf ++ s }, true)

section

variable (A : Alloc)

/-- A new block at the end of the list. -/
def newBlock (s : Sds) (c : Output) : Output :=
  let size := if s.length < protoReplyChunkBytes then protoReplyChunkBytes else s.length
  { c with
    reply := c.reply ++ [{
      size := A.usable size
      buf := s
      fits := by
        have hle := A.le_usable size
        have hsize : s.length ≤ size := by
          simp only [size]
          split <;> omega
        omega }]
    replyBytes := c.replyBytes + A.usable size }

/-- `_addReplyProtoToList`. -/
def addReplyProtoToList (s : Sds) (c : Output) : Output :=
  if c.closeAfterReply then c
  else match c.reply.getLast? with
    | none => if s = [] then c else c.newBlock A s
    | some tail =>
        let rest := s.drop (tail.size - tail.buf.length)
        let c := { c with reply := c.reply.dropLast ++ [tail.copy s] }
        if rest = [] then c else c.newBlock A rest

/-- The static buffer, and the list if that returned C_ERR. -/
def addToBuffers (s : Sds) (c : Output) : Output :=
  match c.addReplyToBuffer s with
  | (c, true) => c
  | (c, false) => c.addReplyProtoToList A s

/-- `addReplyProto`, and `addReply` and `addReplySds` on a string. -/
def addReplyProto (s : Sds) (c : Output) : Output :=
  match c.prepareClientToWrite with
  | (c, false) => c
  | (c, true) => c.addToBuffers A s

/-- `shared.mbulkhdr[j]` and `shared.bulkhdr[j]`. -/
def sharedHdr (mark : Char) (j : ℤ) : Sds := mark :: printInt j ++ ['\r', '\n']

/-- `addReplyLongLongWithPrefix`; `buf` has 128 characters. -/
def addReplyLongLongWithPrefix (ll : ℤ) (mark : Char) (c : Output) : Output :=
  if (mark = '*' ∨ mark = '$') ∧ ll < objSharedBulkhdrLen ∧ 0 ≤ ll then
    c.addReplyProto A (sharedHdr mark ll)
  else
    let r := ll2string (List.replicate 127 nul) ll
    c.addReplyProto A (mark :: r.1.take r.2 ++ ['\r', '\n'])

/-- `addReplyArrayLen`, for a length that is no less than zero. -/
def addReplyArrayLen (length : ℕ) (c : Output) : Output :=
  if length < objSharedBulkhdrLen then c.addReplyProto A (sharedHdr '*' length)
  else c.addReplyLongLongWithPrefix A length '*'

/-- `addReplyBulk` on a string. -/
def addReplyBulk (obj : Sds) (c : Output) : Output :=
  let c :=
    if obj.length < objSharedBulkhdrLen then c.addReplyProto A (sharedHdr '$' obj.length)
    else c.addReplyLongLongWithPrefix A obj.length '$'
  (c.addReplyProto A obj).addReplyProto A ['\r', '\n']

/-- `replicationBroadcast`, for one client of the list. -/
def broadcastTo (argv : List Sds) (c : Output) : Output :=
  let c := { c with replicaMessage := true }
  let c := c.addReplyArrayLen A argv.length
  let c := argv.foldl (fun c obj => c.addReplyBulk A obj) c
  { c with replicaMessage := false }

end

/-- The blocks at the head of the list that hold nothing are deleted. -/
def dropEmpty (c : Output) : Output :=
  { c with
    reply := c.reply.dropWhile fun o => o.buf = []
    replyBytes := c.replyBytes - ((c.reply.takeWhile fun o => o.buf = []).map ReplyBlock.size).sum }

/-- What `connWrite` is given: the rest of the static buffer, or of the
first block. -/
def chunk (c : Output) : Sds :=
  (if c.buf ≠ [] then c.buf else (c.reply.head?.map ReplyBlock.buf).getD []).drop c.sentlen

/-- `nwritten` more bytes are sent; `none` is a failed assertion. -/
def advance (nwritten : ℕ) (c : Output) : Option Output :=
  let c := { c with sentlen := c.sentlen + nwritten }
  if c.buf ≠ [] then
    some (if c.sentlen = c.buf.length then { c with buf := [], sentlen := 0 } else c)
  else match c.reply with
    | [] => some c
    | o :: reply =>
        if c.sentlen = o.buf.length then
          let c := { c with replyBytes := c.replyBytes - o.size, reply := reply, sentlen := 0 }
          if reply = [] ∧ c.replyBytes ≠ 0 then none else some c
        else some c

/-- The loop of `writeToClient`: what `connWrite` returns each time, the
bytes written before, and whether memory is short. The result is the
client, the bytes that were taken, and whether there was an error. -/
def writeLoop (memoryShort : Bool) : List ConnWrite → ℕ → Output → Option (Output × Sds × Bool)
  | [], _, c => some (if c.buf = [] then c.dropEmpty else c, [], false)
  | w :: ws, totwritten, c =>
      let c := if c.buf = [] then c.dropEmpty else c
      if c.hasPendingReplies = false then some (c, [], false)
      else match w with
        | .again => some (c, [], false)
        | .error => some (c, [], true)
        | .wrote k =>
            let written := c.chunk.take k
            if written = [] then some (c, [], false)
            else (c.advance written.length).bind fun c =>
              let totwritten := totwritten + written.length
              if netMaxWritesPerEvent < totwritten ∧ memoryShort = false then
                some (c, written, false)
              else
                (writeLoop memoryShort ws totwritten c).map fun r => (r.1, written ++ r.2.1, r.2.2)

/-- `writeToClient`: the client after it, the bytes that were taken, and
whether it returned C_OK. -/
def writeToClient (memoryShort : Bool) (ws : List ConnWrite) (handlerInstalled : Bool)
    (c : Output) : Option (Output × Sds × Bool) :=
  (c.writeLoop memoryShort ws 0).map fun r =>
    if r.2.2 then ({ r.1 with closeAsap := true }, r.2.1, false)
    else if r.1.hasPendingReplies then (r.1, r.2.1, true)
    else
      let c := { r.1 with
        sentlen := 0
        writeHandler := if handlerInstalled then false else r.1.writeHandler }
      if c.closeAfterReply then ({ c with closeAsap := true }, r.2.1, false)
      else (c, r.2.1, true)

/-- What `handleClientsWithPendingWrites` does for a client in its queue;
`installs` is whether `connSetWriteHandlerWithBarrier` succeeds. -/
def handlePendingWrite (memoryShort : Bool) (ws : List ConnWrite) (installs : Bool)
    (c : Output) : Option (Output × Sds) :=
  if c.pendingWrite then
    (writeToClient memoryShort ws false { c with pendingWrite := false }).map fun r =>
      if r.2.2 && r.1.hasPendingReplies then
        (if installs then { r.1 with writeHandler := true } else { r.1 with closeAsap := true },
          r.2.1)
      else (r.1, r.2.1)
  else some (c, [])

/-- `sendReplyToClient`, called when the connection is writable and the
handler is installed. -/
def sendReplyToClient (memoryShort : Bool) (ws : List ConnWrite) (c : Output) :
    Option (Output × Sds) :=
  if c.writeHandler then
    (writeToClient memoryShort ws true c).map fun r => (r.1, r.2.1)
  else some (c, [])

end Output

end CrdtRedis
