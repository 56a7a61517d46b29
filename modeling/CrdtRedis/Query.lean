/-
The query buffer of a client: how the bytes a connection delivers become
argument vectors (networking.c).

`querybuf` holds what was read and `qb_pos` how far it was parsed. The
parser moves `qb_pos`, trims the buffer now and then, and hands a large
argument that is alone in the buffer over without copying it.

# The plain reader

All this is an optimised form of the incremental reader of the library,
whose only state is the unread rest (`Query.parser`): every function here
does to the view what its plain form does, and the two assertions of
`processMultibulkBuffer` hold because a reader that waits stands at the
mark of its request. What is proved of the plain reader then holds of the
buffer: where a stream is cut does not matter, and the text of vectors is
executed vector by vector.

# What is left out

The client is no master and not blocked, clients are not paused, reads are
not postponed to I/O threads, and Gopher mode is off. What a command does
when it is executed is no part of this: `processCommand` is asked only
whether it is QUIT, and the vectors executed are the output.
-/
import CrdtRedis.Data.RequestText
import CrdtRedis.Quoting

namespace CrdtRedis

open CString Request

-- ============================================================ the buffer

/-- `PROTO_INLINE_MAX_SIZE`. -/
def protoInlineMaxSize : ℕ := 64 * 1024

/-- `PROTO_MBULK_BIG_ARG`. -/
def protoMbulkBigArg : ℕ := 32 * 1024

/-- `PROTO_IOBUF_LEN`. -/
def protoIobufLen : ℕ := 16 * 1024

/-- The settings of the server that are read here. -/
structure Limits where
  protoMaxBulkLen : ℕ
  clientMaxQuerybufLen : ℕ
  /-- `bulklen + 2` is a `long`. -/
  bulk_lt : protoMaxBulkLen + 2 < 2 ^ 63

/-- The settings a server has by default. -/
def Limits.default : Limits := ⟨512 * 1024 * 1024, 1024 * 1024 * 1024, by decide⟩

/-- The settings leave room for the longest argument, a line and a read. -/
def Limits.Roomy (conf : Limits) : Prop :=
  conf.protoMaxBulkLen + protoInlineMaxSize + 1 + protoIobufLen ≤ conf.clientMaxQuerybufLen

/-- The fields of `struct client` the parser works on. CLIENT_PROTOCOL_ERROR
stands with what was wrong. -/
structure Query where
  querybuf : Sds
  qbPos : ℕ
  reqtype : Option Kind
  multibulklen : ℕ
  /-- The length of the next argument, -1 if it is not known. -/
  bulklen : ℤ
  argv : List Sds
  closeAfterReply : Bool
  protocolError : Option Fault
  closeAsap : Bool
  /-- What was handed to `addReply`. -/
  replies : List String
deriving DecidableEq

/-- The texts of the protocol errors. -/
def errorText : Fault → String
  | .longInline => "Protocol error: too big inline request"
  | .quotes => "Protocol error: unbalanced quotes in request"
  | .longCount => "Protocol error: too big mbulk count string"
  | .badCount => "Protocol error: invalid multibulk length"
  | .longLen => "Protocol error: too big bulk count string"
  | .noDollar c => "Protocol error: expected '$', got '" ++ String.singleton c ++ "'"
  | .badLen => "Protocol error: invalid bulk length"

/-- A text with blanks for its line ends. -/
def oneLine (text : String) : String := text.map fun c => if c = '\r' ∨ c = '\n' then ' ' else c

/-- The QUIT test of `processCommand`, a comparison up to the terminator
and without regard to case. -/
def isQuit (argv : List Sds) : Bool :=
  sdstolower (String.ofList ((argv.getD 0 []).takeWhile (· ≠ nul))) = "quit"

namespace Query

/-- `createClient`. -/
def createClient : Query := ⟨[], 0, none, 0, -1, [], false, none, false, []⟩

/-- `querybuf + qb_pos`. -/
def rest (c : Query) : Sds := c.querybuf.drop c.qbPos

/-- `sdsrange(c->querybuf,c->qb_pos,-1)`, and `qb_pos` moved with it. -/
def toFront (c : Query) : Query := { c with querybuf := c.querybuf.drop c.qbPos, qbPos := 0 }

/-- `addReplyError`, and `addReplyErrorFormat`, which leaves no line ends in
its text. -/
def addReplyError (text : String) (c : Query) : Query :=
  { c with replies := c.replies ++ ["-ERR " ++ oneLine text ++ "\r\n"] }

/-- `setProtocolError`. -/
def setProtocolError (e : Fault) (c : Query) : Query :=
  { c with closeAfterReply := true, protocolError := some e }

/-- The reply and the flags of a protocol error. -/
def refuse (e : Fault) (c : Query) : Query := (c.addReplyError (errorText e)).setProtocolError e

/-- `resetClient`. -/
def resetClient (c : Query) : Query :=
  { c with reqtype := none, multibulklen := 0, bulklen := -1, argv := [] }

/-- `freeClientAsync`. -/
def freeClientAsync (c : Query) : Query := { c with closeAsap := true }

/-- The test on the length of a line that has no end. -/
def tooBig (e : Fault) (c : Query) : Query :=
  if protoInlineMaxSize < c.querybuf.length - c.qbPos then c.refuse e else c

/-- `processInlineBuffer`; whether it returned C_OK. -/
def processInlineBuffer (c : Query) : Query × Bool :=
  match strchr '\n' c.rest with
  | none => (c.tooBig .longInline, false)
  | some newline =>
      let linefeed := newline ≠ 0 ∧ c.rest[newline - 1]? = some '\r'
      let querylen := if linefeed then newline - 1 else newline
      let linefeedChars := if linefeed then 2 else 1
      match sdssplitargs (c.rest.take querylen) with
      | none => (c.refuse .quotes, false)
      | some argv => ({ c with qbPos := c.qbPos + (querylen + linefeedChars), argv := argv }, true)

/-- The length of the next argument is read, if it is not known; whether it
is known then. -/
def readBulklen (conf : Limits) (c : Query) : Query × Bool :=
  if c.bulklen ≠ -1 then (c, true)
  else match strchr '\r' c.rest with
    | none => (c.tooBig .longLen, false)
    | some newline =>
        -- the buffer should also contain the second character
        if (newline : ℤ) > (c.querybuf.length : ℤ) - c.qbPos - 2 then (c, false)
        else if c.querybuf[c.qbPos]? ≠ some '$' then
          (c.refuse (.noDollar (c.querybuf.getD c.qbPos nul)), false)
        else match string2ll (String.ofList ((c.rest.take newline).drop 1)) with
          | none => (c.refuse .badLen, false)
          | some ll =>
              if ll < 0 ∨ ll > conf.protoMaxBulkLen then (c.refuse .badLen, false)
              else
                let c := { c with qbPos := c.qbPos + newline + 2 }
                -- a large argument is to begin at the start of the buffer
                let c :=
                  if ll ≥ protoMbulkBigArg ∧ (c.querybuf.length - c.qbPos : ℕ) ≤ ll + 2 then
                    c.toFront
                  else c
                ({ c with bulklen := ll }, true)

/-- The argument, of a known length, is taken out of the buffer; `none` if
not all of it is there. -/
def takeBulk (c : Query) : Option Query :=
  if ((c.querybuf.length - c.qbPos : ℕ) : ℤ) < c.bulklen + 2 then none
  else if c.qbPos = 0 ∧ c.bulklen ≥ protoMbulkBigArg ∧
      (c.querybuf.length : ℤ) = c.bulklen + 2 then
    -- the buffer holds just this argument and becomes its string
    some { c with
      argv := c.argv ++ [c.querybuf.take (c.querybuf.length - 2)]
      querybuf := []
      bulklen := -1
      multibulklen := c.multibulklen - 1 }
  else
    some { c with
      argv := c.argv ++ [c.rest.take c.bulklen.toNat]
      qbPos := c.qbPos + (c.bulklen + 2).toNat
      bulklen := -1
      multibulklen := c.multibulklen - 1 }

/-- The loop of `processMultibulkBuffer`, `m` being `multibulklen`. -/
def bulkLoop (conf : Limits) : ℕ → Query → Query × Bool
  | 0, c => (c, true)
  | m + 1, c =>
      match c.readBulklen conf with
      | (c, false) => (c, false)
      | (c, true) =>
          match c.takeBulk with
          | none => (c, false)
          | some c => bulkLoop conf m c

/-- `processMultibulkBuffer`; `none` is a failed assertion. -/
def processMultibulkBuffer (conf : Limits) (c : Query) : Option (Query × Bool) :=
  if c.multibulklen = 0 then
    -- the client should have been reset
    if c.argv ≠ [] then none
    else match strchr '\r' c.rest with
      | none => some (c.tooBig .longCount, false)
      | some newline =>
          if (newline : ℤ) > (c.querybuf.length : ℤ) - c.qbPos - 2 then some (c, false)
          else if c.querybuf[c.qbPos]? ≠ some '*' then none
          else match string2ll (String.ofList ((c.rest.take newline).drop 1)) with
            | none => some (c.refuse .badCount, false)
            | some ll =>
                if ll > 1024 * 1024 then some (c.refuse .badCount, false)
                else
                  let c := { c with qbPos := c.qbPos + newline + 2 }
                  if ll ≤ 0 then some (c, true)
                  else some (bulkLoop conf ll.toNat { c with multibulklen := ll.toNat })
  else some (bulkLoop conf c.multibulklen c)

/-- `processCommandAndResetClient`: the client after it, and the vector
that was executed. -/
def processCommandAndResetClient (c : Query) : Query × List (List Sds) :=
  if isQuit c.argv then
    ({ c with closeAfterReply := true, replies := c.replies ++ ["+OK\r\n"] }, [])
  else (c.resetClient, [c.argv])

/-- `reqtype`, determined if it is unknown. -/
def setReqtype (c : Query) : Query :=
  match c.reqtype with
  | some _ => c
  | none =>
      { c with reqtype := some (if c.querybuf[c.qbPos]? = some '*' then .multibulk else .inline) }

/-- One request out of the buffer. -/
def processRequest (conf : Limits) (c : Query) : Option (Query × Bool) :=
  if c.reqtype = some .inline then some c.processInlineBuffer
  else c.processMultibulkBuffer conf

/-- A request whose vector is there: without arguments it is dropped. -/
def runRequest (c : Query) : Query × List (List Sds) :=
  if c.argv = [] then (c.resetClient, []) else c.processCommandAndResetClient

/-- The loop of `processInputBuffer`. Each round consumes a character, so
`fuel` is the length of what is not parsed. -/
def inputLoop (conf : Limits) : ℕ → Query → Option (Query × List (List Sds))
  | 0, c => some (c, [])
  | fuel + 1, c =>
      if c.querybuf.length ≤ c.qbPos ∨ c.closeAfterReply = true ∨ c.closeAsap = true then
        some (c, [])
      else
        (c.setReqtype.processRequest conf).bind fun r =>
          if r.2 then
            (inputLoop conf fuel r.1.runRequest.1).map fun r' => (r'.1, r.1.runRequest.2 ++ r'.2)
          else some (r.1, [])

/-- The end of `processInputBuffer`: trim to `qb_pos`. -/
def trim (c : Query) : Query := if c.qbPos = 0 then c else c.toFront

/-- `processInputBuffer`: the client after it and the vectors executed. -/
def processInputBuffer (conf : Limits) (c : Query) : Option (Query × List (List Sds)) :=
  (c.inputLoop conf (c.querybuf.length - c.qbPos)).map fun r => (r.1.trim, r.2)

end Query

/-- What `connRead` returns: nothing for now, an error, the end of the
stream, or bytes. -/
inductive ConnRead
  | again | error | closed
  | bytes (s : Sds)
deriving DecidableEq

namespace Query

/-- The number of bytes `readQueryFromClient` asks for. -/
def readlen (c : Query) : ℕ :=
  let remaining := c.bulklen + 2 - c.querybuf.length
  if c.reqtype = some .multibulk ∧ c.multibulklen ≠ 0 ∧ c.bulklen ≠ -1 ∧
      c.bulklen ≥ protoMbulkBigArg ∧ 0 < remaining ∧ remaining < protoIobufLen then
    remaining.toNat
  else protoIobufLen

/-- `readQueryFromClient`. -/
def readQueryFromClient (conf : Limits) (nread : ConnRead) (c : Query) :
    Option (Query × List (List Sds)) :=
  match nread with
  | .again => some (c, [])
  | .error => some (c.freeClientAsync, [])
  | .closed => some (c.freeClientAsync, [])
  | .bytes s =>
      let c := { c with querybuf := c.querybuf ++ s }
      if conf.clientMaxQuerybufLen < c.querybuf.length then some (c.freeClientAsync, [])
      else c.processInputBuffer conf

/-- A sequence of reads. -/
def reads (conf : Limits) : List ConnRead → Query → Option (Query × List (List Sds))
  | [], c => some (c, [])
  | nread :: rest, c =>
      (c.readQueryFromClient conf nread).bind fun r =>
        (reads conf rest r.1).map fun r' => (r'.1, r.2 ++ r'.2)

end Query

end CrdtRedis
