import OpenKeyV.Library.CursorReader
import OpenKeyV.Library.Decimal
import OpenKeyV.Library.Machine
import OpenKeyV.Library.Text
import OpenKeyV.Redis.Store

/-!
# `RedisChangeStream`

Reading the change stream of a keyspace: `XREAD` in pages, with the revision
counter's numbers taken as a sequence without holes.  Store instances with
any retention run their scripts between the queries of one subscription.
-/

namespace OpenKeyV.Redis

open OpenKeyV.Library Program

def StreamId.parse (text : String) : Option StreamId :=
  match splitOnce '-' text with
  | none => none
  | some (millis, sequence) =>
      (parseUnsigned 64 millis).bind fun millis =>
        (parseUnsigned 64 sequence).map fun sequence => ⟨millis, sequence⟩

def cursorRevision (cursor : String) : Except Error Nat :=
  match splitOnce '-' cursor with
  | none => .error (.invalidChangeCursor cursor)
  | some (revision, sequence) =>
      if sequence ≠ "0" then .error (.invalidChangeCursor cursor)
      else
        match parseUnsigned 64 revision with
        | some revision => .ok revision
        | none => .error (.invalidChangeCursor cursor)

def streamChange (entry : StreamEntry) : Except Error StoreChange :=
  match (entry.get "revision").bind (parseUnsigned 64),
      entry.get "collection", entry.get "key",
      (entry.get "operation").bind ChangeOperation.parse,
      ((entry.get "occurred_at").bind (parseSigned 64)).bind
        DateTime.timestampMillisOpt with
  | some revision, some collection, some key, some operation,
      some occurredAt =>
      .ok ⟨⟨entry.id.text⟩, revision, collection, key, operation, occurredAt⟩
  | _, _, _, _, _ => .error .corruptedData

structure RedisChangeStream where
  cursor : String
  lastRevision : Option Nat
  filter : ChangeFilter
  deriving DecidableEq, Repr

def saturatingSucc (revision : Nat) : Nat := min (revision + 1) (2 ^ 64 - 1)

def changePageLen : Nat := 128

/-- The loop over the entries of one reply.  `none` means that `recv` asks
again. -/
def receive (stream : RedisChangeStream) :
    List StreamEntry → RedisChangeStream × Option (Except Error StoreChange)
  | [] => (stream, none)
  | entry :: entries =>
      match streamChange entry with
      | .error error => (stream, some (.error error))
      | .ok change =>
          if ∃ last ∈ stream.lastRevision,
              saturatingSucc last < change.revision then
            (stream, some (.error
              (.changeCursorExpired stream.cursor entry.id.text)))
          else
            let stream :=
              { stream with
                cursor := entry.id.text
                lastRevision := some change.revision }
            if stream.filter.accepts change then (stream, some (.ok change))
            else receive stream entries

def recvRound (keyspace : Subspace) (server : Server)
    (stream : RedisChangeStream) :
    RedisChangeStream × Option (Except Error StoreChange) :=
  match StreamId.parse stream.cursor with
  | none => (stream, some (.error (mapRedisErr .invalidStreamId)))
  | some id =>
      receive stream (server.xread (streamKey keyspace) id changePageLen)

inductive Subscriber where
  | closed
  /-- Between the two queries of `validate_after_cursor`. -/
  | validating (requested : Nat) (cursor : String) (filter : ChangeFilter)
  | listening (stream : RedisChangeStream)
  deriving DecidableEq, Repr

def latestCursor (keyspace : Subspace) (server : Server) : String :=
  ((server.xrevrangeOne (streamKey keyspace)).map (·.id.text)).getD "0-0"

def beginSubscribe (keyspace : Subspace) (changeRetention : Nat)
    (server : Server) (request : ChangeFeedRequest) :
    Except Error Subscriber :=
  if changeRetention = 0 then
    .error (.invalidOperation
      "change feed is disabled (change_retention = 0)")
  else
    match request.start with
    | .beginning => .ok (.listening ⟨"0-0", none, request.filter⟩)
    | .latest => do
        let cursor := latestCursor keyspace server
        let revision ← cursorRevision cursor
        return .listening ⟨cursor, some revision, request.filter⟩
    | .after cursor => do
        let requested ← cursorRevision cursor.text
        match server.xrevrangeOne (streamKey keyspace) with
        | none =>
            if requested = 0 then
              return .listening ⟨cursor.text, some requested, request.filter⟩
            else .error (.invalidChangeCursor cursor.text)
        | some last => do
            let lastRevision ← cursorRevision last.id.text
            if lastRevision < requested then
              .error (.invalidChangeCursor cursor.text)
            else return .validating requested cursor.text request.filter

def finishSubscribe (keyspace : Subspace) (server : Server) (requested : Nat)
    (cursor : String) (filter : ChangeFilter) : Except Error Subscriber :=
  match server.xrangeOne (streamKey keyspace) with
  | none => .ok (.listening ⟨cursor, some requested, filter⟩)
  | some first => do
      let firstRevision ← cursorRevision first.id.text
      if saturatingSucc requested < firstRevision then
        .error (.changeCursorExpired cursor first.id.text)
      else return .listening ⟨cursor, some requested, filter⟩

def StreamEntry.revision (entry : StreamEntry) : Nat := entry.id.millis

def Stream.trimmed (stream : Stream) : List StreamEntry :=
  stream.added.take (stream.added.length - stream.entries.length)

def Stream.lastTrimmed (stream : Stream) : Nat :=
  (stream.trimmed.getLast?.map (·.revision)).getD 0

structure FeedState where
  server : Server
  subscriber : Subscriber
  origin : Nat
  delivered : List StoreChange

def FeedState.init (clock : Int) : FeedState :=
  ⟨.empty clock, .closed, 0, []⟩

/-- A script of some store instance, passing time, or a query of the
subscriber. -/
inductive FeedLabel where
  | put (changeRetention : Nat) (collection key : String) (envelope : Bytes)
      (milliseconds : Nat) (occurred : DateTime)
  | delete (changeRetention : Nat) (collection key : String)
      (occurred : DateTime)
  | bulkDelete (changeRetention : Nat) (collection : String)
      (keys : List String) (occurred : DateTime)
  | tick (milliseconds : Nat)
  | subscribe (changeRetention : Nat) (request : ChangeFeedRequest)
  | validate
  | recv
  deriving DecidableEq, Repr

section Runs

variable (keyspace : Subspace)

def FeedState.feed (s : FeedState) : Stream := s.server.feed keyspace

def writes (server : Server) : FeedLabel → Option Server
  | .put changeRetention collection key envelope milliseconds occurred =>
      some (eval (putChangeScript
        (subspaceCompoundKey keyspace collection key) (revisionKey keyspace)
        (streamKey keyspace) (registryKey keyspace) envelope milliseconds
        collection key (timestampText occurred) changeRetention) server).2
  | .delete changeRetention collection key occurred =>
      some (eval (deleteChangeScript
        (subspaceCompoundKey keyspace collection key) (revisionKey keyspace)
        (streamKey keyspace) collection key changeRetention
        (timestampText occurred)) server).2
  | .bulkDelete changeRetention collection keys occurred =>
      some (eval (bulkDeleteChangeScript (revisionKey keyspace)
        (streamKey keyspace) changeRetention collection
        (timestampText occurred)
        (keys.map fun key =>
          (subspaceCompoundKey keyspace collection key, key)) 0) server).2
  | .tick milliseconds =>
      some { server with clock := server.clock + milliseconds }
  | .subscribe .. | .validate | .recv => none

/-- `Beginning` starts behind what has been trimmed, `Latest` at the newest
record, `After` at its cursor. -/
def startPosition (stream : Stream) : Subscriber → Nat
  | .closed => 0
  | .validating requested _ _ => requested
  | .listening subscription =>
      subscription.lastRevision.getD stream.lastTrimmed

def FeedState.opened (s : FeedState) (result : Except Error Subscriber) :
    FeedState :=
  match result with
  | .error _ => { s with subscriber := .closed }
  | .ok subscriber =>
      { s with
        subscriber
        origin := startPosition (s.feed keyspace) subscriber
        delivered := [] }

def FeedState.received (s : FeedState) (stream : RedisChangeStream) :
    FeedState :=
  let (stream', outcome) := recvRound keyspace s.server stream
  { s with
    subscriber := .listening stream'
    delivered := s.delivered ++
      (match outcome with
        | some (.ok change) => [change]
        | _ => []) }

def FeedState.step (s : FeedState) (label : FeedLabel) : Option FeedState :=
  match label with
  | .subscribe changeRetention request =>
      some (s.opened keyspace
        (beginSubscribe keyspace changeRetention s.server request))
  | .validate =>
      match s.subscriber with
      | .validating requested cursor filter =>
          some (s.opened keyspace
            (finishSubscribe keyspace s.server requested cursor filter))
      | _ => none
  | .recv =>
      match s.subscriber with
      | .listening stream => some (s.received keyspace stream)
      | _ => none
  | label => (writes keyspace s.server label).map fun server =>
      { s with server }

end Runs

def FeedState.position (s : FeedState) (stream : RedisChangeStream) : Nat :=
  stream.lastRevision.getD s.origin

def Subscriber.stream? : Subscriber → Option RedisChangeStream
  | .listening stream => some stream
  | _ => none

theorem splitOnce_text (id : StreamId) :
    splitOnce '-' id.text = some (toString id.millis, toString id.sequence) := by
  have hdash : '-' ∉ (toString id.millis).toList := by
    rw [toList_toString_nat]
    intro hmem
    exact absurd (Nat.isDigit_of_mem_toDigits (by omega) (by omega) hmem)
      (by decide)
  exact splitOnce_append hdash

theorem cursorRevision_text {revision : Nat} (h : revision < 2 ^ 64) :
    cursorRevision (StreamId.text ⟨revision, 0⟩) = .ok revision := by
  have hzero : toString 0 = "0" := rfl
  simp only [cursorRevision, splitOnce_text, hzero, ne_eq, not_true_eq_false,
    if_false, parseUnsigned_toString h]

theorem parse_of_cursorRevision {cursor : String} {revision : Nat}
    (h : cursorRevision cursor = .ok revision) :
    StreamId.parse cursor = some ⟨revision, 0⟩ := by
  unfold cursorRevision at h
  unfold StreamId.parse
  cases hsplit : splitOnce '-' cursor with
  | none => simp [hsplit] at h
  | some halves =>
      obtain ⟨millis, sequence⟩ := halves
      simp only [hsplit] at h ⊢
      split at h
      · cases h
      · rename_i hsequence
        obtain rfl : sequence = "0" := by simpa using hsequence
        cases hmillis : parseUnsigned 64 millis with
        | none => simp [hmillis] at h
        | some millis =>
            simp only [hmillis] at h
            cases h
            rfl

theorem streamChange_changeEntry {revision : Nat} (h : revision < 2 ^ 64)
    (collection key : String) (operation : ChangeOperation)
    (occurred : DateTime) :
    streamChange (changeEntry revision collection key operation
        (timestampText occurred)) =
      .ok ⟨⟨StreamId.text ⟨revision, 0⟩⟩, revision, collection, key, operation,
        occurred.truncMillis⟩ := by
  have hlow : (-2 ^ (64 - 1) : Int) ≤ occurred.timestampMillis :=
    Int.le_trans (by decide) occurred.lower
  have hhigh : occurred.timestampMillis < 2 ^ (64 - 1) :=
    Int.lt_of_le_of_lt occurred.upper (by decide)
  have hoccurred : parseSigned 64 (timestampText occurred) =
      some occurred.timestampMillis := parseSigned_toString hlow hhigh
  have hrevision : parseUnsigned 64 revision.repr = some revision :=
    parseUnsigned_toString h
  simp [streamChange, changeEntry, changeFields, StreamEntry.get,
    List.lookup_cons, hrevision, hoccurred]

end OpenKeyV.Redis
