import OpenKeyV.Redis.ChangeStream
import Mathlib.Data.List.Chain

/-!
# Gaps in the Redis stream

The stream takes a hole in the revision numbers for a trimmed record.  That is
right as long as every allocated revision gets a record, and it needs a
revision to compare with: a stream opened at `Beginning` has none until its
first record.
-/

namespace OpenKeyV.Redis

open OpenKeyV.Library Program

/-! ## Counter and feed -/

def Recorded (entry : StreamEntry) : Prop :=
  ∃ revision collection key operation occurred,
    entry = changeEntry revision collection key operation
        (timestampText occurred) ∧
      0 < revision ∧ revision < 10 ^ 14

structure Logged (keyspace : Subspace) (server : Server) : Prop where
  suffix : (server.feed keyspace).entries <:+ (server.feed keyspace).added
  newest : (server.feed keyspace).added ≠ [] →
    (server.feed keyspace).entries ≠ []
  recorded : ∀ entry ∈ (server.feed keyspace).added, Recorded entry
  ascending : Ascending StreamEntry.revision (server.feed keyspace).added
  counter : ∀ entry ∈ (server.feed keyspace).added,
    entry.revision ≤ server.revision keyspace

theorem logged_empty (keyspace : Subspace) (clock : Int) :
    Logged keyspace (.empty clock) where
  suffix := List.suffix_refl _
  newest := fun h => absurd rfl h
  recorded := by rintro entry ⟨⟩
  ascending := List.Pairwise.nil
  counter := by rintro entry ⟨⟩

section Feed

variable {keyspace : Subspace} {server server' : Server}

theorem Logged.of_feed_eq (h : Logged keyspace server)
    (hfeed : server'.feed keyspace = server.feed keyspace)
    (hle : server.revision keyspace ≤ server'.revision keyspace) :
    Logged keyspace server' := by
  refine ⟨?_, ?_, ?_, ?_, ?_⟩ <;> rw [hfeed]
  · exact h.suffix
  · exact h.newest
  · exact h.recorded
  · exact h.ascending
  · exact fun entry hentry => Nat.le_trans (h.counter entry hentry) hle

structure Grows (keyspace : Subspace) (server server' : Server) : Prop where
  counter : server.revision keyspace ≤ server'.revision keyspace
  added : ∃ entries, (server'.feed keyspace).added =
      (server.feed keyspace).added ++ entries ∧
    ∀ entry ∈ entries, server.revision keyspace < entry.revision
  entries : ∀ entry ∈ (server'.feed keyspace).entries,
    entry ∈ (server.feed keyspace).entries ∨
      server.revision keyspace < entry.revision

theorem Grows.of_feed_eq
    (hfeed : server'.feed keyspace = server.feed keyspace)
    (hle : server.revision keyspace ≤ server'.revision keyspace) :
    Grows keyspace server server' :=
  ⟨hle, ⟨[], by simp [hfeed]⟩, fun _ hentry => .inl (hfeed ▸ hentry)⟩

theorem Grows.trans {server'' : Server} (h : Grows keyspace server server')
    (h' : Grows keyspace server' server'') :
    Grows keyspace server server'' := by
  refine ⟨Nat.le_trans h.counter h'.counter, ?_, ?_⟩
  · obtain ⟨entries, hadded, habove⟩ := h.added
    obtain ⟨entries', hadded', habove'⟩ := h'.added
    refine ⟨entries ++ entries', by rw [hadded', hadded, List.append_assoc], ?_⟩
    intro entry hentry
    rcases List.mem_append.mp hentry with hentry | hentry
    · exact habove entry hentry
    · exact Nat.lt_of_le_of_lt h.counter (habove' entry hentry)
  · intro entry hentry
    rcases h'.entries entry hentry with hentry | habove
    · exact h.entries entry hentry
    · exact .inr (Nat.lt_of_le_of_lt h.counter habove)

theorem Logged.allocates (h : Logged keyspace server) {retention : Nat}
    {collection key : String} {operation : ChangeOperation}
    {occurred : DateTime} {ok : Bool}
    (hallocates : Allocates keyspace retention
      (fun revision => changeEntry revision collection key operation
        (timestampText occurred)) server server' ok) :
    Logged keyspace server' ∧ Grows keyspace server server' := by
  cases hallocates with
  | overflow _ hrevision hfeed =>
      exact ⟨h.of_feed_eq hfeed (by omega), .of_feed_eq hfeed (by omega)⟩
  | disabled _ hrevision hfeed =>
      exact ⟨h.of_feed_eq hfeed (by omega), .of_feed_eq hfeed (by omega)⟩
  | refused _ _ hrevision hfeed =>
      exact ⟨h.of_feed_eq hfeed (by omega), .of_feed_eq hfeed (by omega)⟩
  | recorded hretention haccepts hrevision hfeed =>
      set entry := changeEntry (server.revision keyspace + 1) collection key
        operation (timestampText occurred) with hentry
      have hrev : entry.revision = server.revision keyspace + 1 := rfl
      have hentries : (server'.feed keyspace).entries <:+
          (server.feed keyspace).entries ++ [entry] := by
        rw [hfeed]
        exact List.drop_suffix _ _
      have hadded : (server'.feed keyspace).added =
          (server.feed keyspace).added ++ [entry] := by rw [hfeed]; rfl
      refine ⟨⟨?_, ?_, ?_, ?_, ?_⟩, ⟨by omega, ⟨[entry], hadded, ?_⟩, ?_⟩⟩
      · rw [hadded]
        obtain ⟨trimmed, htrimmed⟩ := h.suffix
        refine hentries.trans ⟨trimmed, ?_⟩
        rw [← List.append_assoc, htrimmed]
      · intro _ hnil
        have hlen := congrArg List.length (hfeed ▸ hnil)
        simp [Stream.push, List.rtake] at hlen
        omega
      · intro entry' hentry'
        rw [hadded] at hentry'
        rcases List.mem_append.mp hentry' with hentry' | hentry'
        · exact h.recorded entry' hentry'
        · rw [List.mem_singleton.mp hentry']
          exact ⟨_, _, _, _, _, hentry, Nat.succ_pos _, haccepts.1⟩
      · rw [hadded]
        refine List.pairwise_append.mpr ⟨h.ascending, by simp, ?_⟩
        intro a ha b hb
        rw [List.mem_singleton.mp hb, hrev]
        exact Nat.lt_succ_of_le (h.counter a ha)
      · intro entry' hentry'
        rw [hadded] at hentry'
        rcases List.mem_append.mp hentry' with hentry' | hentry'
        · exact Nat.le_trans (h.counter entry' hentry') (by omega)
        · rw [List.mem_singleton.mp hentry', hrev, hrevision]
      · intro entry' hentry'
        rw [List.mem_singleton.mp hentry', hrev]
        exact Nat.lt_succ_self _
      · intro entry' hentry'
        rcases List.mem_append.mp (hentries.subset hentry') with hold | hnew
        · exact .inl hold
        · rw [List.mem_singleton.mp hnew, hrev]
          exact .inr (Nat.lt_succ_self _)

theorem writes_logged (hwt : WellTyped keyspace server)
    (h : Logged keyspace server) {label : FeedLabel}
    (hwrites : writes keyspace server label = some server') :
    WellTyped keyspace server' ∧ Logged keyspace server' ∧
      Grows keyspace server server' := by
  have hsame : Grows keyspace server server :=
    .of_feed_eq rfl (Nat.le_refl _)
  cases label with
  | put changeRetention collection key envelope milliseconds occurred =>
      obtain ⟨r, s', heval, hwt', hallocates, -⟩ := eval_putChangeScript hwt
        envelope milliseconds collection key (timestampText occurred)
        changeRetention
      simp only [writes, heval] at hwrites
      cases hwrites
      exact ⟨hwt', h.allocates hallocates⟩
  | delete changeRetention collection key occurred =>
      obtain ⟨r, s', heval, hwt', houtcome⟩ := eval_deleteChangeScript hwt
        collection key changeRetention (timestampText occurred)
      simp only [writes, heval] at hwrites
      cases hwrites
      rcases houtcome with ⟨rfl, -⟩ | ⟨hallocates, -⟩
      · exact ⟨hwt, h, hsame⟩
      · exact ⟨hwt', h.allocates hallocates⟩
  | bulkDelete changeRetention collection keys occurred =>
      simp only [writes] at hwrites
      cases hwrites
      refine bulkDelete_invariant collection changeRetention
        (timestampText occurred)
        (P := fun s => Logged keyspace s ∧ Grows keyspace server s)
        (fun s s' key ok hP houtcome => ?_) keys 0 server hwt ⟨h, hsame⟩
      rcases houtcome with ⟨hrevision, hfeed⟩ | hallocates
      · exact ⟨hP.1.of_feed_eq hfeed (by omega),
          hP.2.trans (.of_feed_eq hfeed (by omega))⟩
      · obtain ⟨hlogged, hgrows⟩ := hP.1.allocates hallocates
        exact ⟨hlogged, hP.2.trans hgrows⟩
  | tick milliseconds =>
      simp only [writes] at hwrites
      cases hwrites
      have hle : server.clock ≤ server.clock + (milliseconds : Int) := by omega
      have hfeed := hwt.feed_tick hle
      have hrevision := hwt.revision_tick hle
      exact ⟨hwt.tick hle, h.of_feed_eq hfeed (by omega),
        .of_feed_eq hfeed (by omega)⟩
  | subscribe | validate | recv => cases hwrites

end Feed

/-! ## The claim's terms -/

def wanted (filter : ChangeFilter) (entry : StreamEntry) : Bool :=
  match streamChange entry with
  | .ok change => filter.accepts change
  | .error _ => false

section Terms

variable (keyspace : Subspace) (s : FeedState) (stream : RedisChangeStream)

def Lost : Prop :=
  ∃ entry ∈ (s.feed keyspace).trimmed, s.position stream < entry.revision

def nextPage : List StreamEntry :=
  (ahead StreamEntry.revision (s.position stream) (s.feed keyspace).added).take
    changePageLen

def expires : Option (Except Error StoreChange) → Bool
  | some (.error (.changeCursorExpired _ _)) => true
  | _ => false

/-- One round of `recv` expires when a record is lost, and otherwise passes
through the appended records to the first that the filter selects. -/
def ReadsHistory (label : FeedLabel) : Prop :=
  label = .recv → ∀ stream ∈ s.subscriber.stream?,
    (expires (recvRound keyspace s.server stream).2 = true ↔
        Lost keyspace s stream) ∧
      (¬ Lost keyspace s stream →
        (recvRound keyspace s.server stream).2 =
            (scan StreamEntry.revision (wanted stream.filter)
              (s.position stream) (nextPage keyspace s stream)).2.map
                streamChange ∧
          s.position (recvRound keyspace s.server stream).1 =
            (scan StreamEntry.revision (wanted stream.filter)
              (s.position stream) (nextPage keyspace s stream)).1)

/-- The stream has delivered the selected records up to its position, each
once and in the order of the revisions. -/
def DeliversInOrder : Prop :=
  ∀ stream ∈ s.subscriber.stream?,
    s.delivered.map .ok =
        ((window StreamEntry.revision s.origin (s.position stream)
          (s.feed keyspace).added).filter (wanted stream.filter)).map
            streamChange ∧
      Ascending StoreChange.revision s.delivered

/-- A stream that loses a record has a revision to compare with, and the
records that a round looks at have the revisions that follow each other. -/
def Gapless (label : FeedLabel) : Prop :=
  label = .recv → ∀ stream ∈ s.subscriber.stream?,
    (Lost keyspace s stream → stream.lastRevision ≠ none) ∧
      (Lost keyspace s stream ∨
        (stream.lastRevision.toList ++
          (examined (wanted stream.filter) (nextPage keyspace s stream)).map
            StreamEntry.revision).IsChain fun a b => b = a + 1)

instance : Decidable (Lost keyspace s stream) := by
  unfold Lost
  infer_instance

instance (label : FeedLabel) : Decidable (Gapless keyspace s label) := by
  unfold Gapless
  infer_instance

instance (label : FeedLabel) : Decidable (ReadsHistory keyspace s label) := by
  unfold ReadsHistory
  infer_instance

end Terms

/-! ## One round -/

section Round

theorem Recorded.streamChange {entry : StreamEntry} (h : Recorded entry) :
    ∃ change, Redis.streamChange entry = .ok change ∧
      change.revision = entry.revision ∧
      entry.id = ⟨entry.revision, 0⟩ ∧ 0 < entry.revision ∧
      entry.revision < 10 ^ 14 := by
  obtain ⟨revision, collection, key, operation, occurred, rfl, hpos, hlt⟩ := h
  exact ⟨_, streamChange_changeEntry (by omega) collection key operation
    occurred, rfl, rfl, hpos, hlt⟩

theorem wanted_eq {filter : ChangeFilter} {entry : StreamEntry}
    {change : StoreChange} (h : streamChange entry = .ok change) :
    wanted filter entry = filter.accepts change := by
  simp only [wanted, h]

theorem receive_scan (position : Nat) :
    ∀ (page : List StreamEntry) (stream : RedisChangeStream),
      (∀ entry ∈ page, Recorded entry) →
      cursorRevision stream.cursor = .ok (stream.lastRevision.getD 0) →
      (stream.lastRevision.toList ++
        (examined (wanted stream.filter) page).map
          StreamEntry.revision).IsChain (fun a b => b = a + 1) →
      ∃ stream', receive stream page = (stream',
          (scan StreamEntry.revision (wanted stream.filter)
            (stream.lastRevision.getD position) page).2.map streamChange) ∧
        stream'.filter = stream.filter ∧
        stream'.lastRevision.getD position =
          (scan StreamEntry.revision (wanted stream.filter)
            (stream.lastRevision.getD position) page).1 ∧
        cursorRevision stream'.cursor = .ok (stream'.lastRevision.getD 0) ∧
        (stream'.lastRevision = none → stream' = stream)
  | [], stream, _, hcursor, _ =>
      ⟨stream, rfl, rfl, rfl, hcursor, fun _ => rfl⟩
  | entry :: page, stream, hrecorded, hcursor, hchain => by
      obtain ⟨change, hchange, hrev, hid, -, hlt⟩ :=
        (hrecorded entry (by simp)).streamChange
      have hnext : ¬ ∃ last ∈ stream.lastRevision,
          saturatingSucc last < change.revision := by
        rintro ⟨last, hlast, hgap⟩
        rw [Option.mem_def.mp hlast] at hchain
        simp only [Option.toList, examined, List.map_cons, List.cons_append,
          List.nil_append, List.isChain_cons_cons] at hchain
        rw [hrev, hchain.1, saturatingSucc] at hgap
        omega
      simp only [receive, hchange, if_neg hnext, scan, wanted_eq hchange]
      have htext : cursorRevision entry.id.text = .ok entry.revision := by
        rw [hid]
        exact cursorRevision_text (by omega)
      cases haccepts : stream.filter.accepts change with
      | true =>
          exact ⟨{ stream with
              cursor := entry.id.text
              lastRevision := some change.revision }, by simp [hchange], rfl,
            by simp [hrev], by simpa [hrev], by simp⟩
      | false =>
          simp only [Bool.false_eq_true, if_false, ← hrev]
          obtain ⟨stream', hreceive, hfilter, hposition, hcursor', hnone⟩ :=
            receive_scan position page
              { stream with
                cursor := entry.id.text
                lastRevision := some change.revision }
              (fun e he => hrecorded e (by simp [he])) (by simpa [hrev])
              (by
                have hwanted : wanted stream.filter entry = false := by
                  rw [wanted_eq hchange, haccepts]
                simp only [examined, hwanted, Bool.false_eq_true, if_false,
                  List.map_cons] at hchain
                rw [hrev]
                exact hchain.right_of_append)
          exact ⟨stream', hreceive, hfilter, hposition, hcursor',
            fun h => by simp [hnone h] at h⟩

end Round

/-! ## The invariant -/

structure Tracking (keyspace : Subspace) (s : FeedState) : Prop where
  wellTyped : WellTyped keyspace s.server
  logged : Logged keyspace s.server
  validating : ∀ requested cursor filter,
    s.subscriber = .validating requested cursor filter →
      cursorRevision cursor = .ok requested ∧
        requested ≤ s.server.revision keyspace
  cursor : ∀ stream ∈ s.subscriber.stream?,
    cursorRevision stream.cursor = .ok (stream.lastRevision.getD 0)
  position : ∀ stream ∈ s.subscriber.stream?,
    s.origin ≤ s.position stream ∧
      s.position stream ≤ s.server.revision keyspace
  fresh : ∀ stream ∈ s.subscriber.stream?, stream.lastRevision = none →
    ∀ entry ∈ (s.feed keyspace).entries, s.origin < entry.revision
  delivered : DeliversInOrder keyspace s

section Tracking

variable {keyspace : Subspace} {s s' : FeedState}

theorem mem_stream? {subscriber : Subscriber} {stream : RedisChangeStream} :
    stream ∈ subscriber.stream? ↔ subscriber = .listening stream := by
  cases subscriber <;> simp [Subscriber.stream?, eq_comm]

theorem Logged.trimmed_append {server : Server} (h : Logged keyspace server) :
    (server.feed keyspace).trimmed ++ (server.feed keyspace).entries =
      (server.feed keyspace).added := by
  obtain ⟨trimmed, htrimmed⟩ := h.suffix
  have hlen : (server.feed keyspace).added.length -
      (server.feed keyspace).entries.length = trimmed.length := by
    rw [← htrimmed, List.length_append, Nat.add_sub_cancel]
  rw [Stream.trimmed, hlen]
  conv_lhs => rw [← htrimmed]
  rw [List.take_left' rfl]
  exact htrimmed

theorem Logged.retained {server : Server} (h : Logged keyspace server)
    {entry : StreamEntry} (hentry : entry ∈ (server.feed keyspace).entries) :
    entry ∈ (server.feed keyspace).added := h.suffix.subset hentry

theorem Tracking.xread (h : Tracking keyspace s) {stream : RedisChangeStream}
    (hs : stream ∈ s.subscriber.stream?) (count : Nat) :
    s.server.xread (streamKey keyspace) ⟨stream.lastRevision.getD 0, 0⟩ count =
      (ahead StreamEntry.revision (s.position stream)
        (s.feed keyspace).entries).take count := by
  have hfilter : ∀ cursor, s.server.xread (streamKey keyspace) ⟨cursor, 0⟩
      count = (ahead StreamEntry.revision cursor
        (s.feed keyspace).entries).take count := by
    intro cursor
    refine congrArg (List.take count) (List.filter_congr fun entry hentry => ?_)
    obtain ⟨_, _, _, hid, -⟩ :=
      (h.logged.recorded entry (h.logged.retained hentry)).streamChange
    rw [hid]
    simp [StreamId.lt, StreamEntry.revision]
  rw [hfilter]
  cases hlast : stream.lastRevision with
  | some last => simp [FeedState.position, hlast]
  | none =>
      -- a stream without a revision has all kept records ahead of it
      have hfresh := h.fresh stream hs hlast
      have hposition : s.position stream = s.origin := by
        simp [FeedState.position, hlast]
      rw [hposition, ahead_eq_self hfresh, ahead_eq_self]
      exact fun entry hentry => Nat.zero_lt_of_lt (hfresh entry hentry)

theorem Tracking.recvRound (h : Tracking keyspace s)
    {stream : RedisChangeStream} (hs : stream ∈ s.subscriber.stream?) :
    Redis.recvRound keyspace s.server stream =
      receive stream ((ahead StreamEntry.revision (s.position stream)
        (s.feed keyspace).entries).take changePageLen) := by
  rw [Redis.recvRound, parse_of_cursorRevision (h.cursor stream hs)]
  simp only [h.xread hs]

theorem Tracking.nextPage (h : Tracking keyspace s)
    {stream : RedisChangeStream} (hlost : ¬ Lost keyspace s stream) :
    Redis.nextPage keyspace s stream =
      (ahead StreamEntry.revision (s.position stream)
        (s.feed keyspace).entries).take changePageLen := by
  have htrimmed := h.logged.trimmed_append
  have hbehind : ahead StreamEntry.revision (s.position stream)
      (s.server.feed keyspace).trimmed = [] := by
    refine ahead_eq_nil fun entry hentry => ?_
    by_contra habove
    exact hlost ⟨entry, hentry, by omega⟩
  rw [Redis.nextPage, FeedState.feed, ← htrimmed, ahead_append, hbehind,
    List.nil_append]

theorem Tracking.recvRound_lost (h : Tracking keyspace s)
    {stream : RedisChangeStream} (hs : stream ∈ s.subscriber.stream?)
    (hlost : Lost keyspace s stream) (hlast : stream.lastRevision ≠ none) :
    ∃ oldest, Redis.recvRound keyspace s.server stream =
      (stream, some (.error (.changeCursorExpired stream.cursor oldest))) := by
  obtain ⟨last, hlast⟩ := Option.ne_none_iff_exists'.mp hlast
  have hposition : s.position stream = last := by
    simp [FeedState.position, hlast]
  obtain ⟨entry, hentry, habove⟩ := hlost
  have htrimmed := h.logged.trimmed_append
  have hasc := h.logged.ascending
  rw [← htrimmed] at hasc
  have hbehind := (List.pairwise_append.mp hasc).2.2 entry hentry
  have hnewest : (s.server.feed keyspace).entries ≠ [] := by
    refine h.logged.newest fun hnil => ?_
    rw [hnil, List.append_eq_nil_iff] at htrimmed
    rw [FeedState.feed, htrimmed.1] at hentry
    cases hentry
  rw [h.recvRound hs, FeedState.feed, ahead_eq_self fun kept hkept =>
    Nat.lt_trans habove (hbehind kept hkept)]
  obtain ⟨oldest, kept, hkept⟩ := List.exists_cons_of_ne_nil hnewest
  obtain ⟨change, hchange, hrev, -, -, hlt⟩ := (h.logged.recorded oldest
    (h.logged.retained (by rw [hkept]; simp))).streamChange
  have hgap : ∃ last ∈ stream.lastRevision,
      saturatingSucc last < change.revision := by
    refine ⟨last, hlast, ?_⟩
    have := hbehind oldest (by rw [hkept]; simp)
    rw [saturatingSucc]
    omega
  refine ⟨oldest.id.text, ?_⟩
  simp only [hkept, changePageLen, List.take_succ_cons, receive, hchange,
    if_pos hgap]

theorem Tracking.recvRound_kept (h : Tracking keyspace s)
    {stream : RedisChangeStream} (hs : stream ∈ s.subscriber.stream?)
    (hlost : ¬ Lost keyspace s stream)
    (hgapless : (stream.lastRevision.toList ++
      (examined (wanted stream.filter) (Redis.nextPage keyspace s stream)).map
        StreamEntry.revision).IsChain fun a b => b = a + 1) :
    ∃ stream', Redis.recvRound keyspace s.server stream = (stream',
        (scan StreamEntry.revision (wanted stream.filter) (s.position stream)
          (Redis.nextPage keyspace s stream)).2.map streamChange) ∧
      stream'.filter = stream.filter ∧
      s.position stream' =
        (scan StreamEntry.revision (wanted stream.filter) (s.position stream)
          (Redis.nextPage keyspace s stream)).1 ∧
      cursorRevision stream'.cursor = .ok (stream'.lastRevision.getD 0) ∧
      (stream'.lastRevision = none → stream' = stream) := by
  rw [h.recvRound hs, ← h.nextPage hlost]
  refine receive_scan s.origin _ stream (fun entry hentry => ?_)
    (h.cursor stream hs) hgapless
  have hmem := List.mem_of_mem_take hentry
  exact h.logged.recorded entry (mem_ahead.mp hmem).1

/-! ## Steps -/

theorem tracking_init (keyspace : Subspace) (clock : Int) :
    Tracking keyspace (.init clock) where
  wellTyped := wellTyped_empty keyspace clock
  logged := logged_empty keyspace clock
  validating := by rintro _ _ _ ⟨⟩
  cursor := by rintro _ ⟨⟩
  position := by rintro _ ⟨⟩
  fresh := by rintro _ ⟨⟩
  delivered := by rintro _ ⟨⟩

theorem tracking_writes (h : Tracking keyspace s) {label : FeedLabel}
    {server : Server} (hwrites : writes keyspace s.server label = some server) :
    Tracking keyspace { s with server } := by
  obtain ⟨hwt, hlogged, hgrows⟩ := writes_logged h.wellTyped h.logged hwrites
  obtain ⟨entries, hadded, habove⟩ := hgrows.added
  refine ⟨hwt, hlogged, ?_, h.cursor, ?_, ?_, ?_⟩
  · intro requested cursor filter hs
    obtain ⟨hcursor, hle⟩ := h.validating requested cursor filter hs
    exact ⟨hcursor, Nat.le_trans hle hgrows.counter⟩
  · intro stream hs
    obtain ⟨hlow, hhigh⟩ := h.position stream hs
    exact ⟨hlow, Nat.le_trans hhigh hgrows.counter⟩
  · intro stream hs hnone entry hentry
    rcases hgrows.entries entry hentry with hold | hnew
    · exact h.fresh stream hs hnone entry hold
    · have := h.position stream hs
      show s.origin < entry.revision
      omega
  · intro stream hs
    obtain ⟨hdelivered, hasc⟩ := h.delivered stream hs
    have hposition := (h.position stream hs).2
    refine ⟨?_, hasc⟩
    simp only [FeedState.feed, hadded]
    rw [window_append_above]
    · exact hdelivered
    · intro entry hentry
      exact Nat.lt_of_le_of_lt hposition (habove entry hentry)

theorem Logged.lastTrimmed {server : Server} (h : Logged keyspace server) :
    (server.feed keyspace).lastTrimmed ≤ server.revision keyspace ∧
      ∀ entry ∈ (server.feed keyspace).entries,
        (server.feed keyspace).lastTrimmed < entry.revision := by
  have htrimmed := h.trimmed_append
  have hasc := h.ascending
  rw [← htrimmed] at hasc
  have hbehind := (List.pairwise_append.mp hasc).2.2
  unfold Stream.lastTrimmed
  cases hlast : (server.feed keyspace).trimmed.getLast? with
  | none =>
      refine ⟨Nat.zero_le _, fun entry hentry => ?_⟩
      obtain ⟨_, _, _, _, hpos, -⟩ :=
        (h.recorded entry (h.retained hentry)).streamChange
      exact hpos
  | some last =>
      have hmem := List.mem_of_getLast? hlast
      refine ⟨h.counter last ?_, fun entry hentry => ?_⟩
      · rw [← htrimmed]
        exact List.mem_append_left _ hmem
      · exact hbehind last hmem entry hentry

def Opens (keyspace : Subspace) (server : Server) :
    Except Error Subscriber → Prop
  | .error _ | .ok .closed => True
  | .ok (.validating requested cursor _) =>
      cursorRevision cursor = .ok requested ∧
        requested ≤ server.revision keyspace
  | .ok (.listening stream) =>
      cursorRevision stream.cursor = .ok (stream.lastRevision.getD 0) ∧
        stream.lastRevision.getD 0 ≤ server.revision keyspace

theorem tracking_opened (h : Tracking keyspace s)
    {result : Except Error Subscriber}
    (hopens : Opens keyspace s.server result) :
    Tracking keyspace (s.opened keyspace result) := by
  have hclosed : ∀ origin delivered, Tracking keyspace
      { s with subscriber := .closed, origin, delivered } := by
    intro origin delivered
    exact ⟨h.wellTyped, h.logged, by rintro _ _ _ ⟨⟩, by rintro _ ⟨⟩,
      by rintro _ ⟨⟩, by rintro _ ⟨⟩, by rintro _ ⟨⟩⟩
  rcases result with error | (_ | ⟨requested, cursor, filter⟩ | stream)
  · exact hclosed _ _
  · exact hclosed _ _
  · refine ⟨h.wellTyped, h.logged, ?_, by rintro _ ⟨⟩, by rintro _ ⟨⟩,
      by rintro _ ⟨⟩, by rintro _ ⟨⟩⟩
    rintro _ _ _ ⟨⟩
    exact hopens
  · obtain ⟨hcursor, hle⟩ := hopens
    obtain ⟨htrimmed, hkept⟩ := h.logged.lastTrimmed
    have hposition : (s.opened keyspace (.ok (.listening stream))).position
        stream = (s.opened keyspace (.ok (.listening stream))).origin := by
      simp only [FeedState.position, FeedState.opened, startPosition]
      cases stream.lastRevision <;> rfl
    refine ⟨h.wellTyped, h.logged, by rintro _ _ _ ⟨⟩, ?_, ?_, ?_, ?_⟩
    · rintro _ ⟨⟩
      exact hcursor
    · rintro _ ⟨⟩
      refine ⟨Nat.le_of_eq hposition.symm, ?_⟩
      rw [hposition]
      show stream.lastRevision.getD (s.feed keyspace).lastTrimmed ≤ _
      cases hlast : stream.lastRevision with
      | none => exact htrimmed
      | some last =>
          rw [hlast] at hle
          exact hle
    · rintro _ ⟨⟩ hnone entry hentry
      have := hkept entry hentry
      show stream.lastRevision.getD (s.feed keyspace).lastTrimmed < _
      rw [hnone]
      exact this
    · rintro _ ⟨⟩
      rw [hposition, window_self]
      exact ⟨rfl, List.Pairwise.nil⟩

theorem Logged.cursorRevision_text {server : Server}
    (h : Logged keyspace server) {entry : StreamEntry}
    (hentry : entry ∈ (server.feed keyspace).entries) :
    cursorRevision entry.id.text = .ok entry.revision ∧
      entry.revision ≤ server.revision keyspace := by
  obtain ⟨_, _, _, hid, -, hlt⟩ :=
    (h.recorded entry (h.retained hentry)).streamChange
  refine ⟨?_, h.counter entry (h.retained hentry)⟩
  rw [hid]
  exact Redis.cursorRevision_text (by omega)

theorem beginSubscribe_opens (h : Tracking keyspace s)
    (changeRetention : Nat) (request : ChangeFeedRequest) :
    Opens keyspace s.server
      (beginSubscribe keyspace changeRetention s.server request) := by
  have hbound : 0 < 2 ^ 64 := by decide
  have hzero : cursorRevision "0-0" = .ok 0 := Redis.cursorRevision_text hbound
  have hrevrange : s.server.xrevrangeOne (streamKey keyspace) =
      (s.server.feed keyspace).entries.getLast? := rfl
  unfold beginSubscribe
  split
  · trivial
  cases request.start with
  | beginning => exact ⟨hzero, Nat.zero_le _⟩
  | latest =>
      simp only [latestCursor, hrevrange]
      cases hlast : (s.server.feed keyspace).entries.getLast? with
      | none =>
          simp only [Option.map_none, Option.getD_none, hzero, bind,
            Except.bind, pure, Except.pure]
          exact ⟨hzero, Nat.zero_le _⟩
      | some last =>
          obtain ⟨hcursor, hle⟩ :=
            h.logged.cursorRevision_text (List.mem_of_getLast? hlast)
          simp only [Option.map_some, Option.getD_some, hcursor, bind,
            Except.bind, pure, Except.pure]
          exact ⟨hcursor, hle⟩
  | after cursor =>
      cases hcursor : cursorRevision cursor.text with
      | error error => simp [hcursor, bind, Except.bind, Opens]
      | ok requested =>
          simp only [hcursor, hrevrange, bind, Except.bind, pure, Except.pure]
          cases hlast : (s.server.feed keyspace).entries.getLast? with
          | none =>
              simp only
              split
              · rename_i hrequested
                exact ⟨hcursor, by simp [hrequested]⟩
              · trivial
          | some last =>
              obtain ⟨hlastCursor, hle⟩ :=
                h.logged.cursorRevision_text (List.mem_of_getLast? hlast)
              simp only [hlastCursor]
              split
              · trivial
              · exact ⟨hcursor, by omega⟩

theorem finishSubscribe_opens (h : Tracking keyspace s) {requested : Nat}
    {cursor : String} {filter : ChangeFilter}
    (hs : s.subscriber = .validating requested cursor filter) :
    Opens keyspace s.server
      (finishSubscribe keyspace s.server requested cursor filter) := by
  obtain ⟨hcursor, hle⟩ := h.validating requested cursor filter hs
  unfold finishSubscribe
  cases s.server.xrangeOne (streamKey keyspace) with
  | none => exact ⟨hcursor, hle⟩
  | some first =>
      cases hfirst : cursorRevision first.id.text with
      | error error => simp [hfirst, bind, Except.bind, Opens]
      | ok firstRevision =>
          simp only [hfirst, bind, Except.bind, pure, Except.pure]
          split
          · trivial
          · exact ⟨hcursor, hle⟩

theorem Tracking.delivered_le (h : Tracking keyspace s)
    {stream : RedisChangeStream} (hs : stream ∈ s.subscriber.stream?)
    {change : StoreChange} (hchange : change ∈ s.delivered) :
    change.revision ≤ s.position stream := by
  have hmem : Except.ok change ∈ s.delivered.map (Except.ok (ε := Error)) :=
    List.mem_map_of_mem hchange
  rw [(h.delivered stream hs).1] at hmem
  obtain ⟨entry, hentry, heq⟩ := List.mem_map.mp hmem
  obtain ⟨hadded, -, hle⟩ := mem_window.mp (List.mem_filter.mp hentry).1
  obtain ⟨change', hchange', hrev, -⟩ :=
    (h.logged.recorded entry hadded).streamChange
  rw [hchange'] at heq
  cases heq
  omega

theorem tracking_received (h : Tracking keyspace s)
    {stream : RedisChangeStream} (hs : stream ∈ s.subscriber.stream?)
    (hgapless : Gapless keyspace s .recv) :
    Tracking keyspace (s.received keyspace stream) := by
  obtain ⟨hlast, hchain⟩ := hgapless rfl stream hs
  by_cases hlost : Lost keyspace s stream
  · obtain ⟨oldest, hround⟩ := h.recvRound_lost hs hlost (hlast hlost)
    have hsame : s.received keyspace stream = s := by
      simp only [FeedState.received, hround, List.append_nil,
        ← mem_stream?.mp hs]
    rwa [hsame]
  obtain ⟨stream', hround, hfilter, hposition, hcursor, hnone⟩ :=
    h.recvRound_kept hs hlost (hchain.resolve_left hlost)
  have hspec := scan_spec (wanted stream.filter) h.logged.ascending
    (s.position stream) changePageLen
  obtain ⟨hlow, hhigh⟩ := h.position stream hs
  obtain ⟨hdelivered, hasc⟩ := h.delivered stream hs
  have hpage : nextPage keyspace s stream =
      (ahead StreamEntry.revision (s.position stream)
        (s.server.feed keyspace).added).take changePageLen := rfl
  rw [hpage] at hround hposition
  generalize hscan : scan StreamEntry.revision (wanted stream.filter)
    (s.position stream) ((ahead StreamEntry.revision (s.position stream)
      (s.server.feed keyspace).added).take changePageLen) = passed
    at hspec hround hposition
  obtain ⟨position, found⟩ := passed
  simp only [FeedState.received, hround]
  refine ⟨h.wellTyped, h.logged, by rintro _ _ _ ⟨⟩, ?_, ?_, ?_, ?_⟩
  · rintro _ ⟨⟩
    exact hcursor
  · rintro _ ⟨⟩
    refine ⟨?_, ?_⟩
    · exact Nat.le_trans hlow (hposition ▸ hspec.cursor_le)
    · show s.position stream' ≤ s.server.revision keyspace
      rw [hposition]
      rcases hspec.cursor_mem with heq | ⟨entry, hentry, heq⟩
      · exact heq ▸ hhigh
      · exact heq ▸ h.logged.counter entry hentry
  · rintro _ ⟨⟩ hnone' entry hentry
    obtain rfl := hnone hnone'
    exact h.fresh _ hs hnone' entry hentry
  · rintro _ ⟨⟩
    have hwindow : (window StreamEntry.revision s.origin (s.position stream')
          (s.feed keyspace).added).filter (wanted stream'.filter) =
        (window StreamEntry.revision s.origin (s.position stream)
          (s.feed keyspace).added).filter (wanted stream.filter) ++
            found.toList := by
      rw [hfilter, hposition, FeedState.feed,
        window_split h.logged.ascending hlow hspec.cursor_le,
        List.filter_append, hspec.window_filter h.logged.ascending]
    show _ = ((window StreamEntry.revision s.origin (s.position stream')
      (s.feed keyspace).added).filter (wanted stream'.filter)).map
        streamChange ∧ _
    rw [hwindow, List.map_append, List.map_append, ← hdelivered]
    cases found with
    | none => simpa using hasc
    | some entry =>
        obtain ⟨hentry, habove, -, -⟩ := hspec.found_mem entry rfl
        obtain ⟨change, hchange, hrev, -⟩ :=
          (h.logged.recorded entry hentry).streamChange
        simp only [Option.map_some, hchange, Option.toList, List.map_cons,
          List.map_nil, true_and]
        refine List.pairwise_append.mpr ⟨hasc, by simp, ?_⟩
        intro d hd d' hd'
        have hle := h.delivered_le hs hd
        rw [List.mem_singleton.mp hd', hrev]
        omega

theorem tracking_step (s : FeedState) (label : FeedLabel) (s' : FeedState)
    (h : Tracking keyspace s) (hgapless : Gapless keyspace s label)
    (hstep : s.step keyspace label = some s') : Tracking keyspace s' := by
  cases label with
  | put | delete | bulkDelete | tick =>
      simp only [FeedState.step] at hstep
      obtain ⟨server, hwrites, rfl⟩ := Option.map_eq_some_iff.mp hstep
      exact tracking_writes h hwrites
  | subscribe changeRetention request =>
      cases hstep
      exact tracking_opened h (beginSubscribe_opens h changeRetention request)
  | validate =>
      cases hs : s.subscriber with
      | closed | listening => simp [FeedState.step, hs] at hstep
      | validating requested cursor filter =>
          simp only [FeedState.step, hs, Option.some.injEq] at hstep
          subst hstep
          exact tracking_opened h (finishSubscribe_opens h hs)
  | recv =>
      cases hs : s.subscriber with
      | closed | validating => simp [FeedState.step, hs] at hstep
      | listening stream =>
          simp only [FeedState.step, hs, Option.some.injEq] at hstep
          subst hstep
          exact tracking_received h (mem_stream?.mpr hs) hgapless

theorem readsHistory_of_tracking (s : FeedState) (label : FeedLabel)
    (h : Tracking keyspace s) (hgapless : Gapless keyspace s label) :
    ReadsHistory keyspace s label := by
  rintro rfl stream hs
  obtain ⟨hlast, hchain⟩ := hgapless rfl stream hs
  by_cases hlost : Lost keyspace s stream
  · obtain ⟨oldest, hround⟩ := h.recvRound_lost hs hlost (hlast hlost)
    rw [hround]
    exact ⟨iff_of_true rfl hlost, fun hkept => absurd hlost hkept⟩
  · obtain ⟨stream', hround, -, hposition, -, -⟩ :=
      h.recvRound_kept hs hlost (hchain.resolve_left hlost)
    rw [hround]
    refine ⟨iff_of_false ?_ hlost, fun _ => ⟨rfl, hposition⟩⟩
    have hspec := scan_spec (wanted stream.filter) h.logged.ascending
      (s.position stream) changePageLen
    cases hfound : (scan StreamEntry.revision (wanted stream.filter)
        (s.position stream) (nextPage keyspace s stream)).2 with
    | none => simp [expires]
    | some entry =>
        obtain ⟨hadded, -⟩ := hspec.found_mem entry hfound
        obtain ⟨change, hchange, -⟩ :=
          (h.logged.recorded entry hadded).streamChange
        simp [expires, hchange]

end Tracking

/-- In every run whose rounds of `recv` find no hole in the revisions, and a
revision to compare with where a record is lost, `recv` expires exactly when a
record above its position has been trimmed, and delivers the selected records
once and in order. -/
theorem recv_expires_exactly_when_lost (keyspace : Subspace) (clock : Int)
    (labels : List FeedLabel)
    (hgapless : Along (FeedState.step keyspace) (Gapless keyspace)
      (FeedState.init clock) labels) :
    Along (FeedState.step keyspace) (ReadsHistory keyspace)
        (FeedState.init clock) labels ∧
      ∀ s, run (FeedState.step keyspace) (FeedState.init clock) labels =
        some s → DeliversInOrder keyspace s :=
  ⟨along_of_invariant tracking_step readsHistory_of_tracking
      (tracking_init keyspace clock) hgapless,
    fun _ hrun => (run_invariant tracking_step (tracking_init keyspace clock)
      hgapless hrun).delivered⟩

def trimmedAhead : List FeedLabel :=
  let put := .put 2 "c" "k" [1] 0 .epoch
  [put, .subscribe 2 ⟨.latest, .default⟩, put, .recv, put, put, put, .recv]

theorem recv_expires_when_trimmed_ahead :
    Along (FeedState.step ⟨"app"⟩) (ReadsHistory ⟨"app"⟩) (.init 0)
        trimmedAhead ∧
      ∀ s, run (FeedState.step ⟨"app"⟩) (.init 0) trimmedAhead = some s →
        DeliversInOrder ⟨"app"⟩ s :=
  recv_expires_exactly_when_lost ⟨"app"⟩ 0 trimmedAhead (by decide +kernel)

def unrecordedWrite : List FeedLabel :=
  [.put 10 "c" "a" [1] 0 .epoch, .subscribe 10 ⟨.latest, .default⟩,
    .put 0 "c" "b" [1] 0 .epoch, .put 10 "c" "a" [2] 0 .epoch, .recv]

theorem recv_expires_without_loss :
    ¬ ∀ (keyspace : Subspace) (clock : Int) (labels : List FeedLabel),
      Along (FeedState.step keyspace) (ReadsHistory keyspace) (.init clock)
        labels := by
  intro h
  have hreads := h ⟨"app"⟩ 0 unrecordedWrite
  revert hreads
  decide +kernel

end OpenKeyV.Redis
