import OpenKeyV.Library.Delivery
import OpenKeyV.Library.Machine
import OpenKeyV.Memory.Client

/-!
# `MemoryChangeStream`

A subscription replays what was retained when it was made and goes on with the
broadcast channel.  The channel gives each receiver every change sent after
its creation, in order, or says how many of the oldest unread ones the
receiver has lost.
-/

namespace OpenKeyV.Memory

open OpenKeyV.Library

/-- One round of the loop of `recv`: the stream afterwards and what `recv`
returns, if it does not go on.  `none` means that it waits.  When `lag` is
given the channel has dropped that many unread changes. -/
def MemoryChangeStream.poll (stream : MemoryChangeStream)
    (sent : List StoreChange) (lag : Option Nat) :
    Option (MemoryChangeStream × Option (Delivery StoreChange)) :=
  let returned (change : StoreChange) : Option (Delivery StoreChange) :=
    if stream.filter.accepts change then some (.item change) else none
  match stream.replay with
  | change :: replay => some ({ stream with replay }, returned change)
  | [] =>
      match lag with
      | none => sent[stream.receiver]?.map fun change =>
          ({ stream with receiver := stream.receiver + 1 }, returned change)
      | some skipped =>
          if 0 < skipped ∧ stream.receiver + skipped ≤ sent.length then
            some ({ stream with receiver := stream.receiver + skipped },
              some (.lagged skipped))
          else none

/-- The revision of the last change that the stream has been through. -/
def MemoryChangeStream.position (stream : MemoryChangeStream) : Nat :=
  stream.receiver - stream.replay.length

/-- A store whose changes are recorded while a subscriber reads them. -/
structure Subscription where
  changes : MemoryChangeState
  stream : MemoryChangeStream
  deliveries : List (Delivery StoreChange)

inductive SubscriptionStep where
  | record (now : DateTime) (mutation : Mutation)
  | poll (lag : Option Nat)
  deriving DecidableEq, Repr

def Subscription.step (s : Subscription) :
    SubscriptionStep → Option Subscription
  | .record now mutation =>
      some { s with changes := s.changes.recordChange now mutation }
  | .poll lag => (s.stream.poll s.changes.sent lag).map fun polled =>
      { s with
        stream := polled.1
        deliveries := s.deliveries ++ polled.2.toList }

def recorded (history : List (DateTime × Mutation)) : MemoryChangeState :=
  history.foldl (fun changes record => changes.recordChange record.1 record.2)
    .empty

/-! ## The window of retained changes -/

/-- Revisions count the changes, and the latest of them are retained. -/
structure MemoryChangeState.Numbered (changes : MemoryChangeState) : Prop where
  revision : changes.revision = changes.sent.length
  entries : changes.entries =
    changes.sent.drop (changes.sent.length - changeRetention)
  sent : ∀ i change, changes.sent[i]? = some change → change.revision = i + 1

section Window

variable {changes : MemoryChangeState}

theorem MemoryChangeState.Numbered.recordChange (h : changes.Numbered)
    (now : DateTime) (mutation : Mutation) :
    (changes.recordChange now mutation).Numbered := by
  have hpositive : 0 < changeRetention := by decide
  constructor
  · simp [MemoryChangeState.recordChange, h.revision]
  · simp only [MemoryChangeState.recordChange, List.length_append,
      List.length_singleton, h.entries, List.length_drop]
    generalize changeRetention = retention at hpositive ⊢
    split
    · rename_i hfull
      have hnext : changes.sent.length + 1 - retention =
          changes.sent.length - retention + 1 := by omega
      rw [List.tail_drop, hnext, List.drop_append_of_le_length (by omega)]
    · rename_i hroom
      have hzero : changes.sent.length - retention = 0 := by omega
      have hzero' : changes.sent.length + 1 - retention = 0 := by omega
      rw [hzero, hzero']
      rfl
  · intro i change hchange
    simp only [MemoryChangeState.recordChange] at hchange
    rcases Nat.lt_trichotomy i changes.sent.length with hlt | rfl | hgt
    · rw [List.getElem?_append_left hlt] at hchange
      exact h.sent i change hchange
    · rw [List.getElem?_concat_length] at hchange
      cases hchange
      rw [h.revision]
    · rw [List.getElem?_eq_none (by simp; omega)] at hchange
      cases hchange

def MemoryChangeState.forgotten (changes : MemoryChangeState) : Nat :=
  changes.sent.length - changeRetention

theorem MemoryChangeState.Numbered.head_entries (h : changes.Numbered) :
    changes.entries.head?.map (·.revision) =
      if changes.sent = [] then none else some (changes.forgotten + 1) := by
  have hpositive : 0 < changeRetention := by decide
  rw [h.entries, List.head?_drop]
  split
  · rename_i hempty
    simp [hempty]
  · rename_i hsome
    have hlength := List.length_pos_of_ne_nil hsome
    have hbound : changes.sent.length - changeRetention <
        changes.sent.length := by omega
    rw [List.getElem?_eq_getElem hbound, Option.map_some,
      h.sent _ _ (List.getElem?_eq_getElem hbound)]
    rfl

theorem MemoryChangeState.Numbered.filter_entries (h : changes.Numbered)
    {position : Nat} (hforgotten : changes.forgotten ≤ position) :
    changes.entries.filter (fun change => decide (position < change.revision)) =
      changes.sent.drop position := by
  rw [h.entries, drop_eq_filter h.sent, drop_eq_filter h.sent position,
    List.filter_filter]
  apply List.filter_congr
  intro change _
  have himp : position < change.revision →
      changes.sent.length - changeRetention < change.revision :=
    fun hlt => Nat.lt_of_le_of_lt hforgotten hlt
  by_cases hlt : position < change.revision
  · simp [hlt, himp hlt]
  · simp [hlt]

/-! ## Subscribing -/

theorem MemoryChangeState.Numbered.subscribe_after (h : changes.Numbered)
    (cursor : ChangeCursor) (filter : ChangeFilter) :
    changes.subscribe ⟨.after cursor, filter⟩ =
      match parseUnsigned 64 cursor.text with
      | none => .error (.invalidChangeCursor cursor.text)
      | some position =>
          if changes.revision < position then
            .error (.invalidChangeCursor cursor.text)
          else if position < changes.forgotten then
            .error (.changeCursorExpired cursor.text
              (toString (changes.forgotten + 1)))
          else .ok ⟨changes.sent.drop position, changes.sent.length,
            filter⟩ := by
  simp only [MemoryChangeState.subscribe]
  cases hparse : parseUnsigned 64 cursor.text with
  | none => rfl
  | some position =>
      simp only [h.head_entries]
      by_cases hahead : changes.revision < position
      · rw [if_pos hahead, if_pos hahead]
      · rw [if_neg hahead, if_neg hahead]
        by_cases hempty : changes.sent = []
        · simp [hempty, forgotten]
        · rw [if_neg hempty]
          simp only [Nat.add_sub_cancel]
          by_cases hforgotten : position < changes.forgotten
          · rw [if_pos hforgotten, if_pos hforgotten]
          · rw [if_neg hforgotten, if_neg hforgotten,
              h.filter_entries (Nat.le_of_not_lt hforgotten)]

def startPosition (changes : MemoryChangeState) : ChangeStart → Nat
  | .beginning => changes.forgotten
  | .latest => changes.revision
  | .after cursor => (parseUnsigned 64 cursor.text).getD 0

theorem MemoryChangeState.Numbered.subscribed (h : changes.Numbered)
    {request : ChangeFeedRequest} {stream : MemoryChangeStream}
    (hstream : changes.subscribe request = .ok stream) :
    startPosition changes request.start ≤ changes.sent.length ∧
      stream = ⟨changes.sent.drop (startPosition changes request.start),
        changes.sent.length, request.filter⟩ := by
  obtain ⟨start, filter⟩ := request
  cases start with
  | beginning =>
      cases hstream
      refine ⟨Nat.sub_le _ _, ?_⟩
      rw [h.entries]
      rfl
  | latest =>
      cases hstream
      refine ⟨Nat.le_of_eq h.revision, ?_⟩
      simp [startPosition, h.revision]
  | after cursor =>
      rw [h.subscribe_after] at hstream
      cases hparse : parseUnsigned 64 cursor.text with
      | none => simp [hparse] at hstream
      | some position =>
          simp only [hparse] at hstream
          split at hstream
          · cases hstream
          · rename_i hahead
            split at hstream
            · cases hstream
            · cases hstream
              rw [h.revision] at hahead
              simp [startPosition, hparse]
              omega

end Window

/-! ## Reading -/

section Reading

variable {filter : ChangeFilter} {first position : Nat}
  {s s' : Subscription}

/-- The subscriber has been through the changes after `first` up to
`position`; the rest of what was retained is still to be replayed. -/
structure ReadUpTo (filter : ChangeFilter) (first position : Nat)
    (s : Subscription) : Prop where
  numbered : s.changes.Numbered
  selects : s.stream.filter = filter
  first_le : first ≤ position
  position_le : position ≤ s.stream.receiver
  receiver_le : s.stream.receiver ≤ s.changes.sent.length
  replay : s.stream.replay =
    (s.changes.sent.take s.stream.receiver).drop position
  delivered : Delivered filter.accepts
    ((s.changes.sent.take position).drop first) s.deliveries

theorem ReadUpTo.position_eq (h : ReadUpTo filter first position s) :
    s.stream.position = position := by
  have hposition := h.position_le
  have hreceiver := h.receiver_le
  rw [MemoryChangeStream.position, h.replay, List.length_drop,
    List.length_take]
  omega

theorem ReadUpTo.record (h : ReadUpTo filter first position s)
    (now : DateTime) (mutation : Mutation) :
    ReadUpTo filter first position
      { s with changes := s.changes.recordChange now mutation } := by
  have hreceiver := h.receiver_le
  have hposition := Nat.le_trans h.position_le hreceiver
  refine ⟨h.numbered.recordChange now mutation, h.selects, h.first_le,
    h.position_le, ?_, ?_, ?_⟩
  · simp only [MemoryChangeState.recordChange, List.length_append,
      List.length_singleton]
    omega
  · simp only [MemoryChangeState.recordChange,
      List.take_append_of_le_length hreceiver]
    exact h.replay
  · simp only [MemoryChangeState.recordChange,
      List.take_append_of_le_length hposition]
    exact h.delivered

theorem delivered_next {accepts : StoreChange → Bool}
    {sent : List StoreChange} {change : StoreChange}
    {deliveries : List (Delivery StoreChange)} (hfirst : first ≤ position)
    (h : Delivered accepts ((sent.take position).drop first) deliveries)
    (hchange : sent[position]? = some change) :
    Delivered accepts ((sent.take (position + 1)).drop first)
      (deliveries ++
        (if accepts change then some (.item change) else none).toList) := by
  obtain ⟨hlt, hget⟩ := List.getElem?_eq_some_iff.mp hchange
  have hsplit : (sent.take (position + 1)).drop first =
      (sent.take position).drop first ++ [change] := by
    rw [List.take_add_one, hchange, Option.toList_some,
      List.drop_append_of_le_length]
    rw [List.length_take]
    omega
  rw [hsplit]
  cases haccepts : accepts change with
  | true => exact .item change h haccepts
  | false =>
      simp only [Bool.false_eq_true, if_false, Option.toList_none,
        List.append_nil]
      exact .passed change h haccepts

theorem ReadUpTo.next (h : ReadUpTo filter first position s)
    {change : StoreChange}
    (hchange : s.changes.sent[position]? = some change) :
    ∃ stream, s.stream.poll s.changes.sent none = some (stream,
        if filter.accepts change then some (.item change) else none) ∧
      ReadUpTo filter first (position + 1) ⟨s.changes, stream, s.deliveries ++
        (if filter.accepts change then some (.item change)
          else none).toList⟩ := by
  obtain ⟨hlt, hget⟩ := List.getElem?_eq_some_iff.mp hchange
  have hdelivered := delivered_next h.first_le h.delivered hchange
  have hreplay := h.replay
  have hposition := h.position_le
  have hreceiver := h.receiver_le
  cases hrest : s.stream.replay with
  | cons head rest =>
      have hbound : position < (s.changes.sent.take s.stream.receiver).length := by
        by_contra hle
        rw [hrest, List.drop_eq_nil_of_le (Nat.le_of_not_lt hle)] at hreplay
        cases hreplay
      rw [hrest, List.drop_eq_getElem_cons hbound, List.getElem_take, hget]
        at hreplay
      obtain ⟨rfl, hrest'⟩ := List.cons.inj hreplay
      rw [List.length_take] at hbound
      refine ⟨{ s.stream with replay := rest }, ?_, h.numbered, h.selects,
        Nat.le_succ_of_le h.first_le, by dsimp only; omega, hreceiver, hrest',
        hdelivered⟩
      rw [← h.selects, MemoryChangeStream.poll, hrest]
  | nil =>
      have hend : position = s.stream.receiver := by
        have hlength := congrArg List.length hreplay
        rw [hrest, List.length_nil, List.length_drop, List.length_take]
          at hlength
        omega
      subst hend
      refine ⟨{ s.stream with receiver := s.stream.receiver + 1 }, ?_,
        h.numbered, h.selects, Nat.le_succ_of_le h.first_le, Nat.le_refl _, hlt,
        ?_, hdelivered⟩
      · rw [← h.selects, MemoryChangeStream.poll, hrest]
        dsimp only
        rw [hchange, Option.map_some, hrest]
      · rw [List.drop_eq_nil_of_le (List.length_take_le _ _)]
        exact hrest

theorem ReadUpTo.waits (h : ReadUpTo filter first position s)
    (hend : s.changes.sent[position]? = none) :
    s.stream.poll s.changes.sent none = none := by
  have hlength := List.getElem?_eq_none_iff.mp hend
  have hposition := h.position_le
  have hreplay := h.replay
  rw [List.drop_eq_nil_of_le (by rw [List.length_take]; omega)] at hreplay
  rw [MemoryChangeStream.poll, hreplay]
  exact Option.map_eq_none_iff.mpr
    (List.getElem?_eq_none_iff.mpr (Nat.le_trans hlength hposition))

theorem ReadUpTo.lagged (h : ReadUpTo filter first position s) {skipped : Nat}
    {polled : MemoryChangeStream × Option (Delivery StoreChange)}
    (hpoll : s.stream.poll s.changes.sent (some skipped) = some polled) :
    s.stream.poll s.changes.sent none = some polled ∨
      polled.2 = some (.lagged skipped) ∧ 0 < skipped ∧
        ReadUpTo filter first (position + skipped)
          ⟨s.changes, polled.1, s.deliveries ++ polled.2.toList⟩ := by
  have hreplay := h.replay
  have hposition := h.position_le
  have hreceiver := h.receiver_le
  cases hrest : s.stream.replay with
  | cons head rest =>
      refine .inl (Eq.trans ?_ hpoll)
      simp only [MemoryChangeStream.poll, hrest]
  | nil =>
      have hend : position = s.stream.receiver := by
        have hlength := congrArg List.length hreplay
        rw [hrest, List.length_nil, List.length_drop, List.length_take]
          at hlength
        omega
      rw [MemoryChangeStream.poll, hrest] at hpoll
      dsimp only at hpoll
      split at hpoll
      · rename_i hskipped
        cases hpoll
        refine .inr ⟨rfl, hskipped.1, h.numbered, h.selects,
          Nat.le_trans h.first_le (Nat.le_add_right _ _), ?_, hskipped.2, ?_,
          ?_⟩
        · exact Nat.le_of_eq (congrArg (· + skipped) hend)
        · rw [hend, List.drop_eq_nil_of_le (List.length_take_le _ _)]
        · have hfirst := h.first_le
          have hsplit : (s.changes.sent.take (position + skipped)).drop first =
              (s.changes.sent.take position).drop first ++
                (s.changes.sent.drop position).take skipped := by
            rw [List.take_add, List.drop_append_of_le_length]
            rw [List.length_take]
            omega
          have hlength :
              ((s.changes.sent.drop position).take skipped).length = skipped := by
            rw [List.length_take, List.length_drop]
            omega
          have hlost := h.delivered.lost
            ((s.changes.sent.drop position).take skipped) (by
              intro hnil
              rw [hnil, List.length_nil] at hlength
              omega)
          rw [hlength, ← hsplit] at hlost
          exact hlost
      · cases hpoll

theorem ReadUpTo.poll (h : ReadUpTo filter first position s)
    {lag : Option Nat}
    {polled : MemoryChangeStream × Option (Delivery StoreChange)}
    (hpoll : s.stream.poll s.changes.sent lag = some polled) :
    ∃ position', position < position' ∧ ReadUpTo filter first position'
      ⟨s.changes, polled.1, s.deliveries ++ polled.2.toList⟩ := by
  have htaken : s.stream.poll s.changes.sent none = some polled →
      ∃ position', position < position' ∧ ReadUpTo filter first position'
        ⟨s.changes, polled.1, s.deliveries ++ polled.2.toList⟩ := by
    intro hnone
    cases hchange : s.changes.sent[position]? with
    | none => cases (h.waits hchange).symm.trans hnone
    | some change =>
        obtain ⟨stream, hnext, hread⟩ := h.next hchange
        cases hnone.symm.trans hnext
        exact ⟨position + 1, Nat.lt_succ_self _, hread⟩
  cases lag with
  | none => exact htaken hpoll
  | some skipped =>
      rcases h.lagged hpoll with hnone | ⟨-, hpos, hread⟩
      · exact htaken hnone
      · exact ⟨position + skipped, Nat.lt_add_of_pos_right hpos, hread⟩

theorem ReadUpTo.step (h : ReadUpTo filter first position s)
    {label : SubscriptionStep} (hstep : s.step label = some s') :
    ∃ position', position ≤ position' ∧
      ReadUpTo filter first position' s' := by
  cases label with
  | record now mutation =>
      cases hstep
      exact ⟨position, Nat.le_refl _, h.record now mutation⟩
  | poll lag =>
      simp only [Subscription.step, Option.map_eq_some_iff] at hstep
      obtain ⟨polled, hpoll, rfl⟩ := hstep
      obtain ⟨position', hlt, hread⟩ := h.poll hpoll
      exact ⟨position', Nat.le_of_lt hlt, hread⟩

/-- As many rounds as changes are unread hand over all of them that the filter
accepts. -/
theorem ReadUpTo.drain {unread : Nat} (h : ReadUpTo filter first position s)
    (hunread : position + unread = s.changes.sent.length) :
    run Subscription.step s (List.replicate unread (.poll none)) =
      some ⟨s.changes, ⟨[], s.changes.sent.length, filter⟩, s.deliveries ++
        ((s.changes.sent.drop position).filter filter.accepts).map .item⟩ := by
  induction unread generalizing position s with
  | zero =>
      obtain ⟨changes, ⟨replay, receiver, filter'⟩, deliveries⟩ := s
      have hposition := h.position_le
      have hreceiver := h.receiver_le
      have hreplay := h.replay
      obtain rfl : filter' = filter := h.selects
      dsimp only at hunread hposition hreceiver hreplay
      obtain rfl : receiver = changes.sent.length := by omega
      rw [List.drop_eq_nil_of_le (by rw [List.length_take]; omega)] at hreplay
      dsimp only
      rw [List.drop_eq_nil_of_le (Nat.le_of_eq hunread.symm : _ ≤ position), hreplay]
      simp
  | succ unread ih =>
      have hlt : position < s.changes.sent.length := by omega
      obtain ⟨stream, hpoll, hread⟩ :=
        h.next (List.getElem?_eq_getElem hlt)
      rw [List.replicate_succ, run, Subscription.step, hpoll, Option.map_some,
        Option.bind_some, ih hread (by dsimp only; omega)]
      rw [List.drop_eq_getElem_cons hlt, List.filter_cons]
      split <;> simp

end Reading

/-! ## Exactness -/

/-- What a subscriber has been handed, and what it is handed next.  So far:
the changes after `first` up to its position that the filter accepts, each once
and by ascending revision, but for those that a notice counts.  A round takes
the next change, waits when there is none, or tells how many the channel has
lost. -/
structure Exact (filter : ChangeFilter) (first : Nat) (s : Subscription) :
    Prop where
  first_le : first ≤ s.stream.position
  position_le : s.stream.position ≤ s.changes.revision
  delivered : Delivered filter.accepts
    (s.changes.sent.filter fun change =>
      first < change.revision ∧ change.revision ≤ s.stream.position)
    s.deliveries
  ascending : (Delivery.items s.deliveries).Pairwise fun change change' =>
    change.revision < change'.revision
  next : ∀ change ∈ s.changes.sent, change.revision = s.stream.position + 1 →
    ∃ stream, s.stream.poll s.changes.sent none = some (stream,
        if filter.accepts change then some (.item change) else none) ∧
      stream.position = s.stream.position + 1
  waits : s.stream.poll s.changes.sent none = none ↔
    s.stream.position = s.changes.revision
  lagged : ∀ skipped polled,
    s.stream.poll s.changes.sent (some skipped) = some polled →
      s.stream.poll s.changes.sent none = some polled ∨
        polled.2 = some (.lagged skipped) ∧ 0 < skipped ∧
          polled.1.position = s.stream.position + skipped
  drained : ∃ s', run Subscription.step s (List.replicate
      (s.changes.revision - s.stream.position) (.poll none)) = some s' ∧
    s'.changes = s.changes ∧ s'.stream.position = s.changes.revision ∧
    s'.deliveries = s.deliveries ++ ((s.changes.sent.filter fun change =>
      s.stream.position < change.revision).filter filter.accepts).map .item

theorem ReadUpTo.exact {filter : ChangeFilter} {first position : Nat}
    {s : Subscription} (h : ReadUpTo filter first position s) :
    Exact filter first s := by
  have hsent := h.numbered.sent
  have hrevision := h.numbered.revision
  have hle := Nat.le_trans h.position_le h.receiver_le
  have hposition := h.position_eq
  have hread : (s.changes.sent.take position).drop first =
      s.changes.sent.filter fun change =>
        first < change.revision ∧ change.revision ≤ position := by
    rw [drop_eq_filter (numbered_take hsent position) first,
      take_eq_filter hsent, List.filter_filter]
    apply List.filter_congr
    intro change _
    simp
  constructor
  case first_le => exact hposition ▸ h.first_le
  case position_le => rwa [hposition, hrevision]
  case delivered => exact hposition ▸ hread ▸ h.delivered
  case ascending =>
    apply h.delivered.pairwise
    exact ((numbered_pairwise hsent).sublist (List.take_sublist _ _)).sublist
      (List.drop_sublist _ _)
  case next =>
    intro change hmem hnext
    obtain ⟨i, hchange⟩ := List.mem_iff_getElem?.mp hmem
    obtain rfl : i = position := by
      have hnumber := hsent i change hchange
      omega
    obtain ⟨stream, hpoll, hread⟩ := h.next hchange
    exact ⟨stream, hpoll, by rw [hposition]; exact hread.position_eq⟩
  case waits =>
    rw [hposition, hrevision]
    constructor
    · intro hwaits
      by_contra hmore
      obtain ⟨stream, hpoll, -⟩ :=
        h.next (List.getElem?_eq_getElem (Nat.lt_of_le_of_ne hle hmore))
      cases hwaits.symm.trans hpoll
    · intro hend
      exact h.waits (List.getElem?_eq_none_iff.mpr (Nat.le_of_eq hend.symm))
  case lagged =>
    intro skipped polled hpoll
    refine (h.lagged hpoll).imp id ?_
    rintro ⟨hnotice, hpos, hread⟩
    exact ⟨hnotice, hpos, by rw [hposition]; exact hread.position_eq⟩
  case drained =>
    rw [hposition, hrevision]
    refine ⟨_, h.drain (by omega), rfl, Nat.sub_zero _, ?_⟩
    rw [drop_eq_filter hsent]

end OpenKeyV.Memory
