import OpenKeyV.Library.Tickets
import OpenKeyV.Redis.Completeness
import OpenKeyV.Redis.Isolation

/-!
# What conditional writes consume

An entry shows the revision of its envelope.  A conditional write that is
applied consumes the revision that it expects; the calls that write put the
revision that they have drawn.  So over any run no draw is consumed twice.
-/

namespace OpenKeyV.Redis

open Library Program RedisStore

def tokenOf (value : Bytes) : Option Revision :=
  if Cas.prefixLen ≤ value.length then
    some (.fromBytes (luaSub value 6 Cas.prefixLen))
  else none

def Slot.token (slot : Slot) : Option Revision :=
  match slot.datum with
  | .string bytes => tokenOf bytes
  | _ => none

def Server.token (s : Server) (identity : String) : Option Revision :=
  (s.find identity).bind Slot.token

abbrev Cell := String × String

def Server.shown (keyspace : Subspace) (s : Server) (cell : Cell) :
    Option Revision :=
  s.token (subspaceCompoundKey keyspace cell.1 cell.2)

def Call.fresh (readings : Readings) : Call → Option Revision
  | .put .. => readings.fresh
  | .compareAndSwap .. => readings.fresh
  | _ => none

def Label.fresh : Label → Option Revision
  | .call _ _ readings single => single.fresh readings
  | .tick _ => none

/-- The entry whose revision a conditional write has consumed, by its
result. -/
def Call.consumed (config : RedisConfig) :
    Call → Except Error Outcome → Option (Cell × Revision)
  | .compareAndSwap key (some expected) _ collection _,
      .ok (.swap (.applied _)) =>
      some ((config.collectionName collection, key), expected)
  | .compareAndDelete key expected collection, .ok (.remove .deleted) =>
      some ((config.collectionName collection, key), expected)
  | _, _ => none

def consumed (keyspace : Subspace) (s : Server) :
    Label → Option (Cell × Revision)
  | .call defaultCollection changeRetention readings call =>
      let config : RedisConfig :=
        ⟨defaultCollection, keyspace, changeRetention⟩
      call.consumed config (call.run config readings s).1
  | .tick _ => none

/-! ## Envelopes -/

theorem length_luaSub {value : Bytes} (h : Cas.prefixLen ≤ value.length) :
    (luaSub value 6 Cas.prefixLen).length = Revision.byteLen := by
  simp only [luaSub, List.length_drop, List.length_take]
  simp only [Cas.prefixLen, Cas.magicLen, Revision.byteLen] at h ⊢
  omega

theorem comparesEqual_iff (expected : Revision) (value : Bytes) :
    comparesEqual expected.asBytes value = true ↔
      tokenOf value = some expected := by
  simp only [comparesEqual, tokenOf, Bool.and_eq_true, decide_eq_true_eq]
  by_cases hlen : Cas.prefixLen ≤ value.length
  · have hsize := length_luaSub hlen
    generalize luaSub value 6 Cas.prefixLen = bytes at hsize ⊢
    have hbytes : (Revision.fromBytes bytes).asBytes = bytes := by
      rw [Revision.asBytes_fromBytes (Nat.le_of_eq hsize.symm), ← hsize,
        List.take_length]
    rw [if_pos hlen, Option.some.injEq]
    constructor
    · rintro ⟨-, heq⟩
      exact Revision.asBytes_injective (hbytes.trans heq.symm)
    · rintro rfl
      exact ⟨hlen, hbytes⟩
  · simp [hlen]

theorem tokenOf_encode (entry : ManagedEntry) (revision : Revision) :
    tokenOf (Cas.encode entry revision) = some revision := by
  have hdrop : luaSub (Cas.encode entry revision) 6 Cas.prefixLen =
      revision.asBytes := by
    have hmagic : Cas.magic.length = 5 := rfl
    have htake : (Cas.encode entry revision).take Cas.prefixLen =
        Cas.magic ++ revision.asBytes :=
      List.take_left' (by simp [Cas.prefixLen, Cas.magicLen, hmagic])
    rw [luaSub, htake, List.drop_left' hmagic]
  have hlong : Cas.prefixLen ≤ (Cas.encode entry revision).length := by
    simp [Cas.encode, Cas.prefixLen, Cas.magicLen, Cas.magic]
    omega
  rw [tokenOf, if_pos hlong, hdrop]
  exact congrArg some (by simpa using
    Revision.fromBytes_asBytes_append revision [])

/-! ## What scripts do to the tokens -/

/-- Every token after was under its key before, or has been drawn and put
under the key `identity`. -/
def Moves (identity : String) (drawn : Option Revision) (s s' : Server) :
    Prop :=
  ∀ key t, s'.token key = some t →
    s.token key = some t ∨ key = identity ∧ drawn = some t

section Moves

variable {identity : String} {drawn : Option Revision}

theorem Moves.refl (s : Server) : Moves identity drawn s s :=
  fun _ _ h => .inl h

theorem Moves.trans (a b c : Server) (hab : Moves identity drawn a b)
    (hbc : Moves identity drawn b c) : Moves identity drawn a c := by
  intro key t h
  rcases hbc key t h with h | h
  · exact hab key t h
  · exact .inr h

theorem Moves.store {slot : Slot} {key : String}
    (h : ∀ t, slot.token = some t → key = identity ∧ drawn = some t)
    (s : Server) : Moves identity drawn s (s.store key slot) := by
  intro key' t ht
  rw [Server.token, Server.find_store] at ht
  split at ht
  · rename_i hkey
    obtain ⟨slot', hslot', ht⟩ := Option.bind_eq_some_iff.mp ht
    obtain ⟨hslot', -⟩ := Option.filter_eq_some_iff.mp hslot'
    rw [← Option.some.inj hslot'] at ht
    rw [hkey]
    exact .inr (h t ht)
  · exact .inl ht

theorem Moves.remove (s : Server) (key : String) :
    Moves identity drawn s (s.remove key) := by
  intro key' t ht
  rw [Server.token, Server.find_remove] at ht
  split at ht
  · cases ht
  · exact .inl ht

theorem moves_existsKey (key : String) :
    Keeps (Moves identity drawn) (existsKey key) := Moves.refl

theorem moves_del (key : String) : Keeps (Moves identity drawn) (del key) :=
  fun s => Moves.remove s key

theorem moves_get (key : String) : Keeps (Moves identity drawn) (get key) := by
  intro s
  simp only [get, eval_ofFn]
  split <;> exact Moves.refl s

theorem moves_incr (key : String) :
    Keeps (Moves identity drawn) (incr key) := by
  intro s
  simp only [incr, eval_ofFn]
  split
  · exact Moves.store (by simp [Slot.token]) s
  · split
    · exact Moves.refl s
    · exact Moves.store (by simp [Slot.token]) s
  · exact Moves.refl s
  · exact Moves.refl s

theorem moves_sadd (key member : String) :
    Keeps (Moves identity drawn) (sadd key member) := by
  intro s
  simp only [sadd, eval_ofFn]
  split
  · exact Moves.store (by simp [Slot.token]) s
  · exact Moves.store (by simp [Slot.token]) s
  · exact Moves.refl s

theorem moves_xadd (key : String) (maxlen : Nat) (id : Option StreamId)
    (fields : List (String × String)) :
    Keeps (Moves identity drawn) (xadd key maxlen id fields) := by
  intro s
  simp only [xadd, eval_ofFn]
  cases id with
  | none => split <;> exact Moves.refl s
  | some id =>
      split
      · repeat' split
        all_goals first
          | exact Moves.refl s
          | exact Moves.store (by simp [Slot.token]) s
      · repeat' split
        all_goals first
          | exact Moves.refl s
          | exact Moves.store (by simp [Slot.token]) s
      · exact Moves.refl s

theorem moves_writeEnvelope {envelope : Bytes} (h : tokenOf envelope = drawn)
    (milliseconds : Nat) :
    Keeps (Moves identity drawn)
      (writeEnvelope identity envelope milliseconds) := by
  unfold writeEnvelope
  split
  · exact fun s => Moves.store (fun t ht => ⟨rfl, h ▸ ht⟩) s
  · exact fun s => Moves.store (fun t ht => ⟨rfl, h ▸ ht⟩) s

theorem moves_appendChange (streamKey : String) (retention revision : Nat)
    (collection key : String) (operation : ChangeOperation)
    (occurredAt : String) :
    Keeps (Moves identity drawn) (appendChange streamKey retention revision
      collection key operation occurredAt) := by
  unfold appendChange
  split
  · exact moves_xadd _ _ _ _
  · exact keeps_pure Moves.refl ()

theorem moves_putChangeScript {envelope : Bytes}
    (h : tokenOf envelope = drawn)
    (revisionKey streamKey registryKey : String) (milliseconds : Nat)
    (collection key occurredAt : String) (retention : Nat) :
    Keeps (Moves identity drawn) (putChangeScript identity revisionKey
      streamKey registryKey envelope milliseconds collection key occurredAt
      retention) := by
  apply Keeps.bind Moves.trans (moves_incr _)
  intro revision
  apply Keeps.bind Moves.trans (moves_writeEnvelope h milliseconds)
  intro _
  apply Keeps.bind Moves.trans (moves_sadd _ _)
  intro _
  apply Keeps.bind Moves.trans (moves_appendChange _ _ _ _ _ _ _)
  intro _
  exact keeps_pure Moves.refl _

theorem moves_deleteChangeScript
    (ck revisionKey streamKey collection key : String) (retention : Nat)
    (occurredAt : String) :
    Keeps (Moves identity drawn) (deleteChangeScript ck revisionKey streamKey
      collection key retention occurredAt) := by
  apply Keeps.bind Moves.trans (moves_existsKey ck)
  intro present
  cases present with
  | false => exact keeps_pure Moves.refl _
  | true =>
      apply Keeps.bind Moves.trans (moves_del ck)
      intro _
      apply Keeps.bind Moves.trans (moves_incr _)
      intro revision
      apply Keeps.bind Moves.trans (moves_appendChange _ _ _ _ _ _ _)
      intro _
      exact keeps_pure Moves.refl _

theorem moves_bulkRemove (ck revisionKey streamKey : String) (retention : Nat)
    (collection occurredAt key : String) :
    Keeps (Moves identity drawn) (bulkRemove ck revisionKey streamKey
      retention collection occurredAt key) := by
  apply Keeps.bind Moves.trans (moves_del ck)
  intro _
  split
  · apply Keeps.bind Moves.trans (moves_incr _)
    intro revision
    exact moves_xadd _ _ _ _
  · exact keeps_pure Moves.refl _

theorem moves_bulkDelete (revisionKey streamKey : String) (retention : Nat)
    (collection occurredAt : String) (pairs : List (String × String))
    (removed : Nat) :
    Keeps (Moves identity drawn) (bulkDeleteChangeScript revisionKey streamKey
      retention collection occurredAt pairs removed) := by
  induction pairs generalizing removed with
  | nil => exact keeps_pure Moves.refl _
  | cons pair pairs ih =>
      apply Keeps.bind Moves.trans (moves_existsKey pair.1)
      intro present
      cases present with
      | false => exact ih removed
      | true =>
          apply Keeps.bind Moves.trans (moves_bulkRemove _ _ _ _ _ _ _)
          intro _
          exact ih (removed + 1)

theorem moves_compareAndSwapScript {envelope : Bytes}
    (h : tokenOf envelope = drawn) (registryKey : String) (expected : Bytes)
    (milliseconds prefixLen : Nat) (collection : String) :
    Keeps (Moves identity drawn) (compareAndSwapScript identity registryKey
      expected envelope milliseconds prefixLen collection) := by
  have hwrite : Keeps (Moves identity drawn) (do
      writeEnvelope identity envelope milliseconds
      sadd registryKey collection
      return [RedisValue.int 1, .bulkString []]) := by
    apply Keeps.bind Moves.trans (moves_writeEnvelope h _)
    intro _
    apply Keeps.bind Moves.trans (moves_sadd _ _)
    intro _
    exact keeps_pure Moves.refl _
  apply Keeps.bind Moves.trans (moves_get _)
  intro value
  cases value with
  | none =>
      dsimp only
      split
      · exact hwrite
      · exact keeps_pure Moves.refl _
  | some value =>
      dsimp only
      split
      · exact keeps_pure Moves.refl _
      · split
        · exact keeps_pure Moves.refl _
        · exact hwrite

theorem moves_compareAndDeleteScript (ck : String) (expected : Bytes)
    (prefixLen : Nat) :
    Keeps (Moves identity drawn)
      (compareAndDeleteScript ck expected prefixLen) := by
  apply Keeps.bind Moves.trans (moves_get ck)
  intro value
  cases value with
  | none => exact keeps_pure Moves.refl _
  | some value =>
      dsimp only
      split
      · exact keeps_pure Moves.refl _
      · split
        · exact keeps_pure Moves.refl _
        · apply Keeps.bind Moves.trans (moves_del ck)
          intro _
          exact keeps_pure Moves.refl _

theorem moves_destroyLoop (config : RedisConfig) (collection : String)
    (batches : List (DateTime × List String)) (destroyed : Bool)
    (s : Server) :
    Moves identity drawn s
      (destroyLoop config collection batches destroyed s).2 := by
  induction batches generalizing s destroyed with
  | nil => exact Moves.refl s
  | cons batch batches ih =>
      obtain ⟨occurred, identities⟩ := batch
      unfold destroyLoop
      split
      · exact Moves.refl s
      · exact ih destroyed s
      · rename_i pairs _ _
        have hscript : Moves identity drawn s (invoke (bulkDeleteChangeScript
            (revisionKey config.keyspace) (streamKey config.keyspace)
            config.changeRetention collection (timestampText occurred) pairs
            0) s).2 := moves_bulkDelete _ _ _ _ _ _ _ s
        split
        · rename_i heval
          rw [heval] at hscript
          exact hscript
        · rename_i heval
          rw [heval] at hscript
          exact Moves.trans _ _ _ hscript (ih _ _)

end Moves

/-! ## Calls -/

theorem shown_eq (keyspace : Subspace) (s : Server) (collection key : String) :
    s.shown keyspace (collection, key) =
      (s.value keyspace collection key).bind tokenOf := by
  simp only [Server.shown, Server.token, Server.value, Server.entry]
  cases s.find (subspaceCompoundKey keyspace collection key) with
  | none => rfl
  | some slot =>
      obtain ⟨datum, deadline⟩ := slot
      cases datum <;> rfl

theorem fresh_of_newEnvelope {readings : Readings} {value : Value}
    {ttl : Option F64} {envelope : Bytes} {revision : Revision}
    (h : newEnvelope readings value ttl = .ok (envelope, revision)) :
    readings.fresh = some revision ∧ tokenOf envelope = some revision := by
  unfold newEnvelope at h
  cases hentry : ManagedEntry.ofTtl readings.created value ttl with
  | error error =>
      rw [hentry] at h
      cases h
  | ok entry =>
      cases hfresh : readings.fresh with
      | none =>
          rw [hentry, hfresh] at h
          cases h
      | some fresh =>
          rw [hentry, hfresh] at h
          cases h
          exact ⟨rfl, tokenOf_encode entry revision⟩

/-- The entry that a call is about; a destroyed collection gets no token. -/
def Call.cell (config : RedisConfig) : Call → Cell
  | .put key _ collection _ => (config.collectionName collection, key)
  | .delete key collection => (config.collectionName collection, key)
  | .compareAndSwap key _ _ collection _ =>
      (config.collectionName collection, key)
  | .compareAndDelete key _ collection =>
      (config.collectionName collection, key)
  | .destroyCollection collection _ => (collection, "")

section Calls

variable {config : RedisConfig} {readings : Readings} {s : Server}

theorem moves_run (call : Call) :
    Moves (subspaceCompoundKey config.keyspace (call.cell config).1
      (call.cell config).2) (call.fresh readings) s
      (call.run config readings s).2 := by
  cases call with
  | put key value collection ttl =>
      simp only [Call.run, put]
      cases henvelope : newEnvelope readings value ttl with
      | error error => exact Moves.refl s
      | ok built =>
          obtain ⟨hfresh, htoken⟩ := fresh_of_newEnvelope henvelope
          exact moves_putChangeScript (htoken.trans hfresh.symm) _ _ _ _ _ _ _
            _ s
  | delete key collection => exact moves_deleteChangeScript _ _ _ _ _ _ _ s
  | compareAndSwap key expected value collection ttl =>
      simp only [Call.run, compareAndSwap]
      cases henvelope : newEnvelope readings value ttl with
      | error error => exact Moves.refl s
      | ok built =>
          obtain ⟨hfresh, htoken⟩ := fresh_of_newEnvelope henvelope
          exact moves_compareAndSwapScript (htoken.trans hfresh.symm) _ _ _ _
            _ s
  | compareAndDelete key expected collection =>
      exact moves_compareAndDeleteScript _ _ _ s
  | destroyCollection collection scanned =>
      exact moves_destroyLoop config collection _ _ s

/-- What a conditional write says of the entry: it was applied to the revision
that it expects, or it changed nothing. -/
def Decides (config : RedisConfig) (readings : Readings) (s : Server) :
    Call → Prop
  | .compareAndSwap key expected value collection ttl =>
      let cell : Cell := (config.collectionName collection, key)
      let (r, s') := compareAndSwap config readings key expected value
        collection ttl s
      (∃ revision, r = .ok (.applied revision) ∧
        readings.fresh = some revision ∧
        s'.shown config.keyspace cell = some revision ∧
        (match expected with
          | none => s.value config.keyspace cell.1 cell.2 = none
          | some expected =>
              s.shown config.keyspace cell = some expected)) ∨
      (∀ revision, r ≠ .ok (.applied revision)) ∧ s' = s
  | .compareAndDelete key expected collection =>
      let cell : Cell := (config.collectionName collection, key)
      let (r, s') := compareAndDelete config readings key expected collection s
      r = .ok .deleted ∧ s'.shown config.keyspace cell = none ∧
        s.shown config.keyspace cell = some expected ∨
      r ≠ .ok .deleted ∧ s' = s
  | _ => True

theorem swaps_iff (expected : Option Revision) (value : Option Bytes) :
    swaps ((expected.map Revision.asBytes).getD []) value = true ↔
      match expected with
      | none => value = none
      | some expected => value.bind tokenOf = some expected := by
  cases value with
  | none =>
      cases expected with
      | none => simp [swaps]
      | some expected => simp [swaps, Revision.asBytes_ne_nil]
  | some value =>
      cases expected with
      | none =>
          have hnot : comparesEqual [] value = false := by
            simp only [comparesEqual, Bool.and_eq_false_iff,
              decide_eq_false_iff_not]
            by_cases hlen : Cas.prefixLen ≤ value.length
            · right
              intro heq
              have hsize := length_luaSub hlen
              rw [← heq] at hsize
              cases hsize
            · exact .inl hlen
          simp [swaps, hnot]
      | some expected => simpa [swaps] using comparesEqual_iff expected value

theorem decides_compareAndSwap (h : WellTyped config.keyspace s) (key : String)
    (expected : Option Revision) (value : Value) (collection : Option String)
    (ttl : Option F64) :
    Decides config readings s
      (.compareAndSwap key expected value collection ttl) := by
  simp only [Decides, compareAndSwap]
  cases henvelope : newEnvelope readings value ttl with
  | error error => exact .inr ⟨fun revision h => (by cases h), rfl⟩
  | ok built =>
      obtain ⟨envelope, revision⟩ := built
      obtain ⟨hfresh, htoken⟩ := fresh_of_newEnvelope henvelope
      obtain ⟨s', heval, -, -, -, hafter⟩ := eval_compareAndSwapScript h
        (config.collectionName collection) key
        ((expected.map Revision.asBytes).getD []) envelope (ttlMilliseconds ttl)
      simp only [invoke, Cas.prefixLen] at heval ⊢
      rw [heval]
      simp only [Except.mapError, Except.bind, decodeCasOutcome_swapReply]
      cases hswaps : swaps ((expected.map Revision.asBytes).getD [])
          (s.value config.keyspace (config.collectionName collection) key) with
      | true =>
          rw [if_pos hswaps] at hafter
          refine .inl ⟨revision, rfl, hfresh, ?_, ?_⟩
          · rw [shown_eq, hafter]
            exact htoken
          · have hwas := (swaps_iff expected _).mp hswaps
            cases expected with
            | none => exact hwas
            | some expected => exact (shown_eq _ _ _ _).trans hwas
      | false =>
          rw [hswaps, if_neg (by simp)] at hafter
          refine .inr ⟨fun revision => ?_, hafter⟩
          simp only [Bool.false_eq_true, if_false]
          cases decodeCurrent readings.decoded (some (conflictSlot
              (s.value config.keyspace (config.collectionName collection)
                key))) <;>
            simp [Except.map]

theorem decides_compareAndDelete (h : WellTyped config.keyspace s)
    (key : String) (expected : Revision) (collection : Option String) :
    Decides config readings s (.compareAndDelete key expected collection) := by
  simp only [Decides, compareAndDelete]
  obtain ⟨s', heval, -, -, -, hafter⟩ := eval_compareAndDeleteScript h
    (config.collectionName collection) key expected.asBytes
  simp only [invoke, Cas.prefixLen] at heval ⊢
  rw [heval]
  simp only [Except.mapError, Except.bind, decodeCadOutcome_removeReply]
  cases hremoves : removes expected.asBytes
      (s.value config.keyspace (config.collectionName collection) key) with
  | true =>
      rw [if_pos hremoves] at hafter
      refine .inl ⟨rfl, ?_, ?_⟩
      · rw [shown_eq, hafter]
        rfl
      · rw [shown_eq]
        cases hvalue : s.value config.keyspace
            (config.collectionName collection) key with
        | none =>
            rw [hvalue] at hremoves
            cases hremoves
        | some value =>
            rw [hvalue] at hremoves
            exact (comparesEqual_iff expected value).mp hremoves
  | false =>
      rw [hremoves, if_neg (by simp)] at hafter
      refine .inr ⟨?_, hafter⟩
      simp only [Bool.false_eq_true, if_false]
      cases decodeCurrent readings.decoded (some (conflictSlot
          (s.value config.keyspace (config.collectionName collection)
            key))) <;>
        simp [Except.map]

theorem decides_run (h : WellTyped config.keyspace s) (call : Call) :
    Decides config readings s call := by
  cases call with
  | put key value collection ttl => trivial
  | delete key collection => trivial
  | compareAndSwap key expected value collection ttl =>
      exact decides_compareAndSwap h key expected value collection ttl
  | compareAndDelete key expected collection =>
      exact decides_compareAndDelete h key expected collection
  | destroyCollection collection scanned => trivial

theorem consumed_run (h : WellTyped config.keyspace s) (call : Call)
    {cell : Cell} {expected : Revision}
    (hconsumed : call.consumed config (call.run config readings s).1 =
      some (cell, expected)) :
    cell = call.cell config ∧ s.shown config.keyspace cell = some expected ∧
      ∀ t, (call.run config readings s).2.shown config.keyspace cell =
        some t → call.fresh readings = some t := by
  have hdecides := @decides_run config readings s h call
  cases call with
  | put key value collection ttl => simp [Call.consumed] at hconsumed
  | delete key collection => simp [Call.consumed] at hconsumed
  | compareAndSwap key expected' value collection ttl =>
      simp only [Call.run, Decides] at hconsumed hdecides ⊢
      generalize compareAndSwap config readings key expected' value collection
        ttl s = outcome at hconsumed hdecides ⊢
      obtain ⟨r, s'⟩ := outcome
      rcases hdecides with ⟨revision, hr, hfresh, hafter, hwas⟩ | ⟨hno, -⟩
      · cases hr
        cases expected' with
        | none => simp [Call.consumed] at hconsumed
        | some expected' =>
            simp only [Call.consumed, Except.map, Option.some.injEq,
              Prod.mk.injEq] at hconsumed
            obtain ⟨rfl, rfl⟩ := hconsumed
            refine ⟨rfl, hwas, fun t ht => ?_⟩
            exact (hfresh.trans hafter.symm).trans ht
      · rcases r with error | ⟨revision⟩ | current
        · cases expected' <;> simp [Call.consumed, Except.map] at hconsumed
        · exact absurd rfl (hno revision)
        · cases expected' <;> simp [Call.consumed, Except.map] at hconsumed
  | compareAndDelete key expected' collection =>
      simp only [Call.run, Decides] at hconsumed hdecides ⊢
      generalize compareAndDelete config readings key expected' collection s =
        outcome at hconsumed hdecides ⊢
      obtain ⟨r, s'⟩ := outcome
      rcases hdecides with ⟨hr, hafter, hwas⟩ | ⟨hno, -⟩
      · cases hr
        simp only [Call.consumed, Except.map, Option.some.injEq,
          Prod.mk.injEq] at hconsumed
        obtain ⟨rfl, rfl⟩ := hconsumed
        refine ⟨rfl, hwas, fun t ht => ?_⟩
        rw [hafter] at ht
        cases ht
      · rcases r with error | _ | current
        · simp [Call.consumed, Except.map] at hconsumed
        · exact absurd rfl hno
        · simp [Call.consumed, Except.map] at hconsumed
  | destroyCollection collection scanned => simp [Call.consumed] at hconsumed

end Calls

/-! ## Runs -/

theorem step_turnover {keyspace : Subspace} {s s' : Server} {label : Label}
    (h : WellTyped keyspace s) (hstep : step keyspace s label = some s') :
    ∃ cell, Turnover (Server.shown keyspace) Label.fresh (consumed keyspace) s
      label s' cell := by
  cases label with
  | call defaultCollection changeRetention readings single =>
      cases hstep
      set config : RedisConfig :=
        ⟨defaultCollection, keyspace, changeRetention⟩ with hconfig
      have hmoves := @moves_run config readings s single
      refine ⟨single.cell config, fun cell hne t ht => ?_, fun t ht => ?_,
        fun p hp => ?_⟩
      · rcases hmoves _ t ht with hwas | ⟨hsame, -⟩
        · exact hwas
        · obtain ⟨hfirst, hsecond⟩ := subspaceCompoundKey_inj.mp hsame
          exact absurd (Prod.ext hfirst hsecond) hne
      · cases hspend : consumed keyspace s
            (.call defaultCollection changeRetention readings single) with
        | none =>
            rcases hmoves _ t ht with hwas | ⟨-, hdrawn⟩
            · exact .inl ⟨hwas, rfl⟩
            · exact .inr hdrawn
        | some p =>
            obtain ⟨hcell, -, hafter⟩ := @consumed_run config readings s h
              single p.1 p.2 hspend
            rw [hcell] at hafter
            exact .inr (hafter t ht)
      · obtain ⟨hcell, hheld, -⟩ := @consumed_run config readings s h single
          p.1 p.2 hp
        rw [← hcell]
        exact ⟨rfl, hheld⟩
  | tick milliseconds =>
      cases hstep
      have hle : s.clock ≤ s.clock + (milliseconds : Int) := by omega
      have hkept : ∀ cell t, Server.shown keyspace
          { s with clock := s.clock + milliseconds } cell = some t →
          s.shown keyspace cell = some t := by
        intro cell t ht
        rw [Server.shown, Server.token, Server.find_tick s _ hle] at ht
        obtain ⟨slot, hslot, ht⟩ := Option.bind_eq_some_iff.mp ht
        obtain ⟨hslot, -⟩ := Option.filter_eq_some_iff.mp hslot
        rw [Server.shown, Server.token, hslot]
        exact ht
      exact ⟨("", ""), fun cell _ t ht => hkept cell t ht,
        fun t ht => .inl ⟨hkept _ t ht, rfl⟩, nofun⟩

/-- A conditional write at a step of a run. -/
def DecidesAt (keyspace : Subspace) (s : Server) : Label → Prop
  | .call defaultCollection changeRetention readings single =>
      Decides ⟨defaultCollection, keyspace, changeRetention⟩ readings s single
  | .tick _ => True

/-- Over every run of the calls of any stores on a keyspace, a conditional
write is applied to the revision that it expects or changes nothing, and each
revision is consumed at most as often as it has been drawn. -/
theorem revisions_consumed_once (keyspace : Subspace) (clock : Int)
    (labels : List Label) :
    Along (step keyspace) (DecidesAt keyspace) (.empty clock) labels ∧
      List.Subperm
        ((seenAlong (step keyspace) (consumed keyspace) (.empty clock)
          labels).map Prod.snd)
        (labels.filterMap Label.fresh) := by
  have htotal : ∀ s label, (step keyspace s label).isSome := by
    intro s label
    cases label <;> rfl
  constructor
  · refine along_of_invariant
      (fun s label s' h _ hstep => step_wellTyped h hstep)
      (fun s label h _ => ?_) (wellTyped_empty keyspace clock)
      (along_true (Server.empty clock) labels)
    cases label with
    | call defaultCollection changeRetention readings single =>
        exact decides_run h single
    | tick milliseconds => trivial
  · exact spent_subperm_drawn
      (fun s label s' h hstep =>
        ⟨step_wellTyped h hstep, step_turnover h hstep⟩)
      htotal (wellTyped_empty keyspace clock) (fun _ => rfl) labels

end OpenKeyV.Redis
