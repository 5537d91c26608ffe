import OpenKeyV.Redis.Scripts

/-!
# The keys of one keyspace

A keyspace has a revision counter, a change stream, a collection registry and
its entries.  The scripts keep each key at its type and the last identifier of
the stream at or below the counter.
-/

namespace OpenKeyV.Redis

open Library Program

section Names

variable (keyspace : Subspace) (collection key : String)

def revisionKey : String := keyspace.scope changeRevisionKey

def streamKey : String := keyspace.scope changeStreamKey

def registryKey : String := keyspace.scope collectionRegistryKey

private theorem scope_ne {a b : String} (h : a ≠ b) :
    keyspace.scope a ≠ keyspace.scope b := by
  intro heq
  have hlist := congrArg String.toList heq
  simp only [Subspace.scope, String.toList_append] at hlist
  exact h (String.toList_injective (List.append_cancel_left hlist))

@[simp] theorem streamKey_ne_revisionKey :
    streamKey keyspace ≠ revisionKey keyspace :=
  scope_ne keyspace (by decide)

@[simp] theorem registryKey_ne_revisionKey :
    registryKey keyspace ≠ revisionKey keyspace :=
  scope_ne keyspace (by decide)

@[simp] theorem registryKey_ne_streamKey :
    registryKey keyspace ≠ streamKey keyspace :=
  scope_ne keyspace (by decide)

@[simp] theorem revisionKey_ne_streamKey :
    revisionKey keyspace ≠ streamKey keyspace :=
  (streamKey_ne_revisionKey keyspace).symm

@[simp] theorem revisionKey_ne_registryKey :
    revisionKey keyspace ≠ registryKey keyspace :=
  (registryKey_ne_revisionKey keyspace).symm

@[simp] theorem streamKey_ne_registryKey :
    streamKey keyspace ≠ registryKey keyspace :=
  (registryKey_ne_streamKey keyspace).symm

@[simp] theorem entryKey_ne_revisionKey :
    subspaceCompoundKey keyspace collection key ≠ revisionKey keyspace :=
  subspaceCompoundKey_ne_scope _ _ _ _ (by decide)

@[simp] theorem entryKey_ne_streamKey :
    subspaceCompoundKey keyspace collection key ≠ streamKey keyspace :=
  subspaceCompoundKey_ne_scope _ _ _ _ (by decide)

@[simp] theorem entryKey_ne_registryKey :
    subspaceCompoundKey keyspace collection key ≠ registryKey keyspace :=
  subspaceCompoundKey_ne_scope _ _ _ _ (by decide)

@[simp] theorem revisionKey_ne_entryKey :
    revisionKey keyspace ≠ subspaceCompoundKey keyspace collection key :=
  (entryKey_ne_revisionKey keyspace collection key).symm

@[simp] theorem streamKey_ne_entryKey :
    streamKey keyspace ≠ subspaceCompoundKey keyspace collection key :=
  (entryKey_ne_streamKey keyspace collection key).symm

@[simp] theorem registryKey_ne_entryKey :
    registryKey keyspace ≠ subspaceCompoundKey keyspace collection key :=
  (entryKey_ne_registryKey keyspace collection key).symm

end Names

def Server.revision (s : Server) (keyspace : Subspace) : Nat :=
  s.counterAt (revisionKey keyspace)

def Server.feed (s : Server) (keyspace : Subspace) : Stream :=
  s.streamAt (streamKey keyspace)

def Server.entry (s : Server) (keyspace : Subspace) (collection key : String) :
    Option Slot :=
  s.find (subspaceCompoundKey keyspace collection key)

structure WellTyped (keyspace : Subspace) (s : Server) : Prop where
  revision : s.HoldsInteger (revisionKey keyspace)
  stream : s.HoldsStream (streamKey keyspace)
  registry : s.HoldsSet (registryKey keyspace)
  entry : ∀ collection key,
    s.HoldsString (subspaceCompoundKey keyspace collection key)
  lastId_le : (s.feed keyspace).lastId.millis ≤ s.revision keyspace
  lastId_sequence : (s.feed keyspace).lastId.sequence = 0

theorem wellTyped_empty (keyspace : Subspace) (clock : Int) :
    WellTyped keyspace (.empty clock) where
  revision := .inl rfl
  stream := .inl rfl
  registry := .inl rfl
  entry := by simp [Server.HoldsString]
  lastId_le := Nat.zero_le _
  lastId_sequence := rfl

/-! ## Views after a write -/

section Views

variable (keyspace : Subspace) (s : Server) (collection key : String)
  (slot : Slot)

@[simp] theorem revision_store_revision (revision : Nat) :
    (s.store (revisionKey keyspace) ⟨.integer revision, none⟩).revision
      keyspace = revision :=
  counterAt_store_integer s _ revision

@[simp] theorem feed_store_revision :
    (s.store (revisionKey keyspace) slot).feed keyspace = s.feed keyspace :=
  streamAt_store s _ _ slot (by simp)

@[simp] theorem entry_store_revision :
    (s.store (revisionKey keyspace) slot).entry keyspace collection key =
      s.entry keyspace collection key := by
  simp [Server.entry]

@[simp] theorem revision_store_stream :
    (s.store (streamKey keyspace) slot).revision keyspace =
      s.revision keyspace :=
  counterAt_store s _ _ slot (by simp)

@[simp] theorem feed_store_stream (stream : Stream) :
    (s.store (streamKey keyspace) ⟨.stream stream, none⟩).feed keyspace =
      stream :=
  streamAt_store_stream s _ stream

@[simp] theorem entry_store_stream :
    (s.store (streamKey keyspace) slot).entry keyspace collection key =
      s.entry keyspace collection key := by
  simp [Server.entry]

@[simp] theorem revision_store_registry :
    (s.store (registryKey keyspace) slot).revision keyspace =
      s.revision keyspace :=
  counterAt_store s _ _ slot (by simp)

@[simp] theorem feed_store_registry :
    (s.store (registryKey keyspace) slot).feed keyspace = s.feed keyspace :=
  streamAt_store s _ _ slot (by simp)

@[simp] theorem entry_store_registry :
    (s.store (registryKey keyspace) slot).entry keyspace collection key =
      s.entry keyspace collection key := by
  simp [Server.entry]

variable (collection' key' : String)

@[simp] theorem revision_store_entry :
    (s.store (subspaceCompoundKey keyspace collection key) slot).revision
      keyspace = s.revision keyspace :=
  counterAt_store s _ _ slot (by simp)

@[simp] theorem feed_store_entry :
    (s.store (subspaceCompoundKey keyspace collection key) slot).feed
      keyspace = s.feed keyspace :=
  streamAt_store s _ _ slot (by simp)

@[simp] theorem revision_remove_entry :
    (s.remove (subspaceCompoundKey keyspace collection key)).revision
      keyspace = s.revision keyspace := by
  simp [Server.revision, Server.counterAt]

@[simp] theorem feed_remove_entry :
    (s.remove (subspaceCompoundKey keyspace collection key)).feed keyspace =
      s.feed keyspace := by
  simp [Server.feed, Server.streamAt]

end Views

/-! ## Writes that keep the types -/

section Writes

variable {keyspace : Subspace} {s : Server}

theorem WellTyped.store_revision (h : WellTyped keyspace s) {revision : Nat}
    (hle : s.revision keyspace ≤ revision) :
    WellTyped keyspace
      (s.store (revisionKey keyspace) ⟨.integer revision, none⟩) where
  revision := .inr ⟨revision, by simp⟩
  stream := by simpa [Server.HoldsStream] using h.stream
  registry := by simpa [Server.HoldsSet] using h.registry
  entry := by simpa [Server.HoldsString] using h.entry
  lastId_le := by simpa using Nat.le_trans h.lastId_le hle
  lastId_sequence := by simpa using h.lastId_sequence

theorem WellTyped.store_stream (h : WellTyped keyspace s) (stream : Stream)
    (hle : stream.lastId.millis ≤ s.revision keyspace)
    (hseq : stream.lastId.sequence = 0) :
    WellTyped keyspace
      (s.store (streamKey keyspace) ⟨.stream stream, none⟩) where
  revision := by simpa [Server.HoldsInteger] using h.revision
  stream := .inr ⟨stream, by simp⟩
  registry := by simpa [Server.HoldsSet] using h.registry
  entry := by simpa [Server.HoldsString] using h.entry
  lastId_le := by simpa using hle
  lastId_sequence := by simpa using hseq

theorem WellTyped.store_registry (h : WellTyped keyspace s)
    (members : List String) :
    WellTyped keyspace
      (s.store (registryKey keyspace) ⟨.set members, none⟩) where
  revision := by simpa [Server.HoldsInteger] using h.revision
  stream := by simpa [Server.HoldsStream] using h.stream
  registry := .inr ⟨members, by simp⟩
  entry := by simpa [Server.HoldsString] using h.entry
  lastId_le := by simpa using h.lastId_le
  lastId_sequence := by simpa using h.lastId_sequence

theorem WellTyped.store_entry (h : WellTyped keyspace s)
    (collection key : String) (bytes : Bytes) (deadline : Option Int) :
    WellTyped keyspace (s.store (subspaceCompoundKey keyspace collection key)
      ⟨.string bytes, deadline⟩) where
  revision := by simpa [Server.HoldsInteger] using h.revision
  stream := by simpa [Server.HoldsStream] using h.stream
  registry := by simpa [Server.HoldsSet] using h.registry
  entry := by
    intro collection' key' slot hslot
    rw [Server.find_store] at hslot
    split at hslot
    · obtain ⟨hslot, -⟩ := Option.filter_eq_some_iff.mp hslot
      exact ⟨bytes, by rw [← Option.some.inj hslot]⟩
    · exact h.entry collection' key' slot hslot
  lastId_le := by simpa using h.lastId_le
  lastId_sequence := by simpa using h.lastId_sequence

theorem WellTyped.remove_entry (h : WellTyped keyspace s)
    (collection key : String) :
    WellTyped keyspace
      (s.remove (subspaceCompoundKey keyspace collection key)) where
  revision := by simpa [Server.HoldsInteger] using h.revision
  stream := by simpa [Server.HoldsStream] using h.stream
  registry := by simpa [Server.HoldsSet] using h.registry
  entry := by
    intro collection' key' slot hslot
    rw [Server.find_remove] at hslot
    split at hslot
    · cases hslot
    · exact h.entry collection' key' slot hslot
  lastId_le := by simpa using h.lastId_le
  lastId_sequence := by simpa using h.lastId_sequence

private theorem find_tick_permanent {key : String} {clock : Int}
    (hle : s.clock ≤ clock)
    (h : s.find key = none ∨ ∃ datum, s.find key = some ⟨datum, none⟩) :
    Server.find { s with clock := clock } key = s.find key := by
  rw [Server.find_tick s key hle]
  rcases h with h | ⟨datum, h⟩ <;> simp [h]

theorem WellTyped.permanent (h : WellTyped keyspace s) {clock : Int}
    (hle : s.clock ≤ clock) :
    Server.find { s with clock := clock } (revisionKey keyspace) =
        s.find (revisionKey keyspace) ∧
      Server.find { s with clock := clock } (streamKey keyspace) =
        s.find (streamKey keyspace) ∧
      Server.find { s with clock := clock } (registryKey keyspace) =
        s.find (registryKey keyspace) := by
  refine ⟨find_tick_permanent hle ?_, find_tick_permanent hle ?_,
    find_tick_permanent hle ?_⟩
  · exact h.revision.imp id fun ⟨value, hvalue⟩ => ⟨_, hvalue⟩
  · exact h.stream.imp id fun ⟨stream, hstream⟩ => ⟨_, hstream⟩
  · exact h.registry.imp id fun ⟨members, hmembers⟩ => ⟨_, hmembers⟩

theorem WellTyped.revision_tick (h : WellTyped keyspace s) {clock : Int}
    (hle : s.clock ≤ clock) :
    Server.revision { s with clock := clock } keyspace =
      s.revision keyspace := by
  simp only [Server.revision, Server.counterAt, (h.permanent hle).1]

theorem WellTyped.feed_tick (h : WellTyped keyspace s) {clock : Int}
    (hle : s.clock ≤ clock) :
    Server.feed { s with clock := clock } keyspace = s.feed keyspace := by
  simp only [Server.feed, Server.streamAt, (h.permanent hle).2.1]

theorem WellTyped.tick (h : WellTyped keyspace s) {clock : Int}
    (hle : s.clock ≤ clock) : WellTyped keyspace { s with clock := clock } := by
  obtain ⟨hrevision, hstream, hregistry⟩ := h.permanent hle
  refine ⟨?_, ?_, ?_, ?_, ?_, ?_⟩
  · simpa only [Server.HoldsInteger, hrevision] using h.revision
  · simpa only [Server.HoldsStream, hstream] using h.stream
  · simpa only [Server.HoldsSet, hregistry] using h.registry
  · intro collection key slot hslot
    rw [Server.find_tick s _ hle] at hslot
    exact h.entry collection key slot (Option.filter_eq_some_iff.mp hslot).1
  · rw [h.revision_tick hle, h.feed_tick hle]
    exact h.lastId_le
  · rw [h.feed_tick hle]
    exact h.lastId_sequence

end Writes

/-! ## The scripts on a keyspace -/

/-- `XADD` takes the identifier and the `MAXLEN` argument. -/
def Accepts (retention revision : Nat) : Prop :=
  revision < 10 ^ 14 ∧ retention < 2 ^ 63

/-- What a script that allocates a revision leaves of counter and feed.  The
last argument says whether it returned a value. -/
inductive Allocates (keyspace : Subspace) (retention : Nat)
    (entry : Nat → StreamEntry) (s s' : Server) : Bool → Prop where
  | overflow : s.revision keyspace = 2 ^ 63 - 1 →
      s'.revision keyspace = s.revision keyspace →
      s'.feed keyspace = s.feed keyspace →
      Allocates keyspace retention entry s s' false
  | disabled : retention = 0 →
      s'.revision keyspace = s.revision keyspace + 1 →
      s'.feed keyspace = s.feed keyspace →
      Allocates keyspace retention entry s s' true
  | refused : 0 < retention →
      ¬ Accepts retention (s.revision keyspace + 1) →
      s'.revision keyspace = s.revision keyspace + 1 →
      s'.feed keyspace = s.feed keyspace →
      Allocates keyspace retention entry s s' false
  | recorded : 0 < retention →
      Accepts retention (s.revision keyspace + 1) →
      s'.revision keyspace = s.revision keyspace + 1 →
      s'.feed keyspace = (s.feed keyspace).push retention
        (entry (s.revision keyspace + 1)) →
      Allocates keyspace retention entry s s' true

section Scripts

variable {keyspace : Subspace} {s : Server}

private theorem eval_xadd_change (h : WellTyped keyspace s)
    (hfresh : (s.feed keyspace).lastId.millis < s.revision keyspace)
    (retention : Nat) (collection key : String) (operation : ChangeOperation)
    (occurredAt : String) :
    ∃ r s', eval (xadd (streamKey keyspace) retention
          (ChangeId.streamId? ⟨s.revision keyspace⟩)
          (changeFields (s.revision keyspace) collection key operation
            occurredAt)) s = (r, s') ∧
      WellTyped keyspace s' ∧
      s'.revision keyspace = s.revision keyspace ∧
      (∀ c k, s'.entry keyspace c k = s.entry keyspace c k) ∧
      (Accepts retention (s.revision keyspace) ∧ r = .ok () ∧
          s'.feed keyspace = (s.feed keyspace).push retention
            (changeEntry (s.revision keyspace) collection key operation
              occurredAt) ∨
        ¬ Accepts retention (s.revision keyspace) ∧
          s'.feed keyspace = s.feed keyspace ∧ ∃ error, r = .error error) := by
  by_cases haccepts : Accepts retention (s.revision keyspace)
  · obtain ⟨hrevision, hretention⟩ := haccepts
    have hid : (s.streamAt (streamKey keyspace)).lastId.lt
        ⟨s.revision keyspace, 0⟩ = true := by
      simp only [StreamId.lt, Bool.or_eq_true, decide_eq_true_eq]
      exact .inl hfresh
    have heval := eval_xadd h.stream retention ⟨s.revision keyspace, 0⟩
      (changeFields (s.revision keyspace) collection key operation occurredAt)
      hretention hid
    refine ⟨.ok (), _, ?_, h.store_stream ((s.feed keyspace).push
      retention (changeEntry (s.revision keyspace) collection key operation
        occurredAt)) (Nat.le_refl _) rfl, by simp, by simp, ?_⟩
    · rw [ChangeId.streamId?, if_pos hrevision]
      exact heval
    · exact .inl ⟨⟨hrevision, hretention⟩, rfl, by simp⟩
  · have hrefused : ChangeId.streamId? ⟨s.revision keyspace⟩ = none ∨
        2 ^ 63 ≤ retention := by
      unfold Accepts at haccepts
      by_cases hrevision : s.revision keyspace < 10 ^ 14
      · exact .inr (by omega)
      · exact .inl (if_neg hrevision)
    obtain ⟨error, heval⟩ := eval_xadd_refused h.stream retention _
      (changeFields (s.revision keyspace) collection key operation occurredAt)
      hrefused
    exact ⟨_, s, heval, h, rfl, fun _ _ => rfl,
      .inr ⟨haccepts, rfl, error, rfl⟩⟩

def writtenSlot (clock : Int) (envelope : Bytes) (milliseconds : Nat) : Slot :=
  ⟨.string envelope,
    if milliseconds = 0 then none else some (clock + milliseconds)⟩

private theorem eval_writeEnvelope (h : WellTyped keyspace s)
    (collection key : String) (envelope : Bytes) (milliseconds : Nat) :
    ∃ s', eval (writeEnvelope (subspaceCompoundKey keyspace collection key)
        envelope milliseconds) s = (.ok (), s') ∧
      WellTyped keyspace s' ∧
      s'.revision keyspace = s.revision keyspace ∧
      s'.feed keyspace = s.feed keyspace ∧
      s'.entry keyspace collection key =
        some (writtenSlot s.clock envelope milliseconds) := by
  unfold writeEnvelope writtenSlot
  split
  · exact ⟨_, rfl, h.store_entry _ _ _ _, by simp, by simp,
      by simp [Server.entry]⟩
  · have hlive : s.clock ≤ s.clock + (milliseconds : Int) := by omega
    exact ⟨_, rfl, h.store_entry _ _ _ _, by simp, by simp,
      by simp [Server.entry, Slot.live, Option.filter, hlive]⟩

private theorem eval_sadd_registry (h : WellTyped keyspace s)
    (collection : String) :
    ∃ s', eval (sadd (registryKey keyspace) collection) s = (.ok (), s') ∧
      WellTyped keyspace s' ∧
      s'.revision keyspace = s.revision keyspace ∧
      s'.feed keyspace = s.feed keyspace ∧
      ∀ c k, s'.entry keyspace c k = s.entry keyspace c k := by
  obtain ⟨members, heval⟩ := eval_sadd h.registry collection
  exact ⟨_, heval, h.store_registry members, by simp, by simp, by simp⟩

private theorem eval_incr_revision (h : WellTyped keyspace s) :
    (s.revision keyspace = 2 ^ 63 - 1 ∧
        ∃ error, eval (incr (revisionKey keyspace)) s = (.error error, s)) ∨
      ∃ s', eval (incr (revisionKey keyspace)) s =
          (.ok (s.revision keyspace + 1), s') ∧
        WellTyped keyspace s' ∧
        s'.revision keyspace = s.revision keyspace + 1 ∧
        s'.feed keyspace = s.feed keyspace ∧
        s.revision keyspace ≠ 2 ^ 63 - 1 ∧ s'.clock = s.clock ∧
        ∀ c k, s'.entry keyspace c k = s.entry keyspace c k := by
  have heval := eval_incr h.revision
  by_cases hmax : s.counterAt (revisionKey keyspace) = 2 ^ 63 - 1
  · rw [if_pos hmax] at heval
    exact .inl ⟨hmax, _, heval⟩
  · rw [if_neg hmax] at heval
    exact .inr ⟨_, heval, h.store_revision (Nat.le_succ _),
      revision_store_revision _ _ _, by simp, hmax, rfl, by simp⟩

private theorem eval_appendChange (h : WellTyped keyspace s)
    (hfresh : (s.feed keyspace).lastId.millis < s.revision keyspace)
    (retention : Nat) (collection key : String) (operation : ChangeOperation)
    (occurredAt : String) :
    ∃ r s', eval (appendChange (streamKey keyspace) retention
          (s.revision keyspace) collection key operation occurredAt) s =
        (r, s') ∧
      WellTyped keyspace s' ∧
      s'.revision keyspace = s.revision keyspace ∧
      (∀ c k, s'.entry keyspace c k = s.entry keyspace c k) ∧
      (retention = 0 ∧ r = .ok () ∧ s'.feed keyspace = s.feed keyspace ∨
        0 < retention ∧ Accepts retention (s.revision keyspace) ∧
          r = .ok () ∧
          s'.feed keyspace = (s.feed keyspace).push retention
            (changeEntry (s.revision keyspace) collection key operation
              occurredAt) ∨
        0 < retention ∧ ¬ Accepts retention (s.revision keyspace) ∧
          s'.feed keyspace = s.feed keyspace ∧ ∃ error, r = .error error) := by
  unfold appendChange
  by_cases hretention : 0 < retention
  · rw [if_pos hretention]
    obtain ⟨r, s', heval, hwt, hrev, hentry, houtcome⟩ :=
      eval_xadd_change h hfresh retention collection key operation occurredAt
    refine ⟨r, s', heval, hwt, hrev, hentry, .inr ?_⟩
    exact houtcome.imp (fun h => ⟨hretention, h⟩) (fun h => ⟨hretention, h⟩)
  · rw [if_neg hretention]
    exact ⟨_, s, rfl, h, rfl, fun _ _ => rfl, .inl ⟨by omega, rfl, rfl⟩⟩

theorem eval_putChangeScript (h : WellTyped keyspace s)
    (envelope : Bytes) (milliseconds : Nat) (collection key : String)
    (occurredAt : String) (retention : Nat) :
    ∃ r s', eval (putChangeScript
          (subspaceCompoundKey keyspace collection key) (revisionKey keyspace)
          (streamKey keyspace) (registryKey keyspace) envelope milliseconds
          collection key occurredAt retention) s = (r, s') ∧
      WellTyped keyspace s' ∧
      Allocates keyspace retention
        (fun revision => changeEntry revision collection key .put occurredAt)
        s s' r.isOk ∧
      s'.entry keyspace collection key =
        if s.revision keyspace = 2 ^ 63 - 1 then
          s.entry keyspace collection key
        else some (writtenSlot s.clock envelope milliseconds) := by
  simp only [putChangeScript, eval_bind]
  rcases eval_incr_revision h with ⟨hmax, error, heval⟩ |
    ⟨s₁, heval, hwt₁, hrev₁, hfeed₁, hroom, hclock₁, -⟩ <;> rw [heval]
  · exact ⟨_, s, rfl, h, .overflow hmax rfl rfl, (if_pos hmax).symm⟩
  rw [if_neg hroom, ← hclock₁]
  obtain ⟨s₂, heval, hwt₂, hrev₂, hfeed₂, hentry₂⟩ :=
    eval_writeEnvelope hwt₁ collection key envelope milliseconds
  simp only [resume_ok, eval_bind, heval]
  obtain ⟨s₃, heval, hwt₃, hrev₃, hfeed₃, hentry₃⟩ :=
    eval_sadd_registry hwt₂ collection
  simp only [resume_ok, eval_bind, heval]
  have hrev : s₃.revision keyspace = s.revision keyspace + 1 := by omega
  have hfeed : s₃.feed keyspace = s.feed keyspace := by
    rw [hfeed₃, hfeed₂, hfeed₁]
  have hfresh : (s₃.feed keyspace).lastId.millis < s₃.revision keyspace := by
    rw [hfeed, hrev]
    exact Nat.lt_succ_of_le h.lastId_le
  obtain ⟨r, s₄, heval, hwt₄, hrev₄, hentry₄, houtcome⟩ :=
    eval_appendChange hwt₃ hfresh retention collection key .put occurredAt
  have hentry : s₄.entry keyspace collection key =
      some (writtenSlot s₁.clock envelope milliseconds) := by
    rw [hentry₄, hentry₃, hentry₂]
  rw [← hrev, heval]
  rw [hrev] at houtcome hrev₄
  rw [hfeed] at houtcome
  rcases houtcome with ⟨hret, rfl, hfeed₄⟩ | ⟨hret, hacc, rfl, hfeed₄⟩ |
    ⟨hret, hacc, hfeed₄, error, rfl⟩
  · exact ⟨_, s₄, rfl, hwt₄, .disabled hret hrev₄ hfeed₄, hentry⟩
  · exact ⟨_, s₄, rfl, hwt₄, .recorded hret hacc hrev₄ hfeed₄, hentry⟩
  · exact ⟨_, s₄, rfl, hwt₄, .refused hret hacc hrev₄ hfeed₄, hentry⟩

theorem eval_deleteChangeScript (h : WellTyped keyspace s)
    (collection key : String) (retention : Nat) (occurredAt : String) :
    ∃ r s', eval (deleteChangeScript
          (subspaceCompoundKey keyspace collection key) (revisionKey keyspace)
          (streamKey keyspace) collection key retention occurredAt) s =
        (r, s') ∧
      WellTyped keyspace s' ∧
      (s' = s ∧ r = .ok none ∧ s.entry keyspace collection key = none ∨
        Allocates keyspace retention
            (fun revision =>
              changeEntry revision collection key .delete occurredAt)
            s s' r.isOk ∧
          r ≠ .ok none ∧ (s.entry keyspace collection key).isSome ∧
          s'.entry keyspace collection key = none) := by
  simp only [deleteChangeScript, eval_bind, existsKey, eval_ofFn, resume_ok]
  cases hpresent : (s.find (subspaceCompoundKey keyspace collection key)).isSome with
  | false =>
      exact ⟨_, s, rfl, h, .inl ⟨rfl, rfl,
        Option.not_isSome_iff_eq_none.mp (Bool.eq_false_iff.mp hpresent)⟩⟩
  | true =>
      have hwt₀ := h.remove_entry collection key
      set s₀ := s.remove (subspaceCompoundKey keyspace collection key) with hs₀
      have hrev₀ : s₀.revision keyspace = s.revision keyspace := by simp [hs₀]
      have hfeed₀ : s₀.feed keyspace = s.feed keyspace := by simp [hs₀]
      have hgone₀ : s₀.entry keyspace collection key = none := by
        simp [hs₀, Server.entry]
      simp only [if_true, eval_bind, del, eval_ofFn, resume_ok, ← hs₀]
      rcases eval_incr_revision hwt₀ with ⟨hmax, error, heval⟩ |
        ⟨s₁, heval, hwt₁, hrev₁, hfeed₁, -, -, hentry₁⟩ <;> rw [heval]
      · exact ⟨_, s₀, rfl, hwt₀, .inr ⟨.overflow (hrev₀ ▸ hmax) hrev₀ hfeed₀,
          by simp, hpresent, hgone₀⟩⟩
      simp only [resume_ok, eval_bind]
      have hfresh : (s₁.feed keyspace).lastId.millis < s₁.revision keyspace := by
        rw [hfeed₁, hrev₁]
        exact Nat.lt_succ_of_le hwt₀.lastId_le
      obtain ⟨r, s₂, heval, hwt₂, hrev₂, hentry₂, houtcome⟩ :=
        eval_appendChange hwt₁ hfresh retention collection key .delete
          occurredAt
      have hgone₂ : s₂.entry keyspace collection key = none := by
        rw [hentry₂, hentry₁, hgone₀]
      rw [← hrev₁, heval]
      rw [hrev₁, hrev₀] at houtcome hrev₂
      rw [hfeed₁, hfeed₀] at houtcome
      rcases houtcome with ⟨hret, rfl, hfeed₂⟩ | ⟨hret, hacc, rfl, hfeed₂⟩ |
        ⟨hret, hacc, hfeed₂, error, rfl⟩
      · exact ⟨_, s₂, rfl, hwt₂, .inr ⟨.disabled hret hrev₂ hfeed₂, by simp,
          hpresent, hgone₂⟩⟩
      · exact ⟨_, s₂, rfl, hwt₂, .inr ⟨.recorded hret hacc hrev₂ hfeed₂,
          by simp, hpresent, hgone₂⟩⟩
      · exact ⟨_, s₂, rfl, hwt₂, .inr ⟨.refused hret hacc hrev₂ hfeed₂,
          by simp, hpresent, hgone₂⟩⟩

theorem entry_remove (s : Server) (keyspace : Subspace)
    (collection key key' : String) :
    (s.remove (subspaceCompoundKey keyspace collection key)).entry keyspace
        collection key' =
      if key' = key then none else s.entry keyspace collection key' := by
  have hinj : subspaceCompoundKey keyspace collection key' =
      subspaceCompoundKey keyspace collection key ↔ key' = key := by
    refine ⟨fun heq => ?_, fun heq => heq ▸ rfl⟩
    have hlist := congrArg String.toList heq
    simp only [subspaceCompoundKey, Subspace.scope, compoundKey,
      String.toList_append] at hlist
    exact String.toList_injective
      (List.append_cancel_left (List.append_cancel_left hlist))
  simp only [Server.entry, Server.find_remove, hinj]

theorem eval_bulkRemove (h : WellTyped keyspace s) (collection key : String)
    (retention : Nat) (occurredAt : String) :
    ∃ r s', eval (bulkRemove (subspaceCompoundKey keyspace collection key)
          (revisionKey keyspace) (streamKey keyspace) retention collection
          occurredAt key) s = (r, s') ∧
      WellTyped keyspace s' ∧
      (∀ key', s'.entry keyspace collection key' =
        if key' = key then none else s.entry keyspace collection key') ∧
      (retention = 0 ∧ r = .ok () ∧
          s'.revision keyspace = s.revision keyspace ∧
          s'.feed keyspace = s.feed keyspace ∨
        0 < retention ∧ Allocates keyspace retention
          (fun revision =>
            changeEntry revision collection key .delete occurredAt)
          s s' r.isOk) := by
  have hwt₀ := h.remove_entry collection key
  have hentry₀ := entry_remove s keyspace collection key
  simp only [bulkRemove, eval_bind, del, eval_ofFn, resume_ok]
  set s₀ := s.remove (subspaceCompoundKey keyspace collection key) with hs₀
  have hrev₀ : s₀.revision keyspace = s.revision keyspace := by simp [hs₀]
  have hfeed₀ : s₀.feed keyspace = s.feed keyspace := by simp [hs₀]
  by_cases hretention : 0 < retention
  · rw [if_pos hretention, eval_bind]
    rcases eval_incr_revision hwt₀ with ⟨hmax, error, heval⟩ |
      ⟨s₁, heval, hwt₁, hrev₁, hfeed₁, -, -, hentry₁⟩ <;> rw [heval]
    · exact ⟨_, s₀, rfl, hwt₀, hentry₀,
        .inr ⟨hretention, .overflow (hrev₀ ▸ hmax) hrev₀ hfeed₀⟩⟩
    have hfresh : (s₁.feed keyspace).lastId.millis < s₁.revision keyspace := by
      rw [hfeed₁, hrev₁]
      exact Nat.lt_succ_of_le hwt₀.lastId_le
    obtain ⟨r, s₂, heval, hwt₂, hrev₂, hentry₂, houtcome⟩ :=
      eval_xadd_change hwt₁ hfresh retention collection key .delete occurredAt
    rw [resume_ok, ← hrev₁, heval]
    rw [hrev₁, hrev₀] at houtcome hrev₂
    rw [hfeed₁, hfeed₀] at houtcome
    refine ⟨r, s₂, rfl, hwt₂, fun key' => ?_, .inr ⟨hretention, ?_⟩⟩
    · rw [hentry₂, hentry₁, hentry₀]
    · rcases houtcome with ⟨hacc, rfl, hfeed₂⟩ | ⟨hacc, hfeed₂, error, rfl⟩
      · exact .recorded hretention hacc hrev₂ hfeed₂
      · exact .refused hretention hacc hrev₂ hfeed₂
  · rw [if_neg hretention]
    exact ⟨_, s₀, rfl, hwt₀, hentry₀, .inl ⟨by omega, rfl, hrev₀, hfeed₀⟩⟩

/-- What holds of counter and feed before the bulk delete script, and is kept
by each of its steps, holds behind it. -/
theorem bulkDelete_invariant (collection : String) (retention : Nat)
    (occurredAt : String)
    {P : Server → Prop} (hstep : ∀ s s' key ok, P s →
      s'.revision keyspace = s.revision keyspace ∧
          s'.feed keyspace = s.feed keyspace ∨
        Allocates keyspace retention
          (fun revision => changeEntry revision collection key .delete
            occurredAt) s s' ok → P s') :
    ∀ (keys : List String) (removed : Nat) (s : Server),
      WellTyped keyspace s → P s →
      WellTyped keyspace (eval (bulkDeleteChangeScript (revisionKey keyspace)
          (streamKey keyspace) retention collection occurredAt
          (keys.map fun key =>
            (subspaceCompoundKey keyspace collection key, key)) removed) s).2 ∧
        P (eval (bulkDeleteChangeScript (revisionKey keyspace)
          (streamKey keyspace) retention collection occurredAt
          (keys.map fun key =>
            (subspaceCompoundKey keyspace collection key, key)) removed) s).2
  | [], removed, s, h, hP => ⟨h, hP⟩
  | key :: keys, removed, s, h, hP => by
      simp only [List.map_cons, bulkDeleteChangeScript, eval_bind, existsKey,
        eval_ofFn, resume_ok]
      cases hpresent : (s.find
          (subspaceCompoundKey keyspace collection key)).isSome with
      | false =>
          exact bulkDelete_invariant collection retention occurredAt hstep
            keys removed s h hP
      | true =>
          obtain ⟨r, s', heval, hwt, -, houtcome⟩ :=
            eval_bulkRemove h collection key retention occurredAt
          have hP' : P s' := by
            refine hstep s s' key r.isOk hP ?_
            rcases houtcome with ⟨-, -, hrev, hfeed⟩ | ⟨-, hallocates⟩
            · exact .inl ⟨hrev, hfeed⟩
            · exact .inr hallocates
          simp only [if_true, eval_bind, heval]
          cases r with
          | error error => exact ⟨hwt, hP'⟩
          | ok value =>
              exact bulkDelete_invariant collection retention occurredAt
                hstep keys (removed + 1) s' hwt hP'

/-! ## The conditional scripts -/

def Server.value (s : Server) (keyspace : Subspace) (collection key : String) :
    Option Bytes :=
  match s.entry keyspace collection key with
  | some ⟨.string bytes, _⟩ => some bytes
  | _ => none

theorem eval_get_entry (h : WellTyped keyspace s) (collection key : String) :
    eval (get (subspaceCompoundKey keyspace collection key)) s =
      (.ok (s.value keyspace collection key), s) := by
  cases hslot : s.entry keyspace collection key with
  | none =>
      have hfind : s.find (subspaceCompoundKey keyspace collection key) =
        none := hslot
      simp [get, Server.value, hslot, hfind]
  | some slot =>
      obtain ⟨bytes, hbytes⟩ := h.entry collection key slot hslot
      obtain ⟨datum, deadline⟩ := slot
      obtain rfl : datum = .string bytes := hbytes
      have hfind : s.find (subspaceCompoundKey keyspace collection key) =
        some ⟨.string bytes, deadline⟩ := hslot
      simp [get, Server.value, hslot, hfind]

/-- Whether the comparison of a conditional script succeeds on a stored
value. -/
def comparesEqual (expected value : Bytes) : Bool :=
  decide (Cas.prefixLen ≤ value.length) &&
    decide (expected = luaSub value 6 Cas.prefixLen)

def conflictSlot : Option Bytes → RedisValue
  | none => .nil
  | some value =>
      if value.length < Cas.prefixLen then .nil else .bulkString value

def swaps (expected : Bytes) : Option Bytes → Bool
  | none => decide (expected = [])
  | some value => comparesEqual expected value

def swapReply (expected : Bytes) (value : Option Bytes) : List RedisValue :=
  if swaps expected value then [.int 1, .bulkString []]
  else [.int 0, conflictSlot value]

private theorem eval_swap (h : WellTyped keyspace s) (collection key : String)
    (envelope : Bytes) (milliseconds : Nat) :
    ∃ s', eval (do
          writeEnvelope (subspaceCompoundKey keyspace collection key) envelope
            milliseconds
          sadd (registryKey keyspace) collection
          return [RedisValue.int 1, .bulkString []]) s =
        (.ok [.int 1, .bulkString []], s') ∧
      WellTyped keyspace s' ∧
      s'.revision keyspace = s.revision keyspace ∧
      s'.feed keyspace = s.feed keyspace ∧
      s'.value keyspace collection key = some envelope := by
  obtain ⟨s₁, heval₁, hwt₁, hrev₁, hfeed₁, hentry₁⟩ :=
    eval_writeEnvelope h collection key envelope milliseconds
  obtain ⟨s₂, heval₂, hwt₂, hrev₂, hfeed₂, hentry₂⟩ :=
    eval_sadd_registry hwt₁ collection
  refine ⟨s₂, ?_, hwt₂, hrev₂.trans hrev₁, hfeed₂.trans hfeed₁, ?_⟩
  · simp only [eval_bind, heval₁, resume_ok, heval₂]
    rfl
  · simp only [Server.value, hentry₂, hentry₁, writtenSlot]

theorem eval_compareAndSwapScript (h : WellTyped keyspace s)
    (collection key : String) (expected envelope : Bytes)
    (milliseconds : Nat) :
    ∃ s', eval (compareAndSwapScript
          (subspaceCompoundKey keyspace collection key) (registryKey keyspace)
          expected envelope milliseconds Cas.prefixLen collection) s =
        (.ok (swapReply expected (s.value keyspace collection key)), s') ∧
      WellTyped keyspace s' ∧
      s'.revision keyspace = s.revision keyspace ∧
      s'.feed keyspace = s.feed keyspace ∧
      if swaps expected (s.value keyspace collection key) then
        s'.value keyspace collection key = some envelope
      else s' = s := by
  obtain ⟨s', heval, hwt, hrev, hfeed, hvalue⟩ :=
    eval_swap h collection key envelope milliseconds
  simp only [compareAndSwapScript, eval_bind, eval_get_entry h, resume_ok]
  cases hget : s.value keyspace collection key with
  | none =>
      by_cases hexpected : expected = []
      · refine ⟨s', ?_, hwt, hrev, hfeed, by simpa [swaps, hexpected] using hvalue⟩
        simpa [swapReply, swaps, hexpected] using heval
      · refine ⟨s, ?_, h, rfl, rfl, by simp [swaps, hexpected]⟩
        simp [swapReply, swaps, hexpected, conflictSlot]
  | some value =>
      by_cases hlen : value.length < Cas.prefixLen
      · have hno : comparesEqual expected value = false := by
          simp [comparesEqual, Nat.not_le_of_lt hlen]
        refine ⟨s, ?_, h, rfl, rfl, by simp [swaps, hno]⟩
        simp [swapReply, swaps, hno, conflictSlot, hlen]
      · by_cases hexpected : expected = luaSub value 6 Cas.prefixLen
        · have hyes : comparesEqual expected value = true := by
            simp [comparesEqual, ← hexpected, Nat.not_lt.mp hlen]
          refine ⟨s', ?_, hwt, hrev, hfeed, by simpa [swaps, hyes] using hvalue⟩
          simpa [swapReply, swaps, hyes, hlen, ← hexpected] using heval
        · have hno : comparesEqual expected value = false := by
            simp [comparesEqual, hexpected]
          refine ⟨s, ?_, h, rfl, rfl, by simp [swaps, hno]⟩
          simp [swapReply, swaps, hno, conflictSlot, hlen, hexpected]

def removes (expected : Bytes) (value : Option Bytes) : Bool :=
  (value.map (comparesEqual expected)).getD false

def removeReply (expected : Bytes) (value : Option Bytes) : List RedisValue :=
  if removes expected value then [.int 1, .bulkString []]
  else [.int 0, conflictSlot value]

theorem eval_compareAndDeleteScript (h : WellTyped keyspace s)
    (collection key : String) (expected : Bytes) :
    ∃ s', eval (compareAndDeleteScript
          (subspaceCompoundKey keyspace collection key) expected
          Cas.prefixLen) s =
        (.ok (removeReply expected (s.value keyspace collection key)), s') ∧
      WellTyped keyspace s' ∧
      s'.revision keyspace = s.revision keyspace ∧
      s'.feed keyspace = s.feed keyspace ∧
      if removes expected (s.value keyspace collection key) then
        s'.value keyspace collection key = none
      else s' = s := by
  simp only [compareAndDeleteScript, eval_bind, eval_get_entry h, resume_ok]
  cases hget : s.value keyspace collection key with
  | none => exact ⟨s, rfl, h, rfl, rfl, by simp [removes]⟩
  | some value =>
      by_cases hlen : value.length < Cas.prefixLen
      · have hno : comparesEqual expected value = false := by
          simp [comparesEqual, Nat.not_le_of_lt hlen]
        refine ⟨s, ?_, h, rfl, rfl, by simp [removes, hno]⟩
        simp [removeReply, removes, hno, conflictSlot, hlen]
      · by_cases hexpected : expected = luaSub value 6 Cas.prefixLen
        · have hyes : comparesEqual expected value = true := by
            simp [comparesEqual, ← hexpected, Nat.not_lt.mp hlen]
          refine ⟨_, ?_, h.remove_entry collection key, by simp, by simp, ?_⟩
          · simp [removeReply, removes, hyes, hlen, ← hexpected, del]
            rfl
          · simp [removes, hyes, Server.value, entry_remove]
        · have hno : comparesEqual expected value = false := by
            simp [comparesEqual, hexpected]
          refine ⟨s, ?_, h, rfl, rfl, by simp [removes, hno]⟩
          simp [removeReply, removes, hno, conflictSlot, hlen, hexpected]

end Scripts

end OpenKeyV.Redis
