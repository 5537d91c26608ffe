import OpenKeyV.Redis.Isolation
import OpenKeyV.Redis.Completeness

/-!
# What stores leave in a keyspace

Every command of a store keeps each key of its keyspace at its type.  This
holds for any order of the commands of any number of stores, `destroy` among
them, which may leave a stream whose counter is gone.
-/

namespace OpenKeyV.Redis

open Library Program

structure Fitting (keyspace : Subspace) (key : String) (slot : Slot) :
    Prop where
  revision : key = revisionKey keyspace →
    ∃ value, slot = ⟨.integer value, none⟩
  stream : key = streamKey keyspace → ∃ stream, slot = ⟨.stream stream, none⟩
  registry : key = registryKey keyspace →
    ∃ members, slot = ⟨.set members, none⟩
  entry : ∀ collection name,
    key = subspaceCompoundKey keyspace collection name →
      ∃ bytes, slot.datum = .string bytes

def Typed (keyspace : Subspace) (s : Server) : Prop :=
  ∀ key slot, s.find key = some slot → Fitting keyspace key slot

section Fitting

variable (keyspace : Subspace)

theorem fitting_revision (value : Nat) :
    Fitting keyspace (revisionKey keyspace) ⟨.integer value, none⟩ :=
  ⟨fun _ => ⟨value, rfl⟩, fun h => by simp at h, fun h => by simp at h,
    fun c k h => by simp at h⟩

theorem fitting_stream (stream : Stream) :
    Fitting keyspace (streamKey keyspace) ⟨.stream stream, none⟩ :=
  ⟨fun h => by simp at h, fun _ => ⟨stream, rfl⟩, fun h => by simp at h,
    fun c k h => by simp at h⟩

theorem fitting_registry (members : List String) :
    Fitting keyspace (registryKey keyspace) ⟨.set members, none⟩ :=
  ⟨fun h => by simp at h, fun h => by simp at h, fun _ => ⟨members, rfl⟩,
    fun c k h => by simp at h⟩

theorem fitting_entry (collection key : String) (bytes : Bytes)
    (deadline : Option Int) :
    Fitting keyspace (subspaceCompoundKey keyspace collection key)
      ⟨.string bytes, deadline⟩ :=
  ⟨fun h => by simp at h, fun h => by simp at h, fun h => by simp at h,
    fun _ _ _ => ⟨bytes, rfl⟩⟩

end Fitting

section Typed

variable {keyspace : Subspace} {s : Server} {key : String} {slot : Slot}

theorem typed_empty (clock : Int) : Typed keyspace (.empty clock) :=
  fun _ _ h => by simp at h

theorem Typed.store (h : Typed keyspace s) (hslot : Fitting keyspace key slot) :
    Typed keyspace (s.store key slot) := by
  intro key' slot' hfind
  rw [Server.find_store] at hfind
  split at hfind
  · rename_i hsame
    obtain ⟨hfind, -⟩ := Option.filter_eq_some_iff.mp hfind
    rw [hsame, ← Option.some.inj hfind]
    exact hslot
  · exact h key' slot' hfind

theorem Typed.remove (h : Typed keyspace s) (key : String) :
    Typed keyspace (s.remove key) := by
  intro key' slot' hfind
  rw [Server.find_remove] at hfind
  split at hfind
  · cases hfind
  · exact h key' slot' hfind

theorem Typed.tick (h : Typed keyspace s) {clock : Int}
    (hle : s.clock ≤ clock) : Typed keyspace { s with clock } := by
  intro key' slot' hfind
  rw [Server.find_tick s key' hle] at hfind
  exact h key' slot' (Option.filter_eq_some_iff.mp hfind).1

theorem Typed.revision (h : Typed keyspace s) :
    s.HoldsInteger (revisionKey keyspace) := by
  cases hfind : s.find (revisionKey keyspace) with
  | none => exact .inl hfind
  | some slot =>
      obtain ⟨value, rfl⟩ := (h _ _ hfind).revision rfl
      exact .inr ⟨value, hfind⟩

theorem Typed.stream (h : Typed keyspace s) :
    s.HoldsStream (streamKey keyspace) := by
  cases hfind : s.find (streamKey keyspace) with
  | none => exact .inl hfind
  | some slot =>
      obtain ⟨stream, rfl⟩ := (h _ _ hfind).stream rfl
      exact .inr ⟨stream, hfind⟩

theorem Typed.registry (h : Typed keyspace s) :
    s.HoldsSet (registryKey keyspace) := by
  cases hfind : s.find (registryKey keyspace) with
  | none => exact .inl hfind
  | some slot =>
      obtain ⟨members, rfl⟩ := (h _ _ hfind).registry rfl
      exact .inr ⟨members, hfind⟩

end Typed

section Commands

variable {keyspace : Subspace}

abbrev KeepsTyped {α : Type} (keyspace : Subspace) (script : Script α) :
    Prop :=
  Keeps (fun s s' => Typed keyspace s → Typed keyspace s') script

theorem KeepsTyped.bind {α β : Type} {script : Script α}
    {f : α → Script β} (h : KeepsTyped keyspace script)
    (hf : ∀ a, KeepsTyped keyspace (f a)) : KeepsTyped keyspace (script >>= f) :=
  Keeps.bind (fun _ _ _ hab hbc ha => hbc (hab ha)) h hf

theorem keepsTyped_pure {α : Type} (a : α) :
    KeepsTyped keyspace (pure a : Script α) :=
  keeps_pure (fun _ h => h) a

theorem keepsTyped_existsKey (key : String) :
    KeepsTyped keyspace (existsKey key) := fun _ h => h

theorem keepsTyped_get (key : String) : KeepsTyped keyspace (get key) := by
  intro s h
  simp only [get, eval_ofFn]
  split <;> exact h

theorem keepsTyped_del (key : String) : KeepsTyped keyspace (del key) :=
  fun _ h => h.remove key

theorem keepsTyped_delAll (keys : List String) :
    KeepsTyped keyspace (delAll keys) := by
  intro s h
  simp only [delAll, eval_ofFn]
  induction keys generalizing s with
  | nil => exact h
  | cons key keys ih => exact ih (s.remove key) (h.remove key)

theorem keepsTyped_incr : KeepsTyped keyspace (incr (revisionKey keyspace)) := by
  intro s h
  rw [eval_incr h.revision]
  split
  · exact h
  · exact h.store (fitting_revision keyspace _)

theorem keepsTyped_sadd (member : String) :
    KeepsTyped keyspace (sadd (registryKey keyspace) member) := by
  intro s h
  obtain ⟨members, heval⟩ := eval_sadd h.registry member
  rw [heval]
  exact h.store (fitting_registry keyspace members)

theorem keepsTyped_xadd (maxlen : Nat) (id : Option StreamId)
    (fields : List (String × String)) :
    KeepsTyped keyspace (xadd (streamKey keyspace) maxlen id fields) := by
  intro s h
  rcases h.stream with hfind | ⟨stream, hfind⟩
  all_goals
    simp only [xadd, eval_ofFn, hfind]
    cases id with
    | none => exact h
    | some id =>
        dsimp only
        split
        · exact h
        · split
          · exact h.store (fitting_stream keyspace _)
          · exact h

theorem keepsTyped_writeEnvelope (collection key : String) (envelope : Bytes)
    (milliseconds : Nat) :
    KeepsTyped keyspace (writeEnvelope
      (subspaceCompoundKey keyspace collection key) envelope milliseconds) := by
  intro s h
  unfold writeEnvelope
  split <;> exact h.store (fitting_entry keyspace _ _ _ _)

theorem keepsTyped_appendChange (retention revision : Nat)
    (collection key : String) (operation : ChangeOperation)
    (occurredAt : String) :
    KeepsTyped keyspace (appendChange (streamKey keyspace) retention revision
      collection key operation occurredAt) := by
  unfold appendChange
  split
  · exact keepsTyped_xadd _ _ _
  · exact keepsTyped_pure ()

end Commands

section Scripts

variable {keyspace : Subspace}

theorem keepsTyped_put (collection key : String) (envelope : Bytes)
    (milliseconds : Nat) (occurredAt : String) (retention : Nat) :
    KeepsTyped keyspace (putChangeScript
      (subspaceCompoundKey keyspace collection key) (revisionKey keyspace)
      (streamKey keyspace) (registryKey keyspace) envelope milliseconds
      collection key occurredAt retention) := by
  refine keepsTyped_incr.bind fun revision => ?_
  refine (keepsTyped_writeEnvelope _ _ _ _).bind fun _ => ?_
  refine (keepsTyped_sadd _).bind fun _ => ?_
  refine (keepsTyped_appendChange _ _ _ _ _ _).bind fun _ => ?_
  exact keepsTyped_pure _

theorem keepsTyped_delete (identity collection key : String) (retention : Nat)
    (occurredAt : String) :
    KeepsTyped keyspace (deleteChangeScript identity (revisionKey keyspace)
      (streamKey keyspace) collection key retention occurredAt) := by
  refine (keepsTyped_existsKey _).bind fun present => ?_
  cases present with
  | false => exact keepsTyped_pure _
  | true =>
      refine (keepsTyped_del _).bind fun _ => ?_
      refine keepsTyped_incr.bind fun revision => ?_
      refine (keepsTyped_appendChange _ _ _ _ _ _).bind fun _ => ?_
      exact keepsTyped_pure _

theorem keepsTyped_bulkDelete (retention : Nat)
    (collection occurredAt : String) (pairs : List (String × String))
    (removed : Nat) :
    KeepsTyped keyspace (bulkDeleteChangeScript (revisionKey keyspace)
      (streamKey keyspace) retention collection occurredAt pairs removed) := by
  induction pairs generalizing removed with
  | nil => exact keepsTyped_pure _
  | cons pair pairs ih =>
      refine (keepsTyped_existsKey _).bind fun present => ?_
      cases present with
      | false => exact ih removed
      | true =>
          refine KeepsTyped.bind ?_ fun _ => ih (removed + 1)
          refine (keepsTyped_del _).bind fun _ => ?_
          split
          · exact keepsTyped_incr.bind fun revision => keepsTyped_xadd _ _ _
          · exact keepsTyped_pure _

theorem keepsTyped_compareAndSwap (collection key : String)
    (expected envelope : Bytes) (milliseconds prefixLen : Nat) :
    KeepsTyped keyspace (compareAndSwapScript
      (subspaceCompoundKey keyspace collection key) (registryKey keyspace)
      expected envelope milliseconds prefixLen collection) := by
  have hwrite : KeepsTyped keyspace (do
      writeEnvelope (subspaceCompoundKey keyspace collection key) envelope
        milliseconds
      sadd (registryKey keyspace) collection
      return [RedisValue.int 1, .bulkString []]) := by
    refine (keepsTyped_writeEnvelope _ _ _ _).bind fun _ => ?_
    exact (keepsTyped_sadd _).bind fun _ => keepsTyped_pure _
  refine (keepsTyped_get _).bind fun value => ?_
  cases value with
  | none =>
      dsimp only
      split
      · exact hwrite
      · exact keepsTyped_pure _
  | some value =>
      dsimp only
      split
      · exact keepsTyped_pure _
      · split
        · exact keepsTyped_pure _
        · exact hwrite

theorem keepsTyped_compareAndDelete (identity : String) (expected : Bytes)
    (prefixLen : Nat) :
    KeepsTyped keyspace
      (compareAndDeleteScript identity expected prefixLen) := by
  refine (keepsTyped_get _).bind fun value => ?_
  cases value with
  | none => exact keepsTyped_pure _
  | some value =>
      dsimp only
      split
      · exact keepsTyped_pure _
      · split
        · exact keepsTyped_pure _
        · exact (keepsTyped_del _).bind fun _ => keepsTyped_pure _

theorem typed_invoke {α : Type} {script : Script α} {s : Server}
    (hkeeps : KeepsTyped keyspace script) (h : Typed keyspace s) :
    Typed keyspace (invoke script s).2 :=
  hkeeps s h

theorem typed_destroyLoop {config : RedisConfig} (collection : String)
    (pages : List (DateTime × List String)) (destroyed : Bool) {s : Server}
    (h : Typed config.keyspace s) :
    Typed config.keyspace
      (RedisStore.destroyLoop config collection pages destroyed s).2 := by
  induction pages generalizing destroyed s with
  | nil => exact h
  | cons page pages ih =>
      obtain ⟨occurred, identities⟩ := page
      unfold RedisStore.destroyLoop
      split
      · exact h
      · exact ih destroyed h
      · rename_i pairs _ _
        have hscript := typed_invoke (keepsTyped_bulkDelete
          config.changeRetention collection (timestampText occurred) pairs 0) h
        split
        · rename_i heval
          rw [heval] at hscript
          exact hscript
        · rename_i heval
          rw [heval] at hscript
          exact ih _ hscript

theorem typed_call (config : RedisConfig) (readings : Readings) (call : Call)
    {s : Server} (h : Typed config.keyspace s) :
    Typed config.keyspace (call.run config readings s).2 := by
  cases call with
  | put key value collection ttl =>
      simp only [Call.run, RedisStore.put]
      split
      · exact h
      · exact keepsTyped_put _ _ _ _ _ _ s h
  | delete key collection => exact keepsTyped_delete _ _ _ _ _ s h
  | compareAndSwap key expected value collection ttl =>
      simp only [Call.run, RedisStore.compareAndSwap]
      split
      · exact h
      · exact keepsTyped_compareAndSwap _ _ _ _ _ _ s h
  | compareAndDelete key expected collection =>
      exact keepsTyped_compareAndDelete _ _ _ s h
  | destroyCollection collection scanned => exact typed_destroyLoop _ _ _ h

end Scripts

/-- A command of some store on a non-empty keyspace: a call that is one
script, a page of a `destroy_collection`, a page of a `destroy`; or passing
time. -/
inductive Command where
  | call (label : Label)
  | drop (page : List String)

def command (keyspace : Subspace) (s : Server) : Command → Option Server
  | .call label => step keyspace s label
  | .drop page => some
      (eval (delAll (scanMatch (scanPattern keyspace.frame) page)) s).2

theorem typed_command {keyspace : Subspace} {s s' : Server} {c : Command}
    (h : Typed keyspace s) (hstep : command keyspace s c = some s') :
    Typed keyspace s' := by
  cases c with
  | call label =>
      cases label with
      | call defaultCollection changeRetention readings call =>
          cases hstep
          exact typed_call ⟨defaultCollection, keyspace, changeRetention⟩
            readings call h
      | tick milliseconds =>
          cases hstep
          exact h.tick (by omega)
  | drop page =>
      cases hstep
      exact keepsTyped_delAll _ s h

theorem reachable_typed {keyspace : Subspace} {clock : Int} {s : Server}
    (h : Reachable (command keyspace) (.empty clock) s) : Typed keyspace s :=
  reachable_invariant (fun _ _ _ => typed_command) (typed_empty clock) h

end OpenKeyV.Redis
