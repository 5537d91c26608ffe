import OpenKeyV.Library.Interaction
import OpenKeyV.Wrapper.StoreContract

/-!
# The passthrough cache

`PassthroughCacheWrapper` reads its cache store first and its primary store
on a miss, and puts what it has read there into the cache.  A write deletes
the key from the cache and goes on to the primary store.  Each access of one
of the two stores is one step.
-/

namespace OpenKeyV.Wrapper

open Library Library.Interaction

inductive Tier where
  | cache
  | primary
  deriving DecidableEq, Repr

abbrev Access := Tier × StoreOp

abbrev Access.Answer (access : Access) : Type :=
  Except Error access.2.Result

abbrev Requests := Calls Error Access.Answer

def send (tier : Tier) (op : StoreOp) : Requests op.Result :=
  access (tier, op) >>= attempt

namespace PassthroughCache

variable (cacheTtl : Option F64)

def populate (key : String) (collection : Option String) :
    Option Value → Requests Unit
  | some value => send .cache (.put key value collection cacheTtl)
  | none => return ()

def get (key : String) (collection : Option String) :
    Requests (Option Value) := do
  match ← send .cache (.get key collection) with
  | some value => return some value
  | none => do
      let value ← send .primary (.get key collection)
      populate cacheTtl key collection value
      return value

def ttl (key : String) (collection : Option String) :
    Requests (Option (Value × Option F64)) := do
  match ← send .cache (.ttl key collection) with
  | some (value, seconds) => return some (value, seconds)
  | none => do
      let result ← send .primary (.ttl key collection)
      populate cacheTtl key collection (result.map Prod.fst)
      return result

def put (key : String) (value : Value) (collection : Option String)
    (seconds : Option F64) : Requests Unit := do
  let _ ← send .cache (.delete key collection)
  send .primary (.put key value collection seconds)

def delete (key : String) (collection : Option String) : Requests Bool := do
  let _ ← send .cache (.delete key collection)
  send .primary (.delete key collection)

def getMany (collection : Option String) :
    List String → Requests (List (Option Value))
  | [] => return []
  | key :: keys => do
      let result ← get cacheTtl key collection
      let results ← getMany collection keys
      return result :: results

def ttlMany (collection : Option String) :
    List String → Requests (List (Option (Value × Option F64)))
  | [] => return []
  | key :: keys => do
      let result ← ttl cacheTtl key collection
      let results ← ttlMany collection keys
      return result :: results

def invalidate (collection : Option String) : List String → Requests Unit
  | [] => return ()
  | key :: keys => do
      let _ ← send .cache (.delete key collection)
      invalidate collection keys

def putMany (keys : List String) (values : List Value)
    (collection : Option String) (seconds : Option F64) : Requests Unit :=
  if keys.length ≠ values.length then
    attempt (.error (.batchSizeMismatch keys.length values.length))
  else do
    invalidate collection keys
    send .primary (.putMany keys values collection seconds)

def deleteMany (keys : List String) (collection : Option String) :
    Requests Nat := do
  invalidate collection keys
  send .primary (.deleteMany keys collection)

def getWithRevision (key : String) (collection : Option String) :
    Requests (Option RevisionedValue) := do
  let current ← send .primary (.getWithRevision key collection)
  populate cacheTtl key collection (current.map RevisionedValue.value)
  return current

def compareAndSwap (key : String) (expected : Option Revision)
    (value : Value) (collection : Option String) (seconds : Option F64) :
    Requests CompareAndSwapResult := do
  let _ ← send .cache (.delete key collection)
  send .primary (.compareAndSwap key expected value collection seconds)

def compareAndDelete (key : String) (expected : Revision)
    (collection : Option String) : Requests CompareAndDeleteResult := do
  let _ ← send .cache (.delete key collection)
  send .primary (.compareAndDelete key expected collection)

end PassthroughCache

inductive Call where
  | get (key : String) (collection : Option String)
  | ttl (key : String) (collection : Option String)
  | put (key : String) (value : Value) (collection : Option String)
      (seconds : Option F64)
  | delete (key : String) (collection : Option String)
  | getMany (keys : List String) (collection : Option String)
  | ttlMany (keys : List String) (collection : Option String)
  | putMany (keys : List String) (values : List Value)
      (collection : Option String) (seconds : Option F64)
  | deleteMany (keys : List String) (collection : Option String)
  | getWithRevision (key : String) (collection : Option String)
  | compareAndSwap (key : String) (expected : Option Revision)
      (value : Value) (collection : Option String) (seconds : Option F64)
  | compareAndDelete (key : String) (expected : Revision)
      (collection : Option String)

def Call.seconds : Call → Option F64
  | .put _ _ _ seconds | .putMany _ _ _ seconds
  | .compareAndSwap _ _ _ _ seconds => seconds
  | _ => none

inductive Reply where
  | get (result : Except Error (Option Value))
  | ttl (result : Except Error (Option (Value × Option F64)))
  | put (result : Except Error Unit)
  | delete (result : Except Error Bool)
  | getMany (result : Except Error (List (Option Value)))
  | ttlMany (result : Except Error (List (Option (Value × Option F64))))
  | putMany (result : Except Error Unit)
  | deleteMany (result : Except Error Nat)
  | getWithRevision (result : Except Error (Option RevisionedValue))
  | compareAndSwap (result : Except Error CompareAndSwapResult)
  | compareAndDelete (result : Except Error CompareAndDeleteResult)

open PassthroughCache in
def program (cacheTtl : Option F64) :
    Call → Interaction Access.Answer Reply
  | .get key collection => Reply.get <$> (get cacheTtl key collection).run
  | .ttl key collection => Reply.ttl <$> (ttl cacheTtl key collection).run
  | .put key value collection seconds =>
      Reply.put <$> (put key value collection seconds).run
  | .delete key collection => Reply.delete <$> (delete key collection).run
  | .getMany keys collection =>
      Reply.getMany <$> (getMany cacheTtl collection keys).run
  | .ttlMany keys collection =>
      Reply.ttlMany <$> (ttlMany cacheTtl collection keys).run
  | .putMany keys values collection seconds =>
      Reply.putMany <$> (putMany keys values collection seconds).run
  | .deleteMany keys collection =>
      Reply.deleteMany <$> (deleteMany keys collection).run
  | .getWithRevision key collection =>
      Reply.getWithRevision <$> (getWithRevision cacheTtl key collection).run
  | .compareAndSwap key expected value collection seconds =>
      Reply.compareAndSwap <$>
        (compareAndSwap key expected value collection seconds).run
  | .compareAndDelete key expected collection =>
      Reply.compareAndDelete <$> (compareAndDelete key expected collection).run

structure Stores where
  cacheDefault : String
  primaryDefault : String

structure Tiers where
  clock : DateTime
  cache : Entries
  primary : Entries

/-- What an answer depends on besides the stores: the time that has passed by
then, and the revisions that the store draws. -/
structure Choice where
  now : DateTime
  revisions : Nat → Revision

namespace Tiers

variable (stores : Stores)

def handle (choice : Choice) :
    (access : Access) → Tiers → Option (Access.Answer access × Tiers)
  | (.cache, op), s =>
      if s.clock ≤ choice.now then
        let (answer, entries) := op.apply choice.now choice.revisions
          stores.cacheDefault s.cache
        some (answer, ⟨choice.now, entries, s.primary⟩)
      else none
  | (.primary, op), s =>
      if s.clock ≤ choice.now then
        let (answer, entries) := op.apply choice.now choice.revisions
          stores.primaryDefault s.primary
        some (answer, ⟨choice.now, s.cache, entries⟩)
      else none

variable {stores} {choice : Choice} {op : StoreOp} {s s' : Tiers}
  {answer : Except Error op.Result}

theorem handle_cache
    (h : handle stores choice (.cache, op) s = some (answer, s')) :
    s.clock ≤ choice.now ∧
      answer = (op.apply choice.now choice.revisions stores.cacheDefault
        s.cache).1 ∧
      s' = ⟨choice.now, (op.apply choice.now choice.revisions
        stores.cacheDefault s.cache).2, s.primary⟩ := by
  simp only [handle] at h
  split at h
  · rename_i hle
    cases h
    exact ⟨hle, rfl, rfl⟩
  · cases h

theorem handle_primary
    (h : handle stores choice (.primary, op) s = some (answer, s')) :
    s.clock ≤ choice.now ∧
      answer = (op.apply choice.now choice.revisions stores.primaryDefault
        s.primary).1 ∧
      s' = ⟨choice.now, s.cache, (op.apply choice.now choice.revisions
        stores.primaryDefault s.primary).2⟩ := by
  simp only [handle] at h
  split at h
  · rename_i hle
    cases h
    exact ⟨hle, rfl, rfl⟩
  · cases h

end Tiers

def Stores.Alike (stores : Stores) (collection : Option String) : Prop :=
  collection.getD stores.cacheDefault = collection.getD stores.primaryDefault

section After

variable {stores : Stores} {s : Tiers} {α : Type} {op : StoreOp}
  {allowed : Choice → Access → Tiers → Prop}

abbrev After (stores : Stores) (allowed : Choice → Access → Tiers → Prop)
    (post : α → Tiers → Prop) (tree : Interaction Access.Answer α)
    (s : Tiers) : Prop :=
  Ensures (Tiers.handle stores) allowed post tree s

theorem after_cache_bind {post : Except Error α → Tiers → Prop}
    {f : op.Result → Requests α}
    (h : ∀ choice, s.clock ≤ choice.now → allowed choice (.cache, op) s →
      After stores allowed post
        (resume f (op.apply choice.now choice.revisions stores.cacheDefault
          s.cache).1)
        ⟨choice.now, (op.apply choice.now choice.revisions
          stores.cacheDefault s.cache).2, s.primary⟩) :
    After stores allowed post (send .cache op >>= f).run s := by
  refine ensures_bind_run (ensures_access_bind ?_)
  intro choice answer s' hallowed hhandle
  obtain ⟨hle, rfl, rfl⟩ := Tiers.handle_cache hhandle
  exact ensures_done (h choice hle hallowed)

theorem after_primary_bind {post : Except Error α → Tiers → Prop}
    {f : op.Result → Requests α}
    (h : ∀ choice, s.clock ≤ choice.now → allowed choice (.primary, op) s →
      After stores allowed post
        (resume f (op.apply choice.now choice.revisions
          stores.primaryDefault s.primary).1)
        ⟨choice.now, s.cache, (op.apply choice.now choice.revisions
          stores.primaryDefault s.primary).2⟩) :
    After stores allowed post (send .primary op >>= f).run s := by
  refine ensures_bind_run (ensures_access_bind ?_)
  intro choice answer s' hallowed hhandle
  obtain ⟨hle, rfl, rfl⟩ := Tiers.handle_primary hhandle
  exact ensures_done (h choice hle hallowed)

variable (op) in
theorem after_primary {post : Except Error op.Result → Tiers → Prop}
    (h : ∀ choice, s.clock ≤ choice.now → allowed choice (.primary, op) s →
      post (op.apply choice.now choice.revisions stores.primaryDefault
          s.primary).1
        ⟨choice.now, s.cache, (op.apply choice.now choice.revisions
          stores.primaryDefault s.primary).2⟩) :
    After stores allowed post (send .primary op).run s := by
  refine ensures_access_bind fun choice answer s' hallowed hhandle => ?_
  obtain ⟨hle, rfl, rfl⟩ := Tiers.handle_primary hhandle
  exact ensures_done (h choice hle hallowed)

variable (op) in
theorem after_cache {post : Except Error op.Result → Tiers → Prop}
    (h : ∀ choice, s.clock ≤ choice.now → allowed choice (.cache, op) s →
      post (op.apply choice.now choice.revisions stores.cacheDefault
          s.cache).1
        ⟨choice.now, (op.apply choice.now choice.revisions
          stores.cacheDefault s.cache).2, s.primary⟩) :
    After stores allowed post (send .cache op).run s := by
  refine ensures_access_bind fun choice answer s' hallowed hhandle => ?_
  obtain ⟨hle, rfl, rfl⟩ := Tiers.handle_cache hhandle
  exact ensures_done (h choice hle hallowed)

end After

end OpenKeyV.Wrapper
