import OpenKeyV.Entry
import OpenKeyV.Library.Program
import OpenKeyV.Protocol
import Mathlib.Logic.Function.Basic

/-!
# The contract of a store

What `AsyncKeyValue` and `AsyncCompareAndSwap` promise: a map from collection
and key to an entry with a revision, in which an expired entry counts as
absent.  A wrapper is verified over stores that keep this contract, as
`MemoryContract` shows of a memory store; one around a single store is a
program over its calls.
-/

namespace OpenKeyV.Wrapper

open Library

abbrev Identity := String × String

structure Slot where
  entry : ManagedEntry
  revision : Revision

abbrev Entries := Identity → Option Slot

inductive StoreOp where
  | get (key : String) (collection : Option String)
  | ttl (key : String) (collection : Option String)
  | put (key : String) (value : Value) (collection : Option String)
      (ttl : Option F64)
  | putMany (keys : List String) (values : List Value)
      (collection : Option String) (ttl : Option F64)
  | delete (key : String) (collection : Option String)
  | deleteMany (keys : List String) (collection : Option String)
  | getWithRevision (key : String) (collection : Option String)
  | compareAndSwap (key : String) (expected : Option Revision)
      (value : Value) (collection : Option String) (ttl : Option F64)
  | compareAndDelete (key : String) (expected : Revision)
      (collection : Option String)

namespace StoreOp

@[reducible] def Result : StoreOp → Type
  | .get .. => Option Value
  | .ttl .. => Option (Value × Option F64)
  | .put .. | .putMany .. => Unit
  | .delete .. => Bool
  | .deleteMany .. => Nat
  | .getWithRevision .. => Option RevisionedValue
  | .compareAndSwap .. => CompareAndSwapResult
  | .compareAndDelete .. => CompareAndDeleteResult

def collection : StoreOp → Option String
  | .get _ c | .ttl _ c | .put _ _ c _ | .putMany _ _ c _ | .delete _ c
  | .deleteMany _ c | .getWithRevision _ c | .compareAndSwap _ _ _ c _
  | .compareAndDelete _ _ c => c

def writes : StoreOp → List String
  | .get .. | .ttl .. | .getWithRevision .. => []
  | .put key .. | .delete key _ | .compareAndSwap key ..
  | .compareAndDelete key .. => [key]
  | .putMany keys .. | .deleteMany keys _ => keys

def writtenTtl : StoreOp → Option F64
  | .put _ _ _ seconds | .putMany _ _ _ seconds
  | .compareAndSwap _ _ _ _ seconds => seconds
  | _ => none

end StoreOp

section Apply

variable (now : DateTime) (revisions : Nat → Revision)

def live (entries : Entries) (id : Identity) : Option Slot :=
  (entries id).filter fun slot => !slot.entry.isExpired now

def Slot.revisioned (slot : Slot) : RevisionedValue :=
  ⟨slot.entry.value, slot.revision, slot.entry.ttl now⟩

def putSlot (id : Identity) (value : Value) (ttl : Option F64)
    (revision : Revision) (entries : Entries) : Except Error Unit × Entries :=
  match ManagedEntry.ofTtl now value ttl with
  | .ok entry => (.ok (), Function.update entries id (some ⟨entry, revision⟩))
  | .error error => (.error error, entries)

def putSlots (collection : String) (ttl : Option F64) :
    List (String × Value) → Nat → Entries → Except Error Unit × Entries
  | [], _, entries => (.ok (), entries)
  | (key, value) :: rest, i, entries =>
      match putSlot now (collection, key) value ttl (revisions i) entries with
      | (.ok _, entries) => putSlots collection ttl rest (i + 1) entries
      | (.error error, entries) => (.error error, entries)

def deleteSlots (collection : String) :
    List String → Entries → Nat × Entries
  | [], entries => (0, entries)
  | key :: keys, entries =>
      let found := (live now entries (collection, key)).isSome
      let (count, entries) := deleteSlots collection keys
        (Function.update entries (collection, key) none)
      (count + found.toNat, entries)

def matchesRevision (expected : Option Revision) (current : Option Slot) :
    Bool :=
  expected == current.map Slot.revision

def StoreOp.apply (defaultCollection : String) :
    (op : StoreOp) → Entries → Except Error op.Result × Entries
  | .get key c, entries =>
      (.ok ((live now entries (c.getD defaultCollection, key)).map
        fun slot => slot.entry.value), entries)
  | .ttl key c, entries =>
      (.ok ((live now entries (c.getD defaultCollection, key)).map
        fun slot => (slot.entry.value, slot.entry.ttl now)), entries)
  | .put key value c seconds, entries =>
      putSlot now (c.getD defaultCollection, key) value seconds (revisions 0)
        entries
  | .putMany keys values c seconds, entries =>
      if keys.length ≠ values.length then
        (.error (.batchSizeMismatch keys.length values.length), entries)
      else
        putSlots now revisions (c.getD defaultCollection) seconds
          (keys.zip values) 0 entries
  | .delete key c, entries =>
      (.ok (live now entries (c.getD defaultCollection, key)).isSome,
        Function.update entries (c.getD defaultCollection, key) none)
  | .deleteMany keys c, entries =>
      let (count, entries) :=
        deleteSlots now (c.getD defaultCollection) keys entries
      (.ok count, entries)
  | .getWithRevision key c, entries =>
      (.ok ((live now entries (c.getD defaultCollection, key)).map
        (Slot.revisioned now)), entries)
  | .compareAndSwap key expected value c seconds, entries =>
      let current := live now entries (c.getD defaultCollection, key)
      match ManagedEntry.ofTtl now value seconds with
      | .error error => (.error error, entries)
      | .ok entry =>
          if matchesRevision expected current then
            (.ok (.applied (revisions 0)),
              Function.update entries (c.getD defaultCollection, key)
                (some ⟨entry, revisions 0⟩))
          else (.ok (.conflict (current.map (Slot.revisioned now))), entries)
  | .compareAndDelete key expected c, entries =>
      let current := live now entries (c.getD defaultCollection, key)
      if matchesRevision (some expected) current then
        (.ok .deleted,
          Function.update entries (c.getD defaultCollection, key) none)
      else (.ok (.conflict (current.map (Slot.revisioned now))), entries)

end Apply

section Frame

variable {now : DateTime} {revisions : Nat → Revision} {entries : Entries}
  {id : Identity} {name : String}

theorem putSlot_other {target : Identity} {value : Value}
    {ttl : Option F64} {revision : Revision} (h : id ≠ target) :
    (putSlot now target value ttl revision entries).2 id = entries id := by
  unfold putSlot
  split
  · exact Function.update_of_ne h ..
  · rfl

theorem putSlots_other {ttl : Option F64} {items : List (String × Value)}
    {i : Nat} (h : ∀ item ∈ items, id ≠ (name, item.1)) :
    (putSlots now revisions name ttl items i entries).2 id = entries id := by
  induction items generalizing i entries with
  | nil => rfl
  | cons item items ih =>
      obtain ⟨key, value⟩ := item
      have hfirst : (putSlot now (name, key) value ttl (revisions i)
          entries).2 id = entries id :=
        putSlot_other (h (key, value) (List.mem_cons_self ..))
      simp only [putSlots]
      split
      · rename_i entries' heq
        rw [heq] at hfirst
        rw [ih fun other hother => h other (List.mem_cons_of_mem _ hother)]
        exact hfirst
      · rename_i entries' heq
        rw [heq] at hfirst
        exact hfirst

theorem deleteSlots_other {keys : List String}
    (h : ∀ key ∈ keys, id ≠ (name, key)) :
    (deleteSlots now name keys entries).2 id = entries id := by
  induction keys generalizing entries with
  | nil => rfl
  | cons key keys ih =>
      simp only [deleteSlots]
      rw [ih fun other hother => h other (List.mem_cons_of_mem _ hother)]
      exact Function.update_of_ne (h key (List.mem_cons_self ..)) ..

theorem StoreOp.apply_other (op : StoreOp)
    (h : ∀ key ∈ op.writes, id ≠ (op.collection.getD name, key)) :
    (StoreOp.apply now revisions name op entries).2 id = entries id := by
  cases op with
  | get | ttl | getWithRevision => rfl
  | put key value c ttl =>
      exact putSlot_other (h key (List.mem_cons_self ..))
  | putMany keys values c ttl =>
      simp only [StoreOp.apply]
      split
      · rfl
      · refine putSlots_other fun item hitem => h item.1 ?_
        exact (List.of_mem_zip hitem).1
  | delete key c =>
      exact Function.update_of_ne (h key (List.mem_cons_self ..)) ..
  | deleteMany keys c => exact deleteSlots_other h
  | compareAndSwap key expected value c ttl =>
      have hkey := h key (List.mem_cons_self ..)
      simp only [StoreOp.apply]
      split
      · rfl
      · split
        · exact Function.update_of_ne hkey ..
        · rfl
  | compareAndDelete key expected c =>
      have hkey := h key (List.mem_cons_self ..)
      simp only [StoreOp.apply]
      split
      · exact Function.update_of_ne hkey ..
      · rfl

end Frame

inductive StoreCall where
  | one (op : StoreOp)
  | getMany (keys : List String) (collection : Option String)
  | ttlMany (keys : List String) (collection : Option String)

namespace StoreCall

@[reducible] def Result : StoreCall → Type
  | .one op => op.Result
  | .getMany .. => List (Option Value)
  | .ttlMany .. => List (Option (Value × Option F64))

section Apply

variable (now : DateTime) (revisions : Nat → Revision)

def apply (defaultCollection : String) :
    (call : StoreCall) → Entries → Except Error call.Result × Entries
  | .one op, entries => op.apply now revisions defaultCollection entries
  | .getMany keys c, entries =>
      (.ok (keys.map fun key =>
        (live now entries (c.getD defaultCollection, key)).map
          fun slot => slot.entry.value), entries)
  | .ttlMany keys c, entries =>
      (.ok (keys.map fun key =>
        (live now entries (c.getD defaultCollection, key)).map
          fun slot => (slot.entry.value, slot.entry.ttl now)), entries)

end Apply

end StoreCall

abbrev StoreProgram := Program Entries Error

def stored (now : DateTime) (revisions : Nat → Revision)
    (defaultCollection : String) (call : StoreCall) :
    StoreProgram call.Result :=
  Program.ofFn (call.apply now revisions defaultCollection)

def returning {α : Type} (result : Except Error α) : StoreProgram α :=
  Program.ofFn fun entries => (result, entries)

@[simp] theorem eval_returning {α : Type} (result : Except Error α)
    (entries : Entries) :
    Program.eval (returning result) entries = (result, entries) := rfl

end OpenKeyV.Wrapper
