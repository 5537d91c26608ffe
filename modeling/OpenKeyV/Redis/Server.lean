import OpenKeyV.Protocol
import OpenKeyV.Library.KeyedMap
import OpenKeyV.Library.Program
import Mathlib.Data.List.DropRight

/-!
# The Redis commands that the stores use

A server is a flat map from keys to typed objects, each with an optional
deadline.  A key whose deadline has passed is gone for every command.  String
values written by `SET` are byte strings, and a counter made by `INCR`, which
nothing decrements, is kept as a number; no script of the stores uses one as
the other.
-/

namespace OpenKeyV.Redis

open Library

structure StreamId where
  millis : Nat
  sequence : Nat
  deriving DecidableEq, Repr

def StreamId.zero : StreamId := ⟨0, 0⟩

def StreamId.lt (a b : StreamId) : Bool :=
  decide (a.millis < b.millis) ||
    (decide (a.millis = b.millis) && decide (a.sequence < b.sequence))

def StreamId.text (id : StreamId) : String :=
  toString id.millis ++ "-" ++ toString id.sequence

structure StreamEntry where
  id : StreamId
  fields : List (String × String)
  deriving DecidableEq, Repr

def StreamEntry.get (entry : StreamEntry) (field : String) : Option String :=
  entry.fields.lookup field

structure Stream where
  entries : List StreamEntry
  lastId : StreamId
  /-- Every entry ever added, trimmed or not; no command reads it. -/
  added : List StreamEntry
  deriving DecidableEq, Repr

namespace Stream

def empty : Stream := ⟨[], .zero, []⟩

def push (maxlen : Nat) (entry : StreamEntry) (stream : Stream) : Stream :=
  ⟨(stream.entries ++ [entry]).rtake maxlen, entry.id, stream.added ++ [entry]⟩

@[simp] theorem push_lastId (maxlen : Nat) (entry : StreamEntry)
    (stream : Stream) : (stream.push maxlen entry).lastId = entry.id := rfl

@[simp] theorem push_added (maxlen : Nat) (entry : StreamEntry)
    (stream : Stream) :
    (stream.push maxlen entry).added = stream.added ++ [entry] := rfl

end Stream

inductive Datum where
  | string (bytes : Bytes)
  | integer (value : Nat)
  | stream (stream : Stream)
  | set (members : List String)
  deriving DecidableEq, Repr

structure Slot where
  datum : Datum
  deadline : Option Int
  deriving DecidableEq, Repr

def Slot.live (clock : Int) (slot : Slot) : Bool :=
  match slot.deadline with
  | none => true
  | some deadline => decide (clock ≤ deadline)

@[simp] theorem filter_live_permanent (clock : Int) (datum : Datum) :
    (some (⟨datum, none⟩ : Slot)).filter (Slot.live clock) =
      some ⟨datum, none⟩ := rfl

structure Server where
  clock : Int
  objects : KeyedMap String Slot

namespace Server

def empty (clock : Int) : Server := ⟨clock, ∅⟩

def find (s : Server) (key : String) : Option Slot :=
  (s.objects.lookup key).filter (Slot.live s.clock)

def store (s : Server) (key : String) (slot : Slot) : Server :=
  { s with objects := s.objects.insert key slot }

def remove (s : Server) (key : String) : Server :=
  { s with objects := s.objects.erase key }

section Find

variable (s : Server) (key : String)

@[simp] theorem find_empty (clock : Int) : (empty clock).find key = none := rfl

@[simp] theorem clock_store (slot : Slot) :
    (s.store key slot).clock = s.clock := rfl

@[simp] theorem clock_remove : (s.remove key).clock = s.clock := rfl

@[simp] theorem find_store (slot : Slot) (key' : String) :
    (s.store key slot).find key' =
      if key' = key then (some slot).filter (Slot.live s.clock)
      else s.find key' := by
  simp only [find, store, KeyedMap.lookup_insert_eq]
  split <;> rfl

@[simp] theorem find_remove (key' : String) :
    (s.remove key).find key' = if key' = key then none else s.find key' := by
  simp only [find, remove, KeyedMap.lookup_erase_eq]
  split <;> rfl

theorem find_tick {clock : Int} (h : s.clock ≤ clock) :
    Server.find { s with clock := clock } key =
      (s.find key).filter (Slot.live clock) := by
  have hlive : ∀ slot : Slot, slot.live clock = true →
      slot.live s.clock = true := by
    rintro ⟨datum, deadline⟩ hslot
    cases deadline with
    | none => rfl
    | some deadline =>
        simp only [Slot.live, decide_eq_true_eq] at hslot ⊢
        omega
  simp only [find, Option.filter_filter]
  congr 1
  funext slot
  cases hslot : slot.live clock with
  | false => simp
  | true => simp [hlive slot hslot]

end Find

end Server

inductive ServerError where
  | wrongType
  | notAnInteger
  | overflow
  | invalidStreamId
  | idTooSmall
  deriving DecidableEq, Repr

abbrev Script := Program Server ServerError

open Program

def existsKey (key : String) : Script Bool :=
  .ofFn fun s => (.ok (s.find key).isSome, s)

def del (key : String) : Script Unit :=
  .ofFn fun s => (.ok (), s.remove key)

def get (key : String) : Script (Option Bytes) :=
  .ofFn fun s =>
    match s.find key with
    | none => (.ok none, s)
    | some ⟨.string bytes, _⟩ => (.ok (some bytes), s)
    | some ⟨.integer value, _⟩ => (.ok (some (toString value).toUTF8.toList), s)
    | some _ => (.error .wrongType, s)

def set (key : String) (bytes : Bytes) : Script Unit :=
  .ofFn fun s => (.ok (), s.store key ⟨.string bytes, none⟩)

def psetex (key : String) (milliseconds : Nat) (bytes : Bytes) : Script Unit :=
  .ofFn fun s =>
    (.ok (), s.store key ⟨.string bytes, some (s.clock + milliseconds)⟩)

def incr (key : String) : Script Nat :=
  .ofFn fun s =>
    match s.find key with
    | none => (.ok 1, s.store key ⟨.integer 1, none⟩)
    | some ⟨.integer value, deadline⟩ =>
        if value = 2 ^ 63 - 1 then (.error .overflow, s)
        else (.ok (value + 1), s.store key ⟨.integer (value + 1), deadline⟩)
    | some ⟨.string _, _⟩ => (.error .notAnInteger, s)
    | some _ => (.error .wrongType, s)

def sadd (key member : String) : Script Unit :=
  .ofFn fun s =>
    match s.find key with
    | none => (.ok (), s.store key ⟨.set [member], none⟩)
    | some ⟨.set members, deadline⟩ =>
        (.ok (), s.store key ⟨.set (members.insert member), deadline⟩)
    | some _ => (.error .wrongType, s)

/-- `XADD key MAXLEN = maxlen id ...`.  The identifier is `none` when its text
does not parse. -/
def xadd (key : String) (maxlen : Nat) (id : Option StreamId)
    (fields : List (String × String)) : Script Unit :=
  .ofFn fun s =>
    let append (stream : Stream) (deadline : Option Int) :
        Except ServerError Unit × Server :=
      match id with
      | none => (.error .invalidStreamId, s)
      | some id =>
          if 2 ^ 63 ≤ maxlen then (.error .notAnInteger, s)
          else if stream.lastId.lt id then
            (.ok (), s.store key
              ⟨.stream (stream.push maxlen ⟨id, fields⟩), deadline⟩)
          else (.error .idTooSmall, s)
    match s.find key with
    | none => append .empty none
    | some ⟨.stream stream, deadline⟩ => append stream deadline
    | some _ => (.error .wrongType, s)

def Server.streamAt (s : Server) (key : String) : Stream :=
  match s.find key with
  | some ⟨.stream stream, _⟩ => stream
  | _ => .empty

def Server.counterAt (s : Server) (key : String) : Nat :=
  match s.find key with
  | some ⟨.integer value, _⟩ => value
  | _ => 0

def Server.xread (s : Server) (key : String) (id : StreamId) (count : Nat) :
    List StreamEntry :=
  ((s.streamAt key).entries.filter fun entry => id.lt entry.id).take count

def Server.xrevrangeOne (s : Server) (key : String) : Option StreamEntry :=
  (s.streamAt key).entries.getLast?

def Server.xrangeOne (s : Server) (key : String) : Option StreamEntry :=
  (s.streamAt key).entries.head?

section Views

variable (s : Server) (key key' : String)

theorem counterAt_store (slot : Slot) (h : key' ≠ key) :
    (s.store key slot).counterAt key' = s.counterAt key' := by
  simp [Server.counterAt, h]

theorem streamAt_store (slot : Slot) (h : key' ≠ key) :
    (s.store key slot).streamAt key' = s.streamAt key' := by
  simp [Server.streamAt, h]

@[simp] theorem counterAt_store_integer (value : Nat) :
    (s.store key ⟨.integer value, none⟩).counterAt key = value := by
  simp [Server.counterAt]

@[simp] theorem streamAt_store_stream (stream : Stream) :
    (s.store key ⟨.stream stream, none⟩).streamAt key = stream := by
  simp [Server.streamAt]

end Views

def Server.HoldsInteger (s : Server) (key : String) : Prop :=
  s.find key = none ∨ ∃ value, s.find key = some ⟨.integer value, none⟩

def Server.HoldsStream (s : Server) (key : String) : Prop :=
  s.find key = none ∨ ∃ stream, s.find key = some ⟨.stream stream, none⟩

def Server.HoldsSet (s : Server) (key : String) : Prop :=
  s.find key = none ∨ ∃ members, s.find key = some ⟨.set members, none⟩

def Server.HoldsString (s : Server) (key : String) : Prop :=
  ∀ slot, s.find key = some slot → ∃ bytes, slot.datum = .string bytes

theorem eval_incr {s : Server} {key : String} (h : s.HoldsInteger key) :
    eval (incr key) s =
      if s.counterAt key = 2 ^ 63 - 1 then (.error .overflow, s)
      else (.ok (s.counterAt key + 1),
        s.store key ⟨.integer (s.counterAt key + 1), none⟩) := by
  rcases h with h | ⟨value, h⟩ <;> simp [incr, Server.counterAt, h]

theorem eval_sadd {s : Server} {key : String} (h : s.HoldsSet key)
    (member : String) :
    ∃ members, eval (sadd key member) s =
      (.ok (), s.store key ⟨.set members, none⟩) := by
  rcases h with h | ⟨members, h⟩
  · exact ⟨[member], by simp [sadd, h]⟩
  · exact ⟨members.insert member, by simp [sadd, h]⟩

theorem eval_xadd {s : Server} {key : String} (h : s.HoldsStream key)
    (maxlen : Nat) (id : StreamId) (fields : List (String × String))
    (hmax : maxlen < 2 ^ 63) (hid : (s.streamAt key).lastId.lt id = true) :
    eval (xadd key maxlen (some id) fields) s =
      (.ok (), s.store key
        ⟨.stream ((s.streamAt key).push maxlen ⟨id, fields⟩), none⟩) := by
  have hmax : ¬ 2 ^ 63 ≤ maxlen := Nat.not_le_of_lt hmax
  rcases h with h | ⟨stream, h⟩ <;>
    simp only [Server.streamAt, h] at hid ⊢ <;>
    simp only [xadd, eval_ofFn, h, hid, hmax, if_true, if_false]

theorem eval_xadd_refused {s : Server} {key : String} (h : s.HoldsStream key)
    (maxlen : Nat) (id : Option StreamId) (fields : List (String × String))
    (hrefused : id = none ∨ 2 ^ 63 ≤ maxlen) :
    ∃ error, eval (xadd key maxlen id fields) s = (.error error, s) := by
  rcases h with h | ⟨stream, h⟩ <;> cases id <;>
    simp_all [xadd]

end OpenKeyV.Redis
