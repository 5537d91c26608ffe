import OpenKeyV.Library.LittleEndian
import OpenKeyV.Wrapper.StoreContract

/-!
# The encryption wrapper

`EncryptionWrapper` encrypts the bytes of a value, puts its version and kind
before them, and stores the whole as a binary value.  The two closures and
the store are parameters.
-/

namespace OpenKeyV.Wrapper

open Library Program

structure EncryptionWrapper where
  encryptFn : Bytes → Except Error Bytes
  decryptFn : Bytes → UInt32 → Except Error Bytes
  version : UInt32

def encryptionMagic : Bytes := [0x4F, 0x4B, 0x56, 0x45, 0x31]

namespace EncryptionWrapper

variable (w : EncryptionWrapper)

def headerLen : Nat := encryptionMagic.length + 5

def encryptValue (value : Value) : Except Error Value := do
  let encrypted ← w.encryptFn value.bytes
  return .binary (encryptionMagic ++ toLeBytes 4 w.version.toNat ++
    value.kind.tag :: encrypted)

def decryptValue : Option Value → Except Error (Option Value)
  | none => .ok none
  | some value =>
      if ¬ encryptionMagic <+: value.bytes then .error .corruptedData
      else if value.bytes.length < headerLen then .error .corruptedData
      else
        let rest := value.bytes.drop encryptionMagic.length
        match (rest.drop 4).head?.bind ValueKind.fromTag with
        | none => .error .corruptedData
        | some kind => do
            let decrypted ← w.decryptFn (value.bytes.drop headerLen)
              (UInt32.ofNat (fromLeBytes (rest.take 4)))
            let value ← Value.new kind decrypted
            return some value

def decryptRevisioned (current : RevisionedValue) :
    Except Error RevisionedValue :=
  match w.decryptValue (some current.value) with
  | .error error => .error error
  | .ok none => .error .corruptedData
  | .ok (some value) => .ok { current with value }

def transposed {α β : Type} (f : α → Except Error β) :
    Option α → Except Error (Option β)
  | none => .ok none
  | some a => (f a).map some

def decryptTtl : Option (Value × Option F64) →
    Except Error (Option (Value × Option F64))
  | none => .ok none
  | some (value, seconds) => do
      let value ← w.decryptValue (some value)
      return value.map fun value => (value, seconds)

section Calls

variable (inner : (call : StoreCall) → StoreProgram call.Result)

def get (key : String) (collection : Option String) :
    StoreProgram (Option Value) := do
  let value ← inner (.one (.get key collection))
  returning (w.decryptValue value)

def ttl (key : String) (collection : Option String) :
    StoreProgram (Option (Value × Option F64)) := do
  let found ← inner (.one (.ttl key collection))
  returning (w.decryptTtl found)

def put (key : String) (value : Value) (collection : Option String)
    (seconds : Option F64) : StoreProgram Unit := do
  let encrypted ← returning (w.encryptValue value)
  inner (.one (.put key encrypted collection seconds))

def delete (key : String) (collection : Option String) : StoreProgram Bool :=
  inner (.one (.delete key collection))

def getMany (keys : List String) (collection : Option String) :
    StoreProgram (List (Option Value)) := do
  let values ← inner (.getMany keys collection)
  returning (values.mapM w.decryptValue)

def ttlMany (keys : List String) (collection : Option String) :
    StoreProgram (List (Option (Value × Option F64))) := do
  let results ← inner (.ttlMany keys collection)
  returning (results.mapM w.decryptTtl)

def putMany (keys : List String) (values : List Value)
    (collection : Option String) (seconds : Option F64) :
    StoreProgram Unit :=
  if keys.length ≠ values.length then
    returning (.error (.batchSizeMismatch keys.length values.length))
  else do
    let encrypted ← returning (values.mapM w.encryptValue)
    inner (.one (.putMany keys encrypted collection seconds))

def deleteMany (keys : List String) (collection : Option String) :
    StoreProgram Nat :=
  inner (.one (.deleteMany keys collection))

def getWithRevision (key : String) (collection : Option String) :
    StoreProgram (Option RevisionedValue) := do
  let current ← inner (.one (.getWithRevision key collection))
  returning (transposed w.decryptRevisioned current)

def compareAndSwap (key : String) (expected : Option Revision)
    (value : Value) (collection : Option String) (seconds : Option F64) :
    StoreProgram CompareAndSwapResult := do
  let value ← returning (w.encryptValue value)
  match ← inner (.one (.compareAndSwap key expected value collection seconds)) with
  | .applied revision => return .applied revision
  | .conflict current => do
      let current ← returning (transposed w.decryptRevisioned current)
      return .conflict current

/-- The snapshot of a conflict is returned as the store has it. -/
def compareAndDelete (key : String) (expected : Revision)
    (collection : Option String) : StoreProgram CompareAndDeleteResult :=
  inner (.one (.compareAndDelete key expected collection))

def call : (call : StoreCall) → StoreProgram call.Result
  | .one (.get key c) => w.get inner key c
  | .one (.ttl key c) => w.ttl inner key c
  | .one (.put key value c seconds) => w.put inner key value c seconds
  | .one (.putMany keys values c seconds) =>
      w.putMany inner keys values c seconds
  | .one (.delete key c) => delete inner key c
  | .one (.deleteMany keys c) => deleteMany inner keys c
  | .one (.getWithRevision key c) => w.getWithRevision inner key c
  | .one (.compareAndSwap key expected value c seconds) =>
      w.compareAndSwap inner key expected value c seconds
  | .one (.compareAndDelete key expected c) =>
      compareAndDelete inner key expected c
  | .getMany keys c => w.getMany inner keys c
  | .ttlMany keys c => w.ttlMany inner keys c

end Calls

end EncryptionWrapper

end OpenKeyV.Wrapper
