/-!
# Errors of the core library

The constructors follow `error.rs`.  Numbers printed into a message keep
their decimal text; the text of a foreign error (a UTF-8 decoder, a database
driver) is not modelled and is left out of the message that embeds it.
-/

namespace OpenKeyV

inductive Error where
  | storeSetup (message : String)
  | storeConnection (message : String)
  | serialization (message : String)
  | deserialization (message : String)
  | missingKey (key : String)
  | invalidKey (message : String)
  | invalidTtl (message : String)
  | invalidValue (message : String)
  | valueTooLarge (size max : Nat)
  | entryTooLarge
  | entryTooSmall
  | readOnly
  | encryption (message : String)
  | decryption (message : String)
  | corruptedData
  | encryptionVersion
  | pathSecurity (message : String)
  | timeout
  | invalidOperation (message : String)
  | batchSizeMismatch (keys values : Nat)
  | invalidChangeCursor (cursor : String)
  | changeCursorExpired (requested oldest : String)
  | changeFeedLagged (skipped : Nat)
  | revisionGeneration (message : String)
  deriving DecidableEq, Repr

def Error.text : Error → String
  | .storeSetup message => s!"store setup failed: {message}"
  | .storeConnection message => s!"store connection error: {message}"
  | .serialization message => s!"serialization failed: {message}"
  | .deserialization message => s!"deserialization failed: {message}"
  | .missingKey key => s!"missing key: {key}"
  | .invalidKey message => s!"invalid key: {message}"
  | .invalidTtl message => s!"invalid ttl: {message}"
  | .invalidValue message => s!"invalid value: {message}"
  | .valueTooLarge size max => s!"value too large: {size} bytes (max {max})"
  | .entryTooLarge => "entry too large"
  | .entryTooSmall => "entry too small"
  | .readOnly => "read-only store"
  | .encryption message => s!"encryption error: {message}"
  | .decryption message => s!"decryption error: {message}"
  | .corruptedData => "corrupted data"
  | .encryptionVersion => "encryption version mismatch"
  | .pathSecurity message => s!"path security error: {message}"
  | .timeout => "operation timed out"
  | .invalidOperation message => s!"invalid operation: {message}"
  | .batchSizeMismatch keys values =>
      s!"batch size mismatch: keys={keys} values={values}"
  | .invalidChangeCursor cursor => s!"invalid change cursor: {cursor}"
  | .changeCursorExpired requested oldest =>
      s!"change cursor {requested} is older than retained history " ++
        s!"starting at {oldest}"
  | .changeFeedLagged skipped =>
      s!"change subscriber lagged by {skipped} records"
  | .revisionGeneration message => s!"revision generation failed: {message}"

theorem bind_eq_ok {ε α β : Type} {x : Except ε α} {f : α → Except ε β}
    {b : β} : x >>= f = .ok b ↔ ∃ a, x = .ok a ∧ f a = .ok b := by
  cases x with
  | error error => simp [bind, Except.bind]
  | ok a => simp [bind, Except.bind]

end OpenKeyV
