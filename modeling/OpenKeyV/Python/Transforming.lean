import OpenKeyV.Python.Value

/-!
# The wrappers that transform values

`CompressionWrapper` and `BaseEncryptionWrapper` of the Python package put a
dictionary in the place of a value, and read the value back out of it.  JSON,
`gzip` and `base64` are those of the interpreter.
-/

namespace OpenKeyV.Python

structure Codecs where
  dumps : PyValue → Except PyError Bytes
  loads : Bytes → Except PyError PyValue
  compress : Bytes → Bytes
  decompress : Bytes → Except PyError Bytes
  b64encode : Bytes → String
  b64decode : String → Except PyError Bytes
  repr : PyValue → String
  /-- The text of `type(value)`. -/
  typeText : PyValue → String
  recursionLimit : Nat

def getItem (key : String) (entries : List (PyKey × PyValue)) :
    Option PyValue :=
  (entries.find? fun entry => entry.1 = .str key).map Prod.snd

def hasKeys (names : List String) (entries : List (PyKey × PyValue)) : Bool :=
  entries.all (fun entry => names.any fun name => entry.1 = .str name) &&
    names.all fun name => (getItem name entries).isSome

section Json

variable (codecs : Codecs)

def isJsonError (kind : PyErrorKind) : Bool :=
  kind = .valueError || kind = .typeError

def dumpToJsonBytes (obj : PyValue) : Except PyError Bytes :=
  except isJsonError (fun error => ⟨.serializationError,
    s!"Failed to serialize object to JSON: {error.message}"⟩)
    (codecs.dumps obj)

def loadFromJson (json : Bytes) : Except PyError PyValue :=
  except isJsonError (fun error => ⟨.deserializationError,
    s!"Failed to deserialize JSON string: {error.message}"⟩)
    (codecs.loads json)

end Json

namespace CompressionWrapper

def compressedDataKey : String := "__compressed_data__"

def compressionVersionKey : String := "__compression_version__"

def compressionAlgorithmKey : String := "__compression_algorithm__"

def compressionKeys : List String :=
  [compressedDataKey, compressionVersionKey, compressionAlgorithmKey]

def envelope (data : String) : PyValue :=
  .dict [(.str compressedDataKey, .str data),
    (.str compressionVersionKey, .int 1),
    (.str compressionAlgorithmKey, .str "gzip")]

def isEnvelope : PyValue → Bool
  | .dict entries => (getItem compressedDataKey entries).isSome
  | _ => false

variable (codecs : Codecs)

/-- The classes that `_decompress_value` catches; `binascii.Error` is a
`ValueError`. -/
def isCaught (kind : PyErrorKind) : Bool :=
  kind = .osError || kind = .deserializationError || kind = .typeError ||
    kind = .valueError

def decompressed (data : String) : Except PyError PyValue :=
  except isCaught (fun _ => ⟨.decompressionError,
    "Failed to decompress stored value."⟩) do
      let compressedBytes ← codecs.b64decode data
      let jsonBytes ← codecs.decompress compressedBytes
      loadFromJson codecs jsonBytes

def decompressValue : PyValue → Except PyError PyValue
  | .dict entries =>
      match getItem compressedDataKey entries with
      | none => .ok (.dict entries)
      | some data =>
          if !hasKeys compressionKeys entries then
            .error ⟨.decompressionError, "Compressed value must contain " ++
              "exactly the data, version, and algorithm fields."⟩
          else
            match data with
            | .str data =>
                match getItem compressionVersionKey entries with
                | some (.int 1) =>
                    match getItem compressionAlgorithmKey entries with
                    | some (.str "gzip") => decompressed codecs data
                    | algorithm => .error ⟨.decompressionError,
                        "Unsupported compression algorithm: " ++
                          s!"{codecs.repr (algorithm.getD .none)}."⟩
                | version => .error ⟨.decompressionError,
                    "Unsupported compression version: " ++
                      s!"{codecs.repr (version.getD .none)}."⟩
            | _ => .error ⟨.decompressionError,
                "Compressed data must be a Base64 string."⟩
  | value => .ok value

/-- `_compress_value`; the fuel is the depth that the interpreter allows. -/
def compressValue (minSizeToCompress : Int) :
    Nat → PyValue → Except PyError PyValue
  | 0, _ =>
      .error ⟨.recursionError, "maximum recursion depth exceeded"⟩
  | fuel + 1, value =>
      if isEnvelope value then do
        let decompressed ← decompressValue codecs value
        compressValue minSizeToCompress fuel decompressed
      else do
        let jsonBytes ← dumpToJsonBytes codecs value
        if (jsonBytes.length : Int) < minSizeToCompress then return value
        else return envelope (codecs.b64encode (codecs.compress jsonBytes))

end CompressionWrapper

namespace BaseEncryptionWrapper

def encryptedDataKey : String := "__encrypted_data__"

def encryptionVersionKey : String := "__encryption_version__"

def encryptionKeys : List String := [encryptedDataKey, encryptionVersionKey]

def envelope (data : String) (version : Int) : PyValue :=
  .dict [(.str encryptedDataKey, .str data),
    (.str encryptionVersionKey, .int version)]

def isEncryptionError (kind : PyErrorKind) : Bool :=
  kind = .encryptionError || kind = .decryptionError ||
    kind = .corruptedDataError || kind = .encryptionVersionError

variable (codecs : Codecs)

def encryptValue (encryptionFn : Bytes → Except PyError Bytes) (version : Int)
    (value : PyValue) : Except PyError PyValue := do
  let jsonBytes ← dumpToJsonBytes codecs value
  let encryptedBytes ← except (fun _ => true)
    (fun _ => ⟨.encryptionError, "Failed to encrypt value"⟩)
    (encryptionFn jsonBytes)
  return envelope (codecs.b64encode encryptedBytes) version

def validateEncryptedPayload (entries : List (PyKey × PyValue)) :
    Except PyError (Int × String) :=
  if !hasKeys encryptionKeys entries then
    .error ⟨.corruptedDataError,
      "Encrypted value must contain exactly the data and version fields."⟩
  else
    match getItem encryptionVersionKey entries with
    | some (.int version) =>
        match getItem encryptedDataKey entries with
        | some (.str data) => .ok (version, data)
        | data => .error ⟨.corruptedDataError,
            "expected encrypted data to be a str, got " ++
              codecs.typeText (data.getD .none)⟩
    | version => .error ⟨.corruptedDataError,
        "expected encryption version to be an int, got " ++
          codecs.typeText (version.getD .none)⟩

def decryptValue (decryptionFn : Bytes → Int → Except PyError Bytes) :
    PyValue → Except PyError PyValue
  | .dict entries => do
      let (version, data) ← validateEncryptedPayload codecs entries
      let encryptedBytes ← except (fun kind => kind = .valueError)
        (fun _ => ⟨.corruptedDataError,
          "Encrypted data must be a valid Base64 string."⟩)
        (codecs.b64decode data)
      let jsonBytes ← except (fun kind => !isEncryptionError kind)
        (fun _ => ⟨.decryptionError, "Failed to decrypt value."⟩)
        (decryptionFn encryptedBytes version)
      except (fun kind => kind = .deserializationError || kind = .typeError)
        (fun _ => ⟨.corruptedDataError,
          "Decrypted value must contain a JSON object."⟩)
        (loadFromJson codecs jsonBytes)
  | value => .ok value

end BaseEncryptionWrapper

inductive Op where
  | get (key : String) (collection : Option String)
  | getMany (keys : List String) (collection : Option String)
  | ttl (key : String) (collection : Option String)
  | ttlMany (keys : List String) (collection : Option String)
  | put (key : String) (value : PyValue) (collection : Option String)
      (ttl : Option F64)
  | putMany (keys : List String) (values : List PyValue)
      (collection : Option String) (ttl : Option F64)
  | delete (key : String) (collection : Option String)
  | deleteMany (keys : List String) (collection : Option String)

inductive Reply where
  | unit
  | value (value : PyValue)
  | values (values : List PyValue)
  | ttl (value : PyValue) (ttl : Option F64)
  | ttls (values : List (PyValue × Option F64))
  | flag (deleted : Bool)
  | count (deleted : Nat)

abbrev KeyValue (σ : Type) := Op → σ → Except PyError Reply × σ

section Wrapping

variable {σ : Type}

def decodePair (decode : PyValue → Except PyError PyValue)
    (pair : PyValue × Option F64) : Except PyError (PyValue × Option F64) := do
  let value ← decode pair.1
  return (value, pair.2)

def decodeReply (decode : PyValue → Except PyError PyValue) :
    Reply → Except PyError Reply
  | .value value => do return .value (← decode value)
  | .values values => do return .values (← values.mapM decode)
  | .ttl value ttl => do return .ttl (← decode value) ttl
  | .ttls values => do return .ttls (← values.mapM (decodePair decode))
  | reply => .ok reply

def wrapValues (encode decode : PyValue → Except PyError PyValue)
    (inner : KeyValue σ) : KeyValue σ
  | .put key value collection ttl, s =>
      match encode value with
      | .ok value => inner (.put key value collection ttl) s
      | .error error => (.error error, s)
  | .putMany keys values collection ttl, s =>
      match values.mapM encode with
      | .ok values => inner (.putMany keys values collection ttl) s
      | .error error => (.error error, s)
  | op, s =>
      let (reply, s) := inner op s
      (reply.bind (decodeReply decode), s)

inductive Layer where
  | compression (minSizeToCompress : Int)
  | encryption (encryptionFn : Bytes → Except PyError Bytes)
      (decryptionFn : Bytes → Int → Except PyError Bytes) (version : Int)

variable (codecs : Codecs)

def Layer.encode : Layer → PyValue → Except PyError PyValue
  | .compression minSizeToCompress =>
      CompressionWrapper.compressValue codecs minSizeToCompress
        codecs.recursionLimit
  | .encryption encryptionFn _ version =>
      BaseEncryptionWrapper.encryptValue codecs encryptionFn version

def Layer.decode : Layer → PyValue → Except PyError PyValue
  | .compression _ => CompressionWrapper.decompressValue codecs
  | .encryption _ decryptionFn _ =>
      BaseEncryptionWrapper.decryptValue codecs decryptionFn

def stacked (store : KeyValue σ) : List Layer → KeyValue σ
  | [] => store
  | layer :: layers =>
      wrapValues (layer.encode codecs) (layer.decode codecs)
        (stacked store layers)

end Wrapping

abbrev Place := Option String × String

abbrev Slots := Place → Option (PyValue × Option F64)

namespace Slots

def empty : Slots := fun _ => none

def read (slots : Slots) (place : Place) : PyValue × Option F64 :=
  (slots place).getD (.none, none)

def putAll (collection : Option String) (ttl : Option F64) :
    List (String × PyValue) → Slots → Slots
  | [], slots => slots
  | (key, value) :: items, slots =>
      putAll collection ttl items
        (Function.update slots (collection, key) (some (value, ttl)))

def deleteAll (collection : Option String) :
    List String → Slots → Nat × Slots
  | [], slots => (0, slots)
  | key :: keys, slots =>
      let (count, rest) := deleteAll collection keys
        (Function.update slots (collection, key) none)
      ((if (slots (collection, key)).isSome then 1 else 0) + count, rest)

def call : KeyValue Slots
  | .get key collection, slots =>
      (.ok (.value (slots.read (collection, key)).1), slots)
  | .getMany keys collection, slots =>
      (.ok (.values (keys.map fun key => (slots.read (collection, key)).1)),
        slots)
  | .ttl key collection, slots =>
      let (value, ttl) := slots.read (collection, key)
      (.ok (.ttl value ttl), slots)
  | .ttlMany keys collection, slots =>
      (.ok (.ttls (keys.map fun key => slots.read (collection, key))), slots)
  | .put key value collection ttl, slots =>
      (.ok .unit, Function.update slots (collection, key) (some (value, ttl)))
  | .putMany keys values collection ttl, slots =>
      if keys.length ≠ values.length then
        (.error ⟨.valueError, "put_many called but a different number of " ++
          "keys and values were provided"⟩, slots)
      else (.ok .unit, slots.putAll collection ttl (keys.zip values))
  | .delete key collection, slots =>
      (.ok (.flag (slots (collection, key)).isSome),
        Function.update slots (collection, key) none)
  | .deleteMany keys collection, slots =>
      let (count, slots) := slots.deleteAll collection keys
      (.ok (.count count), slots)

end Slots

end OpenKeyV.Python
