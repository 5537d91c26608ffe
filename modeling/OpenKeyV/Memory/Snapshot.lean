import OpenKeyV.Memory.System
import OpenKeyV.Migration

/-!
# `copy_snapshot`

The copy reads an in-memory source and writes a target of any kind.  One step
is one call to either, or a turn of a loop between two calls.
-/

namespace OpenKeyV.Memory

open OpenKeyV.Library

/-- The writing calls of a store that a migration uses.  The collection comes
before the remaining lifetime, as in `AsyncKeyValue`. -/
structure Target (τ : Type) where
  put : String → Value → String → Option F64 → τ → Except Error Unit × τ
  putMany : List String → List Value → String → Option F64 → τ →
    Except Error Unit × τ
  delete : String → String → τ → Except Error Unit × τ

inductive CopyPhase where
  /-- `source.collections(None)`, before the setup. -/
  | opening
  | listing
  | enumerating (collections : List String)
  | reading (collection target : String) (keys collections : List String)
  | putting (collection target : String)
      (items : List (String × Option (Value × Option F64)))
      (keys collections : List String)
  | puttingMany (collection target : String) (items : List (String × Value))
      (keys collections : List String)
  | finished (result : Except Error Unit)

structure Copy (τ : Type) where
  source : MemoryState
  target : τ
  phase : CopyPhase
  report : MigrationReport

def Response.listed : Response → List String
  | .names listed => listed
  -- Never another response.
  | _ => []

def Response.withTtls : Response → List (Option (Value × Option F64))
  | .ttls found => found
  | _ => []

def Response.found : Response → List (Option Value)
  | .values found => found
  | _ => []

section Step

variable {τ : Type} (config : MemoryConfig) (rng : Nat → Option Revision)
  (options : MigrationOptions) (target : Target τ)

def readCall (now : DateTime) (order : Order) (call : Call)
    (s : MemoryState) : Except Error Response × MemoryState :=
  match enter config rng now order s call with
  | (s, .done result) => (result, s)
  -- Never taken: no reading call waits for the mutation lock.
  | (s, _) => (.error (.invalidOperation "not a reading call"), s)

def Copy.readThen {τ : Type} (m : Copy τ)
    (reply : Except Error Response × MemoryState)
    (next : Response → CopyPhase × MigrationReport) : Copy τ :=
  match reply with
  | (.error error, s) =>
      { m with source := s, phase := .finished (.error error) }
  | (.ok response, s) =>
      { m with
        source := s, phase := (next response).1, report := (next response).2 }

def Copy.writeThen {τ : Type} (m : Copy τ) (reply : Except Error Unit × τ)
    (next : CopyPhase) (copied : Nat) : Copy τ :=
  match reply with
  | (.error error, t) =>
      { m with target := t, phase := .finished (.error error) }
  | (.ok (), t) =>
      { m with
        target := t
        phase := next
        report := { m.report with copied := m.report.copied + copied } }

def Copy.start (source : MemoryState) (t : τ) : Copy τ :=
  ⟨source, t, .opening, .zero⟩

def Copy.step (m : Copy τ) (label : DateTime × Order) : Option (Copy τ) :=
  let read := readCall config rng label.1 label.2
  match m.phase with
  | .opening =>
      match setup config rng label.1 label.2 m.source with
      | (.error error, s) =>
          some { m with source := s, phase := .finished (.error error) }
      | (.ok (), s) => some { m with source := s, phase := .listing }
  | .listing =>
      let names := (Memory.collections m.source label.2 none).listed
      some { m with phase := .enumerating names }
  | .enumerating [] => some { m with phase := .finished (.ok ()) }
  | .enumerating (collection :: rest) =>
      if options.selected collection then
        match options.targetCollection collection with
        | none => some { m with phase := .enumerating rest }
        | some name =>
            some (m.readThen (read (.keys (some collection) none) m.source)
              fun response =>
                (.reading collection name response.listed rest, m.report))
      else some { m with phase := .enumerating rest }
  | .reading _ _ [] rest => some { m with phase := .enumerating rest }
  | .reading collection name (key :: keys) rest =>
      let batch := (key :: keys).take options.chunkSize
      let left := (key :: keys).drop options.chunkSize
      let report := { m.report with
        scanned := m.report.scanned + batch.length }
      if options.preserveTtl then
        some (Copy.readThen { m with report }
          (read (.ttlMany batch (some collection)) m.source) fun response =>
            (.putting collection name (batch.zip response.withTtls) left rest,
              report))
      else
        some (Copy.readThen { m with report }
          (read (.getMany batch (some collection)) m.source) fun response =>
            let items := (batch.zip response.found).filterMap fun item =>
              item.2.map fun value => (item.1, value)
            (if items.isEmpty then .reading collection name left rest
              else .puttingMany collection name items left rest,
              { report with
                skippedExpired :=
                  report.skippedExpired + (batch.length - items.length) }))
  | .putting collection name [] left rest =>
      some { m with phase := .reading collection name left rest }
  | .putting collection name ((_, none) :: items) left rest =>
      some { m with
        phase := .putting collection name items left rest
        report := { m.report with
          skippedExpired := m.report.skippedExpired + 1 } }
  | .putting collection name ((key, some (value, ttl)) :: items) left rest =>
      some (m.writeThen (target.put key value name ttl m.target)
        (.putting collection name items left rest) 1)
  | .puttingMany collection name items left rest =>
      some (m.writeThen (target.putMany (items.map Prod.fst)
          (items.map Prod.snd) name none m.target)
        (.reading collection name left rest) items.length)
  | .finished _ => none

end Step

section Reads

variable {config : MemoryConfig} {rng : Nat → Option Revision}
  {s : MemoryState}

theorem getCollection_ensure (s : MemoryState) (name : String) :
    getCollection name (s.ensureCollection name) =
      .ok ((s.collection name).getD ∅) := by
  simp [getCollection]

theorem liveIn_ensure (s : MemoryState) (now : DateTime) (name key : String) :
    liveIn now ((s.collection name).getD ∅) key = s.live now name key := by
  unfold liveIn MemoryState.live MemoryState.entry
  cases s.collection name <;> rfl

variable (now : DateTime) (order : Order)

theorem readCall_keys (h : s.setupComplete = true) (name : String) :
    readCall config rng now order (.keys (some name) none) s =
      (.ok (.names ((order.keys name
          ((s.collection name).getD ∅).keys).take pageLimit)),
        s.ensureCollection name) := by
  simp [readCall, enter, setup_complete h, prepare, Memory.keys,
    MemoryConfig.collectionName, getCollection_ensure, bind, Except.bind, pure,
    Except.pure, pageLen, defaultPageSize, pageLimit]

theorem readCall_ttlMany (h : s.setupComplete = true) (keys : List String)
    (name : String) :
    readCall config rng now order (.ttlMany keys (some name)) s =
      (.ok (.ttls (keys.map fun key => (s.live now name key).map fun stored =>
          (stored.entry.value, stored.entry.ttl now))),
        s.ensureCollection name) := by
  simp [readCall, enter, setup_complete h, prepare, Memory.ttlMany,
    MemoryConfig.collectionName, getCollection_ensure, liveIn_ensure, bind,
    Except.bind, pure, Except.pure]

theorem readCall_getMany (h : s.setupComplete = true) (keys : List String)
    (name : String) :
    readCall config rng now order (.getMany keys (some name)) s =
      (.ok (.values (keys.map fun key =>
          (s.live now name key).map (·.entry.value))),
        s.ensureCollection name) := by
  simp [readCall, enter, setup_complete h, prepare, Memory.getMany,
    MemoryConfig.collectionName, getCollection_ensure, liveIn_ensure, bind,
    Except.bind, pure, Except.pure]

end Reads

section Copies

variable {τ : Type}

def ttlItems (s : MemoryState) (now : DateTime) (collection : String)
    (keys : List String) : List (String × Option (Value × Option F64)) :=
  keys.map fun key => (key, (s.live now collection key).map fun stored =>
    (stored.entry.value, stored.entry.ttl now))

def valueItems (s : MemoryState) (now : DateTime) (collection : String)
    (keys : List String) : List (String × Value) :=
  keys.filterMap fun key => (s.live now collection key).map fun stored =>
    (key, stored.entry.value)

inductive Copies (options : MigrationOptions) (target : Target τ)
    (m : Copy τ) (now : DateTime) (order : Order) :
    CopyPhase → Copy τ → Prop where
  | listed : Copies options target m now order .listing
      { m with
        phase := .enumerating
          ((order.keys "" m.source.collections.keys).take pageLimit) }
  | ended : Copies options target m now order (.enumerating [])
      { m with phase := .finished (.ok ()) }
  | passed (collection : String) (rest : List String) :
      (options.selected collection = true →
        options.targetCollection collection = none) →
      Copies options target m now order (.enumerating (collection :: rest))
        { m with phase := .enumerating rest }
  | enumerated (collection name : String) (rest : List String) :
      options.selected collection = true →
      options.targetCollection collection = some name →
      Copies options target m now order (.enumerating (collection :: rest))
        { m with
          source := m.source.ensureCollection collection
          phase := .reading collection name
            ((order.keys collection
              ((m.source.collection collection).getD ∅).keys).take pageLimit)
            rest }
  | drained (collection name : String) (rest : List String) :
      Copies options target m now order (.reading collection name [] rest)
        { m with phase := .enumerating rest }
  | readTtls (collection name : String) (keys rest : List String) :
      options.preserveTtl = true → keys ≠ [] →
      Copies options target m now order (.reading collection name keys rest)
        { m with
          source := m.source.ensureCollection collection
          phase := .putting collection name
            (ttlItems m.source now collection (keys.take options.chunkSize))
            (keys.drop options.chunkSize) rest
          report := { m.report with
            scanned :=
              m.report.scanned + (keys.take options.chunkSize).length } }
  | readValues (collection name : String) (keys rest : List String)
      (items : List (String × Value)) :
      options.preserveTtl = false → keys ≠ [] →
      items = valueItems m.source now collection
        (keys.take options.chunkSize) →
      Copies options target m now order (.reading collection name keys rest)
        { m with
          source := m.source.ensureCollection collection
          phase := if items.isEmpty then
              .reading collection name (keys.drop options.chunkSize) rest
            else .puttingMany collection name items
              (keys.drop options.chunkSize) rest
          report := { m.report with
            scanned :=
              m.report.scanned + (keys.take options.chunkSize).length
            skippedExpired := m.report.skippedExpired +
              ((keys.take options.chunkSize).length - items.length) } }
  | written (collection name : String) (left rest : List String) :
      Copies options target m now order
        (.putting collection name [] left rest)
        { m with phase := .reading collection name left rest }
  | skipped (collection name key : String)
      (items : List (String × Option (Value × Option F64)))
      (left rest : List String) :
      Copies options target m now order
        (.putting collection name ((key, none) :: items) left rest)
        { m with
          phase := .putting collection name items left rest
          report := { m.report with
            skippedExpired := m.report.skippedExpired + 1 } }
  | put (collection name key : String) (value : Value) (ttl : Option F64)
      (items : List (String × Option (Value × Option F64)))
      (left rest : List String) (t : τ) :
      target.put key value name ttl m.target = (.ok (), t) →
      Copies options target m now order
        (.putting collection name ((key, some (value, ttl)) :: items) left rest)
        { m with
          target := t
          phase := .putting collection name items left rest
          report := { m.report with copied := m.report.copied + 1 } }
  | putMany (collection name : String) (items : List (String × Value))
      (left rest : List String) (t : τ) :
      target.putMany (items.map Prod.fst) (items.map Prod.snd) name none
        m.target = (.ok (), t) →
      Copies options target m now order
        (.puttingMany collection name items left rest)
        { m with
          target := t
          phase := .reading collection name left rest
          report := { m.report with
            copied := m.report.copied + items.length } }
  | putRefused (collection name key : String) (value : Value)
      (ttl : Option F64) (items : List (String × Option (Value × Option F64)))
      (left rest : List String) (error : Error) (t : τ) :
      target.put key value name ttl m.target = (.error error, t) →
      Copies options target m now order
        (.putting collection name ((key, some (value, ttl)) :: items) left rest)
        { m with target := t, phase := .finished (.error error) }
  | putManyRefused (collection name : String) (items : List (String × Value))
      (left rest : List String) (error : Error) (t : τ) :
      target.putMany (items.map Prod.fst) (items.map Prod.snd) name none
        m.target = (.error error, t) →
      Copies options target m now order
        (.puttingMany collection name items left rest)
        { m with target := t, phase := .finished (.error error) }

theorem zip_map_self {α β : Type} (f : α → β) (xs : List α) :
    xs.zip (xs.map f) = xs.map fun x => (x, f x) := by
  induction xs with
  | nil => rfl
  | cons x xs ih => simp [ih]

theorem filterMap_zip (s : MemoryState) (now : DateTime) (collection : String)
    (keys : List String) :
    ((keys.zip (keys.map fun key =>
        (s.live now collection key).map (·.entry.value))).filterMap fun item =>
          item.2.map fun value => (item.1, value)) =
      valueItems s now collection keys := by
  rw [zip_map_self, List.filterMap_map]
  refine List.filterMap_congr fun key _ => ?_
  cases hlive : s.live now collection key <;> simp [hlive]

theorem step_copies {config : MemoryConfig} {rng : Nat → Option Revision}
    {options : MigrationOptions} {target : Target τ} {m m' : Copy τ}
    {label : DateTime × Order} (hsetup : m.source.setupComplete = true)
    (hopen : m.phase ≠ .opening)
    (h : m.step config rng options target label = some m') :
    Copies options target m label.1 label.2 m.phase m' := by
  obtain ⟨now, order⟩ := label
  obtain ⟨source, t, phase, report⟩ := m
  cases phase with
  | opening => exact absurd rfl hopen
  | listing =>
      simp only [Copy.step, Memory.collections, Response.listed] at h
      cases h
      exact .listed
  | enumerating collections =>
      cases collections with
      | nil =>
          cases h
          exact .ended
      | cons collection rest =>
          simp only [Copy.step] at h
          cases hselected : options.selected collection with
          | false =>
              simp only [hselected, Bool.false_eq_true, if_false] at h
              cases h
              exact .passed collection rest (by simp [hselected])
          | true =>
              simp only [hselected, if_true] at h
              cases hmapped : options.targetCollection collection with
              | none =>
                  simp only [hmapped] at h
                  cases h
                  exact .passed collection rest fun _ => hmapped
              | some name =>
                  simp only [hmapped, readCall_keys now order hsetup,
                    Copy.readThen, Response.listed] at h
                  cases h
                  exact .enumerated collection name rest hselected hmapped
  | reading collection name keys rest =>
      cases keys with
      | nil =>
          cases h
          exact .drained collection name rest
      | cons key keys =>
          simp only [Copy.step] at h
          cases hpreserve : options.preserveTtl with
          | true =>
              simp only [hpreserve, if_true,
                readCall_ttlMany now order hsetup, Copy.readThen,
                Response.withTtls, zip_map_self] at h
              cases h
              exact .readTtls collection name (key :: keys) rest hpreserve
                (List.cons_ne_nil key keys)
          | false =>
              simp only [hpreserve, Bool.false_eq_true, if_false,
                readCall_getMany now order hsetup, Copy.readThen,
                Response.found, filterMap_zip] at h
              cases h
              exact .readValues collection name (key :: keys) rest _ hpreserve
                (List.cons_ne_nil key keys) rfl
  | putting collection name items left rest =>
      cases items with
      | nil =>
          cases h
          exact .written collection name left rest
      | cons item items =>
          obtain ⟨key, _ | ⟨value, ttl⟩⟩ := item
          · cases h
            exact .skipped collection name key items left rest
          · simp only [Copy.step] at h
            cases hput : target.put key value name ttl t with
            | mk result t' =>
                simp only [hput, Copy.writeThen] at h
                cases result with
                | error error =>
                    cases h
                    exact .putRefused collection name key value ttl items left
                      rest error t' hput
                | ok _ =>
                    cases h
                    exact .put collection name key value ttl items left rest t'
                      hput
  | puttingMany collection name items left rest =>
      simp only [Copy.step] at h
      cases hput : target.putMany (items.map Prod.fst) (items.map Prod.snd)
          name none t with
      | mk result t' =>
          simp only [hput, Copy.writeThen] at h
          cases result with
          | error error =>
              cases h
              exact .putManyRefused collection name items left rest error t'
                hput
          | ok _ =>
              cases h
              exact .putMany collection name items left rest t' hput
  | finished result => cases h

end Copies

end OpenKeyV.Memory
