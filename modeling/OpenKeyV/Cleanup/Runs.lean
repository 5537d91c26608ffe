import OpenKeyV.Cleanup.Requests

/-!
# Lazy cleanup among other calls

Any number of calls run against one backend, each request atomic and visible
at once.  A call deletes only an object in which it has found an expired
entry, but the object that its delete removes is the one that stands there by
then.
-/

namespace OpenKeyV.Cleanup

open Library Library.Interaction

variable {Address Doc ω : Type}

inductive Call (ω : Type) where
  | get (key : String) (collection : Option String)
  | ttl (key : String) (collection : Option String)
  | put (key : String) (value : Value) (collection : Option String)
      (ttl : Option F64)
  | maintain (operation : ω)

inductive Reply where
  | get (result : Except Error (Option Value))
  | ttl (result : Except Error (Option (Value × Option F64)))
  | put (result : Except Error Unit)
  | maintain (result : Except Error Unit)

def program (store : ObjectStore Address Doc)
    (maintain : ω → Requests Address Doc Unit) :
    Call ω → Interaction (@Access.Answer Address Doc)
      Reply
  | .get key collection => Reply.get <$> (store.get key collection).run
  | .ttl key collection => Reply.ttl <$> (store.ttl key collection).run
  | .put key value collection ttl =>
      Reply.put <$> (store.put key value collection ttl).run
  | .maintain operation => Reply.maintain <$> (maintain operation).run

/-- `log` and `seen` are history variables, which no call can read. -/
structure Server (Address Doc : Type) where
  clock : DateTime
  objects : Address → Option Doc
  log : Address → List (Nat × Doc)
  seen : Nat → Address → Nat

namespace Server

def fresh (clock : DateTime) (objects : Address → Option Doc) :
    Server Address Doc :=
  ⟨clock, objects, fun _ => [], fun _ _ => 0⟩

variable [DecidableEq Address]

def seenBy (s : Server Address Doc) (task : Nat) (a : Address) :
    Server Address Doc :=
  { s with
    seen := Function.update s.seen task
      (Function.update (s.seen task) a (s.log a).length) }

def written (s : Server Address Doc) (task : Nat) (a : Address) (doc : Doc) :
    Server Address Doc :=
  { s with
    objects := Function.update s.objects a (some doc),
    log := Function.update s.log a ((task, doc) :: s.log a) }

def removed (s : Server Address Doc) (a : Address) : Server Address Doc :=
  { s with objects := Function.update s.objects a none }

section Fields

variable {s : Server Address Doc} {task other : Nat} {a b : Address}
  {doc : Doc}

@[simp] theorem seenBy_clock : (s.seenBy task a).clock = s.clock := rfl

@[simp] theorem seenBy_objects : (s.seenBy task a).objects = s.objects := rfl

@[simp] theorem seenBy_log : (s.seenBy task a).log = s.log := rfl

@[simp] theorem seenBy_seen_self :
    (s.seenBy task a).seen task a = (s.log a).length := by
  simp [seenBy]

theorem seenBy_seen_of_ne (h : b ≠ a) :
    (s.seenBy task a).seen other b = s.seen other b := by
  by_cases hother : other = task
  · subst hother
    simp [seenBy, Function.update_of_ne h]
  · simp [seenBy, Function.update_of_ne hother]

theorem seenBy_seen_other (h : other ≠ task) :
    (s.seenBy task a).seen other b = s.seen other b := by
  simp [seenBy, Function.update_of_ne h]

@[simp] theorem written_clock : (s.written task a doc).clock = s.clock := rfl

@[simp] theorem written_seen : (s.written task a doc).seen = s.seen := rfl

@[simp] theorem written_objects_self :
    (s.written task a doc).objects a = some doc :=
  Function.update_self ..

@[simp] theorem written_log_self :
    (s.written task a doc).log a = (task, doc) :: s.log a :=
  Function.update_self ..

theorem written_objects_of_ne (h : b ≠ a) :
    (s.written task a doc).objects b = s.objects b :=
  Function.update_of_ne h ..

theorem written_log_of_ne (h : b ≠ a) :
    (s.written task a doc).log b = s.log b :=
  Function.update_of_ne h ..

@[simp] theorem removed_clock : (s.removed a).clock = s.clock := rfl

@[simp] theorem removed_log : (s.removed a).log = s.log := rfl

@[simp] theorem removed_objects_self : (s.removed a).objects a = none :=
  Function.update_self ..

theorem removed_objects_of_ne (h : b ≠ a) :
    (s.removed a).objects b = s.objects b :=
  Function.update_of_ne h ..

end Fields

/-- The backend chooses what a listing returns. -/
def handle (task : Nat) (page : Listing Address) :
    (access : Access Address Doc) → Server Address Doc →
      Option (access.Answer × Server Address Doc)
  | .read a, s => some (s.objects a, s.seenBy task a)
  | .write a doc, s => some ((), s.written task a doc)
  | .delete a, s => some ((), s.removed a)
  | .now, s => some (s.clock, s)
  | .list _, s => some (page, s)

def happen (later : DateTime) (s : Server Address Doc) :
    Option (Server Address Doc) :=
  if s.clock ≤ later then some { s with clock := later } else none

end Server

abbrev CallPool (Address Doc ω : Type) :=
  Library.Pool (Server Address Doc) (Call ω)
    (@Access.Answer Address Doc) Reply

def step [DecidableEq Address] (store : ObjectStore Address Doc)
    (maintain : ω → Requests Address Doc Unit) :=
  Pool.step (program store maintain) Server.handle
    (@Server.happen Address Doc)

/-- A reader of the object finds an expired entry in it. -/
def ObjectStore.Expired (store : ObjectStore Address Doc) (a : Address)
    (doc : Doc) (now : DateTime) : Prop :=
  ∃ collection key entry, store.fromDoc collection key a doc = .ok entry ∧
    entry.isExpired now = true

theorem ObjectStore.Expired.mono {store : ObjectStore Address Doc}
    {a : Address} {doc : Doc} {now later : DateTime} (hle : now ≤ later)
    (h : store.Expired a doc now) : store.Expired a doc later := by
  obtain ⟨collection, key, entry, hdoc, hexpired⟩ := h
  exact ⟨collection, key, entry, hdoc,
    ManagedEntry.isExpired_mono hle hexpired⟩

/-- A delete comes before any put that followed the read of its task, or it
finds nothing that has not expired. -/
def Undisturbed (store : ObjectStore Address Doc) (s : Server Address Doc)
    (task : Nat) : Access Address Doc → Prop
  | .delete a => (s.log a).length = s.seen task a ∨
      ∀ doc, s.objects a = some doc → store.Expired a doc s.clock
  | _ => True

/-- In every run whose accesses are allowed, a `get` that starts after a put
has returned `Ok` returns the value of the put, if no later put has written
its object and the entry has not expired. -/
def Spares [DecidableEq Address]
    (allowed : Server Address Doc → Nat → Access Address Doc → Prop)
    (store : ObjectStore Address Doc)
    (maintain : ω → Requests Address Doc Unit) : Prop :=
  ∀ clock objects before after (pool pool' : CallPool Address Doc ω)
    writer reader key value collection ttl a doc rest result,
    value.Storable →
    run (step store maintain) (Pool.idle (Server.fresh clock objects)) before =
      some pool →
    pool.tasks writer =
      some (.put key value collection ttl, .done (.put (.ok ()))) →
    pool.shared.log a = (writer, doc) :: rest →
    run (step store maintain) pool (.start reader (.get key collection) ::
      after) = some pool' →
    Along (step store maintain) (Pool.Allows allowed)
      (Pool.idle (Server.fresh clock objects))
      (before ++ .start reader (.get key collection) :: after) →
    pool'.tasks reader =
      some (.get key collection, .done (.get result)) →
    pool'.shared.log a = (writer, doc) :: rest →
    ¬ store.Expired a doc pool'.shared.clock →
    result = .ok (some value)

structure Known (Address Doc : Type) where
  held : Address → Option (Option Doc)
  clock : Option DateTime
  wrote : Option (Address × Doc)

namespace Known

def blank : Known Address Doc := ⟨fun _ => none, none, none⟩

variable [DecidableEq Address]

def learn (k : Known Address Doc) :
    (access : Access Address Doc) → access.Answer → Known Address Doc
  | .read a, found => { k with held := Function.update k.held a (some found) }
  | .write a doc, _ => { k with wrote := some (a, doc) }
  | .delete _, _ => k
  | .now, time => { k with clock := some time }
  | .list _, _ => k

end Known

def May (store : ObjectStore Address Doc) (k : Known Address Doc) :
    Access Address Doc → Prop
  | .write _ _ => k.wrote = none
  | .delete a => ∃ doc now, k.held a = some (some doc) ∧
      k.clock = some now ∧ store.Expired a doc now
  | _ => True

def Post (store : ObjectStore Address Doc) :
    Call ω → Known Address Doc → Reply → Prop
  | .get key collection, k, .get result => ∀ a,
      store.address (store.collectionName collection) key = .ok a →
        ∃ found, k.held a = some found ∧ ∀ doc entry, found = some doc →
          store.fromDoc (store.collectionName collection) key a doc =
            .ok entry →
          ∃ now, k.clock = some now ∧
            result = .ok (if entry.isExpired now then none
              else some entry.value)
  | .put key value collection ttl, k, .put (.ok ()) => ∃ a now entry,
      store.address (store.collectionName collection) key = .ok a ∧
        ManagedEntry.ofTtl now value ttl = .ok entry ∧
        k.wrote = some (a, store.toDoc entry)
  | _, _, _ => True

section Programs

variable [DecidableEq Address] {store : ObjectStore Address Doc}
  {k : Known Address Doc} {a : Address} {α β : Type}

abbrev Respecting (store : ObjectStore Address Doc)
    (post : Known Address Doc → α → Prop) (k : Known Address Doc)
    (tree : Interaction (@Access.Answer Address Doc) α) :
    Prop :=
  Respects Known.learn (May store) post k tree

def ReadEntry (store : ObjectStore Address Doc) (collection key : String)
    (a : Address) (k : Known Address Doc)
    (result : Except Error (Option ManagedEntry)) : Prop :=
  ∃ found, k.held a = some found ∧ ∀ doc entry, found = some doc →
    store.fromDoc collection key a doc = .ok entry →
    ∃ now, k.clock = some now ∧
      result = .ok (if entry.isExpired now then none else some entry)

theorem respects_readEntry {collection key : String} :
    Respecting store (ReadEntry store collection key a) k
      (store.readEntry collection key a).run := by
  have hheld : ∀ found, (k.learn (.read a) found).held a = some found :=
    fun found => Function.update_self ..
  refine ⟨trivial, fun found => ?_⟩
  cases found with
  | none => exact ⟨none, hheld none, fun _ _ hfound => by cases hfound⟩
  | some doc =>
      change Respecting store _ _ (attempt _ >>= _).run
      rw [Respecting, respects_attempt_bind]
      cases hdoc : store.fromDoc collection key a doc with
      | error error =>
          refine ⟨some doc, hheld _, fun other entry hother hentry => ?_⟩
          cases hother
          rw [hdoc] at hentry
          cases hentry
      | ok entry =>
          refine ⟨trivial, fun now => ?_⟩
          have hread : ∀ result : Option ManagedEntry,
              result = (if entry.isExpired now then none else some entry) →
              ReadEntry store collection key a
                ((k.learn (.read a) (some doc)).learn .now now)
                (.ok result) := by
            intro result hresult
            refine ⟨some doc, hheld _, fun other found hother hfound => ?_⟩
            cases hother
            rw [hdoc] at hfound
            cases hfound
            exact ⟨now, rfl, congrArg Except.ok hresult⟩
          change Respecting store _ _
            (if entry.isExpired now then _ else _ : Requests _ _ _).run
          by_cases hexpired : entry.isExpired now = true
          · rw [if_pos hexpired]
            refine ⟨⟨doc, now, hheld _, rfl, collection, key, entry, hdoc,
              hexpired⟩, fun _ => ?_⟩
            exact hread none (by rw [if_pos hexpired])
          · rw [if_neg hexpired]
            exact hread (some entry) (by rw [if_neg hexpired])

theorem respects_get {key : String} {collection : Option String} :
    Respecting store (fun k result =>
      Post store (.get key collection : Call ω) k (.get result)) k
      (store.get key collection).run := by
  unfold ObjectStore.get
  rw [Respecting, respects_attempt_bind]
  cases haddress : store.address (store.collectionName collection) key with
  | error error =>
      intro a ha
      rw [haddress] at ha
      cases ha
  | ok a =>
      change Respecting store _ _ (_ >>= _ : Requests _ _ _).run
      rw [Respecting, respects_bind_run]
      refine respects_readEntry.mono fun k result hread => ?_
      obtain ⟨found, hfound, hentry⟩ := hread
      have hpost : ∀ value : Except Error (Option Value),
          value = result.map (Option.map ManagedEntry.value) →
          Post store (.get key collection : Call ω) k (.get value) := by
        rintro value rfl b hb
        rw [haddress] at hb
        cases hb
        refine ⟨found, hfound, fun doc entry hdoc hstored => ?_⟩
        obtain ⟨now, hnow, rfl⟩ := hentry doc entry hdoc hstored
        refine ⟨now, hnow, ?_⟩
        simp only [Except.map]
        split <;> rfl
      cases result with
      | error error => exact hpost _ rfl
      | ok entry => exact hpost _ rfl

theorem respects_ttl {key : String} {collection : Option String} :
    Respecting store (fun _ _ => True) k (store.ttl key collection).run := by
  unfold ObjectStore.ttl
  rw [Respecting, respects_attempt_bind]
  cases store.address (store.collectionName collection) key with
  | error error => trivial
  | ok a =>
      change Respecting store _ _ (_ >>= _ : Requests _ _ _).run
      rw [Respecting, respects_bind_run]
      refine respects_readEntry.mono fun k result _ => ?_
      match result with
      | .error error => trivial
      | .ok none => trivial
      | .ok (some entry) => exact ⟨trivial, fun now => trivial⟩

theorem respects_put {key : String} {value : Value}
    {collection : Option String} {ttl : Option F64} (hk : k.wrote = none) :
    Respecting store (fun k result =>
      Post store (.put key value collection ttl : Call ω) k (.put result)) k
      (store.put key value collection ttl).run := by
  have hwrite : ∀ a now entry (k : Known Address Doc), k.wrote = none →
      store.address (store.collectionName collection) key = .ok a →
      ManagedEntry.ofTtl now value ttl = .ok entry →
      Respecting store (fun k result =>
        Post store (.put key value collection ttl : Call ω) k (.put result)) k
        (writeObject a (store.toDoc entry)).run :=
    fun a now entry k hk ha hentry =>
      ⟨hk, fun _ => ⟨a, now, entry, ha, hentry, rfl⟩⟩
  unfold ObjectStore.put
  by_cases hfirst : store.entryFirst = true
  · simp only [hfirst, if_true]
    refine ⟨trivial, fun now => ?_⟩
    change Respecting store _ _ (attempt _ >>= _).run
    rw [Respecting, respects_attempt_bind]
    cases hentry : ManagedEntry.ofTtl now value ttl with
    | error error => trivial
    | ok entry =>
        change Respecting store _ _ (attempt _ >>= _).run
        rw [Respecting, respects_attempt_bind]
        cases ha : store.address (store.collectionName collection) key with
        | error error => trivial
        | ok a => exact hwrite a now entry _ hk ha hentry
  · simp only [hfirst]
    change Respecting store _ _ (attempt _ >>= _).run
    rw [Respecting, respects_attempt_bind]
    cases ha : store.address (store.collectionName collection) key with
    | error error => trivial
    | ok a =>
        refine ⟨trivial, fun now => ?_⟩
        change Respecting store _ _ (attempt _ >>= _).run
        rw [Respecting, respects_attempt_bind]
        cases hentry : ManagedEntry.ofTtl now value ttl with
        | error error => trivial
        | ok entry => exact hwrite a now entry _ hk ha hentry

theorem respects_program {maintain : ω → Requests Address Doc Unit}
    (hmaintain : ∀ operation k,
      Respecting store (fun _ _ => True) k (maintain operation).run)
    (call : Call ω) :
    Respecting store (Post store call) Known.blank
      (program store maintain call) := by
  cases call with
  | get key collection => exact respects_map.mpr respects_get
  | ttl key collection => exact respects_map.mpr respects_ttl
  | put key value collection ttl =>
      exact respects_map.mpr (respects_put rfl)
  | maintain operation => exact respects_map.mpr (hmaintain operation _)

theorem respects_cullObject (defaultCollection objectKey : String)
    (k : Known String Bytes) :
    Respecting (s3Store defaultCollection) (fun _ _ => True) k
      (S3.cullObject objectKey).run := by
  unfold S3.cullObject
  rw [Respecting, respects_attempt_bind]
  cases S3.decomposeS3Key objectKey with
  | error error => trivial
  | ok identity =>
      refine ⟨trivial, fun found => ?_⟩
      cases found with
      | none => trivial
      | some bytes =>
          change Respecting _ _ _ (attempt _ >>= _).run
          rw [Respecting, respects_attempt_bind]
          cases hdecode : ManagedEntry.decode bytes with
          | error error => trivial
          | ok entry =>
              refine ⟨trivial, fun now => ?_⟩
              change Respecting _ _ _
                (if entry.isExpired now then _ else _ : Requests _ _ _).run
              by_cases hexpired : entry.isExpired now = true
              · rw [if_pos hexpired]
                exact ⟨⟨bytes, now, Function.update_self .., rfl, "", "",
                  entry, hdecode, hexpired⟩, fun _ => trivial⟩
              · rw [if_neg hexpired]
                trivial

theorem respects_cullContents (defaultCollection : String)
    (contents : List (Option String)) (k : Known String Bytes) :
    Respecting (s3Store defaultCollection) (fun _ _ => True) k
      (S3.cullContents contents).run := by
  induction contents generalizing k with
  | nil => trivial
  | cons objectKey contents ih =>
      cases objectKey with
      | none => exact ih k
      | some objectKey =>
          rw [S3.cullContents, Respecting, respects_bind_run]
          refine (respects_cullObject defaultCollection objectKey k).mono
            fun k result _ => ?_
          cases result with
          | error error => trivial
          | ok _ => exact ih k

theorem respects_cullPages (defaultCollection : String) (pages : Nat)
    (continuation : Option String) (k : Known String Bytes) :
    Respecting (s3Store defaultCollection) (fun _ _ => True) k
      (S3.cullPages pages continuation).run := by
  induction pages generalizing continuation k with
  | zero => trivial
  | succ pages ih =>
      refine ⟨trivial, fun res => ?_⟩
      change Respecting _ _ _ (S3.cullContents _ >>= _).run
      rw [Respecting, respects_bind_run]
      refine (respects_cullContents defaultCollection res.contents k).mono
        fun k result _ => ?_
      cases result with
      | error error => trivial
      | ok _ =>
          change Respecting _ _ _
            (if res.isTruncated ≠ some true then _ else _ :
              Requests _ _ _).run
          by_cases hlast : res.isTruncated ≠ some true
          · rw [if_pos hlast]
            trivial
          · rw [if_neg hlast]
            cases res.nextContinuationToken with
            | none => trivial
            | some token => exact ih (some token) k

end Programs

end OpenKeyV.Cleanup
