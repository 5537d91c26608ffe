import OpenKeyV.Mongo.Store
import Mathlib.Data.Finset.Lattice.Basic

/-!
# Calls of many `MongoDBStore`s on one database

Any number of calls run, each by one of any number of stores.  A call that
waits for the lock of its store takes no step.  Between the steps the clock
advances and the server removes what its TTL index finds expired.
-/

namespace OpenKeyV.Mongo

open Library Library.Interaction

inductive Operation where
  | get (key : String) (collection : Option String)
  | ttl (key : String) (collection : Option String)
  | put (key : String) (value : Value) (collection : Option String)
      (ttl : Option F64)
  | delete (key : String) (collection : Option String)
  | getMany (keys : List String) (collection : Option String)
  | ttlMany (keys : List String) (collection : Option String)
  | putMany (keys : List String) (values : List Value)
      (collection : Option String) (ttl : Option F64) (order : MapOrder)
  | deleteMany (keys : List String) (collection : Option String)
  | destroyCollection (collection : String)
  | destroy

structure Call where
  store : Nat
  operation : Operation

inductive Reply where
  | get (result : Except Error (Option Value))
  | ttl (result : Except Error (Option (Value × Option F64)))
  | put (result : Except Error Unit)
  | delete (result : Except Error Bool)
  | getMany (result : Except Error (List (Option Value)))
  | ttlMany (result : Except Error (List (Option (Value × Option F64))))
  | putMany (result : Except Error Unit)
  | deleteMany (result : Except Error Nat)
  | destroyCollection (result : Except Error Bool)
  | destroy (result : Except Error Bool)

structure Deployment where
  databaseName : String
  config : Nat → MongoDBConfig

def Deployment.store (deployment : Deployment) (number : Nat) :
    MongoDBStore :=
  ⟨number, deployment.databaseName, deployment.config number⟩

def perform (store : MongoDBStore) :
    Operation → Interaction Access.Answer Reply
  | .get key collection => Reply.get <$> (store.get key collection).run
  | .ttl key collection => Reply.ttl <$> (store.ttl key collection).run
  | .put key value collection ttl =>
      Reply.put <$> (store.put key value collection ttl).run
  | .delete key collection => Reply.delete <$> (store.delete key collection).run
  | .getMany keys collection =>
      Reply.getMany <$> (store.getMany keys collection).run
  | .ttlMany keys collection =>
      Reply.ttlMany <$> (store.ttlMany keys collection).run
  | .putMany keys values collection ttl order =>
      Reply.putMany <$> (store.putMany keys values collection ttl order).run
  | .deleteMany keys collection =>
      Reply.deleteMany <$> (store.deleteMany keys collection).run
  | .destroyCollection collection =>
      Reply.destroyCollection <$> (store.destroyCollection collection).run
  | .destroy => Reply.destroy <$> store.destroy.run

def program (deployment : Deployment) (call : Call) :
    Interaction Access.Answer Reply :=
  perform (deployment.store call.store) call.operation

/-- `drops`, `seen` and `remembered` are history variables, which no call can
read. -/
structure Server where
  db : Database
  initialized : Nat → Finset String
  holder : Nat → Option Nat
  drops : String → Nat
  /-- How many drops there had been when the key index was found on which a
  task relies. -/
  seen : Nat → String → Option Nat
  remembered : Nat → String → Nat

namespace Server

def fresh (clock : DateTime) : Server :=
  ⟨.fresh clock, fun _ => ∅, fun _ => none, fun _ => 0, fun _ _ => none,
    fun _ _ => 0⟩

def lock (s : Server) (task store : Nat) : Server :=
  { s with
    holder := Function.update s.holder store (some task)
    seen := Function.update s.seen task fun name =>
      if name ∈ s.initialized store then some (s.remembered store name)
      else s.seen task name }

def unlock (s : Server) (task store : Nat) (initialized : Finset String) :
    Server :=
  { s with
    holder := Function.update s.holder store none
    initialized := Function.update s.initialized store initialized
    remembered := Function.update s.remembered store fun name =>
      (s.seen task name).getD (s.remembered store name) }

def note (s : Server) (task : Nat) : Request → Server
  | .listIndexes name =>
      { s with
        seen := Function.update s.seen task
          (Function.update (s.seen task) name
            (if (s.db.target name).exclusive then some (s.drops name)
              else none)) }
  | .drop name =>
      { s with drops := Function.update s.drops name (s.drops name + 1) }
  | _ => s

/-- `retried` is the choice of the server where an insertion meets the key
index. -/
def handle (task : Nat) (retried : Bool) :
    (access : Access) → Server → Option (access.Answer × Server)
  | .now, s => some (s.db.clock, s)
  | .lock store, s =>
      match s.holder store with
      | none => some (s.initialized store, s.lock task store)
      | some _ => none
  | .unlock store initialized, s => some ((), s.unlock task store initialized)
  | .send message, s =>
      let served := s.db.serve retried message
      some (served.1, { s.note task message with db := served.2 })

end Server

inductive Event where
  | tick (later : DateTime)
  /-- The TTL index removes a document. -/
  | expire (collection : String) (id : Nat)

/-- The index removes documents whose `expires_at` has passed. -/
def IndexModel.expires (index : IndexModel) : Bool :=
  decide (index.keys = [("expires_at", 1)]) &&
    decide (index.options.expireAfter = some 0)

namespace Server

def expired (s : Server) (id : Nat) (document : Document) : Bool :=
  decide (document.id = id) &&
    document.expiresAt.any fun millis =>
      decide (millis ≤ s.db.clock.timestampMillis)

def happen : Event → Server → Option Server
  | .tick later, s =>
      if s.db.clock ≤ later then
        some { s with db := { s.db with clock := later } }
      else none
  | .expire collection id, s =>
      if (s.db.target collection).indexes.any IndexModel.expires = true ∧
          (s.db.documents collection).any (s.expired id) = true then
        some { s with
          db := s.db.setDocuments collection
            ((s.db.documents collection).eraseP (s.expired id)) }
      else none

end Server

abbrev CallPool := Pool Server Call Access.Answer Reply

abbrev Label := Pool.Label Call Bool Event

def step (deployment : Deployment) : CallPool → Label → Option CallPool :=
  Pool.step (program deployment) Server.handle Server.happen

def start (clock : DateTime) : CallPool := Pool.idle (Server.fresh clock)

namespace Server

/-- A key index that was found after so many drops is there, unless another
drop has followed. -/
def Stands (s : Server) (name : String) (drops : Nat) : Prop :=
  drops ≤ s.drops name ∧ (drops = s.drops name → s.db.Indexed name)

structure Traced (s : Server) : Prop where
  seen : ∀ task name drops, s.seen task name = some drops →
    s.Stands name drops
  initialized : ∀ store name, name ∈ s.initialized store →
    s.Stands name (s.remembered store name)

/-- The keys are apart, and the history is true. -/
def Inv (s : Server) : Prop := s.db.KeysUnique ∧ s.Traced

end Server

structure Known where
  ready : Finset String
  found : Option (List Document)

namespace Known

def blank : Known := ⟨∅, none⟩

def learn (k : Known) : (access : Access) → access.Answer → Known
  | .lock _, initialized => { k with ready := k.ready ∪ initialized }
  | .send (.listIndexes name), some indexes =>
      if indexes.any IndexModel.exclusive then
        { k with ready := insert name k.ready }
      else { k with ready := k.ready.erase name }
  | .send (.listIndexes name), none => { k with ready := k.ready.erase name }
  | .send (.find _ _), documents => { k with found := some documents }
  | _, _ => k

/-- What the call relies on has been seen, and no batch that it was sent had
a key twice. -/
structure Valid (task : Nat) (k : Known) (s : Server) : Prop where
  ready : ∀ name ∈ k.ready, (s.seen task name).isSome
  found : ∀ documents, k.found = some documents →
    (documents.map fun document => document.key).Nodup

end Known

/-- A call inserts into a collection, or remembers it, after it has seen its
key index. -/
def May (k : Known) : Access → Prop
  | .unlock _ initialized => initialized ⊆ k.ready
  | .send (.insert name _) => name ∈ k.ready
  | _ => True

def Exclusive (s : Server) (_ : Nat) : Access → Prop
  | .send message => s.db.Admits message
  | _ => True

section Accesses

variable {s : Server} {task other store : Nat} {name : String} {drops : Nat}
  {k m : Known}

theorem Server.Stands.congr {s' : Server} (h : s.Stands name drops)
    (hdrops : s'.drops name = s.drops name)
    (hindexed : s.db.Indexed name → s'.db.Indexed name) :
    s'.Stands name drops := by
  refine ⟨hdrops ▸ h.1, fun hsame => hindexed (h.2 ?_)⟩
  rw [hsame, hdrops]

theorem Server.Traced.congr {s' : Server} (h : s.Traced)
    (hdrops : s'.drops = s.drops) (hseen : s'.seen = s.seen)
    (hinitialized : s'.initialized = s.initialized)
    (hremembered : s'.remembered = s.remembered)
    (hindexed : ∀ name, s.db.Indexed name → s'.db.Indexed name) :
    s'.Traced := by
  constructor
  · intro task name drops hsaw
    rw [hseen] at hsaw
    exact (h.seen task name drops hsaw).congr (by rw [hdrops])
      (hindexed name)
  · intro store name hmem
    rw [hinitialized] at hmem
    rw [hremembered]
    exact (h.initialized store name hmem).congr (by rw [hdrops])
      (hindexed name)

theorem Known.Valid.congr {s' : Server} (h : k.Valid task s)
    (hseen : s'.seen task = s.seen task) : k.Valid task s' :=
  ⟨fun name hname => hseen ▸ h.ready name hname, h.found⟩

theorem traced_lock (h : s.Traced) : (s.lock task store).Traced := by
  constructor
  · intro other name drops hsaw
    by_cases hother : other = task
    · subst hother
      simp only [Server.lock, Function.update_self] at hsaw
      split at hsaw
      · rename_i hmem
        cases hsaw
        exact h.initialized store name hmem
      · exact h.seen other name drops hsaw
    · simp only [Server.lock, Function.update_of_ne hother] at hsaw
      exact h.seen other name drops hsaw
  · exact h.initialized

theorem valid_lock (h : k.Valid task s) :
    (k.learn (.lock store) (s.initialized store)).Valid task
      (s.lock task store) := by
  refine ⟨fun name hname => ?_, h.found⟩
  simp only [Server.lock, Function.update_self]
  split
  · rfl
  · rename_i hmem
    obtain hready | hinitialized := Finset.mem_union.mp hname
    · exact h.ready name hready
    · exact absurd hinitialized hmem

theorem traced_unlock {initialized : Finset String} (h : s.Traced)
    (hvalid : k.Valid task s) (hmay : initialized ⊆ k.ready) :
    (s.unlock task store initialized).Traced := by
  refine ⟨h.seen, fun other name hmem => ?_⟩
  by_cases hother : other = store
  · subst hother
    simp only [Server.unlock, Function.update_self] at hmem ⊢
    obtain ⟨drops, hdrops⟩ := Option.isSome_iff_exists.mp
      (hvalid.ready name (hmay hmem))
    rw [hdrops]
    exact h.seen task name drops hdrops
  · simp only [Server.unlock, Function.update_of_ne hother] at hmem ⊢
    exact h.initialized other name hmem

def Server.sent (s : Server) (task : Nat) (retried : Bool)
    (message : Request) : Server :=
  { s.note task message with db := (s.db.serve retried message).2 }

variable {retried : Bool} {message : Request}

theorem traced_sent (h : s.Traced) : (s.sent task retried message).Traced := by
  have hkept : ∀ message, s.note task message = s →
      (∀ name, message ≠ .drop name) →
      (s.sent task retried message).Traced := by
    intro message hnote hdrop
    rw [Server.sent, hnote]
    exact h.congr rfl rfl rfl rfl fun name hindexed =>
      hindexed.serve (hdrop name)
  cases message with
  | listIndexes name =>
      refine ⟨fun other found drops hsaw => ?_, h.initialized⟩
      simp only [Server.sent, Server.note] at hsaw
      by_cases hother : other = task
      · subst hother
        rw [Function.update_self] at hsaw
        by_cases hname : found = name
        · subst hname
          rw [Function.update_self] at hsaw
          split at hsaw
          · rename_i hexclusive
            cases hsaw
            exact ⟨Nat.le_refl _, fun _ => Database.indexed_of_target
              hexclusive⟩
          · cases hsaw
        · rw [Function.update_of_ne hname] at hsaw
          exact h.seen other found drops hsaw
      · rw [Function.update_of_ne hother] at hsaw
        exact h.seen other found drops hsaw
  | drop name =>
      have hstands : ∀ found drops, s.Stands found drops →
          (s.sent task retried (.drop name)).Stands found drops := by
        intro found drops hstands
        by_cases hfound : found = name
        · subst hfound
          have hdrops : (s.sent task retried (.drop found)).drops found =
              s.drops found + 1 := Function.update_self ..
          have hle := hstands.1
          refine ⟨by omega, fun hsame => ?_⟩
          omega
        · refine hstands.congr (Function.update_of_ne hfound ..) ?_
          intro hindexed
          exact hindexed.serve fun hdrop =>
            hfound (Request.drop.inj hdrop).symm
      exact ⟨fun other found drops hsaw =>
        hstands found drops (h.seen other found drops hsaw),
        fun store found hmem => hstands found _ (h.initialized store found
          hmem)⟩
  | listCollectionNames | createIndexes | findOne | find | replace | insert
  | deleteOne | deleteMany =>
      exact hkept _ rfl fun name hdrop => by cases hdrop

theorem valid_sent (hunique : s.db.KeysUnique) (h : k.Valid task s) :
    (k.learn (.send message) (s.db.serve retried message).1).Valid task
      (s.sent task retried message) := by
  cases message with
  | listIndexes name =>
      have hready : ∀ found ∈ k.ready.erase name,
          ((s.sent task retried (.listIndexes name)).seen task
            found).isSome := by
        intro found hmem
        obtain ⟨hfound, hmem⟩ := Finset.mem_erase.mp hmem
        simp only [Server.sent, Server.note, Function.update_self]
        rw [Function.update_of_ne hfound]
        exact h.ready found hmem
      simp only [Database.serve]
      cases hlookup : s.db.collections.lookup name with
      | none => exact ⟨hready, h.found⟩
      | some c =>
          simp only [Option.map_some, Known.learn]
          split
          · rename_i hexclusive
            refine ⟨fun found hmem => ?_, h.found⟩
            by_cases hfound : found = name
            · subst hfound
              have htarget : (s.db.target found).exclusive = true := by
                rw [Database.target, hlookup]
                exact hexclusive
              simp only [Server.sent, Server.note, Function.update_self,
                htarget, if_true, Option.isSome_some]
            · refine hready found (Finset.mem_erase.mpr ⟨hfound, ?_⟩)
              exact (Finset.mem_insert.mp hmem).resolve_left hfound
          · exact ⟨hready, h.found⟩
  | find name keys =>
      refine ⟨h.ready, fun documents hdocuments => ?_⟩
      cases hdocuments
      exact (hunique.nodup_documents name).sublist (List.filter_sublist.map _)
  | listCollectionNames | createIndexes | findOne | replace | insert
  | deleteOne | deleteMany | drop => exact h.congr rfl

theorem seen_sent (h : other ≠ task) :
    (s.sent task retried message).seen other = s.seen other := by
  cases message with
  | listIndexes name => exact Function.update_of_ne h ..
  | listCollectionNames | createIndexes | findOne | find | replace | insert
  | deleteOne | deleteMany | drop => rfl

theorem sound_exclusive :
    Pool.Sound Server.handle Known.learn May Server.Inv Known.Valid
      Exclusive := by
  intro task retried access s answer s' k hinv hvalid hmay hok hhandle
  cases access with
  | now =>
      cases hhandle
      exact ⟨hinv, hvalid, fun _ _ _ hm => hm⟩
  | lock store =>
      rw [Server.handle] at hhandle
      split at hhandle
      · cases hhandle
        refine ⟨⟨hinv.1, traced_lock hinv.2⟩, valid_lock hvalid, ?_⟩
        exact fun other m hother hm =>
          hm.congr (Function.update_of_ne hother ..)
      · cases hhandle
  | unlock store initialized =>
      cases hhandle
      exact ⟨⟨hinv.1, traced_unlock hinv.2 hvalid hmay⟩, hvalid.congr rfl,
        fun _ _ _ hm => hm.congr rfl⟩
  | send message =>
      cases hhandle
      exact ⟨⟨hinv.1.serve hok, traced_sent hinv.2⟩, valid_sent hinv.1 hvalid,
        fun other m hother hm => hm.congr (seen_sent hother)⟩

theorem silent_happen :
    Pool.Silent Server.happen Server.Inv Known.Valid := by
  intro event s s' hinv hhappen
  cases event with
  | tick later =>
      rw [Server.happen] at hhappen
      split at hhappen
      · cases hhappen
        exact ⟨⟨hinv.1, hinv.2.congr rfl rfl rfl rfl fun _ h => h⟩,
          fun _ _ hk => hk.congr rfl⟩
      · cases hhappen
  | expire collection id =>
      rw [Server.happen] at hhappen
      split at hhappen
      · cases hhappen
        refine ⟨⟨hinv.1.setDocuments (List.eraseP_sublist.map _),
          hinv.2.congr rfl rfl rfl rfl fun _ h => h.setDocuments⟩,
          fun _ _ hk => hk.congr rfl⟩
      · cases hhappen

end Accesses

end OpenKeyV.Mongo
