import OpenKeyV.Wrapper.PassthroughCache

/-!
# The passthrough cache among concurrent calls

Any number of wrapper calls without TTLs, each access of a store one step.
The cache agrees with the primary store as long as no change of a key comes
between a read of the primary store and the cache put behind it, and no cache
put between the invalidation of a key and its change.
-/

namespace OpenKeyV.Wrapper

open Library Library.Interaction

def valueAt (entries : Entries) (id : Identity) : Option Value :=
  (entries id).map fun slot => slot.entry.value

def StoreOp.found (name : String) :
    (op : StoreOp) → Except Error op.Result → Option (Identity × Value)
  | .get key c, .ok (some value) => some ((c.getD name, key), value)
  | .ttl key c, .ok (some (value, _)) => some ((c.getD name, key), value)
  | .getWithRevision key c, .ok (some current) =>
      some ((c.getD name, key), current.value)
  | _, _ => none

/-- `pending` and `crossed` are history variables. -/
structure Traced where
  tiers : Tiers
  /-- The key that a task has read from the primary store and is still to
  put into the cache. -/
  pending : Nat → Option Identity
  /-- The key has been put into the cache since the task deleted it there. -/
  crossed : Nat → Identity → Bool

namespace Traced

def start (tiers : Tiers) : Traced := ⟨tiers, fun _ => none, fun _ _ => false⟩

variable (stores : Stores)

def pendingAfter (task : Nat) : (access : Access) → Access.Answer access →
    (Nat → Option Identity) → Nat → Option Identity
  | (.primary, op), answer, pending =>
      Function.update pending task
        ((op.found stores.primaryDefault answer).map Prod.fst)
  | (.cache, .put ..), _, pending => Function.update pending task none
  | _, _, pending => pending

def crossedAfter (task : Nat) : Access → (Nat → Identity → Bool) →
    Nat → Identity → Bool
  | (.cache, .put key _ c _), crossed => fun other id =>
      if id = (c.getD stores.cacheDefault, key) then true
      else crossed other id
  | (.cache, .delete key c), crossed => fun other id =>
      if other = task ∧ id = (c.getD stores.cacheDefault, key) then false
      else crossed other id
  | _, crossed => crossed

def handle (task : Nat) (choice : Choice) (access : Access) (t : Traced) :
    Option (Access.Answer access × Traced) :=
  (Tiers.handle stores choice access t.tiers).map fun (answer, tiers) =>
    (answer, ⟨tiers, pendingAfter stores task access answer t.pending,
      crossedAfter stores task access t.crossed⟩)

def happen (event : Empty) (_ : Traced) : Option Traced := nomatch event

end Traced

abbrev UntimedCall := { call : Call // call.seconds = none }

def untimedProgram (call : UntimedCall) : Interaction Access.Answer Reply :=
  program none call.1

def step (stores : Stores) :=
  Pool.step untimedProgram (Traced.handle stores) Traced.happen

/-- The stores name the collection alike, and where an operation of the
primary store changes the value of a key, nobody is still to put that key
into the cache, or has since the call deleted it there. -/
def Unraced (stores : Stores) (t : Traced) (task : Nat) : Access → Prop
  | (.cache, op) => stores.Alike op.collection
  | (.primary, op) => stores.Alike op.collection ∧
      ∀ (choice : Choice) id,
        valueAt (op.apply choice.now choice.revisions stores.primaryDefault
            t.tiers.primary).2 id ≠ valueAt t.tiers.primary id →
          (∀ other, t.pending other ≠ some id) ∧ t.crossed task id = false

def Plain (entries : Entries) : Prop :=
  ∀ id slot, entries id = some slot → slot.entry.expiresAt = none

def Agrees (tiers : Tiers) : Prop :=
  ∀ id value, valueAt tiers.cache id = some value →
    valueAt tiers.primary id = some value

/-- After every run of calls that has come to rest the cache agrees with the
primary store, and a `get` returns what is there. -/
def KeepsCoherent (stores : Stores)
    (allowed : Traced → Nat → Access → Prop) : Prop :=
  ∀ (tiers : Tiers) labels pool, Plain tiers.cache → Plain tiers.primary →
    Agrees tiers →
    run (step stores) (Pool.idle (Traced.start tiers)) labels = some pool →
    Along (step stores) (Pool.Allows allowed) (Pool.idle (Traced.start tiers))
      labels →
    (∀ task, pool.next task = none) →
    ∀ key collection, stores.Alike collection →
      (∀ value, valueAt pool.shared.tiers.cache
          (collection.getD stores.cacheDefault, key) = some value →
        valueAt pool.shared.tiers.primary
          (collection.getD stores.primaryDefault, key) = some value) ∧
      ∀ result tiers', Exec (Tiers.handle stores) (fun _ _ _ => True)
          (program none (.get key collection)) pool.shared.tiers
          (.get result) tiers' →
        result = .ok (valueAt pool.shared.tiers.primary
          (collection.getD stores.primaryDefault, key))

theorem valueAt_update_self {entries : Entries} {id : Identity}
    {slot : Option Slot} :
    valueAt (Function.update entries id slot) id =
      slot.map fun slot => slot.entry.value := by
  rw [valueAt, Function.update_self]

theorem valueAt_update_of_ne {entries : Entries} {id other : Identity}
    {slot : Option Slot} (h : other ≠ id) :
    valueAt (Function.update entries id slot) other =
      valueAt entries other := by
  rw [valueAt, Function.update_of_ne h, valueAt]

/-! ## Entries that do not expire -/

section Plain

variable {now : DateTime} {revisions : Nat → Revision} {entries : Entries}
  {id : Identity} {name : String}

theorem Plain.live (h : Plain entries) : live now entries id = entries id := by
  unfold Wrapper.live
  cases hslot : entries id with
  | none => rfl
  | some slot =>
      have hexpires : slot.entry.isExpired now = false := by
        rw [ManagedEntry.isExpired, h id slot hslot]
      rw [Option.filter_some, hexpires]
      rfl

theorem Plain.update (h : Plain entries) {slot : Option Slot}
    (hslot : ∀ s, slot = some s → s.entry.expiresAt = none) :
    Plain (Function.update entries id slot) := by
  intro other held hheld
  by_cases hother : other = id
  · subst hother
    rw [Function.update_self] at hheld
    exact hslot held hheld
  · rw [Function.update_of_ne hother] at hheld
    exact h other held hheld

theorem Plain.remove (h : Plain entries) :
    Plain (Function.update entries id none) :=
  h.update fun _ hslot => by cases hslot

theorem Plain.putSlot (h : Plain entries) {value : Value}
    {revision : Revision} :
    Plain (putSlot now id value none revision entries).2 := by
  refine h.update fun slot hslot => ?_
  cases hslot
  rfl

theorem Plain.putSlots (h : Plain entries) {items : List (String × Value)}
    {i : Nat} : Plain (putSlots now revisions name none items i entries).2 := by
  induction items generalizing i entries with
  | nil => exact h
  | cons item items ih => exact ih h.putSlot

theorem Plain.deleteSlots (h : Plain entries) {keys : List String} :
    Plain (deleteSlots now name keys entries).2 := by
  induction keys generalizing entries with
  | nil => exact h
  | cons key keys ih => exact ih h.remove

theorem Plain.apply (h : Plain entries) {op : StoreOp}
    (httl : op.writtenTtl = none) :
    Plain (op.apply now revisions name entries).2 := by
  cases op with
  | get | ttl | getWithRevision => exact h
  | put key value c seconds =>
      cases httl
      exact h.putSlot
  | putMany keys values c seconds =>
      cases httl
      simp only [StoreOp.apply]
      split
      · exact h
      · exact h.putSlots
  | delete key c => exact h.remove
  | deleteMany keys c => exact h.deleteSlots
  | compareAndSwap key expected value c seconds =>
      cases httl
      simp only [StoreOp.apply, ManagedEntry.ofTtl]
      split
      · refine h.update fun slot hslot => ?_
        cases hslot
        rfl
      · exact h
  | compareAndDelete key expected c =>
      simp only [StoreOp.apply]
      split
      · exact h.remove
      · exact h

theorem Plain.found (h : Plain entries) {op : StoreOp} {value : Value}
    (hfound : op.found name (op.apply now revisions name entries).1 =
      some (id, value)) :
    valueAt entries id = some value ∧
      (op.apply now revisions name entries).2 = entries := by
  cases op with
  | get key c | ttl key c | getWithRevision key c =>
      simp only [StoreOp.apply, h.live] at hfound
      cases hslot : entries (c.getD name, key) with
      | none => simp [hslot, StoreOp.found] at hfound
      | some slot =>
          simp only [hslot, Option.map_some, StoreOp.found,
            Option.some.injEq, Prod.mk.injEq] at hfound
          obtain ⟨rfl, rfl⟩ := hfound
          exact ⟨by rw [valueAt, hslot]; rfl, rfl⟩
  | put | putMany | delete | deleteMany | compareAndSwap | compareAndDelete =>
      simp [StoreOp.found] at hfound

end Plain

/-! ## What a call learns -/

structure Known where
  /-- What the last read of the primary store has found, until it is put into
  the cache. -/
  held : Option (Identity × Value)
  cleared : List Identity

namespace Known

def blank : Known := ⟨none, []⟩

def learn (stores : Stores) (k : Known) :
    (access : Access) → Access.Answer access → Known
  | (.primary, op), answer =>
      { k with held := op.found stores.primaryDefault answer }
  | (.cache, .put ..), _ => { k with held := none }
  | (.cache, .delete key c), _ =>
      { k with cleared := (c.getD stores.cacheDefault, key) :: k.cleared }
  | (.cache, _), _ => k

end Known

def May (stores : Stores) (k : Known) : Access → Prop
  | (.cache, .put key value c seconds) => seconds = none ∧
      k.held = some ((c.getD stores.primaryDefault, key), value)
  | (.cache, op) => op.writes = [] ∨ ∃ key c, op = .delete key c
  | (.primary, op) => op.writtenTtl = none ∧ ∀ key ∈ op.writes,
      (op.collection.getD stores.cacheDefault, key) ∈ k.cleared

section Programs

variable {stores : Stores} {k : Known} {α : Type} {key : String}
  {collection : Option String}

abbrev Respecting (stores : Stores) (post : Known → α → Prop) (k : Known)
    (tree : Interaction Access.Answer α) : Prop :=
  Respects (Known.learn stores) (May stores) post k tree

theorem respects_send_bind {post : Known → Except Error α → Prop}
    {tier : Tier} {op : StoreOp} {f : op.Result → Requests α} :
    Respecting stores post k (send tier op >>= f).run ↔
      May stores k (tier, op) ∧ ∀ answer,
        Respecting stores post (k.learn stores (tier, op) answer)
          (resume f answer) := by
  rw [Respecting, respects_bind_run, send]
  refine respects_access_bind.trans (and_congr_right fun _ => ?_)
  exact forall_congr' fun answer => respects_attempt

theorem may_read {op : StoreOp} (h : op.writes = [])
    (httl : op.writtenTtl = none) : May stores k (.primary, op) := by
  refine ⟨httl, fun key hkey => ?_⟩
  rw [h] at hkey
  cases hkey

theorem respects_populate {value : Option Value}
    (hheld : ∀ found, value = some found →
      k.held = some ((collection.getD stores.primaryDefault, key), found)) :
    Respecting stores (fun _ _ => True) k
      (PassthroughCache.populate none key collection value).run := by
  cases value with
  | none => trivial
  | some found => exact ⟨⟨rfl, hheld found rfl⟩, fun _ => trivial⟩

theorem respects_get :
    Respecting stores (fun _ _ => True) k
      (PassthroughCache.get none key collection).run := by
  refine respects_send_bind.mpr ⟨.inl rfl, fun answer => ?_⟩
  match answer with
  | .error error => trivial
  | .ok (some value) => trivial
  | .ok none =>
      refine respects_send_bind.mpr
        ⟨may_read rfl rfl, fun answer => ?_⟩
      match answer with
      | .error error => trivial
      | .ok value =>
          refine respects_bind_run.mpr
            ((respects_populate fun found hfound => ?_).mono ?_)
          · rw [hfound]
            rfl
          · intro k r _
            cases r <;> trivial

theorem respects_ttl :
    Respecting stores (fun _ _ => True) k
      (PassthroughCache.ttl none key collection).run := by
  refine respects_send_bind.mpr ⟨.inl rfl, fun answer => ?_⟩
  match answer with
  | .error error => trivial
  | .ok (some (value, seconds)) => trivial
  | .ok none =>
      refine respects_send_bind.mpr
        ⟨may_read rfl rfl, fun answer => ?_⟩
      match answer with
      | .error error => trivial
      | .ok result =>
          refine respects_bind_run.mpr
            ((respects_populate fun found hfound => ?_).mono ?_)
          · obtain ⟨⟨value, seconds⟩, hresult, rfl⟩ :=
              Option.map_eq_some_iff.mp hfound
            rw [hresult]
            rfl
          · intro k r _
            cases r <;> trivial

theorem respects_getWithRevision :
    Respecting stores (fun _ _ => True) k
      (PassthroughCache.getWithRevision none key collection).run := by
  refine respects_send_bind.mpr
    ⟨may_read rfl rfl, fun answer => ?_⟩
  match answer with
  | .error error => trivial
  | .ok current =>
      refine respects_bind_run.mpr
        ((respects_populate fun found hfound => ?_).mono ?_)
      · obtain ⟨slot, hcurrent, rfl⟩ := Option.map_eq_some_iff.mp hfound
        rw [hcurrent]
        rfl
      · intro k r _
        cases r <;> trivial

theorem respects_getMany {keys : List String} :
    Respecting stores (fun _ _ => True) k
      (PassthroughCache.getMany none collection keys).run := by
  induction keys generalizing k with
  | nil => trivial
  | cons key keys ih => exact respects_cons respects_get fun _ => ih

theorem respects_ttlMany {keys : List String} :
    Respecting stores (fun _ _ => True) k
      (PassthroughCache.ttlMany none collection keys).run := by
  induction keys generalizing k with
  | nil => trivial
  | cons key keys ih => exact respects_cons respects_ttl fun _ => ih

theorem respects_write (op : StoreOp) (httl : op.writtenTtl = none)
    (hcleared : ∀ key ∈ op.writes,
      (op.collection.getD stores.cacheDefault, key) ∈ k.cleared) :
    Respecting stores (fun _ _ => True) k (send .primary op).run :=
  ⟨⟨httl, hcleared⟩, fun answer => by cases answer <;> trivial⟩

theorem respects_write_through (op : StoreOp) (httl : op.writtenTtl = none)
    (hkeys : op.writes = [key]) :
    Respecting stores (fun _ _ => True) k
      (send .cache (.delete key op.collection) >>= fun _ =>
        send .primary op).run := by
  refine respects_send_bind.mpr ⟨.inr ⟨_, _, rfl⟩, fun answer => ?_⟩
  cases answer with
  | error error => trivial
  | ok found =>
      refine respects_write op httl fun other hother => ?_
      rw [hkeys, List.mem_singleton] at hother
      rw [hother]
      exact List.mem_cons_self ..

theorem respects_invalidate {keys : List String} :
    Respecting stores (fun k' r => r = .ok () →
        (∀ id ∈ k.cleared, id ∈ k'.cleared) ∧
        ∀ key ∈ keys, (collection.getD stores.cacheDefault, key) ∈ k'.cleared)
      k (PassthroughCache.invalidate collection keys).run := by
  induction keys generalizing k with
  | nil => exact fun _ => ⟨fun _ hid => hid, fun key hkey => by cases hkey⟩
  | cons key keys ih =>
      refine respects_send_bind.mpr ⟨.inr ⟨_, _, rfl⟩, fun answer => ?_⟩
      cases answer with
      | error error =>
          intro hok
          cases hok
      | ok found =>
          refine ih.mono fun k' r hpost hok => ?_
          obtain ⟨hkept, hcleared⟩ := hpost hok
          refine ⟨fun id hid => hkept id (List.mem_cons_of_mem _ hid), ?_⟩
          intro other hother
          rcases List.mem_cons.mp hother with rfl | hmem
          · exact hkept _ (List.mem_cons_self ..)
          · exact hcleared other hmem

theorem respects_write_batch (op : StoreOp)
    (httl : op.writtenTtl = none) :
    Respecting stores (fun _ _ => True) k
      (PassthroughCache.invalidate op.collection op.writes >>= fun _ =>
        send .primary op).run := by
  refine respects_bind_run.mpr (respects_invalidate.mono fun k' r hpost => ?_)
  cases r with
  | error error => trivial
  | ok _ => exact respects_write op httl (hpost rfl).2

/-- Every call puts into the cache what it has read, and deletes a key from
the cache before it changes it. -/
theorem respects_program (call : UntimedCall) :
    Respecting stores (fun _ _ => True) k (untimedProgram call) := by
  obtain ⟨call, hseconds⟩ := call
  cases call with
  | get key collection => exact respects_map.mpr respects_get
  | ttl key collection => exact respects_map.mpr respects_ttl
  | put key value collection seconds =>
      exact respects_map.mpr (respects_write_through
        (.put key value collection seconds) hseconds rfl)
  | delete key collection =>
      exact respects_map.mpr
        (respects_write_through (.delete key collection) rfl rfl)
  | getMany keys collection => exact respects_map.mpr respects_getMany
  | ttlMany keys collection => exact respects_map.mpr respects_ttlMany
  | putMany keys values collection seconds =>
      refine respects_map.mpr ?_
      unfold PassthroughCache.putMany
      split
      · trivial
      · exact respects_write_batch
          (.putMany keys values collection seconds) hseconds
  | deleteMany keys collection =>
      exact respects_map.mpr
        (respects_write_batch (.deleteMany keys collection) rfl)
  | getWithRevision key collection =>
      exact respects_map.mpr respects_getWithRevision
  | compareAndSwap key expected value collection seconds =>
      exact respects_map.mpr (respects_write_through
        (.compareAndSwap key expected value collection seconds) hseconds rfl)
  | compareAndDelete key expected collection =>
      exact respects_map.mpr (respects_write_through
        (.compareAndDelete key expected collection) rfl rfl)

end Programs

/-! ## The invariant -/

structure Coherent (t : Traced) : Prop where
  cache : Plain t.tiers.cache
  primary : Plain t.tiers.primary
  agrees : Agrees t.tiers

/-- What a call has found is still there, and what it has deleted from the
cache is not back, as far as nobody has crossed it. -/
structure Valid (task : Nat) (k : Known) (t : Traced) : Prop where
  held : ∀ id value, k.held = some (id, value) →
    t.pending task = some id ∧ valueAt t.tiers.primary id = some value
  cleared : ∀ id ∈ k.cleared, t.crossed task id = false →
    t.tiers.cache id = none

theorem valid_start (task : Nat) (tiers : Tiers) :
    Valid task Known.blank (Traced.start tiers) := by
  constructor
  · intro id value hheld
    cases hheld
  · intro id hid
    cases hid

section Steps

variable {stores : Stores} {task : Nat} {choice : Choice} {t t' : Traced}
  {k : Known} {op : StoreOp} {access : Access}
  {answer : Access.Answer access}

theorem Traced.handle_eq_some
    (h : Traced.handle stores task choice access t = some (answer, t')) :
    ∃ tiers, Tiers.handle stores choice access t.tiers =
        some (answer, tiers) ∧
      t' = ⟨tiers, pendingAfter stores task access answer t.pending,
        crossedAfter stores task access t.crossed⟩ := by
  rw [Traced.handle, Option.map_eq_some_iff] at h
  obtain ⟨⟨found, tiers⟩, hhandle, heq⟩ := h
  cases heq
  exact ⟨tiers, hhandle, rfl⟩

def Keeps (task : Nat) (k' : Known) (t t' : Traced) : Prop :=
  Coherent t' ∧ Valid task k' t' ∧
    ∀ other m, other ≠ task → Valid other m t → Valid other m t'

theorem keeps_same (ht : Coherent t) (hk : Valid task k t)
    (now : DateTime) :
    Keeps task k t ⟨⟨now, t.tiers.cache, t.tiers.primary⟩, t.pending,
      t.crossed⟩ :=
  ⟨⟨ht.cache, ht.primary, ht.agrees⟩, ⟨hk.held, hk.cleared⟩,
    fun _ _ _ hm => ⟨hm.held, hm.cleared⟩⟩

theorem keeps_cache_put {id : Identity} {value : Value} (now : DateTime)
    (revision : Revision) (ht : Coherent t) (hk : Valid task k t)
    (hheld : k.held = some (id, value)) :
    Keeps task { k with held := none } t
      ⟨⟨now, Function.update t.tiers.cache id
          (some ⟨ManagedEntry.new now value, revision⟩), t.tiers.primary⟩,
        Function.update t.pending task none,
        fun other id' => if id' = id then true else t.crossed other id'⟩ := by
  have hcleared : ∀ other m, Valid other m t → ∀ id' ∈ m.cleared,
      (if id' = id then true else t.crossed other id') = false →
      Function.update t.tiers.cache id
        (some ⟨ManagedEntry.new now value, revision⟩) id' = none := by
    intro other m hm id' hid' hcrossed
    by_cases hsame : id' = id
    · simp [hsame] at hcrossed
    · rw [if_neg hsame] at hcrossed
      rw [Function.update_of_ne hsame]
      exact hm.cleared id' hid' hcrossed
  refine ⟨⟨?_, ht.primary, ?_⟩, ⟨?_, hcleared task k hk⟩, ?_⟩
  · refine ht.cache.update fun slot hslot => ?_
    cases hslot
    rfl
  · intro id' found hfound
    change valueAt (Function.update t.tiers.cache id _) id' = _ at hfound
    by_cases hsame : id' = id
    · subst hsame
      rw [valueAt_update_self] at hfound
      cases hfound
      exact (hk.held _ _ hheld).2
    · rw [valueAt_update_of_ne hsame] at hfound
      exact ht.agrees id' found hfound
  · intro id' found hfound
    cases hfound
  · intro other m hother hm
    refine ⟨fun id' found hfound => ?_, hcleared other m hm⟩
    have hkept := hm.held id' found hfound
    exact ⟨(Function.update_of_ne hother ..).trans hkept.1, hkept.2⟩

theorem keeps_cache_delete (now : DateTime) (id : Identity)
    (ht : Coherent t) (hk : Valid task k t) :
    Keeps task { k with cleared := id :: k.cleared } t
      ⟨⟨now, Function.update t.tiers.cache id none, t.tiers.primary⟩,
        t.pending, fun other id' =>
          if other = task ∧ id' = id then false else t.crossed other id'⟩ := by
  have hgone : ∀ id', t.tiers.cache id' = none →
      Function.update t.tiers.cache id none id' = none := by
    intro id' hnone
    by_cases hsame : id' = id
    · subst hsame
      exact Function.update_self ..
    · exact (Function.update_of_ne hsame ..).trans hnone
  have hkept : ∀ other m, Valid other m t → ∀ id' ∈ m.cleared,
      ¬ (other = task ∧ id' = id) →
      (if other = task ∧ id' = id then false else t.crossed other id') =
        false →
      Function.update t.tiers.cache id none id' = none := by
    intro other m hm id' hid' hnot hcrossed
    rw [if_neg hnot] at hcrossed
    exact hgone id' (hm.cleared id' hid' hcrossed)
  refine ⟨⟨ht.cache.remove, ht.primary, ?_⟩, ⟨hk.held, ?_⟩, ?_⟩
  · intro id' found hfound
    change valueAt (Function.update t.tiers.cache id _) id' = _ at hfound
    by_cases hsame : id' = id
    · subst hsame
      rw [valueAt_update_self] at hfound
      cases hfound
    · rw [valueAt_update_of_ne hsame] at hfound
      exact ht.agrees id' found hfound
  · intro id' hid' hcrossed
    by_cases hsame : id' = id
    · subst hsame
      exact Function.update_self ..
    · have hmem := (List.mem_cons.mp hid').resolve_left hsame
      exact hkept task k hk id' hmem (fun hboth => hsame hboth.2) hcrossed
  · intro other m hother hm
    exact ⟨hm.held, fun id' hid' =>
      hkept other m hm id' hid' fun hboth => hother hboth.1⟩

theorem keeps_primary {answer : Except Error op.Result} (choice : Choice)
    (ht : Coherent t) (hk : Valid task k t)
    (hmay : May stores k (.primary, op))
    (hok : Unraced stores t task (.primary, op))
    (hanswer : answer = (op.apply choice.now choice.revisions
      stores.primaryDefault t.tiers.primary).1) :
    Keeps task { k with held := op.found stores.primaryDefault answer } t
      ⟨⟨choice.now, t.tiers.cache, (op.apply choice.now choice.revisions
          stores.primaryDefault t.tiers.primary).2⟩,
        Function.update t.pending task
          ((op.found stores.primaryDefault answer).map Prod.fst),
        t.crossed⟩ := by
  obtain ⟨httl, hmay⟩ := hmay
  obtain ⟨halike, hraced⟩ := hok
  generalize hafter : (op.apply choice.now choice.revisions
    stores.primaryDefault t.tiers.primary).2 = after
  have hchanged : ∀ id, valueAt after id ≠ valueAt t.tiers.primary id →
      (∀ other, t.pending other ≠ some id) ∧ t.tiers.cache id = none := by
    intro id hid
    subst hafter
    obtain ⟨hpending, hcrossed⟩ := hraced choice id hid
    refine ⟨hpending, ?_⟩
    by_contra hheld
    refine hid (congrArg (Option.map _) (StoreOp.apply_other op ?_))
    rintro key hkey rfl
    refine hheld (hk.cleared _ ?_ hcrossed)
    rw [← halike]
    exact hmay key hkey
  refine ⟨⟨ht.cache, hafter ▸ ht.primary.apply httl, ?_⟩, ⟨?_, hk.cleared⟩, ?_⟩
  · intro id found hfound
    by_cases hsame : valueAt after id = valueAt t.tiers.primary id
    · exact hsame.trans (ht.agrees id found hfound)
    · have hnone := (hchanged id hsame).2
      simp [valueAt, hnone] at hfound
  · intro id value hheld
    change op.found stores.primaryDefault answer = _ at hheld
    rw [hanswer] at hheld
    obtain ⟨hvalue, hsame⟩ := ht.primary.found hheld
    refine ⟨(Function.update_self ..).trans ?_, ?_⟩
    · rw [hanswer, hheld]
      rfl
    · rw [← hafter, hsame]
      exact hvalue
  · intro other m hother hm
    refine ⟨fun id value hheld => ?_, hm.cleared⟩
    obtain ⟨hpending, hvalue⟩ := hm.held id value hheld
    refine ⟨(Function.update_of_ne hother ..).trans hpending, ?_⟩
    by_contra hlost
    have hid : valueAt after id ≠ valueAt t.tiers.primary id := by
      rw [hvalue]
      exact hlost
    exact (hchanged id hid).1 other hpending

theorem keeps_cache_idle (choice : Choice) {name : String}
    (ht : Coherent t) (hk : Valid task k t) (hidle : op.writes = []) :
    Keeps task k t
      ⟨⟨choice.now, (op.apply choice.now choice.revisions name
        t.tiers.cache).2, t.tiers.primary⟩, t.pending, t.crossed⟩ := by
  have hsame : (op.apply choice.now choice.revisions name t.tiers.cache).2 =
      t.tiers.cache := by
    funext id
    refine StoreOp.apply_other op fun key hkey => ?_
    rw [hidle] at hkey
    cases hkey
  rw [hsame]
  exact keeps_same ht hk choice.now

/-! ## One step -/

theorem sound_unraced :
    Pool.Sound (Traced.handle stores) (Known.learn stores) (May stores)
      Coherent Valid (Unraced stores) := by
  rintro task choice ⟨tier, op⟩ t answer t' k ht hk hmay hok hhandle
  obtain ⟨tiers, htiers, rfl⟩ := Traced.handle_eq_some hhandle
  cases tier with
  | primary =>
      obtain ⟨_, hanswer, rfl⟩ := Tiers.handle_primary htiers
      exact keeps_primary choice ht hk hmay hok hanswer
  | cache =>
      obtain ⟨_, _, rfl⟩ := Tiers.handle_cache htiers
      cases op with
      | get | ttl | getWithRevision =>
          exact keeps_cache_idle choice ht hk rfl
      | put key value c seconds =>
          obtain ⟨rfl, hheld⟩ := hmay
          have halike : c.getD stores.cacheDefault =
            c.getD stores.primaryDefault := hok
          rw [← halike] at hheld
          exact keeps_cache_put choice.now (choice.revisions 0) ht hk hheld
      | delete key c => exact keeps_cache_delete choice.now _ ht hk
      | putMany | deleteMany | compareAndSwap | compareAndDelete =>
          rcases hmay with hidle | ⟨_, _, hdelete⟩
          · exact keeps_cache_idle choice ht hk hidle
          · cases hdelete

end Steps

/-! ## Whole runs -/

theorem coherent_run {stores : Stores} {tiers : Tiers}
    {labels : List (Pool.Label UntimedCall Choice Empty)}
    {pool : Pool Traced UntimedCall Access.Answer Reply}
    (hcache : Plain tiers.cache) (hprimary : Plain tiers.primary)
    (hagrees : Agrees tiers)
    (hrun : run (step stores) (Pool.idle (Traced.start tiers)) labels =
      some pool)
    (hunraced : Along (step stores) (Pool.Allows (Unraced stores))
      (Pool.idle (Traced.start tiers)) labels) : Coherent pool.shared := by
  have hstart : Pool.Good (Known.learn stores) (May stores)
      (fun (_ : UntimedCall) _ _ => True) Known.blank Coherent Valid
      (Pool.idle (Traced.start tiers) :
        Pool Traced UntimedCall Access.Answer Reply) :=
    Pool.good_idle ⟨hcache, hprimary, hagrees⟩ fun task =>
      valid_start task tiers
  exact (hstart.run respects_program sound_unraced
    (fun event => nomatch event) hunraced hrun).shared

theorem after_get_agrees {stores : Stores} {tiers : Tiers} {key : String}
    {collection : Option String} (hcache : Plain tiers.cache)
    (hprimary : Plain tiers.primary) (hagrees : Agrees tiers)
    (halike : stores.Alike collection) :
    After stores (fun _ _ _ => True) (fun r _ =>
        r = .ok (valueAt tiers.primary
          (collection.getD stores.primaryDefault, key)))
      (PassthroughCache.get none key collection).run tiers := by
  refine after_cache_bind fun hit _ _ => ?_
  have halike' : collection.getD stores.cacheDefault =
      collection.getD stores.primaryDefault := halike
  simp only [StoreOp.apply, resume, halike', hcache.live]
  cases hcached : tiers.cache (collection.getD stores.primaryDefault, key) with
  | some slot =>
      refine ensures_done (congrArg Except.ok (hagrees _ _ ?_).symm)
      rw [valueAt, hcached]
      rfl
  | none =>
      refine after_primary_bind fun miss _ _ => ?_
      simp only [StoreOp.apply, resume, hprimary.live]
      refine ensures_bind_run ?_
      cases hslot : tiers.primary
          (collection.getD stores.primaryDefault, key) with
      | none =>
          refine ensures_done (ensures_done ?_)
          rw [valueAt, hslot]
      | some slot =>
          rw [Option.map_some, PassthroughCache.populate]
          refine after_cache (.put key _ collection none) fun fill _ _ => ?_
          refine ensures_done ?_
          rw [valueAt, hslot]
          rfl

/-- The cache agrees with the primary store after every run in which nothing
crosses. -/
theorem cache_keeps_coherent (stores : Stores) :
    KeepsCoherent stores (Unraced stores) := by
  intro tiers labels pool hcache hprimary hagrees hrun hunraced _ key
    collection halike
  obtain ⟨hcache', hprimary', hagrees'⟩ :=
    coherent_run hcache hprimary hagrees hrun hunraced
  refine ⟨fun value hvalue => ?_, fun result tiers' hexec => ?_⟩
  · have halike' : collection.getD stores.cacheDefault =
        collection.getD stores.primaryDefault := halike
    exact hagrees' _ _ (halike' ▸ hvalue)
  · obtain ⟨r, _, hget, hmap⟩ := exec_bind hexec
    cases hmap
    exact after_get_agrees hcache' hprimary' hagrees' halike _ _ hget

def raceStart : Tiers :=
  ⟨.epoch, fun _ => none, Function.update (fun _ => none) ("c", "k")
    (some ⟨ManagedEntry.new .epoch .null, .fill 0⟩)⟩

def race : List (Pool.Label UntimedCall Choice Empty) :=
  let choice : Choice := ⟨.epoch, fun _ => .fill 1⟩
  [.start 0 ⟨.get "k" none, rfl⟩, .advance 0 choice, .advance 0 choice,
    .start 1 ⟨.put "k" (.binary [1]) none none, rfl⟩, .advance 1 choice,
    .advance 1 choice, .advance 0 choice]

theorem cache_left_behind :
    ¬ KeepsCoherent ⟨"c", "c"⟩ (fun _ _ _ => True) := by
  intro h
  obtain ⟨pool, hrun, hrest, hcache, hprimary⟩ :
      ∃ pool, run (step ⟨"c", "c"⟩) (Pool.idle (Traced.start raceStart)) race =
          some pool ∧ (∀ task, pool.next task = none) ∧
        valueAt pool.shared.tiers.cache ("c", "k") = some .null ∧
        valueAt pool.shared.tiers.primary ("c", "k") =
          some (.binary [1]) := by
    refine ⟨_, rfl, fun task => ?_, rfl, rfl⟩
    match task with
    | 0 => rfl
    | 1 => rfl
    | task + 2 => rfl
  have hplain : Plain raceStart.primary := by
    refine Plain.update (fun _ _ hslot => by cases hslot) fun slot hslot => ?_
    cases hslot
    rfl
  have hallowed : Along (step ⟨"c", "c"⟩) (Pool.Allows fun _ _ _ => True)
      (Pool.idle (Traced.start raceStart)) race :=
    along_of_at_step fun _ _ _ _ _ _ _ _ _ _ _ => trivial
  have hagree := (h raceStart race pool (fun _ _ hslot => by cases hslot)
    hplain (fun _ _ hvalue => by cases hvalue) hrun hallowed hrest "k" none
    rfl).1 _ hcache
  have hstale := hagree.symm.trans hprimary
  cases hstale

end OpenKeyV.Wrapper
