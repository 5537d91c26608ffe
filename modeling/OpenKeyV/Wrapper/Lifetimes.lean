import OpenKeyV.Wrapper.PassthroughCache
import Mathlib.Algebra.Order.Field.Basic
import Mathlib.Algebra.Order.Ring.Cast
import Mathlib.Data.Rat.Cast.Order
import Mathlib.Logic.Relation

/-!
# Lifetimes in the passthrough cache

Wrapper calls one after the other.  The cache never shows an entry that the
primary store would not, as long as each entry put into the cache expires no
later than the one it was read from.
-/

namespace OpenKeyV.Wrapper

open Library Library.Interaction

def NoLater (first second : ManagedEntry) : Prop :=
  ∀ expires, second.expiresAt = some expires →
    ∃ sooner, first.expiresAt = some sooner ∧ sooner ≤ expires

/-- A missing TTL is one without end. -/
def TtlLe (first second : Option F64) : Prop :=
  ∀ long, second = some (.finite long) →
    ∃ short, first = some (.finite short) ∧ short ≤ long

section NoLater

variable {first second : ManagedEntry} {now : DateTime}

theorem NoLater.isExpired (h : NoLater first second)
    (hexpired : second.isExpired now = true) :
    first.isExpired now = true := by
  unfold ManagedEntry.isExpired at *
  cases hsecond : second.expiresAt with
  | none => simp [hsecond] at hexpired
  | some expires =>
      obtain ⟨sooner, hfirst, hle⟩ := h expires hsecond
      simp only [hsecond, hfirst, decide_eq_true_eq] at hexpired ⊢
      exact Int.le_trans hle hexpired

theorem NoLater.ttl (h : NoLater first second)
    (hlive : first.isExpired now = false) :
    TtlLe (first.ttl now) (second.ttl now) := by
  intro long hlong
  cases hsecond : second.expiresAt with
  | none => simp [ManagedEntry.ttl, hsecond] at hlong
  | some expires =>
      obtain ⟨sooner, hfirst, hle⟩ := h expires hsecond
      have hnow : ¬ sooner ≤ now := by
        simpa [ManagedEntry.isExpired, hfirst] using hlive
      have hlater : ¬ expires ≤ now := fun hgone =>
        hnow (Int.le_trans hle hgone)
      simp only [ManagedEntry.ttl, hsecond, if_neg hlater, Option.some.injEq,
        F64.finite.injEq] at hlong
      refine ⟨_, by rw [ManagedEntry.ttl, hfirst]; exact if_neg hnow, ?_⟩
      rw [← hlong]
      have hmillis : (sooner.nanos - now.nanos) / nanosPerMilli ≤
          (expires.nanos - now.nanos) / nanosPerMilli := by
        rw [DateTime.le_def] at hle
        unfold nanosPerMilli
        omega
      have hcast : (((sooner.nanos - now.nanos) / nanosPerMilli : Int) : Rat) ≤
          (((expires.nanos - now.nanos) / nanosPerMilli : Int) : Rat) :=
        Int.cast_le.mpr hmillis
      exact div_le_div_of_nonneg_right hcast (by decide)

end NoLater

/-- What the cache still shows, the primary store has, and for as long. -/
def Faithful (s : Tiers) : Prop :=
  ∀ id cached, s.cache id = some cached →
    cached.entry.isExpired s.clock = true ∨
      ∃ slot, s.primary id = some slot ∧
        slot.entry.value = cached.entry.value ∧
        NoLater cached.entry slot.entry

theorem live_eq_some {now : DateTime} {entries : Entries} {id : Identity}
    {slot : Slot} :
    live now entries id = some slot ↔
      entries id = some slot ∧ slot.entry.isExpired now = false := by
  simp [live, Option.filter_eq_some_iff]

section Faithful

variable {s : Tiers} {now : DateTime} {id : Identity}

theorem Faithful.later (h : Faithful s) (hle : s.clock ≤ now) :
    Faithful { s with clock := now } := fun id cached hcached =>
  (h id cached hcached).imp_left (ManagedEntry.isExpired_mono hle)

theorem Faithful.hit {cached : Slot} (h : Faithful s) (hle : s.clock ≤ now)
    (hhit : live now s.cache id = some cached) :
    ∃ slot, live now s.primary id = some slot ∧
      slot.entry.value = cached.entry.value ∧
      NoLater cached.entry slot.entry := by
  obtain ⟨hcached, hlive⟩ := live_eq_some.mp hhit
  rcases h.later hle id cached hcached with hexpired | hslot
  · rw [hlive] at hexpired
    cases hexpired
  · obtain ⟨slot, hprimary, hvalue, hlater⟩ := hslot
    refine ⟨slot, live_eq_some.mpr ⟨hprimary, ?_⟩, hvalue, hlater⟩
    rw [Bool.eq_false_iff]
    intro hexpired
    rw [hlater.isExpired hexpired] at hlive
    cases hlive

theorem Faithful.invalidated (h : Faithful s) (hle : s.clock ≤ now)
    (id : Identity) :
    Faithful ⟨now, Function.update s.cache id none, s.primary⟩ := by
  intro other cached hcached
  by_cases hother : other = id
  · subst hother
    simp only [Function.update_self] at hcached
    cases hcached
  · simp only [Function.update_of_ne hother] at hcached
    exact h.later hle other cached hcached

theorem Faithful.changed (h : Faithful s) (hle : s.clock ≤ now)
    {primary : Entries}
    (hsame : ∀ id, s.cache id ≠ none → primary id = s.primary id) :
    Faithful ⟨now, s.cache, primary⟩ := by
  intro id cached hcached
  refine (h.later hle id cached hcached).imp_right ?_
  rintro ⟨slot, hslot, hvalue, hlater⟩
  have hheld : s.cache id ≠ none := by
    rw [show s.cache id = some cached from hcached]
    exact Option.some_ne_none _
  exact ⟨slot, (hsame id hheld).trans hslot, hvalue, hlater⟩

theorem Faithful.populated (h : Faithful s) (hle : s.clock ≤ now)
    {cached slot : Slot} (hslot : s.primary id = some slot)
    (hvalue : slot.entry.value = cached.entry.value)
    (hlater : NoLater cached.entry slot.entry) :
    Faithful ⟨now, Function.update s.cache id (some cached), s.primary⟩ := by
  intro other held hheld
  by_cases hother : other = id
  · subst hother
    simp only [Function.update_self, Option.some.injEq] at hheld
    subst hheld
    exact .inr ⟨slot, hslot, hvalue, hlater⟩
  · simp only [Function.update_of_ne hother] at hheld
    exact h.later hle other held hheld

end Faithful

/-- The stores name the collection alike, and a cache put is accepted and
expires no later than the entry of the primary store. -/
def Outlived (stores : Stores) (choice : Choice) :
    Access → Tiers → Prop
  | (.cache, .put key value collection seconds), s =>
      stores.Alike collection ∧
        ∀ slot, s.primary (collection.getD stores.primaryDefault, key) =
            some slot →
          ∃ entry,
            ManagedEntry.ofTtl choice.now value seconds = .ok entry ∧
              NoLater entry slot.entry
  | (_, op), _ => stores.Alike op.collection

inductive Moves (stores : Stores) (cacheTtl : Option F64)
    (allowed : Choice → Access → Tiers → Prop) : Tiers → Tiers → Prop where
  | tick {s : Tiers} {now : DateTime} (hle : s.clock ≤ now) :
      Moves stores cacheTtl allowed s { s with clock := now }
  | call {s s' : Tiers} {call : Call} {reply : Reply}
      (hexec : Exec (Tiers.handle stores) allowed (program cacheTtl call) s
        reply s') :
      Moves stores cacheTtl allowed s s'

/-- The same value, for no longer. -/
def TtlAgrees :
    Option (Value × Option F64) → Option (Value × Option F64) → Prop
  | some (value, seconds), some (stored, left) =>
      value = stored ∧ TtlLe seconds left
  | none, none => True
  | _, _ => False

/-- After any calls and ticks of the clock, `get` and `ttl` return what the
primary store would at an instant between their start and their end. -/
def NeverStale (stores : Stores) (cacheTtl : Option F64)
    (allowed : Choice → Access → Tiers → Prop) : Prop :=
  ∀ start s : Tiers, (∀ id, start.cache id = none) →
    Relation.ReflTransGen (Moves stores cacheTtl allowed) start s →
    ∀ key collection s',
      (∀ result, Exec (Tiers.handle stores) allowed
          (program cacheTtl (.get key collection)) s (.get result) s' →
        ∃ now, s.clock ≤ now ∧ now ≤ s'.clock ∧
          result = .ok ((live now s.primary
            (collection.getD stores.primaryDefault, key)).map
              fun slot => slot.entry.value)) ∧
      ∀ result, Exec (Tiers.handle stores) allowed
          (program cacheTtl (.ttl key collection)) s (.ttl result) s' →
        ∃ now found, s.clock ≤ now ∧ now ≤ s'.clock ∧
          result = .ok found ∧
          TtlAgrees found ((live now s.primary
            (collection.getD stores.primaryDefault, key)).map
              fun slot => (slot.entry.value, slot.entry.ttl now))

section Calls

variable {stores : Stores} {cacheTtl : Option F64} {s : Tiers}
  {α : Type} {key : String} {collection : Option String}

structure Reads (s s' : Tiers) : Prop where
  clock : s.clock ≤ s'.clock
  primary : s'.primary = s.primary
  faithful : Faithful s'

theorem Reads.trans {s' s'' : Tiers} (h : Reads s s') (h' : Reads s' s'') :
    Reads s s'' :=
  ⟨Int.le_trans h.clock h'.clock, h'.primary.trans h.primary, h'.faithful⟩

theorem Faithful.reads (h : Faithful s) {now : DateTime}
    (hle : s.clock ≤ now) : Reads s ⟨now, s.cache, s.primary⟩ :=
  ⟨hle, rfl, h.later hle⟩

theorem after_populate {value : Option Value} (h : Faithful s)
    (hfound : ∀ found, value = some found →
      ∃ slot, s.primary (collection.getD stores.primaryDefault, key) =
        some slot ∧ slot.entry.value = found) :
    After stores (Outlived stores) (fun r s' => r = .ok () ∧ Reads s s')
      (PassthroughCache.populate cacheTtl key collection value).run s := by
  cases value with
  | none => exact ensures_done ⟨rfl, Int.le_refl _, rfl, h⟩
  | some found =>
      obtain ⟨slot, hslot, hvalue⟩ := hfound found rfl
      rw [PassthroughCache.populate]
      refine after_cache (.put key found collection cacheTtl)
        fun choice hle hallowed => ?_
      obtain ⟨halike, hlives⟩ := hallowed
      obtain ⟨entry, hentry, hlater⟩ := hlives slot hslot
      rw [← halike] at hslot
      simp only [StoreOp.apply, putSlot, hentry]
      refine ⟨trivial, hle, rfl, h.populated hle hslot ?_ hlater⟩
      rw [hvalue, ManagedEntry.value_of_ofTtl hentry]

theorem after_get (h : Faithful s) :
    After stores (Outlived stores) (fun r s' => Reads s s' ∧
        ∃ now, s.clock ≤ now ∧ now ≤ s'.clock ∧
          r = .ok ((live now s.primary
            (collection.getD stores.primaryDefault, key)).map
              fun slot => slot.entry.value))
      (PassthroughCache.get cacheTtl key collection).run s := by
  refine after_cache_bind fun hit hle halike => ?_
  have halike' : collection.getD stores.cacheDefault =
      collection.getD stores.primaryDefault := halike
  simp only [StoreOp.apply, halike', resume]
  cases hcached : live hit.now s.cache
      (collection.getD stores.primaryDefault, key) with
  | some cached =>
      obtain ⟨slot, hslot, hvalue, _⟩ := h.hit hle hcached
      refine ensures_done ⟨h.reads hle, hit.now, hle, Int.le_refl _, ?_⟩
      rw [hslot, Option.map_some, hvalue]
  | none =>
      refine after_primary_bind fun miss hle' _ => ?_
      simp only [StoreOp.apply, resume]
      have hreads := (h.later hle).reads hle'
      refine ensures_bind_run ((after_populate hreads.faithful ?_).mono ?_)
      · intro found hfound
        obtain ⟨slot, hslot, rfl⟩ := Option.map_eq_some_iff.mp hfound
        exact ⟨slot, (live_eq_some.mp hslot).1, rfl⟩
      · rintro r s' ⟨rfl, hpopulated⟩
        refine ensures_done ⟨((h.reads hle).trans hreads).trans hpopulated,
          miss.now, Int.le_trans hle hle', hpopulated.clock, rfl⟩

theorem after_ttl (h : Faithful s) :
    After stores (Outlived stores) (fun r s' => Reads s s' ∧
        ∃ now found, s.clock ≤ now ∧ now ≤ s'.clock ∧ r = .ok found ∧
          TtlAgrees found ((live now s.primary
            (collection.getD stores.primaryDefault, key)).map
              fun slot => (slot.entry.value, slot.entry.ttl now)))
      (PassthroughCache.ttl cacheTtl key collection).run s := by
  refine after_cache_bind fun hit hle halike => ?_
  have halike' : collection.getD stores.cacheDefault =
      collection.getD stores.primaryDefault := halike
  simp only [StoreOp.apply, halike', resume]
  cases hcached : live hit.now s.cache
      (collection.getD stores.primaryDefault, key) with
  | some cached =>
      obtain ⟨slot, hslot, hvalue, hlater⟩ := h.hit hle hcached
      refine ensures_done ⟨h.reads hle, hit.now, _, hle, Int.le_refl _, rfl, ?_⟩
      rw [hslot]
      exact ⟨hvalue.symm, hlater.ttl (live_eq_some.mp hcached).2⟩
  | none =>
      refine after_primary_bind fun miss hle' _ => ?_
      simp only [StoreOp.apply, resume]
      have hreads := (h.later hle).reads hle'
      refine ensures_bind_run ((after_populate hreads.faithful ?_).mono ?_)
      · intro found hfound
        rw [Option.map_map] at hfound
        obtain ⟨slot, hslot, rfl⟩ := Option.map_eq_some_iff.mp hfound
        exact ⟨slot, (live_eq_some.mp hslot).1, rfl⟩
      · rintro r s' ⟨rfl, hpopulated⟩
        refine ensures_done ⟨((h.reads hle).trans hreads).trans hpopulated,
          miss.now, _, Int.le_trans hle hle', hpopulated.clock, rfl, ?_⟩
        cases live miss.now s.primary
            (collection.getD stores.primaryDefault, key) with
        | none => trivial
        | some slot => exact ⟨rfl, fun long hlong => ⟨long, hlong, le_refl _⟩⟩

def Cleared (stores : Stores) (collection : Option String)
    (keys : List String) (s : Tiers) : Prop :=
  ∀ key ∈ keys, s.cache (collection.getD stores.primaryDefault, key) = none

theorem after_write (op : StoreOp) (h : Faithful s)
    (hcleared : Cleared stores op.collection op.writes s) :
    After stores (Outlived stores) (fun _ s' => Faithful s')
      (send .primary op).run s := by
  refine after_primary op fun choice hle _ => h.changed hle ?_
  intro id hheld
  refine StoreOp.apply_other op fun key hkey hid => hheld ?_
  rw [hid]
  exact hcleared key hkey

theorem after_delete_bind {post : Except Error α → Tiers → Prop}
    {f : Bool → Requests α} (h : Faithful s)
    (hrest : ∀ found s', Faithful s' →
      (∀ id, s.cache id = none → s'.cache id = none) →
      s'.cache (collection.getD stores.primaryDefault, key) = none →
      After stores (Outlived stores) post (f found).run s') :
    After stores (Outlived stores) post
      (send .cache (.delete key collection) >>= f).run s := by
  refine after_cache_bind fun choice hle halike => ?_
  have halike' : collection.getD stores.cacheDefault =
      collection.getD stores.primaryDefault := halike
  simp only [StoreOp.apply, resume, halike']
  refine hrest _ _ (h.invalidated hle _) (fun id hid => ?_)
    (Function.update_self ..)
  by_cases hsame : id = (collection.getD stores.primaryDefault, key)
  · subst hsame
    exact Function.update_self ..
  · exact (Function.update_of_ne hsame ..).trans hid

theorem after_write_through (op : StoreOp) (h : Faithful s)
    (hkeys : op.writes = [key]) :
    After stores (Outlived stores) (fun _ s' => Faithful s')
      (send .cache (.delete key op.collection) >>= fun _ =>
        send .primary op).run s := by
  refine after_delete_bind h fun _ s' hs' _ hnone => after_write op hs' ?_
  intro other hother
  rw [hkeys, List.mem_singleton] at hother
  rw [hother]
  exact hnone

theorem after_invalidate {keys : List String} (h : Faithful s) :
    After stores (Outlived stores) (fun r s' => r = .ok () ∧ Faithful s' ∧
        (∀ id, s.cache id = none → s'.cache id = none) ∧
        Cleared stores collection keys s')
      (PassthroughCache.invalidate collection keys).run s := by
  induction keys generalizing s with
  | nil =>
      refine ensures_done ⟨rfl, h, fun _ hid => hid, fun key hkey => ?_⟩
      cases hkey
  | cons key keys ih =>
      rw [PassthroughCache.invalidate]
      refine after_delete_bind h fun _ s' hs' hkept hnone => ?_
      refine (ih hs').mono ?_
      rintro r s'' ⟨rfl, hs'', hkept', hcleared⟩
      refine ⟨rfl, hs'', fun id hid => hkept' id (hkept id hid), ?_⟩
      intro other hother
      rcases List.mem_cons.mp hother with rfl | hmem
      · exact hkept' _ hnone
      · exact hcleared other hmem

theorem after_write_batch (op : StoreOp) (h : Faithful s) :
    After stores (Outlived stores) (fun _ s' => Faithful s')
      (PassthroughCache.invalidate op.collection op.writes >>= fun _ =>
        send .primary op).run s := by
  refine ensures_bind_run ((after_invalidate h).mono ?_)
  rintro r s' ⟨rfl, hs', _, hcleared⟩
  exact after_write op hs' hcleared

theorem after_getMany {keys : List String} (h : Faithful s) :
    After stores (Outlived stores) (fun _ s' => Faithful s')
      (PassthroughCache.getMany cacheTtl collection keys).run s := by
  induction keys generalizing s with
  | nil => exact ensures_done h
  | cons key keys ih =>
      refine ensures_cons ((after_get h).mono ?_) fun s' hs' => ih hs'
      exact fun _ _ hpost => hpost.1.faithful

theorem after_ttlMany {keys : List String} (h : Faithful s) :
    After stores (Outlived stores) (fun _ s' => Faithful s')
      (PassthroughCache.ttlMany cacheTtl collection keys).run s := by
  induction keys generalizing s with
  | nil => exact ensures_done h
  | cons key keys ih =>
      refine ensures_cons ((after_ttl h).mono ?_) fun s' hs' => ih hs'
      exact fun _ _ hpost => hpost.1.faithful

theorem after_getWithRevision (h : Faithful s) :
    After stores (Outlived stores) (fun _ s' => Faithful s')
      (PassthroughCache.getWithRevision cacheTtl key collection).run s := by
  refine after_primary_bind fun choice hle _ => ?_
  simp only [StoreOp.apply, resume]
  refine ensures_bind_run ((after_populate (h.later hle) ?_).mono ?_)
  · intro found hfound
    rw [Option.map_map] at hfound
    obtain ⟨slot, hslot, rfl⟩ := Option.map_eq_some_iff.mp hfound
    exact ⟨slot, (live_eq_some.mp hslot).1, rfl⟩
  · rintro r s' ⟨rfl, hreads⟩
    exact ensures_done hreads.faithful

theorem after_program (call : Call) (h : Faithful s) :
    After stores (Outlived stores) (fun _ s' => Faithful s')
      (program cacheTtl call) s := by
  cases call with
  | get key collection =>
      exact ensures_map ((after_get h).mono fun _ _ hpost => hpost.1.faithful)
  | ttl key collection =>
      exact ensures_map ((after_ttl h).mono fun _ _ hpost => hpost.1.faithful)
  | put key value collection seconds =>
      exact ensures_map
        (after_write_through (.put key value collection seconds) h rfl)
  | delete key collection =>
      exact ensures_map (after_write_through (.delete key collection) h rfl)
  | getMany keys collection => exact ensures_map (after_getMany h)
  | ttlMany keys collection => exact ensures_map (after_ttlMany h)
  | putMany keys values collection seconds =>
      refine ensures_map ?_
      unfold PassthroughCache.putMany
      split
      · exact ensures_done h
      · exact after_write_batch (.putMany keys values collection seconds) h
  | deleteMany keys collection =>
      exact ensures_map (after_write_batch (.deleteMany keys collection) h)
  | getWithRevision key collection =>
      exact ensures_map (after_getWithRevision h)
  | compareAndSwap key expected value collection seconds =>
      exact ensures_map (after_write_through
        (.compareAndSwap key expected value collection seconds) h rfl)
  | compareAndDelete key expected collection =>
      exact ensures_map (after_write_through
        (.compareAndDelete key expected collection) h rfl)

theorem Moves.faithful {s' : Tiers} (h : Faithful s)
    (hmoves : Moves stores cacheTtl (Outlived stores) s s') :
    Faithful s' := by
  cases hmoves with
  | tick hle => exact h.later hle
  | call hexec => exact after_program _ h _ _ hexec

theorem moves_faithful {start : Tiers}
    (hmoves : Relation.ReflTransGen
      (Moves stores cacheTtl (Outlived stores)) start s)
    (h : Faithful start) : Faithful s := by
  induction hmoves with
  | refl => exact h
  | tail _ hmove ih => exact hmove.faithful ih

end Calls

/-- `get` and `ttl` return what the primary store would, as long as the
cache outlives nothing. -/
theorem cache_never_stale (stores : Stores) (cacheTtl : Option F64) :
    NeverStale stores cacheTtl (Outlived stores) := by
  intro start s hempty hmoves key collection s'
  have hstart : Faithful start := by
    intro id cached hcached
    rw [hempty id] at hcached
    cases hcached
  have hs := moves_faithful hmoves hstart
  refine ⟨fun result hexec => ?_, fun result hexec => ?_⟩
  · obtain ⟨r, s'', hget, hmap⟩ := exec_bind hexec
    cases hmap
    obtain ⟨_, now, hstarted, hended, rfl⟩ := after_get hs _ _ hget
    exact ⟨now, hstarted, hended, rfl⟩
  · obtain ⟨r, s'', httl, hmap⟩ := exec_bind hexec
    cases hmap
    obtain ⟨_, now, found, hstarted, hended, rfl, hagrees⟩ :=
      after_ttl hs _ _ httl
    exact ⟨now, found, hstarted, hended, rfl, hagrees⟩

def shortEntry : ManagedEntry :=
  ⟨.null, some .epoch,
    some ⟨1000000000, DateTime.second_lower, DateTime.second_upper⟩⟩

theorem ofTtl_one :
    ManagedEntry.ofTtl .epoch .null (some (.finite 1)) = .ok shortEntry := by
  decide +kernel

/-- Without a TTL in the cache an entry outlives its TTL in the primary
store. -/
theorem cache_outlives_primary :
    ¬ NeverStale ⟨"c", "c"⟩ none (fun _ _ _ => True) := by
  intro h
  let stores : Stores := ⟨"c", "c"⟩
  let early : Choice := ⟨.epoch, fun _ => .fill 0⟩
  let late : Choice := ⟨⟨1000000000, by decide, by decide⟩, fun _ => .fill 0⟩
  let slot : Slot := ⟨shortEntry, .fill 0⟩
  let cached : Slot := ⟨ManagedEntry.new .epoch .null, .fill 0⟩
  let blank : Entries := fun _ => none
  let cleared : Entries := Function.update blank ("c", "k") none
  let primary : Entries := Function.update blank ("c", "k") (some slot)
  let filled : Entries := Function.update cleared ("c", "k") (some cached)
  have hput : Exec (Tiers.handle stores) (fun _ _ _ => True)
      (program none (.put "k" .null none (some (.finite 1))))
      ⟨.epoch, blank, blank⟩ (.put (.ok ())) ⟨.epoch, cleared, primary⟩ := by
    refine .request early trivial rfl (.request early trivial ?_ .done)
    change (if DateTime.epoch ≤ DateTime.epoch then
      some ((putSlot .epoch ("c", "k") .null (some (.finite 1)) (.fill 0)
        blank).1, _) else none) = _
    rw [putSlot, ofTtl_one]
    rfl
  have hfill : Exec (Tiers.handle stores) (fun _ _ _ => True)
      (program none (.get "k" none)) ⟨.epoch, cleared, primary⟩
      (.get (.ok (some .null))) ⟨.epoch, filled, primary⟩ :=
    .request early trivial rfl
      (.request early trivial rfl (.request early trivial rfl .done))
  have hget : Exec (Tiers.handle stores) (fun _ _ _ => True)
      (program none (.get "k" none)) ⟨late.now, filled, primary⟩
      (.get (.ok (some .null))) ⟨late.now, filled, primary⟩ :=
    .request late trivial rfl .done
  have hmoves : Relation.ReflTransGen (Moves stores none fun _ _ _ => True)
      ⟨.epoch, blank, blank⟩ ⟨late.now, filled, primary⟩ :=
    ((Relation.ReflTransGen.single (.call hput)).tail (.call hfill)).tail
      (.tick (by decide))
  obtain ⟨now, hstart, hend, hresult⟩ :=
    (h _ _ (fun _ => rfl) hmoves "k" none _).1 _ hget
  have hexpired : shortEntry.isExpired now = true :=
    ManagedEntry.isExpired_mono hstart (by decide)
  have hgone : live now primary ("c", "k") = none := by
    have hslot : primary ("c", "k") = some slot := Function.update_self ..
    rw [live, hslot, Option.filter_some, hexpired]
    rfl
  change _ = Except.ok ((live now primary ("c", "k")).map _) at hresult
  rw [hgone] at hresult
  cases hresult

end OpenKeyV.Wrapper
