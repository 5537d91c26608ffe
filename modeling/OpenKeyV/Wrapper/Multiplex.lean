import OpenKeyV.Library.Machine
import OpenKeyV.Library.Page
import OpenKeyV.Wrapper.SingleCollection

/-!
# Collections inside one collection

The wrapper's store holds the entries of a plain store under compound
identities.  Its calls on entries give the results of the plain store.  Its
enumerations filter one page of the backing collection, and miss what is on
no page.
-/

namespace OpenKeyV.Wrapper

open Library Memory

def StoreCall.collection : StoreCall → Option String
  | .one op => op.collection
  | .getMany _ c | .ttlMany _ c => c

namespace SingleCollectionWrapper

def Sized (name : String) : Prop := name.utf8ByteSize < 2 ^ 64

variable (w : SingleCollectionWrapper)

def physical (id : Identity) : Identity :=
  (w.backingCollection, OpenKeyV.compoundKey id.1 id.2)

structure Multiplexed (plain inner : Entries) : Prop where
  entries : ∀ id, plain id = inner (w.physical id)
  /-- The backing collection has been written by the wrapper. -/
  owned : ∀ key, (inner (w.backingCollection, key)).isSome = true →
    ∃ id : Identity, key = OpenKeyV.compoundKey id.1 id.2 ∧ Sized id.1

/-! ## Calls on entries -/

section Entries

variable {w} {now : DateTime} {plain inner : Entries} {id : Identity}

theorem physical_inj {id id' : Identity} :
    w.physical id = w.physical id' ↔ id = id' := by
  simp only [physical, Prod.mk.injEq, true_and, compoundKey_inj]
  exact Prod.ext_iff.symm

theorem Multiplexed.live (h : w.Multiplexed plain inner) (now : DateTime)
    (id : Identity) :
    live now inner (w.physical id) = live now plain id := by
  simp only [Wrapper.live, h.entries]

theorem Multiplexed.update (h : w.Multiplexed plain inner)
    (hsized : Sized id.1) (slot : Option Slot) :
    w.Multiplexed (Function.update plain id slot)
      (Function.update inner (w.physical id) slot) where
  entries other := by
    by_cases hother : other = id
    · subst hother
      simp
    · have hne : w.physical other ≠ w.physical id := by
        simpa [physical_inj] using hother
      rw [Function.update_of_ne hother, Function.update_of_ne hne]
      exact h.entries other
  owned key hkey := by
    by_cases hsame : (w.backingCollection, key) = w.physical id
    · exact ⟨id, congrArg Prod.snd hsame, hsized⟩
    · rw [Function.update_of_ne hsame] at hkey
      exact h.owned key hkey

theorem putSlot_multiplexed {value : Value} {ttl : Option F64}
    {revision : Revision} (h : w.Multiplexed plain inner)
    (hsized : Sized id.1) :
    (putSlot now (w.physical id) value ttl revision inner).1 =
        (putSlot now id value ttl revision plain).1 ∧
      w.Multiplexed (putSlot now id value ttl revision plain).2
        (putSlot now (w.physical id) value ttl revision inner).2 := by
  unfold putSlot
  split
  · exact ⟨rfl, h.update hsized _⟩
  · exact ⟨rfl, h⟩

variable {name : String}

theorem putSlots_multiplexed {revisions : Nat → Revision} {ttl : Option F64}
    {items : List (String × Value)} {i : Nat} (h : w.Multiplexed plain inner)
    (hsized : Sized name) :
    (putSlots now revisions w.backingCollection ttl
          (items.map fun item => (OpenKeyV.compoundKey name item.1, item.2)) i
          inner).1 =
        (putSlots now revisions name ttl items i plain).1 ∧
      w.Multiplexed (putSlots now revisions name ttl items i plain).2
        (putSlots now revisions w.backingCollection ttl
          (items.map fun item => (OpenKeyV.compoundKey name item.1, item.2)) i
          inner).2 := by
  induction items generalizing plain inner i with
  | nil => exact ⟨rfl, h⟩
  | cons item items ih =>
      obtain ⟨key, value⟩ := item
      have hput := @putSlot_multiplexed w now plain inner (name, key) value ttl
        (revisions i) h hsized
      simp only [List.map_cons, putSlots, physical] at hput ⊢
      generalize putSlot now (w.backingCollection,
        OpenKeyV.compoundKey name key) value ttl (revisions i) inner = first
        at hput ⊢
      generalize putSlot now (name, key) value ttl (revisions i) plain =
        second at hput ⊢
      obtain ⟨result, inner'⟩ := first
      obtain ⟨result', plain'⟩ := second
      obtain ⟨rfl, hnext⟩ := hput
      cases result with
      | error error => exact ⟨rfl, hnext⟩
      | ok _ => exact ih hnext

theorem deleteSlots_multiplexed (now : DateTime) (keys : List String)
    (h : w.Multiplexed plain inner) (hsized : Sized name) :
    (deleteSlots now w.backingCollection
          (keys.map (OpenKeyV.compoundKey name)) inner).1 =
        (deleteSlots now name keys plain).1 ∧
      w.Multiplexed (deleteSlots now name keys plain).2
        (deleteSlots now w.backingCollection
          (keys.map (OpenKeyV.compoundKey name)) inner).2 := by
  induction keys generalizing plain inner with
  | nil => exact ⟨rfl, h⟩
  | cons key keys ih =>
      have hfound := h.live now (name, key)
      obtain ⟨hcount, hnext⟩ := ih (@Multiplexed.update w plain inner
        (name, key) h hsized none)
      simp only [physical] at hfound hcount hnext
      simp only [List.map_cons, deleteSlots, hfound, hcount]
      exact ⟨trivial, hnext⟩

end Entries

/-! ## One call -/

section Calls

variable {w} {now : DateTime} {revisions : Nat → Revision}
  {innerDefault : String} {plain inner : Table}

theorem call_multiplexed (storeCall : StoreCall)
    (h : w.Multiplexed plain.entries inner.entries)
    (hsized : Sized (collectionOf storeCall.collection)) :
    (Program.eval (w.call (Table.call now revisions innerDefault) storeCall)
          inner).1 =
        (plain.apply now revisions "default_collection" storeCall).1 ∧
      w.Multiplexed
        (plain.apply now revisions "default_collection" storeCall).2.entries
        (Program.eval (w.call (Table.call now revisions innerDefault) storeCall)
          inner).2.entries := by
  have hlive : ∀ c key, live now inner.entries
      (w.backingCollection, compoundKey c key) =
        live now plain.entries (c.getD "default_collection", key) :=
    fun c key => h.live now (collectionOf c, key)
  cases storeCall with
  | getMany keys c =>
      simp only [call, getMany, Table.call, Program.eval_ofFn, Table.apply,
        StoreCall.apply, Option.getD_some, List.map_map, Function.comp_def,
        hlive]
      exact ⟨trivial, h⟩
  | ttlMany keys c =>
      simp only [call, ttlMany, Table.call, Program.eval_ofFn, Table.apply,
        StoreCall.apply, Option.getD_some, List.map_map, Function.comp_def,
        hlive]
      exact ⟨trivial, h⟩
  | one op =>
      cases op with
      | get key c =>
          simp only [call, get, Table.call, Program.eval_ofFn, Table.apply,
            StoreCall.apply, StoreOp.apply, Option.getD_some, hlive]
          exact ⟨trivial, h⟩
      | ttl key c =>
          simp only [call, ttl, Table.call, Program.eval_ofFn, Table.apply,
            StoreCall.apply, StoreOp.apply, Option.getD_some, hlive]
          exact ⟨trivial, h⟩
      | getWithRevision key c =>
          simp only [call, getWithRevision, Table.call, Program.eval_ofFn,
            Table.apply, StoreCall.apply, StoreOp.apply, Option.getD_some,
            hlive]
          exact ⟨trivial, h⟩
      | put key value c seconds =>
          simp only [call, put, Table.call, Program.eval_ofFn, Table.apply,
            StoreCall.apply, StoreOp.apply, Option.getD_some, Table.changed]
          exact @putSlot_multiplexed w now plain.entries inner.entries
            (collectionOf c, key) value seconds (revisions 0) h hsized
      | putMany keys values c seconds =>
          simp only [call, putMany, Table.call, Program.eval_ofFn, Table.apply,
            StoreCall.apply, StoreOp.apply, Option.getD_some, List.length_map,
            Table.changed]
          split
          · exact ⟨rfl, h⟩
          · have hitems : (keys.map (compoundKey c)).zip values =
                (keys.zip values).map fun item =>
                  (OpenKeyV.compoundKey (collectionOf c) item.1, item.2) := by
              rw [List.zip_map_left]
              rfl
            rw [hitems]
            exact putSlots_multiplexed h hsized
      | delete key c =>
          simp only [call, delete, Table.call, Program.eval_ofFn, Table.apply,
            StoreCall.apply, StoreOp.apply, Option.getD_some, hlive,
            Table.changed]
          exact ⟨trivial, @Multiplexed.update w plain.entries inner.entries
            (collectionOf c, key) h hsized none⟩
      | deleteMany keys c =>
          obtain ⟨hcount, hnext⟩ := deleteSlots_multiplexed now keys h hsized
          simp only [call, deleteMany, Table.call, Program.eval_ofFn,
            Table.apply, StoreCall.apply, StoreOp.apply, Option.getD_some,
            Table.changed]
          exact ⟨congrArg Except.ok hcount, hnext⟩
      | compareAndSwap key expected value c seconds =>
          simp only [call, compareAndSwap, Table.call, Program.eval_ofFn,
            Table.apply, StoreCall.apply, StoreOp.apply, Option.getD_some,
            hlive, Table.changed]
          split
          · exact ⟨rfl, h⟩
          · split
            · exact ⟨rfl, @Multiplexed.update w plain.entries inner.entries
                (collectionOf c, key) h hsized _⟩
            · exact ⟨rfl, h⟩
      | compareAndDelete key expected c =>
          simp only [call, compareAndDelete, Table.call, Program.eval_ofFn,
            Table.apply, StoreCall.apply, StoreOp.apply, Option.getD_some,
            hlive, Table.changed]
          split
          · exact ⟨rfl, @Multiplexed.update w plain.entries inner.entries
              (collectionOf c, key) h hsized none⟩
          · exact ⟨rfl, h⟩

end Calls

/-! ## Pages of the backing collection -/

def encode (id : Identity) : String := OpenKeyV.compoundKey id.1 id.2

theorem encode_inj {id id' : Identity} : encode id = encode id' ↔ id = id' :=
  compoundKey_inj.trans Prod.ext_iff.symm

theorem decompoundKey_encode {id : Identity} (h : Sized id.1) :
    decompoundKey (encode id) = .ok id :=
  decompoundKey_eq_ok.mpr ⟨rfl, h⟩

section Pages

variable {w} {shown : DateTime → Slot → Bool} {now : DateTime}
  {innerDefault : String} {plain inner : Table}

theorem mem_shownNames {t : Table} {id : Identity} :
    id ∈ t.shownNames shown now ↔ (t.entries id).any (shown now) = true := by
  rw [Table.shownNames, List.mem_filter, t.mem_names]
  constructor
  · exact And.right
  · intro h
    refine ⟨?_, h⟩
    cases hid : t.entries id with
    | none => simp [hid] at h
    | some slot => rfl

theorem nodup_shownNames (t : Table) : (t.shownNames shown now).Nodup :=
  t.nodup.filter _

theorem nodup_keysOf (t : Table) (collection : String) :
    (t.keysOf shown now collection).Nodup := by
  refine List.Nodup.map_on ?_ ((nodup_shownNames t).filter _)
  intro id hid id' hid' hkey
  have hname := (List.mem_filter.mp hid).2
  have hname' := (List.mem_filter.mp hid').2
  simp only [decide_eq_true_eq] at hname hname'
  exact Prod.ext (hname.trans hname'.symm) hkey

theorem mem_keysOf {t : Table} {collection key : String} :
    key ∈ t.keysOf shown now collection ↔
      (t.entries (collection, key)).any (shown now) = true := by
  rw [← mem_shownNames, Table.keysOf, List.mem_map]
  constructor
  · rintro ⟨id, hid, rfl⟩
    obtain ⟨hmem, hname⟩ := List.mem_filter.mp hid
    simp only [decide_eq_true_eq] at hname
    exact hname ▸ hmem
  · exact fun h => ⟨(collection, key), List.mem_filter.mpr ⟨h, by simp⟩, rfl⟩

theorem sized_of_mem (h : w.Multiplexed plain.entries inner.entries)
    {id : Identity} (hid : id ∈ plain.shownNames shown now) :
    Sized id.1 := by
  have hany := mem_shownNames.mp hid
  rw [h.entries] at hany
  have hsome : (inner.entries (w.physical id)).isSome = true := by
    cases hslot : inner.entries (w.physical id) with
    | none => simp [hslot] at hany
    | some slot => rfl
  obtain ⟨id', hkey, hsized⟩ := h.owned _ hsome
  have hsame : encode id = encode id' := hkey
  rw [encode_inj.mp hsame]
  exact hsized

theorem keysOf_backing (h : w.Multiplexed plain.entries inner.entries) :
    (inner.keysOf shown now w.backingCollection).Perm
      ((plain.shownNames shown now).map encode) := by
  refine (List.perm_ext_iff_of_nodup (nodup_keysOf inner _)
    ((nodup_shownNames plain).map fun _ _ => encode_inj.mp)).mpr fun key => ?_
  rw [mem_keysOf, List.mem_map]
  constructor
  · intro hany
    have hsome : (inner.entries (w.backingCollection, key)).isSome = true := by
      cases hslot : inner.entries (w.backingCollection, key) with
      | none => simp [hslot] at hany
      | some slot => rfl
    obtain ⟨id, rfl, -⟩ := h.owned key hsome
    refine ⟨id, mem_shownNames.mpr ?_, rfl⟩
    rw [h.entries]
    exact hany
  · rintro ⟨id, hid, rfl⟩
    have hany := mem_shownNames.mp hid
    rwa [h.entries] at hany

theorem forall_pages (h : w.Multiplexed plain.entries inner.entries)
    {Q : List String → Prop} :
    (∀ order : Order, Q ((order.keys w.backingCollection
        (inner.keysOf shown now w.backingCollection)).take (pageLen none))) ↔
      ∀ l : List Identity, l.Perm (plain.shownNames shown now) →
        Q ((l.take pageLimit).map encode) := by
  have hpage : pageLen none = pageLimit := rfl
  rw [hpage]
  constructor
  · intro hall l hperm
    obtain ⟨order, horder⟩ := exists_order_keys
      ((hperm.map encode).trans (keysOf_backing h).symm) w.backingCollection
    have hq := hall order
    rwa [horder, ← List.map_take] at hq
  · intro hall order
    have hperm := (order.keys_perm w.backingCollection
      (inner.keysOf shown now w.backingCollection)).trans (keysOf_backing h)
    obtain ⟨l, hmap, hl⟩ :=
      (congrFun₂ (List.eq_map_comp_perm encode) _ _).mpr hperm
    have hq := hall l hl
    rwa [List.map_take, ← hmap] at hq

end Pages

/-! ## The loops over a page -/

section Loops

variable {ids : List Identity}

theorem keysIn_encode (collection : String)
    (hsized : ∀ id ∈ ids, Sized id.1) :
    keysIn collection (ids.map encode) =
      .ok ((ids.filter fun id => id.1 = collection).map Prod.snd) := by
  induction ids with
  | nil => rfl
  | cons id ids ih =>
      have hrest := ih fun id hid => hsized id (List.mem_cons_of_mem _ hid)
      simp only [List.map_cons, keysIn,
        decompoundKey_encode (hsized id (List.mem_cons_self ..)), hrest, bind,
        Except.bind, pure, Except.pure, List.filter_cons]
      split <;> simp_all

def joined (found : List String) (name : String) : List String :=
  if name ∈ found then found else found ++ [name]

theorem nodup_joined {found : List String} (h : found.Nodup) (name : String) :
    (joined found name).Nodup := by
  unfold joined
  split
  · exact h
  · rename_i hnew
    refine h.append (List.nodup_singleton name) fun other hother hsame => ?_
    rw [List.mem_singleton.mp hsame] at hother
    exact hnew hother

theorem mem_joined {found : List String} {name other : String} :
    other ∈ joined found name ↔ other ∈ found ∨ other = name := by
  unfold joined
  split
  · rename_i hknown
    constructor
    · exact .inl
    · rintro (h | rfl)
      · exact h
      · exact hknown
  · simp

theorem length_joined_le (found : List String) (name : String) :
    (joined found name).length ≤ found.length + 1 := by
  unfold joined
  split <;> simp

theorem collectionsIn_encode {limit : Nat} {found : List String}
    (hsized : ∀ id ∈ ids, Sized id.1) (hnodup : found.Nodup)
    (hroom : found.length < limit) :
    ∃ names, collectionsIn limit found (ids.map encode) = .ok names ∧
      names.Nodup ∧
      (∀ name ∈ names, name ∈ found ∨ name ∈ ids.map Prod.fst) ∧
      names.length = min limit (found ++ ids.map Prod.fst).toFinset.card := by
  induction ids generalizing found with
  | nil =>
      refine ⟨found, rfl, hnodup, fun _ hname => .inl hname, ?_⟩
      rw [List.map_nil, List.append_nil, List.toFinset_card_of_nodup hnodup]
      omega
  | cons id ids ih =>
      have hfound := nodup_joined hnodup id.1
      have hcard : (found ++ (id :: ids).map Prod.fst).toFinset =
          (joined found id.1 ++ ids.map Prod.fst).toFinset := by
        ext name
        simp only [List.mem_toFinset, List.mem_append, mem_joined,
          List.map_cons, List.mem_cons, or_assoc]
      have hmem : ∀ name, name ∈ joined found id.1 →
          name ∈ found ∨ name ∈ (id :: ids).map Prod.fst := by
        intro name hname
        rcases mem_joined.mp hname with hold | rfl
        · exact .inl hold
        · exact .inr (List.mem_cons_self ..)
      have hstep : collectionsIn limit found ((id :: ids).map encode) =
          if (joined found id.1).length = limit then
            .ok (joined found id.1)
          else collectionsIn limit (joined found id.1) (ids.map encode) := by
        rw [List.map_cons, collectionsIn,
          decompoundKey_encode (hsized id (List.mem_cons_self ..))]
        rfl
      rw [hstep, hcard]
      by_cases hfull : (joined found id.1).length = limit
      · rw [if_pos hfull]
        refine ⟨_, rfl, hfound, hmem, ?_⟩
        have hsub : (joined found id.1).toFinset ⊆
            (joined found id.1 ++ ids.map Prod.fst).toFinset := by
          rw [List.toFinset_append]
          exact Finset.subset_union_left
        have hle := Finset.card_le_card hsub
        rw [List.toFinset_card_of_nodup hfound] at hle
        omega
      · rw [if_neg hfull]
        have hlen := length_joined_le found id.1
        obtain ⟨names, hnames, hdistinct, hlisted, hcount⟩ := ih
          (fun other hother => hsized other (List.mem_cons_of_mem _ hother))
          hfound (by omega)
        refine ⟨names, hnames, hdistinct, fun name hname => ?_, hcount⟩
        rcases hlisted name hname with hold | hnew
        · exact hmem name hold
        · exact .inr (List.mem_cons_of_mem _ hnew)

end Loops

/-! ## Runs of both stores -/

inductive Call where
  | store (call : StoreCall)
  | keys (collection : Option String) (limit : Option Nat)
  | collections (limit : Option Nat)
  | elsewhere (call : StoreCall)

structure Moment where
  now : DateTime
  revisions : Nat → Revision
  call : Call

structure Tables where
  plain : Table
  inner : Table

def Lists (all : List String) (n : Nat) (result : Except Error (List String)) :
    Prop :=
  ∃ names, result = .ok names ∧ names.Nodup ∧ (∀ name ∈ names, name ∈ all) ∧
    names.length = min n all.length

section Runs

variable (shown : DateTime → Slot → Bool) (innerDefault : String)

def collectionsOf (now : DateTime) (t : Table) : List String :=
  ((t.shownNames shown now).map Prod.fst).dedup

def step (t : Tables) (m : Moment) : Option Tables :=
  match m.call with
  | .store call => some
      ⟨(t.plain.apply m.now m.revisions "default_collection" call).2,
        (Program.eval (w.call (Table.call m.now m.revisions innerDefault) call)
          t.inner).2⟩
  | .keys .. | .collections .. => some t
  | .elsewhere call =>
      if call.collection.getD innerDefault = w.backingCollection then none
      else some
        ⟨t.plain, (t.inner.apply m.now m.revisions innerDefault call).2⟩

/-- The wrapper gives the result of the plain store, whichever order its
store enumerates in. -/
def SameResult (t : Tables) (m : Moment) : Prop :=
  match m.call with
  | .store call =>
      (Program.eval (w.call (Table.call m.now m.revisions innerDefault) call)
          t.inner).1 =
        (t.plain.apply m.now m.revisions "default_collection" call).1
  | .keys collection limit => ∀ order : Order,
      Lists (t.plain.keysOf shown m.now (collectionOf collection))
        (pageLen limit)
        (Program.eval (w.keys (Table.keys shown m.now innerDefault order)
          collection limit) t.inner).1
  | .collections limit => ∀ order : Order,
      let all := collectionsOf shown m.now t.plain
      Lists all (limit.getD all.length)
        (Program.eval (w.collections (Table.keys shown m.now innerDefault order)
          limit) t.inner).1
  | .elsewhere _ => True

/-- What is to be listed fits on a page behind everything else. -/
def Fits (t : Tables) (m : Moment) : Prop :=
  let names := t.plain.shownNames shown m.now
  match m.call with
  | .keys collection limit =>
      let wanted := min (pageLen limit)
        (t.plain.keysOf shown m.now (collectionOf collection)).length
      wanted = 0 ∨ wanted + (names.filter fun id =>
        !decide (id.1 = collectionOf collection)).length ≤ pageLimit
  | .collections limit =>
      let all := (collectionsOf shown m.now t.plain).length
      ∀ few : List String, few.length < min (limit.getD all) all →
        (names.filter fun id => id.1 ∈ few).length <
          min pageLimit names.length
  | _ => True

def Moment.Valid (m : Moment) : Prop :=
  match m.call with
  | .store call => Sized (collectionOf call.collection)
  | _ => True

end Runs

section Listing

variable {w} {shown : DateTime → Slot → Bool} {now : DateTime}
  {innerDefault : String} {plain inner : Table}

/-- What `keys` leaves of the names that it has found. -/
def limited (limit : Option Nat) (names : List String) : List String :=
  match limit with
  | some limit => names.take limit
  | none => names

theorem limited_sublist (limit : Option Nat) (names : List String) :
    (limited limit names).Sublist names := by
  cases limit with
  | none => exact .refl names
  | some limit => exact List.take_sublist limit names

theorem eval_keys (order : Order) (collection : Option String)
    (limit : Option Nat) :
    (Program.eval (w.keys (Table.keys shown now innerDefault order) collection
        limit) inner).1 =
      (keysIn (collectionOf collection) ((order.keys w.backingCollection
        (inner.keysOf shown now w.backingCollection)).take
          (pageLen none))).map (limited limit) := by
  simp only [keys, Table.keys, Program.eval_bind, Program.eval_ofFn,
    Program.resume_ok, Option.getD_some]
  generalize keysIn (collectionOf collection) ((order.keys w.backingCollection
    (inner.keysOf shown now w.backingCollection)).take (pageLen none)) = found
  cases found with
  | error error => rfl
  | ok names => cases limit <;> rfl

theorem lists_keys_iff (h : w.Multiplexed plain.entries inner.entries)
    (name : String) (limit : Option Nat) {l : List Identity}
    (hperm : l.Perm (plain.shownNames shown now)) :
    Lists (plain.keysOf shown now name) (pageLen limit)
        ((keysIn name ((l.take pageLimit).map encode)).map (limited limit)) ↔
      min (pageLen limit) (plain.keysOf shown now name).length ≤
        ((l.take pageLimit).filter fun id => id.1 = name).length := by
  let found := ((l.take pageLimit).filter fun id => id.1 = name).map Prod.snd
  have hsized : ∀ id ∈ l.take pageLimit, Sized id.1 := fun id hid =>
    sized_of_mem h (hperm.mem_iff.mp (List.mem_of_mem_take hid))
  have hkeys : ((l.filter fun id => id.1 = name).map Prod.snd).Perm
      (plain.keysOf shown now name) := (hperm.filter _).map _
  have hsub : found.Sublist ((l.filter fun id => id.1 = name).map Prod.snd) :=
    ((List.take_sublist _ l).filter _).map _
  have hshort := limited_sublist limit found
  have hfew : found.length ≤ (plain.keysOf shown now name).length :=
    hkeys.length_eq ▸ hsub.length_le
  have hpage : found.length ≤ pageLimit := by
    have hfilter : found.length ≤ (l.take pageLimit).length := by
      simp only [found, List.length_map]
      exact List.length_filter_le ..
    exact hfilter.trans (List.length_take_le ..)
  have hfound : ((l.take pageLimit).filter fun id => id.1 = name).length =
      found.length := (List.length_map ..).symm
  have hlen : (limited limit found).length = min (pageLen limit)
        (plain.keysOf shown now name).length ↔
      min (pageLen limit) (plain.keysOf shown now name).length ≤
        found.length := by
    cases limit with
    | none =>
        simp only [limited, pageLen, defaultPageSize, pageLimit,
          Option.getD_none] at hpage ⊢
        omega
    | some limit =>
        simp only [limited, pageLen, Option.getD_some, List.length_take]
        omega
  rw [keysIn_encode name hsized, hfound, ← hlen]
  constructor
  · rintro ⟨names, hnames, -, -, hcount⟩
    cases hnames
    exact hcount
  · intro hcount
    refine ⟨_, rfl, ?_, fun key hkey => ?_, hcount⟩
    · exact ((hkeys.nodup_iff.mpr (nodup_keysOf plain name)).sublist
        hsub).sublist hshort
    · exact hkeys.mem_iff.mp (hsub.subset (hshort.subset hkey))

theorem keys_iff (h : w.Multiplexed plain.entries inner.entries)
    (collection : Option String) (limit : Option Nat) :
    (∀ order : Order,
        Lists (plain.keysOf shown now (collectionOf collection))
          (pageLen limit)
          (Program.eval (w.keys (Table.keys shown now innerDefault order)
            collection limit) inner).1) ↔
      min (pageLen limit)
          (plain.keysOf shown now (collectionOf collection)).length = 0 ∨
        min (pageLen limit)
            (plain.keysOf shown now (collectionOf collection)).length +
          ((plain.shownNames shown now).filter fun id =>
            !decide (id.1 = collectionOf collection)).length ≤ pageLimit := by
  simp only [eval_keys]
  rw [forall_pages h (Q := fun page => Lists
    (plain.keysOf shown now (collectionOf collection)) (pageLen limit)
    ((keysIn (collectionOf collection) page).map (limited limit)))]
  rw [← Page.forall_page_filter (by simp [Table.keysOf])]
  exact forall₂_congr fun l hperm => lists_keys_iff h _ limit hperm

theorem eval_collections (order : Order) {limit : Option Nat}
    (hlimit : limit.getD usizeMax ≠ 0) :
    (Program.eval (w.collections (Table.keys shown now innerDefault order)
        limit) inner).1 =
      collectionsIn (limit.getD usizeMax) [] ((order.keys w.backingCollection
        (inner.keysOf shown now w.backingCollection)).take
          (pageLen none)) := by
  simp only [collections]
  rw [if_neg hlimit]
  simp only [Table.keys, Program.eval_bind, Program.eval_ofFn,
    Program.resume_ok, Option.getD_some]

theorem lists_collections_iff (h : w.Multiplexed plain.entries inner.entries)
    {limit : Option Nat} (hlimit : limit.getD usizeMax ≠ 0)
    {l : List Identity} (hperm : l.Perm (plain.shownNames shown now)) :
    Lists (collectionsOf shown now plain)
        (limit.getD (collectionsOf shown now plain).length)
        (collectionsIn (limit.getD usizeMax) []
          ((l.take pageLimit).map encode)) ↔
      min (limit.getD (collectionsOf shown now plain).length)
          (collectionsOf shown now plain).length ≤
        ((l.take pageLimit).map Prod.fst).dedup.length := by
  have hsized : ∀ id ∈ l.take pageLimit, Sized id.1 := fun id hid =>
    sized_of_mem h (hperm.mem_iff.mp (List.mem_of_mem_take hid))
  obtain ⟨names, hnames, hnodup, hlisted, hcount⟩ :=
    collectionsIn_encode hsized List.nodup_nil
      (Nat.pos_of_ne_zero hlimit : [].length < limit.getD usizeMax)
  rw [List.nil_append, List.card_toFinset] at hcount
  have hsubset : ((l.take pageLimit).map Prod.fst) ⊆
      collectionsOf shown now plain := by
    intro name hname
    obtain ⟨id, hid, rfl⟩ := List.mem_map.mp hname
    exact List.mem_dedup.mpr (List.mem_map_of_mem
      (hperm.mem_iff.mp (List.mem_of_mem_take hid)))
  have hfew : ((l.take pageLimit).map Prod.fst).dedup.length ≤
      (collectionsOf shown now plain).length :=
    (List.subperm_of_subset (List.nodup_dedup _) fun name hname =>
      hsubset (List.mem_dedup.mp hname)).length_le
  have hpage : ((l.take pageLimit).map Prod.fst).dedup.length ≤ pageLimit := by
    refine (List.dedup_sublist _).length_le.trans ?_
    rw [List.length_map]
    exact List.length_take_le ..
  have hlen : names.length =
        min (limit.getD (collectionsOf shown now plain).length)
          (collectionsOf shown now plain).length ↔
      min (limit.getD (collectionsOf shown now plain).length)
          (collectionsOf shown now plain).length ≤
        ((l.take pageLimit).map Prod.fst).dedup.length := by
    rw [hcount]
    cases limit with
    | none =>
        have husize : pageLimit ≤ usizeMax := by decide
        simp only [Option.getD_none, Nat.min_self]
        omega
    | some limit =>
        simp only [Option.getD_some]
        omega
  rw [hnames, ← hlen]
  constructor
  · rintro ⟨other, hother, -, -, hsize⟩
    cases hother
    exact hsize
  · intro hsize
    refine ⟨names, rfl, hnodup, fun name hname => ?_, hsize⟩
    rcases hlisted name hname with hnone | hname
    · cases hnone
    · exact hsubset hname

theorem collections_iff (h : w.Multiplexed plain.entries inner.entries)
    (limit : Option Nat) :
    (∀ order : Order,
        Lists (collectionsOf shown now plain)
          (limit.getD (collectionsOf shown now plain).length)
          (Program.eval (w.collections
            (Table.keys shown now innerDefault order) limit) inner).1) ↔
      ∀ few : List String,
        few.length < min (limit.getD (collectionsOf shown now plain).length)
          (collectionsOf shown now plain).length →
        ((plain.shownNames shown now).filter fun id => id.1 ∈ few).length <
          min pageLimit (plain.shownNames shown now).length := by
  by_cases hlimit : limit.getD usizeMax = 0
  · have hzero : limit = some 0 := by
      cases limit with
      | none => simp [usizeMax] at hlimit
      | some limit => exact congrArg some hlimit
    subst hzero
    constructor
    · intro _ few hfew
      simp at hfew
    · intro _ order
      refine ⟨[], rfl, .nil, fun _ hname => (List.not_mem_nil hname).elim, ?_⟩
      simp
  · simp only [eval_collections _ hlimit]
    rw [forall_pages h (Q := fun page => Lists (collectionsOf shown now plain)
      (limit.getD (collectionsOf shown now plain).length)
      (collectionsIn (limit.getD usizeMax) [] page))]
    rw [← Page.forall_page_distinct]
    exact forall₂_congr fun l hperm => lists_collections_iff h hlimit hperm

end Listing

section Whole

variable {w} {shown : DateTime → Slot → Bool} {innerDefault : String}

theorem elsewhere_multiplexed {plain inner : Entries} {now : DateTime}
    {revisions : Nat → Revision} {storeCall : StoreCall}
    (h : w.Multiplexed plain inner)
    (hother : ¬ storeCall.collection.getD innerDefault = w.backingCollection) :
    w.Multiplexed plain
      (storeCall.apply now revisions innerDefault inner).2 := by
  have hsame : ∀ key,
      (storeCall.apply now revisions innerDefault inner).2
        (w.backingCollection, key) = inner (w.backingCollection, key) := by
    intro key
    refine storeCall.apply_other _ fun htouched => hother ?_
    cases storeCall with
    | one op =>
        obtain ⟨key', -, hid⟩ := List.mem_map.mp htouched
        exact congrArg Prod.fst hid
    | getMany | ttlMany => cases htouched
  refine ⟨fun id => (h.entries id).trans (hsame _).symm, fun key hkey => ?_⟩
  rw [hsame] at hkey
  exact h.owned key hkey

theorem step_multiplexed {t t' : Tables} {m : Moment}
    (h : w.Multiplexed t.plain.entries t.inner.entries) (hvalid : m.Valid)
    (hstep : w.step innerDefault t m = some t') :
    w.Multiplexed t'.plain.entries t'.inner.entries := by
  obtain ⟨now, revisions, c⟩ := m
  cases c with
  | store call =>
      cases hstep
      exact (call_multiplexed call h hvalid).2
  | keys collection limit | collections limit =>
      cases hstep
      exact h
  | elsewhere call =>
      simp only [step] at hstep
      split at hstep
      · cases hstep
      · rename_i hother
        cases hstep
        exact elsewhere_multiplexed h hother

theorem sameResult_iff {t : Tables} {m : Moment}
    (h : w.Multiplexed t.plain.entries t.inner.entries) (hvalid : m.Valid) :
    w.SameResult shown innerDefault t m ↔ Fits shown t m := by
  obtain ⟨now, revisions, c⟩ := m
  cases c with
  | store call => exact iff_of_true (call_multiplexed call h hvalid).1 trivial
  | keys collection limit => exact keys_iff h collection limit
  | collections limit => exact collections_iff h limit
  | elsewhere call => exact Iff.rfl

variable (w shown innerDefault) in
/-- The wrapper gives the results of the plain store along a run exactly if
what the run enumerates fits. -/
theorem multiplexed_results_iff {t : Tables} {moments : List Moment}
    (h : w.Multiplexed t.plain.entries t.inner.entries)
    (hvalid : ∀ m ∈ moments, m.Valid) :
    Along (w.step innerDefault) (w.SameResult shown innerDefault) t moments ↔
      Along (w.step innerDefault) (Fits shown) t moments :=
  along_congr (P := fun t => w.Multiplexed t.plain.entries t.inner.entries)
    (fun _ _ _ h hvalid hstep => step_multiplexed h hvalid hstep)
    (fun _ _ h hvalid => sameResult_iff h hvalid) h hvalid

end Whole

section Beyond

abbrev backing : SingleCollectionWrapper := ⟨"all"⟩

abbrev blank : Tables := ⟨.empty, .empty⟩

theorem multiplexed_blank :
    backing.Multiplexed blank.plain.entries blank.inner.entries :=
  ⟨fun _ => rfl, fun _ h => by cases h⟩

abbrev atEpoch (call : Call) : Moment := ⟨.epoch, fun _ => .fill 0, call⟩

theorem multiplexed_results_put :
    Along (backing.step "c") (backing.SameResult (fun _ _ => true) "c") blank
      [atEpoch (.store (.one (.put "k" .null (some "a") none))),
        atEpoch (.keys (some "a") none),
        atEpoch (.collections none)] := by
  refine (multiplexed_results_iff backing (fun _ _ => true) "c"
    multiplexed_blank ?_).mpr ?_
  · intro m hm
    simp only [List.mem_cons, List.not_mem_nil, or_false] at hm
    rcases hm with rfl | rfl | rfl
    · exact (by decide : "a".utf8ByteSize < 2 ^ 64)
    · trivial
    · trivial
  · refine ⟨trivial, fun _ hstep => ?_⟩
    cases hstep
    refine ⟨.inr (by decide), fun _ hstep => ?_⟩
    cases hstep
    refine ⟨fun few hfew => ?_, fun _ _ => trivial⟩
    have hone : few.length < 1 := hfew
    obtain rfl := List.length_eq_zero_iff.mp (Nat.lt_one_iff.mp hone)
    decide

theorem putSlots_isSome {now : DateTime} {revisions : Nat → Revision}
    {name : String} {items : List (String × Value)} {i : Nat}
    {entries : Entries} {id : Identity}
    (h : (entries id).isSome = true ∨ ∃ item ∈ items, id = (name, item.1)) :
    ((putSlots now revisions name none items i entries).2 id).isSome =
      true := by
  induction items generalizing entries i with
  | nil =>
      rcases h with h | ⟨item, hitem, -⟩
      · exact h
      · cases hitem
  | cons item items ih =>
      obtain ⟨key, value⟩ := item
      refine ih ?_
      by_cases hid : id = (name, key)
      · subst hid
        exact .inl (by simp)
      · rw [Function.update_of_ne hid]
        rcases h with h | ⟨item, hitem, rfl⟩
        · exact .inl h
        · rcases List.mem_cons.mp hitem with rfl | hrest
          · exact (hid rfl).elim
          · exact .inr ⟨item, hrest, rfl⟩

abbrev putAll (keys : List String) : StoreCall :=
  .one (.putMany keys (keys.map fun _ => .null) (some "a") none)

abbrev putOther : StoreCall := .one (.put "k" .null (some "b") none)

def filled (keys : List String) : Table :=
  (Table.empty.apply .epoch (fun _ => .fill 0) "default_collection"
    (putAll keys)).2

def filledBoth (keys : List String) : Table :=
  ((filled keys).apply .epoch (fun _ => .fill 0) "default_collection"
    putOther).2

theorem filled_isSome {keys : List String} {key : String} (h : key ∈ keys) :
    ((filled keys).entries ("a", key)).isSome = true := by
  have hsize : ¬ keys.length ≠ (keys.map fun _ => Value.null).length := by simp
  simp only [filled, Table.apply, Table.changed, StoreCall.apply,
    StoreOp.apply]
  rw [if_neg hsize]
  refine putSlots_isSome (.inr ⟨(key, .null), ?_, rfl⟩)
  rw [← List.map_prod_left_eq_zip]
  exact List.mem_map_of_mem h

theorem filledBoth_entries (keys : List String) :
    (filledBoth keys).entries = Function.update (filled keys).entries ("b", "k")
      (some ⟨.new .epoch .null, .fill 0⟩) :=
  rfl

theorem keys_hidden {keys : List String} (hnodup : keys.Nodup)
    (hmany : pageLimit ≤ keys.length) :
    ¬ Along (backing.step "c") (backing.SameResult (fun _ _ => true) "c") blank
      [atEpoch (.store (putAll keys)), atEpoch (.store putOther),
        atEpoch (.keys (some "b") none)] := by
  intro h
  have hfirst := @step_multiplexed backing "c" _ _
    (atEpoch (.store (putAll keys))) multiplexed_blank
    (by decide : "a".utf8ByteSize < 2 ^ 64) rfl
  have hsecond := @step_multiplexed backing "c" _ _ (atEpoch (.store putOther))
    hfirst (by decide : "b".utf8ByteSize < 2 ^ 64) rfl
  have hfits := (keys_iff hsecond (some "b") none).mp
    ((h.2 _ rfl).2 _ rfl).1
  have hkey : "k" ∈ (filledBoth keys).keysOf (fun _ _ => true) .epoch "b" := by
    rw [mem_keysOf, filledBoth_entries, Function.update_self]
    rfl
  have hothers : (keys.map fun key => ("a", key)).length ≤
      (((filledBoth keys).shownNames (fun _ _ => true) .epoch).filter fun id =>
        !decide (id.1 = "b")).length := by
    refine (List.subperm_of_subset
      (hnodup.map fun _ _ hkey => congrArg Prod.snd hkey) ?_).length_le
    intro id hid
    obtain ⟨key, hmem, rfl⟩ := List.mem_map.mp hid
    have hsome := filled_isSome hmem
    refine List.mem_filter.mpr ⟨mem_shownNames.mpr ?_, by simp⟩
    rw [filledBoth_entries, Function.update_of_ne (by simp)]
    cases hslot : (filled keys).entries ("a", key) with
    | none => simp [hslot] at hsome
    | some slot => rfl
  have hone := List.length_pos_of_mem hkey
  have hpage : pageLen none = pageLimit := rfl
  have hlimit : 0 < pageLimit := by decide
  change min (pageLen none) ((filledBoth keys).keysOf (fun _ _ => true) .epoch
      "b").length = 0 ∨
    min (pageLen none) ((filledBoth keys).keysOf (fun _ _ => true) .epoch
      "b").length + (((filledBoth keys).shownNames (fun _ _ => true)
        .epoch).filter fun id => !decide (id.1 = "b")).length ≤ pageLimit
    at hfits
  rw [List.length_map] at hothers
  omega

/-- `put_many` of ten thousand keys in one collection and `put` of one key in
another: a page of the backing collection need not show the latter. -/
theorem keys_beyond_page :
    ¬ Along (backing.step "c") (backing.SameResult (fun _ _ => true) "c") blank
      [atEpoch (.store (putAll ((List.range 10000).map toString))),
        atEpoch (.store putOther), atEpoch (.keys (some "b") none)] := by
  refine keys_hidden ?_ (by simp [pageLimit])
  exact List.nodup_range.map fun _ _ h => toString_nat_inj h

end Beyond

end SingleCollectionWrapper

end OpenKeyV.Wrapper
