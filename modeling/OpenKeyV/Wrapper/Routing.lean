import OpenKeyV.Memory.Contents

/-!
# Several stores behind a router

`RoutingWrapper` sends each key to the store that its router names.  A batch
whose keys all go to one store is one call of that store, any other batch is a
loop over its keys.  Enumerations merge those of all stores.
-/

namespace OpenKeyV.Wrapper

open Library Memory

structure RoutingWrapper where
  config : MemoryConfig
  router : Option String → String → Nat

/-- What chance decides in the `n`th call that one call of the wrapper makes:
the order in which a store enumerates, and the revisions it draws. -/
structure Chance where
  order : Nat → Order
  revision : Nat → Nat → Revision

namespace RoutingWrapper

/-! ## The wrapper -/

section Calls

variable (w : RoutingWrapper) (now : DateTime) (chance : Chance)

def ask (n : Nat) (s : MemoryState) (call : Call) :
    Except Error Response × MemoryState :=
  runAlone w.config (fun i => some (chance.revision n i)) now (chance.order n)
    call s

def forward (n : Nat) (collection : Option String) (key : String) (call : Call)
    (stores : List MemoryState) :
    Except Error Response × List MemoryState :=
  let idx := w.router collection key
  match stores[idx]? with
  | none =>
      (.error (.invalidOperation s!"route index {idx} out of bounds"), stores)
  | some s =>
      let r := w.ask now chance n s call
      (r.1, stores.set idx r.2)

def forwardEach (collection : Option String) :
    Nat → List (String × Call) → List MemoryState →
      Except Error (List Response) × List MemoryState
  | _, [], stores => (.ok [], stores)
  | n, (key, call) :: rest, stores =>
      match w.forward now chance n collection key call stores with
      | (.error error, stores) => (.error error, stores)
      | (.ok response, stores) =>
          match forwardEach collection (n + 1) rest stores with
          | (.error error, stores) => (.error error, stores)
          | (.ok responses, stores) => (.ok (response :: responses), stores)

/-- A batch on `keys`: `whole` if one store has them all, otherwise the calls
one by one, with their answers gathered. -/
def batch (collection : Option String) (keys : List String) (whole : Call)
    (calls : List (String × Call)) (gather : List Response → Response)
    (stores : List MemoryState) :
    Except Error Response × List MemoryState :=
  match keys with
  | [] => (.ok (gather []), stores)
  | first :: _ =>
      if ∀ key ∈ keys,
          w.router collection key = w.router collection first then
        w.forward now chance 0 collection first whole stores
      else
        let r := w.forwardEach now chance collection 0 calls stores
        (r.1.map gather, r.2)

def gatherValues (responses : List Response) : Response :=
  .values (responses.map fun
    | .value value => value
    | _ => none)

def gatherTtls (responses : List Response) : Response :=
  .ttls (responses.map fun
    | .ttl ttl => ttl
    | _ => none)

def gatherCount (responses : List Response) : Response :=
  .count (responses.countP fun
    | .flag deleted => deleted
    | _ => false)

def gatherUnit (_ : List Response) : Response := .unit

def getMany (keys : List String) (collection : Option String) :=
  w.batch now chance collection keys (.getMany keys collection)
    (keys.map fun key => (key, .get key collection)) gatherValues

def ttlMany (keys : List String) (collection : Option String) :=
  w.batch now chance collection keys (.ttlMany keys collection)
    (keys.map fun key => (key, .ttl key collection)) gatherTtls

def putMany (keys : List String) (values : List Value)
    (collection : Option String) (ttl : Option F64)
    (stores : List MemoryState) :
    Except Error Response × List MemoryState :=
  if keys.length ≠ values.length then
    (.error (.batchSizeMismatch keys.length values.length), stores)
  else
    w.batch now chance collection keys (.putMany keys values collection ttl)
      ((keys.zip values).map fun item =>
        (item.1, .put item.1 item.2 collection ttl)) gatherUnit stores

def deleteMany (keys : List String) (collection : Option String) :=
  w.batch now chance collection keys (.deleteMany keys collection)
    (keys.map fun key => (key, .delete key collection)) gatherCount

/-- The loop over the names of one store: `merged`, which are also the names
`seen`, and whether the limit is reached. -/
def mergeNames (limit : Option Nat) :
    List String → List String → List String × Bool
  | merged, [] => (merged, false)
  | merged, name :: names =>
      if name ∈ merged then mergeNames limit merged names
      else
        let merged := merged ++ [name]
        match limit with
        | some limit =>
            if merged.length ≥ limit then (merged, true)
            else mergeNames (some limit) merged names
        | none => mergeNames none merged names

def enumerate (call : Call) (limit : Option Nat) :
    Nat → List String → List MemoryState →
      Except Error Response × List MemoryState
  | _, merged, [] => (.ok (.names merged), [])
  | n, merged, s :: stores =>
      match w.ask now chance n s call with
      | (.ok (.names names), s) =>
          match mergeNames limit merged names with
          | (merged, true) => (.ok (.names merged), s :: stores)
          | (merged, false) =>
              let r := enumerate call limit (n + 1) merged stores
              (r.1, s :: r.2)
      | (result, s) => (result, s :: stores)

def keys (collection : Option String) (limit : Option Nat) :=
  w.enumerate now chance (.keys collection none) limit 0 []

def collections (limit : Option Nat) :=
  w.enumerate now chance (.collections none) limit 0 []

def call : Call → List MemoryState →
    Except Error Response × List MemoryState
  | .get key c, stores => w.forward now chance 0 c key (.get key c) stores
  | .ttl key c, stores => w.forward now chance 0 c key (.ttl key c) stores
  | .put key value c ttl, stores =>
      w.forward now chance 0 c key (.put key value c ttl) stores
  | .delete key c, stores =>
      w.forward now chance 0 c key (.delete key c) stores
  | .getMany keys c, stores => w.getMany now chance keys c stores
  | .ttlMany keys c, stores => w.ttlMany now chance keys c stores
  | .putMany keys values c ttl, stores =>
      w.putMany now chance keys values c ttl stores
  | .deleteMany keys c, stores => w.deleteMany now chance keys c stores
  | .keys c limit, stores => w.keys now chance c limit stores
  | .collections limit, stores => w.collections now chance limit stores
  -- The wrapper offers no other call.
  | _, stores => (.error (.invalidOperation "not offered"), stores)

end Calls

/-! ## Batches are loops -/

def applyEach (now : DateTime) (name : String) :
    List Call → Cells ManagedEntry →
      Except Error (List Response) × Cells ManagedEntry
  | [], m => (.ok [], m)
  | call :: calls, m =>
      match Cells.apply now name call m with
      | (.error error, m) => (.error error, m)
      | (.ok response, m) =>
          match applyEach now name calls m with
          | (.error error, m) => (.error error, m)
          | (.ok responses, m) => (.ok (response :: responses), m)

section Batches

variable {now : DateTime} {name : String} (collection : Option String)

theorem getMany_each (keys : List String) (m : Cells ManagedEntry) :
    (applyEach now name (keys.map fun key => .get key collection) m).1.map
          gatherValues =
        (Cells.apply now name (.getMany keys collection) m).1 ∧
      (applyEach now name (keys.map fun key => .get key collection) m).2 =
        m := by
  have hloop : applyEach now name
      (keys.map fun key => .get key collection) m =
      (.ok (keys.map fun key =>
        .value ((Cells.live now m (name, key)).map (·.value))), m) := by
    induction keys with
    | nil => rfl
    | cons key keys ih => simp only [List.map_cons, applyEach, Cells.apply, ih]
  rw [hloop]
  refine ⟨?_, rfl⟩
  simp only [Except.map, gatherValues, List.map_map, Cells.apply]
  rfl

theorem ttlMany_each (keys : List String) (m : Cells ManagedEntry) :
    (applyEach now name (keys.map fun key => .ttl key collection) m).1.map
          gatherTtls =
        (Cells.apply now name (.ttlMany keys collection) m).1 ∧
      (applyEach now name (keys.map fun key => .ttl key collection) m).2 =
        m := by
  have hloop : applyEach now name
      (keys.map fun key => .ttl key collection) m =
      (.ok (keys.map fun key => .ttl ((Cells.live now m (name, key)).map
        fun entry => (entry.value, entry.ttl now))), m) := by
    induction keys with
    | nil => rfl
    | cons key keys ih => simp only [List.map_cons, applyEach, Cells.apply, ih]
  rw [hloop]
  refine ⟨?_, rfl⟩
  simp only [Except.map, gatherTtls, List.map_map, Cells.apply]
  rfl

theorem deleteMany_each (keys : List String) (m : Cells ManagedEntry) :
    (applyEach now name (keys.map fun key => .delete key collection) m).1.map
          gatherCount =
        (Cells.apply now name (.deleteMany keys collection) m).1 ∧
      (applyEach now name (keys.map fun key => .delete key collection) m).2 =
        (Cells.apply now name (.deleteMany keys collection) m).2 := by
  have hloop : ∃ responses, applyEach now name
      (keys.map fun key => .delete key collection) m =
        (.ok responses, (Cells.deleteAll name keys m).2) ∧
      gatherCount responses = .count (Cells.deleteAll name keys m).1 := by
    induction keys generalizing m with
    | nil => exact ⟨[], rfl, rfl⟩
    | cons key keys ih =>
        obtain ⟨responses, hrest, hcount⟩ :=
          ih (Function.update m (name, key) none)
        refine ⟨.flag (m (name, key)).isSome :: responses, ?_, ?_⟩
        · simp only [List.map_cons, applyEach, Cells.apply, hrest,
            Cells.deleteAll]
        · rw [gatherCount, Response.count.injEq] at hcount
          rw [gatherCount, List.countP_cons, hcount, Cells.deleteAll]
          cases (m (name, key)).isSome <;> rfl
  obtain ⟨responses, hloop, hcount⟩ := hloop
  rw [hloop]
  exact ⟨congrArg Except.ok hcount, rfl⟩

theorem ofTtl_uniform (now : DateTime) (ttl : Option F64) :
    (∃ error, ttl.map (ManagedEntry.validateTtl now) = some (.error error) ∧
        ∀ value, ManagedEntry.ofTtl now value ttl = .error error) ∨
      (∀ error, ttl.map (ManagedEntry.validateTtl now) ≠
          some (.error error)) ∧
        ∃ stamp : Value → ManagedEntry,
          ∀ value, ManagedEntry.ofTtl now value ttl = .ok (stamp value) := by
  cases ttl with
  | none => exact .inr ⟨by simp, ManagedEntry.new now, fun _ => rfl⟩
  | some seconds =>
      simp only [Option.map_some, ManagedEntry.validateTtl, ManagedEntry.ofTtl,
        ManagedEntry.withTtl]
      cases ManagedEntry.expirationAt now seconds with
      | error error => exact .inl ⟨error, rfl, fun _ => rfl⟩
      | ok expires =>
          exact .inr ⟨by simp [bind, Except.bind, pure, Except.pure],
            fun value => ⟨value, some now, some expires⟩, fun _ => rfl⟩

theorem putMany_each {keys : List String} {values : List Value}
    (hlength : keys.length = values.length) (hkeys : keys ≠ [])
    (ttl : Option F64) (m : Cells ManagedEntry) :
    (applyEach now name ((keys.zip values).map fun item =>
          .put item.1 item.2 collection ttl) m).1.map gatherUnit =
        (Cells.apply now name (.putMany keys values collection ttl) m).1 ∧
      (applyEach now name ((keys.zip values).map fun item =>
          .put item.1 item.2 collection ttl) m).2 =
        (Cells.apply now name (.putMany keys values collection ttl) m).2 := by
  simp only [Cells.apply, Cells.putMany, if_neg (not_ne_iff.mpr hlength)]
  rcases ofTtl_uniform now ttl with
    ⟨error, hinvalid, herror⟩ | ⟨hvalid, stamp, hstamp⟩
  · obtain ⟨key, keys, rfl⟩ := List.exists_cons_of_ne_nil hkeys
    obtain ⟨value, values, rfl⟩ := List.exists_cons_of_length_pos
      (hlength ▸ Nat.succ_pos _ : 0 < values.length)
    simp only [hinvalid, List.zip_cons_cons, List.map_cons, applyEach,
      Cells.apply, Cells.put, herror]
    exact ⟨rfl, trivial⟩
  · have hmap : (values.mapM fun value => ManagedEntry.ofTtl now value ttl) =
        .ok (values.map stamp) := by
      simp only [hstamp]
      exact List.mapM_pure
    have hloop : ∃ responses, applyEach now name ((keys.zip values).map
        fun item => .put item.1 item.2 collection ttl) m =
        (.ok responses, Cells.insertAll name (keys.zip (values.map stamp))
          m) := by
      clear hlength hkeys hmap
      induction keys generalizing values m with
      | nil => exact ⟨[], rfl⟩
      | cons key keys ih =>
          cases values with
          | nil => exact ⟨[], rfl⟩
          | cons value values =>
              obtain ⟨responses, hrest⟩ :=
                @ih values (Function.update m (name, key) (some (stamp value)))
              refine ⟨.unit :: responses, ?_⟩
              simp only [List.zip_cons_cons, List.map_cons, applyEach,
                Cells.apply, Cells.put, hstamp, hrest, Cells.insertAll]
    obtain ⟨responses, hloop⟩ := hloop
    rw [hloop]
    split
    · rename_i error herror
      exact absurd herror (hvalid error)
    · simp only [Cells.putAll, hmap]
      exact ⟨rfl, trivial⟩

theorem putMany_nil {ttl : Option F64}
    (hvalid : ∀ error, ttl.map (ManagedEntry.validateTtl now) ≠
      some (.error error)) (m : Cells ManagedEntry) :
    Cells.apply now name (.putMany [] [] collection ttl) m = (.ok .unit, m) := by
  rw [Cells.apply, Cells.putMany, if_neg (by simp)]
  split
  · rename_i error herror
    exact absurd herror (hvalid error)
  · rfl

end Batches

/-! ## Entries spread over stores -/

/-- The stores together hold the cells `m`. -/
structure Spread (stores : List MemoryState) (m : Cells ManagedEntry) :
    Prop where
  sound : ∀ s ∈ stores, ∀ cell entry, s.cells.held cell = some entry →
    m cell = some entry
  complete : ∀ cell entry, m cell = some entry →
    ∃ s ∈ stores, s.cells.held cell = some entry

/-- No store but the one that a key is sent to holds an entry of it. -/
def Settled (w : RoutingWrapper) (stores : List MemoryState)
    (collection : Option String) (key : String) : Prop :=
  ∀ i s, stores[i]? = some s → i ≠ w.router collection key →
    s.entry (w.config.collectionName collection) key = none

def Known (stores : List MemoryState) (name : String) : Prop :=
  ∃ s ∈ stores, (s.collection name).isSome = true

def KeepsKnown (stores stores' : List MemoryState) : Prop :=
  ∀ name, Known stores name → Known stores' name

theorem allowed_of_plain {call : Call} (h : call.plain = true) :
    call.allowed false = true := by
  cases call <;> first | rfl | cases h

section Forward

variable {w : RoutingWrapper} {now : DateTime} {chance : Chance}
  {stores : List MemoryState} {m : Cells ManagedEntry}
  {collection : Option String} {key : String}

theorem Spread.routed (h : Spread stores m)
    (hsettled : w.Settled stores collection key) {s : MemoryState}
    (hs : stores[w.router collection key]? = some s) :
    s.cells.held (w.config.collectionName collection, key) =
      m (w.config.collectionName collection, key) := by
  cases hm : m (w.config.collectionName collection, key) with
  | some entry =>
      obtain ⟨other, hother, hheld⟩ := h.complete _ entry hm
      obtain ⟨i, hi⟩ := List.mem_iff_getElem?.mp hother
      by_cases hroute : i = w.router collection key
      · rw [hroute, hs] at hi
        cases hi
        exact hheld
      · have hnone := hsettled i other hi hroute
        simp [Cells.held, MemoryState.cells, hnone] at hheld
  | none =>
      cases hheld : s.cells.held
          (w.config.collectionName collection, key) with
      | none => rfl
      | some entry =>
          have hsome := h.sound s (List.mem_of_getElem? hs) _ entry hheld
          rw [hm] at hsome
          cases hsome

/-- What a call leaves when it is forwarded to the store of all its keys. -/
structure Forwarded (w : RoutingWrapper) (stores : List MemoryState)
    (collection : Option String) (m' : Cells ManagedEntry)
    (stores' : List MemoryState) : Prop where
  length : stores'.length = stores.length
  spread : Spread stores' m'
  known : KeepsKnown stores stores'
  settled : ∀ key, w.Settled stores collection key →
    w.Settled stores' collection key

theorem getElem?_set_cases {idx i : Nat} {s x : MemoryState}
    (h : (stores.set idx s)[i]? = some x) :
    (i = idx ∧ x = s) ∨ (i ≠ idx ∧ stores[i]? = some x) := by
  rw [List.getElem?_set] at h
  split at h
  · rename_i hidx
    split at h
    · exact .inl ⟨hidx.symm, (Option.some.inj h).symm⟩
    · cases h
  · rename_i hidx
    exact .inr ⟨fun heq => hidx heq.symm, h⟩

theorem mem_set_self {idx : Nat} (hidx : idx < stores.length)
    (s : MemoryState) : s ∈ stores.set idx s :=
  List.mem_set hidx s

theorem mem_set_of_ne {idx i : Nat} {s x : MemoryState}
    (hx : stores[i]? = some x) (hne : i ≠ idx) : x ∈ stores.set idx s := by
  refine @List.mem_of_getElem? _ _ i _ ?_
  rw [List.getElem?_set_ne (Ne.symm hne), hx]

theorem forward_spread (hseed : w.config.seed = none) (n : Nat) {call : Call}
    (hroom : call.Spacious w.config now m) (hcall : call.plain = true)
    (hcollection : call.collection? = collection)
    (h : Spread stores m) (hrange : w.router collection key < stores.length)
    (hsame : ∀ other ∈ call.named,
      w.router collection other = w.router collection key)
    (hsettled : ∀ other ∈ call.named, w.Settled stores collection other) :
    let r := w.forward now chance n collection key call stores
    let spec := Cells.apply now (w.config.collectionName collection) call m
    r.1 = spec.1 ∧ w.Forwarded stores collection spec.2 r.2 := by
  let name := w.config.collectionName collection
  let idx := w.router collection key
  obtain ⟨s, hs⟩ : ∃ s, stores[idx]? = some s :=
    ⟨stores[idx], List.getElem?_eq_getElem hrange⟩
  have hforward : w.forward now chance n collection key call stores =
      ((w.ask now chance n s call).1,
        stores.set idx (w.ask now chance n s call).2) := by
    simp only [forward, idx, hs]
  obtain ⟨hresult, hheld⟩ := @runAlone_cells w.config
    (fun i => some (chance.revision n i)) now (chance.order n) s call
    (hroom.mono (h.sound s (List.mem_of_getElem? hs))) hseed (fun _ => rfl)
    hcall
  rw [hcollection] at hresult hheld
  have hagree : ∀ cell, (∃ other ∈ call.named, cell = (name, other)) →
      s.cells.held cell = m cell := by
    rintro _ ⟨other, hother, rfl⟩
    exact h.routed (hsettled other hother) ((hsame other hother).symm ▸ hs)
  obtain ⟨hanswer, hafter⟩ := @Cells.apply_agree now name _ _ _ _
    hagree (fun other hother => ⟨other, hother, rfl⟩) hcall
  -- The store that is called holds what the call leaves of its cells.
  have hstore : ∀ cell, (∃ other ∈ call.named, cell = (name, other)) →
      (w.ask now chance n s call).2.cells.held cell =
        (Cells.apply now name call m).2 cell := fun cell hcell =>
    (congrFun hheld cell).trans (hafter cell hcell)
  have hrest : ∀ cell, ¬ (∃ other ∈ call.named, cell = (name, other)) →
      (w.ask now chance n s call).2.cells.held cell = s.cells.held cell ∧
        (Cells.apply now name call m).2 cell = m cell := fun cell hcell => by
    have hother : ∀ other ∈ call.named, cell ≠ (name, other) :=
      fun other hother heq => hcell ⟨other, hother, heq⟩
    exact ⟨(congrFun hheld cell).trans (Cells.apply_other hother),
      Cells.apply_other hother⟩
  have hmem : s ∈ stores := List.mem_of_getElem? hs
  rw [hforward]
  refine ⟨hresult.trans hanswer, List.length_set, ⟨?_, ?_⟩, ?_, ?_⟩
  · intro x hx cell entry hentry
    obtain ⟨i, hi⟩ := List.mem_iff_getElem?.mp hx
    by_cases hcell : ∃ other ∈ call.named, cell = (name, other)
    · rcases getElem?_set_cases hi with ⟨-, rfl⟩ | ⟨hne, hi⟩
      · rw [← hstore cell hcell]
        exact hentry
      · obtain ⟨other, hother, rfl⟩ := hcell
        have hnone := hsettled other hother i x hi
          (hsame other hother ▸ hne)
        simp [Cells.held, MemoryState.cells, name, hnone] at hentry
    · rw [(hrest cell hcell).2]
      rcases getElem?_set_cases hi with ⟨-, rfl⟩ | ⟨-, hi⟩
      · rw [(hrest cell hcell).1] at hentry
        exact h.sound s hmem cell entry hentry
      · exact h.sound x (List.mem_of_getElem? hi) cell entry hentry
  · intro cell entry hentry
    by_cases hcell : ∃ other ∈ call.named, cell = (name, other)
    · exact ⟨_, mem_set_self hrange _, (hstore cell hcell).trans hentry⟩
    · rw [(hrest cell hcell).2] at hentry
      obtain ⟨x, hx, hheldx⟩ := h.complete cell entry hentry
      obtain ⟨i, hi⟩ := List.mem_iff_getElem?.mp hx
      by_cases hidx : i = idx
      · rw [hidx, hs] at hi
        cases hi
        exact ⟨_, mem_set_self hrange _, (hrest cell hcell).1.trans hheldx⟩
      · exact ⟨x, mem_set_of_ne hi hidx, hheldx⟩
  · rintro other ⟨x, hx, hpresent⟩
    obtain ⟨i, hi⟩ := List.mem_iff_getElem?.mp hx
    by_cases hidx : i = idx
    · rw [hidx, hs] at hi
      cases hi
      exact ⟨_, mem_set_self hrange _,
        runAlone_retains hseed (allowed_of_plain hcall) other hpresent⟩
    · exact ⟨x, mem_set_of_ne hi hidx, hpresent⟩
  · intro other hother i x hi hne
    rcases getElem?_set_cases hi with ⟨rfl, rfl⟩ | ⟨-, hi⟩
    · have hcell : ¬ ∃ key ∈ call.named,
          (w.config.collectionName collection, other) = (name, key) := by
        rintro ⟨key', hkey', heq⟩
        cases heq
        exact hne (hsame other hkey').symm
      have hnone : s.cells.held (name, other) = none := by
        simp [Cells.held, MemoryState.cells, name, hother idx s hs hne]
      have hafter := (hrest _ hcell).1.trans hnone
      exact Option.map_eq_none_iff.mp hafter
    · exact hother i x hi hne

theorem Forwarded.refl (h : Spread stores m) :
    w.Forwarded stores collection m stores :=
  ⟨rfl, h, fun _ hknown => hknown, fun _ hsettled => hsettled⟩

theorem Forwarded.trans {stores' stores'' : List MemoryState}
    {m' m'' : Cells ManagedEntry}
    (h : w.Forwarded stores collection m' stores')
    (h' : w.Forwarded stores' collection m'' stores'') :
    w.Forwarded stores collection m'' stores'' :=
  ⟨h'.length.trans h.length, h'.spread,
    fun name hknown => h'.known name (h.known name hknown),
    fun key hsettled => h'.settled key (h.settled key hsettled)⟩

end Forward

/-! ## Calls of the key-value protocol -/

section Protocol

variable {w : RoutingWrapper} {now : DateTime} {chance : Chance}
  {stores : List MemoryState} {m : Cells ManagedEntry}
  {collection : Option String}

def Single (collection : Option String) (item : String × Call) : Prop :=
  item.2.plain = true ∧ item.2.collection? = collection ∧
    item.2.named = [item.1]

/-- The call has room in such contents, and leaves such contents. -/
def Roomy (w : RoutingWrapper) (now : DateTime) (collection : Option String)
    (P : Cells ManagedEntry → Prop) (call : Call) : Prop :=
  ∀ m, P m → call.Spacious w.config now m ∧
    P (Cells.apply now (w.config.collectionName collection) call m).2

theorem roomy_put {keys : List String} {key : String} (hkey : key ∈ keys)
    (value : Value) (ttl : Option F64) :
    Roomy w now collection
      (Cells.HasRoom w.config now (w.config.collectionName collection) keys ttl)
      (.put key value collection ttl) := by
  intro m h
  refine ⟨h.mono (fun other hother => ?_) fun _ _ hentry => hentry, ?_⟩
  · rw [List.mem_singleton.mp hother]
    exact hkey
  · simp only [Cells.apply, Cells.put]
    cases hentry : ManagedEntry.ofTtl now value ttl with
    | error error => exact h
    | ok entry => exact h.update hkey hentry

theorem forwardEach_spread (hseed : w.config.seed = none)
    (hrange : ∀ collection key, w.router collection key < stores.length)
    (n : Nat) {calls : List (String × Call)} {P : Cells ManagedEntry → Prop}
    (hroom : ∀ item ∈ calls, Roomy w now collection P item.2) (hP : P m)
    (h : Spread stores m)
    (hcalls : ∀ item ∈ calls, Single collection item)
    (hsettled : ∀ item ∈ calls, w.Settled stores collection item.1) :
    let r := w.forwardEach now chance collection n calls stores
    let spec := applyEach now (w.config.collectionName collection)
      (calls.map Prod.snd) m
    r.1 = spec.1 ∧ w.Forwarded stores collection spec.2 r.2 := by
  induction calls generalizing n stores m with
  | nil => exact ⟨rfl, .refl h⟩
  | cons item calls ih =>
      obtain ⟨key, call⟩ := item
      obtain ⟨⟨hplain, hcollection, hnamed⟩, hrest⟩ :=
        List.forall_mem_cons.mp hcalls
      obtain ⟨hkey, hkeys⟩ := List.forall_mem_cons.mp hsettled
      obtain ⟨hfirst, hlaterRoom⟩ := List.forall_mem_cons.mp hroom
      obtain ⟨hspacious, hkept⟩ := hfirst m hP
      have hmem : ∀ other ∈ call.named, other = key := fun other hother => by
        simpa [hnamed] using hother
      obtain ⟨hresult, hforwarded⟩ := @forward_spread w now chance stores m
        collection key hseed n call hspacious hplain hcollection h (hrange ..)
        (fun other hother => by rw [hmem other hother])
        (fun other hother => by rw [hmem other hother]; exact hkey)
      have hlater := @ih
        (w.forward now chance n collection key call stores).2
        (Cells.apply now (w.config.collectionName collection) call m).2
        (fun c k => by rw [hforwarded.length]; exact hrange c k) (n + 1)
        hlaterRoom hkept hforwarded.spread hrest
        (fun item hitem => hforwarded.settled _ (hkeys item hitem))
      simp only [forwardEach, List.map_cons, applyEach]
      generalize w.forward now chance n collection key call stores = r
        at hresult hforwarded hlater ⊢
      generalize Cells.apply now (w.config.collectionName collection) call m =
        spec at hresult hforwarded hlater ⊢
      obtain ⟨result, stores'⟩ := r
      obtain ⟨result', m'⟩ := spec
      cases hresult
      cases result with
      | error error => exact ⟨rfl, hforwarded⟩
      | ok response =>
          obtain ⟨hresults, hloop⟩ := hlater
          simp only at hresults hloop ⊢
          generalize w.forwardEach now chance collection (n + 1) calls stores' =
            r at hresults hloop ⊢
          generalize applyEach now (w.config.collectionName collection)
            (calls.map Prod.snd) m' = spec at hresults hloop ⊢
          obtain ⟨results, stores''⟩ := r
          obtain ⟨results', m''⟩ := spec
          cases hresults
          cases results with
          | error error => exact ⟨rfl, hforwarded.trans hloop⟩
          | ok responses => exact ⟨rfl, hforwarded.trans hloop⟩

theorem batch_spread (hseed : w.config.seed = none)
    (hrange : ∀ collection key, w.router collection key < stores.length)
    (h : Spread stores m) {keys : List String} {whole : Call}
    {calls : List (String × Call)} {gather : List Response → Response}
    (hspacious : whole.Spacious w.config now m) {P : Cells ManagedEntry → Prop}
    (hroom : ∀ item ∈ calls, Roomy w now collection P item.2) (hP : P m)
    (hwhole : whole.plain = true) (hcollection : whole.collection? = collection)
    (hnamed : whole.named = keys)
    (hsettled : ∀ key ∈ keys, w.Settled stores collection key)
    (hcalls : ∀ item ∈ calls, Single collection item)
    (hkeys : ∀ item ∈ calls, item.1 ∈ keys)
    (hempty : keys = [] →
      Cells.apply now (w.config.collectionName collection) whole m =
        (.ok (gather []), m))
    (heach : keys ≠ [] →
      let each := applyEach now (w.config.collectionName collection)
        (calls.map Prod.snd) m
      let spec := Cells.apply now (w.config.collectionName collection) whole m
      each.1.map gather = spec.1 ∧ each.2 = spec.2) :
    let r := w.batch now chance collection keys whole calls gather stores
    let spec := Cells.apply now (w.config.collectionName collection) whole m
    r.1 = spec.1 ∧ w.Forwarded stores collection spec.2 r.2 := by
  cases keys with
  | nil =>
      rw [hempty rfl]
      exact ⟨rfl, .refl h⟩
  | cons first keys =>
      simp only [batch]
      split
      · rename_i hsame
        exact forward_spread hseed 0 hspacious hwhole hcollection h (hrange ..)
          (hnamed ▸ hsame) (hnamed ▸ hsettled)
      · obtain ⟨hresult, hforwarded⟩ := @forwardEach_spread w now chance
          stores m collection hseed hrange 0 calls P hroom hP h hcalls
          (fun item hitem => hsettled _ (hkeys item hitem))
        obtain ⟨hgather, hafter⟩ := heach (by simp)
        refine ⟨?_, hafter ▸ hforwarded⟩
        rw [← hgather, hresult]

theorem batch_keys (hseed : w.config.seed = none)
    (hrange : ∀ collection key, w.router collection key < stores.length)
    (h : Spread stores m) {keys : List String} {whole : Call}
    {each : String → Call} {gather : List Response → Response}
    (hspacious : ∀ m, whole.Spacious w.config now m)
    (hroom : ∀ key m, (each key).Spacious w.config now m)
    (hwhole : whole.plain = true) (hcollection : whole.collection? = collection)
    (hnamed : whole.named = keys)
    (hsettled : ∀ key ∈ keys, w.Settled stores collection key)
    (hsingle : ∀ key, Single collection (key, each key))
    (heach :
      let all := applyEach now (w.config.collectionName collection)
        (keys.map each) m
      let spec := Cells.apply now (w.config.collectionName collection) whole m
      all.1.map gather = spec.1 ∧ all.2 = spec.2) :
    let r := w.batch now chance collection keys whole
      (keys.map fun key => (key, each key)) gather stores
    let spec := Cells.apply now (w.config.collectionName collection) whole m
    r.1 = spec.1 ∧ w.Forwarded stores collection spec.2 r.2 := by
  refine batch_spread hseed hrange h (hspacious m) (P := fun _ => True) ?_
    trivial hwhole hcollection hnamed hsettled ?_ ?_ ?_ ?_
  · rintro _ hitem
    obtain ⟨key, -, rfl⟩ := List.mem_map.mp hitem
    exact fun m _ => ⟨hroom key m, trivial⟩
  · rintro _ hitem
    obtain ⟨key, -, rfl⟩ := List.mem_map.mp hitem
    exact hsingle key
  · rintro _ hitem
    obtain ⟨key, hkey, rfl⟩ := List.mem_map.mp hitem
    exact hkey
  · rintro rfl
    exact Prod.ext heach.1.symm heach.2.symm
  · intro _
    rw [List.map_map]
    exact heach

/-- An empty batch has nothing to be rejected for. -/
def Accepted (now : DateTime) : Call → Prop
  | .putMany [] [] _ ttl =>
      ∀ error, ttl.map (ManagedEntry.validateTtl now) ≠ some (.error error)
  | _ => True

theorem call_spread (hseed : w.config.seed = none)
    (hrange : ∀ collection key, w.router collection key < stores.length)
    (h : Spread stores m) {call : Call} (hcall : call.plain = true)
    (hroom : call.Spacious w.config now m) (haccepted : Accepted now call)
    (hsettled : ∀ key ∈ call.named, w.Settled stores call.collection? key) :
    let r := w.call now chance call stores
    let spec := Cells.apply now (w.config.collectionName call.collection?) call
      m
    r.1 = spec.1 ∧ w.Forwarded stores call.collection? spec.2 r.2 := by
  cases call with
  | subscribe | cull | collections | destroyCollection | destroy | keys
  | getWithRevision | compareAndSwap | compareAndDelete => cases hcall
  | get key c | ttl key c | put key value c ttl | delete key c =>
      refine forward_spread hseed 0 hroom hcall rfl h (hrange ..) ?_ hsettled
      intro other hother
      rw [List.mem_singleton.mp hother]
  | getMany keys c =>
      exact batch_keys hseed hrange h (fun _ => trivial) (fun _ _ => trivial)
        hcall rfl rfl hsettled
        (fun _ => ⟨rfl, rfl, rfl⟩) (getMany_each c keys m)
  | ttlMany keys c =>
      exact batch_keys hseed hrange h (fun _ => trivial) (fun _ _ => trivial)
        hcall rfl rfl hsettled
        (fun _ => ⟨rfl, rfl, rfl⟩) (ttlMany_each c keys m)
  | deleteMany keys c =>
      exact batch_keys hseed hrange h (fun _ => trivial) (fun _ _ => trivial)
        hcall rfl rfl hsettled
        (fun _ => ⟨rfl, rfl, rfl⟩) (deleteMany_each c keys m)
  | putMany keys values c ttl =>
      by_cases hlength : keys.length = values.length
      · simp only [call, putMany, if_neg (not_ne_iff.mpr hlength)]
        let P := Cells.HasRoom w.config now (w.config.collectionName c) keys
          ttl
        refine batch_spread hseed hrange h hroom (P := P) ?_ hroom hcall rfl rfl
          hsettled ?_ ?_ ?_ ?_
        · rintro _ hitem
          obtain ⟨item, hzip, rfl⟩ := List.mem_map.mp hitem
          exact roomy_put (List.of_mem_zip hzip).1 item.2 ttl
        · rintro _ hitem
          obtain ⟨item, -, rfl⟩ := List.mem_map.mp hitem
          exact ⟨rfl, rfl, rfl⟩
        · rintro _ hitem
          obtain ⟨item, hzip, rfl⟩ := List.mem_map.mp hitem
          exact (List.of_mem_zip hzip).1
        · rintro rfl
          obtain rfl := List.length_eq_zero_iff.mp hlength.symm
          exact putMany_nil c haccepted m
        · intro hkeys
          rw [List.map_map]
          exact putMany_each c hlength hkeys ttl m
      · simp only [call, putMany, Cells.apply, Cells.putMany, if_pos hlength,
          ne_eq]
        exact ⟨trivial, .refl h⟩

end Protocol

end RoutingWrapper

end OpenKeyV.Wrapper
