import OpenKeyV.Wrapper.Routing
import OpenKeyV.Wrapper.TtlClamp

/-!
# Batches with a route out of range

A batch whose keys all go one way looks its route up once, any other batch
looks up each key when its turn comes.  The wrapper is here one over stores of
any kind: what a batch leaves of them depends only on which keys come before
the first one without a store.
-/

namespace OpenKeyV.Wrapper

open Library Memory

/-- A `RoutingWrapper` over any stores, with what their `n`th call does. -/
structure Dispatch (σ : Type) where
  router : Option String → String → Nat
  ask : Nat → σ → Memory.Call → Except Error Response × σ

def noRoute (idx : Nat) : Error :=
  .invalidOperation s!"route index {idx} out of bounds"

namespace Dispatch

section Calls

variable {σ : Type} (d : Dispatch σ)

def forward (n : Nat) (collection : Option String) (key : String)
    (call : Memory.Call) (stores : List σ) : Except Error Response × List σ :=
  let idx := d.router collection key
  match stores[idx]? with
  | none => (.error (noRoute idx), stores)
  | some s =>
      let r := d.ask n s call
      (r.1, stores.set idx r.2)

def forwardEach (collection : Option String) :
    Nat → List (String × Memory.Call) → List σ →
      Except Error (List Response) × List σ
  | _, [], stores => (.ok [], stores)
  | n, (key, call) :: rest, stores =>
      match d.forward n collection key call stores with
      | (.error error, stores) => (.error error, stores)
      | (.ok response, stores) =>
          match forwardEach collection (n + 1) rest stores with
          | (.error error, stores) => (.error error, stores)
          | (.ok responses, stores) => (.ok (response :: responses), stores)

def batch (collection : Option String) (keys : List String)
    (whole : Memory.Call) (calls : List (String × Memory.Call))
    (gather : List Response → Response)
    (stores : List σ) : Except Error Response × List σ :=
  match keys with
  | [] => (.ok (gather []), stores)
  | first :: _ =>
      if ∀ key ∈ keys, d.router collection key = d.router collection first then
        d.forward 0 collection first whole stores
      else
        let r := d.forwardEach collection 0 calls stores
        (r.1.map gather, r.2)

def putMany (keys : List String) (values : List Value)
    (collection : Option String) (ttl : Option F64) (stores : List σ) :
    Except Error Response × List σ :=
  if keys.length ≠ values.length then
    (.error (.batchSizeMismatch keys.length values.length), stores)
  else
    d.batch collection keys (.putMany keys values collection ttl)
      ((keys.zip values).map fun item =>
        (item.1, .put item.1 item.2 collection ttl))
      RoutingWrapper.gatherUnit stores

def deleteMany (keys : List String) (collection : Option String) :
    List σ → Except Error Response × List σ :=
  d.batch collection keys (.deleteMany keys collection)
    (keys.map fun key => (key, .delete key collection))
    RoutingWrapper.gatherCount

end Calls

end Dispatch

/-! ## Memory stores behind the router -/

namespace RoutingWrapper

section Over

variable (w : RoutingWrapper) (now : DateTime) (chance : Chance)

def dispatch : Dispatch MemoryState :=
  ⟨w.router, w.ask now chance⟩

theorem dispatch_forward (collection : Option String) (n : Nat) (key : String)
    (call : Memory.Call) (stores : List MemoryState) :
    (w.dispatch now chance).forward n collection key call stores =
      w.forward now chance n collection key call stores := by
  cases hs : stores[w.router collection key]? with
  | none => simp only [Dispatch.forward, forward, dispatch, hs, noRoute]
  | some s => simp only [Dispatch.forward, forward, dispatch, hs]

theorem dispatch_forwardEach (collection : Option String) (n : Nat)
    (calls : List (String × Memory.Call)) (stores : List MemoryState) :
    (w.dispatch now chance).forwardEach collection n calls stores =
      w.forwardEach now chance collection n calls stores := by
  induction calls generalizing n stores with
  | nil => rfl
  | cons item calls ih =>
      simp only [Dispatch.forwardEach, forwardEach, dispatch_forward]
      rcases w.forward now chance n collection item.1 item.2 stores with
        ⟨_ | response, stores'⟩
      · rfl
      · simp only [ih]
        rcases w.forwardEach now chance collection (n + 1) calls stores' with
          ⟨_ | _, _⟩
        · rfl
        · rfl

theorem dispatch_batch (collection : Option String) (keys : List String)
    (whole : Memory.Call) (calls : List (String × Memory.Call))
    (gather : List Response → Response) (stores : List MemoryState) :
    (w.dispatch now chance).batch collection keys whole calls gather stores =
      w.batch now chance collection keys whole calls gather stores := by
  cases keys with
  | nil => rfl
  | cons first keys =>
      simp only [Dispatch.batch, batch, dispatch_forward, dispatch_forwardEach]
      rfl

theorem dispatch_putMany (keys : List String) (values : List Value)
    (collection : Option String) (ttl : Option F64)
    (stores : List MemoryState) :
    (w.dispatch now chance).putMany keys values collection ttl stores =
      w.putMany now chance keys values collection ttl stores := by
  rw [Dispatch.putMany, putMany, dispatch_batch]

theorem dispatch_deleteMany (keys : List String) (collection : Option String)
    (stores : List MemoryState) :
    (w.dispatch now chance).deleteMany keys collection stores =
      w.deleteMany now chance keys collection stores :=
  dispatch_batch ..

end Over

end RoutingWrapper

/-! ## Routes -/

section Routes

variable (router : Option String → String → Nat) (collection : Option String)

def Routed (count : Nat) (key : String) : Prop :=
  router collection key < count

instance (count : Nat) (key : String) :
    Decidable (Routed router collection count key) :=
  inferInstanceAs (Decidable (_ < _))

def reached (count : Nat) (keys : List String) : List String :=
  keys.takeWhile fun key => decide (Routed router collection count key)

def Blocked (count : Nat) (keys : List String) : Prop :=
  ∀ first ∈ keys.head?, ¬ Routed router collection count first

def Checked (count : Nat) (keys : List String) : Prop :=
  (∀ key ∈ keys, ∀ other ∈ keys,
      router collection key = router collection other) ∨
    ∀ key ∈ keys, Routed router collection count key

/-- If the batch fails because some key has no store, then every store is as it
was. -/
def WritesNothing {σ : Type} (keys : List String) (stores : List σ)
    (r : Except Error Response × List σ) : Prop :=
  ∀ key ∈ keys, ¬ Routed router collection stores.length key →
    r.1 = .error (noRoute (router collection key)) → r.2 = stores

end Routes

namespace Dispatch

section Loops

variable {σ : Type} {d : Dispatch σ} {collection : Option String}
  {keys : List String} {stores : List σ}

theorem forward_unrouted {key : String}
    (h : ¬ Routed d.router collection stores.length key) (n : Nat)
    (call : Memory.Call) :
    d.forward n collection key call stores =
      (.error (noRoute (d.router collection key)), stores) := by
  rw [forward, List.getElem?_eq_none (not_lt.mp h)]

theorem forward_routed {key : String}
    (h : Routed d.router collection stores.length key) (n : Nat)
    (call : Memory.Call) :
    ∃ s, stores[d.router collection key]? = some s ∧
      d.forward n collection key call stores =
        ((d.ask n s call).1,
          stores.set (d.router collection key) (d.ask n s call).2) := by
  refine ⟨_, List.getElem?_eq_getElem h, ?_⟩
  rw [forward, List.getElem?_eq_getElem h]

/-! ## What never goes back -/

/-- The calls are answered, and the store that is left never comes before the
store that was asked, unless it is the same one: it is if the call was
`quiet`. -/
structure Onward (d : Dispatch σ) (before : σ → σ → Prop)
    (quiet : Memory.Call → σ → Prop) (call : Memory.Call) : Prop where
  answered : ∀ n s, ∃ response, (d.ask n s call).1 = .ok response
  onward : ∀ n s, before s (d.ask n s call).2
  back : ∀ n s, before (d.ask n s call).2 s → quiet call s
  same : ∀ n s, quiet call s → (d.ask n s call).2 = s

variable {before : σ → σ → Prop} {quiet : Memory.Call → σ → Prop}
  {calls : List (String × Memory.Call)}

theorem forall₂_set (hrefl : ∀ s, before s s) {idx : Nat} {s t : σ}
    (hs : stores[idx]? = some s) (h : before s t) :
    List.Forall₂ before stores (stores.set idx t) := by
  refine List.forall₂_iff_get.mpr ⟨List.length_set.symm, fun i hi hi' => ?_⟩
  simp only [List.get_eq_getElem, List.getElem_set]
  split
  · rename_i hidx
    subst hidx
    rw [List.getElem?_eq_getElem hi] at hs
    cases hs
    exact h
  · exact hrefl _

variable (collection) in
theorem forwardEach_before (hrefl : ∀ s, before s s)
    (htrans : ∀ s t u, before s t → before t u → before s u)
    (hcalls : ∀ item ∈ calls, d.Onward before quiet item.2) (n : Nat)
    (stores : List σ) :
    List.Forall₂ before stores
      (d.forwardEach collection n calls stores).2 := by
  have htrans' : ∀ {a b c : List σ}, List.Forall₂ before a b →
      List.Forall₂ before b c → List.Forall₂ before a c := by
    intro a b c hab
    induction hab generalizing c with
    | nil => exact id
    | cons hst _ ih =>
        rintro (_ | ⟨htu, hrest⟩)
        exact .cons (htrans _ _ _ hst htu) (ih hrest)
  induction calls generalizing n stores with
  | nil => exact List.forall₂_same.mpr fun s _ => hrefl s
  | cons item calls ih =>
      obtain ⟨hitem, hrest⟩ := List.forall_mem_cons.mp hcalls
      by_cases hrouted : Routed d.router collection stores.length item.1
      · obtain ⟨s, hs, hforward⟩ := forward_routed hrouted n item.2
        obtain ⟨response, hresponse⟩ := hitem.answered n s
        have hfirst := forall₂_set hrefl hs (hitem.onward n s)
        have hlater := ih hrest (n + 1)
          (stores.set (d.router collection item.1) (d.ask n s item.2).2)
        simp only [forwardEach, hforward, hresponse]
        revert hlater
        rcases d.forwardEach collection (n + 1) calls _ with
          ⟨_ | responses, stores'⟩
        · exact htrans' hfirst
        · exact htrans' hfirst
      · simp only [forwardEach, forward_unrouted hrouted]
        exact List.forall₂_same.mpr fun s _ => hrefl s

theorem forwardEach_unrouted
    (hcalls : ∀ item ∈ calls, d.Onward before quiet item.2)
    (hbad : ∃ item ∈ calls, ¬ Routed d.router collection stores.length item.1)
    (n : Nat) :
    ∃ item ∈ calls, ¬ Routed d.router collection stores.length item.1 ∧
      (d.forwardEach collection n calls stores).1 =
        .error (noRoute (d.router collection item.1)) := by
  induction calls generalizing n stores with
  | nil => simp at hbad
  | cons item calls ih =>
      obtain ⟨hitem, hrest⟩ := List.forall_mem_cons.mp hcalls
      by_cases hrouted : Routed d.router collection stores.length item.1
      · obtain ⟨s, hs, hforward⟩ := forward_routed hrouted n item.2
        obtain ⟨response, hresponse⟩ := hitem.answered n s
        have hlater : ∃ item ∈ calls,
            ¬ Routed d.router collection stores.length item.1 := by
          obtain ⟨other, hother, hunrouted⟩ := hbad
          rcases List.mem_cons.mp hother with rfl | hmem
          · exact absurd hrouted hunrouted
          · exact ⟨other, hmem, hunrouted⟩
        obtain ⟨other, hother, hunrouted, hresult⟩ := @ih
          (stores.set (d.router collection item.1) (d.ask n s item.2).2)
          hrest (by rwa [List.length_set]) (n + 1)
        rw [List.length_set] at hunrouted
        refine ⟨other, List.mem_cons_of_mem _ hother, hunrouted, ?_⟩
        simp only [forwardEach, hforward, hresponse]
        revert hresult
        rcases d.forwardEach collection (n + 1) calls _ with
          ⟨_ | responses, stores'⟩
        · exact id
        · intro hresult
          cases hresult
      · refine ⟨item, List.mem_cons_self, hrouted, ?_⟩
        simp only [forwardEach, forward_unrouted hrouted]

theorem forwardEach_same_iff (hrefl : ∀ s, before s s)
    (htrans : ∀ s t u, before s t → before t u → before s u)
    (hcalls : ∀ item ∈ calls, d.Onward before quiet item.2) (n : Nat) :
    (d.forwardEach collection n calls stores).2 = stores ↔
      ∀ item ∈ calls.takeWhile fun item =>
          decide (Routed d.router collection stores.length item.1),
        ∀ s, stores[d.router collection item.1]? = some s →
          quiet item.2 s := by
  induction calls generalizing n with
  | nil => simp [forwardEach]
  | cons item calls ih =>
      obtain ⟨hitem, hrest⟩ := List.forall_mem_cons.mp hcalls
      by_cases hrouted : Routed d.router collection stores.length item.1
      · obtain ⟨s, hs, hforward⟩ := forward_routed hrouted n item.2
        obtain ⟨response, hresponse⟩ := hitem.answered n s
        have hloop : (d.forwardEach collection n (item :: calls) stores).2 =
            (d.forwardEach collection (n + 1) calls (stores.set
              (d.router collection item.1) (d.ask n s item.2).2)).2 := by
          simp only [forwardEach, hforward, hresponse]
          rcases d.forwardEach collection (n + 1) calls _ with
            ⟨_ | responses, stores'⟩ <;> rfl
        have hset : quiet item.2 s → stores.set (d.router collection item.1)
            (d.ask n s item.2).2 = stores := fun hquiet => by
          rw [hitem.same n s hquiet]
          obtain ⟨hidx, rfl⟩ := List.getElem?_eq_some_iff.mp hs
          exact List.set_getElem_self hidx
        rw [hloop, List.takeWhile_cons_of_pos (by simpa using hrouted),
          List.forall_mem_cons]
        constructor
        · intro hsame
          -- The rest of the loop would have to go back to the store.
          have hback := forwardEach_before collection hrefl htrans hrest (n + 1)
            (stores.set (d.router collection item.1) (d.ask n s item.2).2)
          rw [hsame] at hback
          obtain ⟨hidx, rfl⟩ := List.getElem?_eq_some_iff.mp hs
          have hquiet : quiet item.2 stores[d.router collection item.1] := by
            apply hitem.back n
            have hget := (List.forall₂_iff_get.mp hback).2
              (d.router collection item.1) (by rwa [List.length_set]) hidx
            simpa using hget
          rw [hset hquiet] at hsame
          refine ⟨fun t ht => ?_, (ih hrest (n + 1)).mp hsame⟩
          rw [hs] at ht
          cases ht
          exact hquiet
        · rintro ⟨hquiet, hlater⟩
          rw [hset (hquiet s hs)]
          exact (ih hrest (n + 1)).mpr hlater
      · simp [forwardEach, forward_unrouted hrouted, hrouted]

/-! ## Batches -/

variable (d) in
theorem batch_checked {whole : Memory.Call} {gather : List Response → Response}
    (h : Checked d.router collection stores.length keys) :
    WritesNothing d.router collection keys stores
      (d.batch collection keys whole calls gather stores) := by
  intro key hkey hunrouted _
  rcases h with hsame | hall
  · obtain ⟨first, rest, rfl⟩ :=
      List.exists_cons_of_ne_nil (List.ne_nil_of_mem hkey)
    have hfirst : ¬ Routed d.router collection stores.length first := by
      rwa [Routed, hsame first List.mem_cons_self key hkey]
    simp only [batch, if_pos fun key hkey =>
      hsame key hkey first List.mem_cons_self]
    rw [forward_unrouted hfirst]
  · exact absurd (hall key hkey) hunrouted

variable (d) in
theorem batch_writesNothing_iff {whole : Memory.Call}
    {gather : List Response → Response} (hrefl : ∀ s, before s s)
    (htrans : ∀ s t u, before s t → before t u → before s u)
    (hkeys : calls.map Prod.fst = keys)
    (hcalls : ∀ item ∈ calls, d.Onward before quiet item.2) :
    WritesNothing d.router collection keys stores
        (d.batch collection keys whole calls gather stores) ↔
      Checked d.router collection stores.length keys ∨
        ∀ item ∈ calls.takeWhile fun item =>
            decide (Routed d.router collection stores.length item.1),
          ∀ s, stores[d.router collection item.1]? = some s →
            quiet item.2 s := by
  by_cases hchecked : Checked d.router collection stores.length keys
  · exact iff_of_true (batch_checked d hchecked) (.inl hchecked)
  rw [or_iff_right hchecked, ← forwardEach_same_iff hrefl htrans hcalls 0]
  obtain ⟨hmixed, hbad⟩ := not_or.mp hchecked
  have hbatch : (d.batch collection keys whole calls gather stores) =
      ((d.forwardEach collection 0 calls stores).1.map gather,
        (d.forwardEach collection 0 calls stores).2) := by
    cases keys with
    | nil => simp at hmixed
    | cons first rest =>
        rw [batch, if_neg]
        intro hsame
        exact hmixed fun key hkey other hother =>
          (hsame key hkey).trans (hsame other hother).symm
  rw [hbatch]
  constructor
  · intro h
    obtain ⟨item, hitem, hunrouted, hresult⟩ := @forwardEach_unrouted σ d
      collection stores before quiet calls hcalls (by
        simp only [not_forall] at hbad
        obtain ⟨key, hkey, hunrouted⟩ := hbad
        rw [← hkeys] at hkey
        obtain ⟨item, hitem, rfl⟩ := List.mem_map.mp hkey
        exact ⟨item, hitem, hunrouted⟩) 0
    exact h item.1 (hkeys ▸ List.mem_map_of_mem hitem) hunrouted
      (by rw [hresult]; rfl)
  · exact fun h _ _ _ _ => h

variable (d) in
theorem batch_blocked {whole : Memory.Call} {gather : List Response → Response}
    (hkeys : calls.map Prod.fst = keys)
    (h : Blocked d.router collection stores.length keys) :
    WritesNothing d.router collection keys stores
      (d.batch collection keys whole calls gather stores) := by
  intro key hkey hunrouted _
  obtain ⟨first, rest, rfl⟩ :=
    List.exists_cons_of_ne_nil (List.ne_nil_of_mem hkey)
  have hfirst := h first rfl
  obtain ⟨item, calls, rfl, rfl, -⟩ := List.map_eq_cons_iff.mp hkeys
  simp only [batch]
  split
  · rw [forward_unrouted hfirst]
  · rw [forwardEach, forward_unrouted hfirst]

variable (d) in
theorem none_reached_iff (hkeys : calls.map Prod.fst = keys) :
    (∀ item ∈ calls.takeWhile fun item =>
        decide (Routed d.router collection stores.length item.1),
      ∀ s, stores[d.router collection item.1]? = some s → False) ↔
      Blocked d.router collection stores.length keys := by
  subst hkeys
  cases calls with
  | nil => simp [Blocked]
  | cons item calls =>
      by_cases hrouted : Routed d.router collection stores.length item.1
      · refine iff_of_false (fun h => ?_) (fun h => h item.1 rfl hrouted)
        refine h item ?_ _ (List.getElem?_eq_getElem hrouted)
        rw [List.takeWhile_cons_of_pos (by simpa using hrouted)]
        exact List.mem_cons_self
      · refine iff_of_true (fun other hother => ?_) ?_
        · rw [List.takeWhile_cons_of_neg (by simpa using hrouted)] at hother
          cases hother
        · rintro first hfirst
          cases hfirst
          exact hrouted

def counting (router : Option String → String → Nat) : Dispatch Nat :=
  ⟨router, fun _ s _ => (.ok .unit, s + 1)⟩

theorem counting_onward (router : Option String → String → Nat)
    (call : Memory.Call) :
    (counting router).Onward (· ≤ ·) (fun _ _ => False) call where
  answered _ _ := ⟨.unit, rfl⟩
  onward _ s := Nat.le_succ s
  back _ s h := Nat.not_succ_le_self s h
  same _ _ := False.elim

end Loops

end Dispatch

/-! ## What a call leaves of a memory store -/

section Stores

variable {config : MemoryConfig} {rng : Nat → Option Revision}
  {now : DateTime} {order : Order} {s t u : MemoryState} {call : Memory.Call}

/-- The store is set up for good, and from then on it keeps its collections;
its journal never gets shorter. -/
structure Grows (s t : MemoryState) : Prop where
  events : s.events.length ≤ t.events.length
  setup : s.setupComplete = true → t.setupComplete = true
  retains : s.setupComplete = true → Retains s t

theorem Grows.refl (s : MemoryState) : Grows s s :=
  ⟨Nat.le_refl _, id, fun _ _ => id⟩

theorem Grows.trans (h : Grows s t) (h' : Grows t u) : Grows s u :=
  ⟨Nat.le_trans h.events h'.events, fun hsetup => h'.setup (h.setup hsetup),
    fun hsetup => (h.retains hsetup).trans (h'.retains (h.setup hsetup))⟩

theorem loadItems_supplied (hrng : Supplied rng) (now : DateTime)
    (name : String) (items : List (Sigma fun _ : String => Value))
    (s : MemoryState) : (loadItems rng now name items s).1 = .ok () := by
  induction items generalizing s with
  | nil => rfl
  | cons item items ih =>
      obtain ⟨revision, t, hfresh, -⟩ := fresh_supplied hrng s
      simp only [loadItems, hfresh, ih]

theorem loadSeed_supplied (hrng : Supplied rng)
    (seed : List (Sigma fun _ : String => KeyedMap String Value))
    (s : MemoryState) : (loadSeed config rng now order seed s).1 = .ok () := by
  induction seed generalizing s with
  | nil => rfl
  | cons items seed ih =>
      have hitems := loadItems_supplied hrng now items.1 items.2.entries
        (s.ensureCollection items.1)
      rw [loadSeed]
      revert hitems
      rcases loadItems rng now items.1 items.2.entries _ with ⟨_ | _, t⟩
      · intro hitems
        cases hitems
      · exact fun _ => ih _

theorem setup_supplied (hrng : Supplied rng) (s : MemoryState) :
    ∃ t, setup config rng now order s = (.ok (), t) ∧
      t.setupComplete = true ∧ Grows s t := by
  have hok : (setup config rng now order s).1 = .ok () := by
    unfold setup
    split
    · rfl
    · split
      · rfl
      · rename_i seed _
        have hseed := @loadSeed_supplied config rng now order hrng
          seed.entries s
        revert hseed
        rcases loadSeed config rng now order seed.entries s with ⟨_ | _, t⟩
        · intro hseed
          cases hseed
        · exact fun _ => rfl
  obtain ⟨events, hedits, -⟩ := setup_loaded rng config now order s
  generalize hset : setup config rng now order s = r at hok hedits
  obtain ⟨result, t⟩ := r
  cases hok
  refine ⟨t, rfl, setup_setupComplete hset, ?_, fun _ =>
    setup_setupComplete hset, fun hsetup => ?_⟩
  · rw [hedits.events_eq, List.length_append]
    exact Nat.le_add_right ..
  · rw [setup_complete hsetup] at hset
    cases hset
    exact fun _ => id

theorem events_recordChanges (mutations : List Mutation) (s : MemoryState) :
    (mutations.foldl (fun s mutation => s.recordChange now mutation) s).events =
        s.events ∧
      (mutations.foldl (fun s mutation => s.recordChange now mutation)
        s).setupComplete = s.setupComplete := by
  induction mutations generalizing s with
  | nil => exact ⟨rfl, rfl⟩
  | cons mutation mutations ih => exact ih (s.recordChange now mutation)

theorem grows_finish {action : Action}
    (hallowed : (Phase.lock action).allowed false = true) (s : MemoryState) :
    Grows s (finish config now order (s, .lock action)).2 := by
  obtain ⟨hevents, hsetup⟩ := @events_recordChanges now
    (perform config now order s action).pending
    (perform config now order s action).state
  obtain ⟨events, hperformed⟩ := perform_performed config now order s action
  refine ⟨?_, fun h => ?_, fun _ =>
    (perform_retains hallowed).trans (retains_recordChanges _ _)⟩
  · rw [finish, hevents, hperformed.edits.events_eq, List.length_append]
    exact Nat.le_add_right ..
  · rw [finish, hsetup, setupComplete_perform, h]

theorem retains_prepare (s : MemoryState) (call : Memory.Call) :
    Retains s (prepare config rng now order s call).1 := by
  intro name hcol
  rcases prepare_collection config rng now order s call with
    hsame | ⟨created, hcreated⟩
  · rwa [hsame]
  · rw [hcreated, MemoryState.collection_ensureCollection]
    split
    · rfl
    · exact hcol

theorem runAlone_grows (hrng : Supplied rng)
    (hstart : start now call = .setup call)
    (hlocks : ∀ t, ∃ u action,
      prepare config rng now order t call = (u, .lock action) ∧
        (Phase.lock action).allowed false = true) (s : MemoryState) :
    Grows s (runAlone config rng now order call s).2 ∧
      (runAlone config rng now order call s).2.setupComplete = true := by
  obtain ⟨t, hset, hready, hgrows⟩ :=
    @setup_supplied config rng now order hrng s
  obtain ⟨u, action, hprepare, hallowed⟩ := hlocks t
  have hsetup := @setupComplete_prepare config rng now order t call
  have hevents := (prepare_edits config rng now order t call).events_eq
  have hretains := @retains_prepare config rng now order t call
  rw [hprepare] at hsetup hevents hretains
  have hprepared : Grows t u := by
    refine ⟨?_, fun _ => hsetup.trans hready, fun _ => hretains⟩
    exact Nat.le_of_eq (by simpa using congrArg List.length hevents.symm)
  rw [runAlone_eq hstart, hset, andThen, hprepare]
  have hfinish := @grows_finish config now order action hallowed u
  exact ⟨(hgrows.trans hprepared).trans hfinish,
    hfinish.setup (hsetup.trans hready)⟩

theorem prepare_put (hrng : Supplied rng) {ttl : Option F64}
    (hvalid : ∀ seconds, ttl = some seconds → ValidTtl now seconds)
    (key : String) (value : Value) (collection : Option String)
    (t : MemoryState) :
    ∃ u stored,
      prepare config rng now order t (.put key value collection ttl) =
        (u, .lock (.put (config.collectionName collection) key stored)) ∧
      (u.collection (config.collectionName collection)).isSome = true := by
  obtain ⟨entry, hentry⟩ := (ofTtl_eq_ok value).mpr hvalid
  obtain ⟨revision, u, hfresh, hdrawn⟩ := fresh_supplied hrng
    (t.ensureCollection (config.collectionName collection))
  refine ⟨u, ⟨entry, revision⟩, ?_, by rw [(drawn_ensured hdrawn).1]; rfl⟩
  simp only [prepare, hentry, hfresh]

theorem runAlone_put (hrng : Supplied rng) {ttl : Option F64}
    (hvalid : ∀ seconds, ttl = some seconds → ValidTtl now seconds)
    (key : String) (value : Value) (collection : Option String)
    (s : MemoryState) :
    let r := runAlone config rng now order (.put key value collection ttl) s
    r.1 = .ok .unit ∧ s.events.length < r.2.events.length := by
  obtain ⟨t, hset, -, hgrows⟩ := @setup_supplied config rng now order hrng s
  obtain ⟨u, stored, hprepare, hcol⟩ := @prepare_put config rng now order hrng
    ttl hvalid key value collection t
  have hevents := (prepare_edits config rng now order t
    (.put key value collection ttl)).events_eq
  rw [hprepare, List.append_nil] at hevents
  obtain ⟨evicted, hedits, -⟩ := edits_put config now order key hcol stored
  simp only [runAlone_eq (rfl : start now (.put key value collection ttl) = _),
    hset, andThen, hprepare, finish, perform]
  constructor
  · unfold put
    split <;> rfl
  · rw [(events_recordChanges _ _).1, hedits.events_eq, hevents,
      List.length_append, List.length_cons]
    have hlonger := hgrows.events
    omega

structure Undisturbed (s : MemoryState) (name key : String) : Prop where
  setup : s.setupComplete = true
  collection : (s.collection name).isSome = true
  entry : s.entry name key = none

def LeavesAlone (config : MemoryConfig) : Memory.Call → MemoryState → Prop
  | .delete key collection, s =>
      Undisturbed s (config.collectionName collection) key
  | _, _ => False

theorem ensureCollection_present {name : String}
    (h : (s.collection name).isSome = true) : s.ensureCollection name = s := by
  obtain ⟨col, hcol⟩ := Option.isSome_iff_exists.mp h
  rw [MemoryState.ensureCollection, hcol]

variable (config rng now order) in
theorem runAlone_delete (hsetup : s.setupComplete = true) (key : String)
    {collection : Option String}
    (hcol : (s.collection (config.collectionName collection)).isSome = true) :
    runAlone config rng now order (.delete key collection) s =
      finish config now order
        (s, .lock (.delete (config.collectionName collection) key)) := by
  rw [runAlone_eq rfl, setup_complete hsetup]
  simp only [andThen, prepare, ensureCollection_present hcol]

variable (config rng now order) in
theorem runAlone_delete_undisturbed (key : String) {collection : Option String}
    (h : Undisturbed s (config.collectionName collection) key) :
    (runAlone config rng now order (.delete key collection) s).2 = s := by
  rw [runAlone_delete config rng now order h.setup key h.collection]
  obtain ⟨col, hcol⟩ := Option.isSome_iff_exists.mp h.collection
  have hlookup : col.lookup key = none := by
    rw [← s.entry_eq _ key hcol]
    exact h.entry
  simp only [finish, perform, delete, hcol, hlookup, List.foldl_nil]

theorem delete_locks (key : String) (collection : Option String)
    (t : MemoryState) : ∃ u action,
      prepare config rng now order t (.delete key collection) =
          (u, .lock action) ∧
        (Phase.lock action).allowed false = true :=
  ⟨_, _, rfl, rfl⟩

/-- Only a delete with nothing to do leaves a store that grows into the one it
was called on. -/
theorem undisturbed_of_grows (hrng : Supplied rng) {key : String}
    {collection : Option String}
    (h : Grows (runAlone config rng now order (.delete key collection) s).2 s) :
    Undisturbed s (config.collectionName collection) key := by
  let name := config.collectionName collection
  obtain ⟨-, hready⟩ := runAlone_grows hrng rfl
    (@delete_locks config rng now order key collection) s
  have hsetup := h.setup hready
  have hcol : (s.collection name).isSome = true := by
    apply h.retains hready
    rw [runAlone_eq rfl, setup_complete hsetup]
    apply (@grows_finish config now order
      (.delete name key) rfl (s.ensureCollection name)).retains
    · rw [setupComplete_ensureCollection, hsetup]
    · rw [collection_ensured]
      rfl
  refine ⟨hsetup, hcol, ?_⟩
  have hevents := h.events
  rw [runAlone_delete config rng now order hsetup key hcol] at hevents
  obtain ⟨col, hlookup⟩ := Option.isSome_iff_exists.mp hcol
  rw [s.entry_eq _ key hlookup]
  cases hentry : col.lookup key with
  | none => rfl
  | some stored =>
      simp only [finish, perform, delete, hlookup, hentry,
        (events_recordChanges _ _).1,
        (edits_removeEntry hlookup key none trivial).events_eq,
        List.length_append, List.length_singleton, name] at hevents
      omega

end Stores

/-! ## Batches over memory stores -/

namespace RoutingWrapper

section Batches

variable {w : RoutingWrapper} {now : DateTime} {chance : Chance}
  {collection : Option String}

theorem dispatch_put_onward {ttl : Option F64}
    (hvalid : ∀ seconds, ttl = some seconds → ValidTtl now seconds)
    (key : String) (value : Value) :
    (w.dispatch now chance).Onward Grows (LeavesAlone w.config)
      (.put key value collection ttl) where
  answered n s := by
    obtain ⟨hresult, -⟩ := @runAlone_put w.config
      (fun i => some (chance.revision n i)) now (chance.order n) (fun _ => rfl)
      ttl hvalid key value collection s
    exact ⟨.unit, hresult⟩
  onward n s := by
    apply (runAlone_grows (fun _ => rfl) rfl (fun t => ?_) s).1
    obtain ⟨u, stored, hprepare, -⟩ := @prepare_put w.config
      (fun i => some (chance.revision n i)) now (chance.order n) (fun _ => rfl)
      ttl hvalid key value collection t
    exact ⟨u, _, hprepare, rfl⟩
  back n s h := by
    obtain ⟨-, hlonger⟩ := @runAlone_put w.config
      (fun i => some (chance.revision n i)) now (chance.order n) (fun _ => rfl)
      ttl hvalid key value collection s
    exact absurd h.events (not_le.mpr hlonger)
  same _ _ := False.elim

theorem dispatch_delete_onward (key : String) :
    (w.dispatch now chance).Onward Grows (LeavesAlone w.config)
      (.delete key collection) where
  answered n s := by
    obtain ⟨t, hset, -⟩ := @setup_supplied w.config
      (fun i => some (chance.revision n i)) now (chance.order n) (fun _ => rfl)
      s
    have hcol := collection_ensured t (w.config.collectionName collection)
    refine ⟨_, Eq.trans ?_ (result_delete hcol key)⟩
    simp only [dispatch, ask, hset,
      runAlone_eq (rfl : start now (.delete key _) = _)]
    rfl
  onward n s :=
    (runAlone_grows (fun _ => rfl) rfl (delete_locks key collection) s).1
  back n s h := undisturbed_of_grows (fun _ => rfl) h
  same n s h := runAlone_delete_undisturbed _ _ _ _ key h

theorem ask_put_refused {ttl : Option F64}
    (hinvalid : ¬ ∀ seconds, ttl = some seconds → ValidTtl now seconds)
    (n : Nat) (s : MemoryState) (key : String) (value : Value) :
    ∃ text, (w.ask now chance n s (.put key value collection ttl)).1 =
      .error (.invalidTtl text) := by
  obtain ⟨t, hset, -⟩ := @setup_supplied w.config
    (fun i => some (chance.revision n i)) now (chance.order n) (fun _ => rfl) s
  cases hentry : ManagedEntry.ofTtl now value ttl with
  | ok entry => exact absurd ((ofTtl_eq_ok value).mp ⟨entry, hentry⟩) hinvalid
  | error error =>
      obtain ⟨text, rfl⟩ := ManagedEntry.ofTtl_error hentry
      refine ⟨text, ?_⟩
      rw [ask, runAlone_eq rfl, hset]
      simp only [andThen, prepare, hentry, finish]

variable (w now chance collection) in
theorem putMany_writesNothing_iff {keys : List String} {values : List Value}
    (hlength : keys.length = values.length) (ttl : Option F64)
    (stores : List MemoryState) :
    WritesNothing w.router collection keys stores
        (w.putMany now chance keys values collection ttl stores) ↔
      Checked w.router collection stores.length keys ∨
        Blocked w.router collection stores.length keys ∨
        ¬ ∀ seconds, ttl = some seconds → ValidTtl now seconds := by
  let d := w.dispatch now chance
  let calls := (keys.zip values).map fun item =>
    (item.1, Memory.Call.put item.1 item.2 collection ttl)
  have hkeys : calls.map Prod.fst = keys := by
    simp only [calls, List.map_map, Function.comp_def]
    exact List.map_fst_zip hlength.le
  have hbatch : w.putMany now chance keys values collection ttl stores =
      d.batch collection keys (.putMany keys values collection ttl) calls
        gatherUnit stores := by
    rw [← dispatch_putMany, Dispatch.putMany, if_neg (not_not_intro hlength)]
  rw [hbatch]
  by_cases hvalid : ∀ seconds, ttl = some seconds → ValidTtl now seconds
  · have hcalls : ∀ item ∈ calls,
        d.Onward Grows (LeavesAlone w.config) item.2 := by
      intro item hitem
      obtain ⟨pair, -, rfl⟩ := List.mem_map.mp hitem
      exact dispatch_put_onward hvalid pair.1 pair.2
    rw [or_iff_left (not_not_intro hvalid)]
    refine (Dispatch.batch_writesNothing_iff d Grows.refl
      (fun _ _ _ => Grows.trans) hkeys hcalls).trans (or_congr_right ?_)
    refine Iff.trans ?_ (Dispatch.none_reached_iff d hkeys)
    refine forall₂_congr fun item hitem => forall₂_congr fun s _ => ?_
    obtain ⟨pair, -, rfl⟩ :=
      List.mem_map.mp ((List.takeWhile_sublist _).mem hitem)
    rfl
  · refine iff_of_true ?_ (.inr (.inr hvalid))
    by_cases hchecked : Checked w.router collection stores.length keys
    · exact Dispatch.batch_checked d hchecked
    by_cases hblocked : Blocked w.router collection stores.length keys
    · exact Dispatch.batch_blocked d hkeys hblocked
    -- The first key has a store, and that store rejects the TTL.
    intro key hkey hunrouted hresult
    obtain ⟨first, rest, rfl⟩ :=
      List.exists_cons_of_ne_nil (List.ne_nil_of_mem hkey)
    obtain ⟨value, values, rfl⟩ := List.exists_cons_of_length_pos
      (hlength ▸ Nat.succ_pos _ : 0 < values.length)
    have hrouted : Routed d.router collection stores.length first := by
      by_contra hfirst
      apply hblocked
      rintro _ ⟨⟩
      exact hfirst
    obtain ⟨s, hs, hforward⟩ := Dispatch.forward_routed hrouted 0
      (.put first value collection ttl)
    obtain ⟨text, htext⟩ := @ask_put_refused w now chance collection ttl hvalid
      0 s first value
    have hmixed : ¬ ∀ key ∈ first :: rest,
        d.router collection key = d.router collection first := fun hsame =>
      hchecked (.inl fun key hkey other hother =>
        (hsame key hkey).trans (hsame other hother).symm)
    simp only [Dispatch.batch, if_neg hmixed, calls, List.zip_cons_cons,
      List.map_cons, Dispatch.forwardEach, hforward] at hresult
    have hask : (d.ask 0 s (.put first value collection ttl)).1 =
        .error (.invalidTtl text) := htext
    rw [hask] at hresult
    simp [Except.map, noRoute] at hresult

variable (w now chance collection) in
theorem deleteMany_writesNothing_iff (keys : List String)
    (stores : List MemoryState) :
    WritesNothing w.router collection keys stores
        (w.deleteMany now chance keys collection stores) ↔
      Checked w.router collection stores.length keys ∨
        ∀ key ∈ reached w.router collection stores.length keys,
          ∀ s, stores[w.router collection key]? = some s →
            Undisturbed s (w.config.collectionName collection) key := by
  let d := w.dispatch now chance
  let calls := keys.map fun key => (key, Memory.Call.delete key collection)
  have hcalls : ∀ item ∈ calls,
      d.Onward Grows (LeavesAlone w.config) item.2 := by
    intro item hitem
    obtain ⟨key, -, rfl⟩ := List.mem_map.mp hitem
    exact dispatch_delete_onward key
  have hkeys : calls.map Prod.fst = keys := by
    simp [calls, Function.comp_def]
  rw [← dispatch_deleteMany, Dispatch.deleteMany]
  refine (Dispatch.batch_writesNothing_iff d Grows.refl
    (fun _ _ _ => Grows.trans) hkeys hcalls).trans (or_congr_right ?_)
  rw [List.takeWhile_map, List.forall_mem_map]
  rfl

end Batches

end RoutingWrapper

/-! ## A routed batch with an invalid route -/

section Theorem

variable (router : Option String → String → Nat) (collection : Option String)
  (keys : List String)

theorem writesNothing_anywhere_iff (count : Nat) (whole : Memory.Call)
    {calls : List (String × Memory.Call)} (gather : List Response → Response)
    (hkeys : calls.map Prod.fst = keys) :
    (∀ (σ : Type) (ask : Nat → σ → Memory.Call → Except Error Response × σ)
        (stores : List σ), stores.length = count →
        WritesNothing router collection keys stores
          (Dispatch.batch ⟨router, ask⟩ collection keys whole calls gather
            stores)) ↔
      Checked router collection count keys ∨
        Blocked router collection count keys := by
  let counting := Dispatch.counting router
  constructor
  · intro h
    have hcount := (Dispatch.batch_writesNothing_iff counting Nat.le_refl
      (fun _ _ _ => Nat.le_trans) hkeys fun item _ =>
        Dispatch.counting_onward router item.2).mp
      (h Nat counting.ask (List.replicate count 0) List.length_replicate)
    rw [Dispatch.none_reached_iff counting hkeys,
      List.length_replicate] at hcount
    exact hcount
  · rintro (hchecked | hblocked) σ ask stores rfl
    · exact Dispatch.batch_checked ⟨router, ask⟩ hchecked
    · exact Dispatch.batch_blocked ⟨router, ask⟩ hkeys hblocked

/-- A batch that fails for want of a route leaves all stores alone exactly if
its route was looked up once, or no key is without a store, or the first one
is.  A memory store is also left alone by a put with a rejected TTL, and by
deletes that find nothing. -/
theorem invalid_route_writes_nothing_iff (values : List Value)
    (ttl : Option F64) (hlength : keys.length = values.length) :
    (∀ count,
      ((∀ (σ : Type) (ask : Nat → σ → Memory.Call → Except Error Response × σ)
          (stores : List σ), stores.length = count →
          WritesNothing router collection keys stores
            (Dispatch.putMany ⟨router, ask⟩ keys values collection ttl
              stores)) ↔
        Checked router collection count keys ∨
          Blocked router collection count keys) ∧
      ((∀ (σ : Type) (ask : Nat → σ → Memory.Call → Except Error Response × σ)
          (stores : List σ), stores.length = count →
          WritesNothing router collection keys stores
            (Dispatch.deleteMany ⟨router, ask⟩ keys collection stores)) ↔
        Checked router collection count keys ∨
          Blocked router collection count keys)) ∧
    ∀ (config : MemoryConfig) (now : DateTime) (chance : Chance)
      (stores : List MemoryState),
      let w : RoutingWrapper := ⟨config, router⟩
      (WritesNothing router collection keys stores
          (w.putMany now chance keys values collection ttl stores) ↔
        Checked router collection stores.length keys ∨
          Blocked router collection stores.length keys ∨
          ¬ ∀ seconds, ttl = some seconds → ValidTtl now seconds) ∧
      (WritesNothing router collection keys stores
          (w.deleteMany now chance keys collection stores) ↔
        Checked router collection stores.length keys ∨
          ∀ key ∈ reached router collection stores.length keys,
            ∀ s, stores[router collection key]? = some s →
              Undisturbed s (config.collectionName collection) key) := by
  refine ⟨fun count => ⟨?_, ?_⟩, fun config now chance stores => ⟨?_, ?_⟩⟩
  · simp only [Dispatch.putMany, if_neg (not_not_intro hlength)]
    apply writesNothing_anywhere_iff
    simp only [List.map_map, Function.comp_def]
    exact List.map_fst_zip hlength.le
  · simp only [Dispatch.deleteMany]
    apply writesNothing_anywhere_iff
    simp [Function.comp_def]
  · exact RoutingWrapper.putMany_writesNothing_iff ⟨config, router⟩ now chance
      collection hlength ttl stores
  · exact RoutingWrapper.deleteMany_writesNothing_iff ⟨config, router⟩ now
      chance collection keys stores

end Theorem

def firstOnly (_ : Option String) (key : String) : Nat :=
  if key = "a" then 0 else 1

def plainRouting : RoutingWrapper :=
  ⟨⟨none, "default_collection", none⟩, firstOnly⟩

/-- The first of two keys with different routes is without a store. -/
theorem invalid_route_first_writes_nothing :
    (¬ Checked firstOnly none 1 ["b", "a"] ∧
      (plainRouting.putMany .epoch ⟨fun _ => .stored, fun _ _ => .fill 0⟩
        ["b", "a"] [.null, .null] none none [MemoryState.empty]).1 =
          .error (noRoute 1)) ∧
    WritesNothing firstOnly none ["b", "a"] [MemoryState.empty]
      (plainRouting.putMany .epoch ⟨fun _ => .stored, fun _ _ => .fill 0⟩
        ["b", "a"] [.null, .null] none none [MemoryState.empty]) := by
  have h := (invalid_route_writes_nothing_iff firstOnly none ["b", "a"]
    [.null, .null] none rfl).2 plainRouting.config .epoch
    ⟨fun _ => .stored, fun _ _ => .fill 0⟩ [MemoryState.empty]
  refine ⟨⟨by unfold Checked; decide, by decide +kernel⟩,
    h.1.mpr (.inr (.inl ?_))⟩
  rintro _ ⟨⟩
  decide

theorem key_before_invalid_route_is_written :
    ¬ WritesNothing firstOnly none ["a", "b"] [MemoryState.empty]
      (plainRouting.putMany .epoch ⟨fun _ => .stored, fun _ _ => .fill 0⟩
        ["a", "b"] [.null, .null] none none [MemoryState.empty]) := by
  intro h
  have hsame := h "b" (by decide) (by decide) (by decide +kernel)
  have hevents := congrArg (List.map fun s : MemoryState => s.events.length)
    hsame
  revert hevents
  decide +kernel

end OpenKeyV.Wrapper
