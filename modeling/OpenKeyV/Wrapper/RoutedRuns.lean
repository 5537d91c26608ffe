import OpenKeyV.Library.Machine
import OpenKeyV.Wrapper.Routing

/-!
# Routed stores as one store

What the wrapper enumerates, and runs of the wrapper side by side with a
single store.  The entries of the single store stay spread over the wrapper's
stores, each with the store that its key is sent to.
-/

namespace OpenKeyV.Wrapper

open Library Memory

namespace RoutingWrapper

/-! ## Enumerations -/

section Enumerations

structure Merges (limit : Option Nat) (merged names : List String)
    (r : List String × Bool) : Prop where
  nodup : r.1.Nodup
  known : ∀ name ∈ r.1, name ∈ merged ∨ name ∈ names
  keeps : merged ⊆ r.1
  full : r.2 = true → limit = some r.1.length
  all : r.2 = false → names ⊆ r.1
  below : r.2 = false → ∀ l, limit = some l → r.1.length < l

theorem mergeNames_merges {limit : Option Nat} {merged : List String}
    (names : List String) (hnodup : merged.Nodup)
    (hbelow : ∀ l, limit = some l → merged.length < l) :
    Merges limit merged names (mergeNames limit merged names) := by
  induction names generalizing merged with
  | nil =>
      exact ⟨hnodup, fun _ h => .inl h, fun _ h => h,
        (fun h => by cases h), fun _ => List.nil_subset _, fun _ => hbelow⟩
  | cons name names ih =>
      by_cases hseen : name ∈ merged
      · rw [mergeNames, if_pos hseen]
        have hrest := ih hnodup hbelow
        exact ⟨hrest.nodup,
          fun x hx => (hrest.known x hx).imp_right (List.mem_cons_of_mem _),
          hrest.keeps, hrest.full, fun h => List.cons_subset.mpr
            ⟨hrest.keeps hseen, hrest.all h⟩, hrest.below⟩
      · have hpushed : (merged ++ [name]).Nodup := by
          rw [List.nodup_append]
          refine ⟨hnodup, List.nodup_singleton _, fun x hx y hy => ?_⟩
          rw [List.mem_singleton.mp hy]
          rintro rfl
          exact hseen hx
        have hgo : (∀ l, limit = some l → (merged ++ [name]).length < l) →
            Merges limit merged (name :: names)
              (mergeNames limit (merged ++ [name]) names) := by
          intro hlimit
          have hrest := ih hpushed hlimit
          obtain ⟨hkept, hname⟩ := List.append_subset.mp hrest.keeps
          refine ⟨hrest.nodup, fun x hx => ?_, hkept, hrest.full,
            fun h => List.cons_subset.mpr
              ⟨hname (List.mem_singleton_self _), hrest.all h⟩, hrest.below⟩
          rcases hrest.known x hx with hold | hnew
          · rcases List.mem_append.mp hold with hold | hnew
            · exact .inl hold
            · rw [List.mem_singleton.mp hnew]
              exact .inr (List.mem_cons_self ..)
          · exact .inr (List.mem_cons_of_mem _ hnew)
        rw [mergeNames, if_neg hseen]
        cases limit with
        | none => exact hgo fun l h => by cases h
        | some limit =>
            have hshort := hbelow limit rfl
            simp only
            split
            · rename_i hreached
              rw [List.length_append, List.length_singleton] at hreached
              refine ⟨hpushed, fun x hx => ?_, List.subset_append_left ..,
                fun _ => ?_, (by simp), (by simp)⟩
              · rcases List.mem_append.mp hx with hold | hnew
                · exact .inl hold
                · rw [List.mem_singleton.mp hnew]
                  exact .inr (List.mem_cons_self ..)
              · rw [List.length_append, List.length_singleton]
                exact congrArg some (by omega)
            · rename_i hopen
              exact hgo fun l h => by
                cases h
                omega

def PageOf (all names : List String) : Prop :=
  names ⊆ all ∧ (all ⊆ names ∨ (names.Nodup ∧ names.length = pageLimit))

variable {w : RoutingWrapper} {now : DateTime} {chance : Chance}
  {stores : List MemoryState}

/-- A store answers with a page of `all`, and keeps what it has. -/
def Shows (w : RoutingWrapper) (now : DateTime) (chance : Chance)
    (call : Call) (all : MemoryState → List String) (s : MemoryState) : Prop :=
  ∀ n, ∃ names s', w.ask now chance n s call = (.ok (.names names), s') ∧
    PageOf (all s) names ∧ s'.cells = s.cells ∧ Retains s s'

structure Enumerates (limit : Option Nat) (merged : List String)
    (all : MemoryState → List String) (stores : List MemoryState)
    (out : List String) : Prop where
  nodup : out.Nodup
  known : ∀ name ∈ out, name ∈ merged ∨ ∃ s ∈ stores, name ∈ all s
  keeps : merged ⊆ out
  full_or : limit = some out.length ∨
    (∀ l, limit = some l → out.length < l) ∧
      ∀ s ∈ stores, ∃ names, PageOf (all s) names ∧ names ⊆ out

theorem enumerate_spec {call : Call} {all : MemoryState → List String}
    {limit : Option Nat} (n : Nat) {merged : List String}
    (hnodup : merged.Nodup)
    (hbelow : ∀ l, limit = some l → merged.length < l)
    (hshows : ∀ s ∈ stores, w.Shows now chance call all s) :
    ∃ out stores', w.enumerate now chance call limit n merged stores =
        (.ok (.names out), stores') ∧
      Enumerates limit merged all stores out ∧
      List.Forall₂ (fun s s' => s'.cells = s.cells ∧ Retains s s') stores
        stores' := by
  induction stores generalizing n merged with
  | nil =>
      exact ⟨merged, [], rfl, ⟨hnodup, fun _ h => .inl h, fun _ h => h,
        .inr ⟨hbelow, by simp⟩⟩, .nil⟩
  | cons s stores ih =>
      obtain ⟨hfirst, hrest⟩ := List.forall_mem_cons.mp hshows
      obtain ⟨names, s', hask, hpage, hcells, hkept⟩ := hfirst n
      have hmerges := mergeNames_merges names hnodup hbelow
      simp only [enumerate, hask]
      generalize mergeNames limit merged names = r at hmerges
      obtain ⟨out, full⟩ := r
      have hknown : ∀ name ∈ out,
          name ∈ merged ∨ ∃ x ∈ s :: stores, name ∈ all x := fun name hname =>
        (hmerges.known name hname).imp_right fun h =>
          ⟨s, List.mem_cons_self .., hpage.1 h⟩
      cases full with
      | true =>
          refine ⟨out, s' :: stores, rfl, ⟨hmerges.nodup, hknown,
            hmerges.keeps, .inl (hmerges.full rfl)⟩, .cons ⟨hcells, hkept⟩ ?_⟩
          exact List.forall₂_same.mpr fun x _ => ⟨rfl, fun _ h => h⟩
      | false =>
          obtain ⟨out', stores', hgo, henum, hsame⟩ :=
            ih (n + 1) hmerges.nodup (hmerges.below rfl) hrest
          simp only [hgo]
          refine ⟨out', s' :: stores', rfl, ⟨henum.nodup, fun name hname => ?_,
            fun x hx => henum.keeps (hmerges.keeps hx), ?_⟩,
            .cons ⟨hcells, hkept⟩ hsame⟩
          · rcases henum.known name hname with hold | ⟨x, hx, hall⟩
            · exact hknown name hold
            · exact .inr ⟨x, List.mem_cons_of_mem _ hx, hall⟩
          · refine henum.full_or.imp_right fun ⟨hless, hpages⟩ => ⟨hless, ?_⟩
            refine List.forall_mem_cons.mpr ⟨⟨names, hpage, ?_⟩, hpages⟩
            exact fun x hx => henum.keeps (hmerges.all rfl hx)

theorem enumerate_nothing {call : Call} {all : MemoryState → List String}
    (limit : Option Nat) (n : Nat)
    (hshows : ∀ s ∈ stores, w.Shows now chance call all s)
    (hnone : ∀ s ∈ stores, all s = []) :
    ∃ stores', w.enumerate now chance call limit n [] stores =
        (.ok (.names []), stores') ∧
      List.Forall₂ (fun s s' => s'.cells = s.cells ∧ Retains s s') stores
        stores' := by
  induction stores generalizing n with
  | nil => exact ⟨[], rfl, .nil⟩
  | cons s stores ih =>
      obtain ⟨hfirst, hrest⟩ := List.forall_mem_cons.mp hshows
      obtain ⟨hempty, hempties⟩ := List.forall_mem_cons.mp hnone
      obtain ⟨names, s', hask, hpage, hsame⟩ := hfirst n
      obtain rfl : names = [] := List.subset_nil.mp (hempty ▸ hpage.1)
      obtain ⟨stores', hgo, hsames⟩ := ih (n + 1) hrest hempties
      simp only [enumerate, hask, mergeNames, hgo]
      exact ⟨s' :: stores', rfl, .cons hsame hsames⟩

theorem length_enumerates {all : MemoryState → List String}
    {limit : Option Nat} {total out : List String}
    (hnodup : total.Nodup)
    (htotal : ∀ name, name ∈ total ↔ ∃ s ∈ stores, name ∈ all s)
    (hfit : total.length ≤ pageLimit ∨
      ∃ l, limit = some l ∧ l ≤ pageLimit)
    (hsub : out ⊆ total) (h : Enumerates limit [] all stores out) :
    out.length = min (pageLen limit) total.length := by
  have hfew : out.length ≤ total.length :=
    (List.subperm_of_subset h.nodup hsub).length_le
  rcases h.full_or with hfull | ⟨hless, hpages⟩
  · rw [hfull, pageLen, Option.getD_some]
    rcases hfit with hsmall | ⟨l, hl, hsmall⟩
    · omega
    · rw [hfull, Option.some.injEq] at hl
      omega
  · -- Unless a page is full, everything is on some page.
    have hall : total.length ≤ out.length := by
      by_contra hmore
      obtain ⟨name, hname, hmissing⟩ : ∃ name ∈ total, name ∉ out := by
        by_contra hnone
        exact hmore (List.subperm_of_subset hnodup fun name hname =>
          not_not.mp fun h => hnone ⟨name, hname, h⟩).length_le
      obtain ⟨s, hs, hshown⟩ := (htotal name).mp hname
      obtain ⟨names, ⟨-, hpage⟩, hlisted⟩ := hpages s hs
      rcases hpage with hwhole | ⟨hdistinct, hlength⟩
      · exact hmissing (hlisted (hwhole hshown))
      · have hlong := (List.subperm_of_subset hdistinct hlisted).length_le
        rcases hfit with hsmall | ⟨l, hl, hsmall⟩
        · omega
        · have hshort := hless l hl
          omega
    cases limit with
    | none =>
        rcases hfit with hsmall | ⟨l, hl, -⟩
        · simp only [pageLen, Option.getD_none, defaultPageSize,
            pageLimit] at hsmall ⊢
          omega
        · cases hl
    | some limit =>
        have hshort := hless limit rfl
        simp only [pageLen, Option.getD_some]
        rcases hfit with hsmall | ⟨l, hl, hsmall⟩
        · omega
        · cases hl
          omega

theorem enumerate_lists {call : Call} {all : MemoryState → List String}
    {limit : Option Nat} {total : List String} (hnodup : total.Nodup)
    (htotal : ∀ name, name ∈ total ↔ ∃ s ∈ stores, name ∈ all s)
    (hzero : limit = some 0 → total = [])
    (hfit : total.length ≤ pageLimit ∨
      ∃ l, limit = some l ∧ l ≤ pageLimit)
    (hshows : ∀ s ∈ stores, w.Shows now chance call all s) :
    let r := w.enumerate now chance call limit 0 [] stores
    Lists total (pageLen limit) r.1 ∧
      List.Forall₂ (fun s s' => s'.cells = s.cells ∧ Retains s s') stores
        r.2 := by
  by_cases hlimit : limit = some 0
  · have hempty := hzero hlimit
    have hnone : ∀ s ∈ stores, all s = [] := fun s hs =>
      List.eq_nil_iff_forall_not_mem.mpr fun name hname => by
        have hmem := (htotal name).mpr ⟨s, hs, hname⟩
        rw [hempty] at hmem
        cases hmem
    obtain ⟨stores', hgo, hsame⟩ := enumerate_nothing limit 0 hshows hnone
    rw [hgo, hempty]
    exact ⟨⟨[], rfl, .nil, List.nil_subset _, by simp⟩, hsame⟩
  · obtain ⟨out, stores', hgo, henum, hsame⟩ :=
      enumerate_spec 0 List.nodup_nil (fun l hl => Nat.pos_of_ne_zero (by
        rintro rfl
        exact hlimit hl)) hshows
    have hsub : out ⊆ total := by
      intro name hname
      rcases henum.known name hname with hnil | hall
      · cases hnil
      · exact (htotal name).mpr hall
    rw [hgo]
    exact ⟨⟨out, rfl, henum.nodup, hsub,
      length_enumerates hnodup htotal hfit hsub henum⟩, hsame⟩

end Enumerations

/-! ## Side by side with a single store -/

theorem pageOf_take {all l : List String} (hnodup : all.Nodup)
    (hperm : l.Perm all) : PageOf all (l.take (pageLen none)) := by
  refine ⟨fun name hname => hperm.subset (List.mem_of_mem_take hname), ?_⟩
  by_cases hshort : l.length ≤ pageLen none
  · rw [List.take_of_length_le hshort]
    exact .inl hperm.symm.subset
  · refine .inr ⟨((hperm.nodup_iff.mpr hnodup).sublist (List.take_sublist ..)),
      ?_⟩
    rw [List.length_take, Nat.min_eq_left (Nat.le_of_not_ge hshort)]
    rfl

section Listings

variable {w : RoutingWrapper} {now : DateTime} {chance : Chance}
  {stores : List MemoryState}

theorem shows_keys (hseed : w.config.seed = none)
    (collection : Option String) (s : MemoryState) :
    w.Shows now chance (.keys collection none)
      (fun s => keysOf s (w.config.collectionName collection)) s := by
  intro n
  rw [ask, runAlone_keys hseed]
  refine ⟨_, _, rfl, pageOf_take (AList.keys_nodup _)
    (Order.keys_perm ..), ?_, ?_⟩
  · exact cells_ensureCollection { s with setupComplete := true } _
  · exact retains_ensureCollection (s := { s with setupComplete := true }) _

theorem shows_collections (hseed : w.config.seed = none) (s : MemoryState) :
    w.Shows now chance (.collections none)
      (fun s => s.collections.keys) s := by
  intro n
  rw [ask, runAlone_collections hseed]
  exact ⟨_, _, rfl, pageOf_take (AList.keys_nodup _)
    (Order.keys_perm ..), rfl, fun _ hcol => hcol⟩

def collectionsOf (stores : List MemoryState) : List String :=
  (stores.flatMap fun s => s.collections.keys).dedup

theorem mem_collectionsOf {name : String} :
    name ∈ collectionsOf stores ↔ Known stores name := by
  rw [collectionsOf, List.mem_dedup, List.mem_flatMap, Known]
  refine exists_congr fun s => and_congr_right fun _ => ?_
  rw [KeyedMap.mem_keys_iff, MemoryState.collection, Option.isSome_iff_exists]

theorem mem_keysOf_spread {m : Cells ManagedEntry} (h : Spread stores m)
    {s : MemoryState} (hm : s.cells.held = m) (name key : String) :
    key ∈ keysOf s name ↔ ∃ x ∈ stores, key ∈ keysOf x name := by
  have hheld : ∀ x : MemoryState, key ∈ keysOf x name ↔
      ∃ entry, x.cells.held (name, key) = some entry := by
    intro x
    rw [mem_keysOf]
    simp [Cells.held, MemoryState.cells]
  simp only [hheld, hm]
  constructor
  · rintro ⟨entry, hentry⟩
    obtain ⟨x, hx, hshown⟩ := h.complete _ entry hentry
    exact ⟨x, hx, entry, hshown⟩
  · rintro ⟨x, hx, entry, hentry⟩
    exact ⟨entry, h.sound x hx _ entry hentry⟩

end Listings

/-- The stores behind the wrapper, and a single store. -/
structure Sides where
  stores : List MemoryState
  single : MemoryState
  written : List String

structure Moment where
  now : DateTime
  chance : Chance
  order : Order
  revision : Nat → Revision
  call : Call

def offered : Call → Bool
  | .keys .. | .collections .. => true
  | call => call.plain

def writes : Call → Bool
  | .put .. => true
  | .putMany keys .. => !keys.isEmpty
  | _ => false

section Runs

variable (w : RoutingWrapper)

def alone (m : Moment) (s : MemoryState) :
    Except Error Response × MemoryState :=
  runAlone w.config (fun i => some (m.revision i)) m.now m.order m.call s

def step (t : Sides) (m : Moment) : Option Sides :=
  if offered m.call then some
    { stores := (w.call m.now m.chance m.call t.stores).2
      single := (w.alone m t.single).2
      written :=
        if writes m.call && (w.alone m t.single).1.toBool then
          w.config.collectionName m.call.collection? :: t.written
        else t.written }
  else none

/-- The wrapper answers as the single store does.  An enumeration gives the
same number of names of the same kind; collections that nothing was written
to are left aside. -/
def SameResult (t : Sides) (m : Moment) : Prop :=
  let r := (w.call m.now m.chance m.call t.stores).1
  let r' := (w.alone m t.single).1
  match m.call with
  | .keys collection limit =>
      let all := keysOf t.single (w.config.collectionName collection)
      Lists all (pageLen limit) r ∧ Lists all (pageLen limit) r'
  | .collections limit =>
      Lists (collectionsOf t.stores) (pageLen limit) r ∧
        Lists t.single.collections.keys (pageLen limit) r' ∧
        ∀ name ∈ t.written,
          name ∈ collectionsOf t.stores ∧ name ∈ t.single.collections.keys
  | _ => r = r'

/-- The limit is not zero where there is something to list, and lists that
are not cut fit on a page; a batch that is empty has a valid TTL; a put evicts
nothing from the single store; and no store but the one that the router names
holds a key of the call. -/
def Fits (t : Sides) (m : Moment) : Prop :=
  match m.call with
  | .keys collection limit =>
      let all := keysOf t.single (w.config.collectionName collection)
      all.length ≤ pageLimit ∧ (limit = some 0 → all = [])
  | .collections limit =>
      let all := collectionsOf t.stores
      (limit = some 0 → all = []) ∧
        (all.length ≤ pageLimit ∨ ∃ l, limit = some l ∧ l ≤ pageLimit)
  | call =>
      Accepted m.now call ∧
        call.Spacious w.config m.now t.single.cells.held ∧
        ∀ key ∈ call.named, w.Settled t.stores call.collection? key

end Runs

/-! ## Runs -/

section Refinement

variable {w : RoutingWrapper} {now : DateTime} {n : Nat} {t : Sides}
  {m : Moment}

theorem exists_forall₂ {α β : Type} {R : α → β → Prop} {as : List α}
    {bs : List β} (h : List.Forall₂ R as bs) {a : α} (ha : a ∈ as) :
    ∃ b ∈ bs, R a b := by
  induction h with
  | nil => cases ha
  | cons hfirst _ ih =>
      rcases List.mem_cons.mp ha with rfl | ha
      · exact ⟨_, List.mem_cons_self .., hfirst⟩
      · obtain ⟨b, hb, hrest⟩ := ih ha
        exact ⟨b, List.mem_cons_of_mem _ hb, hrest⟩

theorem Spread.same {stores stores' : List MemoryState}
    {m : Cells ManagedEntry} (h : Spread stores m)
    (hsame : List.Forall₂ (fun s s' => s'.cells = s.cells ∧ Retains s s')
      stores stores') : Spread stores' m := by
  constructor
  · intro s' hs' cell entry hentry
    obtain ⟨s, hs, hcells, -⟩ := exists_forall₂ hsame.flip hs'
    exact h.sound s hs cell entry (hcells ▸ hentry)
  · intro cell entry hentry
    obtain ⟨s, hs, hheld⟩ := h.complete cell entry hentry
    obtain ⟨s', hs', hcells, -⟩ := exists_forall₂ hsame hs
    exact ⟨s', hs', hcells ▸ hheld⟩

theorem keepsKnown_same {stores stores' : List MemoryState}
    (hsame : List.Forall₂ (fun s s' => s'.cells = s.cells ∧ Retains s s')
      stores stores') : KeepsKnown stores stores' := by
  rintro name ⟨s, hs, hpresent⟩
  obtain ⟨s', hs', -, hkept⟩ := exists_forall₂ hsame hs
  exact ⟨s', hs', hkept name hpresent⟩

theorem held_of_written {name : String} {m : Cells ManagedEntry} {call : Call}
    (hwrites : writes call = true)
    (hok : (Cells.apply now name call m).1.toBool = true) :
    ∃ key entry, (Cells.apply now name call m).2 (name, key) = some entry := by
  cases call with
  | put key value collection ttl =>
      simp only [Cells.apply, Cells.put] at hok ⊢
      cases hentry : ManagedEntry.ofTtl now value ttl with
      | error error =>
          rw [hentry] at hok
          cases hok
      | ok entry => exact ⟨key, entry, Function.update_self ..⟩
  | putMany keys values collection ttl =>
      simp only [Cells.apply, Cells.putMany] at hok ⊢
      split at hok
      · cases hok
      · rename_i hlength
        rw [if_neg hlength]
        split at hok
        · cases hok
        · simp only [Cells.putAll] at hok ⊢
          cases hentries : values.mapM fun value =>
              ManagedEntry.ofTtl now value ttl with
          | error error =>
              rw [hentries] at hok
              cases hok
          | ok entries =>
              obtain ⟨key, keys, rfl⟩ := List.exists_cons_of_ne_nil
                (by simpa [writes] using hwrites : keys ≠ [])
              have hcount := length_of_mapM hentries
              obtain ⟨entry, entries, rfl⟩ := List.exists_cons_of_length_pos
                (l := entries) (by
                  rw [hcount, ← not_ne_iff.mp hlength]
                  exact Nat.succ_pos _)
              have hsome := @Cells.insertAll_keeps _ name
                (keys.zip entries)
                (Function.update m (name, key) (some entry))
                (name, key) (by rw [Function.update_self]; rfl)
              exact ⟨key, Option.isSome_iff_exists.mp hsome⟩
  | _ => cases hwrites

/-- What holds of the two sides in every state of a run. -/
structure Refines (w : RoutingWrapper) (n : Nat) (t : Sides) : Prop where
  length : t.stores.length = n
  spread : Spread t.stores t.single.cells.held
  written : ∀ name ∈ t.written,
    Known t.stores name ∧ (t.single.collection name).isSome = true

theorem refines_plain (hseed : w.config.seed = none)
    (hrange : ∀ collection key, w.router collection key < n)
    (h : w.Refines n t) (hcall : m.call.plain = true)
    (haccepted : Accepted m.now m.call)
    (hroom : m.call.Spacious w.config m.now t.single.cells.held)
    (hsettled : ∀ key ∈ m.call.named,
      w.Settled t.stores m.call.collection? key) :
    (w.call m.now m.chance m.call t.stores).1 = (w.alone m t.single).1 ∧
      ∀ t', w.step t m = some t' → w.Refines n t' := by
  obtain ⟨hresult, hforwarded⟩ := @call_spread w m.now m.chance t.stores
    t.single.cells.held hseed (h.length ▸ hrange) h.spread m.call hcall hroom
    haccepted hsettled
  obtain ⟨halone, hheld⟩ := @runAlone_cells w.config
    (fun i => some (m.revision i)) m.now m.order t.single m.call hroom hseed
    (fun _ => rfl) hcall
  refine ⟨hresult.trans halone.symm, fun t' ht' => ?_⟩
  have hoffered : offered m.call = true := by
    cases hm : m.call <;> rw [hm] at hcall <;> first | rfl | cases hcall
  rw [step, if_pos hoffered, Option.some.injEq] at ht'
  subst ht'
  have hspread := hforwarded.spread
  rw [← hheld] at hspread
  refine ⟨hforwarded.length.trans h.length, hspread, fun name hname => ?_⟩
  have hold : name ∈ t.written →
      Known (w.call m.now m.chance m.call t.stores).2 name ∧
        ((w.alone m t.single).2.collection name).isSome = true := fun hmem =>
    ⟨hforwarded.known name (h.written name hmem).1,
      runAlone_retains hseed (allowed_of_plain hcall) name
        (h.written name hmem).2⟩
  simp only at hname
  split at hname
  · rename_i hnew
    rcases List.mem_cons.mp hname with rfl | hmem
    · rw [Bool.and_eq_true, alone, halone] at hnew
      obtain ⟨key, entry, hentry⟩ := held_of_written hnew.1 hnew.2
      rw [← hheld] at hentry
      obtain ⟨s, hs, hshown⟩ := hspread.complete _ entry hentry
      exact ⟨⟨s, hs, present_of_held hshown⟩, present_of_held hentry⟩
    · exact hold hmem
  · exact hold hname

theorem Refines.same (hseed : w.config.seed = none) (h : w.Refines n t)
    (hcall : m.call.plain = false)
    (hallowed : m.call.allowed false = true)
    (hsame : List.Forall₂ (fun s s' => s'.cells = s.cells ∧ Retains s s')
      t.stores (w.call m.now m.chance m.call t.stores).2)
    (hcells : (w.alone m t.single).2.cells = t.single.cells) (t' : Sides)
    (ht' : w.step t m = some t') : w.Refines n t' := by
  rw [step] at ht'
  split at ht'
  · cases ht'
    have hwrites : writes m.call = false := by
      cases hm : m.call <;> rw [hm] at hcall <;> first | rfl | cases hcall
    refine ⟨hsame.length_eq.symm.trans h.length, ?_, fun name hname => ?_⟩
    · simp only [hcells]
      exact h.spread.same hsame
    · simp only [hwrites, Bool.false_and, Bool.false_eq_true, if_false]
        at hname
      exact ⟨keepsKnown_same hsame name (h.written name hname).1,
        runAlone_retains hseed hallowed name (h.written name hname).2⟩
  · cases ht'

theorem refines_step (hseed : w.config.seed = none)
    (hrange : ∀ collection key, w.router collection key < n)
    (h : w.Refines n t) (hfits : w.Fits t m) (hoffered : offered m.call) :
    w.SameResult t m ∧ ∀ t', w.step t m = some t' → w.Refines n t' := by
  obtain ⟨now, chance, order, revision, call⟩ := m
  cases call with
  | subscribe | cull | destroyCollection | destroy | getWithRevision
  | compareAndSwap | compareAndDelete => cases hoffered
  | get | ttl | put | delete | getMany | ttlMany | putMany | deleteMany =>
      exact refines_plain hseed hrange h rfl hfits.1 hfits.2.1 hfits.2.2
  | keys collection limit =>
      obtain ⟨hpage, hzero⟩ := hfits
      obtain ⟨hlists, hsame⟩ := @enumerate_lists w now chance _ _ _ _ _
        (AList.keys_nodup _)
        (mem_keysOf_spread h.spread rfl (w.config.collectionName collection))
        hzero (.inl hpage) fun s _ => shows_keys hseed collection s
      have halone := @runAlone_keys w.config (fun i => some (revision i)) now
        order t.single hseed collection limit
      refine ⟨⟨hlists, ?_⟩, h.same hseed rfl rfl hsame ?_⟩
      · rw [alone, halone]
        exact lists_take (AList.keys_nodup _) (Order.keys_perm ..) _
      · rw [alone, halone]
        exact cells_ensureCollection { t.single with setupComplete := true } _
  | collections limit =>
      obtain ⟨hzero, hpage⟩ := hfits
      obtain ⟨hlists, hsame⟩ := @enumerate_lists w now chance _ _ _ _ _
        (List.nodup_dedup _) (fun name => by
          rw [List.mem_dedup, List.mem_flatMap]) hzero hpage
        fun s _ => shows_collections hseed s
      have halone := @runAlone_collections w.config
        (fun i => some (revision i)) now order t.single hseed limit
      refine ⟨⟨hlists, ?_, fun name hname => ?_⟩,
        h.same hseed rfl rfl hsame ?_⟩
      · rw [alone, halone]
        exact lists_take (AList.keys_nodup _) (Order.keys_perm ..) _
      · obtain ⟨hknown, hpresent⟩ := h.written name hname
        exact ⟨mem_collectionsOf.mpr hknown,
          KeyedMap.mem_keys_iff.mpr (Option.isSome_iff_exists.mp hpresent)⟩
      · rw [alone, halone]
        rfl

def Sides.start (n : Nat) : Sides := ⟨List.replicate n .empty, .empty, []⟩

theorem refines_start (w : RoutingWrapper) (n : Nat) :
    w.Refines n (.start n) := by
  refine ⟨List.length_replicate, ⟨?_, ?_⟩, by simp [Sides.start]⟩
  · intro s hs cell entry hentry
    rw [List.eq_of_mem_replicate hs] at hentry
    exact hentry
  · intro cell entry hentry
    cases hentry

/-- In every run whose steps fit, the wrapper answers as a single store. -/
theorem routed_results (w : RoutingWrapper)
    (hseed : w.config.seed = none) (n : Nat)
    (hrange : ∀ collection key, w.router collection key < n)
    (moments : List Moment) (hoffered : ∀ m ∈ moments, offered m.call = true)
    (hfits : Along w.step w.Fits (.start n) moments) :
    Along w.step w.SameResult (.start n) moments := by
  have hcond : Along w.step (fun t m => w.Fits t m ∧ offered m.call = true)
      (.start n) moments :=
    hfits.and (along_of_at_step fun as a bs _ heq _ =>
      hoffered a (by simp [heq]))
  exact along_of_invariant (P := w.Refines n)
    (fun t m t' h hm ht' =>
      (refines_step hseed hrange h hm.1 hm.2).2 t' ht')
    (fun t m h hm => (refines_step hseed hrange h hm.1 hm.2).1)
    (refines_start w n) hcond

end Refinement

section Zero

def halves : RoutingWrapper :=
  ⟨⟨none, "c", none⟩, fun _ key => key.length % 2⟩

def moment (call : Call) : Moment :=
  ⟨.epoch, ⟨fun _ => .stored, fun _ _ => .fill 0⟩, .stored, fun _ => .fill 0,
    call⟩

abbrev putKey : Moment := moment (.put "k" .null none none)

def cramped : RoutingWrapper := ⟨⟨some 1, "c", none⟩, halves.router⟩

theorem routed_results_put :
    Along cramped.step cramped.SameResult (.start 2)
      [putKey, moment (.keys none (some 1))] := by
  refine routed_results cramped rfl 2 (fun _ _ => Nat.mod_lt _ (by decide))
    _ (by decide) ⟨⟨trivial, fun max hmax => ?_, ?_⟩,
      fun t ht => ⟨?_, fun _ _ => trivial⟩⟩
  · cases hmax
    refine ⟨fun _ _ hentry => ?_, {"k"}, by decide, by simp,
      fun _ _ hentry => by cases hentry⟩
    cases hentry
    rfl
  · intro key _ i s hs _
    have hempty : s = .empty :=
      List.eq_of_mem_replicate (List.mem_of_getElem? hs)
    rw [hempty]
    rfl
  · cases ht
    exact ⟨by decide +kernel, fun h => by cases h⟩

def OnePage (t : Sides) (_ : Moment) : Prop :=
  ∀ entry ∈ t.single.collections.entries, entry.2.keys.length ≤ pageLimit

instance (t : Sides) (m : Moment) : Decidable (OnePage t m) :=
  inferInstanceAs (Decidable (∀ entry ∈ t.single.collections.entries,
    entry.2.keys.length ≤ pageLimit))

def AlwaysSame (w : RoutingWrapper) (n : Nat) : Prop :=
  ∀ moments, (∀ m ∈ moments, offered m.call = true) →
    Along w.step OnePage (.start n) moments →
    Along w.step w.SameResult (.start n) moments

/-- With a limit of zero one key is listed. -/
theorem limit_zero_lists_key :
    ¬ ∀ (w : RoutingWrapper) n, w.config.maxEntriesPerCollection = none →
      w.config.seed = none →
      (∀ collection key, w.router collection key < n) → AlwaysSame w n := by
  intro h
  have hsame := h halves 2 rfl rfl (fun _ _ => Nat.mod_lt _ (by decide))
    [putKey, moment (.keys none (some 0))] (by decide) (by decide +kernel)
  obtain ⟨⟨names, hnames, -, -, hlength⟩, -⟩ := (hsame.2 _ rfl).1
  have hlisted : names = ["k"] := by
    have heq : Except.ok (Response.names names) =
        (Except.ok (Response.names ["k"]) : Except Error Response) :=
      hnames.symm.trans (by decide +kernel)
    cases heq
    rfl
  rw [hlisted] at hlength
  exact absurd hlength (by decide +kernel)

end Zero

end RoutingWrapper

end OpenKeyV.Wrapper
