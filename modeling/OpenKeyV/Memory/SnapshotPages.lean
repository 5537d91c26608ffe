import OpenKeyV.Entry.Lifetime
import OpenKeyV.Memory.Contents
import OpenKeyV.Memory.SnapshotCopy
import OpenKeyV.Memory.Tokens
import OpenKeyV.Library.Machine
import Mathlib.Algebra.Order.BigOperators.Group.List

/-!
# Completeness of a snapshot

A copy that succeeds is complete exactly where the enumeration of its source
fits one page of collections and one page of keys for each collection.
`copy_snapshot` asks for no second page, and what lies beyond the first one is
neither copied nor counted.
-/

namespace OpenKeyV.Memory

open OpenKeyV.Library

section Runs

variable {τ : Type} {options : MigrationOptions} {s : MemoryState}
  {now : DateTime} {holds : τ → String → String → Option (Value × Bool)}
  {t₀ : τ} {handled : List (String × String)} {m m' : Copy τ}
  {config : MemoryConfig} {rng : Nat → Option Revision} {target : Target τ}
  {grants : F64 → Prop}

def collectionsPage (s : MemoryState) (order : Order) : List String :=
  (order.keys "" s.collections.keys).take pageLimit

def Copy.listed (s : MemoryState) (order : Order) (t : τ) : Copy τ :=
  ⟨s, t, .enumerating (collectionsPage s order), .zero⟩

theorem mem_collections {collection : String} :
    collection ∈ s.collections.keys ↔
      (s.collection collection).isSome = true := by
  rw [KeyedMap.mem_keys_iff, Option.isSome_iff_exists]
  rfl

theorem copying_listed (order : Order) (t₀ : τ) :
    Copying options s now holds t₀ [] (Copy.listed s order t₀) where
  source := rfl
  kept := ⟨rfl, List.nodup_nil, by simp, by simp, fun _ _ _ => rfl⟩
  sound := trivial
  scanned := rfl
  listed := fun _ hmem => mem_collections.mp
    ((order.keys_perm _ _).mem_iff.mp (List.mem_of_mem_take hmem))
  rest := ((order.keys_perm _ _).nodup_iff.mpr
    (AList.keys_nodup _)).sublist (List.take_sublist ..)
  unread := List.nodup_nil
  ahead := by simp [Copy.listed, CopyPhase.unread]
  apart := by simp

theorem run_listed {s₀ : MemoryState} {order : Order}
    (hsetup : setup config rng now order s₀ = (.ok (), s))
    {labels : List (DateTime × Order)}
    (hrun : run (Copy.step config rng options target) (Copy.start s₀ t₀)
      ((now, order) :: labels) = some m)
    {result : Except Error Unit} (hphase : m.phase = .finished result) :
    ∃ label rest, labels = label :: rest ∧
      run (Copy.step config rng options target) (Copy.listed s label.2 t₀)
        rest = some m := by
  obtain ⟨m₁, hfirst, hrun⟩ := run_cons_eq_some.mp hrun
  simp only [Copy.step, Copy.start, hsetup, Option.some.injEq] at hfirst
  subst hfirst
  cases labels with
  | nil =>
      cases hrun
      cases hphase
  | cons label rest =>
      obtain ⟨m₂, hsecond, hrun⟩ := run_cons_eq_some.mp hrun
      cases hsecond
      exact ⟨label, rest, rfl, hrun⟩

theorem listed_run {s₀ : MemoryState} {order : Order}
    (hsetup : setup config rng now order s₀ = (.ok (), s))
    {label : DateTime × Order} {labels : List (DateTime × Order)}
    (hrun : run (Copy.step config rng options target)
      (Copy.listed s label.2 t₀) labels = some m) :
    run (Copy.step config rng options target) (Copy.start s₀ t₀)
      ((now, order) :: label :: labels) = some m := by
  refine run_cons_eq_some.mpr ⟨⟨s, t₀, .listing, .zero⟩, ?_, ?_⟩
  · simp only [Copy.step, Copy.start, hsetup]
  · exact run_cons_eq_some.mpr ⟨Copy.listed s label.2 t₀, rfl, hrun⟩

theorem live_of_calm {labels : List (DateTime × Order)}
    (h : Calm s now labels) {label : DateTime × Order}
    (hlabel : label ∈ labels) : s.live label.1 = s.live now := by
  funext name key
  unfold MemoryState.live
  cases hentry : s.entry name key with
  | none => rfl
  | some stored =>
      simp only [Option.filter, h label hlabel name key stored hentry]

/-! ## One page is enough -/

def InReach (options : MigrationOptions) (s : MemoryState) (now : DateTime)
    (handled : List (String × String)) (phase : CopyPhase) : Prop :=
  ∀ p ∈ dueEntries options s now,
    p ∈ handled ∨ p ∈ phase.unread ∨ p.1 ∈ phase.rest

theorem exists_collection {p : String × String}
    (hp : p ∈ dueEntries options s now) :
    ∃ col, s.collection p.1 = some col ∧ p.2 ∈ col.keys := by
  obtain ⟨stored, hlive⟩ :=
    Option.isSome_iff_exists.mp (mem_dueEntries.mp hp).2
  obtain ⟨hentry, _⟩ := Option.filter_eq_some_iff.mp hlive
  obtain ⟨col, hcol, hlookup⟩ := Option.bind_eq_some_iff.mp hentry
  exact ⟨col, hcol, KeyedMap.mem_keys_iff.mpr ⟨stored, hlookup⟩⟩

theorem mem_page {p : String × String} (hp : p ∈ dueEntries options s now)
    (hpageable : Pageable options s now) (order : Order) :
    p.2 ∈ page s order p.1 := by
  obtain ⟨col, hcol, hkey⟩ := exists_collection hp
  have hperm := order.keys_perm p.1 col.keys
  have hsize := (hpageable p hp).2 col hcol
  unfold page
  rw [hcol, Option.getD_some, List.take_of_length_le]
  · exact hperm.mem_iff.mpr hkey
  · exact hperm.length_eq.trans_le hsize

theorem inReach_listed (hpageable : Pageable options s now) (order : Order)
    (t₀ : τ) : InReach options s now [] (Copy.listed s order t₀).phase := by
  intro p hp
  refine .inr (.inr ?_)
  obtain ⟨col, hcol, _⟩ := exists_collection hp
  have hperm := order.keys_perm "" s.collections.keys
  change p.1 ∈ collectionsPage s order
  unfold collectionsPage
  rw [List.take_of_length_le]
  · exact hperm.mem_iff.mpr (mem_collections.mpr (by simp [hcol]))
  · exact hperm.length_eq.trans_le (hpageable p hp).1

theorem Advance.inReach {order : Order} {handled' : List (String × String)}
    (h : Advance options s now holds t₀ order handled m handled' m')
    (hpageable : Pageable options s now)
    (hreach : InReach options s now handled m.phase) :
    InReach options s now handled' m'.phase := by
  intro p hp
  rcases hreach p hp with hmem | hmem | hmem
  · exact (h.covers p hp (.inl hmem)).imp id .inl
  · exact (h.covers p hp (.inr hmem)).imp id .inl
  · rcases h.opens p hp hmem with hmem | hmem | hout
    · exact .inr (.inr hmem)
    · exact .inr (.inl hmem)
    · exact absurd (mem_page hp hpageable order) hout

theorem Copying.copied (h : Copying options s now holds t₀ handled m)
    (hreach : InReach options s now handled m.phase)
    (hphase : m.phase = .finished (.ok ())) :
    Copied options s now holds t₀ m := by
  have hhandled : ∀ p, p ∈ handled ↔ p ∈ dueEntries options s now := by
    intro p
    refine ⟨h.kept.due p, fun hp => ?_⟩
    simpa [hphase, CopyPhase.unread, CopyPhase.rest] using hreach p hp
  constructor
  · intro collection name key stored hroute hlive
    have hdue : (collection, key) ∈ dueEntries options s now :=
      mem_dueEntries.mpr ⟨by simp [hroute], by simp [hlive]⟩
    exact h.kept.held _ ((hhandled _).mpr hdue) name stored hroute hlive
  · intro name key hnone
    apply h.kept.spared
    rintro p hp hroute rfl
    have hlive := (mem_dueEntries.mp (h.kept.due p hp)).2
    rw [hnone p.1 hroute] at hlive
    cases hlive
  · simpa [hphase, CopyPhase.inHand] using h.scanned
  · rw [h.kept.copied]
    exact ((List.perm_ext_iff_of_nodup h.kept.nodup nodup_dueEntries).mpr
      hhandled).length_eq

def CopyPhase.Refused (phase : CopyPhase) : Prop :=
  ∃ error, phase = .finished (.error error)

theorem copied_of_pageable (hsetup : s.setupComplete = true)
    (haccepts : target.Accepts grants holds)
    (hpageable : Pageable options s now)
    {order : Order} {labels : List (DateTime × Order)}
    (hcalm : Calm s now labels)
    (hrun : run (Copy.step config rng options target)
      (Copy.listed s order t₀) labels = some m)
    (hphase : m.phase = .finished (.ok ())) :
    Copied options s now holds t₀ m := by
  have halong : Along (Copy.step config rng options target)
      (fun _ label => s.live label.1 = s.live now) (Copy.listed s order t₀)
      labels := along_of_at_step fun _ _ _ _ heq _ => live_of_calm hcalm
    (heq ▸ List.mem_append_right _ (List.mem_cons_self ..))
  have hend : m.phase.Refused ∨ ∃ handled,
      Copying options s now holds t₀ handled m ∧
        InReach options s now handled m.phase := by
    refine run_invariant (P := fun m : Copy τ => m.phase.Refused ∨
      ∃ handled, Copying options s now holds t₀ handled m ∧
        InReach options s now handled m.phase) ?_
      (.inr ⟨[], copying_listed order t₀, inReach_listed hpageable order t₀⟩)
      halong hrun
    rintro m label m' (⟨error, hrefused⟩ | ⟨handled, hcopying, hreach⟩) hlive
      hstep
    · rw [Copy.step, hrefused] at hstep
      cases hstep
    · by_cases hrefused : m'.phase.Refused
      · exact .inl hrefused
      · obtain ⟨handled', hadvance⟩ := hcopying.step hsetup haccepts hlive
          hstep fun error herror => hrefused ⟨error, herror⟩
        exact .inr ⟨handled', hadvance.copying,
          hadvance.inReach hpageable hreach⟩
  rcases hend with ⟨error, hrefused⟩ | ⟨handled, hcopying, hreach⟩
  · rw [hrefused] at hphase
    cases hphase
  · exact hcopying.copied hreach hphase

/-! ## Beyond the first page -/

def Order.postpone (e : String × String) : Order where
  toFun entries :=
    (entries.filter fun x => !decide (x = e)) ++ entries.filter (· = e)
  perm entries := by
    simpa using List.filter_append_perm (fun x => !decide (x = e)) entries

theorem keys_postpone (name key : String) (keys : List String) :
    (Order.postpone (name, key)).keys name keys =
      (keys.filter fun x => !decide (x = key)) ++ keys.filter (· = key) := by
  simp [Order.keys, Order.postpone, List.filter_map, Function.comp_def]

theorem postponed_not_listed {name key : String} {keys : List String}
    (hnodup : keys.Nodup) (hlong : pageLimit < keys.length) :
    key ∉ ((Order.postpone (name, key)).keys name keys).take pageLimit := by
  have hone : (keys.filter (· = key)).length ≤ 1 := by
    have hcount := List.nodup_iff_count_le_one.mp hnodup key
    rwa [List.count_eq_length_filter] at hcount
  have hsum := ((Order.postpone (name, key)).keys_perm name keys).length_eq
  rw [keys_postpone, List.length_append] at hsum
  rw [keys_postpone, List.take_append_of_le_length (by omega)]
  intro hmem
  have hne := (List.mem_filter.mp (List.mem_of_mem_take hmem)).2
  simp at hne

def Missed (s : MemoryState) (order : Order) (p : String × String)
    (handled : List (String × String)) (phase : CopyPhase) : Prop :=
  p ∉ handled ∧ p ∉ phase.unread ∧
    (p.1 ∈ phase.rest → p.2 ∉ page s order p.1)

theorem Advance.missed {order : Order} {handled' : List (String × String)}
    {p : String × String}
    (h : Advance options s now holds t₀ order handled m handled' m')
    (hmissed : Missed s order p handled m.phase) :
    Missed s order p handled' m'.phase := by
  obtain ⟨hhandled, hunread, hrest⟩ := hmissed
  refine ⟨fun hmem => ?_, fun hmem => ?_, fun hmem => ?_⟩
  · exact (h.handles p hmem).elim hhandled hunread
  · rcases h.lists p hmem with hmem | ⟨hmem, hlisted⟩
    · exact hunread hmem
    · exact hrest hmem hlisted
  · exact hrest (h.keeps _ hmem)

theorem exists_missed (t₀ : τ) (hpaged : ¬ Pageable options s now) :
    ∃ p ∈ dueEntries options s now, ∃ order : Order,
      Missed s order p [] (Copy.listed s order t₀).phase := by
  unfold Pageable at hpaged
  push Not at hpaged
  obtain ⟨p, hp, hpaged⟩ := hpaged
  refine ⟨p, hp, ?_⟩
  by_cases hsize : s.collections.size ≤ pageLimit
  · obtain ⟨col, hcol, hlong⟩ := hpaged hsize
    refine ⟨.postpone p, by simp, by simp [Copy.listed, CopyPhase.unread], ?_⟩
    intro _
    unfold page
    rw [hcol]
    exact postponed_not_listed (AList.keys_nodup col) hlong
  · refine ⟨.postpone ("", p.1), by simp,
      by simp [Copy.listed, CopyPhase.unread], fun hmem => absurd hmem ?_⟩
    exact postponed_not_listed (AList.keys_nodup _) (not_le.mp hsize)

/-! ## Every copy can finish -/

def cost (s : MemoryState) (collection : String) : Nat :=
  3 * ((s.collection collection).getD ∅).size + 2

def CopyPhase.remaining (s : MemoryState) : CopyPhase → Nat
  | .opening | .listing | .finished _ => 0
  | .enumerating rest => (rest.map (cost s)).sum + 1
  | .reading _ _ keys rest => 3 * keys.length + (rest.map (cost s)).sum + 2
  | .putting _ _ items keys rest =>
      items.length + 3 * keys.length + (rest.map (cost s)).sum + 3
  | .puttingMany _ _ _ keys rest =>
      3 * keys.length + (rest.map (cost s)).sum + 3

theorem exists_step {label : DateTime × Order}
    (h : ∀ result, m.phase ≠ .finished result) :
    ∃ m', m.step config rng options target label = some m' := by
  obtain ⟨source, t, phase, report⟩ := m
  cases phase with
  | opening =>
      simp only [Copy.step]
      split <;> exact ⟨_, rfl⟩
  | listing => exact ⟨_, rfl⟩
  | enumerating collections =>
      cases collections with
      | nil => exact ⟨_, rfl⟩
      | cons collection rest =>
          simp only [Copy.step]
          split
          · split <;> exact ⟨_, rfl⟩
          · exact ⟨_, rfl⟩
  | reading collection name keys rest =>
      cases keys with
      | nil => exact ⟨_, rfl⟩
      | cons key keys =>
          simp only [Copy.step]
          split <;> exact ⟨_, rfl⟩
  | putting collection name items left rest =>
      obtain _ | ⟨⟨key, _ | ⟨value, ttl⟩⟩, items⟩ := items <;> exact ⟨_, rfl⟩
  | puttingMany collection name items left rest => exact ⟨_, rfl⟩
  | finished result => exact absurd rfl (h result)

theorem Copying.remaining_lt {label : DateTime × Order}
    (hsetup : s.setupComplete = true)
    (h : Copying options s now holds t₀ handled m)
    (hstep : m.step config rng options target label = some m') :
    m'.phase.remaining s < m.phase.remaining s := by
  have hsound := h.sound
  have hopen : m.phase ≠ .opening := by
    intro hphase
    rw [hphase] at hsound
    exact hsound
  have hcopies := step_copies (h.source ▸ hsetup) hopen hstep
  have hchunk := options.chunkSize_pos
  generalize hphase : m.phase = phase at hcopies hsound
  cases hcopies with
  | listed => exact hsound.elim
  | readTtls collection name keys rest _ hkeys =>
      have hpos := List.length_pos_iff.mpr hkeys
      simp only [CopyPhase.remaining, ttlItems, List.length_map,
        List.length_take, List.length_drop]
      omega
  | readValues collection name keys rest items _ hkeys _ =>
      have hpos := List.length_pos_iff.mpr hkeys
      cases items <;>
        simp only [CopyPhase.remaining, List.length_drop, List.isEmpty_nil,
          List.isEmpty_cons, if_true, if_false, Bool.false_eq_true] <;>
        omega
  | enumerated collection name rest _ _ =>
      rw [h.source]
      have hpage : (page s label.2 collection).length ≤
          ((s.collection collection).getD ∅).size := by
        refine (List.length_take_le' ..).trans ?_
        exact (label.2.keys_perm _ _).length_eq.le
      unfold page at hpage
      simp only [CopyPhase.remaining, cost, List.map_cons, List.sum_cons]
      omega
  | _ =>
      simp only [CopyPhase.remaining, List.map_cons, List.sum_cons, cost,
        List.length_cons, List.length_nil, List.map_nil, List.sum_nil]
      omega

/-- The lifetimes that were read and not written yet are granted. -/
def CopyPhase.Granted (grants : F64 → Prop) : CopyPhase → Prop
  | .putting _ _ items _ _ => ∀ key value seconds,
      (key, some (value, some seconds)) ∈ items → grants seconds
  | _ => True

theorem Copying.granted {order : Order} (hsetup : s.setupComplete = true)
    (haccepts : target.Accepts grants holds)
    (haffordable : Affordable grants options s now)
    (h : Copying options s now holds t₀ handled m)
    (hgranted : m.phase.Granted grants)
    (hstep : m.step config rng options target (now, order) = some m') :
    m'.phase.Granted grants ∧ ¬ m'.phase.Refused := by
  have hsound := h.sound
  have hunread := h.unread
  have hopen : m.phase ≠ .opening := by
    intro hphase
    rw [hphase] at hsound
    exact hsound
  have hcopies := step_copies (h.source ▸ hsetup) hopen hstep
  generalize hphase : m.phase = phase at hcopies hsound hgranted hunread
  cases hcopies with
  | listed => exact hsound.elim
  | ended | passed | enumerated | drained | written | putMany =>
      exact ⟨trivial, by rintro ⟨error, ⟨⟩⟩⟩
  | readTtls collection name keys rest hpreserve _ =>
      refine ⟨fun key value seconds hitem => ?_, by rintro ⟨error, ⟨⟩⟩⟩
      obtain ⟨key', -, heq⟩ := List.mem_map.mp hitem
      obtain ⟨rfl, hfound⟩ := Prod.mk.inj heq
      obtain ⟨stored, hlive, hread⟩ := Option.map_eq_some_iff.mp hfound
      rw [h.source] at hlive
      have hdue : (collection, key') ∈ dueEntries options s now := by
        refine mem_dueEntries.mpr ⟨?_, ?_⟩
        · rw [hsound.1]
          rfl
        · rw [hlive]
          rfl
      exact haffordable hpreserve _ hdue stored hlive seconds
        (Prod.mk.inj hread).2
  | readValues collection name keys rest items _ _ _ =>
      cases items <;> exact ⟨trivial, by rintro ⟨error, ⟨⟩⟩⟩
  | skipped collection name key items left rest =>
      refine ⟨fun key' value seconds hitem => ?_, by rintro ⟨error, ⟨⟩⟩⟩
      exact hgranted key' value seconds (List.mem_cons_of_mem _ hitem)
  | put collection name key value ttl items left rest t _ =>
      refine ⟨fun key' value' seconds hitem => ?_, by rintro ⟨error, ⟨⟩⟩⟩
      exact hgranted key' value' seconds (List.mem_cons_of_mem _ hitem)
  | putRefused collection name key value ttl items left rest error t hput =>
      obtain ⟨t', hput'⟩ := haccepts.granted key value name ttl m.target (by
        rintro seconds rfl
        exact hgranted key value seconds List.mem_cons_self)
      cases hput.symm.trans hput'
  | putManyRefused collection name items left rest error t hput =>
      simp only [CopyPhase.unread, List.map_append] at hunread
      obtain ⟨t', hput'⟩ := haccepts.grantedMany items name m.target
        (List.Nodup.of_map _ (List.nodup_append.mp hunread).1)
      cases hput.symm.trans hput'

theorem Copying.not_copied {p : String × String}
    (h : Copying options s now holds t₀ handled m)
    (hp : p ∈ dueEntries options s now) (hout : p ∉ handled) :
    ¬ Copied options s now holds t₀ m := by
  intro hcopied
  have hnodup : (p :: handled).Nodup := List.nodup_cons.mpr ⟨hout, h.kept.nodup⟩
  have hsub : p :: handled ⊆ dueEntries options s now :=
    List.cons_subset.mpr ⟨hp, h.kept.due⟩
  have hlength := (List.subperm_of_subset hnodup hsub).length_le
  have hcount := hcopied.copied
  rw [h.kept.copied] at hcount
  rw [List.length_cons] at hlength
  omega

theorem exists_finished (config : MemoryConfig) (rng : Nat → Option Revision)
    (order : Order) {p : String × String}
    (hsetup : s.setupComplete = true)
    (haccepts : target.Accepts grants holds)
    (haffordable : Affordable grants options s now)
    (hcopying : Copying options s now holds t₀ handled m)
    (hgranted : m.phase.Granted grants)
    (hmissed : Missed s order p handled m.phase) :
    ∃ units m', run (fun (m : Copy τ) (_ : Unit) =>
        m.step config rng options target (now, order)) m units = some m' ∧
      (∃ handled', Copying options s now holds t₀ handled' m' ∧
        m'.phase.Granted grants ∧ Missed s order p handled' m'.phase) ∧
      ∃ result, m'.phase = .finished result := by
  apply exists_run_to
    (fun m : Copy τ => ∃ handled, Copying options s now holds t₀ handled m ∧
      m.phase.Granted grants ∧ Missed s order p handled m.phase)
    (fun m => ∃ result, m.phase = .finished result)
    (fun m => m.phase.remaining s)
  · rintro m ⟨handled, hcopying, hgranted, hmissed⟩ hgoal
    obtain ⟨m', hstep⟩ :=
      exists_step fun result hphase => hgoal ⟨result, hphase⟩
    obtain ⟨hgranted', hok⟩ := hcopying.granted hsetup haccepts haffordable
      hgranted hstep
    obtain ⟨handled', hadvance⟩ := hcopying.step hsetup haccepts rfl hstep
      fun error herror => hok ⟨error, herror⟩
    exact ⟨(), m', hstep,
      ⟨handled', hadvance.copying, hgranted', hadvance.missed hmissed⟩,
      hcopying.remaining_lt hsetup hstep⟩
  · exact ⟨handled, hcopying, hgranted, hmissed⟩

theorem exists_incomplete {s₀ : MemoryState} {order : Order}
    (hsetup : setup config rng now order s₀ = (.ok (), s))
    (haccepts : target.Accepts grants holds)
    (haffordable : Affordable grants options s now) (t₀ : τ)
    (hpaged : ¬ Pageable options s now) :
    ∃ labels m, Calm s now labels ∧
      run (Copy.step config rng options target) (Copy.start s₀ t₀)
        ((now, order) :: labels) = some m ∧
      m.phase = .finished (.ok ()) ∧ ¬ Copied options s now holds t₀ m := by
  obtain ⟨p, hp, hidden, hmissed⟩ := exists_missed t₀ hpaged
  let label : DateTime × Order := (now, hidden)
  have hlisted : Copying options s now holds t₀ []
      (Copy.listed s hidden t₀) := copying_listed hidden t₀
  obtain ⟨units, m, hrun, ⟨handled, hcopying, -, hmissed⟩, result, hphase⟩ :=
    exists_finished config rng hidden (setup_setupComplete hsetup) haccepts
      haffordable hlisted trivial hmissed
  have hsound := hcopying.sound
  rw [hphase] at hsound
  refine ⟨label :: units.map fun _ => label, m, ?_, ?_,
    hphase.trans (congrArg _ hsound), hcopying.not_copied hp hmissed.1⟩
  · intro later hlater name key stored _
    rcases List.mem_cons.mp hlater with rfl | hlater
    · rfl
    · obtain ⟨_, _, rfl⟩ := List.mem_map.mp hlater
      rfl
  · apply listed_run hsetup
    rw [run_map]
    exact hrun

end Runs

/-- Every copy that succeeds while nothing expires is complete. -/
def LosesNothing {τ : Type} (config : MemoryConfig)
    (rng : Nat → Option Revision) (options : MigrationOptions)
    (target : Target τ)
    (holds : τ → String → String → Option (Value × Bool))
    (s₀ s : MemoryState) (now : DateTime) (order : Order) (t₀ : τ) : Prop :=
  ∀ labels m, Calm s now labels →
    run (Copy.step config rng options target) (Copy.start s₀ t₀)
      ((now, order) :: labels) = some m →
    m.phase = .finished (.ok ()) → Copied options s now holds t₀ m

/-- A snapshot of an undisturbed store into a target that accepts its writes
loses nothing, whenever it succeeds, exactly where the enumeration fits its
pages. -/
theorem snapshot_loses_nothing_iff {τ : Type} (config : MemoryConfig)
    (rng : Nat → Option Revision) (options : MigrationOptions)
    (target : Target τ) (grants : F64 → Prop)
    (holds : τ → String → String → Option (Value × Bool))
    (s₀ s : MemoryState) (now : DateTime) (order : Order) (t₀ : τ)
    (hsetup : setup config rng now order s₀ = (.ok (), s))
    (haccepts : target.Accepts grants holds)
    (haffordable : Affordable grants options s now) :
    LosesNothing config rng options target holds s₀ s now order t₀ ↔
      Pageable options s now := by
  constructor
  · intro hcopied
    by_contra hpaged
    obtain ⟨labels, m, hcalm, hrun, hphase, hshort⟩ :=
      exists_incomplete hsetup haccepts haffordable t₀ hpaged
    exact hshort (hcopied labels m hcalm hrun hphase)
  · intro hpageable labels m hcalm hrun hphase
    obtain ⟨label, rest, rfl, hlisted⟩ := run_listed hsetup hrun hphase
    exact copied_of_pageable (setup_setupComplete hsetup) haccepts hpageable
      (fun later hlater => hcalm later (List.mem_cons_of_mem _ hlater))
      hlisted hphase

/-! ## Targets -/

section MemoryTarget

variable {config : MemoryConfig} {rng : Nat → Option Revision}
  {now : DateTime}

def MemoryState.kept (t : MemoryState) (name key : String) :
    Option (Value × Bool) :=
  (t.cells.held (name, key)).map fun entry =>
    (entry.value, entry.expiresAt.isNone)

theorem kept_ofTtl {value : Value} {ttl : Option F64} {entry : ManagedEntry}
    (h : ManagedEntry.ofTtl now value ttl = .ok entry) :
    (entry.value, entry.expiresAt.isNone) = (value, ttl.isNone) := by
  refine Prod.ext (ManagedEntry.value_of_ofTtl h) ?_
  cases ttl with
  | none =>
      cases h
      rfl
  | some seconds =>
      obtain ⟨expires, -, rfl⟩ := ManagedEntry.withTtl_eq_ok.mp h
      rfl

theorem putAll_permanent (name : String) (items : List (String × Value))
    (m : Cells ManagedEntry) :
    Cells.putMany now name (items.map Prod.fst) (items.map Prod.snd) none m =
      (.ok .unit, Cells.insertAll name
        (items.map fun item => (item.1, .new now item.2)) m) := by
  have hzip : (items.map Prod.fst).zip
      ((items.map Prod.snd).map (ManagedEntry.new now)) =
        items.map fun item => (item.1, .new now item.2) := by
    rw [List.map_map, List.zip_map', Function.comp_def]
  simp only [Cells.putMany, List.length_map, ne_eq, not_true_eq_false,
    if_false, Option.map_none, Cells.putAll, mapM_ofTtl_none, hzip]

theorem memoryTarget_accepts (hmax : config.maxEntriesPerCollection = none)
    (hseed : config.seed = none) (hrng : Supplied rng) (order : Order) :
    (memoryTarget config rng now order).Accepts
      (fun seconds =>
        ∃ expires, ManagedEntry.expirationAt now seconds = .ok expires)
      MemoryState.kept := by
  have hput : ∀ key value name ttl (t : MemoryState),
      SameHeld (runAlone config rng now order (.put key value (some name) ttl)
        t) (Cells.put now name key value ttl t.cells.held) :=
    fun key value name ttl t =>
      runAlone_cells (spacious_of_unbounded hmax) hseed hrng rfl
  have hputMany : ∀ (items : List (String × Value)) name (t : MemoryState),
      SameHeld (runAlone config rng now order (.putMany (items.map Prod.fst)
        (items.map Prod.snd) (some name) none) t)
        (.ok .unit, Cells.insertAll name
          (items.map fun item => (item.1, .new now item.2)) t.cells.held) :=
    fun items name t => putAll_permanent name items t.cells.held ▸
      runAlone_cells (spacious_of_unbounded hmax) hseed hrng rfl
  constructor
  case put =>
    intro key value name ttl t t' h
    obtain ⟨hresult, hcells⟩ := hput key value name ttl t
    obtain ⟨hok, rfl⟩ := Prod.mk.inj h
    rw [Cells.put] at hresult hcells
    cases hentry : ManagedEntry.ofTtl now value ttl with
    | error error =>
        simp only [hentry] at hresult
        rw [hresult] at hok
        cases hok
    | ok entry =>
        simp only [hentry] at hcells
        constructor
        · rw [MemoryState.kept, hcells, Function.update_self, Option.map_some,
            kept_ofTtl hentry]
        · intro name' key' hne
          rw [MemoryState.kept, hcells, Function.update_of_ne]
          · rfl
          · exact fun heq => hne (Prod.mk.inj heq)
  case putMany =>
    intro items name t t' hnodup h
    obtain ⟨-, hcells⟩ := hputMany items name t
    obtain ⟨-, rfl⟩ := Prod.mk.inj h
    have hkeys : ((items.map fun item =>
        (item.1, ManagedEntry.new now item.2)).map Prod.fst).Nodup := by
      rwa [List.map_map, Function.comp_def]
    constructor
    · intro item hitem
      rw [MemoryState.kept, hcells]
      exact congrArg _ (Cells.insertAll_mem hkeys _
        (List.mem_map_of_mem hitem))
    · intro name' key' hne
      rw [MemoryState.kept, hcells]
      refine congrArg _ (Cells.insertAll_other _ _ ?_)
      rintro other hother heq
      obtain ⟨item, hitem, rfl⟩ := List.mem_map.mp hother
      obtain ⟨rfl, rfl⟩ := Prod.mk.inj heq
      exact hne ⟨rfl, List.mem_map_of_mem hitem⟩
  case granted =>
    intro key value name ttl t hgrants
    obtain ⟨hresult, -⟩ := hput key value name ttl t
    have hentry : ∃ entry, ManagedEntry.ofTtl now value ttl = .ok entry := by
      cases ttl with
      | none => exact ⟨_, rfl⟩
      | some seconds =>
          obtain ⟨expires, hexpires⟩ := hgrants seconds rfl
          exact ⟨_, ManagedEntry.withTtl_eq_ok.mpr ⟨expires, hexpires, rfl⟩⟩
    obtain ⟨entry, hentry⟩ := hentry
    simp only [Cells.put, hentry] at hresult
    refine ⟨_, Prod.ext ?_ rfl⟩
    simp only [memoryTarget, hresult]
    rfl
  case grantedMany =>
    intro items name t _
    obtain ⟨hresult, -⟩ := hputMany items name t
    refine ⟨_, Prod.ext ?_ rfl⟩
    simp only [memoryTarget, hresult]
    rfl

end MemoryTarget

abbrev Plain := KeyedMap (String × String) (Value × Bool)

def plainTarget : Target Plain where
  put key value name ttl t :=
    (.ok (), t.insert (name, key) (value, ttl.isNone))
  putMany keys values name ttl t :=
    (.ok (), (keys.zip values).foldl
      (fun t item => t.insert (name, item.1) (item.2, ttl.isNone)) t)
  delete key name t := (.ok (), t.erase (name, key))

theorem lookup_insertAll (name : String) (permanent : Bool)
    (items : List (String × Value)) (hnodup : (items.map Prod.fst).Nodup)
    (t : Plain) :
    let t' := items.foldl
      (fun t item => t.insert (name, item.1) (item.2, permanent)) t
    (∀ item ∈ items, t'.lookup (name, item.1) = some (item.2, permanent)) ∧
      ∀ name' key', ¬ (name' = name ∧ key' ∈ items.map Prod.fst) →
        t'.lookup (name', key') = t.lookup (name', key') := by
  induction items generalizing t with
  | nil => simp
  | cons item items ih =>
      rw [List.map_cons, List.nodup_cons] at hnodup
      obtain ⟨hheld, hother⟩ :=
        ih hnodup.2 (t.insert (name, item.1) (item.2, permanent))
      refine ⟨List.forall_mem_cons.mpr ⟨?_, hheld⟩, ?_⟩
      · have hkept := hother name item.1 fun h => hnodup.1 h.2
        simpa using hkept
      · intro name' key' hne
        have hkept := hother name' key' fun h =>
          hne ⟨h.1, List.mem_cons_of_mem _ h.2⟩
        refine hkept.trans ?_
        rw [KeyedMap.lookup_insert_eq, if_neg]
        intro h
        cases h
        exact hne ⟨rfl, List.mem_cons_self ..⟩

theorem plainTarget_accepts :
    plainTarget.Accepts (fun _ => True)
      fun t name key => t.lookup (name, key) where
  put := by
    rintro key value name ttl t t' ⟨⟩
    refine ⟨by simp, fun name' key' hne => ?_⟩
    rw [KeyedMap.lookup_insert_eq, if_neg]
    intro h
    cases h
    exact hne ⟨rfl, rfl⟩
  putMany := by
    rintro items name t t' hnodup ⟨⟩
    have hzip : (items.map Prod.fst).zip (items.map Prod.snd) = items := by
      simp [List.zip_map']
    simp only [hzip]
    exact lookup_insertAll name true items hnodup t
  granted _ _ _ _ _ _ := ⟨_, rfl⟩
  grantedMany _ _ _ _ := ⟨_, rfl⟩

/-! ## Two sources -/

def oneKey : Collection :=
  (∅ : Collection).insert "k" ⟨.new .epoch (.binary [1]), .fill 0⟩

def crowdName (i : Nat) : String := String.ofList (List.replicate i 'c')

theorem crowdName_injective : Function.Injective crowdName := by
  intro i j h
  have hlength := congrArg List.length (String.ofList_injective h)
  simpa using hlength

def crowded (n : Nat) : MemoryState :=
  { MemoryState.empty with
    setupComplete := true
    collections :=
      ⟨(List.range n).map fun i => ⟨crowdName i, oneKey⟩, by
        have hnames : ((List.range n).map crowdName).Nodup :=
          List.nodup_range.map crowdName_injective
        simpa [List.NodupKeys, List.keys, Function.comp_def] using hnames⟩ }

theorem size_crowded (n : Nat) : (crowded n).collections.size = n := by
  simp [KeyedMap.size, crowded, AList.keys, List.keys]

theorem setup_crowded (n : Nat) :
    setup unseeded sampleSource .epoch .stored (crowded n) =
      (.ok (), crowded n) :=
  setup_complete rfl _ _

theorem collection_crowded {n : Nat} {name : String} {col : Collection} :
    (crowded n).collection name = some col ↔
      (∃ i < n, crowdName i = name) ∧ col = oneKey := by
  refine AList.mem_lookup_iff.trans (List.mem_map.trans ?_)
  constructor
  · rintro ⟨i, hi, heq⟩
    cases heq
    exact ⟨⟨i, List.mem_range.mp hi, rfl⟩, rfl⟩
  · rintro ⟨⟨i, hi, rfl⟩, rfl⟩
    exact ⟨i, List.mem_range.mpr hi, rfl⟩

theorem pageable_crowded_iff {n : Nat} :
    Pageable .default (crowded n) .epoch ↔ n ≤ pageLimit := by
  constructor
  · intro h
    by_contra hlarge
    have hcol : (crowded n).collection (crowdName 0) = some oneKey :=
      collection_crowded.mpr ⟨⟨0, by omega, rfl⟩, rfl⟩
    have hlive : (crowded n).live .epoch (crowdName 0) "k" =
        oneKey.lookup "k" := by
      simp only [MemoryState.live, MemoryState.entry, hcol]
      rfl
    have hdue : (crowdName 0, "k") ∈
        dueEntries .default (crowded n) .epoch :=
      mem_dueEntries.mpr ⟨rfl, hlive ▸ rfl⟩
    exact hlarge (size_crowded n ▸ (h _ hdue).1)
  · intro hle p _
    refine ⟨(size_crowded n).trans_le hle, fun col hcol => ?_⟩
    rw [(collection_crowded.mp hcol).2]
    decide

theorem affordable_crowded {n : Nat} {grants : F64 → Prop} :
    Affordable grants .default (crowded n) .epoch := by
  rintro - ⟨collection, key⟩ - stored hlive seconds httl
  obtain ⟨hentry, -⟩ := Option.filter_eq_some_iff.mp hlive
  obtain ⟨col, hcol, hlookup⟩ := Option.bind_eq_some_iff.mp hentry
  rw [(collection_crowded.mp hcol).2, oneKey,
    KeyedMap.lookup_insert_eq] at hlookup
  split at hlookup
  · cases hlookup
    cases httl
  · cases hlookup

def steadySource (_ : Nat) : Option Revision :=
  some (.fill 0)

/-- Two collections are copied into a memory store. -/
theorem snapshot_loses_nothing_two :
    LosesNothing unseeded sampleSource .default
      (memoryTarget unseeded steadySource .epoch .stored) MemoryState.kept
      (crowded 2) (crowded 2) .epoch .stored .empty :=
  (snapshot_loses_nothing_iff unseeded sampleSource .default
    (memoryTarget unseeded steadySource .epoch .stored)
    (fun seconds =>
      ∃ expires, ManagedEntry.expirationAt .epoch seconds = .ok expires)
    MemoryState.kept (crowded 2) (crowded 2) .epoch .stored .empty
    (setup_crowded 2)
    (memoryTarget_accepts rfl rfl (fun _ => rfl) .stored)
    affordable_crowded).mpr (pageable_crowded_iff.mpr (by decide))

/-- Of 10,001 collections one may be left behind. -/
theorem snapshot_omits_collection :
    ¬ LosesNothing unseeded sampleSource .default plainTarget
      (fun t name key => t.lookup (name, key)) (crowded 10001)
      (crowded 10001) .epoch .stored ∅ := by
  intro h
  have hpaged : ¬ Pageable .default (crowded 10001) .epoch := fun hpageable =>
    absurd (pageable_crowded_iff.mp hpageable) (by decide)
  obtain ⟨labels, m, hcalm, hrun, hphase, hshort⟩ :=
    exists_incomplete (setup_crowded 10001) plainTarget_accepts
      affordable_crowded ∅ hpaged
  exact hshort (h labels m hcalm hrun hphase)

end OpenKeyV.Memory
