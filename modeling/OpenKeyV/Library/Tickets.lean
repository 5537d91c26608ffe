import Mathlib.Data.Finset.Card
import Mathlib.Data.List.Nodup
import Mathlib.Data.List.Perm.Subperm
import Mathlib.Logic.Function.Basic

/-!
# Tokens of one source

A source is read again and again and never yields the same token twice.  Each
token read so far is written down, or carried by one owner who may still write
it down, or lost.  Then no token is ever written down twice.

Tokens can also stand in cells, of which a step changes one.  Then what steps
spend has been drawn, and as often.
-/

namespace OpenKeyV.Library

universe u v

/-- What has been written down and what is carried are different tokens that
were read before `draws`. -/
structure Tickets {ι : Type u} {τ : Type v} (read : Nat → Option τ)
    (draws : Nat) (written : List τ) (carried : ι → List τ) : Prop where
  nodup : ∀ i, (written ++ carried i).Nodup
  apart : ∀ i j, i ≠ j → (carried i).Disjoint (carried j)
  drawn : ∀ i, ∀ t ∈ written ++ carried i, ∃ n < draws, read n = some t

namespace Tickets

variable {ι : Type u} {τ : Type v} {read : Nat → Option τ}
  {draws draws' : Nat} {written ws cs : List τ} {carried : ι → List τ}

theorem init : Tickets read draws [] (fun _ : ι => []) :=
  ⟨fun _ => List.nodup_nil, fun _ _ _ => List.disjoint_nil_left _,
    fun _ _ h => nomatch h⟩

theorem written_nodup (h : Tickets read draws written carried) (i : ι) :
    written.Nodup := (List.nodup_append.mp (h.nodup i)).1

variable [DecidableEq ι]

theorem draw (h : Tickets read draws written carried)
    (hinj : ∀ m n t, read m = some t → read n = some t → m = n)
    (hle : draws ≤ draws') (i : ι)
    (hsub : (ws ++ cs).Sublist
      ((List.range' draws (draws' - draws)).filterMap read)) :
    Tickets read draws' (written ++ ws) (Function.update carried i cs) := by
  have hread : ∀ t ∈ ws ++ cs, ∃ n, draws ≤ n ∧ n < draws' ∧
      read n = some t := by
    intro t ht
    obtain ⟨n, hn, hnt⟩ := List.mem_filterMap.mp (hsub.subset ht)
    rw [List.mem_range'_1] at hn
    exact ⟨n, hn.1, by omega, hnt⟩
  have hnew : (ws ++ cs).Nodup :=
    hsub.nodup (List.Nodup.filterMap hinj List.nodup_range')
  have hfresh : ∀ t ∈ ws ++ cs, ∀ j, t ∉ written ++ carried j := by
    intro t ht j hold
    obtain ⟨n, hlow, -, hn⟩ := hread t ht
    obtain ⟨m, hm, hmt⟩ := h.drawn j t hold
    have := hinj m n t hmt hn
    omega
  refine ⟨fun j => ?_, fun j k hne => ?_, fun j t ht => ?_⟩
  · by_cases hj : j = i
    · subst hj
      rw [Function.update_self, List.append_assoc]
      exact List.nodup_append.mpr ⟨h.written_nodup j, hnew,
        fun t ht t' ht' heq => hfresh t' ht' j
          (List.mem_append_left _ (heq ▸ ht))⟩
    · rw [Function.update_of_ne hj]
      have hperm : ((written ++ carried j) ++ ws).Perm
          (written ++ ws ++ carried j) := by
        rw [List.append_assoc, List.append_assoc]
        exact List.perm_append_comm.append_left written
      refine hperm.nodup (List.nodup_append.mpr ⟨h.nodup j,
        (List.nodup_append.mp hnew).1, fun t ht t' ht' heq => ?_⟩)
      exact hfresh t' (List.mem_append_left _ ht') j (heq ▸ ht)
  · have hother : ∀ {l : ι}, l ≠ i → cs.Disjoint (carried l) := by
      intro l _ t ht hl
      exact hfresh t (List.mem_append_right _ ht) l
        (List.mem_append_right _ hl)
    by_cases hj : j = i
    · subst hj
      rw [Function.update_self, Function.update_of_ne (Ne.symm hne)]
      exact hother (Ne.symm hne)
    · rw [Function.update_of_ne hj]
      by_cases hk : k = i
      · subst hk
        rw [Function.update_self]
        exact fun t ht hcs => hother hj hcs ht
      · rw [Function.update_of_ne hk]
        exact h.apart j k hne
  · have hold : t ∈ written ++ carried j → ∃ n < draws', read n = some t := by
      intro ht
      obtain ⟨n, hn, hnt⟩ := h.drawn j t ht
      exact ⟨n, by omega, hnt⟩
    have hnew : t ∈ ws ++ cs → ∃ n < draws', read n = some t := by
      intro ht
      obtain ⟨n, -, hn, hnt⟩ := hread t ht
      exact ⟨n, hn, hnt⟩
    rcases List.mem_append.mp ht with ht | ht
    · rcases List.mem_append.mp ht with ht | ht
      · exact hold (List.mem_append_left _ ht)
      · exact hnew (List.mem_append_left _ ht)
    · by_cases hj : j = i
      · subst hj
        rw [Function.update_self] at ht
        exact hnew (List.mem_append_right _ ht)
      · rw [Function.update_of_ne hj] at ht
        exact hold (List.mem_append_right _ ht)

theorem spend (h : Tickets read draws written carried)
    (hle : draws ≤ draws') (i : ι) (hsub : ws.Sublist (carried i)) :
    Tickets read draws' (written ++ ws) (Function.update carried i []) := by
  refine ⟨fun j => ?_, fun j k hne => ?_, fun j t ht => ?_⟩
  · by_cases hj : j = i
    · subst hj
      rw [Function.update_self, List.append_nil]
      exact ((List.Sublist.refl written).append hsub).nodup (h.nodup j)
    · rw [Function.update_of_ne hj]
      have hws := ((List.Sublist.refl written).append hsub).nodup (h.nodup i)
      have hj' := List.nodup_append.mp (h.nodup j)
      refine List.nodup_append.mpr ⟨hws, hj'.2.1, fun t ht t' ht' heq => ?_⟩
      subst heq
      rcases List.mem_append.mp ht with ht | ht
      · exact hj'.2.2 t ht t ht' rfl
      · exact h.apart i j (Ne.symm hj) (hsub.subset ht) ht'
  · by_cases hj : j = i
    · subst hj
      rw [Function.update_self]
      exact List.disjoint_nil_left _
    · rw [Function.update_of_ne hj]
      by_cases hk : k = i
      · subst hk
        rw [Function.update_self]
        exact List.disjoint_nil_right _
      · rw [Function.update_of_ne hk]
        exact h.apart j k hne
  · have hold : ∃ l, t ∈ written ++ carried l := by
      rcases List.mem_append.mp ht with ht | ht
      · rcases List.mem_append.mp ht with ht | ht
        · exact ⟨i, List.mem_append_left _ ht⟩
        · exact ⟨i, List.mem_append_right _ (hsub.subset ht)⟩
      · by_cases hj : j = i
        · subst hj
          rw [Function.update_self] at ht
          cases ht
        · rw [Function.update_of_ne hj] at ht
          exact ⟨j, List.mem_append_right _ ht⟩
    obtain ⟨l, hl⟩ := hold
    obtain ⟨n, hn, hnt⟩ := h.drawn l t hl
    exact ⟨n, by omega, hnt⟩

end Tickets

section Cells

variable {σ α ι τ : Type*}

def seenAlong {β : Type*} (step : σ → α → Option σ) (see : σ → α → Option β) :
    σ → List α → List β
  | _, [] => []
  | s, a :: as => (see s a).toList ++
      ((step s a).map fun s' => seenAlong step see s' as).getD []

/-- A step changes the token of the cell `i` only: it may put the token that
it draws there, and a token that it spends was there and is gone. -/
structure Turnover (holds : σ → ι → Option τ) (draw : α → Option τ)
    (spend : σ → α → Option (ι × τ)) (s : σ) (a : α) (s' : σ) (i : ι) :
    Prop where
  others : ∀ j ≠ i, ∀ t, holds s' j = some t → holds s j = some t
  own : ∀ t, holds s' i = some t →
    (holds s i = some t ∧ spend s a = none) ∨ draw a = some t
  spent : ∀ p, spend s a = some p → p.1 = i ∧ holds s i = some p.2

/-- No more than `n` cells hold the token. -/
def HeldAtMost (holds : σ → ι → Option τ) (s : σ) (t : τ) (n : Nat) : Prop :=
  ∀ cells : Finset ι, (∀ i ∈ cells, holds s i = some t) → cells.card ≤ n

variable {step : σ → α → Option σ} {holds : σ → ι → Option τ}
  {draw : α → Option τ} {spend : σ → α → Option (ι × τ)} {s s' : σ} {a : α}
  {i : ι}

theorem heldAtMost_zero {t : τ} (h : ∀ i, holds s i = none) :
    HeldAtMost holds s t 0 := by
  intro cells hcells
  rw [Nat.le_zero, Finset.card_eq_zero, Finset.eq_empty_iff_forall_notMem]
  intro i hi
  have hheld := hcells i hi
  rw [h i] at hheld
  cases hheld

variable [DecidableEq ι] [DecidableEq τ]

theorem Turnover.heldAtMost (h : Turnover holds draw spend s a s' i) {t : τ}
    {n : Nat} (hn : HeldAtMost holds s t n) :
    ∃ n', HeldAtMost holds s' t n' ∧
      n' + (((spend s a).map Prod.snd).toList).count t ≤
        n + ((draw a).toList).count t := by
  -- the cells other than `i` held the token before
  have herase : ∀ cells : Finset ι, (∀ j ∈ cells, holds s' j = some t) →
      ∀ j ∈ cells.erase i, holds s j = some t := by
    intro cells hcells j hj
    rw [Finset.mem_erase] at hj
    exact h.others j hj.1 t (hcells j hj.2)
  cases hspend : spend s a with
  | none =>
      by_cases hdraw : draw a = some t
      · refine ⟨n + 1, fun cells hcells => ?_, by simp [hdraw]⟩
        have hcard := hn _ (herase cells hcells)
        have hle := Finset.pred_card_le_card_erase (s := cells) (a := i)
        omega
      · refine ⟨n, fun cells hcells => hn cells fun j hj => ?_, by simp⟩
        by_cases hji : j = i
        · subst hji
          rcases h.own t (hcells j hj) with ⟨hheld, -⟩ | hdrawn
          · exact hheld
          · exact absurd hdrawn hdraw
        · exact h.others j hji t (hcells j hj)
  | some p =>
      obtain ⟨i', t'⟩ := p
      obtain ⟨hi, hheld⟩ := h.spent _ hspend
      dsimp only at hi hheld
      subst hi
      by_cases hdraw : draw a = some t
      · by_cases htt : t' = t
        · subst htt
          refine ⟨n, fun cells hcells => ?_, by simp [hdraw]⟩
          have hcard := hn (insert i' (cells.erase i')) fun j hj => by
            rcases Finset.mem_insert.mp hj with rfl | hj
            · exact hheld
            · exact herase cells hcells j hj
          rw [Finset.card_insert_of_notMem (Finset.notMem_erase _ _)] at hcard
          have hle := Finset.pred_card_le_card_erase (s := cells) (a := i')
          omega
        · refine ⟨n + 1, fun cells hcells => ?_, by simp [hdraw, htt]⟩
          have hcard := hn _ (herase cells hcells)
          have hle := Finset.pred_card_le_card_erase (s := cells) (a := i')
          omega
      · have hgone : ∀ cells : Finset ι, (∀ j ∈ cells, holds s' j = some t) →
            i' ∉ cells := by
          intro cells hcells hmem
          rcases h.own t (hcells i' hmem) with ⟨-, hnone⟩ | hdrawn
          · rw [hspend] at hnone
            cases hnone
          · exact hdraw hdrawn
        by_cases htt : t' = t
        · subst htt
          have hone := hn {i'} (by simpa using hheld)
          rw [Finset.card_singleton] at hone
          refine ⟨n - 1, fun cells hcells => ?_, ?_⟩
          · have hcard := hn (insert i' cells) fun j hj => by
              rcases Finset.mem_insert.mp hj with hji | hmem
              · rw [hji]
                exact hheld
              · refine h.others j ?_ _ (hcells j hmem)
                rintro rfl
                exact hgone cells hcells hmem
            rw [Finset.card_insert_of_notMem (hgone cells hcells)] at hcard
            omega
          · have hcount : (((some (i', t')).map Prod.snd).toList).count t' =
                1 := by simp
            omega
        · refine ⟨n, fun cells hcells => hn cells fun j hj => ?_, ?_⟩
          · refine h.others j ?_ t (hcells j hj)
            rintro rfl
            exact hgone cells hcells hj
          · simp [htt]

/-- Along a run that starts without tokens, what is spent has been drawn, and
as often: no draw is spent twice. -/
theorem spent_subperm_drawn {P : σ → Prop}
    (hstep : ∀ s a s', P s → step s a = some s' →
      P s' ∧ ∃ i, Turnover holds draw spend s a s' i)
    (htotal : ∀ s a, (step s a).isSome) {s : σ} (hs : P s)
    (hempty : ∀ i, holds s i = none) (as : List α) :
    List.Subperm ((seenAlong step spend s as).map Prod.snd)
      (as.filterMap draw) := by
  have hcount : ∀ (as : List α) (s : σ) (n : Nat) (t : τ), P s →
      HeldAtMost holds s t n →
      ((seenAlong step spend s as).map Prod.snd).count t ≤
        n + (as.filterMap draw).count t := by
    intro as
    induction as with
    | nil => simp [seenAlong]
    | cons a as ih =>
        intro s n t hs hn
        obtain ⟨s', hs'⟩ := Option.isSome_iff_exists.mp (htotal s a)
        obtain ⟨hP, i, hturn⟩ := hstep s a s' hs hs'
        obtain ⟨n', hn', hle⟩ := hturn.heldAtMost hn
        have hrest := ih s' n' t hP hn'
        have hdraws : ((a :: as).filterMap draw).count t =
            ((draw a).toList).count t + (as.filterMap draw).count t := by
          cases hdraw : draw a <;>
            simp [hdraw, List.count_cons, Nat.add_comm]
        have hspends : ((seenAlong step spend s (a :: as)).map
              Prod.snd).count t =
            (((spend s a).map Prod.snd).toList).count t +
              ((seenAlong step spend s' as).map Prod.snd).count t := by
          cases hspend : spend s a <;>
            simp [seenAlong, hs', hspend, List.count_cons, Nat.add_comm]
        omega
  rw [List.subperm_ext_iff]
  intro t _
  simpa using hcount as s 0 t hs (heldAtMost_zero hempty)

end Cells

end OpenKeyV.Library
