import Mathlib

/-!
Runs with their events, and the rule by which a step that keeps a property exactly when
its guard holds makes the property and the guard of a whole run equivalent.
-/

namespace Whosecoin.Library.Traces

universe u v

variable {σ : Type u} {ε : Type v} {start : ε → σ → Prop} {step : σ → ε → σ → Prop}

/-- The states of a run, the latest first, each with the event that led to it. -/
inductive Trace (start : ε → σ → Prop) (step : σ → ε → σ → Prop) :
    List (ε × σ) → Prop where
  | single {e : ε} {s : σ} (hstart : start e s) : Trace start step [(e, s)]
  | cons {e e' : ε} {s s' : σ} {earlier : List (ε × σ)}
      (trace : Trace start step ((e, s) :: earlier)) (hstep : step s e' s') :
      Trace start step ((e', s') :: (e, s) :: earlier)

/-- Every step of the run is taken in a state that allows the event. -/
def Guarded (guard : σ → ε → Prop) (trace : List (ε × σ)) : Prop :=
  trace.IsChain fun later earlier => guard earlier.2 later.1

/-- The property holds in every state of the run. -/
def Throughout (holds : List (ε × σ) → Prop) (trace : List (ε × σ)) : Prop :=
  ∀ x earlier, x :: earlier <:+ trace → holds (x :: earlier)

namespace Trace

/-- What every step preserves holds in the latest state. -/
theorem invariant {motive : σ → Prop} {e : ε} {s : σ} {earlier : List (ε × σ)}
    (h : Trace start step ((e, s) :: earlier)) (hstart : ∀ e s, start e s → motive s)
    (hstep : ∀ s e s', motive s → step s e s' → motive s') : motive s := by
  generalize htrace : (e, s) :: earlier = trace at h
  induction h generalizing e s earlier with
  | single hs =>
      cases htrace
      exact hstart _ _ hs
  | cons trace hnext ih =>
      cases htrace
      exact hstep _ _ _ (ih rfl) hnext

/-- What every guarded step preserves holds in the latest state of a guarded run. -/
theorem guarded_invariant {motive : σ → Prop} {guard : σ → ε → Prop} {e : ε} {s : σ}
    {earlier : List (ε × σ)} (h : Trace start step ((e, s) :: earlier))
    (hguarded : Guarded guard ((e, s) :: earlier)) (hstart : ∀ e s, start e s → motive s)
    (hstep : ∀ s e s', motive s → guard s e → step s e s' → motive s') : motive s := by
  generalize htrace : (e, s) :: earlier = trace at h
  induction h generalizing e s earlier with
  | single hs =>
      cases htrace
      exact hstart _ _ hs
  | cons trace hnext ih =>
      cases htrace
      rw [Guarded, List.isChain_cons_cons] at hguarded
      exact hstep _ _ _ (ih hguarded.2 rfl) hguarded.1 hnext

end Trace

theorem throughout_cons_iff {holds : List (ε × σ) → Prop} {x : ε × σ}
    {earlier : List (ε × σ)} :
    Throughout holds (x :: earlier) ↔ holds (x :: earlier) ∧ Throughout holds earlier := by
  constructor
  · intro h
    refine ⟨h x earlier (List.suffix_refl _), ?_⟩
    intro y before hsuffix
    exact h y before (hsuffix.trans (List.suffix_cons x earlier))
  · rintro ⟨hlast, hearlier⟩ y before hsuffix
    rcases List.suffix_cons_iff.mp hsuffix with heq | hsuffix
    · rw [heq]
      exact hlast
    · exact hearlier y before hsuffix

/-- What holds behind every guarded step out of an invariant is there throughout a
guarded run. -/
theorem throughout_of_guarded {holds : List (ε × σ) → Prop} {motive : σ → Prop}
    {guard : σ → ε → Prop} (hstart : ∀ e s, start e s → motive s ∧ holds [(e, s)])
    (hstep : ∀ s e s', motive s → guard s e → step s e s' → motive s')
    (hholds : ∀ e s earlier e' s', motive s → guard s e' → step s e' s' →
      holds ((e', s') :: (e, s) :: earlier))
    {trace : List (ε × σ)} (h : Trace start step trace) (hguarded : Guarded guard trace) :
    Throughout holds trace := by
  induction h with
  | single hs =>
      rw [throughout_cons_iff]
      refine ⟨(hstart _ _ hs).2, ?_⟩
      intro x earlier hsuffix
      exact absurd (List.suffix_nil.mp hsuffix) (List.cons_ne_nil _ _)
  | @cons e e' s s' earlier trace hnext ih =>
      rw [throughout_cons_iff]
      rw [Guarded, List.isChain_cons_cons] at hguarded
      have hmotive := trace.guarded_invariant hguarded.2 (fun e s hs => (hstart e s hs).1) hstep
      exact ⟨hholds e s earlier e' s' hmotive hguarded.1 hnext, ih hguarded.2⟩

/-- A property that a step keeps exactly when its guard holds is there throughout a
run exactly when the run is guarded. -/
theorem throughout_iff_guarded {holds : List (ε × σ) → Prop} {guard : σ → ε → Prop}
    (hstart : ∀ e s, start e s → holds [(e, s)])
    (hkeep : ∀ e s earlier e' s', Trace start step ((e, s) :: earlier) → step s e' s' →
      Guarded guard ((e, s) :: earlier) → holds ((e, s) :: earlier) →
      (holds ((e', s') :: (e, s) :: earlier) ↔ guard s e'))
    {trace : List (ε × σ)} (h : Trace start step trace) :
    Throughout holds trace ↔ Guarded guard trace := by
  induction h with
  | single hs =>
      rw [throughout_cons_iff, Guarded]
      constructor
      · intro _
        exact List.isChain_singleton _
      · intro _
        refine ⟨hstart _ _ hs, ?_⟩
        intro x earlier hsuffix
        exact absurd (List.suffix_nil.mp hsuffix) (List.cons_ne_nil _ _)
  | @cons e e' s s' earlier trace hstep ih =>
      rw [throughout_cons_iff, Guarded, List.isChain_cons_cons, ih]
      apply and_congr_left
      intro hguarded
      have hall := ih.mpr hguarded
      exact hkeep e s earlier e' s' trace hstep hguarded (hall _ _ (List.suffix_refl _))

end Whosecoin.Library.Traces
