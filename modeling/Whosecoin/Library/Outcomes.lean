import Mathlib

/-!
C computations that may end without returning. The rules are those of a weakest
precondition: sequencing, assertions, and invariants of loops over a list.
-/

namespace Whosecoin.Library.Outcomes

/-- The ways a C computation ends without returning: a failed `assert`, a
dereference of `NULL`, an access outside the bytes it may touch, or no end. -/
inductive Fault where
  | assertion
  | nullPointer
  | outOfBounds
  | diverges
deriving DecidableEq, Repr

/-- The result of a C computation: a returned value or a fault. -/
abbrev Outcome (α : Type*) := Except Fault α

/-- A C `assert`. -/
def require (condition : Prop) [Decidable condition] (fault : Fault) : Outcome Unit :=
  if condition then .ok () else .error fault

/-- The computation comes back to its caller. -/
def Returns {α : Type*} (x : Outcome α) : Prop :=
  ∃ a, x = .ok a

section Binding

variable {α β : Type}

@[simp] theorem pure_eq_ok (a : α) : (pure a : Outcome α) = .ok a :=
  rfl

@[simp] theorem ok_bind (a : α) (f : α → Outcome β) : ((.ok a : Outcome α) >>= f) = f a :=
  rfl

@[simp] theorem error_bind (e : Fault) (f : α → Outcome β) :
    ((.error e : Outcome α) >>= f) = .error e :=
  rfl

/-- A sequence returns exactly when its first part does and the rest then
returns that value. -/
theorem bind_eq_ok (x : Outcome α) (f : α → Outcome β) (b : β) :
    x >>= f = .ok b ↔ ∃ a, x = .ok a ∧ f a = .ok b := by
  cases x with
  | ok a => simp
  | error e => simp

theorem returns_bind (x : Outcome α) (f : α → Outcome β) :
    Returns (x >>= f) ↔ ∃ a, x = .ok a ∧ Returns (f a) := by
  cases x with
  | ok a => simp
  | error e => simp [Returns]

@[simp] theorem returns_ok (a : α) : Returns (.ok a : Outcome α) :=
  ⟨a, rfl⟩

@[simp] theorem not_returns_error (e : Fault) : ¬ Returns (.error e : Outcome α) := by
  rintro ⟨a, h⟩
  cases h

theorem require_eq_ok (condition : Prop) [Decidable condition] (fault : Fault) :
    require condition fault = .ok () ↔ condition := by
  by_cases h : condition <;> simp [require, h]

theorem require_of (condition : Prop) [Decidable condition] (fault : Fault)
    (h : condition) : require condition fault = .ok () :=
  (require_eq_ok condition fault).mpr h

@[simp] theorem require_true (fault : Fault) [Decidable True] : require True fault = .ok () :=
  require_of True fault trivial

theorem require_of_not (condition : Prop) [Decidable condition] (fault : Fault)
    (h : ¬ condition) : require condition fault = .error fault := by
  simp [require, h]

end Binding

section Loops

variable {ι σ : Type} (body : σ → ι → Outcome σ)

/-- The invariant rule of a loop over a list: what every iteration keeps, the
whole loop keeps. -/
theorem foldlM_invariant (motive : σ → Prop)
    (hbody : ∀ s i s', motive s → body s i = .ok s' → motive s')
    (items : List ι) (s s' : σ) (hs : motive s)
    (hrun : items.foldlM body s = .ok s') : motive s' := by
  induction items generalizing s with
  | nil =>
      simp only [List.foldlM_nil, pure_eq_ok, Except.ok.injEq] at hrun
      exact hrun ▸ hs
  | cons i items ih =>
      rw [List.foldlM_cons, bind_eq_ok] at hrun
      obtain ⟨next, hnext, hrest⟩ := hrun
      exact ih next (hbody s i next hs hnext) hrest

theorem allM_eq_ok_true (test : ι → Outcome Bool) (items : List ι) :
    items.allM test = .ok true ↔ ∀ i ∈ items, test i = .ok true := by
  induction items with
  | nil => simp [List.allM]
  | cons i items ih =>
      rw [List.allM, bind_eq_ok, List.forall_mem_cons, ← ih]
      constructor
      · rintro ⟨answer, htest, hrest⟩
        cases answer with
        | true => exact ⟨htest, hrest⟩
        | false => cases hrest
      · rintro ⟨htest, hrest⟩
        exact ⟨true, htest, hrest⟩

/-- A loop whose iterations do nothing or leave a mark for good: it does nothing as a
whole, or it is marked by the first of its items that does something. -/
theorem foldlM_marks {μ : Type} (Inv : σ → Prop) (Acts : σ → ι → Prop)
    (Has : σ → μ → Prop)
    (items : List ι)
    (hskip : ∀ s, ∀ i ∈ items, ∀ s', Inv s → ¬ Acts s i → body s i = .ok s' → s' = s)
    (hmark : ∀ s, ∀ i ∈ items, ∀ s', Inv s → Acts s i → body s i = .ok s' →
      ∃ mark, ¬ Has s mark ∧ Has s' mark)
    (hkeep : ∀ s i s' mark, Has s mark → body s i = .ok s' → Has s' mark)
    {s s' : σ} (hs : Inv s) (hrun : items.foldlM body s = .ok s') :
    ((∀ i ∈ items, ¬ Acts s i) ∧ s' = s) ∨
      ((∃ i ∈ items, Acts s i) ∧ ∃ mark, ¬ Has s mark ∧ Has s' mark) := by
  induction items with
  | nil =>
      cases hrun
      exact Or.inl ⟨fun i hi => absurd hi List.not_mem_nil, rfl⟩
  | cons i items ih =>
      rw [List.foldlM_cons, bind_eq_ok] at hrun
      obtain ⟨next, hnext, hrest⟩ := hrun
      by_cases hacts : Acts s i
      · obtain ⟨mark, hbefore, hafter⟩ := hmark s i List.mem_cons_self next hs hacts hnext
        refine Or.inr ⟨⟨i, List.mem_cons_self, hacts⟩, mark, hbefore, ?_⟩
        exact foldlM_invariant body (Has · mark) (fun s i s' hhas => hkeep s i s' mark hhas)
          items next s' hafter hrest
      · obtain rfl := hskip s i List.mem_cons_self next hs hacts hnext
        rcases ih (fun s j hj => hskip s j (List.mem_cons_of_mem i hj))
          (fun s j hj => hmark s j (List.mem_cons_of_mem i hj)) hrest with
          ⟨hnone, hsame⟩ | ⟨⟨j, hj, hacts'⟩, hmarked⟩
        · refine Or.inl ⟨?_, hsame⟩
          rw [List.forall_mem_cons]
          exact ⟨hacts, hnone⟩
        · exact Or.inr ⟨⟨j, List.mem_cons_of_mem i hj, hacts'⟩, hmarked⟩

theorem returns_allM (test : ι → Outcome Bool) (items : List ι) :
    Returns (items.allM test) ↔ ∀ k i, items[k]? = some i →
      (∀ j ∈ items.take k, test j = .ok true) → Returns (test i) := by
  induction items with
  | nil => simp [List.allM]
  | cons item items ih =>
      rw [List.allM, returns_bind]
      constructor
      · rintro ⟨answer, htest, hrest⟩ k i hi hbefore
        cases k with
        | zero =>
            cases hi
            exact ⟨answer, htest⟩
        | succ k =>
            rw [List.take_succ_cons, List.forall_mem_cons, htest] at hbefore
            obtain ⟨hanswer, hbefore⟩ := hbefore
            cases hanswer
            exact ih.mp hrest k i hi hbefore
      · intro hall
        obtain ⟨answer, htest⟩ := hall 0 item rfl (by simp)
        refine ⟨answer, htest, ?_⟩
        cases answer with
        | false => exact returns_ok false
        | true =>
            refine ih.mpr ?_
            intro k i hi hbefore
            refine hall (k + 1) i hi ?_
            rw [List.take_succ_cons, List.forall_mem_cons]
            exact ⟨htest, hbefore⟩

theorem returns_foldlM {P : ι → Prop} (items : List ι)
    (hbody : ∀ s, ∀ i ∈ items, (Returns (body s i) ↔ P i)) (s : σ) :
    Returns (items.foldlM body s) ↔ ∀ i ∈ items, P i := by
  induction items generalizing s with
  | nil => simp
  | cons i items ih =>
      rw [List.foldlM_cons, returns_bind, List.forall_mem_cons, ← hbody s i List.mem_cons_self]
      have hrest := ih fun s j hj => hbody s j (List.mem_cons_of_mem i hj)
      constructor
      · rintro ⟨next, hnext, hrun⟩
        exact ⟨⟨next, hnext⟩, (hrest next).mp hrun⟩
      · rintro ⟨⟨next, hnext⟩, hall⟩
        exact ⟨next, hnext, (hrest next).mpr hall⟩

/-- A loop over the places of a list that yields a related result at each of them. -/
theorem mapM_range_forall₂ {β γ : Type} {R : β → γ → Prop} (compute : Nat → Outcome β)
    (targets : List γ) (h : ∀ i c, targets[i]? = some c → ∃ b, compute i = .ok b ∧ R b c) :
    ∃ results, (List.range targets.length).mapM compute = .ok results ∧
      List.Forall₂ R results targets := by
  induction targets using List.reverseRecOn with
  | nil => exact ⟨[], rfl, .nil⟩
  | append_singleton targets c ih =>
      obtain ⟨results, hfront, hall⟩ := ih fun i c hc => h i c (by
        rw [List.getElem?_append_left (List.getElem?_eq_some_iff.mp hc).1, hc])
      obtain ⟨b, hlast, hb⟩ := h targets.length c (by simp)
      refine ⟨results ++ [b], ?_, List.rel_append hall (.cons hb .nil)⟩
      rw [List.length_append, List.length_singleton, List.range_succ, List.mapM_append, hfront]
      simp [hlast]

theorem mapM_range {β : Type} (compute : Nat → Outcome β) (results : List β)
    (h : ∀ i b, results[i]? = some b → compute i = .ok b) :
    (List.range results.length).mapM compute = .ok results := by
  obtain ⟨results', hrun, hsame⟩ := mapM_range_forall₂ (R := Eq) compute results
    fun i b hb => ⟨b, h i b hb, rfl⟩
  rw [List.forall₂_eq_eq_eq] at hsame
  rw [hrun, hsame]

end Loops

end Whosecoin.Library.Outcomes
