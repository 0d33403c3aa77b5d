import Mathlib

/-
  Runs of a transition system. `Reach step ok s₀ s`: some run from `s₀` ends in `s`, and
  every step of it was taken in a state and with an action that meet `ok`. An invariant
  of all such runs is proved by its first state and one step (`Reach.inv`).
-/

namespace KvLib

variable {S A : Type}

inductive Reach (step : S → A → Option S) (ok : S → A → Prop) (s₀ : S) : S → Prop
  | init : Reach step ok s₀ s₀
  | step {s s' : S} {a : A} :
      Reach step ok s₀ s → ok s a → step s a = some s' → Reach step ok s₀ s'

variable {step : S → A → Option S} {ok ok' : S → A → Prop} {s₀ s : S}

theorem Reach.inv {I : S → Prop} (h : Reach step ok s₀ s) (h0 : I s₀)
    (hs : ∀ s a s', I s → ok s a → step s a = some s' → I s') : I s := by
  induction h with
  | init => exact h0
  | step _ hok hst ih => exact hs _ _ _ ih hok hst

/-- Runs under `ok` are runs under `ok'` when an invariant of the former gives `ok'`. -/
theorem Reach.weaken {I : S → Prop} (h : Reach step ok s₀ s) (h0 : I s₀)
    (hs : ∀ s a s', I s → ok s a → step s a = some s' → I s')
    (hok : ∀ s a s', I s → ok s a → step s a = some s' → ok' s a) : Reach step ok' s₀ s := by
  have key : Reach step ok' s₀ s ∧ I s := by
    induction h with
    | init => exact ⟨Reach.init, h0⟩
    | step _ ho hst ih => exact ⟨ih.1.step (hok _ _ _ ih.2 ho hst) hst, hs _ _ _ ih.2 ho hst⟩
  exact key.1

theorem Reach.trans {s' : S} (h : Reach step ok s₀ s) (h' : Reach step ok s s') : Reach step ok s₀ s' := by
  induction h' with
  | init => exact h
  | step _ hok hst ih => exact ih.step hok hst

/-- Take the listed actions in order; `none` when one of them is not enabled or not `ok`. -/
def runAll (step : S → A → Option S) (ok : S → A → Prop) [∀ s a, Decidable (ok s a)] :
    S → List A → Option S
  | s, [] => some s
  | s, a :: as => if ok s a then (step s a).bind (fun s' => runAll step ok s' as) else none

theorem reach_of_runAll [∀ s a, Decidable (ok s a)] (as : List A)
    (h : runAll step ok s₀ as = some s) : Reach step ok s₀ s := by
  induction as generalizing s₀ with
  | nil =>
    cases h
    exact Reach.init
  | cons a as ih =>
    rw [runAll] at h
    split at h
    · rename_i hok
      obtain ⟨s1, h1, h2⟩ := Option.bind_eq_some_iff.mp h
      exact (Reach.init.step hok h1).trans (ih h2)
    · cases h

/-- An invariant of the state and the actions that led to it. -/
theorem runAll_inv [∀ s a, Decidable (ok s a)] {I : List A → S → Prop} {as : List A} (h : runAll step ok s₀ as = some s)
    (h0 : I [] s₀) (hs : ∀ as s a s', I as s → step s a = some s' → I (as ++ [a]) s') : I as s := by
  have hrun : ∀ as pre s₀, I pre s₀ → runAll step ok s₀ as = some s → I (pre ++ as) s := by
    intro as
    induction as with
    | nil =>
      intro pre s₀ hI h
      cases h
      rwa [List.append_nil]
    | cons a as ih =>
      intro pre s₀ hI h
      obtain ⟨-, h⟩ := Option.ite_none_right_eq_some.mp h
      obtain ⟨s1, h1, h2⟩ := Option.bind_eq_some_iff.mp h
      rw [← List.singleton_append, ← List.append_assoc]
      exact ih _ s1 (hs pre s₀ a s1 hI h1) h2
  exact hrun as [] s₀ h0 h

/-- A run of the listed actions, with what is observed of the state it ends in. -/
theorem exists_reach [∀ s a, Decidable (ok s a)] {O : Type} {observe : S → O} {o : O} (as : List A)
    (h : (runAll step ok s₀ as).map observe = some o) : ∃ s, Reach step ok s₀ s ∧ observe s = o := by
  obtain ⟨s, hs, ho⟩ := Option.map_eq_some_iff.mp h
  exact ⟨s, reach_of_runAll as hs, ho⟩

end KvLib
