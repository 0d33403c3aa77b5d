import Mathlib

/-
  Three-valued logic (Kleene's strong logic, the one of SQL): TRUE, FALSE and UNKNOWN. A formula is TRUE
  when its connectives find it so; the lemmas say when that is.
-/

namespace KvLib

/-- `none` is UNKNOWN. -/
abbrev Truth := Option Bool

namespace Truth

def not : Truth → Truth
  | some b => some (!b)
  | none => none

def and : Truth → Truth → Truth
  | some false, _ => some false
  | _, some false => some false
  | some true, some true => some true
  | _, _ => none

def or : Truth → Truth → Truth
  | some true, _ => some true
  | _, some true => some true
  | some false, some false => some false
  | _, _ => none

/-- The conjunction of a list. -/
def all (ts : List Truth) : Truth := ts.foldr and (some true)

/-- The disjunction of a list. -/
def any (ts : List Truth) : Truth := ts.foldr or (some false)

theorem not_eq_true {t : Truth} : t.not = some true ↔ t = some false := by
  rcases t with _ | _ | _ <;> decide

theorem and_eq_true {s t : Truth} : s.and t = some true ↔ s = some true ∧ t = some true := by
  rcases s with _ | _ | _ <;> rcases t with _ | _ | _ <;> decide

theorem and_eq_false {s t : Truth} : s.and t = some false ↔ s = some false ∨ t = some false := by
  rcases s with _ | _ | _ <;> rcases t with _ | _ | _ <;> decide

theorem or_eq_true {s t : Truth} : s.or t = some true ↔ s = some true ∨ t = some true := by
  rcases s with _ | _ | _ <;> rcases t with _ | _ | _ <;> decide

theorem or_eq_false {s t : Truth} : s.or t = some false ↔ s = some false ∧ t = some false := by
  rcases s with _ | _ | _ <;> rcases t with _ | _ | _ <;> decide

theorem all_cons (t : Truth) (ts : List Truth) : all (t :: ts) = t.and (all ts) := rfl

theorem any_cons (t : Truth) (ts : List Truth) : any (t :: ts) = t.or (any ts) := rfl

theorem any_eq_true {ts : List Truth} : any ts = some true ↔ some true ∈ ts := by
  induction ts with
  | nil => exact iff_of_false nofun List.not_mem_nil
  | cons t ts ih => rw [any_cons, or_eq_true, ih, List.mem_cons, eq_comm]

/-- A boolean that is the truth value where that is known. -/
def Refines (t : Truth) (p : Bool) : Prop := ∀ b, t = some b → p = b

section refines
variable {s t : Truth} {p q : Bool}

theorem refines_beq (t : Truth) : t.Refines (t == some true) := by
  rintro b rfl
  cases b <;> rfl

theorem Refines.not (h : t.Refines p) : t.not.Refines (!p) := by
  intro b hb
  cases t with
  | none => cases hb
  | some c => rw [h c rfl, Option.some.inj hb]

theorem Refines.and (hs : s.Refines p) (ht : t.Refines q) : (s.and t).Refines (p && q) := by
  intro b hb
  cases b with
  | true =>
    obtain ⟨h1, h2⟩ := and_eq_true.mp hb
    rw [hs true h1, ht true h2, Bool.and_self]
  | false =>
    rcases and_eq_false.mp hb with h | h
    · rw [hs false h, Bool.false_and]
    · rw [ht false h, Bool.and_false]

theorem Refines.or (hs : s.Refines p) (ht : t.Refines q) : (s.or t).Refines (p || q) := by
  intro b hb
  cases b with
  | true =>
    rcases or_eq_true.mp hb with h | h
    · rw [hs true h, Bool.true_or]
    · rw [ht true h, Bool.or_true]
  | false =>
    obtain ⟨h1, h2⟩ := or_eq_false.mp hb
    rw [hs false h1, ht false h2, Bool.or_self]

end refines

end Truth

end KvLib
