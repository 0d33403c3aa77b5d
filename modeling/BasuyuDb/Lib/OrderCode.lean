import Mathlib

/-
  Words that are compared whatever follows them. `Before u v`: at the first position where `u` and
  `v` differ both have a letter and that of `u` is smaller, so `u ++ x < v ++ y` for all `x` and `y`.
  A self-delimiting code whose code words are `Before` one another keeps its order in front of any
  suffix. Scans of an ascending list between two bounds are filters.
-/

namespace KvLib
open List

variable {A : Type} [LinearOrder A]

/-! ## Words that differ at a letter -/

def Before : List A → List A → Prop
  | a :: u, b :: v => a < b ∨ a = b ∧ Before u v
  | _, _ => False

section before
variable {u v w : List A}

theorem Before.append (h : Before u v) (x y : List A) : Before (u ++ x) (v ++ y) := by
  induction u generalizing v with
  | nil => exact h.elim
  | cons a u ih =>
    cases v with
    | nil => exact h.elim
    | cons b v =>
      rcases h with h | ⟨rfl, h⟩
      · exact .inl h
      · exact .inr ⟨rfl, ih h⟩

theorem Before.prepend (p : List A) (h : Before u v) : Before (p ++ u) (p ++ v) := by
  induction p with
  | nil => exact h
  | cons a p ih => exact .inr ⟨rfl, ih⟩

theorem Before.lt (h : Before u v) : u < v := by
  induction u generalizing v with
  | nil => exact h.elim
  | cons a u ih =>
    cases v with
    | nil => exact h.elim
    | cons b v =>
      rcases h with h | ⟨rfl, h⟩
      · exact cons_lt_cons_iff.mpr (.inl h)
      · exact cons_lt_cons_iff.mpr (.inr ⟨rfl, ih h⟩)

/-- The order of two such words, whatever follows. -/
theorem Before.append_lt (h : Before u v) (x y : List A) : u ++ x < v ++ y := (h.append x y).lt

/-- A common start does not count. -/
theorem append_lt_append_iff (p : List A) : p ++ u < p ++ v ↔ u < v := by
  induction p with
  | nil => exact Iff.rfl
  | cons a p ih =>
    rw [cons_append, cons_append, cons_lt_cons_iff, ih]
    simp

theorem not_lt_of_prefix (h : u <+: v) : ¬ v < u := by
  obtain ⟨x, rfl⟩ := h
  have hge : ¬ u ++ x < u ++ [] := by
    rw [append_lt_append_iff]
    exact not_lt_nil x
  rwa [append_nil] at hge

/-- A word that a letter below decides is not continued by the other. -/
theorem Before.not_prefix_append (h : Before u v) (x : List A) : ¬v <+: u ++ x := by
  rintro ⟨y, hy⟩
  have hlt := h.append_lt x y
  rw [hy] at hlt
  exact lt_irrefl _ hlt

/-- Words of one length differ at a letter or not at all. -/
theorem before_of_length (h : u.length = v.length) : Before u v ∨ u = v ∨ Before v u := by
  induction u generalizing v with
  | nil =>
    cases v with
    | nil => exact .inr (.inl rfl)
    | cons b v => cases h
  | cons a u ih =>
    cases v with
    | nil => cases h
    | cons b v =>
      rcases lt_trichotomy a b with hab | rfl | hab
      · exact .inl (.inl hab)
      · rcases ih (Nat.succ.inj h) with h1 | rfl | h1
        · exact .inl (.inr ⟨rfl, h1⟩)
        · exact .inr (.inl rfl)
        · exact .inr (.inr (.inr ⟨rfl, h1⟩))
      · exact .inr (.inr (.inl hab))

end before

/-! ## Ranges of ascending lists -/

section ranges
variable {X : Type} {R : X → X → Prop} {q : X → Bool} {l : List X}

/-- Skipping up to a lower bound. -/
theorem dropWhile_eq_filter (hl : l.Pairwise R) (hq : ∀ a b, R a b → q a = true → q b = true) :
    l.dropWhile (fun x => !q x) = l.filter q := by
  induction l with
  | nil => rfl
  | cons a l ih =>
    obtain ⟨ha, hl'⟩ := pairwise_cons.mp hl
    cases hqa : q a with
    | false =>
      rw [dropWhile_cons_of_pos (by simp [hqa]), filter_cons_of_neg (by simp [hqa]), ih hl']
    | true =>
      have hall : ∀ b ∈ l, q b = true := fun b hb => hq a b (ha b hb) hqa
      rw [dropWhile_cons_of_neg (by simp [hqa]), filter_cons_of_pos hqa, filter_eq_self.mpr hall]

/-- Stopping at an upper bound. -/
theorem takeWhile_eq_filter (hl : l.Pairwise R) (hq : ∀ a b, R a b → q b = true → q a = true) :
    l.takeWhile q = l.filter q := by
  induction l with
  | nil => rfl
  | cons a l ih =>
    obtain ⟨ha, hl'⟩ := pairwise_cons.mp hl
    cases hqa : q a with
    | false =>
      have hnone : ∀ b ∈ l, ¬q b = true := fun b hb hqb => by simp [hq a b (ha b hb) hqb] at hqa
      rw [takeWhile_cons_of_neg (by simp [hqa]), filter_cons_of_neg (by simp [hqa]), filter_eq_nil_iff.mpr hnone]
    | true => rw [takeWhile_cons_of_pos hqa, filter_cons_of_pos hqa, ih hl']

/-- The part of a list between a lower and an upper bound. -/
theorem range_eq_filter {p : X → Bool} (hl : l.Pairwise R) (hq : ∀ a b, R a b → q a = true → q b = true)
    (hp : ∀ a b, R a b → p b = true → p a = true) :
    (l.dropWhile fun x => !q x).takeWhile p = l.filter (fun x => p x && q x) := by
  rw [dropWhile_eq_filter hl hq, takeWhile_eq_filter (hl.filter q) hp, filter_filter]

end ranges

end KvLib
