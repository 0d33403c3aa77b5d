import BasuyuDb.Lib.Octets

/-
  Slices with checked bounds: an index or a slice expression outside a slice, and a slice made with a
  negative length, end the program (`Panic`). A reader of a byte string works with positions; the lemmas
  say what it reads by the suffix at its position, and when it ends in a panic. Integers are read in
  big-endian order, as encoding/binary does.
-/

namespace KvLib
open List

inductive Panic where
  | index
  | slice
  | makeLen
deriving DecidableEq

/-- A computation that may end the program. -/
abbrev Checked := Except Panic

theorem ok_of_bind {E A B : Type} {x : Except E A} {f : A → Except E B} {b : B}
    (h : (x >>= f) = .ok b) : ∃ a, x = .ok a ∧ f a = .ok b := by
  cases x with
  | ok a => exact ⟨a, rfl, h⟩
  | error e => cases h

section slices
variable {α : Type}

/-- `b[i]`. -/
def indexAt (b : List α) (i : Nat) : Checked α :=
  match b[i]? with
  | some x => .ok x
  | none => .error .index

/-- `b[i:j]`. -/
def slice (b : List α) (i j : Int) : Checked (List α) :=
  if 0 ≤ i ∧ i ≤ j ∧ j ≤ b.length then .ok ((b.take j.toNat).drop i.toNat) else .error .slice

/-- `b[i:]`. -/
def sliceFrom (b : List α) (i : Nat) : Checked (List α) := slice b i b.length

/-- `make` with a length or a capacity. -/
def makeLen (n : Int) : Checked Unit := if 0 ≤ n then .ok () else .error .makeLen

/-- `make` with a length, on a machine that has room for `limit` elements. -/
def makeWithin (limit : Nat) (n : Int) : Checked Unit := if 0 ≤ n ∧ n ≤ limit then .ok () else .error .makeLen

variable {b : List α} {i : Nat}

theorem slice_ok {j : Nat} (hij : i ≤ j) (hj : j ≤ b.length) : slice b i j = .ok ((b.take j).drop i) := by
  unfold slice
  rw [if_pos ⟨by omega, by omega, by omega⟩]
  rfl

theorem slice_panics {i j : Int} (h : ¬ (0 ≤ i ∧ i ≤ j ∧ j ≤ b.length)) : slice b i j = .error .slice := if_neg h

theorem sliceFrom_ok (h : i ≤ b.length) : sliceFrom b i = .ok (b.drop i) := by
  unfold sliceFrom
  rw [slice_ok h le_rfl, take_length]

theorem sliceFrom_panics (h : b.length < i) : sliceFrom b i = .error .slice := slice_panics (by omega)

variable {body s rest : List α} {pos : Nat}

/-- What precedes the first stop. -/
theorem takeWhile_stop [DecidableEq α] {stop : α} {a : List α} (ha : stop ∉ a) (rest : List α) :
    (a ++ stop :: rest).takeWhile (fun x => x ≠ stop) = a := by
  rw [takeWhile_append_of_pos (by intro x hx; exact decide_eq_true fun h : x = stop => ha (h ▸ hx))]
  simp

theorem append_stop_inj [DecidableEq α] {stop : α} {a b s t : List α} (ha : stop ∉ a) (hb : stop ∉ b)
    (h : a ++ stop :: s = b ++ stop :: t) : a = b ∧ s = t := by
  obtain rfl : a = b := by rw [← takeWhile_stop ha s, h, takeWhile_stop hb]
  exact ⟨rfl, (List.cons.inj (append_cancel_left h)).2⟩

theorem lt_of_drop_cons {b : α} {r : List α} (h : body.drop pos = b :: r) : pos < body.length := by
  by_contra hle
  rw [drop_of_length_le (Nat.le_of_not_lt hle)] at h
  cases h

/-- Behind a part of what is at a position. -/
theorem drop_of_append (h : body.drop pos = s ++ rest) : body.drop (pos + s.length) = rest := by
  rw [← drop_drop, h, drop_left]

theorem le_of_append (hpos : pos ≤ body.length) (h : body.drop pos = s ++ rest) : pos + s.length ≤ body.length := by
  have := congrArg List.length h
  rw [length_drop, length_append] at this
  omega

/-- A slice of what is at a position. -/
theorem slice_at (hpos : pos ≤ body.length) (h : body.drop pos = s ++ rest) : slice body pos (pos + s.length : Nat) = .ok s := by
  rw [slice_ok (by omega) (le_of_append hpos h), drop_take, Nat.add_sub_cancel_left, h, take_left]

end slices

section integers
variable (body : List (Fin 256))

/-- `binary.BigEndian.Uint16(body[pos:])`. -/
def uint16At (pos : Nat) : Checked Nat := do
  match ← sliceFrom body pos with
  | hi :: lo :: _ => pure (hi.val * 256 + lo.val)
  | _ => .error .index

/-- `binary.BigEndian.Uint32(body[pos:])`. -/
def uint32At (pos : Nat) : Checked Nat := do
  match ← sliceFrom body pos with
  | a :: b :: c :: d :: _ => pure (((a.val * 256 + b.val) * 256 + c.val) * 256 + d.val)
  | _ => .error .index

/-- `binary.BigEndian.Uint64(body[pos:])`. -/
def uint64At (pos : Nat) : Checked Nat := do
  match ← sliceFrom body pos with
  | a :: b :: c :: d :: e :: f :: g :: h :: _ =>
    pure (((((((a.val * 256 + b.val) * 256 + c.val) * 256 + d.val) * 256 + e.val) * 256 + f.val) * 256 + g.val) * 256 + h.val)
  | _ => .error .index

end integers

section integers
variable {body : List (Fin 256)} {pos : Nat}

theorem uint16At_cons {hi lo : Fin 256} {r : List (Fin 256)} (h : body.drop pos = hi :: lo :: r) :
    uint16At body pos = .ok (hi.val * 256 + lo.val) := by
  unfold uint16At
  rw [sliceFrom_ok (Nat.le_of_lt (lt_of_drop_cons h)), h]
  rfl

theorem uint16At_ok {n : Nat} (h : uint16At body pos = .ok n) :
    ∃ hi lo r, body.drop pos = hi :: lo :: r ∧ n = hi.val * 256 + lo.val := by
  unfold uint16At at h
  by_cases hpos : pos ≤ body.length
  · rw [sliceFrom_ok hpos] at h
    match body.drop pos, h with
    | hi :: lo :: r, h => exact ⟨hi, lo, r, rfl, (Except.ok.inj h).symm⟩
  · rw [sliceFrom_panics (Nat.lt_of_not_le hpos)] at h
    cases h

theorem uint16At_safe (body : List (Fin 256)) (pos : Nat) (h : pos + 2 ≤ body.length) : ∃ n, uint16At body pos = .ok n := by
  have hlen : 2 ≤ (body.drop pos).length := by
    rw [length_drop]
    omega
  match hr : body.drop pos, hlen with
  | hi :: lo :: r, _ => exact ⟨_, uint16At_cons hr⟩

theorem uint32At_cons {a b c d : Fin 256} {r : List (Fin 256)} (h : body.drop pos = a :: b :: c :: d :: r) :
    uint32At body pos = .ok (((a.val * 256 + b.val) * 256 + c.val) * 256 + d.val) := by
  unfold uint32At
  rw [sliceFrom_ok (Nat.le_of_lt (lt_of_drop_cons h)), h]
  rfl

theorem uint32At_ok {n : Nat} (h : uint32At body pos = .ok n) :
    ∃ a b c d r, body.drop pos = a :: b :: c :: d :: r ∧ n = ((a.val * 256 + b.val) * 256 + c.val) * 256 + d.val := by
  unfold uint32At at h
  by_cases hpos : pos ≤ body.length
  · rw [sliceFrom_ok hpos] at h
    match body.drop pos, h with
    | a :: b :: c :: d :: r, h => exact ⟨a, b, c, d, r, rfl, (Except.ok.inj h).symm⟩
  · rw [sliceFrom_panics (Nat.lt_of_not_le hpos)] at h
    cases h

theorem uint32At_safe (body : List (Fin 256)) (pos : Nat) (h : pos + 4 ≤ body.length) : ∃ n, uint32At body pos = .ok n := by
  have hlen : 4 ≤ (body.drop pos).length := by
    rw [length_drop]
    omega
  match hr : body.drop pos, hlen with
  | a :: b :: c :: d :: r, _ => exact ⟨_, uint32At_cons hr⟩

theorem uint64At_safe (body : List (Fin 256)) (pos : Nat) (h : pos + 8 ≤ body.length) : ∃ n, uint64At body pos = .ok n := by
  have hlen : 8 ≤ (body.drop pos).length := by
    rw [length_drop]
    omega
  unfold uint64At
  rw [sliceFrom_ok (by omega)]
  match body.drop pos, hlen with
  | a :: b :: c :: d :: e :: f :: g :: h :: r, _ => exact ⟨_, rfl⟩

end integers

/-- The computation returns. -/
def Checked.safe {α : Type} (x : Checked α) : Prop := ∃ a, x = .ok a

instance {α : Type} (x : Checked α) : Decidable x.safe :=
  match x with
  | .ok a => isTrue ⟨a, rfl⟩
  | .error _ => isFalse nofun

section safe
variable {α β : Type} {x : Checked α}

theorem Checked.safe_pure (a : α) : Checked.safe (pure a) := ⟨a, rfl⟩

theorem Checked.bind_ok {k : α → Checked β} {b : β} : (x >>= k) = .ok b ↔ ∃ a, x = .ok a ∧ k a = .ok b := by
  cases x with
  | error e => exact ⟨nofun, (fun ⟨_, h, _⟩ => nomatch h)⟩
  | ok a => exact ⟨fun h => ⟨a, rfl, h⟩, fun ⟨a', h, hk⟩ => by obtain rfl := Except.ok.inj h; exact hk⟩

theorem Checked.safe_bind {k : α → Checked β} : Checked.safe (x >>= k) ↔ ∃ a, x = .ok a ∧ Checked.safe (k a) := by
  constructor
  · rintro ⟨b, h⟩
    obtain ⟨a, ha, hk⟩ := Checked.bind_ok.mp h
    exact ⟨a, ha, b, hk⟩
  · rintro ⟨a, ha, b, hk⟩
    exact ⟨b, Checked.bind_ok.mpr ⟨a, ha, hk⟩⟩

theorem Checked.not_safe_bind {k : α → Checked β} (h : ¬ x.safe) : ¬ Checked.safe (x >>= k) := by
  intro hsafe
  obtain ⟨a, ha, -⟩ := Checked.safe_bind.mp hsafe
  exact h ⟨a, ha⟩

theorem Checked.safe_ite {p : Prop} [Decidable p] {y : Checked α} (hx : p → x.safe) (hy : ¬ p → y.safe) :
    Checked.safe (if p then x else y) := by
  by_cases hp : p
  · rw [if_pos hp]
    exact hx hp
  · rw [if_neg hp]
    exact hy hp

theorem Checked.not_safe_error (e : Panic) : ¬ Checked.safe (.error e : Checked α) := fun ⟨_, h⟩ => nomatch h

end safe

end KvLib
