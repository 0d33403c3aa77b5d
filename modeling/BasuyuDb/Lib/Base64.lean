import BasuyuDb.Lib.Octets

/-
  Base 64 with padding: three bytes are four digits. A reader skips line ends, asks for whole groups, and does not look
  at the bits that the last digit of a padded group has to spare.
-/

namespace KvLib.Base64
open List

def digit (n : Nat) : Fin 256 :=
  Fin.ofNat 256 (if n < 26 then n + 65 else if n < 52 then n + 71 else if n < 62 then n - 4 else if n = 62 then 43 else 47)

def value (b : Fin 256) : Option Nat :=
  if 65 ≤ b.val ∧ b.val ≤ 90 then some (b.val - 65)
  else if 97 ≤ b.val ∧ b.val ≤ 122 then some (b.val - 71)
  else if 48 ≤ b.val ∧ b.val ≤ 57 then some (b.val + 4)
  else if b = 43 then some 62
  else if b = 47 then some 63
  else none

def encode : Octets → Octets
  | [] => []
  | [a] => [digit (a.val / 4), digit (a.val % 4 * 16), 61, 61]
  | [a, b] => [digit (a.val / 4), digit (a.val % 4 * 16 + b.val / 16), digit (b.val % 16 * 4), 61]
  | a :: b :: c :: rest =>
    digit (a.val / 4) :: digit (a.val % 4 * 16 + b.val / 16) :: digit (b.val % 16 * 4 + c.val / 64) :: digit (c.val % 64) :: encode rest

def decodeGroups : Octets → Option Octets
  | [] => some []
  | a :: b :: c :: d :: rest => do
    let w ← value a
    let x ← value b
    if c = 61 ∧ d = 61 ∧ rest = [] then some [Fin.ofNat 256 (w * 4 + x / 16)]
    else
      let y ← value c
      if d = 61 ∧ rest = [] then some [Fin.ofNat 256 (w * 4 + x / 16), Fin.ofNat 256 (x % 16 * 16 + y / 4)]
      else
        let z ← value d
        let bytes ← decodeGroups rest
        some (Fin.ofNat 256 (w * 4 + x / 16) :: Fin.ofNat 256 (x % 16 * 16 + y / 4) ::
          Fin.ofNat 256 (y % 4 * 64 + z) :: bytes)
  | _ => none

def decode (s : Octets) : Option Octets := decodeGroups (s.filter fun b => b ≠ 10 ∧ b ≠ 13)

theorem value_digit {n : Nat} (h : n < 64) : value (digit n) = some n := by
  have hall : ∀ n : Fin 64, value (digit n) = some n.val := by decide
  exact hall ⟨n, h⟩

theorem digit_val (n : Nat) : (digit n).val ≠ 61 ∧ (digit n).val ≠ 10 ∧ (digit n).val ≠ 13 := by
  simp only [digit, Fin.val_ofNat]
  split_ifs <;> omega

theorem digit_ne_pad (n : Nat) : digit n ≠ 61 := fun h => (digit_val n).1 (congrArg Fin.val h)

theorem encode_plain (s : Octets) : ∀ b ∈ encode s, b ≠ 10 ∧ b ≠ 13 := by
  have hdigit : ∀ n, digit n ≠ 10 ∧ digit n ≠ 13 := fun n =>
    ⟨fun h => (digit_val n).2.1 (congrArg Fin.val h), fun h => (digit_val n).2.2 (congrArg Fin.val h)⟩
  fun_induction encode s <;> simp_all

theorem ofNat_val {n : Nat} {b : Fin 256} (h : n = b.val) : Fin.ofNat 256 n = b := by
  rw [h, Fin.ofNat_val_eq_self]

theorem decodeGroups_encode (s : Octets) : decodeGroups (encode s) = some s := by
  fun_induction encode s with
  | case1 => rfl
  | case2 a =>
    have ha := ofNat_val (by omega : a.val / 4 * 4 + a.val % 4 * 16 / 16 = a.val)
    simp only [decodeGroups, Option.bind_eq_bind, Option.bind_some, and_self, ↓reduceIte,
      value_digit (by omega : a.val / 4 < 64), value_digit (by omega : a.val % 4 * 16 < 64), ha]
  | case3 a b =>
    have ha := ofNat_val (by omega : a.val / 4 * 4 + (a.val % 4 * 16 + b.val / 16) / 16 = a.val)
    have hb := ofNat_val (by omega : (a.val % 4 * 16 + b.val / 16) % 16 * 16 + b.val % 16 * 4 / 4 = b.val)
    simp only [decodeGroups, Option.bind_eq_bind, Option.bind_some, digit_ne_pad, false_and, and_self, ↓reduceIte,
      value_digit (by omega : a.val / 4 < 64),
      value_digit (by omega : a.val % 4 * 16 + b.val / 16 < 64), value_digit (by omega : b.val % 16 * 4 < 64), ha, hb]
  | case4 a b c rest ih =>
    have ha := ofNat_val (by omega : a.val / 4 * 4 + (a.val % 4 * 16 + b.val / 16) / 16 = a.val)
    have hb := ofNat_val
      (by omega : (a.val % 4 * 16 + b.val / 16) % 16 * 16 + (b.val % 16 * 4 + c.val / 64) / 4 = b.val)
    have hc := ofNat_val (by omega : (b.val % 16 * 4 + c.val / 64) % 4 * 64 + c.val % 64 = c.val)
    simp only [decodeGroups, Option.bind_eq_bind, Option.bind_some, digit_ne_pad, false_and, and_self, ↓reduceIte,
      value_digit (by omega : a.val / 4 < 64),
      value_digit (by omega : a.val % 4 * 16 + b.val / 16 < 64), value_digit (by omega : b.val % 16 * 4 + c.val / 64 < 64),
      value_digit (by omega : c.val % 64 < 64), ih, ha, hb, hc]

theorem decode_encode (s : Octets) : decode (encode s) = some s := by
  rw [decode, filter_eq_self.mpr fun b hb => decide_eq_true (encode_plain s b hb), decodeGroups_encode]

end KvLib.Base64
