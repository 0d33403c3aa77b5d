import BasuyuDb.Lib.OrderCode
import BasuyuDb.Executor.Index

/-
  engine/internal/executor/orderenc.go: the code words of one type are compared whatever follows
  them (`Before`). Integers and floats have eight bytes, booleans one, and a text ends in 0x00 0x00
  while 0x00 inside it is followed by 0xFF.
-/

namespace BasuyuDb.Executor
open KvLib Storage

/-! ## Big-endian numbers -/

theorem putUint32_digits (n : Nat) :
    n / 256 / 256 = n / 65536 ∧ n / 65536 / 256 = n / 16777216 ∧ n / 16777216 / 256 = n / 2 ^ 32 :=
  ⟨Nat.div_div_eq_div_mul .., Nat.div_div_eq_div_mul .., Nat.div_div_eq_div_mul ..⟩

theorem putUint32_before {n m : Nat} (h : n < m) (hm : m < 2 ^ 32) : Before (putUint32 n) (putUint32 m) := by
  obtain ⟨hn1, hn2, hn3⟩ := putUint32_digits n
  obtain ⟨hm1, hm2, hm3⟩ := putUint32_digits m
  simp only [putUint32, Before, Fin.lt_def, Fin.ext_iff, Fin.ofNat]
  omega

theorem putUint32_mod (n : Nat) : putUint32 (n % 2 ^ 32) = putUint32 n := by
  obtain ⟨hn1, hn2, hn3⟩ := putUint32_digits n
  simp only [putUint32, List.cons.injEq, Fin.ext_iff, Fin.ofNat, and_true]
  omega

theorem putUint64_before {n m : Nat} (h : n < m) (hm : m < 2 ^ 64) : Before (putUint64 n) (putUint64 m) := by
  unfold putUint64
  rcases Nat.lt_or_eq_of_le (Nat.div_le_div_right (c := 2 ^ 32) h.le) with hhigh | hhigh
  · exact (putUint32_before hhigh (by omega)).append _ _
  · -- the high halves agree, so the low ones decide
    rw [hhigh, ← putUint32_mod n, ← putUint32_mod m]
    exact (putUint32_before (by omega) (by omega)).prepend _

/-! ## Texts -/

theorem encodeOrderedText_before {a b : Bytes} (h : a < b) : Before (encodeOrderedText a) (encodeOrderedText b) := by
  induction a generalizing b with
  | nil =>
    cases b with
    | nil => exact absurd h (lt_irrefl _)
    | cons y b =>
      unfold encodeOrderedText
      by_cases hy : y = 0
      · rw [if_pos hy]
        exact .inr ⟨rfl, .inl (by decide)⟩
      · rw [if_neg hy]
        exact .inl (Fin.pos_iff_ne_zero.mpr hy)
  | cons x a ih =>
    cases b with
    | nil => cases h
    | cons y b =>
      unfold encodeOrderedText
      rcases List.cons_lt_cons_iff.mp h with hxy | ⟨rfl, hab⟩
      · have hy : y ≠ 0 := fun h0 => absurd (h0 ▸ hxy) (by simp)
        rw [if_neg hy]
        by_cases hx : x = 0
        · rw [if_pos hx]
          exact .inl (Fin.pos_iff_ne_zero.mpr hy)
        · rw [if_neg hx]
          exact .inl hxy
      · by_cases hx : x = 0
        · rw [if_pos hx, if_pos hx]
          exact (ih hab).prepend [0, 255]
        · rw [if_neg hx, if_neg hx]
          exact (ih hab).prepend [x]

theorem encodeOrderedText_injective : Function.Injective encodeOrderedText :=
  StrictMono.injective fun _ _ h => (encodeOrderedText_before h).lt

/-! ## Code words of one type -/

section codes
variable {env : Env} {oid : Nat} {a b u v : Bytes}

theorem orderEncode_text (hint : ¬(oid = OIDInt4 ∨ oid = OIDInt8)) (hfloat : oid ≠ OIDFloat8)
    (hbool : oid ≠ OIDBool) (t : Bytes) : orderEncode env oid t = .ok (encodeOrderedText t) := by
  unfold orderEncode
  rw [if_neg hint, if_neg hfloat, if_neg hbool]

theorem orderEncode_length (h : oid = OIDInt4 ∨ oid = OIDInt8 ∨ oid = OIDFloat8 ∨ oid = OIDBool)
    (hu : orderEncode env oid a = .ok u) : u.length = if oid = OIDBool then 1 else 8 := by
  unfold orderEncode at hu
  split at hu
  · rename_i hint
    have hne : oid ≠ OIDBool := by
      rcases hint with rfl | rfl
      · decide
      · decide
    rw [if_neg hne]
    split at hu
    · rw [← Except.ok.inj hu]
      rfl
    · cases hu
  · split at hu
    · rename_i hfloat
      have hne : oid ≠ OIDBool := by
        rw [hfloat]
        decide
      rw [if_neg hne]
      split at hu
      · rename_i w _
        rw [← Except.ok.inj hu]
        exact w.2
      · cases hu
    · rename_i hint hfloat
      have hbool : oid = OIDBool := by
        rcases h with h | h | h | h
        · exact absurd (Or.inl h) hint
        · exact absurd (Or.inr h) hint
        · exact absurd h hfloat
        · exact h
      rw [if_pos hbool] at hu ⊢
      rw [← Except.ok.inj hu]
      rfl

theorem orderEncode_comparable (hu : orderEncode env oid a = .ok u) (hv : orderEncode env oid b = .ok v) :
    Before u v ∨ u = v ∨ Before v u := by
  by_cases h : oid = OIDInt4 ∨ oid = OIDInt8 ∨ oid = OIDFloat8 ∨ oid = OIDBool
  · exact before_of_length ((orderEncode_length h hu).trans (orderEncode_length h hv).symm)
  · simp only [not_or] at h
    obtain ⟨h4, h8, hf, hb⟩ := h
    have hint : ¬(oid = OIDInt4 ∨ oid = OIDInt8) := not_or.mpr ⟨h4, h8⟩
    rw [orderEncode_text hint hf hb] at hu hv
    cases hu
    cases hv
    rcases lt_trichotomy a b with hab | rfl | hab
    · exact .inl (encodeOrderedText_before hab)
    · exact .inr (.inl rfl)
    · exact .inr (.inr (encodeOrderedText_before hab))

end codes

/-! ## Tuples -/

section tuples
variable {env : Env} {sch : TableSchema} {cells : Data}

theorem encodeColumn_eq_some {col u : Bytes} : encodeColumn env sch cells col = .ok (some u) ↔
      ∃ ci t, sch.colIndex env col = some ci ∧ cellAt cells ci = some t ∧
        orderEncode env (sch.oidAt ci) t = .ok u := by
  unfold encodeColumn
  cases hci : sch.colIndex env col with
  | none => simp
  | some ci =>
    cases hcell : cellAt cells ci with
    | none => simp [hcell]
    | some t =>
      cases henc : orderEncode env (sch.oidAt ci) t with
      | error e | ok w => simp [hcell, henc, bind, Except.bind]

theorem concatParts_some (b : Bytes) (ps : List (ExecM (Option Bytes))) :
    concatParts (.ok (some b) :: ps) = (concatParts ps).map (Option.map (b ++ ·)) := by
  cases h : concatParts ps with
  | error e | ok o => simp only [concatParts, h, bind, Except.bind, Except.map]

theorem encodeIndexTuple_cons {col : Bytes} {cols : List Bytes} {tuple : Bytes} :
    encodeIndexTuple env sch (col :: cols) cells = .ok (some tuple) ↔
      ∃ u rest, encodeColumn env sch cells col = .ok (some u) ∧
        encodeIndexTuple env sch cols cells = .ok (some rest) ∧ tuple = u ++ rest := by
  unfold encodeIndexTuple
  rw [List.map_cons]
  cases encodeColumn env sch cells col with
  | error e => simp [concatParts, bind, Except.bind]
  | ok o =>
    cases o with
    | none => simp [concatParts, bind, Except.bind]
    | some u =>
      rw [concatParts_some]
      cases concatParts (cols.map (encodeColumn env sch cells)) with
      | error e => simp [Except.map]
      | ok o =>
        cases o with
        | none => simp [Except.map]
        | some rest => simp [Except.map, eq_comm]

end tuples

end BasuyuDb.Executor
