import Mathlib

/-
  engine/internal/transactions/hlc.go: the hybrid logical clock. Update goes back when neither the wall clock nor the
  remote time has reached the clock's, and at the clock's own time it does not look at the remote counter. Encode keeps
  milliseconds, so a Now that starts the counter again within one encodes below the last (`hlc_monotone_iff`).
-/

namespace BasuyuDb.Transactions

/-- `HLCTimestamp` without the node; an `HLC` holds the one it gave out last. -/
structure Stamp where
  wall : Nat
  logical : Fin (2 ^ 32)
deriving DecidableEq

instance : LT Stamp := ⟨fun a b => a.wall < b.wall ∨ a.wall = b.wall ∧ a.logical < b.logical⟩

instance (a b : Stamp) : Decidable (a < b) := inferInstanceAs (Decidable (_ ∨ _))

/-- Nanoseconds in 64 bits are milliseconds in 45. -/
def Stamp.encode (t : Stamp) : Nat := t.wall / 1000000 * 2 ^ 16 + t.logical.val % 2 ^ 16

/-- A call, with the wall clock it reads. -/
inductive HlcCall where
  | now (wall : Nat)
  | update (wall : Nat) (remote : Stamp)

def HlcCall.apply (h : Stamp) : HlcCall → Stamp
  | .now wall => if h.wall < wall then ⟨wall, 0⟩ else ⟨h.wall, h.logical + 1⟩
  | .update wall remote =>
    let maxWall := if wall < remote.wall then remote.wall else wall
    if maxWall = h.wall then ⟨h.wall, h.logical + 1⟩
    else if maxWall = remote.wall then
      ⟨maxWall, if h.logical ≤ remote.logical then remote.logical + 1 else h.logical + 1⟩
    else ⟨maxWall, 0⟩

/-- The calls, each with the clock before it. -/
def hlcTrace : Stamp → List HlcCall → List (Stamp × HlcCall)
  | _, [] => []
  | h, c :: calls => (h, c) :: hlcTrace (c.apply h) calls

def returned (p : Stamp × HlcCall) : Stamp := p.2.apply p.1

/-- The counter does not wrap, and Update sees a time that the clock has not passed. -/
def Advances (h : Stamp) : HlcCall → Prop
  | .now wall => h.wall < wall ∨ h.logical.val + 1 < 2 ^ 32
  | .update wall remote =>
    h.wall < max wall remote.wall ∨ h.wall = max wall remote.wall ∧ h.logical.val + 1 < 2 ^ 32

/-- The counters do not wrap, and at the clock's own time the remote one is not ahead. -/
def Passes (h : Stamp) (wall : Nat) (remote : Stamp) : Prop :=
  if max wall remote.wall = h.wall then
    remote.wall < h.wall ∨ remote.logical ≤ h.logical ∧ h.logical.val + 1 < 2 ^ 32
  else remote.wall < wall ∨ h.logical.val + 1 < 2 ^ 32 ∧ remote.logical.val + 1 < 2 ^ 32

/-- The wall clock moves by a millisecond, or not at all. -/
def Spreads (t : Stamp) (wall : Nat) : Prop :=
  if t.wall < wall then t.wall / 1000000 < wall / 1000000 else t.logical.val % 2 ^ 16 + 1 < 2 ^ 16

theorem val_add_one (l : Fin (2 ^ 32)) : (l + 1).val = (l.val + 1) % 2 ^ 32 := Fin.val_add l 1

theorem stamp_lt {a b : Stamp} : a < b ↔ a.wall < b.wall ∨ a.wall = b.wall ∧ a.logical.val < b.logical.val := Iff.rfl

theorem advances_iff (h : Stamp) (c : HlcCall) : h < returned (h, c) ↔ Advances h c := by
  have hl := h.logical.isLt
  cases c with
  | now wall =>
    simp only [returned, HlcCall.apply, Advances, stamp_lt]
    split_ifs
    · simp only; omega
    · simp only [val_add_one, true_and]; omega
  | update wall remote =>
    simp only [returned, HlcCall.apply, Advances, stamp_lt]
    split_ifs <;> simp only [val_add_one, true_and] <;> omega

theorem passes_iff (h : Stamp) (wall : Nat) (remote : Stamp) :
    remote < (HlcCall.update wall remote).apply h ↔ Passes h wall remote := by
  have hl := h.logical.isLt
  have hr := remote.logical.isLt
  simp only [HlcCall.apply, Passes, stamp_lt, Fin.le_def]
  split_ifs <;> simp only [val_add_one, true_and] <;> omega

theorem spreads_iff (t : Stamp) (wall : Nat) : t.encode < ((HlcCall.now wall).apply t).encode ↔ Spreads t wall := by
  simp only [HlcCall.apply, Stamp.encode, Spreads]
  split_ifs
  · simp only [Fin.val_zero]
    omega
  · simp only [val_add_one]
    omega

/-- Each time is after the one before it if and only if each call advances the clock. -/
theorem isChain_iff (h : Stamp) (calls : List HlcCall) :
    (h :: (hlcTrace h calls).map returned).IsChain (· < ·) ↔ ∀ p ∈ hlcTrace h calls, Advances p.1 p.2 := by
  induction calls generalizing h with
  | nil => simp [hlcTrace]
  | cons c calls ih =>
    rw [hlcTrace, List.map_cons, List.isChain_cons_cons, advances_iff, List.forall_mem_cons]
    exact and_congr_right' (ih _)

instance : IsTrans Stamp (· < ·) := ⟨fun a b c => by simp only [stamp_lt]; omega⟩

/-- The times a clock gives out increase if and only if each call advances it; Update gives out a later time than the
remote one, and a second Now encodes above the first, under the conditions named. -/
theorem hlc_monotone_iff (calls : List HlcCall) (h remote : Stamp) (wall wall' : Nat) :
    (((hlcTrace ⟨0, 0⟩ calls).map returned).Pairwise (· < ·) ↔ ∀ p ∈ hlcTrace ⟨0, 0⟩ calls, Advances p.1 p.2) ∧
      (remote < (HlcCall.update wall remote).apply h ↔ Passes h wall remote) ∧
      (((HlcCall.now wall).apply h).encode < ((HlcCall.now wall').apply ((HlcCall.now wall).apply h)).encode ↔
        Spreads ((HlcCall.now wall).apply h) wall') := by
  refine ⟨?_, passes_iff h wall remote, spreads_iff _ wall'⟩
  rw [← isChain_iff, ← List.isChain_iff_pairwise]
  cases calls with
  | nil => simp [hlcTrace]
  | cons c calls =>
    -- a new clock advances at any call
    have hfirst : Advances ⟨0, 0⟩ c := by
      cases c with
      | now wall => exact .inr (by decide)
      | update wall remote =>
        simp only [Advances, Fin.val_zero]
        omega
    rw [hlcTrace, List.map_cons, List.isChain_cons_cons, advances_iff]
    exact (and_iff_right hfirst).symm

/-- A wall clock that goes back, a remote counter ahead at the same time, and a nanosecond that passes. -/
theorem hlc_goes_back :
    (hlcTrace ⟨0, 0⟩ [.now 10, .update 3 ⟨5, 0⟩]).map returned = [⟨10, 0⟩, ⟨5, 1⟩] ∧
      (HlcCall.update 3 ⟨10, 7⟩).apply ⟨10, 0⟩ = ⟨10, 1⟩ ∧
      ((hlcTrace ⟨0, 0⟩ [.now 5, .now 5, .now 6]).map returned).map Stamp.encode = [0, 1, 0] := by
  decide

/-- The times of Now increase from the clock on, whatever the wall clock does, until the counter may wrap. -/
theorem now_monotone (h : Stamp) (walls : List Nat) (hn : h.logical.val + walls.length < 2 ^ 32) :
    (h :: (hlcTrace h (walls.map .now)).map returned).Pairwise (· < ·) := by
  rw [← List.isChain_iff_pairwise, isChain_iff]
  induction walls generalizing h with
  | nil => simp [hlcTrace]
  | cons wall walls ih =>
    rw [List.length_cons] at hn
    rw [List.map_cons, hlcTrace, List.forall_mem_cons]
    refine ⟨.inr (show h.logical.val + 1 < 2 ^ 32 by omega), ih _ ?_⟩
    simp only [HlcCall.apply]
    split <;> simp only [Fin.val_zero, val_add_one] <;> omega

theorem now_monotone_back : ([⟨0, 0⟩, ⟨5, 0⟩, ⟨5, 1⟩] : List Stamp).Pairwise (· < ·) :=
  now_monotone ⟨0, 0⟩ [5, 3] (by decide)

end BasuyuDb.Transactions
