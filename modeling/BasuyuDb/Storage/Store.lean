import BasuyuDb.Lib.OrderCode
import BasuyuDb.Lib.Versions
import BasuyuDb.Storage.Keys

/-
  engine/internal/storage/store.go over managed BadgerDB.
  The database is a multi-version map (`Versions`); what is used of it is its documented
  behaviour: a managed read at `ts` returns the newest version at or below `ts` and
  ErrKeyNotFound when that version is a delete marker, an iterator at `ts` walks the live
  keys in byte order, a flushed write batch puts its mutations at its commit timestamp.
  Values are any type: the store never looks into them.
-/

namespace BasuyuDb.Storage
open KvLib List

variable {V : Type}

abbrev Store (V : Type) := Versions Bytes V

/-- `LatestVersion`: the version of `k` a read at MaxVersion finds, `none` for not found. -/
def latestVersion (s : Store V) (k : Bytes) : Option Nat :=
  match s.newestLe k s.maxVersion with
  | some (ts, some _) => some ts
  | _ => none

/-! ## The prefix iterator -/

/-- `badgerIterator`: the live entries of the snapshot and the ones not yet passed. -/
structure BadgerIterator (V : Type) where
  items : OrdMap Bytes V
  pre : Bytes
  rest : List (Bytes × V)

namespace BadgerIterator

variable (it : BadgerIterator V)

def seek (k : Bytes) : BadgerIterator V := { it with rest := it.items.entries.dropWhile (fun e => decide (e.1 < k)) }

def rewind : BadgerIterator V := it.seek it.pre

/-- The current entry, when `ValidForPrefix`. -/
def item : Option (Bytes × V) := it.rest.head?.filter fun e => it.pre.isPrefixOf e.1

def next : BadgerIterator V := { it with rest := it.rest.tail }

/-- What the iterator still yields. -/
def remaining : List (Bytes × V) := it.rest.takeWhile fun e => it.pre.isPrefixOf e.1

theorem item_eq_head : it.item = it.remaining.head? := by
  unfold item remaining
  cases it.rest with
  | nil => rfl
  | cons e l =>
    by_cases h : it.pre.isPrefixOf e.1 = true
    · rw [takeWhile_cons, if_pos h]
      exact if_pos h
    · rw [takeWhile_cons, if_neg h]
      exact if_neg h

theorem remaining_next {it : BadgerIterator V} {e : Bytes × V} (h : it.item = some e) :
    it.remaining = e :: it.next.remaining := by
  unfold item at h
  unfold remaining next
  cases hr : it.rest with
  | nil => rw [hr] at h; cases h
  | cons e' l =>
    rw [hr, head?_cons, Option.filter_eq_some_iff] at h
    obtain ⟨h1, h2⟩ := h
    cases h1
    rw [takeWhile_cons, if_pos h2]
    rfl

end BadgerIterator

/-- `NewIterator` of a managed transaction at `ts`. -/
def newIterator (s : Store V) (ts : Nat) (pre : Bytes) : BadgerIterator V := ⟨s.view ts, pre, []⟩

/-! ## Keys with a common prefix are contiguous -/

theorem not_lt_of_isPrefixOf {p k : Bytes} (h : p.isPrefixOf k = true) : ¬ k < p :=
  not_lt_of_prefix (List.isPrefixOf_iff_prefix.mp h)

theorem isPrefixOf_of_between {p k k' : Bytes} (h1 : ¬ k < p) (h2 : k < k')
    (h : p.isPrefixOf k' = true) : p.isPrefixOf k = true := by
  induction p generalizing k k' with
  | nil => rfl
  | cons a p ih =>
    cases k' with
    | nil => cases h
    | cons c k' =>
      obtain ⟨rfl, h'⟩ : a = c ∧ p.isPrefixOf k' = true := by simpa using h
      cases k with
      | nil => exact absurd (nil_lt_cons a p) h1
      | cons b k =>
        -- `b` lies between `a` and `a`
        have hba : ¬ b < a := fun hb => h1 (cons_lt_cons_iff.mpr (Or.inl hb))
        obtain ⟨rfl, h2'⟩ : b = a ∧ k < k' := by
          rcases cons_lt_cons_iff.mp h2 with hb | hb
          · exact absurd hb hba
          · exact hb
        have h1' : ¬ k < p := fun hk => h1 (cons_lt_cons_iff.mpr (Or.inr ⟨rfl, hk⟩))
        simp [ih h1' h2' h']

/-- In an ascending list, seeking to `k` and stopping where the prefix ends keeps exactly
the keys with the prefix from `k` on, provided `k` itself is not below the prefix. -/
theorem takeWhile_dropWhile_eq_filter {l : List (Bytes × V)} (hl : Ascending l) {p k : Bytes} (hk : ¬ k < p) :
    (l.dropWhile fun e => decide (e.1 < k)).takeWhile (fun e => p.isPrefixOf e.1)
      = l.filter (fun e => p.isPrefixOf e.1 && decide (¬ e.1 < k)) := by
  have hdrop : l.dropWhile (fun e => decide (e.1 < k)) = l.filter fun e => decide (¬ e.1 < k) := by
    rw [← dropWhile_eq_filter hl fun a b hab ha => ?_]
    · simp only [decide_not, Bool.not_not]
    · exact decide_eq_true fun hb => of_decide_eq_true ha (lt_trans hab hb)
  -- what is left lies above `p`, where the keys with the prefix come first
  have hup : (l.filter fun e => decide (¬ e.1 < k)).Pairwise fun a b => ¬ a.1 < p ∧ a.1 < b.1 := by
    refine List.Pairwise.imp_of_mem (fun ha _ hab => ⟨fun hap => ?_, hab⟩) (hl.filter _)
    exact of_decide_eq_true (mem_filter.mp ha).2 (lt_of_lt_of_le hap (not_lt.mp hk))
  rw [hdrop, takeWhile_eq_filter hup fun a b hab hb => isPrefixOf_of_between hab.1 hab.2 hb, filter_filter]

end BasuyuDb.Storage
