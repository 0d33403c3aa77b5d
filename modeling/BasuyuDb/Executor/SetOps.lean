import BasuyuDb.Executor.Value

/-
  engine/internal/executor/setop.go, join.go (dedupRows, distinctOnRows), cte.go (rowKey), window.go
  (computeOneWindow): signatures of rows, and the set operations that count them. A signature writes the
  cells one after the other with a separator that a text may contain, so different rows can share one
  (`signatures_faithful_iff`). Up to signatures the multiplicities are those of SQL (`set_operation_counts`).
-/

namespace BasuyuDb.Executor
open List

/-! ## Signatures -/

/-- One cell: `null`, or the text behind `mark`. -/
def signCell (null mark : Bytes) : Datum → Bytes
  | none => null
  | some t => mark ++ t

/-- The loop that builds the signatures: each cell, and `stop` behind it. -/
def signature (null mark : Bytes) (stop : Byte) : Data → Bytes
  | [] => []
  | d :: row => signCell null mark d ++ stop :: signature null mark stop row

/-- `datumRowKey`: `\x00N|`, or 0x01, the text and `|`. -/
def datumRowKey : Data → Bytes := signature [0, 78] [1] 124

/-- The key of `dedupRows`, and of DISTINCT in `execAggregate`. -/
def dedupKey : Data → Bytes := signature [0, 78] [1] 124

/-- The key of `distinctOnRows`. -/
def distinctOnKey : Data → Bytes := signature [0, 78] [1] 124

/-- `rowKey` of a recursive query: `\x00N\x00` or the text, and 0x1f. -/
def cteRowKey : Data → Bytes := signature [0, 78, 0] [] 31

/-- The partition key of `computeOneWindow`. -/
def partitionKey : Data → Bytes := signature [0] [1] 124

/-- Among the rows of one length that satisfy `ok`, equal signatures are those of equal rows. -/
def FaithfulOn (ok : Data → Prop) (sign : Data → Bytes) : Prop :=
  ∀ r r', r.length = r'.length → ok r → ok r' → (sign r = sign r' ↔ r = r')

section signatures
variable {null mark : Bytes} {stop : Byte}

theorem signature_inj {r r' : Data} (hlen : r.length = r'.length)
    (hr : ∀ d ∈ r, stop ∉ signCell null mark d) (hr' : ∀ d ∈ r', stop ∉ signCell null mark d)
    (hcell : ∀ d ∈ r, ∀ d' ∈ r', signCell null mark d = signCell null mark d' → d = d')
    (h : signature null mark stop r = signature null mark stop r') : r = r' := by
  induction r generalizing r' with
  | nil => exact (length_eq_zero_iff.mp hlen.symm).symm
  | cons d r ih =>
    cases r' with
    | nil => cases hlen
    | cons d' r' =>
      obtain ⟨hd, hrest⟩ := KvLib.append_stop_inj (hr d mem_cons_self) (hr' d' mem_cons_self) h
      rw [hcell d mem_cons_self d' mem_cons_self hd]
      refine congrArg _ (ih (Nat.succ.inj hlen) (fun x hx => hr x (.tail _ hx)) (fun x hx => hr' x (.tail _ hx)) ?_ hrest)
      exact fun x hx y hy => hcell x (.tail _ hx) y (.tail _ hy)

theorem signCell_inj (hnull : ∀ t, null ≠ 1 :: t) {d d' : Datum} (h : signCell null [1] d = signCell null [1] d') :
    d = d' := by
  cases d with
  | none =>
    cases d' with
    | none => rfl
    | some t => exact absurd h (hnull t)
  | some t =>
    cases d' with
    | none => exact absurd h.symm (hnull t)
    | some t' => exact congrArg some (List.cons.inj h).2

theorem marked_width_iff (hnull : ∀ t, null ≠ 1 :: t) (n : Nat) :
    FaithfulOn (·.length = n) (signature null [1] 124) ↔ n ≤ 1 := by
  constructor
  · intro h
    by_contra hn
    obtain ⟨m, rfl⟩ := Nat.exists_eq_add_of_le' (Nat.not_le.mp hn)
    have hsame := (h (some [124, 1] :: some [] :: List.replicate m none) (some [] :: some [124, 1] :: List.replicate m none)
      rfl (by simp) (by simp)).mp rfl
    exact absurd (List.cons.inj hsame).1 (by decide)
  · intro hn r r' hlen hr _
    refine ⟨fun h => ?_, fun h => h ▸ rfl⟩
    match r, r', hlen with
    | [], [], _ => rfl
    | [d], [d'], _ => rw [signCell_inj hnull (append_cancel_right h)]
    | _ :: _ :: _, _, _ => exact absurd (hr ▸ hn) (by simp)

theorem marked_plain (hnull : ∀ t, null ≠ 1 :: t) (hstop : 124 ∉ null) :
    FaithfulOn (fun r => ∀ t, some t ∈ r → 124 ∉ t) (signature null [1] 124) := by
  intro r r' hlen hr hr'
  have hplain : ∀ x : Data, (∀ t, some t ∈ x → (124 : Byte) ∉ t) → ∀ d ∈ x, 124 ∉ signCell null [1] d := by
    intro x hx d hd
    cases d with
    | none => exact hstop
    | some t => exact not_mem_cons_of_ne_of_not_mem (by decide) (hx t hd)
  exact ⟨signature_inj hlen (hplain r hr) (hplain r' hr') fun _ _ _ _ => signCell_inj hnull, fun h => h ▸ rfl⟩

end signatures

/-- The signatures tell rows apart exactly when the rows have one column, for recursive queries none. They do
    so for rows of any width whose texts do not contain the separator. -/
theorem signatures_faithful_iff (n : Nat) : (∀ sign ∈ [datumRowKey, dedupKey, distinctOnKey, partitionKey],
      (FaithfulOn (·.length = n) sign ↔ n ≤ 1) ∧ FaithfulOn (fun r => ∀ t, some t ∈ r → 124 ∉ t) sign) ∧
    (FaithfulOn (·.length = n) cteRowKey ↔ n = 0) ∧
    FaithfulOn (fun r => ∀ t, some t ∈ r → 31 ∉ t ∧ t ≠ [0, 78, 0]) cteRowKey := by
  have hmarked : ∀ null : Bytes, (∀ t, null ≠ 1 :: t) → 124 ∉ null →
      (FaithfulOn (·.length = n) (signature null [1] 124) ↔ n ≤ 1) ∧
        FaithfulOn (fun r => ∀ t, some t ∈ r → 124 ∉ t) (signature null [1] 124) :=
    fun null h h' => ⟨marked_width_iff h n, marked_plain h h'⟩
  have hrow := hmarked [0, 78] nofun (by decide)
  refine ⟨?_, ⟨fun h => ?_, ?_⟩, fun r r' hlen hr hr' => ⟨fun h => ?_, fun h => h ▸ rfl⟩⟩
  · intro sign hsign
    simp only [mem_cons, not_mem_nil, or_false] at hsign
    rcases hsign with rfl | rfl | rfl | rfl
    · exact hrow
    · exact hrow
    · exact hrow
    · exact hmarked [0] nofun (by decide)
  · by_contra hn
    obtain ⟨m, rfl⟩ := Nat.exists_eq_add_one_of_ne_zero hn
    have hsame := (h (none :: List.replicate m none) (some [0, 78, 0] :: List.replicate m none) rfl (by simp) (by simp)).mp rfl
    cases (List.cons.inj hsame).1
  · rintro rfl r r' hlen hr -
    rw [length_eq_zero_iff.mp hr, length_eq_zero_iff.mp (hlen.symm.trans hr)]
    exact iff_of_true rfl rfl
  · have hplain : ∀ x : Data, (∀ t, some t ∈ x → (31 : Byte) ∉ t ∧ t ≠ [0, 78, 0]) →
        ∀ d ∈ x, 31 ∉ signCell [0, 78, 0] [] d := by
      intro x hx d hd
      cases d with
      | none => decide
      | some t => exact (hx t hd).1
    refine signature_inj hlen (hplain r hr) (hplain r' hr') (fun d hd d' hd' heq => ?_) h
    cases d with
    | none =>
      cases d' with
      | none => rfl
      | some t => exact absurd heq.symm (hr' t hd').2
    | some t =>
      cases d' with
      | none => exact absurd heq (hr t hd).2
      | some t' => exact congrArg some heq

/-! ## Set operations -/

/-- The loops of `dedupRows`, `intersectRows` and `exceptRows` without ALL: a row is kept when its key passes and
no row before it with that key was kept. -/
def keepFirst (key : Data → Bytes) (keep : Bytes → Bool) : List Bytes → List Data → List Data
  | _, [] => []
  | seen, r :: rows =>
    if keep (key r) && key r ∉ seen then r :: keepFirst key keep (key r :: seen) rows else keepFirst key keep seen rows

def dedupRows (rows : List Data) : List Data := keepFirst dedupKey (fun _ => true) [] rows

/-- `rc[datumRowKey(r)]++` for every row. -/
def countKeys (rows : List Data) : Bytes → Nat :=
  rows.foldl (fun rc r => Function.update rc (datumRowKey r) (rc (datumRowKey r) + 1)) fun _ => 0

/-- The loops with ALL: the rows that use up a count, and the others. -/
def spend : (Bytes → Nat) → List Data → List Data × List Data
  | _, [] => ([], [])
  | rc, r :: rows =>
    if 0 < rc (datumRowKey r) then
      let rest := spend (Function.update rc (datumRowKey r) (rc (datumRowKey r) - 1)) rows
      (r :: rest.1, rest.2)
    else
      let rest := spend rc rows
      (rest.1, r :: rest.2)

def intersectRows (left right : List Data) (all : Bool) : List Data :=
  if all then (spend (countKeys right) left).1
  else keepFirst datumRowKey (fun k => 0 < countKeys right k) [] left

def exceptRows (left right : List Data) (all : Bool) : List Data :=
  if all then (spend (countKeys right) left).2
  else keepFirst datumRowKey (fun k => countKeys right k = 0) [] left

inductive SetOp where
  | union
  | intersect
  | except

/-- The switch of `execSetOp`. -/
def setOpRows (op : SetOp) (all : Bool) (left right : List Data) : List Data :=
  match op with
  | .union => if all then left ++ right else dedupRows (left ++ right)
  | .intersect => intersectRows left right all
  | .except => exceptRows left right all

/-- How often a row occurs, up to its signature. -/
def occurs (k : Bytes) (rows : List Data) : Nat := rows.countP fun r => datumRowKey r = k

section counts
variable {k : Bytes} {rows : List Data}

theorem occurs_cons (r : Data) : occurs k (r :: rows) = occurs k rows + if datumRowKey r = k then 1 else 0 := by
  simp [occurs, countP_cons]

theorem countKeys_apply : countKeys rows k = occurs k rows := by
  have hfold : ∀ rc : Bytes → Nat, rows.foldl (fun rc r => Function.update rc (datumRowKey r) (rc (datumRowKey r) + 1)) rc k =
      rc k + occurs k rows := by
    induction rows with
    | nil => exact fun _ => rfl
    | cons r rows ih =>
      intro rc
      rw [foldl_cons, ih, occurs_cons, Function.update_apply]
      by_cases h : datumRowKey r = k
      · rw [if_pos h.symm, if_pos h, h]
        omega
      · rw [if_neg (Ne.symm h), if_neg h]
        rfl
  exact (hfold _).trans (Nat.zero_add _)

theorem occurs_spend (rc : Bytes → Nat) : occurs k (spend rc rows).1 = min (occurs k rows) (rc k) ∧
    occurs k (spend rc rows).2 = occurs k rows - rc k := by
  induction rows generalizing rc with
  | nil => exact ⟨(Nat.zero_min _).symm, (Nat.zero_sub _).symm⟩
  | cons r rows ih =>
    unfold spend
    split
    · rename_i hpos
      obtain ⟨h1, h2⟩ := ih (Function.update rc (datumRowKey r) (rc (datumRowKey r) - 1))
      simp only [occurs_cons, h1, h2, Function.update_apply, eq_comm (a := k)]
      split
      · rename_i hk
        rw [hk] at hpos
        rw [hk]
        omega
      · simp
    · rename_i hpos
      obtain ⟨h1, h2⟩ := ih rc
      simp only [occurs_cons, h1, h2]
      split
      · rename_i hk
        rw [hk] at hpos
        omega
      · simp

theorem spend_sublist (rc : Bytes → Nat) : (spend rc rows).1.Sublist rows ∧ (spend rc rows).2.Sublist rows := by
  induction rows generalizing rc with
  | nil => exact ⟨.slnil, .slnil⟩
  | cons r rows ih =>
    unfold spend
    split
    · exact ⟨(ih _).1.cons_cons r, (ih _).2.cons r⟩
    · exact ⟨(ih _).1.cons r, (ih _).2.cons_cons r⟩

theorem occurs_keepFirst (keep : Bytes → Bool) (seen : List Bytes) : occurs k (keepFirst datumRowKey keep seen rows) =
    if keep k = true ∧ k ∉ seen ∧ 0 < occurs k rows then 1 else 0 := by
  induction rows generalizing seen with
  | nil => simp [keepFirst, occurs]
  | cons r rows ih =>
    unfold keepFirst
    by_cases hk : datumRowKey r = k
    · subst hk
      by_cases hkeep : keep (datumRowKey r) = true ∧ datumRowKey r ∉ seen
      · simp [hkeep.1, hkeep.2, occurs_cons, ih]
      · rw [if_neg (by simpa using hkeep), ih, if_neg fun h => hkeep ⟨h.1, h.2.1⟩, if_neg fun h => hkeep ⟨h.1, h.2.1⟩]
    · split
      · simp [occurs_cons, ih, hk, Ne.symm hk]
      · simp [occurs_cons, ih, hk]

theorem keepFirst_sublist (key : Data → Bytes) (keep : Bytes → Bool) (seen : List Bytes) :
    (keepFirst key keep seen rows).Sublist rows := by
  induction rows generalizing seen with
  | nil => exact .slnil
  | cons r rows ih =>
    unfold keepFirst
    split
    · exact (ih _).cons_cons r
    · exact (ih _).cons r

end counts

/-- How often a row occurs in the result of a set operation, and in which order the rows are kept. -/
theorem set_operation_counts (left right : List Data) (r : Data) :
    let l := occurs (datumRowKey r) left
    let q := occurs (datumRowKey r) right
    let result := fun op all => occurs (datumRowKey r) (setOpRows op all left right)
    result .intersect true = min l q ∧ result .except true = l - q ∧ result .union true = l + q ∧
      result .intersect false = (if 0 < l ∧ 0 < q then 1 else 0) ∧
      result .except false = (if 0 < l ∧ q = 0 then 1 else 0) ∧ result .union false = (if 0 < l + q then 1 else 0) ∧
      (∀ all, (setOpRows .intersect all left right).Sublist left ∧ (setOpRows .except all left right).Sublist left ∧
        (setOpRows .union all left right).Sublist (left ++ right)) := by
  intro l q result
  have happend : occurs (datumRowKey r) (left ++ right) = l + q := countP_append
  refine ⟨?_, ?_, happend, ?_, ?_, ?_, fun all => ?_⟩
  · exact (occurs_spend _).1.trans (by rw [countKeys_apply])
  · exact (occurs_spend _).2.trans (by rw [countKeys_apply])
  · refine (occurs_keepFirst _ _).trans ?_
    simp [countKeys_apply, l, q, and_comm]
  · refine (occurs_keepFirst _ _).trans ?_
    simp [countKeys_apply, l, q, and_comm]
  · refine (occurs_keepFirst _ _).trans ?_
    simp [happend]
  · cases all with
    | true => exact ⟨(spend_sublist _).1, (spend_sublist _).2, .refl _⟩
    | false => exact ⟨keepFirst_sublist _ _ _, keepFirst_sublist _ _ _, keepFirst_sublist _ _ _⟩

/-- SELECT DISTINCT, UNION and EXCEPT take ('|\x01', '') and ('', '|\x01') for one row. -/
theorem distinct_rows_merged :
    let a : Data := [some [124, 1], some []]
    let b : Data := [some [], some [124, 1]]
    a ≠ b ∧ dedupRows [a, b] = [a] ∧ setOpRows .union false [a] [b] = [a] ∧ setOpRows .except true [a] [b] = [] := by
  decide

end BasuyuDb.Executor
