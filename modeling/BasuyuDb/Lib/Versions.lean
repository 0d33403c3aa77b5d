import BasuyuDb.Lib.OrdMap

/-
  A multi-version store: a log of timestamped writes, the latest write in front.
  A write at an existing (key, timestamp) replaces it, so `cell` takes the first match.
  `newestLe s k t` is the newest version of `k` at or below `t`; a version without a value
  is a delete marker. `read` is a managed read at `t`: the newest version, nothing when
  that is a delete marker. `view s t` is everything such a read can return, as one map.
-/

namespace KvLib
open List Option

variable {K V : Type} [LinearOrder K]

/-! ## Mutations -/

/-- One key write or delete. `value` is ignored when `delete` is set. -/
structure Mutation (K V : Type) where
  key : K
  value : V
  delete : Bool
deriving DecidableEq

/-- What a mutation leaves at its key. -/
def Mutation.effect (m : Mutation K V) : Option V := if m.delete then none else some m.value

/-- The last mutation of `k` in the list, if any. -/
def lastMutation (ms : List (Mutation K V)) (k : K) : Option (Mutation K V) :=
  ms.reverse.find? fun m => decide (m.key = k)

/-- What the last mutation of `k` leaves there. -/
def lastEffect (ms : List (Mutation K V)) (k : K) : Option (Option V) := (lastMutation ms k).map Mutation.effect

variable (l : List (K × V)) (m : OrdMap K V) (xs ys : List (Mutation K V))

/-- A map with mutations applied in order: the last write of a key wins. -/
def overlay (ms : List (Mutation K V)) : OrdMap K V := ms.foldl (fun m x => m.set x.key x.effect) m

theorem lastMutation_concat (ms : List (Mutation K V)) (m : Mutation K V) (k : K) :
    lastMutation (ms ++ [m]) k = if m.key = k then some m else lastMutation ms k := by
  unfold lastMutation
  by_cases h : m.key = k
  · simp [h]
  · simp [h]

variable {ms : List (Mutation K V)} {k : K}

theorem lastMutation_key {m : Mutation K V} (h : lastMutation ms k = some m) : m.key = k := by
  simpa using find?_some h

theorem lastEffect_nil (k : K) : lastEffect ([] : List (Mutation K V)) k = none := rfl

theorem lastEffect_append (k : K) : lastEffect (xs ++ ys) k = (lastEffect ys k).or (lastEffect xs k) := by
  unfold lastEffect lastMutation
  rw [reverse_append, find?_append]
  cases ys.reverse.find? (fun m => decide (m.key = k)) <;> rfl

theorem lastEffect_single (m : Mutation K V) (k : K) :
    lastEffect [m] k = if k = m.key then some m.effect else none := by
  unfold lastEffect lastMutation
  by_cases h : k = m.key
  · simp [h]
  · simp [h, Ne.symm h]

theorem lastEffect_eq_none : lastEffect ms k = none ↔ ∀ m ∈ ms, m.key ≠ k := by
  unfold lastEffect lastMutation
  simp

theorem lastEffect_of_mem {m : Mutation K V} (h : m ∈ ms) : ∃ e, lastEffect ms m.key = some e := by
  cases hl : lastEffect ms m.key with
  | none => exact absurd rfl (lastEffect_eq_none.mp hl m h)
  | some e => exact ⟨e, rfl⟩

theorem lastEffect_mem {e : Option V} (h : lastEffect ms k = some e) : ∃ m ∈ ms, m.key = k ∧ m.effect = e := by
  unfold lastEffect at h
  obtain ⟨m, hm, he⟩ := map_eq_some_iff.mp h
  exact ⟨m, mem_reverse.mp (mem_of_find?_eq_some hm), lastMutation_key hm, he⟩

theorem overlay_nil : overlay m [] = m := rfl

theorem overlay_append : overlay m (xs ++ ys) = overlay (overlay m xs) ys := by
  unfold overlay
  rw [foldl_append]

theorem overlay_cons (x : Mutation K V) (xs : List (Mutation K V)) :
    overlay m (x :: xs) = overlay (m.set x.key x.effect) xs := rfl

theorem lookup_overlay (ms : List (Mutation K V)) (k : K) :
    (overlay m ms).lookup k = (lastEffect ms k).getD (m.lookup k) := by
  induction ms using List.reverseRecOn with
  | nil => rfl
  | append_singleton ms x ih =>
    rw [overlay_append, lastEffect_append, lastEffect_single, overlay_cons, overlay_nil, OrdMap.lookup_set, ih]
    split <;> rfl

/-- `overlay` on the entry lists. -/
def overlayL (ms : List (Mutation K V)) : List (K × V) := ms.foldl (fun l x => setL l x.key x.effect) l

theorem entries_overlay (ms : List (Mutation K V)) : (overlay m ms).entries = overlayL m.entries ms := by
  induction ms generalizing m with
  | nil => rfl
  | cons x ms ih => exact ih (m.set x.key x.effect)

/-- Mutations of larger keys leave the first entry alone. -/
theorem overlayL_cons_of_lt {e : K × V} {l : List (K × V)}
    (h : ∀ x ∈ ms, e.1 < x.key) : overlayL (e :: l) ms = e :: overlayL l ms := by
  induction ms generalizing l with
  | nil => rfl
  | cons x ms ih =>
    have hx : e.1 < x.key := h x mem_cons_self
    have hset : setL (e :: l) x.key x.effect = e :: setL l x.key x.effect := by
      rw [setL, if_neg (lt_asymm hx), if_neg (ne_of_gt hx)]
    calc overlayL (e :: l) (x :: ms) = overlayL (setL (e :: l) x.key x.effect) ms := rfl
      _ = e :: overlayL (setL l x.key x.effect) ms := by
        rw [hset, ih fun y hy => h y (mem_cons_of_mem _ hy)]

theorem length_setL_le (k : K) (o : Option V) : (setL l k o).length ≤ l.length + 1 := by
  induction l with
  | nil => cases o <;> simp [setL, consOpt]
  | cons e l ih =>
    simp only [setL]
    split
    · cases o <;> simp [consOpt]
    · split
      · cases o with
        | none => exact Nat.le_succ_of_le (Nat.le_succ _)
        | some v => exact Nat.le_succ _
      · simpa using ih

theorem length_overlayL_le (ms : List (Mutation K V)) : (overlayL l ms).length ≤ l.length + ms.length := by
  induction ms generalizing l with
  | nil => exact le_rfl
  | cons x ms ih =>
    have h1 := ih (setL l x.key x.effect)
    have h2 := length_setL_le l x.key x.effect
    rw [length_cons]
    exact Nat.le_trans h1 (by omega)

/-! ## Versions -/

structure Version (K V : Type) where
  key : K
  ts : Nat
  val : Option V

/-- The write log of a store, latest write first. -/
abbrev Versions (K V : Type) := List (Version K V)

namespace Versions

/-- The version of `k` written at exactly `t`. -/
def cell (s : Versions K V) (k : K) (t : Nat) : Option (Option V) :=
  (s.find? fun x => decide (x.key = k) && decide (x.ts = t)).map Version.val

/-- The newest version of `k` at or below `t`, with its timestamp. -/
def newestLe (s : Versions K V) (k : K) : Nat → Option (Nat × Option V)
  | 0 => (cell s k 0).map fun v => (0, v)
  | t + 1 =>
    match cell s k (t + 1) with
    | some v => some (t + 1, v)
    | none => newestLe s k t

/-- A managed read of `k` at `t`. -/
def read (s : Versions K V) (k : K) (t : Nat) : Option V := (newestLe s k t).bind Prod.snd

/-- The largest timestamp in the store, 0 when it is empty. -/
def maxVersion (s : Versions K V) : Nat := s.foldr (fun x m => max x.ts m) 0

/-- Everything a managed read at `t` can return. -/
def view (s : Versions K V) (t : Nat) : OrdMap K V := OrdMap.ofKeys (s.map Version.key) fun k => read s k t

/-- Write one mutation at `ts`. -/
def writeAt (ts : Nat) (s : Versions K V) (m : Mutation K V) : Versions K V := ⟨m.key, ts, m.effect⟩ :: s

/-- Write a batch at `ts`, in order. -/
def writeBatch (s : Versions K V) (ts : Nat) (ms : List (Mutation K V)) : Versions K V := ms.foldl (writeAt ts) s

theorem cell_cons (x : Version K V) (s : Versions K V) (k : K) (t : Nat) :
    cell (x :: s) k t = if k = x.key ∧ t = x.ts then some x.val else cell s k t := by
  unfold cell
  rw [find?_cons]
  by_cases h : k = x.key ∧ t = x.ts
  · obtain ⟨rfl, rfl⟩ := h
    simp
  · rw [if_neg h]
    have : (decide (x.key = k) && decide (x.ts = t)) = false := by
      rw [Bool.and_eq_false_iff, decide_eq_false_iff_not, decide_eq_false_iff_not]
      by_cases hk : x.key = k
      · exact Or.inr fun ht => h ⟨hk.symm, ht.symm⟩
      · exact Or.inl hk
    rw [this]

theorem cell_writeBatch (s : Versions K V) (ts : Nat) (ms : List (Mutation K V)) (k : K) (t : Nat) :
    cell (writeBatch s ts ms) k t = if t = ts then (lastEffect ms k).or (cell s k t) else cell s k t := by
  induction ms using List.reverseRecOn with
  | nil => simp [writeBatch, lastEffect_nil]
  | append_singleton ms x ih =>
    have hw : writeBatch s ts (ms ++ [x]) = writeAt ts (writeBatch s ts ms) x := by
      unfold writeBatch
      rw [foldl_append]
      rfl
    rw [hw, writeAt, cell_cons, ih, lastEffect_append, lastEffect_single]
    by_cases ht : t = ts
    · by_cases hk : k = x.key
      · simp [ht, hk]
      · simp [ht, hk]
    · simp [ht]

variable {ts t : Nat} {s s' : Versions K V}

theorem cell_writeBatch_ne (s : Versions K V) (ms : List (Mutation K V)) (k : K)
    (h : t ≠ ts) : cell (writeBatch s ts ms) k t = cell s k t := by
  rw [cell_writeBatch, if_neg h]

theorem newestLe_congr (h : ∀ t', t' ≤ t → cell s k t' = cell s' k t') : newestLe s k t = newestLe s' k t := by
  induction t with
  | zero => rw [newestLe, newestLe, h 0 le_rfl]
  | succ t ih =>
    rw [newestLe, newestLe, h (t + 1) le_rfl, ih fun t' ht => h t' (by omega)]

theorem newestLe_some {t0 : Nat} {v : Option V} (h : newestLe s k t = some (t0, v)) :
    t0 ≤ t ∧ cell s k t0 = some v ∧ ∀ t', t0 < t' → t' ≤ t → cell s k t' = none := by
  induction t with
  | zero =>
    rw [newestLe, map_eq_some_iff] at h
    obtain ⟨a, ha, hp⟩ := h
    cases hp
    exact ⟨le_rfl, ha, fun t' h1 h2 => absurd h2 (by omega)⟩
  | succ t ih =>
    rw [newestLe] at h
    split at h
    · rename_i a ha
      cases h
      exact ⟨le_rfl, ha, fun t' h1 h2 => absurd h2 (by omega)⟩
    · rename_i ha
      obtain ⟨h1, h2, h3⟩ := ih h
      refine ⟨by omega, h2, ?_⟩
      intro t' h4 h5
      rcases Nat.lt_or_ge t t' with h6 | h6
      · have : t' = t + 1 := by omega
        rw [this, ha]
      · exact h3 t' h4 h6

theorem newestLe_none : newestLe s k t = none ↔ ∀ t', t' ≤ t → cell s k t' = none := by
  induction t with
  | zero =>
    rw [newestLe, map_eq_none_iff]
    constructor
    · intro h t' ht
      rw [Nat.le_zero.mp ht, h]
    · intro h
      exact h 0 le_rfl
  | succ t ih =>
    rw [newestLe]
    split
    · rename_i a ha
      constructor
      · intro h; cases h
      · intro h
        rw [h (t + 1) le_rfl] at ha
        cases ha
    · rename_i ha
      rw [ih]
      constructor
      · intro h t' ht
        rcases Nat.lt_or_ge t t' with h6 | h6
        · have : t' = t + 1 := by omega
          rw [this, ha]
        · exact h t' h6
      · intro h t' ht
        exact h t' (by omega)

/-- A version at `t' ≤ t` is not newer than the newest one at or below `t`. -/
theorem newestLe_ge {t' : Nat} (ht : t' ≤ t)
    (hc : cell s k t' ≠ none) : ∃ t0 v, newestLe s k t = some (t0, v) ∧ t' ≤ t0 := by
  cases hn : newestLe s k t with
  | none => exact absurd (newestLe_none.mp hn t' ht) hc
  | some p =>
    obtain ⟨t0, v⟩ := p
    refine ⟨t0, v, rfl, ?_⟩
    obtain ⟨_, _, h3⟩ := newestLe_some hn
    rcases Nat.lt_or_ge t0 t' with h | h
    · exact absurd (h3 t' h ht) hc
    · exact h

/-- The newest version is the one at `t0` when nothing lies between `t0` and `t`. -/
theorem newestLe_eq {t0 : Nat} (h0 : t0 ≤ t)
    (h : ∀ t', t0 < t' → t' ≤ t → cell s k t' = none) : newestLe s k t = newestLe s k t0 := by
  induction t with
  | zero => rw [Nat.le_zero.mp h0]
  | succ t ih =>
    rcases Nat.lt_or_ge t t0 with h1 | h1
    · have : t0 = t + 1 := by omega
      rw [this]
    · rw [newestLe, h (t + 1) (by omega) le_rfl]
      exact ih h1 fun t' h2 h3 => h t' h2 (by omega)

omit [LinearOrder K] in
theorem ts_le_maxVersion {x : Version K V} (h : x ∈ s) : x.ts ≤ maxVersion s := by
  induction s with
  | nil => cases h
  | cons y s ih =>
    simp only [maxVersion, foldr_cons]
    rcases mem_cons.mp h with rfl | h
    · exact Nat.le_max_left _ _
    · exact Nat.le_trans (ih h) (Nat.le_max_right _ _)

omit [LinearOrder K] in
theorem maxVersion_le (h : ∀ x ∈ s, x.ts ≤ t) : maxVersion s ≤ t := by
  induction s with
  | nil => exact Nat.zero_le _
  | cons x s ih =>
    exact Nat.max_le.mpr ⟨h x mem_cons_self, ih fun y hy => h y (mem_cons_of_mem _ hy)⟩

omit [LinearOrder K] in
theorem mem_writeBatch {ms : List (Mutation K V)} {x : Version K V}
    (h : x ∈ writeBatch s ts ms) : x ∈ s ∨ x.ts = ts := by
  induction ms generalizing s with
  | nil => exact Or.inl h
  | cons m ms ih =>
    rcases ih h with h | h
    · rcases mem_cons.mp h with rfl | h
      · exact Or.inr rfl
      · exact Or.inl h
    · exact Or.inr h

theorem mem_of_cell (h : cell s k t ≠ none) : ∃ x ∈ s, x.key = k ∧ x.ts = t := by
  obtain ⟨o, ho⟩ := ne_none_iff_exists'.mp h
  obtain ⟨x, hx, -⟩ := map_eq_some_iff.mp ho
  exact ⟨x, mem_of_find?_eq_some hx, by simpa using find?_some hx⟩

theorem cell_le_maxVersion (h : cell s k t ≠ none) : t ≤ maxVersion s := by
  obtain ⟨x, hx, -, rfl⟩ := mem_of_cell h
  exact ts_le_maxVersion hx

theorem lookup_view (s : Versions K V) (t : Nat) (k : K) : (view s t).lookup k = read s k t := by
  rw [view, OrdMap.lookup_ofKeys]
  split
  · rfl
  · rename_i hk
    have : newestLe s k t = none := by
      rw [newestLe_none]
      intro t' _
      by_contra hc
      obtain ⟨x, hx, rfl, -⟩ := mem_of_cell hc
      exact hk (List.mem_map_of_mem hx)
    rw [read, this]
    rfl

/-- A later read sees what an earlier one saw, or a version written in between. -/
theorem read_later (s : Versions K V) (k : K) {t₀ : Nat} (h : t₀ ≤ t) :
    read s k t = read s k t₀ ∨ ∃ t', t₀ < t' ∧ t' ≤ t ∧ cell s k t' = some (read s k t) := by
  cases hn : newestLe s k t with
  | none =>
    have h0 : newestLe s k t₀ = none := newestLe_none.mpr fun t' ht => newestLe_none.mp hn t' (Nat.le_trans ht h)
    exact .inl (by rw [read, read, hn, h0])
  | some p =>
    obtain ⟨t', x⟩ := p
    obtain ⟨hle, hcell, hnone⟩ := newestLe_some hn
    rcases Nat.lt_or_ge t₀ t' with hlt | hge
    · exact .inr ⟨t', hlt, hle, by rw [hcell, read, hn]; rfl⟩
    · refine .inl ?_
      rw [read, read, newestLe_eq h fun u h1 h2 => hnone u (Nat.lt_of_le_of_lt hge h1) h2]

/-- A batch at `ts` does not change reads below `ts`. -/
theorem read_writeBatch_lt (s : Versions K V) (ms : List (Mutation K V)) (k : K)
    (h : t < ts) : read (writeBatch s ts ms) k t = read s k t := by
  unfold read
  rw [newestLe_congr fun t' ht => cell_writeBatch_ne s ms k (by omega)]

theorem view_writeBatch_lt (s : Versions K V) (ms : List (Mutation K V))
    (h : t < ts) : view (writeBatch s ts ms) t = view s t := by
  apply OrdMap.ext_lookup
  intro k
  rw [lookup_view, lookup_view, read_writeBatch_lt s ms k h]

/-- A read at the batch's own timestamp sees the batch over what was there. -/
theorem read_writeBatch_self (s : Versions K V) (t : Nat) (ms : List (Mutation K V)) (k : K) :
    read (writeBatch s (t + 1) ms) k (t + 1) = (lastEffect ms k).getD (read s k (t + 1)) := by
  have hlow : newestLe (writeBatch s (t + 1) ms) k t = newestLe s k t :=
    newestLe_congr fun t' ht => cell_writeBatch_ne s ms k (by omega)
  unfold read
  rw [newestLe, newestLe, cell_writeBatch, if_pos rfl, hlow]
  cases lastEffect ms k with
  | none | some e => rfl

/-! ## Stores with the same versions -/

/-- The two stores hold the same version of every key at every timestamp. -/
def SameCells (s s' : Versions K V) : Prop := ∀ k t, cell s k t = cell s' k t

theorem SameCells.read_eq (h : SameCells s s') (k : K) (t : Nat) : read s k t = read s' k t := by
  unfold read
  rw [newestLe_congr fun t' _ => h k t']

/-- Above the largest timestamp the newest version does not change. -/
theorem newestLe_of_maxVersion_le (s : Versions K V) (k : K) (h : maxVersion s ≤ t) :
    newestLe s k t = newestLe s k (maxVersion s) := by
  apply newestLe_eq h
  intro t' h1 _
  by_contra hc
  exact absurd (cell_le_maxVersion hc) (by omega)

theorem SameCells.newest_eq (h : SameCells s s') (k : K) :
    newestLe s k (maxVersion s) = newestLe s' k (maxVersion s') := by
  have h1 := newestLe_of_maxVersion_le s k (Nat.le_max_left (maxVersion s) (maxVersion s'))
  have h2 := newestLe_of_maxVersion_le s' k (Nat.le_max_right (maxVersion s) (maxVersion s'))
  rw [← h1, ← h2, newestLe_congr fun t' _ => h k t']

theorem SameCells.writeBatch (h : SameCells s s') (ts : Nat)
    (ms : List (Mutation K V)) : SameCells (writeBatch s ts ms) (writeBatch s' ts ms) := by
  intro k t
  rw [cell_writeBatch, cell_writeBatch, h k t]

/-- Writing a batch again at its timestamp changes no version. -/
theorem sameCells_rewrite {ms : List (Mutation K V)} (h : ∀ k e, lastEffect ms k = some e → cell s k ts = some e) :
    SameCells (Versions.writeBatch s ts ms) s := by
  intro k t
  rw [cell_writeBatch]
  split
  · rename_i ht
    subst ht
    cases hl : lastEffect ms k with
    | none => rfl
    | some e => exact (h k e hl).symm
  · rfl

end Versions

end KvLib
