import Mathlib

/-
  Finite maps over a linearly ordered key type, kept as an ascending list of entries.
  The order is part of the type, so a scan of a map is a list a client can observe, and
  two maps with the same lookups are equal (`ext_lookup`). `set` writes or deletes one
  key; `scan` lists the entries whose key satisfies a predicate, in key order.
-/

namespace KvLib
open List

variable {K V : Type}

/-! ## Entry lists -/

/-- Put an optional value for `k` in front of a list. -/
def consOpt (k : K) (o : Option V) (l : List (K × V)) : List (K × V) :=
  match o with
  | none => l
  | some v => (k, v) :: l

variable {k : K} {o : Option V} {l : List (K × V)}

theorem mem_consOpt {e : K × V} (h : e ∈ consOpt k o l) : e.1 = k ∨ e ∈ l := by
  cases o with
  | none => exact Or.inr h
  | some v =>
    rcases mem_cons.mp h with h | h
    · exact Or.inl (by rw [h])
    · exact Or.inr h

variable [LinearOrder K]

/-- Strictly ascending keys. -/
def Ascending (l : List (K × V)) : Prop := l.Pairwise fun a b => a.1 < b.1

def lookupL : List (K × V) → K → Option V
  | [], _ => none
  | (k', v) :: l, k => if k = k' then some v else lookupL l k

/-- Write (`some`) or delete (`none`) one key of an ascending list. -/
def setL : List (K × V) → K → Option V → List (K × V)
  | [], k, o => consOpt k o []
  | (k', v') :: l, k, o =>
    if k < k' then consOpt k o ((k', v') :: l)
    else if k = k' then consOpt k o l
    else (k', v') :: setL l k o

/-- Values are mapped before or after a write. -/
theorem setL_map {W : Type} (f : V → W) (l : List (K × V)) (k : K) (v : V) :
    setL (l.map (Prod.map id f)) k (some (f v)) = (setL l k (some v)).map (Prod.map id f) := by
  induction l with
  | nil => rfl
  | cons e l ih =>
    rw [map_cons, Prod.map_apply', setL, setL, ih, id]
    split_ifs <;> rfl

theorem lookupL_of_lt (h : ∀ e ∈ l, k < e.1) : lookupL l k = none := by
  induction l with
  | nil => rfl
  | cons e l ih =>
    have hk : k ≠ e.1 := ne_of_lt (h e mem_cons_self)
    simp only [lookupL, if_neg hk]
    exact ih fun e' he' => h e' (mem_cons_of_mem _ he')

theorem lookupL_consOpt (k k' : K) (o : Option V) (l : List (K × V)) :
    lookupL (consOpt k o l) k' = if k' = k then o.orElse (fun _ => lookupL l k') else lookupL l k' := by
  cases o with
  | none => simp [consOpt]
  | some v => simp [consOpt, lookupL]

theorem lookupL_setL (hl : Ascending l) (k k' : K) (o : Option V) :
    lookupL (setL l k o) k' = if k' = k then o else lookupL l k' := by
  induction l with
  | nil => cases o <;> simp [setL, consOpt, lookupL]
  | cons e l ih =>
    obtain ⟨hlt, hl'⟩ := pairwise_cons.mp hl
    simp only [setL]
    split
    · rename_i hk
      -- `k` is below every key of the list, so its old lookup is `none`
      have hn : lookupL (e :: l) k = none :=
        lookupL_of_lt (forall_mem_cons.mpr ⟨hk, fun e' he' => lt_trans hk (hlt e' he')⟩)
      rw [lookupL_consOpt]
      split
      · rename_i h
        rw [h, hn]
        cases o <;> rfl
      · rfl
    · split
      · rename_i h1 h2
        have hn : lookupL l k = none := lookupL_of_lt (h2 ▸ hlt)
        rw [lookupL_consOpt]
        split
        · rename_i h
          rw [h, hn]
          cases o <;> rfl
        · rename_i h
          rw [lookupL, if_neg (by rw [← h2]; exact h)]
      · rename_i h1 h2
        rw [lookupL, lookupL, ih hl']
        split
        · rename_i h
          rw [if_neg (by rw [h]; exact fun h' => h2 h'.symm)]
        · rfl

theorem mem_setL {e : K × V} (h : e ∈ setL l k o) : e.1 = k ∨ e ∈ l := by
  induction l with
  | nil => exact mem_consOpt h
  | cons x l ih =>
    simp only [setL] at h
    split at h
    · exact mem_consOpt h
    · split at h
      · exact (mem_consOpt h).imp_right (mem_cons_of_mem _)
      · rcases mem_cons.mp h with h | h
        · exact Or.inr (by rw [h]; exact mem_cons_self ..)
        · exact (ih h).imp_right (mem_cons_of_mem _)

theorem ascending_consOpt (hl : Ascending l) (h : ∀ e ∈ l, k < e.1) : Ascending (consOpt k o l) := by
  cases o with
  | none => exact hl
  | some v => exact pairwise_cons.mpr ⟨h, hl⟩

theorem ascending_setL (hl : Ascending l) (k : K) (o : Option V) : Ascending (setL l k o) := by
  induction l with
  | nil => exact ascending_consOpt List.Pairwise.nil (by simp)
  | cons x l ih =>
    obtain ⟨hlt, hl'⟩ := pairwise_cons.mp hl
    simp only [setL]
    split
    · rename_i hk
      exact ascending_consOpt hl (forall_mem_cons.mpr ⟨hk, fun e he => lt_trans hk (hlt e he)⟩)
    · split
      · rename_i h1 h2
        exact ascending_consOpt hl' (by rw [h2]; exact hlt)
      · rename_i h1 h2
        refine pairwise_cons.mpr ⟨?_, ih hl'⟩
        intro e he
        rcases mem_setL he with h | h
        · rw [h]; exact lt_of_le_of_ne (not_lt.mp h1) fun h => h2 h.symm
        · exact hlt e h

theorem lookupL_eq_some (hl : Ascending l) (k : K) (v : V) : lookupL l k = some v ↔ (k, v) ∈ l := by
  induction l with
  | nil => simp [lookupL]
  | cons e l ih =>
    obtain ⟨hlt, hl'⟩ := pairwise_cons.mp hl
    rw [lookupL, mem_cons]
    split
    · rename_i h
      constructor
      · intro hv
        exact Or.inl (Prod.ext h (Option.some.inj hv).symm)
      · rintro (hv | hv)
        · rw [← hv]
        · exact absurd (hlt _ hv) (by rw [h]; exact lt_irrefl _)
    · rename_i h
      rw [ih hl']
      constructor
      · exact Or.inr
      · rintro (hv | hv)
        · exact absurd (by rw [← hv]) h
        · exact hv

/-- An ascending list is determined by its members. -/
theorem ascending_ext {l' : List (K × V)} (hl : Ascending l) (hl' : Ascending l')
    (h : ∀ e, e ∈ l ↔ e ∈ l') : l = l' := by
  have hnodup : ∀ {l : List (K × V)}, Ascending l → l.Nodup := fun h => h.imp fun hlt => ne_of_apply_ne Prod.fst hlt.ne
  have hperm := (perm_ext_iff_of_nodup (hnodup hl) (hnodup hl')).mpr h
  exact hperm.eq_of_pairwise (fun a b _ _ hab hba => absurd hab hba.not_gt) hl hl'

/-! ## Ordered maps -/

/-- A finite map with its entries in ascending key order. -/
structure OrdMap (K V : Type) [LinearOrder K] where
  entries : List (K × V)
  asc : Ascending entries

namespace OrdMap

def empty : OrdMap K V := ⟨[], List.Pairwise.nil⟩

def lookup (m : OrdMap K V) (k : K) : Option V := lookupL m.entries k

def set (m : OrdMap K V) (k : K) (o : Option V) : OrdMap K V := ⟨setL m.entries k o, ascending_setL m.asc k o⟩

/-- The entries whose key satisfies `p`, in key order. -/
def scan (m : OrdMap K V) (p : K → Bool) : List (K × V) := m.entries.filter fun e => p e.1

/-- The part of a map whose keys satisfy `p`. -/
def restrict (m : OrdMap K V) (p : K → Bool) : OrdMap K V := ⟨m.scan p, List.Pairwise.filter _ m.asc⟩

/-- The map that is `f` on the listed keys and empty elsewhere. -/
def ofKeys (ks : List K) (f : K → Option V) : OrdMap K V := ks.foldl (fun m k => m.set k (f k)) empty

/-- The map of a list of entries, the last of a key. -/
def ofEntries (l : List (K × V)) : OrdMap K V := l.foldl (fun m e => m.set e.1 (some e.2)) empty

@[simp] theorem lookup_empty (k : K) : (empty : OrdMap K V).lookup k = none := rfl

theorem lookup_set (m : OrdMap K V) (k k' : K) (o : Option V) :
    (m.set k o).lookup k' = if k' = k then o else m.lookup k' :=
  lookupL_setL m.asc k k' o

@[simp] theorem lookup_set_self (m : OrdMap K V) (k : K) (o : Option V) : (m.set k o).lookup k = o := by
  rw [lookup_set, if_pos rfl]

theorem lookup_set_ne (m : OrdMap K V) {k k' : K} (o : Option V) (h : k' ≠ k) :
    (m.set k o).lookup k' = m.lookup k' := by
  rw [lookup_set, if_neg h]

theorem lookup_eq_some (m : OrdMap K V) (k : K) (v : V) : m.lookup k = some v ↔ (k, v) ∈ m.entries :=
  lookupL_eq_some m.asc k v

theorem mem_scan (m : OrdMap K V) (p : K → Bool) (k : K) (v : V) :
    (k, v) ∈ m.scan p ↔ m.lookup k = some v ∧ p k = true := by
  rw [scan, mem_filter, lookup_eq_some]

theorem scan_asc (m : OrdMap K V) (p : K → Bool) : Ascending (m.scan p) := List.Pairwise.filter _ m.asc

variable {m m' : OrdMap K V} {p : K → Bool}

/-- Two maps that agree on the keys satisfying `p` have the same scan. -/
theorem scan_congr (h : ∀ k, p k = true → m.lookup k = m'.lookup k) : m.scan p = m'.scan p := by
  apply ascending_ext (m.scan_asc p) (m'.scan_asc p)
  rintro ⟨k, v⟩
  rw [mem_scan, mem_scan]
  constructor
  · rintro ⟨h1, h2⟩
    exact ⟨(h k h2).symm.trans h1, h2⟩
  · rintro ⟨h1, h2⟩
    exact ⟨(h k h2).trans h1, h2⟩

theorem ext_lookup (h : ∀ k, m.lookup k = m'.lookup k) : m = m' := by
  obtain ⟨l, hl⟩ := m
  obtain ⟨l', hl'⟩ := m'
  have : l = l' := by
    apply ascending_ext hl hl'
    rintro ⟨k, v⟩
    rw [← lookupL_eq_some hl, ← lookupL_eq_some hl']
    exact iff_of_eq (congrArg (· = some v) (h k))
  subst this
  rfl

/-- An ascending list with the members of a scan is that scan. -/
theorem scan_eq_of_mem {l : List (K × V)} (hl : Ascending l)
    (h : ∀ k v, (k, v) ∈ l ↔ m.lookup k = some v ∧ p k = true) : m.scan p = l := by
  apply ascending_ext (m.scan_asc p) hl
  rintro ⟨k, v⟩
  rw [mem_scan, h]

/-- Where the values are changed key by key, so is the scan. -/
theorem scan_mapped {g : K → V → V} (h : ∀ k, p k = true → m'.lookup k = (m.lookup k).map (g k)) :
    m'.scan p = (m.scan p).map (fun kv => (kv.1, g kv.1 kv.2)) := by
  refine scan_eq_of_mem (pairwise_map.mpr (m.scan_asc p)) fun k v => ?_
  rw [mem_map]
  constructor
  · rintro ⟨⟨k', v'⟩, hmem, heq⟩
    obtain ⟨hlook, hp⟩ := (mem_scan m p k' v').mp hmem
    cases heq
    rw [h k' hp, hlook]
    exact ⟨rfl, hp⟩
  · rintro ⟨hlook, hp⟩
    rw [h k hp] at hlook
    obtain ⟨v', hv', rfl⟩ := Option.map_eq_some_iff.mp hlook
    exact ⟨(k, v'), (mem_scan m p k v').mpr ⟨hv', hp⟩, rfl⟩

theorem entries_restrict (m : OrdMap K V) (p : K → Bool) : (m.restrict p).entries = m.scan p := rfl

theorem lookup_restrict (m : OrdMap K V) (p : K → Bool) (k : K) :
    (m.restrict p).lookup k = if p k then m.lookup k else none := by
  apply Option.ext
  intro v
  rw [lookup_eq_some, entries_restrict, mem_scan]
  by_cases h : p k = true
  · simp [h]
  · simp [h]

theorem lookup_foldl_set (ks : List K) (f : K → Option V) (m : OrdMap K V) (k : K) :
    (ks.foldl (fun m k => m.set k (f k)) m).lookup k = if k ∈ ks then f k else m.lookup k := by
  induction ks generalizing m with
  | nil => simp
  | cons k' ks ih =>
    rw [foldl_cons, ih, lookup_set]
    by_cases h1 : k ∈ ks
    · rw [if_pos h1, if_pos (mem_cons_of_mem _ h1)]
    · rw [if_neg h1]
      by_cases h2 : k = k'
      · rw [if_pos h2, if_pos (by rw [h2]; exact mem_cons_self ..), h2]
      · rw [if_neg h2, if_neg (by rw [mem_cons]; exact not_or.mpr ⟨h2, h1⟩)]

theorem lookup_ofKeys (ks : List K) (f : K → Option V) (k : K) :
    (ofKeys ks f).lookup k = if k ∈ ks then f k else none := by
  rw [ofKeys, lookup_foldl_set, lookup_empty]

theorem lookup_foldl_entries {l : List (K × V)} (hl : Ascending l) (m : OrdMap K V) (k : K) :
    (l.foldl (fun m e => m.set e.1 (some e.2)) m).lookup k = (lookupL l k).or (m.lookup k) := by
  induction l generalizing m with
  | nil => rfl
  | cons e l ih =>
    obtain ⟨hlt, hl⟩ := pairwise_cons.mp hl
    rw [foldl_cons, ih hl, lookup_set, lookupL]
    by_cases h : k = e.1
    · rw [if_pos h, if_pos h, lookupL_of_lt (h ▸ hlt)]
      rfl
    · rw [if_neg h, if_neg h]

theorem ofEntries_entries (m : OrdMap K V) : ofEntries m.entries = m := by
  refine ext_lookup fun k => ?_
  rw [ofEntries, lookup_foldl_entries m.asc, lookup_empty, Option.or_none]
  rfl

theorem entries_ofEntries_map {W : Type} (f : V → W) (l : List (K × V)) :
    (ofEntries (l.map (Prod.map id f))).entries = (ofEntries l).entries.map (Prod.map id f) := by
  have hfold : ∀ (m : OrdMap K V) (m' : OrdMap K W), m'.entries = m.entries.map (Prod.map id f) →
      ((l.map (Prod.map id f)).foldl (fun m e => m.set e.1 (some e.2)) m').entries =
        (l.foldl (fun m e => m.set e.1 (some e.2)) m).entries.map (Prod.map id f) := by
    induction l with
    | nil => exact fun _ _ h => h
    | cons e l ih =>
      intro m m' h
      refine ih (m.set e.1 (some e.2)) (m'.set e.1 (some (f e.2))) ?_
      exact (congrArg (setL · e.1 (some (f e.2))) h).trans (setL_map f m.entries e.1 e.2)
  exact hfold empty empty rfl

theorem mem_of_lookup_ofEntries {l : List (K × V)} {k : K} {v : V} (h : (ofEntries l).lookup k = some v) :
    ∃ e ∈ l, e.1 = k := by
  have hfold : ∀ m : OrdMap K V, (l.foldl (fun m e => m.set e.1 (some e.2)) m).lookup k = some v →
      (∃ e ∈ l, e.1 = k) ∨ m.lookup k = some v := by
    clear h
    induction l with
    | nil => exact fun _ h => .inr h
    | cons e l ih =>
      intro m h
      rcases ih _ h with ⟨e', he', hk⟩ | h
      · exact .inl ⟨e', mem_cons_of_mem _ he', hk⟩
      · by_cases hk : k = e.1
        · exact .inl ⟨e, mem_cons_self, hk.symm⟩
        · exact .inr (lookup_set_ne m (some e.2) hk ▸ h)
  exact (hfold empty h).resolve_right (by simp)

end OrdMap

end KvLib
