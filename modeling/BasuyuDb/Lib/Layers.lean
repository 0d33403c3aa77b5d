import Mathlib

/-
  Layers of a keyed store. A layer is a partial function from keys to entries; of several layers
  the first that holds a key answers for it (`nearest`). `Lists f l`: the list `l` has exactly the
  values of the partial function `f`, each key's value once and in any order; it is what a scan
  of a view returns.
-/

namespace KvLib
open List Option

variable {K V A B : Type}

/-! ## The nearest entry -/

/-- The entry of the first layer that holds the key. -/
def nearest : List (K → Option V) → K → Option V
  | [], _ => none
  | layer :: layers, k => (layer k).or (nearest layers k)

variable {layer : K → Option V} {layers : List (K → Option V)} {k : K} {a : A}

theorem nearest_of_some {v : V} (h : layer k = some v) : nearest (layer :: layers) k = some v := by
  rw [nearest, h, some_or]

theorem nearest_of_none (h : layer k = none) : nearest (layer :: layers) k = nearest layers k := by
  rw [nearest, h, none_or]

/-! ## Listing a partial function -/

/-- The list has the values of `f`, each key's value once. -/
def Lists (f : K → Option A) (l : List A) : Prop :=
  ∃ ks : List K, ks.Nodup ∧ (∀ k, f k ≠ none → k ∈ ks) ∧ l.Perm (ks.filterMap f)

variable {f g : K → Option A} {l l' : List A}

/-- Keys without a value do not matter for a listing. -/
theorem filterMap_perm_of_support {ks ks' : List K} (hks : ks.Nodup) (hks' : ks'.Nodup)
    (h : ∀ k, f k ≠ none → k ∈ ks) (h' : ∀ k, f k ≠ none → k ∈ ks') : (ks.filterMap f).Perm (ks'.filterMap f) := by
  have hrestrict : ∀ xs : List K, xs.filterMap f = (xs.filter fun k => (f k).isSome).filterMap f := by
    intro xs
    rw [filterMap_filter]
    congr 1
    funext k
    cases f k with
    | none | some a => rfl
  rw [hrestrict ks, hrestrict ks']
  refine List.Perm.filterMap f ((perm_ext_iff_of_nodup (hks.filter _) (hks'.filter _)).mpr ?_)
  intro k
  simp only [mem_filter, and_congr_left_iff]
  intro hk
  have hne : f k ≠ none := isSome_iff_ne_none.mp hk
  exact ⟨fun _ => h' k hne, fun _ => h k hne⟩

theorem Lists.unique (h : Lists f l) (h' : Lists f l') : l.Perm l' := by
  obtain ⟨ks, hks, hsup, hl⟩ := h
  obtain ⟨ks', hks', hsup', hl'⟩ := h'
  exact hl.trans ((filterMap_perm_of_support hks hks' hsup hsup').trans hl'.symm)

theorem Lists.perm (h : Lists f l) (hp : l.Perm l') : Lists f l' := by
  obtain ⟨ks, hks, hsup, hl⟩ := h
  exact ⟨ks, hks, hsup, hp.symm.trans hl⟩

theorem Lists.perm_iff (h : Lists f l) : l.Perm l' ↔ Lists f l' := ⟨h.perm, h.unique⟩

theorem Lists.map (h : Lists f l) (t : A → B) : Lists (fun k => (f k).map t) (l.map t) := by
  obtain ⟨ks, hks, hsup, hl⟩ := h
  refine ⟨ks, hks, fun k hk => hsup k fun hnone => hk (by simp [hnone]), ?_⟩
  rw [← map_filterMap]
  exact hl.map t

theorem Lists.mem (h : Lists f l) : a ∈ l ↔ ∃ k, f k = some a := by
  obtain ⟨ks, -, hsup, hl⟩ := h
  rw [hl.mem_iff, mem_filterMap]
  constructor
  · rintro ⟨k, -, hk⟩
    exact ⟨k, hk⟩
  · rintro ⟨k, hk⟩
    exact ⟨k, hsup k (by rw [hk]; simp), hk⟩

/-- A key that had no value gets one. -/
theorem Lists.insert [DecidableEq K] (h : Lists f l) (hk : f k = none)
    (hg : ∀ x, g x = if x = k then some a else f x) : Lists g (a :: l) := by
  obtain ⟨ks, hks, hsup, hl⟩ := h
  have hrest : ∀ x ∈ ks.filter fun x => x ≠ k, g x = f x :=
    fun x hx => (hg x).trans (if_neg (by simpa using (mem_filter.mp hx).2))
  refine ⟨k :: ks.filter fun x => x ≠ k, nodup_cons.mpr ⟨by simp, hks.filter _⟩, fun x hx => ?_, ?_⟩
  · by_cases hxk : x = k
    · exact hxk ▸ mem_cons_self
    · rw [hg, if_neg hxk] at hx
      exact mem_cons_of_mem _ (mem_filter.mpr ⟨hsup x hx, by simpa using hxk⟩)
  · rw [filterMap_cons_some ((hg k).trans (if_pos rfl)), filterMap_congr hrest]
    refine (hl.trans (filterMap_perm_of_support hks (hks.filter _) hsup fun x hx => ?_)).cons a
    refine mem_filter.mpr ⟨hsup x hx, ?_⟩
    simpa using (fun heq => hx (heq ▸ hk) : x ≠ k)

theorem length_filterMap_mono (hle : ∀ k a, f k = some a → g k = some a) (ks : List K) :
    (ks.filterMap f).length ≤ (ks.filterMap g).length := by
  induction ks with
  | nil => exact le_rfl
  | cons k ks ih =>
    cases hf : f k with
    | none =>
      rw [filterMap_cons_none hf]
      cases hg : g k with
      | none => rwa [filterMap_cons_none hg]
      | some b =>
        rw [filterMap_cons_some hg]
        exact Nat.le_succ_of_le ih
    | some a =>
      rw [filterMap_cons_some hf, filterMap_cons_some (hle k a hf)]
      exact Nat.succ_le_succ ih

/-- A function with more values has longer listings. -/
theorem Lists.iff_of_le (h : Lists f l) (hle : ∀ k a, f k = some a → g k = some a) :
    Lists g l ↔ ∀ k, f k = none → g k = none := by
  constructor
  · intro hg k hk
    obtain ⟨ks, hks, hsup, hl⟩ := h
    obtain ⟨ks', hks', hsup', hl'⟩ := hg
    -- both enumerations may run over the keys of `g`, where `f` can only have fewer values
    have hf : (ks.filterMap f).Perm (ks'.filterMap f) := by
      refine filterMap_perm_of_support hks hks' hsup fun k hk => hsup' k ?_
      obtain ⟨a, ha⟩ := ne_none_iff_exists'.mp hk
      rw [hle k a ha]
      simp
    have hlen : (ks'.filterMap g).length = (ks'.filterMap f).length := (hl'.symm.trans (hl.trans hf)).length_eq
    by_contra hgk
    obtain ⟨xs, ys, rfl⟩ := append_of_mem (hsup' k hgk)
    obtain ⟨b, hb⟩ := ne_none_iff_exists'.mp hgk
    rw [filterMap_append, filterMap_append, filterMap_cons_none hk,
      filterMap_cons_some hb, length_append, length_append, length_cons] at hlen
    have h1 := length_filterMap_mono hle xs
    have h2 := length_filterMap_mono hle ys
    omega
  · intro hnone
    have heq : f = g := by
      funext k
      cases hfk : f k with
      | none => rw [hnone k hfk]
      | some a => rw [hle k a hfk]
    exact heq ▸ h

end KvLib
