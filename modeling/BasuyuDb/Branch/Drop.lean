import BasuyuDb.Branch.Manager

/-
  DROP BRANCH deletes by key prefix, and branch names are written into keys verbatim. The keys of
  another branch are safe exactly when its name does not make one of its paths and the dropped
  prefix extend one another (`Apart`): a drop of "a" takes the branch "a/b" with it, a drop of
  "a/data/t" rows of the branch "a". Main and all metadata are outside every dropped prefix.
-/

namespace BasuyuDb.Branch
open KvLib Storage Executor List

/-! ## The keys of a branch -/

/-- The paths below a branch: rows and spans, secondary indexes, full-text and vector indexes. -/
def areas : List Bytes := [str "/data/", str "/idx/", str "/fts/", str "/vec/"]

/-- The rows and index entries of a branch. -/
inductive BranchKey (ns branch : Bytes) : Bytes → Prop
  | row (table pk : Bytes) : BranchKey ns branch (rowKey ns branch table pk)
  | span (traceID spanID : Bytes) : BranchKey ns branch (otelSpanKey ns branch traceID spanID)
  | index (table col val pk : Bytes) : BranchKey ns branch (indexKey ns branch table col val pk)
  | spanIndex (indexName : Bytes) (vals : List Bytes) :
      BranchKey ns branch (otelIndexKey ns branch indexName vals)
  | fts (table field term docID : Bytes) : BranchKey ns branch (ftsKey ns branch table field term docID)
  | vector (table col id : Bytes) : BranchKey ns branch (vectorKey ns branch table col id)

variable {ns name b : Bytes}

theorem foldl_appendBin (pre : Bytes) (vals : List Bytes) : ∃ rest, vals.foldl appendBin pre = pre ++ rest := by
  induction vals generalizing pre with
  | nil => exact ⟨[], (append_nil pre).symm⟩
  | cons v vals ih =>
    obtain ⟨rest, hrest⟩ := ih (appendBin pre v)
    refine ⟨slash :: (putUint32 v.length ++ v) ++ rest, ?_⟩
    rw [foldl_cons, hrest, appendBin, append_assoc]

theorem BranchKey.area {k : Bytes} (h : BranchKey ns b k) :
    ∃ area ∈ areas, nsRoot ns ++ (branchSegment b ++ area) <+: k := by
  cases h with
  | row table pk =>
    refine ⟨str "/data/", by simp [areas], table ++ slash :: (putUint32 pk.length ++ pk), ?_⟩
    simp [rowKey, appendStr, appendBin, str, slash]
  | span traceID spanID =>
    refine ⟨str "/data/", by simp [areas], str "otel_spans" ++ slash :: (putUint32 traceID.length ++
      traceID ++ slash :: (putUint32 spanID.length ++ spanID)), ?_⟩
    simp [otelSpanKey, appendStr, appendBin, str, slash]
  | index table col val pk =>
    refine ⟨str "/idx/", by simp [areas],
      table ++ slash :: (col ++ slash :: (val ++ slash :: (putUint32 pk.length ++ pk))), ?_⟩
    simp [indexKey, indexColumnPrefix, appendStr, appendBin, str, slash]
  | spanIndex indexName vals =>
    obtain ⟨rest, hrest⟩ := foldl_appendBin (appendStr (appendStr (appendStr
      (nsRoot ns ++ branchSegment b) (str "idx")) (str "otel_spans")) indexName) vals
    refine ⟨str "/idx/", by simp [areas], str "otel_spans" ++ slash :: (indexName ++ rest), ?_⟩
    rw [otelIndexKey, hrest]
    simp [appendStr, str, slash]
  | fts table field term docID =>
    refine ⟨str "/fts/", by simp [areas], table ++ slash :: (field ++ slash :: (term ++ slash ::
      (putUint32 docID.length ++ docID))), ?_⟩
    simp [ftsKey, appendStr, appendBin, str, slash]
  | vector table col id =>
    refine ⟨str "/vec/", by simp [areas], table ++ slash :: (col ++ slash :: (putUint32 id.length ++ id)), ?_⟩
    simp [vectorKey, appendStr, appendBin, str, slash]

theorem exists_branchKey (ns b : Bytes) {area : Bytes} (harea : area ∈ areas) (rest : Bytes) :
    ∃ k, BranchKey ns b k ∧ nsRoot ns ++ (branchSegment b ++ (area ++ rest)) <+: k := by
  simp only [areas, mem_cons, not_mem_nil, or_false] at harea
  rcases harea with rfl | rfl | rfl | rfl
  · refine ⟨_, .row rest [], slash :: putUint32 0, ?_⟩
    simp [rowKey, appendStr, appendBin, str, slash]
  · refine ⟨_, .index rest [] [] [], slash :: slash :: slash :: putUint32 0, ?_⟩
    simp [indexKey, indexColumnPrefix, appendStr, appendBin, str, slash]
  · refine ⟨_, .fts rest [] [] [], slash :: slash :: slash :: putUint32 0, ?_⟩
    simp [ftsKey, appendStr, appendBin, str, slash]
  · refine ⟨_, .vector rest [] [], slash :: slash :: putUint32 0, ?_⟩
    simp [vectorKey, appendStr, appendBin, str, slash]

/-! ## What a drop leaves -/

/-- A drop that goes over the keys. -/
def PrefixDrop.byKey : PrefixDrop where
  drop W pre := W.restrict fun k => !underPrefix pre k
  lookup_drop W pre k := by
    rw [OrdMap.lookup_restrict]
    by_cases h : pre <+: k
    · rw [if_pos h, if_neg (by simp [underPrefix, isPrefixOf_iff_prefix.mpr h])]
    · rw [if_neg h, if_pos]
      simpa [underPrefix, ← isPrefixOf_iff_prefix] using h

theorem execDropBranch_ok {db : PrefixDrop} {W W' : State} (h : execDropBranch db ns W name = .ok W') :
    name ≠ mainBranch ∧ W.lookup (branchMetaKey ns name) ≠ none ∧ ∀ k, k ≠ branchMetaKey ns name →
        W'.lookup k = if branchSubtreePrefix ns name <+: k then none else W.lookup k := by
  unfold execDropBranch at h
  split at h
  · cases h
  · rename_i hmain
    split at h
    · cases h
    · rename_i v hv
      cases h
      refine ⟨hmain, by simp [hv], fun k hk => ?_⟩
      rw [OrdMap.lookup_set_ne _ _ hk, db.lookup_drop]

theorem BranchKey.ne_meta {k x : Bytes} (h : BranchKey ns b k) : k ≠ branchMetaKey ns x := by
  obtain ⟨area, -, hpre⟩ := h.area
  rintro rfl
  exact branchMetaKey_not_under (branchSegment_path b _) hpre

/-! ## The frame -/

/-- No path of the branch `b` and the path below `name` extend one another. -/
def Apart (name b : Bytes) : Prop :=
  ∀ area ∈ areas, ¬branchSegment name ++ [slash] <+: branchSegment b ++ area ∧
    ¬branchSegment b ++ area <+: branchSegment name ++ [slash]

instance (name b : Bytes) : Decidable (Apart name b) := inferInstanceAs (Decidable (∀ area ∈ areas, _ ∧ _))

theorem Apart.not_under {k : Bytes} (h : Apart name b) (hk : BranchKey ns b k) :
    ¬branchSubtreePrefix ns name <+: k := by
  obtain ⟨area, harea, hpre⟩ := hk.area
  rw [branchSubtreePrefix_eq]
  intro hdrop
  rcases prefix_or_prefix_of_prefix hdrop hpre with h1 | h1
  · exact (h area harea).1 ((prefix_append_right_inj _).mp h1)
  · exact (h area harea).2 ((prefix_append_right_inj _).mp h1)

theorem exists_dropped (ns : Bytes) (h : ¬Apart name b) : ∃ k, BranchKey ns b k ∧ branchSubtreePrefix ns name <+: k := by
  obtain ⟨area, harea, hcmp⟩ : ∃ area ∈ areas, branchSegment name ++ [slash] <+: branchSegment b ++ area ∨
      branchSegment b ++ area <+: branchSegment name ++ [slash] := by
    by_contra hno
    refine h fun area harea => not_or.mp fun hor => hno ⟨area, harea, hor⟩
  simp only [branchSubtreePrefix_eq]
  rcases hcmp with h1 | ⟨rest, hrest⟩
  · obtain ⟨k, hk, hpre⟩ := exists_branchKey ns b harea []
    rw [append_nil] at hpre
    exact ⟨k, hk, ((prefix_append_right_inj _).mpr h1).trans hpre⟩
  · obtain ⟨k, hk, hpre⟩ := exists_branchKey ns b harea rest
    rw [← append_assoc (branchSegment b), hrest] at hpre
    exact ⟨k, hk, hpre⟩

/-- What a drop must leave alone: main, and the metadata, rows and index entries of the other
existing branches. -/
def Framed (ns name : Bytes) (W W' : State) : Prop :=
  (∀ k, nsRoot ns ++ str "/main/" <+: k → W'.lookup k = W.lookup k) ∧
  ∀ b, b ≠ name → W.lookup (branchMetaKey ns b) ≠ none →
    W'.lookup (branchMetaKey ns b) = W.lookup (branchMetaKey ns b) ∧
    ∀ k, BranchKey ns b k → W'.lookup k = W.lookup k

/-- The store that holds two branches and one row. -/
def twoBranches (ns name b k : Bytes) : State :=
  ((OrdMap.empty.set (branchMetaKey ns name) (some (.branchMeta mainBranch))).set
    (branchMetaKey ns b) (some (.branchMeta mainBranch))).set k (some (.row []))

theorem lookup_twoBranches (name : Bytes) {k : Bytes} (hk : BranchKey ns b k) (x : Bytes) :
    (twoBranches ns name b k).lookup (branchMetaKey ns x) =
      if x = b ∨ x = name then some (.branchMeta mainBranch) else none := by
  unfold twoBranches
  rw [OrdMap.lookup_set_ne _ _ fun e => hk.ne_meta e.symm]
  by_cases hxb : x = b
  · rw [if_pos (.inl hxb), hxb, OrdMap.lookup_set_self]
  · rw [OrdMap.lookup_set_ne _ _ fun e => hxb (branchMetaKey_inj e)]
    by_cases hxn : x = name
    · rw [if_pos (.inr hxn), hxn, OrdMap.lookup_set_self]
    · rw [if_neg (not_or.mpr ⟨hxb, hxn⟩), OrdMap.lookup_set_ne _ _ fun e => hxn (branchMetaKey_inj e),
        OrdMap.lookup_empty]

/-- **DROP BRANCH.** With the branches `others` beside `name`, the drop of `name` leaves main and
the other branches alone, whatever the store holds, iff every one of them is apart from `name`. -/
theorem drop_frame_iff (db : PrefixDrop) (ns name : Bytes) (others : List Bytes)
    (hname : name ≠ mainBranch ∧ name ≠ []) (hothers : name ∉ others) : (∀ W W', (∀ b, b ≠ name → W.lookup (branchMetaKey ns b) ≠ none → b ∈ others) →
      execDropBranch db ns W name = .ok W' → Framed ns name W W') ↔ ∀ b ∈ others, Apart name b := by
  constructor
  · intro h b hb
    by_contra hapart
    obtain ⟨k, hk, hdropped⟩ := exists_dropped ns hapart
    have hbn : b ≠ name := fun e => hothers (e ▸ hb)
    have hmetas := lookup_twoBranches name hk
    have hdrop : execDropBranch db ns (twoBranches ns name b k) name =
        .ok ((db.drop (twoBranches ns name b k) (branchSubtreePrefix ns name)).set
          (branchMetaKey ns name) none) := by
      unfold execDropBranch
      rw [if_neg hname.1, hmetas, if_pos (.inr rfl)]
    have hframe := h _ _ ?_ hdrop
    · have hgone := (hframe.2 b hbn (by rw [hmetas, if_pos (.inl rfl)]; simp)).2 k hk
      rw [(execDropBranch_ok hdrop).2.2 k hk.ne_meta, if_pos hdropped, twoBranches, OrdMap.lookup_set_self] at hgone
      cases hgone
    · intro x hxn hx
      rw [hmetas] at hx
      split at hx
      · rename_i hor
        exact hor.resolve_right hxn ▸ hb
      · exact absurd rfl hx
  · intro hapart W W' hmetas hdrop
    obtain ⟨-, -, hlook⟩ := execDropBranch_ok hdrop
    have hseg : str "/br/" <+: branchSegment name ++ [slash] := by
      rw [branchSegment_feature hname.1 hname.2, append_assoc]
      exact prefix_append _ _
    refine ⟨fun k hk => ?_, fun b hb hexists => ⟨?_, fun k hk => ?_⟩⟩
    · rw [hlook k, if_neg]
      · obtain ⟨rest, hrest⟩ := hseg
        rw [branchSubtreePrefix_eq, ← hrest]
        refine not_under_both (p := str "/main/") (a := []) (by decide) (by decide) ?_
        rwa [append_nil]
      · rintro rfl
        refine branchMetaKey_not_under (.inl ?_) hk
        exact ⟨[slash], by decide⟩
    · rw [hlook _ fun e => hb (branchMetaKey_inj e), branchSubtreePrefix_eq,
        if_neg (branchMetaKey_not_under (.inr hseg))]
    · rw [hlook k hk.ne_meta, if_neg ((hapart b (hmetas b hb hexists)).not_under hk)]

/-- Branches whose names share no path. -/
theorem drop_frame_slash : (∀ b ∈ [str "a2", str "b/c"], Apart (str "a") b) ∧
    ∀ W W', (∀ b, b ≠ str "a" → W.lookup (branchMetaKey (str "n") b) ≠ none → b ∈ [str "a2", str "b/c"]) →
      execDropBranch .byKey (str "n") W (str "a") = .ok W' → Framed (str "n") (str "a") W W' := by
  have hapart : ∀ b ∈ [str "a2", str "b/c"], Apart (str "a") b := by decide
  exact ⟨hapart, (drop_frame_iff .byKey (str "n") (str "a") [str "a2", str "b/c"] (by decide) (by decide)).mpr hapart⟩

/-- The row of the branch "a/b" that a drop of "a" deletes. -/
def nestedRow : Bytes := rowKey (str "n") (str "a/b") (str "t") (str "1")

/-- A drop of the branch "a" deletes a row of the branch "a/b". -/
theorem drop_deletes_nested : ∃ W', execDropBranch .byKey (str "n")
      (twoBranches (str "n") (str "a") (str "a/b") nestedRow) (str "a") = .ok W' ∧
    (twoBranches (str "n") (str "a") (str "a/b") nestedRow).lookup nestedRow = some (.row []) ∧
    W'.lookup nestedRow = none ∧ ¬Framed (str "n") (str "a")
      (twoBranches (str "n") (str "a") (str "a/b") nestedRow) W' := by
  have hbefore : (twoBranches (str "n") (str "a") (str "a/b") nestedRow).lookup nestedRow =
      some (.row []) := OrdMap.lookup_set_self _ _ _
  refine ⟨_, rfl, hbefore, by decide +kernel, fun h => ?_⟩
  have hsame := (h.2 (str "a/b") (by decide) (by decide +kernel)).2 nestedRow (.row _ _)
  rw [hbefore] at hsame
  exact absurd hsame (by decide +kernel)

end BasuyuDb.Branch
