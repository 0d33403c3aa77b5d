import BasuyuDb.Branch.Visibility

/-
  MERGE BRANCH copies the entries of a branch to its parent: a live entry overwrites the parent's,
  a tombstone deletes it, whatever the parent holds and since when. From one formula for the
  entries of the parent after the merge follow the rows the parent then shows and the fate of
  rows changed on both sides.
-/

namespace BasuyuDb.Branch
open KvLib Storage Executor List Option
open Prog hiding pure bind

/-! ## The parent's entries after a merge -/

variable (ns : Bytes) (W : State) (src parent : Bytes)

/-- The entry of a branch at a path below its data root, that is, at a table and a key tail. -/
def entryAt (branch path : Bytes) : Option Val := W.lookup (branchData ns branch ++ path)

/-- What a merged entry leaves of an entry of the parent. -/
def mergedEntry : Option Val → Option Val → Option Val
  | none, o => o
  | some .tombstone, _ => none
  | some v, _ => some v

/-- The mutation for one entry of the branch. -/
def mergeMutation (kv : Bytes × Val) : Option (Mutation Bytes Val) :=
  let parentKey := branchData ns parent ++ afterRoot kv.1 (branchData ns src)
  if kv.2 = .tombstone then
    if (W.lookup parentKey).isSome then some (deletion parentKey) else none
  else some (assignment parentKey kv.2)

def mergeMutations : Buffer :=
  (W.scan (underPrefix (branchData ns src))).filterMap (mergeMutation ns W src parent)

section merge
variable {ns src parent W}

theorem run_mergeOp {s : Snap Bytes Val} {i : Nat} (kv : Bytes × Val) :
    (mergeOp ns src parent kv).run underPrefix s [] i = .ok (mergeMutation ns s.map src parent kv, [], i) := by
  unfold mergeOp mergeMutation
  dsimp only
  rw [run_bind, run_read]
  dsimp only [Except.bind]
  rw [Snap.seen_nil]
  split
  · rfl
  · rfl

theorem exec_execMergeBranch {sess : Session} {s : Snap Bytes Val} {i : Nat} (hsrc : src ≠ mainBranch)
    (hparent : parent ≠ []) (hmeta : s.map.lookup (branchMetaKey sess.ns src) = some (.branchMeta parent)) :
    (execMergeBranch sess src).exec underPrefix s [] i =
      .ok (⟨"MERGE BRANCH", (mergeMutations sess.ns s.map src parent).length, []⟩,
        mergeMutations sess.ns s.map src parent) := by
  unfold execMergeBranch
  rw [if_neg hsrc, exec_eq_run, run_bind, run_read, Snap.seen_nil, hmeta]
  dsimp only [Except.bind]
  rw [if_neg hparent, run_bind, run_range, Snap.seen_nil]
  dsimp only [Except.bind]
  rw [run_bind, run_collect fun kv _ => run_mergeOp kv]
  dsimp only [Except.bind]
  rw [run_bind, run_writes]
  rfl

theorem mem_mergeMutations {m : Mutation Bytes Val} (h : m ∈ mergeMutations ns W src parent) :
    ∃ path v, m.key = branchData ns parent ++ path ∧ entryAt ns W src path = some v ∧
      m.effect = mergedEntry (some v) none := by
  obtain ⟨⟨k, v⟩, hkv, hm⟩ := mem_filterMap.mp h
  obtain ⟨hlook, hunder⟩ := (OrdMap.mem_scan W _ k v).mp hkv
  obtain ⟨path, rfl⟩ := isPrefixOf_iff_prefix.mp hunder
  refine ⟨path, v, ?_⟩
  unfold mergeMutation afterRoot at hm
  dsimp only at hm
  rw [drop_left] at hm
  split at hm
  · rename_i hv
    subst hv
    split at hm
    · cases hm
      exact ⟨rfl, hlook, rfl⟩
    · cases hm
  · rename_i hv
    cases hm
    refine ⟨rfl, hlook, ?_⟩
    cases v with
    | tombstone => exact absurd rfl hv
    | row cells | text b | schema sch | indexes defs | branchMeta p => rfl

theorem mergeMutations_of_entry (parent : Bytes) {path : Bytes} {v : Val} (h : entryAt ns W src path = some v) :
    (∃ m ∈ mergeMutations ns W src parent, m.key = branchData ns parent ++ path) ∨
      v = .tombstone ∧ entryAt ns W parent path = none := by
  have hmem : (branchData ns src ++ path, v) ∈ W.scan (underPrefix (branchData ns src)) :=
    (OrdMap.mem_scan W _ _ _).mpr ⟨h, isPrefixOf_iff_prefix.mpr (prefix_append _ _)⟩
  have hop : mergeMutation ns W src parent (branchData ns src ++ path, v) = if v = .tombstone then
        if (entryAt ns W parent path).isSome then some (deletion (branchData ns parent ++ path)) else none
      else some (assignment (branchData ns parent ++ path) v) := by
    unfold mergeMutation afterRoot
    dsimp only
    rw [drop_left]
    rfl
  by_cases hv : v = .tombstone
  · cases ho : entryAt ns W parent path with
    | none => exact .inr ⟨hv, rfl⟩
    | some o =>
      rw [if_pos hv, ho] at hop
      exact .inl ⟨_, mem_filterMap.mpr ⟨_, hmem, hop⟩, rfl⟩
  · rw [if_neg hv] at hop
    exact .inl ⟨_, mem_filterMap.mpr ⟨_, hmem, hop⟩, rfl⟩

theorem lookup_merge (path : Bytes) :
    (overlay W (mergeMutations ns W src parent)).lookup (branchData ns parent ++ path) =
      mergedEntry (entryAt ns W src path) (entryAt ns W parent path) := by
  rw [lookup_overlay]
  cases hlast : lastEffect (mergeMutations ns W src parent) (branchData ns parent ++ path) with
  | some e =>
    obtain ⟨m, hm, hkey, heff⟩ := lastEffect_mem hlast
    obtain ⟨path', v, hkey', hentry, heff'⟩ := mem_mergeMutations hm
    obtain rfl : path' = path := append_cancel_left (hkey'.symm.trans hkey)
    rw [hentry, ← heff, heff', getD_some]
    cases v <;> rfl
  | none =>
    have hno := lastEffect_eq_none.mp hlast
    change entryAt ns W parent path = _
    cases hentry : entryAt ns W src path with
    | none => rfl
    | some v =>
      rcases mergeMutations_of_entry parent hentry with ⟨m, hm, hkey⟩ | ⟨rfl, hnone⟩
      · exact absurd hkey (hno m hm)
      · rw [hnone]
        rfl

theorem lookup_merge_outside {k : Bytes} (h : ¬branchData ns parent <+: k) :
    (overlay W (mergeMutations ns W src parent)).lookup k = W.lookup k := by
  have hno : lastEffect (mergeMutations ns W src parent) k = none := by
    rw [lastEffect_eq_none]
    intro m hm hkey
    obtain ⟨path, v, hkey', -, -⟩ := mem_mergeMutations hm
    exact h ⟨path, hkey'.symm.trans hkey⟩
  rw [lookup_overlay, hno]
  rfl

theorem step_mergeBranch (env : Env) {db : Db} (sess : Session) (params : Data) (i : Nat)
    (hsrc : src ≠ mainBranch) (hparent : parent ≠ [])
    (hmeta : db.map.lookup (branchMetaKey sess.ns src) = some (.branchMeta parent)) :
    ∃ db', Db.step env db (⟨sess, .mergeBranch src, params⟩, i) = some db' ∧
      db'.map = overlay db.map (mergeMutations sess.ns db.map src parent) := by
  have hexec := exec_execMergeBranch (i := i) hsrc hparent hmeta
  have hstep : Db.step env db (⟨sess, .mergeBranch src, params⟩, i) =
      some (commitOn underPrefix db (execMergeBranch sess src, i)) := by
    unfold Db.step
    rw [show Call.run env ⟨sess, .mergeBranch src, params⟩ = execMergeBranch sess src from rfl, hexec]
  refine ⟨_, hstep, ?_⟩
  obtain ⟨res, ms, hrun, hmap⟩ := Db.step_eq_some hstep
  obtain ⟨-, rfl⟩ := Prod.mk.inj (Except.ok.inj (hexec.symm.trans hrun))
  exact hmap

end merge

/-! ## The rows of the parent after a merge -/

def rowCells (n : Nat) : Val → Option Data
  | .row cells => some (cells.takeD n none)
  | _ => none

section result
variable {ns W} {table : Bytes} {n : Nat}

theorem entryAt_row (branch tail : Bytes) :
    entryAt ns W branch (table ++ slash :: tail) = W.lookup (rowPrefix ns branch table ++ tail) := by
  unfold entryAt
  rw [rowPrefix_branchData]
  simp only [append_assoc, cons_append, nil_append]

theorem chainRow_cells (branch : Bytes) (chain : List Bytes) (tail : Bytes) :
    (chainRow ns W table n (branch :: chain) tail).map ScanRow.cells =
      match entryAt ns W branch (table ++ slash :: tail) with
      | some v => rowCells n v
      | none => (chainRow ns W table n chain tail).map ScanRow.cells := by
  rw [entryAt_row]
  cases hlook : W.lookup (rowPrefix ns branch table ++ tail) with
  | none => rw [chainRow_inherited (layer_eq_none.mpr hlook)]
  | some v =>
    have hlayer : layer ns W table branch tail = some (rowPrefix ns branch table ++ tail, v) := by
      rw [layer, hlook]
      rfl
    rw [chainRow_own (by rw [hlayer]; simp), hlayer]
    cases v <;> rfl

end result

/-- What an entry over another one shows. -/
def shown (n : Nat) (e below : Option Val) : Option Data :=
  match e with
  | some v => rowCells n v
  | none => below.bind (rowCells n)

theorem chainRow_two (ns table : Bytes) (W : State) (n : Nat) (b b' tail : Bytes) :
    (chainRow ns W table n [b, b'] tail).map ScanRow.cells =
      shown n (entryAt ns W b (table ++ slash :: tail)) (entryAt ns W b' (table ++ slash :: tail)) := by
  rw [chainRow_cells, chainRow_cells, chainRow_nil]
  cases entryAt ns W b (table ++ slash :: tail) with
  | some v => rfl
  | none => cases entryAt ns W b' (table ++ slash :: tail) <;> rfl

theorem chainRow_one (ns table : Bytes) (W : State) (n : Nat) (b tail : Bytes) :
    (chainRow ns W table n [b] tail).map ScanRow.cells = shown n (entryAt ns W b (table ++ slash :: tail)) none := by
  rw [chainRow_cells, chainRow_nil]
  cases entryAt ns W b (table ++ slash :: tail) <;> rfl

section shown
variable {n : Nat} {eS eP : Option Val}

theorem shown_merged (below : Option Val) {cells : Data} (h : shown n eS eP = some cells) :
    shown n (mergedEntry eS eP) below = some cells := by
  cases eS with
  | none =>
    cases eP with
    | none => cases h
    | some v => exact h
  | some v =>
    cases v with
    | row cells => exact h
    | tombstone | text b | schema sch | indexes defs | branchMeta p => cases h

theorem shown_merged_none (h : shown n eS eP = none) : shown n (mergedEntry eS eP) none = none := by
  cases eS with
  | none =>
    cases eP with
    | none => rfl
    | some v => exact h
  | some v =>
    cases v with
    | row cells => exact h
    | tombstone | text b | schema sch | indexes defs | branchMeta p => rfl

theorem shown_self (e : Option Val) : shown n e e = shown n e none := by
  cases e <;> rfl

theorem bind_rowCells_eq_none (below : Option Val) :
    below.bind (rowCells n) = none ↔ ∀ cells, below ≠ some (.row cells) := by
  cases below with
  | none => simp
  | some v => cases v <;> simp [rowCells]

/-- It shows more exactly where a live row below comes through: under a tombstone of the branch,
and where neither branch nor parent has an entry. -/
theorem shown_merged_below (hS : ∀ v, eS = some v → isEntry v = true) (below : Option Val) :
    (shown n eS eP = none → shown n (mergedEntry eS eP) below = none) ↔
      ∀ cells, below = some (.row cells) → (∃ c, eS = some (.row c)) ∨ (eS = none ∧ eP ≠ none) := by
  cases eS with
  | none =>
    cases eP with
    | none => simpa [shown, mergedEntry] using bind_rowCells_eq_none below
    | some v => simp [shown, mergedEntry]
  | some v =>
    have hv := hS v rfl
    cases v with
    | row cells => simp [shown, rowCells]
    | tombstone => simpa [shown, mergedEntry, rowCells] using bind_rowCells_eq_none below
    | text b | schema sch | indexes defs | branchMeta p => cases hv

end shown

/-- Paths that do not continue one another. -/
def Unnested (ns b b' : Bytes) : Prop := ¬branchData ns b <+: branchData ns b' ∧ ¬branchData ns b' <+: branchData ns b

/-- The data of a branch is rows and tombstones, in every table. -/
def DataOnly (branch : Bytes) : Prop :=
  ∀ k v, branchData ns branch <+: k → W.lookup k = some v → isEntry v = true

instance (ns : Bytes) (W : State) (branch : Bytes) : Decidable (DataOnly ns W branch) :=
  decidable_of_iff (∀ kv ∈ W.entries, branchData ns branch <+: kv.1 → isEntry kv.2 = true)
    ⟨fun h k v hpre hlook => h (k, v) ((OrdMap.lookup_eq_some W k v).mp hlook) hpre,
      fun h kv hkv hpre => h kv.1 kv.2 hpre ((OrdMap.lookup_eq_some W _ _).mpr hkv)⟩

theorem DataOnly.rowsOnly {ns : Bytes} {W : State} {branch : Bytes} (h : DataOnly ns W branch) (table : Bytes) :
    RowsOnly ns W table branch := by
  intro k v hpre hlook
  rw [rowPrefix_branchData] at hpre
  exact h k v ((prefix_append _ _).trans hpre) hlook

section after
variable {ns W} {s p : Bytes}

theorem resolvedIn_merge (table : Bytes) :
    resolvedIn ns (overlay W (mergeMutations ns W s p)) table = resolvedIn ns W table := by
  unfold resolvedIn schemaIn
  rw [lookup_merge_outside]
  rw [branchData_eq]
  exact schemaKey_not_under (branchSegment_path p _)

theorem parentIn_merge (b : Bytes) : parentIn ns (overlay W (mergeMutations ns W s p)) b = parentIn ns W b := by
  unfold parentIn
  rw [lookup_merge_outside]
  rw [branchData_eq]
  exact branchMetaKey_not_under (branchSegment_path p _)

theorem entryAt_merge (path : Bytes) : entryAt ns (overlay W (mergeMutations ns W s p)) p path =
    mergedEntry (entryAt ns W s path) (entryAt ns W p path) := lookup_merge path

variable {b table : Bytes}

theorem Unnested.entryAt_merge (h : Unnested ns p b) (path : Bytes) :
    entryAt ns (overlay W (mergeMutations ns W s p)) b path = entryAt ns W b path := by
  refine lookup_merge_outside fun hpre => ?_
  rcases prefix_or_prefix_of_prefix hpre (prefix_append _ path) with h1 | h1
  · exact h.1 h1
  · exact h.2 h1

theorem rowsOnly_iff : RowsOnly ns W table b ↔
    ∀ tail v, entryAt ns W b (table ++ slash :: tail) = some v → isEntry v = true := by
  constructor
  · intro h tail v hv
    rw [entryAt_row] at hv
    exact h _ v (prefix_append _ _) hv
  · rintro h k v ⟨tail, rfl⟩ hv
    rw [← entryAt_row] at hv
    exact h tail v hv

theorem rowsOnly_merge (hs : RowsOnly ns W table s) (hp : RowsOnly ns W table p) :
    RowsOnly ns (overlay W (mergeMutations ns W s p)) table p := by
  rw [rowsOnly_iff] at hs hp ⊢
  intro tail v hv
  rw [Branch.entryAt_merge] at hv
  cases hS : entryAt ns W s (table ++ slash :: tail) with
  | none =>
    rw [hS] at hv
    exact hp tail v hv
  | some v' =>
    have hrow := hs tail v' hS
    rw [hS] at hv
    cases v' with
    | row cells =>
      cases hv
      rfl
    | tombstone => cases hv
    | text b | schema sch | indexes defs | branchMeta p => cases hrow

theorem Unnested.rowsOnly_merge (h : Unnested ns p b) (hb : RowsOnly ns W table b) :
    RowsOnly ns (overlay W (mergeMutations ns W s p)) table b := by
  rw [rowsOnly_iff] at hb ⊢
  intro tail v hv
  rw [h.entryAt_merge] at hv
  exact hb tail v hv

/-- A scan of the parent after the merge and one of the branch before it return the same rows iff
the parent shows nothing where the branch showed nothing. -/
theorem merge_scans {n : Nat} (hsrc : s ≠ mainBranch) (htable : table ≠ otelSpansTable)
    (hparent : parentIn ns W s = p) (hs : RowsOnly ns W table s) (hp : RowsOnly ns W table p)
    (hbelow : p = mainBranch ∨ RowsOnly ns (overlay W (mergeMutations ns W s p)) table (parentIn ns W p)) :
    ∃ rowsS rowsP, scanIn ns W s table n = .ok rowsS ∧
      scanIn ns (overlay W (mergeMutations ns W s p)) p table n = .ok rowsP ∧
      ((rowsP.map ScanRow.cells).Perm (rowsS.map ScanRow.cells) ↔ ∀ tail,
        shown n (entryAt ns W s (table ++ slash :: tail)) (entryAt ns W p (table ++ slash :: tail)) = none →
        shown n (mergedEntry (entryAt ns W s (table ++ slash :: tail)) (entryAt ns W p (table ++ slash :: tail)))
          (if p = mainBranch then none
            else entryAt ns (overlay W (mergeMutations ns W s p)) (parentIn ns W p) (table ++ slash :: tail)) =
          none) := by
  obtain ⟨rowsS, hscanS, hlistS⟩ := scanIn_feature (n := n) hsrc htable hs (hparent.symm ▸ hp)
  rw [hparent] at hlistS
  have hp' := rowsOnly_merge hs hp
  -- the rows of the parent, as shown by its entries after the merge
  obtain ⟨rowsP, hscanP, hlistP⟩ : ∃ rowsP, scanIn ns (overlay W (mergeMutations ns W s p)) p table n = .ok rowsP ∧
      Lists (fun tail => shown n
        (mergedEntry (entryAt ns W s (table ++ slash :: tail)) (entryAt ns W p (table ++ slash :: tail)))
        (if p = mainBranch then none
          else entryAt ns (overlay W (mergeMutations ns W s p)) (parentIn ns W p) (table ++ slash :: tail)))
        (rowsP.map ScanRow.cells) := by
    by_cases hmain : p = mainBranch
    · obtain ⟨rowsP, hscan, hlist⟩ := scanIn_local (n := n) hp' (.inl hmain)
      refine ⟨rowsP, hscan, ?_⟩
      have hmap := hlist.map ScanRow.cells
      simp only [chainRow_one, entryAt_merge] at hmap
      simpa only [if_pos hmain] using hmap
    · obtain ⟨rowsP, hscan, hlist⟩ := scanIn_feature (n := n) hmain htable hp'
        (by rw [parentIn_merge]; exact hbelow.resolve_left hmain)
      refine ⟨rowsP, hscan, ?_⟩
      have hmap := hlist.map ScanRow.cells
      simp only [chainRow_two, entryAt_merge, parentIn_merge] at hmap
      simpa only [if_neg hmain] using hmap
  refine ⟨rowsS, rowsP, hscanS, hscanP, ?_⟩
  have hmapS := hlistS.map ScanRow.cells
  simp only [chainRow_two] at hmapS
  rw [hlistP.perm_iff, hmapS.iff_of_le fun _ _ h => shown_merged _ h]

end after

/-- **Merge result.** After MERGE BRANCH `s` into its parent `p`, scans of `p` return the rows that
scans of `s` returned before it iff `p` is main (or its own parent), or every live row of the parent
of `p` is overridden by a live row of `s`, or by an entry of `p` that `s` inherits. -/
theorem merge_result_iff (env : Env) (db db' : Db) (sess : Session) (s p : Bytes) (params : Data)
    (i : Nat) (hs : s ≠ mainBranch) (hp : p ≠ [])
    (hmeta : db.map.lookup (branchMetaKey sess.ns s) = some (.branchMeta p))
    (hnest : p ≠ mainBranch → parentIn sess.ns db.map p ≠ p → Unnested sess.ns p (parentIn sess.ns db.map p))
    (hrows : ∀ b ∈ [s, p, parentIn sess.ns db.map p], DataOnly sess.ns db.map b)
    (hstep : Db.step env db (⟨sess, .mergeBranch s, params⟩, i) = some db') :
    (∀ table sch, resolvedIn sess.ns db.map table = some sch → sch.pkIndex ≠ none →
      ∃ rowsS rowsP, scanned { sess with branch := s } db.map table = .ok (sch, rowsS) ∧
        scanned { sess with branch := p } db'.map table = .ok (sch, rowsP) ∧
        (rowsP.map ScanRow.cells).Perm (rowsS.map ScanRow.cells)) ↔
    p = mainBranch ∨ parentIn sess.ns db.map p = p ∨
      ∀ table sch, resolvedIn sess.ns db.map table = some sch → sch.pkIndex ≠ none →
        ∀ tail cells, entryAt sess.ns db.map (parentIn sess.ns db.map p) (table ++ slash :: tail) =
            some (.row cells) →
          (∃ c, entryAt sess.ns db.map s (table ++ slash :: tail) = some (.row c)) ∨
          entryAt sess.ns db.map s (table ++ slash :: tail) = none ∧
            entryAt sess.ns db.map p (table ++ slash :: tail) ≠ none := by
  obtain ⟨db1, hstep1, hmap⟩ := step_mergeBranch env sess params i hs hp hmeta
  obtain rfl : db1 = db' := some.inj (hstep1.symm.trans hstep)
  have hparent : parentIn sess.ns db.map s = p := by
    unfold parentIn
    rw [hmeta]
    exact if_neg hp
  rw [hmap]
  -- per table, the two scans return the same rows iff no further row comes through on the parent
  have hscans : ∀ table sch, resolvedIn sess.ns db.map table = some sch → sch.pkIndex ≠ none →
      ((∃ rowsS rowsP, scanned { sess with branch := s } db.map table = .ok (sch, rowsS) ∧
        scanned { sess with branch := p } (overlay db.map (mergeMutations sess.ns db.map s p)) table =
          .ok (sch, rowsP) ∧ (rowsP.map ScanRow.cells).Perm (rowsS.map ScanRow.cells)) ↔
      ∀ tail, shown sch.cols.length (entryAt sess.ns db.map s (table ++ slash :: tail))
          (entryAt sess.ns db.map p (table ++ slash :: tail)) = none →
        shown sch.cols.length (mergedEntry (entryAt sess.ns db.map s (table ++ slash :: tail))
          (entryAt sess.ns db.map p (table ++ slash :: tail)))
          (if p = mainBranch then none
            else entryAt sess.ns (overlay db.map (mergeMutations sess.ns db.map s p))
              (parentIn sess.ns db.map p) (table ++ slash :: tail)) = none) := by
    intro table sch hsch hpk
    have hrowsS := (hrows s (by simp)).rowsOnly table
    have hrowsP := (hrows p (by simp)).rowsOnly table
    have hbelow : p = mainBranch ∨ RowsOnly sess.ns (overlay db.map (mergeMutations sess.ns db.map s p)) table
        (parentIn sess.ns db.map p) := by
      by_cases hmain : p = mainBranch
      · exact .inl hmain
      · by_cases hself : parentIn sess.ns db.map p = p
        · rw [hself]
          exact .inr (rowsOnly_merge hrowsS hrowsP)
        · exact .inr ((hnest hmain hself).rowsOnly_merge ((hrows _ (by simp)).rowsOnly table))
    obtain ⟨rowsS, rowsP, hscanS, hscanP, hiff⟩ := merge_scans (n := sch.cols.length) hs
      (resolved_relational hsch hpk) hparent hrowsS hrowsP hbelow
    rw [scanned_on hsch hscanS, scanned_on (by rw [resolvedIn_merge]; exact hsch) hscanP, ← hiff]
    constructor
    · rintro ⟨rs, rp, h1, h2, hperm⟩
      obtain ⟨-, rfl⟩ := Prod.mk.inj (Except.ok.inj h1)
      obtain ⟨-, rfl⟩ := Prod.mk.inj (Except.ok.inj h2)
      exact hperm
    · exact fun hperm => ⟨rowsS, rowsP, rfl, rfl, hperm⟩
  by_cases hmain : p = mainBranch
  · refine iff_of_true (fun table sch hsch hpk => (hscans table sch hsch hpk).mpr ?_) (.inl hmain)
    intro tail hnone
    rw [if_pos hmain]
    exact shown_merged_none hnone
  · by_cases hself : parentIn sess.ns db.map p = p
    · refine iff_of_true (fun table sch hsch hpk => (hscans table sch hsch hpk).mpr ?_) (.inr (.inl hself))
      intro tail hnone
      rw [if_neg hmain, hself, entryAt_merge, shown_self]
      exact shown_merged_none hnone
    · rw [or_iff_right hmain, or_iff_right hself]
      refine forall_congr' fun table => forall_congr' fun sch => forall_congr' fun hsch =>
        forall_congr' fun hpk => (hscans table sch hsch hpk).trans (forall_congr' fun tail => ?_)
      rw [if_neg hmain, (hnest hmain hself).entryAt_merge]
      exact shown_merged_below (rowsOnly_iff.mp ((hrows s (by simp)).rowsOnly table) tail) _

def mergeDemo (src : String) : Call := ⟨demoSession "main", .mergeBranch (str src), []⟩

/-- A branch of main with a row of its own, merged. -/
theorem merge_result_main : ∃ db db', Reach (Db.step demoEnv) (fun _ _ => True) Db.empty db ∧
    Db.step demoEnv db (mergeDemo "s", 0) = some db' ∧
    ∀ table sch, resolvedIn (str "n") db.map table = some sch → sch.pkIndex ≠ none →
      ∃ rowsS rowsP, scanned (demoSession "s") db.map table = .ok (sch, rowsS) ∧
        scanned (demoSession "main") db'.map table = .ok (sch, rowsP) ∧
        (rowsP.map ScanRow.cells).Perm (rowsS.map ScanRow.cells) := by
  obtain ⟨db, hreach, hmeta, hparent, hrows⟩ := exists_demo
    [createDemo, insertDemo "main" "1" "x", branchDemo "s" "main", insertDemo "s" "2" "y"]
    (fun db => db.map.lookup (branchMetaKey (str "n") (str "s")) = some (.branchMeta mainBranch) ∧
      parentIn (str "n") db.map mainBranch = mainBranch ∧
      ∀ b ∈ [str "s", mainBranch], DataOnly (str "n") db.map b)
    (by decide +kernel)
  obtain ⟨db', hstep, -⟩ := step_mergeBranch demoEnv (demoSession "main") [] 0 (by decide) (by decide) hmeta
  refine ⟨db, db', hreach, hstep, ?_⟩
  refine (merge_result_iff demoEnv db db' (demoSession "main") (str "s") mainBranch [] 0 (by decide)
    (by decide) hmeta (fun h => absurd rfl h) ?_ hstep).mpr (.inl rfl)
  intro b hb
  have hparent' : parentIn (demoSession "main").ns db.map mainBranch = mainBranch := hparent
  rw [hparent'] at hb
  exact hrows b (by simpa using hb)

/-- A row of main, hidden from a branch of a branch, shows on the parent it is merged into. -/
theorem merge_result_differs : ∃ db db', Reach (Db.step demoEnv) (fun _ _ => True) Db.empty db ∧
    Db.step demoEnv db (mergeDemo "s", 0) = some db' ∧
    db.map.lookup (branchMetaKey (str "n") (str "s")) = some (.branchMeta (str "p")) ∧
    scanned (demoSession "s") db.map (str "t") = .ok (demoSchema, []) ∧
    ∃ r, scanned (demoSession "p") db'.map (str "t") = .ok (demoSchema, [r]) := by
  obtain ⟨db, hreach, hmeta, hscan, hafter⟩ := exists_demo
    [createDemo, insertDemo "main" "1" "x", branchDemo "p" "main", branchDemo "s" "p"]
    (fun db => db.map.lookup (branchMetaKey (str "n") (str "s")) = some (.branchMeta (str "p")) ∧
      (scanned (demoSession "s") db.map (str "t")).toOption = some (demoSchema, []) ∧
      (Db.step demoEnv db (mergeDemo "s", 0)).map
        (fun db' => (scanned (demoSession "p") db'.map (str "t")).toOption) =
        some (some (demoSchema, [⟨rowKey (str "n") mainBranch (str "t") (str "1"), [some (str "1"), some (str "x")]⟩])))
    (by decide +kernel)
  obtain ⟨db', hstep, hscan'⟩ := map_eq_some_iff.mp hafter
  exact ⟨db, db', hreach, hstep, hmeta, ok_of_toOption hscan, _, ok_of_toOption hscan'⟩

/-! ## Changes on both sides -/

/-- Successful statements, one at a time, with the mutations they committed. -/
def runLog (env : Env) : Db → List (Call × Nat) → Option (Db × Buffer)
  | db, [] => some (db, [])
  | db, c :: calls =>
    match (c.1.run env).exec underPrefix db [] c.2 with
    | .ok (_, ms) =>
      (runLog env (commitOn underPrefix db (c.1.run env, c.2)) calls).map
        (fun r => (r.1, ms ++ r.2))
    | .error _ => none

/-- What happened since a branch was created. -/
structure History (env : Env) where
  created : Db
  calls : List (Call × Nat)
  now : Db
  log : Buffer
  run : runLog env created calls = some (now, log)

/-- The key was written or deleted since. -/
def History.Changed {env : Env} (h : History env) (k : Bytes) : Prop := ∃ m ∈ h.log, m.key = k

instance {env : Env} (h : History env) (k : Bytes) : Decidable (h.Changed k) :=
  inferInstanceAs (Decidable (∃ m ∈ h.log, m.key = k))

/-- The version a reader gets of an entry: a tombstone is none. -/
def liveEntry : Option Val → Option Val
  | some .tombstone => none
  | o => o

theorem liveEntry_of_merged {v : Val} {o : Option Val} (h : mergedEntry (some v) o = o) :
    liveEntry (some v) = liveEntry o := by
  cases v with
  | tombstone =>
    rw [← h]
    rfl
  | row cells | text b | schema sch | indexes defs | branchMeta p => rw [← h]; rfl

/-- **Merge conflicts.** MERGE BRANCH `s` fails whenever a row was changed on `s` and on its parent
`p` with different results, and keeps every row of `p` changed since the branch was created, iff
every entry of `s` at such a row leaves it as it is. -/
theorem merge_conflicts_iff (env : Env) (h : History env) (sess : Session) (s p : Bytes)
    (params : Data) (i : Nat) (hs : s ≠ mainBranch) (hp : p ≠ [])
    (hmeta : h.now.map.lookup (branchMetaKey sess.ns s) = some (.branchMeta p)) :
    ((∀ path v, h.Changed (branchData sess.ns s ++ path) → entryAt sess.ns h.now.map s path = some v →
        h.Changed (branchData sess.ns p ++ path) → liveEntry (some v) ≠ liveEntry (entryAt sess.ns h.now.map p path) →
        Db.step env h.now (⟨sess, .mergeBranch s, params⟩, i) = none) ∧
      ∀ db', Db.step env h.now (⟨sess, .mergeBranch s, params⟩, i) = some db' →
        ∀ path, h.Changed (branchData sess.ns p ++ path) →
          entryAt sess.ns db'.map p path = entryAt sess.ns h.now.map p path) ↔
    ∀ path v, h.Changed (branchData sess.ns p ++ path) → entryAt sess.ns h.now.map s path = some v →
      mergedEntry (some v) (entryAt sess.ns h.now.map p path) = entryAt sess.ns h.now.map p path := by
  obtain ⟨db', hstep, hmap⟩ := step_mergeBranch env sess params i hs hp hmeta
  constructor
  · intro hsafe path v hchanged hentry
    have hkept := hsafe.2 db' hstep path hchanged
    rw [hmap, entryAt_merge, hentry] at hkept
    exact hkept
  · intro hagree
    refine ⟨fun path v _ hentry hchanged hdiff => ?_, fun db1 hstep1 path hchanged => ?_⟩
    · exact absurd (liveEntry_of_merged (hagree path v hchanged hentry)) hdiff
    · obtain rfl : db' = db1 := some.inj (hstep.symm.trans hstep1)
      rw [hmap, entryAt_merge]
      cases hentry : entryAt sess.ns h.now.map s path with
      | none => rfl
      | some v => exact hagree path v hchanged hentry

def updateDemo (branch v : String) : Call :=
  ⟨demoSession branch, .dml (.update ⟨str "t", [(str "v", .const (.string (str v)))], none, .none⟩), []⟩

/-- The database in which the branch s was created from main, with one row. -/
def branchedDb : Db := (demoRun [createDemo, insertDemo "main" "1" "x", branchDemo "s" "main"]).getD Db.empty

/-- The history of the listed statements, if they succeed. -/
def historyOf (env : Env) (db : Db) (calls : List (Call × Nat)) (h : (runLog env db calls).isSome) :
    History env :=
  ⟨db, calls, ((runLog env db calls).get h).1, ((runLog env db calls).get h).2, (some_get h).symm⟩

def bothUpdate : History demoEnv :=
  historyOf demoEnv branchedDb [(updateDemo "s" "a", 0), (updateDemo "main" "b", 0)] (by decide +kernel)

/-- The branch updates its row, main inserts another one. -/
def apartUpdate : History demoEnv :=
  historyOf demoEnv branchedDb [(updateDemo "s" "a", 0), (insertDemo "main" "2" "b", 0)] (by decide +kernel)

theorem reach_branchedDb : Reach (Db.step demoEnv) (fun _ _ => True) Db.empty branchedDb := by
  have hsome : (demoRun [createDemo, insertDemo "main" "1" "x", branchDemo "s" "main"]).isSome := by
    decide +kernel
  obtain ⟨db, hdb⟩ := isSome_iff_exists.mp hsome
  have heq : branchedDb = db := by rw [branchedDb, hdb, getD_some]
  rw [heq]
  exact reach_of_runAll _ hdb

/-- Main inserted another row than the one the branch updated: the merge keeps it. -/
theorem merge_conflicts_apart :
    (∀ path v, apartUpdate.Changed (branchData (str "n") (str "s") ++ path) →
        entryAt (str "n") apartUpdate.now.map (str "s") path = some v →
        apartUpdate.Changed (branchData (str "n") mainBranch ++ path) →
        liveEntry (some v) ≠ liveEntry (entryAt (str "n") apartUpdate.now.map mainBranch path) →
        Db.step demoEnv apartUpdate.now (mergeDemo "s", 0) = none) ∧
      ∀ db', Db.step demoEnv apartUpdate.now (mergeDemo "s", 0) = some db' →
        ∀ path, apartUpdate.Changed (branchData (str "n") mainBranch ++ path) →
          entryAt (str "n") db'.map mainBranch path = entryAt (str "n") apartUpdate.now.map mainBranch path := by
  refine (merge_conflicts_iff demoEnv apartUpdate (demoSession "main") (str "s") mainBranch [] 0 (by decide)
    (by decide) (by decide +kernel)).mpr ?_
  have hnone : ∀ m ∈ apartUpdate.log, branchData (str "n") mainBranch <+: m.key →
      entryAt (str "n") apartUpdate.now.map (str "s") (m.key.drop (branchData (str "n") mainBranch).length) =
        none := by decide +kernel
  rintro path v ⟨m, hm, hkey⟩ hentry
  have hno := hnone m hm ⟨path, hkey.symm⟩
  rw [hkey] at hno
  have hdrop : (branchData (str "n") mainBranch ++ path).drop (branchData (str "n") mainBranch).length = path :=
    drop_left
  cases hentry.symm.trans (hdrop ▸ hno)

/-- The row both sides updated. -/
def sharedPath : Bytes := str "t/" ++ (putUint32 1 ++ str "1")

/-- The merge overwrites the row that main updated after the branch was created. -/
theorem merge_overwrites : Reach (Db.step demoEnv) (fun _ _ => True) Db.empty branchedDb ∧
    bothUpdate.created = branchedDb ∧
    bothUpdate.Changed (branchData (str "n") (str "s") ++ sharedPath) ∧
    bothUpdate.Changed (branchData (str "n") mainBranch ++ sharedPath) ∧
    entryAt (str "n") bothUpdate.now.map (str "s") sharedPath = some (.row [some (str "1"), some (str "a")]) ∧
    entryAt (str "n") bothUpdate.now.map mainBranch sharedPath = some (.row [some (str "1"), some (str "b")]) ∧
    ∃ db', Db.step demoEnv bothUpdate.now (mergeDemo "s", 0) = some db' ∧
      entryAt (str "n") db'.map mainBranch sharedPath = some (.row [some (str "1"), some (str "a")]) := by
  have hafter : (Db.step demoEnv bothUpdate.now (mergeDemo "s", 0)).map
      (fun db' => entryAt (str "n") db'.map mainBranch sharedPath) =
      some (some (.row [some (str "1"), some (str "a")])) := by decide +kernel
  exact ⟨reach_branchedDb, rfl, by decide +kernel, by decide +kernel, by decide +kernel, by decide +kernel,
    map_eq_some_iff.mp hafter⟩

end BasuyuDb.Branch
