import BasuyuDb.Branch.Isolation

/-
  engine/internal/executor/constraints.go (parentRowExists) against scan.go. A reference to the primary key is
  decided by one read, of the key the parent row would have on the session's own branch. The scan overlays the
  branch on its parent. So the probe misses a row that the branch inherits, and takes the tombstone of a row
  deleted on the branch for the row (`probe_agrees_iff`).
-/

namespace BasuyuDb.Branch
open KvLib Storage Executor List
open Prog hiding pure bind

variable {ns : Bytes} {W : State} {branch table : Bytes} {n : Nat}

/-! ## The rows of a scan -/

def visibleChain (ns : Bytes) (W : State) (branch table : Bytes) : List Bytes :=
  if branch = mainBranch ∨ table = otelSpansTable then [branch] else [branch, parentIn ns W branch]

/-- The row that a scan on the branch shows for a primary key. -/
def rowAt (ns : Bytes) (W : State) (branch table : Bytes) (n : Nat) (pk : Bytes) : Option ScanRow :=
  chainRow ns W table n (visibleChain ns W branch table) (putUint32 pk.length ++ pk)

variable {r : ScanRow} {rows : List ScanRow}

theorem layer_rowOf {tail : Bytes} : (layer ns W table branch tail).bind (rowOf n) = some r ↔
    r.key = rowPrefix ns branch table ++ tail ∧
      ∃ cells, W.lookup r.key = some (.row cells) ∧ r.cells = cells.takeD n none := by
  obtain ⟨key, cells⟩ := r
  unfold layer
  cases hlook : W.lookup (rowPrefix ns branch table ++ tail) with
  | none =>
    refine iff_of_false (by simp) ?_
    rintro ⟨rfl, cells', hcells, -⟩
    cases hlook.symm.trans hcells
  | some v =>
    constructor
    · intro h
      cases v with
      | row cells' =>
        obtain ⟨rfl, rfl⟩ := ScanRow.mk.inj (Option.some.inj h)
        exact ⟨rfl, cells', hlook, rfl⟩
      | tombstone | text b | schema sch | indexes defs | branchMeta p => cases h
    · rintro ⟨rfl, cells', hcells, rfl⟩
      cases hlook.symm.trans hcells
      rfl

theorem mem_liveRows_layer {p : Bytes × Val → Bool}
    (h : liveRows n ((W.scan (underPrefix (rowPrefix ns branch table))).filter p) = .ok rows)
    {q : Bytes → Prop} (hp : ∀ t v, p (rowPrefix ns branch table ++ t, v) = true ↔ q t) :
    r ∈ rows ↔ ∃ t, q t ∧ (layer ns W table branch t).bind (rowOf n) = some r := by
  rw [mem_liveRows h]
  constructor
  · rintro ⟨cells, hmem, hcells⟩
    obtain ⟨hmem, hpass⟩ := mem_filter.mp hmem
    obtain ⟨hlook, hunder⟩ := (OrdMap.mem_scan W _ _ _).mp hmem
    obtain ⟨t, ht⟩ := isPrefixOf_iff_prefix.mp hunder
    rw [← ht] at hpass
    exact ⟨t, (hp t _).mp hpass, layer_rowOf.mpr ⟨ht.symm, cells, hlook, hcells⟩⟩
  · rintro ⟨t, hq, hrow⟩
    obtain ⟨hkey, cells, hlook, hcells⟩ := layer_rowOf.mp hrow
    refine ⟨cells, mem_filter.mpr ⟨(OrdMap.mem_scan W _ _ _).mpr ⟨hlook, ?_⟩, ?_⟩, hcells⟩
    · exact isPrefixOf_iff_prefix.mpr ⟨t, hkey.symm⟩
    · rw [hkey]
      exact (hp t _).mpr hq

theorem mem_scanIn_iff (h : scanIn ns W branch table n = .ok rows) :
    r ∈ rows ↔ ∃ t, chainRow ns W table n (visibleChain ns W branch table) t = some r := by
  unfold scanIn at h
  obtain ⟨own, hown, h⟩ := ok_of_bind h
  rw [← filter_true (W.scan (underPrefix (rowPrefix ns branch table)))] at hown
  have hmem : ∀ r, r ∈ own ↔ ∃ t, (layer ns W table branch t).bind (rowOf n) = some r := by
    intro r
    simp [mem_liveRows_layer hown (q := fun _ => True) fun _ _ => iff_of_true rfl trivial]
  have hchain : ∀ (chain : List Bytes) t, layer ns W table branch t ≠ none →
      chainRow ns W table n (branch :: chain) t = (layer ns W table branch t).bind (rowOf n) :=
    fun chain t ht => chainRow_own ht chain
  have hsome : ∀ {t r}, (layer ns W table branch t).bind (rowOf n) = some r → layer ns W table branch t ≠ none := by
    intro t r hr hnone
    rw [hnone] at hr
    cases hr
  unfold visibleChain
  split at h
  · rename_i hlocal
    cases h
    rw [if_pos hlocal, hmem]
    refine exists_congr fun t => ?_
    by_cases ht : layer ns W table branch t = none
    · rw [chainRow_inherited ht, chainRow_nil, ht]
      rfl
    · rw [hchain _ t ht]
  · rename_i hfeature
    obtain ⟨parents, hparents, h⟩ := ok_of_bind h
    cases h
    rw [if_neg hfeature, mem_append, hmem, mem_liveRows_layer hparents
      (q := fun t => layer ns W table branch t = none) ?_]
    · constructor
      · rintro (⟨t, hr⟩ | ⟨t, hnone, hr⟩)
        · exact ⟨t, (hchain _ t (hsome hr)).trans hr⟩
        · refine ⟨t, ?_⟩
          rw [chainRow_inherited hnone]
          have hp : layer ns W table (parentIn ns W branch) t ≠ none := by
            intro hp
            rw [hp] at hr
            cases hr
          rw [chainRow_own hp, hr]
      · rintro ⟨t, hr⟩
        by_cases ht : layer ns W table branch t = none
        · refine .inr ⟨t, ht, ?_⟩
          rw [chainRow_inherited ht] at hr
          by_cases hp : layer ns W table (parentIn ns W branch) t = none
          · rw [chainRow_inherited hp, chainRow_nil] at hr
            cases hr
          · rwa [chainRow_own hp] at hr
        · exact .inl ⟨t, (hchain _ t ht).symm.trans hr⟩
    · intro t v
      have htail : keyTail (rowPrefix ns (parentIn ns W branch) table ++ t)
          (rowPrefix ns (parentIn ns W branch) table) = t := by simp [keyTail]
      rw [htail, Bool.not_eq_true', contains_eq_mem, decide_eq_false_iff_not, mem_tails_layer, not_not]

theorem scanIn_entry (h : scanIn ns W branch table n = .ok rows) {k : Bytes} {v : Val}
    (hk : rowPrefix ns branch table <+: k) (hv : W.lookup k = some v) : v = .tombstone ∨ ∃ cells, v = .row cells := by
  unfold scanIn at h
  obtain ⟨own, hown, -⟩ := ok_of_bind h
  exact liveRows_entry hown ((OrdMap.mem_scan W _ _ _).mpr ⟨hv, isPrefixOf_iff_prefix.mpr hk⟩)

/-! ## The probe -/

/-- The branch's own entry for the key is a row, or it has none and inherits none. -/
def ProbeSees (ns : Bytes) (W : State) (branch table pk : Bytes) : Prop :=
  match W.lookup (rowKey ns branch table pk) with
  | some .tombstone => False
  | some _ => True
  | none => branch = mainBranch ∨ ∀ cells, W.lookup (rowKey ns (parentIn ns W branch) table pk) ≠ some (.row cells)

/-- The rows of the scan with the value in the column of the primary key are the one under the value's key. -/
def Keyed (ns : Bytes) (W : State) (branch table : Bytes) (n pk : Nat) (val : Bytes) (rows : List ScanRow) : Prop :=
  ∀ r ∈ rows, cellAt r.cells pk = some val ↔ rowAt ns W branch table n val = some r

instance {pk : Nat} {val : Bytes} : Decidable (Keyed ns W branch table n pk val rows) :=
  inferInstanceAs (Decidable (∀ r ∈ rows, cellAt r.cells pk = some val ↔ rowAt ns W branch table n val = some r))

theorem layer_live {tail : Bytes} : (layer ns W table branch tail).bind (rowOf n) ≠ none ↔
    ∃ cells, W.lookup (rowPrefix ns branch table ++ tail) = some (.row cells) := by
  rw [Option.ne_none_iff_exists']
  constructor
  · rintro ⟨r, hr⟩
    obtain ⟨hkey, cells, hlook, -⟩ := layer_rowOf.mp hr
    exact ⟨cells, hkey ▸ hlook⟩
  · rintro ⟨cells, hlook⟩
    exact ⟨⟨_, cells.takeD n none⟩, layer_rowOf.mpr ⟨rfl, cells, hlook, rfl⟩⟩

theorem rowAt_ne_none (htable : table ≠ otelSpansTable) (pk : Bytes) : rowAt ns W branch table n pk ≠ none ↔
      (∃ cells, W.lookup (rowKey ns branch table pk) = some (.row cells)) ∨
      (W.lookup (rowKey ns branch table pk) = none ∧ branch ≠ mainBranch ∧
        ∃ cells, W.lookup (rowKey ns (parentIn ns W branch) table pk) = some (.row cells)) := by
  unfold rowAt visibleChain
  simp only [rowKey_eq, or_iff_left htable]
  by_cases hown : layer ns W table branch (putUint32 pk.length ++ pk) = none
  · rw [or_iff_right fun ⟨cells, hcells⟩ => absurd ((layer_eq_none.mp hown).symm.trans hcells) (by simp),
      ← layer_eq_none, and_iff_right hown]
    split
    · rename_i hmain
      rw [chainRow_inherited hown, chainRow_nil]
      exact iff_of_false (fun h => h rfl) fun h => h.1 hmain
    · rename_i hfeature
      rw [chainRow_inherited hown, and_iff_right hfeature]
      by_cases hp : layer ns W table (parentIn ns W branch) (putUint32 pk.length ++ pk) = none
      · rw [chainRow_inherited hp, chainRow_nil]
        refine iff_of_false (fun h => h rfl) ?_
        rintro ⟨cells, hcells⟩
        cases (layer_eq_none.mp hp).symm.trans hcells
      · rw [chainRow_own hp]
        exact layer_live
  · rw [or_iff_left fun h => hown (layer_eq_none.mpr h.1), ← layer_live (n := n)]
    split
    · rw [chainRow_own hown]
    · rw [chainRow_own hown]

/-- **Foreign-key probes.** Where rows lie under their keys, the probe for a reference to a single-column primary key
finds a row exactly when the scan on the branch shows one with the value in that column, if and only if the branch has
a row of its own for the key, or no entry of its own and nothing to inherit. -/
theorem probe_agrees_iff (env : Env) (sess : Session) (W : State) (table col val : Bytes) (psch : TableSchema)
    (rows : List ScanRow) (pk : Nat) (hscan : scanned sess W table = .ok (psch, rows)) (hpk : psch.pkIndex = some pk)
    (hcol : isKeyColumn env psch col = true)
    (hkeyed : Keyed sess.ns W sess.branch table psch.cols.length pk val rows) :
    ∃ found, (parentRowExists env sess table col val).exec underPrefix ⟨W, 0⟩ [] 0 = .ok (found, []) ∧
      ((found = true ↔ ∃ r ∈ rows, cellAt r.cells pk = some val) ↔ ProbeSees sess.ns W sess.branch table val) := by
  obtain ⟨hsch, hrows⟩ := scanned_ok hscan
  have htable := resolved_relational hsch (by simp [hpk])
  have hstored : schemaIn sess.ns W table = some psch := (if_neg htable).symm.trans hsch
  have hprobe : (parentRowExists env sess table col val).exec underPrefix ⟨W, 0⟩ [] 0 =
      .ok ((W.lookup (rowKey sess.ns sess.branch table val)).isSome, []) := by
    unfold parentRowExists loadSchema
    rw [exec_eq_run]
    simp only [run_bind, run_read, Except.bind, Snap.seen_nil, schemaIn_eq_some.mp hstored, run_pure, hcol,
      if_true, Except.map]
  refine ⟨_, hprobe, ?_⟩
  have hshown : (∃ r ∈ rows, cellAt r.cells pk = some val) ↔
      rowAt sess.ns W sess.branch table psch.cols.length val ≠ none := by
    rw [Option.ne_none_iff_exists']
    exact exists_congr fun r => (and_congr_right (hkeyed r)).trans
      (and_iff_right_of_imp fun h => (mem_scanIn_iff hrows).mpr ⟨_, h⟩)
  rw [hshown, rowAt_ne_none htable]
  unfold ProbeSees
  cases hown : W.lookup (rowKey sess.ns sess.branch table val) with
  | none => simp [not_and, imp_iff_not_or, not_exists]
  | some v =>
    rcases scanIn_entry hrows (rowPrefix_rowKey ..) hown with rfl | ⟨cells, rfl⟩
    · simp
    · simp

/-! A branch of a table t(id PRIMARY KEY, v). -/

/-- The answer of the probe for a row of t, and whether the scan shows one. -/
def probed (branch id : String) (db : Db) : Option (Bool × Bool) := do
  let sc ← (scanned (demoSession branch) db.map (str "t")).toOption
  let found ← ((parentRowExists demoEnv (demoSession branch) (str "t") (str "id") (str id)).exec underPrefix
    ⟨db.map, 0⟩ [] 0).toOption
  pure (found.1, sc.2.any fun r => cellAt r.cells 0 = some (str id))

def deleteDemo (branch id : String) : Call :=
  ⟨demoSession branch, .dml (.delete ⟨str "t", some (.binary (str "=") (.column [str "id"])
    (.const (.string (str id)))), .none⟩), []⟩

/-- A row of the branch's own. -/
theorem probe_finds_own_row : ∃ db, Reach (Db.step demoEnv) (fun _ _ => True) Db.empty db ∧
    ∃ rows found, scanned (demoSession "b1") db.map (str "t") = .ok (demoSchema, rows) ∧ rows.length = 2 ∧
      (parentRowExists demoEnv (demoSession "b1") (str "t") (str "id") (str "3")).exec underPrefix
        ⟨db.map, 0⟩ [] 0 = .ok (found, []) ∧
      (found = true ↔ ∃ r ∈ rows, cellAt r.cells 0 = some (str "3")) := by
  obtain ⟨db, hreach, hsch, hscan, hown⟩ := exists_demo
    [createDemo, insertDemo "main" "1" "x", branchDemo "b1" "main", insertDemo "b1" "3" "z"]
    (fun db : Db => resolvedIn (str "n") db.map (str "t") = some demoSchema ∧
      ((scanned (demoSession "b1") db.map (str "t")).toOption.map fun sr => (sr.2.length,
        decide (Keyed (str "n") db.map (str "b1") (str "t") 2 0 (str "3") sr.2))) = some (2, true) ∧
      db.map.lookup (rowKey (str "n") (str "b1") (str "t") (str "3")) = some (.row [some (str "3"), some (str "z")]))
    (by decide +kernel)
  obtain ⟨⟨sch, rows⟩, hsr, hsame⟩ := Option.map_eq_some_iff.mp hscan
  obtain ⟨hlen, hkeyed⟩ := Prod.mk.inj hsame
  have hok := ok_of_toOption hsr
  obtain rfl : sch = demoSchema := Option.some.inj ((scanned_ok hok).1.symm.trans hsch)
  obtain ⟨found, hfound, hiff⟩ := probe_agrees_iff demoEnv (demoSession "b1") db.map (str "t") (str "id") (str "3")
    demoSchema rows 0 hok rfl (by decide) (of_decide_eq_true hkeyed)
  refine ⟨db, hreach, rows, found, hok, hlen, hfound, hiff.mpr ?_⟩
  unfold ProbeSees
  rw [show db.map.lookup (rowKey (demoSession "b1").ns (demoSession "b1").branch (str "t") (str "3")) = _ from hown]
  trivial

/-- A row that the branch inherits is not found, and one that it deleted is. -/
theorem probe_misses_inherited : ∃ db db', Reach (Db.step demoEnv) (fun _ _ => True) Db.empty db ∧
    Reach (Db.step demoEnv) (fun _ _ => True) Db.empty db' ∧
    probed "b1" "1" db = some (false, true) ∧ probed "b1" "1" db' = some (true, false) := by
  obtain ⟨db, hreach, hout⟩ := exists_demo
    [createDemo, insertDemo "main" "1" "x", branchDemo "b1" "main"]
    (fun db : Db => probed "b1" "1" db = some (false, true)) (by decide +kernel)
  obtain ⟨db', hreach', hout'⟩ := exists_demo
    [createDemo, insertDemo "main" "1" "x", branchDemo "b1" "main", deleteDemo "b1" "1"]
    (fun db : Db => probed "b1" "1" db = some (true, false)) (by decide +kernel)
  exact ⟨db, db', hreach, hreach', hout, hout'⟩

end BasuyuDb.Branch
