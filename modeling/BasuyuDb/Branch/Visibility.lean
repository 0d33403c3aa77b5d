import BasuyuDb.Lib.Layers
import BasuyuDb.Executor.Execute

/-
  What a session on a branch sees of a table: the scan of scan.go as a function of the state, and
  its meaning. A branch is a layer of entries, live or tombstones, by the tail of their keys
  (the primary key); the scan of a feature branch overlays it on its parent, and on nothing
  further, so that a branch of a branch does not see main.
-/

namespace BasuyuDb.Branch
open KvLib Storage Executor List Option
open Prog hiding pure bind

/-! ## Scans as functions of the state -/

/-- The parent a scan of the branch falls through to. -/
def parentIn (ns : Bytes) (W : State) (branch : Bytes) : Bytes :=
  match W.lookup (branchMetaKey ns branch) with
  | some (.branchMeta parent) => if parent = [] then mainBranch else parent
  | _ => mainBranch

/-- The tails of the keys under a row prefix. -/
def tailsIn (W : State) (pre : Bytes) : List Bytes := (W.scan (underPrefix pre)).map fun kv => keyTail kv.1 pre

/-- The rows of a table on a branch. -/
def scanIn (ns : Bytes) (W : State) (branch table : Bytes) (n : Nat) : ExecM (List ScanRow) := do
  let pre := rowPrefix ns branch table
  let own ← liveRows n (W.scan (underPrefix pre))
  if branch = mainBranch ∨ table = otelSpansTable then .ok own
  else do
    let parentPre := rowPrefix ns (parentIn ns W branch) table
    let parents ← liveRows n ((W.scan (underPrefix parentPre)).filter
      (fun kv => !(tailsIn W pre).contains (keyTail kv.1 parentPre)))
    .ok (own ++ parents)

theorem scanIn_main (ns : Bytes) (W : State) (table : Bytes) (n : Nat) :
    scanIn ns W mainBranch table n = rowsIn ns W table n := by
  unfold scanIn rowsIn
  simp only [true_or, if_true]
  cases liveRows n (W.scan (underPrefix (rowPrefix ns mainBranch table))) with
  | error e | ok rows => rfl

/-- `scanTable` run on a state. -/
def scanned (sess : Session) (W : State) (table : Bytes) : ExecM (TableSchema × List ScanRow) :=
  ((scanTable sess table).exec underPrefix ⟨W, 0⟩ [] 0).map Prod.fst

section scans
variable {sess : Session} {table : Bytes} {s : Snap Bytes Val} {buf : Buffer} {i : Nat}

theorem run_parentBranch : (parentBranch sess).run underPrefix s buf i =
    .ok (parentIn sess.ns (s.seen buf) sess.branch, buf, i) := by
  unfold parentBranch parentIn
  rw [run_bind, run_read]
  dsimp only [Except.bind]
  generalize (s.seen buf).lookup (branchMetaKey sess.ns sess.branch) = o
  cases o with
  | none => rfl
  | some v => cases v <;> rfl

theorem run_scanRows {n : Nat} : (scanRows sess table n).run underPrefix s buf i =
    (scanIn sess.ns (s.seen buf) sess.branch table n).map (fun rows => (rows, buf, i)) := by
  unfold scanRows scanIn
  rw [run_bind, run_range]
  dsimp only [Except.bind]
  rw [run_bind, run_ofExcept]
  cases liveRows n ((s.seen buf).scan (underPrefix (rowPrefix sess.ns sess.branch table))) with
  | error e => rfl
  | ok own =>
    dsimp only [Except.map, Except.bind, bind]
    split
    · rfl
    · change ((scanParent sess table n _ >>= fun parents => pure (own ++ parents)).run underPrefix s buf i) = _
      unfold scanParent
      simp only [run_bind, run_parentBranch, run_range, run_ofExcept, Except.bind]
      change Except.bind (Except.map _ (liveRows n _)) _ = _
      unfold tailsIn
      cases liveRows n _ with
      | error e | ok parents => rfl

theorem run_resolveSchema {sch : TableSchema} (h : resolvedIn sess.ns (s.seen buf) table = some sch) :
    (resolveSchema sess table).run underPrefix s buf i = .ok (sch, buf, i) := by
  unfold resolveSchema
  unfold resolvedIn at h
  split
  · rename_i hotel
    rw [if_pos hotel] at h
    rw [some.inj h]
    rfl
  · rename_i hotel
    rw [if_neg hotel] at h
    unfold schemaIn at h
    unfold loadSchema
    rw [run_bind, run_read]
    dsimp only [Except.bind]
    split at h
    · rename_i sch' hlook
      rw [hlook, some.inj h]
      rfl
    · cases h

end scans

variable {ns : Bytes} {W : State} {table : Bytes} {sch : TableSchema}

theorem scanned_eq {sess : Session} (h : resolvedIn sess.ns W table = some sch) :
    scanned sess W table = (scanIn sess.ns W sess.branch table sch.cols.length).map (fun rows => (sch, rows)) := by
  unfold scanned scanTable
  rw [exec_eq_run, run_bind, run_resolveSchema h]
  dsimp only [Except.bind]
  rw [run_bind, run_scanRows]
  rw [Snap.seen_nil]
  cases scanIn sess.ns W sess.branch table sch.cols.length with
  | error e | ok rows => rfl

theorem scanned_on {sess : Session} {branch : Bytes} {rows : List ScanRow}
    (hsch : resolvedIn sess.ns W table = some sch)
    (hscan : scanIn sess.ns W branch table sch.cols.length = .ok rows) :
    scanned { sess with branch := branch } W table = .ok (sch, rows) := by
  have hsch' : resolvedIn ({ sess with branch := branch } : Session).ns W table = some sch := hsch
  rw [scanned_eq hsch']
  exact congrArg (Except.map _) hscan

/-! ## Branches as layers -/

/-- The entries of a branch by the tails of their keys, with the keys. -/
def layer (ns : Bytes) (W : State) (table branch tail : Bytes) : Option (Bytes × Val) :=
  (W.lookup (rowPrefix ns branch table ++ tail)).map fun v => (rowPrefix ns branch table ++ tail, v)

/-- What a chain of branches holds for a tail: the row of the nearest entry, if that is live. -/
def chainRow (ns : Bytes) (W : State) (table : Bytes) (n : Nat) (chain : List Bytes) (tail : Bytes) :
    Option ScanRow :=
  (nearest (chain.map (layer ns W table)) tail).bind (rowOf n)

/-- Under the row prefix there are rows and tombstones only. -/
def RowsOnly (ns : Bytes) (W : State) (table branch : Bytes) : Prop :=
  ∀ k v, rowPrefix ns branch table <+: k → W.lookup k = some v → isEntry v = true

instance (ns : Bytes) (W : State) (table branch : Bytes) : Decidable (RowsOnly ns W table branch) :=
  decidable_of_iff (∀ kv ∈ W.entries, rowPrefix ns branch table <+: kv.1 → isEntry kv.2 = true)
    ⟨fun h k v hpre hlook => h (k, v) ((OrdMap.lookup_eq_some W k v).mp hlook) hpre,
      fun h kv hkv hpre => h kv.1 kv.2 hpre ((OrdMap.lookup_eq_some W _ _).mpr hkv)⟩

section tails
variable {pre : Bytes}

theorem mem_scan_under {kv : Bytes × Val} (h : kv ∈ W.scan (underPrefix pre)) :
    pre ++ keyTail kv.1 pre = kv.1 ∧ W.lookup kv.1 = some kv.2 := by
  obtain ⟨k, v⟩ := kv
  obtain ⟨hlook, hunder⟩ := (OrdMap.mem_scan W _ k v).mp h
  obtain ⟨t, rfl⟩ := isPrefixOf_iff_prefix.mp hunder
  refine ⟨?_, hlook⟩
  simp [keyTail]

theorem mem_tailsIn {t : Bytes} : t ∈ tailsIn W pre ↔ W.lookup (pre ++ t) ≠ none := by
  unfold tailsIn
  rw [List.mem_map]
  constructor
  · rintro ⟨kv, hkv, rfl⟩
    obtain ⟨hkey, hlook⟩ := mem_scan_under hkv
    rw [hkey, hlook]
    simp
  · intro h
    obtain ⟨v, hv⟩ := ne_none_iff_exists'.mp h
    refine ⟨(pre ++ t, v), (OrdMap.mem_scan W _ _ _).mpr ⟨hv, ?_⟩, ?_⟩
    · exact isPrefixOf_iff_prefix.mpr (prefix_append _ _)
    · simp [keyTail]

theorem tailsIn_nodup : (tailsIn W pre).Nodup := by
  have hkeys : ((tailsIn W pre).map (pre ++ ·)).Nodup := by
    unfold tailsIn
    rw [List.map_map]
    have hmap : (W.scan (underPrefix pre)).map ((pre ++ ·) ∘ fun kv => keyTail kv.1 pre) =
        (W.scan (underPrefix pre)).map Prod.fst :=
      map_congr_left fun kv hkv => (mem_scan_under hkv).1
    rw [hmap]
    exact (pairwise_map.mpr (OrdMap.scan_asc W (underPrefix pre))).imp fun hlt => ne_of_lt hlt
  exact hkeys.of_map

end tails

section scanIn
variable {branch : Bytes} {n : Nat} {tail : Bytes}

theorem layer_eq_none : layer ns W table branch tail = none ↔ W.lookup (rowPrefix ns branch table ++ tail) = none :=
  map_eq_none_iff

theorem mem_tails_layer : tail ∈ tailsIn W (rowPrefix ns branch table) ↔ layer ns W table branch tail ≠ none :=
  mem_tailsIn.trans (not_congr layer_eq_none.symm)

theorem liveRows_layer (h : RowsOnly ns W table branch) (p : Bytes × Val → Bool) :
    liveRows n ((W.scan (underPrefix (rowPrefix ns branch table))).filter p) =
      .ok ((((W.scan (underPrefix (rowPrefix ns branch table))).filter p).map
        (fun kv => keyTail kv.1 (rowPrefix ns branch table))).filterMap
        (fun t => (layer ns W table branch t).bind (rowOf n))) := by
  rw [liveRows_eq_ok.mpr ⟨?_, rfl⟩, filterMap_map]
  · congr 1
    refine filterMap_congr fun kv hkv => ?_
    obtain ⟨hkey, hlook⟩ := mem_scan_under (mem_of_mem_filter hkv)
    simp only [Function.comp, layer, hkey, hlook, map_some, bind_some]
  · intro kv hkv
    obtain ⟨hkey, hlook⟩ := mem_scan_under (mem_of_mem_filter hkv)
    exact h kv.1 kv.2 ⟨_, hkey⟩ hlook

theorem liveRows_own (h : RowsOnly ns W table branch) :
    liveRows n (W.scan (underPrefix (rowPrefix ns branch table))) =
      .ok ((tailsIn W (rowPrefix ns branch table)).filterMap
        (fun t => (layer ns W table branch t).bind (rowOf n))) := by
  have hall := liveRows_layer (n := n) h (fun _ => true)
  rwa [filter_true] at hall

/-- The tails of the parent that the branch neither overrides nor deletes. -/
def inheritedTails (ns : Bytes) (W : State) (table branch parent : Bytes) : List Bytes :=
  (tailsIn W (rowPrefix ns parent table)).filter
    (fun t => !(tailsIn W (rowPrefix ns branch table)).contains t)

theorem mem_inheritedTails {parent : Bytes} : tail ∈ inheritedTails ns W table branch parent ↔
    layer ns W table parent tail ≠ none ∧ layer ns W table branch tail = none := by
  unfold inheritedTails
  rw [mem_filter, mem_tails_layer, Bool.not_eq_true', contains_eq_mem, decide_eq_false_iff_not,
    mem_tails_layer, not_not]

theorem chainRow_own (h : layer ns W table branch tail ≠ none) (chain : List Bytes) :
    chainRow ns W table n (branch :: chain) tail = (layer ns W table branch tail).bind (rowOf n) := by
  obtain ⟨kv, hkv⟩ := ne_none_iff_exists'.mp h
  unfold chainRow
  rw [map_cons, nearest_of_some hkv, hkv]

theorem chainRow_inherited (h : layer ns W table branch tail = none) (chain : List Bytes) :
    chainRow ns W table n (branch :: chain) tail = chainRow ns W table n chain tail := by
  unfold chainRow
  rw [map_cons, nearest_of_none h]

theorem chainRow_nil : chainRow ns W table n [] tail = none := rfl

theorem scanIn_local (h : RowsOnly ns W table branch) (hlocal : branch = mainBranch ∨ table = otelSpansTable) :
    ∃ rows, scanIn ns W branch table n = .ok rows ∧ Lists (chainRow ns W table n [branch]) rows := by
  refine ⟨(tailsIn W (rowPrefix ns branch table)).filterMap (chainRow ns W table n [branch]), ?_, _,
    tailsIn_nodup, fun t ht => ?_, List.Perm.refl _⟩
  · unfold scanIn
    dsimp only
    rw [liveRows_own h]
    refine (if_pos hlocal).trans (congrArg Except.ok ?_)
    exact filterMap_congr fun t ht => (chainRow_own (mem_tails_layer.mp ht) _).symm
  · refine mem_tails_layer.mpr (fun hnone => ht ?_)
    rw [chainRow_inherited hnone, chainRow_nil]

theorem scanIn_feature (hbranch : branch ≠ mainBranch) (htable : table ≠ otelSpansTable)
    (h : RowsOnly ns W table branch) (hp : RowsOnly ns W table (parentIn ns W branch)) :
    ∃ rows, scanIn ns W branch table n = .ok rows ∧
      Lists (chainRow ns W table n [branch, parentIn ns W branch]) rows := by
  generalize hparent : parentIn ns W branch = parent at hp
  refine ⟨(tailsIn W (rowPrefix ns branch table) ++ inheritedTails ns W table branch parent).filterMap
    (chainRow ns W table n [branch, parent]), ?_, _, ?_, fun t ht => ?_, List.Perm.refl _⟩
  · have hparents : liveRows n ((W.scan (underPrefix (rowPrefix ns parent table))).filter
        (fun kv => !(tailsIn W (rowPrefix ns branch table)).contains (keyTail kv.1 (rowPrefix ns parent table)))) =
        .ok ((inheritedTails ns W table branch parent).filterMap
          (fun t => (layer ns W table parent t).bind (rowOf n))) := by
      rw [liveRows_layer hp, inheritedTails, tailsIn, tailsIn, List.filter_map]
      rfl
    unfold scanIn
    dsimp only
    rw [liveRows_own h, hparent, hparents, filterMap_append]
    change (if branch = mainBranch ∨ table = otelSpansTable then _ else _) = _
    rw [if_neg (not_or.mpr ⟨hbranch, htable⟩)]
    change Except.ok (_ ++ _) = _
    congr 2
    · exact filterMap_congr fun t ht => (chainRow_own (mem_tails_layer.mp ht) _).symm
    · refine filterMap_congr (fun t ht => ?_)
      obtain ⟨hsome, hnone⟩ := mem_inheritedTails.mp ht
      rw [chainRow_inherited hnone, chainRow_own hsome]
  · refine List.Nodup.append tailsIn_nodup (tailsIn_nodup.filter _) (fun t ht ht' => ?_)
    exact mem_tails_layer.mp ht (mem_inheritedTails.mp ht').2
  · rw [mem_append, mem_tails_layer, mem_inheritedTails]
    by_cases hown : layer ns W table branch t = none
    · refine .inr ⟨fun hnone => ht ?_, hown⟩
      rw [chainRow_inherited hown, chainRow_inherited hnone, chainRow_nil]
    · exact .inl hown

end scanIn

/-! ## Chains of branches -/

/-- The branches from one down to main, each created from the next. CREATE BRANCH stores no empty
parent. -/
def IsChain (ns : Bytes) (W : State) : List Bytes → Prop
  | [] => False
  | [b] => b = mainBranch
  | b :: p :: chain => b ≠ mainBranch ∧ p ≠ [] ∧ W.lookup (branchMetaKey ns b) = some (.branchMeta p) ∧
      IsChain ns W (p :: chain)

instance decidableIsChain (ns : Bytes) (W : State) : (chain : List Bytes) → Decidable (IsChain ns W chain)
  | [] => .isFalse id
  | [b] => inferInstanceAs (Decidable (b = mainBranch))
  | b :: p :: chain =>
    have := decidableIsChain ns W (p :: chain)
    inferInstanceAs (Decidable (b ≠ mainBranch ∧ p ≠ [] ∧
      W.lookup (branchMetaKey ns b) = some (.branchMeta p) ∧ IsChain ns W (p :: chain)))

theorem IsChain.parentIn {b p : Bytes} {chain : List Bytes} (h : IsChain ns W (b :: p :: chain)) :
    parentIn ns W b = p := by
  obtain ⟨-, hp, hmeta, -⟩ := h
  unfold Branch.parentIn
  rw [hmeta]
  exact if_neg hp

theorem resolved_relational (h : resolvedIn ns W table = some sch)
    (hpk : sch.pkIndex ≠ none) : table ≠ otelSpansTable := by
  rintro rfl
  obtain rfl : otelSpansSchema = sch := some.inj h
  exact hpk rfl

/-- **Branch visibility.** A scan on the first branch of a chain returns, for each primary key, the
row of the nearest entry of the chain, iff no key without an entry on the branch and on its parent
has a live nearest entry further down. -/
theorem scan_overlays_chain_iff (sess : Session) (W : State) (table : Bytes) (sch : TableSchema)
    (chain : List Bytes) (hchain : IsChain sess.ns W (sess.branch :: chain))
    (hsch : resolvedIn sess.ns W table = some sch) (hpk : sch.pkIndex ≠ none)
    (hrows : ∀ b ∈ sess.branch :: chain, RowsOnly sess.ns W table b) :
    ∃ rows, scanned sess W table = .ok (sch, rows) ∧
      (Lists (chainRow sess.ns W table sch.cols.length (sess.branch :: chain)) rows ↔
        ∀ tail, (∀ b ∈ (sess.branch :: chain).take 2, layer sess.ns W table b tail = none) →
          chainRow sess.ns W table sch.cols.length ((sess.branch :: chain).drop 2) tail = none) := by
  have hown := hrows _ mem_cons_self
  rw [scanned_eq hsch]
  cases chain with
  | nil =>
    obtain ⟨rows, hscan, hlists⟩ := scanIn_local (n := sch.cols.length) hown (.inl hchain)
    exact ⟨rows, by rw [hscan]; rfl, fun _ _ _ => rfl, fun _ => hlists⟩
  | cons p chain =>
    have hparent := hchain.parentIn
    obtain ⟨rows, hscan, hlists⟩ := scanIn_feature (n := sch.cols.length) hchain.1
      (resolved_relational hsch hpk) hown (hparent.symm ▸ hrows p (by simp))
    rw [hparent] at hlists
    refine ⟨rows, by rw [hscan]; rfl, (hlists.iff_of_le ?_).trans (forall_congr' fun tail => ?_)⟩
    · intro tail r hr
      by_cases hb : layer sess.ns W table sess.branch tail = none
      · by_cases hp : layer sess.ns W table p tail = none
        · rw [chainRow_inherited hb, chainRow_inherited hp] at hr
          cases hr
        · rw [chainRow_inherited hb, chainRow_own hp] at hr ⊢
          exact hr
      · rw [chainRow_own hb] at hr ⊢
        exact hr
    · simp only [take_succ_cons, take_zero, mem_cons, not_mem_nil, or_false,
        forall_eq_or_imp, forall_eq, drop_succ_cons, drop_zero, and_imp]
      by_cases hb : layer sess.ns W table sess.branch tail = none
      · by_cases hp : layer sess.ns W table p tail = none
        · simp only [chainRow_inherited hb, chainRow_inherited hp, chainRow_nil, hb, hp, forall_const]
        · simp only [chainRow_inherited hb, chainRow_own hp, hp, false_imp_iff, implies_true, imp_self]
      · simp only [chainRow_own hb, hb, false_imp_iff, imp_self]

/-! ## Runs on a small table -/

/-- A branch of main shows the rows of main and its own. -/
theorem scan_overlays_main : ∃ db, Reach (Db.step demoEnv) (fun _ _ => True) Db.empty db ∧
    ∃ rows, scanned (demoSession "b1") db.map (str "t") = .ok (demoSchema, rows) ∧ rows.length = 3 ∧
      Lists (chainRow (str "n") db.map (str "t") 2 [str "b1", mainBranch]) rows := by
  obtain ⟨db, hreach, hchain, hsch, hrows, hlen⟩ := exists_demo
    [createDemo, insertDemo "main" "1" "x", branchDemo "b1" "main", insertDemo "main" "2" "y",
      insertDemo "b1" "3" "z"]
    (fun db => IsChain (str "n") db.map [str "b1", mainBranch] ∧
      resolvedIn (str "n") db.map (str "t") = some demoSchema ∧
      (∀ b ∈ [str "b1", mainBranch], RowsOnly (str "n") db.map (str "t") b) ∧
      ((scanned (demoSession "b1") db.map (str "t")).toOption.map fun sr => sr.2.length) = some 3)
    (by decide +kernel)
  obtain ⟨rows, hscan, hiff⟩ := scan_overlays_chain_iff (demoSession "b1") db.map (str "t") demoSchema
    [mainBranch] hchain hsch (by decide) hrows
  rw [hscan] at hlen
  exact ⟨db, hreach, rows, hscan, some.inj hlen, hiff.mpr fun _ _ => rfl⟩

/-- A row of main is not seen from a branch of a branch. -/
theorem grandparent_row_unseen : ∃ db, Reach (Db.step demoEnv) (fun _ _ => True) Db.empty db ∧
    IsChain (str "n") db.map [str "b2", str "b1", mainBranch] ∧
    resolvedIn (str "n") db.map (str "t") = some demoSchema ∧
    (∀ b ∈ [str "b2", str "b1", mainBranch], RowsOnly (str "n") db.map (str "t") b) ∧
    scanned (demoSession "b2") db.map (str "t") = .ok (demoSchema, []) ∧
    ¬Lists (chainRow (str "n") db.map (str "t") 2 [str "b2", str "b1", mainBranch]) [] := by
  obtain ⟨db, hreach, hchain, hsch, hrows, hscan, hrow⟩ := exists_demo
    [createDemo, insertDemo "main" "1" "x", branchDemo "b1" "main", branchDemo "b2" "b1"]
    (fun db => IsChain (str "n") db.map [str "b2", str "b1", mainBranch] ∧
      resolvedIn (str "n") db.map (str "t") = some demoSchema ∧
      (∀ b ∈ [str "b2", str "b1", mainBranch], RowsOnly (str "n") db.map (str "t") b) ∧
      (scanned (demoSession "b2") db.map (str "t")).toOption = some (demoSchema, []) ∧
      chainRow (str "n") db.map (str "t") 2 [str "b2", str "b1", mainBranch] (putUint32 1 ++ str "1") ≠ none)
    (by decide +kernel)
  refine ⟨db, hreach, hchain, hsch, hrows, ok_of_toOption hscan, fun hlists => ?_⟩
  obtain ⟨r, hr⟩ := ne_none_iff_exists'.mp hrow
  cases hlists.mem.mpr ⟨_, hr⟩

end BasuyuDb.Branch
