import BasuyuDb.Executor.Encoding
import BasuyuDb.Executor.Execute
import BasuyuDb.Executor.IndexScan
import BasuyuDb.Executor.Relations

/-
  What a scan of a plain index answers, on main. Its entries list the rows that have one
  (`IndexExact`), in the order of their encoded tuples; the scan reads, for each entry it passes,
  the row under the key built from the entry's value.
-/

namespace BasuyuDb.Executor
open KvLib Storage List Option

variable (env : Env)

/-! ## The entries of an index -/

variable (ns : Bytes) (sch : TableSchema) (d : IndexDef) (cells : Data) (W : State) (colPrefix : Bytes)

/-- All columns of the index are known and not NULL. -/
def inIndex : Bool :=
  d.columns.all fun col => (sch.colIndex env col).any fun ci => (cellAt cells ci).isSome

/-- The entry of a row in a plain index. -/
def entryOf (r : ScanRow) : Option (Bytes × Val) :=
  match encodeIndexTuple env sch d.columns r.cells with
  | .ok (some tuple) =>
    some (indexKey ns mainBranch d.table d.name tuple (primaryKeyBytes sch r.cells r.key),
      .text (primaryKeyBytes sch r.cells r.key))
  | _ => none

/-- The entries of a plain index are those of the stored rows, all of which can be encoded. -/
structure IndexExact (ns : Bytes) (W : State) (table : Bytes) (sch : TableSchema) (d : IndexDef) : Prop where
  encodes : ∀ r, HasRow ns W table sch.cols.length r → ∃ o, encodeIndexTuple env sch d.columns r.cells = .ok o
  entries : ∀ k v, indexColumnPrefix ns mainBranch d.table d.name <+: k →
    (W.lookup k = some v ↔ ∃ r, HasRow ns W table sch.cols.length r ∧ entryOf env ns sch d r = some (k, v))

/-- The entry of a row whose tuple is known. -/
def entryAt (tuple : Option Bytes) (r : ScanRow) : Option (Bytes × Val) :=
  tuple.map fun t => (indexKey ns mainBranch d.table d.name t (primaryKeyBytes sch r.cells r.key),
    .text (primaryKeyBytes sch r.cells r.key))

/-- The entries of an index, over columns or expressions, are those of the stored rows. -/
def EntriesOf (table : Bytes) (sch : TableSchema) (d : IndexDef) (tuple : Data → Option Bytes) : Prop :=
  ∀ k v, indexColumnPrefix ns mainBranch d.table d.name <+: k → (W.lookup k = some v ↔
      ∃ r, HasRow ns W table sch.cols.length r ∧ entryAt ns sch d (tuple r.cells) r = some (k, v))

/-- The tuple of a row in a plain index. -/
def plainTuple : Option Bytes :=
  (encodeIndexTuple env sch d.columns cells).toOption.join

section tuples
variable {env sch cells}

theorem encodeColumn_eq_none {col : Bytes} : encodeColumn env sch cells col = .ok none ↔
      ((sch.colIndex env col).any fun ci => (cellAt cells ci).isSome) = false := by
  unfold encodeColumn
  cases hci : sch.colIndex env col with
  | none => simp
  | some ci =>
    cases hcell : cellAt cells ci with
    | none => simp [hcell]
    | some t =>
      cases henc : orderEncode env (sch.oidAt ci) t with
      | error e | ok w => simp [hcell, henc, bind, Except.bind]

theorem tuple_iff_inIndex {cols : List Bytes} {o : Option Bytes} (h : encodeIndexTuple env sch cols cells = .ok o) :
    o.isSome = cols.all (fun col => (sch.colIndex env col).any fun ci => (cellAt cells ci).isSome) := by
  induction cols generalizing o with
  | nil =>
    cases h
    rfl
  | cons col cols ih =>
    unfold encodeIndexTuple at h ih
    rw [map_cons] at h
    rw [all_cons]
    cases hcol : encodeColumn env sch cells col with
    | error e => simp [hcol, concatParts, bind, Except.bind] at h
    | ok o' =>
      cases o' with
      | none =>
        simp only [hcol, concatParts, bind, Except.bind, Except.ok.injEq] at h
        rw [← h, encodeColumn_eq_none.mp hcol]
        rfl
      | some u =>
        have hsome : (sch.colIndex env col).any (fun ci => (cellAt cells ci).isSome) = true := by
          obtain ⟨ci, t, hci, ht, -⟩ := encodeColumn_eq_some.mp hcol
          simp [hci, ht]
        rw [hcol, concatParts_some] at h
        cases hrest : concatParts (cols.map (encodeColumn env sch cells)) with
        | error e => simp [hrest, Except.map] at h
        | ok o'' =>
          simp only [hrest, Except.map, Except.ok.injEq] at h
          rw [← h, isSome_map, ih hrest, hsome, Bool.true_and]

end tuples

section exact
variable {env ns W sch d} {table : Bytes} {rows : List ScanRow} {r : ScanRow} {e : Bytes × Val}

theorem entryOf_eq_some :
    entryOf env ns sch d r = some e ↔ ∃ tuple, encodeIndexTuple env sch d.columns r.cells = .ok (some tuple) ∧
      e = (indexKey ns mainBranch d.table d.name tuple (primaryKeyBytes sch r.cells r.key),
        .text (primaryKeyBytes sch r.cells r.key)) := by
  unfold entryOf
  split
  · rename_i tuple htuple
    rw [htuple]
    simp [eq_comm]
  · rename_i hne
    constructor
    · intro h
      cases h
    · intro h
      obtain ⟨tuple, htuple, -⟩ := h
      exact absurd htuple (hne tuple)

theorem entryAt_eq_some {tuple : Option Bytes} : entryAt ns sch d tuple r = some e ↔ ∃ t, tuple = some t ∧
      e = (indexKey ns mainBranch d.table d.name t (primaryKeyBytes sch r.cells r.key),
        .text (primaryKeyBytes sch r.cells r.key)) := by
  rw [entryAt, map_eq_some_iff]
  exact exists_congr fun t => and_congr_right fun _ => eq_comm

theorem entryPk_entryAt {tuple : Option Bytes} (h : entryAt ns sch d tuple r = some e) :
    entryPk e.2 = primaryKeyBytes sch r.cells r.key := by
  obtain ⟨t, -, rfl⟩ := entryAt_eq_some.mp h
  rfl

theorem entryOf_eq_entryAt (env : Env) (r : ScanRow) :
    entryOf env ns sch d r = entryAt ns sch d (plainTuple env sch d r.cells) r := by
  unfold entryOf plainTuple
  cases encodeIndexTuple env sch d.columns r.cells with
  | error e => rfl
  | ok o => cases o <;> rfl

theorem IndexExact.entriesOf (hx : IndexExact env ns W table sch d) :
    EntriesOf ns W table sch d (plainTuple env sch d) := by
  intro k v hk
  simpa only [entryOf_eq_entryAt] using hx.entries k v hk

theorem IndexExact.entryOf_isSome (hx : IndexExact env ns W table sch d) (hr : HasRow ns W table sch.cols.length r) :
    (entryOf env ns sch d r).isSome = inIndex env sch d r.cells := by
  obtain ⟨o, ho⟩ := hx.encodes r hr
  unfold inIndex entryOf
  rw [← tuple_iff_inIndex ho, ho]
  cases o with
  | none | some tuple => rfl

/-- Each row has a primary key of its own. -/
def OwnKeys (sch : TableSchema) (rows : List ScanRow) : Prop :=
  ∀ r ∈ rows, ∀ r' ∈ rows, primaryKeyBytes sch r.cells r.key = primaryKeyBytes sch r'.cells r'.key → r = r'

variable (hrows : rowsIn ns W table sch.cols.length = .ok rows)
include hrows

/-- The entries an index has list the entries of the rows. -/
theorem EntriesOf.perm {tuple : Data → Option Bytes} (hx : EntriesOf ns W table sch d tuple)
    (hpk : OwnKeys sch rows) :
    (W.scan (underPrefix (indexColumnPrefix ns mainBranch d.table d.name))).Perm
      (rows.filterMap fun r => entryAt ns sch d (tuple r.cells) r) := by
  have hscan : (W.scan (underPrefix (indexColumnPrefix ns mainBranch d.table d.name))).Nodup :=
    (OrdMap.scan_asc W _).imp fun hlt heq => absurd (heq ▸ hlt) (lt_irrefl _)
  have hnodup : rows.Nodup := (rowsIn_nodup hrows).of_map
  have hlist : (rows.filterMap fun r => entryAt ns sch d (tuple r.cells) r).Nodup := by
    refine pairwise_filterMap.mpr (hnodup.imp_of_mem ?_)
    intro r r' hr hr' hne e he e' he' heq
    refine hne (hpk r hr r' hr' ?_)
    rw [← entryPk_entryAt he, ← entryPk_entryAt he', heq]
  refine (perm_ext_iff_of_nodup hscan hlist).mpr fun e => ?_
  obtain ⟨k, v⟩ := e
  rw [OrdMap.mem_scan, mem_filterMap]
  constructor
  · intro h
    obtain ⟨hlook, hunder⟩ := h
    obtain ⟨r, hr, he⟩ := (hx k v (underPrefix_iff.mp hunder)).mp hlook
    exact ⟨r, (mem_rowsIn hrows).mpr hr, he⟩
  · intro h
    obtain ⟨r, hr, he⟩ := h
    have hk : indexColumnPrefix ns mainBranch d.table d.name <+: k := by
      obtain ⟨t, -, heq⟩ := entryAt_eq_some.mp he
      obtain ⟨rfl, -⟩ := Prod.mk.inj heq
      exact indexColumnPrefix_indexKey ..
    exact ⟨(hx k v hk).mpr ⟨r, (mem_rowsIn hrows).mp hr, he⟩, underPrefix_iff.mpr hk⟩

theorem IndexExact.entries_perm (hx : IndexExact env ns W table sch d)
    (hpk : OwnKeys sch rows) :
    (W.scan (underPrefix (indexColumnPrefix ns mainBranch d.table d.name))).Perm
      (rows.filterMap (entryOf env ns sch d)) := by
  simpa only [← entryOf_eq_entryAt] using hx.entriesOf.perm hrows hpk

theorem entriesOf_of_rows {tuple : Data → Option Bytes}
    (hscan : ∀ e ∈ W.scan (underPrefix (indexColumnPrefix ns mainBranch d.table d.name)),
      e ∈ rows.filterMap fun r => entryAt ns sch d (tuple r.cells) r)
    (hentries : ∀ e ∈ rows.filterMap fun r => entryAt ns sch d (tuple r.cells) r, W.lookup e.1 = some e.2) :
    EntriesOf ns W table sch d tuple := by
  intro k v hk
  constructor
  · intro hlook
    obtain ⟨r, hr, he⟩ := mem_filterMap.mp
      (hscan (k, v) ((OrdMap.mem_scan W _ _ _).mpr ⟨hlook, underPrefix_iff.mpr hk⟩))
    exact ⟨r, (mem_rowsIn hrows).mp hr, he⟩
  · intro h
    obtain ⟨r, hr, he⟩ := h
    exact hentries (k, v) (mem_filterMap.mpr ⟨r, (mem_rowsIn hrows).mpr hr, he⟩)

theorem indexExact_of_rows
    (hencodes : ∀ r ∈ rows, (encodeIndexTuple env sch d.columns r.cells).isOk = true)
    (hscan : ∀ e ∈ W.scan (underPrefix (indexColumnPrefix ns mainBranch d.table d.name)),
      e ∈ rows.filterMap (entryOf env ns sch d))
    (hentries : ∀ e ∈ rows.filterMap (entryOf env ns sch d), W.lookup e.1 = some e.2) :
    IndexExact env ns W table sch d where
  encodes := by
    intro r hr
    have hok := hencodes r ((mem_rowsIn hrows).mpr hr)
    cases h : encodeIndexTuple env sch d.columns r.cells with
    | ok o => exact ⟨o, rfl⟩
    | error e => simp [h, Except.isOk, Except.toBool] at hok
  entries := by
    simp only [entryOf_eq_entryAt] at hscan hentries ⊢
    exact entriesOf_of_rows hrows hscan hentries

end exact

/-! ## Ranges and fetches -/

def notBelow (lo : Option Bytes) (k : Bytes) : Bool := !lo.any fun l => k < l

def notAbove (hi : Option Bytes) (k : Bytes) : Bool := !hi.any fun h => h < k

theorem notBelow_mono {lo : Option Bytes} {j k : Bytes} (hjk : j < k) (hj : notBelow lo j = true) :
    notBelow lo k = true := by
  cases lo with
  | none => rfl
  | some l =>
    simp only [notBelow, any_some, Bool.not_eq_true', decide_eq_false_iff_not, not_lt] at hj ⊢
    exact hj.trans hjk.le

theorem notAbove_mono {hi : Option Bytes} {j k : Bytes} (hjk : j < k) (hk : notAbove hi k = true) :
    notAbove hi j = true := by
  cases hi with
  | none => rfl
  | some h =>
    simp only [notAbove, any_some, Bool.not_eq_true', decide_eq_false_iff_not, not_lt] at hk ⊢
    exact hjk.le.trans hk

/-- The entries between the bounds, both inclusive. -/
def entriesIn (lo hi : Option Bytes) : List (Bytes × Val) :=
  (W.scan (underPrefix colPrefix)).filter fun e => notBelow lo e.1 && notAbove hi e.1

/-- The transaction has buffered no entry of the index, or the scan is a forward one. -/
def ScanSees (S : State) (desc : Bool) : Prop := desc = true → S.scan (underPrefix colPrefix) = W.scan (underPrefix colPrefix)

theorem entriesBetween_eq {S : State} (lo hi : Option Bytes) (desc : Bool) (hsees : ScanSees W colPrefix S desc) :
    entriesBetween W S colPrefix lo hi desc =
      if desc then (entriesIn W colPrefix lo hi).reverse else entriesIn W colPrefix lo hi := by
  have hasc := OrdMap.scan_asc W (underPrefix colPrefix)
  unfold entriesBetween entriesIn
  cases desc with
  | true =>
    simp only [if_true, hsees rfl]
    have h := range_eq_filter (pairwise_reverse.mpr hasc) (q := fun e => notAbove hi e.1)
      (p := fun e => notBelow lo e.1) (fun a b hab => notAbove_mono hab) fun a b hab => notBelow_mono hab
    simp only [notAbove, Bool.not_not] at h
    simp only [← filter_reverse]
    exact h
  | false =>
    have h := range_eq_filter hasc (q := fun e => notBelow lo e.1) (p := fun e => notAbove hi e.1)
      (fun a b hab => notBelow_mono hab) fun a b hab => notAbove_mono hab
    simp only [notBelow, Bool.not_not] at h
    simp only [Bool.false_eq_true, if_false, Bool.and_comm (notBelow lo _)]
    exact h

def fetched (ns table : Bytes) (n : Nat) (e : Bytes × Val) : Option Data :=
  match W.lookup (rowKey ns mainBranch table (entryPk e.2)) with
  | some (.row cells) => some (cells.takeD n none)
  | _ => none

section fetch
variable {ns W} {table : Bytes} {n : Nat} {rows : List ScanRow}

theorem fetchRows_eq (hrows : rowsIn ns W table n = .ok rows) (entries : List (Bytes × Val))
    (out : List Data) : fetchRows W ns mainBranch table n (-1) entries out =
      .ok (out ++ entries.filterMap (fetched W ns table n)) := by
  induction entries generalizing out with
  | nil => simp [fetchRows]
  | cons e entries ih =>
    unfold fetchRows
    rw [filterMap_cons]
    unfold fetched
    cases hlook : W.lookup (rowKey ns mainBranch table (entryPk e.2)) with
    | none => exact ih out
    | some v =>
      rcases rowsIn_entry hrows (rowPrefix_rowKey ..) hlook with rfl | ⟨cells, rfl⟩
      · exact ih out
      · have hstop : ¬(0 ≤ (-1 : Int) ∧ (-1 : Int) ≤ (out ++ [cells.takeD n none]).length) := by
          omega
        simp only [decodeRow, bind, Except.bind, reduceCtorEq, if_false, if_neg hstop, ih,
          append_assoc, singleton_append]
        rfl

theorem scanIndexRange_eq {sess : Session} {S : State} {sch : TableSchema} (hmain : sess.branch = mainBranch)
    (hrows : rowsIn sess.ns W table sch.cols.length = .ok rows) (colPrefix : Bytes)
    (lo hi : Option Bytes) (desc : Bool) (hsees : ScanSees W colPrefix S desc) :
    scanIndexRange sess W S table sch colPrefix lo hi desc (-1) =
      .ok ((if desc then (entriesIn W colPrefix lo hi).reverse else entriesIn W colPrefix lo hi).filterMap
        (fetched W sess.ns table sch.cols.length)) := by
  unfold scanIndexRange
  rw [hmain, fetchRows_eq hrows, entriesBetween_eq W colPrefix lo hi desc hsees, nil_append]

end fetch

/-! ## Tables without a row-key column

The entry of a row holds its whole key, and the scan takes that for a primary key: it looks under a
key that is longer than the row's own. -/

section keyless
variable {env ns W sch d} {table : Bytes} {rows : List ScanRow}

/-- The row a full scan reads for a row of the index. -/
def misread (env : Env) (ns : Bytes) (W : State) (table : Bytes) (sch : TableSchema) (d : IndexDef)
    (r : ScanRow) : Option Data :=
  (entryOf env ns sch d r).bind (fetched W ns table sch.cols.length)

theorem scan_keyless (hpk : sch.pkIndex = none)
    (hrows : rowsIn ns W table sch.cols.length = .ok rows) (hx : IndexExact env ns W table sch d) :
    ((entriesIn W (indexColumnPrefix ns mainBranch d.table d.name) none none).filterMap
      (fetched W ns table sch.cols.length)).Perm (rows.filterMap (misread env ns W table sch d)) := by
  have hall : entriesIn W (indexColumnPrefix ns mainBranch d.table d.name) none none =
      W.scan (underPrefix (indexColumnPrefix ns mainBranch d.table d.name)) :=
    filter_eq_self.mpr fun _ _ => rfl
  have hkeys : OwnKeys sch rows := by
    intro r hr r' hr' heq
    simp only [primaryKeyBytes, hpk] at heq
    exact inj_on_of_nodup_map (rowsIn_nodup hrows) hr hr' heq
  rw [hall]
  have hperm := (hx.entries_perm hrows hkeys).filterMap (fetched W ns table sch.cols.length)
  rwa [filterMap_filterMap] at hperm

theorem misread_longer (hpk : sch.pkIndex = none) {r : ScanRow} {cells : Data}
    (h : misread env ns W table sch d r = some cells) :
    ∃ r', HasRow ns W table sch.cols.length r' ∧ r'.cells = cells ∧ r.key.length < r'.key.length := by
  obtain ⟨e, he, hf⟩ := bind_eq_some_iff.mp h
  have hkey : entryPk e.2 = r.key := by
    rw [entryPk_entryAt ((entryOf_eq_entryAt env r).symm.trans he)]
    simp only [primaryKeyBytes, hpk]
  unfold fetched at hf
  rw [hkey] at hf
  split at hf
  · rename_i stored hlook
    refine ⟨⟨rowKey ns mainBranch table r.key, stored.takeD sch.cols.length none⟩,
      ⟨rowPrefix_rowKey .., stored, hlook, rfl⟩, some.inj hf, ?_⟩
    rw [rowKey_eq, length_append, length_append]
    have h4 : (putUint32 r.key.length).length = 4 := rfl
    omega
  · cases hf

end keyless

/-- A full scan of a plain index returns each row whose indexed columns are not NULL once, exactly
when there is no such row. -/
theorem full_scan_keyless_iff (env : Env) (sess : Session) (W S : State) (table : Bytes) (sch : TableSchema)
    (d : IndexDef) (rows : List ScanRow) (desc : Bool) (hmain : sess.branch = mainBranch)
    (hpk : sch.pkIndex = none) (hrows : rowsIn sess.ns W table sch.cols.length = .ok rows)
    (hx : IndexExact env sess.ns W table sch d) (hsees : ScanSees W (indexPrefix sess d) S desc) :
    (∃ out, scanIndexRange sess W S table sch (indexPrefix sess d) none none desc (-1) = .ok out ∧
        out.Perm ((rows.filter fun r => inIndex env sch d r.cells).map ScanRow.cells)) ↔
      ∀ r ∈ rows, inIndex env sch d r.cells = false := by
  have hsome : ∀ r ∈ rows, (entryOf env sess.ns sch d r).isSome = inIndex env sch d r.cells :=
    fun r hr => hx.entryOf_isSome ((mem_rowsIn hrows).mp hr)
  have hout : ∃ out, scanIndexRange sess W S table sch (indexPrefix sess d) none none desc (-1) = .ok out ∧
      out.Perm (rows.filterMap (misread env sess.ns W table sch d)) := by
    refine ⟨_, scanIndexRange_eq hmain hrows _ none none desc hsees, ?_⟩
    unfold indexPrefix
    rw [hmain]
    refine List.Perm.trans ?_ (scan_keyless hpk hrows hx)
    cases desc with
    | true => exact (reverse_perm _).filterMap _
    | false => exact List.Perm.refl _
  obtain ⟨out, hscan, hperm⟩ := hout
  constructor
  · intro h r hr
    obtain ⟨out', hscan', hperm'⟩ := h
    cases hscan.symm.trans hscan'
    by_contra hin
    -- the row of the index with the longest key
    have hne : rows.filter (fun r => inIndex env sch d r.cells) ≠ [] :=
      ne_nil_of_mem (mem_filter.mpr ⟨hr, by simpa using hin⟩)
    obtain ⟨m, hm⟩ := ne_none_iff_exists'.mp
      (fun h0 => hne ((argmax_eq_none (f := fun r : ScanRow => r.key.length)).mp h0))
    obtain ⟨hmrow, hmin⟩ := mem_filter.mp (argmax_mem hm)
    -- as many rows are read as are in the index, so one is read for it
    have hread : (misread env sess.ns W table sch d m).isSome := by
      have hlen : (rows.filterMap (misread env sess.ns W table sch d)).length =
          (rows.filter fun r => inIndex env sch d r.cells).length := by
        rw [← hperm.length_eq, hperm'.length_eq, length_map]
      have hfilter : rows.filterMap (misread env sess.ns W table sch d) =
          (rows.filter fun r => inIndex env sch d r.cells).filterMap (misread env sess.ns W table sch d) := by
        rw [filterMap_filter]
        refine filterMap_congr fun r hr => ?_
        rw [← hsome r hr]
        unfold misread
        cases entryOf env sess.ns sch d r with
        | none | some e => rfl
      rw [hfilter] at hlen
      exact filterMap_length_eq_length.mp hlen m (argmax_mem hm)
    obtain ⟨cells, hcells⟩ := isSome_iff_exists.mp hread
    obtain ⟨r', hr', hrc, hlt⟩ := misread_longer hpk hcells
    -- the row read is one of those to be returned, with a longer key
    have hmem : cells ∈ (rows.filter fun r => inIndex env sch d r.cells).map ScanRow.cells :=
      hperm'.mem_iff.mp (hperm.mem_iff.mpr (mem_filterMap.mpr ⟨m, hmrow, hcells⟩))
    obtain ⟨q, hq, hqc⟩ := List.mem_map.mp hmem
    have hin' : inIndex env sch d r'.cells = true := by
      rw [hrc, ← hqc]
      exact (mem_filter.mp hq).2
    have hle := le_of_mem_argmax (mem_filter.mpr ⟨(mem_rowsIn hrows).mpr hr', hin'⟩) hm
    exact absurd hlt (not_lt.mpr hle)
  · intro h
    have hnone : rows.filter (fun r => inIndex env sch d r.cells) = [] :=
      filter_eq_nil_iff.mpr fun r hr => by simp [h r hr]
    have hempty : rows.filterMap (misread env sess.ns W table sch d) = [] := by
      refine filterMap_eq_nil_iff.mpr fun r hr => ?_
      have hno := hsome r hr
      rw [h r hr, isSome_eq_false_iff, isNone_iff_eq_none] at hno
      unfold misread
      rw [hno]
      rfl
    refine ⟨out, hscan, ?_⟩
    rw [hnone]
    rw [hempty] at hperm
    exact hperm

def indexHeap : Call := ⟨demoSession "main", .createIndex ⟨str "h_a", str "h", [.col (str "a")], none, false⟩, []⟩

def heapIndex : IndexDef := ⟨str "h_a", str "h", [str "a"], false, [], []⟩

/-- The rows of the table in a state. -/
def heapRows (db : Db) : List ScanRow := ((rowsIn (str "n") db.map (str "h") 2).toOption).getD []

/-- A row with NULL in the indexed column is not in the index, and the scan is empty. -/
theorem full_scan_keyless_null : ∃ db, Reach (Db.step demoEnv) (fun _ _ => True) Db.empty db ∧
    ∃ rows, rowsIn (str "n") db.map (str "h") 2 = .ok rows ∧ rows.length = 1 ∧
      ∃ out, scanIndexRange (demoSession "main") db.map db.map (str "h") heapSchema
          (indexPrefix (demoSession "main") heapIndex) none none false (-1) = .ok out ∧
        out.Perm ((rows.filter fun r => inIndex demoEnv heapSchema heapIndex r.cells).map ScanRow.cells) := by
  obtain ⟨db, hreach, hrows, hlen, hnull, hencodes, hscan, hentries⟩ := exists_demo
    [createHeap, indexHeap, insertHeap .null (.string (str "x"))]
    (fun db => (rowsIn (str "n") db.map (str "h") 2).toOption = some (heapRows db) ∧
      (heapRows db).length = 1 ∧ (∀ r ∈ heapRows db, inIndex demoEnv heapSchema heapIndex r.cells = false) ∧
      (∀ r ∈ heapRows db, (encodeIndexTuple demoEnv heapSchema heapIndex.columns r.cells).isOk = true) ∧
      (∀ e ∈ db.map.scan (underPrefix (indexColumnPrefix (str "n") mainBranch (str "h") (str "h_a"))),
        e ∈ (heapRows db).filterMap (entryOf demoEnv (str "n") heapSchema heapIndex)) ∧
      (∀ e ∈ (heapRows db).filterMap (entryOf demoEnv (str "n") heapSchema heapIndex), db.map.lookup e.1 = some e.2))
    (by decide +kernel)
  have hrows' := ok_of_toOption hrows
  exact ⟨db, hreach, _, hrows', hlen, (full_scan_keyless_iff demoEnv (demoSession "main") db.map db.map (str "h")
    heapSchema heapIndex _ false rfl rfl hrows' (indexExact_of_rows hrows' hencodes hscan hentries) fun _ => rfl).mpr hnull⟩

/-- A row whose indexed column is not NULL is not found by the index built over it. -/
theorem keyless_row_lost : ∃ db, Reach (Db.step demoEnv) (fun _ _ => True) Db.empty db ∧
    schemaIn (str "n") db.map (str "h") = some heapSchema ∧
    indexesIn (str "n") db.map (str "h") = some [heapIndex] ∧
    ∃ r, rowsIn (str "n") db.map (str "h") 2 = .ok [r] ∧ inIndex demoEnv heapSchema heapIndex r.cells = true ∧
      scanIndexRange (demoSession "main") db.map db.map (str "h") heapSchema
        (indexPrefix (demoSession "main") heapIndex) none none false (-1) = .ok [] := by
  obtain ⟨db, hreach, hsch, hdefs, hrows, hlen, hin, hscan⟩ := exists_demo
    [createHeap, insertHeap (.string (str "1")) (.string (str "x")), indexHeap]
    (fun db => schemaIn (str "n") db.map (str "h") = some heapSchema ∧
      indexesIn (str "n") db.map (str "h") = some [heapIndex] ∧
      (rowsIn (str "n") db.map (str "h") 2).toOption = some (heapRows db) ∧
      (heapRows db).length = 1 ∧ (∀ r ∈ heapRows db, inIndex demoEnv heapSchema heapIndex r.cells = true) ∧
      (scanIndexRange (demoSession "main") db.map db.map (str "h") heapSchema
        (indexPrefix (demoSession "main") heapIndex) none none false (-1)).toOption = some [])
    (by decide +kernel)
  obtain ⟨r, hr⟩ := length_eq_one_iff.mp hlen
  rw [hr] at hrows hin
  exact ⟨db, hreach, hsch, hdefs, r, ok_of_toOption hrows, hin r (mem_singleton_self r), ok_of_toOption hscan⟩

end BasuyuDb.Executor
