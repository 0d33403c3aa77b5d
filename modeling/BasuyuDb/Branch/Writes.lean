import BasuyuDb.Branch.Actions

/-
  What a statement on a feature branch writes. A scan on a branch returns the rows the branch
  inherits with the keys of its parent, and UPDATE, DELETE and the actions of foreign keys take
  the key to write from the primary key of the row (`branchRowKey`); a row without one is written
  where it was read, on the parent. A statement is `Confined` when it writes no such row: neither
  those that WHERE targets nor the children that its rows match. Then every write is a key of the
  branch (`OnBranch`). The rules follow the statement: what it reads are rows of the branch or rows
  inherited when it began, what it writes stays on the branch.
-/

namespace BasuyuDb.Branch
open KvLib Storage Executor List
open Prog hiding pure bind

/-! ## The writes of a branch -/

/-- A row or a tombstone among the branch's rows, an index entry of the branch, or a counter of
the namespace. -/
inductive OnBranch (sess : Session) : Mutation Bytes Val → Prop
  | row {k : Bytes} {v : Val} (h : branchData sess.ns sess.branch <+: k) : OnBranch sess (assignment k v)
  | entry (d : IndexDef) (pk tuple : Bytes) (add : Bool) : OnBranch sess (entryMutation sess d pk tuple add)
  | counter (name text : Bytes) : OnBranch sess (assignment (seqKey sess name) (.text text))

/-- Everything buffered so far is on the branch. -/
def StaysOn (sess : Session) (buf : Buffer) : Prop := ∀ m ∈ buf, OnBranch sess m

section seen
variable {sess : Session} {s : Snap Bytes Val} {buf : Buffer}

theorem OnBranch.data {m : Mutation Bytes Val} (h : OnBranch sess m) : DataWrite sess m := by
  cases h with
  | row h => exact .row h
  | entry d pk tuple add => exact .entry d pk tuple add
  | counter name text => exact .counter name text

theorem OnBranch.key {m : Mutation Bytes Val} (h : OnBranch sess m) :
    branchSubtreePrefix sess.ns sess.branch <+: m.key ∨ ∃ name, m.key = seqKey sess name := by
  cases h with
  | row h => exact .inl ((subtree_branchData _ _).trans h)
  | entry d pk tuple add =>
    rw [entryMutation_key]
    exact .inl (subtree_indexKey ..)
  | counter name text => exact .inr ⟨name, rfl⟩

theorem StaysOn.lookup_eq (h : StaysOn sess buf) {k : Bytes}
    (hk : ¬branchSubtreePrefix sess.ns sess.branch <+: k) (hseq : ∀ name, k ≠ seqKey sess name) :
    (s.seen buf).lookup k = s.map.lookup k := by
  rcases s.lookup_seen_cases buf k with hsame | ⟨m, hm, hkey, -⟩
  · exact hsame
  · rcases (h m hm).key with hsub | ⟨name, hname⟩
    · exact absurd (hkey ▸ hsub) hk
    · exact absurd (hkey.symm.trans hname) (hseq name)

theorem StaysOn.row_cases (h : StaysOn sess buf) {k : Bytes} {cells : Data}
    (hk : (s.seen buf).lookup k = some (.row cells)) : s.map.lookup k = some (.row cells) ∨
      branchData sess.ns sess.branch <+: k ∧ assignment k (.row cells) ∈ buf := by
  rcases s.lookup_seen_cases buf k with hsame | ⟨m, hm, rfl, heff⟩
  · exact .inl (hsame.symm.trans hk)
  · rw [hk] at heff
    cases h m hm with
    | row hrow =>
      cases heff
      exact .inr ⟨hrow, hm⟩
    | entry d pk tuple add =>
      rcases entryMutation_effect sess d pk tuple add with h1 | h1
      · cases heff.trans h1
      · cases heff.trans h1
    | counter name text => cases heff

theorem StaysOn.lookup_none (h : StaysOn sess buf) {k : Bytes}
    (hdata : branchData sess.ns sess.branch <+: k) (hk : (s.seen buf).lookup k = none) : s.map.lookup k = none := by
  rcases s.lookup_seen_cases buf k with hsame | ⟨m, hm, rfl, heff⟩
  · exact hsame.symm.trans hk
  · rw [hk] at heff
    cases h m hm with
    | row hrow => cases heff
    | entry d pk tuple add =>
      rw [entryMutation_key] at hdata
      exact absurd hdata (branchData_not_index _ _ _ _ _ _)
    | counter name text => exact absurd hdata (branchData_not_schema _ _ _)

theorem StaysOn.noNewSchemas (h : StaysOn sess buf) : NoNewSchemas sess s buf :=
  Branch.noNewSchemas fun m hm => (h m hm).data

theorem StaysOn.parentIn (h : StaysOn sess buf) (b : Bytes) :
    parentIn sess.ns (s.seen buf) b = Branch.parentIn sess.ns s.map b :=
  parentIn_seen (fun m hm => (h m hm).data) b

end seen

/-! ## The rows a statement reads on a branch -/

variable {ns branch table : Bytes} {W : State} {n : Nat} {r : ScanRow} {sch : TableSchema} {cells : Data}
  {env : Env}

theorem inherited_mem_scanIn {rows : List ScanRow}
    (hbranch : branch ≠ mainBranch) (h : scanIn ns W branch table n = .ok rows)
    (hr : r ∈ inheritedRows ns W branch table n) : r ∈ rows := by
  obtain ⟨hotel, tail, cells, hown, hparent, rfl⟩ := mem_inheritedRows.mp hr
  obtain ⟨own, -, h⟩ := ok_of_bind h
  rw [if_neg (not_or.mpr ⟨hbranch, hotel⟩)] at h
  obtain ⟨parents, hparents, h⟩ := ok_of_bind h
  cases h
  refine mem_append_right _ ((mem_liveRows hparents).mpr ⟨cells, mem_filter.mpr ⟨?_, ?_⟩, rfl⟩)
  · exact (OrdMap.mem_scan W _ _ _).mpr ⟨hparent, isPrefixOf_iff_prefix.mpr (prefix_append _ _)⟩
  · have htail : keyTail (rowPrefix ns (parentIn ns W branch) table ++ tail)
        (rowPrefix ns (parentIn ns W branch) table) = tail := by simp [keyTail]
    rw [htail, Bool.not_eq_true', contains_eq_mem, decide_eq_false_iff_not, mem_tailsIn, not_not]
    exact hown

/-- A row of a table as a session reads it in a state: its branch's own, or inherited. -/
def StartRow (sess : Session) (W : State) (table : Bytes) (n : Nat) (r : ScanRow) : Prop :=
  (rowPrefix sess.ns sess.branch table <+: r.key ∧
    ∃ cells, W.lookup r.key = some (.row cells) ∧ r.cells = cells.takeD n none) ∨
  r ∈ inheritedRows sess.ns W sess.branch table n

section reads
variable {sess : Session} {s : Snap Bytes Val} {buf : Buffer} {rows : List ScanRow}

theorem startRow_scanIn (h : scanIn sess.ns W sess.branch table n = .ok rows) (hr : r ∈ rows) :
    StartRow sess W table n r :=
  (mem_scanIn h hr).imp (fun hown => ⟨hown, scanIn_live h hr⟩) fun hinh => hinh.2

/-- A row read in the middle of a statement was there when it began, or the statement has written it. -/
theorem StaysOn.read_cases (h : StaysOn sess buf)
    (hrows : scanIn sess.ns (s.seen buf) sess.branch table n = .ok rows) (hr : r ∈ rows) :
    StartRow sess s.map table n r ∨ branchData sess.ns sess.branch <+: r.key ∧
      RowAt sess s.map table r.key ∧ ∃ cells, assignment r.key (.row cells) ∈ buf ∧ r.cells = cells.takeD n none := by
  obtain ⟨cells, hlook, hcells⟩ := scanIn_live hrows hr
  have hat : RowAt sess s.map table r.key := by
    obtain ⟨b, hb, hk⟩ := rowAt_scanIn hrows hr
    unfold Layer at hb
    rw [h.parentIn] at hb
    exact ⟨b, hb, hk⟩
  rcases h.row_cases hlook with hbefore | ⟨hdata, hmem⟩
  · refine .inl ((mem_scanIn hrows hr).imp (fun hown => ⟨hown, cells, hbefore, hcells⟩) fun hinh => ?_)
    obtain ⟨hotel, tail, cells', hown, hparent, rfl⟩ := mem_inheritedRows.mp hinh.2
    rw [h.parentIn] at hparent hbefore ⊢
    refine mem_inheritedRows.mpr ⟨hotel, tail, cells, ?_, hbefore, ?_⟩
    · exact h.lookup_none ((branchData_rowPrefix _ _ _).trans (prefix_append _ _)) hown
    · exact congrArg (ScanRow.mk _) hcells
  · exact .inr ⟨hdata, hat, cells, hmem, hcells⟩

theorem StartRow.own_or_inherited (h : StartRow sess W table n r) :
    branchData sess.ns sess.branch <+: r.key ∨ r ∈ inheritedRows sess.ns W sess.branch table n :=
  h.imp_left fun hown => (branchData_rowPrefix _ _ _).trans hown.1

end reads

/-! ## The rows a statement writes on a branch -/

/-- The row has a value in the single column of a primary key. -/
def keyed (sch : TableSchema) (cells : Data) : Bool := (sch.pkIndex.bind (cellAt cells)).isSome

section writes
variable {sess : Session} {defs : List IndexDef}

theorem indexEntries_onBranch {rk : Bytes}
    {add : Bool} : (indexEntries env sess sch defs cells rk add).Writes (OnBranch sess) :=
  indexEntries_frame fun d _ _ _ => .entry d _ _ add

theorem branchRowKey_onBranch {rk : Bytes} (h : branchData sess.ns sess.branch <+: rk ∨ keyed sch cells = true) :
    branchData sess.ns sess.branch <+: branchRowKey sess table sch cells rk := by
  unfold branchRowKey
  split
  · exact branchData_rowKey _ _ _ _
  · rename_i hnone
    refine h.resolve_right fun hkeyed => ?_
    rw [keyed, hnone] at hkeyed
    cases hkeyed

theorem replaceRow_onBranch {r : ScanRow} (h : branchData sess.ns sess.branch <+: r.key ∨ keyed sch cells = true) :
    (replaceRow env sess table sch defs r cells).Writes (OnBranch sess) :=
  Writes.bind indexEntries_onBranch fun _ =>
    Writes.bind (Writes.write (.row (branchRowKey_onBranch h))) fun _ => indexEntries_onBranch

variable {s : Snap Bytes Val} {buf : Buffer}

theorem StaysOn.wp_writes (hI : StaysOn sess buf) {A : Type} {p : Stm A} (hp : p.Writes (OnBranch sess)) :
    p.wp underPrefix s (fun _ buf' => StaysOn sess buf') buf := hp.wp_all hI

end writes

/-! ## Referential actions -/

/-- A foreign key of the table references the parent's, and the child row has the values of the parent row. -/
def Matches (env : Env) (sess : Session) (W : State) (p : Bytes) (psch : TableSchema) (pcells : Data)
    (t : TableSchema) (fk : FkConstraint) (r : ScanRow) : Prop :=
  (t, fk) ∈ referencing env p (tablesIn sess.ns W) ∧
    ∃ vals, refTupleFromParent env psch pcells fk = some vals ∧ childTupleMatches env t r.cells fk vals = true

/-- The branch inherits the row of the table. -/
def Inherits (sess : Session) (W : State) (table : Bytes) (r : ScanRow) : Prop :=
  ∃ sch, resolvedIn sess.ns W table = some sch ∧ r ∈ inheritedRows sess.ns W sess.branch table sch.cols.length

inductive DeleteEvent where
  /-- A row of the table may be read. -/
  | reads (table : Bytes) (r : ScanRow)
  /-- A row of the table is removed. -/
  | removes (table : Bytes) (sch : TableSchema) (cells : Data)

/-- What a DELETE comes to: it removes the rows that WHERE targets and, by CASCADE, the rows that match a
removed one; a row that SET NULL rewrites may be read again. -/
inductive Deletes (env : Env) (sess : Session) (W : State) (table : Bytes) (targets : TableSchema → ScanRow → Prop) :
    DeleteEvent → Prop
  | start {name : Bytes} {sch : TableSchema} {r : ScanRow} (hsch : resolvedIn sess.ns W name = some sch)
      (hr : StartRow sess W name sch.cols.length r) : Deletes env sess W table targets (.reads name r)
  | target {sch : TableSchema} {r : ScanRow} (hsch : resolvedIn sess.ns W table = some sch)
      (hr : StartRow sess W table sch.cols.length r) (htarget : targets sch r) :
      Deletes env sess W table targets (.removes table sch r.cells)
  | cascade {p : Bytes} {psch t : TableSchema} {pcells : Data} {fk : FkConstraint} {r : ScanRow}
      (hp : Deletes env sess W table targets (.removes p psch pcells))
      (hr : Deletes env sess W table targets (.reads t.name r)) (hmatch : Matches env sess W p psch pcells t fk r)
      (hact : fk.onDelete = .cascade) : Deletes env sess W table targets (.removes t.name t r.cells)
  | setNull {p name : Bytes} {psch t sch : TableSchema} {pcells : Data} {fk : FkConstraint} {r : ScanRow}
      (hp : Deletes env sess W table targets (.removes p psch pcells))
      (hr : Deletes env sess W table targets (.reads t.name r)) (hmatch : Matches env sess W p psch pcells t fk r)
      (hact : fk.onDelete = .setNull) (hsch : resolvedIn sess.ns W name = some sch)
      (hat : RowAt sess W name (branchRowKey sess t.name t (nullLocals env t r.cells fk) r.key)) :
      Deletes env sess W table targets (.reads name ⟨branchRowKey sess t.name t (nullLocals env t r.cells fk) r.key,
        (nullLocals env t r.cells fk).takeD sch.cols.length none⟩)

/-- DELETE writes no inherited row without a primary key: neither those it targets nor those that its
referential actions remove or rewrite. -/
structure DeleteConfined (env : Env) (sess : Session) (W : State) (table : Bytes)
    (targets : TableSchema → ScanRow → Prop) : Prop where
  rows : ∀ sch r, resolvedIn sess.ns W table = some sch →
    r ∈ inheritedRows sess.ns W sess.branch table sch.cols.length → targets sch r → keyed sch r.cells = true
  actions : ∀ p psch pcells t fk r, Deletes env sess W table targets (.removes p psch pcells) →
    Matches env sess W p psch pcells t fk r → Inherits sess W t.name r →
      (fk.onDelete = .cascade → keyed t r.cells = true) ∧
      (fk.onDelete = .setNull → keyed t (nullLocals env t r.cells fk) = true)

/-- UPDATE writes no inherited row without a primary key: neither those it targets, whose new cells are
given, nor those that its referential actions rewrite. -/
structure UpdateConfined (env : Env) (sess : Session) (W : State) (table : Bytes)
    (targets : TableSchema → ScanRow → Data → Prop) : Prop where
  rows : ∀ sch r cells, resolvedIn sess.ns W table = some sch →
    r ∈ inheritedRows sess.ns W sess.branch table sch.cols.length → targets sch r cells → keyed sch cells = true
  actions : ∀ sch p pcells t fk r cells, resolvedIn sess.ns W table = some sch →
    StartRow sess W table sch.cols.length p → targets sch p pcells →
    Matches env sess W table sch p.cells t fk r → Inherits sess W t.name r →
    updatedChild env t r.cells fk (refTupleFromParent env sch pcells fk) table = .ok cells → keyed t cells = true

section actions
variable {sess : Session} {s : Snap Bytes Val} {buf : Buffer}

variable {targets : TableSchema → ScanRow → Prop}

/-- What a DELETE writes: it is on the branch, and a row may be read again. -/
def DeleteWrite (env : Env) (sess : Session) (W : State) (table : Bytes) (targets : TableSchema → ScanRow → Prop)
    (m : Mutation Bytes Val) : Prop :=
  OnBranch sess m ∧ ∀ k cells, m = assignment k (.row cells) → ∀ name sch, resolvedIn sess.ns W name = some sch →
    RowAt sess W name k → Deletes env sess W table targets (.reads name ⟨k, cells.takeD sch.cols.length none⟩)

theorem indexEntries_deleteWrite {defs : List IndexDef} {rk : Bytes} {add : Bool} :
    (indexEntries env sess sch defs cells rk add).Writes (DeleteWrite env sess W table targets) := by
  refine indexEntries_frame fun d _ pk tuple => ⟨.entry d pk tuple add, fun k cells heq => ?_⟩
  rcases entryMutation_effect sess d pk tuple add with h | h
  · cases h.symm.trans (congrArg Mutation.effect heq)
  · cases h.symm.trans (congrArg Mutation.effect heq)

theorem removeRow_deleteWrite (hbranch : sess.branch ≠ mainBranch) {t : Bytes} {defs : List IndexDef}
    (h : branchData sess.ns sess.branch <+: r.key ∨ keyed sch r.cells = true) :
    (removeRow env sess t sch defs r).Writes (DeleteWrite env sess W table targets) := by
  refine Writes.bind (Writes.write ?_) fun _ => indexEntries_deleteWrite
  rw [removal, if_neg hbranch]
  refine ⟨.row (branchRowKey_onBranch h), fun k cells heq => ?_⟩
  cases congrArg Mutation.effect heq

theorem replaceRow_deleteWrite {t : Bytes} {defs : List IndexDef}
    (h : branchData sess.ns sess.branch <+: r.key ∨ keyed sch cells = true)
    (hreads : ∀ name sch', resolvedIn sess.ns W name = some sch' →
      RowAt sess W name (branchRowKey sess t sch cells r.key) → Deletes env sess W table targets
        (.reads name ⟨branchRowKey sess t sch cells r.key, cells.takeD sch'.cols.length none⟩)) :
    (replaceRow env sess t sch defs r cells).Writes (DeleteWrite env sess W table targets) := by
  refine Writes.bind indexEntries_deleteWrite fun _ => Writes.bind (Writes.write ?_) fun _ => indexEntries_deleteWrite
  refine ⟨.row (branchRowKey_onBranch h), fun k cells' heq => ?_⟩
  obtain ⟨rfl, rfl⟩ : branchRowKey sess t sch cells r.key = k ∧ cells = cells' := by
    simpa [assignment, encodeRow] using heq
  exact hreads

/-- A child row that a referential action of the DELETE meets. -/
theorem Meets.deletes {p : Bytes} {psch t : TableSchema} {pcells : Data} {fk : FkConstraint}
    (h : Meets env sess s (fun buf => ∀ m ∈ buf, DeleteWrite env sess s.map table targets m) p
      (refTupleFromParent env psch pcells) t fk r) :
    Matches env sess s.map p psch pcells t fk r ∧ Deletes env sess s.map table targets (.reads t.name r) ∧
      (branchData sess.ns sess.branch <+: r.key ∨ Inherits sess s.map t.name r) := by
  refine ⟨⟨h.references, h.matched⟩, ?_⟩
  obtain ⟨buf₀, sch, rows, hwrote, hsch, hrows, hr⟩ := h.read
  have hstays : StaysOn sess buf₀ := fun m hm => (hwrote m hm).1
  rcases hstays.read_cases hrows hr with hstart | ⟨hdata, hat, cells, hmem, hcells⟩
  · exact ⟨.start hsch hstart, hstart.own_or_inherited.imp_right fun hinh => ⟨sch, hsch, hinh⟩⟩
  · refine ⟨?_, .inl hdata⟩
    have hread := (hwrote _ hmem).2 r.key cells rfl t.name sch hsch hat
    rwa [← hcells] at hread

theorem DeleteConfined.wp_actions (h : DeleteConfined env sess s.map table targets) (hbranch : sess.branch ≠ mainBranch)
    (fuel : Nat) {p : Bytes} {psch : TableSchema} {pcells : Data}
    (hp : Deletes env sess s.map table targets (.removes p psch pcells))
    (hI : ∀ m ∈ buf, DeleteWrite env sess s.map table targets m) :
    (applyFKDeleteActions env sess fuel p psch pcells).wp underPrefix s
      (fun _ buf' => ∀ m ∈ buf', DeleteWrite env sess s.map table targets m) buf := by
  refine wp_deleteActions (fun buf' hI' => StaysOn.noNewSchemas fun m hm => (hI' m hm).1)
    (P := fun p psch pcells => Deletes env sess s.map table targets (.removes p psch pcells)) ?_ ?_ fuel hp hI
  · intro p psch pcells t fk r hp hmeets hact
    obtain ⟨hmatch, hread, hat⟩ := hmeets.deletes
    refine ⟨.cascade hp hread hmatch hact, fun defs buf' hI' => (removeRow_deleteWrite hbranch ?_).wp_all hI'⟩
    exact hat.imp_right fun hinh => (h.actions p psch pcells t fk r hp hmatch hinh).1 hact
  · intro p psch pcells t fk r hp hmeets hact defs buf' hI'
    obtain ⟨hmatch, hread, hat⟩ := hmeets.deletes
    refine (replaceRow_deleteWrite ?_ fun name sch' hsch' hat' => ?_).wp_all hI'
    · exact hat.imp_right fun hinh => (h.actions p psch pcells t fk r hp hmatch hinh).2 hact
    · exact .setNull hp hread hmatch hact hsch' hat'

theorem UpdateConfined.wp_actions {targets : TableSchema → ScanRow → Data → Prop} {p : ScanRow}
    {newCells : Data} (h : UpdateConfined env sess s.map table targets)
    (hsch : resolvedIn sess.ns s.map table = some sch) (hp : StartRow sess s.map table sch.cols.length p)
    (htarget : targets sch p newCells) (hI : StaysOn sess buf) :
    (applyFKUpdateActions env sess table sch p.cells newCells).wp underPrefix s
      (fun _ buf' => StaysOn sess buf') buf := by
  refine wp_updateActions (fun _ hI' => StaysOn.noNewSchemas hI') ?_ hI
  intro t fk r cells hmeets hcells defs buf' hI'
  refine hI'.wp_writes (replaceRow_onBranch ?_)
  obtain ⟨buf₀, sch', rows, hstays, hsch', hrows, hr⟩ := hmeets.read
  rcases hstays.read_cases hrows hr with hstart | ⟨hdata, -⟩
  · exact hstart.own_or_inherited.imp_right fun hinh => h.actions sch p newCells t fk r cells hsch hp htarget
      ⟨hmeets.references, hmeets.matched⟩ ⟨sch', hsch', hinh⟩ hcells
  · exact .inl hdata

end actions

/-! ## Statements on a branch -/

/-- The statement writes no row that the branch inherits without a primary key. -/
def Confined (env : Env) (db : Db) (c : RowCall) : Prop :=
  match c.stmt with
  | .dml (.insert _) => True
  | .dml (.update s) => UpdateConfined env c.sess db.map s.table fun sch r cells => ∃ n,
      targetsRow env c.sess .update sch s.table s.whereClause c.params r.cells (Site.root n).l = .ok true ∧
      updatedCells env c.sess s sch c.params r.cells (Site.root n).r = .ok cells
  | .dml (.delete s) => DeleteConfined env c.sess db.map s.table fun sch r => ∃ n,
      targetsRow env c.sess .delete sch s.table s.whereClause c.params r.cells (Site.root n) = .ok true
  | .updateFrom s => (materializeAll c.sess s.fromClause).wp underPrefix db (fun fromRows _ =>
      UpdateConfined env c.sess db.map s.table fun sch r cells => ∃ n row,
        updateMatch env c.sess s sch c.params fromRows r.cells (Site.root n).l = .ok (some row) ∧
        updatedFromCells env c.sess s sch c.params row r.cells (Site.root n).r = .ok cells) []
  | .deleteUsing s => (materializeAll c.sess s.usingClause).wp underPrefix db (fun usingRows _ =>
      DeleteConfined env c.sess db.map s.table fun sch r => ∃ n,
        deleteMatch env c.sess s sch c.params usingRows r.cells (Site.root n) = .ok true) []

section statements
variable {sess : Session} {s : Snap Bytes Val} {buf : Buffer}

theorem StaysOn.wp_reads (hI : StaysOn sess buf) {A : Type} {p : Stm A} (hp : p.Writes fun _ => False) :
    p.wp underPrefix s (fun _ buf' => StaysOn sess buf') buf :=
  hI.wp_writes (hp.mono fun _ h => h.elim)

theorem wp_seq {A B : Type} {p : Stm A} {q : A → Stm B}
    (hp : p.wp underPrefix s (fun _ buf' => StaysOn sess buf') buf)
    (hq : ∀ a buf', StaysOn sess buf' → (q a).wp underPrefix s (fun _ buf'' => StaysOn sess buf'') buf') :
    (p >>= q).wp underPrefix s (fun _ buf' => StaysOn sess buf') buf := by
  rw [wp_bind]
  exact wp_mono hp fun a buf' h => hq a buf' h

variable {params : Data} {st : InsertStmt}

theorem storeNewRow_onBranch {key : Bytes} (hkey : branchData sess.ns sess.branch <+: key) :
    (storeNewRow env sess sch st params key cells).Writes (OnBranch sess) :=
  Writes.bind (Writes.bind loadIndexes_writes fun _ => Writes.bind insertUnique_writes fun _ =>
    Writes.bind (Writes.write (.row hkey)) fun _ => indexEntries_onBranch) fun _ => result_writes

theorem handleOnConflict_onBranch {key : Bytes}
    {raw : Val} {oc : OnConflict} (hkey : branchData sess.ns sess.branch <+: key) :
    (handleOnConflict env sess sch st params key cells raw oc).Writes (OnBranch sess) := by
  unfold handleOnConflict
  split
  · split
    · exact Writes.pure _
    · exact Writes.pure _
  · refine Writes.bind ?_ fun _ => result_writes
    exact Writes.bind (Writes.ofExcept _) fun _ => Writes.bind Writes.tick fun _ =>
      Writes.bind (Writes.ofExcept _) fun _ => Writes.bind loadIndexes_writes fun _ =>
        Writes.bind indexEntries_onBranch fun _ => Writes.bind (Writes.write (.row hkey))
          (fun _ => Writes.bind indexEntries_onBranch fun _ => Writes.pure _)

theorem wp_execInsert_branch (hI : StaysOn sess buf) :
    (execInsert env sess st params).wp underPrefix s (fun _ buf' => StaysOn sess buf') buf := by
  unfold execInsert
  rw [wp_bind]
  refine wp_mono wp_insertTarget fun t buf' ht => ?_
  obtain ⟨ms, rfl, hms, -, hkey, -⟩ := ht
  have hI' : StaysOn sess (buf ++ ms) := forall_mem_append.mpr ⟨hI, fun m hm => by
    obtain ⟨name, text, rfl⟩ := hms m hm
    exact .counter name text⟩
  have hkey := (branchData_rowPrefix _ _ _).trans hkey
  unfold insertInto
  split
  · exact hI'.wp_writes (storeNewRow_onBranch hkey)
  · split
    · trivial
    · exact hI'.wp_writes (handleOnConflict_onBranch hkey)

/-! What a targeted row comes to, and the loops. -/

theorem stays_nil (sess : Session) : StaysOn sess [] := fun m hm => absurd hm (by simp)

section update
variable {targets : TableSchema → ScanRow → Data → Prop} (h : UpdateConfined env sess s.map table targets)
include h

theorem UpdateConfined.wp_storeUpdated {defs : List IndexDef} (hsch : resolvedIn sess.ns s.map table = some sch)
    (hr : StartRow sess s.map table sch.cols.length r) (htarget : targets sch r cells) (hI : StaysOn sess buf) :
    (storeUpdated env sess table sch defs params r cells).wp underPrefix s (fun _ buf' => StaysOn sess buf') buf := by
  refine wp_seq (hI.wp_reads enforceFKChild_writes) fun _ buf1 hI => ?_
  refine wp_seq (hI.wp_reads checkPolicies_writes) fun _ buf2 hI => ?_
  refine wp_seq ?_ fun _ buf3 hI => ?_
  · unfold updateParent
    split
    · exact h.wp_actions hsch hr htarget hI
    · exact hI
  · refine wp_seq (hI.wp_reads updateUnique_writes) (fun _ buf4 hI => ?_)
    refine wp_seq (hI.wp_writes (replaceRow_onBranch ?_)) fun _ buf5 hI => hI
    exact hr.own_or_inherited.imp_right fun hinh => h.rows sch r cells hsch hinh htarget

/-- The loop of an UPDATE; each turn decides on a row and stores it with new cells. -/
theorem UpdateConfined.wp_loop {rows : List ScanRow} {f : ScanRow → Stm (Option Data)}
    (defs : List IndexDef) (params : Data) (hsch : resolvedIn sess.ns s.map table = some sch)
    (hrows : scanIn sess.ns s.map sess.branch table sch.cols.length = .ok rows)
    (hf : ∀ r buf', StaysOn sess buf' → (∀ cells, targets sch r cells →
      (storeUpdated env sess table sch defs params r cells).wp underPrefix s (fun _ b => StaysOn sess b) buf') →
      (f r).wp underPrefix s (fun _ b => StaysOn sess b) buf') (hI : StaysOn sess buf) :
    (Prog.collect rows f).wp underPrefix s (fun _ buf' => StaysOn sess buf') buf := by
  refine wp_mono (wp_collect (fun rest buf' => StaysOn sess buf' ∧ ∀ r ∈ rest, r ∈ rows) ?_
    ⟨hI, fun _ hr => hr⟩) fun _ _ h => h.1
  intro r rest buf1 hI1
  have hr := startRow_scanIn hrows (hI1.2 r mem_cons_self)
  refine wp_mono (hf r buf1 hI1.1 fun cells htarget => h.wp_storeUpdated hsch hr htarget hI1.1) fun _ _ hI2 => ⟨hI2, ?_⟩
  exact fun x hx => hI1.2 x (mem_cons_of_mem _ hx)

end update

section delete
variable {targets : TableSchema → ScanRow → Prop} (h : DeleteConfined env sess s.map table targets)
  (hbranch : sess.branch ≠ mainBranch)
include h hbranch

theorem DeleteConfined.wp_deleteTargeted {defs : List IndexDef} (hsch : resolvedIn sess.ns s.map table = some sch)
    (hr : StartRow sess s.map table sch.cols.length r) (htarget : targets sch r)
    (hI : ∀ m ∈ buf, DeleteWrite env sess s.map table targets m) :
    (deleteTargeted env sess table sch defs r).wp underPrefix s
      (fun _ buf' => ∀ m ∈ buf', DeleteWrite env sess s.map table targets m) buf := by
  simp only [deleteTargeted, wp_bind]
  refine wp_mono (h.wp_actions hbranch _ (.target hsch hr htarget) hI) fun _ buf1 hI1 => ?_
  refine (removeRow_deleteWrite hbranch ?_).wp_all hI1
  exact hr.own_or_inherited.imp_right fun hinh => h.rows sch r hsch hinh htarget

/-- The loop of a DELETE; each turn decides on a row. -/
theorem DeleteConfined.wp_loop {rows : List ScanRow} {test : ScanRow → Nat → ExecM Bool}
    {defs : List IndexDef} (hsch : resolvedIn sess.ns s.map table = some sch)
    (hrows : scanIn sess.ns s.map sess.branch table sch.cols.length = .ok rows)
    (htest : ∀ r n, test r n = .ok true → targets sch r) :
    (Prog.collect rows fun r => do
      let n ← Prog.tick
      let targeted ← Prog.ofExcept (test r n)
      if targeted then deleteTargeted env sess table sch defs r else pure none).wp underPrefix s
        (fun _ buf' => StaysOn sess buf') [] := by
  refine wp_mono (wp_collect (fun rest buf' => (∀ m ∈ buf', DeleteWrite env sess s.map table targets m) ∧
    ∀ r ∈ rest, r ∈ rows) ?_ ⟨fun m hm => absurd hm (by simp), fun _ hr => hr⟩) fun _ _ hI m hm => (hI.1 m hm).1
  intro r rest buf1 hI1
  have hr := startRow_scanIn hrows (hI1.2 r mem_cons_self)
  have hrest : ∀ x ∈ rest, x ∈ rows := fun x hx => hI1.2 x (mem_cons_of_mem _ hx)
  refine wp_guarded (fun _ _ => ⟨hI1.1, hrest⟩) fun n htarget => ?_
  exact wp_mono (h.wp_deleteTargeted hbranch hsch hr (htest r n htarget) hI1.1) fun _ _ hI2 => ⟨hI2, hrest⟩

end delete

/-! What each statement writes, when it is confined. -/

theorem Confined.update {st : UpdateStmt} (h : Confined env s ⟨sess, .dml (.update st), params⟩) :
    (execUpdate env sess st params).wp underPrefix s (fun _ buf' => StaysOn sess buf') [] := by
  unfold execUpdate
  rw [wp_bind]
  refine wp_scanTable_branch fun sch rows hsch hrows => ?_
  refine wp_seq ((stays_nil sess).wp_reads loadIndexes_writes) fun defs buf1 hI => ?_
  refine wp_seq (UpdateConfined.wp_loop h defs params hsch hrows (fun r buf2 hI hstore => ?_) hI)
    fun _ _ hI => hI.wp_reads result_writes
  refine wp_guarded (fun _ _ => hI) fun n htargeted => ?_
  rw [wp_bind, wp_ofExcept]
  exact fun cells hcells => hstore cells ⟨n, htargeted, hcells⟩

theorem Confined.delete (hbranch : sess.branch ≠ mainBranch) {st : DeleteStmt}
    (h : Confined env s ⟨sess, .dml (.delete st), params⟩) :
    (execDelete env sess st params).wp underPrefix s (fun _ buf' => StaysOn sess buf') [] := by
  unfold execDelete
  rw [wp_bind]
  refine wp_scanTable_branch fun sch rows hsch hrows => ?_
  rw [wp_bind]
  refine loadIndexes_writes.wp_none fun defs => ?_
  refine wp_seq (DeleteConfined.wp_loop h hbranch hsch hrows fun r n htarget => ⟨n, htarget⟩)
    fun _ _ hI => hI.wp_reads result_writes

theorem Confined.updateFrom {st : UpdateFromStmt} (h : Confined env s ⟨sess, .updateFrom st, params⟩) :
    (execUpdateFrom env sess st params).wp underPrefix s (fun _ buf' => StaysOn sess buf') [] := by
  unfold execUpdateFrom
  rw [wp_bind]
  refine wp_scanTable_branch fun sch rows hsch hrows => ?_
  rw [wp_bind]
  refine loadIndexes_writes.wp_none fun defs => ?_
  rw [wp_bind]
  refine wp_mono (wp_and h ((stays_nil sess).wp_reads materializeAll_writes)) fun fromRows buf1 h => ?_
  obtain ⟨h, hI⟩ := h
  refine wp_seq (h.wp_loop defs params hsch hrows (fun r buf2 hI hstore => ?_) hI) fun _ _ hI => hI.wp_reads result_writes
  unfold updateFromRow
  rw [wp_bind, wp_tick]
  intro n
  rw [wp_bind, wp_ofExcept]
  intro found hfound
  cases found with
  | none => exact hI
  | some row =>
    dsimp only
    rw [wp_bind, wp_ofExcept]
    exact fun cells hcells => hstore cells ⟨n, row, hfound, hcells⟩

theorem Confined.deleteUsing (hbranch : sess.branch ≠ mainBranch) {st : DeleteUsingStmt}
    (h : Confined env s ⟨sess, .deleteUsing st, params⟩) :
    (execDeleteUsing env sess st params).wp underPrefix s (fun _ buf' => StaysOn sess buf') [] := by
  unfold execDeleteUsing
  rw [wp_bind]
  refine wp_scanTable_branch fun sch rows hsch hrows => ?_
  rw [wp_bind]
  refine loadIndexes_writes.wp_none fun defs => ?_
  rw [wp_bind]
  refine wp_mono (wp_and h (materializeAll_writes.wp_none (Q := fun _ buf => buf = []) fun _ => rfl)) fun usingRows buf1 h => ?_
  obtain ⟨h, rfl⟩ := h
  exact wp_seq (h.wp_loop hbranch hsch hrows fun r n htarget => ⟨n, htarget⟩)
    fun _ _ hI => hI.wp_reads result_writes

end statements

theorem Confined.wp {db : Db} {c : RowCall} (h : Confined env db c) (hbranch : c.sess.branch ≠ mainBranch) :
    (c.run env).wp underPrefix db (fun _ buf => StaysOn c.sess buf) [] := by
  obtain ⟨sess, stmt, params⟩ := c
  cases stmt with
  | dml st =>
    cases st with
    | insert st => exact wp_execInsert_branch (stays_nil sess)
    | update st => exact h.update
    | delete st => exact h.delete hbranch
  | updateFrom st => exact h.updateFrom
  | deleteUsing st => exact h.deleteUsing hbranch

end BasuyuDb.Branch
