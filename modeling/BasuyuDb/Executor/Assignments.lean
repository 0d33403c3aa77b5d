import BasuyuDb.Executor.AdvancedDml
import BasuyuDb.Executor.Execute

/-
  engine/internal/executor/dml.go, advanced_dml.go, upsert.go: the SET lists of UPDATE, UPDATE ... FROM
  and ON CONFLICT DO UPDATE. The evaluator's resolver reads the slice that the loop writes, so that each
  right-hand side sees the assignments before it: SET a = b, b = a leaves both columns with the old b.
  `applySets_simultaneous_iff` says when the loop computes what simultaneous assignments would.
-/

namespace BasuyuDb.Executor
open KvLib Storage List

variable (env : Env)

section spec
variable (sch : TableSchema) (scope : Data → Scope) (old : Data)

/-- Each assigned column has in `cells` the value that its right-hand side has on the row `old`. -/
def Simultaneous : Site → List (Bytes × Expr) → Data → Prop
  | _, [], _ => True
  | site, (col, e) :: sets, cells =>
    (∃ i v, sch.colIndex env col = some i ∧ e.eval env (scope old) site.l = .ok v ∧ cellAt cells i = v.cell) ∧
      Simultaneous site.r sets cells

/-- Each right-hand side has on `row`, which is `old` with the values for the columns assigned before,
the value it has on `old`. -/
def Undisturbed : Site → List (Bytes × Expr) → Data → Prop
  | _, [], _ => True
  | site, (col, e) :: sets, row =>
    ∃ i v, sch.colIndex env col = some i ∧ e.eval env (scope old) site.l = .ok v ∧
      (e.eval env (scope row) site.l).map Value.cell = .ok v.cell ∧
      Undisturbed site.r sets (row.set i v.cell)

end spec

/-- The assigned columns are distinct columns. -/
def DistinctTargets (sch : TableSchema) (sets : List (Bytes × Expr)) : Prop :=
  (sets.map fun a => sch.colIndex env a.1).Nodup

instance (sch : TableSchema) (sets : List (Bytes × Expr)) : Decidable (DistinctTargets env sch sets) :=
  inferInstanceAs (Decidable (sets.map fun a => sch.colIndex env a.1).Nodup)

/-- No assigned column is GENERATED; such a column is computed again after the assignments. -/
def NoGeneratedTarget (sch : TableSchema) (sets : List (Bytes × Expr)) : Prop :=
  ∀ a ∈ sets, ∀ i, sch.colIndex env a.1 = some i → ∀ c, (c, i) ∈ sch.cols.zipIdx → c.generated = false

section loops
variable {env} {sch : TableSchema} {scope : Data → Scope} {old row cells : Data} {site : Site}
  {sets : List (Bytes × Expr)}

theorem applySets_cons {col : Bytes} {e : Expr} (h : applySets env sch scope site ((col, e) :: sets) row = .ok cells) :
    ∃ i u, sch.colIndex env col = some i ∧ e.eval env (scope row) site.l = .ok u ∧
      applySets env sch scope site.r sets (row.set i u.cell) = .ok cells := by
  unfold applySets at h
  cases hi : sch.colIndex env col with
  | none =>
    simp only [hi] at h
    cases h
  | some i =>
    simp only [hi] at h
    cases hu : e.eval env (scope row) site.l with
    | error er =>
      rw [hu] at h
      cases h
    | ok u =>
      rw [hu] at h
      exact ⟨i, u, rfl, rfl, h⟩

/-- The loop computes the simultaneous assignments exactly when no right-hand side notices the ones
before it. -/
theorem applySets_simultaneous_iff (hwidth : row.length = sch.cols.length) (hdistinct : DistinctTargets env sch sets)
    (h : applySets env sch scope site sets row = .ok cells) :
    Simultaneous env sch scope old site sets cells ↔ Undisturbed env sch scope old site sets row := by
  induction sets generalizing site row with
  | nil => exact Iff.rfl
  | cons a sets ih =>
    obtain ⟨col, e⟩ := a
    obtain ⟨i, u, hi, hu, hrest⟩ := applySets_cons h
    obtain ⟨hfresh, hdistinct'⟩ := nodup_cons.mp hdistinct
    -- the assignments that follow are to other columns
    have hcell : cellAt cells i = u.cell := by
      have hkeep : ∀ a ∈ sets, sch.colIndex env a.1 ≠ some i :=
        fun a ha heq => hfresh (mem_map.mpr ⟨a, ha, heq.trans hi.symm⟩)
      rw [applySets_frame hrest hkeep]
      exact cellAt_set_self (hwidth ▸ TableSchema.colIndex_lt env hi) _
    have hih : ∀ v : Value, u.cell = v.cell → (Simultaneous env sch scope old site.r sets cells ↔
        Undisturbed env sch scope old site.r sets (row.set i v.cell)) :=
      fun v heq => ih (by rw [length_set, hwidth]) hdistinct' (heq ▸ hrest)
    have hmap : (e.eval env (scope row) site.l).map Value.cell = .ok u.cell := by rw [hu]; rfl
    constructor
    · rintro ⟨⟨i', v, hi', hv, hval⟩, hsim⟩
      obtain rfl : i = i' := Option.some.inj (hi.symm.trans hi')
      have heq : u.cell = v.cell := hcell.symm.trans hval
      exact ⟨i, v, hi, hv, heq ▸ hmap, (hih v heq).mp hsim⟩
    · rintro ⟨i', v, hi', hv, hsame, hund⟩
      obtain rfl : i = i' := Option.some.inj (hi.symm.trans hi')
      have heq : u.cell = v.cell := Except.ok.inj (hmap.symm.trans hsame)
      exact ⟨⟨i, v, hi, hv, hcell.trans heq⟩, (hih v heq).mpr hund⟩

theorem simultaneous_congr {cells' : Data}
    (h : ∀ a ∈ sets, ∀ i, sch.colIndex env a.1 = some i → cellAt cells' i = cellAt cells i) :
    Simultaneous env sch scope old site sets cells' ↔ Simultaneous env sch scope old site sets cells := by
  induction sets generalizing site with
  | nil => exact Iff.rfl
  | cons a sets ih =>
    obtain ⟨col, e⟩ := a
    have hrest : Simultaneous env sch scope old site.r sets cells' ↔ Simultaneous env sch scope old site.r sets cells :=
      ih fun a ha => h a (mem_cons_of_mem _ ha)
    have hhead : (∃ i v, sch.colIndex env col = some i ∧ e.eval env (scope old) site.l = .ok v ∧ cellAt cells' i = v.cell) ↔
        ∃ i v, sch.colIndex env col = some i ∧ e.eval env (scope old) site.l = .ok v ∧ cellAt cells i = v.cell :=
      exists_congr fun i => exists_congr fun v => and_congr_right fun hi => by rw [h _ mem_cons_self i hi]
    exact and_congr hhead hrest

theorem finished_simultaneous_iff {table : Bytes} {params new : Data} {site' : Site} (hwidth : old.length = sch.cols.length)
    (hdistinct : DistinctTargets env sch sets) (hgen : NoGeneratedTarget env sch sets)
    (h : (do finishRow env sch table params (← applySets env sch scope site sets old) site') = .ok new) :
    Simultaneous env sch scope old site sets new ↔ Undisturbed env sch scope old site sets old := by
  cases hsets : applySets env sch scope site sets old with
  | error e =>
    rw [hsets] at h
    cases h
  | ok cells =>
    rw [hsets] at h
    rw [← applySets_simultaneous_iff hwidth hdistinct hsets]
    exact simultaneous_congr fun a ha i hi => (finishRow_ok h).1 (hgen a ha i hi)

end loops

/-- SET lists. The new rows that UPDATE, UPDATE ... FROM and ON CONFLICT DO UPDATE compute have in every
assigned column the value of its right-hand side on the old row, if and only if no right-hand side
changes its value when the columns assigned before it are given theirs. -/
theorem set_lists_iff :
    (∀ sess (s : UpdateStmt) sch params old site new, old.length = sch.cols.length → DistinctTargets env sch s.sets →
      NoGeneratedTarget env sch s.sets → updatedCells env sess s sch params old site = .ok new →
      (Simultaneous env sch (rlsScope env sch s.table sess params) old site.l s.sets new ↔
        Undisturbed env sch (rlsScope env sch s.table sess params) old site.l s.sets old)) ∧
    (∀ sess (s : UpdateFromStmt) sch params row old site new, old.length = sch.cols.length → DistinctTargets env sch s.sets →
      NoGeneratedTarget env sch s.sets → updatedFromCells env sess s sch params row old site = .ok new →
      (Simultaneous env sch (fun cells => rowsScope env sess params (⟨s.table, sch, cells⟩ :: row)) old site.l s.sets new ↔
        Undisturbed env sch (fun cells => rowsScope env sess params (⟨s.table, sch, cells⟩ :: row)) old site.l s.sets old)) ∧
    (∀ sch params proposed old site sets new, old.length = sch.cols.length → DistinctTargets env sch sets →
      applySets env sch (fun cells => ⟨params, conflictResolver env sch proposed cells, none⟩) site sets old = .ok new →
      (Simultaneous env sch (fun cells => ⟨params, conflictResolver env sch proposed cells, none⟩) old site sets new ↔
        Undisturbed env sch (fun cells => ⟨params, conflictResolver env sch proposed cells, none⟩) old site sets old)) := by
  refine ⟨?_, ?_, ?_⟩
  · intro sess s sch params old site new hwidth hdistinct hgen h
    exact finished_simultaneous_iff hwidth hdistinct hgen h
  · intro sess s sch params row old site new hwidth hdistinct hgen h
    exact finished_simultaneous_iff hwidth hdistinct hgen h
  · intro sch params proposed old site sets new hwidth hdistinct h
    exact applySets_simultaneous_iff hwidth hdistinct h

/-! The table h(a, b) and its row (x, y). -/

def swapUpdate : UpdateStmt := ⟨str "h", [(str "a", .column [str "b"]), (str "b", .column [str "a"])], none, .none⟩

/-- SET b = a, a = `e`. -/
def shiftSets (e : Expr) : List (Bytes × Expr) := [(str "b", .column [str "h", str "a"]), (str "a", e)]

def oldPair : Data := [some (str "x"), some (str "y")]

def shiftUpdate : UpdateStmt := ⟨str "h", shiftSets (.const (.string (str "z"))), none, .none⟩

def shiftFrom : UpdateFromStmt := ⟨⟨str "h", shiftSets (.column [str "s", str "a"]), none, .none⟩, []⟩

/-- The row (p, q) of another table with the columns of h. -/
def sourceRow : Binding := ⟨str "s", heapSchema, [some (str "p"), some (str "q")]⟩

/-- SET b = a, a = .. gives the new b the old a: with a constant, a column of a FROM row and a column of the
proposed row. -/
theorem set_lists_shift :
    Simultaneous demoEnv heapSchema (rlsScope demoEnv heapSchema (str "h") (demoSession "main") []) oldPair (Site.root 0).l
      shiftUpdate.sets [some (str "z"), some (str "x")] ∧
    Simultaneous demoEnv heapSchema
      (fun cells => rowsScope demoEnv (demoSession "main") [] [⟨str "h", heapSchema, cells⟩, sourceRow]) oldPair (Site.root 0).l
      shiftFrom.sets [some (str "p"), some (str "x")] ∧
    Simultaneous demoEnv heapSchema (fun cells => ⟨[], conflictResolver demoEnv heapSchema sourceRow.cells cells, none⟩) oldPair
      (Site.root 0) (shiftSets (.column [str "excluded", str "a"])) [some (str "p"), some (str "x")] := by
  have hgen : ∀ sets, NoGeneratedTarget demoEnv heapSchema sets := by
    intro sets a _ i _ c hc
    have hall : ∀ x ∈ heapSchema.cols.zipIdx, x.1.generated = false := by decide
    exact hall (c, i) hc
  have hset := set_lists_iff demoEnv
  refine ⟨?_, ?_, ?_⟩
  · refine (hset.1 (demoSession "main") shiftUpdate heapSchema [] oldPair (Site.root 0) _ (by decide) (by decide) (hgen _)
      (by rfl)).mpr ?_
    exact ⟨1, ⟨some (str "x"), OIDText⟩, by decide, by rfl, by rfl, 0, ⟨some (str "z"), OIDText⟩, by decide, by rfl, by rfl, trivial⟩
  · refine (hset.2.1 (demoSession "main") shiftFrom heapSchema [] [sourceRow] oldPair (Site.root 0) _ (by decide) (by decide)
      (hgen _) (by rfl)).mpr ?_
    exact ⟨1, ⟨some (str "x"), OIDText⟩, by decide, by rfl, by rfl, 0, ⟨some (str "p"), OIDText⟩, by decide, by rfl, by rfl, trivial⟩
  · refine (hset.2.2 heapSchema [] sourceRow.cells oldPair (Site.root 0) _ _ (by decide) (by decide) (by rfl)).mpr ?_
    exact ⟨1, ⟨some (str "x"), OIDText⟩, by decide, by rfl, by rfl, 0, ⟨some (str "p"), OIDText⟩, by decide, by rfl, by rfl, trivial⟩

/-- SET a = b, b = a: both columns end with the old b, though the value of a on the old row is x. -/
theorem swap_keeps_one_value : DistinctTargets demoEnv heapSchema swapUpdate.sets ∧
    updatedCells demoEnv (demoSession "main") swapUpdate heapSchema [] oldPair (Site.root 0) = .ok [some (str "y"), some (str "y")] ∧
    ¬ Simultaneous demoEnv heapSchema (rlsScope demoEnv heapSchema (str "h") (demoSession "main") []) oldPair
      (Site.root 0).l swapUpdate.sets [some (str "y"), some (str "y")] := by
  refine ⟨by decide, by rfl, ?_⟩
  rintro ⟨-, ⟨i, v, hi, hv, hcell⟩, -⟩
  obtain rfl : 1 = i := Option.some.inj hi
  obtain rfl : (⟨some (str "x"), OIDText⟩ : Value) = v := Except.ok.inj hv
  cases hcell

end BasuyuDb.Executor
