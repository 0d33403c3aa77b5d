import BasuyuDb.Executor.Execute

/-
  engine/internal/executor/deferred.go: the deferral mode of an explicit transaction, the foreign key checks it
  put off, and SET CONSTRAINTS. A run of the pending checks that finds a violation keeps the checks it skipped
  and the failing one; what comes after the failing one is lost (`pending_kept_iff`).
-/

namespace BasuyuDb.Executor
open KvLib Storage List

/-! ## Modes -/

/-- FKName, FKDeferrable and FKInitiallyDeferred of a column of the catalog. -/
structure FkTraits where
  name : Bytes
  deferrable : Bool
  initiallyDeferred : Bool

/-- A foreign key with its name and deferral. -/
structure NamedKey where
  fk : FkConstraint
  name : Bytes
  deferrable : Bool
  initiallyDeferred : Bool

/-- `childForeignKeys` with all fields: a key without a name is called after its anchor. The traits are given
by table and column. -/
def namedKeys (traits : Bytes → Bytes → FkTraits) (sch : TableSchema) : List NamedKey :=
  sch.cols.filterMap fun c => c.foreignKey.map fun fk => let t := traits sch.name c.name
    ⟨fk, if t.name = [] then sch.name ++ str "_" ++ c.name ++ str "_fkey" else t.name, t.deferrable,
      t.initiallyDeferred⟩

inductive PendingFKCheck where
  | child (constraint childTable parentTab : Bytes) (refCols vals : List Bytes)
  | parentRestrict (constraint parentTab childTabFilter : Bytes) (vals : List Bytes)
deriving DecidableEq

def PendingFKCheck.constraint : PendingFKCheck → Bytes
  | .child c _ _ _ _ => c
  | .parentRestrict c _ _ _ => c

/-- `deferredState`: the overrides by name, the newest first, the mode of SET CONSTRAINTS ALL, and the queue. -/
structure DeferredState where
  overrides : List (Bytes × Bool)
  allMode : Option Bool
  pending : List PendingFKCheck

def DeferredState.new : DeferredState := ⟨[], none, []⟩

/-- The queue of a transaction. -/
def queueOf (st : Option DeferredState) : List PendingFKCheck := (st.map DeferredState.pending).getD []

def isDeferred (st : Option DeferredState) (name : Bytes) (initiallyDeferred : Bool) : Bool :=
  match st with
  | none => initiallyDeferred
  | some st =>
    match st.overrides.lookup name with
    | some v => v
    | none => st.allMode.getD initiallyDeferred

def DeferredState.setMode (st : DeferredState) (all : Bool) (names : List Bytes) (deferred : Bool) : DeferredState :=
  if all then { st with overrides := [], allMode := some deferred }
  else { st with overrides := names.foldl (fun o n => (n, deferred) :: o) st.overrides }

theorem lookup_overrides (names : List Bytes) (deferred : Bool) (o : List (Bytes × Bool)) (n : Bytes) :
    (names.foldl (fun o n => (n, deferred) :: o) o).lookup n = if n ∈ names then some deferred else o.lookup n := by
  induction names generalizing o with
  | nil => simp
  | cons m names ih =>
    rw [foldl_cons, ih]
    by_cases hn : n ∈ names
    · rw [if_pos hn, if_pos (mem_cons_of_mem m hn)]
    · by_cases hm : n = m
      · subst hm
        simp [hn, List.lookup]
      · have hb : (n == m) = false := by simp [hm]
        simp [hn, hm, List.lookup, hb]

/-- The constraints that a SET CONSTRAINTS speaks of. -/
def Names (all : Bool) (names : List Bytes) (n : Bytes) : Prop := all = true ∨ n ∈ names

theorem isDeferred_setMode (st : DeferredState) {all : Bool} {names : List Bytes} {deferred : Bool} {n : Bytes}
    (h : Names all names n) (init : Bool) : isDeferred (some (st.setMode all names deferred)) n init = deferred := by
  unfold isDeferred DeferredState.setMode
  cases all with
  | true => rfl
  | false =>
    have hn : n ∈ names := h.resolve_left (by decide)
    simp only [Bool.false_eq_true, if_false, lookup_overrides, if_pos hn]

/-! ## Pending checks -/

section checks
variable (env : Env) (traits : Bytes → Bytes → FkTraits)

def deferredParentOrphanExists (sess : Session) (constraint parentTab childTab : Bytes) (vals : List Bytes) :
    Stm Bool := do
  let csch ← loadSchema sess childTab
  -- the key is looked up by its name; when it was dropped there is nothing to enforce
  match (namedKeys traits csch).find? (fun k => k.name = constraint) with
  | none => pure false
  | some k => do
    let sc ← scanTable sess childTab
    if sc.2.any (fun r => childTupleMatches env csch r.cells k.fk vals) then do
      let ok ← parentTupleExists env sess parentTab (k.fk.pairs.map FkColPair.refCol) vals
      pure (!ok)
    else pure false

def runOnePending (sess : Session) : PendingFKCheck → Stm Unit
  | .child constraint childTable parentTab refCols vals => do
    let ok ← parentTupleExists env sess parentTab refCols vals
    if ok then pure ()
    else .throw ⟨"23503",
      "insert or update on table %q violates foreign key constraint %q: key is not present in table %q",
      [childTable, constraint, parentTab]⟩
  | .parentRestrict constraint parentTab childTab vals => do
    let orphan ← deferredParentOrphanExists env traits sess constraint parentTab childTab vals
    if orphan then .throw ⟨"23503", "update or delete on table %q violates foreign key constraint %q on table %q",
      [parentTab, constraint, childTab]⟩
    else pure ()

/-- A pending check in a transaction with the snapshot and the buffer. -/
def checkNow (sess : Session) (s : Snap Bytes Val) (buf : Buffer) (p : PendingFKCheck) :
    ExecM Unit :=
  ((runOnePending env traits sess p).exec underPrefix s buf 0).map Prod.fst

/-- The checks that a run with the filter looks at. -/
def Selected (names : Option (List Bytes)) (p : PendingFKCheck) : Prop := ∀ ns ∈ names, p.constraint ∈ ns

instance (names : Option (List Bytes)) : DecidablePred (Selected names) := fun p =>
  match names with
  | none => .isTrue fun ns h => nomatch h
  | some ns => decidable_of_iff (p.constraint ∈ ns) (by simp [Selected])

/-- The loop of `runPendingChecks`. -/
def pendingLoop (check : PendingFKCheck → ExecM Unit) (names : Option (List Bytes)) :
    List PendingFKCheck → List PendingFKCheck → ExecM Unit × List PendingFKCheck
  | remaining, [] => (.ok (), if names = none then [] else remaining)
  | remaining, p :: ps =>
    if Selected names p then
      match check p with
      | .error e => (.error e, remaining ++ [p])
      | .ok () => pendingLoop check names remaining ps
    else pendingLoop check names (remaining ++ [p]) ps

/-- `runPendingChecks`: its error, and the queue it leaves. -/
def runPendingChecks (sess : Session) (s : Snap Bytes Val) (buf : Buffer)
    (names : Option (List Bytes)) (pending : List PendingFKCheck) : ExecM Unit × List PendingFKCheck :=
  pendingLoop (checkNow env traits sess s buf) names [] pending

/-- `SetConstraints` in an explicit transaction. -/
def setConstraints (sess : Session) (s : Snap Bytes Val) (buf : Buffer) (st : DeferredState)
    (all : Bool) (names : List Bytes) (deferred : Bool) : ExecM Unit × DeferredState :=
  let st := st.setMode all names deferred
  if deferred then (.ok (), st)
  else
    let ran := runPendingChecks env traits sess s buf (if all then none else some names) st.pending
    (ran.1, { st with pending := ran.2 })

variable {env traits} {sess : Session} {s : Snap Bytes Val} {buf : Buffer} {st : DeferredState}
  {all deferred : Bool} {names : List Bytes}

theorem setConstraints_mode {n : Bytes} (h : Names all names n) (init : Bool) :
    isDeferred (some (setConstraints env traits sess s buf st all names deferred).2) n init = deferred := by
  have hmode : isDeferred (some (st.setMode all names deferred)) n init = deferred := isDeferred_setMode st h init
  unfold setConstraints
  dsimp only
  split
  · exact hmode
  · exact hmode

theorem setConstraints_immediate : setConstraints env traits sess s buf st all names false =
    ((runPendingChecks env traits sess s buf (if all then none else some names) st.pending).1,
      { st.setMode all names false with
        pending := (runPendingChecks env traits sess s buf (if all then none else some names) st.pending).2 }) := by
  have hpending : (st.setMode all names false).pending = st.pending := by
    unfold DeferredState.setMode
    split
    · rfl
    · rfl
  unfold setConstraints
  dsimp only
  rw [hpending, if_neg Bool.false_ne_true]

end checks

/-! ## What a failed run keeps -/

section kept
variable {check : PendingFKCheck → ExecM Unit} {names : Option (List Bytes)}
  {remaining ps : List PendingFKCheck}

theorem pendingLoop_error {rest : List PendingFKCheck} {e : ExecError}
    (h : pendingLoop check names remaining ps = (.error e, rest)) :
    ∃ before p after, ps = before ++ p :: after ∧ Selected names p ∧ check p = .error e ∧
      (∀ q ∈ before, Selected names q → check q = .ok ()) ∧
      rest = remaining ++ before.filter (fun q => ¬Selected names q) ++ [p] := by
  induction ps generalizing remaining with
  | nil => cases (Prod.mk.inj h).1
  | cons q ps ih =>
    unfold pendingLoop at h
    split at h
    · rename_i hsel
      split at h
      · rename_i e' hcheck
        obtain ⟨he, hrest⟩ := Prod.mk.inj h
        obtain rfl := Except.error.inj he
        exact ⟨[], q, ps, rfl, hsel, hcheck, by simp, by simp [← hrest]⟩
      · rename_i hcheck
        obtain ⟨before, p, after, rfl, hp, hfail, hpass, hrest⟩ := ih h
        refine ⟨q :: before, p, after, rfl, hp, hfail, ?_, ?_⟩
        · exact forall_mem_cons.mpr ⟨fun _ => hcheck, hpass⟩
        · rw [hrest, filter_cons_of_neg (by simpa using hsel)]
    · rename_i hsel
      obtain ⟨before, p, after, rfl, hp, hfail, hpass, hrest⟩ := ih h
      refine ⟨q :: before, p, after, rfl, hp, hfail, ?_, ?_⟩
      · exact forall_mem_cons.mpr ⟨fun hq => absurd hq hsel, hpass⟩
      · rw [hrest, filter_cons_of_pos (by simpa using hsel), append_assoc remaining, singleton_append]

theorem pendingLoop_ok {rest : List PendingFKCheck} (hrem : names = none → remaining = [])
    (h : pendingLoop check names remaining ps = (.ok (), rest)) :
    rest = remaining ++ ps.filter (fun q => ¬Selected names q) := by
  induction ps generalizing remaining with
  | nil =>
    rw [← (Prod.mk.inj h).2, filter_nil, append_nil]
    split
    · rename_i hnone
      exact (hrem hnone).symm
    · rfl
  | cons q ps ih =>
    unfold pendingLoop at h
    split at h
    · rename_i hsel
      split at h
      · cases (Prod.mk.inj h).1
      · rw [ih hrem h, filter_cons_of_neg (by simpa using hsel)]
    · rename_i hsel
      have hrem' : names = none → remaining ++ [q] = [] := by
        rintro rfl
        exact absurd (fun ns h => nomatch h) hsel
      rw [ih hrem' h, filter_cons_of_pos (by simpa using hsel), append_assoc, singleton_append]

theorem pendingLoop_skips (h : ∀ q ∈ ps, ¬Selected names q) : (pendingLoop check names remaining ps).1 = .ok () := by
  induction ps generalizing remaining with
  | nil => rfl
  | cons q ps ih =>
    obtain ⟨hq, hps⟩ := forall_mem_cons.mp h
    unfold pendingLoop
    rw [if_neg hq]
    exact ih hps

theorem pendingLoop_fails {p : PendingFKCheck} (hp : p ∈ ps) {e : ExecError}
    (hfail : check p = .error e) : ∃ e' rest, pendingLoop check none remaining ps = (.error e', rest) := by
  induction ps generalizing remaining with
  | nil => cases hp
  | cons q ps ih =>
    have hsel : Selected none q := fun ns h => nomatch h
    unfold pendingLoop
    rw [if_pos hsel]
    cases hq : check q with
    | error e' => exact ⟨e', _, rfl⟩
    | ok _ =>
      rcases mem_cons.mp hp with rfl | hp
      · cases hq.symm.trans hfail
      · exact ih hp

end kept

/-- A run that fails keeps the failing check and every check it has not run exactly when all that comes after
    the failing one is kept anyway; the failing one is always kept, so a later full run fails again. -/
theorem pending_kept_iff (env : Env) (traits : Bytes → Bytes → FkTraits) (sess : Session) (s : Snap Bytes Val)
    (buf : Buffer) (names : Option (List Bytes)) (pending rest : List PendingFKCheck)
    (e : ExecError) (h : runPendingChecks env traits sess s buf names pending = (.error e, rest)) :
    ∃ before p after, pending = before ++ p :: after ∧ Selected names p ∧
      checkNow env traits sess s buf p = .error e ∧
      (∀ q ∈ before, Selected names q → checkNow env traits sess s buf q = .ok ()) ∧
      ((p ∈ rest ∧ (∀ q ∈ before, ¬Selected names q → q ∈ rest) ∧ ∀ q ∈ after, q ∈ rest) ↔
        ∀ q ∈ after, q = p ∨ q ∈ before ∧ ¬Selected names q) ∧
      ∃ e' rest', runPendingChecks env traits sess s buf none rest = (.error e', rest') := by
  obtain ⟨before, p, after, hsplit, hp, hfail, hpass, rfl⟩ := pendingLoop_error h
  have hmem : ∀ q, q ∈ [] ++ before.filter (fun q => ¬Selected names q) ++ [p] ↔
      q = p ∨ q ∈ before ∧ ¬Selected names q := by
    intro q
    simp [or_comm]
  refine ⟨before, p, after, hsplit, hp, hfail, hpass, ?_, pendingLoop_fails ((hmem p).mpr (.inl rfl)) hfail⟩
  simp only [hmem]
  refine ⟨fun hkept => hkept.2.2, fun hafter => ⟨.inl trivial, fun q hq hsel => .inr ⟨hq, hsel⟩, hafter⟩⟩

/-- The foreign key of c (k) on t. -/
def demoTraits (_ _ : Bytes) : FkTraits := ⟨str "k", true, true⟩

def keyCheck (id : String) : PendingFKCheck := .child (str "k") (str "c") (str "t") [str "id"] [str id]

/-- A check of another key of c. -/
def otherCheck : PendingFKCheck := .child (str "j") (str "c") (str "t") [str "id"] [str "3"]

def demoChecks (db : Db) (names : Option (List Bytes)) (pending : List PendingFKCheck) :
    ExecM Unit × List PendingFKCheck :=
  runPendingChecks demoEnv demoTraits (demoSession "main") ⟨db.map, 0⟩ [] names pending

/-- What a run of the checks answers on a database, and what it leaves. -/
def ranOn (db : Db) (names : Option (List Bytes)) (pending : List PendingFKCheck) : Option String × List PendingFKCheck :=
  let ran := demoChecks db names pending
  (match ran.1 with | .error e => some e.sqlstate | .ok () => none, ran.2)

theorem ranOn_error {db : Db} {names : Option (List Bytes)} {pending rest : List PendingFKCheck} {code : String}
    (h : ranOn db names pending = (some code, rest)) : ∃ e, demoChecks db names pending = (.error e, rest) := by
  unfold ranOn at h
  obtain ⟨hcode, hrest⟩ := Prod.mk.inj h
  split at hcode
  · rename_i e he
    exact ⟨e, Prod.ext he hrest⟩
  · cases hcode

/-- SET CONSTRAINTS k IMMEDIATE passes over the check of another key, then one check of k holds and the next fails: it
is kept, and so is the other key's, which stands before and after it. -/
theorem filtered_check_kept : ∃ db, Reach (Db.step demoEnv) (fun _ _ => True) Db.empty db ∧
    ∃ e rest, demoChecks db (some [str "k"]) [otherCheck, keyCheck "1", keyCheck "2", otherCheck] = (.error e, rest) ∧
      (keyCheck "2" ∈ rest ∧ otherCheck ∈ rest) ∧ ∃ e' rest', demoChecks db none rest = (.error e', rest') := by
  obtain ⟨db, hreach, hout⟩ := exists_demo [createDemo, insertDemo "main" "1" "x"]
    (fun db : Db => (decide (ranOn db (some [str "k"]) [otherCheck, keyCheck "1", keyCheck "2", otherCheck] =
      (some "23503", [otherCheck, keyCheck "2"])) && decide (ranOn db none [keyCheck "1"] = (none, []))) = true)
    (by decide +kernel)
  simp only [Bool.and_eq_true, decide_eq_true_eq] at hout
  obtain ⟨e, hran⟩ := ranOn_error hout.1
  obtain ⟨before, p, after, hsplit, hp, hfail, -, hiff, hagain⟩ := pending_kept_iff demoEnv demoTraits (demoSession "main")
    ⟨db.map, 0⟩ [] (some [str "k"]) _ _ e hran
  refine ⟨db, hreach, e, _, hran, ?_, hagain⟩
  have hother : ¬Selected (some [str "k"]) otherCheck := by decide
  -- the check that fails is the third of the queue
  rcases before with - | ⟨b₁, - | ⟨b₂, - | ⟨b₃, - | ⟨b₄, before⟩⟩⟩⟩ <;>
    simp only [cons_append, nil_append, cons.injEq] at hsplit
  · exact absurd (hsplit.1 ▸ hp) hother
  · obtain ⟨e', rest', hone⟩ : ∃ e' rest', demoChecks db none [keyCheck "1"] = (.error e', rest') :=
      pendingLoop_fails mem_cons_self (hsplit.2.1 ▸ hfail)
    have hholds := hout.2
    rw [ranOn, hone] at hholds
    cases hholds
  · obtain ⟨rfl, rfl, rfl, rfl⟩ := hsplit
    obtain ⟨hkept, hskipped, -⟩ := hiff.mpr (by simp [hother])
    exact ⟨hkept, hskipped otherCheck mem_cons_self hother⟩
  · exact absurd (hsplit.2.2.2.1 ▸ hp) hother
  · exact absurd hsplit.2.2.2.2 (by simp)

/-- Both checks fail: the second is lost, and once the first holds the queue passes. -/
theorem second_check_lost : ∃ db db', Reach (Db.step demoEnv) (fun _ _ => True) Db.empty db ∧
    Db.step demoEnv db (insertDemo "main" "1" "x", 0) = some db' ∧
    ranOn db none [keyCheck "1", keyCheck "2"] = (some "23503", [keyCheck "1"]) ∧
    ranOn db' none [keyCheck "1"] = (none, []) ∧ (ranOn db' none [keyCheck "2"]).1 = some "23503" := by
  obtain ⟨db, hreach, hout⟩ := exists_demo [createDemo]
    (fun db : Db => (decide (ranOn db none [keyCheck "1", keyCheck "2"] = (some "23503", [keyCheck "1"])) &&
      decide ((Db.step demoEnv db (insertDemo "main" "1" "x", 0)).map (fun db' =>
        (ranOn db' none [keyCheck "1"], (ranOn db' none [keyCheck "2"]).1)) = some ((none, []), some "23503"))) = true)
    (by decide +kernel)
  simp only [Bool.and_eq_true, decide_eq_true_eq] at hout
  obtain ⟨hfirst, hlater⟩ := hout
  obtain ⟨db', hstep, hran⟩ := Option.map_eq_some_iff.mp hlater
  obtain ⟨hpass, hlost⟩ := Prod.mk.inj hran
  exact ⟨db, db', hreach, hstep, hfirst, hpass, hlost⟩

end BasuyuDb.Executor
