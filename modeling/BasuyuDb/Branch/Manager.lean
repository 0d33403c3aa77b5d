import BasuyuDb.Executor.Dml

/-
  engine/internal/branch/branch.go, merge.go and executor/branch_cmds.go: CREATE BRANCH, DROP
  BRANCH and MERGE BRANCH. A branch is one metadata key; its rows and index entries are the keys
  under its own path. CREATE and MERGE are transactions; DROP deletes a key prefix of the store
  itself and then the metadata key.
-/

namespace BasuyuDb.Branch
open KvLib Storage Executor List

/-! ## The paths of a branch -/

/-- The loop of `lastIndex`, from position `i` down. -/
def lastIndexFrom (b sub : Bytes) : Nat → Option Nat
  | 0 => if sub.isPrefixOf b then some 0 else none
  | i + 1 => if sub.isPrefixOf (b.drop (i + 1)) then some (i + 1) else lastIndexFrom b sub i

def lastIndex (b sub : Bytes) : Option Nat :=
  if b.length < sub.length then none else lastIndexFrom b sub (b.length - sub.length)

def dataMarker : Bytes := str "/data/"

/-- `dataRoot`: a row prefix up to its last `/data/`, over all tables. -/
def dataRoot (pre : Bytes) : Bytes :=
  match lastIndex pre dataMarker with
  | some i => pre.take (i + dataMarker.length)
  | none => pre

/-- `branchSubtreePrefix`: a row prefix up to the slash of its last `/data/`. -/
def branchSubtreePrefix (ns name : Bytes) : Bytes :=
  let full := rowPrefix ns name (str "x")
  match lastIndex full dataMarker with
  | some i => full.take (i + 1)
  | none => full

/-- The data of a branch, for all its tables. -/
def branchData (ns branch : Bytes) : Bytes := dataRoot (rowPrefix ns branch (str "x"))

theorem lastIndex_marker (a : Bytes) : lastIndex (a ++ str "/data/x/") dataMarker = some a.length := by
  have hlen : (a ++ str "/data/x/").length = a.length + 8 := length_append
  have hdrop : ∀ n, (a ++ str "/data/x/").drop (a.length + n) = (str "/data/x/").drop n :=
    fun n => drop_length_add_append n
  have h0 : (a ++ str "/data/x/").drop a.length = str "/data/x/" := drop_left
  unfold lastIndex
  rw [if_neg (by rw [hlen]; simp [dataMarker, str]), hlen]
  -- from the right: at the first two positions the marker does not start
  have h2 : a.length + 8 - dataMarker.length = a.length + 1 + 1 := by simp [dataMarker, str]
  have hn2 : dataMarker.isPrefixOf ((str "/data/x/").drop 2) = false := by decide
  have hn1 : dataMarker.isPrefixOf ((str "/data/x/").drop 1) = false := by decide
  have hy : dataMarker.isPrefixOf (str "/data/x/") = true := by decide
  rw [h2, lastIndexFrom, hdrop 2, hn2, if_neg (by simp), lastIndexFrom, hdrop 1, hn1, if_neg (by simp)]
  cases a with
  | nil => rfl
  | cons c a =>
    rw [length_cons, lastIndexFrom, ← length_cons (a := c), h0, hy, if_pos rfl]

theorem rowPrefix_marker (ns branch : Bytes) :
    rowPrefix ns branch (str "x") = nsRoot ns ++ branchSegment branch ++ str "/data/x/" := by
  simp [rowPrefix, appendStr, str, slash]

theorem branchData_eq (ns branch : Bytes) :
    branchData ns branch = nsRoot ns ++ (branchSegment branch ++ str "/data/") := by
  have hlen : (str "/data/x/").take dataMarker.length = str "/data/" := by decide
  unfold branchData dataRoot
  rw [rowPrefix_marker, lastIndex_marker]
  dsimp only
  rw [take_length_add_append, hlen, append_assoc]

theorem branchSubtreePrefix_eq (ns name : Bytes) :
    branchSubtreePrefix ns name = nsRoot ns ++ (branchSegment name ++ [slash]) := by
  have hone : (str "/data/x/").take 1 = [slash] := by decide
  unfold branchSubtreePrefix
  dsimp only
  rw [rowPrefix_marker, lastIndex_marker]
  dsimp only
  rw [take_length_add_append, hone, append_assoc]

theorem rowPrefix_branchData (ns branch table : Bytes) :
    rowPrefix ns branch table = branchData ns branch ++ (table ++ [slash]) := by
  rw [branchData_eq]
  simp [rowPrefix, appendStr, str, slash]

theorem branchSegment_feature {b : Bytes} (hmain : b ≠ mainBranch) (hempty : b ≠ []) :
    branchSegment b = str "/br/" ++ b := if_neg (not_or.mpr ⟨hmain, hempty⟩)

theorem branchSegment_path (b rest : Bytes) :
    str "/main" <+: branchSegment b ++ rest ∨ str "/br/" <+: branchSegment b ++ rest := by
  unfold branchSegment
  split
  · exact .inl (prefix_append _ _)
  · exact .inr ((prefix_append _ _).trans (prefix_append _ _))

theorem branchMetaKey_eq (ns name : Bytes) :
    branchMetaKey ns name = nsRoot ns ++ (str "/meta/branches/" ++ name) := by
  simp [branchMetaKey, appendStr, str, slash]

theorem branchMetaKey_inj {ns x y : Bytes} (h : branchMetaKey ns x = branchMetaKey ns y) : x = y := by
  rw [branchMetaKey_eq, branchMetaKey_eq] at h
  exact append_cancel_left (append_cancel_left h)

theorem branchMetaKey_not_under {ns pre x : Bytes} (hpre : str "/main" <+: pre ∨ str "/br/" <+: pre) :
    ¬nsRoot ns ++ pre <+: branchMetaKey ns x := by
  rw [branchMetaKey_eq]
  rcases hpre with ⟨rest, rfl⟩ | ⟨rest, rfl⟩
  · exact not_prefix_of_paths (by decide) (by decide) rest x
  · exact not_prefix_of_paths (by decide) (by decide) rest x

theorem schemaKey_not_under {ns pre x : Bytes} (hpre : str "/main" <+: pre ∨ str "/br/" <+: pre) :
    ¬nsRoot ns ++ pre <+: schemaKey ns x := by
  rw [schemaKey_eq]
  rcases hpre with ⟨rest, rfl⟩ | ⟨rest, rfl⟩
  · exact not_prefix_of_paths (by decide) (by decide) rest x
  · exact not_prefix_of_paths (by decide) (by decide) rest x

/-! ## Statements -/

/-- `Create`: one metadata key. -/
def execCreateBranch (sess : Session) (name parent : Bytes) : Stm Result :=
  if name = mainBranch then .throw ⟨"42501", "the main branch cannot be created", []⟩
  else do
    match ← Prog.read (branchMetaKey sess.ns name) with
    | some _ => .throw ⟨"42P07", "branch %q already exists", [name]⟩
    | none => do
      Prog.write (assignment (branchMetaKey sess.ns name) (.branchMeta (if parent = [] then mainBranch else parent)))
      pure ⟨"CREATE BRANCH", 0, []⟩

/-- `afterRoot`: the key bytes after a data root. -/
def afterRoot (key root : Bytes) : Bytes := key.drop root.length

/-- What MERGE does to the parent for one entry of the branch. The list of conflicts is never
added to. -/
def mergeOp (ns src parent : Bytes) (kv : Bytes × Val) : Stm (Option (Mutation Bytes Val)) := do
  let parentKey := branchData ns parent ++ afterRoot kv.1 (branchData ns src)
  let parentHas ← Prog.read parentKey
  if kv.2 = .tombstone then pure (if parentHas.isSome then some (deletion parentKey) else none)
  else pure (some (assignment parentKey kv.2))

/-- `Merge`: the rows of the branch, and nothing else, go to its parent. -/
def execMergeBranch (sess : Session) (src : Bytes) : Stm Result :=
  if src = mainBranch then .throw ⟨"42501", "cannot merge the main branch", []⟩
  else do
    match ← Prog.read (branchMetaKey sess.ns src) with
    | some (.branchMeta stored) => do
      let parent := if stored = [] then mainBranch else stored
      let kvs ← Prog.range (branchData sess.ns src)
      let ops ← Prog.collect kvs (mergeOp sess.ns src parent)
      Prog.forEach ops Prog.write
      pure ⟨"MERGE BRANCH", ops.length, []⟩
    | some _ => .throw ⟨"XX000", "merge branch: %v", []⟩
    | none => .throw ⟨"42P01", "branch %q does not exist", [src]⟩

/-- `DropPrefix` of BadgerDB, as documented: the keys with the prefix are gone, and the others stay. -/
structure PrefixDrop where
  drop : State → Bytes → State
  lookup_drop : ∀ W pre k, (drop W pre).lookup k = if pre <+: k then none else W.lookup k

/-- `Drop`. -/
def execDropBranch (db : PrefixDrop) (ns : Bytes) (W : State) (name : Bytes) : ExecM State :=
  if name = mainBranch then .error ⟨"42501", "the main branch cannot be dropped", []⟩
  else
    match W.lookup (branchMetaKey ns name) with
    | none => .error ⟨"42P01", "branch %q does not exist", [name]⟩
    | some _ => .ok ((db.drop W (branchSubtreePrefix ns name)).set (branchMetaKey ns name) none)

end BasuyuDb.Branch
