import BasuyuDb.Auth.Identity
import BasuyuDb.Executor.Encoding

/-
  engine/internal/storage/keys.go as a code: the arguments of a key can be read back from it. Names
  are path segments that end at the next slash; what follows the last of them is binary and may
  hold any byte, so the parser below never looks past the segments of its family. Tuples of an
  index are self-delimiting code words of their column types.
-/

namespace BasuyuDb.Executor
open KvLib Storage Auth List Option

/-! ## Keys with their arguments -/

/-- A name that is one segment of a key. -/
def Name : Type := { s : Bytes // slash ∉ s }

/-- The empty branch name stands for main. -/
def Name.orMain (b : Name) : Bytes := if b.1 = [] then mainBranch else b.1

/-- A binary component whose length fits its four-byte prefix. -/
def Component : Type := { s : Bytes // s.length < 2 ^ 32 }

/-- The types of the columns of an index. -/
def columnTypes (env : Env) (sch : TableSchema) (columns : List Bytes) : List (Option Nat) :=
  columns.map fun c => (sch.colIndex env c).map sch.oidAt

/-- A tuple that `encodeIndexTuple` makes for columns of the given types. -/
def IndexTuple (env : Env) (types : List (Option Nat)) : Type :=
  { val : Bytes // ∃ sch columns cells, columnTypes env sch columns = types ∧
    encodeIndexTuple env sch columns cells = .ok (some val) }

/-- The families of keys of rows, indexes, spans and metadata. -/
inductive StoreKey (env : Env) (types : List (Option Nat)) where
  | row (ns : NamespaceID) (branch table : Name) (pk : Bytes)
  | index (ns : NamespaceID) (branch table name : Name) (val : IndexTuple env types) (pk : Bytes)
  | span (ns : NamespaceID) (branch : Name) (traceID : Component) (spanID : Bytes)
  | schema (ns : NamespaceID) (table : Name)
  | branchMeta (ns : NamespaceID) (name : Name)
  | hlc (ns : NamespaceID)

/-- The other families of the encoder. -/
inductive SideKey where
  | fts (ns : NamespaceID) (branch table field term : Name) (docID : Bytes)
  | vector (ns : NamespaceID) (branch table col : Name) (id : Bytes)
  | otelIndex (ns : NamespaceID) (branch indexName : Name) (vals : List Bytes)
  | raft (ns : NamespaceID) (groupID : Nat) (suffix : Bytes)

section keys
variable {env : Env} {types : List (Option Nat)}

def StoreKey.encode : StoreKey env types → Bytes
  | .row ns branch table pk => rowKey ns.raw branch.1 table.1 pk
  | .index ns branch table name val pk => indexKey ns.raw branch.1 table.1 name.1 val.1 pk
  | .span ns branch traceID spanID => otelSpanKey ns.raw branch.1 traceID.1 spanID
  | .schema ns table => schemaKey ns.raw table.1
  | .branchMeta ns name => branchMetaKey ns.raw name.1
  | .hlc ns => hlcKey ns.raw

def SideKey.encode : SideKey → Bytes
  | .fts ns branch table field term docID => ftsKey ns.raw branch.1 table.1 field.1 term.1 docID
  | .vector ns branch table col id => vectorKey ns.raw branch.1 table.1 col.1 id
  | .otelIndex ns branch indexName vals => otelIndexKey ns.raw branch.1 indexName.1 vals
  | .raft ns groupID suffix => raftKey ns.raw groupID suffix

/-- The same key up to the two names of main. -/
def StoreKey.Same : StoreKey env types → StoreKey env types → Prop
  | .row ns b t pk, .row ns' b' t' pk' => ns = ns' ∧ b.orMain = b'.orMain ∧ t = t' ∧ pk = pk'
  | .index ns b t c val pk, .index ns' b' t' c' val' pk' =>
    ns = ns' ∧ b.orMain = b'.orMain ∧ t = t' ∧ c = c' ∧ val = val' ∧ pk = pk'
  | .span ns b tr sp, .span ns' b' tr' sp' => ns = ns' ∧ b.orMain = b'.orMain ∧ tr = tr' ∧ sp = sp'
  | .schema ns t, .schema ns' t' => ns = ns' ∧ t = t'
  | .branchMeta ns b, .branchMeta ns' b' => ns = ns' ∧ b = b'
  | .hlc ns, .hlc ns' => ns = ns'
  | _, _ => False

/-- A row of otel_spans and a span share the data family. -/
def StoreKey.SharesData : StoreKey env types → StoreKey env types → Prop
  | .row ns b t _, .span ns' b' _ _ => ns = ns' ∧ b.orMain = b'.orMain ∧ t.1 = otelSpansTable
  | .span ns b _ _, .row ns' b' t _ => ns = ns' ∧ b.orMain = b'.orMain ∧ t.1 = otelSpansTable
  | _, _ => False

def StoreKey.namespaceID : StoreKey env types → NamespaceID
  | .row ns .. => ns
  | .index ns .. => ns
  | .span ns .. => ns
  | .schema ns _ => ns
  | .branchMeta ns _ => ns
  | .hlc ns => ns

def SideKey.namespaceID : SideKey → NamespaceID
  | .fts ns .. => ns
  | .vector ns .. => ns
  | .otelIndex ns .. => ns
  | .raft ns .. => ns

/-- A key of the encoder. -/
abbrev AnyKey (env : Env) (types : List (Option Nat)) : Type := StoreKey env types ⊕ SideKey

def AnyKey.encode : AnyKey env types → Bytes := Sum.elim StoreKey.encode SideKey.encode

def AnyKey.namespaceID : AnyKey env types → NamespaceID := Sum.elim StoreKey.namespaceID SideKey.namespaceID

/-- The key is of a row of the table, or of a span. -/
def AnyKey.InTable (ns : NamespaceID) (b t : Name) : AnyKey env types → Prop
  | .inl (.row ns' b' t' _) => ns' = ns ∧ b'.orMain = b.orMain ∧ t' = t
  | .inl (.span ns' b' _ _) => ns' = ns ∧ b'.orMain = b.orMain ∧ t.1 = otelSpansTable
  | _ => False

/-- The key is of an entry of the index, or of one of the indexes over spans. -/
def AnyKey.InIndex (ns : NamespaceID) (b t c : Name) : AnyKey env types → Prop
  | .inl (.index ns' b' t' c' _ _) => ns' = ns ∧ b'.orMain = b.orMain ∧ t' = t ∧ c' = c
  | .inr (.otelIndex ns' b' c' vals) =>
    ns' = ns ∧ b'.orMain = b.orMain ∧ t.1 = otelSpansTable ∧ c' = c ∧ vals ≠ []
  | _ => False

end keys

/-! ## Reading a key -/

/-- The next segment, and what follows it. -/
def segment : Bytes → Option (Bytes × Bytes)
  | [] => none
  | c :: s => if c = slash then some (s.takeWhile fun x => x ≠ slash, s.dropWhile fun x => x ≠ slash) else none

/-- What the segments of a key say; the tail starts after the slash that follows them. -/
inductive KeyView where
  | data (ns branch table tail : Bytes)
  | entry (ns branch table name tail : Bytes)
  | schema (ns table : Bytes)
  | branchMeta (ns name : Bytes)
  | hlc (ns : Bytes)
  | other (ns : Bytes)

def parseBranch (ns b rest : Bytes) : Option KeyView := do
  let fam ← segment rest
  if fam.1 = str "data" then
    let t ← segment fam.2
    match t.2 with
    | [] => some (.other ns)
    | _ :: tail => some (.data ns b t.1 tail)
  else if fam.1 = str "idx" then
    let t ← segment fam.2
    let c ← segment t.2
    match c.2 with
    | [] => some (.other ns)
    | _ :: tail => some (.entry ns b t.1 c.1 tail)
  else some (.other ns)

def parseArea (ns rest : Bytes) : Option KeyView := do
  let area ← segment rest
  if area.1 = str "main" then parseBranch ns mainBranch area.2
  else if area.1 = str "br" then
    let b ← segment area.2
    parseBranch ns b.1 b.2
  else if area.1 = str "meta" then
    let kind ← segment area.2
    let x ← segment kind.2
    some (if kind.1 = str "schema" then .schema ns x.1 else .branchMeta ns x.1)
  else if area.1 = str "hlc" then some (.hlc ns)
  else some (.other ns)

def parse : Bytes → Option KeyView
  | [] => none
  | _ :: path => do
    let lit ← segment path
    let ns ← segment lit.2
    parseArea ns.1 ns.2

/-- A segment ends at a slash or with the key. -/
def Boundary (rest : Bytes) : Prop := rest = [] ∨ ∃ tail, rest = slash :: tail

theorem boundary_nil : Boundary [] := .inl rfl

theorem boundary_slash (tail : Bytes) : Boundary (slash :: tail) := .inr ⟨tail, rfl⟩

theorem segment_append {a rest : Bytes} (ha : slash ∉ a) (hrest : Boundary rest) :
    segment (slash :: (a ++ rest)) = some (a, rest) := by
  have hall : ∀ x ∈ a, decide (x ≠ slash) = true := fun x hx => decide_eq_true fun h => ha (h ▸ hx)
  rw [segment, if_pos rfl, takeWhile_append_of_pos hall, dropWhile_append_of_pos hall]
  rcases hrest with rfl | ⟨tail, rfl⟩ <;> simp

section parse
variable {ns : Bytes} {rest : Bytes}

theorem parse_nsRoot (hns : slash ∉ ns) (hrest : Boundary rest) : parse (nsRoot ns ++ rest) = parseArea ns rest := by
  have hroot : nsRoot ns ++ rest = keyVersion :: slash :: (str "ns" ++ slash :: (ns ++ rest)) := by
    simp [nsRoot, str, slash]
  rw [hroot, parse, segment_append (by decide) (boundary_slash _), bind_eq_bind, bind_some, segment_append hns hrest]
  rfl

theorem parseArea_main (hrest : Boundary rest) : parseArea ns (str "/main" ++ rest) = parseBranch ns mainBranch rest := by
  have hpath : str "/main" ++ rest = slash :: (str "main" ++ rest) := rfl
  rw [hpath, parseArea, segment_append (by decide) hrest, bind_eq_bind, bind_some, if_pos rfl]

variable {b t c kind : Bytes}

theorem parseArea_feature (hb : slash ∉ b) (hrest : Boundary rest) :
    parseArea ns (str "/br/" ++ b ++ rest) = parseBranch ns b rest := by
  have hpath : str "/br/" ++ b ++ rest = slash :: (str "br" ++ slash :: (b ++ rest)) := by simp [str, slash]
  have hbr : slash ∉ str "br" := by decide
  have hmain : str "br" ≠ str "main" := by decide
  simp only [hpath, parseArea, segment_append hbr (boundary_slash _), segment_append hb hrest, bind_eq_bind,
    bind_some, if_neg hmain, if_true]

theorem parseArea_branch (b : Name) (hrest : Boundary rest) :
    parseArea ns (branchSegment b.1 ++ rest) = parseBranch ns b.orMain rest := by
  unfold branchSegment Name.orMain
  by_cases hempty : b.1 = []
  · rw [if_pos (.inr hempty), if_pos hempty, parseArea_main hrest]
  · rw [if_neg hempty]
    by_cases hmain : b.1 = str "main"
    · rw [if_pos (.inl hmain), parseArea_main hrest, hmain]
      rfl
    · rw [if_neg (not_or.mpr ⟨hmain, hempty⟩), parseArea_feature b.2 hrest]

theorem parseBranch_data (ht : slash ∉ t) (tail : Bytes) :
    parseBranch ns b (slash :: (str "data" ++ slash :: (t ++ slash :: tail))) = some (.data ns b t tail) := by
  rw [parseBranch, segment_append (by decide) (boundary_slash _), bind_eq_bind, bind_some, if_pos rfl,
    segment_append ht (boundary_slash _)]
  rfl

theorem parseBranch_entry (ht : slash ∉ t) (hc : slash ∉ c) (tail : Bytes) :
    parseBranch ns b (slash :: (str "idx" ++ slash :: (t ++ slash :: (c ++ slash :: tail)))) =
      some (.entry ns b t c tail) := by
  have hslash : slash ∉ str "idx" := by decide
  have hdata : str "idx" ≠ str "data" := by decide
  simp only [parseBranch, segment_append hslash (boundary_slash _), segment_append ht (boundary_slash _),
    segment_append hc (boundary_slash _), bind_eq_bind, bind_some, if_neg hdata, if_true]

theorem parseBranch_bare (ht : slash ∉ t) (hc : slash ∉ c) :
    parseBranch ns b (slash :: (str "idx" ++ slash :: (t ++ slash :: (c ++ [])))) = some (.other ns) := by
  have hslash : slash ∉ str "idx" := by decide
  have hdata : str "idx" ≠ str "data" := by decide
  simp only [parseBranch, segment_append hslash (boundary_slash _), segment_append ht (boundary_slash _),
    segment_append hc boundary_nil, bind_eq_bind, bind_some, if_neg hdata, if_true]

theorem parseBranch_other {fam tail : Bytes} (hslash : slash ∉ fam) (hdata : fam ≠ str "data")
    (hidx : fam ≠ str "idx") :
    parseBranch ns b (slash :: (fam ++ slash :: tail)) = some (.other ns) := by
  rw [parseBranch, segment_append hslash (boundary_slash _), bind_eq_bind, bind_some, if_neg hdata, if_neg hidx]

theorem parseArea_meta {x : Bytes} (hkind : slash ∉ kind) (hx : slash ∉ x) :
    parseArea ns (slash :: (str "meta" ++ slash :: (kind ++ slash :: x))) =
      some (if kind = str "schema" then .schema ns x else .branchMeta ns x) := by
  have hmeta : slash ∉ str "meta" := by decide
  have hmain : str "meta" ≠ str "main" := by decide
  have hbr : str "meta" ≠ str "br" := by decide
  have hlast : segment (slash :: x) = some (x, []) := by
    have h := segment_append hx boundary_nil
    rw [append_nil] at h
    exact h
  simp only [parseArea, segment_append hmeta (boundary_slash _), segment_append hkind (boundary_slash _), hlast,
    bind_eq_bind, bind_some, if_neg hmain, if_neg hbr, if_true]

theorem boundary_branch (b tail : Bytes) : Boundary (branchSegment b ++ tail) := by
  unfold branchSegment
  split
  · exact boundary_slash _
  · exact boundary_slash _

theorem parse_rowPrefix (ns : NamespaceID) (b t : Name) (tail : Bytes) :
    parse (rowPrefix ns.raw b.1 t.1 ++ tail) = some (.data ns.raw b.orMain t.1 tail) := by
  have hpath : rowPrefix ns.raw b.1 t.1 ++ tail =
      nsRoot ns.raw ++ (branchSegment b.1 ++ slash :: (str "data" ++ slash :: (t.1 ++ slash :: tail))) := by
    simp [rowPrefix, appendStr]
  rw [hpath, parse_nsRoot ns.slash_not_mem (boundary_branch _ _), parseArea_branch b (boundary_slash _), parseBranch_data t.2]

theorem parse_indexColumnPrefix (ns : NamespaceID) (b t c : Name) (tail : Bytes) :
    parse (indexColumnPrefix ns.raw b.1 t.1 c.1 ++ tail) = some (.entry ns.raw b.orMain t.1 c.1 tail) := by
  have hpath : indexColumnPrefix ns.raw b.1 t.1 c.1 ++ tail = nsRoot ns.raw ++ (branchSegment b.1 ++
      slash :: (str "idx" ++ slash :: (t.1 ++ slash :: (c.1 ++ slash :: tail)))) := by
    simp [indexColumnPrefix, appendStr]
  rw [hpath, parse_nsRoot ns.slash_not_mem (boundary_branch _ _), parseArea_branch b (boundary_slash _),
    parseBranch_entry t.2 c.2]

theorem parse_meta (ns : NamespaceID) (hkind : slash ∉ kind) (x : Name) :
    parse (nsRoot ns.raw ++ slash :: (str "meta" ++ slash :: (kind ++ slash :: x.1))) =
      some (if kind = str "schema" then .schema ns.raw x.1 else .branchMeta ns.raw x.1) := by
  rw [parse_nsRoot ns.slash_not_mem (boundary_slash _), parseArea_meta hkind x.2]

end parse

/-! ## What a key says -/

section views
variable {env : Env} {types : List (Option Nat)}

/-- A length-prefixed component, without the slash before it. -/
def lengthPrefixed (bin : Bytes) : Bytes := putUint32 bin.length ++ bin

def StoreKey.view : StoreKey env types → KeyView
  | .row ns b t pk => .data ns.raw b.orMain t.1 (lengthPrefixed pk)
  | .index ns b t c val pk => .entry ns.raw b.orMain t.1 c.1 (val.1 ++ slash :: lengthPrefixed pk)
  | .span ns b tr sp =>
    .data ns.raw b.orMain otelSpansTable (lengthPrefixed tr.1 ++ slash :: lengthPrefixed sp)
  | .schema ns t => .schema ns.raw t.1
  | .branchMeta ns b => .branchMeta ns.raw b.1
  | .hlc ns => .hlc ns.raw

def SideKey.view : SideKey → KeyView
  | .fts ns .. => .other ns.raw
  | .vector ns .. => .other ns.raw
  | .otelIndex ns _ _ [] => .other ns.raw
  | .otelIndex ns b c (v :: vals) =>
    .entry ns.raw b.orMain otelSpansTable c.1 (vals.foldl appendBin (lengthPrefixed v))
  | .raft ns .. => .other ns.raw

def spansName : Name := ⟨otelSpansTable, by decide⟩

theorem otelSpanKey_eq (ns b tr sp : Bytes) : otelSpanKey ns b tr sp =
    rowPrefix ns b otelSpansTable ++ (lengthPrefixed tr ++ slash :: lengthPrefixed sp) := by
  simp [otelSpanKey, rowPrefix, appendBin, lengthPrefixed, otelSpansTable]

theorem StoreKey.parse_encode (k : StoreKey env types) : parse k.encode = some k.view := by
  cases k with
  | row ns b t pk => exact (congrArg parse (rowKey_eq ..)).trans (parse_rowPrefix ns b t _)
  | index ns b t c val pk => exact (congrArg parse (indexKey_eq ..)).trans (parse_indexColumnPrefix ns b t c _)
  | span ns b tr sp => exact (congrArg parse (otelSpanKey_eq ..)).trans (parse_rowPrefix ns b spansName _)
  | schema ns t =>
    have hpath : schemaKey ns.raw t.1 =
        nsRoot ns.raw ++ slash :: (str "meta" ++ slash :: (str "schema" ++ slash :: t.1)) := by
      simp [schemaKey, appendStr]
    exact (congrArg parse hpath).trans (parse_meta ns (by decide) t)
  | branchMeta ns b =>
    have hpath : branchMetaKey ns.raw b.1 =
        nsRoot ns.raw ++ slash :: (str "meta" ++ slash :: (str "branches" ++ slash :: b.1)) := by
      simp [branchMetaKey, appendStr]
    exact (congrArg parse hpath).trans (parse_meta ns (by decide) b)
  | hlc ns =>
    have hpath : hlcKey ns.raw = nsRoot ns.raw ++ slash :: (str "hlc" ++ slash :: str "ts") := by
      simp [hlcKey, appendStr]
    refine (congrArg parse hpath).trans ?_
    rw [parse_nsRoot ns.slash_not_mem (boundary_slash _)]
    rfl

theorem foldl_appendBin (vals : List Bytes) (b x : Bytes) :
    vals.foldl appendBin (b ++ x) = b ++ vals.foldl appendBin x := by
  induction vals generalizing x with
  | nil => rfl
  | cons v vals ih =>
    have happ : appendBin (b ++ x) v = b ++ appendBin x v := append_assoc ..
    rw [foldl_cons, foldl_cons, happ, ih]

theorem otelIndexKey_cons (ns b c v : Bytes) (vals : List Bytes) : otelIndexKey ns b c (v :: vals) =
    indexColumnPrefix ns b otelSpansTable c ++ vals.foldl appendBin (lengthPrefixed v) := by
  rw [← foldl_appendBin]
  simp [otelIndexKey, indexColumnPrefix, appendStr, appendBin, lengthPrefixed, otelSpansTable]

theorem parse_family (ns : NamespaceID) (b : Name) {fam : Bytes} (hslash : slash ∉ fam) (hdata : fam ≠ str "data")
    (hidx : fam ≠ str "idx") (tail : Bytes) :
    parse (nsRoot ns.raw ++ (branchSegment b.1 ++ slash :: (fam ++ slash :: tail))) = some (.other ns.raw) := by
  rw [parse_nsRoot ns.slash_not_mem (boundary_branch _ _), parseArea_branch b (boundary_slash _),
    parseBranch_other hslash hdata hidx]

theorem SideKey.parse_encode (k : SideKey) : parse k.encode = some k.view := by
  cases k with
  | fts ns b table field term docID =>
    have hpath : ftsKey ns.raw b.1 table.1 field.1 term.1 docID = nsRoot ns.raw ++ (branchSegment b.1 ++
        slash :: (str "fts" ++ slash :: (table.1 ++ slash :: (field.1 ++ slash :: (term.1 ++
          slash :: lengthPrefixed docID))))) := by
      simp [ftsKey, appendStr, appendBin, lengthPrefixed]
    exact (congrArg parse hpath).trans (parse_family ns b (by decide) (by decide) (by decide) _)
  | vector ns b table col id =>
    have hpath : vectorKey ns.raw b.1 table.1 col.1 id = nsRoot ns.raw ++ (branchSegment b.1 ++
        slash :: (str "vec" ++ slash :: (table.1 ++ slash :: (col.1 ++ slash :: lengthPrefixed id)))) := by
      simp [vectorKey, appendStr, appendBin, lengthPrefixed]
    exact (congrArg parse hpath).trans (parse_family ns b (by decide) (by decide) (by decide) _)
  | otelIndex ns b c vals =>
    cases vals with
    | nil =>
      have hpath : otelIndexKey ns.raw b.1 c.1 [] = nsRoot ns.raw ++ (branchSegment b.1 ++
          slash :: (str "idx" ++ slash :: (otelSpansTable ++ slash :: (c.1 ++ [])))) := by
        simp [otelIndexKey, appendStr, otelSpansTable]
      refine (congrArg parse hpath).trans ?_
      rw [parse_nsRoot ns.slash_not_mem (boundary_branch _ _), parseArea_branch b (boundary_slash _),
        parseBranch_bare (by decide) c.2]
      rfl
    | cons v vals =>
      exact (congrArg parse (otelIndexKey_cons ..)).trans (parse_indexColumnPrefix ns b spansName c _)
  | raft ns groupID suffix =>
    have hpath : ∃ tail, raftKey ns.raw groupID suffix = nsRoot ns.raw ++ slash :: (str "raft" ++ slash :: tail) := by
      simp [raftKey, appendStr, appendBin]
    obtain ⟨tail, hpath⟩ := hpath
    have hraft : slash ∉ str "raft" := by decide
    refine (congrArg parse hpath).trans ?_
    rw [parse_nsRoot ns.slash_not_mem (boundary_slash _), parseArea, segment_append hraft (boundary_slash _)]
    rfl

end views

/-! ## Injectivity -/

section injective
variable {env : Env} {types : List (Option Nat)}

theorem encodeIndexTuple_comparable {sch sch' : TableSchema} {cols cols' : List Bytes} {cells cells' : Data}
    {u v : Bytes} (htypes : columnTypes env sch cols = columnTypes env sch' cols')
    (hu : encodeIndexTuple env sch cols cells = .ok (some u))
    (hv : encodeIndexTuple env sch' cols' cells' = .ok (some v)) : Before u v ∨ u = v ∨ Before v u := by
  induction cols generalizing cols' u v with
  | nil =>
    obtain rfl : cols' = [] := map_eq_nil_iff.mp htypes.symm
    cases Except.ok.inj hu
    cases Except.ok.inj hv
    exact .inr (.inl rfl)
  | cons c cols ih =>
    cases cols' with
    | nil => cases htypes
    | cons c' cols' =>
      obtain ⟨a, x, ha, hx, rfl⟩ := encodeIndexTuple_cons.mp hu
      obtain ⟨b, y, hb, hy, rfl⟩ := encodeIndexTuple_cons.mp hv
      obtain ⟨ci, t, hci, -, hat⟩ := encodeColumn_eq_some.mp ha
      obtain ⟨ci', t', hci', -, hbt⟩ := encodeColumn_eq_some.mp hb
      obtain ⟨htype, hrest⟩ := List.cons.inj htypes
      dsimp only at htype
      rw [hci, hci'] at htype
      have hoid : sch.oidAt ci = sch'.oidAt ci' := some.inj htype
      rw [← hoid] at hbt
      rcases orderEncode_comparable hat hbt with h | rfl | h
      · exact .inl (h.append x y)
      · -- the first words agree, so the rest decides
        rcases ih hrest hx hy with h | rfl | h
        · exact .inl (h.prepend a)
        · exact .inr (.inl rfl)
        · exact .inr (.inr (h.prepend a))
      · exact .inr (.inr (h.append y x))

theorem IndexTuple.eq_of_append {u v : IndexTuple env types} {x y : Bytes} (h : u.1 ++ x = v.1 ++ y) :
    u = v ∧ x = y := by
  obtain ⟨u, sch, cols, cells, htypes, hu⟩ := u
  obtain ⟨v, sch', cols', cells', htypes', hv⟩ := v
  dsimp only at h
  rcases encodeIndexTuple_comparable (htypes.trans htypes'.symm) hu hv with hlt | rfl | hlt
  · exact absurd h (ne_of_lt (hlt.append_lt x y))
  · exact ⟨rfl, append_cancel_left h⟩
  · exact absurd h (ne_of_gt (hlt.append_lt y x))

theorem lengthPrefixed_inj {a b : Bytes} (h : lengthPrefixed a = lengthPrefixed b) : a = b := append_inj_right h rfl

theorem lengthPrefixed_append_inj {a b : Component} {x y : Bytes}
    (h : lengthPrefixed a.1 ++ x = lengthPrefixed b.1 ++ y) : a = b ∧ x = y := by
  unfold lengthPrefixed at h
  rw [append_assoc, append_assoc] at h
  obtain ⟨hlen, hrest⟩ := append_inj h rfl
  obtain ⟨hab, hxy⟩ := append_inj hrest (putUint32_inj a.2 b.2 hlen)
  exact ⟨Subtype.ext hab, hxy⟩

theorem StoreKey.same_of_view {k k' : StoreKey env types} (h : k.view = k'.view) : k.Same k' ∨ k.SharesData k' := by
  cases k with
  | row ns b t pk =>
    cases k' with
    | row ns' b' t' pk' =>
      obtain ⟨hns, hb, ht, hpk⟩ := KeyView.data.inj h
      exact .inl ⟨NamespaceID.ext hns, hb, Subtype.ext ht, lengthPrefixed_inj hpk⟩
    | span ns' b' tr sp =>
      obtain ⟨hns, hb, ht, -⟩ := KeyView.data.inj h
      exact .inr ⟨NamespaceID.ext hns, hb, ht⟩
    | _ => cases h
  | index ns b t c val pk =>
    cases k' with
    | index ns' b' t' c' val' pk' =>
      obtain ⟨hns, hb, ht, hc, htail⟩ := KeyView.entry.inj h
      obtain ⟨hval, hpk⟩ := IndexTuple.eq_of_append htail
      exact .inl ⟨NamespaceID.ext hns, hb, Subtype.ext ht, Subtype.ext hc, hval,
        lengthPrefixed_inj (List.cons.inj hpk).2⟩
    | _ => cases h
  | span ns b tr sp =>
    cases k' with
    | row ns' b' t' pk' =>
      obtain ⟨hns, hb, ht, -⟩ := KeyView.data.inj h
      exact .inr ⟨NamespaceID.ext hns, hb, ht.symm⟩
    | span ns' b' tr' sp' =>
      obtain ⟨hns, hb, -, htail⟩ := KeyView.data.inj h
      obtain ⟨htr, hsp⟩ := lengthPrefixed_append_inj htail
      exact .inl ⟨NamespaceID.ext hns, hb, htr, lengthPrefixed_inj (List.cons.inj hsp).2⟩
    | _ => cases h
  | schema ns t =>
    cases k' with
    | schema ns' t' =>
      obtain ⟨hns, ht⟩ := KeyView.schema.inj h
      exact .inl ⟨NamespaceID.ext hns, Subtype.ext ht⟩
    | _ => cases h
  | branchMeta ns b =>
    cases k' with
    | branchMeta ns' b' =>
      obtain ⟨hns, hb⟩ := KeyView.branchMeta.inj h
      exact .inl ⟨NamespaceID.ext hns, Subtype.ext hb⟩
    | _ => cases h
  | hlc ns =>
    cases k' with
    | hlc ns' => exact .inl (NamespaceID.ext (KeyView.hlc.inj h))
    | _ => cases h

theorem StoreKey.same_of_encode {k k' : StoreKey env types} (h : k.encode = k'.encode) :
    k.Same k' ∨ k.SharesData k' := by
  refine StoreKey.same_of_view (some.inj ?_)
  rw [← k.parse_encode, h, k'.parse_encode]

end injective

/-! ## Prefixes -/

section prefixes
variable {env : Env} {types : List (Option Nat)}

def AnyKey.view : AnyKey env types → KeyView := Sum.elim StoreKey.view SideKey.view

theorem AnyKey.parse_encode (k : AnyKey env types) : parse k.encode = some k.view := by
  cases k with
  | inl k | inr k => exact k.parse_encode

theorem branchSegment_orMain {b b' : Name} (h : b.orMain = b'.orMain) : branchSegment b.1 = branchSegment b'.1 := by
  have hseg : ∀ b : Name, branchSegment b.1 = branchSegment b.orMain := by
    intro b
    unfold Name.orMain
    split
    · rename_i hempty
      rw [hempty]
      rfl
    · rfl
  rw [hseg b, hseg b', h]

theorem rowPrefix_iff (ns : NamespaceID) (b t : Name) (k : AnyKey env types) :
    rowPrefix ns.raw b.1 t.1 <+: k.encode ↔ k.InTable ns b t := by
  constructor
  · rintro ⟨tail, htail⟩
    have hview : k.view = .data ns.raw b.orMain t.1 tail := by
      refine some.inj ?_
      rw [← k.parse_encode, ← htail, parse_rowPrefix]
    rcases k with (k | k)
    · cases k with
      | row ns' b' t' pk =>
        obtain ⟨hns, hb, ht, -⟩ := KeyView.data.inj hview
        exact ⟨NamespaceID.ext hns, hb, Subtype.ext ht⟩
      | span ns' b' tr sp =>
        obtain ⟨hns, hb, ht, -⟩ := KeyView.data.inj hview
        exact ⟨NamespaceID.ext hns, hb, ht.symm⟩
      | _ => cases hview
    · cases k with
      | otelIndex ns' b' c vals => cases vals <;> cases hview
      | _ => cases hview
  · intro h
    rcases k with (k | k)
    · cases k with
      | row ns' b' t' pk =>
        obtain ⟨rfl, hb, rfl⟩ := h
        have hkey := rowPrefix_rowKey ns'.raw b'.1 t'.1 pk
        unfold rowPrefix at hkey ⊢
        rw [← branchSegment_orMain hb]
        exact hkey
      | span ns' b' tr sp =>
        obtain ⟨rfl, hb, ht⟩ := h
        have hkey : rowPrefix ns'.raw b'.1 otelSpansTable <+: otelSpanKey ns'.raw b'.1 tr.1 sp := by
          rw [otelSpanKey_eq]
          exact prefix_append _ _
        unfold rowPrefix at hkey ⊢
        rw [← branchSegment_orMain hb, ht]
        exact hkey
      | _ => exact h.elim
    · cases k with
      | _ => exact h.elim

theorem indexColumnPrefix_iff (ns : NamespaceID) (b t c : Name) (k : AnyKey env types) :
    indexColumnPrefix ns.raw b.1 t.1 c.1 <+: k.encode ↔ k.InIndex ns b t c := by
  constructor
  · rintro ⟨tail, htail⟩
    have hview : k.view = .entry ns.raw b.orMain t.1 c.1 tail := by
      refine some.inj ?_
      rw [← k.parse_encode, ← htail, parse_indexColumnPrefix]
    rcases k with (k | k)
    · cases k with
      | index ns' b' t' c' val pk =>
        obtain ⟨hns, hb, ht, hc, -⟩ := KeyView.entry.inj hview
        exact ⟨NamespaceID.ext hns, hb, Subtype.ext ht, Subtype.ext hc⟩
      | _ => cases hview
    · cases k with
      | otelIndex ns' b' c' vals =>
        cases vals with
        | nil => cases hview
        | cons v vals =>
          obtain ⟨hns, hb, ht, hc, -⟩ := KeyView.entry.inj hview
          exact ⟨NamespaceID.ext hns, hb, ht.symm, Subtype.ext hc, by simp⟩
      | _ => cases hview
  · intro h
    rcases k with (k | k)
    · cases k with
      | index ns' b' t' c' val pk =>
        obtain ⟨rfl, hb, rfl, rfl⟩ := h
        have hkey := indexColumnPrefix_indexKey ns'.raw b'.1 t'.1 c'.1 val.1 pk
        unfold indexColumnPrefix at hkey ⊢
        rw [← branchSegment_orMain hb]
        exact hkey
      | _ => exact h.elim
    · cases k with
      | otelIndex ns' b' c' vals =>
        obtain ⟨rfl, hb, ht, rfl, hvals⟩ := h
        cases vals with
        | nil => exact absurd rfl hvals
        | cons v vals =>
          have hkey : indexColumnPrefix ns'.raw b'.1 otelSpansTable c'.1 <+:
              otelIndexKey ns'.raw b'.1 c'.1 (v :: vals) := by
            rw [otelIndexKey_cons]
            exact prefix_append _ _
          unfold indexColumnPrefix at hkey ⊢
          rw [← branchSegment_orMain hb, ht]
          exact hkey
      | _ => exact h.elim

theorem StoreKey.under_namespace (k : StoreKey env types) : namespacePrefix k.namespaceID.raw <+: k.encode := by
  cases k with
  | row ns b t pk => exact namespacePrefix_rowKey ..
  | index ns b t c val pk => exact namespacePrefix_indexKey ..
  | span ns b tr sp => exact namespacePrefix_otelSpanKey ..
  | schema ns t => exact namespacePrefix_schemaKey ..
  | branchMeta ns b => exact namespacePrefix_branchMetaKey ..
  | hlc ns => exact namespacePrefix_appendStr ns.raw (namespacePrefix_root ns.raw _) _

theorem SideKey.under_namespace (k : SideKey) : namespacePrefix k.namespaceID.raw <+: k.encode := by
  cases k with
  | fts ns b table field term docID =>
    exact namespacePrefix_appendBin ns.raw (namespacePrefix_appendStr ns.raw (namespacePrefix_appendStr ns.raw
      (namespacePrefix_appendStr ns.raw (namespacePrefix_appendStr ns.raw (namespacePrefix_branch ns.raw b.1) _) _) _) _) _
  | vector ns b table col id =>
    exact namespacePrefix_appendBin ns.raw (namespacePrefix_appendStr ns.raw (namespacePrefix_appendStr ns.raw
      (namespacePrefix_appendStr ns.raw (namespacePrefix_branch ns.raw b.1) _) _) _) _
  | otelIndex ns b c vals =>
    change namespacePrefix ns.raw <+: otelIndexKey ns.raw b.1 c.1 vals
    unfold otelIndexKey
    have hpath := namespacePrefix_appendStr ns.raw (namespacePrefix_appendStr ns.raw (namespacePrefix_appendStr ns.raw
      (namespacePrefix_branch ns.raw b.1) (str "idx")) (str "otel_spans")) c.1
    have happ := foldl_appendBin vals (appendStr (appendStr (appendStr (nsRoot ns.raw ++ branchSegment b.1)
      (str "idx")) (str "otel_spans")) c.1) []
    rw [append_nil] at happ
    rw [happ]
    exact hpath.trans (prefix_append _ _)
  | raft ns groupID suffix =>
    exact namespacePrefix_appendBin ns.raw (namespacePrefix_appendBin ns.raw (namespacePrefix_root ns.raw _) _) _

theorem namespacePrefix_iff (ns : NamespaceID) (k : AnyKey env types) :
    namespacePrefix ns.raw <+: k.encode ↔ k.namespaceID = ns := by
  have hown : namespacePrefix k.namespaceID.raw <+: k.encode := by
    cases k with
    | inl k | inr k => exact k.under_namespace
  constructor
  · intro h
    obtain ⟨tail, htail⟩ := hown
    have hroot : ∀ m x : Bytes, namespacePrefix m ++ x = keyVersion :: (str "/ns/" ++ (m ++ slash :: x)) := by
      intro m x
      simp [namespacePrefix, nsRoot]
    have hprefix : namespacePrefix ns.raw = keyVersion :: (str "/ns/" ++ (ns.raw ++ slash :: [])) := by
      rw [← hroot, append_nil]
    rw [← htail, hprefix, hroot, cons_prefix_cons, prefix_append_right_inj] at h
    exact NamespaceID.ext (name_of_slash ns.slash_not_mem k.namespaceID.slash_not_mem h.2).1.symm
  · rintro rfl
    exact hown

end prefixes

/-! ## The key space -/

/-- **Keys are read back.** Two keys of rows, indexes (over one list of column types), spans and
metadata that are equal have equal arguments, with the empty branch name for main, except that
spans share the data family with the rows of otel_spans; and the prefixes of tables, indexes and
namespaces are those of exactly their keys, among the keys of all families. -/
theorem key_arguments_exact (env : Env) (types : List (Option Nat)) :
    (∀ k k' : StoreKey env types, k.encode = k'.encode → k.Same k' ∨ k.SharesData k') ∧
    (∀ (ns : NamespaceID) (b t : Name) (k : AnyKey env types),
      rowPrefix ns.raw b.1 t.1 <+: k.encode ↔ k.InTable ns b t) ∧
    (∀ (ns : NamespaceID) (b t c : Name) (k : AnyKey env types),
      indexColumnPrefix ns.raw b.1 t.1 c.1 <+: k.encode ↔ k.InIndex ns b t c) ∧
    (∀ (ns : NamespaceID) (k : AnyKey env types), namespacePrefix ns.raw <+: k.encode ↔ k.namespaceID = ns) :=
  ⟨fun _ _ h => StoreKey.same_of_encode h, rowPrefix_iff, indexColumnPrefix_iff, namespacePrefix_iff⟩

/-- A row is under the prefix of its own table, and not under that of a table whose name it continues. -/
theorem key_arguments_neighbours : ∃ (env : Env) (ns : NamespaceID) (b t t' : Name),
    rowPrefix ns.raw b.1 t.1 <+: (StoreKey.row ns b t [47, 0] : StoreKey env []).encode ∧
      ¬rowPrefix ns.raw b.1 t'.1 <+: (StoreKey.row ns b t [47, 0] : StoreKey env []).encode ∧ t'.1 <+: t.1 := by
  have hexact := (key_arguments_exact (asciiEnv fun _ => .const .null) []).2.1
  refine ⟨asciiEnv fun _ => .const .null, ⟨str "n", by decide⟩, ⟨str "main", by decide⟩, ⟨str "ab", by decide⟩,
    ⟨str "a", by decide⟩, ?_, ?_, by decide⟩
  · exact (hexact _ _ _ (.inl (.row _ _ _ _))).mpr ⟨rfl, rfl, rfl⟩
  · intro h
    obtain ⟨-, -, hne⟩ := (hexact _ _ _ (.inl (.row _ _ _ _))).mp h
    cases congrArg Subtype.val hne

/-- Two keys with different arguments that are equal: the empty branch name is main. -/
theorem empty_branch_is_main : ∃ (env : Env) (ns : NamespaceID) (t : Name) (pk : Bytes) (b b' : Name),
    b ≠ b' ∧ (StoreKey.row ns b t pk : StoreKey env []).encode = (StoreKey.row ns b' t pk : StoreKey env []).encode :=
  ⟨asciiEnv fun _ => .const .null, ⟨str "n", by decide⟩, ⟨str "t", by decide⟩, [], ⟨[], by decide⟩,
    ⟨str "main", by decide⟩, fun h => absurd (congrArg Subtype.val h) (by decide), rfl⟩

end BasuyuDb.Executor
