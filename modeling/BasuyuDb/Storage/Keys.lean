import BasuyuDb.Lib.Slices

/-
  engine/internal/storage/keys.go: the canonical key encoder.
  A key is a byte string: a version byte, a path of verbatim string segments, and a tail of
  length-prefixed binary components. Go strings are byte strings, so names are `Bytes` too.
-/

namespace BasuyuDb
open KvLib List

abbrev Byte := Fin 256

abbrev Bytes := List Byte

/-- The bytes of an ASCII literal. -/
def str (s : String) : Bytes := s.toList.map fun c => Fin.ofNat 256 c.toNat

namespace Storage

/-- `KeyVersion`, the leading byte of every key. -/
def keyVersion : Byte := 1

def slash : Byte := 47

/-- `binary.BigEndian.PutUint16(uint16(n))`. -/
def putUint16 (n : Nat) : Bytes := [Fin.ofNat 256 (n / 256), Fin.ofNat 256 n]

/-- `binary.BigEndian.PutUint32(uint32(n))`. -/
def putUint32 (n : Nat) : Bytes :=
  [Fin.ofNat 256 (n / 16777216), Fin.ofNat 256 (n / 65536), Fin.ofNat 256 (n / 256), Fin.ofNat 256 n]

/-- `binary.BigEndian.PutUint64(n)`. -/
def putUint64 (n : Nat) : Bytes := putUint32 (n / 2 ^ 32) ++ putUint32 n

section words
variable {b : Bytes} {n m pos : Nat}

theorem uint32At_putUint32 {r : Bytes} (hn : n < 2 ^ 32) (h : b.drop pos = putUint32 n ++ r) : uint32At b pos = .ok n := by
  rw [uint32At_cons h]
  simp only [Fin.ofNat, Except.ok.injEq]
  omega

theorem uint32At_inv (h : uint32At b pos = .ok n) : n < 2 ^ 32 ∧ ∃ r, b.drop pos = putUint32 n ++ r := by
  obtain ⟨w, x, y, z, r, hdrop, rfl⟩ := uint32At_ok h
  refine ⟨by omega, r, hdrop.trans ?_⟩
  simp only [putUint32, cons_append, nil_append, cons.injEq, Fin.ext_iff, Fin.ofNat, and_true]
  omega

theorem putUint32_inj (hn : n < 2 ^ 32) (hm : m < 2 ^ 32) (h : putUint32 n = putUint32 m) : n = m := by
  simp only [putUint32, cons.injEq, Fin.ext_iff, Fin.ofNat] at h
  omega

end words

/-- `main` is a sibling path, feature branches live under `/br/`. -/
def branchSegment (branch : Bytes) : Bytes :=
  if branch = str "main" ∨ branch = [] then str "/main" else str "/br/" ++ branch

/-- `nsRoot`: the version byte and `/ns/{ns}`. -/
def nsRoot (ns : Bytes) : Bytes := keyVersion :: str "/ns/" ++ ns

/-- `appendStr`: a slash and the segment, verbatim. -/
def appendStr (b s : Bytes) : Bytes := b ++ slash :: s

/-- `appendBin`: a slash, the length in four bytes, and the component. -/
def appendBin (b bin : Bytes) : Bytes := b ++ slash :: (putUint32 bin.length ++ bin)

def rowPrefix (ns branch table : Bytes) : Bytes :=
  appendStr (appendStr (nsRoot ns ++ branchSegment branch) (str "data")) table ++ [slash]

def rowKey (ns branch table pk : Bytes) : Bytes :=
  appendBin (appendStr (appendStr (nsRoot ns ++ branchSegment branch) (str "data")) table) pk

def indexColumnPrefix (ns branch table col : Bytes) : Bytes :=
  appendStr (appendStr (appendStr (nsRoot ns ++ branchSegment branch) (str "idx")) table) col
    ++ [slash]

def indexKey (ns branch table col val pk : Bytes) : Bytes :=
  appendBin (indexColumnPrefix ns branch table col ++ val) pk

def indexValuePrefix (ns branch table col val : Bytes) : Bytes := indexColumnPrefix ns branch table col ++ val

def otelSpanKey (ns branch traceID spanID : Bytes) : Bytes :=
  appendBin (appendBin
    (appendStr (appendStr (nsRoot ns ++ branchSegment branch) (str "data")) (str "otel_spans")) traceID)
    spanID

def otelIndexKey (ns branch indexName : Bytes) (vals : List Bytes) : Bytes :=
  vals.foldl appendBin
    (appendStr (appendStr (appendStr (nsRoot ns ++ branchSegment branch) (str "idx")) (str "otel_spans"))
      indexName)

def ftsKey (ns branch table field term docID : Bytes) : Bytes :=
  appendBin (appendStr (appendStr (appendStr (appendStr (nsRoot ns ++ branchSegment branch) (str "fts"))
    table) field) term) docID

def vectorKey (ns branch table col id : Bytes) : Bytes :=
  appendBin (appendStr (appendStr (appendStr (nsRoot ns ++ branchSegment branch) (str "vec")) table) col)
    id

def schemaKey (ns table : Bytes) : Bytes :=
  appendStr (appendStr (appendStr (nsRoot ns) (str "meta")) (str "schema")) table

def branchMetaKey (ns name : Bytes) : Bytes :=
  appendStr (appendStr (appendStr (nsRoot ns) (str "meta")) (str "branches")) name

/-- The group is eight bytes, big-endian. -/
def raftKey (ns : Bytes) (groupID : Nat) (suffix : Bytes) : Bytes :=
  appendBin (appendBin (appendStr (nsRoot ns) (str "raft")) (putUint32 (groupID / 2 ^ 32) ++ putUint32 groupID)) suffix

def hlcKey (ns : Bytes) : Bytes := appendStr (appendStr (nsRoot ns) (str "hlc")) (str "ts")

def namespacePrefix (ns : Bytes) : Bytes := nsRoot ns ++ [slash]

/-! ## The areas of the key space

The keys of a namespace differ in the literal path after its root, and the names after that
path end at the first slash. -/

def dataPath : Bytes := str "/main/data/"

def indexPath : Bytes := str "/main/idx/"

def schemaPath : Bytes := str "/meta/schema/"

theorem rowPrefix_main (ns table : Bytes) :
    rowPrefix ns (str "main") table = nsRoot ns ++ (dataPath ++ (table ++ [slash])) := by
  have hpath : dataPath = str "/main" ++ slash :: (str "data" ++ [slash]) := by decide
  unfold rowPrefix appendStr branchSegment
  rw [if_pos (Or.inl rfl), hpath]
  simp only [append_assoc, cons_append, nil_append]

theorem rowKey_eq (ns branch table pk : Bytes) :
    rowKey ns branch table pk = rowPrefix ns branch table ++ (putUint32 pk.length ++ pk) := by
  simp [rowKey, rowPrefix, appendBin]

theorem rowPrefix_rowKey (ns branch table pk : Bytes) : rowPrefix ns branch table <+: rowKey ns branch table pk := by
  rw [rowKey_eq]
  exact prefix_append _ _

theorem indexColumnPrefix_main (ns table col : Bytes) :
    indexColumnPrefix ns (str "main") table col =
      nsRoot ns ++ (indexPath ++ (table ++ slash :: (col ++ [slash]))) := by
  have hpath : indexPath = str "/main" ++ slash :: (str "idx" ++ [slash]) := by decide
  unfold indexColumnPrefix appendStr branchSegment
  rw [if_pos (Or.inl rfl), hpath]
  simp only [append_assoc, cons_append, nil_append]

theorem indexKey_eq (ns branch table col val pk : Bytes) : indexKey ns branch table col val pk =
      indexColumnPrefix ns branch table col ++ (val ++ slash :: (putUint32 pk.length ++ pk)) := by
  simp [indexKey, appendBin]

theorem schemaKey_eq (ns table : Bytes) : schemaKey ns table = nsRoot ns ++ (schemaPath ++ table) := by
  have hpath : schemaPath = slash :: (str "meta" ++ slash :: (str "schema" ++ [slash])) := by decide
  unfold schemaKey appendStr
  rw [hpath]
  simp only [append_assoc, cons_append, nil_append]

variable {root p q k ns t t' x y c : Bytes}

theorem not_prefix_of_paths (hpq : ¬p <+: q) (hqp : ¬q <+: p) (a b : Bytes) :
    ¬root ++ (p ++ a) <+: root ++ (q ++ b) := by
  intro h
  have h1 : p ++ a <+: q ++ b := (prefix_append_right_inj root).mp h
  have h2 : p <+: q ++ b := (prefix_append p a).trans h1
  rcases prefix_or_prefix_of_prefix h2 (prefix_append q b) with h3 | h3
  · exact hpq h3
  · exact hqp h3

theorem not_under_both {a b : Bytes} (hpq : ¬p <+: q) (hqp : ¬q <+: p)
    (h : root ++ (p ++ a) <+: k) : ¬root ++ (q ++ b) <+: k := by
  intro h'
  rcases prefix_or_prefix_of_prefix h h' with h1 | h1
  · exact not_prefix_of_paths hpq hqp a b h1
  · exact not_prefix_of_paths hqp hpq b a h1

theorem rowKey_inj {branch table pk pk' : Bytes}
    (h : rowKey ns branch table pk = rowKey ns branch table pk') : pk = pk' := by
  rw [rowKey_eq, rowKey_eq] at h
  exact append_inj_right (append_cancel_left h) rfl

theorem name_of_slash (ht : slash ∉ t) (ht' : slash ∉ t')
    (h : t ++ slash :: x <+: t' ++ slash :: y) : t = t' ∧ x <+: y := by
  induction t generalizing t' with
  | nil =>
    cases t' with
    | nil => exact ⟨rfl, (cons_prefix_cons.mp h).2⟩
    | cons b t' =>
      obtain ⟨rfl, -⟩ := cons_prefix_cons.mp h
      exact absurd mem_cons_self ht'
  | cons a t ih =>
    cases t' with
    | nil =>
      obtain ⟨rfl, -⟩ := cons_prefix_cons.mp h
      exact absurd mem_cons_self ht
    | cons b t' =>
      obtain ⟨rfl, htail⟩ := cons_prefix_cons.mp h
      obtain ⟨rfl, hxy⟩ := ih (fun hm => ht (mem_cons_of_mem _ hm))
        (fun hm => ht' (mem_cons_of_mem _ hm)) htail
      exact ⟨rfl, hxy⟩

/-! ## Keys of different names

Two prefixes of one key are comparable, and the names in them end at a slash. -/

theorem indexColumnPrefix_indexKey (ns branch t c val pk : Bytes) :
    indexColumnPrefix ns branch t c <+: indexKey ns branch t c val pk := by
  rw [indexKey_eq]
  exact prefix_append _ _

theorem schemaKey_inj (h : schemaKey ns x = schemaKey ns y) : x = y := by
  rw [schemaKey_eq, schemaKey_eq] at h
  exact append_cancel_left (append_cancel_left h)

theorem schemaKey_root : schemaKey ns [] <+: k ↔ ∃ x, k = schemaKey ns x := by
  simp only [schemaKey_eq, append_nil]
  constructor
  · intro h
    obtain ⟨x, hx⟩ := h
    exact ⟨x, by rw [← hx, append_assoc]⟩
  · intro h
    obtain ⟨x, rfl⟩ := h
    rw [← append_assoc]
    exact prefix_append _ _

theorem row_not_entry (h : rowPrefix ns (str "main") t <+: k) :
    ¬indexColumnPrefix ns (str "main") t' c <+: k := by
  rw [rowPrefix_main] at h
  rw [indexColumnPrefix_main]
  exact not_under_both (by decide) (by decide) h

theorem row_not_schema (h : rowPrefix ns (str "main") t <+: k) :
    ¬schemaKey ns [] <+: k := by
  rw [rowPrefix_main] at h
  rw [schemaKey_eq]
  exact not_under_both (by decide) (by decide) h

/-! ## Keys of a namespace

Every key starts with the prefix of its namespace, whatever the names in it are. -/

section tenant
variable (ns)

theorem namespacePrefix_appendStr {k : Bytes} (h : namespacePrefix ns <+: k) (x : Bytes) :
    namespacePrefix ns <+: appendStr k x := h.trans (prefix_append _ _)

theorem namespacePrefix_appendBin {k : Bytes} (h : namespacePrefix ns <+: k) (x : Bytes) :
    namespacePrefix ns <+: appendBin k x := h.trans (prefix_append _ _)

theorem namespacePrefix_root (x : Bytes) : namespacePrefix ns <+: appendStr (nsRoot ns) x :=
  ⟨x, by simp [namespacePrefix, appendStr]⟩

theorem namespacePrefix_branch (b : Bytes) : namespacePrefix ns <+: nsRoot ns ++ branchSegment b := by
  unfold namespacePrefix branchSegment
  refine (prefix_append_right_inj _).mpr ?_
  split
  · exact ⟨str "main", rfl⟩
  · exact ⟨str "br/" ++ b, rfl⟩

theorem namespacePrefix_rowPrefix (b t : Bytes) : namespacePrefix ns <+: rowPrefix ns b t :=
  (namespacePrefix_appendStr ns (namespacePrefix_appendStr ns (namespacePrefix_branch ns b) _) _).trans
    (prefix_append _ _)

theorem namespacePrefix_rowKey (b t pk : Bytes) : namespacePrefix ns <+: rowKey ns b t pk :=
  (namespacePrefix_rowPrefix ns b t).trans (rowPrefix_rowKey ns b t pk)

theorem namespacePrefix_indexColumnPrefix (b t c : Bytes) : namespacePrefix ns <+: indexColumnPrefix ns b t c :=
  (namespacePrefix_appendStr ns (namespacePrefix_appendStr ns (namespacePrefix_appendStr ns
    (namespacePrefix_branch ns b) _) _) _).trans (prefix_append _ _)

theorem namespacePrefix_indexKey (b t c val pk : Bytes) : namespacePrefix ns <+: indexKey ns b t c val pk :=
  (namespacePrefix_indexColumnPrefix ns b t c).trans (indexColumnPrefix_indexKey ns b t c val pk)

theorem namespacePrefix_otelSpanKey (b tr sp : Bytes) : namespacePrefix ns <+: otelSpanKey ns b tr sp :=
  namespacePrefix_appendBin ns (namespacePrefix_appendBin ns (namespacePrefix_appendStr ns
    (namespacePrefix_appendStr ns (namespacePrefix_branch ns b) _) _) _) _

theorem namespacePrefix_schemaKey (x : Bytes) : namespacePrefix ns <+: schemaKey ns x :=
  namespacePrefix_appendStr ns (namespacePrefix_appendStr ns (namespacePrefix_root ns _) _) _

theorem namespacePrefix_branchMetaKey (x : Bytes) : namespacePrefix ns <+: branchMetaKey ns x :=
  namespacePrefix_appendStr ns (namespacePrefix_appendStr ns (namespacePrefix_root ns _) _) _

end tenant

end Storage

end BasuyuDb
