import BasuyuDb.Wire.Startup

/-
  engine/internal/wire: how the bodies of messages are taken apart, with every index, slice and make
  checked. The server has no recover, so a panic stops the process. `cString` leaves its position behind
  the end of the body when a string is not terminated, and the next read panics; `handleBind` reads counts
  and lengths without comparing them with what is left; `handleParse` makes a slice as long as the highest
  parameter number in the query. Each handler returns exactly on the bodies of one shape: `StartupShape`,
  `ParseShape`, `BindShape`, `DescribeShape`; the others check before they read.
-/

namespace BasuyuDb.Wire.Body
open KvLib Storage Executor Checked List

variable (r : Bytes) (n : Nat) (body : Bytes)

def int16 : Int := if n < 2 ^ 15 then n else n - 2 ^ 16
def int32 : Int := if n < 2 ^ 31 then n else n - 2 ^ 32
def int64 : Int := if n < 2 ^ 63 then n else n - 2 ^ 64

/-! ## SCRAM -/

/-- The SASLInitialResponse of `runSCRAM`: the client's first message, or why it is refused. -/
def runSCRAM : Checked (Except String Bytes) := do
  let (mech, pos) ← cString body 0
  if mech ≠ str "SCRAM-SHA-256" then pure (.error "scram: unsupported SASL mechanism %q")
  else if pos + 4 > body.length then pure (.error "scram: truncated SASLInitialResponse")
  else
    let initLen := int32 (← uint32At body pos)
    if initLen < 0 ∨ (pos + 4 : Nat) + initLen > body.length then
      pure (.error "scram: invalid SASLInitialResponse length %d")
    else
      let clientFirst ← slice body (pos + 4 : Nat) ((pos + 4 : Nat) + initLen)
      pure (.ok clientFirst)

/-! ## Parse -/

/-- The loop over the declared types, which stops at the end of the body. -/
def readOIDs (body : Bytes) : Nat → Nat → Checked (List Nat)
  | 0, _ => pure []
  | n + 1, pos =>
    if pos + 4 ≤ body.length then do
      let oid ← uint32At body pos
      let rest ← readOIDs body n (pos + 4)
      pure (oid :: rest)
    else pure []

/-- Behind the end of a block comment. -/
def blockEnd : Bytes → Bytes
  | 42 :: 47 :: rest => rest
  | _ :: rest => blockEnd rest
  | [] => []

/-- A number as `countParams` reads it: an int, which wraps around. -/
def paramNumber (digits : Bytes) : Int := digits.foldl (fun n b => wrap64 (n * 10 + (b.val - 48 : Nat))) 0

/-- The loop of `countParams`: whether it is inside a literal, and the highest number so far. -/
def countFrom : Nat → Bool → Int → Bytes → Int
  | fuel + 1, inStr, top, ch :: rest =>
    if !inStr && ch == 45 && rest.head? == some 45 then countFrom fuel inStr top ((rest.dropWhile fun b => b ≠ 10).drop 1)
    else if !inStr && ch == 47 && rest.head? == some 42 then countFrom fuel inStr top (blockEnd (rest.drop 1))
    else if ch = 39 then countFrom fuel (!inStr) top rest
    else if inStr || ch ≠ 36 then countFrom fuel inStr top rest
    else
      let digits := rest.takeWhile fun b => 48 ≤ b.val ∧ b.val ≤ 57
      let n := paramNumber digits
      countFrom fuel inStr (if digits ≠ [] ∧ n > top then n else top) (rest.drop digits.length)
  | _, _, top, _ => top

def countParams (sql : Bytes) : Int := countFrom sql.length false 0 sql

def OIDOid : Nat := 26
def OIDTextArr : Nat := 1009

section infer
-- the table of `strings.ToUpper`, and how many type OIDs `make` has room for
variable (L : Letters) (limit : Nat)

/-- The type of the parameter with index `i`, by what stands before its first occurrence. -/
def inferOID (sql : Bytes) (i : Nat) : Checked Nat :=
  match indexOf (36 :: formatNat (i + 1)) sql with
  | none => pure 0
  | some idx => do
    let before := toUpper L (trimSpace (← slice sql 0 idx))
    if [".OID =", ".OID=", "OID =", "OID=", "TYPELEM =", "TYPBASETYPE =", "TYPRELID ="].any (fun w => str w <:+ before) then
      pure OIDOid
    else if ["NSPNAME =", "RELNAME =", "TYPNAME =", "ATTNAME ="].any (fun w => str w <:+ before) then pure OIDText
    else
      let last ← sliceFrom before (before.length - 20)
      pure (if (indexOf (str "= ANY") last).isSome then OIDTextArr else 0)

/-- The types of `n` parameters from index `i` on. -/
def inferOIDs (sql : Bytes) : Nat → Nat → Checked (List Nat)
  | 0, _ => pure []
  | n + 1, i => do
    let oid ← inferOID L sql i
    let rest ← inferOIDs sql n (i + 1)
    pure (oid :: rest)

def inferParamOIDs (sql : Bytes) (n : Int) : Checked (List Nat) :=
  if n = 0 then pure []
  else do
    makeWithin limit n
    inferOIDs L sql n.toNat 0

structure PreparedStmt where
  sql : Bytes
  paramCount : Int
  paramOIDs : List Nat
  serverOIDs : List Nat

/-- The declared types, and their number. -/
def declaredOIDs (pos : Nat) : Checked (Int × List Nat) :=
  if pos + 2 ≤ body.length then do
    let declared := int16 (← uint16At body pos)
    makeLen declared
    let oids ← readOIDs body declared.toNat (pos + 2)
    pure (declared, oids)
  else pure (0, [])

/-- `handleParse`: the name and the statement. -/
def handleParse : Checked (Bytes × PreparedStmt) := do
  let (name, pos) ← cString body 0
  let (sql, pos) ← cString body pos
  let (declared, oids) ← declaredOIDs body pos
  let n := max (countParams sql) declared
  let inferred ← inferParamOIDs L limit sql n
  pure (name, ⟨sql, n, oids, inferred⟩)

end infer

/-! ## Bind -/

def paramIsBinary (fmtCodes : List Int) (i : Nat) : Bool :=
  match fmtCodes with
  | [] => false
  | [c] => c = 1
  | cs => cs[i]? = some 1

/-- The dimensions of a binary array; `none` when they are cut off. -/
def readDims (raw : Bytes) : Nat → Nat → Int → Checked (Option (Int × Nat))
  | 0, pos, total => pure (some (total, pos))
  | n + 1, pos, total =>
    if pos + 8 > raw.length then pure none
    else do
      let dimLen := int32 (← uint32At raw pos)
      readDims raw n (pos + 8) (wrap64 (total * dimLen))

def readElems (raw : Bytes) : Nat → Nat → Checked (List Bytes)
  | 0, _ => pure []
  | n + 1, pos =>
    if pos + 4 > raw.length then pure []
    else do
      let elemLen := int32 (← uint32At raw pos)
      if elemLen < 0 then
        let rest ← readElems raw n (pos + 4)
        pure (str "NULL" :: rest)
      else if (pos + 4 : Nat) + elemLen > raw.length then pure []
      else
        let e ← slice raw (pos + 4 : Nat) ((pos + 4 : Nat) + elemLen)
        let rest ← readElems raw n (pos + 4 + elemLen.toNat)
        pure (e :: rest)

def decodeBinaryTextArray (raw : Bytes) : Checked Bytes :=
  if raw.length < 12 then pure (str "\x7b\x7d")
  else do
    let ndim := int32 (← uint32At raw 0)
    if ndim = 0 then pure (str "\x7b\x7d")
    else
      match ← readDims raw ndim.toNat 12 1 with
      | none => pure (str "\x7b\x7d")
      | some (total, pos) =>
        let elems ← readElems raw total.toNat pos
        pure (str "\x7b" ++ [44].intercalate elems ++ str "\x7d")

section bind
-- `strconv.FormatFloat` of the bits of a float of 32 or 64 bits
variable (formatFloat : Nat → Nat → Bytes)

def decodeBinaryParam (raw : Bytes) (oid : Nat) : Checked Bytes := do
  if oid = OIDBool then pure (if raw.length = 1 ∧ raw ≠ [0] then str "t" else str "f")
  else if oid = OIDInt2 ∧ raw.length = 2 then return formatInt (int16 (← uint16At raw 0))
  else if oid = OIDInt4 ∧ raw.length = 4 then return formatInt (int32 (← uint32At raw 0))
  else if oid = OIDInt8 ∧ raw.length = 8 then return formatInt (int64 (← uint64At raw 0))
  else if oid = OIDOid ∧ raw.length = 4 then return formatNat (← uint32At raw 0)
  else if oid = OIDTextArr then decodeBinaryTextArray raw
  else if oid = OIDFloat4 ∧ raw.length = 4 then return formatFloat 32 (← uint32At raw 0)
  else if oid = OIDFloat8 ∧ raw.length = 8 then return formatFloat 64 (← uint64At raw 0)
  else if oid = 0 ∧ raw.length = 1 then pure (if raw = [0] then str "f" else str "t")
  else if oid = 0 ∧ raw.length = 2 then return formatInt (int16 (← uint16At raw 0))
  else if oid = 0 ∧ raw.length = 4 then return formatInt (int32 (← uint32At raw 0))
  else if oid = 0 ∧ raw.length = 8 then return formatInt (int64 (← uint64At raw 0))
  else pure raw

def decodeBindParam (raw : Bytes) (binary : Bool) (oid : Nat) : Checked Bytes :=
  if binary then decodeBinaryParam formatFloat raw oid else pure raw

/-- The declared type of a parameter, or the inferred one. -/
def PreparedStmt.oidOf (stmt : PreparedStmt) (i : Nat) : Nat :=
  match stmt.paramOIDs[i]? with
  | some oid => if oid ≠ 0 then oid else (stmt.serverOIDs[i]?).getD 0
  | none => (stmt.serverOIDs[i]?).getD 0

def readFmtCodes (body : Bytes) : Nat → Nat → Checked (List Int × Nat)
  | 0, pos => pure ([], pos)
  | n + 1, pos => do
    let c ← uint16At body pos
    let (cs, pos) ← readFmtCodes body n (pos + 2)
    pure (int16 c :: cs, pos)

/-- The parameter values, from number `i` on. -/
def readValues (body : Bytes) (stmt : PreparedStmt) (fmtCodes : List Int) : Nat → Nat → Nat → Checked (Data × Nat)
  | 0, _, pos => pure ([], pos)
  | n + 1, i, pos => do
    let l := int32 (← uint32At body pos)
    if l = -1 then
      let (ps, pos) ← readValues body stmt fmtCodes n (i + 1) (pos + 4)
      pure (none :: ps, pos)
    else
      let raw ← slice body (pos + 4 : Nat) ((pos + 4 : Nat) + l)
      let p ← decodeBindParam formatFloat raw (paramIsBinary fmtCodes i) (stmt.oidOf i)
      let (ps, pos) ← readValues body stmt fmtCodes n (i + 1) (pos + 4 + l.toNat)
      pure (some p :: ps, pos)

/-- The loop over the result formats, which stops at the end of the body. -/
def readFormats (body : Bytes) : Nat → Nat → Checked (List Int)
  | 0, _ => pure []
  | n + 1, pos =>
    if pos + 2 ≤ body.length then do
      let c ← uint16At body pos
      let rest ← readFormats body n (pos + 2)
      pure (int16 c :: rest)
    else pure []

def readResultFormats (body : Bytes) (pos : Nat) : Checked (List Int) :=
  if pos + 2 ≤ body.length then do
    let nRes := int16 (← uint16At body pos)
    makeLen nRes
    readFormats body nRes.toNat (pos + 2)
  else pure []

structure Portal where
  stmt : PreparedStmt
  params : Data
  resultFormats : List Int

/-- The part of `handleBind` behind the two names. -/
def bindValues (body : Bytes) (stmt : PreparedStmt) (pos : Nat) : Checked Portal := do
  let nFmt := int16 (← uint16At body pos)
  makeLen nFmt
  let (codes, pos) ← readFmtCodes body nFmt.toNat (pos + 2)
  let nParams := int16 (← uint16At body pos)
  makeLen nParams
  let (params, pos) ← readValues formatFloat body stmt codes nParams.toNat 0 (pos + 2)
  let formats ← readResultFormats body pos
  pure ⟨stmt, params, formats⟩

/-- `handleBind`: the portal and its name, or the statement that does not exist. -/
def handleBind (prepared : Bytes → Option PreparedStmt) (body : Bytes) : Checked (Except Bytes (Bytes × Portal)) := do
  let (portalName, pos) ← cString body 0
  let (stmtName, pos) ← cString body pos
  match prepared stmtName with
  | none => pure (.error stmtName)
  | some stmt =>
    let portal ← bindValues formatFloat body stmt pos
    pure (.ok (portalName, portal))

end bind

/-! ## The other bodies -/

/-- `handleDescribe`: the kind and the name, and for a statement the types of its parameters, or the statement
that does not exist. -/
def handleDescribe (L : Letters) (limit : Nat) (prepared : Bytes → Option PreparedStmt) :
    Checked (Except Bytes (Byte × Bytes × List Nat)) := do
  let kind ← indexAt body 0
  let (name, _) ← cString body 1
  if kind = 83 then
    match prepared name with
    | none => pure (.error name)
    | some stmt =>
      let oids ← inferParamOIDs L limit stmt.sql stmt.paramCount
      pure (.ok (kind, name, oids))
  else pure (.ok (kind, name, []))

/-- `handleClose`: the kind and the name; an empty body is ignored. -/
def handleClose : Checked (Option (Byte × Bytes)) :=
  if body.length < 1 then pure none
  else do
    let (name, _) ← cString body 1
    let kind ← indexAt body 0
    pure (some (kind, name))

/-- The text of a simple query. -/
def handleSimpleQuery : Checked Bytes := do
  let (sql, _) ← cString body 0
  pure sql

/-! ## What is read at a position -/

theorem nul_cases : 0 ∉ r ∨ ∃ s rest, 0 ∉ s ∧ r = s ++ 0 :: rest := by
  induction r with
  | nil => exact .inl not_mem_nil
  | cons b r ih =>
    by_cases hb : b = 0
    · exact .inr ⟨[], r, not_mem_nil, by rw [hb]; rfl⟩
    · rcases ih with hno | ⟨s, rest, hs, rfl⟩
      · exact .inl (not_mem_cons_of_ne_of_not_mem (Ne.symm hb) hno)
      · exact .inr ⟨b :: s, rest, not_mem_cons_of_ne_of_not_mem (Ne.symm hb) hs, rfl⟩

theorem takeWhile_open {s : Bytes} (hs : 0 ∉ s) : s.takeWhile (fun b => b ≠ 0) = s := by
  rw [takeWhile_eq_self_iff]
  intro b hb
  exact decide_eq_true fun h : b = 0 => hs (h ▸ hb)

section positions
variable {body s rest : Bytes} {pos : Nat}

theorem cString_terminated (hs : 0 ∉ s) (h : body.drop pos = s ++ 0 :: rest) :
    cString body pos = .ok (s, pos + s.length + 1) ∧ body.drop (pos + s.length + 1) = rest ∧
      pos + s.length + 1 ≤ body.length := by
  have hpos : pos ≤ body.length := by
    by_contra hlt
    rw [drop_of_length_le (by omega)] at h
    exact absurd (congrArg List.length h) (by simp)
  have h' : body.drop pos = (s ++ [0]) ++ rest := by rw [h, append_assoc]; rfl
  have hlen : (s ++ [0]).length = s.length + 1 := length_append
  have hdrop := drop_of_append h'
  have hle := le_of_append hpos h'
  rw [hlen] at hdrop hle
  refine ⟨?_, hdrop, hle⟩
  have hend : stringEnd body pos = pos + s.length := by rw [stringEnd, h, takeWhile_stop hs]
  unfold cString
  rw [hend, slice_at hpos h]
  rfl

theorem cString_open (hpos : pos ≤ body.length) (hs : 0 ∉ body.drop pos) :
    cString body pos = .ok (body.drop pos, body.length + 1) := by
  have h : body.drop pos = body.drop pos ++ [] := (append_nil _).symm
  have hlen : pos + (body.drop pos).length = body.length := by
    rw [length_drop]
    omega
  have hend : stringEnd body pos = pos + (body.drop pos).length := by rw [stringEnd, takeWhile_open hs]
  unfold cString
  rw [hend, slice_at hpos h, hlen]
  rfl

theorem cString_panics (h : body.length < pos) : ¬ Checked.safe (cString body pos) := by
  have hle : pos ≤ stringEnd body pos := Nat.le_add_right _ _
  unfold cString
  rw [slice_panics (by omega)]
  exact not_safe_error _

theorem cString_ok (body : Bytes) (pos : Nat) (h : pos ≤ body.length) :
    ∃ p, cString body pos = .ok ((body.drop pos).takeWhile fun b => b ≠ 0, p) := by
  rcases nul_cases (body.drop pos) with hno | ⟨s, rest, hs, heq⟩
  · exact ⟨_, by rw [takeWhile_open hno, cString_open h hno]⟩
  · exact ⟨_, by rw [heq, takeWhile_stop hs, (cString_terminated hs heq).1]⟩

end positions

/-! ## Reads that check first -/

section checked
variable (body : Bytes)

variable (n pos : Nat)

theorem readOIDs_safe : Checked.safe (readOIDs body n pos) := by
  induction n generalizing pos with
  | zero => exact safe_pure _
  | succ n ih =>
    unfold readOIDs
    split
    · rename_i hle
      obtain ⟨oid, hoid⟩ := uint32At_safe _ _ hle
      obtain ⟨rest, hrest⟩ := ih (pos + 4)
      exact ⟨oid :: rest, by rw [hoid, hrest]; rfl⟩
    · exact safe_pure _

theorem readFormats_safe : Checked.safe (readFormats body n pos) := by
  induction n generalizing pos with
  | zero => exact safe_pure _
  | succ n ih =>
    unfold readFormats
    split
    · rename_i hle
      obtain ⟨c, hc⟩ := uint16At_safe _ _ hle
      obtain ⟨rest, hrest⟩ := ih (pos + 2)
      exact ⟨int16 c :: rest, by rw [hc, hrest]; rfl⟩
    · exact safe_pure _

theorem readDims_safe (total : Int) : Checked.safe (readDims body n pos total) := by
  induction n generalizing pos total with
  | zero => exact safe_pure _
  | succ n ih =>
    unfold readDims
    split
    · exact safe_pure _
    · obtain ⟨d, hd⟩ := uint32At_safe body pos (by omega)
      rw [hd]
      exact ih _ _

theorem readElems_safe : Checked.safe (readElems body n pos) := by
  induction n generalizing pos with
  | zero => exact safe_pure _
  | succ n ih =>
    unfold readElems
    split
    · exact safe_pure _
    · obtain ⟨l, hl⟩ := uint32At_safe body pos (by omega)
      rw [hl]
      dsimp only [bind, Except.bind]
      split
      · obtain ⟨rest, hrest⟩ := ih (pos + 4)
        exact ⟨str "NULL" :: rest, by rw [hrest]; rfl⟩
      · split
        · exact safe_pure _
        · obtain ⟨rest, hrest⟩ := ih (pos + 4 + (int32 l).toNat)
          have hend : ((pos + 4 : Nat) : Int) + int32 l = (pos + 4 + (int32 l).toNat : Nat) := by omega
          rw [hend, slice_ok (by omega) (by omega)]
          exact ⟨_, by rw [hrest]; rfl⟩

theorem decodeBinaryTextArray_safe : Checked.safe (decodeBinaryTextArray body) := by
  unfold decodeBinaryTextArray
  split
  · exact safe_pure _
  · obtain ⟨n, hn⟩ := uint32At_safe body 0 (by omega)
    rw [hn]
    dsimp only [bind, Except.bind]
    split
    · exact safe_pure _
    · obtain ⟨dims, hdims⟩ := readDims_safe body (int32 n).toNat 12 1
      rw [hdims]
      cases dims with
      | none => exact safe_pure _
      | some d =>
        obtain ⟨elems, helems⟩ := readElems_safe body d.1.toNat d.2
        dsimp only
        rw [helems]
        exact safe_pure _

theorem decodeBindParam_safe (formatFloat : Nat → Nat → Bytes) (binary : Bool) (oid : Nat) :
    Checked.safe (decodeBindParam formatFloat body binary oid) := by
  have hread : ∀ (k : Nat → Bytes) {x : Checked Nat}, x.safe → Checked.safe (do return k (← x)) := by
    rintro k x ⟨n, rfl⟩
    exact ⟨k n, rfl⟩
  have h16 := fun k (h : body.length = 2) => hread k (uint16At_safe body 0 (by omega))
  have h32 := fun k (h : body.length = 4) => hread k (uint32At_safe body 0 (by omega))
  have h64 := fun k (h : body.length = 8) => hread k (uint64At_safe body 0 (by omega))
  unfold decodeBindParam
  refine safe_ite (fun _ => ?_) fun _ => safe_pure _
  unfold decodeBinaryParam
  refine safe_ite (fun _ => safe_pure _) fun _ => ?_
  refine safe_ite (fun h => h16 (fun n => formatInt (int16 n)) h.2) fun _ => ?_
  refine safe_ite (fun h => h32 (fun n => formatInt (int32 n)) h.2) fun _ => ?_
  refine safe_ite (fun h => h64 (fun n => formatInt (int64 n)) h.2) fun _ => ?_
  refine safe_ite (fun h => h32 formatNat h.2) fun _ => ?_
  refine safe_ite (fun _ => decodeBinaryTextArray_safe body) fun _ => ?_
  refine safe_ite (fun h => h32 (formatFloat 32) h.2) fun _ => ?_
  refine safe_ite (fun h => h64 (formatFloat 64) h.2) fun _ => ?_
  refine safe_ite (fun _ => safe_pure _) fun _ => ?_
  refine safe_ite (fun h => h16 (fun n => formatInt (int16 n)) h.2) fun _ => ?_
  refine safe_ite (fun h => h32 (fun n => formatInt (int32 n)) h.2) fun _ => ?_
  exact safe_ite (fun h => h64 (fun n => formatInt (int64 n)) h.2) fun _ => safe_pure _

theorem runSCRAM_safe : Checked.safe (runSCRAM body) := by
  obtain ⟨pos, hmech⟩ := cString_ok _ _ (Nat.zero_le body.length)
  unfold runSCRAM
  rw [hmech]
  dsimp only [bind, Except.bind]
  refine safe_ite (fun _ => safe_pure _) fun _ => ?_
  refine safe_ite (fun _ => safe_pure _) fun hroom => ?_
  obtain ⟨n, hn⟩ := uint32At_safe body pos (by omega)
  rw [hn]
  refine safe_ite (fun _ => safe_pure _) fun hlen => ?_
  have hend : ((pos + 4 : Nat) : Int) + int32 n = (pos + 4 + (int32 n).toNat : Nat) := by omega
  rw [hend, slice_ok (by omega) (by omega)]
  exact safe_pure _

theorem handleSimpleQuery_safe : Checked.safe (handleSimpleQuery body) := by
  obtain ⟨p, hsql⟩ := cString_ok _ _ (Nat.zero_le body.length)
  exact ⟨_, by unfold handleSimpleQuery; rw [hsql]; rfl⟩

theorem handleClose_safe : Checked.safe (handleClose body) := by
  unfold handleClose
  split
  · exact safe_pure _
  · obtain ⟨p, hname⟩ := cString_ok body 1 (by omega)
    cases body with
    | nil => exact absurd Nat.one_pos (by assumption)
    | cons b rest => exact ⟨some (b, _), by rw [hname]; rfl⟩

end checked

/-! ## Parameter types -/

section infer
variable {L : Letters} {limit : Nat} {sql : Bytes} {i : Int}

theorem countFrom_ge (fuel : Nat) (inStr : Bool) (top : Int) (s : Bytes) : top ≤ countFrom fuel inStr top s := by
  fun_induction countFrom fuel inStr top s with
  | case1 _ _ _ _ _ _ ih | case2 _ _ _ _ _ _ _ ih | case3 _ _ _ _ _ _ ih | case4 _ _ _ _ _ _ _ _ _ ih => exact ih
  | case5 fuel inStr top ch rest _ _ _ _ digits number ih =>
    refine Int.le_trans ?_ ih
    split <;> omega
  | case6 => exact Int.le_refl _

theorem inferOID_safe (j : Nat) : Checked.safe (inferOID L sql j) := by
  unfold inferOID
  split
  · exact safe_pure _
  · rename_i idx hidx
    obtain ⟨p, q, rfl, rfl, -⟩ := indexOf_eq_some hidx
    have hslice : slice (p ++ (36 :: formatNat (j + 1) ++ q)) 0 p.length = .ok p := by
      rw [show (0 : Int) = (0 : Nat) from rfl, slice_ok (Nat.zero_le _) (by simp), take_left]
      rfl
    rw [hslice]
    dsimp only [bind, Except.bind]
    refine safe_ite (fun _ => safe_pure _) fun _ => ?_
    refine safe_ite (fun _ => safe_pure _) fun _ => ?_
    rw [sliceFrom_ok (Nat.sub_le _ _)]
    exact safe_pure _

theorem inferOIDs_safe (n j : Nat) : Checked.safe (inferOIDs L sql n j) := by
  induction n generalizing j with
  | zero => exact safe_pure _
  | succ n ih =>
    obtain ⟨oid, hoid⟩ : Checked.safe (inferOID L sql j) := inferOID_safe j
    obtain ⟨rest, hrest⟩ := ih (j + 1)
    exact ⟨oid :: rest, by unfold inferOIDs; rw [hoid, hrest]; rfl⟩

theorem inferParamOIDs_safe_iff : Checked.safe (inferParamOIDs L limit sql i) ↔ 0 ≤ i ∧ i ≤ limit := by
  unfold inferParamOIDs
  by_cases hi : i = 0
  · rw [if_pos hi]
    exact ⟨fun _ => by omega, fun _ => safe_pure _⟩
  · rw [if_neg hi, makeWithin]
    by_cases hroom : 0 ≤ i ∧ i ≤ limit
    · rw [if_pos hroom]
      exact ⟨fun _ => hroom, fun _ => inferOIDs_safe _ _⟩
    · rw [if_neg hroom]
      exact ⟨(fun ⟨_, h⟩ => nomatch h), fun h => absurd h hroom⟩

/-- The body is not empty, and a statement it names has no more parameters than there is room for. -/
def DescribeShape (limit : Nat) (prepared : Bytes → Option PreparedStmt) (body : Bytes) : Prop :=
  ∃ kind name, body = kind :: name ∧ (kind = 83 → ∀ stmt, prepared (name.takeWhile fun b => b ≠ 0) = some stmt →
    0 ≤ stmt.paramCount ∧ stmt.paramCount ≤ limit)

theorem handleDescribe_safe_iff (prepared : Bytes → Option PreparedStmt) (body : Bytes) :
    Checked.safe (handleDescribe body L limit prepared) ↔ DescribeShape limit prepared body := by
  unfold DescribeShape
  cases body with
  | nil => exact ⟨(fun ⟨_, h⟩ => nomatch h), (fun ⟨_, _, h, _⟩ => nomatch h)⟩
  | cons kind name =>
    obtain ⟨p, hname⟩ := cString_ok (kind :: name) 1 (by simp)
    have hname' : cString (kind :: name) 1 = .ok (name.takeWhile fun b => b ≠ 0, p) := hname
    unfold handleDescribe
    rw [hname']
    simp only [indexAt, getElem?_cons_zero, safe_bind, Except.ok.injEq, exists_eq_left']
    constructor
    · intro h
      refine ⟨kind, name, rfl, fun hkind stmt hstmt => ?_⟩
      rw [if_pos hkind, hstmt] at h
      obtain ⟨oids, hoids, -⟩ := safe_bind.mp h
      exact inferParamOIDs_safe_iff.mp ⟨oids, hoids⟩
    · rintro ⟨k, n, heq, h⟩
      obtain ⟨rfl, rfl⟩ := List.cons.inj heq
      refine safe_ite (fun hkind => ?_) fun _ => safe_pure _
      split
      · exact safe_pure _
      · rename_i stmt hstmt
        obtain ⟨oids, hoids⟩ := inferParamOIDs_safe_iff.mpr (h hkind stmt hstmt)
        exact safe_bind.mpr ⟨oids, hoids, safe_pure _⟩

end infer

/-! ## Startup packets -/

/-- The terminated strings of a byte string, and what follows the last NUL. -/
def nulStrings : Bytes → List Bytes × Bytes
  | [] => ([], [])
  | b :: r =>
    if b = 0 then ([] :: (nulStrings r).1, (nulStrings r).2)
    else
      match nulStrings r with
      | ([], t) => ([], b :: t)
      | (s :: ss, t) => ((b :: s) :: ss, t)

/-- The strings are keys and values in turn. No key is left open: nothing follows the last NUL, or a value
does, or an empty key ends the list before. -/
def ClosedKeys : Prop :=
  (nulStrings r).2 = [] ∨ (nulStrings r).1.length % 2 = 1 ∨ ∃ i, (nulStrings r).1[2 * i]? = some []

def StartupShape : Prop := ClosedKeys (body.drop 4)

theorem nulStrings_open {r : Bytes} (h : 0 ∉ r) : nulStrings r = ([], r) := by
  induction r with
  | nil => rfl
  | cons b r ih =>
    have hb : b ≠ 0 := fun hb => h (mem_cons.mpr (.inl hb.symm))
    rw [nulStrings, if_neg hb, ih fun hm => h (mem_cons_of_mem _ hm)]

theorem nulStrings_append {s : Bytes} (h : 0 ∉ s) (r : Bytes) :
    nulStrings (s ++ 0 :: r) = (s :: (nulStrings r).1, (nulStrings r).2) := by
  induction s with
  | nil => rw [nil_append, nulStrings, if_pos rfl]
  | cons b s ih =>
    have hb : b ≠ 0 := fun hb => h (mem_cons.mpr (.inl hb.symm))
    rw [cons_append, nulStrings, if_neg hb, ih fun hm => h (mem_cons_of_mem _ hm)]

theorem closedKeys_pair {k v : Bytes} (hk : 0 ∉ k) (hne : k ≠ []) (hv : 0 ∉ v) (r : Bytes) :
    ClosedKeys (k ++ 0 :: (v ++ 0 :: r)) ↔ ClosedKeys r := by
  have hshift : (∃ i, (k :: v :: (nulStrings r).1)[2 * i]? = some []) ↔ ∃ i, (nulStrings r).1[2 * i]? = some [] := by
    constructor
    · rintro ⟨i, hi⟩
      cases i with
      | zero => exact absurd (Option.some.inj hi) hne
      | succ i => exact ⟨i, hi⟩
    · rintro ⟨i, hi⟩
      exact ⟨i + 1, hi⟩
  unfold ClosedKeys
  rw [nulStrings_append hk, nulStrings_append hv, hshift]
  simp only [length_cons, Nat.add_assoc, Nat.add_mod_right]

theorem startupLoop_safe_iff (fuel pos : Nat) (hfuel : body.length ≤ fuel + pos) :
    Checked.safe (startupLoop body fuel pos) ↔ ClosedKeys (body.drop pos) := by
  induction fuel generalizing pos with
  | zero =>
    rw [drop_of_length_le (by omega)]
    exact ⟨fun _ => .inl rfl, fun _ => safe_pure _⟩
  | succ fuel ih =>
    unfold startupLoop
    by_cases hmore : pos < body.length ∧ body[pos]? ≠ some 0
    · obtain ⟨hlt, hhead⟩ := hmore
      rw [if_pos ⟨hlt, hhead⟩, safe_bind]
      rcases nul_cases (body.drop pos) with hno | ⟨k, rest, hk, hkey⟩
      · -- the key is open, and so the value is read behind the end
        have hopen : ¬ ClosedKeys (body.drop pos) := by
          unfold ClosedKeys
          rw [nulStrings_open hno]
          rintro (hnil | hodd | ⟨i, hi⟩)
          · exact absurd (drop_eq_nil_iff.mp hnil) (by omega)
          · cases hodd
          · cases hi
        refine ⟨fun ⟨a, ha, hrest⟩ => ?_, fun h => absurd h hopen⟩
        rw [cString_open (by omega) hno] at ha
        cases ha
        obtain ⟨b, hb, -⟩ := safe_bind.mp hrest
        exact absurd ⟨b, hb⟩ (cString_panics (by omega))
      · obtain ⟨hread, hdrop, hle⟩ := cString_terminated hk hkey
        have hne : k ≠ [] := by
          rintro rfl
          rw [nil_append] at hkey
          exact hhead (by rw [← head?_drop, hkey]; rfl)
        rw [hread]
        simp only [Except.ok.injEq, exists_eq_left', safe_bind]
        rcases nul_cases (body.drop (pos + k.length + 1)) with hno | ⟨v, rest', hv, hval⟩
        · -- the value is open: the loop ends behind it
          rw [cString_open hle hno, hkey, ← hdrop]
          have hend : Checked.safe (startupLoop body fuel (body.length + 1)) := by
            refine (ih _ (by omega)).mpr ?_
            rw [drop_of_length_le (by omega)]
            exact .inl rfl
          refine ⟨fun _ => ?_, fun _ => ?_⟩
          · refine .inr (.inl ?_)
            rw [nulStrings_append hk, nulStrings_open hno]
            rfl
          · obtain ⟨ps, hps⟩ := hend
            exact ⟨_, rfl, ps, hps, safe_pure _⟩
        · obtain ⟨hread', hdrop', hle'⟩ := cString_terminated hv hval
          rw [hread', hkey, ← hdrop, hval, closedKeys_pair hk hne hv, ← hdrop', ← ih _ (by omega)]
          constructor
          · rintro ⟨a, ha, b, hb, -⟩
            cases ha
            exact ⟨b, hb⟩
          · rintro ⟨ps, hps⟩
            exact ⟨_, rfl, ps, hps, safe_pure _⟩
    · rw [if_neg hmore]
      refine ⟨fun _ => ?_, fun _ => safe_pure _⟩
      by_cases hlt : pos < body.length
      · have hzero : body[pos]? = some 0 := by
          by_contra hne
          exact hmore ⟨hlt, hne⟩
        have hcons : body.drop pos = [] ++ 0 :: body.drop (pos + 1) := by
          rw [drop_eq_getElem_cons hlt, (List.getElem?_eq_some_iff.mp hzero).2]
          rfl
        refine .inr (.inr ⟨0, ?_⟩)
        rw [hcons, nulStrings_append not_mem_nil]
        rfl
      · rw [drop_of_length_le (by omega)]
        exact .inl rfl

/-! ## Parse bodies -/

/-- The name is terminated; the highest parameter number of the query, an int that wraps around, is one there is
room for; and when the query is terminated, and two bytes follow, so are they, and they are a count that is not
negative. -/
def ParseShape (limit : Nat) (body : Bytes) : Prop :=
  ∃ name rest, 0 ∉ name ∧ body = name ++ 0 :: rest ∧ countParams (rest.takeWhile fun b => b ≠ 0) ≤ limit ∧
    ∀ sql hi lo t, 0 ∉ sql → rest = sql ++ 0 :: hi :: lo :: t → hi.val < 128 ∧ hi.val * 256 + lo.val ≤ limit

theorem two_cases : r.length < 2 ∨ ∃ hi lo t, r = hi :: lo :: t := by
  match r with
  | [] => exact .inl (by decide)
  | [b] => exact .inl (Nat.lt_succ_self _)
  | hi :: lo :: t => exact .inr ⟨hi, lo, t, rfl⟩

theorem int16_nonneg (hi lo : Byte) : 0 ≤ int16 (hi.val * 256 + lo.val) ↔ hi.val < 128 := by
  have := hi.isLt
  have := lo.isLt
  unfold int16
  split <;> omega

theorem makeLen_safe {n : Int} {α : Type} {x : Checked α} : Checked.safe (do makeLen n; x) ↔ 0 ≤ n ∧ x.safe := by
  unfold makeLen
  by_cases hn : 0 ≤ n
  · rw [if_pos hn]
    exact (and_iff_right hn).symm
  · rw [if_neg hn]
    exact ⟨(fun ⟨_, h⟩ => nomatch h), fun h => absurd h.1 hn⟩

theorem first_safe_iff {α : Type} {body : Bytes} {k : Bytes × Nat → Checked α} {P : Bytes → Prop}
    (hk : ∀ s p, body.length < p → ¬ Checked.safe (k (s, p)))
    (hP : ∀ s p, p ≤ body.length → (Checked.safe (k (s, p)) ↔ P (body.drop p))) :
    Checked.safe (cString body 0 >>= k) ↔ ∃ s rest, 0 ∉ s ∧ body = s ++ 0 :: rest ∧ P rest := by
  rw [safe_bind]
  constructor
  · rintro ⟨a, ha, hrest⟩
    rcases nul_cases body with hno | ⟨s, rest, hs, hbody⟩
    · rw [cString_open (Nat.zero_le _) hno] at ha
      cases ha
      exact absurd hrest (hk _ _ (Nat.lt_succ_self _))
    · have hdrop₀ : body.drop 0 = s ++ 0 :: rest := hbody
      obtain ⟨hread, hdrop, hle⟩ := cString_terminated hs hdrop₀
      rw [hread] at ha
      cases ha
      exact ⟨s, rest, hs, hbody, hdrop ▸ (hP _ _ hle).mp hrest⟩
  · rintro ⟨s, rest, hs, hbody, hrest⟩
    have hdrop₀ : body.drop 0 = s ++ 0 :: rest := hbody
    obtain ⟨hread, hdrop, hle⟩ := cString_terminated hs hdrop₀
    exact ⟨_, hread, (hP _ _ hle).mpr (hdrop.symm ▸ hrest)⟩

section parse
variable {L : Letters} {limit : Nat} {body sql : Bytes} {pos : Nat}

theorem declaredOIDs_short (h : ¬ pos + 2 ≤ body.length) : declaredOIDs body pos = .ok (0, []) := if_neg h

theorem declaredOIDs_safe_iff {hi lo : Byte} {t : Bytes} (hpos : pos ≤ body.length) (h : body.drop pos = hi :: lo :: t)
    {α : Type} {k : Int × List Nat → Checked α} {P : Prop}
    (hk : ∀ oids, Checked.safe (k ((hi.val * 256 + lo.val : Nat), oids)) ↔ P) :
    Checked.safe (declaredOIDs body pos >>= k) ↔ hi.val < 128 ∧ P := by
  have hroom : pos + 2 ≤ body.length := le_of_append (s := [hi, lo]) hpos h
  obtain ⟨oids, hoids⟩ := readOIDs_safe body (int16 (hi.val * 256 + lo.val)).toNat (pos + 2)
  unfold declaredOIDs
  rw [if_pos hroom, uint16At_cons h]
  by_cases hsign : hi.val < 128
  · have := lo.isLt
    have hint : int16 (hi.val * 256 + lo.val) = (hi.val * 256 + lo.val : Nat) := if_pos (by omega)
    rw [and_iff_right hsign, ← hk oids]
    dsimp only [bind, Except.bind]
    rw [makeLen, if_pos ((int16_nonneg hi lo).mpr hsign), hoids, hint]
    rfl
  · refine iff_of_false ?_ fun hP => hsign hP.1
    dsimp only [bind, Except.bind]
    rw [makeLen, if_neg fun h => hsign ((int16_nonneg hi lo).mp h)]
    exact not_safe_error _

theorem prepared_safe_iff {declared : Int} {α : Type} {f : List Nat → α} (h : 0 ≤ declared) :
    Checked.safe (do let oids ← inferParamOIDs L limit sql (max (countParams sql) declared); pure (f oids)) ↔
      countParams sql ≤ limit ∧ declared ≤ limit := by
  have hcount : 0 ≤ countParams sql := countFrom_ge _ _ _ _
  have hmake : Checked.safe (inferParamOIDs L limit sql (max (countParams sql) declared)) ↔ _ := inferParamOIDs_safe_iff
  rw [safe_bind]
  constructor
  · rintro ⟨oids, hoids, -⟩
    have := hmake.mp ⟨oids, hoids⟩
    omega
  · intro h
    obtain ⟨oids, hoids⟩ := hmake.mpr (by omega)
    exact ⟨oids, hoids, safe_pure _⟩

theorem handleParse_safe_iff : Checked.safe (handleParse body L limit) ↔ ParseShape limit body := by
  unfold handleParse ParseShape
  refine first_safe_iff (fun _ _ h => not_safe_bind (cString_panics h)) fun _ pos hle => ?_
  rw [safe_bind]
  rcases nul_cases (body.drop pos) with hno | ⟨sql, tail, hsql, hrest⟩
  · -- the query is open: no count is read
    rw [cString_open hle hno, takeWhile_open hno]
    simp only [Except.ok.injEq, exists_eq_left']
    rw [declaredOIDs_short (by omega)]
    refine (prepared_safe_iff (Int.le_refl _)).trans (and_congr_right fun _ => iff_of_true (Int.natCast_nonneg _) ?_)
    intro sql hi lo t _ heq
    rw [heq] at hno
    exact absurd (mem_append_right _ mem_cons_self) hno
  · obtain ⟨hread, hdrop, hle'⟩ := cString_terminated hsql hrest
    rw [hread, hrest, takeWhile_stop hsql]
    simp only [Except.ok.injEq, exists_eq_left']
    rcases two_cases tail with hshort | ⟨hi, lo, t, rfl⟩
    · have hlen := congrArg List.length hdrop
      rw [length_drop] at hlen
      rw [declaredOIDs_short (by omega)]
      refine (prepared_safe_iff (Int.le_refl _)).trans (and_congr_right fun _ => iff_of_true (Int.natCast_nonneg _) ?_)
      intro sql' hi lo t hsql' heq
      obtain ⟨-, rfl⟩ := append_stop_inj hsql hsql' heq
      exact absurd hshort (by simp)
    · refine (declaredOIDs_safe_iff hle' hdrop fun oids => prepared_safe_iff (Int.natCast_nonneg _)).trans ?_
      constructor
      · rintro ⟨hsign, hcount, hdeclared⟩
        refine ⟨hcount, fun sql' hi' lo' t' hsql' heq => ?_⟩
        obtain ⟨-, htail⟩ := append_stop_inj hsql hsql' heq
        obtain ⟨rfl, hlo⟩ := List.cons.inj htail
        obtain ⟨rfl, -⟩ := List.cons.inj hlo
        exact ⟨hsign, Int.ofNat_le.mp hdeclared⟩
      · rintro ⟨hcount, h⟩
        obtain ⟨hsign, hdeclared⟩ := h sql hi lo t hsql rfl
        exact ⟨hsign, hcount, Int.ofNat_le.mpr hdeclared⟩

theorem handleParse_count {name : Bytes} {stmt : PreparedStmt} (h : handleParse body L limit = .ok (name, stmt)) :
    0 ≤ stmt.paramCount ∧ stmt.paramCount ≤ limit := by
  unfold handleParse at h
  obtain ⟨a, -, h⟩ := bind_ok.mp h
  obtain ⟨b, -, h⟩ := bind_ok.mp h
  obtain ⟨d, -, h⟩ := bind_ok.mp h
  obtain ⟨oids, hoids, h⟩ := bind_ok.mp h
  obtain ⟨-, rfl⟩ := Prod.mk.inj (Except.ok.inj h)
  exact inferParamOIDs_safe_iff.mp ⟨oids, hoids⟩

end parse

/-! ## Bind bodies -/

/-- A parameter value: the length -1 for NULL, or its length and its bytes. -/
def paramBytes : Option Bytes → Bytes
  | none => putUint32 (2 ^ 32 - 1)
  | some raw => putUint32 raw.length ++ raw

/-- What follows the two names: a count of format codes and the codes, a count of values and the values, and
a rest that is too short for a count or starts with one that is not negative. -/
def BoundValues : Prop :=
  ∃ (n : Nat) (codes : Bytes) (params : List (Option Bytes)) (tail : Bytes), r = putUint16 n ++ codes ++ (putUint16 params.length ++ params.flatMap paramBytes ++ tail) ∧
    n < 2 ^ 15 ∧ codes.length = 2 * n ∧ params.length < 2 ^ 15 ∧
    (∀ raw, some raw ∈ params → raw.length < 2 ^ 31) ∧
    ∀ hi lo t, tail = hi :: lo :: t → hi.val < 128

/-- The name of the portal is terminated; and the statement does not exist, or its name is terminated and the
values follow. -/
def BindShape (prepared : Bytes → Option PreparedStmt) (body : Bytes) : Prop :=
  ∃ portal rest, 0 ∉ portal ∧ body = portal ++ 0 :: rest ∧ (prepared (rest.takeWhile fun b => b ≠ 0) = none ∨
      ∃ stmt values, 0 ∉ stmt ∧ rest = stmt ++ 0 :: values ∧ BoundValues values)

theorem putUint16_eq (hi lo : Byte) : putUint16 (hi.val * 256 + lo.val) = [hi, lo] := by
  have := hi.isLt
  have := lo.isLt
  simp only [putUint16, List.cons.injEq, Fin.ext_iff, Fin.ofNat, and_true]
  omega

section values
variable {body : Bytes} {pos : Nat} {n p l : Nat} {r : Bytes}

theorem uint16At_count (hn : n < 2 ^ 15) (h : body.drop pos = putUint16 n ++ r) :
    uint16At body pos = .ok n ∧ int16 n = n := by
  refine ⟨?_, if_pos hn⟩
  rw [uint16At_cons h]
  simp only [Fin.ofNat, Except.ok.injEq]
  omega

theorem uint16At_bytes (hpos : pos ≤ body.length) (h : uint16At body pos = .ok n)
    (hlen : makeLen (int16 n) = .ok ()) :
    body.drop pos = putUint16 n ++ body.drop (pos + 2) ∧ pos + 2 ≤ body.length ∧ n < 2 ^ 15 := by
  obtain ⟨hi, lo, r, hdrop, rfl⟩ := uint16At_ok h
  have hrest : body.drop (pos + 2) = r := drop_of_append (s := [hi, lo]) hdrop
  have hlt : hi.val < 128 := (int16_nonneg hi lo).mp (by
    by_contra hneg
    rw [makeLen, if_neg hneg] at hlen
    exact nomatch hlen)
  have := lo.isLt
  refine ⟨?_, le_of_append (s := [hi, lo]) hpos hdrop, by omega⟩
  rw [putUint16_eq, hdrop, hrest]
  rfl

theorem readFmtCodes_ok {cs : List Int} (hpos : pos ≤ body.length)
    (h : readFmtCodes body n pos = .ok (cs, p)) : p = pos + 2 * n ∧ p ≤ body.length := by
  induction n generalizing pos cs p with
  | zero =>
    obtain ⟨-, rfl⟩ := Prod.mk.inj (Except.ok.inj h)
    exact ⟨rfl, hpos⟩
  | succ n ih =>
    unfold readFmtCodes at h
    obtain ⟨c, hc, h⟩ := bind_ok.mp h
    obtain ⟨⟨cs', p'⟩, hrest, h⟩ := bind_ok.mp h
    obtain ⟨-, rfl⟩ := Prod.mk.inj (Except.ok.inj h)
    obtain ⟨hi, lo, r, hdrop, -⟩ := uint16At_ok hc
    have hroom : pos + 2 ≤ body.length := le_of_append (s := [hi, lo]) hpos hdrop
    obtain ⟨hp, hle⟩ := ih hroom hrest
    omega

theorem readFmtCodes_safe (h : pos + 2 * n ≤ body.length) :
    ∃ cs, readFmtCodes body n pos = .ok (cs, pos + 2 * n) := by
  induction n generalizing pos with
  | zero => exact ⟨[], rfl⟩
  | succ n ih =>
    obtain ⟨c, hc⟩ := uint16At_safe body pos (by omega)
    obtain ⟨cs, hcs⟩ := ih (show (pos + 2) + 2 * n ≤ body.length by omega)
    refine ⟨int16 c :: cs, ?_⟩
    unfold readFmtCodes
    rw [hc, hcs, show pos + 2 + 2 * n = pos + 2 * (n + 1) by omega]
    rfl

variable {formatFloat : Nat → Nat → Bytes} {stmt : PreparedStmt} {codes : List Int}

theorem uint32At_bytes (hpos : pos ≤ body.length) (h : uint32At body pos = .ok l) :
    body.drop pos = putUint32 l ++ body.drop (pos + 4) ∧ pos + 4 ≤ body.length ∧ l < 2 ^ 32 := by
  obtain ⟨hlt, r, hdrop⟩ := uint32At_inv h
  have hrest : body.drop (pos + 4) = r := drop_of_append hdrop
  exact ⟨by rw [hdrop, hrest], le_of_append hpos hdrop, hlt⟩

theorem slice_value {raw : Bytes} (hlt : l < 2 ^ 32) (h : slice body pos (pos + int32 l) = .ok raw) :
    l < 2 ^ 31 ∧ raw.length = l ∧ pos + l ≤ body.length ∧ body.drop pos = raw ++ body.drop (pos + l) := by
  by_cases hl : l < 2 ^ 31
  · rw [int32, if_pos hl] at h
    by_cases hle : pos + l ≤ body.length
    · rw [show (pos : Int) + (l : Nat) = (pos + l : Nat) from (Int.natCast_add ..).symm, slice_ok (Nat.le_add_right _ _) hle] at h
      cases h
      rw [drop_take, Nat.add_sub_cancel_left, ← drop_drop, take_append_drop, length_take, length_drop]
      exact ⟨hl, by omega, hle, rfl⟩
    · rw [slice_panics (by omega)] at h
      cases h
  · rw [int32, if_neg hl, slice_panics (by omega)] at h
    cases h

theorem readValues_ok {i : Nat} {ps : Data} (hpos : pos ≤ body.length)
    (h : readValues formatFloat body stmt codes n i pos = .ok (ps, p)) :
    ∃ params : List (Option Bytes), params.length = n ∧ body.drop pos = params.flatMap paramBytes ++ body.drop p ∧
      p ≤ body.length ∧ ∀ raw, some raw ∈ params → raw.length < 2 ^ 31 := by
  induction n generalizing pos i ps p with
  | zero =>
    obtain ⟨-, rfl⟩ := Prod.mk.inj (Except.ok.inj h)
    exact ⟨[], rfl, rfl, hpos, nofun⟩
  | succ n ih =>
    unfold readValues at h
    obtain ⟨l, hl, h⟩ := bind_ok.mp h
    obtain ⟨hdrop, hroom, hlt⟩ := uint32At_bytes hpos hl
    by_cases hnull : int32 l = -1
    · rw [if_pos hnull] at h
      obtain ⟨⟨ps', p'⟩, hrest, h⟩ := bind_ok.mp h
      obtain ⟨-, rfl⟩ := Prod.mk.inj (Except.ok.inj h)
      obtain ⟨params, hlen, hparams, hle, hshort⟩ := ih hroom hrest
      have hl' : l = 2 ^ 32 - 1 := by
        unfold int32 at hnull
        split at hnull <;> omega
      refine ⟨none :: params, by rw [length_cons, hlen], ?_, hle, ?_⟩
      · rw [flatMap_cons, append_assoc, ← hparams, hdrop, hl']
        rfl
      · intro raw hraw
        exact hshort raw ((mem_cons.mp hraw).resolve_left nofun)
    · rw [if_neg hnull] at h
      obtain ⟨raw, hraw, h⟩ := bind_ok.mp h
      obtain ⟨d, -, h⟩ := bind_ok.mp h
      obtain ⟨⟨ps', p'⟩, hrest, h⟩ := bind_ok.mp h
      obtain ⟨-, rfl⟩ := Prod.mk.inj (Except.ok.inj h)
      obtain ⟨hl31, hlenraw, hend, hdropr⟩ := slice_value hlt hraw
      rw [int32, if_pos hl31, Int.toNat_natCast] at hrest
      obtain ⟨params, hlen, hparams, hle, hshort⟩ := ih hend hrest
      refine ⟨some raw :: params, by rw [length_cons, hlen], ?_, hle, ?_⟩
      · rw [flatMap_cons, append_assoc, ← hparams, hdrop, hdropr, paramBytes, hlenraw, append_assoc]
      · intro raw' hraw'
        rcases mem_cons.mp hraw' with heq | hmem
        · rw [Option.some.inj heq, hlenraw]
          exact hl31
        · exact hshort raw' hmem

variable (formatFloat stmt codes) in
theorem readValues_safe {params : List (Option Bytes)} {tail : Bytes} (i : Nat) (hpos : pos ≤ body.length)
    (hshort : ∀ raw, some raw ∈ params → raw.length < 2 ^ 31) (h : body.drop pos = params.flatMap paramBytes ++ tail) :
    ∃ ps p, readValues formatFloat body stmt codes params.length i pos = .ok (ps, p) ∧ p ≤ body.length ∧ body.drop p = tail := by
  induction params generalizing pos i with
  | nil => exact ⟨[], pos, rfl, hpos, h⟩
  | cons v params ih =>
    rw [flatMap_cons, append_assoc] at h
    have hshort' : ∀ raw, some raw ∈ params → raw.length < 2 ^ 31 := fun raw hraw => hshort raw (mem_cons_of_mem _ hraw)
    cases v with
    | none =>
      have hl := uint32At_putUint32 (by decide) h
      have hle : pos + 4 ≤ body.length := le_of_append (s := putUint32 _) hpos h
      obtain ⟨ps, p, hread, hrest⟩ := ih (i + 1) hle hshort' (drop_of_append (s := putUint32 _) h)
      refine ⟨none :: ps, p, ?_, hrest⟩
      rw [length_cons]
      unfold readValues
      exact bind_ok.mpr ⟨_, hl, bind_ok.mpr ⟨_, hread, rfl⟩⟩
    | some raw =>
      have hraw := hshort raw mem_cons_self
      rw [paramBytes, append_assoc] at h
      have hl := uint32At_putUint32 (by omega) h
      have hle : pos + 4 ≤ body.length := le_of_append (s := putUint32 _) hpos h
      have hdrop : body.drop (pos + 4) = raw ++ (params.flatMap paramBytes ++ tail) := drop_of_append (s := putUint32 _) h
      obtain ⟨d, hd⟩ := decodeBindParam_safe raw formatFloat (paramIsBinary codes i) (stmt.oidOf i)
      obtain ⟨ps, p, hread, hrest⟩ := ih (i + 1) (le_of_append hle hdrop) hshort' (drop_of_append hdrop)
      refine ⟨some d :: ps, p, ?_, hrest⟩
      rw [length_cons]
      unfold readValues
      refine bind_ok.mpr ⟨_, hl, ?_⟩
      have hint : int32 raw.length = raw.length := if_pos hraw
      rw [hint, if_neg (by omega)]
      refine bind_ok.mpr ⟨raw, slice_at hle hdrop, bind_ok.mpr ⟨d, hd, bind_ok.mpr ⟨_, hread, rfl⟩⟩⟩

theorem readResultFormats_safe_iff (hpos : pos ≤ body.length) :
    Checked.safe (readResultFormats body pos) ↔ ∀ hi lo t, body.drop pos = hi :: lo :: t → hi.val < 128 := by
  unfold readResultFormats
  rcases two_cases (body.drop pos) with hshort | ⟨hi, lo, t, hdrop⟩
  · have hlen := length_drop (i := pos) (l := body)
    rw [if_neg (by omega)]
    refine ⟨fun _ hi lo t heq => ?_, fun _ => safe_pure _⟩
    rw [heq] at hshort
    exact nomatch hshort
  · have hroom : pos + 2 ≤ body.length := le_of_append (s := [hi, lo]) hpos hdrop
    rw [if_pos hroom, uint16At_cons hdrop]
    refine Iff.trans makeLen_safe ?_
    rw [int16_nonneg, hdrop]
    constructor
    · rintro ⟨hlt, -⟩ hi' lo' t' heq
      rwa [← (List.cons.inj heq).1]
    · exact fun h => ⟨h hi lo t rfl, readFormats_safe _ _ _⟩

theorem bindValues_safe_iff (hpos : pos ≤ body.length) :
    Checked.safe (bindValues formatFloat body stmt pos) ↔ BoundValues (body.drop pos) := by
  constructor
  · rintro ⟨portal, h⟩
    unfold bindValues at h
    obtain ⟨n, hn, h⟩ := bind_ok.mp h
    obtain ⟨⟨⟩, hnlen, h⟩ := bind_ok.mp h
    obtain ⟨⟨cs, p⟩, hcs, h⟩ := bind_ok.mp h
    obtain ⟨m, hm, h⟩ := bind_ok.mp h
    obtain ⟨⟨⟩, hmlen, h⟩ := bind_ok.mp h
    obtain ⟨⟨ps, q⟩, hps, h⟩ := bind_ok.mp h
    obtain ⟨formats, hformats, -⟩ := bind_ok.mp h
    obtain ⟨hdrop, hroom, hn15⟩ := uint16At_bytes hpos hn hnlen
    rw [int16, if_pos hn15, Int.toNat_natCast] at hcs
    obtain ⟨rfl, hple⟩ := readFmtCodes_ok hroom hcs
    obtain ⟨hdrop', hroom', hm15⟩ := uint16At_bytes hple hm hmlen
    rw [int16, if_pos hm15, Int.toNat_natCast] at hps
    obtain ⟨params, rfl, hparams, hqle, hshort⟩ := readValues_ok hroom' hps
    refine ⟨n, (body.drop (pos + 2)).take (2 * n), params, body.drop q, ?_, hn15, ?_, hm15, hshort, ?_⟩
    · have htake := take_append_drop (2 * n) (body.drop (pos + 2))
      rw [drop_drop] at htake
      rw [append_assoc (putUint16 params.length), ← hparams, ← hdrop', append_assoc, htake, ← hdrop]
    · rw [length_take, length_drop]
      omega
    · exact (readResultFormats_safe_iff hqle).mp ⟨formats, hformats⟩
  · rintro ⟨n, codes, params, tail, hdrop, hn, hcodes, hparams, hshort, htail⟩
    rw [append_assoc (putUint16 n)] at hdrop
    obtain ⟨hread, hint⟩ := uint16At_count hn hdrop
    have hroom : pos + 2 ≤ body.length := le_of_append (s := putUint16 n) hpos hdrop
    have hdrop₁ : body.drop (pos + 2) = _ := drop_of_append (s := putUint16 n) hdrop
    have hroom₁ := le_of_append hroom hdrop₁
    have hdrop₂ := drop_of_append hdrop₁
    rw [hcodes] at hroom₁ hdrop₂
    rw [append_assoc] at hdrop₂
    obtain ⟨hread', hint'⟩ := uint16At_count hparams hdrop₂
    have hroom₂ : pos + 2 + 2 * n + 2 ≤ body.length := le_of_append (s := putUint16 params.length) hroom₁ hdrop₂
    have hdrop₃ : body.drop (pos + 2 + 2 * n + 2) = _ := drop_of_append (s := putUint16 params.length) hdrop₂
    obtain ⟨cs, hcs⟩ := readFmtCodes_safe hroom₁
    obtain ⟨ps, p, hps, hple, hpdrop⟩ := readValues_safe formatFloat stmt cs 0 hroom₂ hshort hdrop₃
    obtain ⟨formats, hformats⟩ := (readResultFormats_safe_iff hple).mpr (by rw [hpdrop]; exact htail)
    refine ⟨⟨stmt, ps, formats⟩, ?_⟩
    unfold bindValues
    refine bind_ok.mpr ⟨n, hread, ?_⟩
    rw [hint]
    refine bind_ok.mpr ⟨(), if_pos (by omega), bind_ok.mpr ⟨_, hcs, bind_ok.mpr ⟨_, hread', ?_⟩⟩⟩
    rw [hint']
    exact bind_ok.mpr ⟨(), if_pos (by omega), bind_ok.mpr ⟨_, hps, bind_ok.mpr ⟨_, hformats, rfl⟩⟩⟩

theorem bindValues_panics (h : body.length < pos) : ¬ Checked.safe (bindValues formatFloat body stmt pos) := by
  refine not_safe_bind fun ⟨n, hn⟩ => ?_
  obtain ⟨hi, lo, r, hdrop, -⟩ := uint16At_ok hn
  exact absurd (lt_of_drop_cons hdrop) (by omega)

theorem handleBind_safe_iff (prepared : Bytes → Option PreparedStmt) (body : Bytes) :
    Checked.safe (handleBind formatFloat prepared body) ↔ BindShape prepared body := by
  unfold handleBind BindShape
  refine first_safe_iff (fun _ _ h => not_safe_bind (cString_panics h)) fun _ pos hle => ?_
  rw [safe_bind]
  rcases nul_cases (body.drop pos) with hno | ⟨name, values, hname, hrest⟩
  · rw [cString_open hle hno, takeWhile_open hno]
    simp only [Except.ok.injEq, exists_eq_left']
    cases hstmt : prepared (body.drop pos) with
    | none => exact ⟨fun _ => .inl rfl, fun _ => safe_pure _⟩
    | some stmt =>
      constructor
      · intro h
        exact absurd h (not_safe_bind (bindValues_panics (Nat.lt_succ_self _)))
      · rintro (h | ⟨stmt', values, -, heq, -⟩)
        · cases h
        · exact absurd (mem_append_right _ mem_cons_self) (heq ▸ hno)
  · obtain ⟨hread', hdrop', hle'⟩ := cString_terminated hname hrest
    have hvalues : (∃ stmt values, 0 ∉ stmt ∧ body.drop pos = stmt ++ 0 :: values ∧ BoundValues values) ↔
        BoundValues values := by
      constructor
      · rintro ⟨name', values', hname', heq, h⟩
        obtain ⟨-, rfl⟩ := append_stop_inj hname hname' (hrest.symm.trans heq)
        exact h
      · exact fun h => ⟨name, values, hname, hrest, h⟩
    rw [hread', hvalues, hrest, takeWhile_stop hname]
    simp only [Except.ok.injEq, exists_eq_left']
    cases hstmt : prepared name with
    | none => exact ⟨fun _ => .inl rfl, fun _ => safe_pure _⟩
    | some stmt =>
      have hsafe : Checked.safe (bindValues formatFloat body stmt _) ↔ _ := bindValues_safe_iff hle'
      rw [hdrop'] at hsafe
      rw [safe_bind, or_iff_right (by simp), ← hsafe]
      exact exists_congr fun p => and_iff_left (safe_pure _)

end values

/-! ## All bodies -/

end BasuyuDb.Wire.Body
