import BasuyuDb.Lib.Slices
import BasuyuDb.Lib.Text
import BasuyuDb.Storage.Keys

/-
  engine/internal/wire/conn.go, normalizeSQLForParsing: the rewrites of a statement text before it is
  parsed, with every slice checked. The server has no recover, so a panic stops the process.

  `stripSchemaQualifiers` slices up to a closing double quote that need not be there. The AT TIME ZONE loop
  and the removal of locking clauses search the upper-cased text and cut the text itself at the positions
  they find. So the rewrites return exactly when every quoted identifier is closed, the positions lie in the
  text (`CutsFit`) and the loop ends, which holds of texts whose runes keep their length in upper case.
-/

namespace BasuyuDb.Wire.Normalize
open KvLib Storage Checked List

variable (L : Letters)

/-! ## Statements that are answered and not run -/

def noopPrefixes : List Bytes :=
  [
    "CREATE FUNCTION ", "CREATE OR REPLACE FUNCTION ", "CREATE TRIGGER ", "CREATE OR REPLACE TRIGGER ",
    "CREATE CONSTRAINT TRIGGER ", "DROP FUNCTION ", "DROP TRIGGER ", "ALTER FUNCTION ", "COMMENT ON ",
    "CREATE AGGREGATE ", "CREATE OPERATOR ", "CREATE RULE ", "ALTER SEQUENCE ", "CREATE DOMAIN ",
    "CREATE COLLATION ", "GRANT ", "REVOKE ", "CREATE DATABASE ", "DROP DATABASE ", "CREATE USER ",
    "DROP USER ", "ALTER USER ", "CREATE ROLE ", "DROP ROLE ", "ALTER ROLE ", "CREATE GROUP ", "DROP GROUP ",
    "CREATE PUBLICATION ", "DROP PUBLICATION ", "CREATE SUBSCRIPTION ", "DROP SUBSCRIPTION ",
    "ALTER PUBLICATION ", "ALTER SUBSCRIPTION ", "CREATE SERVER ", "DROP SERVER ", "CREATE FOREIGN ",
    "DROP FOREIGN ", "CREATE TABLESPACE ", "DROP TABLESPACE ", "CREATE EVENT TRIGGER ", "DROP EVENT TRIGGER ",
    "ALTER EVENT TRIGGER ", "CREATE CAST ", "DROP CAST ", "REASSIGN OWNED ", "SECURITY LABEL ",
    "IMPORT FOREIGN SCHEMA", "ALTER SYSTEM ", "CHECKPOINT ", "PREPARE TRANSACTION ", "COMMIT PREPARED ",
    "ROLLBACK PREPARED ", "MERGE ", "SELECT INTO ", "CLUSTER ", "CREATE TEXT SEARCH ", "DROP TEXT SEARCH ",
    "ALTER TEXT SEARCH "].map str

def noopWords : List Bytes := [str "CHECKPOINT", str "CLUSTER"]

def noopSentinel : Bytes := str "__BASUYUDB_NOOP__"

variable (sql : Bytes)

def isNoop : Bool :=
  let upperTrimmed := trimSpace (toUpper L sql)
  noopPrefixes.any (fun p => decide (p <+: upperTrimmed)) || upperTrimmed ∈ noopWords

/-! ## Quotes -/

def squote : Byte := 39

def dquote : Byte := 34

/-- The rest of a single-quoted literal, with its closing quote, and what follows it. -/
def literal (rest : Bytes) : Bytes × Bytes :=
  let body := rest.takeWhile (fun c => c ≠ squote)
  (rest.take (body.length + 1), rest.drop (body.length + 1))

/-- The quoted identifier at the start of a text: the loop stops at the closing quote or at the end, and
the slice is up to behind where it stopped. -/
def quotedIdent (s : Bytes) : Checked (Bytes × Bytes) := do
  let j := 1 + ((s.drop 1).takeWhile fun c => c ≠ dquote).length
  let ident ← slice s 0 (j + 1 : Nat)
  pure (ident, s.drop (j + 1))

/-- A dot and another quoted identifier follow. -/
def dotted (s : Bytes) : Bool := s.take 2 = [46, dquote]

/-- The loop of `stripSchemaQualifiers` from a position on; every round passes at least one byte. -/
def stripFrom : Nat → Bytes → Checked Bytes
  | 0, _ => pure []
  | _ + 1, [] => pure []
  | n + 1, c :: rest =>
    if c = squote then do
      let (lit, after) := literal rest
      pure (c :: lit ++ (← stripFrom n after))
    else if c = dquote then do
      let (firstIdent, after) ← quotedIdent (c :: rest)
      if dotted after then do
        let (secondIdent, after) ← quotedIdent (after.drop 1)
        if dotted after then do
          let (thirdIdent, after) ← quotedIdent (after.drop 1)
          pure (thirdIdent ++ (← stripFrom n after))
        else pure (secondIdent ++ (← stripFrom n after))
      else pure (firstIdent ++ (← stripFrom n after))
    else do pure (c :: (← stripFrom n rest))

def stripSchemaQualifiers : Checked Bytes := stripFrom sql.length sql

/-- A quoted identifier with a blank in it keeps its quotes. -/
def unquoted (inner : Bytes) : Bytes :=
  if inner.any (fun c => c ∈ str " \t\n") then dquote :: inner ++ [dquote] else inner

/-- The loop of `unquoteIdentifiers` from a position on. -/
def unquoteFrom : Nat → Bytes → Checked Bytes
  | 0, _ => pure []
  | _ + 1, [] => pure []
  | n + 1, c :: rest =>
    if c = dquote then do
      let j := 1 + (rest.takeWhile fun c => c ≠ dquote).length
      let inner ← slice (c :: rest) 1 (j : Nat)
      pure (unquoted inner ++ (← unquoteFrom n ((c :: rest).drop (j + 1))))
    else if c = squote then do
      let (lit, after) := literal rest
      pure (c :: lit ++ (← unquoteFrom n after))
    else do pure (c :: (← unquoteFrom n rest))

def unquoteIdentifiers : Checked Bytes := unquoteFrom sql.length sql

/-! ## AT TIME ZONE -/

def tzMarker : Bytes := str " AT TIME ZONE "

/-- The time zone at the start of a text and what follows it; none when its quote is not closed. -/
def tzArgument (rest : Bytes) : Checked (Option (Bytes × Bytes)) :=
  if rest.head? = some squote then do
    let body ← sliceFrom rest 1
    match indexOf [squote] body with
    | none => pure none
    | some e => do
      let tz ← slice rest 1 (e + 1 : Nat)
      let after ← sliceFrom rest (e + 2)
      pure (some (tz, after))
  else
    match rest.findIdx? (fun c => c ∈ str " ,);\t\n") with
    | none => pure (some (rest, []))
    | some e => do
      let tz ← slice rest 0 (e : Nat)
      let after ← sliceFrom rest e
      pure (some (tz, after))

/-- One round of `rewriteAtTimeZone`; none ends the loop. -/
def tzStep : Checked (Option Bytes) :=
  match indexOf tzMarker (toUpper L sql) with
  | none => pure none
  | some idx => do
    let rest ← sliceFrom sql (idx + tzMarker.length)
    match ← tzArgument (trimSpace rest) with
    | none => pure none
    | some (tz, after) => do
      let expr ← slice sql 0 (idx : Nat)
      pure (some (str "timezone('" ++ (tz ++ (str "', " ++ (trimSpace expr ++ (str ")" ++ after))))))

/-- `rewriteAtTimeZone`, for so many rounds; none when they do not suffice. -/
def rewriteAtTimeZone : Nat → Bytes → Option (Checked Bytes)
  | 0, _ => none
  | n + 1, sql =>
    match tzStep L sql with
    | .error e => some (.error e)
    | .ok none => some (.ok sql)
    | .ok (some sql') => rewriteAtTimeZone n sql'

/-! ## The rewrites -/

def contains (s w : Bytes) : Bool := (indexOf w s).isSome

def joinWords : List (Bytes × Bytes) :=
  [(str "LEFT OUTER JOIN", str "LEFT JOIN"), (str "left outer join", str "left join"),
    (str "RIGHT OUTER JOIN", str "RIGHT JOIN"), (str "right outer join", str "right join"),
    (str "FULL OUTER JOIN", str "FULL JOIN"), (str "full outer join", str "full join")]

def rewriteSimilar : Bytes :=
  let sql := if contains (toUpper L sql) (str " SIMILAR TO ") then
      replaceAll [(str " SIMILAR TO ", str " LIKE "), (str " similar to ", str " LIKE ")] sql
    else sql
  if contains (toUpper L sql) (str " NOT SIMILAR TO ") then
    replaceAll [(str " NOT SIMILAR TO ", str " NOT LIKE "), (str " not similar to ", str " NOT LIKE ")] sql
  else sql

def normalizeIsolation : Bytes :=
  let upper2 := toUpper L sql
  if (contains upper2 (str "SERIALIZABLE") || contains upper2 (str "REPEATABLE READ")) &&
      (contains upper2 (str "ISOLATION LEVEL") || contains upper2 (str "TRANSACTION_ISOLATION") ||
        contains upper2 (str "DEFAULT_TRANSACTION_ISOLATION")) then
    let sql := if contains upper2 (str "SERIALIZABLE") then
        replaceAll [(str "serializable", str "read committed")]
          (replaceAll [(str "SERIALIZABLE", str "READ COMMITTED")] sql)
      else sql
    if contains (toUpper L sql) (str "REPEATABLE READ") then
      replaceAll [(str "repeatable read", str "read committed")]
        (replaceAll [(str "REPEATABLE READ", str "READ COMMITTED")] sql)
    else sql
  else sql

def stripCatalog : Bytes := if contains sql (str "pg_catalog.") then replaceAll [(str "pg_catalog.", [])] sql else sql

def lockClauses : List Bytes :=
  [" FOR UPDATE SKIP LOCKED", " FOR UPDATE NOWAIT", " FOR UPDATE", " FOR NO KEY UPDATE SKIP LOCKED",
    " FOR NO KEY UPDATE NOWAIT", " FOR NO KEY UPDATE", " FOR SHARE SKIP LOCKED", " FOR SHARE NOWAIT", " FOR SHARE",
    " FOR KEY SHARE SKIP LOCKED", " FOR KEY SHARE NOWAIT", " FOR KEY SHARE"].map str

/-- The loop over the locking clauses: the first that stands in the last 50 bytes is cut off with what
follows it. -/
def stripLock (sql : Bytes) : List Bytes → Checked Bytes
  | [] => pure sql
  | suffix :: suffixes =>
    match lastIndexOf suffix (toUpper L sql) with
    | none => stripLock sql suffixes
    | some idx =>
      if (toUpper L sql).length - idx - suffix.length ≤ 50 then do pure (trimSpace (← slice sql 0 (idx : Nat)))
      else stripLock sql suffixes

/-- The rewrites up to AT TIME ZONE. -/
def unqualified : Checked Bytes := do unquoteIdentifiers (← stripSchemaQualifiers (replaceAll joinWords sql))

/-- The rewrites after AT TIME ZONE, up to the locking clauses. -/
def rewritten : Bytes := stripCatalog (normalizeIsolation L (rewriteSimilar L sql))

/-- The rewrites after AT TIME ZONE. -/
def finish : Checked Bytes := stripLock L (rewritten L sql) lockClauses

/-- `normalizeSQLForParsing`, with so many rounds for AT TIME ZONE; none when they do not suffice. -/
def normalizeSQLForParsing (rounds : Nat) (sql : Bytes) : Option (Checked Bytes) :=
  if isNoop L sql then some (.ok noopSentinel)
  else
    match unqualified sql with
    | .error e => some (.error e)
    | .ok s =>
      (if contains (toUpper L s) tzMarker then rewriteAtTimeZone L rounds s else some (.ok s)).map
        (fun r => r >>= finish L)

/-- The rewrites end, in a text. -/
def Returns : Prop := ∃ rounds out, normalizeSQLForParsing L rounds sql = some (.ok out)

/-! ## Closed identifiers -/

/-- Where in a text the scanners of the rewrites are. -/
inductive Mode where
  | plain
  | literal
  | ident
deriving DecidableEq

def Mode.next : Mode → Byte → Mode
  | .plain, c => if c = squote then .literal else if c = dquote then .ident else .plain
  | .literal, c => if c = squote then .plain else .literal
  | .ident, c => if c = dquote then .plain else .ident

/-- Every quoted identifier is closed; single quotes in it do not count, nor do double quotes in a literal. -/
def Closed : Prop := sql.foldl Mode.next .plain ≠ .ident

instance (sql : Bytes) : Decidable (Closed sql) := inferInstanceAs (Decidable (_ ≠ _))

section scan
variable {L} {n : Nat} {s : Bytes}

theorem exists_cut (c : Byte) (s : Bytes) :
    (∃ body after, s = body ++ c :: after ∧ c ∉ body ∧ s.takeWhile (fun x => x ≠ c) = body) ∨
      (c ∉ s ∧ s.takeWhile (fun x => x ≠ c) = s) := by
  induction s with
  | nil => exact .inr ⟨not_mem_nil, rfl⟩
  | cons x s ih =>
    by_cases hx : x = c
    · subst hx
      exact .inl ⟨[], s, rfl, not_mem_nil, by simp⟩
    · rcases ih with ⟨body, after, rfl, hno, htake⟩ | ⟨hno, htake⟩
      · refine .inl ⟨x :: body, after, rfl, ?_, ?_⟩
        · exact fun h => (mem_cons.mp h).elim (fun h => hx h.symm) hno
        · rw [takeWhile_cons_of_pos (by simpa using hx), htake]
      · refine .inr ⟨fun h => (mem_cons.mp h).elim (fun h => hx h.symm) hno, ?_⟩
        rw [takeWhile_cons_of_pos (by simpa using hx), htake]

theorem literal_cases (rest : Bytes) :
    (∃ body after, rest = body ++ squote :: after ∧ squote ∉ body ∧ literal rest = (body ++ [squote], after)) ∨
      (squote ∉ rest ∧ literal rest = (rest, [])) := by
  unfold literal
  rcases exists_cut squote rest with ⟨body, after, rfl, hno, htake⟩ | ⟨hno, htake⟩
  · refine .inl ⟨body, after, rfl, hno, ?_⟩
    rw [htake]
    simp [take_append, drop_append]
  · refine .inr ⟨hno, ?_⟩
    rw [htake]
    dsimp only
    rw [take_of_length_le (by omega), drop_of_length_le (by omega)]

theorem quotedIdent_cases (rest : Bytes) : (∃ body after, rest = body ++ dquote :: after ∧ dquote ∉ body ∧
      quotedIdent (dquote :: rest) = .ok (dquote :: body ++ [dquote], after)) ∨
      (dquote ∉ rest ∧ quotedIdent (dquote :: rest) = .error .slice) := by
  unfold quotedIdent
  rw [drop_one, tail_cons]
  rcases exists_cut dquote rest with ⟨body, after, rfl, hno, htake⟩ | ⟨hno, htake⟩
  · refine .inl ⟨body, after, rfl, hno, ?_⟩
    have hslice : slice (dquote :: (body ++ dquote :: after)) (0 : Nat) (1 + body.length + 1 : Nat) =
        .ok (dquote :: body ++ [dquote]) := by
      rw [slice_ok (Nat.zero_le _) (by simp; omega), show 1 + body.length + 1 = body.length + 1 + 1 by omega]
      simp [take_append]
    have hdrop : (dquote :: (body ++ dquote :: after)).drop (1 + body.length + 1) = after := by
      rw [show 1 + body.length + 1 = body.length + 1 + 1 by omega]
      simp [drop_append]
    rw [htake]
    dsimp only
    rw [hdrop]
    exact congrArg (· >>= fun ident => pure (ident, after)) hslice
  · refine .inr ⟨hno, ?_⟩
    have hslice : slice (dquote :: rest) (0 : Nat) (1 + rest.length + 1 : Nat) = .error .slice :=
      slice_panics (by simp only [length_cons]; omega)
    rw [htake]
    exact congrArg (· >>= fun ident => pure (ident, (dquote :: rest).drop (1 + rest.length + 1))) hslice

variable {body rest r out sql : Bytes} {c : Byte}

theorem foldl_stays {m : Mode} (h : ∀ b ∈ body, m.next b = m) : body.foldl Mode.next m = m := by
  induction body with
  | nil => rfl
  | cons b body ih =>
    rw [foldl_cons, h b mem_cons_self]
    exact ih fun b hb => h b (mem_cons_of_mem _ hb)

theorem foldl_ident (h : dquote ∉ body) : body.foldl Mode.next .ident = .ident :=
  foldl_stays fun _ hb => if_neg (ne_of_mem_of_not_mem hb h)

theorem foldl_literal (h : squote ∉ body) : body.foldl Mode.next .literal = .literal :=
  foldl_stays fun _ hb => if_neg (ne_of_mem_of_not_mem hb h)

theorem closed_literal (h : squote ∉ body) (after : Bytes) :
    Closed (squote :: (body ++ squote :: after)) ↔ Closed after := by
  have hnext : Mode.next .plain squote = .literal := rfl
  unfold Closed
  rw [foldl_cons, hnext, foldl_append, foldl_literal h]
  exact Iff.rfl

theorem closed_ident (h : dquote ∉ body) (after : Bytes) :
    Closed (dquote :: (body ++ dquote :: after)) ↔ Closed after := by
  have hnext : Mode.next .plain dquote = .ident := by decide
  unfold Closed
  rw [foldl_cons, hnext, foldl_append, foldl_ident h]
  exact Iff.rfl

theorem closed_plain (hs : c ≠ squote) (hd : c ≠ dquote) (s : Bytes) : Closed (c :: s) ↔ Closed s := by
  unfold Closed
  rw [foldl_cons, Mode.next, if_neg hs, if_neg hd]

theorem quotedIdent_safe {α : Type} {k : Bytes × Bytes → Checked α}
    (hk : ∀ ident after, after.length ≤ rest.length → ((k (ident, after)).safe ↔ Closed after)) :
    (quotedIdent (dquote :: rest) >>= k).safe ↔ Closed (dquote :: rest) := by
  rcases quotedIdent_cases rest with ⟨body, after, rfl, hno, hq⟩ | ⟨hno, hq⟩
  · rw [hq, closed_ident hno]
    exact hk _ after (by simp only [length_append, length_cons]; omega)
  · rw [hq]
    refine iff_of_false (not_safe_error _) fun h => h ?_
    rw [foldl_cons]
    exact foldl_ident hno

theorem dotted_eq {s : Bytes} (h : dotted s = true) : ∃ more, s = 46 :: dquote :: more := by
  have ht : s.take 2 = [46, dquote] := of_decide_eq_true h
  refine ⟨s.drop 2, ?_⟩
  calc s = s.take 2 ++ s.drop 2 := (take_append_drop 2 s).symm
    _ = 46 :: dquote :: s.drop 2 := by rw [ht]; rfl

theorem safe_emit {x : Checked Bytes} (p : Bytes) : Checked.safe (do pure (p ++ (← x))) ↔ x.safe :=
  ⟨fun h => (safe_bind.mp h).imp fun _ h => h.1, fun ⟨a, h⟩ => safe_bind.mpr ⟨a, h, safe_pure _⟩⟩

theorem stripFrom_safe (hn : s.length ≤ n) : (stripFrom n s).safe ↔ Closed s := by
  induction n generalizing s with
  | zero =>
    obtain rfl := eq_nil_of_length_eq_zero (Nat.le_zero.mp hn)
    exact iff_of_true (safe_pure _) (by decide)
  | succ n ih =>
    cases s with
    | nil => exact iff_of_true (safe_pure _) (by decide)
    | cons c rest =>
      rw [length_cons, Nat.add_le_add_iff_right] at hn
      rw [stripFrom]
      by_cases hs : c = squote
      · subst hs
        rw [if_pos rfl]
        rcases literal_cases rest with ⟨body, after, rfl, hno, hl⟩ | ⟨hno, hl⟩
        · rw [hl, closed_literal hno]
          rw [length_append, length_cons] at hn
          exact (safe_emit _).trans (ih (by omega))
        · rw [hl]
          refine ((safe_emit _).trans (ih (Nat.zero_le _))).trans (iff_of_true (by decide) ?_)
          unfold Closed
          rw [foldl_cons]
          exact (foldl_literal hno).trans_ne nofun
      rw [if_neg hs]
      by_cases hd : c = dquote
      · subst hd
        rw [if_pos rfl]
        have hemit : ∀ p after : Bytes, after.length ≤ n →
            (Checked.safe (do pure (p ++ (← stripFrom n after))) ↔ Closed after) :=
          fun p after h => (safe_emit p).trans (ih h)
        refine quotedIdent_safe fun first after hafter => ?_
        dsimp only
        by_cases hdot : dotted after = true
        · rw [if_pos hdot]
          obtain ⟨more, rfl⟩ := dotted_eq hdot
          rw [closed_plain (by decide) (by decide)]
          refine quotedIdent_safe fun second after' hafter' => ?_
          simp only [length_cons] at hafter
          dsimp only
          by_cases hdot' : dotted after' = true
          · rw [if_pos hdot']
            obtain ⟨more', rfl⟩ := dotted_eq hdot'
            rw [closed_plain (by decide) (by decide)]
            simp only [length_cons] at hafter'
            exact quotedIdent_safe fun third after'' h => hemit third after'' (by omega)
          · rw [if_neg hdot']
            exact hemit second after' (by omega)
        · rw [if_neg hdot]
          exact hemit first after (by omega)
      · rw [if_neg hd, closed_plain hs hd]
        exact (safe_emit [c]).trans (ih hn)

theorem stripSchemaQualifiers_safe (sql : Bytes) : (stripSchemaQualifiers sql).safe ↔ Closed sql :=
  stripFrom_safe le_rfl

theorem foldl_unquoted {w : Bytes} (h : ∀ b ∈ w, b ≠ squote ∧ b ≠ dquote) (m : Mode) : w.foldl Mode.next m = m := by
  refine foldl_stays fun b hb => ?_
  obtain ⟨hs, hd⟩ := h b hb
  cases m with
  | plain => rw [Mode.next, if_neg hs, if_neg hd]
  | literal => rw [Mode.next, if_neg hs]
  | ident => rw [Mode.next, if_neg hd]

theorem foldl_replaceOf {pairs : List (Bytes × Bytes)} (hp : ∀ p ∈ pairs, ∀ b ∈ p.1 ++ p.2, b ≠ squote ∧ b ≠ dquote)
    (m : Mode) (n : Nat) (s : Bytes) : (replaceOf pairs n s).foldl Mode.next m = s.foldl Mode.next m := by
  induction n generalizing s m with
  | zero => rfl
  | succ n ih =>
    cases s with
    | nil => rfl
    | cons c s =>
      rw [replaceOf]
      cases hm : matching pairs (c :: s) with
      | none => exact ih (m.next c) s
      | some p =>
        obtain ⟨hmem, t, ht⟩ := matching_some hm
        dsimp only
        rw [ht, drop_left, foldl_append, foldl_append, ih,
          foldl_unquoted fun b hb => hp p hmem b (mem_append_left _ hb),
          foldl_unquoted fun b hb => hp p hmem b (mem_append_right _ hb)]

theorem joinWords_unquoted : ∀ p ∈ joinWords, ∀ b ∈ p.1 ++ p.2, b ≠ squote ∧ b ≠ dquote := by
  have hall : (joinWords.all fun p => (p.1 ++ p.2).all fun b => b ≠ squote ∧ b ≠ dquote) = true := by decide
  exact fun p hp b hb => of_decide_eq_true (all_eq_true.mp (all_eq_true.mp hall p hp) b hb)

theorem closed_joinWords (sql : Bytes) : Closed (replaceAll joinWords sql) ↔ Closed sql := by
  unfold Closed replaceAll
  rw [foldl_replaceOf joinWords_unquoted]

theorem ascii_squote : ascii squote = true := by decide

theorem ascii_dquote : ascii dquote = true := by decide

theorem literal_steady (h : Steady L rest) : Steady L (literal rest).1 ∧ Steady L (literal rest).2 ∧
    (literal rest).2.length ≤ rest.length := by
  rcases literal_cases rest with ⟨body, after, rfl, -, hl⟩ | ⟨-, hl⟩
  · obtain ⟨hbody, hafter⟩ := h.split ascii_squote
    rw [hl]
    exact ⟨hbody.append (kept_ascii ascii_squote).steady, hafter, by simp only [length_append, length_cons]; omega⟩
  · rw [hl]
    exact ⟨h, steady_ascii nofun, Nat.zero_le _⟩

theorem quotedIdent_steady {r : Bytes × Bytes} (h : Steady L (dquote :: rest))
    (hq : quotedIdent (dquote :: rest) = .ok r) : Steady L r.1 ∧ Steady L r.2 ∧ r.2.length ≤ rest.length := by
  rcases quotedIdent_cases rest with ⟨body, after, rfl, -, heq⟩ | ⟨-, heq⟩
  · obtain ⟨hbody, hafter⟩ := ((steady_cut (a := []) ascii_dquote).mp h).2.split ascii_dquote
    cases heq.symm.trans hq
    refine ⟨?_, hafter, by simp only [length_append, length_cons]; omega⟩
    exact ((kept_ascii ascii_dquote).steady : Steady L [dquote]).append (hbody.append (kept_ascii ascii_dquote).steady)
  · cases heq.symm.trans hq

theorem behind_snoc (hr : ∀ b ∈ r, ascii b = false) (hc : ascii c = false) : ∀ b ∈ r ++ [c], ascii b = false := by
  intro b hb
  rcases mem_append.mp hb with hb | hb
  · exact hr b hb
  · rw [mem_singleton.mp hb]
    exact hc

/-- A loop that copies a byte, or writes something steady for what it reads from an ASCII byte on. -/
theorem scan_steady {f : Nat → Bytes → Checked Bytes} (hnil : ∀ n, f n [] = .ok [])
    (hstep : ∀ n c rest out, rest.length ≤ n → f (n + 1) (c :: rest) = .ok out →
      (do pure (c :: (← f n rest))) = Except.ok out ∨ ascii c = true ∧ (Steady L rest → ∃ p after, Steady L p ∧
        Steady L after ∧ after.length ≤ n ∧ (do pure (p ++ (← f n after))) = Except.ok out))
    (hn : s.length ≤ n) (hr : ∀ b ∈ r, ascii b = false) (hs : Steady L (r ++ s)) (h : f n s = .ok out) :
    Steady L (r ++ out) := by
  induction n generalizing r s out with
  | zero =>
    obtain rfl := eq_nil_of_length_eq_zero (Nat.le_zero.mp hn)
    cases (hnil 0).symm.trans h
    exact hs
  | succ n ih =>
    cases s with
    | nil =>
      cases (hnil _).symm.trans h
      exact hs
    | cons c rest =>
      rw [length_cons, Nat.add_le_add_iff_right] at hn
      have hemit : ∀ {p after : Bytes}, Steady L r → Steady L p → Steady L after → after.length ≤ n →
          (do pure (p ++ (← f n after))) = Except.ok out → Steady L (r ++ out) := by
        intro p after hr' hp hafter hlen hdo
        obtain ⟨out', hout, hpure⟩ := bind_ok.mp hdo
        cases hpure
        exact hr'.append (hp.append (ih (r := []) hlen nofun hafter hout))
      rcases hstep n c rest out hn h with hcopy | ⟨hc, hstep⟩
      · by_cases hc : ascii c = true
        · obtain ⟨hr', hrest⟩ := hs.split hc
          exact hemit (p := [c]) hr' (kept_ascii hc).steady hrest hn hcopy
        · obtain ⟨out', hout, hpure⟩ := bind_ok.mp hcopy
          cases hpure
          rw [append_cons]
          exact ih hn (behind_snoc hr (Bool.eq_false_iff.mpr hc)) (by rwa [← append_cons]) hout
      · obtain ⟨hr', hrest⟩ := hs.split hc
        obtain ⟨p, after, hp, hafter, hlen, hdo⟩ := hstep hrest
        exact hemit hr' hp hafter hlen hdo

theorem quoted_steady (h : Steady L rest) : Steady L (squote :: (literal rest).1) :=
  ((kept_ascii ascii_squote).steady : Steady L [squote]).append (literal_steady h).1

theorem stripFrom_steady (hs : Steady L s) (h : stripFrom s.length s = .ok out) : Steady L out := by
  refine scan_steady (r := []) (fun n => by cases n <;> rfl) (fun n c rest out hn h => ?_) le_rfl nofun hs h
  rw [stripFrom] at h
  by_cases hs' : c = squote
  · subst hs'
    rw [if_pos rfl] at h
    exact .inr ⟨ascii_squote, fun hrest => ⟨_, _, quoted_steady hrest, (literal_steady hrest).2.1,
      (literal_steady hrest).2.2.trans hn, h⟩⟩
  rw [if_neg hs'] at h
  by_cases hd : c = dquote
  · subst hd
    refine .inr ⟨ascii_dquote, fun hrest => ?_⟩
    have hident := (steady_cut (a := []) ascii_dquote).mpr ⟨(steady_ascii nofun : Steady L []), hrest⟩
    rw [if_pos rfl] at h
    obtain ⟨⟨first, after⟩, hfirst, h₁⟩ := bind_ok.mp h
    obtain ⟨hf, hafter, hlen⟩ := quotedIdent_steady hident hfirst
    dsimp only at h₁ hf hafter hlen
    by_cases hdot : dotted after = true
    · rw [if_pos hdot] at h₁
      obtain ⟨more, rfl⟩ := dotted_eq hdot
      obtain ⟨⟨second, after'⟩, hsecond, h₂⟩ := bind_ok.mp h₁
      obtain ⟨hf', hafter', hlen'⟩ := quotedIdent_steady ((steady_cut (a := []) (by decide)).mp hafter).2 hsecond
      simp only [length_cons] at hlen
      dsimp only at h₂ hf' hafter' hlen'
      by_cases hdot' : dotted after' = true
      · rw [if_pos hdot'] at h₂
        obtain ⟨more', rfl⟩ := dotted_eq hdot'
        obtain ⟨⟨third, after''⟩, hthird, h₃⟩ := bind_ok.mp h₂
        obtain ⟨hf'', hafter'', hlen''⟩ := quotedIdent_steady ((steady_cut (a := []) (by decide)).mp hafter').2 hthird
        simp only [length_cons] at hlen'
        dsimp only at hf'' hafter'' hlen''
        exact ⟨_, _, hf'', hafter'', by omega, h₃⟩
      · rw [if_neg hdot'] at h₂
        exact ⟨_, _, hf', hafter', by omega, h₂⟩
    · rw [if_neg hdot] at h₁
      exact ⟨_, _, hf, hafter, by omega, h₁⟩
  · rw [if_neg hd] at h
    exact .inl h

theorem unquoteFrom_ident (rest : Bytes) :
    (∃ body after, rest = body ++ dquote :: after ∧ ∀ n, unquoteFrom (n + 1) (dquote :: rest) =
      (do pure (unquoted body ++ (← unquoteFrom n after)))) ∨
    ∀ n, unquoteFrom (n + 1) (dquote :: rest) = (do pure (unquoted rest ++ (← unquoteFrom n []))) := by
  have hinner : ∀ body tail : Bytes, slice (dquote :: (body ++ tail)) (1 : Nat) (1 + body.length : Nat) = .ok body := by
    intro body tail
    rw [slice_ok (by omega) (by simp; omega), Nat.add_comm]
    simp
  have hunfold : ∀ n body tail left, rest = body ++ tail → rest.takeWhile (fun c => c ≠ dquote) = body →
      (dquote :: rest).drop (1 + body.length + 1) = left →
      unquoteFrom (n + 1) (dquote :: rest) = (do pure (unquoted body ++ (← unquoteFrom n left))) := by
    intro n body tail left hrest htake hdrop
    rw [unquoteFrom, if_pos rfl, htake]
    dsimp only
    rw [hdrop, hrest]
    exact congrArg (· >>= fun inner => do pure (unquoted inner ++ (← unquoteFrom n left))) (hinner body tail)
  rcases exists_cut dquote rest with ⟨body, after, hrest, -, htake⟩ | ⟨-, htake⟩
  · refine .inl ⟨body, after, hrest, fun n => hunfold n body _ after hrest htake ?_⟩
    rw [hrest, Nat.add_comm 1]
    simp [drop_append]
  · refine .inr fun n => hunfold n rest [] [] (append_nil _).symm htake ?_
    exact drop_of_length_le (by rw [length_cons]; omega)

theorem unquoteFrom_safe (n : Nat) (s : Bytes) : (unquoteFrom n s).safe := by
  induction n generalizing s with
  | zero => exact safe_pure _
  | succ n ih =>
    cases s with
    | nil => exact safe_pure _
    | cons c rest =>
      by_cases hd : c = dquote
      · subst hd
        rcases unquoteFrom_ident rest with ⟨body, after, -, heq⟩ | heq
        · rw [heq]
          exact (safe_emit _).mpr (ih after)
        · rw [heq]
          exact (safe_emit _).mpr (ih [])
      · rw [unquoteFrom, if_neg hd]
        exact safe_ite (fun _ => (safe_emit (c :: (literal rest).1)).mpr (ih _)) fun _ => (safe_emit [c]).mpr (ih rest)

theorem unquoted_steady {inner : Bytes} (h : Steady L inner) : Steady L (unquoted inner) := by
  unfold unquoted
  split
  · exact ((kept_ascii ascii_dquote).steady : Steady L [dquote]).append (h.append (kept_ascii ascii_dquote).steady)
  · exact h

theorem unquoteFrom_steady (hs : Steady L s) (h : unquoteFrom s.length s = .ok out) : Steady L out := by
  refine scan_steady (r := []) (fun n => by cases n <;> rfl) (fun n c rest out hn h => ?_) le_rfl nofun hs h
  by_cases hd : c = dquote
  · subst hd
    refine .inr ⟨ascii_dquote, fun hrest => ?_⟩
    rcases unquoteFrom_ident rest with ⟨body, after, rfl, heq⟩ | heq
    · obtain ⟨hbody, hafter⟩ := hrest.split ascii_dquote
      rw [length_append, length_cons] at hn
      exact ⟨_, _, unquoted_steady hbody, hafter, by omega, heq n ▸ h⟩
    · exact ⟨_, _, unquoted_steady hrest, (steady_ascii nofun : Steady L []), Nat.zero_le _, heq n ▸ h⟩
  rw [unquoteFrom, if_neg hd] at h
  by_cases hs' : c = squote
  · subst hs'
    rw [if_pos rfl] at h
    exact .inr ⟨ascii_squote, fun hrest => ⟨_, _, quoted_steady hrest, (literal_steady hrest).2.1,
      (literal_steady hrest).2.2.trans hn, h⟩⟩
  · rw [if_neg hs'] at h
    exact .inl h

theorem unqualified_safe (sql : Bytes) : (unqualified sql).safe ↔ Closed sql := by
  rw [unqualified, safe_bind, ← closed_joinWords, ← stripSchemaQualifiers_safe]
  exact exists_congr fun mid => and_iff_left (unquoteFrom_safe _ mid)

theorem unqualified_steady (hs : Steady L sql) (h : unqualified sql = .ok out) : Steady L out := by
  obtain ⟨mid, hmid, hout⟩ := bind_ok.mp h
  have hjoin : Steady L (replaceAll joinWords sql) := replaceOf_steady (by decide) le_rfl hs
  have hsteady : Steady L mid := stripFrom_steady hjoin hmid
  exact unquoteFrom_steady hsteady hout

/-! ## Rounds of AT TIME ZONE -/

def markers (L : Letters) (s : Bytes) : Nat := occurrences tzMarker (toUpper L s)

theorem markers_append_le {t : Bytes} (hs : Steady L s) (ht : Steady L t) : markers L s + markers L t ≤ markers L (s ++ t) := by
  unfold markers
  rw [toUpper_append hs ht]
  exact occurrences_append_le ..

theorem markers_cut {t : Bytes} (hs : Steady L s) (ht : Steady L t) (hc : ascii c = true)
    (hu : upperByte c ∉ tzMarker) : markers L (s ++ c :: t) = markers L s + markers L t := by
  unfold markers
  rw [toUpper_append hs ((steady_cons hc).mpr ht), toUpper_cons hc]
  exact occurrences_cut hu (by decide) ..

theorem tzMarker_eq : tzMarker = 32 :: (str "AT TIME ZONE" ++ [32]) := by decide

theorem marker_split {idx : Nat} (hs : Steady L s) (h : indexOf tzMarker (toUpper L s) = some idx) :
    ∃ a m r, s = a ++ (m ++ r) ∧ a.length = idx ∧ m.length = tzMarker.length ∧ Steady L a ∧ Steady L r ∧
      (∃ q, toUpper L s = toUpper L a ++ (tzMarker ++ q)) ∧ markers L a = 0 ∧ markers L r + 1 ≤ markers L s := by
  obtain ⟨p, q, heq, hlen, hzero⟩ := indexOf_eq_some h
  have hcut : toUpper L s = p ++ 32 :: (str "AT TIME ZONE" ++ 32 :: q) := by
    rw [heq, tzMarker_eq, cons_append, append_assoc]
    rfl
  obtain ⟨a, d, b, rfl, hd, -, ha, hb⟩ := toUpper_split hs (by decide) hcut
  obtain ⟨hsa, hsb⟩ := hs.split hd
  obtain ⟨mid, d', r, rfl, hd', -, hmid, hr⟩ := toUpper_split hsb (by decide) hb
  obtain ⟨hsmid, hsr⟩ := hsb.split hd'
  have hmidlen : mid.length = 12 := by
    rw [← toUpper_length hsmid, hmid]
    decide
  refine ⟨a, d :: (mid ++ [d']), r, by simp, ?_, ?_, hsa, hsr, ⟨q, by rw [ha, heq]⟩, ?_, ?_⟩
  · rw [← toUpper_length hsa, ha, hlen]
  · rw [length_cons, length_append, hmidlen]
    rfl
  · unfold markers
    rw [ha, hzero]
  · have hone : occurrences tzMarker tzMarker = 1 := by decide
    have h₁ := occurrences_append_le tzMarker p (tzMarker ++ q)
    have h₂ := occurrences_append_le tzMarker tzMarker q
    unfold markers
    rw [heq, hr]
    omega

theorem tzArgument_cases (rest : Bytes) : tzArgument rest = .ok none ∨
    (∃ p q, rest = squote :: (p ++ squote :: q) ∧ tzArgument rest = .ok (some (p, q))) ∨
    ∃ tz after, rest = tz ++ after ∧ (∀ c ∈ after.head?, c ∈ str " ,);\t\n") ∧ tzArgument rest = .ok (some (tz, after)) := by
  unfold tzArgument
  by_cases hq : rest.head? = some squote
  · rw [if_pos hq]
    obtain ⟨body, rfl⟩ : ∃ body, rest = squote :: body := by
      cases rest with
      | nil => cases hq
      | cons c body => exact ⟨body, by rw [Option.some.inj hq]⟩
    have hfrom : sliceFrom (squote :: body) 1 = pure body := sliceFrom_ok (by simp)
    rw [hfrom, pure_bind]
    cases he : indexOf [squote] body with
    | none => exact .inl rfl
    | some e =>
      obtain ⟨p, q, rfl, rfl, -⟩ := indexOf_eq_some he
      have htz : slice (squote :: (p ++ ([squote] ++ q))) (1 : Nat) (p.length + 1 : Nat) = .ok p := by
        rw [slice_ok (by omega) (by simp)]
        simp
      have hafter : sliceFrom (squote :: (p ++ ([squote] ++ q))) (p.length + 2) = .ok q := by
        rw [sliceFrom_ok (by simp)]
        simp [drop_append]
      exact .inr (.inl ⟨p, q, rfl, bind_ok.mpr ⟨p, htz, bind_ok.mpr ⟨q, hafter, rfl⟩⟩⟩)
  · rw [if_neg hq]
    cases he : rest.findIdx? (fun c => c ∈ str " ,);\t\n") with
    | none => exact .inr (.inr ⟨rest, [], (append_nil _).symm, nofun, rfl⟩)
    | some e =>
      obtain ⟨hlt, hstop, -⟩ := findIdx?_eq_some_iff_getElem.mp he
      have hslice : slice rest (0 : Nat) (e : Nat) = .ok (rest.take e) := slice_ok (Nat.zero_le _) (by omega)
      refine .inr (.inr ⟨rest.take e, rest.drop e, (take_append_drop ..).symm, fun c hc => ?_, ?_⟩)
      · rw [drop_eq_getElem_cons hlt] at hc
        cases hc
        exact of_decide_eq_true hstop
      · exact bind_ok.mpr ⟨_, hslice, bind_ok.mpr ⟨_, sliceFrom_ok (by omega), rfl⟩⟩

theorem tzArgument_ok (hs : Steady L rest) : tzArgument rest = .ok none ∨
    ∃ tz after, tzArgument rest = .ok (some (tz, after)) ∧ Steady L tz ∧ Steady L after ∧
      markers L tz + markers L after ≤ markers L rest := by
  rcases tzArgument_cases rest with h | ⟨p, q, rfl, h⟩ | ⟨tz, after, rfl, hstop, h⟩
  · exact .inl h
  · have hbody := (steady_cons ascii_squote).mp hs
    obtain ⟨hp, hq⟩ := hbody.split ascii_squote
    have hcut : markers L (p ++ squote :: q) = markers L p + markers L q := markers_cut hp hq ascii_squote (by decide)
    have hall : markers L ([] ++ squote :: (p ++ squote :: q)) = markers L [] + markers L (p ++ squote :: q) :=
      markers_cut (steady_ascii nofun) hbody ascii_squote (by decide)
    rw [nil_append] at hall
    exact .inr ⟨p, q, h, hp, hq, by omega⟩
  · obtain ⟨htz, hafter⟩ : Steady L tz ∧ Steady L after := by
      cases after with
      | nil => exact ⟨append_nil tz ▸ hs, steady_ascii nofun⟩
      | cons c after =>
        have hall : (str " ,);\t\n").all ascii = true := by decide
        have hascii := all_eq_true.mp hall c (hstop c rfl)
        exact (hs.split hascii).imp_right (steady_cons hascii).mpr
    exact .inr ⟨tz, after, h, htz, hafter, markers_append_le htz hafter⟩

theorem markers_trimSpace (hs : Steady L s) : Steady L (trimSpace s) ∧ markers L (trimSpace s) ≤ markers L s := by
  obtain ⟨a, b, heq, ha, ht, hb⟩ := trimSpace_infix hs
  have h₁ := markers_append_le (ha.append ht) hb
  have h₂ := markers_append_le ha ht
  rw [← heq] at h₁
  exact ⟨ht, by omega⟩

/-- How many rounds are left: the markers, and one more for a text that no round has made. A round puts a
blank before the expression, so `AT TIME ZONE` at the start of the text becomes a marker, once. -/
def rank (L : Letters) (s : Bytes) : Nat := markers L s + if str "TIMEZONE('" <+: toUpper L s then 0 else 1

def shifted (tz expr after : Bytes) : Bytes := str "timezone('" ++ (tz ++ (str "', " ++ (expr ++ (str ")" ++ after))))

theorem shifted_eq (tz expr after : Bytes) :
    shifted tz expr after = str "timezone(" ++ squote :: (tz ++ squote :: ([] ++ 44 :: (32 :: expr ++ 41 :: after))) := rfl

theorem rank_shifted {tz expr after : Bytes} (htz : Steady L tz) (hexpr : Steady L expr) (hafter : Steady L after) :
    Steady L (shifted tz expr after) ∧
      rank L (shifted tz expr after) = markers L tz + markers L (32 :: expr) + markers L after := by
  have hempty : Steady L [] := steady_ascii nofun
  have hblank : Steady L (32 :: expr) := (steady_cons (by decide)).mpr hexpr
  have h₁ : Steady L (32 :: expr ++ 41 :: after) := (steady_cut (by decide)).mpr ⟨hblank, hafter⟩
  have h₂ : Steady L ([] ++ 44 :: (32 :: expr ++ 41 :: after)) := (steady_cut (by decide)).mpr ⟨hempty, h₁⟩
  have h₃ := (steady_cut ascii_squote).mpr ⟨htz, h₂⟩
  have hascii : ∀ b ∈ str "timezone(", ascii b = true := all_eq_true.mp (by decide)
  have hname : Steady L (str "timezone(") := steady_ascii hascii
  have hzero : markers L (str "timezone(") = 0 := by
    have hupper : toUpper L (str "timezone(" ++ []) = str "TIMEZONE(" := toUpper_ascii hascii []
    rw [append_nil] at hupper
    unfold markers
    rw [hupper]
    decide
  have hmarkers : markers L (shifted tz expr after) = markers L tz + markers L (32 :: expr) + markers L after := by
    have hnil : markers L ([] : Bytes) = 0 := rfl
    rw [shifted_eq, markers_cut hname h₃ ascii_squote (by decide), hzero, markers_cut htz h₂ ascii_squote (by decide),
      markers_cut hempty h₁ (by decide) (by decide), hnil, markers_cut hblank hafter (by decide) (by decide)]
    omega
  have hstart : str "TIMEZONE('" <+: toUpper L (shifted tz expr after) := by
    unfold shifted
    rw [toUpper_ascii (all_eq_true.mp (by decide))]
    exact prefix_append (str "TIMEZONE('") _
  refine ⟨(steady_cut ascii_squote).mpr ⟨hname, h₃⟩, ?_⟩
  unfold rank
  rw [if_pos hstart, hmarkers]
  rfl

theorem markers_blank {a q : Bytes} (ha : Steady L a) (hq : str "TIMEZONE('" <+: toUpper L a ++ (tzMarker ++ q)) :
    markers L (32 :: trimSpace a) = markers L (trimSpace a) := by
  -- the marker has no byte of the call, so the call is in what is before it
  have hlong : 0 < (toUpper L a).length := by
    rw [Nat.pos_iff_ne_zero]
    intro hzero
    rw [eq_nil_of_length_eq_zero hzero, nil_append] at hq
    obtain ⟨t, ht⟩ := hq
    rw [tzMarker_eq, cons_append] at ht
    cases head_eq_of_cons_eq ht
  obtain ⟨c, u, hu⟩ := exists_cons_of_length_pos hlong
  have hc : c = 84 := by
    obtain ⟨t, ht⟩ := hq
    rw [hu] at ht
    exact (head_eq_of_cons_eq ht).symm
  subst hc
  obtain ⟨a₀, d, b, rfl, hd, hupper, hnil, -⟩ := toUpper_split ha (p := []) (by decide) hu
  obtain rfl : a₀ = [] := by
    have hlen := toUpper_length (ha.split hd).1
    rw [hnil] at hlen
    exact eq_nil_of_length_eq_zero hlen.symm
  have hspace : ∀ d : Byte, upperByte d = 84 → isSpace [d] = false := by decide +kernel
  obtain ⟨t, ht, -⟩ := trimSpace_head hd (hspace d hupper) b
  rw [nil_append, ht]
  unfold markers
  rw [toUpper_cons (by decide), toUpper_cons hd, hupper, occurrences, if_neg, Nat.zero_add]
  rw [tzMarker_eq]
  intro hpre
  rw [show upperByte 32 = 32 by decide, cons_prefix_cons] at hpre
  obtain ⟨t', ht'⟩ := hpre.2
  cases head_eq_of_cons_eq ht'

theorem markers_blank_le (s : Bytes) : markers L (32 :: s) ≤ markers L s + 1 := by
  unfold markers
  rw [toUpper_cons (by decide), occurrences]
  split <;> omega

theorem tzStep_ok (hs : Steady L s) : tzStep L s = .ok none ∨
    ∃ s', tzStep L s = .ok (some s') ∧ Steady L s' ∧ rank L s' < rank L s := by
  unfold tzStep
  cases hidx : indexOf tzMarker (toUpper L s) with
  | none => exact .inl rfl
  | some idx =>
    obtain ⟨a, m, r, heq, rfl, hm, ha, hr, ⟨q, hq⟩, hzero, hfewer⟩ := marker_split hs hidx
    have hfrom : sliceFrom s (a.length + tzMarker.length) = .ok r := by
      rw [← hm, heq, sliceFrom_ok (by simp only [length_append]; omega), ← append_assoc, ← length_append, drop_left]
    have hexpr : slice s (0 : Nat) (a.length : Nat) = .ok a := by
      rw [heq, slice_ok (Nat.zero_le _) (by simp), take_left, drop_zero]
    obtain ⟨htrim, hle⟩ := markers_trimSpace hr
    obtain ⟨hexprtrim, hexprle⟩ := markers_trimSpace ha
    rcases tzArgument_ok htrim with harg | ⟨tz, after, harg, htz, hafter, hsum⟩
    · refine .inl (bind_ok.mpr ⟨r, hfrom, bind_ok.mpr ⟨none, harg, rfl⟩⟩)
    · obtain ⟨hsteady, hrank⟩ := rank_shifted htz hexprtrim hafter
      refine .inr ⟨shifted tz (trimSpace a) after, ?_, hsteady, ?_⟩
      · exact bind_ok.mpr ⟨r, hfrom, bind_ok.mpr ⟨some (tz, after), harg, bind_ok.mpr ⟨a, hexpr, rfl⟩⟩⟩
      · rw [hrank]
        unfold rank
        by_cases hstart : str "TIMEZONE('" <+: toUpper L s
        · rw [if_pos hstart, markers_blank ha (hq ▸ hstart)]
          omega
        · have hblank := markers_blank_le (L := L) (trimSpace a)
          rw [if_neg hstart]
          omega

theorem rewriteAtTimeZone_ok (hs : Steady L s) : ∃ rounds out, rewriteAtTimeZone L rounds s = some (.ok out) ∧ Steady L out := by
  induction hrank : rank L s using Nat.strong_induction_on generalizing s with
  | _ k ih =>
    rcases tzStep_ok hs with hstep | ⟨s', hstep, hs', hlt⟩
    · refine ⟨1, s, ?_, hs⟩
      rw [rewriteAtTimeZone, hstep]
    · obtain ⟨rounds, out, hrun, hout⟩ := ih _ (hrank ▸ hlt) hs' rfl
      refine ⟨rounds + 1, out, ?_, hout⟩
      rw [rewriteAtTimeZone, hstep]
      exact hrun

/-! ## Cuts inside the text -/

/-- The first AT TIME ZONE in upper case ends inside the text. -/
def ZoneFits (L : Letters) (s : Bytes) : Prop :=
  ∀ idx, indexOf tzMarker (toUpper L s) = some idx → idx + tzMarker.length ≤ s.length

/-- The rounds of AT TIME ZONE end with the text `t`, and each cuts inside its text. -/
inductive ZoneEnds (L : Letters) : Bytes → Bytes → Prop
  | done {s : Bytes} (hfits : ZoneFits L s) (hstep : tzStep L s = .ok none) : ZoneEnds L s s
  | round {s s' t : Bytes} (hfits : ZoneFits L s) (hstep : tzStep L s = .ok (some s')) (hrest : ZoneEnds L s' t) :
      ZoneEnds L s t

/-- Where the first locking clause that stands in the last 50 bytes starts, in upper case. -/
def lockCut (L : Letters) (s : Bytes) (suffixes : List Bytes) : Option Nat :=
  suffixes.findSome? fun w => (lastIndexOf w (toUpper L s)).filter fun idx => (toUpper L s).length - idx - w.length ≤ 50

/-- The cuts of AT TIME ZONE and of the locking clause are inside the text, and there are finitely many. -/
def CutsFit (L : Letters) (s : Bytes) : Prop :=
  ∃ t, ZoneEnds L s t ∧ ∀ idx, lockCut L (rewritten L t) lockClauses = some idx → idx ≤ (rewritten L t).length

theorem tzArgument_safe (rest : Bytes) : (tzArgument rest).safe := by
  rcases tzArgument_cases rest with h | ⟨_, _, -, h⟩ | ⟨_, _, -, -, h⟩ <;> exact ⟨_, h⟩

theorem tzStep_safe_iff : (tzStep L s).safe ↔ ZoneFits L s := by
  unfold tzStep ZoneFits
  cases hidx : indexOf tzMarker (toUpper L s) with
  | none => exact iff_of_true (safe_pure _) nofun
  | some idx =>
    simp only [Option.some.injEq, forall_eq']
    by_cases hle : idx + tzMarker.length ≤ s.length
    · refine iff_of_true (safe_bind.mpr ⟨_, sliceFrom_ok hle, ?_⟩) hle
      obtain ⟨arg, harg⟩ := tzArgument_safe (trimSpace (s.drop (idx + tzMarker.length)))
      refine safe_bind.mpr ⟨arg, harg, ?_⟩
      cases arg with
      | none => exact safe_pure _
      | some a =>
        have hexpr : slice s (0 : Nat) (idx : Nat) = .ok _ := slice_ok (Nat.zero_le _) (by omega)
        exact safe_bind.mpr ⟨_, hexpr, safe_pure _⟩
    · refine iff_of_false (not_safe_bind ?_) hle
      rw [sliceFrom_panics (by omega)]
      exact not_safe_error _

theorem zoneEnds_iff {t : Bytes} : ZoneEnds L s t ↔ ∃ rounds, rewriteAtTimeZone L rounds s = some (.ok t) := by
  constructor
  · intro h
    induction h with
    | done _ hstep => exact ⟨1, by rw [rewriteAtTimeZone, hstep]⟩
    | round _ hstep _ ih =>
      obtain ⟨rounds, hrun⟩ := ih
      exact ⟨rounds + 1, by rw [rewriteAtTimeZone, hstep]; exact hrun⟩
  · rintro ⟨rounds, h⟩
    induction rounds generalizing s with
    | zero => cases h
    | succ n ih =>
      rw [rewriteAtTimeZone] at h
      cases hstep : tzStep L s with
      | error e =>
        rw [hstep] at h
        cases Option.some.inj h
      | ok r =>
        have hfits := tzStep_safe_iff.mp ⟨r, hstep⟩
        rw [hstep] at h
        cases r with
        | none =>
          cases Except.ok.inj (Option.some.inj h)
          exact .done hfits hstep
        | some s' => exact .round hfits hstep (ih h)

theorem stripLock_safe_iff (s : Bytes) (suffixes : List Bytes) :
    (stripLock L s suffixes).safe ↔ ∀ idx, lockCut L s suffixes = some idx → idx ≤ s.length := by
  unfold lockCut
  induction suffixes with
  | nil => exact iff_of_true (safe_pure _) nofun
  | cons suffix suffixes ih =>
    rw [stripLock, findSome?_cons]
    cases hidx : lastIndexOf suffix (toUpper L s) with
    | none => exact ih
    | some idx =>
      dsimp only
      by_cases hnear : (toUpper L s).length - idx - suffix.length ≤ 50
      · rw [if_pos hnear, Option.filter_some, if_pos (decide_eq_true hnear), safe_bind]
        simp only [Option.some.injEq, forall_eq']
        constructor
        · rintro ⟨a, ha, -⟩
          by_contra hlt
          rw [slice_panics (by omega)] at ha
          cases ha
        · intro hle
          have hslice : slice s (0 : Nat) (idx : Nat) = .ok _ := slice_ok (Nat.zero_le _) hle
          exact ⟨_, hslice, safe_pure _⟩
      · rw [if_neg hnear, Option.filter_some, if_neg (by simpa using hnear)]
        exact ih

/-! ## The rest, and the whole -/

theorem replaceAll_steady {pairs : List (Bytes × Bytes)} (hp : AsciiPairs pairs) (hs : Steady L s) :
    Steady L (replaceAll pairs s) :=
  replaceOf_steady hp le_rfl hs

theorem steady_ite {p : Prop} [Decidable p] {a b : Bytes} (ha : Steady L a) (hb : Steady L b) :
    Steady L (if p then a else b) := by
  by_cases hp : p
  · rwa [if_pos hp]
  · rwa [if_neg hp]

theorem rewriteSimilar_steady (hs : Steady L s) : Steady L (rewriteSimilar L s) := by
  have hfirst : Steady L (if contains (toUpper L s) (str " SIMILAR TO ") then
      replaceAll [(str " SIMILAR TO ", str " LIKE "), (str " similar to ", str " LIKE ")] s else s) :=
    steady_ite (replaceAll_steady (by decide) hs) hs
  unfold rewriteSimilar
  dsimp only
  exact steady_ite (replaceAll_steady (by decide) hfirst) hfirst

theorem normalizeIsolation_steady (hs : Steady L s) : Steady L (normalizeIsolation L s) := by
  have hfirst : Steady L (if contains (toUpper L s) (str "SERIALIZABLE") then
      replaceAll [(str "serializable", str "read committed")]
        (replaceAll [(str "SERIALIZABLE", str "READ COMMITTED")] s) else s) :=
    steady_ite (replaceAll_steady (by decide) (replaceAll_steady (by decide) hs)) hs
  unfold normalizeIsolation
  dsimp only
  exact steady_ite (steady_ite (replaceAll_steady (by decide) (replaceAll_steady (by decide) hfirst)) hfirst) hs

theorem rewritten_steady (hs : Steady L s) : Steady L (rewritten L s) := by
  have hisolation := normalizeIsolation_steady (rewriteSimilar_steady hs)
  unfold rewritten stripCatalog
  exact steady_ite (replaceAll_steady (by decide) hisolation) hisolation

theorem stripLock_safe (hs : Steady L s) (suffixes : List Bytes) : (stripLock L s suffixes).safe := by
  induction suffixes with
  | nil => exact safe_pure _
  | cons suffix suffixes ih =>
    rw [stripLock]
    cases hidx : lastIndexOf suffix (toUpper L s) with
    | none => exact ih
    | some idx =>
      have hle := lastIndexOf_le hidx
      rw [toUpper_length hs] at hle
      have hslice : slice s (0 : Nat) (idx : Nat) = .ok (s.take idx) := slice_ok (Nat.zero_le _) (by omega)
      exact safe_ite (fun _ => safe_bind.mpr ⟨_, hslice, safe_pure _⟩) fun _ => ih

theorem finish_safe (hs : Steady L s) : (finish L s).safe := stripLock_safe (rewritten_steady hs) _

theorem returns_iff (hno : isNoop L sql = false) : Returns L sql ↔ ∃ s, unqualified sql = .ok s ∧
    ∃ rounds mid, (if contains (toUpper L s) tzMarker then rewriteAtTimeZone L rounds s else some (.ok s)) = some (.ok mid) ∧
      (finish L mid).safe := by
  unfold Returns normalizeSQLForParsing
  rw [hno]
  constructor
  · rintro ⟨rounds, out, h⟩
    rw [if_neg Bool.false_ne_true] at h
    cases hun : unqualified sql with
    | error e =>
      rw [hun] at h
      cases Option.some.inj h
    | ok s =>
      rw [hun] at h
      obtain ⟨r, hr, hfin⟩ := Option.map_eq_some_iff.mp h
      obtain ⟨mid, rfl, hmid⟩ := bind_ok.mp hfin
      exact ⟨s, rfl, rounds, mid, hr, out, hmid⟩
  · rintro ⟨s, hun, rounds, mid, hr, out, hout⟩
    refine ⟨rounds, out, ?_⟩
    rw [if_neg Bool.false_ne_true, hun]
    exact Option.map_eq_some_iff.mpr ⟨.ok mid, hr, bind_ok.mpr ⟨mid, rfl, hout⟩⟩

theorem zoneEnds_none {t : Bytes} (htz : contains (toUpper L s) tzMarker = false) : ZoneEnds L s t ↔ t = s := by
  have hstep : tzStep L s = .ok none := by
    unfold tzStep
    rw [show indexOf tzMarker (toUpper L s) = none from Option.not_isSome_iff_eq_none.mp (Bool.eq_false_iff.mp htz)]
    rfl
  constructor
  · intro h
    cases h with
    | done => rfl
    | round _ hstep' => cases hstep.symm.trans hstep'
  · rintro rfl
    exact .done (tzStep_safe_iff.mp ⟨_, hstep⟩) hstep

theorem returns_iff_cutsFit (hno : isNoop L sql = false) :
    Returns L sql ↔ ∃ s, unqualified sql = .ok s ∧ CutsFit L s := by
  rw [returns_iff hno]
  refine exists_congr fun s => and_congr_right fun _ => ?_
  cases htz : contains (toUpper L s) tzMarker with
  | true =>
    constructor
    · rintro ⟨rounds, mid, hrun, hfin⟩
      exact ⟨mid, zoneEnds_iff.mpr ⟨rounds, hrun⟩, (stripLock_safe_iff _ _).mp hfin⟩
    · rintro ⟨mid, hends, hlock⟩
      obtain ⟨rounds, hrun⟩ := zoneEnds_iff.mp hends
      exact ⟨rounds, mid, hrun, (stripLock_safe_iff _ _).mpr hlock⟩
  | false =>
    constructor
    · rintro ⟨rounds, mid, hrun, hfin⟩
      cases Except.ok.inj (Option.some.inj hrun)
      exact ⟨s, (zoneEnds_none htz).mpr rfl, (stripLock_safe_iff _ _).mp hfin⟩
    · rintro ⟨mid, hends, hlock⟩
      obtain rfl := (zoneEnds_none htz).mp hends
      exact ⟨0, mid, rfl, (stripLock_safe_iff _ _).mpr hlock⟩

theorem cutsFit_of_steady (hs : Steady L s) : CutsFit L s := by
  obtain ⟨rounds, mid, hrun, hmid⟩ := rewriteAtTimeZone_ok hs
  exact ⟨mid, zoneEnds_iff.mpr ⟨rounds, hrun⟩, (stripLock_safe_iff _ _).mp (finish_safe hmid)⟩

end scan

/-- The capital of the letter U+0250 of two bytes is U+2C6F of three. -/
def turnedRune (r : Bytes) : Bytes :=
  if r = [201, 144] then [226, 177, 175] else if r.all (fun b => !ascii b) then r else [239, 191, 189]

theorem turnedRune_foreign (r : Bytes) : ∀ b ∈ turnedRune r, ascii b = false := by
  unfold turnedRune
  split_ifs with hturned hall
  · decide +kernel
  · exact fun b hb => by simpa using all_eq_true.mp hall b hb
  · exact replacement_foreign

def turnedLetters : Letters := .ofRunes turnedRune turnedRune_foreign

def turned (n : Nat) : Bytes := (List.replicate n ([201, 144] : Bytes)).flatten

/-- A locking clause behind letters that grow. -/
def grownLock : Bytes := turned 12 ++ str " FOR UPDATE"

theorem grownLock_panics : ¬ Returns turnedLetters grownLock := by
  have hno : isNoop turnedLetters grownLock = false := by decide +kernel
  have hun : unqualified grownLock = .ok grownLock := by decide +kernel
  have htz : contains (toUpper turnedLetters grownLock) tzMarker = false := by decide +kernel
  have hlock : ¬ (finish turnedLetters grownLock).safe := by decide +kernel
  intro h
  obtain ⟨s, hs, mid, hends, hfits⟩ := (returns_iff_cutsFit hno).mp h
  cases hun.symm.trans hs
  obtain rfl := (zoneEnds_none htz).mp hends
  exact hlock ((stripLock_safe_iff _ _).mpr hfits)

/-- A time zone behind letters that grow. -/
def grownZone : Bytes := turned 4 ++ str " AT TIME ZONE 'x'"

theorem grownZone_panics : ¬ Returns turnedLetters grownZone := by
  have hno : isNoop turnedLetters grownZone = false := by decide +kernel
  have hun : unqualified grownZone = .ok grownZone := by decide +kernel
  have hstep : tzStep turnedLetters grownZone = .error .slice := by decide +kernel
  intro h
  obtain ⟨s, hs, mid, hends, -⟩ := (returns_iff_cutsFit hno).mp h
  cases hun.symm.trans hs
  cases hends with
  | done _ hdone => cases hstep.symm.trans hdone
  | round _ hround => cases hstep.symm.trans hround

end BasuyuDb.Wire.Normalize
