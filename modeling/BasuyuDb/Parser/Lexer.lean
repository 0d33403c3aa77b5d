import BasuyuDb.Lib.Text
import BasuyuDb.Storage.Keys

/-
  engine/internal/parser/lexer.go: the tokens that feed the generated parser, with their semantic values, and the
  scanners of quoted texts and numbers, on the bytes of a statement text.
-/

namespace BasuyuDb.Parser
open KvLib

/-! ## Tokens -/

/-- The tokens of the keyword table. -/
inductive Keyword where
  | SELECT | FROM | WHERE | AS | JOIN | INNER | LEFT | RIGHT | FULL | CROSS | ON | USING | AND | OR | NOT | NULL
  | IS | ORDER | BY | ASC | DESC | GROUP | HAVING | LIMIT | OFFSET | INSERT | INTO | VALUES | UPDATE | SET | DELETE
  | CREATE | TABLE | PRIMARY | KEY | INDEX | UNIQUE | BRANCH | MERGE | DROP | TRUE | FALSE | DISTINCT | ALTER
  | TRUNCATE | COLUMN | ADD | IF | EXISTS | IN | RETURNING | CONFLICT | DO | NOTHING | DEFAULT | CASE | WHEN | THEN
  | ELSE | END | UNION | INTERSECT | EXCEPT | ALL | REFERENCES | CHECK | FOREIGN | WITH | OVER | PARTITION | VIEW
  | REPLACE | COPY | TO | STDIN | STDOUT | FORMAT | DELIMITER | HEADER | SHOW | CAST | SAVEPOINT | RELEASE
  | LATERAL | SEQUENCE | EXTENSION | SCHEMA | LISTEN | NOTIFY | UNLISTEN | ENUM | TYPE | FOR | SHARE | NOWAIT
  | SKIP | LOCKED | START | INCREMENT | MINVALUE | MAXVALUE | CYCLE | CACHE | OWNED | AUTHORIZATION | NO | VACUUM
  | ANALYSE | REINDEX | ARRAY | INTERVAL | TEMP | TEMPORARY | RENAME | CONSTRAINT | RECURSIVE | EXPLAIN | VERBOSE
  | FILTER | WITHIN | MATERIALIZED | REFRESH | CONCURRENTLY | ROLLUP | CUBE | GROUPING | SETS | FETCH | FIRST
  | NEXT | ROWS | ROW | ONLY | SIMILAR | DEFERRABLE | INITIALLY | DEFERRED | IMMEDIATE | GENERATED | ALWAYS
  | IDENTITY | STORED | ACTION | CASCADE | RESTRICT | POLICY | PERMISSIVE | RESTRICTIVE | FORCE | LEVEL | SECURITY
  | ENABLE | DISABLE
deriving DecidableEq

inductive Token where
  | keyword (k : Keyword) (word : Bytes)
  | notDeferrable
  | ident (name : Bytes)
  | sconst (val : Bytes)
  | iconst (val : Bytes)
  | fconst (val : Bytes)
  | param (number : Nat)
  | jsonOp (op : Bytes)
  | vectorOp (op : Bytes)
  | compareOp (op : Bytes)
  | containOp (op : Bytes)
  | addOp (op : Bytes)
  | mulOp (op : Bytes)
  | powOp
  | star
  | typecast
  | punct (c : Byte)
deriving DecidableEq

/-! ## Bytes -/

def isDigit (c : Byte) : Bool := 48 ≤ c.val ∧ c.val ≤ 57

/-- `unicode.IsLetter` of the rune that is the byte. -/
def isLetter (c : Byte) : Bool :=
  (65 ≤ c.val ∧ c.val ≤ 90) ∨ (97 ≤ c.val ∧ c.val ≤ 122) ∨ c.val = 170 ∨ c.val = 181 ∨ c.val = 186 ∨
    (192 ≤ c.val ∧ c.val ≠ 215 ∧ c.val ≠ 247)

def isIdentPart (c : Byte) : Bool := c.val = 95 ∨ c.val = 36 ∨ isLetter c ∨ isDigit c

/-! ## Scanners -/

/-- The loops of `scanString` and `scanQuotedIdent` behind the opening quote: the value and what follows; none
if the quote is not closed. A doubled quote is a quote. -/
def scanQuoted (q : Byte) : Bytes → Option (Bytes × Bytes)
  | [] => none
  | [c] => if c = q then some ([], []) else none
  | c :: d :: s =>
    if c = q then
      if d = q then (scanQuoted q s).map (fun r => (q :: r.1, r.2)) else some ([], d :: s)
    else (scanQuoted q (d :: s)).map fun r => (c :: r.1, r.2)

/-- Digits, and with a dot the digits behind it. -/
def scanNumber (s : Bytes) : Token × Bytes :=
  let digits := s.takeWhile isDigit
  match s.dropWhile isDigit with
  | c :: rest =>
    if c.val = 46 then (.fconst (digits ++ c :: rest.takeWhile isDigit), rest.dropWhile isDigit)
    else (.iconst digits, c :: rest)
  | [] => (.iconst digits, [])

end BasuyuDb.Parser
