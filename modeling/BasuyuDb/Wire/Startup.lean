import BasuyuDb.Auth.Identity
import BasuyuDb.Executor.Constraints
import BasuyuDb.Lib.Slices
import BasuyuDb.Lib.Text

/-
  engine/internal/session/session.go, auth/roles.go, wire/scram.go and the startup of
  wire/conn.go: how a connection gets its session. Startup parameters are what the client sends
  before it is authenticated. The SCRAM exchange is a parameter (`Scram`): a verifier, and whether
  the client's two messages answer it. Reads of the packet are checked: `cString` leaves its position behind
  the end when a string is not terminated, and a read from there panics.
-/

namespace BasuyuDb.Wire
open KvLib Storage Auth Executor

/-! ## Startup parameters -/

/-- Where the loop of `cString` stops: at a NUL or at the end of the body. -/
def stringEnd (body : Bytes) (pos : Nat) : Nat := pos + ((body.drop pos).takeWhile fun b => b ≠ 0).length

/-- `cString`: the string at the position, and the position behind its NUL. -/
def cString (body : Bytes) (pos : Nat) : Checked (Bytes × Nat) := do
  let s ← slice body pos (stringEnd body pos)
  pure (s, stringEnd body pos + 1)

/-- The loop of `handleStartupV3`: pairs of a key and a value, until an empty key; every round passes at
least one byte. -/
def startupLoop (body : Bytes) : Nat → Nat → Checked (List (Bytes × Bytes))
  | 0, _ => pure []
  | fuel + 1, pos =>
    if pos < body.length ∧ body[pos]? ≠ some 0 then do
      let (k, pos) ← cString body pos
      let (v, pos) ← cString body pos
      let rest ← startupLoop body fuel pos
      pure ((k, v) :: rest)
    else pure []

/-- The parameters of a startup packet. -/
def startupParams (body : Bytes) : Checked (List (Bytes × Bytes)) := startupLoop body body.length 4

variable (params : List (Bytes × Bytes)) (env : Env)

/-- A Go map from the pairs in order: the last value of a key, or the empty string. -/
def getParam (key : Bytes) : Bytes := ((params.reverse.find? fun kv => kv.1 = key).map Prod.snd).getD []

/-- The namespace a client asks for. -/
def startupNamespace : Bytes :=
  if getParam params (str "database") = [] then str "defaultdb" else getParam params (str "database")

/-! ## Sessions -/

/-- `session.Session`. -/
structure ConnSession where
  auth : Auth.Session
  connID : Nat
  params : List (Bytes × Bytes)
  overrideBranch : Bytes
  settings : List (Bytes × Bytes)
deriving DecidableEq

def ConnSession.new (a : Auth.Session) (connID : Nat) (params : List (Bytes × Bytes)) : ConnSession :=
  ⟨a, connID, params, [], []⟩

variable (s : ConnSession)

/-- `Namespace`. -/
def ConnSession.namespaceID : NamespaceID := s.auth.ns

def ConnSession.branch (s : ConnSession) : Bytes :=
  if s.auth.branch ≠ [] then s.auth.branch
  else if s.overrideBranch ≠ [] then s.overrideBranch
  else if getParam s.params (str "branch") ≠ [] then getParam s.params (str "branch")
  else mainBranch

/-- `User`: the startup parameter, the subject of the token, or postgres. -/
def ConnSession.user (s : ConnSession) : Bytes :=
  if getParam s.params (str "user") ≠ [] then getParam s.params (str "user")
  else if s.auth.sub ≠ [] then s.auth.sub
  else str "postgres"

def ConnSession.isBypassRLS : Bool := env.equalFold s.auth.role (str "admin")

/-- What the executor reads of the session. -/
def ConnSession.view : Executor.Session := ⟨s.namespaceID.raw, s.branch, s.user, s.isBypassRLS env, s.settings⟩

/-! ## Local roles -/

structure SCRAMVerifier where
  salt : Bytes
  iterations : Nat
  storedKey : Bytes
  serverKey : Bytes
deriving DecidableEq

/-- The SCRAM functions: the verifier of a password under a salt, the two messages a client with
the password sends to a server that uses this salt and nonce, and the server's check of them. A
client that has the password passes. -/
structure Scram where
  deriveVerifier : Bytes → Bytes → SCRAMVerifier
  respond : Bytes → Bytes → Bytes → Bytes × Bytes
  accepts : SCRAMVerifier → Bytes → Bytes × Bytes → Bool
  complete : ∀ password salt nonce, accepts (deriveVerifier password salt) nonce (respond password salt nonce) = true

/-- The upper-case table of `strings.ToUpper`, and `strings.Fields`. -/
structure Text where
  letters : Letters
  fields : Bytes → List Bytes

/-- ASCII upper case, and fields between spaces. -/
def asciiText : Text := ⟨asciiLetters, fun s => (s.splitOn 32).filter fun w => w ≠ []⟩

variable (text : Text) (scram : Scram)

/-- `RoleStore`: verifiers by normalised role name. -/
abbrev RoleStore := List (Bytes × SCRAMVerifier)

def normaliseRole (name : Bytes) : Bytes := env.trimSpace name

def RoleStore.find (roles : RoleStore) (username : Bytes) : Option SCRAMVerifier :=
  (roles.find? fun r => r.1 = normaliseRole env username).map Prod.snd

/-- `UpsertPassword`, under a fresh salt. -/
def RoleStore.upsertPassword (salt : Bytes) (roles : RoleStore) (username password : Bytes) : RoleStore :=
  (normaliseRole env username, scram.deriveVerifier password salt) ::
    roles.filter fun r => r.1 ≠ normaliseRole env username

/-- `strings.Trim(s, "\"")`. -/
def trimQuotes (s : Bytes) : Bytes := ((s.dropWhile fun b => b = 34).reverse.dropWhile fun b => b = 34).reverse

/-- The loop of `parseRolePassword` after the opening quote: a doubled quote is a quote. -/
def quotedLiteral : Bytes → Option Bytes
  | 39 :: 39 :: rest => (quotedLiteral rest).map (39 :: ·)
  | 39 :: _ => some []
  | b :: rest => (quotedLiteral rest).map (b :: ·)
  | [] => none

def parseRolePassword (sql : Bytes) : Option (Bytes × Bytes) := do
  let s := env.trimSpace sql
  let fields := text.fields s
  if fields.length < 4 then none
  else
    let name := trimQuotes (fields.getD 2 [])
    if name = [] then none
    else
      let idx ← indexOf (str "PASSWORD") (toUpper text.letters s)
      match (s.drop (idx + 8)).dropWhile (fun b => b = 32 ∨ b = 9 ∨ b = 10 ∨ b = 13) with
      | 39 :: rest => do
        let password ← quotedLiteral rest
        some (name, password)
      | _ => none

/-- The first case of `handleControl`. -/
def isRolePassword (sql : Bytes) : Bool :=
  let upper := toUpper text.letters sql
  ((str "CREATE ROLE ").isPrefixOf upper || (str "CREATE USER ").isPrefixOf upper ||
    (str "ALTER ROLE ").isPrefixOf upper || (str "ALTER USER ").isPrefixOf upper) &&
    (indexOf (str "PASSWORD") upper).isSome

/-- What a simple query does to the roles, on a connection of any namespace. -/
def provisionRole (salt : Bytes) (roles : RoleStore) (sql : Bytes) : RoleStore :=
  if isRolePassword text (env.trimSpace sql) then
    match parseRolePassword env text (env.trimSpace sql) with
    | some (name, password) => roles.upsertPassword env scram salt name password
    | none => roles
  else roles

/-- `localRoleSession`: the database of the startup packet is the namespace. -/
def localRoleSession (raw user : Bytes) : Except AuthError Auth.Session := do
  let s ← sessionFromClaims (some ⟨user, [], str "local:" ++ user, str "user", [raw], raw, [], []⟩)
  .ok { s with branch := mainBranch }

/-! ## Startup -/

structure Server where
  devMode : Bool
  roles : RoleStore
  jwks : Option JWKSCache

/-- What a client answers when it is asked to authenticate: a password message with a token, the
two messages of a SCRAM exchange, or something else. -/
inductive Answer where
  | password (tok : Bytes)
  | sasl (messages : Bytes × Bytes)
  | other (typ : Bytes)

/-- What a connection draws: the time, the server's nonce and the connection's number. -/
structure Moment where
  now : Nat
  nonce : Bytes
  connID : Nat

def authenticate (srv : Server) (at' : Moment) (params : List (Bytes × Bytes))
    (raw : Bytes) (answer : Answer) : Except AuthError Auth.Session :=
  if srv.devMode then devSession raw mainBranch
  else
    match srv.roles.find env (getParam params (str "user")) with
    | some verifier =>
      match answer with
      | .sasl messages =>
        if scram.accepts verifier at'.nonce messages then
          localRoleSession raw (getParam params (str "user"))
        else .error ⟨"scram: authentication failed (bad password)", []⟩
      | _ => .error ⟨"scram: expected SASLInitialResponse, got %q", []⟩
    | none =>
      match answer with
      | .password tok =>
        match srv.jwks with
        | none => .error ⟨"authentication unavailable: no JWKS configured", []⟩
        | some jwks => jwks.validateNamespace at'.now tok
      | _ => .error ⟨"expected password message, got %q", []⟩

/-- `handleStartupV3`, up to the session. -/
def handleStartupV3 (srv : Server) (at' : Moment) (body : Bytes)
    (answer : Answer) : Checked (Except AuthError ConnSession) := do
  let params ← startupParams body
  pure ((authenticate env scram srv at' params (startupNamespace params) answer).map fun a =>
    ConnSession.new a at'.connID params)

end BasuyuDb.Wire
