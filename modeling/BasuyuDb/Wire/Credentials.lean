import BasuyuDb.Wire.Startup

/-
  What a client's credentials give it. A verified token fixes the namespace of a connection. It does
  not fix the user: `User` prefers the startup parameter, so two connections with one token have one
  identity exactly when their startup packets name one user (`SameUser`). A local role fixes
  neither: the role store is one for all namespaces, every connection may write it, and
  `localRoleSession` takes the namespace from the startup packet. So a client that holds tokens of
  one namespace stays in it exactly when none of its accepted role logins asks for another
  (`Confined`).
-/

namespace BasuyuDb.Wire
open KvLib Storage Auth Executor List

section authenticate
variable {env : Env} {scram : Scram} {srv : Server} {at' : Moment} {params : List (Bytes × Bytes)}
  {raw : Bytes} {answer : Answer} {a : Auth.Session}

theorem localRoleSession_ok {user : Bytes} (h : localRoleSession raw user = .ok a) : a.ns.raw = raw := by
  obtain ⟨s, hs, ha⟩ := ok_of_bind h
  cases ha
  exact (sessionFromClaims_ok hs).1

theorem localRoleSession_valid (user : Bytes) (h : namespaceRe raw = true) :
    ∃ a, localRoleSession raw user = .ok a := by
  have hne : raw ≠ [] := by
    rintro rfl
    cases h
  simp only [localRoleSession, sessionFromClaims, if_neg hne, newNamespaceID, dif_pos h]
  exact ⟨_, rfl⟩

theorem authenticate_ok (hdev : srv.devMode = false) (h : authenticate env scram srv at' params raw answer = .ok a) :
    (∃ verifier messages, srv.roles.find env (getParam params (str "user")) = some verifier ∧
        answer = .sasl messages ∧ scram.accepts verifier at'.nonce messages = true ∧
        localRoleSession raw (getParam params (str "user")) = .ok a) ∨
      (srv.roles.find env (getParam params (str "user")) = none ∧
        ∃ tok jwks, answer = .password tok ∧ srv.jwks = some jwks ∧ jwks.validateNamespace at'.now tok = .ok a) := by
  unfold authenticate at h
  rw [if_neg (by rw [hdev]; exact Bool.false_ne_true)] at h
  cases hfind : srv.roles.find env (getParam params (str "user")) with
  | some verifier =>
    rw [hfind] at h
    cases answer with
    | sasl messages =>
      dsimp only at h
      split at h
      · rename_i hacc
        exact .inl ⟨verifier, messages, rfl, rfl, hacc, h⟩
      · cases h
    | password tok | other typ => cases h
  | none =>
    rw [hfind] at h
    cases answer with
    | password tok =>
      dsimp only at h
      split at h
      · cases h
      · rename_i jwks hjwks
        exact .inr ⟨rfl, tok, jwks, rfl, hjwks, h⟩
    | sasl messages | other typ => cases h

theorem handleStartupV3_ok {body : Bytes} {s : ConnSession}
    (h : handleStartupV3 env scram srv at' body answer = .ok (.ok s)) :
    ∃ params a, startupParams body = .ok params ∧
      authenticate env scram srv at' params (startupNamespace params) answer = .ok a ∧
        s = ConnSession.new a at'.connID params := by
  obtain ⟨params, hparams, hs⟩ := ok_of_bind h
  have hmap := Except.ok.inj hs
  cases hauth : authenticate env scram srv at' params (startupNamespace params) answer with
  | ok a =>
    rw [hauth] at hmap
    exact ⟨params, a, hparams, hauth, (Except.ok.inj hmap).symm⟩
  | error e =>
    rw [hauth] at hmap
    cases hmap

end authenticate

/-! ## One token, two connections -/

/-- The functions of expressions read nothing of a session but its user and its settings. -/
def ReadsIdentity (env : Env) : Prop :=
  ∀ (site : Site) (s s' : Executor.Session) (f : Bytes) (args : List (ExecM Value)),
    s.user = s'.user → s.settings = s'.settings → env.call site (some s) f args = env.call site (some s') f args

theorem sameIdentity_of_user {env : Env} (hcall : ReadsIdentity env) {s s' : Executor.Session}
    (huser : s.user = s'.user) (hset : s.settings = s'.settings) :
    SameIdentity env (some s) (some s') where
  keyword := by
    intro site fields
    unfold keyword
    split
    · simp only [huser]
    · rfl
  call := fun site f args => hcall site s s' f args huser hset

/-- The startup packets name one user, to a token of this subject. -/
def SameUser (subject : Bytes) (params params' : List (Bytes × Bytes)) : Prop :=
  getParam params (str "user") = getParam params' (str "user") ∨
    (getParam params (str "user") = [] ∧ getParam params' (str "user") = subject) ∨
    (getParam params' (str "user") = [] ∧ getParam params (str "user") = subject)

theorem user_eq_iff {a : Auth.Session} (hsub : a.sub ≠ []) (connID connID' : Nat)
    (params params' : List (Bytes × Bytes)) :
    (ConnSession.new a connID params).user = (ConnSession.new a connID' params').user ↔
      SameUser a.sub params params' := by
  unfold ConnSession.user SameUser
  simp only [ConnSession.new]
  by_cases hu : getParam params (str "user") = []
  · by_cases hu' : getParam params' (str "user") = []
    · simp only [hu, hu', hsub, ne_eq, not_true_eq_false, if_false, not_false_eq_true, if_true, true_or]
    · simp only [hu, hu', hsub, ne_eq, not_true_eq_false, if_false, not_false_eq_true, if_true,
        true_and, false_and, or_false]
      exact ⟨fun h => .inr h.symm, fun h => h.elim (fun h => absurd h.symm hu') Eq.symm⟩
  · by_cases hu' : getParam params' (str "user") = []
    · simp only [hu, hu', hsub, ne_eq, not_true_eq_false, if_false, not_false_eq_true, if_true,
        true_and, false_and, false_or]
    · simp only [hu, hu', ne_eq, not_false_eq_true, if_true, false_and, or_false]

section token
variable {env : Env} {scram : Scram} {jwks : JWKSCache} {tok : Bytes}

theorem password_session {srv : Server} {at' : Moment} {body : Bytes} {s : ConnSession}
    (hdev : srv.devMode = false) (hj : srv.jwks = some jwks)
    (h : handleStartupV3 env scram srv at' body (.password tok) = .ok (.ok s)) :
    ∃ params a, jwks.validateNamespace at'.now tok = .ok a ∧ s = ConnSession.new a at'.connID params := by
  obtain ⟨params, a, -, ha, rfl⟩ := handleStartupV3_ok h
  obtain ⟨verifier, messages, -, hans, -⟩ | ⟨-, tok', jwks', hans, hj', hv⟩ := authenticate_ok hdev ha
  · cases hans
  · obtain rfl := Answer.password.inj hans
    cases hj.symm.trans hj'
    exact ⟨params, a, hv, rfl⟩

/-- Two connections with one token: the namespace is the token's; the user, and with it every
decision of row security, is the same exactly when the startup packets name one user. -/
theorem token_identity (hcall : ReadsIdentity env) {srv srv' : Server} {at' at'' : Moment}
    {body body' : Bytes} {s s' : ConnSession} {t : JwtToken} (hdev : srv.devMode = false)
    (hdev' : srv'.devMode = false) (hj : srv.jwks = some jwks) (hj' : srv'.jwks = some jwks)
    (ht : jwks.parse at'.now tok = .ok t) (h : handleStartupV3 env scram srv at' body (.password tok) = .ok (.ok s))
    (h' : handleStartupV3 env scram srv' at'' body' (.password tok) = .ok (.ok s')) : s.namespaceID = s'.namespaceID ∧
      (s.user = s'.user ↔ SameUser t.subject s.params s'.params) ∧
      (SameUser t.subject s.params s'.params → ∀ settings sch table cmd params cells site,
          rlsRowAllowed env sch table ({ s with settings := settings }.view env) cmd params cells site =
            rlsRowAllowed env sch table ({ s' with settings := settings }.view env) cmd params cells site) := by
  obtain ⟨ps, a, ha, rfl⟩ := password_session hdev hj h
  obtain ⟨ps', a', ha', rfl⟩ := password_session hdev' hj' h'
  obtain rfl := jwks.validateNamespace_unique ha ha'
  obtain ⟨t', ht', hne, hsub⟩ := jwks.validateNamespace_sub ha
  cases ht.symm.trans ht'
  have huser := user_eq_iff (hsub ▸ hne) at'.connID at''.connID ps ps'
  rw [hsub] at huser
  refine ⟨rfl, huser, ?_⟩
  intro hsame settings sch table cmd params cells site
  have hview : ({ ConnSession.new a at'.connID ps with settings := settings }.view env).user =
      ({ ConnSession.new a at''.connID ps' with settings := settings }.view env).user :=
    huser.mpr hsame
  have hs := sameIdentity_of_user hcall hview rfl
  simp only [rlsRowAllowed, rlsScope, applicablePolicies, hview, anyPermissive_congr hs, failedRestrictive_congr hs]

end token

/-! ### Concrete parties -/

variable (database : String) (params : List (String × String))

/-- The packet of a startup message. -/
def startupPacket : Bytes := [0, 3, 0, 0] ++ params.flatMap (fun kv => str kv.1 ++ [0] ++ str kv.2 ++ [0]) ++ [0]

/-- A key set that verifies one token, which grants the namespace `a` to the subject `sub`. -/
def demoJwks : JWKSCache where
  parse := fun _ tok =>
    if tok = str "jwt" then
      .ok ⟨str "sub", [], str "jti", str "user", some (some [str "a"]), [], []⟩
    else .error ⟨"invalid token", []⟩
  signed := by
    intro now now' tok t t' h h'
    exact Except.ok.inj (h.symm.trans h')

/-- Verifiers that hold the password, answered with the password and the nonce. -/
def demoScram : Scram where
  deriveVerifier := fun password salt => ⟨salt, 4096, password, password⟩
  respond := fun password _ nonce => (password, nonce)
  accepts := fun v nonce messages => messages = (v.storedKey, nonce)
  complete := by
    intro password salt nonce
    exact decide_eq_true rfl

def demoServer : Server := ⟨false, [], some demoJwks⟩

def demoMoment : Moment := ⟨0, str "n", 1⟩

/-- The policy `owner = current_user` on a table t(owner). -/
def ownerSchema : TableSchema :=
  ⟨str "t", [.plain "owner" OIDText], none, true, false, [⟨str "p", .all, true, [], str "e", []⟩]⟩

def tokenLogin : Checked (Except AuthError ConnSession) :=
  handleStartupV3 ownerEnv demoScram demoServer demoMoment (startupPacket params) (.password (str "jwt"))

/-- One token, two users, and the row of one of them. -/
theorem token_user_differs : ∃ s s', tokenLogin [("user", "alice")] = .ok (.ok s) ∧
    tokenLogin [("user", "bob")] = .ok (.ok s') ∧ s.user ≠ s'.user ∧
    rlsRowAllowed ownerEnv ownerSchema (str "t") (s.view ownerEnv) .select [] [some (str "alice")] ⟨0, 0⟩ = .ok true ∧
    rlsRowAllowed ownerEnv ownerSchema (str "t") (s'.view ownerEnv) .select [] [some (str "alice")] ⟨0, 0⟩ =
      .ok false := by
  refine ⟨_, _, rfl, rfl, ?_, ?_, ?_⟩
  · decide +kernel
  · rfl
  · rfl

def tokenSession : ConnSession :=
  .new ⟨⟨str "a", by decide⟩, [], str "sub", str "jti", [], str "user"⟩ 1
    (params.map fun kv => (str kv.1, str kv.2))

/-- Database and branch differ; the subject stands for the user that one packet leaves out. -/
theorem token_same_user : ∃ s s', tokenLogin [("user", "sub"), ("database", "b")] = .ok (.ok s) ∧
    tokenLogin [("branch", "dev"), ("options", "x")] = .ok (.ok s') ∧ s.namespaceID = s'.namespaceID ∧
    s.user = s'.user ∧ ∀ cells, rlsRowAllowed ownerEnv ownerSchema (str "t") (s.view ownerEnv) .select [] cells ⟨0, 0⟩ =
      rlsRowAllowed ownerEnv ownerSchema (str "t") (s'.view ownerEnv) .select [] cells ⟨0, 0⟩ := by
  have hsame : SameUser (str "sub") (tokenSession [("user", "sub"), ("database", "b")]).params
      (tokenSession [("branch", "dev"), ("options", "x")]).params :=
    .inr (.inr ⟨by decide +kernel, by decide +kernel⟩)
  have hreads : ReadsIdentity ownerEnv := fun _ _ _ _ _ _ _ => rfl
  have ht : demoJwks.parse demoMoment.now (str "jwt") =
      .ok ⟨str "sub", [], str "jti", str "user", some (some [str "a"]), [], []⟩ := rfl
  have h : tokenLogin [("user", "sub"), ("database", "b")] =
      .ok (.ok (tokenSession [("user", "sub"), ("database", "b")])) := rfl
  have h' : tokenLogin [("branch", "dev"), ("options", "x")] =
      .ok (.ok (tokenSession [("branch", "dev"), ("options", "x")])) := rfl
  obtain ⟨hns, huser, hrls⟩ := token_identity hreads rfl rfl rfl rfl ht h h'
  exact ⟨_, _, h, h', hns, huser.mpr hsame, fun cells => hrls hsame [] _ _ _ _ cells _⟩

/-! ## Runs of a client -/

/-- What a client does, and what happens beside it. -/
inductive Action where
  | connect (at' : Moment) (body : Bytes) (answer : Answer)
  | query (i : Nat) (salt sql : Bytes)
  | others (roles : RoleStore)

/-- The server and the sessions the client obtained. -/
structure Client where
  srv : Server
  sessions : List ConnSession

section runs
variable (env : Env) (text : Text) (scram : Scram)

/-- One action. The roles are the server's; a statement on one of the client's sessions changes
nothing else of what authentication reads. -/
def Client.act (c : Client) : Action → Client
  | .connect at' body answer =>
    match handleStartupV3 env scram c.srv at' body answer with
    | .ok (.ok s) => { c with sessions := s :: c.sessions }
    | _ => c
  | .query i salt sql =>
    if i < c.sessions.length then
      { c with srv.roles := provisionRole env text scram salt c.srv.roles sql }
    else c
  | .others roles => { c with srv.roles := roles }

/-- A login the server accepts for a local role asks for the namespace. -/
def Confined (ns : NamespaceID) (srv : Server) : Action → Prop
  | .connect at' body answer =>
    ∀ params verifier messages, startupParams body = .ok params →
      srv.roles.find env (getParam params (str "user")) = some verifier →
      answer = .sasl messages → scram.accepts verifier at'.nonce messages = true →
      namespaceRe (startupNamespace params) = true → startupNamespace params = ns.raw
  | _ => True

def ConfinedRun (ns : NamespaceID) : Client → List Action → Prop
  | _, [] => True
  | c, a :: as => Confined env scram ns c.srv a ∧ ConfinedRun ns (c.act env text scram a) as

/-- The tokens the client sends grant the namespace. -/
def HoldsTokens (jwks : JWKSCache) (ns : NamespaceID) : Action → Prop
  | .connect _ _ (.password tok) => jwks.Grants ns tok
  | _ => True

theorem Client.act_srv (c : Client) (a : Action) :
    (c.act env text scram a).srv.devMode = c.srv.devMode ∧ (c.act env text scram a).srv.jwks = c.srv.jwks := by
  cases a with
  | connect at' body answer | query i salt sql =>
    unfold Client.act
    dsimp only
    split
    · exact ⟨rfl, rfl⟩
    · exact ⟨rfl, rfl⟩
  | others roles => exact ⟨rfl, rfl⟩

variable {env} {text} {scram} {jwks : JWKSCache} {ns : NamespaceID} {srv : Server}

theorem connect_confined_iff {at' : Moment} {body : Bytes} {answer : Answer} (hdev : srv.devMode = false)
    (hj : srv.jwks = some jwks) (hheld : HoldsTokens jwks ns (.connect at' body answer)) :
    (∀ s, handleStartupV3 env scram srv at' body answer = .ok (.ok s) → s.namespaceID = ns) ↔
      Confined env scram ns srv (.connect at' body answer) := by
  constructor
  · intro hns params verifier messages hparams hfind hans hacc hvalid
    obtain ⟨a, ha⟩ := localRoleSession_valid (getParam params (str "user")) hvalid
    have hauth : authenticate env scram srv at' params (startupNamespace params) answer = .ok a := by
      simp only [authenticate, hdev, Bool.false_eq_true, if_false, hfind, hans, hacc, if_true, ha]
    have hstart : handleStartupV3 env scram srv at' body answer =
        .ok (.ok (ConnSession.new a at'.connID params)) := by
      unfold handleStartupV3
      rw [hparams]
      exact congrArg Except.ok (by rw [hauth]; rfl)
    have hname : a.ns = ns := hns _ hstart
    exact (localRoleSession_ok ha).symm.trans (congrArg NamespaceID.raw hname)
  · intro hconf s hs
    obtain ⟨params, a, hparams, ha, rfl⟩ := handleStartupV3_ok hs
    obtain ⟨verifier, messages, hfind, hans, hacc, hlocal⟩ | ⟨-, tok, jwks', hans, hj', hv⟩ := authenticate_ok hdev ha
    · have hraw := localRoleSession_ok hlocal
      have hvalid : namespaceRe (startupNamespace params) = true := hraw ▸ a.ns.valid
      exact NamespaceID.ext (hraw.trans (hconf params verifier messages hparams hfind hans hacc hvalid))
    · subst hans
      cases hj.symm.trans hj'
      exact jwks.validateNamespace_granted hheld hv

theorem Client.act_confined_iff (c : Client) (a : Action) (hdev : c.srv.devMode = false)
    (hj : c.srv.jwks = some jwks) (hheld : HoldsTokens jwks ns a) :
    (∀ s ∈ (c.act env text scram a).sessions, s.namespaceID = ns) ↔
      (∀ s ∈ c.sessions, s.namespaceID = ns) ∧ Confined env scram ns c.srv a := by
  cases a with
  | connect at' body answer =>
    rw [← connect_confined_iff hdev hj hheld]
    unfold Client.act
    dsimp only
    cases hs : handleStartupV3 env scram c.srv at' body answer with
    | ok r =>
      cases r with
      | ok s =>
        simp only [mem_cons, forall_eq_or_imp, Except.ok.injEq, forall_eq']
        exact and_comm
      | error e => simp only [Except.ok.injEq, reduceCtorEq, false_imp_iff, implies_true, and_true]
    | error e => simp only [reduceCtorEq, false_imp_iff, implies_true, and_true]
  | query i salt sql =>
    unfold Client.act
    dsimp only
    split
    · simp only [Confined, and_true]
    · simp only [Confined, and_true]
  | others roles => simp only [Client.act, Confined, and_true]

theorem Client.run_confined_iff (acts : List Action) (c : Client) (hdev : c.srv.devMode = false)
    (hj : c.srv.jwks = some jwks) (hheld : ∀ a ∈ acts, HoldsTokens jwks ns a) :
    (∀ s ∈ (acts.foldl (Client.act env text scram) c).sessions, s.namespaceID = ns) ↔
      (∀ s ∈ c.sessions, s.namespaceID = ns) ∧ ConfinedRun env text scram ns c acts := by
  induction acts generalizing c with
  | nil => simp only [foldl_nil, ConfinedRun, and_true]
  | cons a acts ih =>
    obtain ⟨hdev', hj'⟩ := c.act_srv env text scram a
    rw [foldl_cons, ih _ (hdev'.trans hdev) (hj'.trans hj) fun b hb => hheld b (mem_cons_of_mem _ hb),
      c.act_confined_iff a hdev hj (hheld a mem_cons_self), ConfinedRun, and_assoc]

/-- From the first connection on, a client whose tokens grant one namespace has sessions of that
namespace only, exactly when every login the server accepts for a local role asked for it. -/
theorem client_confined_iff (hdev : srv.devMode = false) (hj : srv.jwks = some jwks) (acts : List Action)
    (hheld : ∀ a ∈ acts, HoldsTokens jwks ns a) :
    (∀ s ∈ (acts.foldl (Client.act env text scram) ⟨srv, []⟩).sessions, s.namespaceID = ns) ↔
      ConfinedRun env text scram ns ⟨srv, []⟩ acts := by
  rw [Client.run_confined_iff acts ⟨srv, []⟩ hdev hj hheld]
  simp only [not_mem_nil, false_imp_iff, implies_true, true_and]

end runs

/-- The client connects with its token, gives a role a password, and logs in as that role. -/
def roleLogin : List Action :=
  [.connect demoMoment (startupPacket [("user", "alice"), ("database", "a")]) (.password (str "jwt")),
    .query 0 (str "salt") (str "CREATE ROLE mallory PASSWORD 'x'"),
    .connect demoMoment (startupPacket [("user", "mallory"), ("database", database)])
      (.sasl (demoScram.respond (str "x") (str "salt") demoMoment.nonce))]

def roleClient : Client := (roleLogin database).foldl (Client.act ownerEnv asciiText demoScram) ⟨demoServer, []⟩

def demoNamespace : NamespaceID := ⟨str "a", by decide⟩

theorem roleLogin_holds : ∀ a ∈ roleLogin database, HoldsTokens demoJwks demoNamespace a := by
  intro a ha
  simp only [roleLogin, mem_cons, not_mem_nil, or_false] at ha
  obtain rfl | rfl | rfl := ha
  · intro now t ht
    simp only [demoJwks, if_true] at ht
    rw [← Except.ok.inj ht]
    rfl
  · trivial
  · trivial

/-- With the token of the namespace a, the client has a session of the namespace b. -/
theorem role_login_escapes : (∀ a ∈ roleLogin "b", HoldsTokens demoJwks demoNamespace a) ∧
    ∃ s ∈ (roleClient "b").sessions, s.namespaceID.raw = str "b" := by
  refine ⟨roleLogin_holds "b", ?_⟩
  decide +kernel

theorem role_login_own_namespace : (roleClient "a").sessions.length = 2 ∧
    ∀ s ∈ (roleClient "a").sessions, s.namespaceID = demoNamespace := by
  refine ⟨by decide +kernel, ?_⟩
  refine (client_confined_iff rfl rfl (roleLogin "a") (roleLogin_holds "a")).mpr ⟨?_, trivial, ?_, trivial⟩
  · intro params verifier messages _ _ hans
    cases hans
  · intro params verifier messages hparams _ _ _ _
    have hread : startupParams (startupPacket [("user", "mallory"), ("database", "a")]) =
        .ok [(str "user", str "mallory"), (str "database", str "a")] := by decide +kernel
    obtain rfl := Except.ok.inj (hread.symm.trans hparams)
    decide +kernel

end BasuyuDb.Wire
