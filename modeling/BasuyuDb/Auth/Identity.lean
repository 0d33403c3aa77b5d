import BasuyuDb.Storage.Keys

/-
  engine/internal/auth/identity.go, devsession.go, and jwks.go from a parsed token on: the
  validated namespace and the capability token. A namespace is one path segment of every key of its
  tenant, so the whitelist is what keeps tenants apart in the key space. Signatures, key sets and
  clocks are behind `JWKSCache.parse`.
-/

namespace BasuyuDb.Auth
open Storage

/-- An error text and its arguments. -/
structure AuthError where
  msg : String
  args : List Bytes
deriving DecidableEq

/-! ## Namespaces -/

/-- The character class of `namespaceRe`. -/
def namespaceByte (b : Byte) : Bool := (97 ≤ b ∧ b ≤ 122) ∨ (65 ≤ b ∧ b ≤ 90) ∨ (48 ≤ b ∧ b ≤ 57) ∨ b = 95 ∨ b = 45

/-- `namespaceRe`: one to 128 letters, digits, underscores and hyphens. -/
def namespaceRe (raw : Bytes) : Bool := 1 ≤ raw.length ∧ raw.length ≤ 128 ∧ raw.all namespaceByte

/-- `NamespaceID`; the only constructor validates. -/
@[ext] structure NamespaceID where
  raw : Bytes
  valid : namespaceRe raw = true
deriving DecidableEq

def newNamespaceID (raw : Bytes) : Except AuthError NamespaceID :=
  if h : namespaceRe raw = true then .ok ⟨raw, h⟩
  else .error ⟨"invalid namespace identifier %q: must match [a-zA-Z0-9_-]\x7b1,128\x7d", [raw]⟩

theorem NamespaceID.slash_not_mem (ns : NamespaceID) : slash ∉ ns.raw := by
  intro hmem
  have hvalid := ns.valid
  simp only [namespaceRe, decide_eq_true_eq, List.all_eq_true] at hvalid
  cases hvalid.2.2 slash hmem

theorem newNamespaceID_raw {raw : Bytes} {ns : NamespaceID} (h : newNamespaceID raw = .ok ns) : ns.raw = raw := by
  unfold newNamespaceID at h
  split at h
  · rw [← Except.ok.inj h]
  · cases h

/-! ## Tokens and sessions -/

structure SessionClaims where
  sub : Bytes
  iss : Bytes
  jti : Bytes
  role : Bytes
  namespaceAccess : List Bytes
  namespaceID : Bytes
  email : Bytes
  azp : Bytes

/-- `Session`, the capability token. -/
structure Session where
  ns : NamespaceID
  branch : Bytes
  sub : Bytes
  jti : Bytes
  azp : Bytes
  role : Bytes
deriving DecidableEq

/-- `SessionFromClaims`; the operating namespace is the single one the claims grant. -/
def sessionFromClaims : Option SessionClaims → Except AuthError Session
  | none => .error ⟨"SessionFromClaims: claims is nil", []⟩
  | some claims =>
    if claims.namespaceID = [] then
      .error ⟨"SessionFromClaims: token does not grant exactly one namespace (namespace_access=%v); a single operating namespace is required",
        claims.namespaceAccess⟩
    else do
      let ns ← newNamespaceID claims.namespaceID
      .ok ⟨ns, [], claims.sub, claims.jti, claims.azp, claims.role⟩

def devSession (raw branch : Bytes) : Except AuthError Session := do
  let s ← sessionFromClaims (some ⟨str "dev", [], str "dev", str "service", [raw], raw, [], []⟩)
  .ok { s with branch := branch }

/-- The claims of a verified token; `namespaceAccess` is absent, no string array, or one. -/
structure JwtToken where
  subject : Bytes
  issuer : Bytes
  jti : Bytes
  role : Bytes
  namespaceAccess : Option (Option (List Bytes))
  email : Bytes
  azp : Bytes

def extractClaims (token : JwtToken) : Except AuthError SessionClaims :=
  if token.subject = [] then .error ⟨"JWT missing required 'sub' claim", []⟩
  else if token.jti = [] then .error ⟨"JWT missing required 'jti' claim", []⟩
  else if ¬(token.role = str "user" ∨ token.role = str "admin" ∨ token.role = str "service") then
    .error ⟨"JWT 'role' claim must be 'user', 'admin', or 'service'; got %q", [token.role]⟩
  else
    match token.namespaceAccess with
    | none => .error ⟨"JWT missing required 'namespace_access' claim", []⟩
    | some none => .error ⟨"JWT 'namespace_access' must be a string array: %w", []⟩
    | some (some access) =>
      if access = [str "*"] ∧ token.role ≠ str "service" then
        .error ⟨"namespace_access=[\"*\"] is only valid for role='service'", []⟩
      else
        .ok ⟨token.subject, token.issuer, token.jti, token.role, access, match access with
          | [raw] => raw
          | _ => [], token.email, token.azp⟩

/-- `JWKSCache`: what `ValidateToken` accepts at a moment, up to the parsed token. A token that
verifies carries the claims that were signed, whenever it is presented. -/
structure JWKSCache where
  parse : Nat → Bytes → Except AuthError JwtToken
  signed : ∀ {now now' : Nat} {tok : Bytes} {t t' : JwtToken},
    parse now tok = .ok t → parse now' tok = .ok t' → t = t'

def JWKSCache.validateToken (c : JWKSCache) (now : Nat) (tok : Bytes) : Except AuthError SessionClaims := do
  extractClaims (← c.parse now tok)

def JWKSCache.validateNamespace (c : JWKSCache) (now : Nat) (tok : Bytes) : Except AuthError Session :=
  match c.validateToken now tok with
  | .error e => .error ⟨"jwt validation failed: " ++ e.msg, e.args⟩
  | .ok claims => sessionFromClaims (some claims)

section sessions
variable {claims : SessionClaims} {s : Session}

theorem sessionFromClaims_ok (h : sessionFromClaims (some claims) = .ok s) :
    s.ns.raw = claims.namespaceID ∧ s.sub = claims.sub := by
  unfold sessionFromClaims at h
  dsimp only at h
  split at h
  · cases h
  · cases hns : newNamespaceID claims.namespaceID with
    | error e =>
      rw [hns] at h
      cases h
    | ok ns =>
      rw [hns] at h
      cases h
      exact ⟨newNamespaceID_raw hns, rfl⟩

theorem extractClaims_ok {token : JwtToken} (h : extractClaims token = .ok claims) :
    token.subject ≠ [] ∧ claims.sub = token.subject ∧
      ∀ raw, token.namespaceAccess = some (some [raw]) → claims.namespaceID = raw := by
  unfold extractClaims at h
  split at h
  · cases h
  · rename_i hsub
    split at h
    · cases h
    · split at h
      · cases h
      · split at h
        · cases h
        · cases h
        · rename_i access hgrant
          split at h
          · cases h
          · cases h
            refine ⟨hsub, rfl, ?_⟩
            intro raw hraw
            cases Option.some.inj (hgrant.symm.trans hraw)
            rfl

variable {now : Nat} {tok : Bytes}

theorem JWKSCache.validateNamespace_ok (c : JWKSCache)
    (h : c.validateNamespace now tok = .ok s) : ∃ t claims, c.parse now tok = .ok t ∧
      extractClaims t = .ok claims ∧ sessionFromClaims (some claims) = .ok s := by
  unfold validateNamespace validateToken at h
  cases ht : c.parse now tok with
  | error e =>
    rw [ht] at h
    cases h
  | ok t =>
    rw [ht] at h
    cases hc : extractClaims t with
    | error e =>
      simp only [bind, Except.bind, hc] at h
      cases h
    | ok claims =>
      simp only [bind, Except.bind, hc] at h
      exact ⟨t, claims, rfl, hc, h⟩

theorem JWKSCache.validateNamespace_sub (c : JWKSCache) (h : c.validateNamespace now tok = .ok s) :
    ∃ t, c.parse now tok = .ok t ∧ t.subject ≠ [] ∧ s.sub = t.subject := by
  obtain ⟨t, claims, ht, hc, hs⟩ := c.validateNamespace_ok h
  obtain ⟨hne, hsub, -⟩ := extractClaims_ok hc
  exact ⟨t, ht, hne, (sessionFromClaims_ok hs).2.trans hsub⟩

/-- Every token of these bytes that verifies grants the namespace and no other. -/
def JWKSCache.Grants (c : JWKSCache) (ns : NamespaceID) (tok : Bytes) : Prop :=
  ∀ now t, c.parse now tok = .ok t → t.namespaceAccess = some (some [ns.raw])

theorem JWKSCache.validateNamespace_granted (c : JWKSCache) {ns : NamespaceID}
    (hg : c.Grants ns tok) (h : c.validateNamespace now tok = .ok s) : s.ns = ns := by
  obtain ⟨t, claims, ht, hc, hs⟩ := c.validateNamespace_ok h
  obtain ⟨-, -, hgrant⟩ := extractClaims_ok hc
  exact NamespaceID.ext ((sessionFromClaims_ok hs).1.trans (hgrant _ (hg _ _ ht)))

theorem JWKSCache.validateNamespace_unique (c : JWKSCache) {now' : Nat} {s' : Session}
    (h : c.validateNamespace now tok = .ok s) (h' : c.validateNamespace now' tok = .ok s') : s = s' := by
  obtain ⟨t, claims, ht, hc, hs⟩ := c.validateNamespace_ok h
  obtain ⟨t', claims', ht', hc', hs'⟩ := c.validateNamespace_ok h'
  obtain rfl := c.signed ht ht'
  cases hc.symm.trans hc'
  exact Except.ok.inj (hs.symm.trans hs')

end sessions

end BasuyuDb.Auth
