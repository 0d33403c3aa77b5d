import BasuyuDb.Lib.Base64
import BasuyuDb.Lib.Text
import BasuyuDb.Storage.BackupAad
import BasuyuDb.Executor.Execute
import BasuyuDb.Wire.Startup

/-
  engine/internal/auth/roles.go, rolestore_persist.go: the roles in memory and in their file. An operation changes the
  map before it saves it, and a save that fails does not undo the change. JSON replaces a name that is no UTF-8
  (`role_store_agrees_iff`).
-/

namespace BasuyuDb.Wire
open KvLib Executor KeyManager

abbrev Roles := OrdMap Bytes SCRAMVerifier

/-! ## Verifiers as text -/

structure PersistedVerifier where
  salt : Bytes
  iterations : Nat
  storedKey : Bytes
  serverKey : Bytes

def fromVerifier (v : SCRAMVerifier) : PersistedVerifier :=
  ⟨Base64.encode v.salt, v.iterations, Base64.encode v.storedKey, Base64.encode v.serverKey⟩

/-- The field that is no base 64 is named in the error. -/
def PersistedVerifier.toVerifier (pv : PersistedVerifier) : Except String SCRAMVerifier :=
  match Base64.decode pv.salt, Base64.decode pv.storedKey, Base64.decode pv.serverKey with
  | none, _, _ => .error "salt: %w"
  | _, none, _ => .error "stored_key: %w"
  | _, _, none => .error "server_key: %w"
  | some salt, some storedKey, some serverKey => .ok ⟨salt, pv.iterations, storedKey, serverKey⟩

theorem toVerifier_fromVerifier (v : SCRAMVerifier) : (fromVerifier v).toVerifier = .ok v := by
  simp only [PersistedVerifier.toVerifier, fromVerifier, Base64.decode_encode]

/-! ## The file -/

/-- JSON as far as the file needs it: the members of the document's one object in the order of the text, which is not
empty, and a document whose names are UTF-8 is read as it was written. The other strings are base 64. -/
structure Json where
  print : List (Bytes × PersistedVerifier) → Bytes
  parse : Bytes → Option (List (Bytes × PersistedVerifier))
  print_ne : ∀ doc, print doc ≠ []
  parse_print : ∀ doc, (∀ e ∈ doc, coerced e.1 = e.1) → parse (print doc) = some doc

/-- `persistence`, with the functions of the standard library that it calls. -/
structure Persistence where
  path : Bytes
  encKey : Bytes
  json : Json
  gcm : Gcm
  sha256 : Bytes → Bytes

def Persistence.deriveAESKey (p : Persistence) : Bytes := if p.encKey.length = 32 then p.encKey else p.sha256 p.encKey

/-- Twelve random bytes. -/
abbrev Nonce := { b : Bytes // b.length = 12 }

def Persistence.encrypt (p : Persistence) (nonce : Nonce) (plaintext : Bytes) : Bytes :=
  nonce.1 ++ p.gcm.seals p.deriveAESKey nonce.1 plaintext []

def Persistence.decrypt (p : Persistence) (blob : Bytes) : Except Err Bytes :=
  if blob.length < 12 then .error ("auth: roles file truncated (shorter than nonce)", [])
  else
    match p.gcm.opens p.deriveAESKey (blob.take 12) (blob.drop 12) [] with
    | none => .error ("auth: roles file decryption failed (wrong key or corrupt): %w", [])
    | some plaintext => .ok plaintext

/-- `json.Marshal`: the names in order, each coerced to UTF-8. -/
def Persistence.marshal (p : Persistence) (roles : Roles) : Bytes :=
  p.json.print (roles.entries.map fun e => (coerced e.1, fromVerifier e.2))

/-- `json.Unmarshal`: of members with the same name the last. -/
def Persistence.unmarshal (p : Persistence) (data : Bytes) : Except Err (OrdMap Bytes PersistedVerifier) :=
  match p.json.parse data with
  | none => .error ("auth: parse roles file %q: %w", [p.path])
  | some doc => .ok (.ofEntries doc)

/-- The bytes that `save` renames into place. -/
def Persistence.save (p : Persistence) (nonce : Nonce) (roles : Roles) : Bytes :=
  if p.encKey = [] then p.marshal roles else p.encrypt nonce (p.marshal roles)

def decodeRole (e : Bytes × PersistedVerifier) : Except Err (Bytes × SCRAMVerifier) :=
  match e.2.toVerifier with
  | .error field => .error ("auth: decode verifier for role %q: " ++ field, [e.1])
  | .ok v => .ok (e.1, v)

def Persistence.plain (p : Persistence) (raw : Bytes) : Except Err Bytes :=
  if p.encKey = [] then .ok raw else p.decrypt raw

/-- A file that is missing or empty has no roles. -/
def Persistence.load (p : Persistence) (file : Option Bytes) : Except Err Roles :=
  match file with
  | none => .ok .empty
  | some raw =>
    if raw = [] then .ok .empty
    else do
      let data ← p.plain raw
      let doc ← p.unmarshal data
      let roles ← doc.entries.mapM decodeRole
      .ok (.ofEntries roles)

/-- The roles under the names that JSON writes. -/
def written (roles : Roles) : Roles := .ofEntries (roles.entries.map fun e => (coerced e.1, e.2))

theorem mapM_decodeRole (l : List (Bytes × SCRAMVerifier)) :
    (l.map (Prod.map id fromVerifier)).mapM decodeRole = .ok l := by
  induction l with
  | nil => rfl
  | cons e l ih =>
    rw [List.map_cons, List.mapM_cons, ih, decodeRole, Prod.map_snd, toVerifier_fromVerifier]
    rfl

variable (p : Persistence) (nonce : Nonce) (roles : Roles)

theorem decrypt_encrypt (plaintext : Bytes) : p.decrypt (p.encrypt nonce plaintext) = .ok plaintext := by
  unfold Persistence.decrypt Persistence.encrypt
  rw [if_neg (by rw [List.length_append, nonce.2]; omega), List.take_left' nonce.2, List.drop_left' nonce.2, p.gcm.opened]

theorem unmarshal_marshal : p.unmarshal (p.marshal roles) =
    .ok (.ofEntries ((roles.entries.map fun e => (coerced e.1, e.2)).map (Prod.map id fromVerifier))) := by
  have hnames : ∀ e ∈ roles.entries.map fun e => (coerced e.1, fromVerifier e.2), coerced e.1 = e.1 := by
    intro e he
    obtain ⟨e', -, rfl⟩ := List.mem_map.mp he
    exact coerced_coerced e'.1
  unfold Persistence.unmarshal Persistence.marshal
  rw [p.json.parse_print _ hnames, List.map_map]
  rfl

theorem save_ne : p.save nonce roles ≠ [] := by
  unfold Persistence.save
  split_ifs
  · exact p.json.print_ne _
  · intro h
    have hlen := congrArg List.length (List.append_eq_nil_iff.mp h).1
    rw [nonce.2] at hlen
    cases hlen

theorem plain_save : p.plain (p.save nonce roles) = .ok (p.marshal roles) := by
  unfold Persistence.plain Persistence.save
  split_ifs
  · rfl
  · exact decrypt_encrypt p nonce _

theorem load_save : p.load (some (p.save nonce roles)) = .ok (written roles) := by
  have hroles := mapM_decodeRole (written roles).entries
  rw [written, ← OrdMap.entries_ofEntries_map] at hroles
  refine (if_neg (save_ne p nonce roles)).trans ?_
  rw [plain_save]
  show p.unmarshal (p.marshal roles) >>= _ = _
  rw [unmarshal_marshal]
  show List.mapM decodeRole _ >>= _ = _
  rw [hroles]
  exact congrArg Except.ok (OrdMap.ofEntries_entries _)

theorem written_eq_iff : written roles = roles ↔ ∀ name v, roles.lookup name = some v → coerced name = name := by
  constructor
  · intro h name v hv
    rw [← h] at hv
    obtain ⟨e, he, rfl⟩ := OrdMap.mem_of_lookup_ofEntries hv
    obtain ⟨e', -, rfl⟩ := List.mem_map.mp he
    exact coerced_coerced e'.1
  · intro h
    have hsame : (roles.entries.map fun e => (coerced e.1, e.2)) = roles.entries := by
      refine (List.map_congr_left fun e he => ?_).trans (List.map_id _)
      rw [h e.1 e.2 ((roles.lookup_eq_some _ _).mpr he)]
      rfl
    rw [written, hsame, OrdMap.ofEntries_entries]

/-! ## Operations -/

/-- UpsertPassword has a verifier derived from the password, or fails for want of a salt. -/
inductive RoleOp where
  | upsertPassword (username : Bytes) (derived : Option SCRAMVerifier)
  | upsertVerifier (username : Bytes) (v : SCRAMVerifier)
  | delete (username : Bytes)

/-- The map that is saved; none if the operation returns before that. -/
def RoleOp.apply (env : Env) (roles : Roles) : RoleOp → Option Roles
  | .upsertPassword username derived => derived.map fun v => roles.set (normaliseRole env username) (some v)
  | .upsertVerifier username v => some (roles.set (normaliseRole env username) (some v))
  | .delete username => some (roles.set (normaliseRole env username) none)

structure StoredRoles where
  roles : Roles
  file : Option Bytes

variable (env : Env)

/-- An operation, and the nonce of its save if that succeeds. -/
def StoredRoles.step (s : StoredRoles) (op : RoleOp × Option Nonce) : StoredRoles :=
  match op.1.apply env s.roles with
  | none => s
  | some roles => ⟨roles, op.2.elim s.file fun nonce => some (p.save nonce roles)⟩

def StoredRoles.lookup (s : StoredRoles) (username : Bytes) : Option SCRAMVerifier :=
  s.roles.lookup (normaliseRole env username)

/-- A store opened on the file has the same roles. -/
def StoredRoles.Agrees (s : StoredRoles) : Prop := p.load s.file = .ok s.roles

/-- A saved map has names in UTF-8, and one that is not saved is the one there was. -/
def Harmless (s : StoredRoles) (op : RoleOp × Option Nonce) : Prop :=
  ∀ roles, op.1.apply env s.roles = some roles →
    if op.2.isSome then ∀ name v, roles.lookup name = some v → coerced name = name else roles = s.roles

theorem agrees_step_iff {s : StoredRoles} (hs : s.Agrees p) (op : RoleOp × Option Nonce) :
    (s.step p env op).Agrees p ↔ Harmless env s op := by
  obtain ⟨op, nonce?⟩ := op
  unfold StoredRoles.step Harmless
  cases hop : op.apply env s.roles with
  | none => simpa using hs
  | some roles =>
    cases nonce? with
    | some nonce => simp [StoredRoles.Agrees, load_save, written_eq_iff]
    | none =>
      have hload : p.load s.file = .ok s.roles := hs
      simp [StoredRoles.Agrees, hload, eq_comm]

/-- The store agrees with its file after every operation if and only if it does at the start and every operation is
harmless where it is run. -/
theorem role_store_agrees_iff (s : StoredRoles) (ops : List (RoleOp × Option Nonce)) :
    (∀ s' ∈ ops.scanl (StoredRoles.step p env) s, s'.Agrees p) ↔
      s.Agrees p ∧ ∀ q ∈ (ops.scanl (StoredRoles.step p env) s).zip ops, Harmless env q.1 q.2 := by
  induction ops generalizing s with
  | nil => simp
  | cons op ops ih =>
    rw [List.scanl_cons, List.zip_cons_cons, List.forall_mem_cons, List.forall_mem_cons, ih]
    exact and_congr_right fun hs => and_congr_left' (agrees_step_iff p env hs op)

/-! ## A password whose save fails -/

def PersistedVerifier.fields : PersistedVerifier ≃ Bytes × Nat × Bytes × Bytes where
  toFun pv := (pv.salt, pv.iterations, pv.storedKey, pv.serverKey)
  invFun f := ⟨f.1, f.2.1, f.2.2.1, f.2.2.2⟩
  left_inv _ := rfl
  right_inv _ := rfl

instance : Encodable PersistedVerifier := .ofEquiv _ PersistedVerifier.fields

/-- Documents by number: the text is as long as the number says. -/
def numbered : Json where
  print doc := List.replicate (Encodable.encode doc + 1) 32
  parse data := Encodable.decode (data.length - 1)
  print_ne _ := List.cons_ne_nil _ _
  parse_print doc _ := by rw [List.length_replicate, Nat.add_sub_cancel, Encodable.encodek]

def demoPersistence : Persistence := ⟨str "roles.json", str "key", numbered, boxed, id⟩

/-- The role of a save that failed logs in, and is not in the file, which has the role that was saved before. -/
theorem unsaved_role_logs_in :
    let v : SCRAMVerifier := ⟨str "salt", 4096, [1], [2]⟩
    let ops := [(RoleOp.upsertVerifier (str "ann") v, some ⟨List.replicate 12 7, rfl⟩), (.upsertVerifier (str "bob") v, none)]
    let s := ops.foldl (StoredRoles.step demoPersistence demoEnv) ⟨.empty, none⟩
    s.lookup demoEnv (str "bob") = some v ∧ ∃ roles, demoPersistence.load s.file = .ok roles ∧
      roles.lookup (str "ann") = some v ∧ roles.lookup (str "bob") = none := by
  dsimp only [List.foldl_cons, List.foldl_nil]
  refine ⟨by decide, _, load_save .., ?_⟩
  decide

end BasuyuDb.Wire
