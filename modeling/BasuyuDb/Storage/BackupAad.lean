import BasuyuDb.Executor.Value

/-
  engine/internal/keymanager/aad.go, fallback.go: the associated data of a backup. Its bytes determine its fields, so a
  ciphertext opens under the fields it was sealed with and no others (`aad_binds`).
-/

namespace BasuyuDb.KeyManager
open KvLib Storage Executor

structure BackupAAD where
  version : BitVec 32
  namespaceID : Bytes
  backupJobID : Bytes
  backupType : Bytes
  createdAtNs : BitVec 64

/-- The format of an error, and what it is given. -/
abbrev Err := String × List Bytes

def writeStringField (name : String) (s : Bytes) : Except Err Bytes :=
  if s.length > 65535 then
    .error ("keymanager: AAD serialise " ++ name ++ ": string field exceeds maximum length of 65535 bytes (%d bytes)",
      [formatNat s.length])
  else .ok (putUint16 s.length ++ s)

/-- The version 0 is written as 1. -/
def BackupAAD.writtenVersion (a : BackupAAD) : BitVec 32 := if a.version = 0 then 1 else a.version

def BackupAAD.serialize (a : BackupAAD) : Except Err Bytes :=
  if a.namespaceID = [] then .error ("keymanager: BackupAAD.NamespaceID must not be empty", [])
  else if a.backupJobID = [] then .error ("keymanager: BackupAAD.BackupJobID must not be empty", [])
  else if a.backupType ≠ str "full" ∧ a.backupType ≠ str "incremental" then
    .error ("keymanager: BackupAAD.BackupType must be %q or %q, got %q", [str "full", str "incremental", a.backupType])
  else do
    let ns ← writeStringField "NamespaceID" a.namespaceID
    let job ← writeStringField "BackupJobID" a.backupJobID
    let type ← writeStringField "BackupType" a.backupType
    .ok (putUint32 a.writtenVersion.toNat ++ (ns ++ (job ++ (type ++ putUint64 a.createdAtNs.toNat))))

/-- AES-GCM as far as a backup needs it: sealed data opens with the associated data it was sealed with, and with no
other. -/
structure Gcm where
  seals : (key nonce plaintext aad : Bytes) → Bytes
  opens : (key nonce body aad : Bytes) → Option Bytes
  tag : ∀ key nonce plaintext aad, 16 ≤ (seals key nonce plaintext aad).length
  opened : ∀ key nonce plaintext aad, opens key nonce (seals key nonce plaintext aad) aad = some plaintext
  bound : ∀ key nonce plaintext aad key' nonce' aad' out,
    opens key' nonce' (seals key nonce plaintext aad) aad' = some out → aad' = aad

variable (gcm : Gcm) (dek : Bytes → Bytes)

/-- The key of a namespace is derived from its name, with a nonce of 12 bytes. -/
def encryptBackup (nonce : Bytes) (aad : BackupAAD) (plaintext : Bytes) : Except Err Bytes := do
  let aadBytes ← aad.serialize
  .ok (nonce ++ gcm.seals (dek aad.namespaceID) nonce plaintext aadBytes)

def decryptBackup (aad : BackupAAD) (ciphertext : Bytes) : Except Err Bytes := do
  let aadBytes ← aad.serialize
  if ciphertext.length < 12 + 16 then
    .error ("keymanager: ciphertext too short (%d bytes, minimum %d)", [formatNat ciphertext.length, formatNat 28])
  else
    match gcm.opens (dek aad.namespaceID) (ciphertext.take 12) (ciphertext.drop 12) aadBytes with
    | none => .error ("keymanager: authentication failed — ciphertext or AAD tampered (namespace_id=%s, job_id=%s)",
        [aad.namespaceID, aad.backupJobID])
    | some plaintext => .ok plaintext

theorem field_inj {name : String} {s s' w w' r r' : Bytes} (hw : writeStringField name s = .ok w)
    (hw' : writeStringField name s' = .ok w') (h : w ++ r = w' ++ r') : s = s' ∧ r = r' := by
  unfold writeStringField at hw hw'
  split_ifs at hw hw'
  cases hw
  cases hw'
  simp only [putUint16, List.cons_append, List.nil_append, List.cons.injEq, Fin.ext_iff, Fin.ofNat] at h
  exact List.append_inj h.2.2 (by omega)

theorem putUint64_inj {m n : Nat} (hm : m < 2 ^ 64) (hn : n < 2 ^ 64) (h : putUint64 m = putUint64 n) : m = n := by
  simp only [putUint64, putUint32, List.cons_append, List.nil_append, List.cons.injEq, Fin.ext_iff, Fin.ofNat] at h
  omega

/-- The fields agree, with the versions 0 and 1 as one. -/
def BackupAAD.SameFields (a b : BackupAAD) : Prop :=
  a.namespaceID = b.namespaceID ∧ a.backupJobID = b.backupJobID ∧ a.backupType = b.backupType ∧
    a.createdAtNs = b.createdAtNs ∧ a.writtenVersion = b.writtenVersion

theorem serialize_inj {a b : BackupAAD} {bytes : Bytes} (ha : a.serialize = .ok bytes) (hb : b.serialize = .ok bytes) :
    a.SameFields b := by
  unfold BackupAAD.serialize at ha hb
  split_ifs at ha hb
  obtain ⟨ns, hns, ha⟩ := ok_of_bind ha
  obtain ⟨job, hjob, ha⟩ := ok_of_bind ha
  obtain ⟨type, htype, ha⟩ := ok_of_bind ha
  obtain ⟨ns', hns', hb⟩ := ok_of_bind hb
  obtain ⟨job', hjob', hb⟩ := ok_of_bind hb
  obtain ⟨type', htype', hb⟩ := ok_of_bind hb
  obtain ⟨hversion, h⟩ := List.append_inj (Except.ok.inj (ha.trans hb.symm)) rfl
  obtain ⟨h1, h⟩ := field_inj hns hns' h
  obtain ⟨h2, h⟩ := field_inj hjob hjob' h
  obtain ⟨h3, h⟩ := field_inj htype htype' h
  refine ⟨h1, h2, h3, BitVec.eq_of_toNat_eq ?_, BitVec.eq_of_toNat_eq ?_⟩
  · exact putUint64_inj a.createdAtNs.isLt b.createdAtNs.isLt h
  · exact putUint32_inj a.writtenVersion.isLt b.writtenVersion.isLt hversion

theorem serialize_eq {a b : BackupAAD} (h : a.SameFields b) : b.serialize = a.serialize := by
  obtain ⟨hns, hjob, htype, hcreated, hversion⟩ := h
  unfold BackupAAD.serialize
  rw [hns, hjob, htype, hcreated, hversion]

/-- Equal bytes come from equal fields, and a backup opens under the fields it was sealed with only. -/
theorem aad_binds (a b : BackupAAD) :
    (∀ bytes, a.serialize = .ok bytes → b.serialize = .ok bytes → a.SameFields b) ∧
      ∀ nonce plaintext ciphertext out, nonce.length = 12 → encryptBackup gcm dek nonce a plaintext = .ok ciphertext →
        (decryptBackup gcm dek b ciphertext = .ok out ↔ a.SameFields b ∧ out = plaintext) := by
  refine ⟨fun _ => serialize_inj, fun nonce plaintext ciphertext out hnonce henc => ?_⟩
  obtain ⟨bytes, ha, hct⟩ := ok_of_bind henc
  cases hct
  have hopen : decryptBackup gcm dek a (nonce ++ gcm.seals (dek a.namespaceID) nonce plaintext bytes) = .ok plaintext := by
    have htag := gcm.tag (dek a.namespaceID) nonce plaintext bytes
    have hlong : ¬(nonce ++ gcm.seals (dek a.namespaceID) nonce plaintext bytes).length < 12 + 16 := by
      rw [List.length_append]
      omega
    rw [decryptBackup, ha]
    refine (if_neg hlong).trans ?_
    rw [List.take_left' hnonce, List.drop_left' hnonce, gcm.opened]
  refine ⟨fun hdec => ?_, fun ⟨hsame, hout⟩ => ?_⟩
  · have hsame : a.SameFields b := by
      obtain ⟨bytes', hb, hdec⟩ := ok_of_bind hdec
      rw [List.take_left' hnonce, List.drop_left' hnonce] at hdec
      split_ifs at hdec
      split at hdec
      · cases hdec
      · rename_i hopen
        exact serialize_inj ha (gcm.bound _ _ _ _ _ _ _ _ hopen ▸ hb)
    refine ⟨hsame, Except.ok.inj (hdec.symm.trans (Eq.trans ?_ hopen))⟩
    rw [decryptBackup, decryptBackup, serialize_eq hsame, hsame.1, hsame.2.1]
  · rw [hout, ← hopen, decryptBackup, decryptBackup, serialize_eq hsame, hsame.1, hsame.2.1]

/-! ## A box that carries its associated data -/

def lid : Bytes → Bytes
  | [] => List.replicate 16 0
  | b :: aad => 1 :: b :: lid aad

theorem lid_inj {a b r : Bytes} (h : lid b <+: lid a ++ r) : b = a := by
  induction b generalizing a with
  | nil =>
    cases a with
    | nil => rfl
    | cons x a => cases (List.cons_prefix_cons.mp h).1
  | cons y b ih =>
    cases a with
    | nil => cases (List.cons_prefix_cons.mp h).1
    | cons x a =>
      obtain ⟨rfl, hrest⟩ := List.cons_prefix_cons.mp (List.cons_prefix_cons.mp h).2
      rw [ih hrest]

def boxed : Gcm where
  seals _ _ plaintext aad := lid aad ++ plaintext
  opens _ _ body aad := if lid aad <+: body then some (body.drop (lid aad).length) else none
  tag := by
    intro _ _ plaintext aad
    induction aad with
    | nil => simp [lid]
    | cons b aad ih =>
      simp only [lid, List.cons_append, List.length_cons]
      omega
  opened := by simp
  bound := by
    intro _ _ _ _ _ _ _ _ h
    exact lid_inj (Option.ite_none_right_eq_some.mp h).1

/-- The associated data of a full backup. -/
def fullBackup (version : BitVec 32) (ns job : String) : BackupAAD := ⟨version, str ns, str job, str "full", 7⟩

/-- A backup opens for its job, with the version written as 0 or as 1, and not when a byte of the job is moved to the
namespace. -/
theorem aad_binds_moved : ∃ ciphertext,
    encryptBackup boxed id (List.replicate 12 5) (fullBackup 0 "a" "bc") (str "rows") = .ok ciphertext ∧
      decryptBackup boxed id (fullBackup 1 "a" "bc") ciphertext = .ok (str "rows") ∧
      ∀ out, decryptBackup boxed id (fullBackup 0 "ab" "c") ciphertext ≠ .ok out := by
  refine ⟨_, rfl, ?_, fun out hdec => ?_⟩
  · exact ((aad_binds boxed id _ _).2 (List.replicate 12 5) _ _ _ rfl rfl).mpr ⟨⟨rfl, rfl, rfl, rfl, rfl⟩, rfl⟩
  · obtain ⟨⟨hns, -⟩, -⟩ := ((aad_binds boxed id (fullBackup 0 "a" "bc") _).2 (List.replicate 12 5) _ _ out rfl rfl).mp hdec
    exact absurd hns (by decide)

end BasuyuDb.KeyManager
