import BasuyuDb.Storage.Store

/-
  engine/internal/storage/store.go: Backup and Restore. A backup is the live keys and values in key order,
  each as a chunk: four bytes of length, then the bytes. `io.ReadFull` answers io.EOF when it can read
  nothing at all and io.ErrUnexpectedEOF when it can read a part. Restore takes io.EOF from the key's
  `readChunk` for the end of the backup, but that is also the answer when the backup stops between the
  length of a key and the key. `readPairs_take_ok`: the prefixes Restore accepts are those that end on a
  boundary between pairs, or there.
-/

namespace BasuyuDb.Storage
open KvLib List

/-- Which entries BadgerDB stores; it refuses the empty key. -/
structure Badger where
  accepts : Bytes → Bytes → Bool
  nonempty : ∀ v, accepts [] v = false

inductive RestoreErr where
  | eof
  | unexpectedEOF
  | refused
deriving DecidableEq

/-! ## Chunks -/

variable (s : Store Bytes) (b : Bytes) (ps : List (Bytes × Bytes)) (n : Nat) (r : Bytes)

/-- `io.ReadFull` into a buffer of `n` bytes. -/
def readFull : Except RestoreErr (Bytes × Bytes) :=
  if n ≤ r.length then .ok (r.take n, r.drop n)
  else if r = [] then .error .eof
  else .error .unexpectedEOF

def uint32 : Nat := b.foldl (fun n x => n * 256 + x.val) 0

def writeChunk : Bytes := putUint32 b.length ++ b

def readChunk : Except RestoreErr (Bytes × Bytes) := do
  let (lp, r) ← readFull 4 r
  readFull (uint32 lp) r

theorem uint32_putUint32 {n : Nat} (h : n < 2 ^ 32) : uint32 (putUint32 n) = n := by
  simp only [uint32, putUint32, foldl_cons, foldl_nil, Fin.ofNat]
  omega

theorem length_writeChunk : (writeChunk b).length = 4 + b.length := length_append

theorem readFull_append {a : Bytes} : readFull a.length (a ++ r) = .ok (a, r) := by
  unfold readFull
  rw [if_pos (by simp), take_left, drop_left]

theorem readFull_short {n : Nat} {r : Bytes} (h : r.length < n) :
    readFull n r = if r.length = 0 then .error .eof else .error .unexpectedEOF := by
  unfold readFull
  rw [if_neg (by omega)]
  simp only [length_eq_zero_iff]

theorem readChunk_take {b : Bytes} (hb : b.length < 2 ^ 32) (rest : Bytes) (n : Nat) :
    readChunk ((writeChunk b ++ rest).take n) = if 4 + b.length ≤ n then .ok (b, rest.take (n - (4 + b.length)))
      else if n = 0 ∨ n = 4 then .error .eof
      else .error .unexpectedEOF := by
  have h4 : (putUint32 b.length).length = 4 := rfl
  have hsplit : (writeChunk b ++ rest).take n = (putUint32 b.length).take n ++ (b ++ rest).take (n - 4) := by
    rw [writeChunk, append_assoc, take_append, h4]
  by_cases hn : n < 4
  · have hlen : ((writeChunk b ++ rest).take n).length = n := by
      rw [length_take, length_append, length_writeChunk]
      omega
    unfold readChunk
    rw [readFull_short (by omega), hlen, if_neg (by omega : ¬ 4 + b.length ≤ n)]
    by_cases h0 : n = 0
    · rw [if_pos h0, if_pos (.inl h0)]
      rfl
    · rw [if_neg h0, if_neg (by omega)]
      rfl
  · have hhead : readFull 4 ((writeChunk b ++ rest).take n) = .ok (putUint32 b.length, (b ++ rest).take (n - 4)) := by
      rw [hsplit, take_of_length_le (by omega)]
      exact readFull_append (a := putUint32 b.length) _
    have hbody : readChunk ((writeChunk b ++ rest).take n) = readFull b.length ((b ++ rest).take (n - 4)) := by
      unfold readChunk
      rw [hhead]
      exact congrArg (readFull · _) (uint32_putUint32 hb)
    rw [hbody]
    by_cases hall : 4 + b.length ≤ n
    · rw [if_pos hall, take_append, take_of_length_le (by omega), readFull_append, Nat.sub_sub]
    · have hlen : ((b ++ rest).take (n - 4)).length = n - 4 := by
        rw [length_take, length_append]
        omega
      rw [if_neg hall, readFull_short (by omega), hlen]
      by_cases h0 : n - 4 = 0
      · rw [if_pos h0, if_pos (.inr (by omega))]
      · rw [if_neg h0, if_neg (by omega)]

/-! ## Backups -/

def content : OrdMap Bytes Bytes := s.view s.maxVersion

def writePairs : Bytes := ps.flatMap fun e => writeChunk e.1 ++ writeChunk e.2

def backup : Bytes := writePairs (content s).entries

section restore
variable (db : Badger)

/-- The loop of `Restore`; every round reads at least one byte, or ends. -/
def readPairs : Nat → Bytes → Except RestoreErr (List (Bytes × Bytes))
  | 0, _ => .ok []
  | fuel + 1, r =>
    match readChunk r with
    | .error .eof => .ok []
    | .error e => .error e
    | .ok (k, r) => do
      let (v, r) ← readChunk r
      if db.accepts k v then
        let rest ← readPairs fuel r
        pure ((k, v) :: rest)
      else .error .refused

/-- `Restore`: all pairs in one write batch at version 1. -/
def restore (s : Store Bytes) (r : Bytes) : Except RestoreErr (Store Bytes) := do
  let ps ← readPairs db r.length r
  pure (s.writeBatch 1 (ps.map fun e => ⟨e.1, e.2, false⟩))

end restore

/-- Pairs that BadgerDB stores and whose lengths fit into four bytes. -/
def Storable (db : Badger) (e : Bytes × Bytes) : Prop :=
  db.accepts e.1 e.2 = true ∧ e.1.length < 2 ^ 32 ∧ e.2.length < 2 ^ 32

/-- The first `n` bytes of a backup end before, between or after pairs. -/
def OnBoundary : Prop :=
  ∃ i, i ≤ ps.length ∧ n = (writePairs (ps.take i)).length

/-- They end between the length of a key and the key. -/
def AfterKeyLength : Prop :=
  ∃ i, i < ps.length ∧ n = (writePairs (ps.take i)).length + 4

instance (ps : List (Bytes × Bytes)) (n : Nat) : Decidable (OnBoundary ps n) :=
  inferInstanceAs (Decidable (∃ i, i ≤ ps.length ∧ n = (writePairs (ps.take i)).length))

instance (ps : List (Bytes × Bytes)) (n : Nat) : Decidable (AfterKeyLength ps n) :=
  inferInstanceAs (Decidable (∃ i, i < ps.length ∧ n = (writePairs (ps.take i)).length + 4))

section proofs
variable {ps n} {db : Badger} {k v : Bytes}

theorem length_writePairs_cons : (writePairs ((k, v) :: ps)).length =
    (4 + k.length) + (4 + v.length) + (writePairs ps).length := by
  simp only [writePairs, flatMap_cons, length_append, length_writeChunk]

theorem onBoundary_cons : OnBoundary ((k, v) :: ps) n ↔
    n = 0 ∨ (4 + k.length) + (4 + v.length) ≤ n ∧ OnBoundary ps (n - ((4 + k.length) + (4 + v.length))) := by
  constructor
  · rintro ⟨i, hi, rfl⟩
    cases i with
    | zero => exact .inl rfl
    | succ i =>
      rw [take_succ_cons, length_writePairs_cons]
      exact .inr ⟨by omega, i, Nat.le_of_succ_le_succ hi, by omega⟩
  · rintro (rfl | ⟨hle, i, hi, hn⟩)
    · exact ⟨0, Nat.zero_le _, rfl⟩
    · refine ⟨i + 1, Nat.succ_le_succ hi, ?_⟩
      rw [take_succ_cons, length_writePairs_cons]
      omega

theorem afterKeyLength_cons : AfterKeyLength ((k, v) :: ps) n ↔
    n = 4 ∨ (4 + k.length) + (4 + v.length) ≤ n ∧ AfterKeyLength ps (n - ((4 + k.length) + (4 + v.length))) := by
  constructor
  · rintro ⟨i, hi, rfl⟩
    cases i with
    | zero => exact .inl rfl
    | succ i =>
      rw [take_succ_cons, length_writePairs_cons]
      exact .inr ⟨by omega, i, Nat.lt_of_succ_lt_succ hi, by omega⟩
  · rintro (rfl | ⟨hle, i, hi, hn⟩)
    · exact ⟨0, Nat.zero_lt_succ _, rfl⟩
    · refine ⟨i + 1, Nat.succ_lt_succ hi, ?_⟩
      rw [take_succ_cons, length_writePairs_cons]
      omega

theorem Storable.key_pos (h : Storable db (k, v)) : 0 < k.length := by
  cases k with
  | nil => exact absurd h.1 (by rw [db.nonempty v]; decide)
  | cons x k => exact Nat.zero_lt_succ _

theorem readPairs_cons (h : Storable db (k, v)) (fuel : Nat) :
    readPairs db (fuel + 1) ((writePairs ((k, v) :: ps)).take n) = if (4 + k.length) + (4 + v.length) ≤ n then
        (readPairs db fuel ((writePairs ps).take (n - ((4 + k.length) + (4 + v.length))))).map ((k, v) :: ·)
      else if n = 0 ∨ n = 4 then .ok []
      else .error (if n = 4 + k.length ∨ n = 4 + k.length + 4 then .eof else .unexpectedEOF) := by
  have hne := h.key_pos
  obtain ⟨haccepts, hk, hv⟩ := h
  dsimp only at haccepts hk hv
  have hpairs : writePairs ((k, v) :: ps) = writeChunk k ++ (writeChunk v ++ writePairs ps) := by
    simp only [writePairs, flatMap_cons, append_assoc]
  conv_lhs => unfold readPairs
  rw [hpairs, readChunk_take hk]
  by_cases hkey : 4 + k.length ≤ n
  · rw [if_pos hkey]
    dsimp only
    rw [readChunk_take hv]
    by_cases hval : (4 + k.length) + (4 + v.length) ≤ n
    · rw [if_pos (by omega : 4 + v.length ≤ n - (4 + k.length)), if_pos hval, Nat.sub_sub]
      simp only [bind, Except.bind, pure, Except.pure, haccepts, if_true]
      cases readPairs db fuel ((writePairs ps).take (n - (4 + k.length + (4 + v.length)))) with
      | error e | ok rest => rfl
    · rw [if_neg (by omega : ¬ 4 + v.length ≤ n - (4 + k.length)), if_neg hval, if_neg (by omega : ¬ (n = 0 ∨ n = 4))]
      by_cases hcut : n = 4 + k.length ∨ n = 4 + k.length + 4
      · rw [if_pos (by omega : n - (4 + k.length) = 0 ∨ n - (4 + k.length) = 4), if_pos hcut]
        rfl
      · rw [if_neg (by omega : ¬ (n - (4 + k.length) = 0 ∨ n - (4 + k.length) = 4)), if_neg hcut]
        rfl
  · rw [if_neg hkey, if_neg (by omega : ¬ 4 + k.length + (4 + v.length) ≤ n)]
    by_cases hcut : n = 0 ∨ n = 4
    · rw [if_pos hcut, if_pos hcut]
    · rw [if_neg hcut, if_neg hcut, if_neg (by omega)]

theorem isOk_map {α β : Type} (f : α → β) (x : Except RestoreErr α) : (x.map f).isOk = x.isOk := by
  cases x with
  | error e | ok a => rfl

theorem readPairs_nil (fuel : Nat) : readPairs db fuel [] = .ok [] := by
  cases fuel with
  | zero | succ fuel => rfl

theorem readPairs_writePairs (h : ∀ e ∈ ps, Storable db e) {fuel : Nat} (hfuel : (writePairs ps).length ≤ fuel) :
    readPairs db fuel (writePairs ps) = .ok ps := by
  induction ps generalizing fuel with
  | nil => exact readPairs_nil fuel
  | cons e ps ih =>
    obtain ⟨k, v⟩ := e
    rw [length_writePairs_cons] at hfuel
    obtain ⟨fuel, rfl⟩ : ∃ fuel', fuel = fuel' + 1 := ⟨fuel - 1, by omega⟩
    rw [← take_length (l := writePairs ((k, v) :: ps)), readPairs_cons (h _ mem_cons_self), length_writePairs_cons, if_pos (by omega), Nat.add_sub_cancel_left, take_length,
      ih (fun e he => h e (mem_cons_of_mem _ he)) (by omega)]
    rfl

theorem readPairs_take_ok (h : ∀ e ∈ ps, Storable db e) (hn : n ≤ (writePairs ps).length) (fuel : Nat) (hfuel : n ≤ fuel) :
    (readPairs db fuel ((writePairs ps).take n)).isOk = true ↔ OnBoundary ps n ∨ AfterKeyLength ps n := by
  induction ps generalizing fuel n with
  | nil =>
    obtain rfl : n = 0 := Nat.le_zero.mp hn
    rw [take_zero, readPairs_nil]
    exact ⟨fun _ => .inl ⟨0, le_rfl, rfl⟩, fun _ => rfl⟩
  | cons e ps ih =>
    obtain ⟨k, v⟩ := e
    rw [onBoundary_cons, afterKeyLength_cons]
    rw [length_writePairs_cons] at hn
    cases fuel with
    | zero =>
      obtain rfl : n = 0 := Nat.le_zero.mp hfuel
      rw [take_zero, readPairs_nil]
      exact ⟨fun _ => .inl (.inl rfl), fun _ => rfl⟩
    | succ fuel =>
      rw [readPairs_cons (h _ mem_cons_self)]
      have hne := (h _ mem_cons_self).key_pos
      by_cases hpair : (4 + k.length) + (4 + v.length) ≤ n
      · have hrest := ih (fun e he => h e (mem_cons_of_mem _ he)) (n := n - ((4 + k.length) + (4 + v.length)))
          (by omega) fuel (by omega)
        rw [if_pos hpair, isOk_map, hrest, and_iff_right hpair, and_iff_right hpair, or_iff_right (by omega : ¬ n = 0),
          or_iff_right (by omega : ¬ n = 4)]
      · have hcases : ((n = 0 ∨ (4 + k.length) + (4 + v.length) ≤ n ∧ OnBoundary ps (n - ((4 + k.length) + (4 + v.length)))) ∨
            n = 4 ∨ (4 + k.length) + (4 + v.length) ≤ n ∧ AfterKeyLength ps (n - ((4 + k.length) + (4 + v.length)))) ↔
            n = 0 ∨ n = 4 := by
          simp only [hpair, false_and, or_false]
        rw [if_neg hpair, hcases]
        by_cases hcut : n = 0 ∨ n = 4
        · rw [if_pos hcut]
          exact ⟨fun _ => hcut, fun _ => rfl⟩
        · rw [if_neg hcut]
          exact ⟨nofun, fun h => absurd h hcut⟩

end proofs

theorem content_writeBatch (m : OrdMap Bytes Bytes) :
    content (Versions.writeBatch [] 1 (m.entries.map fun e => ⟨e.1, e.2, false⟩)) = m := by
  generalize hms : m.entries.map (fun e => (⟨e.1, e.2, false⟩ : Mutation Bytes Bytes)) = ms
  have hmax : Versions.maxVersion (Versions.writeBatch [] 1 ms) ≤ 1 := by
    refine Versions.maxVersion_le fun x hx => ?_
    rcases Versions.mem_writeBatch hx with hx | hx
    · cases hx
    · exact Nat.le_of_eq hx
  apply OrdMap.ext_lookup
  intro k
  have hread : (content (Versions.writeBatch [] 1 ms)).lookup k = (lastEffect ms k).getD none := by
    rw [content, Versions.lookup_view]
    unfold Versions.read
    rw [← Versions.newestLe_of_maxVersion_le _ k hmax]
    exact Versions.read_writeBatch_self [] 0 ms k
  rw [hread]
  cases heff : lastEffect ms k with
  | some e =>
    obtain ⟨x, hx, rfl, rfl⟩ := lastEffect_mem heff
    rw [← hms] at hx
    obtain ⟨⟨k', v⟩, hmem, rfl⟩ := mem_map.mp hx
    exact ((OrdMap.lookup_eq_some m k' v).mpr hmem).symm
  | none =>
    symm
    rw [Option.getD_none, Option.eq_none_iff_forall_ne_some]
    intro v hv
    have hmem : (⟨k, v, false⟩ : Mutation Bytes Bytes) ∈ ms := by
      rw [← hms]
      exact mem_map.mpr ⟨(k, v), (OrdMap.lookup_eq_some m k v).mp hv, rfl⟩
    exact lastEffect_eq_none.mp heff _ hmem rfl

/-- Backup and Restore. The backup of a store restores its content; a truncated backup that does not end on
a boundary between pairs is refused exactly when it does not end between the length of a key and the key. -/
theorem backup_restore_iff (db : Badger) (s : Store Bytes) (h : ∀ e ∈ (content s).entries, Storable db e) :
    (∃ s', restore db [] (backup s) = .ok s' ∧ content s' = content s) ∧
      ∀ n, n < (backup s).length → ¬ OnBoundary (content s).entries n →
        ((restore db [] ((backup s).take n)).isOk = false ↔ ¬ AfterKeyLength (content s).entries n) := by
  constructor
  · refine ⟨_, ?_, content_writeBatch (content s)⟩
    unfold restore backup
    rw [readPairs_writePairs h le_rfl]
    rfl
  · intro n hn hbound
    have hok := readPairs_take_ok h (Nat.le_of_lt hn) ((backup s).take n).length
      (by rw [length_take]; exact Nat.le_min.mpr ⟨le_rfl, Nat.le_of_lt hn⟩)
    rw [or_iff_right hbound] at hok
    have hsame : (restore db [] ((backup s).take n)).isOk = (readPairs db ((backup s).take n).length ((backup s).take n)).isOk := by
      unfold restore
      cases readPairs db ((backup s).take n).length ((backup s).take n) with
      | error e | ok ps => rfl
    rw [hsame, ← hok, Bool.not_eq_true]
    rfl

/-! A store with one pair: its backup has 11 bytes. -/

def anyBadger : Badger := ⟨fun k _ => decide (k ≠ []), fun _ => rfl⟩

def onePair : Store Bytes := [⟨str "k", 1, some (str "vw")⟩]

/-- The prefix of five bytes, in which the value is missing, is refused. -/
theorem backup_restore_cut : ¬ OnBoundary (content onePair).entries 5 ∧
    (restore anyBadger [] ((backup onePair).take 5)).isOk = false := by
  have hstorable : ∀ e ∈ (content onePair).entries, Storable anyBadger e := by
    have hentries : (content onePair).entries = [(str "k", str "vw")] := by decide +kernel
    intro e he
    rw [hentries] at he
    obtain rfl := mem_singleton.mp he
    exact ⟨by decide, by decide, by decide⟩
  have hbound : ¬ OnBoundary (content onePair).entries 5 := by decide +kernel
  have hiff := (backup_restore_iff anyBadger onePair hstorable).2 5 (by decide +kernel) hbound
  exact ⟨hbound, hiff.mpr (by decide +kernel)⟩

/-- The prefix of four bytes, the length of the key, is restored as the empty store. -/
theorem truncated_backup_restored : ¬ OnBoundary (content onePair).entries 4 ∧ 4 < (backup onePair).length ∧
    restore anyBadger [] ((backup onePair).take 4) = .ok [] := by
  refine ⟨by decide +kernel, by decide +kernel, ?_⟩
  rfl

end BasuyuDb.Storage
