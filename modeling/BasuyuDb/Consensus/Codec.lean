import BasuyuDb.Consensus.StateMachine

/-
  engine/internal/consensus/codec.go: the bytes of a proposal. The decoder compares every position with
  the length of the payload before it reads there. One round of its loop succeeds exactly when an encoded
  mutation is at its position (`readMutations_succ`), so what it accepts does not depend on what follows,
  and a payload that was cut anywhere is refused.
-/

namespace BasuyuDb.Consensus
open KvLib Storage Transactions Checked List

/-! ## The codec -/

/-- One mutation of a proposal: its flag, its key and its value, with their lengths. -/
def marshalMutation (flag : Byte) (key value : Bytes) : Bytes :=
  flag :: (putUint32 key.length ++ (key ++ (putUint32 value.length ++ value)))

def deleteFlag (delete : Bool) : Byte := if delete then 1 else 0

def marshalMutations (muts : List (Mut Bytes)) : Bytes :=
  muts.flatMap fun m => marshalMutation (deleteFlag m.delete) m.key m.value

def marshalProposal (readTS : Nat) (muts : List (Mut Bytes)) : Bytes :=
  putUint64 readTS ++ (putUint32 muts.length ++ marshalMutations muts)

/-- The loop of `unmarshalProposal`: the mutations still to be read, and the position. -/
def readMutations (b : Bytes) : Nat → Nat → Checked (Except String (List (Mut Bytes)))
  | 0, _ => pure (.ok [])
  | n + 1, pos =>
    if pos + 1 + 4 > b.length then pure (.error "consensus: truncated mutation header")
    else do
      let flag ← indexAt b pos
      let klen ← uint32At b (pos + 1)
      if pos + 5 + klen + 4 > b.length then pure (.error "consensus: truncated key")
      else
        let key ← slice b (pos + 5 : Nat) (pos + 5 + klen : Nat)
        let vlen ← uint32At b (pos + 5 + klen)
        if pos + 5 + klen + 4 + vlen > b.length then pure (.error "consensus: truncated value")
        else
          let val ← slice b (pos + 5 + klen + 4 : Nat) (pos + 5 + klen + 4 + vlen : Nat)
          let rest ← readMutations b n (pos + 5 + klen + 4 + vlen)
          pure (rest.map (⟨key, val, flag = 1⟩ :: ·))

def unmarshalProposal (b : Bytes) : Checked (Except String (Nat × List (Mut Bytes))) :=
  if b.length < 12 then pure (.error "consensus: short proposal")
  else do
    let readTS ← uint64At (← slice b 0 8) 0
    let n ← uint32At (← slice b 8 12) 0
    let muts ← readMutations b n 12
    pure (muts.map (readTS, ·))

/-! ## One mutation -/

section rounds
variable {b : Bytes} {n pos : Nat}

theorem uint64At_putUint64 (hn : n < 2 ^ 64) : uint64At (putUint64 n) 0 = .ok n := by
  have hread : uint64At (putUint64 n) 0 = .ok (((((((n / 2 ^ 32 / 16777216 % 256 * 256 + n / 2 ^ 32 / 65536 % 256) * 256 +
      n / 2 ^ 32 / 256 % 256) * 256 + n / 2 ^ 32 % 256) * 256 + n / 16777216 % 256) * 256 + n / 65536 % 256) * 256 +
      n / 256 % 256) * 256 + n % 256) := rfl
  rw [hread, Except.ok.injEq]
  omega

theorem length_marshalMutation (flag : Byte) (key value : Bytes) :
    (marshalMutation flag key value).length = 5 + key.length + 4 + value.length := by
  simp only [marshalMutation, length_cons, length_append, putUint32, length_nil]
  omega

theorem indexAt_inv {flag : Byte} (h : indexAt b pos = .ok flag) : b.drop pos = flag :: b.drop (pos + 1) := by
  unfold indexAt at h
  cases hget : b[pos]? with
  | none => simp only [hget] at h; cases h
  | some x =>
    simp only [hget] at h
    cases h
    obtain ⟨hlt, rfl⟩ := List.getElem?_eq_some_iff.mp hget
    exact drop_eq_getElem_cons hlt

theorem slice_inv {s : Bytes} {len : Nat} (h : slice b pos (pos + len : Nat) = .ok s) :
    s.length = len ∧ ∃ r, b.drop pos = s ++ r := by
  by_cases hle : pos + len ≤ b.length
  · rw [slice_ok (by omega) hle, drop_take, Nat.add_sub_cancel_left] at h
    cases h
    refine ⟨?_, b.drop (pos + len), ?_⟩
    · rw [length_take, length_drop]
      omega
    · rw [← drop_drop, take_append_drop]
  · rw [slice_panics (by omega)] at h
    cases h

theorem readMutations_at {flag : Byte} {key val r : Bytes} (hk : key.length < 2 ^ 32) (hv : val.length < 2 ^ 32)
    (h : b.drop pos = marshalMutation flag key val ++ r) :
    readMutations b (n + 1) pos = (do
      let rest ← readMutations b n (pos + (marshalMutation flag key val).length)
      pure (rest.map (⟨key, val, flag = 1⟩ :: ·))) := by
  have hpos : pos ≤ b.length := Nat.le_of_lt (lt_of_drop_cons h)
  have hend := le_of_append hpos h
  have hflag : b.drop pos = [flag] ++ (putUint32 key.length ++ (key ++ (putUint32 val.length ++ (val ++ r)))) := by
    rw [h, marshalMutation]
    simp only [cons_append, append_assoc, nil_append]
  have hklen := drop_of_append hflag
  have hkey := drop_of_append hklen
  have hvlen := drop_of_append hkey
  have hval := drop_of_append hvlen
  rw [length_marshalMutation] at hend ⊢
  change b.drop (pos + 1) = _ at hklen
  change b.drop (pos + 1 + 4) = _ at hkey
  change b.drop (pos + 1 + 4 + key.length) = _ at hvlen
  change b.drop (pos + 1 + 4 + key.length + 4) = _ at hval
  rw [Nat.add_assoc pos 1 4] at hkey hvlen hval
  have hindex : indexAt b pos = .ok flag := by
    unfold indexAt
    rw [← head?_drop, hflag]
    rfl
  conv_lhs => unfold readMutations
  rw [if_neg (by omega), hindex]
  dsimp only [bind, Except.bind]
  rw [uint32At_putUint32 hk hklen]
  dsimp only
  rw [if_neg (by omega), slice_at (by omega) hkey]
  dsimp only
  rw [uint32At_putUint32 hv hvlen]
  dsimp only
  rw [if_neg (by omega), slice_at (by omega) hval]
  rw [show pos + (5 + key.length + 4 + val.length) = pos + 5 + key.length + 4 + val.length by omega]

theorem readMutations_inv {ms : List (Mut Bytes)} (h : readMutations b (n + 1) pos = .ok (.ok ms)) :
    ∃ flag key val r, key.length < 2 ^ 32 ∧ val.length < 2 ^ 32 ∧ b.drop pos = marshalMutation flag key val ++ r := by
  unfold readMutations at h
  by_cases hhead : pos + 1 + 4 > b.length
  · rw [if_pos hhead] at h
    cases h
  rw [if_neg hhead] at h
  obtain ⟨flag, hflag, h⟩ := bind_ok.mp h
  obtain ⟨klen, hklen, h⟩ := bind_ok.mp h
  by_cases hcut : pos + 5 + klen + 4 > b.length
  · rw [if_pos hcut] at h
    cases h
  rw [if_neg hcut] at h
  obtain ⟨key, hkey, h⟩ := bind_ok.mp h
  obtain ⟨vlen, hvlen, h⟩ := bind_ok.mp h
  by_cases hshort : pos + 5 + klen + 4 + vlen > b.length
  · rw [if_pos hshort] at h
    cases h
  rw [if_neg hshort] at h
  obtain ⟨val, hval, -⟩ := bind_ok.mp h
  obtain ⟨hk, r₁, hdrop₁⟩ := uint32At_inv hklen
  obtain ⟨rfl, r₂, hdrop₂⟩ := slice_inv hkey
  obtain ⟨hv, r₃, hdrop₃⟩ := uint32At_inv hvlen
  obtain ⟨rfl, r₄, hdrop₄⟩ := slice_inv hval
  refine ⟨flag, key, val, r₄, hk, hv, ?_⟩
  have h₁ := drop_of_append hdrop₁
  have h₂ := drop_of_append hdrop₂
  have h₃ := drop_of_append hdrop₃
  change b.drop (pos + 1 + 4) = r₁ at h₁
  change b.drop (pos + 5 + key.length + 4) = r₃ at h₃
  rw [indexAt_inv hflag, hdrop₁, ← h₁, Nat.add_assoc pos 1 4, hdrop₂, ← h₂, hdrop₃, ← h₃, hdrop₄, marshalMutation]
  simp only [cons_append, append_assoc]

theorem readMutations_safe (b : Bytes) (n pos : Nat) : Checked.safe (readMutations b n pos) := by
  induction n generalizing pos with
  | zero => exact safe_pure _
  | succ n ih =>
    unfold readMutations
    refine safe_ite (fun _ => safe_pure _) fun hhead => ?_
    have hindex : ∃ flag, indexAt b pos = .ok flag := by
      unfold indexAt
      rw [getElem?_eq_getElem (by omega)]
      exact ⟨_, rfl⟩
    obtain ⟨flag, hflag⟩ := hindex
    obtain ⟨klen, hklen⟩ := uint32At_safe b (pos + 1) (by omega)
    refine safe_bind.mpr ⟨flag, hflag, safe_bind.mpr ⟨klen, hklen, ?_⟩⟩
    refine safe_ite (fun _ => safe_pure _) fun hkey => ?_
    obtain ⟨vlen, hvlen⟩ := uint32At_safe b (pos + 5 + klen) (by omega)
    refine safe_bind.mpr ⟨_, slice_ok (by omega) (by omega), safe_bind.mpr ⟨vlen, hvlen, ?_⟩⟩
    refine safe_ite (fun _ => safe_pure _) fun hval => ?_
    obtain ⟨rest, hrest⟩ := ih (pos + 5 + klen + 4 + vlen)
    exact safe_bind.mpr ⟨_, slice_ok (by omega) (by omega), safe_bind.mpr ⟨rest, hrest, safe_pure _⟩⟩

end rounds

/-! ## Whole proposals -/

/-- Lengths that four bytes can hold. -/
def FitsLengths (muts : List (Mut Bytes)) : Prop :=
  muts.length < 2 ^ 32 ∧ ∀ m ∈ muts, m.key.length < 2 ^ 32 ∧ m.value.length < 2 ^ 32

section proposals
variable {b : Bytes} {n pos : Nat} {ms : List (Mut Bytes)}

theorem deleteFlag_eq_one (d : Bool) : decide (deleteFlag d = 1) = d := by
  cases d with
  | false | true => rfl

theorem readMutations_marshal {r : Bytes} (hms : ∀ m ∈ ms, m.key.length < 2 ^ 32 ∧ m.value.length < 2 ^ 32)
    (h : b.drop pos = marshalMutations ms ++ r) : readMutations b ms.length pos = .ok (.ok ms) := by
  induction ms generalizing pos with
  | nil => rfl
  | cons m ms ih =>
    obtain ⟨hk, hv⟩ := hms m mem_cons_self
    have hm : b.drop pos = marshalMutation (deleteFlag m.delete) m.key m.value ++ (marshalMutations ms ++ r) := by
      rw [h, marshalMutations, flatMap_cons, append_assoc, marshalMutations]
    rw [length_cons, readMutations_at hk hv hm,
      ih (fun m' hm' => hms m' (mem_cons_of_mem _ hm')) (drop_of_append hm), deleteFlag_eq_one]
    rfl

theorem readMutations_append (t : Bytes) (hpos : pos ≤ b.length) (h : readMutations b n pos = .ok (.ok ms)) :
    readMutations (b ++ t) n pos = .ok (.ok ms) ∧ pos + (marshalMutations ms).length ≤ b.length := by
  induction n generalizing pos ms with
  | zero =>
    cases Except.ok.inj h
    exact ⟨rfl, hpos⟩
  | succ n ih =>
    obtain ⟨flag, key, val, r, hk, hv, hdrop⟩ := readMutations_inv h
    have hdrop' : (b ++ t).drop pos = marshalMutation flag key val ++ (r ++ t) := by
      rw [drop_append_of_le_length hpos, hdrop, append_assoc]
    have hle := le_of_append hpos hdrop
    rw [readMutations_at hk hv hdrop] at h
    obtain ⟨rest, hrest, h⟩ := bind_ok.mp h
    cases rest with
    | error e => cases h
    | ok rest =>
      cases Except.ok.inj h
      obtain ⟨hread, hlen⟩ := ih hle hrest
      constructor
      · rw [readMutations_at hk hv hdrop', hread]
        rfl
      · rw [marshalMutations, flatMap_cons, length_append, ← marshalMutations]
        rw [length_marshalMutation] at hlen ⊢
        dsimp only
        omega

theorem unmarshalProposal_safe (b : Bytes) : Checked.safe (unmarshalProposal b) := by
  unfold unmarshalProposal
  refine safe_ite (fun _ => safe_pure _) fun hlen => ?_
  have hts : slice b 0 8 = .ok _ := slice_ok (i := 0) (j := 8) (by omega) (by omega)
  have hn : slice b 8 12 = .ok _ := slice_ok (i := 8) (j := 12) (by omega) (by omega)
  obtain ⟨readTS, hread⟩ := uint64At_safe ((b.take 8).drop 0) 0 (by simp only [drop_zero, length_take]; omega)
  obtain ⟨n, hcount⟩ := uint32At_safe ((b.take 12).drop 8) 0 (by simp only [length_drop, length_take]; omega)
  obtain ⟨muts, hmuts⟩ := readMutations_safe b n 12
  exact safe_bind.mpr ⟨_, hts, safe_bind.mpr ⟨readTS, hread, safe_bind.mpr ⟨_, hn,
    safe_bind.mpr ⟨n, hcount, safe_bind.mpr ⟨muts, hmuts, safe_pure _⟩⟩⟩⟩⟩

theorem length_marshalProposal (readTS : Nat) (ms : List (Mut Bytes)) :
    (marshalProposal readTS ms).length = 12 + (marshalMutations ms).length := by
  simp only [marshalProposal, putUint64, putUint32, length_append, length_cons, length_nil]
  omega

theorem unmarshalProposal_marshal {readTS : Nat} (hts : readTS < 2 ^ 64) (hms : FitsLengths ms) :
    unmarshalProposal (marshalProposal readTS ms) = .ok (.ok (readTS, ms)) := by
  have hcount : (marshalProposal readTS ms).drop 8 = putUint32 ms.length ++ marshalMutations ms := rfl
  have hlen : ¬ (marshalProposal readTS ms).length < 12 := by
    rw [length_marshalProposal]
    omega
  have hsliceTS : slice (marshalProposal readTS ms) 0 8 = .ok (putUint64 readTS) :=
    slice_at (s := putUint64 readTS) (Nat.zero_le _) rfl
  have hsliceN : slice (marshalProposal readTS ms) 8 12 = .ok (putUint32 ms.length) := slice_at (by omega) hcount
  have hbody : (marshalProposal readTS ms).drop 12 = marshalMutations ms ++ [] := by
    rw [append_nil]
    rfl
  unfold unmarshalProposal
  rw [if_neg hlen]
  refine bind_ok.mpr ⟨_, hsliceTS, bind_ok.mpr ⟨_, uint64At_putUint64 hts, bind_ok.mpr ⟨_, hsliceN,
    bind_ok.mpr ⟨_, uint32At_putUint32 (r := []) hms.1 rfl, bind_ok.mpr ⟨_, readMutations_marshal hms.2 hbody, rfl⟩⟩⟩⟩⟩

theorem slice_append {i j : Nat} (hij : i ≤ j) (hj : j ≤ b.length) (t : Bytes) : slice (b ++ t) i j = slice b i j := by
  rw [slice_ok hij hj, slice_ok hij (by rw [length_append]; omega), take_append_of_le_length hj]

theorem unmarshalProposal_append {readTS : Nat} (t : Bytes) (h : unmarshalProposal b = .ok (.ok (readTS, ms))) :
    unmarshalProposal (b ++ t) = .ok (.ok (readTS, ms)) ∧ 12 + (marshalMutations ms).length ≤ b.length := by
  unfold unmarshalProposal at h ⊢
  by_cases hlen : b.length < 12
  · rw [if_pos hlen] at h
    cases h
  rw [if_neg hlen] at h
  obtain ⟨ts, hts, h⟩ := bind_ok.mp h
  obtain ⟨readTS', hread, h⟩ := bind_ok.mp h
  obtain ⟨count, hcount, h⟩ := bind_ok.mp h
  obtain ⟨n, hn, h⟩ := bind_ok.mp h
  obtain ⟨muts, hmuts, h⟩ := bind_ok.mp h
  cases muts with
  | error e => cases h
  | ok muts =>
    obtain ⟨rfl, rfl⟩ := Prod.mk.inj (Except.ok.inj (Except.ok.inj h))
    obtain ⟨hmuts', hle⟩ := readMutations_append t (by omega) hmuts
    refine ⟨?_, hle⟩
    rw [if_neg (by rw [length_append]; omega)]
    exact bind_ok.mpr ⟨ts, (slice_append (i := 0) (j := 8) (by omega) (by omega) t).trans hts,
      bind_ok.mpr ⟨readTS', hread, bind_ok.mpr ⟨count, (slice_append (i := 8) (j := 12) (by omega) (by omega) t).trans hcount,
        bind_ok.mpr ⟨n, hn, bind_ok.mpr ⟨_, hmuts', rfl⟩⟩⟩⟩⟩

end proposals

/-- A proposal is decoded to what was encoded, and every payload cut short is refused with an error. -/
theorem proposal_codec (readTS : Nat) (muts : List (Mut Bytes)) (hts : readTS < 2 ^ 64) (hfits : FitsLengths muts) :
    unmarshalProposal (marshalProposal readTS muts) = .ok (.ok (readTS, muts)) ∧
      ∀ b, b <+: marshalProposal readTS muts → b ≠ marshalProposal readTS muts →
        ∃ e, unmarshalProposal b = .ok (.error e) := by
  have hround := unmarshalProposal_marshal hts hfits
  refine ⟨hround, fun b ⟨t, ht⟩ hne => ?_⟩
  obtain ⟨x, hx⟩ := unmarshalProposal_safe b
  cases x with
  | error e => exact ⟨e, hx⟩
  | ok p =>
    obtain ⟨readTS', muts'⟩ := p
    obtain ⟨hread, hle⟩ := unmarshalProposal_append t hx
    rw [ht, hround] at hread
    obtain ⟨rfl, rfl⟩ := Prod.mk.inj (Except.ok.inj (Except.ok.inj hread))
    -- nothing was cut: what was read is as long as the whole payload
    have hlen : b.length + t.length = 12 + (marshalMutations muts).length := by
      rw [← length_append, ht, length_marshalProposal]
    obtain rfl : t = [] := eq_nil_of_length_eq_zero (by omega)
    exact absurd (by rw [← ht, append_nil]) hne

/-- A deletion and a write; the payload without its last byte. -/
theorem proposal_codec_cut :
    unmarshalProposal (marshalProposal 7 [⟨str "k", [], true⟩, ⟨str "l", str "v", false⟩]) =
        .ok (.ok (7, [⟨str "k", [], true⟩, ⟨str "l", str "v", false⟩])) ∧
      ∃ e, unmarshalProposal ((marshalProposal 7 [⟨str "k", [], true⟩, ⟨str "l", str "v", false⟩]).take 32) =
        .ok (.error e) := by
  have hcodec := proposal_codec 7 [⟨str "k", [], true⟩, ⟨str "l", str "v", false⟩] (by decide) ⟨by decide, by decide⟩
  exact ⟨hcodec.1, hcodec.2 _ (List.take_prefix ..) (by decide)⟩

end BasuyuDb.Consensus
