import BasuyuDb.Wire.Protocol

/-
  What a message may do to the transaction engine. `Frame`: calls on one transaction. `Within`: calls of
  one message, which touch no transaction begun before it but the one its connection owns, and commit
  nothing of others. `handle_moves`: every message stays within that, whatever it is and however it fails,
  and its calls are steps of the engine.
-/

namespace BasuyuDb.Wire
open KvLib Storage Transactions Executor List Option

/-! ## What calls change -/

/-- Calls of the engine, one after the other. A flush fails only if the store does. -/
def Calls (io : Io) : Sys Val → Sys Val → Prop :=
  Reach Sys.step fun _ a => io.flushFail = none → a.isFlushFail = false

variable {io : Io} {s s' : Sys Val} {t : Nat}

theorem Calls.refl : Calls io s s := Reach.init

theorem Calls.trans {s'' : Sys Val} (h : Calls io s s') (h' : Calls io s' s'') : Calls io s s'' := Reach.trans h h'

theorem Calls.call (s : Sys Val) {a : Call Val} (h : io.flushFail = none → a.isFlushFail = false) :
    Calls io s (call s a) := by
  unfold Wire.call
  cases hstep : s.step a with
  | none => exact .refl
  | some s' => exact Reach.init.step h hstep

theorem Calls.foldl_buffer (t : Nat) (ms : List (Mut Val)) (s : Sys Val) :
    Calls io s (ms.foldl (fun s m => Wire.call s (.buffer t m)) s) := by
  induction ms generalizing s with
  | nil => exact .refl
  | cons m ms ih => exact (Calls.call s fun _ => rfl).trans (ih _)

theorem commitTxn_calls (s : Sys Val) (t : Nat) (io : Io) : Calls io s (commitTxn s t io).2 := by
  have hreserve : Calls io s (call s (.commit t io.fault)) := .call s fun _ => rfl
  unfold commitTxn
  split
  · exact .refl
  · dsimp only
    split
    · exact (hreserve.trans (.call _ fun _ => rfl)).trans (.call _ fun _ => rfl)
    · rename_i persisted hio
      exact hreserve.trans (.call _ fun h => absurd (h.symm.trans hio) nofun)
  · exact hreserve

/-- Only the transaction `t` changes, and no commit is left in progress. -/
structure Frame (io : Io) (t : Nat) (s s' : Sys Val) : Prop where
  run : Calls io s s'
  idle : s'.eng.phase = .idle
  length : s'.eng.txns.length = s.eng.txns.length
  others : ∀ u, u ≠ t → s'.eng.txns[u]? = s.eng.txns[u]?

theorem Frame.refl (h : s.eng.phase = .idle) : Frame io t s s := ⟨.refl, h, rfl, fun _ _ => rfl⟩

theorem Frame.trans {s'' : Sys Val} (h : Frame io t s s') (h' : Frame io t s' s'') : Frame io t s s'' :=
  ⟨h.run.trans h'.run, h'.idle, h'.length.trans h.length, fun u hu => (h'.others u hu).trans (h.others u hu)⟩

section calls
variable {i : Nat} {T : Txn Val} {α : Type}

theorem frame_setTxn {s' : Sys Val} {T' : Txn Val} (hrun : Calls io s s') (hidle : s'.eng.phase = .idle)
    (htxns : s'.eng.txns = s.eng.txns.set t T') : Frame io t s s' := by
  refine ⟨hrun, hidle, ?_, ?_⟩
  · rw [htxns, length_set]
  · intro u hu
    rw [htxns, getElem?_set_ne (Ne.symm hu)]

theorem getElem?_set_own {txns : List (Txn Val)} {T' : Txn Val} (hT : txns[t]? = some T) :
    (txns.set t T')[t]? = some T' :=
  getElem?_set_self (List.getElem?_eq_some_iff.mp hT).1

/-- The transaction with more in its buffer. -/
def buffered (s : Sys Val) (t : Nat) (T : Txn Val) (ms : List (Mut Val)) : Sys Val :=
  { s with eng := s.eng.setTxn t { T with mutations := T.mutations ++ ms } }

theorem foldl_buffer (hidle : s.eng.phase = .idle) (hT : s.eng.txns[t]? = some T) (ms : List (Mut Val)) :
    ms.foldl (fun s m => call s (.buffer t m)) s = buffered s t T ms := by
  induction ms generalizing s T with
  | nil =>
    obtain ⟨hlt, rfl⟩ := List.getElem?_eq_some_iff.mp hT
    have hself : s.eng.txns.set t { s.eng.txns[t] with mutations := s.eng.txns[t].mutations ++ [] } = s.eng.txns := by
      rw [append_nil]
      exact set_getElem_self hlt
    unfold buffered Engine.setTxn
    rw [hself]
    rfl
  | cons m ms ih =>
    have hcall : call s (.buffer t m) = buffered s t T [m] := by
      simp only [call, Sys.step, Engine.step, hidle, Phase.ownedBy, hT, Bool.false_eq_true, if_false, map_some,
        getD_some, Sys.record, Sys.sees, buffered]
    have hown : (buffered s t T [m]).eng.txns[t]? = some { T with mutations := T.mutations ++ [m] } :=
      getElem?_set_own hT
    have htail := ih (s := buffered s t T [m]) hidle hown
    rw [foldl_cons, hcall, htail]
    simp only [buffered, Engine.setTxn, set_set, append_assoc, singleton_append]

theorem runIn_eq (hidle : s.eng.phase = .idle) (hT : s.eng.txns[t]? = some T) (p : Stm α) :
    (runIn s t i p).sys = buffered s t T (runIn s t i p).issued := by
  unfold runIn
  rw [hT]
  dsimp only
  split
  · rw [← foldl_buffer hidle hT]
    rfl
  · exact foldl_buffer hidle hT _

theorem rollback_eq (hidle : s.eng.phase = .idle) (hT : s.eng.txns[t]? = some T) (hdone : T.done = false) :
    call s (.rollback t) = { s with eng := s.eng.setTxn t { T with mutations := [], done := true } } := by
  simp only [call, Sys.step, Engine.step, hidle, Phase.ownedBy, hT, hdone, Bool.false_eq_true, if_false,
    map_some, getD_some, Sys.record, Sys.sees]

theorem rollback_hist : (call s (.rollback t)).hist = s.hist := by
  unfold call Sys.step
  cases s.eng.step (.rollback t) with
  | none | some r => rfl

theorem rollback_frame (hidle : s.eng.phase = .idle) : Frame io t s (call s (.rollback t)) := by
  have hrun : Calls io s (call s (.rollback t)) := .call s fun _ => rfl
  cases hT : s.eng.txns[t]? with
  | none =>
    have hcall : call s (.rollback t) = s := by
      simp only [call, Sys.step, Engine.step, hidle, Phase.ownedBy, hT, Bool.false_eq_true, if_false, map_none,
        getD_none]
    rw [hcall]
    exact .refl hidle
  | some T =>
    cases hdone : T.done with
    | true =>
      have hcall : call s (.rollback t) = s := by
        simp only [call, Sys.step, Engine.step, hidle, Phase.ownedBy, hT, hdone, Bool.false_eq_true, if_false, if_true,
          map_some, getD_some, Sys.record, Sys.sees]
      rw [hcall]
      exact .refl hidle
    | false =>
      rw [rollback_eq hidle hT hdone] at hrun ⊢
      exact frame_setTxn hrun hidle rfl

/-- The commit a transaction makes of its buffer. -/
def commitOf (s : Sys Val) (t : Nat) (T : Txn Val) : List (Commit Val) :=
  if T.mutations = [] then [] else [⟨t, T.readUint, s.eng.clock + 1, T.mutations⟩]

theorem call_of_step {c : Call Val} {r : Engine Val × Reply} (h : s.eng.step c = some r) :
    call s c = ⟨r.1, s.record c, s.sees c⟩ := by
  simp only [call, Sys.step, h, map_some, getD_some]

theorem commitTxn_frame (hidle : s.eng.phase = .idle) (hT : s.eng.txns[t]? = some T) (hdone : T.done = false) (io : Io) :
    Frame io t s (commitTxn s t io).2 ∧
      (((commitTxn s t io).1 = .ok ∧ (commitTxn s t io).2.hist = s.hist ++ commitOf s t T) ∨
        ((commitTxn s t io).1 ≠ .ok ∧ (commitTxn s t io).2.hist = s.hist)) := by
  have hstart : s.eng.step (.commit t io.fault) = s.eng.startCommit t io.fault T := by
    simp only [Engine.step, hidle, Phase.ownedBy, hT, Bool.false_eq_true, if_false, bind_some]
  have hrun := commitTxn_calls s t io
  unfold commitTxn at hrun ⊢
  by_cases hempty : T.mutations = []
  · have hstep : s.eng.step (.commit t io.fault) = some (s.eng.setTxn t { T with done := true }, .ok) := by
      rw [hstart]
      simp only [Engine.startCommit, hdone, Bool.false_eq_true, if_false, hempty, isEmpty_nil, if_true]
    rw [call_of_step hstep, hstep] at hrun ⊢
    unfold commitOf
    rw [if_pos hempty, append_nil]
    exact ⟨frame_setTxn hrun hidle rfl, .inl ⟨rfl, rfl⟩⟩
  · have hne : T.mutations.isEmpty = false := by simpa using hempty
    cases hcheck : checkConflicts s.eng.store T.readUint io.fault T.mutations with
    | fault =>
      have hstep : s.eng.step (.commit t io.fault) = some (s.eng, .storeErr) := by
        rw [hstart]
        simp only [Engine.startCommit, hdone, Bool.false_eq_true, if_false, hne, hidle, hcheck]
      rw [call_of_step hstep, hstep] at hrun ⊢
      exact ⟨.refl hidle, .inr ⟨by simp, rfl⟩⟩
    | conflict =>
      have hstep : s.eng.step (.commit t io.fault) = some (s.eng.setTxn t { T with done := true }, .writeConflict) := by
        rw [hstart]
        simp only [Engine.startCommit, hdone, Bool.false_eq_true, if_false, hne, hidle, hcheck]
      rw [call_of_step hstep, hstep] at hrun ⊢
      exact ⟨frame_setTxn hrun hidle rfl, .inr ⟨by simp, rfl⟩⟩
    | pass =>
      have hstep : s.eng.step (.commit t io.fault) = some ({ s.eng.setTxn t { T with done := true } with
          phase := .flushing ⟨t, T.readUint, s.eng.clock + 1, T.mutations⟩ }, .inProgress) := by
        rw [hstart]
        simp only [Engine.startCommit, hdone, Bool.false_eq_true, if_false, hne, hidle, hcheck]
      rw [call_of_step hstep, hstep] at hrun ⊢
      unfold commitOf
      rw [if_neg hempty]
      cases hio : io.flushFail with
      | none =>
        rw [hio] at hrun
        exact ⟨frame_setTxn hrun rfl rfl, .inl ⟨rfl, rfl⟩⟩
      | some persisted =>
        rw [hio] at hrun
        exact ⟨frame_setTxn hrun rfl rfl, .inr ⟨by simp, rfl⟩⟩

end calls

/-- What a message may do to the engine: of the transactions before it only `own` changes, and the new
commits are of `own` or of transactions begun since. -/
structure Within (io : Io) (own : Option Nat) (s s' : Sys Val) : Prop where
  run : Calls io s s'
  idle : s'.eng.phase = .idle
  grows : s.eng.txns.length ≤ s'.eng.txns.length
  old : ∀ u, u < s.eng.txns.length → own ≠ some u → s'.eng.txns[u]? = s.eng.txns[u]?
  hist : ∃ new, s'.hist = s.hist ++ new ∧
    ∀ cm ∈ new, (own = some cm.txn ∨ s.eng.txns.length ≤ cm.txn) ∧ cm.txn < s'.eng.txns.length

section within
variable {own : Option Nat} {s'' : Sys Val} {i : Nat} {α : Type}

theorem Within.refl (h : s.eng.phase = .idle) : Within io own s s :=
  ⟨.refl, h, le_rfl, fun _ _ _ => rfl, [], (append_nil _).symm, nofun⟩

theorem Within.andThen {own' : Option Nat} (h : Within io own s s') (h' : Within io own' s' s'')
    (hown : ∀ t, own' = some t → own = some t ∨ s.eng.txns.length ≤ t) : Within io own s s'' := by
  obtain ⟨new, hnew, hall⟩ := h.hist
  obtain ⟨new', hnew', hall'⟩ := h'.hist
  refine ⟨h.run.trans h'.run, h'.idle, Nat.le_trans h.grows h'.grows, ?_, new ++ new', ?_, ?_⟩
  · intro u hu hne
    have hne' : own' ≠ some u := fun heq => (hown u heq).elim hne fun hle => absurd hle (Nat.not_le_of_lt hu)
    rw [h'.old u (Nat.lt_of_lt_of_le hu h.grows) hne', h.old u hu hne]
  · rw [hnew', hnew, append_assoc]
  · intro cm hcm
    rcases mem_append.mp hcm with hcm | hcm
    · exact ⟨(hall cm hcm).1, Nat.lt_of_lt_of_le (hall cm hcm).2 h'.grows⟩
    · refine ⟨?_, (hall' cm hcm).2⟩
      rcases (hall' cm hcm).1 with heq | hle
      · exact hown _ heq
      · exact .inr (Nat.le_trans h.grows hle)

theorem Within.trans (h : Within io own s s') (h' : Within io own s' s'') : Within io own s s'' :=
  h.andThen h' fun _ heq => .inl heq

theorem Within.of_none (h : Within io none s s') : Within io own s s' := by
  obtain ⟨new, hnew, hall⟩ := h.hist
  refine ⟨h.run, h.idle, h.grows, fun u hu _ => h.old u hu nofun, new, hnew, ?_⟩
  intro cm hcm
  exact ⟨.inr ((hall cm hcm).1.resolve_left nofun), (hall cm hcm).2⟩

variable {new : List (Commit Val)} {T : Txn Val}

theorem Frame.within (h : Frame io t s s') (hlt : t < s.eng.txns.length)
    (hhist : s'.hist = s.hist ++ new) (hnew : ∀ cm ∈ new, cm.txn = t) : Within io (some t) s s' := by
  refine ⟨h.run, h.idle, Nat.le_of_eq h.length.symm, ?_, new, hhist, ?_⟩
  · intro u _ hu
    exact h.others u fun heq => hu (by rw [heq])
  · intro cm hcm
    rw [hnew cm hcm, h.length]
    exact ⟨.inl rfl, hlt⟩

theorem commitOf_txn : ∀ cm ∈ commitOf s t T, cm.txn = t := by
  intro cm hcm
  unfold commitOf at hcm
  split at hcm
  · cases hcm
  · rw [mem_singleton.mp hcm]

theorem Within.fresh (h : Frame io s.eng.txns.length (call s .begin) s')
    (hhist : s'.hist = s.hist ++ new) (hnew : ∀ cm ∈ new, cm.txn = s.eng.txns.length) : Within io none s s' := by
  have hlen : s'.eng.txns.length = s.eng.txns.length + 1 := by
    rw [h.length]
    exact length_append
  refine ⟨(Calls.call s fun _ => rfl).trans h.run, h.idle, by omega, ?_, new, hhist, ?_⟩
  · intro u hu _
    rw [h.others u (Nat.ne_of_lt hu)]
    exact getElem?_append_left hu
  · intro cm hcm
    rw [hnew cm hcm, hlen]
    exact ⟨.inr le_rfl, by omega⟩

theorem buffered_frame (hidle : s.eng.phase = .idle) (hT : s.eng.txns[t]? = some T) (ms : List (Mut Val)) :
    Frame io t s (buffered s t T ms) := by
  refine frame_setTxn ?_ hidle rfl
  rw [← foldl_buffer hidle hT]
  exact .foldl_buffer t ms s

theorem settle_frame (io : Io) (hidle : s.eng.phase = .idle) (hT : s.eng.txns[t]? = some T)
    (hdone : T.done = false) (answer : ExecM α) (issued : List (Mut Val)) :
    Frame io t s (settle t io ⟨answer, s, issued⟩).2.sys ∧
      ((settle t io ⟨answer, s, issued⟩).2.sys.hist = s.hist ∨ (settle t io ⟨answer, s, issued⟩).1 = false ∧
        (settle t io ⟨answer, s, issued⟩).2.sys.hist = s.hist ++ commitOf s t T) := by
  cases answer with
  | error e =>
    exact ⟨rollback_frame hidle, .inl rollback_hist⟩
  | ok a =>
    obtain ⟨hf, hcases⟩ := commitTxn_frame hidle hT hdone io
    simp only [settle]
    generalize commitTxn s t io = r at hf hcases ⊢
    obtain ⟨reply, s1⟩ := r
    rcases hcases with ⟨hok, heq⟩ | ⟨hne, heq⟩
    · obtain rfl : reply = .ok := hok
      exact ⟨hf, .inr ⟨rfl, heq⟩⟩
    · have hf' : Frame io t s1 (call s1 (.rollback t)) := rollback_frame hf.idle
      cases reply with
      | ok => exact absurd rfl hne
      | writeConflict => exact ⟨hf, .inl heq⟩
      | begun t | txnDone | storeErr | inProgress => exact ⟨hf.trans hf', .inl (rollback_hist.trans heq)⟩

theorem settle_issued (io : Io) (ran : Ran α) : (settle t io ran).2.issued = ran.issued := by
  unfold settle
  split
  · rfl
  · split <;> rfl

/-- A program in a transaction of its own. It commits nothing if it wrote nothing or met a conflict. -/
theorem runOnce_within (io : Io) (hidle : s.eng.phase = .idle) (p : Stm α) : Within io none s (runOnce s i io p).2.sys ∧
    ((runOnce s i io p).2.issued = [] ∨ (runOnce s i io p).1 = true → (runOnce s i io p).2.sys.hist = s.hist) := by
  have hT : (call s .begin).eng.txns[s.eng.txns.length]? = some ⟨s.eng.clock, [], false⟩ := getElem?_concat_length
  unfold runOnce
  rw [settle_issued]
  have hran := runIn_eq (s := call s .begin) (i := i) hidle hT p
  generalize runIn (call s .begin) s.eng.txns.length i p = ran at hran ⊢
  obtain ⟨answer, s1, issued⟩ := ran
  obtain rfl : s1 = buffered (call s .begin) s.eng.txns.length ⟨s.eng.clock, [], false⟩ issued := hran
  have hframe : Frame io s.eng.txns.length (call s .begin)
      (buffered (call s .begin) s.eng.txns.length ⟨s.eng.clock, [], false⟩ issued) :=
    buffered_frame (s := call s .begin) hidle hT issued
  obtain ⟨hf, hhist⟩ := settle_frame io hframe.idle (getElem?_set_own hT) rfl answer issued
  rcases hhist with hhist | ⟨hflag, hhist⟩
  · have hsame := hhist.trans (append_nil s.hist).symm
    exact ⟨.fresh (hframe.trans hf) hsame nofun, fun _ => hhist⟩
  · refine ⟨.fresh (hframe.trans hf) hhist commitOf_txn, ?_⟩
    rintro (hissued | hconflict)
    · obtain rfl : issued = [] := hissued
      rw [hhist]
      exact append_nil _
    · cases hflag.symm.trans hconflict

theorem autocommit_within (io : Io) (hidle : s.eng.phase = .idle) (p : Stm α) (n : Nat) :
    Within io none s (autocommit i io p n s).sys ∧
      ((autocommit i io p n s).issued = [] → (autocommit i io p n s).sys.hist = s.hist) := by
  induction n generalizing s with
  | zero =>
    obtain ⟨hwithin, hquiet⟩ := runOnce_within (i := i) io hidle p
    exact ⟨hwithin, fun h => hquiet (.inl h)⟩
  | succ n ih =>
    obtain ⟨hwithin, hquiet⟩ := runOnce_within (i := i) io hidle p
    unfold autocommit
    dsimp only
    split
    · rename_i hconflict
      obtain ⟨hrest, hquiet'⟩ := ih hwithin.idle
      exact ⟨hwithin.trans hrest, fun h => (hquiet' h).trans (hquiet (.inr hconflict))⟩
    · exact ⟨hwithin, fun h => hquiet (.inl h)⟩

theorem runIn_within (hidle : s.eng.phase = .idle) (hlt : t < s.eng.txns.length) (p : Stm α) :
    Within io (some t) s (runIn s t i p).sys := by
  obtain ⟨T, hT⟩ : ∃ T, s.eng.txns[t]? = some T := ⟨_, getElem?_eq_getElem hlt⟩
  rw [runIn_eq hidle hT]
  exact (buffered_frame hidle hT _).within hlt (append_nil _).symm nofun

end within

/-! ## What a message changes -/

def Live (s : Sys Val) (t : Nat) : Prop := ∃ T, s.eng.txns[t]? = some T ∧ T.done = false

theorem Live.lt (h : Live s t) : t < s.eng.txns.length := by
  obtain ⟨T, hT, -⟩ := h
  exact (List.getElem?_eq_some_iff.mp hT).1

theorem Live.within {own : Option Nat} (h : Live s t) (hw : Within io own s s') (hne : own ≠ some t) : Live s' t := by
  obtain ⟨T, hT, hdone⟩ := h
  exact ⟨T, (hw.old t (List.getElem?_eq_some_iff.mp hT).1 hne).trans hT, hdone⟩

/-- A message touches the transaction of its connection and new ones, and the connection keeps its
transaction, leaves it, or has a new one. -/
structure Moves (io : Io) (s : Sys Val) (c : Conn) (h : Handled) : Prop where
  within : Within io c.tx s h.sys
  tx : ∀ t, h.conn.tx = some t → (c.tx = some t ∨ s.eng.txns.length ≤ t) ∧ Live h.sys t

section moves
variable {f : Frontend} {c : Conn} {o : Occasion} (hidle : s.eng.phase = .idle)
  (hlive : ∀ t, c.tx = some t → Live s t)

theorem defer_tx (c : Conn) (checks : List PendingFKCheck) : (c.defer checks).tx = c.tx := by
  unfold Conn.defer
  split <;> rfl

variable {out : List Backend} {issued : List (Mut Val)}

/-- The messages that change neither the database nor the block. -/
def Message.isQuiet : Message → Bool
  | .query _ _ | .execute _ | .disconnect => false
  | _ => true

/-- The connection keeps its transaction. -/
def Keeps (o : Occasion) (s : Sys Val) (c : Conn) (s' : Sys Val) : Prop :=
  Within o.io c.tx s s' ∧ ∀ t, c.tx = some t → Live s' t

theorem Moves.left (h : Within o.io c.tx s s') : Moves o.io s c ⟨s', c.leave, out, issued⟩ := ⟨h, nofun⟩

theorem Moves.kept {c' : Conn} (h : Keeps o s c s') (hc : c'.tx = c.tx) : Moves o.io s c ⟨s', c', out, issued⟩ := by
  refine ⟨h.1, ?_⟩
  intro t ht
  have htx := hc.symm.trans ht
  exact ⟨.inl htx, h.2 t htx⟩

include hidle hlive

theorem stays : Keeps o s c s := ⟨.refl hidle, hlive⟩

theorem Moves.same {c' : Conn} (hc : c'.tx = c.tx) : Moves o.io s c ⟨s, c', out, issued⟩ :=
  .kept (stays hidle hlive) hc

omit hidle in
theorem outside (h : Within o.io none s s') : Keeps o s c s' :=
  ⟨h.of_none, fun t ht => (hlive t ht).within h nofun⟩

theorem execute_keeps (stmt : Statement) (params : Data) : Keeps o s c (execute f s c o stmt params).sys := by
  cases stmt with
  | joins run =>
    simp only [execute]
    split
    · rename_i t htx
      obtain ⟨T, hT, hdone⟩ := hlive t htx
      refine ⟨by rw [htx]; exact runIn_within hidle (hlive t htx).lt _, ?_⟩
      intro u hu
      obtain rfl : t = u := some.inj (htx.symm.trans hu)
      rw [runIn_eq hidle hT]
      exact ⟨_, getElem?_set_own hT, hdone⟩
    · exact outside hlive (autocommit_within _ hidle _ _).1
  | branch run => exact outside hlive (runOnce_within _ hidle _).1
  | copyIn inserts | copyOut run => exact stays hidle hlive

variable (sql : Bytes) (params : Data)

theorem execSQL_keeps : Keeps o s c (execSQL f s c o sql params).sys := by
  unfold execSQL
  split
  · exact stays hidle hlive
  · split
    · exact stays hidle hlive
    · exact execute_keeps hidle hlive _ _

theorem rollbackOpen_within : Within o.io c.tx s (rollbackOpen s c) := by
  unfold rollbackOpen
  split
  · exact .refl hidle
  · rename_i t htx
    rw [htx]
    exact (rollback_frame hidle).within (hlive t htx).lt (rollback_hist.trans (append_nil _).symm) nofun

theorem commitExplicit_within {t : Nat} (htx : c.tx = some t) : Within o.io c.tx s (commitExplicit f s c o t).2 := by
  obtain ⟨T, hT, hdone⟩ := hlive t htx
  have hlt := (hlive t htx).lt
  rw [htx]
  unfold commitExplicit
  split
  · exact (rollback_frame hidle).within hlt (rollback_hist.trans (append_nil _).symm) nofun
  · obtain ⟨hf, hcases⟩ := commitTxn_frame hidle hT hdone o.io
    have hwithin : Within o.io (some t) s (commitTxn s t o.io).2 := by
      rcases hcases with ⟨-, heq⟩ | ⟨-, heq⟩
      · exact hf.within hlt heq commitOf_txn
      · exact hf.within hlt (heq.trans (append_nil _).symm) nofun
    split
    all_goals
      rename_i heq
      rw [heq] at hwithin
      exact hwithin

theorem handleBegin_moves : Moves o.io s c (handleBegin s c) := by
  unfold handleBegin
  split
  · refine ⟨Within.of_none (.fresh (.refl hidle) (append_nil _).symm nofun), ?_⟩
    intro t ht
    obtain rfl : s.eng.txns.length = t := some.inj ht
    exact ⟨.inr le_rfl, ⟨_, getElem?_concat_length, rfl⟩⟩
  · exact .same hidle hlive rfl

theorem handleCommit_moves : Moves o.io s c (handleCommit f s c o) := by
  unfold handleCommit
  split
  · exact .same hidle hlive rfl
  · rename_i t htx
    have hroll := rollbackOpen_within (o := o) hidle hlive
    simp only [rollbackOpen, htx] at hroll
    have hwithin := commitExplicit_within (f := f) (o := o) hidle hlive htx
    split
    · exact .left (by rw [htx]; exact hroll)
    · split
      · rename_i heq
        rw [heq] at hwithin
        exact .left hwithin
      · rename_i heq
        rw [heq] at hwithin
        exact .left hwithin

theorem handleSetBranch_moves : Moves o.io s c (handleSetBranch f s c sql) := by
  unfold handleSetBranch
  split
  · exact .same hidle hlive rfl
  · split
    · exact .same hidle hlive rfl
    · split
      · exact .same hidle hlive rfl
      · exact .same hidle hlive rfl

theorem handleFetch_moves : Moves o.io s c (handleFetch f s c o sql) := by
  unfold handleFetch
  dsimp only
  split
  · exact .same hidle hlive rfl
  · rename_i cur _
    split
    · exact .same hidle hlive rfl
    · split
      · exact .same hidle hlive rfl
      · have hkeeps := execSQL_keeps (f := f) (o := o) hidle hlive cur.sql []
        split
        · exact .kept hkeeps rfl
        · exact .kept hkeeps (defer_tx c _)

theorem handleControl_moves (ctl : Control) : Moves o.io s c (handleControl f s c o sql ctl) := by
  cases ctl with
  | role answer => cases answer <;> exact .same hidle hlive rfl
  | begin => exact handleBegin_moves hidle hlive
  | commit => exact handleCommit_moves hidle hlive
  | rollback => exact .left (rollbackOpen_within hidle hlive)
  | setBranch => exact handleSetBranch_moves hidle hlive sql
  | set | reset | close | ack tag => exact .same hidle hlive rfl
  | declare =>
    simp only [handleControl]
    split
    · exact .same hidle hlive rfl
    · exact .same hidle hlive rfl
  | fetch => exact handleFetch_moves hidle hlive sql

theorem handleStatement_moves : Moves o.io s c (handleStatement f s c o sql) := by
  have hkeeps := execSQL_keeps (f := f) (o := o) hidle hlive sql []
  unfold handleStatement
  dsimp only
  split
  · refine .kept hkeeps ?_
    split <;> rfl
  · exact .kept hkeeps (defer_tx c _)

omit hlive in
theorem copyFrom_within (ps : List (Stm Result)) (n : Nat) (issued : List (Mut Val)) :
    Within o.io none s (copyFrom o ps n s issued).2.1 ∧
      ((copyFrom o ps n s issued).2.2 = [] → issued = [] ∧ (copyFrom o ps n s issued).2.1.hist = s.hist) := by
  induction ps generalizing s n issued with
  | nil => exact ⟨.refl hidle, fun h => ⟨h, rfl⟩⟩
  | cons p ps ih =>
    obtain ⟨hone, hquiet⟩ := autocommit_within (i := o.i) o.io hidle p maxRetries
    unfold copyFrom
    dsimp only
    split
    · refine ⟨hone, ?_⟩
      intro h
      obtain ⟨h1, h2⟩ := append_eq_nil_iff.mp h
      exact ⟨h1, hquiet h2⟩
    · obtain ⟨hrest, hquiet'⟩ := ih hone.idle (n + 1) (issued ++ (autocommit o.i o.io p maxRetries s).issued)
      refine ⟨hone.trans hrest, ?_⟩
      intro h
      obtain ⟨happ, hhist⟩ := hquiet' h
      obtain ⟨h1, h2⟩ := append_eq_nil_iff.mp happ
      exact ⟨h1, hhist.trans (hquiet h2)⟩

theorem handleCopyIn_moves (inserts : Executor.Session → Bytes → ExecM (List (Stm Result)))
    (answer : CopyAnswer) : Moves o.io s c (handleCopyIn f s c o inserts answer) := by
  cases answer with
  | done data =>
    simp only [handleCopyIn]
    split
    · exact .same hidle hlive rfl
    · rename_i ps _
      have hrows := outside hlive (copyFrom_within (o := o) hidle ps 0 []).1
      split
      all_goals
        rename_i heq
        rw [heq] at hrows
        exact .kept hrows rfl
  | fail text | other typ | disconnect => exact .same hidle hlive rfl

theorem handleCopyOut_moves (run : Executor.Session → Stm Result) : Moves o.io s c (handleCopyOut f s c o run) := by
  have hrun := outside hlive (autocommit_within (i := o.i) o.io hidle (run (c.sess.view f.env)) maxRetries).1
  unfold handleCopyOut
  dsimp only
  split
  · exact .kept hrun rfl
  · exact .kept hrun rfl

theorem handleCopy_moves {sql : Bytes} {answer : CopyAnswer} {h : Handled} (hcopy : handleCopy f s c o sql answer = some h) :
    Moves o.io s c h := by
  unfold handleCopy at hcopy
  split at hcopy
  · split at hcopy
    · cases hcopy
      exact handleCopyIn_moves hidle hlive _ _
    · cases hcopy
      exact handleCopyOut_moves hidle hlive _
    · cases hcopy
  · cases hcopy

theorem handleSimpleQuery_moves (answer : CopyAnswer) : Moves o.io s c (handleSimpleQuery f s c o sql answer) := by
  unfold handleSimpleQuery
  dsimp only
  split
  · exact .same hidle hlive rfl
  · split
    · exact handleControl_moves hidle hlive _ _
    · split
      · exact .same hidle hlive rfl
      · split
        · rename_i hcopy
          exact handleCopy_moves hidle hlive hcopy
        · exact handleStatement_moves hidle hlive _

theorem execStatement_keeps : Keeps o s c (execStatement f s c o sql params).sys := by
  have hkeeps := execSQL_keeps (f := f) (o := o) hidle hlive (f.trimSpace sql) params
  unfold execStatement
  dsimp only
  split
  · exact stays hidle hlive
  · split
    · split
      · exact hkeeps
      · exact hkeeps
    · exact hkeeps

theorem handleExecuteExtended_moves (portal : Bytes) : Moves o.io s c (handleExecuteExtended f s c o portal) := by
  unfold handleExecuteExtended
  split
  · exact .same hidle hlive rfl
  · rename_i sql params _
    have hkeeps := execStatement_keeps (f := f) (o := o) hidle hlive sql params
    dsimp only
    split
    · exact .kept hkeeps rfl
    · exact .kept hkeeps (defer_tx c _)

omit hidle hlive in
theorem Moves.hangUp {h : Handled} (hm : Moves o.io s c h) : Moves o.io s c h.hangUp := by
  refine ⟨?_, nofun⟩
  have hroll := rollbackOpen_within (o := o) hm.within.idle fun t ht => (hm.tx t ht).2
  exact hm.within.andThen hroll fun t ht => (hm.tx t ht).1

omit hidle hlive in
variable (f s c o) in
theorem handle_quiet {m : Message} (hm : m.isQuiet = true) :
    ∃ c' out, handle f s c o m = ⟨s, c', out, []⟩ ∧ c'.tx = c.tx ∧ c'.txAborted = c.txAborted := by
  cases m with
  | parse name sql | sync | unknown typ => exact ⟨_, _, rfl, rfl, rfl⟩
  | bind portal stmt params =>
    simp only [handle, handleBind]
    split <;> exact ⟨_, _, rfl, rfl, rfl⟩
  | describe statement name =>
    simp only [handle, handleDescribe]
    split
    · split <;> exact ⟨_, _, rfl, rfl, rfl⟩
    · split <;> exact ⟨_, _, rfl, rfl, rfl⟩
  | close statement name => cases statement <;> exact ⟨_, _, rfl, rfl, rfl⟩
  | query sql answer | execute portal | disconnect => cases hm

theorem handle_moves (m : Message) : Moves o.io s c (handle f s c o m) := by
  have hquiet := handle_quiet s f c o (m := m)
  cases m with
  | query sql answer =>
    have hm : Moves o.io s c (handleSimpleQuery f s c o sql answer).endQuery := by
      obtain ⟨hwithin, htx⟩ := handleSimpleQuery_moves (f := f) (o := o) hidle hlive sql answer
      exact ⟨hwithin, htx⟩
    simp only [handle]
    split
    · exact hm.hangUp
    · exact hm
  | execute portal => exact handleExecuteExtended_moves hidle hlive portal
  | disconnect => exact (Moves.same hidle hlive rfl).hangUp
  | _ =>
    obtain ⟨c', out, h, htx, -⟩ := hquiet rfl
    rw [h]
    exact .same hidle hlive htx

end moves

end BasuyuDb.Wire
