import BasuyuDb.Wire.Moves

/-
  A transaction block as its client sees it, and what one message does to it. `strays` names the messages
  that the connection does not treat as part of the block: an Execute that fails leaves the block healthy
  and an Execute of COMMIT or ROLLBACK is acknowledged without an effect; COPY FROM and branch statements
  commit transactions of their own; control statements and COPY fail without a mark. `handle_inBlock`: any
  other message goes on with the block, or ends it with its one commit or with none.
-/

namespace BasuyuDb.Wire
open KvLib Storage Transactions Executor List Option

/-! ## The blocks of a client -/

inductive Ending where
  | commit
  | refused
  | rollback
  | disconnect
deriving DecidableEq

/-- A transaction block as its client sees it: the transactions the connection began for it, the writes its
statements issued, whether one of them failed, and how it ended. -/
structure Block where
  txns : List Nat
  writes : List (Mut Val)
  failed : Bool
  ended : Option Ending

section client
variable (f : Frontend)

/-- COMMIT and ROLLBACK end a block, in a query or in an Execute. -/
def textEnding (sql : Bytes) (out : List Backend) : Option Ending :=
  match control f sql with
  | some .commit => some (if out.any Backend.isError then .refused else .commit)
  | some .rollback => some .rollback
  | _ => none

/-- How a message and its answer end the block. -/
def ending (c : Conn) (out : List Backend) : Message → Option Ending
  | .query sql answer =>
    if hangsUp answer out then some .disconnect
    else if f.trimSpace sql = [] then none
    else textEnding f (f.trimSpace sql) out
  | .execute portal => (c.portals.lookup portal).bind fun p => textEnding f (f.trimSpace p.1) out
  | .disconnect => some .disconnect
  | _ => none

/-- The message is a simple-query BEGIN. -/
def opens : Message → Bool
  | .query sql _ =>
    match control f (f.trimSpace sql) with
    | some .begin => f.trimSpace sql ≠ []
    | _ => false
  | _ => false

/-- The message ran a statement, and the answer is an error. -/
def fails (out : List Backend) : Message → Bool
  | .query _ _ => out.any Backend.isError
  | .execute _ => out.any Backend.isError
  | _ => false

/-- What a client notes: the newest block first. -/
def note (c : Conn) (m : Message) (h : Handled) (begun : List Nat) (blocks : List Block) : List Block :=
  match blocks with
  | ⟨txns, writes, failed, none⟩ :: rest =>
    ⟨txns ++ begun, writes ++ h.issued, failed || fails h.out m, ending f c h.out m⟩ :: rest
  | _ => if opens f m then ⟨begun, [], false, none⟩ :: blocks else blocks

end client

/-- A connection and the blocks of its client. -/
structure Peer where
  conn : Conn
  connected : Bool
  blocks : List Block

structure Hub where
  sys : Sys Val
  peers : List Peer

/-- The server on a store, with its connections. -/
def Hub.new (store : Store Val) (sessions : List ConnSession) : Hub :=
  ⟨Sys.new store, sessions.map fun sess => ⟨.new sess, true, []⟩⟩

/-- The transactions begun between two states. -/
def begunIn (s s' : Sys Val) : List Nat := List.range' s.eng.txns.length (s'.eng.txns.length - s.eng.txns.length)

variable (f : Frontend) (s : Sys Val) (c : Conn) (o : Occasion) (sql : Bytes)

def Peer.after (p : Peer) (m : Message) (h : Handled) : Peer :=
  ⟨h.conn, ending f p.conn h.out m ≠ some .disconnect, note f p.conn m h (begunIn s h.sys) p.blocks⟩

/-- A message of connection `j` is handled. -/
structure Delivery where
  j : Nat
  m : Message
  o : Occasion

def Hub.step (hub : Hub) (d : Delivery) : Option Hub :=
  (hub.peers[d.j]?).bind fun p => if p.connected then
      let h := handle f hub.sys p.conn d.o d.m
      some ⟨h.sys, hub.peers.set d.j (p.after f hub.sys d.m h)⟩
    else none

/-- The commits of a block's transactions: all its writes in one, if it was committed and nothing in it
failed, and otherwise none. -/
def Whole (hist : List (Commit Val)) (b : Block) : Prop :=
  (hist.filter fun cm => cm.txn ∈ b.txns).map Commit.batch =
    if b.ended = some .commit ∧ b.failed = false ∧ b.writes ≠ [] then [b.writes] else []

instance (hist : List (Commit Val)) (b : Block) : Decidable (Whole hist b) := inferInstanceAs (Decidable (_ = _))

/-! ## Messages that stray from the block -/

/-- The statement runs in a transaction of the branch manager. -/
def runsBranch : Bool :=
  match f.normalize sql with
  | none => false
  | some text =>
    match f.parse text with
    | .ok (.branch _) => true
    | _ => false

/-- The query of the cursor a FETCH is about to run. -/
def fetchRuns : Option Bytes :=
  (c.cursors.lookup (f.fetched sql).1).bind fun cur => if cur.rows = none then some cur.sql else none

/-- A simple query strays: a control statement or COPY fails in a healthy block, COPY FROM or a branch
statement writes outside the block. -/
def queryStrays (answer : CopyAnswer) : Bool :=
  match control f sql with
  | some .setBranch => !c.txAborted
  | some (.role (.error _)) => !c.txAborted
  | some .fetch =>
    (!c.txAborted && (handleFetch f s c o sql).out.any Backend.isError) ||
      ((fetchRuns f c sql).any (runsBranch f) && !(handleFetch f s c o sql).issued.isEmpty)
  | some _ => false
  | none =>
    !c.txAborted &&
      match handleCopy f s c o sql answer with
      | some h => h.out.any Backend.isError || !h.issued.isEmpty
      | none => runsBranch f sql && !(execSQL f s c o sql []).issued.isEmpty

/-- An Execute strays: COMMIT or ROLLBACK, a branch statement that writes, or a statement that fails in a
healthy block. -/
def executeStrays (portal : Bytes) : Bool :=
  match c.portals.lookup portal with
  | none => !c.txAborted
  | some (sql, params) =>
    (textEnding f (f.trimSpace sql) []).isSome ||
      (runsBranch f (f.trimSpace sql) && !(execStatement f s c o sql params).issued.isEmpty) ||
      (!c.txAborted && !(execStatement f s c o sql params).answer.isOk)

/-- The message, inside a block, fails without marking the block, writes outside it, or claims to end it. -/
def strays : Message → Bool
  | .query sql answer => c.tx.isSome && f.trimSpace sql ≠ [] && queryStrays f s c o (f.trimSpace sql) answer
  | .execute portal => c.tx.isSome && executeStrays f s c o portal
  | _ => false

/-- A delivery that is not one of client `j` straying from its block. -/
def keepsBlock (j : Nat) (hub : Hub) (d : Delivery) : Bool :=
  d.j ≠ j || (hub.peers[j]?).all fun p => !strays f hub.sys p.conn d.o d.m

/-! ## A message inside a block -/

/-- The block goes on: nothing is committed, an error marks it, and its buffer has what was issued. -/
structure GoesOn (s : Sys Val) (c : Conn) (t : Nat) (T : Txn Val) (m : Message) (h : Handled) : Prop where
  tx : h.conn.tx = some t
  hist : h.sys.hist = s.hist
  failed : h.conn.txAborted = (c.txAborted || fails h.out m)
  writes : ∃ T', h.sys.eng.txns[t]? = some T' ∧ (h.conn.txAborted = false → T'.mutations = T.mutations ++ h.issued)

/-- The block is over: its buffer is one commit if it ended with COMMIT and is healthy. -/
structure Ends (s : Sys Val) (c : Conn) (t : Nat) (T : Txn Val) (e : Ending) (m : Message) (h : Handled) : Prop where
  tx : h.conn.tx = none
  hist : h.sys.hist = s.hist ++ if e = .commit ∧ c.txAborted = false then commitOf s t T else []
  succeeds : e = .commit → h.issued = [] ∧ fails h.out m = false

section block
variable {f s c o} {t : Nat} {T : Txn Val} (hidle : s.eng.phase = .idle) (htx : c.tx = some t)
  (hT : s.eng.txns[t]? = some T) (hdone : T.done = false)

theorem defer_txAborted (c : Conn) (checks : List PendingFKCheck) : (c.defer checks).txAborted = c.txAborted := by
  unfold Conn.defer
  split <;> rfl

variable {m : Message} {out : List Backend} {sql text : Bytes} {answer : CopyAnswer} {h : Handled}

include htx hT in
theorem GoesOn.same {c' : Conn} (hc : c'.tx = c.tx)
    (ha : c'.txAborted = c.txAborted) (hout : c.txAborted = false → fails out m = false) :
    GoesOn s c t T m ⟨s, c', out, []⟩ where
  tx := hc.trans htx
  hist := rfl
  failed := by
    rw [ha]
    cases hab : c.txAborted with
    | true => rfl
    | false => rw [hout hab]; rfl
  writes := ⟨T, hT, fun _ => (append_nil _).symm⟩

include hT in
theorem quiet_outside {s' : Sys Val} (hw : Within o.io none s s') (hhist : s'.hist = s.hist) :
    s'.hist = s.hist ∧ ∃ T', s'.eng.txns[t]? = some T' ∧ T'.mutations = T.mutations ++ [] :=
  ⟨hhist, T, (hw.old t (List.getElem?_eq_some_iff.mp hT).1 nofun).trans hT, (append_nil _).symm⟩

include hidle htx hT

theorem execSQL_inBlock {params : Data}
    (hbranch : runsBranch f sql = true → (execSQL f s c o sql params).issued = []) :
    (execSQL f s c o sql params).sys.hist = s.hist ∧ ∃ T', (execSQL f s c o sql params).sys.eng.txns[t]? = some T' ∧
        T'.mutations = T.mutations ++ (execSQL f s c o sql params).issued := by
  have hsame : s.hist = s.hist ∧ ∃ T', s.eng.txns[t]? = some T' ∧ T'.mutations = T.mutations ++ [] :=
    ⟨rfl, T, hT, (append_nil _).symm⟩
  unfold runsBranch at hbranch
  unfold execSQL at hbranch ⊢
  split
  · exact hsame
  · rename_i text hnorm
    simp only [hnorm] at hbranch
    split
    · exact hsame
    · rename_i stmt hparse
      simp only [hparse] at hbranch
      cases stmt with
      | joins run =>
        simp only [execute, htx]
        rw [runIn_eq hidle hT]
        exact ⟨rfl, _, getElem?_set_own hT, rfl⟩
      | branch run =>
        obtain ⟨hw, hquiet⟩ := runOnce_within (i := o.i) o.io hidle (do
          let res ← run (c.sess.view f.env)
          pure (res, ([] : List PendingFKCheck)))
        have hnone := hbranch rfl
        simp only [execute] at hnone ⊢
        rw [hnone]
        exact quiet_outside hT hw (hquiet (.inl hnone))
      | copyIn inserts | copyOut run => exact hsame

theorem handleStatement_goesOn
    (hbranch : runsBranch f sql = true → (execSQL f s c o sql []).issued = []) (text : Bytes) :
    GoesOn s c t T (.query text answer) (handleStatement f s c o sql) := by
  obtain ⟨hhist, T', hT', hwrites⟩ := execSQL_inBlock hidle htx hT hbranch
  have htx' : c.tx ≠ none := by
    rw [htx]
    nofun
  unfold handleStatement
  dsimp only
  split
  · rw [if_neg htx']
    exact ⟨htx, hhist, (Bool.or_true _).symm, T', hT', fun _ => hwrites⟩
  · exact ⟨(defer_tx c _).trans htx, hhist, by rw [defer_txAborted]; exact (Bool.or_false _).symm, T', hT',
      fun _ => hwrites⟩

theorem handleFetch_goesOn
    (hbranch : (fetchRuns f c sql).any (runsBranch f) = true → (handleFetch f s c o sql).issued = [])
    (herr : c.txAborted = false → (handleFetch f s c o sql).out.any Backend.isError = false) :
    GoesOn s c t T (.query text answer) (handleFetch f s c o sql) := by
  unfold fetchRuns at hbranch
  unfold handleFetch at hbranch herr ⊢
  dsimp only at hbranch herr ⊢
  cases hcur : c.cursors.lookup (f.fetched sql).1 with
  | none =>
    simp only [hcur] at herr ⊢
    exact .same htx hT rfl rfl herr
  | some cur =>
    simp only [hcur, bind_some] at herr hbranch ⊢
    cases hrows : cur.rows with
    | some rows =>
      simp only [hrows] at herr ⊢
      exact .same htx hT rfl rfl fun _ => rfl
    | none =>
      simp only [hrows, if_true, any_some] at herr hbranch ⊢
      split
      · exact .same htx hT rfl rfl fun _ => rfl
      · rename_i hne
        simp only [if_neg hne] at herr hbranch
        have hquiet : runsBranch f cur.sql = true → (execSQL f s c o cur.sql []).issued = [] := by
          intro hb
          have hissued := hbranch hb
          split at hissued
          · exact hissued
          · exact hissued
        obtain ⟨hhist, T', hT', hwrites⟩ := execSQL_inBlock hidle htx hT hquiet
        split
        · rename_i e hanswer
          simp only [hanswer] at herr
          refine ⟨htx, hhist, ?_, T', hT', fun _ => hwrites⟩
          cases hab : c.txAborted with
          | true => rfl
          | false => exact absurd (herr hab) (by simp [Backend.isError])
        · exact ⟨(defer_tx c _).trans htx, hhist, by dsimp only; rw [defer_txAborted]; exact (Bool.or_false _).symm, T',
            hT', fun _ => hwrites⟩

omit hidle hT in
theorem rollback_ends {e : Ending} (he : e ≠ .commit ∨ c.txAborted = true)
    (hout : e = .commit → fails out m = false) : Ends s c t T e m ⟨rollbackOpen s c, c.leave, out, []⟩ := by
  refine ⟨rfl, ?_, fun h => ⟨rfl, hout h⟩⟩
  have hno : ¬ (e = .commit ∧ c.txAborted = false) := by
    rintro ⟨h1, h2⟩
    rcases he with he | he
    · exact he h1
    · rw [h2] at he
      cases he
  rw [if_neg hno, append_nil]
  simp only [rollbackOpen, htx]
  exact rollback_hist

include hdone

theorem commit_ends {e : Ending} (hctl : control f sql = some .commit)
    (he : textEnding f sql (handleCommit f s c o).out = some e) :
    Ends s c t T e (.query text answer) (handleCommit f s c o) := by
  unfold textEnding at he
  rw [hctl] at he
  cases he
  cases hab : c.txAborted with
  | true =>
    have hroll : handleCommit f s c o = ⟨rollbackOpen s c, c.leave, [.commandComplete "COMMIT"], []⟩ := by
      simp only [handleCommit, rollbackOpen, htx, hab, if_true]
    rw [hroll]
    exact rollback_ends htx (.inr hab) fun _ => rfl
  | false =>
    obtain ⟨-, hcases⟩ := commitTxn_frame hidle hT hdone o.io
    simp only [handleCommit, htx, hab, Bool.false_eq_true, if_false, commitExplicit]
    cases runPendingChecks f s c t with
    | error e => exact ⟨rfl, by rw [hab]; exact rollback_hist.trans (append_nil _).symm, fun h => by cases h⟩
    | ok u =>
      generalize commitTxn s t o.io = r at hcases
      obtain ⟨reply, s'⟩ := r
      rcases hcases with ⟨hok, hhist⟩ | ⟨hne, hhist⟩
      · obtain rfl : reply = .ok := hok
        exact ⟨rfl, by rw [hab]; exact hhist, fun _ => ⟨rfl, rfl⟩⟩
      · have hrefused : s'.hist = s.hist ++ [] := hhist.trans (append_nil _).symm
        cases reply with
        | ok => exact absurd rfl hne
        | writeConflict | begun t | txnDone | storeErr | inProgress =>
          exact ⟨rfl, by rw [hab]; exact hrefused, fun h => by cases h⟩

/-- A message does to the block what its client notes. -/
def Follows (f : Frontend) (s : Sys Val) (c : Conn) (t : Nat) (T : Txn Val) (sql : Bytes) (m : Message) (h : Handled) : Prop :=
  (textEnding f sql h.out = none → GoesOn s c t T m h) ∧ ∀ e, textEnding f sql h.out = some e → Ends s c t T e m h

omit hidle htx hT hdone in
theorem GoesOn.follows (hg : GoesOn s c t T m h)
    (hnone : textEnding f sql h.out = none) : Follows f s c t T sql m h :=
  ⟨fun _ => hg, fun _ he => absurd (hnone.symm.trans he) nofun⟩

omit hidle htx hT hdone in
theorem textEnding_none {ctl : Control} (hctl : control f sql = some ctl) (hcommit : ctl ≠ .commit)
    (hrollback : ctl ≠ .rollback) (out : List Backend) : textEnding f sql out = none := by
  unfold textEnding
  rw [hctl]
  cases ctl with
  | commit => exact absurd rfl hcommit
  | rollback => exact absurd rfl hrollback
  | _ => rfl

theorem handleControl_follows {ctl : Control} (hctl : control f sql = some ctl)
    (hstray : queryStrays f s c o sql answer = false) :
    Follows f s c t T sql (.query text answer) (handleControl f s c o sql ctl) := by
  have hgo : ∀ c' : Conn, ∀ tag, c'.tx = c.tx → c'.txAborted = c.txAborted →
      GoesOn s c t T (.query text answer) ⟨s, c', [.commandComplete tag], []⟩ :=
    fun c' tag hc ha => .same htx hT hc ha fun _ => rfl
  unfold queryStrays at hstray
  rw [hctl] at hstray
  have hnone := textEnding_none hctl
  cases ctl with
  | role answer =>
    refine GoesOn.follows ?_ (hnone (by simp) (by simp) _)
    cases answer with
    | ok tag => exact hgo c tag rfl rfl
    | error e =>
      have hab : c.txAborted = true := by simpa using hstray
      exact .same htx hT rfl rfl fun h => absurd (hab.symm.trans h) (by decide)
  | begin =>
    refine GoesOn.follows ?_ (hnone (by simp) (by simp) _)
    simp only [handleControl, handleBegin, htx]
    exact hgo c _ rfl rfl
  | commit =>
    have hsome : ∀ out, textEnding f sql out ≠ none := by
      intro out
      unfold textEnding
      rw [hctl]
      simp
    exact ⟨fun h => absurd h (hsome _), fun e he => commit_ends hidle htx hT hdone hctl he⟩
  | rollback =>
    have hend : ∀ out, textEnding f sql out = some .rollback := by
      intro out
      unfold textEnding
      rw [hctl]
    refine ⟨fun h => absurd ((hend _).symm.trans h) (by simp), ?_⟩
    intro _ he
    obtain rfl := some.inj ((hend _).symm.trans he)
    exact rollback_ends htx (.inl (by simp)) (by simp)
  | setBranch =>
    refine GoesOn.follows ?_ (hnone (by simp) (by simp) _)
    have hab : c.txAborted = true := by simpa using hstray
    have hin : c.tx ≠ none := by
      rw [htx]
      simp
    simp only [handleControl, handleSetBranch, if_pos hin]
    exact .same htx hT rfl rfl fun h => absurd (hab.symm.trans h) (by decide)
  | set | reset | close => exact GoesOn.follows (hgo _ _ rfl rfl) (hnone (by simp) (by simp) _)
  | declare =>
    refine GoesOn.follows ?_ (hnone (by simp) (by simp) _)
    simp only [handleControl]
    split
    · exact hgo c _ rfl rfl
    · exact hgo _ _ rfl rfl
  | fetch =>
    refine GoesOn.follows ?_ (hnone (by simp) (by simp) _)
    simp only [Bool.or_eq_false_iff, Bool.and_eq_false_iff, Bool.not_eq_false'] at hstray
    refine handleFetch_goesOn hidle htx hT ?_ ?_
    · intro hb
      rcases hstray.2 with h | h
      · cases h.symm.trans hb
      · exact List.isEmpty_iff.mp h
    · intro hab
      rcases hstray.1 with h | h
      · cases h.symm.trans hab
      · exact h
  | ack tag => exact GoesOn.follows (hgo c tag rfl rfl) (hnone (by simp) (by simp) _)

omit hdone in
theorem handleCopy_goesOn (hcopy : handleCopy f s c o sql answer = some h) (herr : h.out.any Backend.isError = false)
    (hissued : h.issued = []) : GoesOn s c t T (.query text answer) h := by
  have hquiet : ∀ s' : Sys Val, Within o.io none s s' → s'.hist = s.hist → ∀ out, out.any Backend.isError = false →
      GoesOn s c t T (.query text answer) ⟨s', c, out, []⟩ := by
    intro s' hw hhist out hout
    obtain ⟨-, T', hT', hwrites⟩ := quiet_outside hT hw hhist
    exact ⟨htx, hhist, by rw [fails, hout, Bool.or_false], T', hT', fun _ => hwrites⟩
  unfold handleCopy at hcopy
  split at hcopy
  · split at hcopy
    · cases hcopy
      cases answer with
      | done data =>
        simp only [handleCopyIn] at herr hissued ⊢
        split at herr
        · exact absurd herr (by simp [Backend.isError])
        · rename_i inserts _ ps hps
          obtain ⟨hw, hq⟩ := copyFrom_within (o := o) hidle ps 0 []
          simp only [hps] at hissued ⊢
          split at herr
          · exact absurd herr (by simp [Backend.isError])
          · rename_i n s' issued heq
            rw [heq] at hw hq
            simp only [heq] at hissued ⊢
            subst hissued
            exact hquiet s' hw (hq rfl).2 _ rfl
      | fail text | other typ => exact absurd herr (by simp [handleCopyIn, Backend.isError])
      | disconnect => exact .same htx hT rfl rfl fun _ => rfl
    · rename_i run _
      cases hcopy
      obtain ⟨hw, hq⟩ := autocommit_within (i := o.i) o.io hidle (run (c.sess.view f.env)) maxRetries
      simp only [handleCopyOut] at herr hissued ⊢
      split at herr
      · exact absurd herr (by simp [Backend.isError])
      · rename_i res hanswer
        simp only [hanswer] at hissued ⊢
        rw [hissued]
        exact hquiet _ hw (hq hissued) _ rfl
    · cases hcopy
  · cases hcopy

omit hidle htx hT hdone in
theorem textEnding_of_no_control (hctl : control f sql = none) (out : List Backend) :
    textEnding f sql out = none := by
  unfold textEnding
  rw [hctl]

theorem handleSimpleQuery_follows (hne : f.trimSpace sql ≠ [])
    (hstray : queryStrays f s c o (f.trimSpace sql) answer = false) :
    Follows f s c t T (f.trimSpace sql) (.query sql answer) (handleSimpleQuery f s c o sql answer) := by
  unfold handleSimpleQuery
  dsimp only
  rw [if_neg hne]
  cases hctl : control f (f.trimSpace sql) with
  | some ctl => exact handleControl_follows hidle htx hT hdone hctl hstray
  | none =>
    refine GoesOn.follows ?_ (textEnding_of_no_control hctl _)
    unfold queryStrays at hstray
    rw [hctl] at hstray
    dsimp only
    split
    · rename_i hab
      exact .same htx hT rfl rfl fun h => absurd (hab.2.symm.trans h) (by decide)
    · rename_i hab
      have hhealthy : c.txAborted = false := by
        cases h : c.txAborted with
        | false => rfl
        | true => exact absurd ⟨by rw [htx]; exact nofun, h⟩ hab
      simp only [hhealthy, Bool.not_false, Bool.true_and] at hstray
      cases hcopy : handleCopy f s c o (f.trimSpace sql) answer with
      | some h =>
        simp only [hcopy, Bool.or_eq_false_iff, Bool.not_eq_false'] at hstray
        exact handleCopy_goesOn hidle htx hT hcopy hstray.1 (List.isEmpty_iff.mp hstray.2)
      | none =>
        simp only [hcopy, Bool.and_eq_false_iff, Bool.not_eq_false'] at hstray
        refine handleStatement_goesOn hidle htx hT ?_ sql
        intro hb
        rcases hstray with h | h
        · cases h.symm.trans hb
        · exact List.isEmpty_iff.mp h

omit hidle htx hT hdone in
theorem textEnding_isSome (sql : Bytes) (out : List Backend) :
    (textEnding f sql out).isSome = (textEnding f sql []).isSome := by
  unfold textEnding
  split <;> rfl

omit hdone in
theorem handleExecuteExtended_goesOn {portal : Bytes} (hstray : executeStrays f s c o portal = false) :
    GoesOn s c t T (.execute portal) (handleExecuteExtended f s c o portal) ∧
      ending f c (handleExecuteExtended f s c o portal).out (.execute portal) = none := by
  unfold executeStrays at hstray
  cases hportal : c.portals.lookup portal with
  | none =>
    simp only [hportal, Bool.not_eq_false'] at hstray
    simp only [handleExecuteExtended, ending, hportal, bind_none, and_true]
    exact .same htx hT rfl rfl fun h => absurd (hstray.symm.trans h) (by decide)
  | some p =>
    obtain ⟨sql, params⟩ := p
    simp only [hportal, Bool.or_eq_false_iff, Bool.and_eq_false_iff, Bool.not_eq_false'] at hstray
    obtain ⟨⟨hend, hbranch⟩, hfail⟩ := hstray
    have hnone : ∀ out, textEnding f (f.trimSpace sql) out = none := by
      intro out
      rw [← isNone_iff_eq_none, ← not_isSome, textEnding_isSome, hend]
      rfl
    refine ⟨?_, by simp only [ending, hportal, bind_some]; exact hnone _⟩
    have hkeeps : (execStatement f s c o sql params).sys.hist = s.hist ∧
        ∃ T', (execStatement f s c o sql params).sys.eng.txns[t]? = some T' ∧
          T'.mutations = T.mutations ++ (execStatement f s c o sql params).issued := by
      unfold execStatement at hbranch ⊢
      dsimp only at hbranch ⊢
      split
      · exact ⟨rfl, T, hT, (append_nil _).symm⟩
      · rename_i htag
        simp only [htag] at hbranch
        have hquiet : runsBranch f (f.trimSpace sql) = true → (execSQL f s c o (f.trimSpace sql) params).issued = [] := by
          intro hb
          have hissued := List.isEmpty_iff.mp (hbranch.resolve_left fun h => absurd (h.symm.trans hb) (by decide))
          split at hissued
          · split at hissued
            · exact hissued
            · exact hissued
          · exact hissued
        have hin := execSQL_inBlock hidle htx hT hquiet
        split
        · split
          · exact hin
          · exact hin
        · exact hin
    obtain ⟨hhist, T', hT', hwrites⟩ := hkeeps
    simp only [handleExecuteExtended, hportal]
    split
    · rename_i e hanswer
      refine ⟨htx, hhist, ?_, T', hT', fun _ => hwrites⟩
      rcases hfail with hab | hok
      · rw [hab]
        rfl
      · rw [hanswer] at hok
        cases hok
    · exact ⟨(defer_tx c _).trans htx, hhist, by rw [defer_txAborted]; exact (Bool.or_false _).symm, T', hT',
        fun _ => hwrites⟩

omit hidle htx hT hdone in
theorem any_endQuery (h : Handled) : h.endQuery.out.any Backend.isError = h.out.any Backend.isError := by
  simp only [Handled.endQuery, any_append, any_cons, any_nil, Backend.isError, Bool.or_false]

omit hidle htx hT hdone in
theorem Follows.endQuery
    (hf : Follows f s c t T sql (.query text answer) h) : Follows f s c t T sql (.query text answer) h.endQuery := by
  have hend : textEnding f sql h.endQuery.out = textEnding f sql h.out := by
    unfold textEnding
    rw [any_endQuery]
  refine ⟨?_, ?_⟩
  · intro hnone
    obtain ⟨h1, h2, h3, h4⟩ := hf.1 (hend.symm.trans hnone)
    exact ⟨h1, h2, by rw [fails, any_endQuery]; exact h3, h4⟩
  · intro e he
    obtain ⟨h1, h2, h3⟩ := hf.2 e (hend.symm.trans he)
    exact ⟨h1, h2, fun hc => by rw [fails, any_endQuery]; exact h3 hc⟩

omit hidle htx hT hdone in
theorem handleControl_answers (sql : Bytes) (ctl : Control) : .copyInResponse ∉ (handleControl f s c o sql ctl).out := by
  cases ctl with
  | role answer => cases answer <;> simp [handleControl]
  | begin =>
    simp only [handleControl, handleBegin]
    split <;> simp
  | commit =>
    simp only [handleControl, handleCommit]
    split
    · simp
    · split
      · simp
      · split <;> simp
  | setBranch =>
    simp only [handleControl, handleSetBranch]
    split
    · simp
    · split
      · simp
      · split <;> simp
  | declare =>
    simp only [handleControl]
    split <;> simp
  | fetch =>
    simp only [handleControl, handleFetch]
    split
    · simp
    · split
      · simp
      · split
        · simp
        · split <;> simp
  | _ => simp [handleControl]

omit hidle htx hT hdone in
theorem hangsUp_false (h : .copyInResponse ∉ out) : hangsUp answer out = false := by
  unfold hangsUp
  split
  · exact absurd mem_cons_self h
  · rfl

omit hidle htx hT hdone in
theorem hangUp_ends {m' : Message} (hg : GoesOn s c t T m' h) : Ends s c t T .disconnect m h.hangUp := by
  refine ⟨rfl, ?_, nofun⟩
  rw [if_neg (fun h => nomatch h.1), append_nil]
  simp only [Handled.hangUp, rollbackOpen, hg.tx]
  exact rollback_hist.trans hg.hist

theorem query_inBlock (hstray : strays f s c o (.query sql answer) = false) :
    (ending f c (handle f s c o (.query sql answer)).out (.query sql answer) = none →
      GoesOn s c t T (.query sql answer) (handle f s c o (.query sql answer))) ∧
    ∀ e, ending f c (handle f s c o (.query sql answer)).out (.query sql answer) = some e →
      Ends s c t T e (.query sql answer) (handle f s c o (.query sql answer)) := by
  simp only [strays, htx, isSome_some, Bool.true_and, Bool.and_eq_false_iff, decide_eq_false_iff_not,
    not_not] at hstray
  by_cases hne : f.trimSpace sql = []
  · have hq : handleSimpleQuery f s c o sql answer = ⟨s, c, [.emptyQuery], []⟩ := by
      simp only [handleSimpleQuery, if_pos hne]
    have hup : hangsUp answer (handleSimpleQuery f s c o sql answer).endQuery.out = false := by
      rw [hq]
      cases answer <;> rfl
    simp only [handle, ending, hup, Bool.false_eq_true, if_false, if_pos hne]
    refine ⟨fun _ => ?_, fun e he => by cases he⟩
    rw [hq]
    exact .same htx hT rfl rfl fun _ => rfl
  · have hf := (handleSimpleQuery_follows hidle htx hT hdone hne (hstray.resolve_left hne)).endQuery
    cases hup : hangsUp answer (handleSimpleQuery f s c o sql answer).endQuery.out with
    | false =>
      simp only [handle, ending, hup, Bool.false_eq_true, if_false, if_neg hne]
      exact hf
    | true =>
      have hctl : control f (f.trimSpace sql) = none := by
        cases hctl : control f (f.trimSpace sql) with
        | none => rfl
        | some ctl =>
          have hq : handleSimpleQuery f s c o sql answer = handleControl f s c o (f.trimSpace sql) ctl := by
            simp only [handleSimpleQuery, if_neg hne, hctl]
          have hno : .copyInResponse ∉ (handleControl f s c o (f.trimSpace sql) ctl).endQuery.out := by
            simpa [Handled.endQuery] using handleControl_answers (f.trimSpace sql) ctl
          rw [hq, hangsUp_false hno] at hup
          cases hup
      have hgo := hf.1 (textEnding_of_no_control hctl _)
      have hout : ∀ h : Handled, h.hangUp.out = h.out := fun _ => rfl
      simp only [handle, ending, hup, if_true, hout]
      refine ⟨fun h => (by cases h), ?_⟩
      intro e he
      cases he
      exact hangUp_ends hgo

theorem handle_inBlock (hstray : strays f s c o m = false) :
    (ending f c (handle f s c o m).out m = none → GoesOn s c t T m (handle f s c o m)) ∧
      ∀ e, ending f c (handle f s c o m).out m = some e → Ends s c t T e m (handle f s c o m) := by
  have hquiet := handle_quiet s f c o (m := m)
  cases m with
  | query sql answer => exact query_inBlock hidle htx hT hdone hstray
  | execute portal =>
    simp only [strays, htx, isSome_some, Bool.true_and] at hstray
    obtain ⟨hgo, hend⟩ := handleExecuteExtended_goesOn hidle htx hT hstray
    exact ⟨fun _ => hgo, fun e he => absurd (hend.symm.trans he) (by simp)⟩
  | disconnect =>
    refine ⟨fun h => (by cases h), ?_⟩
    intro e he
    cases he
    exact rollback_ends htx (.inl (by simp)) (by simp)
  | _ =>
    refine ⟨fun _ => ?_, fun e he => by cases he⟩
    obtain ⟨c', out, h, htx', hab⟩ := hquiet rfl
    rw [h]
    exact .same htx hT htx' hab fun _ => rfl

end block

/-! ## A message outside a block -/

section idle
variable {f s c o} (hnone : c.tx = none)
include hnone

theorem handleControl_idle {ctl : Control} (hctl : ctl ≠ .begin) (sql : Bytes) :
    (handleControl f s c o sql ctl).conn.tx = none := by
  cases ctl with
  | role answer => cases answer <;> exact hnone
  | begin => exact absurd rfl hctl
  | commit => simp only [handleControl, handleCommit, hnone]
  | rollback => rfl
  | setBranch =>
    simp only [handleControl, handleSetBranch]
    split
    · exact hnone
    · split
      · exact hnone
      · split <;> exact hnone
  | declare =>
    simp only [handleControl]
    split <;> exact hnone
  | fetch =>
    simp only [handleControl, handleFetch]
    split
    · exact hnone
    · split
      · exact hnone
      · split
        · exact hnone
        · split
          · exact hnone
          · exact (defer_tx c _).trans hnone
  | _ => exact hnone

variable {sql} {answer : CopyAnswer} {m : Message}

theorem handleCopy_idle {h : Handled} (hcopy : handleCopy f s c o sql answer = some h) : h.conn.tx = none := by
  unfold handleCopy at hcopy
  split at hcopy
  · split at hcopy
    · cases hcopy
      cases answer with
      | done data =>
        simp only [handleCopyIn]
        split
        · exact hnone
        · split <;> exact hnone
      | _ => exact hnone
    · cases hcopy
      simp only [handleCopyOut]
      split <;> exact hnone
    · cases hcopy
  · cases hcopy

theorem handleSimpleQuery_idle (hopens : opens f (.query sql answer) = false) :
    (handleSimpleQuery f s c o sql answer).conn.tx = none := by
  unfold handleSimpleQuery
  dsimp only
  split
  · exact hnone
  · rename_i hne
    split
    · rename_i ctl hctl
      refine handleControl_idle hnone ?_ _
      rintro rfl
      simp only [opens, hctl, ne_eq, hne, not_false_eq_true, decide_true] at hopens
      cases hopens
    · split
      · exact hnone
      · split
        · rename_i h hcopy
          exact handleCopy_idle hnone hcopy
        · unfold handleStatement
          dsimp only
          split
          · rw [if_pos hnone]
            exact hnone
          · exact (defer_tx c _).trans hnone

theorem handle_idle (hopens : opens f m = false) : (handle f s c o m).conn.tx = none := by
  have hquiet := handle_quiet s f c o (m := m)
  cases m with
  | query sql answer =>
    simp only [handle]
    split
    · rfl
    · exact handleSimpleQuery_idle hnone hopens
  | execute portal =>
    simp only [handle, handleExecuteExtended]
    split
    · exact hnone
    · split
      · exact hnone
      · exact (defer_tx c _).trans hnone
  | disconnect => rfl
  | _ =>
    obtain ⟨c', out, h, htx, -⟩ := hquiet rfl
    rw [h]
    exact htx.trans hnone

theorem handle_opens (hopens : opens f m = true) : (handle f s c o m).sys = call s .begin ∧
    (handle f s c o m).conn.tx = some s.eng.txns.length ∧ (handle f s c o m).conn.txAborted = false := by
  cases m with
  | query sql answer =>
    have hctl : control f (f.trimSpace sql) = some .begin ∧ f.trimSpace sql ≠ [] := by
      simp only [opens] at hopens
      split at hopens
      · rename_i hctl
        exact ⟨hctl, of_decide_eq_true hopens⟩
      · cases hopens
    have hq : handleSimpleQuery f s c o sql answer = handleBegin s c := by
      simp only [handleSimpleQuery, if_neg hctl.2, hctl.1, handleControl]
    have hno : .copyInResponse ∉ (handleSimpleQuery f s c o sql answer).endQuery.out := by
      rw [hq]
      simp [Handled.endQuery, handleBegin, hnone]
    simp only [handle, hangsUp_false hno, Bool.false_eq_true, if_false]
    rw [hq]
    simp only [Handled.endQuery, handleBegin, hnone, and_self]
  | _ => cases hopens

end idle

end BasuyuDb.Wire
