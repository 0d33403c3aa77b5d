import BasuyuDb.Auth.Identity
import BasuyuDb.Executor.Sessions

/-
  engine/internal/executor/sequences.go, ddl_seq_enum.go and the sequence functions of eval.go. There
  are two kinds of counters. nextval, currval and setval use a map of the process, by the bare name
  of the sequence. CREATE SEQUENCE, DROP SEQUENCE and serial defaults use a key of the namespace,
  inside the statement's transaction. `SeqNet` runs both on one engine: every evaluation, every
  draw, every part of a commit is a step, by sessions of any namespaces.
-/

namespace BasuyuDb.Executor
open KvLib Storage Transactions Auth List Option

/-! ## The map of the process -/

/-- `seqVals`; the newest entry of a name counts. -/
abbrev SeqVals := List (Bytes × Int)

variable (sess : Session) (ns : NamespaceID) (m : SeqVals) (name : Bytes)

def SeqVals.value : Option Int := (m.find? fun e => e.1 = name).map Prod.snd

def seqNextVal : SeqVals × Int :=
  let v := wrap64 ((m.value name).getD 0 + 1)
  ((name, v) :: m, v)

def seqCurrVal : ExecM Int :=
  match m.value name with
  | some v => .ok v
  | none => .error ⟨"55000", "sequence %q does not exist or currval not yet called", [name]⟩

def seqSetVal (val : Int) : SeqVals × Int := ((name, val) :: m, val)

inductive SeqFunc where
  | nextval
  | currval
  | setval
deriving DecidableEq

/-- The sequence an argument names: without quotes, after the last dot. -/
def sequenceName (arg : Bytes) : Bytes :=
  let nm := ((arg.dropWhile fun b => b = 34 ∨ b = 39).reverse.dropWhile fun b => b = 34 ∨ b = 39).reverse
  (nm.reverse.takeWhile fun b => b ≠ 46).reverse

/-- The sequence of a call; a NULL has the empty text. -/
def calledOn (args : List Value) : Bytes := sequenceName ((args.head?.bind Value.cell).getD [])

/-- The three cases of `evalScalarFunc`. -/
def evalSequenceFunc (f : SeqFunc) (args : List Value) : SeqVals × ExecM Value :=
  match f, args with
  | .nextval, [] => (m, .error ⟨"42883", "nextval requires 1 argument", []⟩)
  | .nextval, _ :: _ =>
    let r := seqNextVal m (calledOn args)
    (r.1, .ok ⟨some (formatInt r.2), OIDInt8⟩)
  | .currval, [] => (m, .error ⟨"42883", "currval requires 1 argument", []⟩)
  | .currval, _ :: _ => (m, (seqCurrVal m (calledOn args)).map fun v => ⟨some (formatInt v), OIDInt8⟩)
  | .setval, _ :: v :: _ =>
    match parseInt (v.cell.getD []) with
    | some i =>
      let r := seqSetVal m (calledOn args) i
      (r.1, .ok ⟨some (formatInt r.2), OIDInt8⟩)
    | none => (m, .error ⟨"22P02", "invalid value for setval", []⟩)
  | .setval, _ => (m, .error ⟨"42883", "setval requires 2 arguments", []⟩)

/-! ## The keys of a namespace -/

def execCreateSequence (ifNotExists : Bool) : Stm Unit := do
  match ← Prog.read (seqKey sess name) with
  | some _ => if ifNotExists then pure () else Prog.throw ⟨"42P07", "sequence %q already exists", [name]⟩
  | none => Prog.write (assignment (seqKey sess name) (.text (formatInt 0)))

def execDropSequence (ifExists : Bool) : Stm Unit := do
  match ← Prog.read (seqKey sess name) with
  | some _ => Prog.write (deletion (seqKey sess name))
  | none => if ifExists then pure () else Prog.throw ⟨"42P01", "sequence %q does not exist", [name]⟩

/-- A program in an open transaction of the engine; its reads are of the transaction's snapshot, so
nothing another session does between them matters. -/
def runTxn {A : Type} (t : Nat) : Stm A → Sys Val → Option (Sys Val × ExecM A)
  | .pure a, s => some (s, .ok a)
  | .throw e, s => some (s, .error e)
  | .get k next, s => (s.eng.txns[t]?).bind fun T => runTxn t (next (found (s.eng.get T k))) s
  | .scan r next, s => (s.eng.txns[t]?).bind fun T => runTxn t (next (s.eng.iterate T r)) s
  | .put m next, s => (s.step (.buffer t m)).bind fun s' => runTxn t next s'
  | .readTs next, s => (s.eng.txns[t]?).bind fun T => runTxn t (next T.readUint) s
  | .fresh next, s => runTxn t (next 0) s

/-! ## Sessions of any namespaces -/

/-- A session, as far as the counters read it. -/
def tenant : Session := ⟨ns.raw, mainBranch, [], false, []⟩

/-- A value that a serial default drew, in a transaction. -/
structure Draw where
  ns : NamespaceID
  name : Bytes
  txn : Nat
  value : Int
deriving DecidableEq

/-- A call of a sequence function, with its reply. -/
structure SeqReply where
  ns : NamespaceID
  f : SeqFunc
  name : Bytes
  reply : ExecM Value
deriving DecidableEq

structure SeqNet where
  sys : Sys Val
  vals : SeqVals
  draws : List Draw
  replies : List SeqReply

/-- A process starts on a store. -/
def SeqNet.new (store : Store Val) : SeqNet := ⟨Sys.new store, [], [], []⟩

variable (n : SeqNet)

inductive SeqAct where
  /-- Begin, Commit and its parts, Rollback, and what other statements write. -/
  | call (a : Transactions.Call Val)
  | draw (ns : NamespaceID) (t : Nat) (name : Bytes)
  | create (ns : NamespaceID) (t : Nat) (name : Bytes) (ifNotExists : Bool)
  | drop (ns : NamespaceID) (t : Nat) (name : Bytes) (ifExists : Bool)
  | eval (ns : NamespaceID) (f : SeqFunc) (args : List Value)

def openTxn (s : Sys Val) (t : Nat) : Bool := (s.eng.txns[t]?).any fun T => !T.done

def SeqNet.step : SeqAct → Option SeqNet
  | .call a => (n.sys.step a).map fun sys => { n with sys := sys }
  | .draw ns t name =>
    if openTxn n.sys t then
      (runTxn t (nextSequenceVal (tenant ns) name) n.sys).map (fun r =>
        { n with sys := r.1, draws := n.draws ++ (r.2.toOption.map fun v => ⟨ns, name, t, v⟩).toList })
    else none
  | .create ns t name ifNotExists =>
    if openTxn n.sys t then
      (runTxn t (execCreateSequence (tenant ns) name ifNotExists) n.sys).map (fun r => { n with sys := r.1 })
    else none
  | .drop ns t name ifExists =>
    if openTxn n.sys t then
      (runTxn t (execDropSequence (tenant ns) name ifExists) n.sys).map (fun r => { n with sys := r.1 })
    else none
  | .eval ns f args =>
    let r := evalSequenceFunc n.vals f args
    some { n with vals := r.1, replies := n.replies ++ [⟨ns, f, calledOn args, r.2⟩] }

/-- What the calls on a sequence returned to the sessions of a namespace. -/
def SeqNet.repliesOn : List SeqReply := n.replies.filter fun r => r.ns = ns ∧ r.name = name

/-- The values among the replies that are of nextval. -/
def nextvals (rs : List SeqReply) : List Bytes :=
  rs.filterMap fun r => if r.f = .nextval then r.reply.toOption.bind Value.cell else none

/-- The values a sequence gave out to a namespace: by nextval, and by the serial defaults of
transactions that committed. -/
def SeqNet.given : List Bytes :=
  nextvals (n.repliesOn ns name) ++
    (n.draws.filter fun d => d.ns = ns ∧ d.name = name ∧ ∃ c ∈ n.sys.hist, c.txn = d.txn).map
      (fun d => formatInt d.value)

/-! ## What the map answers -/

/-- No session of another namespace moves the counter of this name in the map. -/
def Unshared : SeqAct → Prop
  | .eval ns' f args => ns' = ns ∨ f = .currval ∨ calledOn args ≠ name
  | _ => True

/-- The calls of sequence functions on a name, by the sessions of a namespace. -/
def callsOn (ns : NamespaceID) (name : Bytes) : List SeqAct → List (SeqFunc × List Value)
  | [] => []
  | .eval ns' f args :: acts =>
    if ns' = ns ∧ calledOn args = name then (f, args) :: callsOn ns name acts else callsOn ns name acts
  | _ :: acts => callsOn ns name acts

/-- The calls one after the other on a map with this entry only. -/
def replay (ns : NamespaceID) (name : Bytes) : Option Int → List (SeqFunc × List Value) → List SeqReply
  | _, [] => []
  | v, (f, args) :: calls =>
    let r := evalSequenceFunc (v.toList.map fun i => (name, i)) f args
    ⟨ns, f, name, r.2⟩ :: replay ns name (r.1.value name) calls

section map
variable {m name} {m' : SeqVals}

theorem value_cons_self (v : Int) : SeqVals.value ((name, v) :: m) name = some v := by
  simp [SeqVals.value]

theorem value_cons_ne {name' : Bytes} (h : name' ≠ name) (v : Int) :
    SeqVals.value ((name', v) :: m) name = m.value name := by
  simp [SeqVals.value, h]

theorem evalSequenceFunc_congr (f : SeqFunc) (args : List Value) (h : m.value (calledOn args) = m'.value (calledOn args)) :
    (evalSequenceFunc m f args).2 = (evalSequenceFunc m' f args).2 ∧
      (evalSequenceFunc m f args).1.value (calledOn args) = (evalSequenceFunc m' f args).1.value (calledOn args) := by
  unfold evalSequenceFunc
  split
  · exact ⟨rfl, h⟩
  · simp only [seqNextVal, h, value_cons_self, and_self]
  · exact ⟨rfl, h⟩
  · simp only [seqCurrVal, h, and_self]
  · split
    · simp only [seqSetVal, value_cons_self, and_self]
    · exact ⟨rfl, h⟩
  · exact ⟨rfl, h⟩

theorem evalSequenceFunc_other (f : SeqFunc) (args : List Value) (h : f = .currval ∨ calledOn args ≠ name) :
    (evalSequenceFunc m f args).1.value name = m.value name := by
  unfold evalSequenceFunc
  split
  · rfl
  · obtain h | h := h
    · cases h
    · exact value_cons_ne h _
  · rfl
  · rfl
  · obtain h | h := h
    · cases h
    · split
      · exact value_cons_ne h _
      · rfl
  · rfl

theorem value_single (v : Option Int) : SeqVals.value (v.toList.map fun i => (name, i)) name = v := by
  cases v with
  | none => rfl
  | some i => exact value_cons_self i

end map

section replay
variable {ns name n} {n' : SeqNet}

theorem SeqNet.step_vals {a : SeqAct} (h : n.step a = some n') (ha : ∀ ns' f args, a ≠ .eval ns' f args) :
    n'.vals = n.vals ∧ n'.replies = n.replies := by
  cases a with
  | call a =>
    obtain ⟨sys, -, rfl⟩ := map_eq_some_iff.mp h
    exact ⟨rfl, rfl⟩
  | draw ns' t name' | create ns' t name' b | drop ns' t name' b =>
    obtain ⟨-, h⟩ := ite_none_right_eq_some.mp h
    obtain ⟨r, -, rfl⟩ := map_eq_some_iff.mp h
    exact ⟨rfl, rfl⟩
  | eval ns' f args => exact absurd rfl (ha ns' f args)

theorem repliesOn_run (acts : List SeqAct) (hrun : acts.foldlM SeqNet.step n = some n')
    (hown : ∀ a ∈ acts, Unshared ns name a) : n'.repliesOn ns name =
      n.repliesOn ns name ++ replay ns name (n.vals.value name) (callsOn ns name acts) := by
  induction acts generalizing n with
  | nil =>
    cases hrun
    exact (append_nil _).symm
  | cons a acts ih =>
    obtain ⟨n1, hstep, hrest⟩ := bind_eq_some_iff.mp hrun
    have ih := ih hrest fun b hb => hown b (mem_cons_of_mem _ hb)
    by_cases ha : ∃ ns' f args, a = .eval ns' f args
    · obtain ⟨ns', f, args, rfl⟩ := ha
      cases hstep
      by_cases hon : ns' = ns ∧ calledOn args = name
      · obtain ⟨rfl, rfl⟩ := hon
        have hcong := evalSequenceFunc_congr f args (value_single (n.vals.value (calledOn args))).symm
        rw [ih]
        simp only [SeqNet.repliesOn, filter_append, callsOn, and_self, if_true, replay, ← hcong.1, ← hcong.2,
          append_assoc, filter_cons, decide_true, filter_nil, cons_append, nil_append]
      · have hsame : (evalSequenceFunc n.vals f args).1.value name = n.vals.value name := by
          obtain rfl | hother := hown _ mem_cons_self
          · exact evalSequenceFunc_other f args (.inr fun h => hon ⟨rfl, h⟩)
          · exact evalSequenceFunc_other f args hother
        rw [ih, hsame]
        simp only [SeqNet.repliesOn, filter_append, callsOn, if_neg hon, filter_cons, decide_eq_true_eq,
          filter_nil, append_nil]
    · obtain ⟨hvals, hreplies⟩ := SeqNet.step_vals hstep (fun ns' f args h => ha ⟨ns', f, args, h⟩)
      have hcalls : callsOn ns name (a :: acts) = callsOn ns name acts := by
        cases a with
        | eval ns' f args => exact absurd ⟨ns', f, args, rfl⟩ ha
        | _ => rfl
      rw [ih, hcalls, hvals]
      unfold SeqNet.repliesOn
      rw [hreplies]

theorem formatInt_inj {i j : Int} (hi : inInt64 i = true) (hj : inInt64 j = true)
    (h : formatInt i = formatInt j) : i = j := by
  have hp := parseInt_formatInt hi
  rw [h, parseInt_formatInt hj] at hp
  exact (some.inj hp).symm

theorem nextvals_replay (calls : List (SeqFunc × List Value)) (v : Option Int) (hset : ∀ c ∈ calls, c.1 ≠ .setval)
    (hon : ∀ c ∈ calls, calledOn c.2 = name) (hlow : 0 ≤ v.getD 0) (hmax : v.getD 0 + calls.length < 2 ^ 63) :
    (nextvals (replay ns name v calls)).Nodup ∧
      ∀ x ∈ nextvals (replay ns name v calls), ∃ i, v.getD 0 < i ∧ inInt64 i = true ∧ x = formatInt i := by
  induction calls generalizing v with
  | nil => exact ⟨nodup_nil, fun x hx => absurd hx not_mem_nil⟩
  | cons c calls ih =>
    obtain ⟨f, args⟩ := c
    have hset' := fun c hc => hset c (mem_cons_of_mem _ hc)
    have hon' := fun c hc => hon c (mem_cons_of_mem _ hc)
    have hname : calledOn args = name := hon _ mem_cons_self
    rw [length_cons, Nat.cast_add, Nat.cast_one] at hmax
    -- an unanswered call leaves the entry as it is
    have hskip : ∀ r : SeqReply, (if r.f = .nextval then r.reply.toOption.bind Value.cell else none) = none →
        (nextvals (r :: replay ns name v calls)).Nodup ∧
          ∀ x ∈ nextvals (r :: replay ns name v calls), ∃ i, v.getD 0 < i ∧ inInt64 i = true ∧ x = formatInt i := by
      intro r hr
      have hdrop : nextvals (r :: replay ns name v calls) = nextvals (replay ns name v calls) := by
        unfold nextvals
        rw [filterMap_cons, hr]
      rw [hdrop]
      exact ih v hset' hon' hlow (by omega)
    cases f with
    | setval => exact absurd rfl (hset _ mem_cons_self)
    | currval =>
      have hkeep : (evalSequenceFunc (v.toList.map fun i => (name, i)) .currval args).1.value name = v := by
        rw [evalSequenceFunc_other _ _ (.inl rfl), value_single]
      rw [replay, hkeep]
      exact hskip _ rfl
    | nextval =>
      cases args with
      | nil =>
        have hkeep : (evalSequenceFunc (v.toList.map fun i => (name, i)) .nextval []).1.value name = v := value_single v
        rw [replay, hkeep]
        exact hskip _ rfl
      | cons a as =>
        have hint : inInt64 (v.getD 0 + 1) = true := by
          simp only [inInt64, Bool.and_eq_true, decide_eq_true_eq]
          omega
        have heval : evalSequenceFunc (v.toList.map fun i => (name, i)) .nextval (a :: as) =
            ((name, v.getD 0 + 1) :: v.toList.map fun i => (name, i),
              .ok ⟨some (formatInt (v.getD 0 + 1)), OIDInt8⟩) := by
          simp only [evalSequenceFunc, seqNextVal, hname, value_single, wrap64_of_inInt64 hint]
        have ih := ih (some (v.getD 0 + 1)) hset' hon' (by simp only [getD_some]; omega)
          (by simp only [getD_some]; omega)
        simp only [replay, heval, value_cons_self, nextvals, filterMap_cons, if_true, Except.toOption, bind_some]
        obtain ⟨hnodup, hval⟩ := ih
        refine ⟨nodup_cons.mpr ⟨?_, hnodup⟩, ?_⟩
        · intro hmem
          obtain ⟨i, hi, hint', heq⟩ := hval _ hmem
          have := formatInt_inj hint hint' heq
          simp only [getD_some] at hi
          omega
        · intro x hx
          rcases mem_cons.mp hx with rfl | hx
          · exact ⟨_, by omega, hint, rfl⟩
          · obtain ⟨i, hi, hint', heq⟩ := hval x hx
            simp only [getD_some] at hi
            exact ⟨i, by omega, hint', heq⟩

theorem callsOn_mem {acts : List SeqAct} {c : SeqFunc × List Value} (h : c ∈ callsOn ns name acts) :
    SeqAct.eval ns c.1 c.2 ∈ acts ∧ calledOn c.2 = name := by
  induction acts with
  | nil => cases h
  | cons a acts ih =>
    cases a with
    | eval ns' f args =>
      rw [callsOn] at h
      split at h
      · rename_i hon
        rcases mem_cons.mp h with rfl | h
        · obtain ⟨rfl, hname⟩ := hon
          exact ⟨mem_cons_self, hname⟩
        · exact ⟨mem_cons_of_mem _ (ih h).1, (ih h).2⟩
      · exact ⟨mem_cons_of_mem _ (ih h).1, (ih h).2⟩
    | _ => exact ⟨mem_cons_of_mem _ (ih h).1, (ih h).2⟩

variable (ns name) in
theorem callsOn_length (acts : List SeqAct) : (callsOn ns name acts).length ≤ acts.length := by
  induction acts with
  | nil => exact le_rfl
  | cons a acts ih =>
    rw [length_cons]
    cases a with
    | eval ns' f args =>
      rw [callsOn]
      split
      · rw [length_cons]
        omega
      · omega
    | _ =>
      rw [callsOn]
      · omega
      · simp

end replay

end BasuyuDb.Executor
