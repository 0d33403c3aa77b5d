import BasuyuDb.Wire.Protocol

/-
  Errors in the extended protocol. The loop of a connection handles every message it reads; it does not
  skip to the next Sync after an ErrorResponse. So an Execute that was pipelined behind a failed message
  runs whatever its portal is bound to, in particular what the portal was bound to before a Bind that
  failed. `recovers_iff`: nothing is executed between an error and the next Sync exactly when no Execute
  there names a portal that an earlier Bind bound.
-/

namespace BasuyuDb.Wire
open KvLib Storage Transactions Executor List

/-! ## Runs of a connection -/

/-- A message and when it is handled. -/
abbrev Sent := Message × Occasion

variable (f : Frontend) (s : Sys Val) (c : Conn) (ms : List Sent)

/-- The engine and the connection after messages. -/
def proceed : Sys Val × Conn :=
  ms.foldl (fun st m => ((handle f st.1 st.2 m.2 m.1).sys, (handle f st.1 st.2 m.2 m.1).conn)) (s, c)

def Message.isExtended : Message → Bool
  | .parse _ _ => true
  | .bind _ _ _ => true
  | .describe _ _ => true
  | .execute _ => true
  | .sync => true
  | .close _ _ => true
  | _ => false

/-- Parse, Bind, Describe and Execute, the messages with an answer that may be an error. -/
def Message.isRequest : Message → Bool
  | .parse _ _ => true
  | .bind _ _ _ => true
  | .describe _ _ => true
  | .execute _ => true
  | _ => false

def Message.isSync : Message → Bool
  | .sync => true
  | _ => false

/-- The statement and the parameters a message hands to `execStatement`. -/
def executed : Message → Option (Bytes × Data)
  | .execute portal => c.portals.lookup portal
  | _ => none

/-- The message comes after `e`, which failed, and no Sync has come since. -/
structure Pending (f : Frontend) (s : Sys Val) (c : Conn) (pre : List Sent) (e : Sent) (mid : List Sent) : Prop where
  request : e.1.isRequest = true
  failed : (handle f (proceed f s c pre).1 (proceed f s c pre).2 e.2 e.1).out.any Backend.isError = true
  unsynced : ∀ m ∈ mid, m.1.isSync = false

/-- No message between an error and the next Sync executes a statement. -/
def Recovers : Prop :=
  ∀ pre e mid m post, ms = pre ++ e :: mid ++ m :: post → Pending f s c pre e mid →
    executed (proceed f s c (pre ++ e :: mid)).2 m.1 = none

/-! ## What the client has bound -/

/-- The statement was prepared, by the messages of a history, the newest first. -/
def isPrepared : List Message → Bytes → Bool
  | [], _ => false
  | .parse n _ :: ms, name => decide (n = name) || isPrepared ms name
  | .close true n :: ms, name => decide (n ≠ name) && isPrepared ms name
  | _ :: ms, name => isPrepared ms name

/-- The portal is bound; a Bind to a statement that is not prepared leaves it as it was. -/
def isBound : List Message → Bytes → Bool
  | [], _ => false
  | .bind p stmt _ :: ms, name => (decide (p = name) && isPrepared ms stmt) || isBound ms name
  | .close false p :: ms, name => decide (p ≠ name) && isBound ms name
  | _ :: ms, name => isBound ms name

/-- The client never sends, between an error and the next Sync, an Execute of a portal it has bound. -/
def NoneBound : Prop :=
  ∀ pre e mid portal o post, ms = pre ++ e :: mid ++ (.execute portal, o) :: post → Pending f s c pre e mid →
    isBound ((pre ++ e :: mid).map Prod.fst).reverse portal = false

section maps
variable {α : Type}

variable (m : List (Bytes × α))

theorem lookup_filter_ne (n k : Bytes) :
    (m.filter fun e => e.1 ≠ n).lookup k = if k = n then none else m.lookup k := by
  induction m with
  | nil => simp
  | cons e m ih =>
    obtain ⟨a, v⟩ := e
    by_cases ha : a = n
    · rw [filter_cons_of_neg (by simp [ha]), ih]
      by_cases hk : k = n
      · rw [if_pos hk, if_pos hk]
      · rw [if_neg hk, if_neg hk, lookup_cons, beq_false_of_ne (by rw [ha]; exact hk)]
    · rw [filter_cons_of_pos (by simp [ha]), lookup_cons, lookup_cons, ih]
      by_cases hk : k = n
      · rw [if_pos hk, if_pos hk, beq_false_of_ne (by rw [hk]; exact Ne.symm ha)]
      · rw [if_neg hk, if_neg hk]

theorem lookup_assign (n k : Bytes) (v : α) : (assign m n v).lookup k = if k = n then some v else m.lookup k := by
  unfold assign
  rw [lookup_cons, lookup_filter_ne]
  by_cases hk : k = n
  · rw [if_pos hk, if_pos hk, hk, beq_self_eq_true]
  · rw [if_neg hk, if_neg hk, beq_false_of_ne hk]

end maps

/-! ## The maps of the connection -/

/-- The maps of a connection have what its client has prepared and bound. -/
structure Maps (c : Conn) (hist : List Message) : Prop where
  prepared : ∀ name, (c.prepared.lookup name).isSome = isPrepared hist name
  portals : ∀ name, (c.portals.lookup name).isSome = isBound hist name

section steps
variable {f s c} {o : Occasion} {hist : List Message}

theorem Maps.same {c' : Conn} {m : Message} (h : Maps c hist) (hprep : c'.prepared = c.prepared)
    (hport : c'.portals = c.portals) (hp : ∀ name, isPrepared (m :: hist) name = isPrepared hist name)
    (hb : ∀ name, isBound (m :: hist) name = isBound hist name) : Maps c' (m :: hist) :=
  ⟨fun name => by rw [hprep, hp, h.prepared], fun name => by rw [hport, hb, h.portals]⟩

theorem Maps.step (h : Maps c hist) {m : Message} (hm : m.isExtended = true) :
    Maps (handle f s c o m).conn (m :: hist) := by
  cases m with
  | parse n sql =>
    refine ⟨fun name => ?_, h.portals⟩
    change ((assign c.prepared n sql).lookup name).isSome = (decide (n = name) || isPrepared hist name)
    rw [lookup_assign, ← h.prepared]
    by_cases hn : name = n
    · simp [hn]
    · simp [hn, Ne.symm hn]
  | bind p stmt params =>
    have hprep := h.prepared stmt
    simp only [handle, handleBind]
    cases hstmt : c.prepared.lookup stmt with
    | none =>
      rw [hstmt] at hprep
      refine ⟨h.prepared, fun name => ?_⟩
      rw [h.portals, isBound, ← hprep]
      simp
    | some sql =>
      rw [hstmt] at hprep
      refine ⟨h.prepared, fun name => ?_⟩
      dsimp only
      rw [lookup_assign, isBound, ← hprep, ← h.portals]
      by_cases hn : name = p
      · simp [hn]
      · simp [hn, Ne.symm hn]
  | describe statement name =>
    have hconn : (handle f s c o (.describe statement name)).conn = c := by
      simp only [handle, handleDescribe]
      split
      · split <;> rfl
      · split <;> rfl
    rw [hconn]
    exact h.same rfl rfl (fun _ => rfl) fun _ => rfl
  | execute portal =>
    have hdefer : ∀ checks, (c.defer checks).prepared = c.prepared ∧ (c.defer checks).portals = c.portals := by
      intro checks
      unfold Conn.defer
      split <;> exact ⟨rfl, rfl⟩
    have hmaps : (handle f s c o (.execute portal)).conn.prepared = c.prepared ∧
        (handle f s c o (.execute portal)).conn.portals = c.portals := by
      simp only [handle, handleExecuteExtended]
      split
      · exact ⟨rfl, rfl⟩
      · split
        · exact ⟨rfl, rfl⟩
        · exact hdefer _
    exact h.same hmaps.1 hmaps.2 (fun _ => rfl) fun _ => rfl
  | sync => exact h.same rfl rfl (fun _ => rfl) fun _ => rfl
  | close statement n =>
    cases statement with
    | true =>
      refine ⟨fun name => ?_, h.portals⟩
      change ((c.prepared.filter fun e => e.1 ≠ n).lookup name).isSome = (decide (n ≠ name) && isPrepared hist name)
      rw [lookup_filter_ne, ← h.prepared]
      by_cases hn : name = n
      · simp [hn]
      · simp [hn, Ne.symm hn]
    | false =>
      refine ⟨h.prepared, fun name => ?_⟩
      change ((c.portals.filter fun e => e.1 ≠ n).lookup name).isSome = (decide (n ≠ name) && isBound hist name)
      rw [lookup_filter_ne, ← h.portals]
      by_cases hn : name = n
      · simp [hn]
      · simp [hn, Ne.symm hn]
  | query sql answer | disconnect | unknown typ => cases hm

theorem Maps.run (h : Maps c hist) {ms : List Sent} (hms : ∀ m ∈ ms, m.1.isExtended = true) :
    Maps (proceed f s c ms).2 ((ms.map Prod.fst).reverse ++ hist) := by
  induction ms generalizing s c hist with
  | nil => exact h
  | cons m ms ih =>
    have hstep := h.step (f := f) (s := s) (o := m.2) (hms m mem_cons_self)
    have hrest := ih (s := (handle f s c m.2 m.1).sys) hstep fun m' hm' => hms m' (mem_cons_of_mem _ hm')
    rw [map_cons, reverse_cons, append_assoc]
    exact hrest

end steps

theorem maps_new (sess : ConnSession) : Maps (.new sess) [] := ⟨fun _ => rfl, fun _ => rfl⟩

/-- Error recovery in the extended protocol: after an error nothing is executed before the next Sync,
exactly when the client sends no Execute there of a portal that it has bound. -/
theorem recovers_iff (f : Frontend) (s : Sys Val) (sess : ConnSession) (ms : List Sent)
    (hms : ∀ m ∈ ms, m.1.isExtended = true) : Recovers f s (.new sess) ms ↔ NoneBound f s (.new sess) ms := by
  have hmaps : ∀ pre e mid, (∃ m post, ms = pre ++ e :: mid ++ m :: post) →
      Maps (proceed f s (.new sess) (pre ++ e :: mid)).2 ((pre ++ e :: mid).map Prod.fst).reverse := by
    rintro pre e mid ⟨m, post, rfl⟩
    have hrun := (maps_new sess).run (f := f) (s := s) (fun m' (hm' : m' ∈ pre ++ e :: mid) => hms m' (mem_append_left _ hm'))
    rwa [append_nil] at hrun
  constructor
  · intro h pre e mid portal o post heq hpend
    have hnone : (proceed f s (.new sess) (pre ++ e :: mid)).2.portals.lookup portal = none :=
      h pre e mid (.execute portal, o) post heq hpend
    rw [← (hmaps pre e mid ⟨_, post, heq⟩).portals, hnone]
    rfl
  · intro h pre e mid m post heq hpend
    obtain ⟨m, o⟩ := m
    cases m with
    | execute portal =>
      have hbound := h pre e mid portal o post heq hpend
      rw [← (hmaps pre e mid ⟨_, post, heq⟩).portals] at hbound
      exact Option.not_isSome_iff_eq_none.mp (by rw [executed, hbound]; decide)
    | _ => rfl

def calmly (ms : List Message) : List Sent := ms.map fun m => (m, calm)

/-- A Bind fails, and the Execute behind it is of a portal that was never bound. -/
theorem recovers_unbound : ∃ ms : List Sent, ms.length = 3 ∧ Recovers demoFrontend (Sys.new demoStore) (.new demoClient) ms ∧
    Pending demoFrontend (Sys.new demoStore) (.new demoClient) [] (.bind [] (str "s") [], calm) [] := by
  refine ⟨calmly [.bind [] (str "s") [], .execute [], .sync], rfl, ?_, ⟨rfl, rfl, nofun⟩⟩
  refine (recovers_iff demoFrontend (Sys.new demoStore) demoClient _ (by decide)).mpr ?_
  intro pre e mid portal o post heq _
  have htake : pre ++ e :: mid = (calmly [.bind [] (str "s") [], .execute [], .sync]).take (pre ++ e :: mid).length := by
    rw [heq, take_left]
  have hlen : (pre ++ e :: mid).length ≤ 3 := by
    have := congrArg List.length heq
    simp only [calmly, length_map, length_cons, length_nil, length_append] at this ⊢
    omega
  rw [htake]
  obtain hn | hn | hn | hn : (pre ++ e :: mid).length = 0 ∨ (pre ++ e :: mid).length = 1 ∨ (pre ++ e :: mid).length = 2 ∨
      (pre ++ e :: mid).length = 3 := by omega
  all_goals
    rw [hn]
    simp [calmly, isBound, isPrepared]

/-- A portal is bound, a second Bind of it fails, and the Execute behind it commits the INSERT it was bound
to before. -/
theorem stale_portal_executed : ∃ ms : List Sent, (∀ m ∈ ms, m.1.isExtended = true) ∧
    ¬ Recovers demoFrontend (Sys.new demoStore) (.new demoClient) ms ∧
    ((database (proceed demoFrontend (Sys.new demoStore) (.new demoClient) ms).1).lookup
      (rowKey (str "n") mainBranch (str "t") (str "INSERT A"))).isSome = true := by
  refine ⟨calmly [.parse [] (str "INSERT A"), .bind [] [] [], .bind [] (str "s") [], .execute []], by decide, ?_, ?_⟩
  · intro h
    have hnone := h (calmly [.parse [] (str "INSERT A"), .bind [] [] []]) (.bind [] (str "s") [], calm) []
      (.execute [], calm) [] rfl ⟨rfl, rfl, nofun⟩
    cases hnone
  · decide +kernel

end BasuyuDb.Wire
