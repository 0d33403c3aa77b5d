import BasuyuDb.Wire.Client

/-
  The server with its connections: messages arrive in any order. `Owned`: every open transaction belongs
  to one connection. `Tracked`: the blocks of a client are what the engine has of them, kept by messages of
  others and by own messages that do not stray. Hence `block_atomic`: a block is one commit or none.
-/

namespace BasuyuDb.Wire
open KvLib Storage Transactions Executor List Option

/-! ## The server -/

/-- Every open transaction of a connection is its own. -/
structure Owned (hub : Hub) : Prop where
  idle : hub.sys.eng.phase = .idle
  bounded : ∀ cm ∈ hub.sys.hist, cm.txn < hub.sys.eng.txns.length
  live : ∀ (k : Nat) p t, hub.peers[k]? = some p → p.conn.tx = some t → Live hub.sys t
  apart : ∀ (k k' : Nat) p p' t, hub.peers[k]? = some p → hub.peers[k']? = some p' → p.conn.tx = some t →
    p'.conn.tx = some t → k = k'

theorem Hub.step_cases {f : Frontend} {hub hub' : Hub} {d : Delivery} (h : hub.step f d = some hub') :
    ∃ p, hub.peers[d.j]? = some p ∧ p.connected = true ∧ hub' = ⟨(handle f hub.sys p.conn d.o d.m).sys,
        hub.peers.set d.j (p.after f hub.sys d.m (handle f hub.sys p.conn d.o d.m))⟩ := by
  obtain ⟨p, hp, h⟩ := bind_eq_some_iff.mp h
  obtain ⟨hconn, h⟩ := ite_none_right_eq_some.mp h
  exact ⟨p, hp, hconn, (some.inj h).symm⟩

section server
variable {f : Frontend} {hub : Hub} {j : Nat} {p : Peer} {m : Message} {o : Occasion}

theorem Owned.moves (h : Owned hub) (hp : hub.peers[j]? = some p) : Moves o.io hub.sys p.conn (handle f hub.sys p.conn o m) :=
  handle_moves h.idle (fun t ht => h.live j p t hp ht) m

theorem peer_after {k : Nat} {q q' : Peer} (hp : hub.peers[j]? = some p) (hq : (hub.peers.set j q')[k]? = some q) :
    (k = j ∧ q = q') ∨ (k ≠ j ∧ hub.peers[k]? = some q) := by
  rw [getElem?_set] at hq
  by_cases hk : j = k
  · rw [if_pos hk, if_pos (List.getElem?_eq_some_iff.mp hp).1] at hq
    exact .inl ⟨hk.symm, (some.inj hq).symm⟩
  · rw [if_neg hk] at hq
    exact .inr ⟨Ne.symm hk, hq⟩

variable {io : Io} {hd : Handled} (hm : Moves io hub.sys p.conn hd)

include hm in
theorem Owned.step (h : Owned hub) (hp : hub.peers[j]? = some p) {q : Peer} (hq : q.conn = hd.conn) :
    Owned ⟨hd.sys, hub.peers.set j q⟩ := by
  obtain ⟨new, hnew, hall⟩ := hm.within.hist
  have hother : ∀ k r t, k ≠ j → hub.peers[k]? = some r → r.conn.tx = some t → p.conn.tx ≠ some t :=
    fun k r t hk hr ht heq => hk (h.apart k j r p t hr hp ht heq)
  refine ⟨hm.within.idle, ?_, ?_, ?_⟩
  · intro cm hcm
    rw [hnew] at hcm
    rcases mem_append.mp hcm with hcm | hcm
    · exact Nat.lt_of_lt_of_le (h.bounded cm hcm) hm.within.grows
    · exact (hall cm hcm).2
  · intro k r t hr ht
    rcases peer_after hp hr with ⟨-, rfl⟩ | ⟨hk, hr⟩
    · exact (hm.tx t (hq ▸ ht)).2
    · exact (h.live k r t hr ht).within hm.within (hother k r t hk hr ht)
  · -- a transaction of the sender's is its old one, which nobody else has, or a new one
    have hnew : ∀ k r t, k ≠ j → hub.peers[k]? = some r → r.conn.tx = some t → q.conn.tx ≠ some t := by
      intro k r t hk hr ht heq
      rcases (hm.tx t (hq ▸ heq)).1 with hold | hge
      · exact hother k r t hk hr ht hold
      · exact absurd (h.live k r t hr ht).lt (Nat.not_lt_of_le hge)
    intro k k' r r' t hr hr' ht ht'
    rcases peer_after hp hr with ⟨hk, hown⟩ | ⟨hk, hold⟩
    · rcases peer_after hp hr' with ⟨hk', -⟩ | ⟨hk', hold'⟩
      · rw [hk, hk']
      · exact absurd (hown ▸ ht) (hnew k' r' t hk' hold' ht')
    · rcases peer_after hp hr' with ⟨hk', hown'⟩ | ⟨hk', hold'⟩
      · exact absurd (hown' ▸ ht') (hnew k r t hk hold ht)
      · exact h.apart k k' r r' t hold hold' ht ht'

/-- No connection can commit the transaction any more. -/
structure Free (hub : Hub) (t : Nat) : Prop where
  lt : t < hub.sys.eng.txns.length
  unowned : ∀ (k : Nat) p, hub.peers[k]? = some p → p.conn.tx ≠ some t

/-- The block a connection is in. -/
structure Current (hub : Hub) (c : Conn) (t : Nat) (b : Block) : Prop where
  ended : b.ended = none
  failed : b.failed = c.txAborted
  own : t ∈ b.txns
  txns : ∀ u ∈ b.txns, (u = t ∨ Free hub u) ∧ ∀ cm ∈ hub.sys.hist, cm.txn ≠ u
  writes : ∃ T, hub.sys.eng.txns[t]? = some T ∧ (c.txAborted = false → T.mutations = b.writes)

/-- The blocks of a client are what the server makes of them. -/
structure Tracked (hub : Hub) (p : Peer) : Prop where
  past : ∀ b ∈ p.blocks, b.ended ≠ none → Whole hub.sys.hist b ∧ ∀ t ∈ b.txns, Free hub t
  now : (p.conn.tx = none ∧ ∀ b ∈ p.blocks, b.ended ≠ none) ∨ ∃ t b rest, p.conn.tx = some t ∧ p.blocks = b :: rest ∧
    (∀ b' ∈ rest, b'.ended ≠ none) ∧ Current hub p.conn t b

theorem filter_none {hist : List (Commit Val)} {txns : List Nat} (h : ∀ cm ∈ hist, cm.txn ∉ txns) :
    hist.filter (fun cm => cm.txn ∈ txns) = [] :=
  filter_eq_nil_iff.mpr fun cm hcm hmem => h cm hcm (of_decide_eq_true hmem)

variable {q : Peer} {t : Nat} {b : Block}

section moved
include hm

theorem Free.step (hp : hub.peers[j]? = some p) (hq : q.conn = hd.conn) (h : Free hub t) :
    Free ⟨hd.sys, hub.peers.set j q⟩ t := by
  refine ⟨Nat.lt_of_lt_of_le h.lt hm.within.grows, ?_⟩
  intro k r hr ht
  rcases peer_after hp hr with ⟨-, rfl⟩ | ⟨-, hr⟩
  · rcases (hm.tx t (hq ▸ ht)).1 with hold | hge
    · exact h.unowned j p hp hold
    · exact absurd h.lt (Nat.not_lt_of_le hge)
  · exact h.unowned k r hr ht

theorem Moves.hist_new :
    ∃ new, hd.sys.hist = hub.sys.hist ++ new ∧
      ∀ t, t < hub.sys.eng.txns.length → p.conn.tx ≠ some t → ∀ cm ∈ new, cm.txn ≠ t := by
  obtain ⟨new, hnew, hall⟩ := hm.within.hist
  refine ⟨new, hnew, ?_⟩
  rintro t hlt hne cm hcm rfl
  rcases (hall cm hcm).1 with heq | hge
  · exact hne heq
  · exact absurd hlt (Nat.not_lt_of_le hge)

theorem whole_step (hp : hub.peers[j]? = some p) (hfree : ∀ t ∈ b.txns, Free hub t)
    (h : Whole hub.sys.hist b) : Whole hd.sys.hist b := by
  obtain ⟨new, hnew, hall⟩ := hm.hist_new
  have hnone : new.filter (fun cm => cm.txn ∈ b.txns) = [] := by
    refine filter_none fun cm hcm hmem => ?_
    exact hall cm.txn (hfree _ hmem).lt ((hfree _ hmem).unowned j p hp) cm hcm rfl
  unfold Whole at h ⊢
  rw [hnew, filter_append, hnone, append_nil]
  exact h

theorem Tracked.past_step (hp : hub.peers[j]? = some p) (hq : q.conn = hd.conn) {r : Peer} (h : Tracked hub r) :
    ∀ b ∈ r.blocks, b.ended ≠ none → Whole hd.sys.hist b ∧
      ∀ t ∈ b.txns, Free ⟨hd.sys, hub.peers.set j q⟩ t := by
  intro b hb hend
  obtain ⟨hwhole, hfree⟩ := h.past b hb hend
  exact ⟨whole_step hm hp hfree hwhole, fun t ht => (hfree t ht).step hm hp hq⟩

theorem Tracked.other (hown : Owned hub) (hp : hub.peers[j]? = some p)
    (hq : q.conn = hd.conn) {k : Nat} {r : Peer} (hr : hub.peers[k]? = some r) (hk : k ≠ j)
    (h : Tracked hub r) : Tracked ⟨hd.sys, hub.peers.set j q⟩ r := by
  obtain ⟨new, hnew, hall⟩ := hm.hist_new
  refine ⟨h.past_step hm hp hq, ?_⟩
  rcases h.now with hnone | ⟨t, b, rest, htx, hblocks, hrest, hcur⟩
  · exact .inl hnone
  · have hlt : t < hub.sys.eng.txns.length := (hown.live k r t hr htx).lt
    have hother : p.conn.tx ≠ some t := fun heq => hk (hown.apart k j r p t hr hp htx heq)
    refine .inr ⟨t, b, rest, htx, hblocks, hrest, hcur.ended, hcur.failed, hcur.own, ?_, ?_⟩
    · intro u hu
      obtain ⟨hor, hhist⟩ := hcur.txns u hu
      refine ⟨hor.imp_right (Free.step hm hp hq), ?_⟩
      intro cm hcm
      change cm ∈ hd.sys.hist at hcm
      rw [hnew] at hcm
      rcases mem_append.mp hcm with hcm | hcm
      · exact hhist cm hcm
      · rcases hor with rfl | hfree
        · exact hall u hlt hother cm hcm
        · exact hall u hfree.lt (hfree.unowned j p hp) cm hcm
    · obtain ⟨T, hT, hwrites⟩ := hcur.writes
      exact ⟨T, (hm.within.old t hlt hother).trans hT, hwrites⟩

end moved

theorem mem_begunIn {s s' : Sys Val} {u : Nat} (h : u ∈ begunIn s s') :
    s.eng.txns.length ≤ u ∧ u < s'.eng.txns.length := by
  unfold begunIn at h
  rw [mem_range'_1] at h
  omega

theorem note_closed {blocks : List Block} (h : ∀ b ∈ blocks, b.ended ≠ none) (c : Conn) (m : Message) (hd : Handled)
    (begun : List Nat) :
    note f c m hd begun blocks = if opens f m then ⟨begun, [], false, none⟩ :: blocks else blocks := by
  cases blocks with
  | nil => rfl
  | cons b rest =>
    obtain ⟨txns, writes, failed, ended⟩ := b
    cases ended with
    | none => exact absurd rfl (h _ mem_cons_self)
    | some e => rfl

theorem Tracked.idle (hown : Owned hub) (hp : hub.peers[j]? = some p) (hhd : handle f hub.sys p.conn o m = hd)
    (h : Tracked hub p) (hnone : p.conn.tx = none) (hclosed : ∀ b ∈ p.blocks, b.ended ≠ none) :
    Tracked ⟨hd.sys, hub.peers.set j (p.after f hub.sys m hd)⟩
      (p.after f hub.sys m hd) := by
  have hpast := h.past_step (q := p.after f hub.sys m hd) (hhd ▸ hown.moves hp) hp rfl
  have hnote := note_closed (f := f) hclosed p.conn m hd (begunIn hub.sys hd.sys)
  cases hopens : opens f m with
  | false =>
    rw [hopens, if_neg (by decide)] at hnote
    have hblocks : (p.after f hub.sys m hd).blocks = p.blocks := hnote
    refine ⟨by rw [hblocks]; exact hpast, .inl ⟨hhd ▸ handle_idle hnone hopens, by rw [hblocks]; exact hclosed⟩⟩
  | true =>
    obtain ⟨hsys, htx, hab⟩ := handle_opens (f := f) (s := hub.sys) (o := o) hnone hopens
    rw [hhd] at hsys htx hab
    rw [hopens, if_pos rfl] at hnote
    have hbegun : begunIn hub.sys hd.sys = [hub.sys.eng.txns.length] := by
      rw [hsys]
      unfold begunIn
      rw [show (call hub.sys .begin).eng.txns.length = hub.sys.eng.txns.length + 1 from length_append,
        Nat.add_sub_cancel_left]
      rfl
    have hblocks : (p.after f hub.sys m hd).blocks =
        ⟨[hub.sys.eng.txns.length], [], false, none⟩ :: p.blocks := by
      rw [← hbegun]
      exact hnote
    refine ⟨?_, .inr ⟨hub.sys.eng.txns.length, _, p.blocks, htx, hblocks, hclosed, rfl, hab.symm,
      mem_singleton_self _, ?_, ?_⟩⟩
    · intro b hb hend
      rw [hblocks] at hb
      rcases mem_cons.mp hb with rfl | hb
      · exact absurd rfl hend
      · exact hpast b hb hend
    · intro u hu
      obtain rfl := mem_singleton.mp hu
      refine ⟨.inl rfl, ?_⟩
      intro cm hcm
      change cm ∈ hd.sys.hist at hcm
      rw [hsys] at hcm
      exact Nat.ne_of_lt (hown.bounded cm hcm)
    · refine ⟨⟨hub.sys.eng.clock, [], false⟩, ?_, fun _ => rfl⟩
      change hd.sys.eng.txns[hub.sys.eng.txns.length]? = _
      rw [hsys]
      exact getElem?_concat_length

theorem note_open (c : Conn) (m : Message) (hd : Handled) (begun : List Nat) (hb : b.ended = none)
    (rest : List Block) : note f c m hd begun (b :: rest) =
      ⟨b.txns ++ begun, b.writes ++ hd.issued, b.failed || fails hd.out m, ending f c hd.out m⟩ :: rest := by
  obtain ⟨txns, writes, failed, ended⟩ := b
  obtain rfl : ended = none := hb
  rfl

include hm in
theorem Current.txns_step (hown : Owned hub) (hp : hub.peers[j]? = some p)
    (hq : q.conn = hd.conn) (htx : p.conn.tx = some t)
    (hkeeps : q.conn.tx = some t ∨ q.conn.tx = none) (h : Current hub p.conn t b) :
    ∀ u ∈ b.txns ++ begunIn hub.sys hd.sys,
      (u = t ∨ Free ⟨hd.sys, hub.peers.set j q⟩ u) ∧ ∀ cm ∈ hub.sys.hist, cm.txn ≠ u := by
  intro u hu
  rcases mem_append.mp hu with hu | hu
  · exact ⟨(h.txns u hu).1.imp_right (Free.step hm hp hq), (h.txns u hu).2⟩
  · obtain ⟨hge, hlt⟩ := mem_begunIn hu
    refine ⟨.inr ⟨hlt, ?_⟩, ?_⟩
    · -- nobody has a transaction that the message has begun
      intro k r hr hru
      rcases peer_after hp hr with ⟨-, rfl⟩ | ⟨-, hr⟩
      · rcases hkeeps with hsame | hnone
        · cases hsame.symm.trans hru
          exact absurd (hown.live j p t hp htx).lt (Nat.not_lt_of_le hge)
        · cases hnone.symm.trans hru
      · exact absurd (hown.live k r u hr hru).lt (Nat.not_lt_of_le hge)
    · exact fun cm hcm => Nat.ne_of_lt (Nat.lt_of_lt_of_le (hown.bounded cm hcm) hge)

include hm in
theorem Free.left (hown : Owned hub) (hp : hub.peers[j]? = some p) (hq : q.conn = hd.conn)
    (htx : p.conn.tx = some t) (hnone : q.conn.tx = none) :
    Free ⟨hd.sys, hub.peers.set j q⟩ t := by
  refine ⟨Nat.lt_of_lt_of_le (hown.live j p t hp htx).lt hm.within.grows, ?_⟩
  intro k r hr ht
  rcases peer_after hp hr with ⟨-, rfl⟩ | ⟨hk, hr⟩
  · cases hnone.symm.trans ht
  · exact hk (hown.apart k j r p t hr hp ht htx)

theorem whole_of_ends {s : Sys Val} {c : Conn} {T : Txn Val} {e : Ending} {h : Handled}
    {begun : List Nat} (hends : Ends s c t T e m h) (hbefore : ∀ cm ∈ s.hist, cm.txn ∉ b.txns ++ begun)
    (hmem : t ∈ b.txns ++ begun) (hfailed : b.failed = c.txAborted) (hwrites : c.txAborted = false → T.mutations = b.writes) :
    Whole h.sys.hist ⟨b.txns ++ begun, b.writes ++ h.issued, b.failed || fails h.out m, some e⟩ := by
  unfold Whole
  rw [hends.hist, filter_append, filter_none hbefore, nil_append]
  by_cases hcommit : e = .commit ∧ c.txAborted = false
  · obtain ⟨he, hab⟩ := hcommit
    obtain ⟨hissued, hok⟩ := hends.succeeds he
    have hkeep : (commitOf s t T).filter (fun cm => cm.txn ∈ b.txns ++ begun) = commitOf s t T := by
      refine filter_eq_self.mpr fun cm hcm => ?_
      rw [commitOf_txn cm hcm]
      exact decide_eq_true hmem
    rw [if_pos ⟨he, hab⟩, hkeep, hissued, hok, hfailed, hab, append_nil, ← hwrites hab, he]
    unfold commitOf
    by_cases hempty : T.mutations = []
    · simp [hempty]
    · simp [hempty]
  · rw [if_neg hcommit, if_neg]
    · rfl
    · rintro ⟨he, hf, -⟩
      refine hcommit ⟨some.inj he, ?_⟩
      rw [← hfailed]
      exact (Bool.or_eq_false_iff.mp hf).1

theorem Tracked.inBlock (hown : Owned hub) (hp : hub.peers[j]? = some p) (hhd : handle f hub.sys p.conn o m = hd)
    (h : Tracked hub p) {rest : List Block} (htx : p.conn.tx = some t) (hblocks : p.blocks = b :: rest) (hrest : ∀ b' ∈ rest, b'.ended ≠ none)
    (hcur : Current hub p.conn t b) (hstray : strays f hub.sys p.conn o m = false) :
    Tracked ⟨hd.sys, hub.peers.set j (p.after f hub.sys m hd)⟩
      (p.after f hub.sys m hd) := by
  have hm : Moves o.io hub.sys p.conn hd := hhd ▸ hown.moves hp
  have hpast := h.past_step (q := p.after f hub.sys m hd) hm hp rfl
  have hafter : (p.after f hub.sys m hd).blocks =
      ⟨b.txns ++ begunIn hub.sys hd.sys, b.writes ++ hd.issued,
        b.failed || fails hd.out m, ending f p.conn hd.out m⟩ :: rest := by
    rw [← note_open p.conn m _ _ hcur.ended rest, ← hblocks]
    rfl
  obtain ⟨T, hT, hwrites⟩ := hcur.writes
  have hdone : T.done = false := by
    obtain ⟨T', hT', hdone⟩ := hown.live j p t hp htx
    cases hT.symm.trans hT'
    exact hdone
  obtain ⟨hgoes, hends⟩ := handle_inBlock hown.idle htx hT hdone hstray
  rw [hhd] at hgoes hends
  have hfailed := hcur.failed
  cases hend : ending f p.conn hd.out m with
  | none =>
    rw [hend] at hafter
    have hgo := hgoes hend
    have htxns := hcur.txns_step (q := p.after f hub.sys m hd) hm hown hp rfl htx (.inl hgo.tx)
    refine ⟨?_, .inr ⟨t, _, rest, hgo.tx, hafter, hrest, rfl, ?_, mem_append_left _ hcur.own, ?_, ?_⟩⟩
    · intro b' hb' hne
      rw [hafter] at hb'
      rcases mem_cons.mp hb' with rfl | hb'
      · exact absurd rfl hne
      · exact hpast b' (hblocks ▸ mem_cons_of_mem _ hb') hne
    · dsimp only
      rw [hfailed]
      exact hgo.failed.symm
    · intro u hu
      obtain ⟨hor, hhist⟩ := htxns u hu
      refine ⟨hor, ?_⟩
      intro cm hcm
      change cm ∈ hd.sys.hist at hcm
      rw [hgo.hist] at hcm
      exact hhist cm hcm
    · obtain ⟨T', hT', hmut⟩ := hgo.writes
      refine ⟨T', hT', ?_⟩
      intro hab
      have hhealthy : p.conn.txAborted = false := (Bool.or_eq_false_iff.mp (hgo.failed.symm.trans hab)).1
      rw [hmut hab, hwrites hhealthy]
  | some e =>
    rw [hend] at hafter
    have hover := hends e hend
    have hnone : (p.after f hub.sys m hd).conn.tx = none := hover.tx
    have htxns := hcur.txns_step (q := p.after f hub.sys m hd) hm hown hp rfl htx (.inr hnone)
    refine ⟨?_, .inl ⟨hnone, ?_⟩⟩
    · intro b' hb' hne
      rw [hafter] at hb'
      rcases mem_cons.mp hb' with rfl | hb'
      · refine ⟨?_, ?_⟩
        · exact whole_of_ends hover (fun cm hcm hmem => (htxns _ hmem).2 cm hcm rfl) (mem_append_left _ hcur.own)
            hfailed hwrites
        · intro u hu
          rcases (htxns u hu).1 with rfl | hfree
          · exact Free.left hm hown hp rfl htx hnone
          · exact hfree
      · exact hpast b' (hblocks ▸ mem_cons_of_mem _ hb') hne
    · intro b' hb'
      rw [hafter] at hb'
      rcases mem_cons.mp hb' with rfl | hb'
      · nofun
      · exact hrest b' hb'

theorem Tracked.own (hown : Owned hub) (hp : hub.peers[j]? = some p) (hhd : handle f hub.sys p.conn o m = hd)
    (h : Tracked hub p) (hstray : strays f hub.sys p.conn o m = false) :
    Tracked ⟨hd.sys, hub.peers.set j (p.after f hub.sys m hd)⟩
      (p.after f hub.sys m hd) := by
  rcases h.now with ⟨hnone, hclosed⟩ | ⟨t, b, rest, htx, hblocks, hrest, hcur⟩
  · exact h.idle hown hp hhd hnone hclosed
  · exact h.inBlock hown hp hhd htx hblocks hrest hcur hstray

theorem Tracked.whole (h : Tracked hub p) : ∀ b ∈ p.blocks, Whole hub.sys.hist b := by
  intro b hb
  cases hend : b.ended with
  | some e => exact (h.past b hb (by rw [hend]; exact fun h => nomatch h)).1
  | none =>
    rcases h.now with ⟨-, hclosed⟩ | ⟨t, b', rest, htx, hblocks, hrest, hcur⟩
    · exact absurd hend (hclosed b hb)
    · rw [hblocks] at hb
      rcases mem_cons.mp hb with rfl | hb
      · unfold Whole
        rw [filter_none fun cm hcm hmem => (hcur.txns _ hmem).2 cm hcm rfl, hend, if_neg fun h => nomatch h.1]
        rfl
      · exact absurd hend (hrest b hb)

end server

section runs
variable {f : Frontend} {store : Store Val} {sessions : List ConnSession}

theorem owned_new : Owned (Hub.new store sessions) := by
  have hconn : ∀ (k : Nat) p, (Hub.new store sessions).peers[k]? = some p → p.conn.tx = none ∧ p.blocks = [] := by
    intro k p hp
    obtain ⟨sess, -, rfl⟩ := List.mem_map.mp (mem_of_getElem? hp)
    exact ⟨rfl, rfl⟩
  refine ⟨rfl, fun _ h => (nomatch h), ?_, ?_⟩
  · intro k p t hp ht
    cases (hconn k p hp).1.symm.trans ht
  · intro k k' p p' t hp _ ht
    cases (hconn k p hp).1.symm.trans ht

theorem tracked_new {j : Nat} {p : Peer} (hp : (Hub.new store sessions).peers[j]? = some p) :
    Tracked (Hub.new store sessions) p := by
  obtain ⟨sess, -, rfl⟩ := List.mem_map.mp (mem_of_getElem? hp)
  exact ⟨fun _ h => (nomatch h), .inl ⟨rfl, nofun⟩⟩

theorem engine_run (reliable : Bool) {ok : Hub → Delivery → Prop}
    (hok : ∀ hub d, ok hub d → reliable = true → d.o.io.flushFail = none) {hub : Hub}
    (h : Reach (Hub.step f) ok (Hub.new store sessions) hub) :
    Owned hub ∧ Reach Sys.step (fun _ a => reliable = true → a.isFlushFail = false) (Sys.new store) hub.sys := by
  refine h.inv (I := fun hub => Owned hub ∧
    Reach Sys.step (fun _ a => reliable = true → a.isFlushFail = false) (Sys.new store) hub.sys) ⟨owned_new, .init⟩ ?_
  rintro hub d hub' ⟨hown, hrun⟩ hd hstep
  obtain ⟨p, hp, -, rfl⟩ := Hub.step_cases hstep
  have hm : Moves d.o.io hub.sys p.conn (handle f hub.sys p.conn d.o d.m) := hown.moves hp
  refine ⟨hown.step hm hp rfl, hrun.trans ?_⟩
  exact Reach.weaken (I := fun _ => True) hm.within.run trivial (fun _ _ _ _ _ _ => trivial)
    (fun _ _ _ _ ha _ hr => ha (hok hub d hd hr))

/-- Transaction blocks are atomic: whatever the other connections do, in every run in which no message
of the client strays from its block, the commits of a block are one with all its writes if it ended with a
successful COMMIT and nothing in it failed, and none otherwise. If no flush of the store fails, every
transaction reads the commits finished before its Begin and its own buffer, and nothing else. -/
theorem block_atomic (f : Frontend) (store : Store Val) (sessions : List ConnSession) (j : Nat) (reliable : Bool) (hub : Hub)
    (h : Reach (Hub.step f) (fun hub d => keepsBlock f j hub d = true ∧ (reliable = true → d.o.io.flushFail = none))
      (Hub.new store sessions) hub) : (∀ p, hub.peers[j]? = some p → ∀ b ∈ p.blocks, Whole hub.sys.hist b) ∧
      (reliable = true → ReadsCommitted (baseOf store) hub.sys) := by
  obtain ⟨-, hrun⟩ := engine_run reliable (fun _ _ h => h.2) h
  refine ⟨?_, ?_⟩
  · have htracked : Owned hub ∧ ∀ p, hub.peers[j]? = some p → Tracked hub p := by
      refine h.inv (I := fun hub => Owned hub ∧ ∀ p, hub.peers[j]? = some p → Tracked hub p)
        ⟨owned_new, fun p hp => tracked_new hp⟩ ?_
      rintro hub d hub' ⟨hown, htr⟩ ⟨hstray, -⟩ hstep
      obtain ⟨p, hp, -, rfl⟩ := Hub.step_cases hstep
      refine ⟨hown.step (hown.moves hp) hp rfl, ?_⟩
      intro q hq
      rcases peer_after hp hq with ⟨rfl, rfl⟩ | ⟨hne, hq⟩
      · simp only [keepsBlock, hp, ne_eq, not_true_eq_false, decide_false, Bool.false_or, all_some,
          Bool.not_eq_true'] at hstray
        exact (htr p hp).own hown hp rfl hstray
      · exact (htr q hq).other (hown.moves hp) hown hp rfl hq hne
    exact fun p hp => (htracked.2 p hp).whole
  · rintro rfl
    refine readsCommitted_of_reach (reach_covers ?_)
    exact Reach.weaken (I := fun _ => True) hrun trivial (fun _ _ _ _ _ _ => trivial) fun _ _ _ _ ha _ => ha rfl

end runs

/-- Whatever the clients send and the store does, no two connections have one transaction, and each is live. -/
theorem connections_apart (f : Frontend) (store : Store Val) (sessions : List ConnSession) (hub : Hub)
    (h : Reach (Hub.step f) (fun _ _ => True) (Hub.new store sessions) hub) : Owned hub :=
  (engine_run false (fun _ _ _ h => by cases h) h).1

/-- The messages of one client, in calm moments. -/
def deliveries (j : Nat) (ms : List Message) : List Delivery := ms.map fun m => ⟨j, m, calm⟩

theorem connections_apart_begun : ∃ hub : Hub, hub.peers.map (·.conn.tx) = [some 0, some 1] ∧ Owned hub := by
  have hrun : Reach (Hub.step demoFrontend) (fun _ _ => True) (Hub.new demoStore [demoClient, demoClient]) _ :=
    reach_of_runAll (deliveries 0 [simple "BEGIN"] ++ deliveries 1 [simple "BEGIN"]) rfl
  exact ⟨_, rfl, connections_apart demoFrontend _ _ _ hrun⟩

/-- A block with a statement of each protocol, an autocommit of another client in the middle of it, and
COMMIT. -/
theorem block_atomic_mixed : ∃ hub : Hub, hub.sys.hist.length = 2 ∧ (∃ p ∈ hub.peers, ∃ b ∈ p.blocks,
      b.writes.length = 2 ∧ b.failed = false ∧ b.ended = some .commit ∧ Whole hub.sys.hist b) ∧
    ReadsCommitted (baseOf demoStore) hub.sys := by
  have hrun : (runAll (Hub.step demoFrontend) (fun hub d => keepsBlock demoFrontend 0 hub d = true ∧
        (true = true → d.o.io.flushFail = none)) (Hub.new demoStore [demoClient, demoClient])
      (deliveries 0 [simple "BEGIN", simple "INSERT A"] ++ deliveries 0 (extended "INSERT B") ++
        deliveries 1 [simple "INSERT C"] ++ deliveries 0 [simple "COMMIT"])).map (fun hub =>
          (hub.sys.hist.length, (hub.peers[0]?).map fun p => decide (∃ b ∈ p.blocks, b.writes.length = 2 ∧
            b.failed = false ∧ b.ended = some .commit))) = some (2, some true) := by decide +kernel
  obtain ⟨hub, hreach, hobs⟩ := exists_reach _ hrun
  obtain ⟨hwhole, hreads⟩ := block_atomic demoFrontend demoStore [demoClient, demoClient] 0 true hub hreach
  obtain ⟨hlen, hobs⟩ := Prod.mk.inj hobs
  obtain ⟨p, hp, hblock⟩ := map_eq_some_iff.mp hobs
  obtain ⟨b, hb, hwrites, hfailed, hended⟩ := of_decide_eq_true hblock
  exact ⟨hub, hlen, ⟨p, mem_of_getElem? hp, b, hb, hwrites, hfailed, hended, hwhole p hp b hb⟩, hreads rfl⟩

/-- The second INSERT of a block fails on the key of the first, in an Execute, and COMMIT commits the first.
The transaction of another client, begun after that, reads its row. -/
theorem failed_block_committed : ∃ hub : Hub, Reach (Hub.step demoFrontend) (fun _ d => d.o.io.flushFail = none)
      (Hub.new demoStore [demoClient, demoClient]) hub ∧
    (∃ p ∈ hub.peers, ∃ b ∈ p.blocks, b.failed = true ∧ ¬ Whole hub.sys.hist b) ∧
    ∃ T ∈ hub.sys.eng.txns, T.mutations = [] ∧
      (hub.sys.eng.get T (rowKey (str "n") mainBranch (str "t") (str "INSERT A"))).isOk = true := by
  have hrun : (runAll (Hub.step demoFrontend) (fun _ d => d.o.io.flushFail = none)
      (Hub.new demoStore [demoClient, demoClient])
      (deliveries 0 [simple "BEGIN", simple "INSERT A"] ++ deliveries 0 (extended "INSERT A") ++
        deliveries 0 [simple "COMMIT"] ++ deliveries 1 [simple "BEGIN"])).map (fun hub =>
          (decide (∃ p ∈ hub.peers, ∃ b ∈ p.blocks, b.failed = true ∧ ¬ Whole hub.sys.hist b),
            decide (∃ T ∈ hub.sys.eng.txns, T.mutations = [] ∧
              (hub.sys.eng.get T (rowKey (str "n") mainBranch (str "t") (str "INSERT A"))).isOk = true))) =
      some (true, true) := by decide +kernel
  obtain ⟨hub, hreach, hobs⟩ := exists_reach _ hrun
  obtain ⟨hblock, hread⟩ := Prod.mk.inj hobs
  exact ⟨hub, hreach, of_decide_eq_true hblock, of_decide_eq_true hread⟩

end BasuyuDb.Wire
