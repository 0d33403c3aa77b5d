import BasuyuDb.Lib.OrderCode
import BasuyuDb.Storage.Store

/-
  engine/internal/transactions/merge_iter.go: a transaction's own buffered writes merged
  into the scan of its snapshot. `scan_merged`: a complete forward iteration yields the
  entries, under the prefix and in key order, of the snapshot with the buffer applied. The
  reverse iterator of engine.go and store.go has the snapshot only (`reverse_scan_iff`).
-/

namespace BasuyuDb.Transactions
open KvLib Storage List

variable {V : Type}

abbrev Mut (V : Type) := Mutation Bytes V

variable (base : BadgerIterator V) (muts : List (Mut V)) (pre : Bytes)

/-- The buffered mutations under the prefix, the last one per key. -/
def latestForPrefix : OrdMap Bytes (Mut V) :=
  muts.foldl (fun latest m => if pre.isPrefixOf m.key then latest.set m.key (some m) else latest)
    OrdMap.empty

/-- `bufferedForPrefix`: those mutations in ascending key order. -/
def bufferedForPrefix : List (Mut V) := (latestForPrefix muts pre).entries.map Prod.snd

/-- `mergedIterator`; `pending` is `buf[bi:]` and `cur` is (curKey, curVal) when `valid`. -/
structure MergedIterator (V : Type) where
  store : BadgerIterator V
  buf : List (Mut V)
  pending : List (Mut V)
  cur : Option (Bytes × V)

namespace MergedIterator

/-- The loop of `produce`, one pass per buffered mutation. -/
def produceFrom (buf : List (Mut V)) : List (Mut V) → BadgerIterator V → MergedIterator V
  | [], store =>
    match store.item with
    | none => ⟨store, buf, [], none⟩
    | some e => ⟨store.next, buf, [], some e⟩
  | b :: pending, store =>
    match store.item with
    | none =>
      if b.delete then produceFrom buf pending store
      else ⟨store, buf, pending, some (b.key, b.value)⟩
    | some e =>
      if b.key ≤ e.1 then
        -- the snapshot at the same key is overridden by the buffered write
        if b.delete then produceFrom buf pending (if b.key = e.1 then store.next else store)
        else ⟨if b.key = e.1 then store.next else store, buf, pending, some (b.key, b.value)⟩
      else ⟨store.next, buf, b :: pending, some e⟩

variable (it : MergedIterator V)

def produce : MergedIterator V := produceFrom it.buf it.pending it.store

def rewind : MergedIterator V := produce { it with store := it.store.rewind, pending := it.buf }

def next (it : MergedIterator V) : MergedIterator V := it.produce

/-- The loop of a caller: while valid, take the entry and call `next`. -/
def collect : Nat → MergedIterator V → List (Bytes × V)
  | 0, _ => []
  | n + 1, it =>
    match it.cur with
    | none => []
    | some e => e :: collect n it.next

/-- What the iterator still has to merge. -/
def todo : List (Bytes × V) := overlayL it.store.remaining it.pending

/-- Both inputs of the merge are in strictly ascending key order. -/
structure Sorted (it : MergedIterator V) : Prop where
  store : Ascending it.store.remaining
  pending : it.pending.Pairwise fun a b => a.key < b.key

/-- The state after `produce` for an iterator that still had `l` to merge. -/
def Produced (l : List (Bytes × V)) : Prop :=
  match it.cur with
  | none => l = []
  | some e => l = e :: it.todo ∧ it.Sorted

theorem ascending_next {store : BadgerIterator V} {e : Bytes × V} (hi : store.item = some e)
    (hs : Ascending store.remaining) : Ascending store.next.remaining ∧ ∀ x ∈ store.next.remaining, e.1 < x.1 := by
  rw [BadgerIterator.remaining_next hi] at hs
  obtain ⟨h1, h2⟩ := pairwise_cons.mp hs
  exact ⟨h2, h1⟩

theorem produceFrom_spec (buf pending : List (Mut V)) (store : BadgerIterator V)
    (hs : Ascending store.remaining) (hp : pending.Pairwise fun a b => a.key < b.key) :
    (produceFrom buf pending store).Produced (overlayL store.remaining pending) := by
  induction pending generalizing store with
  | nil =>
    unfold produceFrom
    cases hi : store.item with
    | none =>
      rw [BadgerIterator.item_eq_head] at hi
      exact head?_eq_none_iff.mp hi
    | some e =>
      exact ⟨BadgerIterator.remaining_next hi, (ascending_next hi hs).1, hp⟩
  | cons b pending ih =>
    obtain ⟨hb, hp'⟩ := pairwise_cons.mp hp
    -- a buffered set at the front of the merge is the next entry
    have hfront : ∀ l, b.delete = false →
        overlayL (consOpt b.key b.effect l) pending = (b.key, b.value) :: overlayL l pending := by
      intro l hd
      have : b.effect = some b.value := by unfold Mutation.effect; rw [hd]; rfl
      rw [this]
      exact overlayL_cons_of_lt hb
    have hskip : ∀ l : List (Bytes × V), b.delete = true → consOpt b.key b.effect l = l := by
      intro l hd
      have : b.effect = none := by unfold Mutation.effect; rw [hd]; rfl
      rw [this]
      rfl
    unfold produceFrom
    cases hi : store.item with
    | none =>
      have hr : store.remaining = [] := by
        rw [BadgerIterator.item_eq_head] at hi
        exact head?_eq_none_iff.mp hi
      have hl : overlayL store.remaining (b :: pending) =
          overlayL (consOpt b.key b.effect []) pending := by rw [hr]; rfl
      rw [hl]
      cases hd : b.delete with
      | true =>
        rw [hskip _ hd, ← hr]
        exact ih store hs hp'
      | false =>
        rw [hfront _ hd]
        exact ⟨by rw [← hr]; rfl, hs, hp'⟩
    | some e =>
      have hr := BadgerIterator.remaining_next hi
      obtain ⟨hs', he⟩ := ascending_next hi hs
      by_cases hle : b.key ≤ e.1
      · -- the buffered key comes first; an equal store key is passed with it
        have hl : overlayL store.remaining (b :: pending) = overlayL (consOpt b.key b.effect
            (if b.key = e.1 then store.next else store).remaining) pending := by
          have : setL store.remaining b.key b.effect = consOpt b.key b.effect
              (if b.key = e.1 then store.next else store).remaining := by
            rw [hr, setL]
            by_cases heq : b.key = e.1
            · rw [if_neg (by rw [heq]; exact lt_irrefl _), if_pos heq, if_pos heq]
            · rw [if_pos (lt_of_le_of_ne hle heq), if_neg heq, hr]
          rw [← this]
          rfl
        have hs2 : Ascending (if b.key = e.1 then store.next else store).remaining := by
          split
          · exact hs'
          · exact hs
        rw [hl]
        simp only [if_pos hle]
        cases hd : b.delete with
        | true =>
          rw [hskip _ hd]
          exact ih _ hs2 hp'
        | false =>
          rw [hfront _ hd]
          exact ⟨rfl, hs2, hp'⟩
      · simp only [if_neg hle]
        have hall : ∀ x ∈ b :: pending, e.1 < x.key := by
          intro x hx
          rcases mem_cons.mp hx with rfl | hx
          · exact not_le.mp hle
          · exact lt_trans (not_le.mp hle) (hb x hx)
        rw [hr, overlayL_cons_of_lt hall]
        exact ⟨rfl, hs', hp⟩

theorem collect_produce (n : Nat) (it : MergedIterator V) (h : it.Sorted)
    (hn : it.todo.length ≤ n) : collect n it.produce = it.todo := by
  induction n generalizing it with
  | zero => exact (length_eq_zero_iff.mp (Nat.le_zero.mp hn)).symm
  | succ n ih =>
    have hspec : it.produce.Produced it.todo := produceFrom_spec it.buf it.pending it.store h.1 h.2
    unfold Produced at hspec
    unfold collect
    cases hc : it.produce.cur with
    | none =>
      rw [hc] at hspec
      exact hspec.symm
    | some e =>
      rw [hc] at hspec
      obtain ⟨h1, h2⟩ := hspec
      have hlen : it.produce.todo.length ≤ n := by
        rw [h1, length_cons] at hn
        omega
      rw [h1]
      exact congrArg (e :: ·) (ih it.produce h2 hlen)

end MergedIterator

/-! ## The buffer under a prefix -/

theorem lookup_latestForPrefix (pre k : Bytes) : (latestForPrefix muts pre).lookup k =
      if pre.isPrefixOf k then lastMutation muts k else none := by
  induction muts using List.reverseRecOn with
  | nil => simp [latestForPrefix, lastMutation]
  | append_singleton muts m ih =>
    have hstep : latestForPrefix (muts ++ [m]) pre =
        if pre.isPrefixOf m.key then (latestForPrefix muts pre).set m.key (some m)
        else latestForPrefix muts pre := by
      unfold latestForPrefix
      rw [foldl_append]
      rfl
    rw [hstep, lastMutation_concat]
    by_cases hk : m.key = k
    · subst hk
      by_cases hp : pre.isPrefixOf m.key = true
      · simp [hp]
      · simp [hp, ih]
    · have hk' : k ≠ m.key := fun h => hk h.symm
      rw [if_neg hk, ← ih]
      split
      · exact OrdMap.lookup_set_ne _ _ hk'
      · rfl

theorem key_of_latestForPrefix {muts : List (Mut V)} {pre k : Bytes} {m : Mut V}
    (h : (k, m) ∈ (latestForPrefix muts pre).entries) : m.key = k := by
  have hl := (OrdMap.lookup_eq_some _ _ _).mpr h
  rw [lookup_latestForPrefix] at hl
  split at hl
  · exact lastMutation_key hl
  · cases hl

theorem bufferedForPrefix_sorted : (bufferedForPrefix muts pre).Pairwise (fun a b => a.key < b.key) := by
  unfold bufferedForPrefix
  rw [pairwise_map]
  refine List.Pairwise.imp_of_mem ?_ (latestForPrefix muts pre).asc
  rintro ⟨k, a⟩ ⟨k', b⟩ ha hb hlt
  rw [key_of_latestForPrefix ha, key_of_latestForPrefix hb]
  exact hlt

theorem mem_bufferedForPrefix {muts : List (Mut V)} {pre : Bytes} {m : Mut V} :
    m ∈ bufferedForPrefix muts pre ↔ (latestForPrefix muts pre).lookup m.key = some m := by
  unfold bufferedForPrefix
  rw [mem_map]
  constructor
  · rintro ⟨⟨k, m'⟩, h, rfl⟩
    rw [key_of_latestForPrefix h]
    exact (OrdMap.lookup_eq_some _ _ _).mpr h
  · intro h
    exact ⟨(m.key, m), (OrdMap.lookup_eq_some _ _ _).mp h, rfl⟩

theorem lastEffect_bufferedForPrefix (pre k : Bytes) : lastEffect (bufferedForPrefix muts pre) k =
      if pre.isPrefixOf k then lastEffect muts k else none := by
  have hmap : (if pre.isPrefixOf k then lastEffect muts k else none) =
      ((latestForPrefix muts pre).lookup k).map Mutation.effect := by
    rw [lookup_latestForPrefix]
    split <;> rfl
  rw [hmap]
  cases hl : lastEffect (bufferedForPrefix muts pre) k with
  | none =>
    have hno := lastEffect_eq_none.mp hl
    cases hk : (latestForPrefix muts pre).lookup k with
    | none => rfl
    | some m =>
      have hkey := key_of_latestForPrefix ((OrdMap.lookup_eq_some _ _ _).mp hk)
      exact absurd hkey (hno m (mem_bufferedForPrefix.mpr (by rw [hkey]; exact hk)))
  | some e =>
    obtain ⟨m, hm, rfl, rfl⟩ := lastEffect_mem hl
    rw [mem_bufferedForPrefix.mp hm]
    rfl

/-! ## A complete forward iteration -/

/-- The loop of a caller over the plain snapshot iterator. -/
def collectStore : Nat → BadgerIterator V → List (Bytes × V)
  | 0, _ => []
  | n + 1, it =>
    match it.item with
    | none => []
    | some e => e :: collectStore n it.next

theorem collectStore_eq (n : Nat) (it : BadgerIterator V) (hn : it.remaining.length ≤ n) :
    collectStore n it = it.remaining := by
  induction n generalizing it with
  | zero => exact (length_eq_zero_iff.mp (Nat.le_zero.mp hn)).symm
  | succ n ih =>
    unfold collectStore
    cases hi : it.item with
    | none =>
      rw [BadgerIterator.item_eq_head] at hi
      exact (head?_eq_none_iff.mp hi).symm
    | some e =>
      have hr := BadgerIterator.remaining_next hi
      rw [hr, length_cons] at hn
      rw [hr]
      exact congrArg (e :: ·) (ih it.next (by omega))

/-- `for it.Rewind(); it.Valid(); it.Next()` over the iterator `NewIterator` returns: the
plain one when nothing is buffered under the prefix, else the merged one. -/
def scanAll : List (Bytes × V) :=
  let buf := bufferedForPrefix muts base.pre
  let fuel := base.items.entries.length + buf.length
  if buf.isEmpty then collectStore fuel base.rewind
  else MergedIterator.collect fuel (MergedIterator.rewind ⟨base, buf, [], none⟩)

theorem remaining_rewind (it : BadgerIterator V) :
    it.rewind.remaining = it.items.scan (fun x => it.pre.isPrefixOf x) := by
  refine (takeWhile_dropWhile_eq_filter it.items.asc (lt_irrefl it.pre)).trans ?_
  unfold OrdMap.scan
  congr 1
  funext e
  by_cases h : it.pre.isPrefixOf e.1 = true
  · simp [h, not_lt_of_isPrefixOf h]
  · simp [h]

/-- A complete forward iteration yields, in key order, the entries under the prefix of the
snapshot with the buffer applied. -/
theorem scan_merged : scanAll base muts = (overlay base.items muts).scan (fun x => base.pre.isPrefixOf x) := by
  have hrem := remaining_rewind base
  have hlen : base.rewind.remaining.length ≤ base.items.entries.length := by
    rw [hrem]
    exact length_filter_le _ _
  -- both branches yield the overlay of the sorted buffer on the snapshot's scan
  have hall : scanAll base muts = overlayL base.rewind.remaining (bufferedForPrefix muts base.pre) := by
    unfold scanAll
    dsimp only
    split
    · rename_i h
      rw [List.isEmpty_iff.mp h]
      exact collectStore_eq _ _ (Nat.le_add_right_of_le hlen)
    · have hlen2 := length_overlayL_le base.rewind.remaining (bufferedForPrefix muts base.pre)
      refine MergedIterator.collect_produce _ _ ⟨?_, bufferedForPrefix_sorted muts base.pre⟩ ?_
      · dsimp only
        rw [hrem]
        exact OrdMap.scan_asc _ _
      · exact Nat.le_trans hlen2 (Nat.add_le_add_right hlen _)
  rw [hall, hrem, ← OrdMap.entries_restrict, ← entries_overlay]
  symm
  apply OrdMap.scan_eq_of_mem (OrdMap.asc _)
  intro k v
  rw [← OrdMap.lookup_eq_some, lookup_overlay, lookup_overlay, lastEffect_bufferedForPrefix, OrdMap.lookup_restrict]
  split
  · rename_i h
    simp [h]
  · rename_i h
    simp [h]

/-! ## A complete reverse iteration -/

/-- `prefixSuccessor` from the last byte on: 0xFF is dropped, another byte is incremented. -/
def successorFromEnd : Bytes → Option Bytes
  | [] => none
  | b :: r => if b = 255 then successorFromEnd r else some ((b + 1) :: r)

def prefixSuccessor (p : Bytes) : Option Bytes := (successorFromEnd p.reverse).map List.reverse

/-- `Rewind` of a reverse iterator: to the largest key that is not above the successor of the prefix. -/
def rewindReverse (it : BadgerIterator V) : BadgerIterator V :=
  { it with rest := it.items.entries.reverse.dropWhile
              (fun e => (prefixSuccessor it.pre).any fun s => decide (s < e.1)) }

/-- The loop of a caller over the iterator `NewReverseIterator` returns: that of the snapshot. -/
def reverseScanAll : List (Bytes × V) := collectStore base.items.entries.length (rewindReverse base)

section successor
variable {q k : Bytes}

theorem prefixSuccessor_slash (q : Bytes) : prefixSuccessor (q ++ [slash]) = some (q ++ [48]) := by
  unfold prefixSuccessor
  rw [reverse_append]
  exact congrArg some (reverse_cons.trans (congrArg (· ++ [48]) (reverse_reverse q)))

theorem lt_successor (h : (q ++ [slash]).isPrefixOf k = true) : k < q ++ [48] := by
  obtain ⟨x, rfl⟩ := isPrefixOf_iff_prefix.mp h
  have hbefore : Before [slash] [(48 : Byte)] := .inl (by decide)
  simpa using (hbefore.prepend q).append_lt x []

theorem isPrefixOf_of_lt_successor (h1 : ¬k < q ++ [slash]) (h2 : k < q ++ [48]) :
    (q ++ [slash]).isPrefixOf k = true := by
  -- the keys between the prefix and its successor agree with both on `q`
  induction q generalizing k with
  | nil =>
    cases k with
    | nil => exact absurd (nil_lt_cons _ _) h1
    | cons c k =>
      have hge : ¬c < slash := fun h => h1 (cons_lt_cons_iff.mpr (.inl h))
      rcases cons_lt_cons_iff.mp h2 with hlt | ⟨-, hnil⟩
      · obtain rfl : slash = c := Fin.ext (Nat.le_antisymm (Fin.not_lt.mp hge) (Nat.le_of_lt_succ hlt))
        simp
      · exact absurd hnil (not_lt_nil k)
  | cons a q ih =>
    cases k with
    | nil => exact absurd (nil_lt_cons _ _) h1
    | cons c k =>
      rcases cons_lt_cons_iff.mp h2 with hlt | ⟨rfl, hlt⟩
      · exact absurd (cons_lt_cons_iff.mpr (.inl hlt)) h1
      · have hk := ih (fun h => h1 (cons_lt_cons_iff.mpr (.inr ⟨rfl, h⟩))) hlt
        simpa using hk

end successor

theorem reverse_scanned {q : Bytes} (hpre : base.pre = q ++ [slash]) :
    reverseScanAll base = if (base.items.lookup (q ++ [48])).isSome then []
      else (base.items.scan fun x => base.pre.isPrefixOf x).reverse := by
  have hdesc : base.items.entries.reverse.Pairwise (fun a b => b.1 < a.1) := pairwise_reverse.mpr base.items.asc
  have hrest : (rewindReverse base).rest = base.items.entries.reverse.filter (fun e => !decide (q ++ [48] < e.1)) := by
    unfold rewindReverse
    rw [hpre, prefixSuccessor_slash, ← dropWhile_eq_filter hdesc]
    · simp
    · intro a b hlt ha
      simp only [Bool.not_eq_true', decide_eq_false_iff_not, not_lt] at ha ⊢
      exact hlt.le.trans ha
  have hmem : ∀ e, e ∈ (rewindReverse base).rest ↔ e ∈ base.items.entries ∧ e.1 ≤ q ++ [48] := by
    intro e
    rw [hrest]
    simp
  have hdesc' : (rewindReverse base).rest.Pairwise (fun a b => b.1 < a.1) := by
    rw [hrest]
    exact hdesc.filter _
  have hlen : (rewindReverse base).remaining.length ≤ base.items.entries.length := by
    refine (takeWhile_sublist _).length_le.trans ?_
    rw [hrest]
    exact (length_filter_le _ _).trans_eq length_reverse
  have hself : ¬(q ++ [slash]).isPrefixOf (q ++ [48]) = true := fun h => lt_irrefl _ (lt_successor h)
  rw [reverseScanAll, collectStore_eq _ _ hlen, BadgerIterator.remaining]
  change (rewindReverse base).rest.takeWhile (fun e => base.pre.isPrefixOf e.1) = _
  rw [hpre]
  cases hlook : base.items.lookup (q ++ [48]) with
  | some v =>
    have hv := (hmem _).mpr ⟨(OrdMap.lookup_eq_some _ _ _).mp hlook, le_rfl⟩
    cases hl : (rewindReverse base).rest with
    | nil =>
      rw [hl] at hv
      cases hv
    | cons e l =>
      rw [hl] at hv hdesc'
      have hle := ((hmem e).mp (hl ▸ mem_cons_self)).2
      rcases mem_cons.mp hv with rfl | hv
      · exact takeWhile_cons_of_neg hself
      · exact absurd (rel_of_pairwise_cons hdesc' hv) hle.not_gt
  | none =>
    have hlt : ∀ e ∈ (rewindReverse base).rest, e.1 < q ++ [48] := by
      intro e he
      obtain ⟨hentry, hle⟩ := (hmem e).mp he
      refine lt_of_le_of_ne hle fun heq => ?_
      rw [← heq, (OrdMap.lookup_eq_some _ _ e.2).mpr hentry] at hlook
      cases hlook
    have hclosed := hdesc'.imp_of_mem (S := fun a b => b.1 < a.1 ∧ a.1 < q ++ [48]) fun ha _ h => ⟨h, hlt _ ha⟩
    rw [takeWhile_eq_filter hclosed, hrest, filter_filter, filter_reverse]
    · refine congrArg List.reverse (filter_congr fun e _ => ?_)
      dsimp only
      cases hp : (q ++ [slash]).isPrefixOf e.1 with
      | false => rfl
      | true => simpa using (lt_successor hp).le
    · rintro a b ⟨hba, ha⟩ hb
      exact isPrefixOf_of_lt_successor (fun h => not_lt_of_isPrefixOf hb (hba.trans h)) ha

/-- Over the entries of an index a reverse iteration is the reverse of the forward one exactly when the buffer
changes none of them, or nothing is left to see of them and the snapshot has a key that is the successor. -/
theorem reverse_scan_iff (items : OrdMap Bytes V) (muts : List (Mut V)) (ns branch table col : Bytes) :
    let base : BadgerIterator V := ⟨items, indexColumnPrefix ns branch table col, []⟩
    reverseScanAll base = (scanAll base muts).reverse ↔ (overlay items muts).scan (fun x => base.pre.isPrefixOf x) =
        if ((prefixSuccessor base.pre).bind items.lookup).isSome then [] else items.scan (fun x => base.pre.isPrefixOf x) := by
  intro base
  obtain ⟨q, hpre⟩ : ∃ q, base.pre = q ++ [slash] := ⟨_, rfl⟩
  rw [reverse_scanned base hpre, scan_merged, hpre, prefixSuccessor_slash, Option.bind_some]
  split
  · rw [eq_comm, reverse_eq_nil_iff]
  · rw [reverse_inj, eq_comm]

/-- A buffered entry is missing from the reverse iteration. -/
theorem reverse_misses_buffer :
    let base : BadgerIterator Bytes := newIterator [] 0 (indexColumnPrefix (str "n") (str "main") (str "t") (str "v"))
    let key := indexKey (str "n") (str "main") (str "t") (str "v") (str "x") (str "1")
    scanAll base [⟨key, str "1", false⟩] = [(key, str "1")] ∧ reverseScanAll base = [] := by
  decide

end BasuyuDb.Transactions
