import BasuyuDb.Lib.Text
import BasuyuDb.Wire.Bodies

/-
  engine/internal/executor/eval_ext.go (encodeRowText, srfElements), composite.go (decodeRecordText), eval.go
  (pgArrayElements) and agg.go (array_agg): records and arrays as texts. A record is read back as it was, but for one
  NULL, whose text () has no elements (`record_text_iff`). The elements of arrays are joined as they are, so that
  commas, quotes and NULLs are lost (`array_elements_iff`).
-/

namespace KvLib
open List

/-- A text between two bytes that are no spaces stays. -/
theorem trimSpace_enclosed {c d : Fin 256} (hc : ascii c = true ∧ isSpace [c] = false) (hd : ascii d = true ∧ isSpace [d] = false)
    (s : Octets) : trimSpace (c :: s ++ [d]) = c :: s ++ [d] := by
  -- the last rune is the last byte, since other runes end in bytes that are not ASCII
  obtain ⟨rs, hrs⟩ : ∃ rs, runes (s ++ [d]) = rs ++ [[d]] := by
    have hflat := flatten_runes (s ++ [d])
    rcases eq_nil_or_concat' (runes (s ++ [d])) with hnil | ⟨rs, r, hrs⟩
    · simp [hnil] at hflat
    · obtain ⟨a, t, rfl, ht⟩ := mem_runes (hrs ▸ mem_append_right rs mem_cons_self)
      rw [hrs, flatten_append, flatten_singleton] at hflat
      rcases eq_nil_or_concat' t with rfl | ⟨t, b, rfl⟩
      · exact ⟨rs, by rw [hrs, append_inj_right' hflat rfl]⟩
      · rw [← cons_append, ← append_assoc] at hflat
        obtain rfl : b = d := cons.inj (append_inj_right' hflat rfl) |>.1
        exact absurd hd.1 (by simp [runeTail_not_ascii ht b (by simp)])
  have hruns : runes (c :: s ++ [d]) = [c] :: rs ++ [[d]] := by rw [cons_append, runes_ascii hc.1, hrs]; rfl
  unfold trimSpace
  rw [hruns, cons_append, dropWhile_cons_of_neg (by simp [hc.2]), ← cons_append, rdropWhile_concat_neg _ _ _ (by simp [hd.2]), ← hruns,
    flatten_runes]

end KvLib

namespace BasuyuDb.Executor
open KvLib Storage List

def comma : Byte := 44

/-! ## Records -/

/-- `strings.ReplaceAll` of a quote by two. -/
def doubled (s : Bytes) : Bytes := s.flatMap fun b => if b = 34 then [34, 34] else [b]

def encodeElem : Datum → Bytes
  | none => []
  | some s => if s.any (· ∈ str "(),\"") || s.isEmpty then 34 :: doubled s ++ [34] else s

def encodeRowText (elems : Data) : Bytes := 40 :: [comma].intercalate (elems.map encodeElem) ++ [41]

/-- An empty element is NULL unless it was quoted. -/
def recElem (text : Bytes) (quoted : Bool) : Datum := if text = [] ∧ quoted = false then none else some text

/-- The loop of `decodeRecordText`, inside and outside of quotes, with the element read so far. -/
def recLoop (cur : Bytes) (quoted : Bool) : Bool → Bytes → Data
  | _, [] => [recElem cur quoted]
  | true, c :: rest =>
    if c = 34 then
      match rest with
      | [] => recLoop cur quoted false []
      | d :: more => if d = 34 then recLoop (cur ++ [34]) quoted true more else recLoop cur quoted false (d :: more)
    else recLoop (cur ++ [c]) quoted true rest
  | false, c :: rest =>
    if c = 34 then recLoop cur true true rest
    else if c = comma then recElem cur quoted :: recLoop [] false false rest
    else recLoop (cur ++ [c]) quoted false rest

def decodeRecordText (s : Bytes) : Option Data :=
  let s := trimSpace s
  if s.length < 2 ∨ s.head? ≠ some 40 ∨ s.getLast? ≠ some 41 then none
  else
    let body := (s.drop 1).dropLast
    some (if body = [] then [] else recLoop [] false false body)

theorem recLoop_quoted (s cur rest : Bytes) (hrest : rest.head? ≠ some 34) (q : Bool) :
    recLoop cur q true (doubled s ++ 34 :: rest) = recLoop (cur ++ s) q false rest := by
  induction s generalizing cur with
  | nil =>
    rw [append_nil]
    cases rest with
    | nil => rfl
    | cons d more => exact if_neg fun h => hrest (congrArg some h)
  | cons b s ih =>
    have hih := ih (cur ++ [b])
    rw [append_assoc] at hih
    by_cases hb : b = 34
    · subst hb
      exact hih
    · rw [← singleton_append, ← hih]
      simp only [doubled, flatMap_cons, if_neg hb, cons_append, nil_append]
      generalize flatMap _ s ++ 34 :: rest = more
      cases more <;> exact if_neg hb

theorem recLoop_raw (s cur rest : Bytes) (hs : ∀ b ∈ s, b ≠ 34 ∧ b ≠ comma) (q : Bool) :
    recLoop cur q false (s ++ rest) = recLoop (cur ++ s) q false rest := by
  induction s generalizing cur with
  | nil => rw [append_nil, nil_append]
  | cons b s ih =>
    obtain ⟨hb, hs⟩ := forall_mem_cons.mp hs
    rw [cons_append, recLoop, if_neg hb.1, if_neg hb.2, ih _ hs, append_assoc]
    rfl

/-- An element is read up to the next comma or the end. -/
theorem recLoop_elem (e : Datum) (rest : Bytes) (hrest : rest.head? ≠ some 34) : ∃ text quoted, recElem text quoted = e ∧
    recLoop [] false false (encodeElem e ++ rest) = recLoop text quoted false rest := by
  cases e with
  | none => exact ⟨[], false, rfl, rfl⟩
  | some s =>
    rw [encodeElem]
    split
    · refine ⟨s, true, if_neg (by simp), ?_⟩
      rw [cons_append, cons_append, append_assoc, recLoop, if_pos rfl]
      exact recLoop_quoted s [] rest hrest true
    · rename_i hplain
      simp only [Bool.or_eq_true, not_or, any_eq_true, not_exists, not_and, List.isEmpty_iff] at hplain
      refine ⟨s, false, if_neg fun h => hplain.2 h.1, recLoop_raw s [] rest (fun b hb => ?_) false⟩
      have hfree : b ∉ str "(),\"" := by simpa using hplain.1 b hb
      exact ⟨fun h => hfree (h ▸ by decide), fun h => hfree (h ▸ by decide)⟩

theorem recLoop_elems (elems : Data) (hne : elems ≠ []) :
    recLoop [] false false ([comma].intercalate (elems.map encodeElem)) = elems := by
  induction elems with
  | nil => exact absurd rfl hne
  | cons e elems ih =>
    cases elems with
    | nil =>
      obtain ⟨text, quoted, he, hread⟩ := recLoop_elem e [] (by simp)
      simpa [he, recLoop] using hread
    | cons f elems =>
      obtain ⟨text, quoted, he, hread⟩ := recLoop_elem e (comma :: [comma].intercalate ((f :: elems).map encodeElem)) (by simp [comma])
      rw [map_cons, map_cons, intercalate_cons_cons, append_assoc, singleton_append, ← map_cons, hread, recLoop, if_neg (by decide),
        if_pos rfl, he, ih (cons_ne_nil _ _)]

theorem decodeRecordText_encode (elems : Data) : decodeRecordText (encodeRowText elems) =
    some (if [comma].intercalate (elems.map encodeElem) = [] then [] else
      recLoop [] false false ([comma].intercalate (elems.map encodeElem))) := by
  unfold decodeRecordText encodeRowText
  have hlast : ∀ l : Bytes, (40 :: (l ++ [41])).getLast? = some 41 := fun l => getLast?_concat (l := 40 :: l)
  rw [trimSpace_enclosed (by decide) (by decide)]
  simp [hlast]

/-- A record of at least one element is read back as it was if and only if it is not a single NULL. -/
theorem record_text_iff (elems : Data) (hne : elems ≠ []) :
    decodeRecordText (encodeRowText elems) = some elems ↔ elems ≠ [none] := by
  rw [decodeRecordText_encode]
  constructor
  · rintro h rfl
    cases h
  · intro hnull
    rw [recLoop_elems elems hne, if_neg]
    intro hbody
    have hread := recLoop_elems elems hne
    rw [hbody] at hread
    exact hnull hread.symm

/-- (1,"a,""b",) -/
theorem record_text_three : decodeRecordText (encodeRowText [some (str "1"), some (str "a,\"b"), none]) =
    some [some (str "1"), some (str "a,\"b"), none] := (record_text_iff _ (by simp)).mpr (by simp)

/-- () -/
theorem record_text_null : decodeRecordText (encodeRowText [none]) = some [] := by decide +kernel

/-! ## Arrays -/

/-- `strings.Trim` of quotes. -/
def trimQuotes (s : Bytes) : Bytes := (s.dropWhile (· = 34)).rdropWhile (· = 34)

/-- The loop of `pgArrayElements`, with the element read so far. -/
def arrayLoop (cur : Bytes) (inQuote : Bool) : Bytes → List Bytes
  | [] => [trimQuotes cur]
  | c :: rest =>
    if c = 34 then arrayLoop cur (!inQuote) rest
    else if c = comma ∧ inQuote = false then trimQuotes cur :: arrayLoop [] inQuote rest
    else arrayLoop (cur ++ [c]) inQuote rest

def pgArrayElements (s : Bytes) : List Bytes :=
  let s := trimSpace s
  let s := if 2 ≤ s.length ∧ s.head? = some 123 ∧ s.getLast? = some 125 then (s.drop 1).dropLast else s
  if s = [] then [] else arrayLoop [] false s

/-- unnest of one argument. -/
def unnest (v : Datum) : Data := (v.toList.flatMap pgArrayElements).map some

def arrayText (elems : List Bytes) : Bytes := str "\x7b" ++ [44].intercalate elems ++ str "\x7d"

/-- ARRAY[...] of the values of its elements. -/
def arrayConstructor (vs : Data) : Bytes := if vs = [] then str "\x7b\x7d" else arrayText (vs.map (·.getD (str "NULL")))

/-- `array_agg` of the values of a group. -/
def arrayAgg (vs : Data) : Datum := if vs.filterMap id = [] then none else some (arrayText (vs.filterMap id))

/-- The binary form of an array of one dimension. -/
def binaryArray (flags oid lower : Nat) (vs : Data) : Bytes :=
  putUint32 1 ++ (putUint32 flags ++ (putUint32 oid ++ (putUint32 vs.length ++ (putUint32 lower ++
    vs.flatMap fun v => v.elim (putUint32 (2 ^ 32 - 1)) fun e => putUint32 e.length ++ e))))

/-- No commas and no quotes. -/
abbrev Bare (e : Bytes) : Prop := comma ∉ e ∧ 34 ∉ e

theorem trimQuotes_bare {s : Bytes} (h : 34 ∉ s) : trimQuotes s = s := by
  have hne : ∀ b ∈ s, ¬ b = 34 := fun b hb heq => h (heq ▸ hb)
  rw [trimQuotes, dropWhile_eq_self_iff.mpr, rdropWhile_eq_self_iff.mpr]
  · simpa using fun hs => hne _ (getLast_mem hs)
  · simpa using fun hs => hne _ (getElem_mem hs)

/-- Quotes are dropped; outside of them commas are too. -/
theorem arrayLoop_bare (cur : Bytes) (q : Bool) (s : Bytes) (hcur : 34 ∉ cur) : ∀ e ∈ arrayLoop cur q s,
    34 ∉ e ∧ (34 ∉ s → comma ∉ cur → q = false → comma ∉ e) := by
  induction s generalizing cur q with
  | nil =>
    intro e he
    rw [arrayLoop, mem_singleton, trimQuotes_bare hcur] at he
    exact ⟨he ▸ hcur, fun _ h _ => he ▸ h⟩
  | cons c s ih =>
    intro e he
    rw [arrayLoop] at he
    split_ifs at he with hc hcomma
    · exact ⟨(ih _ _ hcur e he).1, fun h => absurd (hc ▸ mem_cons_self) h⟩
    · rw [trimQuotes_bare hcur] at he
      rcases mem_cons.mp he with rfl | he
      · exact ⟨hcur, fun _ h _ => h⟩
      · exact ⟨(ih _ _ not_mem_nil e he).1, fun h _ => (ih _ _ not_mem_nil e he).2 (not_mem_of_not_mem_cons h) not_mem_nil⟩
    · have hnew := ih (cur ++ [c]) q (by simp [hcur, Ne.symm hc]) e he
      refine ⟨hnew.1, fun h hcur' hq => hnew.2 (not_mem_of_not_mem_cons h) ?_ hq⟩
      simpa [hcur'] using fun h => hcomma ⟨h.symm, hq⟩

theorem arrayLoop_read (e rest cur : Bytes) (he : Bare e) : arrayLoop cur false (e ++ rest) = arrayLoop (cur ++ e) false rest := by
  induction e generalizing cur with
  | nil => rw [append_nil, nil_append]
  | cons c e ih =>
    obtain ⟨hcomma, hquote⟩ := he
    rw [mem_cons, not_or] at hcomma hquote
    rw [cons_append, arrayLoop, if_neg (Ne.symm hquote.1), if_neg fun h => hcomma.1 h.1.symm, ih _ ⟨hcomma.2, hquote.2⟩, append_assoc]
    rfl

theorem arrayLoop_elems {es : List Bytes} (h : ∀ e ∈ es, Bare e) (hne : es ≠ []) : arrayLoop [] false ([44].intercalate es) = es := by
  induction es with
  | nil => exact absurd rfl hne
  | cons e es ih =>
    obtain ⟨he, hes⟩ := forall_mem_cons.mp h
    cases es with
    | nil =>
      have hread := arrayLoop_read e [] [] he
      rw [append_nil] at hread
      simp [hread, arrayLoop, trimQuotes_bare he.2]
    | cons f es =>
      rw [intercalate_cons_cons, append_assoc, arrayLoop_read _ _ _ he, singleton_append, arrayLoop, if_neg (by decide),
        if_pos ⟨rfl, rfl⟩, nil_append, trimQuotes_bare he.2, ih hes (cons_ne_nil _ _)]

theorem of_mem_intercalate {es : List Bytes} {x b : Byte} (hb : b ∈ [x].intercalate es) : b = x ∨ ∃ e ∈ es, b ∈ e := by
  induction es with
  | nil => cases hb
  | cons e es ih =>
    cases es with
    | nil => exact .inr ⟨e, mem_cons_self, by simpa using hb⟩
    | cons f es =>
      rw [intercalate_cons_cons, append_assoc, mem_append, singleton_append, mem_cons] at hb
      rcases hb with hb | rfl | hb
      · exact .inr ⟨e, mem_cons_self, hb⟩
      · exact .inl rfl
      · exact (ih hb).imp id fun ⟨g, hg, hb⟩ => ⟨g, .tail _ hg, hb⟩

/-- The elements of a joined text are read back if and only if they are bare and not one empty text. -/
theorem arrayElements_iff (es : List Bytes) : pgArrayElements (arrayText es) = es ↔ (∀ e ∈ es, Bare e) ∧ es ≠ [[]] := by
  have hread : pgArrayElements (arrayText es) =
      if [44].intercalate es = [] then [] else arrayLoop [] false ([44].intercalate es) := by
    have htrim : trimSpace (arrayText es) = 123 :: [44].intercalate es ++ [125] := trimSpace_enclosed (by decide) (by decide) _
    have hlast : ∀ l : Bytes, (123 :: (l ++ [125])).getLast? = some 125 := fun l => getLast?_concat (l := 123 :: l)
    unfold pgArrayElements
    rw [htrim]
    simp [hlast]
  rw [hread]
  split_ifs with hnil
  · refine ⟨fun h => ?_, fun h => ?_⟩
    · simp [← h]
    · by_contra hne
      have helems := arrayLoop_elems h.1 (Ne.symm hne)
      rw [hnil] at helems
      exact h.2 helems.symm
  · refine ⟨fun h => ⟨fun e he => ?_, ?_⟩, fun h => arrayLoop_elems h.1 (by rintro rfl; exact hnil rfl)⟩
    · have hbare := fun e he => arrayLoop_bare [] false ([44].intercalate es) not_mem_nil e (h.symm ▸ he)
      refine ⟨(hbare e he).2 (fun hmem => ?_) not_mem_nil rfl, (hbare e he).1⟩
      obtain hsep | ⟨f, hf, hmem⟩ := of_mem_intercalate hmem
      · cases hsep
      · exact (hbare f hf).1 hmem
    · rintro rfl
      exact hnil rfl

/-- The elements that arrays keep: bare texts, but not a single empty one. -/
def KeptElements (vs : Data) : Prop := (∀ v ∈ vs, ∃ e, v = some e ∧ Bare e) ∧ vs ≠ [some []]

theorem unnest_iff (vs : Data) : unnest (some (arrayText (vs.map (·.getD (str "NULL"))))) = vs ↔ KeptElements vs := by
  have hunnest : ∀ t, unnest (some t) = (pgArrayElements t).map some := fun t => by simp [unnest]
  have hmap : ∀ es : List Bytes, (es.map some).map (·.getD (str "NULL")) = es := fun es => by simp
  have hiff : ∀ es : List Bytes, KeptElements (es.map some) ↔ (∀ e ∈ es, Bare e) ∧ es ≠ [[]] := by
    intro es
    simp [KeptElements]
  rw [hunnest]
  constructor
  · intro h
    rw [← h, hiff]
    rw [← h, hmap] at h
    exact (arrayElements_iff _).mp (map_injective_iff.mpr (Option.some_injective _) h)
  · intro h
    obtain ⟨es, rfl⟩ : vs ∈ Set.range (List.map some) := by
      rw [Set.range_list_map]
      exact fun v hv => (h.1 v hv).imp fun e he => he.1.symm
    rw [hmap, (arrayElements_iff es).mpr ((hiff es).mp h)]

theorem readElems_array {raw : Bytes} {vs : Data} {pos : Nat} (hraw : raw.drop pos = vs.flatMap fun v =>
      v.elim (putUint32 (2 ^ 32 - 1)) fun e => putUint32 e.length ++ e) (hlen : ∀ e, some e ∈ vs → e.length < 2 ^ 31) :
    Wire.Body.readElems raw vs.length pos = .ok (vs.map (·.getD (str "NULL"))) := by
  induction vs generalizing pos with
  | nil => rfl
  | cons v vs ih =>
    rw [flatMap_cons] at hraw
    have hlens := fun e he => hlen e (.tail _ he)
    have hat : ∀ {n rest}, raw.drop pos = putUint32 n ++ rest → ¬ pos + 4 > raw.length := by
      intro n rest h
      have := le_of_append (lt_of_drop_cons h).le h
      exact Nat.not_lt.mpr this
    cases v with
    | none =>
      rw [length_cons, Wire.Body.readElems, if_neg (hat hraw), uint32At_putUint32 (by decide) hraw]
      exact Checked.bind_ok.mpr ⟨_, rfl, Checked.bind_ok.mpr ⟨_, ih (drop_of_append hraw) hlens, rfl⟩⟩
    | some e =>
      have he := hlen e mem_cons_self
      rw [Option.elim_some, append_assoc] at hraw
      have hafter := drop_of_append hraw
      have hbound := le_of_append (Nat.not_lt.mp (hat hraw)) hafter
      have hint : Wire.Body.int32 e.length = e.length := if_pos he
      rw [length_cons, Wire.Body.readElems, if_neg (hat hraw), uint32At_putUint32 (by omega) hraw]
      refine Checked.bind_ok.mpr ⟨_, rfl, ?_⟩
      dsimp only
      rw [hint, if_neg (by omega), if_neg (by omega)]
      refine Checked.bind_ok.mpr ⟨e, ?_, Checked.bind_ok.mpr ⟨_, ih (drop_of_append hafter) hlens, rfl⟩⟩
      exact slice_at (Nat.not_lt.mp (hat hraw)) hafter

theorem decode_binaryArray (flags oid lower : Nat) {vs : Data} (hcount : vs.length < 2 ^ 31)
    (hlen : ∀ e, some e ∈ vs → e.length < 2 ^ 31) :
    Wire.Body.decodeBinaryTextArray (binaryArray flags oid lower vs) = .ok (arrayText (vs.map (·.getD (str "NULL")))) := by
  have hread : ∀ {n} pos {rest}, n < 2 ^ 31 → (binaryArray flags oid lower vs).drop pos = putUint32 n ++ rest →
      uint32At (binaryArray flags oid lower vs) pos = .ok n ∧ Wire.Body.int32 n = n :=
    fun _ _ hn h => ⟨uint32At_putUint32 (by omega) h, if_pos hn⟩
  have hsize : 20 ≤ (binaryArray flags oid lower vs).length := by simp [binaryArray, putUint32]
  have hone := hread (n := 1) 0 (by decide) rfl
  have hdim := hread 12 hcount rfl
  have helems := @readElems_array (binaryArray flags oid lower vs) vs 20 rfl hlen
  have hdims : Wire.Body.readDims (binaryArray flags oid lower vs) 1 12 1 = .ok (some (vs.length, 20)) := by
    rw [Wire.Body.readDims, if_neg (by omega), hdim.1]
    refine Checked.bind_ok.mpr ⟨_, rfl, ?_⟩
    dsimp only
    rw [hdim.2, one_mul, wrap64_of_inInt64 (by simp [inInt64]; omega)]
    rfl
  unfold Wire.Body.decodeBinaryTextArray
  rw [if_neg (by omega), hone.1]
  refine Checked.bind_ok.mpr ⟨1, rfl, ?_⟩
  rw [hone.2, if_neg (by decide)]
  exact Checked.bind_ok.mpr ⟨_, hdims, Checked.bind_ok.mpr ⟨_, helems, rfl⟩⟩

/-- unnest gives back the elements of ARRAY[...], of a binary array and of `array_agg` if and only if they are kept. -/
theorem array_elements_iff (vs : Data) (flags oid lower : Nat) :
    (unnest (some (arrayConstructor vs)) = vs ↔ KeptElements vs) ∧
    (vs.length < 2 ^ 31 → (∀ e, some e ∈ vs → e.length < 2 ^ 31) →
      ∃ t, Wire.Body.decodeBinaryTextArray (binaryArray flags oid lower vs) = .ok t ∧ (unnest (some t) = vs ↔ KeptElements vs)) ∧
    (none ∉ vs → (unnest (arrayAgg vs) = vs ↔ KeptElements vs)) := by
  refine ⟨?_, fun hcount hlen => ⟨_, decode_binaryArray flags oid lower hcount hlen, unnest_iff vs⟩, fun hnull => ?_⟩
  · have htext : arrayConstructor vs = arrayText (vs.map (·.getD (str "NULL"))) := by
      unfold arrayConstructor
      split_ifs with hnil
      · rw [hnil]
        rfl
      · rfl
    rw [htext]
    exact unnest_iff vs
  · obtain ⟨es, rfl⟩ : vs ∈ Set.range (List.map some) := by
      rw [Set.range_list_map]
      exact fun v hv => (Option.ne_none_iff_exists.mp fun h => hnull (h ▸ hv))
    have hes : (es.map some).filterMap id = es := by simp
    unfold arrayAgg
    rw [hes]
    split_ifs with hnil
    · subst hnil
      simp [unnest, KeptElements]
    · simpa using unnest_iff (es.map some)

/-- ARRAY['a', 'b c']. -/
theorem array_elements_two : unnest (some (arrayConstructor [some (str "a"), some (str "b c")])) = [some (str "a"), some (str "b c")] := by
  refine (array_elements_iff _ 0 0 0).1.mpr ⟨?_, by simp⟩
  simp only [mem_cons, not_mem_nil, or_false, forall_eq_or_imp, forall_eq]
  exact ⟨⟨_, rfl, by decide⟩, ⟨_, rfl, by decide⟩⟩

/-- ARRAY['a,b', NULL, '"'] has four elements. -/
theorem array_elements_split : unnest (some (arrayConstructor [some (str "a,b"), none, some (str "\"")])) =
    [some (str "a"), some (str "b"), some (str "NULL"), some []] := by
  decide +kernel

end BasuyuDb.Executor
