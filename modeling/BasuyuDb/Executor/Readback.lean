import BasuyuDb.Executor.Deparse

/-
  A reader of the texts of `deparseExpr`. Every operator is parenthesised, so a plain expression can be read back from
  its text, whatever the case of the letters (`read_text`); two plain expressions whose texts differ in case only
  differ in the case of their names and literals only (`lower_of_deparse`).
-/

namespace BasuyuDb.Executor
open KvLib BasuyuDb.Parser List Option

/-! ## A reader of the texts -/

/-- Drop a literal of lower-case letters from the front of the text, whatever the case there. -/
def skipWord (w s : Bytes) : Option Bytes := if lowerText (s.take w.length) = w then some (s.drop w.length) else none

def readNumber (s : Bytes) : Option (Expr × Bytes) :=
  match scanNumber s with
  | (.iconst val, rest) => some (.const (.int val), rest)
  | (.fconst val, rest) => some (.const (.float val), rest)
  | _ => none

/-- What `read` finds in front of the word `close`. -/
def readClosed {A : Type} (read : Bytes → Option (A × Bytes)) (close : Bytes) (make : A → Expr) (s : Bytes) :
    Option (Expr × Bytes) :=
  (read s).bind fun r => (skipWord close r.2).map fun s => (make r.1, s)

/-- Behind an operator and its blank; `expr` and `items` read the operands. -/
def readOperands (expr : Bytes → Option (Expr × Bytes)) (items : Bytes → Bytes → Option (List Expr × Bytes))
    (l : Expr) (op s : Bytes) : Option (Expr × Bytes) :=
  if lowerText op = str "is" then
    match skipWord (str "null)") s with
    | some s => some (.nullTest true l, s)
    | none => (skipWord (str "not null)") s).map (fun s => (.nullTest false l, s))
  else if lowerText op = str "in" then (skipWord (str "(") s).bind (readClosed (items (str ", ")) (str ")") (.isIn l))
  else if lowerText op = str "and" then (items (str " and ") s).map (fun r => (.boolExpr .and (l :: r.1), r.2))
  else if lowerText op = str "or" then (items (str " or ") s).map (fun r => (.boolExpr .or (l :: r.1), r.2))
  else readClosed expr (str ")") (.binary op l) s

mutual

/-- An expression at the front of the text, and what follows it. -/
def readExpr : Nat → Bytes → Option (Expr × Bytes)
  | 0, _ => none
  | _ + 1, [] => none
  | n + 1, b :: s =>
    if b = 39 then (scanQuoted 39 s).map (fun r => (.const (.string r.1), r.2))
    else if b = 40 then readParen n s
    else if isDigit b then readNumber (b :: s)
    else readName n ((b :: s).takeWhile isNamePart) ((b :: s).dropWhile isNamePart)

/-- A word that is not a number: a call, a constant, a CASE, or a column. -/
def readName : Nat → Bytes → Bytes → Option (Expr × Bytes)
  | 0, _, _ => none
  | n + 1, w, s =>
    if s.head? = some 40 then (readArgs n (s.drop 1)).map (fun r => (.call w r.1, r.2))
    else if lowerText w = str "null" then some (.const .null, s)
    else if lowerText w = str "true" then some (.const (.bool (str "true")), s)
    else if lowerText w = str "false" then some (.const (.bool (str "false")), s)
    else if lowerText w = str "case" then readCase n s
    else some (.column (w.splitOn 46), s)

/-- Behind an opening parenthesis. -/
def readParen : Nat → Bytes → Option (Expr × Bytes)
  | 0, _ => none
  | n + 1, s =>
    match skipWord (str "not ") s with
    | some s => readClosed (readExpr n) (str ")") (fun e => .boolExpr .not [e]) s
    | none =>
      match skipWord (str "-") s with
      | some s => readClosed (readExpr n) (str ")") .minus s
      | none => (readExpr n s).bind fun r => readOperator n r.1 r.2

/-- Behind the first operand in parentheses. -/
def readOperator : Nat → Expr → Bytes → Option (Expr × Bytes)
  | 0, _, _ => none
  | n + 1, l, s =>
    match skipWord (str "::") s with
    | some s =>
      (skipWord (str ")") (s.dropWhile fun b => b ≠ 41)).map fun t => (.typeCast l (s.takeWhile fun b => b ≠ 41), t)
    | none =>
      (skipWord (str " ") s).bind fun s =>
      (skipWord (str " ") (s.dropWhile fun b => b ≠ 32)).bind
        (readOperands (readExpr n) (readItems n) l (s.takeWhile fun b => b ≠ 32))

/-- One or more expressions up to a closing parenthesis. -/
def readItems : Nat → Bytes → Bytes → Option (List Expr × Bytes)
  | 0, _, _ => none
  | n + 1, sep, s =>
    (readExpr n s).bind fun r =>
    match skipWord sep r.2 with
    | some s => (readItems n sep s).map fun rs => (r.1 :: rs.1, rs.2)
    | none => (skipWord (str ")") r.2).map fun s => ([r.1], s)

def readArgs : Nat → Bytes → Option (List Expr × Bytes)
  | 0, _ => none
  | n + 1, s =>
    match skipWord (str ")") s with
    | some s => some ([], s)
    | none => readItems n (str ", ") s

def readCase : Nat → Bytes → Option (Expr × Bytes)
  | 0, _ => none
  | n + 1, s =>
    match skipWord (str " when ") s with
    | some _ => (readWhens n s).bind fun w => readElse n none w.1 w.2
    | none =>
      (skipWord (str " ") s).bind fun s =>
      (readExpr n s).bind fun a => (readWhens n a.2).bind fun w => readElse n (some a.1) w.1 w.2

def readWhens : Nat → Bytes → Option (List (Expr × Expr) × Bytes)
  | 0, _ => none
  | n + 1, s =>
    match skipWord (str " when ") s with
    | none => some ([], s)
    | some s =>
      (readExpr n s).bind fun c =>
      (skipWord (str " then ") c.2).bind fun s =>
      (readExpr n s).bind fun r =>
      (readWhens n r.2).map fun ws => ((c.1, r.1) :: ws.1, ws.2)

def readElse : Nat → Option Expr → List (Expr × Expr) → Bytes → Option (Expr × Bytes)
  | 0, _, _, _ => none
  | n + 1, arg, whens, s =>
    match skipWord (str " else ") s with
    | some s => readClosed (readExpr n) (str " end") (fun e => .caseExpr arg whens (some e)) s
    | none => (skipWord (str " end") s).map fun s => (.caseExpr arg whens none, s)

end

/-! ## Reading the texts -/

/-- What may follow an expression: nothing, a blank, a comma, a colon or a closing parenthesis. -/
def Ends (rest : Bytes) : Prop := ∀ b ∈ rest.head?, b = 32 ∨ b = 41 ∨ b = 44 ∨ b = 58

section scanning
variable {w s rest : Bytes}

theorem lowerByte_lowerByte (b : Byte) : lowerByte (lowerByte b) = lowerByte b := by
  revert b
  decide +kernel

theorem lowerText_lowerText (s : Bytes) : lowerText (lowerText s) = lowerText s := by
  simp only [lowerText, List.map_map, Function.comp_def, lowerByte_lowerByte]

theorem isNamePart_lowerByte (b : Byte) : isNamePart (lowerByte b) = isNamePart b := by
  revert b
  decide +kernel

theorem skipWord_append (hw : lowerText w = w) (rest : Bytes) : skipWord w (w ++ rest) = some rest := by
  rw [skipWord, take_left, if_pos hw, drop_left]

theorem readClosed_append {A : Type} {read : Bytes → Option (A × Bytes)} {close : Bytes} {a : A} {make : A → Expr}
    (hclose : lowerText close = close) (h : read s = some (a, close ++ rest)) :
    readClosed read close make s = some (make a, rest) := by
  rw [readClosed, h, bind_some, skipWord_append hclose, map_some]

theorem skipWord_clash (i : Nat) {b c : Byte} (hs : s[i]? = some b) (hw : w[i]? = some c) (h : lowerByte b ≠ c) :
    skipWord w s = none := by
  refine if_neg fun heq => h ?_
  have hi := (List.getElem?_eq_some_iff.mp hw).1
  have hat := congrArg (fun l => l[i]?) heq
  simp only [lowerText, getElem?_map, getElem?_take_of_lt hi, hs, hw, map_some] at hat
  exact some.inj hat

theorem span_append {p : Byte → Bool} (hw : ∀ b ∈ w, p b = true) (hrest : ∀ b ∈ rest.head?, p b = false) :
    (w ++ rest).takeWhile p = w ∧ (w ++ rest).dropWhile p = rest := by
  have hnone : rest.takeWhile p = [] ∧ rest.dropWhile p = rest := by
    cases rest with
    | nil => exact ⟨rfl, rfl⟩
    | cons b rest => simp [hrest b rfl]
  rw [takeWhile_append_of_pos hw, dropWhile_append_of_pos hw, hnone.1, hnone.2, append_nil]
  exact ⟨rfl, rfl⟩

theorem Ends.not_namePart (h : Ends rest) : ∀ b ∈ rest.head?, isNamePart b = false := by
  intro b hb
  rcases h b hb with rfl | rfl | rfl | rfl <;> decide

theorem Ends.not_digit (h : Ends rest) : ∀ b ∈ rest.head?, isDigit b = false := by
  intro b hb
  rcases h b hb with rfl | rfl | rfl | rfl <;> decide

theorem head_cons {P : Byte → Prop} {b : Byte} (h : P b) (s : Bytes) : ∀ c ∈ (b :: s).head?, P c := by
  rintro c ⟨⟩
  exact h

theorem ends_cons {b : Byte} (h : b = 32 ∨ b = 41 ∨ b = 44 ∨ b = 58) (s : Bytes) : Ends (b :: s) := head_cons h s

theorem ends_blank (s : Bytes) : Ends (str " " ++ s) := ends_cons (.inl rfl) s

theorem ends_cast (s : Bytes) : Ends (str "::" ++ s) := ends_cons (.inr (.inr (.inr rfl))) _

theorem ends_close (s : Bytes) : Ends (str ")" ++ s) := ends_cons (.inr (.inl rfl)) s

theorem scanQuoted_double (val : Bytes) (hrest : rest.head? ≠ some 39) :
    scanQuoted 39 (lowerText (doubleQuotes val) ++ 39 :: rest) = some (lowerText val, rest) := by
  have hstep : ∀ {c : Byte} {s : Bytes} (r : Bytes × Bytes), c ≠ 39 → s ≠ [] → scanQuoted 39 s = some r →
      scanQuoted 39 (c :: s) = some (c :: r.1, r.2) := by
    intro c s r hc hs hr
    cases s with
    | nil => exact absurd rfl hs
    | cons d s => rw [scanQuoted, if_neg hc, hr, map_some]
  induction val with
  | nil =>
    cases rest with
    | nil => rfl
    | cons d rest =>
      have hd : d ≠ 39 := fun h => hrest (by rw [h]; rfl)
      simp [doubleQuotes, lowerText, scanQuoted, hd]
  | cons b val ih =>
    by_cases hb : b = 39
    · subst hb
      have hq : lowerByte 39 = 39 := by decide
      simp only [doubleQuotes, if_true, lowerText, map_cons, hq, cons_append, scanQuoted]
      simp only [lowerText] at ih
      rw [ih]
      rfl
    · have hlow : lowerByte b ≠ 39 := by
        revert b
        decide +kernel
      have hlist : lowerText (doubleQuotes (b :: val)) = lowerByte b :: lowerText (doubleQuotes val) := by
        rw [doubleQuotes, if_neg hb]
        rfl
      rw [hlist, cons_append]
      exact hstep _ hlow (by simp) ih

theorem lowerText_digits (h : ∀ b ∈ s, isDigit b = true) : lowerText s = s := by
  have hbyte : ∀ b : Byte, isDigit b = true → lowerByte b = b := by decide +kernel
  exact (map_congr_left fun b hb => hbyte b (h b hb)).trans (List.map_id s)

theorem readNumber_const {c : Const} (h : isPlainConst c = true) (hrest : Ends rest)
    (hc : (∃ val, c = .int val) ∨ ∃ val, c = .float val) :
    ∃ b s, lowerText (deparseConst c) = b :: s ∧ isDigit b = true ∧
      readNumber (lowerText (deparseConst c) ++ rest) = some (.const c, rest) := by
  obtain ⟨val, rfl⟩ | ⟨val, rfl⟩ := hc
  · obtain ⟨hne, hdigits⟩ : val ≠ [] ∧ ∀ b ∈ val, isDigit b = true := by
      simpa [isPlainConst] using h
    obtain ⟨b, s, rfl⟩ := exists_cons_of_ne_nil hne
    refine ⟨b, s, lowerText_digits hdigits, hdigits b mem_cons_self, ?_⟩
    obtain ⟨htake, hdrop⟩ := span_append hdigits hrest.not_digit
    have hscan : scanNumber (b :: s ++ rest) = (.iconst (b :: s), rest) := by
      unfold scanNumber
      rw [htake, hdrop]
      cases rest with
      | nil => rfl
      | cons d rest =>
        have hd : d.val ≠ 46 := by
          rcases hrest d rfl with rfl | rfl | rfl | rfl <;> decide
        simp only [hd, if_false]
    rw [deparseConst, lowerText_digits hdigits, readNumber, hscan]
  · obtain ⟨⟨hne, hdot⟩, hdigits⟩ : (val.takeWhile isDigit ≠ [] ∧ (val.dropWhile isDigit).head? = some 46) ∧
        ∀ b ∈ (val.dropWhile isDigit).tail, isDigit b = true := by
      simpa [isPlainConst] using h
    obtain ⟨frac, hfrac⟩ : ∃ frac, val.dropWhile isDigit = 46 :: frac := by
      cases hd : val.dropWhile isDigit with
      | nil => simp [hd] at hdot
      | cons d frac =>
        rw [hd] at hdot
        cases hdot
        exact ⟨frac, rfl⟩
    rw [hfrac, tail_cons] at hdigits
    have hwhole : ∀ b ∈ val.takeWhile isDigit, isDigit b = true := fun b hb => mem_takeWhile_imp hb
    obtain ⟨b, s, hbs⟩ := exists_cons_of_ne_nil hne
    have hval : val = val.takeWhile isDigit ++ 46 :: frac := by
      rw [← hfrac, takeWhile_append_dropWhile]
    have hlow : lowerText val = val := by
      conv_lhs => rw [hval]
      conv_rhs => rw [hval]
      rw [lowerText_append, lowerText_digits hwhole]
      have hfrac' := lowerText_digits hdigits
      simp only [lowerText, map_cons] at hfrac' ⊢
      rw [hfrac']
      rfl
    refine ⟨b, s ++ 46 :: frac, ?_, hwhole b (by rw [hbs]; exact mem_cons_self), ?_⟩
    · rw [deparseConst, hlow, hval, hbs]
      rfl
    · have hsplit : val ++ rest = val.takeWhile isDigit ++ 46 :: (frac ++ rest) := by
        conv_lhs => rw [hval]
        simp
      have hdigit : ∀ b ∈ (46 :: (frac ++ rest) : Bytes).head?, isDigit b = false := head_cons (by decide) _
      obtain ⟨htake, hdrop⟩ := span_append hwhole hdigit
      obtain ⟨htake', hdrop'⟩ := span_append hdigits hrest.not_digit
      have hscan : scanNumber (val ++ rest) = (.fconst val, rest) := by
        unfold scanNumber
        rw [hsplit, htake, hdrop]
        simp only [show (46 : Byte).val = 46 from rfl, if_true, htake', hdrop']
        rw [← hval]
      rw [deparseConst, hlow, readNumber, hscan]

theorem skipWord_word {k : Bytes} (hk : ∀ b ∈ k, isNamePart b = true) (hw : ∀ b ∈ w, isNamePart b = true)
    (hs : ∀ b ∈ s.head?, isNamePart b = false) (hne : lowerText w ≠ k) : skipWord (k ++ [32]) (w ++ s) = none := by
  refine if_neg fun heq => hne ?_
  have hcut : lowerText (w ++ s) = k ++ 32 :: (lowerText (w ++ s)).drop (k ++ [32]).length := by
    conv_lhs => rw [← take_append_drop (k ++ [32]).length (lowerText (w ++ s))]
    simp only [lowerText, ← map_take] at heq ⊢
    rw [heq]
    simp
  have hparts : ∀ b ∈ lowerText w, isNamePart b = true := by
    intro b hb
    obtain ⟨a, ha, rfl⟩ := List.mem_map.mp hb
    rw [isNamePart_lowerByte]
    exact hw a ha
  have hstop : ∀ b ∈ (lowerText s).head?, isNamePart b = false := by
    intro b hb
    simp only [lowerText, head?_map] at hb
    obtain ⟨a, ha, rfl⟩ := map_eq_some_iff.mp hb
    rw [isNamePart_lowerByte]
    exact hs a ha
  have hblank : ∀ b ∈ (32 :: (lowerText (w ++ s)).drop (k ++ [32]).length : Bytes).head?, isNamePart b = false := head_cons (by decide) _
  rw [← (span_append hparts hstop).1, ← lowerText_append, hcut]
  exact (span_append hk hblank).1

end scanning

/-! ### The front of a text -/

/-- A word at the front of a text, and what follows it. -/
structure Word (w s : Bytes) : Prop where
  parts : ∀ b ∈ w, isNamePart b = true
  first : ∃ b t, w = b :: t ∧ isDigit b = false
  low : lowerText w = w
  free : w ≠ str "not" ∧ w ≠ str "when"
  stop : ∀ b ∈ s.head?, isNamePart b = false

variable {s w : Bytes} {e : Expr} {n : Nat} {name rest : Bytes} {e' : Expr}

theorem word_of_plainName (h : isPlainName name = true) (hs : ∀ b ∈ s.head?, isNamePart b = false) :
    Word (lowerText name) s := by
  obtain ⟨⟨⟨hne, hparts⟩, hfirst⟩, hfree⟩ : ((name ≠ [] ∧ ∀ b ∈ name, isNamePart b = true) ∧ name.head?.any isDigit = false) ∧
      lowerText name ∉ reservedWords := by
    simpa only [isPlainName, Bool.and_eq_true, decide_eq_true_eq, List.all_eq_true, Bool.not_eq_true',
      decide_eq_false_iff_not] using h
  have hdigit : ∀ b : Byte, isDigit b = false → isDigit (lowerByte b) = false := by decide +kernel
  refine ⟨?_, ?_, lowerText_lowerText _, ⟨?_, ?_⟩, hs⟩
  · intro b hb
    obtain ⟨a, ha, rfl⟩ := List.mem_map.mp hb
    rw [isNamePart_lowerByte]
    exact hparts a ha
  · obtain ⟨b, t, rfl⟩ := exists_cons_of_ne_nil hne
    exact ⟨lowerByte b, lowerText t, rfl, hdigit b (by simpa using hfirst)⟩
  · exact fun heq => hfree (by rw [heq]; decide)
  · exact fun heq => hfree (by rw [heq]; decide)

/-- A CASE after its WHENs. -/
def elseText (els : Option Expr) (rest : Bytes) : Bytes := textOpt (str " else ") els ++ (str " end" ++ rest)

theorem textWhens_head (whens : List (Expr × Expr)) (els : Option Expr) (rest : Bytes) :
    ∃ b t, textWhens whens ++ elseText els rest = 32 :: b :: t := by
  cases whens with
  | cons cr whens => exact ⟨119, _, by simp only [textWhens, append_assoc]; rfl⟩
  | nil =>
    cases els with
    | none => exact ⟨101, _, rfl⟩
    | some e => exact ⟨101, _, by simp only [textWhens, elseText, textOpt, append_assoc]; rfl⟩

theorem textCase_head (arg : Option Expr) (whens : List (Expr × Expr)) (els : Option Expr) (rest : Bytes) :
    ∃ t, textOpt (str " ") arg ++ (textWhens whens ++ elseText els rest) = 32 :: t := by
  cases arg with
  | none =>
    obtain ⟨b, t, ht⟩ := textWhens_head whens els rest
    exact ⟨b :: t, ht⟩
  | some e => exact ⟨_, by simp only [textOpt, append_assoc]; rfl⟩

theorem word_literal (hw : w ∈ [str "null", str "true", str "false", str "case"])
    (hstop : ∀ b ∈ s.head?, isNamePart b = false) : Word w s := by
  simp only [mem_cons, not_mem_nil, or_false] at hw
  rcases hw with rfl | rfl | rfl | rfl <;> exact ⟨by decide +kernel, ⟨_, _, rfl, by decide⟩, by decide, by decide, hstop⟩

theorem text_start (e : Expr) (h : e.isPlain = true) :
    (∃ b s, e.text = b :: s ∧ (b = 39 ∨ b = 40 ∨ isDigit b = true)) ∨ ∃ w s, e.text = w ++ s ∧ Word w s := by
  have hopen : ∀ {s : Bytes}, (∃ t, s = 40 :: t) → ∃ b t, s = b :: t ∧ (b = 39 ∨ b = 40 ∨ isDigit b = true) :=
    fun ⟨t, ht⟩ => ⟨40, t, ht, .inr (.inl rfl)⟩
  have hnone : ∀ b ∈ ([] : Bytes).head?, isNamePart b = false := fun b hb => nomatch hb
  match e with
  | .const (.string val) => exact .inl ⟨39, _, rfl, .inl rfl⟩
  | .const (.int val) =>
    obtain ⟨b, s, hs, hb, -⟩ := readNumber_const h (fun b hb => nomatch hb : Ends []) (.inl ⟨val, rfl⟩)
    exact .inl ⟨b, s, hs, .inr (.inr hb)⟩
  | .const (.float val) =>
    obtain ⟨b, s, hs, hb, -⟩ := readNumber_const h (fun b hb => nomatch hb : Ends []) (.inr ⟨val, rfl⟩)
    exact .inl ⟨b, s, hs, .inr (.inr hb)⟩
  | .const .null => exact .inr ⟨str "null", [], rfl, word_literal (by decide) hnone⟩
  | .const (.bool val) =>
    simp only [Expr.text, deparseConst]
    split
    · exact .inr ⟨str "true", [], rfl, word_literal (by decide) hnone⟩
    · exact .inr ⟨str "false", [], rfl, word_literal (by decide) hnone⟩
  | .column fields =>
    have hname : isPlainName (joinDots fields) = true := by
      simp only [Expr.isPlain, Bool.and_eq_true] at h
      exact h.2
    exact .inr ⟨_, [], (append_nil _).symm, word_of_plainName hname hnone⟩
  | .minus a | .boolExpr .not args | .boolExpr .and args | .boolExpr .or args | .nullTest true a
  | .nullTest false a => exact .inl (hopen ⟨_, rfl⟩)
  | .binary name l r | .isIn l items | .typeCast a typeName =>
    exact .inl (hopen ⟨_, by simp only [Expr.text, append_assoc]; rfl⟩)
  | .caseExpr arg whens els =>
    refine .inr ⟨str "case", _, by simp only [Expr.text, append_assoc]; rfl, word_literal (by decide) ?_⟩
    have hhead := textCase_head arg whens els []
    simp only [elseText, append_nil] at hhead
    obtain ⟨t, ht⟩ := hhead
    rw [ht]
    exact head_cons (by decide) t
  | .call name args =>
    have hname : isPlainName name = true := by
      simp only [Expr.isPlain, Bool.and_eq_true] at h
      exact h.1
    refine .inr ⟨lowerText name, _, by simp only [Expr.text, append_assoc]; rfl, word_of_plainName hname (head_cons (by decide) _)⟩
  | .param n | .setToDefault => exact absurd h Bool.false_ne_true

theorem text_skips (h : e.isPlain = true) (hrest : Ends rest) :
    skipWord (str "not ") (e.text ++ rest) = none ∧ skipWord (str "when ") (e.text ++ rest) = none ∧
    skipWord (str "-") (e.text ++ rest) = none ∧ skipWord (str ")") (e.text ++ rest) = none := by
  rcases text_start e h with ⟨b, s, hs, hb⟩ | ⟨w, s, hs, hword⟩
  · have hclash : ∀ b : Byte, (b = 39 ∨ b = 40 ∨ isDigit b = true) →
        lowerByte b ≠ 110 ∧ lowerByte b ≠ 119 ∧ lowerByte b ≠ 45 ∧ lowerByte b ≠ 41 := by decide +kernel
    obtain ⟨h1, h2, h3, h4⟩ := hclash b hb
    rw [hs]
    exact ⟨skipWord_clash 0 rfl rfl h1, skipWord_clash 0 rfl rfl h2, skipWord_clash 0 rfl rfl h3, skipWord_clash 0 rfl rfl h4⟩
  · have hstop : ∀ b ∈ (s ++ rest).head?, isNamePart b = false := by
      cases s with
      | nil => exact hrest.not_namePart
      | cons c s => exact hword.stop
    have hparts : ∀ b : Byte, isNamePart b = true → lowerByte b ≠ 45 ∧ lowerByte b ≠ 41 := by decide +kernel
    rw [hs, append_assoc]
    refine ⟨?_, ?_, ?_, ?_⟩
    · exact skipWord_word (k := str "not") (by decide +kernel) hword.parts hstop (by rw [hword.low]; exact hword.free.1)
    · exact skipWord_word (k := str "when") (by decide +kernel) hword.parts hstop (by rw [hword.low]; exact hword.free.2)
    · obtain ⟨b, t, rfl, -⟩ := hword.first
      exact skipWord_clash 0 rfl rfl (hparts b (hword.parts b mem_cons_self)).1
    · obtain ⟨b, t, rfl, -⟩ := hword.first
      exact skipWord_clash 0 rfl rfl (hparts b (hword.parts b mem_cons_self)).2

/-! ### The reader gives the expression back -/

mutual

/-- Enough steps for the reader. -/
def Expr.steps : Expr → Nat
  | .minus a => a.steps + 2
  | .binary _ l r => l.steps + r.steps + 3
  | .isIn l items => l.steps + stepsAll items + 3
  | .boolExpr _ args => stepsAll args + 3
  | .nullTest _ a => a.steps + 3
  | .caseExpr arg whens els => stepsOpt arg + stepsWhens whens + stepsOpt els + 4
  | .typeCast a _ => a.steps + 3
  | .call _ args => stepsAll args + 3
  | _ => 2

def stepsAll : List Expr → Nat
  | [] => 1
  | e :: es => e.steps + stepsAll es + 1

def stepsOpt : Option Expr → Nat
  | none => 0
  | some e => e.steps

def stepsWhens : List (Expr × Expr) → Nat
  | [] => 1
  | (cond, result) :: whens => cond.steps + result.steps + stepsWhens whens + 1

end

theorem readExpr_open (n : Nat) (s : Bytes) : readExpr (n + 1) (str "(" ++ s) = readParen n s := by
  show readExpr (n + 1) (40 :: s) = _
  rw [readExpr, if_neg (by decide), if_pos rfl]

theorem readExpr_word (h : Word w s) (n : Nat) : readExpr (n + 1) (w ++ s) = readName n w s := by
  obtain ⟨b, t, rfl, hb⟩ := h.first
  have hspan := span_append h.parts h.stop
  have hquote : ∀ b : Byte, isNamePart b = true → b ≠ 39 ∧ b ≠ 40 := by decide +kernel
  obtain ⟨h39, h40⟩ := hquote b (h.parts b mem_cons_self)
  rw [cons_append] at hspan ⊢
  rw [readExpr, if_neg h39, if_neg h40, hb, if_neg Bool.false_ne_true, hspan.1, hspan.2]

theorem readName_alone (hlow : lowerText w = w) (hrest : Ends rest)
    (hcase : w ≠ str "case") : readName (n + 1) w rest = some (if w = str "null" then .const .null
      else if w = str "true" then .const (.bool (str "true")) else if w = str "false" then .const (.bool (str "false"))
      else .column (w.splitOn 46), rest) := by
  have hparen : rest.head? ≠ some 40 := by
    intro heq
    rcases hrest 40 heq with h | h | h | h <;> cases h
  rw [readName, if_neg hparen, hlow]
  split_ifs <;> rfl

theorem splitOn_joinDots {fields : List Bytes} (hne : fields ≠ []) (h : ∀ f ∈ fields, f.all isIdentPart = true) :
    (lowerText (joinDots fields)).splitOn 46 = fields.map lowerText := by
  have hdot : ∀ b : Byte, isIdentPart b = true → lowerByte b ≠ 46 := by decide +kernel
  rw [joinDots, lowerText_intercalate]
  refine splitOn_intercalate 46 (fun l hl hmem => ?_) (by simpa using hne)
  obtain ⟨f, hf, rfl⟩ := List.mem_map.mp hl
  obtain ⟨b, hb, hb46⟩ := List.mem_map.mp hmem
  exact hdot b (List.all_eq_true.mp (h f hf) b hb) hb46

theorem op_plain (h : name.all (fun b => b ≠ 32 && !isLetter b) = true) (hne : name ≠ []) :
    lowerText name = name ∧ name ∉ [str "is", str "in", str "and", str "or"] ∧ ∀ b ∈ name, (decide (b ≠ 32)) = true := by
  have hbytes : ∀ b ∈ name, b ≠ 32 ∧ isLetter b = false := by simpa using h
  have hbyte : ∀ b : Byte, isLetter b = false → lowerByte b = b := by decide +kernel
  refine ⟨(map_congr_left fun b hb => hbyte b (hbytes b hb).2).trans (List.map_id name), ?_, ?_⟩
  · obtain ⟨b, t, rfl⟩ := exists_cons_of_ne_nil hne
    have hb := (hbytes b mem_cons_self).2
    intro hmem
    have hletter : isLetter b = true := by
      simp only [mem_cons, not_mem_nil, or_false] at hmem
      rcases hmem with h | h | h | h <;> (rw [(List.cons.inj h).1]; decide +kernel)
    exact absurd hletter (by rw [hb]; decide)
  · intro b hb
    exact decide_eq_true (hbytes b hb).1

theorem readOperator_blank {op : Bytes} (hop : ∀ b ∈ op, (decide (b ≠ 32)) = true) (l : Expr) (n : Nat) :
    readOperator (n + 1) l (str " " ++ (op ++ (str " " ++ s))) = readOperands (readExpr n) (readItems n) l op s := by
  have hcast : skipWord (str "::") (str " " ++ (op ++ (str " " ++ s))) = none := skipWord_clash 0 rfl rfl (by decide)
  have hstop : ∀ b ∈ (str " " ++ s).head?, (decide (b ≠ 32)) = false := head_cons (by decide) _
  obtain ⟨htake, hdrop⟩ := span_append hop hstop
  rw [readOperator, hcast]
  simp only [skipWord_append (by decide : lowerText (str " ") = str " "), bind_some, htake, hdrop]

theorem read_operand {a : Expr} (ha : a.isPlain = true)
    (hread : ∀ {rest}, Ends rest → readExpr (n + 1) (a.text ++ rest) = some (a.lower, rest)) (hs : Ends s) :
    readExpr (n + 3) (str "(" ++ (a.text ++ s)) = readOperator (n + 1) a.lower s := by
  obtain ⟨hnot, -, hminus, -⟩ := text_skips ha hs
  rw [readExpr_open, readParen, hnot, hminus]
  dsimp only
  rw [hread hs, bind_some]

theorem intercalate_cons₂ (sep a b : Bytes) (l : List Bytes) :
    List.intercalate sep (a :: b :: l) = a ++ (sep ++ List.intercalate sep (b :: l)) := by
  simp [List.intercalate]

theorem skipWord_blank (h : skipWord w s = none) : skipWord (32 :: w) (32 :: s) = none := by
  unfold skipWord at h ⊢
  refine if_neg fun heq => ?_
  simp only [lowerText, length_cons, take_succ_cons, map_cons, List.cons.injEq] at heq
  rw [lowerText, if_pos heq.2] at h
  cases h

theorem readName_case (hs : ∃ t, s = 32 :: t) : readName (n + 1) (str "case") s = readCase n s := by
  have hparen : s.head? ≠ some 40 := by
    obtain ⟨t, rfl⟩ := hs
    exact fun heq => absurd (some.inj heq) (by decide)
  rw [readName, if_neg hparen, if_neg (by decide), if_neg (by decide), if_neg (by decide), if_pos (by decide)]

theorem else_front (els : Option Expr) (rest : Bytes) :
    skipWord (str " when ") (elseText els rest) = none ∧ Ends (elseText els rest) := by
  cases els with
  | none => exact ⟨skipWord_clash 1 rfl rfl (by decide), ends_cons (.inl rfl) _⟩
  | some e =>
    rw [elseText, textOpt, append_assoc]
    exact ⟨skipWord_clash 1 rfl rfl (by decide), ends_cons (.inl rfl) _⟩

theorem readExpr_literal (hw : w ∈ [str "null", str "true", str "false"]) (hrest : Ends rest) :
    readExpr (n + 2) (w ++ rest) = some (if w = str "null" then .const .null
      else if w = str "true" then .const (.bool (str "true")) else .const (.bool (str "false")), rest) := by
  simp only [mem_cons, not_mem_nil, or_false] at hw
  rcases hw with rfl | rfl | rfl <;>
    exact (readExpr_word (word_literal (by decide) hrest.not_namePart) (n + 1)).trans (readName_alone (by decide) hrest (by decide))

theorem readExpr_number {c : Const} (h : isPlainConst c = true) (hrest : Ends rest)
    (hc : (∃ val, c = .int val) ∨ ∃ val, c = .float val) :
    readExpr (n + 1) (lowerText (deparseConst c) ++ rest) = some (.const c, rest) := by
  obtain ⟨b, s, hs, hb, hread⟩ := readNumber_const h hrest hc
  have hbyte : ∀ b : Byte, isDigit b = true → b ≠ 39 ∧ b ≠ 40 := by decide +kernel
  rw [hs] at hread ⊢
  rw [cons_append, readExpr, if_neg (hbyte b hb).1, if_neg (hbyte b hb).2, if_pos hb]
  exact hread

mutual

theorem read_text (e : Expr) (h : e.isPlain = true) {n : Nat} (hn : e.steps ≤ n) {rest : Bytes} (hrest : Ends rest) :
    readExpr n (e.text ++ rest) = some (e.lower, rest) := by
  match e with
  | .const (.string val) =>
    obtain ⟨n, rfl⟩ : ∃ m, n = m + 1 := ⟨n - 1, by simp only [Expr.steps] at hn; omega⟩
    have hquote : rest.head? ≠ some 39 := by
      intro heq
      rcases hrest 39 heq with h | h | h | h <;> cases h
    have htext : (Expr.const (.string val)).text ++ rest = 39 :: (lowerText (doubleQuotes val) ++ 39 :: rest) := by
      simp [Expr.text, deparseConst, lowerText]
      decide
    rw [htext, readExpr, if_pos rfl, scanQuoted_double val hquote]
    rfl
  | .const (.int val) =>
    obtain ⟨n, rfl⟩ : ∃ m, n = m + 1 := ⟨n - 1, by simp only [Expr.steps] at hn; omega⟩
    exact readExpr_number h hrest (.inl ⟨val, rfl⟩)
  | .const (.float val) =>
    obtain ⟨n, rfl⟩ : ∃ m, n = m + 1 := ⟨n - 1, by simp only [Expr.steps] at hn; omega⟩
    exact readExpr_number h hrest (.inr ⟨val, rfl⟩)
  | .const .null =>
    obtain ⟨n, rfl⟩ : ∃ m, n = m + 2 := ⟨n - 2, by simp only [Expr.steps] at hn; omega⟩
    exact readExpr_literal (by decide) hrest
  | .const (.bool val) =>
    obtain ⟨n, rfl⟩ : ∃ m, n = m + 2 := ⟨n - 2, by simp only [Expr.steps] at hn; omega⟩
    simp only [Expr.text, deparseConst, Expr.spelled, Const.spelled]
    split
    · exact readExpr_literal (by decide) hrest
    · exact readExpr_literal (by decide) hrest
  | .column fields =>
    obtain ⟨n, rfl⟩ : ∃ m, n = m + 2 := ⟨n - 2, by simp only [Expr.steps] at hn; omega⟩
    obtain ⟨hfields, hname⟩ : fields.all (fun f => f ≠ [] && f.all isIdentPart) = true ∧ isPlainName (joinDots fields) = true := by
      simpa only [Expr.isPlain, Bool.and_eq_true] using h
    have hne : fields ≠ [] := by
      rintro rfl
      cases hname
    have hparts : ∀ f ∈ fields, f.all isIdentPart = true := by
      intro f hf
      have := List.all_eq_true.mp hfields f hf
      simp only [Bool.and_eq_true] at this
      exact this.2
    have hfree : lowerText (joinDots fields) ∉ reservedWords := by
      simp only [isPlainName, Bool.and_eq_true, Bool.not_eq_true', decide_eq_false_iff_not] at hname
      exact hname.2
    simp only [reservedWords, mem_cons, not_mem_nil, or_false, not_or] at hfree
    obtain ⟨hnull, htrue, hfalse, hcase, -⟩ := hfree
    rw [Expr.text, readExpr_word (word_of_plainName hname hrest.not_namePart),
      readName_alone (lowerText_lowerText _) hrest hcase, if_neg hnull, if_neg htrue, if_neg hfalse,
      splitOn_joinDots hne hparts]
    rfl
  | .minus a =>
    simp only [Expr.steps] at hn
    obtain ⟨n, rfl⟩ : ∃ m, n = m + 2 := ⟨n - 2, by omega⟩
    have ha := read_text a (by simpa [Expr.isPlain] using h) (by omega : a.steps ≤ n)
      (ends_close rest)
    have htext : (Expr.minus a).text ++ rest = str "(" ++ (str "-" ++ (a.text ++ (str ")" ++ rest))) := by
      simp only [Expr.text, append_assoc]
      rfl
    have hnot : skipWord (str "not ") (str "-" ++ (a.text ++ (str ")" ++ rest))) = none := skipWord_clash 0 rfl rfl (by decide)
    rw [htext, readExpr_open, readParen, hnot, skipWord_append (by decide)]
    exact readClosed_append (by decide) ha
  | .binary name l r =>
    simp only [Expr.steps] at hn
    obtain ⟨n, rfl⟩ : ∃ m, n = m + 3 := ⟨n - 3, by omega⟩
    obtain ⟨⟨⟨hne, hname⟩, hl⟩, hr⟩ : ((name ≠ [] ∧ name.all (fun b => b ≠ 32 && !isLetter b) = true) ∧ l.isPlain = true) ∧
        r.isPlain = true := by
      simpa only [Expr.isPlain, Bool.and_eq_true, decide_eq_true_eq] using h
    obtain ⟨hlow, hfree, hblank⟩ := op_plain hname hne
    simp only [mem_cons, not_mem_nil, or_false, not_or] at hfree
    have hread := @read_text l hl (n + 1) (by omega)
    have hread' := read_text r hr (by omega : r.steps ≤ n) (ends_close rest)
    have htext : (Expr.binary name l r).text ++ rest =
        str "(" ++ (l.text ++ (str " " ++ (name ++ (str " " ++ (r.text ++ (str ")" ++ rest)))))) := by
      simp only [Expr.text, append_assoc, hlow]
    rw [htext, read_operand hl hread (ends_blank _), readOperator_blank hblank, readOperands, hlow,
      if_neg hfree.1, if_neg hfree.2.1, if_neg hfree.2.2.1, if_neg hfree.2.2.2, readClosed_append (by decide) hread']
    rfl
  | .isIn l items =>
    simp only [Expr.steps] at hn
    obtain ⟨n, rfl⟩ : ∃ m, n = m + 3 := ⟨n - 3, by omega⟩
    obtain ⟨⟨hl, hne⟩, hitems⟩ : (l.isPlain = true ∧ items ≠ []) ∧ allPlain items = true := by
      simpa only [Expr.isPlain, Bool.and_eq_true, decide_eq_true_eq] using h
    have hread := @read_text l hl (n + 1) (by omega)
    have hread' := readItems_text items hitems hne (.inl rfl) (by omega : stepsAll items ≤ n)
      (str ")" ++ rest)
    have htext : (Expr.isIn l items).text ++ rest = str "(" ++ (l.text ++ (str " " ++ (str "in" ++ (str " " ++ (str "(" ++
        (List.intercalate (str ", ") (textAll items) ++ (str ")" ++ (str ")" ++ rest)))))))) := by
      simp only [Expr.text, append_assoc]
      rfl
    rw [htext, read_operand hl hread (ends_blank _),
      readOperator_blank (by decide +kernel), readOperands, if_neg (by decide), if_pos (by decide),
      skipWord_append (by decide), bind_some, readClosed_append (by decide) hread']
    rfl
  | .boolExpr .not [a] =>
    simp only [Expr.steps, stepsAll] at hn
    obtain ⟨n, rfl⟩ : ∃ m, n = m + 2 := ⟨n - 2, by omega⟩
    have ha := read_text a (by simpa [Expr.isPlain, allPlain] using h)
      (by omega : a.steps ≤ n) (ends_close rest)
    have htext : (Expr.boolExpr .not [a]).text ++ rest = str "(" ++ (str "not " ++ (a.text ++ (str ")" ++ rest))) := by
      simp only [Expr.text, textAll, headD_cons, append_assoc]
      rfl
    rw [htext, readExpr_open, readParen, skipWord_append (by decide)]
    exact readClosed_append (by decide) ha
  | .boolExpr k (a :: b :: more) =>
    simp only [Expr.steps, stepsAll] at hn
    obtain ⟨n, rfl⟩ : ∃ m, n = m + 3 := ⟨n - 3, by omega⟩
    obtain ⟨op, sep, hk⟩ : ∃ op sep, (k = .and ∧ op = str "and" ∧ sep = str " and ") ∨
        (k = .or ∧ op = str "or" ∧ sep = str " or ") := by
      cases k with
      | not => cases h
      | and => exact ⟨_, _, .inl ⟨rfl, rfl, rfl⟩⟩
      | or => exact ⟨_, _, .inr ⟨rfl, rfl, rfl⟩⟩
    obtain ⟨ha, hmore⟩ : a.isPlain = true ∧ allPlain (b :: more) = true := by
      rcases hk with ⟨rfl, -⟩ | ⟨rfl, -⟩ <;> simpa [Expr.isPlain, allPlain] using h
    have hread := @read_text a ha (n + 1) (by omega)
    have hsep : sep = str ", " ∨ sep = str " and " ∨ sep = str " or " := .inr (hk.imp (·.2.2) (·.2.2))
    have hread' := readItems_text (b :: more) hmore (by simp) hsep
      (by simp only [stepsAll]; omega : stepsAll (b :: more) ≤ n) rest
    have htext : (Expr.boolExpr k (a :: b :: more)).text ++ rest = str "(" ++ (a.text ++ (str " " ++ (op ++ (str " " ++
        (List.intercalate sep (textAll (b :: more)) ++ (str ")" ++ rest)))))) := by
      rcases hk with ⟨rfl, rfl, rfl⟩ | ⟨rfl, rfl, rfl⟩ <;>
        (simp only [Expr.text, textAll, intercalate_cons₂, append_assoc]; rfl)
    rw [htext, read_operand ha hread (ends_blank _)]
    rcases hk with ⟨rfl, rfl, rfl⟩ | ⟨rfl, rfl, rfl⟩
    · rw [readOperator_blank (by decide +kernel), readOperands, if_neg (by decide), if_neg (by decide),
        if_pos (by decide), hread']
      rfl
    · rw [readOperator_blank (by decide +kernel), readOperands, if_neg (by decide), if_neg (by decide),
        if_neg (by decide), if_pos (by decide), hread']
      rfl
  | .boolExpr .not [] | .boolExpr .and [] | .boolExpr .and [_] | .boolExpr .or [] | .boolExpr .or [_] =>
    cases h
  | .nullTest null a =>
    simp only [Expr.steps] at hn
    obtain ⟨n, rfl⟩ : ∃ m, n = m + 3 := ⟨n - 3, by omega⟩
    have ha : a.isPlain = true := by simpa [Expr.isPlain] using h
    have hread := @read_text a ha (n + 1) (by omega)
    have htext : (Expr.nullTest null a).text ++ rest = str "(" ++ (a.text ++ (str " " ++ (str "is" ++ (str " " ++
        ((if null then str "null)" else str "not null)") ++ rest))))) := by
      cases null <;> (simp only [Expr.text, append_assoc]; rfl)
    rw [htext, read_operand ha hread (ends_blank _), readOperator_blank (by decide +kernel), readOperands,
      if_pos (by decide)]
    cases null with
    | true =>
      rw [if_pos rfl, skipWord_append (by decide)]
      rfl
    | false =>
      have hnull : skipWord (str "null)") (str "not null)" ++ rest) = none := skipWord_clash 1 rfl rfl (by decide)
      rw [if_neg Bool.false_ne_true, hnull, skipWord_append (by decide)]
      rfl
  | .typeCast a typeName =>
    simp only [Expr.steps] at hn
    obtain ⟨n, rfl⟩ : ∃ m, n = m + 3 := ⟨n - 3, by omega⟩
    obtain ⟨ha, hty⟩ : a.isPlain = true ∧ typeName.all (fun b => b ≠ 41) = true := by
      simpa only [Expr.isPlain, Bool.and_eq_true] using h
    have hread := @read_text a ha (n + 1) (by omega)
    have htext : (Expr.typeCast a typeName).text ++ rest =
        str "(" ++ (a.text ++ (str "::" ++ (lowerText typeName ++ (str ")" ++ rest)))) := by
      simp only [Expr.text, append_assoc]
    have hbyte : ∀ b : Byte, b ≠ 41 → lowerByte b ≠ 41 := by decide +kernel
    have hname : ∀ b ∈ lowerText typeName, (decide (b ≠ 41)) = true := by
      intro b hb
      obtain ⟨c, hc, rfl⟩ := List.mem_map.mp hb
      exact decide_eq_true (hbyte c (by simpa using List.all_eq_true.mp hty c hc))
    have hstop : ∀ b ∈ (str ")" ++ rest).head?, (decide (b ≠ 41)) = false := head_cons (by decide) _
    obtain ⟨htake, hdrop⟩ := span_append hname hstop
    rw [htext, read_operand ha hread (ends_cast _), readOperator, skipWord_append (by decide)]
    simp only [htake, hdrop, skipWord_append (by decide : lowerText (str ")") = str ")"), map_some, Expr.spelled]
  | .call name args =>
    simp only [Expr.steps] at hn
    obtain ⟨n, rfl⟩ : ∃ m, n = m + 3 := ⟨n - 3, by omega⟩
    obtain ⟨hname, hargs⟩ : isPlainName name = true ∧ allPlain args = true := by
      simpa only [Expr.isPlain, Bool.and_eq_true] using h
    have hstop : ∀ b ∈ (str "(" ++ (List.intercalate (str ", ") (textAll args) ++ (str ")" ++ rest))).head?,
        isNamePart b = false := head_cons (by decide) _
    have htext : (Expr.call name args).text ++ rest =
        lowerText name ++ (str "(" ++ (List.intercalate (str ", ") (textAll args) ++ (str ")" ++ rest))) := by
      simp only [Expr.text, append_assoc]
    have hread : readArgs (n + 1) (List.intercalate (str ", ") (textAll args) ++ (str ")" ++ rest)) = some (spelledAll lowerText args, rest) := by
      match args, hargs, hn with
      | [], _, _ => rw [readArgs, show List.intercalate (str ", ") (textAll []) = [] from rfl, nil_append,
          skipWord_append (by decide)]; rfl
      | a :: more, hargs, hn =>
        have hitems := readItems_text (a :: more) hargs (by simp) (.inl rfl)
          (by omega : stepsAll (a :: more) ≤ n) rest
        have ha : a.isPlain = true := by
          rw [allPlain, Bool.and_eq_true] at hargs
          exact hargs.1
        have hclose : skipWord (str ")") (List.intercalate (str ", ") (textAll (a :: more)) ++ (str ")" ++ rest)) = none := by
          cases more with
          | nil =>
            rw [show List.intercalate (str ", ") (textAll [a]) = a.text from append_nil _]
            exact (text_skips ha (ends_close rest)).2.2.2
          | cons b more =>
            rw [textAll, textAll, intercalate_cons₂, append_assoc]
            exact (text_skips ha (ends_cons (.inr (.inr (.inl rfl))) _)).2.2.2
        rw [readArgs, hclose]
        exact hitems
    rw [htext, readExpr_word (word_of_plainName hname hstop), readName, if_pos (by rfl)]
    simp only [show str "(" = [40] from rfl, singleton_append, drop_succ_cons, drop_zero]
    rw [hread]
    rfl
  | .caseExpr arg whens els =>
    simp only [Expr.steps] at hn
    obtain ⟨n, rfl⟩ : ∃ m, n = m + 4 := ⟨n - 4, by omega⟩
    obtain ⟨⟨⟨harg, hne⟩, hwhens⟩, hels⟩ : ((optPlain arg = true ∧ whens ≠ []) ∧ whensPlain whens = true) ∧
        optPlain els = true := by
      simpa only [Expr.isPlain, Bool.and_eq_true, decide_eq_true_eq] using h
    have htext : (Expr.caseExpr arg whens els).text ++ rest =
        str "case" ++ (textOpt (str " ") arg ++ (textWhens whens ++ elseText els rest)) := by
      simp only [Expr.text, elseText, append_assoc]
    obtain ⟨htail, hends⟩ := else_front els rest
    have hwread := readWhens_text whens hwhens (by omega : stepsWhens whens ≤ n + 1) htail hends
    have heread := fun arg => readElse_text els hels (by omega : stepsOpt els ≤ n) arg (spelledWhens lowerText whens) rest
    have hhead := textCase_head arg whens els rest
    have hword : Word (str "case") (textOpt (str " ") arg ++ (textWhens whens ++ elseText els rest)) := by
      obtain ⟨t, ht⟩ := hhead
      rw [ht]
      exact word_literal (by decide) (ends_cons (.inl rfl) t).not_namePart
    rw [htext, readExpr_word hword, readName_case hhead, readCase]
    cases arg with
    | none =>
      have hwhen : ∃ t, skipWord (str " when ") (textWhens whens ++ elseText els rest) = some t := by
        cases whens with
        | nil => exact absurd rfl hne
        | cons cr whens => exact ⟨_, by simp only [textWhens, append_assoc]; exact skipWord_append (by decide) _⟩
      obtain ⟨t, ht⟩ := hwhen
      rw [textOpt, nil_append, ht]
      simp only [hwread, bind_some, heread, Expr.spelled, spelledOpt]
    | some a =>
      have hwends : Ends (textWhens whens ++ elseText els rest) := by
        obtain ⟨b, t, ht⟩ := textWhens_head whens els rest
        rw [ht]
        exact ends_cons (.inl rfl) _
      simp only [stepsOpt] at hn
      have haread := read_text a harg (by omega : a.steps ≤ n + 1) hwends
      have hwhen : skipWord (str " when ") (str " " ++ (a.text ++ (textWhens whens ++ elseText els rest))) = none :=
        skipWord_blank (text_skips harg hwends).2.1
      rw [textOpt, append_assoc, hwhen]
      simp only [skipWord_append (by decide : lowerText (str " ") = str " "), bind_some, haread, hwread, heread,
        Expr.spelled, spelledOpt]
  | .param n | .setToDefault => exact absurd h Bool.false_ne_true

theorem readItems_text (es : List Expr) (h : allPlain es = true) (hne : es ≠ []) {sep : Bytes}
    (hsep : sep = str ", " ∨ sep = str " and " ∨ sep = str " or ") {n : Nat} (hn : stepsAll es ≤ n) (rest : Bytes) :
    readItems n sep (List.intercalate sep (textAll es) ++ (str ")" ++ rest)) = some (spelledAll lowerText es, rest) := by
  match es with
  | [] => exact absurd rfl hne
  | [e] =>
    simp only [stepsAll] at hn
    obtain ⟨n, rfl⟩ : ∃ m, n = m + 1 := ⟨n - 1, by omega⟩
    have he := read_text e (by simpa [allPlain] using h) (by omega : e.steps ≤ n)
      (ends_close rest)
    have hnosep : skipWord sep (str ")" ++ rest) = none := by
      rcases hsep with rfl | rfl | rfl <;> exact skipWord_clash 0 rfl rfl (by decide)
    rw [show List.intercalate sep (textAll [e]) = e.text from append_nil _, readItems, he, bind_some]
    simp only [hnosep]
    rfl
  | e :: e' :: es =>
    simp only [stepsAll] at hn
    obtain ⟨n, rfl⟩ : ∃ m, n = m + 1 := ⟨n - 1, by omega⟩
    obtain ⟨hplain, hmore⟩ : e.isPlain = true ∧ allPlain (e' :: es) = true := by
      rw [allPlain, Bool.and_eq_true] at h
      exact h
    have hends : Ends (sep ++ (List.intercalate sep (textAll (e' :: es)) ++ (str ")" ++ rest))) := by
      rcases hsep with rfl | rfl | rfl
      · exact ends_cons (.inr (.inr (.inl rfl))) _
      · exact ends_cons (.inl rfl) _
      · exact ends_cons (.inl rfl) _
    have hlow : lowerText sep = sep := by
      rcases hsep with rfl | rfl | rfl <;> decide
    have he := read_text e hplain (by omega : e.steps ≤ n) hends
    have hes := readItems_text (e' :: es) hmore (by simp) hsep (by simp only [stepsAll]; omega : stepsAll (e' :: es) ≤ n) rest
    rw [textAll, textAll, intercalate_cons₂, append_assoc, append_assoc, readItems]
    rw [textAll] at he hes
    rw [he, bind_some]
    simp only [skipWord_append hlow, hes]
    rfl

theorem readWhens_text (whens : List (Expr × Expr)) (h : whensPlain whens = true) {n : Nat} (hn : stepsWhens whens ≤ n)
    {tail : Bytes} (htail : skipWord (str " when ") tail = none) (hends : Ends tail) :
    readWhens n (textWhens whens ++ tail) = some (spelledWhens lowerText whens, tail) := by
  match whens with
  | [] =>
    obtain ⟨n, rfl⟩ : ∃ m, n = m + 1 := ⟨n - 1, by simp only [stepsWhens] at hn; omega⟩
    rw [textWhens, nil_append, readWhens, htail]
    rfl
  | (cond, result) :: whens =>
    simp only [stepsWhens] at hn
    obtain ⟨n, rfl⟩ : ∃ m, n = m + 1 := ⟨n - 1, by omega⟩
    obtain ⟨⟨hc, hr⟩, hws⟩ : (cond.isPlain = true ∧ result.isPlain = true) ∧ whensPlain whens = true := by
      simpa only [whensPlain, Bool.and_eq_true] using h
    have hwends : Ends (textWhens whens ++ tail) := by
      cases whens with
      | nil => exact hends
      | cons cr whens =>
        rw [textWhens, append_assoc, append_assoc, append_assoc, append_assoc]
        exact ends_cons (.inl rfl) _
    have hthen : Ends (str " then " ++ (result.text ++ (textWhens whens ++ tail))) := ends_cons (.inl rfl) _
    have hcread := read_text cond hc (by omega : cond.steps ≤ n) hthen
    have hrread := read_text result hr (by omega : result.steps ≤ n) hwends
    have hws' := readWhens_text whens hws (by omega : stepsWhens whens ≤ n) htail hends
    rw [textWhens, append_assoc, append_assoc, append_assoc, append_assoc, readWhens, skipWord_append (by decide)]
    simp only [hcread, bind_some, skipWord_append (by decide : lowerText (str " then ") = str " then "), hrread, hws',
      map_some, spelledWhens]

theorem readElse_text (els : Option Expr) (h : optPlain els = true) {n : Nat} (hn : stepsOpt els ≤ n) (arg : Option Expr)
    (whens : List (Expr × Expr)) (rest : Bytes) :
    readElse (n + 1) arg whens (elseText els rest) = some (.caseExpr arg whens (spelledOpt lowerText els), rest) := by
  match els with
  | none =>
    have helse : skipWord (str " else ") (str " end" ++ rest) = none := skipWord_clash 2 rfl rfl (by decide)
    rw [elseText, textOpt, nil_append, readElse, helse]
    simp only [skipWord_append (by decide : lowerText (str " end") = str " end"), map_some, spelledOpt]
  | some e =>
    have hend : Ends (str " end" ++ rest) := ends_cons (.inl rfl) _
    have he := read_text e (by simpa [optPlain] using h) (by simpa [stepsOpt] using hn) hend
    rw [elseText, textOpt, append_assoc, readElse, skipWord_append (by decide)]
    exact readClosed_append (by decide) he

end

theorem lower_of_text (he : e.isPlain = true) (he' : e'.isPlain = true) (h : e.text = e'.text) :
    e.lower = e'.lower := by
  have hends : Ends [] := fun b hb => nomatch hb
  have hread := read_text e he (Nat.le_max_left e.steps e'.steps) hends
  have hread' := read_text e' he' (Nat.le_max_right e.steps e'.steps) hends
  rw [h, hread', Option.some.injEq, Prod.mk.injEq] at hread
  exact hread.1.symm

theorem lower_of_deparse (he : e.isPlain = true) (he' : e'.isPlain = true) {t t' : Bytes}
    (ht : deparseExpr e = .ok t) (ht' : deparseExpr e' = .ok t') (h : lowerText t = lowerText t') : e.lower = e'.lower := by
  obtain ⟨u, hu, hlow⟩ := deparse_text e he
  obtain ⟨u', hu', hlow'⟩ := deparse_text e' he'
  cases hu.symm.trans ht
  cases hu'.symm.trans ht'
  exact lower_of_text he he' (by rw [← hlow, ← hlow', h])

/-! ## Stored texts -/

/-- `parseStoredExpr` on the texts of `deparseExpr`. -/
def readStored (text : Bytes) : ExecM Expr :=
  match readExpr (4 * text.length + 4) text with
  | some (e, []) => .ok e
  | _ => .error ⟨"42601", "syntax error at or near %q", [text]⟩

theorem readStored_text (h : e.isPlain = true) (hsteps : e.steps ≤ 4 * e.text.length + 4) :
    readStored e.text = .ok e.lower := by
  have hread := read_text e h hsteps (fun b hb => nomatch hb : Ends [])
  rw [append_nil] at hread
  rw [readStored, hread]

end BasuyuDb.Executor
