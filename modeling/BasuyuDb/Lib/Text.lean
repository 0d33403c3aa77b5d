import BasuyuDb.Lib.Octets

/-
  Byte strings as Go's `strings` package reads them: a text is a sequence of UTF-8 runes, and a byte that
  starts none is a rune of its own. `toUpper` maps the runes one by one, by a table that is a parameter, so
  it can change the length of a text. A text is `Steady` when every rune keeps its length; positions in
  `toUpper` of such a text are positions in the text, and texts cut at ASCII bytes or joined stay steady.
-/

namespace KvLib
open List Option

/-! ## Runes -/

def ascii (b : Fin 256) : Bool := b.val < 128

def continues (b : Fin 256) : Bool := 128 ≤ b.val ∧ b.val ≤ 191

/-- The number of bytes that the first byte of a rune asks for after it. -/
def tailLen (a : Fin 256) : Nat :=
  if 194 ≤ a.val ∧ a.val ≤ 223 then 1
  else if 224 ≤ a.val ∧ a.val ≤ 239 then 2
  else if 240 ≤ a.val ∧ a.val ≤ 244 then 3
  else 0

/-- The second bytes that may follow a first byte. -/
def follows (a b : Fin 256) : Bool :=
  if a.val = 224 then 160 ≤ b.val ∧ b.val ≤ 191
  else if a.val = 237 then 128 ≤ b.val ∧ b.val ≤ 159
  else if a.val = 240 then 144 ≤ b.val ∧ b.val ≤ 191
  else if a.val = 244 then 128 ≤ b.val ∧ b.val ≤ 143
  else continues b

/-- The bytes after the first of a rune; none when the rune is broken. -/
def runeTail (a : Fin 256) (rest : Octets) : Octets :=
  let t := rest.take (tailLen a)
  if t.length = tailLen a ∧ t.head?.all (follows a) ∧ t.tail.all continues then t else []

/-- The runes of a text that is not longer than `n`. -/
def runesOf : Nat → Octets → List Octets
  | 0, _ => []
  | _ + 1, [] => []
  | n + 1, a :: rest => (a :: runeTail a rest) :: runesOf n (rest.drop (runeTail a rest).length)

def runes (s : Octets) : List Octets := runesOf s.length s

/-- A whole rune: an ASCII byte, or a first byte and the bytes it asks for. -/
def IsRune (r : Octets) : Prop := ∃ a t, r = a :: t ∧ runeTail a t = t ∧ (ascii a = true ∨ t ≠ [])

variable {s : Octets} {a b : Fin 256}

theorem runesOf_eq {n : Nat} (h : s.length ≤ n) : runesOf n s = runes s := by
  induction n using Nat.strong_induction_on generalizing s with
  | _ n ih =>
    cases n with
    | zero =>
      obtain rfl := length_eq_zero_iff.mp (Nat.le_zero.mp h)
      rfl
    | succ n =>
      cases s with
      | nil => rfl
      | cons a rest =>
        have hlen : rest.length ≤ n := by simpa using h
        have hdrop : (rest.drop (runeTail a rest).length).length ≤ rest.length := by
          rw [length_drop]
          omega
        unfold runes
        rw [length_cons, runesOf, runesOf, ih n (by omega) (by omega)]
        by_cases hn : rest.length = n
        · rw [hn, ih n (by omega) (by omega)]
        · rw [ih rest.length (by omega) hdrop]

theorem runes_cons (a : Fin 256) (rest : Octets) :
    runes (a :: rest) = (a :: runeTail a rest) :: runes (rest.drop (runeTail a rest).length) := by
  have hdrop : (rest.drop (runeTail a rest).length).length ≤ rest.length := by
    rw [length_drop]
    omega
  rw [← runesOf_eq hdrop]
  rfl

theorem runeTail_isPrefix (a : Fin 256) (rest : Octets) : runeTail a rest <+: rest := by
  unfold runeTail
  dsimp only
  split
  · exact take_prefix _ _
  · exact nil_prefix

theorem ascii_tailLen (h : ascii a = true) : tailLen a = 0 := by
  have ha : a.val < 128 := by simpa [ascii] using h
  unfold tailLen
  rw [if_neg (by omega), if_neg (by omega), if_neg (by omega)]

variable {t r w : Octets}

/-- Whether a rune is whole does not depend on what follows it. -/
theorem runeTail_append (h : runeTail a t = t) (ht : ascii a = true ∨ t ≠ [])
    (s : Octets) : runeTail a (t ++ s) = t := by
  have hlen : t.length = tailLen a := by
    rcases ht with ha | ht
    · have htail := ascii_tailLen ha
      rw [← h, htail]
      simp [runeTail, htail]
    · by_contra hne
      unfold runeTail at h
      dsimp only at h
      split at h
      · rename_i hok
        rw [h] at hok
        exact hne hok.1
      · exact ht h.symm
  have htake : (t ++ s).take (tailLen a) = t.take (tailLen a) := by
    rw [take_append_of_le_length hlen.ge]
  unfold runeTail at h ⊢
  rw [htake]
  exact h

theorem isRune_ascii (h : ascii b = true) : IsRune [b] := ⟨b, [], rfl, by simp [runeTail], .inl h⟩

theorem IsRune.runes_append (h : IsRune r) (s : Octets) : runes (r ++ s) = r :: runes s := by
  obtain ⟨a, t, rfl, ht, hne⟩ := h
  rw [cons_append, runes_cons, runeTail_append ht hne, drop_left]

theorem runes_flatten_of {rs : List Octets} (h : ∀ r ∈ rs, IsRune r) : runes rs.flatten = rs := by
  induction rs with
  | nil => rfl
  | cons r rs ih =>
    rw [flatten_cons, (h r mem_cons_self).runes_append, ih fun r' hr' => h r' (mem_cons_of_mem _ hr')]

theorem flatten_runes (s : Octets) : (runes s).flatten = s := by
  induction hn : s.length using Nat.strong_induction_on generalizing s with
  | _ n ih =>
    cases s with
    | nil => rfl
    | cons a rest =>
      obtain ⟨u, hu⟩ := runeTail_isPrefix a rest
      have hdrop : rest.drop (runeTail a rest).length = u := by
        generalize runeTail a rest = t at hu ⊢
        rw [← hu, drop_left]
      have hlen : u.length < n := by
        rw [← hn, length_cons, ← hu, length_append]
        omega
      rw [runes_cons, hdrop, flatten_cons, ih _ hlen u rfl, cons_append, hu]

theorem runeTail_self (a : Fin 256) (rest : Octets) : runeTail a (runeTail a rest) = runeTail a rest := by
  by_cases h : (rest.take (tailLen a)).length = tailLen a ∧ (rest.take (tailLen a)).head?.all (follows a) ∧
      (rest.take (tailLen a)).tail.all continues
  · have ht : runeTail a rest = rest.take (tailLen a) := if_pos h
    rw [ht]
    unfold runeTail
    rw [take_take, Nat.min_self]
    exact if_pos h
  · have ht : runeTail a rest = [] := if_neg h
    rw [ht]
    simp [runeTail]

theorem continues_not_ascii (h : continues b = true) : ascii b = false := by
  simp only [continues, decide_eq_true_eq] at h
  simp only [ascii, decide_eq_false_iff_not]
  omega

theorem follows_not_ascii (h : follows a b = true) : ascii b = false := by
  have hb : 128 ≤ b.val := by
    simp only [follows, continues] at h
    split_ifs at h
    all_goals
      rw [decide_eq_true_eq] at h
      omega
  simp only [ascii, decide_eq_false_iff_not]
  omega

theorem runeTail_not_ascii (h : runeTail a t = t) : ∀ b ∈ t, ascii b = false := by
  intro b hb
  unfold runeTail at h
  dsimp only at h
  split at h
  · rename_i hok
    obtain ⟨-, hhead, htail⟩ := hok
    rw [h] at hhead htail
    cases t with
    | nil => cases hb
    | cons c t =>
      rcases mem_cons.mp hb with rfl | hb
      · exact follows_not_ascii hhead
      · exact continues_not_ascii (List.all_eq_true.mp htail b hb)
  · rw [← h] at hb
    cases hb

theorem mem_runes (h : r ∈ runes s) : ∃ a t, r = a :: t ∧ runeTail a t = t := by
  induction hn : s.length using Nat.strong_induction_on generalizing s with
  | _ n ih =>
    cases s with
    | nil => cases h
    | cons a rest =>
      rw [runes_cons] at h
      rcases mem_cons.mp h with rfl | h
      · exact ⟨a, _, rfl, runeTail_self a rest⟩
      · refine ih _ ?_ h rfl
        rw [← hn, length_cons, length_drop]
        omega

/-! ## Coercion to UTF-8 -/

/-- The replacement character for a byte that starts no rune. -/
def wellFormed : Octets → Octets
  | [b] => if ascii b then [b] else [239, 191, 189]
  | r => r

/-- A text as JSON writes it. -/
def coerced (s : Octets) : Octets := (runes s).flatMap wellFormed

theorem wellFormed_isRune (h : r ∈ runes s) : IsRune (wellFormed r) := by
  obtain ⟨a, t, rfl, ht⟩ := mem_runes h
  cases t with
  | nil =>
    by_cases ha : ascii a = true
    · rw [wellFormed, if_pos ha]
      exact isRune_ascii ha
    · rw [wellFormed, if_neg ha]
      exact ⟨239, [191, 189], rfl, by decide, .inr (cons_ne_nil _ _)⟩
  | cons b t => exact ⟨a, b :: t, rfl, ht, .inr (cons_ne_nil _ _)⟩

theorem IsRune.wellFormed_eq (h : IsRune r) : wellFormed r = r := by
  obtain ⟨a, - | ⟨b, t⟩, rfl, -, h⟩ := h
  · exact if_pos (h.resolve_right (· rfl))
  · rfl

theorem coerced_coerced (s : Octets) : coerced (coerced s) = coerced s := by
  have hrunes : ∀ r ∈ (runes s).map wellFormed, IsRune r := by
    intro r hr
    obtain ⟨r', hr', rfl⟩ := mem_map.mp hr
    exact wellFormed_isRune hr'
  have hcoerced : coerced s = ((runes s).map wellFormed).flatten := flatMap_def ..
  rw [hcoerced, coerced, runes_flatten_of hrunes, flatMap_def, map_congr_left fun r hr => (hrunes r hr).wellFormed_eq,
    List.map_id']

/-! ## Upper case -/

def upperByte (b : Fin 256) : Fin 256 := if 97 ≤ b.val ∧ b.val ≤ 122 then Fin.ofNat 256 (b.val - 32) else b

/-- The upper case of an encoded rune: the ASCII letters, the replacement character for a byte that is no
rune, and else a rune. -/
structure Letters where
  upper : Octets → Octets
  upper_ascii : ∀ b, ascii b = true → upper [b] = [upperByte b]
  upper_invalid : ∀ b, ascii b = false → upper [b] = [239, 191, 189]
  upper_rune : ∀ r, (∃ b, upper r = [b]) ∨ ∀ b ∈ upper r, ascii b = false

theorem replacement_foreign : ∀ b ∈ ([239, 191, 189] : Octets), ascii b = false := by decide +kernel

/-- The ASCII letters, with `f` for the runes of several bytes. -/
def Letters.ofRunes (f : Octets → Octets) (hf : ∀ r, ∀ b ∈ f r, ascii b = false) : Letters where
  upper
    | [b] => if ascii b then [upperByte b] else [239, 191, 189]
    | r => f r
  upper_ascii _ hb := if_pos hb
  upper_invalid _ hb := if_neg (by simp [hb])
  upper_rune := by
    intro r
    rcases r with - | ⟨b, - | ⟨c, r⟩⟩
    · exact .inr (hf _)
    · dsimp only
      split
      · exact .inl ⟨_, rfl⟩
      · exact .inr replacement_foreign
    · exact .inr (hf _)

/-- The ASCII letters, and the replacement character for all else. -/
def asciiLetters : Letters := .ofRunes (fun _ => [239, 191, 189]) fun _ => replacement_foreign

/-- `strings.ToUpper`. -/
def toUpper (L : Letters) (s : Octets) : Octets := (runes s).flatMap L.upper

/-- Upper case keeps the length of every rune. -/
def Steady (L : Letters) (s : Octets) : Prop := ∀ r ∈ runes s, (L.upper r).length = r.length

/-- A whole rune that keeps its length. -/
structure Kept (L : Letters) (r : Octets) : Prop where
  rune : IsRune r
  length : (L.upper r).length = r.length

section steady
variable {L : Letters}

theorem steady_iff : Steady L s ↔ ∃ rs : List Octets, s = rs.flatten ∧ ∀ r ∈ rs, Kept L r := by
  constructor
  · intro h
    refine ⟨runes s, (flatten_runes s).symm, fun r hr => ⟨?_, h r hr⟩⟩
    obtain ⟨a, t, rfl, ht⟩ := mem_runes hr
    refine ⟨a, t, rfl, ht, ?_⟩
    by_contra hbad
    rw [not_or, not_not, Bool.not_eq_true] at hbad
    have hlen := h _ hr
    rw [hbad.2, L.upper_invalid a hbad.1] at hlen
    cases hlen
  · rintro ⟨rs, rfl, hrs⟩ r hr
    rw [runes_flatten_of fun r hr => (hrs r hr).rune] at hr
    exact (hrs r hr).length

theorem Steady.append (hs : Steady L s) (ht : Steady L t) : Steady L (s ++ t) := by
  obtain ⟨rs, rfl, hrs⟩ := steady_iff.mp hs
  obtain ⟨ts, rfl, hts⟩ := steady_iff.mp ht
  refine steady_iff.mpr ⟨rs ++ ts, by rw [flatten_append], fun r hr => ?_⟩
  exact (mem_append.mp hr).elim (hrs r) (hts r)

theorem kept_ascii {b : Fin 256} (h : ascii b = true) : Kept L [b] where
  rune := isRune_ascii h
  length := by rw [L.upper_ascii b h]; rfl

variable {p q : Octets} {rs : List Octets}

theorem Kept.steady (h : Kept L r) : Steady L r := by
  refine steady_iff.mpr ⟨[r], by simp, fun r' hr' => ?_⟩
  rw [mem_singleton.mp hr']
  exact h

theorem steady_ascii (h : ∀ b ∈ s, ascii b = true) : Steady L s := by
  refine steady_iff.mpr ⟨s.map fun b => [b], ?_, fun r hr => ?_⟩
  · induction s with
    | nil => rfl
    | cons b s ih =>
      rw [map_cons, flatten_cons, ← ih fun b' hb' => h b' (mem_cons_of_mem _ hb')]
      rfl
  · obtain ⟨b, hb, rfl⟩ := List.mem_map.mp hr
    exact kept_ascii (h b hb)

theorem toUpper_append (hs : Steady L s) (ht : Steady L t) : toUpper L (s ++ t) = toUpper L s ++ toUpper L t := by
  obtain ⟨rs, rfl, hrs⟩ := steady_iff.mp hs
  obtain ⟨ts, rfl, hts⟩ := steady_iff.mp ht
  have hall : ∀ r ∈ rs ++ ts, IsRune r := fun r hr => ((mem_append.mp hr).elim (hrs r) (hts r)).rune
  unfold toUpper
  rw [← flatten_append, runes_flatten_of hall, runes_flatten_of fun r hr => (hrs r hr).rune,
    runes_flatten_of fun r hr => (hts r hr).rune, flatMap_append]

theorem toUpper_flatten (h : ∀ r ∈ rs, Kept L r) : toUpper L rs.flatten = rs.flatMap L.upper := by
  unfold toUpper
  rw [runes_flatten_of fun r hr => (h r hr).rune]

theorem toUpper_length (hs : Steady L s) : (toUpper L s).length = s.length := by
  obtain ⟨rs, rfl, hrs⟩ := steady_iff.mp hs
  rw [toUpper_flatten hrs]
  clear hs
  induction rs with
  | nil => rfl
  | cons r rs ih =>
    rw [flatMap_cons, flatten_cons, length_append, length_append,
      ih fun r' hr' => hrs r' (mem_cons_of_mem _ hr'), (hrs r mem_cons_self).length]

/-- A rune that keeps its length is an ASCII byte, or it and its upper case have no ASCII byte. -/
theorem Kept.cases (h : Kept L r) : (∃ b, ascii b = true ∧ r = [b] ∧ L.upper r = [upperByte b]) ∨
    (∀ b ∈ r, ascii b = false) ∧ (∀ b ∈ L.upper r, ascii b = false) := by
  obtain ⟨⟨a, t, rfl, ht, hne⟩, hlen⟩ := h
  by_cases ha : ascii a = true
  · left
    have htail : t = [] := by
      rw [← ht]
      simp [runeTail, ascii_tailLen ha]
    exact ⟨a, ha, by rw [htail], by rw [htail, L.upper_ascii a ha]⟩
  · right
    have htne : t ≠ [] := hne.resolve_left ha
    refine ⟨fun b hb => ?_, ?_⟩
    · rcases mem_cons.mp hb with rfl | hb
      · simpa using ha
      · exact runeTail_not_ascii ht b hb
    · refine (L.upper_rune (a :: t)).resolve_left (fun ⟨b, hb⟩ => ?_)
      rw [hb] at hlen
      exact htne (by simpa using hlen)

variable {c : Fin 256}

/-- Blocks that are one byte or have no ASCII byte are cut at an ASCII byte. -/
theorem flatMap_split {f : Octets → Octets} (h : ∀ r ∈ rs, (∃ x, f r = [x]) ∨ ∀ b ∈ f r, ascii b = false)
    (hc : ascii c = true) (heq : rs.flatMap f = p ++ c :: q) :
    ∃ r₁ r r₂, rs = r₁ ++ r :: r₂ ∧ f r = [c] ∧ r₁.flatMap f = p ∧ r₂.flatMap f = q := by
  induction rs generalizing p with
  | nil => exact absurd heq (by simp)
  | cons r rs ih =>
    have hrest := fun {p : Octets} => ih (fun r' hr' => h r' (mem_cons_of_mem _ hr')) (p := p)
    rw [flatMap_cons] at heq
    rcases append_eq_append_iff.mp heq with ⟨p', rfl, hp'⟩ | ⟨q', hr, hq'⟩
    · obtain ⟨r₁, r', r₂, rfl, hr', rfl, rfl⟩ := hrest hp'
      exact ⟨r :: r₁, r', r₂, rfl, hr', rfl, rfl⟩
    · cases q' with
      | nil =>
        obtain ⟨r₁, r', r₂, rfl, hr', hr₁, rfl⟩ := hrest (p := []) hq'.symm
        refine ⟨r :: r₁, r', r₂, rfl, hr', ?_, rfl⟩
        rw [flatMap_cons, hr₁, hr, append_nil, append_nil]
      | cons d q' =>
        obtain ⟨rfl, hq⟩ := List.cons.inj hq'
        rcases h r mem_cons_self with ⟨x, hx⟩ | hno
        · -- the block is the byte itself
          obtain ⟨rfl, rfl⟩ : p = [] ∧ q' = [] := by
            have hlen := congrArg List.length (hr.symm.trans hx)
            simp only [length_append, length_cons, length_nil] at hlen
            exact ⟨eq_nil_of_length_eq_zero (by omega), eq_nil_of_length_eq_zero (by omega)⟩
          exact ⟨[], r, rs, rfl, hr, rfl, hq.symm⟩
        · have hfalse := hno c (hr ▸ mem_append_right _ mem_cons_self)
          exact absurd hc (by rw [hfalse]; exact Bool.false_ne_true)

theorem Steady.split {a b : Octets} (hs : Steady L (a ++ c :: b)) (hc : ascii c = true) :
    Steady L a ∧ Steady L b := by
  obtain ⟨rs, hflat, hrs⟩ := steady_iff.mp hs
  have hblocks : ∀ r ∈ rs, (∃ x, id r = [x]) ∨ ∀ b ∈ id r, ascii b = false := by
    intro r hr
    rcases (hrs r hr).cases with ⟨b, -, hb, -⟩ | ⟨hno, -⟩
    · exact .inl ⟨b, hb⟩
    · exact .inr hno
  rw [← flatMap_id] at hflat
  obtain ⟨r₁, r, r₂, rfl, -, h₁, h₂⟩ := flatMap_split hblocks hc hflat.symm
  rw [flatMap_id] at h₁ h₂
  refine ⟨steady_iff.mpr ⟨r₁, h₁.symm, fun r hr => hrs r (mem_append_left _ hr)⟩,
    steady_iff.mpr ⟨r₂, h₂.symm, fun r hr => ?_⟩⟩
  exact hrs r (mem_append_right _ (mem_cons_of_mem _ hr))

theorem steady_cut {a b : Octets} (hc : ascii c = true) : Steady L (a ++ c :: b) ↔ Steady L a ∧ Steady L b := by
  refine ⟨fun h => h.split hc, fun ⟨ha, hb⟩ => ha.append ?_⟩
  exact ((kept_ascii hc).steady : Steady L [c]).append hb

theorem steady_cons (hc : ascii c = true) : Steady L (c :: s) ↔ Steady L s :=
  (steady_cut (a := []) hc).trans (and_iff_right (steady_ascii nofun))

theorem runes_ascii (hc : ascii c = true) (s : Octets) : runes (c :: s) = [c] :: runes s :=
  (isRune_ascii hc).runes_append s

theorem toUpper_cons (hc : ascii c = true) (s : Octets) : toUpper L (c :: s) = upperByte c :: toUpper L s := by
  unfold toUpper
  rw [runes_ascii hc, flatMap_cons, L.upper_ascii c hc]
  rfl

theorem toUpper_ascii {w : Octets} (hw : ∀ b ∈ w, ascii b = true) (s : Octets) :
    toUpper L (w ++ s) = w.map upperByte ++ toUpper L s := by
  induction w with
  | nil => rfl
  | cons c w ih =>
    rw [cons_append, toUpper_cons (hw c mem_cons_self), ih fun b hb => hw b (mem_cons_of_mem _ hb)]
    rfl

/-- An ASCII byte of the upper case is that of a byte at the same position. -/
theorem toUpper_split (hs : Steady L s) (hc : ascii c = true)
    (heq : toUpper L s = p ++ c :: q) : ∃ a d b, s = a ++ d :: b ∧ ascii d = true ∧ upperByte d = c ∧
      toUpper L a = p ∧ toUpper L b = q := by
  obtain ⟨rs, rfl, hrs⟩ := steady_iff.mp hs
  rw [toUpper_flatten hrs] at heq
  have hblocks : ∀ r ∈ rs, (∃ x, L.upper r = [x]) ∨ ∀ b ∈ L.upper r, ascii b = false := by
    intro r hr
    rcases (hrs r hr).cases with ⟨b, -, -, hup⟩ | ⟨-, hno⟩
    · exact .inl ⟨_, hup⟩
    · exact .inr hno
  obtain ⟨r₁, r, r₂, rfl, hr, rfl, rfl⟩ := flatMap_split hblocks hc heq
  rcases (hrs r (mem_append_right _ mem_cons_self)).cases with ⟨d, hd, rfl, hup⟩ | ⟨-, hno⟩
  · refine ⟨r₁.flatten, d, r₂.flatten, by simp, hd, (List.cons.inj (hup.symm.trans hr)).1,
      toUpper_flatten fun r hr => hrs r (mem_append_left _ hr), toUpper_flatten fun r hr => ?_⟩
    exact hrs r (mem_append_right _ (mem_cons_of_mem _ hr))
  · have hfalse := hno c (hr ▸ mem_singleton_self c)
    exact absurd hc (by rw [hfalse]; exact Bool.false_ne_true)

end steady

/-! ## Case folding -/

/-- The class of an encoded rune under simple case folding, by its upper case where that is ASCII. -/
structure Folding where
  fold : Octets → Octets
  fold_ascii : ∀ b, ascii b = true → fold [b] = [upperByte b]
  fold_invalid : ∀ b, ascii b = false → fold [b] = [239, 191, 189]

/-- `strings.EqualFold`. -/
def equalFold (F : Folding) (s t : Octets) : Bool := (runes s).map F.fold = (runes t).map F.fold

theorem runes_length_le (s : Octets) : (runes s).length ≤ s.length := by
  induction hn : s.length using Nat.strong_induction_on generalizing s with
  | _ n ih =>
    cases s with
    | nil => exact Nat.zero_le _
    | cons a rest =>
      have hdrop : (rest.drop (runeTail a rest).length).length ≤ rest.length := by
        rw [length_drop]
        omega
      have hlen : rest.length + 1 = n := hn
      have := ih _ (by omega) (rest.drop (runeTail a rest).length) rfl
      rw [runes_cons, length_cons]
      omega

theorem runes_ascii_length (hw : ∀ b ∈ w, ascii b = true) : (runes w).length = w.length := by
  induction w with
  | nil => rfl
  | cons c w ih =>
    obtain ⟨hc, hw⟩ := forall_mem_cons.mp hw
    rw [runes_ascii hc, length_cons, length_cons, ih hw]

/-- A text as long as an ASCII word that it equals up to case is ASCII, and has the same upper case. -/
theorem equalFold_ascii {F : Folding} (hw : ∀ b ∈ w, ascii b = true) (hlen : s.length = w.length)
    (h : equalFold F s w = true) : (∀ b ∈ s, ascii b = true) ∧ s.map upperByte = w.map upperByte := by
  induction w generalizing s with
  | nil =>
    obtain rfl := length_eq_zero_iff.mp hlen
    exact ⟨fun b hb => absurd hb not_mem_nil, rfl⟩
  | cons c w ih =>
    obtain ⟨hc, hw⟩ := forall_mem_cons.mp hw
    cases s with
    | nil => cases hlen
    | cons a rest =>
      have hrest : rest.length = w.length := Nat.succ.inj hlen
      have hfold : (runes (a :: rest)).map F.fold = (runes (c :: w)).map F.fold := of_decide_eq_true h
      rw [runes_cons a rest, runes_ascii hc, map_cons, map_cons] at hfold
      obtain ⟨hhead, htail⟩ := List.cons.inj hfold
      -- as many runes as bytes, so the first rune is the first byte
      have hone : runeTail a rest = [] := by
        have hcount := congrArg List.length htail
        rw [length_map, length_map] at hcount
        have hword := runes_ascii_length hw
        have hle := runes_length_le (rest.drop (runeTail a rest).length)
        have hprefix := (runeTail_isPrefix a rest).length_le
        rw [length_drop] at hle
        exact length_eq_zero_iff.mp (by omega)
      rw [hone] at hhead htail
      rw [F.fold_ascii c hc] at hhead
      have ha : ascii a = true := by
        by_contra hno
        rw [F.fold_invalid a (by simpa using hno)] at hhead
        exact absurd hhead (by simp)
      rw [F.fold_ascii a ha] at hhead
      obtain ⟨hall, hmap⟩ := ih hw hrest (decide_eq_true htail)
      refine ⟨forall_mem_cons.mpr ⟨ha, hall⟩, ?_⟩
      rw [map_cons, map_cons, hmap, (List.cons.inj hhead).1]

/-! ## Trimming -/

/-- `unicode.IsSpace`, on encoded runes. -/
def isSpace (r : Octets) : Bool :=
  r ∈ [[9], [10], [11], [12], [13], [32], [194, 133], [194, 160], [225, 154, 128], [226, 128, 128], [226, 128, 129],
    [226, 128, 130], [226, 128, 131], [226, 128, 132], [226, 128, 133], [226, 128, 134], [226, 128, 135],
    [226, 128, 136], [226, 128, 137], [226, 128, 138], [226, 128, 168], [226, 128, 169], [226, 128, 175],
    [226, 129, 159], [227, 128, 128]]

/-- `strings.TrimSpace`. -/
def trimSpace (s : Octets) : Octets := (((runes s).dropWhile isSpace).rdropWhile isSpace).flatten

theorem trimSpace_infix {L : Letters} (hs : Steady L s) : ∃ a b, s = a ++ trimSpace s ++ b ∧
    Steady L a ∧ Steady L (trimSpace s) ∧ Steady L b := by
  obtain ⟨rs, rfl, hrs⟩ := steady_iff.mp hs
  have hruns : runes rs.flatten = rs := runes_flatten_of fun r hr => (hrs r hr).rune
  obtain ⟨r₁, h₁⟩ := dropWhile_suffix (p := isSpace) (l := rs)
  obtain ⟨r₂, h₂⟩ := rdropWhile_prefix isSpace (l := rs.dropWhile isSpace)
  unfold trimSpace
  rw [hruns]
  have hcut : rs = r₁ ++ ((rs.dropWhile isSpace).rdropWhile isSpace ++ r₂) := by rw [h₂, h₁]
  have hsteady : ∀ l, l <:+: rs → Steady L l.flatten := fun l hl =>
    steady_iff.mpr ⟨l, rfl, fun r hr => hrs r (hl.subset hr)⟩
  refine ⟨r₁.flatten, r₂.flatten, ?_, hsteady _ ?_, hsteady _ ?_, hsteady _ ?_⟩
  · conv_lhs => rw [hcut]
    simp only [flatten_append, append_assoc]
  · exact ⟨[], _, hcut.symm⟩
  · refine ⟨r₁, r₂, ?_⟩
    rw [append_assoc]
    exact hcut.symm
  · refine ⟨r₁ ++ (rs.dropWhile isSpace).rdropWhile isSpace, [], ?_⟩
    rw [append_nil, append_assoc]
    exact hcut.symm

/-- A text that starts with a byte that is no space keeps its start. -/
theorem trimSpace_head {c : Fin 256} (hc : ascii c = true) (hspace : isSpace [c] = false) (s : Octets) :
    ∃ t, trimSpace (c :: s) = c :: t ∧ t <+: s := by
  have hstay : (runes (c :: s)).dropWhile isSpace = [c] :: runes s := by
    rw [runes_ascii hc, dropWhile_cons_of_neg (by simp [hspace])]
  have hkeep : ∃ rs, (([c] :: runes s).rdropWhile isSpace) = [c] :: rs ∧ rs <+: runes s := by
    rw [List.rdropWhile, reverse_cons, dropWhile_append]
    split
    · rw [dropWhile_cons_of_neg (by simp [hspace])]
      exact ⟨[], rfl, nil_prefix⟩
    · refine ⟨((runes s).reverse.dropWhile isSpace).reverse, by rw [reverse_append]; rfl, ?_⟩
      exact reverse_suffix.mp (by rw [reverse_reverse]; exact dropWhile_suffix _)
  obtain ⟨rs, hrs, more, hmore⟩ := hkeep
  refine ⟨rs.flatten, ?_, more.flatten, ?_⟩
  · unfold trimSpace
    rw [hstay, hrs]
    rfl
  · rw [← flatten_append, hmore, flatten_runes]

/-! ## Searching -/

section search
variable {α : Type} [DecidableEq α]

/-- The number of places where a word occurs, overlaps included. -/
def occurrences (w : List α) : List α → Nat
  | [] => 0
  | c :: s => (if w <+: c :: s then 1 else 0) + occurrences w s

/-- `strings.Index`, of a word that is not empty. -/
def indexOf (w : List α) : List α → Option Nat
  | [] => none
  | c :: s => if w <+: c :: s then some 0 else (indexOf w s).map (· + 1)

/-- `strings.LastIndex`, of a word that is not empty. -/
def lastIndexOf (w : List α) : List α → Option Nat
  | [] => none
  | c :: s => ((lastIndexOf w s).map (· + 1)).or (if w <+: c :: s then some 0 else none)

variable {w s t : List α}

theorem occurrences_append_le (w s t : List α) : occurrences w s + occurrences w t ≤ occurrences w (s ++ t) := by
  induction s with
  | nil => simp [occurrences]
  | cons c s ih =>
    have hprefix : (if w <+: c :: s then 1 else 0) ≤ (if w <+: c :: (s ++ t) then 1 else 0) := by
      by_cases h : w <+: c :: s
      · have h' : w <+: c :: (s ++ t) := h.trans (prefix_append (c :: s) t)
        rw [if_pos h, if_pos h']
      · rw [if_neg h]
        exact Nat.zero_le _
    rw [cons_append, occurrences, occurrences]
    omega

/-- No occurrence goes over a letter that the word does not have. -/
theorem occurrences_cut {c : α} (hc : c ∉ w) (hw : w ≠ []) (s t : List α) :
    occurrences w (s ++ c :: t) = occurrences w s + occurrences w t := by
  have hcut : ∀ u : List α, w <+: u ++ c :: t ↔ w <+: u := by
    intro u
    refine ⟨fun h => ?_, fun h => h.trans (prefix_append _ _)⟩
    by_cases hlen : w.length ≤ u.length
    · exact prefix_of_prefix_length_le h (prefix_append _ _) hlen
    · exfalso
      obtain ⟨v, hv⟩ := h
      have hget : (w ++ v)[u.length]? = some c := by
        rw [hv, getElem?_append_right le_rfl, Nat.sub_self]
        rfl
      rw [getElem?_append_left (by omega)] at hget
      exact hc (mem_of_getElem? hget)
  induction s with
  | nil =>
    have hno : ¬w <+: c :: t := by
      intro h
      exact hw (prefix_nil.mp ((hcut []).mp h))
    have hcons : occurrences w (c :: t) = (if w <+: c :: t then 1 else 0) + occurrences w t := rfl
    rw [nil_append, hcons, if_neg hno]
    rfl
  | cons a s ih =>
    have hiff := hcut (a :: s)
    rw [cons_append] at hiff
    rw [cons_append, occurrences, occurrences, ih, if_congr hiff rfl rfl, Nat.add_assoc]

/-- A word occurs at its first index, and nowhere before it. -/
theorem indexOf_eq_some {i : Nat} (h : indexOf w s = some i) :
    ∃ p q, s = p ++ (w ++ q) ∧ p.length = i ∧ occurrences w p = 0 := by
  induction s generalizing i with
  | nil => cases h
  | cons c s ih =>
    by_cases hw : w <+: c :: s
    · rw [indexOf, if_pos hw] at h
      obtain ⟨q, hq⟩ := hw
      exact ⟨[], q, hq.symm, some.inj h, rfl⟩
    · rw [indexOf, if_neg hw] at h
      obtain ⟨j, hj, rfl⟩ := map_eq_some_iff.mp h
      obtain ⟨p, q, rfl, rfl, hp⟩ := ih hj
      refine ⟨c :: p, q, rfl, rfl, ?_⟩
      rw [occurrences, hp, if_neg fun h' => hw (h'.trans (prefix_append (c :: p) _))]

theorem lastIndexOf_le {i : Nat} (h : lastIndexOf w s = some i) : i + w.length ≤ s.length := by
  induction s generalizing i with
  | nil => cases h
  | cons c s ih =>
    rw [lastIndexOf] at h
    rcases or_eq_some_iff.mp h with h | ⟨-, h⟩
    · obtain ⟨j, hj, rfl⟩ := map_eq_some_iff.mp h
      have := ih hj
      rw [length_cons]
      omega
    · split at h
      · rename_i hw
        cases h
        have := hw.length_le
        omega
      · cases h

end search

/-! ## Replacing -/

/-- The first pair whose word starts the text. -/
def matching (pairs : List (Octets × Octets)) (s : Octets) : Option (Octets × Octets) :=
  pairs.find? fun p => decide (p.1 <+: s)

def replaceOf (pairs : List (Octets × Octets)) : Nat → Octets → Octets
  | 0, s => s
  | _ + 1, [] => []
  | n + 1, c :: s =>
    match matching pairs (c :: s) with
    | some p => p.2 ++ replaceOf pairs n ((c :: s).drop p.1.length)
    | none => c :: replaceOf pairs n s

/-- `strings.NewReplacer(pairs...).Replace`, of words that are not empty. -/
def replaceAll (pairs : List (Octets × Octets)) (s : Octets) : Octets := replaceOf pairs s.length s

/-- ASCII words, not empty, and ASCII texts for them. -/
def AsciiPairs (pairs : List (Octets × Octets)) : Prop :=
  ∀ p ∈ pairs, p.1 ≠ [] ∧ (∀ b ∈ p.1, ascii b = true) ∧ ∀ b ∈ p.2, ascii b = true

instance (pairs : List (Octets × Octets)) : Decidable (AsciiPairs pairs) :=
  decidable_of_iff ((pairs.all fun p => !p.1.isEmpty && p.1.all ascii && p.2.all ascii) = true) (by
    simp only [AsciiPairs, List.all_eq_true, Bool.and_eq_true, Bool.not_eq_true', isEmpty_eq_false_iff, and_assoc])

section replace
variable {L : Letters} {pairs : List (Octets × Octets)}

theorem matching_some {p : Octets × Octets} (h : matching pairs s = some p) : p ∈ pairs ∧ ∃ t, s = p.1 ++ t := by
  have hprefix := find?_some h
  obtain ⟨t, ht⟩ := of_decide_eq_true hprefix
  exact ⟨mem_of_find?_eq_some h, t, ht.symm⟩

theorem matching_not_ascii (hp : AsciiPairs pairs) {b : Fin 256} (hb : ascii b = false) (s : Octets) :
    matching pairs (b :: s) = none := by
  rw [eq_none_iff_forall_ne_some]
  intro p h
  obtain ⟨hmem, t, ht⟩ := matching_some h
  obtain ⟨hne, hascii, -⟩ := hp p hmem
  obtain ⟨c, w, hw⟩ := exists_cons_of_ne_nil hne
  rw [hw, cons_append] at ht
  have hc := hascii c (by rw [hw]; exact mem_cons_self ..)
  rw [← (List.cons.inj ht).1, hb] at hc
  exact absurd hc Bool.false_ne_true

/-- Bytes that are not ASCII are copied. -/
theorem replaceOf_copies (hp : AsciiPairs pairs) {r : Octets} (hr : ∀ b ∈ r, ascii b = false) (n : Nat) (s : Octets) :
    replaceOf pairs (r.length + n) (r ++ s) = r ++ replaceOf pairs n s := by
  induction r with
  | nil => rw [length_nil, Nat.zero_add, nil_append, nil_append]
  | cons b r ih =>
    have hlen : (b :: r).length + n = r.length + n + 1 := by
      rw [length_cons]
      omega
    rw [hlen, cons_append, replaceOf, matching_not_ascii hp (hr b mem_cons_self)]
    dsimp only
    rw [ih fun b' hb' => hr b' (mem_cons_of_mem _ hb'), cons_append]

theorem Steady.drop_ascii {w t : Octets} (h : Steady L (w ++ t)) (hw : ∀ b ∈ w, ascii b = true) : Steady L t := by
  rcases eq_nil_or_concat' w with rfl | ⟨w', c, rfl⟩
  · exact h
  · rw [append_assoc] at h
    exact (h.split (hw c (by simp))).2

theorem replaceOf_steady (hp : AsciiPairs pairs) {n : Nat} (hn : s.length ≤ n) (hs : Steady L s) :
    Steady L (replaceOf pairs n s) := by
  induction hlen : s.length using Nat.strong_induction_on generalizing s n with
  | _ m ih =>
    obtain ⟨rs, rfl, hrs⟩ := steady_iff.mp hs
    cases rs with
    | nil =>
      cases n with
      | zero | succ n => exact hs
    | cons r rs =>
      have hkept := hrs r mem_cons_self
      have hrest : Steady L rs.flatten := steady_iff.mpr ⟨rs, rfl, fun r' hr' => hrs r' (mem_cons_of_mem _ hr')⟩
      rw [flatten_cons] at hs hn hlen ⊢
      rw [length_append] at hn hlen
      rcases hkept.cases with ⟨c, hc, rfl, -⟩ | ⟨hr, -⟩
      · cases n with
        | zero => exact absurd hn (by simp)
        | succ n =>
          rw [singleton_append, replaceOf]
          cases hmatch : matching pairs (c :: rs.flatten) with
          | none =>
            simp only [length_singleton] at hn hlen
            exact hkept.steady.append (ih _ (by omega) (by omega) hrest rfl)
          | some p =>
            obtain ⟨hmem, t, ht⟩ := matching_some hmatch
            obtain ⟨hne, hold, hnew⟩ := hp p hmem
            have hlen' := congrArg List.length ht
            have hpos := length_pos_of_ne_nil hne
            simp only [length_cons, length_append] at hlen' hlen hn
            rw [singleton_append, ht] at hs
            dsimp only
            rw [ht, drop_left]
            exact (steady_ascii hnew).append (ih _ (by omega) (by omega) (hs.drop_ascii hold) rfl)
      · obtain ⟨k, rfl⟩ := Nat.exists_eq_add_of_le (show r.length ≤ n by omega)
        have hpos : 0 < r.length := by
          obtain ⟨a, t, rfl, -⟩ := hkept.rune
          exact Nat.succ_pos _
        rw [replaceOf_copies hp hr]
        exact hkept.steady.append (ih _ (by omega) (by omega) hrest rfl)

end replace

end KvLib
