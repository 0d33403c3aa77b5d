import BasuyuDb.Executor.Catalog

/-
  engine/internal/executor/encode.go: the bytes of a stored row. A tuple that ends after a cell is one written before
  columns were added, so its missing cells are NULL; one that ends inside a cell is refused (`row_codec`).
-/

namespace BasuyuDb.Executor.Tuple
open Storage

/-- A NULL sets the flag and has no bytes. -/
def encodeCell (c : Datum) : Bytes :=
  (if c.isNone then 1 else 0) :: putUint32 (c.getD []).length ++ c.getD []

/-- `encodeRow`: `storage.RowTagLive`, then the cells. -/
def encodeRow (cells : Data) : Bytes := 1 :: cells.flatMap encodeCell

/-- The loop of `decodeRow` at column `i`, `n` columns from its end, over the bytes that are left. -/
def decodeCells : Nat → Nat → Bytes → ExecM Data
  | _, 0, _ => .ok []
  | i, n + 1, [] => (none :: ·) <$> decodeCells (i + 1) n []
  | i, n + 1, null :: w :: x :: y :: z :: rest =>
    let l := ((w.val * 256 + x.val) * 256 + y.val) * 256 + z.val
    if rest.length < l then .error ⟨"XX000", "corrupt row tuple: truncated value for column %d", [formatNat i]⟩
    else ((if null = 1 then none else some (rest.take l)) :: ·) <$> decodeCells (i + 1) n (rest.drop l)
  | i, _ + 1, _ => .error ⟨"XX000", "corrupt row tuple: truncated header for column %d", [formatNat i]⟩

def decodeRow (b : Bytes) (n : Nat) : ExecM Data :=
  match b with
  | [] => .error ⟨"XX000", "corrupt row: empty value", []⟩
  | tag :: rest =>
    if tag = 0 then .error ⟨"XX000", "attempt to decode a tombstone row", []⟩ else decodeCells 0 n rest

theorem decodeCells_header (flag : Byte) {l : Nat} (hl : l < 2 ^ 32) (i n : Nat) (rest : Bytes) :
    decodeCells i (n + 1) (flag :: putUint32 l ++ rest) =
      if rest.length < l then .error ⟨"XX000", "corrupt row tuple: truncated value for column %d", [formatNat i]⟩
      else ((if flag = 1 then none else some (rest.take l)) :: ·) <$> decodeCells (i + 1) n (rest.drop l) := by
  have hread : ((l / 16777216 % 256 * 256 + l / 65536 % 256) * 256 + l / 256 % 256) * 256 + l % 256 = l := by omega
  simp only [putUint32, List.cons_append, List.nil_append, decodeCells, Fin.ofNat, hread]

variable {c : Datum} {cells : Data}

theorem decodeCells_cell (hc : (c.getD []).length < 2 ^ 32) (i n : Nat) (rest : Bytes) :
    decodeCells i (n + 1) (encodeCell c ++ rest) = (c :: ·) <$> decodeCells (i + 1) n rest := by
  have hrest : ¬ (c.getD [] ++ rest).length < (c.getD []).length := by
    rw [List.length_append]
    omega
  rw [encodeCell, List.append_assoc, decodeCells_header _ hc, if_neg hrest, List.take_left, List.drop_left]
  cases c <;> rfl

theorem decodeCells_nil (i n : Nat) : decodeCells i n [] = .ok (List.replicate n none) := by
  induction n generalizing i with
  | zero => rfl
  | succ n ih => simp [decodeCells, ih, Functor.map, Except.map, List.replicate_succ]

theorem decodeCells_cells (hfits : ∀ c ∈ cells, (c.getD []).length < 2 ^ 32) (i n : Nat) :
    decodeCells i n (cells.flatMap encodeCell) = .ok (cells.take n ++ List.replicate (n - cells.length) none) := by
  induction n generalizing i cells with
  | zero => simp [decodeCells]
  | succ n ih =>
    cases cells with
    | nil => simpa using decodeCells_nil i (n + 1)
    | cons c cells =>
      rw [List.flatMap_cons, decodeCells_cell (hfits c List.mem_cons_self),
        ih fun c hc => hfits c (List.mem_cons_of_mem _ hc)]
      simp [Except.map, Functor.map]

/-- A cell that is cut short is refused. -/
theorem decodeCells_cut (hc : (c.getD []).length < 2 ^ 32) {b : Bytes} (hb : b <+: encodeCell c) (hne : b ≠ [])
    (hlt : b.length < (encodeCell c).length) (i n : Nat) : ∃ e, decodeCells i (n + 1) b = .error e := by
  match b, hb, hne with
  | [_], _, _ | [_, _], _, _ | [_, _, _], _, _ | [_, _, _, _], _, _ => exact ⟨_, rfl⟩
  | null :: w :: x :: y :: z :: rest, hb, _ =>
    simp only [encodeCell, putUint32, List.cons_append, List.nil_append, List.cons_prefix_cons] at hb
    obtain ⟨rfl, rfl, rfl, rfl, rfl, -⟩ := hb
    simp only [encodeCell, putUint32, List.length_cons, List.length_append, List.length_nil] at hlt
    exact ⟨_, (decodeCells_header _ hc i n rest).trans (if_pos (by omega))⟩

/-- What is read from the first bytes of a row are its first cells. -/
theorem decodeCells_take (hfits : ∀ c ∈ cells, (c.getD []).length < 2 ^ 32) {b : Bytes} (hb : b <+: cells.flatMap encodeCell)
    {i : Nat} {out : Data} (h : decodeCells i cells.length b = .ok out) :
    ∃ k, out = cells.take k ++ List.replicate (cells.length - k) none := by
  induction cells generalizing i b out with
  | nil => exact ⟨0, (Except.ok.inj h).symm⟩
  | cons c cells ih =>
    rw [List.flatMap_cons] at hb
    have hc := hfits c List.mem_cons_self
    by_cases hne : b = []
    · subst hne
      exact ⟨0, by simpa using h.symm.trans (decodeCells_nil i _)⟩
    · rcases Nat.lt_or_ge b.length (encodeCell c).length with hlt | hge
      · have hcut := List.prefix_of_prefix_length_le hb (List.prefix_append ..) hlt.le
        obtain ⟨e, he⟩ := decodeCells_cut hc hcut hne hlt i cells.length
        cases he.symm.trans h
      · obtain ⟨rest, rfl⟩ := List.prefix_of_prefix_length_le (List.prefix_append ..) hb hge
        rw [List.length_cons, decodeCells_cell hc] at h
        cases hrest : decodeCells (i + 1) cells.length rest with
        | error e => exact nomatch (hrest ▸ h : (c :: ·) <$> Except.error e = Except.ok out)
        | ok out' =>
          obtain ⟨k, rfl⟩ := ih (fun c hc => hfits c (List.mem_cons_of_mem _ hc)) ((List.prefix_append_right_inj _).mp hb) hrest
          rw [hrest] at h
          exact ⟨k + 1, by simpa using (Except.ok.inj h).symm⟩

theorem takeD_eq (cells : Data) (n : Nat) : cells.takeD n none = cells.take n ++ List.replicate (n - cells.length) none := by
  induction n generalizing cells with
  | zero => simp
  | succ n ih => cases cells <;> simp [ih, List.replicate_succ]

/-- The bytes decode as the rows of the store do. -/
theorem decodeRow_encodeRow (hfits : ∀ c ∈ cells, (c.getD []).length < 2 ^ 32) (n : Nat) :
    decodeRow (encodeRow cells) n = Executor.decodeRow (Executor.encodeRow cells) n := by
  rw [Executor.encodeRow, Executor.decodeRow, takeD_eq]
  exact decodeCells_cells hfits 0 n

/-- A row is decoded to its cells, cut or filled with NULLs to the columns asked for, and the bytes cut off a row are
missed or make its last cells NULL. -/
theorem row_codec (cells : Data) (hfits : ∀ c ∈ cells, (c.getD []).length < 2 ^ 32) :
    (∀ n, decodeRow (encodeRow cells) n = .ok (cells.take n ++ List.replicate (n - cells.length) none)) ∧
      ∀ b, b <+: encodeRow cells → b ≠ encodeRow cells → ∀ out, decodeRow b cells.length = .ok out →
        ∃ k, out = cells.take k ++ List.replicate (cells.length - k) none := by
  refine ⟨decodeCells_cells hfits 0, fun b hb _ out hout => ?_⟩
  match b with
  | [] => cases hout
  | tag :: rest =>
    obtain ⟨rfl, hrest⟩ := List.cons_prefix_cons.mp hb
    exact decodeCells_take hfits hrest hout

/-- The row (a, NULL) with a column more, and without its last cell. -/
theorem row_codec_two :
    decodeRow (encodeRow [some (str "a"), none]) 3 = .ok [some (str "a"), none, none] ∧
      ∃ k, [some (str "a"), none] = [some (str "a"), none].take k ++ List.replicate (2 - k) (none : Datum) :=
  have hcodec := row_codec [some (str "a"), none] (by simp [str])
  ⟨hcodec.1 3, hcodec.2 (encodeRow [some (str "a")]) (by decide) (by decide) _ ((row_codec _ (by simp [str])).1 2)⟩

end BasuyuDb.Executor.Tuple
