import BasuyuDb.Lib.Versions

/-
  Programs that run inside one transaction: they read keys and ranges of keys, buffer
  mutations, ask for the read timestamp and for fresh numbers (the evaluations of volatile
  functions), and end in a value or an error. A program sees its snapshot with its own
  buffer on top. `exec` runs it; `wp` is the precondition under which every value it ends in
  meets a postcondition on the buffer (a program that ends in an error meets any, its buffer
  is thrown away). `exec_congr`: a program does the same on every snapshot that gives the
  same answers to its reads.
-/

namespace KvLib
open List

/-- `R` is the type of ranges, `E` of errors, `A` of results. -/
inductive Prog (K V R E A : Type) where
  | pure (a : A)
  | throw (e : E)
  | get (k : K) (next : Option V → Prog K V R E A)
  | scan (r : R) (next : List (K × V) → Prog K V R E A)
  | put (m : Mutation K V) (next : Prog K V R E A)
  | readTs (next : Nat → Prog K V R E A)
  | fresh (next : Nat → Prog K V R E A)

variable {K V R E A B X : Type}

namespace Prog

def bind (p : Prog K V R E A) (f : A → Prog K V R E B) : Prog K V R E B :=
  match p with
  | pure a => f a
  | throw e => throw e
  | get k next => get k fun o => (next o).bind f
  | scan r next => scan r fun l => (next l).bind f
  | put m next => put m (next.bind f)
  | readTs next => readTs fun n => (next n).bind f
  | fresh next => fresh fun n => (next n).bind f

instance : Monad (Prog K V R E) where
  pure := Prog.pure
  bind := Prog.bind

def ofExcept : Except E A → Prog K V R E A
  | .ok a => .pure a
  | .error e => .throw e

theorem pure_bind (a : A) (f : A → Prog K V R E B) : (Pure.pure a >>= f : Prog K V R E B) = f a := rfl

theorem bind_assoc {C : Type} (p : Prog K V R E A) (f : A → Prog K V R E B) (g : B → Prog K V R E C) :
    (p >>= f) >>= g = p >>= fun a => f a >>= g := by
  change (p.bind f).bind g = p.bind fun a => (f a).bind g
  induction p with
  | pure a | throw e => rfl
  | get k next ih => exact congrArg (get k) (funext ih)
  | scan r next ih => exact congrArg (scan r) (funext ih)
  | put m next ih => exact congrArg (put m) ih
  | readTs next ih => exact congrArg readTs (funext ih)
  | fresh next ih => exact congrArg fresh (funext ih)

/-! The primitives as programs. -/

def read (k : K) : Prog K V R E (Option V) := .get k .pure

def range (r : R) : Prog K V R E (List (K × V)) := .scan r .pure

def write (m : Mutation K V) : Prog K V R E Unit := .put m (.pure ())

def timestamp : Prog K V R E Nat := .readTs .pure

/-- A number not supplied before. -/
def tick : Prog K V R E Nat := .fresh .pure

/-- Run the body for each element of a list, in order. -/
def forEach : List X → (X → Prog K V R E Unit) → Prog K V R E Unit
  | [], _ => .pure ()
  | x :: xs, f => (f x).bind fun _ => forEach xs f

/-- Run the body for each element, in order, and keep the results there are. -/
def collect {Y : Type} : List X → (X → Prog K V R E (Option Y)) → Prog K V R E (List Y)
  | [], _ => .pure []
  | x :: xs, f => (f x).bind fun o => (collect xs f).bind fun ys => .pure (o.toList ++ ys)

/-- The body for each element, with the elements that have a result. -/
def collectWith {Y : Type} (xs : List X) (f : X → Prog K V R E (Option Y)) : Prog K V R E (List (X × Y)) :=
  collect xs fun x => f x >>= fun o => Pure.pure (o.map fun y => (x, y))

theorem collect_eq_collectWith {Y : Type} (xs : List X) (f : X → Prog K V R E (Option Y)) :
    collect xs f = collectWith xs f >>= fun ps => Pure.pure (ps.map Prod.snd) := by
  unfold collectWith
  induction xs with
  | nil => rfl
  | cons x xs ih =>
    change (f x >>= fun o => collect xs f >>= fun ys => Pure.pure (o.toList ++ ys)) =
      ((f x >>= fun o => Pure.pure (o.map fun y => (x, y))) >>= fun o => _ >>= fun ps => Pure.pure (o.toList ++ ps))
        >>= fun ps => Pure.pure (ps.map Prod.snd)
    rw [ih]
    simp only [bind_assoc, pure_bind]
    congr 1
    funext o
    congr 1
    funext ps
    cases o with
    | none | some y => rfl

end Prog

open Prog hiding pure bind

/-! ## What a program may write -/

/-- Whatever its reads answer, the program buffers only mutations with `P`. -/
def Prog.Writes (P : Mutation K V → Prop) : Prog K V R E A → Prop
  | .pure _ => True
  | .throw _ => True
  | .get _ next => ∀ o, (next o).Writes P
  | .scan _ next => ∀ l, (next l).Writes P
  | .put m next => P m ∧ next.Writes P
  | .readTs next => ∀ n, (next n).Writes P
  | .fresh next => ∀ n, (next n).Writes P

section writes
variable {P P' : Mutation K V → Prop} {p : Prog K V R E A}

theorem Prog.Writes.mono (hp : p.Writes P) (h : ∀ m, P m → P' m) : p.Writes P' := by
  induction p with
  | pure a | throw e => trivial
  | get k next ih => exact fun o => ih o (hp o)
  | scan r next ih => exact fun l => ih l (hp l)
  | put m next ih => exact ⟨h m hp.1, ih hp.2⟩
  | readTs next ih | fresh next ih => exact fun n => ih n (hp n)

theorem Prog.Writes.bind {f : A → Prog K V R E B} (hp : p.Writes P)
    (hf : ∀ a, (f a).Writes P) : (p >>= f).Writes P := by
  change (p.bind f).Writes P
  induction p with
  | pure a => exact hf a
  | throw e => trivial
  | get k next ih => exact fun o => ih o (hp o)
  | scan r next ih => exact fun l => ih l (hp l)
  | put m next ih => exact ⟨hp.1, ih hp.2⟩
  | readTs next ih | fresh next ih => exact fun n => ih n (hp n)

theorem Prog.Writes.forEach {f : X → Prog K V R E Unit} {xs : List X}
    (h : ∀ x ∈ xs, (f x).Writes P) : (Prog.forEach xs f).Writes P := by
  induction xs with
  | nil => trivial
  | cons x xs ih =>
    exact Writes.bind (h x mem_cons_self)
      (fun _ => ih fun y hy => h y (mem_cons_of_mem _ hy))

theorem Prog.Writes.pure (a : A) : (Pure.pure a : Prog K V R E A).Writes P := trivial

theorem Prog.Writes.throw (e : E) : (Prog.throw e : Prog K V R E A).Writes P := trivial

theorem Prog.Writes.ofExcept (x : Except E A) : (Prog.ofExcept x : Prog K V R E A).Writes P := by
  cases x with
  | ok a | error e => trivial

theorem Prog.Writes.read (k : K) : (Prog.read k : Prog K V R E _).Writes P := fun _ => trivial

theorem Prog.Writes.range (r : R) : (Prog.range r : Prog K V R E _).Writes P := fun _ => trivial

theorem Prog.Writes.tick : (Prog.tick : Prog K V R E _).Writes P := fun _ => trivial

theorem Prog.Writes.write {m : Mutation K V} (h : P m) : (Prog.write m : Prog K V R E _).Writes P := ⟨h, trivial⟩

end writes

/-! ## Execution -/

/-- What a transaction reads from: a state and the timestamp it has. -/
structure Snap (K V : Type) [LinearOrder K] where
  map : OrdMap K V
  ts : Nat

variable [LinearOrder K]

/-- The state a program sees: its snapshot with its buffer on top. -/
def Snap.seen (s : Snap K V) (buf : List (Mutation K V)) : OrdMap K V := overlay s.map buf

theorem Snap.seen_nil (s : Snap K V) : s.seen [] = s.map := rfl

theorem Snap.seen_concat (s : Snap K V) (buf : List (Mutation K V)) (m : Mutation K V) :
    s.seen (buf ++ [m]) = (s.seen buf).set m.key m.effect := by
  unfold Snap.seen
  rw [overlay_append]
  rfl

variable {buf : List (Mutation K V)} {mem : R → K → Bool} {s : Snap K V} {p : Prog K V R E A} {i : Nat}

/-- Writes on other keys do not matter for a key. -/
theorem Snap.lookup_seen_append (s : Snap K V) {ms : List (Mutation K V)} {k : K}
    (h : ∀ m ∈ ms, m.key ≠ k) : (s.seen (buf ++ ms)).lookup k = (s.seen buf).lookup k := by
  unfold Snap.seen
  rw [overlay_append, lookup_overlay, lastEffect_eq_none.mpr h]
  rfl

/-- What a key holds: what the snapshot has there, or what a write of the buffer left. -/
theorem Snap.lookup_seen_cases (s : Snap K V) (buf : List (Mutation K V)) (k : K) :
    (s.seen buf).lookup k = s.map.lookup k ∨ ∃ m ∈ buf, m.key = k ∧ (s.seen buf).lookup k = m.effect := by
  unfold Snap.seen
  rw [lookup_overlay]
  cases hlast : lastEffect buf k with
  | none => exact .inl rfl
  | some e =>
    obtain ⟨m, hm, hkey, heff⟩ := lastEffect_mem hlast
    exact .inr ⟨m, hm, hkey, heff.symm⟩

/-- What a key holds that was written. -/
theorem Snap.lookup_seen_mem (s : Snap K V) {m : Mutation K V} (h : m ∈ buf) :
    ∃ m' ∈ buf, m'.key = m.key ∧ (s.seen buf).lookup m.key = m'.effect := by
  obtain ⟨e, he⟩ := lastEffect_of_mem h
  obtain ⟨m', hm', hkey, heff⟩ := lastEffect_mem he
  unfold Snap.seen
  rw [lookup_overlay, he, ← heff]
  exact ⟨m', hm', hkey, rfl⟩

/-- The result, the buffer, and the number the next `fresh` would supply; `mem r k`: the key is in the range. -/
def Prog.run (mem : R → K → Bool) (s : Snap K V) :
    Prog K V R E A → List (Mutation K V) → Nat → Except E (A × List (Mutation K V) × Nat)
  | .pure a, buf, i => .ok (a, buf, i)
  | .throw e, _, _ => .error e
  | .get k next, buf, i => (next ((s.seen buf).lookup k)).run mem s buf i
  | .scan r next, buf, i => (next ((s.seen buf).scan (mem r))).run mem s buf i
  | .put m next, buf, i => next.run mem s (buf ++ [m]) i
  | .readTs next, buf, i => (next s.ts).run mem s buf i
  | .fresh next, buf, i => (next i).run mem s buf (i + 1)

def Prog.exec (mem : R → K → Bool) (s : Snap K V) (p : Prog K V R E A) (buf : List (Mutation K V)) (i : Nat) :
    Except E (A × List (Mutation K V)) := (p.run mem s buf i).map fun x => (x.1, x.2.1)

section run

theorem Prog.exec_eq_run (p : Prog K V R E A) :
    p.exec mem s buf i = (p.run mem s buf i).map fun x => (x.1, x.2.1) := rfl

theorem Prog.run_bind (p : Prog K V R E A) (f : A → Prog K V R E B) : (p >>= f).run mem s buf i =
      (p.run mem s buf i).bind (fun x => (f x.1).run mem s x.2.1 x.2.2) := by
  change (p.bind f).run mem s buf i = _
  induction p generalizing buf i with
  | pure a | throw e => rfl
  | get k next ih | scan r next ih => exact ih _
  | put m next ih => exact ih
  | readTs next ih | fresh next ih => exact ih _

/-- A run of a sequence that ends well is a run of its first part and one of the rest. -/
theorem Prog.run_bind_ok {p : Prog K V R E A} {f : A → Prog K V R E B} {x : B × List (Mutation K V) × Nat}
    (h : (p >>= f).run mem s buf i = .ok x) : ∃ a buf' i', p.run mem s buf i = .ok (a, buf', i') ∧
      (f a).run mem s buf' i' = .ok x := by
  rw [run_bind] at h
  cases hp : p.run mem s buf i with
  | error e =>
    rw [hp] at h
    cases h
  | ok y =>
    rw [hp] at h
    exact ⟨y.1, y.2.1, y.2.2, rfl, h⟩

theorem Prog.run_of_exec {p : Prog K V R E A} {a : A} {buf' : List (Mutation K V)}
    (h : p.exec mem s buf i = .ok (a, buf')) : ∃ i', p.run mem s buf i = .ok (a, buf', i') := by
  rw [exec_eq_run] at h
  cases hr : p.run mem s buf i with
  | error e =>
    rw [hr] at h
    cases h
  | ok x =>
    rw [hr] at h
    cases h
    exact ⟨x.2.2, rfl⟩

theorem Prog.run_pure (a : A) : (Pure.pure a : Prog K V R E A).run mem s buf i = .ok (a, buf, i) := rfl

theorem Prog.run_read (k : K) :
    (Prog.read k : Prog K V R E _).run mem s buf i = .ok ((s.seen buf).lookup k, buf, i) := rfl

theorem Prog.run_range (r : R) :
    (Prog.range r : Prog K V R E _).run mem s buf i = .ok ((s.seen buf).scan (mem r), buf, i) := rfl

theorem Prog.run_ofExcept (x : Except E A) :
    (Prog.ofExcept x : Prog K V R E A).run mem s buf i = x.map (fun a => (a, buf, i)) := by
  cases x with
  | ok a | error e => rfl

theorem Prog.run_ofExcept_ok {x : Except E A} {a : A} {buf' : List (Mutation K V)} {i' : Nat}
    (h : (Prog.ofExcept x : Prog K V R E A).run mem s buf i = .ok (a, buf', i')) :
    x = .ok a ∧ buf' = buf ∧ i' = i := by
  rw [run_ofExcept] at h
  cases x with
  | error e => cases h
  | ok b =>
    obtain ⟨rfl, rfl, rfl⟩ : b = a ∧ buf = buf' ∧ i = i' := by simpa [Except.map] using h
    exact ⟨rfl, rfl, rfl⟩

/-- A loop of reads collects what they answer. -/
theorem Prog.run_collect {Y : Type} {f : X → Prog K V R E (Option Y)} {g : X → Option Y} {xs : List X}
    (h : ∀ x ∈ xs, (f x).run mem s buf i = .ok (g x, buf, i)) :
    (Prog.collect xs f).run mem s buf i = .ok (xs.filterMap g, buf, i) := by
  induction xs with
  | nil => rfl
  | cons x xs ih =>
    have ih := ih fun y hy => h y (mem_cons_of_mem _ hy)
    change ((f x) >>= fun o => Prog.collect xs f >>= fun ys => pure (o.toList ++ ys)).run mem s buf i = _
    simp only [run_bind, h x mem_cons_self, ih, Except.bind]
    cases hx : g x with
    | none => rw [filterMap_cons_none hx]; rfl
    | some y => rw [filterMap_cons_some hx]; rfl

/-- A loop of writes buffers them in order. -/
theorem Prog.run_writes (ms : List (Mutation K V)) :
    (Prog.forEach ms Prog.write : Prog K V R E Unit).run mem s buf i = .ok ((), buf ++ ms, i) := by
  induction ms generalizing buf with
  | nil => exact congrArg (fun b => Except.ok ((), b, i)) (append_nil buf).symm
  | cons m ms ih =>
    change (Prog.forEach ms Prog.write : Prog K V R E Unit).run mem s (buf ++ [m]) i = _
    rw [ih, append_assoc]
    rfl

end run

/-! ## Weakest preconditions -/

def Prog.wp (mem : R → K → Bool) (s : Snap K V) (p : Prog K V R E A)
    (Q : A → List (Mutation K V) → Prop) (buf : List (Mutation K V)) : Prop :=
  match p with
  | .pure a => Q a buf
  | .throw _ => True
  | .get k next => (next ((s.seen buf).lookup k)).wp mem s Q buf
  | .scan r next => (next ((s.seen buf).scan (mem r))).wp mem s Q buf
  | .put m next => next.wp mem s Q (buf ++ [m])
  | .readTs next => (next s.ts).wp mem s Q buf
  | .fresh next => ∀ n, (next n).wp mem s Q buf

section wp

@[simp] theorem Prog.wp_pure {a : A} {Q : A → List (Mutation K V) → Prop} :
    (Pure.pure a : Prog K V R E A).wp mem s Q buf ↔ Q a buf := Iff.rfl

variable {Q : A → List (Mutation K V) → Prop} {xs : List X} {Q' : A → List (Mutation K V) → Prop} {a : A}
  {buf' : List (Mutation K V)}

theorem Prog.wp_mono (hp : p.wp mem s Q buf) (h : ∀ a buf', Q a buf' → Q' a buf') : p.wp mem s Q' buf := by
  induction p generalizing buf with
  | pure a => exact h a buf hp
  | throw e => trivial
  | get k next ih | scan r next ih => exact ih _ hp
  | put m next ih => exact ih hp
  | readTs next ih => exact ih _ hp
  | fresh next ih => exact fun n => ih n (hp n)

theorem Prog.wp_forall {ι : Type} {Q : ι → A → List (Mutation K V) → Prop}
    (hp : ∀ i, p.wp mem s (Q i) buf) : p.wp mem s (fun a buf' => ∀ i, Q i a buf') buf := by
  induction p generalizing buf with
  | pure a => exact hp
  | throw e => trivial
  | get k next ih | scan r next ih => exact ih _ hp
  | put m next ih => exact ih hp
  | readTs next ih => exact ih _ hp
  | fresh next ih => exact fun n => ih n fun i => hp i n

theorem Prog.wp_any (h : ∀ a buf', Q a buf') : p.wp mem s Q buf :=
  wp_mono (wp_forall (Q := fun _ : Empty => Q) nofun) fun a buf' _ => h a buf'

theorem Prog.wp_true : p.wp mem s (fun _ _ => True) buf := wp_any fun _ _ => trivial

theorem Prog.wp_and (hp : p.wp mem s Q buf) (hp' : p.wp mem s Q' buf) :
    p.wp mem s (fun a buf' => Q a buf' ∧ Q' a buf') buf := by
  refine wp_mono (wp_forall (Q := fun b => bif b then Q else Q') fun b => ?_) fun _ _ h => ⟨h true, h false⟩
  cases b with
  | true => exact hp
  | false => exact hp'

@[simp] theorem Prog.wp_bind {p : Prog K V R E A} {f : A → Prog K V R E B} {Q : B → List (Mutation K V) → Prop} :
    (p >>= f).wp mem s Q buf ↔ p.wp mem s (fun a buf' => (f a).wp mem s Q buf') buf := by
  change (p.bind f).wp mem s Q buf ↔ _
  induction p generalizing buf with
  | pure a | throw e => exact Iff.rfl
  | get k next ih | scan r next ih => exact ih _
  | put m next ih => exact ih
  | readTs next ih => exact ih _
  | fresh next ih => exact forall_congr' fun n => ih n

@[simp] theorem Prog.wp_ofExcept {x : Except E A} {Q : A → List (Mutation K V) → Prop} :
    (Prog.ofExcept x : Prog K V R E A).wp mem s Q buf ↔ ∀ a, x = .ok a → Q a buf := by
  cases x with
  | ok a =>
    constructor
    · intro h b hb
      cases hb
      exact h
    · exact fun h => h a rfl
  | error e =>
    constructor
    · intro _ a ha
      cases ha
    · exact fun _ => trivial

@[simp] theorem Prog.wp_throw {e : E} {Q : A → List (Mutation K V) → Prop} :
    (Prog.throw e : Prog K V R E A).wp mem s Q buf ↔ True := Iff.rfl

@[simp] theorem Prog.wp_read {k : K} {Q : Option V → List (Mutation K V) → Prop} :
    (Prog.read k : Prog K V R E _).wp mem s Q buf ↔ Q ((s.seen buf).lookup k) buf := Iff.rfl

@[simp] theorem Prog.wp_range {r : R} {Q : List (K × V) → List (Mutation K V) → Prop} :
    (Prog.range r : Prog K V R E _).wp mem s Q buf ↔ Q ((s.seen buf).scan (mem r)) buf := Iff.rfl

@[simp] theorem Prog.wp_write {m : Mutation K V} {Q : Unit → List (Mutation K V) → Prop} :
    (Prog.write m : Prog K V R E _).wp mem s Q buf ↔ Q () (buf ++ [m]) := Iff.rfl

@[simp] theorem Prog.wp_timestamp {Q : Nat → List (Mutation K V) → Prop} :
    (Prog.timestamp : Prog K V R E _).wp mem s Q buf ↔ Q s.ts buf := Iff.rfl

@[simp] theorem Prog.wp_tick {Q : Nat → List (Mutation K V) → Prop} :
    (Prog.tick : Prog K V R E _).wp mem s Q buf ↔ ∀ n, Q n buf := Iff.rfl

/-- A body that runs only if a test passes. -/
theorem Prog.wp_guarded {Y : Type} {test : Nat → Except E Bool} {body : Nat → Prog K V R E (Option Y)}
    {Q : Option Y → List (Mutation K V) → Prop} (hskip : ∀ n, test n = .ok false → Q none buf)
    (hbody : ∀ n, test n = .ok true → (body n).wp mem s Q buf) :
    (Prog.tick >>= fun n => Prog.ofExcept (test n) >>= fun b => if b then body n else Pure.pure none).wp mem s Q buf := by
  simp only [wp_bind, wp_tick, wp_ofExcept]
  intro n b hb
  cases b with
  | false => exact hskip n hb
  | true => exact hbody n hb

/-- The rule for loops: an invariant of the elements still to come and the buffer. -/
theorem Prog.wp_forEach {f : X → Prog K V R E Unit} (I : List X → List (Mutation K V) → Prop)
    (hstep : ∀ x xs buf, I (x :: xs) buf → (f x).wp mem s (fun _ buf' => I xs buf') buf)
    (h : I xs buf) : (Prog.forEach xs f).wp mem s (fun _ buf' => I [] buf') buf := by
  induction xs generalizing buf with
  | nil => exact h
  | cons x xs ih =>
    change ((f x) >>= fun _ => Prog.forEach xs f).wp mem s _ buf
    rw [wp_bind]
    exact wp_mono (hstep x xs buf h) fun _ buf' h' => ih h'

theorem Prog.wp_collect {Y : Type} {f : X → Prog K V R E (Option Y)} (I : List X → List (Mutation K V) → Prop)
    (hstep : ∀ x xs buf, I (x :: xs) buf → (f x).wp mem s (fun _ buf' => I xs buf') buf)
    (h : I xs buf) : (Prog.collect xs f).wp mem s (fun _ buf' => I [] buf') buf := by
  induction xs generalizing buf with
  | nil => exact h
  | cons x xs ih =>
    change ((f x) >>= fun o => Prog.collect xs f >>= fun ys => pure (o.toList ++ ys)).wp mem s _ buf
    simp only [wp_bind]
    exact wp_mono (hstep x xs buf h) fun _ buf' h' => ih h'

/-- The results of a loop, element by element. -/
inductive Collected {Y : Type} (P : X → Option Y → Prop) : List X → List (X × Y) → Prop
  | nil : Collected P [] []
  | skip {x : X} {xs : List X} {ps : List (X × Y)} (hx : P x none) (h : Collected P xs ps) : Collected P (x :: xs) ps
  | keep {x : X} {y : Y} {xs : List X} {ps : List (X × Y)} (hx : P x (some y)) (h : Collected P xs ps) :
      Collected P (x :: xs) ((x, y) :: ps)

theorem Collected.sublist {Y : Type} {P : X → Option Y → Prop} {ps : List (X × Y)}
    (h : Collected P xs ps) : (ps.map Prod.fst).Sublist xs := by
  induction h with
  | nil => exact .slnil
  | skip _ _ ih => exact ih.cons _
  | keep _ _ ih => exact ih.cons_cons _

/-- The rule for a loop whose invariant speaks of the results so far. -/
theorem Prog.wp_collected {Y : Type} {f : X → Prog K V R E (Option Y)} {P : X → Option Y → Prop}
    (I : List (X × Y) → List (Mutation K V) → Prop) (done : List (X × Y))
    (hstep : ∀ x ∈ xs, ∀ done buf, I done buf → (f x).wp mem s
      (fun o buf' => P x o ∧ I (done ++ (o.map fun y => (x, y)).toList) buf') buf) (h : I done buf) :
    (Prog.collectWith xs f).wp mem s (fun ps buf' => Collected P xs ps ∧ I (done ++ ps) buf') buf := by
  unfold Prog.collectWith
  induction xs generalizing done buf with
  | nil => exact ⟨.nil, by rwa [append_nil]⟩
  | cons x xs ih =>
    change ((f x >>= fun o => Pure.pure (o.map fun y => (x, y))) >>= fun o =>
      Prog.collect xs _ >>= fun ps => Pure.pure (o.toList ++ ps)).wp mem s _ buf
    simp only [wp_bind, wp_pure]
    refine wp_mono (hstep x mem_cons_self done buf h) fun o buf1 ho => ?_
    refine wp_mono (ih _ (fun y hy => hstep y (mem_cons_of_mem _ hy)) ho.2) fun ps buf2 hps => ?_
    rw [← append_assoc]
    refine ⟨?_, hps.2⟩
    cases o with
    | none => exact .skip ho.1 hps.1
    | some y => exact .keep ho.1 hps.1

section results
variable {Y : Type} {f : X → Prog K V R E (Option Y)}

theorem Prog.wp_collected_each {P : X → Option Y → Prop} (h : ∀ x ∈ xs, ∀ buf, (f x).wp mem s (fun o _ => P x o) buf) :
    (Prog.collectWith xs f).wp mem s (fun ps _ => Collected P xs ps) buf :=
  wp_mono (wp_collected (fun _ _ => True) [] (fun x hx _ buf _ =>
    wp_mono (h x hx buf) fun _ _ ho => ⟨ho, trivial⟩) trivial) fun _ _ h => h.1

/-- The rule for what every result of a loop satisfies. -/
theorem Prog.wp_collectWith {P : X → Y → Prop}
    (h : ∀ x ∈ xs, ∀ buf, (f x).wp mem s (fun o _ => ∀ y, o = some y → P x y) buf) :
    (Prog.collectWith xs f).wp mem s (fun ps _ => ∀ p ∈ ps, p.1 ∈ xs ∧ P p.1 p.2) buf := by
  refine wp_mono (wp_collected_each h) fun ps _ hps => ?_
  clear h
  induction hps with
  | nil => exact fun p hp => absurd hp not_mem_nil
  | skip _ _ ih => exact fun p hp => (ih p hp).imp_left (mem_cons_of_mem _)
  | keep hx _ ih =>
    intro p hp
    rcases mem_cons.mp hp with rfl | hp
    · exact ⟨mem_cons_self, hx _ rfl⟩
    · exact (ih p hp).imp_left (mem_cons_of_mem _)

/-- The rule for the results of a loop at one of its elements. -/
theorem Prog.wp_collectWith_mem {x : X} {P : Prop} (h : ∀ buf, (f x).wp mem s (fun o _ => o.isSome = true ↔ P) buf) :
    (Prog.collectWith xs f).wp mem s (fun ps _ => x ∈ ps.map Prod.fst ↔ x ∈ xs ∧ P) buf := by
  have heach : ∀ z ∈ xs, ∀ buf, (f z).wp mem s (fun o _ => x = z → (o.isSome = true ↔ P)) buf := by
    intro z _ buf
    by_cases hz : x = z
    · subst hz
      exact wp_mono (h buf) fun _ _ ho _ => ho
    · exact wp_any fun _ _ hx => absurd hx hz
  refine wp_mono (wp_collected_each heach) fun ps _ hps => ?_
  clear heach
  induction hps with
  | nil => exact ⟨fun hx => absurd hx not_mem_nil, fun hx => absurd hx.1 not_mem_nil⟩
  | skip hz _ ih =>
    rw [ih, mem_cons, or_and_right]
    exact (or_iff_right fun hx => nomatch (hz hx.1).mpr hx.2).symm
  | keep hz _ ih =>
    rw [map_cons, mem_cons, ih, mem_cons, or_and_right]
    exact or_congr_left (iff_self_and.mpr fun hx => (hz hx).mp rfl)

end results

/-- What `wp` says about a run. -/
theorem Prog.wp_run {i i' : Nat} (h : p.wp mem s Q buf) (hr : p.run mem s buf i = .ok (a, buf', i')) : Q a buf' := by
  induction p generalizing buf i with
  | pure b =>
    cases hr
    exact h
  | throw e => cases hr
  | get k next ih | scan r next ih | readTs next ih => exact ih _ h hr
  | put m next ih => exact ih h hr
  | fresh next ih => exact ih _ (h i) hr

theorem Prog.wp_exec {i : Nat} (h : p.wp mem s Q buf) (he : p.exec mem s buf i = .ok (a, buf')) : Q a buf' := by
  obtain ⟨i', hr⟩ := run_of_exec he
  exact wp_run h hr

end wp

section writes
variable {P : Mutation K V → Prop}

/-- The buffer grows by mutations with `P`. -/
theorem Prog.Writes.wp {mem : R → K → Bool} {s : Snap K V} (h : p.Writes P) (buf : List (Mutation K V)) :
    p.wp mem s (fun _ buf' => ∃ ms, buf' = buf ++ ms ∧ ∀ m ∈ ms, P m) buf := by
  induction p generalizing buf with
  | pure a => exact ⟨[], (append_nil _).symm, by simp⟩
  | throw e => trivial
  | get k next ih | scan r next ih | readTs next ih => exact ih _ (h _) buf
  | put m next ih =>
    refine wp_mono (ih h.2 (buf ++ [m])) ?_
    intro _ buf' hb
    obtain ⟨ms, rfl, hms⟩ := hb
    refine ⟨m :: ms, by simp, ?_⟩
    intro m' hm'
    rcases mem_cons.mp hm' with rfl | hm'
    · exact h.1
    · exact hms m' hm'
  | fresh next ih => exact fun n => ih n (h n) buf

/-- What holds of everything buffered, and of everything a program writes, holds when it is done. -/
theorem Prog.Writes.wp_all {mem : R → K → Bool} {s : Snap K V} (h : p.Writes P) {buf : List (Mutation K V)}
    (hbuf : ∀ m ∈ buf, P m) : p.wp mem s (fun _ buf' => ∀ m ∈ buf', P m) buf := by
  refine wp_mono (h.wp buf) fun _ buf' hb => ?_
  obtain ⟨ms, rfl, hms⟩ := hb
  exact forall_mem_append.mpr ⟨hbuf, hms⟩

/-- A program that writes nothing leaves the buffer alone. -/
theorem Prog.Writes.wp_none {mem : R → K → Bool} {s : Snap K V}
    (h : p.Writes fun _ => False) {Q : A → List (Mutation K V) → Prop}
    {buf : List (Mutation K V)} (hp : ∀ a, Q a buf) : p.wp mem s Q buf := by
  refine wp_mono (h.wp buf) ?_
  intro a buf' hb
  obtain ⟨ms, rfl, hms⟩ := hb
  obtain rfl := eq_nil_iff_forall_not_mem.mpr hms
  rw [append_nil]
  exact hp a

end writes

/-! ## Reads -/

/-- A read a program made, with the buffer it had at that point. -/
inductive Read (K V R : Type) where
  | get (k : K) (buf : List (Mutation K V))
  | scan (r : R) (buf : List (Mutation K V))
  | readTs

/-- The two snapshots give the same answer. -/
def Read.Same (mem : R → K → Bool) (s s' : Snap K V) : Read K V R → Prop
  | .get k buf => (s.seen buf).lookup k = (s'.seen buf).lookup k
  | .scan r buf => (s.seen buf).scan (mem r) = (s'.seen buf).scan (mem r)
  | .readTs => s.ts = s'.ts

instance [DecidableEq V] (mem : R → K → Bool) (s s' : Snap K V) (r : Read K V R) :
    Decidable (r.Same mem s s') :=
  match r with
  | .get _ _ => inferInstanceAs (Decidable (_ = _))
  | .scan _ _ => inferInstanceAs (Decidable (_ = _))
  | .readTs => inferInstanceAs (Decidable (_ = _))

/-- The reads of an execution, in order. -/
def Prog.reads (mem : R → K → Bool) (s : Snap K V) :
    Prog K V R E A → List (Mutation K V) → Nat → List (Read K V R)
  | .pure _, _, _ => []
  | .throw _, _, _ => []
  | .get k next, buf, i => .get k buf :: (next ((s.seen buf).lookup k)).reads mem s buf i
  | .scan r next, buf, i => .scan r buf :: (next ((s.seen buf).scan (mem r))).reads mem s buf i
  | .put m next, buf, i => next.reads mem s (buf ++ [m]) i
  | .readTs next, buf, i => .readTs :: (next s.ts).reads mem s buf i
  | .fresh next, buf, i => (next i).reads mem s buf (i + 1)

/-- A program does the same on every snapshot that answers its reads alike. -/
theorem Prog.run_congr {s' : Snap K V} (h : ∀ r ∈ p.reads mem s buf i, r.Same mem s s') :
    p.run mem s' buf i = p.run mem s buf i := by
  induction p generalizing buf i with
  | pure a | throw e => rfl
  | get k next ih =>
    have hk : (s.seen buf).lookup k = (s'.seen buf).lookup k := h _ mem_cons_self
    simp only [Prog.run, ← hk]
    exact ih _ fun r hr => h r (mem_cons_of_mem _ hr)
  | scan r next ih =>
    have hr : (s.seen buf).scan (mem r) = (s'.seen buf).scan (mem r) := h _ mem_cons_self
    simp only [Prog.run, ← hr]
    exact ih _ fun r hr => h r (mem_cons_of_mem _ hr)
  | put m next ih => exact ih h
  | readTs next ih =>
    have ht : s.ts = s'.ts := h _ mem_cons_self
    simp only [Prog.run, ← ht]
    exact ih _ fun r hr => h r (mem_cons_of_mem _ hr)
  | fresh next ih => exact ih _ h

theorem Prog.exec_congr {s' : Snap K V} (h : ∀ r ∈ p.reads mem s buf i, r.Same mem s s') :
    p.exec mem s' buf i = p.exec mem s buf i := by
  rw [exec_eq_run, exec_eq_run, run_congr h]

/-! ## Where a program stops -/

/-- The answer of a program and the buffer it leaves, also when it fails. -/
def Prog.finish (mem : R → K → Bool) (s : Snap K V) :
    Prog K V R E A → List (Mutation K V) → Nat → Except E A × List (Mutation K V)
  | .pure a, buf, _ => (.ok a, buf)
  | .throw e, buf, _ => (.error e, buf)
  | .get k next, buf, i => (next ((s.seen buf).lookup k)).finish mem s buf i
  | .scan r next, buf, i => (next ((s.seen buf).scan (mem r))).finish mem s buf i
  | .put m next, buf, i => next.finish mem s (buf ++ [m]) i
  | .readTs next, buf, i => (next s.ts).finish mem s buf i
  | .fresh next, buf, i => (next i).finish mem s buf (i + 1)

/-- A buffered write stays in the buffer. -/
theorem Prog.wp_mem {m : Mutation K V} (h : m ∈ buf) : p.wp mem s (fun _ buf' => m ∈ buf') buf := by
  induction p generalizing buf with
  | pure a => exact h
  | throw e => trivial
  | get k next ih | scan r next ih => exact ih _ h
  | put m' next ih => exact ih (mem_append_left _ h)
  | readTs next ih => exact ih _ h
  | fresh next ih => exact fun n => ih n h

/-! ## One program after another -/

/-- A program run alone on a state, from a first fresh number: what it buffered becomes the
next state, unless it fails or buffered nothing. -/
def Prog.commitOn (mem : R → K → Bool) (s : Snap K V) (p : Prog K V R E A × Nat) : Snap K V :=
  match p.1.exec mem s [] p.2 with
  | .ok (_, []) => s
  | .ok (_, m :: ms) => ⟨overlay s.map (m :: ms), s.ts + 1⟩
  | .error _ => s

/-- A serial execution. -/
def Prog.serial (mem : R → K → Bool) (s : Snap K V) (ps : List (Prog K V R E A × Nat)) : Snap K V :=
  ps.foldl (Prog.commitOn mem) s

theorem Prog.commitOn_of_exec
    {a : A} {ms : List (Mutation K V)} (h : p.exec mem s [] i = .ok (a, ms)) (hne : ms ≠ []) :
    Prog.commitOn mem s (p, i) = ⟨overlay s.map ms, s.ts + 1⟩ := by
  obtain ⟨m, ms', rfl⟩ := exists_cons_of_ne_nil hne
  unfold Prog.commitOn
  rw [h]

end KvLib
