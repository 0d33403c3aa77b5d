import BasuyuDb.Lib.Prog

/-
  The keys a program touches. `Read.In`: a read asks for keys with `P` only; two snapshots that agree
  on these keys answer it alike (`In.same`).
-/

namespace KvLib

variable {K V R E A B : Type} [LinearOrder K]

/-- The keys with `P` have the same entries in both snapshots. -/
structure Snap.AgreeOn (P : K → Prop) (s s' : Snap K V) : Prop where
  lookup : ∀ k, P k → s.map.lookup k = s'.map.lookup k
  ts : s.ts = s'.ts

/-- The read asks for keys with `P` only. -/
def Read.In (mem : R → K → Bool) (P : K → Prop) : Read K V R → Prop
  | .get k _ => P k
  | .scan r _ => ∀ k, mem r k = true → P k
  | .readTs => True

section reads
variable {mem : R → K → Bool} {P : K → Prop} {s s' : Snap K V} {buf : List (Mutation K V)} {i : Nat}

theorem Snap.AgreeOn.seen (h : s.AgreeOn P s') {k : K} (hk : P k) (buf : List (Mutation K V)) :
    (s.seen buf).lookup k = (s'.seen buf).lookup k := by
  unfold Snap.seen
  rw [lookup_overlay, lookup_overlay, h.lookup k hk]

theorem Read.In.same {r : Read K V R} (h : r.In mem P) (hs : s.AgreeOn P s') : r.Same mem s s' := by
  cases r with
  | get k buf => exact hs.seen h buf
  | scan r buf => exact OrdMap.scan_congr fun k hk => hs.seen (h k hk) buf
  | readTs => exact hs.ts

end reads

omit [LinearOrder K] in
theorem Prog.collect_congr {X : Type} {f g : X → Prog K V R E (Option A)} {xs : List X} (h : ∀ x ∈ xs, f x = g x) :
    Prog.collect xs f = Prog.collect xs g := by
  induction xs with
  | nil => rfl
  | cons x xs ih =>
    simp only [Prog.collect, h x List.mem_cons_self, ih fun y hy => h y (List.mem_cons_of_mem _ hy)]

end KvLib
