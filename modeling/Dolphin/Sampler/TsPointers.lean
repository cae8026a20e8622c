import Dolphin.Sampler.ParallelSampler

/-!
# The pointers of the CPU sampler

The pointer of a node stays in the node's row and only moves forward. Behind the pointer
there is nothing before the time of any root of the layer, whatever the order of the
critical sections and whatever the pointers were before. So the entries the sampling loop
takes are the most recent ones before the root's time.
-/

namespace Dolphin.Sampler.ParallelSampler

open Dolphin.Graph Dolphin.Semantics

variable {g : TemporalCsr}

/-! ## One critical section -/

/-- No entry of the row behind `p` is before `ts`. -/
def Covers (g : TemporalCsr) (n ts p : Nat) : Prop :=
  ∀ q, g.InRow n q → p < q → ts ≤ g.tsAt q

theorem Covers.mono {n ts p next : Nat} (covers : Covers g n ts p) (forward : p ≤ next) :
    Covers g n ts next :=
  fun q inRow behind => covers q inRow (forward.trans_lt behind)

/-- Where the loop leaves a pointer that is in its row. -/
structure Advanced (g : TemporalCsr) (n ts ptr next : Nat) : Prop where
  inRow : g.InRow n next
  forward : ptr ≤ next
  covers : Covers g n ts next

/-- The loop passes all entries before `ts`, and stops in the row. -/
theorem advance_spec {n ts ptr fuel j : Nat} (sorted : g.SortedRow n) (inRow : g.InRow n ptr)
    (start : ptr ≤ j) (inside : j < g.rowEnd n) (enough : g.rowEnd n ≤ j + fuel) :
    Advanced g n ts ptr (advance g n ts ptr fuel j) := by
  induction fuel generalizing j with
  | zero => omega
  | succ fuel ih =>
      have low := inRow.1
      rw [advance, if_pos inside]
      by_cases late : ts ≤ g.tsAt j
      · have behind : ∀ q, g.InRow n q → j ≤ q → ts ≤ g.tsAt q :=
          fun q own after => late.trans (sorted j q (low.trans start) after own.2)
        rw [if_pos late]
        by_cases moved : j = ptr
        · rw [if_neg (not_not.mpr moved)]
          exact ⟨inRow, Nat.le_refl _, fun q own after => behind q own (by omega)⟩
        · rw [if_pos moved]
          exact ⟨⟨by omega, by omega⟩, by omega, fun q own after => behind q own (by omega)⟩
      · rw [if_neg late]
        by_cases last : j = g.rowEnd n - 1
        · rw [if_pos last]
          refine ⟨⟨by omega, inside⟩, start, fun q own after => ?_⟩
          have ends := own.2
          omega
        · rw [if_neg last]
          exact ih (by omega) (by omega) (by omega)

/-- A row without entries is not searched. -/
theorem advance_empty {n ts ptr fuel j : Nat} (ends : g.rowEnd n ≤ j) :
    advance g n ts ptr fuel j = ptr := by
  cases fuel with
  | zero => rfl
  | succ fuel => rw [advance, if_neg (Nat.not_lt.mpr ends)]

/-! ## The invariant -/

/-- A node with entries is a node of the graph. -/
theorem row_known {n : Nat} (nonempty : g.rowStart n < g.rowEnd n) : n + 1 < g.indptr.length := by
  by_contra outside
  simp [TemporalCsr.rowEnd, List.getElem?_eq_none (Nat.not_lt.mp outside)] at nonempty

/-- At the start a pointer is at the start of its row. -/
theorem reset_getD {n : Nat} (known : n + 1 < g.indptr.length) :
    g.indptr.dropLast.getD n 0 = g.rowStart n := by
  have inside : n < g.indptr.length - 1 := by omega
  rw [TemporalCsr.rowStart, List.getD_eq_getElem?_getD, List.getD_eq_getElem?_getD,
    List.getElem?_dropLast, if_pos inside]

/-- The pointers of nodes with entries are in their rows, the others are at the start. -/
structure Pointed (g : TemporalCsr) (ptr : List Nat) : Prop where
  length : ptr.length = g.indptr.length - 1
  inRow : ∀ n, g.rowStart n < g.rowEnd n → g.InRow n (ptr.getD n 0)
  empty : ∀ n, g.rowEnd n ≤ g.rowStart n → ptr.getD n 0 = g.indptr.dropLast.getD n 0

theorem pointed_reset (g : TemporalCsr) : Pointed g g.indptr.dropLast where
  length := List.length_dropLast
  inRow := by
    intro n nonempty
    rw [reset_getD (row_known nonempty)]
    exact ⟨Nat.le_refl _, nonempty⟩
  empty := fun _ _ => rfl

/-- In a row without entries the pointer is where the row ends. -/
theorem Pointed.empty_eq (wellFormed : g.WellFormed) {ptr : List Nat} (pointed : Pointed g ptr)
    {n : Nat} (empty : g.rowEnd n ≤ g.rowStart n) :
    ptr.getD n 0 = g.indptr.dropLast.getD n 0 ∧ g.rowEnd n = ptr.getD n 0 := by
  rw [pointed.empty n empty]
  refine ⟨rfl, ?_⟩
  rcases Nat.lt_or_ge (n + 1) g.indptr.length with known | unknown
  · rw [reset_getD known]
    refine Nat.le_antisymm empty ?_
    have order := List.pairwise_iff_getElem.mp wellFormed.rows n (n + 1) (by omega) known
      (Nat.lt_succ_self n)
    simpa [TemporalCsr.rowStart, TemporalCsr.rowEnd, known, Nat.lt_of_succ_lt known] using order
  · have outside : g.indptr.dropLast.length ≤ n := by
      rw [List.length_dropLast]
      omega
    simp [TemporalCsr.rowEnd, List.getElem?_eq_none unknown, List.getElem?_eq_none outside]

/-- What a critical section does to the pointers. -/
structure Moved (g : TemporalCsr) (root : Root) (ptr next : List Nat) : Prop where
  pointed : Pointed g next
  forward : ∀ n, ptr.getD n 0 ≤ next.getD n 0
  covers : Covers g root.1 root.2 (next.getD root.1 0)

theorem getD_set_ne {xs : List Nat} {n m : Nat} (different : m ≠ n) (value : Nat) :
    (xs.set n value).getD m 0 = xs.getD m 0 := by
  simp [List.getElem?_set_ne different.symm]

/-- Writing what is there changes nothing. -/
theorem set_getD_self (xs : List Nat) (n : Nat) : xs.set n (xs.getD n 0) = xs := by
  apply List.ext_getElem?
  intro m
  by_cases same : n = m
  · subst same
    by_cases bound : n < xs.length
    · simp [bound]
    · rw [List.set_eq_of_length_le (Nat.not_lt.mp bound)]
  · rw [List.getElem?_set_ne same]

/-- The pointer of a node with entries moves forward in its row. -/
theorem Pointed.set {ptr : List Nat} (pointed : Pointed g ptr) {n ts next : Nat}
    (nonempty : g.rowStart n < g.rowEnd n) (advanced : Advanced g n ts (ptr.getD n 0) next) :
    Moved g (n, ts) ptr (ptr.set n next) := by
  have own : (ptr.set n next).getD n 0 = next := by
    have bound : n < ptr.length := by
      rw [pointed.length]
      exact Nat.lt_sub_of_add_lt (row_known nonempty)
    simp [bound]
  refine ⟨⟨by rw [List.length_set, pointed.length], ?_, ?_⟩, ?_, ?_⟩
  · intro m filled
    by_cases same : m = n
    · subst same
      rw [own]
      exact advanced.inRow
    · rw [getD_set_ne same]
      exact pointed.inRow m filled
  · intro m empty
    have different : m ≠ n := by
      rintro rfl
      exact Nat.not_lt.mpr empty nonempty
    rw [getD_set_ne different]
    exact pointed.empty m empty
  · intro m
    by_cases same : m = n
    · subst same
      rw [own]
      exact advanced.forward
    · rw [getD_set_ne same]
  · rw [own]
    exact advanced.covers

/-- A critical section keeps the invariant and covers its root. -/
theorem Pointed.criticalSection (wellFormed : g.WellFormed) {ptr : List Nat}
    (pointed : Pointed g ptr) {roots : List Root} {i : Nat} {root : Root}
    (own : roots[i]? = some root) : Moved g root ptr (criticalSection g roots ptr i) := by
  obtain ⟨n, ts⟩ := root
  simp only [ParallelSampler.criticalSection, own]
  rcases Nat.lt_or_ge (g.rowStart n) (g.rowEnd n) with nonempty | empty
  · have here := pointed.inRow n nonempty
    exact pointed.set nonempty (advance_spec (wellFormed.sorted n) here (Nat.le_refl _) here.2
      (Nat.add_sub_cancel' here.2.le).ge)
  · rw [advance_empty (pointed.empty_eq wellFormed empty).2.le, set_getD_self]
    refine ⟨pointed, fun _ => Nat.le_refl _, fun q inRow _ => ?_⟩
    exact absurd (inRow.1.trans_lt inRow.2) (Nat.not_lt.mpr empty)

/-- All critical sections of a layer, in any order: each of their roots is covered. -/
theorem Pointed.updateTsPtr (wellFormed : g.WellFormed) {ptr : List Nat}
    (pointed : Pointed g ptr) {roots : List Root} {order : List Nat}
    (known : ∀ i ∈ order, i < roots.length) :
    Pointed g (updateTsPtr g roots order ptr) ∧
      (∀ n, ptr.getD n 0 ≤ (updateTsPtr g roots order ptr).getD n 0) ∧
      ∀ i ∈ order, ∀ root, roots[i]? = some root →
        Covers g root.1 root.2 ((updateTsPtr g roots order ptr).getD root.1 0) := by
  induction order generalizing ptr with
  | nil => exact ⟨pointed, fun _ => Nat.le_refl _, fun i member => absurd member List.not_mem_nil⟩
  | cons i order ih =>
      obtain ⟨here, rest⟩ := List.forall_mem_cons.mp known
      have moved := pointed.criticalSection wellFormed (List.getElem?_eq_getElem here)
      obtain ⟨next, forward, covers⟩ := ih moved.pointed rest
      refine ⟨next, fun n => (moved.forward n).trans (forward n), ?_⟩
      intro j member root own
      rcases List.mem_cons.mp member with rfl | later
      · obtain rfl : roots[j] = root :=
          Option.some.inj ((List.getElem?_eq_getElem here).symm.trans own)
        exact moved.covers.mono (forward _)
      · exact covers j later root own

end Dolphin.Sampler.ParallelSampler
