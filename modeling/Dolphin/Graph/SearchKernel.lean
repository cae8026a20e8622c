import Dolphin.Graph.FindIndex
import Dolphin.Semantics.Calls

/-!
# The search kernels

`findIndex` and `findIndexAndSet` keep the bounds of their binary search in `int`. Their
sum has no `int` when a search of a long table goes far to the right; the middle is then
negative and the read is outside of the table. Every other search ends as the one on
natural numbers does.
-/

namespace Dolphin.Graph.SearchKernel

open Dolphin.Tensor Dolphin.Semantics

variable {α : Type} [LinearOrder α] [Inhabited α]

/-! ## The kernels -/

/-- The `int` that a sum or a length is stored in. -/
def toInt (x : Int) : Int := x.bmod (2 ^ 32)

/-- How the search for an element ends; `running` is a search that has not ended. -/
inductive Outcome where
  | found (mid : Int)
  | missed
  | outside
  | running
  deriving DecidableEq

/-- `table[mid]`; there is nothing to read outside of the table. -/
def read (table : List α) (mid : Int) : Option α :=
  if 0 ≤ mid then table[mid.toNat]? else none

/-- `while (left <= right)`, for some turns. -/
def search (table : List α) (id : α) : Nat → Int → Int → Outcome
  | 0, left, right => if left ≤ right then .running else .missed
  | fuel + 1, left, right =>
      if left ≤ right then
        let mid := (toInt (left + right)).tdiv 2
        match read table mid with
        | none => .outside
        | some entry =>
            if id = entry then .found mid
            else if entry < id then search table id fuel (toInt (mid + 1)) right
            else search table id fuel left (toInt (mid - 1))
      else .missed

/-- The search from `int left = 0` and `int right = tableLen - 1`. It takes at most as many
turns as there are entries. -/
def outcome (table : List α) (id : α) : Outcome :=
  search table id table.length 0 (toInt (table.length - 1))

/-- What the thread of an element leaves in its place of `indexTable`. -/
def thread (hit : Int → Int) (table : List α) (id : α) (preset : Int) : Option Int :=
  match outcome table id with
  | .found mid => some (hit mid)
  | .missed => some preset
  | .outside | .running => none

/-- `indexTable[index] = 1` -/
def findIndex (table : List α) (id : α) (preset : Int) : Option Int :=
  thread (fun _ => 1) table id preset

/-- `indexTable[index] = mid` -/
def findIndexAndSet (table : List α) (id : α) (preset : Int) : Option Int :=
  thread (fun mid => mid) table id preset

/-- Both halves of the grid: each tensor is searched for in the other. -/
def launch (device : List α → α → Int → Option Int) (t1 t2 : List α) (table1 table2 : List Int) :
    Option (List Int × List Int) := do
  let first ← (t1.zip table1).mapM fun (id, preset) => device t2 id preset
  let second ← (t2.zip table2).mapM fun (id, preset) => device t1 id preset
  some (first, second)

def toFindSameNodeKernel (t1 t2 : List α) (table1 table2 : List Int) :
    Option (List Int × List Int) :=
  launch findIndex t1 t2 table1 table2

def toFindSameIndexKernel (t1 t2 : List α) (table1 table2 : List Int) :
    Option (List Int × List Int) :=
  launch findIndexAndSet t1 t2 table1 table2

/-- `torch.zeros_like(tensor, dtype=torch.int32) - 1` -/
def unset (tensor : List α) : List Int := List.replicate tensor.length (-1)

/-- `xs[index]` for an index that may count from the end. -/
def wrapIndex (xs : List Nat) (index : Int) : Option Nat :=
  if 0 ≤ index then xs[index.toNat]?
  else if -xs.length ≤ index then xs[(xs.length + index).toNat]? else none

/-- `find_indices(tensor1, tensor2)` -/
def findIndices (tensor1 tensor2 : List α) : Option (List Nat) := do
  let (table1, _) ← toFindSameIndexKernel tensor1 (sort tensor2) (unset tensor1) (unset tensor2)
  table1.mapM (wrapIndex (argsort tensor2))

/-! ## Searches that leave the table -/

/-- The entries among which the search starts: all of them, unless their number has no
`int`. -/
def reach (length : Nat) : Nat := (toInt (length - 1) + 1).toNat

/-- The bound `left` of a search that has gone right at each turn. -/
def rightmost (stop : Nat) : Nat → Nat
  | 0 => 0
  | turns + 1 => (rightmost stop turns + (stop - 1)) / 2 + 1

/-- After some turns the sum of the bounds has no `int`, and all entries that the search
has met on the way are below the id. -/
def Overflows (table : List α) (id : α) : Prop :=
  ∃ turns, rightmost (reach table.length) turns < reach table.length ∧
    2 ^ 31 ≤ rightmost (reach table.length) turns + (reach table.length - 1) ∧
    ∀ turn < turns, table.getD (rightmost (reach table.length) (turn + 1) - 1) default < id

/-- The search for an id stays in the table, and starts with the id's entries. -/
def Fits (table : List α) (id : α) : Prop :=
  ¬ Overflows table id ∧ (id ∈ table → id ∈ table.take (reach table.length))

/-! ## What is to be found -/

/-- The index of an entry with the id, or −1 when there is none. -/
def Locates (table : List α) (id : α) (index : Int) : Prop :=
  (∃ j : Nat, index = j ∧ table[j]? = some id) ∨ index = -1 ∧ id ∉ table

/-- 1 where there is an entry with the id. -/
def Marks (table : List α) (id : α) (mark : Int) : Prop :=
  mark = if id ∈ table then 1 else -1

/-- Both kernels end without a read outside, and have every element of each table. -/
def Matched (t1 t2 : List α) : Prop :=
  (∃ tables, toFindSameIndexKernel t1 t2 (unset t1) (unset t2) = some tables ∧
    List.Forall₂ (Locates t2) t1 tables.1 ∧ List.Forall₂ (Locates t1) t2 tables.2) ∧
  ∃ tables, toFindSameNodeKernel t1 t2 (unset t1) (unset t2) = some tables ∧
    List.Forall₂ (Marks t2) t1 tables.1 ∧ List.Forall₂ (Marks t1) t2 tables.2

/-- `find_indices` returns a position of every id. -/
def Indexed (t1 t2 : List α) : Prop :=
  ∃ r, findIndices t1 t2 = some r ∧ List.Forall₂ (fun id i => t2[i]? = some id) t1 r

/-! ## One turn -/

theorem toInt_of_small {x : Int} (low : -2 ^ 31 ≤ x) (high : x < 2 ^ 31) : toInt x = x :=
  Int.bmod_eq_of_le (by omega) (by omega)

/-- The middle of two bounds whose sum has an `int`. -/
theorem mid_eq {left stop : Nat} (isOpen : left < stop) (small : left + (stop - 1) < 2 ^ 31) :
    (toInt (left + ((stop : Int) - 1))).tdiv 2 = ((left + (stop - 1)) / 2 : Nat) := by
  have sum : (left : Int) + ((stop : Int) - 1) = ((left + (stop - 1) : Nat) : Int) := by omega
  rw [toInt_of_small (by omega) (by omega), sum]
  exact Int.ofNat_tdiv _ _

omit [LinearOrder α] [Inhabited α] in
theorem read_natCast (table : List α) (mid : Nat) : read table mid = table[mid]? := by
  rw [read, if_pos (Int.natCast_nonneg mid), Int.toNat_natCast]

omit [Inhabited α] in
theorem search_closed (table : List α) (id : α) (fuel : Nat) {left right : Int}
    (order : ¬ left ≤ right) : search table id fuel left right = .missed := by
  cases fuel with
  | zero => rw [search, if_neg order]
  | succ fuel => rw [search, if_neg order]

/-- A turn of a search whose bounds have a sum compares one entry. -/
theorem search_turn {table : List α} (id : α) (fuel : Nat) {left stop : Nat}
    (isOpen : left < stop) (bounded : stop ≤ table.length)
    (small : left + (stop - 1) < 2 ^ 31) :
    search table id (fuel + 1) left ((stop : Int) - 1) =
      if id = table.getD ((left + (stop - 1)) / 2) default then
        .found ((left + (stop - 1)) / 2 : Nat)
      else if table.getD ((left + (stop - 1)) / 2) default < id then
        search table id fuel ((left + (stop - 1)) / 2 + 1 : Nat) ((stop : Int) - 1)
      else search table id fuel left (((left + (stop - 1)) / 2 : Nat) - 1) := by
  have order : (left : Int) ≤ (stop : Int) - 1 := by omega
  have half : 2 * ((left + (stop - 1)) / 2) ≤ left + (stop - 1) := Nat.mul_div_le _ _
  rw [search, if_pos order, mid_eq isOpen small]
  generalize (left + (stop - 1)) / 2 = mid at half ⊢
  have inside : mid < table.length := by omega
  have above : toInt ((mid : Int) + 1) = ((mid + 1 : Nat) : Int) := by
    rw [toInt_of_small (by omega) (by omega)]
    rfl
  have below : toInt ((mid : Int) - 1) = (mid : Int) - 1 := toInt_of_small (by omega) (by omega)
  simp only [read_natCast, List.getElem?_eq_getElem inside, List.getD_eq_getElem?_getD,
    Option.getD_some, above, below]

omit [Inhabited α] in
/-- A sum that has no `int` makes the middle negative. -/
theorem search_overflow (table : List α) (id : α) (fuel : Nat) {left stop : Nat}
    (isOpen : left < stop) (reachable : stop ≤ 2 ^ 31) (large : 2 ^ 31 ≤ left + (stop - 1)) :
    search table id (fuel + 1) left ((stop : Int) - 1) = .outside := by
  have order : (left : Int) ≤ (stop : Int) - 1 := by omega
  have sum : toInt (left + ((stop : Int) - 1)) = left + ((stop : Int) - 1) - 2 ^ 32 := by
    rw [toInt, Int.bmod_def]
    omega
  have positive : (left : Int) + ((stop : Int) - 1) - 2 ^ 32 =
      -(2 ^ 32 - ((left : Int) + ((stop : Int) - 1))) := by omega
  have negative : ¬ 0 ≤ ((left : Int) + ((stop : Int) - 1) - 2 ^ 32).tdiv 2 := by
    rw [positive, Int.neg_tdiv, Int.tdiv_eq_ediv_of_nonneg (by omega)]
    omega
  rw [search, if_pos order, sum]
  simp only [read, if_neg negative]

/-! ## A whole search -/

/-- The outcome of a search on natural numbers. -/
def ofOption : Option Nat → Outcome
  | some mid => .found mid
  | none => .missed

/-- In the first 2³⁰ entries every sum has an `int`. -/
theorem search_of_small {table : List α} {id : α} {fuel left stop : Nat}
    (bounded : stop ≤ table.length) (small : stop ≤ 2 ^ 30) (enough : stop - left ≤ fuel) :
    search table id fuel left ((stop : Int) - 1) =
      ofOption (Graph.findIndexAndSet table id fuel left stop) := by
  induction fuel generalizing left stop with
  | zero =>
      rw [search_closed table id 0 (by omega)]
      rfl
  | succ fuel ih =>
      by_cases isOpen : left < stop
      · rw [search_turn id fuel isOpen bounded (by omega), Graph.findIndexAndSet, if_pos isOpen]
        simp only
        split
        · rfl
        · split
          · exact ih bounded small (by omega)
          · exact ih (by omega) (by omega) (by omega)
      · rw [search_closed table id _ (by omega), Graph.findIndexAndSet, if_neg isOpen]
        rfl

theorem reach_le (length : Nat) : reach length ≤ length := by
  rw [reach, toInt, Int.bmod_def]
  split <;> omega

theorem reach_le_pow (length : Nat) : reach length ≤ 2 ^ 31 := by
  rw [reach, toInt, Int.bmod_def]
  split <;> omega

/-- A length that has an `int` is searched as a whole. -/
theorem reach_of_small {length : Nat} (small : length ≤ 2 ^ 31) : reach length = length := by
  rw [reach, toInt_of_small (by omega) (by omega)]
  omega

omit [Inhabited α] in
/-- The initial bounds are those of the reachable entries. -/
theorem outcome_eq_search (table : List α) (id : α) :
    outcome table id =
      search table id table.length ((0 : Nat) : Int) ((reach table.length : Int) - 1) := by
  rw [outcome, reach]
  by_cases none_ : toInt (table.length - 1) < 0
  · -- Without entries, or with too many, no turn is made.
    rw [search_closed table id _ (by omega), search_closed table id _ (by omega)]
  · have whole : ((toInt (table.length - 1) + 1).toNat : Int) - 1 = toInt (table.length - 1) := by
      omega
    rw [whole]
    rfl

theorem rightmost_succ (stop turns : Nat) :
    rightmost stop (turns + 1) = (rightmost stop turns + (stop - 1)) / 2 + 1 :=
  rfl

/-- The search on natural numbers, once it has gone right for some turns. -/
theorem search_rightmost {table : List α} {id : α} (inside : ¬ Overflows table id) {fuel : Nat}
    {turns : Nat} (enough : reach table.length - rightmost (reach table.length) turns ≤ fuel)
    (below : ∀ turn < turns,
      table.getD (rightmost (reach table.length) (turn + 1) - 1) default < id) :
    search table id fuel (rightmost (reach table.length) turns) ((reach table.length : Int) - 1) =
      ofOption (Graph.findIndexAndSet table id fuel (rightmost (reach table.length) turns)
        (reach table.length)) := by
  induction fuel generalizing turns with
  | zero =>
      rw [search_closed table id 0 (by omega)]
      rfl
  | succ fuel ih =>
      by_cases isOpen : rightmost (reach table.length) turns < reach table.length
      · have small : rightmost (reach table.length) turns + (reach table.length - 1) < 2 ^ 31 := by
          by_contra large
          exact inside ⟨turns, isOpen, Nat.le_of_not_lt large, below⟩
        have later := rightmost_succ (reach table.length) turns
        rw [search_turn id fuel isOpen (reach_le _) small, Graph.findIndexAndSet, if_pos isOpen]
        simp only
        split
        · rfl
        · split
          · next less =>
              -- One more turn to the right.
              rw [← later]
              refine ih (by omega) fun turn early => ?_
              rcases Nat.lt_succ_iff_lt_or_eq.mp early with before | rfl
              · exact below turn before
              · rw [later, Nat.add_sub_cancel]
                exact less
          · -- The middle is among the first entries, and so is the rest of the search.
            have bounded := reach_le table.length
            exact search_of_small (by omega) (by omega) (by omega)
      · rw [search_closed table id _ (by omega), Graph.findIndexAndSet, if_neg isOpen]
        rfl

theorem outcome_eq {table : List α} {id : α} (inside : ¬ Overflows table id) :
    outcome table id =
      ofOption (Graph.findIndexAndSet table id table.length 0 (reach table.length)) := by
  have bounded := reach_le table.length
  have enough : reach table.length - rightmost (reach table.length) 0 ≤ table.length := by
    rw [rightmost]
    omega
  rw [outcome_eq_search]
  exact search_rightmost inside enough fun turn early => absurd early (Nat.not_lt_zero turn)

/-- An empty range stays empty. -/
theorem rightmost_open {stop turns : Nat} (isOpen : rightmost stop (turns + 1) < stop) :
    rightmost stop turns < stop := by
  rw [rightmost_succ] at isOpen
  omega

/-- A search on its way to a sum without `int` does not end. -/
theorem search_of_overflow {table : List α} {id : α} {turns : Nat}
    (isOpen : rightmost (reach table.length) turns < reach table.length)
    (large : 2 ^ 31 ≤ rightmost (reach table.length) turns + (reach table.length - 1))
    (below : ∀ turn < turns,
      table.getD (rightmost (reach table.length) (turn + 1) - 1) default < id)
    {rest turn : Nat} (position : turn + rest = turns) (fuel : Nat) :
    search table id fuel (rightmost (reach table.length) turn) ((reach table.length : Int) - 1) =
        .outside ∨
      search table id fuel (rightmost (reach table.length) turn) ((reach table.length : Int) - 1) =
        .running := by
  induction rest generalizing turn fuel with
  | zero =>
      obtain rfl : turn = turns := position
      cases fuel with
      | zero =>
          refine Or.inr ?_
          rw [search, if_pos (by omega)]
      | succ fuel => exact Or.inl (search_overflow table id fuel isOpen (reach_le_pow _) large)
  | succ rest ih =>
      have openHere : rightmost (reach table.length) turn < reach table.length := by
        clear ih large below
        induction rest generalizing turn with
        | zero => exact rightmost_open (position ▸ isOpen)
        | succ rest again =>
            refine rightmost_open (again ?_)
            omega
      cases fuel with
      | zero =>
          refine Or.inr ?_
          rw [search, if_pos (by omega)]
      | succ fuel =>
          by_cases early : 2 ^ 31 ≤ rightmost (reach table.length) turn + (reach table.length - 1)
          · exact Or.inl (search_overflow table id fuel openHere (reach_le_pow _) early)
          · have less := below turn (by omega)
            rw [rightmost_succ, Nat.add_sub_cancel] at less
            rw [search_turn id fuel openHere (reach_le _) (Nat.lt_of_not_le early),
              if_neg (ne_of_gt less), if_pos less, ← rightmost_succ]
            exact ih (by omega) fuel

end Dolphin.Graph.SearchKernel
