import Mathlib.Data.List.TakeWhile
import Mathlib.Order.Lattice

/-!
# Stable priority queues

A priority queue in its simplest form: a list in the order of a key. A new element goes behind all
elements whose key is not greater, so elements with one key leave the queue in the order in which
they came. The rules say which elements are due, and what a new element does to the elements that a
test selects.
-/

namespace StableQueue

variable {β ι : Type*} [LinearOrder ι] (key : β → ι)

/-- The elements are in the order of their keys. -/
def Sorted (q : List β) : Prop := q.Pairwise fun x y => key x ≤ key y

/-- Puts `x` behind all elements whose key is not greater. -/
def insert (q : List β) (x : β) : List β :=
  q.takeWhile (fun y => key y ≤ key x) ++ x :: q.dropWhile (fun y => key y ≤ key x)

/-- The elements at the front whose key is at most `k`. -/
def due (q : List β) (k : ι) : List β := q.takeWhile fun y => key y ≤ k

/-- The elements behind them. -/
def rest (q : List β) (k : ι) : List β := q.dropWhile fun y => key y ≤ k

variable {key} {q l₁ l₂ : List β} {x : β}

theorem due_eq_filter (hq : Sorted key q) (k : ι) : due key q k = q.filter fun y => key y ≤ k := by
  induction q with
  | nil => rfl
  | cons y q ih =>
    obtain ⟨hy, hrest⟩ := List.pairwise_cons.mp hq
    unfold due at ih ⊢
    by_cases hle : key y ≤ k
    · rw [List.takeWhile_cons_of_pos (by simpa using hle), List.filter_cons_of_pos (by simpa using hle),
        ih hrest]
    · rw [List.takeWhile_cons_of_neg (by simpa using hle), List.filter_cons_of_neg (by simpa using hle)]
      refine (List.filter_eq_nil_iff.mpr fun z hz => ?_).symm
      have hlater := hy z hz
      simp only [decide_eq_true_eq]
      exact fun h => hle (le_trans hlater h)

theorem rest_eq_filter (hq : Sorted key q) (k : ι) : rest key q k = q.filter fun y => k < key y := by
  induction q with
  | nil => rfl
  | cons y q ih =>
    obtain ⟨hy, hrest⟩ := List.pairwise_cons.mp hq
    unfold rest at ih ⊢
    by_cases hle : key y ≤ k
    · rw [List.dropWhile_cons_of_pos (by simpa using hle),
        List.filter_cons_of_neg (by simpa using hle), ih hrest]
    · rw [List.dropWhile_cons_of_neg (by simpa using hle)]
      refine (List.filter_eq_self.mpr fun z hz => ?_).symm
      have hlt := not_le.mp hle
      rcases List.mem_cons.mp hz with rfl | hz
      · exact decide_eq_true hlt
      · exact decide_eq_true (lt_of_lt_of_le hlt (hy z hz))

theorem insert_eq (hq : Sorted key q) (x : β) : insert key q x =
    (q.filter fun y => key y ≤ key x) ++ x :: q.filter fun y => key x < key y := by
  have hdue := due_eq_filter hq (key x)
  have hrest := rest_eq_filter hq (key x)
  unfold due at hdue
  unfold rest at hrest
  rw [insert, hdue, hrest]

theorem mem_insert {y : β} : y ∈ insert key q x ↔ y = x ∨ y ∈ q := by
  have hsplit : q.takeWhile (fun y => key y ≤ key x) ++ q.dropWhile (fun y => key y ≤ key x) = q :=
    List.takeWhile_append_dropWhile
  have hmem : y ∈ q ↔ y ∈ q.takeWhile (fun y => key y ≤ key x) ∨
      y ∈ q.dropWhile (fun y => key y ≤ key x) := by
    rw [← List.mem_append, hsplit]
  rw [insert, List.mem_append, List.mem_cons, hmem]
  exact or_left_comm

theorem sorted_insert (hq : Sorted key q) (x : β) : Sorted key (insert key q x) := by
  rw [insert_eq hq]
  unfold Sorted at hq ⊢
  rw [List.pairwise_append]
  refine ⟨hq.filter _, List.pairwise_cons.mpr ⟨?_, hq.filter _⟩, ?_⟩
  · intro y hy
    have hlt : key x < key y := by simpa using (List.mem_filter.mp hy).2
    exact le_of_lt hlt
  · intro y hy z hz
    have hle : key y ≤ key x := by simpa using (List.mem_filter.mp hy).2
    rcases List.mem_cons.mp hz with rfl | hz
    · exact hle
    · have hlt : key x < key z := by simpa using (List.mem_filter.mp hz).2
      exact le_trans hle (le_of_lt hlt)

/-- A queue holds its elements and the new one. -/
theorem perm_insert (q : List β) (x : β) : (insert key q x).Perm (x :: q) := by
  have hsplit : q.takeWhile (fun y => key y ≤ key x) ++ q.dropWhile (fun y => key y ≤ key x) = q :=
    List.takeWhile_append_dropWhile
  have hmiddle : (insert key q x).Perm (x :: (q.takeWhile (fun y => key y ≤ key x) ++
      q.dropWhile fun y => key y ≤ key x)) := List.perm_middle
  rwa [hsplit] at hmiddle

/-- Keys that agree on the elements make the same elements due. -/
theorem due_congr {key' : β → ι} (h : ∀ y ∈ q, key y = key' y) (k : ι) : due key q k = due key' q k := by
  induction q with
  | nil => rfl
  | cons y q ih =>
    obtain ⟨hy, hrest⟩ := List.forall_mem_cons.mp h
    have hq := ih hrest
    unfold due at hq ⊢
    rw [List.takeWhile_cons, List.takeWhile_cons, hy, hq]

theorem rest_congr {key' : β → ι} (h : ∀ y ∈ q, key y = key' y) (k : ι) :
    rest key q k = rest key' q k := by
  induction q with
  | nil => rfl
  | cons y q ih =>
    obtain ⟨hy, hrest⟩ := List.forall_mem_cons.mp h
    have hq := ih hrest
    unfold rest at hq ⊢
    rw [List.dropWhile_cons, List.dropWhile_cons, hy, hq]

theorem insert_congr {key' : β → ι} (h : ∀ y ∈ q, key y = key' y) (hx : key x = key' x) :
    insert key q x = insert key' q x := by
  have hdue := due_congr h (key x)
  have hrest := rest_congr h (key x)
  unfold due at hdue
  unfold rest at hrest
  rw [insert, insert, hdue, hrest, hx]

/-- Among the selected elements, a new one goes to its place among these. -/
theorem filter_insert (hq : Sorted key q) (p : β → Bool) (x : β) :
    (insert key q x).filter p = if p x then insert key (q.filter p) x else q.filter p := by
  have hsorted : Sorted key (q.filter p) := List.Pairwise.filter _ hq
  have hcomm : ∀ r : β → Bool, (q.filter r).filter p = (q.filter p).filter r := by
    intro r
    rw [List.filter_filter, List.filter_filter]
    exact List.filter_congr fun y _ => Bool.and_comm _ _
  rw [insert_eq hq, List.filter_append, List.filter_cons, hcomm, hcomm]
  split
  · rw [insert_eq hsorted]
  · rw [← due_eq_filter hsorted, ← rest_eq_filter hsorted]
    exact List.takeWhile_append_dropWhile

/-- The place of an element is between those with keys that are not greater and those with greater
ones. -/
theorem insert_between (h₁ : ∀ y ∈ l₁, key y ≤ key x) (h₂ : ∀ y ∈ l₂, key x < key y) :
    insert key (l₁ ++ l₂) x = l₁ ++ x :: l₂ := by
  have hpos : ∀ y ∈ l₁, decide (key y ≤ key x) = true := fun y hy => decide_eq_true (h₁ y hy)
  have hneg : ∀ y ∈ l₂, ¬ decide (key y ≤ key x) = true := fun y hy => by
    rw [decide_eq_true_eq]
    exact not_le.mpr (h₂ y hy)
  rw [insert, List.takeWhile_append_of_pos hpos, List.dropWhile_append_of_pos hpos]
  cases l₂ with
  | nil => simp
  | cons y l₂ =>
    have hy := hneg y List.mem_cons_self
    rw [List.takeWhile_cons_of_neg (p := fun z => decide (key z ≤ key x)) hy,
      List.dropWhile_cons_of_neg (p := fun z => decide (key z ≤ key x)) hy, List.append_nil]

end StableQueue
