import Mathlib.Data.Nat.Notation

/-!
# Lists of buckets

A hash table in its simplest form: a list of buckets, each of them a list. `push` appends an element
to a bucket, `replace` puts another bucket in the place of one. The rules say what these do to every
bucket, and to the contents of all buckets together.
-/

namespace Buckets

variable {β : Type*}

/-- The bucket at index `i` (empty if there is none). -/
def get (bs : List (List β)) (i : ℕ) : List β := bs.getD i []

/-- Appends `x` to the bucket at index `i`. -/
def push (bs : List (List β)) (i : ℕ) (x : β) : List (List β) := bs.modify i fun b => b ++ [x]

/-- Puts `b` in the place of the bucket at index `i`. -/
def replace (bs : List (List β)) (i : ℕ) (b : List β) : List (List β) := bs.set i b

variable {bs : List (List β)} {i j : ℕ}

@[simp] theorem length_push (bs : List (List β)) (i : ℕ) (x : β) : (push bs i x).length = bs.length :=
  List.length_modify ..

@[simp] theorem length_replace (bs : List (List β)) (i : ℕ) (b : List β) :
    (replace bs i b).length = bs.length :=
  List.length_set ..

theorem get_push (hi : i < bs.length) (x : β) : get (push bs i x) i = get bs i ++ [x] := by
  simp [get, push, hi]

theorem get_push_of_ne (h : j ≠ i) (x : β) : get (push bs i x) j = get bs j := by
  simp [get, push, h.symm]

theorem get_replace (hi : i < bs.length) (b : List β) : get (replace bs i b) i = b := by
  simp [get, replace, hi]

theorem get_replace_of_ne (h : j ≠ i) (b : List β) : get (replace bs i b) j = get bs j := by
  simp [get, replace, h.symm]

theorem get_replicate (n i : ℕ) : get (List.replicate n ([] : List β)) i = [] := by
  unfold get
  rw [List.getD_eq_getElem?_getD, List.getElem?_replicate]
  split <;> rfl

/-! Elements can be replaced by their images under a function `f`. -/

variable {γ : Type*} (f : β → γ)

theorem get_map (bs : List (List β)) (i : ℕ) : get (bs.map (List.map f)) i = (get bs i).map f := by
  unfold get
  rw [List.getD_eq_getElem?_getD, List.getD_eq_getElem?_getD, List.getElem?_map]
  cases bs[i]? <;> rfl

theorem push_map (bs : List (List β)) (i : ℕ) (x : β) :
    push (bs.map (List.map f)) i (f x) = (push bs i x).map (List.map f) := by
  induction bs generalizing i with
  | nil => simp [push]
  | cons b bs ih =>
    cases i with
    | zero => simp [push]
    | succ i => simpa [push] using ih i

theorem replace_map (bs : List (List β)) (i : ℕ) (b : List β) :
    replace (bs.map (List.map f)) i (b.map f) = (replace bs i b).map (List.map f) :=
  List.map_set.symm

/-- Each bucket is a part of the contents. -/
theorem get_sublist_flatten (bs : List (List β)) (i : ℕ) : (get bs i).Sublist bs.flatten := by
  unfold get
  rw [List.getD_eq_getElem?_getD]
  cases hb : bs[i]? with
  | none => exact List.nil_sublist _
  | some b => exact List.sublist_flatten_of_mem (List.mem_of_getElem? hb)

/-- An element is in one of the buckets. -/
theorem mem_flatten_iff {x : β} : x ∈ bs.flatten ↔ ∃ i, x ∈ get bs i := by
  rw [List.mem_flatten]
  constructor
  · rintro ⟨b, hb, hx⟩
    obtain ⟨i, hi, rfl⟩ := List.getElem_of_mem hb
    exact ⟨i, by simpa [get, hi] using hx⟩
  · rintro ⟨i, hx⟩
    unfold get at hx
    cases hb : bs[i]? with
    | none => simp [hb] at hx
    | some b =>
      rw [List.getD_eq_getElem?_getD, hb] at hx
      exact ⟨b, List.mem_of_getElem? hb, hx⟩

/-- Pushing adds one element to the contents. -/
theorem flatten_push (hi : i < bs.length) (x : β) : (push bs i x).flatten.Perm (x :: bs.flatten) := by
  induction bs generalizing i with
  | nil => simp at hi
  | cons b bs ih =>
    cases i with
    | zero =>
      simp [push]
    | succ i =>
      have hrest := ih (by simpa using hi)
      have hmove := (hrest.append_left b).trans List.perm_middle
      simpa [push] using hmove

/-- Replacing a bucket exchanges its part of the contents. -/
theorem flatten_replace (hi : i < bs.length) (b : List β) :
    (get bs i ++ (replace bs i b).flatten).Perm (b ++ bs.flatten) := by
  induction bs generalizing i with
  | nil => simp at hi
  | cons c bs ih =>
    cases i with
    | zero => simpa [get, replace] using List.perm_append_comm_assoc c b bs.flatten
    | succ i =>
      have hrest := ih (by simpa using hi)
      have hout := List.perm_append_comm_assoc (get bs i) c (replace bs i b).flatten
      have hin := List.perm_append_comm_assoc c b bs.flatten
      simpa [get, replace] using hout.trans ((hrest.append_left c).trans hin)

end Buckets
