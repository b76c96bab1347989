/-
**The distance of two names is the least number of edits** that turn one into the other.

Edits happen anywhere in a text and in any order, so they cannot be counted from one end to the other.
Alignments can: an alignment writes two texts below each other, and its cost is the number of places at
which they differ. One more edit raises the cost of an alignment by at most one, and an alignment can be
carried out as edits, so the cheapest alignment costs as much as the fewest edits.

The cheapest cost satisfies a recurrence over the first characters (`cost`), while the rows of the
computation grow with the beginnings of the names. Both are brought together by reading the names
backwards: a row holds the costs of a reversed beginning of one name against all those of the other.
-/
import Mathlib.Order.Bounds.Basic
import Mathlib.Order.MinMax
import ConstNarrow.Report.Suggestion

set_option autoImplicit false

namespace ConstNarrow.Suggestion

/-! ## Edits -/

/-- **An edit**: one character is inserted, deleted or replaced, and all around it stays. -/
inductive Edit : List Char → List Char → Prop
  | insert (before after : List Char) (c : Char) : Edit (before ++ after) (before ++ c :: after)
  | delete (before after : List Char) (c : Char) : Edit (before ++ c :: after) (before ++ after)
  | replace (before after : List Char) (c d : Char) :
    Edit (before ++ c :: after) (before ++ d :: after)

/-- A number of edits, one after the other. -/
inductive Edits : Nat → List Char → List Char → Prop
  | none (cs : List Char) : Edits 0 cs cs
  | more {n : Nat} {cs ds es : List Char} (first : Edits n cs ds) (last : Edit ds es) :
    Edits (n + 1) cs es

section Edits

variable {n : Nat} {c d : Char} {cs ds : List Char}

theorem Edit.cons (h : Edit cs ds) : Edit (c :: cs) (c :: ds) := by
  cases h with
  | insert before after d => exact .insert (c :: before) after d
  | delete before after d => exact .delete (c :: before) after d
  | replace before after d e => exact .replace (c :: before) after d e

theorem Edit.reverse (h : Edit cs ds) : Edit cs.reverse ds.reverse := by
  cases h with
  | insert before after d => simpa using Edit.insert after.reverse before.reverse d
  | delete before after d => simpa using Edit.delete after.reverse before.reverse d
  | replace before after d e => simpa using Edit.replace after.reverse before.reverse d e

/-- What respects one edit respects any number of them. -/
theorem Edits.map {f : List Char → List Char} (hf : ∀ cs ds, Edit cs ds → Edit (f cs) (f ds))
    (h : Edits n cs ds) : Edits n (f cs) (f ds) := by
  induction h with
  | none cs => exact .none _
  | more _ hlast ih => exact ih.more (hf _ _ hlast)

/-- Edits do not depend on the direction of reading. -/
theorem edits_reverse_iff : Edits n cs.reverse ds.reverse ↔ Edits n cs ds := by
  refine ⟨fun h => ?_, fun h => h.map fun _ _ => Edit.reverse⟩
  simpa using h.map (f := List.reverse) fun _ _ => Edit.reverse

/-- An edit is at the first character, or behind it. -/
theorem Edit.cases_cons (h : Edit (c :: cs) ds) :
    (∃ d, ds = d :: c :: cs) ∨ ds = cs ∨ (∃ d, ds = d :: cs) ∨ ∃ es, ds = c :: es ∧ Edit cs es := by
  generalize htext : c :: cs = text at h
  -- what stays before the place of the edit is nothing, or starts with the first character
  cases h with
  | insert before after d =>
    cases before with
    | nil => exact Or.inl ⟨d, by simp_all⟩
    | cons b before =>
      obtain ⟨rfl, rfl⟩ := List.cons.inj htext
      exact Or.inr (Or.inr (Or.inr ⟨_, rfl, .insert before after d⟩))
  | delete before after d =>
    cases before with
    | nil => exact Or.inr (Or.inl (List.cons.inj htext).2.symm)
    | cons b before =>
      obtain ⟨rfl, rfl⟩ := List.cons.inj htext
      exact Or.inr (Or.inr (Or.inr ⟨_, rfl, .delete before after d⟩))
  | replace before after d e =>
    cases before with
    | nil =>
      obtain ⟨rfl, rfl⟩ := List.cons.inj htext
      exact Or.inr (Or.inr (Or.inl ⟨e, rfl⟩))
    | cons b before =>
      obtain ⟨rfl, rfl⟩ := List.cons.inj htext
      exact Or.inr (Or.inr (Or.inr ⟨_, rfl, .replace before after d e⟩))

/-- Nothing can be done to an empty text but to insert a character. -/
theorem Edit.cases_nil (h : Edit [] ds) : ∃ d, ds = [d] := by
  generalize htext : [] = text at h
  cases h with
  | insert before after d =>
    obtain ⟨rfl, rfl⟩ := List.append_eq_nil_iff.mp htext.symm
    exact ⟨d, rfl⟩
  | delete before after d => simp at htext
  | replace before after d e => simp at htext

end Edits

/-! ## Alignments -/

/-- What it costs to have one character where another is. -/
def difference (a b : Char) : Nat := if a = b then 0 else 1

@[simp] theorem difference_self (a : Char) : difference a a = 0 := if_pos rfl

theorem difference_le (a b : Char) : difference a b ≤ 1 := by
  unfold difference
  split <;> omega

/-- **An alignment** of two texts and its cost. A character of one stands across from a character of
the other, or across from nothing. -/
inductive Aligned : Nat → List Char → List Char → Prop
  | nil : Aligned 0 [] []
  | pair {n : Nat} {as bs : List Char} (a b : Char) (rest : Aligned n as bs) :
    Aligned (n + difference a b) (a :: as) (b :: bs)
  | delete {n : Nat} {as bs : List Char} (a : Char) (rest : Aligned n as bs) :
    Aligned (n + 1) (a :: as) bs
  | insert {n : Nat} {as bs : List Char} (b : Char) (rest : Aligned n as bs) :
    Aligned (n + 1) as (b :: bs)

section Aligned

variable {n : Nat} {as bs cs : List Char}

theorem aligned_self (as : List Char) : Aligned 0 as as := by
  induction as with
  | nil => exact .nil
  | cons a as ih => simpa using ih.pair a a

theorem aligned_nil_left (bs : List Char) : Aligned bs.length [] bs := by
  induction bs with
  | nil => exact .nil
  | cons b bs ih => exact ih.insert b

theorem aligned_nil_right (as : List Char) : Aligned as.length as [] := by
  induction as with
  | nil => exact .nil
  | cons a as ih => exact ih.delete a

/-- An alignment is carried out from the end, one edit for each difference. -/
theorem Aligned.edits (h : Aligned n as bs) : Edits n as bs := by
  induction h with
  | nil => exact .none _
  | @pair n as bs a b _ ih =>
    have hrest : Edits n (a :: as) (a :: bs) := ih.map fun _ _ => Edit.cons
    by_cases hab : a = b
    · subst hab
      simpa using hrest
    · have hlast : Edit (a :: bs) (b :: bs) := .replace [] bs a b
      simpa [difference, hab] using hrest.more hlast
  | @delete n as bs a _ ih =>
    have hrest : Edits n (a :: as) (a :: bs) := ih.map fun _ _ => Edit.cons
    exact hrest.more (.delete [] bs a)
  | @insert n as bs b _ ih => exact ih.more (.insert [] bs b)

/-- **One more edit of the lower text raises the cost by at most one.** -/
theorem Aligned.edit (h : Aligned n as bs) (hedit : Edit bs cs) : ∃ m ≤ n + 1, Aligned m as cs := by
  induction h generalizing cs with
  | nil =>
    obtain ⟨d, rfl⟩ := hedit.cases_nil
    exact ⟨1, le_rfl, Aligned.nil.insert d⟩
  | @pair n as bs a b hrest ih =>
    rcases hedit.cases_cons with ⟨d, rfl⟩ | rfl | ⟨d, rfl⟩ | ⟨es, rfl, hes⟩
    · exact ⟨_, le_rfl, (hrest.pair a b).insert d⟩
    · -- the partner of `a` is gone, so `a` is across from nothing
      exact ⟨_, by omega, hrest.delete a⟩
    · have := difference_le a d
      exact ⟨_, by omega, hrest.pair a d⟩
    · obtain ⟨m, hm, hes⟩ := ih hes
      exact ⟨_, by omega, hes.pair a b⟩
  | @delete n as bs a _ ih =>
    obtain ⟨m, hm, hcs⟩ := ih hedit
    exact ⟨_, by omega, hcs.delete a⟩
  | @insert n as bs b hrest ih =>
    rcases hedit.cases_cons with ⟨d, rfl⟩ | rfl | ⟨d, rfl⟩ | ⟨es, rfl, hes⟩
    · exact ⟨_, le_rfl, (hrest.insert b).insert d⟩
    · -- what was inserted is deleted again
      exact ⟨_, by omega, hrest⟩
    · exact ⟨_, by omega, hrest.insert d⟩
    · obtain ⟨m, hm, hes⟩ := ih hes
      exact ⟨_, by omega, hes.insert b⟩

/-- Edits in any order are an alignment that costs no more. -/
theorem Edits.exists_aligned (h : Edits n as bs) : ∃ m ≤ n, Aligned m as bs := by
  induction h with
  | none cs => exact ⟨0, le_rfl, aligned_self cs⟩
  | more _ hlast ih =>
    obtain ⟨m, hm, haligned⟩ := ih
    obtain ⟨k, hk, haligned⟩ := haligned.edit hlast
    exact ⟨k, by omega, haligned⟩

end Aligned

/-! ## The cheapest alignment -/

/-- The least cost of an alignment: the first characters are across from each other, or one of them is
across from nothing. -/
def cost : List Char → List Char → Nat
  | [], bs => bs.length
  | _ :: as, [] => as.length + 1
  | a :: as, b :: bs =>
    min (min (cost as bs + difference a b) (cost as (b :: bs) + 1)) (cost (a :: as) bs + 1)
termination_by as bs => as.length + bs.length

section Cost

variable {n : Nat} (a b : Char) (as bs : List Char)

@[simp] theorem cost_nil_left : cost [] bs = bs.length := by
  rw [cost]

@[simp] theorem cost_nil_right : cost as [] = as.length := by
  cases as with
  | nil => exact cost_nil_left []
  | cons a as =>
    rw [cost]
    rfl

theorem cost_cons_cons : cost (a :: as) (b :: bs)
    = min (min (cost as bs + difference a b) (cost as (b :: bs) + 1)) (cost (a :: as) bs + 1) := by
  rw [cost]

/-- One more character costs one more at most. -/
theorem cost_cons_left_le : cost (a :: as) bs ≤ cost as bs + 1 := by
  cases bs with
  | nil => simp
  | cons b bs =>
    rw [cost_cons_cons]
    omega

theorem cost_cons_right_le : cost as (b :: bs) ≤ cost as bs + 1 := by
  cases as with
  | nil => simp
  | cons a as =>
    rw [cost_cons_cons]
    omega

/-- There is an alignment of this cost. -/
theorem aligned_cost : Aligned (cost as bs) as bs := by
  fun_induction cost as bs with
  | case1 bs => exact aligned_nil_left bs
  | case2 a as => exact aligned_nil_right (a :: as)
  | case3 a as b bs hpair hdelete hinsert =>
    -- each of the three is the cost of an alignment, so the least of them is
    have hfirst := min_rec' (Aligned · (a :: as) (b :: bs)) (hpair.pair a b) (hdelete.delete a)
    exact min_rec' (Aligned · (a :: as) (b :: bs)) hfirst (hinsert.insert b)

variable {as bs}

/-- No alignment costs less. -/
theorem Aligned.cost_le (h : Aligned n as bs) : cost as bs ≤ n := by
  induction h with
  | nil => simp
  | pair a b _ ih =>
    rw [cost_cons_cons]
    omega
  | @delete n as bs a _ ih =>
    have := cost_cons_left_le a as bs
    omega
  | @insert n as bs b _ ih =>
    have := cost_cons_right_le b as bs
    omega

/-- **The recurrence gives the least number of edits.** -/
theorem isLeast_cost (as bs : List Char) : IsLeast {n | Edits n as bs} (cost as bs) := by
  refine ⟨(aligned_cost as bs).edits, fun n h => ?_⟩
  obtain ⟨m, hm, haligned⟩ := Edits.exists_aligned h
  exact haligned.cost_le.trans hm

end Cost

/-! ## Rows -/

/-- The costs of one text against `seen`, and against it with more and more of `rest` in front. -/
def costs (as : List Char) : (seen rest : List Char) → List Nat
  | seen, [] => [cost as seen]
  | seen, b :: rest => cost as seen :: costs as (b :: seen) rest

section Rows

variable (a : Char) (as seen rest : List Char)

theorem costs_eq_cons : costs as seen rest = cost as seen :: (costs as seen rest).tail := by
  cases rest <;> rfl

/-- The first row counts upwards. -/
theorem costs_nil : costs [] seen rest = List.range' seen.length (rest.length + 1) := by
  induction rest generalizing seen with
  | nil => simp [costs]
  | cons b rest ih =>
    rw [costs, ih, cost_nil_left]
    exact List.range'_succ.symm

/-- The last cell of a row is the cost of the whole text. -/
theorem getLastD_costs : (costs as seen rest).getLastD 0 = cost as (rest.reverse ++ seen) := by
  induction rest generalizing seen with
  | nil => rfl
  | cons b rest ih =>
    have hlast : (costs as seen (b :: rest)).getLastD 0 = (costs as (b :: seen) rest).getLastD 0 := by
      rw [costs, costs_eq_cons as (b :: seen) rest]
      rfl
    rw [hlast, ih, List.reverse_cons, List.append_assoc]
    rfl

/-- The step from cell to cell: what was computed last, and what is left of the row before. -/
theorem extendRow_costs :
    extendRow a (cost (a :: as) seen) rest (costs as seen rest) = (costs (a :: as) seen rest).tail := by
  induction rest generalizing seen with
  | nil => rfl
  | cons b rest ih =>
    -- the three neighbours of a cell are the three costs of the recurrence
    have hhere : min (min (cost as seen + if a = b then 0 else 1) (cost as (b :: seen) + 1))
        (cost (a :: as) seen + 1) = cost (a :: as) (b :: seen) := (cost_cons_cons a b as seen).symm
    rw [costs, costs_eq_cons as (b :: seen) rest, extendRow, hhere,
      ← costs_eq_cons as (b :: seen) rest, ih, ← costs_eq_cons]
    rfl

/-- The step from row to row. -/
theorem nextRow_costs : nextRow rest (costs as [] rest) a = costs (a :: as) [] rest := by
  have hfirst : (costs as [] rest).headD 0 + 1 = cost (a :: as) [] := by
    rw [costs_eq_cons]
    simp
  rw [nextRow, hfirst, extendRow_costs, ← costs_eq_cons]

/-- After some characters of the first name, the row is that of these characters backwards. -/
theorem foldl_nextRow (cs : List Char) :
    cs.foldl (nextRow rest) (costs as [] rest) = costs (cs.reverse ++ as) [] rest := by
  induction cs generalizing as with
  | nil => rfl
  | cons c cs ih =>
    rw [List.foldl_cons, nextRow_costs, ih, List.reverse_cons, List.append_assoc]
    rfl

end Rows

/-- The last cell of the last row is the cost of both texts, read backwards. -/
theorem distance_eq_cost (a b : String) : distance a b = cost a.toList.reverse b.toList.reverse := by
  have hstart : List.range (b.length + 1) = costs [] [] b.toList := by
    rw [costs_nil, List.range_eq_range', String.length_toList]
    rfl
  rw [distance, hstart, foldl_nextRow, getLastD_costs, List.append_nil, List.append_nil]

/-- **The distance of two names is the least number of characters to insert, delete or replace** that
turns one into the other. -/
theorem distance_isLeast (a b : String) : IsLeast {n | Edits n a.toList b.toList} (distance a b) := by
  have hleast := isLeast_cost a.toList.reverse b.toList.reverse
  simp only [edits_reverse_iff] at hleast
  rwa [distance_eq_cost]

example : distance "bar" "bra" = 2 ∧ distance "" "abc" = 3 := by decide

end ConstNarrow.Suggestion
