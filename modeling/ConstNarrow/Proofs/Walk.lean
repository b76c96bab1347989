/-
**Walks over parts.**

Evaluation and commitment go through the parts of an expression one after the other. What is done at
a part depends on what lies within it, and so does what is known afterwards. If nothing lies within
two of the parts, the steps do not get in each other's way, and what each of them needs and achieves
can be said apart from the others.
-/
import ConstNarrow.Proofs.Footprint
import ConstNarrow.Proofs.Trees

set_option autoImplicit false

namespace ConstNarrow

open Checker

/-- Nothing lies within two of some expressions. -/
def Module.Apart (m : Module) (parts : List ExprId) : Prop :=
  parts.Pairwise fun a b => ∀ e, m.Within a e → ¬ m.Within b e

theorem Module.Tree.parts_apart {m : Module} {id : ExprId} (h : m.Tree id) :
    m.Apart (m.expr id).children :=
  (h.nodup id .refl).imp_of_mem fun ha hb hne _ => h.apart ha hb hne

/-- What a walk asks for at a place, and what it achieves there. -/
structure Walk (m : Module) (ι : Type) where
  part : ι → ExprId
  /-- what is changed at a place -/
  reach : ι → ExprId → Prop
  before : ι → Checker → Prop
  after : ι → Checker → Prop
  /-- that no violation is logged on the way -/
  calm : Prop
  reach_within : ∀ i e, reach i e → m.Within (part i) e
  before_touches : ∀ i s t inside, before i s → Touches inside s t →
    (∀ e, m.Within (part i) e → ¬ inside e) → before i t
  after_touches : ∀ i s t inside, after i s → Touches inside s t →
    (∀ e, m.Within (part i) e → ¬ inside e) → after i t

namespace Walk

variable {m : Module} {ι : Type} (W : Walk m ι)

/-- A walk has passed some places. -/
structure Passed (places : List ι) (s t : Checker) : Prop where
  touches : Touches (fun e => ∃ i ∈ places, W.reach i e) s t
  quiet : W.calm → Quiet s t
  after : ∀ i ∈ places, W.after i t

/-- A computation passes some places, and gives a certain result. -/
def Passes {α : Type} (c : CheckM α) (places : List ι) (a : α) : Prop :=
  ∀ s, (∀ i ∈ places, W.before i s) → Ends c s fun result t => result = a ∧ W.Passed places s t

variable {W} {α β : Type} {c : CheckM α} {a : α} {f : α → CheckM β} {b : β} {places : List ι}

theorem Passes.tells (h : Tells c a) : W.Passes c [] a :=
  fun s _ => h.ends fun j hj =>
    ⟨rfl, touches_journal _ s j, fun _ => hj.violations, fun _ hi => (by cases hi)⟩

/-- Nothing lies within two places that are passed one after the other. -/
theorem apart_append {first second : List ι} (h : m.Apart ((first ++ second).map W.part)) :
    ∀ i ∈ first, ∀ j ∈ second, ∀ e, m.Within (W.part i) e → ¬ m.Within (W.part j) e := by
  rw [Module.Apart, List.map_append, List.pairwise_append] at h
  exact fun i hi j hj => h.2.2 _ (List.mem_map_of_mem hi) _ (List.mem_map_of_mem hj)

/-- At places that are still to come, nothing has changed. -/
theorem Passed.before {first second : List ι} {s t : Checker} (h : W.Passed first s t)
    (hapart : m.Apart ((first ++ second).map W.part)) (hbefore : ∀ j ∈ second, W.before j s) :
    ∀ j ∈ second, W.before j t := by
  intro j hj
  refine W.before_touches j s t _ (hbefore j hj) h.touches ?_
  rintro e he ⟨i, hi, he'⟩
  exact apart_append hapart i hi j hj e (W.reach_within i e he') he

/-- **Places are passed one after the other.** What is achieved at the first ones lasts. -/
protected theorem Passes.bind {first second : List ι} (hc : W.Passes c first a)
    (hf : W.Passes (f a) second b) (hplaces : places = first ++ second)
    (hapart : m.Apart (places.map W.part)) : W.Passes (c >>= f) places b := by
  subst hplaces
  intro s hbefore
  refine (hc s fun i hi => hbefore i (List.mem_append_left _ hi)).bind ?_
  rintro _ t ⟨rfl, hfirst⟩
  have hbefore' := hfirst.before hapart fun j hj => hbefore j (List.mem_append_right _ hj)
  refine (hf t hbefore').mono ?_
  rintro _ u ⟨rfl, hsecond⟩
  refine ⟨rfl, ?_, fun hcalm => (hfirst.quiet hcalm).trans (hsecond.quiet hcalm), fun i hi => ?_⟩
  · refine (hfirst.touches.mono ?_).trans (hsecond.touches.mono ?_)
    · rintro e ⟨i, hi, he⟩
      exact ⟨i, List.mem_append_left _ hi, he⟩
    · rintro e ⟨i, hi, he⟩
      exact ⟨i, List.mem_append_right _ hi, he⟩
  · rcases List.mem_append.mp hi with hi | hi
    · refine W.after_touches i t u _ (hfirst.after i hi) hsecond.touches ?_
      rintro e he ⟨j, hj, he'⟩
      exact apart_append hapart i hi j hj e he (W.reach_within j e he')
    · exact hsecond.after i hi

theorem Passes.then_tells (hc : W.Passes c places a) (hf : Tells (f a) b)
    (hapart : m.Apart (places.map W.part)) : W.Passes (c >>= f) places b :=
  hc.bind (.tells hf) (List.append_nil _).symm hapart

theorem Passed.touches_whole {id : ExprId} {s t : Checker} (h : W.Passed places s t)
    (hparts : ∀ i ∈ places, m.Part id (W.part i)) : Touches (m.Within id) s t := by
  refine h.touches.mono ?_
  rintro e ⟨i, hi, he⟩
  exact .head (hparts i hi) (W.reach_within i e he)

end Walk

end ConstNarrow
