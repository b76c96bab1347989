/-
**What commitment visits.**

With which types commitment comes to the lists and the records of a value cannot be read off the state
in which it ends. So commitment is watched: `commitAvoiding` is commitment that gives up where a list
or a record is to be given a type to avoid. On a tree, with a type that was made for it, the watched
run does just what the other one does until it gives up. It comes to the lists and records that are
reached along parts with the same expectation, and to each with the type that is held for it in the
end. Their items and fields stand where they were put.
-/
import ConstNarrow.Proofs.Positions

set_option autoImplicit false

namespace ConstNarrow

open Checker

/-! ## Watching commitment -/

/-- Commits a type to an expression that nests no deeper than the third argument says, unless a list
or a record on the way is to be given a type to avoid: then commitment is given up. -/
def Checker.commitAvoiding (p : Program) (avoided : ExprId → Ty → Bool) : Nat → ExprId → Ty → CheckM Unit
  | 0, _, _ => exhausted
  | n + 1, id, ty =>
    if (p.source.expr id).isConstructor && avoided id ty.effective then exhausted
    else commitStep p (commitAvoiding p avoided n) id ty.effective

/-- With nothing to avoid this is commitment. -/
theorem Checker.commitAvoiding_nothing (p : Program) (n : Nat) :
    commitAvoiding p (fun _ _ => false) n = commitWithin p n := by
  induction n with
  | zero => rfl
  | succ n ih =>
    funext id ty
    rw [commitAvoiding, Bool.and_false, if_neg Bool.false_ne_true, ih, commitWithin]

/-- Committing a type to an expression **visits** a list or a record with a type: if that is avoided,
commitment is given up. -/
def CommitVisits (p : Program) (s : Checker) (id : ExprId) (ty : Ty) (e : ExprId) (target : Ty) : Prop :=
  ∀ avoided : ExprId → Ty → Bool, avoided e target = true →
    (commitAvoiding p avoided (p.source.exprs.size + 1) id ty).run s = none

/-- The list or record to which a type is committed is itself visited. -/
theorem commitVisits_self {p : Program} {id : ExprId} (h : (p.source.expr id).isConstructor = true)
    (s : Checker) (ty : Ty) : CommitVisits p s id ty id ty.effective := by
  intro avoided havoided
  rw [commitAvoiding, h, havoided]
  rfl

/-! ## Runs beside each other -/

/-- A computation does what another one does if something is the case, and is given up otherwise. -/
structure Shadows {α : Type} (free : Prop) (c' c : CheckM α) (s : Checker) : Prop where
  same : free → c'.run s = c.run s
  stopped : ¬ free → c'.run s = none

namespace Shadows

variable {α β : Type} {free other : Prop} {c' c : CheckM α} {f' f : α → CheckM β} {s t : Checker} {a : α}

theorem refl (c : CheckM α) (s : Checker) : Shadows True c c s :=
  ⟨fun _ => rfl, fun h => absurd trivial h⟩

theorem congr (h : Shadows free c' c s) (hiff : free ↔ other) : Shadows other c' c s :=
  ⟨fun ho => h.same (hiff.mpr ho), fun ho => h.stopped fun hf => ho (hiff.mp hf)⟩

/-- Computations that shadow others compose. -/
protected theorem bind (hc : Shadows free c' c s) (hrun : c.run s = some (a, t))
    (hf : Shadows other (f' a) (f a) t) : Shadows (free ∧ other) (c' >>= f') (c >>= f) s := by
  by_cases hfree : free
  · have hrun' : c'.run s = some (a, t) := (hc.same hfree).trans hrun
    refine ⟨fun h => ?_, fun h => ?_⟩
    · rw [run_bind_some hrun', run_bind_some hrun, hf.same h.2]
    · rw [run_bind_some hrun', hf.stopped fun hother => h ⟨hfree, hother⟩]
  · refine ⟨fun h => absurd h.1 hfree, fun _ => ?_⟩
    rw [StateT.run_bind, hc.stopped hfree]
    rfl

end Shadows

/-- Something holds of the parts that are given targets. -/
def TargetsAll (q : ExprId → Prop) (places : List Place) : Prop :=
  ∀ place ∈ places, place.target.isSome = true → q place.slot.part

/-- A target is committed to a part, in a state that agrees with `s₀` there, and another computation
runs beside it. In the end something good holds of the part, by the state `u` at the end of all. -/
def Followed (p : Program) (s₀ u : Checker) (free good : ExprId → Prop)
    (recurse' recurse : ExprId → Ty → CheckM Unit) (part : ExprId) (target : Ty) : Prop :=
  ∀ s t, Agrees p.source part s₀ s → (recurse part target).run s = some ((), t) →
    Agrees p.source part t u →
    Shadows (free part) (recurse' part target) (recurse part target) s ∧ good part

/-- The same for a walk over places. -/
structure Accompanies (p : Program) (given : ConstId → Ty) (scope : ScopeId) (s₀ u : Checker)
    (free good : ExprId → Prop) {α : Type} (c' c : CheckM α) (places : List Place) (a : α) : Prop where
  passes : (committing p given scope false s₀ False).Passes c places a
  beside : ∀ s t, (∀ place ∈ places, Agrees p.source place.slot.part s₀ s) → c.run s = some (a, t) →
    (∀ place ∈ places, Agrees p.source place.slot.part t u) →
    Shadows (TargetsAll free places) c' c s ∧ TargetsAll good places

section Walks

variable {p : Program} {given : ConstId → Ty} {scope : ScopeId} {s₀ u : Checker}
variable {free good : ExprId → Prop} {recurse' recurse : ExprId → Ty → CheckM Unit}
variable {α β : Type} {c' c : CheckM α} {a : α} {f' f : α → CheckM β} {b : β} {places : List Place}
variable {id : ExprId} {target : Ty}

theorem targetsAll_append {q : ExprId → Prop} {first second : List Place} :
    TargetsAll q (first ++ second) ↔ TargetsAll q first ∧ TargetsAll q second :=
  List.forall_mem_append

theorem targetsAll_of_none {q : ExprId → Prop} (h : ∀ place ∈ places, place.target = none) :
    TargetsAll q places := by
  intro place hplace htarget
  rw [h place hplace] at htarget
  cases htarget

namespace Accompanies

/-- Where no target is given, the two computations are the same. -/
theorem of_none (hpasses : (committing p given scope false s₀ False).Passes c places a)
    (h : ∀ place ∈ places, place.target = none) :
    Accompanies p given scope s₀ u free good c c places a :=
  ⟨hpasses, fun s _ _ _ _ => ⟨(Shadows.refl c s).congr ⟨fun _ => targetsAll_of_none h, fun _ => trivial⟩,
    targetsAll_of_none h⟩⟩

theorem of_followed {part : ExprId} {lasts : Bool} (hcommits : Commits p given scope false recurse part)
    (hfollowed : Followed p s₀ u free good recurse' recurse part target) :
    Accompanies p given scope s₀ u free good (recurse' part target) (recurse part target)
      [.guided part lasts (some target)] () := by
  refine ⟨passes_recurse hcommits fun h => h.elim, fun s t hbefore hrun hafter => ?_⟩
  obtain ⟨hshadows, hgood⟩ := hfollowed s t (hbefore _ List.mem_cons_self) hrun
    (hafter _ List.mem_cons_self)
  refine ⟨hshadows.congr ⟨fun h => ?_, fun h => h _ List.mem_cons_self rfl⟩, ?_⟩
  · exact List.forall_mem_singleton.mpr fun _ => h
  · exact List.forall_mem_singleton.mpr fun _ => hgood

/-- **Two computations go on beside each other.** What is good at the first places is so still when
all are passed, since nothing there changes any more. -/
protected theorem bind {first second : List Place}
    (hc : Accompanies p given scope s₀ u free good c' c first a)
    (hf : Accompanies p given scope s₀ u free good (f' a) (f a) second b)
    (hplaces : places = first ++ second)
    (hapart : p.source.Apart (places.map fun place => place.slot.part)) :
    Accompanies p given scope s₀ u free good (c' >>= f') (c >>= f) places b := by
  refine ⟨hc.passes.bind hf.passes hplaces hapart, fun s t hbefore hrun hafter => ?_⟩
  subst hplaces
  rw [List.forall_mem_append] at hbefore hafter
  obtain ⟨_, t₁, hrun₁, rfl, hpassed⟩ := hc.passes s hbefore.1
  have hbefore₁ := hpassed.before hapart hbefore.2
  obtain ⟨_, _, hrun₂, rfl, hpassed₂⟩ := hf.passes t₁ hbefore₁
  have hrun₂' := (run_bind_some hrun₁).symm.trans hrun
  cases hrun₂.symm.trans hrun₂'
  -- the second part of the walk does not touch the first places
  have hkept : ∀ place ∈ first, Agrees p.source place.slot.part t₁ u := by
    intro place hplace
    refine Agrees.trans (hpassed₂.touches.agrees ?_) (hafter.1 place hplace)
    rintro e he ⟨other, hother, hreach⟩
    exact Walk.apart_append (W := committing p given scope false s₀ False) hapart place hplace
      other hother e he hreach.2.within
  obtain ⟨hshadows, hgood⟩ := hc.beside s t₁ hbefore.1 hrun₁ hkept
  obtain ⟨hshadows₂, hgood₂⟩ := hf.beside t₁ _ hbefore₁ hrun₂ hafter.2
  exact ⟨(hshadows.bind hrun₁ hshadows₂).congr targetsAll_append.symm,
    targetsAll_append.mpr ⟨hgood, hgood₂⟩⟩

/-- Computations may be replaced by others that run alike in the states that are met. -/
theorem of_run {d' d : CheckM α} (h : Accompanies p given scope s₀ u free good d' d places a)
    (hd : ∀ s, (∀ place ∈ places, Agrees p.source place.slot.part s₀ s) → c.run s = d.run s)
    (hd' : ∀ s, (∀ place ∈ places, Agrees p.source place.slot.part s₀ s) → c'.run s = d'.run s) :
    Accompanies p given scope s₀ u free good c' c places a := by
  refine ⟨fun s hbefore => ?_, fun s t hbefore hrun hafter => ?_⟩
  · obtain ⟨b, t, hrun, hpassed⟩ := h.passes s hbefore
    exact ⟨b, t, (hd s hbefore).trans hrun, hpassed⟩
  · rw [hd s hbefore] at hrun
    obtain ⟨hshadows, hgood⟩ := h.beside s t hbefore hrun hafter
    refine ⟨⟨fun hfree => ?_, fun hfree => ?_⟩, hgood⟩
    · rw [hd' s hbefore, hd s hbefore, hshadows.same hfree]
    · rw [hd' s hbefore, hshadows.stopped hfree]

end Accompanies

/-- Commitment is followed at some places. -/
def FollowedAll (p : Program) (s₀ u : Checker) (free good : ExprId → Prop)
    (recurse' recurse : ExprId → Ty → CheckM Unit) (places : List Place) : Prop :=
  ∀ place ∈ places, ∀ ty, place.target = some ty →
    Followed p s₀ u free good recurse' recurse place.slot.part ty

/-- The visits to the items of a list, in their order. -/
theorem accompanies_commitItems {items : List ListItem} {position? : Nat → Option Ty} {index : Nat}
    (hcommits : ∀ item ∈ items, Commits p given scope false recurse item.expr)
    (hfollowed : FollowedAll p s₀ u free good recurse' recurse (itemPlaces s₀ position? index items))
    (hapart : p.source.Apart ((itemPlaces s₀ position? index items).map fun place => place.slot.part)) :
    Accompanies p given scope s₀ u free good (commitItems recurse' id target position? index items)
      (commitItems recurse id target position? index items) (itemPlaces s₀ position? index items) () := by
  induction items generalizing index with
  | nil => exact .of_none (.tells (.pure _)) fun _ h => (by cases h)
  | cons item items ih =>
    obtain ⟨hfirst, hrest⟩ := List.forall_mem_cons.mp hcommits
    cases item with
    | member value =>
      obtain ⟨hfollowedFirst, hfollowedRest⟩ := List.forall_mem_cons.mp hfollowed
      have htail := ih hrest hfollowedRest (List.pairwise_cons.mp hapart).2
      rw [itemPlaces] at hapart ⊢
      rw [commitItems, commitItems]
      cases hposition : position? index with
      | some ty =>
        rw [hposition] at hapart hfollowedFirst
        exact (Accompanies.of_followed hfirst (hfollowedFirst ty rfl)).bind htail rfl hapart
      | none =>
        rw [hposition] at hapart
        exact (Accompanies.of_none (passes_violated rfl not_false _)
          (List.forall_mem_singleton.mpr rfl)).bind htail rfl hapart
    | spread operand =>
      have htail : Accompanies p given scope s₀ u free good
          (commitItems recurse' id target position? (index + s₀.spreadCount operand) items)
          (commitItems recurse id target position? (index + s₀.spreadCount operand) items)
          (itemPlaces s₀ position? (index + s₀.spreadCount operand) items) () :=
        ih hrest (List.forall_mem_cons.mp hfollowed).2 (List.pairwise_cons.mp hapart).2
      have hlength : (committing p given scope false s₀ False).Passes (spreadLength operand)
          [.plain operand] (s₀.spreadCount operand) := by
        refine passes_kept rfl fun s hagrees => ?_
        rw [run_spreadLength, spreadCount, spreadCount, hagrees.types operand .refl]
      exact (Accompanies.of_none hlength (List.forall_mem_singleton.mpr rfl)).bind htail rfl hapart

theorem accompanies_commitPlace {part : ExprId} {lasts : Bool} {targets : Fields none}
    {name : Option String} (hcommits : Commits p given scope false recurse part)
    (hfollowed : ∀ ty, placeTarget targets name = some ty →
      Followed p s₀ u free good recurse' recurse part ty) :
    Accompanies p given scope s₀ u free good (commitPlace recurse' id target targets name part)
      (commitPlace recurse id target targets name part)
      [.guided part lasts (placeTarget targets name)] () := by
  unfold commitPlace placeTarget at *
  cases hfield : name.bind targets.get? with
  | some field =>
    rw [hfield] at hfollowed
    exact .of_followed hcommits (hfollowed field.ty rfl)
  | none =>
    exact .of_none (passes_violated rfl not_false _) (List.forall_mem_singleton.mpr rfl)

/-- The visit to a field that is not computed, whose place may be taken. -/
theorem accompanies_commitWritten {value : ExprId} {targets : Fields none} {overwritten : List String}
    {name : Option String} (hcommits : Commits p given scope false recurse value)
    (hfollowed : ∀ ty, writtenTarget s₀ targets overwritten name value = some ty →
      Followed p s₀ u free good recurse' recurse value ty) :
    Accompanies p given scope s₀ u free good
      (commitWritten recurse' id target targets overwritten name value)
      (commitWritten recurse id target targets overwritten name value)
      [.guided value true (writtenTarget s₀ targets overwritten name value)] () := by
  unfold commitWritten writtenTarget at *
  by_cases hover : name.any overwritten.contains = true
  · rw [if_pos hover] at hfollowed ⊢
    rw [if_pos hover, if_pos hover]
    -- the own type is read first, and is still what it was
    have hread : ∀ f : Option Ty → CheckM Unit, ∀ s,
        (∀ place ∈ [Place.guided value true ((s₀.exprTypes.get? value).map Ty.narrowed)],
          Agrees p.source place.slot.part s₀ s) →
        (typeOf? value >>= f).run s = (f (s₀.exprTypes.get? value)).run s := by
      intro f s hbefore
      have hagrees : Agrees p.source value s₀ s := hbefore _ List.mem_cons_self
      rw [← hagrees.types value .refl]
      rfl
    refine Accompanies.of_run ?_ (hread _) (hread _)
    cases hentry : s₀.exprTypes.get? value with
    | none => exact .of_none (passes_kept rfl fun _ _ => rfl) (List.forall_mem_singleton.mpr rfl)
    | some own =>
      rw [hentry] at hfollowed
      exact Accompanies.bind (.of_none (.tells (.narrow own)) fun _ h => (by cases h))
        (.of_followed hcommits (hfollowed _ rfl)) (List.nil_append _).symm (List.pairwise_singleton _ _)
  · rw [if_neg hover] at hfollowed ⊢
    rw [if_neg hover, if_neg hover]
    exact accompanies_commitPlace hcommits hfollowed

theorem accompanies_commitFields {fields : List RecordField} {targets : Fields none}
    {overwritten : List String}
    (hcommits : ∀ e ∈ fields.flatMap RecordField.exprs, Commits p given scope false recurse e)
    (hfollowed : FollowedAll p s₀ u free good recurse' recurse
      (recordPlaces p.source s₀ targets overwritten fields))
    (hapart : p.source.Apart ((recordPlaces p.source s₀ targets overwritten fields).map
      fun place => place.slot.part)) :
    Accompanies p given scope s₀ u free good
      (commitFields p recurse' id target targets overwritten fields)
      (commitFields p recurse id target targets overwritten fields)
      (recordPlaces p.source s₀ targets overwritten fields) () := by
  induction fields with
  | nil => exact .of_none (.tells (.pure _)) fun _ h => (by cases h)
  | cons field fields ih =>
    rw [List.flatMap_cons, List.forall_mem_append] at hcommits
    rw [FollowedAll, recordPlaces, List.forall_mem_append] at hfollowed
    have hsplit := hapart
    rw [recordPlaces, List.map_append] at hsplit
    obtain ⟨hapartFirst, hapartRest, -⟩ := List.pairwise_append.mp hsplit
    have htail := ih hcommits.2 hfollowed.2 hapartRest
    -- what is done at the first field, and then the others
    have hthen : ∀ d' d : CheckM Unit, Accompanies p given scope s₀ u free good d' d
        (fieldPlaces p.source s₀ targets overwritten fields field) () →
        Accompanies p given scope s₀ u free good
          (d' >>= fun _ => commitFields p recurse' id target targets overwritten fields)
          (d >>= fun _ => commitFields p recurse id target targets overwritten fields)
          (recordPlaces p.source s₀ targets overwritten (field :: fields)) () :=
      fun _ _ hfirst => hfirst.bind htail rfl hapart
    cases field with
    | named name value =>
      exact hthen _ _ (accompanies_commitWritten (hcommits.1 value List.mem_cons_self)
        (hfollowed.1 _ List.mem_cons_self))
    | reference value =>
      exact hthen _ _ (accompanies_commitWritten (hcommits.1 value List.mem_cons_self)
        (hfollowed.1 _ List.mem_cons_self))
    | spread operand =>
      exact hthen (pure ()) (pure ())
        (.of_none (passes_kept rfl fun _ _ => rfl) (List.forall_mem_singleton.mpr rfl))
    | computed key value =>
      have hkey : (committing p given scope false s₀ False).Passes (keyName? key) [.plain key]
          (s₀.keyName key) := by
        refine passes_kept rfl fun s hagrees => ?_
        have hname : s.keyName key = s₀.keyName key := keyName_congr hagrees .refl
        rw [run_keyName?, hname]
      have hvalue : Accompanies p given scope s₀ u free good
          (commitPlace recurse' id target targets (s₀.keyName key) value)
          (commitPlace recurse id target targets (s₀.keyName key) value) [.guided value
            (!(s₀.keyName key).any (keyNamesOf s₀.keyName fields).contains)
            (placeTarget targets (s₀.keyName key))] () :=
        accompanies_commitPlace (hcommits.1 value (List.mem_cons_of_mem _ List.mem_cons_self))
          (hfollowed.1 _ (List.mem_cons_of_mem _ List.mem_cons_self))
      have hboth : Accompanies p given scope s₀ u free good
          (keyName? key >>= fun name => commitPlace recurse' id target targets name value)
          (keyName? key >>= fun name => commitPlace recurse id target targets name value)
          (fieldPlaces p.source s₀ targets overwritten fields (.computed key value)) () :=
        (Accompanies.of_none hkey (List.forall_mem_singleton.mpr rfl)).bind hvalue rfl hapartFirst
      exact hthen _ _ hboth

end Walks

/-! ## Whole expressions -/

section Equations

variable {p : Program} {recurse : ExprId → Ty → CheckM Unit} {id : ExprId} {target : Ty}

theorem commitStep_list {items : List ListItem} (hexpr : p.source.expr id = .list items)
    (members : List Ty) : commitStep p recurse id (.tuple members none)
      = commitItems recurse id (.tuple members none) (Ty.position? members none) 0 items
        >>= fun _ => setType id (.tuple members none) := by
  rw [commitStep, if_neg (by exact Bool.false_ne_true), hexpr]

theorem commitStep_record {fields : List RecordField} (hexpr : p.source.expr id = .record fields)
    (targets : Fields none) : commitStep p recurse id (.sealedRecord targets)
      = keyNames fields >>= fun names =>
        commitFields p recurse id (.sealedRecord targets) targets names fields
          >>= fun _ => setType id (.sealedRecord targets) := by
  rw [commitStep, if_neg (by exact Bool.false_ne_true), hexpr]
  rfl

theorem commitStep_group {inner : ExprId} (hexpr : p.source.expr id = .group inner)
    (herror : target.isError = false) :
    commitStep p recurse id target = recurse inner target >>= fun _ => commitReading id target := by
  rw [commitStep, if_neg (by simp [herror]), hexpr]

theorem commitStep_binary {op : BinaryOp} {lhs rhs : ExprId}
    (hexpr : p.source.expr id = .binary op lhs rhs) (herror : target.isError = false) :
    commitStep p recurse id target = (recurse lhs target >>= fun _ => recurse rhs target)
      >>= fun _ => commitReading id target >>= fun _ => settleSignature id [lhs, rhs] := by
  rw [commitStep, if_neg (by simp [herror]), hexpr, bind_assoc]

theorem commitStep_unary {op : UnaryOp} {operand : ExprId}
    (hexpr : p.source.expr id = .unary op operand) (herror : target.isError = false) :
    commitStep p recurse id target = recurse operand target
      >>= fun _ => commitReading id target >>= fun _ => settleSignature id [operand] := by
  rw [commitStep, if_neg (by simp [herror]), hexpr]

/-- What has no parts is committed without looking further. -/
theorem commitStep_leaf (h : (p.source.expr id).slots = [])
    (hform : (p.source.expr id).isConstructor = false) (other : ExprId → Ty → CheckM Unit) :
    commitStep p recurse id target = commitStep p other id target := by
  rw [commitStep, commitStep]
  cases hexpr : p.source.expr id with
  | list | record =>
    rw [hexpr] at hform
    cases hform
  | binary | unary | group =>
    rw [hexpr] at h
    cases h
  | missing | literal | reference | unsupported => rfl

/-- After the parts, only the expression itself is touched. -/
theorem touches_finish (operands : List ExprId) (s : Checker) :
    Ends (commitReading id target >>= fun _ => settleSignature id operands) s
      fun _ t => Touches (· = id) s t := by
  refine (touches_commitReading id target s).bind fun _ t htouches => ?_
  refine (ends_settleSignature id operands t).mono ?_
  rintro _ u ⟨htouches', -⟩
  exact htouches.trans htouches'

end Equations

/-- There is a target for a part that needs one. -/
theorem Place.Sound.isSome {p : Program} {given : ConstId → Ty} {scope : ScopeId} {lax : Bool}
    {s : Checker} {place : Place} (h : place.Sound p given scope lax s)
    (hguided : place.slot.guided = true) : place.target.isSome = true := by
  cases place with
  | plain part => cases hguided
  | guided part lasts result =>
    obtain ⟨_, rfl, -⟩ := h
    rfl

/-- What comes of following commitment to an expression: at its parts, and if it puts a list or a
record together also at the whole. -/
structure StepFollowed (p : Program) (s₀ u : Checker) (free good : ExprId → Prop)
    (recurse' recurse : ExprId → Ty → CheckM Unit) (id : ExprId) (target : Ty) (s : Checker) : Prop where
  shadows : Shadows (∀ part, p.source.Guides id part → free part) (commitStep p recurse' id target)
    (commitStep p recurse id target) s
  parts : ∀ part, p.source.Guides id part → good part
  whole : (p.source.expr id).isConstructor = true →
    u.exprTypes.get? id = some target ∧ Positioned p s₀ u id target

theorem Agrees.part {m : Module} {id part : ExprId} {s t : Checker} (h : Agrees m id s t)
    (hpart : m.Part id part) : Agrees m part s t :=
  ⟨fun e he => h.types e (.head hpart he), fun e he => h.signatures e (.head hpart he)⟩

section Steps

variable {p : Program} {given : ConstId → Ty} {scope : ScopeId} {s₀ s t u : Checker}
variable {free good : ExprId → Prop} {recurse' recurse : ExprId → Ty → CheckM Unit}
variable {id : ExprId} {target : Ty}

/-- After its parts an expression is finished, which touches nothing else. If there is a target for
every part that needs one, all of these have been followed. -/
theorem Accompanies.finish {c' c g : CheckM Unit} {places : List Place}
    (h : Accompanies p given scope s₀ u free good c' c places ()) (htree : p.source.Tree id)
    (hslots : places.map Place.slot = (p.source.expr id).slots)
    (htargets : ∀ place ∈ places, place.slot.guided = true → place.target.isSome = true)
    (hg : ∀ s, Ends g s fun _ t => Touches (· = id) s t) (hagrees : Agrees p.source id s₀ s)
    (hrun : (c >>= fun _ => g).run s = some ((), t)) (hafter : Agrees p.source id t u) :
    Shadows (∀ part, p.source.Guides id part → free part) (c' >>= fun _ => g) (c >>= fun _ => g) s
      ∧ (∀ part, p.source.Guides id part → good part)
      ∧ (∀ place ∈ places, place.Done p given scope false s₀ u) ∧ ∃ s₁, g.run s₁ = some ((), t) := by
  have hpart : ∀ place ∈ places, p.source.Part id place.slot.part := fun place hplace =>
    Expr.part_mem_children (hslots ▸ List.mem_map_of_mem hplace)
  have hbefore : ∀ place ∈ places, Agrees p.source place.slot.part s₀ s := fun place hplace =>
    hagrees.part (hpart place hplace)
  obtain ⟨_, s₁, hrun₁, -, hpassed⟩ := h.passes s hbefore
  obtain ⟨_, _, hrun₂, htouches⟩ := hg s₁
  cases hrun₂.symm.trans ((run_bind_some hrun₁).symm.trans hrun)
  have hlater : ∀ place ∈ places, Agrees p.source place.slot.part s₁ u := by
    intro place hplace
    refine Agrees.trans (htouches.agrees fun e he heq => ?_) (hafter.part (hpart place hplace))
    exact htree.not_within_part (hpart place hplace) (heq ▸ he)
  obtain ⟨hshadows, hgood⟩ := h.beside s s₁ hbefore hrun₁ hlater
  -- the parts that share the expectation are those at places with targets
  have hguides : ∀ q : ExprId → Prop,
      TargetsAll q places ↔ ∀ part, p.source.Guides id part → q part := by
    intro q
    refine ⟨fun hq part hguides => ?_, fun hq place hplace htarget => hq _ ?_⟩
    · rw [Module.Guides, ← hslots] at hguides
      obtain ⟨place, hplace, heq⟩ := List.mem_map.mp hguides
      have hslot : place.slot.part = part := congrArg Slot.part heq
      exact hslot ▸ hq place hplace (htargets place hplace (congrArg Slot.guided heq))
    · rw [Module.Guides, ← hslots]
      refine List.mem_map.mpr ⟨place, hplace, ?_⟩
      cases place with
      | plain part => cases htarget
      | guided part lasts result => rfl
  refine ⟨?_, (hguides good).mp hgood, fun place hplace => ?_, s₁, hrun₂⟩
  · refine (hshadows.bind hrun₁ (Shadows.refl g s₁)).congr ?_
    rw [and_true, hguides]
  · exact (hpassed.after place hplace).agrees (hlater place hplace)

variable (htree : p.source.Tree id) (hfirm : Firm p given scope id)
  (hsuited : Suited p given scope s₀ id target)
  (hcommits : ∀ part, p.source.Part id part → Commits p given scope false recurse part)
  (hparts : ∀ part ty, p.source.Part id part → Suited p given scope s₀ part ty →
    Followed p s₀ u free good recurse' recurse part ty)
  (hagrees : Agrees p.source id s₀ s) (hrun : (commitStep p recurse id target).run s = some ((), t))
  (hafter : Agrees p.source id t u)

include htree hfirm hsuited hcommits hparts hagrees hrun hafter

theorem stepFollowed_list {items : List ListItem} (hexpr : p.source.expr id = .list items) :
    StepFollowed p s₀ u free good recurse' recurse id target s := by
  have herror := hsuited.1.isError hfirm
  obtain ⟨results, rfl, -, hitems⟩ := hsuited.list hexpr herror
  obtain ⟨members, heq, hsound⟩ := hsuited.1.list hexpr herror
  cases heq
  have hslots : (itemPlaces s₀ (Ty.position? results none) 0 items).map Place.slot
      = (p.source.expr id).slots := by
    rw [map_slot_itemPlaces, hexpr]
    rfl
  have hfollowed : FollowedAll p s₀ u free good recurse' recurse
      (itemPlaces s₀ (Ty.position? results none) 0 items) := by
    intro place hplace ty hty
    obtain ⟨before, after, rfl, hposition⟩ := exists_split_of_mem_itemPlaces hplace hty
    obtain ⟨result, hresult, hrestates⟩ := hitems before _ after rfl
    rw [Nat.zero_add, Ty.position?, hresult, Option.some_or] at hposition
    cases hposition
    exact hparts _ _ (Expr.part_mem_children (hslots ▸ List.mem_map_of_mem hplace)) hrestates.suited
  have htargets : ∀ place ∈ itemPlaces s₀ (Ty.position? results none) 0 items,
      place.slot.guided = true → place.target.isSome = true := fun place hplace hguided =>
    (hsound place hplace).isSome hguided
  have hall : Accompanies p given scope s₀ u free good
      (commitItems recurse' id (.tuple results none) (Ty.position? results none) 0 items)
      (commitItems recurse id (.tuple results none) (Ty.position? results none) 0 items)
      (itemPlaces s₀ (Ty.position? results none) 0 items) () := by
    refine accompanies_commitItems (fun item hitem => hcommits item.expr ?_) hfollowed
      (apart_of_slots hslots htree)
    exact (Module.part_list_iff hexpr).mpr ⟨item, hitem, rfl⟩
  rw [commitStep_list hexpr] at hrun
  obtain ⟨hshadows, hgood, hdone, s₁, hset⟩ := hall.finish htree hslots htargets
    (fun s => ends_setType (touches_type_at id s _)) hagrees hrun hafter
  refine ⟨?_, hgood, fun _ => ⟨?_, hsuited.positioned_list hexpr hfirm hdone⟩⟩
  · rw [commitStep_list hexpr, commitStep_list hexpr]
    exact hshadows
  · rw [hafter.types id .refl]
    cases hset
    exact Table.get?_insert_self _ _ _

/-- One step into a record that writes no computed key twice. -/
theorem stepFollowed_record {fields : List RecordField} (hexpr : p.source.expr id = .record fields)
    (hdistinct : Distinct p.source s₀ id) :
    StepFollowed p s₀ u free good recurse' recurse id target s := by
  have herror := hsuited.1.isError hfirm
  obtain ⟨results, rfl, hfields⟩ := hsuited.record hexpr herror
  obtain ⟨targets, heq, hsound⟩ := hsuited.1.record hexpr herror
  cases heq
  have hlasts : ∀ place ∈ recordPlaces p.source s₀ results (keyNamesOf s₀.keyName fields) fields,
      place.lasts = true := lasts_of_nodup (hdistinct id fields .refl hexpr)
  have hslots : (recordPlaces p.source s₀ results (keyNamesOf s₀.keyName fields) fields).map Place.slot
      = (p.source.expr id).slots := by
    rw [map_slot_recordPlaces, hexpr]
    rfl
  have hfollowed : FollowedAll p s₀ u free good recurse' recurse
      (recordPlaces p.source s₀ results (keyNamesOf s₀.keyName fields) fields) := by
    intro place hplace ty hty
    have hpart : p.source.Part id place.slot.part :=
      Expr.part_mem_children (hslots ▸ List.mem_map_of_mem hplace)
    have hlast := hlasts place hplace
    cases place with
    | plain part => cases hty
    | guided part lasts result =>
      cases hty
      cases hlast
      exact hparts _ _ hpart (hfields part ty hplace).suited
  have htargets : ∀ place ∈ recordPlaces p.source s₀ results (keyNamesOf s₀.keyName fields) fields,
      place.slot.guided = true → place.target.isSome = true := fun place hplace hguided =>
    (hsound place hplace (hlasts place hplace)).isSome hguided
  have hall : Accompanies p given scope s₀ u free good
      (commitFields p recurse' id (.sealedRecord results) results (keyNamesOf s₀.keyName fields) fields)
      (commitFields p recurse id (.sealedRecord results) results (keyNamesOf s₀.keyName fields) fields)
      (recordPlaces p.source s₀ results (keyNamesOf s₀.keyName fields) fields) () := by
    refine accompanies_commitFields (fun e he => hcommits e ?_) hfollowed (apart_of_slots hslots htree)
    rw [Module.Part, hexpr]
    exact he
  -- the keys are read first, and are still what they were
  have hkeys : (keyNames fields).run s = some (keyNamesOf s₀.keyName fields, s) := by
    rw [run_keyNames]
    refine congrArg (fun names => some (names, s)) (keyNamesOf_congr fun key hkey => ?_)
    have hslot : ⟨key, false⟩ ∈ (p.source.expr id).slots :=
      Expr.slot_of_mem_keys (by rw [hexpr]; exact hkey)
    exact keyName_congr hagrees (.single (Expr.part_mem_children hslot))
  rw [commitStep_record hexpr, run_bind_some hkeys] at hrun
  obtain ⟨hshadows, hgood, hdone, s₁, hset⟩ := hall.finish htree hslots htargets
    (fun s => ends_setType (touches_type_at id s _)) hagrees hrun hafter
  refine ⟨?_, hgood, fun _ => ⟨?_, hsuited.positioned_record hexpr hfirm hdone⟩⟩
  · rw [commitStep_record hexpr, commitStep_record hexpr]
    exact ((Shadows.refl _ s).bind hkeys hshadows).congr (Iff.of_eq (true_and _))
  · rw [hafter.types id .refl]
    cases hset
    exact Table.get?_insert_self _ _ _

/-- One step into a group, whose inner expression gets the same target. -/
theorem stepFollowed_group {inner : ExprId} (hexpr : p.source.expr id = .group inner) :
    StepFollowed p s₀ u free good recurse' recurse id target s := by
  have herror := hsuited.1.isError hfirm
  have hpart : p.source.Part id inner := (Module.part_group_iff hexpr).mpr rfl
  have hinner : Accompanies p given scope s₀ u free good (recurse' inner target) (recurse inner target)
      [.guided inner true (some target)] () :=
    .of_followed (hcommits inner hpart) (hparts inner target hpart (hsuited.group hexpr herror))
  rw [commitStep_group hexpr herror] at hrun
  obtain ⟨hshadows, hgood, -⟩ := hinner.finish htree (by rw [hexpr]; rfl)
    (List.forall_mem_singleton.mpr fun _ => rfl) (touches_commitReading id target) hagrees hrun hafter
  refine ⟨?_, hgood, fun hform => ?_⟩
  · rw [commitStep_group hexpr herror, commitStep_group hexpr herror]
    exact hshadows
  · rw [hexpr] at hform
    cases hform

theorem stepFollowed_binary {op : BinaryOp} {lhs rhs : ExprId}
    (hexpr : p.source.expr id = .binary op lhs rhs) :
    StepFollowed p s₀ u free good recurse' recurse id target s := by
  have herror := hsuited.1.isError hfirm
  obtain ⟨haimsLhs, haimsRhs, -, w, kept, left, right, -, -, hleft, hright, -⟩ :=
    hsuited.1.binary hexpr herror
  have hslots : [Place.guided lhs true (some target), .guided rhs true (some target)].map Place.slot
      = (p.source.expr id).slots := by
    rw [hexpr]
    rfl
  have hlhs : p.source.Part id lhs := (Module.part_binary_iff hexpr).mpr (Or.inl rfl)
  have hrhs : p.source.Part id rhs := (Module.part_binary_iff hexpr).mpr (Or.inr rfl)
  have hboth : Accompanies p given scope s₀ u free good
      (recurse' lhs target >>= fun _ => recurse' rhs target)
      (recurse lhs target >>= fun _ => recurse rhs target)
      [.guided lhs true (some target), .guided rhs true (some target)] () :=
    Accompanies.bind (.of_followed (hcommits lhs hlhs) (hparts lhs target hlhs (hleft.suited haimsLhs)))
      (.of_followed (hcommits rhs hrhs) (hparts rhs target hrhs (hright.suited haimsRhs))) rfl
      (apart_of_slots hslots htree)
  rw [commitStep_binary hexpr herror] at hrun
  obtain ⟨hshadows, hgood, -⟩ := hboth.finish htree hslots
    (List.forall_mem_cons.mpr ⟨fun _ => rfl, List.forall_mem_singleton.mpr fun _ => rfl⟩)
    (touches_finish [lhs, rhs]) hagrees hrun hafter
  refine ⟨?_, hgood, fun hform => ?_⟩
  · rw [commitStep_binary hexpr herror, commitStep_binary hexpr herror]
    exact hshadows
  · rw [hexpr] at hform
    cases hform

theorem stepFollowed_unary {op : UnaryOp} {operand : ExprId}
    (hexpr : p.source.expr id = .unary op operand) :
    StepFollowed p s₀ u free good recurse' recurse id target s := by
  have herror := hsuited.1.isError hfirm
  obtain ⟨haims, -, w, kept, values, -, -, hvalues, -⟩ := hsuited.1.unary hexpr herror
  have hpart : p.source.Part id operand := (Module.part_unary_iff hexpr).mpr rfl
  have hoperand : Accompanies p given scope s₀ u free good (recurse' operand target)
      (recurse operand target) [.guided operand true (some target)] () :=
    .of_followed (hcommits operand hpart) (hparts operand target hpart (hvalues.suited haims))
  rw [commitStep_unary hexpr herror] at hrun
  obtain ⟨hshadows, hgood, -⟩ := hoperand.finish htree (by rw [hexpr]; rfl)
    (List.forall_mem_singleton.mpr fun _ => rfl) (touches_finish [operand]) hagrees hrun hafter
  refine ⟨?_, hgood, fun hform => ?_⟩
  · rw [commitStep_unary hexpr herror, commitStep_unary hexpr herror]
    exact hshadows
  · rw [hexpr] at hform
    cases hform

/-- **Commitment to an expression is followed**, if that to its parts is. -/
theorem stepFollowed (hdistinct : Distinct p.source s₀ id) :
    StepFollowed p s₀ u free good recurse' recurse id target s := by
  have hleaf : (p.source.expr id).slots = [] → (p.source.expr id).isConstructor = false →
      StepFollowed p s₀ u free good recurse' recurse id target s := by
    intro hslots hform
    have hnone : ∀ part, ¬ p.source.Guides id part := fun part h => by
      rw [Module.Guides, hslots] at h
      cases h
    refine ⟨?_, fun part h => absurd h (hnone part), fun h => ?_⟩
    · rw [commitStep_leaf hslots hform recurse]
      exact (Shadows.refl _ s).congr ⟨fun _ part h => absurd h (hnone part), fun _ => trivial⟩
    · rw [hform] at h
      cases h
  cases hexpr : p.source.expr id with
  | list items => exact stepFollowed_list htree hfirm hsuited hcommits hparts hagrees hrun hafter hexpr
  | record fields =>
    exact stepFollowed_record htree hfirm hsuited hcommits hparts hagrees hrun hafter hexpr hdistinct
  | group inner => exact stepFollowed_group htree hfirm hsuited hcommits hparts hagrees hrun hafter hexpr
  | binary op lhs rhs =>
    exact stepFollowed_binary htree hfirm hsuited hcommits hparts hagrees hrun hafter hexpr
  | unary op operand =>
    exact stepFollowed_unary htree hfirm hsuited hcommits hparts hagrees hrun hafter hexpr
  | missing | literal | reference | unsupported =>
    exact hleaf (by rw [hexpr]; rfl) (by rw [hexpr]; rfl)

end Steps

/-! ## Whole trees -/

/-- No list or record that is reached is held with a type to avoid. -/
def Unavoided (p : Program) (avoided : ExprId → Ty → Bool) (u : Checker) (id : ExprId) : Prop :=
  ∀ e, p.source.GuidedWithin id e → (p.source.expr e).isConstructor = true →
    ∀ ty, u.exprTypes.get? e = some ty → avoided e ty = false

/-- The lists and records that are reached have types by which their parts stand where they were put. -/
def AllPositioned (p : Program) (s u : Checker) (id : ExprId) : Prop :=
  ∀ e, p.source.GuidedWithin id e → (p.source.expr e).isConstructor = true →
    ∃ ty, u.exprTypes.get? e = some ty ∧ Positioned p s u e ty

section Trees

variable {p : Program} {given : ConstId → Ty} {scope : ScopeId} {s₀ s t u : Checker}
variable {id : ExprId} {target : Ty}

/-- What holds at a tree holds at the whole and at the parts with the same expectation. -/
theorem forall_guidedWithin_iff {m : Module} {q : ExprId → Prop} :
    (∀ e, m.GuidedWithin id e → q e)
      ↔ q id ∧ ∀ part, m.Guides id part → ∀ e, m.GuidedWithin part e → q e := by
  refine ⟨fun h => ⟨h id .refl, fun part hpart e he => h e (.head hpart he)⟩, fun h e he => ?_⟩
  rcases Relation.ReflTransGen.cases_head he with rfl | ⟨part, hpart, he⟩
  · exact h.1
  · exact h.2 part hpart e he

/-- **The watched commitment goes with the other one**: it is given up just if a list or a record that
is reached is held in the end with a type to avoid. By these types all parts stand where they were
put. -/
theorem followed_commitAvoiding (avoided : ExprId → Ty → Bool) {n : Nat} (htree : p.source.Tree id)
    (hn : p.source.height id < n) (hfirm : Firm p given scope id) (hdistinct : Distinct p.source s₀ id)
    (hsuited : Suited p given scope s₀ id target) :
    Followed p s₀ u (Unavoided p avoided u) (AllPositioned p s₀ u) (commitAvoiding p avoided n)
      (commitWithin p n) id target := by
  induction n generalizing id target with
  | zero => exact absurd hn (Nat.not_lt_zero _)
  | succ n ih =>
    intro s t hagrees hrun hafter
    have hlt : ∀ part, p.source.Part id part → p.source.height part < n := fun part hpart => by
      have := htree.founded.height_lt hpart
      omega
    have heffective : target.effective = target := Ty.hereditary_definite.effective _ hsuited.1.1
    rw [commitWithin, heffective] at hrun ⊢
    have hstep : StepFollowed p s₀ u (Unavoided p avoided u) (AllPositioned p s₀ u)
        (commitAvoiding p avoided n) (commitWithin p n) id target s :=
      stepFollowed htree hfirm hsuited
        (fun part hpart => commits_commitWithin (htree.part hpart) (hlt part hpart))
        (fun part ty hpart hty => ih (htree.part hpart) (hlt part hpart) (hfirm.part hpart)
          (hdistinct.part hpart) hty) hagrees hrun hafter hdistinct
    have hwhole := hstep.whole
    rw [commitAvoiding, heffective]
    refine ⟨?_, forall_guidedWithin_iff.mpr ⟨fun hform => ⟨target, hwhole hform⟩, hstep.parts⟩⟩
    by_cases hvisit : ((p.source.expr id).isConstructor && avoided id target) = true
    · rw [if_pos hvisit]
      obtain ⟨hform, havoided⟩ := Bool.and_eq_true_iff.mp hvisit
      refine ⟨fun hfree => ?_, fun _ => rfl⟩
      rw [hfree id .refl hform target (hwhole hform).1] at havoided
      cases havoided
    · rw [if_neg hvisit]
      refine hstep.shadows.congr (Iff.symm (forall_guidedWithin_iff.trans (and_iff_right ?_)))
      intro hform ty hty
      cases (hwhole hform).1.symm.trans hty
      rw [hform, Bool.true_and] at hvisit
      exact Bool.eq_false_iff.mpr hvisit

variable (htree : p.source.Tree id) (hfirm : Firm p given scope id)
  (hdistinct : Distinct p.source s₀ id) (hsuited : Suited p given scope s₀ id target)
  (hagrees : Agrees p.source id s₀ s) (hrun : (commit p id target).run s = some ((), t))
  (hafter : Agrees p.source id t u)

include htree hfirm hdistinct hsuited hagrees hrun hafter

theorem allPositioned_of_commit : AllPositioned p s₀ u id :=
  (followed_commitAvoiding (fun _ _ => false) htree
    (Nat.lt_succ_of_le htree.founded.height_le) hfirm hdistinct hsuited s t hagrees hrun hafter).2

/-- **Commitment visits the lists and records that are reached**, each with the type that is held for
it in the end. -/
theorem commitVisits_iff {e : ExprId} {ty : Ty} : CommitVisits p s id target e ty
    ↔ p.source.GuidedWithin id e ∧ (p.source.expr e).isConstructor = true
      ∧ u.exprTypes.get? e = some ty := by
  have hfollowed := fun avoided => (followed_commitAvoiding avoided htree
    (Nat.lt_succ_of_le htree.founded.height_le) hfirm hdistinct hsuited s t hagrees hrun hafter).1
  classical
  refine ⟨fun hvisits => ?_, fun ⟨he, hform, hty⟩ avoided havoided => ?_⟩
  · -- only this one visit is avoided
    by_contra hnone
    let avoided : ExprId → Ty → Bool := fun a other => decide (a = e ∧ other = ty)
    have hfree : Unavoided p avoided u id := by
      intro a ha hform other hother
      refine decide_eq_false fun heq => hnone ?_
      obtain ⟨rfl, rfl⟩ := heq
      exact ⟨ha, hform, hother⟩
    have hstopped := hvisits avoided (decide_eq_true ⟨rfl, rfl⟩)
    cases hstopped.symm.trans (((hfollowed avoided).same hfree).trans hrun)
  · refine (hfollowed avoided).stopped fun hfree => ?_
    rw [hfree e he hform ty hty] at havoided
    cases havoided

end Trees

end ConstNarrow
