/-
**Committing a type to a tree.**

A type is committed to an expression from the top down. What is done to a part stays within it, so the
parts can be looked at one by one. Commitment always comes to an end, and changes nothing but the
expressions that are reached along parts with the same expectation. If the target was made for the
expression, every reading that it asks for is there, and no violation is logged, unless a record
writes a computed key twice; and what lasts is committed in the end.
-/
import ConstNarrow.Proofs.Targets

set_option autoImplicit false

namespace ConstNarrow

open Checker

/-! ## What is reached -/

namespace Module

variable {m : Module}

/-- One expression has another as a part that shares its expectation. -/
def Guides (m : Module) (a b : ExprId) : Prop := ⟨b, true⟩ ∈ (m.expr a).slots

/-- An expression is another one, or is reached from it along such parts. -/
def GuidedWithin (m : Module) : ExprId → ExprId → Prop := Relation.ReflTransGen m.Guides

theorem GuidedWithin.within {a b : ExprId} (h : m.GuidedWithin a b) : m.Within a b := by
  induction h with
  | refl => exact .refl
  | tail _ hstep ih => exact ih.tail (Expr.part_mem_children hstep)

/-- Nothing is reached in a part that was evaluated without an expectation. -/
theorem Tree.not_guidedWithin {root a b e : ExprId} (h : m.Tree root) (ha : m.Within root a)
    (hb : ⟨b, false⟩ ∈ (m.expr a).slots) (he : m.Within b e) : ¬ m.GuidedWithin root e := by
  have hpart : m.Part a b := Expr.part_mem_children hb
  induction he with
  | refl =>
    intro hguided
    rcases Relation.ReflTransGen.cases_tail hguided with rfl | ⟨c, hc, hguides⟩
    · exact h.top a ha hpart
    · -- the part would stand in two slots of one expression
      have hwithin := GuidedWithin.within hc
      have heq : c = a := h.parent c a b hwithin ha (Expr.part_mem_children hguides) hpart
      subst heq
      have hnodup : ((m.expr c).slots.map Slot.part).Nodup := by
        rw [Expr.map_part_slots]
        exact h.nodup c ha
      cases List.inj_on_of_nodup_map hnodup hguides hb rfl
  | @tail y e hy hye ih =>
    intro hguided
    have hwithin : m.Within root y := (ha.tail hpart).trans hy
    rcases Relation.ReflTransGen.cases_tail hguided with rfl | ⟨c, hc, hguides⟩
    · exact h.top y hwithin hye
    · have heq : c = y :=
        h.parent c y e (GuidedWithin.within hc) hwithin (Expr.part_mem_children hguides) hye
      exact ih (heq ▸ hc)

end Module

/-- No record in an expression writes a computed key twice. -/
def Distinct (m : Module) (s : Checker) (id : ExprId) : Prop :=
  ∀ e fields, m.Within id e → m.expr e = .record fields → (keyNamesOf s.keyName fields).Nodup

namespace Distinct

variable {m : Module} {s t : Checker} {id : ExprId}

theorem part (h : Distinct m s id) {part : ExprId} (hpart : m.Part id part) : Distinct m s part :=
  fun e fields he => h e fields (.head hpart he)

theorem congr (h : Distinct m s id)
    (hkeys : ∀ e key, m.Within id e → key ∈ (m.expr e).keys → t.keyName key = s.keyName key) :
    Distinct m t id := by
  intro e fields he hexpr
  have hnames : keyNamesOf t.keyName fields = keyNamesOf s.keyName fields :=
    keyNamesOf_congr fun key hkey => hkeys e key he (by rw [hexpr]; exact hkey)
  rw [hnames]
  exact h e fields he hexpr

theorem agrees (h : Distinct m s id) (hagrees : Agrees m id s t) : Distinct m t id := by
  refine h.congr fun e key he hkey => ?_
  have hpart : m.Part e key := Expr.part_mem_children (Expr.slot_of_mem_keys hkey)
  rw [keyName, keyName, hagrees.types key (he.tail hpart)]

/-- Keys are not reached, so they are still the same afterwards. -/
theorem of_touches (h : Distinct m t id) (htree : m.Tree id)
    (htouches : Touches (m.GuidedWithin id) s t) : Distinct m s id := by
  refine h.congr fun e key he hkey => ?_
  have hkept := htouches.types key
    (htree.not_guidedWithin he (Expr.slot_of_mem_keys hkey) .refl)
  rw [keyName, keyName, hkept]

/-- Then everything lasts. -/
theorem lastsWithin {p : Program} {e : ExprId} (h : Distinct p.source s id)
    (he : p.source.Within id e) : LastsWithin p s id e := by
  induction he with
  | refl => exact .refl
  | @tail a b ha hpart ih =>
    refine ih.tail ?_
    rw [Module.Part] at hpart
    rw [Lasts]
    cases hexpr : p.source.expr a with
    | record fields =>
      rw [hexpr] at hpart
      rw [Expr.lasting, lastingExprs_of_nodup (h a fields ha hexpr)]
      exact hpart
    | _ =>
      rw [hexpr] at hpart
      exact hpart

end Distinct

/-! ## One expression -/

/-- **A reading of a choice is picked for a target.** The value is that of the reading. A choice of one
takes over the base of a target that has its value; of several, the reading is left as it stands. -/
structure Singleton.Picks (reading : Singleton) (values : List Singleton) (target v : Singleton) :
    Prop where
  value : v.value = reading.value
  domain : v.base.domain = reading.base.domain
  retagged : values.length = 1 → (reading.value == target.value) = true → v.base = target.base
  left : values.length ≠ 1 → v = reading

/-- Of a choice the reading in the domain of the target is left. -/
def Chosen (s t : Checker) (id : ExprId) (target : Ty) : Prop :=
  ∀ w values, target = .singleton w → s.exprTypes.get? id = some (.ofValues values) →
    ∃ r ∈ values, r.base.domain = w.base.domain
      ∧ ∃ v, t.exprTypes.get? id = some (.singleton v) ∧ r.Picks values w v

theorem Primitive.domain_eq_int {a b : Primitive} (h : a.domain = b.domain) (hne : a ≠ b) :
    a.domain = .int := by
  cases a <;> cases b <;> first | rfl | exact absurd rfl hne | cases h

/-- The same value under another base of the domain is a number in both cases. -/
theorem Singleton.value_eq_of_sameValue {r w : Singleton} (hr : r.IsCoherent)
    (hsame : r.sameValue w = true) (hbase : r.base ≠ w.base) : w.value = r.value := by
  obtain ⟨hvalue, hdomain⟩ := Bool.and_eq_true_iff.mp hsame
  have hint : r.value.naturalBase = .int :=
    hr.symm.trans (Primitive.domain_eq_int (beq_iff_eq.mp hdomain) hbase)
  have hvalue : r.value.same w.value = true := hvalue
  cases hr : r.value with
  | int i =>
    cases hw : w.value with
    | int j =>
      rw [hr, hw, Scalar.same, beq_iff_eq] at hvalue
      rw [hvalue]
    | _ =>
      rw [hr, hw] at hvalue
      cases hvalue
  | _ =>
    rw [hr] at hint
    cases hint

theorem ends_typeOf? {id : ExprId} {s : Checker} {α : Type} {f : Option Ty → CheckM α}
    {Q : α → Checker → Prop} (h : Ends (f (s.exprTypes.get? id)) s Q) :
    Ends (typeOf? id >>= f) s Q := by
  refine Ends.bind (Ends.typeOf? (Q := fun entry t => entry = s.exprTypes.get? id ∧ t = s) ⟨rfl, rfl⟩) ?_
  rintro _ _ ⟨rfl, rfl⟩
  exact h

theorem ends_setType {id : ExprId} {ty : Ty} {s : Checker} {Q : Unit → Checker → Prop}
    (h : Q () { s with exprTypes := s.exprTypes.insert id ty }) : Ends (setType id ty) s Q :=
  Ends.modify h

/-- A reading is chosen at one expression only. -/
theorem touches_commitReading (id : ExprId) (target : Ty) (s : Checker) :
    Ends (commitReading id target) s fun _ t => Touches (· = id) s t := by
  unfold commitReading
  refine ends_typeOf? ?_
  split
  · split
    · split
      · exact ends_setType (touches_type_at id s _)
      · exact .pure (.refl _ s)
    · exact .pure (.refl _ s)
  · split
    · exact ends_setType (touches_type_at id s _)
    · exact .modify (touches_journal _ s _)
  · exact .pure (.refl _ s)

/-- **The reading in the domain of the target is picked.** The search for it ends at the one reading
that there is in a domain. -/
theorem ends_commitReading_choice {id : ExprId} {values : List Singleton} {w : Singleton}
    {s : Checker} (h : HoldsChoice s id values)
    (hw : ∃ v ∈ values, w.base.domain = v.base.domain) :
    Ends (commitReading id (.singleton w)) s fun _ t => Touches (· = id) s t ∧ Quiet s t
      ∧ t.signatures = s.signatures ∧ ∃ r ∈ values, r.base.domain = w.base.domain
        ∧ ∃ v, t.exprTypes.get? id = some (.singleton v) ∧ r.Picks values w v := by
  obtain ⟨v, hv, hdomain⟩ := hw
  unfold commitReading
  refine ends_typeOf? ?_
  rw [h.entry]
  match values, h with
  | [r], h =>
    obtain rfl : v = r := List.mem_singleton.mp hv
    show Ends (if (v.sameValue w && v.base != w.base) = true then setType id (.singleton w)
      else pure ()) s _
    split
    · rename_i hsame
      obtain ⟨hsame, hbase⟩ := Bool.and_eq_true_iff.mp hsame
      have hvalue := Singleton.value_eq_of_sameValue (h.coherent v hv) hsame (bne_iff_ne.mp hbase)
      refine ends_setType ⟨touches_type_at id s _, .refl s, rfl, v, hv, hdomain.symm, w,
        Table.get?_insert_self _ _ _, hvalue, hdomain, fun _ _ => rfl, fun hlen => absurd rfl hlen⟩
    · rename_i hkept
      refine .pure ⟨.refl _ s, .refl s, rfl, v, hv, hdomain.symm, v, h.entry, rfl, rfl,
        fun _ hvalue => ?_, fun _ => rfl⟩
      -- a value that stays although it is the same has the base already
      by_contra hne
      refine hkept (Bool.and_eq_true_iff.mpr ⟨Bool.and_eq_true_iff.mpr ⟨hvalue, ?_⟩, bne_iff_ne.mpr hne⟩)
      exact beq_iff_eq.mpr hdomain.symm
  | r₁ :: r₂ :: rest, h =>
    obtain ⟨r, hfind⟩ : ∃ r, (r₁ :: r₂ :: rest).find? (fun r => r.base.domain == w.base.domain)
        = some r := by
      refine Option.isSome_iff_exists.mp (List.find?_isSome.mpr ⟨v, hv, ?_⟩)
      exact beq_iff_eq.mpr hdomain.symm
    have hreading : reading? ((r₁ :: r₂ :: rest).map .singleton) (.singleton w)
        = some (.singleton r) := by
      have hmap : ((r₁ :: r₂ :: rest).map Ty.singleton).find? (inDomain w.base)
          = some (.singleton r) := by
        rw [List.find?_map]
        exact (congrArg (Option.map Ty.singleton) hfind)
      show (((r₁ :: r₂ :: rest).map Ty.singleton).find? (inDomain w.base)).or _ = _
      rw [hmap, Option.some_or]
    have hmem := List.mem_of_find?_eq_some hfind
    have hin : r.base.domain = w.base.domain := by simpa using List.find?_some hfind
    have hunion : Ty.ofValues (r₁ :: r₂ :: rest) = .union ((r₁ :: r₂ :: rest).map .singleton) := rfl
    rw [hunion]
    dsimp only
    rw [hreading]
    exact ends_setType ⟨touches_type_at id s _, .refl s, rfl, r, hmem, hin, r,
      Table.get?_insert_self _ _ _, rfl, rfl, fun hlen => (by cases hlen), fun _ => rfl⟩
  | [], h => exact absurd rfl h.isChoice.ne_nil

/-- What is no choice stays as it is. -/
theorem run_commitReading_other {id : ExprId} {ty target : Ty} {s : Checker}
    (hentry : s.exprTypes.get? id = some ty) (hty : ty.Tentative)
    (hother : ∀ values, ty ≠ .ofValues values) :
    (commitReading id target).run s = some ((), s) := by
  have hrun : ∀ f : Option Ty → CheckM Unit, f (some ty) = pure () →
      (typeOf? id >>= f).run s = some ((), s) := by
    intro f hf
    show (f (s.exprTypes.get? id)).run s = _
    rw [hentry, hf]
    rfl
  refine hrun _ ?_
  cases hty with
  | @choice values _ => exact absurd rfl (hother values)
  | tuple _ | record _ _ | table | anydata | error => rfl

section Reading

variable {p : Program} {given : ConstId → Ty} {scope : ScopeId} {lax : Bool} {s t : Checker}
variable {id : ExprId} {target : Ty}

/-- **A target that is made for an expression finds its reading.** -/
theorem Aims.ends_commitReading (h : Aims p given scope lax s id target)
    (herror : target.isError = false) (hentry : t.exprTypes.get? id = s.exprTypes.get? id) :
    Ends (commitReading id target) t fun _ u => Touches (· = id) t u ∧ Quiet t u
      ∧ u.signatures = t.signatures ∧ Chosen s u id target
      ∧ ((∀ values, s.exprTypes.get? id ≠ some (.ofValues values)) →
        u.exprTypes.get? id = s.exprTypes.get? id)
      ∧ ((∃ v, u.exprTypes.get? id = some (.singleton v)) ∨ ∃ expected ty,
        Held p given scope s expected id ty ∧ ty.isError = false ∧ u.exprTypes.get? id = some ty
          ∧ ∀ values, ty ≠ .ofValues values) := by
  -- either there is a choice with a reading for the target, or what is held stays
  rcases h.choice_or herror with ⟨w, values, rfl, hchoice, hw⟩ | ⟨expected, ty, hheld, hok, hty, hother⟩
  · have hchoice' : HoldsChoice t id values :=
      ⟨hentry.trans hchoice.entry, hchoice.isChoice, hchoice.coherent⟩
    refine (ends_commitReading_choice hchoice' hw).mono ?_
    rintro _ u ⟨htouches, hquiet, hsignatures, r, hr, hdomain, v, hv, hpicks⟩
    refine ⟨htouches, hquiet, hsignatures, fun w' values' hw' hvalues' => ?_,
      fun hother => absurd hchoice.entry (hother values), Or.inl ⟨v, hv⟩⟩
    cases Ty.singleton_injective hw'
    cases Ty.ofValues_injective (Option.some.inj (hchoice.entry.symm.trans hvalues'))
    exact ⟨r, hr, hdomain, v, hv, hpicks⟩
  · refine ⟨(), t, run_commitReading_other (hentry.trans hty) hheld.isOperand.tentative hother,
      .refl _ t, .refl t, rfl, fun w values _ hvalues => ?_, fun _ => hentry,
      Or.inr ⟨expected, ty, hheld, hok, hentry.trans hty, hother⟩⟩
    exact absurd (Option.some.inj (hty.symm.trans hvalues)) (hother values)

/-- What is held and is no choice is a list or a record. -/
theorem Held.isStructured {expected : Option Ty} {ty : Ty} (h : Held p given scope s expected id ty)
    (hfirm : Firm p given scope id) (herror : ty.isError = false)
    (hother : ∀ values, ty ≠ .ofValues values) : ty.isStructured = true := by
  have hvoid := h.not_void hfirm herror
  cases h.isOperand.tentative with
  | @choice values _ => exact absurd rfl (hother values)
  | tuple _ | record _ _ => rfl
  | table => exact absurd (Or.inl rfl) hvoid
  | anydata => exact absurd (Or.inr (Or.inl rfl)) hvoid
  | error => exact absurd (Or.inr (Or.inr rfl)) hvoid

/-- The signature of an operator shows what the tables hold for its operands and for itself. -/
theorem ends_settleSignature (id : ExprId) (operands : List ExprId) (s : Checker) :
    Ends (settleSignature id operands) s fun _ t => Touches (· = id) s t ∧ Quiet s t
      ∧ t.exprTypes = s.exprTypes ∧ ((s.signatures.get? id).isSome = true → t.signatures.get? id
        = some ⟨operands.map fun e => ((s.exprTypes.get? e).map widened).getD .error,
          ((s.exprTypes.get? id).map widened).getD .error⟩) := by
  refine .modify ?_
  dsimp only
  split
  · exact ⟨touches_signature_at id s _, .refl s, rfl, fun _ => Table.get?_insert_self _ _ _⟩
  · rename_i hnone
    exact ⟨.refl _ s, .refl s, rfl, fun hsome => absurd hsome hnone⟩

end Reading

/-! ## Going through the parts -/

/-- Whether an expression puts a list or a record together. -/
def Expr.isConstructor : Expr → Bool
  | .list _ => true
  | .record _ => true
  | _ => false

/-- An expression has been given a target: a choice is decided, anything else stays, and what puts a
list or a record together has the target as its type. -/
structure Taken (p : Program) (s : Checker) (id : ExprId) (target : Ty) (t : Checker) : Prop where
  chosen : Chosen s t id target
  stays : (p.source.expr id).isConstructor = false →
    (∀ values, s.exprTypes.get? id ≠ some (.ofValues values)) →
    t.exprTypes.get? id = s.exprTypes.get? id
  whole : (p.source.expr id).isConstructor = true → t.exprTypes.get? id = some target

/-- What a target achieves, if it is made for the expression and all names leave no choice. -/
def Achieved (p : Program) (given : ConstId → Ty) (scope : ScopeId) (lax : Bool) (s : Checker)
    (id : ExprId) (target : Ty) (t : Checker) : Prop :=
  Aims p given scope lax s id target → lax = false → Firm p given scope id →
    Committed p t id ∧ Taken p s id target t

/-- What comes of committing a target to an expression. -/
structure Outcome (p : Program) (given : ConstId → Ty) (scope : ScopeId) (lax : Bool) (s : Checker)
    (id : ExprId) (target : Ty) (t : Checker) : Prop where
  touches : Touches (p.source.GuidedWithin id) s t
  quiet : Aims p given scope lax s id target → Distinct p.source s id → Quiet s t
  achieved : Achieved p given scope lax s id target t

/-- Targets can be committed to an expression. -/
def Commits (p : Program) (given : ConstId → Ty) (scope : ScopeId) (lax : Bool)
    (recurse : ExprId → Ty → CheckM Unit) (id : ExprId) : Prop :=
  ∀ target s, Ends (recurse id target) s fun _ t => Outcome p given scope lax s id target t

/-- What is the case at a place that was passed: it is untouched, or has been given its target. -/
structure Place.Done (p : Program) (given : ConstId → Ty) (scope : ScopeId) (lax : Bool)
    (s : Checker) (place : Place) (t : Checker) : Prop where
  kept : place.target = none → Agrees p.source place.slot.part s t
  achieved : ∀ target, place.target = some target →
    Achieved p given scope lax s place.slot.part target t

/-- There is a target for a place that is made for it, and no key is written twice there. -/
def Place.Clear (p : Program) (given : ConstId → Ty) (scope : ScopeId) (lax : Bool) (s : Checker) :
    Place → Prop
  | plain _ => True
  | guided part _ target => ∃ result, target = some result ∧ Aims p given scope lax s part result
      ∧ Distinct p.source s part

section Parts

variable {p : Program} {given : ConstId → Ty} {scope : ScopeId} {lax : Bool} {s₀ s t u : Checker}
variable {recurse : ExprId → Ty → CheckM Unit} {calm : Prop} {id : ExprId} {target : Ty}

theorem Achieved.agrees (h : Achieved p given scope lax s id target t)
    (hagrees : Agrees p.source id t u) : Achieved p given scope lax s id target u := by
  intro haims hlax hfirm
  obtain ⟨hcommitted, htaken⟩ := h haims hlax hfirm
  refine ⟨hcommitted.agrees hagrees, fun w values hw hvalues => ?_, fun hform hother => ?_,
    fun hform => ?_⟩
  · rw [hagrees.types id .refl]
    exact htaken.chosen w values hw hvalues
  · rw [hagrees.types id .refl]
    exact htaken.stays hform hother
  · rw [hagrees.types id .refl]
    exact htaken.whole hform

variable (p given scope lax) in
/-- The walk of commitment: parts that have not been touched are given their targets. -/
def committing (s₀ : Checker) (calm : Prop) : Walk p.source Place where
  part := fun place => place.slot.part
  reach := fun place e => place.target.isSome = true ∧ p.source.GuidedWithin place.slot.part e
  before := fun place s => Agrees p.source place.slot.part s₀ s
  after := fun place t => place.Done p given scope lax s₀ t
  calm := calm
  reach_within := fun _ _ h => h.2.within
  before_touches := fun _ _ _ _ h htouches hapart => h.trans (htouches.agrees hapart)
  after_touches := fun _ _ _ _ h htouches hapart =>
    ⟨fun hnone => (h.kept hnone).trans (htouches.agrees hapart),
      fun target htarget => (h.achieved target htarget).agrees (htouches.agrees hapart)⟩

/-- A place without a target is passed by a computation that only looks at the part. -/
theorem passes_kept {α : Type} {c : CheckM α} {a : α} {place : Place} (htarget : place.target = none)
    (hc : ∀ s, Agrees p.source place.slot.part s₀ s → c.run s = some (a, s)) :
    (committing p given scope lax s₀ calm).Passes c [place] a := by
  intro s hbefore
  have hagrees := hbefore place List.mem_cons_self
  refine ⟨a, s, hc s hagrees, rfl, .refl _ s, fun _ => .refl s, List.forall_mem_singleton.mpr ?_⟩
  refine ⟨fun _ => hagrees, fun target h => ?_⟩
  rw [htarget] at h
  cases h

/-- A place for which there is no target is passed with a violation. -/
theorem passes_violated {place : Place} (htarget : place.target = none) (hcalm : ¬ calm) (e : Event) :
    (committing p given scope lax s₀ calm).Passes (note e) [place] () := by
  intro s hbefore
  have hagrees := hbefore place List.mem_cons_self
  refine ⟨(), _, rfl, rfl, touches_journal _ s _, fun h => absurd h hcalm,
    List.forall_mem_singleton.mpr ⟨fun _ => ?_, fun target h => ?_⟩⟩
  · exact ⟨hagrees.types, hagrees.signatures⟩
  · rw [htarget] at h
    cases h

/-- A place with a target is passed by committing it. -/
theorem passes_recurse {part : ExprId} {lasts : Bool} (hcommits : Commits p given scope lax recurse part)
    (hclear : calm → (Place.guided part lasts (some target)).Clear p given scope lax s₀) :
    (committing p given scope lax s₀ calm).Passes (recurse part target)
      [.guided part lasts (some target)] () := by
  intro s hbefore
  have hagrees : Agrees p.source part s₀ s := hbefore _ List.mem_cons_self
  refine (hcommits target s).mono ?_
  intro _ t houtcome
  refine ⟨rfl, houtcome.touches.mono fun e he => ⟨_, List.mem_cons_self, rfl, he⟩, fun hcalm => ?_,
    List.forall_mem_singleton.mpr ⟨fun h => (by cases h), ?_⟩⟩
  · obtain ⟨result, hresult, haims, hdistinct⟩ := hclear hcalm
    cases hresult
    exact houtcome.quiet (haims.agrees hagrees) (hdistinct.agrees hagrees)
  · -- the part is as it was when the walk began
    rintro _ ⟨⟩ haims hlax hfirm
    obtain ⟨hcommitted, htaken⟩ := houtcome.achieved (haims.agrees hagrees) hlax hfirm
    have hentry : s.exprTypes.get? part = s₀.exprTypes.get? part := hagrees.types part .refl
    refine ⟨hcommitted, fun w values hw hvalues => htaken.chosen w values hw (hentry.trans hvalues),
      fun hform hother => ?_, htaken.whole⟩
    exact (htaken.stays hform (by rw [hentry]; exact hother)).trans hentry

/-! ### Lists -/

theorem run_spreadLength (operand : ExprId) (s : Checker) :
    (spreadLength operand).run s = some (s.spreadCount operand, s) := by
  have htype : (typeOf? operand).run s = some (s.exprTypes.get? operand, s) := rfl
  unfold spreadLength spreadCount
  rw [run_bind_some htype]
  cases (s.exprTypes.get? operand).map Ty.effective with
  | none => rfl
  | some ty => cases ty <;> rfl

theorem passes_commitItems {items : List ListItem} {position? : Nat → Option Ty} {index : Nat}
    (hcommits : ∀ item ∈ items, Commits p given scope lax recurse item.expr)
    (hclear : calm → ∀ place ∈ itemPlaces s₀ position? index items, place.Clear p given scope lax s₀)
    (hapart : p.source.Apart ((itemPlaces s₀ position? index items).map fun place => place.slot.part)) :
    (committing p given scope lax s₀ calm).Passes (commitItems recurse id target position? index items)
      (itemPlaces s₀ position? index items) () := by
  induction items generalizing index with
  | nil => exact .tells (.pure _)
  | cons item items ih =>
    obtain ⟨hfirst, hrest⟩ := List.forall_mem_cons.mp hcommits
    cases item with
    | member value =>
      have htail : (committing p given scope lax s₀ calm).Passes
          (commitItems recurse id target position? (index + 1) items)
          (itemPlaces s₀ position? (index + 1) items) () :=
        ih hrest (fun hcalm => (List.forall_mem_cons.mp (hclear hcalm)).2) (List.pairwise_cons.mp hapart).2
      have hvalue := fun hcalm => (List.forall_mem_cons.mp (hclear hcalm)).1
      rw [itemPlaces] at hapart ⊢
      rw [commitItems]
      cases hposition : position? index with
      | some ty =>
        rw [hposition] at hvalue hapart
        exact (passes_recurse hfirst hvalue).bind htail rfl hapart
      | none =>
        -- without a target there, the whole was not made for the list
        rw [hposition] at hvalue hapart
        refine (passes_violated rfl (fun hcalm => ?_) _).bind htail rfl hapart
        obtain ⟨_, h, -⟩ := hvalue hcalm
        cases h
    | spread operand =>
      have htail : (committing p given scope lax s₀ calm).Passes
          (commitItems recurse id target position? (index + s₀.spreadCount operand) items)
          (itemPlaces s₀ position? (index + s₀.spreadCount operand) items) () :=
        ih hrest (fun hcalm => (List.forall_mem_cons.mp (hclear hcalm)).2) (List.pairwise_cons.mp hapart).2
      have hlength : (committing p given scope lax s₀ calm).Passes (spreadLength operand)
          [.plain operand] (s₀.spreadCount operand) := by
        refine passes_kept rfl fun s hagrees => ?_
        rw [run_spreadLength, spreadCount, spreadCount, hagrees.types operand .refl]
      exact hlength.bind htail rfl hapart

/-! ### Records -/

theorem run_keyName? (key : ExprId) (s : Checker) : (keyName? key).run s = some (s.keyName key, s) := rfl

theorem run_keyNames (fields : List RecordField) (s : Checker) :
    (keyNames fields).run s = some (keyNamesOf s.keyName fields, s) := by
  induction fields with
  | nil => rfl
  | cons field fields ih =>
    cases field with
    | computed key value =>
      rw [keyNames, run_bind_some (run_keyName? key s), run_bind_some ih]
      rfl
    | named | reference | spread => exact ih

theorem passes_commitPlace {part : ExprId} {lasts : Bool} {targets : Fields none}
    {name : Option String} (hcommits : Commits p given scope lax recurse part)
    (hclear : calm → (Place.guided part lasts (placeTarget targets name)).Clear p given scope lax s₀) :
    (committing p given scope lax s₀ calm).Passes (commitPlace recurse id target targets name part)
      [.guided part lasts (placeTarget targets name)] () := by
  unfold commitPlace placeTarget at *
  cases hfield : name.bind targets.get? with
  | some field =>
    rw [hfield] at hclear
    exact passes_recurse hcommits hclear
  | none =>
    refine passes_violated rfl (fun hcalm => ?_) _
    obtain ⟨_, h, -⟩ := hclear hcalm
    rw [hfield] at h
    cases h

theorem passes_commitWritten {value : ExprId} {targets : Fields none} {overwritten : List String}
    {name : Option String} (hcommits : Commits p given scope lax recurse value)
    (hclear : calm → (Place.guided value true
      (writtenTarget s₀ targets overwritten name value)).Clear p given scope lax s₀) :
    (committing p given scope lax s₀ calm).Passes
      (commitWritten recurse id target targets overwritten name value)
      [.guided value true (writtenTarget s₀ targets overwritten name value)] () := by
  unfold commitWritten writtenTarget at *
  by_cases hover : name.any overwritten.contains = true
  · rw [if_pos hover] at hclear ⊢
    rw [if_pos hover]
    intro s hbefore
    have hagrees : Agrees p.source value s₀ s := hbefore _ List.mem_cons_self
    refine ends_typeOf? ?_
    rw [hagrees.types value .refl]
    cases hentry : s₀.exprTypes.get? value with
    | none =>
      exact passes_kept rfl (fun _ _ => rfl) s (List.forall_mem_singleton.mpr hagrees)
    | some own =>
      rw [hentry] at hclear
      -- the own type is narrowed, which only writes to the journal
      have hpass : (committing p given scope lax s₀ calm).Passes (narrow own >>= recurse value)
          [.guided value true (some own.narrowed)] () :=
        Walk.Passes.bind (.tells (.narrow own)) (passes_recurse hcommits hclear)
          (List.nil_append _).symm (List.pairwise_singleton _ _)
      exact hpass s (List.forall_mem_singleton.mpr hagrees)
  · rw [if_neg hover] at hclear ⊢
    rw [if_neg hover]
    exact passes_commitPlace hcommits hclear

theorem passes_commitFields {fields : List RecordField} {targets : Fields none}
    {overwritten : List String}
    (hcommits : ∀ e ∈ fields.flatMap RecordField.exprs, Commits p given scope lax recurse e)
    (hclear : calm → ∀ place ∈ recordPlaces p.source s₀ targets overwritten fields,
      place.Clear p given scope lax s₀)
    (hapart : p.source.Apart ((recordPlaces p.source s₀ targets overwritten fields).map
      fun place => place.slot.part)) :
    (committing p given scope lax s₀ calm).Passes
      (commitFields p recurse id target targets overwritten fields)
      (recordPlaces p.source s₀ targets overwritten fields) () := by
  induction fields with
  | nil => exact .tells (.pure _)
  | cons field fields ih =>
    rw [List.flatMap_cons, List.forall_mem_append] at hcommits
    have hsplit := hapart
    rw [recordPlaces, List.map_append] at hsplit
    obtain ⟨hapartFirst, hapartRest, -⟩ := List.pairwise_append.mp hsplit
    have htail := ih hcommits.2 (fun hcalm place hplace => hclear hcalm place (List.mem_append_right _ hplace))
      hapartRest
    have hfirst := fun hcalm place hplace => hclear hcalm place (List.mem_append_left _ hplace)
    cases field with
    | named _ value | reference value =>
      refine Walk.Passes.bind (f := fun _ => commitFields p recurse id target targets overwritten fields)
        (passes_commitWritten (hcommits.1 value List.mem_cons_self) ?_) htail rfl hapart
      exact fun hcalm => hfirst hcalm _ List.mem_cons_self
    | spread operand =>
      exact Walk.Passes.bind (f := fun _ => commitFields p recurse id target targets overwritten fields)
        (passes_kept (c := pure ()) rfl fun _ _ => rfl) htail rfl hapart
    | computed key value =>
      have hkey : (committing p given scope lax s₀ calm).Passes (keyName? key) [.plain key]
          (s₀.keyName key) := by
        refine passes_kept rfl fun s hagrees => ?_
        have hname : s.keyName key = s₀.keyName key := keyName_congr hagrees .refl
        rw [run_keyName?, hname]
      have hvalue : (committing p given scope lax s₀ calm).Passes
          (commitPlace recurse id target targets (s₀.keyName key) value) [.guided value
            (!(s₀.keyName key).any (keyNamesOf s₀.keyName fields).contains)
            (placeTarget targets (s₀.keyName key))] () :=
        passes_commitPlace (hcommits.1 value (List.mem_cons_of_mem _ List.mem_cons_self))
          fun hcalm => hfirst hcalm _ (List.mem_cons_of_mem _ List.mem_cons_self)
      have hboth : (committing p given scope lax s₀ calm).Passes
          (keyName? key >>= fun name => commitPlace recurse id target targets name value)
          (fieldPlaces p.source s₀ targets overwritten fields (.computed key value)) () :=
        hkey.bind hvalue rfl hapartFirst
      exact Walk.Passes.bind (f := fun _ => commitFields p recurse id target targets overwritten fields)
        hboth htail rfl hapart

end Parts

/-! ## Whole expressions -/

/-- Nothing lies within two of the parts of a tree. -/
theorem apart_of_slots {m : Module} {id : ExprId} {places : List Place}
    (h : places.map Place.slot = (m.expr id).slots) (htree : m.Tree id) :
    m.Apart (places.map fun place => place.slot.part) := by
  have hmap : places.map (fun place => place.slot.part) = (m.expr id).children := by
    rw [← Expr.map_part_slots, ← h, List.map_map]
    rfl
  rw [hmap]
  exact htree.parts_apart

/-- Places are those of the parts of an expression, and a target for the whole is passed on to
them. -/
structure Covers (p : Program) (given : ConstId → Ty) (scope : ScopeId) (lax : Bool) (s : Checker)
    (id : ExprId) (target : Ty) (places : List Place) : Prop where
  slots : places.map Place.slot = (p.source.expr id).slots
  lasting : ∀ e ∈ (p.source.expr id).lasting s.keyName,
    ∃ place ∈ places, place.slot.part = e ∧ place.lasts = true
  sound : Aims p given scope lax s id target →
    ∀ place ∈ places, place.lasts = true → place.Sound p given scope lax s
  distinct : Distinct p.source s id → ∀ place ∈ places, place.lasts = true

/-- The walk over the parts of an expression to which a target is committed. It is calm if the target
is made for the expression and no key is written twice. -/
abbrev committingTo (p : Program) (given : ConstId → Ty) (scope : ScopeId) (lax : Bool) (s : Checker)
    (id : ExprId) (target : Ty) : Walk p.source Place :=
  committing p given scope lax s (Aims p given scope lax s id target ∧ Distinct p.source s id)

namespace Covers

variable {p : Program} {given : ConstId → Ty} {scope : ScopeId} {lax : Bool} {s t u : Checker}
variable {id : ExprId} {target : Ty} {places : List Place}

/-- Places that all last are those of all parts. -/
theorem of_lasts (hslots : places.map Place.slot = (p.source.expr id).slots)
    (hlasts : ∀ place ∈ places, place.lasts = true)
    (hsound : Aims p given scope lax s id target → ∀ place ∈ places, place.Sound p given scope lax s) :
    Covers p given scope lax s id target places := by
  refine ⟨hslots, fun e he => ?_, fun haims place hplace _ => hsound haims place hplace, fun _ => hlasts⟩
  have hmem := Expr.lasting_subset he
  rw [← Expr.map_part_slots, ← hslots, List.map_map] at hmem
  obtain ⟨place, hplace, hpart⟩ := List.mem_map.mp hmem
  exact ⟨place, hplace, hpart, hlasts place hplace⟩

variable (h : Covers p given scope lax s id target places)

include h

theorem part {place : Place} (hplace : place ∈ places) : p.source.Part id place.slot.part :=
  Expr.part_mem_children (h.slots ▸ List.mem_map_of_mem hplace)

theorem apart (htree : p.source.Tree id) :
    p.source.Apart (places.map fun place => place.slot.part) :=
  apart_of_slots h.slots htree

/-- Without repeated keys there is a target for every part that needs one. -/
theorem clear (haims : Aims p given scope lax s id target) (hdistinct : Distinct p.source s id) :
    ∀ place ∈ places, place.Clear p given scope lax s := by
  intro place hplace
  have hsound := h.sound haims place hplace (h.distinct hdistinct place hplace)
  have hpart := h.part hplace
  cases place with
  | plain part => trivial
  | guided part lasts target =>
    obtain ⟨result, hresult, haims⟩ := hsound
    exact ⟨result, hresult, haims, hdistinct.part hpart⟩

/-- What is done to the parts does not touch the expression itself. -/
theorem untouched (htree : p.source.Tree id)
    (hpassed : (committingTo p given scope lax s id target).Passed places s t) :
    t.exprTypes.get? id = s.exprTypes.get? id ∧ t.signatures.get? id = s.signatures.get? id := by
  have hapart : ¬ ∃ place ∈ places, (committingTo p given scope lax s id target).reach place id := by
    rintro ⟨place, hplace, -, hreach⟩
    exact htree.not_within_part (h.part hplace) hreach.within
  exact ⟨hpassed.touches.types id hapart, hpassed.touches.signatures id hapart⟩

/-- **Once all parts are passed and the expression has its final type, the target is committed.**
Parts that were evaluated without an expectation have been committed before. -/
theorem outcome (htree : p.source.Tree id)
    (hpassed : (committingTo p given scope lax s id target).Passed places s t)
    (htouches : Touches (· = id) t u) (hquiet : Aims p given scope lax s id target → Quiet t u)
    (hsettled : Aims p given scope lax s id target → lax = false → Firm p given scope id →
      Settled p u id ∧ Taken p s id target u) : Outcome p given scope lax s id target u := by
  -- nothing happens in the parts after they are passed
  have hlater : ∀ part, p.source.Part id part → Agrees p.source part t u := fun part hpart =>
    htouches.agrees fun e he heq => htree.not_within_part hpart (heq ▸ he)
  refine ⟨?_, fun haims hdistinct => (hpassed.quiet ⟨haims, hdistinct⟩).trans (hquiet haims),
    fun haims hlax hfirm => ?_⟩
  · refine Touches.trans (hpassed.touches.mono ?_) (htouches.mono ?_)
    · rintro e ⟨place, hplace, htarget, hreach⟩
      cases place with
      | plain part => cases htarget
      | guided part lasts result =>
        have hguides : p.source.Guides id part := by
          rw [Module.Guides, ← h.slots]
          exact List.mem_map_of_mem hplace
        exact hreach.head hguides
    · rintro e rfl
      exact .refl
  · obtain ⟨hsettled, htaken⟩ := hsettled haims hlax hfirm
    refine ⟨committed_of_parts hsettled fun part hlasts => ?_, htaken⟩
    -- keys are given no target, so that what lasts is still the same
    have hkeys : ∀ key ∈ (p.source.expr id).keys, u.keyName key = s.keyName key := by
      intro key hkey
      have hslot := Expr.slot_of_mem_keys hkey
      have hpart : p.source.Part id key := Expr.part_mem_children hslot
      rw [← h.slots] at hslot
      obtain ⟨place, hplace, heq⟩ := List.mem_map.mp hslot
      cases place with
      | guided part lasts result => cases heq
      | plain part =>
        cases heq
        have hkept := (hpassed.after _ hplace).kept rfl
        exact keyName_congr (hkept.trans (hlater _ hpart)) .refl
    rw [Lasts, Expr.lasting_congr hkeys] at hlasts
    obtain ⟨place, hplace, rfl, hplaceLasts⟩ := h.lasting part hlasts
    have hpart := h.part hplace
    have hsound := h.sound haims place hplace hplaceLasts
    have hdone := hpassed.after place hplace
    cases place with
    | plain part =>
      obtain ⟨ty, hheld, hok, hentry⟩ := hsound
      have hcommitted := hheld.committed (hfirm.part hpart) hok hentry
      exact hcommitted.agrees ((hdone.kept rfl).trans (hlater _ hpart))
    | guided part lasts result =>
      obtain ⟨result, rfl, haims⟩ := hsound
      have hcommitted := (hdone.achieved result rfl haims hlax (hfirm.part hpart)).1
      exact hcommitted.agrees (hlater _ hpart)

end Covers

section Steps

variable {p : Program} {given : ConstId → Ty} {scope : ScopeId} {lax : Bool} {s t : Checker}
variable {recurse : ExprId → Ty → CheckM Unit} {id : ExprId} {target : Ty}

theorem lasts_itemPlaces (s : Checker) (position? : Nat → Option Ty) (index : Nat)
    (items : List ListItem) : ∀ place ∈ itemPlaces s position? index items, place.lasts = true := by
  induction items generalizing index with
  | nil => exact fun _ hplace => (by cases hplace)
  | cons item items ih =>
    cases item with
    | member value => exact List.forall_mem_cons.mpr ⟨rfl, ih _⟩
    | spread operand => exact List.forall_mem_cons.mpr ⟨rfl, ih _⟩

/-- A target that is not made for the expression is only logged. -/
theorem ends_violation (h : ¬ Aims p given scope lax s id target) (e : Event) :
    Ends (note e) s fun _ t => Outcome p given scope lax s id target t :=
  .modify ⟨touches_journal _ s _, fun haims => absurd haims h, fun haims => absurd haims h⟩

/-- The last step at an expression that puts a list or a record together: the target is its type. -/
theorem Covers.ends_whole {places : List Place} (h : Covers p given scope lax s id target places)
    (htree : p.source.Tree id)
    (hpassed : (committingTo p given scope lax s id target).Passed places s t)
    (hcomputed : ∀ u, Computed u id (p.source.expr id))
    (hform : (p.source.expr id).isConstructor = true) (hvalue : ∀ w, target ≠ .singleton w) :
    Ends (setType id target) t fun _ u => Outcome p given scope lax s id target u := by
  refine ends_setType (h.outcome htree hpassed (touches_type_at id t _) (fun _ => .refl t) ?_)
  intro haims _ _
  refine ⟨⟨⟨_, Table.get?_insert_self _ _ _, Or.inl haims.1⟩, hcomputed _⟩,
    fun w values h => absurd h (hvalue w), fun h => absurd h (by simp [hform]),
    fun _ => Table.get?_insert_self _ _ _⟩

theorem ends_commitStep_list {items : List ListItem} (hexpr : p.source.expr id = .list items)
    (htree : p.source.Tree id)
    (hcommits : ∀ part, p.source.Part id part → Commits p given scope lax recurse part)
    (herror : target.isError = false) :
    Ends (commitStep p recurse id target) s fun _ t => Outcome p given scope lax s id target t := by
  unfold commitStep
  rw [if_neg (by simp [herror])]
  simp only [hexpr]
  split
  · rename_i members rest
    have hcovers : Covers p given scope lax s id (.tuple members rest)
        (itemPlaces s (Ty.position? members rest) 0 items) := by
      refine .of_lasts ?_ (lasts_itemPlaces _ _ _ _) fun haims => ?_
      · rw [map_slot_itemPlaces, hexpr]
        rfl
      · obtain ⟨results, heq, hsound⟩ := haims.list hexpr herror
        cases heq
        exact hsound
    have hitems : (committingTo p given scope lax s id (.tuple members rest)).Passes
        (commitItems recurse id (.tuple members rest) (Ty.position? members rest) 0 items)
        (itemPlaces s (Ty.position? members rest) 0 items) () := by
      refine passes_commitItems (fun item hitem => hcommits item.expr ?_)
        (fun hcalm => hcovers.clear hcalm.1 hcalm.2) (hcovers.apart htree)
      exact (Module.part_list_iff hexpr).mpr ⟨item, hitem, rfl⟩
    refine (hitems s fun _ _ => .refl _ _ s).bind ?_
    rintro _ t ⟨-, hpassed⟩
    exact hcovers.ends_whole htree hpassed (fun u => by rw [hexpr]; trivial) (by rw [hexpr]; rfl)
      fun w h => (by cases h)
  · rename_i hother
    refine ends_violation (fun haims => ?_) _
    obtain ⟨results, rfl, -⟩ := haims.list hexpr herror
    exact hother results none rfl

theorem ends_commitStep_record {fields : List RecordField} (hexpr : p.source.expr id = .record fields)
    (htree : p.source.Tree id)
    (hcommits : ∀ part, p.source.Part id part → Commits p given scope lax recurse part)
    (herror : target.isError = false) :
    Ends (commitStep p recurse id target) s fun _ t => Outcome p given scope lax s id target t := by
  unfold commitStep
  rw [if_neg (by simp [herror])]
  simp only [hexpr]
  split
  · rename_i targets rest isSealed
    have hcovers : Covers p given scope lax s id (.record targets rest isSealed)
        (recordPlaces p.source s targets (keyNamesOf s.keyName fields) fields) := by
      refine ⟨?_, fun e he => ?_, fun haims => ?_, fun hdistinct => ?_⟩
      · rw [map_slot_recordPlaces, hexpr]
        rfl
      · rw [hexpr] at he
        exact exists_place_of_lasting he
      · obtain ⟨results, heq, hsound⟩ := haims.record hexpr herror
        cases heq
        exact hsound
      · exact lasts_of_nodup (hdistinct id fields .refl hexpr)
    have hfields : (committingTo p given scope lax s id (.record targets rest isSealed)).Passes
        (commitFields p recurse id (.record targets rest isSealed) targets
          (keyNamesOf s.keyName fields) fields)
        (recordPlaces p.source s targets (keyNamesOf s.keyName fields) fields) () := by
      refine passes_commitFields (fun e he => hcommits e ?_)
        (fun hcalm => hcovers.clear hcalm.1 hcalm.2) (hcovers.apart htree)
      rw [Module.Part, hexpr]
      exact he
    -- the keys are read before anything is committed
    refine Ends.bind (R := fun names t => names = keyNamesOf s.keyName fields ∧ t = s)
      ⟨_, s, run_keyNames fields s, rfl, rfl⟩ ?_
    rintro _ _ ⟨rfl, rfl⟩
    refine (hfields _ fun _ _ => .refl _ _ _).bind ?_
    rintro _ t ⟨-, hpassed⟩
    exact hcovers.ends_whole htree hpassed (fun u => by rw [hexpr]; trivial) (by rw [hexpr]; rfl)
      fun w h => (by cases h)
  · rename_i hother
    refine ends_violation (fun haims => ?_) _
    obtain ⟨results, rfl, -⟩ := haims.record hexpr herror
    exact hother results none true rfl

/-- The last step at an expression that is no operator: one of its readings is chosen. -/
theorem Covers.ends_reading {places : List Place} (h : Covers p given scope lax s id target places)
    (htree : p.source.Tree id)
    (hpassed : (committingTo p given scope lax s id target).Passed places s t)
    (herror : target.isError = false) (hcomputed : ∀ u, Computed u id (p.source.expr id))
    (hform : (p.source.expr id).isConstructor = false)
    (hother : ∀ expected ty, Held p given scope s expected id ty → Firm p given scope id →
      ty.isError = false → (∀ values, ty ≠ .ofValues values) →
      ty.Definite ∨ (ty.isStructured = true ∧ ∃ inner, p.source.expr id = .group inner)) :
    Ends (commitReading id target) t fun _ u => Outcome p given scope lax s id target u := by
  by_cases haims : Aims p given scope lax s id target
  · refine (haims.ends_commitReading herror (h.untouched htree hpassed).1).mono ?_
    rintro _ u ⟨htouches, hquiet, -, hchosen, hstays, hentry⟩
    refine h.outcome htree hpassed htouches (fun _ => hquiet) fun _ _ hfirm =>
      ⟨⟨?_, hcomputed u⟩, hchosen, fun _ => hstays, fun h => absurd h (by simp [hform])⟩
    rcases hentry with ⟨v, hv⟩ | ⟨expected, ty, hheld, hok, hty, hnone⟩
    · exact ⟨_, hv, Or.inl (.value v)⟩
    · exact ⟨ty, hty, hother expected ty hheld hfirm hok hnone⟩
  · refine (touches_commitReading id target t).mono ?_
    intro _ u htouches
    exact h.outcome htree hpassed htouches (fun ha => absurd ha haims) fun ha => absurd ha haims

/-- An expression without parts. -/
theorem ends_commitReading_leaf (htree : p.source.Tree id) (hslots : (p.source.expr id).slots = [])
    (herror : target.isError = false) (hcomputed : ∀ u, Computed u id (p.source.expr id))
    (hform : (p.source.expr id).isConstructor = false)
    (hother : ∀ expected ty, Held p given scope s expected id ty → Firm p given scope id →
      ty.isError = false → (∀ values, ty ≠ .ofValues values) → ty.Definite) :
    Ends (commitReading id target) s fun _ t => Outcome p given scope lax s id target t := by
  have hcovers : Covers p given scope lax s id target [] :=
    .of_lasts hslots.symm (fun _ h => (by cases h)) fun _ _ h => (by cases h)
  exact hcovers.ends_reading htree ⟨.refl _ s, fun _ => .refl s, fun _ h => (by cases h)⟩ herror
    hcomputed hform fun expected ty hheld hfirm hok hnone => Or.inl (hother expected ty hheld hfirm hok hnone)

theorem ends_commitStep_group {inner : ExprId} (hexpr : p.source.expr id = .group inner)
    (htree : p.source.Tree id)
    (hcommits : ∀ part, p.source.Part id part → Commits p given scope lax recurse part)
    (herror : target.isError = false) :
    Ends (commitStep p recurse id target) s fun _ t => Outcome p given scope lax s id target t := by
  unfold commitStep
  rw [if_neg (by simp [herror])]
  simp only [hexpr]
  have hcovers : Covers p given scope lax s id target [.guided inner true (some target)] := by
    refine .of_lasts (by rw [hexpr]; rfl) (List.forall_mem_singleton.mpr rfl) fun haims => ?_
    exact List.forall_mem_singleton.mpr ⟨target, rfl, haims.group hexpr herror⟩
  have hinner : (committingTo p given scope lax s id target).Passes (recurse inner target)
      [.guided inner true (some target)] () :=
    passes_recurse (hcommits inner (hcovers.part List.mem_cons_self)) fun hcalm =>
      hcovers.clear hcalm.1 hcalm.2 _ List.mem_cons_self
  refine (hinner s fun _ _ => .refl _ _ s).bind ?_
  rintro _ t ⟨-, hpassed⟩
  refine hcovers.ends_reading htree hpassed herror (fun u => by rw [hexpr]; trivial)
    (by rw [hexpr]; rfl) ?_
  intro expected ty hheld hfirm hok hnone
  exact Or.inr ⟨hheld.isStructured hfirm hok hnone, inner, hexpr⟩

/-- The last steps at an operator: one of its readings is chosen, and its signature is made to show
what its operands and itself have been given. -/
theorem Covers.ends_operator {places : List Place} {operands : List ExprId}
    (h : Covers p given scope lax s id target places) (htree : p.source.Tree id)
    (hpassed : (committingTo p given scope lax s id target).Passed places s t)
    (herror : target.isError = false) (hform : (p.source.expr id).isConstructor = false)
    (hoperands : ∀ e ∈ operands, p.source.Part id e)
    (hsigned : Aims p given scope lax s id target → (s.signatures.get? id).isSome = true)
    (hsettled : Aims p given scope lax s id target → lax = false → Firm p given scope id →
      ∀ u : Checker, Chosen s u id target →
        (∀ e ∈ operands, u.exprTypes.get? e = t.exprTypes.get? e) →
        u.signatures.get? id = some ⟨operands.map fun e => ((u.exprTypes.get? e).map widened).getD .error,
          ((u.exprTypes.get? id).map widened).getD .error⟩ → Settled p u id) :
    Ends (commitReading id target >>= fun _ => settleSignature id operands) t
      fun _ u => Outcome p given scope lax s id target u := by
  obtain ⟨hentry, hsignature⟩ := h.untouched htree hpassed
  by_cases haims : Aims p given scope lax s id target
  · refine (haims.ends_commitReading herror hentry).bind ?_
    rintro _ u ⟨htouches, hquiet, hsignatures, hchosen, hstays, -⟩
    refine (ends_settleSignature id operands u).mono ?_
    rintro _ x ⟨htouches', hquiet', htypes, hsettles⟩
    refine h.outcome htree hpassed (htouches.trans htouches') (fun _ => hquiet.trans hquiet') ?_
    intro _ hlax hfirm
    have hchosen' : Chosen s x id target := by
      intro w values hw hvalues
      rw [htypes]
      exact hchosen w values hw hvalues
    refine ⟨hsettled haims hlax hfirm x hchosen' (fun e he => ?_) ?_, hchosen',
      fun _ hother => htypes ▸ hstays hother, fun h => absurd h (by simp [hform])⟩
    · rw [htypes]
      exact htouches.types e fun heq => htree.not_within_part (hoperands e he) (heq ▸ .refl)
    · rw [htypes]
      exact hsettles (by rw [hsignatures, hsignature]; exact hsigned haims)
  · -- whatever is chosen, only the expression itself is touched
    refine (touches_commitReading id target t).bind ?_
    intro _ u htouches
    refine (ends_settleSignature id operands u).mono ?_
    rintro _ x ⟨htouches', -⟩
    exact h.outcome htree hpassed (htouches.trans htouches') (fun ha => absurd ha haims)
      fun ha => absurd ha haims

/-- **An operator and its operands are committed together.** All three get a reading in the domain of
the target, and these belong together. -/
theorem ends_commitStep_binary {op : BinaryOp} {lhs rhs : ExprId}
    (hexpr : p.source.expr id = .binary op lhs rhs) (htree : p.source.Tree id)
    (hcommits : ∀ part, p.source.Part id part → Commits p given scope lax recurse part)
    (herror : target.isError = false) :
    Ends (commitStep p recurse id target) s fun _ t => Outcome p given scope lax s id target t := by
  unfold commitStep
  rw [if_neg (by simp [herror])]
  simp only [hexpr]
  have hcovers : Covers p given scope lax s id target
      [.guided lhs true (some target), .guided rhs true (some target)] := by
    refine .of_lasts (by rw [hexpr]; rfl) ?_ fun haims => ?_
    · exact List.forall_mem_cons.mpr ⟨rfl, List.forall_mem_singleton.mpr rfl⟩
    · obtain ⟨hlhs, hrhs, -⟩ := haims.binary hexpr herror
      exact List.forall_mem_cons.mpr
        ⟨⟨target, rfl, hlhs⟩, List.forall_mem_singleton.mpr ⟨target, rfl, hrhs⟩⟩
  have hlhsPart : p.source.Part id lhs := hcovers.part List.mem_cons_self
  have hrhsPart : p.source.Part id rhs := hcovers.part (List.mem_cons_of_mem _ List.mem_cons_self)
  have hboth : (committingTo p given scope lax s id target).Passes
      (recurse lhs target >>= fun _ => recurse rhs target)
      [.guided lhs true (some target), .guided rhs true (some target)] () := by
    refine (passes_recurse (hcommits lhs hlhsPart) fun hcalm => ?_).bind
      (passes_recurse (hcommits rhs hrhsPart) fun hcalm => ?_) rfl (hcovers.apart htree)
    · exact hcovers.clear hcalm.1 hcalm.2 _ List.mem_cons_self
    · exact hcovers.clear hcalm.1 hcalm.2 _ (List.mem_cons_of_mem _ List.mem_cons_self)
  show Ends (recurse lhs target >>= fun _ => recurse rhs target >>= fun _ => _) s _
  rw [← bind_assoc]
  refine (hboth s fun _ _ => .refl _ _ s).bind ?_
  rintro _ t ⟨-, hpassed⟩
  refine hcovers.ends_operator htree hpassed herror (by rw [hexpr]; rfl)
    (List.forall_mem_cons.mpr ⟨hlhsPart, List.forall_mem_singleton.mpr hrhsPart⟩)
    (fun haims => (haims.binary hexpr herror).2.2.1) fun haims hlax hfirm u hchosen hsame hsig => ?_
  obtain ⟨haimsLhs, haimsRhs, -, w, kept, left, right, rfl, hkept, hleft, hright, hfold⟩ :=
    haims.binary hexpr herror
  -- the readings of the operands and of the result
  obtain ⟨hdoneLhs, hdoneRhs⟩ := List.forall_mem_cons.mp hpassed.after
  have hdoneRhs := List.forall_mem_singleton.mp hdoneRhs
  obtain ⟨-, htakenLhs⟩ := hdoneLhs.achieved _ rfl haimsLhs hlax (hfirm.part hlhsPart)
  obtain ⟨-, htakenRhs⟩ := hdoneRhs.achieved _ rfl haimsRhs hlax (hfirm.part hrhsPart)
  obtain ⟨a', ha', hadomain, a, ha, hpicksA⟩ := htakenLhs.chosen w left rfl hleft.entry
  obtain ⟨b', hb', hbdomain, b, hb, hpicksB⟩ := htakenRhs.chosen w right rfl hright.entry
  obtain ⟨v', hv', hvdomain, v, hv, hpicks⟩ := hchosen w kept rfl hkept.entry
  have ha : u.exprTypes.get? lhs = some (.singleton a) := (hsame lhs List.mem_cons_self).trans ha
  have hb : u.exprTypes.get? rhs = some (.singleton b) :=
    (hsame rhs (List.mem_cons_of_mem _ List.mem_cons_self)).trans hb
  simp only [List.map_cons, List.map_nil, ha, hb, hv] at hsig
  refine ⟨⟨_, hv, Or.inl (.value v)⟩, ?_⟩
  rw [hexpr]
  refine ⟨v, a, b, hv, ha, hb, ?_, hsig⟩
  rw [hpicksA.value, hpicksB.value, hpicks.value, hpicks.domain]
  exact hfold v' hv' a' ha' b' hb' hvdomain hadomain hbdomain

theorem ends_commitStep_unary {op : UnaryOp} {operand : ExprId}
    (hexpr : p.source.expr id = .unary op operand) (htree : p.source.Tree id)
    (hcommits : ∀ part, p.source.Part id part → Commits p given scope lax recurse part)
    (herror : target.isError = false) :
    Ends (commitStep p recurse id target) s fun _ t => Outcome p given scope lax s id target t := by
  unfold commitStep
  rw [if_neg (by simp [herror])]
  simp only [hexpr]
  have hcovers : Covers p given scope lax s id target [.guided operand true (some target)] := by
    refine .of_lasts (by rw [hexpr]; rfl) (List.forall_mem_singleton.mpr rfl) fun haims => ?_
    exact List.forall_mem_singleton.mpr ⟨target, rfl, (haims.unary hexpr herror).1⟩
  have hpart : p.source.Part id operand := hcovers.part List.mem_cons_self
  have hoperand : (committingTo p given scope lax s id target).Passes (recurse operand target)
      [.guided operand true (some target)] () :=
    passes_recurse (hcommits operand hpart) fun hcalm =>
      hcovers.clear hcalm.1 hcalm.2 _ List.mem_cons_self
  refine (hoperand s fun _ _ => .refl _ _ s).bind ?_
  rintro _ t ⟨-, hpassed⟩
  refine hcovers.ends_operator htree hpassed herror (by rw [hexpr]; rfl)
    (List.forall_mem_singleton.mpr hpart) (fun haims => (haims.unary hexpr herror).2.1)
    fun haims hlax hfirm u hchosen hsame hsig => ?_
  obtain ⟨haimsOperand, -, w, kept, values, rfl, hkept, hvalues, hfold⟩ := haims.unary hexpr herror
  have hdone := List.forall_mem_singleton.mp hpassed.after
  obtain ⟨-, htakenOperand⟩ := hdone.achieved _ rfl haimsOperand hlax (hfirm.part hpart)
  obtain ⟨a', ha', hadomain, a, ha, hpicksA⟩ := htakenOperand.chosen w values rfl hvalues.entry
  obtain ⟨v', hv', hvdomain, v, hv, hpicks⟩ := hchosen w kept rfl hkept.entry
  have ha : u.exprTypes.get? operand = some (.singleton a) := (hsame operand List.mem_cons_self).trans ha
  simp only [List.map_cons, List.map_nil, ha, hv] at hsig
  refine ⟨⟨_, hv, Or.inl (.value v)⟩, ?_⟩
  rw [hexpr]
  refine ⟨v, a, hv, ha, ?_, hsig⟩
  rw [hpicksA.value, hpicks.value]
  exact hfold v' hv' a' ha' hvdomain hadomain

/-- An error refines only what has nothing to choose from, if that is asked for. -/
theorem Aims.isError (h : Aims p given scope false s id target) (hfirm : Firm p given scope id) :
    target.isError = false := by
  obtain ⟨-, expected, ty, held, hheld, hok, -, htrims, hrefines⟩ := h
  by_contra herror
  obtain rfl : target = .error := Ty.isError_iff.mp (by simpa using herror)
  cases hrefines with
  | error hwhy =>
    rcases hwhy with hlax | hvoid
    · cases hlax
    · rcases htrims with rfl | ⟨values, kept, -, -, rfl⟩
      · exact hheld.not_void hfirm hok hvoid
      · exact Ty.not_void_ofValues kept hvoid

/-- **A target is committed to an expression**, if targets can be committed to its parts. -/
theorem commits_commitStep (htree : p.source.Tree id)
    (hcommits : ∀ part, p.source.Part id part → Commits p given scope lax recurse part) :
    Commits p given scope lax (commitStep p recurse) id := by
  intro target s
  cases herror : target.isError with
  | true =>
    unfold commitStep
    rw [if_pos herror]
    refine .pure ⟨.refl _ s, fun _ _ => .refl s, fun haims hlax hfirm => ?_⟩
    subst hlax
    rw [haims.isError hfirm] at herror
    cases herror
  | false =>
    -- nothing was made for what has no type
    have herroneous : ∀ e : Expr, p.source.expr id = e →
        (∀ expected types, inferStep p given scope expected types e = .error) →
        Ends (pure () : CheckM Unit) s fun _ t => Outcome p given scope lax s id target t := by
      intro e hexpr he
      have hnone : ¬ Aims p given scope lax s id target := by
        rintro ⟨-, expected, ty, held, ⟨types, rfl, -⟩, hok, -⟩
        rw [hexpr, he] at hok
        cases hok
      exact .pure ⟨.refl _ s, fun haims => absurd haims hnone, fun haims => absurd haims hnone⟩
    cases hexpr : p.source.expr id with
    | list items => exact ends_commitStep_list hexpr htree hcommits herror
    | record fields => exact ends_commitStep_record hexpr htree hcommits herror
    | binary op lhs rhs => exact ends_commitStep_binary hexpr htree hcommits herror
    | unary op operand => exact ends_commitStep_unary hexpr htree hcommits herror
    | group inner => exact ends_commitStep_group hexpr htree hcommits herror
    | missing =>
      unfold commitStep
      rw [if_neg (by simp [herror]), hexpr]
      exact herroneous _ hexpr fun _ _ => rfl
    | unsupported form =>
      unfold commitStep
      rw [if_neg (by simp [herror]), hexpr]
      exact herroneous _ hexpr fun _ _ => rfl
    | literal literal =>
      unfold commitStep
      rw [if_neg (by simp [herror]), hexpr]
      refine ends_commitReading_leaf htree (by rw [hexpr]; rfl) herror (fun u => by rw [hexpr]; trivial)
        (by rw [hexpr]; rfl) ?_
      rintro expected ty ⟨types, rfl, -⟩ - hok hother
      rw [hexpr] at hok hother
      obtain ⟨values, -, -, heq⟩ := literalTy_ok hok
      exact absurd heq (hother values)
    | reference source name =>
      unfold commitStep
      rw [if_neg (by simp [herror]), hexpr]
      refine ends_commitReading_leaf htree (by rw [hexpr]; rfl) herror (fun u => by rw [hexpr]; trivial)
        (by rw [hexpr]; rfl) ?_
      rintro expected ty ⟨types, rfl, -⟩ hfirm - -
      rw [hexpr]
      cases source with
      | none => exact (hfirm.named id name .refl hexpr).1
      | some source => exact (hfirm.imported id source name .refl hexpr).1

end Steps

/-- Targets are definite, so there is nothing to look through. -/
theorem Outcome.of_effective {p : Program} {given : ConstId → Ty} {scope : ScopeId} {lax : Bool}
    {s t : Checker} {id : ExprId} {target : Ty}
    (h : Outcome p given scope lax s id target.effective t) :
    Outcome p given scope lax s id target t := by
  have heffective : Aims p given scope lax s id target → target.effective = target :=
    fun haims => Ty.hereditary_definite.effective _ haims.1
  refine ⟨h.touches, fun haims => h.quiet ?_, fun haims hlax hfirm => ?_⟩
  · rw [heffective haims]
    exact haims
  · have hachieved := h.achieved
    rw [heffective haims] at hachieved
    exact hachieved haims hlax hfirm

/-- **Targets are committed to trees**, if the bound on the nesting is above the height. -/
theorem commits_commitWithin {p : Program} {given : ConstId → Ty} {scope : ScopeId} {lax : Bool}
    {n : Nat} {id : ExprId} (htree : p.source.Tree id) (hn : p.source.height id < n) :
    Commits p given scope lax (commitWithin p n) id := by
  induction n generalizing id with
  | zero => exact absurd hn (Nat.not_lt_zero _)
  | succ n ih =>
    intro target s
    have hparts : ∀ part, p.source.Part id part →
        Commits p given scope lax (commitWithin p n) part := by
      intro part hpart
      have hlt := htree.founded.height_lt hpart
      exact ih (htree.part hpart) (by omega)
    exact (commits_commitStep htree hparts target.effective s).mono fun _ _ h => h.of_effective

theorem commits_commit {p : Program} {given : ConstId → Ty} {scope : ScopeId} {lax : Bool}
    {id : ExprId} (htree : p.source.Tree id) : Commits p given scope lax (commit p) id :=
  commits_commitWithin htree (Nat.lt_succ_of_le htree.founded.height_le)

end ConstNarrow
