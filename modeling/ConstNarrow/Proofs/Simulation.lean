/-
**Two runs in step.**

Most of what is to be said about a check compares two runs: the run as it is with one that never
resolves a constant on the way, or a constant resolved late with the same constant resolved alone.
A `Simulation` fixes which states of the two runs belong together, and asks only that this survives
what evaluation does to a state: it writes to the journal, and it sets types of expressions inside
the constant that is evaluated. A `Triple` then says that two computations come to the same result
from states that belong together, and that the result keeps to a discipline.

An excuse that is found on the way releases from the discipline, but not from coming to the same
result.
-/
import ConstNarrow.Proofs.Discipline
import ConstNarrow.Proofs.Nesting

set_option autoImplicit false

namespace ConstNarrow

open Checker

/-- What a discipline asks of the type of an expression: it may be erroneous only where silence is
allowed, and otherwise it is given, and the expression is sound. In any case it was seen. -/
structure Discipline.Fits {E : Journal → Prop} (D : Discipline E) (sound seen : Prop) (ty : Ty) :
    Prop where
  silent : ty.isError = true → D.silent
  given : ty.isError = false → D.given ty
  sound : ty.isError = false → sound
  seen : seen

/-- What a discipline asks of the final type of a constant: what a declaration asks, or that it
passes for any type. -/
structure Discipline.Settled {E : Journal → Prop} (D : Discipline E) (declared : Option Ty)
    (sound seen : Prop) (ty : Ty) : Prop where
  silent : ty.isError = true → D.silent
  meets : ty.isError = false → D.meets ty (declared.getD .anydata)
  sound : ty.isError = false → sound
  seen : seen

/-- Where silence is allowed, an error fits any expression that is seen. -/
theorem Discipline.fits_error {E : Journal → Prop} (D : Discipline E) {sound seen : Prop}
    (h : D.silent) (hseen : seen) : D.Fits sound seen .error :=
  ⟨fun _ => h, fun he => (by cases he), fun he => (by cases he), hseen⟩

theorem Discipline.settled_error {E : Journal → Prop} (D : Discipline E) {declared : Option Ty}
    {sound seen : Prop} (h : D.silent) (hseen : seen) : D.Settled declared sound seen .error :=
  ⟨fun _ => h, fun he => (by cases he), fun he => (by cases he), hseen⟩

/-- What holds of an expression just if it holds of its parts, unless it names a constant. -/
structure Module.Hereditary (m : Module) (scope : ScopeId) (S : ExprId → Prop) : Prop where
  part : ∀ a b, S a → m.Part a b → S b
  of_parts : ∀ id, m.referredConstant? scope id = none → (∀ b, m.Part id b → S b) → S id

theorem Module.Hereditary.leaf {m : Module} {scope : ScopeId} {S : ExprId → Prop}
    (h : m.Hereditary scope S) {id : ExprId} (href : m.referredConstant? scope id = none)
    (hleaf : (m.expr id).children = []) : S id := by
  refine h.of_parts id href fun b hb => ?_
  rw [Module.Part, hleaf] at hb
  cases hb

theorem Module.hereditary_true (m : Module) (scope : ScopeId) : m.Hereditary scope fun _ => True :=
  ⟨fun _ _ _ _ => trivial, fun _ _ _ => trivial⟩

section Value

variable (p : Program) (constant : Constant)

theorem Program.hereditary_true : p.source.Hereditary constant.scope fun _ => True :=
  p.source.hereditary_true constant.scope

/-- Whatever lies within the value of a constant has its parts there. -/
theorem Program.within_value_part (a b : ExprId) (ha : p.source.Within constant.value a)
    (hpart : p.source.Part a b) : p.source.Within constant.value b :=
  ha.tail hpart

end Value

/-- One state comes from another by writing to the journal, and to the signatures, on which nothing
depends. -/
structure Checker.Aside (s s' : Checker) : Prop where
  status : s'.status = s.status
  exprTypes : s'.exprTypes = s.exprTypes
  values : s'.values = s.values
  depth : s'.depth = s.depth
  anchor : s'.anchor = s.anchor
  journal : s.journal.Grows s'.journal

/-- The state with another type for an expression. -/
def Checker.withType (s : Checker) (id : ExprId) (ty : Ty) : Checker :=
  { s with exprTypes := s.exprTypes.insert id ty }

/-- Which states of two runs belong together while the expressions that are `inside` are
evaluated. An expression is `sound` if nothing that it refers to is erroneous, and it can be `seen`
once all that it refers to has been asked for. A state of the first run may be `excused`. -/
structure Simulation {E : Journal → Prop} (p : Program) (D : Discipline E) where
  rel : Checker → Checker → Prop
  scope : ScopeId
  inside : ExprId → Prop
  sound : ExprId → Prop
  seen : ExprId → Prop
  excused : Checker → Prop
  inside_part : ∀ a b, inside a → p.source.Part a b → inside b
  hereditary_sound : p.source.Hereditary scope sound
  hereditary_seen : p.source.Hereditary scope seen
  excused_of : ∀ s, E s.journal → excused s
  excused_aside : ∀ s s', Aside s s' → excused s → excused s'
  excused_type : ∀ s id ty, excused s → excused (s.withType id ty)
  missing : ∀ id, inside id → p.source.expr id = .missing → D.silent
  unnamed : ∀ id fields value, inside id → p.source.expr id = .record fields →
    .reference value ∈ fields → p.source.fieldName? value = none → D.silent
  wildcard : ∀ id, inside id → p.source.expr id = .reference none Module.wildcardName →
    D.given .anydata
  imported : ∀ id moduleName name exports ty, inside id →
    p.source.expr id = .reference (some moduleName) name →
    p.imports.lookup moduleName = some exports →
    exports.lookup name = some (.constant ty) → D.given ty
  same_type : ∀ s t id, rel s t → inside id → s.exprTypes.get? id = t.exprTypes.get? id
  kept_type : ∀ s t id ty, rel s t → inside id → s.exprTypes.get? id = some ty →
    excused s ∨ D.Fits (sound id) (seen id) ty
  unmuted : ∀ s t, rel s t → D.silent ∨ s.journal.muteDepth = 0
  rel_aside : ∀ s t s' t', rel s t → Aside s s' → Aside t t' → (s = t → s' = t') → rel s' t'
  rel_type : ∀ s t id ty, rel s t → inside id → (excused s ∨ D.Fits (sound id) (seen id) ty) →
    rel (s.withType id ty) (t.withType id ty)

namespace Simulation

variable {E : Journal → Prop} {p : Program} {D : Discipline E} (M : Simulation p D)
variable {α β : Type} {P R : Prop} {Q Q' : α → Prop}

/-- What is asked of the type of an expression. -/
abbrev Fits (id : ExprId) (ty : Ty) : Prop := D.Fits (M.sound id) (M.seen id) ty

/-- That any type which is given fits an expression. -/
structure Takes (id : ExprId) : Prop where
  sound : M.sound id
  seen : M.seen id

section

variable {M} {id : ExprId}

theorem Takes.fits (h : M.Takes id) {ty : Ty} (hty : D.given ty) : M.Fits id ty :=
  ⟨fun he => D.silent_of_given (Ty.isError_iff.mp he ▸ hty), fun _ => hty, fun _ => h.sound, h.seen⟩

theorem Takes.part (h : M.Takes id) {e : ExprId} (he : p.source.Part id e) : M.Takes e :=
  ⟨M.hereditary_sound.part id e h.sound he, M.hereditary_seen.part id e h.seen he⟩

/-- An expression whose type fits and is no error takes any other. -/
theorem Fits.takes {ty : Ty} (h : M.Fits id ty) (herror : ty.isError = false) : M.Takes id :=
  ⟨h.sound herror, h.seen⟩

end

/-- An expression that names no constant takes any type if its parts do. -/
theorem takes_of_parts {id : ExprId} (href : p.source.referredConstant? M.scope id = none)
    (hparts : ∀ e, p.source.Part id e → M.Takes e) : M.Takes id :=
  ⟨M.hereditary_sound.of_parts id href fun e he => (hparts e he).sound,
    M.hereditary_seen.of_parts id href fun e he => (hparts e he).seen⟩

theorem takes_leaf {id : ExprId} (href : p.source.referredConstant? M.scope id = none)
    (hleaf : (p.source.expr id).children = []) : M.Takes id :=
  ⟨M.hereditary_sound.leaf href hleaf, M.hereditary_seen.leaf href hleaf⟩

/-- **Two computations in step.** From states that belong together both come to the same result,
and to states that belong together. If `P` holds, the result satisfies `Q`, unless there is an
excuse; an excuse lasts. -/
def Triple (P : Prop) (m m' : CheckM α) (Q : α → Prop) : Prop :=
  ∀ s t, M.rel s t → M.excused s ∨ P → ∃ a s' t', m.run s = some (a, s')
    ∧ m'.run t = some (a, t') ∧ M.rel s' t' ∧ (M.excused s → M.excused s')
    ∧ (M.excused s' ∨ Q a)

namespace Triple

variable {M}

protected theorem pure {a : α} (h : P → Q a) : M.Triple P (pure a) (pure a) Q :=
  fun s t hrel hP => ⟨a, s, t, rfl, rfl, hrel, id, hP.imp_right h⟩

/-- **Computations in step compose.** -/
protected theorem bind {R : α → Prop} {S : β → Prop} {m m' : CheckM α} {f f' : α → CheckM β}
    (hm : M.Triple P m m' R) (hf : ∀ a, M.Triple (P ∧ R a) (f a) (f' a) S) :
    M.Triple P (m >>= f) (m' >>= f') S := by
  intro s t hrel hP
  obtain ⟨a, s', t', hrun, hrun', hrel', hlast, hR⟩ := hm s t hrel hP
  have hP' : M.excused s' ∨ (P ∧ R a) := by
    rcases hP with hE | hP
    · exact Or.inl (hlast hE)
    · exact hR.imp_right fun hR => ⟨hP, hR⟩
  obtain ⟨b, s'', t'', hrun₂, hrun₂', hrel₂, hlast₂, hS⟩ := hf a s' t' hrel' hP'
  refine ⟨b, s'', t'', ?_, ?_, hrel₂, fun hE => hlast₂ (hlast hE), hS⟩
  · rw [StateT.run_bind, hrun]
    exact hrun₂
  · rw [StateT.run_bind, hrun']
    exact hrun₂'

theorem mono {m m' : CheckM α} (h : M.Triple P m m' Q) (hP : R → P) (hQ : ∀ a, R → Q a → Q' a) :
    M.Triple R m m' Q' := by
  intro s t hrel hR
  obtain ⟨a, s', t', hrun, hrun', hrel', hlast, hQa⟩ := h s t hrel (hR.imp_right hP)
  refine ⟨a, s', t', hrun, hrun', hrel', hlast, ?_⟩
  rcases hR with hE | hR
  · exact Or.inl (hlast hE)
  · exact hQa.imp_right (hQ a hR)

theorem weaken {m m' : CheckM α} (h : M.Triple P m m' Q) (hP : R → P) : M.Triple R m m' Q :=
  h.mono hP fun _ _ hQ => hQ

end Triple

/-! ## What computations do to a state -/

/-- A step that writes to the journal, or to what nothing depends on. -/
theorem triple_aside {f : Checker → Checker} (hf : ∀ s, Aside s (f s)) :
    M.Triple P (modify f : CheckM Unit) (modify f) fun _ => True := by
  intro s t hrel _
  refine ⟨(), f s, f t, rfl, rfl, ?_, fun hE => ?_, Or.inr trivial⟩
  · exact M.rel_aside s t (f s) (f t) hrel (hf s) (hf t) fun hst => hst ▸ rfl
  · exact M.excused_aside s (f s) (hf s) hE

theorem aside_journal (s : Checker) {j : Journal} (h : s.journal.Grows j) :
    Aside s { s with journal := j } :=
  ⟨rfl, rfl, rfl, rfl, rfl, h⟩

theorem triple_note (e : Event) : M.Triple P (note e) (note e) fun _ => True :=
  M.triple_aside fun s => aside_journal s (s.journal.grows_note e)

theorem triple_setSignature (id : ExprId) (signature : Signature) :
    M.Triple P (setSignature id signature) (setSignature id signature) fun _ => True :=
  M.triple_aside fun _ => ⟨rfl, rfl, rfl, rfl, rfl, .refl _⟩

/-- After a report silence is allowed, or there is an excuse. -/
theorem triple_report (location : ExprId) {problem : Problem} (hlocal : problem.isLocal = true) :
    M.Triple P (report location problem) (report location problem) fun _ => D.silent := by
  intro s t hrel hP
  obtain ⟨a, s', t', hrun, hrun', hrel', hlast, -⟩ := M.triple_aside (P := P)
    (f := fun s => { s with journal := s.journal.report (.error location problem) })
    (fun s => aside_journal s (s.journal.grows_report hlocal)) s t hrel hP
  refine ⟨a, s', t', hrun, hrun', hrel', hlast, ?_⟩
  -- a discipline lets everything pass in silence, or it takes a report for an excuse
  rcases D.reported with hsilent | hreported
  · exact Or.inr hsilent
  rcases M.unmuted s t hrel with hsilent | hunmuted
  · exact Or.inr hsilent
  · cases hrun
    exact Or.inl (M.excused_of _ (hreported _ (Journal.report_ne_empty hunmuted _)))

/-- A failure is reported, so that the error type fits. -/
theorem triple_fail {id : ExprId} (hseen : P → M.seen id) (location : ExprId) {problem : Problem}
    (hlocal : problem.isLocal = true) :
    M.Triple P (fail location problem) (fail location problem) (M.Fits id) :=
  (M.triple_report location hlocal).bind fun _ => .pure fun h => D.fits_error h.2 (hseen h.1)

theorem triple_typeOf? {id : ExprId} (hid : M.inside id) :
    M.Triple P (typeOf? id) (typeOf? id) fun result => ∀ ty, result = some ty → M.Fits id ty := by
  intro s t hrel _
  have hsame := M.same_type s t id hrel hid
  refine ⟨s.exprTypes.get? id, s, t, rfl, ?_, hrel, fun hE => hE, ?_⟩
  · rw [hsame]
    rfl
  · cases hget : s.exprTypes.get? id with
    | none => exact Or.inr fun ty hty => (by cases hty)
    | some ty =>
      refine (M.kept_type s t id ty hrel hid hget).imp_right fun hfits ty' hty => ?_
      cases hty
      exact hfits

theorem triple_setType {id : ExprId} (hid : M.inside id) (ty : Ty) :
    M.Triple (M.Fits id ty) (setType id ty) (setType id ty) fun _ => True :=
  fun s t hrel hP => ⟨(), s.withType id ty, t.withType id ty, rfl, rfl,
    M.rel_type s t id ty hrel hid hP, M.excused_type s id ty, Or.inr trivial⟩

/-- Narrowing gives a type that passes for any, unless it meets what cannot be narrowed. -/
theorem triple_narrow (ty : Ty) :
    M.Triple (D.given ty) (narrow ty) (narrow ty) fun result => D.meets result .anydata := by
  intro s t hrel hP
  have hgrows := fun s : Checker =>
    aside_journal s (s.journal.grows_noteAll (ty.withoutNarrowing.map .noNarrowing))
  refine ⟨ty.narrowed, _, _, rfl, rfl, M.rel_aside s t _ _ hrel (hgrows s) (hgrows t) ?_, ?_, ?_⟩
  · rintro rfl
    rfl
  · exact M.excused_aside _ _ (hgrows s)
  · rcases hP with hE | hP
    · exact Or.inl (M.excused_aside _ _ (hgrows s) hE)
    · exact (D.anydata ty hP).symm.imp_left fun h => M.excused_of _ (h s.journal)

theorem triple_narrow_eq (ty : Ty) :
    M.Triple P (narrow ty) (narrow ty) fun result => result = ty.narrowed :=
  (M.triple_aside fun s =>
    aside_journal s (s.journal.grows_noteAll (ty.withoutNarrowing.map .noNarrowing))).bind
    fun _ => .pure fun _ => rfl

/-! ## Committing -/

/-- What is asked before a type is committed to an expression. -/
structure Committable (id : ExprId) (ty : Ty) : Prop where
  given : ty.isError = false → D.given ty
  takes : M.Takes id

/-- That committing types to an expression keeps two runs in step. -/
def Commits (commit : ExprId → Ty → CheckM Unit) (id : ExprId) : Prop :=
  ∀ ty, M.Triple (M.Committable id ty) (commit id ty) (commit id ty) fun _ => True

theorem mem_of_reading? {members : List Ty} {target ty : Ty}
    (h : reading? members target = some ty) : ty ∈ members := by
  rcases Option.or_eq_some_iff.mp h with h | ⟨-, h⟩
  · obtain ⟨tag, -, h⟩ := Option.bind_eq_some_iff.mp h
    exact List.mem_of_find?_eq_some h
  · exact List.mem_of_find?_eq_some h

/-- A reading that is picked is one of those that the expression has, and the target is given. -/
theorem triple_commitReading {id : ExprId} (hid : M.inside id) {target : Ty}
    (herror : target.isError = false) :
    M.Triple (M.Committable id target) (commitReading id target) (commitReading id target)
      fun _ => True := by
  unfold commitReading
  -- a single value takes the target over, a union only a reading that it had itself
  refine (M.triple_typeOf? hid).bind fun result => ?_
  split
  · rename_i values
    split
    · rename_i own want hown hwant
      split
      · exact (M.triple_setType hid target).mono
          (fun h => h.1.takes.fits (h.1.given herror)) fun _ _ h => h
      · exact .pure fun _ => trivial
    · exact .pure fun _ => trivial
  · rename_i members
    split
    · rename_i member hmember
      refine (M.triple_setType hid member).weaken (fun h => ?_)
      have hgiven := D.given_member members ((h.2 _ rfl).given rfl) member (mem_of_reading? hmember)
      exact h.1.takes.fits hgiven
    · exact M.triple_note _
  · exact .pure fun _ => trivial

theorem triple_settleSignature (id : ExprId) (operands : List ExprId) :
    M.Triple P (settleSignature id operands) (settleSignature id operands) fun _ => True := by
  refine M.triple_aside fun s => ?_
  dsimp only
  split
  · exact ⟨rfl, rfl, rfl, rfl, rfl, .refl _⟩
  · exact ⟨rfl, rfl, rfl, rfl, rfl, .refl _⟩

theorem triple_spreadLength {operand : ExprId} (hid : M.inside operand) :
    M.Triple P (spreadLength operand) (spreadLength operand) fun _ => True := by
  refine (M.triple_typeOf? hid).bind fun result => ?_
  split
  · exact .pure fun _ => trivial
  · exact .pure fun _ => trivial

theorem triple_keyName? {key : ExprId} (hid : M.inside key) :
    M.Triple P (keyName? key) (keyName? key) fun _ => True :=
  (M.triple_typeOf? hid).bind fun _ => .pure fun _ => trivial

variable {recurse : ExprId → Ty → CheckM Unit}

theorem triple_commitItems (id : ExprId) (target : Ty) (position? : Nat → Option Ty)
    {items : List ListItem}
    (hitems : ∀ item ∈ items, M.inside item.expr ∧ M.Commits recurse item.expr) (index : Nat) :
    M.Triple ((∀ i ty, position? i = some ty → D.given ty) ∧ ∀ item ∈ items, M.Takes item.expr)
      (commitItems recurse id target position? index items)
      (commitItems recurse id target position? index items) fun _ => True := by
  induction items generalizing index with
  | nil =>
    rw [commitItems]
    exact .pure fun _ => trivial
  | cons item items ih =>
    obtain ⟨⟨hinside, hcommits⟩, hrest⟩ := List.forall_mem_cons.mp hitems
    have hnext := fun index => (ih hrest index).weaken (R := ((∀ i ty, position? i = some ty →
      D.given ty) ∧ ∀ other ∈ item :: items, M.Takes other.expr) ∧ True)
      (fun h => ⟨h.1.1, (List.forall_mem_cons.mp h.1.2).2⟩)
    cases item with
    | member value =>
      rw [commitItems]
      split
      · rename_i ty hty
        refine ((hcommits ty).weaken (fun h => ?_)).bind fun _ => hnext _
        exact ⟨fun _ => h.1 _ _ hty, (List.forall_mem_cons.mp h.2).1⟩
      · exact (M.triple_note _).bind fun _ => hnext _
    | spread operand =>
      rw [commitItems]
      exact (M.triple_spreadLength hinside).bind fun _ => hnext _

theorem triple_keyNames {fields : List RecordField}
    (hinside : ∀ field ∈ fields, ∀ e ∈ field.exprs, M.inside e) :
    M.Triple P (keyNames fields) (keyNames fields) fun _ => True := by
  induction fields with
  | nil => exact .pure fun _ => trivial
  | cons field fields ih =>
    obtain ⟨hfirst, hrest⟩ := List.forall_mem_cons.mp hinside
    have hnext := (ih hrest).weaken (R := P ∧ True) (fun h => h.1)
    cases field with
    | computed key value =>
      refine (M.triple_keyName? (hfirst key List.mem_cons_self)).bind fun name => ?_
      exact hnext.bind fun names => .pure fun _ => trivial
    | named | reference | spread => exact ih hrest

theorem triple_commitPlace (id : ExprId) (target : Ty) (fields : Fields none) (name : Option String)
    {value : ExprId} (hcommits : M.Commits recurse value) :
    M.Triple ((∀ entry ∈ fields.toList, D.given entry.2.ty) ∧ M.Takes value)
      (commitPlace recurse id target fields name value)
      (commitPlace recurse id target fields name value) fun _ => True := by
  unfold commitPlace
  split
  · rename_i field hfield
    obtain ⟨key, -, hget⟩ := Option.bind_eq_some_iff.mp hfield
    have hmem := Fields.mem_toList_of_get? fields hget
    exact (hcommits field.ty).weaken (fun h => ⟨fun _ => h.1 _ hmem, h.2⟩)
  · exact M.triple_note _

theorem isError_narrowed {ty : Ty} (h : ty.isError = true) : ty.narrowed.isError = true := by
  rw [Ty.isError_iff.mp h]
  rfl

/-- A field whose place a computed key has taken keeps a reading of its own. -/
theorem triple_commitWritten (id : ExprId) (target : Ty) (fields : Fields none)
    (overwritten : List String) (name : Option String) {value : ExprId} (hid : M.inside value)
    (hcommits : M.Commits recurse value) :
    M.Triple ((∀ entry ∈ fields.toList, D.given entry.2.ty) ∧ M.Takes value)
      (commitWritten recurse id target fields overwritten name value)
      (commitWritten recurse id target fields overwritten name value) fun _ => True := by
  unfold commitWritten
  split
  · refine (M.triple_typeOf? hid).bind fun result => ?_
    split
    · rename_i own
      -- an erroneous type narrows to an erroneous one, which asks nothing of the value
      cases herror : own.isError with
      | true =>
        refine Triple.bind (R := fun ty => ty = own.narrowed) ?_ fun ty => ?_
        · exact M.triple_narrow_eq own
        · refine (hcommits ty).weaken (fun h => ⟨fun he => ?_, h.1.1.2⟩)
          rw [h.2, isError_narrowed herror] at he
          cases he
      | false =>
        refine ((M.triple_narrow own).weaken (fun h => (h.2 own rfl).given herror)).bind
          fun ty => ?_
        refine (hcommits ty).weaken (fun h => ⟨fun _ => ?_, h.1.1.2⟩)
        exact D.given_of_meets _ _ h.2
    · exact .pure fun _ => trivial
  · exact M.triple_commitPlace id target fields name hcommits

theorem triple_commitFields (id : ExprId) (target : Ty) (targetFields : Fields none)
    (overwritten : List String) {fields : List RecordField}
    (hfields : ∀ field ∈ fields, ∀ e ∈ field.exprs, M.inside e ∧ M.Commits recurse e) :
    M.Triple ((∀ entry ∈ targetFields.toList, D.given entry.2.ty)
        ∧ ∀ field ∈ fields, ∀ e ∈ field.exprs, M.Takes e)
      (commitFields p recurse id target targetFields overwritten fields)
      (commitFields p recurse id target targetFields overwritten fields) fun _ => True := by
  induction fields with
  | nil => exact .pure fun _ => trivial
  | cons field fields ih =>
    obtain ⟨hfirst, hrest⟩ := List.forall_mem_cons.mp hfields
    have hnext := (ih hrest).weaken (R := ((∀ entry ∈ targetFields.toList, D.given entry.2.ty)
      ∧ ∀ other ∈ field :: fields, ∀ e ∈ other.exprs, M.Takes e) ∧ True)
      (fun h => ⟨h.1.1, (List.forall_mem_cons.mp h.1.2).2⟩)
    have htakes : ∀ e ∈ field.exprs, ((∀ entry ∈ targetFields.toList, D.given entry.2.ty)
        ∧ ∀ other ∈ field :: fields, ∀ e ∈ other.exprs, M.Takes e) →
        (∀ entry ∈ targetFields.toList, D.given entry.2.ty) ∧ M.Takes e :=
      fun e he h => ⟨h.1, (List.forall_mem_cons.mp h.2).1 e he⟩
    rw [commitFields.eq_def]
    cases field with
    | named name value =>
      obtain ⟨hinside, hcommits⟩ := hfirst value List.mem_cons_self
      exact ((M.triple_commitWritten id target targetFields overwritten (some name) hinside
        hcommits).weaken (htakes value List.mem_cons_self)).bind fun _ => hnext
    | computed key value =>
      obtain ⟨-, hcommits⟩ := hfirst value (List.mem_cons_of_mem _ List.mem_cons_self)
      refine (M.triple_keyName? (hfirst key List.mem_cons_self).1).bind fun name => ?_
      refine ((M.triple_commitPlace id target targetFields name hcommits).weaken
        (fun h => ?_)).bind fun _ => hnext.weaken (fun h => ⟨h.1.1, trivial⟩)
      exact htakes value (List.mem_cons_of_mem _ List.mem_cons_self) h.1
    | reference value =>
      obtain ⟨hinside, hcommits⟩ := hfirst value List.mem_cons_self
      exact ((M.triple_commitWritten id target targetFields overwritten _ hinside
        hcommits).weaken (htakes value List.mem_cons_self)).bind fun _ => hnext
    | spread operand => exact hnext.weaken (fun h => ⟨h, trivial⟩)

/-- What is known of a structure is known of the places in it. -/
theorem given_position? {members : List Ty} {rest : Option Ty} (h : D.given (.tuple members rest))
    (i : Nat) (ty : Ty) (hty : Ty.position? members rest i = some ty) : D.given ty := by
  rcases Option.or_eq_some_iff.mp hty with hty | ⟨-, hty⟩
  · exact D.given_tuple members rest h ty (List.mem_of_getElem? hty)
  · exact D.given_rest members rest h ty hty

/-- **One step down keeps two runs in step**, if the steps to the parts do. -/
theorem triple_commitStep {id : ExprId} (hid : M.inside id)
    (hparts : ∀ e, p.source.Part id e → M.Commits recurse e) (target : Ty) :
    M.Triple (M.Committable id target) (commitStep p recurse id target)
      (commitStep p recurse id target) fun _ => True := by
  have hinside : ∀ e, p.source.Part id e → M.inside e := fun e he => M.inside_part id e hid he
  have htakes : ∀ e, p.source.Part id e → M.Committable id target → M.Takes e :=
    fun _ he h => h.takes.part he
  -- a part gets a type under the same conditions as the whole
  have hpart : ∀ {R : Prop} (e : ExprId), p.source.Part id e →
      M.Triple (M.Committable id target ∧ R) (recurse e target) (recurse e target)
        fun _ => True := fun e he =>
    (hparts e he target).weaken (fun h => ⟨h.1.given, htakes e he h.1⟩)
  unfold commitStep
  split
  · exact .pure fun _ => trivial
  · rename_i herror
    rw [Bool.not_eq_true] at herror
    have hreading : ∀ {R : Prop}, M.Triple (M.Committable id target ∧ R) (commitReading id target)
        (commitReading id target) fun _ => True :=
      (M.triple_commitReading hid herror).weaken (fun h => h.1)
    have hset : ∀ {R : Prop}, M.Triple (M.Committable id target ∧ R) (setType id target)
        (setType id target) fun _ => True :=
      (M.triple_setType hid target).mono
        (fun h => h.1.takes.fits (h.1.given herror)) fun _ _ h => h
    split
    · exact .pure fun _ => trivial
    · exact .pure fun _ => trivial
    · exact M.triple_commitReading hid herror
    · exact M.triple_commitReading hid herror
    · rename_i items hexpr
      have hmem : ∀ item ∈ items, p.source.Part id item.expr := fun item hitem =>
        (Module.part_list_iff hexpr).mpr ⟨item, hitem, rfl⟩
      split
      · rename_i members rest
        refine ((M.triple_commitItems id _ _ (fun item hitem =>
          ⟨hinside _ (hmem item hitem), hparts _ (hmem item hitem)⟩) 0).weaken
          (fun h => ⟨?_, ?_⟩)).bind fun _ => hset
        · exact given_position? (h.given rfl)
        · exact fun item hitem => htakes _ (hmem item hitem) h
      · exact M.triple_note _
    · rename_i fields hexpr
      have hmem : ∀ field ∈ fields, ∀ e ∈ field.exprs, p.source.Part id e := fun field hfield e he =>
        (Module.part_record_iff hexpr).mpr ⟨field, hfield, he⟩
      split
      · rename_i targetFields rest isSealed
        refine (M.triple_keyNames fun field hfield e he => hinside e (hmem field hfield e he)).bind
          fun overwritten => ?_
        refine ((M.triple_commitFields id _ targetFields overwritten fun field hfield e he =>
          ⟨hinside e (hmem field hfield e he), hparts e (hmem field hfield e he)⟩).mono
          (fun h => ⟨?_, ?_⟩) fun _ _ h => h).bind fun _ => hset.weaken (fun h => h.1)
        · exact D.given_record targetFields rest isSealed (h.1.given rfl)
        · exact fun field hfield e he => htakes e (hmem field hfield e he) h.1
      · exact M.triple_note _
    · rename_i op lhs rhs hexpr
      have hlhs : p.source.Part id lhs := (Module.part_binary_iff hexpr).mpr (Or.inl rfl)
      have hrhs : p.source.Part id rhs := (Module.part_binary_iff hexpr).mpr (Or.inr rfl)
      refine ((hpart (R := True) lhs hlhs).weaken (fun h => ⟨h, trivial⟩)).bind fun _ => ?_
      refine (hpart rhs hrhs).bind fun _ => ?_
      refine (hreading.weaken (fun h => h.1)).bind fun _ => ?_
      exact M.triple_settleSignature id _
    · rename_i op operand hexpr
      have hoperand : p.source.Part id operand := (Module.part_unary_iff hexpr).mpr rfl
      refine ((hpart (R := True) operand hoperand).weaken (fun h => ⟨h, trivial⟩)).bind fun _ => ?_
      exact hreading.bind fun _ => M.triple_settleSignature id _
    · rename_i inner hexpr
      have hinner : p.source.Part id inner := (Module.part_group_iff hexpr).mpr rfl
      refine ((hpart (R := True) inner hinner).weaken (fun h => ⟨h, trivial⟩)).bind fun _ => ?_
      exact hreading

/-- **Committing keeps two runs in step.** The recursion goes down the parts of an expression. -/
theorem commits_commitWithin (hacyclic : p.source.Acyclic) {n : Nat} {id : ExprId}
    (hid : M.inside id) (hn : p.source.height id < n) : M.Commits (commitWithin p n) id := by
  induction n generalizing id with
  | zero => exact absurd hn (Nat.not_lt_zero _)
  | succ n ih =>
    intro ty
    rw [commitWithin]
    refine (M.triple_commitStep hid (fun e he => ?_) ty.effective).weaken
      (fun h => ⟨fun he => ?_, h.takes⟩)
    · have hlt := he.height_lt hacyclic
      exact ih (M.inside_part id e hid he) (by omega)
    · -- the type behind an erroneous one is erroneous
      refine D.given_effective ty (h.given ?_)
      cases herror : ty.isError with
      | false => rfl
      | true =>
        rw [Ty.isError_iff.mp herror] at he
        cases he

/-! ## Settling a constant -/

/-- What a validation at a value comes to: the anchor is set only for the time that it takes. -/
theorem run_anchored {value : ExprId} {v : Site → Validation Ty} {s : Checker}
    {result : Except NarrowError Ty} {j : Journal}
    (h : (v ⟨some value, p.settings.ambiguity⟩).run s.journal = (result, j)) :
    (anchored p value v).run s = some (result, { s with journal := j }) := by
  show some (((v ⟨some value, p.settings.ambiguity⟩).run s.journal).1,
    { s with journal := ((v ⟨some value, p.settings.ambiguity⟩).run s.journal).2 }) = _
  rw [h]

/-- A validation keeps two runs in step: what it finds does not depend on the journal. -/
theorem triple_anchored {value : ExprId} {v : Site → Validation Ty} {Q : Ty → Prop}
    (hv : ∀ site, Validation.Yields E P (v site) Q) :
    M.Triple P (anchored p value v) (anchored p value v) fun result =>
      (result = .error .reported → D.silent) ∧ ∀ ty, result = .ok ty → Q ty := by
  intro s t hrel hP
  -- one result for both journals, each of which grows in its own way
  obtain ⟨r, hr⟩ := hv ⟨some value, p.settings.ambiguity⟩
  obtain ⟨j, hrunj, hgrowj, hrepj, hQ⟩ := hr s.journal
  obtain ⟨k, hrunk, hgrowk, -, -⟩ := hr t.journal
  have haside := aside_journal s hgrowj.toGrows
  refine ⟨r, _, _, run_anchored hrunj, run_anchored hrunk,
    M.rel_aside s t _ _ hrel haside (aside_journal t hgrowk.toGrows) ?_, M.excused_aside s _ haside, ?_⟩
  · rintro rfl
    rw [hrunj] at hrunk
    cases hrunk
    rfl
  · rcases hP with hE | hP
    · exact Or.inl (M.excused_aside s _ haside hE)
    · by_cases hE : E j
      · exact Or.inl (M.excused_of _ hE)
      · refine Or.inr ⟨fun hrep => ?_, fun ty hty => (hQ (Or.inr hP) ty hty).resolve_left hE⟩
        rcases D.reported with hsilent | hreported
        · exact hsilent
        rcases M.unmuted s t hrel with hsilent | hunmuted
        · exact hsilent
        · exact absurd (hreported j (hrepj hrep hunmuted)) hE

/-- What is found against the declared type is committed to the value. -/
theorem triple_finish (hacyclic : p.source.Acyclic) {value : ExprId} (hid : M.inside value)
    (declared : Option Ty) (ty : Ty) :
    M.Triple (D.meets ty (declared.getD .anydata) ∧ M.Takes value)
      (if ty.isError = true then pure ty else commit p value ty >>= fun _ => pure ty)
      (if ty.isError = true then pure ty else commit p value ty >>= fun _ => pure ty)
      (D.Settled declared (M.sound value) (M.seen value)) := by
  split
  · rename_i herror
    have hno : ∀ {C : Prop}, ty.isError = false → C := fun he => (by simp [herror] at he)
    refine .pure fun h => ⟨fun _ => ?_, hno, hno, h.2.seen⟩
    exact D.silent_of_given (Ty.isError_iff.mp herror ▸ D.given_of_meets _ _ h.1)
  · rename_i herror
    have hheight := Module.height_le hacyclic value
    refine ((M.commits_commitWithin hacyclic hid (Nat.lt_succ_of_le hheight) ty).mono
      (fun h => ⟨fun _ => D.given_of_meets _ _ h.1, h.2⟩) fun _ _ h => h).bind
      fun _ => .pure fun h => ?_
    exact ⟨fun he => absurd he herror, fun _ => h.1.1, fun _ => h.1.2.sound, h.1.2.seen⟩

/-- **Settling a constant keeps two runs in step**, and the final type comes up to the declared
one. -/
theorem triple_settle (hacyclic : p.source.Acyclic) {value : ExprId} (hid : M.inside value)
    {declared : Option Ty}
    (hdeclared : ∀ expected ∈ declared, expected.everywhere D.declarable = true) (inferred : Ty) :
    M.Triple (M.Fits value inferred) (settle p value declared inferred)
      (settle p value declared inferred) (D.Settled declared (M.sound value) (M.seen value)) := by
  unfold settle
  split
  · rename_i herror
    exact .pure fun h => D.settled_error (h.silent herror) h.seen
  · rename_i herror
    rw [Bool.not_eq_true] at herror
    cases declared with
    | none =>
      refine ((M.triple_narrow inferred).weaken (fun h => h.given herror)).bind
        fun ty => ?_
      exact (M.triple_finish hacyclic hid none ty).weaken (fun h => ⟨h.2, Fits.takes h.1 herror⟩)
    | some expected =>
      have hvalid : ∀ site, Validation.Yields E (M.Fits value inferred)
          (validate site expected inferred) fun ty => D.meets ty expected := fun site =>
        (D.yields_validate site expected inferred).weaken D.lasts
          (fun h => ⟨h.given herror, hdeclared expected rfl⟩)
      refine (M.triple_anchored hvalid).bind fun result => ?_
      -- the three outcomes: a silent mismatch, something reported, and a type
      match result with
      | .error .mismatch =>
        exact (M.triple_report value rfl).bind fun _ => .pure fun h =>
          D.settled_error h.2 h.1.1.seen
      | .error .reported => exact .pure fun h => D.settled_error (h.2.1 rfl) h.1.seen
      | .ok ty =>
        exact (M.triple_finish hacyclic hid (some expected) ty).mono
          (fun h => ⟨h.2.2 ty rfl, Fits.takes h.1 herror⟩) fun _ _ h => h

end Simulation

end ConstNarrow
