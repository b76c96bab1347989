/-
**What comes out well has gone well.**

A problem is reported where it is met, and gives the error type, which every expression around it
takes over. Read backwards: an expression whose type is not erroneous has no erroneous part, and
nothing was reported while it was evaluated.

The argument goes from the result of a computation back to its start, so this is how `Clean` and
`Follows` are stated and put together. `Clean` is about one computation that reports nothing.
`Follows` is about two, of which the second does the same as the first where that comes out well, and
about what may happen to the journal on the way.
-/
import ConstNarrow.Proofs.Grouping
import ConstNarrow.Proofs.PrunedValidation

set_option autoImplicit false

namespace ConstNarrow.Checker

open Journal (SameReports)

variable {α β : Type}

/-- If a computation comes out well, then it was fine to begin with, and it has reported nothing. -/
def Clean (fine : Prop) (m : CheckM α) (well : α → Prop) : Prop :=
  ∀ s a t, m.run s = some (a, t) → well a → fine ∧ s.journal.SameReports t.journal

namespace Clean

variable {fine : Prop} {m : CheckM α} {well : α → Prop}

protected theorem pure {a : α} (h : well a → fine) : Clean fine (pure a) well := by
  intro s b t hrun hwell
  cases hrun
  exact ⟨h hwell, .refl _⟩

/-- What never comes out well is clean. -/
theorem bind_pure {a : β} {well : β → Prop} (h : ¬ well a) :
    Clean fine (m >>= fun _ => pure a) well := by
  intro s b t hrun hwell
  rw [StateT.run_bind] at hrun
  obtain ⟨_, -, hpure⟩ := Option.bind_eq_some_iff.mp hrun
  cases hpure
  exact absurd hwell h

/-- From the last computation back to the first. -/
protected theorem bind {f : α → CheckM β} {good : β → Prop} (hm : Clean fine m well)
    (hf : ∀ a, Clean (well a) (f a) good) : Clean fine (m >>= f) good := by
  intro s b u hrun hgood
  rw [StateT.run_bind] at hrun
  obtain ⟨⟨a, t⟩, hfirst, hsecond⟩ := Option.bind_eq_some_iff.mp hrun
  obtain ⟨hwell, hreports⟩ := hf a t b u hsecond hgood
  obtain ⟨hfine, hreports'⟩ := hm s a t hfirst hwell
  exact ⟨hfine, hreports'.trans hreports⟩

theorem imp {other : Prop} (h : Clean fine m well) (hfine : fine → other) : Clean other m well := by
  intro s a t hrun ha
  obtain ⟨hf, hreports⟩ := h s a t hrun ha
  exact ⟨hfine hf, hreports⟩

theorem write {f : Checker → Checker} {well : Unit → Prop}
    (h : ∀ s : Checker, s.journal.SameReports (f s).journal) :
    Clean True (modify f) well := by
  intro s _ t hrun _
  cases hrun
  exact ⟨trivial, h s⟩

theorem note (e : Event) {well : Unit → Prop} : Clean True (Checker.note e) well :=
  .write fun s => .note s.journal e

theorem fail (location : ExprId) (problem : Problem) :
    Clean fine (Checker.fail location problem) (·.isError = false) :=
  .bind_pure fun h => (by cases h)

end Clean

/-! ## Nothing to come out badly -/

/-- A computation reports nothing, whatever comes of it. -/
abbrev Silent (m : CheckM α) : Prop := Clean True m fun _ => True

namespace Silent

protected theorem pure (a : α) : Silent (pure a : CheckM α) := Clean.pure fun _ => trivial

protected theorem bind {m : CheckM α} {f : α → CheckM β} (hm : Silent m) (hf : ∀ a, Silent (f a)) :
    Silent (m >>= f) :=
  Clean.bind hm hf

theorem typeOf? (id : ExprId) : Silent (Checker.typeOf? id) := by
  intro s a t hrun _
  cases hrun
  exact ⟨trivial, .refl _⟩

/-- What leaves the journal alone reports nothing. -/
theorem modify {f : Checker → Checker} (h : ∀ s, (f s).journal = s.journal) :
    Silent (modify f : CheckM Unit) :=
  .write fun s => by
    rw [h]
    exact .refl _

theorem setType (id : ExprId) (ty : Ty) : Silent (Checker.setType id ty) := .write fun _ => .refl _

theorem setSignature (id : ExprId) (signature : Signature) :
    Silent (Checker.setSignature id signature) := .write fun _ => .refl _

theorem narrow (ty : Ty) : Silent (Checker.narrow ty) :=
  Silent.bind (Clean.write fun s => .noteAll s.journal _) fun _ => .pure _

end Silent

/-! ## Steps that evaluate nothing -/

section Steps

variable {p : Program}

theorem clean_evalLiteral (id : ExprId) (literal : Literal) (expected : Option Ty) :
    Clean True (evalLiteral p id literal expected) (·.isError = false) := by
  unfold evalLiteral
  split
  · exact .pure fun _ => trivial
  · exact .fail id _

theorem clean_evalImported (id : ExprId) (moduleName name : String) :
    Clean True (evalImported p id moduleName name) (·.isError = false) := by
  unfold evalImported
  split
  · exact .fail id _
  · split
    · exact .pure fun _ => trivial
    · exact .fail id _
    · exact .fail id _

/-- An operand that is no tuple of fixed length is reported, and contributes nothing. -/
theorem clean_spreadMembers (operand : ExprId) (ty : Ty) :
    Clean (ty.isError = false) (spreadMembers operand ty) (·.isSome = true) := by
  unfold spreadMembers
  split
  · exact .pure fun h => (by cases h)
  · rename_i hok
    split
    · exact .pure fun _ => Bool.eq_false_iff.mpr hok
    · exact .bind_pure fun h => (by cases h)

/-- A step of the placement of fields: it comes out well only from a placement that was. -/
abbrev PlacesClean (place : Placement → CheckM Placement) : Prop :=
  ∀ placed, Clean (placed.failed = false) (place placed) (·.failed = false)

/-- An erroneous field makes the placement fail, and so does one whose name is taken, which is
reported. -/
theorem clean_putField (location : ExprId) (name : String) (ty : Ty) (placed : Placement) :
    Clean (ty.isError = false ∧ placed.failed = false) (putField location name ty placed)
      (·.failed = false) := by
  unfold putField
  split
  · exact .pure fun h => (by cases h)
  · rename_i hok
    split
    · exact .bind_pure fun h => (by cases h)
    · exact .pure fun h => ⟨Bool.eq_false_iff.mpr hok, h⟩

theorem clean_putFields (location : ExprId) (fields : List (String × Field)) :
    PlacesClean (putFields location fields) := by
  induction fields with
  | nil => exact fun placed => .pure fun h => h
  | cons entry fields ih =>
    intro placed
    exact ((clean_putField location entry.1 entry.2.ty placed).imp fun h => h.2).bind ih

theorem clean_placeSpread (operand : ExprId) (ty : Ty) (placed : Placement) :
    Clean (ty.isError = false ∧ placed.failed = false) (placeSpread operand ty placed)
      (·.failed = false) := by
  unfold placeSpread
  split
  · exact .pure fun h => (by cases h)
  · rename_i hok
    split
    · exact (clean_putFields operand _ placed).imp fun h => ⟨Bool.eq_false_iff.mpr hok, h⟩
    · exact .bind_pure fun h => (by cases h)

theorem silent_dropReadings (operand : ExprId) (readings kept : List Singleton) :
    Silent (dropReadings operand readings kept) := by
  unfold dropReadings
  split
  · exact .pure _
  · exact Silent.bind (.note _) fun _ => .setType operand _

theorem silent_foldBases (op : BinaryOp) (viable : List Combination) (bases : List Primitive) :
    Silent (foldBases op viable bases) := by
  induction bases with
  | nil => exact .pure _
  | cons base bases ih =>
    have hnext : ∀ value : Option Scalar,
        Silent (foldBases op viable bases >>= fun values => pure (value.toList ++ values)) :=
      fun _ => ih.bind fun _ => .pure _
    unfold foldBases
    cases viable.find? (·.base == base) with
    | none => exact hnext none
    | some c =>
      dsimp only
      cases op.fold? c.lhs.value c.rhs.value base with
      | none => exact Silent.bind (.note _) fun _ => hnext none
      | some value => exact hnext (some value)

/-- If nothing could be folded, this is reported, and the result is an error. -/
theorem clean_foldedType (id : ExprId) (symbol : String) (operands : List Ty) (folded : List Scalar) :
    Clean True (foldedType id symbol operands folded) (·.isError = false) := by
  unfold foldedType
  split
  · exact .fail id _
  · exact .pure fun _ => trivial

theorem clean_evalBinaryOn (id : ExprId) (op : BinaryOp) (lhs rhs : ExprId) (lhsTy rhsTy : Ty) :
    Clean True (evalBinaryOn id op lhs rhs lhsTy rhsTy) (·.isError = false) := by
  unfold evalBinaryOn
  dsimp only
  split
  · split
    · exact .fail id _
    · refine Clean.bind (silent_dropReadings lhs _ _) fun _ => ?_
      refine Clean.bind (silent_dropReadings rhs _ _) fun _ => ?_
      refine Clean.bind (silent_foldBases op _ _) fun folded => ?_
      refine Clean.bind (Silent.setSignature id _) fun _ => ?_
      exact clean_foldedType id op.symbol _ folded
  · exact .fail id _

theorem clean_evalUnaryOn (id : ExprId) (op : UnaryOp) (ty : Ty) :
    Clean True (evalUnaryOn id op ty) (·.isError = false) := by
  unfold evalUnaryOn
  dsimp only
  split
  · exact .fail id _
  · exact Clean.bind (Silent.setSignature id _) fun _ => clean_foldedType id op.symbol _ _

end Steps

/-! ## Two computations -/

/-- What may happen to the journal on the way to a good result. Logging may happen in any case. -/
structure Trail where
  rel : Journal → Journal → Prop
  trans : ∀ {i j k : Journal}, rel i j → rel j k → rel i k
  of_sameReports : ∀ {j k : Journal}, j.SameReports k → rel j k

/-- Nothing is reported. -/
def Trail.silent : Trail := ⟨SameReports, .trans, id⟩

/-- If a computation comes out well, then it was fine to begin with, another computation does the
same, and the journal has changed as a trail allows. -/
def Follows (T : Trail) (fine : Prop) (m m' : CheckM α) (well : α → Prop) : Prop :=
  ∀ s a t, m.run s = some (a, t) → well a → fine ∧ m'.run s = some (a, t) ∧ T.rel s.journal t.journal

theorem Clean.follows {fine : Prop} {m : CheckM α} {well : α → Prop} (h : Clean fine m well)
    (T : Trail) : Follows T fine m m well := by
  intro s a t hrun hwell
  obtain ⟨hfine, hreports⟩ := h s a t hrun hwell
  exact ⟨hfine, hrun, T.of_sameReports hreports⟩

namespace Follows

variable {T : Trail} {fine : Prop} {m m' : CheckM α} {well : α → Prop} {f f' : α → CheckM β}
variable {good : β → Prop}

theorem clean (h : Follows .silent fine m m' well) : Clean fine m well := by
  intro s a t hrun hwell
  obtain ⟨hfine, -, hreports⟩ := h s a t hrun hwell
  exact ⟨hfine, hreports⟩

protected theorem pure {a : α} (h : well a → fine) : Follows T fine (pure a) (pure a) well :=
  (Clean.pure h).follows T

/-- From the last computation back to the first. -/
protected theorem bind (hm : Follows T fine m m' well)
    (hf : ∀ a, Follows T (well a) (f a) (f' a) good) : Follows T fine (m >>= f) (m' >>= f') good := by
  intro s b u hrun hgood
  rw [StateT.run_bind] at hrun
  obtain ⟨⟨a, t⟩, hfirst, hsecond⟩ := Option.bind_eq_some_iff.mp hrun
  obtain ⟨hwell, hsecond', htrail⟩ := hf a t b u hsecond hgood
  obtain ⟨hfine, hfirst', htrail'⟩ := hm s a t hfirst hwell
  exact ⟨hfine, (run_bind_some hfirst').trans hsecond', T.trans htrail' htrail⟩

/-- What was fine before the first computation is kept until the last. -/
theorem keeping (hm : Follows T True m m' well)
    (hf : ∀ a, Follows T (well a ∧ fine) (f a) (f' a) good) :
    Follows T fine (m >>= f) (m' >>= f') good := by
  intro s b u hrun hgood
  rw [StateT.run_bind] at hrun
  obtain ⟨⟨a, t⟩, hfirst, hsecond⟩ := Option.bind_eq_some_iff.mp hrun
  obtain ⟨⟨hwell, hfine⟩, hsecond', htrail⟩ := hf a t b u hsecond hgood
  obtain ⟨-, hfirst', htrail'⟩ := hm s a t hfirst hwell
  exact ⟨hfine, (run_bind_some hfirst').trans hsecond', T.trans htrail' htrail⟩

theorem imp {other : Prop} (h : Follows T fine m m' well) (hfine : fine → other) :
    Follows T other m m' well := by
  intro s a t hrun ha
  obtain ⟨hf, hrest⟩ := h s a t hrun ha
  exact ⟨hfine hf, hrest⟩

/-- What reports nothing may come before. -/
theorem after_silent {m : CheckM α} (hm : Silent m) (hf : ∀ a, Follows T fine (f a) (f' a) good) :
    Follows T fine (m >>= f) (m >>= f') good :=
  keeping (hm.follows T) fun a => (hf a).imp fun h => ⟨trivial, h⟩

end Follows

/-! ## Evaluation -/

section Evaluation

variable {p : Program} {T : Trail} {scope : ScopeId} {eval eval' : Evaluator}
variable {refer refer' : Referrer}

/-- That one evaluator follows another on an expression, where the type is not erroneous. -/
def EvaluatesFollowing (T : Trail) (scope : ScopeId) (eval eval' : Evaluator) (e : ExprId) : Prop :=
  ∀ frame : Frame, frame.scope = scope → Follows T True (eval e frame) (eval' e frame) (·.isError = false)

/-- A name that means no constant is looked up, and nothing is resolved for it. -/
theorem follows_evalName {id : ExprId} {name : String} (hexpr : p.source.expr id = .reference none name)
    (hrefer : ∀ target, p.source.referredConstant? scope id = some target →
      Follows T True (refer id target) (refer' id target) (·.isError = false)) :
    Follows T True (evalName p refer id name scope) (evalName p refer' id name scope)
      (·.isError = false) := by
  unfold evalName
  split
  · rename_i target hlookup
    exact hrefer target (Module.referredConstant?_eq_some.mpr ⟨name, hexpr, hlookup⟩)
  · exact (Clean.fail id _).follows T
  · exact .pure fun _ => trivial
  · exact (Clean.fail id _).follows T

/-! ### Lists -/

/-- All items are evaluated in turn, and the list comes out well only if each of them does. -/
theorem follows_evalItems {frame : Frame} (hscope : frame.scope = scope) {items : List ListItem}
    (heval : ∀ item ∈ items, EvaluatesFollowing T scope eval eval' item.expr) :
    Follows T True (evalItems eval frame items) (evalItems eval' frame items) (·.isSome = true) := by
  induction items with
  | nil => exact .pure fun _ => trivial
  | cons item items ih =>
    obtain ⟨hfirst, hrest⟩ := List.forall_mem_cons.mp heval
    cases item with
    | member value =>
      refine (hfirst frame hscope).bind fun ty => ?_
      -- the rest is evaluated before it is seen whether the first is erroneous
      refine (ih hrest).keeping fun rest => .pure fun h => ?_
      cases herror : ty.isError with
      | true =>
        rw [herror, if_pos rfl] at h
        cases h
      | false =>
        rw [herror, if_neg Bool.false_ne_true, Option.isSome_map] at h
        exact ⟨h, rfl⟩
    | spread operand =>
      refine (hfirst (frame.expecting none) hscope).bind fun ty => ?_
      refine ((clean_spreadMembers operand ty).follows T).bind fun members => ?_
      refine (ih hrest).keeping fun rest => .pure fun h => ?_
      cases members with
      | none => cases h
      | some members =>
        rw [Option.bind_some, Option.isSome_map] at h
        exact ⟨h, rfl⟩

theorem follows_evalList {frame : Frame} (hscope : frame.scope = scope) {id : ExprId}
    {items : List ListItem} (heval : ∀ item ∈ items, EvaluatesFollowing T scope eval eval' item.expr) :
    Follows T True (evalList eval id items frame) (evalList eval' id items frame)
      (·.isError = false) := by
  refine (follows_evalItems hscope heval).bind fun members => ?_
  cases members with
  | some members => exact .pure fun _ => rfl
  | none => exact (Clean.bind_pure fun h => (by cases h)).follows T

/-! ### Records -/

/-- A step of the placement of fields follows another one: it comes out well only from a placement
that was. -/
abbrev PlacesFollowing (T : Trail) (place place' : Placement → CheckM Placement) : Prop :=
  ∀ placed, Follows T (placed.failed = false) (place placed) (place' placed) (·.failed = false)

/-- A field that is not computed comes out well if its expression does. -/
theorem follows_placeWritten {frame : Frame} (hscope : frame.scope = scope) {field : RecordField}
    (heval : ∀ e ∈ field.exprs, EvaluatesFollowing T scope eval eval' e) :
    PlacesFollowing T (placeWritten p eval frame field) (placeWritten p eval' frame field) := by
  intro placed
  cases field with
  | named name value =>
    exact (heval value List.mem_cons_self frame hscope).keeping fun ty =>
      (clean_putField value name ty placed).follows T
  | reference value =>
    refine (heval value List.mem_cons_self frame hscope).keeping fun ty => ?_
    split
    · exact (clean_putField value _ ty placed).follows T
    · exact .pure fun h => (by cases h)
  | spread operand =>
    exact (heval operand List.mem_cons_self (frame.expecting none) hscope).keeping fun ty =>
      (clean_placeSpread operand ty placed).follows T
  | computed key value => exact .pure fun h => h

theorem follows_placeComputed {frame : Frame} (hscope : frame.scope = scope) {field : RecordField}
    (heval : ∀ e ∈ field.exprs, EvaluatesFollowing T scope eval eval' e) :
    PlacesFollowing T (placeComputed eval frame field) (placeComputed eval' frame field) := by
  intro placed
  cases field with
  | computed key value =>
    have hkey := heval key List.mem_cons_self (frame.expecting none) hscope
    have hvalue := heval value (List.mem_cons_of_mem _ List.mem_cons_self) frame hscope
    refine hkey.keeping fun keyTy => hvalue.keeping fun valueTy => ?_
    split
    · exact .pure fun h => (by cases h)
    · rename_i hok
      rw [Bool.not_eq_true, Bool.or_eq_false_iff] at hok
      split
      · exact .pure fun h => ⟨hok.2, hok.1, h⟩
      · exact (Clean.bind_pure fun h => (by cases h)).follows T
  | named | reference | spread => exact .pure fun h => h

theorem follows_placeEach {place place' : RecordField → Placement → CheckM Placement}
    {fields : List RecordField} (h : ∀ field ∈ fields, PlacesFollowing T (place field) (place' field)) :
    PlacesFollowing T (placeEach place fields) (placeEach place' fields) := by
  induction fields with
  | nil => exact fun placed => .pure fun h => h
  | cons field fields ih =>
    obtain ⟨hfirst, hrest⟩ := List.forall_mem_cons.mp h
    exact fun placed => (hfirst placed).bind (ih hrest)

theorem follows_evalRecord {frame : Frame} (hscope : frame.scope = scope) {fields : List RecordField}
    (heval : ∀ field ∈ fields, ∀ e ∈ field.exprs, EvaluatesFollowing T scope eval eval' e) :
    Follows T True (evalRecord p eval fields frame) (evalRecord p eval' fields frame)
      (·.isError = false) := by
  -- the computed fields are placed after all others, in a second walk
  have hwritten : PlacesFollowing T (placeEach (placeWritten p eval frame) fields)
      (placeEach (placeWritten p eval' frame) fields) :=
    follows_placeEach fun field hfield => follows_placeWritten hscope (heval field hfield)
  have hcomputed : PlacesFollowing T (placeEach (placeComputed eval frame) fields)
      (placeEach (placeComputed eval' frame) fields) :=
    follows_placeEach fun field hfield => follows_placeComputed hscope (heval field hfield)
  refine ((hwritten ⟨.nil, false⟩).imp fun _ => trivial).bind fun written => ?_
  refine (hcomputed written).bind fun placed => .pure fun h => ?_
  cases hfailed : placed.failed with
  | false => rfl
  | true =>
    rw [hfailed, if_pos rfl] at h
    cases h

/-! ### Operators -/

theorem follows_evalBinary {frame : Frame} {id : ExprId} {op : BinaryOp} {lhs rhs : ExprId}
    (hlhs : Follows T True (eval lhs frame) (eval' lhs frame) (·.isError = false))
    (hrhs : Follows T True (eval rhs frame) (eval' rhs frame) (·.isError = false)) :
    Follows T True (evalBinary eval id op lhs rhs frame) (evalBinary eval' id op lhs rhs frame)
      (·.isError = false) := by
  refine hlhs.bind fun lhsTy => hrhs.keeping fun rhsTy => ?_
  split
  · exact .pure fun h => (by cases h)
  · rename_i hok
    rw [Bool.not_eq_true, Bool.or_eq_false_iff] at hok
    exact ((clean_evalBinaryOn id op lhs rhs lhsTy rhsTy).follows T).imp fun _ => ⟨hok.2, hok.1⟩

theorem follows_evalUnary {frame : Frame} {id : ExprId} {op : UnaryOp} {operand : ExprId}
    (h : Follows T True (eval operand frame) (eval' operand frame) (·.isError = false)) :
    Follows T True (evalUnary eval id op operand frame) (evalUnary eval' id op operand frame)
      (·.isError = false) := by
  refine h.bind fun ty => ?_
  split
  · exact .pure fun h => (by cases h)
  · rename_i hok
    exact ((clean_evalUnaryOn id op ty).follows T).imp fun _ => Bool.eq_false_iff.mpr hok

/-! ### All expressions -/

/-- One step: an expression, if its parts are evaluated so, and what it names is given so. -/
theorem follows_evalFresh {id : ExprId}
    (hrefer : ∀ target, p.source.referredConstant? scope id = some target →
      Follows T True (refer id target) (refer' id target) (·.isError = false))
    (heval : ∀ part, p.source.Part id part → EvaluatesFollowing T scope eval eval' part)
    {frame : Frame} (hscope : frame.scope = scope) :
    Follows T True (evalFresh p refer eval id frame) (evalFresh p refer' eval' id frame)
      (·.isError = false) := by
  unfold Module.Part at heval
  unfold evalFresh
  cases hexpr : p.source.expr id with
  | missing => exact .pure fun h => (by cases h)
  | literal literal => exact (clean_evalLiteral id literal _).follows T
  | reference source name =>
    cases source with
    | none =>
      subst hscope
      exact follows_evalName hexpr hrefer
    | some source => exact (clean_evalImported id source name).follows T
  | list items =>
    rw [hexpr] at heval
    exact follows_evalList hscope fun item hitem => heval _ (List.mem_map_of_mem hitem)
  | record fields =>
    rw [hexpr] at heval
    exact follows_evalRecord hscope fun field hfield e he =>
      heval e (List.mem_flatMap.mpr ⟨field, hfield, he⟩)
  | binary op lhs rhs =>
    rw [hexpr] at heval
    exact follows_evalBinary (heval lhs List.mem_cons_self frame hscope)
      (heval rhs (List.mem_cons_of_mem _ List.mem_cons_self) frame hscope)
  | unary op operand =>
    rw [hexpr] at heval
    exact follows_evalUnary (heval operand List.mem_cons_self frame hscope)
  | group inner =>
    rw [hexpr] at heval
    exact heval inner List.mem_cons_self frame hscope
  | unsupported form => exact (Clean.fail id _).follows T

/-- The type that was kept, or is kept from now on. -/
theorem follows_evalStep {id : ExprId}
    (hrefer : ∀ target, p.source.referredConstant? scope id = some target →
      Follows T True (refer id target) (refer' id target) (·.isError = false))
    (heval : ∀ part, p.source.Part id part → EvaluatesFollowing T scope eval eval' part) :
    EvaluatesFollowing T scope (evalStep p refer eval) (evalStep p refer' eval') id := by
  intro frame hscope
  refine Follows.bind ((Silent.typeOf? id).follows T) fun found => ?_
  cases found with
  | some ty => exact .pure fun _ => trivial
  | none =>
    -- the type is kept also if it is erroneous, and then nothing is claimed
    refine (follows_evalFresh hrefer heval hscope).bind fun ty => ?_
    exact ((Silent.setType id ty).follows T).keeping fun _ => .pure fun hok => ⟨trivial, hok⟩

/-- Evaluation of an expression reports nothing unless its type is erroneous. -/
def EvaluatesClean (scope : ScopeId) (eval : Evaluator) (e : ExprId) : Prop :=
  ∀ frame : Frame, frame.scope = scope → Clean True (eval e frame) (·.isError = false)

/-- **An expression that names no constants is evaluated cleanly**: nothing is reported unless its type
is erroneous. -/
theorem clean_evaluateWithin (n : Nat) {id : ExprId}
    (hnone : ∀ e, p.source.Within id e → p.source.referredConstant? scope e = none) :
    EvaluatesClean scope (evaluateWithin p n) id := by
  have hsilent : EvaluatesFollowing .silent scope (evaluateWithin p n) (evaluateWithin p n) id := by
    induction n generalizing id with
    | zero => exact fun _ _ s a t hrun => (by cases hrun)
    | succ n ih =>
      refine follows_evalStep (fun target htarget => ?_) fun part hpart => ?_
      · rw [hnone id .refl] at htarget
        cases htarget
      · exact ih fun e he => hnone e (.head hpart he)
  exact fun frame hscope => (hsilent frame hscope).clean

end Evaluation

end ConstNarrow.Checker
