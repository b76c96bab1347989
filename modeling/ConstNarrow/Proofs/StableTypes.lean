/-
**The types that constants settle on.**

The type of a constant is a function of the types of the constants that it names: `typeUnder` types
one constant alone, with given types for all the others. Starting from the error type everywhere,
rounds of `typeUnder` reach a fixed point. A constant on a cycle, or one that needs such a constant,
is erroneous in every round, since an error spreads to whatever names it. Any other constant changes
only as long as something that it needs does, and this chain is no longer than there are constants.

No order of resolution occurs in this definition. It is what resolution in any order is compared
with.
-/
import ConstNarrow.Proofs.Dependency
import ConstNarrow.Proofs.Resolution

set_option autoImplicit false

namespace ConstNarrow

open Checker

namespace Module

variable {m : Module} {scope : ScopeId} {T : ConstId → Prop}

/-- All constants that are named within an expression are among the given ones. -/
def NamesOnly (m : Module) (scope : ScopeId) (T : ConstId → Prop) (id : ExprId) : Prop :=
  ∀ e, m.Within id e → ∀ target, m.referredConstant? scope e = some target → T target

theorem hereditary_namesOnly (m : Module) (scope : ScopeId) (T : ConstId → Prop) :
    m.Hereditary scope (m.NamesOnly scope T) where
  part := fun _ _ h hpart e he => h e (he.head hpart)
  of_parts := by
    intro id href hparts e he target htarget
    rcases Relation.ReflTransGen.cases_head he with rfl | ⟨b, hpart, hb⟩
    · rw [href] at htarget
      cases htarget
    · exact hparts b hpart e hb target htarget

/-- An expression that names a constant has no parts. -/
theorem children_of_referred {id : ExprId} {target : ConstId}
    (h : m.referredConstant? scope id = some target) : (m.expr id).children = [] := by
  unfold referredConstant? at h
  split at h
  · rename_i hexpr
    rw [hexpr]
    rfl
  · cases h

theorem namesOnly_of_referred {id : ExprId} {target : ConstId}
    (href : m.referredConstant? scope id = some target) (h : T target) :
    m.NamesOnly scope T id := by
  intro e he other hother
  rcases Relation.ReflTransGen.cases_head he with rfl | ⟨b, hpart, -⟩
  · rw [href] at hother
    cases hother
    exact h
  · rw [Part, children_of_referred href] at hpart
    cases hpart

theorem namesOnly_value_iff (hm : m.Acyclic) {id : ConstId} {constant : Constant}
    (hc : m.constants[id]? = some constant) :
    m.NamesOnly constant.scope T constant.value ↔ ∀ target, m.DependsOn id target → T target := by
  constructor
  · intro h target hdepends
    obtain ⟨e, he, href⟩ := (dependsOn_iff hm hc).mp hdepends
    exact h e he target href
  · intro h e he target href
    exact h target ((dependsOn_iff hm hc).mpr ⟨e, he, href⟩)

/-- A constant that cannot be resolved: it needs one on a cycle. -/
def Doomed (m : Module) (id : ConstId) : Prop := ∃ c, m.Needs id c ∧ m.OnCycle c

theorem Doomed.of_dependsOn {id target : ConstId} (hd : m.DependsOn id target)
    (h : m.Doomed target) : m.Doomed id := by
  obtain ⟨c, hneeds, hcycle⟩ := h
  exact ⟨c, hneeds.head hd, hcycle⟩

/-- Whatever cannot be resolved depends on another such constant, or on itself. -/
theorem Doomed.exists_dependsOn {id : ConstId} (h : m.Doomed id) :
    ∃ target, m.DependsOn id target ∧ m.Doomed target := by
  obtain ⟨c, hneeds, hcycle⟩ := h
  rcases Relation.ReflTransGen.cases_head hneeds with rfl | ⟨target, hdepends, hrest⟩
  · obtain ⟨target, hdepends, hrest⟩ := Relation.TransGen.head'_iff.mp hcycle
    exact ⟨target, hdepends, _, hrest, hcycle⟩
  · exact ⟨target, hdepends, c, hrest, hcycle⟩

theorem OnCycle.doomed {id : ConstId} (h : m.OnCycle id) : m.Doomed id := ⟨id, .refl, h⟩

end Module

/-! ## One constant alone -/

/-- Each constant is given a fixed type. -/
def Checker.supposing (types : ConstId → Ty) : Referrer := fun _ target => pure (types target)

/-- The typing of a constant alone, with given types for the others. -/
def Checker.typingUnder (p : Program) (types : ConstId → Ty) (constant : Constant) : CheckM Ty :=
  typing p (evaluateUsing p (supposing types) (p.source.exprs.size + 1)) constant

/-- **The type of a constant under given types for the others.** -/
def Program.typeUnder (p : Program) (types : ConstId → Ty) (id : ConstId) : Ty :=
  match p.source.constants[id]? with
  | none => .error
  | some constant => ((typingUnder p types constant).run .start).elim .error Prod.fst

variable {p : Program} {types types' : ConstId → Ty} {id target : ConstId} {constant : Constant}

theorem typeUnder_of_run (hconstant : p.source.constants[id]? = some constant) {ty : Ty}
    {t : Checker} (h : (typingUnder p types constant).run .start = some (ty, t)) :
    p.typeUnder types id = ty := by
  unfold Program.typeUnder
  rw [hconstant]
  show ((typingUnder p types constant).run .start).elim .error Prod.fst = ty
  rw [h]
  rfl

/-- Two runs on one state, each with its own types for the constants. An expression is sound if none
of the types that the first one has for it is erroneous. -/
def sideBySide (p : Program) (constant : Constant) (types : ConstId → Ty) :
    Simulation p Discipline.free where
  rel := fun s t => s = t ∧ s.journal.muteDepth = 0 ∧ ∀ e ty, p.source.Within constant.value e →
    s.exprTypes.get? e = some ty → ty.isError = false →
      p.source.NamesOnly constant.scope (fun c => (types c).isError = false) e
  scope := constant.scope
  inside := p.source.Within constant.value
  sound := p.source.NamesOnly constant.scope fun c => (types c).isError = false
  seen := fun _ => True
  excused := fun _ => False
  inside_part := p.within_value_part constant
  hereditary_sound := p.source.hereditary_namesOnly _ _
  hereditary_seen := p.hereditary_true constant
  excused_of := fun _ h => h
  excused_aside := fun _ _ _ h => h
  excused_type := fun _ _ _ h => h
  missing := fun _ _ _ => trivial
  unnamed := fun _ _ _ _ _ _ _ => trivial
  wildcard := fun _ _ _ => trivial
  imported := fun _ _ _ _ _ _ _ _ _ => trivial
  same_type := fun _ _ _ h _ => h.1 ▸ rfl
  kept_type := fun _ _ e ty h he hty =>
    Or.inr ⟨fun _ => trivial, fun _ => trivial, h.2.2 e ty he hty, trivial⟩
  unmuted := fun _ _ h => Or.inr h.2.1
  rel_aside := by
    intro s t s' t' h hs _ heq
    refine ⟨heq h.1, hs.journal.muteDepth.trans h.2.1, fun e ty he hty => ?_⟩
    exact h.2.2 e ty he (hs.exprTypes ▸ hty)
  rel_type := by
    intro s t e ty h _ hfits
    refine ⟨h.1 ▸ rfl, h.2.1, fun other ty' hother hget => ?_⟩
    have hget' : (if other = e then some ty else s.exprTypes.get? other) = some ty' :=
      (Table.get?_insert _ _ _ _).symm.trans hget
    split at hget'
    · rename_i heq
      cases hget'
      exact heq ▸ (hfits.resolve_left not_false).sound
    · exact h.2.2 other ty' hother hget'

/-- **A constant alone has a type**, which is the same under types that agree on what it depends on,
and which is erroneous if one of these is. -/
theorem exists_typingUnder (hacyclic : p.source.Acyclic)
    (hconstant : p.source.constants[id]? = some constant)
    (hsame : ∀ target, p.source.DependsOn id target → types target = types' target) :
    ∃ ty t, (typingUnder p types constant).run .start = some (ty, t)
      ∧ (typingUnder p types' constant).run .start = some (ty, t)
      ∧ (ty.isError = false →
        ∀ target, p.source.DependsOn id target → (types target).isError = false) := by
  let M := sideBySide p constant types
  have hrefer : ∀ e, M.inside e → M.Refers (supposing types) (supposing types') e := by
    intro e he target href P s t hrel _
    have hdepends := (Module.dependsOn_iff hacyclic hconstant).mpr ⟨e, he, href⟩
    refine ⟨types target, s, t, rfl, ?_, hrel, fun h => h, Or.inr ?_⟩
    · rw [hsame target hdepends]
      rfl
    · refine ⟨fun _ => trivial, fun _ => trivial, fun h => ?_, trivial⟩
      exact Module.namesOnly_of_referred (T := fun c => (types c).isError = false) href h
  have hheight : 0 + p.source.height constant.value < p.source.exprs.size + 1 := by
    have hle := Module.height_le hacyclic constant.value
    omega
  have hevaluates : M.Evaluates (evaluateUsing p (supposing types) (p.source.exprs.size + 1))
      (evaluateUsing p (supposing types') (p.source.exprs.size + 1)) constant.value :=
    M.evaluates (fun _ => supposing types) (fun _ => supposing types') hacyclic
      (fun _ => rfl) (fun _ => rfl) (fun _ _ e _ _ he => hrefer e he) .refl hheight hheight
  obtain ⟨ty, s, t, hrun, hrun', ⟨rfl, -⟩, -, hsettled⟩ := M.triple_typing (P := True) hacyclic rfl
    .refl (fun ty _ => Discipline.everywhere_true ty) hevaluates .start .start
    ⟨rfl, rfl, fun _ _ _ h => (by cases h)⟩ (Or.inr trivial)
  refine ⟨ty, s, hrun, hrun', fun herror => ?_⟩
  -- the value is sound, which says of all names in it that their types are not erroneous
  have hsound := (hsettled.resolve_left not_false).sound herror
  exact (Module.namesOnly_value_iff hacyclic hconstant).mp hsound

theorem typeUnder_congr (hacyclic : p.source.Acyclic)
    (hsame : ∀ target, p.source.DependsOn id target → types target = types' target) :
    p.typeUnder types id = p.typeUnder types' id := by
  cases hconstant : p.source.constants[id]? with
  | none =>
    unfold Program.typeUnder
    rw [hconstant]
  | some constant =>
    obtain ⟨ty, t, hrun, hrun', -⟩ := exists_typingUnder hacyclic hconstant hsame
    rw [typeUnder_of_run hconstant hrun, typeUnder_of_run hconstant hrun']

/-- An error spreads to whatever names it. -/
theorem typeUnder_eq_error (hacyclic : p.source.Acyclic) (hdepends : p.source.DependsOn id target)
    (herror : types target = .error) : p.typeUnder types id = .error := by
  have hconstant := Array.getElem?_eq_getElem hdepends.lt_size
  obtain ⟨ty, t, hrun, -, hsound⟩ :=
    exists_typingUnder hacyclic hconstant fun target _ => (rfl : types target = types target)
  rw [typeUnder_of_run hconstant hrun]
  cases hty : ty.isError with
  | true => exact Ty.isError_iff.mp hty
  | false =>
    have hno := hsound hty target hdepends
    rw [herror] at hno
    cases hno

/-! ## Rounds -/

/-- The types of all constants after some rounds. -/
def Program.round (p : Program) : Nat → ConstId → Ty
  | 0, _ => .error
  | n + 1, id => p.typeUnder (p.round n) id

/-- **The type that a constant settles on**: the one after as many rounds as there are constants. -/
def Program.stableType (p : Program) (id : ConstId) : Ty := p.round p.source.constants.size id

theorem round_doomed (hacyclic : p.source.Acyclic) (n : Nat) (h : p.source.Doomed id) :
    p.round n id = .error := by
  induction n generalizing id with
  | zero => rfl
  | succ n ih =>
    obtain ⟨target, hdepends, htarget⟩ := h.exists_dependsOn
    exact typeUnder_eq_error hacyclic hdepends (ih htarget)

/-- The induction is on the number of constants that a constant needs. -/
theorem round_succ (hnames : p.source.NamesExist) (hacyclic : p.source.Acyclic)
    (hid : ¬ p.source.Doomed id) {n : Nat}
    (hn : reachCount p.source.DependsOn p.source.constants.size id < n) :
    p.round (n + 1) id = p.round n id := by
  induction n generalizing id with
  | zero => exact absurd hn (Nat.not_lt_zero _)
  | succ n ih =>
    -- what the constant depends on needs fewer constants, and has not changed in the round before
    refine typeUnder_congr hacyclic fun target hdepends => ?_
    have htarget : ¬ p.source.Doomed target := fun h => hid (h.of_dependsOn hdepends)
    have hlt := reachCount_lt (hnames.dependsOn hdepends) hdepends fun h => htarget
      (Module.OnCycle.doomed h)
    exact ih htarget (by omega)

theorem stableType_doomed (hacyclic : p.source.Acyclic) (h : p.source.Doomed id) :
    p.stableType id = .error :=
  round_doomed hacyclic _ h

/-- Further rounds change nothing. -/
theorem round_of_le (hnames : p.source.NamesExist) (hacyclic : p.source.Acyclic)
    (hid : id < p.source.constants.size) {n : Nat} (hn : p.source.constants.size ≤ n) :
    p.round n id = p.stableType id := by
  by_cases hdoomed : p.source.Doomed id
  · rw [round_doomed hacyclic _ hdoomed, stableType_doomed hacyclic hdoomed]
  · induction n, hn using Nat.le_induction with
    | base => rfl
    | succ n hn ih =>
      have hcount := reachCount_lt_bound hid fun h => hdoomed (Module.OnCycle.doomed h)
      rw [round_succ hnames hacyclic hdoomed (hcount.trans_le hn), ih]

/-- **The types that constants settle on are a fixed point.** -/
theorem typeUnder_stableType (hnames : p.source.NamesExist) (hacyclic : p.source.Acyclic)
    (hid : id < p.source.constants.size) : p.typeUnder p.stableType id = p.stableType id :=
  round_of_le hnames hacyclic hid (Nat.le_succ _)

end ConstNarrow
