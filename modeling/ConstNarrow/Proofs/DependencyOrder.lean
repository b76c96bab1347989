/-
**Resolution in the order of dependencies.**

A check goes through the groups of constants, each after those that it depends on. So when a value
is evaluated, all constants that it names are resolved. This is said by comparison with a stricter
run, `settledOnly`, which has no result as soon as a name is met whose constant is not resolved: it
comes to the same state as the check.

What the check has done after some of the groups is said by `Progress`, for any discipline that
suits the program. A group that is not cyclic is one constant, and the two runs type it in step; a
cyclic group is rejected with one report.
-/
import ConstNarrow.Proofs.Dependency
import ConstNarrow.Proofs.Resolution

set_option autoImplicit false

namespace ConstNarrow

open Checker

/-- An expression lies within the value of a constant. -/
def Module.Used (m : Module) (id : ExprId) : Prop :=
  ∃ constant ∈ m.constants, m.Within constant.value id

/-- What is given for a constant that is resolved; nothing is given for any other. -/
def Checker.settledOnly : Referrer := fun _ target => do
  match (← get).status.get? target with
  | some (.resolved ty) => pure ty
  | _ => exhausted

/-- Resolves a constant if all those that it names are resolved. -/
def Checker.resolveSettled (p : Program) (id : ConstId) : CheckM Ty :=
  resolveWith p (evaluateUsing p settledOnly (nestingBound p)) id

/-- What a discipline needs to know of a program. -/
structure Discipline.Suits {E : Journal → Prop} (D : Discipline E) (p : Program) : Prop where
  declared : ∀ constant ∈ p.source.constants, ∀ ty ∈ constant.declared,
    ty.everywhere D.declarable = true
  missing : ∀ id, p.source.Used id → p.source.expr id = .missing → D.silent
  unnamed : ∀ id fields value, p.source.Used id → p.source.expr id = .record fields →
    .reference value ∈ fields → p.source.fieldName? value = none → D.silent
  wildcard : ∀ id, p.source.Used id → p.source.expr id = .reference none Module.wildcardName →
    D.given .anydata
  imported : ∀ id moduleName name exports ty, p.source.Used id →
    p.source.expr id = .reference (some moduleName) name →
    p.imports.lookup moduleName = some exports → exports.lookup name = some (.constant ty) →
    D.given ty

variable {E : Journal → Prop} {D : Discipline E} {p : Program}

/-! ## Typing one constant in step -/

/-- The types that are kept of used expressions fit, unless there is an excuse. -/
def Discipline.Clean (D : Discipline E) (p : Program) (s : Checker) : Prop :=
  ∀ id ty, p.source.Used id → s.exprTypes.get? id = some ty → E s.journal ∨ D.Fits True True ty

/-- A state on the way from another one, while one constant is typed: no constant has changed. -/
structure Discipline.Along (D : Discipline E) (p : Program) (s₀ s : Checker) : Prop where
  status : s.status = s₀.status
  values : s.values = s₀.values
  journal : s₀.journal.Grows s.journal
  unmuted : s.journal.muteDepth = 0
  clean : D.Clean p s

theorem Discipline.Along.aside {s₀ s s' : Checker} (h : D.Along p s₀ s) (ha : Aside s s') :
    D.Along p s₀ s' where
  status := ha.status.trans h.status
  values := ha.values.trans h.values
  journal := h.journal.trans ha.journal
  unmuted := ha.journal.muteDepth.trans h.unmuted
  clean := fun id ty hid hty =>
    (h.clean id ty hid (ha.exprTypes ▸ hty)).imp_left (D.lasts _ _ ha.journal.toExtends)

theorem Discipline.Along.withType {s₀ s : Checker} (h : D.Along p s₀ s) {id : ExprId} {ty : Ty}
    (hty : E s.journal ∨ D.Fits True True ty) : D.Along p s₀ (s.withType id ty) where
  status := h.status
  values := h.values
  journal := h.journal
  unmuted := h.unmuted
  clean := by
    intro other ty' hused hget
    have hget' : (if other = id then some ty else s.exprTypes.get? other) = some ty' :=
      (Table.get?_insert _ _ _ _).symm.trans hget
    split at hget'
    · cases hget'
      exact hty
    · exact h.clean other ty' hused hget'

/-- Two runs on one state, while one constant is typed. -/
def lockstep (hD : D.Suits p) {constant : Constant} (hconstant : constant ∈ p.source.constants)
    (s₀ : Checker) : Simulation p D where
  rel := fun s t => s = t ∧ D.Along p s₀ s
  scope := constant.scope
  inside := p.source.Within constant.value
  sound := fun _ => True
  seen := fun _ => True
  excused := fun s => E s.journal
  inside_part := p.within_value_part constant
  hereditary_sound := p.hereditary_true constant
  hereditary_seen := p.hereditary_true constant
  excused_of := fun _ hE => hE
  excused_aside := fun _ _ ha hE => D.lasts _ _ ha.journal.toExtends hE
  excused_type := fun _ _ _ hE => hE
  missing := fun id hid => hD.missing id ⟨constant, hconstant, hid⟩
  unnamed := fun id fields value hid => hD.unnamed id fields value ⟨constant, hconstant, hid⟩
  wildcard := fun id hid => hD.wildcard id ⟨constant, hconstant, hid⟩
  imported := fun id moduleName name exports ty hid =>
    hD.imported id moduleName name exports ty ⟨constant, hconstant, hid⟩
  same_type := fun _ _ _ h _ => h.1 ▸ rfl
  kept_type := fun _ _ id ty h hid hty => h.2.clean id ty ⟨constant, hconstant, hid⟩ hty
  unmuted := fun _ _ h => Or.inr h.2.unmuted
  rel_aside := fun _ _ _ _ h hs _ heq => ⟨heq h.1, h.2.aside hs⟩
  rel_type := fun _ _ _ _ h _ hty => ⟨h.1 ▸ rfl, h.2.withType hty⟩

theorem run_settledOnly {s : Checker} {target : ConstId} {ty : Ty} (id : ExprId)
    (h : s.status.get? target = some (.resolved ty)) :
    (settledOnly id target).run s = some (ty, s) := by
  unfold settledOnly
  rw [StateT.run_bind, StateT.run_get, pure_bind]
  simp only [h]
  rfl

/-- A constant is ready if all those that it depends on are resolved. -/
def Discipline.Ready (D : Discipline E) (p : Program) (s : Checker) (id : ConstId) : Prop :=
  ∀ target, p.source.DependsOn id target → ∃ ty, s.status.get? target = some (.resolved ty)
    ∧ (E s.journal ∨ D.Fits True True ty)

/-- **A constant that is ready is typed by both runs alike.** -/
theorem exists_typing (hacyclic : p.source.Acyclic) (hD : D.Suits p) {s : Checker} {id : ConstId}
    {constant : Constant} (hconstant : p.source.constants[id]? = some constant)
    (hready : D.Ready p s id) (hunmuted : s.journal.muteDepth = 0) (hclean : D.Clean p s) :
    ∃ ty t, (typing p (evaluate p) constant).run s = some (ty, t)
      ∧ (typing p (evaluateUsing p settledOnly (nestingBound p)) constant).run s = some (ty, t)
      ∧ D.Along p s t ∧ (E t.journal ∨ D.Settled constant.declared True True ty) := by
  have hmem := Array.mem_of_getElem? hconstant
  let M := lockstep hD hmem s
  have hrefer : ∀ (eval : Evaluator) (e : ExprId), M.inside e →
      M.Refers (referConstant p eval) settledOnly e := by
    -- whatever is named has been resolved, so neither run goes further
    rintro eval e he target href P t _ ⟨rfl, halong⟩ -
    have hdepends := (Module.dependsOn_iff hacyclic hconstant).mpr ⟨e, he, href⟩
    obtain ⟨ty, hstatus, hfits⟩ := hready target hdepends
    rw [← halong.status] at hstatus
    exact ⟨ty, t, t, run_referConstant eval e hstatus, run_settledOnly e hstatus, ⟨rfl, halong⟩,
      fun hE => hE, hfits.imp_left (D.lasts _ _ halong.journal.toExtends)⟩
  have hheight : 0 + p.source.height constant.value < nestingBound p := by
    rw [Nat.zero_add]
    exact (hacyclic.founded _).height_lt_bound
  have hevaluates : M.Evaluates (evaluateWithin p (nestingBound p))
      (evaluateUsing p settledOnly (nestingBound p)) constant.value :=
    M.evaluates (fun n => referConstant p (evaluateWithin p n)) (fun _ => settledOnly) hacyclic
      (fun _ => rfl) (fun _ => rfl)
      (fun n _ e _ _ he => hrefer (evaluateWithin p n) e he) .refl hheight hheight
  obtain ⟨ty, t, t', hrun, hrun', ⟨rfl, halong⟩, -, hsettled⟩ :=
    M.triple_typing (P := True) hacyclic rfl .refl (hD.declared constant hmem) hevaluates s s
      ⟨rfl, rfl, rfl, .refl _, hunmuted, hclean⟩ (Or.inr trivial)
  exact ⟨ty, t, hrun, hrun', halong, hsettled⟩

/-! ## What has been done after some groups -/

/-- The report about a cyclic group. -/
def Program.cycleReport? (p : Program) (group : ConstGroup) : Option Diagnostic :=
  if group.isCyclic then
    (group.members.filterMap fun id => p.source.constants[id]?).head?.map fun first =>
      .error first.value (.constantCycle (group.members.map p.source.constName))
  else none

/-- **What a check has done after some groups.** The constants of these groups are resolved, those
of cyclic groups as erroneous, and no others have been touched. The only reports about the way from
one constant to another are those about cyclic groups. -/
structure Progress (D : Discipline E) (p : Program) (done : List ConstGroup) (s : Checker) :
    Prop where
  unmuted : s.journal.muteDepth = 0
  clean : D.Clean p s
  resolved : ∀ group ∈ done, ∀ id ∈ group.members, ∃ ty, s.status.get? id = some (.resolved ty)
    ∧ (group.isCyclic = true → ty = .error)
  untouched : ∀ id, (∀ group ∈ done, id ∉ group.members) →
    s.status.get? id = none ∧ s.values.get? id = none
  settled : ∀ id constant ty, p.source.constants[id]? = some constant →
    s.status.get? id = some (.resolved ty) →
    s.values.get? id = Value.ofTy? ty ∧ (E s.journal ∨ D.Settled constant.declared True True ty)
  reports : s.journal.diagnostics.toList.filter (fun d => !d.problem.isLocal)
    = done.filterMap p.cycleReport?

theorem filter_not_isLocal {j k : Journal} (h : j.Grows k) :
    k.diagnostics.toList.filter (fun d => !d.problem.isLocal)
      = j.diagnostics.toList.filter (fun d => !d.problem.isLocal) := by
  obtain ⟨new, hnew, hlocal⟩ := h.diagnostics
  have hnone : new.filter (fun d => !d.problem.isLocal) = [] :=
    List.filter_eq_nil_iff.mpr fun d hd => by simp [hlocal d hd]
  rw [hnew, List.filter_append, hnone, List.append_nil]

/-- A final type fits where its constant is named. -/
theorem Discipline.Settled.fits {declared : Option Ty} {sound seen : Prop} {ty : Ty}
    (h : D.Settled declared sound seen ty) : D.Fits True True ty :=
  ⟨h.silent, fun he => D.given_of_meets _ _ (h.meets he), fun _ => trivial, trivial⟩

/-- A group that is not cyclic is one constant, which depends on those before it only. -/
theorem exists_done_of_dependsOn (hnames : p.source.NamesExist) {done rest : List ConstGroup}
    {group : ConstGroup} (hgroups : p.source.groups = done ++ group :: rest)
    (hcyclic : group.isCyclic = false) {id target : ConstId} (hid : id ∈ group.members)
    (hdepends : p.source.DependsOn id target) : ∃ other ∈ done, target ∈ other.members := by
  have hgroup : group ∈ p.source.groups := by rw [hgroups]; simp
  refine (Module.mem_of_dependsOn hnames hgroups hid hdepends).resolve_left fun htarget => ?_
  -- a dependency within the group would make it cyclic
  have hback := ((Module.mem_group_iff hnames hgroup htarget).mp hid).2.1
  have hcycle : p.source.OnCycle id := Relation.TransGen.head' hdepends hback
  rw [← Module.isCyclic_iff hnames hgroup hid, hcyclic] at hcycle
  cases hcycle

/-- So when its turn comes, what it depends on is resolved. -/
theorem ready_of_progress (hnames : p.source.NamesExist) {done rest : List ConstGroup}
    {group : ConstGroup} (hgroups : p.source.groups = done ++ group :: rest) {s : Checker}
    (h : Progress D p done s) (hcyclic : group.isCyclic = false) {id : ConstId}
    (hid : id ∈ group.members) : D.Ready p s id := by
  intro target hdepends
  obtain ⟨other, hbefore, htarget⟩ := exists_done_of_dependsOn hnames hgroups hcyclic hid hdepends
  obtain ⟨ty, hstatus, -⟩ := h.resolved other hbefore target htarget
  have hlt := hnames.dependsOn hdepends
  have hsettled := (h.settled target _ ty (Array.getElem?_eq_getElem hlt) hstatus).2
  exact ⟨ty, hstatus, hsettled.imp_right fun hs => hs.fits⟩

theorem not_mem_of_mem_done (hnames : p.source.NamesExist) {done rest : List ConstGroup}
    {group : ConstGroup} (hgroups : p.source.groups = done ++ group :: rest) {id : ConstId}
    (hid : id ∈ group.members) : ∀ other ∈ done, id ∉ other.members := by
  intro other hother hmem
  have hpair := Module.pairwise_groups hnames
  rw [hgroups, List.pairwise_append] at hpair
  exact hpair.2.2 other hother group List.mem_cons_self id hmem id hid .refl

/-- **One more group is done.** Its constants get final types that suit the discipline, and nothing
else changes, apart from what is said. -/
theorem Progress.extend (hnames : p.source.NamesExist) {done rest : List ConstGroup}
    {group : ConstGroup} (hgroups : p.source.groups = done ++ group :: rest) {s s' : Checker}
    (h : Progress D p done s) (final : ConstId → Ty)
    (hstatus : ∀ id, s'.status.get? id
      = if id ∈ group.members then some (.resolved (final id)) else s.status.get? id)
    (hvalues : ∀ id, s'.values.get? id
      = if id ∈ group.members then Value.ofTy? (final id) else s.values.get? id)
    (hcyclic : group.isCyclic = true → ∀ id ∈ group.members, final id = .error)
    (hsettled : ∀ id ∈ group.members, ∀ constant, p.source.constants[id]? = some constant →
      E s'.journal ∨ D.Settled constant.declared True True (final id))
    (hunmuted : s'.journal.muteDepth = 0) (hclean : D.Clean p s')
    (hlast : E s.journal → E s'.journal)
    (hreports : s'.journal.diagnostics.toList.filter (fun d => !d.problem.isLocal)
      = s.journal.diagnostics.toList.filter (fun d => !d.problem.isLocal)
        ++ (p.cycleReport? group).toList) : Progress D p (done ++ [group]) s' := by
  refine ⟨hunmuted, hclean, fun other hother id hid => ?_, fun id hid => ?_,
    fun id constant ty hconstant hty => ?_, ?_⟩
  · rw [hstatus]
    split
    · rename_i hmem
      refine ⟨final id, rfl, fun hc => ?_⟩
      -- no group that was done before holds a constant of this one
      rcases List.mem_append.mp hother with hother | hother
      · exact absurd hid (not_mem_of_mem_done hnames hgroups hmem other hother)
      · exact hcyclic (List.mem_singleton.mp hother ▸ hc) id hmem
    · rename_i hmem
      rcases List.mem_append.mp hother with hother | hother
      · exact h.resolved other hother id hid
      · exact absurd (List.mem_singleton.mp hother ▸ hid) hmem
  · have hmem : id ∉ group.members := hid group (by simp)
    rw [hstatus, hvalues, if_neg hmem, if_neg hmem]
    exact h.untouched id fun other hother => hid other (List.mem_append_left _ hother)
  · rw [hstatus] at hty
    rw [hvalues]
    split at hty
    · rename_i hmem
      cases hty
      exact ⟨if_pos hmem, hsettled id hmem constant hconstant⟩
    · rename_i hmem
      rw [if_neg hmem]
      obtain ⟨hvalue, hold⟩ := h.settled id constant ty hconstant hty
      exact ⟨hvalue, hold.imp_left hlast⟩
  · rw [hreports, h.reports, List.filterMap_append]
    cases hreport : p.cycleReport? group with
    | none => simp [hreport]
    | some report => simp [hreport]

/-- Entering a constant leaves it ready. -/
theorem ready_enter {s : Checker} {id : ConstId} (name : String) (hnone : s.status.get? id = none)
    (hready : D.Ready p s id) : D.Ready p (s.enter id name) id := by
  intro target hdepends
  obtain ⟨ty, hstatus, hfits⟩ := hready target hdepends
  refine ⟨ty, ?_, hfits.imp_left (D.lasts _ _ (Journal.grows_note _ _).toExtends)⟩
  have hne : target ≠ id := by
    rintro rfl
    rw [hnone] at hstatus
    cases hstatus
  rw [status_enter, if_neg hne, hstatus]

/-- The constant of a group that is not cyclic is resolved, and nothing else changes. -/
theorem Progress.single (hnames : p.source.NamesExist) (hacyclic : p.source.Acyclic)
    (hD : D.Suits p) {done rest : List ConstGroup} {group : ConstGroup}
    (hgroups : p.source.groups = done ++ group :: rest) {s : Checker} (h : Progress D p done s)
    (hcyclic : group.isCyclic = false) :
    ∃ s', (resolveGroup p (resolve p) group).run s = some ((), s')
      ∧ (resolveGroup p (resolveSettled p) group).run s = some ((), s')
      ∧ Progress D p (done ++ [group]) s' := by
  have hgroup : group ∈ p.source.groups := by rw [hgroups]; simp
  obtain ⟨id, hmembers⟩ := Module.members_eq_singleton hnames hgroup hcyclic
  have hid : id ∈ group.members := by rw [hmembers]; simp
  obtain ⟨constant, hconstant⟩ : ∃ constant, p.source.constants[id]? = some constant :=
    ⟨_, Array.getElem?_eq_getElem (Module.lt_size_of_mem_group hnames hgroup hid)⟩
  obtain ⟨hnone, hnovalue⟩ := h.untouched id (not_mem_of_mem_done hnames hgroups hid)
  have hready := ready_enter constant.name hnone (ready_of_progress hnames hgroups h hcyclic hid)
  have hclean : D.Clean p (s.enter id constant.name) := fun e ty he hty =>
    (h.clean e ty he hty).imp_left (D.lasts _ _ (Journal.grows_note _ _).toExtends)
  -- both ways to resolve make the same run, so the state at the end is one
  obtain ⟨ty, t, hrun, hrun', halong, hsettled⟩ :=
    exists_typing hacyclic hD hconstant hready h.unmuted hclean
  have hgrows : s.journal.Grows (t.leave id constant.name ty).journal :=
    ((Journal.grows_note _ _).trans halong.journal).trans (Journal.grows_concluded _ _ _)
  have hlast : E t.journal → E (t.leave id constant.name ty).journal :=
    D.lasts _ _ (Journal.grows_concluded _ _ _).toExtends
  refine ⟨t.leave id constant.name ty,
    run_resolveGroup_single hcyclic hmembers (run_resolveWith hnone hconstant hrun),
    run_resolveGroup_single hcyclic hmembers (run_resolveWith hnone hconstant hrun'), ?_⟩
  refine h.extend hnames hgroups (fun _ => ty) (fun other => ?_) (fun other => ?_) ?_ ?_
    (hgrows.muteDepth.trans h.unmuted) ?_ (D.lasts _ _ hgrows.toExtends) ?_
  · simp only [hmembers, List.mem_singleton]
    exact status_leave_enter constant.name halong.status other
  · simp only [hmembers, List.mem_singleton]
    rw [values_leave, halong.values]
    show (if other = id then (Value.ofTy? ty).or (s.values.get? id) else s.values.get? other) = _
    rw [hnovalue, Option.or_none]
  · intro hc
    rw [hcyclic] at hc
    cases hc
  · intro other hother constant' hconstant'
    rw [hmembers, List.mem_singleton] at hother
    rw [hother, hconstant] at hconstant'
    cases hconstant'
    exact hsettled.imp_left hlast
  · exact fun e ty he hty => (halong.clean e ty he hty).imp_left hlast
  · rw [filter_not_isLocal hgrows, Program.cycleReport?, hcyclic, if_neg (by simp),
      Option.toList_none, List.append_nil]

/-! ## Cyclic groups -/

/-- The constants of a cyclic group are rejected with one report. -/
theorem Progress.cyclic (hnames : p.source.NamesExist) {done rest : List ConstGroup}
    {group : ConstGroup} (hgroups : p.source.groups = done ++ group :: rest) {s : Checker}
    (h : Progress D p done s) (hcyclic : group.isCyclic = true) :
    ∃ s', (refuseCycle p group.members).run s = some ((), s')
      ∧ Progress D p (done ++ [group]) s' := by
  have hgroup : group ∈ p.source.groups := by rw [hgroups]; simp
  have hlt := fun id => Module.lt_size_of_mem_group hnames hgroup (a := id)
  have hnew := fun id (hid : id ∈ group.members) =>
    h.untouched id (not_mem_of_mem_done hnames hgroups hid)
  obtain ⟨first, others, hfirst⟩ := Module.exists_first_member hnames hgroup
  have hrun := run_refuseCycle hlt hfirst fun id hid => (hnew id hid).1
  generalize hnamesList : group.members.map p.source.constName = names at hrun
  have hmuted : (s.journal.note (.rejectingCycle names)).isMuted = false := by
    simp [Journal.isMuted, h.unmuted]
  have hdiagnostics : (s.reject group.members names first.value).journal.diagnostics
      = s.journal.diagnostics.push (.error first.value (.constantCycle names)) := by
    show (Journal.report _ _).diagnostics = _
    rw [Journal.diagnostics_report, hmuted]
    rfl
  have hlast : E s.journal → E (s.reject group.members names first.value).journal := fun hE =>
    D.lasts _ _ (Journal.extends_report _ _) (D.lasts _ _ (Journal.grows_note _ _).toExtends hE)
  have hsilent : E (s.reject group.members names first.value).journal ∨ D.silent := by
    rcases D.reported with hsilent | hreported
    · exact Or.inr hsilent
    · refine Or.inl (hreported _ ?_)
      rw [hdiagnostics]
      simp
  refine ⟨_, hrun, h.extend hnames hgroups (fun _ => .error)
    (fun id => get?_foldl_insert group.members _ s.status id) (fun id => ?_) (fun _ _ _ => rfl) ?_
    ((Journal.muteDepth_report _ _).trans h.unmuted) ?_ hlast ?_⟩
  · split
    · rename_i hid
      exact (hnew id hid).2
    · rfl
  · exact fun _ _ _ _ => hsilent.imp_right fun hs => D.settled_error hs trivial
  · exact fun e ty he hty => (h.clean e ty he hty).imp_left hlast
  · rw [hdiagnostics, Array.toList_push, List.filter_append, Program.cycleReport?, if_pos hcyclic,
      hfirst, hnamesList]
    rfl

/-! ## All groups -/

/-- One group after another: both runs go on, and the groups that are done grow. -/
theorem Progress.forM (hnames : p.source.NamesExist) (hacyclic : p.source.Acyclic) (hD : D.Suits p)
    {rest : List ConstGroup} : ∀ {done : List ConstGroup} {s : Checker},
    p.source.groups = done ++ rest → Progress D p done s →
    ∃ s', (rest.forM (resolveGroup p (resolve p))).run s = some ((), s')
      ∧ (rest.forM (resolveGroup p (resolveSettled p))).run s = some ((), s')
      ∧ Progress D p (done ++ rest) s' := by
  induction rest with
  | nil =>
    intro done s _ h
    exact ⟨s, rfl, rfl, by rwa [List.append_nil]⟩
  | cons group rest ih =>
    intro done s hgroups h
    obtain ⟨s₁, hrun, hrun', h₁⟩ : ∃ s₁, (resolveGroup p (resolve p) group).run s = some ((), s₁)
        ∧ (resolveGroup p (resolveSettled p) group).run s = some ((), s₁)
        ∧ Progress D p (done ++ [group]) s₁ := by
      cases hcyclic : group.isCyclic with
      | false => exact h.single hnames hacyclic hD hgroups hcyclic
      | true =>
        obtain ⟨s₁, hrun, h₁⟩ := h.cyclic hnames hgroups hcyclic
        refine ⟨s₁, ?_, ?_, h₁⟩
        · rw [resolveGroup, if_pos hcyclic, hrun]
        · rw [resolveGroup, if_pos hcyclic, hrun]
    rw [← List.singleton_append, ← List.append_assoc] at hgroups
    obtain ⟨s₂, hrun₂, hrun₂', h₂⟩ := ih hgroups h₁
    refine ⟨s₂, (run_bind_some hrun).trans hrun₂, (run_bind_some hrun').trans hrun₂', ?_⟩
    rwa [List.append_assoc, List.singleton_append] at h₂

/-- **The check and the strict run come to the same state**, and all groups are done. -/
theorem exists_run (hnames : p.source.NamesExist) (hacyclic : p.source.Acyclic) (hD : D.Suits p) :
    ∃ s, p.run = some s ∧ (resolveGroups p (resolveSettled p)).run .start = some ((), s)
      ∧ Progress D p p.source.groups s := by
  have h₀ : Progress D p [] (.begin p) :=
    ⟨rfl, fun _ _ _ h => (by cases h), fun _ h => (by cases h), fun _ _ => ⟨rfl, rfl⟩,
      fun _ _ _ _ h => (by cases h), rfl⟩
  obtain ⟨s, hrun, hrun', h⟩ := Progress.forM hnames hacyclic hD (List.nil_append _).symm h₀
  exact ⟨s, Program.run_eq hrun, (run_bind_some (t := .begin p) rfl).trans hrun', h⟩

theorem suits_free (p : Program) : Discipline.free.Suits p :=
  ⟨fun _ _ ty _ => Discipline.everywhere_true ty, fun _ _ _ => trivial,
    fun _ _ _ _ _ _ _ => trivial, fun _ _ _ => trivial, fun _ _ _ _ _ _ _ _ _ => trivial⟩

/-- The names that a report about a cycle gives. -/
def Problem.cycle? : Problem → Option (List String)
  | .constantCycle names => some names
  | _ => none

theorem cycleReport?_eq (hnames : p.source.NamesExist) {group : ConstGroup}
    (hgroup : group ∈ p.source.groups) :
    ((p.cycleReport? group).bind fun d => d.problem.cycle?)
      = if group.isCyclic then some (group.members.map p.source.constName) else none := by
  unfold Program.cycleReport?
  split
  · obtain ⟨id, hid⟩ := List.exists_mem_of_ne_nil _ (Module.members_ne_nil hnames hgroup)
    have hget := Array.getElem?_eq_getElem (Module.lt_size_of_mem_group hnames hgroup hid)
    obtain ⟨first, others, hfirst⟩ := List.exists_cons_of_ne_nil
      (List.ne_nil_of_mem (List.mem_filterMap.mpr ⟨id, hid, hget⟩))
    rw [hfirst]
    rfl
  · rfl

/-- The reports about cycles are those about the cyclic groups, in their order. -/
theorem Progress.cycles (hnames : p.source.NamesExist) {s : Checker}
    (h : Progress D p p.source.groups s) :
    (s.finish.diagnostics.filterMap fun d => d.problem.cycle?)
      = (p.source.groups.filter (·.isCyclic)).map
        fun group => group.members.map p.source.constName := by
  have hlocal : ∀ ds : List Diagnostic, (ds.filterMap fun d => d.problem.cycle?)
      = (ds.filter fun d => !d.problem.isLocal).filterMap fun d => d.problem.cycle? := by
    intro ds
    rw [List.filterMap_filter]
    refine List.filterMap_congr fun d _ => ?_
    cases hproblem : d.problem <;> rfl
  rw [hlocal, Checker.finish, h.reports, List.filterMap_filterMap, ← List.filterMap_eq_map,
    List.filterMap_filter]
  exact List.filterMap_congr fun group hgroup => cycleReport?_eq hnames hgroup

theorem Progress.not_local {s : Checker} {done : List ConstGroup} (h : Progress D p done s)
    {d : Diagnostic} (hd : d ∈ s.finish.diagnostics) (hlocal : d.problem.isLocal = false) :
    ∃ names, d.problem = .constantCycle names := by
  have hmem : d ∈ s.journal.diagnostics.toList.filter fun d => !d.problem.isLocal :=
    List.mem_filter.mpr ⟨hd, by simp [hlocal]⟩
  rw [h.reports] at hmem
  obtain ⟨group, -, hreport⟩ := List.mem_filterMap.mp hmem
  unfold Program.cycleReport? at hreport
  split at hreport
  · obtain ⟨first, -, rfl⟩ := Option.map_eq_some_iff.mp hreport
    exact ⟨_, rfl⟩
  · cases hreport

/-- **The order of dependencies covers every name.** A check has a result, and so has the run that
gives types for resolved constants only: both come to one state. So no constant is met while it is
being resolved, or too deep; every constant has a final type; there is one report about a cycle for
each cyclic group, with all its members in the order of declaration; and these are erroneous. The
members of cyclic groups are the constants that depend on themselves. -/
theorem check_meets_resolved_only (p : Program) (hnames : p.source.NamesExist)
    (hacyclic : p.source.Acyclic) :
    ∃ s, p.run = some s ∧ p.check = some s.finish
      ∧ (resolveGroups p (resolveSettled p)).run .start = some ((), s)
      ∧ (∀ d ∈ s.finish.diagnostics, (∀ name, d.problem ≠ .selfReference name)
        ∧ ∀ name limit, d.problem ≠ .resolutionTooDeep name limit)
      ∧ (∀ id < p.source.constants.size, ∃ ty, s.finish.constTypes.get? id = some ty)
      ∧ (s.finish.diagnostics.filterMap fun d => d.problem.cycle?)
        = (p.source.groups.filter (·.isCyclic)).map
          (fun group => group.members.map p.source.constName)
      ∧ (∀ group ∈ p.source.groups, group.members.Pairwise (· < ·) ∧ (group.isCyclic = true →
        ∀ id ∈ group.members, s.finish.constTypes.get? id = some .error))
      ∧ ∀ id, (∃ group ∈ p.source.groups, group.isCyclic = true ∧ id ∈ group.members)
        ↔ p.source.OnCycle id := by
  obtain ⟨s, hrun, hstrict, h⟩ := exists_run hnames hacyclic (suits_free p)
  have hcheck : p.check = some s.finish := by
    rw [Program.check, hrun]
    rfl
  refine ⟨s, hrun, hcheck, hstrict, fun d hd => ⟨?_, ?_⟩, fun id hid => ?_, h.cycles hnames,
    fun group hgroup => ⟨Module.pairwise_members hnames hgroup, ?_⟩, fun id => ?_⟩
  · intro name hproblem
    obtain ⟨names, hcycle⟩ := h.not_local hd (by rw [hproblem]; rfl)
    rw [hproblem] at hcycle
    cases hcycle
  · intro name limit hproblem
    obtain ⟨names, hcycle⟩ := h.not_local hd (by rw [hproblem]; rfl)
    rw [hproblem] at hcycle
    cases hcycle
  · obtain ⟨group, hgroup, hmem⟩ := Module.exists_group hnames hid
    obtain ⟨ty, hstatus, -⟩ := h.resolved group hgroup id hmem
    exact ⟨ty, constTypes_get? s hstatus⟩
  · intro hcyclic id hid
    obtain ⟨ty, hstatus, herror⟩ := h.resolved group hgroup id hid
    exact herror hcyclic ▸ constTypes_get? s hstatus
  · constructor
    · rintro ⟨group, hgroup, hcyclic, hid⟩
      exact (Module.isCyclic_iff hnames hgroup hid).mp hcyclic
    · intro hcycle
      obtain ⟨b, hdepends, -⟩ := Relation.TransGen.head'_iff.mp hcycle
      obtain ⟨group, hgroup, hid⟩ := Module.exists_group hnames hdepends.lt_size
      exact ⟨group, hgroup, (Module.isCyclic_iff hnames hgroup hid).mpr hcycle, hid⟩

/-- A chain of names, each before what it stands for, and a cycle, with no room for resolution to
nest: `a = b`, `b = c`, `c = 5`, `d = e`, `e = d`. -/
def chained : Program where
  source := Module.empty
    |>.addExpr (.reference none "b")
    |>.addConstant ⟨"a", Module.root, 0, none⟩
    |>.addExpr (.reference none "c")
    |>.addConstant ⟨"b", Module.root, 1, none⟩
    |>.addExpr (.literal (.int "5"))
    |>.addConstant ⟨"c", Module.root, 2, none⟩
    |>.addExpr (.reference none "e")
    |>.addConstant ⟨"d", Module.root, 3, none⟩
    |>.addExpr (.reference none "d")
    |>.addConstant ⟨"e", Module.root, 4, none⟩
  imports := []
  settings := ⟨true, .error, 0⟩

theorem chained_meets_resolved_only : ∃ s, chained.check = some s.finish
    ∧ (resolveGroups chained (resolveSettled chained)).run .start = some ((), s)
    ∧ (∀ d ∈ s.finish.diagnostics, (∀ name, d.problem ≠ .selfReference name)
      ∧ ∀ name limit, d.problem ≠ .resolutionTooDeep name limit)
    ∧ (s.finish.diagnostics.filterMap fun d => d.problem.cycle?) = [["d", "e"]] := by
  have hnames : chained.source.NamesExist := Module.Built.namesExist (Module.Built.empty
    |>.expr _ |>.constant _ |>.expr _ |>.constant _ |>.expr _ |>.constant _ |>.expr _ |>.constant _
    |>.expr _ |>.constant _)
  obtain ⟨s, -, hcheck, hstrict, hreports, -, hcycles, -⟩ :=
    check_meets_resolved_only chained hnames (Module.acyclic_of_lt (by decide))
  refine ⟨s, hcheck, hstrict, hreports, hcycles.trans ?_⟩
  decide

end ConstNarrow
