/-
**The order of the fields of a record.**

What the part of a field comes to depends on the types within it and on the constants that it names.
If these are resolved, nothing outside of the part is touched. So two parts with nothing in common can
be evaluated in either order. Exchanging neighbours leads to any order of the fields that are not
computed, and the record is made from the same contributions. For the computed fields, of which the
last counts, the order matters.
-/
import Mathlib.Data.List.Find
import ConstNarrow.Proofs.Merging
import ConstNarrow.Proofs.Walk

set_option autoImplicit false

namespace ConstNarrow

open Checker

/-! ## States that differ within a part -/

namespace Checker

variable {inside inside' : ExprId → Prop} {base s s' t t' u : Checker}

theorem Besides.trans (h : s.Besides t) (h' : t.Besides u) : s.Besides u :=
  ⟨fun c => (h'.status c).trans (h.status c), fun e => (h'.types e).trans (h.types e),
    h'.depth.trans h.depth⟩

/-- Two states have the same constants. -/
def SameConstants (s t : Checker) : Prop := ∀ c, t.status.get? c = s.status.get? c

theorem SameConstants.trans (h : s.SameConstants t) (h' : t.SameConstants u) : s.SameConstants u :=
  fun c => (h' c).trans (h c)

/-- A constant has its final type. -/
def IsResolved (s : Checker) (c : ConstId) : Prop := ∃ ty, s.status.get? c = some (.resolved ty)

/-- Two states differ, besides what was said, at most in the types of some expressions. -/
structure SameOutside (inside : ExprId → Prop) (s t : Checker) : Prop where
  status : SameConstants s t
  types : ∀ e, ¬ inside e → t.exprTypes.get? e = s.exprTypes.get? e
  depth : t.depth = s.depth

/-- Two states have the same types for some expressions. -/
def SameWithin (inside : ExprId → Prop) (s t : Checker) : Prop :=
  ∀ e, inside e → t.exprTypes.get? e = s.exprTypes.get? e

theorem SameOutside.refl (inside : ExprId → Prop) (s : Checker) : SameOutside inside s s :=
  ⟨fun _ => rfl, fun _ _ => rfl, rfl⟩

theorem SameOutside.aside (h : SameOutside inside s t) (ht : Aside t t') :
    SameOutside inside s t' := by
  refine ⟨fun c => ?_, fun e he => ?_, ?_⟩
  · rw [ht.status, h.status]
  · rw [ht.exprTypes, h.types e he]
  · rw [ht.depth, h.depth]

theorem SameOutside.withType (h : SameOutside inside s t) {id : ExprId} (hid : inside id) (ty : Ty) :
    SameOutside inside s (t.withType id ty) := by
  refine ⟨h.status, fun e he => ?_, h.depth⟩
  have hne : e ≠ id := fun heq => he (heq ▸ hid)
  rw [Checker.withType, Table.get?_insert, if_neg hne, h.types e he]

/-- What lies outside of all that is touched stays the same. -/
theorem SameOutside.sameWithin (h : SameOutside inside s t) (hapart : ∀ e, inside e → ¬ inside' e) :
    SameWithin inside' s t :=
  fun e he => h.types e fun he' => hapart e he' he

/-- Two runs that touch the same expressions, and leave them the same, stay alike. -/
theorem Besides.onward (h : s.Besides t) (hs : SameOutside inside s s')
    (ht : SameOutside inside t t') (hsame : SameWithin inside s' t') : s'.Besides t' := by
  refine ⟨fun c => ?_, fun e => ?_, ?_⟩
  · rw [ht.status, hs.status, h.status]
  · by_cases he : inside e
    · exact hsame e he
    · rw [ht.types e he, hs.types e he, h.types]
  · rw [ht.depth, hs.depth, h.depth]

/-! ## Computations that keep to a part -/

variable {α β : Type}

/-- **A computation that keeps to some expressions**, as long as the constants are those of a state:
it touches no others, and it comes to the same from states that agree on these. -/
def Confined (base : Checker) (inside : ExprId → Prop) (m : CheckM α) : Prop :=
  ∀ s t, base.SameConstants s → base.SameConstants t → SameWithin inside s t →
    ∃ a s' t', m.run s = some (a, s') ∧ m.run t = some (a, t')
      ∧ SameOutside inside s s' ∧ SameOutside inside t t' ∧ SameWithin inside s' t'

theorem Confined.pure (a : α) : Confined base inside (pure a : CheckM α) :=
  fun s t _ _ h => ⟨a, s, t, rfl, rfl, .refl _ s, .refl _ t, h⟩

theorem Confined.bind_pure {m : CheckM α} (h : Confined base inside m) (f : α → β) :
    Confined base inside (m >>= fun a => Pure.pure (f a)) := by
  intro s t hs ht hsame
  obtain ⟨a, s', t', hrun, hrun', hrest⟩ := h s t hs ht hsame
  exact ⟨f a, s', t', run_bind_some hrun, run_bind_some hrun', hrest⟩

/-- **Two computations that have nothing in common can change places.** -/
theorem Confined.exchange {m : CheckM α} {m' : CheckM β} (h : Confined base inside m)
    (h' : Confined base inside' m') (hapart : ∀ e, inside e → ¬ inside' e)
    (hbase : base.SameConstants s) (hbesides : s.Besides t) {a : α} {b : β}
    (hrun : m.run s = some (a, s')) (hrun' : m'.run s' = some (b, u)) :
    ∃ t' v, m'.run t = some (b, t') ∧ m.run t' = some (a, v) ∧ u.Besides v := by
  have hbase' : base.SameConstants t := hbase.trans hbesides.status
  -- the first of them from the start, to know what it leaves alone
  obtain ⟨a₁, s₁, -, hrun₁, -, hs₁, -⟩ := h s s hbase hbase fun _ _ => rfl
  cases hrun.symm.trans hrun₁
  have hbase₁ : base.SameConstants s' := hbase.trans hs₁.status
  obtain ⟨b₁, u₁, t', hrun₂, hrun₂', hu, ht', hsame'⟩ := h' s' t hbase₁ hbase' fun e he =>
    (hbesides.types e).trans (hs₁.sameWithin hapart e he).symm
  cases hrun'.symm.trans hrun₂
  have hbase₂ : base.SameConstants t' := hbase'.trans ht'.status
  obtain ⟨a₂, s₂, v, hrun₃, hrun₃', -, hv, hsame⟩ := h s t' hbase hbase₂ fun e he =>
    (ht'.types e (hapart e he)).trans (hbesides.types e)
  cases hrun.symm.trans hrun₃
  refine ⟨t', v, hrun₂', hrun₃', fun c => ?_, fun e => ?_, ?_⟩
  · rw [hv.status, ht'.status, hbesides.status, hu.status, hs₁.status]
  · by_cases he : inside e
    · rw [hsame e he, hu.types e (hapart e he)]
    · rw [hv.types e he]
      by_cases he' : inside' e
      · exact hsame' e he'
      · rw [ht'.types e he', hbesides.types, hu.types e he', hs₁.types e he]
  · rw [hv.depth, ht'.depth, hbesides.depth, hu.depth, hs₁.depth]

end Checker

/-! ## Evaluation keeps to a part -/

section Parts

variable {p : Program} {base s t : Checker} {frame : Frame} {e : ExprId}

/-- Two runs that evaluate an expression, each on the way from its own state. -/
def keepingTo (p : Program) (scope : ScopeId) (root : ExprId) (s₀ t₀ : Checker) :
    Simulation p Discipline.free where
  rel := fun s t => SameOutside (p.source.Within root) s₀ s ∧ SameOutside (p.source.Within root) t₀ t
    ∧ SameWithin (p.source.Within root) s t
  scope := scope
  inside := p.source.Within root
  sound := fun _ => True
  seen := fun _ => True
  excused := fun _ => False
  inside_part := fun _ _ h hpart => h.tail hpart
  hereditary_sound := p.hereditary_true_in scope
  hereditary_seen := p.hereditary_true_in scope
  excused_of := fun _ h => h
  excused_aside := fun _ _ _ h => h
  excused_type := fun _ _ _ h => h
  missing := fun _ _ _ => trivial
  unnamed := fun _ _ _ _ _ _ _ => trivial
  wildcard := fun _ _ _ => trivial
  imported := fun _ _ _ _ _ _ _ _ _ => trivial
  same_type := fun _ _ e h he => (h.2.2 e he).symm
  kept_type := fun _ _ _ _ _ _ _ =>
    Or.inr ⟨fun _ => trivial, fun _ => trivial, fun _ => trivial, trivial⟩
  unmuted := fun _ _ _ => Or.inl trivial
  rel_aside := fun _ _ _ _ h hs ht _ =>
    ⟨h.1.aside hs, h.2.1.aside ht, fun e he => by rw [hs.exprTypes, ht.exprTypes, h.2.2 e he]⟩
  rel_type := fun _ _ id ty h hid _ =>
    ⟨h.1.withType hid ty, h.2.1.withType hid ty, fun e he => by
      simp only [Checker.withType, Table.get?_insert, h.2.2 e he]⟩

/-- **Evaluation keeps to an expression** if all that it names is resolved. -/
theorem confined_evaluate (hacyclic : p.source.Acyclic)
    (hnames : p.source.NamesOnly frame.scope base.IsResolved e) :
    Confined base (p.source.Within e) (evaluate p e frame) := by
  intro s t hs ht hsame
  let M := keepingTo p frame.scope e s t
  have hroom : 0 + p.source.height e < nestingBound p := by
    have hlt := room_lt_nestingBound hacyclic s e
    omega
  have hevaluates : M.Evaluates (evaluate p) (evaluate p) e := by
    refine M.evaluates (fun k => referConstant p (evaluateWithin p k))
      (fun k => referConstant p (evaluateWithin p k)) hacyclic (fun _ => rfl) (fun _ => rfl) ?_ .refl
      hroom hroom
    rintro k k' id - - hid target href P s₁ t₁ hrel -
    obtain ⟨ty, hty⟩ := hnames id hid target href
    have hstatus : s₁.status.get? target = some (.resolved ty) := by
      rw [hrel.1.status, hs, hty]
    have hstatus' : t₁.status.get? target = some (.resolved ty) := by
      rw [hrel.2.1.status, ht, hty]
    exact ⟨ty, s₁, t₁, run_referConstant _ id hstatus, run_referConstant _ id hstatus', hrel,
      fun h => h, Or.inr ⟨fun _ => trivial, fun _ => trivial, fun _ => trivial, trivial⟩⟩
  obtain ⟨ty, s', t', hrun, hrun', hrel, -⟩ := hevaluates frame rfl (P := True) s t
    ⟨.refl _ s, .refl _ t, hsame⟩ (Or.inr trivial)
  exact ⟨ty, s', t', hrun, hrun', hrel⟩

/-- What lies within the part of a field that is not computed. -/
def RecordField.Covers (m : Module) (field : RecordField) (e : ExprId) : Prop :=
  ∃ slot, field.written? = some slot ∧ m.Within slot.part e

/-- What a field contributes is found within its part. -/
theorem confined_contributed (hacyclic : p.source.Acyclic) {field : RecordField}
    (hnames : ∀ slot, field.written? = some slot →
      p.source.NamesOnly frame.scope base.IsResolved slot.part) :
    Confined base (field.Covers p.source) (contributed p (evaluate p) frame field) := by
  unfold contributed
  cases hslot : field.written? with
  | none => exact .pure _
  | some slot =>
    have hcovers : field.Covers p.source = p.source.Within slot.part := by
      funext e
      simp [RecordField.Covers, hslot]
    have hpart : Confined base (p.source.Within slot.part)
        (evaluate p slot.part (frame.expecting (slot.expects frame.expected))) :=
      confined_evaluate hacyclic (hnames slot hslot)
    rw [hcovers]
    exact hpart.bind_pure _

end Parts

/-! ## Going through the fields in another order -/

section Collecting

variable {α : Type} {find : RecordField → CheckM (Option (List α))} {field : RecordField}
variable {fields fields' : List RecordField} {base s s' t t' u : Checker} {all own rest : List α}

/-- That a computation comes to the same in states that differ in what was said. -/
def Insensitive {β : Type} (m : CheckM β) : Prop :=
  ∀ s t, s.Besides t → ∃ b s' t', m.run s = some (b, s') ∧ m.run t = some (b, t') ∧ s'.Besides t'

theorem Insensitive.pure {β : Type} (b : β) : Insensitive (pure b : CheckM β) :=
  fun s t h => ⟨b, s, t, rfl, rfl, h⟩

theorem Insensitive.bind {β γ : Type} {m : CheckM β} {f : β → CheckM γ} (hm : Insensitive m)
    (hf : ∀ b, Insensitive (f b)) : Insensitive (m >>= f) := by
  intro s t h
  obtain ⟨b, s', t', hrun, hrun', h'⟩ := hm s t h
  obtain ⟨c, s'', t'', hrun₂, hrun₂', h''⟩ := hf b s' t' h'
  exact ⟨c, s'', t'', (run_bind_some hrun).trans hrun₂, (run_bind_some hrun').trans hrun₂', h''⟩

theorem insensitive_evaluate {p : Program} (hacyclic : p.source.Acyclic) (e : ExprId) (frame : Frame) :
    Insensitive (evaluate p e frame) :=
  fun _ _ h => exists_evaluate_besides hacyclic h (Nat.le_succ _) (Nat.le_succ _) e frame

theorem insensitive_collect (hfind : ∀ field, Insensitive (find field)) (fields : List RecordField) :
    Insensitive (collect find fields) := by
  induction fields with
  | nil => exact .pure _
  | cons field fields ih => exact (hfind field).bind fun _ => ih.bind fun _ => .pure _

theorem run_collect (hown : (find field).run s = some (some own, s'))
    (hrest : (collect find fields).run s' = some (some rest, u)) :
    (collect find (field :: fields)).run s = some (some (own ++ rest), u) := by
  rw [collect, run_bind_some hown, run_bind_some hrest]
  rfl

/-- Fields of which nothing is found can be left out. -/
theorem collect_filter {q : RecordField → Bool}
    (h : ∀ field, q field = false → find field = pure (some [])) (fields : List RecordField) :
    collect find (fields.filter q) = collect find fields := by
  induction fields with
  | nil => rfl
  | cons field fields ih =>
    rw [List.filter_cons]
    split
    · rw [collect, collect, ih]
    · rename_i hq
      rw [ih, collect, h field (Bool.eq_false_iff.mpr hq), pure_bind]
      simp

/-- **The fields in another order give the same, in another order**, if what is found of each lies in
its own place. The induction is on the exchanges of neighbours; the states of the two runs differ in
what was said. -/
theorem exists_collect_perm {covers : RecordField → ExprId → Prop} (hperm : fields.Perm fields')
    (hinsensitive : ∀ field, Insensitive (find field))
    (hconfined : ∀ field ∈ fields, Confined base (covers field) (find field))
    (hapart : fields.Pairwise fun f g => ∀ e, covers f e → ¬ covers g e)
    (hbase : base.SameConstants s) (hbesides : s.Besides t)
    (hrun : (collect find fields).run s = some (some all, s')) :
    ∃ all' t', (collect find fields').run t = some (some all', t') ∧ all'.Perm all ∧ s'.Besides t' := by
  induction hperm generalizing s t s' all with
  | nil =>
    cases hrun
    exact ⟨[], t, rfl, .nil, hbesides⟩
  | cons field hperm ih =>
    obtain ⟨own, rest, u, hown, hrest, rfl⟩ := run_collect_cons hrun
    obtain ⟨hfirst, hothers⟩ := List.forall_mem_cons.mp hconfined
    have hbase' : base.SameConstants t := hbase.trans hbesides.status
    obtain ⟨own', u', v, hown', hown'', hu, hv, hsame⟩ :=
      hfirst s t hbase hbase' fun e _ => hbesides.types e
    cases hown.symm.trans hown'
    obtain ⟨rest', t', hrest', hperm', hbesides'⟩ := ih hothers hapart.of_cons
      (hbase.trans hu.status) (hbesides.onward hu hv hsame) hrest
    exact ⟨own ++ rest', t', run_collect hown'' hrest', hperm'.append_left own, hbesides'⟩
  | swap second first fields =>
    obtain ⟨own, rest, u, hown, hrest, rfl⟩ := run_collect_cons hrun
    obtain ⟨own', rest', v, hown', hrest', rfl⟩ := run_collect_cons hrest
    have hfirst := hconfined first List.mem_cons_self
    have hsecond := hconfined second (List.mem_cons_of_mem _ List.mem_cons_self)
    obtain ⟨u', v', hrun₁, hrun₂, hbesides'⟩ := hfirst.exchange hsecond
      (List.rel_of_pairwise_cons hapart List.mem_cons_self) hbase hbesides hown hown'
    obtain ⟨rest?, s'', t', hrest₁, hrest₂, hbesides''⟩ :=
      insensitive_collect hinsensitive fields v v' hbesides'
    cases hrest'.symm.trans hrest₁
    refine ⟨own' ++ (own ++ rest'), t', run_collect hrun₁ (run_collect hrun₂ hrest₂), ?_, hbesides''⟩
    rw [← List.append_assoc, ← List.append_assoc]
    exact List.perm_append_comm.append_right rest'
  | trans hperm hperm' ih ih' =>
    obtain ⟨all₁, t₁, hrun₁, hperm₁, hbesides₁⟩ := ih hconfined hapart hbase hbesides hrun
    obtain ⟨all₂, t₂, hrun₂, hperm₂, hbesides₂⟩ := ih'
      (fun field hfield => hconfined field (hperm.mem_iff.mpr hfield))
      ((hperm.pairwise_iff fun {f g} hfg e hg hf => hfg e hf hg).mp hapart)
      (hbase.trans hbesides.status) (.refl t) hrun₁
    exact ⟨all₂, t₂, hrun₂, hperm₂.trans hperm₁, hbesides₁.trans hbesides₂⟩

end Collecting

/-! ## Records -/

/-- Whether the name of a field is computed. -/
def RecordField.isComputed : RecordField → Bool
  | .computed _ _ => true
  | _ => false

/-- One list of fields has those of another that are not computed in any order, and the computed
ones in the same order. -/
structure Reorders (fields fields' : List RecordField) : Prop where
  written : (fields.filter (!·.isComputed)).Perm (fields'.filter (!·.isComputed))
  computed : fields.filter (·.isComputed) = fields'.filter (·.isComputed)

section Records

variable {p : Program} {frame : Frame} {fields fields' : List RecordField} {parts parts' : Parts}
variable {s t : Checker} {ty ty' : Ty}

/-- The types under names that are contributed once do not depend on the order. -/
theorem Parts.type?_perm {cs cs' : List Contribution} (hperm : cs'.Perm cs)
    (hnodup : (cs.map Contribution.name).Nodup) (ks : List (String × Ty)) (name : String) :
    Parts.type? ⟨cs', ks⟩ name = Parts.type? ⟨cs, ks⟩ name := by
  have hfind : cs.find? (·.name == name) = cs'.find? (·.name == name) := by
    refine List.find?_eq_find?_of_perm hperm.symm fun c hc d hd => ?_
    obtain ⟨hc, hcname⟩ := hc
    obtain ⟨hd, hdname⟩ := hd
    exact List.inj_on_of_nodup_map hnodup hc hd
      ((beq_iff_eq.mp hcname).trans (beq_iff_eq.mp hdname).symm)
  rw [Parts.type?, Parts.type?, hfind]

/-- **The type of a record does not depend on the order in which its contributions come.** -/
theorem Parts.Makes.eq_of_perm (h : parts.Makes ty) (h' : parts'.Makes ty')
    (hperm : parts'.contributions.Perm parts.contributions)
    (hcomputed : parts'.computed = parts.computed) : ty' = ty := by
  have herror : ty' = .error ↔ ty = .error := by
    rw [h.error_iff, h'.error_iff, (hperm.map Contribution.name).nodup_iff]
    simp only [hperm.mem_iff]
  by_cases hty : ty = .error
  · rw [hty, herror.mpr hty]
  · obtain ⟨fields, rfl, hfields⟩ := h.record hty
    obtain ⟨fields', rfl, hfields'⟩ := h'.record (mt herror.mp hty)
    have hnodup : (parts.contributions.map Contribution.name).Nodup :=
      not_not.mp fun hne => hty (h.error_iff.mpr (Or.inr hne))
    refine congrArg _ (Fields.ext_get? fields' fields fun name => ?_)
    rw [hfields, hfields']
    obtain ⟨cs, ks⟩ := parts
    obtain ⟨cs', ks'⟩ := parts'
    obtain rfl : ks' = ks := hcomputed
    rw [Parts.type?_perm hperm hnodup]

/-- A record with these contributions in any order has the type that is made from them. -/
theorem Parts.Makes.exists_evaluate (h : parts.Makes ty) (hacyclic : p.source.Acyclic) {id : ExprId}
    (hexpr : p.source.expr id = .record fields') (hfresh : s.exprTypes.get? id = none)
    (hparts : (partsOf p (evaluate p) fields' frame).run s = some (some parts', t))
    (hperm : parts'.contributions.Perm parts.contributions)
    (hcomputed : parts'.computed = parts.computed) :
    ∃ u, (evaluate p id frame).run s = some (ty, u) := by
  obtain ⟨ty', u, hrun, hmakes, -⟩ := exists_evaluate_record hacyclic hexpr hfresh hparts
  rw [h.eq_of_perm hmakes hperm hcomputed] at hrun
  exact ⟨u, hrun⟩

theorem insensitive_contributed (hacyclic : p.source.Acyclic) (frame : Frame) (field : RecordField) :
    Insensitive (contributed p (evaluate p) frame field) := by
  unfold contributed
  split
  · exact .pure _
  · exact (insensitive_evaluate hacyclic _ _).bind fun _ => .pure _

theorem insensitive_computedEntry (hacyclic : p.source.Acyclic) (frame : Frame) (field : RecordField) :
    Insensitive (computedEntry (evaluate p) frame field) := by
  cases field with
  | computed key value =>
    exact (insensitive_evaluate hacyclic key _).bind fun _ =>
      (insensitive_evaluate hacyclic value _).bind fun _ => .pure _
  | named | reference | spread => exact .pure _

theorem collect_contributed (eval : Evaluator) (frame : Frame) (fields : List RecordField) :
    collect (contributed p eval frame) (fields.filter (!·.isComputed))
      = collect (contributed p eval frame) fields := by
  refine collect_filter (fun field hfield => ?_) fields
  cases field with
  | computed key value => rfl
  | named | reference | spread => cases hfield

theorem collect_computedEntry (eval : Evaluator) (frame : Frame) (fields : List RecordField) :
    collect (computedEntry eval frame) (fields.filter (·.isComputed))
      = collect (computedEntry eval frame) fields := by
  refine collect_filter (fun field hfield => ?_) fields
  cases field with
  | computed key value => cases hfield
  | named | reference | spread => rfl

/-- **The parts of a record in another order** come to the same, if no two of the fields that are not
computed have an expression in common, and the constants that they name are resolved. -/
theorem exists_partsOf_perm (hacyclic : p.source.Acyclic) (hreorders : Reorders fields fields')
    (hapart : p.source.Apart ((fields.filterMap RecordField.written?).map Slot.part))
    (hnames : ∀ slot ∈ fields.filterMap RecordField.written?,
      p.source.NamesOnly frame.scope s.IsResolved slot.part)
    (hparts : (partsOf p (evaluate p) fields frame).run s = some (some parts, t)) :
    ∃ parts' t', (partsOf p (evaluate p) fields' frame).run s = some (some parts', t')
      ∧ parts'.contributions.Perm parts.contributions ∧ parts'.computed = parts.computed := by
  obtain ⟨u, hcontributions, hcomputed⟩ := run_partsOf_iff.mp hparts
  rw [← collect_contributed] at hcontributions
  have hslots : ∀ field ∈ fields.filter (!·.isComputed), ∀ slot, field.written? = some slot →
      slot ∈ fields.filterMap RecordField.written? := fun field hfield slot hslot =>
    List.mem_filterMap.mpr ⟨field, List.mem_of_mem_filter hfield, hslot⟩
  have hcovers : fields.Pairwise fun f g =>
      ∀ e, f.Covers p.source e → ¬ g.Covers p.source e := by
    rw [Module.Apart, List.pairwise_map, List.pairwise_filterMap] at hapart
    refine hapart.imp fun {f g} hfg e => ?_
    rintro ⟨slot, hslot, hf⟩ ⟨slot', hslot', hg⟩
    exact hfg slot hslot slot' hslot' e hf hg
  obtain ⟨cs', u', hcontributions', hperm, hbesides⟩ := exists_collect_perm hreorders.written
    (insensitive_contributed hacyclic frame)
    (fun field hfield => confined_contributed hacyclic fun slot hslot =>
      hnames slot (hslots field hfield slot hslot))
    (hcovers.filter _) (fun _ => rfl) (.refl s) hcontributions
  -- the computed fields are the same, and start from states that differ in what was said
  obtain ⟨ks?, v, t', hrun, hrun', -⟩ :=
    insensitive_collect (insensitive_computedEntry hacyclic frame) fields u u' hbesides
  cases hcomputed.symm.trans hrun
  refine ⟨⟨cs', parts.computed⟩, t', run_partsOf_iff.mpr ⟨u', ?_, ?_⟩, hperm, rfl⟩
  · rw [← collect_contributed]
    exact hcontributions'
  · rw [← collect_computedEntry, ← hreorders.computed, collect_computedEntry]
    exact hrun'

end Records

/-- **Fields of records are merged by one rule.** What the parts of a record come to decides its type.
Of the contributions that are not erroneous, each one after the first of its name is reported, and no
other name is reported as repeated. Any record that is made from the same contributions, in whatever
order, has the same type. So has the record with the fields that are not computed in another order, if
no two of them have an expression in common and the constants that they name are resolved. -/
theorem record_fields_are_merged (p : Program) (hacyclic : p.source.Acyclic) (id : ExprId)
    (fields : List RecordField) (frame : Frame) (s t : Checker) (parts : Parts)
    (hexpr : p.source.expr id = .record fields) (hfresh : s.exprTypes.get? id = none)
    (hparts : (partsOf p (evaluate p) fields frame).run s = some (some parts, t)) :
    ∃ ty u, (evaluate p id frame).run s = some (ty, u) ∧ parts.Makes ty
      ∧ s.journal.Tallies u.journal (Contribution.reports parts.contributions)
      ∧ (∀ id' fields' frame' s' t' parts', p.source.expr id' = .record fields' →
        s'.exprTypes.get? id' = none →
        (partsOf p (evaluate p) fields' frame').run s' = some (some parts', t') →
        parts'.contributions.Perm parts.contributions → parts'.computed = parts.computed →
        ∃ u', (evaluate p id' frame').run s' = some (ty, u'))
      ∧ ∀ id' fields', p.source.expr id' = .record fields' → s.exprTypes.get? id' = none →
        Reorders fields fields' →
        p.source.Apart ((fields.filterMap RecordField.written?).map Slot.part) →
        (∀ slot ∈ fields.filterMap RecordField.written?,
          p.source.NamesOnly frame.scope s.IsResolved slot.part) →
        ∃ u', (evaluate p id' frame).run s = some (ty, u') := by
  obtain ⟨ty, u, hrun, hmakes, htally⟩ := exists_evaluate_record hacyclic hexpr hfresh hparts
  refine ⟨ty, u, hrun, hmakes, htally, ?_, ?_⟩
  · intro id' fields' frame' s' t' parts' hexpr' hfresh' hparts' hperm hcomputed
    exact hmakes.exists_evaluate hacyclic hexpr' hfresh' hparts' hperm hcomputed
  · intro id' fields' hexpr' hfresh' hreorders hapart hnames
    obtain ⟨parts', t', hparts', hperm, hcomputed⟩ :=
      exists_partsOf_perm hacyclic hreorders hapart hnames hparts
    exact hmakes.exists_evaluate hacyclic hexpr' hfresh' hparts' hperm hcomputed

theorem Module.Within.eq_of_leaf {m : Module} {a e : ExprId} (hleaf : (m.expr a).children = [])
    (h : m.Within a e) : e = a := by
  rcases Relation.ReflTransGen.cases_head h with heq | ⟨b, hpart, -⟩
  · exact heq.symm
  · rw [Module.Part, hleaf] at hpart
    cases hpart

/-- A record in two orders: `{limit, ...{note: "x"}, ["note"]: true}` and
`{...{note: "x"}, limit, ["note"]: true}`, with a constant `limit = 5`. -/
def twoOrders : Program where
  source := Module.empty
    |>.addExpr (.literal (.int "5"))
    |>.addConstant ⟨"limit", Module.root, 0, none⟩
    |>.addExpr (.reference none "limit")
    |>.addExpr (.literal (.string "x"))
    |>.addExpr (.record [.named "note" 2])
    |>.addExpr (.literal (.string "note"))
    |>.addExpr (.literal (.boolean true))
    |>.addExpr (.record [.reference 1, .spread 3, .computed 4 5])
    |>.addExpr (.record [.spread 3, .reference 1, .computed 4 5])
  imports := []
  settings := ⟨true, .error, 5⟩

/-- The state in which `limit` is resolved. -/
def limited : Checker := Checker.start.leave 0 "limit" (.singleton (.ofScalar (.int 5)))

/-- The two records have the same type, with the fields `limit` and `note`. -/
theorem twoOrders_are_merged : ∃ fields u u',
    (evaluate twoOrders 6 ⟨none, Module.root⟩).run limited = some (.sealedRecord fields, u)
      ∧ (evaluate twoOrders 7 ⟨none, Module.root⟩).run limited = some (.sealedRecord fields, u')
      ∧ fields.contains "limit" = true ∧ fields.contains "note" = true := by
  have hacyclic : twoOrders.source.Acyclic := Module.acyclic_of_lt (by decide)
  have hnames : twoOrders.source.NamesExist := Module.Built.namesExist (Module.Built.empty
    |>.expr _ |>.constant _ |>.expr _ |>.expr _ |>.expr _ |>.expr _ |>.expr _ |>.expr _ |>.expr _)
  -- what the fields contribute is computed; all the rest follows from it
  have hparts : ((partsOf twoOrders (evaluate twoOrders) [.reference 1, .spread 3, .computed 4 5]
      ⟨none, Module.root⟩).run limited).any (fun r => r.1.any fun parts =>
        parts.contributions.all (!·.ty.isError)
          && parts.contributions.map Contribution.name == ["limit", "note"]
          && ["limit", "note"].all fun name => (parts.type? name).isSome) = true := by
    decide +kernel
  rw [Option.any_eq_true] at hparts
  obtain ⟨⟨parts?, t⟩, hrun, hparts⟩ := hparts
  rw [Option.any_eq_true] at hparts
  obtain ⟨parts, rfl, hparts⟩ := hparts
  simp only [Bool.and_eq_true, List.all_eq_true, beq_iff_eq] at hparts
  obtain ⟨⟨hsound, hcontributed⟩, htypes⟩ := hparts
  obtain ⟨ty, u, hty, hmakes, -, -, hreordered⟩ := record_fields_are_merged twoOrders hacyclic 6 _
    ⟨none, Module.root⟩ limited t parts rfl rfl hrun
  have hne : ty ≠ .error := by
    rw [Ne, hmakes.error_iff, hcontributed]
    rintro (⟨c, hc, herror⟩ | hdup)
    · have hgood := hsound c hc
      rw [herror] at hgood
      cases hgood
    · exact hdup (by decide)
  obtain ⟨fields, rfl, hfields⟩ := hmakes.record hne
  -- the two fields that change places have no expression in common
  have hapart : twoOrders.source.Apart [1, 3] := by
    refine List.pairwise_pair.mpr fun e he he' => ?_
    obtain rfl : e = 1 := Module.Within.eq_of_leaf rfl he
    rcases Relation.ReflTransGen.cases_head he' with heq | ⟨b, hpart, hb⟩
    · cases heq
    · obtain rfl : b = 2 := List.mem_singleton.mp hpart
      cases Module.Within.eq_of_leaf rfl hb
  have hnamed : ∀ e target, twoOrders.source.referredConstant? Module.root e = some target →
      limited.IsResolved target := by
    intro e target href
    obtain ⟨name, -, hlookup⟩ := Module.referredConstant?_eq_some.mp href
    obtain rfl : target = 0 := Nat.lt_one_iff.mp (hnames.lookup hlookup)
    exact ⟨_, rfl⟩
  obtain ⟨u', hrun'⟩ := hreordered 7 [.spread 3, .reference 1, .computed 4 5] rfl rfl
    ⟨.swap _ _ _, rfl⟩ hapart fun _ _ e _ => hnamed e
  refine ⟨fields, u, u', hty, hrun', ?_, ?_⟩
  · rw [Fields.contains, hfields, Option.isSome_map]
    exact htypes "limit" (by decide)
  · rw [Fields.contains, hfields, Option.isSome_map]
    exact htypes "note" (by decide)

theorem Ty.ne_error {ty : Ty} (h : ty.isError = false) : ty ≠ .error := by
  rintro rfl
  cases h

/-- An imported record with an erroneous field is spread: `{...m:r}`. -/
def spoiled : Program where
  source := Module.empty
    |>.addExpr (.reference (some "m") "r")
    |>.addExpr (.record [.spread 0])
  imports := [("m", [("r", .constant (.sealedRecord (.ofList [("a", ⟨.error, true⟩)])))])]
  settings := ⟨true, .error, 5⟩

/-- A literal is a field and an operand of another one: `{b: x, a: x + 2.0f}` and
`{a: x + 2.0f, b: x}`, where `x` is the same `1`. -/
def sharing : Program where
  source := Module.empty
    |>.addExpr (.literal (.int "1"))
    |>.addExpr (.literal (.float "2.0f"))
    |>.addExpr (.binary (.arith .add) 0 1)
    |>.addExpr (.record [.named "b" 0, .named "a" 2])
    |>.addExpr (.record [.named "a" 2, .named "b" 0])
  imports := []
  settings := ⟨true, .error, 5⟩

/-- A constant is used directly and through another one: `{a: a, b: b}` and `{b: b, a: a}` with
`a = 1`, `b = a`, where resolution may not nest. -/
def unnested : Program where
  source := Module.empty
    |>.addExpr (.literal (.int "1"))
    |>.addConstant ⟨"a", Module.root, 0, none⟩
    |>.addExpr (.reference none "a")
    |>.addConstant ⟨"b", Module.root, 1, none⟩
    |>.addExpr (.reference none "a")
    |>.addExpr (.reference none "b")
    |>.addExpr (.record [.named "a" 2, .named "b" 3])
    |>.addExpr (.record [.named "b" 3, .named "a" 2])
  imports := []
  settings := ⟨true, .error, 1⟩

/-- A record can be erroneous though no name is contributed twice. And if fields have an expression in
common, or constants are not resolved, then the order of the fields can make a difference. -/
theorem merging_has_exceptions :
    (∃ parts t u,
      (partsOf spoiled (evaluate spoiled) [.spread 0] ⟨none, Module.root⟩).run .start
          = some (some parts, t)
        ∧ (parts.contributions.map Contribution.name).Nodup
        ∧ (evaluate spoiled 1 ⟨none, Module.root⟩).run .start = some (.error, u))
    ∧ (∃ ty ty' u u',
      (evaluate sharing 3 ⟨some (.map .anydata), Module.root⟩).run .start = some (ty, u)
        ∧ (evaluate sharing 4 ⟨some (.map .anydata), Module.root⟩).run .start = some (ty', u')
        ∧ ty ≠ .error ∧ ty' ≠ .error ∧ ty ≠ ty')
    ∧ ∃ ty u u', (evaluate unnested 4 ⟨none, Module.root⟩).run .start = some (ty, u)
      ∧ ty ≠ .error ∧ (evaluate unnested 5 ⟨none, Module.root⟩).run .start = some (.error, u') := by
  refine ⟨?_, ?_, ?_⟩
  · have hparts : ((partsOf spoiled (evaluate spoiled) [.spread 0] ⟨none, Module.root⟩).run .start).any
        (fun r => r.1.any fun parts => parts.contributions.map Contribution.name == ["a"]) = true := by
      decide +kernel
    have htype : ((evaluate spoiled 1 ⟨none, Module.root⟩).run .start).any (·.1.isError) = true := by
      decide +kernel
    rw [Option.any_eq_true] at hparts htype
    obtain ⟨⟨parts?, t⟩, hrun, hparts⟩ := hparts
    obtain ⟨⟨ty, u⟩, hrun', herror⟩ := htype
    rw [Option.any_eq_true] at hparts
    obtain ⟨parts, rfl, hnames⟩ := hparts
    refine ⟨parts, t, u, hrun, ?_, Ty.isError_iff.mp herror ▸ hrun'⟩
    rw [beq_iff_eq.mp hnames]
    exact List.nodup_singleton "a"
  · -- only one of the two types leaves a single value
    have hrun : ((evaluate sharing 3 ⟨some (.map .anydata), Module.root⟩).run .start).any
        (fun r => !r.1.isError && (Value.ofTy? r.1).isNone) = true := by
      decide +kernel
    have hrun' : ((evaluate sharing 4 ⟨some (.map .anydata), Module.root⟩).run .start).any
        (fun r => !r.1.isError && (Value.ofTy? r.1).isSome) = true := by
      decide +kernel
    simp only [Option.any_eq_true, Bool.and_eq_true, Bool.not_eq_true'] at hrun hrun'
    obtain ⟨⟨ty, u⟩, hrun, herror, hnone⟩ := hrun
    obtain ⟨⟨ty', u'⟩, hrun', herror', hsome⟩ := hrun'
    refine ⟨ty, ty', u, u', hrun, hrun', Ty.ne_error herror, Ty.ne_error herror', ?_⟩
    rintro rfl
    rw [Option.isNone_iff_eq_none.mp hnone] at hsome
    cases hsome
  · have hrun : ((evaluate unnested 4 ⟨none, Module.root⟩).run .start).any (!·.1.isError) = true := by
      decide +kernel
    have hrun' : ((evaluate unnested 5 ⟨none, Module.root⟩).run .start).any (·.1.isError) = true := by
      decide +kernel
    simp only [Option.any_eq_true, Bool.not_eq_true'] at hrun hrun'
    obtain ⟨⟨ty, u⟩, hrun, herror⟩ := hrun
    obtain ⟨⟨ty', u'⟩, hrun', herror'⟩ := hrun'
    exact ⟨ty, u, u', hrun, Ty.ne_error herror, Ty.isError_iff.mp herror' ▸ hrun'⟩

end ConstNarrow
