/-
**Targets**: what a type that is committed to an expression means for its parts.

A target is made for an expression if it refines the type that the tables hold for it, domain by
domain. Then every part gets a target that is made for it: an item that of its position, a field that
of its name, an operand that of the result. The positions and names are worked out anew from the
tables, and they are those by which the type was put together. Only where a computed key is written
twice, the value that is lost meets a target that was made for another.
-/
import ConstNarrow.Proofs.Committed

set_option autoImplicit false

namespace ConstNarrow

open Checker

/-! ## What a target is made for -/

/-- A type is held for an expression, perhaps with readings dropped by an operator. -/
def Ty.Trims (held ty : Ty) : Prop :=
  held = ty ∨ ∃ values kept : List Singleton, kept.Sublist values ∧ ty = .ofValues values
    ∧ held = .ofValues kept

/-- A target is made for an expression: it refines what the tables hold for it. -/
def Aims (p : Program) (given : ConstId → Ty) (scope : ScopeId) (lax : Bool) (s : Checker)
    (id : ExprId) (target : Ty) : Prop :=
  target.Definite ∧ ∃ expected ty held, Held p given scope s expected id ty ∧ ty.isError = false
    ∧ s.exprTypes.get? id = some held ∧ held.Trims ty
    ∧ target.Refines Singleton.SharesDomain lax held

namespace Ty

variable {R : Singleton → Singleton → Prop} {lax : Bool} {target held ty : Ty}

/-- What refines a choice is one value, unless it is an error. -/
theorem Refines.ofValues {values : List Singleton} (h : Refines R lax target (ofValues values))
    (herror : target.isError = false) : ∃ w, target = singleton w ∧ ∃ s ∈ values, R w s := by
  generalize hheld : Ty.ofValues values = held at h
  cases h with
  | @value readings w s hs hw =>
    cases ofValues_injective hheld
    exact ⟨w, rfl, s, hs, hw⟩
  | tuple _ _ => exact absurd hheld (ofValues_ne_tuple _ _ _)
  | record _ _ => exact absurd hheld (ofValues_ne_record _ _ _ _)
  | error _ => cases herror

theorem Refines.tuple_inv {members : List Ty} {rest : Option Ty}
    (h : Refines R lax target (.tuple members rest)) (herror : target.isError = false) :
    ∃ results, target = .tuple results none ∧ members.length ≤ results.length
      ∧ ∀ (i : Nat) (result member : Ty), results[i]? = some result → members[i]? = some member →
        Refines R lax result member := by
  generalize hheld : Ty.tuple members rest = held at h
  cases h with
  | tuple hlength h =>
    cases hheld
    exact ⟨_, rfl, hlength, h⟩
  | value _ _ => exact absurd hheld.symm (ofValues_ne_tuple _ _ _)
  | record _ _ => cases hheld
  | error _ => cases herror

theorem Refines.record_inv {fields : Fields none} {rest : Option Ty} {isSealed : Bool}
    (h : Refines R lax target (.record fields rest isSealed)) (herror : target.isError = false) :
    ∃ results, target = sealedRecord results
      ∧ (∀ name, fields.contains name = true → results.contains name = true)
      ∧ ∀ (name : String) (result field : Field), results.get? name = some result →
        fields.get? name = some field → Refines R lax result.ty field.ty := by
  generalize hheld : Ty.record fields rest isSealed = held at h
  cases h with
  | record hnames h =>
    cases hheld
    exact ⟨_, rfl, hnames, h⟩
  | value _ _ => exact absurd hheld.symm (ofValues_ne_record _ _ _ _)
  | tuple _ _ => cases hheld
  | error _ => cases herror

/-- What refines the readings that are left refines them all. -/
theorem Trims.refines (h : held.Trims ty) (hrefines : Refines R lax target held)
    (herror : target.isError = false) : Refines R lax target ty := by
  rcases h with rfl | ⟨values, kept, hkept, rfl, rfl⟩
  · exact hrefines
  · obtain ⟨w, rfl, s, hs, hw⟩ := hrefines.ofValues herror
    exact .value (hkept.subset hs) hw

theorem Trims.eq_of_tuple {members : List Ty} {rest : Option Ty}
    (h : held.Trims (.tuple members rest)) : held = .tuple members rest := by
  rcases h with rfl | ⟨values, kept, -, heq, -⟩
  · rfl
  · exact absurd heq.symm (ofValues_ne_tuple _ _ _)

theorem Trims.eq_of_record {fields : Fields none} {rest : Option Ty} {isSealed : Bool}
    (h : held.Trims (.record fields rest isSealed)) : held = .record fields rest isSealed := by
  rcases h with rfl | ⟨values, kept, -, heq, -⟩
  · rfl
  · exact absurd heq.symm (ofValues_ne_record _ _ _ _)

theorem Trims.of_ofValues {values : List Singleton} (h : held.Trims (ofValues values)) :
    ∃ kept : List Singleton, kept.Sublist values ∧ held = ofValues kept := by
  rcases h with rfl | ⟨others, kept, hkept, heq, rfl⟩
  · exact ⟨values, .refl _, rfl⟩
  · exact ⟨kept, ofValues_injective heq ▸ hkept, rfl⟩

end Ty

section

variable {p : Program} {given : ConstId → Ty} {scope : ScopeId} {lax : Bool} {s t : Checker}
variable {id : ExprId} {target : Ty}

theorem Aims.agrees (h : Aims p given scope lax s id target) (hagrees : Agrees p.source id s t) :
    Aims p given scope lax t id target := by
  obtain ⟨hdefinite, expected, ty, held, hheld, herror, hentry, htrims, hrefines⟩ := h
  exact ⟨hdefinite, expected, ty, held, hheld.agrees hagrees, herror,
    (hagrees.types id .refl).trans hentry, htrims, hrefines⟩

/-- A type that is held as it is may be refined. -/
theorem Held.aims {expected : Option Ty} {ty : Ty} (h : Held p given scope s expected id ty)
    (herror : ty.isError = false) (hentry : s.exprTypes.get? id = some ty)
    (hdefinite : target.Definite) (hrefines : target.Refines Singleton.SharesDomain lax ty) :
    Aims p given scope lax s id target :=
  ⟨hdefinite, expected, ty, ty, h, herror, hentry, Or.inl rfl, hrefines⟩

end

/-! ## Places -/

/-- A part of an expression, with what is committed to it. -/
inductive Place where
  /-- a part that was evaluated without an expectation -/
  | plain (part : ExprId)
  /-- a part that gets a target, if there is one for it; its value lasts or is lost -/
  | guided (part : ExprId) (lasts : Bool) (target : Option Ty)

namespace Place

/-- The part as it was evaluated. -/
def slot : Place → Slot
  | plain part => ⟨part, false⟩
  | guided part _ _ => ⟨part, true⟩

/-- Whether the value of a part lasts. -/
def lasts : Place → Bool
  | plain _ => true
  | guided _ lasts _ => lasts

/-- What is committed to a part. -/
def target : Place → Option Ty
  | plain _ => none
  | guided _ _ target => target

end Place

/-- How many members a spread list contributes, as the types stand. -/
def Checker.spreadCount (s : Checker) (operand : ExprId) : Nat :=
  match (s.exprTypes.get? operand).map Ty.effective with
  | some (.tuple members _) => members.length
  | _ => 0

/-- The items of a list, from a position on. -/
def itemPlaces (s : Checker) (position? : Nat → Option Ty) : Nat → List ListItem → List Place
  | _, [] => []
  | index, .member value :: items =>
    .guided value true (position? index) :: itemPlaces s position? (index + 1) items
  | index, .spread operand :: items =>
    .plain operand :: itemPlaces s position? (index + s.spreadCount operand) items

/-- What is committed to the field of a name. -/
def placeTarget (targets : Fields none) (name : Option String) : Option Ty :=
  (name.bind targets.get?).map Field.ty

/-- What is committed to a field that is not computed: if its name is overwritten, its own type. -/
def writtenTarget (s : Checker) (targets : Fields none) (overwritten : List String)
    (name : Option String) (value : ExprId) : Option Ty :=
  if name.any overwritten.contains then (s.exprTypes.get? value).map Ty.narrowed
  else placeTarget targets name

/-- The parts of a field, where `rest` are the fields after it. -/
def fieldPlaces (m : Module) (s : Checker) (targets : Fields none) (overwritten : List String)
    (rest : List RecordField) : RecordField → List Place
  | .named name value =>
    [.guided value true (writtenTarget s targets overwritten (some name) value)]
  | .computed key value =>
    [.plain key, .guided value (!(s.keyName key).any (keyNamesOf s.keyName rest).contains)
      (placeTarget targets (s.keyName key))]
  | .reference value =>
    [.guided value true (writtenTarget s targets overwritten (m.fieldName? value) value)]
  | .spread operand => [.plain operand]

/-- The parts of the fields of a record. -/
def recordPlaces (m : Module) (s : Checker) (targets : Fields none) (overwritten : List String) :
    List RecordField → List Place
  | [] => []
  | field :: rest =>
    fieldPlaces m s targets overwritten rest field ++ recordPlaces m s targets overwritten rest

section

variable {m : Module} {s : Checker} {targets : Fields none} {overwritten : List String}
variable {fields : List RecordField}

theorem map_slot_itemPlaces (s : Checker) (position? : Nat → Option Ty) (index : Nat)
    (items : List ListItem) :
    (itemPlaces s position? index items).map Place.slot = items.map ListItem.slot := by
  induction items generalizing index with
  | nil => rfl
  | cons item items ih =>
    cases item with
    | member value => exact congrArg _ (ih (index + 1))
    | spread operand => exact congrArg _ (ih (index + s.spreadCount operand))

theorem map_slot_fieldPlaces (rest : List RecordField) (field : RecordField) :
    (fieldPlaces m s targets overwritten rest field).map Place.slot = field.slots := by
  cases field <;> rfl

theorem map_slot_recordPlaces :
    (recordPlaces m s targets overwritten fields).map Place.slot
      = fields.flatMap RecordField.slots := by
  induction fields with
  | nil => rfl
  | cons field fields ih =>
    rw [recordPlaces, List.map_append, map_slot_fieldPlaces, ih, List.flatMap_cons]

/-- A place belongs to a field, with others before it and others after it. -/
theorem exists_field_of_mem {place : Place}
    (h : place ∈ recordPlaces m s targets overwritten fields) : ∃ before field rest,
      fields = before ++ field :: rest ∧ place ∈ fieldPlaces m s targets overwritten rest field := by
  induction fields with
  | nil => cases h
  | cons field fields ih =>
    rcases List.mem_append.mp h with h | h
    · exact ⟨[], field, fields, rfl, h⟩
    · obtain ⟨before, other, rest, rfl, hplace⟩ := ih h
      exact ⟨field :: before, other, rest, rfl, hplace⟩

/-- Every part that lasts has a place that lasts. -/
theorem exists_place_of_lasting {e : ExprId} (h : e ∈ lastingExprs s.keyName fields) :
    ∃ place ∈ recordPlaces m s targets overwritten fields, place.slot.part = e ∧ place.lasts = true := by
  induction fields with
  | nil => cases h
  | cons field fields ih =>
    -- the parts of the first field, then those of the others
    have hsplit : (∃ place ∈ fieldPlaces m s targets overwritten fields field,
        place.slot.part = e ∧ place.lasts = true) ∨ e ∈ lastingExprs s.keyName fields := by
      cases field with
      | named name value | reference value | spread value =>
        rcases List.mem_cons.mp h with rfl | h
        · exact Or.inl ⟨_, List.mem_cons_self, rfl, rfl⟩
        · exact Or.inr h
      | computed key value =>
        rcases List.mem_append.mp h with h | h
        · split at h
          · rw [List.mem_singleton.mp h]
            exact Or.inl ⟨_, List.mem_cons_self, rfl, rfl⟩
          · rename_i hlast
            rcases List.mem_cons.mp h with rfl | h
            · exact Or.inl ⟨_, List.mem_cons_self, rfl, rfl⟩
            · rw [List.mem_singleton.mp h]
              exact Or.inl ⟨_, List.mem_cons_of_mem _ List.mem_cons_self, rfl, by simp [Place.lasts, hlast]⟩
        · exact Or.inr h
    rcases hsplit with ⟨place, hplace, hpart⟩ | h
    · exact ⟨place, List.mem_append_left _ hplace, hpart⟩
    · obtain ⟨place, hplace, hpart⟩ := ih h
      exact ⟨place, List.mem_append_right _ hplace, hpart⟩

/-- Without repeated keys all places last. -/
theorem lasts_of_nodup (h : (keyNamesOf s.keyName fields).Nodup) :
    ∀ place ∈ recordPlaces m s targets overwritten fields, place.lasts = true := by
  induction fields with
  | nil => exact fun _ hplace => (by cases hplace)
  | cons field fields ih =>
    rw [recordPlaces, List.forall_mem_append]
    cases field with
    | named name value | reference value | spread value =>
      exact ⟨List.forall_mem_singleton.mpr rfl, ih h⟩
    | computed key value =>
      rw [keyNamesOf, List.nodup_append] at h
      refine ⟨List.forall_mem_cons.mpr ⟨rfl, List.forall_mem_singleton.mpr ?_⟩, ih h.2.1⟩
      cases hname : s.keyName key with
      | none => rfl
      | some name =>
        rw [hname] at h
        have hnew : name ∉ keyNamesOf s.keyName fields := fun hmem =>
          h.2.2 name (List.mem_singleton_self name) name hmem rfl
        simp [Place.lasts, hnew]

end

/-! ## What the parts are given -/

/-- A part is given a target that is made for it; where nothing is expected, its type stands. -/
def Place.Sound (p : Program) (given : ConstId → Ty) (scope : ScopeId) (lax : Bool) (s : Checker) :
    Place → Prop
  | plain part => ∃ ty, Held p given scope s none part ty ∧ ty.isError = false
      ∧ s.exprTypes.get? part = some ty
  | guided part _ target => ∃ result, target = some result ∧ Aims p given scope lax s part result

section

variable {p : Program} {given : ConstId → Ty} {scope : ScopeId} {lax : Bool} {s : Checker}
variable {expected : Option Ty} {types : ExprId → Ty} {target : Ty}

/-- **Every item of a list is given the type of its position.** The members of a spread list take as
many positions as when the type of the list was put together. -/
theorem sound_itemPlaces {items : List ListItem} {members : List Ty}
    {position? : Nat → Option Ty} {index : Nat}
    (hheld : ∀ slot ∈ items.map ListItem.slot,
      Held p given scope s (slot.expects expected) slot.part (types slot.part))
    (hentry : ∀ item ∈ items, s.exprTypes.get? item.expr = some (types item.expr))
    (hmembers : itemTys? types items = some members)
    (hposition : ∀ (i : Nat) (member : Ty), members[i]? = some member → ∃ result,
      position? (index + i) = some result ∧ result.Definite
        ∧ result.Refines Singleton.SharesDomain lax member) :
    ∀ place ∈ itemPlaces s position? index items, place.Sound p given scope lax s := by
  have hok := isError_of_itemTys? hmembers
  induction items generalizing members index with
  | nil => exact fun _ hplace => (by cases hplace)
  | cons item items ih =>
    obtain ⟨hfirst, hheldRest⟩ := List.forall_mem_cons.mp hheld
    obtain ⟨hentryFirst, hentryRest⟩ := List.forall_mem_cons.mp hentry
    obtain ⟨hokFirst, hokRest⟩ := List.forall_mem_cons.mp hok
    cases item with
    | member value =>
      have hvalue : (types value).isError = false := hokFirst
      rw [itemTys?, if_neg (by rw [hvalue]; exact Bool.false_ne_true)] at hmembers
      obtain ⟨rest, hrest, rfl⟩ := Option.map_eq_some_iff.mp hmembers
      refine List.forall_mem_cons.mpr
        ⟨?_, ih hheldRest hentryRest hrest (fun i member hi => ?_) hokRest⟩
      · obtain ⟨result, hresult, hdefinite, hrefines⟩ := hposition 0 (types value) rfl
        exact ⟨result, hresult, Held.aims hfirst hvalue hentryFirst hdefinite hrefines⟩
      · have hnext := hposition (i + 1) member hi
        rwa [show index + (i + 1) = index + 1 + i by omega] at hnext
    | spread operand =>
      rw [itemTys?] at hmembers
      obtain ⟨own, hown, hmembers⟩ := Option.bind_eq_some_iff.mp hmembers
      obtain ⟨rest, hrest, rfl⟩ := Option.map_eq_some_iff.mp hmembers
      -- the operand is the list that it was
      have hcount : s.spreadCount operand = own.length := by
        have hoperand : s.exprTypes.get? operand = some (types operand) := hentryFirst
        rw [spreadTys?] at hown
        split at hown
        · rename_i heffective
          cases hown
          rw [spreadCount, hoperand, Option.map_some, heffective]
        · cases hown
      refine List.forall_mem_cons.mpr ⟨⟨_, hfirst, hokFirst, hentryFirst⟩,
        ih hheldRest hentryRest hrest (fun i member hi => ?_) hokRest⟩
      rw [hcount, Nat.add_assoc]
      refine hposition (own.length + i) member ?_
      rw [List.getElem?_append_right (Nat.le_add_right _ _), Nat.add_sub_cancel_left]
      exact hi

/-- What a record offers for a field is given to the field. -/
theorem aims_of_field {fields results : Fields none} {part : ExprId} {name : String}
    (hdefinite : (Ty.sealedRecord results).Definite)
    (hnames : ∀ name, fields.contains name = true → results.contains name = true)
    (hrefines : ∀ (name : String) (result field : Field), results.get? name = some result →
      fields.get? name = some field → result.ty.Refines Singleton.SharesDomain lax field.ty)
    (hheld : Held p given scope s expected part (types part))
    (herror : (types part).isError = false) (hentry : s.exprTypes.get? part = some (types part))
    (hfield : fields.get? name = some ⟨types part, true⟩) :
    ∃ result, placeTarget results (some name) = some result ∧ Aims p given scope lax s part result := by
  have hcontains := hnames name (Option.isSome_iff_exists.mpr ⟨_, hfield⟩)
  obtain ⟨result, hresult⟩ := Option.isSome_iff_exists.mp hcontains
  refine ⟨result.ty, ?_, hheld.aims herror hentry ?_ (hrefines name result _ hresult hfield)⟩
  · rw [placeTarget, Option.bind_some, hresult]
    rfl
  · exact Ty.hereditary_definite.record _ _ _ hdefinite _ (Fields.mem_toList_of_get? results hresult)

/-- **Where the targets of fields come from**: a field that is not lost is given the type of the name
under which the record has it, or else its own type, if a computed key has taken its place. The names
of computed keys are those by which the record was put together. -/
theorem source_of_recordPlaces {fields : List RecordField} {results : Fields none} {part : ExprId}
    {result : Option Ty} (hentry : ∀ e ∈ fields.flatMap RecordField.exprs, s.exprTypes.get? e = some (types e))
    (hplaced : (placement p.source types fields).failed = false)
    (hplace : .guided part true result
      ∈ recordPlaces p.source s results (keyNamesOf s.keyName fields) fields) :
    result = some (types part).narrowed ∨ ∃ name, result = placeTarget results (some name)
      ∧ (placement p.source types fields).fields.get? name = some ⟨types part, true⟩ := by
  have hexpr : ∀ field ∈ fields, ∀ e ∈ field.exprs, e ∈ fields.flatMap RecordField.exprs :=
    fun field hfield e he => List.mem_flatMap.mpr ⟨field, hfield, he⟩
  have hkeyName : ∀ key ∈ fields.flatMap RecordField.exprs, s.keyName key = keyOf? (types key) := by
    intro key hkey
    rw [keyName, hentry key hkey]
    rfl
  have hkeys : ∀ others : List RecordField, (∀ field ∈ others, field ∈ fields) →
      keyNamesOf s.keyName others = keyNamesOf (fun key => keyOf? (types key)) others := by
    intro others hothers
    refine keyNamesOf_congr fun key hkey => hkeyName key ?_
    obtain ⟨field, hfield, hkey⟩ := List.mem_filterMap.mp hkey
    cases field with
    | computed other value =>
      cases hkey
      exact hexpr _ (hothers _ hfield) _ List.mem_cons_self
    | named | reference | spread => cases hkey
  -- a field that is not computed has its place, unless a computed one has taken it
  have hwritten : ∀ field ∈ fields, ∀ (name : Option String) (value : ExprId),
      Placement.Writes p.source field name value → field.exprs = [value] →
      writtenTarget s results (keyNamesOf s.keyName fields) name value = some (types value).narrowed
        ∨ ∃ key, writtenTarget s results (keyNamesOf s.keyName fields) name value
          = placeTarget results (some key)
          ∧ (placement p.source types fields).fields.get? key = some ⟨types value, true⟩ := by
    intro field hfield name value hwrites hexprs
    rw [writtenTarget]
    split
    · exact Or.inl (congrArg _ (hentry value (hexpr field hfield value (hexprs ▸ List.mem_singleton_self _))))
    · rename_i hfree
      have hplacedWritten := Placement.failed_of_foldl_computed fields hplaced
      obtain ⟨key, rfl, hget⟩ := Placement.get?_written hplacedWritten hfield hwrites
      have hnew : key ∉ keyNamesOf (fun key => keyOf? (types key)) fields := by
        rw [← hkeys fields fun _ h => h]
        simpa using hfree
      exact Or.inr ⟨key, rfl, (Placement.get?_foldl_computed hplaced hnew).trans hget⟩
  obtain ⟨before, field, rest, hfields, hplace⟩ := exists_field_of_mem hplace
  have hfield : field ∈ fields := by
    rw [hfields]
    exact List.mem_append_right _ List.mem_cons_self
  cases field with
  | named name value =>
    cases List.mem_singleton.mp hplace
    exact hwritten _ hfield _ part (Or.inl ⟨name, rfl, rfl⟩) rfl
  | reference value =>
    cases List.mem_singleton.mp hplace
    exact hwritten _ hfield _ part (Or.inr ⟨rfl, rfl⟩) rfl
  | spread operand => cases List.mem_singleton.mp hplace
  | computed key value =>
    rcases List.mem_cons.mp hplace with hplace | hplace
    · cases hplace
    · obtain ⟨rfl, hlasts, rfl⟩ := Place.guided.inj (List.mem_singleton.mp hplace)
      have hplaced' := hplaced
      rw [placement, hfields] at hplaced'
      obtain ⟨name, hname, hget⟩ := Placement.get?_computed hplaced'
      have hrest : ∀ other ∈ rest, other ∈ fields := fun other hother => by
        rw [hfields]
        exact List.mem_append_right _ (List.mem_cons_of_mem _ hother)
      have hkeyIs : s.keyName key = some name :=
        (hkeyName key (hexpr _ hfield key List.mem_cons_self)).trans hname
      -- no later field has the key, since the value lasts
      have hlast : name ∉ keyNamesOf (fun key => keyOf? (types key)) rest := by
        rw [← hkeys rest hrest]
        rw [hkeyIs] at hlasts
        simpa using hlasts.symm
      refine Or.inr ⟨name, by rw [hkeyIs], ?_⟩
      rw [placement, hfields]
      exact hget hlast

/-- **Every field of a record is given what is made for it**, unless it is lost. -/
theorem sound_recordPlaces {fields : List RecordField} {results : Fields none}
    (hheld : ∀ slot ∈ fields.flatMap RecordField.slots,
      Held p given scope s (slot.expects expected) slot.part (types slot.part))
    (hentry : ∀ e ∈ fields.flatMap RecordField.exprs, s.exprTypes.get? e = some (types e))
    (hplaced : (placement p.source types fields).failed = false)
    (hdefinite : (Ty.sealedRecord results).Definite)
    (hnames : ∀ name, (placement p.source types fields).fields.contains name = true →
      results.contains name = true)
    (hrefines : ∀ (name : String) (result field : Field), results.get? name = some result →
      (placement p.source types fields).fields.get? name = some field →
      result.ty.Refines Singleton.SharesDomain lax field.ty) :
    ∀ place ∈ recordPlaces p.source s results (keyNamesOf s.keyName fields) fields,
      place.lasts = true → place.Sound p given scope lax s := by
  intro place hplace hlasts
  have hslot : place.slot ∈ fields.flatMap RecordField.slots := by
    rw [← map_slot_recordPlaces]
    exact List.mem_map_of_mem hplace
  have hmem : place.slot.part ∈ fields.flatMap RecordField.exprs :=
    Expr.part_mem_children (e := .record fields) hslot
  have hheldPart := hheld _ hslot
  have hok := Placement.isError_of_placement hplaced _ hmem
  have hown := hentry _ hmem
  cases place with
  | plain part => exact ⟨_, hheldPart, hok, hown⟩
  | guided part lasts target =>
    cases hlasts
    rcases source_of_recordPlaces hentry hplaced hplace with rfl | ⟨name, rfl, hget⟩
    · obtain ⟨hdefiniteOwn, hrefinesOwn⟩ := hheldPart.isOperand.tentative.narrowed
      exact ⟨_, rfl, hheldPart.aims hok hown hdefiniteOwn
        (hrefinesOwn.mono (fun _ _ h => h.domain) fun h => (by cases h))⟩
    · exact aims_of_field hdefinite hnames hrefines hheldPart hok hown hget

variable {id : ExprId}

/-- What a target for a list is made for: the types of the items, which are held for them, and the
members that the list has by these. -/
theorem Aims.list_members {items : List ListItem} (h : Aims p given scope lax s id target)
    (hexpr : p.source.expr id = .list items) :
    ∃ expected types members, s.exprTypes.get? id = some (.tuple members none)
      ∧ itemTys? types items = some members
      ∧ (∀ slot ∈ items.map ListItem.slot,
        Held p given scope s (slot.expects expected) slot.part (types slot.part))
      ∧ (∀ item ∈ items, s.exprTypes.get? item.expr = some (types item.expr))
      ∧ target.Refines Singleton.SharesDomain lax (.tuple members none) := by
  obtain ⟨-, expected, ty, held, ⟨types, rfl, parts, -, recorded⟩, hok, hentry, htrims, hrefines⟩ := h
  have hrecorded := recorded hok
  rw [hexpr] at hok htrims hrecorded parts
  rw [inferStep, listTy] at hok htrims
  cases hmembers : itemTys? types items with
  | none =>
    rw [hmembers] at hok
    cases hok
  | some members =>
    rw [hmembers] at htrims
    obtain rfl := htrims.eq_of_tuple
    exact ⟨expected, types, members, hentry, hmembers, parts,
      fun item hitem => hrecorded item.expr (List.mem_map_of_mem hitem), hrefines⟩

/-- The items of a list are given what is made for them, if the whole is. -/
theorem Aims.list {items : List ListItem} (h : Aims p given scope lax s id target)
    (hexpr : p.source.expr id = .list items) (herror : target.isError = false) :
    ∃ results, target = .tuple results none
      ∧ ∀ place ∈ itemPlaces s (Ty.position? results none) 0 items, place.Sound p given scope lax s := by
  obtain ⟨expected, types, members, -, hmembers, parts, hrecorded, hrefines⟩ := h.list_members hexpr
  obtain ⟨results, rfl, hlength, hall⟩ := hrefines.tuple_inv herror
  refine ⟨results, rfl, sound_itemPlaces parts hrecorded hmembers fun i member hi => ?_⟩
  -- there is a result for every member, at the same position
  obtain ⟨hlt, -⟩ := List.getElem?_eq_some_iff.mp hi
  have hresult : results[i]? = some results[i] := List.getElem?_eq_getElem (by omega)
  refine ⟨results[i], ?_, ?_, hall i _ _ hresult hi⟩
  · rw [Nat.zero_add, Ty.position?, hresult, Option.some_or]
  · exact Ty.hereditary_definite.tuple _ _ h.1 _ (List.getElem_mem _)

/-- The same for a record: the types of its parts, and the fields that are placed by these. -/
theorem Aims.record_fields {fields : List RecordField} (h : Aims p given scope lax s id target)
    (hexpr : p.source.expr id = .record fields) :
    ∃ expected types, (placement p.source types fields).failed = false
      ∧ s.exprTypes.get? id = some (.sealedRecord (placement p.source types fields).fields)
      ∧ (∀ slot ∈ fields.flatMap RecordField.slots,
        Held p given scope s (slot.expects expected) slot.part (types slot.part))
      ∧ (∀ e ∈ fields.flatMap RecordField.exprs, s.exprTypes.get? e = some (types e))
      ∧ target.Refines Singleton.SharesDomain lax
        (.sealedRecord (placement p.source types fields).fields) := by
  obtain ⟨-, expected, ty, held, ⟨types, rfl, parts, -, recorded⟩, hok, hentry, htrims, hrefines⟩ := h
  have hrecorded := recorded hok
  rw [hexpr] at hok htrims hrecorded parts
  rw [inferStep, recordTy] at hok htrims
  cases hplaced : (placement p.source types fields).failed with
  | true =>
    rw [hplaced] at hok
    cases hok
  | false =>
    rw [hplaced, if_neg Bool.false_ne_true] at htrims
    obtain rfl := htrims.eq_of_record
    exact ⟨expected, types, hplaced, hentry, parts, hrecorded, hrefines⟩

/-- The fields of a record are given what is made for them, unless they are lost. -/
theorem Aims.record {fields : List RecordField} (h : Aims p given scope lax s id target)
    (hexpr : p.source.expr id = .record fields) (herror : target.isError = false) :
    ∃ results, target = .sealedRecord results
      ∧ ∀ place ∈ recordPlaces p.source s results (keyNamesOf s.keyName fields) fields,
        place.lasts = true → place.Sound p given scope lax s := by
  obtain ⟨expected, types, hplaced, -, parts, hrecorded, hrefines⟩ := h.record_fields hexpr
  obtain ⟨results, rfl, hnames, hall⟩ := hrefines.record_inv herror
  exact ⟨results, rfl, sound_recordPlaces parts hrecorded hplaced h.1 hnames hall⟩

/-- What stands in parentheses is given what they are given. -/
theorem Aims.group {inner : ExprId} (h : Aims p given scope lax s id target)
    (hexpr : p.source.expr id = .group inner) (herror : target.isError = false) :
    Aims p given scope lax s inner target := by
  obtain ⟨hdefinite, expected, ty, held, ⟨types, rfl, parts, -, recorded⟩, hok, -, htrims, hrefines⟩ := h
  have hrecorded := recorded hok
  rw [hexpr] at hok htrims hrecorded parts
  exact Held.aims (parts _ List.mem_cons_self) hok (hrecorded inner (List.mem_singleton_self inner))
    hdefinite (htrims.refines hrefines herror)

/-! ### Choices -/

/-- The tables hold a choice for an expression. -/
structure HoldsChoice (s : Checker) (id : ExprId) (values : List Singleton) : Prop where
  entry : s.exprTypes.get? id = some (.ofValues values)
  isChoice : Ty.IsChoice values
  coherent : ∀ v ∈ values, v.IsCoherent

/-- A target is made for a choice, or else for a type that stays as it is held. -/
theorem Aims.choice_or (h : Aims p given scope lax s id target) (herror : target.isError = false) :
    (∃ w values, target = .singleton w ∧ HoldsChoice s id values
        ∧ ∃ v ∈ values, w.base.domain = v.base.domain)
      ∨ ∃ expected ty, Held p given scope s expected id ty ∧ ty.isError = false
        ∧ s.exprTypes.get? id = some ty ∧ ∀ values, ty ≠ .ofValues values := by
  obtain ⟨-, expected, ty, held, hheld, hok, hentry, htrims, hrefines⟩ := h
  by_cases hchoice : ∃ values, ty = .ofValues values
  · obtain ⟨values, rfl⟩ := hchoice
    obtain ⟨hvalues, hcoherent, -⟩ := hheld.isOperand.readings (readingsOf?_ofValues values)
    obtain ⟨kept, hkept, rfl⟩ := htrims.of_ofValues
    obtain ⟨w, rfl, v, hv, hdomain⟩ := hrefines.ofValues herror
    exact Or.inl ⟨w, kept, rfl, ⟨hentry, hvalues.sublist hkept (List.ne_nil_of_mem hv),
      fun x hx => hcoherent x (hkept.subset hx)⟩, v, hv, hdomain⟩
  · rcases htrims with rfl | ⟨values, -, -, heq, -⟩
    · exact Or.inr ⟨expected, held, hheld, hok, hentry, fun values heq => hchoice ⟨values, heq⟩⟩
    · exact absurd ⟨values, heq⟩ hchoice

/-- **Operands are given the target of the result**, and the readings that it picks belong together:
the operator makes the one of the result out of those of the operands. -/
theorem Aims.binary {op : BinaryOp} {lhs rhs : ExprId} (h : Aims p given scope lax s id target)
    (hexpr : p.source.expr id = .binary op lhs rhs) (herror : target.isError = false) :
    Aims p given scope lax s lhs target ∧ Aims p given scope lax s rhs target
      ∧ (s.signatures.get? id).isSome = true
      ∧ ∃ w kept left right, target = .singleton w ∧ HoldsChoice s id kept
        ∧ HoldsChoice s lhs left ∧ HoldsChoice s rhs right
        ∧ ∀ v ∈ kept, ∀ a ∈ left, ∀ b ∈ right, v.base.domain = w.base.domain →
          a.base.domain = w.base.domain → b.base.domain = w.base.domain →
          op.fold? a.value b.value v.base.domain = some v.value := by
  obtain ⟨hdefinite, expected, ty, held, ⟨types, rfl, parts, -, recorded⟩, hok, hentry, htrims, hrefines⟩ := h
  have hrecorded := recorded hok
  rw [hexpr] at hok htrims hrecorded parts
  obtain ⟨hlhs, hrhs⟩ := List.forall_mem_cons.mp parts
  have hrhs := List.forall_mem_singleton.mp hrhs
  obtain ⟨ls, rs, hls, hrs, hleft, hright, hsignature⟩ := hrecorded
  obtain ⟨hlsChoice, hlsCoherent, hlsTy⟩ := hlhs.isOperand.readings hls
  obtain ⟨hrsChoice, hrsCoherent, hrsTy⟩ := hrhs.isOperand.readings hrs
  -- the type of the result is made of the values, of which some may have been dropped
  obtain ⟨_, _, hls', hrs', hchoice, hty⟩ := binaryTy_ok hok
  cases hls.symm.trans hls'
  cases hrs.symm.trans hrs'
  rw [inferStep, hty] at htrims
  obtain ⟨kept, hkept, rfl⟩ := htrims.of_ofValues
  obtain ⟨w, rfl, v, hv, hdomain⟩ := hrefines.ofValues herror
  have hfold : ∀ v ∈ kept, ∃ l ∈ ls, ∃ r ∈ rs, ∃ k, op.resultBase? l.base r.base = some k
      ∧ op.fold? l.value r.value k = some v.value ∧ v.base.domain = k := by
    intro v hv
    obtain ⟨x, hx, rfl⟩ := List.mem_map.mp (hkept.subset hv)
    obtain ⟨l, hl, r, hr, k, hk, hfold⟩ := (BinaryOp.mem_values hlsChoice hrsChoice).mp hx
    refine ⟨l, hl, r, hr, k, hk, hfold, ?_⟩
    rw [Singleton.ofScalar, Scalar.domain_naturalBase, BinaryOp.naturalBase_of_fold? hfold]
  obtain ⟨l, hl, r, hr, k, hk, -, hvk⟩ := hfold v hv
  obtain ⟨hlk, hrk⟩ := BinaryOp.domain_of_resultBase? hk
  have hwk : w.base.domain = k := Eq.trans hdomain hvk
  have hlKept := BinaryOp.mem_keptLeft hl hr hk
  have hrKept := BinaryOp.mem_keptRight hl hr hk
  have hlsSublist : (op.keptLeft ls rs).Sublist ls := List.filter_sublist
  have hrsSublist : (op.keptRight ls rs).Sublist rs := List.filter_sublist
  have hlsOk : (types lhs).isError = false := hlsTy ▸ Ty.isError_ofValues ls
  have hrsOk : (types rhs).isError = false := hrsTy ▸ Ty.isError_ofValues rs
  refine ⟨⟨hdefinite, _, _, _, hlhs, hlsOk, hleft, Or.inr ⟨ls, _, hlsSublist, hlsTy, rfl⟩,
      .value hlKept (hwk.trans hlk.symm)⟩,
    ⟨hdefinite, _, _, _, hrhs, hrsOk, hright, Or.inr ⟨rs, _, hrsSublist, hrsTy, rfl⟩,
      .value hrKept (hwk.trans hrk.symm)⟩,
    by rw [hsignature]; rfl, w, kept, op.keptLeft ls rs, op.keptRight ls rs, rfl, ⟨hentry, ?_, ?_⟩,
    ⟨hleft, hlsChoice.sublist hlsSublist (List.ne_nil_of_mem hlKept),
      fun x hx => hlsCoherent x (hlsSublist.subset hx)⟩,
    ⟨hright, hrsChoice.sublist hrsSublist (List.ne_nil_of_mem hrKept),
      fun x hx => hrsCoherent x (hrsSublist.subset hx)⟩, ?_⟩
  · exact hchoice.sublist hkept (List.ne_nil_of_mem hv)
  · intro x hx
    obtain ⟨y, -, rfl⟩ := List.mem_map.mp (hkept.subset hx)
    exact Singleton.isCoherent_ofScalar y
  · intro v hv a ha b hb hvw haw hbw
    -- in one domain there is one reading on either side
    obtain ⟨l, hl, r, hr, k, hk, hfold, hvk⟩ := hfold v hv
    obtain ⟨hlk, hrk⟩ := BinaryOp.domain_of_resultBase? hk
    have hkw : k = w.base.domain := hvk.symm.trans hvw
    rw [hlsChoice.eq_of_domain (hlsSublist.subset ha) hl (by rw [haw, hlk, hkw]),
      hrsChoice.eq_of_domain (hrsSublist.subset hb) hr (by rw [hbw, hrk, hkw]), hvk]
    exact hfold

/-- The same for one operand. -/
theorem Aims.unary {op : UnaryOp} {operand : ExprId} (h : Aims p given scope lax s id target)
    (hexpr : p.source.expr id = .unary op operand) (herror : target.isError = false) :
    Aims p given scope lax s operand target ∧ (s.signatures.get? id).isSome = true
      ∧ ∃ w kept values, target = .singleton w ∧ HoldsChoice s id kept ∧ HoldsChoice s operand values
        ∧ ∀ v ∈ kept, ∀ a ∈ values, v.base.domain = w.base.domain →
          a.base.domain = w.base.domain → op.fold? a.value = some v.value := by
  obtain ⟨hdefinite, expected, ty, held, ⟨types, rfl, parts, -, recorded⟩, hok, hentry, htrims, hrefines⟩ := h
  have hrecorded := recorded hok
  rw [hexpr] at hok htrims hrecorded parts
  have hoperand := List.forall_mem_singleton.mp parts
  obtain ⟨rs, hrs, hvalues, hsignature⟩ := hrecorded
  obtain ⟨hrsChoice, hrsCoherent, hrsTy⟩ := hoperand.isOperand.readings hrs
  obtain ⟨_, hrs', hchoice, hty⟩ := unaryTy_ok hoperand.isOperand hok
  cases hrs.symm.trans hrs'
  rw [inferStep, hty] at htrims
  obtain ⟨kept, hkept, rfl⟩ := htrims.of_ofValues
  obtain ⟨w, rfl, v, hv, hdomain⟩ := hrefines.ofValues herror
  have hfold : ∀ v ∈ kept, ∃ r ∈ rs, op.fold? r.value = some v.value
      ∧ v.base.domain = r.base.domain := by
    intro v hv
    obtain ⟨x, hx, rfl⟩ := List.mem_map.mp (hkept.subset hv)
    obtain ⟨r, hr, k, -, hfold⟩ := UnaryOp.mem_values.mp hx
    refine ⟨r, hr, hfold, ?_⟩
    rw [Singleton.ofScalar, Scalar.domain_naturalBase, UnaryOp.naturalBase_of_fold? hfold]
    exact (hrsCoherent r hr).symm
  obtain ⟨r, hr, -, hvr⟩ := hfold v hv
  have hok' : (types operand).isError = false := hrsTy ▸ Ty.isError_ofValues rs
  refine ⟨hoperand.aims hok' hvalues hdefinite ?_, by rw [hsignature]; rfl, w, kept, rs, rfl,
    ⟨hentry, ?_, ?_⟩, ⟨hrsTy ▸ hvalues, hrsChoice, hrsCoherent⟩, ?_⟩
  · rw [hrsTy]
    exact .value hr (Eq.trans hdomain hvr)
  · exact hchoice.sublist hkept (List.ne_nil_of_mem hv)
  · intro x hx
    obtain ⟨y, -, rfl⟩ := List.mem_map.mp (hkept.subset hx)
    exact Singleton.isCoherent_ofScalar y
  · intro v hv a ha hvw haw
    obtain ⟨r, hr, hfold, hvr⟩ := hfold v hv
    rw [hrsChoice.eq_of_domain ha hr (haw.trans (hvw.symm.trans hvr))]
    exact hfold

end

end ConstNarrow
