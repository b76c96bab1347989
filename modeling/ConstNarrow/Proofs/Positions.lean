/-
**Where items and fields stand.**

The type of a list is put together when it is evaluated: an item adds its own type, or the members of
the list that it spreads. Afterwards validation may fill up the list, and when the result is committed
the position of every item is counted anew, from the types that are held for the spread lists by then.
Both come to the same position. So an item that stands for a scalar ends as the value that the
committed type has there, and a field as the value under its name, unless a computed key has taken it.
-/
import ConstNarrow.Proofs.ForestCheck

set_option autoImplicit false

namespace ConstNarrow

open Checker

/-! ## Counting items -/

namespace Checker

/-- The types that an item adds to a list. -/
def contribution (s : Checker) : ListItem → List Ty
  | .member value => [(s.exprTypes.get? value).getD .error]
  | .spread operand =>
    match (s.exprTypes.get? operand).map Ty.effective with
    | some (.tuple members _) => members
    | _ => []

/-- How many positions an item takes: one, or as many as the list that is spread has members. -/
def span (s : Checker) : ListItem → Nat
  | .member _ => 1
  | .spread operand => s.spreadCount operand

/-- How many positions some items take. -/
def offset (s : Checker) : List ListItem → Nat
  | [] => 0
  | item :: items => s.span item + s.offset items

variable {s t : Checker} {items : List ListItem}

theorem length_contribution (s : Checker) (item : ListItem) :
    (s.contribution item).length = s.span item := by
  cases item with
  | member value => rfl
  | spread operand =>
    rw [contribution, span, spreadCount]
    cases (s.exprTypes.get? operand).map Ty.effective with
    | none => rfl
    | some ty => cases ty <;> rfl

/-- Positions are counted as members are added. -/
theorem length_flatMap_contribution (s : Checker) (items : List ListItem) :
    (items.flatMap s.contribution).length = s.offset items := by
  induction items with
  | nil => rfl
  | cons item items ih =>
    rw [List.flatMap_cons, List.length_append, length_contribution, ih, offset]

theorem offset_congr (h : ∀ operand, .spread operand ∈ items →
    t.exprTypes.get? operand = s.exprTypes.get? operand) : t.offset items = s.offset items := by
  induction items with
  | nil => rfl
  | cons item items ih =>
    have hspan : t.span item = s.span item := by
      cases item with
      | member value => rfl
      | spread operand => rw [span, span, spreadCount, spreadCount, h operand List.mem_cons_self]
    rw [offset, offset, hspan, ih fun operand hoperand => h operand (List.mem_cons_of_mem _ hoperand)]

/-- **The members of a list are what its items add**, if the types that it was made from are held. -/
theorem itemTys?_eq_flatMap {types : ExprId → Ty} {members : List Ty}
    (hmembers : itemTys? types items = some members)
    (hentry : ∀ item ∈ items, s.exprTypes.get? item.expr = some (types item.expr)) :
    members = items.flatMap s.contribution := by
  induction items generalizing members with
  | nil =>
    cases hmembers
    rfl
  | cons item items ih =>
    obtain ⟨hfirst, hrest⟩ := List.forall_mem_cons.mp hentry
    rw [List.flatMap_cons]
    cases item with
    | member value =>
      have hvalue : s.exprTypes.get? value = some (types value) := hfirst
      rw [itemTys?] at hmembers
      split at hmembers
      · cases hmembers
      · obtain ⟨others, hothers, rfl⟩ := Option.map_eq_some_iff.mp hmembers
        rw [contribution, hvalue, ih hothers hrest]
        rfl
    | spread operand =>
      have hoperand : s.exprTypes.get? operand = some (types operand) := hfirst
      rw [itemTys?] at hmembers
      obtain ⟨own, hown, hmembers⟩ := Option.bind_eq_some_iff.mp hmembers
      obtain ⟨others, hothers, rfl⟩ := Option.map_eq_some_iff.mp hmembers
      rw [contribution, hoperand, ih hothers hrest]
      rw [spreadTys?] at hown
      split at hown
      · rename_i heffective
        cases hown
        rw [Option.map_some, heffective]
      · cases hown

end Checker

section Splits

variable {s : Checker} {position? : Nat → Option Ty}

/-- An item is given the type of the position that is counted for it. -/
theorem mem_itemPlaces (s : Checker) (position? : Nat → Option Ty) (before : List ListItem)
    (part : ExprId) (after : List ListItem) (index : Nat) :
    .guided part true (position? (index + s.offset before))
      ∈ itemPlaces s position? index (before ++ .member part :: after) := by
  induction before generalizing index with
  | nil => exact List.mem_cons_self
  | cons item before ih =>
    have hstep : index + s.offset (item :: before) = index + s.span item + s.offset before := by
      rw [offset, Nat.add_assoc]
    rw [hstep]
    cases item with
    | member value => exact List.mem_cons_of_mem _ (ih (index + 1))
    | spread operand => exact List.mem_cons_of_mem _ (ih (index + s.spreadCount operand))

/-- Whatever is given a target is an item, with others before it and others after it. -/
theorem exists_split_of_mem_itemPlaces {index : Nat} {items : List ListItem} {place : Place} {ty : Ty}
    (h : place ∈ itemPlaces s position? index items) (htarget : place.target = some ty) :
    ∃ before after, items = before ++ .member place.slot.part :: after
      ∧ position? (index + s.offset before) = some ty := by
  induction items generalizing index with
  | nil => cases h
  | cons item items ih =>
    -- one more item before the others
    have hlater : ∀ rest, place ∈ itemPlaces s position? (index + s.span item) rest → rest = items →
        ∃ before after, item :: items = before ++ .member place.slot.part :: after
          ∧ position? (index + s.offset before) = some ty := by
      rintro _ hplace rfl
      obtain ⟨before, after, hsplit, hposition⟩ := ih hplace
      refine ⟨item :: before, after, congrArg _ hsplit, ?_⟩
      rw [offset, ← Nat.add_assoc]
      exact hposition
    cases item with
    | member value =>
      rcases List.mem_cons.mp h with rfl | h
      · exact ⟨[], items, rfl, htarget⟩
      · exact hlater items h rfl
    | spread operand =>
      rcases List.mem_cons.mp h with rfl | h
      · cases htarget
      · exact hlater items h rfl

/-- A field that is written under a name has its place. -/
theorem mem_recordPlaces {m : Module} {targets : Fields none} {overwritten : List String}
    {fields : List RecordField} {field : RecordField} (hfield : field ∈ fields)
    {name : Option String} {value : ExprId} (hwrites : Placement.Writes m field name value) :
    .guided value true (writtenTarget s targets overwritten name value)
      ∈ recordPlaces m s targets overwritten fields := by
  induction fields with
  | nil => cases hfield
  | cons first fields ih =>
    rcases List.mem_cons.mp hfield with rfl | hfield
    · refine List.mem_append_left _ ?_
      rcases hwrites with ⟨key, rfl, rfl⟩ | ⟨rfl, rfl⟩
      · exact List.mem_singleton_self _
      · exact List.mem_singleton_self _
    · exact List.mem_append_right _ (ih hfield)

end Splits

/-! ## Targets that state the same values -/

/-- A target is made for an expression, and has the values that are held for it. -/
def Restates (p : Program) (given : ConstId → Ty) (scope : ScopeId) (s : Checker) (id : ExprId)
    (target : Ty) : Prop :=
  Aims p given scope false s id target ∧ ∃ held, s.exprTypes.get? id = some held
    ∧ target.Refines Singleton.Rereads false held

/-- The same, except that an operand is given the value of the result. -/
def Suited (p : Program) (given : ConstId → Ty) (scope : ScopeId) (s : Checker) (id : ExprId)
    (target : Ty) : Prop :=
  Aims p given scope false s id target ∧ ∃ held, s.exprTypes.get? id = some held
    ∧ (target.Refines Singleton.Rereads false held ∨ ∃ values, held = .ofValues values)

section Targets

variable {p : Program} {given : ConstId → Ty} {scope : ScopeId} {s u : Checker} {id : ExprId}
variable {target : Ty}

theorem Restates.suited (h : Restates p given scope s id target) : Suited p given scope s id target :=
  let ⟨haims, held, hentry, hrefines⟩ := h
  ⟨haims, held, hentry, Or.inl hrefines⟩

theorem Held.restates {expected : Option Ty} {ty : Ty} (h : Held p given scope s expected id ty)
    (hok : ty.isError = false) (hentry : s.exprTypes.get? id = some ty) (hsettles : Settles false ty target) :
    Restates p given scope s id target :=
  ⟨h.aims hok hentry hsettles.1 (hsettles.2.mono (fun _ _ h => h.domain) fun h => h), ty, hentry,
    hsettles.2⟩

theorem HoldsChoice.suited {values : List Singleton} (h : HoldsChoice s id values)
    (haims : Aims p given scope false s id target) : Suited p given scope s id target :=
  ⟨haims, _, h.entry, Or.inr ⟨values, rfl⟩⟩

/-- A target for what is no choice has the values that are held. -/
theorem Suited.refines {held : Ty} (h : Suited p given scope s id target)
    (hentry : s.exprTypes.get? id = some held) (hother : ∀ values, held ≠ .ofValues values) :
    target.Refines Singleton.Rereads false held := by
  obtain ⟨-, held', hentry', hrefines⟩ := h
  cases hentry.symm.trans hentry'
  exact hrefines.resolve_right fun ⟨values, heq⟩ => hother values heq

/-- **Every item of a list is given the values that it had**, at the position that is counted for it. -/
theorem Suited.list {items : List ListItem} (h : Suited p given scope s id target)
    (hexpr : p.source.expr id = .list items) (herror : target.isError = false) :
    ∃ results, target = .tuple results none
      ∧ s.exprTypes.get? id = some (.tuple (items.flatMap s.contribution) none)
      ∧ ∀ before part after, items = before ++ .member part :: after → ∃ result,
        results[s.offset before]? = some result ∧ Restates p given scope s part result := by
  obtain ⟨expected, types, members, hentry, hmembers, parts, hrecorded, -⟩ := h.1.list_members hexpr
  have hall := itemTys?_eq_flatMap hmembers hrecorded
  have hrefines := h.refines hentry fun values heq => by
    rcases values with - | ⟨a, - | ⟨b, values⟩⟩ <;> cases heq
  obtain ⟨results, rfl, hlength, heach⟩ := hrefines.tuple_inv herror
  refine ⟨results, rfl, hall ▸ hentry, ?_⟩
  rintro before part after rfl
  have hmem : .member part ∈ before ++ .member part :: after :=
    List.mem_append_right _ List.mem_cons_self
  have hpart : s.exprTypes.get? part = some (types part) := hrecorded (.member part) hmem
  -- the member that the item has added
  have hmember : members[s.offset before]? = some (types part) := by
    rw [hall, List.flatMap_append, List.flatMap_cons, ← length_flatMap_contribution,
      List.getElem?_append_right (Nat.le_refl _), Nat.sub_self, contribution, hpart]
    rfl
  obtain ⟨hlt, -⟩ := List.getElem?_eq_some_iff.mp hmember
  have hresult : results[s.offset before]? = some results[s.offset before] :=
    List.getElem?_eq_getElem (by omega)
  have hheld := parts ⟨part, true⟩ (List.mem_map.mpr ⟨.member part, hmem, rfl⟩)
  refine ⟨_, hresult, hheld.restates (isError_of_itemTys? hmembers (.member part) hmem) hpart
    ⟨?_, heach _ _ _ hresult hmember⟩⟩
  exact Ty.hereditary_definite.tuple _ _ h.1.1 _ (List.getElem_mem _)

/-- Every field of a record is given the values that it had, unless it is lost. -/
theorem Suited.record {fields : List RecordField} (h : Suited p given scope s id target)
    (hexpr : p.source.expr id = .record fields) (herror : target.isError = false) :
    ∃ results, target = .sealedRecord results
      ∧ ∀ part result, .guided part true (some result)
          ∈ recordPlaces p.source s results (keyNamesOf s.keyName fields) fields →
        Restates p given scope s part result := by
  obtain ⟨expected, types, hplaced, hentry, parts, hrecorded, -⟩ := h.1.record_fields hexpr
  have hrefines := h.refines hentry fun values heq => by
    rcases values with - | ⟨a, - | ⟨b, values⟩⟩ <;> cases heq
  obtain ⟨results, rfl, -, heach⟩ := hrefines.record_inv herror
  refine ⟨results, rfl, fun part result hplace => ?_⟩
  have hslot : ⟨part, true⟩ ∈ fields.flatMap RecordField.slots := by
    rw [← map_slot_recordPlaces]
    exact List.mem_map_of_mem hplace
  have hmem : part ∈ fields.flatMap RecordField.exprs :=
    Expr.part_mem_children (e := .record fields) hslot
  have hheld := parts _ hslot
  refine hheld.restates (Placement.isError_of_placement hplaced _ hmem) (hrecorded _ hmem) ?_
  rcases source_of_recordPlaces hrecorded hplaced hplace with heq | ⟨name, heq, hget⟩
  · cases heq
    exact hheld.isOperand.tentative.narrowed
  · obtain ⟨field, hfield, rfl⟩ := Option.map_eq_some_iff.mp heq.symm
    exact ⟨Ty.hereditary_definite.record _ _ _ h.1.1 _ (Fields.mem_toList_of_get? results hfield),
      heach _ _ _ hfield hget⟩

theorem Suited.group {inner : ExprId} (h : Suited p given scope s id target)
    (hexpr : p.source.expr id = .group inner) (herror : target.isError = false) :
    Suited p given scope s inner target := by
  obtain ⟨haims, held, hentry, hrefines⟩ := h
  refine ⟨haims.group hexpr herror, ?_⟩
  obtain ⟨-, expected, ty, held', ⟨types, rfl, -, -, recorded⟩, hok, hentry', htrims, -⟩ := haims
  cases hentry.symm.trans hentry'
  have hrecorded := recorded hok
  rw [hexpr] at htrims hrecorded
  refine ⟨_, hrecorded inner (List.mem_singleton_self inner), ?_⟩
  rcases htrims with rfl | ⟨values, -, -, heq, -⟩
  · exact hrefines
  · exact Or.inr ⟨values, heq⟩

end Targets

/-! ## What stands for a scalar -/

/-- An expression stands for a scalar: it is a literal or an operator, or it is a name or something
in parentheses and has a single value as its type. -/
def IsScalar (p : Program) (s : Checker) (id : ExprId) : Prop :=
  match p.source.expr id with
  | .literal _ => True
  | .binary _ _ _ => True
  | .unary _ _ => True
  | .reference _ _ => ∃ v, s.exprTypes.get? id = some (.singleton v)
  | .group _ => ∃ v, s.exprTypes.get? id = some (.singleton v)
  | _ => False

section Scalars

variable {p : Program} {given : ConstId → Ty} {scope : ScopeId} {s u : Checker} {id : ExprId}
variable {target : Ty}

theorem IsScalar.not_constructor (h : IsScalar p s id) : (p.source.expr id).isConstructor = false := by
  cases hexpr : p.source.expr id with
  | list items =>
    rw [IsScalar, hexpr] at h
    exact h.elim
  | record fields =>
    rw [IsScalar, hexpr] at h
    exact h.elim
  | _ => rfl

/-- What stands for a scalar and is neither a literal nor an operator has a single value. -/
theorem IsScalar.entry (h : IsScalar p s id)
    (hform : (∃ inner, p.source.expr id = .group inner)
      ∨ ∃ source name, p.source.expr id = .reference source name) :
    ∃ v, s.exprTypes.get? id = some (.singleton v) := by
  rcases hform with ⟨inner, hexpr⟩ | ⟨source, name, hexpr⟩
  · rwa [IsScalar, hexpr] at h
  · rwa [IsScalar, hexpr] at h

/-- A single value that is picked for the value it stands for is the same value. -/
theorem Singleton.Picks.sameValue {r w v : Singleton} {values : List Singleton}
    (h : r.Picks values w v) (hr : r.IsCoherent) (hrereads : w.Rereads r) :
    v.sameValue w = true := by
  refine Bool.and_eq_true_iff.mpr ⟨?_, beq_iff_eq.mpr (h.domain.trans hrereads.domain.symm)⟩
  rw [h.value]
  exact hrereads.value hr

/-- **A scalar ends as the value that its target states.** -/
theorem Restates.same (h : Restates p given scope s id target) (herror : target.isError = false)
    (htaken : Taken p s id target u) (hscalar : IsScalar p u id) :
    ∃ v w, u.exprTypes.get? id = some (.singleton v) ∧ target = .singleton w
      ∧ v.sameValue w = true := by
  obtain ⟨⟨-, expected, ty, held, hheld, hok, hentry, htrims, -⟩, held', hentry', hrefines⟩ := h
  cases hentry.symm.trans hentry'
  by_cases hchoice : ∃ values, ty = .ofValues values
  · obtain ⟨values, rfl⟩ := hchoice
    obtain ⟨hvalues, hcoherent, -⟩ := hheld.isOperand.readings (readingsOf?_ofValues values)
    obtain ⟨kept, hkept, rfl⟩ := htrims.of_ofValues
    obtain ⟨w, rfl, r, hr, hrereads⟩ := hrefines.ofValues herror
    obtain ⟨r', hr', hdomain, v, hv, hpicks⟩ := htaken.chosen w kept rfl hentry
    -- in one domain there is one reading
    obtain rfl := hvalues.eq_of_domain (hkept.subset hr') (hkept.subset hr)
      (hdomain.trans hrereads.domain)
    exact ⟨v, w, hv, rfl, hpicks.sameValue (hcoherent r' (hkept.subset hr')) hrereads⟩
  · exfalso
    have hother : ∀ values, ty ≠ .ofValues values := fun values heq => hchoice ⟨values, heq⟩
    obtain rfl : held = ty := htrims.resolve_right fun ⟨values, _, _, heq, _⟩ => hother values heq
    have hform := hscalar.not_constructor
    have hstays := htaken.stays hform fun values heq =>
      hother values (Option.some.inj (hentry.symm.trans heq))
    -- what is held is no choice, so there is a name or a pair of parentheses
    obtain ⟨v, hv⟩ := hscalar.entry <| by
      by_cases hname : ∃ source name, p.source.expr id = .reference source name
      · exact Or.inr hname
      · exact Or.inl (hheld.exists_group hok hother hform fun source name hexpr =>
          hname ⟨source, name, hexpr⟩)
    exact hother [v] (Option.some.inj ((hstays.trans hentry).symm.trans hv))

end Scalars

/-! ## Items and fields in their places -/

/-- **An item stands where it was put.** When the list was evaluated, its members were those of the
items before, the type of the item and those of the items after. The number of the first ones is the
number of positions that the items before take in the end. A scalar there ends as the value that the
members `members` have at this position. -/
structure ItemPositioned (p : Program) (s u : Checker) (id : ExprId) (members : List Ty)
    (before : List ListItem) (part : ExprId) (after : List ListItem) : Prop where
  evaluated : ∃ own, s.exprTypes.get? part = some own ∧ s.exprTypes.get? id
    = some (.tuple (before.flatMap s.contribution ++ own :: after.flatMap s.contribution) none)
  index : (before.flatMap s.contribution).length = u.offset before
  same : IsScalar p u part → ∃ v w, u.exprTypes.get? part = some (.singleton v)
    ∧ members[u.offset before]? = some (.singleton w) ∧ v.sameValue w = true

/-- A scalar field ends as the value that the fields `targets` have under its name. -/
def FieldPositioned (p : Program) (u : Checker) (targets : Fields none) (name : String)
    (part : ExprId) : Prop :=
  IsScalar p u part → ∃ v field w, u.exprTypes.get? part = some (.singleton v)
    ∧ targets.get? name = some field ∧ field.ty = .singleton w ∧ v.sameValue w = true

/-- The items of a list stand where they were put, between a state `s` after evaluation and a state
`u` after commitment, with a type that was committed; and so do the fields of a record, except for
those that a computed key has taken. -/
def Positioned (p : Program) (s u : Checker) (id : ExprId) (target : Ty) : Prop :=
  match p.source.expr id with
  | .list items => ∃ members, target = .tuple members none
      ∧ ∀ before part after, items = before ++ .member part :: after →
        ItemPositioned p s u id members before part after
  | .record fields => ∃ targets, target = .sealedRecord targets
      ∧ ∀ field ∈ fields, ∀ name part, Placement.Writes p.source field (some name) part →
        name ∉ keyNamesOf u.keyName fields → FieldPositioned p u targets name part
  | _ => True

section Positioning

variable {p : Program} {given : ConstId → Ty} {scope : ScopeId} {s t u : Checker} {id : ExprId}

theorem Place.Done.agrees {place : Place} (h : place.Done p given scope false s t)
    (hagrees : Agrees p.source place.slot.part t u) : place.Done p given scope false s u :=
  ⟨fun hnone => (h.kept hnone).trans hagrees,
    fun target htarget => (h.achieved target htarget).agrees hagrees⟩

/-- **The items of a list stand where they were put**, once each has been given its target. -/
theorem Suited.positioned_list {items : List ListItem} {results : List Ty}
    (h : Suited p given scope s id (.tuple results none)) (hexpr : p.source.expr id = .list items)
    (hfirm : Firm p given scope id)
    (hdone : ∀ place ∈ itemPlaces s (Ty.position? results none) 0 items,
      place.Done p given scope false s u) : Positioned p s u id (.tuple results none) := by
  obtain ⟨members, heq, hwhole, hitems⟩ := h.list hexpr rfl
  cases heq
  rw [Positioned, hexpr]
  refine ⟨results, rfl, ?_⟩
  rintro before part after rfl
  obtain ⟨result, hresult, hrestates⟩ := hitems before part after rfl
  obtain ⟨own, hown, -⟩ := hrestates.2
  have hslots := map_slot_itemPlaces s (Ty.position? results none) 0 (before ++ .member part :: after)
  -- the lists that are spread before the item are still what they were
  have hoffset : u.offset before = s.offset before := by
    refine offset_congr fun operand hoperand => ?_
    have hslot : ⟨operand, false⟩ ∈ (before ++ .member part :: after).map ListItem.slot :=
      List.mem_map.mpr ⟨.spread operand, List.mem_append_left _ hoperand, rfl⟩
    rw [← hslots] at hslot
    obtain ⟨place, hplace, heq⟩ := List.mem_map.mp hslot
    cases place with
    | plain other =>
      cases heq
      exact ((hdone _ hplace).kept rfl).types operand .refl
    | guided other lasts ty => cases heq
  refine ⟨⟨own, hown, ?_⟩, by rw [length_flatMap_contribution, hoffset], fun hscalar => ?_⟩
  · rw [hwhole, List.flatMap_append, List.flatMap_cons, contribution, hown]
    rfl
  · have hposition : Ty.position? results none (0 + s.offset before) = some result := by
      rw [Nat.zero_add, Ty.position?, hresult, Option.some_or]
    have hpart : p.source.Part id part := (Module.part_list_iff hexpr).mpr
      ⟨.member part, List.mem_append_right _ List.mem_cons_self, rfl⟩
    have hplace := mem_itemPlaces s (Ty.position? results none) before part after 0
    rw [hposition] at hplace
    obtain ⟨-, htaken⟩ := (hdone _ hplace).achieved result rfl hrestates.1 rfl (hfirm.part hpart)
    obtain ⟨v, w, hv, rfl, hsame⟩ :=
      hrestates.same (hrestates.1.isError (hfirm.part hpart)) htaken hscalar
    exact ⟨v, w, hv, by rw [hoffset]; exact hresult, hsame⟩

/-- The same for the fields of a record that are not computed. -/
theorem Suited.positioned_record {fields : List RecordField} {results : Fields none}
    (h : Suited p given scope s id (.sealedRecord results))
    (hexpr : p.source.expr id = .record fields) (hfirm : Firm p given scope id)
    (hdone : ∀ place ∈ recordPlaces p.source s results (keyNamesOf s.keyName fields) fields,
      place.Done p given scope false s u) : Positioned p s u id (.sealedRecord results) := by
  obtain ⟨targets, heq, hfields⟩ := h.record hexpr rfl
  cases heq
  rw [Positioned, hexpr]
  refine ⟨results, rfl, fun field hfield name part hwrites hfree hscalar => ?_⟩
  have hslots : (recordPlaces p.source s results (keyNamesOf s.keyName fields) fields).map Place.slot
      = fields.flatMap RecordField.slots := map_slot_recordPlaces
  -- the keys are still what they were
  have hkeys : keyNamesOf u.keyName fields = keyNamesOf s.keyName fields := by
    refine keyNamesOf_congr fun key hkey => ?_
    have hslot : ⟨key, false⟩ ∈ fields.flatMap RecordField.slots :=
      Expr.slot_of_mem_keys (e := .record fields) hkey
    rw [← hslots] at hslot
    obtain ⟨place, hplace, heq⟩ := List.mem_map.mp hslot
    cases place with
    | plain other =>
      cases heq
      exact keyName_congr ((hdone _ hplace).kept rfl) .refl
    | guided other lasts ty => cases heq
  have hplace : .guided part true
      (writtenTarget s results (keyNamesOf s.keyName fields) (some name) part)
      ∈ recordPlaces p.source s results (keyNamesOf s.keyName fields) fields :=
    mem_recordPlaces hfield hwrites
  have hwritten : writtenTarget s results (keyNamesOf s.keyName fields) (some name) part
      = (results.get? name).map Field.ty := by
    rw [hkeys] at hfree
    rw [writtenTarget, if_neg (by simpa using hfree)]
    rfl
  have hpart : p.source.Part id part := by
    have hslot := List.mem_map_of_mem (f := Place.slot) hplace
    rw [hslots] at hslot
    rw [Module.Part, hexpr]
    exact Expr.part_mem_children (e := .record fields) hslot
  obtain ⟨targets, heq, hsound⟩ := h.1.record hexpr rfl
  cases heq
  obtain ⟨result, hresult, haims⟩ := hsound _ hplace rfl
  rw [hresult] at hplace
  obtain ⟨target, htarget, rfl⟩ := Option.map_eq_some_iff.mp (hwritten.symm.trans hresult)
  obtain ⟨-, htaken⟩ := (hdone _ hplace).achieved _ rfl haims rfl (hfirm.part hpart)
  obtain ⟨v, w, hv, hw, hsame⟩ :=
    (hfields part _ hplace).same (haims.isError (hfirm.part hpart)) htaken hscalar
  exact ⟨v, target, w, hv, htarget, hw, hsame⟩

end Positioning

end ConstNarrow
