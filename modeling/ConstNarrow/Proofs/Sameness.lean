/-
**Sameness of types, form by form.**

Whether two types are the same is decided by a walk over both at once. Here it is said once what the
walk finds. A type is the same as the types of its own form whose parts are the same; members, values
and fields are compared one by one, and a rest type with a rest type. `IsSame` has one rule for each
form, and `same_iff` says that these are the rules of the walk. Where sameness is given, the other
modules go by these rules, so that they do not depend on how the walk is written.
-/
import ConstNarrow.Proofs.Concrete

set_option autoImplicit false

namespace ConstNarrow

/-! ## Rows that correspond -/

section Rows

variable {α β γ : Type} {R : α → β → Prop} {l : List α} {m : List β}

theorem exists_of_mem_right (h : List.Forall₂ R l m) {b : β} (hb : b ∈ m) : ∃ a ∈ l, R a b := by
  induction h with
  | nil => cases hb
  | @cons a b' l m hab _ ih =>
    rcases List.mem_cons.mp hb with rfl | hb
    · exact ⟨a, List.mem_cons_self, hab⟩
    · obtain ⟨a', ha', hr⟩ := ih hb
      exact ⟨a', List.mem_cons_of_mem _ ha', hr⟩

theorem forall₂_of_mem {S : α → β → Prop} (h : List.Forall₂ R l m)
    (himp : ∀ a ∈ l, ∀ b, R a b → S a b) : List.Forall₂ S l m := by
  induction h with
  | nil => exact .nil
  | cons hab _ ih =>
    exact .cons (himp _ List.mem_cons_self _ hab)
      (ih fun a ha => himp a (List.mem_cons_of_mem _ ha))

/-- Entries made from fields under the same names have these names in the same order. -/
theorem map_fst_of_forall₂ {P : String × α → String × β → Prop} {fields : List (String × α)}
    {entries : List (String × β)}
    (h : List.Forall₂ (fun field entry => entry.1 = field.1 ∧ P field entry) fields entries) :
    entries.map Prod.fst = fields.map Prod.fst := by
  induction h with
  | nil => rfl
  | cons hfirst _ ih => rw [List.map_cons, List.map_cons, hfirst.1, ih]

/-- What holds of everything that corresponds to an element of one row holds of all of the other. -/
theorem forall_of_forall₂ {good : β → Prop} (h : List.Forall₂ R l m)
    (hgood : ∀ a ∈ l, ∀ b, R a b → good b) : ∀ b ∈ m, good b := by
  intro b hb
  obtain ⟨a, ha, hab⟩ := exists_of_mem_right h hb
  exact hgood a ha b hab

theorem forall_of_rel {good : β → Prop} {a : Option α} {b : Option β} (h : Option.Rel R a b)
    (hgood : ∀ x ∈ a, ∀ y, R x y → good y) : ∀ y ∈ b, good y := by
  cases h with
  | none => exact fun y hy => by cases hy
  | @some x y hxy => exact fun z hz => by cases hz; exact hgood x rfl y hxy

theorem rel_self {S : α → α → Prop} {a : Option α} (h : ∀ x ∈ a, S x x) : Option.Rel S a a := by
  cases a with
  | none => exact .none
  | some x => exact .some (h x rfl)

/-- Two rows that correspond to one row correspond to each other, if this is so for their elements. -/
theorem forall₂_of_common {S : α → γ → Prop} {T : β → γ → Prop} {n : List γ}
    (h : ∀ a ∈ l, ∀ b c, R a b → S a c → T b c) (hm : List.Forall₂ R l m)
    (hn : List.Forall₂ S l n) : List.Forall₂ T m n := by
  induction hm generalizing n with
  | nil =>
    cases hn
    exact .nil
  | cons hab _ ih =>
    cases hn with
    | cons hac htail =>
      exact .cons (h _ List.mem_cons_self _ _ hab hac)
        (ih (fun a ha => h a (List.mem_cons_of_mem _ ha)) htail)

/-- Two rows correspond if the rows that they correspond to do. -/
theorem forall₂_of_square {δ : Type} {S : γ → δ → Prop} {T : β → δ → Prop} {U : α → γ → Prop}
    {n : List γ} {k : List δ} (h : ∀ a ∈ l, ∀ c ∈ n, ∀ b d, R a b → S c d → T b d → U a c)
    (hm : List.Forall₂ R l m) (hn : List.Forall₂ S n k) (hmk : List.Forall₂ T m k) :
    List.Forall₂ U l n := by
  induction hm generalizing n k with
  | nil =>
    cases hmk
    cases hn
    exact .nil
  | cons hab _ ih =>
    cases hmk with
    | cons hbd hmk =>
      cases hn with
      | cons hcd hn =>
        exact .cons (h _ List.mem_cons_self _ List.mem_cons_self _ _ hab hcd hbd)
          (ih (fun a ha c hc => h a (List.mem_cons_of_mem _ ha) c (List.mem_cons_of_mem _ hc)) hn hmk)

/-- What is related to the same things is related. -/
theorem rel_of_common {S : α → γ → Prop} {T : β → γ → Prop} {a : Option α} {b : Option β}
    {c : Option γ} (h : ∀ x ∈ a, ∀ y z, R x y → S x z → T y z) (hb : Option.Rel R a b)
    (hc : Option.Rel S a c) : Option.Rel T b c := by
  cases hb with
  | none =>
    cases hc
    exact .none
  | some hxy =>
    cases hc with
    | some hxz => exact .some (h _ rfl _ _ hxy hxz)

end Rows

namespace Ty

/-! ## The walk over rows -/

/-- That two types are the same. -/
abbrev AreSame (ty other : Ty) : Prop := ty.same other = true

/-- That two fields have one name, and the same type, and are both required or both not. -/
def SameField (entry other : String × Field) : Prop :=
  entry.1 = other.1 ∧ entry.2.required = other.2.required ∧ entry.2.ty.AreSame other.2.ty

theorem sameList_iff {tys others : List Ty} :
    sameList tys others = true ↔ List.Forall₂ AreSame tys others := by
  induction tys generalizing others with
  | nil => cases others <;> simp [sameList]
  | cons ty tys ih => cases others <;> simp [sameList, ih]

theorem sameOption_iff {rest other : Option Ty} :
    sameOption rest other = true ↔ Option.Rel AreSame rest other := by
  constructor
  · intro h
    cases rest with
    | none =>
      cases other with
      | none => exact .none
      | some ty => cases h
    | some ty =>
      cases other with
      | none => cases h
      | some other => exact .some h
  · intro h
    cases h with
    | none => rfl
    | some h => exact h

/-- Fields are the same one by one, with their names and whether they are required. -/
theorem sameFields_iff {b c : Option String} : (fields : Fields b) → (others : Fields c) →
    (sameFields fields others = true ↔ List.Forall₂ SameField fields.toList others.toList)
  | .nil, .nil => by simp [sameFields, Fields.toList]
  | .nil, .cons _ _ _ _ _ => by simp [sameFields, Fields.toList]
  | .cons _ _ _ _ _, .nil => by simp [sameFields, Fields.toList]
  | .cons _ _ _ _ tail, .cons _ _ _ _ others => by
    simp [sameFields, Fields.toList, SameField, sameFields_iff tail others, and_assoc]

/-- Rows of fields that are the same have the same under each name, or both have nothing. -/
theorem rel_get? {b c : Option String} : (fields : Fields b) → (others : Fields c) →
    List.Forall₂ SameField fields.toList others.toList → (name : String) →
    Option.Rel (fun field other => field.required = other.required ∧ field.ty.AreSame other.ty)
      (fields.get? name) (others.get? name)
  | .nil, .nil, _, _ => .none
  | .nil, .cons _ _ _ _ _, h, _ => by cases h
  | .cons _ _ _ _ _, .nil, h, _ => by cases h
  | .cons first _ ty required tail, .cons key _ other required' others, h, name => by
    obtain ⟨⟨hname, hfield⟩, htail⟩ := List.forall₂_cons.mp h
    obtain rfl : first = key := hname
    rw [Fields.get?, Fields.get?]
    split
    · exact .some hfield
    · exact rel_get? tail others htail name

theorem beq_values_iff {values others : List Singleton} :
    (values == others) = true ↔ List.Forall₂ (fun s t => s.same t = true) values others := by
  induction values generalizing others with
  | nil => cases others <;> simp
  | cons s values ih =>
    cases others with
    | nil => simp
    | cons t others =>
      rw [List.cons_beq_cons, Bool.and_eq_true, ih, List.forall₂_cons]
      rfl

/-! ## The forms -/

/-- **Sameness by its rules**: both types have one form, and their parts are the same. -/
inductive IsSame : Ty → Ty → Prop where
  | primitive (p : Primitive) : IsSame (.primitive p) (.primitive p)
  | array {elem other : Ty} (size : ArraySize) (h : elem.AreSame other) :
    IsSame (.array elem size) (.array other size)
  | tuple {members others : List Ty} {rest other : Option Ty} (h : List.Forall₂ AreSame members others)
    (hrest : Option.Rel AreSame rest other) : IsSame (.tuple members rest) (.tuple others other)
  | record {fields others : Fields none} {rest other : Option Ty} (isSealed : Bool)
    (h : List.Forall₂ SameField fields.toList others.toList) (hrest : Option.Rel AreSame rest other) :
    IsSame (.record fields rest isSealed) (.record others other isSealed)
  | map {constraint other : Ty} (h : constraint.AreSame other) : IsSame (.map constraint) (.map other)
  | table : IsSame .table .table
  | anydata : IsSame .anydata .anydata
  | json : IsSame .json .json
  | union {members others : List Ty} (h : List.Forall₂ AreSame members others) :
    IsSame (.union members) (.union others)
  | finite {values others : List Singleton}
    (h : List.Forall₂ (fun s t => s.same t = true) values others) :
    IsSame (.finite values) (.finite others)
  | reference (name : String) {referred other : Ty} (h : referred.AreSame other) :
    IsSame (.reference name referred) (.reference name other)
  | intersection {inner other : Ty} (h : inner.AreSame other) :
    IsSame (.intersection inner) (.intersection other)
  | error : IsSame .error .error

/-- Types that are the same are so by one of the rules. -/
theorem isSame_of_same {ty other : Ty} (h : ty.AreSame other) : IsSame ty other := by
  -- the walk says no wherever the forms differ
  cases ty with
  | primitive p =>
    cases other with
    | primitive q => exact beq_iff_eq.mp h ▸ .primitive p
    | _ => cases h
  | array elem size =>
    cases other with
    | array elem' size' =>
      obtain ⟨helem, hsize⟩ := Bool.and_eq_true_iff.mp h
      exact beq_iff_eq.mp hsize ▸ .array size helem
    | _ => cases h
  | tuple members rest =>
    cases other with
    | tuple members' rest' =>
      obtain ⟨hmembers, hrest⟩ := Bool.and_eq_true_iff.mp h
      exact .tuple (sameList_iff.mp hmembers) (sameOption_iff.mp hrest)
    | _ => cases h
  | record fields rest isSealed =>
    cases other with
    | record fields' rest' isSealed' =>
      obtain ⟨hparts, hsealed⟩ := Bool.and_eq_true_iff.mp h
      obtain ⟨hfields, hrest⟩ := Bool.and_eq_true_iff.mp hparts
      exact beq_iff_eq.mp hsealed ▸
        .record isSealed ((sameFields_iff fields fields').mp hfields) (sameOption_iff.mp hrest)
    | _ => cases h
  | map constraint =>
    cases other with
    | map constraint' => exact .map h
    | _ => cases h
  | union members =>
    cases other with
    | union members' => exact .union (sameList_iff.mp h)
    | _ => cases h
  | finite values =>
    cases other with
    | finite values' => exact .finite (beq_values_iff.mp h)
    | _ => cases h
  | reference name referred =>
    cases other with
    | reference name' referred' =>
      obtain ⟨hname, hreferred⟩ := Bool.and_eq_true_iff.mp h
      exact beq_iff_eq.mp hname ▸ .reference name hreferred
    | _ => cases h
  | intersection inner =>
    cases other with
    | intersection inner' => exact .intersection h
    | _ => cases h
  | table =>
    cases other with
    | table => exact .table
    | _ => cases h
  | anydata =>
    cases other with
    | anydata => exact .anydata
    | _ => cases h
  | json =>
    cases other with
    | json => exact .json
    | _ => cases h
  | error =>
    cases other with
    | error => exact .error
    | _ => cases h

/-- **The walk decides sameness by the rules.** -/
theorem same_iff {ty other : Ty} : ty.AreSame other ↔ IsSame ty other := by
  refine ⟨isSame_of_same, fun h => ?_⟩
  cases h with
  | primitive p => exact beq_self_eq_true p
  | array size h => exact Bool.and_eq_true_iff.mpr ⟨h, beq_self_eq_true size⟩
  | tuple h hrest => exact Bool.and_eq_true_iff.mpr ⟨sameList_iff.mpr h, sameOption_iff.mpr hrest⟩
  | record isSealed h hrest =>
    refine Bool.and_eq_true_iff.mpr ⟨Bool.and_eq_true_iff.mpr ⟨?_, ?_⟩, beq_self_eq_true isSealed⟩
    · exact (sameFields_iff _ _).mpr h
    · exact sameOption_iff.mpr hrest
  | map h | intersection h => exact h
  | union h => exact sameList_iff.mpr h
  | finite h => exact beq_values_iff.mpr h
  | reference name h => exact Bool.and_eq_true_iff.mpr ⟨beq_self_eq_true name, h⟩
  | table | anydata | json | error => rfl

end Ty

end ConstNarrow
