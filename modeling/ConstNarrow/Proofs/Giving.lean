/-
**What a validation gives**, by the form of the expected type.

For each form there is one statement about the result, with both directions: from the results of the
parts to the result of the whole, and back. A union takes the first member that fits where the inferred
type is a list or a record. No choice among such results is decided by numeric kinds.
-/
import ConstNarrow.Proofs.Validated
import ConstNarrow.Proofs.ValidationReports

set_option autoImplicit false

namespace ConstNarrow

open Validation

theorem exists_forall₂ {α β : Type} {R : α → β → Prop} {l : List α} (h : ∀ a ∈ l, ∃ b, R a b) :
    ∃ m, List.Forall₂ R l m := by
  induction l with
  | nil => exact ⟨[], .nil⟩
  | cons a l ih =>
    obtain ⟨⟨b, hb⟩, hrest⟩ := List.forall_mem_cons.mp h
    obtain ⟨m, hm⟩ := ih hrest
    exact ⟨b :: m, .cons hb hm⟩

/-! ## Rows of fields -/

namespace Fields

theorem lt_of_get? {name : String} {fields : Fields (some name)} {key : String} {field : Field}
    (h : fields.get? key = some field) : name < key :=
  above_of_mem_names fields ((contains_iff_mem_names fields key).mp (by rw [contains, h]; rfl))

/-- Fields are the same if they are the same under each name. -/
theorem ext_get? {bound : Option String} :
    (a b : Fields bound) → (∀ key, a.get? key = b.get? key) → a = b
  | .nil, .nil, _ => rfl
  | .nil, .cons name _ _ _ _, h => by
    have hname := h name
    rw [get?_nil, get?, if_pos rfl] at hname
    cases hname
  | .cons name _ _ _ _, .nil, h => by
    have hname := h name
    rw [get?_nil, get?, if_pos rfl] at hname
    cases hname
  | .cons name above ty required tail, .cons other above' ty' required' tail', h => by
    have hmine := h name
    have hyours := h other
    rw [get?, if_pos rfl, get?] at hmine
    rw [get?, get?, if_pos rfl] at hyours
    -- a first name that the other row lacks would lie above itself
    have hname : name = other := by
      by_contra hne
      rw [if_neg hne] at hmine
      rw [if_neg (Ne.symm hne)] at hyours
      exact String.lt_irrefl name (String.lt_trans (lt_of_get? hyours) (lt_of_get? hmine.symm))
    subst hname
    rw [if_pos rfl] at hmine
    cases hmine
    refine congrArg _ (ext_get? tail tail' fun key => ?_)
    have hkey := h key
    rw [get?, get?] at hkey
    by_cases heq : key = name
    · subst heq
      have hnone : ∀ fields : Fields (some key), fields.get? key = none := by
        intro fields
        by_contra hsome
        obtain ⟨field, hfield⟩ := Option.ne_none_iff_exists'.mp hsome
        exact String.lt_irrefl key (lt_of_get? hfield)
      rw [hnone, hnone]
    · rwa [if_neg heq, if_neg heq] at hkey

end Fields

namespace Ty

/-- A sealed record is made from a list of its fields, in any order. -/
theorem sealedOf_eq {entries : List (String × Ty)} {fields : Fields none}
    (hnodup : (entries.map Prod.fst).Nodup)
    (h : ∀ entry ∈ entries, fields.get? entry.1 = some ⟨entry.2, true⟩)
    (hnames : ∀ name, fields.contains name = true → name ∈ entries.map Prod.fst) :
    sealedOf entries = sealedRecord fields := by
  refine congrArg sealedRecord (Fields.ext_get? _ _ fun name => ?_)
  by_cases hname : name ∈ entries.map Prod.fst
  · obtain ⟨entry, hentry, rfl⟩ := List.mem_map.mp hname
    exact (Fields.get?_ofList_required hnodup hentry).trans (h entry hentry).symm
  · have hnone : fields.get? name = none := by
      cases hget : fields.get? name with
      | none => rfl
      | some field => exact absurd (hnames name (by rw [Fields.contains, hget]; rfl)) hname
    exact (Fields.get?_ofList_required_of_not_mem hname).trans hnone.symm

end Ty

namespace Validation

variable {α β : Type} {v : Validation α} {site : Site}

/-! ## Results -/

namespace Told

protected theorem pure (a : α) : Told (pure a : Validation α) := ⟨_, _, .pure a⟩

protected theorem throw (e : NarrowError) : Told (throw e : Validation α) := ⟨_, _, .throw e⟩

protected theorem bind {f : α → Validation β} (hv : Told v) (hf : ∀ a, Told (f a)) :
    Told (v >>= f) := by
  obtain ⟨r, ds, hv⟩ := hv
  cases r with
  | error e => exact ⟨_, _, hv.bind_error⟩
  | ok a =>
    obtain ⟨r, es, hf⟩ := hf a
    exact ⟨_, _, hv.bind hf⟩

protected theorem mapM {f : α → Validation β} (hf : ∀ a, Told (f a)) (l : List α) :
    Told (l.mapM f) := by
  induction l with
  | nil =>
    rw [List.mapM_nil]
    exact .pure []
  | cons x l ih =>
    rw [List.mapM_cons]
    exact (hf x).bind fun _ => ih.bind fun _ => .pure _

end Told

/-- A validation succeeds with a result. -/
def Gives (v : Validation α) (a : α) : Prop := ∃ ds, Tells v (.ok a) ds

theorem Gives.unique {a b : α} (h : Gives v a) (h' : Gives v b) : b = a := by
  obtain ⟨ds, h⟩ := h
  obtain ⟨es, h'⟩ := h'
  cases (h.unique h').1
  rfl

theorem gives_iff_outcome (h : Told v) {a : α} : Gives v a ↔ outcome v = .ok a := by
  obtain ⟨r, ds, h⟩ := h
  constructor
  · rintro ⟨es, h'⟩
    exact h'.outcome_eq
  · intro heq
    rw [h.outcome_eq] at heq
    exact ⟨ds, heq ▸ h⟩

theorem gives_pure {a b : α} : Gives (pure a : Validation α) b ↔ b = a := by
  constructor
  · exact Gives.unique ⟨_, .pure a⟩
  · rintro rfl
    exact ⟨_, .pure b⟩

theorem not_gives_throw {e : NarrowError} {a : α} : ¬ Gives (throw e : Validation α) a := by
  rintro ⟨ds, h⟩
  cases (h.unique (.throw e)).1

theorem gives_bind {f : α → Validation β} (hv : Told v) (hf : ∀ a, Told (f a)) {b : β} :
    Gives (v >>= f) b ↔ ∃ a, Gives v a ∧ Gives (f a) b := by
  constructor
  · rintro ⟨ds, h⟩
    obtain ⟨r, es, hv⟩ := hv
    cases r with
    | error e => cases (h.unique hv.bind_error).1
    | ok a =>
      obtain ⟨r, fs, hf⟩ := hf a
      cases (h.unique (hv.bind hf)).1
      exact ⟨a, ⟨es, hv⟩, fs, hf⟩
  · rintro ⟨a, ⟨ds, hv⟩, es, hf⟩
    exact ⟨_, hv.bind hf⟩

theorem gives_mapM {f : α → Validation β} (hf : ∀ a, Told (f a)) {l : List α} {m : List β} :
    Gives (l.mapM f) m ↔ List.Forall₂ (fun a b => Gives (f a) b) l m := by
  induction l generalizing m with
  | nil => rw [List.mapM_nil, gives_pure, List.forall₂_nil_left_iff]
  | cons x l ih =>
    have hrest := Told.mapM hf l
    rw [List.mapM_cons, gives_bind (hf x) fun _ => hrest.bind fun _ => .pure _]
    constructor
    · rintro ⟨b, hb, h⟩
      obtain ⟨bs, hbs, h⟩ := (gives_bind hrest fun _ => .pure _).mp h
      rw [gives_pure.mp h]
      exact .cons hb (ih.mp hbs)
    · rintro (_ | ⟨hb, hbs⟩)
      exact ⟨_, hb, (gives_bind hrest fun _ => .pure _).mpr ⟨_, ih.mpr hbs, gives_pure.mpr rfl⟩⟩

/-! ## Filling -/

theorem gives_fill {ty value : Ty} : Gives (fill site ty) value ↔ ty.default = .ok value := by
  unfold fill
  cases ty.default with
  | ok d =>
    refine gives_pure.trans ⟨?_, ?_⟩
    · rintro rfl
      rfl
    · intro h
      cases h
      rfl
  | error part =>
    refine iff_of_false ?_ (by simp)
    cases site.anchor with
    | none =>
      rintro ⟨ds, h⟩
      cases (h.unique ((Tells.note _).bind (.throw _))).1
    | some location =>
      rintro ⟨ds, h⟩
      cases (h.unique ((Tells.report _).bind (.throw _))).1

theorem told_fill (site : Site) (ty : Ty) : Told (fill site ty) :=
  (announces_fill site ty : Announces site True _).told

/-- How many places of an array are open after so many members. -/
def missing : ArraySize → Nat → Nat
  | .closed n, count => n - count
  | _, _ => 0

/-- An array is filled up with the default of its element type. -/
theorem gives_padArray {elem : Ty} {size : ArraySize} {members results : List Ty} :
    Gives (padArray site elem size members) results ↔ ∃ fillers, results = members ++ fillers
      ∧ fillers.length = missing size members.length ∧ ∀ ty ∈ fillers, elem.default = .ok ty := by
  have hnone : Gives (pure members : Validation (List Ty)) results ↔ ∃ fillers,
      results = members ++ fillers ∧ fillers.length = 0 ∧ ∀ ty ∈ fillers, elem.default = .ok ty := by
    rw [gives_pure]
    constructor
    · rintro rfl
      exact ⟨[], (List.append_nil _).symm, rfl, by simp⟩
    · rintro ⟨fillers, rfl, hlength, -⟩
      rw [List.length_eq_zero_iff.mp hlength, List.append_nil]
  unfold padArray
  cases size with
  | unbounded | inferred => exact hnone
  | closed n =>
    dsimp only [missing]
    split
    · rw [gives_bind (told_fill site elem) fun _ => .pure _]
      constructor
      · rintro ⟨d, hd, h⟩
        refine ⟨List.replicate (n - members.length) d, gives_pure.mp h, List.length_replicate,
          fun ty hty => ?_⟩
        rw [List.eq_of_mem_replicate hty]
        exact gives_fill.mp hd
      · rintro ⟨fillers, rfl, hlength, hfillers⟩
        -- there is at least one filler, and all of them are the same default
        obtain ⟨d, hd⟩ := List.exists_mem_of_length_pos (l := fillers) (by omega)
        refine ⟨d, gives_fill.mpr (hfillers d hd), gives_pure.mpr ?_⟩
        refine congrArg _ (List.eq_replicate_iff.mpr ⟨hlength, fun ty hty => ?_⟩)
        cases (hfillers d hd).symm.trans (hfillers ty hty)
        rfl
    · rename_i hfull
      rw [Nat.sub_eq_zero_of_le (Nat.le_of_not_lt hfull)]
      exact hnone

/-! ## Lists and records -/

variable (site) in
/-- An expected type gives this result for an inferred one. -/
def Made (result expected inferred : Ty) : Prop := Gives (validate site expected inferred) result

theorem gives_validateOption {rest : Option Ty} {inferred result : Ty} :
    Gives (validateOption site rest inferred) result ↔ ∃ ty ∈ rest, Made site result ty inferred := by
  cases rest with
  | none => exact iff_of_false not_gives_throw (by simp)
  | some ty => simp [validateOption, Made]

theorem told_validateOption (site : Site) (rest : Option Ty) (inferred : Ty) :
    Told (validateOption site rest inferred) := by
  cases rest with
  | none => exact .throw _
  | some ty => exact told_validate site ty inferred

theorem told_validateMembers (site : Site) (expected : List Ty) (rest : Option Ty)
    (inferred : List Ty) :
    Told (validateMembers site expected (fun ty => validateOption site rest ty) inferred) := by
  induction expected generalizing inferred with
  | nil => exact .mapM (told_validateOption site rest) inferred
  | cons ty expected ih =>
    cases inferred with
    | nil => exact (told_fill site ty).bind fun _ => (ih []).bind fun _ => .pure _
    | cons first inferred =>
      exact (told_validate site ty first).bind fun _ => (ih inferred).bind fun _ => .pure _

/-- Members are made position by position. -/
theorem gives_validateMembers {expected : List Ty} {rest : Option Ty} {inferred results : List Ty} :
    Gives (validateMembers site expected (fun ty => validateOption site rest ty) inferred) results
      ↔ MembersMade (Made site) (fun value ty => ty.default = .ok value) rest expected inferred
        results := by
  induction expected generalizing inferred results with
  | nil =>
    rw [validateMembers, gives_mapM (told_validateOption site rest)]
    simp only [gives_validateOption]
    exact ⟨.further, fun h => by cases h; assumption⟩
  | cons ty expected ih =>
    have hrest := told_validateMembers site expected rest
    cases inferred with
    | nil =>
      rw [validateMembers, gives_bind (told_fill site ty) fun _ => (hrest []).bind fun _ => .pure _]
      constructor
      · rintro ⟨value, hvalue, h⟩
        obtain ⟨values, hvalues, h⟩ := (gives_bind (hrest []) fun _ => .pure _).mp h
        rw [gives_pure.mp h]
        exact .filled (gives_fill.mp hvalue) (ih.mp hvalues)
      · rintro (_ | ⟨hvalue, hvalues⟩ | _)
        exact ⟨_, gives_fill.mpr hvalue,
          (gives_bind (hrest []) fun _ => .pure _).mpr ⟨_, ih.mpr hvalues, gives_pure.mpr rfl⟩⟩
    | cons first inferred =>
      rw [validateMembers, gives_bind (told_validate site ty first)
        fun _ => (hrest inferred).bind fun _ => .pure _]
      constructor
      · rintro ⟨value, hvalue, h⟩
        obtain ⟨values, hvalues, h⟩ := (gives_bind (hrest inferred) fun _ => .pure _).mp h
        rw [gives_pure.mp h]
        exact .matched hvalue (ih.mp hvalues)
      · rintro (_ | _ | ⟨hvalue, hvalues⟩)
        exact ⟨_, hvalue,
          (gives_bind (hrest inferred) fun _ => .pure _).mpr ⟨_, ih.mpr hvalues, gives_pure.mpr rfl⟩⟩

/-- **Arrays**: a list that has room gives the results for its members, followed by defaults. -/
theorem gives_array {elem : Ty} {size : ArraySize} {members : List Ty} {rest : Option Ty} {result : Ty} :
    Gives (validate site (.array elem size) (.tuple members rest)) result
      ↔ hasRoom size members.length = true ∧ ∃ results fillers,
        List.Forall₂ (fun ty result => Made site result elem ty) members results
        ∧ fillers.length = missing size members.length ∧ (∀ ty ∈ fillers, elem.default = .ok ty)
        ∧ result = .tuple (results ++ fillers) none := by
  have htold := told_validate site elem
  have hpad : ∀ results, Told (padArray site elem size results) := fun results =>
    (announces_padArray site elem size results : Announces site True _).told
  show Gives (if hasRoom size members.length = true then _ else _) result ↔ _
  split
  · rename_i hroom
    rw [gives_bind (.mapM htold members) fun _ => (hpad _).bind fun _ => .pure _]
    simp only [gives_mapM htold, gives_bind (hpad _) fun _ => Told.pure _, gives_padArray, gives_pure,
      hroom, true_and]
    constructor
    · rintro ⟨results, hresults, _, ⟨fillers, rfl, hlength, hfillers⟩, rfl⟩
      refine ⟨results, fillers, hresults, ?_, hfillers, rfl⟩
      rw [hlength, hresults.length_eq]
    · rintro ⟨results, fillers, hresults, hlength, hfillers, rfl⟩
      refine ⟨results, hresults, _, ⟨fillers, rfl, ?_, hfillers⟩, rfl⟩
      rw [hlength, hresults.length_eq]
  · rename_i hroom
    exact iff_of_false not_gives_throw fun h => hroom h.1

/-- **Tuples**: a list gives the results for its members, place by place. -/
theorem gives_tuple {expected members : List Ty} {rest inferredRest : Option Ty} {result : Ty} :
    Gives (validate site (.tuple expected rest) (.tuple members inferredRest)) result
      ↔ ∃ results, MembersMade (Made site) (fun value ty => ty.default = .ok value) rest expected
        members results ∧ result = .tuple results none := by
  show Gives (validateMembers site expected (fun ty => validateOption site rest ty) members
    >>= fun members => pure (Ty.tuple members none)) result ↔ _
  rw [gives_bind (told_validateMembers site expected rest members) fun _ => .pure _]
  simp only [gives_validateMembers, gives_pure]

/-- What an entry is made from. -/
theorem gives_entry {name : String} {v : Validation Ty} (hv : Told v) {entry : String × Ty} :
    Gives (do pure (name, ← v)) entry ↔ entry.1 = name ∧ Gives v entry.2 := by
  rw [gives_bind hv fun _ => .pure _]
  simp only [gives_pure]
  constructor
  · rintro ⟨ty, hty, rfl⟩
    exact ⟨rfl, hty⟩
  · rintro ⟨rfl, hty⟩
    exact ⟨entry.2, hty, rfl⟩

/-- **Maps**: a record gives the results for its fields, under their names. -/
theorem gives_map {constraint : Ty} {source : Fields none} {rest : Option Ty} {isSealed : Bool}
    {result : Ty} :
    Gives (validate site (.map constraint) (.record source rest isSealed)) result
      ↔ ∃ entries, List.Forall₂ (fun field entry => entry.1 = field.1
          ∧ Made site entry.2 constraint field.2.ty) source.toList entries
        ∧ result = .sealedOf entries := by
  have htold : ∀ field : String × Field,
      Told (do pure (field.1, ← validate site constraint field.2.ty)) := fun field =>
    (told_validate site constraint field.2.ty).bind fun _ => .pure _
  show Gives ((source.toList.mapM fun field => do
      pure (field.1, ← validate site constraint field.2.ty))
    >>= fun fields => pure (Ty.sealedOf fields)) result ↔ _
  rw [gives_bind (.mapM htold _) fun _ => .pure _]
  simp only [gives_mapM htold, gives_entry (told_validate site constraint _), gives_pure]
  rfl

theorem told_validateFields (site : Site) (source : Fields none) {bound : Option String} :
    (fields : Fields bound) → Told (validateFields site fields source)
  | .nil => .pure []
  | .cons name above ty required tail => by
    rw [validateFields]
    cases source.get? name with
    | none => exact .throw _
    | some field =>
      exact (told_validate site ty field.ty).bind fun _ =>
        (told_validateFields site source tail).bind fun _ => .pure _

theorem gives_validateFields {source : Fields none} {bound : Option String} :
    (fields : Fields bound) → {declared : List (String × Ty)} →
    (Gives (validateFields site fields source) declared
      ↔ List.Forall₂ (fun field entry => entry.1 = field.1
        ∧ ∃ own, source.get? field.1 = some own ∧ Made site entry.2 field.2.ty own.ty) fields.toList
        declared)
  | .nil, declared => by
    rw [validateFields, gives_pure, Fields.toList, List.forall₂_nil_left_iff]
  | .cons name above ty required tail, declared => by
    rw [validateFields, Fields.toList, List.forall₂_cons_left_iff]
    cases source.get? name with
    | none =>
      refine iff_of_false not_gives_throw ?_
      rintro ⟨entry, _, ⟨-, own, hown, -⟩, -⟩
      cases hown
    | some own =>
      have htail := told_validateFields site source tail
      rw [gives_bind (told_validate site ty own.ty) fun _ => htail.bind fun _ => .pure _]
      constructor
      · rintro ⟨value, hvalue, h⟩
        obtain ⟨values, hvalues, h⟩ := (gives_bind htail fun _ => .pure _).mp h
        exact ⟨(name, value), values, ⟨rfl, own, rfl, hvalue⟩,
          (gives_validateFields tail).mp hvalues, gives_pure.mp h⟩
      · rintro ⟨⟨key, value⟩, values, ⟨hname, other, hother, hvalue⟩, hvalues, rfl⟩
        cases hother
        exact ⟨value, hvalue, (gives_bind htail fun _ => .pure _).mpr
          ⟨values, (gives_validateFields tail).mpr hvalues,
            gives_pure.mpr (by rw [show key = name from hname])⟩⟩

/-- A type that validation neither looks through nor takes as an error. -/
structure Looked (ty : Ty) : Prop where
  effective : ty.effective = ty
  isError : ty.isError = false

theorem Looked.unlessError {ty : Ty} (h : Looked ty) (f : Ty → Validation Ty) :
    Validation.unlessError ty f = f ty := by
  rw [Validation.unlessError, h.effective, h.isError]
  rfl

theorem gives_narrow {ty result : Ty} : Gives (narrow ty) result ↔ result = ty.narrowed := by
  constructor
  · exact Gives.unique ⟨_, .narrow ty⟩
  · rintro rfl
    exact ⟨_, .narrow ty⟩

theorem gives_anydata {inferred result : Ty} (h : Looked inferred) :
    Gives (validate site .anydata inferred) result ↔ result = inferred.narrowed := by
  rw [validate, h.unlessError, gives_narrow]

theorem gives_json {inferred result : Ty} (h : Looked inferred) :
    Gives (validate site .json inferred) result
      ↔ inferred.isAssignable .json = true ∧ result = inferred.narrowed := by
  rw [validate, h.unlessError]
  split
  · rename_i hjson
    rw [gives_narrow]
    exact (and_iff_right hjson).symm
  · rename_i hjson
    exact iff_of_false not_gives_throw fun h => hjson h.1

/-- What is expected of the fields that a record does not name. -/
def furtherTy (rest : Option Ty) (isSealed : Bool) : Option Ty :=
  rest.or (if isSealed then none else some .anydata)

/-- How a record validates a field that it does not name. -/
def furtherEntry (site : Site) (rest : Option Ty) (isSealed : Bool) (field : String × Field) :
    Validation (String × Ty) :=
  match rest, isSealed with
  | none, false => do pure (field.1, ← narrow field.2.ty)
  | _, _ => do pure (field.1, ← validateOption site rest field.2.ty)

theorem told_furtherEntry (site : Site) (rest : Option Ty) (isSealed : Bool) (field : String × Field) :
    Told (furtherEntry site rest isSealed field) := by
  unfold furtherEntry
  split
  · exact Told.bind ⟨_, _, .narrow _⟩ fun _ => .pure _
  · exact (told_validateOption site rest field.2.ty).bind fun _ => .pure _

/-- A field that is not named gives a result by what is expected of further ones. -/
theorem gives_furtherEntry {rest : Option Ty} {isSealed : Bool} {field : String × Field}
    (h : Looked field.2.ty) {entry : String × Ty} :
    Gives (furtherEntry site rest isSealed field) entry
      ↔ entry.1 = field.1 ∧ ∃ ty ∈ furtherTy rest isSealed, Made site entry.2 ty field.2.ty := by
  have hnarrow : Told (narrow field.2.ty) := ⟨_, _, .narrow _⟩
  have hrest := told_validateOption site rest field.2.ty
  cases rest with
  | some ty =>
    show Gives (do pure (field.1, ← validateOption site (some ty) field.2.ty)) entry ↔ _
    rw [gives_entry hrest, gives_validateOption]
    rfl
  | none =>
    cases isSealed with
    | true =>
      show Gives (do pure (field.1, ← validateOption site none field.2.ty)) entry ↔ _
      rw [gives_entry hrest, gives_validateOption]
      rfl
    | false =>
      show Gives (do pure (field.1, ← narrow field.2.ty)) entry ↔ _
      rw [gives_entry hnarrow, gives_narrow]
      simp [furtherTy, Made, gives_anydata h]

/-- **Records**: those fields that are expected come first, and the others after them. -/
theorem gives_record_entries {expected source : Fields none} {rest sourceRest : Option Ty}
    {isSealed sourceSealed : Bool} {result : Ty} :
    Gives (validate site (.record expected rest isSealed) (.record source sourceRest sourceSealed)) result
      ↔ ∃ declared further,
        List.Forall₂ (fun field entry => entry.1 = field.1
          ∧ ∃ own, source.get? field.1 = some own ∧ Made site entry.2 field.2.ty own.ty)
          expected.toList declared
        ∧ List.Forall₂ (fun field entry => Gives (furtherEntry site rest isSealed field) entry)
          (source.toList.filter fun field => !expected.contains field.1) further
        ∧ result = .sealedOf (declared ++ further) := by
  have hfurther := told_furtherEntry site rest isSealed
  show Gives (validateFields site expected source >>= fun declared =>
    (source.toList.filter fun field => !expected.contains field.1).mapM
      (furtherEntry site rest isSealed) >>= fun further =>
    pure (Ty.sealedOf (declared ++ further))) result ↔ _
  rw [gives_bind (told_validateFields site source expected)
    fun _ => (Told.mapM hfurther _).bind fun _ => .pure _]
  refine exists_congr fun declared => ?_
  rw [gives_validateFields, gives_bind (.mapM hfurther _) fun _ => .pure _]
  simp only [gives_mapM hfurther, gives_pure]
  exact ⟨fun ⟨h, further, h'⟩ => ⟨further, h, h'⟩, fun ⟨further, h, h'⟩ => ⟨h, further, h'⟩⟩

theorem gives_record {expected source : Fields none} {rest sourceRest : Option Ty}
    {isSealed sourceSealed : Bool} (hsource : ∀ field ∈ source.toList, Looked field.2.ty) {result : Ty} :
    Gives (validate site (.record expected rest isSealed) (.record source sourceRest sourceSealed)) result
      ↔ ∃ declared further,
        List.Forall₂ (fun field entry => entry.1 = field.1
          ∧ ∃ own, source.get? field.1 = some own ∧ Made site entry.2 field.2.ty own.ty)
          expected.toList declared
        ∧ List.Forall₂ (fun field entry => entry.1 = field.1
          ∧ ∃ ty ∈ furtherTy rest isSealed, Made site entry.2 ty field.2.ty)
          (source.toList.filter fun field => !expected.contains field.1) further
        ∧ result = .sealedOf (declared ++ further) := by
  have hlooked := fun field (h : field ∈ source.toList.filter fun field => !expected.contains field.1) =>
    hsource field (List.mem_of_mem_filter h)
  rw [gives_record_entries]
  refine exists_congr fun declared => exists_congr fun further => and_congr_right fun _ =>
    and_congr_left fun _ => ⟨fun h => ?_, fun h => ?_⟩
  · exact forall₂_of_mem h fun field hfield _ => (gives_furtherEntry (hlooked field hfield)).mp
  · exact forall₂_of_mem h fun field hfield _ => (gives_furtherEntry (hlooked field hfield)).mpr

/-! ### By name -/

/-- Fields that are made from others, each under its name from what a place expects. -/
structure FieldsMade (site : Site) (place : String → Option Ty) (source fields : Fields none) : Prop where
  names : ∀ name, fields.contains name = source.contains name
  made : ∀ name field own, fields.get? name = some field → source.get? name = some own →
    field.required = true ∧ ∃ ty, place name = some ty ∧ Made site field.ty ty own.ty

theorem FieldsMade.exists_value {place : String → Option Ty} {source fields : Fields none}
    (h : FieldsMade site place source fields) {name : String} {own : Field}
    (hown : source.get? name = some own) : ∃ value ty, fields.get? name = some ⟨value, true⟩
      ∧ place name = some ty ∧ Made site value ty own.ty := by
  have hcontains : fields.contains name = true := by
    rw [h.names, Fields.contains, hown]
    rfl
  obtain ⟨⟨value, required⟩, hfield⟩ := Option.isSome_iff_exists.mp hcontains
  obtain ⟨rfl, ty, hty, hmade⟩ := h.made name _ own hfield hown
  exact ⟨value, ty, hfield, hty, hmade⟩

/-- The values for a row of names that the source has, as entries. -/
theorem FieldsMade.exists_entries {place : String → Option Ty} {source fields : Fields none}
    (h : FieldsMade site place source fields) (row : List (String × Field))
    (hrow : ∀ field ∈ row, source.contains field.1 = true) :
    ∃ entries : List (String × Ty), List.Forall₂ (fun field entry => entry.1 = field.1
      ∧ (∃ own ty, source.get? field.1 = some own ∧ place field.1 = some ty ∧ Made site entry.2 ty own.ty)
      ∧ fields.get? entry.1 = some ⟨entry.2, true⟩) row entries := by
  refine exists_forall₂ fun field hfield => ?_
  obtain ⟨own, hown⟩ := Option.isSome_iff_exists.mp (hrow field hfield)
  obtain ⟨value, ty, hvalue, hty, hmade⟩ := h.exists_value hown
  exact ⟨(field.1, value), rfl, ⟨own, ty, hown, hty, hmade⟩, hvalue⟩

theorem fieldsMade_of_entries {place : String → Option Ty} {source : Fields none}
    {entries : List (String × Ty)} (hnodup : (entries.map Prod.fst).Nodup)
    (hentries : ∀ entry ∈ entries, ∃ own ty, source.get? entry.1 = some own
      ∧ place entry.1 = some ty ∧ Made site entry.2 ty own.ty)
    (hnames : ∀ field ∈ source.toList, field.1 ∈ entries.map Prod.fst) :
    FieldsMade site place source
      (Fields.ofList (entries.map fun entry => (entry.1, ⟨entry.2, true⟩))) := by
  refine ⟨fun name => ?_, fun name field own hfield hown => ?_⟩
  · by_cases hname : name ∈ entries.map Prod.fst
    · obtain ⟨entry, hentry, rfl⟩ := List.mem_map.mp hname
      obtain ⟨own, -, hown, -⟩ := hentries entry hentry
      rw [Fields.contains, Fields.contains, Fields.get?_ofList_required hnodup hentry, hown]
      rfl
    · have hnone : source.get? name = none := by
        cases hget : source.get? name with
        | none => rfl
        | some own => exact absurd (hnames _ (Fields.mem_toList_of_get? source hget)) hname
      rw [Fields.contains, Fields.contains, Fields.get?_ofList_required_of_not_mem hname, hnone]
  · obtain ⟨entry, hentry, heq⟩ :=
      List.mem_map.mp (Fields.mem_of_mem_toList_ofList (Fields.mem_toList_of_get? _ hfield))
    cases heq
    obtain ⟨other, ty, hother, hty, hmade⟩ := hentries entry hentry
    cases hown.symm.trans hother
    exact ⟨rfl, ty, hty, hmade⟩

theorem made_map_iff {constraint : Ty} {source : Fields none} {rest : Option Ty} {isSealed : Bool}
    {result : Ty} :
    Made site result (.map constraint) (.record source rest isSealed)
      ↔ ∃ fields, FieldsMade site (fun _ => some constraint) source fields
        ∧ result = .sealedRecord fields := by
  rw [Made, gives_map]
  constructor
  · rintro ⟨entries, hentries, rfl⟩
    have hnames := map_fst_of_forall₂ hentries
    refine ⟨_, fieldsMade_of_entries (hnames ▸ source.nodup_names) (fun entry hentry => ?_)
      (fun field hfield => hnames ▸ List.mem_map_of_mem hfield), rfl⟩
    obtain ⟨field, hfield, hname, hmade⟩ := exists_of_mem_right hentries hentry
    exact ⟨field.2, constraint, hname ▸ Fields.get?_of_mem_toList source hfield, rfl, hmade⟩
  · rintro ⟨fields, h, rfl⟩
    obtain ⟨entries, hentries⟩ := h.exists_entries source.toList fun field hfield =>
      Fields.contains_of_mem_toList hfield
    have hnames := map_fst_of_forall₂ hentries
    refine ⟨entries, forall₂_of_mem hentries fun field hfield entry hentry => ?_, (Ty.sealedOf_eq
      (hnames ▸ source.nodup_names) (fun entry hentry => ?_) fun name hname => ?_).symm⟩
    · obtain ⟨hname, ⟨own, ty, hown, hty, hmade⟩, -⟩ := hentry
      cases (Fields.get?_of_mem_toList source hfield).symm.trans hown
      cases hty
      exact ⟨hname, hmade⟩
    · obtain ⟨field, -, -, -, hget⟩ := exists_of_mem_right hentries hentry
      exact hget
    · rw [hnames]
      exact (Fields.contains_iff_mem_names source name).mp (h.names name ▸ hname)

theorem field?_of_mem {expected : Fields none} {rest : Option Ty} {isSealed : Bool}
    {field : String × Field} (h : field ∈ expected.toList) :
    (Ty.record expected rest isSealed).field? field.1 = some field.2.ty := by
  rw [Ty.field?, Fields.get?_of_mem_toList expected h]

theorem field?_of_not_contains {expected : Fields none} {rest : Option Ty} {isSealed : Bool}
    {name : String} (h : expected.contains name = false) :
    (Ty.record expected rest isSealed).field? name = furtherTy rest isSealed := by
  rw [Ty.field?, Option.isSome_eq_false_iff.mp h |> Option.isNone_iff_eq_none.mp]
  rfl

/-- The entries for the fields of a record and for further fields have all names. -/
theorem mem_names_append {expected source : Fields none} {declared further : List (String × Ty)}
    {P Q : String × Field → String × Ty → Prop}
    (hdeclared : List.Forall₂ (fun field entry => entry.1 = field.1 ∧ P field entry) expected.toList
      declared)
    (hfurther : List.Forall₂ (fun field entry => entry.1 = field.1 ∧ Q field entry)
      (source.toList.filter fun field => !expected.contains field.1) further)
    {name : String} (hname : name ∈ source.names) : name ∈ (declared ++ further).map Prod.fst := by
  rw [List.map_append, map_fst_of_forall₂ hdeclared, map_fst_of_forall₂ hfurther, List.mem_append]
  cases hcontains : expected.contains name with
  | true => exact Or.inl ((Fields.contains_iff_mem_names expected name).mp hcontains)
  | false =>
    obtain ⟨field, hfield, rfl⟩ := List.mem_map.mp hname
    exact Or.inr (List.mem_map_of_mem (List.mem_filter.mpr ⟨hfield, by simp [hcontains]⟩))

/-- What a record gives, name by name: the order in which fields are validated is of no account. -/
theorem made_record_iff {expected source : Fields none} {rest sourceRest : Option Ty}
    {isSealed sourceSealed : Bool} (hsource : ∀ field ∈ source.toList, Looked field.2.ty) {result : Ty} :
    Made site result (.record expected rest isSealed) (.record source sourceRest sourceSealed)
      ↔ (∀ field ∈ expected.toList, source.contains field.1 = true)
        ∧ ∃ fields, FieldsMade site (Ty.record expected rest isSealed).field? source fields
          ∧ result = .sealedRecord fields := by
  rw [Made, gives_record hsource]
  constructor
  · rintro ⟨declared, further, hdeclared, hfurther, rfl⟩
    refine ⟨fun field hfield => ?_, _, fieldsMade_of_entries (nodup_names_append hdeclared hfurther)
      (fun entry hentry => ?_) (fun field hfield => ?_), rfl⟩
    · obtain ⟨entry, -, -, own, hown, -⟩ := exists_of_mem_right hdeclared.flip hfield
      rw [Fields.contains, hown]
      rfl
    · rcases List.mem_append.mp hentry with hentry | hentry
      · obtain ⟨field, hfield, hname, own, hown, hmade⟩ := exists_of_mem_right hdeclared hentry
        rw [hname]
        exact ⟨own, field.2.ty, hown, field?_of_mem hfield, hmade⟩
      · obtain ⟨field, hfield, hname, ty, hty, hmade⟩ := exists_of_mem_right hfurther hentry
        obtain ⟨hfield, hnot⟩ := List.mem_filter.mp hfield
        rw [hname, field?_of_not_contains (by simpa using hnot)]
        exact ⟨field.2, ty, Fields.get?_of_mem_toList source hfield, hty, hmade⟩
    · exact mem_names_append hdeclared hfurther (List.mem_map_of_mem hfield)
  · rintro ⟨hall, fields, h, rfl⟩
    obtain ⟨declared, hdeclared⟩ := h.exists_entries expected.toList hall
    obtain ⟨further, hfurther⟩ := h.exists_entries
      (source.toList.filter fun field => !expected.contains field.1)
      fun field hfield => Fields.contains_of_mem_toList (List.mem_of_mem_filter hfield)
    refine ⟨declared, further, forall₂_of_mem hdeclared fun field hfield entry hentry => ?_,
      forall₂_of_mem hfurther fun field hfield entry hentry => ?_,
      (Ty.sealedOf_eq (nodup_names_append hdeclared hfurther) (fun entry hentry => ?_)
        fun name hname => ?_).symm⟩
    · obtain ⟨hname, ⟨own, ty, hown, hty, hmade⟩, -⟩ := hentry
      cases (field?_of_mem hfield).symm.trans hty
      exact ⟨hname, own, hown, hmade⟩
    · obtain ⟨hname, ⟨own, ty, hown, hty, hmade⟩, -⟩ := hentry
      obtain ⟨hfield, hnot⟩ := List.mem_filter.mp hfield
      cases (Fields.get?_of_mem_toList source hfield).symm.trans hown
      rw [field?_of_not_contains (by simpa using hnot)] at hty
      exact ⟨hname, ty, hty, hmade⟩
    · rcases List.mem_append.mp hentry with hentry | hentry
      · obtain ⟨field, -, -, -, hget⟩ := exists_of_mem_right hdeclared hentry
        exact hget
      · obtain ⟨field, -, -, -, hget⟩ := exists_of_mem_right hfurther hentry
        exact hget
    · exact mem_names_append hdeclared hfurther
        ((Fields.contains_iff_mem_names source name).mp (h.names name ▸ hname))

/-! ## Alternatives -/

theorem fitting_cons (site : Site) (inferred member : Ty) (members found : List Ty) :
    fitting site inferred (member :: members) found = fitting site inferred members
      ((outcome (validate site member inferred)).toOption.elim found (Ty.addNew found)) := rfl

theorem fitting_append (site : Site) (inferred : Ty) (members others found : List Ty) :
    fitting site inferred (members ++ others) found
      = fitting site inferred others (fitting site inferred members found) := List.foldl_append

/-- What fits was found before, or is given by one of the members. -/
theorem mem_fitting {inferred : Ty} {members found : List Ty} {ty : Ty}
    (h : ty ∈ fitting site inferred members found) :
    ty ∈ found ∨ ∃ member ∈ members, Made site ty member inferred := by
  induction members generalizing found with
  | nil => exact Or.inl h
  | cons member members ih =>
    rw [fitting_cons] at h
    rcases ih h with h | ⟨other, hother, hmade⟩
    · cases houtcome : outcome (validate site member inferred) with
      | error e =>
        rw [houtcome] at h
        exact Or.inl h
      | ok result =>
        rw [houtcome] at h
        rcases mem_of_mem_addNew h with h | rfl
        · exact Or.inl h
        · exact Or.inr ⟨member, List.mem_cons_self,
            (gives_iff_outcome (told_validate site member inferred)).mpr houtcome⟩
    · exact Or.inr ⟨other, List.mem_cons_of_mem _ hother, hmade⟩

/-- What does not fit adds nothing to what does. -/
theorem fitting_of_not_made {inferred : Ty} {members : List Ty} (found : List Ty)
    (h : ∀ member ∈ members, ∀ ty, ¬ Made site ty member inferred) :
    fitting site inferred members found = found := by
  induction members generalizing found with
  | nil => rfl
  | cons member members ih =>
    obtain ⟨hfirst, hrest⟩ := List.forall_mem_cons.mp h
    rw [fitting_cons]
    cases houtcome : outcome (validate site member inferred) with
    | error e => exact ih found hrest
    | ok result =>
      exact absurd ((gives_iff_outcome (told_validate site member inferred)).mpr houtcome)
        (hfirst result)

/-- What has been found first stays first. -/
theorem exists_fitting_cons (site : Site) (inferred : Ty) (members : List Ty) (first : Ty)
    (found : List Ty) :
    ∃ rest, fitting site inferred members (first :: found) = first :: rest := by
  induction members generalizing found with
  | nil => exact ⟨found, rfl⟩
  | cons member members ih =>
    rw [fitting_cons]
    cases outcome (validate site member inferred) with
    | error e => exact ih found
    | ok result =>
      show ∃ rest, fitting site inferred members (Ty.addNew (first :: found) result) = first :: rest
      unfold Ty.addNew
      split
      · exact ih found
      · exact ih (found ++ [result])

theorem select_of_kind?_none {tys : List Ty} (h : ∀ ty ∈ tys, kind? ty = none)
    (selected : Option (Ty × NumericKind)) : select ⟨selected, true⟩ tys = none := by
  induction tys with
  | nil => rfl
  | cons ty tys ih =>
    obtain ⟨hfirst, hrest⟩ := List.forall_mem_cons.mp h
    rw [select, hfirst]
    exact ih hrest

/-- Among types that are no numbers the first is chosen. -/
theorem gives_choose_first {first : Ty} {rest : List Ty} (h : ∀ ty ∈ first :: rest, kind? ty = none) :
    Gives (choose site (first :: rest)) first := by
  by_cases hdecided : IsDecided (first :: rest)
  · cases rest with
    | nil => exact ⟨_, .pure first⟩
    | cons second rest =>
      obtain ⟨hfirst, hrest⟩ := List.forall_mem_cons.mp h
      refine absurd ?_ (hdecided.resolve_left (by simp))
      rw [select, hfirst]
      exact select_of_kind?_none hrest none
  · exact ⟨_, tells_choose_of_not_decided hdecided⟩

theorem mem_of_gives_choose {fitting : List Ty} {ty : Ty} (h : Gives (choose site fitting) ty) :
    ty ∈ fitting := by
  cases fitting with
  | nil => exact absurd h not_gives_throw
  | cons first rest =>
    by_cases hdecided : IsDecided (first :: rest)
    · obtain ⟨chosen, hchosen, htells⟩ := exists_tells_choose_of_decided site hdecided
      rw [Gives.unique ⟨_, htells⟩ h]
      exact hchosen
    · rw [Gives.unique ⟨_, tells_choose_of_not_decided hdecided⟩ h]
      exact List.mem_cons_self

/-- What a union gives is chosen from what fits. -/
theorem gives_union_iff {members : List Ty} {inferred result : Ty} (hlooked : Looked inferred) :
    Gives (validate site (.union members) inferred) result
      ↔ Gives (choose site (fitting site inferred members [])) result := by
  have heach := tells_validateEach (fun ty (_ : ty ∈ members) => told_validate site ty inferred) []
  have hchoose : ∀ found, Told (choose site found) := fun found =>
    (announces_choose site found id : Announces site False _).told
  rw [validate, hlooked.unlessError, gives_bind ⟨_, _, heach⟩ hchoose]
  constructor
  · rintro ⟨found, hfound, h⟩
    rwa [Gives.unique ⟨_, heach⟩ hfound] at h
  · exact fun h => ⟨_, ⟨_, heach⟩, h⟩

/-- A union gives what one of its members gives. -/
theorem exists_of_gives_union {members : List Ty} {inferred result : Ty} (hlooked : Looked inferred)
    (h : Gives (validate site (.union members) inferred) result) :
    ∃ member ∈ members, Made site result member inferred :=
  (mem_fitting (mem_of_gives_choose ((gives_union_iff hlooked).mp h))).resolve_left (by simp)

theorem exists_first {P : Ty → Prop} {members : List Ty} (h : ∃ member ∈ members, P member) :
    ∃ before member after, members = before ++ member :: after ∧ (∀ other ∈ before, ¬ P other)
      ∧ P member := by
  induction members with
  | nil => simp at h
  | cons first members ih =>
    by_cases hfirst : P first
    · exact ⟨[], first, members, rfl, by simp, hfirst⟩
    · obtain ⟨before, member, after, rfl, hbefore, hmember⟩ := ih (by simpa [hfirst] using h)
      exact ⟨first :: before, member, after, rfl, List.forall_mem_cons.mpr ⟨hfirst, hbefore⟩, hmember⟩

/-- **Of types that are no numbers, a union takes the first that fits.** -/
theorem gives_union {members : List Ty} {inferred result : Ty} (hlooked : Looked inferred)
    (hkind : ∀ member ∈ members, ∀ ty, Made site ty member inferred → kind? ty = none) :
    Gives (validate site (.union members) inferred) result
      ↔ ∃ before member after, members = before ++ member :: after
        ∧ (∀ other ∈ before, ¬ ∃ ty, Made site ty other inferred)
        ∧ Made site result member inferred := by
  have hfirst : ∀ before member after result, members = before ++ member :: after →
      (∀ other ∈ before, ¬ ∃ ty, Made site ty other inferred) → Made site result member inferred →
      Gives (validate site (.union members) inferred) result := by
    intro before member after result hmembers hbefore hmade
    -- the result of the first member that fits heads all that is found
    obtain ⟨rest, hrest⟩ := exists_fitting_cons site inferred after result []
    have hfitting : fitting site inferred members [] = result :: rest := by
      rw [hmembers, fitting_append,
        fitting_of_not_made [] fun other hother ty hty => hbefore other hother ⟨ty, hty⟩,
        fitting_cons, (gives_iff_outcome (told_validate site member inferred)).mp hmade]
      exact hrest
    rw [gives_union_iff hlooked, hfitting]
    refine gives_choose_first fun ty hty => ?_
    rw [← hfitting] at hty
    obtain ⟨other, hother, hty⟩ := (mem_fitting hty).resolve_left (by simp)
    exact hkind other hother ty hty
  constructor
  · intro h
    obtain ⟨other, hother, hmade⟩ := exists_of_gives_union hlooked h
    obtain ⟨before, member, after, hmembers, hbefore, ty, hty⟩ :=
      exists_first (P := fun member => ∃ ty, Made site ty member inferred) ⟨other, hother, result, hmade⟩
    cases (hfirst before member after ty hmembers hbefore hty).unique h
    exact ⟨before, member, after, hmembers, hbefore, hty⟩
  · rintro ⟨before, member, after, hmembers, hbefore, hmade⟩
    exact hfirst before member after result hmembers hbefore hmade

end Validation

/-! ## Structures give structures -/

namespace Ty

/-- Whether a type is a list or a record. -/
def isStructure : Ty → Bool
  | .tuple _ _ | .record _ _ _ => true
  | _ => false

variable {site : Site} {inferred result : Ty}

theorem looked_of_isStructure (h : inferred.isStructure = true) : Looked inferred := by
  cases inferred <;> first | exact ⟨rfl, rfl⟩ | cases h

theorem kind?_of_isStructure (h : result.isStructure = true) : kind? result = none := by
  cases result <;> first | rfl | cases h

/-- No single value is taken from a structure. -/
theorem not_made_of_isStructure (h : inferred.isStructure = true) {expected : Ty}
    (hexpected : (∃ p, expected = .primitive p) ∨ (∃ values, expected = .finite values)
      ∨ expected = .table) : ¬ Made site result expected inferred := by
  intro hmade
  rcases hexpected with ⟨p, rfl⟩ | ⟨values, rfl⟩ | rfl
  · cases inferred with
    | tuple | record => cases p <;> exact not_gives_throw hmade
    | _ => cases h
  · cases inferred with
    | tuple | record => exact not_gives_throw hmade
    | _ => cases h
  · cases inferred with
    | tuple | record => exact not_gives_throw hmade
    | _ => cases h

theorem isStructure_narrowed (h : inferred.isStructure = true) :
    inferred.narrowed.isStructure = true := by
  cases inferred <;> first | rfl | cases h

/-- **A type without errors makes a structure of a structure.** A union does as one of its members
does. -/
theorem isStructure_of_made {expected : Ty} (hexpected : expected.everywhere isNoError = true)
    (h : inferred.isStructure = true) (hmade : Made site result expected inferred) :
    result.isStructure = true := by
  induction expected using induction_parts generalizing result with
  | error => cases hexpected
  | reference name referred ih => exact ih (everywhere_reference.mp hexpected).2 hmade
  | intersection inner ih => exact ih (everywhere_intersection.mp hexpected).2 hmade
  | primitive p => exact absurd hmade (not_made_of_isStructure h (Or.inl ⟨p, rfl⟩))
  | finite values => exact absurd hmade (not_made_of_isStructure h (Or.inr (Or.inl ⟨values, rfl⟩)))
  | table => exact absurd hmade (not_made_of_isStructure h (Or.inr (Or.inr rfl)))
  | anydata =>
    rw [(gives_anydata (looked_of_isStructure h)).mp hmade]
    exact isStructure_narrowed h
  | json =>
    rw [((gives_json (looked_of_isStructure h)).mp hmade).2]
    exact isStructure_narrowed h
  | union members ih =>
    obtain ⟨member, hmember, hmade⟩ := exists_of_gives_union (looked_of_isStructure h) hmade
    exact ih member hmember ((everywhere_union.mp hexpected).2 member hmember) hmade
  | array elem size _ =>
    cases inferred with
    | tuple members rest =>
      obtain ⟨-, results, fillers, -, -, -, rfl⟩ := gives_array.mp hmade
      rfl
    | record => exact absurd hmade not_gives_throw
    | _ => cases h
  | tuple expected rest _ _ =>
    cases inferred with
    | tuple members inferredRest =>
      obtain ⟨results, -, rfl⟩ := gives_tuple.mp hmade
      rfl
    | record => exact absurd hmade not_gives_throw
    | _ => cases h
  | map constraint _ =>
    cases inferred with
    | record source rest isSealed =>
      obtain ⟨entries, -, rfl⟩ := gives_map.mp hmade
      rfl
    | tuple => exact absurd hmade not_gives_throw
    | _ => cases h
  | record expected rest isSealed _ _ =>
    cases inferred with
    | record source sourceRest sourceSealed =>
      obtain ⟨declared, further, -, -, rfl⟩ := gives_record_entries.mp hmade
      rfl
    | tuple => exact absurd hmade not_gives_throw
    | _ => cases h

end Ty

end ConstNarrow
