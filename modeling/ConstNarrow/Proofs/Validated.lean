/-
**What validation gives back**: a type that the expected one accepts, and a reading of what was
inferred.

The first is said by a standard, with the laws of assignability for its laws. It asks nothing of the
inferred type. The second is said by a review. A value that is given back is one of the inferred
readings; a list keeps its members in their places, and what follows them is filled from the types of
the places where it stands; a record keeps its names. A place is where the expected type has one, so
that unions, names and broad types have to be looked through on the way.
-/
import ConstNarrow.Proofs.Refinement
import ConstNarrow.Checker.Resolve

set_option autoImplicit false

namespace ConstNarrow

open Validation Checker

/-! ## Assignability -/

/-- **The result of a validation is assignable to the expected type.** -/
def Standard.assignable : Standard fun _ => False where
  given := fun _ => True
  declarable := Ty.holdsProper
  meets := fun result expected => expected.accepts result = true
  lasts := fun _ _ _ h => h
  given_effective := fun _ _ => trivial
  given_error := fun _ expected => Ty.accepts_error expected
  given_tuple := fun _ _ _ _ _ => trivial
  given_record := fun _ _ _ _ _ _ => trivial
  declarable_error := fun _ => rfl
  default := fun _ _ hty h => Ty.accepts_default hty h
  reference := fun _ _ _ h => h
  intersection := fun _ _ h => h
  array := fun _ _ _ h hsize => Ty.array_accepts_tuple h hsize
  tuple := fun _ _ _ _ h hothers => Ty.tuple_accepts_tuple h hothers
  map := fun _ _ h => Ty.map_accepts_sealedOf h
  record := fun _ _ _ _ _ hdeclared hnodup hfurther =>
    Ty.record_accepts_append hdeclared hnodup fun entry hentry =>
      ⟨(hfurther entry hentry).1, (hfurther entry hentry).2.imp_left fun h => ⟨h.1, h.2.1⟩⟩
  union := fun members result ⟨ty, hmem, h⟩ => Ty.joins result members ty hmem h
  finite := fun values _ s hs =>
    Ty.accepts_singleton (.finite values)
      (List.any_eq_true.mpr ⟨s, hs, Singleton.sameValue_self s⟩)
  nil := rfl
  primitive := fun p inferred _ ty _ hfits => by
    unfold rebase
    split
    · rename_i s hs
      split
      · -- a single value takes the base `byte`, which fits
        rename_i hp
        subst hp
        exact Ty.accepts_singleton _ (by simp [Ty.admits, Singleton.fits, Singleton.withBase])
      · exact hfits
    · exact hfits
  anydata := fun inferred _ => Or.inl (Ty.anydata_accepts inferred.narrowed)
  json := fun inferred _ => Or.inl (Ty.json_accepts (Ty.isJson_narrowed inferred))

/-- A validation of the checker has a result in every state, and only the journal grows. -/
theorem Validation.Yields.exists_run {p : Program} {v : Site → Validation Ty} {P : Prop}
    {Q : Ty → Prop} (h : ∀ site, Yields (fun _ => False) P (v site) Q) (hP : P) (s : Checker) :
    ∃ outcome journal, (validation p v).run s = some (outcome, { s with journal })
      ∧ s.journal.Calm journal ∧ ∀ result, outcome = .ok result → Q result := by
  obtain ⟨outcome, houtcome⟩ := h ⟨s.anchor, p.settings.ambiguity⟩
  obtain ⟨journal, hrun, hcalm, -, hQ⟩ := houtcome s.journal
  refine ⟨outcome, journal, ?_, hcalm, fun result hresult => ?_⟩
  · show some (((v ⟨s.anchor, p.settings.ambiguity⟩).run s.journal).1,
      { s with journal := ((v ⟨s.anchor, p.settings.ambiguity⟩).run s.journal).2 }) = _
    rw [hrun]
  · exact (hQ (Or.inr hP) result hresult).resolve_left id

/-- **Validation is sound for assignability.** It comes to an end in every state, and if it gives a
type back then that type is assignable to the expected one, whatever was inferred. -/
theorem validType_isAssignable (p : Program) (s : Checker) (expected inferred : Ty)
    (hexpected : expected.everywhere Ty.holdsProper = true) :
    ∃ outcome t, (validType p expected inferred).run s = some (outcome, t)
      ∧ ∀ result, outcome = .ok result → result.isAssignable expected = true := by
  obtain ⟨outcome, journal, hrun, -, hresult⟩ := Yields.exists_run (p := p)
    (fun site => Standard.assignable.yields_validate site expected inferred) ⟨trivial, hexpected⟩ s
  exact ⟨outcome, _, hrun, hresult⟩

/-- A badge has three grades and a label, and may have anything else; or it is a map of strings. -/
def badge : Ty :=
  .reference "Badge" (.union [
    .record (.ofList [("grades", ⟨.array (.primitive .byte) (.closed 3), true⟩),
      ("label", ⟨.finite [.ofScalar (.string "gold"), .ofScalar (.string "tin")], true⟩)]) none false,
    .map (.primitive .string)])

/-- What is written for a badge: one grade, which may be read as an integer or as a decimal, the
label, and a year that the type does not name. -/
def engraving : Ty :=
  .sealedOf [("grades", .tuple [.union [.singleton (.ofScalar (.int 7)),
      .singleton (.ofScalar (.decimal ⟨7, 0⟩))]] none),
    ("label", .singleton (.ofScalar (.string "tin"))), ("year", .singleton (.ofScalar (.int 1999)))]

/-- The badge that comes out: the grade is a byte, and two grades are filled in. -/
def engraved : Ty :=
  .sealedOf [("grades", .tuple [.singleton ⟨.int 7, .byte⟩, .singleton ⟨.int 0, .byte⟩,
      .singleton ⟨.int 0, .byte⟩] none),
    ("label", .singleton (.ofScalar (.string "tin"))), ("year", .singleton (.ofScalar (.int 1999)))]

theorem run_engraving :
    (validType ⟨.empty, [], .default⟩ badge engraving).run .start = some (.ok engraved, .start) := rfl

theorem engraved_isAssignable : badge.everywhere Ty.holdsProper = true
    ∧ (validType ⟨.empty, [], .default⟩ badge engraving).run .start = some (.ok engraved, .start)
    ∧ engraved.isAssignable badge = true := by
  have hbadge : badge.everywhere Ty.holdsProper = true := rfl
  obtain ⟨outcome, t, hrun, hresult⟩ :=
    validType_isAssignable ⟨.empty, [], .default⟩ .start badge engraving hbadge
  cases run_engraving.symm.trans hrun
  exact ⟨hbadge, run_engraving, hresult engraved rfl⟩

/-! ## Readings -/

namespace Ty

/-- What a type comes to when names and immutability are looked through and one member of each union
is taken. -/
inductive Alternative : (expected alternative : Ty) → Prop where
  | self {ty : Ty} : Alternative ty ty
  | union {members : List Ty} {ty alternative : Ty} (hmem : ty ∈ members)
      (h : Alternative ty alternative) : Alternative (.union members) alternative
  | reference {name : String} {ty alternative : Ty} (h : Alternative ty alternative) :
      Alternative (.reference name ty) alternative
  | intersection {ty alternative : Ty} (h : Alternative ty alternative) :
      Alternative (.intersection ty) alternative

/-- What a type expects of the member at a position. -/
def member? : Ty → Nat → Option Ty
  | .array elem _, _ => some elem
  | .tuple members rest, i => position? members rest i
  | .anydata, _ => some .anydata
  | .json, _ => some .json
  | _, _ => none

/-- What a position is filled from, if a list ends before it: the element type of an array, or the
member of a tuple at that position. -/
def filler? : Ty → Nat → Option Ty
  | .array elem _, _ => some elem
  | .tuple members _, i => members[i]?
  | _, _ => none

/-- What a type expects of the field of a name. -/
def field? : Ty → String → Option Ty
  | .record fields rest isSealed, name =>
    match fields.get? name with
    | some field => some field.ty
    | none => rest.or (if isSealed then none else some .anydata)
  | .map constraint, _ => some constraint
  | .anydata, _ => some .anydata
  | .json, _ => some .json
  | _, _ => none

/-- A result reads what was inferred as something that is expected. A value is one of the inferred
readings. A list has the inferred members in their places, each read as what is expected there, and
after them only what `fills` their places. A record has the inferred names. -/
inductive Reads (fills : (value expected : Ty) → Prop) : (result expected inferred : Ty) → Prop where
  | value {expected inferred : Ty} {w s : Singleton} (hs : singleton s ∈ inferred.unionMembers)
      (hw : s.sameValue w = true) : Reads fills (singleton w) expected inferred
  | tuple {expected alternative : Ty} {members results fillers : List Ty} {rest : Option Ty}
      (halternative : Alternative expected alternative) (hlength : results.length = members.length)
      (hplaces : ∀ i < members.length, (alternative.member? i).isSome = true)
      (h : ∀ (i : Nat) (ty result member : Ty), alternative.member? i = some ty →
        results[i]? = some result → members[i]? = some member → Reads fills result ty member)
      (hfillers : ∀ (i : Nat) (filler : Ty), fillers[i]? = some filler →
        ∃ ty, alternative.filler? (members.length + i) = some ty ∧ fills filler ty) :
      Reads fills (.tuple (results ++ fillers) none) expected (.tuple members rest)
  | record {expected alternative : Ty} {results fields : Fields none} {rest : Option Ty}
      {isSealed : Bool} (halternative : Alternative expected alternative)
      (hnames : ∀ name, results.contains name = fields.contains name)
      (hplaces : ∀ name, fields.contains name = true → (alternative.field? name).isSome = true)
      (h : ∀ (name : String) (ty : Ty) (result field : Field), alternative.field? name = some ty →
        results.get? name = some result → fields.get? name = some field →
        Reads fills result.ty ty field.ty) :
      Reads fills (sealedRecord results) expected (.record fields rest isSealed)

namespace Reads

variable {fills : (value expected : Ty) → Prop} {result expected inferred : Ty}

/-- What is a reading under an expectation is one under any that has the same alternatives and
more. -/
theorem widen {wider : Ty} (h : Reads fills result expected inferred)
    (hwider : ∀ alternative, Alternative expected alternative → Alternative wider alternative) :
    Reads fills result wider inferred := by
  cases h with
  | value hs hw => exact .value hs hw
  | tuple halternative hlength hplaces h hfillers =>
    exact .tuple (hwider _ halternative) hlength hplaces h hfillers
  | record halternative hnames hplaces h =>
    exact .record (hwider _ halternative) hnames hplaces h

/-- A tuple is read if it has a place for each member, and that member is read there. -/
theorem ofTuple {members results fillers : List Ty} {rest : Option Ty}
    (hlength : results.length = members.length)
    (h : ∀ (i : Nat) (result member : Ty), results[i]? = some result → members[i]? = some member →
      ∃ ty, expected.member? i = some ty ∧ Reads fills result ty member)
    (hfillers : ∀ (i : Nat) (filler : Ty), fillers[i]? = some filler →
      ∃ ty, expected.filler? (members.length + i) = some ty ∧ fills filler ty) :
    Reads fills (.tuple (results ++ fillers) none) expected (.tuple members rest) := by
  refine .tuple .self hlength (fun i hi => ?_) (fun i ty result member hty hresult hmember => ?_)
    hfillers
  · obtain ⟨ty, hty, -⟩ := h i _ _ (List.getElem?_eq_getElem (hlength ▸ hi))
      (List.getElem?_eq_getElem hi)
    rw [hty]
    rfl
  · obtain ⟨ty', hty', hreads⟩ := h i result member hresult hmember
    cases hty.symm.trans hty'
    exact hreads

/-- A record is read if its entries have the names of the fields, and there is a place for each
field, and it is read there. -/
theorem ofEntries {source : Fields none} {rest : Option Ty} {isSealed : Bool}
    {entries : List (String × Ty)} (hnodup : (entries.map Prod.fst).Nodup)
    (hnames : ∀ entry ∈ entries, source.contains entry.1 = true)
    (h : ∀ field ∈ source.toList, ∃ value, (field.1, value) ∈ entries
      ∧ ∃ ty, expected.field? field.1 = some ty ∧ Reads fills value ty field.2.ty) :
    Reads fills (sealedOf entries) expected (.record source rest isSealed) := by
  have hget : ∀ name field, source.get? name = some field → ∃ value,
      (Fields.ofList (entries.map fun entry => (entry.1, ⟨entry.2, true⟩))).get? name
        = some ⟨value, true⟩ ∧ ∃ ty, expected.field? name = some ty ∧ Reads fills value ty field.ty := by
    intro name field hfield
    obtain ⟨value, hmem, hreads⟩ := h _ (Fields.mem_toList_of_get? source hfield)
    exact ⟨value, Fields.get?_ofList_required hnodup hmem, hreads⟩
  refine .record .self (fun name => ?_) (fun name hname => ?_)
    fun name ty result field hty hresult hfield => ?_
  · -- a name that is not inferred has no entry
    cases hfield : source.get? name with
    | some field =>
      obtain ⟨value, hvalue, -⟩ := hget name field hfield
      rw [Fields.contains, Fields.contains, hvalue, hfield]
      rfl
    | none =>
      have hnot : name ∉ entries.map Prod.fst := by
        intro hmem
        obtain ⟨entry, hentry, rfl⟩ := List.mem_map.mp hmem
        have hcontains := hnames entry hentry
        rw [Fields.contains, hfield] at hcontains
        cases hcontains
      rw [Fields.contains, Fields.contains, Fields.get?_ofList_required_of_not_mem hnot, hfield]
  · obtain ⟨field, hfield⟩ := Option.isSome_iff_exists.mp hname
    obtain ⟨-, -, ty, hty, -⟩ := hget name field hfield
    rw [hty]
    rfl
  · obtain ⟨value, hvalue, ty', hty', hreads⟩ := hget name field hfield
    cases hresult.symm.trans hvalue
    cases hty.symm.trans hty'
    exact hreads

end Reads

/-! ### Values -/

theorem Candidate.mem_unionMembers {inferred : Ty} (h : Candidate inferred) {readings : List Singleton}
    (hreadings : readings? inferred = some readings) {s : Singleton} (hs : s ∈ readings) :
    singleton s ∈ inferred.unionMembers := by
  cases h with
  | value _ =>
    cases hreadings
    rw [List.mem_singleton.mp hs]
    exact List.mem_cons_self
  | readings hne hall =>
    cases hreadings
    obtain ⟨ty, hty, hmem⟩ := List.mem_flatMap.mp hs
    obtain ⟨t, -, rfl⟩ := hall ty hty
    rw [List.mem_singleton.mp hmem]
    exact hty
  | tuple _ | record _ _ => cases hreadings

theorem Candidate.unionMembers_ne_nil {inferred : Ty} (h : Candidate inferred) :
    inferred.unionMembers ≠ [] := by
  cases h with
  | readings hne _ => exact hne
  | value _ | tuple _ | record _ _ => exact List.cons_ne_nil _ _

/-! ### Narrowing -/

/-- Narrowing a candidate reads it, under an expectation that is the same in all places. -/
theorem Candidate.reads_narrowed {fills : (value expected : Ty) → Prop} {inferred expected : Ty}
    (h : Candidate inferred) (hmember : ∀ i, expected.member? i = some expected)
    (hfield : ∀ name, expected.field? name = some expected) :
    Reads fills inferred.narrowed expected inferred := by
  induction h with
  | @value s hs => exact .value List.mem_cons_self (Singleton.sameValue_self s)
  | @readings members hne hall =>
    cases members with
    | nil => exact absurd rfl hne
    | cons first members =>
      obtain ⟨s, -, rfl⟩ := hall first List.mem_cons_self
      exact .value List.mem_cons_self (Singleton.sameValue_self s)
  | @tuple members _ ih =>
    rw [narrowed, narrowedOption, narrowedList_eq_map, ← List.append_nil (members.map narrowed)]
    refine .ofTuple (List.length_map _) (fun i result member hresult hmem => ?_)
      fun i filler hfiller => by cases hfiller
    rw [List.getElem?_map, hmem] at hresult
    cases hresult
    exact ⟨expected, hmember i, ih member (List.mem_of_getElem? hmem)⟩
  | @record fields _ _ ih =>
    rw [sealedRecord, narrowed, narrowedOption]
    refine .record .self (fun name => ?_) (fun name _ => ?_)
      fun name ty result field hty hresult hmem => ?_
    · rw [Fields.contains, Fields.get?_narrowedFields, Option.isSome_map]
      rfl
    · rw [hfield name]
      rfl
    · rw [Fields.get?_narrowedFields, hmem] at hresult
      cases hresult
      cases (hfield name).symm.trans hty
      exact ih _ (Fields.mem_toList_of_get? fields hmem)

end Ty

/-! ### Structures -/

/-- Of the members made for a tuple, the first ones stand for what was inferred, each in its place,
and all others fill theirs. -/
theorem MembersMade.places {meets : (result expected inferred : Ty) → Prop}
    {fills : (value expected : Ty) → Prop} {rest : Option Ty} {expected inferred results : List Ty}
    (h : MembersMade meets fills rest expected inferred results) :
    ∃ firsts fillers, results = firsts ++ fillers ∧ firsts.length = inferred.length
      ∧ (∀ (i : Nat) (result member : Ty), firsts[i]? = some result → inferred[i]? = some member →
        ∃ ty, Ty.position? expected rest i = some ty ∧ meets result ty member)
      ∧ ∀ (i : Nat) (filler : Ty), fillers[i]? = some filler →
        ∃ ty, expected[inferred.length + i]? = some ty ∧ fills filler ty := by
  induction h with
  | @further inferred results hall =>
    refine ⟨results, [], (List.append_nil _).symm, hall.length_eq.symm, ?_, ?_⟩
    · intro i result member hresult hmember
      obtain ⟨hi, rfl⟩ := List.getElem?_eq_some_iff.mp hmember
      obtain ⟨hj, rfl⟩ := List.getElem?_eq_some_iff.mp hresult
      obtain ⟨ty, hty, hmeets⟩ := hall.get hi hj
      exact ⟨ty, by simpa [Ty.position?] using hty, hmeets⟩
    · intro i filler hfiller
      cases hfiller
  | @filled ty value tys values hvalue _ ih =>
    obtain ⟨firsts, fillers, rfl, hlength, -, hfillers⟩ := ih
    -- nothing is inferred from here on, so that every result is a filler
    rw [List.eq_nil_of_length_eq_zero hlength, List.nil_append]
    refine ⟨[], value :: fillers, rfl, rfl, ?_, fun i filler hfiller => ?_⟩
    · intro i result member hresult
      cases hresult
    · cases i with
      | zero =>
        cases hfiller
        exact ⟨ty, rfl, hvalue⟩
      | succ i =>
        obtain ⟨ty', hty', hfills⟩ := hfillers i filler hfiller
        rw [List.length_nil, Nat.zero_add] at hty' ⊢
        exact ⟨ty', hty', hfills⟩
  | @matched ty first value tys inferred values hvalue _ ih =>
    obtain ⟨firsts, fillers, rfl, hlength, hfirsts, hfillers⟩ := ih
    refine ⟨value :: firsts, fillers, rfl, congrArg (· + 1) hlength, ?_, fun i filler hfiller => ?_⟩
    · intro i result member hresult hmember
      cases i with
      | zero =>
        cases hresult
        cases hmember
        exact ⟨ty, rfl, hvalue⟩
      | succ i => exact hfirsts i result member hresult hmember
    · obtain ⟨ty', hty', hfills⟩ := hfillers i filler hfiller
      refine ⟨ty', ?_, hfills⟩
      rw [List.length_cons, Nat.add_right_comm]
      exact hty'

/-- **Validation reads what was inferred.** -/
def Review.reading {fills : (value expected : Ty) → Prop}
    (hfills : ∀ ty value, ty.default = .ok value → fills value ty) : Review fun _ => False where
  given := Ty.Candidate
  declarable := Ty.isNoError
  meets := Ty.Reads fills
  fills := fills
  lasts := fun _ _ _ h => h
  given_effective := Ty.candidate_effective
  given_tuple := Ty.candidate_of_tuple
  given_record := Ty.candidate_of_record
  looked := fun _ _ _ hgiven h => hgiven.effective_eq ▸ h
  given_error := fun h => by cases h
  declarable_error := fun h => by cases h
  default := fun ty value _ h => hfills ty value h
  reference := fun _ _ _ _ h => h.widen fun _ => .reference
  intersection := fun _ _ _ h => h.widen fun _ => .intersection
  array := fun elem size inferred _ results fillers hresults hfillers _ => by
    refine .ofTuple hresults.length_eq.symm (fun i result member hresult hmember => ?_)
      fun i filler hfiller => ⟨elem, rfl, hfillers filler (List.mem_of_getElem? hfiller)⟩
    obtain ⟨hi, rfl⟩ := List.getElem?_eq_some_iff.mp hmember
    obtain ⟨hj, rfl⟩ := List.getElem?_eq_some_iff.mp hresult
    exact ⟨elem, rfl, hresults.get hi hj⟩
  tuple := fun _ _ _ _ _ h => by
    obtain ⟨firsts, fillers, rfl, hlength, hfirsts, hfillers⟩ := h.places
    exact .ofTuple hlength hfirsts hfillers
  map := fun constraint source _ _ entries h => by
    have hnames : entries.map Prod.fst = source.names := map_fst_of_forall₂ h
    refine .ofEntries (hnames ▸ Fields.nodup_names source) (fun entry hentry => ?_)
      fun field hfield => ?_
    · rw [Fields.contains_iff_mem_names, ← hnames]
      exact List.mem_map_of_mem hentry
    · obtain ⟨⟨name, value⟩, hentry, hname, hreads⟩ := exists_of_mem_right h.flip hfield
      cases hname
      exact ⟨value, hentry, constraint, rfl, hreads⟩
  record := fun fields rest isSealed source _ _ declared further hdeclared hfurther => by
    refine .ofEntries (nodup_names_append hdeclared hfurther) (fun entry hentry => ?_)
      fun field hfield => exists_entry
        (fun name result inferred => ∃ ty, (Ty.record fields rest isSealed).field? name = some ty
          ∧ Ty.Reads fills result ty inferred)
        (forall₂_of_mem hdeclared fun field hmem entry h => ⟨h.1, ?_⟩)
        (forall₂_of_mem hfurther fun field hmem entry h => ⟨h.1, ?_⟩) hfield
    · rcases List.mem_append.mp hentry with hentry | hentry
      · obtain ⟨_, -, hname, own, hown, -⟩ := exists_of_mem_right hdeclared hentry
        rw [Fields.contains, hname, hown]
        rfl
      · obtain ⟨field, hfield, hname, -⟩ := exists_of_mem_right hfurther hentry
        rw [hname]
        exact Fields.contains_of_mem_toList (List.mem_of_mem_filter hfield)
    · obtain ⟨own, hown, hreads⟩ := h.2
      refine ⟨own, hown, field.2.ty, ?_, hreads⟩
      rw [Ty.field?, Fields.get?_of_mem_toList fields hmem]
    · -- a field that the record does not name is for the rest type, if there is one
      have hnone : fields.get? field.1 = none := by
        simpa [Fields.contains] using (List.mem_filter.mp hmem).2
      rcases h.2 with ⟨rfl, rfl, hreads⟩ | ⟨ty, hty, hreads⟩
      · exact ⟨.anydata, by rw [Ty.field?, hnone]; rfl, hreads⟩
      · refine ⟨ty, ?_, hreads⟩
        rw [Ty.field?, hnone, Option.mem_def.mp hty]
        rfl
  union := fun _ _ _ ⟨_, hmem, h⟩ => h.widen fun _ => .union hmem
  finite := fun _ _ _ _ hgiven hreadings _ _ ⟨_, hreading, hsame⟩ =>
    .value (hgiven.mem_unionMembers hreadings hreading) hsame
  nil := fun inferred hgiven _ hfits => by
    -- any of the readings will do, since all of them are nil
    obtain ⟨ty, hty⟩ := List.exists_mem_of_ne_nil _ hgiven.unionMembers_ne_nil
    obtain ⟨s, rfl, hs, hnil⟩ := hgiven.exists_value hty (Ty.accepts_of_mem_unionMembers hfits hty)
    refine .value hty (Singleton.sameValue_nil hs ?_)
    rcases s with ⟨value, base⟩
    cases base <;> simp_all [Singleton.fits]
  primitive := fun p inferred hgiven _ ty hty hfits => by
    obtain ⟨s, rfl, hs, hp⟩ := hgiven.exists_value hty hfits
    -- a byte is the only type that gives a value another base
    by_cases hbyte : p = .byte
    · subst hbyte
      refine .value (w := s.withBase .byte) hty (Bool.and_eq_true_iff.mpr ⟨?_, ?_⟩)
      · exact Singleton.same_self s.value
      · exact beq_iff_eq.mpr (Singleton.rereads_withBase_byte hp).domain.symm
    · have hrebase : rebase p (Ty.singleton s) = Ty.singleton s := by
        simp [rebase, Ty.singleton?, Ty.singleton, hbyte]
      rw [hrebase]
      exact .value hty (Singleton.sameValue_self s)
  anydata := fun _ hgiven => Or.inl (hgiven.reads_narrowed (fun _ => rfl) fun _ => rfl)
  json := fun _ hgiven => Or.inl (hgiven.reads_narrowed (fun _ => rfl) fun _ => rfl)

/-- A default is what filling gives, in every state. -/
theorem run_fillValue {p : Program} {ty value : Ty} (h : ty.default = .ok value) (s : Checker) :
    (fillValue p ty).run s = some (.ok value, s) := by
  have hfill : ∀ site, Validation.fill site ty = pure value := by
    intro site
    rw [Validation.fill, h]
  show some (((Validation.fill ⟨s.anchor, p.settings.ambiguity⟩ ty).run s.journal).1,
    { s with journal := ((Validation.fill ⟨s.anchor, p.settings.ambiguity⟩ ty).run s.journal).2 }) = _
  rw [hfill]
  rfl

/-- **Validation never changes what was written.** It comes to an end in every state. If the expected
type holds no error and a type is given back for a candidate, then it reads the candidate; what it
has beyond that is what filling gives for the place where it stands. -/
theorem validType_reads (p : Program) (s : Checker) (expected inferred : Ty)
    (hexpected : expected.everywhere Ty.isNoError = true) (hinferred : inferred.Candidate) :
    ∃ outcome t, (validType p expected inferred).run s = some (outcome, t)
      ∧ ∀ result, outcome = .ok result → Ty.Reads
        (fun value ty => ∀ s, (fillValue p ty).run s = some (.ok value, s)) result expected inferred := by
  obtain ⟨outcome, journal, hrun, -, hresult⟩ := Yields.exists_run (p := p)
    (fun site => (Review.reading fun ty value => run_fillValue (p := p)).yields_validate site expected
      inferred) ⟨hinferred, hexpected⟩ s
  exact ⟨outcome, _, hrun, hresult⟩

theorem engraving_candidate : engraving.Candidate := by
  refine .record (fun entry hentry => ?_) fun entry hentry => ?_ <;>
    obtain ⟨⟨name, ty⟩, hmem, rfl⟩ := List.mem_map.mp (Fields.mem_of_mem_toList_ofList hentry)
  · rfl
  · simp only [List.mem_cons, List.not_mem_nil, or_false] at hmem
    rcases hmem with h | h | h <;> cases h
    · refine .tuple fun ty hty => List.mem_singleton.mp hty ▸ .readings (List.cons_ne_nil _ _) ?_
      intro ty hty
      simp only [List.mem_cons, List.not_mem_nil, or_false] at hty
      rcases hty with rfl | rfl
      · exact ⟨_, rfl, rfl⟩
      · exact ⟨_, rfl, rfl⟩
    · exact .value rfl
    · exact .value rfl

theorem engraved_reads : badge.everywhere Ty.isNoError = true ∧ engraving.Candidate
    ∧ (validType ⟨.empty, [], .default⟩ badge engraving).run .start = some (.ok engraved, .start)
    ∧ Ty.Reads (fun value ty =>
        ∀ s, (fillValue ⟨.empty, [], .default⟩ ty).run s = some (.ok value, s)) engraved badge engraving := by
  have hbadge : badge.everywhere Ty.isNoError = true := rfl
  obtain ⟨outcome, t, hrun, hresult⟩ :=
    validType_reads ⟨.empty, [], .default⟩ .start badge engraving hbadge engraving_candidate
  cases run_engraving.symm.trans hrun
  exact ⟨hbadge, engraving_candidate, run_engraving, hresult engraved rfl⟩

end ConstNarrow
