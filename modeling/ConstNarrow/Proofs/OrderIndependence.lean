/-
**The order of requests does not matter.**

A checker can be asked for single constants, or for all of them, any number of times and in any
order. Between two requests nothing is under way, so that what has been asked for is resolved, with
all that it needs. A group that lies on a cycle is therefore either untouched, and is then rejected
as a whole, or all of it has been rejected before, member by member. Either way each constant has
the type that it settles on, which says nothing of the order.
-/
import ConstNarrow.Proofs.OnDemand

set_option autoImplicit false

namespace ConstNarrow

open Checker

/-- What a checker may be asked for. -/
inductive Request where
  | constant (id : ConstId)
  | all
deriving DecidableEq, Repr

/-- That a constant is asked for by a request. -/
def Request.Asks : Request → ConstId → Prop
  | .constant id, c => id = c
  | .all, _ => True

/-- Does what is asked for. -/
def Checker.perform (p : Program) : Request → CheckM Unit
  | .constant id => do
    let _ ← resolve p id
  | .all => resolveAll p

/-- The state of a fresh checker after some requests. -/
def Program.session (p : Program) (requests : List Request) : Option Checker :=
  ((requests.forM (perform p)).run .start).map Prod.snd

variable {p : Program} {c : ConstId} {s s' : Checker}

/-! ## Between requests -/

/-- A state between two requests: nothing is under way. -/
structure Idle (p : Program) (s : Checker) : Prop where
  faithful : Faithful p s
  none_resolving : ∀ c, s.status.get? c ≠ some .resolving
  depth : s.depth = 0

theorem idle_start (p : Program) : Idle p .start where
  faithful := {
    unmuted := rfl
    bounded := fun _ h => absurd rfl h
    resolved := fun _ _ h => (by cases h)
    valueless := fun _ _ => rfl
    fresh := fun _ _ _ _ _ _ => rfl
    closed := fun _ _ h => (by cases h) }
  none_resolving := fun _ h => (by cases h)
  depth := rfl

theorem Idle.onward (h : Idle p s) (h' : Onward p none s s') : Idle p s' :=
  ⟨h'.faithful, fun c hc => h.none_resolving c (h'.resolving c hc), h'.depth.trans h.depth⟩

/-- What has been asked for is resolved. -/
theorem Idle.resolved (h : Idle p s) (hc : s.status.get? c ≠ none) :
    s.status.get? c = some (.resolved (p.stableType c)) := by
  obtain ⟨status, hstatus⟩ := Option.ne_none_iff_exists'.mp hc
  cases status with
  | resolving => exact absurd hstatus (h.none_resolving c)
  | resolved ty => rw [hstatus, (h.faithful.resolved c ty hstatus).1]

/-- What has been asked for has been resolved with all that it needs. -/
theorem Idle.asked_of_needs (h : Idle p s) {d : ConstId} (hneeds : p.source.Needs c d)
    (hc : s.status.get? c ≠ none) : s.status.get? d ≠ none := by
  induction hneeds with
  | refl => exact hc
  | tail _ hdepends ih => exact h.faithful.closed _ _ (h.resolved ih) _ hdepends

/-! ## One constant -/

/-- **A constant can be asked for between requests**, whatever has been asked for before. -/
theorem Idle.exists_resolve (hp : p.Orderly) (h : Idle p s) (c : ConstId) :
    ∃ ty s', (resolve p c).run s = some (ty, s') ∧ Onward p none s s'
      ∧ (c < p.source.constants.size → s'.status.get? c ≠ none) := by
  by_cases hc : s.status.get? c = none
  · by_cases hlt : c < p.source.constants.size
    · have hroom : unasked p s * (p.source.exprs.size + 1) ≤ nestingBound p := by
        have hmul := Nat.mul_le_mul_right (p.source.exprs.size + 1)
          ((unasked_le p s).trans (Nat.le_succ _))
        exact hmul.trans (Nat.le_succ _)
      have haskable : Askable p (nestingBound p) s c := {
        faithful := h.faithful
        exists_constant := hlt
        new := hc
        pending := fun x hx => absurd hx (h.none_resolving x)
        depth := by
          rw [h.depth, Nat.zero_add]
          exact unasked_le p s
        room := hroom }
      obtain ⟨s', hrun, honward, hresolved⟩ := answers hp le_rfl haskable
      exact ⟨_, s', hrun, honward, fun _ => by simp [hresolved]⟩
    · -- there is no such constant, and nothing happens
      have hnone : p.source.constants[c]? = none := Array.getElem?_eq_none (Nat.le_of_not_lt hlt)
      refine ⟨.error, s, ?_, .refl h.faithful, fun hlt' => absurd hlt' hlt⟩
      unfold resolve resolveWith
      rw [StateT.run_bind, StateT.run_get, pure_bind]
      simp only [hc, hnone]
      rfl
  · exact ⟨_, s, run_resolveWith_resolved (h.resolved hc), .refl h.faithful, fun _ => hc⟩

/-! ## All constants -/

/-- A cyclic group of which nothing has been asked for is rejected as a whole. -/
theorem Onward.reject (hp : p.Orderly) (h : Idle p s) {done rest : List ConstGroup}
    {group : ConstGroup} (hgroups : p.source.groups = done ++ group :: rest)
    (hdone : ∀ other ∈ done, ∀ x ∈ other.members, s.status.get? x ≠ none)
    (hcyclic : group.isCyclic = true) (hnew : ∀ x ∈ group.members, s.status.get? x = none)
    (names : List String) (value : ExprId) :
    Onward p none s (s.reject group.members names value) := by
  have hgroup : group ∈ p.source.groups := by rw [hgroups]; simp
  have hstatus : ∀ x, (s.reject group.members names value).status.get? x
      = if x ∈ group.members then some (.resolved .error) else s.status.get? x :=
    fun x => get?_foldl_insert group.members _ s.status x
  have herror : ∀ x ∈ group.members, p.stableType x = .error := fun x hx =>
    stableType_doomed hp.acyclic ((Module.isCyclic_iff hp.names hgroup hx).mp hcyclic).doomed
  refine ⟨h.faithful.settle (X := (· ∈ group.members)) (fun x hx => ?_) (fun x hx => ?_)
    (fun x hx => ⟨?_, rfl⟩) rfl ?_ (fun x => Module.lt_size_of_mem_group hp.names hgroup)
    (fun x hx d hd => ?_), fun x status hx => ?_, fun x hx => ?_, fun _ _ _ _ _ _ _ => rfl, rfl⟩
  · rw [hstatus, if_pos hx, herror x hx]
  · rw [herror x hx]
    exact h.faithful.valueless x fun ty hty => by simp [hnew x hx] at hty
  · rw [hstatus, if_neg hx]
  · exact (Journal.muteDepth_report _ _).trans h.faithful.unmuted
  · -- what the group depends on lies in it, or was resolved with a group before it
    rcases Module.mem_of_dependsOn hp.names hgroups hx hd with hd | ⟨other, hother, hd⟩
    · exact Or.inr hd
    · exact Or.inl (hdone other hother d hd)
  · have hmem : x ∉ group.members := fun hmem => by simp [hnew x hmem] at hx
    rw [hstatus, if_neg hmem, hx]
  · rw [hstatus] at hx
    split at hx
    · cases hx
    · exact hx

/-- **One group can be resolved between requests**, if those before it have been. -/
theorem Idle.exists_resolveGroup (hp : p.Orderly) (h : Idle p s) {done rest : List ConstGroup}
    {group : ConstGroup} (hgroups : p.source.groups = done ++ group :: rest)
    (hdone : ∀ other ∈ done, ∀ x ∈ other.members, s.status.get? x ≠ none) :
    ∃ s', (resolveGroup p (resolve p) group).run s = some ((), s') ∧ Onward p none s s'
      ∧ ∀ x ∈ group.members, s'.status.get? x ≠ none := by
  have hgroup : group ∈ p.source.groups := by rw [hgroups]; simp
  have hlt := fun x => Module.lt_size_of_mem_group hp.names hgroup (a := x)
  cases hcyclic : group.isCyclic with
  | false =>
    obtain ⟨c, hmembers⟩ := Module.members_eq_singleton hp.names hgroup hcyclic
    obtain ⟨ty, s', hrun, honward, hasked⟩ := h.exists_resolve hp c
    refine ⟨s', run_resolveGroup_single hcyclic hmembers hrun, honward, fun x hx => ?_⟩
    have hxlt := hlt x hx
    rw [hmembers, List.mem_singleton] at hx
    subst hx
    exact hasked hxlt
  | true =>
    rw [resolveGroup, if_pos hcyclic]
    by_cases hany : ∃ x ∈ group.members, s.status.get? x ≠ none
    · -- one member has been asked for, and it needs all the others
      obtain ⟨x, hx, hxasked⟩ := hany
      refine ⟨s, run_refuseCycle_asked hx hxasked, .refl h.faithful, fun y hy => ?_⟩
      exact h.asked_of_needs ((Module.mem_group_iff hp.names hgroup hx).mp hy).2.1 hxasked
    · have hnew : ∀ x ∈ group.members, s.status.get? x = none := fun x hx =>
        by_contra fun hne => hany ⟨x, hx, hne⟩
      obtain ⟨first, others, hfirst⟩ := Module.exists_first_member hp.names hgroup
      refine ⟨_, run_refuseCycle hlt hfirst hnew,
        Onward.reject hp h hgroups hdone hcyclic hnew _ _, fun x hx => ?_⟩
      have hstatus := get?_foldl_insert group.members (Status.resolved .error) s.status x
      rw [if_pos hx] at hstatus
      show (group.members.foldl _ s.status).get? x ≠ none
      rw [hstatus]
      simp

/-- One group after another. -/
theorem Idle.exists_forM (hp : p.Orderly) {rest : List ConstGroup} :
    ∀ {done : List ConstGroup} {s : Checker}, p.source.groups = done ++ rest → Idle p s →
    (∀ other ∈ done, ∀ x ∈ other.members, s.status.get? x ≠ none) →
    ∃ s', (rest.forM (resolveGroup p (resolve p))).run s = some ((), s') ∧ Onward p none s s'
      ∧ ∀ other ∈ done ++ rest, ∀ x ∈ other.members, s'.status.get? x ≠ none := by
  induction rest with
  | nil =>
    intro done s _ h hdone
    exact ⟨s, rfl, .refl h.faithful, by rwa [List.append_nil]⟩
  | cons group rest ih =>
    intro done s hgroups h hdone
    -- the groups that are done move to the left, and stay asked for
    obtain ⟨s₁, hrun, honward, hgroup⟩ := h.exists_resolveGroup hp hgroups hdone
    have hdone₁ : ∀ other ∈ done ++ [group], ∀ x ∈ other.members, s₁.status.get? x ≠ none :=
      List.forall_mem_append.mpr ⟨fun other hother x hx => honward.asked (hdone other hother x hx),
        List.forall_mem_singleton.mpr hgroup⟩
    rw [← List.singleton_append, ← List.append_assoc] at hgroups
    obtain ⟨s₂, hrun₂, honward₂, hall⟩ := ih hgroups (h.onward honward) hdone₁
    refine ⟨s₂, (run_bind_some hrun).trans hrun₂, honward.trans honward₂, ?_⟩
    rwa [List.append_assoc, List.singleton_append] at hall

/-- **All constants can be asked for between requests.** -/
theorem Idle.exists_resolveAll (hp : p.Orderly) (h : Idle p s) :
    ∃ s', (resolveAll p).run s = some ((), s') ∧ Onward p none s s'
      ∧ ∀ c < p.source.constants.size, s'.status.get? c ≠ none := by
  let s₀ : Checker := { s with journal := s.journal.note p.source.groupingEvent }
  have h₀ : Onward p none s s₀ :=
    (Onward.refl h.faithful).aside rfl rfl rfl rfl h.faithful.unmuted
  obtain ⟨s', hrun, honward, hall⟩ := Idle.exists_forM hp (List.nil_append _).symm (h.onward h₀)
    fun _ hother => (by cases hother)
  refine ⟨s', (run_bind_some (t := s₀) rfl).trans hrun, h₀.trans honward, fun c hc => ?_⟩
  obtain ⟨group, hgroup, hmem⟩ := Module.exists_group hp.names hc
  exact hall group hgroup c hmem

/-! ## Sequences of requests -/

theorem Idle.exists_perform (hp : p.Orderly) (h : Idle p s) (request : Request) :
    ∃ s', (perform p request).run s = some ((), s') ∧ Onward p none s s'
      ∧ ∀ c < p.source.constants.size, request.Asks c → s'.status.get? c ≠ none := by
  cases request with
  | constant id =>
    obtain ⟨ty, s', hrun, honward, hasked⟩ := h.exists_resolve hp id
    refine ⟨s', run_bind_some hrun, honward, ?_⟩
    rintro c hc rfl
    exact hasked hc
  | all =>
    obtain ⟨s', hrun, honward, hall⟩ := h.exists_resolveAll hp
    exact ⟨s', hrun, honward, fun c hc _ => hall c hc⟩

/-- After some requests all that was asked for is resolved. -/
theorem Idle.exists_performAll (hp : p.Orderly) (h : Idle p s) (requests : List Request) :
    ∃ s', (requests.forM (perform p)).run s = some ((), s') ∧ Onward p none s s'
      ∧ ∀ request ∈ requests, ∀ c < p.source.constants.size, request.Asks c →
        s'.status.get? c ≠ none := by
  induction requests generalizing s with
  | nil => exact ⟨s, rfl, .refl h.faithful, fun _ hr => (by cases hr)⟩
  | cons request requests ih =>
    obtain ⟨s₁, hrun, honward, hasked⟩ := h.exists_perform hp request
    obtain ⟨s₂, hrun₂, honward₂, hrest⟩ := ih (h.onward honward)
    refine ⟨s₂, (run_bind_some hrun).trans hrun₂, honward.trans honward₂, ?_⟩
    exact List.forall_mem_cons.mpr ⟨fun c hc hr => honward₂.asked (hasked c hc hr), hrest⟩

/-- What is found out once every constant has been asked for. -/
theorem Idle.finish (h : Idle p s) (hall : ∀ c < p.source.constants.size, s.status.get? c ≠ none)
    (c : ConstId) :
    s.finish.constTypes.get? c
        = (if c < p.source.constants.size then some (p.stableType c) else none)
      ∧ s.finish.values.get? c
        = (if c < p.source.constants.size then Value.ofTy? (p.stableType c) else none) := by
  split
  · rename_i hc
    have hresolved := h.resolved (hall c hc)
    exact ⟨constTypes_get? s hresolved, (h.faithful.resolved c _ hresolved).2⟩
  · rename_i hc
    have hnone : s.status.get? c = none := by_contra fun hne => hc (h.faithful.bounded c hne)
    refine ⟨?_, h.faithful.valueless c fun ty hty => by simp [hnone] at hty⟩
    rw [Checker.finish, Table.get?_filterMap, hnone]
    rfl

/-- **The order of requests does not matter.** Any sequence of requests on a fresh checker that has
asked for every constant finds out the same types and values as a check, for every constant. A
constant on a cycle, and one that needs such a constant, ends with the error type. -/
theorem session_agrees_with_check (p : Program) (hp : p.Orderly) (requests : List Request)
    (hall : ∀ c < p.source.constants.size, ∃ request ∈ requests, request.Asks c) :
    ∃ s r, p.session requests = some s ∧ p.check = some r
      ∧ (∀ c, s.finish.constTypes.get? c = r.constTypes.get? c)
      ∧ (∀ c, s.finish.values.get? c = r.values.get? c)
      ∧ (∀ c < p.source.constants.size, ∃ ty, r.constTypes.get? c = some ty)
      ∧ ∀ c d, p.source.Needs c d → p.source.OnCycle d → r.constTypes.get? c = some .error := by
  obtain ⟨s, hrun, honward, hasked⟩ := (idle_start p).exists_performAll hp requests
  obtain ⟨t, hrun', honward', hasked'⟩ := (idle_start p).exists_resolveAll hp
  -- both runs end where all is asked for, and what is found then says nothing of the run
  have hs := ((idle_start p).onward honward).finish fun c hc => by
    obtain ⟨request, hmem, hasks⟩ := hall c hc
    exact hasked request hmem c hc hasks
  have ht := ((idle_start p).onward honward').finish hasked'
  have hsession : p.session requests = some s := by
    rw [Program.session, hrun]
    rfl
  have hcheck : p.check = some t.finish := by
    rw [Program.check, Program.run, hrun']
    rfl
  refine ⟨s, t.finish, hsession, hcheck, fun c => (hs c).1.trans (ht c).1.symm,
    fun c => (hs c).2.trans (ht c).2.symm,
    fun c hc => ⟨_, (ht c).1.trans (if_pos hc)⟩, fun c d hneeds hcycle => ?_⟩
  have hdoomed : p.source.Doomed c := ⟨d, hneeds, hcycle⟩
  obtain ⟨target, hdepends, -⟩ := hdoomed.exists_dependsOn
  rw [(ht c).1, if_pos hdepends.lt_size, stableType_doomed hp.acyclic hdoomed]

/-- Two cycles that share a constant, one constant that needs them, and one that does not:
`a = b + c`, `b = a`, `c = a`, `d = c`, `e = 5`. -/
def crossing : Program where
  source := Module.empty
    |>.addExpr (.reference none "b")
    |>.addExpr (.reference none "c")
    |>.addExpr (.binary (.arith .add) 0 1)
    |>.addConstant ⟨"a", Module.root, 2, none⟩
    |>.addExpr (.reference none "a")
    |>.addConstant ⟨"b", Module.root, 3, none⟩
    |>.addExpr (.reference none "a")
    |>.addConstant ⟨"c", Module.root, 4, none⟩
    |>.addExpr (.reference none "c")
    |>.addConstant ⟨"d", Module.root, 5, none⟩
    |>.addExpr (.literal (.int "5"))
    |>.addConstant ⟨"e", Module.root, 6, none⟩
  imports := []
  settings := ⟨true, .error, 5⟩

theorem crossing_orderly : crossing.Orderly where
  names := Module.Built.namesExist (Module.Built.empty |>.expr _ |>.expr _ |>.expr _ |>.constant _
    |>.expr _ |>.constant _ |>.expr _ |>.constant _ |>.expr _ |>.constant _ |>.expr _ |>.constant _)
  acyclic := Module.acyclic_of_lt (by decide)
  separate := Module.separate_of_owner (fun e => e - 2) (by decide) (by decide)
  deep := by decide

theorem crossing_session : ∃ s r,
    crossing.session [.constant 3, .constant 4, .constant 1, .constant 0, .constant 2] = some s
      ∧ crossing.check = some r
      ∧ (∀ c, s.finish.constTypes.get? c = r.constTypes.get? c)
      ∧ (∀ c, s.finish.values.get? c = r.values.get? c)
      ∧ r.constTypes.get? 3 = some .error := by
  have hmem : ∀ c < 5, Request.constant c
      ∈ [Request.constant 3, .constant 4, .constant 1, .constant 0, .constant 2] := by decide
  obtain ⟨s, r, hs, hr, htypes, hvalues, -, herror⟩ :=
    session_agrees_with_check crossing crossing_orderly _ fun c hc => ⟨.constant c, hmem c hc, rfl⟩
  have hneeds : crossing.source.Needs 3 2 :=
    .single (show 2 ∈ crossing.source.dependencies 3 by decide)
  have hcycle : crossing.source.OnCycle 2 :=
    .tail (.single (show 0 ∈ crossing.source.dependencies 2 by decide))
      (show 2 ∈ crossing.source.dependencies 0 by decide)
  exact ⟨s, r, hs, hr, htypes, hvalues, herror 3 2 hneeds hcycle⟩

end ConstNarrow
