import Mathlib.Data.Nat.Find
import TailFlow.Proofs.Boundary.Grouping

/-!
# The groups of callers as a partition

Whatever listed binders are given as the callers of a body, they are refused just if one of them
reaches several calls, and then the least such binder is named. Otherwise every live caller stands in
one group, and the destination of the group is where the one call that the caller reaches writes to.
When destinations are shared, two callers stand together just if their calls write to the same
tensors; else each stands alone. The dead callers are left over and warned of.
-/

namespace TailFlow

open Program

namespace CallerGroup

variable {groups : List CallerGroup}

/-- Where no caller stands twice, the place of its group is told by the caller. -/
theorem place_unique (hnodup : (groups.flatMap CallerGroup.callers).Nodup) {place other : Nat}
    {group group' : CallerGroup} (hgroup : groups[place]? = some group)
    (hgroup' : groups[other]? = some group') {caller : NodeId} (hcaller : caller ∈ group.callers)
    (hcaller' : caller ∈ group'.callers) : place = other := by
  have hapart := List.pairwise_iff_getElem.mp (List.nodup_flatMap.mp hnodup).2
  obtain ⟨hplace, rfl⟩ := List.getElem?_eq_some_iff.mp hgroup
  obtain ⟨hother, rfl⟩ := List.getElem?_eq_some_iff.mp hgroup'
  rcases Nat.lt_trichotomy place other with hlt | hsame | hgt
  · exact absurd hcaller' (hapart place other hplace hother hlt hcaller)
  · exact hsame
  · exact absurd hcaller (hapart other place hother hplace hgt hcaller')

end CallerGroup

namespace Program

variable {P : Program} {sharing : ExitSharing} {body : SubgraphId} {callers : IdSet}

instance (P : Program) (binder : NodeId) : Decidable (P.ListsBinder binder) :=
  decidable_of_iff (∃ listed ∈ P.allListed, listed.id = binder ∧ listed.node.callee?.isSome)
    (exists_congr fun _ => and_congr_left fun _ => mem_allListed)

/-- The groups of some callers of a body, and the warnings about them, are a partition of the callers
by where the calls that they reach write to. -/
structure Partition (P : Program) (sharing : ExitSharing) (body : SubgraphId) (callers : IdSet)
    (groups : List CallerGroup) (warnings : List ScheduleWarning) : Prop where
  place : ∀ caller ∈ callers, P.Live caller →
    ∃! place : Nat, ∃ group : CallerGroup, groups[place]? = some group ∧ caller ∈ group.callers
  nonempty : ∀ group ∈ groups, group.callers ≠ []
  members : ∀ group ∈ groups, ∀ caller ∈ group.callers,
    caller ∈ callers ∧ P.Serves caller group.destination
  inOrder : CallerGroup.InOrder groups
  together : sharing = .byDestination → ∀ first ∈ callers, ∀ second ∈ callers,
    ∀ destination destination' : List TensorId, P.Serves first destination →
      P.Serves second destination' →
      ((∃ group ∈ groups, first ∈ group.callers ∧ second ∈ group.callers)
        ↔ destination = destination')
  alone : sharing = .perCaller → ∀ group ∈ groups, ∃ caller, group.callers = [caller]
  dead : ∃ dead : IdSet, warnings = dead.members.map (.deadCaller · body)
    ∧ ∀ caller, caller ∈ dead ↔ caller ∈ callers ∧ ¬ P.Live caller

section Grouped

variable {looked : List NodeId} {groups : List CallerGroup} (h : P.Grouped looked groups)

include h

theorem Grouped.exists_group {caller : NodeId} (hlooked : caller ∈ looked) (hlive : P.Live caller) :
    ∃ group ∈ groups, caller ∈ group.callers :=
  List.mem_flatMap.mp ((h.mem_iff caller).mpr ⟨hlooked, hlive⟩)

theorem Grouped.exists_unique_place {caller : NodeId} (hlooked : caller ∈ looked)
    (hlive : P.Live caller) :
    ∃! place : Nat, ∃ group : CallerGroup, groups[place]? = some group ∧ caller ∈ group.callers := by
  obtain ⟨group, hgroup, hcaller⟩ := h.exists_group hlooked hlive
  obtain ⟨place, hplace⟩ := List.getElem?_of_mem hgroup
  refine ⟨place, ⟨group, hplace, hcaller⟩, fun other ⟨group', hother, hcaller'⟩ => ?_⟩
  exact CallerGroup.place_unique h.nodup hother hplace hcaller' hcaller

/-- Where destinations are shared, callers stand together just if they have the same destination. -/
theorem Grouped.together_iff (hshared : CallerGroup.Shared .byDestination groups)
    {first second : NodeId} (hfirst : first ∈ looked) (hsecond : second ∈ looked)
    {destination destination' : List TensorId} (hserves : P.Serves first destination)
    (hserves' : P.Serves second destination') :
    (∃ group ∈ groups, first ∈ group.callers ∧ second ∈ group.callers)
      ↔ destination = destination' := by
  constructor
  · intro ⟨group, hgroup, hin, hin'⟩
    calc destination = group.destination := hserves.unique (h.serves group hgroup first hin)
      _ = destination' := (h.serves group hgroup second hin').unique hserves'
  · rintro rfl
    obtain ⟨group, hgroup, hin⟩ := h.exists_group hfirst hserves.live
    obtain ⟨group', hgroup', hin'⟩ := h.exists_group hsecond hserves'.live
    have hsame : group.destination = group'.destination :=
      ((h.serves group hgroup first hin).unique hserves).trans
        (hserves'.unique (h.serves group' hgroup' second hin'))
    obtain rfl := List.inj_on_of_nodup_map hshared hgroup hgroup' hsame
    exact ⟨group, hgroup, hin, hin'⟩

end Grouped

theorem partition_of_groupCallers (hP : P.WellFormed)
    (hcallers : ∀ caller ∈ callers, P.ListsBinder caller) {groups : List CallerGroup}
    {warnings : List ScheduleWarning}
    (hgroup : P.groupCallers sharing body callers = .ok (groups, warnings)) :
    P.Partition sharing body callers groups warnings := by
  obtain ⟨hgrouped, hwarned⟩ := groupCallers_eq_ok hP hcallers hgroup
  have hshared := groupCallers_shared hgroup
  have hascending : (P.deadAmong callers.members).Pairwise (· < ·) := callers.ascending.filter _
  refine ⟨fun caller => hgrouped.exists_unique_place, hgrouped.nonempty,
    fun group hin caller hcaller => ?_, hgrouped.inOrder, ?_, ?_,
    ⟨⟨_, hascending⟩, hwarned, fun caller => mem_deadAmong⟩⟩
  · have hmem := (hgrouped.mem_iff caller).mp (List.mem_flatMap.mpr ⟨group, hin, hcaller⟩)
    exact ⟨hmem.1, hgrouped.serves group hin caller hcaller⟩
  · rintro rfl first hfirst second hsecond destination destination'
    exact hgrouped.together_iff hshared hfirst hsecond
  · rintro rfl
    exact hshared

end Program

/-- Of the listed binders that are given as callers of a body, the least one that reaches several
calls is refused, with the number of these calls. If there is none, the callers are divided into
groups by where the one call that each reaches writes to. -/
theorem groupCallers_partitions {P : Program} (hvalid : P.validate = .ok ()) (sharing : ExitSharing)
    (body : SubgraphId) {callers : IdSet} (hcallers : ∀ caller ∈ callers, P.ListsBinder caller) :
    ((∃ caller count, P.groupCallers sharing body callers
          = .error (.refused (.ambiguousBinder caller count)))
        ↔ ∃ caller ∈ callers, ¬ P.ReachesOne caller)
      ∧ (∀ caller count, P.groupCallers sharing body callers
          = .error (.refused (.ambiguousBinder caller count)) →
        caller ∈ callers ∧ (∀ other ∈ callers, other < caller → P.ReachesOne other)
          ∧ 2 ≤ count ∧ ∃ calls : IdSet, calls.size = count
            ∧ ∀ call, call ∈ calls ↔ P.Reaches caller call)
      ∧ ((∀ caller ∈ callers, P.ReachesOne caller) →
        ∃ groups warnings, P.groupCallers sharing body callers = .ok (groups, warnings)
          ∧ P.Partition sharing body callers groups warnings) := by
  have hP := wellFormed_of_validate hvalid
  by_cases hone : ∀ caller ∈ callers, P.ReachesOne caller
  · obtain ⟨⟨groups, warnings⟩, hgroup⟩ : ∃ answer, P.groupCallers sharing body callers = .ok answer :=
      exists_groupCallers hP fun caller hmem => ⟨hcallers caller hmem, hone caller hmem⟩
    refine ⟨⟨fun ⟨_, _, hrefused⟩ => ?_, fun ⟨caller, hmem, hseveral⟩ => ?_⟩,
      fun _ _ hrefused => ?_, fun _ => ⟨groups, warnings, hgroup, ?_⟩⟩
    · exact nomatch hgroup.symm.trans hrefused
    · exact absurd (hone caller hmem) hseveral
    · exact nomatch hgroup.symm.trans hrefused
    · exact partition_of_groupCallers hP hcallers hgroup
  · have hex : ∃ caller, caller ∈ callers ∧ ¬ P.ReachesOne caller := by
      push Not at hone
      exact hone
    classical
    obtain ⟨hmem, hseveral⟩ := Nat.find_spec hex
    have hfirst : ∀ other ∈ callers, other < Nat.find hex → P.ReachesOne other :=
      fun other hother hlt => not_not.mp fun hnot => Nat.find_min hex hlt ⟨hother, hnot⟩
    obtain ⟨calls, hreached, hsize, hrefused⟩ := groupCallers_eq_refuse hP hcallers hmem hseveral hfirst
    refine ⟨⟨fun _ => hex, fun _ => ⟨_, _, hrefused⟩⟩, fun caller count hother => ?_,
      fun hall => absurd hall hone⟩
    have hsame := hrefused.symm.trans hother
    simp only [Except.error.injEq, Stop.refused.injEq, ScheduleError.ambiguousBinder.injEq] at hsame
    obtain ⟨rfl, rfl⟩ := hsame
    exact ⟨hmem, hfirst, hsize, calls, rfl, hreached⟩

/-- Two switches that pick from each other before a call, two calls that write to the same tensor, an
idle binder, and one whose handle two calls read. -/
def junction : Program where
  tensors := #["x", "left", "right", "picked", "around", "y", "lone", "twin", "z", "idle", "forked",
    "u", "v", "argument", "result"].map fun name => ⟨name, [], .f32, none⟩
  nodes := #[⟨"bind_left", .bind 1, [0], [1]⟩, ⟨"bind_right", .bind 1, [0], [2]⟩,
    ⟨"pick", .switch, [0, 1, 4], [3]⟩, ⟨"pick_around", .switch, [0, 3, 2], [4]⟩,
    ⟨"call_picked", .call, [3], [5]⟩, ⟨"bind_lone", .bind 1, [0], [6]⟩,
    ⟨"call_lone", .call, [6], [8]⟩, ⟨"bind_twin", .bind 1, [0], [7]⟩,
    ⟨"call_twin", .call, [7], [8]⟩, ⟨"bind_idle", .bind 1, [0], [9]⟩,
    ⟨"bind_forked", .bind 1, [0], [10]⟩, ⟨"call_first", .call, [10], [11]⟩,
    ⟨"call_second", .call, [10], [12]⟩, ⟨"pass", .kernel .copy, [13], [14]⟩]
  subgraphs := #[⟨"main", .body, [0], [5, 8], [0, 1, 2, 3, 4, 5, 6, 7, 8, 9, 10, 11, 12]⟩,
    ⟨"body", .body, [13], [14], [13]⟩]
  order := [0, 1]
  entry := 0
  outputs := [5, 8]
  links := .empty

/-- The binders behind the switches stand together, and so do those of the two calls with one
destination. The forked binder is refused whenever it is among the callers. -/
theorem junction_partitioned :
    (junction.groupCallers .byDestination 1 (.ofList [0, 1, 5, 7, 9])
        = .ok ([⟨[5], [0, 1]⟩, ⟨[8], [5, 7]⟩], [.deadCaller 9 1])
      ∧ junction.Partition .byDestination 1 (.ofList [0, 1, 5, 7, 9])
        [⟨[5], [0, 1]⟩, ⟨[8], [5, 7]⟩] [.deadCaller 9 1])
      ∧ ∃ caller count, junction.groupCallers .perCaller 1 (.ofList [0, 10])
        = .error (.refused (.ambiguousBinder caller count)) := by
  have hvalid : junction.validate = .ok () := by decide +kernel
  have hok : junction.groupCallers .byDestination 1 (.ofList [0, 1, 5, 7, 9])
      = .ok ([⟨[5], [0, 1]⟩, ⟨[8], [5, 7]⟩], [.deadCaller 9 1]) := by decide +kernel
  have hcallers : ∀ caller ∈ (IdSet.ofList [0, 1, 5, 7, 9]).members, junction.ListsBinder caller := by
    decide +kernel
  have hforked : ∀ caller ∈ (IdSet.ofList [0, 10]).members, junction.ListsBinder caller := by
    decide +kernel
  refine ⟨⟨hok, ?_⟩, ?_⟩
  · obtain ⟨hrefused, -, hgroups⟩ := groupCallers_partitions hvalid .byDestination 1 hcallers
    obtain ⟨groups, warnings, hsame, hpartition⟩ := hgroups fun caller hmem => by
      by_contra hseveral
      obtain ⟨_, _, hstop⟩ := hrefused.mpr ⟨caller, hmem, hseveral⟩
      exact nomatch hok.symm.trans hstop
    obtain ⟨rfl, rfl⟩ := Prod.mk.inj (Except.ok.inj (hok.symm.trans hsame))
    exact hpartition
  · refine (groupCallers_partitions hvalid .perCaller 1 hforked).1.mpr ⟨10, by decide, fun hone => ?_⟩
    have hbinder : junction.Lists ⟨0, 10, ⟨"bind_forked", .bind 1, [0], [10]⟩⟩ :=
      mem_allListed.mp (by decide +kernel)
    have hflows : junction.Flows 10 10 := .made hbinder rfl rfl (List.mem_singleton_self 10)
    have hcall : junction.Lists ⟨0, 11, ⟨"call_first", .call, [10], [11]⟩⟩ :=
      mem_allListed.mp (by decide +kernel)
    have hcall' : junction.Lists ⟨0, 12, ⟨"call_second", .call, [10], [12]⟩⟩ :=
      mem_allListed.mp (by decide +kernel)
    have hfirst : junction.Reaches 10 11 := ⟨10, hflows, _, hcall, rfl, rfl, rfl⟩
    have hsecond : junction.Reaches 10 12 := ⟨10, hflows, _, hcall', rfl, rfl, rfl⟩
    exact absurd (hone hfirst hsecond) (by decide)

end TailFlow
