import TailFlow.Proofs.Boundary.Grouping
import TailFlow.Proofs.CallGraph.Detection

/-!
# Both ways of following handles

A call is resolved by following its handle backwards, through the first listed node that writes each
tensor. The callers of a body are routed by following their handles forwards, through all listed
nodes that read each tensor. Where no tensor has two writers, the two searches tell of the same
binders and calls, whichever way switches pass handles on: in circles, or from one subgraph to
another.
-/

namespace TailFlow

namespace Program

variable {P : Program}

/-- No tensor is written by two listed nodes. -/
def WrittenOnce (P : Program) : Prop :=
  ∀ ⦃writer other : ListedNode⦄ ⦃tensor : TensorId⦄, P.Lists writer → tensor ∈ writer.node.outputs →
    P.Lists other → tensor ∈ other.node.outputs → other = writer

instance (P : Program) : Decidable P.WrittenOnce :=
  decidable_of_iff (∀ writer ∈ P.allListed, ∀ tensor ∈ writer.node.outputs,
      ∀ other ∈ P.allListed, tensor ∈ other.node.outputs → other = writer)
    ⟨fun h _ _ _ hwriter hout hother =>
      h _ (mem_allListed.mpr hwriter) _ hout _ (mem_allListed.mpr hother),
    fun h _ hwriter _ hout _ hother => h (mem_allListed.mp hwriter) hout (mem_allListed.mp hother)⟩

theorem WrittenOnce.handlesUnique (honce : P.WrittenOnce) : P.HandlesUnique :=
  fun _ _ _ hwriter _ hout hother hout' => honce hwriter hout hother hout'

/-- A handle does not resolve if it leads back to something that is not a handle, or to no binder. -/
theorem not_resolves_iff {handle : TensorId} : ¬ P.Resolves handle
    ↔ (∃ source, Relation.ReflTransGen P.ComesFrom handle source ∧ ¬ P.IsHandle source)
      ∨ ∀ source listed, Relation.ReflTransGen P.ComesFrom handle source → P.Lists listed →
        listed.node.callee?.isSome → source ∉ listed.node.outputs := by
  unfold Resolves
  rw [not_and_or]
  push Not
  rfl

section Searches

variable {listing : List ListedNode} (hP : P.WellFormed)
  (hlist : (P.listing : Outcome ScheduleError (List ListedNode)) = .ok listing)

include hP hlist

/-- The handle of a binder flows to a call if and only if the forward search from it finds the
call. -/
theorem reaches_iff_callsReached {binder call : NodeId} : P.Reaches binder call
    ↔ P.ListsBinder binder ∧ ∃ calls,
      (P.callsReached listing binder : Outcome ScheduleError IdSet) = .ok calls ∧ call ∈ calls := by
  constructor
  · intro hreaches
    have hbinder := hreaches.listsBinder
    obtain ⟨calls, hcalls, hiff⟩ := exists_callsReached hP hlist hbinder
    exact ⟨hbinder, calls, hcalls, (hiff call).mpr hreaches⟩
  · rintro ⟨hbinder, calls, hcalls, hmem⟩
    obtain ⟨calls', hcalls', hiff⟩ := exists_callsReached hP hlist hbinder
    obtain rfl := Except.ok.inj (hcalls.symm.trans hcalls')
    exact (hiff call).mp hmem

/-- A call that the backward search resolves is resolved to the binders that reach it. -/
theorem mem_resolveCall_iff_reaches (hunique : P.HandlesUnique) {listed : ListedNode}
    (hlists : P.Lists listed) (hcall : listed.node.isCall) {binders : IdSet}
    (hresolve : P.resolveCall listing listed.owner listed.id = .ok binders) {binder : NodeId} :
    binder ∈ binders ↔ P.Reaches binder listed.id := by
  obtain ⟨-, -, -, hnode⟩ := id hlists
  obtain ⟨handle, hhead⟩ := hP.exists_handle hlists hcall
  rw [mem_resolveCall hP hunique hlist hresolve hnode hhead]
  constructor
  · exact fun hflows => ⟨handle, hflows, listed, hlists, rfl, hcall, hhead⟩
  · rintro ⟨read, hflows, reader, hreader, hid, -, hread⟩
    obtain rfl := hP.lists_unique hreader hlists hid
    obtain rfl := Option.some.inj (hhead.symm.trans hread)
    exact hflows

end Searches

end Program

open Program

/-- Where no tensor has two writers, a listed call is refused just if its handle leads back to
something that is not a handle or to no binder at all; and a call that is resolved is resolved to the
binders from which the forward search finds the call, which are those that grouping routes to it. -/
theorem resolveCall_agrees {P : Program} (hvalid : P.validate = .ok ()) (honce : P.WrittenOnce)
    {listed : ListedNode} (hlists : P.Lists listed) (hcall : listed.node.isCall) :
    ∃ listing handle, (P.listing : Outcome ScheduleError (List ListedNode)) = .ok listing
      ∧ listed.node.inputs.head? = some handle
      ∧ (P.resolveCall listing listed.owner listed.id
            = .error (.refused (.unresolvedCall listed.id listed.owner))
          ↔ (∃ source, Relation.ReflTransGen P.ComesFrom handle source ∧ ¬ P.IsHandle source)
            ∨ ∀ source binder, Relation.ReflTransGen P.ComesFrom handle source → P.Lists binder →
              binder.node.callee?.isSome → source ∉ binder.node.outputs)
      ∧ (P.resolveCall listing listed.owner listed.id
            = .error (.refused (.unresolvedCall listed.id listed.owner))
          ∨ ∃ binders, P.resolveCall listing listed.owner listed.id = .ok binders
            ∧ (∀ binder, binder ∈ binders ↔ P.ListsBinder binder ∧ ∃ calls,
                (P.callsReached listing binder : Outcome ScheduleError IdSet) = .ok calls
                  ∧ listed.id ∈ calls)
            ∧ ∀ binder found, P.ListsBinder binder → P.destinationCall listing binder = .ok found →
                (found = some listed.id ↔ binder ∈ binders)) := by
  have hP := wellFormed_of_validate hvalid
  have hunique := honce.handlesUnique
  obtain ⟨-, -, -, hnode⟩ := id hlists
  obtain ⟨listing, hlist⟩ := hP.exists_listing (ε := ScheduleError)
  obtain ⟨handle, hhead⟩ := hP.exists_handle hlists hcall
  have hresolves : (∃ binders, P.resolveCall listing listed.owner listed.id = .ok binders)
      ↔ P.Resolves handle := exists_resolveCall_iff hP hunique hlist hnode hhead
  refine ⟨listing, handle, hlist, hhead, ?_, ?_⟩
  · rw [← not_resolves_iff]
    constructor
    · intro hrefused hresolve
      obtain ⟨binders, hok⟩ := hresolves.mpr hresolve
      exact nomatch hrefused.symm.trans hok
    · exact resolveCall_eq_refuse hP hunique hlist hnode hhead
  · by_cases hresolve : P.Resolves handle
    · obtain ⟨binders, hok⟩ := hresolves.mpr hresolve
      have hmem {binder : NodeId} : binder ∈ binders ↔ P.Reaches binder listed.id :=
        mem_resolveCall_iff_reaches hP hlist hunique hlists hcall hok
      refine .inr ⟨binders, hok, fun binder => ?_, fun binder found hbinder hfound => ?_⟩
      · exact hmem.trans (reaches_iff_callsReached hP hlist)
      · rw [hmem]
        rcases destinationCall_eq_ok hP hlist hbinder hfound with
          ⟨rfl, hdead⟩ | ⟨call, rfl, hreaches, hone⟩
        · exact ⟨nofun, fun hreaches => absurd ⟨_, hreaches⟩ hdead⟩
        · rw [Option.some.injEq]
          exact ⟨fun hsame => hsame ▸ hreaches, fun hreaches' => (hone _ hreaches').symm⟩
    · exact .inl (resolveCall_eq_refuse hP hunique hlist hnode hhead hresolve)

/-- Two switches that pick from each other across subgraphs, and one that picks from itself. -/
def crossroads : Program where
  tensors := #["x", "condition", "first", "left", "y", "given", "choice", "second", "right", "z",
    "around", "lost", "argument", "result"].map fun name => ⟨name, [], .f32, none⟩
  nodes := #[⟨"bind_first", .bind 2, [0], [2]⟩, ⟨"pick_left", .switch, [1, 2, 8], [3]⟩,
    ⟨"call_left", .call, [3], [4]⟩, ⟨"pick_around", .switch, [1, 10, 10], [10]⟩,
    ⟨"call_around", .call, [10], [11]⟩, ⟨"bind_second", .bind 2, [5], [7]⟩,
    ⟨"pick_right", .switch, [6, 3, 7], [8]⟩, ⟨"call_right", .call, [8], [9]⟩,
    ⟨"pass", .kernel .copy, [12], [13]⟩]
  subgraphs := #[⟨"main", .body, [0, 1], [4, 11], [0, 1, 2, 3, 4]⟩,
    ⟨"other", .body, [5, 6], [9], [5, 6, 7]⟩, ⟨"body", .body, [12], [13], [8]⟩]
  order := [0, 1, 2]
  entry := 0
  outputs := [4, 11]
  links := .empty

/-- The call behind the two switches is found from both binders, which stand in different subgraphs.
The handle of the other call goes round without ever coming from a binder. -/
theorem crossroads_agrees : ∃ listing, crossroads.listing (ε := ScheduleError) = .ok listing
    ∧ (∃ calls, crossroads.callsReached (ε := ScheduleError) listing 5 = .ok calls ∧ 2 ∈ calls)
    ∧ ∀ source binder, Relation.ReflTransGen crossroads.ComesFrom 10 source →
      crossroads.Lists binder → binder.node.callee?.isSome → source ∉ binder.node.outputs := by
  have hvalid : crossroads.validate = .ok () := by decide +kernel
  have honce : crossroads.WrittenOnce := by decide +kernel
  have hleft : crossroads.Lists ⟨0, 2, ⟨"call_left", .call, [3], [4]⟩⟩ :=
    mem_allListed.mp (by decide +kernel)
  have haround : crossroads.Lists ⟨0, 4, ⟨"call_around", .call, [10], [11]⟩⟩ :=
    mem_allListed.mp (by decide +kernel)
  obtain ⟨listing, handle, hlist, -, -, hends⟩ := resolveCall_agrees hvalid honce hleft rfl
  obtain ⟨listing', handle', hlist', hhandle', hrefused, -⟩ :=
    resolveCall_agrees hvalid honce haround rfl
  obtain rfl := Except.ok.inj (hlist.symm.trans hlist')
  obtain rfl := Option.some.inj hhandle'
  have hlisting : crossroads.listing (ε := ScheduleError) = .ok crossroads.allListed := by
    decide +kernel
  obtain rfl := Except.ok.inj (hlist.symm.trans hlisting)
  have hboth : crossroads.resolveCall crossroads.allListed 0 2 = .ok (.ofList [0, 5]) := by
    decide +kernel
  refine ⟨_, hlisting, ?_, ?_⟩
  · rcases hends with hrefused | ⟨binders, hok, hbinders, -⟩
    · exact nomatch hboth.symm.trans hrefused
    · obtain rfl := Except.ok.inj (hboth.symm.trans hok)
      exact ((hbinders 5).mp (IdSet.mem_ofList.mpr (by simp))).2
  · rcases hrefused.mp (by decide +kernel) with ⟨source, hsource, hnot⟩ | hnone
    · have horigins : ListedNode.origins crossroads.allListed 10 = .ofList [10] := by decide +kernel
      have hmem := (mem_origins (wellFormed_of_validate hvalid) honce.handlesUnique hlisting).mpr
        hsource
      rw [horigins, IdSet.mem_ofList, List.mem_singleton] at hmem
      subst hmem
      exact absurd ⟨⟨0, 3, ⟨"pick_around", .switch, [1, 10, 10], [10]⟩⟩,
        mem_allListed.mp (by decide +kernel), rfl, List.mem_singleton_self 10⟩ hnot
    · exact hnone

end TailFlow
