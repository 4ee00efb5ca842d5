import Mathlib.Order.Bounds.Basic
import TailFlow.Proofs.CallGraph.Catalog

/-!
# What is reached from the entry

A subgraph is reached if the entry leads to it, by what reached subgraphs bind and by the segments
and exits that go along with them. That is the least set of subgraphs that holds the entry and is
closed under these two steps, whether or not subgraphs bind each other in a circle or are attached to
each other in a circle. The catalog tells just this set, and it is built for every program whose
numbers can be followed, unless a listed binder names no subgraph.
-/

namespace TailFlow

namespace Reach

variable {next : Nat → List Nat} {start : Nat}

/-- What a number leads to is the least set that holds the number and all successors of its own. -/
theorem isLeast_leads : IsLeast {closed : Set Nat | start ∈ closed
    ∧ ∀ origin ∈ closed, ∀ id ∈ next origin, id ∈ closed} {id | Leads next start id} := by
  refine ⟨⟨.refl, fun origin hleads id hnext => hleads.tail hnext⟩, ?_⟩
  intro closed ⟨hstart, hclosed⟩ id hleads
  induction hleads with
  | refl => exact hstart
  | tail _ hnext ih => exact hclosed _ ih _ hnext

end Reach

namespace Program

variable {P : Program}

/-- A set of subgraphs holds the entry, what subgraphs in it bind, and the segments and exits that
go along with subgraphs in it. -/
structure ReachClosed (P : Program) (reached : Set SubgraphId) : Prop where
  entry : P.entry ∈ reached
  bound : ∀ ⦃listed : ListedNode⦄ ⦃body : SubgraphId⦄, P.Lists listed →
    listed.node.kind = .bind body → listed.owner ∈ reached → body ∈ reached
  attached : ∀ ⦃id stem : SubgraphId⦄ ⦃subgraph : Subgraph⦄, P.subgraphs[id]? = some subgraph →
    subgraph.kind = .segment stem ∨ subgraph.kind = .exit stem → stem ∈ reached → id ∈ reached

theorem attachedTo?_eq_some {kind : SubgraphKind} {stem : SubgraphId} :
    kind.attachedTo? = some stem ↔ kind = .segment stem ∨ kind = .exit stem := by
  cases kind <;> simp [SubgraphKind.attachedTo?]

theorem reachClosed_iff {reached : Set SubgraphId} : P.ReachClosed reached
    ↔ P.entry ∈ reached ∧ ∀ origin ∈ reached, ∀ id ∈ P.leadsTo origin, id ∈ reached := by
  constructor
  · intro hclosed
    refine ⟨hclosed.entry, fun origin horigin id hnext => ?_⟩
    rcases List.mem_append.mp hnext with hattached | hbound
    · obtain ⟨subgraph, hsubgraph, hkind⟩ := mem_attachedTo.mp hattached
      exact hclosed.attached hsubgraph (attachedTo?_eq_some.mp hkind) horigin
    · obtain ⟨listed, hlists, rfl, hkind⟩ := mem_boundBy.mp hbound
      exact hclosed.bound hlists hkind horigin
  · intro ⟨hentry, hstep⟩
    refine ⟨hentry, fun listed body hlists hkind howner => ?_,
      fun id stem subgraph hsubgraph hkind hstem => ?_⟩
    · have hbound := mem_boundBy.mpr ⟨listed, hlists, rfl, hkind⟩
      exact hstep _ howner body (List.mem_append_right _ hbound)
    · have hattached := mem_attachedTo.mpr ⟨subgraph, hsubgraph, attachedTo?_eq_some.mpr hkind⟩
      exact hstep stem hstem id (List.mem_append_left _ hattached)

theorem isLeast_reachClosed :
    IsLeast {reached | P.ReachClosed reached} {id | Reach.Leads P.leadsTo P.entry id} := by
  simp only [reachClosed_iff]
  exact Reach.isLeast_leads

end Program

open Program

/-- Where subgraphs list nodes that are there and the entry is there, building the catalog fails just
if a listed binder names no subgraph, and then it refuses such a binder. Otherwise the walk from the
entry comes to its end. The catalog tells the listed binders that name a subgraph, and the subgraphs
that it tells to be reached are the least set that holds the entry and is closed under binding and
attaching. -/
theorem Catalog.build_exact {P : Program} (hnodes : P.NodesKnown)
    (hentry : P.entry < P.subgraphs.size) :
    ((∃ binder body, Catalog.build P = .error (.refused (.unknownSubgraph binder body)))
        ↔ ∃ binder body, P.Names binder body ∧ P.subgraphs.size ≤ body)
      ∧ (∀ binder body, Catalog.build P = .error (.refused (.unknownSubgraph binder body)) →
        P.Names binder body ∧ P.subgraphs.size ≤ body)
      ∧ ((¬ ∃ binder body, P.Names binder body ∧ P.subgraphs.size ≤ body) →
        ∃ catalog, Catalog.build P = .ok catalog
          ∧ (∀ body binder, binder ∈ catalog.callers body ↔ P.Names binder body)
          ∧ IsLeast {reached | P.ReachClosed reached} {id | catalog.isReachable id}) := by
  have hfails : P.CalleesKnown ↔ ¬ ∃ binder body, P.Names binder body ∧ P.subgraphs.size ≤ body := by
    unfold CalleesKnown
    push Not
    rfl
  rcases (build_recording hnodes hentry).cases with
    ⟨catalog, hbuild, hcallees, hreachable, hcallers⟩ | ⟨_, hbuild, binder, body, hnames, hge, rfl⟩
  · have hnone := hfails.mp hcallees
    refine ⟨⟨fun ⟨_, _, hrefused⟩ => ?_, fun hstray => absurd hstray hnone⟩,
      fun _ _ hrefused => ?_, fun _ => ⟨catalog, hbuild, hcallers, ?_⟩⟩
    · exact nomatch hbuild.symm.trans hrefused
    · exact nomatch hbuild.symm.trans hrefused
    · simp only [isReachable, decide_eq_true_eq, hreachable]
      exact isLeast_reachClosed
  · refine ⟨⟨fun _ => ⟨binder, body, hnames, hge⟩, fun _ => ⟨binder, body, hbuild⟩⟩,
      fun _ _ hrefused => ?_, fun hnone => absurd ⟨binder, body, hnames, hge⟩ hnone⟩
    obtain ⟨rfl, rfl⟩ : binder = _ ∧ body = _ := by
      simpa [Except.error.injEq] using hbuild.symm.trans hrefused
    exact ⟨hnames, hge⟩

/-- Two subgraphs that bind each other, and two segments that have each other for their origin. The
last two subgraphs are not reached: one binds, and the other is its exit. -/
def waterwheel : Program where
  tensors := #["there", "back", "apart", "again"].map fun name => ⟨name, [], .f32, none⟩
  nodes := #[⟨"bind_there", .bind 1, [], [0]⟩, ⟨"bind_back", .bind 0, [], [1]⟩,
    ⟨"bind_apart", .bind 2, [], [2]⟩, ⟨"bind_again", .bind 1, [], [3]⟩]
  subgraphs := #[⟨"main", .body, [], [], [0]⟩, ⟨"there", .body, [], [], [1, 2]⟩,
    ⟨"first", .segment 3, [], [], []⟩, ⟨"second", .segment 2, [], [], []⟩,
    ⟨"there_exit", .exit 1, [], [], []⟩, ⟨"dead", .body, [], [], [3]⟩,
    ⟨"dead_exit", .exit 5, [], [], []⟩]
  order := [0, 1, 2, 3, 4, 5, 6]
  entry := 0
  outputs := []
  links := .empty

/-- What is reached comes to an end in spite of the circles. Once the first binder names a subgraph
that is not there, the catalog is refused. -/
theorem waterwheel_catalogued :
    IsLeast {reached | waterwheel.ReachClosed reached} {0, 1, 2, 3, 4}
      ∧ (∃ catalog, Catalog.build waterwheel = .ok catalog
        ∧ ∀ binder, binder ∈ catalog.callers 1 ↔ waterwheel.Names binder 1)
      ∧ ∃ binder body, Catalog.build (waterwheel.updateNode 0 fun node => { node with kind := .bind 7 })
        = .error (.refused (.unknownSubgraph binder body)) := by
  have hreachable : (Catalog.build waterwheel).map Catalog.reachable
      = .ok (.ofList [0, 1, 2, 3, 4]) := by decide +kernel
  obtain ⟨hfails, -, hbuilds⟩ :=
    Catalog.build_exact (show waterwheel.NodesKnown by decide) (by decide)
  obtain ⟨catalog, hbuild, hcallers, hleast⟩ := hbuilds fun hstray => by
    obtain ⟨binder, body, hrefused⟩ := hfails.mpr hstray
    rw [hrefused] at hreachable
    exact nomatch hreachable
  refine ⟨?_, ⟨catalog, hbuild, hcallers 1⟩, ?_⟩
  · rw [hbuild] at hreachable
    have hsame : catalog.reachable = .ofList [0, 1, 2, 3, 4] := Except.ok.inj hreachable
    have hset : {id | catalog.isReachable id} = ({0, 1, 2, 3, 4} : Set SubgraphId) := by
      ext id
      simp [Catalog.isReachable, hsame]
    exact hset ▸ hleast
  · refine (Catalog.build_exact (by decide) (by decide)).1.mpr ⟨0, 7, ?_, by decide⟩
    exact ⟨⟨0, 0, ⟨"bind_there", .bind 7, [], [0]⟩⟩, ⟨_, rfl, List.mem_singleton_self 0, rfl⟩, rfl, rfl⟩

end TailFlow
