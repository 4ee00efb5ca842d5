import TailFlow.Proofs.Runs.Simulation
import TailFlow.Proofs.Schedule.Worklist

/-!
# Runs and cuts

A cut subgraph comes to what it came to before. What is left of it runs up to the call, hands the
results over in fresh tensors, and the segment goes on in the same environment: it starts by putting
the results where the call used to put them.
-/

namespace TailFlow

open Program

namespace Cut

variable {c : Cut} {P : Program} {links : IdMap Link} {calls calls' : Calls}
  {env env' other : Environment}

def linked (c : Cut) (P : Program) (links : IdMap Link) : Program :=
  { c.after P with links := links.insert c.call (c.link P) }

theorem tensors_after {id : TensorId} (hlt : id < P.tensors.size) :
    (c.linked P links).tensors[id]? = P.tensors[id]? := by
  show (P.tensors ++ c.extra.toArray)[id]? = P.tensors[id]?
  rw [Array.getElem?_append_left hlt]

theorem node_linked_old {id : NodeId} (hlt : id < P.nodes.size) (hne : id ≠ c.call) :
    (c.linked P links).nodes[id]? = P.nodes[id]? :=
  node_after_old hlt hne

theorem linkFor_old {id : NodeId} (hne : id ≠ c.call) :
    (c.linked P links).linkFor? id = { P with links }.linkFor? id := by
  show (links.insert c.call (c.link P)).get? id = links.get? id
  rw [IdMap.get?_insert, if_neg (Ne.symm hne)]

section Chains

variable (hP : P.WellFormed) (hc : c.Applies P) (hfree : links.get? c.call = none)
  (hlinked : ∀ call link, links.get? call = some link → call < P.nodes.size)

include hP hc

/-- What is left of the subgraph runs up to the call, and the segment from there on. -/
theorem passes_owner (hcalls : ∀ id callee arguments results inside,
      calls id callee arguments results inside → calls' id callee arguments results inside)
    {entered : List SubgraphId}
    (hpasses : Passes { P with links } calls c.subgraph.nodes env env' entered)
    (hcovers : Covers Unchanged { P with links } env (c.linked P links) other) :
    ∃ middle other' inside outside,
      Passes (c.linked P links) calls' c.head.nodes other middle inside
        ∧ Passes (c.linked P links) calls' (c.segment P).nodes middle other' outside
        ∧ entered = inside ++ outside
        ∧ Covers Unchanged { P with links } env' (c.linked P links) other' := by
  have hmem {id : NodeId} (h : id ∈ c.earlier ∨ id ∈ c.later) :
      id ∈ c.subgraph.nodes ∧ id ≠ c.call := by
    rcases h with h | h
    · exact ⟨hc.mem_nodes.mpr (.inl h), (hc.ne_of_mem_earlier hP h).1⟩
    · exact ⟨hc.mem_nodes.mpr (.inr (.inr h)), fun hsame => hc.call_notMem_later hP (hsame ▸ h)⟩
  rw [hc.nodes_eq] at hpasses
  obtain ⟨before, inside, outside, hearlier, hrest, rfl⟩ := hpasses.of_append
  obtain ⟨start, hearlier', hcovers'⟩ := hearlier.transfer_kept (hP.withLinks links) hc.subgraph_eq
    (fun id h => hmem (.inl h)) (fun _ => node_linked_old) hcalls hcovers
  cases hrest with
  | inline hnode hgives _ _ =>
    obtain rfl := Option.some.inj (hc.node_eq.symm.trans hnode)
    exact absurd (of_decide_eq_true hc.isCall) hgives.ne_call
  | @call _ _ _ _ after _ handle callee arguments results inner outer hnode hcall hhandle hreads
      hinside hbind hlater =>
    obtain rfl := Option.some.inj (hc.node_eq.symm.trans hnode)
    have hhandleMem := List.mem_of_mem_head? (Option.mem_def.mpr hhandle)
    obtain ⟨_, hreads', rfl⟩ := hcovers' (hP.inputs_lt hc.lists_call hhandleMem) hreads
    have hlength : c.handover.length = (results.map Value.array).length := by
      rw [hc.length_eq, Environment.length_eq_of_bindAll hbind]
    obtain ⟨handed, hhand⟩ := Environment.exists_bindAll start hlength
    have hcovers'' : Covers Unchanged { P with links } before (c.linked P links) handed :=
      hcovers'.bindAll_right (fun id hid => hc.fresh.le_of_mem hid) hhand
    obtain ⟨resumed, hresume, hcovers''⟩ := hcovers''.bindAll (fun _ _ _ _ => rfl) hbind
    obtain ⟨other', hlater', hlast⟩ := hlater.transfer_kept (hP.withLinks links) hc.subgraph_eq
      (fun id h => hmem (.inr h)) (fun _ => node_linked_old) hcalls hcovers''
    have hcopy : (NodeKind.kernel .copy).Gives ((c.linked P links).Reads handed) c.handover
        (results.map .array) := by
      refine .kernel (Environment.forall₂_array.mpr ?_) rfl
      exact Environment.reads_bindAll hc.fresh.nodup hhand
    refine ⟨handed, other', inside ++ inner, outer, ?_, ?_, (List.append_assoc _ _ _).symm, hlast⟩
    · have hcalled : Passes (c.linked P links) calls' [c.call] start handed (inner ++ []) :=
        .call (node_after_call hc) hc.isCall hhandle hreads' (hcalls _ _ _ _ _ hinside) hhand .nil
      rw [List.append_nil] at hcalled
      exact hearlier'.append hcalled
    · exact .inline node_after_resume hcopy hresume hlater'

include hfree hlinked

theorem last_of_segment : (c.segment P).lastNode?.bind (c.linked P links).linkFor?
    = c.subgraph.lastNode?.bind { P with links }.linkFor? := by
  have hlast : c.subgraph.lastNode? = some ((c.call :: c.later).getLast (List.cons_ne_nil _ _)) := by
    rw [Subgraph.lastNode?, hc.nodes_eq, List.getLast?_append_of_ne_nil _ (List.cons_ne_nil _ _),
      List.getLast?_eq_some_getLast]
  by_cases hnil : c.later = []
  · have hnone : links.get? P.nodes.size = none := by
      cases hlink : links.get? P.nodes.size with
      | none => rfl
      | some link => exact absurd (hlinked _ _ hlink) (Nat.lt_irrefl _)
    have hne : P.nodes.size ≠ c.call := Ne.symm (Nat.ne_of_lt (node_lt hc.node_eq))
    rw [hlast, Subgraph.lastNode?, segment]
    simp only [hnil, List.getLast?_singleton, List.getLast_singleton, Option.bind_some]
    rw [linkFor_old hne]
    exact hnone.trans hfree.symm
  · obtain ⟨id, hid⟩ : ∃ id, c.later.getLast? = some id :=
      ⟨_, List.getLast?_eq_some_getLast hnil⟩
    have hsubgraph : c.subgraph.lastNode? = some id := by
      rw [Subgraph.lastNode?, hc.nodes_eq, List.getLast?_append_of_ne_nil _ (List.cons_ne_nil _ _),
        List.getLast?_cons_of_ne_nil hnil, hid]
    have hsegment : (c.segment P).lastNode? = some id := by
      rw [Subgraph.lastNode?, segment, List.getLast?_cons_of_ne_nil hnil, hid]
    rw [hsubgraph, hsegment, Option.bind_some, Option.bind_some]
    refine linkFor_old fun hsame => hc.call_notMem_later hP ?_
    exact hsame ▸ List.mem_of_getLast? hid

theorem follows_after (hcalls : ∀ id callee arguments results inside,
      calls id callee arguments results inside → calls' id callee arguments results inside)
    {id : SubgraphId} {results : List DenseArray} {entered : List SubgraphId}
    (hfollows : Follows { P with links } calls id env results entered)
    (hcovers : Covers Unchanged { P with links } env (c.linked P links) other) :
    Follows (c.linked P links) calls' id other results entered := by
  have hlt {id : SubgraphId} {subgraph : Subgraph} (hsubgraph : P.subgraphs[id]? = some subgraph) :
      ∀ output ∈ subgraph.outputs, output < P.tensors.size :=
    fun output hmem => hP.interface hsubgraph output (List.mem_append_right _ hmem)
  have hother {id : SubgraphId} {subgraph : Subgraph} (hsubgraph : P.subgraphs[id]? = some subgraph)
      (howner : id ≠ c.owner) : ∀ node ∈ subgraph.nodes, node ∈ subgraph.nodes ∧ node ≠ c.call := by
    refine fun node hmem => ⟨hmem, fun hcall => howner ?_⟩
    exact hP.apart hsubgraph hc.subgraph_eq node hmem (hc.mem_nodes.mpr (.inr (.inl hcall)))
  have hlastOther {id : SubgraphId} {subgraph : Subgraph}
      (hsubgraph : P.subgraphs[id]? = some subgraph) (howner : id ≠ c.owner) :
      subgraph.lastNode?.bind (c.linked P links).linkFor?
        = subgraph.lastNode?.bind { P with links }.linkFor? := by
    cases hlast : subgraph.lastNode? with
    | none => rfl
    | some last =>
      rw [Option.bind_some, Option.bind_some]
      exact linkFor_old
        (hother hsubgraph howner last (List.mem_of_getLast? hlast)).2
  have hhead : c.head.lastNode?.bind (c.linked P links).linkFor? = some (c.link P) := by
    have hlast : c.head.lastNode? = some c.call := by simp [Subgraph.lastNode?, head]
    rw [hlast, Option.bind_some]
    exact IdMap.get?_insert_self _ _ _
  induction hfollows generalizing other with
  | @returns id subgraph env env' results entered hsubgraph hpasses hlast hreads =>
    by_cases howner : id = c.owner
    · subst howner
      obtain rfl := Option.some.inj (hc.subgraph_eq.symm.trans hsubgraph)
      obtain ⟨middle, other', inside, outside, hfirst, hsecond, rfl, hcovers'⟩ :=
        passes_owner hP hc hcalls hpasses hcovers
      refine .goesOn (subgraph_after_owner hP hc) hfirst hhead (.returns subgraph_after_segment
        hsecond ?_ (hcovers'.forall₂ (hlt hsubgraph) hreads))
      rw [last_of_segment hP hc hfree hlinked, hlast]
    · obtain ⟨other', hpasses', hcovers'⟩ := hpasses.transfer_kept (hP.withLinks links) hsubgraph
        (hother hsubgraph howner) (fun _ => node_linked_old) hcalls hcovers
      refine .returns ((subgraph_after_other (subgraph_lt hsubgraph) howner).trans hsubgraph)
        hpasses' ?_ (hcovers'.forall₂ (hlt hsubgraph) hreads)
      rw [hlastOther hsubgraph howner, hlast]
  | @goesOn id subgraph link env env' results inside entered hsubgraph hpasses hlast _ ih =>
    by_cases howner : id = c.owner
    · subst howner
      obtain rfl := Option.some.inj (hc.subgraph_eq.symm.trans hsubgraph)
      obtain ⟨middle, other', inside', outside, hfirst, hsecond, rfl, hcovers'⟩ :=
        passes_owner hP hc hcalls hpasses hcovers
      rw [List.append_assoc]
      refine .goesOn (subgraph_after_owner hP hc) hfirst hhead
        (.goesOn subgraph_after_segment hsecond ?_ (ih hcovers'))
      rw [last_of_segment hP hc hfree hlinked, hlast]
    · obtain ⟨other', hpasses', hcovers'⟩ := hpasses.transfer_kept (hP.withLinks links) hsubgraph
        (hother hsubgraph howner) (fun _ => node_linked_old) hcalls hcovers
      refine .goesOn ((subgraph_after_other (subgraph_lt hsubgraph) howner).trans hsubgraph)
        hpasses' ?_ (ih hcovers')
      rw [hlastOther hsubgraph howner, hlast]

theorem invokes_after {allows : NodeId → List SubgraphId → Prop} {levels : Nat} {id : SubgraphId}
    {arguments results : List DenseArray} {entered : List SubgraphId}
    (hinvokes : Invokes { P with links } allows levels id arguments results entered) :
    Invokes (c.linked P links) allows levels id arguments results entered := by
  induction levels generalizing id arguments results entered with
  | zero => exact hinvokes.elim
  | succ levels ih =>
    obtain ⟨subgraph, env, inside, hsubgraph, hbind, hfollows, rfl⟩ := invokes_succ.mp hinvokes
    obtain ⟨subgraph', hafter, hinputs, hkind⟩ := keepsFormals_after hP hc hsubgraph
    refine ⟨subgraph', env, inside, hafter, hinputs ▸ hbind, ?_, by rw [hkind]⟩
    exact follows_after hP hc hfree hlinked (fun _ _ _ _ _ h => ⟨h.1, ih h.2⟩) hfollows
      (fun id value hlt hreads =>
        ⟨value, (reads_congr rfl (tensors_after hlt)).mpr hreads, rfl⟩)

end Chains

end Cut

namespace Cuts

variable {P P' : Program} {links : IdMap Link} {calls : List NodeId}

theorem invokes_after (hP : P.WellFormed) (hlinks : P.links = .empty)
    (hcuts : Cuts P P' links calls) {allows : NodeId → List SubgraphId → Prop} {levels : Nat}
    {id : SubgraphId} {arguments results : List DenseArray} {entered : List SubgraphId}
    (hinvokes : Invokes P allows levels id arguments results entered) :
    Invokes { P' with links } allows levels id arguments results entered := by
  induction hcuts with
  | none =>
    have hsame : { P with links := IdMap.empty } = P := by rw [← hlinks]
    exact hsame ▸ hinvokes
  | @cut P' links calls c hcuts hc ih =>
    have hP' := hcuts.wellFormed hP
    exact Cut.invokes_after hP' hc (hcuts.get?_eq_none hP hc) (hcuts.key_lt hP) ih

end Cuts

end TailFlow
