import TailFlow.Proofs.Handles.Separation
import TailFlow.Proofs.Runs.Assignment

/-!
# Runs and separated handles

A call that has got a handle of its own comes to what it came to before. The copies in front of it
are run again what has been run earlier in the subgraph, and since no tensor is written twice they
read what the originals have read, so the copy of a handle is the handle.
-/

namespace TailFlow

open Program

namespace Rewiring

variable {r : Rewiring} {P : Program} {calls calls' : Calls} {env env' other : Environment}

theorem tensors_after {id : TensorId} (hlt : id < P.tensors.size) :
    (r.after P).tensors[id]? = P.tensors[id]? := by
  rw [after_tensors, Array.getElem?_append_left hlt]

section Copies

variable (hP : P.WellFormed) (hr : r.Applies P)

include hP hr

/-- What a copy reads is what its source reads, once the copies in front of it have been run. -/
theorem inputs_of_copy {place : Nat} {copy : HandleCopy} (hcopy : r.copies[place]? = some copy)
    (hcovers : Covers Unchanged P env (r.after P) other)
    (hdone : ∀ earlier < place, ∀ copy, r.copies[earlier]? = some copy → ∀ value,
      P.Reads env copy.handle value → (r.after P).Reads other (P.tensors.size + earlier) value) :
    List.Forall₂ (fun id id' => ∀ value, P.Reads env id value → (r.after P).Reads other id' value)
      copy.source.node.inputs copy.node.inputs := by
  obtain ⟨hlists, -⟩ := hr.source hP hcopy
  have hkept : ∀ id ∈ copy.source.node.inputs, ∀ value, P.Reads env id value →
      (r.after P).Reads other id value := by
    intro id hmem value hreads
    obtain ⟨_, hreads', rfl⟩ := hcovers (hP.inputs_lt hlists hmem) hreads
    exact hreads'
  obtain ⟨-, -, -, -, branches, hinputs, hredirected⟩ := hr.copies_ok.added hcopy
  rw [hinputs]
  split
  · rename_i hswitch
    have hsplit : copy.source.node.inputs
        = copy.source.node.inputs.take 1 ++ copy.source.node.branches := by
      rw [Node.branches, if_pos hswitch, List.take_append_drop]
    rw [hsplit, List.take_left' (by
      have htwo := Fits.two_le_inputs (hP.fits hlists) hswitch
      rw [List.length_take]
      omega)]
    refine List.rel_append ?_ ?_
    · exact List.forall₂_same.mpr fun id hmem => hkept id (List.mem_of_mem_take hmem)
    · have hbranches : ∀ id ∈ copy.source.node.branches, ∀ value, P.Reads env id value →
          (r.after P).Reads other id value :=
        fun id hmem => hkept id (Node.mem_inputs_of_mem_branches hmem)
      clear hinputs hsplit hkept
      generalize copy.source.node.branches = originals at hredirected hbranches ⊢
      induction hredirected with
      | nil => exact .nil
      | cons hone _ ih =>
        obtain ⟨hhead, hrest⟩ := List.forall_mem_cons.mp hbranches
        refine .cons (fun value hreads => ?_) (ih hrest)
        rcases hone with ⟨rfl, -⟩ | ⟨earlier, before, hbefore, rfl, rfl⟩
        · exact hhead value hreads
        · have hlt := (List.getElem?_eq_some_iff.mp hbefore).1
          rw [List.length_take] at hlt
          rw [List.getElem?_take_of_lt (by omega)] at hbefore
          exact hdone earlier (by omega) before hbefore value hreads
  · exact List.forall₂_same.mpr hkept

theorem passes_added (hlocal : P.HandlesLocal) {entered : List SubgraphId} {start : Environment}
    (hawaits : Awaits P start r.earlier) (hearlier : Passes P calls r.earlier start env entered)
    (hcovers : Covers Unchanged P env (r.after P) other) :
    ∃ other', Passes (r.after P) calls' (r.added P) other other' []
      ∧ Covers Unchanged P env (r.after P) other'
      ∧ ∀ place copy, r.copies[place]? = some copy → ∀ value, P.Reads env copy.handle value →
        (r.after P).Reads other' (P.tensors.size + place) value := by
  have hfrom (count : Nat) (hle : count ≤ r.copies.length) :
      ∃ other', Passes (r.after P) calls' (List.range' P.nodes.size count) other other' []
        ∧ Covers Unchanged P env (r.after P) other'
        ∧ ∀ place < count, ∀ copy, r.copies[place]? = some copy → ∀ value,
          P.Reads env copy.handle value →
            (r.after P).Reads other' (P.tensors.size + place) value := by
    induction count with
    | zero => exact ⟨other, .nil, hcovers, fun _ hlt => absurd hlt (Nat.not_lt_zero _)⟩
    | succ count ih =>
      obtain ⟨middle, hpasses, hcovers', hdone⟩ := ih (Nat.le_of_succ_le hle)
      have hcopy := List.getElem?_eq_getElem (l := r.copies) (i := count) hle
      generalize r.copies[count] = copy at hcopy
      have hnode := node_after_copy hr count
      rw [hcopy] at hnode
      obtain ⟨⟨_, _, _, hsource⟩, -, hgivesHandle, houtputs⟩ := hr.source hP hcopy
      have hcall : ¬ copy.source.node.isCall := by
        rw [Node.givesHandle_ne_call hgivesHandle]
        nofun
      obtain ⟨values, hgives, hreads⟩ := hawaits.gives_after hearlier
        (source_of_copy_mem_earlier hP hlocal hr hcopy) hsource hcall
      rw [houtputs] at hreads
      obtain ⟨value, hvalue, rfl⟩ : ∃ value, P.Reads env copy.handle value ∧ values = [value] := by
        cases hreads with
        | cons hhead hrest =>
          rw [List.forall₂_nil_left_iff.mp hrest]
          exact ⟨_, hhead, rfl⟩
      have hgives' := hgives.redirect (inputs_of_copy hP hr hcopy hcovers' hdone)
      rw [← (hr.copies_ok.added hcopy).kind_eq] at hgives'
      have hbind : middle.bindAll copy.node.outputs [value]
          = .ok (middle.insert (P.tensors.size + count) value) := by
        rw [hr.outputs_of_copy hcopy, Environment.bindAll_singleton]
      refine ⟨middle.insert (P.tensors.size + count) value, ?_, ?_, ?_⟩
      · rw [List.range'_1_concat]
        exact hpasses.append (.inline hnode hgives' hbind .nil)
      · refine hcovers'.bindAll_right (fun id hmem => ?_) hbind
        rw [hr.outputs_of_copy hcopy] at hmem
        exact List.mem_singleton.mp hmem ▸ Nat.le_add_right _ _
      · intro place hlt other hother read hread
        by_cases hsame : place = count
        · subst hsame
          obtain rfl := Option.some.inj (hcopy.symm.trans hother)
          obtain rfl := hvalue.unique hread
          exact reads_insert_self
        · refine (reads_insert_of_ne fun h => hsame (Nat.add_left_cancel h)).mpr ?_
          exact hdone place (by omega) other hother read hread
  obtain ⟨other', hpasses, hcovers', hdone⟩ := hfrom _ (Nat.le_refl _)
  refine ⟨other', hpasses, hcovers', fun place copy hcopy => ?_⟩
  exact hdone place (List.getElem?_eq_some_iff.mp hcopy).1 copy hcopy

/-- The nodes of the subgraph of the call are run as before, and the copies along with them. -/
theorem passes_owner (hlocal : P.HandlesLocal)
    (hcalls : ∀ id callee arguments results inside,
      calls id callee arguments results inside → calls' id callee arguments results inside)
    {entered : List SubgraphId} (hawaits : Awaits P env r.subgraph.nodes)
    (hpasses : Passes P calls r.subgraph.nodes env env' entered)
    (hcovers : Covers Unchanged P env (r.after P) other) :
    ∃ other', Passes (r.after P) calls' (r.relisted P).nodes other other' entered
      ∧ Covers Unchanged P env' (r.after P) other' := by
  have hnodup := hr.nodup hP
  have hmem {id : NodeId} (h : id ∈ r.earlier ∨ id ∈ r.later) :
      id ∈ r.subgraph.nodes ∧ id ≠ r.call := by
    refine ⟨?_, ?_⟩
    · rw [hr.nodes_eq]
      rcases h with h | h
      · exact List.mem_append_left _ h
      · exact List.mem_append_right _ (.tail _ h)
    · rintro rfl
      rcases h with h | h
      · exact hr.call_notMem_earlier hP h
      · exact (List.nodup_cons.mp (List.nodup_append.mp hnodup).2.1).1 h
  rw [hr.nodes_eq] at hpasses hawaits
  obtain ⟨before, inside, outside, hearlier, hrest, rfl⟩ := hpasses.of_append
  obtain ⟨start, hearlier', hcovers'⟩ := hearlier.transfer_kept hP hr.subgraph_eq
    (fun id h => hmem (.inl h)) (fun _ => node_after_old) hcalls hcovers
  obtain ⟨copied, hadded, hcovers', hdone⟩ : ∃ copied,
      Passes (r.after P) calls' (r.added P) start copied []
        ∧ Covers Unchanged P before (r.after P) copied
        ∧ ∀ place copy, r.copies[place]? = some copy → ∀ value, P.Reads before copy.handle value →
          (r.after P).Reads copied (P.tensors.size + place) value :=
    passes_added hP hr hlocal hawaits.of_append hearlier hcovers'
  cases hrest with
  | inline hnode hgives _ _ =>
    obtain rfl := Option.some.inj (hr.node_eq.symm.trans hnode)
    exact absurd (of_decide_eq_true hr.isCall) hgives.ne_call
  | @call _ _ _ _ middle _ handle callee arguments results inner outer hnode hcall hhandle hreads
      hinside hbind hlater =>
    obtain rfl := Option.some.inj (hr.node_eq.symm.trans hnode)
    rw [hr.inputs_eq] at hhandle
    obtain rfl : r.handle = handle := Option.some.inj hhandle
    obtain ⟨copy, hcopy, hsame⟩ := hr.place_eq
    have hreads' := hdone r.place copy hcopy _ (hsame ▸ hreads)
    obtain ⟨middle', hbind', hcovers''⟩ := hcovers'.bindAll (fun _ _ _ _ => rfl) hbind
    obtain ⟨other', hlater', hlast⟩ := hlater.transfer_kept hP hr.subgraph_eq
      (fun id h => hmem (.inr h)) (fun _ => node_after_old) hcalls hcovers''
    refine ⟨other', ?_, hlast⟩
    have hfirst := hearlier'.append hadded
    rw [List.append_nil] at hfirst
    exact hfirst.append (.call (node_after_call hr) hr.isCall rfl hreads'
      (hcalls _ _ _ _ _ hinside) hbind' hlater')

/-- Invocations come to the same when a call has got a handle of its own. -/
theorem invokes_after (hlocal : P.HandlesLocal) (honce : P.WritesOnce) (hlinks : P.links = .empty)
    {allows : NodeId → List SubgraphId → Prop} {levels : Nat} {id : SubgraphId}
    {arguments results : List DenseArray} {entered : List SubgraphId}
    (hinvokes : Invokes P allows levels id arguments results entered) :
    Invokes (r.after P) allows levels id arguments results entered := by
  induction levels generalizing id arguments results entered with
  | zero => exact hinvokes.elim
  | succ levels ih =>
    obtain ⟨subgraph, env, inside, hsubgraph, hbind, hfollows, rfl⟩ := invokes_succ.mp hinvokes
    have hcalls (call : NodeId) (callee : SubgraphId) (arguments results : List DenseArray)
        (inside : List SubgraphId) (h : CallsWithin P allows levels call callee arguments results
          inside) : CallsWithin (r.after P) allows levels call callee arguments results inside :=
      ⟨h.1, ih h.2⟩
    have hnone := bind_linkFor?_eq_none (show (r.after P).links = .empty from hlinks)
    have hcovers : Covers Unchanged P env (r.after P) env :=
      Covers.refl (fun id hlt => tensors_after hlt) env
    obtain ⟨found, env', hfound, hpasses, hreads⟩ := hfollows.without_links hlinks
    obtain rfl := Option.some.inj (hsubgraph.symm.trans hfound)
    have hlt : ∀ output ∈ subgraph.outputs, output < P.tensors.size := fun output hmem =>
      hP.interface hsubgraph output (List.mem_append_right _ hmem)
    by_cases howner : id = r.owner
    · subst howner
      obtain rfl := Option.some.inj (hr.subgraph_eq.symm.trans hsubgraph)
      obtain ⟨other', hpasses', hcovers'⟩ := passes_owner hP hr hlocal hcalls
        (honce.awaits hsubgraph hbind) hpasses hcovers
      exact ⟨_, env, inside, subgraph_after_owner hP hr, hbind, .returns
        (subgraph_after_owner hP hr) hpasses' (hnone _) (hcovers'.forall₂ hlt hreads), rfl⟩
    · have hne : ∀ node ∈ subgraph.nodes, node ∈ subgraph.nodes ∧ node ≠ r.call := by
        refine fun node hmem => ⟨hmem, fun hcall => howner ?_⟩
        exact hP.apart hsubgraph hr.subgraph_eq node hmem (by simp [hcall, hr.nodes_eq])
      obtain ⟨other', hpasses', hcovers'⟩ :=
        hpasses.transfer_kept hP hsubgraph hne (fun _ => node_after_old) hcalls hcovers
      have hafter := (subgraph_after_other howner).trans hsubgraph
      exact ⟨subgraph, env, inside, hafter, hbind, .returns hafter hpasses' (hnone _)
        (hcovers'.forall₂ hlt hreads), rfl⟩

end Copies

end Rewiring

namespace Program.Separates

variable {P P' : Program}

theorem keeps_runs (hP : P.WellFormed) (hlocal : P.HandlesLocal) (honce : P.WritesOnce)
    (hlinks : P.links = .empty) (hseparates : P.Separates P') :
    P'.HandlesLocal ∧ P'.WritesOnce ∧ P'.links = .empty
      ∧ ∀ allows levels id arguments results entered,
        Invokes P allows levels id arguments results entered →
          Invokes P' allows levels id arguments results entered := by
  induction hseparates with
  | refl => exact ⟨hlocal, honce, hlinks, fun _ _ _ _ _ _ h => h⟩
  | tail hbefore hstep ih =>
    obtain ⟨r, hr, rfl⟩ := hstep
    have hP' := Separates.wellFormed hP hbefore
    obtain ⟨hlocal', honce', hlinks', hinvokes⟩ := ih
    refine ⟨Rewiring.handlesLocal_after hP' hlocal' hr, Rewiring.writesOnce_after hP' honce' hr,
      hlinks', fun allows levels id arguments results entered h => ?_⟩
    exact Rewiring.invokes_after hP' hr hlocal' honce' hlinks'
      (hinvokes allows levels id arguments results entered h)

end Program.Separates

end TailFlow
