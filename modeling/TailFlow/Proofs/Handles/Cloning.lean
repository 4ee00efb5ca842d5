import TailFlow.Boundary.Separation
import TailFlow.Proofs.Handles.Flow

/-!
# Copying a handle

Copying a handle adds a copy of each binder and switch that it comes from, sources before the
switches that read them. The copies are numbered on from the nodes that there are, and every copy
writes one tensor, numbered on from the tensors that there are, so that the place of a copy in the
list of copies tells both numbers. `Rewiring` says all that giving a call a handle of its own does to
a program.
-/

namespace TailFlow

structure HandleCopy where
  source : ListedNode
  handle : TensorId
  node : Node

namespace HandleCopy

variable (P : Program) (listing : List ListedNode) (owner : SubgraphId)

/-- The first writer of a tensor is a binder or switch of the subgraph. -/
def Local (handle : TensorId) (source : ListedNode) : Prop :=
  ListedNode.producer? listing handle = some source ∧ source.owner = owner
    ∧ source.node.givesHandle

/-- A handle, and the handles of the subgraph that it is picked from. -/
inductive Upstream (root : TensorId) : TensorId → Prop where
  | root : Upstream root root
  | branch {handle branch : TensorId} {source : ListedNode} (hhandle : Upstream root handle)
      (hlocal : Local listing owner handle source) (hbranch : branch ∈ source.node.branches) :
      Upstream root branch

/-- What a copied switch reads in the place of a handle: the tensor of a copy, or the handle itself
where that does not come from the subgraph. -/
def Redirected (copies : List HandleCopy) (handle fresh : TensorId) : Prop :=
  (fresh = handle ∧ ∀ source, ¬ Local listing owner handle source)
    ∨ ∃ place copy, copies[place]? = some copy ∧ copy.handle = handle
      ∧ fresh = P.tensors.size + place

/-- The node that is added as a copy, when `copies` have been added before. -/
structure Added (root : TensorId) (copies : List HandleCopy) (copy : HandleCopy) : Prop where
  isLocal : Local listing owner copy.handle copy.source
  upstream : Upstream listing owner root copy.handle
  kind_eq : copy.node.kind = copy.source.node.kind
  outputs_eq : copy.node.outputs = [P.tensors.size + copies.length]
  inputs_eq : ∃ branches,
    copy.node.inputs = (if copy.source.node.kind.isSwitch then
      copy.source.node.inputs.take 1 ++ branches else copy.source.node.inputs)
    ∧ List.Forall₂ (Redirected P listing owner copies) copy.source.node.branches branches

inductive Copies (root : TensorId) : List HandleCopy → Prop where
  | nil : Copies root []
  | snoc {copies : List HandleCopy} {copy : HandleCopy} (hcopies : Copies root copies)
      (hadded : Added P listing owner root copies copy) : Copies root (copies ++ [copy])

variable {P listing owner} {root : TensorId} {copies : List HandleCopy}

theorem Redirected.mono {handle fresh : TensorId} (extra : List HandleCopy)
    (h : Redirected P listing owner copies handle fresh) :
    Redirected P listing owner (copies ++ extra) handle fresh := by
  rcases h with hkept | ⟨place, copy, hcopy, hhandle, hfresh⟩
  · exact .inl hkept
  · have hlt := (List.getElem?_eq_some_iff.mp hcopy).1
    exact .inr ⟨place, copy, by rw [List.getElem?_append_left hlt, hcopy], hhandle, hfresh⟩

theorem Copies.added (h : Copies P listing owner root copies) {place : Nat} {copy : HandleCopy}
    (hcopy : copies[place]? = some copy) :
    Added P listing owner root (copies.take place) copy := by
  induction h with
  | nil => simp at hcopy
  | @snoc copies last _ hadded ih =>
    have hlt := (List.getElem?_eq_some_iff.mp hcopy).1
    rw [List.length_append, List.length_singleton] at hlt
    by_cases hlast : place < copies.length
    · rw [List.getElem?_append_left hlast] at hcopy
      rw [List.take_append_of_le_length (Nat.le_of_lt hlast)]
      exact ih hcopy
    · obtain rfl : place = copies.length := by omega
      rw [List.getElem?_append_right (Nat.le_refl _), Nat.sub_self] at hcopy
      obtain rfl : last = copy := by simpa using hcopy
      rwa [List.take_left]

def extend (P : Program) (extra : List Tensor) (copies : List HandleCopy) : Program :=
  { P with
    tensors := P.tensors ++ extra.toArray
    nodes := P.nodes ++ (copies.map HandleCopy.node).toArray }

structure Holds (P : Program) (listing : List ListedNode) (owner : SubgraphId) (root : TensorId)
    (extra : List Tensor) (copies : List HandleCopy) (state : Copying) : Prop where
  copies_ok : Copies P listing owner root copies
  length_eq : extra.length = copies.length
  plain : ∀ tensor ∈ extra, tensor.constant = none
  program_eq : state.program = extend P extra copies
  added_eq : state.added = List.range' P.nodes.size copies.length

/-- What copying a handle leads to: some more copies, the last of which may be that of the handle. -/
def Grows (P : Program) (listing : List ListedNode) (owner : SubgraphId) (root : TensorId)
    (copies : List HandleCopy) (good : List HandleCopy → Prop) (after : Copying) : Prop :=
  ∃ extra more, Holds P listing owner root extra (copies ++ more) after ∧ good (copies ++ more)

theorem addCopy_holds {extra : List Tensor} {state after : Copying}
    (hstate : Holds P listing owner root extra copies state) {handle fresh : TensorId}
    {source : ListedNode} {inputs branches : List TensorId} {tag : String}
    (hlocal : Local listing owner handle source) (hup : Upstream listing owner root handle)
    (hinputs : inputs = if source.node.kind.isSwitch then
      source.node.inputs.take 1 ++ branches else source.node.inputs)
    (hbranches : List.Forall₂ (Redirected P listing owner copies) source.node.branches branches)
    (hadd : (state.addCopy handle source.node inputs tag
      : Outcome ScheduleError (TensorId × Copying)) = .ok (fresh, after)) :
    Grows P listing owner root copies
      (fun copies => Redirected P listing owner copies handle fresh) after := by
  obtain ⟨tensor, -, hadd⟩ := Outcome.bind_eq_ok.mp hadd
  obtain ⟨⟨fresh', program⟩, hlike, hpure⟩ := Outcome.bind_eq_ok.mp hadd
  obtain ⟨rfl, rfl⟩ := Prod.mk.inj (Outcome.pure_eq_ok.mp hpure)
  obtain ⟨hfresh, added, hplain, rfl⟩ := Program.addLike_eq_ok hlike
  have hsize : fresh' = P.tensors.size + copies.length := by
    rw [hfresh, hstate.program_eq]
    simp [extend, hstate.length_eq]
  refine ⟨extra ++ [added],
    [⟨source, handle, ⟨source.node.name ++ "_" ++ tag, source.node.kind, inputs, [fresh']⟩⟩],
    ⟨.snoc hstate.copies_ok ?_, ?_, ?_, ?_, ?_⟩, ?_⟩
  · exact ⟨hlocal, hup, rfl, by rw [hsize], branches, hinputs, hbranches⟩
  · simp [hstate.length_eq]
  · intro tensor hmem
    rcases List.mem_append.mp hmem with hold | hnew
    · exact hstate.plain tensor hold
    · rw [List.mem_singleton.mp hnew, hplain]
  · simp [hstate.program_eq, extend]
  · rw [hstate.added_eq]
    simp only [hstate.program_eq, extend, Array.size_append, List.size_toArray,
      List.length_map, List.length_append, List.length_singleton, List.range'_concat, Nat.one_mul]
  · refine .inr ⟨copies.length, ⟨source, handle, ⟨source.node.name ++ "_" ++ tag,
      source.node.kind, inputs, [fresh']⟩⟩, ?_, rfl, hsize⟩
    rw [List.getElem?_append_right (Nat.le_refl _), Nat.sub_self]
    rfl

theorem each_holds {copy : TensorId → Copying → Outcome ScheduleError (TensorId × Copying)}
    {handles : List TensorId}
    (hcopy : ∀ handle ∈ handles, ∀ extra copies state fresh after,
      Holds P listing owner root extra copies state → copy handle state = .ok (fresh, after) →
      Grows P listing owner root copies
        (fun copies => Redirected P listing owner copies handle fresh) after)
    {extra : List Tensor} {state after : Copying}
    (hstate : Holds P listing owner root extra copies state) {others : List TensorId}
    (heach : Copying.each copy handles state = .ok (others, after)) :
    Grows P listing owner root copies
      (fun copies => List.Forall₂ (Redirected P listing owner copies) handles others) after := by
  induction handles generalizing copies extra state others with
  | nil =>
    obtain ⟨rfl, rfl⟩ := Prod.mk.inj (Except.ok.inj heach)
    exact ⟨extra, [], by simpa using hstate, .nil⟩
  | cons handle rest ih =>
    obtain ⟨⟨fresh, middle⟩, hfirst, heach⟩ := Outcome.bind_eq_ok.mp heach
    obtain ⟨⟨freshes, last⟩, hrest, hpure⟩ := Outcome.bind_eq_ok.mp heach
    obtain ⟨rfl, rfl⟩ := Prod.mk.inj (Outcome.pure_eq_ok.mp hpure)
    obtain ⟨extra', more, hmiddle, hredirected⟩ :=
      hcopy handle List.mem_cons_self _ _ _ _ _ hstate hfirst
    obtain ⟨extra'', more', hlast, hothers⟩ :=
      ih (fun other hmem => hcopy other (.tail _ hmem)) hmiddle hrest
    rw [List.append_assoc] at hlast hothers
    refine ⟨extra'', more ++ more', hlast, .cons ?_ hothers⟩
    rw [← List.append_assoc]
    exact hredirected.mono more'

theorem keep_holds {handle fresh : TensorId} {extra : List Tensor} {state after : Copying}
    (hstate : Holds P listing owner root extra copies state)
    (hnone : ∀ source, ¬ Local listing owner handle source)
    (hkeep : (.ok (handle, state) : Outcome ScheduleError (TensorId × Copying)) = .ok (fresh, after)) :
    Grows P listing owner root copies
      (fun copies => Redirected P listing owner copies handle fresh) after := by
  obtain ⟨rfl, rfl⟩ := Prod.mk.inj (Except.ok.inj hkeep)
  exact ⟨extra, [], by simpa using hstate, .inl ⟨rfl, hnone⟩⟩

theorem copySwitch_holds {copy : TensorId → Copying → Outcome ScheduleError (TensorId × Copying)}
    {handle fresh : TensorId} {source : ListedNode} (hlocal : Local listing owner handle source)
    (hup : Upstream listing owner root handle) (hkind : source.node.kind.isSwitch)
    (hcopy : ∀ branch ∈ source.node.branches, ∀ extra copies state fresh after,
      Holds P listing owner root extra copies state → copy branch state = .ok (fresh, after) →
      Grows P listing owner root copies
        (fun copies => Redirected P listing owner copies branch fresh) after)
    {extra : List Tensor} {state after : Copying}
    (hstate : Holds P listing owner root extra copies state) {tag : String}
    (hswitch : (do
      let copied ← Copying.each copy source.node.branches state
      copied.2.addCopy handle source.node (source.node.inputs.take 1 ++ copied.1) tag)
        = .ok (fresh, after)) :
    Grows P listing owner root copies
      (fun copies => Redirected P listing owner copies handle fresh) after := by
  obtain ⟨⟨branches, middle⟩, hbranches, hadd⟩ := Outcome.bind_eq_ok.mp hswitch
  obtain ⟨extra', more, hmiddle, hredirected⟩ := each_holds hcopy hstate hbranches
  obtain ⟨extra'', more', hlast, hfresh⟩ := addCopy_holds hmiddle hlocal hup
    (by rw [if_pos hkind]) hredirected hadd
  rw [List.append_assoc] at hlast hfresh
  exact ⟨extra'', more ++ more', hlast, hfresh⟩

theorem copyHandle_holds (hP : P.WellFormed)
    (hlist : (P.listing : Outcome ScheduleError (List ListedNode)) = .ok listing) {tag : String}
    {depth : Nat} {handle fresh : TensorId} (hup : Upstream listing owner root handle)
    {extra : List Tensor} {state after : Copying}
    (hstate : Holds P listing owner root extra copies state)
    (hcopy : (Copying.copyHandle P listing owner tag depth handle state
      : Outcome ScheduleError (TensorId × Copying)) = .ok (fresh, after)) :
    Grows P listing owner root copies
      (fun copies => Redirected P listing owner copies handle fresh) after := by
  induction depth generalizing handle fresh copies extra state after with
  | zero => exact absurd hcopy Outcome.abort_ne_ok
  | succ depth ih =>
    unfold Copying.copyHandle at hcopy
    cases hproducer : ListedNode.producer? listing handle with
    | none =>
      rw [hproducer] at hcopy
      exact keep_holds hstate (fun source hlocal => nomatch hproducer.symm.trans hlocal.1) hcopy
    | some source =>
      obtain ⟨hlists, -⟩ := Program.lists_of_producer? hP hlist hproducer
      have hsame {other : ListedNode} (hlocal : Local listing owner handle other) :
          other = source := Option.some.inj (hlocal.1.symm.trans hproducer)
      simp only [hproducer, hP.owner?_eq hlists, bne_iff_ne, ne_eq, Option.some.injEq] at hcopy
      by_cases howner : source.owner = owner
      swap
      · rw [if_pos howner] at hcopy
        exact keep_holds hstate (fun other hlocal => howner (hsame hlocal ▸ hlocal.2.1)) hcopy
      rw [if_neg (not_not_intro howner)] at hcopy
      have hforeign (hgives : source.node.givesHandle = false) (other : ListedNode) :
          ¬ Local listing owner handle other := fun hlocal => by
        rw [← hsame hlocal, hlocal.2.2] at hgives
        exact nomatch hgives
      have hlocal (hgives : source.node.givesHandle) : Local listing owner handle source :=
        ⟨hproducer, howner, hgives⟩
      have hbranches (hgives : source.node.givesHandle) : ∀ branch ∈ source.node.branches,
          Upstream listing owner root branch := fun branch hmem => .branch hup (hlocal hgives) hmem
      cases hkind : source.node.kind with
      | kernel op =>
        rw [hkind] at hcopy
        refine keep_holds hstate (hforeign ?_) hcopy
        simp [Node.givesHandle, Node.callee?, hkind, NodeKind.isSwitch, NodeKind.callee?]
      | bind callee =>
        rw [hkind] at hcopy
        have hnone : List.Forall₂ (Redirected P listing owner copies) source.node.branches [] := by
          simp [Node.branches, hkind, NodeKind.isSwitch]
        refine addCopy_holds hstate (hlocal ?_) hup ?_ hnone hcopy
        · simp [Node.givesHandle, Node.callee?, hkind, NodeKind.callee?]
        · simp [hkind, NodeKind.isSwitch]
      | call =>
        rw [hkind] at hcopy
        refine keep_holds hstate (hforeign ?_) hcopy
        simp [Node.givesHandle, Node.callee?, hkind, NodeKind.isSwitch, NodeKind.callee?]
      | switch | switchLayer =>
        rw [hkind] at hcopy
        have hgives : source.node.givesHandle := by
          simp [Node.givesHandle, hkind, NodeKind.isSwitch]
        exact copySwitch_holds (hlocal hgives) hup (by rw [hkind]; rfl)
          (fun branch hmem _ _ _ _ _ hbefore hone => ih (hbranches hgives branch hmem) hbefore hone)
          hstate hcopy

end HandleCopy

end TailFlow
